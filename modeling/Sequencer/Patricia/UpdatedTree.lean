/-
# Updating a nonempty tree

`update_node_in_nonempty_tree` walks down the original skeleton with the modified leaves below
each node.  A binary node keeps its form; an edge either splits, where a new leaf lies off it
(`update_edge_node`, its first branch), or gets a new bottom where the leaves and its old bottom
part (its second branch).  Part way down an edge, the rest of it is written into the original
skeleton as a fake original (`Records.fakeChild`, `Records.fakeBottom`), so that the recursion
below reads it as it reads a node of the trie.

The recursion is specified at one index (`NonemptySpec`) and proved by induction on the fuel,
each call from the calls it makes (`nonemptySpec_succ`).
-/
import Sequencer.Patricia.UpdatedShape

namespace Sequencer.Patricia

open HeapIndex NodeIndex UpdatedSkeletonTreeImpl

variable {L : Type}

/-- What `update_node_in_nonempty_tree` does at `n`, where the original skeleton records a node
`t` of the original trie below `n`: with the bottom layer in the map below `n`, it returns what
`n` becomes, having added inner nodes, and fake originals, strictly below `n` only. -/
def NonemptySpec (T : Option (Trie L)) (M : LeafModifications SkeletonLeaf) (S : List NodeIndex)
    (f : UpdatedSkeletonTreeImpl → NodeIndex → OriginalSkeletonNodeMap → SortedLeafIndices →
      Option (UpdatedSkeletonTreeImpl × OriginalSkeletonNodeMap × TempSkeletonNode))
    (n : NodeIndex) : Prop :=
  ∀ (t : Trie L) (U : UpdatedSkeletonNodeMap) (O : OriginalSkeletonNodeMap),
    Records T S n t O → UnmodifiedOk T U →
    (∀ k : NodeIndex, IsAncestor n.val k.val → U.get k = bottomLayer M O k) →
    ∃ U' O' r, f ⟨U⟩ n O (leavesBelow S n.val) = some (⟨U'⟩, O', r) ∧ Grows n U U' ∧
      ChangesBelow n O O' ∧ Realizes T U' n (keysBelow (updatedLeaves M (t.keys n.val)) n.val) r

/-! ## 1. Where an edge goes, and its fake originals -/

/-- The lowest common ancestor of two indices, sorted first. -/
theorem getPathToLca_new_pair {n a b : NodeIndex} (hroot : root ≤ n) (hra : root ≤ a)
    (hrb : root ≤ b) (hna : IsAncestor n.val a.val) (hnb : IsAncestor n.val b.val) :
    ∃ p c, getPathToLca n (SortedLeafIndices.new [a, b]) = some p ∧ p.bottomIndex n = some c ∧
      c.val = p.bottomValue n.val ∧ p.length = Nat.size c.val - Nat.size n.val ∧
      IsAncestor c.val a.val ∧ IsAncestor c.val b.val ∧
      ∀ d, IsAncestor d a.val → IsAncestor d b.val → IsAncestor d c.val := by
  obtain ⟨x, y, hxy, hcases⟩ := SortedLeafIndices.new_pair a b
  rw [hxy]
  rcases hcases with ⟨rfl, rfl⟩ | ⟨rfl, rfl⟩
  · exact getPathToLca_eq hroot rfl rfl hra hrb hna hnb
  · obtain ⟨p, c, hp, hc, hval, hlen, hcb, hca, hmax⟩ := getPathToLca_eq (l := [x, y]) hroot rfl rfl
      hrb hra hnb hna
    exact ⟨p, c, hp, hc, hval, hlen, hca, hcb, fun d hda hdb => hmax d hdb hda⟩

/-- The child of `n` an edge from `n` goes through, and the other child. -/
theorem exists_edgeChild {n : NodeIndex} (hroot : root ≤ n) (hleaf : n.isLeaf = false)
    {p : PathToBottom} (hpos : 0 < p.length) :
    ∃ ce co : NodeIndex, (ce.val = 2 * n.val ∨ ce.val = 2 * n.val + 1) ∧
      (co.val = 2 * n.val ∨ co.val = 2 * n.val + 1) ∧ ce ≠ co ∧
      IsAncestor ce.val (p.bottomValue n.val) := by
  have hn : n.val ≠ 0 := Nat.pos_iff_ne_zero.mp hroot
  obtain ⟨c₀, c₁, -, hc₀, hc₁⟩ := getChildrenIndices_eq hleaf
  have hne : c₀ ≠ c₁ := fun h => by have := congrArg NodeIndex.val h; omega
  have hlt : Nat.size n.val < Nat.size (p.bottomValue n.val) := by
    rw [Trie.size_bottomValue hn]; omega
  rcases (Trie.isAncestor_bottomValue hn p).child_of_size_lt hlt with h | h
  · exact ⟨c₀, c₁, .inl hc₀, .inr hc₁, hne, hc₀ ▸ h⟩
  · exact ⟨c₁, c₀, .inr hc₁, .inl hc₀, hne.symm, hc₁ ▸ h⟩

/-- Of the two children, the one that is not `co` is `ce`. -/
theorem eq_of_children {n c ce co : NodeIndex} (hc : c.val = 2 * n.val ∨ c.val = 2 * n.val + 1)
    (hce : ce.val = 2 * n.val ∨ ce.val = 2 * n.val + 1)
    (hco : co.val = 2 * n.val ∨ co.val = 2 * n.val + 1) (hcco : c ≠ co) (hne : ce ≠ co) : c = ce := by
  have h₁ : c.val ≠ co.val := fun h => hcco (NodeIndex.ext h)
  have h₂ : ce.val ≠ co.val := fun h => hne (NodeIndex.ext h)
  exact NodeIndex.ext (by omega)

/-- An entry that is no unmodified subtree leaves the bottom layer as it is. -/
theorem bottomLayer_insert_edge {M : LeafModifications SkeletonLeaf} {O : OriginalSkeletonNodeMap}
    {m : NodeIndex} (h : ∀ hash, O.get m ≠ some (.unmodifiedSubTree hash)) (q : PathToBottom)
    (k : NodeIndex) : bottomLayer M (O.insert m (.edge q)).2 k = bottomLayer M O k := by
  by_cases hkm : k = m
  · subst hkm
    rw [bottomLayer_of_not_unmodified (by simp), bottomLayer_of_not_unmodified h]
  · unfold bottomLayer
    rw [HashMap.get_insert, if_neg hkm]

section Fake

variable {T : Option (Trie L)} {M : LeafModifications SkeletonLeaf} {S : List NodeIndex}
  {n : NodeIndex} {O : OriginalSkeletonNodeMap} {hash : Felt} {p : PathToBottom} {bottom : Trie L}

/-- Part way down an edge, above its bottom, the original skeleton records nothing. -/
theorem Records.get_eq_none_of_edge (hr : Records T S n (.edge hash p bottom) O) (hroot : root ≤ n)
    {m : NodeIndex} (hnm : IsAncestor n.val m.val) (hmn : m ≠ n)
    (hmB : ¬ IsAncestor (p.bottomValue n.val) m.val) : O.get m = none := by
  have hn : n.val ≠ 0 := Nat.pos_iff_ne_zero.mp hroot
  rw [hr.get m hnm, Trie.originalNode_edge_of_ne hn hr.canonical.1 fun h => hmn (NodeIndex.ext h),
    Trie.originalNode_of_not_isAncestor _ (Trie.bottomValue_ne_zero hn p) hmB]

/-- **Below the first step of a split edge**: the rest of the edge, written there as a fake
original when there is a rest, or its bottom. -/
theorem Records.fakeChild (hr : Records T S n (.edge hash p bottom) O) (hroot : root ≤ n)
    {c : NodeIndex} (hc : c.val = 2 * n.val ∨ c.val = 2 * n.val + 1)
    (hcB : IsAncestor c.val (p.bottomValue n.val)) :
    ∃ t' O₁, (if p.length > 1 then (p.removeFirstEdges 1).toOption.map (fun fakeOriginal =>
        (O.insert c (.edge fakeOriginal)).2) = some O₁ else O₁ = O) ∧
      Records T S c t' O₁ ∧ t'.keys c.val = (Trie.edge hash p bottom).keys n.val ∧
      ChangesBelow n O O₁ ∧ ∀ k, bottomLayer M O₁ k = bottomLayer M O k := by
  have hn : n.val ≠ 0 := Nat.pos_iff_ne_zero.mp hroot
  have hnc := isAncestor_child hroot hc
  have hsizec := size_child hroot hc
  have hsizeB := Trie.size_bottomValue hn p
  have hcn : c ≠ n := fun h => by rw [h] at hsizec; omega
  by_cases hlen : p.length > 1
  · -- the rest of the edge is a fake original at `c`
    obtain ⟨q, hq, -, -⟩ := removeFirstEdges_eq p (k := 1) (by omega)
    have hcB' : c.val ≠ p.bottomValue n.val := fun h => by rw [← h] at hsizeB; omega
    obtain ⟨hr', hbottom⟩ := hr.fake hroot hnc hcn hcB hcB' (by rwa [hsizec, Nat.add_sub_cancel_left])
    have hOc : O.get c = none :=
      hr.get_eq_none_of_edge hroot hnc hcn fun h => by have := h.1; omega
    refine ⟨.edge hash q bottom, _, by rw [if_pos hlen, hq]; rfl, hr', ?_, fun k hk => ?_,
      bottomLayer_insert_edge (by simp [hOc]) q⟩
    · rw [Trie.keys_edge, Trie.keys_edge, hbottom]
    · have hkc : k = c := by
        by_contra hkc
        exact hk (by rw [HashMap.get_insert, if_neg hkc])
      rw [hkc]
      exact ⟨hnc, hcn⟩
  · -- an edge of one step ends at `c`
    have hcB : c.val = p.bottomValue n.val :=
      hcB.eq_of_size_eq (by have := hr.wf.1; omega)
    exact ⟨bottom, O, by rw [if_neg hlen], hr.bottom hroot hcB hr.wf.1, by rw [Trie.keys_edge, hcB],
      .refl _ _, fun _ => rfl⟩

/-- **At the new bottom of an edge**, where the leaves and the old bottom part: the rest of the
edge, written there as a fake original, or the old bottom itself. -/
theorem Records.fakeBottom (hr : Records T S n (.edge hash p bottom) O) (hroot : root ≤ n)
    {N B : NodeIndex} {pN : PathToBottom} (hB : B.val = p.bottomValue n.val)
    (hN : N.val = pN.bottomValue n.val) (hlenN : pN.length = Nat.size N.val - Nat.size n.val)
    (hnN : IsAncestor n.val N.val) (hNn : N ≠ n) (hNB : IsAncestor N.val B.val) :
    ∃ t' O₁, (if N = B then pN = p ∧ O₁ = O else
        (p.removeFirstEdges pN.length).toOption.map (fun fakeOriginal =>
          (O.insert N (.edge fakeOriginal)).2) = some O₁) ∧
      Records T S N t' O₁ ∧ t'.keys N.val = (Trie.edge hash p bottom).keys n.val ∧
      ChangesBelow n O O₁ ∧ ∀ k, bottomLayer M O₁ k = bottomLayer M O k := by
  have hn : n.val ≠ 0 := Nat.pos_iff_ne_zero.mp hroot
  have hsizeB := size_bottom hroot hB
  by_cases hNB' : N = B
  · -- the old bottom: the path to it is the edge
    subst hNB'
    have hlen : pN.length = p.length := by omega
    have hpN : pN = p := by
      refine PathToBottom.ext ?_ hlen
      have hval := hN.symm.trans hB
      unfold PathToBottom.bottomValue at hval
      rw [hlen] at hval
      omega
    refine ⟨bottom, O, by rw [if_pos rfl]; exact ⟨hpN, rfl⟩, hr.bottom hroot hB hr.wf.1,
      by rw [Trie.keys_edge, hB], .refl _ _, fun _ => rfl⟩
  · -- part way down: the rest of the edge is a fake original at `N`
    have hNB'' : N.val ≠ p.bottomValue n.val := fun h => hNB' (NodeIndex.ext (h.trans hB.symm))
    have hltB : Nat.size N.val < Nat.size B.val := hNB.size_lt_of_ne fun h => hNB'' (h.symm.trans hB)
    obtain ⟨q, hq, -, -⟩ := removeFirstEdges_eq p (k := pN.length) (by omega)
    obtain ⟨hr', hbottom⟩ := hr.fake hroot hnN hNn (hB ▸ hNB) hNB'' (by rwa [← hlenN])
    have hON : O.get N = none :=
      hr.get_eq_none_of_edge hroot hnN hNn fun h => by have := h.1; rw [← hB] at this; omega
    refine ⟨.edge hash q bottom, _, by rw [if_neg hNB', hq]; rfl, hr', ?_, fun k hk => ?_,
      bottomLayer_insert_edge (by simp [hON]) q⟩
    · rw [Trie.keys_edge, Trie.keys_edge, hbottom]
    · have hkN : k = N := by
        by_contra hkN
        exact hk (by rw [HashMap.get_insert, if_neg hkN])
      rw [hkN]
      exact ⟨hnN, hNn⟩

end Fake

/-! ## 2. An edge under new leaves -/

theorem SortedKeys.leafLayer_eq_none {M : LeafModifications SkeletonLeaf} {S : List NodeIndex}
    (hS : SortedKeys M S) {k : NodeIndex} (hk : k ∉ S) : leafLayer M k = none := by
  rw [leafLayer, if_neg fun hM => hk (hS.mem_of_get hM)]

/-- Above the leaves no index is an updated leaf. -/
theorem SortedKeys.notMem_updatedLeaves {M : LeafModifications SkeletonLeaf} {S : List NodeIndex}
    (hS : SortedKeys M S) {n : NodeIndex} (hleaf : n.isLeaf = false) {K : Set Nat}
    (hK : n.val ∉ K) : n.val ∉ updatedLeaves M K := by
  rintro (⟨j, hj, hjM⟩ | ⟨h, -⟩)
  · have := hS.leaves j (hS.mem_of_get hjM)
    rw [NodeIndex.ext hj, hleaf] at this
    cases this
  · exact hK h

section Edge

variable {T : Option (Trie L)} {M : LeafModifications SkeletonLeaf} {S : List NodeIndex}
  {n : NodeIndex} {O : OriginalSkeletonNodeMap} {hash : Felt} {p : PathToBottom} {bottom : Trie L}
  {U : UpdatedSkeletonNodeMap}

/-- Below `n` and off the way to the bottom of the edge, only new leaves. -/
theorem Records.bottomLayer_off_edge (hr : Records T S n (.edge hash p bottom) O)
    (hroot : root ≤ n) {k : NodeIndex} (hk : IsAncestor n.val k.val)
    (hkB : ¬ IsAncestor (p.bottomValue n.val) k.val) : bottomLayer M O k = leafLayer M k := by
  refine bottomLayer_of_not_unmodified fun hash' hget => ?_
  by_cases hkn : k = n
  · rw [hkn, hr.get n (IsAncestor.refl _)] at hget
    simp [Trie.originalNode] at hget
  · rw [hr.get_eq_none_of_edge hroot hk hkn hkB] at hget
    cases hget

/-- The leaves of an edge are below its bottom. -/
theorem Records.isAncestor_of_mem_keys_edge (hr : Records T S n (.edge hash p bottom) O)
    (hroot : root ≤ n) {i : Nat} (hi : i ∈ (Trie.edge hash p bottom).keys n.val) :
    IsAncestor (p.bottomValue n.val) i := by
  obtain ⟨hpos, hlength, -⟩ := hr.wf
  obtain ⟨B, -, hB⟩ := bottomIndex_eq hroot hlength
  rw [Trie.keys_edge, ← hB] at hi
  rw [← hB]
  exact ((hr.bottom hroot hB hpos).mem_keys
    (root_le_of_isAncestor hroot (isAncestor_bottom hroot hB)) hi).1

/-- What `n` is in the updated trie, from its two children. -/
theorem keysBelow_of_children {K : Set Nat} (hroot : root ≤ n) (hK : n.val ∉ K)
    {c₀ c₁ : NodeIndex} (hc₀ : c₀.val = 2 * n.val) (hc₁ : c₁.val = 2 * n.val + 1) :
    keysBelow K c₀.val ∪ keysBelow K c₁.val = keysBelow K n.val := by
  rw [keysBelow_children (Nat.pos_iff_ne_zero.mp hroot) hK, hc₀, hc₁]

/-- With no leaf below one child, every leaf below `n` is below the other. -/
theorem SortedKeys.isAncestor_of_nil (hS : SortedKeys M S) (hleaf : n.isLeaf = false)
    {ce co : NodeIndex} (hce : ce.val = 2 * n.val ∨ ce.val = 2 * n.val + 1)
    (hco : co.val = 2 * n.val ∨ co.val = 2 * n.val + 1) (hne : ce ≠ co)
    (hother : leavesBelow S co.val = []) : ∀ i ∈ leavesBelow S n.val, IsAncestor ce.val i.val := by
  intro i hi
  obtain ⟨hiS, hni⟩ := mem_leavesBelow.mp hi
  have hin : i ≠ n := fun h => by
    have := hS.leaves i hiS
    rw [h, hleaf] at this
    cases this
  obtain ⟨c, hc, hci⟩ := isAncestor_child_of_ne hni hin
  have hcco : c ≠ co := fun h => by
    have : i ∈ leavesBelow S co.val := mem_leavesBelow.mpr ⟨hiS, h ▸ hci⟩
    rw [hother] at this
    cases this
  exact eq_of_children hc hce hco hcco hne ▸ hci

variable (hS : SortedKeys M S) (hr : Records T S n (.edge hash p bottom) O) (hroot : root ≤ n)
  (hok : UnmodifiedOk T U) (hU : ∀ k : NodeIndex, IsAncestor n.val k.val → U.get k = bottomLayer M O k)
include hS hr hroot hok hU

/-- **The calls below a split edge**: down the rest of the edge at the child `ce` it goes through,
with the rest of it as a fake original, and at the other child `co`, where only new leaves are. -/
theorem Records.splitEdge_calls {f g} {ce co : NodeIndex}
    (hce : ce.val = 2 * n.val ∨ ce.val = 2 * n.val + 1)
    (hco : co.val = 2 * n.val ∨ co.val = 2 * n.val + 1) (hne : ce ≠ co)
    (hceB : IsAncestor ce.val (p.bottomValue n.val)) (hnil : leavesBelow S co.val ≠ [])
    (ihN : NonemptySpec T M S f ce) (ihE : EmptySpec T M S g co) :
    ∃ O₁ U₁ O₂ r₀ U₂ r₁, (if p.length > 1 then (p.removeFirstEdges 1).toOption.map (fun fakeOriginal =>
        (O.insert ce (.edge fakeOriginal)).2) = some O₁ else O₁ = O) ∧
      f ⟨U⟩ ce O₁ (leavesBelow S ce.val) = some (⟨U₁⟩, O₂, r₀) ∧
      g ⟨U₁⟩ co (leavesBelow S co.val) = some (⟨U₂⟩, r₁) ∧
      Grows n U U₂ ∧ ChangesBelow n O O₂ ∧ U₂.get n = none ∧
      Realizes T U₂ ce (keysBelow (updatedLeaves M ((Trie.edge hash p bottom).keys n.val)) ce.val)
        r₀ ∧
      Realizes T U₂ co (keysBelow (updatedLeaves M ((Trie.edge hash p bottom).keys n.val)) co.val)
        r₁ := by
  have hnce := isAncestor_child hroot hce
  have hnco := isAncestor_child hroot hco
  have hsizece := size_child hroot hce
  have hsizeco := size_child hroot hco
  have hpos := hr.wf.1
  have hsizeB := Trie.size_bottomValue (Nat.pos_iff_ne_zero.mp hroot) p
  obtain ⟨t', O₁, hO₁, hr', hkeys, hch₁, hbl⟩ := hr.fakeChild (M := M) hroot hce hceB
  obtain ⟨U₁, O₂, r₀, hf, hg₁, hch₂, hr₀⟩ := ihN t' U O₁ hr' hok fun k hk => by
    rw [hU k (hnce.trans hk), hbl]
  -- the other side is untouched by the first call, and holds only new leaves
  have hoff : ∀ k : NodeIndex, IsAncestor co.val k.val → ¬ IsAncestor ce.val k.val := fun k hk =>
    not_isAncestor_of_sibling hroot hco hce hne.symm hk
  obtain ⟨U₂, r₁, hg, hg₂, hr₁⟩ := ihE U₁ (hok.grows hg₁) (fun k hk => by
    rw [hg₁.get_eq (.inl (hoff k hk)), hU k (hnco.trans hk),
      hr.bottomLayer_off_edge hroot (hnco.trans hk) fun h => hoff k hk (hceB.trans h)]) hnil
  have hleaf : n.isLeaf = false := hr.wf.isLeaf_eq
  have hU₂n : U₂.get n = none := by
    rw [hg₂.get_eq (.inl fun h => by have := h.1; omega),
      hg₁.get_eq (.inl fun h => by have := h.1; omega), hU n (IsAncestor.refl _),
      hr.bottomLayer_off_edge hroot (IsAncestor.refl _) fun h => by have := h.1; omega]
    exact hS.leafLayer_eq_none fun h => by rw [hS.leaves n h] at hleaf; cases hleaf
  -- no old leaf is on the other side
  have hKco : keysBelow (updatedLeaves M ((Trie.edge hash p bottom).keys n.val)) co.val =
      keysBelow (updatedLeaves M ∅) co.val := by
    refine keysBelow_updatedLeaves_congr fun i hi => ⟨fun hiK => ?_, fun h => absurd h (Set.notMem_empty i)⟩
    have hcei := hceB.trans (hr.isAncestor_of_mem_keys_edge hroot hiK)
    exact absurd (NodeIndex.ext (hcei.eq_of_common hi (by omega))) hne
  refine ⟨O₁, U₁, O₂, r₀, U₂, r₁, hO₁, hf, hg, (hg₁.mono hnce).trans (hg₂.mono hnco),
    hch₁.trans (hch₂.mono hnce), hU₂n, ?_, hKco ▸ hr₁⟩
  rw [hkeys] at hr₀
  exact hr₀.congr (root_le_of_isAncestor hroot hnce) fun k hk =>
    hg₂.get_eq (.inl (not_isAncestor_of_sibling hroot hce hco hne hk))

/-- **`update_edge_node`, a new leaf off the edge**: `n` becomes binary, over the rest of the edge
on one side and the new leaves on the other. -/
theorem Records.updateEdgeNode_split {f g} {ce co : NodeIndex}
    (hce : ce.val = 2 * n.val ∨ ce.val = 2 * n.val + 1)
    (hco : co.val = 2 * n.val ∨ co.val = 2 * n.val + 1) (hne : ce ≠ co)
    (hceB : IsAncestor ce.val (p.bottomValue n.val)) (hnil : leavesBelow S co.val ≠ [])
    (ihN : NonemptySpec T M S f ce) (ihE : EmptySpec T M S g co) :
    ∃ U' O' r, updateEdgeNode f g ⟨U⟩ n p O (leavesBelow S n.val) = some (⟨U'⟩, O', r) ∧
      Grows n U U' ∧ ChangesBelow n O O' ∧
      Realizes T U' n (keysBelow (updatedLeaves M ((Trie.edge hash p bottom).keys n.val)) n.val)
        r := by
  obtain ⟨O₁, U₁, O₂, r₀, U₂, r₁, hO₁, hf, hg, hgrow, hch, hU₂n, hr₀, hr₁⟩ :=
    hr.splitEdge_calls hS hroot hok hU hce hco hne hceB hnil ihN ihE
  have hn : n.val ≠ 0 := Nat.pos_iff_ne_zero.mp hroot
  have hleaf : n.isLeaf = false := hr.wf.isLeaf_eq
  obtain ⟨c₀, c₁, hchildren, hc₀, hc₁⟩ := getChildrenIndices_eq hleaf
  have hK := keysBelow_of_children (K := updatedLeaves M ((Trie.edge hash p bottom).keys n.val))
    hroot (hS.notMem_updatedLeaves hleaf fun h => by
      rw [isLeaf_iff_size.mpr (hr.mem_keys hroot h).2] at hleaf
      cases hleaf) hc₀ hc₁
  have hsizece := size_child hroot hce
  have hsize₀ : Nat.size (2 * n.val) = Nat.size n.val + 1 := size_two_mul_add (b := 0) hn (by decide)
  have hne₀₁ : c₀ ≠ c₁ := fun h => by have := congrArg NodeIndex.val h; omega
  simp only [updateEdgeNode, hchildren, splitLeaves_leavesBelow hroot hleaf hS.sorted hS.leaves,
    isLeftDescendant_eq hr.wf.1 hn, Option.bind_eq_bind, Option.bind_some]
  -- the code orders the two sides by the way the edge goes first
  by_cases hw : IsAncestor (2 * n.val) (p.bottomValue n.val)
  · -- the edge goes left: the new leaves are on the right
    have hce₀ : ce.val = 2 * n.val := (hw.eq_of_common hceB (by omega)).symm
    obtain rfl : c₀ = ce := NodeIndex.ext (hc₀.trans hce₀.symm)
    obtain rfl : c₁ = co := eq_of_children (.inr hc₁) hco (.inl hc₀) hne₀₁.symm hne.symm
    obtain ⟨U₃, r, hnode, hg₃, hr₃⟩ :=
      nodeFromBinaryData_spec (hok.grows hgrow) hroot hleaf hc₀ hc₁ hr₀ hr₁ hU₂n
    refine ⟨U₃, O₂, r, ?_, hgrow.trans hg₃, hch, hK ▸ hr₃⟩
    rw [hc₁] at hnil
    rw [if_pos (by simp [hw, hnil])]
    simp only [decide_eq_true hw, ↓reduceIte]
    rw [hc₀] at hf
    rw [hc₁] at hg
    split_ifs at hO₁ ⊢
    · simp only [hO₁, Option.bind_some, hf, hg, hnode]
      rfl
    · subst hO₁
      simp only [hf, Option.bind_some, hg, hnode]
      rfl
  · -- the edge goes right: the new leaves are on the left
    have hce₁ : ce.val = 2 * n.val + 1 := hce.resolve_left fun h => hw (h ▸ hceB)
    obtain rfl : c₁ = ce := NodeIndex.ext (hc₁.trans hce₁.symm)
    obtain rfl : c₀ = co := eq_of_children (.inl hc₀) hco (.inr hc₁) hne₀₁ hne.symm
    obtain ⟨U₃, r, hnode, hg₃, hr₃⟩ :=
      nodeFromBinaryData_spec (hok.grows hgrow) hroot hleaf hc₀ hc₁ hr₁ hr₀ hU₂n
    refine ⟨U₃, O₂, r, ?_, hgrow.trans hg₃, hch, hK ▸ hr₃⟩
    rw [hc₀] at hnil
    rw [if_pos (by simp [hw, hnil])]
    simp only [decide_eq_false hw, ↓reduceIte, Bool.false_eq_true]
    rw [hc₁] at hf
    rw [hc₀] at hg
    split_ifs at hO₁ ⊢
    · simp only [hO₁, Option.bind_some, hf, hg, hnode]
      rfl
    · subst hO₁
      simp only [hf, Option.bind_some, hg, hnode]
      rfl

/-- **`update_edge_node`, every leaf on the edge's side**: a new edge from `n` down to where the
leaves and the old bottom part, over the rest of the old edge there. -/
theorem Records.updateEdgeNode_descend {f g} {ce co : NodeIndex}
    (hce : ce.val = 2 * n.val ∨ ce.val = 2 * n.val + 1)
    (hco : co.val = 2 * n.val ∨ co.val = 2 * n.val + 1) (hne : ce ≠ co)
    (hceB : IsAncestor ce.val (p.bottomValue n.val)) (hother : leavesBelow S co.val = [])
    (hnil : leavesBelow S n.val ≠ [])
    (ihN : ∀ c : NodeIndex, IsAncestor n.val c.val → Nat.size n.val < Nat.size c.val →
      NonemptySpec T M S f c) :
    ∃ U' O' r, updateEdgeNode f g ⟨U⟩ n p O (leavesBelow S n.val) = some (⟨U'⟩, O', r) ∧
      Grows n U U' ∧ ChangesBelow n O O' ∧
      Realizes T U' n (keysBelow (updatedLeaves M ((Trie.edge hash p bottom).keys n.val)) n.val)
        r := by
  have hn : n.val ≠ 0 := Nat.pos_iff_ne_zero.mp hroot
  have hleaf : n.isLeaf = false := hr.wf.isLeaf_eq
  obtain ⟨hpos, hlength, -⟩ := hr.wf
  have hnce := isAncestor_child hroot hce
  have hsizece := size_child hroot hce
  have hallce := hS.isAncestor_of_nil hleaf hce hco hne hother
  -- where the leaves part
  obtain ⟨a, ha⟩ : ∃ a, (leavesBelow S n.val).head? = some a := ⟨_, List.head?_eq_some_head hnil⟩
  obtain ⟨b, hb⟩ : ∃ b, (leavesBelow S n.val).getLast? = some b :=
    ⟨_, List.getLast?_eq_some_getLast hnil⟩
  have haS := List.mem_of_head? ha
  have hbS := List.mem_of_getLast? hb
  obtain ⟨pℓ, ℓ, hpℓ, hℓ, -, -, hℓa, hℓb, hℓmax⟩ := getPathToLca_eq hroot ha hb
    (root_le_of_isLeaf (hS.leaves a (mem_leavesBelow.mp haS).1))
    (root_le_of_isLeaf (hS.leaves b (mem_leavesBelow.mp hbS).1))
    (mem_leavesBelow.mp haS).2 (mem_leavesBelow.mp hbS).2
  have hall := isAncestor_of_head_of_getLast (pairwise_leavesBelow hS.sorted _)
    (fun i hi => hS.leaves i (mem_leavesBelow.mp hi).1) ha hb hℓa hℓb
  have hceℓ : IsAncestor ce.val ℓ.val := hℓmax ce.val (hallce a haS) (hallce b hbS)
  -- where they part from the old bottom: the new bottom, below the edge's child
  obtain ⟨B, hB, hBval⟩ := bottomIndex_eq hroot hlength
  have hnB := isAncestor_bottom hroot hBval
  obtain ⟨pN, N, hpN, hN, hNval, hNlen, hNℓ, hNB, hNmax⟩ := getPathToLca_new_pair hroot
    (root_le_of_isAncestor hroot (hnce.trans hceℓ)) (root_le_of_isAncestor hroot hnB)
    (hnce.trans hceℓ) hnB
  have hceN : IsAncestor ce.val N.val := hNmax ce.val hceℓ (hBval ▸ hceB)
  have hnN := hnce.trans hceN
  have hltN : Nat.size n.val < Nat.size N.val := by have := hceN.1; omega
  have hNn : N ≠ n := fun h => by rw [h] at hltN; omega
  obtain ⟨t', O₁, hO₁, hr', hkeys, hch₁, hbl⟩ :=
    hr.fakeBottom (M := M) hroot hBval hNval hNlen hnN hNn hNB
  have hlN : leavesBelow S N.val = leavesBelow S n.val :=
    leavesBelow_eq_of_isAncestor hnN fun i hi => hNℓ.trans (hall i hi)
  obtain ⟨U₁, O₂, r₀, hf, hg₁, hch₂, hr₀⟩ := ihN N hnN hltN t' U O₁ hr' hok fun k hk => by
    rw [hU k (hnN.trans hk), hbl]
  rw [hlN] at hf
  -- off the way to the new bottom there is nothing
  obtain ⟨U₂, r, hnode, hg₂, hr₂⟩ := nodeFromEdgeData_spec (hok.grows hg₁) hroot (p := pN)
    (by omega) (by have := size_le N; omega) hNval hr₀ fun k hk hkN => by
      rw [hg₁.get_eq (.inl hkN), hU k hk,
        hr.bottomLayer_off_edge hroot hk fun h => hkN (hNB.trans (hBval ▸ h))]
      exact hS.leafLayer_eq_none fun hkS =>
        hkN (hNℓ.trans (hall k (mem_leavesBelow.mpr ⟨hkS, hk⟩)))
  -- the updated leaves below `n` are below the new bottom
  have hK : keysBelow (updatedLeaves M (t'.keys N.val)) N.val =
      keysBelow (updatedLeaves M ((Trie.edge hash p bottom).keys n.val)) n.val := by
    rw [hkeys]
    refine keysBelow_eq_of_isAncestor hnN fun i hi hni => ?_
    rcases hi with ⟨j, rfl, hj⟩ | ⟨hiK, -⟩
    · exact hNℓ.trans (hall j (mem_leavesBelow.mpr ⟨hS.mem_of_get hj, hni⟩))
    · exact hNB.trans (hBval ▸ hr.isAncestor_of_mem_keys_edge hroot hiK)
  refine ⟨U₂, O₂, r, ?_, (hg₁.mono hnN).trans hg₂, hch₁.trans (hch₂.mono hnN), hK ▸ hr₂⟩
  obtain ⟨c₀, c₁, hchildren, hc₀, hc₁⟩ := getChildrenIndices_eq hleaf
  simp only [updateEdgeNode, hchildren, splitLeaves_leavesBelow hroot hleaf hS.sorted hS.leaves,
    isLeftDescendant_eq hpos hn, Option.bind_eq_bind, Option.bind_some]
  rw [if_neg ?cond]
  · simp only [hpℓ, hℓ, hB, hpN, hN, Option.bind_some]
    split_ifs at hO₁ ⊢ with hNB' hpp
    · -- every leaf is below the old bottom
      obtain ⟨-, rfl⟩ := hO₁
      simp only [hf, Option.bind_some, hnode]
      rfl
    · exact absurd hO₁.1 hpp
    · -- the rest of the edge is a fake original at the new bottom
      simp only [hO₁, Option.bind_some, hf, hnode]
      rfl
  -- the side the edge does not go through has no leaves
  have hsize₀ : Nat.size (2 * n.val) = Nat.size n.val + 1 := size_two_mul_add (b := 0) hn (by decide)
  by_cases hw : IsAncestor (2 * n.val) (p.bottomValue n.val)
  · have hce₀ : ce.val = 2 * n.val := (hw.eq_of_common hceB (by omega)).symm
    have hco₁ : co.val = 2 * n.val + 1 :=
      hco.resolve_left fun h => hne (NodeIndex.ext (hce₀.trans h.symm))
    rw [hco₁] at hother
    simp [hw, hother]
  · have hce₁ : ce.val = 2 * n.val + 1 := hce.resolve_left fun h => hw (h ▸ hceB)
    have hco₀ : co.val = 2 * n.val :=
      hco.resolve_right fun h => hne (NodeIndex.ext (hce₁.trans h.symm))
    rw [hco₀] at hother
    simp [hw, hother]

/-- **`update_edge_node`**, from what the calls below `n` do. -/
theorem Records.updateEdgeNode_spec {f g}
    (ihN : ∀ c : NodeIndex, IsAncestor n.val c.val → Nat.size n.val < Nat.size c.val →
      NonemptySpec T M S f c)
    (ihE : ∀ c : NodeIndex, IsAncestor n.val c.val → Nat.size n.val < Nat.size c.val →
      EmptySpec T M S g c)
    (hnil : leavesBelow S n.val ≠ []) :
    ∃ U' O' r, updateEdgeNode f g ⟨U⟩ n p O (leavesBelow S n.val) = some (⟨U'⟩, O', r) ∧
      Grows n U U' ∧ ChangesBelow n O O' ∧
      Realizes T U' n (keysBelow (updatedLeaves M ((Trie.edge hash p bottom).keys n.val)) n.val)
        r := by
  obtain ⟨ce, co, hce, hco, hne, hceB⟩ := exists_edgeChild hroot hr.wf.isLeaf_eq hr.wf.1
  by_cases hother : leavesBelow S co.val = []
  · exact hr.updateEdgeNode_descend hS hroot hok hU hce hco hne hceB hother hnil ihN
  · have hlt : ∀ c : NodeIndex, (c.val = 2 * n.val ∨ c.val = 2 * n.val + 1) →
        Nat.size n.val < Nat.size c.val := fun c hc => by rw [size_child hroot hc]; omega
    exact hr.updateEdgeNode_split hS hroot hok hU hce hco hne hceB hother
      (ihN ce (isAncestor_child hroot hce) (hlt ce hce))
      (ihE co (isAncestor_child hroot hco) (hlt co hco))

end Edge

/-! ## 3. One call, and the recursion -/

section Nonempty

variable {T : Option (Trie L)} {M : LeafModifications SkeletonLeaf} {S : List NodeIndex}
  {n : NodeIndex} {O : OriginalSkeletonNodeMap} {U : UpdatedSkeletonNodeMap}

/-- **The calls below a modified binary node**: at its left child, then at its right one, and the
node built over them. -/
theorem Records.binary_calls (hS : SortedKeys M S) {hash : Felt} {left right : Trie L}
    (hr : Records T S n (.binary hash left right) O) (hroot : root ≤ n) (hok : UnmodifiedOk T U)
    (hU : ∀ k : NodeIndex, IsAncestor n.val k.val → U.get k = bottomLayer M O k)
    (hS' : (leavesBelow S n.val).isEmpty = false) {f} {c₀ c₁ : NodeIndex}
    (hc₀ : c₀.val = 2 * n.val) (hc₁ : c₁.val = 2 * n.val + 1)
    (ih₀ : NonemptySpec T M S f c₀) (ih₁ : NonemptySpec T M S f c₁) :
    ∃ U₁ O₁ r₀ U₂ O₂ r₁ U₃ r, f ⟨U⟩ c₀ O (leavesBelow S c₀.val) = some (⟨U₁⟩, O₁, r₀) ∧
      f ⟨U₁⟩ c₁ O₁ (leavesBelow S c₁.val) = some (⟨U₂⟩, O₂, r₁) ∧
      nodeFromBinaryData ⟨U₂⟩ n r₀ r₁ = some (⟨U₃⟩, r) ∧ Grows n U U₃ ∧ ChangesBelow n O O₂ ∧
      Realizes T U₃ n
        (keysBelow (updatedLeaves M ((Trie.binary hash left right).keys n.val)) n.val) r := by
  have hleaf : n.isLeaf = false := hr.wf.isLeaf_eq
  have hn₀ := isAncestor_child hroot (.inl hc₀)
  have hn₁ := isAncestor_child hroot (.inr hc₁)
  have hsize₀ := size_child hroot (.inl hc₀)
  have hsize₁ := size_child hroot (.inr hc₁)
  have hne : c₀ ≠ c₁ := fun h => by have := congrArg NodeIndex.val h; omega
  have hoff₀ : ∀ k : NodeIndex, IsAncestor c₁.val k.val → ¬ IsAncestor c₀.val k.val := fun k hk =>
    not_isAncestor_of_sibling hroot (.inr hc₁) (.inl hc₀) hne.symm hk
  have hoff₁ : ∀ k : NodeIndex, IsAncestor c₀.val k.val → ¬ IsAncestor c₁.val k.val := fun k hk =>
    not_isAncestor_of_sibling hroot (.inl hc₀) (.inr hc₁) hne hk
  have hr₀ := hr.left hroot hS' hc₀
  have hr₁ := hr.right hroot hS' hc₁
  obtain ⟨U₁, O₁, r₀, hf₀, hg₁, hch₁, hre₀⟩ :=
    ih₀ left U O hr₀ hok fun k hk => hU k (hn₀.trans hk)
  -- the left call leaves the right side as it was
  have hO₁ : ∀ k : NodeIndex, IsAncestor c₁.val k.val → O₁.get k = O.get k := fun k hk =>
    hch₁.get_eq (.inl (hoff₀ k hk))
  obtain ⟨U₂, O₂, r₁, hf₁, hg₂, hch₂, hre₁⟩ :=
    ih₁ right U₁ O₁ (hr₁.congr hO₁) (hok.grows hg₁) fun k hk => by
      rw [hg₁.get_eq (.inl (hoff₀ k hk)), hU k (hn₁.trans hk), bottomLayer, bottomLayer, hO₁ k hk]
  have hU₂n : U₂.get n = none := by
    rw [hg₂.get_eq (.inl fun h => by have := h.1; omega),
      hg₁.get_eq (.inl fun h => by have := h.1; omega), hU n (IsAncestor.refl _),
      bottomLayer_of_not_unmodified (by simp [hr.get n (IsAncestor.refl _), Trie.originalNode, hS'])]
    exact hS.leafLayer_eq_none fun h => by rw [hS.leaves n h] at hleaf; cases hleaf
  obtain ⟨U₃, r, hnode, hg₃, hre⟩ := nodeFromBinaryData_spec ((hok.grows hg₁).grows hg₂) hroot
    hleaf hc₀ hc₁ (hre₀.congr (root_le_of_isAncestor hroot hn₀) fun k hk =>
      hg₂.get_eq (.inl (hoff₁ k hk))) hre₁ hU₂n
  refine ⟨U₁, O₁, r₀, U₂, O₂, r₁, U₃, r, hf₀, hf₁, hnode,
    (hg₁.mono hn₀).trans ((hg₂.mono hn₁).trans hg₃), (hch₁.mono hn₀).trans (hch₂.mono hn₁), ?_⟩
  -- below each child, the leaves of that child
  have hKc : ∀ {c c' : NodeIndex} {t t' : Trie L}, Nat.size c.val = Nat.size c'.val → c ≠ c' →
      Records T S c' t' O → root ≤ c' →
      keysBelow (updatedLeaves M (t.keys c.val ∪ t'.keys c'.val)) c.val =
        keysBelow (updatedLeaves M (t.keys c.val)) c.val := by
    intro c c' t t' hsize hcc' hr' hroot'
    refine keysBelow_updatedLeaves_congr fun i hci => ⟨?_, .inl⟩
    rintro (hi | hi)
    · exact hi
    · exact absurd (NodeIndex.ext (hci.eq_of_common (hr'.mem_keys hroot' hi).1 hsize)) hcc'
  have hnotX : n.val ∉ updatedLeaves M ((Trie.binary hash left right).keys n.val) :=
    hS.notMem_updatedLeaves hleaf fun h => by
      rw [isLeaf_iff_size.mpr (hr.mem_keys hroot h).2] at hleaf
      cases hleaf
  have hkeys : (Trie.binary hash left right).keys n.val = left.keys c₀.val ∪ right.keys c₁.val := by
    rw [Trie.keys_binary, hc₀, hc₁]
  rw [← keysBelow_of_children hroot hnotX hc₀ hc₁, hkeys,
    hKc (by omega) hne hr₁ (root_le_of_isAncestor hroot hn₁),
    Set.union_comm (left.keys c₀.val), hKc (by omega) hne.symm hr₀ (root_le_of_isAncestor hroot hn₀)]
  exact hre

/-- **One call of `update_node_in_nonempty_tree`**, from what the calls below it do. -/
theorem nonemptySpec_succ (hS : SortedKeys M S) {fuel : Nat} {n : NodeIndex} (hroot : root ≤ n)
    (ihN : ∀ c : NodeIndex, IsAncestor n.val c.val → Nat.size n.val < Nat.size c.val →
      NonemptySpec T M S (updateNodeInNonemptyTree fuel) c)
    (ihE : ∀ c : NodeIndex, IsAncestor n.val c.val → Nat.size n.val < Nat.size c.val →
      EmptySpec T M S (updateNodeInEmptyTree fuel) c) :
    NonemptySpec T M S (updateNodeInNonemptyTree (fuel + 1)) n := by
  intro t U O hr hok hU
  rw [updateNodeInNonemptyTree]
  by_cases hnil : leavesBelow S n.val = []
  · -- nothing modified below `n`: what the original skeleton records there stays
    rw [if_neg (by simp [hnil])]
    cases t with
    | edge hash p bottom =>
      obtain ⟨hOn, hre⟩ := hr.realizes_unmodifiedEdge hS hroot hok hU hnil
      exact ⟨U, O, _, by simp [hOn, hnil], .refl _ _, .refl _ _, hre⟩
    | binary hash left right =>
      obtain ⟨hOn, hre⟩ := hr.realizes_unmodifiedSubTree hS hroot hU hnil rfl
      exact ⟨U, O, _, by simp [hOn, hnil], .refl _ _, .refl _ _, hre⟩
    | leaf hash data =>
      obtain ⟨hOn, hre⟩ := hr.realizes_unmodifiedSubTree hS hroot hU hnil rfl
      exact ⟨U, O, _, by simp [hOn, hnil], .refl _ _, .refl _ _, hre⟩
  cases t with
  | leaf hash data =>
    -- a modified leaf
    have hleaf : n.isLeaf = true := hr.wf.isLeaf_eq
    have hS1 := hS.leavesBelow_of_isLeaf hleaf hnil
    have hnS : n ∈ S := (mem_leavesBelow.mp (hS1 ▸ List.mem_singleton_self n)).1
    have hOn : O.get n = none := by
      rw [hr.get n (IsAncestor.refl _)]
      simp [Trie.originalNode, hS1]
    refine ⟨U, O, _, ?_, .refl _ _, .refl _ _, hS.realizes_modifiedLeaf hleaf hnS
      (by rw [hU n (IsAncestor.refl _), bottomLayer_of_not_unmodified (by simp [hOn])])
      fun i hi _ => by rwa [Trie.keys_leaf] at hi⟩
    rw [if_pos (by simp [hleaf, hS1])]
    split <;> rfl
  | binary hash left right =>
    have hleaf : n.isLeaf = false := hr.wf.isLeaf_eq
    have hS' : (leavesBelow S n.val).isEmpty = false := by simpa using hnil
    have hOn : O.get n = some .binary := by
      rw [hr.get n (IsAncestor.refl _)]
      simp [Trie.originalNode, hS']
    obtain ⟨c₀, c₁, hchildren, hc₀, hc₁⟩ := getChildrenIndices_eq hleaf
    have hlt : ∀ c : NodeIndex, (c.val = 2 * n.val ∨ c.val = 2 * n.val + 1) →
        Nat.size n.val < Nat.size c.val := fun c hc => by rw [size_child hroot hc]; omega
    obtain ⟨U₁, O₁, r₀, U₂, O₂, r₁, U₃, r, hf₀, hf₁, hnode, hg, hch, hre⟩ :=
      hr.binary_calls hS hroot hok hU hS' hc₀ hc₁
        (ihN c₀ (isAncestor_child hroot (.inl hc₀)) (hlt c₀ (.inl hc₀)))
        (ihN c₁ (isAncestor_child hroot (.inr hc₁)) (hlt c₁ (.inr hc₁)))
    refine ⟨U₃, O₂, r, ?_, hg, hch, hre⟩
    rw [hc₀] at hf₀
    rw [hc₁] at hf₁
    rw [if_neg (by simp [hleaf])]
    simp only [hOn, hS', splitLeaves_leavesBelow hroot hleaf hS.sorted hS.leaves, hchildren, hf₀,
      hf₁, hnode, Option.bind_eq_bind, Option.bind_some]
    rfl
  | edge hash p bottom =>
    have hleaf : n.isLeaf = false := hr.wf.isLeaf_eq
    have hOn : O.get n = some (.edge p) := by
      rw [hr.get n (IsAncestor.refl _)]
      simp [Trie.originalNode]
    obtain ⟨U', O', r, h, hg, hch, hre⟩ := hr.updateEdgeNode_spec hS hroot hok hU ihN ihE hnil
    refine ⟨U', O', r, ?_, hg, hch, hre⟩
    rw [if_neg (by simp [hleaf])]
    simp only [hOn]
    rw [if_neg (by simpa using hnil)]
    exact h
/-- **`update_node_in_nonempty_tree`** with enough fuel to reach the leaves. -/
theorem updateNodeInNonemptyTree_spec (hS : SortedKeys M S) (fuel : Nat) :
    ∀ n : NodeIndex, root ≤ n → 252 < Nat.size n.val + fuel →
      NonemptySpec T M S (updateNodeInNonemptyTree fuel) n := by
  induction fuel with
  | zero =>
    intro n _ hfuel
    have := size_le n
    omega
  | succ fuel ih =>
    intro n hroot hfuel
    exact nonemptySpec_succ hS hroot
      (fun c hnc hlt => ih c (root_le_of_isAncestor hroot hnc) (by omega))
      fun c hnc hlt => updateNodeInEmptyTree_spec hS fuel c (root_le_of_isAncestor hroot hnc) (by omega)

end Nonempty

end Sequencer.Patricia
