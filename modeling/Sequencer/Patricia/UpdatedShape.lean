/-
# The updated skeleton is the canonical trie of the updated leaves

`UpdatedSkeletonTreeImpl::create` reads the original skeleton of a stored trie and the modified
leaves, and builds the skeleton of the trie after the update.  From its root, the nodes it builds
spell the canonical compressed trie of the leaves after the update (`updatedLeaves`): a modified
leaf is there when it is not zero, an unmodified leaf stays.  Every node it builds is on the way
down from the root.

The two recursions of `create_tree_helper.rs` are specified at one index each (`EmptySpec`,
`NonemptySpec`): given the bottom layer below the index, the call returns what the index becomes
(`Realizes`), having added inner nodes strictly below it only.  One call is proved from the calls
it makes (`emptySpec_succ`, `nonemptySpec_succ`), and the recursion from that by induction on the
fuel: each call goes at least one level down, so 252 calls reach every leaf.
-/
import Sequencer.Patricia.OriginalNodes

namespace Sequencer.Patricia

open HeapIndex NodeIndex UpdatedSkeletonTreeImpl

variable {L : Type}

/-! ## 1. The leaves after the update, and the bottom layer -/

/-- The leaves of a trie after the modifications `M`, from its leaves `K` before: a modified leaf
is there when it is not zero, an unmodified one stays. -/
def updatedLeaves (M : LeafModifications SkeletonLeaf) (K : Set Nat) : Set Nat :=
  {i | ∃ j : NodeIndex, j.val = i ∧ M.get j = some .nonZero} ∪
    {i | i ∈ K ∧ ∀ j : NodeIndex, j.val = i → M.get j = none}

/-- The indices of `K` below the node `n`. -/
def keysBelow (K : Set Nat) (n : Nat) : Set Nat := {i | i ∈ K ∧ IsAncestor n i}

/-- `S` lists, in order, the indices `M` modifies, all leaves. -/
structure SortedKeys (M : LeafModifications SkeletonLeaf) (S : List NodeIndex) : Prop where
  sorted : S.Pairwise (· < ·)
  leaves : ∀ i ∈ S, i.isLeaf = true
  mem_iff : ∀ i, i ∈ S ↔ (M.get i).isSome

/-- The leaf `finalize_bottom_layer` puts at an index. -/
def leafLayer (M : LeafModifications SkeletonLeaf) (k : NodeIndex) : Option UpdatedSkeletonNode :=
  if M.get k = some .nonZero then some .leaf else none

/-- The node `finalize_bottom_layer` puts at an index: an unmodified subtree of the original
skeleton, or else a leaf that is not zero. -/
def bottomLayer (M : LeafModifications SkeletonLeaf) (O : OriginalSkeletonNodeMap) (k : NodeIndex) :
    Option UpdatedSkeletonNode :=
  match O.get k with
  | some (.unmodifiedSubTree hash) => some (.unmodifiedSubTree hash)
  | _ => leafLayer M k

/-- **`finalize_bottom_layer`** puts the bottom layer in the map, given one entry per index in
the modifications and in the original skeleton. -/
theorem finalizeBottomLayer_get (O : OriginalSkeletonTreeImpl) (M : LeafModifications SkeletonLeaf)
    (hM : (M.map Prod.fst).Nodup) (hO : (O.nodes.map Prod.fst).Nodup) (k : NodeIndex) :
    (finalizeBottomLayer O M).get k = bottomLayer M O.nodes k := by
  -- the leaves are the non-zero modifications, kept under their index
  have hleaves : ((M.filter fun m => !m.2.isZero).map fun m => (m.1, UpdatedSkeletonNode.leaf)) =
      M.filterMap fun e =>
        ((if e.2.isZero then none else some UpdatedSkeletonNode.leaf).map fun v => (e.1, v)) := by
    induction M with
    | nil => rfl
    | cons e M ih =>
      rw [List.map_cons, List.nodup_cons] at hM
      by_cases hz : e.2.isZero <;> simp [hz, ih hM.2]
  -- the unmodified subtrees of the original skeleton, kept under their index
  let g : OriginalSkeletonNode → Option UpdatedSkeletonNode := fun node =>
    OriginalSkeletonNode.casesOn (motive := fun _ => Option UpdatedSkeletonNode) node
      none (fun _ => none) (fun hash => some (.unmodifiedSubTree hash))
  let g₁ : SkeletonLeaf → Option UpdatedSkeletonNode := fun v =>
    if v.isZero then none else some .leaf
  rw [finalizeBottomLayer, HashMap.get_extend, List.reverse_append, List.lookup_append, hleaves,
    HashMap.lookup_reverse_of_nodup (HashMap.nodup_filterMap _ hO g _ ?_),
    HashMap.lookup_reverse_of_nodup (HashMap.nodup_filterMap _ hM g₁ _ ?_),
    HashMap.lookup_filterMap _ hO g _ ?_, HashMap.lookup_filterMap _ hM g₁ _ ?_]
  · unfold bottomLayer leafLayer
    have hnil : HashMap.get ([] : UpdatedSkeletonNodeMap) k = none := rfl
    rw [hnil, Option.or_none]
    -- an unmodified subtree comes first, a leaf otherwise
    cases HashMap.get O.nodes k with
    | none =>
      cases HashMap.get M k with
      | none => rfl
      | some v => cases v <;> rfl
    | some node =>
      cases node with
      | unmodifiedSubTree => rfl
      | binary | edge =>
        cases HashMap.get M k with
        | none => rfl
        | some v => cases v <;> rfl
  all_goals
    intro e
    rcases e with ⟨_, v⟩
    cases v <;> rfl

/-! ## 2. Leaves below a node -/

/-- Every index below a leaf is the leaf. -/
theorem eq_of_isAncestor_of_isLeaf {n k : NodeIndex} (hn : n.isLeaf = true)
    (hk : IsAncestor n.val k.val) : k = n := by
  have hsize := isLeaf_iff_size.mp hn
  have := size_le k
  have := hk.1
  exact NodeIndex.ext (hk.eq_of_size_eq (by omega)).symm

/-- Below a node that is in none of them, the indices of `K` are below one child or the other. -/
theorem keysBelow_children {K : Set Nat} {n : Nat} (hn : n ≠ 0) (hK : n ∉ K) :
    keysBelow K n = keysBelow K (2 * n) ∪ keysBelow K (2 * n + 1) := by
  ext i
  constructor
  · rintro ⟨hi, hni⟩
    have hin : i ≠ n := fun h => hK (h ▸ hi)
    rcases hni.child_of_size_lt (hni.size_lt_of_ne hin) with h | h
    · exact .inl ⟨hi, h⟩
    · exact .inr ⟨hi, h⟩
  · rintro (⟨hi, h⟩ | ⟨hi, h⟩)
    · exact ⟨hi, (isAncestor_two_mul_add (b := 0) hn (by decide)).trans h⟩
    · exact ⟨hi, (isAncestor_two_mul_add hn (by decide)).trans h⟩

/-- Below a node `c` under `n` that holds all the indices of `K` below `n`, the same indices. -/
theorem keysBelow_eq_of_isAncestor {K : Set Nat} {n c : Nat} (hnc : IsAncestor n c)
    (h : ∀ i ∈ K, IsAncestor n i → IsAncestor c i) : keysBelow K c = keysBelow K n := by
  ext i
  exact ⟨fun hi => ⟨hi.1, hnc.trans hi.2⟩, fun hi => ⟨hi.1, h i hi.1 hi.2⟩⟩

section SortedKeys

variable {M : LeafModifications SkeletonLeaf} {S : List NodeIndex}

theorem SortedKeys.mem_of_get {j : NodeIndex} {leaf : SkeletonLeaf} (hS : SortedKeys M S)
    (h : M.get j = some leaf) : j ∈ S :=
  (hS.mem_iff j).mpr (by rw [h]; rfl)

/-- A leaf that is modified is the only modified index below it. -/
theorem SortedKeys.leavesBelow_of_isLeaf (hS : SortedKeys M S) {n : NodeIndex}
    (hleaf : n.isLeaf = true) (hne : leavesBelow S n.val ≠ []) : leavesBelow S n.val = [n] := by
  have hall : ∀ i ∈ leavesBelow S n.val, i = n := fun i hi =>
    eq_of_isAncestor_of_isLeaf hleaf (mem_leavesBelow.mp hi).2
  have hsorted := pairwise_leavesBelow hS.sorted n.val
  cases h : leavesBelow S n.val with
  | nil => exact absurd h hne
  | cons x rest =>
    rw [h] at hall hsorted
    -- a second index would be both `n` and above it
    cases rest with
    | nil => rw [hall x (List.mem_cons_self ..)]
    | cons y rest =>
      have hxy := (List.pairwise_cons.mp hsorted).1 y (List.mem_cons_self ..)
      rw [hall x (List.mem_cons_self ..), hall y (by simp)] at hxy
      exact absurd hxy (lt_irrefl n)

/-- The updated leaves below a modified leaf: the leaf, if it is not zero. -/
theorem SortedKeys.keysBelow_of_isLeaf (hS : SortedKeys M S) {n : NodeIndex}
    (hleaf : n.isLeaf = true) (hn : n ∈ S) {K : Set Nat}
    (hK : ∀ i ∈ K, IsAncestor n.val i → i = n.val) :
    keysBelow (updatedLeaves M K) n.val = if M.get n = some .nonZero then {n.val} else ∅ := by
  have hmod : (M.get n).isSome := (hS.mem_iff n).mp hn
  ext i
  constructor
  · rintro ⟨⟨j, rfl, hj⟩ | ⟨hi, hnone⟩, hni⟩
    · -- a non-zero leaf below a leaf is the leaf
      obtain rfl := eq_of_isAncestor_of_isLeaf hleaf hni
      simp [hj]
    · obtain rfl := hK i hi hni
      rw [hnone n rfl] at hmod
      cases hmod
  · intro hi
    split at hi
    · rename_i hnz
      obtain rfl := Set.mem_singleton_iff.mp hi
      exact ⟨.inl ⟨n, rfl, hnz⟩, IsAncestor.refl _⟩
    · cases hi

variable {T : Option (Trie L)}

/-- **At a modified leaf**, written if it is not zero: the leaf, or a deleted one. -/
theorem SortedKeys.realizes_modifiedLeaf (hS : SortedKeys M S) {U : UpdatedSkeletonNodeMap}
    {n : NodeIndex} (hleaf : n.isLeaf = true) (hn : n ∈ S) (hU : U.get n = leafLayer M n)
    {K : Set Nat} (hK : ∀ i ∈ K, IsAncestor n.val i → i = n.val) :
    Realizes T U n (keysBelow (updatedLeaves M K) n.val)
      (if U.containsKey n then .leaf else .empty) := by
  rw [hS.keysBelow_of_isLeaf hleaf hn hK]
  unfold leafLayer at hU
  by_cases hM : M.get n = some .nonZero
  · rw [if_pos hM] at hU ⊢
    have hcontains : U.containsKey n = true := by simp [HashMap.containsKey, hU]
    rw [if_pos hcontains]
    refine ⟨hU, .leaf, .leaf (by simp), .leaf (isLeaf_iff_size.mp hleaf), fun k hk _ => ?_⟩
    rw [eq_of_isAncestor_of_isLeaf hleaf hk]
    exact .refl _
  · rw [if_neg hM] at hU ⊢
    have hcontains : U.containsKey n = false := by simp [HashMap.containsKey, hU]
    rw [if_neg (by simp [hcontains])]
    exact ⟨rfl, fun k hk => by rw [eq_of_isAncestor_of_isLeaf hleaf hk]; exact hU⟩

/-- The leaves `S` has below `n`, all on one side of it, part strictly below it. -/
theorem size_lt_of_one_side (hS : SortedKeys M S) {n : NodeIndex} (hroot : root ≤ n)
    (hleaf : n.isLeaf = false)
    (hside : leavesBelow S (2 * n.val) = [] ∨ leavesBelow S (2 * n.val + 1) = [])
    {a b : NodeIndex} (ha : a ∈ leavesBelow S n.val) (hb : b ∈ leavesBelow S n.val) {c : Nat}
    (hmax : ∀ d, IsAncestor d a.val → IsAncestor d b.val → IsAncestor d c) :
    Nat.size n.val < Nat.size c := by
  -- the other child is above every one of them
  obtain ⟨e, he, hother⟩ : ∃ e < 2, ∀ i ∈ leavesBelow S n.val, IsAncestor (2 * n.val + e) i.val := by
    have hchild : ∀ i ∈ leavesBelow S n.val,
        IsAncestor (2 * n.val) i.val ∨ IsAncestor (2 * n.val + 1) i.val := by
      intro i hi
      obtain ⟨hiS, hni⟩ := mem_leavesBelow.mp hi
      have hin : i.val ≠ n.val := fun h => by
        have := hS.leaves i hiS
        rw [NodeIndex.ext h, hleaf] at this
        cases this
      exact hni.child_of_size_lt (hni.size_lt_of_ne hin)
    rcases hside with hside | hside
    · refine ⟨1, by decide, fun i hi => (hchild i hi).resolve_left fun h => ?_⟩
      have : i ∈ leavesBelow S (2 * n.val) := mem_leavesBelow.mpr ⟨(mem_leavesBelow.mp hi).1, h⟩
      rw [hside] at this
      cases this
    · refine ⟨0, by decide, fun i hi => (hchild i hi).resolve_right fun h => ?_⟩
      have : i ∈ leavesBelow S (2 * n.val + 1) :=
        mem_leavesBelow.mpr ⟨(mem_leavesBelow.mp hi).1, h⟩
      rw [hside] at this
      cases this
  have hsize := size_two_mul_add (Nat.pos_iff_ne_zero.mp hroot) he
  have := (hmax _ (hother a ha) (hother b hb)).1
  omega

end SortedKeys

/-! ## 3. Where the tree was empty -/

/-- What `update_node_in_empty_tree` does at `n`, where the original trie has nothing: with the
new leaves alone in the map below `n`, it returns what `n` becomes, having added inner nodes
strictly below `n` only. -/
def EmptySpec (T : Option (Trie L)) (M : LeafModifications SkeletonLeaf) (S : List NodeIndex)
    (f : UpdatedSkeletonTreeImpl → NodeIndex → SortedLeafIndices →
      Option (UpdatedSkeletonTreeImpl × TempSkeletonNode)) (n : NodeIndex) : Prop :=
  ∀ U : UpdatedSkeletonNodeMap, UnmodifiedOk T U →
    (∀ k : NodeIndex, IsAncestor n.val k.val → U.get k = leafLayer M k) →
    leavesBelow S n.val ≠ [] →
    ∃ U' r, f ⟨U⟩ n (leavesBelow S n.val) = some (⟨U'⟩, r) ∧ Grows n U U' ∧
      Realizes T U' n (keysBelow (updatedLeaves M ∅) n.val) r

section Empty

variable {T : Option (Trie L)} {M : LeafModifications SkeletonLeaf} {S : List NodeIndex}

/-- **One call of `update_node_in_empty_tree`**, from what the calls below it do. -/
theorem emptySpec_succ (hS : SortedKeys M S) {fuel : Nat} {n : NodeIndex} (hroot : root ≤ n)
    (ih : ∀ c : NodeIndex, IsAncestor n.val c.val → Nat.size n.val < Nat.size c.val →
      EmptySpec T M S (updateNodeInEmptyTree fuel) c) :
    EmptySpec T M S (updateNodeInEmptyTree (fuel + 1)) n := by
  intro U hok hU hne
  rw [updateNodeInEmptyTree]
  by_cases hleaf : n.isLeaf = true
  · -- a leaf, new as the tree was empty
    have hS1 := hS.leavesBelow_of_isLeaf hleaf hne
    have hmem : n ∈ leavesBelow S n.val := by
      rw [hS1]
      exact List.mem_singleton_self n
    refine ⟨U, _, ?_, .refl _ _, hS.realizes_modifiedLeaf hleaf (mem_leavesBelow.mp hmem).1
      (hU n (IsAncestor.refl _)) (by simp)⟩
    rw [if_pos hleaf, hS1]
    by_cases hc : U.containsKey n <;> simp [hc]
  have hleaf' : n.isLeaf = false := by simpa using hleaf
  rw [if_neg hleaf, hasLeavesOnBothSides_leavesBelow hroot hleaf' hS.sorted hS.leaves hne]
  -- no new leaf at `n` itself
  have hnotX : n.val ∉ updatedLeaves M ∅ := by
    rintro (⟨j, hj, hjM⟩ | ⟨h, -⟩)
    · have := hS.leaves j (hS.mem_of_get hjM)
      rw [NodeIndex.ext hj, hleaf'] at this
      cases this
    · exact h
  have hUn : U.get n = none := by
    rw [hU n (IsAncestor.refl _), leafLayer, if_neg fun hM => hnotX (.inl ⟨n, rfl, hM⟩)]
  cases hboth : (!(leavesBelow S (2 * n.val)).isEmpty && !(leavesBelow S (2 * n.val + 1)).isEmpty)
  · -- all on one side: an edge down to where they part
    have hside : leavesBelow S (2 * n.val) = [] ∨ leavesBelow S (2 * n.val + 1) = [] :=
      Decidable.or_iff_not_imp_left.mpr (by simpa using hboth)
    obtain ⟨a, ha⟩ : ∃ a, (leavesBelow S n.val).head? = some a := ⟨_, List.head?_eq_some_head hne⟩
    obtain ⟨b, hb⟩ : ∃ b, (leavesBelow S n.val).getLast? = some b :=
      ⟨_, List.getLast?_eq_some_getLast hne⟩
    have haS := List.mem_of_head? ha
    have hbS := List.mem_of_getLast? hb
    obtain ⟨p, c, hp, hc, hcval, hlen, hca, hcb, hmax⟩ := getPathToLca_eq hroot ha hb
      (root_le_of_isLeaf (hS.leaves a (mem_leavesBelow.mp haS).1))
      (root_le_of_isLeaf (hS.leaves b (mem_leavesBelow.mp hbS).1))
      (mem_leavesBelow.mp haS).2 (mem_leavesBelow.mp hbS).2
    have hall := isAncestor_of_head_of_getLast (pairwise_leavesBelow hS.sorted _)
      (fun i hi => hS.leaves i (mem_leavesBelow.mp hi).1) ha hb hca hcb
    have hnc : IsAncestor n.val c.val := hmax n.val (mem_leavesBelow.mp haS).2 (mem_leavesBelow.mp hbS).2
    have hlt := size_lt_of_one_side hS hroot hleaf' hside haS hbS hmax
    have hlc : leavesBelow S c.val = leavesBelow S n.val := leavesBelow_eq_of_isAncestor hnc hall
    obtain ⟨U₁, r₀, h₀, hg₀, hr₀⟩ :=
      ih c hnc hlt U hok (fun k hk => hU k (hnc.trans hk)) (by rwa [hlc])
    rw [hlc] at h₀
    obtain ⟨U₂, r, h, hg, hr⟩ := nodeFromEdgeData_spec (hok.grows hg₀) hroot (p := p)
      (by omega) (by have := size_le c; omega) hcval hr₀ fun k hk hkc => by
        rw [hg₀.get_eq (.inl hkc), hU k hk, leafLayer,
          if_neg fun hM => hkc (hall k (mem_leavesBelow.mpr ⟨hS.mem_of_get hM, hk⟩))]
    -- the new leaves below `n` are below where they part
    have hK : keysBelow (updatedLeaves M ∅) c.val = keysBelow (updatedLeaves M ∅) n.val := by
      refine keysBelow_eq_of_isAncestor hnc fun i hi hni => ?_
      rcases hi with ⟨j, rfl, hj⟩ | ⟨h, -⟩
      · exact hall j (mem_leavesBelow.mpr ⟨hS.mem_of_get hj, hni⟩)
      · exact absurd h (Set.notMem_empty i)
    refine ⟨U₂, r, ?_, (hg₀.mono hnc).trans hg, hK ▸ hr⟩
    simp only [hp, hc, h₀, h, Option.bind_eq_bind, Option.bind_some]
  · -- on both sides: a binary node
    obtain ⟨hne₀, hne₁⟩ : leavesBelow S (2 * n.val) ≠ [] ∧ leavesBelow S (2 * n.val + 1) ≠ [] := by
      simpa using hboth
    obtain ⟨c₀, c₁, hchildren, hc₀, hc₁⟩ := getChildrenIndices_eq hleaf'
    have hn₀ := isAncestor_child hroot (.inl hc₀)
    have hn₁ := isAncestor_child hroot (.inr hc₁)
    have hlt₀ : Nat.size n.val < Nat.size c₀.val := by rw [size_child hroot (.inl hc₀)]; omega
    have hlt₁ : Nat.size n.val < Nat.size c₁.val := by rw [size_child hroot (.inr hc₁)]; omega
    have hne₀₁ : c₀ ≠ c₁ := fun h => by have := congrArg NodeIndex.val h; omega
    obtain ⟨U₁, r₀, h₀, hg₀, hr₀⟩ :=
      ih c₀ hn₀ hlt₀ U hok (fun k hk => hU k (hn₀.trans hk)) (by rwa [hc₀])
    -- the left call leaves the right side as it was
    obtain ⟨U₂, r₁, h₁, hg₁, hr₁⟩ := ih c₁ hn₁ hlt₁ U₁ (hok.grows hg₀) (fun k hk =>
      (hg₀.get_eq (.inl (not_isAncestor_of_sibling hroot (.inr hc₁) (.inl hc₀) hne₀₁.symm hk))).trans
        (hU k (hn₁.trans hk))) (by rwa [hc₁])
    have hr₀' := hr₀.congr (root_le_of_isAncestor hroot hn₀) fun k hk =>
      hg₁.get_eq (.inl (not_isAncestor_of_sibling hroot (.inl hc₀) (.inr hc₁) hne₀₁ hk))
    have hU₂n : U₂.get n = none := by
      rw [hg₁.get_eq (.inl fun h => by have := h.1; omega),
        hg₀.get_eq (.inl fun h => by have := h.1; omega), hUn]
    obtain ⟨U₃, r, h, hg, hr⟩ :=
      nodeFromBinaryData_spec ((hok.grows hg₀).grows hg₁) hroot hleaf' hc₀ hc₁ hr₀' hr₁ hU₂n
    rw [hc₀] at h₀
    rw [hc₁] at h₁
    refine ⟨U₃, r, ?_, (hg₀.mono hn₀).trans ((hg₁.mono hn₁).trans hg), ?_⟩
    · simp only [splitLeaves_leavesBelow hroot hleaf' hS.sorted hS.leaves, hchildren, h₀, h₁, h,
        Option.bind_eq_bind, Option.bind_some]
    · rw [keysBelow_children (Nat.pos_iff_ne_zero.mp hroot) hnotX]
      rwa [hc₀, hc₁] at hr

/-- **`update_node_in_empty_tree`** with enough fuel to reach the leaves. -/
theorem updateNodeInEmptyTree_spec (hS : SortedKeys M S) (fuel : Nat) :
    ∀ n : NodeIndex, root ≤ n → 252 < Nat.size n.val + fuel →
      EmptySpec T M S (updateNodeInEmptyTree fuel) n := by
  induction fuel with
  | zero =>
    intro n _ hfuel
    have := size_le n
    omega
  | succ fuel ih =>
    intro n hroot hfuel
    exact emptySpec_succ hS hroot fun c hnc hlt =>
      ih c (root_le_of_isAncestor hroot hnc) (by omega)

end Empty

/-! ## 4. The original skeleton below a node -/

/-- An edge that stays in the tree ends at an index. -/
theorem bottomIndex_eq {n : NodeIndex} {p : PathToBottom} (hroot : root ≤ n)
    (hlength : Nat.size n.val + p.length ≤ 252) :
    ∃ B : NodeIndex, p.bottomIndex n = some B ∧ B.val = p.bottomValue n.val := by
  have hsize := Trie.size_bottomValue (Nat.pos_iff_ne_zero.mp hroot) p
  have hlt : p.bottomValue n.val < 2 ^ 252 :=
    Nat.lt_of_lt_of_le (Nat.lt_size_self _) (Nat.pow_le_pow_right (by decide) (by omega))
  exact ⟨_, PathToBottom.computeBottomIndex_of_le (le_max_of_lt hlt), rfl⟩

/-- The original skeleton `O` records, below `n`, the node `t` of the original trie `T`, or the
rest of an edge of it: `t` sits at `n` in canonical form, `O` holds below `n` what
`fetch_nodes` records of `t`, and an unmodified subtree of `t` is the node of `T` there. -/
structure Records (T : Option (Trie L)) (S : List NodeIndex) (n : NodeIndex) (t : Trie L)
    (O : OriginalSkeletonNodeMap) : Prop where
  wf : t.WF n.val
  canonical : t.Canonical
  get : ∀ k : NodeIndex, IsAncestor n.val k.val → O.get k = t.originalNode S n.val k.val
  subtree : ∀ k : NodeIndex, IsAncestor n.val k.val → ∀ hash,
    t.originalNode S n.val k.val = some (.unmodifiedSubTree hash) →
      subtreeOf T k.val = t.subtreeAt n.val k.val

section Records

variable {T : Option (Trie L)} {S : List NodeIndex} {n : NodeIndex} {O : OriginalSkeletonNodeMap}

theorem Records.congr {t : Trie L} {O' : OriginalSkeletonNodeMap} (hr : Records T S n t O)
    (hO : ∀ k : NodeIndex, IsAncestor n.val k.val → O'.get k = O.get k) : Records T S n t O' :=
  ⟨hr.wf, hr.canonical, fun k hk => (hO k hk).trans (hr.get k hk), hr.subtree⟩

theorem Records.left {hash : Felt} {left right : Trie L} {c : NodeIndex}
    (hr : Records T S n (.binary hash left right) O) (hroot : root ≤ n)
    (hS : (leavesBelow S n.val).isEmpty = false) (hc : c.val = 2 * n.val) :
    Records T S c left O := by
  have hn : n.val ≠ 0 := Nat.pos_iff_ne_zero.mp hroot
  have hnc := isAncestor_child hroot (.inl hc)
  refine ⟨hc ▸ hr.wf.2.1, hr.canonical.1, fun k hk => ?_, fun k hk hash' h => ?_⟩
  · rw [hr.get k (hnc.trans hk), Trie.originalNode_binary_of_left hn hS (hc ▸ hk), hc]
  · rw [hc] at h hk ⊢
    rw [hr.subtree k (hnc.trans (hc ▸ hk)) hash' (by rwa [Trie.originalNode_binary_of_left hn hS hk]),
      Trie.subtreeAt_binary_of_left hn hk]

theorem Records.right {hash : Felt} {left right : Trie L} {c : NodeIndex}
    (hr : Records T S n (.binary hash left right) O) (hroot : root ≤ n)
    (hS : (leavesBelow S n.val).isEmpty = false) (hc : c.val = 2 * n.val + 1) :
    Records T S c right O := by
  have hn : n.val ≠ 0 := Nat.pos_iff_ne_zero.mp hroot
  have hnc := isAncestor_child hroot (.inr hc)
  refine ⟨hc ▸ hr.wf.2.2, hr.canonical.2, fun k hk => ?_, fun k hk hash' h => ?_⟩
  · rw [hr.get k (hnc.trans hk), Trie.originalNode_binary_of_right hn hS (hc ▸ hk), hc]
  · rw [hc] at h hk ⊢
    rw [hr.subtree k (hnc.trans (hc ▸ hk)) hash' (by rwa [Trie.originalNode_binary_of_right hn hS hk]),
      Trie.subtreeAt_binary_of_right hn hk]

/-- At the bottom of an edge, its bottom. -/
theorem Records.bottom {hash : Felt} {p : PathToBottom} {bottom : Trie L} {B : NodeIndex}
    (hr : Records T S n (.edge hash p bottom) O) (hroot : root ≤ n)
    (hB : B.val = p.bottomValue n.val) (hpos : 0 < p.length) : Records T S B bottom O := by
  have hn : n.val ≠ 0 := Nat.pos_iff_ne_zero.mp hroot
  have hnB := isAncestor_bottom hroot hB
  have hlt : Nat.size n.val < Nat.size B.val := by rw [size_bottom hroot hB]; omega
  have hkn : ∀ k : NodeIndex, IsAncestor B.val k.val → k.val ≠ n.val := fun k hk h =>
    ne_of_isAncestor_of_size_lt hk hlt (NodeIndex.ext h)
  refine ⟨hB ▸ hr.wf.2.2, hr.canonical.2, fun k hk => ?_, fun k hk hash' h => ?_⟩
  · rw [hr.get k (hnB.trans hk), Trie.originalNode_edge_of_ne hn hr.canonical.1 (hkn k hk), hB]
  · rw [hr.subtree k (hnB.trans hk) hash'
      (by rwa [Trie.originalNode_edge_of_ne hn hr.canonical.1 (hkn k hk), ← hB]),
      Trie.subtreeAt_edge_of_ne (hkn k hk), hB]

/-- **A fake original**: part way down an edge, the rest of the edge, written where the edge
passes. -/
theorem Records.fake {hash : Felt} {p q : PathToBottom} {bottom : Trie L} {m : NodeIndex}
    (hr : Records T S n (.edge hash p bottom) O) (hroot : root ≤ n) (hnm : IsAncestor n.val m.val)
    (hmn : m ≠ n) (hmB : IsAncestor m.val (p.bottomValue n.val))
    (hmB' : m.val ≠ p.bottomValue n.val)
    (hq : p.removeFirstEdges (Nat.size m.val - Nat.size n.val) = .ok q) :
    Records T S m (.edge hash q bottom) (O.insert m (.edge q)).2 ∧
      q.bottomValue m.val = p.bottomValue n.val := by
  have hn : n.val ≠ 0 := Nat.pos_iff_ne_zero.mp hroot
  have hsizeB := Trie.size_bottomValue hn p
  have hltm := hnm.size_lt_of_ne fun h => hmn (NodeIndex.ext h)
  have hltB := hmB.size_lt_of_ne fun h => hmB' h.symm
  obtain ⟨q', hq', hlen, hpath⟩ := removeFirstEdges_eq p (k := Nat.size m.val - Nat.size n.val)
    (by have := hmB.1; omega)
  rw [hq] at hq'
  obtain rfl := Except.ok.inj hq'
  -- the rest of the edge starts at `m` and ends at the bottom
  have hm : p.bottomValue n.val >>> (p.length - (Nat.size m.val - Nat.size n.val)) = m.val :=
    (isAncestor_iff_shiftRight_eq (by omega)).mp hmB
  have hbottom : q.bottomValue m.val = p.bottomValue n.val := by
    rw [← hm]
    exact bottomValue_removeFirstEdges p (by omega) hlen hpath n.val
  have hkn : ∀ k : NodeIndex, IsAncestor m.val k.val → k.val ≠ n.val := fun k hk h =>
    ne_of_isAncestor_of_size_lt hk hltm (NodeIndex.ext h)
  have hm0 : m.val ≠ 0 := Nat.pos_iff_ne_zero.mp (root_le_of_isAncestor hroot hnm)
  refine ⟨⟨⟨by omega, by have := hr.wf.2.1; omega, hbottom ▸ hr.wf.2.2⟩,
    hr.canonical, fun k hk => ?_, fun k hk hash' h => ?_⟩, hbottom⟩
  · by_cases hkm : k = m
    · subst hkm
      simp [Trie.originalNode]
    · have hkm' : k.val ≠ m.val := fun h => hkm (NodeIndex.ext h)
      rw [HashMap.get_insert, if_neg hkm, hr.get k (hnm.trans hk),
        Trie.originalNode_edge_of_ne hn hr.canonical.1 (hkn k hk),
        Trie.originalNode_edge_of_ne hm0 hr.canonical.1 hkm', hbottom]
  · -- at `m` itself the edge is recorded, no unmodified subtree
    have hkm' : k.val ≠ m.val := by
      rintro hkm
      rw [hkm] at h
      simp [Trie.originalNode] at h
    rw [Trie.originalNode_edge_of_ne hm0 hr.canonical.1 hkm', hbottom] at h
    rw [hr.subtree k (hnm.trans hk) hash'
        (by rwa [Trie.originalNode_edge_of_ne hn hr.canonical.1 (hkn k hk)]),
      Trie.subtreeAt_edge_of_ne (hkn k hk), Trie.subtreeAt_edge_of_ne hkm', hbottom]

end Records

/-! ## 5. Where nothing is modified -/

/-- The updated leaves below `c` depend only on the leaves below `c` before. -/
theorem keysBelow_updatedLeaves_congr {M : LeafModifications SkeletonLeaf} {K K' : Set Nat} {c : Nat}
    (h : ∀ i, IsAncestor c i → (i ∈ K ↔ i ∈ K')) :
    keysBelow (updatedLeaves M K) c = keysBelow (updatedLeaves M K') c := by
  ext i
  constructor
  · rintro ⟨hi | ⟨hiK, hnone⟩, hci⟩
    · exact ⟨.inl hi, hci⟩
    · exact ⟨.inr ⟨(h i hci).mp hiK, hnone⟩, hci⟩
  · rintro ⟨hi | ⟨hiK, hnone⟩, hci⟩
    · exact ⟨.inl hi, hci⟩
    · exact ⟨.inr ⟨(h i hci).mpr hiK, hnone⟩, hci⟩

theorem bottomLayer_of_not_unmodified {M : LeafModifications SkeletonLeaf}
    {O : OriginalSkeletonNodeMap} {k : NodeIndex}
    (h : ∀ hash, O.get k ≠ some (.unmodifiedSubTree hash)) : bottomLayer M O k = leafLayer M k := by
  unfold bottomLayer
  split
  · rename_i hash hget
    exact absurd hget (h hash)
  · rfl

section Unmodified

variable {T : Option (Trie L)} {M : LeafModifications SkeletonLeaf} {S : List NodeIndex}
  {n : NodeIndex} {O : OriginalSkeletonNodeMap}

theorem SortedKeys.get_eq_none_of_nil (hS : SortedKeys M S) (hnil : leavesBelow S n.val = [])
    {k : NodeIndex} (hk : IsAncestor n.val k.val) : M.get k = none := by
  by_contra h
  have : k ∈ leavesBelow S n.val :=
    mem_leavesBelow.mpr ⟨(hS.mem_iff k).mpr (Option.isSome_iff_ne_none.mpr h), hk⟩
  rw [hnil] at this
  cases this

theorem SortedKeys.leafLayer_of_nil (hS : SortedKeys M S) (hnil : leavesBelow S n.val = [])
    {k : NodeIndex} (hk : IsAncestor n.val k.val) : leafLayer M k = none := by
  rw [leafLayer, hS.get_eq_none_of_nil hnil hk]
  rfl

/-- With nothing modified below `n`, the leaves below `n` stay. -/
theorem SortedKeys.keysBelow_of_nil (hS : SortedKeys M S) (hnil : leavesBelow S n.val = [])
    {K : Set Nat} (hK : ∀ i ∈ K, IsAncestor n.val i) : keysBelow (updatedLeaves M K) n.val = K := by
  ext i
  constructor
  · rintro ⟨⟨j, rfl, hj⟩ | ⟨hi, -⟩, hni⟩
    · rw [hS.get_eq_none_of_nil hnil hni] at hj
      cases hj
    · exact hi
  · intro hi
    exact ⟨.inr ⟨hi, fun j hj => hS.get_eq_none_of_nil hnil (hj ▸ hK i hi)⟩, hK i hi⟩

theorem Records.mem_keys {t : Trie L} (hr : Records T S n t O) (hroot : root ≤ n) {i : Nat}
    (hi : i ∈ t.keys n.val) : IsAncestor n.val i ∧ Nat.size i = 252 :=
  (Trie.isCanonical_shape hr.wf hr.canonical).mem (Nat.pos_iff_ne_zero.mp hroot) hi

/-- **An unmodified subtree** is returned as it is, and spells the node of the trie it stands
for. -/
theorem Records.realizes_unmodifiedSubTree (hS : SortedKeys M S) {t : Trie L}
    {U : UpdatedSkeletonNodeMap} (hr : Records T S n t O) (hroot : root ≤ n)
    (hU : ∀ k : NodeIndex, IsAncestor n.val k.val → U.get k = bottomLayer M O k)
    (hnil : leavesBelow S n.val = []) (ht : t.isEdge = false) :
    O.get n = some (.unmodifiedSubTree t.hash) ∧
      Realizes T U n (keysBelow (updatedLeaves M (t.keys n.val)) n.val)
        (.original (.unmodifiedSubTree t.hash)) := by
  have hempty : (leavesBelow S n.val).isEmpty := by rw [hnil]; rfl
  have hOn : O.get n = some (.unmodifiedSubTree t.hash) := by
    rw [hr.get n (IsAncestor.refl _), Trie.originalNode_of_isEmpty hempty ht, if_pos rfl]
  have hUn : U.get n = some (.unmodifiedSubTree t.hash) := by
    rw [hU n (IsAncestor.refl _), bottomLayer, hOn]
  refine ⟨hOn, hUn, t.shape, .unmodifiedSubTree (by simp) ?_ rfl, ?_, fun k hk hsome => ?_⟩
  · rw [hr.subtree n (IsAncestor.refl _) t.hash (by rw [← hr.get n (IsAncestor.refl _), hOn]),
      Trie.subtreeAt_self]
  · rw [hS.keysBelow_of_nil hnil fun i hi => (hr.mem_keys hroot hi).1]
    exact Trie.isCanonical_shape hr.wf hr.canonical
  · -- nothing else is below `n`
    by_cases hkn : k = n
    · rw [hkn]
      exact .refl _
    · have hOk : O.get k = none := by
        rw [hr.get k hk, Trie.originalNode_of_isEmpty hempty ht,
          if_neg fun h => hkn (NodeIndex.ext h)]
      rw [HashMap.get_insert, if_neg hkn, hU k hk, bottomLayer_of_not_unmodified (by simp [hOk]),
        hS.leafLayer_of_nil hnil hk] at hsome
      cases hsome

/-- **An unmodified edge** is returned as it is, over the unmodified subtree at its bottom. -/
theorem Records.realizes_unmodifiedEdge (hS : SortedKeys M S) {hash : Felt} {p : PathToBottom}
    {bottom : Trie L} {U : UpdatedSkeletonNodeMap} (hr : Records T S n (.edge hash p bottom) O)
    (hroot : root ≤ n) (hok : UnmodifiedOk T U)
    (hU : ∀ k : NodeIndex, IsAncestor n.val k.val → U.get k = bottomLayer M O k)
    (hnil : leavesBelow S n.val = []) :
    O.get n = some (.edge p) ∧
      Realizes T U n (keysBelow (updatedLeaves M ((Trie.edge hash p bottom).keys n.val)) n.val)
        (.original (.edge p)) := by
  have hn : n.val ≠ 0 := Nat.pos_iff_ne_zero.mp hroot
  have hOn : O.get n = some (.edge p) := by
    rw [hr.get n (IsAncestor.refl _)]
    simp [Trie.originalNode]
  obtain ⟨hpos, hlength, -⟩ := hr.wf
  obtain ⟨B, -, hB⟩ := bottomIndex_eq hroot hlength
  have hnB := isAncestor_bottom hroot hB
  have hrB := hr.bottom hroot hB hpos
  have hnilB : leavesBelow S B.val = [] := by
    rw [List.eq_nil_iff_forall_not_mem] at hnil ⊢
    exact fun i hi => hnil i (mem_leavesBelow.mpr
      ⟨(mem_leavesBelow.mp hi).1, hnB.trans (mem_leavesBelow.mp hi).2⟩)
  obtain ⟨hOB, hUB, hspells⟩ := hrB.realizes_unmodifiedSubTree hS (root_le_of_isAncestor hroot hnB)
    (fun k hk => hU k (hnB.trans hk)) hnilB hr.canonical.1
  -- the leaves are those of the bottom
  have hK : keysBelow (updatedLeaves M ((Trie.edge hash p bottom).keys n.val)) n.val =
      keysBelow (updatedLeaves M (bottom.keys B.val)) B.val := by
    rw [hS.keysBelow_of_nil hnil fun i hi => (hr.mem_keys hroot hi).1,
      hS.keysBelow_of_nil hnilB fun i hi => (hrB.mem_keys (root_le_of_isAncestor hroot hnB) hi).1,
      Trie.keys_edge, hB]
  refine ⟨hOn, hK ▸ realizes_edge_of_writes hok hroot hpos hlength hB hspells (.of_get hUB)
    (by simp) fun k hk hkB => ?_⟩
  -- off the way to the bottom the original skeleton records nothing
  have hOk : ∀ hash', O.get k ≠ some (.unmodifiedSubTree hash') := by
    intro hash' hget
    rw [hr.get k hk] at hget
    by_cases hkn : k.val = n.val
    · simp [Trie.originalNode, hkn] at hget
    · rw [Trie.originalNode_edge_of_ne hn hr.canonical.1 hkn,
        Trie.originalNode_of_not_isAncestor _ (Trie.bottomValue_ne_zero hn p) (hB ▸ hkB)] at hget
      cases hget
  rw [hU k hk, bottomLayer_of_not_unmodified hOk, hS.leafLayer_of_nil hnil hk]

end Unmodified

end Sequencer.Patricia
