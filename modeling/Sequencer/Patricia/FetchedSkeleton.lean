/-
# The original skeleton is fetched exactly

For a trie in storage and the modified indices `S`, `fetch_nodes` records exactly the nodes the
updated skeleton reads, `Trie.originalNode`: an unmodified subtree at its root, every edge with
what is below it, every modified binary node as binary, and no modified leaf.  Composed with the
updated skeleton's own pass, the skeleton the committer builds from storage spells the canonical
trie of the updated leaves (`create_from_storage`).

The proof follows the rounds of `fetch_nodes` as `Sequencer.Patricia.PreviousLeaves` does for the
previous leaves, now for the records.  A pending subtree is due the records of its trie, with its
own indices (`NodePending`).  Reading its root records only what is due (`Keeps`), and below the
root it leaves nothing due unrecorded but below a subtree it hands on (`SettledBelow`).  Whether
modified leaves are fetched does not matter: a modified leaf is due no record.
-/
import Sequencer.Patricia.PreviousLeaves
import Sequencer.Patricia.UpdatedCreate

namespace Sequencer.Patricia

open HeapIndex NodeIndex OriginalSkeletonTreeImpl

variable {L : Type}

/-! ## 1. The records depend on the indices below the root only -/

theorem isEmpty_leavesBelow_congr {S S' : List NodeIndex} {n : Nat}
    (h : ∀ i : NodeIndex, IsAncestor n i.val → (i ∈ S ↔ i ∈ S')) :
    (leavesBelow S n).isEmpty = (leavesBelow S' n).isEmpty := by
  rw [Bool.eq_iff_iff]
  simp only [List.isEmpty_iff, List.eq_nil_iff_forall_not_mem, mem_leavesBelow]
  exact ⟨fun h' i hi => h' i ⟨(h i hi.2).mpr hi.1, hi.2⟩,
    fun h' i hi => h' i ⟨(h i hi.2).mp hi.1, hi.2⟩⟩

theorem Trie.originalNode_congr {S S' : List NodeIndex} (t : Trie L) {n : Nat} (hn : n ≠ 0)
    (h : ∀ i : NodeIndex, IsAncestor n i.val → (i ∈ S ↔ i ∈ S')) (k : Nat) :
    t.originalNode S n k = t.originalNode S' n k := by
  have hempty := isEmpty_leavesBelow_congr h
  induction t generalizing n with
  | binary hash left right ihl ihr =>
    -- the indices below a child are below the node
    have hl := ihl (n := 2 * n) (by omega)
      (fun i hi => h i ((isAncestor_two_mul_add (b := 0) hn (by decide)).trans hi))
      (isEmpty_leavesBelow_congr fun i hi =>
        h i ((isAncestor_two_mul_add (b := 0) hn (by decide)).trans hi))
    have hr := ihr (n := 2 * n + 1) (by omega)
      (fun i hi => h i ((isAncestor_two_mul_add hn (by decide)).trans hi))
      (isEmpty_leavesBelow_congr fun i hi =>
        h i ((isAncestor_two_mul_add hn (by decide)).trans hi))
    simp only [originalNode, hempty, hl, hr]
  | edge hash pathToBottom bottom ih =>
    have hb := ih (n := pathToBottom.bottomValue n) (Trie.bottomValue_ne_zero hn _)
      (fun i hi => h i ((Trie.isAncestor_bottomValue hn _).trans hi))
      (isEmpty_leavesBelow_congr fun i hi =>
        h i ((Trie.isAncestor_bottomValue hn _).trans hi))
    simp only [originalNode, hempty, hb]
  | leaf hash data => simp only [originalNode, hempty]

/-- All the indices of a subtree are below its root. -/
theorem leavesBelow_eq_self {S : List NodeIndex} {n : Nat} (h : ∀ i ∈ S, IsAncestor n i.val) :
    leavesBelow S n = S :=
  List.filter_eq_self.mpr fun i hi => decide_eq_true (h i hi)

/-! ## 2. What a step of a round may record -/

section Due

variable (want : NodeIndex → Option OriginalSkeletonNode)

/-- The records a subtree is due: at every index below its root, those of its trie with its own
indices. -/
def Due (st : SubTree Felt) (t : Trie L) : Prop :=
  ∀ k : NodeIndex, IsAncestor st.rootIndex.val k.val →
    want k = t.originalNode st.sortedLeafIndices st.rootIndex.val k.val

/-- Below the index `n`, every record due is in the map, or below one of the subtrees `added`. -/
def SettledBelow (n : Nat) (added : List (SubTree Felt))
    (nodes : HashMap NodeIndex OriginalSkeletonNode) : Prop :=
  ∀ k : NodeIndex, IsAncestor n k.val →
    want k = none ∨ nodes.get k = want k ∨ ∃ c ∈ added, IsAncestor c.rootIndex.val k.val

/-- A step that keeps the leaf indices and one entry per key, and records only what is due. -/
structure Keeps (s s' : FetchState L) : Prop where
  sorted_eq : s'.tree.sortedLeafIndices = s.tree.sortedLeafIndices
  nodup : (s.tree.nodes.map Prod.fst).Nodup → (s'.tree.nodes.map Prod.fst).Nodup
  onlyDue : ∀ k, s'.tree.nodes.get k = s.tree.nodes.get k ∨ s'.tree.nodes.get k = want k

variable {want}

theorem Keeps.of_tree {s s' : FetchState L} (h : s'.tree = s.tree) : Keeps want s s' :=
  ⟨by rw [h], by rw [h]; exact id, fun k => .inl (by rw [h])⟩

theorem Keeps.trans {s₁ s₂ s₃ : FetchState L} (h₁ : Keeps want s₁ s₂) (h₂ : Keeps want s₂ s₃) :
    Keeps want s₁ s₃ where
  sorted_eq := h₂.sorted_eq.trans h₁.sorted_eq
  nodup hnd := h₂.nodup (h₁.nodup hnd)
  onlyDue k := by
    rcases h₂.onlyDue k with h | h
    · rw [h]
      exact h₁.onlyDue k
    · exact .inr h

@[simp] theorem FetchState.get_insertNode (s : FetchState L) (k k' : NodeIndex)
    (node : OriginalSkeletonNode) :
    (s.insertNode k node).tree.nodes.get k' = if k' = k then some node else s.tree.nodes.get k' :=
  HashMap.get_insert _ _ _ _

/-- Recording what is due. -/
theorem Keeps.insertNode (s : FetchState L) {k : NodeIndex} {node : OriginalSkeletonNode}
    (h : want k = some node) : Keeps want s (s.insertNode k node) where
  sorted_eq := rfl
  nodup hnd := HashMap.nodup_insert hnd k node
  onlyDue k' := by
    by_cases hk : k' = k
    · subst hk
      exact .inr (by rw [FetchState.get_insertNode, if_pos rfl, h])
    · exact .inl (by rw [FetchState.get_insertNode, if_neg hk])

/-- A record that is due stays. -/
theorem Keeps.get_eq {s s' : FetchState L} (h : Keeps want s s') {k : NodeIndex}
    (hk : s.tree.nodes.get k = want k) : s'.tree.nodes.get k = want k := by
  rcases h.onlyDue k with h' | h'
  · exact h'.trans hk
  · exact h'

theorem SettledBelow.keeps {n : Nat} {added : List (SubTree Felt)} {s s' : FetchState L}
    (h : SettledBelow want n added s.tree.nodes) (hk : Keeps want s s') {added' : List (SubTree Felt)}
    (hsub : ∀ c ∈ added, c ∈ added') : SettledBelow want n added' s'.tree.nodes := by
  intro k hnk
  rcases h k hnk with h | h | ⟨c, hc, hck⟩
  · exact .inl h
  · exact .inr (.inl (hk.get_eq h))
  · exact .inr (.inr ⟨c, hsub c hc, hck⟩)

end Due

/-! ## 3. Reading the root of a subtree -/

section Reading

variable [Leaf L] (storage : Storage) (leafModifications : LeafModifications L)
  (config : OriginalSkeletonTreeConfig) (leaves : NodeIndex → Option L)
  (want : NodeIndex → Option OriginalSkeletonNode)

/-- A subtree of a round, with the part of the trie below its root and the records it is due; a
leaf goes down only when it is modified. -/
structure NodePending (fuel : Nat) (st : SubTree Felt) (t : Trie L) : Prop
    extends Pending storage leafModifications config leaves fuel st t where
  due : Due want st t
  leaf_modified : st.rootIndex.isLeaf = true → st.sortedLeafIndices ≠ []

/-- What reading the root of a subtree does to the records: it records only what is due, hands
subtrees on, pending there, and below the root leaves nothing due unrecorded but below them. -/
def ReadsNodes (fuel : Nat) (st : SubTree Felt) (s s' : FetchState L) : Prop :=
  Keeps want s s' ∧ ∃ added, s'.nextSubtrees = s.nextSubtrees ++ added ∧
    (∃ ts, List.Forall₂ (NodePending storage leafModifications config leaves want fuel) added ts) ∧
    SettledBelow want st.rootIndex.val added s'.tree.nodes

variable {storage leafModifications config leaves want} {fuel : Nat} {st : SubTree Felt}

/-- At a leaf, the record due is the leaf's hash when it is unmodified, and none otherwise. -/
theorem Due.of_isLeaf {c : SubTree Felt} {t : Trie L}
    (hc : Pending storage leafModifications config leaves fuel c t) (hdue : Due want c t)
    (hleaf : c.rootIndex.isLeaf = true) {k : NodeIndex} (hk : IsAncestor c.rootIndex.val k.val) :
    k = c.rootIndex ∧ want k =
      if c.sortedLeafIndices = [] then some (.unmodifiedSubTree c.rootHash) else none := by
  obtain rfl := eq_of_isAncestor_of_isLeaf hleaf hk
  refine ⟨rfl, ?_⟩
  have htleaf : t.isLeaf = true := hc.wf.isLeaf_eq ▸ hleaf
  cases t with
  | binary | edge => cases htleaf
  | leaf hash data =>
    have hbelow := leavesBelow_eq_self fun i hi => (hc.below i hi).2
    rw [hdue _ (IsAncestor.refl _), hc.hash_eq]
    simp only [Trie.originalNode, hbelow, Trie.hash, List.isEmpty_iff, and_true]

/-- `handle_subtree`, whether or not modified leaves are fetched: a subtree is handed on, or it
is a leaf, recorded when unmodified and due nothing when modified. -/
theorem handleSubtree_readsNodes (s : FetchState L) (b : Bool) {c : SubTree Felt} {t : Trie L}
    (hc : Pending storage leafModifications config leaves fuel c t) (hdue : Due want c t) :
    ReadsNodes storage leafModifications config leaves want fuel c s (s.handleSubtree c b) := by
  unfold FetchState.handleSubtree
  split
  · rename_i hgo
    refine ⟨Keeps.of_tree rfl, [c], rfl, ⟨[t], .cons ⟨hc, hdue, fun hleaf => ?_⟩ .nil⟩,
      fun k hk => .inr (.inr ⟨c, .head _, hk⟩)⟩
    -- a leaf goes down only when it is modified
    intro hS
    simp [SubTree.isLeaf, hleaf, SubTree.isUnmodified, hS] at hgo
  · rename_i hgo
    have hleaf : c.rootIndex.isLeaf = true := by
      cases h : c.rootIndex.isLeaf
      · simp [SubTree.isLeaf, h] at hgo
      · rfl
    split
    · -- an unmodified leaf is recorded as it is
      rename_i hunmodified
      have hS : c.sortedLeafIndices = [] := List.isEmpty_iff.mp hunmodified
      have hwant : want c.rootIndex = some (.unmodifiedSubTree c.rootHash) := by
        rw [(Due.of_isLeaf hc hdue hleaf (IsAncestor.refl _)).2, if_pos hS]
      refine ⟨Keeps.insertNode s hwant, [], by simp, ⟨[], .nil⟩, fun k hk => .inr (.inl ?_)⟩
      rw [(Due.of_isLeaf hc hdue hleaf hk).1, FetchState.get_insertNode, if_pos rfl, hwant]
    · -- a modified leaf that is not fetched is due no record
      rename_i hmodified
      have hS : c.sortedLeafIndices ≠ [] := fun h => hmodified (List.isEmpty_iff.mpr h)
      refine ⟨Keeps.of_tree rfl, [], by simp, ⟨[], .nil⟩, fun k hk => .inl ?_⟩
      rw [(Due.of_isLeaf hc hdue hleaf hk).2, if_neg hS]

variable [DecidableEq L]

/-- **A leaf**: it is modified, so it is due no record; its previous leaf goes into the map. -/
theorem readsNodes_leaf {hash : Felt} {data : L}
    (hp : NodePending storage leafModifications config leaves want (fuel + 1) st (.leaf hash data))
    (b : Bool) (s : FetchState L) :
    ∃ s', processFilledRoot leafModifications config b s (Trie.leaf hash data).filledNode st =
      some (.ok s') ∧ ReadsNodes storage leafModifications config leaves want fuel st s s' := by
  have hleaf : st.rootIndex.isLeaf = true := hp.wf.isLeaf_eq.trans rfl
  have hS := hp.leaf_modified hleaf
  obtain ⟨i₀, hi₀⟩ := List.exists_mem_of_ne_nil _ hS
  have hmem : st.rootIndex ∈ st.sortedLeafIndices :=
    eq_of_isAncestor_of_isLeaf hleaf (hp.below i₀ hi₀).2 ▸ hi₀
  obtain ⟨b', hb'⟩ := compared_eq_ok (fun hc => hp.compared hc _ hmem) data
  refine ⟨{ s with previousLeaves := s.previousLeaves.map fun leaves =>
      (leaves.insert st.rootIndex data).2 }, ?_, Keeps.of_tree rfl, [], by simp, ⟨[], .nil⟩,
    fun k hk => .inl ?_⟩
  · simp only [processFilledRoot, Trie.filledNode, SubTree.isUnmodified_eq_false hS,
      Bool.false_eq_true, if_false, hb']
  · rw [(Due.of_isLeaf hp.toPending hp.due hleaf hk).2, if_neg hS]

/-- **A binary node**: recorded whole when unmodified; otherwise recorded as binary, with its
children handed to `handle_subtree`, each due the records below it. -/
theorem readsNodes_binary {hash : Felt} {left right : Trie L}
    (hp : NodePending storage leafModifications config leaves want (fuel + 1) st
      (.binary hash left right)) (b : Bool) (s : FetchState L) :
    ∃ s', processFilledRoot leafModifications config b s
      (Trie.binary hash left right).filledNode st = some (.ok s') ∧
      ReadsNodes storage leafModifications config leaves want fuel st s s' := by
  have hn := hp.ne_zero
  have hbelow := leavesBelow_eq_self fun i hi => (hp.below i hi).2
  by_cases hS : st.sortedLeafIndices = []
  · -- an unmodified node is recorded whole, and nothing else below it is due
    have hempty : (leavesBelow st.sortedLeafIndices st.rootIndex.val).isEmpty := by
      rw [hbelow, hS]
      rfl
    have hwant : ∀ k : NodeIndex, IsAncestor st.rootIndex.val k.val →
        want k = if k = st.rootIndex then some (.unmodifiedSubTree hash) else none := by
      intro k hk
      rw [hp.due k hk]
      simp [Trie.originalNode, hempty, NodeIndex.ext_iff]
    have hroot : want st.rootIndex = some (.unmodifiedSubTree hash) := by
      rw [hwant _ (IsAncestor.refl _), if_pos rfl]
    refine ⟨s.insertNode st.rootIndex (.unmodifiedSubTree hash), ?_, Keeps.insertNode s hroot, [],
      by simp, ⟨[], .nil⟩, fun k hk => ?_⟩
    · simp [processFilledRoot, Trie.filledNode, SubTree.isUnmodified, hS]
    · by_cases hkn : k = st.rootIndex
      · exact .inr (.inl (by rw [FetchState.get_insertNode, if_pos hkn, hkn, hroot]))
      · exact .inl (by rw [hwant k hk, if_neg hkn])
  · obtain ⟨hsize, hleft_wf, hright_wf⟩ := hp.wf
    have hleaf : st.rootIndex.isLeaf = false := by
      rw [Bool.eq_false_iff]
      intro h
      rw [isLeaf_iff_size.mp h] at hsize
      exact lt_irrefl _ hsize
    obtain ⟨left', right', hchildren, hlv, hrv, hlh, hrh, happend, hlb, hrb⟩ :=
      getChildrenSubtrees_partitions st left.hash right.hash hp.root_le hleaf hp.sorted hp.below
    have hsize_left : Nat.size (2 * st.rootIndex.val) = Nat.size st.rootIndex.val + 1 :=
      size_two_mul_add (b := 0) hn (by decide)
    have hsize_right : Nat.size (2 * st.rootIndex.val + 1) = Nat.size st.rootIndex.val + 1 :=
      size_two_mul_add hn (by decide)
    have hlp : Pending storage leafModifications config leaves fuel left' left :=
      hp.descend hlh (hlv ▸ hleft_wf) hp.stored.left
        (by rw [hlv, hsize_left]; omega)
        (happend ▸ List.sublist_append_left _ _) (fun i hi => hlv ▸ hlb i hi)
        (fun i hi => by rw [hlv]; exact Trie.leafAt_binary_of_left hn (hlb i hi))
    have hrp : Pending storage leafModifications config leaves fuel right' right :=
      hp.descend hrh (hrv ▸ hright_wf) hp.stored.right
        (by rw [hrv, hsize_right]; omega)
        (happend ▸ List.sublist_append_right _ _) (fun i hi => hrv ▸ hrb i hi)
        (fun i hi => by rw [hrv]; exact Trie.leafAt_binary_of_right hn (hrb i hi))
    have hSn : (leavesBelow st.sortedLeafIndices st.rootIndex.val).isEmpty = false := by
      rw [hbelow]
      simpa using hS
    -- below a child, the indices of the node are those of the child
    have hlmem : ∀ i : NodeIndex, IsAncestor (2 * st.rootIndex.val) i.val →
        (i ∈ st.sortedLeafIndices ↔ i ∈ left'.sortedLeafIndices) := by
      intro i hi
      rw [← happend, List.mem_append]
      exact ⟨fun h => h.resolve_right fun h' =>
        Trie.not_isAncestor_sibling (b := 0) hn (by decide) hi (hrb i h'), .inl⟩
    have hrmem : ∀ i : NodeIndex, IsAncestor (2 * st.rootIndex.val + 1) i.val →
        (i ∈ st.sortedLeafIndices ↔ i ∈ right'.sortedLeafIndices) := by
      intro i hi
      rw [← happend, List.mem_append]
      exact ⟨fun h => h.resolve_left fun h' =>
        Trie.not_isAncestor_sibling (b := 1) hn (by decide) hi (hlb i h'), .inr⟩
    have hldue : Due want left' left := by
      intro k hk
      rw [hlv] at hk ⊢
      rw [hp.due k ((isAncestor_two_mul_add (b := 0) hn (by decide)).trans hk),
        Trie.originalNode_binary_of_left hn hSn hk]
      exact left.originalNode_congr (by omega) hlmem _
    have hrdue : Due want right' right := by
      intro k hk
      rw [hrv] at hk ⊢
      rw [hp.due k ((isAncestor_two_mul_add hn (by decide)).trans hk),
        Trie.originalNode_binary_of_right hn hSn hk]
      exact right.originalNode_congr (by omega) hrmem _
    have hroot : want st.rootIndex = some .binary := by
      rw [hp.due _ (IsAncestor.refl _)]
      simp [Trie.originalNode, hSn]
    let s₁ := s.insertNode st.rootIndex .binary
    let s₂ := s₁.handleSubtree left' b
    obtain ⟨hk₂, addedLeft, hnextLeft, ⟨tsLeft, hLeft⟩, hsetLeft⟩ :=
      handleSubtree_readsNodes s₁ b hlp hldue
    obtain ⟨hk₃, addedRight, hnextRight, ⟨tsRight, hRight⟩, hsetRight⟩ :=
      handleSubtree_readsNodes s₂ b hrp hrdue
    refine ⟨s₂.handleSubtree right' b, ?_, (Keeps.insertNode s hroot).trans (hk₂.trans hk₃),
      addedLeft ++ addedRight, ?_, ⟨tsLeft ++ tsRight, List.rel_append hLeft hRight⟩,
      fun k hk => ?_⟩
    · simp only [processFilledRoot, Trie.filledNode, SubTree.isUnmodified_eq_false hS,
        Bool.false_eq_true, if_false, hchildren]
      rfl
    · rw [hnextRight, hnextLeft, List.append_assoc]
      rfl
    · -- the node is recorded; an index below it is below one of the children
      by_cases hkn : k = st.rootIndex
      · refine .inr (.inl ((hk₂.trans hk₃).get_eq ?_))
        rw [FetchState.get_insertNode, if_pos hkn, hkn, hroot]
      obtain ⟨c, hc, hck⟩ := isAncestor_child_of_ne (m := st.rootIndex) hk hkn
      rcases hc with hc | hc
      · exact hsetLeft.keeps hk₃ (fun x hx => List.mem_append_left _ hx) k
          (by rw [hlv, ← hc]; exact hck)
      · exact hsetRight.keeps (Keeps.of_tree rfl) (fun x hx => List.mem_append_right _ hx) k
          (by rw [hrv, ← hc]; exact hck)

/-- **An edge**: recorded, with its bottom when unmodified; otherwise its bottom subtree goes to
`handle_subtree`, due the records below the bottom, and nothing the edge passes by is due. -/
theorem readsNodes_edge {hash : Felt} {pathToBottom : PathToBottom} {bottom : Trie L}
    (hp : NodePending storage leafModifications config leaves want (fuel + 1) st
      (.edge hash pathToBottom bottom)) (b : Bool) (s : FetchState L) :
    ∃ s', processFilledRoot leafModifications config b s
      (Trie.edge hash pathToBottom bottom).filledNode st = some (.ok s') ∧
      ReadsNodes storage leafModifications config leaves want fuel st s s' := by
  have hn := hp.ne_zero
  have hbelow := leavesBelow_eq_self fun i hi => (hp.below i hi).2
  obtain ⟨hlength_pos, hlength, hbottom_wf⟩ := hp.wf
  have hlt : pathToBottom.bottomValue st.rootIndex.val < 2 ^ 252 := by
    have := shiftLeft_add_lt_two_pow (Nat.lt_size_self st.rootIndex.val) pathToBottom.path_lt
    exact lt_of_lt_of_le this (Nat.pow_le_pow_right (by decide) hlength)
  let bottomIndex : NodeIndex := ⟨pathToBottom.bottomValue st.rootIndex.val, le_max_of_lt hlt⟩
  have hbottomIndex : pathToBottom.bottomIndex st.rootIndex = some bottomIndex :=
    PathToBottom.computeBottomIndex_of_le _
  have hbottom_below : IsAncestor st.rootIndex.val bottomIndex.val :=
    Trie.isAncestor_bottomValue hn pathToBottom
  -- an index below the bottom is strictly below the node
  have hne_of_below : ∀ k : NodeIndex, IsAncestor bottomIndex.val k.val → k.val ≠ st.rootIndex.val :=
    fun k hk hkn => by
      have hsize := hk.1
      rw [show bottomIndex.val = pathToBottom.bottomValue st.rootIndex.val from rfl,
        Trie.size_bottomValue hn, hkn] at hsize
      omega
  have hroot : want st.rootIndex = some (.edge pathToBottom) := by
    rw [hp.due _ (IsAncestor.refl _)]
    simp [Trie.originalNode]
  by_cases hS : st.sortedLeafIndices = []
  · -- an unmodified edge is recorded with its bottom, and nothing else below it is due
    have hempty : (leavesBelow st.sortedLeafIndices st.rootIndex.val).isEmpty := by
      rw [hbelow, hS]
      rfl
    have hwant : ∀ k : NodeIndex, IsAncestor st.rootIndex.val k.val → k ≠ st.rootIndex →
        want k = if k = bottomIndex then some (.unmodifiedSubTree bottom.hash) else none := by
      intro k hk hkn
      rw [hp.due k hk]
      simp [Trie.originalNode, hempty, NodeIndex.ext_iff, bottomIndex,
        show k.val ≠ st.rootIndex.val from fun h => hkn (NodeIndex.ext h)]
    have hbn : bottomIndex ≠ st.rootIndex := fun h =>
      hne_of_below bottomIndex (IsAncestor.refl _) (congrArg NodeIndex.val h)
    have hbottom : want bottomIndex = some (.unmodifiedSubTree bottom.hash) := by
      rw [hwant _ hbottom_below hbn, if_pos rfl]
    let s₁ := s.insertNode st.rootIndex (.edge pathToBottom)
    refine ⟨s₁.insertNode bottomIndex (.unmodifiedSubTree bottom.hash), ?_,
      (Keeps.insertNode s hroot).trans (Keeps.insertNode s₁ hbottom), [], by simp [s₁], ⟨[], .nil⟩,
      fun k hk => ?_⟩
    · simp [processFilledRoot, Trie.filledNode, SubTree.isUnmodified, hS, hbottomIndex, s₁]
    · by_cases hkn : k = st.rootIndex
      · subst hkn
        exact .inr (.inl (by simp [s₁, hbn.symm, hroot]))
      by_cases hkb : k = bottomIndex
      · exact .inr (.inl (by rw [FetchState.get_insertNode, if_pos hkb, hkb, hbottom]))
      · exact .inl (by rw [hwant k hk hkn, if_neg hkb])
  · obtain ⟨bottom', hbottom', hget⟩ := getBottomSubtree_partitions st pathToBottom bottom.hash
      hp.root_le hlength hp.sorted (fun i hi => (hp.below i hi).1)
    obtain rfl : bottom' = bottomIndex := Option.some.inj (hbottom'.symm.trans hbottomIndex)
    let passed := st.sortedLeafIndices.filter fun i => !decide (IsAncestor bottomIndex.val i.val)
    let bottomSubtree : SubTree Felt :=
      ⟨st.sortedLeafIndices.filter fun i => decide (IsAncestor bottomIndex.val i.val),
        bottomIndex, bottom.hash⟩
    have hc : Pending storage leafModifications config leaves fuel bottomSubtree bottom :=
      hp.descend rfl hbottom_wf hp.stored.bottom
        (by show _ < Nat.size (pathToBottom.bottomValue _); rw [Trie.size_bottomValue hn]; omega)
        (List.filter_sublist) (fun i hi => of_decide_eq_true (List.mem_filter.mp hi).2)
        (fun i _ => rfl)
    have hSn : (leavesBelow st.sortedLeafIndices st.rootIndex.val).isEmpty = false := by
      rw [hbelow]
      simpa using hS
    -- below the bottom, the records of the edge are those of the bottom subtree
    have hdue : Due want bottomSubtree bottom := by
      intro k hk
      rw [hp.due k (hbottom_below.trans hk)]
      simp only [Trie.originalNode, if_neg (hne_of_below k hk), hSn, Bool.false_eq_true, if_false]
      exact bottom.originalNode_congr (Trie.bottomValue_ne_zero hn _)
        (fun i hi => by simp [bottomSubtree, bottomIndex, hi]) _
    have hlog : logWarningForEmptyLeaves (st.sortedLeafIndices.filter fun i =>
        !decide (IsAncestor bottomIndex.val i.val)) leafModifications config = .ok () :=
      logWarningForEmptyLeaves_eq_ok fun hc i hi => hp.compared hc i (List.mem_filter.mp hi).1
    let s₁ := s.insertNode st.rootIndex (.edge pathToBottom)
    let previousLeaves := s₁.previousLeaves.map fun leaves =>
      leaves.extend (passed.map fun idx => (idx, Leaf.default))
    let s₂ : FetchState L := { s₁ with previousLeaves }
    obtain ⟨hk₃, added, hnext, hadded, hset⟩ := handleSubtree_readsNodes s₂ b hc hdue
    refine ⟨s₂.handleSubtree bottomSubtree b, ?_,
      (Keeps.insertNode s hroot).trans ((Keeps.of_tree rfl : Keeps want s₁ s₂).trans hk₃), added,
      ?_, hadded,
      fun k hk => ?_⟩
    · simp only [processFilledRoot, Trie.filledNode, SubTree.isUnmodified_eq_false hS,
        Bool.false_eq_true, if_false, hget, hlog]
      rfl
    · rw [hnext]
      rfl
    · -- the edge is recorded; below its bottom the bottom subtree settles, and what the edge
      -- passes by is due nothing
      by_cases hkn : k = st.rootIndex
      · refine .inr (.inl (hk₃.get_eq ?_))
        show s₁.tree.nodes.get k = _
        rw [FetchState.get_insertNode, if_pos hkn, hkn, hroot]
      by_cases hkb : IsAncestor bottomIndex.val k.val
      · exact hset k hkb
      · refine .inl ?_
        rw [hp.due k hk]
        simp only [Trie.originalNode, if_neg (fun h => hkn (NodeIndex.ext h)), hSn,
          Bool.false_eq_true, if_false]
        exact bottom.originalNode_of_not_isAncestor (Trie.bottomValue_ne_zero hn _) hkb

/-- Reading the root of any pending subtree. -/
theorem processFilledRoot_readsNodes {t : Trie L}
    (hp : NodePending storage leafModifications config leaves want (fuel + 1) st t) (b : Bool)
    (s : FetchState L) :
    ∃ s', processFilledRoot leafModifications config b s t.filledNode st = some (.ok s') ∧
      ReadsNodes storage leafModifications config leaves want fuel st s s' := by
  cases t with
  | binary hash left right => exact readsNodes_binary hp b s
  | edge hash pathToBottom bottom => exact readsNodes_edge hp b s
  | leaf hash data => exact readsNodes_leaf hp b s

end Reading

/-! ## 4. Rounds and runs -/

section Runs

variable [Leaf L] (storage : Storage) (leafModifications : LeafModifications L)
  (config : OriginalSkeletonTreeConfig) (leaves : NodeIndex → Option L)
  (want : NodeIndex → Option OriginalSkeletonNode) (S : List NodeIndex)

/-- Within a round, with `rest` still to be read: the leaf indices kept, one entry per key, only
records that are due, every record due in the map or below a subtree still to be read, and the
subtrees handed on so far pending in the next round. -/
structure NodesInv (fuel : Nat) (rest : List (SubTree Felt)) (s : FetchState L) : Prop where
  sorted_eq : s.tree.sortedLeafIndices = S
  nodup : (s.tree.nodes.map Prod.fst).Nodup
  sound : ∀ k, s.tree.nodes.get k = none ∨ s.tree.nodes.get k = want k
  settled : ∀ k, s.tree.nodes.get k = want k ∨
    ∃ st ∈ rest ++ s.nextSubtrees, IsAncestor st.rootIndex.val k.val
  next : ∃ ts, List.Forall₂ (NodePending storage leafModifications config leaves want fuel)
    s.nextSubtrees ts

variable {storage leafModifications config leaves want S} {fuel : Nat}

/-- One step of a round keeps its invariant. -/
theorem NodesInv.of_reads {st : SubTree Felt} {rest : List (SubTree Felt)} {s s' : FetchState L}
    (hinv : NodesInv storage leafModifications config leaves want S fuel (st :: rest) s)
    (hreads : ReadsNodes storage leafModifications config leaves want fuel st s s') :
    NodesInv storage leafModifications config leaves want S fuel rest s' := by
  obtain ⟨hkeeps, added, hnext, ⟨ts', hts'⟩, hset⟩ := hreads
  obtain ⟨hsorted, hnodup, hsound, hsettled, ⟨ts, hts⟩⟩ := hinv
  refine ⟨hkeeps.sorted_eq.trans hsorted, hkeeps.nodup hnodup, fun k => ?_, fun k => ?_,
    ⟨ts ++ ts', by rw [hnext]; exact List.rel_append hts hts'⟩⟩
  · rcases hkeeps.onlyDue k with h | h
    · rw [h]
      exact hsound k
    · exact .inr h
  · rw [hnext, ← List.append_assoc]
    rcases hsettled k with h | ⟨c, hc, hck⟩
    · exact .inl (hkeeps.get_eq h)
    rcases List.mem_append.mp hc with hc | hc
    · rcases List.mem_cons.mp hc with rfl | hc
      · -- below the subtree just read
        rcases hset k hck with h | h | ⟨c', hc', hck'⟩
        · -- nothing is due there, and only what is due is recorded
          refine .inl ?_
          rcases hkeeps.onlyDue k with h' | h'
          · rcases hsound k with h'' | h''
            · rw [h', h'', h]
            · rw [h', h'']
          · exact h'
        · exact .inl h
        · exact .inr ⟨c', List.mem_append_right _ hc', hck'⟩
      · exact .inr ⟨c, List.mem_append_left _ (List.mem_append_left _ hc), hck⟩
    · exact .inr ⟨c, List.mem_append_left _ (List.mem_append_right _ hc), hck⟩

variable [DecidableEq L]

/-- **A round reads every pending subtree** and ends with every record due in the map, or below
a subtree of the next round. -/
theorem processFilledRoots_records {sts : List (SubTree Felt)} {ts : List (Trie L)}
    (hpend : List.Forall₂ (NodePending storage leafModifications config leaves want (fuel + 1))
      sts ts) (b : Bool) {s : FetchState L}
    (hinv : NodesInv storage leafModifications config leaves want S fuel sts s) :
    ∃ s', processFilledRoots leafModifications config b s ((ts.map Trie.filledNode).zip sts) =
      some (.ok s') ∧ NodesInv storage leafModifications config leaves want S fuel [] s' := by
  induction hpend generalizing s with
  | nil => exact ⟨s, rfl, hinv⟩
  | cons hp _ ih =>
    obtain ⟨s₁, hstep, hreads⟩ := processFilledRoot_readsNodes hp b s
    obtain ⟨s', hrun, hinv'⟩ := ih (hinv.of_reads hreads)
    refine ⟨s', ?_, hinv'⟩
    simp only [List.map_cons, List.zip_cons_cons, processFilledRoots, hstep, hrun]

/-- **The rounds record exactly what is due**: from pending subtrees, with every record due in
the map or below one of them, `fetch_nodes` returns a skeleton with every record due and no
other, whether or not it collects previous leaves. -/
theorem fetchNodes_records
    (hdecode : ∀ leaf : L, Leaf.deserialize (Leaf.serialize leaf) = .ok leaf) :
    ∀ (fuel : Nat) (tree : OriginalSkeletonTreeImpl) (sts : List (SubTree Felt)) (ts : List (Trie L))
      (previousLeaves : Option (HashMap NodeIndex L)), 0 < fuel →
      List.Forall₂ (NodePending storage leafModifications config leaves want fuel) sts ts →
      NodesInv storage leafModifications config leaves want S fuel sts ⟨tree, [], previousLeaves⟩ →
      ∃ tree' previousLeaves', fetchNodes fuel tree sts storage leafModifications config
          previousLeaves = some (.ok (tree', previousLeaves')) ∧
        tree'.sortedLeafIndices = S ∧ (tree'.nodes.map Prod.fst).Nodup ∧
        ∀ k, tree'.nodes.get k = want k
  | 0, _, _, _, _, hfuel, _, _ => absurd hfuel (Nat.lt_irrefl 0)
  | fuel + 1, tree, [], _, previousLeaves, _, _, hinv => by
    -- no subtree is left: every record due is in the map
    refine ⟨tree, previousLeaves, rfl, hinv.sorted_eq, hinv.nodup, fun k => ?_⟩
    rcases hinv.settled k with h | ⟨_, h, _⟩
    · exact h
    · cases h
  | fuel + 1, tree, st :: sts, ts, previousLeaves, _, hpend, hinv => by
    obtain ⟨t, ts', hp, -, rfl⟩ := List.forall₂_cons_left_iff.mp hpend
    -- a pending subtree is at most on the last level, so fuel is left for the next round
    have hfuel : 0 < fuel := by
      have := hp.fuel_le
      have := size_le st.rootIndex
      omega
    obtain ⟨s', hround, hinv'⟩ := processFilledRoots_records hpend
      (config.compareModifiedLeaves || previousLeaves.isSome)
      (s := ⟨tree, [], previousLeaves⟩) { hinv with next := ⟨[], .nil⟩ }
    obtain ⟨ts'', hnext⟩ := hinv'.next
    obtain ⟨tree', previousLeaves', hrun, hsorted, hnodup, hall⟩ := fetchNodes_records hdecode
      fuel s'.tree s'.nextSubtrees ts'' s'.previousLeaves hfuel hnext
      { hinv' with settled := by simpa using hinv'.settled, next := ⟨[], .nil⟩ }
    refine ⟨tree', previousLeaves', ?_, hsorted, hnodup, hall⟩
    rw [fetchNodes]
    simp only [List.isEmpty_cons, Bool.false_eq_true, if_false, hround, hrun,
      calculateSubtreesRoots_stored hdecode
        (hpend.imp fun _ _ hp => ⟨hp.ne_zero, hp.hash_eq, hp.wf, hp.stored⟩)]

end Runs

/-! ## 5. From storage to the updated skeleton -/

section FromStorage

variable [Leaf L] [DecidableEq L]

/-- The modified indices of modifications that are not empty. -/
theorem SortedKeys.ne_nil {M : LeafModifications SkeletonLeaf} {S : List NodeIndex}
    (hS : SortedKeys M S) (hM : M ≠ []) : S ≠ [] := by
  obtain ⟨⟨k, v⟩, rest, rfl⟩ := List.exists_cons_of_ne_nil hM
  have hk : k ∈ S := (hS.mem_iff k).mpr (by simp [HashMap.get])
  exact List.ne_nil_of_mem hk

/-- `create` fetches the original skeleton of a canonical trie in storage: the empty skeleton for
the empty trie, and otherwise exactly the records `Trie.originalNode` of the trie. -/
theorem createImpl_isOriginal (fuel : Nat) (storage : Storage) (T : Option (Trie L))
    (rootHash : Felt) (S : SortedLeafIndices) (config : OriginalSkeletonTreeConfig)
    (leafModifications : LeafModifications L)
    (hdecode : ∀ leaf : L, Leaf.deserialize (Leaf.serialize leaf) = .ok leaf)
    (hT : StoredUnder storage T rootHash) (hcanonical : ∀ t ∈ T, t.Canonical)
    (hempty : rootHash = Felt.zero → T = none) (hS : S ≠ []) (hsorted : S.Pairwise (· < ·))
    (hleaves : ∀ i ∈ S, i.isLeaf = true)
    (hcompare : config.compareModifiedLeaves = true → ∀ i ∈ S, (leafModifications.get i).isSome)
    (hfuel : 253 ≤ fuel) :
    ∃ O, OriginalSkeletonTreeImpl.create fuel storage rootHash S config leafModifications =
      some (.ok O) ∧ O.sortedLeafIndices = S ∧ IsOriginal T O := by
  have hS' : S.isEmpty = false := List.isEmpty_eq_false_iff.mpr hS
  unfold OriginalSkeletonTreeImpl.create createImpl
  by_cases hzero : rootHash = Felt.zero
  · -- the empty trie: nothing is recorded
    rw [hempty hzero]
    refine ⟨createEmpty S, ?_, rfl, .empty rfl⟩
    simp only [hS', Bool.false_eq_true, if_false, if_pos hzero,
      logWarningForEmptyLeaves_eq_ok hcompare]
  obtain ⟨t, rfl⟩ : ∃ t, T = some t := by
    cases T with
    | none => exact absurd hT hzero
    | some t => exact ⟨t, rfl⟩
  obtain ⟨hhash, hwf, hstored⟩ := hT
  let leaves : NodeIndex → Option L := fun i => some ((t.leafAt root.val i.val).getD Leaf.default)
  let want : NodeIndex → Option OriginalSkeletonNode := fun k => t.originalNode S root.val k.val
  -- the root subtree holds every index and is due every record
  have hmain : NodePending storage leafModifications config leaves want fuel ⟨S, root, rootHash⟩ t :=
    { root_le := le_rfl
      hash_eq := hhash
      wf := hwf
      stored := hstored
      sorted := hsorted
      below := fun i hi => ⟨hleaves i hi,
        isAncestor_one (Nat.pos_iff_ne_zero.mp (root_le_of_isLeaf (hleaves i hi)))⟩
      want_eq := fun _ _ => rfl
      compared := hcompare
      fuel_le := by
        show 254 ≤ Nat.size 1 + fuel
        rw [Nat.size_one]
        omega
      due := fun _ _ => rfl
      leaf_modified := fun h => absurd h (show ¬ root.isLeaf = true by decide) }
  have hinv : NodesInv storage leafModifications config leaves want S fuel [⟨S, root, rootHash⟩]
      ⟨⟨[], S⟩, [], none⟩ :=
    { sorted_eq := rfl
      nodup := List.nodup_nil
      sound := fun _ => .inl rfl
      settled := fun k => by
        by_cases hk : k.val = 0
        · -- nothing is due outside the tree
          refine .inl (t.originalNode_of_not_isAncestor (by decide) ?_).symm
          rw [hk]
          decide
        · exact .inr ⟨_, .head _, isAncestor_one hk⟩
      next := ⟨[], .nil⟩ }
  obtain ⟨tree', _, hrun, hsorted', hnodup, hall⟩ := fetchNodes_records hdecode fuel ⟨[], S⟩
    [⟨S, root, rootHash⟩] [t] none (by omega) (.cons hmain .nil) hinv
  refine ⟨tree', ?_, hsorted', .trie hwf (hcanonical t (Option.mem_some_self t)) hnodup
    fun k => by rw [hall k, hsorted']⟩
  simp only [hS', Bool.false_eq_true, if_false, if_neg hzero, hrun]

/-- **From storage to the updated skeleton**: for a canonical trie in storage under its root hash
(the empty root for the empty trie only) and modifications of sorted leaf indices, with a
modification at every index when the configuration compares leaves, `OriginalSkeletonTree::create`
fetches the original skeleton of the trie, and `UpdatedSkeletonTreeImpl::create` builds from it a
skeleton that is empty when no leaf is left and otherwise spells the canonical trie of the leaves
after the update. -/
theorem create_from_storage {fuel fuel' : Nat} {storage : Storage} {T : Option (Trie L)}
    {rootHash : Felt} {S : SortedLeafIndices} {config : OriginalSkeletonTreeConfig}
    {leafModifications : LeafModifications L} {M : LeafModifications SkeletonLeaf}
    (hdecode : ∀ leaf : L, Leaf.deserialize (Leaf.serialize leaf) = .ok leaf)
    (hT : StoredUnder storage T rootHash) (hcanonical : ∀ t ∈ T, t.Canonical)
    (hempty : rootHash = Felt.zero → T = none) (hMne : M ≠ []) (hM : (M.map Prod.fst).Nodup)
    (hS : SortedKeys M S)
    (hcompare : config.compareModifiedLeaves = true → ∀ i ∈ S, (leafModifications.get i).isSome)
    (hfuel : 253 ≤ fuel) (hfuel' : 252 ≤ fuel') :
    ∃ O U, OriginalSkeletonTreeImpl.create fuel storage rootHash S config leafModifications =
        some (.ok O) ∧ IsOriginal T O ∧ UpdatedSkeletonTreeImpl.create fuel' O M = some (.ok ⟨U⟩) ∧
      (updatedLeaves M (leavesOf T) = ∅ ∧ U = [] ∨
        ∃ s, Spelled T U root (updatedLeaves M (leavesOf T)) s) := by
  obtain ⟨O, hO, hsorted, horiginal⟩ := createImpl_isOriginal fuel storage T rootHash S config
    leafModifications hdecode hT hcanonical hempty (hS.ne_nil hMne) hS.sorted hS.leaves hcompare
    hfuel
  obtain ⟨U, hU, hres | ⟨-, -, -, hres⟩⟩ := create_eq hfuel' hMne hM (hsorted ▸ hS) horiginal
  · exact ⟨O, U, hO, horiginal, hU, .inl hres⟩
  · exact ⟨O, U, hO, horiginal, hU, .inr hres⟩

/-- The trie of one storage value, its leaf modified: the two passes from storage. -/
theorem create_from_storage_firstLeaf :
    ∃ O U, OriginalSkeletonTreeImpl.create 253 (firstLeafStorage Felt.one Felt.one) Felt.one
        [firstLeaf] ⟨false⟩ ([] : LeafModifications StarknetStorageValue) = some (.ok O) ∧
      IsOriginal (some (firstLeafTrie Felt.one Felt.one)) O ∧
      UpdatedSkeletonTreeImpl.create 252 O [(firstLeaf, .nonZero)] = some (.ok ⟨U⟩) ∧
      (updatedLeaves [(firstLeaf, .nonZero)] (leavesOf (some (firstLeafTrie Felt.one Felt.one))) = ∅ ∧
          U = [] ∨
        ∃ s, Spelled (some (firstLeafTrie Felt.one Felt.one)) U root
          (updatedLeaves [(firstLeaf, .nonZero)] (leavesOf (some (firstLeafTrie Felt.one Felt.one))))
          s) :=
  create_from_storage StarknetStorageValue.deserialize_serialize (storedUnder_firstLeafTrie _ _)
    (fun t ht => by
      obtain rfl := Option.mem_some_iff.mp ht
      exact ⟨rfl, trivial⟩)
    (fun h => absurd h (by decide)) (List.cons_ne_nil _ _) (by simp) sortedKeys_firstLeaf
    (fun h => absurd h (by decide)) le_rfl le_rfl

end FromStorage

end Sequencer.Patricia
