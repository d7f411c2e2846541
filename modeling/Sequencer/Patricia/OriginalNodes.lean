/-
# The nodes of an original skeleton

What `fetch_nodes` records of a stored trie, given the modified leaves `S`, as a function of the
trie (`Trie.originalNode`): an unmodified subtree at its root, an edge with what is below it, a
modified binary node as binary.  A modified leaf is not recorded: the updated skeleton gets it from
the modifications.  These are the nodes the updated skeleton reads (`create_tree_helper.rs`),
and the lemmas here are the ones its recursion cites: what is recorded below a child or an edge,
and that an unmodified subtree stands for a node of the trie.
-/
import Sequencer.Patricia.SkeletonShape

namespace Sequencer.Patricia

open HeapIndex NodeIndex

variable {L : Type}

namespace Trie

/-- The node the original skeleton of the trie at index `n` records at index `k`, with the
modified leaves `S`. -/
def originalNode (S : List NodeIndex) : Trie L → Nat → Nat → Option OriginalSkeletonNode
  | binary hash left right, n, k =>
    if (leavesBelow S n).isEmpty then (if k = n then some (.unmodifiedSubTree hash) else none)
    else if k = n then some .binary
    else (left.originalNode S (2 * n) k).or (right.originalNode S (2 * n + 1) k)
  | edge _ pathToBottom bottom, n, k =>
    if k = n then some (.edge pathToBottom)
    -- an unmodified edge is read with its bottom, which is not read further
    else if (leavesBelow S n).isEmpty then
      (if k = pathToBottom.bottomValue n then some (.unmodifiedSubTree bottom.hash) else none)
    else bottom.originalNode S (pathToBottom.bottomValue n) k
  | leaf hash _, n, k =>
    if (leavesBelow S n).isEmpty ∧ k = n then some (.unmodifiedSubTree hash) else none

variable {S : List NodeIndex}

/-- Nothing is recorded outside the subtree of the root. -/
theorem originalNode_of_not_isAncestor (t : Trie L) {n k : Nat} (hn : n ≠ 0)
    (hk : ¬ IsAncestor n k) : t.originalNode S n k = none := by
  have hkn : k ≠ n := fun h => hk (h ▸ IsAncestor.refl _)
  induction t generalizing n with
  | binary _ left right ihl ihr =>
    have hl := ihl (n := 2 * n) (by omega)
      (fun h => hk ((isAncestor_two_mul_add (b := 0) hn (by decide)).trans h))
      (fun h => hk (h ▸ isAncestor_two_mul_add (b := 0) hn (by decide)))
    have hr := ihr (n := 2 * n + 1) (by omega)
      (fun h => hk ((isAncestor_two_mul_add hn (by decide)).trans h))
      (fun h => hk (h ▸ isAncestor_two_mul_add hn (by decide)))
    simp [originalNode, hkn, hl, hr]
  | edge _ pathToBottom bottom ih =>
    have hbk : ¬ IsAncestor (pathToBottom.bottomValue n) k := fun h =>
      hk ((Trie.isAncestor_bottomValue hn pathToBottom).trans h)
    have hb := ih (bottomValue_ne_zero hn pathToBottom) hbk
      (fun h => hbk (h ▸ IsAncestor.refl _))
    have hkb : k ≠ pathToBottom.bottomValue n := fun h => hbk (h ▸ IsAncestor.refl _)
    simp [originalNode, hkn, hkb, hb]
  | leaf => simp [originalNode, hkn]

/-- Where nothing is modified, a node that is no edge is recorded at its root alone. -/
theorem originalNode_of_isEmpty {t : Trie L} {n : Nat} (h : (leavesBelow S n).isEmpty)
    (ht : t.isEdge = false) (k : Nat) :
    t.originalNode S n k = if k = n then some (.unmodifiedSubTree t.hash) else none := by
  cases t with
  | binary => simp [originalNode, h, Trie.hash]
  | edge => cases ht
  | leaf =>
    by_cases hk : k = n <;> simp [originalNode, h, hk, Trie.hash]

/-- The leaves below a node below `n` are among those below `n`. -/
theorem isEmpty_leavesBelow_of_isAncestor {n m : Nat} (hnm : IsAncestor n m)
    (h : (leavesBelow S n).isEmpty) : (leavesBelow S m).isEmpty := by
  simp only [List.isEmpty_iff, List.eq_nil_iff_forall_not_mem, mem_leavesBelow] at h ⊢
  exact fun i hi => h i ⟨hi.1, hnm.trans hi.2⟩

/-- Below the left child of a modified binary node, the left child's records. -/
theorem originalNode_binary_of_left {hash : Felt} {left right : Trie L} {n k : Nat} (hn : n ≠ 0)
    (hS : (leavesBelow S n).isEmpty = false) (hk : IsAncestor (2 * n) k) :
    (binary hash left right).originalNode S n k = left.originalNode S (2 * n) k := by
  have hkn : k ≠ n := by
    rintro rfl
    have hsize : Nat.size (2 * k) = Nat.size k + 1 := size_two_mul_add (b := 0) hn (by decide)
    have := hk.1
    omega
  have hright := right.originalNode_of_not_isAncestor (S := S) (n := 2 * n + 1) (k := k) (by omega)
    (Trie.not_isAncestor_sibling (b := 0) hn (by decide) hk)
  simp [originalNode, hS, hkn, hright]

theorem originalNode_binary_of_right {hash : Felt} {left right : Trie L} {n k : Nat} (hn : n ≠ 0)
    (hS : (leavesBelow S n).isEmpty = false) (hk : IsAncestor (2 * n + 1) k) :
    (binary hash left right).originalNode S n k = right.originalNode S (2 * n + 1) k := by
  have hkn : k ≠ n := by
    rintro rfl
    have hsize := size_two_mul_add (b := 1) hn (by decide)
    have := hk.1
    omega
  have hleft := left.originalNode_of_not_isAncestor (S := S) (n := 2 * n) (k := k) (by omega)
    (Trie.not_isAncestor_sibling (b := 1) hn (by decide) hk)
  simp [originalNode, hS, hkn, hleft]

/-- Below the top of an edge whose bottom is no edge, the bottom's records, modified or not. -/
theorem originalNode_edge_of_ne {hash : Felt} {pathToBottom : PathToBottom} {bottom : Trie L}
    {n k : Nat} (hn : n ≠ 0) (hb : bottom.isEdge = false) (hk : k ≠ n) :
    (edge hash pathToBottom bottom).originalNode S n k =
      bottom.originalNode S (pathToBottom.bottomValue n) k := by
  by_cases hS : (leavesBelow S n).isEmpty
  · rw [originalNode_of_isEmpty (isEmpty_leavesBelow_of_isAncestor
      (isAncestor_bottomValue hn pathToBottom) hS) hb]
    simp [originalNode, hk, hS]
  · simp [originalNode, hk, hS]

/-- **An unmodified subtree stands for a node of the trie**: one with the hash recorded, no edge
if the trie is canonical, and nothing modified below it. -/
theorem originalNode_eq_unmodified {t : Trie L} {n k : Nat} (hn : n ≠ 0) (hc : t.Canonical)
    {hash : Felt} (h : t.originalNode S n k = some (.unmodifiedSubTree hash)) :
    ∃ t', t.subtreeAt n k = some t' ∧ t'.hash = hash ∧ t'.isEdge = false ∧
      (leavesBelow S k).isEmpty := by
  induction t generalizing n with
  | binary hash' left right ihl ihr =>
    by_cases hS : (leavesBelow S n).isEmpty
    · -- recorded at the root
      by_cases hk : k = n
      · subst hk
        simp only [originalNode, hS, if_true, Option.some.injEq,
          OriginalSkeletonNode.unmodifiedSubTree.injEq] at h
        exact ⟨_, subtreeAt_self _ _, h, rfl, hS⟩
      · simp [originalNode, hS, hk] at h
    · by_cases hk : k = n
      · simp [originalNode, hS, hk] at h
      -- recorded below one of the children
      by_cases hl : IsAncestor (2 * n) k
      · rw [originalNode_binary_of_left hn (by simpa using hS) hl] at h
        rw [subtreeAt_binary_of_left hn hl]
        exact ihl (by omega) hc.1 h
      by_cases hr : IsAncestor (2 * n + 1) k
      · rw [originalNode_binary_of_right hn (by simpa using hS) hr] at h
        rw [subtreeAt_binary_of_right hn hr]
        exact ihr (by omega) hc.2 h
      have hl' := left.originalNode_of_not_isAncestor (S := S) (by omega) hl
      have hr' := right.originalNode_of_not_isAncestor (S := S) (by omega) hr
      simp [originalNode, hS, hk, hl', hr'] at h
  | edge hash' pathToBottom bottom ih =>
    by_cases hk : k = n
    · simp [originalNode, hk] at h
    rw [originalNode_edge_of_ne hn hc.1 hk] at h
    rw [subtreeAt_edge_of_ne hk]
    exact ih (bottomValue_ne_zero hn pathToBottom) hc.2 h
  | leaf hash' data =>
    by_cases hk : (leavesBelow S n).isEmpty ∧ k = n
    · obtain ⟨hS, rfl⟩ := hk
      simp only [originalNode, hS, and_self, if_true, Option.some.injEq,
        OriginalSkeletonNode.unmodifiedSubTree.injEq] at h
      exact ⟨_, subtreeAt_self _ _, h, rfl, hS⟩
    · rw [originalNode, if_neg hk] at h
      cases h

end Trie

end Sequencer.Patricia
