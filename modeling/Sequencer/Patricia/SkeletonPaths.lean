/-
# Paths in the updated skeleton

The index arithmetic that `create_tree_helper.rs` rests on, each function with the one lemma its
callers cite: the children of a node (`get_children_indices`), the modified leaves below each of
them (`split_leaves` on the leaves below a node) and whether there are some on both sides, the
lowest common ancestor of the first and the last of them (`get_path_to_lca`), the first step of an
edge (`is_left_descendant`), and what is left of an edge past its first steps
(`remove_first_edges`) or when one edge continues another (`concat_paths`).  The leaves below a
node are `leavesBelow`, a filter of the sorted leaves of the whole tree.
-/
import Sequencer.Patricia.UpdatedSkeleton
import Sequencer.Patricia.StoredTrie

namespace Sequencer.Patricia

open HeapIndex NodeIndex

/-! ## 1. Children, and the leaves below a node -/

theorem getChildrenIndices_eq {n : NodeIndex} (hleaf : n.isLeaf = false) :
    ∃ left right : NodeIndex, n.getChildrenIndices = some (left, right) ∧
      left.val = 2 * n.val ∧ right.val = 2 * n.val + 1 := by
  have hsize := size_lt_of_isLeaf_eq_false hleaf
  have hlt : 2 * n.val + 1 < 2 ^ 252 := by
    have hn := Nat.lt_size_self n.val
    have hpow : 2 ^ Nat.size n.val ≤ 2 ^ 251 := Nat.pow_le_pow_right (by decide) (by omega)
    have h252 : (2 : Nat) ^ 252 = 2 * 2 ^ 251 := by norm_num
    omega
  let left : NodeIndex := ⟨2 * n.val, le_max_of_lt (by omega)⟩
  let right : NodeIndex := ⟨2 * n.val + 1, le_max_of_lt hlt⟩
  have hleft : n.shl 1 = some left := shl_eq_some (by simp [left, Nat.shiftLeft_eq, Nat.mul_comm])
  have hright : left.add root = some right := add_eq_some rfl
  refine ⟨left, right, ?_, rfl, rfl⟩
  simp only [getChildrenIndices, hleft, hright, Option.bind_eq_bind, Option.bind_some,
    Option.pure_def]

/-- The indices of `S` below the node `n`. -/
def leavesBelow (S : List NodeIndex) (n : Nat) : List NodeIndex :=
  S.filter fun i => decide (IsAncestor n i.val)

variable {S : List NodeIndex}

@[simp] theorem mem_leavesBelow {n : Nat} {i : NodeIndex} :
    i ∈ leavesBelow S n ↔ i ∈ S ∧ IsAncestor n i.val := by
  simp [leavesBelow]

theorem pairwise_leavesBelow (hsorted : S.Pairwise (· < ·)) (n : Nat) :
    (leavesBelow S n).Pairwise (· < ·) :=
  hsorted.sublist List.filter_sublist

/-- Below a node that lies above every index below `n`, and below `n`, are the same indices. -/
theorem leavesBelow_eq_of_isAncestor {n m : Nat} (hnm : IsAncestor n m)
    (h : ∀ i ∈ leavesBelow S n, IsAncestor m i.val) : leavesBelow S m = leavesBelow S n := by
  unfold leavesBelow
  refine List.filter_congr fun i hi => ?_
  by_cases hn : IsAncestor n i.val
  · simp [hn, h i (mem_leavesBelow.mpr ⟨hi, hn⟩)]
  · have hm : ¬ IsAncestor m i.val := fun hm => hn (hnm.trans hm)
    simp [hn, hm]

theorem leavesBelow_leavesBelow {n m : Nat} (hnm : IsAncestor n m) :
    leavesBelow (leavesBelow S n) m = leavesBelow S m := by
  unfold leavesBelow
  rw [List.filter_filter]
  refine List.filter_congr fun i _ => ?_
  by_cases hm : IsAncestor m i.val
  · simp [hm, hnm.trans hm]
  · simp [hm]

/-- **`split_leaves` on the leaves below a node** gives the leaves below each child. -/
theorem splitLeaves_leavesBelow {n : NodeIndex} (hroot : root ≤ n) (hleaf : n.isLeaf = false)
    (hsorted : S.Pairwise (· < ·)) (hleaves : ∀ i ∈ S, i.isLeaf = true) :
    splitLeaves n (leavesBelow S n.val) =
      some (leavesBelow S (2 * n.val), leavesBelow S (2 * n.val + 1)) := by
  have hn : n.val ≠ 0 := Nat.pos_iff_ne_zero.mp hroot
  obtain ⟨L, R, hsplit, happend, hL, hR⟩ := splitLeaves_partitions n (leavesBelow S n.val) hroot
    hleaf (pairwise_leavesBelow hsorted _)
    (fun i hi => ⟨hleaves i (mem_leavesBelow.mp hi).1, (mem_leavesBelow.mp hi).2⟩)
  -- each side is the filter of the whole by its child
  have h₀ : IsAncestor n.val (2 * n.val) := isAncestor_two_mul_add (b := 0) hn (by decide)
  have h₁ : IsAncestor n.val (2 * n.val + 1) := isAncestor_two_mul_add hn (by decide)
  have hleft : leavesBelow S (2 * n.val) = L := by
    rw [← leavesBelow_leavesBelow h₀, ← happend]
    unfold leavesBelow
    rw [List.filter_append, List.filter_eq_self.mpr (fun i hi => by simpa using hL i hi),
      List.filter_eq_nil_iff.mpr (fun i hi => by
        simpa using Trie.not_isAncestor_sibling (b := 1) hn (by decide) (hR i hi)),
      List.append_nil]
  have hright : leavesBelow S (2 * n.val + 1) = R := by
    rw [← leavesBelow_leavesBelow h₁, ← happend]
    unfold leavesBelow
    rw [List.filter_append, List.filter_eq_nil_iff.mpr (fun i hi => by
        simpa using Trie.not_isAncestor_sibling (b := 0) hn (by decide) (by simpa using hL i hi)),
      List.filter_eq_self.mpr (fun i hi => by simpa using hR i hi), List.nil_append]
  rw [hsplit, hleft, hright]

theorem hasLeavesOnBothSides_leavesBelow {n : NodeIndex} (hroot : root ≤ n)
    (hleaf : n.isLeaf = false) (hsorted : S.Pairwise (· < ·)) (hleaves : ∀ i ∈ S, i.isLeaf = true)
    (hne : leavesBelow S n.val ≠ []) :
    hasLeavesOnBothSides n (leavesBelow S n.val) =
      some (!(leavesBelow S (2 * n.val)).isEmpty && !(leavesBelow S (2 * n.val + 1)).isEmpty) := by
  rw [hasLeavesOnBothSides, if_neg (by simpa using hne),
    splitLeaves_leavesBelow hroot hleaf hsorted hleaves, Option.map_some]

/-! ## 2. The lowest common ancestor -/

/-- **`get_lca` returns the lowest common ancestor**, stated with `IsAncestor`: every common
ancestor of the two is its ancestor. -/
theorem getLca_isAncestor (a b : NodeIndex) (ha : root ≤ a) (hb : root ≤ b) :
    ∃ c, a.getLca b = some c ∧ IsAncestor c.val a.val ∧ IsAncestor c.val b.val ∧
      ∀ d, IsAncestor d a.val → IsAncestor d b.val → IsAncestor d c.val := by
  obtain ⟨c, hc, hca, hcb, hmax⟩ := getLca_lowest_common_ancestor a b ha hb
  have hca' : IsAncestor c.val a.val := by
    refine isAncestor_of_shiftRight_eq ?_
    rw [← bitLength_eq_size, ← bitLength_eq_size]
    exact congrArg NodeIndex.val hca
  have hcb' : IsAncestor c.val b.val := by
    refine isAncestor_of_shiftRight_eq ?_
    rw [← bitLength_eq_size, ← bitLength_eq_size]
    exact congrArg NodeIndex.val hcb
  refine ⟨c, hc, hca', hcb', fun d hda hdb => hda.of_size_le hca' ?_⟩
  -- a deeper common ancestor would be an index of the tree that `get_lca` passed over
  by_contra hlt
  have hd : d ≤ NodeIndex.max := by
    have := hda.2
    exact (this ▸ Nat.shiftRight_le _ _).trans a.le_max
  refine hmax ⟨d, hd⟩ (by
    rw [bitLength_eq_size, bitLength_eq_size]
    show Nat.size c.val < Nat.size d
    omega) ?_ ?_
  · ext
    rw [shr_val, bitLength_eq_size, bitLength_eq_size]
    exact hda.2
  · ext
    rw [shr_val, bitLength_eq_size, bitLength_eq_size]
    exact hdb.2

/-- **`get_path_to_lca`**: from a node above the first and the last index, the path to their
lowest common ancestor. -/
theorem getPathToLca_eq {n : NodeIndex} (hroot : root ≤ n) {l : List NodeIndex} {a b : NodeIndex}
    (ha : l.head? = some a) (hb : l.getLast? = some b) (hra : root ≤ a) (hrb : root ≤ b)
    (hna : IsAncestor n.val a.val) (hnb : IsAncestor n.val b.val) :
    ∃ p c, getPathToLca n l = some p ∧ p.bottomIndex n = some c ∧
      c.val = p.bottomValue n.val ∧ p.length = Nat.size c.val - Nat.size n.val ∧
      IsAncestor c.val a.val ∧ IsAncestor c.val b.val ∧
      ∀ d, IsAncestor d a.val → IsAncestor d b.val → IsAncestor d c.val := by
  -- the common ancestor the code takes: the index itself when there is one
  obtain ⟨c, hlca, hca, hcb, hmax⟩ : ∃ c, (if l.length = 1 then some a else l.getLast?.bind a.getLca) =
      some c ∧ IsAncestor c.val a.val ∧ IsAncestor c.val b.val ∧
      ∀ d, IsAncestor d a.val → IsAncestor d b.val → IsAncestor d c.val := by
    split
    · rename_i hlength
      obtain ⟨x, rfl⟩ := List.length_eq_one_iff.mp hlength
      simp only [List.head?_cons, Option.some.injEq, List.getLast?_singleton] at ha hb
      subst ha hb
      exact ⟨x, by simp, IsAncestor.refl _, IsAncestor.refl _, fun _ hd _ => hd⟩
    · obtain ⟨c, hc, h⟩ := getLca_isAncestor a b hra hrb
      exact ⟨c, by rw [hb, Option.bind_some, hc], h⟩
  have hnc : IsAncestor n.val c.val := hmax _ hna hnb
  obtain ⟨p, hp, hlength, hpath⟩ := getPathToDescendant_of_isAncestor hroot hnc
  have hbottom := computeBottomIndex_getPathToDescendant hroot hnc
  rw [hp, Option.bind_some] at hbottom
  have hval : c.val = p.bottomValue n.val := by
    unfold PathToBottom.bottomValue
    rw [hpath, hlength]
    exact hnc.eq_shiftLeft_add
  refine ⟨p, c, ?_, hbottom, hval, hlength, hca, hcb, hmax⟩
  -- the `do` block goes on from inside each branch of the `if`
  simp only [getPathToLca, ha, Option.bind_eq_bind, Option.bind_some]
  split
  · rename_i h
    rw [if_pos h] at hlca
    obtain rfl := Option.some.inj hlca
    exact hp
  · rename_i h
    rw [if_neg h] at hlca
    rw [hlca, Option.bind_some]
    exact hp

/-- Of sorted leaves, a common ancestor of the first and the last is an ancestor of all. -/
theorem isAncestor_of_head_of_getLast {l : List NodeIndex} (hsorted : l.Pairwise (· < ·))
    (hleaves : ∀ i ∈ l, i.isLeaf = true) {a b : NodeIndex} (ha : l.head? = some a)
    (hb : l.getLast? = some b) {d : Nat} (hda : IsAncestor d a.val) (hdb : IsAncestor d b.val) :
    ∀ i ∈ l, IsAncestor d i.val := by
  intro i hi
  have hsize : ∀ j ∈ l, Nat.size j.val = 252 := fun j hj => isLeaf_iff_size.mp (hleaves j hj)
  have hai : a ≤ i := by
    obtain ⟨t, rfl⟩ : ∃ t, l = a :: t := by
      cases l with
      | nil => cases ha
      | cons x t => exact ⟨t, by simpa using ha⟩
    rcases List.mem_cons.mp hi with rfl | hi
    · exact le_rfl
    · exact le_of_lt (List.rel_of_pairwise_cons hsorted hi)
  have hib : i ≤ b := by
    obtain ⟨t, rfl⟩ : ∃ t, l = t ++ [b] := by
      obtain ⟨t, ht⟩ := List.getLast?_eq_some_iff.mp hb
      exact ⟨t, ht⟩
    rcases List.mem_append.mp hi with hi | hi
    · exact le_of_lt ((List.pairwise_append.mp hsorted).2.2 i hi b (List.mem_singleton_self b))
    · rw [List.mem_singleton.mp hi]
  have ha_mem : a ∈ l := List.mem_of_head? ha
  have hb_mem : b ∈ l := List.mem_of_getLast? hb
  exact hda.of_le_of_le hdb (by rw [hsize a ha_mem, hsize i hi]) (by rw [hsize b hb_mem, hsize i hi])
    hai hib

/-! ## 3. Edges: the first step, removing steps, joining two -/

theorem shiftRight_bottomValue (p : PathToBottom) (n : Nat) {j : Nat} (hj : j ≤ p.length) :
    p.bottomValue n >>> j = n <<< (p.length - j) + p.path >>> j := by
  unfold PathToBottom.bottomValue
  rw [Nat.shiftLeft_eq, Nat.shiftLeft_eq, Nat.shiftRight_eq_div_pow, Nat.shiftRight_eq_div_pow,
    show p.length = (p.length - j) + j by omega, Nat.pow_add, ← Nat.mul_assoc,
    Nat.add_comm (n * 2 ^ (p.length - j) * 2 ^ j), Nat.add_mul_div_right _ _ (Nat.two_pow_pos j),
    Nat.add_comm, show p.length - j + j - j = p.length - j by omega]

/-- **`is_left_descendant`**: an edge of positive length goes left first exactly when its
bottom is below the left child. -/
theorem isLeftDescendant_eq {p : PathToBottom} (hpos : 0 < p.length) {n : Nat} (hn : n ≠ 0) :
    p.isLeftDescendant = some (decide (IsAncestor (2 * n) (p.bottomValue n))) := by
  have hsize := Trie.size_bottomValue hn p
  have hsize2 : Nat.size (2 * n) = Nat.size n + 1 := size_two_mul_add (b := 0) hn (by decide)
  -- the bottom, one level below the left child, is `2 n` followed by the rest of the path
  have hiff : IsAncestor (2 * n) (p.bottomValue n) ↔ p.path >>> (p.length - 1) = 0 := by
    rw [isAncestor_iff_shiftRight_eq (k := p.length - 1) (by omega),
      shiftRight_bottomValue p n (by omega), show p.length - (p.length - 1) = 1 by omega,
      Nat.shiftLeft_eq, Nat.pow_one]
    omega
  rw [PathToBottom.isLeftDescendant, if_neg (by omega)]
  congr 1
  by_cases h : p.path >>> (p.length - 1) = 0 <;> simp [h, hiff]

/-- **`remove_first_edges`**: the last `length - k` steps of an edge. -/
theorem removeFirstEdges_eq (p : PathToBottom) {k : Nat} (hk : k ≤ p.length) :
    ∃ q : PathToBottom, p.removeFirstEdges k = .ok q ∧ q.length = p.length - k ∧
      q.path = p.path % 2 ^ (p.length - k) := by
  have hpow : (1 <<< (p.length - k)) % 2 ^ 256 = 2 ^ (p.length - k) := by
    rw [Nat.one_shiftLeft]
    exact Nat.mod_eq_of_lt (Nat.pow_lt_pow_right (by decide) (by have := p.length_lt; omega))
  have hmask : p.path &&& (2 ^ (p.length - k) - 1) = p.path % 2 ^ (p.length - k) :=
    Nat.and_two_pow_sub_one_eq_mod _ _
  let q : PathToBottom := ⟨p.path % 2 ^ (p.length - k), p.length - k,
    by have := p.length_lt; omega, Nat.mod_lt _ (Nat.two_pow_pos _)⟩
  refine ⟨q, ?_, rfl, rfl⟩
  rw [PathToBottom.removeFirstEdges, if_neg (by omega), hpow, hmask]
  exact PathToBottom.new_eq_ok rfl rfl

/-- The rest of an edge past its first `k` steps ends where the edge does. -/
theorem bottomValue_removeFirstEdges (p : PathToBottom) {k : Nat} (hk : k ≤ p.length)
    {q : PathToBottom} (hq : q.length = p.length - k) (hqpath : q.path = p.path % 2 ^ (p.length - k))
    (n : Nat) : q.bottomValue (p.bottomValue n >>> (p.length - k)) = p.bottomValue n := by
  rw [shiftRight_bottomValue p n (by omega), show p.length - (p.length - k) = k by omega]
  unfold PathToBottom.bottomValue
  rw [hq, hqpath, Nat.shiftLeft_eq, Nat.shiftLeft_eq, Nat.shiftLeft_eq, Nat.shiftRight_eq_div_pow,
    Nat.add_mul, Nat.mul_assoc, ← Nat.pow_add, show k + (p.length - k) = p.length by omega,
    Nat.add_assoc, Nat.div_add_mod']

/-- **`concat_paths`**: an edge continued by another ends where the second does. -/
theorem bottomValue_concat (p q : PathToBottom) (n : Nat) {pq : PathToBottom}
    (hlength : pq.length = p.length + q.length) (hpath : pq.path = p.path <<< q.length + q.path) :
    pq.bottomValue n = q.bottomValue (p.bottomValue n) := by
  unfold PathToBottom.bottomValue
  rw [hlength, hpath, Nat.shiftLeft_eq, Nat.shiftLeft_eq, Nat.shiftLeft_eq, Nat.shiftLeft_eq,
    Nat.pow_add]
  ring

/-- `SortedLeafIndices::new` of two indices: the two in order. -/
theorem SortedLeafIndices.new_pair (a b : NodeIndex) :
    ∃ x y, SortedLeafIndices.new [a, b] = [x, y] ∧ (x = a ∧ y = b ∨ x = b ∧ y = a) := by
  by_cases h : a ≤ b
  · exact ⟨a, b, by simp [SortedLeafIndices.new, List.insertionSort, h],
      .inl ⟨rfl, rfl⟩⟩
  · have hba : b ≤ a := le_of_lt (not_le.mp h)
    refine ⟨b, a, ?_, .inr ⟨rfl, rfl⟩⟩
    simp [SortedLeafIndices.new, List.insertionSort, List.orderedInsert, h]

end Sequencer.Patricia
