/-
# Sorted leaf indices, and the subtrees that split them

The skeleton of a Patricia-Merkle tree is built over the sorted indices of the modified leaves.
`split_leaves` (`original_skeleton_tree/utils.rs`) cuts them at the leftmost leaf of the right
subtree of a node; `SubTree::get_bottom_subtree` (`original_skeleton_tree/create_tree.rs`) keeps
those under the bottom of an edge and hands back the others, whose leaves were empty before.
Both locate a boundary with `bisect_left` or `bisect_right` (`types.rs`), the position
`<[T]>::binary_search` returns on the sorted slice (`SortedSearch.binarySearch`).

On a sorted slice without duplicates these cuts are exact: `splitLeaves_partitions` and
`getBottomSubtree_partitions`.  A panic, of an assertion, of `u8` arithmetic or of a slice out of
range, is `none`.
-/
import Sequencer.Patricia.NodeIndex
import Sequencer.Lib.SortedSearch
import Sequencer.Lib.Checked

namespace Sequencer.Patricia

open HeapIndex SortedSearch NodeIndex

/-! ## 1. The model -/

/-- `SortedLeafIndices`: a slice of indices that `SortedLeafIndices::new` sorted. -/
abbrev SortedLeafIndices := List NodeIndex

namespace SortedLeafIndices

/-- `subslice`: `&self[leftmost_idx..rightmost_idx]`. -/
def subslice (self : SortedLeafIndices) (leftmostIdx rightmostIdx : Nat) :
    Option SortedLeafIndices :=
  if leftmostIdx ≤ rightmostIdx ∧ rightmostIdx ≤ self.length then
    some ((self.take rightmostIdx).drop leftmostIdx)
  else none

/-- `divide_at_index`: `[&self[..idx], &self[idx..]]`. -/
def divideAtIndex (self : SortedLeafIndices) (idx : Nat) :
    Option (SortedLeafIndices × SortedLeafIndices) :=
  if idx ≤ self.length then some (self.take idx, self.drop idx) else none

/-- `bisect_left`. -/
def bisectLeft (self : SortedLeafIndices) (leftmostValue : NodeIndex) : Nat :=
  match binarySearch self leftmostValue with
  | .ok pos | .error pos => pos

/-- `bisect_right`. -/
def bisectRight (self : SortedLeafIndices) (rightmostValue : NodeIndex) : Nat :=
  match binarySearch self rightmostValue with
  | .error pos => pos
  | .ok pos => pos + 1

end SortedLeafIndices

/-- `SubTreeHeight::new`: asserts the height is at most 251. -/
def SubTreeHeight.new (height : Nat) : Option Nat :=
  if height > actualHeight then none else some height

/-- `get_node_height`. -/
def getNodeHeight (index : NodeIndex) : Option Nat :=
  SubTreeHeight.new (actualHeight + 1 - index.bitLength)

/-- `split_leaves`: the leaves below the left child, and those below the right child.  It
asserts that the first and the last leaf descend from the root. -/
def splitLeaves (rootIndex : NodeIndex) (leafIndices : SortedLeafIndices) :
    Option (SortedLeafIndices × SortedLeafIndices) :=
  if leafIndices.isEmpty then some ([], [])
  else do
    let rootHeight ← getNodeHeight rootIndex
    let assertDescendant := fun (leafIndex : NodeIndex) => leafIndex.shr rootHeight = rootIndex
    let firstLeaf ← leafIndices.head?
    guard (assertDescendant firstLeaf)
    if leafIndices.length > 1 then
      guard (assertDescendant (← leafIndices.getLast?))
    let rightChildIndex ← (← rootIndex.shl 1).add root
    let leftmostIndexInRightSubtree ← rightChildIndex.shl (← (uSub rootHeight 1).toOption)
    let leavesSplit := SortedLeafIndices.bisectLeft leafIndices leftmostIndexInRightSubtree
    SortedLeafIndices.divideAtIndex leafIndices leavesSplit

/-- `SubTree`: the modified leaves below a node, the node, and its hash. -/
structure SubTree (HashOutput : Type) where
  sortedLeafIndices : SortedLeafIndices
  rootIndex : NodeIndex
  rootHash : HashOutput

namespace SubTree

variable {HashOutput : Type}

/-- `get_height`. -/
def getHeight (self : SubTree HashOutput) : Option Nat := do
  SubTreeHeight.new (actualHeight - (← (uSub self.rootIndex.bitLength 1).toOption))

/-- `is_unmodified`. -/
def isUnmodified (self : SubTree HashOutput) : Bool := self.sortedLeafIndices.isEmpty

/-- `is_leaf`. -/
def isLeaf (self : SubTree HashOutput) : Bool := self.rootIndex.isLeaf

/-- `get_bottom_subtree`: the subtree below the bottom of an edge, and the modified indices
that are not below it. -/
def getBottomSubtree (self : SubTree HashOutput) (pathToBottom : PathToBottom)
    (bottomHash : HashOutput) : Option (SubTree HashOutput × List NodeIndex) := do
  let bottomIndex ← pathToBottom.bottomIndex self.rootIndex
  let bottomHeight ←
    (uSub (← self.getHeight) (← SubTreeHeight.new pathToBottom.length)).toOption
  let leftmostInSubtree ← bottomIndex.shl bottomHeight
  let rightmostInSubtree ← (← leftmostInSubtree.sub root).add (← root.shl bottomHeight)
  let leftmostIndex := SortedLeafIndices.bisectLeft self.sortedLeafIndices leftmostInSubtree
  let rightmostIndex := SortedLeafIndices.bisectRight self.sortedLeafIndices rightmostInSubtree
  let bottomLeaves ←
    SortedLeafIndices.subslice self.sortedLeafIndices leftmostIndex rightmostIndex
  -- `indices[..leftmost_index]` chained with `indices[rightmost_index..]`
  guard (leftmostIndex ≤ self.sortedLeafIndices.length ∧
    rightmostIndex ≤ self.sortedLeafIndices.length)
  let previouslyEmptyLeafIndices :=
    self.sortedLeafIndices.take leftmostIndex ++ self.sortedLeafIndices.drop rightmostIndex
  pure (⟨bottomLeaves, bottomIndex, bottomHash⟩, previouslyEmptyLeafIndices)

/-- `get_children_subtrees`. -/
def getChildrenSubtrees (self : SubTree HashOutput) (leftHash rightHash : HashOutput) :
    Option (SubTree HashOutput × SubTree HashOutput) := do
  let (leftLeaves, rightLeaves) ← splitLeaves self.rootIndex self.sortedLeafIndices
  let leftRootIndex ← self.rootIndex.mul ⟨2, by decide⟩
  pure (⟨leftLeaves, leftRootIndex, leftHash⟩, ⟨rightLeaves, ← leftRootIndex.add root, rightHash⟩)

end SubTree

/-! ## 2. The cuts are exact -/

namespace SortedLeafIndices

variable {S : SortedLeafIndices}

/-- On a slice sorted without duplicates, `bisect_left` is the number of indices below the
value. -/
theorem bisectLeft_eq (hsorted : S.Pairwise (· < ·)) (value : NodeIndex) :
    bisectLeft S value = (S.takeWhile (· < value)).length := by
  unfold bisectLeft
  by_cases hmem : value ∈ S
  · rw [binarySearch_of_mem hsorted hmem]
  · rw [binarySearch_of_not_mem hsorted hmem]

/-- ... and `bisect_right` the number up to it. -/
theorem bisectRight_eq (hsorted : S.Pairwise (· < ·)) (value : NodeIndex) :
    bisectRight S value = (S.takeWhile (· ≤ value)).length := by
  unfold bisectRight
  by_cases hmem : value ∈ S
  · rw [binarySearch_of_mem hsorted hmem, length_takeWhile_le_of_mem hsorted hmem]
  · rw [binarySearch_of_not_mem hsorted hmem, length_takeWhile_le_of_not_mem hmem]

end SortedLeafIndices

namespace NodeIndex

/-- The leaves are the indices of bit length 252. -/
theorem isLeaf_iff_size {n : NodeIndex} : n.isLeaf = true ↔ Nat.size n.val = 252 := by
  have hle : Nat.size n.val ≤ 252 := Nat.size_le.mpr n.lt_two_pow
  simp only [isLeaf, n.le_max, decide_true, Bool.and_true, decide_eq_true_eq, le_iff_val_le,
    firstLeaf]
  rw [← Nat.lt_size]
  omega

theorem size_pos_of_root_le {n : NodeIndex} (hn : root ≤ n) : 0 < Nat.size n.val :=
  Nat.size_pos.mpr hn

theorem size_le (n : NodeIndex) : Nat.size n.val ≤ 252 := Nat.size_le.mpr n.lt_two_pow

theorem size_lt_of_isLeaf_eq_false {n : NodeIndex} (h : n.isLeaf = false) :
    Nat.size n.val < 252 := by
  have hne : Nat.size n.val ≠ 252 := fun heq => by
    rw [isLeaf_iff_size.mpr heq] at h
    cases h
  have := size_le n
  omega

theorem root_le_of_isLeaf {n : NodeIndex} (h : n.isLeaf = true) : root ≤ n :=
  Nat.size_pos.mp (by rw [isLeaf_iff_size.mp h]; decide)

end NodeIndex

/-- The height of a node: 252 less its bit length. -/
theorem getNodeHeight_eq {r : NodeIndex} (hr : root ≤ r) :
    getNodeHeight r = some (252 - Nat.size r.val) := by
  have := size_pos_of_root_le hr
  unfold getNodeHeight SubTreeHeight.new
  rw [bitLength_eq_size, if_neg (by unfold actualHeight; omega)]
  rfl

/-- A leaf below `r` shifts up to `r` by the height of `r`. -/
theorem shr_height_of_isAncestor {r i : NodeIndex} (hi : i.isLeaf = true)
    (h : IsAncestor r.val i.val) : i.shr (252 - Nat.size r.val) = r := by
  ext
  rw [shr_val, ← isLeaf_iff_size.mp hi]
  exact h.2

/-- The height of a subtree is the height of its root. -/
theorem SubTree.getHeight_eq {HashOutput : Type} {st : SubTree HashOutput}
    (hroot : root ≤ st.rootIndex) : st.getHeight = some (252 - Nat.size st.rootIndex.val) := by
  have hsize_pos := size_pos_of_root_le hroot
  have hsize_le := size_le st.rootIndex
  have hsub : uSub st.rootIndex.bitLength 1 = .ok (Nat.size st.rootIndex.val - 1) :=
    uSub_eq_ok.mpr ⟨by rw [bitLength_eq_size], by rw [bitLength_eq_size]; omega⟩
  simp only [SubTree.getHeight, hsub, Except.toOption, Option.bind_eq_bind, Option.bind_some,
    SubTreeHeight.new]
  rw [if_neg (by unfold actualHeight; omega)]
  unfold actualHeight
  congr 1
  omega

/-! ## 3. Splitting at a node, and at the bottom of an edge -/

/-- **`split_leaves` partitions the leaves**: below a node `r` that is not a leaf, a sorted slice of
leaves under `r` is cut into those under its left child `2 r` and those under its right child
`2 r + 1`, in order. -/
theorem splitLeaves_partitions (r : NodeIndex) (S : SortedLeafIndices) (hr : root ≤ r)
    (hleaf : r.isLeaf = false) (hsorted : S.Pairwise (· < ·))
    (hS : ∀ i ∈ S, i.isLeaf = true ∧ IsAncestor r.val i.val) :
    ∃ L R, splitLeaves r S = some (L, R) ∧ L ++ R = S ∧
      (∀ i ∈ L, IsAncestor (2 * r.val) i.val) ∧ ∀ i ∈ R, IsAncestor (2 * r.val + 1) i.val := by
  have hsize_pos := size_pos_of_root_le hr
  have hsize_lt := size_lt_of_isLeaf_eq_false hleaf
  set k := 251 - Nat.size r.val with hk
  -- the leftmost leaf under the right child is `(2 r + 1) << k`, and every index on the way fits
  have hr2 : 2 * r.val + 1 < 2 ^ (Nat.size r.val + 1) := by
    have := Nat.lt_size_self r.val
    rw [Nat.pow_succ]
    omega
  have hm : (2 * r.val + 1) <<< k < 2 ^ 252 := by
    have := shiftLeft_add_lt_two_pow (k := k) hr2 (Nat.two_pow_pos k)
    rw [show Nat.size r.val + 1 + k = 252 by omega] at this
    omega
  have hc : 2 * r.val + 1 < 2 ^ 252 :=
    lt_of_lt_of_le hr2 (Nat.pow_le_pow_right (by decide) (by omega))
  let m : NodeIndex := ⟨(2 * r.val + 1) <<< k, le_max_of_lt hm⟩
  have hleft : r.shl 1 = some ⟨2 * r.val, le_max_of_lt (by omega)⟩ :=
    shl_eq_some (by show 2 * r.val = r.val <<< 1; rw [Nat.shiftLeft_eq, Nat.pow_one, Nat.mul_comm])
  have hright : NodeIndex.add ⟨2 * r.val, le_max_of_lt (by omega)⟩ root =
      some ⟨2 * r.val + 1, le_max_of_lt hc⟩ := add_eq_some rfl
  have hleftmost : NodeIndex.shl ⟨2 * r.val + 1, le_max_of_lt hc⟩ k = some m := shl_eq_some rfl
  have hheight : uSub (252 - Nat.size r.val) 1 = .ok k := uSub_eq_ok.mpr ⟨by omega, by omega⟩
  -- both assertions hold, so the slice is divided where `m` would go
  have hdesc : ∀ i ∈ S, i.shr (252 - Nat.size r.val) = r := fun i hi =>
    shr_height_of_isAncestor (hS i hi).1 (hS i hi).2
  have hsplit : splitLeaves r S = S.divideAtIndex (S.bisectLeft m) := by
    cases S with
    | nil => rfl
    | cons first rest =>
      have hlast := hdesc _ ((first :: rest).getLast_mem (List.cons_ne_nil _ _))
      simp only [splitLeaves, List.isEmpty_cons, getNodeHeight_eq hr, List.head?_cons,
        List.getLast?_eq_some_getLast (List.cons_ne_nil first rest), hdesc first List.mem_cons_self,
        hlast, hleft, hright, hleftmost, hheight, Option.bind_eq_bind, Option.bind_some,
        Bool.false_eq_true, if_false, guard, if_true, Except.toOption, Option.pure_def, ite_self]
  -- below `m` are the leaves of the left subtree, from `m` on those of the right one
  have hdown : ∀ x y : NodeIndex, x < y → decide (y < m) = true → decide (x < m) = true :=
    fun x y hxy hy => decide_eq_true (lt_trans hxy (of_decide_eq_true hy))
  obtain ⟨htake, hdrop⟩ := Pairwise.takeWhile_eq_filter hsorted hdown
  have hshift : ∀ i ∈ S, i.val >>> (k + 1) = r.val := fun i hi => by
    have := congrArg NodeIndex.val (hdesc i hi)
    rw [shr_val, show 252 - Nat.size r.val = k + 1 by omega] at this
    exact this
  have hk_le : ∀ i ∈ S, k ≤ Nat.size i.val := fun i hi => by
    rw [isLeaf_iff_size.mp (hS i hi).1]
    omega
  refine ⟨S.takeWhile (· < m), S.dropWhile (· < m), ?_, List.takeWhile_append_dropWhile, ?_, ?_⟩
  · rw [hsplit, SortedLeafIndices.bisectLeft_eq hsorted, SortedLeafIndices.divideAtIndex,
      if_pos (List.takeWhile_sublist _).length_le, take_length_takeWhile, drop_length_takeWhile]
  · intro i hi
    rw [htake, List.mem_filter] at hi
    have hlt : i.val < (2 * r.val + 1) <<< k := of_decide_eq_true hi.2
    have heq : i.val >>> k = 2 * r.val := (shiftRight_eq_two_mul_iff (hshift i hi.1)).mpr hlt
    exact heq ▸ isAncestor_shiftRight i.val (hk_le i hi.1)
  · intro i hi
    rw [hdrop, List.mem_filter] at hi
    have hle : (2 * r.val + 1) <<< k ≤ i.val := by simpa [lt_iff_val_lt] using hi.2
    have heq : i.val >>> k = 2 * r.val + 1 :=
      (shiftRight_eq_two_mul_add_one_iff (hshift i hi.1)).mpr hle
    exact heq ▸ isAncestor_shiftRight i.val (hk_le i hi.1)

/-- **`get_bottom_subtree` partitions the leaves**: for an edge that ends inside the tree below the
root of a subtree, of its sorted leaves those under the bottom of the edge go down with it, and
the others come back as the indices whose leaves were empty. -/
theorem getBottomSubtree_partitions {HashOutput : Type} (st : SubTree HashOutput)
    (pathToBottom : PathToBottom) (bottomHash : HashOutput) (hroot : root ≤ st.rootIndex)
    (hlength : Nat.size st.rootIndex.val + pathToBottom.length ≤ 252)
    (hsorted : st.sortedLeafIndices.Pairwise (· < ·))
    (hleaves : ∀ i ∈ st.sortedLeafIndices, i.isLeaf = true) :
    ∃ bottom, pathToBottom.bottomIndex st.rootIndex = some bottom ∧
      st.getBottomSubtree pathToBottom bottomHash =
        some (⟨st.sortedLeafIndices.filter (fun i => decide (IsAncestor bottom.val i.val)), bottom,
          bottomHash⟩, st.sortedLeafIndices.filter (fun i => !decide (IsAncestor bottom.val i.val))) := by
  have hheight := SubTree.getHeight_eq hroot
  obtain ⟨S, n, _⟩ := st
  obtain ⟨path, len, hlen256, hpath⟩ := pathToBottom
  dsimp only at hroot hlength hsorted hleaves hheight ⊢
  have hsize_pos := size_pos_of_root_le hroot
  obtain ⟨bh, hbh⟩ : ∃ bh, bh = 252 - Nat.size n.val - len := ⟨_, rfl⟩
  -- the bottom, its leftmost and its rightmost leaf
  have hbottom_lt : n.val <<< len + path < 2 ^ (Nat.size n.val + len) :=
    shiftLeft_add_lt_two_pow (Nat.lt_size_self _) hpath
  have hbottom_le : n.val <<< len + path ≤ NodeIndex.max :=
    le_max_of_lt (lt_of_lt_of_le hbottom_lt (Nat.pow_le_pow_right (by decide) hlength))
  let bottom : NodeIndex := ⟨_, hbottom_le⟩
  have hbottomIndex : PathToBottom.computeBottomIndex n ⟨path, len, hlen256, hpath⟩ = some bottom :=
    PathToBottom.computeBottomIndex_of_le hbottom_le
  refine ⟨bottom, hbottomIndex, ?_⟩
  have hbottom_pos : 0 < bottom.val := by
    have : n.val ≤ n.val <<< len := by
      rw [Nat.shiftLeft_eq]
      exact Nat.le_mul_of_pos_right _ (Nat.two_pow_pos _)
    have : 0 < n.val := hroot
    show 0 < n.val <<< len + path
    omega
  have hrange : (bottom.val + 1) * 2 ^ bh ≤ 2 ^ 252 := by
    rw [show 252 = (Nat.size n.val + len) + bh by omega, Nat.pow_add]
    exact Nat.mul_le_mul_right _ hbottom_lt
  have hpow : 2 ^ bh ≤ 2 ^ 251 := Nat.pow_le_pow_right (by decide) (by omega)
  have hpow_pos := Nat.two_pow_pos bh
  have hlo_pos : 0 < bottom.val * 2 ^ bh := Nat.mul_pos hbottom_pos hpow_pos
  rw [Nat.add_mul, Nat.one_mul] at hrange
  let lo : NodeIndex := ⟨bottom.val * 2 ^ bh, le_max_of_lt (by omega)⟩
  let hi : NodeIndex := ⟨bottom.val * 2 ^ bh - 1 + 2 ^ bh, le_max_of_lt (by omega)⟩
  have hlo : bottom.shl bh = some lo := shl_eq_some (Nat.shiftLeft_eq _ _).symm
  have hsub : lo.sub root = some ⟨bottom.val * 2 ^ bh - 1, (Nat.sub_le _ _).trans lo.le_max⟩ :=
    sub_of_le hlo_pos
  have hone : root.shl bh = some ⟨2 ^ bh, le_max_of_lt (by omega)⟩ :=
    shl_eq_some (Nat.one_shiftLeft _).symm
  have hhi : NodeIndex.add ⟨bottom.val * 2 ^ bh - 1, (Nat.sub_le _ _).trans lo.le_max⟩
      ⟨2 ^ bh, le_max_of_lt (by omega)⟩ = some hi := add_eq_some rfl
  have hlen_new : SubTreeHeight.new len = some len := if_neg (by unfold actualHeight; omega)
  have husub : uSub (252 - Nat.size n.val) len = .ok bh := uSub_eq_ok.mpr ⟨by omega, by omega⟩
  -- the window of `S` between them
  have hlohi : lo ≤ hi := by
    show bottom.val * 2 ^ bh ≤ bottom.val * 2 ^ bh - 1 + 2 ^ bh
    omega
  have hidx : (S.takeWhile (· < lo)).length ≤ (S.takeWhile (· ≤ hi)).length :=
    length_takeWhile_le_of_imp (fun x hx => decide_eq_true
      (le_of_lt (lt_of_lt_of_le (of_decide_eq_true hx) hlohi))) S
  have hlength_le : (S.takeWhile (· ≤ hi)).length ≤ S.length := (List.takeWhile_sublist _).length_le
  simp only [SubTree.getBottomSubtree, PathToBottom.bottomIndex,
    hbottomIndex, hheight, hlen_new, husub, hlo, hsub, hone, hhi,
    SortedLeafIndices.bisectLeft_eq hsorted, SortedLeafIndices.bisectRight_eq hsorted,
    SortedLeafIndices.subslice, if_pos (And.intro hidx hlength_le), Except.toOption,
    Option.bind_eq_bind, Option.bind_some, Option.pure_def, guard]
  rw [if_pos ⟨hidx.trans hlength_le, hlength_le⟩, Option.bind_some, drop_take_window hsorted hlohi,
    take_append_drop_window hsorted hlohi]
  -- a leaf is in the window exactly when it is below the bottom
  have hsize_bottom : Nat.size bottom.val = Nat.size n.val + len :=
    size_shiftLeft_add (Nat.pos_iff_ne_zero.mp hroot) len hpath
  have hwindow : ∀ x ∈ S, (lo ≤ x ∧ x ≤ hi) ↔ IsAncestor bottom.val x.val := fun x hx => by
    have hk : Nat.size x.val = Nat.size bottom.val + bh := by
      rw [isLeaf_iff_size.mp (hleaves x hx), hsize_bottom]
      omega
    rw [isAncestor_iff_le_and_lt hk, le_iff_val_le, le_iff_val_le]
    show bottom.val * 2 ^ bh ≤ x.val ∧ x.val ≤ bottom.val * 2 ^ bh - 1 + 2 ^ bh ↔ _
    omega
  have hbottomLeaves : S.filter (fun x => decide (lo ≤ x ∧ x ≤ hi)) =
      S.filter (fun i => decide (IsAncestor bottom.val i.val)) :=
    List.filter_congr fun x hx => decide_eq_decide.mpr (hwindow x hx)
  have hpreviouslyEmpty : S.filter (fun x => decide ¬(lo ≤ x ∧ x ≤ hi)) =
      S.filter (fun i => !decide (IsAncestor bottom.val i.val)) :=
    List.filter_congr fun x hx => by rw [decide_not, decide_eq_decide.mpr (hwindow x hx)]
  rw [hbottomLeaves, hpreviouslyEmpty]

/-- `get_children_subtrees` hands the leaves below a node that is not a leaf to its two children,
`2 n` and `2 n + 1`. -/
theorem getChildrenSubtrees_partitions {HashOutput : Type} (st : SubTree HashOutput)
    (leftHash rightHash : HashOutput) (hroot : root ≤ st.rootIndex)
    (hleaf : st.rootIndex.isLeaf = false) (hsorted : st.sortedLeafIndices.Pairwise (· < ·))
    (hS : ∀ i ∈ st.sortedLeafIndices, i.isLeaf = true ∧ IsAncestor st.rootIndex.val i.val) :
    ∃ left right, st.getChildrenSubtrees leftHash rightHash = some (left, right) ∧
      left.rootIndex.val = 2 * st.rootIndex.val ∧ right.rootIndex.val = 2 * st.rootIndex.val + 1 ∧
      left.rootHash = leftHash ∧ right.rootHash = rightHash ∧
      left.sortedLeafIndices ++ right.sortedLeafIndices = st.sortedLeafIndices ∧
      (∀ i ∈ left.sortedLeafIndices, IsAncestor (2 * st.rootIndex.val) i.val) ∧
      ∀ i ∈ right.sortedLeafIndices, IsAncestor (2 * st.rootIndex.val + 1) i.val := by
  obtain ⟨L, R, hsplit, happend, hL, hR⟩ := splitLeaves_partitions _ _ hroot hleaf hsorted hS
  have hsize_lt := size_lt_of_isLeaf_eq_false hleaf
  -- both children are in the tree, as the node is above the last level
  have hc : 2 * st.rootIndex.val + 1 < 2 ^ 252 := by
    have := Nat.lt_size_self st.rootIndex.val
    have : 2 ^ Nat.size st.rootIndex.val ≤ 2 ^ 251 := Nat.pow_le_pow_right (by decide) (by omega)
    omega
  let leftRootIndex : NodeIndex := ⟨2 * st.rootIndex.val, le_max_of_lt (by omega)⟩
  have hmul : st.rootIndex.mul ⟨2, by decide⟩ = some leftRootIndex :=
    new_eq_some.mpr (Nat.mul_comm _ _)
  have hadd : leftRootIndex.add root = some ⟨2 * st.rootIndex.val + 1, le_max_of_lt hc⟩ :=
    add_eq_some rfl
  refine ⟨⟨L, leftRootIndex, leftHash⟩, ⟨R, ⟨2 * st.rootIndex.val + 1, le_max_of_lt hc⟩, rightHash⟩,
    ?_, rfl, rfl, rfl, rfl, happend, hL, hR⟩
  simp only [SubTree.getChildrenSubtrees, hsplit, hmul, hadd, Option.bind_eq_bind, Option.bind_some,
    Option.pure_def]

/-- **Leaf partitioning is exact**: `split_leaves` cuts the sorted leaves under a node that is not
a leaf into those under its left child and those under its right child, and `get_bottom_subtree`
sends down an edge exactly the leaves under its bottom, returning the others. -/
theorem leafPartition_exact {HashOutput : Type} :
    (∀ (r : NodeIndex) (S : SortedLeafIndices), root ≤ r → r.isLeaf = false →
      S.Pairwise (· < ·) → (∀ i ∈ S, i.isLeaf = true ∧ IsAncestor r.val i.val) →
      ∃ L R, splitLeaves r S = some (L, R) ∧ L ++ R = S ∧
        (∀ i ∈ L, IsAncestor (2 * r.val) i.val) ∧ ∀ i ∈ R, IsAncestor (2 * r.val + 1) i.val) ∧
    (∀ (st : SubTree HashOutput) (pathToBottom : PathToBottom) (bottomHash : HashOutput),
      root ≤ st.rootIndex → Nat.size st.rootIndex.val + pathToBottom.length ≤ 252 →
      st.sortedLeafIndices.Pairwise (· < ·) → (∀ i ∈ st.sortedLeafIndices, i.isLeaf = true) →
      ∃ bottom, pathToBottom.bottomIndex st.rootIndex = some bottom ∧
        st.getBottomSubtree pathToBottom bottomHash =
          some (⟨st.sortedLeafIndices.filter (fun i => decide (IsAncestor bottom.val i.val)),
              bottom, bottomHash⟩,
            st.sortedLeafIndices.filter (fun i => !decide (IsAncestor bottom.val i.val)))) :=
  ⟨splitLeaves_partitions, getBottomSubtree_partitions⟩

/-- The first and the last leaf: split at the root into one leaf each side, and down the right
edge from the root the last leaf stays below the bottom `3` while the first was empty. -/
theorem leafPartition_exact_first_last :
    (∃ L R, splitLeaves root [firstLeaf, ⟨NodeIndex.max, le_rfl⟩] = some (L, R) ∧
      L ++ R = [firstLeaf, ⟨NodeIndex.max, le_rfl⟩] ∧
      (∀ i ∈ L, IsAncestor (2 * root.val) i.val) ∧ ∀ i ∈ R, IsAncestor (2 * root.val + 1) i.val) ∧
    ∃ bottom, PathToBottom.rightChild.bottomIndex root = some bottom ∧
      SubTree.getBottomSubtree ⟨[firstLeaf, ⟨NodeIndex.max, le_rfl⟩], root, ()⟩
          PathToBottom.rightChild () =
        some (⟨[firstLeaf, ⟨NodeIndex.max, le_rfl⟩].filter
            (fun i => decide (IsAncestor bottom.val i.val)), bottom, ()⟩,
          [firstLeaf, ⟨NodeIndex.max, le_rfl⟩].filter
            (fun i => !decide (IsAncestor bottom.val i.val))) := by
  have hleaves : ∀ i ∈ [firstLeaf, ⟨NodeIndex.max, le_rfl⟩], i.isLeaf = true := by decide
  have hS : ∀ i ∈ [firstLeaf, ⟨NodeIndex.max, le_rfl⟩],
      i.isLeaf = true ∧ IsAncestor root.val i.val := fun i hi =>
    ⟨hleaves i hi, isAncestor_one (Nat.pos_iff_ne_zero.mp (root_le_of_isLeaf (hleaves i hi)))⟩
  have hlength : Nat.size root.val + PathToBottom.rightChild.length ≤ 252 := by
    rw [show root.val = 1 from rfl, Nat.size_one]
    decide
  exact ⟨(@leafPartition_exact Unit).1 _ _ le_rfl (by decide) (by decide) hS,
    (@leafPartition_exact Unit).2 ⟨_, root, ()⟩ _ () le_rfl hlength (by decide) hleaves⟩

end Sequencer.Patricia
