/-
# The Patricia root of a list of values (`starknet_api`: `crypto/patricia_hash.rs`)

`calculate_root` hashes the values `v_0 .. v_(n-1)`, keyed by `0 .. n - 1` as 64-bit paths, into
the root of a compressed binary Patricia trie.  `get_hash` recurses over `SubTree`s, runs of
leaves with a common ancestor at some height.  `get_splitting` decides how a subtree splits with
a binary search for the first key with a `1` at its height, and, when there is none, by counting
the zeros of the LAST key only; `get_binary_hash` assumes both sides of a split have keys.  These
shortcuts are sound because the keys of every subtree the recursion reaches form an aligned range
(`BinaryTrie.Aligned`), which `getHash_aligned` carries through the recursion.

`calculateRoot_is_canonical_root`: for `1 ≤ n ≤ 2 ^ 64` values the root is the hash of the
canonical trie of the keys `0 .. n - 1` (`BinaryTrie.IsCanonical`), and no panic is reached; the
empty list hashes to `0`.

The model: a felt is any `AddMonoidWithOne` and the hash `H` a parameter; a `BitPath` is a
`BitVec 64` indexed from its most significant bit, as `BitArray<[u8; 8], Msb0>` over big-endian
bytes is; `<[T]>::partition_point` is its contract on a partitioned slice, the length of the run
of elements that satisfy the predicate (every slice it is called on here is partitioned by
`Aligned.bit_eq`).  A panic is `none`.  The recursion of `get_hash` is bounded by fuel: every call
goes at least one level deeper, so `TREE_HEIGHT + 1` levels are enough, and running out would
also be `none`.
-/
import Sequencer.Lib.BinaryTrie

namespace Sequencer.Crypto

open BinaryTrie

variable {F : Type}

/-! ## 1. `patricia_hash.rs` -/

/-- `TREE_HEIGHT`. -/
def treeHeight : Nat := 64

/-- `BitPath`: 64 bits, indexed from the most significant. -/
abbrev BitPath := BitVec 64

/-- `Entry`. -/
structure Entry (F : Type) where
  key : BitPath
  value : F

/-- `SubTree`: a run of leaves with a common ancestor at `height` and no other leaves below it. -/
structure SubTree (F : Type) where
  leaves : List (Entry F)
  height : Nat

/-- `SubTreeSplitting`. -/
inductive SubTreeSplitting where
  /-- the number of `0` bits all the keys start with -/
  | commonZerosPrefix (nZeros : Nat)
  /-- the index of the first key that starts with a `1` bit -/
  | partitionPoint (index : Nat)
  deriving DecidableEq, Repr

/-- `<[T]>::partition_point`, on a slice partitioned by `pred`. -/
def partitionPoint {α : Type} (slice : List α) (pred : α → Bool) : Nat :=
  (slice.takeWhile pred).length

/-- The `while` loop of `get_splitting`: the zeros of the last key from `height` on, counted on
from `nZeros`.  The fuel is `TREE_HEIGHT - height`, the rounds the loop's own bound allows. -/
def zerosLoop (leaves : List (Entry F)) : Nat → Nat → Nat → Option Nat
  | 0, _, nZeros => some nZeros
  | fuel + 1, height, nZeros =>
    if height < treeHeight then
      match leaves.getLast? with
      -- `expect("sub tree should not be empty")`
      | none => none
      | some last =>
        if last.key.getMsbD height then some nZeros
        else zerosLoop leaves fuel (height + 1) (nZeros + 1)
    else some nZeros

/-- `get_splitting`. -/
def getSplitting (subTree : SubTree F) : Option SubTreeSplitting :=
  let height := subTree.height
  let firstOneBitIndex := partitionPoint subTree.leaves fun entry => !entry.key.getMsbD height
  if firstOneBitIndex < subTree.leaves.length then some (.partitionPoint firstOneBitIndex)
  else
    -- `height += 1; let mut n_zeros = 1;`, then the loop
    (zerosLoop subTree.leaves (treeHeight - (height + 1)) (height + 1) 1).map .commonZerosPrefix

variable [AddMonoidWithOne F] (H : F → F → F)

/-- `get_edge_hash`, over the `get_hash` of the levels below. -/
def getEdgeHash (getHash : SubTree F → Option F) (subTree : SubTree F) (nZeros : Nat) :
    Option F := do
  let childHash ← getHash ⟨subTree.leaves, subTree.height + nZeros⟩
  pure (H childHash 0 + (nZeros : F))

/-- `get_binary_hash`, over the `get_hash` of the levels below. -/
def getBinaryHash (getHash : SubTree F → Option F) (subTree : SubTree F) (partitionPoint : Nat) :
    Option F := do
  let zeroHash ← getHash ⟨subTree.leaves.take partitionPoint, subTree.height + 1⟩
  let oneHash ← getHash ⟨subTree.leaves.drop partitionPoint, subTree.height + 1⟩
  pure (H zeroHash oneHash)

/-- `get_hash`, with `fuel` levels of recursion left. -/
def getHash : Nat → SubTree F → Option F
  | 0, _ => none
  | fuel + 1, subTree =>
    if subTree.height = treeHeight then
      -- `first().expect("a leaf should not be empty")`
      subTree.leaves.head?.map Entry.value
    else
      match getSplitting subTree with
      | none => none
      | some (.commonZerosPrefix nZeros) => getEdgeHash H (getHash fuel) subTree nZeros
      | some (.partitionPoint partitionPoint) =>
        getBinaryHash H (getHash fuel) subTree partitionPoint

/-- `calculate_root`: the values keyed by `0, 1, ...`. -/
def calculateRoot (values : List F) : Option F :=
  if values.isEmpty then some 0
  else
    let leaves := values.zipIdx.map fun (felt, idx) => (⟨BitVec.ofNat 64 idx, felt⟩ : Entry F)
    getHash H (treeHeight + 1) ⟨leaves, 0⟩

/-! ## 2. Subtrees over aligned ranges of keys -/

/-- The bits of a key `calculate_root` builds are those `BinaryTrie.bit` reads. -/
theorem getMsbD_ofNat (k : Nat) {i : Nat} (hi : i < 64) :
    (BitVec.ofNat 64 k).getMsbD i = bit 64 k i := by
  rw [BitVec.getMsbD_eq_getLsbD, BitVec.getLsbD_ofNat, bit]
  simp [hi, show 63 - i < 64 by omega]

/-- The leaves of the keys `[a, b)`. -/
def rangeLeaves (val : Nat → F) (a b : Nat) : List (Entry F) :=
  (List.range' a (b - a)).map fun k => ⟨BitVec.ofNat 64 k, val k⟩

section Range

variable {H} (val : Nat → F)

omit [AddMonoidWithOne F] in
@[simp] theorem length_rangeLeaves (a b : Nat) : (rangeLeaves val a b).length = b - a := by
  simp [rangeLeaves]

omit [AddMonoidWithOne F] in
theorem rangeLeaves_take_drop {a m b : Nat} (ham : a ≤ m) (hmb : m ≤ b) :
    (rangeLeaves val a b).take (m - a) = rangeLeaves val a m ∧
      (rangeLeaves val a b).drop (m - a) = rangeLeaves val m b := by
  constructor
  · rw [rangeLeaves, ← List.map_take, List.take_range'_of_length_ge (by omega), rangeLeaves]
  · rw [rangeLeaves, ← List.map_drop, List.drop_range', rangeLeaves]
    congr 2
    · omega
    · omega

omit [AddMonoidWithOne F] in
theorem getLast?_rangeLeaves {a b : Nat} (hab : a < b) :
    (rangeLeaves val a b).getLast? = some ⟨BitVec.ofNat 64 (b - 1), val (b - 1)⟩ := by
  rw [rangeLeaves, List.getLast?_map, List.getLast?_range', if_neg (by omega)]
  simp only [Option.map_some]
  congr 3
  · omega
  · congr 1
    omega

omit [AddMonoidWithOne F] in
/-- A run of `takeWhile` over consecutive keys, below a threshold `m`. -/
theorem length_takeWhile_range' {p : Nat → Bool} {m : Nat} :
    ∀ (a n : Nat), (∀ k, a ≤ k → k < a + n → p k = decide (k < m)) →
      ((List.range' a n).takeWhile p).length = min n (m - a) := by
  intro a n
  induction n generalizing a with
  | zero => simp
  | succ n ih =>
    intro hp
    rw [List.range'_succ, List.takeWhile_cons, hp a le_rfl (by omega)]
    by_cases ham : a < m
    · rw [decide_eq_true ham, if_pos rfl, List.length_cons,
        ih (a + 1) fun k h₁ h₂ => hp k (by omega) (by omega)]
      omega
    · rw [decide_eq_false ham]
      simp only [Bool.false_eq_true, if_false, List.length_nil]
      omega

omit [AddMonoidWithOne F] in
/-- The binary search finds the split of an aligned range, or its end. -/
theorem partitionPoint_rangeLeaves {h a b : Nat} (ha : Aligned 64 h a b) (hd : h < 64) :
    partitionPoint (rangeLeaves val a b) (fun entry => !entry.key.getMsbD h) =
      min (b - a) (2 ^ (64 - h - 1)) := by
  rw [partitionPoint, rangeLeaves, List.takeWhile_map, List.length_map,
    length_takeWhile_range' a (b - a) fun k h₁ h₂ => ?_, Nat.add_sub_cancel_left]
  have hk : k ∈ Finset.Ico a b := Finset.mem_Ico.mpr ⟨h₁, by omega⟩
  simp only [Function.comp_apply, getMsbD_ofNat k hd, ha.bit_eq hd hk]
  by_cases hlt : k < a + 2 ^ (64 - h - 1)
  · rw [decide_eq_false (by omega), decide_eq_true hlt]
    rfl
  · rw [decide_eq_true (by omega), decide_eq_false hlt]
    rfl

end Range

omit [AddMonoidWithOne F] in
/-- **The loop.**  By induction on the rounds left: it counts the zeros of the last key from
`height` on, up to its first `1` or to the bottom of the tree. -/
theorem zerosLoop_spec {leaves : List (Entry F)} {last : Entry F}
    (hlast : leaves.getLast? = some last) :
    ∀ fuel height nZeros, height + fuel = treeHeight →
      ∃ L, zerosLoop leaves fuel height nZeros = some (nZeros + L) ∧ height + L ≤ treeHeight ∧
        (∀ i < L, last.key.getMsbD (height + i) = false) ∧
        (height + L < treeHeight → last.key.getMsbD (height + L) = true) := by
  intro fuel
  induction fuel with
  | zero =>
    intro height nZeros hfuel
    exact ⟨0, rfl, by omega, fun _ h => absurd h (Nat.not_lt_zero _), fun h => by omega⟩
  | succ fuel ih =>
    intro height nZeros hfuel
    have hh : height < treeHeight := by omega
    by_cases hbit : last.key.getMsbD height = true
    · -- the loop stops at a `1`
      refine ⟨0, ?_, by omega, fun _ h => absurd h (Nat.not_lt_zero _), fun _ => hbit⟩
      simp [zerosLoop, hh, hlast, hbit]
    · -- a `0`: one more zero, and on to the next bit
      obtain ⟨L, hrun, hle, hzeros, hone⟩ := ih (height + 1) (nZeros + 1) (by omega)
      refine ⟨L + 1, ?_, by omega, fun i hi => ?_, fun hlt => ?_⟩
      · simp only [zerosLoop, if_pos hh, hlast, Bool.not_eq_true] at hbit ⊢
        rw [if_neg (by simp [hbit]), hrun]
        congr 1
        omega
      · rcases i with _ | i
        · simpa using hbit
        · have := hzeros i (by omega)
          rwa [show height + 1 + i = height + (i + 1) by omega] at this
      · have := hone (by omega)
        rwa [show height + 1 + L = height + (L + 1) by omega] at this

section Splitting

variable (val : Nat → F)

omit [AddMonoidWithOne F] in
/-- An aligned range with keys on both sides of the next bit splits there. -/
theorem getSplitting_of_split {h a b : Nat} (ha : Aligned 64 h a b) (hd : h < 64)
    (hsplit : a + 2 ^ (64 - h - 1) < b) :
    getSplitting ⟨rangeLeaves val a b, h⟩ = some (.partitionPoint (2 ^ (64 - h - 1))) := by
  have hpp := partitionPoint_rangeLeaves val ha hd
  rw [min_eq_right (by omega)] at hpp
  simp only [getSplitting]
  rw [hpp, if_pos (by rw [length_rangeLeaves]; omega)]

omit [AddMonoidWithOne F] in
/-- An aligned range with all keys on the `0` side of the next bit starts an edge as long as the
zeros of its last key. -/
theorem getSplitting_of_not_split {h a b : Nat} (ha : Aligned 64 h a b) (hd : h < 64)
    (hsplit : b ≤ a + 2 ^ (64 - h - 1)) :
    ∃ L, getSplitting ⟨rangeLeaves val a b, h⟩ = some (.commonZerosPrefix (L + 1)) ∧
      h + (L + 1) ≤ 64 ∧ (∀ i < L + 1, bit 64 (b - 1) (h + i) = false) ∧
      (h + (L + 1) < 64 → bit 64 (b - 1) (h + (L + 1)) = true) := by
  have hpp := partitionPoint_rangeLeaves val ha hd
  rw [min_eq_left (by omega)] at hpp
  have hlast := getLast?_rangeLeaves val ha.lt
  obtain ⟨L, hrun, hle, hzeros, hone⟩ :=
    zerosLoop_spec hlast (treeHeight - (h + 1)) (h + 1) 1 (by simp only [treeHeight]; omega)
  have hb : b - 1 ∈ Finset.Ico a b := Finset.mem_Ico.mpr ⟨by have := ha.lt; omega, by
    have := ha.lt; omega⟩
  refine ⟨L, ?_, by simp only [treeHeight] at hle; omega, fun i hi => ?_, fun hlt => ?_⟩
  · simp only [getSplitting]
    rw [hpp, if_neg (by rw [length_rangeLeaves]; omega), hrun, Nat.add_comm 1 L]
    rfl
  · rcases i with _ | i
    · -- the bit at `h` is `0`: the last key is below the split
      rw [Nat.add_zero, ha.bit_eq hd hb, decide_eq_false_iff_not]
      have := ha.lt
      omega
    · have := hzeros i (by omega)
      rwa [getMsbD_ofNat _ (by simp only [treeHeight] at hle; omega),
        show h + 1 + i = h + (i + 1) by omega] at this
  · have := hone (by simp only [treeHeight]; omega)
    rwa [getMsbD_ofNat _ (by omega), show h + 1 + L = h + (L + 1) by omega] at this

end Splitting

/-- **`get_hash` over an aligned range.**  By induction on the fuel, one level of the tree at a
time: at the bottom the range is one leaf; a range with keys on both sides of the next bit is a
binary node over two aligned halves; any other range is an edge of zeros over the same range,
aligned deeper. -/
theorem getHash_aligned (val : Nat → F) :
    ∀ fuel h a b, Aligned 64 h a b → h ≤ 64 → 64 - h < fuel →
      ∃ t, IsCanonical 64 val (Finset.Ico a b) h t ∧
        getHash H fuel ⟨rangeLeaves val a b, h⟩ = some (t.hash H) := by
  intro fuel
  induction fuel with
  | zero => intro h a b _ _ hfuel; omega
  | succ fuel ih =>
    intro h a b ha hh hfuel
    by_cases hd : h = 64
    · -- the bottom: one leaf
      subst hd
      have hS := ha.eq_singleton
      have hb : b = a + 1 := by
        have := ha.le
        have := ha.lt
        simp only [Nat.sub_self, Nat.pow_zero] at *
        omega
      subst hb
      refine ⟨.leaf (val a), .leaf hS, ?_⟩
      simp [getHash, treeHeight, rangeLeaves, Trie.hash]
    have hd' : h < 64 := by omega
    have hne : ¬ (⟨rangeLeaves val a b, h⟩ : SubTree F).height = treeHeight := hd
    by_cases hsplit : a + 2 ^ (64 - h - 1) < b
    · -- a binary node over the two halves
      obtain ⟨t₀, hc₀, he₀⟩ := ih (h + 1) a (a + 2 ^ (64 - h - 1)) (ha.lower hd') (by omega)
        (by omega)
      obtain ⟨t₁, hc₁, he₁⟩ := ih (h + 1) (a + 2 ^ (64 - h - 1)) b (ha.upper hd' hsplit)
        (by omega) (by omega)
      obtain ⟨htake, hdrop⟩ := rangeLeaves_take_drop val (Nat.le_add_right a (2 ^ (64 - h - 1)))
        hsplit.le
      rw [Nat.add_sub_cancel_left] at htake hdrop
      refine ⟨.binary t₀ t₁, .binary hd' ?_ ?_, ?_⟩
      · rwa [ha.filter_false hd', min_eq_right hsplit.le]
      · rwa [ha.filter_true hd']
      · rw [getHash, if_neg hne, getSplitting_of_split val ha hd' hsplit]
        simp only [getBinaryHash, htake, hdrop, he₀, he₁, Trie.hash]
        rfl
    · -- an edge of zeros, as long as the last key's
      obtain ⟨L, hsplit', hL, hzeros, hone⟩ :=
        getSplitting_of_not_split val ha hd' (Nat.le_of_not_lt hsplit)
      obtain ⟨t, hc, he⟩ := ih (h + (L + 1)) a b (ha.zeros hL hzeros) hL (by omega)
      refine ⟨.edge (List.replicate (L + 1) false) t,
        ha.isCanonical_edge val (Nat.succ_pos L) hL hzeros hone hc, ?_⟩
      rw [getHash, if_neg hne, hsplit']
      simp only [getEdgeHash, he, Trie.hash, pathValue_replicate_false, Nat.cast_zero,
        List.length_replicate]
      rfl

/-- The leaves `calculate_root` builds are those of the keys `[0, n)`. -/
theorem zipIdx_map_eq_rangeLeaves (values : List F) :
    (values.zipIdx.map fun (felt, idx) => (⟨BitVec.ofNat 64 idx, felt⟩ : Entry F)) =
      rangeLeaves (fun k => values.getD k 0) 0 values.length := by
  refine List.ext_getElem (by simp) fun i h₁ h₂ => ?_
  have hi : i < values.length := by simpa using h₂
  simp [rangeLeaves, List.getElem_zipIdx, List.getElem?_eq_getElem hi]

/-- **The Patricia root is the canonical trie's root.**  For `1 ≤ n ≤ 2 ^ 64` values,
`calculate_root` returns, without panicking, the hash of the canonical compressed trie of the
keys `0 .. n - 1` with their values; the empty list hashes to `0`. -/
theorem calculateRoot_is_canonical_root :
    calculateRoot H [] = some 0 ∧
      ∀ values : List F, 1 ≤ values.length → values.length ≤ 2 ^ 64 →
        ∃ t, IsCanonical 64 (fun k => values.getD k 0) (Finset.range values.length) 0 t ∧
          calculateRoot H values = some (t.hash H) := by
  refine ⟨rfl, fun values h₁ h₂ => ?_⟩
  have ha : Aligned 64 0 0 values.length := ⟨by omega, dvd_zero _, by simpa using h₂⟩
  obtain ⟨t, hc, he⟩ := getHash_aligned H (fun k => values.getD k 0) (treeHeight + 1) 0 0
    values.length ha (by omega) (by simp [treeHeight])
  refine ⟨t, by rwa [Finset.range_eq_Ico], ?_⟩
  have hne : values.isEmpty = false := by
    cases values with
    | nil => simp at h₁
    | cons _ _ => rfl
  rw [calculateRoot, hne, if_neg Bool.false_ne_true]
  dsimp only
  rw [zipIdx_map_eq_rangeLeaves]
  exact he

theorem calculateRoot_is_canonical_root_three_values :
    1 ≤ [5, 6, 7].length ∧ [5, 6, 7].length ≤ 2 ^ 64 ∧
      ∃ t, IsCanonical 64 (fun k => [5, 6, 7].getD k 0) (Finset.range 3) 0 t ∧
        calculateRoot (fun x y : Nat => 3 * x + y) [5, 6, 7] = some (t.hash fun x y => 3 * x + y) :=
  ⟨by decide, by decide,
    (calculateRoot_is_canonical_root fun x y : Nat => 3 * x + y).2 [5, 6, 7] (by decide) (by decide)⟩

end Sequencer.Crypto
