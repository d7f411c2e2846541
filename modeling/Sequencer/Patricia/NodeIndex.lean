/-
# Node indices and edge paths of the Patricia-Merkle tree

`patricia_merkle_tree/types.rs` numbers the nodes of a tree of height 251 as a heap: the root is
`NodeIndex::ROOT = 1`, the children of `n` are `2n` and `2n + 1`, and the leaves are the indices of
bit length 252, from `FIRST_LEAF = 2 ^ 251` to `MAX = 2 ^ 252 - 1`.  An edge node records the path
from it to its bottom as a `PathToBottom` (`node_data/inner_node.rs`): the bits of the path as a
number, and their count.

The model follows the source's `U256` arithmetic: `<<` drops the bits shifted past 256,
`NodeIndex::new` asserts that an index is at most `MAX`, a subtraction below zero panics, and
`EdgePath::from` asserts a path of at most 251 bits.  A panic is `none`.  `NodeIndex` carries its
bound `MAX`, which every constructor of the crate keeps; `PathToBottom` carries what
`PathToBottom::new` checks, that the path fits its length, a `u8`.

`getLca_lowest_common_ancestor`: `get_lca` of two nodes returns their lowest common ancestor,
which is `HeapIndex.lca_spec` once the two branches of its alignment are seen to compute the same
shifts.  `pathToBottom_algebra`: walking a path and reading it back are inverse, removing the
first edges of a concatenation gives back its second part, and the bottom of a concatenation is
reached in two walks, as long as that bottom lies in the tree; past it, the walk along the
concatenation can wrap around 256 bits where the two walks panic
(`bottomIndex_concatPaths_wraps`).
-/
import Sequencer.Lib.HeapIndex

namespace Sequencer.Patricia

open HeapIndex

/-! ## 1. `NodeIndex` -/

/-- `SubTreeHeight::ACTUAL_HEIGHT`. -/
def actualHeight : Nat := 251

/-- `U256::leading_zeros`. -/
def U256.leadingZeros (x : Nat) : Nat := 256 - Nat.size x

/-- `NodeIndex::BITS`. -/
def NodeIndex.bits : Nat := actualHeight + 1

/-- `NodeIndex::MAX`, the largest index in a tree of height 251. -/
def NodeIndex.max : Nat := 2 ^ NodeIndex.bits - 1

/-- `NodeIndex`: a `U256` of at most `NodeIndex::MAX`. -/
@[ext] structure NodeIndex where
  val : Nat
  le_max : val ≤ NodeIndex.max
  deriving DecidableEq, Repr

instance : LinearOrder NodeIndex := LinearOrder.lift' NodeIndex.val fun _ _ => NodeIndex.ext

namespace NodeIndex

theorem lt_two_pow (n : NodeIndex) : n.val < 2 ^ 252 := by
  have := n.le_max
  unfold NodeIndex.max bits actualHeight at this
  omega

theorem le_iff_val_le {a b : NodeIndex} : a ≤ b ↔ a.val ≤ b.val := Iff.rfl

theorem lt_iff_val_lt {a b : NodeIndex} : a < b ↔ a.val < b.val := Iff.rfl

/-- `NodeIndex::new`: asserts the index is at most `MAX`. -/
def new (index : Nat) : Option NodeIndex :=
  if h : index ≤ NodeIndex.max then some ⟨index, h⟩ else none

/-- `NodeIndex::ROOT`. -/
def root : NodeIndex := ⟨1, by decide⟩

/-- `NodeIndex::FIRST_LEAF`. -/
def firstLeaf : NodeIndex := ⟨2 ^ 251, by decide⟩

/-- `is_leaf`. -/
def isLeaf (n : NodeIndex) : Bool := firstLeaf ≤ n && n.val ≤ NodeIndex.max

/-- `<<`: the shift of a `U256`, then `NodeIndex::new`. -/
def shl (n : NodeIndex) (rhs : Nat) : Option NodeIndex := new (n.val <<< rhs % 2 ^ 256)

/-- `>>`, which never leaves the bound. -/
def shr (n : NodeIndex) (rhs : Nat) : NodeIndex :=
  ⟨n.val >>> rhs, (Nat.shiftRight_le _ _).trans n.le_max⟩

/-- `+`, then `NodeIndex::new`. -/
def add (a b : NodeIndex) : Option NodeIndex := new (a.val + b.val)

/-- The derived `-` on the `U256`s, which panics below zero. -/
def sub (a b : NodeIndex) : Option NodeIndex :=
  if b.val ≤ a.val then some ⟨a.val - b.val, (Nat.sub_le _ _).trans a.le_max⟩ else none

/-- `*`, then `NodeIndex::new`. -/
def mul (a b : NodeIndex) : Option NodeIndex := new (a.val * b.val)

/-- `leading_zeros`, counted in `BITS` bits. -/
def leadingZeros (n : NodeIndex) : Nat := U256.leadingZeros n.val - (256 - bits)

/-- `bit_length`. -/
def bitLength (n : NodeIndex) : Nat := bits - n.leadingZeros

/-- `get_children_indices`. -/
def getChildrenIndices (n : NodeIndex) : Option (NodeIndex × NodeIndex) := do
  let leftChild ← n.shl 1
  let rightChild ← leftChild.add root
  pure (leftChild, rightChild)

/-- `get_lca`: both indices brought to the depth of the shallower, then shifted past the bits
where they differ. -/
def getLca (self other : NodeIndex) : Option NodeIndex :=
  if self = other then some self
  else
    let bitLength := self.bitLength
    let otherBitLength := other.bitLength
    -- bring self and other to a common (low) height
    let adapted :=
      if self < other then (self, other.shr (otherBitLength - bitLength))
      else (self.shr (bitLength - otherBitLength), other)
    let xor := adapted.1.val ^^^ adapted.2.val
    do
      let postCommonPrefixLen := (← new xor).bitLength
      let lca := adapted.1.val >>> postCommonPrefixLen
      new lca

/-! ### What the operations compute -/

@[simp] theorem shr_val (n : NodeIndex) (k : Nat) : (n.shr k).val = n.val >>> k := rfl

theorem new_of_le {x : Nat} (h : x ≤ NodeIndex.max) : new x = some ⟨x, h⟩ := dif_pos h

theorem new_eq_some {x : Nat} {n : NodeIndex} : new x = some n ↔ n.val = x := by
  unfold new
  split
  · exact ⟨fun hn => by cases hn; rfl, fun hn => by rw [Option.some.injEq]; ext; exact hn.symm⟩
  · rename_i h
    exact ⟨nofun, fun hn => absurd (hn ▸ n.le_max) h⟩

/-- The bit length is the length of the binary numeral, the top 4 bits of the `U256` being zero. -/
theorem bitLength_eq_size (n : NodeIndex) : n.bitLength = Nat.size n.val := by
  have hsize : Nat.size n.val ≤ 252 := Nat.size_le.mpr n.lt_two_pow
  unfold bitLength leadingZeros U256.leadingZeros bits actualHeight
  omega

theorem shl_of_le {n : NodeIndex} {k : Nat} (h : n.val <<< k ≤ NodeIndex.max) :
    n.shl k = some ⟨n.val <<< k, h⟩ := by
  have hlt : n.val <<< k < 2 ^ 256 := by
    unfold NodeIndex.max bits actualHeight at h
    omega
  unfold shl
  rw [Nat.mod_eq_of_lt hlt, new_of_le h]

theorem add_of_le {a b : NodeIndex} (h : a.val + b.val ≤ NodeIndex.max) :
    a.add b = some ⟨a.val + b.val, h⟩ := new_of_le h

theorem sub_of_le {a b : NodeIndex} (h : b.val ≤ a.val) :
    a.sub b = some ⟨a.val - b.val, (Nat.sub_le _ _).trans a.le_max⟩ := if_pos h

theorem le_max_of_lt {x : Nat} (h : x < 2 ^ 252) : x ≤ NodeIndex.max := by
  unfold NodeIndex.max bits actualHeight
  omega

/-- A shift whose result is an index does not wrap. -/
theorem shl_eq_some {n m : NodeIndex} {k : Nat} (h : m.val = n.val <<< k) : n.shl k = some m := by
  have hlt : n.val <<< k < 2 ^ 256 := by
    have := m.lt_two_pow
    omega
  unfold shl
  rw [Nat.mod_eq_of_lt hlt]
  exact new_eq_some.mpr h

theorem add_eq_some {a b m : NodeIndex} (h : m.val = a.val + b.val) : a.add b = some m :=
  new_eq_some.mpr h

end NodeIndex

/-! ## 2. `get_lca` returns the lowest common ancestor -/

namespace NodeIndex

/-- Whichever of its two branches `get_lca` takes, it aligns the two indices by shifting the
deeper one up to the depth of the other. -/
theorem getLca_eq_of_ne {a b : NodeIndex} (hab : a ≠ b) :
    let m := min (Nat.size a.val) (Nat.size b.val)
    let x := a.val >>> (Nat.size a.val - m)
    let y := b.val >>> (Nat.size b.val - m)
    (a.getLca b).map NodeIndex.val = some (x >>> Nat.size (x ^^^ y)) := by
  intro m x y
  -- the aligned pair, as the branch computes it
  have hpair : ∀ (p : NodeIndex × NodeIndex), p.1.val = x → p.2.val = y →
      (do
        let postCommonPrefixLen := (← new (p.1.val ^^^ p.2.val)).bitLength
        new (p.1.val >>> postCommonPrefixLen)).map NodeIndex.val =
        some (x >>> Nat.size (x ^^^ y)) := by
    intro p hx hy
    rw [hx, hy]
    have hxor : x ^^^ y ≤ NodeIndex.max := by
      have hx : x ≤ NodeIndex.max := (Nat.shiftRight_le _ _).trans a.le_max
      have hy : y ≤ NodeIndex.max := (Nat.shiftRight_le _ _).trans b.le_max
      unfold NodeIndex.max bits actualHeight at hx hy ⊢
      have hx' : x < 2 ^ 252 := by omega
      have hy' : y < 2 ^ 252 := by omega
      have := Nat.xor_lt_two_pow hx' hy'
      omega
    have hlca : x >>> Nat.size (x ^^^ y) ≤ NodeIndex.max :=
      (Nat.shiftRight_le _ _).trans ((Nat.shiftRight_le _ _).trans a.le_max)
    simp only [new_of_le hxor, Option.bind_eq_bind, Option.bind_some, bitLength_eq_size,
      new_of_le hlca, Option.map_some]
  unfold getLca
  rw [if_neg hab]
  dsimp only
  split
  · -- `self < other`: `self` is the shallower
    rename_i hlt
    have hsize : Nat.size a.val ≤ Nat.size b.val := Nat.size_le_size (le_of_lt hlt)
    refine hpair _ ?_ ?_
    · simp only [x, m, min_eq_left hsize, Nat.sub_self, Nat.shiftRight_zero]
    · simp only [y, m, min_eq_left hsize, shr_val, bitLength_eq_size]
  · rename_i hlt
    have hsize : Nat.size b.val ≤ Nat.size a.val :=
      Nat.size_le_size (not_lt.mp hlt)
    refine hpair _ ?_ ?_
    · simp only [x, m, min_eq_right hsize, shr_val, bitLength_eq_size]
    · simp only [y, m, min_eq_right hsize, Nat.sub_self, Nat.shiftRight_zero]

/-- **`get_lca` returns the lowest common ancestor**: for two indices in `[1, MAX]`, the index it
returns is reached from each by shifting off the difference of the bit lengths, and no index of
greater bit length is reached from both that way. -/
theorem getLca_lowest_common_ancestor (a b : NodeIndex) (ha : root ≤ a) (hb : root ≤ b) :
    ∃ c, a.getLca b = some c ∧
      a.shr (a.bitLength - c.bitLength) = c ∧ b.shr (b.bitLength - c.bitLength) = c ∧
      ∀ d : NodeIndex, c.bitLength < d.bitLength →
        a.shr (a.bitLength - d.bitLength) = d → b.shr (b.bitLength - d.bitLength) ≠ d := by
  have ha0 : a.val ≠ 0 := Nat.pos_iff_ne_zero.mp ha
  have hb0 : b.val ≠ 0 := Nat.pos_iff_ne_zero.mp hb
  -- the value `get_lca` computes, and what `HeapIndex.lca_spec` says of it
  obtain ⟨c, hc, hcval⟩ : ∃ c, a.getLca b = some c ∧
      (IsAncestor c.val a.val ∧ IsAncestor c.val b.val ∧
        ∀ d, IsAncestor d a.val → IsAncestor d b.val → Nat.size d ≤ Nat.size c.val) := by
    by_cases hab : a = b
    · subst hab
      refine ⟨a, if_pos rfl, IsAncestor.refl _, IsAncestor.refl _, fun d hd _ => hd.1⟩
    · obtain ⟨c, hc, hval⟩ := Option.map_eq_some_iff.mp (getLca_eq_of_ne hab)
      exact ⟨c, hc, hval ▸ lca_spec ha0 hb0⟩
  obtain ⟨hca, hcb, hmax⟩ := hcval
  refine ⟨c, hc, ?_, ?_, fun d hd hda hdb => ?_⟩
  · ext
    rw [shr_val, bitLength_eq_size, bitLength_eq_size]
    exact hca.2
  · ext
    rw [shr_val, bitLength_eq_size, bitLength_eq_size]
    exact hcb.2
  · rw [bitLength_eq_size, bitLength_eq_size] at hd hda hdb
    have hda' := isAncestor_of_shiftRight_eq (congrArg NodeIndex.val hda)
    have hdb' := isAncestor_of_shiftRight_eq (congrArg NodeIndex.val hdb)
    exact absurd (hmax _ hda' hdb') (not_le.mpr hd)

theorem getLca_lowest_common_ancestor_four_seven :
    root ≤ ⟨4, by decide⟩ ∧ root ≤ ⟨7, by decide⟩ ∧
      ∃ c, getLca ⟨4, by decide⟩ ⟨7, by decide⟩ = some c ∧
        shr ⟨4, by decide⟩ (bitLength ⟨4, by decide⟩ - c.bitLength) = c ∧
        shr ⟨7, by decide⟩ (bitLength ⟨7, by decide⟩ - c.bitLength) = c ∧
        ∀ d : NodeIndex, c.bitLength < d.bitLength →
          shr ⟨4, by decide⟩ (bitLength ⟨4, by decide⟩ - d.bitLength) = d →
            shr ⟨7, by decide⟩ (bitLength ⟨7, by decide⟩ - d.bitLength) ≠ d :=
  ⟨by decide, by decide, getLca_lowest_common_ancestor _ _ (by decide) (by decide)⟩

end NodeIndex

/-! ## 3. Paths to the bottom of an edge -/

/-- `EdgePath::MAX`, the longest path from a node: 251 bits. -/
def EdgePath.max : Nat := 2 ^ actualHeight - 1

/-- `EdgePath::from(U256)`: asserts the path is at most `EdgePath::MAX`. -/
def EdgePath.from (value : Nat) : Option Nat :=
  if value ≤ EdgePath.max then some value else none

/-- `EdgePathError`. -/
inductive EdgePathError
  | illegalLength (length : Nat)
  deriving DecidableEq, Repr

/-- `EdgePathLength::new`: a `u8` of at most the height of the tree. -/
def EdgePathLength.new (length : Nat) : Except EdgePathError (Fin 256) :=
  if h : length > actualHeight then .error (.illegalLength length)
  else .ok ⟨length, by unfold actualHeight at h; omega⟩

/-- `PathToBottomError`. -/
inductive PathToBottomError
  | mismatchedLengthError (path length : Nat)
  | removeEdgesError (length nEdges : Nat)
  deriving DecidableEq, Repr

/-- `PathToBottom`: a path whose bit length is at most its length, a `u8`, as
`PathToBottom::new` checks. -/
@[ext] structure PathToBottom where
  path : Nat
  length : Nat
  length_lt : length < 256
  path_lt : path < 2 ^ length
  deriving DecidableEq, Repr

namespace PathToBottom

/-- `PathToBottom::new`: the bit length of the path, `U256::BITS - leading_zeros`, must be at most
the length. -/
def new (path : Nat) (length : Fin 256) : Except PathToBottomError PathToBottom :=
  if h : 256 - U256.leadingZeros path > length.val then
    .error (.mismatchedLengthError path length.val)
  else .ok ⟨path, length.val, length.isLt, by
    unfold U256.leadingZeros at h
    have hsize : Nat.size path ≤ length.val := by have := length.isLt; omega
    exact Nat.size_le.mp hsize⟩

/-- `PathToBottom::LEFT_CHILD`. -/
def leftChild : PathToBottom := ⟨0, 1, by decide, by decide⟩

/-- `PathToBottom::RIGHT_CHILD`. -/
def rightChild : PathToBottom := ⟨1, 1, by decide, by decide⟩

/-- `NodeIndex::compute_bottom_index`: `(index << length) + NodeIndex::new(path)`. -/
def computeBottomIndex (index : NodeIndex) (pathToBottom : PathToBottom) : Option NodeIndex := do
  let shifted ← index.shl pathToBottom.length
  let path ← NodeIndex.new pathToBottom.path
  shifted.add path

/-- `bottom_index`. -/
def bottomIndex (self : PathToBottom) (rootIndex : NodeIndex) : Option NodeIndex :=
  computeBottomIndex rootIndex self

/-- `is_left_descendant`: whether the first step is to the left; `length - 1` panics on a path of
length zero. -/
def isLeftDescendant (self : PathToBottom) : Option Bool :=
  if self.length = 0 then none else some (self.path >>> (self.length - 1) == 0)

/-- `concat_paths`: the derived `+` on the `u8` lengths panics past 255, and a failing `new`
panics too. -/
def concatPaths (self other : PathToBottom) : Option PathToBottom :=
  if h : self.length + other.length < 256 then do
    let path ← EdgePath.from ((self.path <<< other.length) % 2 ^ 256 + other.path)
    (new path ⟨self.length + other.length, h⟩).toOption
  else none

/-- `remove_first_edges`. -/
def removeFirstEdges (self : PathToBottom) (nEdges : Nat) : Except PathToBottomError PathToBottom :=
  if self.length < nEdges then .error (.removeEdgesError self.length nEdges)
  else
    new (self.path &&& ((1 <<< (self.length - nEdges)) % 2 ^ 256 - 1))
      ⟨self.length - nEdges, by have := self.length_lt; omega⟩

end PathToBottom

namespace NodeIndex

open PathToBottom

/-- `get_path_to_descendant`: panics unless `descendant` is below `self`. -/
def getPathToDescendant (self descendant : NodeIndex) : Option PathToBottom :=
  let descendantBitLength := descendant.bitLength
  let bitLength := self.bitLength
  if bitLength > descendantBitLength then none
  else
    let distance := descendantBitLength - bitLength
    do
      let delta ← descendant.sub (← self.shl distance)
      if descendant.shr distance ≠ self then none
      else
        let path ← EdgePath.from delta.val
        let length ← (EdgePathLength.new distance).toOption
        (PathToBottom.new path length).toOption

end NodeIndex

/-! ## 4. The algebra of paths

Each operation is first computed where nothing panics (`..._of_le`); the identities are then
arithmetic on the values. -/

theorem EdgePath.from_of_lt {value : Nat} (h : value < 2 ^ actualHeight) :
    EdgePath.from value = some value :=
  if_pos (by unfold EdgePath.max; omega)

theorem EdgePathLength.new_of_le {length : Nat} (h : length ≤ actualHeight) :
    EdgePathLength.new length = .ok ⟨length, by unfold actualHeight at h; omega⟩ :=
  dif_neg (not_lt.mpr h)

namespace PathToBottom

theorem new_of_lt {path : Nat} {length : Fin 256} (h : path < 2 ^ length.val) :
    new path length = .ok ⟨path, length.val, length.isLt, h⟩ := by
  have hsize : Nat.size path ≤ length.val := Nat.size_le.mpr h
  have hlen := length.isLt
  unfold new U256.leadingZeros
  rw [dif_neg (by omega)]

/-- `PathToBottom::new` accepts the fields of a path. -/
theorem new_eq_ok {path : Nat} {length : Fin 256} {p : PathToBottom} (hpath : path = p.path)
    (hlength : length.val = p.length) : new path length = .ok p := by
  have h : path < 2 ^ length.val := hpath ▸ hlength ▸ p.path_lt
  rw [new_of_lt h]
  congr 1
  ext
  · exact hpath
  · exact hlength

/-- Below a node whose descendant at the depth of the path is in the tree, the path ends in the
tree: for the root `0` because a path has at most 251 bits, for any other node by
`HeapIndex.shiftLeft_add_lt`. -/
theorem shiftLeft_add_le_max {n : NodeIndex} {length path : Nat} (hlength : length ≤ actualHeight)
    (hpath : path < 2 ^ length) (h : n.val <<< length ≤ NodeIndex.max) :
    n.val <<< length + path ≤ NodeIndex.max := by
  unfold NodeIndex.max NodeIndex.bits at h ⊢
  have hpos := Nat.two_pow_pos (actualHeight + 1)
  by_cases hn : n.val = 0
  · rw [hn, Nat.zero_shiftLeft, Nat.zero_add]
    have h1 : 2 ^ length ≤ 2 ^ actualHeight := Nat.pow_le_pow_right (by decide) hlength
    have h2 : 2 ^ actualHeight < 2 ^ (actualHeight + 1) :=
      Nat.pow_lt_pow_right (by decide) (Nat.lt_succ_self _)
    omega
  · have := shiftLeft_add_lt hn hpath (by omega : n.val <<< length < 2 ^ (actualHeight + 1))
    omega

/-- Below a node other than `0`, a path whose first descendant is in the tree has at most 251 bits. -/
theorem length_le_of_shiftLeft_le {n : NodeIndex} (hn : NodeIndex.root ≤ n) {length : Nat}
    (h : n.val <<< length ≤ NodeIndex.max) : length ≤ actualHeight := by
  have hpos : 0 < n.val := hn
  have hle : 2 ^ length ≤ n.val <<< length := by
    rw [Nat.shiftLeft_eq]
    exact Nat.le_mul_of_pos_left _ hpos
  unfold NodeIndex.max NodeIndex.bits actualHeight at h
  by_contra hlt
  have : 2 ^ 252 ≤ 2 ^ length := Nat.pow_le_pow_right (by decide) (by unfold actualHeight at hlt; omega)
  omega

theorem computeBottomIndex_of_le {index : NodeIndex} {p : PathToBottom}
    (h : index.val <<< p.length + p.path ≤ NodeIndex.max) :
    computeBottomIndex index p = some ⟨index.val <<< p.length + p.path, h⟩ := by
  have hshift : index.val <<< p.length ≤ NodeIndex.max := le_of_add_le_left h
  have hpath : p.path ≤ NodeIndex.max := le_of_add_le_right h
  simp only [computeBottomIndex, NodeIndex.shl_of_le hshift, NodeIndex.new_of_le hpath,
    Option.bind_eq_bind, Option.bind_some]
  exact NodeIndex.add_of_le (a := ⟨_, hshift⟩) (b := ⟨_, hpath⟩) h

theorem concatPaths_of_le {p q : PathToBottom} (h : p.length + q.length ≤ actualHeight) :
    ∃ pq : PathToBottom, p.concatPaths q = some pq ∧ pq.length = p.length + q.length ∧
      pq.path = p.path <<< q.length + q.path := by
  have hlt : p.path <<< q.length + q.path < 2 ^ (p.length + q.length) :=
    shiftLeft_add_lt_two_pow p.path_lt q.path_lt
  have hbits : 2 ^ (p.length + q.length) ≤ 2 ^ actualHeight :=
    Nat.pow_le_pow_right (by decide) h
  have hwrap : p.path <<< q.length < 2 ^ 256 := by
    unfold actualHeight at hbits
    omega
  refine ⟨⟨p.path <<< q.length + q.path, p.length + q.length, by unfold actualHeight at h; omega,
    hlt⟩, ?_, rfl, rfl⟩
  unfold concatPaths
  rw [dif_pos (by unfold actualHeight at h; omega), Nat.mod_eq_of_lt hwrap,
    EdgePath.from_of_lt (by omega)]
  simp only [Option.bind_eq_bind, Option.bind_some,
    @new_of_lt (p.path <<< q.length + q.path) ⟨p.length + q.length, _⟩ hlt, Except.toOption]

end PathToBottom

namespace NodeIndex

open PathToBottom

/-- From a node to a descendant, the path is the descendant's low bits, as many as the levels
between them. -/
theorem getPathToDescendant_of_isAncestor {n d : NodeIndex} (hn : root ≤ n)
    (h : IsAncestor n.val d.val) :
    ∃ p : PathToBottom, n.getPathToDescendant d = some p ∧
      p.length = Nat.size d.val - Nat.size n.val ∧ p.path = d.val % 2 ^ p.length := by
  have hpos : 0 < Nat.size n.val := Nat.size_pos.mpr hn
  have hsize : Nat.size d.val ≤ 252 := Nat.size_le.mpr d.lt_two_pow
  set k := Nat.size d.val - Nat.size n.val with hk_def
  have hk : k ≤ actualHeight := by unfold actualHeight; omega
  -- `d` is `n` followed by its low `k` bits
  have hd : d.val = n.val <<< k + d.val % 2 ^ k := h.eq_shiftLeft_add
  have hmod : d.val % 2 ^ k < 2 ^ k := Nat.mod_lt _ (Nat.two_pow_pos k)
  have hshift : n.val <<< k ≤ d.val := by omega
  have hdelta : d.val - n.val <<< k = d.val % 2 ^ k := by omega
  have hbits : 2 ^ k ≤ 2 ^ actualHeight := Nat.pow_le_pow_right (by decide) hk
  have hshr : d.shr k = n := by
    ext
    rw [shr_val, hd, shiftLeft_add_shiftRight _ hmod]
  refine ⟨⟨d.val % 2 ^ k, k, by unfold actualHeight at hk; omega, hmod⟩, ?_, rfl, rfl⟩
  unfold getPathToDescendant
  simp only [bitLength_eq_size, if_neg (not_lt.mpr h.1), ← hk_def,
    shl_of_le (hshift.trans d.le_max), Option.bind_eq_bind, Option.bind_some,
    sub_of_le (a := d) (b := ⟨n.val <<< k, hshift.trans d.le_max⟩) hshift, hshr, ne_eq,
    not_true_eq_false, if_false, hdelta, EdgePath.from_of_lt (hmod.trans_le hbits),
    EdgePathLength.new_of_le hk, Except.toOption,
    @new_of_lt (d.val % 2 ^ k) ⟨k, by unfold actualHeight at hk; omega⟩ hmod]

/-- **From a node to a descendant and back**: the path `get_path_to_descendant` finds leads to the
descendant. -/
theorem computeBottomIndex_getPathToDescendant {n d : NodeIndex} (hn : root ≤ n)
    (h : IsAncestor n.val d.val) :
    (n.getPathToDescendant d).bind (computeBottomIndex n) = some d := by
  obtain ⟨p, hp, hlength, hpath⟩ := getPathToDescendant_of_isAncestor hn h
  have hval : n.val <<< p.length + p.path = d.val := by
    rw [hpath, hlength]
    exact h.eq_shiftLeft_add.symm
  rw [hp, Option.bind_some, computeBottomIndex_of_le (hval ▸ d.le_max)]
  congr 1
  ext
  exact hval

/-- **Along a path and back**: from a node other than `0` along a path whose first descendant is
in the tree, `get_path_to_descendant` reads the path back. -/
theorem getPathToDescendant_computeBottomIndex {n : NodeIndex} (hn : root ≤ n) {p : PathToBottom}
    (h : n.val <<< p.length ≤ NodeIndex.max) :
    (computeBottomIndex n p).bind n.getPathToDescendant = some p := by
  have hlength := length_le_of_shiftLeft_le hn h
  have hle := shiftLeft_add_le_max hlength p.path_lt h
  have hn0 : n.val ≠ 0 := Nat.pos_iff_ne_zero.mp hn
  rw [computeBottomIndex_of_le hle, Option.bind_some]
  obtain ⟨p', hp', hlength', hpath'⟩ :=
    getPathToDescendant_of_isAncestor hn (d := ⟨_, hle⟩) (isAncestor_shiftLeft_add hn0 _ p.path_lt)
  rw [hp']
  have hlen : p'.length = p.length := by
    rw [hlength', size_shiftLeft_add hn0 _ p.path_lt, Nat.add_sub_cancel_left]
  congr 1
  ext
  · rw [hpath']
    show (n.val <<< p.length + p.path) % 2 ^ p'.length = p.path
    rw [hlen, Nat.shiftLeft_eq, Nat.mul_add_mod_self_right, Nat.mod_eq_of_lt p.path_lt]
  · exact hlen

end NodeIndex

namespace PathToBottom

/-- **Removing the first edges of a concatenation** gives back its second part. -/
theorem removeFirstEdges_concatPaths {p q : PathToBottom} (h : p.length + q.length ≤ actualHeight) :
    (p.concatPaths q).map (·.removeFirstEdges p.length) = some (.ok q) := by
  obtain ⟨pq, hpq, hlength, hpath⟩ := concatPaths_of_le h
  have hq : q.length ≤ actualHeight := le_of_add_le_right h
  have hmask : (1 <<< q.length) % 2 ^ 256 = 2 ^ q.length := by
    have : 2 ^ q.length ≤ 2 ^ actualHeight := Nat.pow_le_pow_right (by decide) hq
    rw [Nat.one_shiftLeft, Nat.mod_eq_of_lt (by unfold actualHeight at this; omega)]
  have hlow : pq.path &&& ((1 <<< (pq.length - p.length)) % 2 ^ 256 - 1) = q.path := by
    rw [hlength, Nat.add_sub_cancel_left, hmask, Nat.and_two_pow_sub_one_eq_mod, hpath,
      Nat.shiftLeft_eq, Nat.mul_add_mod_self_right, Nat.mod_eq_of_lt q.path_lt]
  rw [hpq, Option.map_some]
  unfold removeFirstEdges
  rw [if_neg (by omega)]
  exact congrArg some (new_eq_ok hlow (by simp only [hlength, Nat.add_sub_cancel_left]))

/-- **The bottom of a concatenation is reached in two walks**, when it lies in the tree. -/
theorem bottomIndex_concatPaths {n : NodeIndex} {p q : PathToBottom}
    (h : p.length + q.length ≤ actualHeight)
    (hn : n.val <<< (p.length + q.length) ≤ NodeIndex.max) :
    (p.concatPaths q).bind (·.bottomIndex n) = (p.bottomIndex n).bind q.bottomIndex := by
  obtain ⟨pq, hpq, hlength, hpath⟩ := concatPaths_of_le h
  -- both walks end at `n` followed by the bits of `p`, then those of `q`
  have hval : n.val <<< pq.length + pq.path =
      (n.val <<< p.length + p.path) <<< q.length + q.path := by
    rw [hlength, hpath]
    simp only [Nat.shiftLeft_eq, Nat.pow_add]
    ring
  have hle : n.val <<< pq.length + pq.path ≤ NodeIndex.max :=
    shiftLeft_add_le_max (hlength ▸ h) pq.path_lt (hlength ▸ hn)
  have hle₂ : (n.val <<< p.length + p.path) <<< q.length + q.path ≤ NodeIndex.max := hval ▸ hle
  have hle₁ : n.val <<< p.length + p.path ≤ NodeIndex.max := by
    have : n.val <<< p.length + p.path ≤ (n.val <<< p.length + p.path) <<< q.length := by
      rw [Nat.shiftLeft_eq (n.val <<< p.length + p.path)]
      exact Nat.le_mul_of_pos_right _ (Nat.two_pow_pos _)
    omega
  simp only [bottomIndex]
  rw [hpq, Option.bind_some, computeBottomIndex_of_le hle, computeBottomIndex_of_le hle₁,
    Option.bind_some, bottomIndex, @computeBottomIndex_of_le ⟨_, hle₁⟩ q hle₂]
  congr 1
  ext
  exact hval

end PathToBottom

open NodeIndex PathToBottom in
/-- **The algebra of paths**: from a node other than `0` (the root is `1`), walking to a
descendant and reading the path back are inverse in both orders; removing the first edges of a
concatenation gives back its second part; and the bottom of a concatenation is reached in two
walks, when it lies in the tree. -/
theorem pathToBottom_algebra :
    (∀ n d : NodeIndex, root ≤ n → IsAncestor n.val d.val →
      (n.getPathToDescendant d).bind (computeBottomIndex n) = some d) ∧
    (∀ (n : NodeIndex) (p : PathToBottom), root ≤ n → n.val <<< p.length ≤ NodeIndex.max →
      (p.bottomIndex n).bind n.getPathToDescendant = some p) ∧
    (∀ p q : PathToBottom, p.length + q.length ≤ actualHeight →
      (p.concatPaths q).map (·.removeFirstEdges p.length) = some (.ok q)) ∧
    (∀ (n : NodeIndex) (p q : PathToBottom), p.length + q.length ≤ actualHeight →
      n.val <<< (p.length + q.length) ≤ NodeIndex.max →
      (p.concatPaths q).bind (·.bottomIndex n) = (p.bottomIndex n).bind q.bottomIndex) :=
  ⟨fun _ _ hn h => computeBottomIndex_getPathToDescendant hn h,
    fun _ _ hn h => getPathToDescendant_computeBottomIndex hn h,
    fun _ _ h => removeFirstEdges_concatPaths h,
    fun _ _ _ h hn => bottomIndex_concatPaths h hn⟩

open NodeIndex PathToBottom in
theorem pathToBottom_algebra_at_root :
    (root.getPathToDescendant ⟨5, by decide⟩).bind (computeBottomIndex root) =
        some ⟨5, by decide⟩ ∧
      (rightChild.bottomIndex root).bind root.getPathToDescendant = some rightChild ∧
      (rightChild.concatPaths leftChild).map (·.removeFirstEdges rightChild.length) =
        some (.ok leftChild) ∧
      (rightChild.concatPaths leftChild).bind (·.bottomIndex root) =
        (rightChild.bottomIndex root).bind leftChild.bottomIndex :=
  ⟨pathToBottom_algebra.1 _ _ (by decide) (by decide +kernel),
    pathToBottom_algebra.2.1 _ _ (by decide) (by decide),
    pathToBottom_algebra.2.2.1 _ _ (by decide),
    pathToBottom_algebra.2.2.2 _ _ _ (by decide) (by decide)⟩

open NodeIndex PathToBottom in
/-- From the first leaf, one step right and then four left leave the tree.  Along the
concatenated path the shift by five wraps around 256 bits to `0` and the walk returns the index
`16`; along the two paths, the first shift lands on `2 ^ 252`, past `NodeIndex::MAX`, and
panics. -/
theorem bottomIndex_concatPaths_wraps :
    (rightChild.concatPaths ⟨0, 4, by decide, by decide⟩).bind (·.bottomIndex firstLeaf) =
        some ⟨16, by decide⟩ ∧
      (rightChild.bottomIndex firstLeaf).bind (PathToBottom.bottomIndex ⟨0, 4, by decide, by decide⟩) =
        none := by
  decide +kernel

end Sequencer.Patricia
