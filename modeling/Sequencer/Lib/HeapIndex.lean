/-
# Heap-numbered binary trees

The nodes of a binary tree numbered as a heap: the root is `1` and the children of `a` are
`2 * a` and `2 * a + 1`.  The depth of a node is its bit length (`Nat.size`) less one, its
ancestor `k` levels up is `a >>> k`, and its descendants `k` levels down are the block
`[a <<< k, (a + 1) <<< k)` (`shiftRight_eq_iff`).  `IsAncestor a d` says that `a` is `d` or above
it; a node with `k` more levels below it is `a <<< k + r` for a path `r < 2 ^ k`
(`IsAncestor.eq_shiftLeft_add`).

The second half is the common prefix of two nodes at one depth: shifted right by the bit length
of their `xor` they meet (`shiftRight_size_xor`), shifted by less they do not
(`shiftRight_ne_of_lt_size_xor`), so that shift is their lowest common ancestor
(`IsAncestor.size_le_of_common`).  Nothing here names the program it is used for.
-/
import Mathlib.Data.Nat.Size
import Mathlib.Data.Nat.Bitwise
import Mathlib.Order.Basic
import Mathlib.Tactic.Ring

namespace Sequencer.HeapIndex

/-! ## 1. Depth, ancestors and descendants -/

/-- Shifting right by `k` takes `k` levels off the depth. -/
theorem size_shiftRight (d k : Nat) : Nat.size (d >>> k) = Nat.size d - k := by
  refine eq_of_forall_lt_iff fun m => ?_
  rw [Nat.lt_size, Nat.shiftRight_eq_div_pow, Nat.le_div_iff_mul_le (Nat.two_pow_pos k),
    ← Nat.pow_add, ← Nat.lt_size]
  omega

/-- A path of `k` bits below `a` shifts back off. -/
theorem shiftLeft_add_shiftRight (a : Nat) {k r : Nat} (hr : r < 2 ^ k) :
    (a <<< k + r) >>> k = a := by
  rw [Nat.shiftLeft_eq, Nat.shiftRight_eq_div_pow, Nat.add_comm,
    Nat.add_mul_div_right _ _ (Nat.two_pow_pos k), Nat.div_eq_of_lt hr, Nat.zero_add]

/-- A node `k` levels below `a ≠ 0` is `k` bits longer. -/
theorem size_shiftLeft_add {a : Nat} (ha : a ≠ 0) (k : Nat) {r : Nat} (hr : r < 2 ^ k) :
    Nat.size (a <<< k + r) = Nat.size a + k := by
  have hk : k < Nat.size (a <<< k + r) := by
    rw [Nat.lt_size, Nat.shiftLeft_eq]
    have : 2 ^ k ≤ a * 2 ^ k := Nat.le_mul_of_pos_left _ (Nat.pos_of_ne_zero ha)
    omega
  have h := size_shiftRight (a <<< k + r) k
  rw [shiftLeft_add_shiftRight a hr] at h
  omega

/-- The children `2 * a` and `2 * a + 1` are `a` shifted by one bit, plus that bit. -/
theorem two_mul_add_eq_shiftLeft (a b : Nat) : 2 * a + b = a <<< 1 + b := by
  rw [Nat.shiftLeft_eq, Nat.pow_one, Nat.mul_comm]

/-- A child of `a ≠ 0` is one level below it. -/
theorem size_two_mul_add {a b : Nat} (ha : a ≠ 0) (hb : b < 2) :
    Nat.size (2 * a + b) = Nat.size a + 1 := by
  rw [two_mul_add_eq_shiftLeft]
  exact size_shiftLeft_add ha 1 hb

/-- The descendants of `a` that are `k` levels below it form the block `[a <<< k, (a + 1) <<< k)`. -/
theorem shiftRight_eq_iff {d a k : Nat} : d >>> k = a ↔ a <<< k ≤ d ∧ d < (a + 1) <<< k := by
  rw [Nat.shiftRight_eq_div_pow, Nat.shiftLeft_eq, Nat.shiftLeft_eq]
  constructor
  · rintro rfl
    exact ⟨Nat.div_mul_le_self d _,
      (Nat.div_lt_iff_lt_mul (Nat.two_pow_pos k)).mp (Nat.lt_succ_self _)⟩
  · rintro ⟨hlo, hhi⟩
    exact Nat.div_eq_of_lt_le hlo hhi

/-- `a` is `d` or an ancestor of `d`: `d` shifted right by the difference of their bit lengths. -/
def IsAncestor (a d : Nat) : Prop :=
  Nat.size a ≤ Nat.size d ∧ d >>> (Nat.size d - Nat.size a) = a

instance (a d : Nat) : Decidable (IsAncestor a d) := inferInstanceAs (Decidable (_ ∧ _))

theorem IsAncestor.refl (a : Nat) : IsAncestor a a :=
  ⟨le_rfl, by rw [Nat.sub_self, Nat.shiftRight_zero]⟩

/-- The ancestor `k` levels up, for `k` up to the depth. -/
theorem isAncestor_shiftRight (d : Nat) {k : Nat} (hk : k ≤ Nat.size d) :
    IsAncestor (d >>> k) d := by
  refine ⟨by rw [size_shiftRight]; omega, ?_⟩
  rw [size_shiftRight, show Nat.size d - (Nat.size d - k) = k by omega]

/-- A node is an ancestor of every node below it along a path. -/
theorem isAncestor_shiftLeft_add {a : Nat} (ha : a ≠ 0) (k : Nat) {r : Nat} (hr : r < 2 ^ k) :
    IsAncestor a (a <<< k + r) := by
  refine ⟨by rw [size_shiftLeft_add ha k hr]; omega, ?_⟩
  rw [size_shiftLeft_add ha k hr, Nat.add_sub_cancel_left, shiftLeft_add_shiftRight a hr]

/-- Knowing the difference of depths, an ancestor is a shift. -/
theorem isAncestor_iff_shiftRight_eq {a d k : Nat} (hk : Nat.size d = Nat.size a + k) :
    IsAncestor a d ↔ d >>> k = a := by
  unfold IsAncestor
  rw [hk, Nat.add_sub_cancel_left]
  exact ⟨And.right, fun h => ⟨by omega, h⟩⟩

/-- Knowing the difference of depths, the descendants of `a` are the block of `2 ^ k` numbers
from `a * 2 ^ k`. -/
theorem isAncestor_iff_le_and_lt {a d k : Nat} (hk : Nat.size d = Nat.size a + k) :
    IsAncestor a d ↔ a * 2 ^ k ≤ d ∧ d < a * 2 ^ k + 2 ^ k := by
  rw [isAncestor_iff_shiftRight_eq hk, shiftRight_eq_iff, Nat.shiftLeft_eq, Nat.shiftLeft_eq,
    Nat.add_mul, Nat.one_mul]

/-- Below an ancestor, a node is its ancestor followed by a path as long as the difference of
their depths. -/
theorem IsAncestor.eq_shiftLeft_add {a d : Nat} (h : IsAncestor a d) :
    d = a <<< (Nat.size d - Nat.size a) + d % 2 ^ (Nat.size d - Nat.size a) := by
  obtain ⟨-, hk⟩ := h
  generalize Nat.size d - Nat.size a = k at hk ⊢
  rw [Nat.shiftLeft_eq, ← hk, Nat.shiftRight_eq_div_pow, Nat.div_add_mod']

theorem isAncestor_two_mul_add {a b : Nat} (ha : a ≠ 0) (hb : b < 2) :
    IsAncestor a (2 * a + b) := by
  rw [two_mul_add_eq_shiftLeft]
  exact isAncestor_shiftLeft_add ha 1 hb

/-- An ancestor of an ancestor. -/
theorem IsAncestor.trans {a b d : Nat} (hab : IsAncestor a b) (hbd : IsAncestor b d) :
    IsAncestor a d := by
  refine ⟨hab.1.trans hbd.1, ?_⟩
  rw [show Nat.size d - Nat.size a = (Nat.size d - Nat.size b) + (Nat.size b - Nat.size a) by
    have := hab.1; have := hbd.1; omega, Nat.shiftRight_add, hbd.2, hab.2]

/-- Ancestors of one node form a chain: of two of them, the shallower is an ancestor of the
deeper. -/
theorem IsAncestor.of_size_le {a b d : Nat} (had : IsAncestor a d) (hbd : IsAncestor b d)
    (hab : Nat.size a ≤ Nat.size b) : IsAncestor a b := by
  refine ⟨hab, ?_⟩
  calc b >>> (Nat.size b - Nat.size a)
      = d >>> (Nat.size d - Nat.size b) >>> (Nat.size b - Nat.size a) := by rw [hbd.2]
    _ = d >>> (Nat.size d - Nat.size a) := by
      rw [← Nat.shiftRight_add]
      congr 1
      have := hbd.1
      omega
    _ = a := had.2

/-- An ancestor as deep as the node is the node itself. -/
theorem IsAncestor.eq_of_size_eq {a d : Nat} (h : IsAncestor a d) (hsize : Nat.size a = Nat.size d) :
    a = d := by
  have hd := h.2
  rwa [hsize, Nat.sub_self, Nat.shiftRight_zero, eq_comm] at hd

/-- Two ancestors of one node at one depth are one node. -/
theorem IsAncestor.eq_of_common {a b d : Nat} (had : IsAncestor a d) (hbd : IsAncestor b d)
    (hab : Nat.size a = Nat.size b) : a = b :=
  (had.of_size_le hbd hab.le).eq_of_size_eq hab

/-- Another node below `a` is deeper than `a`. -/
theorem IsAncestor.size_lt_of_ne {a d : Nat} (h : IsAncestor a d) (hne : d ≠ a) :
    Nat.size a < Nat.size d :=
  lt_of_le_of_ne h.1 fun hsize => hne (h.eq_of_size_eq hsize).symm

/-- A node strictly below `a` is below one of its children. -/
theorem IsAncestor.child_of_size_lt {a d : Nat} (h : IsAncestor a d) (hlt : Nat.size a < Nat.size d) :
    IsAncestor (2 * a) d ∨ IsAncestor (2 * a + 1) d := by
  -- the ancestor of `d` one level below `a`
  set c := d >>> (Nat.size d - Nat.size a - 1) with hc
  have hcd : IsAncestor c d := isAncestor_shiftRight d (by omega)
  have hup : c >>> 1 = a := by
    rw [hc, ← Nat.shiftRight_add, show Nat.size d - Nat.size a - 1 + 1 =
      Nat.size d - Nat.size a by omega]
    exact h.2
  obtain ⟨hlo, hhi⟩ := shiftRight_eq_iff.mp hup
  rw [Nat.shiftLeft_eq, Nat.pow_one] at hlo hhi
  rcases (show c = 2 * a ∨ c = 2 * a + 1 by omega) with hc' | hc'
  · exact .inl (hc' ▸ hcd)
  · exact .inr (hc' ▸ hcd)

/-- The nodes of one depth below a node are a block: whatever lies between two of them is below
it too. -/
theorem IsAncestor.of_le_of_le {c a b i : Nat} (ha : IsAncestor c a) (hb : IsAncestor c b)
    (hsa : Nat.size a = Nat.size i) (hsb : Nat.size b = Nat.size i) (hai : a ≤ i) (hib : i ≤ b) :
    IsAncestor c i := by
  have hk : Nat.size i = Nat.size c + (Nat.size i - Nat.size c) := by
    have := ha.1
    omega
  have ha' := (isAncestor_iff_le_and_lt (hsa.trans hk)).mp ha
  have hb' := (isAncestor_iff_le_and_lt (hsb.trans hk)).mp hb
  exact (isAncestor_iff_le_and_lt hk).mpr ⟨ha'.1.trans hai, lt_of_le_of_lt hib hb'.2⟩

/-- An equation `a >>> (size a - size d) = d` makes `d` an ancestor of `a`: were `d` deeper, the
shift would be by nothing and `d` would be `a`. -/
theorem isAncestor_of_shiftRight_eq {a d : Nat} (h : a >>> (Nat.size a - Nat.size d) = d) :
    IsAncestor d a := by
  refine ⟨?_, h⟩
  by_contra hlt
  rw [show Nat.size a - Nat.size d = 0 by omega, Nat.shiftRight_zero] at h
  subst h
  exact hlt le_rfl

/-- Below a nonzero node `a`, a path of `k` bits stays under any bound a multiple `2 ^ w` that
`a <<< k` stays under. -/
theorem shiftLeft_add_lt {a k r w : Nat} (ha : a ≠ 0) (hr : r < 2 ^ k) (h : a <<< k < 2 ^ w) :
    a <<< k + r < 2 ^ w := by
  rw [Nat.shiftLeft_eq] at h ⊢
  have hkw : k ≤ w := by
    by_contra hkw
    have : 2 ^ w < 2 ^ k := Nat.pow_lt_pow_right (by decide) (by omega)
    have : 2 ^ k ≤ a * 2 ^ k := Nat.le_mul_of_pos_left _ (Nat.pos_of_ne_zero ha)
    omega
  -- `a` is below `2 ^ (w - k)`, so `a + 1` is at most that
  have hsplit : 2 ^ w = 2 ^ (w - k) * 2 ^ k := by rw [← Nat.pow_add, Nat.sub_add_cancel hkw]
  rw [hsplit] at h ⊢
  have ha' : a < 2 ^ (w - k) := Nat.lt_of_mul_lt_mul_right h
  have : (a + 1) * 2 ^ k ≤ 2 ^ (w - k) * 2 ^ k := Nat.mul_le_mul_right _ ha'
  rw [Nat.add_mul, Nat.one_mul] at this
  omega

/-- A path of `k` bits below a number of `m` bits gives a number of at most `m + k` bits. -/
theorem shiftLeft_add_lt_two_pow {a m k r : Nat} (ha : a < 2 ^ m) (hr : r < 2 ^ k) :
    a <<< k + r < 2 ^ (m + k) := by
  rw [Nat.shiftLeft_eq, Nat.pow_add]
  have : (a + 1) * 2 ^ k ≤ 2 ^ m * 2 ^ k := Nat.mul_le_mul_right _ ha
  rw [Nat.add_mul, Nat.one_mul] at this
  omega

/-- One level down, the descendants of `a` split at `(2 * a + 1) <<< k`: those before it are below
the left child `2 * a`. -/
theorem shiftRight_eq_two_mul_iff {d a k : Nat} (h : d >>> (k + 1) = a) :
    d >>> k = 2 * a ↔ d < (2 * a + 1) <<< k := by
  rw [shiftRight_eq_iff]
  rw [shiftRight_eq_iff] at h
  have hleft : a <<< (k + 1) = (2 * a) <<< k := by
    rw [Nat.shiftLeft_eq, Nat.shiftLeft_eq, Nat.pow_succ]
    ring
  rw [hleft] at h
  exact ⟨And.right, fun hd => ⟨h.1, hd⟩⟩

/-- ... and those from it on are below the right child `2 * a + 1`. -/
theorem shiftRight_eq_two_mul_add_one_iff {d a k : Nat} (h : d >>> (k + 1) = a) :
    d >>> k = 2 * a + 1 ↔ (2 * a + 1) <<< k ≤ d := by
  rw [shiftRight_eq_iff]
  rw [shiftRight_eq_iff] at h
  have hright : (a + 1) <<< (k + 1) = (2 * a + 1 + 1) <<< k := by
    rw [Nat.shiftLeft_eq, Nat.shiftLeft_eq, Nat.pow_succ]
    ring
  rw [hright] at h
  exact ⟨And.left, fun hd => ⟨hd, h.2⟩⟩

/-! ## 2. The common prefix of two nodes -/

/-- Shifted right past the bits where they differ, two numbers meet. -/
theorem shiftRight_size_xor (x y : Nat) :
    x >>> Nat.size (x ^^^ y) = y >>> Nat.size (x ^^^ y) := by
  have h : (x ^^^ y) >>> Nat.size (x ^^^ y) = 0 := by
    rw [Nat.shiftRight_eq_div_pow]
    exact Nat.div_eq_of_lt (Nat.lt_size_self _)
  rwa [Nat.shiftRight_xor_distrib, Nat.xor_eq_zero_iff] at h

/-- Shifted right by less, they still differ: the highest bit of the `xor` is left. -/
theorem shiftRight_ne_of_lt_size_xor {x y k : Nat} (hk : k < Nat.size (x ^^^ y)) :
    x >>> k ≠ y >>> k := by
  intro h
  have h0 : (x ^^^ y) >>> k = 0 := by
    rw [Nat.shiftRight_xor_distrib, h, Nat.xor_self]
  have hsize := size_shiftRight (x ^^^ y) k
  rw [h0, Nat.size_zero] at hsize
  omega

/-- A number shifted right to its top bit is one. -/
theorem shiftRight_size_sub_one {z : Nat} (hz : z ≠ 0) : z >>> (Nat.size z - 1) = 1 := by
  have hpos : 0 < Nat.size z := Nat.size_pos.mpr (Nat.pos_of_ne_zero hz)
  have hsize := size_shiftRight z (Nat.size z - 1)
  rw [show Nat.size z - (Nat.size z - 1) = 1 by omega] at hsize
  have hlt : z >>> (Nat.size z - 1) < 2 := by
    have := Nat.lt_size_self (z >>> (Nat.size z - 1))
    rwa [hsize, Nat.pow_one] at this
  have hne : z >>> (Nat.size z - 1) ≠ 0 := by
    intro h0
    rw [h0, Nat.size_zero] at hsize
    exact absurd hsize (by decide)
  exact Nat.le_antisymm (Nat.lt_succ_iff.mp hlt) (Nat.pos_of_ne_zero hne)

/-- Every node is below the root `1`. -/
theorem isAncestor_one {d : Nat} (hd : d ≠ 0) : IsAncestor 1 d := by
  have h := isAncestor_shiftRight d (Nat.sub_le (Nat.size d) 1)
  rwa [shiftRight_size_sub_one hd] at h

/-- Two nonzero numbers of one bit length agree on their top bit, so their `xor` is shorter. -/
theorem size_xor_lt {x y : Nat} (hx : x ≠ 0) (hxy : Nat.size x = Nat.size y) :
    Nat.size (x ^^^ y) < Nat.size x := by
  have hy : y ≠ 0 := by
    rintro rfl
    rw [Nat.size_zero, Nat.size_eq_zero] at hxy
    exact hx hxy
  have hpos : 0 < Nat.size x := Nat.size_pos.mpr (Nat.pos_of_ne_zero hx)
  have htop : (x ^^^ y) >>> (Nat.size x - 1) = 0 := by
    rw [Nat.shiftRight_xor_distrib, shiftRight_size_sub_one hx, hxy, shiftRight_size_sub_one hy,
      Nat.xor_self]
  have hsize := size_shiftRight (x ^^^ y) (Nat.size x - 1)
  rw [htop, Nat.size_zero] at hsize
  omega

/-- **The lowest common ancestor of two nodes at one depth** is their shift by the bit length of
their `xor`: it is an ancestor of both, and every common ancestor is at most as deep. -/
theorem isAncestor_shiftRight_size_xor_left {x y : Nat} (hx : x ≠ 0)
    (hxy : Nat.size x = Nat.size y) : IsAncestor (x >>> Nat.size (x ^^^ y)) x :=
  isAncestor_shiftRight x (size_xor_lt hx hxy).le

theorem isAncestor_shiftRight_size_xor_right {x y : Nat} (hx : x ≠ 0)
    (hxy : Nat.size x = Nat.size y) : IsAncestor (x >>> Nat.size (x ^^^ y)) y := by
  rw [shiftRight_size_xor]
  exact isAncestor_shiftRight y (hxy ▸ (size_xor_lt hx hxy).le)

theorem IsAncestor.size_le_of_common {x y d : Nat} (hxy : Nat.size x = Nat.size y)
    (hdx : IsAncestor d x) (hdy : IsAncestor d y) :
    Nat.size d ≤ Nat.size x - Nat.size (x ^^^ y) := by
  by_contra hlt
  have hshift : x >>> (Nat.size x - Nat.size d) = y >>> (Nat.size x - Nat.size d) := by
    rw [hdx.2]
    rw [hxy]
    exact hdy.2.symm
  exact shiftRight_ne_of_lt_size_xor (by have := hdx.1; omega) hshift

/-- **The lowest common ancestor of two nodes**: bring the deeper one up to the depth `m` of the
other, and shift both past the bits where they then differ.  The result is an ancestor of both,
and every common ancestor is at most as deep. -/
theorem lca_spec {a b : Nat} (ha : a ≠ 0) (hb : b ≠ 0) :
    let m := min (Nat.size a) (Nat.size b)
    let x := a >>> (Nat.size a - m)
    let y := b >>> (Nat.size b - m)
    IsAncestor (x >>> Nat.size (x ^^^ y)) a ∧ IsAncestor (x >>> Nat.size (x ^^^ y)) b ∧
      ∀ d, IsAncestor d a → IsAncestor d b → Nat.size d ≤ Nat.size (x >>> Nat.size (x ^^^ y)) := by
  intro m x y
  have hsa : 0 < Nat.size a := Nat.size_pos.mpr (Nat.pos_of_ne_zero ha)
  have hsb : 0 < Nat.size b := Nat.size_pos.mpr (Nat.pos_of_ne_zero hb)
  have hxa : IsAncestor x a := isAncestor_shiftRight a (by omega)
  have hyb : IsAncestor y b := isAncestor_shiftRight b (by omega)
  have hsx : Nat.size x = m := by
    simp only [x, size_shiftRight]
    omega
  have hsy : Nat.size y = m := by
    simp only [y, size_shiftRight]
    omega
  have hx0 : x ≠ 0 := by
    intro hx
    rw [hx, Nat.size_zero] at hsx
    omega
  have hxy : Nat.size x = Nat.size y := hsx.trans hsy.symm
  refine ⟨(isAncestor_shiftRight_size_xor_left hx0 hxy).trans hxa,
    (isAncestor_shiftRight_size_xor_right hx0 hxy).trans hyb, fun d hda hdb => ?_⟩
  -- a common ancestor is no deeper than `m`, so it is a common ancestor of `x` and `y`
  have hdm : Nat.size d ≤ m := le_min hda.1 hdb.1
  have hdx : IsAncestor d x := hda.of_size_le hxa (by omega)
  have hdy : IsAncestor d y := hdb.of_size_le hyb (by omega)
  rw [size_shiftRight]
  exact hdx.size_le_of_common hxy hdy

end Sequencer.HeapIndex
