/-
# Compressed binary tries over fixed-width keys

Keys are numbers read as `d`-bit paths, the most significant bit first (`bit`).  The canonical
compressed trie of a set of keys below depth `h` (`IsCanonical`): one key at depth `d` is a leaf;
keys that differ on the next bit split into a binary node over the two halves; keys that agree on
the next bits follow them as one edge, as far as they all agree.  The keys determine the trie
(`IsCanonical.unique`).  `Trie.hash` is the Patricia hash of a trie, over a hash of two values.

The second half is about the key sets such tries are built over in practice: ranges `[a, b)` that
hang below one node at depth `h` (`Aligned`: `a` starts a block of `2 ^ (d - h)` keys and `b`
stays in it).  The next bit splits such a range at `a + 2 ^ (d - h - 1)` (`Aligned.bit_eq`), and
when it does not split it, the bits all its keys agree on next are the leading zeros of its last
key (`Aligned.isCanonical_edge`).  Nothing here names the program it is used for.
-/
import Mathlib.Order.Interval.Finset.Nat
import Mathlib.Data.Nat.Cast.Defs
import Mathlib.Algebra.Group.Nat.Defs
import Mathlib.Tactic.Ring

namespace Sequencer.BinaryTrie

variable {V F : Type}

/-! ## 1. Tries and their hash -/

/-- A compressed binary trie: leaves, binary nodes, and edges labelled with the path they skip. -/
inductive Trie (V : Type) where
  | leaf (value : V)
  | binary (zero one : Trie V)
  | edge (path : List Bool) (child : Trie V)
  deriving Repr, DecidableEq

/-- The number a path spells, its first bit the most significant. -/
def pathValue (path : List Bool) : Nat := path.foldl (fun acc b => 2 * acc + b.toNat) 0

@[simp] theorem pathValue_replicate_false (L : Nat) : pathValue (List.replicate L false) = 0 := by
  induction L with
  | zero => rfl
  | succ L ih =>
    rw [pathValue, List.replicate_succ, List.foldl_cons]
    exact ih

/-- The Patricia hash of a trie: a leaf hashes to its value, a binary node to the hash of its two
children, an edge to the hash of its child and its path, plus its length. -/
def Trie.hash [AddMonoidWithOne F] (H : F → F → F) : Trie F → F
  | .leaf value => value
  | .binary zero one => H (zero.hash H) (one.hash H)
  | .edge path child => H (child.hash H) (pathValue path) + path.length

/-- The bit of key `k` at depth `i` of a trie of height `d`, the most significant first. -/
def bit (d k i : Nat) : Bool := k.testBit (d - 1 - i)

/-! ## 2. The canonical trie of a set of keys -/

section Canonical

variable (d : Nat) (val : Nat → V)

/-- `t` is the canonical compressed trie, below depth `h`, of the keys `S` with values `val`. -/
inductive IsCanonical : Finset Nat → Nat → Trie V → Prop
  /-- one key at the bottom -/
  | leaf {S : Finset Nat} {k : Nat} : S = {k} → IsCanonical S d (.leaf (val k))
  /-- keys that differ on the next bit -/
  | binary {S : Finset Nat} {h : Nat} {t₀ t₁ : Trie V} : h < d →
      IsCanonical (S.filter fun k => bit d k h = false) (h + 1) t₀ →
      IsCanonical (S.filter fun k => bit d k h = true) (h + 1) t₁ →
      IsCanonical S h (.binary t₀ t₁)
  /-- keys that agree on the next bits, as far as they all do -/
  | edge {S : Finset Nat} {h : Nat} {path : List Bool} {t : Trie V} : h < d → path ≠ [] →
      h + path.length ≤ d →
      (∀ k ∈ S, ∀ (i : Nat) (hi : i < path.length), bit d k (h + i) = path[i]) →
      (h + path.length < d →
        ∃ k ∈ S, ∃ k' ∈ S, bit d k (h + path.length) ≠ bit d k' (h + path.length)) →
      IsCanonical S (h + path.length) t →
      IsCanonical S h (.edge path t)

variable {d val}

/-- A canonical trie has keys. -/
theorem IsCanonical.nonempty {S : Finset Nat} {h : Nat} {t : Trie V}
    (hc : IsCanonical d val S h t) : S.Nonempty := by
  induction hc with
  | leaf hS => exact hS ▸ Finset.singleton_nonempty _
  | binary _ _ _ ih₀ _ => exact ih₀.mono (Finset.filter_subset _ _)
  | edge _ _ _ _ _ _ ih => exact ih

/-- Two paths that all keys of a set follow are one path, when neither can be extended. -/
theorem path_eq_of_agree {S : Finset Nat} {h : Nat} {p p' : List Bool} (hS : S.Nonempty)
    (hle : h + p.length ≤ d) (hle' : h + p'.length ≤ d)
    (hp : ∀ k ∈ S, ∀ (i : Nat) (hi : i < p.length), bit d k (h + i) = p[i])
    (hp' : ∀ k ∈ S, ∀ (i : Nat) (hi : i < p'.length), bit d k (h + i) = p'[i])
    (hmax : h + p.length < d →
      ∃ k ∈ S, ∃ k' ∈ S, bit d k (h + p.length) ≠ bit d k' (h + p.length))
    (hmax' : h + p'.length < d →
      ∃ k ∈ S, ∃ k' ∈ S, bit d k (h + p'.length) ≠ bit d k' (h + p'.length)) :
    p = p' := by
  -- a shorter path stops where the longer one says all keys still agree
  have hlen : p.length = p'.length := by
    by_contra hne
    rcases Nat.lt_or_gt_of_ne hne with hlt | hlt
    · obtain ⟨k, hk, k', hk', hdiff⟩ := hmax (by omega)
      exact hdiff ((hp' k hk _ hlt).trans (hp' k' hk' _ hlt).symm)
    · obtain ⟨k, hk, k', hk', hdiff⟩ := hmax' (by omega)
      exact hdiff ((hp k hk _ hlt).trans (hp k' hk' _ hlt).symm)
  obtain ⟨k, hk⟩ := hS
  exact List.ext_getElem hlen fun i hi hi' => (hp k hk i hi).symm.trans (hp' k hk i hi')

/-- Keys that all follow a path from depth `h` on have no canonical trie on both sides of the
path's first bit. -/
theorem IsCanonical.not_split {S : Finset Nat} {h : Nat} {path : List Bool} {t₀ t₁ : Trie V}
    (hne : path ≠ [])
    (hagree : ∀ k ∈ S, ∀ (i : Nat) (hi : i < path.length), bit d k (h + i) = path[i])
    (hc₀ : IsCanonical d val (S.filter fun k => bit d k h = false) (h + 1) t₀)
    (hc₁ : IsCanonical d val (S.filter fun k => bit d k h = true) (h + 1) t₁) : False := by
  have h0 : 0 < path.length := List.length_pos_of_ne_nil hne
  -- the side the path does not take still has a key
  cases hfirst : path[0] with
  | false =>
    obtain ⟨k, hk⟩ := hc₁.nonempty
    rw [Finset.mem_filter] at hk
    have := hagree k hk.1 0 h0
    simp [hfirst, hk.2] at this
  | true =>
    obtain ⟨k, hk⟩ := hc₀.nonempty
    rw [Finset.mem_filter] at hk
    have := hagree k hk.1 0 h0
    simp [hfirst, hk.2] at this

/-- **The keys determine their canonical trie.**  By induction on one derivation: the other
must take the same case, since a leaf sits at depth `d`, a binary node needs keys on both sides
of the next bit, and an edge needs all of them on one side. -/
theorem IsCanonical.unique {S : Finset Nat} {h : Nat} {t t' : Trie V}
    (hc : IsCanonical d val S h t) (hc' : IsCanonical d val S h t') : t = t' := by
  induction hc generalizing t' with
  | leaf hS =>
    cases hc' with
    | leaf hS' => rw [Finset.singleton_inj.mp (hS.symm.trans hS')]
    | binary hd _ _ => exact absurd hd (lt_irrefl _)
    | edge hd _ _ _ _ _ => exact absurd hd (lt_irrefl _)
  | binary hd hc₀ hc₁ ih₀ ih₁ =>
    cases hc' with
    | leaf _ => exact absurd hd (lt_irrefl _)
    | binary _ h₀ h₁ => rw [ih₀ h₀, ih₁ h₁]
    | edge _ hne _ hagree _ _ => exact (IsCanonical.not_split hne hagree hc₀ hc₁).elim
  | edge hd hne hle hagree hmax hc ih =>
    cases hc' with
    | leaf _ => exact absurd hd (lt_irrefl _)
    | binary _ hc₀ hc₁ => exact (IsCanonical.not_split hne hagree hc₀ hc₁).elim
    | edge _ _ hle' hagree' hmax' hc' =>
      obtain rfl := path_eq_of_agree hc.nonempty hle hle' hagree hagree' hmax hmax'
      rw [ih hc']

end Canonical

/-! ## 3. Bits of aligned ranges -/

/-- Inside a block of `2 ^ w` keys starting at a multiple of `2 ^ w`, the low `w` bits of a key
are those of its offset in the block. -/
theorem testBit_of_aligned {w a k j : Nat} (hdvd : 2 ^ w ∣ a) (hak : a ≤ k) (hk : k < a + 2 ^ w)
    (hj : j < w) : k.testBit j = (k - a).testBit j := by
  obtain ⟨q, rfl⟩ := hdvd
  have hk' : k = 2 ^ w * q + (k - 2 ^ w * q) := by omega
  rw [hk', Nat.testBit_two_pow_mul_add _ (by omega), if_pos hj, Nat.add_sub_cancel_left]

/-- The top bit of a number below `2 ^ (m + 1)` says whether it reaches `2 ^ m`. -/
theorem testBit_eq_decide_le {x m : Nat} (hx : x < 2 ^ (m + 1)) :
    x.testBit m = decide (2 ^ m ≤ x) := by
  by_cases h : x < 2 ^ m
  · rw [Nat.testBit_lt_two_pow h, decide_eq_false (Nat.not_le.mpr h)]
  · have hx' : x = 2 ^ m + (x - 2 ^ m) := by omega
    have hlow : x - 2 ^ m < 2 ^ m := by
      rw [Nat.pow_succ] at hx
      omega
    rw [hx', Nat.testBit_two_pow_add_eq, Nat.testBit_lt_two_pow hlow, decide_eq_true (by omega)]
    rfl

/-- A number below `2 ^ w` whose top `L` bits are zero is below `2 ^ (w - L)`. -/
theorem lt_two_pow_of_top_zeros {x w L : Nat} (hx : x < 2 ^ w) (hL : L ≤ w)
    (hz : ∀ i < L, x.testBit (w - 1 - i) = false) : x < 2 ^ (w - L) := by
  refine Nat.lt_pow_two_of_testBit x fun j hj => ?_
  by_cases hjw : j < w
  · have := hz (w - 1 - j) (by omega)
    rwa [show w - 1 - (w - 1 - j) = j by omega] at this
  · exact Nat.testBit_lt_two_pow (lt_of_lt_of_le hx (Nat.pow_le_pow_right (by decide) (by omega)))

/-- The keys `[a, b)` hang below one node at depth `h`: `a` starts a block of `2 ^ (d - h)` keys
and `b` stays inside it. -/
structure Aligned (d h a b : Nat) : Prop where
  lt : a < b
  dvd : 2 ^ (d - h) ∣ a
  le : b ≤ a + 2 ^ (d - h)

section Aligned

variable {d h a b : Nat}

/-- At the bottom a range holds one key. -/
theorem Aligned.eq_singleton (ha : Aligned d d a b) : Finset.Ico a b = {a} := by
  have hle := ha.le
  rw [Nat.sub_self, Nat.pow_zero] at hle
  have hb : b = a + 1 := by
    have := ha.lt
    omega
  rw [hb, Nat.Ico_succ_singleton]

/-- The bit of a key of the range at a depth from `h` on is that of its offset from `a`. -/
theorem Aligned.bit_eq_testBit_sub (ha : Aligned d h a b) {k j : Nat} (hk : k ∈ Finset.Ico a b)
    (hhj : h ≤ j) (hjd : j < d) : bit d k j = (k - a).testBit (d - 1 - j) := by
  rw [Finset.mem_Ico] at hk
  exact testBit_of_aligned ha.dvd hk.1 (by have := ha.le; omega) (by omega)

/-- **The next bit splits the range at `a + 2 ^ (d - h - 1)`.** -/
theorem Aligned.bit_eq (ha : Aligned d h a b) (hd : h < d) {k : Nat} (hk : k ∈ Finset.Ico a b) :
    bit d k h = decide (a + 2 ^ (d - h - 1) ≤ k) := by
  rw [ha.bit_eq_testBit_sub hk le_rfl hd]
  rw [Finset.mem_Ico] at hk
  have hoff : k - a < 2 ^ (d - 1 - h + 1) := by
    rw [show d - 1 - h + 1 = d - h by omega]
    have := ha.le
    omega
  rw [testBit_eq_decide_le hoff, show d - 1 - h = d - h - 1 by omega]
  exact decide_eq_decide.mpr (by omega)

theorem Aligned.filter_false (ha : Aligned d h a b) (hd : h < d) :
    (Finset.Ico a b).filter (fun k => bit d k h = false) =
      Finset.Ico a (min b (a + 2 ^ (d - h - 1))) := by
  ext k
  rw [Finset.mem_filter]
  constructor
  · rintro ⟨hk, hbit⟩
    rw [ha.bit_eq hd hk, decide_eq_false_iff_not] at hbit
    rw [Finset.mem_Ico] at hk ⊢
    omega
  · intro hk
    have hk' : k ∈ Finset.Ico a b := by
      rw [Finset.mem_Ico] at hk ⊢
      omega
    refine ⟨hk', ?_⟩
    rw [ha.bit_eq hd hk', decide_eq_false_iff_not]
    rw [Finset.mem_Ico] at hk
    omega

theorem Aligned.filter_true (ha : Aligned d h a b) (hd : h < d) :
    (Finset.Ico a b).filter (fun k => bit d k h = true) = Finset.Ico (a + 2 ^ (d - h - 1)) b := by
  ext k
  rw [Finset.mem_filter]
  constructor
  · rintro ⟨hk, hbit⟩
    rw [ha.bit_eq hd hk, decide_eq_true_iff] at hbit
    rw [Finset.mem_Ico] at hk ⊢
    omega
  · intro hk
    have hk' : k ∈ Finset.Ico a b := by
      have := Nat.two_pow_pos (d - h - 1)
      rw [Finset.mem_Ico] at hk ⊢
      omega
    refine ⟨hk', ?_⟩
    rw [ha.bit_eq hd hk', decide_eq_true_iff]
    rw [Finset.mem_Ico] at hk
    omega

/-- The half of the block `2 ^ (d - h)` is a block one level down. -/
theorem two_pow_half (hd : h < d) : 2 ^ (d - h) = 2 ^ (d - (h + 1)) + 2 ^ (d - (h + 1)) := by
  rw [show d - h = d - (h + 1) + 1 by omega, Nat.pow_succ]
  omega

/-- The keys below the split hang below the `0` child. -/
theorem Aligned.lower (ha : Aligned d h a b) (hd : h < d) :
    Aligned d (h + 1) a (a + 2 ^ (d - h - 1)) where
  lt := by have := Nat.one_le_two_pow (n := d - h - 1); omega
  dvd := (Nat.pow_dvd_pow 2 (by omega)).trans ha.dvd
  le := by rw [show d - (h + 1) = d - h - 1 by omega]

/-- The keys from the split on hang below the `1` child. -/
theorem Aligned.upper (ha : Aligned d h a b) (hd : h < d) (hsplit : a + 2 ^ (d - h - 1) < b) :
    Aligned d (h + 1) (a + 2 ^ (d - h - 1)) b where
  lt := hsplit
  dvd := by
    have hhalf := two_pow_half hd
    rw [show d - h - 1 = d - (h + 1) by omega]
    obtain ⟨q, hq⟩ := ha.dvd
    exact ⟨2 * q + 1, by rw [hq, hhalf]; ring⟩
  le := by
    have := two_pow_half hd
    have := ha.le
    rw [show d - h - 1 = d - (h + 1) by omega]
    omega

/-- A range whose last key has `L` zeros after depth `h` hangs below depth `h + L`. -/
theorem Aligned.zeros (ha : Aligned d h a b) {L : Nat} (hL : h + L ≤ d)
    (hz : ∀ i < L, bit d (b - 1) (h + i) = false) : Aligned d (h + L) a b where
  lt := ha.lt
  dvd := (Nat.pow_dvd_pow 2 (by omega)).trans ha.dvd
  le := by
    have hlast : b - 1 ∈ Finset.Ico a b := by
      have := ha.lt
      rw [Finset.mem_Ico]
      omega
    -- the offset of the last key has its top `L` bits zero
    have hoff : b - 1 - a < 2 ^ (d - h - L) := by
      refine lt_two_pow_of_top_zeros (by have := ha.le; have := ha.lt; omega) (by omega)
        fun i hi => ?_
      have := hz i hi
      rw [ha.bit_eq_testBit_sub hlast (by omega) (by omega)] at this
      rwa [show d - h - 1 - i = d - 1 - (h + i) by omega]
    have := ha.lt
    rw [show d - (h + L) = d - h - L by omega]
    omega

/-- Below a range that hangs deeper, at depth `h'`, its keys agree on the bits from `h` to `h'`:
they are zeros. -/
theorem Aligned.bit_eq_false (ha : Aligned d h a b) {h' : Nat} (ha' : Aligned d h' a b)
    (hh' : h' ≤ d) {k j : Nat} (hk : k ∈ Finset.Ico a b) (hhj : h ≤ j) (hjh' : j < h') :
    bit d k j = false := by
  rw [ha.bit_eq_testBit_sub hk hhj (by omega)]
  rw [Finset.mem_Ico] at hk
  have hoff : k - a < 2 ^ (d - h') := by
    have := ha'.le
    omega
  exact Nat.testBit_lt_two_pow (lt_of_lt_of_le hoff (Nat.pow_le_pow_right (by decide) (by omega)))

variable (val : Nat → V)

/-- **An edge of zeros.**  When the next bit does not split the range, its keys agree on as many
bits as its last key has zeros, and the last key's next bit, a one, is where the first key's zero
differs. -/
theorem Aligned.isCanonical_edge (ha : Aligned d h a b) {L : Nat} (hL0 : 0 < L) (hL : h + L ≤ d)
    (hz : ∀ i < L, bit d (b - 1) (h + i) = false)
    (hone : h + L < d → bit d (b - 1) (h + L) = true) {t : Trie V}
    (ht : IsCanonical d val (Finset.Ico a b) (h + L) t) :
    IsCanonical d val (Finset.Ico a b) h (.edge (List.replicate L false) t) := by
  have ha' := ha.zeros hL hz
  have hlast : b - 1 ∈ Finset.Ico a b := by
    have := ha.lt
    rw [Finset.mem_Ico]
    omega
  have hfirst : a ∈ Finset.Ico a b := Finset.mem_Ico.mpr ⟨le_rfl, ha.lt⟩
  refine .edge (by omega) (by simp; omega) (by simpa using hL) (fun k hk i hi => ?_)
    (fun hlt => ?_) (by simpa using ht)
  · rw [List.length_replicate] at hi
    rw [List.getElem_replicate]
    exact ha.bit_eq_false ha' hL hk (by omega) (by omega)
  · -- the first key has a zero where the last has a one
    rw [List.length_replicate] at hlt ⊢
    refine ⟨a, hfirst, b - 1, hlast, ?_⟩
    rw [hone hlt, ha'.bit_eq_testBit_sub hfirst (by omega) hlt, Nat.sub_self,
      Nat.zero_testBit]
    decide

end Aligned

end Sequencer.BinaryTrie
