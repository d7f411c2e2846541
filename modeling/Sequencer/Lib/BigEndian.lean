/-
# Big-endian numerals

A number written as a string of digits in base `b`, most significant first.  `ofDigitsBe` reads
such a string; `toDigitsBe b w x` writes the `w` low digits of `x`, padded with zeros.  Reading
what was written gives back the value modulo `b ^ w` (`ofDigitsBe_toDigitsBe`), so the value
itself when it fits.  Reading a concatenation shifts the first part by the length of the
second (`ofDigitsBe_append`).

Bytes are the digits of base 256 (`ofBytesBe`, `toBytesBe`), and hexadecimal numerals those of
base 16, written with `Nat.digitChar`: `ofHexDigits` reads one, and it reads back the minimal
numeral `Nat.toDigits 16 x` (`ofHexDigits_toDigits`) as well as a padded one
(`ofHexDigits_toDigitsBe`).  Nothing here names the program it is used for.
-/
import Mathlib.Algebra.Order.Group.Nat
import Mathlib.Data.List.Basic
import Mathlib.Tactic.IntervalCases
import Mathlib.Tactic.Ring

namespace Sequencer.BigEndian

/-! ## 1. Digits in base `b` -/

/-- The number a string of digits denotes, most significant first. -/
def ofDigitsBe (b : Nat) (ds : List Nat) : Nat := ds.foldl (fun acc d => acc * b + d) 0

/-- The `w` low digits of `x`, most significant first. -/
def toDigitsBe (b w x : Nat) : List Nat := (List.range w).reverse.map fun i => x / b ^ i % b

variable {b : Nat}

/-- Reading on from an accumulator shifts it past the digits read. -/
theorem foldl_digits (ds : List Nat) (acc : Nat) :
    ds.foldl (fun acc d => acc * b + d) acc = acc * b ^ ds.length + ofDigitsBe b ds := by
  induction ds generalizing acc with
  | nil => simp [ofDigitsBe]
  | cons d ds ih =>
    have hcons : ofDigitsBe b (d :: ds) = d * b ^ ds.length + ofDigitsBe b ds := by
      show ds.foldl _ (0 * b + d) = _
      rw [ih, Nat.zero_mul, Nat.zero_add]
    rw [List.foldl_cons, ih, hcons, List.length_cons, Nat.pow_succ]
    ring

@[simp] theorem ofDigitsBe_nil : ofDigitsBe b [] = 0 := rfl

theorem ofDigitsBe_append (xs ys : List Nat) :
    ofDigitsBe b (xs ++ ys) = ofDigitsBe b xs * b ^ ys.length + ofDigitsBe b ys := by
  rw [ofDigitsBe, List.foldl_append, foldl_digits]
  rfl

theorem ofDigitsBe_cons (d : Nat) (ds : List Nat) :
    ofDigitsBe b (d :: ds) = d * b ^ ds.length + ofDigitsBe b ds := by
  rw [← List.singleton_append, ofDigitsBe_append]
  simp [ofDigitsBe]

@[simp] theorem length_toDigitsBe (w x : Nat) : (toDigitsBe b w x).length = w := by
  simp [toDigitsBe]

theorem toDigitsBe_succ (w x : Nat) :
    toDigitsBe b (w + 1) x = x / b ^ w % b :: toDigitsBe b w x := by
  simp [toDigitsBe, List.range_succ]

theorem toDigitsBe_lt (hb : 0 < b) {w x d : Nat} (hd : d ∈ toDigitsBe b w x) : d < b := by
  simp only [toDigitsBe, List.mem_map, List.mem_reverse, List.mem_range] at hd
  obtain ⟨i, -, rfl⟩ := hd
  exact Nat.mod_lt _ hb

/-- **Reading what was written**: the value modulo `b ^ w`. -/
theorem ofDigitsBe_toDigitsBe (w x : Nat) :
    ofDigitsBe b (toDigitsBe b w x) = x % b ^ w := by
  induction w with
  | zero => simp [toDigitsBe, Nat.mod_one]
  | succ w ih =>
    rw [toDigitsBe_succ, ofDigitsBe_cons, length_toDigitsBe, ih, Nat.pow_succ, Nat.mod_mul]
    ring

theorem ofDigitsBe_toDigitsBe_of_lt {w x : Nat} (hx : x < b ^ w) :
    ofDigitsBe b (toDigitsBe b w x) = x := by
  rw [ofDigitsBe_toDigitsBe, Nat.mod_eq_of_lt hx]

/-! ## 2. Bytes -/

/-- The number a string of bytes denotes, most significant first. -/
def ofBytesBe (bytes : List UInt8) : Nat := ofDigitsBe 256 (bytes.map UInt8.toNat)

/-- The `w` low bytes of `x`, most significant first. -/
def toBytesBe (w x : Nat) : List UInt8 := (toDigitsBe 256 w x).map UInt8.ofNat

@[simp] theorem length_toBytesBe (w x : Nat) : (toBytesBe w x).length = w := by
  simp [toBytesBe]

theorem ofBytesBe_append (xs ys : List UInt8) :
    ofBytesBe (xs ++ ys) = ofBytesBe xs * 256 ^ ys.length + ofBytesBe ys := by
  simp [ofBytesBe, ofDigitsBe_append]

theorem ofBytesBe_toBytesBe (w x : Nat) : ofBytesBe (toBytesBe w x) = x % 256 ^ w := by
  have hdigits : (toBytesBe w x).map UInt8.toNat = toDigitsBe 256 w x := by
    rw [toBytesBe, List.map_map]
    -- every digit is below 256, so it is its own byte
    refine (List.map_congr_left fun d hd => ?_).trans (List.map_id _)
    have := toDigitsBe_lt (by decide) hd
    simp [UInt8.toNat_ofNat', Nat.mod_eq_of_lt this]
  rw [ofBytesBe, hdigits, ofDigitsBe_toDigitsBe]

theorem ofBytesBe_lt (bytes : List UInt8) : ofBytesBe bytes < 256 ^ bytes.length := by
  induction bytes with
  | nil => simp [ofBytesBe]
  | cons byte bytes ih =>
    have hbyte := byte.toNat_lt
    simp only [ofBytesBe, List.map_cons, ofDigitsBe_cons, List.length_map] at ih ⊢
    rw [List.length_cons, Nat.pow_succ]
    have : (byte.toNat + 1) * 256 ^ bytes.length ≤ 256 * 256 ^ bytes.length :=
      Nat.mul_le_mul_right _ hbyte
    rw [Nat.add_mul, Nat.one_mul] at this
    rw [Nat.mul_comm (256 ^ bytes.length)]
    omega

/-! ## 3. Hexadecimal numerals -/

/-- The value of a hexadecimal digit, either case. -/
def hexDigitValue (c : Char) : Option Nat :=
  if '0' ≤ c ∧ c ≤ '9' then some (c.toNat - '0'.toNat)
  else if 'a' ≤ c ∧ c ≤ 'f' then some (c.toNat - 'a'.toNat + 10)
  else if 'A' ≤ c ∧ c ≤ 'F' then some (c.toNat - 'A'.toNat + 10)
  else none

/-- The value of a hexadecimal numeral, or `none` at a character that is not a digit. -/
def ofHexDigits (cs : List Char) : Option Nat :=
  cs.foldlM (fun acc c => (hexDigitValue c).map (acc * 16 + ·)) 0

theorem hexDigitValue_digitChar {d : Nat} (hd : d < 16) : hexDigitValue d.digitChar = some d := by
  interval_cases d <;> rfl

theorem foldlM_hexDigits_digitChar (ds : List Nat) (hds : ∀ d ∈ ds, d < 16) (acc : Nat) :
    (ds.map Nat.digitChar).foldlM (fun acc c => (hexDigitValue c).map (acc * 16 + ·)) acc =
      some (ds.foldl (fun acc d => acc * 16 + d) acc) := by
  induction ds generalizing acc with
  | nil => rfl
  | cons d ds ih =>
    have hd : hexDigitValue d.digitChar = some d := hexDigitValue_digitChar (hds d (.head _))
    simp only [List.map_cons, List.foldlM_cons, hd, Option.map_some, Option.bind_eq_bind,
      Option.bind_some, List.foldl_cons]
    exact ih (fun d' hd' => hds d' (.tail _ hd')) _

/-- A padded numeral reads back as its value modulo `16 ^ w`. -/
theorem ofHexDigits_toDigitsBe (w x : Nat) :
    ofHexDigits ((toDigitsBe 16 w x).map Nat.digitChar) = some (x % 16 ^ w) := by
  rw [ofHexDigits, foldlM_hexDigits_digitChar _ (fun _ hd => toDigitsBe_lt (by decide) hd)]
  rw [← ofDigitsBe, ofDigitsBe_toDigitsBe]

/-- The minimal numeral `Nat.toDigits 16 x` reads back as `x`. -/
theorem ofHexDigits_toDigits (x : Nat) : ofHexDigits (Nat.toDigits 16 x) = some x := by
  induction x using Nat.base_induction 16 (by decide) with
  | single m hm =>
    rw [Nat.toDigits_of_lt_base hm]
    simp [ofHexDigits, hexDigitValue_digitChar hm]
  | digit m k hk hm ih =>
    rw [← Nat.toDigits_append_toDigits (by decide) hm hk, Nat.toDigits_of_lt_base hk, ofHexDigits,
      List.foldlM_append, ← ofHexDigits, ih]
    simp [hexDigitValue_digitChar hk, Nat.mul_comm]

end Sequencer.BigEndian
