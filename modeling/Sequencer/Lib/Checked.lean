/-
# Checked and saturating arithmetic of unsigned machine integers

A `w`-bit unsigned integer is a natural number up to `uMax w`.  Rust's `checked_add` and
`checked_mul` return `None` where the exact result leaves that range, and `saturating_add` and
`saturating_mul` clamp it to `uMax w`.  A program that `expect`s or `unwrap_or_else(panic!)`s a
checked result panics exactly where the checked operation is `none`.

The lemmas say what a successful checked operation computed, and how a clamp compares with the
exact value: the facts a bound on a fee or an amount needs.

Where a panic carries a message, the computation is an `Except String`: `expect` turns a `none`
into its message, and plain `+` and `-` panic on overflow as they do in a debug build.
-/
import Mathlib.Algebra.Group.Nat.Defs
import Mathlib.Order.MinMax
import Mathlib.Tactic.SplitIfs

namespace Sequencer

/-- The largest `w`-bit unsigned integer. -/
def uMax (w : Nat) : Nat := 2 ^ w - 1

/-- `checked_add` of `w`-bit unsigned integers. -/
def checkedAdd (w a b : Nat) : Option Nat := if a + b ≤ uMax w then some (a + b) else none

/-- `checked_mul` of `w`-bit unsigned integers. -/
def checkedMul (w a b : Nat) : Option Nat := if a * b ≤ uMax w then some (a * b) else none

/-- `uW::try_from` of a wider value: `none` where it does not fit in `w` bits. -/
def tryFrom (w x : Nat) : Option Nat := if x ≤ uMax w then some x else none

/-- `Option::expect`: the value, or a panic with the message. -/
def expect {α : Type} (o : Option α) (msg : String) : Except String α :=
  match o with
  | some a => .ok a
  | none => .error msg

/-- `a + b` of `w`-bit unsigned integers in a debug build. -/
def uAdd (w a b : Nat) : Except String Nat := expect (checkedAdd w a b) "attempt to add with overflow"

/-- `a - b` of unsigned integers in a debug build. -/
def uSub (a b : Nat) : Except String Nat :=
  if b ≤ a then .ok (a - b) else .error "attempt to subtract with overflow"

/-- `saturating_add` of `w`-bit unsigned integers. -/
def saturatingAdd (w a b : Nat) : Nat := min (a + b) (uMax w)

/-- `saturating_mul` of `w`-bit unsigned integers. -/
def saturatingMul (w a b : Nat) : Nat := min (a * b) (uMax w)

variable {w a b c : Nat}

@[simp] theorem checkedAdd_eq_some : checkedAdd w a b = some c ↔ c = a + b ∧ a + b ≤ uMax w := by
  unfold checkedAdd
  split_ifs with h
  · simp [h, eq_comm]
  · simp [h]

@[simp] theorem checkedMul_eq_some : checkedMul w a b = some c ↔ c = a * b ∧ a * b ≤ uMax w := by
  unfold checkedMul
  split_ifs with h
  · simp [h, eq_comm]
  · simp [h]

@[simp] theorem tryFrom_eq_some : tryFrom w a = some c ↔ c = a ∧ a ≤ uMax w := by
  unfold tryFrom
  split_ifs with h
  · simp [h, eq_comm]
  · simp [h]

@[simp] theorem expect_eq_ok {α : Type} {o : Option α} {msg : String} {x : α} :
    expect o msg = .ok x ↔ o = some x := by
  cases o <;> simp [expect]

@[simp] theorem uAdd_eq_ok : uAdd w a b = .ok c ↔ c = a + b ∧ a + b ≤ uMax w := by
  simp [uAdd]

@[simp] theorem uSub_eq_ok : uSub a b = .ok c ↔ c = a - b ∧ b ≤ a := by
  unfold uSub
  split_ifs with h
  · simp [h, eq_comm]
  · simp [h]

/-- A value in range that the exact product bounds is bounded by the saturated product. -/
theorem le_saturatingMul {x : Nat} (hx : x ≤ uMax w) (h : x ≤ a * b) : x ≤ saturatingMul w a b :=
  le_min h hx

end Sequencer
