/-
# Gas, prices and bounds (`starknet_api`: `execution_resources.rs`, `block.rs`, `transaction.rs`)

A `GasAmount` is a `u64`, a `GasPrice` and a `Fee` are `u128`s; all are numbers here, and every
operation the source checks is checked against the same width (`Lib/Checked.lean`): `none` is the
`panic!` the source reaches on overflow.  A `NonzeroGasPrice` carries its positivity, so no
division by one can fail for that reason.

The two facts the fee bounds rest on are stated next to the functions:

* `cost_eq_some`: a cost that does not overflow is the exact `Σ amount · price`;
* `mul_toDiscountedL1Gas`: the L1 gas price times the discounted L1 gas is at least the L1 and
  L1-data part of that cost, because the data part is divided by the price ROUNDING UP.
-/
import Sequencer.Lib.Checked
import Mathlib.Tactic.SplitIfs

namespace Sequencer.Fee

/-- `NonzeroGasPrice`. -/
structure NonzeroGasPrice where
  get : Nat
  pos : 0 < get
  deriving DecidableEq

/-- `GasVector`. -/
structure GasVector where
  l1Gas : Nat
  l1DataGas : Nat
  l2Gas : Nat
  deriving DecidableEq, Repr

/-- `GasPriceVector`. -/
structure GasPriceVector where
  l1GasPrice : NonzeroGasPrice
  l1DataGasPrice : NonzeroGasPrice
  l2GasPrice : NonzeroGasPrice
  deriving DecidableEq

namespace GasVector

/-- `GasVector::ZERO`. -/
def zero : GasVector := ⟨0, 0, 0⟩

/-- `GasVector::from_l1_gas`. -/
def fromL1Gas (l1Gas : Nat) : GasVector := ⟨l1Gas, 0, 0⟩

/-- `GasVector::from_l2_gas`. -/
def fromL2Gas (l2Gas : Nat) : GasVector := ⟨0, 0, l2Gas⟩

/-- `GasVector::checked_add`. -/
def checkedAdd (a b : GasVector) : Option GasVector :=
  match Sequencer.checkedAdd 64 a.l1Gas b.l1Gas, Sequencer.checkedAdd 64 a.l1DataGas b.l1DataGas,
      Sequencer.checkedAdd 64 a.l2Gas b.l2Gas with
  | some l1Gas, some l1DataGas, some l2Gas => some ⟨l1Gas, l1DataGas, l2Gas⟩
  | _, _, _ => none

/-- `GasVector::cost`: the loop over the three resources, each product and each partial sum a
checked `u128` operation. -/
def cost (g : GasVector) (gasPrices : GasPriceVector) : Option Nat :=
  [(g.l1Gas, gasPrices.l1GasPrice), (g.l1DataGas, gasPrices.l1DataGasPrice),
      (g.l2Gas, gasPrices.l2GasPrice)].foldlM
    (fun sum (gas, price) => do
      let cost ← checkedMul 128 gas price.get
      Sequencer.checkedAdd 128 sum cost) 0

end GasVector

/-- `Fee::checked_div`: the floor of the quotient, if it fits a `GasAmount`. -/
def checkedDiv (fee : Nat) (price : NonzeroGasPrice) : Option Nat :=
  if fee / price.get ≤ uMax 64 then some (fee / price.get) else none

/-- `Fee::checked_div_ceil`: the floor, plus one if the division left a remainder.  The `+ 1` is
a plain `u64` addition, which overflows only when the floor is `u64::MAX`; like every other
overflow of the fee computations it is a failure here. -/
def checkedDivCeil (fee : Nat) (price : NonzeroGasPrice) : Option Nat := do
  let value ← checkedDiv fee price
  if value * price.get < fee then Sequencer.checkedAdd 64 value 1 else some value

/-- `GasVector::to_discounted_l1_gas`: L1 gas plus the L1 data gas fee in L1 gas units. -/
def GasVector.toDiscountedL1Gas (g : GasVector) (gasPrices : GasPriceVector) : Option Nat := do
  let l1DataGasFee ← checkedMul 128 g.l1DataGas gasPrices.l1DataGasPrice.get
  let l1DataGasInL1GasUnits ← checkedDivCeil l1DataGasFee gasPrices.l1GasPrice
  Sequencer.checkedAdd 64 g.l1Gas l1DataGasInL1GasUnits

/-- `ResourceBounds`. -/
structure ResourceBounds where
  maxAmount : Nat
  maxPricePerUnit : Nat
  deriving DecidableEq, Repr

/-- `ResourceBounds::is_zero`. -/
def ResourceBounds.isZero (b : ResourceBounds) : Bool := b.maxAmount == 0 && b.maxPricePerUnit == 0

/-- `AllResourceBounds`. -/
structure AllResourceBounds where
  l1Gas : ResourceBounds
  l2Gas : ResourceBounds
  l1DataGas : ResourceBounds
  deriving DecidableEq, Repr

/-- `ValidResourceBounds`. -/
inductive ValidResourceBounds
  | l1Gas (bounds : ResourceBounds)
  | allResources (bounds : AllResourceBounds)
  deriving DecidableEq, Repr

/-- `GasVectorComputationMode`. -/
inductive GasVectorComputationMode
  | all
  | noL2Gas
  deriving DecidableEq, Repr

namespace ValidResourceBounds

/-- `max_possible_fee`, in saturating `u128` arithmetic. -/
def maxPossibleFee : ValidResourceBounds → Nat
  | .l1Gas b => saturatingMul 128 b.maxAmount b.maxPricePerUnit
  | .allResources b =>
    saturatingAdd 128
      (saturatingAdd 128 (saturatingMul 128 b.l1Gas.maxAmount b.l1Gas.maxPricePerUnit)
        (saturatingMul 128 b.l2Gas.maxAmount b.l2Gas.maxPricePerUnit))
      (saturatingMul 128 b.l1DataGas.maxAmount b.l1DataGas.maxPricePerUnit)

/-- `get_gas_vector_computation_mode`. -/
def getGasVectorComputationMode : ValidResourceBounds → GasVectorComputationMode
  | .allResources _ => .all
  | .l1Gas _ => .noL2Gas

/-- `get_l2_bounds`: none for an `L1Gas` bound. -/
def getL2Bounds : ValidResourceBounds → ResourceBounds
  | .l1Gas _ => ⟨0, 0⟩
  | .allResources b => b.l2Gas

end ValidResourceBounds

/-! ## What the computations compute -/

theorem GasVector.cost_eq_some {g : GasVector} {gasPrices : GasPriceVector} {fee : Nat}
    (h : g.cost gasPrices = some fee) :
    fee = g.l1Gas * gasPrices.l1GasPrice.get + g.l1DataGas * gasPrices.l1DataGasPrice.get +
        g.l2Gas * gasPrices.l2GasPrice.get ∧ fee ≤ uMax 128 := by
  simp only [cost, List.foldlM_cons, List.foldlM_nil, Option.bind_eq_bind, Option.pure_def,
    Option.bind_eq_some_iff, checkedMul_eq_some, checkedAdd_eq_some, Option.some.injEq] at h
  -- one checked product and one checked partial sum per resource
  obtain ⟨_, ⟨_, ⟨rfl, -⟩, rfl, -⟩, _, ⟨_, ⟨rfl, -⟩, rfl, -⟩, _, ⟨_, ⟨rfl, -⟩, rfl, hle⟩, rfl⟩ := h
  exact ⟨by omega, hle⟩

/-- The L2 gas of a checked sum is the sum of the L2 gas. -/
theorem GasVector.checkedAdd_l2Gas {a b c : GasVector} (h : a.checkedAdd b = some c) :
    c.l2Gas = a.l2Gas + b.l2Gas := by
  unfold checkedAdd at h
  split at h
  · rename_i hl2
    cases h
    exact (checkedAdd_eq_some.mp hl2).1
  · cases h

/-- The rounding up: the price times the quotient covers the dividend. -/
theorem le_mul_checkedDivCeil {fee c : Nat} {price : NonzeroGasPrice}
    (h : checkedDivCeil fee price = some c) : fee ≤ price.get * c := by
  simp only [checkedDivCeil, checkedDiv, Option.bind_eq_bind] at h
  split_ifs at h with hfit
  · simp only [Option.bind_some] at h
    split_ifs at h with hrem
    · -- a remainder: the floor plus one
      rw [checkedAdd_eq_some] at h
      rw [h.1]
      exact (Nat.lt_mul_div_succ fee price.pos).le
    · rw [Option.some.injEq] at h
      rw [← h, Nat.mul_comm]
      exact Nat.le_of_not_lt hrem
  · simp at h

/-- **The discounted L1 gas covers the L1 and L1-data cost at the L1 price.** -/
theorem GasVector.mul_toDiscountedL1Gas {g : GasVector} {gasPrices : GasPriceVector} {d : Nat}
    (h : g.toDiscountedL1Gas gasPrices = some d) :
    g.l1Gas * gasPrices.l1GasPrice.get + g.l1DataGas * gasPrices.l1DataGasPrice.get ≤
      gasPrices.l1GasPrice.get * d := by
  simp only [toDiscountedL1Gas, Option.bind_eq_bind, Option.bind_eq_some_iff,
    checkedMul_eq_some, checkedAdd_eq_some] at h
  obtain ⟨fee, ⟨rfl, -⟩, c, hc, rfl, -⟩ := h
  have hceil := le_mul_checkedDivCeil hc
  rw [Nat.mul_add, Nat.mul_comm gasPrices.l1GasPrice.get g.l1Gas]
  omega

/-- A fee in range that the bounds' exact product covers is within `max_possible_fee`. -/
theorem le_maxPossibleFee_l1Gas {b : ResourceBounds} {fee : Nat} (hfee : fee ≤ uMax 128)
    (h : fee ≤ b.maxAmount * b.maxPricePerUnit) :
    fee ≤ (ValidResourceBounds.l1Gas b).maxPossibleFee :=
  le_saturatingMul hfee h

/-- A fee in range that the bounds' exact sum of products covers is within
`max_possible_fee`: saturating never clamps below a value in range. -/
theorem le_maxPossibleFee_allResources {b : AllResourceBounds} {fee : Nat}
    (hfee : fee ≤ uMax 128)
    (h : fee ≤ b.l1Gas.maxAmount * b.l1Gas.maxPricePerUnit +
      b.l2Gas.maxAmount * b.l2Gas.maxPricePerUnit +
      b.l1DataGas.maxAmount * b.l1DataGas.maxPricePerUnit) :
    fee ≤ (ValidResourceBounds.allResources b).maxPossibleFee := by
  obtain ⟨⟨a₁, p₁⟩, ⟨a₂, p₂⟩, ⟨a₃, p₃⟩⟩ := b
  simp only [ValidResourceBounds.maxPossibleFee, saturatingAdd, saturatingMul] at h ⊢
  generalize a₁ * p₁ = x₁ at h ⊢
  generalize a₂ * p₂ = x₂ at h ⊢
  generalize a₃ * p₃ = x₃ at h ⊢
  omega

end Sequencer.Fee
