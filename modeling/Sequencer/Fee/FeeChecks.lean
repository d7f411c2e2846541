/-
# Fee checks (`blockifier`: `fee/fee_checks.rs`, `fee/fee_utils.rs`, `fee/receipt.rs`,
`fee/resources.rs`, `transaction/account_transaction.rs`)

Before a transaction runs, `check_fee_bounds` compares its bounds with the block's prices and an
estimate of the least gas it needs, and `verify_can_pay_committed_bounds` checks that the
sender's balance covers what it committed to.  After it runs, the receipt prices its gas, and
`PostExecutionReport::new` checks that gas against the bounds and the fee against the balance;
on a failed check it recommends the fee to charge instead.

What the execution consumed enters as the gas amounts that the resource functions of
`fee/resources.rs` compute from it (`TransactionResources`).  Those amounts are priced by
versioned-constants tables this model does not contain, so they are free: every statement below
holds for every value of them.  What the model keeps is how they are assembled into a
`GasVector`: in the `NoL2Gas` mode of L1-gas bounds no component carries L2 gas.
-/
import Sequencer.Fee.Gas
import Mathlib.Tactic.SplitIfs

namespace Sequencer.Fee

/-! ## 1. Transactions and blocks, as the fee computations see them -/

/-- `FeeType`. -/
inductive FeeType
  | strk
  | eth
  deriving DecidableEq, Repr

/-- `Resource`. -/
inductive Resource
  | l1Gas
  | l2Gas
  | l1DataGas
  deriving DecidableEq, Repr

/-- `GasPrices`: a price vector per fee token. -/
structure GasPrices where
  ethGasPrices : GasPriceVector
  strkGasPrices : GasPriceVector
  deriving DecidableEq

/-- `GasPrices::get_gas_prices_by_fee_type`. -/
def GasPrices.getGasPricesByFeeType (p : GasPrices) : FeeType → GasPriceVector
  | .strk => p.strkGasPrices
  | .eth => p.ethGasPrices

/-- `GasPrices::get_l1_gas_price_by_fee_type`. -/
def GasPrices.getL1GasPriceByFeeType (p : GasPrices) (feeType : FeeType) : NonzeroGasPrice :=
  (p.getGasPricesByFeeType feeType).l1GasPrice

/-- `BlockInfo`: the fields the fee computations read. -/
structure BlockInfo where
  gasPrices : GasPrices
  useKzgDa : Bool
  deriving DecidableEq

/-- `TransactionInfo`: a V3 transaction's resource bounds, or a deprecated transaction's version
and max fee, a `u128`. -/
inductive TransactionInfo
  | current (resourceBounds : ValidResourceBounds)
  | deprecated (version : Nat) (maxFee : Nat) (maxFee_le : maxFee ≤ uMax 128)
  deriving DecidableEq

namespace TransactionInfo

/-- `fee_type`: STRK from version 3 on, which is every `Current` transaction. -/
def feeType : TransactionInfo → FeeType
  | .current _ => .strk
  | .deprecated .. => .eth

/-- `enforce_fee`. -/
def enforceFee : TransactionInfo → Bool
  | .current resourceBounds => resourceBounds.maxPossibleFee > 0
  | .deprecated _ maxFee _ => maxFee != 0

/-- `is_v0`. -/
def isV0 : TransactionInfo → Bool
  | .current _ => false
  | .deprecated version .. => version == 0

/-- The `committed_fee` of `verify_can_pay_committed_bounds`: the most the sender agreed to pay. -/
def committedFee : TransactionInfo → Nat
  | .current resourceBounds => resourceBounds.maxPossibleFee
  | .deprecated _ maxFee _ => maxFee

end TransactionInfo

/-- `TransactionContext`. -/
structure TransactionContext where
  blockInfo : BlockInfo
  txInfo : TransactionInfo
  deriving DecidableEq

namespace TransactionContext

/-- `get_gas_prices`: the prices of the transaction's fee token. -/
def getGasPrices (ctx : TransactionContext) : GasPriceVector :=
  ctx.blockInfo.gasPrices.getGasPricesByFeeType ctx.txInfo.feeType

/-- `get_gas_vector_computation_mode`. -/
def getGasVectorComputationMode (ctx : TransactionContext) : GasVectorComputationMode :=
  match ctx.txInfo with
  | .current resourceBounds => resourceBounds.getGasVectorComputationMode
  | .deprecated .. => .noL2Gas

end TransactionContext

/-- `get_fee_by_gas_vector`. -/
def getFeeByGasVector (blockInfo : BlockInfo) (gasVector : GasVector) (feeType : FeeType) :
    Option Nat :=
  gasVector.cost (blockInfo.gasPrices.getGasPricesByFeeType feeType)

/-- The sender's fee-token balance, two storage cells of 128 bits each. -/
structure FeeTokenBalance where
  low : Nat
  high : Nat
  deriving DecidableEq, Repr

/-- `balance_to_big_uint`. -/
def FeeTokenBalance.value (b : FeeTokenBalance) : Nat := b.high * 2 ^ 128 + b.low

/-- The verdict of `get_balance_and_if_covers_fee`. -/
def FeeTokenBalance.coversFee (b : FeeTokenBalance) (fee : Nat) : Bool :=
  b.high > 0 || b.low ≥ fee

/-! ## 2. Pre-validation -/

/-- `TransactionFeeError`, the variants the fee checks return. -/
inductive TransactionFeeError
  | maxGasAmountTooLow (resource : Resource) (maxGasAmount minimalGasAmount : Nat)
  | maxGasPriceTooLow (resource : Resource) (maxGasPrice actualGasPrice : Nat)
  | maxFeeTooLow (minFee maxFee : Nat)
  | gasBoundsExceedBalance (resource : Resource) (maxAmount maxPrice balance : Nat)
  | resourcesBoundsExceedBalance (l1MaxAmount l1MaxPrice l1DataMaxAmount l1DataMaxPrice
      l2MaxAmount l2MaxPrice balance : Nat)
  | maxFeeExceedsBalance (maxFee balance : Nat)
  deriving DecidableEq, Repr

/-- One round of the loop of `check_fee_bounds`: the amount, then the price. -/
def checkResourceBounds (resource : Resource) (resourceBounds : ResourceBounds)
    (minimalGasAmount : Nat) (actualGasPrice : NonzeroGasPrice) : Except TransactionFeeError Unit :=
  if minimalGasAmount > resourceBounds.maxAmount then
    .error (.maxGasAmountTooLow resource resourceBounds.maxAmount minimalGasAmount)
  else if resourceBounds.maxPricePerUnit < actualGasPrice.get then
    .error (.maxGasPriceTooLow resource resourceBounds.maxPricePerUnit actualGasPrice.get)
  else .ok ()

/-- `check_fee_bounds`, given `estimate_minimal_gas_vector`'s estimate. -/
def checkFeeBounds (ctx : TransactionContext) (minimalGasAmountVector : GasVector) :
    Option (Except TransactionFeeError Unit) :=
  match ctx.txInfo with
  | .current (.l1Gas l1GasResourceBounds) => do
    let minimalGasAmount ← minimalGasAmountVector.toDiscountedL1Gas ctx.getGasPrices
    pure (checkResourceBounds .l1Gas l1GasResourceBounds minimalGasAmount
      (ctx.blockInfo.gasPrices.getL1GasPriceByFeeType ctx.txInfo.feeType))
  | .current (.allResources b) =>
    let prices := ctx.blockInfo.gasPrices.getGasPricesByFeeType ctx.txInfo.feeType
    some do
      checkResourceBounds .l1Gas b.l1Gas minimalGasAmountVector.l1Gas prices.l1GasPrice
      checkResourceBounds .l1DataGas b.l1DataGas minimalGasAmountVector.l1DataGas
        prices.l1DataGasPrice
      checkResourceBounds .l2Gas b.l2Gas minimalGasAmountVector.l2Gas prices.l2GasPrice
  | .deprecated _ maxFee _ => do
    let minFee ← getFeeByGasVector ctx.blockInfo minimalGasAmountVector ctx.txInfo.feeType
    pure (if maxFee < minFee then .error (.maxFeeTooLow minFee maxFee) else .ok ())

/-- `verify_can_pay_committed_bounds`, on the balance it reads. -/
def verifyCanPayCommittedBounds (ctx : TransactionContext) (balance : FeeTokenBalance) :
    Except TransactionFeeError Unit :=
  if balance.coversFee ctx.txInfo.committedFee then .ok ()
  else
    .error <| match ctx.txInfo with
      | .current (.l1Gas l1Gas) =>
        .gasBoundsExceedBalance .l1Gas l1Gas.maxAmount l1Gas.maxPricePerUnit balance.value
      | .current (.allResources b) =>
        .resourcesBoundsExceedBalance b.l1Gas.maxAmount b.l1Gas.maxPricePerUnit
          b.l1DataGas.maxAmount b.l1DataGas.maxPricePerUnit b.l2Gas.maxAmount
          b.l2Gas.maxPricePerUnit balance.value
      | .deprecated _ maxFee _ => .maxFeeExceedsBalance maxFee balance.value

/-- The fee part of `perform_pre_validation_stage` (after `handle_nonce`). -/
def performPreValidationStage (ctx : TransactionContext) (minimalGasAmountVector : GasVector)
    (balance : FeeTokenBalance) (chargeFee : Bool) : Option (Except TransactionFeeError Unit) :=
  if chargeFee then
    (checkFeeBounds ctx minimalGasAmountVector).map fun r => do
      r
      verifyCanPayCommittedBounds ctx balance
  else some (.ok ())

/-! ## 3. The receipt -/

/-- The gas amounts the resource functions of `fee/resources.rs` compute for a run, each in the
units of the transaction's computation mode. -/
structure TransactionResources where
  /-- `ArchivalDataResources::to_gas_vector`: calldata, signature, code and events. -/
  archivalGas : Nat
  /-- `get_da_gas_cost`: L1 gas, or blob gas under KZG. -/
  daGas : Nat
  /-- `MessageResources::to_gas_vector`, which is all L1 gas. -/
  messageGas : Nat
  /-- `get_vm_resources_cost`: L1 gas, converted to L2 gas in the `All` mode. -/
  vmGas : Nat
  deriving DecidableEq, Repr

/-- `TransactionResources::to_gas_vector`: the Starknet resources (archival data, state, messages)
folded with checked additions, then the computation. -/
def TransactionResources.toGasVector (r : TransactionResources) (useKzgDa : Bool)
    (mode : GasVectorComputationMode) : Option GasVector := do
  let archival := match mode with
    | .all => GasVector.fromL2Gas r.archivalGas
    | .noL2Gas => GasVector.fromL1Gas r.archivalGas
  let state := if useKzgDa then ⟨0, r.daGas, 0⟩ else GasVector.fromL1Gas r.daGas
  let starknetGas ← [archival, state, GasVector.fromL1Gas r.messageGas].foldlM
    GasVector.checkedAdd GasVector.zero
  let computationGas := match mode with
    | .noL2Gas => GasVector.fromL1Gas r.vmGas
    | .all => GasVector.fromL2Gas r.vmGas
  starknetGas.checkedAdd computationGas

/-- `TransactionReceipt`: the fee and the gas it prices. -/
structure TransactionReceipt where
  fee : Nat
  gas : GasVector
  deriving DecidableEq, Repr

/-- `TransactionReceipt::from_account_tx`: a transaction that does not enforce a fee is charged
none. -/
def TransactionReceipt.fromAccountTx (ctx : TransactionContext) (resources : TransactionResources) :
    Option TransactionReceipt := do
  let gas ← resources.toGasVector ctx.blockInfo.useKzgDa ctx.getGasVectorComputationMode
  let fee ← if ctx.txInfo.enforceFee then getFeeByGasVector ctx.blockInfo gas ctx.txInfo.feeType
    else some 0
  pure ⟨fee, gas⟩

/-! ## 4. Post-execution checks -/

/-- `FeeCheckError`. -/
inductive FeeCheckError
  | maxGasAmountExceeded (resource : Resource) (maxAmount actualAmount : Nat)
  | maxFeeExceeded (maxFee actualFee : Nat)
  | insufficientFeeTokenBalance (fee balanceLow balanceHigh : Nat)
  deriving DecidableEq, Repr

/-- `FeeCheckReport`. -/
structure FeeCheckReport where
  recommendedFee : Nat
  error : Option FeeCheckError
  deriving DecidableEq, Repr

/-- One round of the loop of `check_all_resources_within_bounds`. -/
def checkAmountWithinBound (resource : Resource) (maxAmount actualAmount : Nat) :
    Except FeeCheckError Unit :=
  if maxAmount < actualAmount then .error (.maxGasAmountExceeded resource maxAmount actualAmount)
  else .ok ()

/-- `check_all_resources_within_bounds`: its loop over L1 gas, L2 gas and L1 data gas, in that
order. -/
def checkAllResourcesWithinBounds (b : AllResourceBounds) (gasVector : GasVector) :
    Except FeeCheckError Unit := do
  checkAmountWithinBound .l1Gas b.l1Gas.maxAmount gasVector.l1Gas
  checkAmountWithinBound .l2Gas b.l2Gas.maxAmount gasVector.l2Gas
  checkAmountWithinBound .l1DataGas b.l1DataGas.maxAmount gasVector.l1DataGas

/-- `check_l1_gas_within_bounds`: the discounted L1 gas against the L1 bound. -/
def checkL1GasWithinBounds (l1Bounds : ResourceBounds) (gasVector : GasVector)
    (ctx : TransactionContext) : Option (Except FeeCheckError Unit) := do
  let totalDiscountedGasUsed ← gasVector.toDiscountedL1Gas ctx.getGasPrices
  pure <| if totalDiscountedGasUsed > l1Bounds.maxAmount then
      .error (.maxGasAmountExceeded .l1Gas l1Bounds.maxAmount totalDiscountedGasUsed)
    else .ok ()

/-- `check_actual_cost_within_bounds`. -/
def checkActualCostWithinBounds (ctx : TransactionContext) (receipt : TransactionReceipt) :
    Option (Except FeeCheckError Unit) :=
  match ctx.txInfo with
  | .current (.allResources b) => some (checkAllResourcesWithinBounds b receipt.gas)
  | .current (.l1Gas l1Bounds) => checkL1GasWithinBounds l1Bounds receipt.gas ctx
  | .deprecated _ maxFee _ =>
    some (if receipt.fee > maxFee then .error (.maxFeeExceeded maxFee receipt.fee) else .ok ())

/-- `check_can_pay_fee`, on the balance it reads. -/
def checkCanPayFee (balance : FeeTokenBalance) (receipt : TransactionReceipt) :
    Except FeeCheckError Unit :=
  if balance.coversFee receipt.fee then .ok ()
  else .error (.insufficientFeeTokenBalance receipt.fee balance.low balance.high)

/-- `FeeCheckReport::from_fee_check_error`: the fee to charge when a check failed.  It panics on
an error of the other kind of transaction, and where pricing the charged gas overflows. -/
def FeeCheckReport.fromFeeCheckError (actualFee : Nat) (actualGas : GasVector)
    (error : FeeCheckError) (ctx : TransactionContext) : Option FeeCheckReport :=
  match error, ctx.txInfo with
  | .insufficientFeeTokenBalance .., _ => some ⟨actualFee, some error⟩
  | .maxFeeExceeded .., .deprecated _ maxFee _ => some ⟨maxFee, some error⟩
  | .maxFeeExceeded .., .current _ => none
  | .maxGasAmountExceeded .., .deprecated .. => none
  | .maxGasAmountExceeded .., .current resourceBounds =>
    let gasForFeeCharge := match resourceBounds with
      | .l1Gas l1Bounds => GasVector.fromL1Gas l1Bounds.maxAmount
      | .allResources b =>
        ⟨min b.l1Gas.maxAmount actualGas.l1Gas, min b.l1DataGas.maxAmount actualGas.l1DataGas,
          min b.l2Gas.maxAmount actualGas.l2Gas⟩
    (getFeeByGasVector ctx.blockInfo gasForFeeCharge .strk).map fun fee => ⟨fee, some error⟩

/-- `PostExecutionReport::new`: the bounds, then the balance; the first failed check decides the
recommended fee. -/
def PostExecutionReport.new (balance : FeeTokenBalance) (ctx : TransactionContext)
    (receipt : TransactionReceipt) (chargeFee : Bool) : Option FeeCheckReport :=
  if !chargeFee then some ⟨receipt.fee, none⟩
  else do
    let costWithinBoundsResult ← checkActualCostWithinBounds ctx receipt
    match costWithinBoundsResult, checkCanPayFee balance receipt with
    | .error e, _ => FeeCheckReport.fromFeeCheckError receipt.fee receipt.gas e ctx
    | .ok (), .error e => FeeCheckReport.fromFeeCheckError receipt.fee receipt.gas e ctx
    | .ok (), .ok () => some ⟨receipt.fee, none⟩

/-- `assert_actual_fee_in_bounds`. -/
def assertActualFeeInBounds (ctx : TransactionContext) (actualFee : Nat) : Option Unit :=
  match ctx.txInfo with
  | .current resourceBounds => if actualFee > resourceBounds.maxPossibleFee then none else some ()
  | .deprecated _ maxFee _ => if actualFee > maxFee then none else some ()

/-! ## 5. What the checks guarantee -/

namespace FeeTokenBalance

/-- A balance that covers a fee covers every smaller one. -/
theorem coversFee_of_le {b : FeeTokenBalance} {fee fee' : Nat} (h : b.coversFee fee' = true)
    (hle : fee ≤ fee') : b.coversFee fee = true := by
  simp only [coversFee, Bool.or_eq_true, decide_eq_true_eq] at h ⊢
  omega

/-- A covered fee that fits a `u128` is at most the balance: a nonzero high cell alone is worth
more than any `u128`. -/
theorem le_value_of_coversFee {b : FeeTokenBalance} {fee : Nat} (h : b.coversFee fee = true)
    (hfee : fee ≤ uMax 128) : fee ≤ b.value := by
  simp only [coversFee, Bool.or_eq_true, decide_eq_true_eq] at h
  unfold value
  unfold uMax at hfee
  have hpow : 0 < 2 ^ 128 := Nat.two_pow_pos 128
  generalize 2 ^ 128 = M at hfee hpow ⊢
  rcases h with h | h
  · have : M ≤ b.high * M := Nat.le_mul_of_pos_left M h
    omega
  · omega

end FeeTokenBalance

/-- Every committed fee fits a `u128`: `max_possible_fee` saturates, and a max fee is a `u128`. -/
theorem TransactionInfo.committedFee_le (txInfo : TransactionInfo) :
    txInfo.committedFee ≤ uMax 128 := by
  cases txInfo with
  | current resourceBounds =>
    cases resourceBounds <;>
    · simp only [committedFee, ValidResourceBounds.maxPossibleFee, saturatingAdd, saturatingMul]
      omega
  | deprecated _ _ maxFee_le => exact maxFee_le

/-- What `check_fee_bounds` establishes about prices: each bound's price is at least the block's
price of its resource, in the transaction's fee token. -/
def BoundsCoverPrices (ctx : TransactionContext) : Prop :=
  match ctx.txInfo with
  | .current (.l1Gas b) => ctx.getGasPrices.l1GasPrice.get ≤ b.maxPricePerUnit
  | .current (.allResources b) =>
    ctx.getGasPrices.l1GasPrice.get ≤ b.l1Gas.maxPricePerUnit ∧
      ctx.getGasPrices.l1DataGasPrice.get ≤ b.l1DataGas.maxPricePerUnit ∧
      ctx.getGasPrices.l2GasPrice.get ≤ b.l2Gas.maxPricePerUnit
  | .deprecated .. => True

theorem checkResourceBounds_ok {resource : Resource} {b : ResourceBounds} {m : Nat}
    {price : NonzeroGasPrice} (h : checkResourceBounds resource b m price = .ok ()) :
    m ≤ b.maxAmount ∧ price.get ≤ b.maxPricePerUnit := by
  unfold checkResourceBounds at h
  split_ifs at h with h₁ h₂
  exact ⟨Nat.le_of_not_lt h₁, Nat.le_of_not_lt h₂⟩

theorem checkFeeBounds_ok {ctx : TransactionContext} {m : GasVector}
    (h : checkFeeBounds ctx m = some (.ok ())) : BoundsCoverPrices ctx := by
  unfold checkFeeBounds at h
  unfold BoundsCoverPrices
  split at h
  · simp only [Option.bind_eq_bind, Option.pure_def, Option.bind_eq_some_iff,
      Option.some.injEq] at h
    obtain ⟨_, -, hb⟩ := h
    exact (checkResourceBounds_ok hb).2
  · simp only [Option.some.injEq, bind, Except.bind] at h
    -- the three rounds of the loop, each passed
    split at h
    · cases h
    · rename_i h₁
      split at h
      · cases h
      · rename_i h₂
        exact ⟨(checkResourceBounds_ok h₁).2, (checkResourceBounds_ok h₂).2,
          (checkResourceBounds_ok h).2⟩
  · trivial

/-- **A passing pre-validation**: the bounds cover the prices, and the balance covers the
committed fee. -/
theorem performPreValidationStage_ok {ctx : TransactionContext} {m : GasVector}
    {balance : FeeTokenBalance} (h : performPreValidationStage ctx m balance true = some (.ok ())) :
    BoundsCoverPrices ctx ∧ balance.coversFee ctx.txInfo.committedFee = true := by
  simp only [performPreValidationStage, if_true, Option.map_eq_some_iff] at h
  obtain ⟨r, hr, hok⟩ := h
  cases r with
  | error e => cases hok
  | ok u =>
    refine ⟨checkFeeBounds_ok hr, ?_⟩
    simp only [bind, Except.bind, verifyCanPayCommittedBounds] at hok
    split_ifs at hok with hcov
    exact hcov

/-- In the `NoL2Gas` mode no component of the receipt's gas is L2 gas. -/
theorem TransactionResources.toGasVector_l2Gas {r : TransactionResources} {useKzgDa : Bool}
    {g : GasVector} (h : r.toGasVector useKzgDa .noL2Gas = some g) : g.l2Gas = 0 := by
  simp only [toGasVector, List.foldlM_cons, List.foldlM_nil, Option.bind_eq_bind,
    Option.pure_def, Option.bind_eq_some_iff] at h
  -- the three Starknet components from zero, then the computation
  obtain ⟨starknetGas, ⟨s₁, h₁, s₂, h₂, s₃, h₃, hs⟩, h₄⟩ := h
  rw [Option.some.injEq] at hs
  subst hs
  have hstate : (if useKzgDa = true then (⟨0, r.daGas, 0⟩ : GasVector)
      else GasVector.fromL1Gas r.daGas).l2Gas = 0 := by
    cases useKzgDa <;> rfl
  rw [GasVector.checkedAdd_l2Gas h₄, GasVector.checkedAdd_l2Gas h₃, GasVector.checkedAdd_l2Gas h₂,
    hstate, GasVector.checkedAdd_l2Gas h₁]
  rfl

theorem checkAmountWithinBound_ok {resource : Resource} {maxAmount actualAmount : Nat}
    (h : checkAmountWithinBound resource maxAmount actualAmount = .ok ()) :
    actualAmount ≤ maxAmount := by
  unfold checkAmountWithinBound at h
  split_ifs at h with hlt
  exact Nat.le_of_not_lt hlt

theorem checkAllResourcesWithinBounds_ok {b : AllResourceBounds} {g : GasVector}
    (h : checkAllResourcesWithinBounds b g = .ok ()) :
    g.l1Gas ≤ b.l1Gas.maxAmount ∧ g.l2Gas ≤ b.l2Gas.maxAmount ∧
      g.l1DataGas ≤ b.l1DataGas.maxAmount := by
  simp only [checkAllResourcesWithinBounds, bind, Except.bind] at h
  split at h
  · cases h
  · rename_i h₁
    split at h
    · cases h
    · rename_i h₂
      exact ⟨checkAmountWithinBound_ok h₁, checkAmountWithinBound_ok h₂,
        checkAmountWithinBound_ok h⟩

/-- **A receipt that passes the bounds check is within the committed fee.**  For L1-gas bounds
this is where the rounding up of `to_discounted_l1_gas` and the absence of L2 gas in the
`NoL2Gas` mode are needed; for all-resource bounds, that each amount and each price is within
its bound. -/
theorem TransactionReceipt.fee_le_committedFee {ctx : TransactionContext}
    {resources : TransactionResources} {receipt : TransactionReceipt}
    (hprices : BoundsCoverPrices ctx) (hr : fromAccountTx ctx resources = some receipt)
    (hb : checkActualCostWithinBounds ctx receipt = some (.ok ())) :
    receipt.fee ≤ ctx.txInfo.committedFee := by
  simp only [fromAccountTx, Option.bind_eq_bind, Option.pure_def, Option.bind_eq_some_iff] at hr
  obtain ⟨gas, hgas, hrest⟩ := hr
  -- a transaction that does not enforce a fee is charged none
  by_cases he : ctx.txInfo.enforceFee = true
  · simp only [he, if_true, Option.bind_eq_some_iff, Option.some.injEq] at hrest
    obtain ⟨fee, hfee, rfl⟩ := hrest
    obtain ⟨hcost, hfit⟩ := GasVector.cost_eq_some hfee
    unfold BoundsCoverPrices at hprices
    unfold checkActualCostWithinBounds at hb
    cases hinfo : ctx.txInfo with
    | current rb =>
      cases rb with
      | l1Gas b =>
        simp only [hinfo] at hprices hb
        have hmode : ctx.getGasVectorComputationMode = .noL2Gas := by
          simp [TransactionContext.getGasVectorComputationMode, hinfo,
            ValidResourceBounds.getGasVectorComputationMode]
        rw [hmode] at hgas
        have hl2 := TransactionResources.toGasVector_l2Gas hgas
        simp only [checkL1GasWithinBounds, Option.bind_eq_bind, Option.pure_def,
          Option.bind_eq_some_iff, Option.some.injEq] at hb
        obtain ⟨d, hd, hle⟩ := hb
        have hdle : d ≤ b.maxAmount := by
          split_ifs at hle with hgt
          exact Nat.le_of_not_lt hgt
        have hdisc := GasVector.mul_toDiscountedL1Gas hd
        have hprices' : ctx.getGasPrices = ctx.blockInfo.gasPrices.getGasPricesByFeeType .strk := by
          simp [TransactionContext.getGasPrices, hinfo, TransactionInfo.feeType]
        simp only [hinfo, TransactionInfo.feeType, hl2, Nat.zero_mul, Nat.add_zero] at hcost
        rw [hprices'] at hdisc hprices
        apply le_maxPossibleFee_l1Gas hfit
        calc fee ≤ _ * d := hcost ▸ hdisc
          _ ≤ _ * b.maxAmount := Nat.mul_le_mul_left _ hdle
          _ ≤ b.maxPricePerUnit * b.maxAmount := Nat.mul_le_mul_right _ hprices
          _ = b.maxAmount * b.maxPricePerUnit := Nat.mul_comm _ _
      | allResources b =>
        simp only [hinfo, Option.some.injEq] at hprices hb
        obtain ⟨hl1, hl2, hl1d⟩ := checkAllResourcesWithinBounds_ok hb
        obtain ⟨pl1, pl1d, pl2⟩ := hprices
        simp only [TransactionContext.getGasPrices, hinfo, TransactionInfo.feeType] at pl1 pl1d pl2
        simp only [hinfo, TransactionInfo.feeType] at hcost
        apply le_maxPossibleFee_allResources hfit
        have e₁ := Nat.mul_le_mul hl1 pl1
        have e₂ := Nat.mul_le_mul hl2 pl2
        have e₃ := Nat.mul_le_mul hl1d pl1d
        omega
    | deprecated version maxFee maxFee_le =>
      simp only [hinfo, Option.some.injEq] at hb
      split_ifs at hb with hgt
      exact Nat.le_of_not_lt hgt
  · simp only [he, Bool.false_eq_true, if_false, Option.bind_some, Option.some.injEq] at hrest
    subst hrest
    exact Nat.zero_le _

/-- The bounds check fails only on an amount (V3) or on the max fee (deprecated), never on the
balance. -/
theorem checkActualCostWithinBounds_error {ctx : TransactionContext}
    {receipt : TransactionReceipt} {e : FeeCheckError}
    (h : checkActualCostWithinBounds ctx receipt = some (.error e)) :
    (∃ resource maxAmount actualAmount, e = .maxGasAmountExceeded resource maxAmount actualAmount) ∨
      ∃ maxFee actualFee, e = .maxFeeExceeded maxFee actualFee := by
  unfold checkActualCostWithinBounds at h
  split at h
  · simp only [checkAllResourcesWithinBounds, checkAmountWithinBound, bind, Except.bind,
      Option.some.injEq] at h
    -- each of the three amount checks fails only with its own amount error
    split_ifs at h <;> cases h <;> exact .inl ⟨_, _, _, rfl⟩
  · simp only [checkL1GasWithinBounds, Option.bind_eq_bind, Option.pure_def,
      Option.bind_eq_some_iff, Option.some.injEq] at h
    obtain ⟨d, -, hd⟩ := h
    split_ifs at hd
    cases hd
    exact .inl ⟨_, _, _, rfl⟩
  · simp only [Option.some.injEq] at h
    split_ifs at h
    cases h
    exact .inr ⟨_, _, rfl⟩

/-- The report of a failed check carries that check's error. -/
theorem FeeCheckReport.fromFeeCheckError_error {ctx : TransactionContext} {fee : Nat}
    {gas : GasVector} {e : FeeCheckError} {report : FeeCheckReport}
    (h : fromFeeCheckError fee gas e ctx = some report) : report.error = some e := by
  unfold fromFeeCheckError at h
  split at h
  all_goals first
    | (cases h; rfl)
    | cases h
    | (obtain ⟨_, -, rfl⟩ := Option.map_eq_some_iff.mp h; rfl)

/-- **The fee recommended on a failed bounds check is within the committed fee**: the max fee
itself, or the gas charged (each amount capped by its bound) at prices the bounds cover. -/
theorem FeeCheckReport.fromFeeCheckError_le {ctx : TransactionContext} {fee : Nat}
    {gas : GasVector} {e : FeeCheckError} {report : FeeCheckReport}
    (hprices : BoundsCoverPrices ctx)
    (he : (∃ resource maxAmount actualAmount, e = .maxGasAmountExceeded resource maxAmount actualAmount) ∨
      ∃ maxFee actualFee, e = .maxFeeExceeded maxFee actualFee)
    (h : fromFeeCheckError fee gas e ctx = some report) :
    report.recommendedFee ≤ ctx.txInfo.committedFee := by
  unfold BoundsCoverPrices at hprices
  rcases he with ⟨resource, maxAmount, actualAmount, rfl⟩ | ⟨maxFee, actualFee, rfl⟩
  · cases hinfo : ctx.txInfo with
    | current rb =>
      simp only [fromFeeCheckError, hinfo, Option.map_eq_some_iff] at h
      obtain ⟨charged, hcharged, rfl⟩ := h
      obtain ⟨hcost, hfit⟩ := GasVector.cost_eq_some hcharged
      have hstrk : ctx.getGasPrices = ctx.blockInfo.gasPrices.getGasPricesByFeeType .strk := by
        simp [TransactionContext.getGasPrices, hinfo, TransactionInfo.feeType]
      cases rb with
      | l1Gas b =>
        simp only [hinfo, hstrk] at hprices
        simp only [GasVector.fromL1Gas, Nat.zero_mul, Nat.add_zero] at hcost
        show charged ≤ (ValidResourceBounds.l1Gas b).maxPossibleFee
        refine le_maxPossibleFee_l1Gas hfit ?_
        rw [hcost]
        exact Nat.mul_le_mul_left _ hprices
      | allResources b =>
        simp only [hinfo, hstrk] at hprices
        obtain ⟨pl1, pl1d, pl2⟩ := hprices
        show charged ≤ (ValidResourceBounds.allResources b).maxPossibleFee
        refine le_maxPossibleFee_allResources hfit ?_
        have e₁ := Nat.mul_le_mul (Nat.min_le_left b.l1Gas.maxAmount gas.l1Gas) pl1
        have e₂ := Nat.mul_le_mul (Nat.min_le_left b.l2Gas.maxAmount gas.l2Gas) pl2
        have e₃ := Nat.mul_le_mul (Nat.min_le_left b.l1DataGas.maxAmount gas.l1DataGas) pl1d
        simp only at hcost
        omega
    | deprecated version maxFee maxFee_le =>
      simp [fromFeeCheckError, hinfo] at h
  · cases hinfo : ctx.txInfo with
    | current rb => simp [fromFeeCheckError, hinfo] at h
    | deprecated version maxFee maxFee_le =>
      simp only [fromFeeCheckError, hinfo, Option.some.injEq] at h
      subst h
      exact Nat.le_refl _

/-- **What `PostExecutionReport::new` guarantees**, after a passing pre-validation: the fee it
recommends is within the committed fee, and when it reports no error that fee is the receipt's,
which the balance it read covers. -/
theorem PostExecutionReport.new_spec {balance : FeeTokenBalance} {ctx : TransactionContext}
    {resources : TransactionResources} {receipt : TransactionReceipt} {report : FeeCheckReport}
    (hprices : BoundsCoverPrices ctx) (hr : TransactionReceipt.fromAccountTx ctx resources = some receipt)
    (h : PostExecutionReport.new balance ctx receipt true = some report) :
    report.recommendedFee ≤ ctx.txInfo.committedFee ∧
      (report.error = none → report.recommendedFee = receipt.fee ∧
        balance.coversFee receipt.fee = true) := by
  simp only [PostExecutionReport.new, Bool.not_true, Bool.false_eq_true, if_false,
    Option.bind_eq_bind, Option.bind_eq_some_iff] at h
  obtain ⟨costWithinBounds, hcost, hreport⟩ := h
  cases costWithinBounds with
  | error e =>
    refine ⟨FeeCheckReport.fromFeeCheckError_le hprices (checkActualCostWithinBounds_error hcost)
      hreport, fun hnone => ?_⟩
    rw [FeeCheckReport.fromFeeCheckError_error hreport] at hnone
    cases hnone
  | ok u =>
    have hfee := TransactionReceipt.fee_le_committedFee hprices hr hcost
    unfold checkCanPayFee at hreport
    split_ifs at hreport with hcov
    · -- both checks passed
      simp only [Option.some.injEq] at hreport
      subst hreport
      exact ⟨hfee, fun _ => ⟨rfl, hcov⟩⟩
    · -- only the balance check failed: the actual fee is recommended
      simp only [FeeCheckReport.fromFeeCheckError, Option.some.injEq] at hreport
      subst hreport
      exact ⟨hfee, fun hnone => by cases hnone⟩

/-- `assert_actual_fee_in_bounds` passes on every fee within the committed fee. -/
theorem assertActualFeeInBounds_of_le {ctx : TransactionContext} {fee : Nat}
    (h : fee ≤ ctx.txInfo.committedFee) : assertActualFeeInBounds ctx fee = some () := by
  unfold assertActualFeeInBounds
  cases hinfo : ctx.txInfo with
  | current rb =>
    rw [hinfo] at h
    simp [TransactionInfo.committedFee] at h
    simp [h]
  | deprecated version maxFee maxFee_le =>
    rw [hinfo] at h
    simp [TransactionInfo.committedFee] at h
    simp [h]

end Sequencer.Fee
