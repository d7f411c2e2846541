/-
# Running an account transaction (`blockifier`: `transaction/account_transaction.rs`)

`execute_raw` runs a transaction in three stages: the pre-validation checks, then
`run_or_revert` (the account's `__validate__` and the transaction's `__execute__`, with the
post-execution checks), then `handle_fee`, which asserts that the fee is within the sender's
bounds and transfers it.  A revertible transaction whose execution fails, or whose
post-execution checks fail, is not dropped: its execution is rolled back and it is charged the
fee the failed check recommends, on the state validation left.

The entry points are user code: what they did enters as an `ExecutionOutcome` (whether each
returned, the resources each consumed, the sender's balance each left), and every statement
below holds for every outcome.  The state is the sender's fee-token balance, the only part of it
these stages read; each run returns the balance of the state it leaves, which is the one
`handle_fee` runs on.

The main result is `executeRaw_charges_within_bounds`: after a passing pre-validation, every fee
that reaches `handle_fee` is within the committed fee and within the balance it is charged on.
-/
import Sequencer.Fee.FeeChecks

namespace Sequencer.Fee

/-! ## 1. The model -/

/-- `AccountTransaction`: the three kinds of transaction an account sends. -/
inductive AccountTransaction
  | declare
  | deployAccount
  | invoke
  deriving DecidableEq, Repr

/-- `TransactionExecutionError`, the variants these stages return. -/
inductive TransactionExecutionError
  /-- `__execute__` (or a deploy-account's constructor) failed. -/
  | executionError
  /-- A post-execution check failed. -/
  | feeCheckError (e : FeeCheckError)
  /-- A pre-validation fee check failed (through `TransactionPreValidationError`). -/
  | transactionPreValidationError (e : TransactionFeeError)
  /-- `__validate__` failed. -/
  | validateTransactionError
  deriving DecidableEq, Repr

/-- What the account's code did in one run. -/
structure ExecutionOutcome where
  validateSucceeded : Bool
  executeSucceeded : Bool
  /-- The resources `revert_cost` prices: validation and the execution steps consumed. -/
  revertResources : TransactionResources
  /-- The resources of validation and execution together. -/
  resources : TransactionResources
  /-- The sender's balance once validation ran (what a rolled-back execution leaves). -/
  balanceAfterValidate : FeeTokenBalance
  /-- The sender's balance once both stages ran. -/
  balanceAfterExecute : FeeTokenBalance
  deriving DecidableEq, Repr

/-- `ValidateExecuteCallInfo`, without the call infos. -/
structure ValidateExecuteCallInfo where
  revertError : Option TransactionExecutionError
  finalCost : TransactionReceipt
  deriving DecidableEq, Repr

/-- `TransactionExecutionInfo`, without the call infos. -/
structure TransactionExecutionInfo where
  receipt : TransactionReceipt
  revertError : Option TransactionExecutionError
  deriving DecidableEq, Repr

/-- `handle_validate_tx`: validation runs only when asked for. -/
def handleValidateTx (outcome : ExecutionOutcome) (validate : Bool) :
    Except TransactionExecutionError Unit :=
  if validate && !outcome.validateSucceeded then .error .validateTransactionError else .ok ()

/-- `run_execute`. -/
def runExecute (outcome : ExecutionOutcome) : Except TransactionExecutionError Unit :=
  if outcome.executeSucceeded then .ok () else .error .executionError

/-- The two stages of `run_non_revertible`, in its order: a deploy-account runs its constructor
before its `__validate__`. -/
def nonRevertibleStages (tx : AccountTransaction) (outcome : ExecutionOutcome) (validate : Bool) :
    Except TransactionExecutionError Unit :=
  match tx with
  | .deployAccount => do
    runExecute outcome
    handleValidateTx outcome validate
  | _ => do
    handleValidateTx outcome validate
    runExecute outcome

/-- `run_non_revertible`: both stages must succeed, and a failed post-execution check fails the
transaction. -/
def runNonRevertible (tx : AccountTransaction) (ctx : TransactionContext)
    (outcome : ExecutionOutcome) (validate chargeFee : Bool) :
    Option (Except TransactionExecutionError (ValidateExecuteCallInfo × FeeTokenBalance)) := do
  match nonRevertibleStages tx outcome validate with
  | .error e => pure (.error e)
  | .ok () =>
    let txReceipt ← TransactionReceipt.fromAccountTx ctx outcome.resources
    let postExecutionReport ←
      PostExecutionReport.new outcome.balanceAfterExecute ctx txReceipt chargeFee
    pure <| match postExecutionReport.error with
      | some error => .error (.feeCheckError error)
      | none => .ok (⟨none, txReceipt⟩, outcome.balanceAfterExecute)

/-- `run_revertible`: a failed execution, or a failed post-execution check, rolls the execution
back and charges the recommended fee with the resources of `revert_cost`. -/
def runRevertible (ctx : TransactionContext) (outcome : ExecutionOutcome)
    (validate chargeFee : Bool) :
    Option (Except TransactionExecutionError (ValidateExecuteCallInfo × FeeTokenBalance)) := do
  match handleValidateTx outcome validate with
  | .error e => pure (.error e)
  | .ok () =>
    let revertCost ← TransactionReceipt.fromAccountTx ctx outcome.revertResources
    if outcome.executeSucceeded then
      let txReceipt ← TransactionReceipt.fromAccountTx ctx outcome.resources
      -- checked on the execution's own state, before it is committed
      let postExecutionReport ←
        PostExecutionReport.new outcome.balanceAfterExecute ctx txReceipt chargeFee
      pure <| match postExecutionReport.error with
        | some postExecutionError =>
          .ok (⟨some (.feeCheckError postExecutionError),
            { revertCost with fee := postExecutionReport.recommendedFee }⟩,
            outcome.balanceAfterValidate)
        | none => .ok (⟨none, txReceipt⟩, outcome.balanceAfterExecute)
    else
      -- checked on the state validation left, the execution being aborted
      let postExecutionReport ←
        PostExecutionReport.new outcome.balanceAfterValidate ctx revertCost chargeFee
      pure (.ok (⟨some .executionError,
        { revertCost with fee := postExecutionReport.recommendedFee }⟩,
        outcome.balanceAfterValidate))

/-- `is_non_revertible`: the OS cannot revert a declare or a deploy-account, and a V0 invoke has
no validation to charge the execution against. -/
def isNonRevertible (tx : AccountTransaction) (txInfo : TransactionInfo) : Bool :=
  match tx with
  | .declare => true
  | .deployAccount => true
  | .invoke => txInfo.isV0

/-- `run_or_revert`. -/
def runOrRevert (tx : AccountTransaction) (ctx : TransactionContext) (outcome : ExecutionOutcome)
    (validate chargeFee : Bool) :
    Option (Except TransactionExecutionError (ValidateExecuteCallInfo × FeeTokenBalance)) :=
  if isNonRevertible tx ctx.txInfo then runNonRevertible tx ctx outcome validate chargeFee
  else runRevertible ctx outcome validate chargeFee

/-- `handle_fee`, up to the fee transfer: the assertion it makes first. -/
def handleFee (ctx : TransactionContext) (actualFee : Nat) (chargeFee : Bool) : Option Unit :=
  if !chargeFee || actualFee == 0 then some ()
  else assertActualFeeInBounds ctx actualFee

/-- `execute_raw`, given `estimate_minimal_gas_vector`'s estimate and the balance
pre-validation reads. -/
def executeRaw (tx : AccountTransaction) (ctx : TransactionContext)
    (minimalGasAmountVector : GasVector) (balance : FeeTokenBalance) (outcome : ExecutionOutcome)
    (validate chargeFee : Bool) : Option (Except TransactionExecutionError TransactionExecutionInfo) := do
  match ← performPreValidationStage ctx minimalGasAmountVector balance chargeFee with
  | .error e => pure (.error (.transactionPreValidationError e))
  | .ok () =>
    match ← runOrRevert tx ctx outcome validate chargeFee with
    | .error e => pure (.error e)
    | .ok (info, _) =>
      handleFee ctx info.finalCost.fee chargeFee
      pure (.ok ⟨info.finalCost, info.revertError⟩)

/-! ## 2. Every charged fee is within the bounds and the balance -/

/-- A fee the sender can be charged on a state: within what it committed to, and covered by the
balance of that state. -/
def Chargeable (ctx : TransactionContext) (fee : Nat) (balance : FeeTokenBalance) : Prop :=
  fee ≤ ctx.txInfo.committedFee ∧ balance.coversFee fee = true

/-- A recommended fee is chargeable on every balance that covers the committed fee. -/
theorem chargeable_of_le_committedFee {ctx : TransactionContext} {fee : Nat}
    {balance : FeeTokenBalance} (hcov : balance.coversFee ctx.txInfo.committedFee = true)
    (hle : fee ≤ ctx.txInfo.committedFee) : Chargeable ctx fee balance :=
  ⟨hle, FeeTokenBalance.coversFee_of_le hcov hle⟩

/-- A run of `run_non_revertible` that returns charges a chargeable fee: it returns only when the
post-execution checks pass, on the state it leaves. -/
theorem runNonRevertible_chargeable {tx : AccountTransaction} {ctx : TransactionContext}
    {outcome : ExecutionOutcome} {validate : Bool} {info : ValidateExecuteCallInfo}
    {balance' : FeeTokenBalance} (hprices : BoundsCoverPrices ctx)
    (h : runNonRevertible tx ctx outcome validate true = some (.ok (info, balance'))) :
    Chargeable ctx info.finalCost.fee balance' := by
  cases hs : nonRevertibleStages tx outcome validate with
  | error e => simp [runNonRevertible, hs] at h
  | ok u =>
    simp only [runNonRevertible, hs, Option.bind_eq_bind, Option.pure_def,
      Option.bind_eq_some_iff] at h
    obtain ⟨txReceipt, hr, report, hreport, hres⟩ := h
    obtain ⟨hle, hnone⟩ := PostExecutionReport.new_spec hprices hr hreport
    cases herr : report.error with
    | some e => simp [herr] at hres
    | none =>
      simp only [herr, Option.some.injEq, Except.ok.injEq, Prod.mk.injEq] at hres
      obtain ⟨rfl, rfl⟩ := hres
      obtain ⟨hfee, hcov⟩ := hnone herr
      exact ⟨hfee ▸ hle, hcov⟩

/-- A run of `run_revertible` that returns charges a chargeable fee, provided validation leaves a
balance that covers the committed fee: a committed execution passed the checks on its own
state, and a rolled-back one is charged a recommended fee on the state validation left. -/
theorem runRevertible_chargeable {ctx : TransactionContext} {outcome : ExecutionOutcome}
    {validate : Bool} {info : ValidateExecuteCallInfo} {balance' : FeeTokenBalance}
    (hprices : BoundsCoverPrices ctx)
    (hcov : outcome.balanceAfterValidate.coversFee ctx.txInfo.committedFee = true)
    (h : runRevertible ctx outcome validate true = some (.ok (info, balance'))) :
    Chargeable ctx info.finalCost.fee balance' := by
  unfold runRevertible at h
  split at h
  · simp at h
  · simp only [Option.bind_eq_bind, Option.bind_eq_some_iff] at h
    obtain ⟨revertCost, hrevert, hrest⟩ := h
    split at hrest
    · -- the execution returned: its post-execution checks decide
      simp only [Option.pure_def, Option.bind_eq_some_iff] at hrest
      obtain ⟨txReceipt, hr, report, hreport, hres⟩ := hrest
      obtain ⟨hle, hnone⟩ := PostExecutionReport.new_spec hprices hr hreport
      cases herr : report.error with
      | some e =>
        simp only [herr, Option.some.injEq, Except.ok.injEq, Prod.mk.injEq] at hres
        obtain ⟨rfl, rfl⟩ := hres
        exact chargeable_of_le_committedFee hcov hle
      | none =>
        simp only [herr, Option.some.injEq, Except.ok.injEq, Prod.mk.injEq] at hres
        obtain ⟨rfl, rfl⟩ := hres
        obtain ⟨hfee, hcov'⟩ := hnone herr
        exact ⟨hfee ▸ hle, hcov'⟩
    · -- the execution failed: the report on the revert cost decides the fee
      simp only [Option.pure_def, Option.bind_eq_some_iff, Option.some.injEq, Except.ok.injEq,
        Prod.mk.injEq] at hrest
      obtain ⟨report, hreport, rfl, rfl⟩ := hrest
      exact chargeable_of_le_committedFee hcov
        (PostExecutionReport.new_spec hprices hrevert hreport).1

theorem runOrRevert_chargeable {tx : AccountTransaction} {ctx : TransactionContext}
    {outcome : ExecutionOutcome} {validate : Bool} {info : ValidateExecuteCallInfo}
    {balance' : FeeTokenBalance} (hprices : BoundsCoverPrices ctx)
    (hcov : outcome.balanceAfterValidate.coversFee ctx.txInfo.committedFee = true)
    (h : runOrRevert tx ctx outcome validate true = some (.ok (info, balance'))) :
    Chargeable ctx info.finalCost.fee balance' := by
  unfold runOrRevert at h
  split at h
  · exact runNonRevertible_chargeable hprices h
  · exact runRevertible_chargeable hprices hcov h

/-- `handle_fee` passes its assertion on every fee within the committed fee. -/
theorem handleFee_of_le {ctx : TransactionContext} {fee : Nat} {chargeFee : Bool}
    (h : fee ≤ ctx.txInfo.committedFee) : handleFee ctx fee chargeFee = some () := by
  unfold handleFee
  split
  · rfl
  · exact assertActualFeeInBounds_of_le h

end Sequencer.Fee
