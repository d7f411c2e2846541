/-
# The gateway's admission of a transaction into the mempool

`process_tx` validates a transaction against the state the gateway's state reader serves and
hands the mempool an `AddTransactionArgs`: the transaction and the sender's account state.  The
stateful part, `StatefulTransactionValidator::run_validate`, runs the blockifier's
`perform_validations` with `skip_validate` set by `skip_stateful_validations`: an invoke of nonce
1 from an account of nonce 0 skips the account's `__validate__`, on the ground, as the comment
there says, that "the mempool also verifies that the deploy_account transaction exists".

The stateless validation and the compilation of a declared class come before what is modelled;
the transaction enters as the executable transaction they produce, with the minimal gas vector
the blockifier estimates for it.  The account's own code (`__validate__`, and the whole execution
of a deploy-account) is the parameter `validateTx`: its verdict.

The only way past the account's code is the skip (`processTx_ok_cases`), and the mempool's
`add_tx` reads the transaction's address, nonce, hash and prices only: it never asks for a
deploy-account (`addTx_admits_unvalidated_invoke`).
-/
import Sequencer.Fee.AccountTransaction
import Sequencer.Mempool.Mempool

namespace Sequencer.Gateway

open Sequencer.Fee Sequencer.Mempool

/-! ## 1. The validators -/

/-- The executable transaction, as `process_tx` and the validators read it. -/
structure ExecutableTransaction where
  kind : AccountTransaction
  contractAddress : Nat
  nonce : Nat
  txHash : Nat
  tip : Nat
  txInfo : TransactionInfo
  /-- `estimate_minimal_gas_vector` of the transaction. -/
  minimalGasAmountVector : GasVector

/-- What the state reader serves of the sender: its nonce and its fee-token balance. -/
structure AccountView where
  nonce : Nat
  balance : FeeTokenBalance

/-- `TransactionPreValidationError`. -/
inductive TransactionPreValidationError
  | invalidNonce (address accountNonce incomingTxNonce : Nat)
  /-- `increment_nonce` of the largest field element. -/
  | stateError
  | transactionFeeError (error : TransactionFeeError)
  deriving DecidableEq, Repr

/-- `StatefulValidatorError`: a pre-validation error, or one the account's code raised. -/
inductive StatefulValidatorError
  | transactionPreValidationError (error : TransactionPreValidationError)
  | transactionExecutionError
  deriving DecidableEq, Repr

/-- `skip_stateful_validations`: an invoke of nonce 1 from an account of nonce 0. -/
def skipStatefulValidations (tx : ExecutableTransaction) (accountNonce : Nat) : Bool :=
  match tx.kind with
  | .invoke => tx.nonce == 1 && accountNonce == 0
  | .deployAccount | .declare => false

/-- `AccountTransaction::handle_nonce` with `strict = false`, then `increment_nonce`. -/
def handleNonce (txInfo : TransactionInfo) (address accountNonce incomingTxNonce : Nat) :
    Except TransactionPreValidationError Unit :=
  if txInfo.isV0 then .ok ()
  else if accountNonce ≤ incomingTxNonce then
    match Nonce.tryIncrement accountNonce with
    | some _ => .ok ()
    | none => .error .stateError
  else .error (.invalidNonce address accountNonce incomingTxNonce)

variable (blockInfo : BlockInfo) (validateTx : Except StatefulValidatorError Unit)

/-- `StatefulValidator::perform_validations`: a deploy-account is executed whole; any other
transaction goes through the nonce and fee checks, then `__validate__` unless skipped. -/
def performValidations (tx : ExecutableTransaction) (account : AccountView) (skipValidate : Bool) :
    Option (Except StatefulValidatorError Unit) :=
  match tx.kind with
  | .deployAccount => some validateTx
  | .invoke | .declare =>
    match handleNonce tx.txInfo tx.contractAddress account.nonce tx.nonce with
    | .error e => some (.error (.transactionPreValidationError e))
    | .ok () =>
      (performPreValidationStage ⟨blockInfo, tx.txInfo⟩ tx.minimalGasAmountVector account.balance
          tx.txInfo.enforceFee).map fun
        | .error e => .error (.transactionPreValidationError (.transactionFeeError e))
        | .ok () => if skipValidate then .ok () else validateTx

/-! ## 2. `process_tx` -/

/-- `GatewaySpecError`, the variant the stateful validation returns. -/
inductive GatewaySpecError
  | validationFailure (error : StatefulValidatorError)
  deriving DecidableEq, Repr

/-- `AddTransactionArgs`, with the transaction as the mempool keeps it. -/
structure AddTransactionArgs where
  tx : TransactionReference
  accountState : AccountState
  deriving DecidableEq, Repr

/-- `TransactionReference::new`. -/
def ExecutableTransaction.toReference (tx : ExecutableTransaction) : TransactionReference :=
  ⟨tx.contractAddress, tx.nonce, tx.txHash, tx.tip,
    match tx.txInfo with
    | .current resourceBounds => resourceBounds.getL2Bounds.maxPricePerUnit
    | .deprecated .. => 0⟩

/-- `process_tx` after the stateless validation and the compilation: `get_nonce`, then
`run_validate` with the skip it decides. -/
def processTx (tx : ExecutableTransaction) (account : AccountView) :
    Option (Except GatewaySpecError AddTransactionArgs) :=
  let skipValidate := skipStatefulValidations tx account.nonce
  (performValidations blockInfo validateTx tx account skipValidate).map fun
    | .error e => .error (.validationFailure e)
    | .ok () => .ok ⟨tx.toReference, ⟨tx.contractAddress, account.nonce⟩⟩

/-! ## 3. What an admitted transaction went through -/

variable {blockInfo validateTx}

theorem skipStatefulValidations_eq_true {tx : ExecutableTransaction} {accountNonce : Nat} :
    skipStatefulValidations tx accountNonce = true ↔
      tx.kind = .invoke ∧ tx.nonce = 1 ∧ accountNonce = 0 := by
  unfold skipStatefulValidations
  cases tx.kind <;> simp

/-- `perform_validations` passes a transaction only if the account's code passed it, or was
skipped. -/
theorem performValidations_ok {tx : ExecutableTransaction} {account : AccountView}
    {skipValidate : Bool}
    (h : performValidations blockInfo validateTx tx account skipValidate = some (.ok ())) :
    validateTx = .ok () ∨ skipValidate = true := by
  unfold performValidations at h
  cases hkind : tx.kind with
  | deployAccount =>
    simp only [hkind, Option.some.injEq] at h
    exact .inl h
  | invoke | declare =>
    simp only [hkind] at h
    cases hnonce : handleNonce tx.txInfo tx.contractAddress account.nonce tx.nonce with
    | error e => simp [hnonce] at h
    | ok =>
      simp only [hnonce] at h
      obtain ⟨fee, -, hfee⟩ := Option.map_eq_some_iff.mp h
      cases fee with
      | error e => cases hfee
      | ok =>
        cases skipValidate with
        | true => exact .inr rfl
        | false => exact .inl hfee

/-- **The account's code is skipped only by the skip**: whatever `process_tx` admits passed
`__validate__` (or, for a deploy-account, its execution), or is an invoke of nonce 1 from an
account of nonce 0. -/
theorem processTx_ok_cases {tx : ExecutableTransaction} {account : AccountView}
    {args : AddTransactionArgs}
    (h : processTx blockInfo validateTx tx account = some (.ok args)) :
    validateTx = .ok () ∨ (tx.kind = .invoke ∧ tx.nonce = 1 ∧ account.nonce = 0) := by
  rw [← skipStatefulValidations_eq_true]
  simp only [processTx, Option.map_eq_some_iff] at h
  obtain ⟨r, hr, hargs⟩ := h
  cases r with
  | error e => cases hargs
  | ok => exact performValidations_ok hr

/-- **A skipped invoke is admitted whatever its `__validate__` would say**, once its nonce and
fee checks pass. -/
theorem processTx_of_skipped {tx : ExecutableTransaction} {account : AccountView}
    (hkind : tx.kind = .invoke) (hnonce : tx.nonce = 1) (haccount : account.nonce = 0)
    (hfee : performPreValidationStage ⟨blockInfo, tx.txInfo⟩ tx.minimalGasAmountVector
      account.balance tx.txInfo.enforceFee = some (.ok ())) :
    processTx blockInfo validateTx tx account =
      some (.ok ⟨tx.toReference, ⟨tx.contractAddress, 0⟩⟩) := by
  have hskip : skipStatefulValidations tx account.nonce = true :=
    skipStatefulValidations_eq_true.mpr ⟨hkind, hnonce, haccount⟩
  have hhandle : handleNonce tx.txInfo tx.contractAddress account.nonce tx.nonce = .ok () := by
    unfold handleNonce
    rw [haccount, hnonce]
    split
    · rfl
    · rfl
  simp only [processTx, performValidations, hkind, hhandle, hfee, hskip, Option.map_some, if_true]
  rw [haccount]

/-! ## 4. The mempool takes it without a deploy-account -/

/-- Every gas price is one. -/
def unitGasPrices : GasPriceVector := ⟨⟨1, by decide⟩, ⟨1, by decide⟩, ⟨1, by decide⟩⟩

/-- A block whose gas prices are all one. -/
def unitPriceBlock : BlockInfo := ⟨⟨unitGasPrices, unitGasPrices⟩, false⟩

/-- An invoke of nonce 1 from address 5, bounded to 10 units of L1 gas at price 1, whose
minimal gas is one unit of L1 gas. -/
def undeployedInvoke : ExecutableTransaction :=
  ⟨.invoke, 5, 1, 77, 0, .current (.l1Gas ⟨10, 1⟩), ⟨1, 0, 0⟩⟩

/-- The account at address 5 is not deployed (nonce 0) and holds 10 fee tokens. -/
def undeployedAccount : AccountView := ⟨0, ⟨10, 0⟩⟩

/-- The invoke from the undeployed account passes the gateway with a failing `__validate__`, and
the empty mempool admits it: afterwards the pool holds this invoke and nothing else, so no
deploy-account of address 5. -/
theorem addTx_admits_unvalidated_invoke :
    processTx unitPriceBlock (.error .transactionExecutionError) undeployedInvoke
        undeployedAccount =
      some (.ok ⟨undeployedInvoke.toReference, ⟨5, 0⟩⟩) ∧
      ∃ m, Mempool.empty.addTx undeployedInvoke.toReference ⟨5, 0⟩ = some (m, .ok ()) ∧
        m.txPool.txPool = [(77, undeployedInvoke.toReference)] ∧
        undeployedInvoke.kind = .invoke :=
  ⟨processTx_of_skipped rfl rfl rfl (by decide), _, rfl, rfl, rfl⟩

end Sequencer.Gateway
