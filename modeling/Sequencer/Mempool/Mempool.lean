/-
# The mempool (`mempool/src/mempool.rs`)

`Mempool` ties the pool and the queue together with two nonce tables: `mempool_state`, the
nonce of the last transaction `get_txs` handed out per address while a block is being built,
and `account_nonces`, the latest account nonce each address was aligned to.

Its four entry points are calls on one state; `Mempool.step` is one call, so the runs of
`Lib/Run.lean` are the call sequences a client can make.  What a run emits is what `get_txs`
returned.

`get_txs` soft-deletes: what it returns stays in the pool until `commit_block` hard-deletes it,
and `mempool_state` is what is meant to keep it from being handed out twice.
-/
import Sequencer.Lib.Run
import Sequencer.Mempool.TransactionQueue

-- `Mempool` is both the crate and its main type, as in the source
set_option linter.dupNamespace false

namespace Sequencer.Mempool

/-- `CommitBlockArgs`: the account nonces of the block, and the hashes it included. -/
structure CommitBlockArgs where
  nonces : HashMap Nat Nat
  txHashes : List Nat
  deriving DecidableEq, Repr

/-- `Mempool`. -/
structure Mempool where
  txPool : TransactionPool
  txQueue : TransactionQueue
  mempoolState : HashMap Nat Nat
  accountNonces : HashMap Nat Nat
  feeEscalationPercentage : Nat
  deriving DecidableEq, Repr

namespace Mempool

/-- `Mempool::empty()`, which is `Mempool::default()`. -/
def empty : Mempool := ⟨.empty, .empty, [], [], 0⟩

/-! ## 1. Helpers of the entry points -/

/-- `validate_incoming_nonce`. -/
def validateIncomingNonce (m : Mempool) (txNonce : Nat) (accountState : AccountState) :
    Except MempoolError Unit :=
  let duplicateNonceError := MempoolError.duplicateNonce accountState.address txNonce
  -- the input against the given account state, then against the mempool state and the queue
  if accountState.nonce > txNonce then .error duplicateNonceError
  else if (m.mempoolState.get accountState.address).any (· ≥ txNonce) then
    .error duplicateNonceError
  else if (m.txQueue.getNonce accountState.address).any (· ≥ txNonce) then
    .error duplicateNonceError
  else .ok ()

/-- `enqueue_next_eligible_txs`: queues the successor of each popped transaction. -/
def enqueueNextEligibleTxs (m : Mempool) :
    List TransactionReference → Option (Mempool × Except MempoolError Unit)
  | [] => some (m, .ok ())
  | tx :: txs =>
    match m.txPool.getNextEligibleTx ⟨tx.address, tx.nonce⟩ with
    | .error e => some (m, .error e)
    | .ok none => enqueueNextEligibleTxs m txs
    | .ok (some nextTxReference) => do
      let txQueue ← m.txQueue.insert nextTxReference
      enqueueNextEligibleTxs { m with txQueue } txs

/-- `align_to_account_state`. -/
def alignToAccountState (m : Mempool) (accountState : AccountState) : Option Mempool := do
  let ⟨address, nonce⟩ := accountState
  -- maybe remove an out-of-date queued transaction, asserting that the removal happened
  let txQueue ←
    if (m.txQueue.getNonce address).any (· != nonce) then
      match m.txQueue.remove address with
      | (true, txQueue) => some txQueue
      | (false, _) => none
    else some m.txQueue
  let txPool ← m.txPool.removeUpToNonce address nonce
  let accountNonces := (m.accountNonces.insert address nonce).2
  -- maybe close a nonce gap
  let txQueue ←
    if (txQueue.getNonce address).isNone then
      match txPool.getByAddressAndNonce address nonce with
      | some txReference => txQueue.insert txReference
      | none => some txQueue
    else some txQueue
  pure { m with txQueue, txPool, accountNonces }

/-- `increased_enough`: the `checked_mul` of a `u128` rejects on overflow. -/
def increasedEnough (m : Mempool) (existingValue incomingValue : Nat) : Bool :=
  let escalationFactor := 100 + m.feeEscalationPercentage
  if existingValue * escalationFactor < 2 ^ 128 then
    incomingValue ≥ existingValue * escalationFactor / 100
  else false

/-- `should_replace_tx`. -/
def shouldReplaceTx (m : Mempool) (existingTx incomingTx : TransactionReference) : Bool :=
  m.increasedEnough existingTx.tip incomingTx.tip &&
    m.increasedEnough existingTx.maxL2GasPrice incomingTx.maxL2GasPrice

/-- `handle_fee_escalation`: a transaction at a taken address and nonce replaces the existing
one if it pays enough more, and is rejected otherwise. -/
def handleFeeEscalation (m : Mempool) (incomingTx : TransactionReference) :
    Option (Mempool × Except MempoolError Unit) :=
  match m.txPool.getByAddressAndNonce incomingTx.address incomingTx.nonce with
  | none => some (m, .ok ())
  | some existingTx =>
    if !m.shouldReplaceTx existingTx incomingTx then
      some (m, .error (.duplicateNonce incomingTx.address incomingTx.nonce))
    else
      let txQueue := (m.txQueue.remove incomingTx.address).2
      match m.txPool.remove existingTx.txHash with
      | some (txPool, .ok _) => some ({ m with txQueue, txPool }, .ok ())
      | _ => none

/-! ## 2. The entry points -/

/-- The `while` loop of `get_txs`.  Each round pops at least one transaction off a non-empty
priority queue, so `n_txs` rounds of fuel are as many as the loop can run. -/
def getTxsLoop (m : Mempool) (nRemainingTxs : Nat) (eligibleTxReferences : List TransactionReference) :
    Nat → Option (Mempool × Except MempoolError (List TransactionReference))
  | 0 => some (m, .ok eligibleTxReferences)
  | fuel + 1 =>
    if nRemainingTxs > 0 && !m.txQueue.hasReadyTxs then
      let (chunk, txQueue) := m.txQueue.popReadyChunk nRemainingTxs
      match enqueueNextEligibleTxs { m with txQueue } chunk with
      | none => none
      | some (m, .error e) => some (m, .error e)
      | some (m, .ok ()) =>
        getTxsLoop m (nRemainingTxs - chunk.length) (eligibleTxReferences ++ chunk) fuel
    else some (m, .ok eligibleTxReferences)

/-- `get_txs`: pops up to `n_txs` transactions, records their nonces in the mempool state and
returns them from the pool, which still holds them. -/
def getTxs (m : Mempool) (nTxs : Nat) :
    Option (Mempool × Except MempoolError (List TransactionReference)) :=
  match getTxsLoop m nTxs [] nTxs with
  | none => none
  | some (m, .error e) => some (m, .error e)
  | some (m, .ok eligibleTxReferences) =>
    let mempoolState := eligibleTxReferences.foldl
      (fun s tx => (HashMap.insert s tx.address tx.nonce).2) m.mempoolState
    let m := { m with mempoolState }
    -- the `expect` of the final lookup
    (eligibleTxReferences.mapM fun tx => (m.txPool.getByTxHash tx.txHash).toOption).map
      fun txs => (m, .ok txs)

/-- `add_tx`: aligns to the given account nonce unless it is below the one stored. -/
def addTx (m : Mempool) (tx : TransactionReference) (accountState : AccountState) :
    Option (Mempool × Except MempoolError Unit) :=
  match m.validateIncomingNonce tx.nonce accountState with
  | .error e => some (m, .error e)
  | .ok () =>
    match m.handleFeeEscalation tx with
    | none => none
    | some (m, .error e) => some (m, .error e)
    | some (m, .ok ()) =>
      match m.txPool.insert tx with
      | none => none
      | some (txPool, .error e) => some ({ m with txPool }, .error e)
      | some (txPool, .ok ()) =>
        let m := { m with txPool }
        match m.accountNonces.get accountState.address with
        | some storedAccountNonce =>
          if accountState.nonce < storedAccountNonce then some (m, .ok ())
          else (m.alignToAccountState accountState).map fun m => (m, .ok ())
        | none => (m.alignToAccountState accountState).map fun m => (m, .ok ())

/-- The first loop of `commit_block`: align to the nonce after each committed one. -/
def alignToCommittedNonces (m : Mempool) :
    List (Nat × Nat) → Option (Mempool × Except MempoolError Unit)
  | [] => some (m, .ok ())
  | (address, nonce) :: nonces =>
    match Nonce.tryIncrement nonce with
    | none => some (m, .error .feltOutOfRange)
    | some nextNonce => do
      let m ← m.alignToAccountState ⟨address, nextNonce⟩
      alignToCommittedNonces m nonces

/-- The second loop of `commit_block`: re-queue the lowest-nonce transaction of each address
that was proposed but is not in the block. -/
def rewindNonces (m : Mempool) : List Nat → Option Mempool
  | [] => some m
  | address :: addresses =>
    match (m.txPool.accountTxsSortedByNonce address).head? with
    | none => none
    | some txReference => do
      let txQueue ← m.txQueue.insert txReference
      rewindNonces { m with txQueue } addresses

/-- The third loop of `commit_block`: hard-delete the included transactions the pool knows. -/
def removeCommittedTxs (m : Mempool) : List Nat → Option Mempool
  | [] => some m
  | txHash :: txHashes =>
    match m.txPool.remove txHash with
    | none => none
    | some (_, .error _) => removeCommittedTxs m txHashes
    | some (txPool, .ok _) => removeCommittedTxs { m with txPool } txHashes

/-- `commit_block`. -/
def commitBlock (m : Mempool) (args : CommitBlockArgs) :
    Option (Mempool × Except MempoolError Unit) :=
  match m.alignToCommittedNonces args.nonces with
  | none => none
  | some (m, .error e) => some (m, .error e)
  | some (m, .ok ()) => do
    let m ← m.rewindNonces (m.mempoolState.keys.filter fun address =>
      !args.nonces.containsKey address)
    let m ← m.removeCommittedTxs args.txHashes
    pure ({ m with mempoolState := [] }, .ok ())

/-- `_update_gas_price_threshold`. -/
def updateGasPriceThreshold (m : Mempool) (threshold : Nat) : Mempool :=
  { m with txQueue := m.txQueue.updateGasPriceThreshold threshold }

end Mempool

/-! ## 3. Runs of calls -/

/-- A call on the mempool. -/
inductive Call
  | addTx (tx : TransactionReference) (accountState : AccountState)
  | getTxs (nTxs : Nat)
  | commitBlock (args : CommitBlockArgs)
  | updateGasPriceThreshold (threshold : Nat)
  deriving DecidableEq, Repr

/-- One call: the new state, and the transactions handed out if it was a `get_txs` that
returned `Ok`.  A panic is `none`. -/
def Mempool.step (m : Mempool) : Call → Option (Mempool × List TransactionReference)
  | .addTx tx accountState => (m.addTx tx accountState).map fun r => (r.1, [])
  | .getTxs nTxs =>
    (m.getTxs nTxs).map fun r =>
      (r.1, match r.2 with
        | .ok txs => txs
        | .error _ => [])
  | .commitBlock args => (m.commitBlock args).map fun r => (r.1, [])
  | .updateGasPriceThreshold threshold => some (m.updateGasPriceThreshold threshold, [])

/-- A sequence of calls from a state. -/
def Mempool.run (m : Mempool) (calls : List Call) : Option (Mempool × List TransactionReference) :=
  Sequencer.run Mempool.step m calls

/-! ## 4. Fee escalation, and what a failed `add_tx` leaves behind

`increased_enough` multiplies in `u128` and rejects when the product overflows, so the rule it
applies is the unbounded one only below `2 ^ 128`.  A failed `add_tx` leaves the mempool as it
was, except on one path: `handle_fee_escalation` has already removed the replaced transaction
when `TransactionPool::insert` reports that the incoming hash is taken. -/

/-- `TransactionPool::insert` fails only on a known hash, before it writes anything. -/
theorem TransactionPool.insert_eq_error {p p' : TransactionPool} {tx : TransactionReference}
    {e : MempoolError} (h : p.insert tx = some (p', .error e)) :
    p' = p ∧ e = .duplicateTransaction tx.txHash := by
  unfold TransactionPool.insert at h
  split_ifs at h with hdup
  · simp only [Option.some.injEq, Prod.mk.injEq, Except.error.injEq] at h
    exact ⟨h.1.symm, h.2.symm⟩
  · split at h <;> simp at h

namespace Mempool

/-- The comparison `increased_enough` makes, over the integers, when it makes one. -/
theorem increasedEnough_eq_true_iff {m : Mempool} {existingValue incomingValue : Nat} :
    m.increasedEnough existingValue incomingValue = true ↔
      existingValue * (100 + m.feeEscalationPercentage) < 2 ^ 128 ∧
        existingValue * (100 + m.feeEscalationPercentage) / 100 ≤ incomingValue := by
  simp only [increasedEnough]
  split_ifs with h
  · simp only [decide_eq_true_eq, ge_iff_le]
    exact ⟨fun hle => ⟨h, hle⟩, fun hc => hc.2⟩
  · simp only [false_iff, not_and]
    exact fun hc => absurd hc h

/-- On an overflowing product no incoming value is enough. -/
theorem increasedEnough_of_overflow {m : Mempool} {existingValue : Nat} (incomingValue : Nat)
    (h : 2 ^ 128 ≤ existingValue * (100 + m.feeEscalationPercentage)) :
    m.increasedEnough existingValue incomingValue = false := by
  rw [Bool.eq_false_iff, ne_eq, increasedEnough_eq_true_iff]
  omega

/-- A rejected escalation returns `DuplicateNonce` and changes nothing. -/
theorem handleFeeEscalation_of_not_replace {m : Mempool} {incomingTx existingTx : TransactionReference}
    (hexisting : m.txPool.getByAddressAndNonce incomingTx.address incomingTx.nonce = some existingTx)
    (hreject : m.shouldReplaceTx existingTx incomingTx = false) :
    m.handleFeeEscalation incomingTx =
      some (m, .error (.duplicateNonce incomingTx.address incomingTx.nonce)) := by
  simp [handleFeeEscalation, hexisting, hreject]

/-- `handle_fee_escalation` fails only by rejecting, which changes nothing; it changes the
mempool only by replacing an existing transaction that the incoming one pays enough over. -/
theorem handleFeeEscalation_cases {m m' : Mempool} {incomingTx : TransactionReference}
    {r : Except MempoolError Unit} (h : m.handleFeeEscalation incomingTx = some (m', r)) :
    m' = m ∨ (r = .ok () ∧ ∃ existingTx,
      m.txPool.getByAddressAndNonce incomingTx.address incomingTx.nonce = some existingTx ∧
        m.shouldReplaceTx existingTx incomingTx = true) := by
  unfold handleFeeEscalation at h
  split at h
  · simp only [Option.some.injEq, Prod.mk.injEq] at h
    exact .inl h.1.symm
  · rename_i existingTx hexisting
    split_ifs at h with hreject
    · simp only [Option.some.injEq, Prod.mk.injEq] at h
      exact .inl h.1.symm
    · split at h
      · simp only [Option.some.injEq, Prod.mk.injEq] at h
        simp only [Bool.not_eq_true', Bool.not_eq_false] at hreject
        exact .inr ⟨h.2.symm, existingTx, hexisting, hreject⟩
      · simp at h

/-- **A failed `add_tx` changes the mempool on one path only**: the escalation replaced an
existing transaction, and the pool then refused the incoming hash as a duplicate. -/
theorem addTx_eq_error {m m' : Mempool} {tx : TransactionReference} {accountState : AccountState}
    {e : MempoolError} (h : m.addTx tx accountState = some (m', .error e)) :
    m' = m ∨ (e = .duplicateTransaction tx.txHash ∧ ∃ existingTx,
      m.txPool.getByAddressAndNonce tx.address tx.nonce = some existingTx ∧
        m.shouldReplaceTx existingTx tx = true) := by
  unfold addTx at h
  split at h
  · simp only [Option.some.injEq, Prod.mk.injEq] at h
    exact .inl h.1.symm
  · split at h
    · simp at h
    · rename_i m₁ e₁ hfee
      simp only [Option.some.injEq, Prod.mk.injEq] at h
      rcases handleFeeEscalation_cases hfee with rfl | ⟨hok, -⟩
      · exact .inl h.1.symm
      · cases hok
    · rename_i m₁ hfee
      split at h
      · simp at h
      · rename_i txPool e₂ hinsert
        simp only [Option.some.injEq, Prod.mk.injEq, Except.error.injEq] at h
        obtain ⟨rfl, rfl⟩ := TransactionPool.insert_eq_error hinsert
        obtain ⟨rfl, rfl⟩ := h
        rcases handleFeeEscalation_cases hfee with rfl | ⟨-, hreplace⟩
        · exact .inl rfl
        · exact .inr ⟨rfl, hreplace⟩
      · -- after a successful insert, the alignment only ever returns `Ok`
        have hok : ∀ o : Option Mempool,
            o.map (fun m => (m, (.ok () : Except MempoolError Unit))) ≠ some (m', .error e) := by
          intro o
          cases o <;> simp
        dsimp only at h
        split at h
        · split_ifs at h
          · simp at h
          · exact absurd h (hok _)
        · exact absurd h (hok _)

/-- **An escalation over an existing price whose product overflows `u128` is rejected,
whatever the incoming price**, and the mempool is left as it was. -/
theorem addTx_eq_duplicateNonce_of_overflow {m : Mempool} {tx existingTx : TransactionReference}
    {accountState : AccountState}
    (hvalid : m.validateIncomingNonce tx.nonce accountState = .ok ())
    (hexisting : m.txPool.getByAddressAndNonce tx.address tx.nonce = some existingTx)
    (hoverflow : 2 ^ 128 ≤ existingTx.maxL2GasPrice * (100 + m.feeEscalationPercentage)) :
    m.addTx tx accountState = some (m, .error (.duplicateNonce tx.address tx.nonce)) := by
  have hreject : m.shouldReplaceTx existingTx tx = false := by
    simp [shouldReplaceTx, increasedEnough_of_overflow tx.maxL2GasPrice hoverflow]
  simp only [addTx, hvalid, handleFeeEscalation_of_not_replace hexisting hreject]

end Mempool

/-! ## 5. Where block building hands a transaction out twice, or panics -/

/-- `insert` panics on an address that already has a transaction queued. -/
theorem TransactionQueue.insert_eq_none_of_getNonce {q : TransactionQueue}
    {txReference : TransactionReference} (h : (q.getNonce txReference.address).isSome) :
    q.insert txReference = none := by
  obtain ⟨queued, hq⟩ := Option.isSome_iff_exists.mp h
  obtain ⟨old, hold, -⟩ := Option.map_eq_some_iff.mp hq
  simp only [TransactionQueue.insert, HashMap.insert, hold]

/-- So the rewind of `commit_block` panics on an address whose successor transaction `get_txs`
has already queued: it re-queues the lowest-nonce transaction without removing the queued one. -/
theorem Mempool.rewindNonces_eq_none_of_queued {m : Mempool} {address : Nat}
    {addresses : List Nat} {txReference : TransactionReference}
    (hlowest : (m.txPool.accountTxsSortedByNonce address).head? = some txReference)
    (hqueued : (m.txQueue.getNonce txReference.address).isSome) :
    m.rewindNonces (address :: addresses) = none := by
  simp only [Mempool.rewindNonces, hlowest, TransactionQueue.insert_eq_none_of_getNonce hqueued,
    Option.bind_eq_bind, Option.bind_none]

/-- Transaction `0` of address 0 is handed out by `get_txs`; then transaction `1` of the same
address arrives with the account nonce the gateway still reports, 0.  `add_tx` aligns to that
nonce and re-queues transaction `0`, which the pool still holds, and the next `get_txs` hands it
out again. -/
theorem getTxs_returns_tx_twice_before_commit :
    (Mempool.run Mempool.empty
        [.addTx ⟨0, 0, 1, 0, 0⟩ ⟨0, 0⟩, .getTxs 1, .addTx ⟨0, 1, 2, 0, 0⟩ ⟨0, 0⟩, .getTxs 1]).map
      Prod.snd = some [⟨0, 0, 1, 0, 0⟩, ⟨0, 0, 1, 0, 0⟩] := by
  decide

/-- Transactions `0` and `1` of address 0 are in the pool; `get_txs` hands out `0` and queues
`1`; the block includes nothing of address 0.  The rewind of `commit_block` re-queues `0` while
`1` is queued, and `TransactionQueue::insert` panics. -/
theorem commitBlock_rewind_panics :
    Mempool.run Mempool.empty
      [.addTx ⟨0, 0, 1, 0, 0⟩ ⟨0, 0⟩, .addTx ⟨0, 1, 2, 0, 0⟩ ⟨0, 0⟩, .getTxs 1,
        .commitBlock ⟨[], []⟩] = none := by
  decide

end Sequencer.Mempool
