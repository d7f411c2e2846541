/-
# The transaction queue (`mempool/src/transaction_queue.rs`)

The queue holds, per address, the one transaction that may be sequenced next.  It keeps three
views of it: `address_to_tx`, and one of two `BTreeSet`s by the transaction's L2 gas price
against the threshold, the priority queue (ordered by tip) and the pending queue (ordered by
price).  `insert` asserts that the address has no transaction queued yet, and that the set
had no equal element.
-/
import Sequencer.Mempool.TransactionPool

namespace Sequencer.Mempool

/-- `Ord for PendingTransaction`: by gas price, then by hash. -/
def PendingTransaction.cmp (a b : TransactionReference) : Ordering :=
  (compare a.maxL2GasPrice b.maxL2GasPrice).then (compare a.txHash b.txHash)

/-- `Ord for PriorityTransaction`: by tip, then by hash. -/
def PriorityTransaction.cmp (a b : TransactionReference) : Ordering :=
  (compare a.tip b.tip).then (compare a.txHash b.txHash)

/-- `TransactionQueue`. -/
structure TransactionQueue where
  gasPriceThreshold : Nat
  priorityQueue : BTreeSet TransactionReference
  pendingQueue : BTreeSet TransactionReference
  addressToTx : HashMap Nat TransactionReference
  deriving DecidableEq, Repr

namespace TransactionQueue

/-- `TransactionQueue::default()`. -/
def empty : TransactionQueue := ⟨0, [], [], []⟩

/-- `insert`, with its two assertions. -/
def insert (q : TransactionQueue) (txReference : TransactionReference) :
    Option TransactionQueue :=
  match q.addressToTx.insert txReference.address txReference with
  | (some _, _) => none
  | (none, addressToTx) =>
    if txReference.maxL2GasPrice < q.gasPriceThreshold then
      match BTreeSet.insert PendingTransaction.cmp q.pendingQueue txReference with
      | (_, false) => none
      | (pendingQueue, true) => some { q with addressToTx, pendingQueue }
    else
      match BTreeSet.insert PriorityTransaction.cmp q.priorityQueue txReference with
      | (_, false) => none
      | (priorityQueue, true) => some { q with addressToTx, priorityQueue }

/-- The `filter_map` of `pop_ready_chunk`: `n` calls of `pop_last`, the empty ones dropped. -/
def popLastTimes : BTreeSet TransactionReference → Nat →
    List TransactionReference × BTreeSet TransactionReference
  | s, 0 => ([], s)
  | s, n + 1 =>
    match BTreeSet.popLast s with
    | (none, s) => popLastTimes s n
    | (some tx, s) => let r := popLastTimes s n; (tx :: r.1, r.2)

/-- `pop_ready_chunk`: up to `n_txs` transactions of highest tip, out of the queue. -/
def popReadyChunk (q : TransactionQueue) (nTxs : Nat) :
    List TransactionReference × TransactionQueue :=
  let (txs, priorityQueue) := popLastTimes q.priorityQueue nTxs
  let addressToTx := txs.foldl (fun m tx => (HashMap.remove m tx.address).2) q.addressToTx
  (txs, { q with priorityQueue, addressToTx })

/-- `get_nonce`. -/
def getNonce (q : TransactionQueue) (address : Nat) : Option Nat :=
  (q.addressToTx.get address).map (·.nonce)

/-- `remove`: whether the address had a transaction in one of the two sets. -/
def remove (q : TransactionQueue) (address : Nat) : Bool × TransactionQueue :=
  match q.addressToTx.remove address with
  | (none, _) => (false, q)
  | (some tx, addressToTx) =>
    match BTreeSet.remove PriorityTransaction.cmp q.priorityQueue tx with
    | (priorityQueue, true) => (true, { q with addressToTx, priorityQueue })
    | (_, false) =>
      let (pendingQueue, removed) := BTreeSet.remove PendingTransaction.cmp q.pendingQueue tx
      (removed, { q with addressToTx, pendingQueue })

/-- `has_ready_txs`, which is `true` when the priority queue is EMPTY. -/
def hasReadyTxs (q : TransactionQueue) : Bool := q.priorityQueue.isEmpty

/-- `_promote_txs_to_priority`: the pending transactions at or above the new, lower threshold
move to the priority queue. -/
def promoteTxsToPriority (q : TransactionQueue) (threshold : Nat) : TransactionQueue :=
  let tmpSplitTx : TransactionReference := ⟨0, 0, 0, 0, threshold⟩
  let (pendingQueue, txsOverThreshold) :=
    BTreeSet.splitOff PendingTransaction.cmp q.pendingQueue tmpSplitTx
  { q with pendingQueue,
           priorityQueue := BTreeSet.extend PriorityTransaction.cmp q.priorityQueue txsOverThreshold }

/-- `_demote_txs_to_pending`: the priority transactions below the new, higher threshold move to
the pending queue. -/
def demoteTxsToPending (q : TransactionQueue) (threshold : Nat) : TransactionQueue :=
  let txsToRemove := q.priorityQueue.filter fun tx => tx.maxL2GasPrice < threshold
  let priorityQueue :=
    txsToRemove.foldl (fun s tx => (BTreeSet.remove PriorityTransaction.cmp s tx).1)
      q.priorityQueue
  { q with priorityQueue,
           pendingQueue := BTreeSet.extend PendingTransaction.cmp q.pendingQueue txsToRemove }

/-- `_update_gas_price_threshold`. -/
def updateGasPriceThreshold (q : TransactionQueue) (threshold : Nat) : TransactionQueue :=
  let q :=
    match compare threshold q.gasPriceThreshold with
    | .lt => q.promoteTxsToPriority threshold
    | .gt => q.demoteTxsToPending threshold
    | .eq => q
  { q with gasPriceThreshold := threshold }

end TransactionQueue

end Sequencer.Mempool
