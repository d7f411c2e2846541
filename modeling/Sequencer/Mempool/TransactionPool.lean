/-
# The transaction pool (`mempool/src/transaction_pool.rs`)

`TransactionPool` holds every transaction of the mempool twice: by hash, and by sender and nonce
(`AccountTransactionIndex`, a `BTreeMap` of nonces per address).  Its documented invariant is that
the two hold the same transactions; three `panic!`s and one `expect` fire when they do not.

The mempool reads a transaction only through its `TransactionReference` (sender, nonce, hash,
tip, L2 gas price), so the model stores that reference as the transaction.  Addresses, nonces,
hashes, tips and prices are numbers.

A call returns `none` when it panics.  A call that returns `Err` still returns the state it has
reached: `&mut self` keeps whatever was written before the error.
-/
import Mathlib.Algebra.Group.Nat.Defs
import Sequencer.Lib.Collections

namespace Sequencer.Mempool

/-! ## 1. The data the mempool exchanges -/

/-- `TransactionReference`: what the mempool keeps of a transaction. -/
structure TransactionReference where
  address : Nat
  nonce : Nat
  txHash : Nat
  tip : Nat
  maxL2GasPrice : Nat
  deriving DecidableEq, Repr

/-- `AccountState`: an address and its account nonce, as the caller sees it. -/
structure AccountState where
  address : Nat
  nonce : Nat
  deriving DecidableEq, Repr

/-- `MempoolError`, without the p2p variant nothing modelled returns. -/
inductive MempoolError
  | duplicateNonce (address nonce : Nat)
  | duplicateTransaction (txHash : Nat)
  | transactionNotFound (txHash : Nat)
  | feltOutOfRange
  deriving DecidableEq, Repr

/-- The prime of the field a nonce is an element of. -/
def feltPrime : Nat := 2 ^ 251 + 17 * 2 ^ 192 + 1

/-- `Nonce::try_increment`: the increment of the largest field element wraps to zero, which it
reports as an error. -/
def Nonce.tryIncrement (nonce : Nat) : Option Nat :=
  if nonce + 1 = feltPrime then none else some (nonce + 1)

/-! ## 2. `AccountTransactionIndex` -/

/-- `AccountTransactionIndex`: per address, its transactions by nonce. -/
abbrev AccountTransactionIndex := HashMap Nat (BTreeMap Nat TransactionReference)

namespace AccountTransactionIndex

/-- `insert`: the transaction it displaces under the same address and nonce, if any. -/
def insert (idx : AccountTransactionIndex) (tx : TransactionReference) :
    Option TransactionReference × AccountTransactionIndex :=
  let (old, accountTxs) := ((idx.get tx.address).getD []).insert tx.nonce tx
  (old, (HashMap.insert idx tx.address accountTxs).2)

/-- `remove`: drops the address once its last transaction is gone. -/
def remove (idx : AccountTransactionIndex) (tx : TransactionReference) :
    Option TransactionReference × AccountTransactionIndex :=
  match idx.get tx.address with
  | none => (none, idx)
  | some accountTxs =>
    let (removed, accountTxs) := accountTxs.remove tx.nonce
    let idx := (HashMap.insert idx tx.address accountTxs).2
    if removed.isSome && accountTxs.isEmpty then (removed, (HashMap.remove idx tx.address).2)
    else (removed, idx)

/-- `get`. -/
def get (idx : AccountTransactionIndex) (address nonce : Nat) : Option TransactionReference :=
  (HashMap.get idx address).bind fun accountTxs => accountTxs.get nonce

/-- `account_txs_sorted_by_nonce`. -/
def accountTxsSortedByNonce (idx : AccountTransactionIndex) (address : Nat) :
    List TransactionReference :=
  match HashMap.get idx address with
  | none => []
  | some accountTxs => accountTxs.values

/-- `remove_up_to_nonce`: the transactions of `address` below `nonce`, in nonce order, and the
index without them. -/
def removeUpToNonce (idx : AccountTransactionIndex) (address nonce : Nat) :
    List TransactionReference × AccountTransactionIndex :=
  match HashMap.get idx address with
  | none => ([], idx)
  | some accountTxs =>
    let (lower, higherOrEqual) := accountTxs.splitOff nonce
    let idx :=
      if higherOrEqual.isEmpty then (HashMap.remove idx address).2
      else (HashMap.insert idx address higherOrEqual).2
    (BTreeMap.values lower, idx)

end AccountTransactionIndex

/-! ## 3. `TransactionPool` -/

/-- `TransactionPool`; `capacity` is `PoolCapacity::n_txs`. -/
structure TransactionPool where
  txPool : HashMap Nat TransactionReference
  txsByAccount : AccountTransactionIndex
  capacity : Nat
  deriving DecidableEq, Repr

namespace TransactionPool

/-- `TransactionPool::default()`. -/
def empty : TransactionPool := ⟨[], [], 0⟩

/-- `insert`: `DuplicateTransaction` on a known hash; panics if the account index already has a
transaction at the same address and nonce. -/
def insert (p : TransactionPool) (tx : TransactionReference) :
    Option (TransactionPool × Except MempoolError Unit) :=
  if p.txPool.containsKey tx.txHash then some (p, .error (.duplicateTransaction tx.txHash))
  else
    let txPool := (p.txPool.insert tx.txHash tx).2
    match p.txsByAccount.insert tx with
    | (some _, _) => none
    | (none, txsByAccount) => some (⟨txPool, txsByAccount, p.capacity + 1⟩, .ok ())

/-- `PoolCapacity::remove`: panics on an empty pool. -/
def capacityRemove (capacity : Nat) : Option Nat :=
  if capacity = 0 then none else some (capacity - 1)

/-- `remove`: `TransactionNotFound` on an unknown hash; panics if the account index does not
have the transaction. -/
def remove (p : TransactionPool) (txHash : Nat) :
    Option (TransactionPool × Except MempoolError TransactionReference) :=
  match p.txPool.remove txHash with
  | (none, _) => some (p, .error (.transactionNotFound txHash))
  | (some tx, txPool) =>
    match p.txsByAccount.remove tx with
    | (none, _) => none
    | (some _, txsByAccount) =>
      (capacityRemove p.capacity).map fun capacity => (⟨txPool, txsByAccount, capacity⟩, .ok tx)

/-- The loop of `remove_up_to_nonce` over the transactions taken out of the account index:
each must be in the main mapping. -/
def removeFromMainMapping (p : TransactionPool) : List TransactionReference → Option TransactionPool
  | [] => some p
  | tx :: txs =>
    match p.txPool.remove tx.txHash with
    | (none, _) => none
    | (some _, txPool) => do
      let capacity ← capacityRemove p.capacity
      removeFromMainMapping { p with txPool, capacity } txs

/-- `remove_up_to_nonce`. -/
def removeUpToNonce (p : TransactionPool) (address nonce : Nat) : Option TransactionPool :=
  let (removedTxs, txsByAccount) := p.txsByAccount.removeUpToNonce address nonce
  removeFromMainMapping { p with txsByAccount } removedTxs

/-- `account_txs_sorted_by_nonce`. -/
def accountTxsSortedByNonce (p : TransactionPool) (address : Nat) : List TransactionReference :=
  p.txsByAccount.accountTxsSortedByNonce address

/-- `get_by_tx_hash`. -/
def getByTxHash (p : TransactionPool) (txHash : Nat) : Except MempoolError TransactionReference :=
  match p.txPool.get txHash with
  | none => .error (.transactionNotFound txHash)
  | some tx => .ok tx

/-- `get_by_address_and_nonce`. -/
def getByAddressAndNonce (p : TransactionPool) (address nonce : Nat) :
    Option TransactionReference :=
  p.txsByAccount.get address nonce

/-- `get_next_eligible_tx`: the transaction at the nonce after the given one. -/
def getNextEligibleTx (p : TransactionPool) (currentAccountState : AccountState) :
    Except MempoolError (Option TransactionReference) :=
  match Nonce.tryIncrement currentAccountState.nonce with
  | none => .error .feltOutOfRange
  | some nextNonce => .ok (p.getByAddressAndNonce currentAccountState.address nextNonce)

end TransactionPool

end Sequencer.Mempool
