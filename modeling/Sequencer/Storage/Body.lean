/-
# Block bodies in the storage (`papyrus_storage`: `body/mod.rs`)

`append_body` writes the transactions of a block into three tables: `transaction_metadata`, from
the `TransactionIndex` `(block, offset)` of each transaction to where its transaction and its
output were appended in the files, and its hash; `transaction_hash_to_idx`; and `events`, which
holds a key `(address, transaction index)` for each address that emitted an event in that
transaction.  `revert_body` deletes what the last block wrote.  Both check and move the body and
event markers: the first block not yet written.

The files are append-only and read back what was appended at a location, so the metadata of a
transaction is modelled as its output and its hash; the transactions themselves are never read
by what is modelled here, only their number.

`BodyStorage.Holds` says what the tables hold after the bodies in a list were stored: the
metadata table lists the transactions of every block in `(block, offset)` order
(`metadataEntries`), and the events table has a key exactly where a stored transaction's output
has an event from the address.  `Holds.writes` carries it along every sequence of appends and
reverts, whatever the calls, including those that fail.
-/
import Sequencer.Storage.State
import Mathlib.Data.List.Dedup
import Mathlib.Data.List.TakeWhile

namespace Sequencer.Storage

open OrderedTable

/-! ## 1. Bodies and tables -/

abbrev TransactionOffsetInBlock := Nat
abbrev TransactionHash := Nat

/-- `TransactionIndex`: a block and an offset in it, in the order of the table's keys. -/
abbrev TransactionIndex := BlockNumber ×ₗ TransactionOffsetInBlock

/-- `EventContent`. -/
structure EventContent where
  keys : List Felt
  data : List Felt
  deriving DecidableEq, Repr

/-- `Event`. -/
structure Event where
  fromAddress : ContractAddress
  content : EventContent
  deriving DecidableEq, Repr

/-- `TransactionOutput`, through `events()`: the events the transaction emitted. -/
structure TransactionOutput where
  events : List Event
  deriving DecidableEq, Repr

/-- `BlockBody`, over the type of its transactions. -/
structure BlockBody (Transaction : Type) where
  transactions : List Transaction
  transactionOutputs : List TransactionOutput
  transactionHashes : List TransactionHash

/-- `TransactionMetadata`: the output its location points to, and the hash. -/
structure TransactionMetadata where
  txOutput : TransactionOutput
  txHash : TransactionHash
  deriving DecidableEq, Repr

/-- `StorageScope`. -/
inductive StorageScope
  | fullArchive
  | stateOnly
  deriving DecidableEq, Repr

/-- The tables of the block bodies, and the body and event markers. -/
structure BodyStorage where
  scope : StorageScope
  transactionMetadata : OrderedTable TransactionIndex TransactionMetadata
  transactionHashToIdx : OrderedTable TransactionHash TransactionIndex
  events : OrderedTable (ContractAddress ×ₗ TransactionIndex) Unit
  bodyMarker : BlockNumber
  eventMarker : BlockNumber

/-- A storage nothing was written to; a missing marker reads as block `0`. -/
def BodyStorage.empty (scope : StorageScope) : BodyStorage :=
  ⟨scope, .empty, .empty, .empty, 0, 0⟩

/-! ## 2. Appending a block -/

/-- `TableHandle::append_greater_sub_key` on the events table: the transaction index must be
above every transaction index already there for the address. -/
def appendGreaterTransactionIndex (t : OrderedTable (ContractAddress ×ₗ TransactionIndex) Unit)
    (address : ContractAddress) (transactionIndex : TransactionIndex) :
    Except DbError (OrderedTable (ContractAddress ×ₗ TransactionIndex) Unit) :=
  if t.entries.any (fun e => (ofLex e.1).1 = address ∧ transactionIndex ≤ (ofLex e.1).2) then
    .error .append
  else .ok (t.set (toLex (address, transactionIndex)) ())

/-- `write_events`: one key per address with an event in the output.  The addresses are a
`HashSet`; the writes of distinct addresses commute, so its order does not matter. -/
def writeEvents (txOutput : TransactionOutput)
    (eventsTable : OrderedTable (ContractAddress ×ₗ TransactionIndex) Unit)
    (transactionIndex : TransactionIndex) :
    Except DbError (OrderedTable (ContractAddress ×ₗ TransactionIndex) Unit) :=
  (txOutput.events.map (·.fromAddress)).dedup.foldlM
    (fun t contractAddress => appendGreaterTransactionIndex t contractAddress transactionIndex)
    eventsTable

section Append

variable {Transaction : Type}

/-- `write_transactions`: the transactions, outputs and hashes of the body, zipped, at the
offsets `0, 1, …` of the block. -/
def writeTransactions (blockBody : BlockBody Transaction) (s : BodyStorage)
    (blockNumber : BlockNumber) : Except DbError BodyStorage :=
  ((blockBody.transactions.zip blockBody.transactionOutputs).zip
      blockBody.transactionHashes).zipIdx.foldlM
    (fun s (((_, txOutput), txHash), index) => do
      let transactionIndex : TransactionIndex := toLex (blockNumber, index)
      let events ← writeEvents txOutput s.events transactionIndex
      let transactionHashToIdx ← insert s.transactionHashToIdx txHash transactionIndex
      let transactionMetadata ← append s.transactionMetadata transactionIndex ⟨txOutput, txHash⟩
      pure { s with events, transactionHashToIdx, transactionMetadata })
    s

/-- `update_marker`: both markers must be at the block, and move past it. -/
def updateMarker (s : BodyStorage) (blockNumber : BlockNumber) : Except StorageError BodyStorage :=
  if s.bodyMarker ≠ blockNumber then .error (.markerMismatch s.bodyMarker blockNumber)
  else if s.eventMarker ≠ blockNumber then .error (.markerMismatch s.eventMarker blockNumber)
  else .ok { s with bodyMarker := blockNumber + 1, eventMarker := blockNumber + 1 }

/-- `BodyStorageWriter::append_body`.  A failed write aborts the transaction, which leaves the
storage as it was. -/
def BodyStorage.appendBody (s : BodyStorage) (blockNumber : BlockNumber)
    (blockBody : BlockBody Transaction) : Except StorageError BodyStorage := do
  let s ← updateMarker s blockNumber
  if s.scope = .stateOnly then pure s
  else (writeTransactions blockBody s blockNumber).mapError .innerError

end Append

/-! ## 3. Reading and reverting a block -/

/-- `get_vector_of_transaction_objects`: the metadata of the block's transactions, from the
lower bound of `(block, 0)` while the block is the same; `None` for a block not yet written. -/
def BodyStorage.getVectorOfTransactionObjects {T : Type} (s : BodyStorage)
    (blockNumber : BlockNumber) (txMetadataToTxObject : TransactionMetadata → T) :
    Option (List T) :=
  if s.bodyMarker ≤ blockNumber then none
  else some (((s.transactionMetadata.entries.drop
      (s.transactionMetadata.lowerBound (toLex (blockNumber, 0)))).takeWhile
      (fun e => (ofLex e.1).1 = blockNumber)).map fun e => txMetadataToTxObject e.2)

/-- The deletions `revert_body` makes for the transaction at an offset of the block. -/
def deleteTransaction (blockNumber : BlockNumber) (s : BodyStorage) :
    (TransactionHash × TransactionOutput) × Nat → BodyStorage
  | ((txHash, txOutput), offset) =>
    let txIndex : TransactionIndex := toLex (blockNumber, offset)
    { s with
      events := txOutput.events.foldl
        (fun t event => t.erase (toLex (event.fromAddress, txIndex))) s.events
      transactionHashToIdx := s.transactionHashToIdx.erase txHash
      transactionMetadata := s.transactionMetadata.erase txIndex }

/-- `BodyStorageWriter::revert_body`: only the last block is reverted, anything else is left
as it is.  A block whose transactions cannot be read panics (`none`); the transactions
themselves, which are read and returned the same way, are not modelled. -/
def BodyStorage.revertBody (s : BodyStorage) (blockNumber : BlockNumber) : Option BodyStorage :=
  if s.bodyMarker ≠ blockNumber + 1 then some s
  else
    let reverted : Option BodyStorage :=
      if s.scope = .stateOnly then some s
      else do
        let transactionOutputs ← s.getVectorOfTransactionObjects blockNumber (·.txOutput)
        let transactionHashes ← s.getVectorOfTransactionObjects blockNumber (·.txHash)
        pure ((transactionHashes.zip transactionOutputs).zipIdx.foldl
          (deleteTransaction blockNumber) s)
    reverted.map fun s => { s with bodyMarker := blockNumber, eventMarker := blockNumber }

/-- A call of the body writer. -/
inductive BodyWrite (Transaction : Type)
  | appendBody (blockNumber : BlockNumber) (blockBody : BlockBody Transaction)
  | revertBody (blockNumber : BlockNumber)

section Writes

variable {Transaction : Type}

/-- One call, committed: a failed append commits nothing; a revert may panic. -/
def BodyStorage.write (s : BodyStorage) : BodyWrite Transaction → Option BodyStorage
  | .appendBody blockNumber blockBody =>
    match s.appendBody blockNumber blockBody with
    | .ok s' => some s'
    | .error _ => some s
  | .revertBody blockNumber => s.revertBody blockNumber

/-- A sequence of calls, each in its own transaction. -/
def BodyStorage.writes (s : BodyStorage) : List (BodyWrite Transaction) → Option BodyStorage
  | [] => some s
  | w :: ws => (s.write w).bind fun s' => s'.writes ws

end Writes

section Tables

variable {κ ν : Type} [LinearOrder κ]

/-- A successful `append` puts the binding after every other, at a key bound nowhere. -/
theorem append_eq_ok_entries {t t' : OrderedTable κ ν} {k : κ} {v : ν}
    (h : append t k v = .ok t') : t'.entries = t.entries ++ [(k, v)] ∧ ∀ e ∈ t.entries, e.1 < k := by
  unfold append at h
  split_ifs at h with hany
  cases h
  have hlt : ∀ e ∈ t.entries, e.1 < k := by
    intro e he
    by_contra hle
    exact hany (List.any_eq_true.mpr ⟨e, he, by simpa using not_lt.mp hle⟩)
  exact ⟨insertEntry_of_lt hlt, hlt⟩

end Tables


/-! ## 4. What the tables hold -/

/-- The metadata of one block's transactions, at the offsets `0, 1, …`. -/
def blockEntries (blockNumber : BlockNumber) (txs : List TransactionMetadata) :
    List (TransactionIndex × TransactionMetadata) :=
  txs.zipIdx.map fun (m, offset) => (toLex (blockNumber, offset), m)

/-- The metadata table after the transactions of the blocks were stored, in order. -/
def metadataEntries (bodies : List (List TransactionMetadata)) :
    List (TransactionIndex × TransactionMetadata) :=
  bodies.zipIdx.flatMap fun (txs, blockNumber) => blockEntries blockNumber txs

/-- Whether the output has an event from the address. -/
def TransactionOutput.emits (txOutput : TransactionOutput) (address : ContractAddress) : Bool :=
  txOutput.events.any (·.fromAddress == address)

/-- Whether the events table should hold `(address, txIndex)`, for these metadata entries. -/
def hasEventKey (es : List (TransactionIndex × TransactionMetadata)) (address : ContractAddress)
    (txIndex : TransactionIndex) : Bool :=
  es.any fun e => decide (e.1 = txIndex) && e.2.txOutput.emits address

/-- What `append_body` stores of a body. -/
def BlockBody.storedMetadata {Transaction : Type} (scope : StorageScope)
    (blockBody : BlockBody Transaction) : List TransactionMetadata :=
  if scope = .stateOnly then []
  else ((blockBody.transactions.zip blockBody.transactionOutputs).zip
    blockBody.transactionHashes).map fun ((_, txOutput), txHash) => ⟨txOutput, txHash⟩

/-- **The tables after `bodies` were stored.** -/
structure BodyStorage.Holds (s : BodyStorage) (bodies : List (List TransactionMetadata)) :
    Prop where
  bodyMarker : s.bodyMarker = bodies.length
  eventMarker : s.eventMarker = bodies.length
  metadata : s.transactionMetadata.entries = metadataEntries bodies
  events : ∀ address txIndex, s.events.get (toLex (address, txIndex)) =
    if hasEventKey (metadataEntries bodies) address txIndex then some () else none
  stateOnly : s.scope = .stateOnly → metadataEntries bodies = []

theorem metadataEntries_append (bodies : List (List TransactionMetadata))
    (txs : List TransactionMetadata) :
    metadataEntries (bodies ++ [txs]) = metadataEntries bodies ++ blockEntries bodies.length txs := by
  simp [metadataEntries, List.zipIdx_append]

theorem block_lt_of_mem_metadataEntries {bodies : List (List TransactionMetadata)}
    {e : TransactionIndex × TransactionMetadata} (he : e ∈ metadataEntries bodies) :
    (ofLex e.1).1 < bodies.length := by
  obtain ⟨⟨txs, blockNumber⟩, hmem, he⟩ := List.mem_flatMap.mp he
  obtain ⟨⟨m, offset⟩, -, rfl⟩ := List.mem_map.mp he
  simpa using (List.mem_zipIdx hmem).2.1

theorem block_eq_of_mem_blockEntries {blockNumber : BlockNumber} {txs : List TransactionMetadata}
    {e : TransactionIndex × TransactionMetadata} (he : e ∈ blockEntries blockNumber txs) :
    (ofLex e.1).1 = blockNumber ∧ (ofLex e.1).2 < txs.length := by
  obtain ⟨⟨m, offset⟩, hmem, rfl⟩ := List.mem_map.mp he
  simpa using (List.mem_zipIdx hmem).2.1

/-! ## 5. What an append writes -/

theorem appendGreaterTransactionIndex_eq_ok
    {t t' : OrderedTable (ContractAddress ×ₗ TransactionIndex) Unit} {address : ContractAddress}
    {txIndex : TransactionIndex} (h : appendGreaterTransactionIndex t address txIndex = .ok t') :
    t' = t.set (toLex (address, txIndex)) () := by
  unfold appendGreaterTransactionIndex at h
  split_ifs at h
  cases h
  rfl

/-- Keys for some addresses at one transaction, written one by one. -/
theorem get_foldl_set_addresses (addresses : List ContractAddress) (txIndex : TransactionIndex)
    (t : OrderedTable (ContractAddress ×ₗ TransactionIndex) Unit) (address : ContractAddress)
    (txIndex' : TransactionIndex) :
    (addresses.foldl (fun t a => t.set (toLex (a, txIndex)) ()) t).get (toLex (address, txIndex')) =
      if txIndex' = txIndex ∧ address ∈ addresses then some () else t.get (toLex (address, txIndex')) := by
  induction addresses generalizing t with
  | nil => simp
  | cons a addresses ih =>
    rw [List.foldl_cons, ih, get_set]
    by_cases htx : txIndex' = txIndex <;> by_cases ha : address = a <;> simp [htx, ha]

/-- **What `write_events` writes**: a key for each address with an event in the output. -/
theorem get_writeEvents {txOutput : TransactionOutput}
    {t t' : OrderedTable (ContractAddress ×ₗ TransactionIndex) Unit} {txIndex : TransactionIndex}
    (h : writeEvents txOutput t txIndex = .ok t') (address : ContractAddress)
    (txIndex' : TransactionIndex) :
    t'.get (toLex (address, txIndex')) =
      if txIndex' = txIndex ∧ txOutput.emits address then some ()
      else t.get (toLex (address, txIndex')) := by
  have ht' := foldlM_eq_ok _ (fun t a => t.set (toLex (a, txIndex)) ())
    (fun _ _ _ hr => appendGreaterTransactionIndex_eq_ok hr) _ _ _ h
  have hmem : address ∈ (txOutput.events.map (·.fromAddress)).dedup ↔ txOutput.emits address := by
    simp [TransactionOutput.emits, List.mem_dedup]
  rw [ht', get_foldl_set_addresses]
  simp only [hmem]


theorem hasEventKey_append_singleton (es : List (TransactionIndex × TransactionMetadata))
    (e : TransactionIndex × TransactionMetadata) (address : ContractAddress)
    (txIndex : TransactionIndex) :
    hasEventKey (es ++ [e]) address txIndex =
      (hasEventKey es address txIndex || (decide (e.1 = txIndex) && e.2.txOutput.emits address)) := by
  simp [hasEventKey, List.any_append]

theorem hasEventKey_eq_false_of_lt {es : List (TransactionIndex × TransactionMetadata)}
    {txIndex : TransactionIndex} (h : ∀ e ∈ es, e.1 < txIndex) (address : ContractAddress) :
    hasEventKey es address txIndex = false := by
  simp only [hasEventKey, List.any_eq_false, Bool.and_eq_true, decide_eq_true_eq, not_and]
  exact fun e he heq => absurd heq (ne_of_lt (h e he))

section Append

variable {Transaction : Type}

/-- The events table has a key exactly where the metadata entries say. -/
def EventsMatch (s : BodyStorage) (es : List (TransactionIndex × TransactionMetadata)) : Prop :=
  ∀ address txIndex, s.events.get (toLex (address, txIndex)) =
    if hasEventKey es address txIndex then some () else none

/-- **What a successful `write_transactions` did**: each transaction's metadata went after all
others, and its events' keys with it. -/
theorem writeTransactions_eq_ok {blockBody : BlockBody Transaction} {s s' : BodyStorage}
    {blockNumber : BlockNumber} (h : writeTransactions blockBody s blockNumber = .ok s')
    (hev : EventsMatch s s.transactionMetadata.entries) :
    s'.scope = s.scope ∧ s'.bodyMarker = s.bodyMarker ∧ s'.eventMarker = s.eventMarker ∧
      s'.transactionMetadata.entries = s.transactionMetadata.entries ++
        blockEntries blockNumber (blockBody.storedMetadata .fullArchive) ∧
      EventsMatch s' s'.transactionMetadata.entries := by
  -- the transactions written so far, by their zipped fields and offsets
  let entryOf : ((Transaction × TransactionOutput) × TransactionHash) × Nat →
      TransactionIndex × TransactionMetadata := fun x => (toLex (blockNumber, x.2), ⟨x.1.1.2, x.1.2⟩)
  let I : List (((Transaction × TransactionOutput) × TransactionHash) × Nat) → BodyStorage → Prop :=
    fun D t => t.scope = s.scope ∧ t.bodyMarker = s.bodyMarker ∧ t.eventMarker = s.eventMarker ∧
      t.transactionMetadata.entries = s.transactionMetadata.entries ++ D.map entryOf ∧
      EventsMatch t t.transactionMetadata.entries
  have hfinal := foldlM_inv _ I (fun D x _ t t' _ hI hop => by
      obtain ⟨⟨⟨_, txOutput⟩, txHash⟩, index⟩ := x
      obtain ⟨hscope, hbody, hevent, hentries, hmatch⟩ := hI
      simp only [bind_eq_ok, pure_eq_ok] at hop
      obtain ⟨events, hevents, hashToIdx, -, metadata, hmetadata, rfl⟩ := hop
      obtain ⟨hmeta, hlt⟩ := append_eq_ok_entries hmetadata
      refine ⟨hscope, hbody, hevent, by simp [hmeta, hentries, entryOf], ?_⟩
      intro address txIndex
      simp only [hmeta, hasEventKey_append_singleton, get_writeEvents hevents, hmatch address txIndex]
      -- the new transaction has no key yet: every key in the table is below its index
      by_cases htx : txIndex = toLex (blockNumber, index)
      · subst htx
        simp [hasEventKey_eq_false_of_lt hlt]
      · simp [htx, Ne.symm htx])
    ⟨rfl, rfl, rfl, by simp, hev⟩ h
  obtain ⟨hscope, hbody, hevent, hentries, hmatch⟩ := hfinal
  refine ⟨hscope, hbody, hevent, ?_, hmatch⟩
  rw [hentries]
  simp [entryOf, blockEntries, BlockBody.storedMetadata, List.zipIdx_map]

end Append


section Holds

variable {Transaction : Type} {s s' : BodyStorage} {bodies : List (List TransactionMetadata)}

theorem updateMarker_eq_ok {blockNumber : BlockNumber}
    (h : updateMarker s blockNumber = .ok s') : s.bodyMarker = blockNumber ∧
      s.eventMarker = blockNumber ∧
      s' = { s with bodyMarker := blockNumber + 1, eventMarker := blockNumber + 1 } := by
  unfold updateMarker at h
  split_ifs at h with hbody hevent
  cases h
  exact ⟨not_not.mp hbody, not_not.mp hevent, rfl⟩

theorem mapError_eq_ok {ε ε' α : Type} {f : ε → ε'} {x : Except ε α} {a : α} :
    x.mapError f = .ok a ↔ x = .ok a := by
  cases x <;> simp [Except.mapError]

theorem BodyStorage.Holds.empty (scope : StorageScope) : (BodyStorage.empty scope).Holds [] :=
  ⟨rfl, rfl, rfl, fun _ _ => rfl, fun _ => rfl⟩

theorem BodyStorage.Holds.eventsMatch (hs : s.Holds bodies) :
    EventsMatch s s.transactionMetadata.entries := by
  rw [hs.metadata]
  exact hs.events

/-- **An append stores the body** at the end, in every scope. -/
theorem BodyStorage.Holds.appendBody (hs : s.Holds bodies) {blockNumber : BlockNumber}
    {blockBody : BlockBody Transaction} (h : s.appendBody blockNumber blockBody = .ok s') :
    s'.Holds (bodies ++ [blockBody.storedMetadata s.scope]) := by
  simp only [BodyStorage.appendBody, bind_eq_ok] at h
  obtain ⟨s₁, hmarker, h⟩ := h
  obtain ⟨hbody, hevent, rfl⟩ := updateMarker_eq_ok hmarker
  have hlen : blockNumber = bodies.length := hbody ▸ hs.bodyMarker
  by_cases hscope : s.scope = .stateOnly
  · -- nothing is written but the markers
    simp only [hscope, if_true, pure_eq_ok] at h
    subst h
    have hnil : metadataEntries (bodies ++ [blockBody.storedMetadata s.scope]) =
        metadataEntries bodies := by
      simp [metadataEntries_append, BlockBody.storedMetadata, hscope, blockEntries]
    exact ⟨by simp [hlen], by simp [hlen], by simpa [hnil] using hs.metadata,
      by simpa [hnil] using hs.events, fun _ => hnil ▸ hs.stateOnly hscope⟩
  · simp only [hscope, if_false, mapError_eq_ok] at h
    obtain ⟨hscope', hbody', hevent', hentries, hmatch⟩ := writeTransactions_eq_ok h hs.eventsMatch
    have hmeta : s'.transactionMetadata.entries =
        metadataEntries (bodies ++ [blockBody.storedMetadata s.scope]) := by
      rw [hentries, metadataEntries_append, hs.metadata, hlen]
      simp [BlockBody.storedMetadata, hscope]
    refine ⟨by simp [hbody', hlen], by simp [hevent', hlen], hmeta, ?_, ?_⟩
    · rw [← hmeta]
      exact hmatch
    · intro hstate
      exact absurd (hscope'.symm.trans hstate) hscope

end Holds


/-! ## 6. What a revert deletes -/

section Revert

variable {s s' : BodyStorage}

/-- Reading back a stored block: its transactions, in order. -/
theorem BodyStorage.Holds.getVectorOfTransactionObjects {T : Type}
    {bodies' : List (List TransactionMetadata)} {txs : List TransactionMetadata}
    (hs : s.Holds (bodies' ++ [txs])) (f : TransactionMetadata → T) :
    s.getVectorOfTransactionObjects bodies'.length f = some (txs.map f) := by
  have hbelow : ∀ e ∈ metadataEntries bodies', e.1 < toLex (bodies'.length, 0) := fun e he =>
    Prod.Lex.toLex_lt_toLex.mpr (.inl (block_lt_of_mem_metadataEntries he))
  -- the lower bound of `(block, 0)` is the end of the earlier blocks
  have hpos : s.transactionMetadata.lowerBound (toLex (bodies'.length, 0)) =
      (metadataEntries bodies').length := by
    rw [lowerBound, hs.metadata, metadataEntries_append,
      List.takeWhile_append_of_pos (by simpa using hbelow)]
    cases txs with
    | nil => simp [blockEntries]
    | cons m txs => simp [blockEntries, List.zipIdx_cons]
  have hblock : ∀ e ∈ blockEntries bodies'.length txs, (ofLex e.1).1 = bodies'.length :=
    fun e he => (block_eq_of_mem_blockEntries he).1
  unfold BodyStorage.getVectorOfTransactionObjects
  rw [if_neg (by rw [hs.bodyMarker]; simp), hpos, hs.metadata, metadataEntries_append,
    List.drop_left, List.takeWhile_eq_self_iff.mpr (by simpa using hblock)]
  have hfst := congrArg (List.map f) (List.zipIdx_map_fst 0 txs)
  rw [List.map_map] at hfst
  simpa [blockEntries, Function.comp_def] using hfst



/-- The deletions of a revert, table by table. -/
theorem foldl_deleteTransaction (blockNumber : BlockNumber)
    (l : List ((TransactionHash × TransactionOutput) × Nat)) (s : BodyStorage) :
    l.foldl (deleteTransaction blockNumber) s =
      { s with
        events := l.foldl (fun t x => x.1.2.events.foldl
          (fun t event => t.erase (toLex (event.fromAddress, toLex (blockNumber, x.2)))) t) s.events
        transactionHashToIdx := (l.map fun x => x.1.1).foldl erase s.transactionHashToIdx
        transactionMetadata :=
          (l.map fun x => toLex (blockNumber, x.2)).foldl erase s.transactionMetadata } := by
  induction l generalizing s with
  | nil => rfl
  | cons x l ih =>
    obtain ⟨⟨txHash, txOutput⟩, offset⟩ := x
    rw [List.foldl_cons, ih]
    rfl

/-- Erasing the keys of one output's events. -/
theorem get_foldl_erase_events (txOutput : TransactionOutput) (txIndex : TransactionIndex)
    (t : OrderedTable (ContractAddress ×ₗ TransactionIndex) Unit) (address : ContractAddress)
    (txIndex' : TransactionIndex) :
    (txOutput.events.foldl (fun t event => t.erase (toLex (event.fromAddress, txIndex))) t).get
        (toLex (address, txIndex')) =
      if txIndex' = txIndex ∧ txOutput.emits address then none
      else t.get (toLex (address, txIndex')) := by
  obtain ⟨evs⟩ := txOutput
  simp only [TransactionOutput.emits]
  induction evs generalizing t with
  | nil => simp
  | cons ev evs ih =>
    rw [List.foldl_cons, ih, get_erase]
    by_cases htx : txIndex' = txIndex
    · by_cases ha : ev.fromAddress = address
      · simp [htx, ha]
      · have ha' : address ≠ ev.fromAddress := fun h => ha h.symm
        simp [htx, ha, ha']
    · simp [htx]

/-- Erasing the keys of every output of a reverted block. -/
theorem get_foldl_erase_outputs (blockNumber : BlockNumber)
    (l : List ((TransactionHash × TransactionOutput) × Nat))
    (t : OrderedTable (ContractAddress ×ₗ TransactionIndex) Unit) (address : ContractAddress)
    (txIndex : TransactionIndex) :
    (l.foldl (fun t x => x.1.2.events.foldl
        (fun t event => t.erase (toLex (event.fromAddress, toLex (blockNumber, x.2)))) t) t).get
        (toLex (address, txIndex)) =
      if l.any (fun x => decide (toLex (blockNumber, x.2) = txIndex) && x.1.2.emits address)
      then none else t.get (toLex (address, txIndex)) := by
  induction l generalizing t with
  | nil => simp
  | cons x l ih =>
    rw [List.foldl_cons, ih, get_foldl_erase_events]
    by_cases htx : txIndex = toLex (blockNumber, x.2)
    · subst htx
      cases hx : x.1.2.emits address
      · simp only [hx, List.any_cons, decide_true, Bool.and_false, Bool.false_or,
          Bool.false_eq_true, and_false, ↓reduceIte]
      · simp only [hx, List.any_cons, decide_true, Bool.and_true, Bool.true_or, and_self, if_true,
          ite_self]
    · have htx' : toLex (blockNumber, x.2) ≠ txIndex := Ne.symm htx
      simp only [htx, false_and, ↓reduceIte, List.any_cons, decide_eq_false htx', Bool.false_and,
        Bool.false_or]


theorem hasEventKey_append (es es' : List (TransactionIndex × TransactionMetadata))
    (address : ContractAddress) (txIndex : TransactionIndex) :
    hasEventKey (es ++ es') address txIndex =
      (hasEventKey es address txIndex || hasEventKey es' address txIndex) := by
  simp [hasEventKey, List.any_append]

/-- A transaction index belongs to one block only. -/
theorem hasEventKey_blockEntries_eq_false {bodies' : List (List TransactionMetadata)}
    {txs : List TransactionMetadata} {address : ContractAddress} {txIndex : TransactionIndex}
    (h : hasEventKey (metadataEntries bodies') address txIndex = true) :
    hasEventKey (blockEntries bodies'.length txs) address txIndex = false := by
  simp only [hasEventKey, List.any_eq_true, Bool.and_eq_true, decide_eq_true_eq] at h
  obtain ⟨e, he, rfl, -⟩ := h
  simp only [hasEventKey, List.any_eq_false, Bool.and_eq_true, decide_eq_true_eq, not_and]
  intro e' he' heq
  have hlt := block_lt_of_mem_metadataEntries he
  rw [← heq, (block_eq_of_mem_blockEntries he').1] at hlt
  exact absurd hlt (lt_irrefl _)

/-- What a revert deletes, per transaction of the block it read back. -/
theorem zipIdx_zip_map (txs : List TransactionMetadata) :
    ((txs.map (·.txHash)).zip (txs.map (·.txOutput))).zipIdx =
      txs.zipIdx.map fun x => ((x.1.txHash, x.1.txOutput), x.2) := by
  rw [List.zip_map', List.zipIdx_map]
  rfl

/-- **Deleting the transactions of the last stored block** leaves the earlier blocks. -/
theorem BodyStorage.Holds.deleteTransactions {bodies' : List (List TransactionMetadata)}
    {txs : List TransactionMetadata} (hs : s.Holds (bodies' ++ [txs])) :
    ({ ((txs.map (·.txHash)).zip (txs.map (·.txOutput))).zipIdx.foldl
        (deleteTransaction bodies'.length) s with
      bodyMarker := bodies'.length, eventMarker := bodies'.length } : BodyStorage).Holds bodies' := by
  rw [foldl_deleteTransaction, zipIdx_zip_map]
  have hkeys : ((txs.zipIdx.map fun x => ((x.1.txHash, x.1.txOutput), x.2)).map
      fun x => toLex (bodies'.length, x.2)) = (blockEntries bodies'.length txs).map Prod.fst := by
    simp [blockEntries, Function.comp_def]
  have hany : ∀ address txIndex,
      ((txs.zipIdx.map fun x => ((x.1.txHash, x.1.txOutput), x.2)).any fun x =>
        decide (toLex (bodies'.length, x.2) = txIndex) && x.1.2.emits address) =
      hasEventKey (blockEntries bodies'.length txs) address txIndex := by
    intro address txIndex
    simp [hasEventKey, blockEntries, Function.comp_def]
  refine ⟨rfl, rfl, ?_, ?_, ?_⟩
  · -- the keys of the block go, those of the earlier blocks stay
    rw [entries_foldl_erase, hkeys, hs.metadata, metadataEntries_append, List.filter_append,
      List.filter_eq_self.mpr, List.filter_eq_nil_iff.mpr, List.append_nil]
    · intro e he
      simp only [decide_eq_true_eq, not_not]
      exact List.mem_map_of_mem he
    · intro e he
      simp only [decide_eq_true_eq]
      intro hmem
      obtain ⟨e', he', heq⟩ := List.mem_map.mp hmem
      have hblock := block_lt_of_mem_metadataEntries he
      rw [← heq, (block_eq_of_mem_blockEntries he').1] at hblock
      exact lt_irrefl _ hblock
  · intro address txIndex
    simp only
    rw [get_foldl_erase_outputs, hany, hs.events, metadataEntries_append, hasEventKey_append]
    cases hB : hasEventKey (blockEntries bodies'.length txs) address txIndex
    · simp
    · cases hM : hasEventKey (metadataEntries bodies') address txIndex
      · simp
      · rw [hasEventKey_blockEntries_eq_false hM] at hB
        cases hB
  · intro hscope
    have hnil := hs.stateOnly hscope
    rw [metadataEntries_append, List.append_eq_nil_iff] at hnil
    exact hnil.1


/-- **A revert of the last block** removes it; any other revert changes nothing. -/
theorem BodyStorage.Holds.revertBody {bodies : List (List TransactionMetadata)}
    (hs : s.Holds bodies) {blockNumber : BlockNumber} (h : s.revertBody blockNumber = some s') :
    s'.Holds (if s.bodyMarker = blockNumber + 1 then bodies.dropLast else bodies) := by
  unfold BodyStorage.revertBody at h
  by_cases hm : s.bodyMarker = blockNumber + 1
  · simp only [hm, ne_eq, not_true_eq_false, if_false, if_true] at h ⊢
    -- the block reverted is the last one stored
    have hne : bodies ≠ [] := by
      intro hnil
      rw [hs.bodyMarker, hnil] at hm
      simp at hm
    rw [← List.dropLast_append_getLast hne] at hs
    have hlen : blockNumber = bodies.dropLast.length := by
      have hmarker := hs.bodyMarker
      rw [hm, List.length_append, List.length_singleton] at hmarker
      exact Nat.add_right_cancel hmarker
    subst hlen
    by_cases hscope : s.scope = .stateOnly
    · simp only [hscope, if_true, Option.map_some, Option.some.injEq] at h
      subst h
      have hnil := hs.stateOnly hscope
      rw [metadataEntries_append, List.append_eq_nil_iff] at hnil
      refine ⟨rfl, rfl, by rw [hs.metadata, metadataEntries_append, hnil.1, hnil.2, List.append_nil],
        ?_, fun _ => hnil.1⟩
      intro address txIndex
      rw [hs.events, metadataEntries_append, hnil.1, hnil.2, List.append_nil]
    · simp only [hscope, if_false, hs.getVectorOfTransactionObjects] at h
      simp only [bind, Option.bind_some, pure, Option.map_some, Option.some.injEq] at h
      subst h
      exact hs.deleteTransactions
  · simp only [hm, ne_eq, not_false_eq_true, if_true, if_false, Option.some.injEq] at h ⊢
    subst h
    exact hs

/-- The bodies stored after one call. -/
def storedAfter {Transaction : Type} (s : BodyStorage) (bodies : List (List TransactionMetadata)) :
    BodyWrite Transaction → List (List TransactionMetadata)
  | .appendBody blockNumber blockBody =>
    match s.appendBody blockNumber blockBody with
    | .ok _ => bodies ++ [blockBody.storedMetadata s.scope]
    | .error _ => bodies
  | .revertBody blockNumber => if s.bodyMarker = blockNumber + 1 then bodies.dropLast else bodies

/-- **One call keeps the tables in step with the bodies stored.** -/
theorem BodyStorage.Holds.write {Transaction : Type} {bodies : List (List TransactionMetadata)}
    (hs : s.Holds bodies) {w : BodyWrite Transaction} (h : s.write w = some s') :
    s'.Holds (storedAfter s bodies w) := by
  cases w with
  | appendBody blockNumber blockBody =>
    simp only [BodyStorage.write, storedAfter] at h ⊢
    cases happ : s.appendBody blockNumber blockBody with
    | ok s₁ =>
      rw [happ, Option.some.injEq] at h
      subst h
      exact hs.appendBody happ
    | error e =>
      rw [happ, Option.some.injEq] at h
      subst h
      exact hs
  | revertBody blockNumber => exact hs.revertBody h

/-- **Every sequence of calls** leaves tables that hold the bodies stored so far. -/
theorem BodyStorage.Holds.writes {Transaction : Type} :
    ∀ (ws : List (BodyWrite Transaction)) (s s' : BodyStorage)
      (bodies : List (List TransactionMetadata)), s.Holds bodies → s.writes ws = some s' →
      ∃ bodies', s'.Holds bodies'
  | [], s, s', bodies, hs, h => by
    simp only [BodyStorage.writes, Option.some.injEq] at h
    exact ⟨bodies, h ▸ hs⟩
  | w :: ws, s, s', bodies, hs, h => by
    simp only [BodyStorage.writes, Option.bind_eq_some_iff] at h
    obtain ⟨s₁, h₁, h⟩ := h
    exact BodyStorage.Holds.writes ws s₁ s' _ (hs.write h₁) h

end Revert

end Sequencer.Storage
