/-
# The state history of the storage (`papyrus_storage`: `state/mod.rs`, `db/table_types/`)

The storage keeps the history of the state in versioned tables: block `n` writing `v` to a key
`x` is the binding of `(x, n)` to `v`, and the value of `x` at state number `m` (the state
before block `m`) is the newest binding of `x` below version `m`.  A reader finds it the way
the source does: `lower_bound((x, m))`, then one step back with `prev`, then a check that the
binding found is `x`'s.

Three tables hold the state that `StateReader` answers from: `deployed_contracts` (the class of
a contract, from deployments and class replacements), `nonces` and `contract_storage`.
`append_state_diff` writes a block's `ThinStateDiff` into them, and `revert_state_diff` deletes
what the last block wrote.

The tables are `DUP_SORT` tables of libmdbx whose main key is the serialised `x` and whose data
items begin with the serialised block number, a big-endian `u32`.  They are modelled as ordered
maps from `(x, n)`, ordered lexicographically: the main keys are compared in the order of their
bytes (taken to be the order of the keys themselves, for fixed-width big-endian serialisations)
and the big-endian block numbers in numeric order.

The main result is `state_reads_follow_diffs`: after any run of appends, every historical read
returns the last write among the diffs before its state number, and reverting the last block
gives back exactly the storage from before it was appended.
-/
import Sequencer.Lib.OrderedTable
import Sequencer.Lib.Collections
import Sequencer.Lib.Run

namespace Sequencer.Storage

open OrderedTable

/-! ## 1. State diffs -/

abbrev BlockNumber := Nat
abbrev ContractAddress := Nat
abbrev ClassHash := Nat
abbrev CompiledClassHash := Nat
abbrev StorageKey := Nat
abbrev Nonce := Nat
abbrev Felt := Nat

/-- `ThinStateDiff`: what one block changed. -/
structure ThinStateDiff where
  deployedContracts : IndexMap ContractAddress ClassHash
  storageDiffs : IndexMap ContractAddress (IndexMap StorageKey Felt)
  declaredClasses : IndexMap ClassHash CompiledClassHash
  deprecatedDeclaredClasses : List ClassHash
  nonces : IndexMap ContractAddress Nonce
  replacedClasses : IndexMap ContractAddress ClassHash

/-! ## 2. Tables -/

/-- `DbError`, the variants the writes below return. -/
inductive DbError
  | keyAlreadyExists
  | append
  deriving DecidableEq, Repr

/-- `StorageError`, the variants `append_state_diff` returns. -/
inductive StorageError
  | innerError (e : DbError)
  | markerMismatch (expected found : BlockNumber)
  deriving DecidableEq, Repr

section Tables

variable {κ α ν : Type} [LinearOrder κ] [LinearOrder α]

/-- `Table::insert`: a key already bound is an error. -/
def insert (t : OrderedTable κ ν) (k : κ) (v : ν) : Except DbError (OrderedTable κ ν) :=
  if (t.get k).isSome then .error .keyAlreadyExists else .ok (t.set k v)

/-- `Table::append` of a table with single values: the key must be above every key. -/
def append (t : OrderedTable κ ν) (k : κ) (v : ν) : Except DbError (OrderedTable κ ν) :=
  if t.entries.any (fun e => k ≤ e.1) then .error .append else .ok (t.set k v)

/-- `TableHandle::append_greater_sub_key`: the version must be above every version of `a`. -/
def appendGreaterSubKey (t : OrderedTable (α ×ₗ Nat) ν) (a : α) (b : Nat) (v : ν) :
    Except DbError (OrderedTable (α ×ₗ Nat) ν) :=
  if t.entries.any (fun e => (ofLex e.1).1 = a ∧ b ≤ (ofLex e.1).2) then .error .append
  else .ok (t.set (toLex (a, b)) v)

end Tables

/-- The tables of the state history, and the state marker: the first block not yet written. -/
@[ext]
structure StateStorage where
  deployedContracts : OrderedTable (ContractAddress ×ₗ BlockNumber) ClassHash
  nonces : OrderedTable (ContractAddress ×ₗ BlockNumber) Nonce
  contractStorage : OrderedTable ((ContractAddress ×ₗ StorageKey) ×ₗ BlockNumber) Felt
  stateDiffs : OrderedTable BlockNumber ThinStateDiff
  stateMarker : BlockNumber

/-- A storage nothing was written to. -/
def StateStorage.empty : StateStorage := ⟨.empty, .empty, .empty, .empty, 0⟩

/-! ## 3. Writing a block -/

/-- `write_deployed_contracts`: a deployed contract's class, and in old blocks, which have no
nonce diff, the default nonce. -/
def writeDeployedContracts (deployedContracts : IndexMap ContractAddress ClassHash)
    (blockNumber : BlockNumber)
    (deployedContractsTable : OrderedTable (ContractAddress ×ₗ BlockNumber) ClassHash)
    (noncesTable : OrderedTable (ContractAddress ×ₗ BlockNumber) Nonce)
    (noncesDiffs : IndexMap ContractAddress Nonce) :
    Except DbError (OrderedTable (ContractAddress ×ₗ BlockNumber) ClassHash ×
      OrderedTable (ContractAddress ×ₗ BlockNumber) Nonce) :=
  deployedContracts.entries.foldlM (fun (tables : _ × _) (address, classHash) => do
      let deployed ← insert tables.1 (toLex (address, blockNumber)) classHash
      let nonces ← if !noncesDiffs.containsKey address then
          appendGreaterSubKey tables.2 address blockNumber 0
        else pure tables.2
      pure (deployed, nonces))
    (deployedContractsTable, noncesTable)

/-- `write_nonces`. -/
def writeNonces (nonces : IndexMap ContractAddress Nonce) (blockNumber : BlockNumber)
    (contractsTable : OrderedTable (ContractAddress ×ₗ BlockNumber) Nonce) :
    OrderedTable (ContractAddress ×ₗ BlockNumber) Nonce :=
  nonces.entries.foldl (fun t (contractAddress, nonce) =>
    t.set (toLex (contractAddress, blockNumber)) nonce) contractsTable

/-- `write_replaced_classes`. -/
def writeReplacedClasses (replacedClasses : IndexMap ContractAddress ClassHash)
    (blockNumber : BlockNumber)
    (deployedContractsTable : OrderedTable (ContractAddress ×ₗ BlockNumber) ClassHash) :
    Except DbError (OrderedTable (ContractAddress ×ₗ BlockNumber) ClassHash) :=
  replacedClasses.entries.foldlM (fun t (contractAddress, classHash) =>
    insert t (toLex (contractAddress, blockNumber)) classHash) deployedContractsTable

/-- `write_storage_diffs`. -/
def writeStorageDiffs (storageDiffs : IndexMap ContractAddress (IndexMap StorageKey Felt))
    (blockNumber : BlockNumber)
    (storageTable : OrderedTable ((ContractAddress ×ₗ StorageKey) ×ₗ BlockNumber) Felt) :
    Except DbError (OrderedTable ((ContractAddress ×ₗ StorageKey) ×ₗ BlockNumber) Felt) :=
  storageDiffs.entries.foldlM (fun t (address, storageEntries) =>
    storageEntries.entries.foldlM (fun t (key, value) =>
      appendGreaterSubKey t (toLex (address, key)) blockNumber value) t) storageTable

/-- `StateStorageWriter::append_state_diff`, on the state tables.  A failed write aborts the
transaction, which leaves the storage as it was. -/
def appendStateDiff (s : StateStorage) (blockNumber : BlockNumber) (thinStateDiff : ThinStateDiff) :
    Except StorageError StateStorage := do
  let (deployedContracts, nonces) ← (writeDeployedContracts thinStateDiff.deployedContracts
    blockNumber s.deployedContracts s.nonces thinStateDiff.nonces).mapError .innerError
  let contractStorage ← (writeStorageDiffs thinStateDiff.storageDiffs blockNumber
    s.contractStorage).mapError .innerError
  let nonces := writeNonces thinStateDiff.nonces blockNumber nonces
  let deployedContracts ← (writeReplacedClasses thinStateDiff.replacedClasses blockNumber
    deployedContracts).mapError .innerError
  let stateDiffs ← (append s.stateDiffs blockNumber thinStateDiff).mapError .innerError
  -- `update_marker_to_next_block`
  if s.stateMarker ≠ blockNumber then throw (.markerMismatch s.stateMarker blockNumber)
  pure ⟨deployedContracts, nonces, contractStorage, stateDiffs, blockNumber + 1⟩

/-- Appending diffs to consecutive blocks, from `blockNumber` on. -/
def appendStateDiffs (s : StateStorage) (blockNumber : BlockNumber) :
    List ThinStateDiff → Except StorageError StateStorage
  | [] => .ok s
  | thinStateDiff :: rest => do
    let s ← appendStateDiff s blockNumber thinStateDiff
    appendStateDiffs s (blockNumber + 1) rest

/-! ## 4. Reverting the last block -/

/-- `delete_deployed_contracts`: a deployed contract's class and the nonce of its block. -/
def deleteDeployedContracts (blockNumber : BlockNumber) (thinStateDiff : ThinStateDiff)
    (deployedContractsTable : OrderedTable (ContractAddress ×ₗ BlockNumber) ClassHash)
    (noncesTable : OrderedTable (ContractAddress ×ₗ BlockNumber) Nonce) :
    OrderedTable (ContractAddress ×ₗ BlockNumber) ClassHash ×
      OrderedTable (ContractAddress ×ₗ BlockNumber) Nonce :=
  thinStateDiff.deployedContracts.keys.foldl (fun tables contractAddress =>
      (tables.1.erase (toLex (contractAddress, blockNumber)),
        tables.2.erase (toLex (contractAddress, blockNumber))))
    (deployedContractsTable, noncesTable)

/-- `delete_storage_diffs`. -/
def deleteStorageDiffs (blockNumber : BlockNumber) (thinStateDiff : ThinStateDiff)
    (storageTable : OrderedTable ((ContractAddress ×ₗ StorageKey) ×ₗ BlockNumber) Felt) :
    OrderedTable ((ContractAddress ×ₗ StorageKey) ×ₗ BlockNumber) Felt :=
  thinStateDiff.storageDiffs.entries.foldl (fun t (address, storageEntries) =>
    storageEntries.keys.foldl (fun t key => t.erase (toLex (toLex (address, key), blockNumber))) t)
    storageTable

/-- `delete_nonces`. -/
def deleteNonces (blockNumber : BlockNumber) (thinStateDiff : ThinStateDiff)
    (contractsTable : OrderedTable (ContractAddress ×ₗ BlockNumber) Nonce) :
    OrderedTable (ContractAddress ×ₗ BlockNumber) Nonce :=
  thinStateDiff.nonces.keys.foldl (fun t contractAddress =>
    t.erase (toLex (contractAddress, blockNumber))) contractsTable

/-- `delete_replaced_classes`. -/
def deleteReplacedClasses (blockNumber : BlockNumber) (thinStateDiff : ThinStateDiff)
    (deployedContractsTable : OrderedTable (ContractAddress ×ₗ BlockNumber) ClassHash) :
    OrderedTable (ContractAddress ×ₗ BlockNumber) ClassHash :=
  thinStateDiff.replacedClasses.keys.foldl (fun t contractAddress =>
    t.erase (toLex (contractAddress, blockNumber))) deployedContractsTable

/-- `StateStorageWriter::revert_state_diff`, on the state tables: only the last block can be
reverted, and its diff is returned.  A missing diff of a written block panics. -/
def revertStateDiff (s : StateStorage) (blockNumber : BlockNumber) :
    Option (StateStorage × Option ThinStateDiff) :=
  if blockNumber + 1 ≠ s.stateMarker then some (s, none)
  else do
    let thinStateDiff ← s.stateDiffs.get blockNumber
    let (deployedContracts, nonces) :=
      deleteDeployedContracts blockNumber thinStateDiff s.deployedContracts s.nonces
    let contractStorage := deleteStorageDiffs blockNumber thinStateDiff s.contractStorage
    let nonces := deleteNonces blockNumber thinStateDiff nonces
    let stateDiffs := s.stateDiffs.erase blockNumber
    let deployedContracts := deleteReplacedClasses blockNumber thinStateDiff deployedContracts
    pure (⟨deployedContracts, nonces, contractStorage, stateDiffs, blockNumber⟩, some thinStateDiff)

/-! ## 5. Historical reads -/

namespace StateStorage

/-- `StateReader::get_class_hash_at`: the first irrelevant block is the state number itself. -/
def getClassHashAt (s : StateStorage) (stateNumber : BlockNumber) (address : ContractAddress) :
    Option ClassHash :=
  s.deployedContracts.seekBefore address stateNumber

/-- `StateReader::get_nonce_at`. -/
def getNonceAt (s : StateStorage) (stateNumber : BlockNumber) (address : ContractAddress) :
    Option Nonce :=
  s.nonces.seekBefore address stateNumber

/-- `StateReader::get_storage_at`: a key never written holds the default felt. -/
def getStorageAt (s : StateStorage) (stateNumber : BlockNumber) (address : ContractAddress)
    (key : StorageKey) : Felt :=
  (s.contractStorage.seekBefore (toLex (address, key)) stateNumber).getD 0

end StateStorage

/-! ## 6. Successful writes -/

section Writes

variable {κ α ν : Type} [LinearOrder κ] [LinearOrder α]

theorem insert_eq_ok {t t' : OrderedTable κ ν} {k : κ} {v : ν} (h : insert t k v = .ok t') :
    t' = t.set k v := by
  unfold insert at h
  split_ifs at h
  cases h
  rfl

theorem append_eq_ok {t t' : OrderedTable κ ν} {k : κ} {v : ν} (h : append t k v = .ok t') :
    t' = t.set k v := by
  unfold append at h
  split_ifs at h
  cases h
  rfl

theorem appendGreaterSubKey_eq_ok {t t' : OrderedTable (α ×ₗ Nat) ν} {a : α} {b : Nat} {v : ν}
    (h : appendGreaterSubKey t a b v = .ok t') : t' = t.set (toLex (a, b)) v := by
  unfold appendGreaterSubKey at h
  split_ifs at h
  cases h
  rfl

end Writes

/-- A successful `write_deployed_contracts` is a pure fold of its writes on each table. -/
theorem writeDeployedContracts_eq_ok {dc : IndexMap ContractAddress ClassHash} {blk : BlockNumber}
    {dt dt' : OrderedTable (ContractAddress ×ₗ BlockNumber) ClassHash}
    {nt nt' : OrderedTable (ContractAddress ×ₗ BlockNumber) Nonce} {nd : IndexMap ContractAddress Nonce}
    (h : writeDeployedContracts dc blk dt nt nd = .ok (dt', nt')) :
    dt' = dc.entries.foldl (fun t e => t.set (toLex (e.1, blk)) e.2) dt ∧
      nt' = dc.entries.foldl
        (fun t e => if !nd.containsKey e.1 then t.set (toLex (e.1, blk)) 0 else t) nt := by
  have hfold := foldlM_eq_ok _ (fun tables (e : ContractAddress × ClassHash) =>
    (tables.1.set (toLex (e.1, blk)) e.2,
      if !nd.containsKey e.1 then tables.2.set (toLex (e.1, blk)) 0 else tables.2))
    (fun tables e r' hr => ?_) _ _ _ h
  · -- the two tables are written independently
    have hpair := foldl_pair
      (fun (t : OrderedTable (ContractAddress ×ₗ BlockNumber) ClassHash)
        (e : ContractAddress × ClassHash) => t.set (toLex (e.1, blk)) e.2)
      (fun (t : OrderedTable (ContractAddress ×ₗ BlockNumber) Nonce)
        (e : ContractAddress × ClassHash) =>
          if !nd.containsKey e.1 then t.set (toLex (e.1, blk)) 0 else t) dc.entries dt nt
    exact Prod.mk.inj (hfold.trans hpair)
  obtain ⟨address, classHash⟩ := e
  simp only [bind, Except.bind] at hr
  cases hi : insert tables.1 (toLex (address, blk)) classHash with
  | error e => rw [hi] at hr; cases hr
  | ok deployed =>
    rw [hi] at hr
    obtain rfl := insert_eq_ok hi
    by_cases hc : nd.containsKey address
    · simp only [hc, Bool.not_true, Bool.false_eq_true, if_false, pure, Except.pure] at hr ⊢
      cases hr
      rfl
    · simp only [hc, Bool.not_false, if_true] at hr ⊢
      cases ha : appendGreaterSubKey tables.2 address blk 0 with
      | error e => rw [ha] at hr; cases hr
      | ok nonces =>
        rw [ha] at hr
        cases hr
        rw [appendGreaterSubKey_eq_ok ha]

/-- A successful `write_replaced_classes` is the pure fold of its writes. -/
theorem writeReplacedClasses_eq_ok {rc : IndexMap ContractAddress ClassHash} {blk : BlockNumber}
    {dt dt' : OrderedTable (ContractAddress ×ₗ BlockNumber) ClassHash}
    (h : writeReplacedClasses rc blk dt = .ok dt') :
    dt' = rc.entries.foldl (fun t e => t.set (toLex (e.1, blk)) e.2) dt :=
  foldlM_eq_ok _ _ (fun _ _ _ hr => insert_eq_ok hr) _ _ _ h

/-- A successful `write_storage_diffs` is the pure fold of its writes. -/
theorem writeStorageDiffs_eq_ok {sd : IndexMap ContractAddress (IndexMap StorageKey Felt)}
    {blk : BlockNumber} {st st' : OrderedTable ((ContractAddress ×ₗ StorageKey) ×ₗ BlockNumber) Felt}
    (h : writeStorageDiffs sd blk st = .ok st') :
    st' = sd.entries.foldl (fun t e => e.2.entries.foldl
      (fun t e' => t.set (toLex (toLex (e.1, e'.1), blk)) e'.2) t) st :=
  foldlM_eq_ok _ _ (fun _ _ _ hr =>
    foldlM_eq_ok _ _ (fun _ _ _ hr' => appendGreaterSubKey_eq_ok hr') _ _ _ hr) _ _ _ h

/-- **What a successful `append_state_diff` did**: each write succeeded, at the state marker. -/
theorem appendStateDiff_eq_ok {s s' : StateStorage} {blk : BlockNumber} {d : ThinStateDiff}
    (h : appendStateDiff s blk d = .ok s') :
    ∃ dt nt cs dt' sds,
      writeDeployedContracts d.deployedContracts blk s.deployedContracts s.nonces d.nonces =
        .ok (dt, nt) ∧
      writeStorageDiffs d.storageDiffs blk s.contractStorage = .ok cs ∧
      writeReplacedClasses d.replacedClasses blk dt = .ok dt' ∧
      append s.stateDiffs blk d = .ok sds ∧ s.stateMarker = blk ∧
      s' = ⟨dt', writeNonces d.nonces blk nt, cs, sds, blk + 1⟩ := by
  unfold appendStateDiff at h
  cases h₁ : writeDeployedContracts d.deployedContracts blk s.deployedContracts s.nonces d.nonces with
  | error e => simp [h₁, Except.mapError, bind, Except.bind] at h
  | ok p =>
    obtain ⟨dt, nt⟩ := p
    cases h₂ : writeStorageDiffs d.storageDiffs blk s.contractStorage with
    | error e => simp [h₁, h₂, Except.mapError, bind, Except.bind] at h
    | ok cs =>
      cases h₃ : writeReplacedClasses d.replacedClasses blk dt with
      | error e => simp [h₁, h₂, h₃, Except.mapError, bind, Except.bind] at h
      | ok dt' =>
        cases h₄ : append s.stateDiffs blk d with
        | error e => simp [h₁, h₂, h₃, h₄, Except.mapError, bind, Except.bind] at h
        | ok sds =>
          simp only [h₁, h₂, h₃, h₄, Except.mapError, bind, Except.bind] at h
          by_cases hm : s.stateMarker = blk
          · simp only [hm, ne_eq, not_true_eq_false, if_false, pure, Except.pure] at h
            cases h
            exact ⟨dt, nt, cs, dt', sds, rfl, rfl, h₃, rfl, hm, rfl⟩
          · simp [hm, throw, throwThe, MonadExceptOf.throw] at h

/-! ## 7. What a diff writes

The meaning of a diff for the three tables, stated without the tables: what the reads should
return is the last of these among the diffs before the state number. -/

namespace ThinStateDiff

/-- The class a diff gives a contract: its replaced class, else the class it is deployed with. -/
def classHashOf (d : ThinStateDiff) (address : ContractAddress) : Option ClassHash :=
  (d.replacedClasses.get address).or (d.deployedContracts.get address)

/-- The nonce a diff gives a contract: its nonce diff, else the default nonce of a deployment. -/
def nonceOf (d : ThinStateDiff) (address : ContractAddress) : Option Nonce :=
  (d.nonces.get address).or (if d.deployedContracts.containsKey address then some 0 else none)

/-- The value a diff writes to a storage cell. -/
def storageOf (d : ThinStateDiff) (address : ContractAddress) (key : StorageKey) : Option Felt :=
  (d.storageDiffs.get address).bind (·.get key)

theorem classHashOf_eq_none {d : ThinStateDiff} {address : ContractAddress}
    (hr : address ∉ d.replacedClasses.keys) (hd : address ∉ d.deployedContracts.keys) :
    d.classHashOf address = none := by
  rw [classHashOf, IndexMap.get_eq_none_of_not_mem_keys hr, IndexMap.get_eq_none_of_not_mem_keys hd]
  rfl

theorem nonceOf_eq_none {d : ThinStateDiff} {address : ContractAddress}
    (hn : address ∉ d.nonces.keys) (hd : address ∉ d.deployedContracts.keys) :
    d.nonceOf address = none := by
  rw [nonceOf, IndexMap.get_eq_none_of_not_mem_keys hn, IndexMap.containsKey,
    IndexMap.get_eq_none_of_not_mem_keys hd]
  rfl

end ThinStateDiff

/-- The last value that `f` reads off a diff, among the diffs in order. -/
def lastWrite {γ : Type} (f : ThinStateDiff → Option γ) (ds : List ThinStateDiff) : Option γ :=
  ds.foldl (fun acc d => (f d).or acc) none

/-! ## 8. One append, table by table -/

section Block

variable {α ν : Type} [LinearOrder α]

/-- Writing the bindings of a map at one version. -/
theorem get_foldl_set_entries (m : IndexMap α ν) (t : OrderedTable (α ×ₗ Nat) ν) (blk : Nat)
    (a : α) (b : Nat) :
    (m.entries.foldl (fun t e => t.set (toLex (e.1, blk)) e.2) t).get (toLex (a, b)) =
      if b = blk then (m.get a).or (t.get (toLex (a, b))) else t.get (toLex (a, b)) := by
  rw [get_foldl_set_version m.entries Prod.fst Prod.snd,
    IndexMap.foldl_or_eq_get m a (fun e => if a = e.1 then some e.2 else none)
      (fun e he => if_neg (Ne.symm he))]
  cases m.get a <;> simp

end Block

/-- The default nonces that `write_deployed_contracts` writes, for deployments without a nonce
diff. -/
theorem get_foldl_default_nonce (dc : IndexMap ContractAddress ClassHash)
    (nd : IndexMap ContractAddress Nonce) (t : OrderedTable (ContractAddress ×ₗ BlockNumber) Nonce)
    (blk a b : Nat) :
    (dc.entries.foldl (fun t e => if !nd.containsKey e.1 then t.set (toLex (e.1, blk)) 0 else t)
      t).get (toLex (a, b)) =
      if b = blk then
        ((dc.get a).bind fun _ => if nd.containsKey a then none else some 0).or (t.get (toLex (a, b)))
      else t.get (toLex (a, b)) := by
  have hg : ∀ (t : OrderedTable (ContractAddress ×ₗ BlockNumber) Nonce)
      (e : ContractAddress × ClassHash) (a b),
      (if !nd.containsKey e.1 then t.set (toLex (e.1, blk)) 0 else t).get (toLex (a, b)) =
        if b = blk then (if a = e.1 ∧ nd.containsKey e.1 = false then some 0 else none).or
          (t.get (toLex (a, b))) else t.get (toLex (a, b)) := by
    intro t e a b
    by_cases hc : nd.containsKey e.1
    · simp [hc]
    · by_cases hb : b = blk <;> by_cases ha : a = e.1 <;> simp [hc, hb, ha]
  rw [get_foldl_version _ (fun t => t) blk _ hg,
    IndexMap.foldl_or_eq_get dc a (fun e => if a = e.1 ∧ nd.containsKey e.1 = false then some 0 else none)
      (fun e he => if_neg fun h => he h.1.symm)]
  cases dc.get a <;> cases hc : nd.containsKey a <;> simp [hc]

/-- The storage writes of one block. -/
theorem get_foldl_storage (sd : IndexMap ContractAddress (IndexMap StorageKey Felt))
    (t : OrderedTable ((ContractAddress ×ₗ StorageKey) ×ₗ BlockNumber) Felt) (blk a key b : Nat) :
    (sd.entries.foldl (fun t e => e.2.entries.foldl
      (fun t e' => t.set (toLex (toLex (e.1, e'.1), blk)) e'.2) t) t).get (toLex (toLex (a, key), b)) =
      if b = blk then ((sd.get a).bind (·.get key)).or (t.get (toLex (toLex (a, key), b)))
      else t.get (toLex (toLex (a, key), b)) := by
  -- one contract's writes act only on its own cells
  have hg : ∀ (t : OrderedTable ((ContractAddress ×ₗ StorageKey) ×ₗ BlockNumber) Felt)
      (e : ContractAddress × IndexMap StorageKey Felt) (x : ContractAddress ×ₗ StorageKey) b,
      (e.2.entries.foldl (fun t e' => t.set (toLex (toLex (e.1, e'.1), blk)) e'.2) t).get
        (toLex (x, b)) =
        if b = blk then (if (ofLex x).1 = e.1 then e.2.get (ofLex x).2 else none).or
          (t.get (toLex (x, b))) else t.get (toLex (x, b)) := by
    intro t e x b
    rw [get_foldl_set_version e.2.entries (fun e' => toLex (e.1, e'.1)) Prod.snd,
      IndexMap.foldl_or_eq_get e.2 (ofLex x).2 (fun e' => if x = toLex (e.1, e'.1) then some e'.2 else none)
        (fun e' he => if_neg fun hx => he (by rw [hx]; rfl))]
    by_cases hx : (ofLex x).1 = e.1
    · have hx' : x = toLex (e.1, (ofLex x).2) := by rw [← hx]; rfl
      cases e.2.get (ofLex x).2 <;> simp [hx, ← hx']
    · have hx' : ∀ k, x ≠ toLex (e.1, k) := fun k hk => hx (by rw [hk]; rfl)
      cases e.2.get (ofLex x).2 <;> simp [hx, hx']
  rw [get_foldl_version _ (fun t => t) blk _ hg, IndexMap.foldl_or_eq_get sd a
    (fun e => if (ofLex (toLex (a, key))).1 = e.1 then e.2.get (ofLex (toLex (a, key))).2 else none)
    (fun e he => if_neg (Ne.symm he))]
  cases sd.get a <;> simp

section Append

variable {s s' : StateStorage} {blk : BlockNumber} {d : ThinStateDiff}

theorem writeNonces_eq (nd : IndexMap ContractAddress Nonce) (blk : BlockNumber)
    (t : OrderedTable (ContractAddress ×ₗ BlockNumber) Nonce) :
    writeNonces nd blk t = nd.entries.foldl (fun t e => t.set (toLex (e.1, blk)) e.2) t := rfl

theorem appendStateDiff_deployedContracts (h : appendStateDiff s blk d = .ok s')
    (a : ContractAddress) (b : BlockNumber) :
    s'.deployedContracts.get (toLex (a, b)) =
      if b = blk then (d.classHashOf a).or (s.deployedContracts.get (toLex (a, b)))
      else s.deployedContracts.get (toLex (a, b)) := by
  obtain ⟨dt, nt, cs, dt', sds, h₁, -, h₃, -, -, rfl⟩ := appendStateDiff_eq_ok h
  rw [writeReplacedClasses_eq_ok h₃, get_foldl_set_entries, (writeDeployedContracts_eq_ok h₁).1,
    get_foldl_set_entries]
  by_cases hb : b = blk <;> simp [hb, ThinStateDiff.classHashOf, Option.or_assoc]

theorem appendStateDiff_nonces (h : appendStateDiff s blk d = .ok s') (a : ContractAddress)
    (b : BlockNumber) :
    s'.nonces.get (toLex (a, b)) =
      if b = blk then (d.nonceOf a).or (s.nonces.get (toLex (a, b)))
      else s.nonces.get (toLex (a, b)) := by
  obtain ⟨dt, nt, cs, dt', sds, h₁, -, -, -, -, rfl⟩ := appendStateDiff_eq_ok h
  rw [writeNonces_eq, get_foldl_set_entries, (writeDeployedContracts_eq_ok h₁).2,
    get_foldl_default_nonce]
  by_cases hb : b = blk
  · simp only [hb, if_true, ← Option.or_assoc]
    -- a nonce diff wins over the default nonce of a deployment
    congr 1
    cases hn : d.nonces.get a <;> cases hd : d.deployedContracts.get a <;>
      simp [ThinStateDiff.nonceOf, IndexMap.containsKey, hn, hd]
  · simp [hb]

theorem appendStateDiff_contractStorage (h : appendStateDiff s blk d = .ok s')
    (a : ContractAddress) (key : StorageKey) (b : BlockNumber) :
    s'.contractStorage.get (toLex (toLex (a, key), b)) =
      if b = blk then (d.storageOf a key).or (s.contractStorage.get (toLex (toLex (a, key), b)))
      else s.contractStorage.get (toLex (toLex (a, key), b)) := by
  obtain ⟨dt, nt, cs, dt', sds, -, h₂, -, -, -, rfl⟩ := appendStateDiff_eq_ok h
  rw [writeStorageDiffs_eq_ok h₂, get_foldl_storage]
  rfl

theorem appendStateDiff_stateDiffs (h : appendStateDiff s blk d = .ok s') :
    s'.stateDiffs = s.stateDiffs.set blk d := by
  obtain ⟨dt, nt, cs, dt', sds, -, -, -, h₄, -, rfl⟩ := appendStateDiff_eq_ok h
  exact append_eq_ok h₄

theorem appendStateDiff_stateMarker (h : appendStateDiff s blk d = .ok s') :
    s.stateMarker = blk ∧ s'.stateMarker = blk + 1 := by
  obtain ⟨dt, nt, cs, dt', sds, -, -, -, -, hm, rfl⟩ := appendStateDiff_eq_ok h
  exact ⟨hm, rfl⟩

end Append

/-! ## 9. Deleting one block, table by table -/

theorem deleteDeployedContracts_eq (blk : BlockNumber) (d : ThinStateDiff)
    (dt : OrderedTable (ContractAddress ×ₗ BlockNumber) ClassHash)
    (nt : OrderedTable (ContractAddress ×ₗ BlockNumber) Nonce) :
    deleteDeployedContracts blk d dt nt =
      (d.deployedContracts.keys.foldl (fun t a => t.erase (toLex (a, blk))) dt,
        d.deployedContracts.keys.foldl (fun t a => t.erase (toLex (a, blk))) nt) :=
  foldl_pair
    (fun (t : OrderedTable (ContractAddress ×ₗ BlockNumber) ClassHash) a => t.erase (toLex (a, blk)))
    (fun (t : OrderedTable (ContractAddress ×ₗ BlockNumber) Nonce) a => t.erase (toLex (a, blk)))
    _ _ _

/-- `delete_storage_diffs` erases exactly the cells the diff writes, at its block. -/
theorem get_deleteStorageDiffs (blk : BlockNumber) (d : ThinStateDiff)
    (t : OrderedTable ((ContractAddress ×ₗ StorageKey) ×ₗ BlockNumber) Felt)
    (x : ContractAddress ×ₗ StorageKey) (b : BlockNumber) :
    (deleteStorageDiffs blk d t).get (toLex (x, b)) =
      if b = blk then
        (if ∃ e ∈ d.storageDiffs.entries, ∃ k ∈ e.2.keys, x = toLex (e.1, k) then none
          else t.get (toLex (x, b)))
      else t.get (toLex (x, b)) := by
  rw [deleteStorageDiffs, get_foldl_version _ (fun t => t) blk
    (fun x e acc => if ∃ k ∈ e.2.keys, x = toLex (e.1, k) then none else acc)
    (fun t e x b => get_foldl_erase_version e.2.keys (fun k => toLex (e.1, k)) t blk x b),
    foldl_ite_none]

/-! ## 10. The storage holds its diffs -/

theorem getElem?_concat_eq {β : Type} (ds : List β) (d : β) (b : Nat) :
    (ds ++ [d])[b]? = if b = ds.length then some d else ds[b]? := by
  rw [List.getElem?_append]
  by_cases hb : b = ds.length
  · subst hb
    simp
  · rw [if_neg hb]
    rcases Nat.lt_or_gt_of_ne hb with hlt | hgt
    · rw [if_pos hlt]
    · rw [if_neg (by omega), List.getElem?_eq_none (by omega : ds.length ≤ b),
        List.getElem?_eq_none (by simp; omega)]

/-- **The step of the invariant at one table**: a table that held `ds` and takes the writes of
`d` at the next version holds `ds ++ [d]`. -/
theorem bind_concat_of_write {β γ : Type} {ds : List β} {d : β} {f : β → Option γ}
    {old new : Nat → Option γ} (hold : ∀ b, old b = ds[b]?.bind f)
    (hnew : ∀ b, new b = if b = ds.length then (f d).or (old b) else old b) (b : Nat) :
    new b = (ds ++ [d])[b]?.bind f := by
  rw [hnew, hold, getElem?_concat_eq]
  by_cases hb : b = ds.length
  · subst hb
    simp
  · simp [hb]

namespace StateStorage

/-- **The storage holds the diffs `ds`**, written to blocks `0, 1, …`: every table binds at
version `b` exactly what the diff of block `b` writes, and the marker is the first block not
written. -/
structure Holds (s : StateStorage) (ds : List ThinStateDiff) : Prop where
  marker : s.stateMarker = ds.length
  deployedContracts : ∀ a b, s.deployedContracts.get (toLex (a, b)) = ds[b]?.bind (·.classHashOf a)
  nonces : ∀ a b, s.nonces.get (toLex (a, b)) = ds[b]?.bind (·.nonceOf a)
  contractStorage : ∀ a key b,
    s.contractStorage.get (toLex (toLex (a, key), b)) = ds[b]?.bind (·.storageOf a key)
  stateDiffs : ∀ b, s.stateDiffs.get b = ds[b]?

theorem Holds.empty : Holds StateStorage.empty [] where
  marker := rfl
  deployedContracts _ _ := rfl
  nonces _ _ := rfl
  contractStorage _ _ _ := rfl
  stateDiffs _ := rfl

variable {s s' : StateStorage} {ds : List ThinStateDiff} {d : ThinStateDiff}

/-- **One append keeps the invariant**, with the diff appended. -/
theorem Holds.append (hs : Holds s ds) (h : appendStateDiff s ds.length d = .ok s') :
    Holds s' (ds ++ [d]) where
  marker := by rw [(appendStateDiff_stateMarker h).2, List.length_append, List.length_singleton]
  deployedContracts a :=
    bind_concat_of_write (hs.deployedContracts a) (appendStateDiff_deployedContracts h a)
  nonces a := bind_concat_of_write (hs.nonces a) (appendStateDiff_nonces h a)
  contractStorage a key :=
    bind_concat_of_write (hs.contractStorage a key) (appendStateDiff_contractStorage h a key)
  stateDiffs b := by rw [appendStateDiff_stateDiffs h, get_set, getElem?_concat_eq, hs.stateDiffs]

/-- **A run of appends keeps the invariant.** -/
theorem Holds.appendStateDiffs (hs : Holds s ds) :
    ∀ {rest : List ThinStateDiff}, appendStateDiffs s ds.length rest = .ok s' →
      Holds s' (ds ++ rest) := by
  intro rest
  induction rest generalizing s ds with
  | nil =>
    intro h
    cases h
    simpa using hs
  | cons d rest ih =>
    intro h
    simp only [Sequencer.Storage.appendStateDiffs, bind, Except.bind] at h
    cases h₁ : appendStateDiff s ds.length d with
    | error e => rw [h₁] at h; cases h
    | ok s₁ =>
      rw [h₁] at h
      have hrun := ih (hs.append h₁) (by rwa [List.length_append, List.length_singleton])
      rwa [List.append_assoc, List.singleton_append] at hrun

theorem Holds.getClassHashAt (hs : Holds s ds) (m : BlockNumber) (a : ContractAddress) :
    s.getClassHashAt m a = lastWrite (·.classHashOf a) (ds.take m) :=
  seekBefore_of_get (hs.deployedContracts a) m

theorem Holds.getNonceAt (hs : Holds s ds) (m : BlockNumber) (a : ContractAddress) :
    s.getNonceAt m a = lastWrite (·.nonceOf a) (ds.take m) :=
  seekBefore_of_get (hs.nonces a) m

theorem Holds.getStorageAt (hs : Holds s ds) (m : BlockNumber) (a : ContractAddress)
    (key : StorageKey) :
    s.getStorageAt m a key = (lastWrite (·.storageOf a key) (ds.take m)).getD 0 := by
  rw [StateStorage.getStorageAt, seekBefore_of_get (hs.contractStorage a key)]
  rfl

/-! ## 11. Reverting the last block undoes its append

At the block being reverted the storage held nothing before the append (`Holds` at version
`ds.length`), so deleting what the block wrote is enough: every binding the append made is at a
key the diff names. -/

theorem Holds.revert_deployedContracts (hs : Holds s ds) (h : appendStateDiff s ds.length d = .ok s') :
    deleteReplacedClasses ds.length d
      (deleteDeployedContracts ds.length d s'.deployedContracts s'.nonces).1 = s.deployedContracts := by
  refine ext_get_version fun a b => ?_
  rw [deleteReplacedClasses, deleteDeployedContracts_eq, get_foldl_erase_version _ (fun a => a),
    get_foldl_erase_version _ (fun a => a), appendStateDiff_deployedContracts h]
  by_cases hb : b = ds.length
  · subst hb
    have hnone : s.deployedContracts.get (toLex (a, ds.length)) = none := by
      rw [hs.deployedContracts, List.getElem?_eq_none (le_refl _)]
      rfl
    simp only [if_true, hnone, Option.or_none, exists_eq_right']
    split_ifs with hr hd
    · rfl
    · rfl
    · exact ThinStateDiff.classHashOf_eq_none hr hd
  · simp [hb]

theorem Holds.revert_nonces (hs : Holds s ds) (h : appendStateDiff s ds.length d = .ok s') :
    deleteNonces ds.length d
      (deleteDeployedContracts ds.length d s'.deployedContracts s'.nonces).2 = s.nonces := by
  refine ext_get_version fun a b => ?_
  rw [deleteNonces, deleteDeployedContracts_eq, get_foldl_erase_version _ (fun a => a),
    get_foldl_erase_version _ (fun a => a), appendStateDiff_nonces h]
  by_cases hb : b = ds.length
  · subst hb
    have hnone : s.nonces.get (toLex (a, ds.length)) = none := by
      rw [hs.nonces, List.getElem?_eq_none (le_refl _)]
      rfl
    simp only [if_true, hnone, Option.or_none, exists_eq_right']
    split_ifs with hn hd
    · rfl
    · rfl
    · exact ThinStateDiff.nonceOf_eq_none hn hd
  · simp [hb]

theorem Holds.revert_contractStorage (hs : Holds s ds) (h : appendStateDiff s ds.length d = .ok s') :
    deleteStorageDiffs ds.length d s'.contractStorage = s.contractStorage := by
  refine ext_get_version fun x b => ?_
  obtain ⟨a, key⟩ := x
  show (deleteStorageDiffs ds.length d s'.contractStorage).get (toLex (toLex (a, key), b)) =
    s.contractStorage.get (toLex (toLex (a, key), b))
  rw [get_deleteStorageDiffs, appendStateDiff_contractStorage h]
  by_cases hb : b = ds.length
  · subst hb
    have hnone : s.contractStorage.get (toLex (toLex (a, key), ds.length)) = none := by
      rw [hs.contractStorage, List.getElem?_eq_none (le_refl _)]
      rfl
    simp only [if_true, hnone, Option.or_none]
    split_ifs with hdel
    · rfl
    · -- a cell the block wrote is one the deletion names
      cases hm : d.storageDiffs.get a with
      | none => simp [ThinStateDiff.storageOf, hm]
      | some m =>
        cases hv : m.get key with
        | none => simp [ThinStateDiff.storageOf, hm, hv]
        | some v =>
          exact absurd ⟨(a, m), IndexMap.mem_of_get_eq_some hm, key,
            IndexMap.mem_keys_of_get_eq_some hv, rfl⟩ hdel
  · simp [hb]

/-- **Reverting the block just appended gives back the storage from before**, and its diff. -/
theorem Holds.revert_append (hs : Holds s ds) (h : appendStateDiff s ds.length d = .ok s') :
    revertStateDiff s' ds.length = some (s, some d) := by
  have hd : s'.stateDiffs.get ds.length = some d := by
    rw [appendStateDiff_stateDiffs h, get_set, if_pos rfl]
  simp only [revertStateDiff, (appendStateDiff_stateMarker h).2, ne_eq, not_true_eq_false,
    if_false, hd, Option.bind_eq_bind, Option.bind_some]
  rw [hs.revert_deployedContracts h, hs.revert_nonces h, hs.revert_contractStorage h]
  congr
  · refine ext_get fun b => ?_
    rw [get_erase, appendStateDiff_stateDiffs h, get_set, hs.stateDiffs]
    split_ifs with hb
    · rw [hb, List.getElem?_eq_none (le_refl _)]
    · rfl
  · exact hs.marker.symm

end StateStorage

/-- **Historical reads follow the diffs, and revert undoes append.**  After appending the diffs
`ds` to blocks `0, 1, …` of an empty storage, a read at any state number `m` returns the last
write among the first `m` diffs (for storage, the default felt if there is none); and appending
one more diff and reverting its block gives back the storage from before, so every read returns
what it returned before the append. -/
theorem state_reads_follow_diffs {ds : List ThinStateDiff} {s : StateStorage}
    (h : appendStateDiffs StateStorage.empty 0 ds = .ok s) :
    (∀ m a key,
      s.getStorageAt m a key = (lastWrite (·.storageOf a key) (ds.take m)).getD 0 ∧
      s.getNonceAt m a = lastWrite (·.nonceOf a) (ds.take m) ∧
      s.getClassHashAt m a = lastWrite (·.classHashOf a) (ds.take m)) ∧
    ∀ d s', appendStateDiff s ds.length d = .ok s' → revertStateDiff s' ds.length = some (s, some d) := by
  have hs : StateStorage.Holds s ds := by
    simpa using StateStorage.Holds.empty.appendStateDiffs h
  exact ⟨fun m a key => ⟨hs.getStorageAt m a key, hs.getNonceAt m a, hs.getClassHashAt m a⟩,
    fun d s' h' => hs.revert_append h'⟩

/-- A deployment with a storage write, then a class replacement with a nonce and a second write
to the same cell. -/
theorem state_reads_follow_diffs_deploy_then_replace :
    let ds : List ThinStateDiff :=
      [⟨⟨[(1, 7)], by decide⟩, ⟨[(1, ⟨[(2, 9)], by decide⟩)], by decide⟩, IndexMap.empty, [],
          IndexMap.empty, IndexMap.empty⟩,
        ⟨IndexMap.empty, ⟨[(1, ⟨[(2, 10)], by decide⟩)], by decide⟩, IndexMap.empty, [],
          ⟨[(1, 3)], by decide⟩, ⟨[(1, 8)], by decide⟩⟩]
    ∃ s, appendStateDiffs StateStorage.empty 0 ds = .ok s ∧
      (∀ m a key,
        s.getStorageAt m a key = (lastWrite (·.storageOf a key) (ds.take m)).getD 0 ∧
        s.getNonceAt m a = lastWrite (·.nonceOf a) (ds.take m) ∧
        s.getClassHashAt m a = lastWrite (·.classHashOf a) (ds.take m)) ∧
      ∀ d s', appendStateDiff s ds.length d = .ok s' →
        revertStateDiff s' ds.length = some (s, some d) :=
  ⟨_, rfl, state_reads_follow_diffs rfl⟩

end Sequencer.Storage
