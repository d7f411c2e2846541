/-
# The bouncer: what a block may still take

`Bouncer::try_update` charges a transaction the weights it adds to the block, and refuses it with
`BlockFull` when the block's accumulated weights plus those would leave the configured capacity.
A transaction is charged only for what the block does not already pay for: the state-change keys,
executed classes and visited storage entries it shares with transactions already in the block are
subtracted before its weights are computed, and on success they join the block's sets.

The weights of a transaction are its own (gas of its messages, message segment, events, the steps
and builtins of its run) plus what the OS pays for it: hashing the compiled classes it executes,
updating the Patricia trees for the storage entries it visits, and the data-availability segment
of its state changes.  The second part is the one shared keys are charged for once.

Model choices.
* A `HashSet` is a `Finset`: the bouncer only takes differences, unions and sizes of its sets.
* `ExecutionResources` and `BouncerWeights` are functions from their fields to counts; adding and
  comparing them is field by field, as `derive_more::Add` and `checked_sub` are.  A builtin that
  the counter map of `ExecutionResources` lacks counts 0.
* `usize` sums are natural numbers.
* The state reader of a call is what `get_compiled_contract_class` gives the bouncer: the CASM-hash
  resources of each class it knows (`none` is a `StateError`).
* `try_update` takes `&mut self`: it returns its result and the bouncer after it.

`Charged` is the invariant of a run: the bouncer's sets are the unions of the accepted calls'
sets, and its weights are their own weights plus the OS's part for those unions.  One call keeps
it (`Charged.call`), so every run does (`Charged.runTryUpdates`), and
`bouncer_charges_shared_keys_once` reads the claim off it.
-/
import Mathlib.Algebra.GroupWithZero.Nat
import Mathlib.Algebra.BigOperators.Group.Finset.Basic
import Mathlib.Data.Finset.Card
import Mathlib.Data.Fintype.Pi
import Mathlib.Data.Fintype.Sum
import Mathlib.Data.Fintype.Basic
import Mathlib.Tactic.DeriveFintype
import Mathlib.Algebra.Group.Pi.Basic
import Mathlib.Algebra.BigOperators.Pi

namespace Sequencer.Blockifier

/-! ## 1. Keys, resources and weights -/

abbrev ContractAddress := Nat
abbrev ClassHash := Nat
abbrev StorageKey := Nat

/-- `StorageEntry`: a contract and a key of its storage. -/
abbrev StorageEntry := ContractAddress × StorageKey

/-- `CLASS_UPDATE_SIZE`. -/
def classUpdateSize : Nat := 1

/-- `N_STEPS_PER_SEGMENT_ARENA_BUILTIN`. -/
def nStepsPerSegmentArenaBuiltin : Nat := 10

/-- The builtins of the prover: the fields of `BuiltinCount`. -/
inductive Builtin
  | addMod | bitwise | ecdsa | ecOp | keccak | mulMod | pedersen | poseidon | rangeCheck
  | rangeCheck96
  deriving DecidableEq, Repr

instance : Fintype Builtin :=
  Fintype.ofList [.addMod, .bitwise, .ecdsa, .ecOp, .keccak, .mulMod, .pedersen, .poseidon,
    .rangeCheck, .rangeCheck96] (fun b => by cases b <;> simp)

/-- The builtins `ExecutionResources` counts: those of the prover and the segment arena, which the
OS turns into steps. -/
inductive BuiltinName
  | prover (b : Builtin)
  | segmentArena
  deriving DecidableEq, Repr, Fintype

/-- The counters of `ExecutionResources`. -/
inductive ResourceField
  | nSteps
  | nMemoryHoles
  | builtinInstanceCounter (b : BuiltinName)
  deriving DecidableEq, Repr, Fintype

/-- `ExecutionResources` of the Cairo VM. -/
abbrev ExecutionResources := ResourceField → Nat

/-- The fields of `BouncerWeights`. -/
inductive WeightField
  | builtinCount (b : Builtin)
  | gas
  | messageSegmentLength
  | nEvents
  | nSteps
  | stateDiffSize
  deriving DecidableEq, Repr, Fintype

/-- `BouncerWeights`: the execution resources counted throughout block creation. -/
abbrev BouncerWeights := WeightField → Nat

namespace BouncerWeights

/-- `checked_sub`, field by field. -/
def checkedSub (self other : BouncerWeights) : Option BouncerWeights :=
  if ∀ f, other f ≤ self f then some (self - other) else none

/-- `has_room`. -/
def hasRoom (self other : BouncerWeights) : Bool := (self.checkedSub other).isSome

theorem hasRoom_iff {self other : BouncerWeights} : self.hasRoom other = true ↔ other ≤ self := by
  unfold hasRoom checkedSub
  split_ifs with h
  · simpa [Pi.le_def] using h
  · simpa [Pi.le_def] using h

end BouncerWeights

/-- `BouncerConfig`. -/
structure BouncerConfig where
  blockMaxCapacity : BouncerWeights

/-- `BouncerConfig::has_room`. -/
def BouncerConfig.hasRoom (self : BouncerConfig) (weights : BouncerWeights) : Bool :=
  self.blockMaxCapacity.hasRoom weights

/-! ## 2. State-change keys -/

/-- `StateChangesKeys`: the keys a state diff writes.  Its size counts modified contracts, not
nonces. -/
structure StateChangesKeys where
  nonceKeys : Finset ContractAddress
  classHashKeys : Finset ContractAddress
  storageKeys : Finset StorageEntry
  compiledClassHashKeys : Finset ClassHash
  modifiedContracts : Finset ContractAddress
  deriving DecidableEq

namespace StateChangesKeys

/-- `StateChangesKeys::default`. -/
def empty : StateChangesKeys := ⟨∅, ∅, ∅, ∅, ∅⟩

/-- `difference`: the keys of `self` that `other` lacks, set by set. -/
def difference (self other : StateChangesKeys) : StateChangesKeys :=
  ⟨self.nonceKeys \ other.nonceKeys, self.classHashKeys \ other.classHashKeys,
    self.storageKeys \ other.storageKeys,
    self.compiledClassHashKeys \ other.compiledClassHashKeys,
    self.modifiedContracts \ other.modifiedContracts⟩

/-- `extend`: the union, set by set. -/
def extend (self other : StateChangesKeys) : StateChangesKeys :=
  ⟨self.nonceKeys ∪ other.nonceKeys, self.classHashKeys ∪ other.classHashKeys,
    self.storageKeys ∪ other.storageKeys,
    self.compiledClassHashKeys ∪ other.compiledClassHashKeys,
    self.modifiedContracts ∪ other.modifiedContracts⟩

end StateChangesKeys

/-- `StateChangesCount`. -/
structure StateChangesCount where
  nStorageUpdates : Nat
  nClassHashUpdates : Nat
  nCompiledClassHashUpdates : Nat
  nModifiedContracts : Nat

/-- `StateChangesKeys::count`. -/
def StateChangesKeys.count (self : StateChangesKeys) : StateChangesCount :=
  ⟨self.storageKeys.card, self.classHashKeys.card, self.compiledClassHashKeys.card,
    self.modifiedContracts.card⟩

/-- `get_onchain_data_segment_length`. -/
def getOnchainDataSegmentLength (stateChangesCount : StateChangesCount) : Nat :=
  stateChangesCount.nModifiedContracts * 2 +
    stateChangesCount.nClassHashUpdates * classUpdateSize +
    stateChangesCount.nStorageUpdates * 2 +
    stateChangesCount.nCompiledClassHashUpdates * 2

/-! ## 3. The weights of a transaction -/

/-- The errors of `try_update` and of the executor. -/
inductive TransactionExecutionError
  | stateError
  | executionFailed
  deriving DecidableEq, Repr

/-- `TransactionExecutorError`. -/
inductive TransactionExecutorError
  | blockFull
  | stateError
  | transactionExecutionError (e : TransactionExecutionError)
  deriving DecidableEq, Repr

/-- The part of `ExecutionSummary` the bouncer reads. -/
structure ExecutionSummary where
  executedClassHashes : Finset ClassHash
  visitedStorageEntries : Finset StorageEntry

/-- The part of `TransactionResources` the bouncer reads: the L1 gas of the Starknet gas cost of
its messages, their segment length, its number of events, and the resources of its run. -/
structure TransactionResources where
  messagesL1Gas : Nat
  messageSegmentLength : Nat
  nEvents : Nat
  vmResources : ExecutionResources

/-- `total_n_steps`: memory holes and segment-arena instances count as steps. -/
def totalNSteps (r : ExecutionResources) : Nat :=
  r .nSteps + r .nMemoryHoles +
    nStepsPerSegmentArenaBuiltin * r (.builtinInstanceCounter .segmentArena)

/-- `BuiltinCount::from(prover_builtins())`: the segment arena removed. -/
def proverBuiltins (r : ExecutionResources) : Builtin → Nat :=
  fun b => r (.builtinInstanceCounter (.prover b))

/-- `get_casm_hash_calculation_resources`: the CASM-hash resources of every class, or the state
reader's error. -/
def getCasmHashCalculationResources (reader : ClassHash → Option ExecutionResources)
    (executedClassHashes : Finset ClassHash) :
    Except TransactionExecutionError ExecutionResources :=
  if ∀ c ∈ executedClassHashes, (reader c).isSome then
    .ok (∑ c ∈ executedClassHashes, (reader c).getD 0)
  else .error .stateError

/-- `TREE_HEIGHT_UPPER_BOUND` of `get_particia_update_resources`. -/
def treeHeightUpperBound : Nat := 24

/-- `get_particia_update_resources`: 32 steps and two Pedersen hashes per update, `24` updates per
visited entry. -/
def getParticiaUpdateResources (nVisitedStorageEntries : Nat) : ExecutionResources :=
  let nUpdates := nVisitedStorageEntries * treeHeightUpperBound
  fun
  | .nSteps => 32 * nUpdates
  | .builtinInstanceCounter (.prover .pedersen) => 2 * nUpdates
  | _ => 0

/-- The weights of a run's resources and of the state changes it writes. -/
def resourceWeights (vmResources : ExecutionResources) (gas messageSegmentLength nEvents : Nat)
    (stateChangesKeys : StateChangesKeys) : BouncerWeights
  | .gas => gas
  | .messageSegmentLength => messageSegmentLength
  | .nEvents => nEvents
  | .nSteps => totalNSteps vmResources
  | .builtinCount b => proverBuiltins vmResources b
  | .stateDiffSize => getOnchainDataSegmentLength stateChangesKeys.count

/-- `get_tx_weights`. -/
def getTxWeights (reader : ClassHash → Option ExecutionResources)
    (executedClassHashes : Finset ClassHash) (nVisitedStorageEntries : Nat)
    (txResources : TransactionResources) (stateChangesKeys : StateChangesKeys) :
    Except TransactionExecutionError BouncerWeights := do
  let additionalOsResources ← getCasmHashCalculationResources reader executedClassHashes
  let additionalOsResources :=
    additionalOsResources + getParticiaUpdateResources nVisitedStorageEntries
  let vmResources := additionalOsResources + txResources.vmResources
  return resourceWeights vmResources txResources.messagesL1Gas txResources.messageSegmentLength
    txResources.nEvents stateChangesKeys

/-! ## 4. The bouncer -/

/-- `Bouncer`. -/
structure Bouncer where
  executedClassHashes : Finset ClassHash
  visitedStorageEntries : Finset StorageEntry
  stateChangesKeys : StateChangesKeys
  bouncerConfig : BouncerConfig
  accumulatedWeights : BouncerWeights

namespace Bouncer

/-- `Bouncer::new`: nothing charged yet. -/
def new (bouncerConfig : BouncerConfig) : Bouncer :=
  ⟨∅, ∅, .empty, bouncerConfig, 0⟩

/-- `update`: the weights charged, and the transaction's keys, classes and entries joined to the
block's. -/
def update (self : Bouncer) (txWeights : BouncerWeights) (txExecutionSummary : ExecutionSummary)
    (stateChangesKeys : StateChangesKeys) : Bouncer :=
  { self with
    accumulatedWeights := self.accumulatedWeights + txWeights
    visitedStorageEntries :=
      self.visitedStorageEntries ∪ txExecutionSummary.visitedStorageEntries
    executedClassHashes := self.executedClassHashes ∪ txExecutionSummary.executedClassHashes
    stateChangesKeys := self.stateChangesKeys.extend stateChangesKeys }

/-- `try_update`: the transaction charged only for what the block does not already hold, and
refused when the block has no room for it. -/
def tryUpdate (self : Bouncer) (stateReader : ClassHash → Option ExecutionResources)
    (txStateChangesKeys : StateChangesKeys) (txExecutionSummary : ExecutionSummary)
    (txResources : TransactionResources) : Except TransactionExecutorError Unit × Bouncer :=
  let marginalStateChangesKeys := txStateChangesKeys.difference self.stateChangesKeys
  let marginalExecutedClassHashes :=
    txExecutionSummary.executedClassHashes \ self.executedClassHashes
  let nMarginalVisitedStorageEntries :=
    (txExecutionSummary.visitedStorageEntries \ self.visitedStorageEntries).card
  match getTxWeights stateReader marginalExecutedClassHashes nMarginalVisitedStorageEntries
      txResources marginalStateChangesKeys with
  | .error e => (.error (.transactionExecutionError e), self)
  | .ok txWeights =>
    if !self.bouncerConfig.hasRoom (self.accumulatedWeights + txWeights) then
      (.error .blockFull, self)
    else (.ok (), self.update txWeights txExecutionSummary marginalStateChangesKeys)

end Bouncer

/-! ## 5. Weights are additive -/

/-- A transaction's own weights: those of its messages, events and run. -/
def ownWeights (txResources : TransactionResources) : BouncerWeights :=
  resourceWeights txResources.vmResources txResources.messagesL1Gas
    txResources.messageSegmentLength txResources.nEvents .empty

/-- What the OS pays for a block: hashing its classes, updating the trees for its visited entries,
and the data segment of its state changes. -/
def osWeights (casm : ClassHash → ExecutionResources) (nVisitedStorageEntries : Nat)
    (executedClassHashes : Finset ClassHash) (stateChangesKeys : StateChangesKeys) :
    BouncerWeights :=
  resourceWeights (getParticiaUpdateResources nVisitedStorageEntries +
    ∑ c ∈ executedClassHashes, casm c) 0 0 0 stateChangesKeys

theorem getParticiaUpdateResources_add (n m : Nat) :
    getParticiaUpdateResources (n + m) =
      getParticiaUpdateResources n + getParticiaUpdateResources m := by
  funext f
  rcases f with _ | _ | (_ | _) <;> try rename_i b; cases b
  all_goals simp [getParticiaUpdateResources, Nat.add_mul, Nat.mul_add]

/-- The weights of two runs together are the sum of theirs, when their state changes' segments
add up. -/
theorem resourceWeights_add {r r' : ExecutionResources} {g g' m m' e e' : Nat}
    {keys keys' : StateChangesKeys} (keys'' : StateChangesKeys)
    (hkeys : getOnchainDataSegmentLength keys''.count =
      getOnchainDataSegmentLength keys.count + getOnchainDataSegmentLength keys'.count) :
    resourceWeights (r + r') (g + g') (m + m') (e + e') keys'' =
      resourceWeights r g m e keys + resourceWeights r' g' m' e' keys' := by
  funext f
  cases f <;> simp [resourceWeights, totalNSteps, proverBuiltins, nStepsPerSegmentArenaBuiltin, hkeys]
  omega

/-- The data segment of a union of state changes is that of the old keys plus that of the new
ones. -/
theorem getOnchainDataSegmentLength_extend (keys keys' : StateChangesKeys) :
    getOnchainDataSegmentLength (keys.extend (keys'.difference keys)).count =
      getOnchainDataSegmentLength keys.count +
        getOnchainDataSegmentLength (keys'.difference keys).count := by
  simp only [getOnchainDataSegmentLength, StateChangesKeys.count, StateChangesKeys.extend,
    StateChangesKeys.difference]
  rw [Finset.card_union_of_disjoint Finset.disjoint_sdiff,
    Finset.card_union_of_disjoint Finset.disjoint_sdiff,
    Finset.card_union_of_disjoint Finset.disjoint_sdiff,
    Finset.card_union_of_disjoint Finset.disjoint_sdiff, classUpdateSize]
  omega

/-- Extending by the difference is extending. -/
theorem StateChangesKeys.extend_difference (keys keys' : StateChangesKeys) :
    keys.extend (keys'.difference keys) = keys.extend keys' := by
  simp only [StateChangesKeys.extend, StateChangesKeys.difference,
    Finset.union_sdiff_self_eq_union]

theorem getOnchainDataSegmentLength_empty :
    getOnchainDataSegmentLength StateChangesKeys.empty.count = 0 := rfl

/-- **Charging the marginal part moves what the OS pays from the old sets to their unions.** -/
theorem osWeights_add_marginal (casm : ClassHash → ExecutionResources)
    (visited visited₂ : Finset StorageEntry) (classes classes₂ : Finset ClassHash)
    (keys keys₂ : StateChangesKeys) :
    osWeights casm visited.card classes keys +
        osWeights casm (visited₂ \ visited).card (classes₂ \ classes) (keys₂.difference keys) =
      osWeights casm (visited ∪ visited₂).card (classes ∪ classes₂) (keys.extend keys₂) := by
  have hvisited : visited.card + (visited₂ \ visited).card = (visited ∪ visited₂).card := by
    rw [Nat.add_comm, Finset.card_sdiff_add_card visited₂ visited, Finset.union_comm]
  have hclasses : ∑ c ∈ classes, casm c + ∑ c ∈ classes₂ \ classes, casm c =
      ∑ c ∈ classes ∪ classes₂, casm c := by
    rw [← Finset.sum_union Finset.disjoint_sdiff, Finset.union_sdiff_self_eq_union]
  unfold osWeights
  rw [← resourceWeights_add _ (getOnchainDataSegmentLength_extend keys keys₂),
    StateChangesKeys.extend_difference, ← hvisited, getParticiaUpdateResources_add, ← hclasses]
  congr 1
  exact add_add_add_comm _ _ _ _

/-! ## 6. A run of calls -/

/-- The arguments of one `try_update` call. -/
structure TryUpdateCall where
  stateReader : ClassHash → Option ExecutionResources
  txStateChangesKeys : StateChangesKeys
  txExecutionSummary : ExecutionSummary
  txResources : TransactionResources

namespace Bouncer

/-- `try_update` on the arguments of a call. -/
def call (self : Bouncer) (c : TryUpdateCall) : Except TransactionExecutorError Unit × Bouncer :=
  self.tryUpdate c.stateReader c.txStateChangesKeys c.txExecutionSummary c.txResources

/-- A sequence of calls: the bouncer after them, and the calls that returned `Ok`, in order. -/
def runTryUpdates (self : Bouncer) : List TryUpdateCall → Bouncer × List TryUpdateCall
  | [] => (self, [])
  | c :: cs =>
    match self.call c with
    | (.ok (), b) => let r := b.runTryUpdates cs; (r.1, c :: r.2)
    | (.error _, b) => b.runTryUpdates cs

end Bouncer

/-- The state changes of the accepted calls, joined set by set. -/
def unionKeys (calls : List TryUpdateCall) : StateChangesKeys :=
  calls.foldl (fun keys c => keys.extend c.txStateChangesKeys) .empty

/-- The storage entries the accepted calls visit. -/
def unionVisited (calls : List TryUpdateCall) : Finset StorageEntry :=
  calls.foldl (fun s c => s ∪ c.txExecutionSummary.visitedStorageEntries) ∅

/-- The classes the accepted calls execute. -/
def unionClasses (calls : List TryUpdateCall) : Finset ClassHash :=
  calls.foldl (fun s c => s ∪ c.txExecutionSummary.executedClassHashes) ∅

/-! ## 7. Every shared key is charged once -/

section Charging

variable (casm : ClassHash → ExecutionResources)

/-- A state reader that agrees with `casm` on every class it knows. -/
def ReadsCasm (reader : ClassHash → Option ExecutionResources) : Prop :=
  ∀ c r, reader c = some r → r = casm c

variable {casm}

/-- The weights of a run that pays for classes and visited entries are its own plus the OS's
part. -/
theorem resourceWeights_eq_ownWeights_add (txResources : TransactionResources) (n : Nat)
    (executedClassHashes : Finset ClassHash) (keys : StateChangesKeys) :
    resourceWeights (∑ c ∈ executedClassHashes, casm c + getParticiaUpdateResources n +
        txResources.vmResources) txResources.messagesL1Gas txResources.messageSegmentLength
        txResources.nEvents keys =
      ownWeights txResources + osWeights casm n executedClassHashes keys := by
  rw [ownWeights, osWeights,
    ← resourceWeights_add keys (by rw [getOnchainDataSegmentLength_empty, Nat.zero_add])]
  simp only [Nat.add_zero]
  rw [add_comm (∑ c ∈ executedClassHashes, casm c), add_comm _ txResources.vmResources]

/-- **A transaction's weights are its own plus the OS's part for its marginal sets.** -/
theorem getTxWeights_eq_ok {reader : ClassHash → Option ExecutionResources}
    {executedClassHashes : Finset ClassHash} {n : Nat} {txResources : TransactionResources}
    {keys : StateChangesKeys} {w : BouncerWeights} (hreader : ReadsCasm casm reader)
    (h : getTxWeights reader executedClassHashes n txResources keys = .ok w) :
    w = ownWeights txResources + osWeights casm n executedClassHashes keys := by
  unfold getTxWeights getCasmHashCalculationResources at h
  split_ifs at h with hall
  swap
  · cases h
  -- every class the transaction executes is known, with the resources `casm` gives it
  have hsum : ∑ c ∈ executedClassHashes, (reader c).getD 0 = ∑ c ∈ executedClassHashes, casm c := by
    refine Finset.sum_congr rfl fun c hc => ?_
    obtain ⟨r, hr⟩ := Option.isSome_iff_exists.mp (hall c hc)
    rw [hr, hreader c r hr]
    rfl
  rw [← Except.ok.inj h, hsum]
  exact resourceWeights_eq_ownWeights_add txResources n executedClassHashes keys

/-- What one call can do: fail and leave the bouncer as it was, or charge the transaction its
own weights and the OS's part for what the block did not yet hold, within the capacity. -/
theorem Bouncer.call_cases {b b' : Bouncer} {c : TryUpdateCall}
    {r : Except TransactionExecutorError Unit} (hreader : ReadsCasm casm c.stateReader)
    (h : b.call c = (r, b')) :
    (∃ e, r = .error e ∧ b' = b) ∨
      (r = .ok () ∧
        b.accumulatedWeights + (ownWeights c.txResources +
          osWeights casm (c.txExecutionSummary.visitedStorageEntries \ b.visitedStorageEntries).card
            (c.txExecutionSummary.executedClassHashes \ b.executedClassHashes)
            (c.txStateChangesKeys.difference b.stateChangesKeys)) ≤
          b.bouncerConfig.blockMaxCapacity ∧
        b' = b.update (ownWeights c.txResources +
          osWeights casm (c.txExecutionSummary.visitedStorageEntries \ b.visitedStorageEntries).card
            (c.txExecutionSummary.executedClassHashes \ b.executedClassHashes)
            (c.txStateChangesKeys.difference b.stateChangesKeys))
          c.txExecutionSummary (c.txStateChangesKeys.difference b.stateChangesKeys)) := by
  unfold Bouncer.call Bouncer.tryUpdate at h
  dsimp only at h
  split at h
  · exact .inl ⟨_, (Prod.mk.inj h).1.symm, (Prod.mk.inj h).2.symm⟩
  · rename_i w hw
    rw [← getTxWeights_eq_ok hreader hw]
    split_ifs at h with hroom
    · exact .inl ⟨_, (Prod.mk.inj h).1.symm, (Prod.mk.inj h).2.symm⟩
    · have hfits := BouncerWeights.hasRoom_iff.mp (by simpa [BouncerConfig.hasRoom] using hroom)
      exact .inr ⟨(Prod.mk.inj h).1.symm, hfits, (Prod.mk.inj h).2.symm⟩

/-- **The run invariant**: the bouncer holds the union of the accepted calls' sets, and its
weights are their own weights plus what the OS pays for those unions, within the capacity. -/
structure Charged (config : BouncerConfig) (casm : ClassHash → ExecutionResources) (b : Bouncer)
    (accepted : List TryUpdateCall) : Prop where
  bouncerConfig : b.bouncerConfig = config
  keys : b.stateChangesKeys = unionKeys accepted
  visited : b.visitedStorageEntries = unionVisited accepted
  classes : b.executedClassHashes = unionClasses accepted
  within : b.accumulatedWeights ≤ config.blockMaxCapacity
  weights : b.accumulatedWeights = (accepted.map fun c => ownWeights c.txResources).sum +
    osWeights casm (unionVisited accepted).card (unionClasses accepted) (unionKeys accepted)

theorem osWeights_empty : osWeights casm 0 ∅ .empty = 0 := by
  funext f
  cases f <;> (try rename_i b; cases b) <;> rfl

theorem Charged.new (config : BouncerConfig) : Charged config casm (Bouncer.new config) [] where
  bouncerConfig := rfl
  keys := rfl
  visited := rfl
  classes := rfl
  within := fun _ => Nat.zero_le _
  weights := by
    show 0 = 0 + osWeights casm 0 ∅ .empty
    rw [osWeights_empty, zero_add]

/-- **One call keeps the invariant**: a refused call changes nothing, an accepted one joins the
accepted calls. -/
theorem Charged.call {config : BouncerConfig} {b b' : Bouncer} {accepted : List TryUpdateCall}
    {c : TryUpdateCall} {r : Except TransactionExecutorError Unit} (hb : Charged config casm b accepted)
    (hreader : ReadsCasm casm c.stateReader) (h : b.call c = (r, b')) :
    Charged config casm b' (match r with | .ok () => accepted ++ [c] | .error _ => accepted) := by
  rcases Bouncer.call_cases hreader h with ⟨e, rfl, rfl⟩ | ⟨rfl, hroom, rfl⟩
  · exact hb
  refine ⟨hb.bouncerConfig, ?_, ?_, ?_, hb.bouncerConfig ▸ hroom, ?_⟩
  · simp [Bouncer.update, unionKeys, StateChangesKeys.extend_difference, hb.keys]
  · simp [Bouncer.update, unionVisited, hb.visited]
  · simp [Bouncer.update, unionClasses, hb.classes]
  · -- the old OS part and the marginal one make the OS part of the unions
    have hunion := osWeights_add_marginal casm b.visitedStorageEntries
      c.txExecutionSummary.visitedStorageEntries b.executedClassHashes
      c.txExecutionSummary.executedClassHashes b.stateChangesKeys c.txStateChangesKeys
    simp only [Bouncer.update, hb.weights, List.map_append, List.map_cons, List.map_nil,
      List.sum_append, List.sum_cons, List.sum_nil, add_zero]
    rw [add_add_add_comm, ← hb.visited, ← hb.classes, ← hb.keys, hunion]
    simp [unionKeys, unionVisited, unionClasses, hb.keys, hb.visited, hb.classes]

/-- **A run keeps the invariant.** -/
theorem Charged.runTryUpdates {config : BouncerConfig} :
    ∀ (calls : List TryUpdateCall) {b : Bouncer} {accepted : List TryUpdateCall},
      Charged config casm b accepted → (∀ c ∈ calls, ReadsCasm casm c.stateReader) →
      Charged config casm (b.runTryUpdates calls).1 (accepted ++ (b.runTryUpdates calls).2)
  | [], _, _, hb, _ => by simpa [Bouncer.runTryUpdates] using hb
  | c :: cs, b, accepted, hb, hreaders => by
    have hrest : ∀ c ∈ cs, ReadsCasm casm c.stateReader :=
      fun c' hc' => hreaders c' (List.mem_cons_of_mem _ hc')
    unfold Bouncer.runTryUpdates
    split
    · rename_i b' h
      have := Charged.runTryUpdates cs (hb.call (hreaders c (List.mem_cons_self ..)) h) hrest
      simpa using this
    · rename_i e b' h
      exact Charged.runTryUpdates cs (hb.call (hreaders c (List.mem_cons_self ..)) h) hrest

/-- **A refused call leaves the bouncer as it was.** -/
theorem Bouncer.call_error {b b' : Bouncer} {c : TryUpdateCall} {e : TransactionExecutorError}
    (h : b.call c = (.error e, b')) : b' = b := by
  unfold Bouncer.call Bouncer.tryUpdate at h
  dsimp only at h
  split at h
  · exact (Prod.mk.inj h).2.symm
  · split_ifs at h
    · exact (Prod.mk.inj h).2.symm
    · cases (Prod.mk.inj h).1

theorem ownWeights_stateDiffSize (txResources : TransactionResources) :
    ownWeights txResources .stateDiffSize = 0 := rfl

end Charging

/-- **The bouncer charges every shared key once**: a refused call changes nothing; after any
sequence of calls the accumulated weights are within the capacity, and they are the accepted
transactions' own weights plus what the OS pays for the unions of their state changes, visited
storage entries and executed classes, whatever the order of the calls. -/
theorem bouncer_charges_shared_keys_once (config : BouncerConfig)
    (casm : ClassHash → ExecutionResources) (calls : List TryUpdateCall)
    (hreaders : ∀ c ∈ calls, ReadsCasm casm c.stateReader) {b : Bouncer}
    {accepted : List TryUpdateCall} (hrun : (Bouncer.new config).runTryUpdates calls = (b, accepted)) :
    (∀ (b₀ b₁ : Bouncer) (c : TryUpdateCall) (e : TransactionExecutorError),
        b₀.call c = (.error e, b₁) → b₁ = b₀) ∧
      b.accumulatedWeights ≤ config.blockMaxCapacity ∧
      b.accumulatedWeights .stateDiffSize =
        getOnchainDataSegmentLength (unionKeys accepted).count ∧
      b.accumulatedWeights = (accepted.map fun c => ownWeights c.txResources).sum +
        osWeights casm (unionVisited accepted).card (unionClasses accepted) (unionKeys accepted) := by
  have hcharged := Charged.runTryUpdates calls (Charged.new config : Charged config casm _ []) hreaders
  rw [hrun] at hcharged
  simp only [List.nil_append] at hcharged
  refine ⟨fun _ _ _ _ => Bouncer.call_error, hcharged.within, ?_, hcharged.weights⟩
  rw [hcharged.weights, Pi.add_apply, Pi.list_sum_apply]
  -- a transaction's own weights write no state
  have hown : ((accepted.map fun c => ownWeights c.txResources).map
      fun w => w .stateDiffSize).sum = 0 := by
    refine List.sum_eq_zero fun x hx => ?_
    obtain ⟨w, hw, rfl⟩ := List.mem_map.mp hx
    obtain ⟨c, -, rfl⟩ := List.mem_map.mp hw
    exact ownWeights_stateDiffSize c.txResources
  rw [hown, Nat.zero_add]
  rfl

/-- Two transactions that write the same storage cell of the same contract. -/
def twoWritesOfOneCell : List TryUpdateCall :=
  [⟨fun _ => none, ⟨∅, ∅, {(1, 2)}, ∅, {1}⟩, ⟨∅, {(1, 2)}⟩, ⟨0, 0, 0, 0⟩⟩,
    ⟨fun _ => none, ⟨∅, ∅, {(1, 2)}, ∅, {1}⟩, ⟨∅, {(1, 2)}⟩, ⟨0, 0, 0, 0⟩⟩]

/-- Both are accepted, and the cell and the contract are charged once. -/
theorem bouncer_charges_shared_keys_once_shared_cell :
    ((Bouncer.new ⟨fun _ => 10000⟩).runTryUpdates twoWritesOfOneCell).2.length = 2 ∧
      ((Bouncer.new ⟨fun _ => 10000⟩).runTryUpdates twoWritesOfOneCell).1.accumulatedWeights
        .stateDiffSize = 4 ∧
      ((Bouncer.new ⟨fun _ => 10000⟩).runTryUpdates twoWritesOfOneCell).1.accumulatedWeights
          .stateDiffSize = getOnchainDataSegmentLength
        (unionKeys ((Bouncer.new ⟨fun _ => 10000⟩).runTryUpdates twoWritesOfOneCell).2).count := by
  have hreaders : ∀ c ∈ twoWritesOfOneCell, ReadsCasm (fun _ => 0) c.stateReader := by
    intro c hc x r hr
    rcases List.mem_cons.mp hc with rfl | hc
    · cases hr
    · rcases List.mem_singleton.mp hc with rfl
      cases hr
  exact ⟨by decide, by decide,
    (bouncer_charges_shared_keys_once ⟨fun _ => 10000⟩ (fun _ => 0) twoWritesOfOneCell hreaders
      rfl).2.2.1⟩

end Sequencer.Blockifier
