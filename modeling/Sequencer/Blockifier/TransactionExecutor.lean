/-
# The transaction executor: a chunk of transactions into the block

`TransactionExecutor::execute` runs one transaction on a transactional state over the block state,
asks the bouncer whether the block has room for what it did, and commits the transactional state
only when the bouncer accepts it.  A refused or failed transaction leaves the executor as it was
(`execute_error`).

`execute_txs` executes a chunk either sequentially or, when concurrency is enabled, in chunks of
`chunk_size` by the concurrent executor.  Both stop when the block is full, and both report it only
by returning fewer results than transactions: `execute_txs_sequentially` breaks at `BlockFull`
without pushing it, and `execute_chunk` returns the results of the committed prefix, whose errors are
execution errors.  So no result of `execute_txs` is ever `Err(BlockFull)` (`executeTxs_ne_blockFull`).

The execution itself (`execute_raw`) and the concurrent chunk run (`execute_chunk`, the worker
pool over the scheduler) are parameters: what they write into the block state is opaque here.
-/
import Sequencer.Blockifier.Bouncer

namespace Sequencer.Blockifier

variable {σ Tx ι : Type}

/-! ## 1. The executor -/

/-- What `execute_raw` leaves when it succeeds: the execution info, the transactional state it
wrote, and what `Bouncer::try_update` reads off them.  `stateChangesKeys` is `none` when
`get_actual_state_changes` fails with a `StateError`. -/
structure RawExecution (σ ι : Type) where
  txExecutionInfo : ι
  transactionalState : σ
  stateChangesKeys : Option StateChangesKeys
  stateReader : ClassHash → Option ExecutionResources
  executionSummary : ExecutionSummary
  resources : TransactionResources

/-- `execute_raw` on a transactional state over the given block state. -/
abbrev ExecuteRaw (σ Tx ι : Type) := σ → Tx → Except TransactionExecutionError (RawExecution σ ι)

/-- `ConcurrencyConfig`.  The two asserts of `execute_txs` are its invariant: an enabled
configuration has workers and a positive chunk size. -/
structure ConcurrencyConfig where
  enabled : Bool
  nWorkers : Nat
  chunkSize : Nat
  enabled_valid : enabled = true → 0 < chunkSize ∧ 0 < nWorkers

/-- `TransactionExecutorConfig`. -/
structure TransactionExecutorConfig where
  concurrencyConfig : ConcurrencyConfig

/-- `TransactionExecutor`: its bouncer, its configuration and the block state. -/
structure TransactionExecutor (σ : Type) where
  bouncer : Bouncer
  config : TransactionExecutorConfig
  blockState : σ

/-- `execute_chunk`: the results of the committed prefix of a chunk, and the executor after the
chunk is committed. -/
abbrev ExecuteChunk (σ Tx ι : Type) :=
  TransactionExecutor σ → List Tx → List (Except TransactionExecutionError ι) × TransactionExecutor σ

namespace TransactionExecutor

/-- `TransactionExecutor::new`. -/
def new (blockState : σ) (bouncerConfig : BouncerConfig) (config : TransactionExecutorConfig) :
    TransactionExecutor σ :=
  ⟨Bouncer.new bouncerConfig, config, blockState⟩

section Execute

variable (executeRaw : ExecuteRaw σ Tx ι)

/-- `execute`: the transactional state is committed only when the bouncer takes the transaction;
otherwise it is aborted, and the block state stays. -/
def execute (self : TransactionExecutor σ) (tx : Tx) :
    Except TransactionExecutorError ι × TransactionExecutor σ :=
  match executeRaw self.blockState tx with
  | .ok raw =>
    match raw.stateChangesKeys with
    | none => (.error .stateError, self)
    | some txStateChangesKeys =>
      match self.bouncer.tryUpdate raw.stateReader txStateChangesKeys raw.executionSummary
          raw.resources with
      | (.ok (), bouncer) =>
        (.ok raw.txExecutionInfo, { self with bouncer, blockState := raw.transactionalState })
      | (.error e, bouncer) => (.error e, { self with bouncer })
  | .error error => (.error (.transactionExecutionError error), self)

/-- `execute_txs_sequentially`: the results up to the first `BlockFull`, which is not pushed. -/
def executeTxsSequentially (self : TransactionExecutor σ) :
    List Tx → List (Except TransactionExecutorError ι) × TransactionExecutor σ
  | [] => ([], self)
  | tx :: txs =>
    match self.execute executeRaw tx with
    | (.ok txExecutionInfo, self') =>
      let r := self'.executeTxsSequentially txs
      (.ok txExecutionInfo :: r.1, r.2)
    | (.error .blockFull, self') => ([], self')
    | (.error error, self') =>
      let r := self'.executeTxsSequentially txs
      (.error error :: r.1, r.2)

/-- **A transaction that fails or is refused leaves the executor as it was**: the transactional
state is aborted and the bouncer keeps its weights. -/
theorem execute_error {self self' : TransactionExecutor σ} {tx : Tx} {e : TransactionExecutorError}
    (h : self.execute executeRaw tx = (.error e, self')) : self' = self := by
  unfold execute at h
  split at h
  · rename_i raw _
    split at h
    · exact (Prod.mk.inj h).2.symm
    · rename_i keys _
      split at h
      · cases (Prod.mk.inj h).1
      · rename_i e' bouncer hb
        have hbouncer : bouncer = self.bouncer :=
          Bouncer.call_error (c := ⟨raw.stateReader, keys, raw.executionSummary, raw.resources⟩) hb
        rw [← (Prod.mk.inj h).2, hbouncer]
  · exact (Prod.mk.inj h).2.symm

/-- **What `execute` accepts is committed**: the block state becomes the transactional state of
the run. -/
theorem execute_ok {self self' : TransactionExecutor σ} {tx : Tx} {info : ι}
    (h : self.execute executeRaw tx = (.ok info, self')) :
    ∃ raw, executeRaw self.blockState tx = .ok raw ∧ info = raw.txExecutionInfo ∧
      self'.blockState = raw.transactionalState := by
  unfold execute at h
  split at h
  · rename_i raw hraw
    split at h
    · cases (Prod.mk.inj h).1
    · split at h
      · obtain ⟨hinfo, hself⟩ := Prod.mk.inj h
        cases hinfo
        exact ⟨raw, hraw, rfl, by rw [← hself]⟩
      · cases (Prod.mk.inj h).1
  · cases (Prod.mk.inj h).1

/-- The sequential results are those of a prefix of the chunk. -/
theorem length_executeTxsSequentially_le :
    ∀ (self : TransactionExecutor σ) (txs : List Tx),
      (self.executeTxsSequentially executeRaw txs).1.length ≤ txs.length
  | _, [] => Nat.le_refl 0
  | self, tx :: txs => by
    unfold executeTxsSequentially
    split
    · rename_i self' _
      have ih := length_executeTxsSequentially_le self' txs
      simp only [List.length_cons]
      omega
    · simp
    · rename_i self' _ _
      have ih := length_executeTxsSequentially_le self' txs
      simp only [List.length_cons]
      omega

/-- **The sequential executor never reports `BlockFull`**: it breaks out of the loop instead. -/
theorem ne_blockFull_of_mem_executeTxsSequentially :
    ∀ (self : TransactionExecutor σ) (txs : List Tx) {r : Except TransactionExecutorError ι},
      r ∈ (self.executeTxsSequentially executeRaw txs).1 → r ≠ .error .blockFull
  | _, [], _, hr => by cases hr
  | self, tx :: txs, r, hr => by
    unfold executeTxsSequentially at hr
    split at hr
    · rename_i self' _
      rcases List.mem_cons.mp hr with rfl | hr
      · nofun
      · exact ne_blockFull_of_mem_executeTxsSequentially self' txs hr
    · cases hr
    · rename_i error self' hne _
      rcases List.mem_cons.mp hr with rfl | hr
      · intro he
        cases he
        exact hne rfl
      · exact ne_blockFull_of_mem_executeTxsSequentially self' txs hr

end Execute

section Chunks

variable (executeChunk : ExecuteChunk σ Tx ι)

/-- The `fold_while` of `execute_txs` over the chunks: it stops after the first chunk of which
fewer transactions were committed than it holds (the block is full). -/
def executeChunks (self : TransactionExecutor σ) :
    List (List Tx) → List (Except TransactionExecutorError ι) × TransactionExecutor σ
  | [] => ([], self)
  | chunk :: chunks =>
    let r := executeChunk self chunk
    let chunkResults := r.1.map (Except.mapError .transactionExecutionError)
    if chunkResults.length < chunk.length then (chunkResults, r.2)
    else
      let rest := r.2.executeChunks chunks
      (chunkResults ++ rest.1, rest.2)

/-- The concurrent results are the chunk runs' execution results, so none is `BlockFull`. -/
theorem ne_blockFull_of_mem_executeChunks :
    ∀ (self : TransactionExecutor σ) (chunks : List (List Tx)) {r : Except TransactionExecutorError ι},
      r ∈ (self.executeChunks executeChunk chunks).1 → r ≠ .error .blockFull
  | _, [], _, hr => by cases hr
  | self, chunk :: chunks, r, hr => by
    -- a mapped result is `Ok` or an execution error
    have hmapped : ∀ x ∈ (executeChunk self chunk).1,
        x.mapError TransactionExecutorError.transactionExecutionError ≠ .error .blockFull := by
      intro x _
      cases x <;> nofun
    unfold executeChunks at hr
    dsimp only at hr
    split at hr
    · obtain ⟨x, hx, rfl⟩ := List.mem_map.mp hr
      exact hmapped x hx
    · rcases List.mem_append.mp hr with hr | hr
      · obtain ⟨x, hx, rfl⟩ := List.mem_map.mp hr
        exact hmapped x hx
      · exact ne_blockFull_of_mem_executeChunks _ chunks hr

end Chunks

variable (executeRaw : ExecuteRaw σ Tx ι) (executeChunk : ExecuteChunk σ Tx ι)

/-- `execute_txs`: sequentially, or by chunks of `chunk_size` when concurrency is enabled. -/
def executeTxs (self : TransactionExecutor σ) (txs : List Tx) :
    List (Except TransactionExecutorError ι) × TransactionExecutor σ :=
  if !self.config.concurrencyConfig.enabled then self.executeTxsSequentially executeRaw txs
  else self.executeChunks executeChunk (txs.toChunks self.config.concurrencyConfig.chunkSize)

/-- **No result of `execute_txs` is `Err(BlockFull)`**, whichever way it executes. -/
theorem executeTxs_ne_blockFull (self : TransactionExecutor σ) (txs : List Tx)
    {r : Except TransactionExecutorError ι} (hr : r ∈ (self.executeTxs executeRaw executeChunk txs).1) :
    r ≠ .error .blockFull := by
  unfold executeTxs at hr
  split at hr
  · exact ne_blockFull_of_mem_executeTxsSequentially executeRaw self txs hr
  · exact ne_blockFull_of_mem_executeChunks executeChunk self _ hr

end TransactionExecutor

end Sequencer.Blockifier
