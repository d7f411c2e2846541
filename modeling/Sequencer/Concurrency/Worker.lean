/-
# Workers interleaving over one scheduler (`concurrency/worker_logic.rs`)

`WorkerExecutor::run` is the loop every worker thread runs:

    loop {
        self.commit_while_possible();
        task = match task { ExecutionTask(i) => { self.execute(i); AskForTask }
                            ValidationTask(i) => self.validate(i),
                            NoTaskAvailable => AskForTask, AskForTask => next_task(),
                            Done => break };
    }

The model cuts it at every access to scheduler state, so that the interleavings of `Sys.step`
are exactly the interleavings of the atomic accesses of any number of threads.  A worker's
position in its loop is a `Pc`, which carries the locals the rest of the iteration reads (the
task, a transaction index, an index just loaded).

The parts of `run` that touch only the versioned state and the bouncer (`execute_tx`,
`validate_reads`, `delete_writes`, the bouncer's verdict) are not modelled here: each outcome they
can produce is a CHOICE of the scheduler of the run, the Boolean that comes with each step.  It
is read at three places: whether the read set is still valid (in `validate` and in `commit_tx`)
and whether the bouncer found room for the transaction (in `commit_tx`).  So every statement
about runs below holds whatever those outcomes are.  A bouncer error other than `BlockFull`
panics in the source and is outside the model.
-/
import Sequencer.Lib.Run
import Sequencer.Concurrency.Scheduler

namespace Sequencer.Concurrency

open Scheduler

/-- Where a worker is in `WorkerExecutor::run`. -/
inductive Pc
  /-- Top of the loop: `commit_while_possible` is next. -/
  | loop (task : Task)
  /-- Holds the commit-index lock: `try_commit` is next. -/
  | committing (task : Task)
  /-- `commit_tx(txIndex)`: re-validation of the read set is next. -/
  | commitTx (task : Task) (txIndex : Nat)
  /-- `commit_tx(txIndex)`: the bouncer's verdict is next (and `halt_scheduler` on `false`). -/
  | commitBouncer (task : Task) (txIndex : Nat)
  /-- After `commit_while_possible`: the `match task` is next. -/
  | dispatch (task : Task)
  /-- `finish_execution`: `decrease_validation_index` is next. -/
  | finishExecution (txIndex : Nat)
  /-- `finish_abort`: `set_ready_status` is next. -/
  | abortReady (txIndex : Nat)
  /-- `finish_abort`: the load of `execution_index` is next. -/
  | abortLoadExec (txIndex : Nat)
  /-- `finish_abort`: `try_incarnate` is next. -/
  | abortIncarnate (txIndex : Nat)
  /-- `next_task`: the load of `validation_index` is next. -/
  | ntLoadVal
  /-- `next_task`: the load of `execution_index` is next. -/
  | ntLoadExec (indexToValidate : Nat)
  /-- `next_version_to_validate`: the load of `validation_index` is next. -/
  | nvLoad
  /-- `next_version_to_validate`: the `fetch_add` is next. -/
  | nvFetch
  /-- `next_version_to_validate`: the status check of the fetched index is next. -/
  | nvLock (indexToValidate : Nat)
  /-- `next_version_to_execute`: the load of `execution_index` is next. -/
  | neLoad
  /-- `next_version_to_execute`: the `fetch_add` is next. -/
  | neFetch
  /-- `next_version_to_execute`: `try_incarnate` of the fetched index is next. -/
  | neIncarnate (indexToExecute : Nat)
  /-- Left the loop on `Task::Done`. -/
  | finished
  deriving DecidableEq, Repr

/-- What an observer of the commit phase sees: an index returned by `try_commit`, and a call of
`halt_scheduler`. -/
inductive Obs
  | committed (txIndex : Nat)
  | halted
  deriving DecidableEq, Repr

/-- The shared scheduler, the holder of the commit-index lock, and every worker's position. -/
structure Sys where
  sched : Scheduler
  commitLock : Option Nat
  workers : Nat → Pc

/-- All workers at the start of `run`, on a fresh `Scheduler::new(chunk_size)`. -/
def Sys.init (chunkSize : Nat) : Sys where
  sched := Scheduler.new chunkSize
  commitLock := none
  workers := fun _ => .loop .askForTask

/-- One atomic step of a worker, from its position: the new scheduler, the new holder of the
commit lock, its new position and what it emitted.  `w` is the worker itself, `lock` the holder
of the commit lock, `b` the outcome of the versioned state or the bouncer where one is read. -/
def workerStep (sched : Scheduler) (lock : Option Nat) (w : Nat) (b : Bool) :
    Pc → Option (Scheduler × Option Nat × Pc × List Obs)
  -- `try_enter_commit_phase`: `try_lock` on the commit index.
  | .loop task =>
    match lock with
    | none => some (sched, some w, .committing task, [])
    | some _ => some (sched, lock, .dispatch task, [])
  | .committing task => do
    let (sched', r) ← sched.tryCommit
    match r with
    -- `try_commit` returned `None`: the guard is dropped, the lock released.
    | none => pure (sched', none, .dispatch task, [])
    | some i => pure (sched', lock, .commitTx task i, [.committed i])
  -- `commit_tx`: on an invalid read set the transaction is re-executed, and
  -- `finish_execution_during_commit` lowers the validation index to `i + 1`.
  | .commitTx task i =>
    if b then some (sched, lock, .commitBouncer task i, [])
    else some (sched.decreaseValidationIndex (i + 1), lock, .commitBouncer task i, [])
  -- `commit_tx` returned `false` (block full): `halt_scheduler`.
  | .commitBouncer task _ =>
    if b then some (sched, lock, .committing task, [])
    else do
      let sched' ← sched.haltScheduler
      pure (sched', lock, .committing task, [.halted])
  -- `execute`: `execute_tx`, then `finish_execution`'s `set_executed_status`.
  | .dispatch (.executionTask i) => do
    let sched' ← sched.setExecutedStatus i
    pure (sched', lock, .finishExecution i, [])
  -- `validate`: `validate_reads`, then `try_validation_abort` when the reads are stale.
  | .dispatch (.validationTask i) =>
    if b then some (sched, lock, .loop .askForTask, [])
    else do
      let (sched', aborted) ← sched.tryValidationAbort i
      pure (sched', lock, if aborted then .abortReady i else .loop .askForTask, [])
  | .dispatch .noTaskAvailable => some (sched, lock, .loop .askForTask, [])
  -- `next_task` begins with `done()`.
  | .dispatch .askForTask =>
    if sched.done then some (sched, lock, .loop .done, [])
    else some (sched, lock, .ntLoadVal, [])
  | .dispatch .done => some (sched, lock, .finished, [])
  | .finishExecution i => some (sched.decreaseValidationIndex i, lock, .loop .askForTask, [])
  | .abortReady i => do
    let sched' ← sched.setReadyStatus i
    pure (sched', lock, .abortLoadExec i, [])
  | .abortLoadExec i =>
    if i < sched.executionIndex then some (sched, lock, .abortIncarnate i, [])
    else some (sched, lock, .loop .askForTask, [])
  | .abortIncarnate i =>
    let (sched', ok) := sched.tryIncarnate i
    some (sched', lock, .loop (if ok then .executionTask i else .askForTask), [])
  | .ntLoadVal => some (sched, lock, .ntLoadExec sched.validationIndex, [])
  | .ntLoadExec v =>
    let e := sched.executionIndex
    if sched.chunkSize ≤ min v e then some (sched, lock, .loop .noTaskAvailable, [])
    else if v < e then some (sched, lock, .nvLoad, [])
    else some (sched, lock, .neLoad, [])
  | .nvLoad =>
    if sched.chunkSize ≤ sched.validationIndex then some (sched, lock, .neLoad, [])
    else some (sched, lock, .nvFetch, [])
  | .nvFetch =>
    let (sched', i) := sched.fetchAddValidationIndex
    if i < sched.chunkSize then some (sched', lock, .nvLock i, [])
    else some (sched', lock, .neLoad, [])
  | .nvLock i =>
    if sched.txStatuses i = .executed then some (sched, lock, .loop (.validationTask i), [])
    else some (sched, lock, .neLoad, [])
  | .neLoad =>
    if sched.chunkSize ≤ sched.executionIndex then some (sched, lock, .loop .askForTask, [])
    else some (sched, lock, .neFetch, [])
  | .neFetch =>
    let (sched', i) := sched.fetchAddExecutionIndex
    some (sched', lock, .neIncarnate i, [])
  | .neIncarnate i =>
    let (sched', ok) := sched.tryIncarnate i
    some (sched', lock, .loop (if ok then .executionTask i else .askForTask), [])
  | .finished => some (sched, lock, .finished, [])

/-- One atomic step of the whole system: worker `w` moves, with outcome `b`. -/
def Sys.step (s : Sys) (a : Nat × Bool) : Option (Sys × List Obs) :=
  (workerStep s.sched s.commitLock a.1 a.2 (s.workers a.1)).map fun r =>
    ({ sched := r.1, commitLock := r.2.1, workers := Function.update s.workers a.1 r.2.2.1 },
      r.2.2.2)

/-- A run of the system along a schedule of (worker, outcome) pairs. -/
def Sys.run (s : Sys) (sched : List (Nat × Bool)) : Option (Sys × List Obs) :=
  Sequencer.run Sys.step s sched

/-- The task a worker carries through the commit phase into its `match`. -/
@[simp] def Pc.task? : Pc → Option Task
  | .loop t => some t
  | .committing t => some t
  | .commitTx t _ => some t
  | .commitBouncer t _ => some t
  | .dispatch t => some t
  | _ => none

/-- The worker holds the commit-index lock at these positions. -/
@[simp] def Pc.inCommit : Pc → Bool
  | .committing _ => true
  | .commitTx _ _ => true
  | .commitBouncer _ _ => true
  | _ => false

/-- The index whose `commit_tx` the worker is inside. -/
@[simp] def Pc.commitTxIndex? : Pc → Option Nat
  | .commitTx _ i => some i
  | .commitBouncer _ i => some i
  | _ => none

/-- The indices `try_commit` returned along a run, in order. -/
def committedIndices (os : List Obs) : List Nat :=
  os.filterMap fun | .committed i => some i | .halted => none

@[simp] theorem committedIndices_nil : committedIndices [] = [] := rfl

@[simp] theorem committedIndices_append (os os' : List Obs) :
    committedIndices (os ++ os') = committedIndices os ++ committedIndices os' :=
  List.filterMap_append

@[simp] theorem committedIndices_committed (i : Nat) : committedIndices [.committed i] = [i] := rfl

@[simp] theorem committedIndices_halted : committedIndices [.halted] = [] := rfl

/-! ## What one step does to the scheduler -/

/-- A step that emits nothing, keeps the commit index and the done marker, and enters no
`commit_tx`. -/
def QuietStep (sched sched' : Scheduler) (p p' : Pc) (o : List Obs) : Prop :=
  o = [] ∧ sched'.commitIndex = sched.commitIndex ∧ sched'.doneMarker = sched.doneMarker ∧
    (p'.commitTxIndex? = none ∨ p'.commitTxIndex? = p.commitTxIndex?)

/-- What a quiet step does to the statuses: nothing, or one of the four methods that write one,
run from the position that calls it. -/
def StatusChange (sched sched' : Scheduler) (p : Pc) : Prop :=
  sched'.txStatuses = sched.txStatuses ∨
    (∃ i, p = .dispatch (.executionTask i) ∧ sched.setExecutedStatus i = some sched') ∨
    (∃ i, p = .dispatch (.validationTask i) ∧ sched.tryValidationAbort i = some (sched', true)) ∨
    (∃ i, p = .abortReady i ∧ sched.setReadyStatus i = some sched') ∨
    (∃ i, (p = .abortIncarnate i ∨ p = .neIncarnate i) ∧ sched.tryIncarnate i = (sched', true))

/-- The quiet steps that touch at most an index: every position but the six below. -/
theorem QuietStep.of_index {sched sched' : Scheduler} {p p' : Pc}
    (hci : sched'.commitIndex = sched.commitIndex) (hdm : sched'.doneMarker = sched.doneMarker)
    (hp' : p'.commitTxIndex? = none ∨ p'.commitTxIndex? = p.commitTxIndex?) :
    QuietStep sched sched' p p' [] :=
  ⟨rfl, hci, hdm, hp'⟩

/-- **The inversion lemma of `workerStep`.**  A step is `try_commit` returning an index,
`halt_scheduler`, or a quiet step; a quiet step leaves every status alone or runs one of the four
status-changing methods.  Later proofs about the scheduler's side of a step start here and never
unfold `workerStep`. -/
theorem workerStep_cases {sched sched' : Scheduler} {lock lock' : Option Nat} {w : Nat} {b : Bool}
    {p p' : Pc} {o : List Obs} (hw : workerStep sched lock w b p = some (sched', lock', p', o)) :
    (∃ t i, p = .committing t ∧ sched.tryCommit = some (sched', some i) ∧ p' = .commitTx t i ∧
        o = [.committed i]) ∨
    (∃ t i, p = .commitBouncer t i ∧ sched.haltScheduler = some sched' ∧ p' = .committing t ∧
        o = [.halted]) ∨
    QuietStep sched sched' p p' o ∧ StatusChange sched sched' p := by
  -- the steps that change nothing the commit phase or a status reads
  have idle : ∀ {s₁ : Scheduler} {q : Pc}, s₁.txStatuses = sched.txStatuses →
      s₁.commitIndex = sched.commitIndex → s₁.doneMarker = sched.doneMarker →
      (q.commitTxIndex? = none ∨ q.commitTxIndex? = p.commitTxIndex?) →
      QuietStep sched s₁ p q [] ∧ StatusChange sched s₁ p :=
    fun hts hci hdm hq => ⟨QuietStep.of_index hci hdm hq, .inl hts⟩
  cases p with
  | loop t =>
    cases lock <;>
    · simp only [workerStep, Option.some.injEq, Prod.mk.injEq] at hw
      obtain ⟨rfl, -, rfl, rfl⟩ := hw
      exact .inr (.inr (idle rfl rfl rfl (.inl rfl)))
  | committing t =>
    cases hc : sched.tryCommit with
    | none => simp [workerStep, hc] at hw
    | some r =>
      obtain ⟨sched₁, r⟩ := r
      cases r with
      | none =>
        simp only [workerStep, hc, Option.bind_eq_bind, Option.bind_some, Option.pure_def,
          Option.some.injEq, Prod.mk.injEq] at hw
        obtain ⟨rfl, -, rfl, rfl⟩ := hw
        rw [tryCommit_eq_some_none hc]
        exact .inr (.inr (idle rfl rfl rfl (.inl rfl)))
      | some i =>
        simp only [workerStep, hc, Option.bind_eq_bind, Option.bind_some, Option.pure_def,
          Option.some.injEq, Prod.mk.injEq] at hw
        obtain ⟨rfl, -, rfl, rfl⟩ := hw
        exact .inl ⟨t, i, rfl, rfl, rfl, rfl⟩
  | commitTx t i =>
    -- the validation index may drop; the worker stays inside `commit_tx(i)`
    cases b <;>
    · simp only [workerStep, Bool.false_eq_true, if_false, if_true, Option.some.injEq,
        Prod.mk.injEq] at hw
      obtain ⟨rfl, -, rfl, rfl⟩ := hw
      exact .inr (.inr (idle rfl rfl rfl (.inr rfl)))
  | commitBouncer t i =>
    cases b
    · cases hh : sched.haltScheduler with
      | none => simp [workerStep, hh] at hw
      | some sched₁ =>
        simp only [workerStep, hh, Bool.false_eq_true, if_false, Option.bind_eq_bind,
          Option.bind_some, Option.pure_def, Option.some.injEq, Prod.mk.injEq] at hw
        obtain ⟨rfl, -, rfl, rfl⟩ := hw
        exact .inr (.inl ⟨t, i, rfl, rfl, rfl, rfl⟩)
    · simp only [workerStep, if_true, Option.some.injEq, Prod.mk.injEq] at hw
      obtain ⟨rfl, -, rfl, rfl⟩ := hw
      exact .inr (.inr (idle rfl rfl rfl (.inl rfl)))
  | dispatch t =>
    cases t with
    | executionTask i =>
      cases he : sched.setExecutedStatus i with
      | none => simp [workerStep, he] at hw
      | some sched₁ =>
        simp only [workerStep, he, Option.bind_eq_bind, Option.bind_some, Option.pure_def,
          Option.some.injEq, Prod.mk.injEq] at hw
        obtain ⟨rfl, -, rfl, rfl⟩ := hw
        obtain ⟨-, -, rfl⟩ := setExecutedStatus_eq_some he
        exact .inr (.inr ⟨QuietStep.of_index rfl rfl (.inl rfl), .inr (.inl ⟨i, rfl, he⟩)⟩)
    | validationTask i =>
      cases b
      · cases ha : sched.tryValidationAbort i with
        | none => simp [workerStep, ha] at hw
        | some r =>
          obtain ⟨sched₁, aborted⟩ := r
          simp only [workerStep, ha, Bool.false_eq_true, if_false, Option.bind_eq_bind,
            Option.bind_some, Option.pure_def, Option.some.injEq, Prod.mk.injEq] at hw
          obtain ⟨rfl, -, rfl, rfl⟩ := hw
          obtain ⟨-, ⟨rfl, -, rfl⟩ | ⟨rfl, -, rfl⟩⟩ := tryValidationAbort_eq_some ha
          · exact .inr (.inr ⟨QuietStep.of_index rfl rfl (.inl rfl),
              .inr (.inr (.inl ⟨i, rfl, ha⟩))⟩)
          · exact .inr (.inr (idle rfl rfl rfl (.inl rfl)))
      · simp only [workerStep, if_true, Option.some.injEq, Prod.mk.injEq] at hw
        obtain ⟨rfl, -, rfl, rfl⟩ := hw
        exact .inr (.inr (idle rfl rfl rfl (.inl rfl)))
    | askForTask =>
      simp only [workerStep] at hw
      split_ifs at hw <;>
      · simp only [Option.some.injEq, Prod.mk.injEq] at hw
        obtain ⟨rfl, -, rfl, rfl⟩ := hw
        exact .inr (.inr (idle rfl rfl rfl (.inl rfl)))
    | noTaskAvailable | done =>
      simp only [workerStep, Option.some.injEq, Prod.mk.injEq] at hw
      obtain ⟨rfl, -, rfl, rfl⟩ := hw
      exact .inr (.inr (idle rfl rfl rfl (.inl rfl)))
  | abortReady i =>
    cases hr : sched.setReadyStatus i with
    | none => simp [workerStep, hr] at hw
    | some sched₁ =>
      simp only [workerStep, hr, Option.bind_eq_bind, Option.bind_some, Option.pure_def,
        Option.some.injEq, Prod.mk.injEq] at hw
      obtain ⟨rfl, -, rfl, rfl⟩ := hw
      obtain ⟨-, -, rfl⟩ := setReadyStatus_eq_some hr
      exact .inr (.inr ⟨QuietStep.of_index rfl rfl (.inl rfl),
        .inr (.inr (.inr (.inl ⟨i, rfl, hr⟩)))⟩)
  | abortIncarnate i | neIncarnate i =>
    simp only [workerStep, Option.some.injEq, Prod.mk.injEq] at hw
    obtain ⟨rfl, -, rfl, rfl⟩ := hw
    rcases tryIncarnate_cases sched i with ⟨hok, -, -, hs⟩ | ⟨-, hs⟩
    · refine .inr (.inr ⟨QuietStep.of_index (by rw [hs]; rfl) (by rw [hs]; rfl) (.inl rfl),
        .inr (.inr (.inr (.inr ⟨i, by simp, ?_⟩)))⟩)
      rw [← hok]
    · rw [hs]
      exact .inr (.inr (idle rfl rfl rfl (.inl rfl)))
  | abortLoadExec _ | ntLoadExec _ | nvLoad | nvFetch | nvLock _ | neLoad =>
    simp only [workerStep] at hw
    split_ifs at hw <;>
    · simp only [Option.some.injEq, Prod.mk.injEq] at hw
      obtain ⟨rfl, -, rfl, rfl⟩ := hw
      exact .inr (.inr (idle rfl rfl rfl (.inl rfl)))
  | finishExecution _ | ntLoadVal | neFetch | finished =>
    simp only [workerStep, Option.some.injEq, Prod.mk.injEq] at hw
    obtain ⟨rfl, -, rfl, rfl⟩ := hw
    exact .inr (.inr (idle rfl rfl rfl (.inl rfl)))

end Sequencer.Concurrency
