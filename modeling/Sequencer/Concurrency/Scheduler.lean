/-
# The chunk scheduler of concurrent execution (`concurrency/scheduler.rs`)

`Scheduler` hands out execution and validation tasks for the transactions of one chunk and
commits them in index order.  Its shared state is two atomic indices (`execution_index`,
`validation_index`), the commit index behind a mutex, one mutex-protected status per
transaction, and the atomic `done_marker`.

Each method below is ONE critical section of the source: it reads and writes only what one lock
protects (a status, or the commit index, whose lock the caller holds), or it is one atomic access
to an index.  `next_task`, which is a sequence of such accesses, is not here: the worker model
(`Concurrency/Worker.lean`) takes it apart into its atomic steps.

A failing `assert!` is `none`.  `lock_mutex_in_array` indexes a slice of `chunk_size` mutexes, so
a status access at an index `≥ chunk_size` is also `none`.  Poisoned mutexes are not modelled:
they arise only after a panic, and the point of the model is that there is none.
-/
import Mathlib.Logic.Function.Basic
import Mathlib.Tactic.SplitIfs

namespace Sequencer.Concurrency

/-- `TransactionStatus`. -/
inductive TransactionStatus
  | readyToExecute
  | executing
  | executed
  | aborting
  | committed
  deriving DecidableEq, Repr

/-- `Task`, what `next_task` and `finish_abort` hand to a worker. -/
inductive Task
  | executionTask (txIndex : Nat)
  | validationTask (txIndex : Nat)
  | askForTask
  | noTaskAvailable
  | done
  deriving DecidableEq, Repr

/-- `Scheduler`.  The statuses are a function on indices; only those below `chunkSize` exist. -/
structure Scheduler where
  executionIndex : Nat
  validationIndex : Nat
  commitIndex : Nat
  chunkSize : Nat
  txStatuses : Nat → TransactionStatus
  doneMarker : Bool

namespace Scheduler

/-- `Scheduler::new`. -/
def new (chunkSize : Nat) : Scheduler where
  executionIndex := 0
  validationIndex := chunkSize
  commitIndex := 0
  chunkSize := chunkSize
  txStatuses := fun _ => .readyToExecute
  doneMarker := false

/-- Writes one status, under its lock. -/
def setStatus (s : Scheduler) (txIndex : Nat) (status : TransactionStatus) : Scheduler :=
  { s with txStatuses := Function.update s.txStatuses txIndex status }

@[simp] theorem setStatus_txStatuses_self (s : Scheduler) (i : Nat) (st : TransactionStatus) :
    (s.setStatus i st).txStatuses i = st := by
  simp [setStatus]

theorem setStatus_txStatuses_of_ne (s : Scheduler) {i j : Nat} (st : TransactionStatus)
    (h : j ≠ i) : (s.setStatus i st).txStatuses j = s.txStatuses j := by
  simp [setStatus, Function.update_of_ne h]

@[simp] theorem setStatus_executionIndex (s : Scheduler) (i : Nat) (st : TransactionStatus) :
    (s.setStatus i st).executionIndex = s.executionIndex := rfl

@[simp] theorem setStatus_validationIndex (s : Scheduler) (i : Nat) (st : TransactionStatus) :
    (s.setStatus i st).validationIndex = s.validationIndex := rfl

@[simp] theorem setStatus_commitIndex (s : Scheduler) (i : Nat) (st : TransactionStatus) :
    (s.setStatus i st).commitIndex = s.commitIndex := rfl

@[simp] theorem setStatus_chunkSize (s : Scheduler) (i : Nat) (st : TransactionStatus) :
    (s.setStatus i st).chunkSize = s.chunkSize := rfl

@[simp] theorem setStatus_doneMarker (s : Scheduler) (i : Nat) (st : TransactionStatus) :
    (s.setStatus i st).doneMarker = s.doneMarker := rfl

/-- `done`: loads the done marker. -/
def done (s : Scheduler) : Bool := s.doneMarker

/-- `halt`: stores the done marker. -/
def halt (s : Scheduler) : Scheduler := { s with doneMarker := true }

/-- `try_validation_abort`: an executed transaction becomes aborting, and the caller is told. -/
def tryValidationAbort (s : Scheduler) (txIndex : Nat) : Option (Scheduler × Bool) :=
  if txIndex < s.chunkSize then
    if s.txStatuses txIndex = .executed then some (s.setStatus txIndex .aborting, true)
    else some (s, false)
  else none

/-- `set_executed_status`, which asserts that the transaction is executing. -/
def setExecutedStatus (s : Scheduler) (txIndex : Nat) : Option Scheduler :=
  if txIndex < s.chunkSize ∧ s.txStatuses txIndex = .executing then
    some (s.setStatus txIndex .executed)
  else none

/-- `set_ready_status`, which asserts that the transaction is aborting. -/
def setReadyStatus (s : Scheduler) (txIndex : Nat) : Option Scheduler :=
  if txIndex < s.chunkSize ∧ s.txStatuses txIndex = .aborting then
    some (s.setStatus txIndex .readyToExecute)
  else none

/-- `decrease_validation_index`: one `fetch_min`. -/
def decreaseValidationIndex (s : Scheduler) (targetIndex : Nat) : Scheduler :=
  { s with validationIndex := min s.validationIndex targetIndex }

/-- `try_incarnate`: the only way into `Executing`. -/
def tryIncarnate (s : Scheduler) (txIndex : Nat) : Scheduler × Bool :=
  if txIndex < s.chunkSize ∧ s.txStatuses txIndex = .readyToExecute then
    (s.setStatus txIndex .executing, true)
  else (s, false)

/-- The `fetch_add` of `next_version_to_validate`: returns the old validation index. -/
def fetchAddValidationIndex (s : Scheduler) : Scheduler × Nat :=
  ({ s with validationIndex := s.validationIndex + 1 }, s.validationIndex)

/-- The `fetch_add` of `next_version_to_execute`: returns the old execution index. -/
def fetchAddExecutionIndex (s : Scheduler) : Scheduler × Nat :=
  ({ s with executionIndex := s.executionIndex + 1 }, s.executionIndex)

/-- `TransactionCommitter::try_commit`, run by the holder of the commit-index lock.  It asserts
that a scheduler that is not done has an uncommitted transaction left. -/
def tryCommit (s : Scheduler) : Option (Scheduler × Option Nat) :=
  if s.done then some (s, none)
  else if s.commitIndex < s.chunkSize then
    if s.txStatuses s.commitIndex = .executed then
      let s₁ := { s.setStatus s.commitIndex .committed with commitIndex := s.commitIndex + 1 }
      let s₂ := if s₁.commitIndex = s.chunkSize then s₁.halt else s₁
      some (s₂, some (s₁.commitIndex - 1))
    else some (s, none)
  else none

/-- `TransactionCommitter::halt_scheduler`: un-commits the last committed index, asserting that
there is one, and halts. -/
def haltScheduler (s : Scheduler) : Option Scheduler :=
  if 0 < s.commitIndex then some { s with commitIndex := s.commitIndex - 1 }.halt
  else none

/-- `get_n_committed_txs`. -/
def getNCommittedTxs (s : Scheduler) : Nat := s.commitIndex

/-! ## What each critical section does

One lemma per method, read off its body: the guard it checks and the fields it writes.  Later
proofs cite these and never unfold the methods. -/

theorem tryCommit_eq_none_iff (s : Scheduler) :
    s.tryCommit = none ↔ s.doneMarker = false ∧ s.chunkSize ≤ s.commitIndex := by
  unfold tryCommit done
  split_ifs <;> simp_all

/-- `try_commit` that returns no index changes nothing. -/
theorem tryCommit_eq_some_none {s s' : Scheduler} (h : s.tryCommit = some (s', none)) :
    s' = s := by
  unfold tryCommit at h
  split_ifs at h <;> simp_all

/-- `try_commit` that returns an index commits exactly the transaction at the commit index,
which was executed, and marks the scheduler done when the chunk is exhausted. -/
theorem tryCommit_eq_some_some {s s' : Scheduler} {i : Nat}
    (h : s.tryCommit = some (s', some i)) :
    s.doneMarker = false ∧ i = s.commitIndex ∧ i < s.chunkSize ∧
      s.txStatuses i = .executed ∧
      s' = { s.setStatus i .committed with
              commitIndex := i + 1, doneMarker := decide (i + 1 = s.chunkSize) } := by
  unfold tryCommit done at h
  by_cases h₁ : s.doneMarker = true
  · simp [h₁] at h
  by_cases h₂ : s.commitIndex < s.chunkSize
  · by_cases h₃ : s.txStatuses s.commitIndex = .executed
    · simp only [h₁, h₂, h₃, if_false, if_true, Option.some.injEq, Prod.mk.injEq,
        Bool.false_eq_true] at h
      obtain ⟨rfl, hi⟩ := h
      simp only [Nat.add_sub_cancel] at hi
      subst hi
      refine ⟨by simpa using h₁, rfl, h₂, h₃, ?_⟩
      -- the done marker is stored exactly when the commit index reaches the chunk size
      by_cases h₄ : s.commitIndex + 1 = s.chunkSize
      · simp [h₄, halt]
      · simp [h₄, h₁]
    · simp [h₁, h₂, h₃] at h
  · simp [h₁, h₂] at h

theorem haltScheduler_eq_some {s s' : Scheduler} (h : s.haltScheduler = some s') :
    0 < s.commitIndex ∧ s' = { s with commitIndex := s.commitIndex - 1, doneMarker := true } := by
  unfold haltScheduler at h
  split_ifs at h with h₁
  · cases h
    exact ⟨h₁, rfl⟩

theorem haltScheduler_isSome {s : Scheduler} (h : 0 < s.commitIndex) :
    s.haltScheduler.isSome := by
  simp [haltScheduler, h]

theorem setExecutedStatus_eq_some {s s' : Scheduler} {i : Nat}
    (h : s.setExecutedStatus i = some s') :
    i < s.chunkSize ∧ s.txStatuses i = .executing ∧ s' = s.setStatus i .executed := by
  unfold setExecutedStatus at h
  split_ifs at h with h₁
  · cases h
    exact ⟨h₁.1, h₁.2, rfl⟩

theorem setExecutedStatus_isSome {s : Scheduler} {i : Nat} (h₁ : i < s.chunkSize)
    (h₂ : s.txStatuses i = .executing) : (s.setExecutedStatus i).isSome := by
  simp [setExecutedStatus, h₁, h₂]

theorem setReadyStatus_eq_some {s s' : Scheduler} {i : Nat}
    (h : s.setReadyStatus i = some s') :
    i < s.chunkSize ∧ s.txStatuses i = .aborting ∧ s' = s.setStatus i .readyToExecute := by
  unfold setReadyStatus at h
  split_ifs at h with h₁
  · cases h
    exact ⟨h₁.1, h₁.2, rfl⟩

theorem setReadyStatus_isSome {s : Scheduler} {i : Nat} (h₁ : i < s.chunkSize)
    (h₂ : s.txStatuses i = .aborting) : (s.setReadyStatus i).isSome := by
  simp [setReadyStatus, h₁, h₂]

theorem tryValidationAbort_eq_some {s s' : Scheduler} {i : Nat} {aborted : Bool}
    (h : s.tryValidationAbort i = some (s', aborted)) :
    i < s.chunkSize ∧
      (aborted = true ∧ s.txStatuses i = .executed ∧ s' = s.setStatus i .aborting ∨
        aborted = false ∧ s.txStatuses i ≠ .executed ∧ s' = s) := by
  unfold tryValidationAbort at h
  split_ifs at h with h₁ h₂
  · cases h
    exact ⟨h₁, Or.inl ⟨rfl, h₂, rfl⟩⟩
  · cases h
    exact ⟨h₁, Or.inr ⟨rfl, h₂, rfl⟩⟩

theorem tryValidationAbort_isSome {s : Scheduler} {i : Nat} (h : i < s.chunkSize) :
    (s.tryValidationAbort i).isSome := by
  unfold tryValidationAbort
  split_ifs <;> rfl

theorem tryIncarnate_cases (s : Scheduler) (i : Nat) :
    (s.tryIncarnate i).2 = true ∧ i < s.chunkSize ∧ s.txStatuses i = .readyToExecute ∧
        (s.tryIncarnate i).1 = s.setStatus i .executing ∨
      (s.tryIncarnate i).2 = false ∧ (s.tryIncarnate i).1 = s := by
  unfold tryIncarnate
  split_ifs with h
  · exact Or.inl ⟨rfl, h.1, h.2, rfl⟩
  · exact Or.inr ⟨rfl, rfl⟩

end Scheduler

end Sequencer.Concurrency
