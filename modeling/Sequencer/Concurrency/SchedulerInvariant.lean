/-
# The scheduler's invariants hold in every interleaving

Over `Sys.step`, where any number of workers take their atomic steps in any order and every
versioned-state or bouncer outcome is free, this file proves:

* **status lifecycle** (`workerStep_statusMove`): a step moves each status along
  `ReadyToExecute → Executing → Executed → (Aborting → ReadyToExecute | Committed)` or leaves it;
  `Committed` has no way out.  This needs no invariant at all: every write of a status is guarded
  by a check of the status it replaces.
* **one owner per transaction** (`Inv`): a status is `Executing` exactly when one worker holds
  the execution task of that index, and `Aborting` exactly when one worker is inside
  `finish_abort` for it.  So `set_executed_status` and `set_ready_status` never fail their
  `assert_eq!`, and no two execution tasks for an index are ever out at once.
* **commit order** (`RunInv`): the indices `try_commit` returns are `0, 1, 2, ...`; everything
  below the commit index is committed and, until the scheduler is done, nothing at or above it;
  `done_marker` is set exactly by the commit of the last index or by `halt_scheduler`, whose
  assertion never fails.

The ownership half is phrased through the views of `Lib/Ownership.lean`: what a worker's position
says it owns.  The argument for each step is then which view it changes, and how.
-/
import Sequencer.Lib.Ownership
import Sequencer.Concurrency.Worker

namespace Sequencer.Concurrency

open Scheduler

/-! ## 1. What a worker owns -/

/-- The index of an execution task. -/
@[simp] def Task.executionIndex? : Task → Option Nat
  | .executionTask i => some i
  | _ => none

/-- The index of a validation task. -/
@[simp] def Task.validationIndex? : Task → Option Nat
  | .validationTask i => some i
  | _ => none

/-- The execution task a worker has been handed and not yet reported executed. -/
@[simp] def Pc.execView (p : Pc) : Option Nat := p.task?.bind Task.executionIndex?

/-- The index a worker is about to validate: a validation task in hand, or the index
`next_version_to_validate` fetched and is about to check. -/
@[simp] def Pc.valView : Pc → Option Nat
  | .nvLock i => some i
  | p => p.task?.bind Task.validationIndex?

/-- The index a worker aborted and has not yet made ready again. -/
@[simp] def Pc.abortView : Pc → Option Nat
  | .abortReady i => some i
  | _ => none

theorem Pc.inCommit_of_commitTxIndex {p : Pc} {i : Nat} (h : p.commitTxIndex? = some i) :
    p.inCommit = true := by
  cases p <;> simp_all [Pc.commitTxIndex?, Pc.inCommit]

/-- A step of the system is a step of one worker. -/
theorem Sys.step_eq_some {s s' : Sys} {w : Nat} {b : Bool} {o : List Obs} :
    s.step (w, b) = some (s', o) ↔
      ∃ sched' lock' p', workerStep s.sched s.commitLock w b (s.workers w) =
          some (sched', lock', p', o) ∧
        s' = ⟨sched', lock', Function.update s.workers w p'⟩ := by
  unfold Sys.step
  constructor
  · intro h
    obtain ⟨r, hr, hrs⟩ := Option.map_eq_some_iff.mp h
    obtain ⟨sched', lock', p', o'⟩ := r
    simp only [Prod.mk.injEq] at hrs
    obtain ⟨rfl, rfl⟩ := hrs
    exact ⟨sched', lock', p', hr, rfl⟩
  · rintro ⟨sched', lock', p', hr, rfl⟩
    simp [hr]

/-! ## 2. The invariant -/

/-- The scheduler invariant for a chunk of `n` transactions. -/
structure Inv (n : Nat) (s : Sys) : Prop where
  chunkSize_eq : s.sched.chunkSize = n
  /-- The commit-index mutex is held exactly by the worker in its commit phase. -/
  lock_iff : ∀ w, s.commitLock = some w ↔ (s.workers w).inCommit = true
  /-- `Executing` is exactly an execution task out. -/
  executing_iff : ∀ i, s.sched.txStatuses i = .executing ↔ Held Pc.execView s.workers i
  execution_exclusive : Exclusive Pc.execView s.workers
  /-- `Aborting` is exactly a worker inside `finish_abort`. -/
  aborting_iff : ∀ i, s.sched.txStatuses i = .aborting ↔ Held Pc.abortView s.workers i
  aborting_exclusive : Exclusive Pc.abortView s.workers
  /-- Validation only ever looks at indices of the chunk. -/
  validation_lt : ∀ i, Held Pc.valView s.workers i → i < n
  /-- Indices past the chunk have no mutex, and no status is ever written there. -/
  beyond : ∀ i, n ≤ i → s.sched.txStatuses i = .readyToExecute
  commitIndex_le : s.sched.commitIndex ≤ n
  below_committed : ∀ j < s.sched.commitIndex, s.sched.txStatuses j = .committed
  above_not_committed :
    s.sched.doneMarker = false → ∀ j, s.sched.commitIndex ≤ j → s.sched.txStatuses j ≠ .committed
  done_of_end : s.sched.commitIndex = n → s.sched.doneMarker = true
  /-- Inside `commit_tx(i)` the commit index is just past `i`. -/
  commitTx_index : ∀ i, Held Pc.commitTxIndex? s.workers i → s.sched.commitIndex = i + 1

/-- No worker owns anything at the start of `run`. -/
theorem Inv.init {n : Nat} (hn : 0 < n) : Inv n (Sys.init n) where
  chunkSize_eq := rfl
  lock_iff := fun w => by simp [Sys.init, Pc.inCommit]
  executing_iff := fun i =>
    iff_of_false (by simp [Sys.init, Scheduler.new]) (not_held_of_forall_none (fun _ => rfl) i)
  execution_exclusive := exclusive_of_forall_none fun _ => rfl
  aborting_iff := fun i =>
    iff_of_false (by simp [Sys.init, Scheduler.new]) (not_held_of_forall_none (fun _ => rfl) i)
  aborting_exclusive := exclusive_of_forall_none fun _ => rfl
  validation_lt := fun i hi =>
    absurd hi (not_held_of_forall_none (v := Pc.valView) (fun _ => rfl) i)
  beyond := fun _ _ => rfl
  commitIndex_le := Nat.zero_le n
  below_committed := fun j hj => absurd hj (Nat.not_lt_zero j)
  above_not_committed := fun _ _ _ => by simp [Sys.init, Scheduler.new]
  done_of_end := fun h => absurd h (by simp [Sys.init, Scheduler.new]; omega)
  commitTx_index := fun i hi =>
    absurd hi (not_held_of_forall_none (v := Pc.commitTxIndex?) (fun _ => rfl) i)

variable {n : Nat} {s : Sys} {w : Nat}

theorem Inv.lt_of_executing (h : Inv n s) {i : Nat} (hi : s.sched.txStatuses i = .executing) :
    i < n := by
  by_contra hn
  rw [h.beyond i (Nat.le_of_not_lt hn)] at hi
  cases hi

theorem Inv.lt_of_aborting (h : Inv n s) {i : Nat} (hi : s.sched.txStatuses i = .aborting) :
    i < n := by
  by_contra hn
  rw [h.beyond i (Nat.le_of_not_lt hn)] at hi
  cases hi

/-- Only the lock holder can be inside `commit_tx`. -/
theorem Inv.commitTx_holder (h : Inv n s) {u i : Nat}
    (hu : (s.workers u).commitTxIndex? = some i) : s.commitLock = some u :=
  (h.lock_iff u).mpr (Pc.inCommit_of_commitTxIndex hu)

/-! ## 3. Steps that change no status -/

/-- **The frame step.**  The statuses, the commit index and the done marker stay, the new lock
holder is the worker in its commit phase, and the moving worker keeps its execution task and its
abort, may stop validating or start validating an index of the chunk, and may leave
`commit_tx`. -/
theorem Inv.frame (h : Inv n s) {sched' : Scheduler} {lock' : Option Nat} {p' : Pc}
    (hst : sched'.txStatuses = s.sched.txStatuses)
    (hci : sched'.commitIndex = s.sched.commitIndex)
    (hcs : sched'.chunkSize = s.sched.chunkSize)
    (hdm : sched'.doneMarker = s.sched.doneMarker)
    (hlock : ∀ u, lock' = some u ↔ (Function.update s.workers w p' u).inCommit = true)
    (hex : p'.execView = (s.workers w).execView)
    (hab : p'.abortView = (s.workers w).abortView)
    (hval : ∀ i, p'.valView = some i → i < n ∨ (s.workers w).valView = some i)
    (hct : p'.commitTxIndex? = none ∨ p'.commitTxIndex? = (s.workers w).commitTxIndex?) :
    Inv n ⟨sched', lock', Function.update s.workers w p'⟩ where
  chunkSize_eq := hcs.trans h.chunkSize_eq
  lock_iff := hlock
  executing_iff := fun i => by
    rw [hst, held_update_of_eq hex i]
    exact h.executing_iff i
  execution_exclusive := exclusive_update_of_eq hex h.execution_exclusive
  aborting_iff := fun i => by
    rw [hst, held_update_of_eq hab i]
    exact h.aborting_iff i
  aborting_exclusive := exclusive_update_of_eq hab h.aborting_exclusive
  validation_lt := fun i hi => by
    rcases Held.update_cases hi with hp | hold
    · rcases hval i hp with hlt | hw
      · exact hlt
      · exact h.validation_lt i ⟨w, hw⟩
    · exact h.validation_lt i hold
  beyond := fun i hi => by
    rw [hst]
    exact h.beyond i hi
  commitIndex_le := hci ▸ h.commitIndex_le
  below_committed := fun j hj => by
    rw [hst]
    exact h.below_committed j (hci ▸ hj)
  above_not_committed := fun hd j hj => by
    rw [hst]
    exact h.above_not_committed (hdm ▸ hd) j (hci ▸ hj)
  done_of_end := fun he => hdm ▸ h.done_of_end (hci ▸ he)
  commitTx_index := fun i hi => hci ▸ h.commitTx_index i (Held.of_update hct hi)

/-- The lock holder stays the worker in its commit phase when the moving worker neither enters
nor leaves it. -/
theorem Inv.lock_iff_update (h : Inv n s) {p' : Pc} (hic : p'.inCommit = (s.workers w).inCommit)
    (u : Nat) : s.commitLock = some u ↔ (Function.update s.workers w p' u).inCommit = true := by
  rw [view_update_of_eq (f := Pc.inCommit) hic u]
  exact h.lock_iff u

/-- `try_lock` on a free commit-index mutex: the worker enters its commit phase. -/
theorem Inv.takeLock (h : Inv n s) {t : Task} (hw : s.workers w = .loop t)
    (hl : s.commitLock = none) :
    Inv n ⟨s.sched, some w, Function.update s.workers w (.committing t)⟩ := by
  refine h.frame rfl rfl rfl rfl (fun u => ?_) (by simp [hw, Pc.execView, Pc.task?])
    (by simp [hw, Pc.abortView]) (fun i hi => Or.inr (by simpa [hw, Pc.valView, Pc.task?] using hi))
    (Or.inl rfl)
  by_cases hu : u = w
  · subst hu
    simp [Pc.inCommit]
  · rw [Function.update_of_ne hu, ← h.lock_iff u, hl]
    simp [Ne.symm hu]

/-- `try_commit` returned `None` and the guard is dropped: the lock is free again. -/
theorem Inv.releaseLock (h : Inv n s) {t : Task} (hw : s.workers w = .committing t) :
    Inv n ⟨s.sched, none, Function.update s.workers w (.dispatch t)⟩ := by
  have hl : s.commitLock = some w := (h.lock_iff w).mpr (by simp [hw, Pc.inCommit])
  refine h.frame rfl rfl rfl rfl (fun u => ?_) (by simp [hw, Pc.execView, Pc.task?])
    (by simp [hw, Pc.abortView]) (fun i hi => Or.inr (by simpa [hw, Pc.valView, Pc.task?] using hi))
    (Or.inl rfl)
  by_cases hu : u = w
  · subst hu
    simp [Pc.inCommit]
  · rw [Function.update_of_ne hu, ← h.lock_iff u, hl]
    simp [Ne.symm hu]

/-! ## 4. Steps that move a status -/

/-- **Commit.**  `try_commit` commits the executed transaction at the commit index, and the
lock holder enters `commit_tx` of it. -/
theorem Inv.commit (h : Inv n s) {t : Task} {sched' : Scheduler} {i : Nat}
    (hw : s.workers w = .committing t) (hc : s.sched.tryCommit = some (sched', some i)) :
    Inv n ⟨sched', s.commitLock, Function.update s.workers w (.commitTx t i)⟩ := by
  obtain ⟨hd, hi, hlt, hexd, rfl⟩ := tryCommit_eq_some_some hc
  have hn := h.chunkSize_eq
  have hl : s.commitLock = some w := (h.lock_iff w).mpr (by simp [hw, Pc.inCommit])
  have hexec : (Pc.commitTx t i).execView = (s.workers w).execView := by
    simp [hw, Pc.execView, Pc.task?]
  have habort : (Pc.commitTx t i).abortView = (s.workers w).abortView := by
    simp [hw, Pc.abortView]
  -- nobody else can be inside `commit_tx`: only the lock holder, and it was not
  have hct : ∀ k, Held Pc.commitTxIndex? (Function.update s.workers w (.commitTx t i)) k →
      k = i := by
    intro k hk
    rcases Held.update_cases hk with hp | ⟨u, hu⟩
    · simpa [Pc.commitTxIndex?, eq_comm] using hp
    · have := h.commitTx_holder hu
      rw [hl, Option.some.injEq] at this
      subst this
      simp [hw, Pc.commitTxIndex?] at hu
  refine
    { chunkSize_eq := hn
      lock_iff := h.lock_iff_update (by simp [hw, Pc.inCommit])
      executing_iff := ?_
      execution_exclusive := exclusive_update_of_eq hexec h.execution_exclusive
      aborting_iff := ?_
      aborting_exclusive := exclusive_update_of_eq habort h.aborting_exclusive
      validation_lt := fun j hj => h.validation_lt j
        ((held_update_of_eq (by simp [hw, Pc.valView, Pc.task?]) j).mp hj)
      beyond := ?_
      commitIndex_le := by dsimp only; omega
      below_committed := ?_
      above_not_committed := ?_
      done_of_end := fun he => by simpa [hn] using he
      commitTx_index := fun k hk => by rw [hct k hk] }
  · refine iff_update_of_iff h.executing_iff (fun j _ => held_update_of_eq hexec j) ?_
    rw [held_update_of_eq hexec, ← h.executing_iff, hexd]
    simp
  · refine iff_update_of_iff h.aborting_iff (fun j _ => held_update_of_eq habort j) ?_
    rw [held_update_of_eq habort, ← h.aborting_iff, hexd]
    simp
  · intro j hj
    have hji : j ≠ i := by omega
    simp only [setStatus, Function.update_of_ne hji]
    exact h.beyond j hj
  · intro j hj
    dsimp only at hj
    simp only [setStatus]
    by_cases hji : j = i
    · subst hji
      simp
    · rw [Function.update_of_ne hji]
      exact h.below_committed j (by omega)
  · intro _ j hj
    dsimp only at hj
    have hji : j ≠ i := by omega
    simp only [setStatus, Function.update_of_ne hji]
    exact h.above_not_committed hd j (by omega)

/-- When the lock holder leaves `commit_tx`, nobody is inside it: no one else can be. -/
theorem Inv.not_held_commitTx_of_leave (h : Inv n s) {p' : Pc} (hl : s.commitLock = some w)
    (hp : p'.commitTxIndex? = none) (k : Nat) :
    ¬ Held Pc.commitTxIndex? (Function.update s.workers w p') k := by
  rintro ⟨u, hu⟩
  by_cases huw : u = w
  · subst huw
    rw [Function.update_self, hp] at hu
    cases hu
  · rw [Function.update_of_ne huw] at hu
    have := h.commitTx_holder hu
    rw [hl, Option.some.injEq] at this
    exact huw this.symm

/-- `halt_scheduler` from inside `commit_tx(i)`: the commit index drops back to `i` and the
scheduler is done. -/
theorem Inv.halt (h : Inv n s) {t : Task} {i : Nat} {sched' : Scheduler}
    (hw : s.workers w = .commitBouncer t i) (hh : s.sched.haltScheduler = some sched') :
    Inv n ⟨sched', s.commitLock, Function.update s.workers w (.committing t)⟩ := by
  obtain ⟨_, rfl⟩ := haltScheduler_eq_some hh
  have hl : s.commitLock = some w := h.commitTx_holder (i := i) (by simp [hw, Pc.commitTxIndex?])
  have hexec : (Pc.committing t).execView = (s.workers w).execView := by
    simp [hw, Pc.execView, Pc.task?]
  have habort : (Pc.committing t).abortView = (s.workers w).abortView := by
    simp [hw, Pc.abortView]
  have hct : ∀ k, ¬ Held Pc.commitTxIndex? (Function.update s.workers w (.committing t)) k :=
    h.not_held_commitTx_of_leave hl rfl
  exact
    { chunkSize_eq := h.chunkSize_eq
      lock_iff := h.lock_iff_update (by simp [hw, Pc.inCommit])
      executing_iff := fun j => by
        rw [held_update_of_eq hexec]
        exact h.executing_iff j
      execution_exclusive := exclusive_update_of_eq hexec h.execution_exclusive
      aborting_iff := fun j => by
        rw [held_update_of_eq habort]
        exact h.aborting_iff j
      aborting_exclusive := exclusive_update_of_eq habort h.aborting_exclusive
      validation_lt := fun j hj => h.validation_lt j
        ((held_update_of_eq (by simp [hw, Pc.valView, Pc.task?]) j).mp hj)
      beyond := h.beyond
      commitIndex_le := by dsimp only; have := h.commitIndex_le; omega
      below_committed := fun j hj => h.below_committed j (by dsimp only at hj; omega)
      above_not_committed := fun hd => by simp at hd
      done_of_end := fun _ => rfl
      commitTx_index := fun k hk => absurd hk (hct k) }

/-- A status moving between two values other than `Committed`, at an index of the chunk,
keeps the three facts about committed indices. -/
theorem Inv.commit_facts_setStatus (h : Inv n s) {i : Nat} {a : TransactionStatus}
    (hi : s.sched.txStatuses i = a) (ha : a ≠ .committed) (hlt : i < n)
    {b : TransactionStatus} (hb : b ≠ .committed) :
    (∀ j, n ≤ j → (s.sched.setStatus i b).txStatuses j = .readyToExecute) ∧
      (∀ j < s.sched.commitIndex, (s.sched.setStatus i b).txStatuses j = .committed) ∧
      (s.sched.doneMarker = false → ∀ j, s.sched.commitIndex ≤ j →
        (s.sched.setStatus i b).txStatuses j ≠ .committed) := by
  refine ⟨fun j hj => ?_, fun j hj => ?_, fun hd j hj => ?_⟩
  · rw [setStatus_txStatuses_of_ne _ _ (by omega)]
    exact h.beyond j hj
  · have hji : j ≠ i := by
      rintro rfl
      exact ha (hi ▸ h.below_committed j hj)
    rw [setStatus_txStatuses_of_ne _ _ hji]
    exact h.below_committed j hj
  · by_cases hji : j = i
    · subst hji
      simpa using hb
    · rw [setStatus_txStatuses_of_ne _ _ hji]
      exact h.above_not_committed hd j hj

/-- A status moving between two values neither of which is `st` keeps the record of `st`
matched with a view the step does not change. -/
theorem status_iff_setStatus {sched : Scheduler} {ws ws' : Nat → Pc} {v : Pc → Option Nat}
    {st a b : TransactionStatus} {i : Nat} (hr : ∀ j, sched.txStatuses j = st ↔ Held v ws j)
    (hv : ∀ j, Held v ws' j ↔ Held v ws j) (hi : sched.txStatuses i = a) (ha : a ≠ st)
    (hb : b ≠ st) (j : Nat) : (sched.setStatus i b).txStatuses j = st ↔ Held v ws' j := by
  refine iff_update_of_iff hr (fun k _ => hv k) ?_ j
  rw [hv, ← hr, hi]
  exact iff_of_false hb ha

/-- `set_executed_status`: the execution task is given back and the status is `Executed`. -/
theorem Inv.setExecuted (h : Inv n s) {i : Nat} {sched' : Scheduler}
    (hw : s.workers w = .dispatch (.executionTask i))
    (hs : s.sched.setExecutedStatus i = some sched') :
    Inv n ⟨sched', s.commitLock, Function.update s.workers w (.finishExecution i)⟩ := by
  obtain ⟨hlt, hex, rfl⟩ := setExecutedStatus_eq_some hs
  have hn := h.chunkSize_eq
  have hrel := held_update_release (v := Pc.execView) (w := w) (p := .finishExecution i) (r := i)
    h.execution_exclusive (by simp [hw, Pc.execView, Pc.task?, Task.executionIndex?]) rfl
  have habort : (Pc.finishExecution i).abortView = (s.workers w).abortView := by
    simp [hw, Pc.abortView]
  obtain ⟨hbeyond, hbelow, habove⟩ :=
    h.commit_facts_setStatus hex (by decide) (hn ▸ hlt) (b := .executed) (by decide)
  exact
    { chunkSize_eq := hn
      lock_iff := h.lock_iff_update (by simp [hw, Pc.inCommit])
      executing_iff := by
        refine iff_update_of_iff h.executing_iff (fun k hk => by rw [hrel]; simp [hk]) ?_
        rw [hrel]
        simp
      execution_exclusive := exclusive_update_release rfl h.execution_exclusive
      aborting_iff := status_iff_setStatus h.aborting_iff (held_update_of_eq habort) hex
        (by decide) (by decide)
      aborting_exclusive := exclusive_update_of_eq habort h.aborting_exclusive
      validation_lt := fun j hj => h.validation_lt j
        ((held_update_of_eq (by simp [hw, Pc.valView, Pc.task?, Task.validationIndex?]) j).mp hj)
      beyond := hbeyond
      commitIndex_le := h.commitIndex_le
      below_committed := hbelow
      above_not_committed := habove
      done_of_end := h.done_of_end
      commitTx_index := fun k hk => h.commitTx_index k
        ((held_update_of_eq (by simp [hw, Pc.commitTxIndex?]) k).mp hk) }

/-- `try_validation_abort` succeeds: the executed transaction becomes aborting, and the worker
that aborted it enters `finish_abort`. -/
theorem Inv.abort (h : Inv n s) {i : Nat} {sched' : Scheduler}
    (hw : s.workers w = .dispatch (.validationTask i))
    (hs : s.sched.tryValidationAbort i = some (sched', true)) :
    Inv n ⟨sched', s.commitLock, Function.update s.workers w (.abortReady i)⟩ := by
  obtain ⟨hlt, hcases⟩ := tryValidationAbort_eq_some hs
  obtain ⟨-, hexd, rfl⟩ := hcases.resolve_right (by rintro ⟨h₁, -⟩; cases h₁)
  have hn := h.chunkSize_eq
  have hexec : (Pc.abortReady i).execView = (s.workers w).execView := by
    simp [hw, Pc.execView, Pc.task?, Task.executionIndex?]
  have hnone : (s.workers w).abortView = none := by simp [hw, Pc.abortView]
  have hacq := held_update_acquire (v := Pc.abortView) (p := .abortReady i) (r := i) hnone rfl
  have hfree : ¬ Held Pc.abortView s.workers i := by
    rw [← h.aborting_iff, hexd]
    decide
  obtain ⟨hbeyond, hbelow, habove⟩ :=
    h.commit_facts_setStatus hexd (by decide) (hn ▸ hlt) (b := .aborting) (by decide)
  exact
    { chunkSize_eq := hn
      lock_iff := h.lock_iff_update (by simp [hw, Pc.inCommit])
      executing_iff := status_iff_setStatus h.executing_iff (held_update_of_eq hexec) hexd
        (by decide) (by decide)
      execution_exclusive := exclusive_update_of_eq hexec h.execution_exclusive
      aborting_iff := by
        refine iff_update_of_iff h.aborting_iff (fun k hk => by rw [hacq]; simp [hk]) ?_
        rw [hacq]
        simp
      aborting_exclusive := exclusive_update_acquire rfl hfree h.aborting_exclusive
      validation_lt := fun j hj => h.validation_lt j
        (Held.of_update (Or.inl (by simp [Pc.valView, Pc.task?])) hj)
      beyond := hbeyond
      commitIndex_le := h.commitIndex_le
      below_committed := hbelow
      above_not_committed := habove
      done_of_end := h.done_of_end
      commitTx_index := fun k hk => h.commitTx_index k
        ((held_update_of_eq (by simp [hw, Pc.commitTxIndex?]) k).mp hk) }

/-- `set_ready_status` in `finish_abort`: the aborted transaction is ready again and the worker
gives up its abort. -/
theorem Inv.setReady (h : Inv n s) {i : Nat} {sched' : Scheduler}
    (hw : s.workers w = .abortReady i) (hs : s.sched.setReadyStatus i = some sched') :
    Inv n ⟨sched', s.commitLock, Function.update s.workers w (.abortLoadExec i)⟩ := by
  obtain ⟨hlt, hab, rfl⟩ := setReadyStatus_eq_some hs
  have hn := h.chunkSize_eq
  have hexec : (Pc.abortLoadExec i).execView = (s.workers w).execView := by
    simp [hw, Pc.execView, Pc.task?]
  have hrel := held_update_release (v := Pc.abortView) (w := w) (p := .abortLoadExec i) (r := i)
    h.aborting_exclusive (by simp [hw, Pc.abortView]) rfl
  obtain ⟨hbeyond, hbelow, habove⟩ :=
    h.commit_facts_setStatus hab (by decide) (hn ▸ hlt) (b := .readyToExecute) (by decide)
  exact
    { chunkSize_eq := hn
      lock_iff := h.lock_iff_update (by simp [hw, Pc.inCommit])
      executing_iff := status_iff_setStatus h.executing_iff (held_update_of_eq hexec) hab
        (by decide) (by decide)
      execution_exclusive := exclusive_update_of_eq hexec h.execution_exclusive
      aborting_iff := by
        refine iff_update_of_iff h.aborting_iff (fun k hk => by rw [hrel]; simp [hk]) ?_
        rw [hrel]
        simp
      aborting_exclusive := exclusive_update_release rfl h.aborting_exclusive
      validation_lt := fun j hj => h.validation_lt j
        ((held_update_of_eq (by simp [hw, Pc.valView, Pc.task?]) j).mp hj)
      beyond := hbeyond
      commitIndex_le := h.commitIndex_le
      below_committed := hbelow
      above_not_committed := habove
      done_of_end := h.done_of_end
      commitTx_index := fun k hk => h.commitTx_index k
        ((held_update_of_eq (by simp [hw, Pc.commitTxIndex?]) k).mp hk) }

/-- A position owning nothing at all. -/
def Pc.OwnsNothing (p : Pc) : Prop :=
  p.execView = none ∧ p.abortView = none ∧ p.valView = none ∧ p.commitTxIndex? = none ∧
    p.inCommit = false

/-- `try_incarnate` succeeds: the ready transaction is executing, and the worker that
incarnated it holds its execution task. -/
theorem Inv.incarnate (h : Inv n s) {i : Nat} (hw : (s.workers w).OwnsNothing)
    (hok : (s.sched.tryIncarnate i).2 = true) :
    Inv n ⟨(s.sched.tryIncarnate i).1, s.commitLock,
      Function.update s.workers w (.loop (.executionTask i))⟩ := by
  obtain ⟨hex, hab, hval, hct, hic⟩ := hw
  obtain ⟨-, hlt, hready, hsched⟩ := (tryIncarnate_cases s.sched i).resolve_right
    (by rintro ⟨hf, -⟩; rw [hok] at hf; cases hf)
  rw [hsched]
  have hn := h.chunkSize_eq
  have hacq := held_update_acquire (v := Pc.execView) (p := .loop (.executionTask i)) (r := i)
    hex rfl
  have hfree : ¬ Held Pc.execView s.workers i := by
    rw [← h.executing_iff, hready]
    decide
  obtain ⟨hbeyond, hbelow, habove⟩ :=
    h.commit_facts_setStatus hready (by decide) (hn ▸ hlt) (b := .executing) (by decide)
  exact
    { chunkSize_eq := hn
      lock_iff := h.lock_iff_update (by rw [hic]; rfl)
      executing_iff := by
        refine iff_update_of_iff h.executing_iff (fun k hk => by rw [hacq]; simp [hk]) ?_
        rw [hacq]
        simp
      execution_exclusive := exclusive_update_acquire rfl hfree h.execution_exclusive
      aborting_iff := status_iff_setStatus h.aborting_iff
        (held_update_of_eq (by rw [hab]; rfl)) hready (by decide) (by decide)
      aborting_exclusive := exclusive_update_of_eq (by rw [hab]; rfl) h.aborting_exclusive
      validation_lt := fun j hj => h.validation_lt j
        ((held_update_of_eq (by rw [hval]; rfl) j).mp hj)
      beyond := hbeyond
      commitIndex_le := h.commitIndex_le
      below_committed := hbelow
      above_not_committed := habove
      done_of_end := h.done_of_end
      commitTx_index := fun k hk => h.commitTx_index k
        ((held_update_of_eq (by rw [hct]; rfl) k).mp hk) }

/-! ## 5. Every step keeps the invariant -/

/-- Two positions owning the same things. -/
def Pc.SameOwnership (p' p : Pc) : Prop :=
  p'.execView = p.execView ∧ p'.abortView = p.abortView ∧ p'.valView = p.valView ∧
    p'.commitTxIndex? = p.commitTxIndex? ∧ p'.inCommit = p.inCommit

theorem Pc.sameOwnership_of_ownsNothing {p' p : Pc} (hp' : p'.OwnsNothing) (hp : p.OwnsNothing) :
    p'.SameOwnership p := by
  obtain ⟨h₁, h₂, h₃, h₄, h₅⟩ := hp'
  obtain ⟨h₁', h₂', h₃', h₄', h₅'⟩ := hp
  exact ⟨h₁.trans h₁'.symm, h₂.trans h₂'.symm, h₃.trans h₃'.symm, h₄.trans h₄'.symm,
    h₅.trans h₅'.symm⟩

/-- A step that only moves the atomic indices and the worker's position, owning the same. -/
theorem Inv.move (h : Inv n s) {sched' : Scheduler} {p' : Pc}
    (hst : sched'.txStatuses = s.sched.txStatuses)
    (hci : sched'.commitIndex = s.sched.commitIndex)
    (hcs : sched'.chunkSize = s.sched.chunkSize)
    (hdm : sched'.doneMarker = s.sched.doneMarker) (hp : p'.SameOwnership (s.workers w)) :
    Inv n ⟨sched', s.commitLock, Function.update s.workers w p'⟩ :=
  h.frame hst hci hcs hdm (h.lock_iff_update hp.2.2.2.2) hp.1 hp.2.1
    (fun _ hi => Or.inr (hp.2.2.1 ▸ hi)) (Or.inr hp.2.2.2.1)

/-- A worker that stops validating, owning nothing else before or after. -/
theorem Inv.dropValidation (h : Inv n s) {sched' : Scheduler} {p' : Pc}
    (hst : sched'.txStatuses = s.sched.txStatuses)
    (hci : sched'.commitIndex = s.sched.commitIndex)
    (hcs : sched'.chunkSize = s.sched.chunkSize)
    (hdm : sched'.doneMarker = s.sched.doneMarker) (hp' : p'.OwnsNothing)
    (hp : (s.workers w).execView = none ∧ (s.workers w).abortView = none ∧
      (s.workers w).commitTxIndex? = none ∧ (s.workers w).inCommit = false) :
    Inv n ⟨sched', s.commitLock, Function.update s.workers w p'⟩ :=
  h.frame hst hci hcs hdm (h.lock_iff_update (hp'.2.2.2.2.trans hp.2.2.2.symm))
    (hp'.1.trans hp.1.symm) (hp'.2.1.trans hp.2.1.symm)
    (fun i hi => by rw [hp'.2.2.1] at hi; cases hi) (Or.inl hp'.2.2.2.1)

/-- **Every atomic step of every worker keeps the invariant.** -/
theorem Inv.step (h : Inv n s) {a : Nat × Bool} {s' : Sys} {o : List Obs}
    (hs : s.step a = some (s', o)) : Inv n s' := by
  obtain ⟨w, b⟩ := a
  obtain ⟨sched', lock', p', hw, rfl⟩ := Sys.step_eq_some.mp hs
  have nothing : ∀ p : Pc, p.OwnsNothing → (s.workers w).OwnsNothing →
      p.SameOwnership (s.workers w) := fun p hp hq => Pc.sameOwnership_of_ownsNothing hp hq
  cases hpc : s.workers w with
  | loop t =>
    rw [hpc] at hw
    cases hl : s.commitLock with
    | none =>
      simp only [workerStep, hl, Option.some.injEq, Prod.mk.injEq] at hw
      obtain ⟨rfl, rfl, rfl, -⟩ := hw
      exact h.takeLock hpc hl
    | some u =>
      simp only [workerStep, hl, Option.some.injEq, Prod.mk.injEq] at hw
      obtain ⟨rfl, rfl, rfl, -⟩ := hw
      rw [← hl]
      exact h.move rfl rfl rfl rfl (by simp [Pc.SameOwnership, hpc, Pc.execView, Pc.task?,
        Pc.abortView, Pc.valView, Pc.commitTxIndex?, Pc.inCommit])
  | committing t =>
    rw [hpc] at hw
    cases hc : s.sched.tryCommit with
    | none => simp [workerStep, hc] at hw
    | some r =>
      obtain ⟨sched₁, r⟩ := r
      cases r with
      | none =>
        simp only [workerStep, hc, Option.bind_eq_bind, Option.bind_some, Option.pure_def,
          Option.some.injEq, Prod.mk.injEq] at hw
        obtain ⟨rfl, rfl, rfl, -⟩ := hw
        rw [tryCommit_eq_some_none hc]
        exact h.releaseLock hpc
      | some i =>
        simp only [workerStep, hc, Option.bind_eq_bind, Option.bind_some, Option.pure_def,
          Option.some.injEq, Prod.mk.injEq] at hw
        obtain ⟨rfl, rfl, rfl, -⟩ := hw
        exact h.commit hpc hc
  | commitTx t i =>
    rw [hpc] at hw
    have hsame : (Pc.commitBouncer t i).SameOwnership (s.workers w) := by
      simp [Pc.SameOwnership, hpc, Pc.execView, Pc.task?, Pc.abortView, Pc.valView,
        Pc.commitTxIndex?, Pc.inCommit]
    cases b
    · simp only [workerStep, Bool.false_eq_true, if_false, Option.some.injEq,
        Prod.mk.injEq] at hw
      obtain ⟨rfl, rfl, rfl, -⟩ := hw
      exact h.move rfl rfl rfl rfl hsame
    · simp only [workerStep, if_true, Option.some.injEq, Prod.mk.injEq] at hw
      obtain ⟨rfl, rfl, rfl, -⟩ := hw
      exact h.move rfl rfl rfl rfl hsame
  | commitBouncer t i =>
    rw [hpc] at hw
    cases b
    · cases hh : s.sched.haltScheduler with
      | none => simp [workerStep, hh] at hw
      | some sched₁ =>
        simp only [workerStep, hh, Bool.false_eq_true, if_false, Option.bind_eq_bind,
          Option.bind_some, Option.pure_def, Option.some.injEq, Prod.mk.injEq] at hw
        obtain ⟨rfl, rfl, rfl, -⟩ := hw
        exact h.halt hpc hh
    · simp only [workerStep, if_true, Option.some.injEq, Prod.mk.injEq] at hw
      obtain ⟨rfl, rfl, rfl, -⟩ := hw
      -- leaving `commit_tx`: the commit index is not touched
      exact h.frame rfl rfl rfl rfl (h.lock_iff_update (by simp [hpc, Pc.inCommit]))
        (by simp [hpc, Pc.execView, Pc.task?]) (by simp [hpc, Pc.abortView])
        (fun j hj => Or.inr (by simpa [hpc, Pc.valView, Pc.task?] using hj))
        (Or.inl rfl)
  | dispatch t =>
    rw [hpc] at hw
    cases t with
    | executionTask i =>
      cases he : s.sched.setExecutedStatus i with
      | none => simp [workerStep, he] at hw
      | some sched₁ =>
        simp only [workerStep, he, Option.bind_eq_bind, Option.bind_some, Option.pure_def,
          Option.some.injEq, Prod.mk.injEq] at hw
        obtain ⟨rfl, rfl, rfl, -⟩ := hw
        exact h.setExecuted hpc he
    | validationTask i =>
      have hp : (s.workers w).execView = none ∧ (s.workers w).abortView = none ∧
          (s.workers w).commitTxIndex? = none ∧ (s.workers w).inCommit = false := by
        simp [hpc, Pc.execView, Pc.task?, Task.executionIndex?, Pc.abortView,
          Pc.commitTxIndex?, Pc.inCommit]
      have hask : (Pc.loop .askForTask).OwnsNothing := by
        simp [Pc.OwnsNothing, Pc.execView, Pc.task?, Task.executionIndex?, Pc.abortView,
          Pc.valView, Task.validationIndex?, Pc.commitTxIndex?, Pc.inCommit]
      cases b
      · cases ha : s.sched.tryValidationAbort i with
        | none => simp [workerStep, ha] at hw
        | some r =>
          obtain ⟨sched₁, aborted⟩ := r
          simp only [workerStep, ha, Bool.false_eq_true, if_false, Option.bind_eq_bind,
            Option.bind_some, Option.pure_def, Option.some.injEq, Prod.mk.injEq] at hw
          obtain ⟨rfl, rfl, rfl, -⟩ := hw
          cases aborted
          · obtain ⟨-, hcases⟩ := tryValidationAbort_eq_some ha
            obtain ⟨-, -, rfl⟩ := hcases.resolve_left (by rintro ⟨h₁, -⟩; cases h₁)
            exact h.dropValidation rfl rfl rfl rfl hask hp
          · exact h.abort hpc ha
      · simp only [workerStep, if_true, Option.some.injEq, Prod.mk.injEq] at hw
        obtain ⟨rfl, rfl, rfl, -⟩ := hw
        exact h.dropValidation rfl rfl rfl rfl hask hp
    | askForTask =>
      by_cases hd : s.sched.done = true
      · simp only [workerStep, hd, if_true, Option.some.injEq, Prod.mk.injEq] at hw
        obtain ⟨rfl, rfl, rfl, -⟩ := hw
        exact h.move rfl rfl rfl rfl (nothing _ (by simp [Pc.OwnsNothing]) (by simp [hpc, Pc.OwnsNothing]))
      · simp only [workerStep, hd, Bool.false_eq_true, if_false, Option.some.injEq,
          Prod.mk.injEq] at hw
        obtain ⟨rfl, rfl, rfl, -⟩ := hw
        exact h.move rfl rfl rfl rfl (nothing _ (by simp [Pc.OwnsNothing]) (by simp [hpc, Pc.OwnsNothing]))
    | noTaskAvailable =>
      simp only [workerStep, Option.some.injEq, Prod.mk.injEq] at hw
      obtain ⟨rfl, rfl, rfl, -⟩ := hw
      exact h.move rfl rfl rfl rfl (nothing _ (by simp [Pc.OwnsNothing]) (by simp [hpc, Pc.OwnsNothing]))
    | done =>
      simp only [workerStep, Option.some.injEq, Prod.mk.injEq] at hw
      obtain ⟨rfl, rfl, rfl, -⟩ := hw
      exact h.move rfl rfl rfl rfl (nothing _ (by simp [Pc.OwnsNothing]) (by simp [hpc, Pc.OwnsNothing]))
  | finishExecution i =>
    simp only [hpc, workerStep, Option.some.injEq, Prod.mk.injEq] at hw
    obtain ⟨rfl, rfl, rfl, -⟩ := hw
    exact h.move rfl rfl rfl rfl (nothing _ (by simp [Pc.OwnsNothing])
      (by simp [hpc, Pc.OwnsNothing]))
  | abortReady i =>
    rw [hpc] at hw
    cases hr : s.sched.setReadyStatus i with
    | none => simp [workerStep, hr] at hw
    | some sched₁ =>
      simp only [workerStep, hr, Option.bind_eq_bind, Option.bind_some, Option.pure_def,
        Option.some.injEq, Prod.mk.injEq] at hw
      obtain ⟨rfl, rfl, rfl, -⟩ := hw
      exact h.setReady hpc hr
  | abortLoadExec i =>
    rw [hpc] at hw
    have hq : (s.workers w).OwnsNothing := by simp [hpc, Pc.OwnsNothing]
    by_cases hlt : i < s.sched.executionIndex
    · simp only [workerStep, hlt, if_true, Option.some.injEq, Prod.mk.injEq] at hw
      obtain ⟨rfl, rfl, rfl, -⟩ := hw
      exact h.move rfl rfl rfl rfl (nothing _ (by simp [Pc.OwnsNothing]) hq)
    · simp only [workerStep, hlt, if_false, Option.some.injEq, Prod.mk.injEq] at hw
      obtain ⟨rfl, rfl, rfl, -⟩ := hw
      exact h.move rfl rfl rfl rfl (nothing _ (by simp [Pc.OwnsNothing]) hq)
  | abortIncarnate i | neIncarnate i =>
    simp only [hpc, workerStep, Option.some.injEq, Prod.mk.injEq] at hw
    obtain ⟨rfl, rfl, rfl, -⟩ := hw
    have hq : (s.workers w).OwnsNothing := by simp [hpc, Pc.OwnsNothing]
    cases hok : (s.sched.tryIncarnate i).2
    · -- `try_incarnate` failed: nothing changes but the worker's position
      obtain ⟨-, hsched⟩ := (tryIncarnate_cases s.sched i).resolve_left
        (by rintro ⟨ht, -⟩; rw [hok] at ht; cases ht)
      simp only [hsched, if_false, Bool.false_eq_true]
      exact h.move rfl rfl rfl rfl (nothing _ (by simp [Pc.OwnsNothing]) hq)
    · simp only [if_true]
      exact h.incarnate hq hok
  | ntLoadVal | neFetch | finished =>
    simp only [hpc, workerStep, Option.some.injEq, Prod.mk.injEq] at hw
    obtain ⟨rfl, rfl, rfl, -⟩ := hw
    exact h.move rfl rfl rfl rfl (nothing _ (by simp [Pc.OwnsNothing])
      (by simp [hpc, Pc.OwnsNothing]))
  | nvLoad | neLoad | ntLoadExec _ =>
    have hq : (s.workers w).OwnsNothing := by simp [hpc, Pc.OwnsNothing]
    simp only [hpc, workerStep] at hw
    split_ifs at hw <;>
    · simp only [Option.some.injEq, Prod.mk.injEq] at hw
      obtain ⟨rfl, rfl, rfl, -⟩ := hw
      exact h.move rfl rfl rfl rfl (nothing _ (by simp [Pc.OwnsNothing]) hq)
  | nvFetch =>
    simp only [hpc, workerStep] at hw
    split_ifs at hw with hlt
    · simp only [Option.some.injEq, Prod.mk.injEq] at hw
      obtain ⟨rfl, rfl, rfl, -⟩ := hw
      -- the fetched index is inside the chunk, so it may be validated
      exact h.frame rfl rfl rfl rfl (h.lock_iff_update (by simp [hpc])) (by simp [hpc])
        (by simp [hpc]) (fun j hj => Or.inl (by
          simp only [Pc.valView, Option.some.injEq] at hj
          rw [← h.chunkSize_eq, ← hj]
          exact hlt)) (Or.inl rfl)
    · simp only [Option.some.injEq, Prod.mk.injEq] at hw
      obtain ⟨rfl, rfl, rfl, -⟩ := hw
      exact h.move rfl rfl rfl rfl (nothing _ (by simp [Pc.OwnsNothing])
        (by simp [hpc, Pc.OwnsNothing]))
  | nvLock i =>
    simp only [hpc, workerStep] at hw
    split_ifs at hw
    · simp only [Option.some.injEq, Prod.mk.injEq] at hw
      obtain ⟨rfl, rfl, rfl, -⟩ := hw
      exact h.move rfl rfl rfl rfl (by simp [Pc.SameOwnership, hpc])
    · simp only [Option.some.injEq, Prod.mk.injEq] at hw
      obtain ⟨rfl, rfl, rfl, -⟩ := hw
      exact h.dropValidation rfl rfl rfl rfl (by simp [Pc.OwnsNothing]) (by simp [hpc])

/-! ## 6. No step fails

The five places a step can fail are the five assertions of the commit and abort paths; the
invariant discharges each. -/

/-- **No assertion fires**: under the invariant every worker can take its next step. -/
theorem Inv.step_isSome (h : Inv n s) (a : Nat × Bool) : (s.step a).isSome := by
  obtain ⟨w, b⟩ := a
  rw [Sys.step, Option.isSome_map]
  have hheld : ∀ {v : Pc → Option Nat} {i : Nat}, v (s.workers w) = some i →
      Held v s.workers i := fun hv => ⟨w, hv⟩
  cases hpc : s.workers w with
  | committing t =>
    -- `try_commit`'s assertion: a scheduler that is not done has a transaction left
    have hc : s.sched.tryCommit.isSome := by
      rw [Option.isSome_iff_ne_none, Ne, tryCommit_eq_none_iff]
      rintro ⟨hd, hle⟩
      have hci : s.sched.commitIndex = n := by
        have := h.commitIndex_le
        rw [h.chunkSize_eq] at hle
        omega
      rw [h.done_of_end hci] at hd
      cases hd
    obtain ⟨⟨sched₁, r⟩, hr⟩ := Option.isSome_iff_exists.mp hc
    cases r <;> simp [workerStep, hr]
  | commitBouncer t i =>
    -- `halt_scheduler`'s assertion: inside `commit_tx(i)` the commit index is `i + 1`
    have hci := h.commitTx_index i (hheld (v := Pc.commitTxIndex?) (by simp [hpc]))
    cases b
    · obtain ⟨sched₁, hr⟩ := Option.isSome_iff_exists.mp (haltScheduler_isSome (s := s.sched)
        (by omega))
      simp [workerStep, hr]
    · simp [workerStep]
  | dispatch t =>
    cases t with
    | executionTask i =>
      -- `set_executed_status`'s assertion: the task's owner finds it executing
      have hex := (h.executing_iff i).mpr (hheld (v := Pc.execView) (by simp [hpc]))
      have hlt := h.chunkSize_eq ▸ h.lt_of_executing hex
      obtain ⟨sched₁, hr⟩ := Option.isSome_iff_exists.mp (setExecutedStatus_isSome hlt hex)
      simp [workerStep, hr]
    | validationTask i =>
      have hlt := h.chunkSize_eq ▸ h.validation_lt i (hheld (v := Pc.valView) (by simp [hpc]))
      cases b
      · obtain ⟨⟨sched₁, r⟩, hr⟩ := Option.isSome_iff_exists.mp (tryValidationAbort_isSome hlt)
        simp [workerStep, hr]
      · simp [workerStep]
    | askForTask => simp only [workerStep]; split <;> rfl
    | noTaskAvailable | done => rfl
  | abortReady i =>
    -- `set_ready_status`'s assertion: the aborting worker finds its transaction aborting
    have hab := (h.aborting_iff i).mpr (hheld (v := Pc.abortView) (by simp [hpc]))
    have hlt := h.chunkSize_eq ▸ h.lt_of_aborting hab
    obtain ⟨sched₁, hr⟩ := Option.isSome_iff_exists.mp (setReadyStatus_isSome hlt hab)
    simp [workerStep, hr]
  | loop t => simp only [workerStep]; split <;> rfl
  | commitTx t i => simp only [workerStep]; split <;> rfl
  | abortLoadExec i | nvLoad | nvFetch | nvLock i | neLoad | ntLoadExec _ =>
    simp only [workerStep]
    split_ifs <;> rfl
  | finishExecution i | abortIncarnate i | ntLoadVal | neFetch | neIncarnate i | finished =>
    rfl

end Sequencer.Concurrency
