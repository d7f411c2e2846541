/-
# What every run of the scheduler guarantees

`SchedulerInvariant.lean` proves that ownership is exclusive in every reachable state.  This file
adds the two halves of the scheduler's contract that are about CHANGE rather than about one
state, and puts everything together over whole runs from `Scheduler::new`:

* **status lifecycle** (`workerStep_statusMove`): a step moves a status along
  `ReadyToExecute → Executing → Executed → (Aborting → ReadyToExecute | Committed)` or leaves it,
  and only `try_incarnate` moves one into `Executing`.  This needs no invariant: every write of a
  status is guarded by a check of the status it replaces.
* **commit order** (`RunInv`): what `try_commit` has returned along a run is `0, 1, 2, ...` up
  to the commit index (one more after a halt, which un-commits the last one); after a halt the
  scheduler is done and no one is in `commit_tx`, so there is never a second one; and the done
  marker is set exactly by the commit of the last index or by the halt.
-/
import Sequencer.Concurrency.SchedulerInvariant

namespace Sequencer.Concurrency

open Scheduler

/-! ## 1. The status lifecycle -/

/-- The moves of a `TransactionStatus`, each named by the method that makes it. -/
inductive StatusMove : TransactionStatus → TransactionStatus → Prop
  | tryIncarnate : StatusMove .readyToExecute .executing
  | setExecutedStatus : StatusMove .executing .executed
  | tryValidationAbort : StatusMove .executed .aborting
  | setReadyStatus : StatusMove .aborting .readyToExecute
  | tryCommit : StatusMove .executed .committed

/-- `Committed` is never left. -/
theorem StatusMove.not_from_committed {st : TransactionStatus} :
    ¬ StatusMove .committed st := by
  rintro ⟨⟩

/-- A write of one status changes that status only. -/
theorem setStatus_txStatuses_cases (s : Scheduler) (i j : Nat) (st : TransactionStatus) :
    (s.setStatus i st).txStatuses j = s.txStatuses j ∨
      j = i ∧ (s.setStatus i st).txStatuses j = st := by
  by_cases hj : j = i
  · subst hj
    exact .inr ⟨rfl, setStatus_txStatuses_self s j st⟩
  · exact .inl (setStatus_txStatuses_of_ne s st hj)

/-- **What a step does to the status of `j`**: nothing, or the method the worker's position runs,
on `j`, from the status that method checks. -/
theorem workerStep_txStatuses {sched sched' : Scheduler} {lock lock' : Option Nat} {w : Nat}
    {b : Bool} {p p' : Pc} {o : List Obs}
    (hw : workerStep sched lock w b p = some (sched', lock', p', o)) (j : Nat) :
    sched'.txStatuses j = sched.txStatuses j ∨
    (∃ t, p = .committing t) ∧ sched.txStatuses j = .executed ∧
      sched'.txStatuses j = .committed ∨
    p = .dispatch (.executionTask j) ∧ sched.txStatuses j = .executing ∧
      sched'.txStatuses j = .executed ∨
    p = .dispatch (.validationTask j) ∧ sched.txStatuses j = .executed ∧
      sched'.txStatuses j = .aborting ∨
    p = .abortReady j ∧ sched.txStatuses j = .aborting ∧
      sched'.txStatuses j = .readyToExecute ∨
    (p = .abortIncarnate j ∨ p = .neIncarnate j) ∧ sched.txStatuses j = .readyToExecute ∧
      sched'.txStatuses j = .executing := by
  rcases workerStep_cases hw with ⟨t, i, rfl, hc, -, -⟩ | ⟨t, i, rfl, hh, -, -⟩ | ⟨-, hst⟩
  · obtain ⟨-, -, -, hex, rfl⟩ := tryCommit_eq_some_some hc
    rcases setStatus_txStatuses_cases sched i j .committed with hj | ⟨rfl, hj⟩
    · exact .inl hj
    · exact .inr (.inl ⟨⟨t, rfl⟩, hex, hj⟩)
  · obtain ⟨-, rfl⟩ := haltScheduler_eq_some hh
    exact .inl rfl
  -- the four status-changing methods, each through its spec lemma
  rcases hst with hst | ⟨i, rfl, he⟩ | ⟨i, rfl, ha⟩ | ⟨i, rfl, hr⟩ | ⟨i, hp, hi⟩
  · exact .inl (congrFun hst j)
  · obtain ⟨-, hex, rfl⟩ := setExecutedStatus_eq_some he
    rcases setStatus_txStatuses_cases sched i j .executed with hj | ⟨rfl, hj⟩
    · exact .inl hj
    · exact .inr (.inr (.inl ⟨rfl, hex, hj⟩))
  · obtain ⟨-, ⟨-, hex, rfl⟩ | ⟨h, -⟩⟩ := tryValidationAbort_eq_some ha
    · rcases setStatus_txStatuses_cases sched i j .aborting with hj | ⟨rfl, hj⟩
      · exact .inl hj
      · exact .inr (.inr (.inr (.inl ⟨rfl, hex, hj⟩)))
    · cases h
  · obtain ⟨-, hab, rfl⟩ := setReadyStatus_eq_some hr
    rcases setStatus_txStatuses_cases sched i j .readyToExecute with hj | ⟨rfl, hj⟩
    · exact .inl hj
    · exact .inr (.inr (.inr (.inr (.inl ⟨rfl, hab, hj⟩))))
  · -- `try_incarnate` that succeeded: its check was `ReadyToExecute`
    rcases tryIncarnate_cases sched i with ⟨-, -, hready, hs⟩ | ⟨hok, -⟩
    · rw [hi] at hs
      subst hs
      rcases setStatus_txStatuses_cases sched i j .executing with hj | ⟨rfl, hj⟩
      · exact .inl hj
      · exact .inr (.inr (.inr (.inr (.inr ⟨hp, hready, hj⟩))))
    · rw [hi] at hok
      cases hok

/-- **The lifecycle.**  A step leaves each status or moves it one step along the lifecycle. -/
theorem workerStep_statusMove {sched sched' : Scheduler} {lock lock' : Option Nat} {w : Nat}
    {b : Bool} {p p' : Pc} {o : List Obs}
    (hw : workerStep sched lock w b p = some (sched', lock', p', o)) (j : Nat) :
    sched'.txStatuses j = sched.txStatuses j ∨
      StatusMove (sched.txStatuses j) (sched'.txStatuses j) := by
  rcases workerStep_txStatuses hw j with h | ⟨-, h₁, h₂⟩ | ⟨-, h₁, h₂⟩ | ⟨-, h₁, h₂⟩ |
      ⟨-, h₁, h₂⟩ | ⟨-, h₁, h₂⟩
  · exact .inl h
  all_goals
    rw [h₁, h₂]
    exact .inr (by constructor)

/-- **`try_incarnate` is the only way into `Executing`.** -/
theorem workerStep_executing {sched sched' : Scheduler} {lock lock' : Option Nat} {w : Nat}
    {b : Bool} {p p' : Pc} {o : List Obs}
    (hw : workerStep sched lock w b p = some (sched', lock', p', o)) {j : Nat}
    (hj : sched'.txStatuses j = .executing) (hne : sched.txStatuses j ≠ .executing) :
    p = .abortIncarnate j ∨ p = .neIncarnate j := by
  rcases workerStep_txStatuses hw j with h | ⟨-, -, h⟩ | ⟨-, -, h⟩ | ⟨-, -, h⟩ | ⟨-, -, h⟩ |
      ⟨hp, -, -⟩
  · exact absurd (h ▸ hj) hne
  all_goals first
    | exact hp
    | rw [hj] at h; cases h

/-! ## 2. What the commit phase emits -/

/-- A step that emits `committed j` is `try_commit` on the commit index `j`, which was executed. -/
theorem workerStep_committed {sched sched' : Scheduler} {lock lock' : Option Nat} {w : Nat}
    {b : Bool} {p p' : Pc} {o : List Obs}
    (hw : workerStep sched lock w b p = some (sched', lock', p', o)) {j : Nat}
    (hj : Obs.committed j ∈ o) :
    j = sched.commitIndex ∧ sched.txStatuses j = .executed := by
  rcases workerStep_cases hw with ⟨t, i, -, hc, -, rfl⟩ | ⟨t, i, -, -, -, rfl⟩ | ⟨⟨rfl, -⟩, -⟩
  · obtain ⟨-, rfl, -, hex, -⟩ := tryCommit_eq_some_some hc
    rw [List.mem_singleton, Obs.committed.injEq] at hj
    subst hj
    exact ⟨rfl, hex⟩
  · simp at hj
  · simp at hj

/-- A step that emits `halted` is `halt_scheduler`, which lowers a positive commit index. -/
theorem workerStep_halted {sched sched' : Scheduler} {lock lock' : Option Nat} {w : Nat}
    {b : Bool} {p p' : Pc} {o : List Obs}
    (hw : workerStep sched lock w b p = some (sched', lock', p', o)) (hh : Obs.halted ∈ o) :
    0 < sched.commitIndex ∧ sched'.commitIndex = sched.commitIndex - 1 := by
  rcases workerStep_cases hw with ⟨t, i, -, -, -, rfl⟩ | ⟨t, i, -, hh', -, -⟩ | ⟨⟨rfl, -⟩, -⟩
  · simp at hh
  · obtain ⟨hpos, rfl⟩ := haltScheduler_eq_some hh'
    exact ⟨hpos, rfl⟩
  · simp at hh

/-! ## 3. Commit order over whole runs -/

/-- The invariant of a run: the scheduler invariant, and what the commit phase has emitted so
far agrees with the commit index and the done marker. -/
structure RunInv (n : Nat) (s : Sys) (os : List Obs) : Prop where
  inv : Inv n s
  /-- `try_commit` has returned `0, 1, ...` below the commit index, and the one index a halt
  un-committed. -/
  committed_range :
    committedIndices os = List.range (s.sched.commitIndex + if Obs.halted ∈ os then 1 else 0)
  /-- After a halt the scheduler is done and nobody is inside `commit_tx`. -/
  halted_done :
    Obs.halted ∈ os → s.sched.doneMarker = true ∧ ∀ k, ¬ Held Pc.commitTxIndex? s.workers k
  done_iff : s.sched.doneMarker = true ↔ s.sched.commitIndex = n ∨ Obs.halted ∈ os

variable {n : Nat} {s : Sys} {os : List Obs}

theorem RunInv.init (hn : 0 < n) : RunInv n (Sys.init n) [] where
  inv := Inv.init hn
  committed_range := rfl
  halted_done := fun h => absurd h List.not_mem_nil
  done_iff := by simp [Sys.init, Scheduler.new]; omega

theorem RunInv.not_halted_of_not_done (h : RunInv n s os) (hd : s.sched.doneMarker = false) :
    Obs.halted ∉ os := fun hm => by
  rw [(h.halted_done hm).1] at hd
  cases hd

/-- `try_commit` returned the commit index: the emitted range grows by it. -/
theorem RunInv.commit (h : RunInv n s os) {sched' : Scheduler} {lock' : Option Nat}
    {ws' : Nat → Pc} {i : Nat} (h' : Inv n ⟨sched', lock', ws'⟩)
    (hc : s.sched.tryCommit = some (sched', some i)) :
    RunInv n ⟨sched', lock', ws'⟩ (os ++ [.committed i]) := by
  obtain ⟨hd, rfl, -, -, rfl⟩ := tryCommit_eq_some_some hc
  have hnh := h.not_halted_of_not_done hd
  have hnh' : Obs.halted ∉ os ++ [.committed s.sched.commitIndex] := by simpa using hnh
  refine ⟨h', ?_, fun hm => absurd hm hnh', ?_⟩
  · simp only [committedIndices_append, committedIndices_committed, h.committed_range, hnh,
      hnh', if_false, Nat.add_zero]
    exact List.range_succ.symm
  · -- the marker is stored exactly when the last index is committed
    simp only [hnh', or_false, decide_eq_true_eq]
    rw [h.inv.chunkSize_eq]

/-- `halt_scheduler` from inside `commit_tx(i)`: the first halt, after which nobody is inside
`commit_tx`. -/
theorem RunInv.halt (h : RunInv n s os) {sched' : Scheduler} {lock' : Option Nat} {w : Nat}
    {t : Task} {i : Nat} (h' : Inv n ⟨sched', lock', Function.update s.workers w (.committing t)⟩)
    (hp : s.workers w = .commitBouncer t i) (hh : s.sched.haltScheduler = some sched') :
    RunInv n ⟨sched', lock', Function.update s.workers w (.committing t)⟩ (os ++ [.halted]) := by
  obtain ⟨hpos, rfl⟩ := haltScheduler_eq_some hh
  have hin : (s.workers w).commitTxIndex? = some i := by rw [hp]; rfl
  -- a halt is taken inside `commit_tx`, which nobody is in after a halt: this is the first one
  have hnh : Obs.halted ∉ os := fun hm => (h.halted_done hm).2 i ⟨w, hin⟩
  have hcr := h.committed_range
  simp only [hnh, if_false, Nat.add_zero] at hcr
  refine ⟨h', ?_, fun _ => ⟨rfl, h.inv.not_held_commitTx_of_leave (h.inv.commitTx_holder hin) rfl⟩,
    by simp⟩
  simp only [committedIndices_append, committedIndices_halted, List.append_nil, hcr,
    List.mem_append, List.mem_singleton, or_true, if_true]
  congr 1
  omega

/-- A quiet step keeps what the commit phase has emitted and what it reads. -/
theorem RunInv.quiet (h : RunInv n s os) {sched' : Scheduler} {lock' : Option Nat} {w : Nat}
    {p' : Pc} (h' : Inv n ⟨sched', lock', Function.update s.workers w p'⟩)
    (hci : sched'.commitIndex = s.sched.commitIndex) (hdm : sched'.doneMarker = s.sched.doneMarker)
    (hq : p'.commitTxIndex? = none ∨ p'.commitTxIndex? = (s.workers w).commitTxIndex?) :
    RunInv n ⟨sched', lock', Function.update s.workers w p'⟩ (os ++ []) := by
  rw [List.append_nil]
  refine ⟨h', ?_, fun hm => ?_, ?_⟩
  · rw [hci]
    exact h.committed_range
  · obtain ⟨hd, hnone⟩ := h.halted_done hm
    exact ⟨hdm.trans hd, fun k hk => hnone k (Held.of_update hq hk)⟩
  · rw [hdm, hci]
    exact h.done_iff

/-- **Every atomic step keeps the run invariant.** -/
theorem RunInv.step (h : RunInv n s os) {a : Nat × Bool} {s' : Sys} {o : List Obs}
    (hs : s.step a = some (s', o)) : RunInv n s' (os ++ o) := by
  have h' := h.inv.step hs
  obtain ⟨w, b⟩ := a
  obtain ⟨sched', lock', p', hw, rfl⟩ := Sys.step_eq_some.mp hs
  rcases workerStep_cases hw with ⟨t, i, -, hc, -, rfl⟩ | ⟨t, i, hp, hh, rfl, rfl⟩ |
      ⟨⟨rfl, hci, hdm, hq⟩, -⟩
  · exact h.commit h' hc
  · exact h.halt h' hp hh
  · exact h.quiet h' hci hdm hq

/-- The run invariant holds at the end of every run from a fresh scheduler. -/
theorem RunInv.run (hn : 0 < n) {sch : List (Nat × Bool)} {q : Sys × List Obs}
    (h : Sys.run (Sys.init n) sch = some q) : RunInv n q.1 q.2 :=
  runFrom_inv Sys.step (RunInv n) (fun _ _ _ _ _ hi hs => hi.step hs) (Sys.init n, []) sch q
    (RunInv.init hn) h

/-- No run from a fresh scheduler fails an assertion. -/
theorem Sys.run_isSome (hn : 0 < n) (sch : List (Nat × Bool)) :
    (Sys.run (Sys.init n) sch).isSome :=
  Sequencer.run_isSome Sys.step (Inv n) (fun _ a hi => hi.step_isSome a) (fun _ _ _ _ hi hs => hi.step hs)
    (Inv.init hn) sch

/-! ## 4. The scheduler's contract over runs -/

section SysStep

variable {s s' : Sys} {a : Nat × Bool} {o : List Obs}

theorem Sys.step_statusMove (hs : s.step a = some (s', o)) (i : Nat) :
    s'.sched.txStatuses i = s.sched.txStatuses i ∨
      StatusMove (s.sched.txStatuses i) (s'.sched.txStatuses i) := by
  obtain ⟨sched', lock', p', hw, rfl⟩ := Sys.step_eq_some.mp hs
  exact workerStep_statusMove hw i

theorem Sys.step_executing (hs : s.step a = some (s', o)) {i : Nat}
    (hi : s'.sched.txStatuses i = .executing) (hne : s.sched.txStatuses i ≠ .executing) :
    s.workers a.1 = .abortIncarnate i ∨ s.workers a.1 = .neIncarnate i := by
  obtain ⟨sched', lock', p', hw, rfl⟩ := Sys.step_eq_some.mp hs
  exact workerStep_executing hw hi hne

theorem Sys.step_committed (hs : s.step a = some (s', o)) {i : Nat}
    (hi : Obs.committed i ∈ o) : i = s.sched.commitIndex ∧ s.sched.txStatuses i = .executed := by
  obtain ⟨sched', lock', p', hw, rfl⟩ := Sys.step_eq_some.mp hs
  exact workerStep_committed hw hi

theorem Sys.step_halted (hs : s.step a = some (s', o)) (hh : Obs.halted ∈ o) :
    0 < s.sched.commitIndex ∧ s'.sched.commitIndex = s.sched.commitIndex - 1 := by
  obtain ⟨sched', lock', p', hw, rfl⟩ := Sys.step_eq_some.mp hs
  exact workerStep_halted hw hh

end SysStep

/-- What the scheduler promises about a state that a run of `n` transactions reaches, about what
the run emitted, and about the step taken next, whichever worker takes it with whichever
outcome of the versioned state and the bouncer. -/
structure Guarantees (n : Nat) (s : Sys) (os : List Obs) : Prop where
  /-- No assertion fires in the next step. -/
  step_isSome : ∀ a, (s.step a).isSome
  /-- Each status stays or moves along the lifecycle. -/
  status_move : ∀ a s' o, s.step a = some (s', o) → ∀ i,
    s'.sched.txStatuses i = s.sched.txStatuses i ∨
      StatusMove (s.sched.txStatuses i) (s'.sched.txStatuses i)
  committed_stays : ∀ a s' o, s.step a = some (s', o) → ∀ i,
    s.sched.txStatuses i = .committed → s'.sched.txStatuses i = .committed
  /-- At most one execution task per index is out, exactly while the index is `Executing`, and
  only `try_incarnate` makes an index `Executing`. -/
  execution_exclusive : Exclusive Pc.execView s.workers
  executing_iff : ∀ i, s.sched.txStatuses i = .executing ↔ Held Pc.execView s.workers i
  only_incarnate : ∀ a s' o, s.step a = some (s', o) → ∀ i,
    s'.sched.txStatuses i = .executing → s.sched.txStatuses i ≠ .executing →
      s.workers a.1 = .abortIncarnate i ∨ s.workers a.1 = .neIncarnate i
  /-- `try_commit` has returned `0, 1, ..., k - 1`, in order, and it returns an index only for
  an executed transaction. -/
  committed_range : ∃ k, committedIndices os = List.range k
  commit_executed : ∀ a s' o, s.step a = some (s', o) → ∀ i,
    Obs.committed i ∈ o → s.sched.txStatuses i = .executed
  commitIndex_le : s.sched.commitIndex ≤ n
  below_committed : ∀ j < s.sched.commitIndex, s.sched.txStatuses j = .committed
  above_not_committed :
    s.sched.doneMarker = false → ∀ j, s.sched.commitIndex ≤ j → s.sched.txStatuses j ≠ .committed
  /-- The done marker is set by the commit of the last index or by a halt, and by nothing else;
  a halt lowers a positive commit index. -/
  done_iff : s.sched.doneMarker = true ↔ s.sched.commitIndex = n ∨ Obs.halted ∈ os
  halt_positive : ∀ a s' o, s.step a = some (s', o) → Obs.halted ∈ o →
    0 < s.sched.commitIndex ∧ s'.sched.commitIndex = s.sched.commitIndex - 1

/-- The run invariant gives the contract. -/
theorem RunInv.guarantees (h : RunInv n s os) : Guarantees n s os where
  step_isSome := h.inv.step_isSome
  status_move := fun _ _ _ hs => Sys.step_statusMove hs
  committed_stays := fun _ _ _ hs i hi => by
    rcases Sys.step_statusMove hs i with h' | hm
    · rw [h', hi]
    · rw [hi] at hm
      exact absurd hm StatusMove.not_from_committed
  execution_exclusive := h.inv.execution_exclusive
  executing_iff := h.inv.executing_iff
  only_incarnate := fun _ _ _ hs _ => Sys.step_executing hs
  committed_range := ⟨_, h.committed_range⟩
  commit_executed := fun _ _ _ hs _ hi => (Sys.step_committed hs hi).2
  commitIndex_le := h.inv.commitIndex_le
  below_committed := h.inv.below_committed
  above_not_committed := h.inv.above_not_committed
  done_iff := h.done_iff
  halt_positive := fun _ _ _ hs => Sys.step_halted hs

/-- **The scheduler's contract.**  For a chunk of `n > 0` transactions, any number of workers and
every interleaving of their atomic steps, with every outcome of validation and of the bouncer,
the run never fails an assertion and ends in a state where the contract holds. -/
theorem scheduler_run_guarantees (hn : 0 < n) (sch : List (Nat × Bool)) :
    ∃ s os, Sys.run (Sys.init n) sch = some (s, os) ∧ Guarantees n s os := by
  obtain ⟨⟨s, os⟩, hrun⟩ := Option.isSome_iff_exists.mp (Sys.run_isSome hn sch)
  exact ⟨s, os, hrun, (RunInv.run hn hrun).guarantees⟩

/-- Three transactions, two workers interleaved. -/
theorem scheduler_run_guarantees_two_workers :
    0 < 3 ∧ ∃ s os, Sys.run (Sys.init 3) [(0, true), (1, true), (0, false), (1, false), (1, true)] =
      some (s, os) ∧ Guarantees 3 s os :=
  ⟨by decide, scheduler_run_guarantees (by decide) _⟩

end Sequencer.Concurrency
