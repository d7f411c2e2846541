/-
# The proposal manager: one proposal at a time, and what a new height leaves running

`ProposalManager::build_block_proposal` claims the shared `active_proposal` slot for a proposal
and spawns a `BuildProposalTask` that builds the block.  When the builder is done, the task
takes the id out of the slot (`mark_active_proposal_as_done`, under the slot's lock) and then
files its result under that id in `done_proposals` (under the other lock).

`start_height` empties the slot and `done_proposals` without aborting the running task.  Within
a height the bookkeeping is exact (`Exclusive`): at most one task builds, the slot names the
proposal it was started for, and a task files its result under that proposal
(`Exclusive.step`, `Exclusive.run`).  Across a `start_height` it is not:
`proposalManager_files_result_under_newer_id`.

A task is modelled with the proposal whose `build_block_proposal` spawned it, which the source
does not keep; only the statements read it.  The calls and the two steps of each task are atomic,
and any interleaving of them is a list of inputs.
-/
import Sequencer.Lib.Collections

namespace Sequencer.Batcher

abbrev ProposalId := Nat
abbrev BlockNumber := Nat

/-! ## 1. The manager and its tasks -/

/-- `StartHeightError`. -/
inductive StartHeightError
  | storageNotSynced (storageHeight requestedHeight : BlockNumber)
  | heightAlreadyPassed (storageHeight requestedHeight : BlockNumber)
  deriving DecidableEq, Repr

/-- `BuildProposalError`. -/
inductive BuildProposalError
  | noActiveHeight
  | proposalAlreadyExists (proposalId : ProposalId)
  | alreadyGeneratingProposal (currentGeneratingProposalId newProposalId : ProposalId)
  deriving DecidableEq, Repr

/-- `GetProposalResultError::ProposalDoesNotExist`. -/
inductive GetProposalResultError
  | proposalDoesNotExist (proposalId : ProposalId)
  deriving DecidableEq, Repr

/-- A task whose builder is still running: the proposal and the height it was started for. -/
structure BuildingTask where
  startedFor : ProposalId
  height : BlockNumber
  deriving DecidableEq, Repr

/-- A task between its two locks: the id it took out of the slot, and its result. -/
structure MarkingTask (ρ : Type) where
  startedFor : ProposalId
  proposalId : ProposalId
  result : ρ
  deriving DecidableEq, Repr

/-- `ProposalManager`, with the tasks it spawned that have not filed their result.
`storageHeight` is what `storage_reader.height()` returns. -/
structure ProposalManager (ρ : Type) where
  storageHeight : BlockNumber
  activeHeight : Option BlockNumber
  activeProposal : Option ProposalId
  doneProposals : HashMap ProposalId ρ
  building : List BuildingTask
  marking : List (MarkingTask ρ)
  deriving DecidableEq

namespace ProposalManager

variable {ρ : Type}

/-- `ProposalManager::new`. -/
def new (storageHeight : BlockNumber) : ProposalManager ρ :=
  ⟨storageHeight, none, none, [], [], []⟩

/-- `reset_active_height`: the slot is emptied, without aborting the task. -/
def resetActiveHeight (self : ProposalManager ρ) : ProposalManager ρ :=
  { self with activeProposal := none, doneProposals := [], activeHeight := none }

/-- `start_height`. -/
def startHeight (self : ProposalManager ρ) (height : BlockNumber) :
    Except StartHeightError Unit × ProposalManager ρ :=
  let self := self.resetActiveHeight
  let nextHeight := self.storageHeight
  if nextHeight < height then (.error (.storageNotSynced nextHeight height), self)
  else if height < nextHeight then (.error (.heightAlreadyPassed nextHeight height), self)
  else (.ok (), { self with activeHeight := some height })

/-- `set_active_proposal`. -/
def setActiveProposal (self : ProposalManager ρ) (activeProposal : ProposalId) :
    Except BuildProposalError Unit × ProposalManager ρ :=
  match self.activeProposal with
  | some currentGeneratingProposalId =>
    (.error (.alreadyGeneratingProposal currentGeneratingProposalId activeProposal), self)
  | none => (.ok (), { self with activeProposal := some activeProposal })

/-- `build_block_proposal`: a task is spawned once the slot is claimed. -/
def buildBlockProposal (self : ProposalManager ρ) (proposalId : ProposalId) :
    Except BuildProposalError Unit × ProposalManager ρ :=
  match self.activeHeight with
  | none => (.error .noActiveHeight, self)
  | some height =>
    if self.doneProposals.containsKey proposalId then
      (.error (.proposalAlreadyExists proposalId), self)
    else
      match self.setActiveProposal proposalId with
      | (.error e, self) => (.error e, self)
      | (.ok (), self) => (.ok (), { self with building := self.building ++ [⟨proposalId, height⟩] })

/-- `take_proposal_result`. -/
def takeProposalResult (self : ProposalManager ρ) (proposalId : ProposalId) :
    Except GetProposalResultError ρ × ProposalManager ρ :=
  match self.doneProposals.remove proposalId with
  | (some result, doneProposals) => (.ok result, { self with doneProposals })
  | (none, _) => (.error (.proposalDoesNotExist proposalId), self)

/-- `get_done_proposal_commitment`, of the stored result. -/
def getDoneProposalCommitment (self : ProposalManager ρ) (proposalId : ProposalId) :
    Except GetProposalResultError ρ :=
  match self.doneProposals.get proposalId with
  | some output => .ok output
  | none => .error (.proposalDoesNotExist proposalId)

/-- The first lock of `mark_active_proposal_as_done`, when the `i`-th building task's builder is
done: the id is taken out of the slot, or the task panics on `"Active proposal should exist."`. -/
def takeActiveProposal (self : ProposalManager ρ) (i : Nat) (result : ρ) :
    Option (ProposalManager ρ) :=
  match self.building[i]? with
  | none => some self
  | some task =>
    match self.activeProposal with
    | none => none
    | some proposalId =>
      some { self with
        activeProposal := none
        building := self.building.eraseIdx i
        marking := self.marking ++ [⟨task.startedFor, proposalId, result⟩] }

/-- The second lock of `mark_active_proposal_as_done`: the `i`-th marking task files its result. -/
def insertDoneProposal (self : ProposalManager ρ) (i : Nat) : ProposalManager ρ :=
  match self.marking[i]? with
  | none => self
  | some task =>
    { self with
      doneProposals := (self.doneProposals.insert task.proposalId task.result).2
      marking := self.marking.eraseIdx i }

/-- A call to the manager, or a step of one of its tasks. -/
inductive Input (ρ : Type)
  | startHeight (height : BlockNumber)
  | buildBlockProposal (proposalId : ProposalId)
  | takeProposalResult (proposalId : ProposalId)
  | getDoneProposalCommitment (proposalId : ProposalId)
  /-- The `i`-th building task's builder finished with `result`. -/
  | builderDone (i : Nat) (result : ρ)
  /-- The `i`-th marking task files its result. -/
  | fileResult (i : Nat)

/-- One input; `none` is a panic. -/
def step (self : ProposalManager ρ) : Input ρ → Option (ProposalManager ρ)
  | .startHeight height => some (self.startHeight height).2
  | .buildBlockProposal proposalId => some (self.buildBlockProposal proposalId).2
  | .takeProposalResult proposalId => some (self.takeProposalResult proposalId).2
  | .getDoneProposalCommitment _ => some self
  | .builderDone i result => self.takeActiveProposal i result
  | .fileResult i => some (self.insertDoneProposal i)

/-- A run of inputs; `none` if one panics. -/
def run (self : ProposalManager ρ) : List (Input ρ) → Option (ProposalManager ρ)
  | [] => some self
  | input :: inputs => (self.step input).bind fun m => m.run inputs

/-! ## 2. Within a height, one proposal at a time -/

/-- The bookkeeping is exact: the slot names the one building task's proposal, if any, and each
task between its locks took the id it was started for. -/
structure Exclusive (m : ProposalManager ρ) : Prop where
  building_eq : m.building.map (·.startedFor) = m.activeProposal.toList
  marking_eq : ∀ t ∈ m.marking, t.proposalId = t.startedFor

theorem Exclusive.new (storageHeight : BlockNumber) :
    Exclusive (ProposalManager.new storageHeight : ProposalManager ρ) :=
  ⟨rfl, fun _ ht => by cases ht⟩

/-- A building task is the only one, and the slot holds its proposal. -/
theorem Exclusive.building_eq_singleton {m : ProposalManager ρ} (h : Exclusive m) {i : Nat}
    {task : BuildingTask} (ht : m.building[i]? = some task) :
    m.building = [task] ∧ i = 0 ∧ m.activeProposal = some task.startedFor := by
  have hlen := congrArg List.length h.building_eq
  rw [List.length_map] at hlen
  cases hactive : m.activeProposal with
  | none =>
    rw [hactive] at hlen
    have hnil : m.building = [] := List.eq_nil_of_length_eq_zero (by simpa using hlen)
    rw [hnil] at ht
    cases ht
  | some p =>
    rw [hactive] at hlen
    obtain ⟨t, hbuilding⟩ := List.length_eq_one_iff.mp (by simpa using hlen)
    rw [hbuilding] at ht
    have hi : i = 0 := by
      have := (List.getElem?_eq_some_iff.mp ht).1
      simp at this
      omega
    subst hi
    cases ht
    have heq := h.building_eq
    rw [hbuilding, hactive] at heq
    simp only [List.map_cons, List.map_nil, Option.toList_some, List.cons.injEq, and_true] at heq
    exact ⟨hbuilding, rfl, by rw [heq]⟩

theorem Exclusive.startHeight {m : ProposalManager ρ} (h : Exclusive m) (hidle : m.building = [])
    (height : BlockNumber) : Exclusive (m.startHeight height).2 := by
  have hstart : ∀ m' : ProposalManager ρ, m'.building = m.building → m'.marking = m.marking →
      m'.activeProposal = none → Exclusive m' := fun m' hb hm ha =>
    ⟨by rw [hb, ha, hidle]; rfl, hm ▸ h.marking_eq⟩
  unfold ProposalManager.startHeight
  dsimp only
  split
  · exact hstart _ rfl rfl rfl
  · split
    · exact hstart _ rfl rfl rfl
    · exact hstart _ rfl rfl rfl

theorem Exclusive.buildBlockProposal {m : ProposalManager ρ} (h : Exclusive m)
    (proposalId : ProposalId) : Exclusive (m.buildBlockProposal proposalId).2 := by
  unfold ProposalManager.buildBlockProposal
  split
  · exact h
  · split
    · exact h
    · cases hactive : m.activeProposal with
      | some current =>
        simp only [ProposalManager.setActiveProposal, hactive]
        exact h
      | none =>
        -- the slot was free, so no task was building
        have hidle : m.building = [] := by
          have := h.building_eq
          rw [hactive] at this
          exact List.map_eq_nil_iff.mp this
        simp only [ProposalManager.setActiveProposal, hactive]
        exact ⟨by simp [hidle], h.marking_eq⟩

theorem Exclusive.takeProposalResult {m : ProposalManager ρ} (h : Exclusive m)
    (proposalId : ProposalId) : Exclusive (m.takeProposalResult proposalId).2 := by
  unfold ProposalManager.takeProposalResult
  split
  · exact ⟨h.building_eq, h.marking_eq⟩
  · exact h

/-- **Within a height no task panics**: the building task finds its own proposal in the slot. -/
theorem Exclusive.takeActiveProposal {m : ProposalManager ρ} (h : Exclusive m) (i : Nat)
    (result : ρ) : ∃ m', m.takeActiveProposal i result = some m' ∧ Exclusive m' := by
  unfold ProposalManager.takeActiveProposal
  split
  · exact ⟨m, rfl, h⟩
  · rename_i task htask
    obtain ⟨hbuilding, rfl, hactive⟩ := h.building_eq_singleton htask
    rw [hactive]
    refine ⟨_, rfl, ⟨by simp [hbuilding], fun t ht => ?_⟩⟩
    rcases List.mem_append.mp ht with ht | ht
    · exact h.marking_eq t ht
    · rw [List.mem_singleton.mp ht]

theorem Exclusive.insertDoneProposal {m : ProposalManager ρ} (h : Exclusive m) (i : Nat) :
    Exclusive (m.insertDoneProposal i) := by
  unfold ProposalManager.insertDoneProposal
  split
  · exact h
  · exact ⟨h.building_eq, fun t ht => h.marking_eq t (List.mem_of_mem_eraseIdx ht)⟩

/-- Whether an input starts a height. -/
def Input.isStartHeight : Input ρ → Bool
  | .startHeight _ => true
  | _ => false

/-- **One step keeps the bookkeeping exact**, unless it starts a height while a task builds. -/
theorem Exclusive.step {m : ProposalManager ρ} (h : Exclusive m) (input : Input ρ)
    (hinput : input.isStartHeight → m.building = []) :
    ∃ m', m.step input = some m' ∧ Exclusive m' := by
  cases input with
  | startHeight height => exact ⟨_, rfl, h.startHeight (hinput rfl) height⟩
  | buildBlockProposal proposalId => exact ⟨_, rfl, h.buildBlockProposal proposalId⟩
  | takeProposalResult proposalId => exact ⟨_, rfl, h.takeProposalResult proposalId⟩
  | getDoneProposalCommitment _ => exact ⟨_, rfl, h⟩
  | builderDone i result => exact h.takeActiveProposal i result
  | fileResult i => exact ⟨_, rfl, h.insertDoneProposal i⟩

/-- **Between two heights, any interleaving of calls and task steps is race-free**: no task
panics, at most one builds, and each files its result under the proposal it was started for. -/
theorem Exclusive.run {m : ProposalManager ρ} (h : Exclusive m) (inputs : List (Input ρ))
    (hinputs : ∀ input ∈ inputs, input.isStartHeight = false) :
    ∃ m', m.run inputs = some m' ∧ Exclusive m' := by
  induction inputs generalizing m with
  | nil => exact ⟨m, rfl, h⟩
  | cons input inputs ih =>
    have hinput := hinputs input List.mem_cons_self
    obtain ⟨m₁, hstep, h₁⟩ := h.step input fun hstart => by simp [hinput] at hstart
    obtain ⟨m', hrun, h'⟩ :=
      ih h₁ fun input' hmem => hinputs input' (List.mem_cons_of_mem _ hmem)
    exact ⟨m', by simp [ProposalManager.run, hstep, hrun], h'⟩

end ProposalManager

/-! ## 3. A new height with a task still building -/

/-- Height 0 is started and proposal 1 built; height 0 is started again and proposal 2 built;
the first task's builder finishes with 11 and files it; then the second's finishes with 22. -/
def restartedHeightRun : List (ProposalManager.Input Nat) :=
  [.startHeight 0, .buildBlockProposal 1, .startHeight 0, .buildBlockProposal 2,
    .builderDone 0 11, .fileResult 0, .builderDone 0 22]

/-- Two tasks build at once, the result of proposal 1's task is filed under proposal 2, and the
second task panics on the empty slot. -/
theorem proposalManager_files_result_under_newer_id :
    ((ProposalManager.new 0 : ProposalManager Nat).run (restartedHeightRun.take 4)).map
        (fun m => m.building.map (·.startedFor)) = some [1, 2] ∧
      ((ProposalManager.new 0 : ProposalManager Nat).run (restartedHeightRun.take 6)).map
        (fun m => m.doneProposals.get 2) = some (some 11) ∧
      (ProposalManager.new 0 : ProposalManager Nat).run restartedHeightRun = none := by
  decide

end Sequencer.Batcher
