/-
# The Tendermint state machine (`papyrus_consensus`: `state_machine.rs`)

`StateMachine` runs one height of Tendermint (Algorithm 1 of the paper the source cites) for one
validator.  `handle_event` queues an event (a proposal, a vote, a timeout, or the answer to a
request for a proposal) and `handle_enqueued_events` handles the queue one event at a time: the
event is stored or counted (`handle_event_internal`), and then the upon rules of its round are
checked.  What a rule sends is both returned and, for proposals and votes, queued again: the
machine counts its own votes the way it counts a peer's.  A decision, or a request for a proposal,
ends the call; while such a request is open every other event waits in the queue.

The model keeps the source's shape:
* the maps of the source are functions of the round (`proposals`), and the vote counters of a
  round the list of the values voted in it, so that a count is `List.count` and the sum of a
  round's counters its length;
* the sets of rounds are lists;
* `advance_to_step` re-enters the upon rules with a later step.  The rules are defined with the
  depth they may still re-enter (`currentRoundUponsFrom`): the step moves forward at most twice
  in a round, so `currentRoundUpons` starts from depth 3;
* the loop of `handle_enqueued_events` handles at most `fuel` events, and what is left stays in
  the queue;
* a failed `assert!` and the `unimplemented!` are errors carrying the source's message;
* rounds are `u32` and `round + 1` wraps, as it does in a release build.
-/
import Mathlib.Logic.Function.Basic

namespace Sequencer.Consensus

/-! ## 1. Events and state -/

abbrev Round := UInt32

/-- `ValidatorId`, a contract address. -/
abbrev ValidatorId := Nat

/-- `ProposalContentId`, a block hash. -/
abbrev ProposalContentId := Nat

/-- `StateMachineEvent`. -/
inductive StateMachineEvent
  | getProposal (proposalId : Option ProposalContentId) (round : Round)
  | proposal (proposalId : Option ProposalContentId) (round : Round) (validRound : Option Round)
  | prevote (proposalId : Option ProposalContentId) (round : Round)
  | precommit (proposalId : Option ProposalContentId) (round : Round)
  | decision (proposalId : ProposalContentId) (round : Round)
  | timeoutPropose (round : Round)
  | timeoutPrevote (round : Round)
  | timeoutPrecommit (round : Round)
  deriving DecidableEq, Repr

/-- `Step`. -/
inductive Step
  | propose
  | prevote
  | precommit
  deriving DecidableEq, Repr

/-- `StateMachine`.  `prevotes r` and `precommits r` hold one entry per vote counted in round
`r`. -/
structure StateMachine where
  id : ValidatorId
  round : Round
  step : Step
  quorum : Nat
  roundSkipThreshold : Nat
  proposals : Round → Option (Option ProposalContentId × Option Round)
  prevotes : Round → List (Option ProposalContentId)
  precommits : Round → List (Option ProposalContentId)
  awaitingGetProposal : Bool
  eventsQueue : List StateMachineEvent
  lockedValueRound : Option (ProposalContentId × Round)
  validValueRound : Option (ProposalContentId × Round)
  prevoteQuorum : List Round
  mixedPrevoteQuorum : List Round
  mixedPrecommitQuorum : List Round

/-- `StateMachine::new`: quorum `2n/3 + 1` and round-skip threshold `n/3 + 1` of the total
weight `n`. -/
def StateMachine.new (id : ValidatorId) (totalWeight : Nat) : StateMachine where
  id := id
  round := 0
  step := .propose
  quorum := 2 * totalWeight / 3 + 1
  roundSkipThreshold := totalWeight / 3 + 1
  proposals := fun _ => none
  prevotes := fun _ => []
  precommits := fun _ => []
  awaitingGetProposal := false
  eventsQueue := []
  lockedValueRound := none
  validValueRound := none
  prevoteQuorum := []
  mixedPrevoteQuorum := []
  mixedPrecommitQuorum := []

/-- What one rule, or one handler, does: the state it leaves and the events it sends. -/
abbrev Transition := StateMachine → StateMachine × List StateMachineEvent

/-- Two rules one after the other, the events of both sent in order. -/
def Transition.andThen (f g : Transition) : Transition := fun s =>
  ((g (f s).1).1, (f s).2 ++ (g (f s).1).2)

/-! ## 2. The upon rules -/

/-- `round_has_enough_votes`: the votes of a round, whatever their value. -/
def roundHasEnoughVotes (votes : Round → List (Option ProposalContentId)) (round : Round)
    (threshold : Nat) : Bool :=
  threshold ≤ (votes round).length

/-- `value_has_enough_votes`. -/
def valueHasEnoughVotes (votes : Round → List (Option ProposalContentId)) (round : Round)
    (value : Option ProposalContentId) (threshold : Nat) : Bool :=
  threshold ≤ (votes round).count value

/-- `upon_new_proposal` (LOC 22): prevote a new proposal of the round unless locked on another
value. -/
def uponNewProposal (advanceToStep : StateMachine → Step → StateMachine × List StateMachineEvent) :
    Transition := fun s =>
  if s.step ≠ .propose then (s, []) else
  match s.proposals s.round with
  | none => (s, [])
  | some (proposalId, validRound) =>
    if validRound.isSome then (s, []) else
    let vote :=
      if proposalId.any (fun v => s.lockedValueRound.all fun (lockedValue, _) => v == lockedValue)
      then proposalId else none
    let next := advanceToStep s .prevote
    (next.1, .prevote vote s.round :: next.2)

/-- `upon_reproposal` (LOC 28): prevote a reproposal whose valid round has a prevote quorum,
unless locked on another value in a later round. -/
def uponReproposal (advanceToStep : StateMachine → Step → StateMachine × List StateMachineEvent) :
    Transition := fun s =>
  if s.step ≠ .propose then (s, []) else
  match s.proposals s.round with
  | some (proposalId, some validRound) =>
    if s.round ≤ validRound then (s, []) else
    if !valueHasEnoughVotes s.prevotes validRound proposalId s.quorum then (s, []) else
    let vote :=
      if proposalId.any (fun v => s.lockedValueRound.all fun (lockedValue, lockedRound) =>
          lockedRound ≤ validRound || lockedValue == v)
      then proposalId else none
    let next := advanceToStep s .prevote
    (next.1, .prevote vote s.round :: next.2)
  | _ => (s, [])

/-- `maybe_initiate_timeout_prevote` (LOC 34): the first time the round has a quorum of
prevotes. -/
def maybeInitiateTimeoutPrevote : Transition := fun s =>
  if s.step ≠ .prevote then (s, []) else
  if !roundHasEnoughVotes s.prevotes s.round s.quorum then (s, []) else
  if s.round ∈ s.mixedPrevoteQuorum then (s, []) else
  ({ s with mixedPrevoteQuorum := s.round :: s.mixedPrevoteQuorum }, [.timeoutPrevote s.round])

/-- `upon_prevote_quorum` (LOC 36): the first time the proposal of the round has a prevote
quorum, it becomes the valid value, and, at the prevote step, the locked value and the
precommit. -/
def uponPrevoteQuorum (advanceToStep : StateMachine → Step → StateMachine × List StateMachineEvent) :
    Transition := fun s =>
  if s.step = .propose then (s, []) else
  match s.proposals s.round with
  | some (some proposalId, _) =>
    if !valueHasEnoughVotes s.prevotes s.round (some proposalId) s.quorum then (s, []) else
    if s.round ∈ s.prevoteQuorum then (s, []) else
    let s := { s with prevoteQuorum := s.round :: s.prevoteQuorum
                      validValueRound := some (proposalId, s.round) }
    if s.step ≠ .prevote then (s, []) else
    let s := { s with lockedValueRound := some (proposalId, s.round) }
    let next := advanceToStep s .precommit
    (next.1, .precommit (some proposalId) s.round :: next.2)
  | _ => (s, [])

/-- `upon_nil_prevote_quorum` (LOC 44). -/
def uponNilPrevoteQuorum (advanceToStep : StateMachine → Step → StateMachine × List StateMachineEvent) :
    Transition := fun s =>
  if s.step ≠ .prevote then (s, []) else
  if !valueHasEnoughVotes s.prevotes s.round none s.quorum then (s, []) else
  let next := advanceToStep s .precommit
  (next.1, .precommit none s.round :: next.2)

/-- `maybe_initiate_timeout_precommit` (LOC 47): the first time the round has a quorum of
precommits. -/
def maybeInitiateTimeoutPrecommit : Transition := fun s =>
  if !roundHasEnoughVotes s.precommits s.round s.quorum then (s, []) else
  if s.round ∈ s.mixedPrecommitQuorum then (s, []) else
  ({ s with mixedPrecommitQuorum := s.round :: s.mixedPrecommitQuorum },
    [.timeoutPrecommit s.round])

/-- `upon_decision` (LOC 49): a quorum of precommits for the proposal of a round. -/
def uponDecision (s : StateMachine) (round : Round) : List StateMachineEvent :=
  match s.proposals round with
  | some (some proposalId, _) =>
    if valueHasEnoughVotes s.precommits round (some proposalId) s.quorum then
      [.decision proposalId round]
    else []
  | _ => []

/-- `current_round_upons`, which `advance_to_step` re-enters at depth `n`. -/
def currentRoundUponsFrom : Nat → Transition
  | 0 => fun s => (s, [])
  | n + 1 =>
    let advanceToStep := fun (s : StateMachine) (step : Step) => currentRoundUponsFrom n { s with step }
    (uponNewProposal advanceToStep).andThen <|
    (uponReproposal advanceToStep).andThen <|
    maybeInitiateTimeoutPrevote.andThen <|
    (uponPrevoteQuorum advanceToStep).andThen <|
    (uponNilPrevoteQuorum advanceToStep).andThen <|
    maybeInitiateTimeoutPrecommit.andThen fun s => (s, uponDecision s s.round)

/-- `current_round_upons`. -/
def currentRoundUpons : Transition := currentRoundUponsFrom 3

/-- `advance_to_step`: a later step of the round, and its upon rules. -/
def advanceToStep (s : StateMachine) (step : Step) : StateMachine × List StateMachineEvent :=
  currentRoundUpons { s with step }

/-- `past_round_upons`: a vote of an earlier round can complete the valid round of a reproposal,
or a decision of that round. -/
def pastRoundUpons (round : Round) : Transition :=
  (uponReproposal advanceToStep).andThen fun s => (s, uponDecision s round)

/-! ## 3. Rounds -/

section Rounds

variable (leaderFn : Round → ValidatorId)

/-- `advance_to_round` (LOC 11): the leader proposes its valid value or asks for a proposal (and
checks no rule while it waits); any other validator starts its propose timeout. -/
def advanceToRound (round : Round) : Transition := fun s =>
  let s := { s with round, step := .propose }
  if s.id = leaderFn s.round then
    match s.validValueRound with
    | some (proposalId, validRound) =>
      let next := currentRoundUpons s
      (next.1, .proposal (some proposalId) s.round (some validRound) :: next.2)
    | none => ({ s with awaitingGetProposal := true }, [.getProposal none s.round])
  else
    let next := currentRoundUpons s
    (next.1, .timeoutPropose s.round :: next.2)

/-- `maybe_advance_to_round` (LOC 55): a later round with enough votes of either kind. -/
def maybeAdvanceToRound (round : Round) : Transition := fun s =>
  if roundHasEnoughVotes s.prevotes round s.roundSkipThreshold ||
      roundHasEnoughVotes s.precommits round s.roundSkipThreshold then
    advanceToRound leaderFn round s
  else (s, [])

/-- `map_round_to_upons`. -/
def mapRoundToUpons (round : Round) : Transition := fun s =>
  if round < s.round then pastRoundUpons round s
  else if round = s.round then currentRoundUpons s
  else maybeAdvanceToRound leaderFn round s

/-! ## 4. Handling one event -/

/-- `handle_get_proposal`. -/
def handleGetProposal (s : StateMachine) (proposalId : Option ProposalContentId) (round : Round) :
    Except String (StateMachine × List StateMachineEvent) :=
  if !s.awaitingGetProposal then .error "assertion failed: self.awaiting_get_proposal"
  else if round ≠ s.round then .error "assertion failed: round == self.round"
  else if proposalId.isNone then .error "SHC should pass a valid proposal content id"
  else .ok ({ s with awaitingGetProposal := false }, [.proposal proposalId round none])

/-- `handle_proposal`: a proposal of a peer or of this validator. -/
def handleProposal (s : StateMachine) (proposalId : Option ProposalContentId) (round : Round)
    (validRound : Option Round) : Except String (StateMachine × List StateMachineEvent) :=
  match s.proposals round with
  | some _ => .error "SHC should handle conflicts & replays"
  | none =>
    .ok (mapRoundToUpons leaderFn round
      { s with proposals := Function.update s.proposals round (some (proposalId, validRound)) })

/-- `handle_timeout_propose`. -/
def handleTimeoutPropose (round : Round) : Transition := fun s =>
  if s.step ≠ .propose ∨ round ≠ s.round then (s, []) else
  let next := advanceToStep s .prevote
  (next.1, .prevote none round :: next.2)

/-- `handle_prevote`: a prevote of a peer or of this validator. -/
def handlePrevote (proposalId : Option ProposalContentId) (round : Round) : Transition := fun s =>
  mapRoundToUpons leaderFn round
    { s with prevotes := Function.update s.prevotes round (proposalId :: s.prevotes round) }

/-- `handle_timeout_prevote`. -/
def handleTimeoutPrevote (round : Round) : Transition := fun s =>
  if s.step ≠ .prevote ∨ round ≠ s.round then (s, []) else
  let next := advanceToStep s .precommit
  (next.1, .precommit none round :: next.2)

/-- `handle_precommit`: a precommit of a peer or of this validator. -/
def handlePrecommit (proposalId : Option ProposalContentId) (round : Round) : Transition := fun s =>
  mapRoundToUpons leaderFn round
    { s with precommits := Function.update s.precommits round (proposalId :: s.precommits round) }

/-- `handle_timeout_precommit`: the next round, `round + 1` in `u32`. -/
def handleTimeoutPrecommit (round : Round) : Transition := fun s =>
  if round ≠ s.round then (s, []) else advanceToRound leaderFn (round + 1) s

/-- `handle_event_internal`. -/
def handleEventInternal (s : StateMachine) :
    StateMachineEvent → Except String (StateMachine × List StateMachineEvent)
  | .getProposal proposalId round => handleGetProposal s proposalId round
  | .proposal proposalId round validRound => handleProposal leaderFn s proposalId round validRound
  | .prevote proposalId round => .ok (handlePrevote leaderFn proposalId round s)
  | .precommit proposalId round => .ok (handlePrecommit leaderFn proposalId round s)
  | .decision _ _ =>
    .error "not implemented: If the caller knows of a decision, it can just drop the state machine."
  | .timeoutPropose round => .ok (handleTimeoutPropose round s)
  | .timeoutPrevote round => .ok (handleTimeoutPrevote round s)
  | .timeoutPrecommit round => .ok (handleTimeoutPrecommit leaderFn round s)

/-! ## 5. The queue -/

/-- The inner loop of `handle_enqueued_events` over what one event produced: proposals and votes
are sent and queued again, a decision or a request for a proposal is sent and ends the call (what
follows it is dropped), a timeout is sent.  It returns the queue, what is sent, and whether the
call ends. -/
def routeEvents : List StateMachineEvent → List StateMachineEvent →
    List StateMachineEvent × List StateMachineEvent × Bool
  | [], queue => (queue, [], false)
  | e :: rest, queue =>
    match e with
    | .proposal .. | .prevote .. | .precommit .. =>
      let (queue', output, stop) := routeEvents rest (queue ++ [e])
      (queue', e :: output, stop)
    | .decision .. | .getProposal .. => (queue, [e], true)
    | _ =>
      let (queue', output, stop) := routeEvents rest queue
      (queue', e :: output, stop)

/-- `handle_enqueued_events`, handling at most `fuel` events. -/
def handleEnqueuedEvents : Nat → StateMachine → Except String (StateMachine × List StateMachineEvent)
  | 0, s => .ok (s, [])
  | fuel + 1, s =>
    match s.eventsQueue with
    | [] => .ok (s, [])
    | event :: rest => do
      let (s₁, resultant) ← handleEventInternal leaderFn { s with eventsQueue := rest } event
      let (queue, output, stop) := routeEvents resultant s₁.eventsQueue
      if stop then return ({ s₁ with eventsQueue := queue }, output)
      let (s₂, output₂) ← handleEnqueuedEvents fuel { s₁ with eventsQueue := queue }
      return (s₂, output ++ output₂)

/-- `handle_event`: while a proposal is awaited, only its answer for the current round is handled,
first; any other event waits in the queue. -/
def StateMachine.handleEvent (fuel : Nat) (s : StateMachine) (event : StateMachineEvent) :
    Except String (StateMachine × List StateMachineEvent) :=
  if s.awaitingGetProposal then
    match event with
    | .getProposal _ round =>
      if round = s.round then
        handleEnqueuedEvents leaderFn fuel { s with eventsQueue := event :: s.eventsQueue }
      else .ok ({ s with eventsQueue := s.eventsQueue ++ [event] }, [])
    | _ => .ok ({ s with eventsQueue := s.eventsQueue ++ [event] }, [])
  else handleEnqueuedEvents leaderFn fuel { s with eventsQueue := s.eventsQueue ++ [event] }

/-- `start`: round 0. -/
def StateMachine.start (s : StateMachine) : StateMachine × List StateMachineEvent :=
  advanceToRound leaderFn 0 s

/-- A caller's calls of `handle_event`, one per event: the state after the last call and the
outputs of all calls, concatenated; the first panic ends the run. -/
def StateMachine.run (fuel : Nat) :
    StateMachine → List StateMachineEvent → Except String (StateMachine × List StateMachineEvent)
  | s, [] => .ok (s, [])
  | s, event :: events => do
    let (s₁, output) ← s.handleEvent leaderFn fuel event
    let (s₂, output₂) ← StateMachine.run fuel s₁ events
    return (s₂, output ++ output₂)

end Rounds

/-! ## 6. The branches of the handlers

Each lemma names one branch, with the entered state written as the definition writes it, so that
proofs never unfold the upon rules. -/

section Equations

variable (leaderFn : Round → ValidatorId) {s : StateMachine} {round : Round}

theorem advanceToRound_of_leader_of_valid {proposalId : ProposalContentId} {validRound : Round}
    (hleader : s.id = leaderFn round) (hvalid : s.validValueRound = some (proposalId, validRound)) :
    advanceToRound leaderFn round s =
      ((currentRoundUpons { s with round, step := .propose }).1,
        .proposal (some proposalId) round (some validRound) ::
          (currentRoundUpons { s with round, step := .propose }).2) := by
  unfold advanceToRound
  dsimp only
  rw [if_pos hleader, hvalid]

theorem advanceToRound_of_leader_of_none (hleader : s.id = leaderFn round)
    (hvalid : s.validValueRound = none) :
    advanceToRound leaderFn round s =
      ({ s with round, step := .propose, awaitingGetProposal := true }, [.getProposal none round]) := by
  unfold advanceToRound
  dsimp only
  rw [if_pos hleader, hvalid]

theorem advanceToRound_of_not_leader (hleader : s.id ≠ leaderFn round) :
    advanceToRound leaderFn round s =
      ((currentRoundUpons { s with round, step := .propose }).1,
        .timeoutPropose round :: (currentRoundUpons { s with round, step := .propose }).2) := by
  unfold advanceToRound
  dsimp only
  rw [if_neg hleader]

theorem mapRoundToUpons_of_lt (h : round < s.round) :
    mapRoundToUpons leaderFn round s = pastRoundUpons round s :=
  if_pos h

theorem mapRoundToUpons_of_eq (h : round = s.round) :
    mapRoundToUpons leaderFn round s = currentRoundUpons s := by
  unfold mapRoundToUpons
  rw [if_neg (fun hlt => UInt32.lt_irrefl _ (h ▸ hlt)), if_pos h]

theorem mapRoundToUpons_of_gt (h : s.round < round) :
    mapRoundToUpons leaderFn round s = maybeAdvanceToRound leaderFn round s := by
  unfold mapRoundToUpons
  rw [if_neg (fun hlt => UInt32.lt_irrefl _ (UInt32.lt_trans h hlt)),
    if_neg (fun heq => UInt32.lt_irrefl _ (heq ▸ h))]

theorem handleTimeoutPrecommit_of_ne (h : round ≠ s.round) :
    handleTimeoutPrecommit leaderFn round s = (s, []) :=
  if_pos h

theorem handleTimeoutPrecommit_of_eq (h : round = s.round) :
    handleTimeoutPrecommit leaderFn round s = advanceToRound leaderFn (round + 1) s :=
  if_neg (not_not.mpr h)

end Equations

end Sequencer.Consensus
