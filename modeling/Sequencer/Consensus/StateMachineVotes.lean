/-
# What the state machine sends: one proposal and one vote of each kind per round

A Tendermint validator must not equivocate: in any round it sends at most one proposal, one
prevote and one precommit.  `StateMachine` sends a vote only as its step moves forward (propose to
prevote, prevote to precommit), the step goes back to propose only when the round moves forward,
and a proposal goes out only as a round is entered or as the awaited proposal arrives.

`SentWithin s sent` says that what was sent (`sent`, the concatenated output) is within what the
state `s` allows: one of each in a past round, in the current round what its step and its open
request allow, nothing in a later one.  The upon rules keep the round and account for their votes
with the step (`WithinRound`), entering a later round only widens what is allowed, and so every
call of `handle_event` keeps `SentWithin` and moves the round, the locked value and the valid
value only forward (`handleEvent_advances`).

The exception is `round + 1` in `handle_timeout_precommit`: at round `u32::MAX` it wraps to 0, and
the machine runs round 0 again (`stateMachine_prevotes_twice_after_round_wrap`).  Everything else
holds for every run whose inputs are not that one timeout (`run_sends_once_per_round`).
-/
import Sequencer.Consensus.StateMachine
import Mathlib.Data.List.Count
import Sequencer.Lib.Run

namespace Sequencer.Consensus

/-! ## 1. What was sent -/

/-- `u32::MAX`, the last round. -/
def roundMax : Round := 4294967295

namespace StateMachineEvent

/-- The round of a prevote. -/
def prevoteRoundOf : StateMachineEvent → Option Round
  | .prevote _ round => some round
  | _ => none

/-- The round of a precommit. -/
def precommitRoundOf : StateMachineEvent → Option Round
  | .precommit _ round => some round
  | _ => none

/-- The round of a proposal. -/
def proposalRoundOf : StateMachineEvent → Option Round
  | .proposal _ round _ => some round
  | _ => none

/-- A proposal or a vote: what `handle_enqueued_events` queues again. -/
def isMessage : StateMachineEvent → Bool
  | .proposal .. | .prevote .. | .precommit .. => true
  | _ => false

/-- A decision or a request for a proposal: what ends a call. -/
def endsCall : StateMachineEvent → Bool
  | .decision .. | .getProposal .. => true
  | _ => false

end StateMachineEvent

/-- The rounds of the prevotes among some events. -/
def prevoteRounds (events : List StateMachineEvent) : List Round :=
  events.filterMap StateMachineEvent.prevoteRoundOf

/-- The rounds of the precommits among some events. -/
def precommitRounds (events : List StateMachineEvent) : List Round :=
  events.filterMap StateMachineEvent.precommitRoundOf

/-- The rounds of the proposals among some events. -/
def proposalRounds (events : List StateMachineEvent) : List Round :=
  events.filterMap StateMachineEvent.proposalRoundOf

@[simp] theorem prevoteRounds_nil : prevoteRounds [] = [] := rfl
@[simp] theorem precommitRounds_nil : precommitRounds [] = [] := rfl
@[simp] theorem proposalRounds_nil : proposalRounds [] = [] := rfl

@[simp] theorem prevoteRounds_append (l l' : List StateMachineEvent) :
    prevoteRounds (l ++ l') = prevoteRounds l ++ prevoteRounds l' :=
  List.filterMap_append

@[simp] theorem precommitRounds_append (l l' : List StateMachineEvent) :
    precommitRounds (l ++ l') = precommitRounds l ++ precommitRounds l' :=
  List.filterMap_append

@[simp] theorem proposalRounds_append (l l' : List StateMachineEvent) :
    proposalRounds (l ++ l') = proposalRounds l ++ proposalRounds l' :=
  List.filterMap_append

@[simp] theorem prevoteRounds_cons (e : StateMachineEvent) (l : List StateMachineEvent) :
    prevoteRounds (e :: l) = (e.prevoteRoundOf.map fun r => [r]).getD [] ++ prevoteRounds l := by
  cases e <;> rfl

@[simp] theorem precommitRounds_cons (e : StateMachineEvent) (l : List StateMachineEvent) :
    precommitRounds (e :: l) = (e.precommitRoundOf.map fun r => [r]).getD [] ++ precommitRounds l := by
  cases e <;> rfl

@[simp] theorem proposalRounds_cons (e : StateMachineEvent) (l : List StateMachineEvent) :
    proposalRounds (e :: l) = (e.proposalRoundOf.map fun r => [r]).getD [] ++ proposalRounds l := by
  cases e <;> rfl

/-- Whether a step is past the prevote of its round. -/
def Step.votedPrevote : Step → Nat
  | .propose => 0
  | _ => 1

/-- Whether a step is past the precommit of its round. -/
def Step.votedPrecommit : Step → Nat
  | .precommit => 1
  | _ => 0

/-- How many messages of a kind may have been sent in round `r`, at round `round`: one in a past
round, `current` in the current round, none in a later round. -/
def allowedIn (round : Round) (current : Nat) (r : Round) : Nat :=
  if r < round then 1 else if r = round then current else 0

namespace StateMachine

/-- The prevotes a state allows: one in the current round once past its propose step. -/
def prevotesAllowed (s : StateMachine) : Round → Nat :=
  allowedIn s.round s.step.votedPrevote

/-- The precommits a state allows: one in the current round at its precommit step. -/
def precommitsAllowed (s : StateMachine) : Round → Nat :=
  allowedIn s.round s.step.votedPrecommit

/-- The proposals a state allows: none in the current round while its proposal is awaited. -/
def proposalsAllowed (s : StateMachine) : Round → Nat :=
  allowedIn s.round (if s.awaitingGetProposal then 0 else 1)

end StateMachine

theorem allowedIn_le_one {round : Round} {current : Nat} (h : current ≤ 1) (r : Round) :
    allowedIn round current r ≤ 1 := by
  unfold allowedIn
  split_ifs <;> omega

theorem allowedIn_of_lt {round r : Round} {current : Nat} (h : round < r) :
    allowedIn round current r = 0 := by
  have hnot : ¬ r < round := fun h' => UInt32.lt_irrefl r (UInt32.lt_trans h' h)
  have hne : r ≠ round := fun h' => UInt32.lt_irrefl r (h' ▸ h)
  simp [allowedIn, hnot, hne]

/-- Entering a later round allows at least as much in every round. -/
theorem allowedIn_le_of_lt {round round' : Round} {current current' : Nat} (hlt : round < round')
    (hcurrent : current ≤ 1) (r : Round) : allowedIn round current r ≤ allowedIn round' current' r := by
  unfold allowedIn
  by_cases h₁ : r < round
  · simp [h₁, UInt32.lt_trans h₁ hlt]
  by_cases h₂ : r = round
  · subst h₂
    simp [hlt, hcurrent]
  · simp [h₁, h₂]

/-- Sending `out` in the current round, at most what the current round newly allows. -/
theorem count_append_le_allowedIn {sent out : List Round} {round : Round} {current current' : Nat}
    (hsent : ∀ r, sent.count r ≤ allowedIn round current r) (hout : ∀ r ∈ out, r = round)
    (hlength : out.length + current ≤ current') (r : Round) :
    (sent ++ out).count r ≤ allowedIn round current' r := by
  have hs := hsent r
  rw [List.count_append]
  by_cases hr : r = round
  · subst hr
    have hall : out.count r = out.length := List.count_eq_length.mpr fun b hb => (hout b hb).symm
    simp only [allowedIn, UInt32.lt_irrefl, if_false, if_true] at hs ⊢
    omega
  · have hnone : out.count r = 0 := List.count_eq_zero.mpr fun hm => hr (hout r hm)
    simp only [allowedIn, hr, if_false] at hs ⊢
    omega

/-- What was sent is within what the state allows, and the locked and valid values are of past or
current rounds. -/
structure SentWithin (s : StateMachine) (sent : List StateMachineEvent) : Prop where
  prevotes : ∀ r, (prevoteRounds sent).count r ≤ s.prevotesAllowed r
  precommits : ∀ r, (precommitRounds sent).count r ≤ s.precommitsAllowed r
  proposals : ∀ r, (proposalRounds sent).count r ≤ s.proposalsAllowed r
  locked : ∀ p ∈ s.lockedValueRound, p.2 ≤ s.round
  valid : ∀ p ∈ s.validValueRound, p.2 ≤ s.round

/-! ## 2. Within a round -/

/-- A transition that keeps the round and the open request, sends its votes in that round, one
for each move of the step, no proposal, and locks or validates only values of that round. -/
structure WithinRound (s s' : StateMachine) (out : List StateMachineEvent) : Prop where
  round : s'.round = s.round
  awaiting : s'.awaitingGetProposal = s.awaitingGetProposal
  queue : s'.eventsQueue = s.eventsQueue
  prevotes_round : ∀ r ∈ prevoteRounds out, r = s.round
  prevotes_length : (prevoteRounds out).length + s.step.votedPrevote = s'.step.votedPrevote
  precommits_round : ∀ r ∈ precommitRounds out, r = s.round
  precommits_length :
    (precommitRounds out).length + s.step.votedPrecommit = s'.step.votedPrecommit
  proposals : proposalRounds out = []
  locked : s'.lockedValueRound = s.lockedValueRound ∨ ∃ v, s'.lockedValueRound = some (v, s.round)
  valid : s'.validValueRound = s.validValueRound ∨ ∃ v, s'.validValueRound = some (v, s.round)

namespace WithinRound

theorem refl (s : StateMachine) : WithinRound s s [] where
  round := rfl
  awaiting := rfl
  queue := rfl
  prevotes_round := by simp
  prevotes_length := by simp
  precommits_round := by simp
  precommits_length := by simp
  proposals := rfl
  locked := .inl rfl
  valid := .inl rfl

theorem trans {s₁ s₂ s₃ : StateMachine} {o₁ o₂ : List StateMachineEvent}
    (h₁ : WithinRound s₁ s₂ o₁) (h₂ : WithinRound s₂ s₃ o₂) : WithinRound s₁ s₃ (o₁ ++ o₂) where
  round := h₂.round.trans h₁.round
  awaiting := h₂.awaiting.trans h₁.awaiting
  queue := h₂.queue.trans h₁.queue
  prevotes_round := by
    intro r hr
    rcases List.mem_append.mp (by simpa using hr) with hr | hr
    · exact h₁.prevotes_round r hr
    · exact (h₂.prevotes_round r hr).trans h₁.round
  prevotes_length := by
    have := h₁.prevotes_length
    have := h₂.prevotes_length
    simp only [prevoteRounds_append, List.length_append]
    omega
  precommits_round := by
    intro r hr
    rcases List.mem_append.mp (by simpa using hr) with hr | hr
    · exact h₁.precommits_round r hr
    · exact (h₂.precommits_round r hr).trans h₁.round
  precommits_length := by
    have := h₁.precommits_length
    have := h₂.precommits_length
    simp only [precommitRounds_append, List.length_append]
    omega
  proposals := by simp [h₁.proposals, h₂.proposals]
  locked := by
    rcases h₂.locked with h | ⟨v, h⟩
    · rw [h]
      exact h₁.locked
    · exact .inr ⟨v, h.trans (by rw [h₁.round])⟩
  valid := by
    rcases h₂.valid with h | ⟨v, h⟩
    · rw [h]
      exact h₁.valid
    · exact .inr ⟨v, h.trans (by rw [h₁.round])⟩

/-- A change of the state that sends nothing and keeps the round, the step and the request. -/
theorem of_frame {s t : StateMachine} (hround : t.round = s.round) (hstep : t.step = s.step)
    (hawait : t.awaitingGetProposal = s.awaitingGetProposal)
    (hqueue : t.eventsQueue = s.eventsQueue)
    (hlocked : t.lockedValueRound = s.lockedValueRound ∨
      ∃ v, t.lockedValueRound = some (v, s.round))
    (hvalid : t.validValueRound = s.validValueRound ∨ ∃ v, t.validValueRound = some (v, s.round)) :
    WithinRound s t [] where
  round := hround
  awaiting := hawait
  queue := hqueue
  prevotes_round := by simp
  prevotes_length := by simp [hstep]
  precommits_round := by simp
  precommits_length := by simp [hstep]
  proposals := rfl
  locked := hlocked
  valid := hvalid

/-- Sending events that are no proposal and no vote. -/
theorem of_silent {s : StateMachine} {out : List StateMachineEvent}
    (hprevotes : prevoteRounds out = []) (hprecommits : precommitRounds out = [])
    (hproposals : proposalRounds out = []) : WithinRound s s out where
  round := rfl
  awaiting := rfl
  queue := rfl
  prevotes_round := by simp [hprevotes]
  prevotes_length := by simp [hprevotes]
  precommits_round := by simp [hprecommits]
  precommits_length := by simp [hprecommits]
  proposals := hproposals
  locked := .inl rfl
  valid := .inl rfl

/-- The prevote sent as the step moves from propose to prevote. -/
theorem prevote {s s' : StateMachine} {out : List StateMachineEvent} {v : Option ProposalContentId}
    (hstep : s.step = .propose) (h : WithinRound { s with step := .prevote } s' out) :
    WithinRound s s' (.prevote v s.round :: out) where
  round := h.round
  awaiting := h.awaiting
  queue := h.queue
  prevotes_round := by
    intro r hr
    simp only [prevoteRounds_cons, StateMachineEvent.prevoteRoundOf, Option.map_some,
      Option.getD_some, List.singleton_append, List.mem_cons] at hr
    rcases hr with rfl | hr
    · rfl
    · exact h.prevotes_round r hr
  prevotes_length := by
    have := h.prevotes_length
    simp only [Step.votedPrevote] at this
    simp [StateMachineEvent.prevoteRoundOf, hstep, Step.votedPrevote]
    omega
  precommits_round := by simpa [StateMachineEvent.precommitRoundOf] using h.precommits_round
  precommits_length := by
    have := h.precommits_length
    simpa [StateMachineEvent.precommitRoundOf, hstep, Step.votedPrecommit] using this
  proposals := by simpa [StateMachineEvent.proposalRoundOf] using h.proposals
  locked := h.locked
  valid := h.valid

/-- The precommit sent as the step moves from prevote to precommit, the locked and valid values
perhaps set to a value of the round on the way. -/
theorem precommit {s t s' : StateMachine} {out : List StateMachineEvent}
    {v : Option ProposalContentId} (hstep : s.step = .prevote) (ht : WithinRound s t [])
    (h : WithinRound { t with step := .precommit } s' out) :
    WithinRound s s' (.precommit v s.round :: out) := by
  have hround : t.round = s.round := ht.round
  have htstep : t.step = .prevote := by
    have := ht.prevotes_length
    have := ht.precommits_length
    cases hts : t.step <;> simp_all [Step.votedPrevote, Step.votedPrecommit]
  have h' : WithinRound t s' (.precommit v t.round :: out) :=
    { round := h.round
      awaiting := h.awaiting
      queue := h.queue
      prevotes_round := by simpa [StateMachineEvent.prevoteRoundOf] using h.prevotes_round
      prevotes_length := by
        have := h.prevotes_length
        simpa [StateMachineEvent.prevoteRoundOf, htstep, Step.votedPrevote] using this
      precommits_round := by
        intro r hr
        simp only [precommitRounds_cons, StateMachineEvent.precommitRoundOf, Option.map_some,
          Option.getD_some, List.singleton_append, List.mem_cons] at hr
        rcases hr with rfl | hr
        · rfl
        · exact h.precommits_round r hr
      precommits_length := by
        have := h.precommits_length
        simp only [Step.votedPrecommit] at this
        simp [StateMachineEvent.precommitRoundOf, htstep, Step.votedPrecommit]
        omega
      proposals := by simpa [StateMachineEvent.proposalRoundOf] using h.proposals
      locked := h.locked
      valid := h.valid }
  simpa [hround] using ht.trans h'

end WithinRound

/-- A transition of the upon rules' kind, from every state. -/
def Transition.WithinRound (f : Transition) : Prop :=
  ∀ s, Consensus.WithinRound s (f s).1 (f s).2

/-- An `advance_to_step` whose rules stay within the round of the step they are given. -/
def AdvancesWithinRound (advance : StateMachine → Step → StateMachine × List StateMachineEvent) :
    Prop :=
  ∀ s step, WithinRound { s with step } (advance s step).1 (advance s step).2

theorem Transition.WithinRound.andThen {f g : Transition} (hf : f.WithinRound)
    (hg : g.WithinRound) : (f.andThen g).WithinRound :=
  fun s => (hf s).trans (hg (f s).1)

/-! ## 3. The upon rules stay within the round -/

section Upons

variable {advance : StateMachine → Step → StateMachine × List StateMachineEvent}

/-- Sending only timeouts, and recording the round in one of the sets of rounds. -/
theorem WithinRound.of_timeout {s t : StateMachine} {out : List StateMachineEvent}
    (hround : t.round = s.round) (hstep : t.step = s.step)
    (hawait : t.awaitingGetProposal = s.awaitingGetProposal)
    (hqueue : t.eventsQueue = s.eventsQueue) (hlocked : t.lockedValueRound = s.lockedValueRound)
    (hvalid : t.validValueRound = s.validValueRound) (hprevotes : prevoteRounds out = [])
    (hprecommits : precommitRounds out = []) (hproposals : proposalRounds out = []) :
    WithinRound s t out := by
  simpa using (WithinRound.of_frame hround hstep hawait hqueue (.inl hlocked) (.inl hvalid)).trans
    (WithinRound.of_silent (s := t) hprevotes hprecommits hproposals)

theorem uponNewProposal_withinRound (hadvance : AdvancesWithinRound advance) :
    (uponNewProposal advance).WithinRound := by
  intro s
  by_cases hstep : s.step = .propose
  · cases hp : s.proposals s.round with
    | none => simpa [uponNewProposal, hstep, hp] using WithinRound.refl s
    | some p =>
      obtain ⟨proposalId, validRound⟩ := p
      cases validRound with
      | some validRound => simpa [uponNewProposal, hstep, hp] using WithinRound.refl s
      | none =>
        simp only [uponNewProposal, hstep, hp, ne_eq, not_true_eq_false, if_false,
          Option.isSome_none, Bool.false_eq_true]
        exact WithinRound.prevote hstep (hadvance s .prevote)
  · simpa [uponNewProposal, hstep] using WithinRound.refl s

theorem uponReproposal_withinRound (hadvance : AdvancesWithinRound advance) :
    (uponReproposal advance).WithinRound := by
  intro s
  by_cases hstep : s.step = .propose
  · cases hp : s.proposals s.round with
    | none => simpa [uponReproposal, hstep, hp] using WithinRound.refl s
    | some p =>
      obtain ⟨proposalId, validRound⟩ := p
      cases validRound with
      | none => simpa [uponReproposal, hstep, hp] using WithinRound.refl s
      | some validRound =>
        by_cases hlater : s.round ≤ validRound
        · simpa [uponReproposal, hstep, hp, hlater] using WithinRound.refl s
        by_cases hvotes : valueHasEnoughVotes s.prevotes validRound proposalId s.quorum
        · simp only [uponReproposal, hstep, hp, hlater, hvotes, ne_eq, not_true_eq_false,
            if_false, Bool.not_true, Bool.false_eq_true]
          exact WithinRound.prevote hstep (hadvance s .prevote)
        · simpa [uponReproposal, hstep, hp, hlater, hvotes] using WithinRound.refl s
  · simpa [uponReproposal, hstep] using WithinRound.refl s

theorem maybeInitiateTimeoutPrevote_withinRound : maybeInitiateTimeoutPrevote.WithinRound := by
  intro s
  unfold maybeInitiateTimeoutPrevote
  split_ifs
  · exact WithinRound.refl s
  · exact WithinRound.refl s
  · exact WithinRound.refl s
  · exact WithinRound.of_timeout rfl rfl rfl rfl rfl rfl rfl rfl rfl

theorem uponPrevoteQuorum_withinRound (hadvance : AdvancesWithinRound advance) :
    (uponPrevoteQuorum advance).WithinRound := by
  intro s
  by_cases hpropose : s.step = .propose
  · simpa [uponPrevoteQuorum, hpropose] using WithinRound.refl s
  cases hp : s.proposals s.round with
  | none => simpa [uponPrevoteQuorum, hpropose, hp] using WithinRound.refl s
  | some p =>
    obtain ⟨proposalId, validRound⟩ := p
    cases proposalId with
    | none => simpa [uponPrevoteQuorum, hpropose, hp] using WithinRound.refl s
    | some proposalId =>
      by_cases hvotes : valueHasEnoughVotes s.prevotes s.round (some proposalId) s.quorum
      swap
      · simpa [uponPrevoteQuorum, hpropose, hp, hvotes] using WithinRound.refl s
      by_cases hfirst : s.round ∈ s.prevoteQuorum
      · simpa [uponPrevoteQuorum, hpropose, hp, hvotes, hfirst] using WithinRound.refl s
      -- the proposal becomes the valid value whatever the step
      have hvalid : WithinRound s { s with prevoteQuorum := s.round :: s.prevoteQuorum
                                           validValueRound := some (proposalId, s.round) } [] :=
        WithinRound.of_frame rfl rfl rfl rfl (.inl rfl) (.inr ⟨proposalId, rfl⟩)
      by_cases hprevote : s.step = .prevote
      · have hlocked : WithinRound s { s with prevoteQuorum := s.round :: s.prevoteQuorum
                                              validValueRound := some (proposalId, s.round)
                                              lockedValueRound := some (proposalId, s.round) } [] :=
          WithinRound.of_frame rfl rfl rfl rfl (.inr ⟨proposalId, rfl⟩) (.inr ⟨proposalId, rfl⟩)
        simp only [uponPrevoteQuorum, hpropose, hp, hvotes, hfirst, eq_true hprevote, if_false,
          Bool.not_true, Bool.false_eq_true, ne_eq, not_true_eq_false]
        exact WithinRound.precommit hprevote hlocked
          (hadvance { s with prevoteQuorum := s.round :: s.prevoteQuorum
                             validValueRound := some (proposalId, s.round)
                             lockedValueRound := some (proposalId, s.round) } .precommit)
      · simpa [uponPrevoteQuorum, hpropose, hp, hvotes, hfirst, hprevote] using hvalid

theorem uponNilPrevoteQuorum_withinRound (hadvance : AdvancesWithinRound advance) :
    (uponNilPrevoteQuorum advance).WithinRound := by
  intro s
  by_cases hprevote : s.step = .prevote
  · by_cases hvotes : valueHasEnoughVotes s.prevotes s.round none s.quorum
    · simp only [uponNilPrevoteQuorum, hprevote, hvotes, ne_eq, not_true_eq_false, if_false,
        Bool.not_true, Bool.false_eq_true]
      exact WithinRound.precommit hprevote (WithinRound.refl s) (hadvance s .precommit)
    · simpa [uponNilPrevoteQuorum, hprevote, hvotes] using WithinRound.refl s
  · simpa [uponNilPrevoteQuorum, hprevote] using WithinRound.refl s

theorem maybeInitiateTimeoutPrecommit_withinRound : maybeInitiateTimeoutPrecommit.WithinRound := by
  intro s
  unfold maybeInitiateTimeoutPrecommit
  split_ifs
  · exact WithinRound.refl s
  · exact WithinRound.refl s
  · exact WithinRound.of_timeout rfl rfl rfl rfl rfl rfl rfl rfl rfl

/-- `upon_decision` only sends decisions. -/
theorem uponDecision_withinRound (s : StateMachine) (round : Round) :
    WithinRound s s (uponDecision s round) := by
  refine WithinRound.of_silent ?_ ?_ ?_ <;>
  · unfold uponDecision
    split
    · split_ifs <;> rfl
    · rfl

/-- **The upon rules stay within the round**, at any depth. -/
theorem currentRoundUponsFrom_withinRound : ∀ n, (currentRoundUponsFrom n).WithinRound
  | 0 => fun s => WithinRound.refl s
  | n + 1 => by
    have hadvance : AdvancesWithinRound fun s step => currentRoundUponsFrom n { s with step } :=
      fun s step => currentRoundUponsFrom_withinRound n { s with step }
    exact (uponNewProposal_withinRound hadvance).andThen <|
      (uponReproposal_withinRound hadvance).andThen <|
      maybeInitiateTimeoutPrevote_withinRound.andThen <|
      (uponPrevoteQuorum_withinRound hadvance).andThen <|
      (uponNilPrevoteQuorum_withinRound hadvance).andThen <|
      maybeInitiateTimeoutPrecommit_withinRound.andThen fun s => uponDecision_withinRound s s.round

theorem currentRoundUpons_withinRound : currentRoundUpons.WithinRound :=
  currentRoundUponsFrom_withinRound 3

theorem advanceToStep_withinRound : AdvancesWithinRound advanceToStep :=
  fun s step => currentRoundUpons_withinRound { s with step }

theorem pastRoundUpons_withinRound (round : Round) : (pastRoundUpons round).WithinRound :=
  (uponReproposal_withinRound advanceToStep_withinRound).andThen fun s =>
    uponDecision_withinRound s round

end Upons

/-! ## 4. What a state allows -/

/-- A locked or valid value that stays, or moves to a round at or after the old one's and not
after `round`. -/
def LockMoves (old new : Option (ProposalContentId × Round)) (round : Round) : Prop :=
  new = old ∨ ∃ v r, new = some (v, r) ∧ (∀ p ∈ old, p.2 ≤ r) ∧ r ≤ round

theorem LockMoves.refl (old : Option (ProposalContentId × Round)) (round : Round) :
    LockMoves old old round :=
  .inl rfl

theorem LockMoves.trans {a b c : Option (ProposalContentId × Round)} {r₁ r₂ : Round}
    (h₁ : LockMoves a b r₁) (h₂ : LockMoves b c r₂) (hr : r₁ ≤ r₂) : LockMoves a c r₂ := by
  rcases h₂ with rfl | ⟨w, r', rfl, hb, hr'⟩
  · rcases h₁ with rfl | ⟨v, r, rfl, ha, hr₁⟩
    · exact .inl rfl
    · exact .inr ⟨v, r, rfl, ha, UInt32.le_trans hr₁ hr⟩
  · rcases h₁ with rfl | ⟨v, r, rfl, ha, -⟩
    · exact .inr ⟨w, r', rfl, hb, hr'⟩
    · have hvr : r ≤ r' := hb (v, r) rfl
      exact .inr ⟨w, r', rfl, fun p hp => UInt32.le_trans (ha p hp) hvr, hr'⟩

/-- The round, the locked value and the valid value only move forward. -/
structure Moves (s s' : StateMachine) : Prop where
  round_le : s.round ≤ s'.round
  locked : LockMoves s.lockedValueRound s'.lockedValueRound s'.round
  valid : LockMoves s.validValueRound s'.validValueRound s'.round

theorem Moves.refl (s : StateMachine) : Moves s s :=
  ⟨UInt32.le_refl _, .refl _ _, .refl _ _⟩

theorem Moves.trans {s₁ s₂ s₃ : StateMachine} (h₁ : Moves s₁ s₂) (h₂ : Moves s₂ s₃) :
    Moves s₁ s₃ :=
  ⟨UInt32.le_trans h₁.round_le h₂.round_le, h₁.locked.trans h₂.locked h₂.round_le,
    h₁.valid.trans h₂.valid h₂.round_le⟩

/-- Only the round and the locked and valid values of the state before matter. -/
theorem Moves.congr {s t s' : StateMachine} (h : Moves t s') (hround : t.round = s.round)
    (hlocked : t.lockedValueRound = s.lockedValueRound)
    (hvalid : t.validValueRound = s.validValueRound) : Moves s s' :=
  ⟨hround ▸ h.round_le, hlocked ▸ h.locked, hvalid ▸ h.valid⟩

namespace SentWithin

variable {s s' : StateMachine} {sent out : List StateMachineEvent}

/-- Only the round, the step, the open request and the locked and valid values matter. -/
theorem congr {t : StateMachine} (h : SentWithin s sent) (hround : t.round = s.round)
    (hstep : t.step = s.step) (hawait : t.awaitingGetProposal = s.awaitingGetProposal)
    (hlocked : t.lockedValueRound = s.lockedValueRound)
    (hvalid : t.validValueRound = s.validValueRound) : SentWithin t sent where
  prevotes := by simpa [StateMachine.prevotesAllowed, hround, hstep] using h.prevotes
  precommits := by simpa [StateMachine.precommitsAllowed, hround, hstep] using h.precommits
  proposals := by simpa [StateMachine.proposalsAllowed, hround, hawait] using h.proposals
  locked := by simpa [hlocked, hround] using h.locked
  valid := by simpa [hvalid, hround] using h.valid

/-- Less sent is still within. -/
theorem of_sublist {sent' : List StateMachineEvent} (h : SentWithin s sent') (hsub : sent.Sublist sent') :
    SentWithin s sent where
  prevotes r := Nat.le_trans ((hsub.filterMap _).count_le r) (h.prevotes r)
  precommits r := Nat.le_trans ((hsub.filterMap _).count_le r) (h.precommits r)
  proposals r := Nat.le_trans ((hsub.filterMap _).count_le r) (h.proposals r)
  locked := h.locked
  valid := h.valid

/-- Sending what carries no proposal and no vote. -/
theorem append_silent (h : SentWithin s sent) (hprevotes : prevoteRounds out = [])
    (hprecommits : precommitRounds out = []) (hproposals : proposalRounds out = []) :
    SentWithin s (sent ++ out) where
  prevotes := by simpa [hprevotes] using h.prevotes
  precommits := by simpa [hprecommits] using h.precommits
  proposals := by simpa [hproposals] using h.proposals
  locked := h.locked
  valid := h.valid

/-- **The upon rules keep what was sent within what is allowed.** -/
theorem withinRound (h : SentWithin s sent) (hw : WithinRound s s' out) :
    SentWithin s' (sent ++ out) where
  prevotes := by
    have hrounds := count_append_le_allowedIn h.prevotes hw.prevotes_round
      (Nat.le_of_eq hw.prevotes_length)
    simpa [StateMachine.prevotesAllowed, hw.round] using hrounds
  precommits := by
    have hrounds := count_append_le_allowedIn h.precommits hw.precommits_round
      (Nat.le_of_eq hw.precommits_length)
    simpa [StateMachine.precommitsAllowed, hw.round] using hrounds
  proposals := by
    simpa [StateMachine.proposalsAllowed, hw.proposals, hw.round, hw.awaiting] using h.proposals
  locked := by
    rcases hw.locked with hl | ⟨v, hl⟩
    · simpa [hl, hw.round] using h.locked
    · simp [hl, hw.round]
  valid := by
    rcases hw.valid with hl | ⟨v, hl⟩
    · simpa [hl, hw.round] using h.valid
    · simp [hl, hw.round]

theorem moves_of_withinRound (h : SentWithin s sent) (hw : WithinRound s s' out) : Moves s s' where
  round_le := hw.round ▸ UInt32.le_refl _
  locked := by
    rcases hw.locked with hl | ⟨v, hl⟩
    · exact .inl hl
    · exact .inr ⟨v, s.round, hl, h.locked, hw.round ▸ UInt32.le_refl _⟩
  valid := by
    rcases hw.valid with hl | ⟨v, hl⟩
    · exact .inl hl
    · exact .inr ⟨v, s.round, hl, h.valid, hw.round ▸ UInt32.le_refl _⟩

/-- **Entering a later round allows at least as much**, with nothing sent in it yet. -/
theorem enterRound (h : SentWithin s sent) {round : Round} (hlt : s.round < round) :
    SentWithin { s with round, step := .propose } sent where
  prevotes r := Nat.le_trans (h.prevotes r) (allowedIn_le_of_lt hlt (by cases s.step <;> decide) r)
  precommits r := Nat.le_trans (h.precommits r) (allowedIn_le_of_lt hlt (by cases s.step <;> decide) r)
  proposals r := Nat.le_trans (h.proposals r) (allowedIn_le_of_lt hlt (by split <;> decide) r)
  locked p hp := UInt32.le_trans (h.locked p hp) (UInt32.le_of_lt hlt)
  valid p hp := UInt32.le_trans (h.valid p hp) (UInt32.le_of_lt hlt)

/-- A proposal sent in the current round, the first of that round. -/
theorem propose (h : SentWithin s sent) (hnone : (proposalRounds sent).count s.round = 0)
    (hawait : s.awaitingGetProposal = false) (proposalId : Option ProposalContentId)
    (validRound : Option Round) :
    SentWithin s (sent ++ [.proposal proposalId s.round validRound]) where
  prevotes := by simpa [StateMachineEvent.prevoteRoundOf] using h.prevotes
  precommits := by simpa [StateMachineEvent.precommitRoundOf] using h.precommits
  proposals r := by
    by_cases hr : r = s.round
    · subst hr
      simp [StateMachine.proposalsAllowed, allowedIn, UInt32.lt_irrefl, hawait, hnone,
        StateMachineEvent.proposalRoundOf]
    · simpa [StateMachineEvent.proposalRoundOf, List.count_singleton, Ne.symm hr] using h.proposals r
  locked := h.locked
  valid := h.valid

/-- Asking for a proposal in the current round, before any was sent in it. -/
theorem request (h : SentWithin s sent) (hnone : (proposalRounds sent).count s.round = 0) :
    SentWithin { s with awaitingGetProposal := true } (sent ++ [.getProposal none s.round]) where
  prevotes := by simpa [StateMachineEvent.prevoteRoundOf, StateMachine.prevotesAllowed] using h.prevotes
  precommits := by
    simpa [StateMachineEvent.precommitRoundOf, StateMachine.precommitsAllowed] using h.precommits
  proposals r := by
    by_cases hr : r = s.round
    · subst hr
      simp [StateMachineEvent.proposalRoundOf, hnone]
    · have := h.proposals r
      simpa [StateMachineEvent.proposalRoundOf, StateMachine.proposalsAllowed, allowedIn, hr]
        using this
  locked := h.locked
  valid := h.valid

/-- The awaited proposal, sent as it arrives: nothing was sent in the round while it was
awaited. -/
theorem answer (h : SentWithin s sent) (hawait : s.awaitingGetProposal = true)
    (proposalId : Option ProposalContentId) :
    SentWithin { s with awaitingGetProposal := false }
      (sent ++ [.proposal proposalId s.round none]) := by
  have hnone : (proposalRounds sent).count s.round = 0 := by
    have := h.proposals s.round
    simpa [StateMachine.proposalsAllowed, allowedIn, UInt32.lt_irrefl, hawait] using this
  have hopen : SentWithin { s with awaitingGetProposal := false } sent :=
    { prevotes := h.prevotes
      precommits := h.precommits
      proposals := fun r => by
        have := h.proposals r
        by_cases hr : r = s.round
        · subst hr
          simp [hnone]
        · simpa [StateMachine.proposalsAllowed, allowedIn, hr] using this
      locked := h.locked
      valid := h.valid }
  exact hopen.propose hnone rfl proposalId none

/-- Nothing was sent in a round after the current one. -/
theorem proposals_count_eq_zero (h : SentWithin s sent) {round : Round} (hlt : s.round < round) :
    (proposalRounds sent).count round = 0 := by
  have := h.proposals round
  rwa [StateMachine.proposalsAllowed, allowedIn_of_lt hlt, Nat.le_zero] at this

/-- **Once per round**: what a state allows is at most one of each kind in every round. -/
theorem count_le_one (h : SentWithin s sent) (r : Round) :
    (proposalRounds sent).count r ≤ 1 ∧ (prevoteRounds sent).count r ≤ 1 ∧
      (precommitRounds sent).count r ≤ 1 :=
  ⟨Nat.le_trans (h.proposals r) (allowedIn_le_one (by split <;> decide) r),
    Nat.le_trans (h.prevotes r) (allowedIn_le_one (by cases s.step <;> decide) r),
    Nat.le_trans (h.precommits r) (allowedIn_le_one (by cases s.step <;> decide) r)⟩

end SentWithin

/-! ## 5. Handling one event -/

/-- What handling an event does: what was sent stays within what the state allows, the round and
the locked and valid values move forward, the queue is left as it was, and a request for a
proposal, once open, is all that was sent. -/
structure Advances (s s' : StateMachine) (sent out : List StateMachineEvent) : Prop where
  sent : SentWithin s' (sent ++ out)
  moves : Moves s s'
  queue : s'.eventsQueue = s.eventsQueue
  awaiting : s'.awaitingGetProposal = true → out = [.getProposal none s'.round]

/-- Only the round, the locked and valid values and the queue of the state before matter. -/
theorem Advances.congr {s t s' : StateMachine} {sent out : List StateMachineEvent}
    (h : Advances t s' sent out) (hround : t.round = s.round)
    (hlocked : t.lockedValueRound = s.lockedValueRound)
    (hvalid : t.validValueRound = s.validValueRound) (hqueue : t.eventsQueue = s.eventsQueue) :
    Advances s s' sent out where
  sent := h.sent
  moves := h.moves.congr hround hlocked hvalid
  queue := h.queue.trans hqueue
  awaiting := h.awaiting

theorem lt_add_one_of_ne_roundMax {r : Round} (h : r ≠ roundMax) : r < r + 1 := by
  unfold roundMax at h
  grind


theorem handleTimeoutPropose_withinRound (round : Round) : (handleTimeoutPropose round).WithinRound := by
  intro s
  by_cases hc : s.step ≠ .propose ∨ round ≠ s.round
  · rw [show handleTimeoutPropose round s = (s, []) from if_pos hc]
    exact WithinRound.refl s
  · have hstep : s.step = .propose := by simpa using (not_or.mp hc).1
    have hround : round = s.round := by simpa using (not_or.mp hc).2
    rw [show handleTimeoutPropose round s = ((advanceToStep s .prevote).1,
        .prevote none round :: (advanceToStep s .prevote).2) from if_neg hc, hround]
    exact WithinRound.prevote hstep (advanceToStep_withinRound s .prevote)

theorem handleTimeoutPrevote_withinRound (round : Round) : (handleTimeoutPrevote round).WithinRound := by
  intro s
  by_cases hc : s.step ≠ .prevote ∨ round ≠ s.round
  · rw [show handleTimeoutPrevote round s = (s, []) from if_pos hc]
    exact WithinRound.refl s
  · have hstep : s.step = .prevote := by simpa using (not_or.mp hc).1
    have hround : round = s.round := by simpa using (not_or.mp hc).2
    rw [show handleTimeoutPrevote round s = ((advanceToStep s .precommit).1,
        .precommit none round :: (advanceToStep s .precommit).2) from if_neg hc, hround]
    exact WithinRound.precommit hstep (WithinRound.refl s) (advanceToStep_withinRound s .precommit)

section Handlers

variable (leaderFn : Round → ValidatorId) {s s' : StateMachine} {sent out : List StateMachineEvent}

theorem advances_of_withinRound (h : SentWithin s sent) (hw : WithinRound s s' out)
    (hawait : s.awaitingGetProposal = false) : Advances s s' sent out where
  sent := h.withinRound hw
  moves := h.moves_of_withinRound hw
  queue := hw.queue
  awaiting h' := by
    rw [hw.awaiting, hawait] at h'
    cases h'

/-- **Entering a round** in which nothing was proposed yet: a proposal or a request for one, or
the propose timeout, and the upon rules of the new round. -/
theorem advanceToRound_advances_of_entered {round : Round}
    (hentered : SentWithin { s with round, step := .propose } sent)
    (hnone : (proposalRounds sent).count round = 0) (hle : s.round ≤ round)
    (hawait : s.awaitingGetProposal = false) :
    Advances s (advanceToRound leaderFn round s).1 sent (advanceToRound leaderFn round s).2 := by
  have hmoves : Moves s { s with round, step := .propose } := ⟨hle, .refl _ _, .refl _ _⟩
  have hupons := currentRoundUpons_withinRound { s with round, step := .propose }
  -- the upon rules never open a request, so only the leader without a valid value awaits
  have hquiet : (currentRoundUpons { s with round, step := .propose }).1.awaitingGetProposal =
      false :=
    hupons.awaiting.trans hawait
  by_cases hleader : s.id = leaderFn round
  · cases hvalid : s.validValueRound with
    | some p =>
      obtain ⟨proposalId, validRound⟩ := p
      rw [advanceToRound_of_leader_of_valid leaderFn hleader hvalid]
      dsimp only
      have hproposed := hentered.propose hnone hawait (some proposalId) (some validRound)
      refine ⟨?_, hmoves.trans (hentered.moves_of_withinRound hupons), hupons.queue, fun h' => ?_⟩
      · simpa using hproposed.withinRound hupons
      · rw [hquiet] at h'
        cases h'
    | none =>
      rw [advanceToRound_of_leader_of_none leaderFn hleader hvalid]
      exact ⟨hentered.request hnone, ⟨hle, .refl _ _, .refl _ _⟩, rfl, fun _ => rfl⟩
  · rw [advanceToRound_of_not_leader leaderFn hleader]
    dsimp only
    have htimeout : SentWithin { s with round, step := .propose } (sent ++ [.timeoutPropose round]) :=
      hentered.append_silent rfl rfl rfl
    refine ⟨?_, hmoves.trans (hentered.moves_of_withinRound hupons), hupons.queue, fun h' => ?_⟩
    · simpa using htimeout.withinRound hupons
    · rw [hquiet] at h'
      cases h'

/-- **Entering a later round.** -/
theorem advanceToRound_advances {round : Round} (h : SentWithin s sent) (hlt : s.round < round)
    (hawait : s.awaitingGetProposal = false) :
    Advances s (advanceToRound leaderFn round s).1 sent (advanceToRound leaderFn round s).2 :=
  advanceToRound_advances_of_entered leaderFn (h.enterRound hlt) (h.proposals_count_eq_zero hlt)
    (UInt32.le_of_lt hlt) hawait

theorem mapRoundToUpons_advances (round : Round) (h : SentWithin s sent)
    (hawait : s.awaitingGetProposal = false) :
    Advances s (mapRoundToUpons leaderFn round s).1 sent (mapRoundToUpons leaderFn round s).2 := by
  by_cases hpast : round < s.round
  · rw [mapRoundToUpons_of_lt leaderFn hpast]
    exact advances_of_withinRound h (pastRoundUpons_withinRound round s) hawait
  by_cases hcurrent : round = s.round
  · rw [mapRoundToUpons_of_eq leaderFn hcurrent]
    exact advances_of_withinRound h (currentRoundUpons_withinRound s) hawait
  have hlt : s.round < round := UInt32.lt_of_le_of_ne (UInt32.not_lt.mp hpast) (Ne.symm hcurrent)
  rw [mapRoundToUpons_of_gt leaderFn hlt]
  unfold maybeAdvanceToRound
  split
  · exact advanceToRound_advances leaderFn h hlt hawait
  · exact advances_of_withinRound h (WithinRound.refl s) hawait

/-- The upon rules after a proposal or a vote was recorded: only the records changed. -/
theorem mapRoundToUpons_advances_of_record (round : Round) {t : StateMachine}
    (ht : mapRoundToUpons leaderFn round t = (s', out)) (h : SentWithin s sent)
    (hawait : s.awaitingGetProposal = false) (hround : t.round = s.round)
    (hstep : t.step = s.step) (hopen : t.awaitingGetProposal = s.awaitingGetProposal)
    (hlocked : t.lockedValueRound = s.lockedValueRound)
    (hvalid : t.validValueRound = s.validValueRound) (hqueue : t.eventsQueue = s.eventsQueue) :
    Advances s s' sent out := by
  have hadv := mapRoundToUpons_advances leaderFn round
    (h.congr hround hstep hopen hlocked hvalid) (hopen.trans hawait)
  rw [ht] at hadv
  exact hadv.congr hround hlocked hvalid hqueue

/-- What an accepted `GetProposal` does: it answers the open request of the current round. -/
theorem handleGetProposal_eq_ok {proposalId : Option ProposalContentId} {round : Round}
    {r : StateMachine × List StateMachineEvent} (h : handleGetProposal s proposalId round = .ok r) :
    s.awaitingGetProposal = true ∧ round = s.round ∧
      r = ({ s with awaitingGetProposal := false }, [.proposal proposalId round none]) := by
  unfold handleGetProposal at h
  cases hopen : s.awaitingGetProposal
  · simp [hopen] at h
  by_cases hround : round = s.round
  · by_cases hid : proposalId.isNone = true
    · simp [hopen, hround, hid] at h
    · rw [if_neg (by simp [hopen]), if_neg (not_not.mpr hround), if_neg hid] at h
      exact ⟨rfl, hround, (Except.ok.inj h).symm⟩
  · simp [hopen, hround] at h

/-- What an accepted proposal does: the round had none, it is recorded and the upon rules run. -/
theorem handleProposal_eq_ok {proposalId : Option ProposalContentId} {round : Round}
    {validRound : Option Round} {r : StateMachine × List StateMachineEvent}
    (h : handleProposal leaderFn s proposalId round validRound = .ok r) :
    s.proposals round = none ∧ r = mapRoundToUpons leaderFn round
      { s with proposals := Function.update s.proposals round (some (proposalId, validRound)) } := by
  unfold handleProposal at h
  cases hp : s.proposals round with
  | some _ =>
    rw [hp] at h
    cases h
  | none =>
    rw [hp] at h
    exact ⟨rfl, (Except.ok.inj h).symm⟩

/-- While a proposal is awaited only its answer is handled. -/
theorem awaiting_eq_false_of_ne {event : StateMachineEvent}
    (hawait : s.awaitingGetProposal = true →
      ∃ proposalId round, event = .getProposal proposalId round)
    (hne : ∀ proposalId round, event ≠ .getProposal proposalId round) :
    s.awaitingGetProposal = false := by
  cases hs : s.awaitingGetProposal
  · rfl
  · obtain ⟨proposalId, round, rfl⟩ := hawait hs
    exact absurd rfl (hne proposalId round)

/-- **One event handled from the queue keeps what was sent within what the state allows**, unless
it is the precommit timeout of the last round. -/
theorem handleEventInternal_advances {event : StateMachineEvent} (h : SentWithin s sent)
    (hawait : s.awaitingGetProposal = true →
      ∃ proposalId round, event = .getProposal proposalId round)
    (hwrap : event ≠ .timeoutPrecommit roundMax)
    (he : handleEventInternal leaderFn s event = .ok (s', out)) : Advances s s' sent out := by
  cases event with
  | getProposal proposalId round =>
    obtain ⟨hopen, rfl, hr⟩ := handleGetProposal_eq_ok he
    obtain ⟨rfl, rfl⟩ := Prod.mk.inj hr
    exact ⟨h.answer hopen proposalId, ⟨UInt32.le_refl _, .refl _ _, .refl _ _⟩, rfl,
      fun h' => by cases h'⟩
  | proposal proposalId round validRound =>
    have hopen := awaiting_eq_false_of_ne hawait fun _ _ heq => nomatch heq
    obtain ⟨-, hr⟩ := handleProposal_eq_ok leaderFn he
    exact mapRoundToUpons_advances_of_record leaderFn round hr.symm h hopen rfl rfl rfl rfl rfl rfl
  | prevote proposalId round =>
    have hopen := awaiting_eq_false_of_ne hawait fun _ _ heq => nomatch heq
    exact mapRoundToUpons_advances_of_record leaderFn round (Except.ok.inj he) h hopen
      rfl rfl rfl rfl rfl rfl
  | precommit proposalId round =>
    have hopen := awaiting_eq_false_of_ne hawait fun _ _ heq => nomatch heq
    exact mapRoundToUpons_advances_of_record leaderFn round (Except.ok.inj he) h hopen
      rfl rfl rfl rfl rfl rfl
  | decision => cases he
  | timeoutPropose round =>
    have hopen := awaiting_eq_false_of_ne hawait fun _ _ heq => nomatch heq
    have hw := handleTimeoutPropose_withinRound round s
    rw [show handleTimeoutPropose round s = (s', out) from Except.ok.inj he] at hw
    exact advances_of_withinRound h hw hopen
  | timeoutPrevote round =>
    have hopen := awaiting_eq_false_of_ne hawait fun _ _ heq => nomatch heq
    have hw := handleTimeoutPrevote_withinRound round s
    rw [show handleTimeoutPrevote round s = (s', out) from Except.ok.inj he] at hw
    exact advances_of_withinRound h hw hopen
  | timeoutPrecommit round =>
    have hopen := awaiting_eq_false_of_ne hawait fun _ _ heq => nomatch heq
    have hr : handleTimeoutPrecommit leaderFn round s = (s', out) := Except.ok.inj he
    by_cases hcurrent : round = s.round
    · -- the next round is later only because the round is not the last one
      have hnext : s.round < round + 1 := by
        rw [← hcurrent]
        exact lt_add_one_of_ne_roundMax fun hmax => hwrap (by rw [hmax])
      have hadv := advanceToRound_advances leaderFn h hnext hopen
      rw [← handleTimeoutPrecommit_of_eq leaderFn hcurrent, hr] at hadv
      exact hadv
    · rw [handleTimeoutPrecommit_of_ne leaderFn hcurrent] at hr
      obtain ⟨rfl, rfl⟩ := Prod.mk.inj hr
      exact advances_of_withinRound h (WithinRound.refl s) hopen

end Handlers

/-! ## 6. The queue -/

/-- Events waiting in the queue: none is the precommit timeout of the last round. -/
def QueueSafe (s : StateMachine) : Prop :=
  ∀ e ∈ s.eventsQueue, e ≠ .timeoutPrecommit roundMax

/-- What the routing of one handler's output does: it sends a prefix of the output, all of it
unless the call ends, queues again the proposals and votes among what it sends, and ends the call
at a decision or a request for a proposal. -/
theorem routeEvents_eq : ∀ (res queue : List StateMachineEvent), ∃ sent stop,
    routeEvents res queue = (queue ++ sent.filter StateMachineEvent.isMessage, sent, stop) ∧
      sent <+: res ∧ (stop = false → sent = res) ∧
      ((∃ e ∈ res, e.endsCall = true) → stop = true)
  | [], queue => ⟨[], false, by simp [routeEvents], List.prefix_refl _, fun _ => rfl, by simp⟩
  | e :: rest, queue => by
    by_cases hmessage : e.isMessage = true
    · obtain ⟨sent, stop, hroute, hsentPre, hall, hstop⟩ := routeEvents_eq rest (queue ++ [e])
      have hcons : routeEvents (e :: rest) queue =
          ((routeEvents rest (queue ++ [e])).1, e :: (routeEvents rest (queue ++ [e])).2.1,
            (routeEvents rest (queue ++ [e])).2.2) := by
        cases e <;> first | rfl | cases hmessage
      refine ⟨e :: sent, stop, by simp [hcons, hroute, hmessage], List.cons_prefix_cons.mpr ⟨rfl, hsentPre⟩,
        fun h => by rw [hall h], fun ⟨e', he', hends⟩ => hstop ?_⟩
      rcases List.mem_cons.mp he' with rfl | he'
      · cases e' <;> simp_all [StateMachineEvent.isMessage, StateMachineEvent.endsCall]
      · exact ⟨e', he', hends⟩
    by_cases hends : e.endsCall = true
    · have hcons : routeEvents (e :: rest) queue = (queue, [e], true) := by
        cases e <;> first | rfl | cases hends
      refine ⟨[e], true, by simp [hcons, hmessage], List.cons_prefix_cons.mpr ⟨rfl, List.nil_prefix⟩,
        (fun h => nomatch h), fun _ => rfl⟩
    · obtain ⟨sent, stop, hroute, hsentPre, hall, hstop⟩ := routeEvents_eq rest queue
      have hcons : routeEvents (e :: rest) queue =
          ((routeEvents rest queue).1, e :: (routeEvents rest queue).2.1,
            (routeEvents rest queue).2.2) := by
        cases e <;> first | rfl | exact absurd rfl hmessage | exact absurd rfl hends
      refine ⟨e :: sent, stop, by simp [hcons, hroute, hmessage], List.cons_prefix_cons.mpr ⟨rfl, hsentPre⟩,
        fun h => by rw [hall h], fun ⟨e', he', hends'⟩ => hstop ?_⟩
      rcases List.mem_cons.mp he' with rfl | he'
      · exact absurd hends' hends
      · exact ⟨e', he', hends'⟩

section Loop

variable (leaderFn : Round → ValidatorId) {s s' : StateMachine} {out : List StateMachineEvent}

/-- One turn of the loop, read off its do-block: the head of the queue is handled, what it
produced is routed, and the loop either ends or goes on with the new queue. -/
theorem handleEnqueuedEvents_succ_cons {fuel : Nat} {event : StateMachineEvent}
    {rest : List StateMachineEvent} (hq : s.eventsQueue = event :: rest)
    (he : handleEnqueuedEvents leaderFn (fuel + 1) s = .ok (s', out)) :
    ∃ s₁ resultant queue output stop,
      handleEventInternal leaderFn { s with eventsQueue := rest } event = .ok (s₁, resultant) ∧
      routeEvents resultant s₁.eventsQueue = (queue, output, stop) ∧
      (stop = true ∧ s' = { s₁ with eventsQueue := queue } ∧ out = output ∨
        stop = false ∧ ∃ output₂,
          handleEnqueuedEvents leaderFn fuel { s₁ with eventsQueue := queue } = .ok (s', output₂) ∧
          out = output ++ output₂) := by
  unfold handleEnqueuedEvents at he
  rw [hq] at he
  dsimp only at he
  cases hi : handleEventInternal leaderFn { s with eventsQueue := rest } event with
  | error msg =>
    rw [hi] at he
    cases he
  | ok r =>
    obtain ⟨s₁, resultant⟩ := r
    rw [hi] at he
    rcases hroute : routeEvents resultant s₁.eventsQueue with ⟨queue, output, stop⟩
    refine ⟨s₁, resultant, queue, output, stop, rfl, hroute, ?_⟩
    simp only [bind, Except.bind, hroute] at he
    cases stop
    · simp only [Bool.false_eq_true, if_false] at he
      cases hnext : handleEnqueuedEvents leaderFn fuel { s₁ with eventsQueue := queue } with
      | error msg =>
        rw [hnext] at he
        cases he
      | ok r =>
        obtain ⟨s₂, output₂⟩ := r
        rw [hnext] at he
        obtain ⟨rfl, rfl⟩ := Prod.mk.inj (Except.ok.inj he)
        exact .inr ⟨rfl, output₂, rfl, rfl⟩
    · simp only [if_true] at he
      obtain ⟨rfl, rfl⟩ := Prod.mk.inj (Except.ok.inj he)
      exact .inl ⟨rfl, rfl, rfl⟩


/-- A queue made of events of a safe queue and of events that are not the last precommit
timeout. -/
theorem queueSafe_of_mem {t : StateMachine} (extra : List StateMachineEvent) (hsafe : QueueSafe s)
    (hextra : ∀ e ∈ extra, e ≠ .timeoutPrecommit roundMax)
    (hq : ∀ e ∈ t.eventsQueue, e ∈ s.eventsQueue ∨ e ∈ extra) : QueueSafe t := by
  intro e he
  rcases hq e he with he | he
  · exact hsafe e he
  · exact hextra e he

/-- Proposals and votes are not timeouts. -/
theorem ne_timeoutPrecommit_of_isMessage {e : StateMachineEvent} (he : e.isMessage = true)
    (round : Round) : e ≠ .timeoutPrecommit round := by
  rintro rfl
  cases he

/-- **The loop keeps what was sent within what the state allows**, the round and the locked and
valid values moving forward, as long as the queue holds no precommit timeout of the last round
and, while a proposal is awaited, starts with its answer. -/
theorem handleEnqueuedEvents_advances : ∀ (fuel : Nat) {s s' : StateMachine}
    {sent out : List StateMachineEvent}, SentWithin s sent → QueueSafe s →
    (s.awaitingGetProposal = true →
      ∃ proposalId round rest, s.eventsQueue = .getProposal proposalId round :: rest) →
    handleEnqueuedEvents leaderFn fuel s = .ok (s', out) →
    SentWithin s' (sent ++ out) ∧ Moves s s' ∧ QueueSafe s'
  | 0, s, s', sent, out, h, hsafe, _, he => by
    obtain ⟨rfl, rfl⟩ := Prod.mk.inj (Except.ok.inj he)
    exact ⟨by simpa using h, Moves.refl s, hsafe⟩
  | fuel + 1, s, s', sent, out, h, hsafe, hready, he => by
    cases hq : s.eventsQueue with
    | nil =>
      unfold handleEnqueuedEvents at he
      rw [hq] at he
      obtain ⟨rfl, rfl⟩ := Prod.mk.inj (Except.ok.inj he)
      exact ⟨by simpa using h, Moves.refl s, hsafe⟩
    | cons event rest =>
      obtain ⟨s₁, resultant, queue, output, stop, hi, hroute, hend⟩ :=
        handleEnqueuedEvents_succ_cons leaderFn hq he
      -- the head of the queue is handled, with the rest left queued
      have hadv : Advances { s with eventsQueue := rest } s₁ sent resultant := by
        refine handleEventInternal_advances leaderFn (h.congr rfl rfl rfl rfl rfl) (fun hs => ?_)
          (hsafe event (by simp [hq])) hi
        obtain ⟨proposalId, round, rest', hq'⟩ := hready hs
        rw [hq] at hq'
        exact ⟨proposalId, round, (List.cons.inj hq').1⟩
      have hmoves : Moves s s₁ := hadv.moves.congr rfl rfl rfl
      obtain ⟨routed, stop', hroute', hsentPre, hall, hstop⟩ := routeEvents_eq resultant s₁.eventsQueue
      rw [hroute, Prod.mk.injEq, Prod.mk.injEq] at hroute'
      obtain ⟨hqueue, rfl, rfl⟩ := hroute'
      -- what is queued again: the rest of the queue, then the proposals and votes just sent
      have hsafe₁ : QueueSafe { s₁ with eventsQueue := queue } := by
        refine queueSafe_of_mem (output.filter StateMachineEvent.isMessage) hsafe
          (fun e he => ne_timeoutPrecommit_of_isMessage (List.mem_filter.mp he).2 _) ?_
        intro e he
        rcases List.mem_append.mp (hqueue ▸ he) with he | he
        · rw [hadv.queue] at he
          exact .inl (by simp [hq, he])
        · exact .inr he
      rcases hend with ⟨rfl, rfl, rfl⟩ | ⟨rfl, output₂, hnext, rfl⟩
      · exact ⟨(hadv.sent.of_sublist (hsentPre.sublist.append_left sent)).congr rfl rfl rfl rfl rfl,
          ⟨hmoves.round_le, hmoves.locked, hmoves.valid⟩, hsafe₁⟩
      · -- the whole output was routed, so no request was opened
        have hrouted : output = resultant := hall rfl
        subst hrouted
        have hquiet : s₁.awaitingGetProposal = false := by
          cases hs₁ : s₁.awaitingGetProposal
          · rfl
          · have hreq := hadv.awaiting hs₁
            have := hstop ⟨.getProposal none s₁.round, by simp [hreq], rfl⟩
            cases this
        obtain ⟨hsent, hmoves₂, hsafe₂⟩ := handleEnqueuedEvents_advances fuel
          (s := { s₁ with eventsQueue := queue }) (hadv.sent.congr rfl rfl rfl rfl rfl) hsafe₁ (fun hs => by simp [hquiet] at hs) hnext
        exact ⟨by simpa using hsent,
          hmoves.trans (hmoves₂.congr rfl rfl rfl), hsafe₂⟩


/-- **Every call of `handle_event` keeps what was sent within what the state allows**, the round and
the locked and valid values moving forward, unless the event is the precommit timeout of the last
round. -/
theorem handleEvent_advances {fuel : Nat} {event : StateMachineEvent}
    {sent : List StateMachineEvent} (h : SentWithin s sent) (hsafe : QueueSafe s)
    (hwrap : event ≠ .timeoutPrecommit roundMax)
    (he : s.handleEvent leaderFn fuel event = .ok (s', out)) :
    SentWithin s' (sent ++ out) ∧ Moves s s' ∧ QueueSafe s' := by
  have hback : QueueSafe { s with eventsQueue := s.eventsQueue ++ [event] } :=
    queueSafe_of_mem [event] hsafe (by simpa using hwrap)
      (fun e he => List.mem_append.mp he)
  -- an event that waits at the back of the queue changes nothing else
  have hdefer (hr : ({ s with eventsQueue := s.eventsQueue ++ [event] }, []) = (s', out)) :
      SentWithin s' (sent ++ out) ∧ Moves s s' ∧ QueueSafe s' := by
    obtain ⟨rfl, rfl⟩ := Prod.mk.inj hr
    refine ⟨?_, ⟨UInt32.le_refl _, .refl _ _, .refl _ _⟩, hback⟩
    rw [List.append_nil]
    exact h.congr rfl rfl rfl rfl rfl
  unfold StateMachine.handleEvent at he
  cases hs : s.awaitingGetProposal
  · rw [if_neg (by simp [hs])] at he
    obtain ⟨hsent, hmoves, hsafe'⟩ := handleEnqueuedEvents_advances leaderFn fuel
      (s := { s with eventsQueue := s.eventsQueue ++ [event] }) (h.congr rfl rfl rfl rfl rfl) hback
      (fun h' => by simp [hs] at h') he
    exact ⟨hsent, hmoves.congr rfl rfl rfl, hsafe'⟩
  · rw [if_pos hs] at he
    split at he
    · rename_i proposalId round
      by_cases hround : round = s.round
      · -- the awaited answer goes first
        rw [if_pos hround] at he
        have hfront : QueueSafe
            { s with eventsQueue := .getProposal proposalId round :: s.eventsQueue } :=
          queueSafe_of_mem [.getProposal proposalId round] hsafe (by simp)
            (fun e he => (List.mem_cons.mp he).symm.imp id List.mem_singleton.mpr)
        obtain ⟨hsent, hmoves, hsafe'⟩ := handleEnqueuedEvents_advances leaderFn fuel
          (s := { s with eventsQueue := .getProposal proposalId round :: s.eventsQueue })
          (h.congr rfl rfl rfl rfl rfl) hfront (fun _ => ⟨proposalId, round, s.eventsQueue, rfl⟩) he
        exact ⟨hsent, hmoves.congr rfl rfl rfl, hsafe'⟩
      · rw [if_neg hround] at he
        exact hdefer (Except.ok.inj he)
    · exact hdefer (Except.ok.inj he)


end Loop

/-! ## 7. Runs -/

section Runs

variable (leaderFn : Round → ValidatorId) {s s' : StateMachine} {out : List StateMachineEvent}

theorem run_cons_eq_ok {fuel : Nat} {event : StateMachineEvent} {events : List StateMachineEvent}
    (he : s.run leaderFn fuel (event :: events) = .ok (s', out)) :
    ∃ s₁ output output₂, s.handleEvent leaderFn fuel event = .ok (s₁, output) ∧
      s₁.run leaderFn fuel events = .ok (s', output₂) ∧ out = output ++ output₂ := by
  unfold StateMachine.run at he
  cases hcall : s.handleEvent leaderFn fuel event with
  | error msg =>
    rw [hcall] at he
    cases he
  | ok r =>
    obtain ⟨s₁, output⟩ := r
    rw [hcall] at he
    simp only [bind, Except.bind] at he
    cases hrest : s₁.run leaderFn fuel events with
    | error msg =>
      rw [hrest] at he
      cases he
    | ok r =>
      obtain ⟨s₂, output₂⟩ := r
      rw [hrest] at he
      obtain ⟨rfl, rfl⟩ := Prod.mk.inj (Except.ok.inj he)
      exact ⟨s₁, output, output₂, rfl, hrest, rfl⟩

/-- **Every run keeps what was sent within what the state allows.** -/
theorem run_advances {fuel : Nat} : ∀ (events : List StateMachineEvent) {s s' : StateMachine}
    {sent out : List StateMachineEvent}, SentWithin s sent → QueueSafe s →
    (∀ e ∈ events, e ≠ .timeoutPrecommit roundMax) → s.run leaderFn fuel events = .ok (s', out) →
    SentWithin s' (sent ++ out) ∧ Moves s s' ∧ QueueSafe s'
  | [], s, s', sent, out, h, hsafe, _, he => by
    obtain ⟨rfl, rfl⟩ := Prod.mk.inj (Except.ok.inj he)
    exact ⟨by simpa using h, Moves.refl s, hsafe⟩
  | event :: events, s, s', sent, out, h, hsafe, hwrap, he => by
    obtain ⟨s₁, output, output₂, hcall, hrest, rfl⟩ := run_cons_eq_ok leaderFn he
    obtain ⟨hsent₁, hmoves₁, hsafe₁⟩ :=
      handleEvent_advances leaderFn h hsafe (hwrap event (List.mem_cons_self ..)) hcall
    obtain ⟨hsent₂, hmoves₂, hsafe₂⟩ := run_advances events hsent₁ hsafe₁
      (fun e he => hwrap e (List.mem_cons_of_mem _ he)) hrest
    exact ⟨by simpa using hsent₂, hmoves₁.trans hmoves₂, hsafe₂⟩

/-- `start` enters round 0 with nothing sent before. -/
theorem start_advances (id : ValidatorId) (totalWeight : Nat) :
    Advances (StateMachine.new id totalWeight) ((StateMachine.new id totalWeight).start leaderFn).1 []
      ((StateMachine.new id totalWeight).start leaderFn).2 := by
  refine advanceToRound_advances_of_entered leaderFn ?_ rfl (UInt32.le_refl _) rfl
  constructor <;> simp [StateMachine.new]

/-- **The state machine never equivocates, short of the round wrapping**: over every run from
`start`, whatever the leaders, the events and the fuel, as long as no event is the precommit
timeout of round `u32::MAX`, at most one proposal, one prevote and one precommit is sent per
round, and the round and the locked and valid values only move forward. -/
theorem run_sends_once_per_round (id : ValidatorId) (totalWeight fuel : Nat)
    (events : List StateMachineEvent) (hwrap : ∀ e ∈ events, e ≠ .timeoutPrecommit roundMax)
    (hrun : ((StateMachine.new id totalWeight).start leaderFn).1.run leaderFn fuel events =
      .ok (s', out)) :
    (∀ r, (proposalRounds (((StateMachine.new id totalWeight).start leaderFn).2 ++ out)).count r ≤ 1 ∧
      (prevoteRounds (((StateMachine.new id totalWeight).start leaderFn).2 ++ out)).count r ≤ 1 ∧
      (precommitRounds (((StateMachine.new id totalWeight).start leaderFn).2 ++ out)).count r ≤ 1) ∧
    Moves (StateMachine.new id totalWeight) s' := by
  have hstart := start_advances leaderFn id totalWeight
  have hsafe : QueueSafe ((StateMachine.new id totalWeight).start leaderFn).1 := by
    intro e he
    rw [hstart.queue] at he
    cases he
  obtain ⟨hsent, hmoves, -⟩ := run_advances leaderFn events (by simpa using hstart.sent) hsafe hwrap hrun
  exact ⟨hsent.count_le_one, hstart.moves.trans hmoves⟩


/-- **At round `u32::MAX` the round wraps to 0**: one of four validators, never the leader, times
out the proposal of round 0, skips to round `u32::MAX` on two prevotes of that round, prevotes and
precommits nil there with its peers, and on the precommit timeout it asked for is back in round 0,
where it prevotes a second time.  Every timeout it is given is one it sent. -/
theorem stateMachine_prevotes_twice_after_round_wrap :
    ((((StateMachine.new 0 4).start fun _ => 1).1.run (fun _ => 1) 20
        [.timeoutPropose 0, .prevote none roundMax, .prevote none roundMax, .timeoutPropose roundMax,
          .precommit none roundMax, .precommit none roundMax, .timeoutPrecommit roundMax,
          .timeoutPropose 0]).toOption.map fun r =>
      (r.1.round, (prevoteRounds (((StateMachine.new 0 4).start fun _ => 1).2 ++ r.2)).count 0)) =
      some (0, 2) := by
  decide +kernel

end Runs

end Sequencer.Consensus
