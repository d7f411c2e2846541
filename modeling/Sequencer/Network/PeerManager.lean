/-
# The peer manager: sessions to peers, and reports against them

`PeerManager` assigns each outbound session a peer that is not blocked, round robin from
`last_peer_index`.  A peer with a connection gets the session at once (`SessionAssigned`); a peer
without one is dialled, and the session waits in `peers_pending_dial_with_sessions` until the
connection is established.  Sessions that find no peer, or only blocked ones, wait in
`sessions_received_when_no_peers` until a peer is added or the earliest block runs out.  A report
against a peer or a session adds to the peer's misconduct score or blocks it for a while, and a
failed dial reports the peer as unstable and assigns its sessions again.

Every handler is a function of the manager and the current time.  `PeerManager.step` dispatches
the inputs the manager gets (events of the swarm and of the other behaviours, reports, polls) and
returns what a poll emits; the one panic of the handlers (the `expect` on a known peer when a
dialled connection is established) is `none`.

* `reportPeer_pendingEvents`: every report queues `PeerBlacklisted`, whether or not the peer is
  known and whether or not the report blocks it.
* `Reachable.pendingKnown`: every peer waiting for a dial is a known peer, in every reachable state;
  so the `expect` never panics (`Reachable.step_isSome`).
-/
import Sequencer.Lib.Collections
import Mathlib.Algebra.Order.Ring.Rat

namespace Sequencer.Network

/-! ## 1. Peers -/

abbrev PeerId := Nat
abbrev ConnectionId := Nat
abbrev OutboundSessionId := Nat
abbrev Multiaddr := Nat

/-- A point in time, in seconds. -/
abbrev Instant := Nat

/-- A duration, in seconds. -/
abbrev Duration := Nat

/-- `Peer`.  The misconduct score is an `f64` in the source, read here as an exact rational. -/
structure Peer where
  peerId : PeerId
  multiaddr : Multiaddr
  timedOutUntil : Instant
  connectionIds : List ConnectionId
  misconductScore : ℚ

namespace Peer

/-- `Peer::new`: not blocked, no connection, no misconduct. -/
def new (peerId : PeerId) (multiaddr : Multiaddr) (now : Instant) : Peer :=
  ⟨peerId, multiaddr, now, [], 0⟩

/-- `blacklist_peer`. -/
def blacklistPeer (self : Peer) (now : Instant) (timeoutDuration : Duration) : Peer :=
  { self with timedOutUntil := now + timeoutDuration }

/-- `is_blocked`. -/
def isBlocked (self : Peer) (now : Instant) : Bool := decide (now < self.timedOutUntil)

/-- `blocked_until`: now, if not blocked. -/
def blockedUntil (self : Peer) (now : Instant) : Instant :=
  if now < self.timedOutUntil then self.timedOutUntil else now

/-- `add_connection_id`. -/
def addConnectionId (self : Peer) (connectionId : ConnectionId) : Peer :=
  { self with connectionIds := self.connectionIds ++ [connectionId] }

/-- `remove_connection_id`. -/
def removeConnectionId (self : Peer) (connectionId : ConnectionId) : Peer :=
  { self with connectionIds := self.connectionIds.filter (· != connectionId) }

/-- `reset_misconduct_score`. -/
def resetMisconductScore (self : Peer) : Peer := { self with misconductScore := 0 }

/-- `report`. -/
def report (self : Peer) (misconductScore : ℚ) : Peer :=
  { self with misconductScore := self.misconductScore + misconductScore }

/-- `is_malicious`. -/
def isMalicious (self : Peer) : Bool := decide (1 ≤ self.misconductScore)

end Peer

/-- `ReputationModifier`. -/
inductive ReputationModifier
  | misconduct (misconductScore : ℚ)
  | unstable

/-- `ToOtherBehaviourEvent` of the peer manager. -/
inductive ToOtherBehaviourEvent
  | sessionAssigned (outboundSessionId : OutboundSessionId) (peerId : PeerId)
      (connectionId : ConnectionId)
  | peerBlacklisted (peerId : PeerId)
  deriving DecidableEq, Repr

/-- The `ToSwarm` events the manager queues: an event for the other behaviours, or a dial. -/
inductive ToSwarm
  | generateEvent (event : ToOtherBehaviourEvent)
  | dial (peerId : PeerId) (address : Multiaddr)
  deriving DecidableEq, Repr

/-- `PeerManagerConfig`. -/
structure PeerManagerConfig where
  maliciousTimeout : Duration
  unstableTimeout : Duration

/-- `PeerManagerConfig::default`: a year, and a second. -/
def PeerManagerConfig.default : PeerManagerConfig := ⟨3600 * 24 * 365, 1⟩

/-- `PeerManagerError`. -/
inductive PeerManagerError
  | noSuchPeer (peerId : PeerId)
  | noSuchSession (outboundSessionId : OutboundSessionId)
  | peerIsBlocked (peerId : PeerId)
  deriving DecidableEq, Repr

/-- `PeerManager`.  `pendingEvents` is a `Vec`: pushed at its end and popped from its end.
`sleepWaitingForUnblockedPeer` is the deadline of the sleep, if one is set. -/
structure PeerManager where
  peers : HashMap PeerId Peer
  sessionToPeerMap : HashMap OutboundSessionId PeerId
  config : PeerManagerConfig
  lastPeerIndex : Nat
  pendingEvents : List ToSwarm
  peersPendingDialWithSessions : HashMap PeerId (List OutboundSessionId)
  sessionsReceivedWhenNoPeers : List OutboundSessionId
  sleepWaitingForUnblockedPeer : Option Instant

/-! ## 2. The handlers -/

namespace PeerManager

/-- `PeerManager::new`. -/
def new (config : PeerManagerConfig) : PeerManager :=
  ⟨[], [], config, 0, [], [], [], none⟩

/-- The sessions waiting for a dial of `peerId`, with `outboundSessionId` added. -/
def pushPendingDial (pending : HashMap PeerId (List OutboundSessionId)) (peerId : PeerId)
    (outboundSessionId : OutboundSessionId) : HashMap PeerId (List OutboundSessionId) :=
  match pending.get peerId with
  | some _ => pending.modify peerId (· ++ [outboundSessionId])
  | none => (pending.insert peerId [outboundSessionId]).2

/-- `assign_peer_to_session`: the first unblocked peer from `last_peer_index` on, wrapping
around; with none, the session waits and the manager sleeps until the earliest unblock. -/
def assignPeerToSession (self : PeerManager) (now : Instant)
    (outboundSessionId : OutboundSessionId) : Option PeerId × PeerManager :=
  if self.peers.isEmpty then
    (none, { self with
      sessionsReceivedWhenNoPeers := self.sessionsReceivedWhenNoPeers ++ [outboundSessionId] })
  else
    let unblocked := fun e : PeerId × Peer => !e.2.isBlocked now
    let peer := ((self.peers.drop self.lastPeerIndex).find? unblocked).or
      ((self.peers.take self.lastPeerIndex).find? unblocked)
    let self := { self with lastPeerIndex := (self.lastPeerIndex + 1) % self.peers.length }
    match peer with
    | none =>
      (none, { self with
        sessionsReceivedWhenNoPeers := self.sessionsReceivedWhenNoPeers ++ [outboundSessionId]
        sleepWaitingForUnblockedPeer := (self.peers.map fun e => e.2.blockedUntil now).min? })
    | some (peerId, peer) =>
      let self := { self with
        sessionToPeerMap := (self.sessionToPeerMap.insert outboundSessionId peerId).2 }
      match peer.connectionIds with
      | connectionId :: _ =>
        (some peerId, { self with pendingEvents := self.pendingEvents ++
          [ToSwarm.generateEvent (.sessionAssigned outboundSessionId peerId connectionId)] })
      | [] =>
        (some peerId, { self with
          peersPendingDialWithSessions :=
            pushPendingDial self.peersPendingDialWithSessions peerId outboundSessionId
          pendingEvents := self.pendingEvents ++ [.dial peerId peer.multiaddr] })

/-- The `for` loops that assign each of a list of sessions in turn. -/
def assignPeerToSessions (self : PeerManager) (now : Instant)
    (sessions : List OutboundSessionId) : PeerManager :=
  sessions.foldl (fun m s => (m.assignPeerToSession now s).2) self

/-- `add_peer`: the sessions that found no peer are assigned again. -/
def addPeer (self : PeerManager) (now : Instant) (peer : Peer) : PeerManager :=
  { self with
    peers := (self.peers.insert peer.peerId peer).2
    sleepWaitingForUnblockedPeer := none
    sessionsReceivedWhenNoPeers := [] }.assignPeerToSessions now self.sessionsReceivedWhenNoPeers

/-- What a report does to a known peer: misconduct adds up until the peer is malicious, which
blocks it for `malicious_timeout` and resets its score; instability blocks it for
`unstable_timeout`. -/
def applyReport (config : PeerManagerConfig) (now : Instant) (reason : ReputationModifier)
    (peer : Peer) : Peer :=
  match reason with
  | .misconduct misconductScore =>
    let peer := peer.report misconductScore
    if peer.isMalicious then (peer.blacklistPeer now config.maliciousTimeout).resetMisconductScore
    else peer
  | .unstable => peer.blacklistPeer now config.unstableTimeout

/-- `report_peer`: `PeerBlacklisted` is queued first, before the peer is looked up. -/
def reportPeer (self : PeerManager) (now : Instant) (peerId : PeerId)
    (reason : ReputationModifier) : Except PeerManagerError Unit × PeerManager :=
  let self := { self with
    pendingEvents := self.pendingEvents ++ [ToSwarm.generateEvent (.peerBlacklisted peerId)] }
  match self.peers.get peerId with
  | some _ =>
    (.ok (), { self with peers := self.peers.modify peerId (applyReport self.config now reason) })
  | none => (.error (.noSuchPeer peerId), self)

/-- `report_session`. -/
def reportSession (self : PeerManager) (now : Instant) (outboundSessionId : OutboundSessionId)
    (reason : ReputationModifier) : Except PeerManagerError Unit × PeerManager :=
  match self.sessionToPeerMap.get outboundSessionId with
  | some peerId => self.reportPeer now peerId reason
  | none => (.error (.noSuchSession outboundSessionId), self)

/-- The `DialError`s the manager tells apart. -/
inductive DialError
  | dialPeerConditionFalse
  | other

/-- The swarm events the manager handles; the others are ignored. -/
inductive FromSwarm
  | dialFailure (peerId : Option PeerId) (error : DialError)
  | connectionEstablished (peerId : PeerId) (connectionId : ConnectionId)
  | connectionClosed (peerId : PeerId) (connectionId : ConnectionId)

/-- `on_swarm_event`; `none` is the panic of its `expect`. -/
def onSwarmEvent (self : PeerManager) (now : Instant) : FromSwarm → Option PeerManager
  | .dialFailure (some peerId) error =>
    match error with
    | .dialPeerConditionFalse => some self
    | .other =>
      let self := (self.reportPeer now peerId .unstable).2
      -- every session ever mapped to the peer, whether or not it waits for this dial
      let queriesToAssign :=
        self.sessionToPeerMap.filterMap fun e => if e.2 = peerId then some e.1 else none
      some (self.assignPeerToSessions now queriesToAssign)
  | .dialFailure none _ => some self
  | .connectionEstablished peerId connectionId =>
    match self.peersPendingDialWithSessions.remove peerId with
    | (some sessions, pending) =>
      if self.peers.containsKey peerId then
        some { self with
          peersPendingDialWithSessions := pending
          pendingEvents := self.pendingEvents ++
            sessions.map fun s => ToSwarm.generateEvent (.sessionAssigned s peerId connectionId)
          peers := self.peers.modify peerId (·.addConnectionId connectionId) }
      else none
    | (none, _) =>
      some { self with peers := self.peers.modify peerId (·.addConnectionId connectionId) }
  | .connectionClosed peerId connectionId =>
    match self.peers.get peerId with
    | some peer =>
      if peer.connectionIds.contains connectionId then
        some { self with peers := self.peers.modify peerId (·.removeConnectionId connectionId) }
      else some self
    | none => some self

/-- The events of the other behaviours the manager handles. -/
inductive OtherBehaviourEvent
  | requestPeerAssignment (outboundSessionId : OutboundSessionId)
  | foundListenAddresses (peerId : PeerId) (listenAddresses : List Multiaddr)

/-- `on_other_behaviour_event`. -/
def onOtherBehaviourEvent (self : PeerManager) (now : Instant) :
    OtherBehaviourEvent → PeerManager
  | .requestPeerAssignment outboundSessionId => (self.assignPeerToSession now outboundSessionId).2
  | .foundListenAddresses peerId listenAddresses =>
    if self.peers.containsKey peerId then self
    else
      match listenAddresses with
      | [] => self
      | address :: _ => self.addPeer now (Peer.new peerId address now)

/-- `pending_events.pop()`. -/
def popPendingEvent (self : PeerManager) : Option ToSwarm × PeerManager :=
  (self.pendingEvents.getLast?, { self with pendingEvents := self.pendingEvents.dropLast })

/-- `poll`: a queued event, else, once the sleep is over, the waiting sessions assigned again.
`none` is `Poll::Pending`. -/
def poll (self : PeerManager) (now : Instant) : Option ToSwarm × PeerManager :=
  match self.pendingEvents.getLast? with
  | some _ => self.popPendingEvent
  | none =>
    match self.sleepWaitingForUnblockedPeer with
    | some deadline =>
      if now < deadline then (none, self)
      else
        let m := { self with sessionsReceivedWhenNoPeers := [] }.assignPeerToSessions now
          self.sessionsReceivedWhenNoPeers
        { m with sleepWaitingForUnblockedPeer := none }.popPendingEvent
    | none => { self with sleepWaitingForUnblockedPeer := none }.popPendingEvent

/-- What the manager is given. -/
inductive Input
  | swarm (event : FromSwarm)
  | other (event : OtherBehaviourEvent)
  | reportPeer (peerId : PeerId) (reason : ReputationModifier)
  | reportSession (outboundSessionId : OutboundSessionId) (reason : ReputationModifier)
  | poll

/-- One input at a time `now`: the manager after it and what a poll emits; `none` is a panic. -/
def step (self : PeerManager) (now : Instant) : Input → Option (PeerManager × Option ToSwarm)
  | .swarm event => (self.onSwarmEvent now event).map fun m => (m, none)
  | .other event => some (self.onOtherBehaviourEvent now event, none)
  | .reportPeer peerId reason => some ((self.reportPeer now peerId reason).2, none)
  | .reportSession outboundSessionId reason =>
    some ((self.reportSession now outboundSessionId reason).2, none)
  | .poll => some ((self.poll now).2, (self.poll now).1)

/-- A run of inputs, each at its time: the manager after them and what the polls emitted. -/
def run (self : PeerManager) : List (Instant × Input) → Option (PeerManager × List ToSwarm)
  | [] => some (self, [])
  | (now, input) :: inputs => do
    let (m, emitted) ← self.step now input
    let (m', rest) ← m.run inputs
    return (m', emitted.toList ++ rest)

/-- **Every report queues `PeerBlacklisted`**, for a known or an unknown peer, and whatever the
report does to the peer. -/
theorem reportPeer_pendingEvents (self : PeerManager) (now : Instant) (peerId : PeerId)
    (reason : ReputationModifier) :
    (self.reportPeer now peerId reason).2.pendingEvents =
      self.pendingEvents ++ [.generateEvent (.peerBlacklisted peerId)] := by
  unfold reportPeer
  dsimp only
  split <;> rfl

/-! ## 3. Dialled peers are known -/

/-- Every peer with sessions waiting for its dial is a known peer. -/
def PendingKnown (m : PeerManager) : Prop :=
  ∀ p, (m.peersPendingDialWithSessions.get p).isSome → (m.peers.get p).isSome

theorem isSome_get_pushPendingDial (pending : HashMap PeerId (List OutboundSessionId))
    (peerId p : PeerId) (outboundSessionId : OutboundSessionId) :
    ((pushPendingDial pending peerId outboundSessionId).get p).isSome =
      (decide (p = peerId) || (pending.get p).isSome) := by
  unfold pushPendingDial
  split
  · rename_i hpeer
    by_cases hp : p = peerId
    · subst hp
      simp [hpeer]
    · simp [hp]
  · by_cases hp : p = peerId <;> simp [hp]

/-- Assigning a session leaves the peers alone. -/
theorem assignPeerToSession_peers (m : PeerManager) (now : Instant) (s : OutboundSessionId) :
    (m.assignPeerToSession now s).2.peers = m.peers := by
  unfold assignPeerToSession
  split
  · rfl
  · dsimp only
    split
    · rfl
    · split <;> rfl

/-- A session waits for the dial of a peer it was given, and that peer is a known one. -/
theorem PendingKnown.assignPeerToSession {m : PeerManager} (h : PendingKnown m) (now : Instant)
    (s : OutboundSessionId) : PendingKnown (m.assignPeerToSession now s).2 := by
  unfold PeerManager.assignPeerToSession
  split
  · exact h
  · dsimp only
    split
    · exact h
    · rename_i peerId peer hpeer
      -- the chosen peer is one of the manager's peers
      have hmem : (peerId, peer) ∈ m.peers := by
        rcases Option.or_eq_some_iff.mp hpeer with hfound | ⟨-, hfound⟩
        · exact List.mem_of_mem_drop (List.mem_of_find?_eq_some hfound)
        · exact List.mem_of_mem_take (List.mem_of_find?_eq_some hfound)
      have hknown := HashMap.isSome_get_of_mem hmem
      split
      · exact h
      · intro p hp
        rw [isSome_get_pushPendingDial] at hp
        by_cases hpeerId : p = peerId
        · subst hpeerId
          exact hknown
        · simp only [hpeerId, decide_false, Bool.false_or] at hp
          exact h p hp

theorem assignPeerToSessions_peers (m : PeerManager) (now : Instant) :
    ∀ sessions, (m.assignPeerToSessions now sessions).peers = m.peers := by
  intro sessions
  induction sessions generalizing m with
  | nil => rfl
  | cons s sessions ih =>
    unfold assignPeerToSessions
    rw [List.foldl_cons]
    exact (ih _).trans (assignPeerToSession_peers m now s)

theorem PendingKnown.assignPeerToSessions {m : PeerManager} (h : PendingKnown m) (now : Instant)
    (sessions : List OutboundSessionId) : PendingKnown (m.assignPeerToSessions now sessions) := by
  induction sessions generalizing m with
  | nil => exact h
  | cons s sessions ih =>
    unfold PeerManager.assignPeerToSessions
    rw [List.foldl_cons]
    exact ih (h.assignPeerToSession now s)

/-- Changing the peers in place or adding one keeps the known peers known. -/
theorem PendingKnown.of_peers {m m' : PeerManager} (h : PendingKnown m)
    (hpeers : ∀ p, (m.peers.get p).isSome → (m'.peers.get p).isSome)
    (hpending : m'.peersPendingDialWithSessions = m.peersPendingDialWithSessions) :
    PendingKnown m' := fun p hp => hpeers p (h p (hpending ▸ hp))

theorem PendingKnown.addPeer {m : PeerManager} (h : PendingKnown m) (now : Instant) (peer : Peer) :
    PendingKnown (m.addPeer now peer) := by
  unfold PeerManager.addPeer
  refine PendingKnown.assignPeerToSessions ?_ now _
  refine h.of_peers (fun p hp => ?_) rfl
  dsimp only
  rw [HashMap.get_insert]
  split <;> simp [hp]

theorem PendingKnown.reportPeer {m : PeerManager} (h : PendingKnown m) (now : Instant)
    (peerId : PeerId) (reason : ReputationModifier) :
    PendingKnown (m.reportPeer now peerId reason).2 := by
  unfold PeerManager.reportPeer
  dsimp only
  split
  · refine h.of_peers (fun p hp => ?_) rfl
    dsimp only
    rw [HashMap.get_modify]
    split <;> simp [hp]
  · exact h

theorem PendingKnown.reportSession {m : PeerManager} (h : PendingKnown m) (now : Instant)
    (s : OutboundSessionId) (reason : ReputationModifier) :
    PendingKnown (m.reportSession now s reason).2 := by
  unfold PeerManager.reportSession
  split
  · exact h.reportPeer now _ reason
  · exact h

theorem PendingKnown.modifyPeer {m : PeerManager} (h : PendingKnown m) (peerId : PeerId)
    (f : Peer → Peer) : PendingKnown { m with peers := m.peers.modify peerId f } :=
  h.of_peers (fun p hp => by
    dsimp only
    rw [HashMap.get_modify]
    split <;> simp [hp]) rfl

theorem PendingKnown.onSwarmEvent {m m' : PeerManager} (h : PendingKnown m) {now : Instant}
    {event : FromSwarm} (he : m.onSwarmEvent now event = some m') : PendingKnown m' := by
  unfold PeerManager.onSwarmEvent at he
  split at he
  · split at he
    · cases he
      exact h
    · cases he
      exact (h.reportPeer now _ .unstable).assignPeerToSessions now _
  · cases he
    exact h
  · split at he
    · rename_i sessions pending hremove
      split at he
      · cases he
        intro p hp
        dsimp only at hp ⊢
        rw [HashMap.get_modify]
        -- what is left pending was pending before
        have hsnd := congrArg Prod.snd hremove
        dsimp only at hsnd
        rw [← hsnd, HashMap.get_remove] at hp
        split at hp
        · cases hp
        · split <;> simp [h p hp]
      · cases he
    · cases he
      exact h.modifyPeer _ _
  · split at he
    · split at he
      · cases he
        exact h.modifyPeer _ _
      · cases he
        exact h
    · cases he
      exact h

theorem PendingKnown.onOtherBehaviourEvent {m : PeerManager} (h : PendingKnown m) (now : Instant)
    (event : OtherBehaviourEvent) : PendingKnown (m.onOtherBehaviourEvent now event) := by
  unfold PeerManager.onOtherBehaviourEvent
  split
  · exact h.assignPeerToSession now _
  · split
    · exact h
    · split
      · exact h
      · exact h.addPeer now _

theorem PendingKnown.popPendingEvent {m : PeerManager} (h : PendingKnown m) :
    PendingKnown m.popPendingEvent.2 := h

theorem PendingKnown.poll {m : PeerManager} (h : PendingKnown m) (now : Instant) :
    PendingKnown (m.poll now).2 := by
  unfold PeerManager.poll
  split
  · exact h
  · split
    · split
      · exact h
      · refine PendingKnown.assignPeerToSessions ?_ now _
        exact h.of_peers (fun _ hp => hp) rfl
    · exact h

/-- **The peer manager never panics**: in a state whose dialled peers are known, every input is
handled, and the dialled peers stay known. -/
theorem PendingKnown.step {m : PeerManager} (h : PendingKnown m) (now : Instant) (input : Input) :
    ∃ m' emitted, m.step now input = some (m', emitted) ∧ PendingKnown m' := by
  cases input with
  | swarm event =>
    cases hm : m.onSwarmEvent now event with
    | none =>
      -- only a dialled peer's connection can panic, and a dialled peer is known
      exfalso
      unfold PeerManager.onSwarmEvent at hm
      split at hm
      · split at hm <;> cases hm
      · cases hm
      · split at hm
        · rename_i sessions pending hremove
          split at hm
          · cases hm
          · rename_i hunknown
            have hfst := congrArg Prod.fst hremove
            simp only [HashMap.remove] at hfst
            exact hunknown (h _ (Option.isSome_iff_exists.mpr ⟨sessions, hfst⟩))
        · cases hm
      · split at hm
        · split at hm <;> cases hm
        · cases hm
    | some m' => exact ⟨m', none, by simp [PeerManager.step, hm], h.onSwarmEvent hm⟩
  | other event => exact ⟨_, none, rfl, h.onOtherBehaviourEvent now event⟩
  | reportPeer peerId reason => exact ⟨_, none, rfl, h.reportPeer now peerId reason⟩
  | reportSession s reason => exact ⟨_, none, rfl, h.reportSession now s reason⟩
  | poll => exact ⟨_, _, rfl, h.poll now⟩

theorem PendingKnown.new (config : PeerManagerConfig) : PendingKnown (PeerManager.new config) :=
  fun _ hp => by cases hp

/-- **No run of the peer manager panics.** -/
theorem run_isSome {m : PeerManager} (h : PendingKnown m) :
    ∀ inputs : List (Instant × Input), (m.run inputs).isSome := by
  intro inputs
  induction inputs generalizing m with
  | nil => rfl
  | cons input inputs ih =>
    obtain ⟨now, input⟩ := input
    obtain ⟨m', emitted, hstep, h'⟩ := h.step now input
    obtain ⟨r, hr⟩ := Option.isSome_iff_exists.mp (ih h')
    simp [PeerManager.run, hstep, hr]

end PeerManager

/-! ## 4. Two runs with events that do not match the peers -/

/-- A peer is found, reported once for a misconduct of one half, and the manager is polled. -/
def halfMisconductRun : List (Instant × PeerManager.Input) :=
  [(0, .other (.foundListenAddresses 7 [1])), (0, .reportPeer 7 (.misconduct (1 / 2))), (0, .poll)]

/-- Two peers are found and a session is assigned to the second, which is dialled; the dial
fails, so the session is assigned to the first, which is dialled too; then both connections are
established, and the manager is polled twice. -/
def redialRun : List (Instant × PeerManager.Input) :=
  [(0, .other (.foundListenAddresses 1 [10])), (0, .other (.foundListenAddresses 2 [20])),
    (0, .other (.requestPeerAssignment 5)), (0, .swarm (.dialFailure (some 2) .other)),
    (0, .swarm (.connectionEstablished 2 100)), (0, .swarm (.connectionEstablished 1 101)),
    (0, .poll), (0, .poll)]

/-- The first run emits `PeerBlacklisted` for a peer that the report left unblocked; the second
emits two `SessionAssigned` for a session requested once. -/
theorem peerManager_emits_events_without_cause :
    ((PeerManager.new .default).run halfMisconductRun).map
        (fun r => (r.2, (r.1.peers.get 7).map (·.isBlocked 0))) =
      some ([.generateEvent (.peerBlacklisted 7)], some false) ∧
    ((PeerManager.new .default).run redialRun).map (·.2) =
      some [.generateEvent (.sessionAssigned 5 1 101), .generateEvent (.sessionAssigned 5 2 100)] := by
  decide +kernel

end Sequencer.Network
