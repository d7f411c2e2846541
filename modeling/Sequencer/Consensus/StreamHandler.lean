/-
# Reassembling message streams (`papyrus_consensus`: `stream_handler.rs`)

A peer sends a stream as numbered `StreamMessage`s: contents with ids `0, 1, ..., n - 1` and a
`Fin` with id `n`.  The network may deliver them in any order.  `StreamHandler::handle_message`
keeps one `StreamData` per stream, keyed by the originator and the stream id: the next id it
expects, the id of the `Fin` once seen, and a buffer of messages that came early.  A message
with the expected id goes out at once and drains what follows it from the buffer; a later one
waits in the buffer.  When the buffer is empty and the `Fin` has been seen, the stream's channel
is closed and its entry removed.

The channels themselves are outside the model: what the handler does to them is recorded as a
`ChannelEffect` beside the key of its stream (the receiver handed out for a new stream, a content
sent on a stream's channel, its closing).  Channels are taken to accept every send: the capacity
of `mpsc::channel(CHANNEL_BUFFER_LENGTH)`, whose overflow makes `try_send(..).expect` panic,
depends on how fast the consumer reads and is not modelled.

The main result is `handleMessages_reassembles_streams`: whatever order the messages of any
number of streams arrive in, each stream gets one receiver, its contents in order and then its
closing, and no entry is left.  It rests on the per-stream invariant `Progress` and its step
lemmas, the drain of the buffer (`processBufferLoop_spec`) among them.
-/
import Sequencer.Lib.Run
import Sequencer.Lib.Collections

namespace Sequencer.Consensus

variable {α ε : Type}

/-! ## 1. Messages, streams and effects -/

/-- `StreamMessageBody`. -/
inductive StreamMessageBody (α : Type) where
  | content (message : α)
  | fin
  deriving DecidableEq, Repr

/-- `StreamMessage`: its body, its stream's id and its place in the stream. -/
structure StreamMessage (α : Type) where
  message : StreamMessageBody α
  streamId : Nat
  messageId : Nat
  deriving DecidableEq, Repr

/-- `OpaquePeerId`. -/
abbrev PeerId := Nat

/-- `StreamKey`: the originator of a stream and its id. -/
abbrev StreamKey := PeerId × Nat

/-- `u64::MAX`, the bound of a message id. -/
def u64Max : Nat := 2 ^ 64 - 1

/-- What the handler does to the channels outside it. -/
inductive ChannelEffect (α : Type) where
  /-- the receiver of a new stream's channel is sent on `inbound_channel_sender` -/
  | newReceiver
  /-- a content is sent on the stream's channel -/
  | send (message : α)
  /-- the stream's channel is closed -/
  | close
  deriving DecidableEq, Repr

/-- `StreamData`, with its `sender` replaced by the effects on the stream's channel. -/
structure StreamData (α : Type) where
  nextMessageId : Nat
  finMessageId : Option Nat
  maxMessageIdReceived : Nat
  messageBuffer : BTreeMap Nat (StreamMessage α)

/-- `StreamData::new`. -/
def StreamData.new : StreamData α := ⟨0, none, 0, []⟩

/-- `StreamHandler`, with its two channel ends outside the model. -/
structure StreamHandler (α : Type) where
  inboundStreamData : HashMap StreamKey (StreamData α)

/-- `StreamHandler::new`. -/
def StreamHandler.new : StreamHandler α := ⟨[]⟩

/-! ## 2. `handle_message` -/

namespace StreamData

/-- `inbound_send`: a content goes out on the channel and advances the next id; a `Fin` does
neither. -/
def inboundSend (data : StreamData α) (message : StreamMessage α) :
    StreamData α × List (ChannelEffect α) :=
  match message.message with
  | .content content => ({ data with nextMessageId := data.nextMessageId + 1 }, [.send content])
  | .fin => (data, [])

/-- `store`: the message waits in the buffer, unless one with its id already does. -/
def store (data : StreamData α) (message : StreamMessage α) : StreamData α :=
  if data.messageBuffer.containsKey message.messageId then data
  else { data with messageBuffer := (HashMap.insert data.messageBuffer message.messageId message).2 }

/-- The `while let` loop of `process_buffer`.  Each round removes an entry of the buffer, so
the loop runs at most as many rounds as the buffer has entries, which `processBuffer` gives it. -/
def processBufferLoop : Nat → StreamData α → StreamData α × List (ChannelEffect α)
  | 0, data => (data, [])
  | fuel + 1, data =>
    match HashMap.remove data.messageBuffer data.nextMessageId with
    | (none, _) => (data, [])
    | (some message, messageBuffer) =>
      let (data, sent) := inboundSend { data with messageBuffer } message
      let (data, sent') := processBufferLoop fuel data
      (data, sent ++ sent')

/-- `process_buffer`. -/
def processBuffer (data : StreamData α) : StreamData α × List (ChannelEffect α) :=
  processBufferLoop data.messageBuffer.length data

/-- The end of `handle_message`, once the message passed the checks against the `Fin`: the
expected message goes out and drains the buffer, closing the stream when nothing is left and the
`Fin` was seen; a later one is stored; an earlier one is dropped. -/
def deliver (data : StreamData α) (message : StreamMessage α) :
    Option (StreamData α) × List (ChannelEffect α) :=
  if message.messageId = data.nextMessageId then
    let (data, sent) := data.inboundSend message
    let (data, sent') := data.processBuffer
    if data.messageBuffer.isEmpty && data.finMessageId.isSome then (none, sent ++ sent' ++ [.close])
    else (some data, sent ++ sent')
  else if message.messageId > data.nextMessageId then (some (data.store message), [])
  else (some data, [])

/-- What `handle_message` does once it holds the data of the message's stream: the data the
entry is left with, `none` once the stream is closed and its entry removed, and the effects on
the stream's channel. -/
def receive (data : StreamData α) (message : StreamMessage α) :
    Option (StreamData α) × List (ChannelEffect α) :=
  let messageId := message.messageId
  let data := if data.maxMessageIdReceived < messageId then
    { data with maxMessageIdReceived := messageId } else data
  -- a `Fin` records its id, and is dropped when a message with a higher id was seen
  let (data, dropped) : StreamData α × Bool := match message.message with
    | .content _ => (data, false)
    | .fin => ({ data with finMessageId := some messageId }, data.maxMessageIdReceived > messageId)
  if dropped then (some data, [])
  else if messageId > data.finMessageId.getD u64Max then (some data, [])
  else data.deliver message

end StreamData

/-- `handle_message`, on a message as the network layer hands it over (decoded or not) and the
originator from its metadata. -/
def StreamHandler.handleMessage (handler : StreamHandler α)
    (message : Except ε (StreamMessage α) × PeerId) :
    StreamHandler α × List (StreamKey × ChannelEffect α) :=
  match message.1 with
  | .error _ => (handler, [])
  | .ok streamMessage =>
    let key := (message.2, streamMessage.streamId)
    -- a stream seen for the first time gets a channel, whose receiver is handed out
    let (data, created) : StreamData α × List (ChannelEffect α) :=
      match HashMap.get handler.inboundStreamData key with
      | some data => (data, [])
      | none => (StreamData.new, [.newReceiver])
    let (data, effects) := data.receive streamMessage
    let inboundStreamData := match data with
      | some data => (HashMap.insert handler.inboundStreamData key data).2
      | none => (HashMap.remove handler.inboundStreamData key).2
    (⟨inboundStreamData⟩, (created ++ effects).map fun e => (key, e))

/-- The loop of `StreamHandler::run` over the messages the network delivers, each decoded, with
its originator. -/
def StreamHandler.handleMessages (handler : StreamHandler α)
    (deliveries : List (StreamMessage α × PeerId)) :
    StreamHandler α × List (StreamKey × ChannelEffect α) :=
  deliveries.foldl (fun acc d =>
    let r := acc.1.handleMessage ((.ok d.1 : Except Unit (StreamMessage α)), d.2)
    (r.1, acc.2 ++ r.2)) (handler, [])

/-! ## 3. One stream

A stream with contents `cs` has `cs.length + 1` messages, the content with id `i` for each
`i < cs.length` and the `Fin` with id `cs.length`.  Its state after the messages with ids in
`ids` have arrived, in any order, is described by `Progress`: nothing yet, an `Open` stream
whose first `p` contents have gone out, or a closed one that has sent all of them. -/

/-- The message with id `i` of a stream with contents `cs`. -/
def streamMessage (streamId : Nat) (cs : List α) (i : Nat) : StreamMessage α :=
  if h : i < cs.length then ⟨.content cs[i], streamId, i⟩ else ⟨.fin, streamId, cs.length⟩

/-- All the messages of a stream. -/
def streamMessages (streamId : Nat) (cs : List α) : List (StreamMessage α) :=
  (List.range (cs.length + 1)).map (streamMessage streamId cs)

namespace StreamData

/-- What the `i`-th step of a stream with contents `cs` does to its data and its channel: the
stream's first message creates its data and hands out its receiver. -/
def streamStep (st : Option (StreamData α)) (message : StreamMessage α) :
    Option (StreamData α) × List (ChannelEffect α) :=
  match st with
  | some data => data.receive message
  | none => ((StreamData.new.receive message).1, .newReceiver :: (StreamData.new.receive message).2)

section OneStream

variable (streamId : Nat) (cs : List α)

@[simp] theorem streamMessage_streamId (i : Nat) : (streamMessage streamId cs i).streamId = streamId := by
  unfold streamMessage
  split <;> rfl

theorem streamMessage_messageId {i : Nat} (h : i ≤ cs.length) :
    (streamMessage streamId cs i).messageId = i := by
  unfold streamMessage
  split
  · rfl
  · simp only
    omega

theorem inboundSend_streamMessage_of_lt (data : StreamData α) {i : Nat} (h : i < cs.length) :
    data.inboundSend (streamMessage streamId cs i) =
      ({ data with nextMessageId := data.nextMessageId + 1 }, [.send cs[i]]) := by
  simp [streamMessage, h, inboundSend]

theorem inboundSend_streamMessage_fin (data : StreamData α) :
    data.inboundSend (streamMessage streamId cs cs.length) = (data, []) := by
  simp [streamMessage, inboundSend]

@[simp] theorem store_nextMessageId (data : StreamData α) (message : StreamMessage α) :
    (data.store message).nextMessageId = data.nextMessageId := by
  unfold store
  split <;> rfl

@[simp] theorem store_finMessageId (data : StreamData α) (message : StreamMessage α) :
    (data.store message).finMessageId = data.finMessageId := by
  unfold store
  split <;> rfl

@[simp] theorem store_maxMessageIdReceived (data : StreamData α) (message : StreamMessage α) :
    (data.store message).maxMessageIdReceived = data.maxMessageIdReceived := by
  unfold store
  split <;> rfl

/-- The buffer holds exactly the arrived messages from id `lo` on. -/
def BufferedFrom (ids : List Nat) (lo : Nat) (buffer : BTreeMap Nat (StreamMessage α)) : Prop :=
  ∀ i, HashMap.get buffer i = if i ∈ ids ∧ lo ≤ i then some (streamMessage streamId cs i) else none

section Buffered

variable {streamId cs} {ids : List Nat} {lo : Nat} {buffer : BTreeMap Nat (StreamMessage α)}

theorem BufferedFrom.get_lo (h : BufferedFrom streamId cs ids lo buffer) :
    HashMap.get buffer lo = if lo ∈ ids then some (streamMessage streamId cs lo) else none := by
  simp [h lo]

/-- When `lo` has not arrived, what is buffered from `lo` on is buffered from `lo + 1` on. -/
theorem BufferedFrom.succ (h : BufferedFrom streamId cs ids lo buffer) (hlo : lo ∉ ids) :
    BufferedFrom streamId cs ids (lo + 1) buffer := by
  intro i
  rw [h i]
  by_cases hi : i = lo
  · subst hi
    simp [hlo]
  · have : (lo ≤ i ↔ lo + 1 ≤ i) := by omega
    simp [this]

/-- Taking the entry under `lo` out leaves what is buffered from `lo + 1` on. -/
theorem BufferedFrom.remove (h : BufferedFrom streamId cs ids lo buffer) :
    BufferedFrom streamId cs ids (lo + 1) (HashMap.remove buffer lo).2 := by
  intro i
  rw [HashMap.get_remove, h i]
  by_cases hi : i = lo
  · simp [hi]
  · have : (lo ≤ i ↔ lo + 1 ≤ i) := by omega
    simp [hi, this]

/-- An id below `lo` that arrives is not buffered. -/
theorem BufferedFrom.append_of_lt (h : BufferedFrom streamId cs ids lo buffer) {j : Nat}
    (hj : j < lo) : BufferedFrom streamId cs (ids ++ [j]) lo buffer := by
  intro i
  rw [h i]
  by_cases hi : i = j
  · subst hi
    simp [Nat.not_le.mpr hj]
  · simp [hi]

/-- Nothing is buffered when every arrived id is below `lo`. -/
theorem BufferedFrom.eq_nil (h : BufferedFrom streamId cs ids lo buffer)
    (hlt : ∀ i ∈ ids, i < lo) : buffer = [] :=
  HashMap.eq_nil_of_get_eq_none fun i => by
    rw [h i, if_neg]
    rintro ⟨hi, hlo⟩
    exact absurd (hlt i hi) (Nat.not_lt.mpr hlo)

/-- `store` puts an arrived message at or above `lo` into the buffer. -/
theorem BufferedFrom.store {data : StreamData α} (h : BufferedFrom streamId cs ids lo data.messageBuffer)
    {j : Nat} (hj : j ≤ cs.length) (hlo : lo ≤ j) (hnew : j ∉ ids) :
    BufferedFrom streamId cs (ids ++ [j]) lo (data.store (streamMessage streamId cs j)).messageBuffer := by
  have habsent : data.messageBuffer.containsKey j = false := by
    simp [HashMap.containsKey, h j, hnew]
  intro i
  rw [StreamData.store, streamMessage_messageId streamId cs hj, habsent, if_neg Bool.false_ne_true]
  dsimp only
  rw [HashMap.get_insert, h i]
  by_cases hi : i = j
  · subst hi
    simp [hlo]
  · simp [hi]

end Buffered

/-- The loop stops at once when the next id is not buffered. -/
theorem processBufferLoop_of_get_none {data : StreamData α}
    (h : HashMap.get data.messageBuffer data.nextMessageId = none) (fuel : Nat) :
    processBufferLoop fuel data = (data, []) := by
  cases fuel with
  | zero => rfl
  | succ fuel => simp [processBufferLoop, HashMap.remove, h]

theorem processBufferLoop_finMessageId (fuel : Nat) (data : StreamData α) :
    (processBufferLoop fuel data).1.finMessageId = data.finMessageId := by
  induction fuel generalizing data with
  | zero => rfl
  | succ fuel ih =>
    simp only [processBufferLoop]
    split
    · rfl
    · rename_i message _ _
      cases hm : message.message <;> simp [inboundSend, hm, ih]

theorem processBufferLoop_maxMessageIdReceived (fuel : Nat) (data : StreamData α) :
    (processBufferLoop fuel data).1.maxMessageIdReceived = data.maxMessageIdReceived := by
  induction fuel generalizing data with
  | zero => rfl
  | succ fuel ih =>
    simp only [processBufferLoop]
    split
    · rfl
    · rename_i message _ _
      cases hm : message.message <;> simp [inboundSend, hm, ih]

/-- What draining the buffer from the next id `q` leaves: the next id `p` is the first one from
`q` on that has not arrived (or the `Fin`'s), the contents `q .. p - 1` went out in order, and the
buffer holds what arrived after `p`. -/
structure Drained (ids : List Nat) (q : Nat) (data : StreamData α) (sent : List (ChannelEffect α))
    (p : Nat) : Prop where
  ge : q ≤ p
  le : p ≤ cs.length
  arrived : ∀ i, q ≤ i → i < p → i ∈ ids
  gap : p < cs.length → p ∉ ids
  next : data.nextMessageId = p
  buffer : BufferedFrom streamId cs ids (p + 1) data.messageBuffer
  sent : sent = ((cs.drop q).take (p - q)).map .send

/-- Nothing to drain: the next id has not arrived, or it is the `Fin`'s. -/
theorem Drained.here {ids : List Nat} {data : StreamData α} (hq : data.nextMessageId ≤ cs.length)
    (hgap : data.nextMessageId < cs.length → data.nextMessageId ∉ ids)
    (hbuf : BufferedFrom streamId cs ids (data.nextMessageId + 1) data.messageBuffer) :
    Drained streamId cs ids data.nextMessageId data [] data.nextMessageId where
  ge := le_refl _
  le := hq
  arrived := fun _ h₁ h₂ => absurd h₂ (Nat.not_lt.mpr h₁)
  gap := hgap
  next := rfl
  buffer := hbuf
  sent := by simp

variable {streamId cs} in
/-- A drain from `q + 1` after the content `q` went out is a drain from `q`. -/
theorem Drained.cons {ids : List Nat} {q p : Nat} {data : StreamData α}
    {sent : List (ChannelEffect α)} (hd : Drained streamId cs ids (q + 1) data sent p)
    (hq : q < cs.length) (hin : q ∈ ids) :
    Drained streamId cs ids q data (.send cs[q] :: sent) p where
  ge := Nat.le_of_succ_le hd.ge
  le := hd.le
  arrived := fun i h₁ h₂ => by
    rcases Nat.eq_or_lt_of_le h₁ with rfl | h₁
    · exact hin
    · exact hd.arrived i h₁ h₂
  gap := hd.gap
  next := hd.next
  buffer := hd.buffer
  sent := by
    have hge := hd.ge
    rw [hd.sent, List.drop_eq_getElem_cons hq, show p - q = p - (q + 1) + 1 by omega]
    simp only [List.take_succ_cons, List.map_cons]

/-- **The drain of the buffer.**  By induction on the rounds left, each of which takes the next
id out of the buffer: a content goes out and moves the next id on, the `Fin` ends the loop. -/
theorem processBufferLoop_spec (ids : List Nat) :
    ∀ (fuel : Nat) (data : StreamData α), data.messageBuffer.length ≤ fuel →
      data.nextMessageId ≤ cs.length →
      BufferedFrom streamId cs ids data.nextMessageId data.messageBuffer →
      ∃ p, Drained streamId cs ids data.nextMessageId (processBufferLoop fuel data).1
        (processBufferLoop fuel data).2 p := by
  intro fuel
  induction fuel with
  | zero =>
    intro data hlen hq hbuf
    -- an empty buffer: the next id has not arrived
    have hempty : data.messageBuffer = [] := List.eq_nil_of_length_eq_zero (Nat.le_zero.mp hlen)
    have hnot : data.nextMessageId ∉ ids := by
      intro hin
      simpa [hempty, HashMap.get, hin] using hbuf.get_lo
    exact ⟨_, Drained.here streamId cs hq (fun _ => hnot) (hbuf.succ hnot)⟩
  | succ fuel ih =>
    intro data hlen hq hbuf
    cases hget : HashMap.get data.messageBuffer data.nextMessageId with
    | none =>
      rw [processBufferLoop_of_get_none hget]
      have hnot : data.nextMessageId ∉ ids := by
        intro hin
        simpa [hget, hin] using hbuf.get_lo
      exact ⟨_, Drained.here streamId cs hq (fun _ => hnot) (hbuf.succ hnot)⟩
    | some message =>
      have hin : data.nextMessageId ∈ ids := by
        by_contra hnot
        simpa [hget, hnot] using hbuf.get_lo
      have hmsg : message = streamMessage streamId cs data.nextMessageId := by
        simpa [hget, hin] using hbuf.get_lo
      subst hmsg
      have hlen' : (HashMap.remove data.messageBuffer data.nextMessageId).2.length ≤ fuel := by
        have := HashMap.length_remove_lt hget
        omega
      have hrem : HashMap.remove data.messageBuffer data.nextMessageId =
          (some (streamMessage streamId cs data.nextMessageId),
            (HashMap.remove data.messageBuffer data.nextMessageId).2) := by
        rw [← hget]
        rfl
      -- the entry taken out goes through `inbound_send` with the buffer that is left
      let rest : StreamData α := { data with
        messageBuffer := (HashMap.remove data.messageBuffer data.nextMessageId).2 }
      rcases Nat.lt_or_ge data.nextMessageId cs.length with hlt | hge
      · -- a content: it goes out, and the drain goes on from the id after it
        obtain ⟨p, hp⟩ := ih { rest with nextMessageId := data.nextMessageId + 1 } hlen' hlt
          hbuf.remove
        rw [processBufferLoop, hrem]
        dsimp only
        rw [inboundSend_streamMessage_of_lt streamId cs _ hlt]
        exact ⟨p, hp.cons hlt hin⟩
      · -- the `Fin`: nothing goes out, and the loop stops on the next round
        have heq : data.nextMessageId = cs.length := le_antisymm hq hge
        have hnone : HashMap.get rest.messageBuffer rest.nextMessageId = none := by simp [rest]
        rw [processBufferLoop, hrem]
        dsimp only
        rw [show streamMessage streamId cs data.nextMessageId = streamMessage streamId cs cs.length
          by rw [heq], inboundSend_streamMessage_fin]
        dsimp only
        rw [processBufferLoop_of_get_none hnone]
        have hq' : rest.nextMessageId ≤ cs.length := hq
        exact ⟨_, Drained.here streamId cs hq' (fun h => absurd heq (Nat.ne_of_lt h)) hbuf.remove⟩

/-- `Vec::take` of the contents, extended by the ones after it. -/
theorem map_send_take_append {p p' : Nat} (h : p ≤ p') :
    (cs.take p).map ChannelEffect.send ++ ((cs.drop p).take (p' - p)).map .send =
      (cs.take p').map .send := by
  rw [← List.map_append, ← List.take_add, Nat.add_sub_cancel' h]

/-- An open stream whose first `p` contents went out: `p` is the first id that has not arrived,
the `Fin`'s id is recorded once it arrived, no id above it was seen, and the buffer holds exactly
what arrived after `p`. -/
structure Open (ids : List Nat) (data : StreamData α) (p : Nat) : Prop where
  ids_le : ∀ i ∈ ids, i ≤ cs.length
  le : p ≤ cs.length
  arrived : ∀ i < p, i ∈ ids
  gap : p ∉ ids
  next : data.nextMessageId = p
  fin : data.finMessageId = if cs.length ∈ ids then some cs.length else none
  max_le : data.maxMessageIdReceived ≤ cs.length
  buffer : BufferedFrom streamId cs ids (p + 1) data.messageBuffer

/-- Where one stream stands once the messages with ids `ids` arrived: the state of its entry and
the effects on its channel so far. -/
inductive Progress (ids : List Nat) : Option (StreamData α) → List (ChannelEffect α) → Prop
  /-- nothing arrived: no entry and no channel -/
  | idle : ids = [] → Progress ids none []
  /-- the receiver went out, then the first `p` contents -/
  | active {data : StreamData α} {p : Nat} : Open streamId cs ids data p →
      Progress ids (some data) (.newReceiver :: (cs.take p).map .send)
  /-- everything arrived: all contents went out and then the closing, and the entry is gone -/
  | closed : (∀ i ≤ cs.length, i ∈ ids) →
      Progress ids none (.newReceiver :: cs.map .send ++ [.close])

theorem open_new : Open streamId cs [] StreamData.new 0 where
  ids_le := fun _ h => absurd h List.not_mem_nil
  le := Nat.zero_le _
  arrived := fun _ h => absurd h (Nat.not_lt_zero _)
  gap := List.not_mem_nil
  next := rfl
  fin := by simp [StreamData.new]
  max_le := Nat.zero_le _
  buffer := fun i => by simp [StreamData.new, HashMap.get]

theorem Open.fin_cases {ids : List Nat} {data : StreamData α} {p : Nat}
    (ho : Open streamId cs ids data p) :
    data.finMessageId = none ∨ data.finMessageId = some cs.length := by
  rw [ho.fin]
  split
  · exact Or.inr rfl
  · exact Or.inl rfl

/-- The data once `handle_message` noted message `j`: the highest id seen so far, and the id of
the `Fin` when `j` is the `Fin`. -/
def noted (data : StreamData α) (j : Nat) : StreamData α :=
  { data with maxMessageIdReceived := max data.maxMessageIdReceived j,
              finMessageId := if j = cs.length then some cs.length else data.finMessageId }

theorem noted_finMessageId {ids : List Nat} {data : StreamData α} {p : Nat}
    (ho : Open streamId cs ids data p) (j : Nat) :
    (noted cs data j).finMessageId =
      if cs.length ∈ ids ++ [j] then some cs.length else none := by
  simp only [noted]
  rw [ho.fin]
  by_cases hj : j = cs.length
  · simp [hj]
  · simp [hj, Ne.symm hj]

/-- With no id above `cs.length` seen and no other `Fin`, no message of the stream is dropped by
the checks against the `Fin`. -/
theorem receive_streamMessage (hn : cs.length ≤ u64Max) {data : StreamData α}
    (hmax : data.maxMessageIdReceived ≤ cs.length)
    (hfin : data.finMessageId = none ∨ data.finMessageId = some cs.length) {j : Nat}
    (hj : j ≤ cs.length) :
    data.receive (streamMessage streamId cs j) =
      (noted cs data j).deliver (streamMessage streamId cs j) := by
  have hmaxj : (if data.maxMessageIdReceived < j then { data with maxMessageIdReceived := j }
      else data) = { data with maxMessageIdReceived := max data.maxMessageIdReceived j } := by
    by_cases h : data.maxMessageIdReceived < j
    · rw [if_pos h, Nat.max_eq_right h.le]
    · rw [if_neg h, Nat.max_eq_left (Nat.not_lt.mp h)]
  rcases Nat.lt_or_ge j cs.length with hlt | hge
  · -- a content: its id is below the `Fin`'s, recorded or not
    have hbelow : ¬ j > data.finMessageId.getD u64Max := by
      rcases hfin with h | h <;> simp [h] <;> omega
    simp only [receive, streamMessage, dif_pos hlt]
    rw [hmaxj]
    simp [hbelow, noted, hlt.ne]
  · -- the `Fin`: no higher id was seen
    obtain rfl : j = cs.length := le_antisymm hj hge
    have hm : streamMessage streamId cs cs.length = ⟨.fin, streamId, cs.length⟩ := by
      simp [streamMessage]
    rw [hm]
    simp only [receive]
    rw [hmaxj]
    simp [noted, hmax]

theorem deliver_of_gt {data : StreamData α} {message : StreamMessage α}
    (h : data.nextMessageId < message.messageId) :
    data.deliver message = (some (data.store message), []) := by
  simp [deliver, h.ne', h]

/-- The expected message goes out and drains the buffer behind it; the stream closes when that
leaves the buffer empty with the `Fin` seen. -/
theorem deliver_next {ids : List Nat} {data : StreamData α} (hq : data.nextMessageId ≤ cs.length)
    (hbuf : BufferedFrom streamId cs ids (data.nextMessageId + 1) data.messageBuffer) :
    ∃ d s p, Drained streamId cs (ids ++ [data.nextMessageId]) data.nextMessageId d s p ∧
      d.finMessageId = data.finMessageId ∧ d.maxMessageIdReceived = data.maxMessageIdReceived ∧
      data.deliver (streamMessage streamId cs data.nextMessageId) =
        if d.messageBuffer.isEmpty && d.finMessageId.isSome then (none, s ++ [.close])
        else (some d, s) := by
  have hid := streamMessage_messageId streamId cs hq
  have hbuf' := hbuf.append_of_lt (Nat.lt_succ_self data.nextMessageId)
  rcases Nat.lt_or_ge data.nextMessageId cs.length with hlt | hge
  · -- a content goes out, and the drain starts from the id after it
    let sent : StreamData α := { data with nextMessageId := data.nextMessageId + 1 }
    obtain ⟨p, hp⟩ := processBufferLoop_spec streamId cs (ids ++ [data.nextMessageId]) _ sent
      le_rfl hlt hbuf'
    refine ⟨_, _, p, hp.cons hlt (by simp), processBufferLoop_finMessageId _ _,
      processBufferLoop_maxMessageIdReceived _ _, ?_⟩
    rw [deliver, if_pos hid, inboundSend_streamMessage_of_lt streamId cs _ hlt]
    rfl
  · -- the `Fin`: nothing goes out, and nothing is buffered after it
    have heq : data.nextMessageId = cs.length := le_antisymm hq hge
    have hnone : HashMap.get data.messageBuffer data.nextMessageId = none := by
      rw [hbuf]
      simp
    refine ⟨data, [], data.nextMessageId,
      Drained.here streamId cs hq (fun h => absurd heq (Nat.ne_of_lt h)) hbuf', rfl, rfl, ?_⟩
    rw [deliver, if_pos hid, show streamMessage streamId cs data.nextMessageId =
      streamMessage streamId cs cs.length by rw [heq], inboundSend_streamMessage_fin]
    simp only [processBuffer, processBufferLoop_of_get_none hnone, List.append_nil]

/-- The test that closes a stream passes exactly when every content went out and the `Fin`
arrived. -/
theorem closes_iff {ids : List Nat} {data : StreamData α} {p : Nat}
    (hle : ∀ i ∈ ids, i ≤ cs.length) (hp : p ≤ cs.length)
    (hbuf : BufferedFrom streamId cs ids (p + 1) data.messageBuffer)
    (hfin : data.finMessageId = if cs.length ∈ ids then some cs.length else none) :
    (data.messageBuffer.isEmpty && data.finMessageId.isSome) = true ↔
      p = cs.length ∧ cs.length ∈ ids := by
  constructor
  · rintro h
    simp only [Bool.and_eq_true, List.isEmpty_iff] at h
    obtain ⟨hempty, hsome⟩ := h
    have hn : cs.length ∈ ids := by
      by_contra hn
      simp [hfin, hn] at hsome
    -- a `Fin` above `p` would still be in the buffer
    have hnot : ¬ p + 1 ≤ cs.length := by
      intro hlt
      simpa [hempty, HashMap.get, hn, hlt] using hbuf cs.length
    exact ⟨by omega, hn⟩
  · rintro ⟨rfl, hn⟩
    have hempty := hbuf.eq_nil fun i hi => Nat.lt_succ_of_le (hle i hi)
    simp [hempty, hfin, hn]

/-- **One message of an open stream.**  The expected one goes out with what it unblocks and may
close the stream; a later one waits in the buffer; an earlier one cannot be new. -/
theorem receive_open (hn : cs.length ≤ u64Max) {ids : List Nat} {data : StreamData α} {p : Nat}
    (ho : Open streamId cs ids data p) {j : Nat} (hj : j ≤ cs.length) (hnew : j ∉ ids) :
    Progress streamId cs (ids ++ [j]) (data.receive (streamMessage streamId cs j)).1
      (.newReceiver :: (cs.take p).map .send ++ (data.receive (streamMessage streamId cs j)).2) := by
  have hle : ∀ i ∈ ids ++ [j], i ≤ cs.length := by
    intro i hi
    rcases List.mem_append.mp hi with hi | hi
    · exact ho.ids_le i hi
    · rw [List.mem_singleton.mp hi]
      exact hj
  have hfin := noted_finMessageId streamId cs ho j
  rw [receive_streamMessage streamId cs hn ho.max_le ho.fin_cases hj]
  rcases lt_trichotomy j p with hlt | rfl | hgt
  · exact absurd (ho.arrived j hlt) hnew
  · -- the expected message
    have hq : (noted cs data j).nextMessageId ≤ cs.length := ho.next ▸ ho.le
    have hbuf : BufferedFrom streamId cs ids ((noted cs data j).nextMessageId + 1)
        (noted cs data j).messageBuffer := ho.next ▸ ho.buffer
    obtain ⟨d, s, p', hd, hdfin, hdmax, hdeliver⟩ := deliver_next streamId cs hq hbuf
    have hnext : (noted cs data j).nextMessageId = j := ho.next
    rw [hnext] at hd hdeliver
    rw [← hdfin] at hfin
    have hclose := closes_iff streamId cs hle hd.le hd.buffer hfin
    rw [hdeliver]
    by_cases hc : (d.messageBuffer.isEmpty && d.finMessageId.isSome) = true
    · obtain ⟨rfl, hnin⟩ := hclose.mp hc
      rw [if_pos hc]
      dsimp only
      rw [hd.sent, List.cons_append, ← List.append_assoc, map_send_take_append cs hd.ge,
        List.take_length, ← List.cons_append]
      refine .closed fun i hi => ?_
      rcases Nat.lt_or_ge i j with h₁ | h₁
      · exact List.mem_append_left _ (ho.arrived i h₁)
      · rcases Nat.eq_or_lt_of_le hi with rfl | h₂
        · exact hnin
        · exact hd.arrived i h₁ h₂
    · rw [if_neg hc]
      dsimp only
      rw [hd.sent, List.cons_append, map_send_take_append cs hd.ge]
      refine .active ⟨hle, hd.le, fun i hi => ?_, fun hp' => ?_, hd.next, hfin,
        by rw [hdmax]; exact max_le ho.max_le hj, hd.buffer⟩
      · rcases Nat.lt_or_ge i j with h₁ | h₁
        · exact List.mem_append_left _ (ho.arrived i h₁)
        · exact hd.arrived i h₁ hi
      · -- the drain stopped at `p'`, or the stream would have closed there
        rcases Nat.lt_or_ge p' cs.length with h₁ | h₁
        · exact hd.gap h₁ hp'
        · exact hc (hclose.mpr ⟨le_antisymm hd.le h₁, le_antisymm hd.le h₁ ▸ hp'⟩)
  · -- a later message waits in the buffer
    have hid := streamMessage_messageId streamId cs hj
    rw [deliver_of_gt (by rw [hid]; exact ho.next ▸ hgt), List.append_nil]
    have hgap : p ∉ ids ++ [j] := by
      simpa [ho.gap] using hgt.ne
    have hbuf : BufferedFrom streamId cs ids (p + 1) (noted cs data j).messageBuffer := ho.buffer
    exact .active ⟨hle, ho.le, fun i hi => List.mem_append_left _ (ho.arrived i hi), hgap,
      by simpa [noted] using ho.next, by simpa using hfin, by simpa [noted] using max_le ho.max_le hj,
      hbuf.store hj hgt hnew⟩

/-- **One message of a stream, from any point of its progress.** -/
theorem streamStep_progress (hn : cs.length ≤ u64Max) {ids : List Nat}
    {st : Option (StreamData α)} {out : List (ChannelEffect α)}
    (hpr : Progress streamId cs ids st out) {j : Nat} (hj : j ≤ cs.length) (hnew : j ∉ ids) :
    Progress streamId cs (ids ++ [j]) (streamStep st (streamMessage streamId cs j)).1
      (out ++ (streamStep st (streamMessage streamId cs j)).2) := by
  cases hpr with
  | idle h =>
    -- the first message creates the entry and hands out the receiver
    subst h
    simpa [streamStep] using receive_open streamId cs hn (open_new streamId cs) hj hnew
  | active ho => exact receive_open streamId cs hn ho hj hnew
  | closed hall => exact absurd (hall j hj) hnew

end OneStream

/-- An open stream has a message that has not arrived: the next one. -/
theorem Progress.of_all_arrived {streamId : Nat} {cs : List α} {ids : List Nat}
    {st : Option (StreamData α)} {out : List (ChannelEffect α)}
    (hpr : Progress streamId cs ids st out) (hall : ∀ i ≤ cs.length, i ∈ ids) :
    st = none ∧ out = .newReceiver :: cs.map .send ++ [.close] := by
  cases hpr with
  | idle h =>
    have := hall 0 (Nat.zero_le _)
    simp [h] at this
  | active ho => exact absurd (hall _ ho.le) ho.gap
  | closed _ => exact ⟨rfl, rfl⟩

end StreamData

/-! ## 4. Many streams

A message touches the entry and the channel of its own stream only (`get_handleMessage`,
`handleMessage_effects`), so a run over interleaved streams is, stream by stream, a run of
`streamStep` over that stream's messages in the order they arrived.  `Reassembling` says so
after every prefix of the deliveries. -/

/-- The messages of one stream as the network hands them over, with their originator. -/
def streamDeliveries (s : StreamKey × List α) : List (StreamMessage α × PeerId) :=
  (streamMessages s.1.2 s.2).map fun m => (m, s.1.1)

/-- Every message of every stream. -/
def allMessages (streams : List (StreamKey × List α)) : List (StreamMessage α × PeerId) :=
  streams.flatMap streamDeliveries

/-- The key of the stream of a delivered message. -/
def deliveryKey (d : StreamMessage α × PeerId) : StreamKey := (d.2, d.1.streamId)

/-- The ids of stream `k`'s messages among the deliveries `D`, in the order they arrived. -/
def idsOf (k : StreamKey) (D : List (StreamMessage α × PeerId)) : List Nat :=
  (D.filter fun d => deliveryKey d = k).map fun d => d.1.messageId

/-- The effects on stream `k`'s channel. -/
def effectsOf (k : StreamKey) (out : List (StreamKey × ChannelEffect α)) : List (ChannelEffect α) :=
  (out.filter fun e => e.1 = k).map Prod.snd

theorem mem_streamDeliveries {s : StreamKey × List α} {d : StreamMessage α × PeerId} :
    d ∈ streamDeliveries s ↔ ∃ j ≤ s.2.length, d = (streamMessage s.1.2 s.2 j, s.1.1) := by
  simp only [streamDeliveries, streamMessages, List.map_map, List.mem_map, List.mem_range,
    Function.comp_apply, Nat.lt_succ_iff]
  constructor
  · rintro ⟨j, hj, rfl⟩
    exact ⟨j, hj, rfl⟩
  · rintro ⟨j, hj, rfl⟩
    exact ⟨j, hj, rfl⟩

theorem deliveryKey_of_mem_streamDeliveries {s : StreamKey × List α}
    {d : StreamMessage α × PeerId} (h : d ∈ streamDeliveries s) : deliveryKey d = s.1 := by
  obtain ⟨j, -, rfl⟩ := mem_streamDeliveries.mp h
  simp [deliveryKey]

theorem mem_allMessages {streams : List (StreamKey × List α)} {d : StreamMessage α × PeerId} :
    d ∈ allMessages streams ↔ ∃ s ∈ streams, d ∈ streamDeliveries s := by
  simp [allMessages]

/-- With distinct keys, every message of every stream is a different delivery. -/
theorem nodup_allMessages {streams : List (StreamKey × List α)}
    (hkeys : (streams.map Prod.fst).Nodup) : (allMessages streams).Nodup := by
  rw [allMessages, List.nodup_flatMap]
  constructor
  · -- within a stream the ids tell the messages apart
    intro s _
    rw [streamDeliveries, streamMessages, List.map_map]
    refine List.Nodup.map_on (fun i hi i' hi' h => ?_) List.nodup_range
    have hi := Nat.lt_succ_iff.mp (List.mem_range.mp hi)
    have hi' := Nat.lt_succ_iff.mp (List.mem_range.mp hi')
    have hid := congrArg (fun d => d.1.messageId) h
    simpa [StreamData.streamMessage_messageId _ _ hi,
      StreamData.streamMessage_messageId _ _ hi'] using hid
  · -- across streams the keys do
    refine (List.pairwise_map.mp hkeys).imp fun hne d hd hd' => hne ?_
    rw [← deliveryKey_of_mem_streamDeliveries hd, deliveryKey_of_mem_streamDeliveries hd']

theorem idsOf_append (k : StreamKey) (D : List (StreamMessage α × PeerId))
    (d : StreamMessage α × PeerId) :
    idsOf k (D ++ [d]) = idsOf k D ++ if deliveryKey d = k then [d.1.messageId] else [] := by
  by_cases h : deliveryKey d = k
  · simp [idsOf, h]
  · simp [idsOf, h]

theorem effectsOf_append_map (k k' : StreamKey) (out : List (StreamKey × ChannelEffect α))
    (es : List (ChannelEffect α)) :
    effectsOf k (out ++ es.map fun e => (k', e)) = effectsOf k out ++ if k' = k then es else [] := by
  by_cases h : k' = k
  · simp [effectsOf, h, List.filter_map, Function.comp_def]
  · simp [effectsOf, h, List.filter_map, Function.comp_def]

/-- `handle_message` on a decoded message is one `streamStep` of its stream. -/
theorem handleMessage_ok (handler : StreamHandler α) (m : StreamMessage α) (peer : PeerId) :
    handler.handleMessage ((.ok m : Except ε (StreamMessage α)), peer) =
      (⟨match (StreamData.streamStep (HashMap.get handler.inboundStreamData (peer, m.streamId)) m).1
          with
        | some data => (HashMap.insert handler.inboundStreamData (peer, m.streamId) data).2
        | none => (HashMap.remove handler.inboundStreamData (peer, m.streamId)).2⟩,
       (StreamData.streamStep (HashMap.get handler.inboundStreamData (peer, m.streamId)) m).2.map
          fun e => ((peer, m.streamId), e)) := by
  unfold StreamHandler.handleMessage StreamData.streamStep
  dsimp only
  cases HashMap.get handler.inboundStreamData (peer, m.streamId) with
  | none => rfl
  | some data => rfl

/-- A message's effects are those of its stream's step, on its stream's channel. -/
theorem handleMessage_effects (handler : StreamHandler α) (m : StreamMessage α) (peer : PeerId) :
    (handler.handleMessage ((.ok m : Except ε (StreamMessage α)), peer)).2 =
      (StreamData.streamStep (HashMap.get handler.inboundStreamData (peer, m.streamId)) m).2.map
        fun e => ((peer, m.streamId), e) := by
  rw [handleMessage_ok]

/-- A message changes its own stream's entry only. -/
theorem get_handleMessage (handler : StreamHandler α) (m : StreamMessage α) (peer : PeerId)
    (k : StreamKey) :
    HashMap.get (handler.handleMessage ((.ok m : Except ε (StreamMessage α)), peer)).1.inboundStreamData
        k =
      if k = (peer, m.streamId) then
        (StreamData.streamStep (HashMap.get handler.inboundStreamData k) m).1
      else HashMap.get handler.inboundStreamData k := by
  rw [handleMessage_ok]
  dsimp only
  by_cases hk : k = (peer, m.streamId)
  · subst hk
    split
    · rename_i data heq
      simp [heq]
    · rename_i heq
      simp [heq]
  · split
    · simp [hk]
    · simp [hk]

/-- The state of the handler and its effects after the deliveries `D`: each stream stands where
its own messages among `D` put it, and nothing else was touched. -/
structure Reassembling (streams : List (StreamKey × List α)) (D : List (StreamMessage α × PeerId))
    (handler : StreamHandler α) (out : List (StreamKey × ChannelEffect α)) : Prop where
  progress : ∀ s ∈ streams, StreamData.Progress s.1.2 s.2 (idsOf s.1 D)
    (HashMap.get handler.inboundStreamData s.1) (effectsOf s.1 out)
  others : ∀ k ∉ streams.map Prod.fst, HashMap.get handler.inboundStreamData k = none
  keys : ∀ e ∈ out, e.1 ∈ streams.map Prod.fst

theorem reassembling_nil (streams : List (StreamKey × List α)) :
    Reassembling streams [] StreamHandler.new [] where
  progress := fun _ _ => .idle rfl
  others := fun _ _ => rfl
  keys := fun _ h => absurd h List.not_mem_nil

section Run

variable {streams : List (StreamKey × List α)} (hkeys : (streams.map Prod.fst).Nodup)
  (hlen : ∀ s ∈ streams, s.2.length ≤ u64Max)

include hkeys hlen in
/-- **One delivery.**  Message `j` of stream `s`, new to it, is one `streamStep` of `s`, and
leaves every other stream as it was. -/
theorem Reassembling.step {D : List (StreamMessage α × PeerId)} {handler : StreamHandler α}
    {out : List (StreamKey × ChannelEffect α)} (hr : Reassembling streams D handler out)
    {s : StreamKey × List α} (hs : s ∈ streams) {j : Nat} (hj : j ≤ s.2.length)
    (hnew : j ∉ idsOf s.1 D) :
    Reassembling streams (D ++ [(streamMessage s.1.2 s.2 j, s.1.1)])
      (handler.handleMessage ((.ok (streamMessage s.1.2 s.2 j) : Except Unit (StreamMessage α)),
        s.1.1)).1
      (out ++ (handler.handleMessage
        ((.ok (streamMessage s.1.2 s.2 j) : Except Unit (StreamMessage α)), s.1.1)).2) := by
  have hkey : ((s.1.1, (streamMessage s.1.2 s.2 j).streamId) : StreamKey) = s.1 := by simp
  have hid := StreamData.streamMessage_messageId s.1.2 s.2 hj
  refine ⟨fun t ht => ?_, fun k hk => ?_, fun e he => ?_⟩
  · rw [get_handleMessage, handleMessage_effects, hkey, idsOf_append, effectsOf_append_map]
    by_cases hts : t.1 = s.1
    · -- the stream of the message takes one step
      obtain rfl : t = s := List.inj_on_of_nodup_map hkeys ht hs hts
      simp only [deliveryKey, hkey, hid, if_true]
      exact StreamData.streamStep_progress _ _ (hlen t ht) (hr.progress t ht) hj hnew
    · -- any other stream is left as it was
      have hst : s.1 ≠ t.1 := Ne.symm hts
      simp only [deliveryKey, hkey, hts, hst, if_false, List.append_nil]
      exact hr.progress t ht
  · have hks : k ≠ s.1 := fun h => hk (h ▸ List.mem_map_of_mem hs)
    rw [get_handleMessage, hkey, if_neg hks]
    exact hr.others k hk
  · rcases List.mem_append.mp he with he | he
    · exact hr.keys e he
    · rw [handleMessage_effects, hkey] at he
      obtain ⟨_, -, rfl⟩ := List.mem_map.mp he
      exact List.mem_map_of_mem hs

include hkeys in
/-- In a delivery order without repeats, a message of stream `s` is new to `s` when it comes:
an earlier one with its key and id would be the same message. -/
theorem not_mem_idsOf {D R : List (StreamMessage α × PeerId)} {x : StreamMessage α × PeerId}
    (hnd : (D ++ x :: R).Nodup) (hall : ∀ y ∈ D, y ∈ allMessages streams)
    {s : StreamKey × List α} (hs : s ∈ streams) {j : Nat} (hj : j ≤ s.2.length)
    (hx : x = (streamMessage s.1.2 s.2 j, s.1.1)) : j ∉ idsOf s.1 D := by
  intro hin
  obtain ⟨y, hy, hyid⟩ := List.mem_map.mp hin
  obtain ⟨hyD, hykey⟩ := List.mem_filter.mp hy
  obtain ⟨t, ht, hyt⟩ := mem_allMessages.mp (hall y hyD)
  -- the earlier message is of stream `s` ...
  obtain rfl : t = s := List.inj_on_of_nodup_map hkeys ht hs
    ((deliveryKey_of_mem_streamDeliveries hyt).symm.trans (of_decide_eq_true hykey))
  obtain ⟨i, hi, rfl⟩ := mem_streamDeliveries.mp hyt
  -- ... and has id `j`, so it is `x`
  obtain rfl : i = j := by
    simpa [StreamData.streamMessage_messageId _ _ hi] using hyid
  exact List.disjoint_of_nodup_append hnd hyD (hx ▸ List.mem_cons_self)

include hkeys hlen in
/-- **The run.**  By the prefix of the deliveries handled so far: each next one is a message new
to its stream. -/
theorem handleMessages_reassembling {deliveries : List (StreamMessage α × PeerId)}
    (hperm : deliveries.Perm (allMessages streams)) :
    Reassembling streams deliveries (StreamHandler.new.handleMessages deliveries).1
      (StreamHandler.new.handleMessages deliveries).2 := by
  have hnd : deliveries.Nodup := hperm.nodup_iff.mpr (nodup_allMessages hkeys)
  unfold StreamHandler.handleMessages
  refine foldl_prefix_inv _
    (fun D (acc : StreamHandler α × List (StreamKey × ChannelEffect α)) =>
      Reassembling streams D acc.1 acc.2)
    (reassembling_nil streams) ?_
  intro D x R hsplit acc hacc
  have hall : ∀ y ∈ D, y ∈ allMessages streams := fun y hy =>
    hperm.subset (hsplit ▸ List.mem_append_left _ hy)
  have hx : x ∈ allMessages streams := hperm.subset (hsplit ▸ List.mem_append_right _ List.mem_cons_self)
  obtain ⟨s, hs, hxs⟩ := mem_allMessages.mp hx
  obtain ⟨j, hj, rfl⟩ := mem_streamDeliveries.mp hxs
  exact hacc.step hkeys hlen hs hj (not_mem_idsOf hkeys (hsplit ▸ hnd) hall hs hj rfl)

end Run

end Sequencer.Consensus
