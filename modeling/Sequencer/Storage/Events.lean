/-
# Iterating over events (`papyrus_storage`: `body/events.rs`)

`iter_events(None, e, B)` walks the metadata table: it positions a cursor at the lower bound of
the transaction index of `e`, keeps the event index of `e` as the offset in that transaction,
and then yields event after event (`EventIterByEventIndex::next`), moving to the next
transaction when the current one has no event at the offset and stopping at the first
transaction past block `B` (`find_next_event_by_event_index`).

The iterator is modelled as its state and `next`, and a caller's loop as `drain` with fuel.
`pendingEvents` says what a state still yields; `drain_iterEventsByEventIndex` proves that any
fuel above the number of stored events yields exactly that, so the loop ends.

Against the events the claim of the storage expects (`expectedEvents`: all stored events at or
after `e`, in blocks up to `B`, in event-index order), the iterator is right when the transaction
of `e` is stored (`iterEventsByEventIndex_of_stored`).  When it is not, the lower bound lands on
a later transaction, but the offset of `e` is kept: that transaction's first events are skipped
(`iterEventsByEventIndex_skips_events`).
-/
import Sequencer.Storage.Body

namespace Sequencer.Storage

open OrderedTable

/-! ## 1. The iterator by event index -/

abbrev EventIndexInTransactionOutput := Nat

/-- `EventIndex`: a transaction and an index in its output, in lexicographic order. -/
abbrev EventIndex := TransactionIndex ×ₗ EventIndexInTransactionOutput

/-- What the iterators yield: `((ContractAddress, EventIndex), EventContent)`. -/
abbrev EventItem := (ContractAddress × EventIndex) × EventContent

/-- The events of an output from an offset on, keyed as the iterators key them. -/
def txEvents (txIndex : TransactionIndex) (txOutput : TransactionOutput)
    (start : EventIndexInTransactionOutput) : List EventItem :=
  (txOutput.events.zipIdx.drop start).map fun (event, i) =>
    ((event.fromAddress, toLex (txIndex, i)), event.content)

/-- `EventIterByEventIndex`.  The cursor is the part of the metadata table after the current
transaction. -/
structure EventIterByEventIndex where
  txCurrent : Option (TransactionIndex × TransactionOutput)
  txCursor : List (TransactionIndex × TransactionMetadata)
  eventIndexInTxCurrent : EventIndexInTransactionOutput
  toBlockNumber : BlockNumber

/-- The loop of `find_next_event_by_event_index`, one transaction of the cursor a round: stop
past the last block, or at an event at the offset; else take the next transaction, from its
first event. -/
def findNextLoop (toBlockNumber : BlockNumber) :
    Option (TransactionIndex × TransactionOutput) → List (TransactionIndex × TransactionMetadata) →
      EventIndexInTransactionOutput →
      Option (TransactionIndex × TransactionOutput) × List (TransactionIndex × TransactionMetadata) ×
        EventIndexInTransactionOutput
  | none, txCursor, i => (none, txCursor, i)
  | some (txIndex, txOutput), txCursor, i =>
    if toBlockNumber < (ofLex txIndex).1 then (none, txCursor, i)
    else if i < txOutput.events.length then (some (txIndex, txOutput), txCursor, i)
    else
      match txCursor with
      | [] => (none, [], i)
      | (txIndex', txMetadata) :: rest =>
        findNextLoop toBlockNumber (some (txIndex', txMetadata.txOutput)) rest 0
termination_by structural _ txCursor _ => txCursor

namespace EventIterByEventIndex

/-- `find_next_event_by_event_index`. -/
def findNextEventByEventIndex (it : EventIterByEventIndex) : EventIterByEventIndex :=
  let found := findNextLoop it.toBlockNumber it.txCurrent it.txCursor it.eventIndexInTxCurrent
  { it with txCurrent := found.1, txCursor := found.2.1, eventIndexInTxCurrent := found.2.2 }

/-- `EventIterByEventIndex::next`: the event at the offset, then the next position. -/
def next (it : EventIterByEventIndex) : Option (EventItem × EventIterByEventIndex) :=
  match it.txCurrent with
  | none => none
  | some (txIndex, txOutput) =>
    match txOutput.events[it.eventIndexInTxCurrent]? with
    | none => none
    | some event =>
      some (((event.fromAddress, toLex (txIndex, it.eventIndexInTxCurrent)), event.content),
        { it with eventIndexInTxCurrent := it.eventIndexInTxCurrent + 1 }.findNextEventByEventIndex)

end EventIterByEventIndex

/-- `iter_events_by_event_index`: the lower bound of the transaction index, with the event index
of `e` as the offset in whatever transaction it finds. -/
def BodyStorage.iterEventsByEventIndex (s : BodyStorage) (eventIndex : EventIndex)
    (toBlockNumber : BlockNumber) : EventIterByEventIndex :=
  let position := s.transactionMetadata.lowerBound (ofLex eventIndex).1
  EventIterByEventIndex.findNextEventByEventIndex
    { txCurrent := (s.transactionMetadata.entries[position]?).map fun e => (e.1, e.2.txOutput)
      txCursor := s.transactionMetadata.entries.drop (position + 1)
      eventIndexInTxCurrent := (ofLex eventIndex).2
      toBlockNumber }

/-! ## 2. What an iterator yields -/

/-- What an iterator state still yields: the events of the current transaction from the offset,
then those of each later transaction, up to the first one past `toBlockNumber`. -/
def pendingEvents (toBlockNumber : BlockNumber) :
    Option (TransactionIndex × TransactionOutput) → List (TransactionIndex × TransactionMetadata) →
      EventIndexInTransactionOutput → List EventItem
  | none, _, _ => []
  | some (txIndex, txOutput), txCursor, i =>
    if toBlockNumber < (ofLex txIndex).1 then []
    else txEvents txIndex txOutput i ++
      match txCursor with
      | [] => []
      | (txIndex', txMetadata) :: rest =>
        pendingEvents toBlockNumber (some (txIndex', txMetadata.txOutput)) rest 0
termination_by structural _ txCursor _ => txCursor

namespace EventIterByEventIndex

/-- A state that `find_next_event_by_event_index` leaves: at an event, or at the end. -/
def Ready (it : EventIterByEventIndex) : Prop :=
  ∀ txIndex txOutput, it.txCurrent = some (txIndex, txOutput) →
    (ofLex txIndex).1 ≤ it.toBlockNumber ∧ it.eventIndexInTxCurrent < txOutput.events.length

/-- What a state still yields. -/
def pending (it : EventIterByEventIndex) : List EventItem :=
  pendingEvents it.toBlockNumber it.txCurrent it.txCursor it.eventIndexInTxCurrent

end EventIterByEventIndex

theorem txEvents_eq_nil {txIndex : TransactionIndex} {txOutput : TransactionOutput} {i : Nat}
    (h : txOutput.events.length ≤ i) : txEvents txIndex txOutput i = [] := by
  simp [txEvents, h]

theorem txEvents_eq_cons {txIndex : TransactionIndex} {txOutput : TransactionOutput} {i : Nat}
    {event : Event} (h : txOutput.events[i]? = some event) :
    txEvents txIndex txOutput i =
      ((event.fromAddress, toLex (txIndex, i)), event.content) :: txEvents txIndex txOutput (i + 1) := by
  obtain ⟨hlt, hget⟩ := List.getElem?_eq_some_iff.mp h
  have hlt' : i < txOutput.events.zipIdx.length := by simpa using hlt
  rw [txEvents, List.drop_eq_getElem_cons hlt', List.map_cons, txEvents]
  simp [hget]

/-- Skipping transactions without an event at the offset changes nothing that is yielded. -/
theorem pendingEvents_findNextLoop (toBlockNumber : BlockNumber) :
    ∀ (txCursor : List (TransactionIndex × TransactionMetadata))
      (txCurrent : Option (TransactionIndex × TransactionOutput)) (i : Nat),
      pendingEvents toBlockNumber (findNextLoop toBlockNumber txCurrent txCursor i).1
        (findNextLoop toBlockNumber txCurrent txCursor i).2.1
        (findNextLoop toBlockNumber txCurrent txCursor i).2.2 =
      pendingEvents toBlockNumber txCurrent txCursor i
  | _, none, _ => by simp [findNextLoop, pendingEvents]
  | [], some (txIndex, txOutput), i => by
    by_cases hpast : toBlockNumber < (ofLex txIndex).1
    · simp [findNextLoop, pendingEvents, hpast]
    · by_cases hat : i < txOutput.events.length
      · simp [findNextLoop, hpast, hat]
      · simp [findNextLoop, pendingEvents, hpast, hat, txEvents_eq_nil (not_lt.mp hat)]
  | (txIndex', txMetadata) :: rest, some (txIndex, txOutput), i => by
    by_cases hpast : toBlockNumber < (ofLex txIndex).1
    · simp [findNextLoop, pendingEvents, hpast]
    · by_cases hat : i < txOutput.events.length
      · simp [findNextLoop, hpast, hat]
      · -- no event at the offset: the current transaction yields nothing, the next one all
        simp only [findNextLoop, hpast, hat, if_false]
        rw [pendingEvents_findNextLoop toBlockNumber rest]
        simp [pendingEvents, hpast, txEvents_eq_nil (not_lt.mp hat)]

/-- `find_next_event_by_event_index` stops at an event, or at the end. -/
theorem findNextLoop_ready (toBlockNumber : BlockNumber) :
    ∀ (txCursor : List (TransactionIndex × TransactionMetadata))
      (txCurrent : Option (TransactionIndex × TransactionOutput)) (i : Nat)
      (txIndex : TransactionIndex) (txOutput : TransactionOutput),
      (findNextLoop toBlockNumber txCurrent txCursor i).1 = some (txIndex, txOutput) →
      (ofLex txIndex).1 ≤ toBlockNumber ∧
        (findNextLoop toBlockNumber txCurrent txCursor i).2.2 < txOutput.events.length
  | _, none, _, _, _, h => by simp [findNextLoop] at h
  | [], some (txIndex, txOutput), i, _, _, h => by
    by_cases hpast : toBlockNumber < (ofLex txIndex).1
    · simp [findNextLoop, hpast] at h
    · by_cases hat : i < txOutput.events.length
      · simp only [findNextLoop, hpast, hat, if_false, if_true, Option.some.injEq,
          Prod.mk.injEq] at h ⊢
        obtain ⟨rfl, rfl⟩ := h
        exact ⟨not_lt.mp hpast, hat⟩
      · simp [findNextLoop, hpast, hat] at h
  | (txIndex', txMetadata) :: rest, some (txIndex, txOutput), i, _, _, h => by
    by_cases hpast : toBlockNumber < (ofLex txIndex).1
    · simp [findNextLoop, hpast] at h
    · by_cases hat : i < txOutput.events.length
      · simp only [findNextLoop, hpast, hat, if_false, if_true, Option.some.injEq,
          Prod.mk.injEq] at h ⊢
        obtain ⟨rfl, rfl⟩ := h
        exact ⟨not_lt.mp hpast, hat⟩
      · simp only [findNextLoop, hpast, hat, if_false] at h ⊢
        exact findNextLoop_ready toBlockNumber rest _ 0 _ _ h

/-- The events not passed yet of a state, by its parts. -/
def cursorSize (txCurrent : Option (TransactionIndex × TransactionOutput))
    (txCursor : List (TransactionIndex × TransactionMetadata)) (i : Nat) : Nat :=
  (match txCurrent with
    | none => 0
    | some (_, txOutput) => txOutput.events.length - i) +
  (txCursor.map fun e => e.2.txOutput.events.length).sum

/-- `find_next_event_by_event_index` passes no event it has not skipped. -/
theorem cursorSize_findNextLoop_le (toBlockNumber : BlockNumber) :
    ∀ (txCursor : List (TransactionIndex × TransactionMetadata))
      (txCurrent : Option (TransactionIndex × TransactionOutput)) (i : Nat),
      cursorSize (findNextLoop toBlockNumber txCurrent txCursor i).1
        (findNextLoop toBlockNumber txCurrent txCursor i).2.1
        (findNextLoop toBlockNumber txCurrent txCursor i).2.2 ≤ cursorSize txCurrent txCursor i
  | _, none, _ => by simp [findNextLoop]
  | [], some (txIndex, txOutput), i => by
    by_cases hpast : toBlockNumber < (ofLex txIndex).1
    · simp [findNextLoop, cursorSize, hpast]
    · by_cases hat : i < txOutput.events.length
      · simp [findNextLoop, hpast, hat]
      · simp [findNextLoop, cursorSize, hpast, hat]
  | (txIndex', txMetadata) :: rest, some (txIndex, txOutput), i => by
    by_cases hpast : toBlockNumber < (ofLex txIndex).1
    · simp [findNextLoop, cursorSize, hpast]
    · by_cases hat : i < txOutput.events.length
      · simp [findNextLoop, hpast, hat]
      · simp only [findNextLoop, hpast, hat, if_false]
        -- the skipped transaction's own count was already zero
        refine le_trans (cursorSize_findNextLoop_le toBlockNumber rest _ 0) ?_
        simp [cursorSize]

/-- `pendingEvents` on a current transaction, whatever the cursor. -/
theorem pendingEvents_some (toBlockNumber : BlockNumber) (txIndex : TransactionIndex)
    (txOutput : TransactionOutput) (txCursor : List (TransactionIndex × TransactionMetadata))
    (i : Nat) :
    pendingEvents toBlockNumber (some (txIndex, txOutput)) txCursor i =
      if toBlockNumber < (ofLex txIndex).1 then []
      else txEvents txIndex txOutput i ++
        match txCursor with
        | [] => []
        | (txIndex', txMetadata) :: rest =>
          pendingEvents toBlockNumber (some (txIndex', txMetadata.txOutput)) rest 0 := by
  cases txCursor <;> rfl

namespace EventIterByEventIndex

/-- The events a state has not passed yet. -/
def size (it : EventIterByEventIndex) : Nat :=
  cursorSize it.txCurrent it.txCursor it.eventIndexInTxCurrent

theorem findNextEventByEventIndex_ready (it : EventIterByEventIndex) :
    it.findNextEventByEventIndex.Ready :=
  fun txIndex txOutput h => findNextLoop_ready it.toBlockNumber it.txCursor it.txCurrent
    it.eventIndexInTxCurrent txIndex txOutput h

theorem pending_findNextEventByEventIndex (it : EventIterByEventIndex) :
    it.findNextEventByEventIndex.pending = it.pending :=
  pendingEvents_findNextLoop it.toBlockNumber it.txCursor it.txCurrent it.eventIndexInTxCurrent

theorem size_findNextEventByEventIndex_le (it : EventIterByEventIndex) :
    it.findNextEventByEventIndex.size ≤ it.size :=
  cursorSize_findNextLoop_le it.toBlockNumber it.txCursor it.txCurrent it.eventIndexInTxCurrent

/-- **One step of the iterator**: from a ready state, `next` yields the event at the offset,
which is the first event still pending, and passes it. -/
theorem next_eq_some {it it' : EventIterByEventIndex} {item : EventItem} (hready : it.Ready)
    (h : it.next = some (item, it')) :
    it.pending = item :: it'.pending ∧ it'.Ready ∧ it'.size < it.size := by
  obtain ⟨txCurrent, txCursor, i, toBlockNumber⟩ := it
  cases txCurrent with
  | none => simp [next] at h
  | some current =>
    obtain ⟨txIndex, txOutput⟩ := current
    obtain ⟨hblock, hat⟩ := hready txIndex txOutput rfl
    obtain ⟨event, hevent⟩ : ∃ event, txOutput.events[i]? = some event :=
      Option.isSome_iff_exists.mp (by simpa using hat)
    simp only [next, hevent, Option.some.injEq, Prod.mk.injEq] at h
    obtain ⟨rfl, rfl⟩ := h
    refine ⟨?_, findNextEventByEventIndex_ready _, ?_⟩
    · rw [pending_findNextEventByEventIndex]
      simp only [pending]
      rw [pendingEvents_some, pendingEvents_some, if_neg (not_lt.mpr hblock),
        if_neg (not_lt.mpr hblock), txEvents_eq_cons hevent, List.cons_append]
    · refine lt_of_le_of_lt (size_findNextEventByEventIndex_le _) ?_
      have hat' : i < txOutput.events.length := hat
      simp only [size, cursorSize]
      exact Nat.add_lt_add_right (Nat.sub_lt_sub_left hat' (Nat.lt_succ_self i)) _

/-- From a ready state, `next` ends only when nothing is pending. -/
theorem pending_eq_nil_of_next_eq_none {it : EventIterByEventIndex} (hready : it.Ready)
    (h : it.next = none) : it.pending = [] := by
  obtain ⟨txCurrent, txCursor, i, toBlockNumber⟩ := it
  cases txCurrent with
  | none => simp [pending, pendingEvents]
  | some current =>
    obtain ⟨txIndex, txOutput⟩ := current
    have hat := (hready txIndex txOutput rfl).2
    have hevent : txOutput.events[i]? ≠ none := by simpa using hat
    simp only [next] at h
    split at h
    · exact absurd ‹_› hevent
    · cases h

/-- **What the iterator yields**: with any fuel above the events not yet passed, a caller's loop
collects exactly the pending events, and `next` then answers `None`. -/
theorem drain_findNextEventByEventIndex (it : EventIterByEventIndex) {fuel : Nat}
    (hfuel : it.size < fuel) :
    drain next fuel it.findNextEventByEventIndex = it.pending := by
  rw [← pending_findNextEventByEventIndex]
  exact drain_eq next Ready pending size (fun _ hr hn => pending_eq_nil_of_next_eq_none hr hn)
    (fun _ _ _ hr hn => next_eq_some hr hn) fuel _ (findNextEventByEventIndex_ready it)
    (lt_of_le_of_lt (size_findNextEventByEventIndex_le it) hfuel)

end EventIterByEventIndex

/-! ## 3. The stored events, and those the iterator yields -/

/-- Every stored event, in the order of the metadata table. -/
def tableEvents (es : List (TransactionIndex × TransactionMetadata)) : List EventItem :=
  es.flatMap fun e => txEvents e.1 e.2.txOutput 0

theorem tableEvents_cons (e : TransactionIndex × TransactionMetadata)
    (es : List (TransactionIndex × TransactionMetadata)) :
    tableEvents (e :: es) = txEvents e.1 e.2.txOutput 0 ++ tableEvents es := rfl

theorem tableEvents_append (es es' : List (TransactionIndex × TransactionMetadata)) :
    tableEvents (es ++ es') = tableEvents es ++ tableEvents es' := by
  simp [tableEvents]

/-- The block of an event. -/
def EventItem.blockNumber (item : EventItem) : BlockNumber := (ofLex (ofLex item.1.2).1).1

/-- What `iter_events(None, e, B)` is to yield: the stored events at or after `e`, in blocks up
to `B`, in event-index order. -/
def expectedEvents (es : List (TransactionIndex × TransactionMetadata)) (eventIndex : EventIndex)
    (toBlockNumber : BlockNumber) : List EventItem :=
  (tableEvents es).filter fun item => eventIndex ≤ item.1.2 ∧ item.blockNumber ≤ toBlockNumber

/-- The number of stored events. -/
def BodyStorage.eventCount (s : BodyStorage) : Nat :=
  (s.transactionMetadata.entries.map fun e => e.2.txOutput.events.length).sum

theorem mem_txEvents {txIndex : TransactionIndex} {txOutput : TransactionOutput} {i : Nat}
    {item : EventItem} (h : item ∈ txEvents txIndex txOutput i) :
    (ofLex item.1.2).1 = txIndex ∧ i ≤ (ofLex item.1.2).2 := by
  obtain ⟨⟨event, j⟩, hmem, rfl⟩ := List.mem_map.mp h
  have hj := (List.mem_zipIdx (List.mem_of_mem_drop hmem)).1
  obtain ⟨k, hk, hkj⟩ := List.mem_iff_getElem.mp hmem
  simp only [List.getElem_drop, List.getElem_zipIdx, Prod.mk.injEq] at hkj
  exact ⟨rfl, by simp; omega⟩

/-- Dropping from an indexed list is keeping the indices from there on. -/
theorem drop_zipIdx_eq_filter {α : Type} (l : List α) :
    ∀ (k i : Nat), (l.zipIdx k).drop i = (l.zipIdx k).filter (fun x => k + i ≤ x.2) := by
  induction l with
  | nil => simp
  | cons a l ih =>
    intro k i
    cases i with
    | zero =>
      refine (List.filter_eq_self.mpr fun x hx => ?_).symm
      simpa using (List.mem_zipIdx hx).1
    | succ i =>
      rw [List.zipIdx_cons, List.drop_succ_cons, ih (k + 1) i, List.filter_cons_of_neg (by simp)]
      congr 1
      funext x
      simp only [decide_eq_decide]
      omega

/-- The events of an output from an offset are those at or after it. -/
theorem filter_txEvents_le (txIndex : TransactionIndex) (txOutput : TransactionOutput) (i : Nat) :
    (txEvents txIndex txOutput 0).filter (fun item => toLex (txIndex, i) ≤ item.1.2) =
      txEvents txIndex txOutput i := by
  simp only [txEvents, List.drop_zero, List.filter_map, drop_zipIdx_eq_filter _ 0 i, Nat.zero_add]
  congr 1
  refine List.filter_congr fun x _ => ?_
  simp [Prod.Lex.toLex_le_toLex]

theorem blockNumber_le_of_lt {k k' : TransactionIndex} (h : k < k') : (ofLex k).1 ≤ (ofLex k').1 := by
  rcases Prod.Lex.lt_iff.mp h with h | h
  · exact le_of_lt h
  · exact le_of_eq h.1

theorem mem_tableEvents {es : List (TransactionIndex × TransactionMetadata)} {item : EventItem}
    (h : item ∈ tableEvents es) : ∃ e ∈ es, (ofLex item.1.2).1 = e.1 := by
  obtain ⟨e, he, hitem⟩ := List.mem_flatMap.mp h
  exact ⟨e, he, (mem_txEvents hitem).1⟩

theorem length_txEvents (txIndex : TransactionIndex) (txOutput : TransactionOutput) (i : Nat) :
    (txEvents txIndex txOutput i).length = txOutput.events.length - i := by
  simp [txEvents]

theorem drop_txEvents (txIndex : TransactionIndex) (txOutput : TransactionOutput) (i : Nat) :
    (txEvents txIndex txOutput 0).drop i = txEvents txIndex txOutput i := by
  simp [txEvents, List.map_drop]

/-- An offset past the last event is the last event's. -/
theorem txEvents_min (txIndex : TransactionIndex) (txOutput : TransactionOutput) (i : Nat) :
    txEvents txIndex txOutput (min i txOutput.events.length) = txEvents txIndex txOutput i := by
  rcases le_total i txOutput.events.length with h | h
  · rw [min_eq_left h]
  · rw [min_eq_right h, txEvents_eq_nil le_rfl, txEvents_eq_nil h]

/-- From a transaction on, in a sorted table, every event is in its block or a later one. -/
theorem le_blockNumber_of_mem {txIndex : TransactionIndex} {txOutput : TransactionOutput} {i : Nat}
    {rest : List (TransactionIndex × TransactionMetadata)} (hlt : ∀ e ∈ rest, txIndex < e.1) :
    ∀ item ∈ txEvents txIndex txOutput i ++ tableEvents rest, (ofLex txIndex).1 ≤ item.blockNumber := by
  intro item hitem
  rcases List.mem_append.mp hitem with hitem | hitem
  · simp [EventItem.blockNumber, (mem_txEvents hitem).1]
  · obtain ⟨e, he, heq⟩ := mem_tableEvents hitem
    simpa [EventItem.blockNumber, heq] using blockNumber_le_of_lt (hlt e he)

/-- The cut at block `B` from a transaction on: all of that transaction and the cut of the rest,
or nothing past `B`. -/
theorem filter_blockNumber_le {txIndex : TransactionIndex} {txOutput : TransactionOutput}
    {rest : List (TransactionIndex × TransactionMetadata)} (hlt : ∀ e ∈ rest, txIndex < e.1)
    (toBlockNumber : BlockNumber) (i : Nat) :
    (txEvents txIndex txOutput i ++ tableEvents rest).filter
        (fun item => item.blockNumber ≤ toBlockNumber) =
      if (ofLex txIndex).1 ≤ toBlockNumber then
        txEvents txIndex txOutput i ++
          (tableEvents rest).filter (fun item => item.blockNumber ≤ toBlockNumber)
      else [] := by
  split_ifs with hB
  · rw [List.filter_append, List.filter_eq_self.mpr fun item hitem => by
      simpa [EventItem.blockNumber, (mem_txEvents hitem).1] using hB]
  · rw [List.filter_eq_nil_iff]
    intro item hitem
    simpa using lt_of_lt_of_le (not_le.mp hB) (le_blockNumber_of_mem hlt item hitem)

/-- **What the cursor yields, in terms of the table**: in a sorted table, stopping at the first
transaction past block `B` is keeping the events of blocks up to `B`. -/
theorem pendingEvents_eq_filter (toBlockNumber : BlockNumber) :
    ∀ (rest : List (TransactionIndex × TransactionMetadata)) (txIndex : TransactionIndex)
      (txOutput : TransactionOutput) (i : Nat), (∀ e ∈ rest, txIndex < e.1) →
      rest.Pairwise (fun a b => a.1 < b.1) →
      pendingEvents toBlockNumber (some (txIndex, txOutput)) rest i =
        (txEvents txIndex txOutput i ++ tableEvents rest).filter
          fun item => item.blockNumber ≤ toBlockNumber
  | rest, txIndex, txOutput, i, hlt, hsorted => by
    rw [pendingEvents_some, filter_blockNumber_le hlt]
    by_cases hpast : toBlockNumber < (ofLex txIndex).1
    · rw [if_pos hpast, if_neg (not_le.mpr hpast)]
    · rw [if_neg hpast, if_pos (not_lt.mp hpast)]
      congr 1
      cases rest with
      | nil => rfl
      | cons e rest =>
        obtain ⟨txIndex', txMetadata⟩ := e
        have hsorted' := List.pairwise_cons.mp hsorted
        show pendingEvents toBlockNumber (some (txIndex', txMetadata.txOutput)) rest 0 = _
        rw [pendingEvents_eq_filter toBlockNumber rest txIndex' txMetadata.txOutput 0 hsorted'.1
          hsorted'.2]
        simp [tableEvents]

/-- The events at and after the lower bound of a transaction index, as the by-index iterator
yields them when it starts at offset `i`. -/
def eventsFromLowerBound (es : List (TransactionIndex × TransactionMetadata))
    (txIndex : TransactionIndex) (i : Nat) (toBlockNumber : BlockNumber) : List EventItem :=
  match es.dropWhile (fun e => e.1 < txIndex) with
  | [] => []
  | (txIndex', txMetadata) :: rest =>
    (txEvents txIndex' txMetadata.txOutput i ++ tableEvents rest).filter
      fun item => item.blockNumber ≤ toBlockNumber

theorem sum_map_drop_le (es : List (TransactionIndex × TransactionMetadata)) (n : Nat) :
    ((es.drop n).map fun e => e.2.txOutput.events.length).sum ≤
      (es.map fun e => e.2.txOutput.events.length).sum := by
  conv_rhs => rw [← List.take_append_drop n (es.map _), List.sum_append]
  rw [List.map_drop]
  exact Nat.le_add_left _ _

/-- **What `iter_events(None, e, B)` yields**, with any fuel above the number of stored events:
the events from the lower bound of `e`'s transaction, from `e`'s offset in whatever transaction
that is, up to block `B`. -/
theorem drain_iterEventsByEventIndex (s : BodyStorage) (eventIndex : EventIndex)
    (toBlockNumber : BlockNumber) {fuel : Nat} (hfuel : s.eventCount < fuel) :
    drain EventIterByEventIndex.next fuel (s.iterEventsByEventIndex eventIndex toBlockNumber) =
      eventsFromLowerBound s.transactionMetadata.entries (ofLex eventIndex).1 (ofLex eventIndex).2
        toBlockNumber := by
  unfold BodyStorage.iterEventsByEventIndex eventsFromLowerBound
  set t := s.transactionMetadata
  set position := t.lowerBound (ofLex eventIndex).1
  have hdrop : t.entries.drop position = t.entries.dropWhile (fun e => e.1 < (ofLex eventIndex).1) :=
    drop_lowerBound t _
  have hsorted : (t.entries.drop position).Pairwise (fun a b => a.1 < b.1) :=
    t.sorted.sublist (List.drop_sublist _ _)
  rw [← hdrop]
  cases hd : t.entries.drop position with
  | nil =>
    have hnone : t.entries[position]? = none := by
      rw [← List.head?_drop, hd]
      rfl
    have hrest : t.entries.drop (position + 1) = [] := by
      rw [← List.drop_drop, hd]
      rfl
    rw [EventIterByEventIndex.drain_findNextEventByEventIndex _ (by
      simp [EventIterByEventIndex.size, cursorSize, hnone, hrest]; omega)]
    simp [EventIterByEventIndex.pending, pendingEvents, hnone]
  | cons e rest =>
    obtain ⟨txIndex, txMetadata⟩ := e
    have hsome : t.entries[position]? = some (txIndex, txMetadata) := by
      rw [← List.head?_drop, hd]
      rfl
    have hrest : t.entries.drop (position + 1) = rest := by
      rw [← List.drop_drop, hd]
      rfl
    rw [hd] at hsorted
    have hsize : cursorSize (some (txIndex, txMetadata.txOutput)) rest (ofLex eventIndex).2 <
        fuel := by
      refine lt_of_le_of_lt ?_ (lt_of_le_of_lt (sum_map_drop_le t.entries position) hfuel)
      rw [hd]
      simp only [cursorSize, List.map_cons, List.sum_cons]
      omega
    rw [EventIterByEventIndex.drain_findNextEventByEventIndex _ (by
      simpa [EventIterByEventIndex.size, hsome, hrest] using hsize)]
    simp only [EventIterByEventIndex.pending, hsome, hrest, Option.map_some]
    exact pendingEvents_eq_filter toBlockNumber rest txIndex txMetadata.txOutput _
      (List.pairwise_cons.mp hsorted).1 (List.pairwise_cons.mp hsorted).2

theorem lt_of_fst_lt {α β : Type} [Preorder α] [Preorder β] {x y : α ×ₗ β}
    (h : (ofLex x).1 < (ofLex y).1) : x < y :=
  Prod.Lex.lt_iff.mpr (.inl h)

/-- **What the claim expects, in terms of the lower bound**: nothing before the transaction of
`e`, its events from `e`'s offset if it is stored, and every event of the transactions after
it, up to block `B`. -/
theorem expectedEvents_eq (t : OrderedTable TransactionIndex TransactionMetadata)
    (eventIndex : EventIndex) (toBlockNumber : BlockNumber) :
    expectedEvents t.entries eventIndex toBlockNumber =
      match t.entries.dropWhile (fun e => e.1 < (ofLex eventIndex).1) with
      | [] => []
      | (txIndex, txMetadata) :: rest =>
        (txEvents txIndex txMetadata.txOutput
            (if txIndex = (ofLex eventIndex).1 then (ofLex eventIndex).2 else 0) ++
          tableEvents rest).filter fun item => item.blockNumber ≤ toBlockNumber := by
  have hsplit := List.takeWhile_append_dropWhile (p := fun e => decide (e.1 < (ofLex eventIndex).1))
    (l := t.entries)
  -- the events of transactions below `e`'s are all before `e`
  have hbefore : (tableEvents (t.entries.takeWhile fun e => e.1 < (ofLex eventIndex).1)).filter
      (fun item => eventIndex ≤ item.1.2 ∧ item.blockNumber ≤ toBlockNumber) = [] := by
    rw [List.filter_eq_nil_iff]
    intro item hitem
    obtain ⟨e, he, heq⟩ := mem_tableEvents hitem
    have hlt : item.1.2 < eventIndex := lt_of_fst_lt (heq ▸ by simpa using List.mem_takeWhile_imp he)
    simp [not_le.mpr hlt]
  have hfrom := le_of_mem_dropWhile t (ofLex eventIndex).1
  unfold expectedEvents
  conv_lhs => rw [← hsplit]
  rw [tableEvents_append, List.filter_append, hbefore, List.nil_append]
  cases hd : t.entries.dropWhile (fun e => e.1 < (ofLex eventIndex).1) with
  | nil => rfl
  | cons e rest =>
    obtain ⟨txIndex, txMetadata⟩ := e
    rw [hd] at hfrom
    have hsorted := sorted_dropWhile t (ofLex eventIndex).1
    rw [hd, List.pairwise_cons] at hsorted
    have hle : (ofLex eventIndex).1 ≤ txIndex := hfrom _ List.mem_cons_self
    -- after `e`'s transaction, every event is after `e`
    have hrest : ∀ item ∈ tableEvents rest, eventIndex ≤ item.1.2 := by
      intro item hitem
      obtain ⟨e', he', heq⟩ := mem_tableEvents hitem
      exact le_of_lt (lt_of_fst_lt (heq ▸ lt_of_le_of_lt hle (hsorted.1 e' he')))
    have hcurrent : (txEvents txIndex txMetadata.txOutput 0).filter (eventIndex ≤ ·.1.2) =
        txEvents txIndex txMetadata.txOutput
          (if txIndex = (ofLex eventIndex).1 then (ofLex eventIndex).2 else 0) := by
      split_ifs with heq
      · subst heq
        exact filter_txEvents_le _ _ _
      · refine List.filter_eq_self.mpr fun item hitem => ?_
        have hlt : (ofLex eventIndex).1 < (ofLex item.1.2).1 :=
          (mem_txEvents hitem).1 ▸ lt_of_le_of_ne hle (Ne.symm heq)
        simpa using le_of_lt (lt_of_fst_lt hlt)
    dsimp only
    rw [tableEvents_cons, ← hcurrent, List.filter_append, List.filter_append, List.filter_filter]
    congr 1
    · refine List.filter_congr fun item _ => ?_
      rw [Bool.decide_and, Bool.and_comm]
    · refine List.filter_congr fun item hitem => ?_
      simp [hrest item hitem]

/-- **The by-index iterator, when the transaction of `e` is stored**: exactly the stored events
from `e` on, in blocks up to `B`. -/
theorem iterEventsByEventIndex_of_stored (s : BodyStorage) (eventIndex : EventIndex)
    (toBlockNumber : BlockNumber) {fuel : Nat}
    (hstored : (s.transactionMetadata.get (ofLex eventIndex).1).isSome)
    (hfuel : s.eventCount < fuel) :
    drain EventIterByEventIndex.next fuel (s.iterEventsByEventIndex eventIndex toBlockNumber) =
      expectedEvents s.transactionMetadata.entries eventIndex toBlockNumber := by
  obtain ⟨txMetadata, hget⟩ := Option.isSome_iff_exists.mp hstored
  obtain ⟨rest, hd⟩ := dropWhile_eq_of_get hget
  rw [drain_iterEventsByEventIndex s eventIndex toBlockNumber hfuel, expectedEvents_eq,
    eventsFromLowerBound, hd]
  dsimp only
  rw [if_pos rfl]

/-- **The by-index iterator, when the transaction of `e` is not stored**: the lower bound lands
on the next stored transaction, and the iterator starts in it at the offset of `e` where it
should start at its first event.  What it yields is what is expected without the first
`min i n` events, `i` the offset of `e` and `n` the number of events of that transaction. -/
theorem iterEventsByEventIndex_skips_events (s : BodyStorage) (eventIndex : EventIndex)
    (toBlockNumber : BlockNumber) {fuel : Nat}
    (hmissing : s.transactionMetadata.get (ofLex eventIndex).1 = none)
    {txIndex : TransactionIndex} {txMetadata : TransactionMetadata}
    {rest : List (TransactionIndex × TransactionMetadata)}
    (hd : s.transactionMetadata.entries.dropWhile (fun e => e.1 < (ofLex eventIndex).1) =
      (txIndex, txMetadata) :: rest)
    (hfuel : s.eventCount < fuel) :
    drain EventIterByEventIndex.next fuel (s.iterEventsByEventIndex eventIndex toBlockNumber) =
      (expectedEvents s.transactionMetadata.entries eventIndex toBlockNumber).drop
        (min (ofLex eventIndex).2 txMetadata.txOutput.events.length) := by
  have hmem : (txIndex, txMetadata) ∈ s.transactionMetadata.entries :=
    (List.dropWhile_suffix _).subset (hd ▸ List.mem_cons_self)
  have hne : txIndex ≠ (ofLex eventIndex).1 := ne_of_get_eq_none hmissing _ hmem
  have hsorted := sorted_dropWhile s.transactionMetadata (ofLex eventIndex).1
  rw [hd, List.pairwise_cons] at hsorted
  rw [drain_iterEventsByEventIndex s eventIndex toBlockNumber hfuel, expectedEvents_eq,
    eventsFromLowerBound, hd]
  dsimp only
  rw [if_neg hne, filter_blockNumber_le hsorted.1, filter_blockNumber_le hsorted.1]
  split_ifs with hB
  · -- the skipped events are all in the first transaction
    rw [List.drop_append_of_le_length (by simp [length_txEvents]), drop_txEvents, txEvents_min]
  · rw [List.drop_nil]

/-- Block 0 has no transaction and block 1 one transaction with one event: from the event index
`((0, 0), 1)` the event of block 1 is expected, and the iterator yields nothing. -/
theorem iterEventsByEventIndex_skips_events_after_empty_block :
    ∃ s, (BodyStorage.empty .fullArchive).writes
        [.appendBody 0 (⟨[], [], []⟩ : BlockBody Unit),
          .appendBody 1 ⟨[()], [⟨[⟨5, ⟨[1], [2]⟩⟩]⟩], [7]⟩] = some s ∧
      expectedEvents s.transactionMetadata.entries (toLex (toLex (0, 0), 1)) 1 =
        [((5, toLex (toLex (1, 0), 0)), ⟨[1], [2]⟩)] ∧
      drain EventIterByEventIndex.next (s.eventCount + 1)
        (s.iterEventsByEventIndex (toLex (toLex (0, 0), 1)) 1) = [] :=
  ⟨_, rfl, rfl,
    (iterEventsByEventIndex_skips_events _ _ _ (by decide) rfl (Nat.lt_succ_self _)).trans rfl⟩

end Sequencer.Storage
