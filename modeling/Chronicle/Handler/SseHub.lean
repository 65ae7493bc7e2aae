import Chronicle.Handler.Sse
import Chronicle.Lib.Trace

/-! # The hub of a live stream

A hub formats the messages of one stream once, batches them into events and keeps
the latest events in a ring that its watchers read by sequence number. A watcher may
attach in the middle of an event, where a message of the batch ends, and it falls
behind when the ring has dropped the event that it would read next.
-/

namespace Chronicle.Handler.SseHub

section Hub

structure HubConfig where
  contentType : Bytes
  useBase64 : Bool
  replayLimit : ℕ
  batchLimit : ℕ

structure Boundary where
  offset : Offset
  wireEnd : ℕ
  deriving DecidableEq, Repr

def boundaryBytes : ℕ := 24

structure HubEvent where
  sequence : ℕ := 0
  fromOffset : Offset
  toOffset : Offset := zeroOffset
  data : Bytes := []
  boundaries : List Boundary := []
  upToDate : Bool := false
  closed : Bool := false
  rawBytes : ℕ := 0
  wireBytes : ℕ := 0
  indexBytes : ℕ := 0
  memorySize : ℕ := 0
  deriving DecidableEq, Repr

inductive HubError where
  | lagged
  | behind
  | offsetChanged
  | notAttached
  | terminal (reason : Bytes)
  deriving DecidableEq, Repr

structure Hub where
  current : Offset
  closed : Bool
  terminalErr : Option Bytes := none
  events : List HubEvent := []
  firstSequence : ℕ := 1
  nextSequence : ℕ := 1
  ringRawBytes : ℤ := 0
  ringWireBytes : ℤ := 0
  ringIndexBytes : ℤ := 0
  replayBytes : ℤ := 0
  deriving DecidableEq, Repr

def Hub.initialized (tail : Offset) (closed : Bool) : Hub := { current := tail, closed := closed }

variable (cfg : HubConfig)

def wire (m : Message) : Bytes := formatSSEDataEvent [m] cfg.contentType cfg.useBase64

structure Builder where
  events : List HubEvent := []
  event : HubEvent

def Builder.finish (b : Builder) : Builder :=
  match b.event.boundaries.getLast? with
  | none => b
  | some last =>
    let indexBytes := b.event.boundaries.length * boundaryBytes
    let event :=
      { b.event with
        toOffset := last.offset
        wireBytes := b.event.data.length
        indexBytes := indexBytes
        memorySize := b.event.rawBytes + b.event.data.length + indexBytes }
    ⟨b.events ++ [event], { fromOffset := event.toOffset }⟩

def Builder.add (b : Builder) (m : Message) : Builder :=
  let candidateBytes := b.event.data.length + (wire cfg m).length +
    (b.event.boundaries.length + 1) * boundaryBytes
  let b := if b.event.boundaries ≠ [] ∧ cfg.batchLimit < candidateBytes then b.finish else b
  let data := b.event.data ++ wire cfg m
  { b with
    event :=
      { b.event with
        data := data
        boundaries := b.event.boundaries ++ [⟨m.offset, data.length⟩] } }

def buildSSEHubEvents (fromOffset : Offset) (messages : List Message) : List HubEvent :=
  (messages.foldl (Builder.add cfg) { event := { fromOffset := fromOffset } }).finish.events

def markLast (upToDate streamClosed : Bool) (tail : Offset) : List HubEvent → List HubEvent
  | [] => []
  | [e] => [{ e with upToDate := upToDate, closed := streamClosed && e.toOffset.equal tail }]
  | e :: e' :: es => e :: markLast upToDate streamClosed tail (e' :: es)

def Hub.push (h : Hub) (e : HubEvent) : Hub :=
  { h with
    events := h.events ++ [{ e with sequence := h.nextSequence }]
    nextSequence := h.nextSequence + 1
    ringRawBytes := h.ringRawBytes + e.rawBytes
    ringWireBytes := h.ringWireBytes + e.wireBytes
    ringIndexBytes := h.ringIndexBytes + e.indexBytes
    replayBytes := h.replayBytes + e.memorySize
    current := e.toOffset }

/-- Take the first events out of the ring until its bytes are within the limit. -/
def Hub.evict (h : Hub) : List HubEvent → Hub
  | e :: e' :: es =>
    if (cfg.replayLimit : ℤ) < h.replayBytes then
      Hub.evict
        { h with
          events := e' :: es
          firstSequence := h.firstSequence + 1
          ringRawBytes := h.ringRawBytes - e.rawBytes
          ringWireBytes := h.ringWireBytes - e.wireBytes
          ringIndexBytes := h.ringIndexBytes - e.indexBytes
          replayBytes := h.replayBytes - e.memorySize } (e' :: es)
    else h
  | _ => h

def Hub.publish (h : Hub) (fromOffset : Offset) (messages : List Message)
    (upToDate streamClosed : Bool) (tail : Offset) : Hub × Except HubError Unit :=
  let events := markLast upToDate streamClosed tail (buildSSEHubEvents cfg fromOffset messages)
  if ¬ h.current.equal fromOffset then (h, .error .offsetChanged)
  else
    let h := if h.nextSequence = 0 then { h with firstSequence := 1, nextSequence := 1 } else h
    let h := events.foldl Hub.push h
    let h := if events = [] ∧ h.current.equal tail then { h with closed := streamClosed } else h
    let h := if events.getLast?.any (·.closed) then { h with closed := true } else h
    let h := h.evict cfg h.events
    (if h.events = [] then { h with firstSequence := h.nextSequence } else h, .ok ())

def Hub.fail (h : Hub) (reason : Bytes) : Hub := { h with terminalErr := some reason }

def Hub.releaseReplay (h : Hub) : Hub :=
  { h with
    ringRawBytes := 0
    ringWireBytes := 0
    ringIndexBytes := 0
    replayBytes := 0
    events := []
    firstSequence := h.nextSequence }

end Hub

section Watchers

structure Watcher where
  attached : Bool := false
  sequence : ℕ := 0
  offset : Offset := zeroOffset
  firstWireStart : ℕ := 0
  deriving DecidableEq, Repr

def bisect (p : ℕ → Bool) : ℕ → ℕ → ℕ → ℕ
  | 0, low, _ => low
  | fuel + 1, low, high =>
    if low < high then
      let middle := low + (high - low) / 2
      if p middle then bisect p fuel low middle else bisect p fuel (middle + 1) high
    else low

def firstSSEEventAfter (events : List HubEvent) (offset : Offset) : ℕ :=
  bisect (fun i => events[i]?.any fun e => offset.lessThan e.toOffset) events.length 0 events.length

def findSSEBoundary (boundaries : List Boundary) (offset : Offset) : Option Boundary :=
  let low := bisect (fun i => boundaries[i]?.any fun b => ¬ Offset.compare b.offset offset < 0)
    boundaries.length 0 boundaries.length
  boundaries[low]?.filter fun b => b.offset.equal offset

def Watcher.attach (w : Watcher) (h : Hub) (offset : Offset) : Watcher × Except HubError Unit :=
  match h.terminalErr with
  | some reason => (w, .error (.terminal reason))
  | none =>
    if offset.equal h.current then (⟨true, h.nextSequence, offset, 0⟩, .ok ())
    else if h.current.lessThan offset then (w, .error .behind)
    else
      match h.events[firstSSEEventAfter h.events offset]? with
      | none => (w, .error .lagged)
      | some event =>
        if offset.equal event.fromOffset then (⟨true, event.sequence, offset, 0⟩, .ok ())
        else
          match findSSEBoundary event.boundaries offset with
          | none => (w, .error .lagged)
          | some b => (⟨true, event.sequence, offset, b.wireEnd⟩, .ok ())

def Watcher.next (w : Watcher) (h : Hub) (offset : Offset) : Except HubError (Option HubEvent) :=
  match h.terminalErr with
  | some reason => .error (.terminal reason)
  | none =>
    if ¬ w.attached ∨ ¬ offset.equal w.offset then .error .notAttached
    else if offset.equal h.current then
      if h.closed then
        .ok (some { fromOffset := offset, toOffset := offset, upToDate := true, closed := true })
      else .ok none
    else if w.sequence < h.firstSequence then .error .lagged
    else if h.nextSequence ≤ w.sequence then .ok none
    else
      match h.events[w.sequence - h.firstSequence]? with
      | none => .error .lagged
      | some found =>
        if w.firstWireStart = 0 then .ok (some found)
        else
          .ok (some
            { sequence := found.sequence
              fromOffset := offset
              toOffset := found.toOffset
              data := found.data.drop w.firstWireStart
              upToDate := found.upToDate
              closed := found.closed
              memorySize := found.data.length - w.firstWireStart })

def Watcher.commit (w : Watcher) (event : HubEvent) : Watcher :=
  if event.sequence = 0 then w
  else if w.attached ∧ w.sequence = event.sequence then
    { w with sequence := w.sequence + 1, offset := event.toOffset, firstWireStart := 0 }
  else w

end Watchers

/-! ## Batches -/

variable {e : HubEvent} {o : Offset} {batches : List (List Message)}

section Batches

variable (cfg : HubConfig)

def endOf (o : Offset) (messages : List Message) : Offset :=
  messages.foldl (fun _ m => m.offset) o

def wires (messages : List Message) : Bytes := messages.flatMap (wire cfg)

def bounds (o : Offset) (batch : List Message) : List Boundary :=
  (List.range batch.length).map fun i =>
    ⟨endOf o (batch.take (i + 1)), (wires cfg (batch.take (i + 1))).length⟩

structure HubEvent.Holds (e : HubEvent) (o : Offset) (batches : List (List Message)) (k : ℕ)
    (batch : List Message) : Prop where
  index : batches[k]? = some batch
  fromOffset : e.fromOffset = endOf o (batches.take k).flatten
  toOffset : e.toOffset = endOf o (batches.take (k + 1)).flatten
  data : e.data = wires cfg batch
  boundaries : e.boundaries = bounds cfg e.fromOffset batch

variable {cfg} {messages batch : List Message} {k : ℕ}

@[simp] theorem endOf_nil (o : Offset) : endOf o [] = o := rfl

theorem endOf_append (o : Offset) (a b : List Message) :
    endOf o (a ++ b) = endOf (endOf o a) b := List.foldl_append ..

@[simp] theorem endOf_singleton (o : Offset) (m : Message) : endOf o [m] = m.offset := rfl

theorem wires_append (a b : List Message) : wires cfg (a ++ b) = wires cfg a ++ wires cfg b :=
  List.flatMap_append ..

theorem wires_singleton (m : Message) : wires cfg [m] = wire cfg m := by simp [wires]

theorem wire_ne_nil (m : Message) : wire cfg m ≠ [] := by
  have hhead : Bytes.ascii "event: data\n" ≠ [] := by decide
  unfold wire formatSSEDataEvent
  split
  · simp [hhead]
  · simp [dataEvent, hhead]

theorem wires_eq_nil : wires cfg messages = [] ↔ messages = [] := by
  cases messages with
  | nil => simp [wires]
  | cons m ms => simp [wires, wire_ne_nil]

theorem bounds_append (o : Offset) (batch : List Message) (m : Message) :
    bounds cfg o (batch ++ [m]) =
      bounds cfg o batch ++ [⟨m.offset, (wires cfg (batch ++ [m])).length⟩] := by
  unfold bounds
  rw [List.length_append, List.length_singleton, List.range_succ, List.map_append]
  congr 1
  · refine List.map_congr_left fun i hi => ?_
    rw [List.mem_range] at hi
    rw [List.take_append_of_le_length (by omega)]
  · rw [List.map_singleton, List.take_of_length_le (by simp), endOf_append, endOf_singleton]

theorem bounds_eq_nil : bounds cfg o batch = [] ↔ batch = [] := by simp [bounds]

theorem flatten_take_succ (h : batches[k]? = some batch) :
    (batches.take (k + 1)).flatten = (batches.take k).flatten ++ batch := by
  rw [List.take_add_one, h]
  simp

theorem HubEvent.Holds.append (h : e.Holds cfg o batches k batch)
    (more : List (List Message)) : e.Holds cfg o (batches ++ more) k batch := by
  obtain ⟨hk, -⟩ := List.getElem?_eq_some_iff.mp h.index
  refine ⟨?_, ?_, ?_, h.data, h.boundaries⟩
  · rw [List.getElem?_append_left hk, h.index]
  · rw [List.take_append_of_le_length (by omega), h.fromOffset]
  · rw [List.take_append_of_le_length (by omega), h.toOffset]

theorem HubEvent.Holds.shift (before : List (List Message))
    (h : e.Holds cfg (endOf o before.flatten) batches k batch) :
    e.Holds cfg o (before ++ batches) (before.length + k) batch := by
  refine ⟨?_, ?_, ?_, h.data, h.boundaries⟩
  · rw [List.getElem?_append_right (by omega), Nat.add_sub_cancel_left, h.index]
  · rw [List.take_length_add_append, List.flatten_append, endOf_append, h.fromOffset]
  · rw [Nat.add_assoc, List.take_length_add_append, List.flatten_append, endOf_append, h.toOffset]

/-- Events are the batches, in order. -/
structure Events (cfg : HubConfig) (o : Offset) (events : List HubEvent)
    (batches : List (List Message)) : Prop where
  nonempty : ∀ c ∈ batches, c ≠ []
  length : events.length = batches.length
  holds : ∀ (j : ℕ) (e : HubEvent), events[j]? = some e → ∃ c, e.Holds cfg o batches j c

theorem Events.snoc {events : List HubEvent} (h : Events cfg o events batches)
    (hne : batch ≠ []) (hfrom : e.fromOffset = endOf o batches.flatten)
    (hto : e.toOffset = endOf e.fromOffset batch) (hdata : e.data = wires cfg batch)
    (hbounds : e.boundaries = bounds cfg e.fromOffset batch) :
    Events cfg o (events ++ [e]) (batches ++ [batch]) := by
  refine ⟨?_, by simp [h.length], fun j e' hj => ?_⟩
  · simp only [List.mem_append, List.mem_singleton]
    rintro c (hc | rfl)
    · exact h.nonempty c hc
    · exact hne
  · obtain hlt | hge := Nat.lt_or_ge j events.length
    · rw [List.getElem?_append_left hlt] at hj
      obtain ⟨c, hc⟩ := h.holds j e' hj
      exact ⟨c, hc.append _⟩
    · obtain ⟨hj', heq⟩ := List.getElem?_eq_some_iff.mp hj
      obtain rfl : j = events.length := by
        simp only [List.length_append, List.length_singleton] at hj'
        omega
      obtain rfl : e = e' := by simpa using heq
      have hindex : (batches ++ [batch])[events.length]? = some batch := by
        rw [h.length]
        simp
      refine ⟨batch, hindex, ?_, ?_, hdata, hbounds⟩
      · rw [h.length, List.take_append_of_le_length (Nat.le_refl _), List.take_length, hfrom]
      · rw [flatten_take_succ hindex, endOf_append, h.length,
          List.take_append_of_le_length (Nat.le_refl _), List.take_length, ← hfrom, hto]

structure Builder.Built (cfg : HubConfig) (o : Offset) (b : Builder) (batches : List (List Message))
    (batch : List Message) : Prop where
  events : Events cfg o b.events batches
  unmarked : ∀ e ∈ b.events, e.closed = false
  fromOffset : b.event.fromOffset = endOf o batches.flatten
  data : b.event.data = wires cfg batch
  boundaries : b.event.boundaries = bounds cfg b.event.fromOffset batch
  closed : b.event.closed = false

theorem getLast?_bounds (o : Offset) (hne : batch ≠ []) :
    (bounds cfg o batch).getLast? = some ⟨endOf o batch, (wires cfg batch).length⟩ := by
  induction batch using List.reverseRecOn with
  | nil => exact absurd rfl hne
  | append_singleton batch m =>
    rw [bounds_append, List.getLast?_concat, endOf_append, endOf_singleton]

theorem Builder.Built.finish {b : Builder} (h : b.Built cfg o batches batch) (hne : batch ≠ []) :
    b.finish.Built cfg o (batches ++ [batch]) [] := by
  have hlast : b.event.boundaries.getLast? =
      some ⟨endOf b.event.fromOffset batch, (wires cfg batch).length⟩ := by
    rw [h.boundaries]
    exact getLast?_bounds _ hne
  unfold Builder.finish
  rw [hlast]
  refine ⟨h.events.snoc hne h.fromOffset rfl h.data h.boundaries, ?_, ?_, rfl, rfl, rfl⟩
  · simp only [List.mem_append, List.mem_singleton]
    rintro e (he | rfl)
    · exact h.unmarked e he
    · exact h.closed
  · rw [List.flatten_append, endOf_append, ← h.fromOffset]
    simp

theorem Builder.Built.add {b : Builder} (h : b.Built cfg o batches batch) (m : Message) :
    ∃ batches' batch', (b.add cfg m).Built cfg o batches' batch' ∧
      batches'.flatten ++ batch' = batches.flatten ++ batch ++ [m] := by
  have hpush : ∀ {b : Builder} {batches : List (List Message)} {batch : List Message},
      b.Built cfg o batches batch →
      Builder.Built cfg o { b with event := { b.event with
        data := b.event.data ++ wire cfg m
        boundaries := b.event.boundaries ++ [⟨m.offset, (b.event.data ++ wire cfg m).length⟩] } }
        batches (batch ++ [m]) := by
    intro b batches batch h
    refine ⟨h.events, h.unmarked, h.fromOffset, ?_, ?_, h.closed⟩
    · rw [wires_append, wires_singleton, ← h.data]
    · rw [bounds_append, wires_append, wires_singleton, ← h.data, ← h.boundaries]
  unfold Builder.add
  dsimp only
  split
  · rename_i hfull
    have hne : batch ≠ [] := by
      rw [h.boundaries, ne_eq, bounds_eq_nil] at hfull
      exact hfull.1
    exact ⟨_, _, hpush (h.finish hne), by simp⟩
  · exact ⟨_, _, hpush h, by simp⟩

theorem buildSSEHubEvents_events (o : Offset) (messages : List Message) :
    ∃ batches, Events cfg o (buildSSEHubEvents cfg o messages) batches ∧
      batches.flatten = messages ∧ ∀ e ∈ buildSSEHubEvents cfg o messages, e.closed = false := by
  have hfold : ∀ (ms : List Message) {b : Builder} {batches : List (List Message)}
      {batch : List Message}, b.Built cfg o batches batch →
      ∃ batches' batch', (ms.foldl (Builder.add cfg) b).Built cfg o batches' batch' ∧
        batches'.flatten ++ batch' = batches.flatten ++ batch ++ ms := by
    intro ms
    induction ms with
    | nil => exact fun {b batches batch} h => ⟨batches, batch, h, by simp⟩
    | cons m ms ih =>
      intro b batches batch h
      obtain ⟨batches₁, batch₁, h₁, heq₁⟩ := h.add m
      obtain ⟨batches₂, batch₂, h₂, heq₂⟩ := ih h₁
      exact ⟨batches₂, batch₂, h₂, by rw [heq₂, heq₁]; simp⟩
  have hstart : Builder.Built cfg o { event := { fromOffset := o } } [] [] :=
    ⟨⟨nofun, rfl, by simp⟩, nofun, rfl, rfl, rfl, rfl⟩
  obtain ⟨batches, batch, hbuilt, heq⟩ := hfold messages hstart
  rw [List.flatten_nil, List.nil_append, List.nil_append] at heq
  unfold buildSSEHubEvents
  obtain rfl | hne := eq_or_ne batch []
  · have hlast : (messages.foldl (Builder.add cfg)
        { event := { fromOffset := o } }).event.boundaries.getLast? = none := by
      rw [hbuilt.boundaries]
      rfl
    rw [Builder.finish, hlast]
    exact ⟨batches, hbuilt.events, by simpa using heq, hbuilt.unmarked⟩
  · have hfinish := hbuilt.finish hne
    exact ⟨_, hfinish.events, by simpa using heq, hfinish.unmarked⟩

end Batches

/-! ## The ring -/

variable {cfg : HubConfig} {h : Hub}

section Ring

variable {tail : Offset} {streamClosed : Bool} {events : List HubEvent}

/-- The ring holds the last of the batches that were published, and the sequence numbers count
them. -/
structure Layout (cfg : HubConfig) (o : Offset) (h : Hub) (batches : List (List Message)) :
    Prop where
  nonempty : ∀ c ∈ batches, c ≠ []
  first : 1 ≤ h.firstSequence
  next : h.nextSequence = batches.length + 1
  count : h.firstSequence + h.events.length = h.nextSequence
  current : h.current = endOf o batches.flatten
  holds : ∀ (j : ℕ) (e : HubEvent), h.events[j]? = some e → e.sequence = h.firstSequence + j ∧
    ∃ c, e.Holds cfg o batches (h.firstSequence + j - 1) c

structure Alike (e e' : HubEvent) : Prop where
  fromOffset : e'.fromOffset = e.fromOffset
  toOffset : e'.toOffset = e.toOffset
  data : e'.data = e.data
  boundaries : e'.boundaries = e.boundaries

theorem HubEvent.Holds.alike {e e' : HubEvent} {k : ℕ} {batch : List Message}
    (h : e.Holds cfg o batches k batch) (ha : Alike e e') : e'.Holds cfg o batches k batch :=
  ⟨h.index, ha.fromOffset.trans h.fromOffset, ha.toOffset.trans h.toOffset,
    ha.data.trans h.data, by rw [ha.boundaries, ha.fromOffset, h.boundaries]⟩

theorem getElem?_markLast {upToDate : Bool} {j : ℕ} {e' : HubEvent}
    (h : (markLast upToDate streamClosed tail events)[j]? = some e') :
    ∃ e, events[j]? = some e ∧ Alike e e' ∧ (e'.closed = true → e.closed = true ∨
      (streamClosed = true ∧ e'.toOffset = tail ∧ j + 1 = events.length)) := by
  induction events using markLast.induct generalizing j with
  | case1 => cases h
  | case2 e =>
    cases j with
    | zero =>
      cases h
      refine ⟨e, rfl, ⟨rfl, rfl, rfl, rfl⟩, fun hclosed => .inr ?_⟩
      rw [Bool.and_eq_true, Offset.equal_iff] at hclosed
      exact ⟨hclosed.1, hclosed.2, rfl⟩
    | succ j => cases h
  | case3 e e₂ es ih =>
    cases j with
    | zero =>
      cases h
      exact ⟨_, rfl, ⟨rfl, rfl, rfl, rfl⟩, .inl⟩
    | succ j =>
      obtain ⟨e₁, he₁, halike, hclosed⟩ := ih h
      refine ⟨e₁, he₁, halike, fun hc => (hclosed hc).imp_right ?_⟩
      rintro ⟨hs, ht, hj⟩
      exact ⟨hs, ht, by rw [List.length_cons, ← hj]⟩

theorem length_markLast (upToDate streamClosed : Bool) (tail : Offset) (events : List HubEvent) :
    (markLast upToDate streamClosed tail events).length = events.length := by
  induction events using markLast.induct with
  | case1 => rfl
  | case2 e => rfl
  | case3 e e' es ih => rw [markLast, List.length_cons, ih, ← List.length_cons]

theorem Events.markLast {upToDate : Bool} (h : Events cfg o events batches) :
    Events cfg o (markLast upToDate streamClosed tail events) batches := by
  refine ⟨h.nonempty, by rw [length_markLast, h.length], fun j e' hj => ?_⟩
  obtain ⟨e, he, halike, -⟩ := getElem?_markLast hj
  obtain ⟨c, hc⟩ := h.holds j e he
  exact ⟨c, hc.alike halike⟩

theorem Events.getLast? (h : Events cfg o events batches) :
    ((events.getLast?.map HubEvent.toOffset).getD o) = endOf o batches.flatten := by
  rw [List.getLast?_eq_getElem?]
  cases hlast : events[events.length - 1]? with
  | none =>
    have hnil : events = [] := by
      rw [List.getElem?_eq_none_iff] at hlast
      exact List.eq_nil_of_length_eq_zero (by omega)
    have hbatches : batches = [] := by
      rw [hnil] at h
      exact List.eq_nil_of_length_eq_zero h.length.symm
    rw [hbatches]
    rfl
  | some e =>
    obtain ⟨c, hc⟩ := h.holds _ e hlast
    obtain ⟨hlt, -⟩ := List.getElem?_eq_some_iff.mp hlast
    have hlength : events.length - 1 + 1 = batches.length := by
      rw [← h.length]
      omega
    rw [Option.map_some, Option.getD_some, hc.toOffset, hlength, List.take_length]

theorem foldl_push (events : List HubEvent) (h : Hub) :
    (events.foldl Hub.push h).events =
        h.events ++ events.mapIdx (fun j e => { e with sequence := h.nextSequence + j }) ∧
      (events.foldl Hub.push h).nextSequence = h.nextSequence + events.length ∧
      (events.foldl Hub.push h).firstSequence = h.firstSequence ∧
      (events.foldl Hub.push h).current = (events.getLast?.map HubEvent.toOffset).getD h.current ∧
      (events.foldl Hub.push h).closed = h.closed ∧
      (events.foldl Hub.push h).terminalErr = h.terminalErr := by
  induction events generalizing h with
  | nil => simp
  | cons e es ih =>
    obtain ⟨hevents, hnext, hfirst, hcurrent, hclosed, hterminal⟩ := ih (h.push e)
    rw [List.foldl_cons]
    refine ⟨?_, ?_, hfirst, ?_, hclosed, hterminal⟩
    · rw [hevents, List.mapIdx_cons, Hub.push, List.append_assoc]
      simp [Nat.add_assoc, Nat.add_comm 1]
    · rw [hnext, List.length_cons, Hub.push]
      dsimp only
      omega
    · rw [hcurrent]
      cases es with
      | nil => rfl
      | cons e' es => simp [List.getLast?_cons]

theorem Layout.push {more : List (List Message)}
    (hl : Layout cfg o h batches) (he : Events cfg h.current events more) :
    Layout cfg o (events.foldl Hub.push h) (batches ++ more) := by
  obtain ⟨hevents, hnext, hfirst, hcurrent, -, -⟩ := foldl_push events h
  refine ⟨?_, by rw [hfirst]; exact hl.first, ?_, ?_, ?_, fun j e hj => ?_⟩
  · intro c hc
    obtain hc | hc := List.mem_append.mp hc
    · exact hl.nonempty c hc
    · exact he.nonempty c hc
  · rw [hnext, hl.next, he.length, List.length_append]
    omega
  · rw [hfirst, hnext, hevents, List.length_append, List.length_mapIdx, ← hl.count]
    omega
  · rw [hcurrent, he.getLast?, List.flatten_append, endOf_append, hl.current]
  · rw [hfirst]
    rw [hevents] at hj
    obtain hlt | hge := Nat.lt_or_ge j h.events.length
    · rw [List.getElem?_append_left hlt] at hj
      obtain ⟨hseq, c, hc⟩ := hl.holds j e hj
      exact ⟨hseq, c, hc.append more⟩
    · rw [List.getElem?_append_right hge, List.getElem?_mapIdx] at hj
      obtain ⟨e₀, he₀, rfl⟩ := Option.map_eq_some_iff.mp hj
      obtain ⟨c, hc⟩ := he.holds _ e₀ he₀
      have hcount := hl.count
      have hnextSeq := hl.next
      refine ⟨by dsimp only; omega, c, ?_⟩
      have hindex : h.firstSequence + j - 1 = batches.length + (j - h.events.length) := by omega
      rw [hindex]
      rw [hl.current] at hc
      exact (hc.shift batches).alike ⟨rfl, rfl, rfl, rfl⟩

theorem evict_spec (events : List HubEvent) {h : Hub} (hevents : h.events = events)
    (hl : Layout cfg o h batches) :
    Layout cfg o (h.evict cfg events) batches ∧ (h.evict cfg events).current = h.current ∧
      (h.evict cfg events).closed = h.closed ∧
      (h.evict cfg events).terminalErr = h.terminalErr ∧
      ∀ e ∈ (h.evict cfg events).events, e ∈ h.events := by
  induction events generalizing h with
  | nil => exact ⟨hl, rfl, rfl, rfl, fun _ => id⟩
  | cons e es ih =>
    cases es with
    | nil => exact ⟨hl, rfl, rfl, rfl, fun _ => id⟩
    | cons e' es =>
      rw [Hub.evict]
      split
      · have hcount := hl.count
        rw [hevents, List.length_cons] at hcount
        have hstep := ih (h := { h with
          events := e' :: es
          firstSequence := h.firstSequence + 1
          ringRawBytes := h.ringRawBytes - e.rawBytes
          ringWireBytes := h.ringWireBytes - e.wireBytes
          ringIndexBytes := h.ringIndexBytes - e.indexBytes
          replayBytes := h.replayBytes - e.memorySize }) rfl ⟨hl.nonempty, by simp, hl.next,
            by dsimp only; omega, hl.current, fun j e₁ hj => ?_⟩
        · obtain ⟨hlayout, hcur, hclosed, hterminal, hsub⟩ := hstep
          refine ⟨hlayout, hcur, hclosed, hterminal, fun e₁ he₁ => ?_⟩
          rw [hevents]
          exact List.mem_cons_of_mem _ (hsub e₁ he₁)
        · have hj' : h.events[j + 1]? = some e₁ := by
            rw [hevents]
            exact hj
          obtain ⟨hseq, c, hc⟩ := hl.holds (j + 1) e₁ hj'
          have hindex : h.firstSequence + 1 + j = h.firstSequence + (j + 1) := by omega
          rw [hindex]
          exact ⟨hseq, c, hc⟩
      · exact ⟨hl, rfl, rfl, rfl, fun _ => id⟩

theorem Layout.releaseReplay (hl : Layout cfg o h batches) :
    Layout cfg o h.releaseReplay batches := by
  have hfirst := hl.first
  have hcount := hl.count
  refine ⟨hl.nonempty, ?_, hl.next, rfl, hl.current, nofun⟩
  rw [Hub.releaseReplay]
  dsimp only
  omega

theorem Layout.setClosed (hl : Layout cfg o h batches) (closed : Bool) :
    Layout cfg o { h with closed := closed } batches :=
  ⟨hl.nonempty, hl.first, hl.next, hl.count, hl.current, hl.holds⟩

theorem Layout.fail (hl : Layout cfg o h batches) (reason : Bytes) :
    Layout cfg o (h.fail reason) batches :=
  ⟨hl.nonempty, hl.first, hl.next, hl.count, hl.current, hl.holds⟩

/-- What a hub does with new messages: they are its next batches, and it is marked as closed, and
so is an event, only at the tail of a stream that is closed. -/
structure Published (cfg : HubConfig) (o : Offset) (h : Hub) (batches more : List (List Message))
    (streamClosed : Bool) (tail : Offset) (h' : Hub) : Prop where
  layout : Layout cfg o h' (batches ++ more)
  terminalErr : h'.terminalErr = h.terminalErr
  closed : h'.closed = true → h.closed = true ∨ (streamClosed = true ∧ h'.current = tail)
  events : ∀ e ∈ h'.events, e.closed = true → e ∈ h.events ∨
    (streamClosed = true ∧ e.toOffset = tail ∧ e.toOffset = h'.current)

theorem closed_push (hmarked : ∀ (j : ℕ) (e : HubEvent), events[j]? = some e → e.closed = true →
      streamClosed = true ∧ e.toOffset = tail ∧ j + 1 = events.length) :
    ∀ e ∈ (events.foldl Hub.push h).events, e.closed = true → e ∈ h.events ∨
      (streamClosed = true ∧ e.toOffset = tail ∧
        e.toOffset = (events.foldl Hub.push h).current) := by
  obtain ⟨hevents, -, -, hcurrent, -, -⟩ := foldl_push events h
  intro e he hclosed
  rw [hevents] at he
  obtain he | he := List.mem_append.mp he
  · exact .inl he
  · obtain ⟨j, hj⟩ := List.getElem?_of_mem he
    rw [List.getElem?_mapIdx] at hj
    obtain ⟨e₀, he₀, rfl⟩ := Option.map_eq_some_iff.mp hj
    obtain ⟨hs, ht, hlast⟩ := hmarked j e₀ he₀ hclosed
    refine .inr ⟨hs, ht, ?_⟩
    have hj' : events.length - 1 = j := by omega
    rw [hcurrent, List.getLast?_eq_getElem?, hj', he₀]
    rfl

theorem publish_spec (hl : Layout cfg o h batches) (messages : List Message)
    (upToDate streamClosed : Bool) (tail : Offset) :
    ∃ more, more.flatten = messages ∧ Published cfg o h batches more streamClosed tail
      (h.publish cfg h.current messages upToDate streamClosed tail).1 := by
  obtain ⟨more, hbuilt, hflatten, hunmarked⟩ := @buildSSEHubEvents_events cfg h.current messages
  refine ⟨more, hflatten, ?_⟩
  have hequal : h.current.equal h.current = true := Offset.equal_iff.mpr rfl
  have hnext : h.nextSequence ≠ 0 := by
    rw [hl.next]
    omega
  unfold Hub.publish
  rw [if_neg (not_not.mpr hequal), if_neg hnext]
  dsimp only
  generalize hevents : markLast upToDate streamClosed tail
    (buildSSEHubEvents cfg h.current messages) = events
  have hmarked : ∀ (j : ℕ) (e : HubEvent), events[j]? = some e → e.closed = true →
      streamClosed = true ∧ e.toOffset = tail ∧ j + 1 = events.length := by
    intro j e hj hclosed
    rw [← hevents] at hj
    obtain ⟨e₀, he₀, -, hmark⟩ := getElem?_markLast hj
    have hfalse := hunmarked e₀ (List.mem_of_getElem? he₀)
    rw [← hevents, length_markLast]
    exact (hmark hclosed).resolve_left (by simp [hfalse])
  have hpushed := hl.push (hevents ▸ hbuilt.markLast)
  have hclosedEvents := closed_push (h := h) hmarked
  obtain ⟨-, -, -, hcurrent, hclosed, hterminal⟩ := foldl_push events h
  generalize events.foldl Hub.push h = h₁ at hpushed hclosedEvents hcurrent hclosed hterminal ⊢
  -- the flag of the hub is set at the tail of the stream only
  have hflag : ∃ flag, (flag = true → h.closed = true ∨ (streamClosed = true ∧ h₁.current = tail)) ∧
      (if events.getLast?.any (·.closed) = true then
        { (if events = [] ∧ h₁.current.equal tail = true then { h₁ with closed := streamClosed }
          else h₁) with closed := true }
      else if events = [] ∧ h₁.current.equal tail = true then { h₁ with closed := streamClosed }
      else h₁) = { h₁ with closed := flag } := by
    split
    · rename_i hlast
      refine ⟨true, fun _ => .inr ?_, by split <;> rfl⟩
      rw [List.getLast?_eq_getElem?, Option.any_eq_true] at hlast
      obtain ⟨e, he, heclosed⟩ := hlast
      obtain ⟨hs, ht, -⟩ := hmarked _ e he heclosed
      rw [hcurrent, List.getLast?_eq_getElem?, he]
      exact ⟨hs, ht⟩
    · split
      · rename_i hempty
        exact ⟨streamClosed, fun hs => .inr ⟨hs, Offset.equal_iff.mp hempty.2⟩, rfl⟩
      · exact ⟨h₁.closed, fun hc => .inl (hclosed ▸ hc), rfl⟩
  obtain ⟨flag, hflag, heq⟩ := hflag
  rw [heq]
  obtain ⟨hlayout, hcur, hclosed₂, hterminal₂, hsub⟩ :=
    evict_spec { h₁ with closed := flag }.events rfl (hpushed.setClosed flag)
  generalize Hub.evict cfg { h₁ with closed := flag } _ = h₂
    at hlayout hcur hclosed₂ hterminal₂ hsub ⊢
  have hmarks : ∀ e ∈ h₂.events, e.closed = true → e ∈ h.events ∨
      (streamClosed = true ∧ e.toOffset = tail ∧ e.toOffset = h₂.current) := by
    intro e he hc
    rw [hcur]
    exact hclosedEvents e (hsub e he) hc
  have hflag₂ : h₂.closed = true → h.closed = true ∨ (streamClosed = true ∧ h₂.current = tail) := by
    rw [hclosed₂, hcur]
    exact hflag
  have hterminal' : h₂.terminalErr = h.terminalErr := hterminal₂.trans hterminal
  split
  · rename_i hnil
    refine ⟨⟨hlayout.nonempty, ?_, hlayout.next, ?_, hlayout.current, ?_⟩, hterminal', hflag₂, ?_⟩
    · have hfirst := hlayout.first
      have hcount := hlayout.count
      dsimp only
      omega
    · rw [hnil]
      rfl
    · intro j e hj
      rw [hnil] at hj
      cases hj
    · exact hmarks
  · exact ⟨hlayout, hterminal', hflag₂, hmarks⟩

end Ring

/-! ## A hub with its watchers -/

section System

/-- A watcher with the offset at which it was attached, the events that it was given since, and the
data that it has sent. -/
structure Reader where
  watcher : Watcher := {}
  start : Offset := zeroOffset
  obtained : List HubEvent := []
  received : Bytes := []
  deriving DecidableEq

/-- A hub, its watchers, the messages that were published, and the tail at which the stream was
closed. -/
structure State where
  hub : Hub
  readers : ℕ → Reader := fun _ => {}
  published : List Message := []
  closedAt : Option Offset := none

inductive Op where
  | publish (messages : List Message) (upToDate streamClosed : Bool) (tail : Offset)
  | releaseReplay
  | fail (reason : Bytes)
  | closeStream (tail : Offset)
  | attach (i : ℕ) (offset : Offset)
  | next (i : ℕ) (offset : Offset)
  | commit (i : ℕ) (event : HubEvent)
  deriving DecidableEq

inductive Reply where
  | done
  | failed (e : HubError)
  | event (e : Option HubEvent)
  deriving DecidableEq

def Watcher.commits (w : Watcher) (e : HubEvent) : Bool :=
  e.sequence ≠ 0 && w.attached && w.sequence = e.sequence

def State.set (s : State) (i : ℕ) (r : Reader) : State :=
  { s with readers := Function.update s.readers i r }

def Reader.attach (r : Reader) (h : Hub) (offset : Offset) : Reader × Reply :=
  match r.watcher.attach h offset with
  | (w, .ok ()) => ({ watcher := w, start := offset }, .done)
  | (w, .error e) => ({ r with watcher := w }, .failed e)

def Reader.next (r : Reader) (h : Hub) (offset : Offset) : Reader × Reply :=
  match r.watcher.next h offset with
  | .ok (some e) => ({ r with obtained := e :: r.obtained }, .event (some e))
  | .ok none => (r, .event none)
  | .error e => (r, .failed e)

def Reader.commit (r : Reader) (e : HubEvent) : Reader :=
  { r with
    watcher := r.watcher.commit e
    received := if r.watcher.commits e then r.received ++ e.data else r.received }

def exec (cfg : HubConfig) (s : State) : Op → Reply × State
  | .publish messages upToDate streamClosed tail =>
    (.done, { s with
      hub := (s.hub.publish cfg s.hub.current messages upToDate streamClosed tail).1
      published := s.published ++ messages })
  | .releaseReplay => (.done, { s with hub := s.hub.releaseReplay })
  | .fail reason => (.done, { s with hub := s.hub.fail reason })
  | .closeStream tail => (.done, { s with closedAt := some tail })
  | .attach i offset =>
    let (r, reply) := (s.readers i).attach s.hub offset
    (reply, s.set i r)
  | .next i offset =>
    let (r, reply) := (s.readers i).next s.hub offset
    (reply, s.set i r)
  | .commit i event => (.done, s.set i ((s.readers i).commit event))

def Ascending : Offset → List Message → Prop
  | _, [] => True
  | o, m :: ms => o < m.offset ∧ Ascending m.offset ms

instance decidableAscending : ∀ (o : Offset) (ms : List Message), Decidable (Ascending o ms)
  | _, [] => isTrue trivial
  | o, m :: ms =>
    have := decidableAscending m.offset ms
    inferInstanceAs (Decidable (o < m.offset ∧ Ascending m.offset ms))

/-- New messages follow what was published. A stream that is closed has one tail and no messages
behind it. A watcher sends what it was given since it was attached. -/
def Admissible (s : State) : Op → Prop
  | .publish messages _ streamClosed tail =>
    Ascending s.hub.current messages ∧ (streamClosed = true → s.closedAt = some tail) ∧
      ∀ t ∈ s.closedAt, ∀ m ∈ messages, m.offset ≤ t
  | .closeStream tail => s.closedAt = none ∧ s.hub.current ≤ tail
  | .commit i event => event ∈ (s.readers i).obtained
  | _ => True

instance (s : State) (op : Op) : Decidable (Admissible s op) := by
  cases op <;> unfold Admissible <;> infer_instance

def Step (cfg : HubConfig) (s : State) (e : Op × Reply) (s' : State) : Prop :=
  Admissible s e.1 ∧ exec cfg s e.1 = (e.2, s')

def begin (tail : Offset) (closed : Bool) : State where
  hub := .initialized tail closed
  closedAt := if closed then some tail else none

end System

variable {c : List Message}

section Ascending

variable {a b ms : List Message} {m : Message}

theorem ascending_append : Ascending o (a ++ b) ↔ Ascending o a ∧ Ascending (endOf o a) b := by
  induction a generalizing o with
  | nil => simp [Ascending]
  | cons m ms ih => simp only [List.cons_append, Ascending, ih, and_assoc]; rfl

theorem Ascending.le_endOf (h : Ascending o ms) : o ≤ endOf o ms := by
  induction ms generalizing o with
  | nil => exact le_rfl
  | cons m ms ih => exact h.1.le.trans (ih h.2)

theorem Ascending.lt (h : Ascending o ms) (hm : m ∈ ms) : o < m.offset := by
  induction ms generalizing o with
  | nil => cases hm
  | cons m' ms ih =>
    obtain rfl | hm := List.mem_cons.mp hm
    · exact h.1
    · exact h.1.trans (ih h.2 hm)

theorem Ascending.le (h : Ascending o ms) (hm : m ∈ ms) : m.offset ≤ endOf o ms := by
  induction ms generalizing o with
  | nil => cases hm
  | cons m' ms ih =>
    obtain rfl | hm := List.mem_cons.mp hm
    · exact h.2.le_endOf
    · exact ih h.2 hm

theorem endOf_le {t : Offset} (ho : o ≤ t) (h : ∀ m ∈ ms, m.offset ≤ t) : endOf o ms ≤ t := by
  induction ms generalizing o with
  | nil => exact ho
  | cons m ms ih =>
    rw [List.forall_mem_cons] at h
    exact ih h.1 h.2

theorem Ascending.filter (h : Ascending o (a ++ b ++ c)) :
    (a ++ b ++ c).filter (fun m => endOf o a < m.offset ∧ m.offset ≤ endOf o (a ++ b)) = b := by
  obtain ⟨hab, hc⟩ := ascending_append.mp h
  obtain ⟨ha, hb⟩ := ascending_append.mp hab
  have hfirst : a.filter (fun m => endOf o a < m.offset ∧ m.offset ≤ endOf o (a ++ b)) = [] := by
    rw [List.filter_eq_nil_iff]
    intro m hm
    simp [not_lt.mpr (ha.le hm)]
  have hsecond : b.filter (fun m => endOf o a < m.offset ∧ m.offset ≤ endOf o (a ++ b)) = b := by
    rw [List.filter_eq_self]
    intro m hm
    rw [endOf_append]
    simp [hb.lt hm, hb.le hm]
  have hthird : c.filter (fun m => endOf o a < m.offset ∧ m.offset ≤ endOf o (a ++ b)) = [] := by
    rw [List.filter_eq_nil_iff]
    intro m hm
    simp [not_le.mpr (hc.lt hm)]
  rw [List.filter_append, List.filter_append, hfirst, hsecond, hthird, List.nil_append,
    List.append_nil]

end Ascending

/-! ## Where a watcher stands -/

variable {r : Reader}

section Reading

variable {offset : Offset} {k n m : ℕ}

/-- The messages before a place in the batches. -/
def position (batches : List (List Message)) (k n : ℕ) : List Message :=
  (batches.take k).flatten ++ (batches.getD k []).take n

/-- An event is what is left of a batch behind a place in it. -/
structure HubEvent.Rest (cfg : HubConfig) (o : Offset) (batches : List (List Message)) (k n : ℕ)
    (e : HubEvent) : Prop where
  sequence : e.sequence = k + 1
  lt : k < batches.length
  toOffset : e.toOffset = endOf o (batches.take (k + 1)).flatten
  data : e.data = wires cfg ((batches.getD k []).drop n)

/-- A watcher stands in a batch or behind the last one, and it has sent what lies between the place
where it was attached and its own. -/
structure Reading (cfg : HubConfig) (o : Offset) (batches : List (List Message)) (r : Reader)
    (k n m : ℕ) : Prop where
  sequence : r.watcher.sequence = k + 1
  place : n < (batches.getD k []).length ∨ (k = batches.length ∧ n = 0)
  offset : r.watcher.offset = endOf o (position batches k n)
  wireStart : r.watcher.firstWireStart = (wires cfg ((batches.getD k []).take n)).length
  le : m ≤ (position batches k n).length
  start : r.start = endOf o ((position batches k n).take m)
  received : r.received = wires cfg ((position batches k n).drop m)
  obtained : ∀ e ∈ r.obtained, e.sequence < k + 1 ∨ e.Rest cfg o batches k n

theorem bisect_spec (p : ℕ → Bool) {fuel low high : ℕ} (hle : low ≤ high)
    (hfuel : high - low ≤ fuel) :
    bisect p fuel low high ≤ high ∧ (bisect p fuel low high < high →
      p (bisect p fuel low high) = true) := by
  induction fuel generalizing low high with
  | zero =>
    rw [bisect]
    exact ⟨hle, by omega⟩
  | succ fuel ih =>
    rw [bisect]
    split
    · dsimp only
      split
      · rename_i hp
        obtain ⟨hle', hspec⟩ := @ih low (low + (high - low) / 2) (by omega) (by omega)
        refine ⟨by omega, fun _ => ?_⟩
        obtain hlt | heq := Nat.lt_or_eq_of_le hle'
        · exact hspec hlt
        · rw [heq]
          exact hp
      · exact ih (by omega) (by omega)
    · exact ⟨hle, by omega⟩

theorem lt_of_firstSSEEventAfter {events : List HubEvent}
    (h : events[firstSSEEventAfter events offset]? = some e) : offset < e.toOffset := by
  unfold firstSSEEventAfter at h
  obtain ⟨hlt, -⟩ := List.getElem?_eq_some_iff.mp h
  have hp := (bisect_spec _ (Nat.zero_le _) (Nat.le_of_eq (Nat.sub_zero _))).2 hlt
  beta_reduce at hp
  rw [h, Option.any_some, Offset.lessThan_iff] at hp
  exact hp

theorem findSSEBoundary_eq_some {boundaries : List Boundary} {b : Boundary}
    (h : findSSEBoundary boundaries offset = some b) :
    ∃ i : ℕ, boundaries[i]? = some b ∧ b.offset = offset := by
  obtain ⟨hb, heq⟩ := Option.filter_eq_some_iff.mp h
  exact ⟨_, hb, Offset.equal_iff.mp heq⟩

theorem lt_length_of_lt_getD (h : n < (batches.getD k []).length) : k < batches.length := by
  by_contra hge
  rw [List.getD_eq_getElem?_getD, List.getElem?_eq_none (not_lt.mp hge)] at h
  exact Nat.not_lt_zero n h

theorem getD_of_getElem? (h : batches[k]? = some c) : batches.getD k [] = c := by
  rw [List.getD_eq_getElem?_getD, h, Option.getD_some]

theorem Reading.attached {w : Watcher} (hsequence : w.sequence = k + 1)
    (hplace : n < (batches.getD k []).length ∨ (k = batches.length ∧ n = 0))
    (hw : w.offset = offset) (hoffset : offset = endOf o (position batches k n))
    (hwire : w.firstWireStart = (wires cfg ((batches.getD k []).take n)).length) :
    Reading cfg o batches { watcher := w, start := offset } k n (position batches k n).length where
  sequence := hsequence
  place := hplace
  offset := hw.trans hoffset
  wireStart := hwire
  le := le_rfl
  start := by rw [List.take_length, hoffset]
  received := by rw [List.drop_length]; rfl
  obtained := nofun

theorem getElem?_bounds {i : ℕ} {b : Boundary}
    (h : (bounds cfg o c)[i]? = some b) :
    i < c.length ∧ b = ⟨endOf o (c.take (i + 1)), (wires cfg (c.take (i + 1))).length⟩ := by
  unfold bounds at h
  rw [List.getElem?_map, Option.map_eq_some_iff] at h
  obtain ⟨i', hi', rfl⟩ := h
  obtain ⟨hlt, rfl⟩ := List.getElem?_eq_some_iff.mp hi'
  rw [List.length_range] at hlt
  exact ⟨hlt, by rw [List.getElem_range]⟩

theorem attach_reading (hl : Layout cfg o h batches) {w' : Watcher}
    (hattach : r.watcher.attach h offset = (w', .ok ())) :
    ∃ k n m, Reading cfg o batches { watcher := w', start := offset } k n m := by
  unfold Watcher.attach at hattach
  split at hattach
  · cases hattach
  split at hattach
  · rename_i hcurrent
    cases hattach
    refine ⟨batches.length, 0, _, .attached hl.next (.inr ⟨rfl, rfl⟩) rfl ?_ ?_⟩
    · rw [Offset.equal_iff.mp hcurrent, hl.current, position, List.take_length, List.take_zero,
        List.append_nil]
    · rw [List.take_zero]
      rfl
  split at hattach
  · cases hattach
  split at hattach
  · cases hattach
  rename_i event hevent
  have hbehind := lt_of_firstSSEEventAfter hevent
  obtain ⟨hsequence, c, hc⟩ := hl.holds _ event hevent
  obtain ⟨q, hq⟩ : ∃ q, h.firstSequence + firstSSEEventAfter h.events offset = q + 1 :=
    ⟨h.firstSequence + firstSSEEventAfter h.events offset - 1, by have := hl.first; omega⟩
  rw [hq] at hsequence hc
  rw [Nat.add_sub_cancel] at hc
  have hgetD := getD_of_getElem? hc.index
  split at hattach
  · rename_i hfrom
    cases hattach
    have hne : c ≠ [] := hl.nonempty c (List.mem_of_getElem? hc.index)
    refine ⟨q, 0, _, .attached hsequence (.inl ?_) rfl ?_ ?_⟩
    · rw [hgetD]
      exact List.length_pos_iff.mpr hne
    · rw [Offset.equal_iff.mp hfrom, hc.fromOffset, position, List.take_zero, List.append_nil]
    · rw [List.take_zero]
      rfl
  · split at hattach
    · cases hattach
    · rename_i b hb
      cases hattach
      obtain ⟨i, hi, hoffset⟩ := findSSEBoundary_eq_some hb
      rw [hc.boundaries] at hi
      obtain ⟨hlt, rfl⟩ := getElem?_bounds hi
      have hend : endOf o (position batches q (i + 1)) = offset := by
        rw [position, hgetD, endOf_append, ← hc.fromOffset]
        exact hoffset
      have hlast : i + 1 < c.length := by
        by_contra hge
        have hall : c.take (i + 1) = c := List.take_of_length_le (by omega)
        rw [position, hgetD, hall, ← flatten_take_succ hc.index, ← hc.toOffset] at hend
        exact lt_irrefl _ (hend ▸ hbehind)
      refine ⟨q, i + 1, _, .attached hsequence (.inl ?_) rfl hend.symm ?_⟩
      · rwa [hgetD]
      · rw [hgetD]

theorem Reading.event (hr : Reading cfg o batches r k n m) (hl : Layout cfg o h batches)
    (hfirst : h.firstSequence ≤ r.watcher.sequence) {found : HubEvent}
    (hfound : h.events[r.watcher.sequence - h.firstSequence]? = some found) :
    found.sequence = k + 1 ∧ ∃ c, found.Holds cfg o batches k c := by
  obtain ⟨hsequence, c, hc⟩ := hl.holds _ found hfound
  rw [hr.sequence] at hsequence hc hfirst
  have hindex : h.firstSequence + (k + 1 - h.firstSequence) = k + 1 := by omega
  rw [hindex] at hsequence hc
  exact ⟨hsequence, c, hc⟩

theorem Reading.skips_nothing (hr : Reading cfg o batches r k n m)
    (hc : batches[k]? = some c) (hzero : r.watcher.firstWireStart = 0) : n = 0 := by
  have hwire := hr.wireStart
  rw [getD_of_getElem? hc, hzero, eq_comm, List.length_eq_zero_iff, wires_eq_nil,
    List.take_eq_nil_iff] at hwire
  obtain rfl | hnil := hwire
  · rfl
  · obtain hlt | ⟨-, hn⟩ := hr.place
    · rw [getD_of_getElem? hc, hnil] at hlt
      cases hlt
    · exact hn

theorem next_event (hl : Layout cfg o h batches) (hr : Reading cfg o batches r k n m)
    (hattached : r.watcher.attached = true) (hterminal : h.terminalErr = none)
    (hne : r.watcher.offset ≠ h.current) :
    r.watcher.next h r.watcher.offset = .error .lagged ∨
      ∃ e, r.watcher.next h r.watcher.offset = .ok (some e) ∧ e.Rest cfg o batches k n ∧
        e.fromOffset = r.watcher.offset ∧ e.data ≠ [] ∧
        ∃ found ∈ h.events, e.closed = found.closed ∧ e.toOffset = found.toOffset := by
  have hk : k < batches.length ∧ n < (batches.getD k []).length := by
    obtain hlt | ⟨rfl, rfl⟩ := hr.place
    · exact ⟨lt_length_of_lt_getD hlt, hlt⟩
    · refine absurd ?_ hne
      rw [hr.offset, hl.current, position, List.take_length, List.take_zero, List.append_nil]
  unfold Watcher.next
  rw [hterminal]
  dsimp only
  rw [if_neg (by simp [hattached]), if_neg (by simpa using hne)]
  split
  · exact .inl rfl
  rename_i hfirst
  rw [if_neg (by rw [hr.sequence, hl.next]; omega)]
  split
  · exact .inl rfl
  rename_i found hfound
  right
  obtain ⟨hsequence, c, hc⟩ := hr.event hl (not_lt.mp hfirst) hfound
  have hgetD := getD_of_getElem? hc.index
  have hmem := List.mem_of_getElem? hfound
  have hdata : wires cfg ((batches.getD k []).drop n) ≠ [] := by
    rw [ne_eq, wires_eq_nil, List.drop_eq_nil_iff]
    omega
  split
  · rename_i hzero
    obtain rfl := hr.skips_nothing hc.index hzero
    have hwhole : found.data = wires cfg ((batches.getD k []).drop 0) := by
      rw [List.drop_zero, hgetD, hc.data]
    refine ⟨found, rfl, ⟨hsequence, hk.1, hc.toOffset, hwhole⟩, ?_, hwhole ▸ hdata, found, hmem,
      rfl, rfl⟩
    rw [hr.offset, position, List.take_zero, List.append_nil, hc.fromOffset]
  · have hrest : found.data.drop r.watcher.firstWireStart =
        wires cfg ((batches.getD k []).drop n) := by
      rw [hr.wireStart, hc.data, hgetD]
      conv_lhs => rw [← List.take_append_drop n c, wires_append, List.take_append_drop]
      exact List.drop_left
    exact ⟨_, rfl, ⟨hsequence, hk.1, hc.toOffset, hrest⟩, rfl, hrest ▸ hdata, found, hmem, rfl,
      rfl⟩

theorem Reading.given (hr : Reading cfg o batches r k n m)
    (he : e.sequence = 0 ∨ e.Rest cfg o batches k n) :
    Reading cfg o batches { r with obtained := e :: r.obtained } k n m := by
  refine ⟨hr.sequence, hr.place, hr.offset, hr.wireStart, hr.le, hr.start, hr.received, ?_⟩
  refine List.forall_mem_cons.mpr ⟨?_, hr.obtained⟩
  exact he.imp (fun hzero => by rw [hzero]; exact Nat.succ_pos k) id

theorem Reading.commit (hl : Layout cfg o h batches) (hr : Reading cfg o batches r k n m)
    (he : e ∈ r.obtained) :
    ∃ k' n', Reading cfg o batches (r.commit e) k' n' m := by
  unfold Reader.commit Watcher.commit Watcher.commits
  by_cases hzero : e.sequence = 0
  · exact ⟨k, n, by simpa [hzero] using hr⟩
  by_cases hmatch : r.watcher.attached = true ∧ r.watcher.sequence = e.sequence
  · rw [if_neg hzero, if_pos hmatch, if_pos (by simp [hzero, hmatch])]
    obtain hlt | ⟨-, hk, hto, hdata⟩ := hr.obtained e he
    · rw [hr.sequence] at hmatch
      omega
    · obtain ⟨c, hc⟩ : ∃ c, batches[k]? = some c := ⟨_, List.getElem?_eq_getElem hk⟩
      have hgetD := getD_of_getElem? hc
      have hposition : position batches (k + 1) 0 = position batches k n ++ c.drop n := by
        rw [position, position, flatten_take_succ hc, hgetD, List.take_zero, List.append_nil,
          List.append_assoc, List.take_append_drop]
      refine ⟨k + 1, 0, ?_, ?_, ?_, ?_, ?_, ?_, ?_, fun e' he' => .inl ?_⟩
      · rw [hr.sequence]
      · by_cases hlast : k + 1 = batches.length
        · exact .inr ⟨hlast, rfl⟩
        · have hlt : k + 1 < batches.length := by omega
          refine .inl ?_
          rw [getD_of_getElem? (List.getElem?_eq_getElem hlt)]
          exact List.length_pos_iff.mpr (hl.nonempty _ (List.getElem_mem hlt))
      · rw [hto, position, List.take_zero, List.append_nil]
      · rw [List.take_zero]
        rfl
      · rw [hposition, List.length_append]
        exact Nat.le_add_right_of_le hr.le
      · rw [hposition, List.take_append_of_le_length hr.le, hr.start]
      · rw [hposition, List.drop_append_of_le_length hr.le, wires_append, ← hr.received, hdata,
          hgetD]
      · obtain hlt | ⟨heq, -⟩ := hr.obtained e' he' <;> omega
  · rw [if_neg hzero, if_neg hmatch, if_neg (by simpa [hzero] using hmatch)]
    exact ⟨k, n, hr⟩

theorem Reading.publish (hr : Reading cfg o batches r k n m) {more : List (List Message)}
    (hmore : ∀ c ∈ more, c ≠ []) : Reading cfg o (batches ++ more) r k n m := by
  have hgetD (hk : k < batches.length) : (batches ++ more).getD k [] = batches.getD k [] := by
    rw [List.getD_eq_getElem?_getD, List.getElem?_append_left hk, List.getD_eq_getElem?_getD]
  have hk : k ≤ batches.length := by
    obtain hlt | ⟨rfl, -⟩ := hr.place
    · exact (lt_length_of_lt_getD hlt).le
    · exact le_rfl
  have htaken : ((batches ++ more).getD k []).take n = (batches.getD k []).take n := by
    obtain hlt | ⟨-, rfl⟩ := hr.place
    · rw [hgetD (lt_length_of_lt_getD hlt)]
    · rw [List.take_zero, List.take_zero]
  have hposition : position (batches ++ more) k n = position batches k n := by
    rw [position, position, htaken, List.take_append_of_le_length hk]
  refine ⟨hr.sequence, ?_, ?_, ?_, ?_, ?_, ?_, fun e he => (hr.obtained e he).imp_right fun h => ?_⟩
  · obtain hlt | ⟨rfl, rfl⟩ := hr.place
    · exact .inl (by rwa [hgetD (lt_length_of_lt_getD hlt)])
    cases more with
    | nil => exact .inr ⟨by simp, rfl⟩
    | cons c more =>
      refine .inl ?_
      rw [getD_of_getElem? (show (batches ++ c :: more)[batches.length]? = some c by simp)]
      exact List.length_pos_iff.mpr (hmore c List.mem_cons_self)
  · rw [hposition, hr.offset]
  · rw [htaken, hr.wireStart]
  · rw [hposition]
    exact hr.le
  · rw [hposition, hr.start]
  · rw [hposition, hr.received]
  · refine ⟨h.sequence, ?_, ?_, by rw [hgetD h.lt, h.data]⟩
    · rw [List.length_append]
      exact Nat.lt_add_right _ h.lt
    · rw [List.take_append_of_le_length h.lt, h.toOffset]

end Reading

/-! ## Runs -/

section Runs

variable {s s' : State} {history : List (Op × Reply)}

/-- The ring and the watchers stand in the batches that were published, and the hub is closed at
the tail of a closed stream only. -/
structure Inv (cfg : HubConfig) (o : Offset) (s : State) : Prop where
  batches : ∃ batches, batches.flatten = s.published ∧ Layout cfg o s.hub batches ∧
    ∀ i, (s.readers i).watcher.attached = true → ∃ k n m, Reading cfg o batches (s.readers i) k n m
  ascending : Ascending o s.published
  le : ∀ t ∈ s.closedAt, s.hub.current ≤ t
  closed : s.hub.closed = true → s.closedAt = some s.hub.current
  events : ∀ e ∈ s.hub.events, e.closed = true →
    s.closedAt = some e.toOffset ∧ e.toOffset = s.hub.current

theorem Inv.current (hs : Inv cfg o s) : s.hub.current = endOf o s.published := by
  obtain ⟨batches, hflatten, hl, -⟩ := hs.batches
  rw [hl.current, hflatten]

theorem inv_begin (tail : Offset) (closed : Bool) : Inv cfg tail (begin tail closed) := by
  refine ⟨⟨[], rfl, ⟨nofun, le_rfl, rfl, rfl, rfl, nofun⟩, nofun⟩, trivial, ?_, ?_, nofun⟩
  · intro t ht
    cases closed with
    | false => cases ht
    | true =>
      cases ht
      exact le_rfl
  · rintro (rfl : closed = true)
    rfl

theorem Inv.set (hs : Inv cfg o s) (i : ℕ)
    (hr : ∀ batches, batches.flatten = s.published → Layout cfg o s.hub batches →
      ((s.readers i).watcher.attached = true →
        ∃ k n m, Reading cfg o batches (s.readers i) k n m) →
      r.watcher.attached = true → ∃ k n m, Reading cfg o batches r k n m) :
    Inv cfg o (s.set i r) := by
  obtain ⟨batches, hflatten, hl, hreaders⟩ := hs.batches
  refine ⟨⟨batches, hflatten, hl, fun j hj => ?_⟩, hs.ascending, hs.le, hs.closed, hs.events⟩
  obtain rfl | hne := eq_or_ne j i
  · rw [State.set] at hj ⊢
    dsimp only at hj ⊢
    rw [Function.update_self] at hj ⊢
    exact hr batches hflatten hl (hreaders j) hj
  · rw [State.set] at hj ⊢
    dsimp only at hj ⊢
    rw [Function.update_of_ne hne] at hj ⊢
    exact hreaders j hj

variable {tail : Offset}

/-- Behind the tail of a closed stream there is nothing to publish. -/
theorem Admissible.publish_nil {messages : List Message} {upToDate streamClosed : Bool}
    (ha : Admissible s (.publish messages upToDate streamClosed tail))
    (hfinal : s.closedAt = some s.hub.current) : messages = [] := by
  cases messages with
  | nil => rfl
  | cons m ms => exact absurd (ha.2.2 _ hfinal m List.mem_cons_self) (not_le.mpr ha.1.1)

theorem Inv.publish (hs : Inv cfg o s) {messages : List Message} {upToDate streamClosed : Bool}
    (ha : Admissible s (.publish messages upToDate streamClosed tail)) :
    Inv cfg o (exec cfg s (.publish messages upToDate streamClosed tail)).2 := by
  have hstay := ha.publish_nil
  obtain ⟨hascending, hclosedAt, hbound⟩ := ha
  obtain ⟨batches, hflatten, hl, hreaders⟩ := hs.batches
  obtain ⟨more, hmore, hp⟩ := publish_spec hl messages upToDate streamClosed tail
  have hnonempty : ∀ c ∈ more, c ≠ [] := fun c hc =>
    hp.layout.nonempty c (List.mem_append_right _ hc)
  have hcurrent : (s.hub.publish cfg s.hub.current messages upToDate streamClosed tail).1.current =
      endOf s.hub.current messages := by
    rw [hp.layout.current, List.flatten_append, endOf_append, ← hl.current, hmore]
  refine ⟨⟨batches ++ more, ?_, hp.layout, fun i hi => ?_⟩, ?_, fun t ht => ?_, fun hc => ?_,
    fun e he hc => ?_⟩
  · rw [List.flatten_append, hflatten, hmore]
    rfl
  · obtain ⟨k, n, m, hr⟩ := hreaders i hi
    exact ⟨k, n, m, hr.publish hnonempty⟩
  · exact ascending_append.mpr ⟨hs.ascending, hs.current ▸ hascending⟩
  · dsimp only [exec] at ht ⊢
    rw [hcurrent]
    exact endOf_le (hs.le t ht) (hbound t ht)
  · dsimp only [exec] at hc ⊢
    obtain hold | ⟨hs', ht⟩ := hp.closed hc
    · rw [hs.closed hold, hcurrent, hstay (hs.closed hold), endOf_nil]
    · rw [hclosedAt hs', ht]
  · dsimp only [exec] at he ⊢
    obtain hold | ⟨hs', ht, hcur⟩ := hp.events e he hc
    · obtain ⟨hat, hto⟩ := hs.events e hold hc
      rw [hcurrent, hstay (hto ▸ hat), endOf_nil]
      exact ⟨hat, hto⟩
    · exact ⟨by rw [hclosedAt hs', ht], hcur⟩

theorem Inv.attach (hs : Inv cfg o s) (i : ℕ) (offset : Offset) :
    Inv cfg o (s.set i ((s.readers i).attach s.hub offset).1) := by
  refine hs.set i fun batches hflatten hl hold hattached => ?_
  unfold Reader.attach at hattached ⊢
  generalize hresult : (s.readers i).watcher.attach s.hub offset = result at hattached ⊢
  obtain ⟨w, reply⟩ := result
  cases reply with
  | ok => exact attach_reading hl hresult
  | error e =>
    -- a watcher that could not be attached is left alone
    have hsame : w = (s.readers i).watcher := by
      unfold Watcher.attach at hresult
      repeat' split at hresult
      all_goals cases hresult
      all_goals rfl
    subst hsame
    exact hold hattached

theorem attached_of_next {w : Watcher} {h : Hub} {offset : Offset} {e : HubEvent}
    (hnext : w.next h offset = .ok (some e)) :
    h.terminalErr = none ∧ w.attached = true ∧ offset = w.offset := by
  unfold Watcher.next at hnext
  split at hnext
  · cases hnext
  · rename_i hterminal
    split at hnext
    · cases hnext
    · rename_i hused
      exact ⟨hterminal, by simpa using hused⟩

theorem next_cases {offset : Offset} {e : HubEvent}
    {k n m : ℕ} (hl : Layout cfg o s.hub batches) (hr : Reading cfg o batches r k n m)
    (hnext : r.watcher.next s.hub offset = .ok (some e)) :
    (e.sequence = 0 ∧ (e.closed = true → s.hub.closed = true ∧ e.toOffset = s.hub.current)) ∨
      (e.Rest cfg o batches k n ∧
        ∃ found ∈ s.hub.events, e.closed = found.closed ∧ e.toOffset = found.toOffset) := by
  obtain ⟨hterminal, hattached, rfl⟩ := attached_of_next hnext
  by_cases hcurrent : r.watcher.offset = s.hub.current
  · left
    unfold Watcher.next at hnext
    rw [hterminal] at hnext
    dsimp only at hnext
    rw [if_neg (by simp [hattached]), if_pos (Offset.equal_iff.mpr hcurrent)] at hnext
    split at hnext
    · rename_i hclosed
      cases hnext
      exact ⟨rfl, fun _ => ⟨hclosed, hcurrent⟩⟩
    · cases hnext
  · right
    obtain hlag | ⟨e', he', hrest, -, -, hfound⟩ :=
      next_event hl hr hattached hterminal hcurrent
    · rw [hlag] at hnext
      cases hnext
    · obtain rfl : e' = e := by
        rw [he'] at hnext
        exact Option.some.inj (Except.ok.inj hnext)
      exact ⟨hrest, hfound⟩

theorem Inv.next (hs : Inv cfg o s) (i : ℕ) (offset : Offset) :
    Inv cfg o (s.set i ((s.readers i).next s.hub offset).1) := by
  refine hs.set i fun batches hflatten hl hold hattached => ?_
  unfold Reader.next at hattached ⊢
  split at hattached
  · rename_i e hnext
    obtain ⟨k, n, m, hr⟩ := hold hattached
    exact ⟨k, n, m, hr.given ((next_cases hl hr hnext).imp And.left And.left)⟩
  · exact hold hattached
  · exact hold hattached

theorem Inv.commit (hs : Inv cfg o s) {i : ℕ} {e : HubEvent} (he : e ∈ (s.readers i).obtained) :
    Inv cfg o (s.set i ((s.readers i).commit e)) := by
  refine hs.set i fun batches hflatten hl hold hattached => ?_
  have hsame : ((s.readers i).commit e).watcher.attached = (s.readers i).watcher.attached := by
    unfold Reader.commit Watcher.commit
    repeat' split
    all_goals rfl
  obtain ⟨k, n, m, hr⟩ := hold (hsame ▸ hattached)
  obtain ⟨k', n', hr'⟩ := hr.commit hl he
  exact ⟨k', n', m, hr'⟩

theorem step_inv {e : Op × Reply} (hs : Inv cfg o s) (hstep : Step cfg s e s') : Inv cfg o s' := by
  obtain ⟨ha, hexec⟩ := hstep
  obtain ⟨op, reply⟩ := e
  have hs' : s' = (exec cfg s op).2 := (congrArg Prod.snd hexec).symm
  subst hs'
  cases op with
  | publish messages upToDate streamClosed tail => exact hs.publish ha
  | releaseReplay =>
    obtain ⟨batches, hflatten, hl, hreaders⟩ := hs.batches
    exact ⟨⟨batches, hflatten, hl.releaseReplay, hreaders⟩, hs.ascending, hs.le, hs.closed, nofun⟩
  | fail reason =>
    obtain ⟨batches, hflatten, hl, hreaders⟩ := hs.batches
    exact ⟨⟨batches, hflatten, hl.fail reason, hreaders⟩, hs.ascending, hs.le, hs.closed, hs.events⟩
  | closeStream tail =>
    have hopen : ∀ {t : Offset}, s.closedAt ≠ some t := by
      intro t
      rw [ha.1]
      nofun
    refine ⟨hs.batches, hs.ascending, ?_, fun hc => absurd (hs.closed hc) hopen,
      fun e he hc => absurd (hs.events e he hc).1 hopen⟩
    rintro t ⟨⟩
    exact ha.2
  | attach i offset => exact hs.attach i offset
  | next i offset => exact hs.next i offset
  | commit i event => exact hs.commit ha

theorem run_inv {closed : Bool} (hrun : Trace.Run (Step cfg) (begin tail closed) history s) :
    Inv cfg tail s :=
  hrun.invariant (inv_begin tail closed) fun _ _ _ hs hstep => step_inv hs hstep

theorem step_final {e : Op × Reply} (hs : Inv cfg o s) (hstep : Step cfg s e s')
    (hfinal : s.closedAt = some s.hub.current) :
    s'.closedAt = s.closedAt ∧ s'.hub.current = s.hub.current := by
  obtain ⟨ha, hexec⟩ := hstep
  obtain ⟨op, reply⟩ := e
  have hs' : s' = (exec cfg s op).2 := (congrArg Prod.snd hexec).symm
  subst hs'
  cases op with
  | publish messages upToDate streamClosed tail =>
    refine ⟨rfl, ?_⟩
    have hs₁ := hs.publish ha
    rw [hs₁.current, hs.current]
    dsimp only [exec]
    rw [ha.publish_nil hfinal, List.append_nil]
  | closeStream tail =>
    rw [ha.1] at hfinal
    cases hfinal
  | releaseReplay | fail | attach | next | commit => exact ⟨rfl, rfl⟩

theorem run_final (hs : Inv cfg o s)
    (hrun : Trace.Run (Step cfg) s history s') (hfinal : s.closedAt = some s.hub.current) :
    s'.closedAt = some s.hub.current ∧ s'.hub.current = s.hub.current := by
  have hall : Inv cfg o s' ∧ s'.closedAt = some s.hub.current ∧ s'.hub.current = s.hub.current := by
    refine hrun.invariant (I := fun t => Inv cfg o t ∧ t.closedAt = some s.hub.current ∧
      t.hub.current = s.hub.current) ⟨hs, hfinal, rfl⟩ ?_
    rintro t e t' ⟨ht, hat, hcur⟩ hstep
    obtain ⟨hat', hcur'⟩ := step_final ht hstep (by rw [hat, hcur])
    exact ⟨step_inv ht hstep, hat'.trans hat, hcur'.trans hcur⟩
  exact hall.2

theorem Reading.received_filter {k n m : ℕ}
    (hr : Reading cfg o batches r k n m) (hascending : Ascending o batches.flatten) :
    r.received = wires cfg (batches.flatten.filter
      fun x => r.start < x.offset ∧ x.offset ≤ r.watcher.offset) := by
  obtain ⟨rest, hrest⟩ : position batches k n <+: batches.flatten := by
    refine ⟨(batches.getD k []).drop n ++ (batches.drop (k + 1)).flatten, ?_⟩
    rw [position, List.append_assoc, ← List.append_assoc ((batches.getD k []).take n),
      List.take_append_drop, ← List.append_assoc]
    conv_rhs => rw [← List.take_append_drop (k + 1) batches, List.flatten_append]
    congr 1
    cases hk : batches[k]? with
    | some c => rw [flatten_take_succ hk, getD_of_getElem? hk]
    | none =>
      have hlength := List.getElem?_eq_none_iff.mp hk
      rw [List.getD_eq_getElem?_getD, hk, List.take_of_length_le hlength,
        List.take_of_length_le (by omega)]
      simp
  rw [← List.take_append_drop m (position batches k n)] at hrest
  rw [← hrest] at hascending ⊢
  have hfilter := hascending.filter
  rw [List.take_append_drop, ← hr.start, ← hr.offset] at hfilter
  rw [List.take_append_drop, hfilter, hr.received]

/-- A watcher has sent each message between the offset where it was attached and its own once and
in order. While there are more messages it is given one, or it has fallen behind, or the hub has
failed. An event that is marked as closed ends where the closed stream ends. -/
theorem watchers_see_stream {closed : Bool} {history : List (Op × Reply)}
    (hrun : Trace.Run (Step cfg) (begin tail closed) history s) (i : ℕ) :
    ((s.readers i).watcher.attached = true →
      (s.readers i).received =
        (s.published.filter fun m => (s.readers i).start < m.offset ∧
          m.offset ≤ (s.readers i).watcher.offset).flatMap
            (fun m => formatSSEDataEvent [m] cfg.contentType cfg.useBase64) ∧
      ((s.readers i).watcher.offset < s.hub.current →
        (∃ e, (s.readers i).watcher.next s.hub (s.readers i).watcher.offset = .ok (some e) ∧
          e.fromOffset = (s.readers i).watcher.offset ∧ e.data ≠ []) ∨
        (s.readers i).watcher.next s.hub (s.readers i).watcher.offset = .error .lagged ∨
        ∃ reason, s.hub.terminalErr = some reason ∧
          (s.readers i).watcher.next s.hub (s.readers i).watcher.offset =
            .error (.terminal reason))) ∧
    ∀ (offset : Offset) (e : HubEvent),
      (s.readers i).watcher.next s.hub offset = .ok (some e) → e.closed = true →
      ∀ (later : List (Op × Reply)) (s' : State), Trace.Run (Step cfg) s later s' →
        s'.closedAt = some e.toOffset ∧ s'.hub.current = e.toOffset := by
  have hs := run_inv hrun
  obtain ⟨batches, hflatten, hl, hreaders⟩ := hs.batches
  constructor
  · intro hattached
    obtain ⟨k, n, m, hr⟩ := hreaders i hattached
    constructor
    · rw [← hflatten]
      exact hr.received_filter (hflatten ▸ hs.ascending)
    · intro hbehind
      cases hterminal : s.hub.terminalErr with
      | some reason =>
        refine .inr (.inr ⟨reason, rfl, ?_⟩)
        unfold Watcher.next
        rw [hterminal]
      | none =>
        obtain hlag | ⟨e, he, -, hfrom, hdata, -⟩ :=
          next_event hl hr hattached hterminal hbehind.ne
        · exact .inr (.inl hlag)
        · exact .inl ⟨e, he, hfrom, hdata⟩
  · intro offset e hnext hclosed later s' hlater
    obtain ⟨k, n, m, hr⟩ := hreaders i (attached_of_next hnext).2.1
    have hend : s.closedAt = some e.toOffset ∧ e.toOffset = s.hub.current := by
      obtain ⟨-, hmarked⟩ | ⟨-, found, hfound, hsame, hto⟩ := next_cases hl hr hnext
      · obtain ⟨hhub, hto⟩ := hmarked hclosed
        exact ⟨hto ▸ hs.closed hhub, hto⟩
      · rw [hto]
        exact hs.events found hfound (hsame ▸ hclosed)
    obtain ⟨hat, hto⟩ := hend
    rw [hto] at hat ⊢
    exact run_final hs hlater hat

end Runs

section Joined

def textHub : HubConfig where
  contentType := Bytes.ascii "text/plain"
  useBase64 := false
  replayLimit := 1000
  batchLimit := 1000

def letter (c : UInt8) (n : ℕ) : Message := ⟨[c], ⟨0, n⟩⟩

def secondHalf : HubEvent where
  sequence := 1
  fromOffset := ⟨0, 1⟩
  toOffset := ⟨0, 2⟩
  data := wire textHub (letter 98 2)
  upToDate := true
  memorySize := (wire textHub (letter 98 2)).length

def ran (s : State) (op : Op) : Option ((Op × Reply) × State) :=
  if Admissible s op then some ((op, (exec textHub s op).1), (exec textHub s op).2) else none

theorem ran_step (s : State) (op : Op) (e : Op × Reply) (s' : State)
    (h : ran s op = some (e, s')) : Step textHub s e s' := by
  unfold ran at h
  split at h
  · rename_i ha
    cases h
    exact ⟨ha, rfl⟩
  · cases h

def joinedOps : List Op :=
  [.publish [letter 97 1, letter 98 2] true false ⟨0, 2⟩, .attach 0 ⟨0, 1⟩, .next 0 ⟨0, 1⟩,
    .commit 0 secondHalf, .closeStream ⟨0, 3⟩, .publish [letter 99 3] true true ⟨0, 3⟩]

theorem joinedOps_run : (Trace.execAll ran (begin zeroOffset false) joinedOps).isSome := by
  decide +kernel

def joined : List (Op × Reply) × State :=
  Trace.executed ran (begin zeroOffset false) joinedOps joinedOps_run

theorem watchers_see_stream_joined :
    (joined.2.readers 0).received = wire textHub (letter 98 2) ∧
      ∀ (later : List (Op × Reply)) (s' : State), Trace.Run (Step textHub) joined.2 later s' →
        s'.closedAt = some ⟨0, 3⟩ ∧ s'.hub.current = ⟨0, 3⟩ := by
  have hsees := watchers_see_stream (Trace.executed_run ran_step joinedOps_run) 0
  constructor
  · refine (hsees.1 (by decide +kernel)).1.trans ?_
    decide +kernel
  · exact hsees.2 ⟨0, 2⟩
      { sequence := 2, fromOffset := ⟨0, 2⟩, toOffset := ⟨0, 3⟩, data := wire textHub (letter 99 3)
        boundaries := [⟨⟨0, 3⟩, (wire textHub (letter 99 3)).length⟩], upToDate := true
        closed := true, wireBytes := (wire textHub (letter 99 3)).length, indexBytes := 24
        memorySize := (wire textHub (letter 99 3)).length + 24 }
      (by decide +kernel) rfl

end Joined

end Chronicle.Handler.SseHub
