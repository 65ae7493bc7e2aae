import Chronicle.Handler.Response
import Chronicle.Lib.Base64
import Chronicle.Lib.Lines

/-! # Data events of a live stream

A batch of messages is sent as one server-sent event. Each line of a text batch
becomes a data line of the event, and all line ends become line feeds, so no
payload can end the event early. The reader of the event removes one space after
the colon, and none is written: a line that begins with a space loses it.
-/

namespace Chronicle.Handler

open Lines

section Writer

structure SseDataWriter where
  lineStart : Bool := true
  pendingCR : Bool := false
  deriving DecidableEq, Repr

def dataName : Bytes := Bytes.ascii "data"

def dataField : Bytes := Bytes.ascii "data:"

namespace SseDataWriter

def isBreak (c : UInt8) : Bool := c = 13 || c = 10

/-- The writer after a slice, and what it has written of it. -/
def write (w : SseDataWriter) : Bytes → SseDataWriter × Bytes
  | [] => (w, [])
  | c :: p =>
    if w.pendingCR ∧ c = 10 then
      -- the line feed belongs to the carriage return that ended the line before
      write { w with pendingCR := false } p
    else
      let field := if w.lineStart then dataField else []
      let nextBreak := (c :: p).findIdx isBreak
      match (c :: p)[nextBreak]? with
      | none => (⟨false, false⟩, field ++ c :: p)
      | some delimiter =>
        let (w', out) := write ⟨true, delimiter = 13⟩ ((c :: p).drop (nextBreak + 1))
        (w', field ++ (c :: p).take nextBreak ++ [10] ++ out)
termination_by p => p.length
decreasing_by
  · simp
  · simp only [List.length_drop, List.length_cons]
    omega

def writeAll (w : SseDataWriter) : List Bytes → SseDataWriter × Bytes
  | [] => (w, [])
  | p :: ps =>
    let (w₁, out) := w.write p
    let (w₂, rest) := w₁.writeAll ps
    (w₂, out ++ rest)

def close (w : SseDataWriter) : Bytes := (if w.lineStart then dataField else []) ++ [10]

end SseDataWriter

/-- The event of a payload that reaches the writer in several slices. -/
def dataEvent (writes : List Bytes) : Bytes :=
  let (w, out) := SseDataWriter.writeAll {} writes
  Bytes.ascii "event: data\n" ++ out ++ w.close ++ [10]

def formatSSEDataEvent (messages : List Message) (contentType : Bytes) (useBase64 : Bool) :
    Bytes :=
  let response : CatchupResponseWriter := { json := isJSONContentType contentType }
  let writes := (response.writePage messages).close.writes
  if useBase64 then
    Bytes.ascii "event: data\n" ++ dataField ++ Base64.std.encode writes.flatten ++ [10, 10]
  else dataEvent writes

end Writer

section Reader

structure SseEvent where
  type : Bytes
  data : Bytes
  deriving DecidableEq, Repr

structure SseParser where
  eventType : Bytes := []
  data : List Bytes := []

def trimSpace : Bytes → Bytes
  | 32 :: s => s
  | s => s

def sseField (line : Bytes) : Bytes × Bytes :=
  (line.takeWhile (· ≠ 58), trimSpace ((line.dropWhile (· ≠ 58)).drop 1))

def isField (line : Bytes) : Bool := line ≠ [] && line.head? ≠ some 58

namespace SseParser

def line (p : SseParser) (line : Bytes) : SseParser × Option SseEvent :=
  if line = [] then
    if p.eventType = [] ∧ p.data = [] then (p, none)
    else ({}, some ⟨p.eventType, List.intercalate [10] p.data⟩)
  else if ¬ isField line then (p, none)
  else
    let (name, value) := sseField line
    if name = Bytes.ascii "event" then ({ p with eventType := value }, none)
    else if name = dataName then ({ p with data := p.data ++ [value] }, none)
    else (p, none)

def events (p : SseParser) : List Bytes → List SseEvent
  | [] => []
  | l :: ls =>
    let (p', e) := p.line l
    e.toList ++ p'.events ls

end SseParser

/-- The lines of an event stream; what follows the last line end is not a line yet. -/
def streamLines (s : Bytes) : List Bytes := (lines s).dropLast

def parseEvents (s : Bytes) : List SseEvent := SseParser.events {} (streamLines s)

def sseFields (s : Bytes) : List (Bytes × Bytes) := ((streamLines s).filter isField).map sseField

end Reader

namespace SseDataWriter

variable {w : SseDataWriter}

/-- What one byte does to the writer. -/
def put (w : SseDataWriter) (c : UInt8) : SseDataWriter × Bytes :=
  if w.pendingCR ∧ c = 10 then ({ w with pendingCR := false }, [])
  else
    let field := if w.lineStart then dataField else []
    if isBreak c then (⟨true, c = 13⟩, field ++ [10]) else (⟨false, false⟩, field ++ [c])

theorem write_nil (w : SseDataWriter) : w.write [] = (w, []) := by rw [write]

theorem write_cons (w : SseDataWriter) (c : UInt8) (p : Bytes) :
    w.write (c :: p) =
      (((w.put c).1.write p).1, (w.put c).2 ++ ((w.put c).1.write p).2) := by
  rw [write, put]
  by_cases hcr : w.pendingCR ∧ c = 10
  · rw [if_pos hcr, if_pos hcr]
    rfl
  rw [if_neg hcr, if_neg hcr]
  cases hc : isBreak c with
  | true => simp [List.findIdx_cons, hc]
  | false =>
    cases p with
    | nil => simp [List.findIdx_cons, hc, write_nil]
    | cons d q =>
      simp only [write, List.findIdx_cons, hc, cond_false, List.getElem?_cons_succ]
      split <;> simp

theorem write_append (w : SseDataWriter) (p q : Bytes) :
    w.write (p ++ q) = (((w.write p).1.write q).1, (w.write p).2 ++ ((w.write p).1.write q).2) := by
  induction p generalizing w with
  | nil => simp [write_nil]
  | cons c p ih => simp [write_cons, ih]

theorem writeAll_eq (w : SseDataWriter) (ps : List Bytes) : w.writeAll ps = w.write ps.flatten := by
  induction ps generalizing w with
  | nil => simp [writeAll, write_nil]
  | cons p ps ih => simp [writeAll, ih, write_append]

/-- What a writer produces of a payload up to the end of its last line. -/
def text (w : SseDataWriter) (p : Bytes) : Bytes := (w.write p).2 ++ (w.write p).1.close

theorem text_cons (w : SseDataWriter) (c : UInt8) (p : Bytes) :
    w.text (c :: p) = (w.put c).2 ++ (w.put c).1.text p := by
  simp [text, write_cons]

theorem text_lineStart (p : Bytes) :
    text ⟨true, false⟩ p = dataField ++ text ⟨false, false⟩ p := by
  cases p with
  | nil => simp [text, write_nil, close]
  | cons c p =>
    rw [text_cons, text_cons]
    cases hc : isBreak c <;> simp [put, hc]

theorem text_pendingCR (p : Bytes) : text ⟨true, true⟩ p = text ⟨true, false⟩ (skipFeed p) := by
  cases p with
  | nil => simp [text, write_nil, close, skipFeed]
  | cons c p =>
    by_cases hc : c = 10
    · subst hc
      rw [text_cons]
      rfl
    · have hskip : skipFeed (c :: p) = c :: p := by
        rw [skipFeed]
        intro t h
        exact hc (List.cons.inj h).1
      rw [hskip, text_cons, text_cons]
      simp [put, hc]

def dataLines (ls : List Bytes) : Bytes := (ls.map (dataField ++ ·)).flatMap (· ++ [10])

@[simp] theorem dataLines_cons (l : Bytes) (ls : List Bytes) :
    dataLines (l :: ls) = dataField ++ (l ++ 10 :: dataLines ls) := by
  simp [dataLines]

theorem text_eq (p : Bytes) : text {} p = dataLines (lines p) := by
  induction hn : p.length using Nat.strong_induction_on generalizing p with
  | _ n ih =>
    cases p with
    | nil => simp [text, write_nil, close, dataLines, lines, unify]
    | cons c p =>
      subst hn
      rw [text_cons]
      by_cases hcr : c = 13
      · subst hcr
        have hlen : (skipFeed p).length < (13 :: p).length := by
          unfold skipFeed
          split <;> simp
        have hput : put {} 13 = (⟨true, true⟩, dataField ++ [10]) := by decide
        rw [hput, text_pendingCR, ih _ hlen _ rfl, lines_cr]
        simp
      by_cases hlf : c = 10
      · subst hlf
        have hput : put {} 10 = (⟨true, false⟩, dataField ++ [10]) := by decide
        rw [hput, ih _ (by simp) _ rfl, lines_lf]
        simp
      have hput : put {} c = (⟨false, false⟩, dataField ++ [c]) := by
        simp [put, isBreak, hcr, hlf]
      have htail := ih p.length (by simp) p rfl
      obtain ⟨l, ls, hl⟩ := List.exists_cons_of_ne_nil (lines_ne_nil p)
      rw [text_lineStart, hl, dataLines_cons, List.append_cancel_left_eq] at htail
      rw [hput, htail, lines_cons hcr hlf, hl]
      simp
end SseDataWriter

open SseDataWriter

theorem streamLines_dataEvent (writes : List Bytes) :
    streamLines (dataEvent writes) =
      Bytes.ascii "event: data" :: (lines writes.flatten).map (dataField ++ ·) ++ [[]] := by
  have htext := text_eq writes.flatten
  rw [text] at htext
  have hevent : dataEvent writes = (Bytes.ascii "event: data" ::
      (lines writes.flatten).map (dataField ++ ·) ++ [[]]).flatMap (· ++ [10]) := by
    rw [dataEvent, writeAll_eq]
    dsimp only
    rw [List.append_assoc (Bytes.ascii "event: data\n"), htext, dataLines, List.cons_append,
      List.flatMap_cons, List.flatMap_append]
    rfl
  have hbreaks : ∀ l ∈ Bytes.ascii "event: data" ::
      (lines writes.flatten).map (dataField ++ ·) ++ [[]], 13 ∉ l ∧ 10 ∉ l := by
    intro l hl
    simp only [List.cons_append, List.mem_cons, List.mem_append, List.mem_map, List.not_mem_nil,
      or_false] at hl
    obtain rfl | ⟨l, hl, rfl⟩ | rfl := hl
    · decide
    · have hfield : 13 ∉ dataField ∧ 10 ∉ dataField := by decide
      simp [notMem_line hl, hfield]
    · simp
  rw [streamLines, hevent, lines_flatMap (fun l hl => (hbreaks l hl).1) fun l hl => (hbreaks l hl).2,
    List.dropLast_concat]

namespace SseParser

theorem line_dataField (p : SseParser) (l : Bytes) :
    p.line (dataField ++ l) = ({ p with data := p.data ++ [trimSpace l] }, none) := rfl

theorem events_dataLines (p : SseParser) (ls : List Bytes) (h : p.eventType ≠ []) :
    p.events (ls.map (dataField ++ ·) ++ [[]]) =
      [⟨p.eventType, List.intercalate [10] (p.data ++ ls.map trimSpace)⟩] := by
  induction ls generalizing p with
  | nil => simp [events, line, h]
  | cons l ls ih =>
    rw [List.map_cons, List.cons_append, events, line_dataField, List.map_cons]
    simp only [Option.toList_none, List.nil_append]
    rw [ih ⟨p.eventType, p.data ++ [trimSpace l]⟩ h]
    simp

end SseParser

theorem parseEvents_dataEvent (writes : List Bytes) :
    parseEvents (dataEvent writes) =
      [⟨dataName, List.intercalate [10] ((lines writes.flatten).map trimSpace)⟩] := by
  rw [parseEvents, streamLines_dataEvent, List.cons_append, SseParser.events]
  exact SseParser.events_dataLines ⟨dataName, []⟩ _ (by decide)

theorem sseFields_dataEvent (writes : List Bytes) :
    sseFields (dataEvent writes) = (Bytes.ascii "event", dataName) ::
      (lines writes.flatten).map fun l => (dataName, trimSpace l) := by
  have hfilter : ((lines writes.flatten).map (dataField ++ ·)).filter isField =
      (lines writes.flatten).map (dataField ++ ·) := by
    rw [List.filter_eq_self]
    intro l hl
    obtain ⟨l, -, rfl⟩ := List.mem_map.mp hl
    rfl
  rw [sseFields, streamLines_dataEvent, List.cons_append, List.filter_cons_of_pos (by decide),
    List.filter_append, hfilter]
  simp only [List.map_cons, List.map_append, List.map_map, List.filter_cons, List.filter_nil]
  exact congrArg _ (List.append_nil _)

theorem trimSpace_subset (l : Bytes) : trimSpace l ⊆ l := by
  unfold trimSpace
  split
  · exact List.subset_cons_self ..
  · exact List.Subset.refl _

theorem trimSpace_eq_iff (l : Bytes) : trimSpace l = l ↔ l.head? ≠ some 32 := by
  unfold trimSpace
  split
  · simp
  · rename_i hne
    simp only [true_iff]
    intro hhead
    obtain ⟨s, rfl⟩ := List.head?_eq_some_iff.mp hhead
    exact hne s rfl

theorem intercalate_trimSpace_iff (p : Bytes) :
    List.intercalate [10] ((lines p).map trimSpace) = unify p ↔
      ∀ l ∈ lines p, l.head? ≠ some 32 := by
  have hne : (lines p).map trimSpace ≠ [] := by simp [lines_ne_nil]
  have hlf : ∀ l ∈ (lines p).map trimSpace, 10 ∉ l := by
    intro l hl hmem
    obtain ⟨m, hm, rfl⟩ := List.mem_map.mp hl
    exact (notMem_line hm).2 (trimSpace_subset m hmem)
  have hmap : (lines p).map trimSpace = lines p ↔ ∀ l ∈ lines p, trimSpace l = l := by
    conv_lhs => rhs; rw [← List.map_id (lines p)]
    exact List.map_inj_left
  simp only [← trimSpace_eq_iff, ← hmap]
  constructor
  · intro heq
    rw [← List.splitOn_intercalate 10 hlf hne, heq, lines]
  · intro heq
    rw [heq, intercalate_lines]

section Main

variable {contentType : Bytes}

theorem formatSSEDataEvent_eq (hjson : isJSONContentType contentType = false)
    (messages : List Message) :
    ∃ writes, writes.flatten = messages.flatMap (·.data) ∧
      formatSSEDataEvent messages contentType false = dataEvent writes := by
  refine ⟨_, ?_, rfl⟩
  rw [hjson]
  exact CatchupResponseWriter.Plain.flatten_writes ⟨rfl, rfl⟩ messages

theorem dataEvent_eq {ps qs : List Bytes} (h : ps.flatten = qs.flatten) :
    dataEvent ps = dataEvent qs := by
  rw [dataEvent, dataEvent, writeAll_eq, writeAll_eq, h]

/-- Whatever the payload is and however it is cut into writes, the output is the same and holds one
event of type data, with no field but its type and its data. The data is the payload with line feeds
exactly if no line of the payload begins with a space. -/
theorem formatSSEDataEvent_parses (hjson : isJSONContentType contentType = false)
    (messages : List Message) :
    (∀ writes, writes.flatten = messages.flatMap (·.data) →
      dataEvent writes = formatSSEDataEvent messages contentType false) ∧
    (∃ data, parseEvents (formatSSEDataEvent messages contentType false) = [⟨dataName, data⟩]) ∧
    (∀ f ∈ sseFields (formatSSEDataEvent messages contentType false),
      f = (Bytes.ascii "event", dataName) ∨ f.1 = dataName) ∧
    (parseEvents (formatSSEDataEvent messages contentType false) =
        [⟨dataName, unify (messages.flatMap (·.data))⟩] ↔
      ∀ l ∈ lines (messages.flatMap (·.data)), l.head? ≠ some 32) := by
  obtain ⟨writes, hflat, heq⟩ := formatSSEDataEvent_eq hjson messages
  rw [heq, ← hflat]
  refine ⟨fun _ h => dataEvent_eq h, ⟨_, parseEvents_dataEvent writes⟩, ?_, ?_⟩
  · intro f hf
    rw [sseFields_dataEvent, List.mem_cons, List.mem_map] at hf
    obtain hf | ⟨l, -, rfl⟩ := hf
    · exact .inl hf
    · exact .inr rfl
  · rw [parseEvents_dataEvent, ← intercalate_trimSpace_iff]
    simp

def twoLines : List Message := [⟨Bytes.ascii "a\r", ⟨0, 2⟩⟩, ⟨Bytes.ascii "\nb", ⟨0, 4⟩⟩]

theorem formatSSEDataEvent_parses_twoLines :
    parseEvents (formatSSEDataEvent twoLines (Bytes.ascii "text/plain") false) =
      [⟨dataName, Bytes.ascii "a\nb"⟩] := by
  have hjson : isJSONContentType (Bytes.ascii "text/plain") = false := by decide
  exact (formatSSEDataEvent_parses hjson twoLines).2.2.2.mpr (by decide)

/-- A line that begins with a space arrives without it. -/
theorem formatSSEDataEvent_loses_space :
    parseEvents (formatSSEDataEvent [⟨Bytes.ascii " a", ⟨0, 2⟩⟩] (Bytes.ascii "text/plain") false) =
        [⟨dataName, Bytes.ascii "a"⟩] ∧
      unify (Bytes.ascii " a") = Bytes.ascii " a" := by
  decide +kernel

end Main

end Chronicle.Handler
