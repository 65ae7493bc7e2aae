import Chronicle.Store.Metadata

/-! # Bodies of catch-up responses

A response writes the messages of its pages one after the other. A JSON response
puts them into an array, and an enveloped one puts the offset of each message
beside its data. What is written is handed on as a list of writes, since the
reader of a live stream gets its lines from them.
-/

namespace Chronicle.Handler

structure CatchupResponseWriter where
  json : Bool
  enveloped : Bool := false
  started : Bool := false
  wrote : Bool := false
  writes : List Bytes := []

namespace CatchupResponseWriter

/-- Nothing is written of an empty slice. -/
def write (w : CatchupResponseWriter) (p : Bytes) : CatchupResponseWriter :=
  if p = [] then w else { w with writes := w.writes ++ [p] }

def start (w : CatchupResponseWriter) : CatchupResponseWriter :=
  if w.started then w
  else
    let w := { w with started := true }
    if w.json then w.write (Bytes.ascii "[") else w

/-- An offset consists of characters that a quoted string holds as they are. -/
def quote (s : Bytes) : Bytes := [34] ++ s ++ [34]

def writeMessage (w : CatchupResponseWriter) (m : Message) : CatchupResponseWriter :=
  let w := if w.json && w.wrote then w.write (Bytes.ascii ",") else w
  let w :=
    if w.enveloped then
      ((w.write (Bytes.ascii "\x7b\"offset\":")).write (quote m.offset.string)).write
        (Bytes.ascii ",\"data\":")
    else w
  let w := w.write m.data
  let w := if w.enveloped then w.write (Bytes.ascii "\x7d") else w
  { w with wrote := true }

def writePage (w : CatchupResponseWriter) (messages : List Message) : CatchupResponseWriter :=
  messages.foldl writeMessage w.start

def close (w : CatchupResponseWriter) : CatchupResponseWriter :=
  let w := w.start
  if w.json then w.write (Bytes.ascii "]") else w

section Plain

variable {w : CatchupResponseWriter}

theorem flatten_write (w : CatchupResponseWriter) (p : Bytes) :
    (w.write p).writes.flatten = w.writes.flatten ++ p := by
  unfold write
  split
  · simp_all
  · simp

structure Plain (w : CatchupResponseWriter) : Prop where
  json : w.json = false
  enveloped : w.enveloped = false

theorem Plain.write (h : w.Plain) (p : Bytes) : (w.write p).Plain := by
  unfold CatchupResponseWriter.write
  split
  · exact h
  · exact ⟨h.json, h.enveloped⟩

theorem Plain.start (h : w.Plain) : w.start.Plain ∧ w.start.writes = w.writes := by
  unfold CatchupResponseWriter.start
  split
  · exact ⟨h, rfl⟩
  · rw [if_neg (by simp [h.json])]
    exact ⟨⟨h.json, h.enveloped⟩, rfl⟩

theorem Plain.writeMessage (h : w.Plain) (m : Message) :
    (w.writeMessage m).Plain ∧
      (w.writeMessage m).writes.flatten = w.writes.flatten ++ m.data := by
  have hw := h.write m.data
  have heq : w.writeMessage m = { w.write m.data with wrote := true } := by
    simp [CatchupResponseWriter.writeMessage, h.json, h.enveloped, hw.enveloped]
  rw [heq]
  exact ⟨⟨hw.json, hw.enveloped⟩, flatten_write w m.data⟩

/-- A plain response writes the data of its messages and nothing else. -/
theorem Plain.flatten_writes (h : w.Plain) (messages : List Message) :
    (w.writePage messages).close.writes.flatten =
      w.writes.flatten ++ messages.flatMap (·.data) := by
  have hfold : ∀ w : CatchupResponseWriter, w.Plain →
      (messages.foldl CatchupResponseWriter.writeMessage w).Plain ∧
        (messages.foldl CatchupResponseWriter.writeMessage w).writes.flatten =
          w.writes.flatten ++ messages.flatMap (·.data) := by
    induction messages with
    | nil => exact fun w h => ⟨h, by simp⟩
    | cons m messages ih =>
      intro w h
      obtain ⟨hm, hflat⟩ := h.writeMessage m
      obtain ⟨hplain, heq⟩ := ih _ hm
      refine ⟨hplain, ?_⟩
      rw [List.foldl_cons, heq, hflat, List.flatMap_cons, List.append_assoc]
  obtain ⟨hstart, hsame⟩ := h.start
  obtain ⟨hplain, heq⟩ := hfold _ hstart
  obtain ⟨hend, hlast⟩ := hplain.start
  unfold writePage
  rw [close, if_neg (by simp [hend.json]), hlast, heq, hsame]

end Plain

end CatchupResponseWriter

end Chronicle.Handler
