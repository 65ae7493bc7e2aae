import Chronicle.Handler.CatchUp

/-! # Responses that are JSON arrays

The messages of a JSON stream are the values of the bodies that were appended. A
response writes them page by page as one array, and the elements of that array are
the values of the bodies, however they were batched.
-/

namespace Chronicle

def formatJSONResponse : List Message → Bytes
  | [] => Bytes.ascii "[]"
  | m :: ms => 91 :: (m.data ++ ms.flatMap (44 :: ·.data)) ++ [93]

namespace Json

/-- One JSON value, however deeply nested. -/
def WellFormed (s : Bytes) : Prop := ∃ f d, scan f .value d s = some []

/-- The values of a body: the elements of an array, or the body itself. -/
def elements (body : Bytes) : List Bytes :=
  let trimmed := trimSpace body
  if trimmed.head? = some 91 then (unmarshalArray trimmed).getD [] else [trimmed]

section Array

variable {e : Bytes} {es : List Bytes}

/-- The text of an array behind its first element. -/
def behind (es : List Bytes) : Bytes := es.flatMap (44 :: ·) ++ [93]

theorem behind_cons (e : Bytes) (es : List Bytes) :
    behind (e :: es) = 44 :: (e ++ behind es) := by
  simp [behind]

theorem behind_stops (es : List Bytes) : Stops inNumber (behind es) := by
  cases es <;> rintro c ⟨⟩ <;> rfl

theorem skipSpace_behind (es : List Bytes) : skipSpace (behind es) = behind es := by
  cases es <;> rfl

theorem IsValue.head (h : IsValue e) : ∃ c e', e = c :: e' ∧ isSpace c = false ∧ c ≠ 93 := by
  have hscan := h.scanValue (t := []) nofun
  rw [List.append_nil] at hscan
  cases e with
  | nil => exact absurd rfl h.1
  | cons c e =>
    refine ⟨c, e, rfl, ?_, ?_⟩
    · by_contra hspace
      rw [Bool.not_eq_false, isSpace_iff] at hspace
      rcases hspace with rfl | rfl | rfl | rfl <;> cases hscan
    · rintro rfl
      cases hscan

theorem IsValue.skipSpace (h : IsValue e) (t : Bytes) : skipSpace (e ++ t) = e ++ t := by
  obtain ⟨c, e', rfl, hc, -⟩ := h.head
  exact List.dropWhile_cons_of_neg (by simp [hc])

/-- An array that is not empty is read on from its first element. -/
theorem IsValue.opens (h : IsValue e) (t : Bytes) :
    (∀ f d, scan (f + 1) .value (d + 1) (91 :: (e ++ t)) = scan f .elements d (e ++ t)) ∧
      unmarshalArray (91 :: (e ++ t)) = elementsFrom (e ++ t).length (e ++ t) := by
  have hskip := h.skipSpace t
  obtain ⟨c, e', rfl, -, hc⟩ := h.head
  rw [List.cons_append] at hskip ⊢
  constructor
  · intro f d
    simp [scan, hskip, hc]
  · simp [unmarshalArray, hskip, hc]

theorem elementsFrom_behind (h : ∀ x ∈ e :: es, IsValue x) {f : ℕ} (hf : es.length < f) :
    elementsFrom f (e ++ behind es) = some (e :: es) := by
  induction es generalizing e f with
  | nil =>
    obtain ⟨f, rfl⟩ : ∃ n, f = n + 1 := ⟨f - 1, by omega⟩
    rw [elementsFrom, (h e (by simp)).scanValue (behind_stops []), Option.bind_some,
      List.length_append, Nat.add_sub_cancel, List.take_left]
    rfl
  | cons x es ih =>
    obtain ⟨f, rfl⟩ : ∃ n, f = n + 1 := ⟨f - 1, by omega⟩
    have hx := ih (fun y hy => h y (List.mem_cons_of_mem _ hy)) (Nat.lt_of_succ_lt_succ hf)
    rw [← (h x (by simp)).skipSpace] at hx
    rw [elementsFrom, (h e (by simp)).scanValue (behind_stops _), Option.bind_some,
      List.length_append, Nat.add_sub_cancel, List.take_left, skipSpace_behind, behind_cons]
    exact congrArg (Option.map (e :: ·)) hx

theorem scan_behind (h : ∀ x ∈ e :: es, IsValue x) {f : ℕ}
    (hf : 2 * (e ++ behind es).length ≤ f) :
    scan f .elements maxNestingDepth (e ++ behind es) = some [] := by
  induction es generalizing e f with
  | nil =>
    rw [List.length_append] at hf
    obtain ⟨f, rfl⟩ : ∃ n, f = n + 1 := ⟨f - 1, by simp [behind] at hf; omega⟩
    rw [scan, ((h e (by simp)).2 f (by simp [behind] at hf; omega)).stops _ (behind_stops _)]
    rfl
  | cons x es ih =>
    rw [behind_cons, List.length_append, List.length_cons] at hf
    obtain ⟨f, rfl⟩ : ∃ n, f = n + 1 := ⟨f - 1, by omega⟩
    rw [scan, ((h e (by simp)).2 f (by omega)).stops _ (behind_stops _), Option.map_some,
      skipSpace_behind, behind_cons]
    change scan f .elements maxNestingDepth (Json.skipSpace (x ++ behind es)) = some []
    rw [(h x (by simp)).skipSpace]
    exact ih (fun y hy => h y (List.mem_cons_of_mem _ hy)) (by omega)

end Array

end Json

section Response

variable {messages : List Message}

theorem processJSONAppend_elements {data : Bytes} {allowEmpty : Bool} {msgs : List Bytes}
    (h : processJSONAppend data allowEmpty = .ok msgs) : msgs = Json.elements data := by
  unfold processJSONAppend at h
  unfold Json.elements
  split at h
  · cases h
  · dsimp only at h ⊢
    split at h
    · rename_i harr
      rw [if_pos harr]
      split at h
      · cases h
      · rename_i hempty
        split at h <;> cases h
        rw [hempty]
        rfl
      · rename_i arr hget
        cases h
        rw [hget]
        rfl
    · rename_i hvalue
      cases h
      rw [if_neg hvalue]

theorem formatJSONResponse_cons (m : Message) (ms : List Message) :
    formatJSONResponse (m :: ms) = 91 :: (m.data ++ Json.behind (ms.map (·.data))) := by
  simp [formatJSONResponse, Json.behind, List.flatMap_map]

theorem formatJSONResponse_congr {messages' : List Message}
    (h : messages'.map (·.data) = messages.map (·.data)) :
    formatJSONResponse messages' = formatJSONResponse messages := by
  cases messages with
  | nil => cases List.map_eq_nil_iff.mp h; rfl
  | cons m ms =>
    cases messages' with
    | nil => cases h
    | cons m' ms' =>
      rw [List.map_cons, List.map_cons, List.cons.injEq] at h
      rw [formatJSONResponse_cons, formatJSONResponse_cons, h.1, h.2]

/-- A response is an array with the data of its messages as elements. -/
theorem formatJSONResponse_array (h : ∀ m ∈ messages, Json.IsValue m.data) :
    Json.WellFormed (formatJSONResponse messages) ∧
      Json.unmarshalArray (formatJSONResponse messages) = some (messages.map (·.data)) := by
  cases messages with
  | nil => exact ⟨⟨1, 1, rfl⟩, rfl⟩
  | cons m ms =>
    have hes : ∀ x ∈ m.data :: ms.map (·.data), Json.IsValue x := by
      simpa using h
    obtain ⟨hscan, hget⟩ := (h m List.mem_cons_self).opens (Json.behind (ms.map (·.data)))
    rw [formatJSONResponse_cons]
    refine ⟨⟨_, _, (hscan _ _).trans (Json.scan_behind hes le_rfl)⟩, ?_⟩
    rw [hget, Json.elementsFrom_behind hes, List.map_cons]
    simp only [Json.behind, List.length_append, List.length_singleton]
    have hcommas : ∀ es : List Bytes, es.length ≤ (es.flatMap (44 :: ·)).length := by
      intro es
      induction es with
      | nil => rfl
      | cons e es ih => simp; omega
    exact Nat.lt_of_lt_of_le (Nat.lt_succ_of_le (hcommas _)) (Nat.le_add_left _ _)

end Response

namespace Handler

open CatchupResponseWriter

namespace CatchupResponseWriter

variable {w : CatchupResponseWriter}

theorem writePages_append (pages : List (List Message)) :
    (pages.foldl writePage w).close = (w.writePage pages.flatten).close := by
  induction pages generalizing w with
  | nil =>
    rw [List.foldl_nil, List.flatten_nil, close, close, writePage, List.foldl_nil,
      start_of_started w.start_started]
  | cons page pages ih => rw [List.foldl_cons, ih, List.flatten_cons, writePage_append]

/-- A JSON response without envelopes. -/
structure Bare (w : CatchupResponseWriter) : Prop where
  json : w.json = true
  enveloped : w.enveloped = false

theorem Bare.write (h : w.Bare) (p : Bytes) : (w.write p).Bare := by
  unfold CatchupResponseWriter.write
  split
  · exact h
  · exact ⟨h.json, h.enveloped⟩

theorem Bare.writeMessage (h : w.Bare) (m : Message) :
    (w.writeMessage m).Bare ∧ (w.writeMessage m).wrote = true ∧ (w.writeMessage m).writes.flatten =
      w.writes.flatten ++ if w.wrote then 44 :: m.data else m.data := by
  have hcomma : (if w.wrote then w.write (Bytes.ascii ",") else w).Bare := by
    split
    · exact h.write _
    · exact h
  have hdata := hcomma.write m.data
  have heq : w.writeMessage m =
      { (if w.wrote then w.write (Bytes.ascii ",") else w).write m.data with wrote := true } := by
    simp [CatchupResponseWriter.writeMessage, h.json, hcomma.enveloped, hdata.enveloped]
  rw [heq]
  refine ⟨⟨hdata.json, hdata.enveloped⟩, rfl, (flatten_write _ _).trans ?_⟩
  split
  · rw [flatten_write, List.append_assoc]
    rfl
  · rfl

theorem Bare.foldl (h : w.Bare) (hwrote : w.wrote = true) (messages : List Message) :
    (messages.foldl CatchupResponseWriter.writeMessage w).Bare ∧
      (messages.foldl CatchupResponseWriter.writeMessage w).writes.flatten =
        w.writes.flatten ++ messages.flatMap (44 :: ·.data) := by
  induction messages generalizing w with
  | nil => exact ⟨h, by simp⟩
  | cons m messages ih =>
    obtain ⟨hm, hwrote', hflat⟩ := h.writeMessage m
    obtain ⟨hbare, heq⟩ := ih hm hwrote'
    refine ⟨hbare, ?_⟩
    rw [List.foldl_cons, heq, hflat, if_pos hwrote, List.flatMap_cons, List.append_assoc]

theorem writePage_json (messages : List Message) :
    (writePage { json := true } messages).close.writes.flatten = formatJSONResponse messages := by
  have hstart : ({ json := true } : CatchupResponseWriter).start =
      { json := true, started := true, writes := [[91]] } := rfl
  cases messages with
  | nil => rfl
  | cons m ms =>
    obtain ⟨hm, hwrote, hflat⟩ := Bare.writeMessage
      (w := { json := true, started := true, writes := [[91]] }) ⟨rfl, rfl⟩ m
    obtain ⟨hbare, heq⟩ := hm.foldl hwrote ms
    rw [writePage, hstart, close, start_of_started (foldl_started (m :: ms) rfl), List.foldl_cons,
      if_pos hbare.json, flatten_write, heq, hflat]
    simp [formatJSONResponse]
    rfl

end CatchupResponseWriter

/-- The elements of the bodies of a JSON stream come back as the elements of one array, whatever
the pages of the response and the arrays of the bodies. -/
theorem json_elements_preserved {bodies : List Bytes} {parts : List (List Bytes)}
    {pages : List (List Message)}
    (haccepted : List.Forall₂ (fun body part => processJSONAppend body true = .ok part) bodies parts)
    (hmessages : pages.flatten.map (·.data) = parts.flatten) :
    let response (pages : List (List Message)) :=
      (pages.foldl writePage { json := true }).close.writes.flatten
    response pages = formatJSONResponse pages.flatten ∧ Json.WellFormed (response pages) ∧
      Json.unmarshalArray (response pages) = some (bodies.flatMap Json.elements) ∧
      ∀ pages' : List (List Message), pages'.flatten.map (·.data) = bodies.flatMap Json.elements →
        response pages' = response pages := by
  have hresponse : ∀ pages : List (List Message),
      (pages.foldl writePage { json := true }).close.writes.flatten =
        formatJSONResponse pages.flatten := by
    intro pages
    rw [writePages_append, writePage_json]
  have hparts : parts.flatten = bodies.flatMap Json.elements ∧
      ∀ e ∈ parts.flatten, Json.IsValue e := by
    clear hmessages
    induction haccepted with
    | nil => exact ⟨rfl, nofun⟩
    | cons h _ ih =>
      rw [List.flatten_cons, List.flatMap_cons, ih.1, ← processJSONAppend_elements h, ← ih.1]
      refine ⟨rfl, fun e he => ?_⟩
      rcases List.mem_append.mp he with he | he
      · exact processJSONAppend_values h e he
      · exact ih.2 e he
  have hvalues : ∀ m ∈ pages.flatten, Json.IsValue m.data := fun m hm =>
    hparts.2 m.data (hmessages ▸ List.mem_map_of_mem hm)
  simp only [hresponse]
  obtain ⟨hwell, hget⟩ := formatJSONResponse_array hvalues
  refine ⟨trivial, hwell, by rw [hget, hmessages, hparts.1], fun pages' hdata => ?_⟩
  exact formatJSONResponse_congr (by rw [hdata, hmessages, hparts.1])

theorem json_elements_preserved_batched :
    Json.unmarshalArray (([[⟨[49], ⟨0, 1⟩⟩], [⟨Bytes.ascii "[2]", ⟨0, 4⟩⟩, ⟨[51], ⟨0, 5⟩⟩]].foldl
      writePage { json := true }).close.writes.flatten) =
      some [[49], Bytes.ascii "[2]", [51]] :=
  (@json_elements_preserved [Bytes.ascii " [1, [2]]", Bytes.ascii "[]", [51, 10]] _ _
    (.cons rfl (.cons rfl (.cons rfl .nil))) rfl).2.2.1

end Handler

end Chronicle
