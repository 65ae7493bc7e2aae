import Chronicle.Store.Json

/-! # Framing of an append

The bytes of a request become one message, or the elements of a JSON body
become one message each. Messages are laid out end to end from the tail; the
offset of a message is the offset of its end.
-/

namespace Chronicle

def splitBody (contentType data : Bytes) (allowEmpty : Bool) : Except StoreError (List Bytes) :=
  if isJSONContentType contentType then processJSONAppend data allowEmpty else .ok [data]

def layOut : Offset → List Bytes → List Message
  | _, [] => []
  | base, d :: ds => ⟨d, base.add d.length⟩ :: layOut (base.add d.length) ds

def endOffset : Offset → List Bytes → Offset
  | base, [] => base
  | base, d :: ds => endOffset (base.add d.length) ds

@[simp] theorem layOut_nil (base : Offset) : layOut base [] = [] := rfl

@[simp] theorem endOffset_nil (base : Offset) : endOffset base [] = base := rfl

theorem layOut_append (base : Offset) (ds es : List Bytes) :
    layOut base (ds ++ es) = layOut base ds ++ layOut (endOffset base ds) es := by
  induction ds generalizing base with
  | nil => rfl
  | cons d ds ih => simp [layOut, endOffset, ih]

theorem endOffset_append (base : Offset) (ds es : List Bytes) :
    endOffset base (ds ++ es) = endOffset (endOffset base ds) es := by
  induction ds generalizing base with
  | nil => rfl
  | cons d ds ih => simp [endOffset, ih]

theorem splitBody_ne_nil {ct data : Bytes} {allowEmpty : Bool} {ds : List Bytes}
    (h : splitBody ct data allowEmpty = .ok ds) (hdata : data ≠ []) : ∀ d ∈ ds, d ≠ [] := by
  unfold splitBody at h
  split at h
  · exact processJSONAppend_ne_nil h
  · cases h
    simpa using hdata

theorem splitBody_nonempty {ct data : Bytes} {ds : List Bytes}
    (h : splitBody ct data false = .ok ds) : ds ≠ [] := by
  unfold splitBody at h
  split at h
  · exact processJSONAppend_nonempty h
  · cases h; simp

section Order

variable {base : Offset} {ds : List Bytes} {m : Message}

theorem le_endOffset (base : Offset) (ds : List Bytes) : base ≤ endOffset base ds := by
  induction ds generalizing base with
  | nil => exact le_rfl
  | cons d ds ih => exact (base.le_add _).trans (ih _)

theorem layOut_le (h : m ∈ layOut base ds) : m.offset ≤ endOffset base ds := by
  induction ds generalizing base with
  | nil => cases h
  | cons d ds ih =>
    rw [layOut, List.mem_cons] at h
    obtain rfl | h := h
    · exact le_endOffset _ _
    · exact ih h

theorem base_lt_layOut (hds : ∀ d ∈ ds, d ≠ []) (h : m ∈ layOut base ds) :
    base < m.offset := by
  induction ds generalizing base with
  | nil => cases h
  | cons d ds ih =>
    have hd : base < base.add d.length :=
      Offset.lt_add (List.length_pos_of_ne_nil (hds d List.mem_cons_self))
    rw [layOut, List.mem_cons] at h
    obtain rfl | h := h
    · exact hd
    · exact hd.trans (ih (fun e he => hds e (List.mem_cons_of_mem _ he)) h)

/-- Messages laid out end to end have increasing offsets. -/
theorem layOut_sorted (hds : ∀ d ∈ ds, d ≠ []) :
    (layOut base ds).Pairwise (·.offset < ·.offset) := by
  induction ds generalizing base with
  | nil => exact .nil
  | cons d ds ih =>
    have hds' : ∀ e ∈ ds, e ≠ [] := fun e he => hds e (List.mem_cons_of_mem _ he)
    exact List.pairwise_cons.mpr ⟨fun m hm => base_lt_layOut hds' hm, ih hds'⟩

theorem layOut_readSeq (h : m ∈ layOut base ds) :
    m.offset.readSeq = base.readSeq := by
  induction ds generalizing base with
  | nil => cases h
  | cons d ds ih =>
    rw [layOut, List.mem_cons] at h
    obtain rfl | h := h
    · rfl
    · rw [ih h]
      rfl

theorem endOffset_readSeq (base : Offset) (ds : List Bytes) :
    (endOffset base ds).readSeq = base.readSeq := by
  induction ds generalizing base with
  | nil => rfl
  | cons d ds ih => exact ih _

end Order

section Tiling

/-- Messages that fill an interval of offsets from end to end, none of them empty. -/
inductive Tiles : Offset → Offset → List Message → Prop
  | nil (o : Offset) : Tiles o o []
  | cons {lo hi : Offset} {m : Message} {ms : List Message}
      (hend : m.offset = lo.add m.data.length) (hne : m.data ≠ []) (hrest : Tiles m.offset hi ms) :
      Tiles lo hi (m :: ms)

theorem tiles_layOut {base : Offset} {ds : List Bytes} (hds : ∀ d ∈ ds, d ≠ []) :
    Tiles base (endOffset base ds) (layOut base ds) := by
  induction ds generalizing base with
  | nil => exact .nil base
  | cons d ds ih =>
    exact .cons rfl (hds d List.mem_cons_self) (ih fun e he => hds e (List.mem_cons_of_mem _ he))

variable {lo mid hi : Offset} {ms ms' : List Message}

theorem Tiles.append (h : Tiles lo mid ms) (h' : Tiles mid hi ms') : Tiles lo hi (ms ++ ms') := by
  induction h with
  | nil => exact h'
  | cons hend hne _ ih => exact .cons hend hne (ih h')

theorem Tiles.lt (h : Tiles lo hi ms) : ∀ m ∈ ms, lo < m.offset := by
  induction h with
  | nil => simp
  | @cons lo hi m ms hend hne hrest ih =>
    have hlt : lo < m.offset := by
      rw [hend]
      exact Offset.lt_add (List.length_pos_iff.mpr hne)
    intro m' hm'
    rcases List.mem_cons.mp hm' with rfl | hm'
    · exact hlt
    · exact hlt.trans (ih m' hm')

theorem Tiles.sorted (h : Tiles lo hi ms) : ms.Pairwise (·.offset < ·.offset) := by
  induction h with
  | nil => exact .nil
  | cons _ _ hrest ih => exact List.pairwise_cons.mpr ⟨hrest.lt, ih⟩

theorem Tiles.filter_eq_nil (h : Tiles lo hi ms) {o : Offset} (ho : o ≤ lo) :
    (ms.filter fun m => m.offset ≤ o) = [] := by
  rw [List.filter_eq_nil_iff]
  intro m hm
  simpa using ho.trans_lt (h.lt m hm)

/-- Up to the end of one of them, messages fill the interval up to that end. -/
theorem Tiles.upTo (h : Tiles lo hi ms) {o : Offset} (ho : o = lo ∨ ∃ m ∈ ms, m.offset = o) :
    Tiles lo o (ms.filter fun m => m.offset ≤ o) := by
  induction h with
  | nil lo =>
    rcases ho with rfl | ⟨m, hm, -⟩
    · exact .nil _
    · cases hm
  | @cons lo hi m ms hend hne hrest ih =>
    have hall := Tiles.cons hend hne hrest
    rcases ho with rfl | ⟨m', hm', rfl⟩
    · rw [hall.filter_eq_nil le_rfl]
      exact .nil _
    · rcases List.mem_cons.mp hm' with rfl | hm'
      · rw [List.filter_cons_of_pos (by simp), hrest.filter_eq_nil le_rfl]
        exact .cons hend hne (.nil _)
      · have hlt := hrest.lt m' hm'
        rw [List.filter_cons_of_pos (by simpa using hlt.le)]
        exact .cons hend hne (ih (.inr ⟨m', hm', rfl⟩))

/-- The last message ends where the interval ends. -/
theorem Tiles.last (h : Tiles lo hi ms) {m : Message}
    (hm : ms.getLast? = some m) : m.offset = hi := by
  induction h with
  | nil => simp at hm
  | @cons lo hi m' ms hend hne hrest ih =>
    cases hrest with
    | nil =>
      simp only [List.getLast?_singleton, Option.some.injEq] at hm
      rw [hm]
    | cons => exact ih (by simpa using hm)

/-- The messages and the tail that bodies leave when they are added one after the other. -/
def serial (base : Offset) (batches : List (List Bytes)) : List Message × Offset :=
  batches.foldl (fun (ms, tail) ds => (ms ++ layOut tail ds, endOffset tail ds)) ([], base)

theorem serial_eq (base : Offset) (batches : List (List Bytes)) :
    serial base batches = (layOut base batches.flatten, endOffset base batches.flatten) := by
  induction batches using List.reverseRecOn with
  | nil => rfl
  | append_singleton batches ds ih =>
    rw [serial, List.foldl_append, ← serial, ih, List.flatten_append, List.flatten_singleton,
      layOut_append, endOffset_append]
    rfl

end Tiling

end Chronicle
