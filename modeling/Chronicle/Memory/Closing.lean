import Chronicle.Memory.Step

/-! # Closed streams

A step writes a stream that it does not create in a few ways only. From these it
is read off that a closed stream stays closed and does not grow, as long as it is
not created anew.
-/

namespace Chronicle

namespace MemoryStream

/-- The writes of calls that neither create nor delete: a stream without references is never
marked as deleted, and no count changes. -/
inductive Edit : MemoryStream → MemoryStream → Prop
  | touch (st : MemoryStream) (now : Time) : Edit st (st.touch now)
  | softDelete (st : MemoryStream) (href : 0 < st.metadata.refCount) :
      Edit st { st with metadata := { st.metadata with softDeleted := true } }
  | recordSeal (st : MemoryStream) (authority : Bytes) (generation : ℤ) (wakeID : Bytes) :
      Edit st (st.recordSeal authority generation wakeID).1
  | close (st : MemoryStream) : Edit st st.closeStream.1
  | closeProducer (st : MemoryStream) (stampedAt : Time) (opts : CloseProducerOptions) :
      Edit st (st.closeStreamWithProducer stampedAt opts).1
  | append (st : MemoryStream) (touchedAt stampedAt : Time) (data : Bytes)
      (opts : AppendOptions) : Edit st (st.append touchedAt stampedAt data opts).1

/-- The ways in which a call writes a stream that is there: an edit, or a count or a mark that a
deletion or a creation leaves. -/
inductive Write : MemoryStream → MemoryStream → Prop
  | edit {st st' : MemoryStream} (h : Edit st st') : Write st st'
  | softDelete (st : MemoryStream) :
      Write st { st with metadata := { st.metadata with softDeleted := true } }
  | recount (st : MemoryStream) (n : Int32) : Write st (MemoryStore.setRefCount st n)

abbrev Writes : MemoryStream → MemoryStream → Prop := Relation.ReflTransGen Write

end MemoryStream

/-- The stream under a path, if there still is one, was there before and was written at most. -/
abbrev WrittenAt : Streams → Streams → Path → Prop := HeldAt MemoryStream.Writes

/-- The stream under a path was there before and was edited at most. -/
abbrev EditedAt : Streams → Streams → Path → Prop :=
  HeldAt (Relation.ReflTransGen MemoryStream.Edit)

theorem lasting_writes : Lasting MemoryStream.Writes where
  refl _ := .refl
  trans := .trans
  recount st n := .single (.recount st n)
  softDelete st := .single (.softDelete st)

theorem EditedAt.refl (s : Streams) (p : Path) : EditedAt s s p := HeldAt.refl (fun _ => .refl) s p

theorem editedAt_insert {s : Streams} {q : Path} {st st' : MemoryStream}
    (hq : s.lookup q = some st) (h : st.Edit st') (p : Path) : EditedAt s (s.insert q st') p :=
  heldAt_insert (fun _ => .refl) hq (.single h) p

theorem EditedAt.writtenAt {s s' : Streams} {p : Path} (h : EditedAt s s' p) :
    WrittenAt s s' p := by
  intro st' hst'
  obtain ⟨st, hst, hedits⟩ := h st' hst'
  exact ⟨st, hst, Relation.ReflTransGen.mono (fun _ _ => .edit) _ _ hedits⟩

namespace MemoryStore

variable {s s' : MemoryStore} {env : Env} {path : Path} {e : Event} {p : Path}

section Calls

theorem Looked.edited (h : Looked path s s') (p : Path) : EditedAt s.streams s'.streams p := by
  rcases h with rfl | ⟨st, st', hst, hlook, rfl⟩
  · exact .refl _ _
  refine heldAt_insert (fun _ => .refl) hst (Relation.ReflTransGen.mono ?_ _ _ hlook) p
  intro st st' h
  cases h with
  | touch now => exact .touch st now
  | softDelete href => exact .softDelete st href

theorem CloseOutcome.edited {fence : Option AppendFence} {err : Option StoreError}
    (h : CloseOutcome s env path fence s' err) (p : Path) : EditedAt s.streams s'.streams p := by
  rcases h with ⟨hs, -⟩ | ⟨st, hst, -, -, hs⟩
  · exact hs ▸ .refl _ _
  · exact hs ▸ editedAt_insert hst (.close st) p

theorem Records.edited {t t' : Streams} {authority wake : Bytes} {g : ℤ}
    (h : Records t path authority g wake t') (p : Path) : EditedAt t t' p := by
  obtain ⟨st, hst, -, -, rfl⟩ := h
  exact editedAt_insert hst (.recordSeal st _ _ _) p

end Calls

/-- A step that neither creates nor deletes only edits the streams that are there. -/
theorem step_edited (h : Step s e s') (hcreate : ∀ path opts, e.call ≠ .create path opts)
    (hdelete : ∀ path, e.call ≠ .delete path) (p : Path) : EditedAt s.streams s'.streams p := by
  cases h.ran with
  | create => exact absurd rfl (hcreate _ _)
  | get | has => exact .refl _ _
  | delete => exact absurd rfl (hdelete _)
  | closeStream hr => exact (closeStream_outcome hr).2.edited p
  | closeStreamFenced hr => exact (closeStreamFenced_outcome hr).2.edited p
  | @closeStreamWithProducer env _ opts _ _ _ hr =>
    rcases (closeStreamWithProducer_outcome hr).2 with ⟨hs, -⟩ | ⟨st, _, _, hst, -, -, hclose, -, hs⟩
    · exact hs ▸ .refl _ _
    · have hedit := MemoryStream.Edit.closeProducer st (env.clock 2) opts
      rw [hclose] at hedit
      exact hs ▸ editedAt_insert hst hedit p
  | @append env _ data opts _ _ _ hr =>
    rcases (append_outcome hr).2 with ⟨hs, -⟩ | ⟨st, _, hst, -, -, -, happ, hs⟩
    · exact hs ▸ .refl _ _
    · have hedit := MemoryStream.Edit.append st (env.clock 2) (env.clock 3) data opts
      rw [happ] at hedit
      exact hs ▸ editedAt_insert hst hedit p
  | readPage hr => exact (readPage_looked hr).edited p
  | read hr => exact (readPages_looked hr).edited p
  | grantAppendFence hr =>
    rcases grantAppendFence_streams hr with hs | ⟨g, wake, hs⟩
    · exact hs ▸ .refl _ _
    · exact hs.edited p
  | revokeAppendFence hr => exact revokeAppendFence_streams hr ▸ .refl _ _
  | sealAppendFence hr =>
    rcases sealAppendFence_streams hr with hs | hs
    · exact hs ▸ .refl _ _
    · exact hs.edited p

theorem step_written (h : Step s e s') (hp : e.created ≠ some p) :
    WrittenAt s.streams s'.streams p := by
  cases h.ran with
  | create hr => exact create_heldAt lasting_writes hr hp
  | delete => exact delete_heldAt lasting_writes rfl p
  | _ => exact (step_edited h nofun nofun p).writtenAt

end MemoryStore

variable {st st' : MemoryStream}

section Lineage

variable {p : Path}

theorem incarnation_congr (h : st'.metadata.fixed = st.metadata.fixed) :
    memoryReadIncarnation st'.metadata = memoryReadIncarnation st.metadata := by
  have hinc : st'.metadata.incarnation = st.metadata.incarnation :=
    (congrArg StreamMetadata.incarnation h :)
  have htime : st'.metadata.createdAt = st.metadata.createdAt :=
    (congrArg StreamMetadata.createdAt h :)
  rw [memoryReadIncarnation, memoryReadIncarnation, hinc, htime]

theorem MemoryStream.Edit.incarnation (h : st.Edit st') :
    memoryReadIncarnation st'.metadata = memoryReadIncarnation st.metadata := by
  cases h with
  | touch now => rfl
  | softDelete => rfl
  | recordSeal authority generation wakeID => rfl
  | close => rfl
  | closeProducer stampedAt opts =>
    generalize hresult : st.closeStreamWithProducer stampedAt opts = result
    obtain ⟨hsame, -⟩ | ⟨hu, -⟩ := st.closeStreamWithProducer_cases hresult
    · rw [hsame]
    · exact incarnation_congr hu.fixed
  | append touchedAt stampedAt data opts =>
    generalize hresult : st.append touchedAt stampedAt data opts = result
    obtain ⟨hsame, -⟩ | ⟨ds, -, hu, -⟩ := st.append_cases hresult
    · rw [hsame]
      rfl
    · exact incarnation_congr hu.fixed

theorem MemoryStream.Writes.incarnation (h : st.Writes st') :
    memoryReadIncarnation st'.metadata = memoryReadIncarnation st.metadata := by
  induction h with
  | refl => rfl
  | tail _ hw ih =>
    rw [← ih]
    cases hw with
    | edit h => exact h.incarnation
    | softDelete => rfl
    | recount n => rfl

def Event.born (p : Path) (e : Event) : Option Bytes :=
  match e.call, e.reply with
  | .create path _, .create (.ok (md, true)) =>
    if path = p then some (memoryReadIncarnation md) else none
  | _, _ => none

theorem created_of_born {e : Event} {i : Bytes} (h : e.born p = some i) : e.created = some p := by
  rcases e with ⟨env, call, reply⟩
  unfold Event.born at h
  split at h
  · rename_i path opts md hcall hreply
    rw [Option.ite_none_right_eq_some] at h
    subst hcall hreply
    exact congrArg some h.1
  · cases h

namespace MemoryStore

variable {s s' : MemoryStore} {e : Event} {history : List Event}

theorem step_born (h : Step s e s') (hp : e.created = some p)
    (hst' : s'.streams.lookup p = some st') :
    e.born p = some (memoryReadIncarnation st'.metadata) := by
  rcases e with ⟨env, call, reply⟩
  unfold Event.created at hp
  split at hp
  · rename_i path opts md hcall hreply
    cases hp
    subst hcall hreply
    rcases h.ran with ⟨hr⟩
    obtain ⟨-, hno, -⟩ | ⟨-, hcreate⟩ := create_cases hr
    · exact absurd rfl (hno md)
    cases createAbsent_creates hcreate
    all_goals
      rw [set, Finmap.lookup_insert] at hst'
      cases hst'
      exact if_pos rfl
  · cases hp

/-- A stream at the end of a run was there at its start and has only been written,
or a creation during the run gave it its incarnation. -/
theorem run_lineage (h : Trace.Run Step s history s') (hst' : s'.streams.lookup p = some st') :
    ((∀ e ∈ history, e.created ≠ some p) ∧ ∃ st, s.streams.lookup p = some st ∧ st.Writes st') ∨
    ∃ e ∈ history, e.born p = some (memoryReadIncarnation st'.metadata) := by
  induction h generalizing st' with
  | nil => exact .inl ⟨by simp, st', hst', .refl⟩
  | @snoc history s₁ s₂ e _ hstep ih =>
    by_cases hnew : e.created = some p
    · exact .inr ⟨e, by simp, step_born hstep hnew hst'⟩
    obtain ⟨st₁, hst₁, hw⟩ := step_written hstep hnew st' hst'
    obtain ⟨hold, st, hst, hw₁⟩ | ⟨e₁, hmem, hborn⟩ := ih hst₁
    · refine .inl ⟨?_, st, hst, hw₁.trans hw⟩
      intro e₁ he₁
      rw [List.mem_append, List.mem_singleton] at he₁
      obtain he₁ | rfl := he₁
      · exact hold e₁ he₁
      · exact hnew
    · refine .inr ⟨e₁, List.mem_append_left _ hmem, ?_⟩
      rw [hborn, hw.incarnation]

/-- The stream at the end of a run in which no creation repeats its incarnation. -/
theorem run_same (h : Trace.Run Step s history s') (hst' : s'.streams.lookup p = some st')
    (hfresh : ∀ e ∈ history, e.born p ≠ some (memoryReadIncarnation st'.metadata)) :
    (∀ e ∈ history, e.created ≠ some p) ∧ ∃ st, s.streams.lookup p = some st ∧ st.Writes st' := by
  obtain hold | ⟨e, hmem, hborn⟩ := run_lineage h hst'
  · exact hold
  · exact absurd hborn (hfresh e hmem)

end MemoryStore

end Lineage

section Closed

def StaysClosed (st st' : MemoryStream) : Prop :=
  st.metadata.closed = true →
    st'.metadata.closed = true ∧ st'.metadata.currentOffset = st.metadata.currentOffset

theorem MemoryStream.Edit.staysClosed (h : st.Edit st') : StaysClosed st st' := by
  intro hclosed
  cases h with
  | touch now => exact ⟨hclosed, rfl⟩
  | softDelete => exact ⟨hclosed, rfl⟩
  | recordSeal authority generation wakeID => exact ⟨hclosed, rfl⟩
  | close => exact ⟨rfl, rfl⟩
  | closeProducer stampedAt opts =>
    unfold MemoryStream.closeStreamWithProducer
    rw [if_pos hclosed]
    split <;> exact ⟨hclosed, rfl⟩
  | append touchedAt stampedAt data opts =>
    unfold MemoryStream.append
    rw [if_pos (show (st.touch touchedAt).metadata.closed = true from hclosed)]
    split
    · split <;> exact ⟨hclosed, rfl⟩
    · exact ⟨hclosed, rfl⟩

/-- A closed stream stays closed and does not grow. -/
theorem MemoryStream.Writes.staysClosed (h : st.Writes st') : StaysClosed st st' := by
  intro hclosed
  induction h with
  | refl => exact ⟨hclosed, rfl⟩
  | tail _ hw ih =>
    obtain ⟨hmid, htail⟩ := ih
    cases hw with
    | edit h =>
      obtain ⟨hend, htail'⟩ := h.staysClosed hmid
      exact ⟨hend, htail'.trans htail⟩
    | softDelete => exact ⟨hmid, htail⟩
    | recount n => exact ⟨hmid, htail⟩

/-- A closed stream is final: in every run that does not create it anew, it stays closed, and its
tail stays where it is. -/
theorem MemoryStore.closed_final {s s' : MemoryStore} {history : List Event} {p : Path}
    (h : Trace.Run Step s history s') (hst : s.streams.lookup p = some st)
    (hclosed : st.metadata.closed = true) (hsame : ∀ e ∈ history, e.created ≠ some p)
    (hst' : s'.streams.lookup p = some st') : st'.metadata.closed = true ∧
      st'.metadata.currentOffset = st.metadata.currentOffset := by
  obtain ⟨-, st₀, hst₀, hw⟩ | ⟨e, hmem, hborn⟩ := run_lineage h hst'
  · cases hst.symm.trans hst₀
    exact hw.staysClosed hclosed
  · exact absurd (created_of_born hborn) (hsame e hmem)

theorem MemoryStore.closed_final_append :
    let st : MemoryStream := { metadata :=
      { path := [97], incarnation := [1], contentType := [], currentOffset := ⟨0, 2⟩
        createdAt := 0, lastAccessedAt := 0, closed := true } }
    let s : MemoryStore := { empty with streams := .singleton [97] st }
    ∃ st', (s.append (.frozen 0) [97] [1] {}).1.streams.lookup [97] = some st' ∧
      st'.metadata.closed = true ∧ st'.metadata.currentOffset = ⟨0, 2⟩ := by
  intro st s
  have hstep : s.exec (.frozen 0) (.append [97] [1] {}) = some (_, _) := rfl
  have hrun := Trace.Run.nil.snoc (show Step s ⟨.frozen 0, .append [97] [1] {}, _⟩ _ from hstep)
  have hst : s.streams.lookup [97] = some st := rfl
  exact ⟨_, rfl, closed_final hrun hst rfl (by simp [Event.created]) rfl⟩

end Closed

end Chronicle
