import Chronicle.Memory.Step

/-! # Steps on the write fence

What a step can do to the fence records of a stream and to the claim markers. A
step records a fenced write, records a seal, or leaves the records alone; it
keeps a marker, reaps it, revokes it or installs one.
-/

namespace Chronicle

namespace MemoryStream

variable {st st' st'' : MemoryStream} {err : Option StoreError}

/-- A change of a stream that leaves its fence records alone. -/
structure Quiet (st st' : MemoryStream) : Prop where
  writeFence : st'.metadata.writeFence = st.metadata.writeFence
  seals : st'.seals = st.seals
  bound : st'.bound = st.bound
  lastFencedOff : st'.lastFencedOff = st.lastFencedOff
  tail : st.metadata.currentOffset ≤ st'.metadata.currentOffset

theorem Quiet.refl (st : MemoryStream) : st.Quiet st := ⟨rfl, rfl, rfl, rfl, le_rfl⟩

theorem Quiet.trans (h : st.Quiet st') (h' : st'.Quiet st'') : st.Quiet st'' :=
  ⟨h'.writeFence.trans h.writeFence, h'.seals.trans h.seals, h'.bound.trans h.bound,
    h'.lastFencedOff.trans h.lastFencedOff, h.tail.trans h'.tail⟩

structure FencedWrite (st : MemoryStream) (f : AppendFence) (pid : Bytes)
    (st' : MemoryStream) : Prop where
  fenced : st.metadata.writeFence = true
  writeFence : st'.metadata.writeFence = true
  seals : st'.seals = st.seals
  bound : st'.bound = Function.update st.bound pid f.generation
  lastFencedOff : st'.lastFencedOff = some st'.metadata.currentOffset
  tail : st.metadata.currentOffset ≤ st'.metadata.currentOffset

theorem recordSeal_seals (st : MemoryStream) (authority a : Bytes) (g : ℤ) (wake : Bytes) :
    (st.recordSeal authority g wake).1.seals a =
      if a = authority then some ⟨g, wake, st.lastFencedOff.getD st.metadata.currentOffset⟩
      else st.seals a := by
  change Function.update st.seals authority _ a = _
  rw [Function.update_apply]

theorem bind_of_unfenced {fence : Option AppendFence}
    (h : fence = none ∨ st.metadata.writeFence = false) (pid : Bytes) (off : Offset) :
    st.bind fence pid off = st := by
  unfold bind
  rcases h with rfl | h
  · rfl
  · split <;> simp [h]

theorem bind_of_fenced (h : st.metadata.writeFence = true) (f : AppendFence) (pid : Bytes)
    (off : Offset) :
    st.bind (some f) pid off =
      { st with lastFencedOff := some off, bound := Function.update st.bound pid f.generation } :=
  if_pos h

theorem append_fence {touchedAt stampedAt : Time} {data : Bytes} {opts : AppendOptions}
    {r : AppendResult} (h : st.append touchedAt stampedAt data opts = (st', r, err)) :
    (st.Quiet st' ∧ (err = none → r.producerResult ≠ .duplicate →
      opts.fence = none ∨ st.metadata.writeFence = false)) ∨
    ∃ f, opts.fence = some f ∧ st.FencedWrite f opts.producerId st' ∧
      r.offset = st'.metadata.currentOffset := by
  rcases append_ladder h with ⟨rfl, -, hdup⟩ | ⟨ds, adm, -, -, rfl, rfl, -⟩
  · exact .inl ⟨⟨rfl, rfl, rfl, rfl, le_rfl⟩, fun herr hne => absurd (hdup herr) hne⟩
  have htail := le_endOffset st.metadata.currentOffset ds
  by_cases hw : opts.fence = none ∨ st.metadata.writeFence = false
  · unfold commit
    rw [bind_of_unfenced (by exact hw)]
    exact .inl ⟨⟨rfl, rfl, rfl, rfl, htail⟩, fun _ _ => hw⟩
  · rw [not_or, Bool.not_eq_false] at hw
    rcases Option.ne_none_iff_exists'.mp hw.1 with ⟨f, hf⟩
    unfold commit
    rw [hf, bind_of_fenced (by exact hw.2)]
    exact .inr ⟨f, rfl, ⟨hw.2, hw.2, rfl, rfl, rfl, htail⟩, rfl⟩

theorem closeStreamWithProducer_fence {stampedAt : Time} {opts : CloseProducerOptions}
    {r : CloseProducerResult} (h : st.closeStreamWithProducer stampedAt opts = (st', r, err)) :
    (st.Quiet st' ∧ (r.producerResult = .accepted →
      opts.fence = none ∨ st.metadata.writeFence = false)) ∨
    ∃ f, opts.fence = some f ∧ st.FencedWrite f opts.producerId st' := by
  rcases closeStreamWithProducer_ladder h with ⟨rfl, hr⟩ | ⟨ps, -, -, rfl, -, -⟩
  · exact .inl ⟨.refl _, fun hacc => absurd hacc hr⟩
  by_cases hw : opts.fence = none ∨ st.metadata.writeFence = false
  · rw [bind_of_unfenced (by exact hw)]
    exact .inl ⟨⟨rfl, rfl, rfl, rfl, le_rfl⟩, fun _ => hw⟩
  · rw [not_or, Bool.not_eq_false] at hw
    rcases Option.ne_none_iff_exists'.mp hw.1 with ⟨f, hf⟩
    rw [hf, bind_of_fenced (by exact hw.2)]
    exact .inr ⟨f, rfl, ⟨hw.2, hw.2, rfl, rfl, rfl, le_rfl⟩⟩

end MemoryStream

theorem lasting_quiet : Lasting MemoryStream.Quiet where
  refl := .refl
  trans := .trans
  recount _ _ := ⟨rfl, rfl, rfl, rfl, le_rfl⟩
  softDelete _ := ⟨rfl, rfl, rfl, rfl, le_rfl⟩

/-- The stream under a path, if there still is one, was there before with the same records. -/
abbrev QuietAt : Streams → Streams → Path → Prop := HeldAt MemoryStream.Quiet

theorem QuietAt.refl (s : Streams) (p : Path) : QuietAt s s p := HeldAt.refl .refl s p

namespace MemoryStore

variable {s s' : MemoryStore} {env : Env} {path : Path} {err : Option StoreError}

theorem Looked.quiet (h : Looked path s s') (p : Path) : QuietAt s.streams s'.streams p := by
  rcases h with rfl | ⟨st, st', hst, hlook, rfl⟩
  · exact .refl _ _
  have hquiet : st.Quiet st' := by
    induction hlook with
    | refl => exact .refl st
    | tail _ hlook ih => exact ih.trans (by cases hlook <;> exact ⟨rfl, rfl, rfl, rfl, le_rfl⟩)
  exact heldAt_insert .refl hst hquiet p

theorem CloseOutcome.quiet {fence : Option AppendFence} (h : CloseOutcome s env path fence s' err)
    (p : Path) : QuietAt s.streams s'.streams p := by
  rcases h with ⟨hs, -⟩ | ⟨st, hst, -, -, hs⟩
  · exact hs ▸ .refl _ _
  · exact hs ▸ heldAt_insert .refl hst ⟨rfl, rfl, rfl, rfl, le_rfl⟩ p

theorem create_markers {opts : CreateOptions} {r : CreateResult}
    (h : s.create env path opts = some (s', r)) : s'.markers = s.markers := by
  rcases create_cases h with ⟨rfl, -⟩ | ⟨-, h⟩
  · rfl
  cases createAbsent_creates h with
  | failed => rfl
  | plain => rfl
  | fork _ hsource =>
    rw [addRef, hsource]
    rfl

theorem delete_markers (s : MemoryStore) (path : Path) :
    (s.delete path).1.markers = s.markers := by
  unfold delete
  split
  · rfl
  split
  · rfl
  split <;> rfl

section Writes

/-- The outcomes of an append for the fence records. -/
theorem append_records {data : Bytes} {opts : AppendOptions} {r : AppendResult}
    (h : s.append env path data opts = (s', r, err)) :
    ((∀ p, QuietAt s.streams s'.streams p) ∧
      (err = none → r.producerResult ≠ .duplicate → ∀ st, s.streams.lookup path = some st →
        opts.fence = none ∨ st.metadata.writeFence = false)) ∨
    ∃ st f st', s.streams.lookup path = some st ∧ opts.fence = some f ∧ f.complete = true ∧
      st.FencedWrite f opts.producerId st' ∧ s'.streams = s.streams.insert path st' ∧
      r.offset = st'.metadata.currentOffset := by
  rcases (append_outcome h).2 with ⟨hs, -, herr⟩ | ⟨st, st', hst, hcomplete, -, -, happ, hs⟩
  · refine .inl ⟨fun p => hs ▸ .refl _ p, fun hnone => ?_⟩
    rw [hnone] at herr
    cases herr
  rcases MemoryStream.append_fence happ with ⟨hquiet, hclass⟩ | ⟨f, hf, hwrite, hoff⟩
  · refine .inl ⟨hs ▸ heldAt_insert .refl hst hquiet, fun herr hdup st₀ hst₀ => ?_⟩
    rw [hst, Option.some.injEq] at hst₀
    exact hst₀ ▸ hclass herr hdup
  · exact .inr ⟨st, f, st', hst, hf, by simpa [hf] using hcomplete, hwrite, hs, hoff⟩

/-- The outcomes of a close with producer headers for the fence records. -/
theorem closeStreamWithProducer_records {opts : CloseProducerOptions}
    {res : Option CloseProducerResult}
    (h : s.closeStreamWithProducer env path opts = (s', res, err)) :
    ((∀ p, QuietAt s.streams s'.streams p) ∧
      ((res.any fun r => r.producerResult = .accepted) → ∀ st, s.streams.lookup path = some st →
        opts.fence = none ∨ st.metadata.writeFence = false)) ∨
    ∃ st f st', s.streams.lookup path = some st ∧ opts.fence = some f ∧ f.complete = true ∧
      st.FencedWrite f opts.producerId st' ∧ s'.streams = s.streams.insert path st' := by
  rcases (closeStreamWithProducer_outcome h).2 with
    ⟨hs, hr, -⟩ | ⟨st, st', r, hst, hcomplete, -, hclose, rfl, hs⟩
  · refine .inl ⟨fun p => hs ▸ .refl _ p, fun hacc => ?_⟩
    cases res with
    | none => cases hacc
    | some r => simp [hr r rfl] at hacc
  rcases MemoryStream.closeStreamWithProducer_fence hclose with ⟨hquiet, hclass⟩ | ⟨f, hf, hwrite⟩
  · refine .inl ⟨hs ▸ heldAt_insert .refl hst hquiet, fun hacc st₀ hst₀ => ?_⟩
    rw [hst, Option.some.injEq] at hst₀
    exact hst₀ ▸ hclass (by simpa using hacc)
  · exact .inr ⟨st, f, st', hst, hf, by simpa [hf] using hcomplete, hwrite, hs⟩

end Writes

section Markers

/-- What a call can do to a marker: keep or reap it, or put another in its place. -/
inductive MarkerStep (s s' : MemoryStore) (p : Path) (authority : Bytes) (wall : Time) : Prop
  | kept (h : KeptAt s s' p authority wall)
  | put {m'} (hm' : s'.markers p authority = some m')
      (h : Succeeds (s.marker p authority wall).2 m'.marker)

variable {p : Path} {a : Bytes} {wall : Time}

theorem markerStep_put {s₁ : MemoryStore} {path : Path} {authority : Bytes} {m' : MemoryMarker}
    (hs₁ : s₁.markers = (s.marker path authority wall).1.markers)
    (h : Succeeds (s.marker path authority wall).2 m'.marker) (p : Path) (a : Bytes) :
    MarkerStep s (s₁.putMarker path authority (some m')) p a wall := by
  by_cases heq : p = path ∧ a = authority
  · rcases heq with ⟨rfl, rfl⟩
    exact .put (by rw [putMarker_markers, if_pos ⟨rfl, rfl⟩]) h
  · refine .kept ?_
    have hkept : KeptAt s (s.marker path authority wall).1 p a wall := kept_marker p a
    unfold KeptAt at hkept ⊢
    rwa [putMarker_markers, if_neg heq, hs₁]

theorem tombstone_markers (s : MemoryStore) (env : Env) (path : Path) (authority : Bytes)
    (f : AppendFence) (p : Path) (a : Bytes) :
    MarkerStep s (s.tombstone env path authority f).1 p a (env.wall 0) := by
  unfold tombstone
  dsimp only
  split
  · exact .kept (kept_marker p a)
  · rename_i hstale
    refine markerStep_put rfl (.revoked rfl ?_) p a
    intro m hm
    simp only [hm, Option.any_some, Bool.or_eq_true, Bool.and_eq_true, decide_eq_true_eq,
      not_or, not_and, not_lt, ne_eq, not_not] at hstale
    rcases hstale.1.lt_or_eq with hlt | heq
    · exact .inl hlt
    · exact .inr ⟨heq, hstale.2 heq.symm⟩

theorem MarkerStep.congr {s₁ : MemoryStore} (h : MarkerStep s s' p a wall)
    (hs₁ : s₁.markers = s'.markers) : MarkerStep s s₁ p a wall := by
  cases h with
  | kept hkept =>
    exact .kept (by unfold KeptAt; rwa [hs₁])
  | put hm' hsucc => exact .put (by rw [hs₁, hm']) hsucc

end Markers

section Steps

variable {e : Event}

/-- The changes of the fence records of a stream. -/
inductive FenceMove (st : MemoryStream) : MemoryStream → Prop
  | quiet {st'} (hq : st.Quiet st') : FenceMove st st'
  | write {f pid st'} (hcomplete : f.complete = true) (hw : st.FencedWrite f pid st') :
      FenceMove st st'
  | sealed {authority g wake} (hfenced : st.metadata.writeFence = true)
      (hg : ∀ sl, st.seals authority = some sl → sl.generation < g) :
      FenceMove st (st.recordSeal authority g wake).1

/-- The changes of the fence records that an event can make to streams that it does not create. -/
def FenceStep (s : Streams) (e : Event) (s' : Streams) : Prop :=
  ∀ p, e.created ≠ some p → HeldAt FenceMove s s' p

theorem FenceStep.of_quiet {t t' : Streams} (h : ∀ p, e.created ≠ some p → QuietAt t t' p) :
    FenceStep t e t' := by
  intro p hp st' hst'
  obtain ⟨st, hst, hq⟩ := h p hp st' hst'
  exact ⟨st, hst, .quiet hq⟩

theorem FenceStep.insert {t : Streams} {st st' : MemoryStream} (hst : t.lookup path = some st)
    (h : FenceMove st st') : FenceStep t e (t.insert path st') :=
  fun p _ => heldAt_insert (fun st => .quiet (.refl st)) hst h p

theorem Records.step {authority wake : Bytes} {g : ℤ} {t t' : Streams}
    (h : Records t path authority g wake t') : FenceStep t e t' := by
  obtain ⟨st, hst, hfenced, hg, rfl⟩ := h
  exact .insert hst (.sealed hfenced hg)

theorem step_records (h : Step s e s') : FenceStep s.streams e s'.streams := by
  cases h.ran with
  | create hr => exact .of_quiet fun p hp => create_heldAt lasting_quiet hr hp
  | get | has => exact .of_quiet fun p _ => .refl _ p
  | delete => exact .of_quiet fun p _ => delete_heldAt lasting_quiet rfl p
  | closeStream hr => exact .of_quiet fun p _ => (closeStream_outcome hr).2.quiet p
  | closeStreamFenced hr => exact .of_quiet fun p _ => (closeStreamFenced_outcome hr).2.quiet p
  | closeStreamWithProducer hr =>
    rcases closeStreamWithProducer_records hr with
      ⟨hquiet, -⟩ | ⟨st, f, st', hst, -, hcomplete, hw, hs'⟩
    · exact .of_quiet fun p _ => hquiet p
    · rw [hs']
      exact .insert hst (.write hcomplete hw)
  | append hr =>
    rcases append_records hr with ⟨hquiet, -⟩ | ⟨st, f, st', hst, -, hcomplete, hw, hs', -⟩
    · exact .of_quiet fun p _ => hquiet p
    · rw [hs']
      exact .insert hst (.write hcomplete hw)
  | readPage hr => exact .of_quiet fun p _ => (readPage_looked hr).quiet p
  | read hr => exact .of_quiet fun p _ => (readPages_looked hr).quiet p
  | grantAppendFence hr =>
    rcases grantAppendFence_streams hr with hs' | ⟨g, wake, hs'⟩
    · exact .of_quiet fun p _ => hs' ▸ .refl _ p
    · exact hs'.step
  | revokeAppendFence hr => exact .of_quiet fun p _ => revokeAppendFence_streams hr ▸ .refl _ p
  | sealAppendFence hr =>
    rcases sealAppendFence_streams hr with hs' | hs'
    · exact .of_quiet fun p _ => hs' ▸ .refl _ p
    · exact hs'.step

theorem step_marker (h : Step s e s') (p : Path) (a : Bytes) :
    MarkerStep s s' p a (e.env.wall 0) := by
  cases h.ran with
  | create hr => exact .kept (Kept.of_markers (create_markers hr) p a)
  | get | has => exact .kept (Kept.refl p a)
  | delete => exact .kept (Kept.of_markers (s.delete_markers _) p a)
  | closeStream hr => exact .kept ((closeStream_outcome hr).1 p a)
  | closeStreamFenced hr => exact .kept ((closeStreamFenced_outcome hr).1 p a)
  | closeStreamWithProducer hr => exact .kept ((closeStreamWithProducer_outcome hr).1 p a)
  | append hr => exact .kept ((append_outcome hr).1 p a)
  | readPage hr => exact .kept (Kept.of_markers (readPage_looked hr).markers p a)
  | read hr => exact .kept (Kept.of_markers (readPages_looked hr).markers p a)
  | grantAppendFence hr =>
    rcases grantAppendFence_outcome hr with
      ⟨-, -, hkept⟩ | ⟨-, st, s₁, m', -, -, rfl, hs₁, hsucc, -⟩
    · exact .kept (hkept p a)
    · exact markerStep_put hs₁ hsucc p a
  | @revokeAppendFence env path fence _ _ hr =>
    rcases revokeAppendFence_outcome hr with rfl | rfl
    · exact .kept (Kept.refl p a)
    · exact s.tombstone_markers env path (fenceAuthority fence) fence p a
  | @sealAppendFence env path fence _ _ hr =>
    rcases sealAppendFence_outcome hr with ⟨rfl, -⟩ | ⟨hmarkers, -⟩
    · exact .kept (Kept.refl p a)
    · exact (s.tombstone_markers env path (fenceAuthority fence) fence p a).congr hmarkers

end Steps

end MemoryStore

end Chronicle
