import Chronicle.Memory.System

/-! # What a step can change

Every step of the store is one of a few changes of the stream map. The
invariants of the store are proved about these changes.
-/

namespace Chronicle

def StreamMetadata.fixed (m : StreamMetadata) : StreamMetadata :=
  { m with
    currentOffset := zeroOffset
    lastSeq := []
    lastAccessedAt := 0
    producers := fun _ => none
    closed := false
    closedBy := none
    softDeleted := false
    sealedGeneration := 0
    sealedOffset := none }

def ClosedByProducer.entry (p : ClosedByProducer) : ℤ × ℤ := (p.epoch, p.seq)

/-- How a producer table changes when a request is accepted, or when none is. -/
def ProducerUpdate (before after : Bytes → Option ProducerState) :
    Option ClosedByProducer → Prop
  | none => after = before
  | some p =>
    Sequenced.Follows ((before p.producerId).map ProducerState.entry) p.entry ∧
      ∃ ps : ProducerState, ps.entry = p.entry ∧
        after = Function.update before p.producerId (some ps)

/-- An in-place change of one stream: it adds the given messages and records the
given accepted request. -/
structure MemoryStream.Update (st : MemoryStream) (ds : List Bytes)
    (acc : Option ClosedByProducer) (st' : MemoryStream) : Prop where
  fixed : st'.metadata.fixed = st.metadata.fixed
  messages : st'.messages = st.messages ++ layOut st.metadata.currentOffset ds
  tail : st'.metadata.currentOffset = endOffset st.metadata.currentOffset ds
  producers : ProducerUpdate st.metadata.producers st'.metadata.producers acc

namespace MemoryStream

variable {st st' st'' : MemoryStream} {data : Bytes} {stampedAt : Time} {err : Option StoreError}

section Update

variable {ds : List Bytes} {acc : Option ClosedByProducer}

theorem Update.refCount (h : st.Update ds acc st') :
    st'.metadata.refCount = st.metadata.refCount :=
  (congrArg StreamMetadata.refCount h.fixed :)

theorem Update.forkedFrom (h : st.Update ds acc st') :
    st'.metadata.forkedFrom = st.metadata.forkedFrom :=
  (congrArg StreamMetadata.forkedFrom h.fixed :)

theorem Update.forkOffset (h : st.Update ds acc st') :
    st'.metadata.forkOffset = st.metadata.forkOffset :=
  (congrArg StreamMetadata.forkOffset h.fixed :)

end Update

/-- A change of mutable metadata other than the tail and the producers. -/
structure Idle (st st' : MemoryStream) : Prop where
  fixed : st'.metadata.fixed = st.metadata.fixed
  messages : st'.messages = st.messages
  tail : st'.metadata.currentOffset = st.metadata.currentOffset
  producers : st'.metadata.producers = st.metadata.producers

theorem Idle.refl (st : MemoryStream) : st.Idle st := ⟨rfl, rfl, rfl, rfl⟩

theorem Idle.trans (h : st.Idle st') (h' : st'.Idle st'') : st.Idle st'' :=
  ⟨h'.fixed.trans h.fixed, h'.messages.trans h.messages, h'.tail.trans h.tail,
    h'.producers.trans h.producers⟩

theorem Idle.update (h : st.Idle st') : st.Update [] none st' :=
  ⟨h.fixed, by simp [h.messages], by simp [h.tail], h.producers⟩

theorem idle_touch (st : MemoryStream) (now : Time) : st.Idle (st.touch now) :=
  ⟨rfl, rfl, rfl, rfl⟩

theorem idle_softDelete (st : MemoryStream) :
    st.Idle { st with metadata := { st.metadata with softDeleted := true } } :=
  ⟨rfl, rfl, rfl, rfl⟩

theorem idle_closeStream (st : MemoryStream) : st.Idle st.closeStream.1 := ⟨rfl, rfl, rfl, rfl⟩

theorem idle_recordSeal (st : MemoryStream) (authority : Bytes) (generation : ℤ)
    (wakeID : Bytes) : st.Idle (st.recordSeal authority generation wakeID).1 :=
  ⟨rfl, rfl, rfl, rfl⟩

@[simp] theorem bind_metadata (st : MemoryStream) (fence : Option AppendFence) (pid : Bytes)
    (off : Offset) : (st.bind fence pid off).metadata = st.metadata := by
  unfold bind
  split
  · rfl
  · split <;> rfl

@[simp] theorem bind_messages (st : MemoryStream) (fence : Option AppendFence) (pid : Bytes)
    (off : Offset) : (st.bind fence pid off).messages = st.messages := by
  unfold bind
  split
  · rfl
  · split <;> rfl

theorem admitProducer_cases (st : MemoryStream) (opts : AppendOptions) (now : Time) :
    (∃ r err, st.admitProducer opts now = .error (r, err) ∧ r.producerResult ≠ .accepted ∧
      (err = none → r.producerResult = .duplicate)) ∨
    (∃ adm, st.admitProducer opts now = .ok adm ∧
      ProducerUpdate st.metadata.producers (adm.apply st.metadata.producers) opts.producer ∧
      adm.result = if opts.producer.isSome then .accepted else .none) := by
  unfold admitProducer
  cases hp : opts.producer with
  | none => exact .inr ⟨_, rfl, rfl, rfl⟩
  | some p =>
    obtain ⟨r, e, hv, hr⟩ | ⟨r, hv, hr⟩ | ⟨r, hv, hr, hf⟩ :=
      validateProducer_cases (st.metadata.producers p.producerId) p.epoch p.seq now.unix
    · dsimp only
      rw [hv]
      exact .inl ⟨_, _, rfl, by simp [hr], by simp⟩
    · dsimp only
      rw [hv]
      exact .inl ⟨_, _, if_pos hr, by simp, by simp⟩
    · dsimp only
      rw [hv]
      exact .inr ⟨_, if_neg (by simp [hr]), ⟨hf, _, rfl, rfl⟩, hr⟩

theorem appendToStream_ok {allowEmpty : Bool} {off : Offset}
    (h : st.appendToStream data allowEmpty = .ok (st', off)) :
    ∃ ds, splitBody st.metadata.contentType data allowEmpty = .ok ds ∧
      st' = { st with messages := st.messages ++ layOut st.metadata.currentOffset ds } ∧
      off = endOffset st.metadata.currentOffset ds := by
  unfold appendToStream at h
  split at h
  · cases h
  · rename_i ds hds
    cases h
    exact ⟨ds, hds, rfl, rfl⟩

theorem update_commit (st : MemoryStream) (opts : AppendOptions) (adm : Admission)
    (ds : List Bytes) (acc : Option ClosedByProducer)
    (h : ProducerUpdate st.metadata.producers (adm.apply st.metadata.producers) acc) :
    st.Update ds acc
      (commit { st with messages := st.messages ++ layOut st.metadata.currentOffset ds } opts adm
        (endOffset st.metadata.currentOffset ds)) := by
  constructor <;> simp only [commit, bind_metadata, bind_messages]
  · rfl
  · exact h

/-- The append ladder ends with nothing but the renewed access time, or with a commit of the
whole body. -/
theorem append_ladder {touchedAt : Time} {opts : AppendOptions}
    {r : AppendResult} (h : st.append touchedAt stampedAt data opts = (st', r, err)) :
    (st' = st.touch touchedAt ∧ r.producerResult ≠ .accepted ∧
      (err = none → r.producerResult = .duplicate)) ∨
    (∃ ds adm, splitBody st.metadata.contentType data false = .ok ds ∧
      (st.touch touchedAt).admitProducer opts stampedAt = .ok adm ∧
      st' = commit { st.touch touchedAt with
        messages := st.messages ++ layOut st.metadata.currentOffset ds } opts adm
          (endOffset st.metadata.currentOffset ds) ∧
      r = { offset := endOffset st.metadata.currentOffset ds, producerResult := adm.result
            lastSeq := adm.lastSeq, streamClosed := opts.close } ∧ err = none) := by
  have hrefuse : ∀ {r₀ : AppendResult} {err₀ : Option StoreError},
      (st.touch touchedAt, r₀, err₀) = (st', r, err) → r₀.producerResult ≠ .accepted →
      (err₀ = none → r₀.producerResult = .duplicate) →
      st' = st.touch touchedAt ∧ r.producerResult ≠ .accepted ∧
        (err = none → r.producerResult = .duplicate) := by
    rintro _ _ ⟨⟩ h₁ h₂
    exact ⟨rfl, h₁, h₂⟩
  unfold append at h
  dsimp only at h
  split at h
  · left
    split at h
    · split at h
      · exact hrefuse h (by simp) (by simp)
      · exact hrefuse h (by simp) (by simp)
    · exact hrefuse h (by simp) (by simp)
  split at h
  · exact .inl (hrefuse h (by simp) (by simp))
  rcases (st.touch touchedAt).admitProducer_cases opts stampedAt with
    ⟨r₀, err₀, hadm, hr, herr⟩ | ⟨adm, hadm, -, -⟩
  · rw [hadm] at h
    exact .inl (hrefuse h hr herr)
  rw [hadm] at h
  dsimp only at h
  split at h
  · exact .inl (hrefuse h (by simp) (by simp))
  split at h
  · exact .inl (hrefuse h (by simp) (by simp))
  · rename_i happ
    rcases appendToStream_ok happ with ⟨ds, hds, rfl, rfl⟩
    cases h
    exact .inr ⟨ds, adm, hds, hadm, rfl, rfl, rfl⟩

/-- The outcomes of the append ladder: nothing but the renewed access time, or
a commit of the whole body. -/
theorem append_cases {touchedAt : Time} {opts : AppendOptions}
    {r : AppendResult} (h : st.append touchedAt stampedAt data opts = (st', r, err)) :
    (st' = st.touch touchedAt ∧ r.producerResult ≠ .accepted ∧
      (err = none → r.producerResult = .duplicate)) ∨
    (∃ ds, splitBody st.metadata.contentType data false = .ok ds ∧
      st.Update ds opts.producer st' ∧ err = none ∧
      r.producerResult = if opts.producer.isSome then .accepted else .none) := by
  rcases append_ladder h with hrefuse | ⟨ds, adm, hds, hadm, rfl, rfl, rfl⟩
  · exact .inl hrefuse
  rcases (st.touch touchedAt).admitProducer_cases opts stampedAt with
    ⟨r₀, err₀, hadm', -, -⟩ | ⟨adm', hadm', hpu, hres⟩
  · rw [hadm] at hadm'
    cases hadm'
  · rw [hadm] at hadm'
    cases hadm'
    have hup := (st.touch touchedAt).update_commit opts adm ds opts.producer hpu
    exact .inr ⟨ds, hds, ⟨hup.fixed, hup.messages, hup.tail, hup.producers⟩, rfl, hres⟩

/-- A close with producer headers changes nothing, or closes the stream under its producer. -/
theorem closeStreamWithProducer_ladder {opts : CloseProducerOptions}
    {r : CloseProducerResult} (h : st.closeStreamWithProducer stampedAt opts = (st', r, err)) :
    (st' = st ∧ r.producerResult ≠ .accepted) ∨
    (∃ ps : ProducerState, ps.entry = (opts.producerEpoch, opts.producerSeq) ∧
      Sequenced.Follows ((st.metadata.producers opts.producerId).map ProducerState.entry)
        (opts.producerEpoch, opts.producerSeq) ∧
      st' = ({ st with metadata := { st.metadata with
          producers := Function.update st.metadata.producers opts.producerId (some ps)
          closed := true
          closedBy := some ⟨opts.producerId, opts.producerEpoch, opts.producerSeq⟩ } } :
        MemoryStream).bind opts.fence opts.producerId st.metadata.currentOffset ∧
      r.producerResult = .accepted ∧ err = none) := by
  unfold closeStreamWithProducer at h
  dsimp only at h
  split at h
  · split at h <;> cases h <;> exact .inl ⟨rfl, by simp⟩
  rcases validateProducer_cases (st.metadata.producers opts.producerId) opts.producerEpoch
      opts.producerSeq stampedAt.unix with ⟨r₀, e, hv, hr⟩ | ⟨r₀, hv, hr⟩ | ⟨r₀, hv, hr, hf⟩
  · rw [hv] at h
    cases h
    exact .inl ⟨rfl, by simp [hr]⟩
  · rw [hv] at h
    dsimp only at h
    rw [if_pos hr] at h
    cases h
    exact .inl ⟨rfl, by simp⟩
  · rw [hv] at h
    dsimp only at h
    rw [if_neg (by simp [hr])] at h
    cases h
    exact .inr ⟨_, rfl, hf, rfl, hr, rfl⟩

/-- The outcomes of a close with producer headers. -/
theorem closeStreamWithProducer_cases {opts : CloseProducerOptions}
    {r : CloseProducerResult} (h : st.closeStreamWithProducer stampedAt opts = (st', r, err)) :
    (st' = st ∧ r.producerResult ≠ .accepted) ∨
    (st.Update [] (some ⟨opts.producerId, opts.producerEpoch, opts.producerSeq⟩) st' ∧
      r.producerResult = .accepted) := by
  rcases closeStreamWithProducer_ladder h with hrefuse | ⟨ps, hps, hf, rfl, hr, -⟩
  · exact .inl hrefuse
  refine .inr ⟨?_, hr⟩
  constructor <;> simp only [bind_metadata, bind_messages, layOut_nil, List.append_nil,
    endOffset_nil]
  · rfl
  · exact ⟨hf, ps, hps, rfl⟩

end MemoryStream

section Markers

namespace MemoryStore

variable {s : MemoryStore}

@[simp] theorem putMarker_streams (s : MemoryStore) (path : Path) (authority : Bytes)
    (m : Option MemoryMarker) : (s.putMarker path authority m).streams = s.streams := rfl

@[simp] theorem marker_streams (s : MemoryStore) (path : Path) (authority : Bytes) (wall : Time) :
    (s.marker path authority wall).1.streams = s.streams := by
  unfold marker
  split
  · rfl
  · split <;> rfl

@[simp] theorem tombstone_streams (s : MemoryStore) (env : Env) (path : Path) (authority : Bytes)
    (f : AppendFence) : (s.tombstone env path authority f).1.streams = s.streams := by
  unfold tombstone
  dsimp only
  split <;> simp

@[simp] theorem fenceRung_streams (s : MemoryStore) (path : Path) (st : MemoryStream)
    (fence : Option AppendFence) (pid : Bytes) (epoch : Option ℤ) (now wall : Time) :
    (s.fenceRung path st fence pid epoch now wall).1.streams = s.streams := by
  unfold fenceRung
  split
  · simp
  · split
    · rfl
    · split <;> rfl

end MemoryStore

end Markers

end Chronicle
