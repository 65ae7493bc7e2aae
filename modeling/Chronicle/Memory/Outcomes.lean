import Chronicle.Memory.Changes

/-! # Outcomes of calls

What each call of the store can leave, said once for its streams, its claim
markers and its answer. Creations and deletions are treated with the changes of
a step.
-/

namespace Chronicle

namespace MemoryStream

/-- What a read writes to the stream that it addresses. -/
inductive Look : MemoryStream → MemoryStream → Prop
  | touch (st : MemoryStream) (now : Time) : Look st (st.touch now)
  | softDelete (st : MemoryStream) (href : 0 < st.metadata.refCount) :
      Look st { st with metadata := { st.metadata with softDeleted := true } }

end MemoryStream

namespace MemoryStore

variable {s s' s'' : MemoryStore} {env : Env} {path : Path}

section Reads

/-- The stream under a path was at most looked at. -/
def Looked (path : Path) (s s' : MemoryStore) : Prop :=
  s' = s ∨ ∃ st st', s.streams.lookup path = some st ∧
    Relation.ReflTransGen MemoryStream.Look st st' ∧ s' = s.set path st'

theorem Looked.refl (s : MemoryStore) : Looked path s s := .inl rfl

theorem looked_set {st st' : MemoryStream} (hst : s.streams.lookup path = some st)
    (h : st.Look st') : Looked path s (s.set path st') :=
  .inr ⟨st, st', hst, .single h, rfl⟩

theorem Looked.trans (h : Looked path s s') (h' : Looked path s' s'') : Looked path s s'' := by
  rcases h with rfl | ⟨st, st', hst, hlook, rfl⟩
  · exact h'
  rcases h' with rfl | ⟨st₁, st'', hst₁, hlook', rfl⟩
  · exact .inr ⟨st, st', hst, hlook, rfl⟩
  rw [set, Finmap.lookup_insert] at hst₁
  cases hst₁
  exact .inr ⟨st, st'', hst, hlook.trans hlook', by rw [set, set, set, Finmap.insert_insert]⟩

theorem Looked.markers (h : Looked path s s') : s'.markers = s.markers := by
  rcases h with rfl | ⟨st, st', -, -, rfl⟩ <;> rfl

theorem readPage_looked {depth : ℕ} {checkedAt touchedAt : Time} {offset : Offset}
    {opts : ReadPageOptions} {r : Except StoreError ReadPage}
    (h : s.readPage depth checkedAt touchedAt path offset opts = some (s', r)) :
    Looked path s s' := by
  unfold readPage at h
  dsimp only at h
  split at h
  · cases h; exact .refl s
  rename_i st hst
  split at h
  · split at h <;> cases h
    · exact looked_set hst (.softDelete st ‹_›)
    · exact .refl s
  split at h
  · cases h; exact .refl s
  split at h
  · obtain ⟨page, -, hpage⟩ := Option.map_eq_some_iff.mp h
    cases hpage
    split
    · exact looked_set hst (.touch st touchedAt)
    · exact .refl s
  · split at h
    · cases h; exact .refl s
    · obtain ⟨page, -, hpage⟩ := Option.map_eq_some_iff.mp h
      cases hpage
      exact .refl s

theorem readPages_looked {offset : Offset} {n site : ℕ} {next : Offset}
    {snapshot : Option ReadSnapshot} {messages : List Message}
    {r : Except StoreError (List Message × Bool)}
    (h : readPages env path offset n site s next snapshot messages = some (s', r)) :
    Looked path s s' := by
  induction n generalizing site s next snapshot messages with
  | zero => cases h
  | succ n ih =>
    unfold readPages at h
    split at h
    · cases h
    · cases h
      exact readPage_looked ‹_›
    · rename_i s₁ page hpage
      split at h
      · cases h; exact readPage_looked hpage
      · split at h
        · cases h; exact readPage_looked hpage
        · exact (readPage_looked hpage).trans (ih h)

end Reads

section Markers

/-- A marker is kept, or reaped when it has outlived its retention. -/
def KeptAt (s s' : MemoryStore) (p : Path) (authority : Bytes) (wall : Time) : Prop :=
  s'.markers p authority = s.markers p authority ∨
    (∃ m, s.markers p authority = some m ∧ m.expiresAt < wall) ∧ s'.markers p authority = none

/-- A marker may take the place of the one that was read. -/
inductive Succeeds (cur : Option WriteFenceMarker) (m' : WriteFenceMarker) : Prop
  | revoked (hstate : m'.state = .revoked)
      (h : ∀ m, cur = some m → m.generation < m'.generation ∨
        m.generation = m'.generation ∧ m.wakeID = m'.wakeID ∧ m.holder = m'.holder)
  | granted (hstate : m'.state = .live)
      (h : ∀ m, cur = some m → m.generation < m'.generation ∨
        m.state = .live ∧ m.generation = m'.generation ∧ m.wakeID = m'.wakeID ∧
          m.holder = m'.holder ∧ m.leaseUntilNs ≤ m'.leaseUntilNs)

theorem putMarker_markers (s : MemoryStore) (path p : Path) (authority a : Bytes)
    (m : Option MemoryMarker) :
    (s.putMarker path authority m).markers p a =
      if p = path ∧ a = authority then m else s.markers p a := by
  unfold putMarker
  by_cases hp : p = path
  · subst hp
    by_cases ha : a = authority
    · subst ha
      simp
    · simp [ha]
  · simp [hp]

/-- Every marker is kept or reaped. -/
def Kept (s s' : MemoryStore) (wall : Time) : Prop := ∀ p a, KeptAt s s' p a wall

variable {authority : Bytes} {wall : Time}

theorem Kept.of_markers (h : s'.markers = s.markers) : Kept s s' wall :=
  fun _ _ => .inl (by rw [h])

theorem Kept.refl : Kept s s wall := .of_markers rfl

theorem kept_marker : Kept s (s.marker path authority wall).1 wall := by
  unfold marker
  split
  · exact .refl
  rename_i m hm
  split
  · rename_i hlapsed
    intro p a
    unfold KeptAt
    rw [putMarker_markers]
    split
    · rename_i heq
      rw [heq.1, heq.2]
      exact .inr ⟨⟨m, hm, hlapsed⟩, rfl⟩
    · exact .inl rfl
  · exact .refl

theorem kept_fenceRung {st : MemoryStream} {fence : Option AppendFence} {pid : Bytes}
    {epoch : Option ℤ} {now : Time} :
    Kept s (s.fenceRung path st fence pid epoch now wall).1 wall := by
  unfold fenceRung
  split
  · exact kept_marker
  · split
    · exact .refl
    · split <;> exact .refl

end Markers

section Writes

variable {err : Option StoreError}

/-- An append is refused before it reaches the stream, or runs on it. -/
theorem append_outcome {data : Bytes} {opts : AppendOptions} {r : AppendResult}
    (h : s.append env path data opts = (s', r, err)) :
    Kept s s' (env.wall 0) ∧
    (s'.streams = s.streams ∧ r.producerResult = .none ∧ err.isSome ∨
    ∃ st st', s.streams.lookup path = some st ∧ (opts.fence.any fun f => !f.complete) = false ∧
      (opts.hasProducerHeaders && !opts.hasAllProducerHeaders) = false ∧
      (s.fenceRung path st opts.fence opts.producerId opts.producerEpoch (env.clock 1)
        (env.wall 0)).2.reason = .none ∧
      st.append (env.clock 2) (env.clock 3) data opts = (st', r, err) ∧
      s'.streams = s.streams.insert path st') := by
  unfold append at h
  split at h
  · cases h; exact ⟨.refl, .inl ⟨rfl, rfl, rfl⟩⟩
  rename_i hcomplete
  split at h
  · cases h; exact ⟨.refl, .inl ⟨rfl, rfl, rfl⟩⟩
  rename_i hheaders
  split at h
  · cases h; exact ⟨.refl, .inl ⟨rfl, rfl, rfl⟩⟩
  rename_i st hst
  split at h
  · cases h; exact ⟨.refl, .inl ⟨rfl, rfl, rfl⟩⟩
  split at h
  · cases h; exact ⟨.refl, .inl ⟨rfl, rfl, rfl⟩⟩
  dsimp only at h
  split at h
  · cases h
    exact ⟨kept_fenceRung, .inl ⟨fenceRung_streams .., rfl, rfl⟩⟩
  · rename_i hpass
    generalize happ : st.append (env.clock 2) (env.clock 3) data opts = result at h
    obtain ⟨st', reply⟩ := result
    cases h
    refine ⟨kept_fenceRung, .inr ⟨st, _, hst, ?_, ?_, not_not.mp hpass, happ, ?_⟩⟩
    · simpa using hcomplete
    · simpa using hheaders
    · simp only [set, fenceRung_streams]

/-- A close with producer headers is refused before it reaches the stream, or runs on it. -/
theorem closeStreamWithProducer_outcome {opts : CloseProducerOptions}
    {res : Option CloseProducerResult}
    (h : s.closeStreamWithProducer env path opts = (s', res, err)) :
    Kept s s' (env.wall 0) ∧
    (s'.streams = s.streams ∧ (∀ r ∈ res, r.producerResult = .none) ∧ err.isSome ∨
    ∃ st st' r, s.streams.lookup path = some st ∧ (opts.fence.any fun f => !f.complete) = false ∧
      (s.fenceRung path st opts.fence opts.producerId (some opts.producerEpoch) (env.clock 1)
        (env.wall 0)).2.reason = .none ∧
      st.closeStreamWithProducer (env.clock 2) opts = (st', r, err) ∧ res = some r ∧
      s'.streams = s.streams.insert path st') := by
  unfold closeStreamWithProducer at h
  split at h
  · cases h; exact ⟨.refl, .inl ⟨rfl, by simp, rfl⟩⟩
  rename_i hcomplete
  split at h
  · cases h; exact ⟨.refl, .inl ⟨rfl, by simp, rfl⟩⟩
  rename_i st hst
  split at h
  · cases h; exact ⟨.refl, .inl ⟨rfl, by simp, rfl⟩⟩
  dsimp only at h
  split at h
  · cases h
    exact ⟨kept_fenceRung, .inl ⟨fenceRung_streams .., by simp, rfl⟩⟩
  · rename_i hpass
    generalize hclose : st.closeStreamWithProducer (env.clock 2) opts = result at h
    obtain ⟨st', reply⟩ := result
    cases h
    refine ⟨kept_fenceRung, .inr ⟨st, _, _, hst, ?_, not_not.mp hpass, hclose, rfl, ?_⟩⟩
    · simpa using hcomplete
    · simp only [set, fenceRung_streams]

/-- A close is refused before it reaches the stream, or closes it. -/
def CloseOutcome (s : MemoryStore) (env : Env) (path : Path) (fence : Option AppendFence)
    (s' : MemoryStore) (err : Option StoreError) : Prop :=
  s'.streams = s.streams ∧ err.isSome ∨
    ∃ st, s.streams.lookup path = some st ∧
      (s.fenceRung path st fence [] none (env.clock 1) (env.wall 0)).2.reason = .none ∧
      err = none ∧ s'.streams = s.streams.insert path st.closeStream.1

theorem closeStream_outcome {fence : Option AppendFence} {res : Option CloseResult}
    (h : s.closeStream env path fence = (s', res, err)) :
    Kept s s' (env.wall 0) ∧ CloseOutcome s env path fence s' err := by
  unfold closeStream at h
  split at h
  · cases h; exact ⟨.refl, .inl ⟨rfl, rfl⟩⟩
  rename_i st hst
  split at h
  · cases h; exact ⟨.refl, .inl ⟨rfl, rfl⟩⟩
  dsimp only at h
  split at h
  · cases h
    exact ⟨kept_fenceRung, .inl ⟨fenceRung_streams .., rfl⟩⟩
  · rename_i hpass
    cases h
    refine ⟨kept_fenceRung, .inr ⟨st, hst, not_not.mp hpass, rfl, ?_⟩⟩
    simp only [set, fenceRung_streams]

theorem closeStreamFenced_outcome {fence : AppendFence} {res : Option CloseResult}
    (h : s.closeStreamFenced env path fence = (s', res, err)) :
    Kept s s' (env.wall 0) ∧ CloseOutcome s env path (some fence) s' err := by
  unfold closeStreamFenced at h
  split at h
  · cases h; exact ⟨.refl, .inl ⟨rfl, rfl⟩⟩
  · exact closeStream_outcome h

end Writes

section Claims

variable {f : AppendFence}

/-- The seal of a generation is recorded for an authority that was sealed below it at most. -/
def Records (s : Streams) (path : Path) (authority : Bytes) (g : ℤ) (wake : Bytes)
    (s' : Streams) : Prop :=
  ∃ st, s.lookup path = some st ∧ st.metadata.writeFence = true ∧
    (∀ sl, st.seals authority = some sl → sl.generation < g) ∧
    s' = s.insert path (st.recordSeal authority g wake).1

/-- A grant is refused, or it installs a marker and may seal the claim that it supersedes. -/
theorem grantAppendFence_outcome {r : Except StoreError Bool}
    (h : s.grantAppendFence env path f = (s', r)) :
    s'.streams = s.streams ∧ r ≠ .ok true ∧ Kept s s' (env.wall 0) ∨
    r = .ok true ∧ ∃ (st : MemoryStream) (s₁ : MemoryStore) (m' : MemoryMarker),
      s.streams.lookup path = some st ∧
      (∀ sl, st.seals (fenceAuthority f) = some sl → sl.generation < f.generation) ∧
      s' = s₁.putMarker path (fenceAuthority f) (some m') ∧
      s₁.markers = (s.marker path (fenceAuthority f) (env.wall 0)).1.markers ∧
      Succeeds (s.marker path (fenceAuthority f) (env.wall 0)).2 m'.marker ∧
      (s₁.streams = s.streams ∨
        ∃ g wake, Records s.streams path (fenceAuthority f) g wake s₁.streams) := by
  unfold grantAppendFence at h
  dsimp only at h
  split at h
  · cases h; exact .inl ⟨rfl, nofun, .refl⟩
  split at h
  · cases h; exact .inl ⟨rfl, nofun, .refl⟩
  rename_i st hst
  split at h
  · cases h; exact .inl ⟨rfl, nofun, .refl⟩
  split at h
  · cases h; exact .inl ⟨rfl, nofun, .refl⟩
  rename_i hsealed
  have hpass : ∀ sl, st.seals (fenceAuthority f) = some sl → sl.generation < f.generation := by
    intro sl hsl
    simpa [hsl] using hsealed
  have hstreams := s.marker_streams path (fenceAuthority f) (env.wall 0)
  have hkept : Kept s (s.marker path (fenceAuthority f) (env.wall 0)).1 (env.wall 0) := kept_marker
  split at h
  · rename_i hcur
    cases h
    exact .inr ⟨rfl, st, _, _, hst, hpass, rfl, rfl, .granted rfl (by simp [hcur]), .inl hstreams⟩
  rename_i m hcur
  split at h
  · cases h; exact .inl ⟨hstreams, nofun, hkept⟩
  rename_i hlow
  split at h
  · rename_i hgen
    split at h
    · cases h; exact .inl ⟨hstreams, nofun, hkept⟩
    · rename_i hsame
      cases h
      simp only [not_or, ne_eq, not_not] at hsame
      refine .inr ⟨rfl, st, _, _, hst, hpass, rfl, rfl, .granted rfl ?_, .inl hstreams⟩
      intro m₀ hm₀
      cases hcur.symm.trans hm₀
      exact .inr ⟨hsame.1, hgen.symm, hsame.2.1, hsame.2.2, le_max_right _ _⟩
  · rename_i hgen
    have hhigh : ∀ m₀, (s.marker path (fenceAuthority f) (env.wall 0)).2 = some m₀ →
        m₀.generation < f.generation := by
      intro m₀ hm₀
      cases hcur.symm.trans hm₀
      omega
    split at h
    · rename_i hseal
      cases h
      rw [Bool.and_eq_true] at hseal
      refine .inr ⟨rfl, st, _, _, hst, hpass, rfl, rfl,
        .granted rfl fun m₀ hm₀ => .inl (hhigh m₀ hm₀), .inr ⟨m.generation, m.wakeID, st, hst,
          hseal.1, ?_, by rw [set, hstreams]⟩⟩
      intro sl hsl
      simpa [hsl] using hseal.2
    · cases h
      exact .inr ⟨rfl, st, _, _, hst, hpass, rfl, rfl,
        .granted rfl fun m₀ hm₀ => .inl (hhigh m₀ hm₀), .inl hstreams⟩

/-- A seal is refused, or it leaves a tombstone and answers whether it recorded the seal. -/
theorem sealAppendFence_outcome {r : Except StoreError SealResult}
    (h : s.sealAppendFence env path f = (s', r)) :
    s' = s ∧ (∀ res, r ≠ .ok res) ∨
    s'.markers = (s.tombstone env path (fenceAuthority f) f).1.markers ∧ ∃ res, r = .ok res ∧
      (s'.streams = s.streams ∧ res.outcome ≠ .sealed ∨ res.outcome = .sealed ∧
        Records s.streams path (fenceAuthority f) f.generation f.wakeID s'.streams) := by
  unfold sealAppendFence at h
  dsimp only at h
  split at h
  · cases h; exact .inl ⟨rfl, nofun⟩
  have htomb := s.tombstone_streams env path (fenceAuthority f) f
  split at h
  · rename_i heq
    cases h
    rw [heq] at htomb ⊢
    exact .inr ⟨rfl, _, rfl, .inl ⟨htomb, nofun⟩⟩
  · rename_i s₁ heq
    rw [heq] at htomb ⊢
    rw [← htomb]
    split at h
    · cases h; exact .inr ⟨rfl, _, rfl, .inl ⟨rfl, nofun⟩⟩
    rename_i st hst
    split at h
    · cases h; exact .inr ⟨rfl, _, rfl, .inl ⟨rfl, nofun⟩⟩
    rename_i hfenced
    split at h
    · cases h; exact .inr ⟨rfl, _, rfl, .inl ⟨rfl, nofun⟩⟩
    · rename_i hnone
      cases h
      refine .inr ⟨rfl, _, rfl, .inr ⟨rfl, st, hst, by simpa using hfenced, ?_, rfl⟩⟩
      intro sl hsl
      rw [hsl, Option.filter_some] at hnone
      simpa using hnone

theorem grantAppendFence_streams {r : Except StoreError Bool}
    (h : s.grantAppendFence env path f = (s', r)) :
    s'.streams = s.streams ∨
      ∃ g wake, Records s.streams path (fenceAuthority f) g wake s'.streams := by
  rcases grantAppendFence_outcome h with ⟨hs, -⟩ | ⟨-, st, s₁, m', -, -, rfl, -, -, hs⟩
  · exact .inl hs
  · exact hs

theorem sealAppendFence_streams {r : Except StoreError SealResult}
    (h : s.sealAppendFence env path f = (s', r)) :
    s'.streams = s.streams ∨
      Records s.streams path (fenceAuthority f) f.generation f.wakeID s'.streams := by
  rcases sealAppendFence_outcome h with ⟨rfl, -⟩ | ⟨-, res, -, ⟨hs, -⟩ | ⟨-, hs⟩⟩
  · exact .inl rfl
  · exact .inl hs
  · exact .inr hs

theorem revokeAppendFence_outcome {r : Option StoreError}
    (h : s.revokeAppendFence env path f = (s', r)) :
    s' = s ∨ s' = (s.tombstone env path (fenceAuthority f) f).1 := by
  unfold revokeAppendFence at h
  split at h
  · cases h; exact .inl rfl
  · cases h; exact .inr rfl

theorem revokeAppendFence_streams {r : Option StoreError}
    (h : s.revokeAppendFence env path f = (s', r)) : s'.streams = s.streams := by
  rcases revokeAppendFence_outcome h with rfl | rfl
  · rfl
  · exact tombstone_streams ..

end Claims

end MemoryStore

end Chronicle
