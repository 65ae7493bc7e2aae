import Chronicle.Memory.Fences

/-! # Failed calls

A call that returns an error leaves the store as it was, apart from the access
time of the stream that it addresses and from markers that have outlived their
retention. A creation that finds an expired stream drops it before it can fail,
and a deletion that underflows a reference count has already removed its stream.
-/

namespace Chronicle

def Reply.err : Reply → Option StoreError
  | .create (.error e) | .get (.error e) | .readPage (.error e) | .read (.error e)
  | .grant (.error e) | .sealFence (.error e) => some e
  | .delete r | .revoke r | .close _ r | .closeProducer _ r | .append _ r => r
  | _ => none

def Call.path : Call → Path
  | .create path _ | .get path | .has path | .delete path | .closeStream path
  | .closeStreamFenced path _ | .closeStreamWithProducer path _ | .append path _ _
  | .readPage path _ _ | .read path _ | .grantAppendFence path _ | .revokeAppendFence path _
  | .sealAppendFence path _ => path

/-- Creations, deletions, appends, closes, grants and seals. -/
def Call.mutates : Call → Bool
  | .create .. | .delete _ | .closeStream _ | .closeStreamFenced .. | .closeStreamWithProducer ..
  | .append .. | .grantAppendFence .. | .sealAppendFence .. => true
  | _ => false

namespace MemoryStore

/-- A failed call has changed nothing but the access time of its stream; one that the write fence
refused has not changed that either. -/
structure Inert (s : MemoryStore) (e : Event) (s' : MemoryStore) : Prop where
  others : ∀ q, q ≠ e.call.path → s'.streams.lookup q = s.streams.lookup q
  addressed : ∃ now, s'.streams.lookup e.call.path =
    (s.streams.lookup e.call.path).map (·.touch now)
  refused : e.reply.err = some .appendFenced → s'.streams = s.streams
  markers : ∀ p a, KeptAt s s' p a (e.env.wall 0)

/-- No expired stream is under the path of a creation, and the stream of a deletion is absent or
deleted already. -/
def failsEarly (s : MemoryStore) (e : Event) : Bool :=
  match e.call with
  | .create path _ =>
    (s.streams.lookup path).all fun st => !st.metadata.isExpiredAt (e.env.clock 0)
  | .delete path => (s.streams.lookup path).all fun st => st.metadata.softDeleted
  | _ => true

variable {s s' : MemoryStore} {e : Event} {env : Env} {path : Path}

theorem Inert.of_streams (hstreams : s'.streams = s.streams)
    (hmarkers : ∀ p a, KeptAt s s' p a (e.env.wall 0)) : Inert s e s' := by
  refine ⟨fun q _ => by rw [hstreams], ?_, fun _ => hstreams, hmarkers⟩
  rw [hstreams]
  cases s.streams.lookup e.call.path with
  | none => exact ⟨0, rfl⟩
  | some st => exact ⟨st.metadata.lastAccessedAt, rfl⟩

theorem Inert.refl (s : MemoryStore) (e : Event) : Inert s e s := .of_streams rfl Kept.refl

theorem Inert.present (h : Inert s e s') (hp : (s.streams.lookup e.call.path).isSome) :
    (s'.streams.lookup e.call.path).isSome := by
  rcases h.addressed with ⟨now, hnow⟩
  rw [hnow, Option.isSome_map]
  exact hp

section Failures

variable {err : StoreError}

theorem create_failed {opts : CreateOptions} (h : s.create env path opts = some (s', .error err)) :
    s' = if (s.streams.lookup path).any (·.metadata.isExpiredAt (env.clock 0)) then s.remove path
      else s := by
  have habsent : ∀ {s₀ : MemoryStore},
      s₀.createAbsent env path opts = some (s', .error err) → s' = s₀ := by
    intro s₀ h
    cases createAbsent_creates h
    rfl
  unfold create at h
  split at h
  · rename_i habs
    simp [habs, habsent h]
  · rename_i existing hex
    split at h
    · rename_i hexp
      rw [habsent h, hex, Option.any_some, if_pos hexp]
    · rename_i hexp
      rw [hex, Option.any_some, if_neg hexp]
      split at h
      · cases h; rfl
      · split at h <;> cases h
        rfl

theorem cascade_absent {t u : Streams} {p q : Path} {err : Option StoreError}
    (h : Deletes t p u err) (hq : t.lookup q = none) : u.lookup q = none := by
  cases hu : u.lookup q with
  | none => rfl
  | some st =>
    rcases h.recounted q st hu with ⟨st₀, rc, h₀, -⟩
    rw [hq] at h₀
    cases h₀

theorem cascade_underflow {t u : Streams} {p : Path} (h : Deletes t p u (some err)) :
    u.lookup p = none := by
  have hgone : ∀ {st parent : MemoryStream} {rc : Int32},
      (t.erase p).lookup st.metadata.forkedFrom = some parent →
      ((t.erase p).insert st.metadata.forkedFrom (setRefCount parent rc)).lookup p = none := by
    intro st parent rc hf
    rw [Finmap.lookup_insert_of_ne _ (lookup_of_lookup_erase hf).1.symm, Finmap.lookup_erase]
  cases h with
  | underflow hp hne hf href => exact hgone hf
  | next hp hne hf href hsoft hrest => exact cascade_absent hrest (hgone hf)

theorem delete_failed (h : (s.delete path).2 = some err) :
    (s.delete path).1 = s ∧ ((s.streams.lookup path).all fun st => st.metadata.softDeleted) ∨
    (∃ st, s.streams.lookup path = some st ∧ st.metadata.softDeleted = false) ∧
      (s.delete path).1.streams.lookup path = none := by
  revert h
  unfold delete
  split
  · rename_i habs
    intro _
    exact .inl ⟨rfl, by simp [habs]⟩
  rename_i st hst
  split
  · rename_i hsoft
    intro _
    exact .inl ⟨rfl, by simp [hst, hsoft]⟩
  rename_i hsoft
  split
  · intro h
    cases h
  · intro h
    have hrounds := deletes_cascade _ s.streams path le_rfl
    rw [show (cascade s.streams.keys.card s.streams path).2 = some err from h] at hrounds
    exact .inr ⟨⟨st, hst, by simpa using hsoft⟩, cascade_underflow hrounds⟩

theorem splitBody_ne_fenced (contentType data : Bytes) (allowEmpty : Bool) :
    splitBody contentType data allowEmpty ≠ .error .appendFenced := by
  unfold splitBody processJSONAppend
  dsimp only
  split
  · split
    · simp
    · split
      · split
        · simp
        · split <;> simp
        · simp
      · simp
  · simp

theorem validateProducer_ne_fenced (state : Option ProducerState) (epoch seq now : ℤ) :
    (validateProducer state epoch seq now).2.2 ≠ some .appendFenced := by
  unfold validateProducer
  split
  · split <;> simp
  · split_ifs <;> simp

theorem append_ne_fenced (st : MemoryStream) (touchedAt stampedAt : Time) (data : Bytes)
    (opts : AppendOptions) :
    (st.append touchedAt stampedAt data opts).2.2 ≠ some .appendFenced := by
  unfold MemoryStream.append
  dsimp only
  split
  · split
    · split <;> simp
    · simp
  split
  · simp
  split
  · rename_i reply hadm
    unfold MemoryStream.admitProducer at hadm
    split at hadm
    · cases hadm
    · rename_i p _
      have hne := validateProducer_ne_fenced
        ((st.touch touchedAt).metadata.producers p.producerId) p.epoch p.seq stampedAt.unix
      split at hadm
      · rename_i heq
        rw [heq] at hne
        cases hadm
        exact hne
      · split at hadm <;> cases hadm
        simp
  split
  · simp
  split
  · rename_i err happ
    unfold MemoryStream.appendToStream at happ
    split at happ
    · rename_i hsplit
      cases happ
      rintro ⟨⟩
      exact splitBody_ne_fenced _ _ _ hsplit
    · cases happ
  · simp

theorem append_failed {data : Bytes} {opts : AppendOptions} {r : AppendResult}
    (h : s.append env path data opts = (s', r, some err)) :
    s'.streams = s.streams ∨ ∃ st, s.streams.lookup path = some st ∧ err ≠ .appendFenced ∧
      s'.streams = s.streams.insert path (st.touch (env.clock 2)) := by
  rcases (append_outcome h).2 with ⟨hs, -⟩ | ⟨st, st', hst, -, -, -, happ, hs⟩
  · exact .inl hs
  have hne := append_ne_fenced st (env.clock 2) (env.clock 3) data opts
  rw [happ] at hne
  rcases MemoryStream.append_ladder happ with ⟨rfl, -, -⟩ | ⟨_, _, -, -, -, -, herr⟩
  · exact .inr ⟨st, hst, fun heq => hne (congrArg some heq), hs⟩
  · cases herr

theorem CloseOutcome.failed {fence : Option AppendFence}
    (h : CloseOutcome s env path fence s' (some err)) : s'.streams = s.streams := by
  rcases h with ⟨hs, -⟩ | ⟨_, -, -, herr, -⟩
  · exact hs
  · cases herr

theorem closeStreamWithProducer_failed {opts : CloseProducerOptions}
    {res : Option CloseProducerResult}
    (h : s.closeStreamWithProducer env path opts = (s', res, some err)) :
    s'.streams = s.streams := by
  rcases (closeStreamWithProducer_outcome h).2 with ⟨hs, -⟩ | ⟨st, st', r, hst, -, -, hclose, -, hs⟩
  · exact hs
  rcases MemoryStream.closeStreamWithProducer_ladder hclose with ⟨rfl, -⟩ | ⟨_, -, -, -, -, herr⟩
  · rw [hs, insert_lookup hst]
  · cases herr

end Failures

/-- A failed call is inert exactly when it fails before it has dropped a stream. -/
theorem failed_inert_iff (hstep : Step s e s') (hcall : e.call.mutates = true)
    (herr : e.reply.err.isSome = true) : Inert s e s' ↔ failsEarly s e = true := by
  rcases Option.isSome_iff_exists.mp herr with ⟨err, herr⟩
  cases hstep.ran with
  | @create env path opts _ r hcreate =>
    cases r with
    | ok r => cases herr
    | error err' =>
      have hs' := create_failed hcreate
      cases hp : s.streams.lookup path with
      | none =>
        rw [hp] at hs'
        subst hs'
        simp [failsEarly, hp, Inert.refl]
      | some st =>
        rw [hp, Option.any_some] at hs'
        by_cases hexp : st.metadata.isExpiredAt (env.clock 0) = true
        · rw [if_pos hexp] at hs'
          subst hs'
          simp only [failsEarly, hp, Option.all_some, hexp, Bool.not_true, Bool.false_eq_true,
            iff_false]
          intro hinert
          have hpresent := hinert.present (by simp [Call.path, hp])
          simp [Call.path, remove] at hpresent
        · rw [if_neg hexp] at hs'
          subst hs'
          simp [failsEarly, hp, hexp, Inert.refl]
  | delete =>
    rcases delete_failed herr with ⟨hs, hall⟩ | ⟨⟨st, hst, hsoft⟩, hgone⟩
    · rw [hs]
      simp [failsEarly, hall, Inert.refl]
    · simp only [failsEarly, hst, Option.all_some, hsoft, Bool.false_eq_true, iff_false]
      intro hinert
      have hpresent := hinert.present (by simp [Call.path, hst])
      rw [Call.path, hgone] at hpresent
      cases hpresent
  | closeStream hr =>
    cases herr
    obtain ⟨hkept, hclose⟩ := closeStream_outcome hr
    exact iff_of_true (.of_streams hclose.failed hkept) rfl
  | closeStreamFenced hr =>
    cases herr
    obtain ⟨hkept, hclose⟩ := closeStreamFenced_outcome hr
    exact iff_of_true (.of_streams hclose.failed hkept) rfl
  | closeStreamWithProducer hr =>
    cases herr
    exact iff_of_true (.of_streams (closeStreamWithProducer_failed hr)
      (closeStreamWithProducer_outcome hr).1) rfl
  | @append env path _ _ _ _ _ hr =>
    cases herr
    have hmarkers := (append_outcome hr).1
    refine iff_of_true ?_ rfl
    rcases append_failed hr with hs | ⟨st, hst, hne, hs⟩
    · exact .of_streams hs hmarkers
    · refine ⟨?_, ⟨env.clock 2, ?_⟩, ?_, hmarkers⟩
      · intro q hq
        change q ≠ path at hq
        rw [hs, Finmap.lookup_insert_of_ne _ hq]
      · rw [hs, Call.path, Finmap.lookup_insert, hst, Option.map_some]
      · exact fun hfenced => absurd (Option.some.inj hfenced) hne
  | grantAppendFence hr =>
    rcases grantAppendFence_outcome hr with ⟨hs, -, hkept⟩ | ⟨rfl, -⟩
    · exact iff_of_true (.of_streams hs hkept) rfl
    · cases herr
  | sealAppendFence hr =>
    rcases sealAppendFence_outcome hr with ⟨rfl, -⟩ | ⟨-, res, rfl, -⟩
    · exact iff_of_true (.refl ..) rfl
    · cases herr
  | get | has | readPage | read | revokeAppendFence => cases hcall

def mismatchCalls : List (Env × Call) :=
  [(.frozen 0, .create [97] { initialData := [1], ttlSeconds := some 5 })]

theorem mismatchCalls_run : (empty.execGuarded (fun _ _ => true) mismatchCalls).isSome := by decide

theorem failed_inert_append :
    ∃ h s e s', Run h s ∧ Step s e s' ∧ e.reply.err = some .contentTypeMismatch ∧
      (∀ st, s'.streams.lookup [97] = some st → st.metadata.lastAccessedAt = 1) ∧
      Inert s e s' := by
  have hstep : Step (ran _ mismatchCalls mismatchCalls_run).2
      ⟨.frozen 1, .append [97] [2] { contentType := Bytes.ascii "text/plain" },
        .append {} (some .contentTypeMismatch)⟩
      ((ran _ mismatchCalls mismatchCalls_run).2.append (.frozen 1) [97] [2]
        { contentType := Bytes.ascii "text/plain" }).1 := by
    rfl
  refine ⟨_, _, _, _, ran_run mismatchCalls_run, hstep, rfl, ?_,
    (failed_inert_iff hstep rfl rfl).mpr rfl⟩
  intro st hst
  cases hst
  rfl

def expiredSourceCalls : List (Env × Call) :=
  [(.frozen 0, .create [97] { initialData := [1, 2, 3], ttlSeconds := some 1 }),
    (.frozen 1, .create [98] { forkedFrom := [97], ttlSeconds := some 100 })]

theorem expiredSourceCalls_run :
    (empty.execGuarded (fun _ _ => true) expiredSourceCalls).isSome := by decide

/-- A creation that fails on an expired source drops it, and its fork loses what it inherited. -/
theorem failed_drops_source :
    ∃ h s e s', Run h s ∧ Step s e s' ∧ e.call.mutates = true ∧
      e.reply.err = some .streamNotFound ∧ ¬ Inert s e s' ∧
      (s.read (.frozen (10 * 10 ^ 9)) [98] zeroOffset).map (·.2) =
        some (.ok ([⟨[1, 2, 3], ⟨0, 3⟩⟩], true)) ∧
      (s'.read (.frozen (10 * 10 ^ 9)) [98] zeroOffset).map (·.2) = some (.ok ([], false)) := by
  have hstep : Step (ran _ expiredSourceCalls expiredSourceCalls_run).2
      ⟨.frozen (10 * 10 ^ 9), .create [97] { forkedFrom := [99] },
        .create (.error .streamNotFound)⟩
      ((ran _ expiredSourceCalls expiredSourceCalls_run).2.remove [97]) := by
    rfl
  refine ⟨_, _, _, _, ran_run expiredSourceCalls_run, hstep, rfl, rfl, ?_, rfl, rfl⟩
  intro hinert
  have hpresent := hinert.present (by decide)
  revert hpresent
  decide

end MemoryStore

end Chronicle
