import Chronicle.Memory.Outcomes

/-! # The changes of a step

Every step of the store leaves the streams alone, updates one of them in place,
discards an expired one, creates a stream or a fork, or deletes along a chain
of sources.
-/

namespace Chronicle

structure MemoryStream.Fresh (st : MemoryStream) (source : Path) (base : Offset)
    (ds : List Bytes) : Prop where
  forkedFrom : st.metadata.forkedFrom = source
  forkOffset : st.metadata.forkOffset = base
  refCount : st.metadata.refCount = 0
  producers : st.metadata.producers = fun _ => none
  messages : st.messages = layOut base ds
  tail : st.metadata.currentOffset = endOffset base ds
  nonempty : ∀ d ∈ ds, d ≠ []

inductive Writes (e : Event) (p : Path) (st : MemoryStream) :
    List Bytes → Option ClosedByProducer → Prop
  | nothing {acc} (hw : e.written = none) : Writes e p st [] acc
  | body {data opts ds} (hcall : e.call = .append p data opts) (hw : e.written = some (p, data))
      (hds : splitBody st.metadata.contentType data false = .ok ds) :
      Writes e p st ds opts.producer

/-- A path is free for creation when nothing unexpired is stored under it. -/
def FreeAt (s : Streams) (e : Event) (p : Path) : Prop :=
  ∀ st, s.lookup p = some st → st.metadata.isExpiredAt (e.env.clock 0)

/-- The changes of the stream map that an event can make. -/
inductive Change (s : Streams) (e : Event) : Streams → Prop
  | same (hc : e.created = none) (ha : e.accepted = none) (hw : e.written = none) : Change s e s
  | update {p st ds acc st'} (hp : s.lookup p = some st) (hu : st.Update ds acc st')
      (hc : e.created = none) (ha : e.accepted = acc.map (p, ·)) (hw : Writes e p st ds acc) :
      Change s e (s.insert p st')
  | discard {p opts st} (hcall : e.call = .create p opts) (hp : s.lookup p = some st)
      (hfree : FreeAt s e p) (hc : e.created = none) : Change s e (s.erase p)
  | plain {p opts st ds} (hcall : e.call = .create p opts) (hfree : FreeAt s e p)
      (hc : e.created = some p) (hst : st.Fresh [] zeroOffset ds) : Change s e (s.insert p st)
  | fork {p opts source st ds requested forkOffset pfx} (hcall : e.call = .create p opts)
      (hfree : FreeAt s e p) (hc : e.created = some p) (hne : opts.forkedFrom ≠ [])
      (hself : opts.forkedFrom ≠ p) (hsource : s.lookup opts.forkedFrom = some source)
      (hrequested : requested ≤ source.metadata.currentOffset)
      (hresolve : MemoryStore.resolveFork (s.erase p) e.env.fuel source requested
        opts.forkSubOffset = some (.ok (forkOffset, pfx)))
      (hst : st.Fresh opts.forkedFrom forkOffset ds) :
      Change s e ((s.insert opts.forkedFrom
        (MemoryStore.setRefCount source (source.metadata.refCount + 1))).insert p st)
  | delete {p st} (hcall : e.call = .delete p) (hp : s.lookup p = some st)
      (href : ¬ 0 < st.metadata.refCount) : Change s e (MemoryStore.cascade s.keys.card s p).1

/-- The recursion of `deleteWithCascade`: a derivation is a run that ends. -/
inductive Deletes : Streams → Path → Streams → Option StoreError → Prop
  | absent {s p} (hp : s.lookup p = none) : Deletes s p s none
  | plain {s p st} (hp : s.lookup p = some st) (hf : st.metadata.forkedFrom = []) :
      Deletes s p (s.erase p) none
  | orphan {s p st} (hp : s.lookup p = some st) (hne : st.metadata.forkedFrom ≠ [])
      (hf : (s.erase p).lookup st.metadata.forkedFrom = none) : Deletes s p (s.erase p) none
  | underflow {s p st parent} (hp : s.lookup p = some st) (hne : st.metadata.forkedFrom ≠ [])
      (hf : (s.erase p).lookup st.metadata.forkedFrom = some parent)
      (href : parent.metadata.refCount - 1 < 0) :
      Deletes s p ((s.erase p).insert st.metadata.forkedFrom (MemoryStore.setRefCount parent 0))
        (some .refCountUnderflow)
  | release {s p st parent} (hp : s.lookup p = some st) (hne : st.metadata.forkedFrom ≠ [])
      (hf : (s.erase p).lookup st.metadata.forkedFrom = some parent)
      (href : ¬ parent.metadata.refCount - 1 < 0)
      (hkeep : ¬ (parent.metadata.refCount - 1 = 0 ∧ parent.metadata.softDeleted)) :
      Deletes s p ((s.erase p).insert st.metadata.forkedFrom
        (MemoryStore.setRefCount parent (parent.metadata.refCount - 1))) none
  | next {s p st parent t err} (hp : s.lookup p = some st) (hne : st.metadata.forkedFrom ≠ [])
      (hf : (s.erase p).lookup st.metadata.forkedFrom = some parent)
      (href : parent.metadata.refCount - 1 = 0) (hsoft : parent.metadata.softDeleted)
      (hrest : Deletes ((s.erase p).insert st.metadata.forkedFrom
        (MemoryStore.setRefCount parent (parent.metadata.refCount - 1)))
        st.metadata.forkedFrom t err) : Deletes s p t err

variable {q : Path} {st : MemoryStream}

section Lookup

variable {s t : Streams} {p : Path}

theorem lookup_of_lookup_erase (h : (s.erase p).lookup q = some st) :
    q ≠ p ∧ s.lookup q = some st := by
  by_cases hq : q = p
  · subst hq
    simp at h
  · rw [Finmap.lookup_erase_ne hq] at h
    exact ⟨hq, h⟩

theorem lookup_of_lookup_insert {st₀ : MemoryStream} (h : (s.insert p st₀).lookup q = some st) :
    q = p ∧ st = st₀ ∨ q ≠ p ∧ s.lookup q = some st := by
  by_cases hq : q = p
  · subst hq
    rw [Finmap.lookup_insert, Option.some.injEq] at h
    exact .inl ⟨rfl, h.symm⟩
  · rw [Finmap.lookup_insert_of_ne _ hq] at h
    exact .inr ⟨hq, h⟩

theorem card_release {f : Path} {parent : MemoryStream} (hp : s.lookup p = some st)
    (hf : (s.erase p).lookup f = some parent) (parent' : MemoryStream) :
    ((s.erase p).insert f parent').keys.card + 1 = s.keys.card := by
  have hkeys : ((s.erase p).insert f parent').keys = s.keys.erase p := by
    ext q
    rw [Finmap.mem_keys, Finmap.mem_insert, Finmap.mem_erase, Finset.mem_erase, Finmap.mem_keys]
    constructor
    · rintro (rfl | h)
      · obtain ⟨hne, hlookup⟩ := lookup_of_lookup_erase hf
        exact ⟨hne, Finmap.mem_of_lookup_eq_some hlookup⟩
      · exact h
    · exact Or.inr
  rw [hkeys]
  exact Finset.card_erase_add_one (Finmap.mem_keys.2 (Finmap.mem_of_lookup_eq_some hp))

theorem deletes_cascade (n : ℕ) (s : Streams) (p : Path) (hn : s.keys.card ≤ n) :
    Deletes s p (MemoryStore.cascade n s p).1 (MemoryStore.cascade n s p).2 := by
  induction n generalizing s p with
  | zero =>
    refine .absent (Finmap.lookup_eq_none.2 ?_)
    rw [← Finmap.mem_keys, Finset.card_eq_zero.1 (Nat.le_zero.1 hn)]
    exact Finset.notMem_empty p
  | succ n ih =>
    unfold MemoryStore.cascade
    split
    · exact .absent ‹_›
    rename_i st hp
    dsimp only
    split
    · exact .plain hp ‹_›
    rename_i hne
    split
    · exact .orphan hp hne ‹_›
    rename_i parent hf
    split
    · exact .underflow hp hne hf ‹_›
    rename_i href
    split
    · rename_i hlast
      refine .next hp hne hf hlast.1 hlast.2 (ih _ _ ?_)
      have := card_release hp hf (MemoryStore.setRefCount parent (parent.metadata.refCount - 1))
      omega
    · exact .release hp hne hf href ‹_›

/-- Whether two stream maps agree up to reference counts where the second has a stream. -/
def Recounted (s t : Streams) : Prop :=
  ∀ q st', t.lookup q = some st' → ∃ st rc, s.lookup q = some st ∧
    st' = MemoryStore.setRefCount st rc

theorem recounted_release {f : Path} {rc : Int32}
    (hf : (s.erase p).lookup f = some st) :
    Recounted s ((s.erase p).insert f (MemoryStore.setRefCount st rc)) := by
  intro q st' h
  obtain ⟨rfl, rfl⟩ | ⟨-, h⟩ := lookup_of_lookup_insert h
  · exact ⟨st, rc, (lookup_of_lookup_erase hf).2, rfl⟩
  · exact ⟨st', st'.metadata.refCount, (lookup_of_lookup_erase h).2, rfl⟩

/-- A cascade changes nothing but reference counts of the streams that it leaves. -/
theorem Deletes.recounted {err : Option StoreError} (h : Deletes s p t err) : Recounted s t := by
  induction h with
  | absent => exact fun q st h => ⟨st, st.metadata.refCount, h, rfl⟩
  | plain | orphan => exact fun q st h => ⟨st, st.metadata.refCount, (lookup_of_lookup_erase h).2, rfl⟩
  | underflow _ _ hf => exact recounted_release hf
  | release _ _ hf => exact recounted_release hf
  | next _ _ hf _ _ _ ih =>
    intro q st' h
    obtain ⟨st₁, rc, h₁, rfl⟩ := ih q st' h
    obtain ⟨st, rc', h₂, rfl⟩ := recounted_release hf q st₁ h₁
    exact ⟨st, rc, h₂, rfl⟩

end Lookup

/-- The stream under one path was at most changed in mutable metadata. -/
inductive Touched (s : Streams) (p : Path) : Streams → Prop
  | same : Touched s p s
  | update {st st'} (hp : s.lookup p = some st) (hi : st.Idle st') : Touched s p (s.insert p st')

variable {s s' s'' : Streams} {p : Path} {e : Event}

theorem Touched.change (h : Touched s p s') (hc : e.created = none) (ha : e.accepted = none)
    (hw : e.written = none) : Change s e s' := by
  cases h with
  | same => exact .same hc ha hw
  | update hp hi => exact .update hp hi.update hc ha (.nothing hw)

theorem MemoryStream.Look.idle {st st' : MemoryStream} (h : st.Look st') : st.Idle st' := by
  cases h with
  | touch now => exact st.idle_touch now
  | softDelete => exact st.idle_softDelete

theorem MemoryStore.Looked.touched {s s' : MemoryStore} (h : MemoryStore.Looked p s s') :
    Touched s.streams p s'.streams := by
  rcases h with rfl | ⟨st, st', hst, hlook, rfl⟩
  · exact .same
  have hidle : st.Idle st' := by
    induction hlook with
    | refl => exact .refl st
    | tail _ hlook ih => exact ih.trans hlook.idle
  exact .update hst hidle

theorem MemoryStore.Records.touched {authority wake : Bytes} {g : ℤ}
    (h : MemoryStore.Records s p authority g wake s') : Touched s p s' := by
  obtain ⟨st, hst, -, -, rfl⟩ := h
  exact .update hst (st.idle_recordSeal _ _ _)

theorem MemoryStore.CloseOutcome.touched {s s' : MemoryStore} {env : Env}
    {fence : Option AppendFence} {err : Option StoreError}
    (h : MemoryStore.CloseOutcome s env p fence s' err) : Touched s.streams p s'.streams := by
  rcases h with ⟨hs, -⟩ | ⟨st, hst, -, -, hs⟩
  · exact hs ▸ .same
  · exact hs ▸ .update hst st.idle_closeStream

section Create

namespace MemoryStore

variable {s s' : MemoryStore} {env : Env} {path : Path} {st : MemoryStream} {opts : CreateOptions}
  {r : CreateResult}

theorem withInitialData_ok {st' : MemoryStream} {data : Bytes}
    (h : withInitialData st data = .ok st') :
    ∃ ds : List Bytes, (∀ d ∈ ds, d ≠ []) ∧
      st' = { st with
        messages := st.messages ++ layOut st.metadata.currentOffset ds
        metadata := { st.metadata with
          currentOffset := endOffset st.metadata.currentOffset ds } } := by
  unfold withInitialData at h
  split at h
  · cases h
    exact ⟨[], by simp, by simp⟩
  · rename_i hdata
    split at h
    · cases h
    · rename_i happ
      cases h
      obtain ⟨ds, hds, rfl, rfl⟩ := MemoryStream.appendToStream_ok happ
      exact ⟨ds, splitBody_ne_nil hds hdata, rfl⟩

/-- What creation starts from: new metadata and the materialized bytes. -/
theorem materialize_fresh {md : StreamMetadata} {pfx data : Bytes}
    (hbase : md.currentOffset = md.forkOffset) (href : md.refCount = 0)
    (hprod : md.producers = fun _ => none)
    (h : withInitialData (materialize md pfx) data = .ok st) :
    ∃ ds, st.Fresh md.forkedFrom md.forkOffset ds := by
  obtain ⟨ds, hds, rfl⟩ := withInitialData_ok h
  unfold materialize
  split
  · exact ⟨ds, rfl, rfl, href, hprod, by simp [hbase], by simp [hbase], hds⟩
  · rename_i hpfx
    refine ⟨pfx :: ds, rfl, rfl, href, hprod, ?_, ?_, by simpa [hpfx] using hds⟩
    · simp [layOut, hbase]
    · simp [endOffset, hbase]

theorem insert_lookup {streams : Streams} (h : streams.lookup path = some st) :
    streams.insert path st = streams := by
  refine Finmap.ext_lookup fun q => ?_
  by_cases hq : q = path
  · subst hq
    rw [Finmap.lookup_insert, h]
  · rw [Finmap.lookup_insert_of_ne _ hq]

theorem addRef_rollback (s : MemoryStore) (q : Path) : (s.addRef q 1).addRef q (-1) = s := by
  unfold addRef
  cases hq : s.streams.lookup q with
  | none => simp [hq]
  | some st =>
    have hcancel : st.metadata.refCount + 1 + -1 = st.metadata.refCount := by
      rw [Int32.add_assoc, show (1 : Int32) + -1 = 0 by decide, Int32.add_zero]
    simp only [set, Finmap.lookup_insert, Finmap.insert_insert, setRefCount, hcancel]
    rw [insert_lookup hq]

theorem insert_erase (streams : Streams) (st : MemoryStream) :
    (streams.erase path).insert path st = streams.insert path st := by
  refine Finmap.ext_lookup fun q => ?_
  by_cases hq : q = path
  · subst hq
    rw [Finmap.lookup_insert, Finmap.lookup_insert]
  · rw [Finmap.lookup_insert_of_ne _ hq, Finmap.lookup_insert_of_ne _ hq,
      Finmap.lookup_erase_ne hq]

/-- How the creation of a stream under a free path ends. -/
inductive Creates (s : MemoryStore) (env : Env) (path : Path) (opts : CreateOptions) :
    MemoryStore → CreateResult → Prop
  | failed {err} : Creates s env path opts s (.error err)
  | plain {incarnation st} (hfork : opts.forkedFrom = [])
      (hst : withInitialData { metadata := plainMetadata path incarnation (env.clock 2) opts }
        opts.initialData = .ok st) :
      Creates s env path opts (s.set path st) (.ok (st.metadata, true))
  | fork {incarnation source forkOffset pfx st} (hfork : opts.forkedFrom ≠ [])
      (hsource : s.streams.lookup opts.forkedFrom = some source)
      (hsoft : source.metadata.softDeleted = false)
      (hle : opts.forkOffset.getD source.metadata.currentOffset ≤ source.metadata.currentOffset)
      (hres : resolveFork s.streams env.fuel source
        (opts.forkOffset.getD source.metadata.currentOffset) opts.forkSubOffset =
          some (.ok (forkOffset, pfx)))
      (hst : withInitialData (materialize (forkMetadata path incarnation (env.clock 2) opts
        source.metadata forkOffset) pfx) opts.initialData = .ok st) :
      Creates s env path opts ((s.addRef opts.forkedFrom 1).set path st) (.ok (st.metadata, true))

theorem createAbsent_creates (h : s.createAbsent env path opts = some (s', r)) :
    Creates s env path opts s' r := by
  unfold createAbsent at h
  split at h
  · cases h; exact .failed
  split at h
  · rename_i hfork
    unfold createFork at h
    split at h
    · cases h; exact .failed
    rename_i source hsource
    split at h
    · cases h; exact .failed
    rename_i hsoft
    split at h
    · cases h; exact .failed
    split at h
    · cases h; exact .failed
    dsimp only at h
    split at h
    · cases h; exact .failed
    rename_i hrange
    simp only [Bool.or_eq_true, Offset.lessThan_iff, not_or, not_lt] at hrange
    obtain ⟨res, hres, heq⟩ := Option.map_eq_some_iff.mp h
    split at heq
    · cases heq; exact .failed
    split at heq
    · cases heq
      rw [addRef_rollback]
      exact .failed
    · rename_i st hst
      cases heq
      exact .fork hfork hsource (by simpa using hsoft) hrange.2 hres hst
  · rename_i hfork
    dsimp only at h
    split at h
    · cases h; exact .failed
    · rename_i st hst
      cases h
      exact .plain (not_not.mp hfork) hst

theorem erase_absent {streams : Streams} (h : streams.lookup path = none) :
    streams.erase path = streams := by
  refine Finmap.ext_lookup fun q => ?_
  by_cases hq : q = path
  · subst hq
    rw [Finmap.lookup_erase, h]
  · rw [Finmap.lookup_erase_ne hq]

theorem remove_of_absent (h : s.streams.lookup path = none) : s.remove path = s := by
  rw [remove, erase_absent h]

theorem create_cases (h : s.create env path opts = some (s', r)) :
    (s' = s ∧ (∀ md, r ≠ .ok (md, true)) ∧ r ≠ .error .invalidForkSubOffset ∧
      (s.streams.lookup path).all (fun st => st.metadata.isExpiredAt (env.clock 0)) = false) ∨
    ((∀ st, s.streams.lookup path = some st → st.metadata.isExpiredAt (env.clock 0)) ∧
      (s.remove path).createAbsent env path opts = some (s', r)) := by
  unfold create at h
  split at h
  · rename_i habs
    rw [remove_of_absent habs]
    exact .inr ⟨by simp [habs], h⟩
  · rename_i existing hex
    split at h
    · rename_i hexp
      exact .inr ⟨by simpa [hex] using hexp, h⟩
    · rename_i hexp
      split at h
      · cases h; exact .inl ⟨rfl, by simp, by simp, by simpa [hex] using hexp⟩
      · split at h <;> cases h <;>
          exact .inl ⟨rfl, by simp, by simp, by simpa [hex] using hexp⟩

theorem create_change (h : s.create env path opts = some (s', r)) :
    Change s.streams ⟨env, .create path opts, .create r⟩ s'.streams := by
  obtain ⟨rfl, hr, -⟩ | ⟨hfree, h⟩ := create_cases h
  · refine .same ?_ rfl rfl
    unfold Event.created
    split
    · rename_i heq
      cases heq
      exact absurd rfl (hr _)
    · rfl
  cases createAbsent_creates h with
  | failed =>
    cases hp : s.streams.lookup path with
    | none =>
      rw [remove_of_absent hp]
      exact .same rfl rfl rfl
    | some st => exact .discard rfl hp hfree rfl
  | plain hfork hst =>
    have hst' : withInitialData (materialize _ []) opts.initialData = .ok _ := hst
    obtain ⟨ds, hds⟩ := materialize_fresh (by rfl) (by rfl) (by rfl) hst'
    simp only [set, remove, insert_erase]
    exact .plain rfl hfree rfl hds
  | fork hne hsource hsoft hle hres hst =>
    obtain ⟨ds, hds⟩ := materialize_fresh (by rfl) (by rfl) (by rfl) hst
    obtain ⟨hself, hlookup⟩ := lookup_of_lookup_erase hsource
    simp only [set, addRef, hsource]
    simp only [remove]
    rw [Finmap.insert_insert_of_ne _ hself, insert_erase,
      Finmap.insert_insert_of_ne _ hself.symm]
    exact .fork rfl hfree rfl hne hself hlookup hle hres hds

end MemoryStore

end Create

section Held

/-- The stream under a path, if there still is one, was there before, and is related to what it
was. -/
def HeldAt (R : MemoryStream → MemoryStream → Prop) (s s' : Streams) (p : Path) : Prop :=
  ∀ st', s'.lookup p = some st' → ∃ st, s.lookup p = some st ∧ R st st'

/-- A preorder that creations and deletions elsewhere respect. -/
structure Lasting (R : MemoryStream → MemoryStream → Prop) : Prop where
  refl : ∀ st, R st st
  trans : ∀ {st st' st''}, R st st' → R st' st'' → R st st''
  recount : ∀ st n, R st (MemoryStore.setRefCount st n)
  softDelete : ∀ st : MemoryStream,
    R st { st with metadata := { st.metadata with softDeleted := true } }

variable {R : MemoryStream → MemoryStream → Prop} {s s' s'' : Streams} {p : Path}
  {st' : MemoryStream}

theorem HeldAt.trans (hR : ∀ {st st' st''}, R st st' → R st' st'' → R st st'')
    (h : HeldAt R s s' p) (h' : HeldAt R s' s'' p) : HeldAt R s s'' p := by
  intro st'' hst''
  obtain ⟨st', hst', hr'⟩ := h' st'' hst''
  obtain ⟨st, hst, hr⟩ := h st' hst'
  exact ⟨st, hst, hR hr hr'⟩

theorem Recounted.heldAt (hR : Lasting R) (h : Recounted s s') (p : Path) : HeldAt R s s' p := by
  intro st' hst'
  obtain ⟨st, n, hst, rfl⟩ := h p st' hst'
  exact ⟨st, hst, hR.recount st n⟩

variable (hR : ∀ st, R st st)

include hR

theorem HeldAt.refl (s : Streams) (p : Path) : HeldAt R s s p := fun st h => ⟨st, h, hR st⟩

theorem heldAt_insert (hq : s.lookup q = some st) (h : R st st') (p : Path) :
    HeldAt R s (s.insert q st') p := by
  intro st'' hst''
  rcases lookup_of_lookup_insert hst'' with ⟨rfl, rfl⟩ | ⟨-, hst''⟩
  · exact ⟨st, hq, h⟩
  · exact ⟨st'', hst'', hR st''⟩

theorem heldAt_insert_of_ne (hne : p ≠ q) (st' : MemoryStream) :
    HeldAt R s (s.insert q st') p := by
  intro st'' hst''
  rw [Finmap.lookup_insert_of_ne _ hne] at hst''
  exact ⟨st'', hst'', hR st''⟩

theorem heldAt_erase (q p : Path) : HeldAt R s (s.erase q) p :=
  fun st hst => ⟨st, (lookup_of_lookup_erase hst).2, hR st⟩

omit hR

namespace MemoryStore

variable {s s' : MemoryStore} {env : Env} {path : Path}

theorem delete_heldAt (hR : Lasting R) {r : Option StoreError} (h : s.delete path = (s', r))
    (p : Path) : HeldAt R s.streams s'.streams p := by
  unfold delete at h
  split at h
  · cases h; exact .refl hR.refl _ _
  rename_i st hst
  split at h
  · cases h; exact .refl hR.refl _ _
  split at h
  · cases h; exact heldAt_insert hR.refl hst (hR.softDelete st) p
  · cases h; exact (deletes_cascade _ _ _ le_rfl).recounted.heldAt hR p

theorem create_heldAt (hR : Lasting R) {opts : CreateOptions}
    {r : CreateResult} (h : s.create env path opts = some (s', r))
    (hp : (⟨env, .create path opts, .create r⟩ : Event).created ≠ some p) :
    HeldAt R s.streams s'.streams p := by
  rcases create_cases h with ⟨rfl, -⟩ | ⟨-, h⟩
  · exact .refl hR.refl _ _
  have hremove : HeldAt R s.streams (s.remove path).streams p := heldAt_erase hR.refl path p
  cases createAbsent_creates h with
  | failed => exact hremove
  | @plain _ st =>
    have hne : p ≠ path := fun heq => hp (by rw [heq]; rfl)
    exact hremove.trans hR.trans (heldAt_insert_of_ne hR.refl hne st)
  | @fork _ source _ _ st _ hsource =>
    have hne : p ≠ path := fun heq => hp (by rw [heq]; rfl)
    refine hremove.trans hR.trans (HeldAt.trans hR.trans ?_ (heldAt_insert_of_ne hR.refl hne st))
    rw [addRef, hsource]
    exact heldAt_insert hR.refl hsource (hR.recount source _) p

end MemoryStore

end Held

section Mutations

namespace MemoryStore

variable {s s' : MemoryStore} {env : Env} {path : Path} {err : Option StoreError}

theorem delete_change {r : Option StoreError} (h : s.delete path = (s', r)) :
    Change s.streams ⟨env, .delete path, .delete r⟩ s'.streams := by
  unfold delete at h
  split at h
  · cases h; exact .same rfl rfl rfl
  rename_i st hst
  split at h
  · cases h; exact .same rfl rfl rfl
  split at h
  · cases h; exact .update hst st.idle_softDelete.update rfl rfl (.nothing rfl)
  · rename_i href
    cases h
    exact .delete rfl hst href

theorem closeStreamWithProducer_change {opts : CloseProducerOptions}
    {res : Option CloseProducerResult} (h : s.closeStreamWithProducer env path opts = (s', res, err)) :
    Change s.streams ⟨env, .closeStreamWithProducer path opts, .closeProducer res err⟩
      s'.streams := by
  rcases (closeStreamWithProducer_outcome h).2 with
    ⟨hs, hr, -⟩ | ⟨st, st', r, hst, -, -, hclose, rfl, hs⟩
  · rw [hs]
    refine .same rfl ?_ rfl
    cases res with
    | none => rfl
    | some r => exact if_neg (by simp [hr r rfl])
  · rw [hs]
    obtain ⟨rfl, hr⟩ | ⟨hu, hr⟩ := st.closeStreamWithProducer_cases hclose
    · exact .update hst (MemoryStream.Idle.refl _).update rfl (if_neg hr) (.nothing rfl)
    · exact .update hst hu rfl (if_pos hr) (.nothing rfl)

theorem append_change {data : Bytes} {opts : AppendOptions} {r : AppendResult}
    (h : s.append env path data opts = (s', r, err)) :
    Change s.streams ⟨env, .append path data opts, .append r err⟩ s'.streams := by
  rcases (append_outcome h).2 with ⟨hs, hr, herr⟩ | ⟨st, st', hst, -, -, -, happ, hs⟩
  · rw [hs]
    obtain ⟨err, rfl⟩ := Option.isSome_iff_exists.mp herr
    exact .same rfl (if_neg (by simp [hr])) rfl
  · rw [hs]
    obtain ⟨rfl, hr, herr⟩ | ⟨ds, hds, hu, rfl, hr⟩ := st.append_cases happ
    · refine .update hst (st.idle_touch _).update rfl (if_neg hr) (.nothing ?_)
      cases err with
      | none => exact if_pos (herr rfl)
      | some _ => rfl
    · refine .update hst hu rfl ?_ (.body rfl (if_neg ?_) hds)
      · cases hp : opts.producer with
        | none => simp [Event.accepted, hp]
        | some p => simp [Event.accepted, hr, hp]
      · rw [hr]; split <;> simp

/-- Every step is one of the changes. -/
theorem step_change {e : Event} (h : Step s e s') : Change s.streams e s'.streams := by
  cases h.ran with
  | create hr => exact create_change hr
  | get | has => exact .same rfl rfl rfl
  | delete => exact delete_change rfl
  | closeStream hr => exact (closeStream_outcome hr).2.touched.change rfl rfl rfl
  | closeStreamFenced hr => exact (closeStreamFenced_outcome hr).2.touched.change rfl rfl rfl
  | closeStreamWithProducer hr => exact closeStreamWithProducer_change hr
  | append hr => exact append_change hr
  | readPage hr => exact (readPage_looked hr).touched.change rfl rfl rfl
  | read hr => exact (readPages_looked hr).touched.change rfl rfl rfl
  | grantAppendFence hr =>
    rcases grantAppendFence_streams hr with hs | ⟨g, wake, hs⟩
    · exact hs ▸ .same rfl rfl rfl
    · exact hs.touched.change rfl rfl rfl
  | revokeAppendFence hr => exact revokeAppendFence_streams hr ▸ .same rfl rfl rfl
  | sealAppendFence hr =>
    rcases sealAppendFence_streams hr with hs | hs
    · exact hs ▸ .same rfl rfl rfl
    · exact hs.touched.change rfl rfl rfl

end MemoryStore

end Mutations

end Chronicle
