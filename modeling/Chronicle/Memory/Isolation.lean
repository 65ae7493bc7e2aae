import Chronicle.Memory.Drain

/-! # Fork isolation

What a reader sees of a stream is what it saw after the creation of the stream,
followed by what was appended to that stream since. Calls on other paths change
nothing of it, as long as no creation replaces a stream that has forks and every
append carries data.
-/

namespace Chronicle

variable {s s' t : Streams} {e : Event} {p q x f : Path} {st st' : MemoryStream}

section Frame

/-- Whether two streams agree in all that a read across the chain looks at. -/
structure MemoryStream.Mirrors (st st' : MemoryStream) : Prop where
  forkedFrom : st'.metadata.forkedFrom = st.metadata.forkedFrom
  forkOffset : st'.metadata.forkOffset = st.metadata.forkOffset
  messages : st'.messages = st.messages
  contentType : st'.metadata.contentType = st.metadata.contentType
  tail : st'.metadata.currentOffset = st.metadata.currentOffset

theorem MemoryStream.Mirrors.refl (st : MemoryStream) : st.Mirrors st :=
  ⟨rfl, rfl, rfl, rfl, rfl⟩

theorem MemoryStream.mirrors_recount (st : MemoryStream) (rc : Int32) :
    st.Mirrors (MemoryStore.setRefCount st rc) :=
  ⟨rfl, rfl, rfl, rfl, rfl⟩

/-- The streams of a set read alike in two maps when the second has them as the
first, and their sources belong to the set and are present. -/
theorem visible_frame {D : Set Path}
    (hD : ∀ q ∈ D, ∀ st', t.lookup q = some st' → ∃ st, s.lookup q = some st ∧ st.Mirrors st')
    (hclosed : ∀ q ∈ D, ∀ f, sourceOf t q = some f → f ∈ D ∧ (t.lookup f).isSome)
    (hpD : p ∈ D) (hp : s.lookup p = some st) (hp' : t.lookup p = some st') (n : ℕ) :
    visible t n st' = visible s n st := by
  induction n generalizing p st st' with
  | zero => rfl
  | succ n ih =>
    rcases hD p hpD st' hp' with ⟨st₁, hp₁, hmirror⟩
    cases hp.symm.trans hp₁
    unfold visible
    rw [hmirror.forkedFrom, hmirror.forkOffset, hmirror.messages]
    by_cases hroot : st.metadata.forkedFrom = []
    · rw [if_pos hroot, if_pos hroot]
    · rw [if_neg hroot, if_neg hroot]
      have hsource : sourceOf t p = some st.metadata.forkedFrom := by
        rw [sourceOf_of_lookup hp', source_eq_some]
        exact ⟨hmirror.forkedFrom, hroot⟩
      rcases hclosed p hpD _ hsource with ⟨hfD, hsome⟩
      rcases Option.isSome_iff_exists.mp hsome with ⟨source', hf'⟩
      rcases hD _ hfD source' hf' with ⟨source, hf, -⟩
      rw [hf, hf']
      dsimp only
      rw [ih hfD hf hf']

end Frame

section Isolated

/-- What safe runs keep: bounded counts and ranks, a layout without gaps, and no
fork offset beyond the tail of its source. -/
structure Isolated (s : Streams) : Prop where
  refs : RefInvariant (· ≤ ·) s
  ranked : Ranked s
  laid : LaidOut s
  covers : ∀ x stx, s.lookup x = some stx → CoversForks s x stx

theorem covers_insert (h : ∀ x stx, s.lookup x = some stx → CoversForks s x stx)
    (hforks : forksOf s p = ∅) (hself : st.source ≠ some p)
    (hst : ∀ f source, st.source = some f → s.lookup f = some source →
      st.metadata.forkOffset ≤ source.metadata.currentOffset) :
    ∀ x stx, (s.insert p st).lookup x = some stx → CoversForks (s.insert p st) x stx := by
  intro x stx hx q stq hq hsource
  rcases lookup_of_lookup_insert hx with ⟨rfl, rfl⟩ | ⟨-, hx₀⟩
  · rcases lookup_of_lookup_insert hq with ⟨rfl, rfl⟩ | ⟨-, hq⟩
    · exact absurd hsource hself
    · have hmem : q ∈ forksOf s x := mem_forksOf.mpr (sourceOf_of_lookup hq ▸ hsource)
      rw [hforks] at hmem
      cases hmem
  · rcases lookup_of_lookup_insert hq with ⟨rfl, rfl⟩ | ⟨-, hq⟩
    · exact hst x stx hsource hx₀
    · exact h x stx hx₀ q stq hq hsource

/-- Covering looks at sources, fork offsets and tails only. -/
theorem covers_of_le (h : ∀ x stx, s.lookup x = some stx → CoversForks s x stx)
    (hle : ∀ q st', t.lookup q = some st' → ∃ st, s.lookup q = some st ∧
      st'.source = st.source ∧ st'.metadata.forkOffset = st.metadata.forkOffset ∧
      st.metadata.currentOffset ≤ st'.metadata.currentOffset) :
    ∀ x stx, t.lookup x = some stx → CoversForks t x stx := by
  intro x stx hx q stq hq hsource
  rcases hle x stx hx with ⟨stx₀, hx₀, -, -, htail⟩
  rcases hle q stq hq with ⟨stq₀, hq₀, hsource₀, hoffset, -⟩
  rw [hoffset]
  exact (h x stx₀ hx₀ q stq₀ hq₀ (hsource₀ ▸ hsource)).trans htail

theorem Change.covers (hchange : Change s e s') (h : Isolated s) (hsrc : keepsSources s e) :
    ∀ x stx, s'.lookup x = some stx → CoversForks s' x stx := by
  cases hchange with
  | same => exact h.covers
  | update hp hu =>
    refine covers_of_le h.covers fun q st' hq => ?_
    rcases lookup_of_lookup_insert hq with ⟨rfl, rfl⟩ | ⟨-, hq⟩
    · exact ⟨_, hp, source_congr hu.forkedFrom, hu.forkOffset, hu.tail ▸ le_endOffset _ _⟩
    · exact ⟨st', hq, rfl, rfl, le_rfl⟩
  | discard =>
    exact covers_of_le h.covers fun q st' hq =>
      ⟨st', (lookup_of_lookup_erase hq).2, rfl, rfl, le_rfl⟩
  | plain hcall hfree _ hst =>
    have hsource : ∀ f, MemoryStream.source _ ≠ some f := fun f hf =>
      (source_eq_some.mp hf).2 ((source_eq_some.mp hf).1 ▸ hst.forkedFrom)
    exact covers_insert h.covers (h.refs.forksOf_free hsrc hcall hfree) (hsource _)
      fun f source hf => absurd hf (hsource f)
  | @fork p opts source st _ _ forkOffset _ hcall hfree _ hne hself hsource hrequested hresolve hst =>
    have hle := resolveFork_le (h.laid _ _ hsource) hrequested hresolve
    have hfrom := source_eq_some.mpr ⟨hst.forkedFrom, hne⟩
    refine covers_insert (covers_of_le h.covers fun q st' hq => ?_) ?_ ?_ ?_
    · rcases lookup_of_lookup_insert hq with ⟨rfl, rfl⟩ | ⟨-, hq⟩
      · exact ⟨source, hsource, rfl, rfl, le_rfl⟩
      · exact ⟨st', hq, rfl, rfl, le_rfl⟩
    · rw [forksOf_insert_same hsource (by rfl)]
      exact h.refs.forksOf_free hsrc hcall hfree
    · rw [hfrom]
      simpa using hself
    · intro f source' hf hsource'
      cases hfrom.symm.trans hf
      rw [Finmap.lookup_insert] at hsource'
      cases hsource'
      rw [hst.forkOffset]
      exact hle
  | delete =>
    refine covers_of_le h.covers fun q st' hq => ?_
    rcases (deletes_cascade _ _ _ le_rfl).recounted q st' hq with ⟨st, rc, hst, rfl⟩
    exact ⟨st, hst, rfl, rfl, le_rfl⟩

theorem Change.isolated (hchange : Change s e s') (h : Isolated s) (hsrc : keepsSources s e)
    (hfit : countsFit s e) (hdata : appendsData e) : Isolated s' :=
  ⟨hchange.refInvariant counting_le h.refs hsrc hfit (.inr fun a b h => by omega),
    hchange.ranked h.refs h.ranked hsrc, hchange.laidOut h.laid hdata, hchange.covers h hsrc⟩

end Isolated

section Own

def Event.bodyOn (p : Path) (e : Event) : Option Bytes :=
  e.written.bind fun (q, data) => if q = p then some data else none

def bodiesOf (p : Path) (h : List Event) : List Bytes := h.filterMap (Event.bodyOn p)

theorem bodiesOf_snoc (p : Path) (h : List Event) (e : Event) :
    bodiesOf p (h ++ [e]) = bodiesOf p h ++ (e.bodyOn p).toList := by
  simp only [bodiesOf, List.filterMap_append, List.filterMap_cons, List.filterMap_nil]
  cases e.bodyOn p <;> rfl

/-- The messages that a sequence of bodies is split into. -/
inductive Splits (contentType : Bytes) : List Bytes → List Bytes → Prop
  | nil : Splits contentType [] []
  | cons {body bodies ds ds'} (hbody : splitBody contentType body false = .ok ds)
      (hrest : Splits contentType bodies ds') : Splits contentType (body :: bodies) (ds ++ ds')

theorem Splits.append {ct : Bytes} {bodies bodies' ds ds' : List Bytes} (h : Splits ct bodies ds)
    (h' : Splits ct bodies' ds') : Splits ct (bodies ++ bodies') (ds ++ ds') := by
  induction h with
  | nil => exact h'
  | cons hbody _ ih =>
    rw [List.cons_append, List.append_assoc]
    exact .cons hbody ih

theorem bodyOn_of_not_append (hcall : ∀ x data opts, e.call ≠ .append x data opts) (p : Path) :
    e.bodyOn p = none := by
  unfold Event.bodyOn Event.written
  split
  · rename_i path data opts _ hc _
    exact absurd hc (hcall path data opts)
  · rfl

/-- What one event does to the stream under a path that it does not create: the
stream was there before, and it gains the split of the body that the event
appended to it. -/
structure Gains (s : Streams) (e : Event) (s' : Streams) (p : Path) (st' : MemoryStream)
    (st : MemoryStream) (ds : List Bytes) : Prop where
  lookup : s.lookup p = some st
  splits : Splits st.metadata.contentType (e.bodyOn p).toList ds
  contentType : st'.metadata.contentType = st.metadata.contentType
  tail : st'.metadata.currentOffset = endOffset st.metadata.currentOffset ds
  visible : ∀ n vis, visible s n st = some vis →
    visible s' n st' = some (vis ++ layOut st.metadata.currentOffset ds)

theorem Gains.nothing {D : Set Path} (hbody : e.bodyOn p = none)
    (hD : ∀ q ∈ D, ∀ st', s'.lookup q = some st' → ∃ st, s.lookup q = some st ∧ st.Mirrors st')
    (hclosed : ∀ q ∈ D, ∀ f, sourceOf s' q = some f → f ∈ D ∧ (s'.lookup f).isSome)
    (hpD : p ∈ D) (hp' : s'.lookup p = some st') : ∃ st ds, Gains s e s' p st' st ds := by
  rcases hD p hpD st' hp' with ⟨st, hp, hmirror⟩
  refine ⟨st, [], hp, ?_, hmirror.contentType, hmirror.tail, fun n vis hvis => ?_⟩
  · rw [hbody]
    exact .nil
  · rw [visible_frame hD hclosed hpD hp hp', hvis, layOut_nil, List.append_nil]

theorem Gains.other (hbody : e.bodyOn p = none) (hrefs : RefInvariant (· ≤ ·) s')
    (hforks : forksOf s x = ∅)
    (hsame : ∀ q ≠ x, ∀ st', s'.lookup q = some st' → ∃ st, s.lookup q = some st ∧ st.Mirrors st')
    (hpx : p ≠ x) (hp' : s'.lookup p = some st') : ∃ st ds, Gains s e s' p st' st ds := by
  refine Gains.nothing (D := {q | q ≠ x}) hbody hsame ?_ hpx hp'
  intro q hq f hsource
  refine ⟨?_, hrefs.sound q f hsource⟩
  rintro rfl
  rcases Option.bind_eq_some_iff.mp hsource with ⟨stq', hq', hf⟩
  rcases hsame q hq stq' hq' with ⟨stq, hq₀, hmirror⟩
  have hmem : q ∈ forksOf s f := by
    rw [mem_forksOf, sourceOf_of_lookup hq₀, ← source_congr hmirror.forkedFrom]
    exact hf
  rw [hforks] at hmem
  cases hmem

theorem Change.gains (hchange : Change s e s') (h : Isolated s) (hsrc : keepsSources s e)
    (hfit : countsFit s e) (hdata : appendsData e) (hnew : e.created ≠ some p)
    (hp' : s'.lookup p = some st') : ∃ st ds, Gains s e s' p st' st ds := by
  have hrefs := (hchange.isolated h hsrc hfit hdata).refs
  cases hchange with
  | same _ _ hw =>
    refine Gains.nothing (D := Set.univ) (by simp [Event.bodyOn, hw])
      (fun q _ st hq => ⟨st, hq, .refl st⟩) (fun q _ f hf => ⟨trivial, h.refs.sound q f hf⟩)
      trivial hp'
  | @update x stx ds acc stx' hx hu _ _ hw =>
    have hgain : ∀ {st}, s.lookup p = some st → ∀ n vis, visible s n st = some vis →
        visible (s.insert x stx') n st' =
          some (vis ++ if p = x then layOut stx.metadata.currentOffset ds else []) :=
      fun hp n vis hvis => visible_update hx hu (hw.nonempty hdata) (fun _ => h.covers x stx hx)
        hp hp' hvis
    rcases lookup_of_lookup_insert hp' with ⟨rfl, rfl⟩ | ⟨hpx, hp⟩
    · refine ⟨stx, ds, hx, ?_, (congrArg StreamMetadata.contentType hu.fixed :), hu.tail,
        fun n vis hvis => ?_⟩
      · cases hw with
        | nothing hw => simpa [Event.bodyOn, hw] using Splits.nil
        | body _ hw hds => simpa [Event.bodyOn, hw] using Splits.cons hds .nil
      · simpa using hgain hx n vis hvis
    · refine ⟨st', [], hp, ?_, rfl, rfl, fun n vis hvis => ?_⟩
      · cases hw with
        | nothing hw => simpa [Event.bodyOn, hw] using Splits.nil
        | body _ hw => simpa [Event.bodyOn, hw, Ne.symm hpx] using Splits.nil
      · simpa [hpx] using hgain hp n vis hvis
  | discard hcall hx hfree =>
    exact Gains.other (bodyOn_of_not_append (by simp [hcall]) p) hrefs
      (h.refs.forksOf_free hsrc hcall hfree)
      (fun q _ st hq => ⟨st, (lookup_of_lookup_erase hq).2, .refl st⟩)
      (lookup_of_lookup_erase hp').1 hp'
  | plain hcall hfree hc =>
    refine Gains.other (bodyOn_of_not_append (by simp [hcall]) p) hrefs
      (h.refs.forksOf_free hsrc hcall hfree) ?_ (fun hpx => hnew (hpx ▸ hc)) hp'
    intro q hq st hst
    rw [Finmap.lookup_insert_of_ne _ hq] at hst
    exact ⟨st, hst, .refl st⟩
  | @fork x opts source _ _ _ _ _ hcall hfree hc _ _ hsource =>
    refine Gains.other (bodyOn_of_not_append (by simp [hcall]) p) hrefs
      (h.refs.forksOf_free hsrc hcall hfree) ?_ (fun hpx => hnew (hpx ▸ hc)) hp'
    intro q hq st hst
    rw [Finmap.lookup_insert_of_ne _ hq] at hst
    rcases lookup_of_lookup_insert hst with ⟨rfl, rfl⟩ | ⟨-, hst⟩
    · exact ⟨source, hsource, source.mirrors_recount _⟩
    · exact ⟨st, hst, .refl st⟩
  | delete hcall =>
    refine Gains.nothing (D := Set.univ) (bodyOn_of_not_append (by simp [hcall]) p) ?_
      (fun q _ f hf => ⟨trivial, hrefs.sound q f hf⟩) trivial hp'
    intro q _ st hq
    rcases (deletes_cascade _ _ _ le_rfl).recounted q st hq with ⟨st, rc, hst, rfl⟩
    exact ⟨st, hst, st.mirrors_recount rc⟩

end Own

section Reads

variable {s₀ : MemoryStore} {st₀ : MemoryStream} {n : ℕ} {vis l : List Message}
  {start offset : Offset} {d : Drain} {env : Env}

def MemoryStore.readMessages (s : MemoryStore) (env : Env) (path : Path) (offset : Offset) :
    Option (List Message) :=
  match s.read env path offset with
  | some (_, .ok (messages, _)) => some messages
  | _ => none

theorem MemoryStore.readMessages_eq_some {s : MemoryStore}
    (h : s.readMessages env p offset = some l) :
    ∃ s' upToDate, s.read env p offset = some (s', .ok (l, upToDate)) := by
  unfold readMessages at h
  split at h
  · rename_i s' l' upToDate hread
    cases h
    exact ⟨s', upToDate, hread⟩
  · cases h

theorem readPages_eq (hlaid : LaidOut s₀.streams) (hp₀ : s₀.streams.lookup p = some st₀)
    (hvis₀ : visible s₀.streams n st₀ = some vis) {k site : ℕ}
    {s' : MemoryStore} {upToDate : Bool}
    (hinv : DrainInvariant s₀ p st₀ n vis start d) (hopen : d.finished = false)
    (h : MemoryStore.readPages env p offset k site d.store d.next d.snapshot d.collected =
      some (s', .ok (l, upToDate))) :
    l = suffix vis start st₀.metadata.currentOffset := by
  induction k generalizing site d with
  | zero => cases h
  | succ k ih =>
    unfold MemoryStore.readPages at h
    split at h
    · cases h
    · cases h
    · rename_i s₁ page hpage
      have hpage' : d.store.readPage env.fuel (env.clock site) (env.clock (site + 1)) p d.next
          { ({} : ReadPageOptions) with snapshot := d.snapshot } = some (s₁, .ok page) := hpage
      obtain ⟨hnext, -⟩ : DrainInvariant s₀ p st₀ n vis start (d.take s₁ {} page) ∧ _ :=
        hinv.page hlaid hp₀ hvis₀ hopen hpage'
      have hrest := hnext.rest
      rw [Drain.finished_take, Drain.collected_take] at hrest
      split at h
      · rename_i hup
        cases h
        rw [hrest, if_pos hup, List.append_nil]
      · rename_i hup
        split at h
        · cases h
        · rw [← Drain.collected_take d s₁ {} page] at h
          exact ih hnext (by simpa using hup) h

/-- A successful read returns the messages behind its offset. -/
theorem read_eq (hlaid : LaidOut s₀.streams) (hp₀ : s₀.streams.lookup p = some st₀)
    (hvis₀ : visible s₀.streams n st₀ = some vis) (h : s₀.readMessages env p offset = some l) :
    l = suffix vis offset st₀.metadata.currentOffset := by
  rcases MemoryStore.readMessages_eq_some h with ⟨s', upToDate, h⟩
  exact readPages_eq hlaid hp₀ hvis₀ (.initial hlaid hp₀ hvis₀) rfl h

theorem suffix_eq (hlaid : LaidOut s) (hp : s.lookup p = some st) (hvis : visible s n st = some vis)
    (offset : Offset) :
    suffix vis offset st.metadata.currentOffset =
      vis.filter fun m => readStart offset st.metadata.currentOffset < m.offset := by
  refine List.filter_congr fun m hm => ?_
  have hle := ((visible_sorted hlaid hp hvis).2 m hm).2
  simp [inRange, hle]

/-- A read from the start returns all that is visible. -/
theorem suffix_zero (hlaid : LaidOut s) (hp : s.lookup p = some st)
    (hvis : visible s n st = some vis) :
    suffix vis zeroOffset st.metadata.currentOffset = vis := by
  rw [suffix_eq hlaid hp hvis, List.filter_eq_self]
  intro m hm
  rw [readStart_of_readSeq rfl, decide_eq_true_eq]
  exact ((visible_sorted hlaid hp hvis).2 m hm).1

theorem read_present {s : MemoryStore} (h : s.readMessages env p offset = some l) : ∃ st,
    s.streams.lookup p = some st := by
  rcases MemoryStore.readMessages_eq_some h with ⟨s', upToDate, h⟩
  unfold MemoryStore.read at h
  cases hfuel : env.fuel with
  | zero =>
    rw [hfuel] at h
    cases h
  | succ k =>
    rw [hfuel] at h
    unfold MemoryStore.readPages at h
    split at h
    · cases h
    · cases h
    · rename_i hpage
      rcases MemoryStore.readPage_readable hpage with ⟨st, hp, -⟩
      exact ⟨st, hp⟩

end Reads

namespace MemoryStore

def isolatesForks (s : MemoryStore) (e : Event) : Bool := forksSafely s e && appendsData e

theorem isolated_step {s s' : MemoryStore} (hi : Isolated s.streams)
    (h : Guarded isolatesForks s e s') : Isolated s'.streams := by
  rcases h with ⟨hstep, hsafe⟩
  simp only [isolatesForks, forksSafely, Bool.and_eq_true] at hsafe
  exact (step_change hstep).isolated hi hsafe.1.1 hsafe.1.2 hsafe.2

theorem isolated_run {s : MemoryStore} {h : List Event}
    (hrun : Trace.Run (Guarded isolatesForks) empty h s) : Isolated s.streams := by
  refine hrun.invariant (I := fun s => Isolated s.streams) ⟨refInvariant_empty,
    graphInvariant_empty.ranked, ?_, ?_⟩ fun _ _ _ hi hstep => isolated_step hi hstep
  · intro p st hp
    simp [empty] at hp
  · intro x stx hx
    simp [empty] at hx

/-- What a stream holds that had the messages `P` up to a tail and the given
bodies appended since. -/
def Holds (contentType : Bytes) (tail : Offset) (P : List Message) (bodies : List Bytes)
    (content : List Message) : Prop :=
  ∃ own, Splits contentType bodies own ∧ content = P ++ layOut tail own

/-- The messages of a stream in every later state of its lifetime. -/
theorem content_run {s₁ s : MemoryStore} {h : List Event} {st₁ : MemoryStream} {n : ℕ}
    {P : List Message} (hi : Isolated s₁.streams) (hp₁ : s₁.streams.lookup p = some st₁)
    (hvis₁ : visible s₁.streams n st₁ = some P) (hrun : Trace.Run (Guarded isolatesForks) s₁ h s)
    (hsame : ∀ e ∈ h, e.created ≠ some p) (hp : s.streams.lookup p = some st) :
    ∃ own, Splits st₁.metadata.contentType (bodiesOf p h) own ∧
      st.metadata.contentType = st₁.metadata.contentType ∧
      st.metadata.currentOffset = endOffset st₁.metadata.currentOffset own ∧
      visible s.streams n st = some (P ++ layOut st₁.metadata.currentOffset own) := by
  induction hrun generalizing st with
  | nil =>
    cases hp₁.symm.trans hp
    exact ⟨[], .nil, rfl, rfl, by simpa using hvis₁⟩
  | @snoc h s s' e hrun hstep ih =>
    have hiso : Isolated s.streams := hrun.invariant (I := fun s => Isolated s.streams) hi
      fun _ _ _ hi hstep => isolated_step hi hstep
    have hsafe := hstep.2
    simp only [isolatesForks, forksSafely, Bool.and_eq_true] at hsafe
    rcases (step_change hstep.1).gains hiso hsafe.1.1 hsafe.1.2 hsafe.2 (hsame e (by simp)) hp with
      ⟨st₀, ds, hgains⟩
    rcases ih (fun e he => hsame e (by simp [he])) hgains.lookup with
      ⟨own, hsplits, hct, htail, hvis⟩
    refine ⟨own ++ ds, ?_, hgains.contentType.trans hct, ?_, ?_⟩
    · rw [bodiesOf_snoc]
      exact hsplits.append (hct ▸ hgains.splits)
    · rw [hgains.tail, htail, endOffset_append]
    · rw [hgains.visible n _ hvis, htail, List.append_assoc, ← layOut_append]

/-- Every successful read of a stream returns what a read at an earlier point
returned, such as right after its creation as a fork, followed by what was
appended to the stream since. This holds in every run in which no creation
replaces an expired stream that has forks, no count is at its largest value when
a fork is added, and every append carries data. The later calls may be on any
path, as long as they do not create this stream anew. -/
theorem fork_isolated {s₁ s : MemoryStore} {h h' : List Event} {p : Path}
    (hrun : Trace.Run (Guarded isolatesForks) empty h s₁)
    {env₁ : Env} {P : List Message} (hread : s₁.readMessages env₁ p zeroOffset = some P)
    (hlater : Trace.Run (Guarded isolatesForks) s₁ h' s)
    (hsame : ∀ e' ∈ h', e'.created ≠ some p) :
    ∃ st₁, s₁.streams.lookup p = some st₁ ∧
      (∀ env offset l, s.readMessages env p offset = some l →
        ∃ content, Holds st₁.metadata.contentType st₁.metadata.currentOffset P (bodiesOf p h')
            content ∧
          (offset = zeroOffset → l = content) ∧
          ∃ st, s.streams.lookup p = some st ∧ l = content.filter fun m =>
            readStart offset st.metadata.currentOffset < m.offset) ∧
      ∀ (env : Env) offset opts s' page,
        s.readPage env.fuel (env.clock 0) (env.clock 1) p offset opts = some (s', .ok page) →
        ∃ content st, s.streams.lookup p = some st ∧
          Holds st₁.metadata.contentType st₁.metadata.currentOffset P (bodiesOf p h') content ∧
          page.messages <+: content.filter (inRange
            (readStart offset (opts.snapshot.getD st.snapshot).tail)
            (opts.snapshot.getD st.snapshot).tail) := by
  have hi₁ := isolated_run hrun
  have hi : Isolated s.streams := hlater.invariant (I := fun s => Isolated s.streams) hi₁
    fun _ _ _ hi hstep => isolated_step hi hstep
  rcases read_present hread with ⟨st₁, hp₁⟩
  rcases hi₁.ranked with ⟨rank, hrank⟩
  rcases Option.isSome_iff_exists.mp (visible_isSome hrank hp₁ (Nat.lt_succ_self _)) with
    ⟨vis₁, hvis₁⟩
  have hP : P = vis₁ := by
    rw [read_eq hi₁.laid hp₁ hvis₁ hread, suffix_zero hi₁.laid hp₁ hvis₁]
  subst hP
  have hcontent := fun st (hp : s.streams.lookup p = some st) =>
    content_run hi₁ hp₁ hvis₁ hlater hsame hp
  refine ⟨st₁, hp₁, ?_, ?_⟩
  · intro env offset l hl
    rcases read_present hl with ⟨st, hp⟩
    rcases hcontent st hp with ⟨own, hsplits, -, -, hvis⟩
    rw [read_eq hi.laid hp hvis hl]
    refine ⟨_, ⟨own, hsplits, rfl⟩, ?_, st, hp, suffix_eq hi.laid hp hvis offset⟩
    rintro rfl
    exact suffix_zero hi.laid hp hvis
  · intro env offset opts s' page hpage
    rcases readPage_readable hpage with ⟨st, hp, hreadable⟩
    rcases hcontent st hp with ⟨own, hsplits, -, -, hvis⟩
    refine ⟨_, st, hp, ⟨own, hsplits, rfl⟩, ?_⟩
    have hmax := readPage_mono (le_max_left env.fuel (rank p + 1)) hpage
    rcases readPage_eq hi.laid hp hreadable (visible_mono (le_max_right env.fuel _) hvis)
      (env.clock 1) offset with ⟨s₂, page₂, hpage₂, hmsgs, -⟩
    rw [hmax] at hpage₂
    cases hpage₂
    rw [hmsgs]
    exact Greedy.page_prefix Message.size _ _ 0 0 _

def isolatedCalls : List (Env × Call) :=
  [(.frozen 0, .create [97] { initialData := [1, 2, 3] }),
    (.frozen 1, .create [98] { forkedFrom := [97], initialData := [4] })]

theorem isolatedCalls_run : (empty.execGuarded isolatesForks isolatedCalls).isSome := by decide

def isolatedLater : List (Env × Call) :=
  [(.frozen 2, .append [97] [5] {}), (.frozen 3, .append [98] [6] {}),
    (.frozen 4, .create [99] { forkedFrom := [97] }), (.frozen 5, .delete [97])]

theorem isolatedLater_run : ((ran _ isolatedCalls isolatedCalls_run).2.execGuarded isolatesForks
    isolatedLater).isSome := by decide

theorem fork_isolated_append :
    ∃ h h' s₁ s st₁ content, Trace.Run (Guarded isolatesForks) empty h s₁ ∧
      s₁.readMessages (.frozen 1) [98] zeroOffset =
        some [⟨[1, 2, 3], ⟨0, 3⟩⟩, ⟨[4], ⟨0, 4⟩⟩] ∧
      Trace.Run (Guarded isolatesForks) s₁ h' s ∧
      Holds (MemoryStream.metadata st₁).contentType st₁.metadata.currentOffset
        [⟨[1, 2, 3], ⟨0, 3⟩⟩, ⟨[4], ⟨0, 4⟩⟩] (bodiesOf [98] h') content ∧
      s.readMessages (.frozen 6) [98] zeroOffset = some content ∧
      content = [⟨[1, 2, 3], ⟨0, 3⟩⟩, ⟨[4], ⟨0, 4⟩⟩, ⟨[6], ⟨0, 5⟩⟩] := by
  have hlater := execGuarded_run .nil (Option.some_get isolatedLater_run).symm
  have hread : (ran _ isolatedCalls isolatedCalls_run).2.readMessages (.frozen 1) [98]
      zeroOffset = some [⟨[1, 2, 3], ⟨0, 3⟩⟩, ⟨[4], ⟨0, 4⟩⟩] := by decide
  have hread' : (((ran _ isolatedCalls isolatedCalls_run).2.execGuarded isolatesForks
      isolatedLater).get isolatedLater_run).2.readMessages (.frozen 6) [98] zeroOffset =
      some [⟨[1, 2, 3], ⟨0, 3⟩⟩, ⟨[4], ⟨0, 4⟩⟩, ⟨[6], ⟨0, 5⟩⟩] := by decide
  rcases fork_isolated (ran_guarded isolatedCalls_run) hread hlater (by decide) with
    ⟨st₁, -, hreads, -⟩
  rcases hreads _ _ _ hread' with ⟨content, hholds, heq, -⟩
  rw [heq rfl] at hread'
  exact ⟨_, _, _, _, st₁, content, ran_guarded isolatedCalls_run, hread, hlater, hholds, hread',
    (heq rfl).symm⟩

def replacedCalls : List (Env × Call) :=
  [(.frozen 0, .create [97] { initialData := [1, 2, 3], ttlSeconds := some 1 }),
    (.frozen 1, .create [98] { forkedFrom := [97], ttlSeconds := some 100 })]

theorem replacedCalls_run : (empty.execGuarded (fun _ _ => true) replacedCalls).isSome := by
  decide

def replacedLater : List (Env × Call) :=
  [(.frozen (10 * 10 ^ 9), .create [97] { initialData := [7, 8, 9] })]

theorem replacedLater_run : ((ran _ replacedCalls replacedCalls_run).2.execGuarded
    (fun _ _ => true) replacedLater).isSome := by decide

/-- A call on the source path alone can change what is read of a fork. -/
theorem fork_not_isolated :
    ∃ h h' s₁ s, Run h s₁ ∧ Trace.Run Step s₁ h' s ∧ bodiesOf [98] h' = [] ∧
      (∀ e ∈ h', e.created = some [97]) ∧
      s₁.readMessages (.frozen 1) [98] zeroOffset = some [⟨[1, 2, 3], ⟨0, 3⟩⟩] ∧
      s.readMessages (.frozen (10 * 10 ^ 9)) [98] zeroOffset = some [⟨[7, 8, 9], ⟨0, 3⟩⟩] := by
  have hlater := execGuarded_run .nil (Option.some_get replacedLater_run).symm
  exact ⟨_, _, _, _, ran_run replacedCalls_run, hlater.mono fun _ _ _ hstep => hstep.1, by decide,
    by decide, by decide, by decide⟩

end MemoryStore

end Chronicle
