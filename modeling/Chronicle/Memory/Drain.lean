import Chronicle.Memory.Pages

/-! # Draining a stream

A reader takes pages of one stream for one snapshot while other calls append,
close and read in between. What it has collected is always an initial part of
the suffix that was visible at capture, and all of it at the end.
-/

namespace Chronicle

/-- Calls that neither create nor delete a stream. -/
def Call.between : Call → Bool
  | .create .. => false
  | .delete .. => false
  | _ => true

/-- An append goes to a stream whose tail is not below the offset at which a
present stream was forked from it. -/
def appendsCovered (s : Streams) (e : Event) : Bool :=
  match e.call with
  | .append x _ _ =>
    (s.lookup x).all fun stx => ∀ q ∈ forksOf s x,
      (s.lookup q).all fun stq => stq.metadata.forkOffset ≤ stx.metadata.currentOffset
  | _ => true

def undisturbed (_ : MemoryStore) (e : Event) : Bool := e.call.between && appendsData e

/-- Such calls whose appends also go to streams that cover their forks. -/
def undisturbedCovered (s : MemoryStore) (e : Event) : Bool :=
  undisturbed s e && appendsCovered s.streams e

/-- Where a reader stands that drains a stream page by page. -/
structure Drain where
  store : MemoryStore
  next : Offset
  snapshot : Option ReadSnapshot := none
  pages : List (ReadPageOptions × ReadPage) := []

namespace Drain

def collected (d : Drain) : List Message := d.pages.flatMap fun page => page.2.messages

def finished (d : Drain) : Bool := d.pages.getLast?.any fun page => page.2.upToDate

def take (d : Drain) (s' : MemoryStore) (opts : ReadPageOptions) (page : ReadPage) : Drain where
  store := s'
  next := page.nextOffset
  snapshot := some (d.snapshot.getD page.snapshot)
  pages := d.pages ++ [(opts, page)]

/-- One page, with the snapshot of the first one, or a call of someone else
between two pages that meets a condition. -/
inductive Step (P : MemoryStore → Event → Bool) (p : Path) : Drain → Drain → Prop
  | page {d s' page} {env : Env} {opts : ReadPageOptions} (hopen : d.finished = false)
      (hpage : d.store.readPage env.fuel (env.clock 0) (env.clock 1) p d.next
        { opts with snapshot := d.snapshot } = some (s', .ok page)) :
      Step P p d (d.take s' opts page)
  | other {d e s'} (hpages : d.pages ≠ []) (hstep : MemoryStore.Step d.store e s')
      (hP : P d.store e) : Step P p d { d with store := s' }

end Drain

variable {s s' : Streams} {e : Event} {p q x : Path} {st st' : MemoryStream}

theorem Change.between (h : Change s e s') (hb : e.call.between) :
    s' = s ∨ ∃ x stx ds acc stx', s.lookup x = some stx ∧ stx.Update ds acc stx' ∧
      Writes e x stx ds acc ∧ s' = s.insert x stx' := by
  cases h with
  | same => exact .inl rfl
  | update hp hu _ _ hw => exact .inr ⟨_, _, _, _, _, hp, hu, hw, rfl⟩
  | discard hcall | plain hcall | fork hcall | delete hcall => simp [hcall, Call.between] at hb

theorem appendsCovered_covers {ds : List Bytes} {acc : Option ClosedByProducer}
    (h : appendsCovered s e) (hw : Writes e x st ds acc) (hx : s.lookup x = some st)
    (hds : ds ≠ []) : CoversForks s x st := by
  cases hw with
  | nothing => exact absurd rfl hds
  | body hcall =>
    intro q stq hq hsource
    simp only [appendsCovered, hcall, hx, Option.all_some, decide_eq_true_eq] at h
    have := h q (mem_forksOf.mpr (sourceOf_of_lookup hq ▸ hsource))
    simpa [hq] using this

section Snapshot

theorem memoryReadIncarnation_ne_nil (m : StreamMetadata) : memoryReadIncarnation m ≠ [] := by
  unfold memoryReadIncarnation
  split
  · assumption
  · exact Decimal.formatInt_ne_nil _

theorem sameReadStream_of_fixed (h : st'.metadata.fixed = st.metadata.fixed) :
    sameReadStream st.snapshot st'.snapshot := by
  have hinc : st'.snapshot.incarnation = st.snapshot.incarnation := by
    have h₁ : st'.metadata.incarnation = st.metadata.incarnation :=
      (congrArg StreamMetadata.incarnation h :)
    have h₂ : st'.metadata.createdAt = st.metadata.createdAt :=
      (congrArg StreamMetadata.createdAt h :)
    simp [MemoryStream.snapshot, memoryReadIncarnation, h₁, h₂]
  have hct : st'.snapshot.contentType = st.snapshot.contentType :=
    (congrArg StreamMetadata.contentType h :)
  have hne : st.snapshot.incarnation ≠ [] := memoryReadIncarnation_ne_nil _
  simp [sameReadStream, hinc, hct, hne, contentTypeMatches, equalFold]

end Snapshot

section Invariant

def suffix (vis : List Message) (start tail : Offset) : List Message :=
  vis.filter (inRange (readStart start tail) tail)

/-- A state in which the messages `vis` of the stream `st₀` are still visible, with
nothing added up to the tail of `st₀`. -/
structure Captured (p : Path) (st₀ : MemoryStream) (n : ℕ) (vis : List Message) (s : Streams) :
    Prop where
  laid : LaidOut s
  stream : ∃ st extra, s.lookup p = some st ∧ st.metadata.fixed = st₀.metadata.fixed ∧
    visible s n st = some (vis ++ extra) ∧
    (∀ m ∈ extra, st₀.metadata.currentOffset < m.offset) ∧
    st₀.metadata.currentOffset ≤ st.metadata.currentOffset

variable {s₀ : MemoryStore} {st₀ : MemoryStream} {n : ℕ} {vis : List Message}
  {start tail next : Offset} {d d' : Drain} {opts : ReadPageOptions}

theorem Captured.update {stx stx' : MemoryStream} {ds : List Bytes}
    {acc : Option ClosedByProducer} (h : Captured p st₀ n vis s) (hx : s.lookup x = some stx)
    (hu : stx.Update ds acc stx') (hds : ∀ d ∈ ds, d ≠ [])
    (hcover : ds ≠ [] → CoversForks s x stx) : Captured p st₀ n vis (s.insert x stx') := by
  refine ⟨h.laid.insert ((h.laid x stx hx).update hu hds), ?_⟩
  obtain ⟨st, extra, hp, hfixed, hvis, hextra, htail⟩ := h.stream
  by_cases hpx : p = x
  · subst hpx
    cases hx.symm.trans hp
    have hvis' := visible_update hx hu hds hcover hx (Finmap.lookup_insert _) hvis
    refine ⟨stx', _, Finmap.lookup_insert _, hu.fixed.trans hfixed,
      by rw [hvis', List.append_assoc], ?_, ?_⟩
    · intro m hm
      rw [if_pos rfl, List.mem_append] at hm
      obtain hm | hm := hm
      · exact hextra m hm
      · exact htail.trans_lt (base_lt_layOut hds hm)
    · rw [hu.tail]
      exact htail.trans (le_endOffset _ _)
  · have hp' : (s.insert x stx').lookup p = some st := by
      rwa [Finmap.lookup_insert_of_ne _ hpx]
    have hvis' := visible_update hx hu hds hcover hp hp' hvis
    rw [if_neg hpx, List.append_nil] at hvis'
    exact ⟨st, extra, hp', hfixed, hvis', hextra, htail⟩

theorem Captured.touched (h : Captured p st₀ n vis s) (ht : Touched s x s') :
    Captured p st₀ n vis s' := by
  cases ht with
  | same => exact h
  | update hx hi => exact h.update hx hi.update (by simp) (by simp)

theorem Captured.change (h : Captured p st₀ n vis s) (hchange : Change s e s')
    (hbetween : e.call.between) (hdata : appendsData e) (hcover : appendsCovered s e) :
    Captured p st₀ n vis s' := by
  obtain rfl | ⟨x, stx, ds, acc, stx', hx, hu, hw, rfl⟩ := hchange.between hbetween
  · exact h
  · exact h.update hx hu (hw.nonempty hdata) fun hne => appendsCovered_covers hcover hw hx hne

/-- What is known at every point of a drain that started at `start` in a state
in which `vis` was visible of the stream `st₀`. -/
structure DrainInvariant (s₀ : MemoryStore) (p : Path) (st₀ : MemoryStream) (n : ℕ)
    (vis : List Message) (start : Offset) (d : Drain) : Prop where
  captured : Captured p st₀ n vis d.store.streams
  first : d.pages = [] → d.store = s₀ ∧ d.snapshot = none
  later : d.pages ≠ [] → d.snapshot = some st₀.snapshot
  rest : suffix vis start st₀.metadata.currentOffset = d.collected ++
    if d.finished then [] else suffix vis d.next st₀.metadata.currentOffset
  budgets : ∀ page ∈ d.pages,
    page.2.messages.length ≤ page.1.normalize.maxFrames ∧
    (1 < page.2.messages.length →
      (page.2.messages.map Message.size).sum ≤ page.1.normalize.targetBytes)
  length : d.pages.length ≤ d.collected.length + if d.finished then 1 else 0

theorem DrainInvariant.initial (hlaid : LaidOut s₀.streams) (hp : s₀.streams.lookup p = some st₀)
    (hvis : visible s₀.streams n st₀ = some vis) :
    DrainInvariant s₀ p st₀ n vis start { store := s₀, next := start } where
  captured := ⟨hlaid, st₀, [], hp, rfl, by simpa using hvis, by simp, le_rfl⟩
  first _ := ⟨rfl, rfl⟩
  later h := absurd rfl h
  rest := by simp [Drain.collected, Drain.finished]
  budgets := by simp
  length := by simp [Drain.collected]

theorem readStart_of_readSeq {offset : Offset} (h : offset.readSeq = 0) (tail : Offset) :
    readStart offset tail = offset := by
  have : offset.isNow = false := by
    simp [Offset.isNow, nowOffset, Offset.ext_iff, h]
  simp [readStart, this]

theorem suffix_tail (h : tail.readSeq = 0) : suffix vis tail tail = [] := by
  rw [suffix, readStart_of_readSeq h, List.filter_eq_nil_iff]
  intro m _
  simp only [inRange, decide_eq_true_eq, not_and, not_le]
  exact id

theorem suffix_behind {a : Offset} {pre post : List Message} {m : Message}
    (hsorted : vis.Pairwise (·.offset < ·.offset)) (hseq : m.offset.readSeq = 0)
    (h : suffix vis a tail = pre ++ post) (hm : pre.getLast? = some m) :
    suffix vis m.offset tail = post := by
  have hmem : m ∈ suffix vis a tail := h ▸ List.mem_append_left _ (List.mem_of_getLast? hm)
  have hlt : readStart a tail < m.offset := by
    simp only [suffix, List.mem_filter, inRange, decide_eq_true_eq] at hmem
    exact hmem.2.1
  have hfilter : suffix vis m.offset tail =
      (suffix vis a tail).filter fun b => m.offset < b.offset := by
    unfold suffix
    rw [readStart_of_readSeq hseq, List.filter_filter]
    refine List.filter_congr fun b _ => ?_
    unfold inRange
    grind
  rw [hfilter, h]
  exact Greedy.filter_behind Message.offset (h ▸ hsorted.filter _) hm

theorem cutPage_budgets (targetBytes maxFrames : ℕ) (l : List Message) :
    (cutPage targetBytes maxFrames l).length ≤ maxFrames ∧
      (1 < (cutPage targetBytes maxFrames l).length →
        ((cutPage targetBytes maxFrames l).map Message.size).sum ≤ targetBytes) :=
  ⟨Greedy.page_length Message.size targetBytes maxFrames 0 0 l,
    Greedy.page_size Message.size targetBytes maxFrames⟩

theorem cutPage_cases (targetBytes : ℕ) {maxFrames : ℕ} (hframes : 0 < maxFrames)
    (l : List Message) :
    (l = [] ∧ cutPage targetBytes maxFrames l = []) ∨
    ∃ m post, l = cutPage targetBytes maxFrames l ++ post ∧
      (cutPage targetBytes maxFrames l).getLast? = some m := by
  by_cases hl : l = []
  · subst hl
    exact .inl ⟨rfl, rfl⟩
  · obtain ⟨post, hpost⟩ := Greedy.page_prefix Message.size targetBytes maxFrames 0 0 l
    have hne := Greedy.page_ne_nil Message.size targetBytes maxFrames hl hframes 0
    exact .inr ⟨_, post, hpost.symm, List.getLast?_eq_getLast_of_ne_nil hne⟩

structure PageOf (vis : List Message) (next tail : Offset) (opts : ReadPageOptions)
    (page : ReadPage) : Prop where
  messages : page.messages = cutPage opts.normalize.targetBytes opts.normalize.maxFrames
    (suffix vis next tail)
  nextOffset : page.nextOffset = (page.messages.getLast?.map Message.offset).getD tail
  upToDate : page.upToDate = decide (page.nextOffset = tail)

/-- The messages lie in the order of their offsets, up to a tail at which a read may start. -/
structure InOrder (vis : List Message) (tail : Offset) : Prop where
  sorted : vis.Pairwise (·.offset < ·.offset)
  bounds : ∀ m ∈ vis, m.offset ≤ tail
  readSeq : tail.readSeq = 0

theorem visible_inOrder {s : Streams} {st : MemoryStream} (hlaid : LaidOut s)
    (hp : s.lookup p = some st) (hvis : visible s n st = some vis) :
    InOrder vis st.metadata.currentOffset := by
  obtain ⟨hsorted, hbounds⟩ := visible_sorted hlaid hp hvis
  exact ⟨hsorted, fun m hm => (hbounds m hm).2, (hlaid p st hp).tail_readSeq⟩

/-- A page is the last one, or it ends with a message and is read on behind it. -/
theorem PageOf.cases {page : ReadPage} (h : PageOf vis next tail opts page)
    (ho : InOrder vis tail) :
    (suffix vis next tail = [] ∧ page.messages = [] ∧ page.nextOffset = tail) ∨
    ∃ m, page.messages.getLast? = some m ∧ page.nextOffset = m.offset ∧
      inRange (readStart next tail) tail m ∧
      suffix vis next tail = page.messages ++ suffix vis m.offset tail := by
  obtain ⟨hnil, hcut⟩ | ⟨m, post, hsplit, hlast⟩ :=
    cutPage_cases opts.normalize.targetBytes opts.normalize_maxFrames_pos (suffix vis next tail)
  · have hmsgs : page.messages = [] := h.messages.trans hcut
    refine .inl ⟨hnil, hmsgs, ?_⟩
    rw [h.nextOffset, hmsgs]
    rfl
  · rw [← h.messages] at hsplit hlast
    have hmem : m ∈ suffix vis next tail :=
      hsplit ▸ List.mem_append_left _ (List.mem_of_getLast? hlast)
    obtain ⟨hvism, hrange⟩ := List.mem_filter.mp hmem
    have hseq : m.offset.readSeq = 0 := readSeq_of_le (ho.bounds m hvism) ho.readSeq
    refine .inr ⟨m, hlast, ?_, hrange, ?_⟩
    · rw [h.nextOffset, hlast]
      rfl
    · rw [suffix_behind ho.sorted hseq hsplit hlast]
      exact hsplit

/-- What is left to read behind a page. -/
theorem PageOf.rest {page : ReadPage} (h : PageOf vis next tail opts page)
    (ho : InOrder vis tail) :
    suffix vis next tail = page.messages ++
      if page.upToDate then [] else suffix vis page.nextOffset tail := by
  obtain ⟨hnil, hmsgs, hend⟩ | ⟨m, -, hnext, -, hsplit⟩ := h.cases ho
  · rw [if_pos (by rw [h.upToDate, hend]; simp), hmsgs, hnil]
    rfl
  · rw [hsplit, hnext]
    split
    · rename_i hdone
      rw [h.upToDate, decide_eq_true_eq, hnext] at hdone
      rw [hdone, suffix_tail ho.readSeq]
    · rfl

theorem PageOf.advances {page : ReadPage} (h : PageOf vis next tail opts page)
    (ho : InOrder vis tail) (hmore : page.upToDate = false) :
    page.messages ≠ [] ∧ next < page.nextOffset := by
  obtain ⟨-, -, hend⟩ | ⟨m, hlast, hnext, hrange, -⟩ := h.cases ho
  · rw [h.upToDate, hend] at hmore
    simp at hmore
  · refine ⟨List.ne_nil_of_mem (List.mem_of_getLast? hlast), ?_⟩
    rw [hnext]
    simp only [inRange, decide_eq_true_eq] at hrange
    unfold readStart at hrange
    split at hrange
    · exact absurd hrange.2 (not_le.mpr hrange.1)
    · exact hrange.1

/-- A page has the messages up to the offset at which it ends. -/
theorem PageOf.upTo {page : ReadPage} (h : PageOf vis next tail opts page)
    (ho : InOrder vis tail) :
    page.messages = vis.filter (inRange (readStart next tail) page.nextOffset) := by
  obtain ⟨hnil, hmsgs, hend⟩ | ⟨m, hlast, hnext, hrange, hsplit⟩ := h.cases ho
  · rw [hmsgs, hend]
    exact hnil.symm
  · have hfilter : vis.filter (inRange (readStart next tail) m.offset) =
        (suffix vis next tail).filter fun b => b.offset ≤ m.offset := by
      unfold suffix
      rw [List.filter_filter]
      refine List.filter_congr fun b _ => ?_
      unfold inRange at hrange ⊢
      grind
    rw [hnext, hfilter, hsplit]
    exact (Greedy.filter_upTo Message.offset (hsplit ▸ ho.sorted.filter _) hlast).symm

@[simp] theorem Drain.finished_take (d : Drain) (s' : MemoryStore) (opts : ReadPageOptions)
    (page : ReadPage) : (d.take s' opts page).finished = page.upToDate := by
  simp [Drain.finished, Drain.take]

@[simp] theorem Drain.collected_take (d : Drain) (s' : MemoryStore) (opts : ReadPageOptions)
    (page : ReadPage) : (d.take s' opts page).collected = d.collected ++ page.messages := by
  simp [Drain.collected, Drain.take]

theorem DrainInvariant.readPage_eq (h : DrainInvariant s₀ p st₀ n vis start d)
    (hp₀ : s₀.streams.lookup p = some st₀) {m : ℕ} (hm : n ≤ m) {checkedAt : Time}
    {st : MemoryStream} (hp : d.store.streams.lookup p = some st)
    (hread : MemoryStore.Readable st checkedAt { opts with snapshot := d.snapshot })
    (touchedAt : Time) :
    ∃ s' page, d.store.readPage m checkedAt touchedAt p d.next { opts with snapshot := d.snapshot } =
        some (s', .ok page) ∧
      page.messages = cutPage opts.normalize.targetBytes opts.normalize.maxFrames
        (suffix vis d.next st₀.metadata.currentOffset) ∧
      page.nextOffset =
        (page.messages.getLast?.map Message.offset).getD st₀.metadata.currentOffset ∧
      page.upToDate = decide (page.nextOffset = st₀.metadata.currentOffset) ∧
      d.snapshot.getD page.snapshot = st₀.snapshot := by
  obtain ⟨st₁, extra, hp₁, -, hvis, hextra, -⟩ := h.captured.stream
  cases hp.symm.trans hp₁
  obtain ⟨s', page, hpage, hmsgs, hnext, hup, hsnap⟩ := MemoryStore.readPage_eq
    h.captured.laid hp hread (visible_mono hm hvis) touchedAt d.next
  have hsnapshot : d.snapshot.getD st.snapshot = st₀.snapshot := by
    by_cases hnil : d.pages = []
    · obtain ⟨hstore, hnone⟩ := h.first hnil
      rw [hstore, hp₀, Option.some.injEq] at hp
      rw [hnone, hp]
      rfl
    · rw [h.later hnil]
      rfl
  have htail : (d.snapshot.getD st.snapshot).tail = st₀.metadata.currentOffset := by
    rw [hsnapshot]
    rfl
  rw [htail] at hmsgs hnext hup
  refine ⟨s', page, hpage, ?_, hnext, hup, ?_⟩
  · rw [hmsgs, List.filter_append]
    have hnil : extra.filter (inRange (readStart d.next st₀.metadata.currentOffset)
        st₀.metadata.currentOffset) = [] := by
      rw [List.filter_eq_nil_iff]
      intro b hb
      simp [inRange, hextra b hb]
    rw [hnil, List.append_nil]
    rfl
  · rw [hsnap]
    cases hd : d.snapshot with
    | none => rw [hd] at hsnapshot; exact hsnapshot
    | some snap => rw [hd] at hsnapshot; exact hsnapshot

/-- One page: it is the last one, or it moves on within the suffix. -/
theorem DrainInvariant.page (h : DrainInvariant s₀ p st₀ n vis start d)
    (hlaid : LaidOut s₀.streams) (hp₀ : s₀.streams.lookup p = some st₀)
    (hvis₀ : visible s₀.streams n st₀ = some vis) (hopen : d.finished = false)
    {s' : MemoryStore} {page : ReadPage} {m : ℕ} {checkedAt touchedAt : Time}
    (hpage : d.store.readPage m checkedAt touchedAt p d.next { opts with snapshot := d.snapshot } =
      some (s', .ok page)) :
    DrainInvariant s₀ p st₀ n vis start (d.take s' opts page) ∧
    (page.upToDate = false → d.next < page.nextOffset) := by
  obtain ⟨st, hp, hread⟩ := MemoryStore.readPage_readable hpage
  obtain ⟨s₁, page₁, hpage₁, hmsgs, hnext, hup, hsnap⟩ :=
    h.readPage_eq hp₀ (le_max_right m n) hp hread touchedAt
  rw [MemoryStore.readPage_mono (le_max_left m n) hpage] at hpage₁
  cases hpage₁
  have ho := visible_inOrder hlaid hp₀ hvis₀
  have hrest := h.rest
  have hlength := h.length
  rw [hopen, if_neg (by simp)] at hrest hlength
  have hbudgets : ∀ pg ∈ d.pages ++ [(opts, page)],
      pg.2.messages.length ≤ pg.1.normalize.maxFrames ∧
      (1 < pg.2.messages.length →
        (pg.2.messages.map Message.size).sum ≤ pg.1.normalize.targetBytes) := by
    intro pg hpg
    rw [List.mem_append, List.mem_singleton] at hpg
    obtain hpg | rfl := hpg
    · exact h.budgets pg hpg
    · rw [hmsgs]
      exact cutPage_budgets _ _ _
  have hof : PageOf vis d.next st₀.metadata.currentOffset opts page := ⟨hmsgs, hnext, hup⟩
  refine ⟨⟨h.captured.touched (MemoryStore.readPage_looked hpage).touched, by simp [Drain.take],
    fun _ => congrArg some hsnap, ?_, hbudgets, ?_⟩,
    fun hmore => (hof.advances ho hmore).2⟩
  · rw [Drain.finished_take, Drain.collected_take, hrest, hof.rest ho, List.append_assoc]
    rfl
  · rw [Drain.finished_take, Drain.collected_take, Drain.take, List.length_append,
      List.length_append, List.length_singleton]
    cases hu : page.upToDate with
    | true => simp; omega
    | false =>
      have := List.length_pos_of_ne_nil (hof.advances ho hu).1
      simp; omega

theorem DrainInvariant.step (h : DrainInvariant s₀ p st₀ n vis start d)
    (hlaid : LaidOut s₀.streams) (hp₀ : s₀.streams.lookup p = some st₀)
    (hvis₀ : visible s₀.streams n st₀ = some vis)
    (hstep : Drain.Step undisturbedCovered p d d') :
    DrainInvariant s₀ p st₀ n vis start d' := by
  cases hstep with
  | page hopen hpage => exact (h.page hlaid hp₀ hvis₀ hopen hpage).1
  | other hpages hstep hP =>
    simp only [undisturbedCovered, undisturbed, Bool.and_eq_true] at hP
    exact ⟨h.captured.change (MemoryStore.step_change hstep) hP.1.1 hP.1.2 hP.2,
      fun hnil => absurd hnil hpages, h.later, h.rest, h.budgets, h.length⟩

theorem DrainInvariant.run (hlaid : LaidOut s₀.streams) (hp₀ : s₀.streams.lookup p = some st₀)
    (hvis₀ : visible s₀.streams n st₀ = some vis)
    (hrun : Relation.ReflTransGen (Drain.Step undisturbedCovered p)
      { store := s₀, next := start } d) :
    DrainInvariant s₀ p st₀ n vis start d := by
  induction hrun with
  | refl => exact .initial hlaid hp₀ hvis₀
  | tail _ hstep ih => exact ih.step hlaid hp₀ hvis₀ hstep

end Invariant

namespace MemoryStore

variable {s₀ : MemoryStore} {h : List Event}

theorem laidOut_run (hrun : Trace.Run (Guarded fun _ e => appendsData e) empty h s₀) :
    LaidOut s₀.streams := by
  refine hrun.invariant (I := fun s => LaidOut s.streams) ?_ ?_
  · intro p st hp
    simp [empty] at hp
  · rintro s e s' hi ⟨hstep, hdata⟩
    exact (step_change hstep).laidOut hi hdata

/-- Draining a stream by pages is lossless and duplicate-free. From any state
reached by appends that carry data, and a stream whose fork chain ends, every
reader that takes pages of any size collects an initial part of the captured
suffix, and all of it when it is up to date, in at most one page more than there
are messages. Between pages any calls but creations and deletions may happen, as
long as each append goes to a stream whose tail is not below the offset of a
fork of it. -/
theorem pages_lossless (hrun : Trace.Run (Guarded fun _ e => appendsData e) empty h s₀)
    {p : Path} {st₀ : MemoryStream} {n : ℕ} {vis : List Message}
    (hp₀ : s₀.streams.lookup p = some st₀) (hvis : visible s₀.streams n st₀ = some vis)
    {start : Offset} {d : Drain}
    (hdrain : Relation.ReflTransGen (Drain.Step undisturbedCovered p)
      { store := s₀, next := start } d) :
    let target := vis.filter
      (inRange (readStart start st₀.metadata.currentOffset) st₀.metadata.currentOffset)
    d.collected <+: target ∧ (d.finished → d.collected = target) ∧
    d.pages.length ≤ target.length + 1 ∧
    (∀ page ∈ d.pages, page.2.messages.length ≤ page.1.normalize.maxFrames ∧
      (1 < page.2.messages.length →
        (page.2.messages.map Message.size).sum ≤ page.1.normalize.targetBytes)) ∧
    (∀ d', Drain.Step undisturbedCovered p d d' → d'.pages ≠ d.pages → d'.finished ∨ d.next < d'.next) ∧
    (d.finished = false → ∀ st (env : Env) (opts : ReadPageOptions), d.store.streams.lookup p = some st →
      st.metadata.softDeleted = false → st.metadata.isExpiredAt (env.clock 0) = false →
      n ≤ env.fuel → ∃ s' page,
        d.store.readPage env.fuel (env.clock 0) (env.clock 1) p d.next
          { opts with snapshot := d.snapshot } = some (s', .ok page)) := by
  have hlaid := laidOut_run hrun
  have hinv := DrainInvariant.run hlaid hp₀ hvis hdrain
  have hrest := hinv.rest
  unfold suffix at hrest
  refine ⟨⟨_, hrest.symm⟩, fun hdone => ?_, ?_, hinv.budgets, fun d' hstep hne => ?_, ?_⟩
  · rw [hrest, hdone, if_pos rfl, List.append_nil]
  · have hlength := hinv.length
    rw [hrest, List.length_append]
    split at hlength <;> omega
  · cases hstep with
    | page hopen hpage =>
      have hmove := (hinv.page hlaid hp₀ hvis hopen hpage).2
      rw [Drain.finished_take]
      cases hup : ReadPage.upToDate _ with
      | true => exact .inl rfl
      | false => exact .inr (hmove hup)
    | other => exact absurd rfl hne
  · intro _ st env opts hp hpresent hlive hn
    have hread : Readable st (env.clock 0) { opts with snapshot := d.snapshot } := by
      refine ⟨hlive, hpresent, fun snap hsnap => ?_⟩
      obtain ⟨st₁, extra, hp₁, hfixed, -⟩ := hinv.captured.stream
      cases hp.symm.trans hp₁
      have hpages : d.pages ≠ [] := fun hnil => by
        rw [(hinv.first hnil).2] at hsnap
        cases hsnap
      rw [hinv.later hpages] at hsnap
      cases hsnap
      exact sameReadStream_of_fixed hfixed
    obtain ⟨s', page, hpage, -⟩ := hinv.readPage_eq hp₀ hn hp hread (env.clock 1)
    exact ⟨s', page, hpage⟩

end MemoryStore

section Runs

inductive Turn where
  | page (env : Env) (opts : ReadPageOptions)
  | other (env : Env) (call : Call)

namespace Drain

def turn (P : MemoryStore → Event → Bool) (p : Path) (d : Drain) : Turn → Option Drain
  | .page env opts =>
    if d.finished then none
    else
      match d.store.readPage env.fuel (env.clock 0) (env.clock 1) p d.next
          { opts with snapshot := d.snapshot } with
      | some (s', .ok page) => some (d.take s' opts page)
      | _ => none
  | .other env call =>
    match d.store.exec env call with
    | some (s', reply) =>
      if d.pages ≠ [] ∧ P d.store ⟨env, call, reply⟩ then some { d with store := s' } else none
    | none => none

def turns (P : MemoryStore → Event → Bool) (p : Path) (d : Drain) : List Turn → Option Drain
  | [] => some d
  | t :: ts => (d.turn P p t).bind fun d' => d'.turns P p ts

variable {P : MemoryStore → Event → Bool}

theorem turn_step {p : Path} {d d' : Drain} {t : Turn}
    (h : d.turn P p t = some d') : Step P p d d' := by
  unfold turn at h
  split at h
  · split at h
    · cases h
    · rename_i hopen
      split at h
      · cases h
        exact .page (by simpa using hopen) ‹_›
      · cases h
  · split at h
    · rename_i s' reply hcall
      split at h
      · rename_i hcond
        cases h
        exact .other (e := ⟨_, _, reply⟩) hcond.1 hcall hcond.2
      · cases h
    · cases h

theorem turns_run {p : Path} {d d' : Drain} {ts : List Turn}
    (h : d.turns P p ts = some d') : Relation.ReflTransGen (Step P p) d d' := by
  induction ts generalizing d with
  | nil => cases h; exact .refl
  | cons t ts ih =>
    obtain ⟨d₁, hd₁, h⟩ := Option.bind_eq_some_iff.mp h
    exact .head (turn_step hd₁) (ih h)

end Drain

end Runs

namespace MemoryStore

def pagesCalls : List (Env × Call) :=
  [(.frozen 0, .create [97] { initialData := [1] }), (.frozen 1, .append [97] [2, 3] {}),
    (.frozen 2, .create [98] { forkedFrom := [97], initialData := [4] })]

theorem pagesCalls_run :
    (empty.execGuarded (fun _ e => appendsData e) pagesCalls).isSome := by decide

def pagesStream : MemoryStream :=
  ((ran _ pagesCalls pagesCalls_run).2.streams.lookup [98]).get (by decide)

def pagesTurns : List Turn :=
  [.page (.frozen 3) { maxFrames := 1 }, .other (.frozen 4) (.append [97] [5] {}),
    .other (.frozen 4) (.append [98] [6] {}), .page (.frozen 5) { maxFrames := 1 },
    .page (.frozen 6) { maxFrames := 1 }]

theorem pagesTurns_run : (Drain.turns undisturbedCovered [98]
    { store := (ran _ pagesCalls pagesCalls_run).2, next := zeroOffset } pagesTurns).isSome := by
  decide

theorem pages_lossless_fork :
    ∃ h s₀ d, Trace.Run (Guarded fun _ e => appendsData e) empty h s₀ ∧
      Relation.ReflTransGen (Drain.Step undisturbedCovered [98])
        { store := s₀, next := zeroOffset } d ∧
      d.finished ∧ d.collected = [⟨[1], ⟨0, 1⟩⟩, ⟨[2, 3], ⟨0, 3⟩⟩, ⟨[4], ⟨0, 4⟩⟩] := by
  have hdrain := Drain.turns_run (Option.some_get pagesTurns_run).symm
  have hp : (ran _ pagesCalls pagesCalls_run).2.streams.lookup [98] = some pagesStream :=
    (Option.some_get _).symm
  have hvis : visible (ran _ pagesCalls pagesCalls_run).2.streams 2 pagesStream =
      some [⟨[1], ⟨0, 1⟩⟩, ⟨[2, 3], ⟨0, 3⟩⟩, ⟨[4], ⟨0, 4⟩⟩] := by decide
  have hlossless := pages_lossless (ran_guarded pagesCalls_run) hp hvis hdrain
  refine ⟨_, _, _, ran_guarded pagesCalls_run, hdrain, by decide, ?_⟩
  rw [hlossless.2.1 (by decide)]
  decide

def staleCalls : List (Env × Call) :=
  [(.frozen 0, .create [97] { initialData := [1, 2, 3], ttlSeconds := some 1 }),
    (.frozen 1, .create [98] { forkedFrom := [97], ttlSeconds := some 100 }),
    (.frozen (10 * 10 ^ 9), .create [97] { initialData := [7] })]

theorem staleCalls_run :
    (empty.execGuarded (fun _ e => appendsData e) staleCalls).isSome := by decide

def staleStream : MemoryStream :=
  ((ran _ staleCalls staleCalls_run).2.streams.lookup [98]).get (by decide)

def staleTurns : List Turn :=
  [.page (.frozen (10 * 10 ^ 9)) { maxFrames := 1 },
    .other (.frozen (10 * 10 ^ 9)) (.append [97] [8, 9] {}),
    .page (.frozen (10 * 10 ^ 9)) { maxFrames := 1 }]

theorem staleTurns_run : (Drain.turns undisturbed [98]
    { store := (ran _ staleCalls staleCalls_run).2, next := zeroOffset } staleTurns).isSome := by
  decide

/-- A drain can return a message that was appended to a source after capture. -/
theorem pages_stale_source :
    ∃ h s₀ st₀ n vis d, Trace.Run (Guarded fun _ e => appendsData e) empty h s₀ ∧
      Ranked s₀.streams ∧ s₀.streams.lookup [98] = some st₀ ∧
      visible s₀.streams n st₀ = some vis ∧
      Relation.ReflTransGen (Drain.Step undisturbed [98]) { store := s₀, next := zeroOffset } d ∧
      d.finished ∧
      d.collected ≠ vis.filter (inRange zeroOffset st₀.metadata.currentOffset) := by
  have hrank : Ranked (ran _ staleCalls staleCalls_run).2.streams := by
    refine ⟨fun q => if q = [98] then 1 else 0, fun q f hq => ?_⟩
    have hmem : q ∈ (ran _ staleCalls staleCalls_run).2.streams.keys := by
      obtain ⟨st, hst, -⟩ := Option.bind_eq_some_iff.mp hq
      exact Finmap.mem_keys.mpr (Finmap.mem_iff.mpr ⟨st, hst⟩)
    rw [show (ran _ staleCalls staleCalls_run).2.streams.keys = {[97], [98]} by decide,
      Finset.mem_insert, Finset.mem_singleton] at hmem
    unfold ForkEdge at hq
    obtain rfl | rfl := hmem
    · rw [show sourceOf (ran _ staleCalls staleCalls_run).2.streams [97] = none by decide] at hq
      cases hq
    · rw [show sourceOf (ran _ staleCalls staleCalls_run).2.streams [98] = some [97] by decide]
        at hq
      cases hq
      decide
  exact ⟨_, _, staleStream, 2, [⟨[7], ⟨0, 1⟩⟩], _, ran_guarded staleCalls_run, hrank,
    (Option.some_get _).symm, by decide, Drain.turns_run (Option.some_get staleTurns_run).symm,
    by decide, by decide⟩

end MemoryStore

end Chronicle
