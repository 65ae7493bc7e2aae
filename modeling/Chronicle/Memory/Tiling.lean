import Chronicle.Memory.Isolation

/-! # Tiled streams

What is visible of a stream fills its bytes from zero to the tail, without gaps
and without overlaps. This is so as long as sources are not replaced and forks
diverge at the end of a message: an append lays its messages behind the tail,
and a fork lays its own behind the part that it inherits.
-/

namespace Chronicle

variable {s s' : Streams} {e : Event} {p q : Path} {st source : MemoryStream} {n : ℕ}
  {vis : List Message}

section Reads

theorem Laid.own_eq (hst : st.Laid) {offset : Offset} (hseq : offset.readSeq = 0) :
    readOwnMessages st offset none = st.messages.filter fun m => offset < m.offset := by
  have hzero : ∀ m ∈ st.messages, m.offset.readSeq = 0 := by
    intro m hm
    rcases hst with ⟨hfork, ds, -, hmsgs, -⟩
    rw [hmsgs] at hm
    rw [layOut_readSeq hm, hfork]
  unfold readOwnMessages
  rw [List.takeWhile_eq_self_iff.mpr (by simp)]
  refine List.filter_congr fun m hm => ?_
  simp [Offset.lt_def, hseq, hzero m hm]

/-- A read across the chain returns the visible messages behind its offset. -/
theorem readForkedStream_eq (hlaid : LaidOut s) (hp : s.lookup p = some st)
    (hvis : visible s n st = some vis) {offset : Offset} (hseq : offset.readSeq = 0) :
    readForkedStream s n st offset = some (vis.filter fun m => offset < m.offset) := by
  induction n generalizing p st vis with
  | zero => cases hvis
  | succ n ih =>
    have hown := Laid.own_eq (hlaid p st hp) hseq
    unfold visible at hvis
    unfold readForkedStream
    split at hvis
    · rename_i hroot
      cases hvis
      rw [if_pos hroot, hown]
    · rename_i hfork
      rw [if_neg hfork, hown]
      split at hvis
      · rename_i hnone
        cases hvis
        rw [hnone]
        split <;> rfl
      · rename_i source hsource
        rcases Option.map_eq_some_iff.mp hvis with ⟨inherited, hinh, rfl⟩
        rw [List.filter_append, hsource]
        by_cases hlt : offset < st.metadata.forkOffset
        · rw [if_pos (by simpa using hlt)]
          dsimp only
          rw [ih hsource hinh, Option.map_some, Option.map_some, List.filter_filter,
            List.filter_filter]
          congr 2
          refine List.filter_congr fun m _ => ?_
          rw [Bool.and_comm, Bool.eq_iff_iff]
          simp
        · have hnil : ((inherited.filter fun m => m.offset ≤ st.metadata.forkOffset).filter
              fun m => offset < m.offset) = [] := by
            rw [List.filter_eq_nil_iff]
            intro m hm
            rw [List.mem_filter, decide_eq_true_eq] at hm
            simpa using hm.2.trans (not_lt.mp hlt)
          rw [if_neg (by simpa using hlt), hnil]
          rfl

end Reads

section Forks

/-- Whether an offset is the start of a list of messages or the end of one of them. -/
def EndsIn (vis : List Message) (o : Offset) : Prop := o = zeroOffset ∨ ∃ m ∈ vis, m.offset = o

instance (vis : List Message) (o : Offset) : Decidable (EndsIn vis o) :=
  inferInstanceAs (Decidable (_ ∨ ∃ m ∈ vis, m.offset = o))

theorem EndsIn.append {o : Offset} (h : EndsIn vis o) (l : List Message) : EndsIn (vis ++ l) o := by
  rcases h with rfl | ⟨m, hm, rfl⟩
  · exact .inl rfl
  · exact .inr ⟨m, List.mem_append_left _ hm, rfl⟩

theorem Tiles.endsIn {tail : Offset} (h : Tiles zeroOffset tail vis) : EndsIn vis tail := by
  cases hl : vis.getLast? with
  | none =>
    rw [List.getLast?_eq_none_iff] at hl
    subst hl
    cases h
    exact .inl rfl
  | some m => exact .inr ⟨m, List.mem_of_getLast? hl, h.last hl⟩

theorem resolveFork_endsIn (hlaid : LaidOut s) (hq : s.lookup q = some source)
    (hvis : visible s n source = some vis) {fuel : ℕ} {requested forkOffset : Offset}
    {sub : Option ℕ} {pfx : Bytes} (hseq : requested.readSeq = 0) (hreq : EndsIn vis requested)
    (hres : MemoryStore.resolveFork s fuel source requested sub = some (.ok (forkOffset, pfx))) :
    EndsIn vis forkOffset := by
  unfold MemoryStore.resolveFork at hres
  split at hres
  · cases hres
    exact hreq
  · cases hres
    exact hreq
  · rcases Option.map_eq_some_iff.mp hres with ⟨l, hl, heq⟩
    have hread := readForkedStream_eq hlaid hq (visible_mono (le_max_left n fuel) hvis) hseq
    rw [readForkedStream_mono (le_max_right n fuel) hl, Option.some.injEq] at hread
    split at heq
    · split at heq
      · cases heq
      · rename_i m hm
        cases heq
        have hmem := List.mem_of_getElem? hm
        rw [hread] at hmem
        exact .inr ⟨m, List.mem_of_mem_filter hmem, rfl⟩
    · split at heq
      · cases heq
      · split at heq <;> cases heq
        exact hreq

end Forks

section Invariant

/-- Streams that are isolated and filled from zero to their tails. -/
structure Tiled (s : Streams) : Prop where
  isolated : Isolated s
  tiles : ∀ p st, s.lookup p = some st → ∀ n vis, visible s n st = some vis →
    Tiles zeroOffset st.metadata.currentOffset vis

/-- A fork that is created at an offset of its own choice diverges where its source starts or where
a message of it ends. A chain of sources is no longer than the number of streams. -/
def forksAligned (s : Streams) (e : Event) : Bool :=
  match e.created, e.call with
  | some _, .create _ opts =>
    (s.lookup opts.forkedFrom).all fun source =>
      opts.forkedFrom = [] || opts.forkOffset.all fun o =>
        (visible s (s.keys.card + 1) source).any fun vis => EndsIn vis o
  | _, _ => true

theorem Isolated.visible_some (h : Isolated s) (hp : s.lookup p = some st) :
    ∃ n vis, visible s n st = some vis := by
  rcases h.ranked with ⟨rank, hrank⟩
  exact ⟨_, Option.isSome_iff_exists.mp (visible_isSome hrank hp (Nat.lt_succ_self _))⟩

variable {vis' : List Message}

theorem visible_unique {m : ℕ} (h : visible s n st = some vis)
    (h' : visible s m st = some vis') : vis = vis' := by
  have hmax := visible_mono (le_max_left n m) h
  rw [visible_mono (le_max_right n m) h', Option.some.injEq] at hmax
  exact hmax.symm

variable {ds : List Bytes}

theorem Splits.nonempty {ct : Bytes} {bodies : List Bytes} (h : Splits ct bodies ds)
    (hbodies : ∀ b ∈ bodies, b ≠ []) : ∀ d ∈ ds, d ≠ [] := by
  induction h with
  | nil => simp
  | cons hbody _ ih =>
    intro d hd
    rcases List.mem_append.mp hd with hd | hd
    · exact splitBody_ne_nil hbody (hbodies _ List.mem_cons_self) d hd
    · exact ih (fun b hb => hbodies b (List.mem_cons_of_mem _ hb)) d hd

theorem bodyOn_ne_nil (hdata : appendsData e) : ∀ b ∈ (e.bodyOn p).toList, b ≠ [] := by
  intro b hb
  rw [Option.mem_toList, Event.bodyOn, Option.bind_eq_some_iff] at hb
  rcases hb with ⟨⟨q, data⟩, hw, hdq⟩
  unfold Event.written at hw
  split at hw
  · rename_i path data' opts r hcall hreply
    split at hw
    · cases hw
    · cases hw
      rw [Option.ite_none_right_eq_some, Option.some.injEq] at hdq
      rw [← hdq.2]
      simpa [appendsData, hcall] using hdata
  · cases hw

theorem Gains.tiles {st' : MemoryStream} (h : Gains s e s' p st' st ds)
    (ht : Tiled s) (hdata : appendsData e) (hvis' : Chronicle.visible s' n st' = some vis') :
    Tiles zeroOffset st'.metadata.currentOffset vis' := by
  rcases ht.isolated.visible_some h.lookup with ⟨m, vis, hvis⟩
  rw [visible_unique hvis' (h.visible m vis hvis), h.tail]
  exact (ht.tiles p st h.lookup m vis hvis).append
    (tiles_layOut (h.splits.nonempty (bodyOn_ne_nil hdata)))

theorem MemoryStream.Fresh.tiles {base : Offset} (hst : st.Fresh q base ds)
    (hq : q ≠ []) (hsource : s.lookup q = some source)
    (hvis : visible s n source = some vis)
    (htiles : Tiles zeroOffset source.metadata.currentOffset vis) (hbase : EndsIn vis base) {m : ℕ}
    (hvis' : visible s m st = some vis') :
    Tiles zeroOffset st.metadata.currentOffset vis' := by
  cases m with
  | zero => cases hvis'
  | succ m =>
    unfold visible at hvis'
    rw [hst.forkedFrom, if_neg hq, hsource] at hvis'
    rcases Option.map_eq_some_iff.mp hvis' with ⟨inherited, hinh, rfl⟩
    rw [visible_unique hinh hvis, hst.forkOffset, hst.messages, hst.tail]
    exact (htiles.upTo hbase).append (tiles_layOut hst.nonempty)

theorem Change.fresh {opts : CreateOptions} (hchange : Change s e s') (hnew : e.created = some p)
    (hcall : e.call = .create p opts) (hroot : opts.forkedFrom = [])
    (hp : s'.lookup p = some st) : ∃ ds, st.Fresh [] zeroOffset ds := by
  cases hchange with
  | same hc | update _ _ hc | discard _ _ _ hc =>
    rw [hnew] at hc
    cases hc
  | delete hcall' =>
    rw [hcall] at hcall'
    cases hcall'
  | fork hcall' _ _ hne =>
    rw [hcall] at hcall'
    cases hcall'
    exact absurd hroot hne
  | plain hcall' hfree hc hst =>
    rw [hcall] at hcall'
    cases hcall'
    rw [Finmap.lookup_insert] at hp
    cases hp
    exact ⟨_, hst⟩

/-- Freeing a path that nothing is forked from leaves the rest readable as it was. -/
theorem visible_free {opts : CreateOptions} (h : Isolated s) (hsrc : keepsSources s e)
    (hcall : e.call = .create p opts) (hfree : FreeAt s e p) (hne : q ≠ p)
    (hq : s.lookup q = some st) (n : ℕ) : visible (s.erase p) n st = visible s n st := by
  have hrefs := h.refs.free hsrc (.inr fun a b hab => by omega) hcall hfree
  refine visible_frame (D := {q | q ≠ p}) ?_ ?_ hne hq (by rwa [Finmap.lookup_erase_ne hne]) n
  · intro x hx stx hstx
    exact ⟨stx, (lookup_of_lookup_erase hstx).2, .refl stx⟩
  · intro x hx f hf
    have hsome := hrefs.sound x f hf
    refine ⟨?_, hsome⟩
    rintro rfl
    simp at hsome

namespace MemoryStore

variable {s s' : MemoryStore} {env : Env} {path : Path} {opts : CreateOptions}

/-- A fork as its creation resolved it against its source. -/
structure Resolved (s : MemoryStore) (env : Env) (path : Path) (opts : CreateOptions)
    (source : MemoryStream) (forkOffset : Offset) (pfx : Bytes) : Prop where
  free : ∀ st, s.streams.lookup path = some st → st.metadata.isExpiredAt (env.clock 0) = true
  self : opts.forkedFrom ≠ path
  lookup : s.streams.lookup opts.forkedFrom = some source
  bound : opts.forkOffset.getD source.metadata.currentOffset ≤ source.metadata.currentOffset
  resolved : resolveFork (s.streams.erase path) env.fuel source
    (opts.forkOffset.getD source.metadata.currentOffset) opts.forkSubOffset =
      some (.ok (forkOffset, pfx))

theorem create_fork {md : StreamMetadata} (hfork : opts.forkedFrom ≠ [])
    (h : s.create env path opts = some (s', .ok (md, true))) :
    ∃ source forkOffset pfx incarnation st, Resolved s env path opts source forkOffset pfx ∧
      withInitialData (materialize (forkMetadata path incarnation (env.clock 2) opts
        source.metadata forkOffset) pfx) opts.initialData = .ok st ∧ md = st.metadata ∧
      s' = ((s.remove path).addRef opts.forkedFrom 1).set path st := by
  rcases create_cases h with ⟨-, hne, -⟩ | ⟨hfree, h⟩
  · exact absurd rfl (hne md)
  cases createAbsent_creates h with
  | plain hplain => exact absurd hplain hfork
  | @fork incarnation source forkOffset pfx st _ hsource hsoft hle hres hst =>
    rcases lookup_of_lookup_erase hsource with ⟨hself, hlookup⟩
    exact ⟨source, forkOffset, pfx, incarnation, st, ⟨hfree, hself, hlookup, hle, hres⟩, hst, rfl,
      rfl⟩

/-- The source of a new fork counts one more reference. -/
theorem Resolved.referenced {source st : MemoryStream} {forkOffset : Offset} {pfx : Bytes}
    (h : Resolved s env path opts source forkOffset pfx) :
    (((s.remove path).addRef opts.forkedFrom 1).set path st).streams.lookup opts.forkedFrom =
      some (setRefCount source (source.metadata.refCount + 1)) := by
  have hlookup : (s.remove path).streams.lookup opts.forkedFrom = some source := by
    rw [remove, Finmap.lookup_erase_ne h.self]
    exact h.lookup
  rw [set, Finmap.lookup_insert_of_ne _ h.self, addRef, hlookup]
  exact Finmap.lookup_insert ..

def tilesForks (s : MemoryStore) (e : Event) : Bool :=
  isolatesForks s e && forksAligned s.streams e

theorem Resolved.endsIn {source : MemoryStream} {forkOffset : Offset} {pfx : Bytes} {e : Event}
    (h : Resolved s e.env path opts source forkOffset pfx) (ht : Tiled s.streams)
    (hcall : e.call = .create path opts) (hsrc : keepsSources s.streams e) {n : ℕ}
    {vis : List Message} (hvis : visible s.streams n source = some vis)
    (hreq : EndsIn vis (opts.forkOffset.getD source.metadata.currentOffset)) :
    EndsIn vis forkOffset := by
  have hlaid := ht.isolated.laid
  have hvis' : visible (s.streams.erase path) n source = some vis := by
    rw [visible_free ht.isolated hsrc hcall h.free h.self h.lookup]
    exact hvis
  have hlookup : (s.streams.erase path).lookup opts.forkedFrom = some source := by
    rw [Finmap.lookup_erase_ne h.self]
    exact h.lookup
  exact resolveFork_endsIn (hlaid.erase path) hlookup hvis'
    (readSeq_of_le h.bound (hlaid _ _ h.lookup).tail_readSeq) hreq h.resolved

theorem endsIn_requested {source : MemoryStream} {e : Event} (ht : Tiled s.streams)
    (hcall : e.call = .create path opts) (hnew : e.created = some path)
    (hfork : opts.forkedFrom ≠ []) (hsource : s.streams.lookup opts.forkedFrom = some source)
    (halign : forksAligned s.streams e) {n : ℕ} {vis : List Message}
    (hvis : visible s.streams n source = some vis) :
    EndsIn vis (opts.forkOffset.getD source.metadata.currentOffset) := by
  cases ho : opts.forkOffset with
  | none => exact (ht.tiles _ _ hsource n vis hvis).endsIn
  | some o =>
    simp only [forksAligned, hcall, hnew, hsource, ho, Option.all_some, hfork, decide_false,
      Bool.false_or, Option.any_eq_true, decide_eq_true_eq] at halign
    rcases halign with ⟨vis', hvis', hends⟩
    rw [visible_unique hvis hvis']
    exact hends

theorem created_call {e : Event} (h : e.created = some path) :
    ∃ opts md, e.call = .create path opts ∧ e.reply = .create (.ok (md, true)) := by
  unfold Event.created at h
  split at h
  · cases h
    exact ⟨_, _, ‹_›, ‹_›⟩
  · cases h

theorem tiled_step {e : Event} (h : Tiled s.streams) (hstep : Guarded tilesForks s e s') :
    Tiled s'.streams := by
  rcases hstep with ⟨hstep, hsafe⟩
  simp only [tilesForks, isolatesForks, forksSafely, Bool.and_eq_true] at hsafe
  rcases hsafe with ⟨⟨⟨hsrc, hfit⟩, hdata⟩, halign⟩
  have hchange := step_change hstep
  have hgains : ∀ {q st'}, e.created ≠ some q → s'.streams.lookup q = some st' →
      ∃ st ds, Gains s.streams e s'.streams q st' st ds :=
    fun hnew hq => hchange.gains h.isolated hsrc hfit hdata hnew hq
  refine ⟨hchange.isolated h.isolated hsrc hfit hdata, fun p st hp n vis hvis => ?_⟩
  by_cases hnew : e.created = some p
  · rcases created_call hnew with ⟨opts, md, hcall, hreply⟩
    by_cases hroot : opts.forkedFrom = []
    · rcases hchange.fresh hnew hcall hroot hp with ⟨ds, hst⟩
      cases n with
      | zero => cases hvis
      | succ n =>
        unfold visible at hvis
        rw [if_pos hst.forkedFrom, Option.some.injEq] at hvis
        rw [← hvis, hst.messages, hst.tail]
        exact tiles_layOut hst.nonempty
    · have hcreate : s.create e.env p opts = some (s', .ok (md, true)) := by
        have hexec : s.exec e.env e.call = some (s', e.reply) := hstep
        rw [hcall, hreply] at hexec
        rcases Option.map_eq_some_iff.mp hexec with ⟨⟨s₁, r⟩, hr, heq⟩
        cases heq
        exact hr
      rcases create_fork hroot hcreate with
        ⟨source, forkOffset, pfx, incarnation, st₁, hres, hst₁, -, rfl⟩
      obtain rfl : st₁ = st := by
        simpa [set] using hp
      rcases materialize_fresh (by rfl) (by rfl) (by rfl) hst₁ with ⟨ds, hfresh⟩
      rcases h.isolated.visible_some hres.lookup with ⟨m, v, hv⟩
      have hends := hres.endsIn h hcall hsrc hv
        (endsIn_requested h hcall hnew hroot hres.lookup halign hv)
      -- the source itself only counts one more reference
      rcases hgains (by simpa [hnew] using hres.self.symm) hres.referenced with
        ⟨source₀, es, hg⟩
      obtain rfl : source₀ = source := by
        simpa [hres.lookup] using hg.lookup.symm
      have hv' := hg.visible m v hv
      exact hfresh.tiles hroot hres.referenced hv' (hg.tiles h hdata hv') (hends.append _) hvis
  · rcases hgains hnew hp with ⟨st₀, ds, hg⟩
    exact hg.tiles h hdata hvis

theorem tiled_empty : Tiled empty.streams := by
  refine ⟨isolated_run .nil, ?_⟩
  intro p st hp
  simp [empty] at hp

theorem tiled_run {h : List Event} (hrun : Trace.Run (Guarded tilesForks) empty h s) :
    Tiled s.streams :=
  hrun.invariant (I := fun s => Tiled s.streams) tiled_empty fun _ _ _ hi hstep =>
    tiled_step hi hstep

end MemoryStore

end Invariant

section Laws

/-- Messages that fill a stream from zero to its tail, one law for each reading of it. -/
structure Fills (l : List Message) (tail : Offset) : Prop where
  first : ∀ m, l.head? = some m → m.offset = zeroOffset.add m.data.length
  next : l.IsChain fun a b => b.offset = a.offset.add b.data.length
  increasing : l.Pairwise (·.offset < ·.offset)
  last : (l.getLast?.map (·.offset)).getD zeroOffset = tail
  total : (l.map (·.data.length)).sum = tail.byteOffset

variable {l : List Message}

theorem Tiles.isChain {lo hi : Offset} (h : Tiles lo hi l) :
    l.IsChain fun a b => b.offset = a.offset.add b.data.length := by
  induction h with
  | nil => exact .nil
  | cons _ _ hrest ih =>
    cases hrest with
    | nil => exact .singleton _
    | cons hend' _ _ => exact .cons_cons hend' ih

theorem Tiles.total {lo hi : Offset} (h : Tiles lo hi l) :
    lo.add (l.map (·.data.length)).sum = hi := by
  induction h with
  | nil => rfl
  | cons hend _ _ ih => rw [List.map_cons, List.sum_cons, ← Offset.add_add, ← hend, ih]

theorem Tiles.fills {tail : Offset} (h : Tiles zeroOffset tail l) :
    Fills l tail where
  first m hm := by
    cases h with
    | nil => cases hm
    | cons hend _ _ =>
      cases hm
      exact hend
  next := h.isChain
  increasing := h.sorted
  last := by
    cases hl : l.getLast? with
    | none =>
      rw [List.getLast?_eq_none_iff] at hl
      subst hl
      cases h
      rfl
    | some m => exact h.last hl
  total := by
    rw [← h.total]
    simp [Offset.add, zeroOffset]

end Laws

namespace MemoryStore

variable {s : MemoryStore} {h : List Event}

/-- What is visible of a stream fills it. This holds in every run in which no creation replaces an
expired stream that has forks, no count is at its largest value when a fork is added, every append
carries data, and every fork diverges at zero or at the end of a message of its source. -/
theorem streams_tiled (hrun : Trace.Run (Guarded tilesForks) empty h s)
    (hp : s.streams.lookup p = some st) :
    ∃ depth l, Fills l st.metadata.currentOffset ∧
      (∀ n, depth ≤ n → readForkedStream s.streams n st zeroOffset = some l) ∧
      ∀ env l', s.readMessages env p zeroOffset = some l' → l' = l := by
  have ht := tiled_run hrun
  have hlaid := ht.isolated.laid
  rcases ht.isolated.visible_some hp with ⟨depth, vis, hvis⟩
  have htiles := ht.tiles p st hp depth vis hvis
  have hall : (vis.filter fun m => zeroOffset < m.offset) = vis := by
    rw [List.filter_eq_self]
    intro m hm
    simpa using htiles.lt m hm
  refine ⟨depth, vis, htiles.fills, ?_, ?_⟩
  · intro n hn
    rw [readForkedStream_eq hlaid hp (visible_mono hn hvis) rfl, hall]
  · intro env l' hl'
    rw [read_eq hlaid hp hvis hl', suffix_zero hlaid hp hvis]

def tiledCalls : List (Env × Call) :=
  [(.frozen 0, .create [97] { initialData := [1, 2, 3] }), (.frozen 1, .append [97] [4, 5] {}),
    (.frozen 2, .create [98]
      { forkedFrom := [97], forkOffset := some ⟨0, 3⟩, forkSubOffset := some 1 }),
    (.frozen 3, .append [98] [6] {}), (.frozen 4, .create [99] { forkedFrom := [98] }),
    (.frozen 5, .append [99] [7, 8] {})]

theorem tiledCalls_run : (empty.execGuarded tilesForks tiledCalls).isSome := by decide

theorem streams_tiled_chain :
    ∃ h s st l, Trace.Run (Guarded tilesForks) empty h s ∧ s.streams.lookup [99] = some st ∧
      readForkedStream s.streams 3 st zeroOffset = some l ∧
      l = [⟨[1, 2, 3], ⟨0, 3⟩⟩, ⟨[4], ⟨0, 4⟩⟩, ⟨[6], ⟨0, 5⟩⟩, ⟨[7, 8], ⟨0, 7⟩⟩] ∧
      Fills l st.metadata.currentOffset := by
  have hst : (ran _ tiledCalls tiledCalls_run).2.streams.lookup [99] =
      some (((ran _ tiledCalls tiledCalls_run).2.streams.lookup [99]).get (by decide)) :=
    (Option.some_get _).symm
  have hread : (ran _ tiledCalls tiledCalls_run).2.readMessages (.frozen 6) [99] zeroOffset =
      some [⟨[1, 2, 3], ⟨0, 3⟩⟩, ⟨[4], ⟨0, 4⟩⟩, ⟨[6], ⟨0, 5⟩⟩, ⟨[7, 8], ⟨0, 7⟩⟩] := by decide
  rcases streams_tiled (ran_guarded tiledCalls_run) hst with ⟨depth, l, hfills, -, hreads⟩
  obtain rfl := hreads _ _ hread
  exact ⟨_, _, _, _, ran_guarded tiledCalls_run, hst, by decide, rfl, hfills⟩

def emptiedCalls : List (Env × Call) :=
  [(.frozen 0, .create [97] { initialData := [1, 2, 3], ttlSeconds := some 1 }),
    (.frozen 1, .create [98] { forkedFrom := [97], ttlSeconds := some 100 }),
    (.frozen (10 * 10 ^ 9), .create [97] {})]

theorem emptiedCalls_run : (empty.execGuarded (fun _ e => appendsData e) emptiedCalls).isSome := by
  decide

/-- A fork whose source was replaced has a tail of three bytes and nothing to read, although its
source is present and it was created at the tail of the old one. -/
theorem streams_gap :
    ∃ h s st, Run h s ∧ s.streams.lookup [98] = some st ∧
      st.metadata.forkedFrom = [97] ∧ (s.streams.lookup [97]).isSome = true ∧
      readForkedStream s.streams 2 st zeroOffset = some [] ∧ ¬ Fills [] st.metadata.currentOffset := by
  refine ⟨_, _, ((ran _ emptiedCalls emptiedCalls_run).2.streams.lookup [98]).get (by decide),
    ran_run emptiedCalls_run, (Option.some_get _).symm, by decide, by decide, by decide, ?_⟩
  intro hfills
  have hlast := hfills.total
  revert hlast
  decide

end MemoryStore

end Chronicle
