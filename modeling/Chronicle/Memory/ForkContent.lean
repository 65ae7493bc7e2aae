import Chronicle.Memory.Tiling

/-! # The content of a fork

A new fork reads as its source up to the fork offset, followed by what its
sub-offset adds: whole messages of a JSON stream, which move the fork offset, or
bytes of the next message of any other stream, which the fork stores itself.
-/

namespace Chronicle

variable {vis : List Message} {f : Offset}

section Split

def upTo (vis : List Message) (f : Offset) : List Message := vis.filter fun m => m.offset ≤ f

def behind (vis : List Message) (f : Offset) : List Message := vis.filter fun m => f < m.offset

theorem upTo_append_behind (h : vis.Pairwise (·.offset < ·.offset)) (f : Offset) :
    upTo vis f ++ behind vis f = vis := by
  induction vis with
  | nil => rfl
  | cons m vis ih =>
    rcases List.pairwise_cons.mp h with ⟨hm, hvis⟩
    by_cases hle : m.offset ≤ f
    · have hnot : ¬ f < m.offset := not_lt.mpr hle
      rw [upTo, behind, List.filter_cons_of_pos (by simpa using hle),
        List.filter_cons_of_neg (by simpa using hnot), List.cons_append]
      exact congrArg _ (ih hvis)
    · have hlt : f < m.offset := not_le.mp hle
      have hnil : upTo (m :: vis) f = [] := by
        rw [upTo, List.filter_eq_nil_iff]
        intro x hx
        rcases List.mem_cons.mp hx with rfl | hx
        · simpa using hlt
        · simpa using hlt.trans (hm x hx)
      have hall : behind (m :: vis) f = m :: vis := by
        rw [behind, List.filter_eq_self]
        intro x hx
        rcases List.mem_cons.mp hx with rfl | hx
        · simpa using hlt
        · simpa using hlt.trans (hm x hx)
      rw [hnil, hall, List.nil_append]

theorem upTo_later (h : vis.Pairwise (·.offset < ·.offset)) {k : ℕ} {m : Message}
    (hm : (behind vis f)[k]? = some m) :
    upTo vis m.offset = upTo vis f ++ (behind vis f).take (k + 1) := by
  have hcut : vis =
      upTo vis f ++ ((behind vis f).take (k + 1) ++ (behind vis f).drop (k + 1)) := by
    rw [List.take_append_drop, upTo_append_behind h f]
  have hsorted : (behind vis f).Pairwise (·.offset < ·.offset) := h.filter _
  have hfm : f < m.offset := by
    have hmem := List.mem_of_getElem? hm
    rw [behind, List.mem_filter, decide_eq_true_eq] at hmem
    exact hmem.2
  rcases List.getElem?_eq_some_iff.mp hm with ⟨hk, hget⟩
  have hlow : upTo (upTo vis f) m.offset = upTo vis f := by
    rw [upTo, List.filter_eq_self]
    intro x hx
    rw [upTo, List.mem_filter, decide_eq_true_eq] at hx
    simpa using hx.2.trans hfm.le
  have hnext : upTo ((behind vis f).take (k + 1)) m.offset = (behind vis f).take (k + 1) := by
    rw [upTo, List.filter_eq_self]
    intro x hx
    rcases List.mem_take_iff_getElem.mp hx with ⟨i, hi, rfl⟩
    rw [decide_eq_true_eq, ← hget]
    rcases Nat.lt_or_ge i k with hik | hik
    · exact (List.pairwise_iff_getElem.mp hsorted i k _ hk hik).le
    · have : i = k := by omega
      subst this
      exact le_rfl
  have hrest : upTo ((behind vis f).drop (k + 1)) m.offset = [] := by
    rw [upTo, List.filter_eq_nil_iff]
    intro x hx
    rcases List.mem_drop_iff_getElem.mp hx with ⟨i, hi, rfl⟩
    rw [← hget]
    simpa using List.pairwise_iff_getElem.mp hsorted k (k + 1 + i) hk (by omega) (by omega)
  calc upTo vis m.offset
      = upTo (upTo vis f ++ ((behind vis f).take (k + 1) ++ (behind vis f).drop (k + 1)))
          m.offset := congrArg (upTo · m.offset) hcut
    _ = upTo (upTo vis f) m.offset ++ (upTo ((behind vis f).take (k + 1)) m.offset ++
          upTo ((behind vis f).drop (k + 1)) m.offset) := by
        simp only [upTo, List.filter_append]
    _ = upTo vis f ++ (behind vis f).take (k + 1) := by rw [hlow, hnext, hrest, List.append_nil]

def contentOf (l : List Message) : Bytes := l.flatMap (·.data)

theorem contentOf_append (l l' : List Message) :
    contentOf (l ++ l') = contentOf l ++ contentOf l' := List.flatMap_append

theorem Tiles.length_contentOf {lo hi : Offset} {l : List Message} (h : Tiles lo hi l) :
    lo.byteOffset + (contentOf l).length = hi.byteOffset := by
  rw [← h.total, contentOf, List.length_flatMap]
  rfl

end Split

section Resolution

variable {s : Streams} {q : Path} {source : MemoryStream} {n fuel : ℕ} {forkOffset : Offset}
  {sub : Option ℕ} {pfx : Bytes}

/-- Whether a sub-offset goes beyond what follows an offset: the messages of a JSON stream, the
bytes of the next message of any other. -/
def overshoots (json : Bool) (vis : List Message) (f : Offset) (k : ℕ) : Bool :=
  if json then (behind vis f).length < k
  else (((behind vis f).head?.map fun m => m.data.length).getD 0) < k

structure Diverges (json : Bool) (vis : List Message) (f : Offset) (k : ℕ) (forkOffset : Offset)
    (pfx : Bytes) : Prop where
  fits : overshoots json vis f k = false
  moved : json = true → pfx = [] ∧ upTo vis forkOffset = upTo vis f ++ (behind vis f).take k
  stored : json = false →
    forkOffset = f ∧ pfx = (((behind vis f).head?.map (·.data)).getD []).take k

theorem diverges_zero (json : Bool) (vis : List Message) (f : Offset) :
    Diverges json vis f 0 f [] := by
  refine ⟨by simp [overshoots], fun _ => ⟨rfl, by simp⟩, fun _ => ⟨rfl, by simp⟩⟩

theorem resolveFork_cases (hlaid : LaidOut s) (hq : s.lookup q = some source)
    (hvis : visible s n source = some vis) (hseq : f.readSeq = 0)
    {res : Except StoreError (Offset × Bytes)}
    (hres : MemoryStore.resolveFork s fuel source f sub = some res) :
    (res = .error .invalidForkSubOffset ∧
      overshoots (isJSONContentType source.metadata.contentType) vis f (sub.getD 0) = true) ∨
    ∃ forkOffset pfx, res = .ok (forkOffset, pfx) ∧
      Diverges (isJSONContentType source.metadata.contentType) vis f (sub.getD 0) forkOffset
        pfx := by
  have hsorted := (visible_sorted hlaid hq hvis).1
  unfold MemoryStore.resolveFork at hres
  split at hres
  · cases hres
    exact .inr ⟨f, [], rfl, diverges_zero ..⟩
  · cases hres
    exact .inr ⟨f, [], rfl, diverges_zero ..⟩
  · rename_i k hk
    rcases Option.map_eq_some_iff.mp hres with ⟨l, hl, heq⟩
    have hread := readForkedStream_eq hlaid hq (visible_mono (le_max_left n fuel) hvis) hseq
    rw [readForkedStream_mono (le_max_right n fuel) hl, Option.some.injEq] at hread
    change l = behind vis f at hread
    subst hread
    have hpos : 0 < k := Nat.pos_of_ne_zero hk
    by_cases hjson : isJSONContentType source.metadata.contentType = true
    · rw [if_pos hjson] at heq
      split at heq
      · rename_i hnone
        rw [List.getElem?_eq_none_iff] at hnone
        refine .inl ⟨heq.symm, ?_⟩
        rw [overshoots, if_pos hjson, decide_eq_true_eq, Option.getD_some]
        omega
      · rename_i m hm
        have hlt := (List.getElem?_eq_some_iff.mp hm).1
        refine .inr ⟨m.offset, [], heq.symm, ?_, fun _ => ⟨rfl, ?_⟩, ?_⟩
        · rw [overshoots, if_pos hjson, decide_eq_false_iff_not, Option.getD_some]
          omega
        · rw [upTo_later hsorted hm, Option.getD_some, Nat.sub_add_cancel hpos]
        · intro hne
          rw [hne] at hjson
          cases hjson
    · rw [if_neg hjson] at heq
      have hfalse : isJSONContentType source.metadata.contentType = false := by simpa using hjson
      split at heq
      · rename_i hnil
        refine .inl ⟨heq.symm, ?_⟩
        rw [overshoots, if_neg hjson, hnil, decide_eq_true_eq]
        simpa using hpos
      · rename_i first rest hcons
        split at heq
        · rename_i hover
          refine .inl ⟨heq.symm, ?_⟩
          rw [overshoots, if_neg hjson, hcons, decide_eq_true_eq]
          simpa using hover
        · rename_i hover
          refine .inr ⟨f, first.data.take k, heq.symm, ?_, ?_, fun _ => ⟨rfl, ?_⟩⟩
          · rw [overshoots, if_neg hjson, hcons, decide_eq_false_iff_not]
            simpa using hover
          · intro htrue
            exact absurd htrue hjson
          · rw [hcons]
            rfl

theorem Diverges.content {json : Bool} {vis : List Message} {f tail : Offset} {k : ℕ}
    (h : Diverges json vis f k forkOffset pfx) (htiles : Tiles zeroOffset tail vis)
    (hf : EndsIn vis f) (hjson : json = false) :
    contentOf (upTo vis forkOffset ++
      if pfx = [] then [] else [⟨pfx, forkOffset.add pfx.length⟩]) =
        (contentOf vis).take (f.byteOffset + k) := by
  rcases h.stored hjson with ⟨rfl, hpfx⟩
  have hlen : (contentOf (upTo vis forkOffset)).length = forkOffset.byteOffset := by
    have hlen := (htiles.upTo hf).length_contentOf
    rwa [zeroOffset, Nat.zero_add] at hlen
  have hown : contentOf (if pfx = [] then [] else [⟨pfx, forkOffset.add pfx.length⟩]) = pfx := by
    split
    · rename_i hnil
      rw [hnil]
      rfl
    · simp [contentOf]
  have hnext : (contentOf (behind vis forkOffset)).take k = pfx := by
    rw [hpfx]
    have hfits := h.fits
    rw [overshoots, hjson, if_neg Bool.false_ne_true, decide_eq_false_iff_not, not_lt] at hfits
    cases hb : behind vis forkOffset with
    | nil => simp [contentOf]
    | cons first rest =>
      rw [hb] at hfits
      exact List.take_append_of_le_length hfits
  rw [← congrArg contentOf (upTo_append_behind htiles.sorted forkOffset), contentOf_append,
    contentOf_append, hown, ← hlen, List.take_length_add_append, hnext]

end Resolution

namespace MemoryStore

variable {s s' : MemoryStore} {env : Env} {path : Path} {opts : CreateOptions}
  {source st : MemoryStream} {forkOffset : Offset} {pfx : Bytes} {r : CreateResult}

section Created

theorem visible_created {e : Event} (hiso : Isolated s.streams) (hsrc : keepsSources s.streams e)
    (hcall : e.call = .create path opts) (h : Resolved s e.env path opts source forkOffset pfx)
    (st : MemoryStream) (n : ℕ) :
    visible (((s.remove path).addRef opts.forkedFrom 1).set path st).streams n
      (setRefCount source (source.metadata.refCount + 1)) = visible s.streams n source := by
  have hforks := hiso.refs.forksOf_free hsrc hcall h.free
  have hother : ∀ q, q ≠ path → q ≠ opts.forkedFrom →
      (((s.remove path).addRef opts.forkedFrom 1).set path st).streams.lookup q =
        s.streams.lookup q := by
    intro q hq hf
    have hlookup : (s.remove path).streams.lookup opts.forkedFrom = some source := by
      rw [remove, Finmap.lookup_erase_ne h.self]
      exact h.lookup
    rw [set, Finmap.lookup_insert_of_ne _ hq, addRef, hlookup]
    simp only [set, remove]
    rw [Finmap.lookup_insert_of_ne _ hf, Finmap.lookup_erase_ne hq]
  have hsame : ∀ q, q ≠ path → ∀ st', (((s.remove path).addRef opts.forkedFrom 1).set path
      st).streams.lookup q = some st' → ∃ st, s.streams.lookup q = some st ∧ st.Mirrors st' := by
    intro q hq st' hst'
    by_cases hf : q = opts.forkedFrom
    · subst hf
      rw [h.referenced] at hst'
      cases hst'
      exact ⟨source, h.lookup, source.mirrors_recount _⟩
    · rw [hother q hq hf] at hst'
      exact ⟨st', hst', .refl st'⟩
  refine visible_frame (D := {q | q ≠ path}) hsame ?_ h.self h.lookup h.referenced n
  intro q hq f hf
  rcases Option.bind_eq_some_iff.mp hf with ⟨stq', hq', hsource'⟩
  rcases hsame q hq stq' hq' with ⟨stq, hq₀, hmirror⟩
  have hedge : sourceOf s.streams q = some f := by
    rw [sourceOf_of_lookup hq₀, ← source_congr hmirror.forkedFrom]
    exact hsource'
  have hne : f ≠ path := by
    rintro rfl
    rw [← mem_forksOf, hforks] at hedge
    cases hedge
  refine ⟨hne, ?_⟩
  by_cases hff : f = opts.forkedFrom
  · rw [hff, h.referenced]
    rfl
  · rw [hother f hne hff]
    exact hiso.refs.sound q f hedge

/-- Whether a creation comes to resolve its fork: the path is free, an incarnation is drawn and
the content type is that of the source. -/
def reachesFork (s : MemoryStore) (env : Env) (path : Path) (opts : CreateOptions)
    (source : MemoryStream) : Bool :=
  (s.streams.lookup path).all (fun st => st.metadata.isExpiredAt (env.clock 0)) &&
    env.incarnation.isSome && opts.forkedFrom ≠ path &&
    (opts.contentType = [] || env.equalFold opts.contentType source.metadata.contentType)

theorem create_fork_cases (hfork : opts.forkedFrom ≠ [])
    (hsource : s.streams.lookup opts.forkedFrom = some source)
    (hsoft : source.metadata.softDeleted = false)
    (hexp : source.metadata.isExpiredAt (env.clock 1) = false)
    (hle : opts.forkOffset.getD source.metadata.currentOffset ≤ source.metadata.currentOffset)
    (hdata : opts.initialData = []) (h : s.create env path opts = some (s', r)) :
    (reachesFork s env path opts source = false ∧ (∀ md, r ≠ .ok (md, true)) ∧
      r ≠ .error .invalidForkSubOffset) ∨
    (reachesFork s env path opts source = true ∧ ∃ res,
      resolveFork (s.streams.erase path) env.fuel source
        (opts.forkOffset.getD source.metadata.currentOffset) opts.forkSubOffset = some res ∧
      ((∃ err, res = .error err ∧ r = .error err) ∨
        ∃ forkOffset pfx incarnation, res = .ok (forkOffset, pfx) ∧
          Resolved s env path opts source forkOffset pfx ∧
          let st := materialize (forkMetadata path incarnation (env.clock 2) opts source.metadata
            forkOffset) pfx
          r = .ok (st.metadata, true) ∧
            s' = ((s.remove path).addRef opts.forkedFrom 1).set path st)) := by
  rcases create_cases h with ⟨-, hr, hr', hbusy⟩ | ⟨hfree, h⟩
  · exact .inl ⟨by simp [reachesFork, hbusy], hr, hr'⟩
  unfold createAbsent at h
  split at h
  · rename_i hinc
    cases h
    exact .inl ⟨by simp [reachesFork, hinc], by simp, by simp⟩
  rename_i incarnation hinc
  rw [if_pos hfork] at h
  unfold createFork at h
  by_cases hself : opts.forkedFrom = path
  · rw [remove, hself, Finmap.lookup_erase] at h
    cases h
    exact .inl ⟨by simp [reachesFork, hself], by simp, by simp⟩
  rw [remove, Finmap.lookup_erase_ne hself, hsource] at h
  dsimp only at h
  rw [hsoft, hexp, if_neg Bool.false_ne_true, if_neg Bool.false_ne_true] at h
  split at h
  · rename_i hct
    cases h
    refine .inl ⟨?_, by simp, by simp⟩
    have hct' : (decide (opts.contentType = []) ||
        env.equalFold opts.contentType source.metadata.contentType) = false := by
      simpa using hct
    simp [reachesFork, hct']
  rename_i hct
  have hct' : (decide (opts.contentType = []) ||
      env.equalFold opts.contentType source.metadata.contentType) = true := by
    by_cases hnil : opts.contentType = []
    · simp [hnil]
    · simpa [hnil] using hct
  have hreach : reachesFork s env path opts source = true := by
    rw [reachesFork, hinc, hct']
    simpa [hself, Option.all_eq_true] using hfree
  rw [if_neg (by simp [hle, Offset.zero_le])] at h
  rcases Option.map_eq_some_iff.mp h with ⟨res, hres, heq⟩
  refine .inr ⟨hreach, res, hres, ?_⟩
  cases res with
  | error err =>
    cases heq
    exact .inl ⟨err, rfl, rfl⟩
  | ok d =>
    rcases d with ⟨forkOffset, pfx⟩
    dsimp only at heq
    rw [hdata, withInitialData, if_pos rfl] at heq
    cases heq
    refine .inr ⟨forkOffset, pfx, incarnation, rfl, ⟨?_, hself, hsource, hle, hres⟩, rfl, rfl⟩
    intro st hst
    simpa [hst] using hfree

theorem visible_fork {e : Event} (hiso : Isolated s.streams) (hsrc : keepsSources s.streams e)
    (hcall : e.call = .create path opts) (hfork : opts.forkedFrom ≠ [])
    (h : Resolved s e.env path opts source forkOffset pfx) {n : ℕ} {vis : List Message}
    (hvis : visible s.streams n source = some vis) (incarnation : Bytes) (now : Time) :
    let st := materialize (forkMetadata path incarnation now opts source.metadata forkOffset) pfx
    visible (((s.remove path).addRef opts.forkedFrom 1).set path st).streams (n + 1) st =
      some (upTo vis forkOffset ++
        if pfx = [] then [] else [⟨pfx, forkOffset.add pfx.length⟩]) := by
  intro st
  have hfrom : st.metadata.forkedFrom = opts.forkedFrom ∧ st.metadata.forkOffset = forkOffset ∧
      st.messages = if pfx = [] then [] else [⟨pfx, forkOffset.add pfx.length⟩] := by
    simp only [st, materialize]
    split <;> exact ⟨rfl, rfl, rfl⟩
  unfold visible
  rw [hfrom.1, if_neg hfork, h.referenced, hfrom.2.1, hfrom.2.2]
  dsimp only
  rw [visible_created hiso hsrc hcall h st n, hvis, Option.map_some]
  rfl

end Created

/-- A new fork without initial data reads as its source up to the fork offset and the sub-offset,
and the sub-offset is refused exactly when it overshoots. This holds in every state that is reached
under the conditions of tiled streams, for a creation that does not replace an expired stream that
has forks. -/
theorem fork_content {h : List Event} (hrun : Trace.Run (Guarded tilesForks) empty h s)
    (hcreate : s.create env path opts = some (s', r))
    (hsrc : keepsSources s.streams ⟨env, .create path opts, .create r⟩ = true)
    (hfork : opts.forkedFrom ≠ []) (hsource : s.streams.lookup opts.forkedFrom = some source)
    (hsoft : source.metadata.softDeleted = false)
    (hexp : source.metadata.isExpiredAt (env.clock 1) = false)
    {depth : ℕ} {vis : List Message}
    (hvis : readForkedStream s.streams depth source zeroOffset = some vis) {f : Offset}
    (hf : f = opts.forkOffset.getD source.metadata.currentOffset) (hends : EndsIn vis f)
    (hle : f ≤ source.metadata.currentOffset) (hdata : opts.initialData = []) :
    (∀ md, r = .ok (md, true) →
      ∃ st depth' l, s'.streams.lookup path = some st ∧ md = st.metadata ∧
        (∀ n, depth' ≤ n → readForkedStream s'.streams n st zeroOffset = some l) ∧
        if isJSONContentType source.metadata.contentType then
          l = upTo vis f ++ (behind vis f).take (opts.forkSubOffset.getD 0)
        else contentOf l = (contentOf vis).take (f.byteOffset + opts.forkSubOffset.getD 0)) ∧
    (r = .error .invalidForkSubOffset ↔
      reachesFork s env path opts source = true ∧
        overshoots (isJSONContentType source.metadata.contentType) vis f
          (opts.forkSubOffset.getD 0) = true) := by
  have ht := tiled_run hrun
  have hlaid := ht.isolated.laid
  have hlaid' : LaidOut s'.streams := by
    have hstep : Step s ⟨env, .create path opts, .create r⟩ s' := by
      change (s.create env path opts).map _ = _
      rw [hcreate]
      rfl
    exact (step_change hstep).laidOut hlaid rfl
  rcases ht.isolated.visible_some hsource with ⟨n, v, hv⟩
  have htiles := ht.tiles _ _ hsource n v hv
  have hseq : f.readSeq = 0 := readSeq_of_le hle (hlaid _ _ hsource).tail_readSeq
  obtain rfl : v = vis := by
    have hall := readForkedStream_eq hlaid hsource (visible_mono (le_max_left n depth) hv)
      (show zeroOffset.readSeq = 0 from rfl)
    rw [readForkedStream_mono (le_max_right n depth) hvis, Option.some.injEq,
      List.filter_eq_self.mpr fun m hm => by simpa using htiles.lt m hm] at hall
    exact hall.symm
  subst hf
  rcases create_fork_cases hfork hsource hsoft hexp hle hdata hcreate with
    ⟨hreach, hr, hr'⟩ | ⟨hreach, res, hres, hr⟩
  · exact ⟨fun md hmd => absurd hmd (hr md), iff_of_false hr' (by simp [hreach])⟩
  rw [hreach]
  have hfree : FreeAt s.streams ⟨env, .create path opts, .create r⟩ path := by
    simp only [reachesFork, Bool.and_eq_true] at hreach
    intro st hst
    simpa [hst] using hreach.1.1.1
  have hself : opts.forkedFrom ≠ path := by
    simp only [reachesFork, Bool.and_eq_true, decide_eq_true_eq] at hreach
    exact hreach.1.2
  -- the sub-offset is resolved without the stream that the path held
  have hv' : visible (s.streams.erase path) n source = some v := by
    rw [visible_free ht.isolated hsrc rfl hfree hself hsource]
    exact hv
  have hlookup : (s.streams.erase path).lookup opts.forkedFrom = some source := by
    rw [Finmap.lookup_erase_ne hself]
    exact hsource
  rcases resolveFork_cases (hlaid.erase path) hlookup hv' hseq hres with
    ⟨rfl, hover⟩ | ⟨forkOffset, pfx, rfl, hdiv⟩
  · rcases hr with ⟨err, herr, rfl⟩ | ⟨_, _, _, hok, -⟩
    · cases herr
      exact ⟨by simp, iff_of_true rfl ⟨rfl, hover⟩⟩
    · cases hok
  · rcases hr with ⟨err, herr, -⟩ | ⟨_, _, incarnation, hok, hresolved, rfl, rfl⟩
    · cases herr
    cases hok
    refine ⟨?_, iff_of_false (by simp) (by simp [hdiv.fits])⟩
    rintro md hmd
    cases hmd
    have hvisible := visible_fork ht.isolated hsrc rfl hfork hresolved hv incarnation (env.clock 2)
    have hnew : (((s.remove path).addRef opts.forkedFrom 1).set path (materialize (forkMetadata path
        incarnation (env.clock 2) opts source.metadata forkOffset) pfx)).streams.lookup path =
        some _ := Finmap.lookup_insert _
    refine ⟨_, n + 1, upTo v forkOffset ++
      if pfx = [] then [] else [⟨pfx, forkOffset.add pfx.length⟩], hnew, rfl, fun m hm => ?_, ?_⟩
    · rw [readForkedStream_eq hlaid' hnew (visible_mono hm hvisible) rfl, List.filter_eq_self.mpr]
      intro x hx
      simpa using ((visible_sorted hlaid' hnew hvisible).2 x hx).1
    · split
      · rename_i hjson
        rcases hdiv.moved hjson with ⟨rfl, hmoved⟩
        rw [if_pos rfl, List.append_nil, hmoved]
      · rename_i hjson
        exact hdiv.content htiles hends (by simpa using hjson)

def contentCalls : List (Env × Call) :=
  [(.frozen 0, .create [97] { initialData := [1, 2, 3] }), (.frozen 1, .append [97] [4, 5] {})]

theorem contentCalls_run : (empty.execGuarded tilesForks contentCalls).isSome := by decide

def contentFork : CreateOptions :=
  { forkedFrom := [97], forkOffset := some ⟨0, 3⟩, forkSubOffset := some 1 }

theorem fork_content_binary :
    ∃ h s s' md st depth l, Trace.Run (Guarded tilesForks) empty h s ∧
      s.create (.frozen 2) [98] contentFork = some (s', .ok (md, true)) ∧
      s'.streams.lookup [98] = some st ∧
      (∀ n, depth ≤ n → readForkedStream s'.streams n st zeroOffset = some l) ∧
      contentOf l = [1, 2, 3, 4] := by
  let s := (ran _ contentCalls contentCalls_run).2
  let source := (s.streams.lookup [97]).get (by decide)
  let st := materialize (forkMetadata [98] [105] 2 contentFork source.metadata ⟨0, 3⟩) [4]
  have hcreate : s.create (.frozen 2) [98] contentFork =
      some (((s.remove [98]).addRef [97] 1).set [98] st, .ok (st.metadata, true)) := rfl
  have hsource : s.streams.lookup contentFork.forkedFrom = some source := (Option.some_get _).symm
  have hvis : readForkedStream s.streams 1 source zeroOffset =
      some [⟨[1, 2, 3], ⟨0, 3⟩⟩, ⟨[4, 5], ⟨0, 5⟩⟩] := rfl
  have hf : ⟨0, 3⟩ = contentFork.forkOffset.getD source.metadata.currentOffset := rfl
  have hle : ⟨0, 3⟩ ≤ source.metadata.currentOffset := by decide
  rcases (fork_content (ran_guarded contentCalls_run) hcreate (by decide) (by decide) hsource rfl
    (by decide) hvis hf (by decide) hle rfl).1 _ rfl with ⟨st', depth, l, hst', -, hl, hcontent⟩
  exact ⟨_, _, _, _, st', depth, l, ran_guarded contentCalls_run, hcreate, hst', hl, hcontent⟩

def hollowCalls : List (Env × Call) :=
  [(.frozen 0, .create [97] { initialData := [1, 2, 3], ttlSeconds := some 1 }),
    (.frozen 1, .create [98] { forkedFrom := [97], ttlSeconds := some 100 }),
    (.frozen 2, .append [98] [4, 5] {}), (.frozen 3, .append [98] [6] {}),
    (.frozen (10 * 10 ^ 9), .create [97] {})]

theorem hollowCalls_run : (empty.execGuarded (fun _ e => appendsData e) hollowCalls).isSome := by
  decide

/-- A fork at the end of the first message that is left has two bytes, and the first five of its
source are three. -/
theorem fork_content_hollow :
    ∃ h s s' source st md vis, Run h s ∧
      s.create (.frozen (10 * 10 ^ 9)) [99] { forkedFrom := [98], forkOffset := some ⟨0, 5⟩ } =
        some (s', .ok (md, true)) ∧
      s.streams.lookup [98] = some source ∧ source.metadata.softDeleted = false ∧
      source.metadata.isExpiredAt (10 * 10 ^ 9) = false ∧
      isJSONContentType source.metadata.contentType = false ∧
      readForkedStream s.streams 2 source zeroOffset = some vis ∧ EndsIn vis ⟨0, 5⟩ ∧
      s'.streams.lookup [99] = some st ∧
      (readForkedStream s'.streams 3 st zeroOffset).map contentOf = some [4, 5] ∧
      (contentOf vis).take 5 = [4, 5, 6] := by
  let s := (ran _ hollowCalls hollowCalls_run).2
  let source := (s.streams.lookup [98]).get (by decide)
  let st := materialize (forkMetadata [99] [105] (10 * 10 ^ 9)
    { forkedFrom := [98], forkOffset := some ⟨0, 5⟩ } source.metadata ⟨0, 5⟩) []
  exact ⟨_, s, ((s.remove [99]).addRef [98] 1).set [99] st, source, st, st.metadata,
    [⟨[4, 5], ⟨0, 5⟩⟩, ⟨[6], ⟨0, 6⟩⟩], ran_run hollowCalls_run, rfl, (Option.some_get _).symm, rfl,
    by decide, by decide, rfl, by decide, rfl, rfl, rfl⟩

end MemoryStore

end Chronicle
