import Chronicle.Redis.Commit

/-! # Append refines the memory store

On corresponding states the append script, with the client around it, answers
like the memory store and leaves corresponding states behind. The one exception
is by design: a source of forks that was found expired is soft-deleted in Redis,
and later requests are told so.
-/

namespace Chronicle.Redis

open Decimal

section Replies

@[simp] theorem parseInt64_zero : parseInt64 [48] = some 0 := by decide

@[simp] theorem parseInt64_one : parseInt64 [49] = some 1 := by decide

@[simp] theorem parseInt64_two : parseInt64 [50] = some 2 := by decide

@[simp] theorem zeroFlag_ne_one : ([48] : Bytes) ≠ one := by decide

end Replies

attribute [local simp] mapAttempt decodeScriptReply mapAppendReply

variable {st : MemoryStream} {k : StreamKeys} {a : AppendArgs} {now : Time} {opts : AppendOptions}
  {path : Path} {data : Bytes} {frameErr : Option StoreError}

section Ladder

variable {m : MetaHash}

theorem parseOffset_tail (h : Mirrors st k) :
    Offset.parseOffset st.metadata.currentOffset.string = some st.metadata.currentOffset :=
  Offset.parseOffset_string h.small

theorem admitProducer_mirrors (frameErr : Option StoreError) (h : Mirrors st k) (hm : Shows st m)
    (ha : Carries path now opts a) (hfits : RequestFits opts) :
    match st.admitProducer opts now with
    | .ok adm => admitProducer m k a = some none ∧ adm = admissionOf opts now
    | .error out => ∃ reply, admitProducer m k a = some (some reply) ∧
        mapAttempt frameErr reply = .done out.1 out.2 := by
  have hparse := parseOffset_tail h
  unfold MemoryStream.admitProducer admitProducer admissionOf
  cases hp : opts.producer with
  | none => simp [ha.hasProducer, hp]
  | some p =>
    rcases producer_eq_some hp with ⟨hid, hepoch, hseq, -⟩
    have hfitSeq := hfits.seq _ hseq
    have hv := validateProducer_encode (st.metadata.producers p.producerId) p.epoch p.seq now.unix
    simp only [ha.hasProducer, hp, Option.isSome_some, not_true, if_false, ha.producerId, ← hid,
      h.prod, ha.pEpoch, ha.pSeq, hepoch, hseq, hm.tail, Option.getD_some, hv, Option.map_some]
    -- every answer of the state machine is a reply that the client reads back
    rcases validateProducer_answers (h.producers p.producerId) hfitSeq p.epoch now.unix with
      ⟨c, hfit, hans⟩ | hans | ⟨n, hfit, hans⟩ | ⟨l, hfit, hans⟩ | hans
    · rw [hans]
      simp [outcomeOf, hparse, hfit]
    · rw [hans]
      simp [outcomeOf, hparse]
    · rw [hans]
      simp [outcomeOf, hparse, hfit, hfitSeq]
    · rw [hans]
      simp [hparse, hfit, producerResultOf]
    · rw [hans]
      simp [outcomeOf]

theorem closedBy_mirrors (hm : Shows st m) (ha : Carries path now opts a) :
    (a.hasProducer && (m .cbEpoch).isSome && m .cbId = some a.producerId &&
      m .cbEpoch = some a.pEpoch && m .cbSeq = some a.pSeq) =
      opts.producer.any st.closedByRequest := by
  rw [ha.hasProducer]
  cases hp : opts.producer with
  | none => rfl
  | some p =>
    rcases producer_eq_some hp with ⟨hid, hepoch, hseq, -⟩
    rw [ha.producerId, ha.pEpoch, ha.pSeq, hepoch, hseq, ← hid]
    exact hm.closedByRequest p

theorem requestCT_ne_nil (hct : opts.contentType ≠ [])
    (hmedia : extractMediaType opts.contentType ≠ []) : requestCT opts ≠ [] := by
  simpa [requestCT, normalizeCT, orOctetStream, hct, Bytes.toLower] using hmedia

theorem normCt_mirrors {ct : Bytes} (hct : opts.contentType ≠ [])
    (hmedia : extractMediaType opts.contentType ≠ []) :
    (requestCT opts ≠ [] ∧ normCt (some ct) ≠ requestCT opts) ↔
      ¬ contentTypeMatches ct opts.contentType := by
  have hreq : requestCT opts = Bytes.toLower (extractMediaType opts.contentType) := by
    simp [requestCT, normalizeCT, orOctetStream, hct]
  rw [and_iff_right (requestCT_ne_nil hct hmedia), normCt_some, hreq]
  simp [normalizeCT, contentTypeMatches, equalFold, orOctetStream, hct]

theorem seqConflict_mirrors (hm : Shows st m) (seq : Bytes) :
    (seq ≠ [] && (m .lastSeq).any fun l => l ≠ [] && Bytes.lexLe seq l) = st.seqConflict seq := by
  have hlast : m .lastSeq = nonEmpty st.metadata.lastSeq := hm _ (by simp) (by simp)
  rw [hlast, MemoryStream.seqConflict]
  by_cases hl : st.metadata.lastSeq = [] <;> simp [nonEmpty, hl]

/-- The outcome of a script run that stands for an outcome of the memory store. -/
structure Answers (frameErr : Option StoreError) (out : MemoryStream × AppendResult × Option StoreError)
    (fences : Bytes → MarkerHash) (k : StreamKeys) (reply : Reply) : Prop where
  reply : mapAttempt frameErr reply = .done out.2.1 out.2.2
  mirrors : Mirrors out.1 k
  fences : k.fences = fences

/-- A body that is framed for the tail of a stream, where its end is an offset. -/
structure Submitted (st : MemoryStream) (data : Bytes) (opts : AppendOptions) (a : AppendArgs)
    (frameErr : Option StoreError) : Prop where
  nonempty : data ≠ []
  media : opts.contentType = [] ∨ extractMediaType opts.contentType ≠ []
  framed : (opts.contentType = [] ∨
      contentTypeMatches st.metadata.contentType opts.contentType) →
    Framed st.metadata.contentType data st.metadata.currentOffset a frameErr
  base : a.expectedTail = st.metadata.currentOffset.string
  small : ∀ ds, splitBody st.metadata.contentType data false = .ok ds →
    (endOffset st.metadata.currentOffset ds).Small

theorem appendOpen_mirrors (h : Mirrors (st.touch now) k)
    (hm : Shows (st.touch now) m) (ha : Carries path now opts a)
    (hfits : RequestFits opts) (hgen : ∀ f, opts.fence = some f → 0 < f.generation)
    (hbody : Submitted st data opts a frameErr) :
    ∃ k' reply, appendOpen m a now k = some (k', reply) ∧
      Answers frameErr (st.append now now data opts) k.fences k' reply := by
  obtain ⟨hdata, hmedia, hframed, hbase, hsmall⟩ :
    Submitted (st.touch now) data opts a frameErr := { hbody with }
  unfold MemoryStream.append
  generalize st.touch now = st at *
  have hparse := parseOffset_tail h
  have hmismatch : (a.reqCT ≠ [] ∧ normCt (m .ct) ≠ a.reqCT) ↔
      (opts.contentType ≠ [] ∧ ¬ contentTypeMatches st.metadata.contentType opts.contentType) := by
    rw [ha.reqCT, hm.ct]
    by_cases hempty : opts.contentType = []
    · simp [hempty, requestCT]
    · rw [normCt_mirrors hempty (hmedia.resolve_left hempty), and_iff_right hempty]
  unfold appendOpen
  rw [hm.tail, Option.getD_some, closedBy_mirrors hm ha]
  simp only [hm.closed, hmismatch]
  by_cases hcl : st.metadata.closed = true
  · rw [if_pos hcl, if_pos hcl]
    cases hp : opts.producer with
    | none => exact ⟨k, _, rfl, by simp [hparse], h, rfl⟩
    | some p =>
      rcases producer_eq_some hp with ⟨-, -, hseq, -⟩
      have hfitSeq := hfits.seq _ hseq
      rw [Option.any_some]
      dsimp only
      by_cases hby : st.closedByRequest p = true
      · rw [if_pos hby, if_pos hby]
        refine ⟨k, _, rfl, ?_, h, rfl⟩
        simp [hparse, ha.pSeq, hseq, hfitSeq, producerResultOf]
      · rw [if_neg hby, if_neg hby]
        exact ⟨k, _, rfl, by simp [hparse], h, rfl⟩
  rw [if_neg hcl, if_neg hcl]
  by_cases hmis : opts.contentType ≠ [] ∧
      ¬ contentTypeMatches st.metadata.contentType opts.contentType
  · rw [if_pos hmis, if_pos hmis]
    exact ⟨k, _, rfl, by simp [hparse], h, rfl⟩
  rw [if_neg hmis, if_neg hmis]
  have hadmit := admitProducer_mirrors frameErr h hm ha hfits
  cases hadm : st.admitProducer opts now with
  | error out =>
    rw [hadm] at hadmit
    rcases hadmit with ⟨reply, hreply, hmap⟩
    rw [hreply]
    exact ⟨k, reply, rfl, hmap, h, rfl⟩
  | ok adm =>
    rw [hadm] at hadmit
    rcases hadmit with ⟨hreply, rfl⟩
    rw [hreply, ha.streamSeq, seqConflict_mirrors hm]
    dsimp only
    by_cases hconf : st.seqConflict opts.seq = true
    · rw [if_pos hconf, if_pos hconf]
      exact ⟨k, _, rfl, by simp [hparse], h, rfl⟩
    rw [if_neg hconf, if_neg hconf]
    have hframed := hframed (by
      by_contra hcon
      rw [not_or] at hcon
      exact hmis hcon)
    unfold MemoryStream.appendToStream
    cases hframed with
    | invalid hsplit hval =>
      rw [hsplit, if_pos hval]
      refine ⟨k, _, rfl, ?_, h, rfl⟩
      simp [hparse]
    | @frames ds hsplit hframes hnew hval =>
      have hds := splitBody_ne_nil hsplit hdata
      have hne := splitBody_nonempty hsplit
      have hnewSmall := hsmall ds hsplit
      have hmirrors := h.commit hm.wf ha hfits hgen hds hne hframes hnew
        hnewSmall
      have hparseNew := Offset.parseOffset_string hnewSmall
      rw [hsplit, if_neg (by simp [hval]), if_neg (by simp [hbase])]
      refine ⟨_, _, rfl, ?_, hmirrors, (commit_keys m now k ?_).2.1⟩
      · rw [ha.hasProducer, ha.closing, ha.pSeq, hnew]
        unfold admissionOf
        cases hp : opts.producer with
        | none =>
          cases opts.close <;>
            simp [hparseNew, producerResultOf]
        | some p =>
          rcases producer_eq_some hp with ⟨-, -, hseq, -⟩
          have hfitSeq := hfits.seq _ hseq
          cases opts.close <;>
            simp [hparseNew, producerResultOf, hseq, hfitSeq]
      · rw [hframes]
        rcases ds with _ | ⟨d, ds⟩
        · exact absurd rfl hne
        · simp [layOut]

end Ladder

variable {s : MemoryStore} {env : Env}

section Script

variable {k' : StreamKeys} {wall : Time}

/-- Marking a stream as deleted keeps the correspondence. -/
theorem Mirrors.softDelete (h : Mirrors st k) :
    Mirrors { st with metadata := { st.metadata with softDeleted := true } }
      (k.hset .softDel one) :=
  h.hset (by simp) rfl (fun g hg => by cases g <;> first | rfl | exact absurd rfl hg) rfl rfl rfl
    rfl rfl

/-- What the scripts do with an expired stream leaves a corresponding state. -/
theorem expireCleanup_corresponds (h : Mirrors st k) (hexp : st.metadata.isExpiredAt now) :
    ∃ k', expireCleanup k.info k = some k' ∧ Corresponds now (some st) k' ∧
      k'.fences = k.fences := by
  unfold expireCleanup
  rw [h.refs, Option.map_some]
  by_cases hrefs : 0 < st.metadata.refCount.toInt
  · rw [if_pos hrefs]
    exact ⟨_, rfl, .flipped hexp hrefs h.softDelete, rfl⟩
  · rw [if_neg hrefs]
    exact ⟨_, rfl, .removed hexp rfl, rfl⟩

/-- The marker that a lookup finds: one whose retention has not lapsed. -/
theorem marker_snd (s : MemoryStore) (path : Path) (authority : Bytes) (wall : Time) :
    (s.marker path authority wall).2 =
      ((s.markers path authority).filter fun m => ¬ m.expiresAt < wall).map MemoryMarker.marker := by
  unfold MemoryStore.marker
  cases s.markers path authority with
  | none => rfl
  | some m =>
    by_cases h : m.expiresAt < wall
    · simp [h]
    · simp [h, not_lt.mp h]

theorem marker_marker (s : MemoryStore) (path : Path) (authority authority' : Bytes) (wall : Time) :
    ((s.marker path authority wall).1.marker path authority' wall).2 =
      (s.marker path authority' wall).2 := by
  rw [marker_snd, marker_snd]
  unfold MemoryStore.marker
  cases hm : s.markers path authority with
  | none => rfl
  | some m =>
    dsimp only
    by_cases hreap : m.expiresAt < wall
    · rw [if_pos hreap]
      by_cases heq : authority' = authority
      · subst heq
        simp [MemoryStore.putMarker, hm, hreap]
      · simp [MemoryStore.putMarker, heq]
    · rw [if_neg hreap]

/-- Consulting the write fence reaps markers only, which Redis has dropped already. -/
theorem MarkersMirror.fenceRung (h : MarkersMirror s path k wall) (k' : StreamKeys)
    (st : MemoryStream) (fence : Option AppendFence) (pid : Bytes) (epoch : Option ℤ) (now : Time)
    (hk : k'.fences = k.fences) :
    MarkersMirror (s.fenceRung path st fence pid epoch now wall).1 path k' wall := by
  intro f
  rw [hk]
  have hmarker : ((s.fenceRung path st fence pid epoch now wall).1.marker path (fenceAuthority f)
      wall).2 = (s.marker path (fenceAuthority f) wall).2 := by
    unfold MemoryStore.fenceRung
    cases fence with
    | some g => exact marker_marker s path (fenceAuthority g) (fenceAuthority f) wall
    | none =>
      split_ifs <;> rfl
  rw [hmarker]
  exact h f

theorem MarkersMirror.set (h : MarkersMirror s path k wall) (st : MemoryStream) :
    MarkersMirror (s.set path st) path k wall := by
  intro f
  have hf := h f
  rw [marker_snd] at hf ⊢
  exact hf

theorem AppendFence.complete_iff {f : AppendFence} (h : opts.fence = some f)
    (hcomplete : opts.fence.any (fun f => !f.complete) = false) :
    0 ≤ f.shard ∧ 0 < f.generation := by
  rw [h, Option.any_some, Bool.not_eq_false'] at hcomplete
  exact complete_ranges hcomplete

theorem producer_isSome_eq (h : (opts.hasProducerHeaders && !opts.hasAllProducerHeaders) = false) :
    opts.producer.isSome = opts.producerEpoch.isSome := by
  rw [AppendOptions.producer_isSome]
  cases hall : opts.hasAllProducerHeaders with
  | true =>
    simp only [AppendOptions.hasAllProducerHeaders, Bool.and_eq_true] at hall
    exact hall.1.2.symm
  | false =>
    rw [(noHeaders h hall).2.1]
    rfl

theorem appendScript_mirrors (h : Mirrors st k) (hlookup : s.streams.lookup path = some st)
    (hmark : MarkersMirror s path k (env.wall 0)) (hclock : ∀ i, env.clock i = now)
    (hnow : now ≤ maxInt64) (ha : Carries path now opts a) (hfits : RequestFits opts)
    (hcomplete : opts.fence.any (fun f => !f.complete) = false)
    (hsome : (opts.hasProducerHeaders && !opts.hasAllProducerHeaders) = false)
    (hbody : Submitted st data opts a frameErr) :
    ∃ k' reply, appendScript a k = some (k', reply) ∧
      mapAttempt frameErr reply = .done (s.append env path data opts).2.1
        (s.append env path data opts).2.2 ∧
      Corresponds now ((s.append env path data opts).1.streams.lookup path) k' ∧
      MarkersMirror (s.append env path data opts).1 path k' (env.wall 0) := by
  have hzero : Offset.parseOffset [] = some zeroOffset := by decide
  unfold MemoryStore.append appendScript
  rw [if_neg (by simp [hcomplete]), if_neg (by simp [hsome]), hlookup, ha.nowNs,
    tonumber_formatInt, h.shows.metaMap, hclock 0]
  simp only [h.shows.softDel]
  by_cases hsd : st.metadata.softDeleted = true
  · rw [if_pos hsd, if_pos hsd]
    refine ⟨k, _, rfl, ?_, ?_, hmark⟩
    · simp [hzero]
    · rw [hlookup]
      exact .present h
  rw [if_neg hsd, if_neg hsd, isExpired_mirrors h hnow]
  by_cases hexp : st.metadata.isExpiredAt now = true
  · rcases expireCleanup_corresponds h hexp with ⟨k', hk', hcorr, hfences⟩
    rw [hexp, if_pos rfl]
    rw [hk', Option.map_some]
    refine ⟨k', _, rfl, ?_, ?_, ?_⟩
    · simp [hzero]
    · rw [hlookup]
      exact hcorr
    · intro f
      rw [hfences]
      exact hmark f
  rw [if_neg hexp, Bool.not_eq_true _ |>.mp hexp]
  rcases fenceRung_mirrors now h hmark opts.fence
    (fun f hf => (AppendFence.complete_iff hf hcomplete).1) opts.producerId opts.producerEpoch with
    ⟨hrung, hfit⟩
  rw [ha.fence, ha.hasProducer, producer_isSome_eq hsome, ha.producerId, ha.pEpoch, hrung,
    hclock 1]
  have hkept := fun k' => hmark.fenceRung k' st opts.fence opts.producerId opts.producerEpoch now
  have hstreams := s.fenceRung_streams path st opts.fence opts.producerId opts.producerEpoch now
    (env.wall 0)
  generalize s.fenceRung path st opts.fence opts.producerId opts.producerEpoch now (env.wall 0) = r
    at *
  rcases r with ⟨s', out⟩
  dsimp only at hfit hkept hstreams ⊢
  by_cases hreason : out.reason = .none
  · rw [if_neg (by simp [hreason]), if_neg (by simp [hreason]), hclock 2, hclock 3]
    have hm : Shows (st.touch now) k.info := by
      intro f hf hacc
      rw [← (h.touch now).info f hf, hset_info, if_neg hacc]
    rcases appendOpen_mirrors (h.touch now) hm ha hfits
      (fun f hf => (AppendFence.complete_iff hf hcomplete).2) hbody with
      ⟨k', reply, hopen, hans⟩
    refine ⟨k', reply, hopen, hans.reply, ?_, (hkept k' hans.fences).set _⟩
    rw [MemoryStore.set, Finmap.lookup_insert]
    exact .present hans.mirrors
  · rw [if_pos hreason, if_pos hreason]
    refine ⟨k, _, rfl, ?_, ?_, hkept k rfl⟩
    · simp [fenceReply, h.shows.tail, parseOffset_tail h, hfit]
    · rw [hstreams, hlookup]
      exact .present h

end Script

section Client

variable {ct : Bytes} {clock : ℕ → Time} {hint : Option Offset}

theorem attempts_pos (opts : AppendOptions) : ∃ n, attempts opts = n + 1 := by
  unfold attempts maxAppendRetries
  split
  · exact ⟨127, rfl⟩
  · exact ⟨63, rfl⟩

theorem splitBody_congr {ct' : Bytes} (h : contentTypeMatches ct ct') (hct : ct' ≠ []) :
    splitBody ct' data false = splitBody ct data false := by
  have hjson : isJSONContentType ct' = isJSONContentType ct := by
    simp only [contentTypeMatches, equalFold, orOctetStream, hct, if_false, decide_eq_true_eq] at h
    unfold isJSONContentType
    rw [← h]
    by_cases hempty : ct = []
    · subst hempty
      decide
    · rw [if_neg hempty]
  rw [splitBody, splitBody, hjson]

theorem attempt_of_script {base : Offset} {k' : StreamKeys} {reply : Reply}
    (h : appendScript (attemptArgs now path data opts base ct).1 k = some (k', reply)) :
    attempt now path data opts base ct k =
      (k', mapAttempt (attemptArgs now path data opts base ct).2 reply) := by
  unfold attempt
  dsimp only
  rw [h]

theorem appendLoop_done {n : ℕ} {base : Offset} {k' : StreamKeys} {result : AppendResult}
    {err : Option StoreError}
    (hframe : frameAgainst opts hint k = .ok (base, ct))
    (hattempt : attempt (clock n) path data opts base ct k = (k', .done result err)) :
    appendLoop clock path data opts (n + 1) hint k = (k', result, err) := by
  rw [appendLoop, hframe]
  dsimp only
  rw [hattempt]

theorem readTailAndContentType_mirrors (h : Mirrors st k) :
    readTailAndContentType k = .ok (st.metadata.currentOffset, st.metadata.contentType) := by
  have hne : st.metadata.currentOffset.string ≠ [] := by
    intro hnil
    have := Offset.length_string h.small
    rw [hnil] at this
    simp at this
  unfold readTailAndContentType
  rw [h.shows.tail, h.shows.ct, Option.getD_some, Option.getD_some, if_neg hne, parseOffset_tail h]

theorem appendScript_del {a : AppendArgs} (hk : k = k.del) (hnow : a.nowNs = formatInt now) :
    appendScript a k = some (k, { status := .notFound }) := by
  unfold appendScript
  rw [hnow, tonumber_formatInt, hk]
  rfl

theorem appendScript_softDel {a : AppendArgs} (h : Mirrors st k)
    (hsoft : st.metadata.softDeleted = true) (hnow : a.nowNs = formatInt now) :
    appendScript a k = some (k, { status := .softDel }) := by
  unfold appendScript
  rw [hnow, tonumber_formatInt, h.shows.metaMap]
  dsimp only
  rw [if_pos (h.shows.softDel.mpr hsoft)]

theorem frameAgainst_mirrors (data : Bytes) (h : Mirrors st k)
    (hmedia : opts.contentType = [] ∨ extractMediaType opts.contentType ≠ [])
    (hhint : ∀ base, opts.tailHint = some base → base = st.metadata.currentOffset) :
    ∃ ct, frameAgainst opts (firstHint opts) k = .ok (st.metadata.currentOffset, ct) ∧
      ((opts.contentType = [] ∨ contentTypeMatches st.metadata.contentType opts.contentType) →
        splitBody ct data false = splitBody st.metadata.contentType data false) := by
  have hread := readTailAndContentType_mirrors h
  unfold firstHint frameAgainst
  by_cases hct : opts.contentType = []
  · have hreq : requestCT opts = [] := by simp [requestCT, hct]
    rw [if_neg (not_not.mpr hreq), hread]
    exact ⟨st.metadata.contentType, by simp [Except.map, hreq], fun _ => rfl⟩
  · have hreq := requestCT_ne_nil hct (hmedia.resolve_left hct)
    refine ⟨opts.contentType, ?_, fun hm => splitBody_congr (hm.resolve_left hct) hct⟩
    rw [if_pos hreq]
    cases hint : opts.tailHint with
    | none => simp [hread, Except.map, hreq]
    | some base => rw [hhint base hint]

theorem appendLoop_del {n : ℕ} (hk : k = k.del)
    (hsome : (opts.hasProducerHeaders && !opts.hasAllProducerHeaders) = false) :
    appendLoop clock path data opts (n + 1) hint k = (k, {}, some .streamNotFound) := by
  cases hint with
  | none =>
    have hread : readTailAndContentType k = .error .streamNotFound := by
      rw [hk]
      rfl
    rw [appendLoop, frameAgainst, hread]
    rfl
  | some base =>
    refine appendLoop_done rfl ?_
    exact attempt_of_script (appendScript_del hk (attemptArgs_carries hsome).nowNs)

theorem appendLoop_softDel {n : ℕ} (h : Mirrors st k)
    (hsoft : st.metadata.softDeleted = true)
    (hsome : (opts.hasProducerHeaders && !opts.hasAllProducerHeaders) = false)
    (hmedia : opts.contentType = [] ∨ extractMediaType opts.contentType ≠ [])
    (hhint : ∀ base, opts.tailHint = some base → base = st.metadata.currentOffset) :
    appendLoop clock path data opts (n + 1) (firstHint opts) k =
      (k, {}, some .streamSoftDeleted) := by
  rcases frameAgainst_mirrors data h hmedia hhint with ⟨ct, hframe, -⟩
  refine appendLoop_done hframe ?_
  exact attempt_of_script (appendScript_softDel h hsoft (attemptArgs_carries hsome).nowNs)

end Client

section Refinement

variable {clock : ℕ → Time}

theorem appendLoop_mirrors {n : ℕ} {st : MemoryStream} (h : Mirrors st k)
    (hlookup : s.streams.lookup path = some st) (hmark : MarkersMirror s path k (env.wall 0))
    (hclock : ∀ i, env.clock i = now) (hclock' : ∀ n, clock n = now) (hnow : now ≤ maxInt64)
    (hfits : RequestFits opts) (hcomplete : opts.fence.any (fun f => !f.complete) = false)
    (hsome : (opts.hasProducerHeaders && !opts.hasAllProducerHeaders) = false)
    (hdata : data ≠ []) (hmedia : opts.contentType = [] ∨ extractMediaType opts.contentType ≠ [])
    (hhint : ∀ base, opts.tailHint = some base → base = st.metadata.currentOffset)
    (hsmall : ∀ ds, splitBody st.metadata.contentType data false = .ok ds →
      (endOffset st.metadata.currentOffset ds).Small) :
    let m := s.append env path data opts
    let r := appendLoop clock path data opts (n + 1) (firstHint opts) k
    r.2 = m.2 ∧ Corresponds now (m.1.streams.lookup path) r.1 ∧
      MarkersMirror m.1 path r.1 (env.wall 0) := by
  rcases frameAgainst_mirrors data h hmedia hhint with ⟨ct, hframe, hsplit⟩
  rcases appendScript_mirrors h hlookup hmark hclock hnow (attemptArgs_carries hsome) hfits
    hcomplete hsome
    ⟨hdata, hmedia, fun hm => attemptArgs_framed hdata (hsplit hm), attemptArgs_expectedTail, hsmall⟩
    with ⟨k', reply, hscript, hreply, hcorr, hmarkers⟩
  have hattempt : attempt (clock n) path data opts st.metadata.currentOffset ct k =
      (k', .done (s.append env path data opts).2.1 (s.append env path data opts).2.2) := by
    rw [hclock' n, attempt_of_script hscript, hreply]
  rw [appendLoop_done hframe hattempt]
  exact ⟨rfl, hcorr, hmarkers⟩

theorem append_expired {st : MemoryStream} (hlookup : s.streams.lookup path = some st)
    (hclock : ∀ i, env.clock i = now)
    (hcomplete : opts.fence.any (fun f => !f.complete) = false)
    (hsome : (opts.hasProducerHeaders && !opts.hasAllProducerHeaders) = false)
    (hexp : st.metadata.isExpiredAt now) :
    s.append env path data opts =
      (s, {}, some (if st.metadata.softDeleted then .streamSoftDeleted else .streamNotFound)) := by
  unfold MemoryStore.append
  rw [if_neg (by simp [hcomplete]), if_neg (by simp [hsome]), hlookup, hclock 0]
  dsimp only
  by_cases hsoft : st.metadata.softDeleted = true
  · rw [if_pos hsoft, if_pos hsoft]
  · rw [if_neg hsoft, if_pos hexp, if_neg hsoft]

/-- How the answers differ on an expired stream that only one backend has marked as deleted. -/
def MarkedOnce (now : Time) (st : MemoryStream) (k : StreamKeys)
    (memory redis : AppendResult × Option StoreError) : Prop :=
  st.metadata.isExpiredAt now ∧
    (st.metadata.softDeleted = false ∧ k.info .softDel = some one ∧
        memory = ({}, some .streamNotFound) ∧ redis = ({}, some .streamSoftDeleted) ∨
      st.metadata.softDeleted = true ∧ k = k.del ∧
        memory = ({}, some .streamSoftDeleted) ∧ redis = ({}, some .streamNotFound))

/-- Append refines the memory store: on corresponding states it answers the same and leaves
corresponding states, except that an expired stream that only one of them has marked as deleted
answers so there. -/
theorem append_refines (s : MemoryStore) (k : StreamKeys) (env : Env) (clock : ℕ → Time)
    (path : Path) (data : Bytes) (opts : AppendOptions) (hclock : ∀ i, env.clock i = now)
    (hclock' : ∀ n, clock n = now) (hnow : now ≤ maxInt64) (h : Corresponds now (s.streams.lookup path) k)
    (hmark : MarkersMirror s path k (env.wall 0)) (hdata : data ≠ []) (hfits : RequestFits opts)
    (hmedia : opts.contentType = [] ∨ extractMediaType opts.contentType ≠ [])
    (hhint : ∀ st base, s.streams.lookup path = some st → opts.tailHint = some base →
      base = st.metadata.currentOffset)
    (hsmall : ∀ st ds, s.streams.lookup path = some st →
      splitBody st.metadata.contentType data false = .ok ds →
      (endOffset st.metadata.currentOffset ds).Small) :
    let m := s.append env path data opts
    let r := append clock path data opts k
    (r.2 = m.2 ∨ ∃ st, s.streams.lookup path = some st ∧ MarkedOnce now st k m.2 r.2) ∧
    Corresponds now (m.1.streams.lookup path) r.1 ∧ MarkersMirror m.1 path r.1 (env.wall 0) := by
  intro m r
  by_cases hcomplete : opts.fence.any (fun f => !f.complete) = true
  · have hm : m = (s, {}, some .appendFenced) := if_pos hcomplete
    have hr : r = (k, {}, some .appendFenced) := by
      simp only [r, append, checkAppend, hcomplete, if_true]
    rw [hm, hr]
    exact ⟨.inl rfl, h, hmark⟩
  by_cases hsome : (opts.hasProducerHeaders && !opts.hasAllProducerHeaders) = true
  · have hm : m = (s, {}, some .partialProducer) := (if_neg hcomplete).trans (if_pos hsome)
    have hr : r = (k, {}, some .partialProducer) := by
      simp only [r, append, checkAppend, if_neg hcomplete, hsome, if_true]
    rw [hm, hr]
    exact ⟨.inl rfl, h, hmark⟩
  rcases attempts_pos opts with ⟨n, hn⟩
  have hcheck : checkAppend data opts = none := by
    rw [checkAppend, if_neg hcomplete, if_neg hsome, if_neg (by simp [hdata])]
  have hr : r = appendLoop clock path data opts (n + 1) (firstHint opts) k := by
    simp only [r, append, hcheck, hn]
  rw [Bool.not_eq_true] at hcomplete hsome
  rw [hr]
  generalize hl : s.streams.lookup path = found at h
  cases h with
  | absent hk =>
    have hm : m = (s, {}, some .streamNotFound) := by
      simp [m, MemoryStore.append, hcomplete, hsome, hl]
    rw [appendLoop_del hk hsome, hm, hl]
    exact ⟨.inl rfl, .absent hk, hmark⟩
  | present hst =>
    rcases appendLoop_mirrors hst hl hmark hclock hclock' hnow hfits hcomplete hsome hdata hmedia
      (fun base => hhint _ base hl) (fun ds => hsmall _ ds hl) with ⟨hout, hcorr, hmarkers⟩
    exact ⟨.inl hout, hcorr, hmarkers⟩
  | @removed st _ hexp hk =>
    have hm : m = _ := append_expired hl hclock hcomplete hsome hexp
    rw [appendLoop_del hk hsome, hm, hl]
    refine ⟨?_, .removed hexp hk, hmark⟩
    cases hsoft : st.metadata.softDeleted with
    | false => exact .inl rfl
    | true => exact .inr ⟨st, rfl, hexp, .inr ⟨hsoft, hk, rfl, rfl⟩⟩
  | @flipped st _ hexp hrefs hst =>
    have hm : m = _ := append_expired hl hclock hcomplete hsome hexp
    rw [appendLoop_softDel hst rfl hsome hmedia (fun base => hhint st base hl), hm, hl]
    refine ⟨?_, .flipped hexp hrefs hst, hmark⟩
    cases hsoft : st.metadata.softDeleted with
    | true => exact .inl rfl
    | false => exact .inr ⟨st, rfl, hexp, .inl ⟨hsoft, hst.shows.softDel.mpr rfl, rfl, rfl⟩⟩

def sourceCalls : List (Env × Call) :=
  [(.frozen 0, .create [97] { initialData := [1, 2, 3], ttlSeconds := some 1 }),
    (.frozen 1, .create [98] { forkedFrom := [97], ttlSeconds := some 100 })]

theorem sourceCalls_run :
    (MemoryStore.empty.execGuarded (fun _ _ => true) sourceCalls).isSome := by decide

/-- The source after its fork has been created. -/
def sourceStream : MemoryStream where
  metadata :=
    { path := [97], incarnation := [105], contentType := octetStream, currentOffset := ⟨0, 3⟩
      ttlSeconds := some 1, createdAt := 0, lastAccessedAt := 0, refCount := 1 }
  messages := [⟨[1, 2, 3], ⟨0, 3⟩⟩]

theorem sourceStream_lookup :
    (MemoryStore.ran _ sourceCalls sourceCalls_run).2.streams.lookup [97] = some sourceStream := by
  rfl

theorem sourceStream_laid : sourceStream.Laid :=
  ⟨rfl, [[1, 2, 3]], by simp, rfl, rfl⟩

theorem sourceMarkers (path : Path) (k : StreamKeys) (wall : Time)
    (hk : k.fences = fun _ _ => none) :
    MarkersMirror (MemoryStore.ran _ sourceCalls sourceCalls_run).2 path k wall := by
  intro f
  rw [marker_snd]
  exact congrFun hk _

theorem sourceStream_fits : MetadataFits sourceStream.metadata :=
  ⟨by decide, ⟨by decide, by decide⟩, ⟨by decide, by decide⟩,
    by rintro t ⟨⟩; exact ⟨by decide, by decide⟩, by rintro t ⟨⟩, by decide, by rintro o ⟨⟩,
    by decide, by rintro c ⟨⟩, by rintro o ⟨⟩, fun _ => ⟨rfl, rfl, rfl⟩, fun _ => rfl⟩

theorem sourceStream_mirrors : Mirrors sourceStream (keysOf sourceStream) :=
  mirrors_keysOf sourceStream_laid (by decide) (by decide) (fun _ => rfl) (fun _ => rfl)
    fun _ => rfl

def sourceRequest : AppendOptions where
  contentType := octetStream
  close := true
  producerId := [112]
  producerEpoch := some 0
  producerSeq := some 0
  tailHint := some ⟨0, 3⟩

theorem append_refines_source :
    let m := (MemoryStore.ran _ sourceCalls sourceCalls_run).2.append (.frozen 2) [97] [9]
      sourceRequest
    let r := append (fun _ => 2) [97] [9] sourceRequest (keysOf sourceStream)
    m.2.2 = none ∧ r.2 = m.2 ∧ Corresponds 2 (m.1.streams.lookup [97]) r.1 ∧
      MarkersMirror m.1 [97] r.1 2 := by
  have hstream := sourceStream_lookup
  have hrefines := append_refines (MemoryStore.ran _ sourceCalls sourceCalls_run).2
    (keysOf sourceStream) (.frozen 2) (fun _ => 2) [97] [9] sourceRequest (fun _ => rfl)
    (fun _ => rfl) (by decide) ?_ ?_ (by decide) ?_ (by decide) ?_ ?_
  · refine ⟨by decide, hrefines.1.resolve_right ?_, hrefines.2⟩
    rintro ⟨st, hst, hexp, -⟩
    rw [hstream] at hst
    cases hst
    revert hexp
    decide
  · rw [hstream]
    exact .present sourceStream_mirrors
  · exact sourceMarkers _ _ _ rfl
  · constructor <;> rintro _ ⟨⟩ <;> exact fits_zero
  · rintro st base hst ⟨⟩
    rw [hstream] at hst
    cases hst
    rfl
  · rintro st ds hst hsplit
    rw [hstream] at hst
    cases hst
    cases hsplit
    decide

/-- An expired source of forks that Redis has marked as deleted says so, while the memory store
does not find it. -/
theorem append_not_refined :
    ∃ h s k now, MemoryStore.Run h s ∧ Corresponds now (s.streams.lookup [97]) k ∧
      MarkersMirror s [97] k now ∧
      (s.append (.frozen now) [97] [9] sourceRequest).2 = ({}, some .streamNotFound) ∧
      (append (fun _ => now) [97] [9] sourceRequest k).2 = ({}, some .streamSoftDeleted) := by
  refine ⟨_, _, (keysOf sourceStream).hset .softDel one, 10 * 10 ^ 9,
    MemoryStore.ran_run sourceCalls_run, ?_, sourceMarkers _ _ _ rfl, by decide, by decide⟩
  rw [sourceStream_lookup]
  exact .flipped (by decide) (by decide) sourceStream_mirrors.softDelete

end Refinement

end Chronicle.Redis
