import Chronicle.Redis.AppendRefinement

/-! # Closing a stream

The script that closes a stream without data, and the client around it. Closing
neither renews the sliding window nor asks whether the stream is soft-deleted, so
on corresponding states both backends answer alike without an exception.
-/

namespace Chronicle.Redis

open Decimal

section Script

structure CloseArgs where
  nowNs : Bytes
  hasProducer : Bool
  producerId : Bytes
  pEpoch : Bytes
  pSeq : Bytes
  fence : Option FenceArgs

def closedByFields (a : CloseArgs) : List (MetaField × Bytes) :=
  [(.closed, one), (.cbId, a.producerId), (.cbEpoch, a.pEpoch), (.cbSeq, a.pSeq)]

def closeCommit (m : MetaHash) (a : CloseArgs) (now : ℤ) (k : StreamKeys) : StreamKeys :=
  let state := a.pEpoch ++ 58 :: a.pSeq ++ 58 :: formatInt (now / 10 ^ 9)
  { k with prod := Function.update k.prod a.producerId (some state) }.hsetAll
    (closedByFields a ++ fenceBind m a.fence a.producerId ((m .tail).getD []))

def closeOpen (m : MetaHash) (a : CloseArgs) (now : ℤ) (k : StreamKeys) :
    Option (StreamKeys × Reply) :=
  let tail := (m .tail).getD []
  if m .closed = some one then
    if a.hasProducer then
      if (m .cbEpoch).isSome && m .cbId = some a.producerId && m .cbEpoch = some a.pEpoch &&
          m .cbSeq = some a.pSeq then
        some (k, { status := .ok, tail := tail, producerResult := [50], lastSeq := a.pSeq
                   closed := one, alreadyClosed := one })
      else some (k, { status := .closed, tail := tail, closed := one, alreadyClosed := one })
    else some (k, { status := .ok, tail := tail, closed := one, alreadyClosed := one })
  else if a.hasProducer then
    (validateProducer (k.prod a.producerId) a.pEpoch a.pSeq).map fun
      -- a duplicate on an open stream succeeds without closing it
      | .dup lastSeq =>
        (k, { status := .ok, tail := tail, producerResult := [50], lastSeq := lastSeq })
      | .staleEpoch current => (k, { status := .staleEpoch, tail := tail, currentEpoch := current })
      | .epochSeq => (k, { status := .epochSeq, tail := tail })
      | .seqGap expected received =>
        (k, { status := .seqGap, tail := tail, expectedSeq := expected, receivedSeq := received })
      | .accept =>
        (closeCommit m a now k,
          { status := .ok, tail := tail, producerResult := [49], lastSeq := a.pSeq, closed := one })
  else some (k.hset .closed one, { status := .ok, tail := tail, closed := one })

/-- The closing script: existence, expiry, write fence, and then the rest of the ladder. -/
def closeScript (a : CloseArgs) (k : StreamKeys) : Option (StreamKeys × Reply) :=
  match tonumber a.nowNs with
  | none => none
  | some now =>
    match metaMap k with
    | none => some (k, { status := .notFound })
    | some m =>
      match isExpired m now with
      | none => none
      | some true => (expireCleanup m k).map fun k => (k, { status := .notFound })
      | some false =>
        match fenceRung m k a.fence now a.hasProducer a.producerId a.pEpoch with
        | none => none
        | some (reason, gen, holder) =>
          if reason ≠ .none then some (k, fenceReply reason ((m .tail).getD []) gen holder)
          else closeOpen m a now k

end Script

section Client

/-- The arguments of a close; without a producer its headers are empty. -/
def closeArgs (now : Time) (path : Path) (producer : Option ClosedByProducer)
    (fence : Option AppendFence) : CloseArgs where
  nowNs := formatInt now
  hasProducer := producer.isSome
  producerId := (producer.map (·.producerId)).getD []
  pEpoch := (producer.map fun p => formatInt p.epoch).getD [48]
  pSeq := (producer.map fun p => formatInt p.seq).getD [48]
  fence := fenceArgs path fence

/-- Run the script and decode its reply. A script that fails has changed nothing here. -/
def runCloseScript (now : Time) (path : Path) (producer : Option ClosedByProducer)
    (fence : Option AppendFence) (k : StreamKeys) : StreamKeys × Except StoreError ScriptReply :=
  match closeScript (closeArgs now path producer fence) k with
  | none => (k, .error .scriptError)
  | some (k, reply) =>
    match decodeScriptReply reply with
    | none => (k, .error .malformedReply)
    | some r => (k, .ok r)

def mapCloseReply (r : ScriptReply) : Option CloseResult × Option StoreError :=
  match r.status with
  | .notFound => (none, some .streamNotFound)
  | .fenced =>
    (some { fenceReason := r.fenceReason, fenceGeneration := r.fenceGeneration
            fenceHolder := r.fenceHolder }, some .appendFenced)
  | .ok =>
    match Offset.parseOffset r.tail with
    | none => (none, some .invalidOffset)
    | some tail => (some { finalOffset := tail, alreadyClosed := r.alreadyClosed }, none)
  | _ => (none, some .malformedReply)

def closeStream (now : Time) (path : Path) (fence : Option AppendFence) (k : StreamKeys) :
    StreamKeys × Option CloseResult × Option StoreError :=
  match runCloseScript now path none fence k with
  | (k, .error e) => (k, none, some e)
  | (k, .ok r) => (k, mapCloseReply r)

def closeStreamFenced (now : Time) (path : Path) (fence : AppendFence) (k : StreamKeys) :
    StreamKeys × Option CloseResult × Option StoreError :=
  if ¬ fence.complete then (k, none, some .appendFenced)
  else closeStream now path (some fence) k

def mapCloseProducerReply (r : ScriptReply) : Option CloseProducerResult × Option StoreError :=
  if r.status = .notFound then (none, some .streamNotFound)
  else if r.status = .fenced then
    (some { fenceReason := r.fenceReason, fenceGeneration := r.fenceGeneration
            fenceHolder := r.fenceHolder }, some .appendFenced)
  else
    match Offset.parseOffset r.tail with
    | none => (none, some .invalidOffset)
    | some tail =>
      let result : CloseProducerResult :=
        { finalOffset := tail, producerResult := producerResultOf r.producerRes
          currentEpoch := r.currentEpoch, expectedSeq := r.expectedSeq
          receivedSeq := r.receivedSeq, lastSeq := r.lastSeq, streamClosed := r.closed
          alreadyClosed := r.alreadyClosed }
      match r.status with
      | .ok => (some result, none)
      | .closed => (some result, some .streamClosed)
      | .staleEpoch => (some result, some .staleEpoch)
      | .epochSeq => (some result, some .invalidEpochSeq)
      | .seqGap => (some result, some .producerSeqGap)
      | _ => (none, some .malformedReply)

def closeStreamWithProducer (now : Time) (path : Path) (opts : CloseProducerOptions)
    (k : StreamKeys) : StreamKeys × Option CloseProducerResult × Option StoreError :=
  if opts.fence.any fun f => !f.complete then (k, none, some .appendFenced)
  else
    let request : ClosedByProducer := ⟨opts.producerId, opts.producerEpoch, opts.producerSeq⟩
    match runCloseScript now path (some request) opts.fence k with
    | (k, .error e) => (k, none, some e)
    | (k, .ok r) => (k, mapCloseProducerReply r)

end Client

section Commit

variable {st : MemoryStream} {k : StreamKeys} {m : MetaHash} {now : Time} {path : Path}
  {fence : Option AppendFence}

theorem Mirrors.close (h : Mirrors st k) :
    Mirrors { st with metadata := { st.metadata with closed := true } } (k.hset .closed one) :=
  h.hset (by simp) rfl (fun g hg => by cases g <;> first | rfl | exact absurd rfl hg) rfl rfl rfl
    rfl rfl

def closedBy (st : MemoryStream) (p : ClosedByProducer) (now : Time) : MemoryStream :=
  { st with
    metadata :=
      { st.metadata with
        producers :=
          Function.update st.metadata.producers p.producerId (some ⟨p.epoch, p.seq, now.unix⟩)
        closed := true
        closedBy := some p } }

theorem Mirrors.closedBy (h : Mirrors st k) (p : ClosedByProducer) (now : Time)
    (hepoch : FitsInt64 p.epoch) (hseq : FitsInt64 p.seq) :
    Mirrors (Redis.closedBy st p now)
      ({ k with
          prod := Function.update k.prod p.producerId
            (some (encodeProducerState ⟨p.epoch, p.seq, now.unix⟩)) }.hsetAll
        (closedByFields (closeArgs now path (some p) fence))) := by
  refine ⟨?_, ?_, ?_, ?_, h.laid, h.small, h.incarnation, ?_, h.seals, h.bound⟩
  · intro g hg
    have hinfo := h.info g hg
    cases g with
    | closed => simp [closedByFields, metaFields, metaToFields, Redis.closedBy, flag]
    | cbId | cbEpoch | cbSeq =>
      simp [closedByFields, metaFields, metaToFields, Redis.closedBy, closeArgs]
    | _ => exact Eq.trans (by simp [closedByFields]) hinfo
  · rw [refCountOf_congr (m := k.info) (by simp [closedByFields])]
    exact h.refs
  · rw [(hsetAll_keys _ _).1]
    exact h.msg
  · intro pid
    rw [(hsetAll_keys _ _).2.1]
    by_cases hpid : pid = p.producerId
    · subst hpid
      simp [Redis.closedBy]
    · simpa [Redis.closedBy, hpid] using h.prod pid
  · intro pid ps hps
    by_cases hpid : pid = p.producerId
    · subst hpid
      simp only [Redis.closedBy, Function.update_self, Option.some.injEq] at hps
      subst hps
      exact ⟨hepoch, hseq⟩
    · simp only [Redis.closedBy, Function.update_of_ne hpid] at hps
      exact h.producers pid ps hps

theorem Mirrors.closeCommit (h : Mirrors st k) (p : ClosedByProducer) (now : Time)
    (hepoch : FitsInt64 p.epoch) (hseq : FitsInt64 p.seq)
    (hfence : ∀ f, fence = some f → 0 < f.generation ∧ FitsInt64 f.generation) :
    Mirrors ((Redis.closedBy st p now).bind fence p.producerId st.metadata.currentOffset)
      (Redis.closeCommit k.info (closeArgs now path (some p) fence) now k) := by
  unfold Redis.closeCommit
  rw [h.shows.tail, Option.getD_some, hsetAll_append]
  exact (h.closedBy p now hepoch hseq).bind h.shows.wf path fence hfence p.producerId
    st.metadata.currentOffset

end Commit

section Script

variable {s : MemoryStore} {st : MemoryStream} {k : StreamKeys} {now wall : Time} {path : Path}

theorem closeScript_mirrors (h : Mirrors st k) (hmark : MarkersMirror s path k wall)
    (hnow : now ≤ maxInt64) (producer : Option ClosedByProducer) (fence : Option AppendFence)
    (hfence : ∀ f, fence = some f → 0 ≤ f.shard) :
    let out := (s.fenceRung path st fence ((producer.map (·.producerId)).getD [])
      (producer.map (·.epoch)) now wall).2
    closeScript (closeArgs now path producer fence) k =
      (if st.metadata.isExpiredAt now then
        (expireCleanup k.info k).map fun k => (k, { status := .notFound })
      else if out.reason ≠ .none then
        some (k, fenceReply out.reason st.metadata.currentOffset.string (formatInt out.generation)
          out.holder)
      else closeOpen k.info (closeArgs now path producer fence) now k) ∧
      FitsInt64 out.generation := by
  rcases fenceRung_mirrors now h hmark fence hfence ((producer.map (·.producerId)).getD [])
    (producer.map (·.epoch)) with ⟨hrung, hfit⟩
  refine ⟨?_, hfit⟩
  have hargs : fenceRung k.info k (closeArgs now path producer fence).fence now
      (closeArgs now path producer fence).hasProducer
      (closeArgs now path producer fence).producerId
      (closeArgs now path producer fence).pEpoch =
      fenceRung k.info k (fence.map (claimArgs path)) now (producer.map (·.epoch)).isSome
        ((producer.map (·.producerId)).getD [])
        (formatInt ((producer.map (·.epoch)).getD 0)) := by
    cases producer <;> rfl
  unfold closeScript
  rw [show (closeArgs now path producer fence).nowNs = formatInt now from rfl, tonumber_formatInt,
    h.shows.metaMap]
  dsimp only
  rw [isExpired_mirrors h hnow, hargs, hrung, h.shows.tail]
  cases st.metadata.isExpiredAt now <;> rfl

theorem closeScript_lapsed {o : Option MemoryStream} (h : Corresponds now o k)
    (hnow : now ≤ maxInt64) (hlapsed : ∀ st, o = some st → st.metadata.isExpiredAt now)
    (producer : Option ClosedByProducer) (fence : Option AppendFence) :
    ∃ k', closeScript (closeArgs now path producer fence) k = some (k', { status := .notFound }) ∧
      Corresponds now o k' ∧ k'.fences = k.fences := by
  have hgone : k = k.del →
      closeScript (closeArgs now path producer fence) k = some (k, { status := .notFound }) := by
    intro hk
    unfold closeScript
    rw [show (closeArgs now path producer fence).nowNs = formatInt now from rfl,
      tonumber_formatInt, show metaMap k = none by rw [hk]; rfl]
  have hexpired : ∀ {st : MemoryStream}, Mirrors st k → st.metadata.isExpiredAt now = true →
      closeScript (closeArgs now path producer fence) k =
        (expireCleanup k.info k).map fun k => (k, { status := .notFound }) := by
    intro st hm hexp
    unfold closeScript
    rw [show (closeArgs now path producer fence).nowNs = formatInt now from rfl,
      tonumber_formatInt, hm.shows.metaMap]
    dsimp only
    rw [isExpired_mirrors hm hnow, hexp]
  cases h with
  | absent hk => exact ⟨k, hgone hk, .absent hk, rfl⟩
  | removed hexp hk => exact ⟨k, hgone hk, .removed hexp hk, rfl⟩
  | present hm =>
    have hexp := hlapsed _ rfl
    rcases expireCleanup_corresponds hm hexp with ⟨k', hk', hcorr, hfences⟩
    rw [hexpired hm hexp, hk']
    exact ⟨k', rfl, hcorr, hfences⟩
  | flipped hexp hrefs hm =>
    rw [hexpired hm hexp, expireCleanup, hm.refs, Option.map_some, if_pos hrefs]
    exact ⟨_, rfl, .flipped hexp hrefs hm.softDelete, rfl⟩

theorem Corresponds.mirrors (h : Corresponds now (some st) k)
    (hexp : ¬ st.metadata.isExpiredAt now = true) : Mirrors st k := by
  cases h with
  | present hm => exact hm
  | removed hexp' _ => exact absurd hexp' hexp
  | flipped hexp' _ _ => exact absurd hexp' hexp

theorem closeOpen_plain (h : Mirrors st k) (fence : Option AppendFence) :
    closeOpen k.info (closeArgs now path none fence) now k =
      some (if st.metadata.closed then k else k.hset .closed one,
        { status := .ok, tail := st.metadata.currentOffset.string, closed := one
          alreadyClosed := if st.metadata.closed then one else [48] }) := by
  unfold closeOpen
  rw [h.shows.tail]
  by_cases hcl : st.metadata.closed = true
  · rw [if_pos (h.shows.closed.mpr hcl), if_pos hcl, if_pos hcl]
    rfl
  · rw [if_neg (mt h.shows.closed.mp hcl), if_neg hcl, if_neg hcl]
    rfl

theorem Mirrors.closeStream (h : Mirrors st k) :
    Mirrors st.closeStream.1 (if st.metadata.closed then k else k.hset .closed one) := by
  by_cases hcl : st.metadata.closed = true
  · have hsame : st.closeStream.1 = st := by
      rcases st with ⟨md, messages, seals, bound, last⟩
      cases md
      subst hcl
      rfl
    rw [if_pos hcl, hsame]
    exact h
  · rw [if_neg hcl]
    exact h.close

end Script

section Producer

variable {st : MemoryStream} {k : StreamKeys} {now : Time} {path : Path}

/-- The integers of a close are in the range of a signed 64-bit number. -/
structure CloseFits (opts : CloseProducerOptions) : Prop where
  epoch : FitsInt64 opts.producerEpoch
  seq : FitsInt64 opts.producerSeq
  generation : ∀ f, opts.fence = some f → FitsInt64 f.generation

abbrev requester (opts : CloseProducerOptions) : ClosedByProducer :=
  ⟨opts.producerId, opts.producerEpoch, opts.producerSeq⟩

/-- The outcome of a script run that stands for an outcome of the memory store. -/
structure Closes (out : MemoryStream × CloseProducerResult × Option StoreError)
    (fences : Bytes → MarkerHash) (k : StreamKeys) (reply : Reply) : Prop where
  reply : (decodeScriptReply reply).map mapCloseProducerReply = some (some out.2.1, out.2.2)
  mirrors : Mirrors out.1 k
  fences : k.fences = fences

attribute [local simp] decodeScriptReply mapCloseProducerReply producerResultOf

theorem closeOpen_producer (h : Mirrors st k) (opts : CloseProducerOptions) (hfits : CloseFits opts)
    (hgen : ∀ f, opts.fence = some f → 0 < f.generation) :
    ∃ k' reply, closeOpen k.info (closeArgs now path (some (requester opts)) opts.fence) now k =
        some (k', reply) ∧
      Closes (st.closeStreamWithProducer now opts) k.fences k' reply := by
  have hparse := parseOffset_tail h
  have hfitSeq := hfits.seq
  set a := closeArgs now path (some (requester opts)) opts.fence
  unfold closeOpen MemoryStream.closeStreamWithProducer
  have hby : ((k.info .cbEpoch).isSome && k.info .cbId = some a.producerId &&
      k.info .cbEpoch = some a.pEpoch && k.info .cbSeq = some a.pSeq) =
      st.closedByRequest (requester opts) := h.shows.closedByRequest (requester opts)
  rw [h.shows.tail, hby]
  simp only [h.shows.closed]
  by_cases hcl : st.metadata.closed = true
  · rw [if_pos hcl, if_pos hcl, if_pos (show a.hasProducer = true from rfl)]
    by_cases hby : st.closedByRequest (requester opts) = true
    · rw [if_pos hby, if_pos hby]
      refine ⟨k, _, rfl, ?_, h, rfl⟩
      simp [hparse, a, closeArgs, requester, hfitSeq]
    · rw [if_neg hby, if_neg hby]
      refine ⟨k, _, rfl, ?_, h, rfl⟩
      simp [hparse]
  rw [if_neg hcl, if_neg hcl, if_pos (show a.hasProducer = true from rfl)]
  have hvalid := validateProducer_encode (st.metadata.producers opts.producerId)
    opts.producerEpoch opts.producerSeq now.unix
  have hargs : validateProducer (k.prod a.producerId) a.pEpoch a.pSeq =
      validateProducer ((st.metadata.producers opts.producerId).map encodeProducerState)
        (formatInt opts.producerEpoch) (formatInt opts.producerSeq) := by
    rw [← h.prod]
    rfl
  have hcommit : Mirrors _ (closeCommit k.info a now k) := h.closeCommit (requester opts) now
    hfits.epoch hfits.seq fun f hf => ⟨hgen f hf, hfits.generation f hf⟩
  have hclosed : st.metadata.closed = false := by simpa using hcl
  rw [hargs, hvalid]
  rcases validateProducer_answers (h.producers opts.producerId) hfitSeq opts.producerEpoch
    now.unix with ⟨c, hfit, hans⟩ | hans | ⟨n, hfit, hans⟩ | ⟨l, hfit, hans⟩ | hans
  · rw [hans]
    refine ⟨k, _, rfl, ?_, h, rfl⟩
    simp [hparse, hfit, hclosed]
  · rw [hans]
    refine ⟨k, _, rfl, ?_, h, rfl⟩
    simp [hparse, hclosed]
  · rw [hans]
    refine ⟨k, _, rfl, ?_, h, rfl⟩
    simp [hparse, hfit, hfitSeq, hclosed]
  · rw [hans]
    refine ⟨k, _, rfl, ?_, h, rfl⟩
    simp [hparse, hfit, hclosed]
  · rw [hans]
    refine ⟨_, _, rfl, ?_, hcommit, (hsetAll_keys _ _).2.2.2⟩
    simp [hparse, a, closeArgs, hfitSeq]

end Producer

section Refinement

variable {s : MemoryStore} {k : StreamKeys} {env : Env} {now : Time} {path : Path}

/-- What a close leaves: corresponding states, and a sliding window that it did not renew. -/
structure Leaves (now wall : Time) (path : Path) (s s' : MemoryStore) (k' : StreamKeys) :
    Prop where
  stream : Corresponds now (s'.streams.lookup path) k'
  markers : MarkersMirror s' path k' wall
  accessed : (s'.streams.lookup path).map (·.metadata.lastAccessedAt) =
    (s.streams.lookup path).map (·.metadata.lastAccessedAt)

theorem runCloseScript_of_script {producer : Option ClosedByProducer} {fence : Option AppendFence}
    {k' : StreamKeys} {reply : Reply} {r : ScriptReply}
    (hscript : closeScript (closeArgs now path producer fence) k = some (k', reply))
    (hdecode : decodeScriptReply reply = some r) :
    runCloseScript now path producer fence k = (k', .ok r) := by
  rw [runCloseScript, hscript]
  dsimp only
  rw [hdecode]

theorem runCloseScript_lapsed (h : Corresponds now (s.streams.lookup path) k)
    (hmark : MarkersMirror s path k (env.wall 0)) (hnow : now ≤ maxInt64)
    (hlapsed : ∀ st, s.streams.lookup path = some st → st.metadata.isExpiredAt now)
    (producer : Option ClosedByProducer) (fence : Option AppendFence) :
    ∃ k' r, runCloseScript now path producer fence k = (k', .ok r) ∧ r.status = .notFound ∧
      Leaves now (env.wall 0) path s s k' := by
  rcases closeScript_lapsed h hnow hlapsed producer fence with ⟨k', hscript, hcorr, hfences⟩
  refine ⟨k', _, runCloseScript_of_script hscript rfl, rfl, hcorr, ?_, rfl⟩
  intro f
  rw [hfences]
  exact hmark f

theorem decodeScriptReply_fenced (reason : FenceReason) (tail holder : Bytes) {gen : ℤ}
    (hgen : FitsInt64 gen) :
    decodeScriptReply (fenceReply reason tail (formatInt gen) holder) =
      some { status := .fenced, tail := tail, producerRes := 0, currentEpoch := 0, expectedSeq := 0
             receivedSeq := 0, lastSeq := 0, closed := false, alreadyClosed := false
             fenceReason := reason, fenceGeneration := gen, fenceHolder := holder } := by
  simp [decodeScriptReply, fenceReply, hgen]

theorem runCloseScript_fenced {st : MemoryStream} (h : Mirrors st k)
    (hlookup : s.streams.lookup path = some st) (hmark : MarkersMirror s path k (env.wall 0))
    (hnow : now ≤ maxInt64) (hexp : st.metadata.isExpiredAt now = false)
    (producer : Option ClosedByProducer) (fence : Option AppendFence)
    (hfence : ∀ f, fence = some f → f.complete) {s' : MemoryStore} {out : WriteFenceOutcome}
    (hout : s.fenceRung path st fence ((producer.map (·.producerId)).getD [])
      (producer.map (·.epoch)) now (env.wall 0) = (s', out)) (hreason : out.reason ≠ .none) :
    ∃ r, runCloseScript now path producer fence k = (k, .ok r) ∧ r.status = .fenced ∧
      r.fenceReason = out.reason ∧ r.fenceGeneration = out.generation ∧
      r.fenceHolder = out.holder ∧ Leaves now (env.wall 0) path s s' k := by
  rcases closeScript_mirrors h hmark hnow producer fence
    (fun f hf => (complete_ranges (hfence f hf)).1) with ⟨hscript, hfit⟩
  have hkept := hmark.fenceRung k st fence ((producer.map (·.producerId)).getD [])
    (producer.map (·.epoch)) now rfl
  have hstreams := s.fenceRung_streams path st fence ((producer.map (·.producerId)).getD [])
    (producer.map (·.epoch)) now (env.wall 0)
  rw [hout] at hscript hfit hkept hstreams
  rw [hexp, if_neg (by simp), if_pos hreason] at hscript
  refine ⟨_, runCloseScript_of_script hscript (decodeScriptReply_fenced _ _ _ hfit), rfl, rfl, rfl,
    rfl, ?_, hkept, ?_⟩
  · rw [hstreams, hlookup]
    exact .present h
  · rw [hstreams]

theorem closeScript_admitted {st : MemoryStream} (h : Mirrors st k)
    (hmark : MarkersMirror s path k (env.wall 0)) (hnow : now ≤ maxInt64)
    (hexp : st.metadata.isExpiredAt now = false) (producer : Option ClosedByProducer)
    (fence : Option AppendFence) (hfence : ∀ f, fence = some f → f.complete)
    {s' : MemoryStore} {out : WriteFenceOutcome}
    (hout : s.fenceRung path st fence ((producer.map (·.producerId)).getD [])
      (producer.map (·.epoch)) now (env.wall 0) = (s', out)) (hreason : out.reason = .none) :
    closeScript (closeArgs now path producer fence) k =
      closeOpen k.info (closeArgs now path producer fence) now k := by
  have hscript := (closeScript_mirrors h hmark hnow producer fence
    (fun f hf => (complete_ranges (hfence f hf)).1)).1
  rw [hout] at hscript
  rw [hscript, hexp, if_neg (by simp), if_neg (by simp [hreason])]

theorem closeStream_lapsed (hclock : ∀ i, env.clock i = now)
    (hlapsed : ∀ st, s.streams.lookup path = some st → st.metadata.isExpiredAt now)
    (fence : Option AppendFence) :
    s.closeStream env path fence = (s, none, some .streamNotFound) := by
  unfold MemoryStore.closeStream
  cases hlookup : s.streams.lookup path with
  | none => rfl
  | some st =>
    dsimp only
    rw [hclock 0, if_pos (hlapsed st hlookup)]

theorem closeStreamWithProducer_lapsed (hclock : ∀ i, env.clock i = now)
    (hlapsed : ∀ st, s.streams.lookup path = some st → st.metadata.isExpiredAt now)
    {opts : CloseProducerOptions} (hfence : opts.fence.any (fun f => !f.complete) = false) :
    s.closeStreamWithProducer env path opts = (s, none, some .streamNotFound) := by
  have hcomplete : ¬ opts.fence.any (fun f => !f.complete) = true := by simp [hfence]
  unfold MemoryStore.closeStreamWithProducer
  rw [if_neg hcomplete]
  cases hlookup : s.streams.lookup path with
  | none => rfl
  | some st =>
    have hexp := hlapsed st hlookup
    dsimp only
    rw [hclock 0, if_pos hexp]

theorem lapsed_or_live (s : MemoryStore) (path : Path) (now : Time) :
    (∀ st, s.streams.lookup path = some st → st.metadata.isExpiredAt now) ∨
      ∃ st, s.streams.lookup path = some st ∧ st.metadata.isExpiredAt now = false := by
  by_cases h : ∃ st, s.streams.lookup path = some st ∧ st.metadata.isExpiredAt now = false
  · exact .inr h
  · refine .inl ?_
    intro st hst
    by_contra hexp
    exact h ⟨st, hst, by simpa using hexp⟩

theorem closeStreamWithProducer_accessed (st : MemoryStream) (now : Time)
    (opts : CloseProducerOptions) :
    (st.closeStreamWithProducer now opts).1.metadata.lastAccessedAt =
      st.metadata.lastAccessedAt := by
  unfold MemoryStream.closeStreamWithProducer
  dsimp only
  split
  · split <;> rfl
  · split
    · rfl
    · split
      · rfl
      · rw [MemoryStream.bind_metadata]

theorem leaves_set {st st' : MemoryStream} {s' : MemoryStore} {k' : StreamKeys} {wall : Time}
    (hlookup : s.streams.lookup path = some st) (hm : Mirrors st' k')
    (hmark : MarkersMirror s' path k' wall)
    (haccessed : st'.metadata.lastAccessedAt = st.metadata.lastAccessedAt) :
    Leaves now wall path s (s'.set path st') k' := by
  have hset : (s'.set path st').streams.lookup path = some st' := Finmap.lookup_insert _
  refine ⟨?_, hmark.set st', ?_⟩
  · rw [hset]
    exact .present hm
  · rw [hset, hlookup, Option.map_some, Option.map_some, haccessed]

theorem closeStream_refines (h : Corresponds now (s.streams.lookup path) k)
    (hmark : MarkersMirror s path k (env.wall 0)) (hclock : ∀ i, env.clock i = now)
    (hnow : now ≤ maxInt64) (fence : Option AppendFence)
    (hfence : ∀ f, fence = some f → f.complete) :
    let m := s.closeStream env path fence
    let r := closeStream now path fence k
    r.2 = m.2 ∧ Leaves now (env.wall 0) path s m.1 r.1 := by
  rcases lapsed_or_live s path now with hlapsed | ⟨st, hlookup, hexp⟩
  · rcases runCloseScript_lapsed h hmark hnow hlapsed none fence with ⟨k', r, hrun, hstatus, hl⟩
    rw [closeStream_lapsed hclock hlapsed, closeStream, hrun]
    exact ⟨by simp [mapCloseReply, hstatus], hl⟩
  rw [hlookup] at h
  have hm : Mirrors st k := h.mirrors (by simp [hexp])
  unfold MemoryStore.closeStream
  rw [hlookup]
  dsimp only
  rw [hclock 0, hclock 1, hexp, if_neg (by simp)]
  rcases hout : s.fenceRung path st fence [] none now (env.wall 0) with ⟨s', out⟩
  by_cases hreason : out.reason = .none
  · have hscript := closeScript_admitted hm hmark hnow hexp none fence hfence hout hreason
    have hkept := hmark.fenceRung (if st.metadata.closed then k else k.hset .closed one) st fence []
      none now (by split <;> rfl)
    rw [hout] at hkept
    rw [closeOpen_plain hm] at hscript
    rw [if_neg (by simp [hreason]), closeStream, runCloseScript_of_script hscript rfl]
    refine ⟨?_, leaves_set hlookup hm.closeStream hkept rfl⟩
    cases hcl : st.metadata.closed <;>
      simp [mapCloseReply, parseOffset_tail hm, MemoryStream.closeStream, hcl]
  · rcases runCloseScript_fenced hm hlookup hmark hnow hexp none fence hfence hout hreason with
      ⟨r, hrun, hstatus, hr, hg, hh, hl⟩
    rw [if_pos hreason, closeStream, hrun]
    exact ⟨by simp [mapCloseReply, hstatus, hr, hg, hh], hl⟩

theorem closeStreamWithProducer_refines (h : Corresponds now (s.streams.lookup path) k)
    (hmark : MarkersMirror s path k (env.wall 0)) (hclock : ∀ i, env.clock i = now)
    (hnow : now ≤ maxInt64) {opts : CloseProducerOptions} (hfits : CloseFits opts) :
    let m := s.closeStreamWithProducer env path opts
    let r := closeStreamWithProducer now path opts k
    r.2 = m.2 ∧ Leaves now (env.wall 0) path s m.1 r.1 := by
  cases hcomplete : opts.fence.any fun f => !f.complete with
  | true =>
    rw [MemoryStore.closeStreamWithProducer, closeStreamWithProducer, if_pos hcomplete,
      if_pos hcomplete]
    exact ⟨rfl, h, hmark, rfl⟩
  | false =>
    have hincomplete : ¬ opts.fence.any (fun f => !f.complete) = true := by simp [hcomplete]
    have hfence : ∀ f, opts.fence = some f → f.complete := by
      intro f hf
      simpa [hf] using hcomplete
    rcases lapsed_or_live s path now with hlapsed | ⟨st, hlookup, hexp⟩
    · rcases runCloseScript_lapsed h hmark hnow hlapsed (some (requester opts)) opts.fence with
        ⟨k', r, hrun, hstatus, hl⟩
      rw [closeStreamWithProducer_lapsed hclock hlapsed hcomplete, closeStreamWithProducer,
        if_neg hincomplete]
      dsimp only
      rw [hrun]
      exact ⟨by simp [mapCloseProducerReply, hstatus], hl⟩
    rw [hlookup] at h
    have hm : Mirrors st k := h.mirrors (by simp [hexp])
    unfold MemoryStore.closeStreamWithProducer
    rw [if_neg hincomplete, hlookup, closeStreamWithProducer, if_neg hincomplete]
    dsimp only
    rw [hclock 0, hclock 1, hclock 2, hexp, if_neg (by simp)]
    rcases hout : s.fenceRung path st opts.fence opts.producerId (some opts.producerEpoch) now
      (env.wall 0) with ⟨s', out⟩
    by_cases hreason : out.reason = .none
    · have hscript := closeScript_admitted hm hmark hnow hexp (some (requester opts)) opts.fence
        hfence hout hreason
      rcases @closeOpen_producer st k now path hm opts hfits
        (fun f hf => (complete_ranges (hfence f hf)).2) with ⟨k', reply, hopen, hcloses⟩
      have hkept := hmark.fenceRung k' st opts.fence opts.producerId (some opts.producerEpoch) now
        hcloses.fences
      rw [hout] at hkept
      rcases Option.map_eq_some_iff.mp hcloses.reply with ⟨r, hdecode, hr⟩
      rw [if_neg (by simp [hreason]), runCloseScript_of_script (hscript.trans hopen) hdecode]
      exact ⟨hr, leaves_set hlookup hcloses.mirrors hkept (closeStreamWithProducer_accessed ..)⟩
    · rcases runCloseScript_fenced hm hlookup hmark hnow hexp (some (requester opts)) opts.fence
        hfence hout hreason with ⟨r, hrun, hstatus, hr, hg, hh, hl⟩
      rw [if_pos hreason, hrun]
      exact ⟨by simp [mapCloseProducerReply, hstatus, hr, hg, hh], hl⟩

/-- On corresponding states of a stream, a plain close, a close under a claim and a close of a
producer are answered alike in both backends: the same result or error, with the same reason,
generation and holder where the write fence refuses. They leave corresponding states, and none of
them renews the sliding window. -/
theorem close_refines (h : Corresponds now (s.streams.lookup path) k)
    (hmark : MarkersMirror s path k (env.wall 0)) (hclock : ∀ i, env.clock i = now)
    (hnow : now ≤ maxInt64) :
    (let m := s.closeStream env path none
      let r := closeStream now path none k
      r.2 = m.2 ∧ Leaves now (env.wall 0) path s m.1 r.1) ∧
    (∀ f : AppendFence,
      let m := s.closeStreamFenced env path f
      let r := closeStreamFenced now path f k
      r.2 = m.2 ∧ Leaves now (env.wall 0) path s m.1 r.1) ∧
    ∀ opts : CloseProducerOptions, CloseFits opts →
      let m := s.closeStreamWithProducer env path opts
      let r := closeStreamWithProducer now path opts k
      r.2 = m.2 ∧ Leaves now (env.wall 0) path s m.1 r.1 := by
  refine ⟨closeStream_refines h hmark hclock hnow none nofun, ?_,
    fun opts hfits => closeStreamWithProducer_refines h hmark hclock hnow hfits⟩
  intro f
  unfold MemoryStore.closeStreamFenced closeStreamFenced
  by_cases hcomplete : f.complete = true
  · rw [if_neg (not_not.mpr hcomplete), if_neg (not_not.mpr hcomplete)]
    refine closeStream_refines h hmark hclock hnow (some f) ?_
    rintro _ ⟨⟩
    exact hcomplete
  · rw [if_pos hcomplete, if_pos hcomplete]
    exact ⟨rfl, h, hmark, rfl⟩

def closingRequest : CloseProducerOptions where
  producerId := [112]
  producerEpoch := 0
  producerSeq := 0

theorem close_refines_source :
    let s := (MemoryStore.ran _ sourceCalls sourceCalls_run).2
    let m := s.closeStreamWithProducer (.frozen 2) [97] closingRequest
    let r := closeStreamWithProducer 2 [97] closingRequest (keysOf sourceStream)
    m.2.2 = none ∧ r.2 = m.2 ∧ Leaves 2 2 [97] s m.1 r.1 := by
  have hcorresponds : Corresponds 2
      ((MemoryStore.ran _ sourceCalls sourceCalls_run).2.streams.lookup [97])
      (keysOf sourceStream) := by
    rw [sourceStream_lookup]
    exact .present sourceStream_mirrors
  have hfits : CloseFits closingRequest := ⟨fits_zero, fits_zero, nofun⟩
  refine ⟨by decide, ?_⟩
  exact (@close_refines _ _ (.frozen 2) _ _ hcorresponds (sourceMarkers _ _ _ rfl) (fun _ => rfl)
    (by decide)).2.2 closingRequest hfits

end Refinement

end Chronicle.Redis
