import Chronicle.Redis.Correspondence

/-! # The commit of an append

What the append script writes when it accepts a request, and that the keys
stand for the stream of the memory store again afterwards.
-/

namespace Chronicle.Redis

open Decimal

/-- The integers of a request are in the range of a signed 64-bit number. -/
structure RequestFits (opts : AppendOptions) : Prop where
  epoch : ∀ e, opts.producerEpoch = some e → FitsInt64 e
  seq : ∀ q, opts.producerSeq = some q → FitsInt64 q
  generation : ∀ f, opts.fence = some f → FitsInt64 f.generation

/-- The arguments that carry a request, whatever it is framed against. -/
structure Carries (path : Path) (now : Time) (opts : AppendOptions) (a : AppendArgs) : Prop where
  nowNs : a.nowNs = formatInt now
  reqCT : a.reqCT = requestCT opts
  streamSeq : a.streamSeq = opts.seq
  closing : a.closing = opts.close
  hasProducer : a.hasProducer = opts.producer.isSome
  producerId : a.producerId = opts.producerId
  pEpoch : a.pEpoch = formatInt (opts.producerEpoch.getD 0)
  pSeq : a.pSeq = formatInt (opts.producerSeq.getD 0)
  fence : a.fence = opts.fence.map (claimArgs path)

/-- The frames of a request, split for a stream and laid out behind its tail. -/
inductive Framed (ct data : Bytes) (tail : Offset) : AppendArgs → Option StoreError → Prop
  | frames {a ds} (hsplit : splitBody ct data false = .ok ds)
      (hframes : a.frames = (layOut tail ds).map frame)
      (htail : a.newTail = (endOffset tail ds).string) (hval : a.valOnly = false) :
      Framed ct data tail a none
  | invalid {a e} (hsplit : splitBody ct data false = .error e) (hval : a.valOnly = true) :
      Framed ct data tail a (some e)

variable {opts : AppendOptions} {path : Path}

section Arguments

variable {now : Time} {data ct ct' : Bytes} {base : Offset}

theorem noHeaders (h : (opts.hasProducerHeaders && !opts.hasAllProducerHeaders) = false)
    (hall : opts.hasAllProducerHeaders = false) :
    opts.producerId = [] ∧ opts.producerEpoch = none ∧ opts.producerSeq = none := by
  simp only [hall, Bool.not_false, Bool.and_true, AppendOptions.hasProducerHeaders,
    Bool.or_eq_false_iff, decide_eq_false_iff_not, not_not, Option.isSome_eq_false_iff,
    Option.isNone_iff_eq_none] at h
  exact ⟨h.1.1, h.1.2, h.2⟩

theorem attemptArgs_carries (h : (opts.hasProducerHeaders && !opts.hasAllProducerHeaders) = false) :
    Carries path now opts (attemptArgs now path data opts base ct).1 := by
  have hfence : fenceArgs path opts.fence = opts.fence.map (claimArgs path) := rfl
  cases hall : opts.hasAllProducerHeaders with
  | true =>
    unfold attemptArgs
    constructor <;> dsimp only <;> split <;>
      simp [hall, hfence, AppendOptions.producer_isSome]
  | false =>
    rcases noHeaders h hall with ⟨hid, hepoch, hseq⟩
    unfold attemptArgs
    constructor <;> dsimp only <;> split <;>
      simp [hall, hfence, AppendOptions.producer_isSome, hid, hepoch, hseq] <;> rfl

theorem attemptArgs_expectedTail :
    (attemptArgs now path data opts base ct).1.expectedTail = base.string := by
  unfold attemptArgs
  dsimp only
  split <;> rfl

theorem attemptArgs_reqCT : (attemptArgs now path data opts base ct).1.reqCT = requestCT opts := by
  unfold attemptArgs
  dsimp only
  split <;> rfl

theorem attemptArgs_framed (hdata : data ≠ [])
    (hsplit : splitBody ct data false = splitBody ct' data false) :
    Framed ct' data base (attemptArgs now path data opts base ct).1
      (attemptArgs now path data opts base ct).2 := by
  unfold attemptArgs buildFrames
  rw [if_neg hdata, hsplit]
  cases hbody : splitBody ct' data false with
  | ok ds => exact .frames hbody rfl rfl rfl
  | error e => exact .invalid hbody rfl

end Arguments

variable {k : StreamKeys} {m : MetaHash} {a : AppendArgs}

section Hash

@[simp] theorem hset_info (k : StreamKeys) (f g : MetaField) (v : Bytes) :
    (k.hset f v).info g = if g = f then some v else k.info g := by
  simp [StreamKeys.hset, Function.update_apply]

theorem hsetAll_append (k : StreamKeys) (l l' : List (MetaField × Bytes)) :
    k.hsetAll (l ++ l') = (k.hsetAll l).hsetAll l' := List.foldl_append

@[simp] theorem hsetAll_nil (k : StreamKeys) : k.hsetAll [] = k := rfl

@[simp] theorem hsetAll_cons (k : StreamKeys) (fv : MetaField × Bytes)
    (l : List (MetaField × Bytes)) : k.hsetAll (fv :: l) = (k.hset fv.1 fv.2).hsetAll l := rfl

/-- Setting metadata fields leaves the other keys alone. -/
theorem hsetAll_keys (k : StreamKeys) (l : List (MetaField × Bytes)) :
    (k.hsetAll l).msg = k.msg ∧ (k.hsetAll l).prod = k.prod ∧ (k.hsetAll l).forks = k.forks ∧
      (k.hsetAll l).fences = k.fences := by
  induction l generalizing k with
  | nil => exact ⟨rfl, rfl, rfl, rfl⟩
  | cons fv l ih => exact ih (k.hset fv.1 fv.2)

theorem seqFields_info (k : StreamKeys) (f : MetaField) :
    (k.hsetAll (seqFields a)).info f =
      if f = .lastSeq ∧ a.streamSeq ≠ [] then some a.streamSeq else k.info f := by
  unfold seqFields
  by_cases h : a.streamSeq = [] <;> simp [h]

theorem closeFields_info (k : StreamKeys) (f : MetaField) :
    (k.hsetAll (closeFields a)).info f =
      if ¬ a.closing then k.info f
      else if f = .closed then some one
      else if ¬ a.hasProducer then k.info f
      else if f = .cbId then some a.producerId
      else if f = .cbEpoch then some a.pEpoch
      else if f = .cbSeq then some a.pSeq
      else k.info f := by
  unfold closeFields
  cases hc : a.closing with
  | false => simp
  | true =>
    cases hp : a.hasProducer with
    | false => simp
    | true =>
      split_ifs <;> simp_all

theorem hsetAll_prod (k : StreamKeys) (prod : Bytes → Option Bytes)
    (l : List (MetaField × Bytes)) :
    ({ k with prod := prod } : StreamKeys).hsetAll l = { k.hsetAll l with prod := prod } := by
  induction l generalizing k with
  | nil => rfl
  | cons fv l ih => exact ih (k.hset fv.1 fv.2)

end Hash

variable {st : MemoryStream}

section Touch

variable {now : Time}

/-- The stored count of forks depends on its own field only. -/
theorem refCountOf_congr {m m' : MetaHash} (h : m' .refCount = m .refCount) :
    refCountOf m' = refCountOf m := by
  rw [refCountOf, refCountOf, h]

/-- Setting one field of the metadata keeps the correspondence. -/
theorem Mirrors.hset (h : Mirrors st k) {md : StreamMetadata} {f : MetaField} {v : Bytes}
    (hf : f ≠ .refCount) (hfield : metaFields { st with metadata := md } f = some v)
    (hkept : ∀ g, g ≠ f → metaFields { st with metadata := md } g = metaFields st g)
    (hrefs : md.refCount = st.metadata.refCount)
    (htail : md.currentOffset = st.metadata.currentOffset)
    (hfork : md.forkOffset = st.metadata.forkOffset)
    (hinc : md.incarnation = st.metadata.incarnation)
    (hprod : md.producers = st.metadata.producers) :
    Mirrors { st with metadata := md } (k.hset f v) where
  info g hg := by
    rw [hset_info]
    split
    · subst_vars
      exact hfield.symm
    · rw [hkept g ‹_›, h.info g hg]
  refs := by
    rw [refCountOf_congr (m := k.info) (by simp [hf.symm]), h.refs, hrefs]
  msg := h.msg
  prod pid := by
    rw [hprod]
    exact h.prod pid
  laid := by
    unfold MemoryStream.Laid
    rw [htail, hfork]
    exact h.laid
  small := by
    rw [htail]
    exact h.small
  incarnation := by
    rw [hinc]
    exact h.incarnation
  producers := by
    rw [hprod]
    exact h.producers
  seals := h.seals
  bound := h.bound

/-- Renewing the sliding window keeps the correspondence. -/
theorem Mirrors.touch (h : Mirrors st k) (now : Time) :
    Mirrors (st.touch now) (k.hset .accessedAtNs (formatInt now)) :=
  h.hset (by simp) rfl (fun g hg => by cases g <;> first | rfl | exact absurd rfl hg) rfl rfl rfl
    rfl rfl

end Touch

section Commit

variable {now : Time} {ds : List Bytes}

/-- What the producer rung hands on when it lets a request pass. -/
def admissionOf (opts : AppendOptions) (now : Time) : MemoryStream.Admission :=
  match opts.producer with
  | none => {}
  | some p =>
    { state := some (p.producerId, ⟨p.epoch, p.seq, now.unix⟩), result := .accepted
      lastSeq := p.seq }

def withMessages (st : MemoryStream) (ds : List Bytes) : MemoryStream :=
  { st with messages := st.messages ++ layOut st.metadata.currentOffset ds }

def committed (a : AppendArgs) (info : MetaHash) (f : MetaField) : Option Bytes :=
  if a.closing ∧ f = .closed then some one
  else if a.closing ∧ a.hasProducer ∧ f = .cbId then some a.producerId
  else if a.closing ∧ a.hasProducer ∧ f = .cbEpoch then some a.pEpoch
  else if a.closing ∧ a.hasProducer ∧ f = .cbSeq then some a.pSeq
  else if f = .lastSeq ∧ a.streamSeq ≠ [] then some a.streamSeq
  else if f = .tail then some a.newTail
  else info f

theorem commit_info (hframes : a.frames ≠ []) (hfence : a.fence = none) (f : MetaField) :
    (commit m a now k).info f = committed a k.info f := by
  have hcommit : (commit m a now k).info f =
      ((({ k with msg := zaddAll a.frames k.msg } : StreamKeys).hset .tail a.newTail).hsetAll
        (seqFields a ++ closeFields a)).info f := by
    unfold commit
    rw [if_pos hframes, hfence, fenceBind, List.append_nil]
    split <;> rfl
  rw [hcommit, hsetAll_append, closeFields_info, seqFields_info, hset_info]
  unfold committed
  cases a.closing with
  | false => simp
  | true => cases a.hasProducer <;> simp

/-- A commit binds the producer of a fenced request last. -/
theorem commit_fenced (m : MetaHash) (a : AppendArgs) (now : Time) (k : StreamKeys) :
    commit m a now k = (commit m { a with fence := none } now k).hsetAll
      (fenceBind m a.fence a.producerId a.newTail) := by
  have hnone : fenceBind m none a.producerId a.newTail = [] := rfl
  unfold commit
  dsimp only
  rw [hnone, List.append_nil, hsetAll_append _ (seqFields a ++ closeFields a)]
  split
  · rw [(hsetAll_keys _ (fenceBind ..)).2.1]
    exact (hsetAll_prod ..).symm
  · rfl

theorem commit_keys (m : MetaHash) (now : Time) (k : StreamKeys) (hframes : a.frames ≠ []) :
    (commit m a now k).msg = zaddAll a.frames k.msg ∧
    (commit m a now k).fences = k.fences ∧ (commit m a now k).forks = k.forks ∧
    (commit m a now k).prod =
      if a.hasProducer then Function.update k.prod a.producerId (some (commitState a now))
      else k.prod := by
  have hkeys := hsetAll_keys (({ k with msg := zaddAll a.frames k.msg } : StreamKeys).hset .tail
    a.newTail) (seqFields a ++ closeFields a ++ fenceBind m a.fence a.producerId a.newTail)
  unfold commit
  dsimp only
  rw [if_pos hframes]
  rcases hkeys with ⟨hmsg, hprod, hforks, hfences⟩
  split
  · exact ⟨hmsg, hfences, hforks, by rw [hprod]; rfl⟩
  · exact ⟨hmsg, hfences, hforks, hprod⟩

@[simp] theorem withMessages_metadata (st : MemoryStream) (ds : List Bytes) :
    (withMessages st ds).metadata = st.metadata := rfl

theorem commit_bind (st : MemoryStream) (opts : AppendOptions) (adm : MemoryStream.Admission)
    (off : Offset) :
    st.commit opts adm off =
      (st.commit { opts with fence := none } adm off).bind opts.fence opts.producerId off := by
  unfold MemoryStream.commit MemoryStream.bind
  cases opts.fence with
  | none => rfl
  | some f =>
    dsimp only
    split <;> rfl

theorem commit_metadata (st : MemoryStream) (opts : AppendOptions) (adm : MemoryStream.Admission)
    (off : Offset) :
    (st.commit opts adm off).metadata =
      { st.metadata with
        currentOffset := off
        lastSeq := if opts.seq ≠ [] then opts.seq else st.metadata.lastSeq
        producers := adm.apply st.metadata.producers
        closed := st.metadata.closed || opts.close
        closedBy := if opts.close && opts.producer.isSome then opts.producer
          else st.metadata.closedBy } := by
  simp [MemoryStream.commit, MemoryStream.bind_metadata]

theorem commit_messages (st : MemoryStream) (opts : AppendOptions) (adm : MemoryStream.Admission)
    (off : Offset) : (st.commit opts adm off).messages = st.messages := by
  simp [MemoryStream.commit]

/-- A commit without a fence leaves the records of the fences alone. -/
theorem commit_kept (st : MemoryStream) (adm : MemoryStream.Admission) (off : Offset)
    (hfence : opts.fence = none) :
    (st.commit opts adm off).seals = st.seals ∧ (st.commit opts adm off).bound = st.bound ∧
      (st.commit opts adm off).lastFencedOff = st.lastFencedOff := by
  rw [MemoryStream.commit, hfence]
  exact ⟨rfl, rfl, rfl⟩

theorem producer_eq_some {p : ClosedByProducer} (h : opts.producer = some p) :
    p.producerId = opts.producerId ∧ opts.producerEpoch = some p.epoch ∧
      opts.producerSeq = some p.seq ∧ opts.producerId ≠ [] := by
  unfold AppendOptions.producer at h
  split at h
  · split at h
    · cases h
      exact ⟨rfl, ‹_›, ‹_›, ‹_›⟩
    · cases h
  · cases h

theorem committed_eq (ds : List Bytes) (h : Mirrors st k) (ha : Carries path now opts a)
    (hfence : opts.fence = none)
    (htail : a.newTail = (endOffset st.metadata.currentOffset ds).string) {f : MetaField}
    (hf : f ≠ .refCount) :
    committed a k.info f = metaFields ((withMessages st ds).commit opts (admissionOf opts now)
      (endOffset st.metadata.currentOffset ds)) f := by
  have hinfo := h.info f hf
  have hkept := commit_kept (withMessages st ds) (admissionOf opts now)
    (endOffset st.metadata.currentOffset ds) hfence
  have hmd := commit_metadata (withMessages st ds) opts (admissionOf opts now)
    (endOffset st.metadata.currentOffset ds)
  have hcb : ∀ {p}, opts.producer = some p → a.producerId = p.producerId ∧
      a.pEpoch = formatInt p.epoch ∧ a.pSeq = formatInt p.seq := by
    intro p hp
    rcases producer_eq_some hp with ⟨hid, hepoch, hseq, -⟩
    exact ⟨by rw [ha.producerId, hid], by rw [ha.pEpoch, hepoch]; rfl,
      by rw [ha.pSeq, hseq]; rfl⟩
  cases f with
  | refCount => exact absurd rfl hf
  | tail => simp [committed, metaFields, metaToFields, hmd, htail]
  | lastSeq =>
    simp only [committed, metaFields, metaToFields, hmd, ha.streamSeq]
    by_cases hs : opts.seq = []
    · simpa [hs, metaFields, metaToFields] using hinfo
    · simp [hs, nonEmpty]
  | closed =>
    simp only [committed, metaFields, metaToFields, hmd, ha.closing]
    cases opts.close with
    | true => simp [flag]
    | false => simpa [metaFields, metaToFields] using hinfo
  | cbId | cbEpoch | cbSeq =>
    simp only [committed, metaFields, metaToFields, hmd, ha.closing, ha.hasProducer]
    cases hc : opts.close with
    | false => simpa [metaFields, metaToFields] using hinfo
    | true =>
      cases hp : opts.producer with
      | none => simpa [metaFields, metaToFields] using hinfo
      | some p => simp [hcb hp]
  | wfseal _ | wfLastOff | wfbind _ =>
    simp only [metaFields, hkept]
    exact Eq.trans (by simp [committed]) hinfo
  | _ =>
    simp only [committed, metaFields, metaToFields, hmd, reduceCtorEq, and_false, false_and,
      if_false]
    exact hinfo

/-- Offsets up to a small tail are small. -/
theorem small_of_le {a b : Offset} (hb : b.Small) (hseq : b.readSeq = 0) (h : a ≤ b) :
    a.Small := by
  have hza := readSeq_of_le h hseq
  rw [Offset.le_def] at h
  exact hb.of_le (by omega) (by omega)

theorem Laid.small (h : st.Laid) (hsmall : st.metadata.currentOffset.Small) {m : Message}
    (hm : m ∈ st.messages) : m.offset.Small :=
  small_of_le hsmall h.tail_readSeq (h.le_tail hm)

theorem Mirrors.commit_laid (h : Mirrors st k) (hds : ∀ d ∈ ds, d ≠ []) :
    ((withMessages st ds).commit opts (admissionOf opts now)
      (endOffset st.metadata.currentOffset ds)).Laid := by
  rcases h.laid with ⟨hseq, ds₀, hds₀, hm, ht⟩
  rw [MemoryStream.Laid, commit_metadata, commit_messages]
  refine ⟨hseq, ds₀ ++ ds, ?_, ?_, ?_⟩
  · simpa [or_imp, forall_and] using ⟨hds₀, hds⟩
  · rw [withMessages, hm, ht, layOut_append]
  · rw [ht, ← endOffset_append]
    rfl

theorem Mirrors.commit_prod (h : Mirrors st k) (ha : Carries path now opts a)
    (hnonempty : a.frames ≠ []) (pid : Bytes) :
    (Redis.commit m a now k).prod pid = (((withMessages st ds).commit opts (admissionOf opts now)
      (endOffset st.metadata.currentOffset ds)).metadata.producers pid).map
        encodeProducerState := by
  rcases commit_keys m now k hnonempty with ⟨-, -, -, hprod⟩
  rw [hprod, ha.hasProducer, commit_metadata]
  unfold admissionOf MemoryStream.Admission.apply
  cases hp : opts.producer with
  | none => exact h.prod pid
  | some p =>
    rcases producer_eq_some hp with ⟨hid, hepoch, hseq, -⟩
    have hstate : commitState a now = encodeProducerState ⟨p.epoch, p.seq, now.unix⟩ := by
      rw [commitState, ha.pEpoch, ha.pSeq, hepoch, hseq]
      rfl
    rw [Option.isSome_some, if_pos rfl, ha.producerId, ← hid, hstate]
    by_cases hpid : pid = p.producerId
    · subst hpid
      simp
    · simpa [hpid] using h.prod pid

theorem Mirrors.bind (h : Mirrors st k) (hwf : m .wf = some one ↔ st.metadata.writeFence = true)
    (path : Path) (fence : Option AppendFence)
    (hfence : ∀ f, fence = some f → 0 < f.generation ∧ FitsInt64 f.generation)
    (pid : Bytes) (off : Offset) :
    Mirrors (st.bind fence pid off)
      (k.hsetAll (fenceBind m (fence.map (claimArgs path)) pid off.string)) := by
  cases fence with
  | none => exact h
  | some f =>
    rcases hfence f rfl with ⟨hpos, hfits⟩
    unfold MemoryStream.bind fenceBind
    dsimp only [Option.map_some]
    by_cases hw : st.metadata.writeFence = true
    · rw [if_pos hw, if_pos (hwf.mpr hw)]
      refine ⟨?_, ?_, h.msg, h.prod, h.laid, h.small, h.incarnation, h.producers, h.seals, ?_⟩
      · intro g hg
        have hinfo := h.info g hg
        cases g with
        | wfLastOff => simp [metaFields]
        | wfbind p =>
          by_cases hp : p = pid
          · subst hp
            simp [metaFields, hpos.ne', claimArgs]
          · simpa [metaFields, hp] using hinfo
        | _ => simpa [metaFields] using hinfo
      · rw [refCountOf_congr (m := k.info) (by simp)]
        exact h.refs
      · intro p
        by_cases hp : p = pid
        · subst hp
          simpa using hfits
        · simpa [hp] using h.bound p
    · rw [if_neg hw, if_neg (mt hwf.mp hw)]
      exact h

theorem Mirrors.commit_unfenced (h : Mirrors st k) (ha : Carries path now opts a)
    (hfence : opts.fence = none) (hfits : RequestFits opts) (hds : ∀ d ∈ ds, d ≠ [])
    (hnonempty : a.frames ≠ [])
    (hframes : a.frames = (layOut st.metadata.currentOffset ds).map frame)
    (htail : a.newTail = (endOffset st.metadata.currentOffset ds).string)
    (hsmall : (endOffset st.metadata.currentOffset ds).Small) :
    Mirrors ((withMessages st ds).commit opts (admissionOf opts now)
      (endOffset st.metadata.currentOffset ds)) (Redis.commit m a now k) := by
  have hinfo : ∀ f, (Redis.commit m a now k).info f = committed a k.info f :=
    commit_info hnonempty (ha.fence.trans (by rw [hfence]; rfl))
  have hkept := commit_kept (withMessages st ds) (admissionOf opts now)
    (endOffset st.metadata.currentOffset ds) hfence
  have hmd := commit_metadata (withMessages st ds) opts (admissionOf opts now)
    (endOffset st.metadata.currentOffset ds)
  have hlaid : ((withMessages st ds).commit opts (admissionOf opts now)
      (endOffset st.metadata.currentOffset ds)).Laid := h.commit_laid hds
  rcases commit_keys m now k hnonempty with ⟨hmsg, -⟩
  constructor
  · intro f hf
    rw [hinfo]
    exact committed_eq ds h ha hfence htail hf
  · rw [refCountOf_congr (m := k.info) (by simp [hinfo, committed]), h.refs, hmd]
    rfl
  · rw [hmsg, h.msg, hframes, commit_messages]
    refine zaddAll_frames (l := st.messages) ?_ ?_
    · intro m hm
      refine Laid.small hlaid ?_ (by rwa [commit_messages])
      rwa [hmd]
    · have := hlaid.sorted
      rwa [commit_messages] at this
  · exact h.commit_prod ha hnonempty
  · exact hlaid
  · rwa [hmd]
  · rw [hmd]
    exact h.incarnation
  · intro pid ps hps
    rw [hmd] at hps
    unfold admissionOf MemoryStream.Admission.apply at hps
    cases hp : opts.producer with
    | none =>
      rw [hp] at hps
      exact h.producers pid ps hps
    | some p =>
      rcases producer_eq_some hp with ⟨-, hepoch, hseq, -⟩
      rw [hp] at hps
      dsimp only at hps
      by_cases hpid : pid = p.producerId
      · subst hpid
        rw [Function.update_self, Option.some.injEq] at hps
        subst hps
        exact ⟨hfits.epoch _ hepoch, hfits.seq _ hseq⟩
      · rw [Function.update_of_ne hpid] at hps
        exact h.producers pid ps hps
  · rw [hkept.1]
    exact h.seals
  · rw [hkept.2.1]
    exact h.bound

/-- A commit keeps the correspondence. -/
theorem Mirrors.commit (h : Mirrors st k) (hwf : m .wf = some one ↔ st.metadata.writeFence = true)
    (ha : Carries path now opts a) (hfits : RequestFits opts)
    (hgen : ∀ f, opts.fence = some f → 0 < f.generation)
    (hds : ∀ d ∈ ds, d ≠ []) (hne : ds ≠ [])
    (hframes : a.frames = (layOut st.metadata.currentOffset ds).map frame)
    (htail : a.newTail = (endOffset st.metadata.currentOffset ds).string)
    (hsmall : (endOffset st.metadata.currentOffset ds).Small) :
    Mirrors ((withMessages st ds).commit opts (admissionOf opts now)
      (endOffset st.metadata.currentOffset ds)) (Redis.commit m a now k) := by
  have hnonempty : a.frames ≠ [] := by
    rw [hframes]
    rcases ds with _ | ⟨d, ds⟩
    · exact absurd rfl hne
    · simp [layOut]
  have hcarries : Carries path now { opts with fence := none } { a with fence := none } :=
    { ha with fence := rfl }
  have hunfenced := h.commit_unfenced (m := m) hcarries rfl ⟨hfits.epoch, hfits.seq, by simp⟩
    hds hnonempty hframes htail hsmall
  have hargs : fenceBind m a.fence a.producerId a.newTail = fenceBind m
      (opts.fence.map (claimArgs path)) opts.producerId
      (endOffset st.metadata.currentOffset ds).string := by
    rw [ha.fence, ha.producerId, htail]
  rw [commit_bind, commit_fenced, hargs]
  exact hunfenced.bind hwf path opts.fence (fun f hf => ⟨hgen f hf, hfits.generation f hf⟩) _ _

end Commit

end Chronicle.Redis
