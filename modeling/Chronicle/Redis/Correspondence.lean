import Chronicle.Memory.Visible
import Chronicle.Redis.Append

/-! # Corresponding states

When the keys of a stream in Redis stand for a stream of the memory store: the
hashes hold the encoded metadata, producers and fence records, and the sorted
set holds the encoded messages. The rungs of the scripts then decide as the
memory store does.
-/

namespace Chronicle.Redis

open Decimal

section Encoding

def encodeSeal (sl : WriteFenceSeal) : Bytes :=
  formatInt sl.generation ++ 58 :: sl.wakeID ++ 58 :: sl.offset.string

/-- The fields of the metadata hash of a stream, with those that the scripts keep and with its
times in full. -/
def metaFields (st : MemoryStream) : MetaHash
  | .createdAtNs => some (formatInt st.metadata.createdAt)
  | .accessedAtNs => some (formatInt st.metadata.lastAccessedAt)
  | .expAtNs => st.metadata.expiresAt.map formatInt
  | .wfSealGen => st.metadata.sealedOffset.map fun _ => formatInt st.metadata.sealedGeneration
  | .wfSealOff => st.metadata.sealedOffset.map Offset.string
  | .wfLastOff => st.lastFencedOff.map Offset.string
  | .wfseal authority => (st.seals authority).map encodeSeal
  | .wfbind producerId =>
    if st.bound producerId = 0 then none else some (formatInt (st.bound producerId))
  | f => metaToFields st.metadata f

def MarkerState.name : MarkerState → Bytes
  | .live => Bytes.ascii "live"
  | .revoked => Bytes.ascii "revoked"

end Encoding

/-- The keys of a stream that stand for a stream of the memory store. The count
of forks is compared by value, since a count that fell to zero stays stored. -/
structure Mirrors (st : MemoryStream) (k : StreamKeys) : Prop where
  info : ∀ f, f ≠ .refCount → k.info f = metaFields st f
  refs : refCountOf k.info = some st.metadata.refCount.toInt
  msg : k.msg = st.messages.map frame
  prod : ∀ pid, k.prod pid = (st.metadata.producers pid).map encodeProducerState
  laid : st.Laid
  small : st.metadata.currentOffset.Small
  incarnation : st.metadata.incarnation ≠ []
  producers : ∀ pid ps, st.metadata.producers pid = some ps →
    FitsInt64 ps.epoch ∧ FitsInt64 ps.lastSeq
  seals : ∀ authority sl, st.seals authority = some sl → FitsInt64 sl.generation
  bound : ∀ pid, FitsInt64 (st.bound pid)

/-- The part of it that the client decodes. -/
structure HashMirrors (st : MemoryStream) (m : MetaHash) : Prop where
  info : ∀ f, f ≠ .refCount → m f = metaFields st f
  refs : refCountOf m = some st.metadata.refCount.toInt
  incarnation : st.metadata.incarnation ≠ []

theorem Mirrors.hash {st : MemoryStream} {k : StreamKeys} (h : Mirrors st k) :
    HashMirrors st k.info := ⟨h.info, h.refs, h.incarnation⟩

/-- The fields of a metadata hash that the scripts read once and then rely on. -/
def Shows (st : MemoryStream) (m : MetaHash) : Prop :=
  ∀ f, f ≠ .refCount → f ≠ .accessedAtNs → m f = metaFields st f

section Fields

variable {st : MemoryStream} {k : StreamKeys} {m : MetaHash}

theorem HashMirrors.shows (h : HashMirrors st m) : Shows st m := fun f hf _ => h.info f hf

theorem Mirrors.shows (h : Mirrors st k) : Shows st k.info := h.hash.shows

theorem Shows.metaMap (h : Shows st k.info) : metaMap k = some k.info := by
  rw [Redis.metaMap, h .tail (by simp) (by simp)]
  rfl

variable (h : Shows st m)
include h

theorem Shows.tail : m .tail = some st.metadata.currentOffset.string := h _ (by simp) (by simp)

theorem Shows.ct : m .ct = some st.metadata.contentType := h _ (by simp) (by simp)

theorem Shows.incarnation : m .incarnation = nonEmpty st.metadata.incarnation :=
  h _ (by simp) (by simp)

theorem Shows.wfseal (authority : Bytes) :
    m (.wfseal authority) = (st.seals authority).map encodeSeal := h _ (by simp) (by simp)

theorem Shows.closed : m .closed = some one ↔ st.metadata.closed = true := by
  rw [h _ (by simp) (by simp)]
  exact flag_eq_one _

theorem Shows.softDel : m .softDel = some one ↔ st.metadata.softDeleted = true := by
  rw [h _ (by simp) (by simp)]
  exact flag_eq_one _

theorem Shows.wf : m .wf = some one ↔ st.metadata.writeFence = true := by
  rw [h _ (by simp) (by simp)]
  exact flag_eq_one _

theorem Shows.closedBy : m .cbId = st.metadata.closedBy.map ClosedByProducer.producerId ∧
    m .cbEpoch = (st.metadata.closedBy.map fun c => formatInt c.epoch) ∧
    m .cbSeq = st.metadata.closedBy.map fun c => formatInt c.seq :=
  ⟨h _ (by simp) (by simp), h _ (by simp) (by simp), h _ (by simp) (by simp)⟩

theorem Shows.closedByRequest (p : ClosedByProducer) :
    ((m .cbEpoch).isSome && m .cbId = some p.producerId && m .cbEpoch = some (formatInt p.epoch) &&
      m .cbSeq = some (formatInt p.seq)) = st.closedByRequest p := by
  rcases h.closedBy with ⟨hid, hepoch, hseq⟩
  rw [hid, hepoch, hseq]
  cases hc : st.metadata.closedBy with
  | none => simp [MemoryStream.closedByRequest, hc]
  | some c =>
    cases p
    cases c
    rw [Bool.eq_iff_iff]
    simp [MemoryStream.closedByRequest, hc, formatInt_injective.eq_iff, and_assoc]

end Fields

def keysOf (st : MemoryStream) : StreamKeys where
  info := metaFields st
  msg := st.messages.map frame
  prod pid := (st.metadata.producers pid).map encodeProducerState

/-- The hash of a claim marker that stands for a marker of the memory store. -/
structure MarkerMirrors (m : WriteFenceMarker) (row : MarkerHash) : Prop where
  state : row .state = some (MarkerState.name m.state)
  generation : row .generation = some (formatInt m.generation)
  wakeId : (row .wakeId).getD [] = m.wakeID
  holder : (row .holder).getD [] = m.holder
  lease : row .leaseUntilNs = some (formatInt m.leaseUntilNs)
  incarnation : (row .streamIncarnation).getD [] = m.streamIncarnation
  fits : FitsInt64 m.generation

/-- All claim markers of a stream that the memory store has not reaped are stored. -/
def MarkersMirror (s : MemoryStore) (path : Path) (k : StreamKeys) (wall : Time) : Prop :=
  ∀ f : AppendFence,
    match (s.marker path (fenceAuthority f) wall).2 with
    | none => k.fences (appendFenceKey path f) = fun _ => none
    | some m => MarkerMirrors m (k.fences (appendFenceKey path f))

/-- Corresponding states of one stream at an instant. An expired stream of the
memory store may be soft-deleted or gone in Redis. -/
inductive Corresponds (now : Time) : Option MemoryStream → StreamKeys → Prop
  | absent {k} (hk : k = k.del) : Corresponds now none k
  | present {st k} (hm : Mirrors st k) : Corresponds now (some st) k
  | removed {st k} (hexp : st.metadata.isExpiredAt now) (hk : k = k.del) :
      Corresponds now (some st) k
  | flipped {st k} (hexp : st.metadata.isExpiredAt now) (hrefs : 0 < st.metadata.refCount.toInt)
      (hm : Mirrors { st with metadata := { st.metadata with softDeleted := true } } k) :
      Corresponds now (some st) k

section Rungs

variable {st : MemoryStream} {k : StreamKeys} {now : Time}

@[simp] theorem tonumber_formatInt (n : ℤ) : tonumber (formatInt n) = some n := parseInt_formatInt n

/-- Times that fit are written in full. -/
theorem metaToFields_eq (hfits : MetadataFits st.metadata) (hseals : st.seals = fun _ => none)
    (hbound : st.bound = fun _ => 0) (hlast : st.lastFencedOff = none)
    (hsealed : st.metadata.sealedOffset = none) : metaToFields st.metadata = metaFields st := by
  have hexp : st.metadata.expiresAt.map (fun t => formatInt (unixNano t)) =
      st.metadata.expiresAt.map formatInt :=
    Option.map_congr fun t ht => by rw [unixNano_eq (hfits.expiresAt t ht)]
  funext f
  cases f <;> simp [metaFields, metaToFields, hseals, hbound, hlast, hsealed, hexp,
    unixNano_eq hfits.createdAt, unixNano_eq hfits.lastAccessedAt]

theorem refCountOf_metaToFields (md : StreamMetadata) :
    refCountOf (metaToFields md) = some md.refCount.toInt := by
  change tonumber ((metaToFields md .refCount).getD [48]) = _
  unfold metaToFields
  by_cases h : md.refCount = 0
  · simp only [h, if_true]
    rfl
  · simp [h]

/-- A well-formed stream without producers and fence records is mirrored by its own keys. -/
theorem mirrors_keysOf (hlaid : st.Laid) (hsmall : st.metadata.currentOffset.Small)
    (hinc : st.metadata.incarnation ≠ []) (hproducers : ∀ pid, st.metadata.producers pid = none)
    (hseals : ∀ authority, st.seals authority = none) (hbound : ∀ pid, st.bound pid = 0) :
    Mirrors st (keysOf st) where
  info _ _ := rfl
  refs := refCountOf_metaToFields st.metadata
  msg := rfl
  prod _ := rfl
  laid := hlaid
  small := hsmall
  incarnation := hinc
  producers pid ps hps := by simp [hproducers] at hps
  seals authority sl hsl := by simp [hseals] at hsl
  bound pid := by
    rw [hbound]
    exact ⟨by decide, by decide⟩

section Expiry

open Arithmetic (roundInt exact_roundInt)

/-- Whether a stream has expired in the arithmetic of the scripts. -/
def lapsedAt [Arithmetic] (md : StreamMetadata) (now : Time) : Bool :=
  md.expiresAt.any (fun t => roundInt t < roundInt now) || md.ttlSeconds.any fun ttl =>
    roundInt (roundInt md.lastAccessedAt + roundInt (roundInt ttl * 10 ^ 9)) < roundInt now

theorem isExpired_lapsedAt [Arithmetic] (h : Mirrors st k) (now : Time) :
    isExpired k.info now = some (lapsedAt st.metadata now) := by
  have hexp : k.info .expAtNs = st.metadata.expiresAt.map formatInt := h.info .expAtNs (by simp)
  have httl : k.info .ttl = st.metadata.ttlSeconds.map formatInt := h.info .ttl (by simp)
  have hacc : k.info .accessedAtNs = some (formatInt st.metadata.lastAccessedAt) :=
    h.info .accessedAtNs (by simp)
  unfold isExpired lapsedAt
  rw [hexp, httl, hacc]
  cases st.metadata.expiresAt with
  | none => cases st.metadata.ttlSeconds <;> simp
  | some t =>
    by_cases ht : roundInt t < roundInt now
    · simp [ht]
    · cases st.metadata.ttlSeconds <;> simp [ht]

/-- Without rounding, both backends find the same streams expired. -/
theorem isExpired_mirrors (h : Mirrors st k) (hnow : now ≤ maxInt64) :
    isExpired k.info now = some (st.metadata.isExpiredAt now) := by
  have hseconds : now.unix ≤ maxInt64 := by
    unfold Time.unix maxInt64 Time at *
    omega
  rw [isExpired_lapsedAt h]
  simp only [lapsedAt, exact_roundInt, window_eq st.metadata.lastAccessedAt _ hseconds]
  rfl

end Expiry

def readBack (path : Path) (md : StreamMetadata) : StreamMetadata :=
  { md with path := path, producers := fun _ => none }

variable {m : MetaHash}

theorem forkedFrom_mirrors (h : HashMirrors st m) :
    (m .forkedFrom).getD [] = st.metadata.forkedFrom := by
  rw [h.info .forkedFrom (by simp)]
  exact nonEmpty_getD _

theorem decodeFork_mirrors (h : HashMirrors st m) (hfits : MetadataFits st.metadata) :
    decodeFork m = some (st.metadata.forkOffset, st.metadata.forkOffsetRequested,
      st.metadata.forkSubOffset) := by
  unfold decodeFork
  rw [forkedFrom_mirrors h]
  by_cases hf : st.metadata.forkedFrom = []
  · rcases hfits.unforked hf with ⟨hoff, hreq, hsub⟩
    rw [if_pos hf, hoff, hreq, hsub]
  have hoff : m .forkOff = some st.metadata.forkOffset.string :=
    (h.info .forkOff (by simp)).trans (if_neg hf)
  have hreq : m .forkOffReq = st.metadata.forkOffsetRequested.map Offset.string :=
    (h.info .forkOffReq (by simp)).trans (if_neg hf)
  have hsub : parseField Offset.parseUint64 (m .forkSubOff) =
      some (if st.metadata.forkSubOffset = 0 then none else some st.metadata.forkSubOffset) := by
    rw [h.info .forkSubOff (by simp)]
    change parseField _ (if _ then _ else _) = _
    by_cases hzero : st.metadata.forkSubOffset = 0
    · simp [hf, hzero, parseField]
    · simpa [hf, hzero, parseField, Offset.parseUint64, Option.filter] using hfits.forkSubOffset
  have hreq' : parseField Offset.parseOffset
      (st.metadata.forkOffsetRequested.map Offset.string) = _ :=
    parseField_map fun o ho => Offset.parseOffset_string (hfits.forkOffsetRequested o ho)
  rw [if_neg hf, hoff, hreq, hsub, Option.getD_some, Offset.parseOffset_string hfits.forkOffset,
    hreq']
  by_cases hzero : st.metadata.forkSubOffset = 0 <;> simp [hzero]

theorem decodeClosedBy_mirrors (h : HashMirrors st m) (hfits : MetadataFits st.metadata) :
    decodeClosedBy m = some st.metadata.closedBy := by
  rcases h.shows.closedBy with ⟨hid, hepoch, hseq⟩
  unfold decodeClosedBy
  rw [hepoch, hseq, hid]
  cases hc : st.metadata.closedBy with
  | none => rfl
  | some c =>
    rcases hfits.closedBy c hc with ⟨he, hs⟩
    simp [he, hs]

theorem refCount_mirrors (h : HashMirrors st m) :
    (parseField parseInt32 (m .refCount)).map (·.getD 0) = some st.metadata.refCount := by
  have hrefs := h.refs
  unfold refCountOf tonumber at hrefs
  cases hr : m .refCount with
  | none =>
    rw [hr] at hrefs
    have hzero : st.metadata.refCount = 0 := by
      rw [← Int32.toInt_inj, ← Option.some.inj hrefs]
      rfl
    simp [parseField, hzero]
  | some v =>
    rw [hr, Option.getD_some] at hrefs
    simp [parseField, parseInt32_of_parseInt hrefs]

/-- The metadata of a stream is read back from its hash. -/
theorem metaFromFields_mirrors (h : HashMirrors st m) (hfits : MetadataFits st.metadata)
    (path : Path) : metaFromFields path m = .ok (some (readBack path st.metadata)) := by
  have hinfo := h.info
  have hcreated : m .createdAtNs = some (formatInt st.metadata.createdAt) :=
    hinfo .createdAtNs (by simp)
  have haccessed : m .accessedAtNs = some (formatInt st.metadata.lastAccessedAt) :=
    hinfo .accessedAtNs (by simp)
  have hinc : m .incarnation = some st.metadata.incarnation :=
    (hinfo .incarnation (by simp)).trans (if_neg h.incarnation)
  have hseq : (m .lastSeq).getD [] = st.metadata.lastSeq := by
    rw [hinfo .lastSeq (by simp)]
    exact nonEmpty_getD _
  have httl : parseField parseInt64 (m .ttl) = some st.metadata.ttlSeconds := by
    rw [hinfo .ttl (by simp)]
    exact parseField_map fun t ht => parseInt64_formatInt (hfits.ttlSeconds t ht)
  have hexp : parseField parseInt64 (m .expAtNs) = some st.metadata.expiresAt := by
    rw [hinfo .expAtNs (by simp)]
    exact parseField_map fun t ht => parseInt64_formatInt (hfits.expiresAt t ht)
  have hgen : parseField parseInt64 (m .wfSealGen) =
      some (st.metadata.sealedOffset.map fun _ => st.metadata.sealedGeneration) := by
    rw [hinfo .wfSealGen (by simp)]
    change parseField _ (Option.map _ _) = _
    cases hs : st.metadata.sealedOffset with
    | none => rfl
    | some o => simp [parseField, (hfits.sealedOffset o hs).2]
  have hoff : parseField Offset.parseOffset (m .wfSealOff) =
      some st.metadata.sealedOffset := by
    rw [hinfo .wfSealOff (by simp)]
    exact parseField_map fun o ho => Offset.parseOffset_string (hfits.sealedOffset o ho).1
  have hsealed : (st.metadata.sealedOffset.map fun _ => st.metadata.sealedGeneration).getD 0 =
      st.metadata.sealedGeneration := by
    cases hs : st.metadata.sealedOffset with
    | none => exact (hfits.unsealed hs).symm
    | some o => rfl
  rcases Option.map_eq_some_iff.mp (refCount_mirrors h) with ⟨refs, hrefs, hrefs'⟩
  have hshows := h.shows
  unfold metaFromFields decodeMeta decodeIncarnation
  rw [hshows.tail]
  simp only [hcreated, haccessed, hinc, httl, hexp, hgen, hoff, hrefs, hrefs', hshows.ct, hseq,
    hshows.closed, hshows.softDel, hshows.wf, hsealed,
    Offset.parseOffset_string hfits.currentOffset, decodeFork_mirrors h hfits,
    decodeClosedBy_mirrors h hfits, forkedFrom_mirrors h, Option.bind_some,
    Option.bind_eq_bind, Option.getD_some, parseInt64_formatInt hfits.createdAt,
    parseInt64_formatInt hfits.lastAccessedAt, h.incarnation, if_false, Bool.decide_eq_true]
  rfl

end Rungs

section Strings

/-- A number in front of other text is read off. -/
theorem signedDigits_formatInt (n : ℤ) {c : UInt8} (hc : isDigit c = false) (rest : Bytes) :
    signedDigits (formatInt n ++ c :: rest) = some (formatInt n, c :: rest) := by
  have hrun : ∀ m : ℕ, (formatNat m ++ c :: rest).takeWhile isDigit = formatNat m ∧
      (formatNat m ++ c :: rest).dropWhile isDigit = c :: rest := by
    intro m
    have hall := List.all_eq_true.mp (all_isDigit_formatNat m)
    rw [List.takeWhile_append_of_pos hall, List.dropWhile_append_of_pos hall]
    simp [hc]
  cases n with
  | ofNat n =>
    have hsign : (formatNat n ++ c :: rest).take 1 ≠ [45] := by
      rcases hf : formatNat n with _ | ⟨d, t⟩
      · exact absurd hf (formatNat_ne_nil n)
      · have := take_formatNat n
        rw [hf] at this
        simpa using this
    simp [signedDigits, formatInt, hsign, hrun n, formatNat_ne_nil]
  | negSucc n =>
    simp [signedDigits, formatInt, hrun (n + 1), formatNat_ne_nil]

theorem stateParts_encode (ps : ProducerState) :
    stateParts (encodeProducerState ps) = some (formatInt ps.epoch, formatInt ps.lastSeq) := by
  unfold encodeProducerState stateParts
  rw [List.append_assoc, List.cons_append, signedDigits_formatInt _ rfl]
  have hseq := signedDigits_formatInt ps.lastSeq rfl (c := 58) (formatInt ps.lastUpdated)
  simp only [hseq]

/-- A stored seal is read back. -/
theorem sealParts_formatInt (n : ℤ) (wake off : Bytes) :
    ∃ wake' off', sealParts (formatInt n ++ 58 :: (wake ++ 58 :: off)) =
      some (formatInt n, wake', off') := by
  unfold sealParts
  rw [signedDigits_formatInt _ rfl]
  rcases hd : (wake ++ 58 :: off).dropWhile (· ≠ 58) with _ | ⟨c, rest⟩
  · rw [List.dropWhile_eq_nil_iff] at hd
    simpa using hd 58 (by simp)
  · have hc : c = 58 := by
      have := List.head?_dropWhile_not (fun c : UInt8 => decide (c ≠ 58)) (wake ++ 58 :: off)
      rw [hd] at this
      simpa using this
    subst hc
    simp only [hd]
    exact ⟨_, _, rfl⟩

theorem sealParts_encode (sl : WriteFenceSeal) :
    ∃ wake off, sealParts (encodeSeal sl) = some (formatInt sl.generation, wake, off) := by
  unfold encodeSeal
  rw [List.append_assoc, List.cons_append]
  exact sealParts_formatInt sl.generation sl.wakeID sl.offset.string

end Strings

section Producers

/-- How the outcomes of the two producer state machines correspond. -/
def outcomeOf : AppendResult × Option ProducerState × Option StoreError → ProducerOutcome
  | (_, _, none) => .accept
  | (r, _, some .staleEpoch) => .staleEpoch (formatInt r.currentEpoch)
  | (_, _, some .invalidEpochSeq) => .epochSeq
  | (r, _, some _) => .seqGap (formatInt r.expectedSeq) (formatInt r.receivedSeq)

/-- The producer state machine on strings decides like the one on numbers. -/
theorem validateProducer_encode (state : Option ProducerState) (epoch seq now : ℤ) :
    validateProducer (state.map encodeProducerState) (formatInt epoch) (formatInt seq) =
      some (match Chronicle.validateProducer state epoch seq now with
        | (r, none, none) => .dup (formatInt r.lastSeq)
        | other => outcomeOf other) := by
  unfold validateProducer Chronicle.validateProducer
  cases state with
  | none =>
    by_cases hs : seq = 0
    · simp [intIsZero_formatInt, hs, outcomeOf]
    · simp [intIsZero_formatInt, hs, outcomeOf]
      rfl
  | some ps =>
    simp only [Option.map_some, stateParts_encode, intCmp_formatInt, intIsZero_formatInt,
      intAddOne_formatInt, sign]
    by_cases hlt : epoch < ps.epoch
    · simp [hlt, outcomeOf]
    · by_cases hgt : ps.epoch < epoch
      · by_cases hs : seq = 0 <;> simp [hlt, hgt, hs, outcomeOf]
      · by_cases hle : seq ≤ ps.lastSeq
        · rcases hle.lt_or_eq with h | h
          · simp [hlt, hgt, h, h.le]
          · simp [hlt, hgt, h]
        · have hseq : ps.lastSeq < seq := not_le.mp hle
          by_cases hnext : seq = ps.lastSeq + 1
          · simp [hlt, hgt, hnext, outcomeOf]
          · have hne : formatInt seq ≠ formatInt (ps.lastSeq + 1) := fun h =>
              hnext (formatInt_injective h)
            simp [hlt, hgt, hle, hseq, hseq.not_gt, hnext, hne, outcomeOf]

theorem fits_zero : FitsInt64 0 := by
  unfold FitsInt64 maxInt64
  omega

/-- The ways in which validation ends, with numbers that are in range. -/
theorem validateProducer_answers {state : Option ProducerState} {seq : ℤ}
    (hstate : ∀ ps, state = some ps → FitsInt64 ps.epoch ∧ FitsInt64 ps.lastSeq)
    (hseq : FitsInt64 seq) (epoch now : ℤ) :
    (∃ c, FitsInt64 c ∧ Chronicle.validateProducer state epoch seq now =
      ({ currentEpoch := c }, none, some .staleEpoch)) ∨
    Chronicle.validateProducer state epoch seq now = ({}, none, some .invalidEpochSeq) ∨
    (∃ n, FitsInt64 n ∧ Chronicle.validateProducer state epoch seq now =
      ({ expectedSeq := n, receivedSeq := seq }, none, some .producerSeqGap)) ∨
    (∃ l, FitsInt64 l ∧ Chronicle.validateProducer state epoch seq now =
      ({ producerResult := .duplicate, lastSeq := l }, none, none)) ∨
    Chronicle.validateProducer state epoch seq now =
      ({ producerResult := .accepted, lastSeq := seq }, some ⟨epoch, seq, now⟩, none) := by
  unfold Chronicle.validateProducer
  cases state with
  | none =>
    by_cases hs : seq = 0
    · subst hs
      exact .inr (.inr (.inr (.inr rfl)))
    · exact .inr (.inr (.inl ⟨0, fits_zero, if_pos hs⟩))
  | some ps =>
    rcases hstate ps rfl with ⟨hepoch, hlast⟩
    dsimp only
    split_ifs with hlt hgt hs hdup hnext
    · exact .inl ⟨ps.epoch, hepoch, rfl⟩
    · exact .inr (.inl rfl)
    · rw [not_not] at hs
      subst hs
      exact .inr (.inr (.inr (.inr rfl)))
    · exact .inr (.inr (.inr (.inl ⟨ps.lastSeq, hlast, rfl⟩)))
    · exact .inr (.inr (.inr (.inr rfl)))
    · refine .inr (.inr (.inl ⟨ps.lastSeq + 1, ?_, rfl⟩))
      unfold FitsInt64 at *
      omega

end Producers

section Fence

variable {s : MemoryStore} {path : Path} {st : MemoryStream} {k : StreamKeys} {now wall : Time}

theorem name_eq_live (state : MarkerState) :
    MarkerState.name state = Bytes.ascii "live" ↔ state = .live := by
  cases state <;> decide

theorem complete_ranges {f : AppendFence} (h : f.complete) : 0 ≤ f.shard ∧ 0 < f.generation := by
  simp only [AppendFence.complete, Bool.and_eq_true, decide_eq_true_eq] at h
  exact ⟨h.1.1.1.2, h.1.1.2⟩

theorem evaluateFenced_mirrors (path : Path) (now : Time) (f : AppendFence)
    {marker : Option WriteFenceMarker} (lastSeal : Option WriteFenceSeal) {row : MarkerHash}
    (incarnation : Bytes)
    (hrow : match marker with
      | none => row = fun _ => none
      | some m => MarkerMirrors m row)
    (hnamed : incarnation = [] → ∀ m, marker = some m → m.state = .live →
      m.streamIncarnation ≠ []) (streamFenced hasProducer : Bool) (epoch : ℤ) :
    let out := Chronicle.evaluateWriteFence
      { streamFenced := streamFenced, streamIncarnation := incarnation, fence := some f
        marker := marker, lastSeal := lastSeal, nowNs := now, hasProducer := hasProducer
        producerEpoch := epoch }
    evaluateFenced streamFenced (nonEmpty incarnation) (claimArgs path f) row
        (lastSeal.map fun sl => formatInt sl.generation) now hasProducer (formatInt epoch) =
      some (out.reason, formatInt out.generation, out.holder) := by
  have hsealed : (streamFenced && (lastSeal.map fun sl => formatInt sl.generation).any
      fun g => decide (intCmp (formatInt f.generation) g ≤ 0)) =
      (streamFenced && lastSeal.any fun sl => decide (f.generation ≤ sl.generation)) := by
    cases lastSeal with
    | none => rfl
    | some sl => simp [sign_nonpos]
  unfold evaluateFenced Chronicle.evaluateWriteFence fencedReason claimArgs
  rw [hsealed]
  cases marker with
  | none =>
    subst hrow
    cases lastSeal with
    | none =>
      simp
      rfl
    | some sl => simp
  | some m =>
    have hlease : leaseLive row now = some (decide (now < m.leaseUntilNs)) := by
      simp [leaseLive, hrow.lease]
    have hinc : m.state = .live →
        (some m.streamIncarnation = nonEmpty incarnation ↔ m.streamIncarnation = incarnation) := by
      intro hlive
      unfold nonEmpty
      split
      · rename_i hempty
        simpa [hempty] using hnamed hempty m rfl hlive
      · rw [Option.some.injEq]
    rw [hrow.state, hrow.generation]
    dsimp only
    rw [hlease, hrow.wakeId, hrow.holder, hrow.incarnation, Option.map_some]
    simp only [intCmp_formatInt, sign_eq_zero, Ne, WriteFenceMarker.liveAt,
      WriteFenceMarker.admits, Option.any_some, name_eq_live]
    congr 2
    by_cases hs : m.state = .live
    · simp only [hinc hs]
      by_cases hg : m.generation = f.generation <;> by_cases hw : m.wakeID = f.wakeID <;>
        by_cases hh : m.holder = f.holder <;> by_cases hl : now < m.leaseUntilNs <;>
        by_cases hi : m.streamIncarnation = incarnation <;> simp [hs, hg, hw, hh, hl, hi]
    · simp [hs]

theorem evaluateOpen_formatInt (streamFenced hasProducer : Bool) (n : ℤ) :
    evaluateOpen streamFenced hasProducer (formatInt n) =
      (if streamFenced && hasProducer && 0 < n then .bound else .none, formatInt n, []) := by
  have hcmp : 0 < intCmp (formatInt n) [48] ↔ 0 < n := by
    rw [show ([48] : Bytes) = formatInt 0 from rfl, intCmp_formatInt, sign_pos]
  unfold evaluateOpen
  simp only [hcmp]
  split <;> rfl

theorem bound_getD (h : Shows st k.info) (pid : Bytes) :
    (k.info (.wfbind pid)).getD [48] = formatInt (st.bound pid) := by
  rw [h _ (by simp) (by simp), metaFields]
  split
  · rename_i hzero
    rw [hzero]
    rfl
  · rfl

theorem fits_evaluateFenced {f : AppendFence} {marker : Option WriteFenceMarker}
    {lastSeal : Option WriteFenceSeal} (hmarker : ∀ m, marker = some m → FitsInt64 m.generation)
    (hseal : ∀ sl, lastSeal = some sl → FitsInt64 sl.generation) (i : WriteFenceInput)
    (hf : i.fence = some f) (hm : i.marker = marker) (hl : i.lastSeal = lastSeal) :
    FitsInt64 (Chronicle.evaluateWriteFence i).generation := by
  unfold Chronicle.evaluateWriteFence
  rw [hf, hm, hl]
  cases marker with
  | some m => exact hmarker m rfl
  | none =>
    cases lastSeal with
    | some sl => exact hseal sl rfl
    | none => exact fits_zero

/-- The write fence decides the same on a metadata hash that holds the encoded fields. -/
theorem fenceRung_info (now : Time) (h : Shows st k.info)
    (hmark : MarkersMirror s path k wall)
    (hnamed : st.metadata.incarnation = [] → ∀ f m, (s.marker path (fenceAuthority f) wall).2 =
      some m → m.state = .live → m.streamIncarnation ≠ [])
    (fence : Option AppendFence) (hfence : ∀ f, fence = some f → 0 ≤ f.shard)
    (producerId : Bytes) (epoch : Option ℤ) :
    let out := (s.fenceRung path st fence producerId epoch now wall).2
    fenceRung k.info k (fence.map (claimArgs path)) now epoch.isSome producerId
        (formatInt (epoch.getD 0)) = some (out.reason, formatInt out.generation, out.holder) := by
  unfold fenceRung MemoryStore.fenceRung
  cases fence with
  | none =>
    rw [Option.map_none]
    cases hw : st.metadata.writeFence with
    | false =>
      simp only [h.wf, hw, Bool.false_eq_true, not_false_eq_true, if_true]
      rfl
    | true =>
      simp only [h.wf, hw, not_true, if_false, decide_true]
      cases epoch with
      | none => rfl
      | some epoch =>
        simp only [Option.isSome_some, if_true]
        rw [bound_getD h, evaluateOpen_formatInt]
        rfl
  | some f =>
    have hkey : (claimArgs path f).markerKey = appendFenceKey path f := rfl
    have hdecide : decide (k.info .wf = some one) = st.metadata.writeFence := by
      rw [Bool.eq_iff_iff, decide_eq_true_eq, h.wf]
    have heval := fun lastSeal => evaluateFenced_mirrors path now f lastSeal st.metadata.incarnation
      (hmark f) (fun hempty => hnamed hempty f) st.metadata.writeFence epoch.isSome (epoch.getD 0)
    rw [Option.map_some]
    dsimp only
    rw [hkey, fenceAuth_appendFenceKey path (hfence f rfl)]
    dsimp only
    rw [h.wfseal, h.incarnation, hdecide]
    cases hs : st.seals (fenceAuthority f) with
    | none => exact heval none
    | some sl =>
      rcases sealParts_encode sl with ⟨wake, off, hparts⟩
      rw [Option.map_some]
      dsimp only
      rw [hparts]
      exact heval (some sl)

/-- The write fence decides the same in both backends. -/
theorem fenceRung_mirrors (now : Time) (h : Mirrors st k) (hmark : MarkersMirror s path k wall)
    (fence : Option AppendFence) (hfence : ∀ f, fence = some f → 0 ≤ f.shard)
    (producerId : Bytes) (epoch : Option ℤ) :
    let out := (s.fenceRung path st fence producerId epoch now wall).2
    fenceRung k.info k (fence.map (claimArgs path)) now epoch.isSome producerId
        (formatInt (epoch.getD 0)) = some (out.reason, formatInt out.generation, out.holder) ∧
      FitsInt64 out.generation := by
  refine ⟨fenceRung_info now h.shows hmark (fun hempty => absurd hempty h.incarnation) fence hfence
    producerId epoch, ?_⟩
  unfold MemoryStore.fenceRung
  cases fence with
  | none =>
    split_ifs
    · exact h.bound _
    · exact fits_zero
    · exact fits_zero
  | some f =>
    refine fits_evaluateFenced ?_ (h.seals (fenceAuthority f)) _ rfl rfl rfl
    intro m hm
    have hrow := hmark f
    rw [show (s.marker path (fenceAuthority f) wall).2 = some m from hm] at hrow
    exact hrow.fits

end Fence

end Chronicle.Redis
