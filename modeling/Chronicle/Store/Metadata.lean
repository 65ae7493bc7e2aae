import Chronicle.Store.Offset

/-! # Stream metadata and requests

The records that the store backends share: errors, requests and their results,
and the metadata of one stream with its lazy expiry and its configuration
match. Times are nanoseconds since the Unix epoch.
-/

namespace Chronicle

abbrev Path := Bytes

abbrev Time := ℤ

inductive StoreError where
  | streamNotFound
  | streamExists
  | configMismatch
  | sequenceConflict
  | contentTypeMismatch
  | emptyBody
  | emptyJSONArray
  | invalidJSON
  | invalidOffset
  | streamClosed
  | appendFenced
  | staleEpoch
  | invalidEpochSeq
  | producerSeqGap
  | partialProducer
  | streamSoftDeleted
  | invalidForkOffset
  | invalidForkSubOffset
  | refCountUnderflow
  | readSnapshotChanged
  | readDataMissing
  | noProgress
  | tooMuchContention
  | malformedReply
  | scriptError
  | incarnationUnavailable
  deriving DecidableEq, Repr

structure ProducerState where
  epoch : ℤ
  lastSeq : ℤ
  lastUpdated : ℤ
  deriving DecidableEq, Repr

inductive ProducerResult where
  | none
  | accepted
  | duplicate
  deriving DecidableEq, Repr

/-- Why the write fence refused a mutation; `none` accepts it. -/
inductive FenceReason where
  | none
  | sealed
  | marker
  | producerRequired
  | epoch
  | bound
  deriving DecidableEq, Repr

structure AppendResult where
  offset : Offset := zeroOffset
  producerResult : ProducerResult := .none
  currentEpoch : ℤ := 0
  expectedSeq : ℤ := 0
  receivedSeq : ℤ := 0
  lastSeq : ℤ := 0
  streamClosed : Bool := false
  fenceReason : FenceReason := .none
  fenceGeneration : ℤ := 0
  fenceHolder : Bytes := []
  deriving DecidableEq, Repr

structure CloseResult where
  finalOffset : Offset := zeroOffset
  alreadyClosed : Bool := false
  fenceReason : FenceReason := .none
  fenceGeneration : ℤ := 0
  fenceHolder : Bytes := []
  deriving DecidableEq, Repr

structure CloseProducerResult where
  finalOffset : Offset := zeroOffset
  producerResult : ProducerResult := .none
  currentEpoch : ℤ := 0
  expectedSeq : ℤ := 0
  receivedSeq : ℤ := 0
  lastSeq : ℤ := 0
  streamClosed : Bool := false
  alreadyClosed : Bool := false
  fenceReason : FenceReason := .none
  fenceGeneration : ℤ := 0
  fenceHolder : Bytes := []
  deriving DecidableEq, Repr

structure AppendFence where
  subscriptionID : Bytes
  subscriptionIncarnation : Bytes
  shard : ℤ
  generation : ℤ
  wakeID : Bytes
  holder : Bytes
  leaseUntilNs : ℤ
  deriving DecidableEq, Repr

def AppendFence.complete (f : AppendFence) : Bool :=
  f.subscriptionID ≠ [] && f.subscriptionIncarnation ≠ [] && 0 ≤ f.shard &&
    0 < f.generation && f.wakeID ≠ [] && f.holder ≠ []

structure ClosedByProducer where
  producerId : Bytes
  epoch : ℤ
  seq : ℤ
  deriving DecidableEq, Repr

structure CreateOptions where
  contentType : Bytes := []
  ttlSeconds : Option ℤ := none
  expiresAt : Option Time := none
  initialData : Bytes := []
  closed : Bool := false
  writeFence : Bool := false
  forkedFrom : Path := []
  forkOffset : Option Offset := none
  forkSubOffset : Option ℕ := none
  deriving DecidableEq, Repr

structure AppendOptions where
  seq : Bytes := []
  contentType : Bytes := []
  close : Bool := false
  producerId : Bytes := []
  producerEpoch : Option ℤ := none
  producerSeq : Option ℤ := none
  fence : Option AppendFence := none
  tailHint : Option Offset := none
  deriving DecidableEq, Repr

namespace AppendOptions

def hasProducerHeaders (o : AppendOptions) : Bool :=
  o.producerId ≠ [] || o.producerEpoch.isSome || o.producerSeq.isSome

def hasAllProducerHeaders (o : AppendOptions) : Bool :=
  o.producerId ≠ [] && o.producerEpoch.isSome && o.producerSeq.isSome

def producer (o : AppendOptions) : Option ClosedByProducer :=
  match o.producerEpoch, o.producerSeq with
  | some epoch, some seq => if o.producerId ≠ [] then some ⟨o.producerId, epoch, seq⟩ else none
  | _, _ => none

theorem producer_isSome (o : AppendOptions) : o.producer.isSome = o.hasAllProducerHeaders := by
  unfold producer hasAllProducerHeaders
  cases o.producerEpoch <;> cases o.producerSeq <;> by_cases h : o.producerId = [] <;> simp [h]

end AppendOptions

structure CloseProducerOptions where
  producerId : Bytes
  producerEpoch : ℤ
  producerSeq : ℤ
  fence : Option AppendFence := none
  deriving DecidableEq, Repr

structure Message where
  data : Bytes
  offset : Offset
  deriving DecidableEq, Repr

structure StreamMetadata where
  path : Path
  incarnation : Bytes
  contentType : Bytes
  currentOffset : Offset
  lastSeq : Bytes := []
  ttlSeconds : Option ℤ := none
  expiresAt : Option Time := none
  createdAt : Time
  lastAccessedAt : Time
  producers : Bytes → Option ProducerState := fun _ => none
  closed : Bool := false
  closedBy : Option ClosedByProducer := none
  forkedFrom : Path := []
  forkOffset : Offset := zeroOffset
  forkOffsetRequested : Option Offset := none
  forkSubOffset : ℕ := 0
  refCount : Int32 := 0
  softDeleted : Bool := false
  writeFence : Bool := false
  sealedGeneration : ℤ := 0
  sealedOffset : Option Offset := none

def Time.unix (t : Time) : ℤ := t / 10 ^ 9

def Time.nanosecond (t : Time) : ℤ := t % 10 ^ 9

def maxInt64 : ℤ := 2 ^ 63 - 1

def extractMediaType (ct : Bytes) : Bytes := ct.takeWhile (· ≠ 59)

def equalFold (a b : Bytes) : Bool := Bytes.toLower a = Bytes.toLower b

def octetStream : Bytes := Bytes.ascii "application/octet-stream"

def orOctetStream (ct : Bytes) : Bytes := if ct = [] then octetStream else ct

def contentTypeMatches (a b : Bytes) : Bool :=
  equalFold (extractMediaType (orOctetStream a)) (extractMediaType (orOctetStream b))

def isJSONContentType (ct : Bytes) : Bool :=
  Bytes.toLower (extractMediaType ct) = Bytes.ascii "application/json"

namespace StreamMetadata

/-- Lazy expiry at an instant; the instant of expiry itself is not expired. -/
def isExpiredAt (m : StreamMetadata) (now : Time) : Bool :=
  m.expiresAt.any (fun t => t < now) ||
    m.ttlSeconds.any fun ttl =>
      let lastSeconds := m.lastAccessedAt.unix
      -- a large time-to-live never expires instead of wrapping around
      if 0 < ttl ∧ maxInt64 - ttl < lastSeconds then false
      else if now.unix ≠ lastSeconds + ttl then lastSeconds + ttl < now.unix
      else m.lastAccessedAt.nanosecond < now.nanosecond

def configMatches (m : StreamMetadata) (opts : CreateOptions) : Bool :=
  contentTypeMatches m.contentType opts.contentType &&
  m.ttlSeconds == opts.ttlSeconds &&
  m.expiresAt == opts.expiresAt &&
  m.closed == opts.closed &&
  m.writeFence == opts.writeFence &&
  m.forkedFrom == opts.forkedFrom &&
  (opts.forkedFrom == [] ||
    -- the requested fork offset is compared, not the resolved one
    opts.forkOffset.all (fun o => (m.forkOffsetRequested.getD m.forkOffset).equal o) &&
      m.forkSubOffset == opts.forkSubOffset.getD 0)

def isFork (m : StreamMetadata) : Bool := m.forkedFrom ≠ []

end StreamMetadata

section Expiry

/-- The test of a time-to-live in 64-bit arithmetic. -/
def ttlLapsed (ttl lastSeconds nowSeconds : Int64) (lastNanos nowNanos : ℤ) : Bool :=
  if 0 < ttl ∧ Int64.maxValue - ttl < lastSeconds then false
  else
    let expirySeconds := lastSeconds + ttl
    if nowSeconds ≠ expirySeconds then expirySeconds < nowSeconds else lastNanos < nowNanos

theorem window_eq {now : ℤ} (accessed ttl : ℤ) (hnow : Time.unix now ≤ maxInt64) :
    decide (accessed + ttl * 10 ^ 9 < now) =
      if 0 < ttl ∧ maxInt64 - ttl < Time.unix accessed then false
      else if Time.unix now ≠ Time.unix accessed + ttl then
        decide (Time.unix accessed + ttl < Time.unix now)
      else decide (Time.nanosecond accessed < Time.nanosecond now) := by
  unfold Time.unix Time.nanosecond maxInt64 at *
  split_ifs <;> simp only [decide_eq_decide, decide_eq_false_iff_not, not_lt] <;> omega

variable {m : StreamMetadata} {ttl : ℤ} {now : Time}

/-- A stream that expires by its time-to-live only, with values in the range of 64-bit seconds. -/
structure Sliding (m : StreamMetadata) (ttl : ℤ) : Prop where
  expiresAt : m.expiresAt = none
  ttlSeconds : m.ttlSeconds = some ttl
  nonneg : 0 ≤ ttl
  small : ttl ≤ maxInt64
  accessed : -(2 ^ 63) ≤ m.lastAccessedAt.unix ∧ m.lastAccessedAt.unix ≤ maxInt64

theorem Sliding.isExpiredAt_iff (h : Sliding m ttl) (hnow : now.unix ≤ maxInt64) :
    m.isExpiredAt now = true ↔ m.lastAccessedAt + ttl * 10 ^ 9 < now := by
  rw [← decide_eq_true_iff (p := m.lastAccessedAt + ttl * 10 ^ 9 < now),
    window_eq m.lastAccessedAt ttl hnow]
  simp [StreamMetadata.isExpiredAt, h.expiresAt, h.ttlSeconds]

/-- The seconds do not wrap around where the guard lets them be added. -/
theorem Sliding.ttlLapsed_eq (h : Sliding m ttl) (hlow : -(2 ^ 63) ≤ now.unix)
    (hnow : now.unix ≤ maxInt64) :
    ttlLapsed (.ofInt ttl) (.ofInt m.lastAccessedAt.unix) (.ofInt now.unix)
      m.lastAccessedAt.nanosecond now.nanosecond = m.isExpiredAt now := by
  rcases h with ⟨hexp, hsome, hnonneg, hsmall, hlast⟩
  have hfit (n : ℤ) (hle : -(2 ^ 63) ≤ n ∧ n ≤ maxInt64) : (Int64.ofInt n).toInt = n :=
    Int64.toInt_ofInt_of_le hle.1 (Int.lt_of_le_sub_one hle.2)
  have httl := hfit ttl ⟨by omega, hsmall⟩
  have hroom : (Int64.maxValue - Int64.ofInt ttl).toInt = maxInt64 - ttl := by
    rw [Int64.toInt_sub, httl, Int64.toInt_maxValue]
    unfold maxInt64 at *
    exact Int.bmod_eq_of_le (by omega) (by omega)
  have hguard : (0 < Int64.ofInt ttl ∧ Int64.maxValue - Int64.ofInt ttl <
      Int64.ofInt m.lastAccessedAt.unix) ↔
      (0 < ttl ∧ maxInt64 - ttl < m.lastAccessedAt.unix) := by
    rw [Int64.lt_iff_toInt_lt, Int64.lt_iff_toInt_lt, hroom, httl, hfit _ hlast]
    rfl
  simp only [ttlLapsed, hguard, StreamMetadata.isExpiredAt, hexp, hsome, Option.any_none,
    Bool.false_or, Option.any_some]
  by_cases hover : 0 < ttl ∧ maxInt64 - ttl < m.lastAccessedAt.unix
  · rw [if_pos hover, if_pos hover]
  · have hsum : (Int64.ofInt m.lastAccessedAt.unix + Int64.ofInt ttl).toInt =
        m.lastAccessedAt.unix + ttl := by
      rw [Int64.toInt_add, httl, hfit _ hlast]
      unfold maxInt64 at *
      exact Int.bmod_eq_of_le (by omega) (by omega)
    rw [if_neg hover, if_neg hover]
    simp only [ne_eq, ← Int64.toInt_inj, Int64.lt_iff_toInt_lt, hsum, hfit _ ⟨hlow, hnow⟩]

/-- Expiry by a time-to-live is exact: 64-bit seconds decide as the instants do, so a stream that is
expired is so later, with a shorter time-to-live and with an earlier access. -/
theorem ttl_expiry_exact (h : Sliding m ttl) (hlow : -(2 ^ 63) ≤ now.unix)
    (hnow : now.unix ≤ maxInt64) :
    ttlLapsed (.ofInt ttl) (.ofInt m.lastAccessedAt.unix) (.ofInt now.unix)
      m.lastAccessedAt.nanosecond now.nanosecond = m.isExpiredAt now ∧
    (m.isExpiredAt now = true ↔ m.lastAccessedAt + ttl * 10 ^ 9 < now) ∧
    (now = m.lastAccessedAt + ttl * 10 ^ 9 → m.isExpiredAt now = false) ∧
    ∀ m' ttl' now', Sliding m' ttl' → Time.unix now' ≤ maxInt64 → now ≤ now' → ttl' ≤ ttl →
      m'.lastAccessedAt ≤ m.lastAccessedAt → m.isExpiredAt now = true →
      m'.isExpiredAt now' = true := by
  have hiff := h.isExpiredAt_iff hnow
  refine ⟨h.ttlLapsed_eq hlow hnow, hiff, ?_, ?_⟩
  · rintro rfl
    rw [← Bool.not_eq_true, hiff]
    exact lt_irrefl _
  · intro m' ttl' now' h' hnow' hlater httl haccess hexpired
    rw [hiff] at hexpired
    rw [h'.isExpiredAt_iff hnow']
    unfold Time at *
    omega

def longLived : StreamMetadata where
  path := [97]
  incarnation := [105]
  contentType := octetStream
  currentOffset := zeroOffset
  createdAt := 0
  lastAccessedAt := 10 ^ 9
  ttlSeconds := some maxInt64

/-- The seconds of the longest time-to-live would wrap around. -/
theorem ttl_expiry_exact_longest :
    (Int64.ofInt 1 + Int64.ofInt maxInt64 < 0) ∧ longLived.isExpiredAt (2 * 10 ^ 9) = false := by
  have hsliding : Sliding longLived maxInt64 := ⟨rfl, rfl, by decide, le_rfl, by decide⟩
  have hexact := @ttl_expiry_exact _ _ (2 * 10 ^ 9) hsliding (by decide) (by decide)
  exact ⟨by decide, hexact.1.symm.trans (by decide)⟩

end Expiry

end Chronicle
