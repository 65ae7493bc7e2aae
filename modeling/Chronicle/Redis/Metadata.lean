import Chronicle.Redis.Keys

/-! # The metadata hash

How stream metadata is written to the fields of its hash and read back. Fields
that are absent stand for defaults, and the tail marks that a stream exists.
-/

namespace Chronicle.Redis

open Decimal

section Encode

def flag (b : Bool) : Option Bytes := if b then some one else none

def nonEmpty (s : Bytes) : Option Bytes := if s = [] then none else some s

/-- The nanoseconds of an instant, which wrap around in 64 bits. -/
def unixNano (t : Time) : ℤ := Int.bmod t (2 ^ 64)

def metaToFields (md : StreamMetadata) : MetaHash
  | .ct => some md.contentType
  | .tail => some md.currentOffset.string
  | .createdAtNs => some (formatInt (unixNano md.createdAt))
  | .accessedAtNs => some (formatInt (unixNano md.lastAccessedAt))
  | .incarnation => nonEmpty md.incarnation
  | .lastSeq => nonEmpty md.lastSeq
  | .closed => flag md.closed
  | .wf => flag md.writeFence
  | .ttl => md.ttlSeconds.map formatInt
  | .expAtNs => md.expiresAt.map fun t => formatInt (unixNano t)
  | .forkedFrom => nonEmpty md.forkedFrom
  | .forkOff => if md.forkedFrom = [] then none else some md.forkOffset.string
  | .forkOffReq => if md.forkedFrom = [] then none else md.forkOffsetRequested.map Offset.string
  | .forkSubOff =>
    if md.forkedFrom = [] ∨ md.forkSubOffset = 0 then none else some (formatNat md.forkSubOffset)
  | .refCount => if md.refCount = 0 then none else some (formatInt md.refCount.toInt)
  | .softDel => flag md.softDeleted
  | .cbId => md.closedBy.map ClosedByProducer.producerId
  | .cbEpoch => md.closedBy.map fun c => formatInt c.epoch
  | .cbSeq => md.closedBy.map fun c => formatInt c.seq
  | _ => none

end Encode

section Decode

def parseInt32 (s : Bytes) : Option Int32 :=
  (parseFixed 32 s).map Int32.ofInt

def parseField {α : Type} (parse : Bytes → Option α) (v : Option Bytes) : Option (Option α) :=
  match v with
  | none => some none
  | some v => (parse v).map some

/-- Fork offset, requested fork offset and sub-offset; absent without a source. -/
def decodeFork (m : MetaHash) : Option (Offset × Option Offset × ℕ) :=
  if (m .forkedFrom).getD [] = [] then some (zeroOffset, none, 0)
  else do
    let forkOffset ← Offset.parseOffset ((m .forkOff).getD [])
    let requested ← parseField Offset.parseOffset (m .forkOffReq)
    let sub ← parseField Offset.parseUint64 (m .forkSubOff)
    some (forkOffset, requested, sub.getD 0)

/-- The producer that closed the stream; its epoch says whether there is one. -/
def decodeClosedBy (m : MetaHash) : Option (Option ClosedByProducer) :=
  match m .cbEpoch with
  | none => some none
  | some epoch => do
    let epoch ← parseInt64 epoch
    let seq ← parseInt64 ((m .cbSeq).getD [])
    some (some ⟨(m .cbId).getD [], epoch, seq⟩)

/-- The incarnation of a hash; old streams fall back to their creation time. -/
def decodeIncarnation (m : MetaHash) : Bytes :=
  if (m .incarnation).getD [] = [] then (m .createdAtNs).getD [] else (m .incarnation).getD []

def decodeMeta (path : Path) (m : MetaHash) (tail : Bytes) : Option StreamMetadata := do
  let currentOffset ← Offset.parseOffset tail
  let createdAt ← (m .createdAtNs).bind parseInt64
  let lastAccessedAt ← (m .accessedAtNs).bind parseInt64
  let ttlSeconds ← parseField parseInt64 (m .ttl)
  let expiresAt ← parseField parseInt64 (m .expAtNs)
  let fork ← decodeFork m
  let refCount ← parseField parseInt32 (m .refCount)
  let closedBy ← decodeClosedBy m
  let sealedGeneration ← parseField parseInt64 (m .wfSealGen)
  let sealedOffset ← parseField Offset.parseOffset (m .wfSealOff)
  some
    { path := path
      incarnation := decodeIncarnation m
      contentType := (m .ct).getD []
      currentOffset := currentOffset
      lastSeq := (m .lastSeq).getD []
      ttlSeconds := ttlSeconds
      expiresAt := expiresAt
      createdAt := createdAt
      lastAccessedAt := lastAccessedAt
      closed := m .closed = some one
      closedBy := closedBy
      forkedFrom := (m .forkedFrom).getD []
      forkOffset := fork.1
      forkOffsetRequested := fork.2.1
      forkSubOffset := fork.2.2
      refCount := refCount.getD 0
      softDeleted := m .softDel = some one
      writeFence := m .wf = some one
      sealedGeneration := sealedGeneration.getD 0
      sealedOffset := sealedOffset }

/-- Rebuild the metadata, without producers; nothing if there is no stream. -/
def metaFromFields (path : Path) (m : MetaHash) : Except StoreError (Option StreamMetadata) :=
  match m .tail with
  | none => .ok none
  | some tail =>
    match decodeMeta path m tail with
    | none => .error .malformedReply
    | some md => .ok (some md)

end Decode

section RoundTrip

def FitsInt64 (n : ℤ) : Prop := -(2 ^ 63) ≤ n ∧ n ≤ maxInt64

theorem unixNano_eq {t : Time} (h : FitsInt64 t) : unixNano t = t := by
  unfold FitsInt64 maxInt64 at h
  exact Int.bmod_eq_of_le (by omega) (by omega)

theorem flag_eq_one (b : Bool) : flag b = some one ↔ b = true := by
  cases b <;> simp [flag]

theorem nonEmpty_getD (s : Bytes) : (nonEmpty s).getD [] = s := by
  unfold nonEmpty
  split <;> simp_all

@[simp] theorem parseInt64_formatInt {n : ℤ} (h : FitsInt64 n) :
    parseInt64 (formatInt n) = some n := by
  unfold FitsInt64 maxInt64 at h
  exact parseFixed_of_parseInt (parseInt_formatInt n) h.1 (by omega)

/-- A field that is written from an optional value is read back. -/
theorem parseField_map {α : Type} {parse : Bytes → Option α} {format : α → Bytes} {v : Option α}
    (h : ∀ a, v = some a → parse (format a) = some a) :
    parseField parse (v.map format) = some v := by
  cases v with
  | none => rfl
  | some a => simp [parseField, h a rfl]

theorem parseInt32_of_parseInt {s : Bytes} {n : Int32} (h : Decimal.parseInt s = some n.toInt) :
    parseInt32 s = some n := by
  rw [parseInt32, parseFixed_of_parseInt h n.le_toInt n.toInt_lt, Option.map_some,
    Int32.ofInt_toInt]

/-- Metadata that survives the hash: numbers are in the range of their types, offsets in that of
the wire form, and what is written only with another field is absent without it. -/
structure MetadataFits (md : StreamMetadata) : Prop where
  currentOffset : md.currentOffset.Small
  createdAt : FitsInt64 md.createdAt
  lastAccessedAt : FitsInt64 md.lastAccessedAt
  ttlSeconds : ∀ t, md.ttlSeconds = some t → FitsInt64 t
  expiresAt : ∀ t, md.expiresAt = some t → FitsInt64 t
  forkOffset : md.forkOffset.Small
  forkOffsetRequested : ∀ o, md.forkOffsetRequested = some o → o.Small
  forkSubOffset : md.forkSubOffset < 2 ^ 64
  closedBy : ∀ c, md.closedBy = some c → FitsInt64 c.epoch ∧ FitsInt64 c.seq
  sealedOffset : ∀ o, md.sealedOffset = some o → o.Small ∧ FitsInt64 md.sealedGeneration
  unforked : md.forkedFrom = [] →
    md.forkOffset = zeroOffset ∧ md.forkOffsetRequested = none ∧ md.forkSubOffset = 0
  unsealed : md.sealedOffset = none → md.sealedGeneration = 0

end RoundTrip

end Chronicle.Redis
