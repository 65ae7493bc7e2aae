import Chronicle.Lib.Binary64
import Chronicle.Redis.Keys

/-! # The prelude of the scripts

What the scripts share: the metadata table, lazy expiry, the producer state
machine and the write fence, on the strings that Redis stores. The expiry check
is in an arithmetic that is given, and other numbers are exact. A conversion that
fails is an error of the script, which has no result.
-/

namespace Chronicle.Redis

def tonumber (s : Bytes) : Option ℤ := Decimal.parseInt s

def metaMap (k : StreamKeys) : Option MetaHash :=
  if k.info .tail = none then none else some k.info

section Expiry

open Arithmetic (roundInt) in
/-- Whether a stream has expired, in the arithmetic of the script. -/
def isExpired [Arithmetic] (m : MetaHash) (now : ℤ) : Option Bool :=
  let lapsed : Option Bool :=
    match m .expAtNs with
    | none => some false
    | some expAt => (tonumber expAt).map fun t => roundInt t < roundInt now
  match lapsed with
  | none => none
  | some true => some true
  | some false =>
    match m .ttl with
    | none => some false
    | some ttl =>
      match (m .accessedAtNs).bind tonumber, tonumber ttl with
      | some accessed, some ttl =>
        some (roundInt (roundInt accessed + roundInt (roundInt ttl * 10 ^ 9)) < roundInt now)
      | _, _ => none

/-- The number of forks that a metadata table records. -/
def refCountOf (m : MetaHash) : Option ℤ := tonumber ((m .refCount).getD [48])

/-- What happens to a stream that is found expired: with forks it is soft-deleted,
otherwise its keys are deleted. -/
def expireCleanup (m : MetaHash) (k : StreamKeys) : Option StreamKeys :=
  (refCountOf m).map fun refs => if 0 < refs then k.hset .softDel one else k.del

end Expiry

/-- The media type of a stored content type, in lower case. -/
def normCt (ct : Option Bytes) : Bytes :=
  match ct with
  | none => octetStream
  | some ct => if ct = [] then octetStream else Bytes.toLower (ct.takeWhile (· ≠ 59))

section Replies

inductive Status where
  | ok
  | valOnly
  | retry
  | fenced
  | notFound
  | softDel
  | closed
  | ctMismatch
  | seqConflict
  | staleEpoch
  | epochSeq
  | seqGap
  deriving DecidableEq, Repr

/-- The reply of a mutation script, all numbers as strings. -/
structure Reply where
  status : Status
  tail : Bytes := []
  producerResult : Bytes := [48]
  currentEpoch : Bytes := [48]
  expectedSeq : Bytes := [48]
  receivedSeq : Bytes := [48]
  lastSeq : Bytes := [48]
  closed : Bytes := [48]
  alreadyClosed : Bytes := [48]
  /-- Reason, generation and holder of a refusal by the write fence. -/
  fence : Option (FenceReason × Bytes × Bytes) := none
  deriving DecidableEq, Repr

def fenceReply (reason : FenceReason) (tail gen holder : Bytes) : Reply :=
  { status := .fenced, tail := tail, fence := some (reason, gen, holder) }

end Replies

section Producers

def signedDigits (s : Bytes) : Option (Bytes × Bytes) :=
  let sgn := if s.take 1 = [45] then [45] else []
  let rest := s.drop sgn.length
  let d := rest.takeWhile Decimal.isDigit
  if d = [] then none else some (sgn ++ d, rest.dropWhile Decimal.isDigit)

def stateParts (s : Bytes) : Option (Bytes × Bytes) :=
  match signedDigits s with
  | some (epoch, 58 :: rest) =>
    match signedDigits rest with
    | some (seq, 58 :: _) => some (epoch, seq)
    | _ => none
  | _ => none

inductive ProducerOutcome where
  | accept
  | dup (lastSeq : Bytes)
  | staleEpoch (current : Bytes)
  | epochSeq
  | seqGap (expected received : Bytes)
  deriving DecidableEq, Repr

def validateProducer (state : Option Bytes) (epoch seq : Bytes) : Option ProducerOutcome :=
  match state with
  | none => some (if ¬ intIsZero seq then .seqGap [48] seq else .accept)
  | some state =>
    match stateParts state with
    | none => none
    | some (sEpoch, sSeq) =>
      if intCmp epoch sEpoch < 0 then some (.staleEpoch sEpoch)
      else if 0 < intCmp epoch sEpoch then
        some (if ¬ intIsZero seq then .epochSeq else .accept)
      else if intCmp seq sSeq ≤ 0 then some (.dup sSeq)
      else if seq = intAddOne sSeq then some .accept
      else some (.seqGap (intAddOne sSeq) seq)

def encodeProducerState (s : ProducerState) : Bytes :=
  Decimal.formatInt s.epoch ++ 58 :: Decimal.formatInt s.lastSeq ++
    58 :: Decimal.formatInt s.lastUpdated

end Producers

section Fence

def sealParts (v : Bytes) : Option (Bytes × Bytes × Bytes) :=
  match signedDigits v with
  | some (gen, 58 :: rest) =>
    match rest.dropWhile (· ≠ 58) with
    | 58 :: off => some (gen, rest.takeWhile (· ≠ 58), off)
    | _ => none
  | _ => none

/-- The claim of a fenced request as the scripts get it. -/
structure FenceArgs where
  markerKey : Bytes
  gen : Bytes
  wake : Bytes
  holder : Bytes
  deriving DecidableEq, Repr

def leaseLive (row : MarkerHash) (now : ℤ) : Option Bool :=
  match row .leaseUntilNs with
  | none => some false
  | some lease => (tonumber lease).map fun t => now < t

/-- The decision on a fenced request, with what a refusal discloses. -/
def evaluateFenced (streamFenced : Bool) (incarnation : Option Bytes) (f : FenceArgs)
    (row : MarkerHash) (sealGen : Option Bytes) (now : ℤ) (hasProducer : Bool) (pEpoch : Bytes) :
    Option (FenceReason × Bytes × Bytes) :=
  let sealed := streamFenced && sealGen.any fun g => intCmp f.gen g ≤ 0
  match row .state, row .generation with
  | some state, some gen =>
    (leaseLive row now).map fun live =>
      let holder := (row .holder).getD []
      let disclosed := if state = Bytes.ascii "live" && live then holder else []
      let reason : FenceReason :=
        if sealed then .sealed
        else if state ≠ Bytes.ascii "live" || intCmp gen f.gen ≠ 0 ||
            (row .wakeId).getD [] ≠ f.wake || holder ≠ f.holder || !live ||
            some ((row .streamIncarnation).getD []) ≠ incarnation then .marker
        else if streamFenced && !hasProducer then .producerRequired
        else if streamFenced && intCmp pEpoch f.gen ≠ 0 then .epoch
        else .none
      (reason, gen, disclosed)
  | _, _ => some (if sealed then .sealed else .marker, sealGen.getD [48], [])

def evaluateOpen (streamFenced hasProducer : Bool) (boundGen : Bytes) :
    FenceReason × Bytes × Bytes :=
  if streamFenced && hasProducer && 0 < intCmp boundGen [48] then (.bound, boundGen, [])
  else (.none, boundGen, [])

/-- Gather the inputs of the write fence from the metadata table and the marker. -/
def fenceRung (m : MetaHash) (k : StreamKeys) (fence : Option FenceArgs) (now : ℤ)
    (hasProducer : Bool) (producerId pEpoch : Bytes) : Option (FenceReason × Bytes × Bytes) :=
  let streamFenced := m .wf = some one
  match fence with
  | none =>
    if ¬ streamFenced then some (.none, [48], [])
    else
      let boundGen := if hasProducer then (m (.wfbind producerId)).getD [48] else [48]
      some (evaluateOpen streamFenced hasProducer boundGen)
  | some f =>
    match fenceAuth f.markerKey with
    | none => none
    | some authority =>
      match m (.wfseal authority) with
      | none => evaluateFenced streamFenced (m .incarnation) f (k.fences f.markerKey) none now
          hasProducer pEpoch
      | some v =>
        match sealParts v with
        | none => none
        | some (gen, _, _) => evaluateFenced streamFenced (m .incarnation) f
            (k.fences f.markerKey) (some gen) now hasProducer pEpoch

/-- The fields that an accepted fenced write records. -/
def fenceBind (m : MetaHash) (fence : Option FenceArgs) (producerId off : Bytes) :
    List (MetaField × Bytes) :=
  match fence with
  | some f => if m .wf = some one then [(.wfLastOff, off), (.wfbind producerId, f.gen)] else []
  | none => []

end Fence

end Chronicle.Redis
