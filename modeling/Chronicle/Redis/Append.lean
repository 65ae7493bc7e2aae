import Chronicle.Redis.Common
import Chronicle.Redis.Metadata

/-! # Append

The append script, and the client around it that frames a body against a tail,
runs the script and tries again when the tail has moved.
-/

namespace Chronicle.Redis

structure AppendArgs where
  nowNs : Bytes
  reqCT : Bytes
  streamSeq : Bytes
  closing : Bool
  hasProducer : Bool
  producerId : Bytes
  pEpoch : Bytes
  pSeq : Bytes
  expectedTail : Bytes
  newTail : Bytes
  valOnly : Bool
  fence : Option FenceArgs
  frames : List Bytes

section Script

/-- The producer rung: a reply ends the script, none lets it go on. -/
def admitProducer (m : MetaHash) (k : StreamKeys) (a : AppendArgs) : Option (Option Reply) :=
  if ¬ a.hasProducer then some none
  else
    let tail := (m .tail).getD []
    (validateProducer (k.prod a.producerId) a.pEpoch a.pSeq).map fun
      | .accept => none
      | .dup lastSeq =>
        some { status := .ok, tail := tail, producerResult := [50], lastSeq := lastSeq }
      | .staleEpoch current =>
        some { status := .staleEpoch, tail := tail, currentEpoch := current }
      | .epochSeq => some { status := .epochSeq, tail := tail }
      | .seqGap expected received =>
        some { status := .seqGap, tail := tail, expectedSeq := expected, receivedSeq := received }

def seqFields (a : AppendArgs) : List (MetaField × Bytes) :=
  if a.streamSeq ≠ [] then [(.lastSeq, a.streamSeq)] else []

def closeFields (a : AppendArgs) : List (MetaField × Bytes) :=
  if a.closing then
    (.closed, one) ::
      if a.hasProducer then [(.cbId, a.producerId), (.cbEpoch, a.pEpoch), (.cbSeq, a.pSeq)]
      else []
  else []

def commitState (a : AppendArgs) (now : ℤ) : Bytes :=
  a.pEpoch ++ 58 :: a.pSeq ++ 58 :: Decimal.formatInt (now / 10 ^ 9)

def commit (m : MetaHash) (a : AppendArgs) (now : ℤ) (k : StreamKeys) : StreamKeys :=
  let k :=
    if a.frames ≠ [] then { k with msg := zaddAll a.frames k.msg }.hset .tail a.newTail else k
  let k := k.hsetAll
    (seqFields a ++ closeFields a ++ fenceBind m a.fence a.producerId a.newTail)
  if a.hasProducer then
    { k with prod := Function.update k.prod a.producerId (some (commitState a now)) }
  else k

def appendOpen (m : MetaHash) (a : AppendArgs) (now : ℤ) (k : StreamKeys) :
    Option (StreamKeys × Reply) :=
  let tail := (m .tail).getD []
  if m .closed = some one then
    if a.hasProducer && (m .cbEpoch).isSome && m .cbId = some a.producerId &&
        m .cbEpoch = some a.pEpoch && m .cbSeq = some a.pSeq then
      some (k, { status := .ok, tail := tail, producerResult := [50], lastSeq := a.pSeq,
                 closed := one })
    else some (k, { status := .closed, tail := tail, closed := one })
  else if a.reqCT ≠ [] ∧ normCt (m .ct) ≠ a.reqCT then
    some (k, { status := .ctMismatch, tail := tail })
  else
    match admitProducer m k a with
    | none => none
    | some (some reply) => some (k, reply)
    | some none =>
      if a.streamSeq ≠ [] && (m .lastSeq).any (fun l => l ≠ [] && Bytes.lexLe a.streamSeq l) then
        some (k, { status := .seqConflict, tail := tail })
      else if a.valOnly then some (k, { status := .valOnly, tail := tail })
      else if m .tail ≠ some a.expectedTail then some (k, { status := .retry, tail := tail })
      else
        some (commit m a now k,
          { status := .ok, tail := a.newTail
            producerResult := if a.hasProducer then [49] else [48]
            lastSeq := if a.hasProducer then a.pSeq else [48]
            closed := if a.closing then one else [48] })

/-- The append script: existence, soft deletion, expiry, write fence, renewal of
the sliding window, and then the rest of the ladder. -/
def appendScript (a : AppendArgs) (k : StreamKeys) : Option (StreamKeys × Reply) :=
  match tonumber a.nowNs with
  | none => none
  | some now =>
    match metaMap k with
    | none => some (k, { status := .notFound })
    | some m =>
      if m .softDel = some one then some (k, { status := .softDel })
      else
        match isExpired m now with
        | none => none
        | some true => (expireCleanup m k).map fun k => (k, { status := .notFound })
        | some false =>
          match fenceRung m k a.fence now a.hasProducer a.producerId a.pEpoch with
          | none => none
          | some (reason, gen, holder) =>
            if reason ≠ .none then
              some (k, fenceReply reason ((m .tail).getD []) gen holder)
            else appendOpen m a now (k.hset .accessedAtNs (Decimal.formatInt now))

end Script

section Decode

structure ScriptReply where
  status : Status
  tail : Bytes
  producerRes : ℤ
  currentEpoch : ℤ
  expectedSeq : ℤ
  receivedSeq : ℤ
  lastSeq : ℤ
  closed : Bool
  alreadyClosed : Bool
  fenceReason : FenceReason := .none
  fenceGeneration : ℤ := 0
  fenceHolder : Bytes := []
  deriving DecidableEq, Repr

def decodeScriptReply (r : Reply) : Option ScriptReply := do
  let producerRes ← Decimal.parseInt64 r.producerResult
  let currentEpoch ← Decimal.parseInt64 r.currentEpoch
  let expectedSeq ← Decimal.parseInt64 r.expectedSeq
  let receivedSeq ← Decimal.parseInt64 r.receivedSeq
  let lastSeq ← Decimal.parseInt64 r.lastSeq
  let reply : ScriptReply :=
    { status := r.status, tail := r.tail, producerRes, currentEpoch, expectedSeq, receivedSeq
      lastSeq, closed := r.closed = one, alreadyClosed := r.alreadyClosed = one }
  match r.fence with
  | none => some reply
  | some (reason, gen, holder) =>
    (Decimal.parseInt64 gen).map fun generation =>
      { reply with fenceReason := reason, fenceGeneration := generation, fenceHolder := holder }

def producerResultOf : ℤ → ProducerResult
  | 1 => .accepted
  | 2 => .duplicate
  | _ => .none

def mapAppendReply (r : ScriptReply) : AppendResult × Option StoreError :=
  match Offset.parseOffset r.tail with
  | none => ({}, some .malformedReply)
  | some tail =>
    match r.status with
    | .ok | .valOnly =>
      ({ offset := tail, producerResult := producerResultOf r.producerRes, lastSeq := r.lastSeq
         streamClosed := r.closed }, none)
    | .notFound => ({}, some .streamNotFound)
    | .fenced =>
      ({ fenceReason := r.fenceReason, fenceGeneration := r.fenceGeneration
         fenceHolder := r.fenceHolder }, some .appendFenced)
    | .softDel => ({}, some .streamSoftDeleted)
    | .closed => ({ offset := tail, streamClosed := true }, some .streamClosed)
    | .ctMismatch => ({}, some .contentTypeMismatch)
    | .seqConflict => ({}, some .sequenceConflict)
    | .staleEpoch => ({ offset := tail, currentEpoch := r.currentEpoch }, some .staleEpoch)
    | .epochSeq => ({ offset := tail }, some .invalidEpochSeq)
    | .seqGap =>
      ({ offset := tail, expectedSeq := r.expectedSeq, receivedSeq := r.receivedSeq },
        some .producerSeqGap)
    | .retry => ({}, some .malformedReply)

end Decode

section Client

def normalizeCT (ct : Bytes) : Bytes := Bytes.toLower (extractMediaType (orOctetStream ct))

theorem normCt_some (ct : Bytes) : normCt (some ct) = normalizeCT ct := by
  unfold normCt normalizeCT orOctetStream
  by_cases h : ct = []
  · simp only [h, if_true]
    decide
  · simp only [h, if_false]
    rfl

/-- The media type that the script compares; empty when it is not to compare. -/
def requestCT (opts : AppendOptions) : Bytes :=
  if opts.contentType ≠ [] then normalizeCT opts.contentType else []

/-- Split a body and encode its frames behind a tail. -/
def buildFrames (ct : Bytes) (base : Offset) (data : Bytes) (allowEmpty : Bool) :
    Except StoreError (List Bytes × Offset) :=
  (splitBody ct data allowEmpty).map fun ds => ((layOut base ds).map frame, endOffset base ds)

def claimArgs (path : Path) (f : AppendFence) : FenceArgs where
  markerKey := appendFenceKey path f
  gen := Decimal.formatInt f.generation
  wake := f.wakeID
  holder := f.holder

def fenceArgs (path : Path) (fence : Option AppendFence) : Option FenceArgs :=
  fence.map (claimArgs path)

/-- The arguments of one attempt, framed against a tail, and the error of a body
that does not parse. Such a body is sent for validation only. -/
def attemptArgs (now : Time) (path : Path) (data : Bytes) (opts : AppendOptions) (base : Offset)
    (frameCT : Bytes) : AppendArgs × Option StoreError :=
  let framed : Except StoreError (List Bytes × Offset) :=
    if data = [] then .ok ([], base) else buildFrames frameCT base data false
  let args (frames : List Bytes) (newTail : Offset) (valOnly : Bool) : AppendArgs :=
    { nowNs := Decimal.formatInt now, reqCT := requestCT opts, streamSeq := opts.seq
      closing := opts.close
      hasProducer := opts.hasAllProducerHeaders
      producerId := if opts.hasAllProducerHeaders then opts.producerId else []
      pEpoch := if opts.hasAllProducerHeaders then Decimal.formatInt (opts.producerEpoch.getD 0)
        else [48]
      pSeq := if opts.hasAllProducerHeaders then Decimal.formatInt (opts.producerSeq.getD 0)
        else [48]
      expectedTail := base.string, newTail := newTail.string, valOnly := valOnly
      fence := fenceArgs path opts.fence, frames := frames }
  match framed with
  | .ok (frames, newTail) => (args frames newTail false, none)
  | .error e => (args [] base true, some e)

/-- How one attempt ends: with the tail to frame against next, or for good. -/
inductive Attempt where
  | retry (tail : Bytes)
  | done (result : AppendResult) (err : Option StoreError)

def mapAttempt (frameErr : Option StoreError) (reply : Reply) : Attempt :=
  match decodeScriptReply reply with
  | none => .done {} (some .malformedReply)
  | some r =>
    if r.status = .retry then .retry r.tail
    else
      let (result, err) := mapAppendReply r
      if err = none ∧ r.status = .valOnly then
        if r.producerRes = 2 then .done result none else .done {} frameErr
      else .done result err

def attempt (now : Time) (path : Path) (data : Bytes) (opts : AppendOptions) (base : Offset)
    (frameCT : Bytes) (k : StreamKeys) : StreamKeys × Attempt :=
  let (args, frameErr) := attemptArgs now path data opts base frameCT
  match appendScript args k with
  | none => (k, .done {} (some .scriptError))
  | some (k, reply) => (k, mapAttempt frameErr reply)

/-- The live tail and content type; an absent or unreadable tail ends the append. -/
def readTailAndContentType (k : StreamKeys) : Except StoreError (Offset × Bytes) :=
  let tail := (k.info .tail).getD []
  if tail = [] then .error .streamNotFound
  else
    match Offset.parseOffset tail with
    | none => .error .invalidOffset
    | some tail => .ok (tail, (k.info .ct).getD [])

def maxAppendRetries : ℕ := 128

/-- The number of attempts of a request; one without a content type costs two
round trips each time. -/
def attempts (opts : AppendOptions) : ℕ :=
  if requestCT opts ≠ [] then maxAppendRetries else maxAppendRetries / 2

def frameAgainst (opts : AppendOptions) (hint : Option Offset) (k : StreamKeys) :
    Except StoreError (Offset × Bytes) :=
  match hint with
  | some base => .ok (base, opts.contentType)
  | none =>
    (readTailAndContentType k).map fun (tail, ct) =>
      (tail, if requestCT opts = [] then ct else opts.contentType)

/-- The hint for the attempt after one that found the tail moved. -/
def nextHint (opts : AppendOptions) (tail : Bytes) : Except StoreError (Option Offset) :=
  if requestCT opts ≠ [] then
    match Offset.parseOffset tail with
    | none => .error .invalidOffset
    | some live => .ok (some live)
  else .ok none

/-- The attempts that are left, the next one framed against a hint if there is one. -/
def appendLoop (clock : ℕ → Time) (path : Path) (data : Bytes) (opts : AppendOptions) :
    ℕ → Option Offset → StreamKeys → StreamKeys × AppendResult × Option StoreError
  | 0, _, k => (k, {}, some .tooMuchContention)
  | n + 1, hint, k =>
    match frameAgainst opts hint k with
    | .error e => (k, {}, some e)
    | .ok (base, frameCT) =>
      match attempt (clock n) path data opts base frameCT k with
      | (k, .done result err) => (k, result, err)
      | (k, .retry tail) =>
        match nextHint opts tail with
        | .error e => (k, {}, some e)
        | .ok hint => appendLoop clock path data opts n hint k

def checkAppend (data : Bytes) (opts : AppendOptions) : Option StoreError :=
  if opts.fence.any fun f => !f.complete then some .appendFenced
  else if opts.hasProducerHeaders && !opts.hasAllProducerHeaders then some .partialProducer
  else if data = [] && !opts.close then some .emptyBody
  else none

def firstHint (opts : AppendOptions) : Option Offset :=
  if requestCT opts ≠ [] then opts.tailHint else none

/-- Add data to a stream. Clock readings are numbered by the attempts left. -/
def append (clock : ℕ → Time) (path : Path) (data : Bytes) (opts : AppendOptions)
    (k : StreamKeys) : StreamKeys × AppendResult × Option StoreError :=
  match checkAppend data opts with
  | some e => (k, {}, some e)
  | none => appendLoop clock path data opts (attempts opts) (firstHint opts) k

end Client

end Chronicle.Redis
