import Chronicle.Lib.Greedy
import Chronicle.Redis.Common
import Chronicle.Redis.Metadata
import Chronicle.Store.Page

/-! # Reads in Redis

The script that reads one bounded range of a sorted set, and the client that
walks the source chain of a fork and reads one segment of each stream on it.
-/

namespace Chronicle.Redis

section Ranges

/-- Whether a member is above a lower bound; a parenthesis excludes the bound. -/
def lexAbove (bound x : Bytes) : Bool :=
  match bound with
  | 40 :: b => Bytes.lexLt b x
  | 91 :: b => Bytes.lexLe b x
  | _ => false

def lexBelow (bound x : Bytes) : Bool :=
  match bound with
  | 40 :: b => Bytes.lexLt x b
  | 91 :: b => Bytes.lexLe x b
  | _ => false

def zrangebylex (l : List Bytes) (lo hi : Bytes) (limit : ℕ) : List Bytes :=
  (l.filter fun x => lexAbove lo x && lexBelow hi x).take limit

def lexLowerBound (offset : Offset) : Bytes := 40 :: offset.string ++ [255]

def lexUpperBoundInclusive (offset : Offset) : Bytes := 91 :: offset.string ++ [255]

def offsetParts (s : Bytes) : Option (Bytes × Bytes) :=
  let r := s.takeWhile Decimal.isDigit
  match s.dropWhile Decimal.isDigit with
  | 95 :: b => if r ≠ [] ∧ b ≠ [] ∧ b.all Decimal.isDigit then some (r, b) else none
  | _ => none

def offsetCmp (a b : Bytes) : Option ℤ :=
  match offsetParts a, offsetParts b with
  | some (ar, ab), some (br, bb) => some (if intCmp ar br ≠ 0 then intCmp ar br else intCmp ab bb)
  | _, _ => none

def scriptClassify (m : MetaHash) (requested pageTail : Bytes) (isNow : Bool) :
    Option RootReadRange :=
  if isNow then some .empty
  else
    match offsetCmp requested pageTail with
    | none => none
    | some c =>
      if 0 ≤ c then some .empty
      else if (m .forkedFrom).getD [] = [] then some .owned
      else (offsetCmp requested ((m .forkOff).getD zeroOffset.string)).map fun c =>
        if c < 0 then .inherited else .owned

section Numbers

variable [Arithmetic]

def addDigits : Bytes → ℕ → Option (Bytes × ℕ)
  | [], delta => some ([], delta)
  | c :: s, delta =>
    match addDigits s delta with
    | none => none
    | some (t, carry) =>
      if Decimal.isDigit c then
        let sum := Arithmetic.add (Decimal.digitValue c) carry
        some (Decimal.digit (Arithmetic.mod sum 10) :: t, Arithmetic.floorDiv sum 10)
      else none

def addOffsetBytes (offset : Bytes) (delta : ℕ) : Option Bytes :=
  if offset.length ≠ 33 ∨ offset[16]? ≠ some 95 then none
  else
    match addDigits (offset.drop 17) delta with
    | some (d, 0) => some (offset.take 17 ++ d)
    | _ => none

end Numbers

end Ranges

section Script

structure ReadArgs where
  now : ℤ
  lexMin : Bytes
  lexMax : Bytes
  targetBytes : ℕ
  maxFrames : ℕ
  expectedIncarnation : Bytes
  rootRead : Bool
  fetchFrames : Bool
  allowOversized : Bool
  requireCandidate : Bool
  touchRoot : Bool
  legacyIncarnation : Bytes
  requestedRootOffset : Bytes
  fixedRootTail : Bytes
  rootOffsetNow : Bool

inductive ReadReply where
  | notFound
  | softDel
  | snapshot
  | missing
  | ok (info : MetaHash) (members : List Bytes) (fetchedBytes returnedBytes : ℕ)
      (rootRange : Option RootReadRange)

structure RangeCursor where
  members : List Bytes := []
  fetchedBytes : ℕ := 0
  returnedBytes : ℕ := 0

section Range

variable [Arithmetic]

/-- Offer a member; the scan goes on while the result says so. -/
def RangeCursor.accept (targetBytes : ℕ) (allowOversized : Bool) (c : RangeCursor)
    (member : Bytes) : RangeCursor × Bool :=
  let payloadBytes := Arithmetic.sub (Arithmetic.round member.length) 34
  let fetched := Arithmetic.add c.fetchedBytes payloadBytes
  let total := Arithmetic.add c.returnedBytes payloadBytes
  if total ≤ targetBytes ∨ (c.members = [] ∧ allowOversized) then
    ({ members := c.members ++ [member], fetchedBytes := fetched, returnedBytes := total },
      total < targetBytes)
  else ({ c with fetchedBytes := fetched }, false)

/-- The members behind the first one whose end offsets fit the remaining budget. -/
def bulkCandidates (members : List Bytes) (first rangeMax : Bytes) (budget limit : ℕ) :
    List Bytes :=
  let firstOffset := first.take 33
  if Bytes.lexLt firstOffset (rangeMax.drop 1).dropLast then
    match addOffsetBytes firstOffset budget with
    | none => []
    | some byteMaxOffset =>
      let byteMax := 91 :: byteMaxOffset ++ [255]
      let byteMax := if Bytes.lexLt rangeMax byteMax then rangeMax else byteMax
      zrangebylex members (40 :: firstOffset ++ [255]) byteMax limit
  else []

/-- Fetch a range: the first candidate alone, and then as many as can fit. There is no result
when frames are missing. -/
def fetchRange (k : StreamKeys) (tail : Option Bytes) (a : ReadArgs) (rangeMax : Bytes)
    (requireCandidate : Bool) : Option RangeCursor :=
  let targetBytes := Arithmetic.round a.targetBytes
  let maxFrames := Arithmetic.round a.maxFrames
  match zrangebylex k.msg a.lexMin rangeMax 1 with
  | [] =>
    if requireCandidate ∨ (tail ≠ some zeroOffset.string ∧ k.msg = []) then none else some {}
  | first :: _ =>
    let (c, accepting) := RangeCursor.accept targetBytes a.allowOversized {} first
    if accepting ∧ c.members.length < maxFrames then
      some (Greedy.scan (RangeCursor.accept targetBytes a.allowOversized)
        (bulkCandidates k.msg first rangeMax (Arithmetic.sub targetBytes c.returnedBytes)
          (Arithmetic.sub maxFrames c.members.length)) c).1
    else some c

end Range

/-- Which range of the stream is fetched: its upper bound, whether it must have a member and
whether it is fetched at all. -/
def selectRange (a : ReadArgs) (m : MetaHash) :
    Option (Option RootReadRange × Bytes × Bool × Bool) :=
  if a.rootRead then
    let pageTail := if a.fixedRootTail = [] then (m .tail).getD [] else a.fixedRootTail
    (scriptClassify m a.requestedRootOffset pageTail a.rootOffsetNow).map fun range =>
      if range = .owned then (some range, 91 :: pageTail ++ [255], true, true)
      else (some range, a.lexMax, a.requireCandidate, false)
  else some (none, a.lexMax, a.requireCandidate, a.fetchFrames)

/-- The incarnation that a read is checked against. A root read gives an old stream one; other
reads fall back to the creation time. -/
def readIncarnation (a : ReadArgs) (m : MetaHash) (k : StreamKeys) :
    StreamKeys × MetaHash × Option Bytes :=
  if (m .incarnation).getD [] = [] then
    if a.rootRead then
      let k := if k.info .incarnation = none then k.hset .incarnation a.legacyIncarnation else k
      (k, Function.update m .incarnation (k.info .incarnation), k.info .incarnation)
    else (k, m, m .createdAtNs)
  else (k, m, m .incarnation)

def touchRead (a : ReadArgs) (m : MetaHash) (k : StreamKeys) : StreamKeys × MetaHash :=
  if a.rootRead && a.touchRoot && (m .ttl).isSome then
    (k.hset .accessedAtNs (Decimal.formatInt a.now),
      Function.update m .accessedAtNs (some (Decimal.formatInt a.now)))
  else (k, m)

def readPresent (a : ReadArgs) (m : MetaHash) (k : StreamKeys) : Option (StreamKeys × ReadReply) :=
  let (k, m, incarnation) := readIncarnation a m k
  if a.expectedIncarnation ≠ [] ∧ incarnation ≠ some a.expectedIncarnation then
    some (k, .snapshot)
  else
    let (k, m) := touchRead a m k
    (selectRange a m).map fun (rootRange, rangeMax, requireCandidate, fetchFrames) =>
      if fetchFrames ∧ 0 < a.maxFrames ∧ 0 < a.targetBytes then
        match fetchRange k (m .tail) a rangeMax requireCandidate with
        | none => (k, .missing)
        | some c => (k, .ok m c.members c.fetchedBytes c.returnedBytes rootRange)
      else (k, .ok m [] 0 0 rootRange)

def readScript (a : ReadArgs) (k : StreamKeys) : Option (StreamKeys × ReadReply) :=
  match metaMap k with
  | none => some (k, .notFound)
  | some m =>
    if a.rootRead then
      match isExpired m a.now with
      | none => none
      | some true => (expireCleanup m k).map fun k => (k, .notFound)
      | some false => if m .softDel = some one then some (k, .softDel) else readPresent a m k
    else readPresent a m k

end Script

section Client

abbrev Db := Path → StreamKeys

structure ReadSegment where
  path : Path
  lower : Offset
  upper : Offset
  incarnation : Bytes
  requireFrame : Bool
  deriving DecidableEq, Repr

structure PageScriptResult where
  info : StreamMetadata
  messages : List Message
  stats : ReadPageStats
  rootRange : Option RootReadRange

def decodeFrames (members : List Bytes) : Option (List Message) := members.mapM decodeFrame

/-- A count as the client reads it back: from fifteen digits on the script prints an exponent. -/
def parseScriptInt (n : ℕ) : Option ℕ := if n < 10 ^ 14 then some n else none

def mapReadReply (path : Path) (targetBytes : ℕ) : ReadReply → Except StoreError PageScriptResult
  | .notFound => .error .streamNotFound
  | .softDel => .error .streamSoftDeleted
  | .snapshot => .error .readSnapshotChanged
  | .missing => .error .readDataMissing
  | .ok info members fetched returned rootRange =>
    match metaFromFields path info with
    | .ok (some md) =>
      match decodeFrames members, parseScriptInt fetched, parseScriptInt returned with
      | some messages, some fetched, some returned =>
        .ok { info := md, messages := messages, rootRange := rootRange
              stats := { requestedBytes := targetBytes, fetchedBytes := fetched
                         returnedBytes := returned, discardedBytes := fetched - returned } }
      | _, _, _ => .error .malformedReply
    | _ => .error .malformedReply

def runReadPageScript (path : Path) (a : ReadArgs) (k : StreamKeys) :
    StreamKeys × Except StoreError PageScriptResult :=
  match readScript a k with
  | none => (k, .error .scriptError)
  | some (k, reply) => (k, mapReadReply path a.targetBytes reply)

def segmentArgs (now : Time) (seg : ReadSegment) (lower : Offset) (targetBytes maxFrames : ℕ)
    (allowOversized : Bool) : ReadArgs where
  now := now
  lexMin := lexLowerBound lower
  lexMax := lexUpperBoundInclusive seg.upper
  targetBytes := targetBytes
  maxFrames := maxFrames
  expectedIncarnation := seg.incarnation
  rootRead := false
  fetchFrames := true
  allowOversized := allowOversized
  requireCandidate := seg.requireFrame
  touchRoot := false
  legacyIncarnation := []
  requestedRootOffset := lower.string
  fixedRootTail := []
  rootOffsetNow := false

def fetchMeta (db : Db) (path : Path) : Except StoreError (Option StreamMetadata) :=
  metaFromFields path (db path).info

def ownSegment (path : Path) (md : StreamMetadata) (lower upper : Offset) (upperIsFrame : Bool) :
    List ReadSegment :=
  let ownLower :=
    if md.forkedFrom ≠ [] ∧ lower.lessThan md.forkOffset then md.forkOffset else lower
  if ownLower.lessThan upper then
    [{ path := path, lower := ownLower, upper := upper, incarnation := md.incarnation
       requireFrame := upperIsFrame }]
  else []

/-- The segments of an interval along the source chain, the oldest first. -/
def readSegments (db : Db) : ℕ → Path → StreamMetadata → Offset → Offset → Bool →
    Option (Except StoreError (List ReadSegment))
  | 0, _, _, _, _, _ => none
  | n + 1, path, md, lower, upper, upperIsFrame =>
    if !lower.lessThan upper then some (.ok [])
    else
      let own := ownSegment path md lower upper upperIsFrame
      if md.forkedFrom ≠ [] ∧ lower.lessThan md.forkOffset then
        let sourceUpper := if md.forkOffset.lessThan upper then md.forkOffset else upper
        -- a fork offset may lie within a frame of the source
        let sourceUpperIsFrame := upperIsFrame && upper.lessThan md.forkOffset
        match fetchMeta db md.forkedFrom with
        | .error e => some (.error e)
        | .ok none => some (.error .readDataMissing)
        | .ok (some source) =>
          (readSegments db n md.forkedFrom source lower sourceUpper sourceUpperIsFrame).map
            fun r => r.map (· ++ own)
      else some (.ok own)

/-- The rest of a segment; the first argument bounds the number of reads. -/
def readSegmentFrom (db : Db) (now : Time) (seg : ReadSegment) :
    ℕ → Offset → Option (Except StoreError (List Message))
  | 0, _ => none
  | n + 1, next =>
    if !next.lessThan seg.upper then some (.ok [])
    else
      let a := segmentArgs now seg next defaultReadPageBytes defaultReadPageFrames true
      match (runReadPageScript seg.path a (db seg.path)).2 with
      | .error e => some (.error e)
      | .ok r =>
        match r.messages.getLast? with
        | none => some (.ok [])
        | some last => (readSegmentFrom db now seg n last.offset).map fun rest =>
            rest.map (r.messages ++ ·)

def readAllSegments (db : Db) (now : Time) (n : ℕ) :
    List ReadSegment → Option (Except StoreError (List Message))
  | [] => some (.ok [])
  | seg :: segs =>
    match readSegmentFrom db now seg n seg.lower with
    | none => none
    | some (.error e) => some (.error e)
    | some (.ok messages) => (readAllSegments db now n segs).map fun rest => rest.map (messages ++ ·)

def readForkChain (db : Db) (now : Time) (n : ℕ) (path : Path) (md : StreamMetadata)
    (offset : Offset) : Option (Except StoreError (List Message)) :=
  match readSegments db n path md offset md.currentOffset true with
  | none => none
  | some (.error e) => some (.error e)
  | some (.ok segments) => readAllSegments db now n segments

end Client

end Chronicle.Redis
