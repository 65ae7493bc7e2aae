import Chronicle.Store.Metadata

/-! # Pages

A page is a bounded, frame-aligned part of the suffix that a read snapshot
captured.
-/

namespace Chronicle

def defaultReadPageBytes : ℕ := 2 ^ 20

def defaultReadPageFrames : ℕ := 1024

structure ReadSnapshot where
  tail : Offset
  contentType : Bytes
  closed : Bool
  incarnation : Bytes
  ttlSeconds : Option ℤ
  expiresAt : Option Time
  createdAt : Time
  forkedFrom : Path
  forkOffset : Offset
  forkOffsetRequested : Option Offset
  forkSubOffset : ℕ
  writeFence : Bool
  sealedGeneration : ℤ
  sealedOffset : Option Offset
  storeToken : Bytes := []
  deriving DecidableEq, Repr

def readSnapshotFromMetadata (m : StreamMetadata) : ReadSnapshot where
  tail := m.currentOffset
  contentType := m.contentType
  closed := m.closed
  incarnation := m.incarnation
  ttlSeconds := m.ttlSeconds
  expiresAt := m.expiresAt
  createdAt := m.createdAt
  forkedFrom := m.forkedFrom
  forkOffset := m.forkOffset
  forkOffsetRequested := m.forkOffsetRequested
  forkSubOffset := m.forkSubOffset
  writeFence := m.writeFence
  sealedGeneration := m.sealedGeneration
  sealedOffset := m.sealedOffset

def sameReadStream (left right : ReadSnapshot) : Bool :=
  left.incarnation ≠ [] && left.incarnation = right.incarnation &&
    contentTypeMatches left.contentType right.contentType

def shouldRenewReadAccess (m : StreamMetadata) : Bool := m.ttlSeconds.isSome

structure ReadPageOptions where
  targetBytes : ℕ := 0
  maxFrames : ℕ := 0
  snapshot : Option ReadSnapshot := none
  noTouch : Bool := false
  deriving DecidableEq, Repr

def ReadPageOptions.normalize (o : ReadPageOptions) : ReadPageOptions :=
  { o with
    targetBytes := if o.targetBytes = 0 then defaultReadPageBytes else o.targetBytes
    maxFrames := if o.maxFrames = 0 then defaultReadPageFrames else o.maxFrames }

structure ReadPageStats where
  requestedBytes : ℕ := 0
  fetchedBytes : ℕ := 0
  returnedBytes : ℕ := 0
  discardedBytes : ℕ := 0
  deriving DecidableEq, Repr

structure ReadPage where
  messages : List Message
  nextOffset : Offset
  snapshot : ReadSnapshot
  upToDate : Bool
  stats : ReadPageStats := {}
  deriving DecidableEq, Repr

inductive RootReadRange where
  | empty
  | inherited
  | owned
  deriving DecidableEq, Repr

/-- Where the read of a page begins: the position "now" is the captured tail. -/
def readStart (offset tail : Offset) : Offset := if offset.isNow then tail else offset

structure PageCursor where
  messages : List Message := []
  nextOffset : Offset
  stats : ReadPageStats

/-- The finished page; empty, stale and beyond-tail reads report the tail. -/
def PageCursor.finish (c : PageCursor) (snapshot : ReadSnapshot) : ReadPage :=
  let next := if c.messages = [] then snapshot.tail else c.nextOffset
  { messages := c.messages, nextOffset := next, snapshot := snapshot
    upToDate := next.equal snapshot.tail, stats := c.stats }

namespace ReadPageOptions

@[simp] theorem normalize_snapshot (o : ReadPageOptions) : o.normalize.snapshot = o.snapshot := rfl

theorem normalize_maxFrames_pos (o : ReadPageOptions) : 0 < o.normalize.maxFrames := by
  unfold normalize defaultReadPageFrames
  dsimp only
  split <;> omega

end ReadPageOptions

end Chronicle
