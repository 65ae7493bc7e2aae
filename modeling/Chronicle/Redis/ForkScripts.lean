import Chronicle.Memory.Operations
import Chronicle.Redis.Append
import Chronicle.Redis.Read

/-! # The scripts of forks

A fork and its source are in different slots, so a fork is created in steps: the
metadata of the source is read, a reference is taken on the source, and the
stream is created. A reference is released by a step of its own as well.
-/

namespace Chronicle.Redis

open Decimal

section Scripts

inductive IncrReply where
  | ok (refs : ℤ)
  | notFound
  | softDel
  deriving DecidableEq, Repr

def incrRefScript [Arithmetic] (now : ℤ) (fork : Path) (k : StreamKeys) :
    Option (StreamKeys × IncrReply) :=
  match metaMap k with
  | none => some (k, .notFound)
  | some m =>
    if m .softDel = some one then some (k, .softDel)
    else
      match isExpired m now with
      | none => none
      | some true => (expireCleanup m k).map fun k => (k, .notFound)
      | some false =>
        (refCountOf m).map fun n =>
          ({ k.hset .refCount (formatInt (n + 1)) with forks := insert fork k.forks }, .ok (n + 1))

inductive DecrReply where
  | gone
  | underflow
  | cascade (parent : Path)
  | ok (refs : ℤ)
  deriving DecidableEq, Repr

def decrRefScript (fork : Path) (k : StreamKeys) : Option (StreamKeys × DecrReply) :=
  match metaMap k with
  | none => some (k, .gone)
  | some m =>
    (refCountOf m).map fun n =>
      let k := { k.hset .refCount (formatInt (n - 1)) with forks := k.forks.erase fork }
      if n - 1 < 0 then (k.hset .refCount [48], .underflow)
      else if n - 1 = 0 ∧ m .softDel = some one then (k.del, .cascade ((m .forkedFrom).getD []))
      else (k, .ok (n - 1))

inductive DeleteReply where
  | notFound
  | softDel
  | softDeleted
  | deleted (parent : Path)
  deriving DecidableEq, Repr

def deleteScript (k : StreamKeys) : Option (StreamKeys × DeleteReply) :=
  match metaMap k with
  | none => some (k, .notFound)
  | some m =>
    if m .softDel = some one then some (k, .softDel)
    else
      (refCountOf m).map fun n =>
        if 0 < n then (k.hset .softDel one, .softDeleted)
        else (k.del, .deleted ((m .forkedFrom).getD []))

/-- The arguments of the creation script: the configuration that an existing stream is compared
with, the fields to write, and the initial frames. -/
structure CreateArgs where
  nowNs : ℤ
  ct : Bytes
  ttl : Bytes
  expAtNs : Bytes
  closed : Bytes
  forkedFrom : Bytes
  forkOffRequested : Bytes
  forkSubOff : Bytes
  writeFence : Bytes
  fields : MetaHash
  frames : List Bytes

def flagArg (b : Bool) : Bytes := if b then one else [48]

def configMatches (a : CreateArgs) (m : MetaHash) : Bool :=
  normCt (m .ct) = a.ct && (m .ttl).getD [] = a.ttl && (m .expAtNs).getD [] = a.expAtNs &&
    flagArg (m .closed = some one) = a.closed && flagArg (m .wf = some one) = a.writeFence &&
    (m .forkedFrom).getD [] = a.forkedFrom &&
    (a.forkedFrom = [] ||
      -- the requested fork offset is compared, not the resolved one
      (a.forkOffRequested = [] ||
        (match m .forkOffReq with | some o => some o | none => m .forkOff) =
          some a.forkOffRequested) &&
        (m .forkSubOff).getD [48] = a.forkSubOff)

inductive CreateReply where
  | exists
  | mismatch
  | matched
  | created
  deriving DecidableEq, Repr

def freshKeys (a : CreateArgs) (k : StreamKeys) : StreamKeys :=
  { info := a.fields, msg := zaddAll a.frames [], fences := k.fences }

def createScript [Arithmetic] (a : CreateArgs) (k : StreamKeys) :
    Option (StreamKeys × CreateReply) :=
  match metaMap k with
  | none => some (freshKeys a k, .created)
  | some m =>
    match isExpired m a.nowNs with
    | none => none
    | some true =>
      (refCountOf m).map fun n =>
        if 0 < n then (k.hset .softDel one, .exists) else (freshKeys a k, .created)
    | some false =>
      if m .softDel = some one then some (k, .exists)
      else if configMatches a m then some (k, .matched)
      else some (k, .mismatch)

end Scripts

section Client

def createArgs (now : Time) (md : StreamMetadata) (opts : CreateOptions) (frames : List Bytes) :
    CreateArgs where
  nowNs := now
  ct := normalizeCT opts.contentType
  ttl := (opts.ttlSeconds.map formatInt).getD []
  expAtNs := (opts.expiresAt.map fun t => formatInt (unixNano t)).getD []
  closed := flagArg opts.closed
  forkedFrom := opts.forkedFrom
  forkOffRequested := (opts.forkOffset.map Offset.string).getD []
  forkSubOff := (opts.forkSubOffset.map formatNat).getD [48]
  writeFence := flagArg opts.writeFence
  fields := metaToFields md
  frames := frames

/-- The frames of a new stream: the bytes of a binary sub-offset and the initial data. -/
def initialFrames (md : StreamMetadata) (pfx data : Bytes) :
    Except StoreError (StreamMetadata × List Bytes) :=
  let tail := if pfx = [] then md.currentOffset else md.currentOffset.add pfx.length
  let frames := if pfx = [] then [] else [encodeFrame tail pfx]
  if data = [] then .ok ({ md with currentOffset := tail }, frames)
  else
    (buildFrames md.contentType tail data true).map fun (dataFrames, newTail) =>
      ({ md with currentOffset := newTail }, frames ++ dataFrames)

/-- The checks of a fork against the metadata of its source, and the offset that it asks for. -/
def checkSource (sameType : Bool) (now : Time) (opts : CreateOptions) (source : StreamMetadata) :
    Except StoreError Offset :=
  if source.softDeleted then .error .streamSoftDeleted
  else if source.isExpiredAt now then .error .streamNotFound
  else if opts.contentType ≠ [] ∧ ¬ sameType then .error .contentTypeMismatch
  else
    let forkOffset := opts.forkOffset.getD source.currentOffset
    if source.currentOffset.lessThan forkOffset then .error .invalidForkOffset else .ok forkOffset

/-- Resolve a sub-offset with the messages of the source behind the fork offset. -/
def subOffsetPoint (source : StreamMetadata) (forkOffset : Offset) (subOffset : ℕ)
    (messages : List Message) : Except StoreError (Offset × Bytes) :=
  if isJSONContentType source.contentType then
    match messages[subOffset - 1]? with
    | none => .error .invalidForkSubOffset
    | some m => .ok (m.offset, [])
  else
    match messages with
    | [] => .error .invalidForkSubOffset
    | first :: _ =>
      if first.data.length < subOffset then .error .invalidForkSubOffset
      else .ok (forkOffset, first.data.take subOffset)

/-- The initial data moves the tail only. -/
theorem initialFrames_meta {md md' : StreamMetadata} {pfx data : Bytes} {frames : List Bytes}
    (h : initialFrames md pfx data = .ok (md', frames)) :
    md'.forkedFrom = md.forkedFrom ∧ md'.forkOffset = md.forkOffset ∧
      md'.incarnation = md.incarnation ∧ md'.refCount = md.refCount := by
  unfold initialFrames at h
  dsimp only at h
  split at h
  · cases h
    exact ⟨rfl, rfl, rfl, rfl⟩
  · cases hb : buildFrames md.contentType
        (if pfx = [] then md.currentOffset else md.currentOffset.add pfx.length) data true with
    | error err =>
      rw [hb] at h
      cases h
    | ok built =>
      rw [hb] at h
      cases h
      exact ⟨rfl, rfl, rfl, rfl⟩

end Client

end Chronicle.Redis
