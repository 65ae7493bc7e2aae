import Chronicle.Lib.Trace
import Chronicle.Memory.Store

/-! # Operations on streams

Creation, deletion, appends, closes and reads, and the transition system in
which each call of the store is one step.
-/

namespace Chronicle

/-- The metadata of a stream and whether it is new. -/
abbrev CreateResult := Except StoreError (StreamMetadata × Bool)

namespace MemoryStore

section Create

def resolveForkExpiry (opts : CreateOptions) (source : StreamMetadata) :
    Option ℤ × Option Time :=
  match opts.ttlSeconds, opts.expiresAt with
  | some ttl, _ => (some ttl, none)
  | none, some t => (none, some t)
  | none, none =>
    match source.ttlSeconds with
    | some ttl => (some ttl, none)
    | none => (none, source.expiresAt)

def plainMetadata (path : Path) (incarnation : Bytes) (now : Time) (opts : CreateOptions) :
    StreamMetadata where
  path := path
  incarnation := incarnation
  contentType := orOctetStream opts.contentType
  currentOffset := zeroOffset
  ttlSeconds := opts.ttlSeconds
  expiresAt := opts.expiresAt
  createdAt := now
  lastAccessedAt := now
  closed := opts.closed
  writeFence := opts.writeFence

def forkMetadata (path : Path) (incarnation : Bytes) (now : Time) (opts : CreateOptions)
    (source : StreamMetadata) (forkOffset : Offset) : StreamMetadata where
  path := path
  incarnation := incarnation
  contentType := if opts.contentType = [] then source.contentType else opts.contentType
  currentOffset := forkOffset
  ttlSeconds := (resolveForkExpiry opts source).1
  expiresAt := (resolveForkExpiry opts source).2
  createdAt := now
  lastAccessedAt := now
  closed := opts.closed
  forkedFrom := opts.forkedFrom
  forkOffset := forkOffset
  forkOffsetRequested := opts.forkOffset
  forkSubOffset := opts.forkSubOffset.getD 0
  writeFence := opts.writeFence

/-- A new stream with the bytes of a binary sub-offset as its first message. -/
def materialize (md : StreamMetadata) (pfx : Bytes) : MemoryStream :=
  if pfx = [] then { metadata := md }
  else
    { metadata := { md with currentOffset := md.currentOffset.add pfx.length }
      messages := [⟨pfx, md.currentOffset.add pfx.length⟩] }

def withInitialData (st : MemoryStream) (data : Bytes) : Except StoreError MemoryStream :=
  if data = [] then .ok st
  else
    match st.appendToStream data true with
    | .error e => .error e
    | .ok (st, newOffset) =>
      .ok { st with metadata := { st.metadata with currentOffset := newOffset } }

def setRefCount (st : MemoryStream) (n : Int32) : MemoryStream :=
  { st with metadata := { st.metadata with refCount := n } }

def addRef (s : MemoryStore) (path : Path) (d : Int32) : MemoryStore :=
  match s.streams.lookup path with
  | none => s
  | some st => s.set path (setRefCount st (st.metadata.refCount + d))

def resolveFork (streams : Streams) (depth : ℕ) (source : MemoryStream) (forkOffset : Offset)
    (subOffset : Option ℕ) : Option (Except StoreError (Offset × Bytes)) :=
  match subOffset with
  | none => some (.ok (forkOffset, []))
  | some 0 => some (.ok (forkOffset, []))
  | some n => resolveForkSubOffset streams depth source forkOffset n

def createFork (s : MemoryStore) (env : Env) (path : Path) (opts : CreateOptions)
    (incarnation : Bytes) : Option (MemoryStore × CreateResult) :=
  match s.streams.lookup opts.forkedFrom with
  | none => some (s, .error .streamNotFound)
  | some source =>
    if source.metadata.softDeleted then some (s, .error .streamSoftDeleted)
    else if source.metadata.isExpiredAt (env.clock 1) then some (s, .error .streamNotFound)
    else if opts.contentType ≠ [] ∧
        ¬ env.equalFold opts.contentType source.metadata.contentType then
      some (s, .error .contentTypeMismatch)
    else
      let requested := opts.forkOffset.getD source.metadata.currentOffset
      if requested.lessThan zeroOffset || source.metadata.currentOffset.lessThan requested then
        some (s, .error .invalidForkOffset)
      else
        (resolveFork s.streams env.fuel source requested opts.forkSubOffset).map fun
          | .error e => (s, .error e)
          | .ok (forkOffset, pfx) =>
            let s := s.addRef opts.forkedFrom 1
            let md := forkMetadata path incarnation (env.clock 2) opts source.metadata forkOffset
            match withInitialData (materialize md pfx) opts.initialData with
            | .error e => (s.addRef opts.forkedFrom (-1), .error e)
            | .ok st => (s.set path st, .ok (st.metadata, true))

def createAbsent (s : MemoryStore) (env : Env) (path : Path) (opts : CreateOptions) :
    Option (MemoryStore × CreateResult) :=
  match env.incarnation with
  | none => some (s, .error .incarnationUnavailable)
  | some incarnation =>
    if opts.forkedFrom ≠ [] then s.createFork env path opts incarnation
    else
      let md := plainMetadata path incarnation (env.clock 2) opts
      match withInitialData { metadata := md } opts.initialData with
      | .error e => some (s, .error e)
      | .ok st => some (s.set path st, .ok (st.metadata, true))

def create (s : MemoryStore) (env : Env) (path : Path) (opts : CreateOptions) :
    Option (MemoryStore × CreateResult) :=
  match s.streams.lookup path with
  | none => s.createAbsent env path opts
  | some existing =>
    -- an expired stream is dropped, whatever refers to it
    if existing.metadata.isExpiredAt (env.clock 0) then (s.remove path).createAbsent env path opts
    else if existing.metadata.softDeleted then some (s, .error .streamExists)
    else if existing.metadata.configMatches opts then some (s, .ok (existing.metadata, false))
    else some (s, .error .configMismatch)

end Create

def get (s : MemoryStore) (env : Env) (path : Path) : Except StoreError StreamMetadata :=
  match s.streams.lookup path with
  | none => .error .streamNotFound
  | some st =>
    if st.metadata.softDeleted then .error .streamSoftDeleted
    else if st.metadata.isExpiredAt (env.clock 0) then .error .streamNotFound
    else .ok st.metadata

def has (s : MemoryStore) (env : Env) (path : Path) : Bool :=
  (s.streams.lookup path).any fun st =>
    !st.metadata.softDeleted && !st.metadata.isExpiredAt (env.clock 0)

section Delete

/-- Delete a stream and every soft-deleted ancestor that loses its last
reference. Each round removes one stream, so their number bounds the rounds. -/
def cascade : ℕ → Streams → Path → Streams × Option StoreError
  | 0, streams, _ => (streams, none)
  | n + 1, streams, path =>
    match streams.lookup path with
    | none => (streams, none)
    | some st =>
      let streams := streams.erase path
      let forkedFrom := st.metadata.forkedFrom
      if forkedFrom = [] then (streams, none)
      else
        match streams.lookup forkedFrom with
        | none => (streams, none)
        | some parent =>
          let refCount := parent.metadata.refCount - 1
          if refCount < 0 then
            (streams.insert forkedFrom (setRefCount parent 0), some .refCountUnderflow)
          else
            let streams := streams.insert forkedFrom (setRefCount parent refCount)
            if refCount = 0 ∧ parent.metadata.softDeleted then cascade n streams forkedFrom
            else (streams, none)

def deleteWithCascade (s : MemoryStore) (path : Path) : MemoryStore × Option StoreError :=
  let (streams, err) := cascade s.streams.keys.card s.streams path
  ({ s with streams := streams }, err)

def delete (s : MemoryStore) (path : Path) : MemoryStore × Option StoreError :=
  match s.streams.lookup path with
  | none => (s, some .streamNotFound)
  | some st =>
    if st.metadata.softDeleted then (s, some .streamSoftDeleted)
    else if 0 < st.metadata.refCount then
      (s.set path { st with metadata := { st.metadata with softDeleted := true } }, none)
    else s.deleteWithCascade path

end Delete

section Close

def closeStream (s : MemoryStore) (env : Env) (path : Path) (fence : Option AppendFence) :
    MemoryStore × Option CloseResult × Option StoreError :=
  match s.streams.lookup path with
  | none => (s, none, some .streamNotFound)
  | some st =>
    if st.metadata.isExpiredAt (env.clock 0) then (s, none, some .streamNotFound)
    else
      let (s, out) := s.fenceRung path st fence [] none (env.clock 1) (env.wall 0)
      if out.reason ≠ .none then
        (s, some { fenceReason := out.reason, fenceGeneration := out.generation,
                   fenceHolder := out.holder }, some .appendFenced)
      else
        let (st, result) := st.closeStream
        (s.set path st, some result, none)

def closeStreamFenced (s : MemoryStore) (env : Env) (path : Path) (fence : AppendFence) :
    MemoryStore × Option CloseResult × Option StoreError :=
  if ¬ fence.complete then (s, none, some .appendFenced)
  else s.closeStream env path (some fence)

def closeStreamWithProducer (s : MemoryStore) (env : Env) (path : Path)
    (opts : CloseProducerOptions) :
    MemoryStore × Option CloseProducerResult × Option StoreError :=
  if opts.fence.any fun f => !f.complete then (s, none, some .appendFenced)
  else
    match s.streams.lookup path with
    | none => (s, none, some .streamNotFound)
    | some st =>
      if st.metadata.isExpiredAt (env.clock 0) then (s, none, some .streamNotFound)
      else
        let (s, out) := s.fenceRung path st opts.fence opts.producerId (some opts.producerEpoch)
          (env.clock 1) (env.wall 0)
        if out.reason ≠ .none then
          (s, some { fenceReason := out.reason, fenceGeneration := out.generation,
                     fenceHolder := out.holder }, some .appendFenced)
        else
          let (st, result, err) := st.closeStreamWithProducer (env.clock 2) opts
          (s.set path st, some result, err)

end Close

def append (s : MemoryStore) (env : Env) (path : Path) (data : Bytes) (opts : AppendOptions) :
    MemoryStore × AppendResult × Option StoreError :=
  if opts.fence.any fun f => !f.complete then (s, {}, some .appendFenced)
  else if opts.hasProducerHeaders && !opts.hasAllProducerHeaders then
    (s, {}, some .partialProducer)
  else
    match s.streams.lookup path with
    | none => (s, {}, some .streamNotFound)
    | some st =>
      if st.metadata.softDeleted then (s, {}, some .streamSoftDeleted)
      else if st.metadata.isExpiredAt (env.clock 0) then (s, {}, some .streamNotFound)
      else
        let (s, out) := s.fenceRung path st opts.fence opts.producerId opts.producerEpoch
          (env.clock 1) (env.wall 0)
        if out.reason ≠ .none then
          (s, { fenceReason := out.reason, fenceGeneration := out.generation,
                fenceHolder := out.holder }, some .appendFenced)
        else
          let (st, reply) := st.append (env.clock 2) (env.clock 3) data opts
          (s.set path st, reply)

end MemoryStore

end Chronicle
