import Chronicle.Memory.Store

/-! # Paged reads

A page collects messages from the fork walk until a budget is spent. A read
concatenates pages for one snapshot.
-/

namespace Chronicle

def PageCursor.visit (targetBytes maxFrames : ℕ) (c : PageCursor) (m : Message) :
    PageCursor × Bool :=
  if maxFrames ≤ c.messages.length then (c, false)
  else
    let n := m.data.length
    let fetched := { c.stats with fetchedBytes := c.stats.fetchedBytes + n }
    if c.messages ≠ [] ∧ targetBytes < c.stats.returnedBytes + n then
      ({ c with stats := { fetched with discardedBytes := fetched.discardedBytes + n } }, false)
    else
      ({ messages := c.messages ++ [m]
         nextOffset := m.offset
         stats := { fetched with returnedBytes := fetched.returnedBytes + n } },
        c.stats.returnedBytes + n < targetBytes)

/-- The incarnation of a stream as readers see it; old streams fall back to their creation time. -/
def memoryReadIncarnation (m : StreamMetadata) : Bytes :=
  if m.incarnation ≠ [] then m.incarnation else Decimal.formatInt m.createdAt

def MemoryStream.snapshot (st : MemoryStream) : ReadSnapshot :=
  { readSnapshotFromMetadata st.metadata with incarnation := memoryReadIncarnation st.metadata }

namespace MemoryStore

def collectPage (streams : Streams) (depth : ℕ) (st : MemoryStream) (offset : Offset)
    (opts : ReadPageOptions) (snapshot : ReadSnapshot) : Option ReadPage :=
  let start := readStart offset snapshot.tail
  (walkForkedMessages (PageCursor.visit opts.targetBytes opts.maxFrames) streams depth st start
      snapshot.tail { nextOffset := start, stats := { requestedBytes := opts.targetBytes } }).map
    fun (c, _) => c.finish snapshot

def readPage (s : MemoryStore) (depth : ℕ) (checkedAt touchedAt : Time) (path : Path)
    (offset : Offset) (options : ReadPageOptions) :
    Option (MemoryStore × Except StoreError ReadPage) :=
  let opts := options.normalize
  match s.streams.lookup path with
  | none => some (s, .error .streamNotFound)
  | some st =>
    if st.metadata.isExpiredAt checkedAt then
      -- expiry with active forks is a soft delete
      if 0 < st.metadata.refCount then
        some (s.set path { st with metadata := { st.metadata with softDeleted := true } },
          .error .streamNotFound)
      else some (s, .error .streamNotFound)
    else if st.metadata.softDeleted then some (s, .error .streamSoftDeleted)
    else
      match opts.snapshot with
      | none =>
        let s :=
          if !opts.noTouch && shouldRenewReadAccess st.metadata then
            s.set path (st.touch touchedAt)
          else s
        (collectPage s.streams depth st offset opts st.snapshot).map fun page => (s, .ok page)
      | some snapshot =>
        if ¬ sameReadStream snapshot st.snapshot then some (s, .error .readSnapshotChanged)
        else (collectPage s.streams depth st offset opts snapshot).map fun page => (s, .ok page)

/-- The reads of the remaining pages. The first argument bounds their number,
and the clock sites are numbered on from the second. -/
def readPages (env : Env) (path : Path) (offset : Offset) :
    ℕ → ℕ → MemoryStore → Offset → Option ReadSnapshot → List Message →
      Option (MemoryStore × Except StoreError (List Message × Bool))
  | 0, _, _, _, _, _ => none
  | n + 1, site, s, next, snapshot, messages =>
    match s.readPage env.fuel (env.clock site) (env.clock (site + 1)) path next
        { snapshot := snapshot } with
    | none => none
    | some (s, .error e) =>
      some (s, .error (if e = .streamSoftDeleted then .streamNotFound else e))
    | some (s, .ok page) =>
      let captured := snapshot.getD page.snapshot
      let messages := messages ++ page.messages
      if page.upToDate then
        some (s, .ok (messages,
          messages ≠ [] || offset.equal captured.tail || captured.tail.equal zeroOffset))
      else if page.nextOffset.equal next then some (s, .error .noProgress)
      else readPages env path offset n (site + 2) s page.nextOffset (some captured) messages

def read (s : MemoryStore) (env : Env) (path : Path) (offset : Offset) :
    Option (MemoryStore × Except StoreError (List Message × Bool)) :=
  readPages env path offset env.fuel 0 s offset none []

end MemoryStore

end Chronicle
