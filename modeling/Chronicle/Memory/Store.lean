import Chronicle.Memory.Forks
import Chronicle.Store.Page

/-! # The memory store

The operations of the in-memory store as functions on its state. A call is run
in an environment that supplies what the call reads from outside: clock
readings by call site, a fresh incarnation, and the bound on recursion and
paging. An operation whose reads would exceed that bound has no result.
-/

namespace Chronicle

/-- What one call reads from outside the store. -/
structure Env where
  clock : ℕ → Time
  wall : ℕ → Time
  incarnation : Option Bytes
  equalFold : Bytes → Bytes → Bool
  /-- The bound on the depth of recursive reads and on the pages of a read. -/
  fuel : ℕ

structure MemoryMarker where
  marker : WriteFenceMarker
  expiresAt : Time

structure MemoryStore where
  streams : Streams
  markers : Path → Bytes → Option MemoryMarker

namespace MemoryStore

def empty : MemoryStore := ⟨∅, fun _ _ => none⟩

def set (s : MemoryStore) (path : Path) (st : MemoryStream) : MemoryStore :=
  { s with streams := s.streams.insert path st }

def remove (s : MemoryStore) (path : Path) : MemoryStore :=
  { s with streams := s.streams.erase path }

section Markers

def putMarker (s : MemoryStore) (path : Path) (authority : Bytes) (m : Option MemoryMarker) :
    MemoryStore :=
  { s with
    markers := Function.update s.markers path (Function.update (s.markers path) authority m) }

/-- One authority's marker, reaped once its retention has lapsed. -/
def marker (s : MemoryStore) (path : Path) (authority : Bytes) (wall : Time) :
    MemoryStore × Option WriteFenceMarker :=
  match s.markers path authority with
  | none => (s, none)
  | some m => if m.expiresAt < wall then (s.putMarker path authority none, none) else (s, m.marker)

def appendFenceRetention : ℤ := 120 * 10 ^ 9

/-- Revoke one authority's marker unless a newer claim holds it. -/
def tombstone (s : MemoryStore) (env : Env) (path : Path) (authority : Bytes) (f : AppendFence) :
    MemoryStore × Bool :=
  let (s, cur) := s.marker path authority (env.wall 0)
  if cur.any fun m => f.generation < m.generation ||
      (f.generation = m.generation && (m.wakeID ≠ f.wakeID || m.holder ≠ f.holder)) then
    (s, false)
  else
    let m : WriteFenceMarker :=
      { state := .revoked, generation := f.generation, wakeID := f.wakeID, holder := f.holder
        leaseUntilNs := 0, streamIncarnation := (cur.map (·.streamIncarnation)).getD [] }
    (s.putMarker path authority (some ⟨m, env.wall 1 + appendFenceRetention⟩), true)

def fenceRung (s : MemoryStore) (path : Path) (st : MemoryStream) (fence : Option AppendFence)
    (producerId : Bytes) (epoch : Option ℤ) (now wall : Time) : MemoryStore × WriteFenceOutcome :=
  let input : WriteFenceInput :=
    { streamFenced := st.metadata.writeFence, streamIncarnation := st.metadata.incarnation
      fence := fence, nowNs := now, hasProducer := epoch.isSome
      producerEpoch := epoch.getD 0 }
  match fence with
  | some f =>
    let authority := fenceAuthority f
    let (s, m) := s.marker path authority wall
    (s, evaluateWriteFence { input with marker := m, lastSeal := st.seals authority })
  | none =>
    if ¬ st.metadata.writeFence then (s, {})
    else if epoch.isSome then
      (s, evaluateWriteFence { input with boundGeneration := st.bound producerId })
    else (s, evaluateWriteFence input)

/-- Install or renew the marker of a live claim. -/
def grantAppendFence (s : MemoryStore) (env : Env) (path : Path) (f : AppendFence) :
    MemoryStore × Except StoreError Bool :=
  let nowNs := env.clock 0
  if ¬ f.complete ∨ f.leaseUntilNs ≤ nowNs then (s, .error .appendFenced)
  else
    match s.streams.lookup path with
    | none => (s, .ok false)
    | some st =>
      if st.metadata.incarnation = [] then (s, .ok false)
      else
        let authority := fenceAuthority f
        let lastSeal := st.seals authority
        if lastSeal.any fun sl => f.generation ≤ sl.generation then (s, .error .appendFenced)
        else
          let (s, cur) := s.marker path authority (env.wall 0)
          let install (s : MemoryStore) (lease : ℤ) : MemoryStore × Except StoreError Bool :=
            let m : WriteFenceMarker :=
              { state := .live, generation := f.generation, wakeID := f.wakeID, holder := f.holder
                leaseUntilNs := lease, streamIncarnation := st.metadata.incarnation }
            (s.putMarker path authority
              (some ⟨m, env.wall 1 + (lease - nowNs) + appendFenceRetention⟩), .ok true)
          match cur with
          | none => install s f.leaseUntilNs
          | some m =>
            if f.generation < m.generation then (s, .error .appendFenced)
            else if f.generation = m.generation then
              if m.state ≠ .live ∨ m.wakeID ≠ f.wakeID ∨ m.holder ≠ f.holder then
                (s, .error .appendFenced)
              else install s (max f.leaseUntilNs m.leaseUntilNs)
            else if st.metadata.writeFence && lastSeal.all (fun sl => sl.generation < m.generation) then
              -- the superseded claim is sealed at its last fenced offset
              install (s.set path (st.recordSeal authority m.generation m.wakeID).1) f.leaseUntilNs
            else install s f.leaseUntilNs

def revokeAppendFence (s : MemoryStore) (env : Env) (path : Path) (f : AppendFence) :
    MemoryStore × Option StoreError :=
  if ¬ f.complete then (s, some .appendFenced)
  else ((s.tombstone env path (fenceAuthority f) f).1, none)

/-- Revoke a claim marker and seal its generation on a write-fenced stream. -/
def sealAppendFence (s : MemoryStore) (env : Env) (path : Path) (f : AppendFence) :
    MemoryStore × Except StoreError SealResult :=
  if ¬ f.complete then (s, .error .appendFenced)
  else
    let authority := fenceAuthority f
    match s.tombstone env path authority f with
    | (s, false) => (s, .ok { outcome := .stale })
    | (s, true) =>
      match s.streams.lookup path with
      | none => (s, .ok { outcome := .notFound })
      | some st =>
        if ¬ st.metadata.writeFence then (s, .ok { outcome := .unfenced })
        else
          match (st.seals authority).filter fun sl => f.generation ≤ sl.generation with
          | some sl => (s, .ok ⟨.already, sl.generation, sl.offset⟩)
          | none =>
            let (st, sealed) := st.recordSeal authority f.generation f.wakeID
            (s.set path st, .ok ⟨.sealed, sealed.generation, sealed.offset⟩)

end Markers

end MemoryStore

end Chronicle
