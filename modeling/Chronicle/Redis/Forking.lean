import Chronicle.Lib.Threads
import Chronicle.Redis.ForkScripts

/-! # Creations and deletions that interleave

An operation on a stream that is a fork, or that has forks, runs as several
scripts on two slots. Between them the scripts of other operations run, and Redis
removes the keys of streams whose lifetime is over.
-/

namespace Chronicle.Redis.Forking

structure Creation where
  path : Path
  opts : CreateOptions
  incarnation : Bytes
  createdAt : Time
  deriving DecidableEq, Repr

inductive Instr where
  /-- The read of the path before a creation. -/
  | precheck (c : Creation)
  | fetchSource (c : Creation)
  | incrRef (c : Creation) (md : StreamMetadata) (pfx : Bytes)
  | create (c : Creation) (md : StreamMetadata) (frames : List Bytes)
  | decrRef (parent child : Path)
  | delete (path : Path)
  | append (path : Path) (a : AppendArgs)
  /-- Redis removes the keys of a stream by itself. -/
  | lapse (path : Path)

/-- The clock, the comparison of content types, and what the reads of the source chain return for
a sub-offset. -/
structure Choice where
  nowNs : Time := 0
  sameType : Bool := true
  resolved : Except StoreError (Offset × Bytes) := .ok (zeroOffset, [])

def set (db : Db) (path : Path) (k : StreamKeys) : Db := Function.update db path k

def rollback (c : Creation) : List Instr :=
  if c.opts.forkedFrom = [] then [] else [.decrRef c.opts.forkedFrom c.path]

def createNext (c : Creation) (md : StreamMetadata) (pfx : Bytes) : List Instr :=
  match initialFrames md pfx c.opts.initialData with
  | .error _ => rollback c
  | .ok (md, frames) => [.create c md frames]

def releaseNext (parent child : Path) : List Instr :=
  if parent = [] then [] else [.decrRef parent child]

def incrNext (c : Creation) (md : StreamMetadata) (pfx : Bytes) : IncrReply → List Instr
  | .ok _ => createNext c md pfx
  | _ => []

def decrNext (parent : Path) : DecrReply → List Instr
  | .cascade grand => releaseNext grand parent
  | _ => []

def deleteNext (path : Path) : DeleteReply → List Instr
  | .deleted parent => releaseNext parent path
  | _ => []

def forkNext (c : Creation) (ch : Choice) (source : StreamMetadata) : List Instr :=
  match checkSource ch.sameType ch.nowNs c.opts source with
  | .error _ => []
  | .ok forkOffset =>
    let resolved : Except StoreError (Offset × Bytes) :=
      if c.opts.forkSubOffset.any (0 < ·) then
        ch.resolved.map fun (o, pfx) =>
          if isJSONContentType source.contentType then (o, []) else (forkOffset, pfx)
      else .ok (forkOffset, [])
    match resolved with
    | .error _ => []
    | .ok (forkOffset, pfx) =>
      let md := MemoryStore.forkMetadata c.path c.incarnation c.createdAt c.opts source forkOffset
      [.incrRef c md pfx]

/-- Whether the keys of a stream can have a lifetime: the scripts give one to a stream that can
expire, as long as it has no references and is not marked as deleted. -/
def lapses (k : StreamKeys) : Bool :=
  k.info .tail ≠ none && (refCountOf k.info).any (· ≤ 0) && k.info .softDel ≠ some one &&
    ((k.info .ttl).isSome || (k.info .expAtNs).isSome)

def exec (db : Db) (i : Instr) (ch : Choice) : Option (Db × List Instr × Instr) :=
  match i with
  | .precheck c =>
    match fetchMeta db c.path with
    | .error _ => some (db, [], i)
    | .ok existing =>
      if existing.any fun md => !md.isExpiredAt ch.nowNs then some (db, [], i)
      else if c.opts.forkedFrom ≠ [] then some (db, [.fetchSource c], i)
      else
        let md := MemoryStore.plainMetadata c.path c.incarnation c.createdAt c.opts
        some (db, createNext c md [], i)
  | .fetchSource c =>
    match fetchMeta db c.opts.forkedFrom with
    | .error _ => some (db, [], i)
    | .ok none => some (db, [], i)
    | .ok (some source) => some (db, forkNext c ch source, i)
  | .incrRef c md pfx =>
    (incrRefScript ch.nowNs c.path (db c.opts.forkedFrom)).map fun (k, r) =>
      (set db c.opts.forkedFrom k, incrNext c md pfx r, i)
  | .create c md frames =>
    (createScript (createArgs ch.nowNs md c.opts frames) (db c.path)).map fun (k, r) =>
      (set db c.path k, if r = .created then [] else rollback c, i)
  | .decrRef parent child =>
    (decrRefScript child (db parent)).map fun (k, r) =>
      (set db parent k, decrNext parent r, i)
  | .delete path =>
    (deleteScript (db path)).map fun (k, r) =>
      (set db path k, deleteNext path r, i)
  | .append path a =>
    (appendScript a (db path)).map fun (k, _) => (set db path k, [], i)
  | .lapse path => if lapses (db path) then some (set db path (db path).del, [], i) else none

def starts (p : List Instr) : Bool :=
  match p with
  | [.precheck _] | [.delete _] | [.append ..] | [.lapse _] => true
  | _ => false

section Runs

abbrev Conf := Threads.State Db Instr

/-- The operations interleave, and every step meets a condition. -/
abbrev Interleaving (P : Db → Instr → Choice → Bool) :=
  Threads.Step exec (fun p => starts p = true) fun db i ch => P db i ch = true

def played (P : Db → Instr → Choice → Bool) (turns : List (Threads.Turn Instr Choice))
    (h : (Trace.execAll (Threads.turn exec starts P) ⟨fun _ => {}, []⟩ turns).isSome) :
    List (Option Instr) × Conf :=
  Trace.executed (Threads.turn exec starts P) ⟨fun _ => {}, []⟩ turns h

theorem played_run {P : Db → Instr → Choice → Bool} {turns : List (Threads.Turn Instr Choice)}
    (h : (Trace.execAll (Threads.turn exec starts P) ⟨fun _ => {}, []⟩ turns).isSome) :
    Trace.Run (Interleaving P) ⟨fun _ => {}, []⟩ (played P turns h).1 (played P turns h).2 :=
  Trace.executed_run Threads.turn_step h

end Runs

end Chronicle.Redis.Forking
