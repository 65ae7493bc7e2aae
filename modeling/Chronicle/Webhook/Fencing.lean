import Chronicle.Redis.FenceScripts
import Chronicle.Webhook.Fanout
import Chronicle.Webhook.System

/-! # Claims across slots

A subscription and its streams are in different slots, so ending a claim takes
several steps: read the subscription and its links, seal the claim on each
linked stream, and run the script that ends it. Heartbeats grant the claim again
on the streams that they find linked, and links come and go in between.
-/

namespace Chronicle.Webhook.Fencing

open Redis (StreamKeys AppendArgs claimArgs)

def appendFenceFor (id : Bytes) (cfg : Config) (f : Fence) : AppendFence :=
  { subscriptionID := id, subscriptionIncarnation := f.incarnation, shard := 0
    generation := f.generation, wakeID := f.wakeId, holder := f.claimHolder cfg.type
    leaseUntilNs := f.leaseUntilNs }

def claimHolds (cfg : Config) (f : Fence) : Bool := f.wakeId ≠ [] && f.inFlight cfg.type

def claimLive (cfg : Config) (f : Fence) (nowNs : ℤ) : Bool :=
  claimHolds cfg f && nowNs < f.leaseUntilNs

structure World where
  sub : Sub := {}
  streams : Path → StreamKeys := fun _ => {}

def World.setStream (w : World) (path : Path) (k : StreamKeys) : World :=
  { w with streams := Function.update w.streams path k }

structure Request where
  generation : ℤ
  wakeId : Bytes
  tokenGeneration : ℤ
  acks : List (Path × Bytes) := []
  deriving DecidableEq, Repr

inductive Ending where
  | done
  | release
  deriving DecidableEq, Repr

def Request.ackArgs (q : Request) (done : Bool) (nowNs leaseTtlMs : ℤ) : Sub.AckArgs :=
  { reqGen := q.generation, reqWake := q.wakeId, tokenGen := q.tokenGeneration, done := done
    nowNs := nowNs, leaseTtlMs := leaseTtlMs, acks := q.acks }

def Ending.run (d : Ending) (s : Sub) (q : Request) (nowNs leaseTtlMs : ℤ) : Sub × Sub.AckReply :=
  match d with
  | .done => s.ack (q.ackArgs true nowNs leaseTtlMs)
  | .release =>
    s.release { reqGen := q.generation, reqWake := q.wakeId, tokenGen := q.tokenGeneration }

inductive Use where
  /-- To seal the claim that a request names, and then to end it. -/
  | ending (d : Ending) (q : Request) (leaseTtlMs : ℤ)
  /-- To grant the claim, which a heartbeat expects to be the one that it names. -/
  | mint (claim : Option (ℤ × Bytes))
  | unlink (path : Path) (authorized : Bool)
  deriving DecidableEq, Repr

inductive Instr where
  | lookup (done : Bool) (q : Request)
  | get (u : Use)
  | getLinks (u : Use) (cfg : Config) (f : Fence)
  | sealing (f : AppendFence) (path : Path)
  /-- The script that ends a claim, after the claim was sealed on some streams. -/
  | finish (d : Ending) (q : Request) (leaseTtlMs : ℤ) (sealed : List Path)
  | heartbeat (q : Request) (leaseTtlMs : ℤ)
  | grant (f : AppendFence) (granted todo : List Path)
  | revoke (f : AppendFence) (path : Path)
  | script (c : Call)
  | append (path : Path) (a : AppendArgs)

structure Choice where
  nowNs : ℤ := 0
  paths : List Path := []

inductive Observation where
  | ended (d : Ending) (q : Request) (reply : Sub.AckReply)
  | appended (path : Path) (a : AppendArgs) (reply : Redis.Reply)
  | other

/-- What follows when there is no subscription. -/
def Use.absent : Use → List Instr
  | .ending d q leaseTtlMs => [.finish d q leaseTtlMs []]
  | .mint _ => []
  | .unlink path authorized =>
    if authorized then [] else [.script (.unlink { path := path, stillGlob := false })]

/-- Seal the claim that a request names if the subscription still shows it, and end it. -/
def sealIfCurrent (id : Bytes) (cfg : Config) (f : Fence) (paths : List Path) (d : Ending)
    (q : Request) (leaseTtlMs : ℤ) : List Instr :=
  let fence := appendFenceFor id cfg f
  if claimHolds cfg f && f.generation = q.generation && f.generation = q.tokenGeneration &&
      f.wakeId = q.wakeId && fence.complete then
    paths.map (.sealing fence) ++ [.finish d q leaseTtlMs paths]
  else [.finish d q leaseTtlMs []]

def grantFences (id : Bytes) (cfg : Config) (f : Fence) (paths : List Path) (nowNs : ℤ)
    (claim : Option (ℤ × Bytes)) : List Instr :=
  let fence := appendFenceFor id cfg f
  if claimLive cfg f nowNs && (claim.all fun (g, w) => f.generation = g && f.wakeId = w) &&
      fence.complete then
    [.grant fence [] paths]
  else []

def unlinkSealed (id : Bytes) (cfg : Config) (f : Fence) (paths : List Path) (path : Path)
    (authorized : Bool) : List Instr :=
  let fence := appendFenceFor id cfg f
  let stillGlob := cfg.pattern ≠ [] && globMatch cfg.pattern path
  let seals : List Instr :=
    if !stillGlob && claimHolds cfg f && path ∈ paths && fence.complete then [.sealing fence path]
    else []
  seals ++
    [.script (.unlink
      { path := path, stillGlob := stillGlob
        expected := if authorized then some ⟨cfg.owner, f.incarnation, cfg.cfgHash, paths⟩
          else none })]

/-- What follows when the subscription and its links were read. -/
def Use.found (id : Bytes) (cfg : Config) (f : Fence) (c : Choice) : Use → List Instr
  | .ending d q leaseTtlMs => sealIfCurrent id cfg f c.paths d q leaseTtlMs
  | .mint claim => grantFences id cfg f c.paths c.nowNs claim
  | .unlink path authorized => unlinkSealed id cfg f c.paths path authorized

def exec (id : Bytes) (w : World) (i : Instr) (c : Choice) :
    Option (World × List Instr × Observation) :=
  match i with
  | .lookup done q =>
    match w.sub.parent with
    | none => some (w, [], .other)
    | some (cfg, _) =>
      some (w, [if done then .get (.ending .done q cfg.leaseTtlMs)
        else .heartbeat q cfg.leaseTtlMs], .other)
  | .get u =>
    match w.sub.parent with
    | none => some (w, u.absent, .other)
    | some (cfg, f) => some (w, [.getLinks u cfg f], .other)
  | .getLinks u cfg f =>
    if listsKeys w.sub.links c.paths then some (w, u.found id cfg f c, .other) else none
  | .sealing f path =>
    (Redis.sealScript (claimArgs path f) (w.streams path)).map fun (k, _) =>
      (w.setStream path k, [], .other)
  | .finish d q leaseTtlMs _ =>
    let (s, r) := d.run w.sub q c.nowNs leaseTtlMs
    some ({ w with sub := s }, [], .ended d q r)
  | .heartbeat q leaseTtlMs =>
    let (s, r) := w.sub.ack (q.ackArgs false c.nowNs leaseTtlMs)
    some ({ w with sub := s },
      if r = .ok then [.get (.mint (some (q.generation, q.wakeId)))] else [], .other)
  | .grant _ _ [] => some (w, [], .other)
  | .grant f granted (path :: todo) =>
    if f.leaseUntilNs ≤ c.nowNs then some (w, granted.map (.revoke f), .other)
    else
      (Redis.grantScript (claimArgs path f) (Decimal.formatInt f.leaseUntilNs) c.nowNs
        (w.streams path)).map fun (k, r) =>
          (w.setStream path k,
            match r with
            | .ok _ => [.grant f (granted ++ [path]) todo]
            | .notFound => [.grant f granted todo]
            | .fenced => granted.map (.revoke f), .other)
  | .revoke f path =>
    some (w.setStream path (Redis.revokeScript (claimArgs path f) (w.streams path)).1, [], .other)
  | .script (.claim a) =>
    -- a webhook subscription is not claimed by workers
    if w.sub.parent.any fun (cfg, _) => cfg.type = .webhook then some (w, [], .other)
    else some ({ w with sub := (w.sub.exec (.claim a)).1 }, [], .other)
  | .script call => some ({ w with sub := (w.sub.exec call).1 }, [], .other)
  | .append path a =>
    (Redis.appendScript a (w.streams path)).map fun (k, r) =>
      (w.setStream path k, [], .appended path a r)

/-- The operations as they start; the subscription is not deleted. -/
def starts (p : List Instr) : Bool :=
  match p with
  | [.script (.delete _)] => false
  | [.lookup ..] | [.get _] | [.script _] | [.append ..] => true
  | _ => false

end Chronicle.Webhook.Fencing
