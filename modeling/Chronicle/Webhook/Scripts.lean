import Chronicle.Webhook.Subscription

/-! # The subscription scripts

Each script runs as one step on the keys of a subscription. The scripts that
change a schedule may act for the owner of the slot and then check that the
owner was not deposed.
-/

namespace Chronicle.Webhook

structure Owned where
  slot : SlotOwner := {}
  owner : OwnerScope := {}
  deriving DecidableEq, Repr

def Owned.fenced (o : Owned) : Bool := ownerFenced o.slot o.owner

def leaseUntil (nowNs leaseTtlMs : ℤ) : ℤ := nowNs + leaseTtlMs * 1000000

namespace Fence

def idled (f : Fence) : Fence :=
  { f with phase := .idle, holder := false, holderWorker := [], wakeId := [], leaseUntilNs := 0 }

def cleared (f : Fence) : Fence :=
  { f with status := .active, retryCount := 0, firstFailNs := 0, nextAttemptNs := 0 }

/-- Whether a claim takes over the wake that is in flight. -/
def reusable (f : Fence) : Bool := f.phase = .waking && f.wakeId ≠ []

/-- The fence after a claim was granted: without a wake to take over it gets a new generation. -/
def claimed (f : Fence) (worker newWakeId incarnation : Bytes) (untilNs : ℤ) : Fence :=
  { f with
    generation := if f.reusable then f.generation else f.generation + 1
    wakeId := if f.reusable then f.wakeId else newWakeId
    phase := .live
    holder := true
    holderWorker := worker
    leaseUntilNs := untilNs
    incarnation := incarnation }

/-- Whether a claim is in flight, in the shape that its dispatch gives it. -/
def inFlight (f : Fence) (type : Dispatch) : Bool :=
  match type with
  | .webhook => f.phase ≠ .idle && !f.holder
  | .pullWake => f.phase = .live && f.holder

def claimHolder (f : Fence) (type : Dispatch) : Bytes :=
  match type with
  | .webhook => Bytes.ascii "wake:" ++ f.wakeId
  | .pullWake => f.holderWorker

end Fence

namespace Sub

section Create

structure CreateArgs where
  cfgHash : Bytes
  type : Dispatch
  pattern : Bytes
  leaseTtlMs : ℤ
  owner : Bytes
  links : List (Path × Link)
  deriving DecidableEq, Repr

inductive CreateReply where
  | created (owner : Bytes)
  | matched (owner : Bytes)
  | conflict (owner : Bytes)
  deriving DecidableEq, Repr

def CreateArgs.config (a : CreateArgs) : Config :=
  { cfgHash := a.cfgHash, type := a.type, pattern := a.pattern, leaseTtlMs := a.leaseTtlMs
    owner := a.owner }

def createSub (s : Sub) (a : CreateArgs) : Sub × CreateReply :=
  match s.parent with
  | some (cfg, _) =>
    (s, if cfg.cfgHash = a.cfgHash then .matched cfg.owner else .conflict cfg.owner)
  | none =>
    let n := s.incarnations + 1
    ({ s with
        parent := some (a.config, { incarnation := Decimal.formatNat n })
        incarnations := n
        listed := true
        -- links that are there already stay
        links := a.links.foldl (fun l (path, link) => l.insert path link) s.links },
      .created a.owner)

end Create

section Wake

structure ArmArgs where
  shard : ℕ := 0
  nowNs : ℤ
  leaseTtlMs : ℤ
  armLease : Bool
  newWakeId : Bytes
  scope : Owned := {}
  deriving DecidableEq, Repr

inductive ArmReply where
  | armed (generation : ℤ) (wakeId : Bytes)
  | busy (generation : ℤ) (wakeId : Bytes)
  | fenced
  | noSub
  deriving DecidableEq, Repr

def armWake (s : Sub) (a : ArmArgs) : Sub × ArmReply :=
  if a.scope.fenced then (s, .fenced)
  else
    match s.fence a.shard with
    | none => (s, .noSub)
    | some f =>
      if f.phase ≠ .idle then (s, .busy f.generation f.wakeId)
      else
        let f := { f with generation := f.generation + 1, wakeId := a.newWakeId, phase := .waking,
                          holder := false, holderWorker := [] }
        let due := s.due.zadd a.shard a.nowNs
        if a.armLease then
          let untilNs := leaseUntil a.nowNs a.leaseTtlMs
          ({ s.setFence a.shard { f with leaseUntilNs := untilNs } with
              due := due, lease := s.lease.zadd a.shard untilNs }, .armed f.generation f.wakeId)
        else
          ({ s.setFence a.shard { f with wakeEventSentNs := 0 } with due := due },
            .armed f.generation f.wakeId)

structure WakeSentArgs where
  shard : ℕ := 0
  nowNs : ℤ
  generation : ℤ
  wakeId : Bytes
  deriving DecidableEq, Repr

inductive RecordReply where
  | ok
  | stale
  | fenced
  | noSub
  deriving DecidableEq, Repr

def recordWakeSent (s : Sub) (a : WakeSentArgs) : Sub × RecordReply :=
  match s.fence a.shard with
  | none => (s, .noSub)
  | some f =>
    if f.generation ≠ a.generation ∨ f.wakeId ≠ a.wakeId then (s, .stale)
    else (s.setFence a.shard { f with wakeEventSentNs := a.nowNs }, .ok)

end Wake

section Claim

structure ClaimArgs where
  shard : ℕ := 0
  worker : Bytes
  nowNs : ℤ
  leaseTtlMs : ℤ
  newWakeId : Bytes
  expected : Expectation
  deriving DecidableEq, Repr

inductive ClaimReply where
  | claimed (generation : ℤ) (wakeId worker : Bytes)
  | busy (generation : ℤ) (worker : Bytes)
  | forbidden
  | noSub
  deriving DecidableEq, Repr

def dropStaleShard (s : Sub) (g : ℕ) (incarnation : Bytes) : Sub :=
  if g ≠ 0 ∧ incarnation ≠ [] ∧ (s.fence g).map (·.incarnation) ≠ some incarnation then
    { s with shards := Function.update s.shards g none }
  else s

def stampIncarnation (s : Sub) (f : Fence) : Sub × Bytes :=
  if f.incarnation = [] then
    let n := s.incarnations + 1
    let incarnation := Decimal.formatNat n
    ({ s.setFence 0 { f with incarnation := incarnation } with incarnations := n }, incarnation)
  else (s, f.incarnation)

def claim (s : Sub) (a : ClaimArgs) : Sub × ClaimReply :=
  match s.parent with
  | none => (s, .noSub)
  | some (cfg, pf) =>
    if ¬ s.meets cfg pf a.expected then (s, .forbidden)
    else
      let s := s.dropStaleShard a.shard a.expected.incarnation
      let f := (s.fence a.shard).getD {}
      if f.phase = .live ∧ f.holder ∧ a.nowNs < f.leaseUntilNs then
        (s, .busy f.generation f.holderWorker)
      else
        let (s, incarnation) := s.stampIncarnation pf
        let f := f.claimed a.worker a.newWakeId incarnation (leaseUntil a.nowNs a.leaseTtlMs)
        ({ s.setFence a.shard f with
            lease := s.lease.zadd a.shard f.leaseUntilNs
            registry := if a.shard ≠ 0 then insert a.shard s.registry else s.registry },
          .claimed f.generation f.wakeId a.worker)

end Claim

section Ack

structure AckArgs where
  shard : ℕ := 0
  reqGen : ℤ
  reqWake : Bytes
  tokenGen : ℤ
  done : Bool
  nowNs : ℤ
  leaseTtlMs : ℤ
  acks : List (Path × Bytes) := []
  scope : Owned := {}
  deriving DecidableEq, Repr

inductive AckReply where
  | ok
  | fenced
  | noSub
  deriving DecidableEq, Repr

def sameIncarnation (g : ℕ) (pf f : Fence) : Bool :=
  if g ≠ 0 then pf.incarnation ≠ [] && f.incarnation = pf.incarnation
  else pf.incarnation = [] || f.incarnation = pf.incarnation

def ackLink (l : Links) (ack : Path × Bytes) : Links :=
  match l.lookup ack.1 with
  | none => l
  | some link =>
    if offsetGreater ack.2 link.offset then l.insert ack.1 { link with offset := ack.2 } else l

def ack (s : Sub) (a : AckArgs) : Sub × AckReply :=
  if a.scope.fenced then (s, .fenced)
  else
    match s.fence a.shard, s.parent with
    | none, _ => (s, .noSub)
    | _, none => (s, .noSub)
    | some f, some (cfg, pf) =>
      if ¬ sameIncarnation a.shard pf f then (s, .fenced)
      else if Webhook.fenced f a.reqGen a.reqWake a.tokenGen then (s, .fenced)
      else if ¬ a.done ∧ (f.leaseUntilNs ≤ a.nowNs ∨ ¬ f.inFlight cfg.type) then (s, .fenced)
      else
        let links := a.acks.foldl ackLink s.links
        if a.done then
          ({ s.setFence a.shard f.idled.cleared with
              links := links
              lease := s.lease.zrem a.shard
              retry := s.retry.zrem a.shard
              due := s.due.zrem a.shard }, .ok)
        else
          let untilNs := leaseUntil a.nowNs a.leaseTtlMs
          ({ s.setFence a.shard { f with leaseUntilNs := untilNs, phase := .live } with
              links := links
              lease := s.lease.zadd a.shard untilNs }, .ok)

structure ReleaseArgs where
  shard : ℕ := 0
  reqGen : ℤ
  reqWake : Bytes
  tokenGen : ℤ
  scope : Owned := {}
  deriving DecidableEq, Repr

def release (s : Sub) (a : ReleaseArgs) : Sub × AckReply :=
  if a.scope.fenced then (s, .fenced)
  else
    match s.fence a.shard with
    | none => (s, .noSub)
    | some f =>
      if Webhook.fenced f a.reqGen a.reqWake a.tokenGen then (s, .fenced)
      else
        ({ s.setFence a.shard f.idled with
            lease := s.lease.zrem a.shard
            retry := s.retry.zrem a.shard
            due := s.due.zrem a.shard }, .ok)

structure CheckArgs where
  shard : ℕ := 0
  nowNs : ℤ
  generation : ℤ
  wakeId : Bytes
  holder : Bytes
  incarnation : Bytes
  deriving DecidableEq, Repr

inductive CheckReply where
  | ok (leaseUntilNs leaseTtlMs : ℤ)
  | fenced
  | noSub
  deriving DecidableEq, Repr

/-- Whether a write token names the claim that is live; nothing changes. -/
def checkWriteFence (s : Sub) (a : CheckArgs) : CheckReply :=
  match s.fence a.shard, s.parent with
  | none, _ => .noSub
  | _, none => .noSub
  | some f, some (cfg, pf) =>
    if ¬ sameIncarnation a.shard pf f then .fenced
    else if ¬ f.inFlight cfg.type ∨ f.leaseUntilNs ≤ a.nowNs then .fenced
    else if f.wakeId = [] then .fenced
    else if (a.incarnation ≠ [] ∧ a.incarnation ≠ pf.incarnation) ∨ f.generation ≠ a.generation ∨
        f.wakeId ≠ a.wakeId ∨ a.holder = [] ∨ a.holder ≠ f.claimHolder cfg.type then .fenced
    else .ok f.leaseUntilNs cfg.leaseTtlMs

end Ack

section Leases

structure ExpireArgs where
  shard : ℕ := 0
  nowNs : ℤ
  scope : Owned := {}
  deriving DecidableEq, Repr

inductive ExpireReply where
  | expired
  | active
  | fenced
  | noSub
  deriving DecidableEq, Repr

def expireLease (s : Sub) (a : ExpireArgs) : Sub × ExpireReply :=
  if a.scope.fenced then (s, .fenced)
  else
    match s.fence a.shard with
    | none => (s, .noSub)
    | some f =>
      if f.phase ≠ .idle ∧ 0 < f.leaseUntilNs ∧ f.leaseUntilNs ≤ a.nowNs then
        ({ s.setFence a.shard f.idled with
            lease := s.lease.zrem a.shard
            due := s.due.zadd a.shard a.nowNs }, .expired)
      else (s, .active)

structure RestoreArgs where
  shard : ℕ := 0
  nowNs : ℤ
  owed : Bool
  deriving DecidableEq, Repr

inductive RestoreReply where
  | restored
  | intact
  | noSub
  deriving DecidableEq, Repr

/-- Derive the schedule members of a claim from its fence. -/
def restoreLease (s : Sub) (a : RestoreArgs) : Sub × RestoreReply :=
  match s.fence a.shard with
  | none => (s, .noSub)
  | some f =>
    if f.phase ≠ .idle ∧ 0 < f.leaseUntilNs then
      ({ s with
          lease := s.lease.zadd a.shard f.leaseUntilNs
          due := if a.owed then s.due.zadd a.shard a.nowNs else s.due }, .restored)
    else (s, .intact)

end Leases

section Retries

structure RetryArgs where
  shard : ℕ := 0
  nowNs : ℤ
  nextAttemptNs : ℤ
  generation : ℤ
  wakeId : Bytes
  scope : Owned := {}
  deriving DecidableEq, Repr

inductive RetryReply where
  | ok (retryCount firstFailNs : ℤ)
  | stale
  | fenced
  | noSub
  deriving DecidableEq, Repr

def scheduleRetry (s : Sub) (a : RetryArgs) : Sub × RetryReply :=
  if a.scope.fenced then (s, .fenced)
  else
    match s.fence a.shard with
    | none => (s, .noSub)
    | some f =>
      if Webhook.fenced f a.generation a.wakeId a.generation then (s, .stale)
      else
        let first := if f.firstFailNs = 0 then a.nowNs else f.firstFailNs
        let f := { f with retryCount := f.retryCount + 1, firstFailNs := first, status := .failed,
                          nextAttemptNs := a.nextAttemptNs }
        ({ s.setFence a.shard f with retry := s.retry.zadd a.shard a.nextAttemptNs },
          .ok f.retryCount first)

structure SuccessArgs where
  shard : ℕ := 0
  generation : ℤ
  wakeId : Bytes
  scope : Owned := {}
  deriving DecidableEq, Repr

def recordSuccess (s : Sub) (a : SuccessArgs) : Sub × RecordReply :=
  if a.scope.fenced then (s, .fenced)
  else
    match s.fence a.shard with
    | none => (s, .noSub)
    | some f =>
      if f.generation ≠ a.generation ∨ f.wakeId ≠ a.wakeId then (s, .stale)
      else ({ s.setFence a.shard f.cleared with retry := s.retry.zrem a.shard }, .ok)

end Retries

section Links

/-- An authorised mutation goes on only if the subscription meets the expectation. -/
def authorize (s : Sub) (expected : Option Expectation) : ExpectationStatus :=
  match expected with
  | none => .matched
  | some x => s.expectationStatus x

inductive DeleteReply where
  | ok
  | forbidden
  | noSub
  deriving DecidableEq, Repr

def dropMembers (registry : Finset ℕ) (z : Schedule) : Schedule :=
  fun g => if g = 0 ∨ g ∈ registry then none else z g

def deleteSub (s : Sub) (expected : Option Expectation) : Sub × DeleteReply :=
  match s.authorize expected with
  | .noSub => (s, .noSub)
  | .forbidden => (s, .forbidden)
  | .matched =>
    ({ s with
        parent := none
        shards := fun g => if g ∈ s.registry then none else s.shards g
        links := ∅
        listed := false
        lease := dropMembers s.registry s.lease
        retry := dropMembers s.registry s.retry
        due := dropMembers s.registry s.due
        registry := ∅ }, .ok)

structure LinkArgs where
  path : Path
  linkType : LinkType
  offset : Bytes
  expected : Option Expectation := none
  deriving DecidableEq, Repr

inductive LinkReply where
  | linked
  | upgraded
  | exists
  | forbidden
  | noSub
  deriving DecidableEq, Repr

/-- Link a stream; an explicit link takes the place of a glob link and keeps its cursor. -/
def linkStream (s : Sub) (a : LinkArgs) : Sub × LinkReply :=
  match s.authorize a.expected with
  | .noSub => (s, .noSub)
  | .forbidden => (s, .forbidden)
  | .matched =>
    match s.links.lookup a.path with
    | none => ({ s with links := s.links.insert a.path ⟨a.linkType, a.offset⟩ }, .linked)
    | some cur =>
      if a.linkType = .explicit then
        ({ s with links := s.links.insert a.path { cur with linkType := .explicit } }, .upgraded)
      else (s, .exists)

structure UnlinkArgs where
  path : Path
  stillGlob : Bool
  expected : Option Expectation := none
  deriving DecidableEq, Repr

inductive UnlinkReply where
  | removed
  | glob
  | gone
  | forbidden
  | noSub
  deriving DecidableEq, Repr

/-- Remove a link, or turn it into a glob link if the pattern still matches. -/
def unlinkStream (s : Sub) (a : UnlinkArgs) : Sub × UnlinkReply :=
  match s.authorize a.expected with
  | .noSub => (s, .noSub)
  | .forbidden => (s, .forbidden)
  | .matched =>
    match s.links.lookup a.path with
    | none => (s, .gone)
    | some cur =>
      if a.stillGlob then
        ({ s with links := s.links.insert a.path { cur with linkType := .glob } }, .glob)
      else ({ s with links := s.links.erase a.path }, .removed)

end Links

end Sub

end Chronicle.Webhook
