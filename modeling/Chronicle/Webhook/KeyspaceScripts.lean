import Chronicle.Lib.Keyspace
import Chronicle.Webhook.Cursors
import Chronicle.Webhook.Keys

/-! # The subscription scripts on the keyspace

The scripts as they run on the keys of Redis, with their arguments as strings.
Nothing is assumed about what the keys hold.
-/

namespace Chronicle.Webhook.Commands

open Keyspace

variable {ν : Type} [Number ν]

/-- The fields of a subscription hash that the scripts read or write. -/
inductive Field where
  | owner
  | cfgHash
  | type
  | incarnation
  | phase
  | generation
  | wakeId
  | holder
  | holderWorker
  | leaseUntilNs
  | status
  | retryCount
  | firstFailNs
  | nextAttemptNs
  | wakeEventSentNs
  | ownerId
  | ownerEpoch
  deriving DecidableEq

def Field.name : Field → Bytes
  | .owner => Bytes.ascii "owner"
  | .cfgHash => Bytes.ascii "cfg_hash"
  | .type => Bytes.ascii "type"
  | .incarnation => Bytes.ascii "incarnation"
  | .phase => Bytes.ascii "phase"
  | .generation => Bytes.ascii "generation"
  | .wakeId => Bytes.ascii "wake_id"
  | .holder => Bytes.ascii "holder"
  | .holderWorker => Bytes.ascii "holder_worker"
  | .leaseUntilNs => Bytes.ascii "lease_until_ns"
  | .status => Bytes.ascii "status"
  | .retryCount => Bytes.ascii "retry_count"
  | .firstFailNs => Bytes.ascii "first_fail_ns"
  | .nextAttemptNs => Bytes.ascii "next_attempt_ns"
  | .wakeEventSentNs => Bytes.ascii "wake_event_sent_ns"
  | .ownerId => Bytes.ascii "owner_id"
  | .ownerEpoch => Bytes.ascii "owner_epoch"

def phaseName : Phase → Bytes
  | .idle => Bytes.ascii "idle"
  | .waking => Bytes.ascii "waking"
  | .live => Bytes.ascii "live"

def zero : Bytes := [48]

def one : Bytes := [49]

inductive Status where
  | fenced
  | busy
  | stale
  | noSub
  | forbidden
  | active
  | intact
  | armed
  | claimed
  | ok
  | expired
  | restored
  | linked
  | upgraded
  | exists
  | removed
  | glob
  | gone
  | absent
  deriving DecidableEq, Repr

def Status.refused : Status → Bool
  | .fenced | .busy | .stale | .noSub | .forbidden | .active | .intact => true
  | _ => false

/-- The status of a script and what it returns besides; a field that is not there is returned as
nothing. -/
structure Reply where
  status : Status
  data : List (Option Bytes) := []
  deriving DecidableEq, Repr

def get (k : Bytes) (f : Field) : Script ν (Option Bytes) := hget k f.name

def set (k : Bytes) (fields : List (Field × Bytes)) : Script ν Unit :=
  hset k (fields.map fun (f, v) => (f.name, v))

section Common

/-- Whether a caller acts as an owner of the slot that was deposed. -/
def ownerFenced (slot me epoch : Bytes) : Script ν Bool := do
  if epoch = [] then return false
  else
    let ownerId ← get slot .ownerId
    if ownerId ≠ some me then return true
    else
      let ownerEpoch ← get slot .ownerEpoch
      return ownerEpoch ≠ some epoch

/-- Turn down a caller that was deposed. -/
def ifOwner (slot me epoch : Bytes) (m : Script ν Reply) : Script ν Reply := do
  let deposed ← ownerFenced slot me epoch
  if deposed then return ⟨.fenced, []⟩ else m

/-- Turn down a caller whose subscription is not there. -/
def ifThere (sub : Bytes) (m : Script ν Reply) : Script ν Reply := do
  let there ← existsKey sub
  if ¬ there then return ⟨.noSub, []⟩ else m

def fenced (curGen curWake : Option Bytes) (reqGen reqWake tokenGen : Bytes) : Bool :=
  some tokenGen ≠ curGen || some reqGen ≠ curGen || reqWake = [] || some reqWake ≠ curWake

def allLinked (links : Bytes) : List Bytes → List Bytes → Script ν Bool
  | _, [] => return true
  | seen, path :: paths => do
    let cur ← hget links path
    if path ∈ seen ∨ cur = none then return false else allLinked links (path :: seen) paths

/-- Whether the subscription is still the one that the caller has inspected. -/
def subscriptionExpectationStatus (sub links : Bytes) (x : Expectation) :
    Script ν ExpectationStatus := do
  let there ← existsKey sub
  if ¬ there then return .noSub
  else
    let incarnation ← get sub .incarnation
    let owner ← get sub .owner
    let cfgHash ← get sub .cfgHash
    let n ← hlen links
    if incarnation.getD [] ≠ x.incarnation ∨ owner.getD [] ≠ x.owner ∨
        cfgHash.getD [] ≠ x.cfgHash ∨ n ≠ x.paths.length then return .forbidden
    else
      let linked ← allLinked links [] x.paths
      return if linked then .matched else .forbidden

/-- The check of an expectation; a caller without one is not checked. -/
def authorized (sub links : Bytes) (x : Option Expectation) : Script ν ExpectationStatus :=
  match x with
  | none => return .matched
  | some x => subscriptionExpectationStatus sub links x

/-- Go on where a check has found what the caller expects. -/
def ifMatched (check : Script ν ExpectationStatus) (m : Script ν Reply) : Script ν Reply := do
  let status ← check
  match status with
  | .noSub => return ⟨.noSub, []⟩
  | .forbidden => return ⟨.forbidden, []⟩
  | .matched => m

def leaseUntil (nowNs leaseTtlMs : Bytes) : Script ν ν := do
  let now ← ofOption (Number.tonumber nowNs)
  let ttl ← ofOption (Number.tonumber leaseTtlMs)
  return Number.add now (Number.mul ttl (Number.ofNat 1000000))

def storedLease (v : Option Bytes) : ν :=
  (v.bind Number.tonumber).getD (Number.ofNat 0)

def idleFields : List (Field × Bytes) :=
  [(.phase, phaseName .idle), (.holder, zero), (.holderWorker, []), (.wakeId, []),
    (.leaseUntilNs, zero)]

def activeFields : List (Field × Bytes) :=
  [(.status, Bytes.ascii "active"), (.retryCount, zero), (.firstFailNs, zero),
    (.nextAttemptNs, zero)]

end Common

section Wake

def armIdle (sub lease due id nowNs leaseTtlMs armLease newWakeId : Bytes) : Script ν Reply := do
  let gen ← hincr sub Field.generation.name
  set sub [(.wakeId, newWakeId), (.phase, phaseName .waking), (.holder, zero), (.holderWorker, [])]
  let score ← ofOption (Number.score nowNs)
  zadd due score id
  if armLease = one then
    let untilNs : ν ← leaseUntil nowNs leaseTtlMs
    set sub [(.leaseUntilNs, Number.tostring untilNs)]
    zadd lease untilNs id
    return ⟨.armed, [some (Decimal.formatInt gen), some newWakeId]⟩
  else
    set sub [(.wakeEventSentNs, zero)]
    return ⟨.armed, [some (Decimal.formatInt gen), some newWakeId]⟩

def armWake (sub lease due slot id nowNs leaseTtlMs armLease newWakeId replicaId
    expectedEpoch : Bytes) : Script ν Reply :=
  ifOwner slot replicaId expectedEpoch <| ifThere sub do
    let phase ← get sub .phase
    if phase ≠ some (phaseName .idle) then
      let gen ← get sub .generation
      let wake ← get sub .wakeId
      return ⟨.busy, [gen, wake]⟩
    else armIdle sub lease due id nowNs leaseTtlMs armLease newWakeId

end Wake

section Claim

def stampIncarnation (cfg counter : Bytes) : Script ν Bytes := do
  let incarnation ← get cfg .incarnation
  match incarnation with
  | none | some [] =>
    let n ← incr counter
    set cfg [(.incarnation, Decimal.formatInt n)]
    return Decimal.formatInt n
  | some incarnation => return incarnation

/-- The generation and the wake id of a claim; without a wake to take over they are new. -/
def claimWake (sub : Bytes) (phase : Option Bytes) (newWakeId : Bytes) :
    Script ν (Option Bytes × Option Bytes) := do
  let gen ← get sub .generation
  let wake ← get sub .wakeId
  -- a wake id that is not stored is not the empty string
  if phase = some (phaseName .waking) ∧ wake ≠ some [] then return (gen, wake)
  else
    let n ← hincr sub Field.generation.name
    set sub [(.wakeId, newWakeId)]
    return (some (Decimal.formatInt n), some newWakeId)

/-- List a shard that has a hash of its own. -/
def register (cfg sub registry shardIndex : Bytes) : Script ν Unit :=
  if cfg ≠ sub then sadd registry shardIndex else return ()

def grantClaim (cfg sub lease counter registry : Bytes) (phase : Option Bytes)
    (member worker nowNs leaseTtlMs newWakeId shardIndex : Bytes) : Script ν Reply := do
  let incarnation ← stampIncarnation cfg counter
  let (gen, wake) ← claimWake sub phase newWakeId
  let untilNs : ν ← leaseUntil nowNs leaseTtlMs
  set sub [(.phase, phaseName .live), (.holder, one), (.holderWorker, worker),
    (.leaseUntilNs, Number.tostring untilNs), (.incarnation, incarnation)]
  register cfg sub registry shardIndex
  zadd lease untilNs member
  return ⟨.claimed, [gen, wake, some worker]⟩

def isHeld (phase holder leaseUntil : Option Bytes) (nowNs : Bytes) : Script ν Bool :=
  if phase = some (phaseName .live) ∧ holder = some one then do
    let now ← ofOption (Number.tonumber nowNs)
    return Number.lt now (storedLease leaseUntil : ν)
  else return false

def claimShard (cfg sub lease counter registry member worker nowNs leaseTtlMs newWakeId
    shardIndex : Bytes) : Script ν Reply := do
  let phase ← get sub .phase
  let holder ← get sub .holder
  let leaseUntil ← get sub .leaseUntilNs
  let held ← isHeld (ν := ν) phase holder leaseUntil nowNs
  if held then
    let gen ← get sub .generation
    let worker ← get sub .holderWorker
    return ⟨.busy, [gen, some [], worker]⟩
  else
    grantClaim cfg sub lease counter registry phase member worker nowNs leaseTtlMs newWakeId
      shardIndex

def claim (cfg sub lease counter registry links member worker nowNs leaseTtlMs newWakeId
    shardIndex : Bytes) (x : Expectation) : Script ν Reply :=
  ifMatched (subscriptionExpectationStatus cfg links x) do
    let shardInc ← get sub .incarnation
    -- a shard hash that was left over from another incarnation is dropped
    if cfg ≠ sub ∧ x.incarnation ≠ [] ∧ shardInc ≠ some x.incarnation then
      del sub
      claimShard cfg sub lease counter registry member worker nowNs leaseTtlMs newWakeId shardIndex
    else
      claimShard cfg sub lease counter registry member worker nowNs leaseTtlMs newWakeId shardIndex

end Claim

section Ack

def sameIncarnation (sub cfg : Bytes) (cfgInc shardInc : Option Bytes) : Bool :=
  if sub ≠ cfg then
    cfgInc ≠ none && cfgInc ≠ some [] && shardInc ≠ none && shardInc ≠ some [] &&
      shardInc = cfgInc
  else cfgInc = none || cfgInc = some [] || shardInc = cfgInc

/-- Whether a heartbeat comes for a claim that is in flight. The last acknowledgement of a claim is
none. -/
def heartbeats (sub cfg done nowNs : Bytes) : Script ν Bool := do
  if done = one then return true
  else
    let type ← get cfg .type
    let phase ← get sub .phase
    let holder ← get sub .holder
    let leaseUntilNs ← get sub .leaseUntilNs
    match leaseUntilNs.bind Number.tonumber, Number.tonumber nowNs with
    | some (untilNs : ν), some now =>
      if Number.le untilNs now then return false
      else if type = some (Bytes.ascii "webhook") then
        return (phase = some (phaseName .waking) ∨ phase = some (phaseName .live)) ∧
          holder = some zero
      else return phase = some (phaseName .live) ∧ holder = some one
    | _, _ => return false

def ackLink (links : Bytes) (ack : Path × Bytes) : Script ν Unit := do
  let cur ← hget links ack.1
  match cur with
  | none => return ()
  | some cur =>
    let (lt, curoff) ← ofOption (splitLink cur)
    if offsetGreater ack.2 curoff then hset links [(ack.1, lt ++ 58 :: ack.2)] else return ()

/-- Apply acknowledgements, then end the claim or renew its lease. -/
def applyAcks (sub links lease retry due member nowNs leaseTtlMs done : Bytes)
    (acks : List (Path × Bytes)) : Script ν Reply := do
  each (ackLink links) acks
  if done = one then
    set sub (idleFields ++ activeFields)
    zrem lease member
    zrem retry member
    zrem due member
    return ⟨.ok, []⟩
  else
    let untilNs : ν ← leaseUntil nowNs leaseTtlMs
    set sub [(.leaseUntilNs, Number.tostring untilNs), (.phase, phaseName .live)]
    zadd lease untilNs member
    return ⟨.ok, []⟩

def ack (sub links lease retry due cfg slot member reqGen reqWake tokenGen done nowNs leaseTtlMs :
    Bytes) (acks : List (Path × Bytes)) (replicaId expectedEpoch : Bytes) : Script ν Reply :=
  ifOwner slot replicaId expectedEpoch do
    let there ← existsKey sub
    let cfgThere ← existsKey cfg
    if ¬ there ∨ ¬ cfgThere then return ⟨.noSub, []⟩
    else
      let cfgInc ← get cfg .incarnation
      let shardInc ← get sub .incarnation
      if ¬ sameIncarnation sub cfg cfgInc shardInc then return ⟨.fenced, []⟩
      else
        let gen ← get sub .generation
        let wake ← get sub .wakeId
        if fenced gen wake reqGen reqWake tokenGen then return ⟨.fenced, []⟩
        else
          let beats ← heartbeats (ν := ν) sub cfg done nowNs
          if ¬ beats then return ⟨.fenced, []⟩
          else applyAcks sub links lease retry due member nowNs leaseTtlMs done acks

def release (sub lease retry due slot id reqGen reqWake tokenGen replicaId expectedEpoch : Bytes) :
    Script ν Reply :=
  ifOwner slot replicaId expectedEpoch <| ifThere sub do
    let gen ← get sub .generation
    let wake ← get sub .wakeId
    if fenced gen wake reqGen reqWake tokenGen then return ⟨.fenced, []⟩
    else
      set sub idleFields
      zrem lease id
      zrem retry id
      zrem due id
      return ⟨.ok, []⟩

end Ack

section Leases

def inFlight (phase : Option Bytes) : Bool :=
  phase = some (phaseName .live) || phase = some (phaseName .waking)

def isLapsed (phase leaseUntil : Option Bytes) (nowNs : Bytes) : Script ν Bool :=
  if inFlight phase ∧ Number.lt (Number.ofNat 0 : ν) (storedLease leaseUntil) then do
    let now ← ofOption (Number.tonumber nowNs)
    return Number.le (storedLease leaseUntil : ν) now
  else return false

def expireLease (sub lease due slot id nowNs replicaId expectedEpoch : Bytes) :
    Script ν Reply :=
  ifOwner slot replicaId expectedEpoch <| ifThere sub do
    let leaseUntil ← get sub .leaseUntilNs
    let phase ← get sub .phase
    let lapsed ← isLapsed (ν := ν) phase leaseUntil nowNs
    if lapsed then
      set sub idleFields
      zrem lease id
      let score ← ofOption (Number.score nowNs)
      zadd due score id
      return ⟨.expired, []⟩
    else return ⟨.active, []⟩

def restoreLease (sub lease due id nowNs owed : Bytes) : Script ν Reply :=
  ifThere sub do
    let phase ← get sub .phase
    let leaseUntil ← get sub .leaseUntilNs
    if inFlight phase ∧ Number.lt (Number.ofNat 0 : ν) (storedLease leaseUntil) then
      zadd lease (storedLease leaseUntil) id
      if owed = one then
        let score ← ofOption (Number.score nowNs)
        zadd due score id
        return ⟨.restored, []⟩
      else return ⟨.restored, []⟩
    else return ⟨.intact, []⟩

end Leases

section Retries

def firstFailure (sub nowNs : Bytes) : Script ν (Option Bytes) := do
  let first ← get sub .firstFailNs
  if first = some zero ∨ first = none then
    set sub [(.firstFailNs, nowNs)]
    return some nowNs
  else return first

def recordFailure (sub retry id nowNs nextAttemptNs : Bytes) : Script ν Reply := do
  let _ ← hincr sub Field.retryCount.name
  let first ← firstFailure sub nowNs
  set sub [(.status, Bytes.ascii "failed"), (.nextAttemptNs, nextAttemptNs)]
  let score ← ofOption (Number.tonumber nextAttemptNs)
  zadd retry score id
  let count ← get sub .retryCount
  return ⟨.ok, [count, first]⟩

def scheduleRetry (sub retry slot id nowNs nextAttemptNs generation wakeId replicaId
    expectedEpoch : Bytes) : Script ν Reply :=
  ifOwner slot replicaId expectedEpoch <| ifThere sub do
    let gen ← get sub .generation
    let wake ← get sub .wakeId
    if fenced gen wake generation wakeId generation then return ⟨.stale, []⟩
    else recordFailure sub retry id nowNs nextAttemptNs

def recordSuccess (sub retry slot id generation wakeId replicaId expectedEpoch : Bytes) :
    Script ν Reply :=
  ifOwner slot replicaId expectedEpoch <| ifThere sub do
    let gen ← get sub .generation
    let wake ← get sub .wakeId
    if gen ≠ some generation ∨ wake ≠ some wakeId then return ⟨.stale, []⟩
    else
      set sub activeFields
      zrem retry id
      return ⟨.ok, []⟩

end Retries

section Links

def linkStream (sub links path linkType offset : Bytes) (x : Option Expectation) :
    Script ν Reply :=
  ifMatched (authorized sub links x) do
    let cur ← hget links path
    match cur with
    | none =>
      hset links [(path, linkType ++ 58 :: offset)]
      return ⟨.linked, []⟩
    | some cur =>
      if linkType = LinkType.name .explicit then
        let (_, off) ← ofOption (splitLink cur)
        hset links [(path, Bytes.ascii "explicit:" ++ off)]
        return ⟨.upgraded, []⟩
      else return ⟨.exists, []⟩

def unlinkStream (sub links path stillGlob : Bytes) (x : Option Expectation) :
    Script ν Reply :=
  ifMatched (authorized sub links x) do
    let cur ← hget links path
    match cur with
    | none => return ⟨.gone, []⟩
    | some cur =>
      if stillGlob = one then
        let (_, off) ← ofOption (splitLink cur)
        hset links [(path, Bytes.ascii "glob:" ++ off)]
        return ⟨.glob, []⟩
      else
        hdel links path
        return ⟨.removed, []⟩

/-- Take a subscription out of the fan-out of a stream that it is not linked to. -/
def deindexStale (sub links streamSubs id path : Bytes) : Script ν Reply := do
  let there ← existsKey sub
  let cur ← (if there then hget links path else pure none)
  if cur ≠ none then return ⟨.linked, []⟩
  else
    let removed ← srem streamSubs id
    return ⟨if removed then .removed else .absent, []⟩

def dropShard (sub lease retry due id g : Bytes) : Script ν Unit := do
  del (sub ++ shardSuffix ++ g)
  zrem lease (id ++ shardSuffix ++ g)
  zrem retry (id ++ shardSuffix ++ g)
  zrem due (id ++ shardSuffix ++ g)

def deleteSub (sub subs links lease retry due registry id : Bytes) (x : Option Expectation) :
    Script ν Reply :=
  ifMatched (authorized sub links x) do
    del sub
    del links
    let _ ← srem subs id
    zrem lease id
    zrem retry id
    zrem due id
    let shards ← smembers registry
    each (dropShard sub lease retry due id) shards
    del registry
    return ⟨.ok, []⟩

end Links

section Create

structure CreateFields where
  cfgHash : Bytes := []
  nowNs : Bytes := []
  type : Bytes := []
  pattern : Bytes := []
  webhookUrl : Bytes := []
  wakeStream : Bytes := []
  leaseTtlMs : Bytes := []
  description : Bytes := []
  owner : Bytes := []
  links : List (Path × Bytes × Bytes) := []

def CreateFields.config (a : CreateFields) (id : Bytes) : List (Bytes × Bytes) :=
  [(Bytes.ascii "id", id), (Field.cfgHash.name, a.cfgHash), (Bytes.ascii "created_ns", a.nowNs),
    (Field.type.name, a.type), (Bytes.ascii "pattern", a.pattern),
    (Bytes.ascii "webhook_url", a.webhookUrl), (Bytes.ascii "wake_stream", a.wakeStream),
    (Bytes.ascii "lease_ttl_ms", a.leaseTtlMs), (Bytes.ascii "description", a.description),
    (Field.owner.name, a.owner)]

inductive CreateStatus where
  | matched
  | conflict
  | created
  deriving DecidableEq, Repr

def createLink (links : Bytes) (l : Path × Bytes × Bytes) : Script ν Unit :=
  hset links [(l.1, l.2.1 ++ 58 :: l.2.2)]

def createSub (sub subs links counter id : Bytes) (a : CreateFields) :
    Script ν (CreateStatus × Bytes) := do
  let there ← existsKey sub
  if there then
    let owner ← get sub .owner
    let cfgHash ← get sub .cfgHash
    return (if cfgHash = some a.cfgHash then .matched else .conflict, owner.getD [])
  else
    let incarnation ← incr counter
    hset sub (a.config id)
    set sub ([(.incarnation, Decimal.formatInt incarnation), (.generation, zero)] ++ idleFields ++
      activeFields)
    sadd subs id
    each (createLink links) a.links
    return (.created, a.owner)

end Create

section Fence

def recordWakeSent (sub nowNs generation wakeId : Bytes) : Script ν Reply :=
  ifThere sub do
    let gen ← get sub .generation
    let wake ← get sub .wakeId
    if gen ≠ some generation ∨ wake ≠ some wakeId then return ⟨.stale, []⟩
    else
      set sub [(.wakeEventSentNs, nowNs)]
      return ⟨.ok, []⟩

def inLease (type phase holder leaseUntil : Option Bytes) (nowNs : Bytes) : Script ν Bool :=
  if type = some (Bytes.ascii "webhook") ∧ inFlight phase ∧ holder = some zero ∨
      type ≠ some (Bytes.ascii "webhook") ∧ phase = some (phaseName .live) ∧ holder = some one then do
    let now ← ofOption (Number.tonumber nowNs)
    return ¬ Number.le (storedLease leaseUntil : ν) now
  else return false

def claimHolder (type wake worker : Option Bytes) : Option Bytes :=
  if type = some (Bytes.ascii "webhook") then wake.map (Bytes.ascii "wake:" ++ ·) else worker

def checkWriteFence (sub cfg nowNs generation wakeId holder incarnation : Bytes) :
    Script ν Reply :=
  ifThere sub <| ifThere cfg do
    let cfgInc ← get cfg .incarnation
    let shardInc ← get sub .incarnation
    if ¬ sameIncarnation sub cfg cfgInc shardInc then return ⟨.fenced, []⟩
    else
      let phase ← get sub .phase
      let held ← get sub .holder
      let worker ← get sub .holderWorker
      let gen ← get sub .generation
      let wake ← get sub .wakeId
      let leaseUntil ← get sub .leaseUntilNs
      let type ← get cfg .type
      let live ← inLease (ν := ν) type phase held leaseUntil nowNs
      if ¬ live ∨ wake = none ∨ wake = some [] ∨
          incarnation ≠ [] ∧ cfgInc ≠ some incarnation ∨ gen ≠ some generation ∨
          wake ≠ some wakeId ∨ holder = [] ∨ claimHolder type wake worker ≠ some holder then
        return ⟨.fenced, []⟩
      else
        let leaseTtlMs ← hget cfg (Bytes.ascii "lease_ttl_ms")
        return ⟨.ok, [leaseUntil, leaseTtlMs]⟩

end Fence

end Chronicle.Webhook.Commands
