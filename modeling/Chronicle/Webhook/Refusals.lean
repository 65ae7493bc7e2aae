import Chronicle.Lib.Scope
import Chronicle.Webhook.KeyspaceScripts

/-! # What a subscription script can change

A script that turns a request down leaves every key as it was. Whatever a script
answers, it changes only keys of the subscription that it names, and in the
schedules and the set of ids of the slot only the entries of that subscription.
-/

namespace Chronicle.Webhook.Commands

open Keyspace

variable {ν : Type}

section Reads

theorem readOnly_get (k : Bytes) (f : Field) : ReadOnly (get k f : Script ν _) :=
  readOnly_hget k f.name

theorem get_run {α : Type} {db : Db ν} {k : Bytes} {f : Finmap fun _ : Bytes => Bytes}
    (hf : db.fields k = some f)
    (field : Field) (m : Option Bytes → Script ν α) :
    (get k field >>= m) db = m (f.lookup field.name) db := hget_run hf field.name m

theorem tonumber_formatInt (n : ℤ) : Number.tonumber (Decimal.formatInt n) = some n :=
  Decimal.parseInt_formatInt n

theorem storedLease_formatInt (n : ℤ) : storedLease (some (Decimal.formatInt n)) = n := by
  rw [storedLease, Option.bind_some, tonumber_formatInt, Option.getD_some]

end Reads

section Scope

variable {ν : Type} {S : Scope}
variable {cfg sub subs links lease retry due slot counter registry id member nowNs leaseTtlMs : Bytes}

def Reply.Refused (r : Reply) : Prop := r.status.refused = true

/-- A script for a subscription that has changed nothing when it refuses. -/
abbrev Cautious (ν : Type) (S : Scope) (n : Script ν Reply) : Prop := Careful S Reply.Refused n

theorem accepts {r : Reply} (h : r.status.refused = false) :
    Accepts S Reply.Refused (pure r : Script ν Reply) := by
  refine .pure ?_
  rw [Reply.Refused, h]
  exact Bool.false_ne_true

theorem get_looks (h : S.Readable sub) (f : Field) : Looks S (get sub f : Script ν _) :=
  .hget h _

theorem get_within (h : S.Readable sub) (f : Field) : Within S (get sub f : Script ν _) :=
  .hget _ h

theorem set_within (h : sub ∈ S.owned) (fields : List (Field × Bytes)) :
    Within S (set sub fields : Script ν Unit) := .hset _ h

theorem ownerFenced_looks (h : S.Readable slot) (me epoch : Bytes) :
    Looks S (ownerFenced slot me epoch : Script ν Bool) := by
  unfold ownerFenced
  split
  · exact .pure _
  refine .bind (get_looks h _) fun ownerId => ?_
  split
  · exact .pure _
  · exact .bind (get_looks h _) fun _ => .pure _

theorem reads {f : Field} {m : Option Bytes → Script ν Reply} (hsub : sub ∈ S.owned)
    (h : ∀ v, Cautious ν S (m v)) : Cautious ν S (get sub f >>= m) :=
  .look (get_looks (.inl hsub) f) h

theorem owned_careful {me epoch : Bytes} {m : Script ν Reply} (hslot : S.Readable slot)
    (h : Cautious ν S m) : Cautious ν S (ifOwner slot me epoch m) := by
  refine .look (ownerFenced_looks hslot _ _) fun deposed => ?_
  split
  · exact .pure _
  · exact h

theorem present_careful {m : Script ν Reply} (hsub : S.Readable sub)
    (h : Cautious ν S m) : Cautious ν S (ifThere sub m) := by
  refine .look (.existsKey hsub) fun there => ?_
  split
  · exact .pure _
  · exact h

theorem matched_careful {check : Script ν ExpectationStatus} {m : Script ν Reply}
    (hcheck : Looks S check) (h : Cautious ν S m) : Cautious ν S (ifMatched check m) := by
  refine .look hcheck fun status => ?_
  split
  · exact .pure _
  · exact .pure _
  · exact h

theorem allLinked_looks (h : S.Readable links) (seen paths : List Bytes) :
    Looks S (allLinked links seen paths : Script ν Bool) := by
  induction paths generalizing seen with
  | nil => exact .pure _
  | cons path paths ih =>
    refine .bind (.hget h _) fun cur => ?_
    split
    · exact .pure _
    · exact ih _

theorem expectation_looks (hsub : S.Readable sub) (hlinks : S.Readable links) (x : Expectation) :
    Looks S (subscriptionExpectationStatus sub links x : Script ν _) := by
  refine .bind (.existsKey hsub) fun there => ?_
  split
  · exact .pure _
  refine .bind (get_looks hsub _) fun _ => .bind (get_looks hsub _) fun _ =>
    .bind (get_looks hsub _) fun _ => .bind (.hlen hlinks) fun _ => ?_
  split
  · exact .pure _
  · exact .bind (allLinked_looks hlinks _ _) fun _ => .pure _

theorem authorized_looks (hsub : S.Readable sub) (hlinks : S.Readable links)
    (x : Option Expectation) : Looks S (authorized sub links x : Script ν _) := by
  cases x with
  | none => exact .pure _
  | some x => exact expectation_looks hsub hlinks x

theorem linkStream_careful (hsub : S.Readable sub) (h : links ∈ S.owned)
    (path linkType offset : Bytes) (x : Option Expectation) :
    Cautious ν S (linkStream sub links path linkType offset x) := by
  refine matched_careful (authorized_looks hsub (.inl h) _) (.look (.hget (.inl h) _) fun cur => ?_)
  split
  · exact (Accepts.bind (.hset _ h) fun _ => accepts rfl).careful
  split
  · refine (Accepts.bind (.ofOption _) ?_).careful
    rintro ⟨-, off⟩
    exact .bind (.hset _ h) fun _ => accepts rfl
  · exact .pure _

theorem unlinkStream_careful (hsub : S.Readable sub) (h : links ∈ S.owned) (path stillGlob : Bytes)
    (x : Option Expectation) : Cautious ν S (unlinkStream sub links path stillGlob x) := by
  refine matched_careful (authorized_looks hsub (.inl h) _) (.look (.hget (.inl h) _) fun cur => ?_)
  split
  · exact .pure _
  split
  · refine (Accepts.bind (.ofOption _) ?_).careful
    rintro ⟨-, off⟩
    exact .bind (.hset _ h) fun _ => accepts rfl
  · exact (Accepts.bind (.hdel _ h) fun _ => accepts rfl).careful

def Scored (S : Scope) (schedule member : Bytes) : Prop :=
  schedule ∈ S.scored ∧ member ∈ S.shared schedule

theorem Scored.zadd (h : Scored S lease member) (score : ν) :
    Within S (Keyspace.zadd lease score member) := .zadd score h.1 h.2

theorem Scored.zrem (h : Scored S lease member) :
    Within S (Keyspace.zrem lease member : Script ν Unit) := .zrem h.1 h.2

structure Scheduled (S : Scope) (lease retry due member : Bytes) : Prop where
  lease : Scored S lease member
  retry : Scored S retry member
  due : Scored S due member

theorem dropShard_within {g : Bytes} (hsub : sub ++ shardSuffix ++ g ∈ S.owned)
    (hs : Scheduled S lease retry due (id ++ shardSuffix ++ g)) :
    Within S (dropShard sub lease retry due id g : Script ν Unit) :=
  .bind (.del hsub) fun _ => .bind hs.lease.zrem fun _ => .bind hs.retry.zrem fun _ => hs.due.zrem

theorem deleteSub_careful (hsub : sub ∈ S.owned) (hlinks : links ∈ S.owned)
    (hregistry : registry ∈ S.owned)
    (hshards : ∀ g, S.holds registry g → sub ++ shardSuffix ++ g ∈ S.owned)
    (hsubs : subs ∈ S.listed) (hid : id ∈ S.shared subs) (hs : Scheduled S lease retry due id)
    (hss : ∀ g, S.holds registry g → Scheduled S lease retry due (id ++ shardSuffix ++ g))
    (x : Option Expectation) :
    Cautious ν S (deleteSub sub subs links lease retry due registry id x) := by
  refine matched_careful (authorized_looks (.inl hsub) (.inl hlinks) _) ?_
  refine (Accepts.bind (.del hsub) fun _ => .bind (.del hlinks) fun _ =>
    .bind (.srem hsubs hid) fun _ => .bind hs.lease.zrem fun _ => .bind hs.retry.zrem fun _ =>
    .bind hs.due.zrem fun _ => ⟨?_, ?_⟩).careful
  · refine .smembers (.inl hregistry) fun shards hshard => .bind (.each fun g hg => ?_) fun _ =>
      .bind (.del hregistry) fun _ => .pure _
    exact dropShard_within (hshards g (hshard g hg)) (hss g (hshard g hg))
  · exact acceptsOn_bind fun _ => acceptsOn_bind fun _ => acceptsOn_bind fun _ =>
      (accepts (S := S) rfl).accepts

theorem claimWake_within (hsub : sub ∈ S.owned) (phase : Option Bytes) (newWakeId : Bytes) :
    Within S (claimWake sub phase newWakeId : Script ν _) := by
  refine .bind (get_within (.inl hsub) _) fun gen => .bind (get_within (.inl hsub) _) fun wake => ?_
  split
  · exact .pure _
  · exact .bind (.hincr hsub _) fun _ => .bind (set_within hsub _) fun _ => .pure _

theorem stampIncarnation_within (hcfg : cfg ∈ S.owned) (hcounter : counter ∈ S.owned) :
    Within S (stampIncarnation cfg counter : Script ν Bytes) := by
  refine .bind (get_within (.inl hcfg) _) fun incarnation => ?_
  split
  · exact .bind (.incr hcounter) fun _ => .bind (set_within hcfg _) fun _ => .pure _
  · exact .bind (.incr hcounter) fun _ => .bind (set_within hcfg _) fun _ => .pure _
  · exact .pure _

theorem register_within {shardIndex : Bytes} (hregistry : registry ∈ S.owned)
    (hindex : cfg ≠ sub → S.holds registry shardIndex) :
    Within S (register cfg sub registry shardIndex : Script ν Unit) := by
  unfold register
  split
  · rename_i hne
    exact .sadd hregistry (hindex hne)
  · exact .pure _

theorem ackLink_within (hlinks : links ∈ S.owned) (ack : Path × Bytes) :
    Within S (ackLink links ack : Script ν Unit) := by
  refine .bind (.hget _ (.inl hlinks)) fun cur => ?_
  split
  · exact .pure _
  refine .bind (.ofOption _) ?_
  rintro ⟨lt, curoff⟩
  dsimp only
  split
  · exact .hset _ hlinks
  · exact .pure _

theorem firstFailure_within (hsub : sub ∈ S.owned) :
    Within S (firstFailure sub nowNs : Script ν _) := by
  refine .bind (get_within (.inl hsub) _) fun first => ?_
  split
  · exact .bind (set_within hsub _) fun _ => .pure _
  · exact .pure _

theorem recordSuccess_careful (hslot : S.Readable slot) (hsub : sub ∈ S.owned)
    (hid : Scored S retry id) (generation wakeId replicaId expectedEpoch : Bytes) :
    Cautious ν S (recordSuccess sub retry slot id generation wakeId replicaId expectedEpoch) := by
  refine owned_careful hslot (present_careful (.inl hsub)
    (reads hsub fun gen => reads hsub fun wake => ?_))
  split
  · exact .pure _
  · exact (Accepts.bind (set_within hsub _) fun _ => .bind hid.zrem fun _ => accepts rfl).careful

theorem release_careful (hslot : S.Readable slot) (hsub : sub ∈ S.owned)
    (hs : Scheduled S lease retry due id) (reqGen reqWake tokenGen replicaId expectedEpoch : Bytes) :
    Cautious ν S (release sub lease retry due slot id reqGen reqWake tokenGen replicaId
      expectedEpoch) := by
  refine owned_careful hslot (present_careful (.inl hsub)
    (reads hsub fun gen => reads hsub fun wake => ?_))
  split
  · exact .pure _
  · exact (Accepts.bind (set_within hsub _) fun _ => .bind hs.lease.zrem fun _ =>
      .bind hs.retry.zrem fun _ => .bind hs.due.zrem fun _ => accepts rfl).careful

variable [Number ν]

theorem leaseUntil_within (nowNs leaseTtlMs : Bytes) :
    Within S (leaseUntil nowNs leaseTtlMs : Script ν ν) :=
  .bind (.ofOption _) fun _ => .bind (.ofOption _) fun _ => .pure _

theorem heartbeats_looks (hsub : S.Readable sub) (hcfg : S.Readable cfg) (done nowNs : Bytes) :
    Looks S (heartbeats sub cfg done nowNs : Script ν Bool) := by
  unfold heartbeats
  split
  · exact .pure _
  refine .bind (get_looks hcfg _) fun _ => .bind (get_looks hsub _) fun _ =>
    .bind (get_looks hsub _) fun _ => .bind (get_looks hsub _) fun _ => ?_
  repeat' split
  all_goals exact .pure _

theorem isHeld_looks (phase holder leaseUntil : Option Bytes) (nowNs : Bytes) :
    Looks S (isHeld phase holder leaseUntil nowNs : Script ν Bool) := by
  unfold isHeld
  split
  · exact .bind (.ofOption _) fun _ => .pure _
  · exact .pure _

theorem isLapsed_looks (phase leaseUntil : Option Bytes) (nowNs : Bytes) :
    Looks S (isLapsed phase leaseUntil nowNs : Script ν Bool) := by
  unfold isLapsed
  split
  · exact .bind (.ofOption _) fun _ => .pure _
  · exact .pure _

theorem armWake_careful (hslot : S.Readable slot) (hsub : sub ∈ S.owned)
    (hs : Scheduled S lease retry due id) (armLease newWakeId replicaId expectedEpoch : Bytes) :
    Cautious ν S (armWake sub lease due slot id nowNs leaseTtlMs armLease newWakeId
      replicaId expectedEpoch) := by
  refine owned_careful hslot (present_careful (.inl hsub) (reads hsub fun phase => ?_))
  split
  · exact reads hsub fun _ => reads hsub fun _ => .pure _
  refine (Accepts.bind (.hincr hsub _) fun gen => .bind (set_within hsub _) fun _ =>
    .bind (.ofOption _) fun score => .bind (hs.due.zadd _) fun _ => ?_).careful
  split
  · exact .bind (leaseUntil_within _ _) fun _ => .bind (set_within hsub _) fun _ =>
      .bind (hs.lease.zadd _) fun _ => accepts rfl
  · exact .bind (set_within hsub _) fun _ => accepts rfl

section Claim

variable {shardIndex : Bytes} (hcfg : cfg ∈ S.owned) (hsub : sub ∈ S.owned)
  (hcounter : counter ∈ S.owned) (hregistry : registry ∈ S.owned)
  (hindex : cfg ≠ sub → S.holds registry shardIndex) (hmember : Scored S lease member)
include hcfg hsub hcounter hregistry hindex hmember

theorem grantClaim_accepts (phase : Option Bytes) (worker newWakeId : Bytes) :
    Accepts S Reply.Refused (grantClaim cfg sub lease counter registry phase member worker nowNs
      leaseTtlMs newWakeId shardIndex : Script ν Reply) := by
  refine .bind (stampIncarnation_within hcfg hcounter) fun _ =>
    .bind (claimWake_within hsub _ _) ?_
  rintro ⟨gen, wake⟩
  exact .bind (leaseUntil_within _ _) fun _ => .bind (set_within hsub _) fun _ =>
    .bind (register_within hregistry hindex) fun _ => .bind (hmember.zadd _) fun _ => accepts rfl

theorem claimShard_careful (worker newWakeId : Bytes) :
    Cautious ν S (claimShard cfg sub lease counter registry member worker nowNs
      leaseTtlMs newWakeId shardIndex) := by
  refine reads hsub fun phase => reads hsub fun holder =>
    reads hsub fun _ => .look (isHeld_looks _ _ _ _) fun held => ?_
  split
  · exact reads hsub fun _ => reads hsub fun _ => .pure _
  · exact (grantClaim_accepts hcfg hsub hcounter hregistry hindex hmember _ _ _).careful

/-- A shard whose hash is not there is held by nobody. -/
theorem claimShard_accepts {worker newWakeId : Bytes} {db : Db ν} (h : db sub = none) :
    AcceptsOn Reply.Refused (claimShard cfg sub lease counter registry member worker nowNs
      leaseTtlMs newWakeId shardIndex) db := by
  have hget : ∀ f : Field, ((get sub f : Script ν _) db).2 = some none := by
    intro f
    simp [get, hget, Db.fields, h]
  refine acceptsOn_read (readOnly_get _ _) fun phase hphase => ?_
  rw [hget, Option.some.injEq] at hphase
  subst hphase
  refine acceptsOn_read (readOnly_get _ _) fun _ _ => acceptsOn_read (readOnly_get _ _) fun _ _ =>
    acceptsOn_read (isHeld_looks (S := S) _ _ _ _).readOnly fun held hheld => ?_
  rw [isHeld, if_neg (by simp)] at hheld
  cases hheld
  exact (grantClaim_accepts hcfg hsub hcounter hregistry hindex hmember _ _ _).accepts db

theorem claim_careful (hlinks : S.Readable links) (worker newWakeId : Bytes) (x : Expectation) :
    Cautious ν S (claim cfg sub lease counter registry links member worker nowNs
      leaseTtlMs newWakeId shardIndex x) := by
  have hclaim := @claimShard_careful ν S cfg sub lease counter registry member nowNs leaseTtlMs _
    shardIndex hcfg hsub hcounter hregistry hindex hmember worker newWakeId
  refine matched_careful (expectation_looks (.inl hcfg) hlinks _)
    (reads hsub fun shardInc => ?_)
  split
  · refine ⟨.bind (.del hsub) fun _ => hclaim.within, fun db r hr href => absurd href ?_⟩
    exact claimShard_accepts hcfg hsub hcounter hregistry hindex hmember
      (Function.update_self sub none db) r hr
  · exact hclaim

end Claim

theorem applyAcks_accepts (hsub : sub ∈ S.owned) (hlinks : links ∈ S.owned)
    (hs : Scheduled S lease retry due member) (done : Bytes) (acks : List (Path × Bytes)) :
    Accepts S Reply.Refused (applyAcks sub links lease retry due member nowNs leaseTtlMs done acks :
      Script ν Reply) := by
  refine .bind (.each fun a _ => ackLink_within hlinks a) fun _ => ?_
  split
  · exact .bind (set_within hsub _) fun _ => .bind hs.lease.zrem fun _ =>
      .bind hs.retry.zrem fun _ => .bind hs.due.zrem fun _ => accepts rfl
  · exact .bind (leaseUntil_within _ _) fun _ => .bind (set_within hsub _) fun _ =>
      .bind (hs.lease.zadd _) fun _ => accepts rfl

theorem ack_careful (hslot : S.Readable slot) (hcfg : S.Readable cfg) (hsub : sub ∈ S.owned)
    (hlinks : links ∈ S.owned) (hs : Scheduled S lease retry due member)
    (reqGen reqWake tokenGen done : Bytes) (acks : List (Path × Bytes))
    (replicaId expectedEpoch : Bytes) :
    Cautious ν S (ack sub links lease retry due cfg slot member reqGen reqWake tokenGen
      done nowNs leaseTtlMs acks replicaId expectedEpoch) := by
  refine owned_careful hslot ?_
  refine .look (.existsKey (.inl hsub)) fun there => .look (.existsKey hcfg) fun cfgThere => ?_
  split
  · exact .pure _
  refine .look (get_looks hcfg _) fun cfgInc => reads hsub fun shardInc => ?_
  split
  · exact .pure _
  refine reads hsub fun gen => reads hsub fun wake => ?_
  split
  · exact .pure _
  refine .look (heartbeats_looks (.inl hsub) hcfg _ _) fun beats => ?_
  split
  · exact .pure _
  · exact (applyAcks_accepts hsub hlinks hs _ _).careful

theorem expireLease_careful (hslot : S.Readable slot) (hsub : sub ∈ S.owned)
    (hs : Scheduled S lease retry due id) (replicaId expectedEpoch : Bytes) :
    Cautious ν S (expireLease sub lease due slot id nowNs replicaId expectedEpoch) := by
  refine owned_careful hslot (present_careful (.inl hsub) ?_)
  refine reads hsub fun _ => reads hsub fun phase =>
    .look (isLapsed_looks _ _ _) fun lapsed => ?_
  split
  · exact (Accepts.bind (set_within hsub _) fun _ => .bind hs.lease.zrem fun _ =>
      .bind (.ofOption _) fun _ => .bind (hs.due.zadd _) fun _ => accepts rfl).careful
  · exact .pure _

theorem restoreLease_careful (hsub : S.Readable sub) (hs : Scheduled S lease retry due id)
    (owed : Bytes) : Cautious ν S (restoreLease sub lease due id nowNs owed) := by
  refine present_careful hsub ?_
  refine .look (get_looks hsub _) fun phase => .look (get_looks hsub _) fun _ => ?_
  split
  · refine (Accepts.bind (hs.lease.zadd _) fun _ => ?_).careful
    split
    · exact .bind (.ofOption _) fun _ => .bind (hs.due.zadd _) fun _ => accepts rfl
    · exact accepts rfl
  · exact .pure _

theorem scheduleRetry_careful (hslot : S.Readable slot) (hsub : sub ∈ S.owned)
    (hid : Scored S retry id)
    (nextAttemptNs generation wakeId replicaId expectedEpoch : Bytes) :
    Cautious ν S (scheduleRetry sub retry slot id nowNs nextAttemptNs generation wakeId
      replicaId expectedEpoch) := by
  refine owned_careful hslot (present_careful (.inl hsub)
    (reads hsub fun gen => reads hsub fun wake => ?_))
  split
  · exact .pure _
  · exact (Accepts.bind (.hincr hsub _) fun _ => .bind (firstFailure_within hsub) fun _ =>
      .bind (set_within hsub _) fun _ => .bind (.ofOption _) fun _ =>
      .bind (hid.zadd _) fun _ => .bind (get_within (.inl hsub) _) fun _ => accepts rfl).careful

end Scope

section Requests

inductive Request where
  | armWake (id nowNs leaseTtlMs armLease newWakeId : Bytes) (owner : OwnerScope)
  | claim (id : Bytes) (g : ℕ) (worker nowNs leaseTtlMs newWakeId : Bytes) (x : Expectation)
  | ack (id : Bytes) (g : ℕ) (reqGen reqWake tokenGen done nowNs leaseTtlMs : Bytes)
      (acks : List (Path × Bytes)) (owner : OwnerScope)
  | release (id reqGen reqWake tokenGen : Bytes) (owner : OwnerScope)
  | expireLease (id nowNs : Bytes) (owner : OwnerScope)
  | restoreLease (id nowNs owed : Bytes)
  | scheduleRetry (id nowNs nextAttemptNs generation wakeId : Bytes) (owner : OwnerScope)
  | recordSuccess (id generation wakeId : Bytes) (owner : OwnerScope)
  | linkStream (id path linkType offset : Bytes) (x : Option Expectation)
  | unlinkStream (id path stillGlob : Bytes) (x : Option Expectation)
  | deleteSub (id : Bytes) (x : Option Expectation)

namespace Request

def id : Request → Bytes
  | armWake id .. | claim id .. | ack id .. | release id .. | expireLease id ..
  | restoreLease id .. | scheduleRetry id .. | recordSuccess id .. | linkStream id ..
  | unlinkStream id .. | deleteSub id .. => id

/-- The members of the schedules that a request may change: those of the id or of the shard, and
for a deletion those of all shards. -/
def Names (r : Request) (member : Bytes) : Prop :=
  match r with
  | claim id g .. | ack id g .. => member = shardMember id g
  | deleteSub id .. => member = id ∨ ∃ g, member = id ++ shardSuffix ++ g
  | r => member = r.id

def run {ν : Type} [Number ν] (r : Request) : Script ν Reply :=
  let sub := subKey r.id
  let links := linksKey r.id
  let lease := leaseZKey (slotOf r.id)
  let retry := retryZKey (slotOf r.id)
  let due := dueZKey (slotOf r.id)
  let slot := slotKey (slotOf r.id)
  match r with
  | armWake id nowNs leaseTtlMs armLease newWakeId owner =>
    Commands.armWake sub lease due slot id nowNs leaseTtlMs armLease newWakeId owner.replicaId
      owner.expectedEpoch
  | claim id g worker nowNs leaseTtlMs newWakeId x =>
    Commands.claim sub (subShardKey id g) lease (subIncarnationKey id) (subShardRegistryKey id)
      links (shardMember id g) worker nowNs leaseTtlMs newWakeId (Decimal.formatNat g) x
  | ack id g reqGen reqWake tokenGen done nowNs leaseTtlMs acks owner =>
    Commands.ack (subShardKey id g) links lease retry due sub slot (shardMember id g) reqGen reqWake
      tokenGen done nowNs leaseTtlMs acks owner.replicaId owner.expectedEpoch
  | release id reqGen reqWake tokenGen owner =>
    Commands.release sub lease retry due slot id reqGen reqWake tokenGen owner.replicaId
      owner.expectedEpoch
  | expireLease id nowNs owner =>
    Commands.expireLease sub lease due slot id nowNs owner.replicaId owner.expectedEpoch
  | restoreLease id nowNs owed => Commands.restoreLease sub lease due id nowNs owed
  | scheduleRetry id nowNs nextAttemptNs generation wakeId owner =>
    Commands.scheduleRetry sub retry slot id nowNs nextAttemptNs generation wakeId owner.replicaId
      owner.expectedEpoch
  | recordSuccess id generation wakeId owner =>
    Commands.recordSuccess sub retry slot id generation wakeId owner.replicaId owner.expectedEpoch
  | linkStream _ path linkType offset x => Commands.linkStream sub links path linkType offset x
  | unlinkStream _ path stillGlob x => Commands.unlinkStream sub links path stillGlob x
  | deleteSub id x =>
    Commands.deleteSub sub (subsKey (slotOf id)) links lease retry due (subShardRegistryKey id) id x

end Request

/-- A key of a subscription: its hash, the hash of a shard, its links, the registry of its shards,
or the counter of its incarnations. -/
def KeyOf (id k : Bytes) : Prop :=
  k = subKey id ∨ (∃ g, k = subKey id ++ shardSuffix ++ g) ∨ k = linksKey id ∨
    k = subShardRegistryKey id ∨ k = subIncarnationKey id

def schedules (h : ℕ) : List Bytes := [leaseZKey h, retryZKey h, dueZKey h]

def Request.footprint (r : Request) : Footprint where
  owned := {k | KeyOf r.id k}
  shared k := {x | k ∈ schedules (slotOf r.id) ∧ r.Names x ∨ k = subsKey (slotOf r.id) ∧ x = r.id}

/-- No key of a subscription is a key of its slot. -/
theorem KeyOf.notMem_slotKeys {id k : Bytes} (h : KeyOf id k) (n : ℕ) : k ∉ slotKeys n := by
  rcases h with rfl | ⟨g, rfl⟩ | rfl | rfl | rfl
  · rw [← List.append_nil (subKey id)]
    exact subKey_append_notMem id [] n
  · rw [List.append_assoc]
    exact subKey_append_notMem id _ n
  all_goals exact subKey_append_notMem id _ n

/-- The sets of ids in a slot: its subscriptions, and the fan-out of each stream. -/
def listings (h : ℕ) : Set Bytes := {subsKey h} ∪ Set.range (streamSubsKey h)

/-- What is shared in a slot is told apart by what comes after its tag. -/
theorem listings_notMem_schedules {h h' : ℕ} {k : Bytes} (hk : k ∈ listings h) :
    k ∉ schedules h' := by
  obtain ⟨a, rfl, ha⟩ : ∃ a : Bytes, k = slotHome h ++ a ∧ a.take 2 = Bytes.ascii ":s" ∧
      a.take 4 ≠ Bytes.ascii ":sch" := by
    obtain rfl | ⟨path, rfl⟩ := hk
    · exact ⟨_, rfl, by decide⟩
    · exact ⟨_, List.append_assoc .., rfl, fun heq => by cases heq⟩
  have hne : ∀ b : Bytes, ¬ (b.take 2 = Bytes.ascii ":s" ∧ b.take 4 ≠ Bytes.ascii ":sch") →
      slotHome h ++ a ≠ slotHome h' ++ b := by
    rintro b hb heq
    exact hb (slotHome_append_inj heq ▸ ha)
  simp only [schedules, List.mem_cons, List.not_mem_nil, or_false, not_or]
  exact ⟨hne _ (by decide), hne _ (by decide), hne _ (by decide)⟩

theorem slotKey_notMem (n n' : ℕ) : slotKey n ∉ schedules n' ∧ slotKey n ∉ listings n' := by
  have hne : ∀ b : Bytes, b.take 2 ≠ Bytes.ascii ":o" → slotKey n ≠ slotHome n' ++ b := by
    intro b hb heq
    rw [slotKey, List.append_assoc] at heq
    apply hb
    rw [← slotHome_append_inj heq]
    rfl
  simp only [schedules, List.mem_cons, List.not_mem_nil, or_false, not_or]
  refine ⟨⟨hne _ (by decide), hne _ (by decide), hne _ (by decide)⟩, ?_⟩
  rintro (heq | ⟨path, heq⟩)
  · exact hne _ (by decide) heq
  · exact hne (Bytes.ascii ":stream:" ++ path) (fun heq => by cases heq)
      (heq.symm.trans (List.append_assoc ..))

theorem mem_slotKeys_of_schedules {h : ℕ} {k : Bytes} (hk : k ∈ schedules h) : k ∈ slotKeys h := by
  simp only [schedules, List.mem_cons, List.not_mem_nil, or_false] at hk
  rcases hk with rfl | rfl | rfl <;> simp [slotKeys]

theorem mem_slotKeys_of_listings {h : ℕ} {k : Bytes} (hk : k ∈ listings h) : k ∈ slotKeys h :=
  hk.imp_left .inl

section Shards

-- the shards that a registry can list
variable (listed : Bytes → Prop)

/-- A key of a subscription of which the registry lists some shards. -/
def KeyIn (id k : Bytes) : Prop :=
  k = subKey id ∨ (∃ g, listed g ∧ k = subKey id ++ shardSuffix ++ g) ∨ k = linksKey id ∨
    k = subShardRegistryKey id ∨ k = subIncarnationKey id

/-- A member in the schedules of a subscription of which the registry lists some shards. -/
def MemberIn (id member : Bytes) : Prop :=
  member = id ∨ ∃ g, listed g ∧ member = id ++ shardSuffix ++ g

variable {listed} {id k : Bytes}

theorem KeyIn.keyOf (h : KeyIn listed id k) : KeyOf id k :=
  h.imp_right (.imp_left fun ⟨g, _, hk⟩ => ⟨g, hk⟩)

variable (listed)

structure SlotFootprint extends Footprint where
  owned_slot : ∀ k ∈ owned, ∀ h, k ∉ slotKeys h

/-- What a script may touch that runs in a slot: keys of its own, some entries of the schedules and
of the set of ids, and the ownership of the slot. -/
def slotScope (slot : ℕ) (F : SlotFootprint) : Scope where
  toFootprint := F.toFootprint
  reads := {slotKey slot}
  scored := {k | ∃ h, k ∈ schedules h}
  listed := {k | ∃ h, k ∈ listings h}
  holds k x := (∃ id, k = subShardRegistryKey id) → listed x
  owned_scored k hk := fun ⟨h, hs⟩ => F.owned_slot k hk h (mem_slotKeys_of_schedules hs)
  owned_listed k hk := fun ⟨h, hl⟩ => F.owned_slot k hk h (mem_slotKeys_of_listings hl)
  scored_listed _ := fun ⟨_, hs⟩ ⟨_, hl⟩ => listings_notMem_schedules hl hs

/-- What a script for a subscription may touch, where the members of the schedules that it may
change are given, and the sets in which it may enter or remove the id. -/
def subScope (id : Bytes) (names : Bytes → Prop) (lists : Set Bytes) : Scope :=
  slotScope listed (slotOf id)
    { owned := {k | KeyIn listed id k}
      shared k := {x | k ∈ schedules (slotOf id) ∧ names x ∧ MemberIn listed id x ∨
        k ∈ lists ∧ x = id}
      owned_slot := fun _ hk h => hk.keyOf.notMem_slotKeys h }

def Request.scope (r : Request) : Scope := subScope listed r.id r.Names {subsKey (slotOf r.id)}

theorem Request.scheduled (r : Request) {x : Bytes} (h : r.Names x) (hx : MemberIn listed r.id x) :
    Scheduled (r.scope listed) (leaseZKey (slotOf r.id)) (retryZKey (slotOf r.id))
      (dueZKey (slotOf r.id)) x := by
  have hscored : ∀ k ∈ schedules (slotOf r.id), Scored (r.scope listed) k x :=
    fun k hk => ⟨⟨_, hk⟩, .inl ⟨hk, h, hx⟩⟩
  exact ⟨hscored _ (by simp [schedules]), hscored _ (by simp [schedules]),
    hscored _ (by simp [schedules])⟩

variable {listed}

theorem subShardKey_zero (id : Bytes) : subShardKey id 0 = subKey id := rfl

theorem keyIn_subShardKey (hlisted : ∀ g > 0, listed (Decimal.formatNat g)) (id : Bytes) (g : ℕ) :
    KeyIn listed id (subShardKey id g) := by
  unfold subShardKey
  split
  · exact .inl rfl
  · exact .inr (.inl ⟨_, hlisted g (by omega), rfl⟩)

theorem memberIn_shardMember (hlisted : ∀ g > 0, listed (Decimal.formatNat g)) (id : Bytes)
    (g : ℕ) : MemberIn listed id (shardMember id g) := by
  unfold shardMember
  split
  · exact .inl rfl
  · exact .inr ⟨_, hlisted g (by omega), rfl⟩

theorem listed_of_ne (hlisted : ∀ g > 0, listed (Decimal.formatNat g)) {id : Bytes} {g : ℕ}
    (h : subKey id ≠ subShardKey id g) : listed (Decimal.formatNat g) :=
  hlisted g (Nat.pos_of_ne_zero fun hg => h (by rw [hg, subShardKey_zero]))

variable {ν : Type} [Number ν]

theorem Request.run_careful (hlisted : ∀ g > 0, listed (Decimal.formatNat g)) (r : Request) :
    Careful (r.scope listed) Reply.Refused (r.run : Script ν Reply) := by
  have hslot : (r.scope listed).Readable (slotKey (slotOf r.id)) := .inr rfl
  have hsub : subKey r.id ∈ (r.scope listed).owned := .inl rfl
  have hlinks : linksKey r.id ∈ (r.scope listed).owned := .inr (.inr (.inl rfl))
  have hregistry : subShardRegistryKey r.id ∈ (r.scope listed).owned :=
    .inr (.inr (.inr (.inl rfl)))
  have hcounter : subIncarnationKey r.id ∈ (r.scope listed).owned := .inr (.inr (.inr (.inr rfl)))
  have hshard : ∀ g, subShardKey r.id g ∈ (r.scope listed).owned := keyIn_subShardKey hlisted r.id
  have hnames := @Request.scheduled listed r
  have hbare : MemberIn listed r.id r.id := .inl rfl
  have hmember := memberIn_shardMember hlisted r.id
  cases r with
  | armWake => exact armWake_careful hslot hsub (hnames rfl hbare) _ _ _ _
  | claim id g =>
    exact claim_careful hsub (hshard _) hcounter hregistry
      (fun hne _ => listed_of_ne hlisted hne) (hnames rfl (hmember g)).lease (.inl hlinks) _ _ _
  | ack id g =>
    exact ack_careful hslot (.inl hsub) (hshard _) hlinks (hnames rfl (hmember g)) _ _ _ _ _ _ _
  | release => exact release_careful hslot hsub (hnames rfl hbare) _ _ _ _ _
  | expireLease => exact expireLease_careful hslot hsub (hnames rfl hbare) _ _
  | restoreLease => exact restoreLease_careful (.inl hsub) (hnames rfl hbare) _
  | scheduleRetry => exact scheduleRetry_careful hslot hsub (hnames rfl hbare).retry _ _ _ _ _
  | recordSuccess => exact recordSuccess_careful hslot hsub (hnames rfl hbare).retry _ _ _ _
  | linkStream => exact linkStream_careful (.inl hsub) hlinks _ _ _ _
  | unlinkStream => exact unlinkStream_careful (.inl hsub) hlinks _ _ _
  | deleteSub id x =>
    exact deleteSub_careful hsub hlinks hregistry
      (fun g hg => .inr (.inl ⟨g, hg ⟨id, rfl⟩, rfl⟩)) ⟨_, .inl rfl⟩ (.inr ⟨rfl, rfl⟩)
      (hnames (.inl rfl) hbare)
      (fun g hg => hnames (.inr ⟨g, rfl⟩) (.inr ⟨g, hg ⟨id, rfl⟩, rfl⟩)) x

end Shards

variable [Number ν]

/-- Whatever the registry lists, a request stays within its footprint. -/
theorem Request.run_keeps (r : Request) : Keeps r.footprint (r.run : Script ν Reply) := by
  intro db
  have hdb : (r.scope fun _ => True).Holds db := fun _ _ _ _ _ _ => trivial
  have hallows := ((r.run_careful fun _ _ => trivial).within.respects hdb).allows
  refine hallows.mono (fun k hk => hk.keyOf) fun k x hx => ?_
  exact hx.imp_left (And.imp_right And.left)

/-- A script that turns a request down has changed no key. Whatever it answers, it has changed only
keys of the subscription that the request names, and in the schedules and the set of ids of the slot
only entries of that subscription or of that shard. -/
theorem refused_inert (r : Request) (db : Db ν) :
    (∀ reply, (r.run db).2 = some reply → reply.status.refused = true → (r.run db).1 = db) ∧
    (∀ k, ¬ KeyOf r.id k → k ∉ schedules (slotOf r.id) → k ≠ subsKey (slotOf r.id) →
      (r.run db).1 k = db k) ∧
    (∀ k ∈ schedules (slotOf r.id), ∀ x, ¬ r.Names x →
      Value.entry ((r.run db).1 k) x = Value.entry (db k) x) ∧
    ∀ x, x ≠ r.id → Value.entry ((r.run db).1 (subsKey (slotOf r.id))) x =
      Value.entry (db (subsKey (slotOf r.id))) x := by
  have hallows := r.run_keeps db
  have hslot : ∀ k ∈ slotKeys (slotOf r.id), k ∉ r.footprint.owned :=
    fun k hk hkey => hkey.notMem_slotKeys _ hk
  have hcareful : Careful (r.scope fun _ => True) Reply.Refused (r.run : Script ν Reply) :=
    r.run_careful fun _ _ => trivial
  refine ⟨fun reply hreply href => hcareful.inert db reply hreply href, ?_, ?_, ?_⟩
  · intro k hkey hsched hsubs
    refine hallows.key k hkey ?_
    simp [Request.footprint, hsched, hsubs]
  · intro k hk x hx
    refine hallows.entry k (hslot k (mem_slotKeys_of_schedules hk)) x ?_
    rintro (⟨-, hnames⟩ | ⟨rfl, -⟩)
    · exact hx hnames
    · exact listings_notMem_schedules (.inl rfl) hk
  · intro x hx
    refine hallows.entry _ (hslot _ (by simp [slotKeys])) x ?_
    rintro (⟨hmem, -⟩ | ⟨-, rfl⟩)
    · exact listings_notMem_schedules (.inl rfl) hmem
    · exact hx rfl

def heldDb : Db ℤ := fun k =>
  if k = subKey [97] then
    some (.hash (List.toFinmap [⟨Field.phase.name, phaseName .live⟩, ⟨Field.holder.name, one⟩,
      ⟨Field.leaseUntilNs.name, [57]⟩, ⟨Field.incarnation.name, one⟩]))
  else none

def lateClaim : Request :=
  .claim [97] 0 [98] [53] one [50] { owner := [], incarnation := one, cfgHash := [], paths := [] }

theorem refused_inert_held :
    (lateClaim.run heldDb).2 = some ⟨.busy, [none, some [], none]⟩ ∧
      (lateClaim.run heldDb).1 = heldDb := by
  have hbusy : (lateClaim.run heldDb).2 = some ⟨.busy, [none, some [], none]⟩ := by decide
  exact ⟨hbusy, (refused_inert lateClaim heldDb).1 _ hbusy rfl⟩

end Requests

end Chronicle.Webhook.Commands
