import Chronicle.Lib.Hashes
import Chronicle.Webhook.Refusals

/-! # The records behind the keys

The scripts on the keyspace do to the hashes of a subscription what the scripts
on records do to its links and to the fence of a shard: those that link and
unlink a stream, move the cursors of an acknowledgement, release a claim and
record a delivery, where no expectation and no epoch of an owner is checked.
-/

namespace Chronicle.Webhook.Commands

open Keyspace

section Links

/-- A key holds the hash of these links. -/
def Linked (S : Scope) (k : Bytes) (l : Links) : Db ℤ → Prop :=
  Contains S k fun m => ∀ p, m.lookup p = (LinkHash.ofLinks l).value p

variable {S : Scope} {k : Bytes}

theorem link_takes (l : Links) (p : Path) (link : Link) :
    Takes (Linked S k l) (hset k [(p, link.linkType.name ++ 58 :: link.offset)])
      (Linked S k (l.insert p link)) () := by
  refine hset_takes fun m hm q => ?_
  by_cases hq : q = p
  · subst hq
    simp [LinkHash.ofLinks]
  · simpa [hq, LinkHash.ofLinks, Finmap.lookup_insert_of_ne] using hm q

theorem unlink_takes (l : Links) (p : Path) :
    Takes (Linked S k l) (hdel k p) (Linked S k (l.erase p)) () := by
  refine hdel_takes fun m hm q => ?_
  by_cases hq : q = p
  · subst hq
    simp [LinkHash.ofLinks]
  · simpa [hq, LinkHash.ofLinks, Finmap.lookup_erase_ne] using hm q

theorem ackLink_takes (l : Links) (a : Path × Bytes) :
    Takes (Linked S k l) (ackLink k a) (Linked S k (Sub.ackLink l a)) () := by
  refine .bind (hget_takes fun m hm => hm a.1) ?_
  unfold Sub.ackLink
  cases hl : l.lookup a.1 with
  | none =>
    rw [LinkHash.value_ofLinks_none.mpr hl]
    exact takes_pure ()
  | some link =>
    rw [LinkHash.value_ofLinks hl]
    dsimp only
    rw [splitLink_join]
    refine .bind (takes_pure _) ?_
    dsimp only
    split
    · exact link_takes l a.1 { link with offset := a.2 }
    · exact takes_pure ()

/-- The acknowledgements of a request move the same cursors. -/
theorem acks_take (l : Links) (acks : List (Path × Bytes)) :
    Takes (Linked S k l) (each (ackLink k) acks) (Linked S k (acks.foldl Sub.ackLink l)) () := by
  induction acks generalizing l with
  | nil => exact takes_pure ()
  | cons a acks ih => exact .bind (ackLink_takes l a) (ih _)

def LinkReply.status : Sub.LinkReply → Status
  | .linked => .linked
  | .upgraded => .upgraded
  | .exists => .exists
  | .forbidden => .forbidden
  | .noSub => .noSub

theorem ifMatched_none (sub : Bytes) (n : Script ℤ Reply) :
    ifMatched (authorized sub k none) n = n := rfl

/-- Linking a stream changes the hash of the links as it changes the links, and answers the same. -/
theorem linkStream_takes (s : Sub) (sub : Bytes) (a : Sub.LinkArgs) (ha : a.expected = none) :
    Takes (Linked S k s.links) (linkStream sub k a.path a.linkType.name a.offset a.expected)
      (Linked S k (s.linkStream a).1.links) ⟨LinkReply.status (s.linkStream a).2, []⟩ := by
  rw [Sub.linkStream, linkStream, ha, ifMatched_none, Sub.authorize]
  refine .bind (hget_takes fun m hm => hm a.path) ?_
  cases hl : s.links.lookup a.path with
  | none =>
    rw [LinkHash.value_ofLinks_none.mpr hl]
    exact .bind (link_takes s.links a.path ⟨a.linkType, a.offset⟩) (takes_pure _)
  | some cur =>
    rw [LinkHash.value_ofLinks hl]
    simp only [LinkType.name_injective.eq_iff, splitLink_join]
    split
    · exact .bind (takes_pure _) (.bind
        (link_takes s.links a.path { cur with linkType := .explicit }) (takes_pure _))
    · exact takes_pure _

def UnlinkReply.status : Sub.UnlinkReply → Status
  | .removed => .removed
  | .glob => .glob
  | .gone => .gone
  | .forbidden => .forbidden
  | .noSub => .noSub

theorem unlinkStream_takes (s : Sub) (sub : Bytes) (a : Sub.UnlinkArgs) (ha : a.expected = none) :
    Takes (Linked S k s.links)
      (unlinkStream sub k a.path (bif a.stillGlob then one else zero) a.expected)
      (Linked S k (s.unlinkStream a).1.links) ⟨UnlinkReply.status (s.unlinkStream a).2, []⟩ := by
  rw [Sub.unlinkStream, unlinkStream, ha, ifMatched_none, Sub.authorize]
  refine .bind (hget_takes fun m hm => hm a.path) ?_
  cases hl : s.links.lookup a.path with
  | none =>
    rw [LinkHash.value_ofLinks_none.mpr hl]
    exact takes_pure _
  | some cur =>
    rw [LinkHash.value_ofLinks hl]
    cases a.stillGlob with
    | true =>
      simp only [splitLink_join]
      exact .bind (takes_pure _) (.bind
        (link_takes s.links a.path { cur with linkType := .glob }) (takes_pure _))
    | false => exact .bind (unlink_takes s.links a.path) (takes_pure _)

end Links

section Fence

open Decimal

def statusName : Webhook.Status → Bytes
  | .active => Bytes.ascii "active"
  | .failed => Bytes.ascii "failed"

/-- What a field of a hash is for a fence. -/
def stored (f : Fence) : Field → Option Bytes
  | .incarnation => some f.incarnation
  | .phase => some (phaseName f.phase)
  | .generation => some (formatInt f.generation)
  | .wakeId => some f.wakeId
  | .holder => some (bif f.holder then one else zero)
  | .holderWorker => some f.holderWorker
  | .leaseUntilNs => some (formatInt f.leaseUntilNs)
  | .status => some (statusName f.status)
  | .retryCount => some (formatInt f.retryCount)
  | .firstFailNs => some (formatInt f.firstFailNs)
  | .nextAttemptNs => some (formatInt f.nextAttemptNs)
  | .wakeEventSentNs => some (formatInt f.wakeEventSentNs)
  | _ => none

/-- The fields that a hash may lack as long as they have their defaults. -/
def Field.booked : Field → Bool
  | .incarnation | .status | .retryCount | .firstFailNs | .nextAttemptNs | .wakeEventSentNs => true
  | _ => false

def Stores (v : Field → Option Bytes) (m : Finmap fun _ : Bytes => Bytes) : Prop :=
  ∀ x w, v x = some w →
    m.lookup x.name = some w ∨ m.lookup x.name = none ∧ x.booked ∧ stored {} x = some w

-- what a creation writes
example : Stores (stored { incarnation := one }) ((idleFields ++ activeFields ++
    [(Field.incarnation, one), (Field.generation, zero)]).foldl (fun m (p : Field × Bytes) =>
      m.insert p.1.name p.2) ∅) := by
  intro x w hw
  cases x <;> first | (cases hw; done) | (cases hw; decide)

def written (fields : List (Field × Bytes)) (v : Field → Option Bytes) : Field → Option Bytes :=
  fields.foldl (fun v p => Function.update v p.1 (some p.2)) v

abbrev Shows (S : Scope) (k : Bytes) (f : Fence) : Db ℤ → Prop :=
  Contains S k (Stores (stored f))

/-- The key of a fence; a fence that is not there has no key. -/
def Holds (S : Scope) (k : Bytes) (o : Option Fence) (db : Db ℤ) : Prop :=
  match o with
  | none => db k = none
  | some f => Shows S k f db

theorem Field.name_injective : Function.Injective Field.name := by
  intro a b h
  cases a <;> cases b <;> first | rfl | exact absurd h (by decide)

variable {f : Fence} {v : Field → Option Bytes} {m : Finmap fun _ : Bytes => Bytes}
  {fields : List (Field × Bytes)} {S : Scope} {k : Bytes}
  {s s' : Sub} {g : ℕ} {n : Script ℤ Reply} {r : Reply}

theorem Stores.insert (h : Stores v m) (x : Field) (w : Bytes) :
    Stores (Function.update v x (some w)) (m.insert x.name w) := by
  intro y u hy
  by_cases hyx : y = x
  · subst hyx
    rw [Function.update_self] at hy
    exact .inl (by rw [Finmap.lookup_insert, hy])
  · rw [Function.update_of_ne hyx] at hy
    rw [Finmap.lookup_insert_of_ne _ (Field.name_injective.ne hyx)]
    exact h y u hy

theorem Stores.set (h : Stores v m) :
    Stores (written fields v)
      ((fields.map fun (f, v) => (f.name, v)).foldl (fun m (x, v) => m.insert x v) m) := by
  induction fields generalizing v m with
  | nil => exact h
  | cons p fields ih => exact ih (h.insert p.1 p.2)

/-- A write leaves the fence that has the fields written and otherwise those of before. -/
theorem set_takes {f' : Fence} (hf : stored f' = written fields (stored f)) :
    Takes (Shows S k f) (set k fields) (Shows S k f') () :=
  hset_takes fun _ hm => hf ▸ hm.set

theorem get_takes (x : Field) {v : Bytes} (hv : stored f x = some v) (hx : x.booked = false) :
    Takes (Shows S k f) (get k x) (Shows S k f) (some v) :=
  hget_takes fun m hm => (hm x v hv).resolve_right (by simp [hx])

theorem ifThere_takes (hnone : s.fence g = none → s' = s ∧ r = ⟨.noSub, []⟩)
    (hsome : ∀ f, s.fence g = some f → Takes (Shows S k f) n (Holds S k (s'.fence g)) r) :
    Takes (Holds S k (s.fence g)) (ifThere k n) (Holds S k (s'.fence g)) r := by
  cases hf : s.fence g with
  | none =>
    rcases hnone hf with ⟨rfl, rfl⟩
    intro db hdb
    rw [hf]
    refine ⟨db, ?_, hdb⟩
    rw [ifThere, (readOnly_existsKey k).bind_run, existsKey, show db k = none from hdb]
    rfl
  | some f =>
    refine .bind (existsKey_takes fun h => ?_) (hsome f hf)
    rcases h .phase _ rfl with h | ⟨-, h, -⟩ <;> cases h

theorem kept_takes (hf : s.fence g = some f) :
    Takes (Shows S k f) (pure r) (Holds S k (s.fence g)) r := by
  rw [hf]
  exact takes_pure r

theorem wrote_takes {P : Db ℤ → Prop} (hf : s.fence g = some f) (f' : Fence)
    (hs' : s'.fence g = (s.setFence g f').fence g) (h : Takes P n (Shows S k f') r) :
    Takes P n (Holds S k (s'.fence g)) r := by
  rw [hs', Sub.fence_setFence s _ (Sub.parent_isSome hf), if_pos rfl]
  exact h

theorem fenced_eq (f : Fence) (reqGen tokenGen : ℤ) (reqWake : Bytes) :
    fenced (some (formatInt f.generation)) (some f.wakeId) (formatInt reqGen) reqWake
      (formatInt tokenGen) = Webhook.fenced f reqGen reqWake tokenGen := by
  simp [fenced, Webhook.fenced, formatInt_injective.eq_iff]

def AckReply.status : Sub.AckReply → Status
  | .ok => .ok
  | .fenced => .fenced
  | .noSub => .noSub

variable {slot lease retry due : Bytes}

/-- A release changes the hash of a shard as it changes its fence, and answers the same. -/
theorem release_takes (hlease : lease ∈ S.scored) (hretry : retry ∈ S.scored)
    (hdue : due ∈ S.scored) (a : Sub.ReleaseArgs) (id : Bytes)
    (howner : a.scope.owner.expectedEpoch = []) :
    Takes (Holds S k (s.fence a.shard))
      (release k lease retry due slot id (formatInt a.reqGen) a.reqWake (formatInt a.tokenGen)
        a.scope.owner.replicaId a.scope.owner.expectedEpoch)
      (Holds S k ((s.release a).1.fence a.shard))
      ⟨AckReply.status (s.release a).2, []⟩ := by
  have hscope : a.scope.fenced = false := if_pos howner
  rw [howner]
  refine ifThere_takes (fun hf => by simp [Sub.release, hscope, hf, AckReply.status]) fun f hf => ?_
  refine .bind (get_takes .generation rfl rfl) (.bind (get_takes .wakeId rfl rfl) ?_)
  simp only [fenced_eq, Sub.release, hscope, hf, Bool.false_eq_true, if_false]
  split
  · exact kept_takes hf
  · exact wrote_takes hf f.idled rfl <| .bind (set_takes (by funext x; cases x <;> rfl)) <|
      .bind (zrem_takes hlease id) <| .bind (zrem_takes hretry id) <|
      .bind (zrem_takes hdue id) (takes_pure _)

def RecordReply.status : Sub.RecordReply → Status
  | .ok => .ok
  | .stale => .stale
  | .fenced => .fenced
  | .noSub => .noSub

theorem recordSuccess_takes (hretry : retry ∈ S.scored) (a : Sub.SuccessArgs) (id : Bytes)
    (howner : a.scope.owner.expectedEpoch = []) :
    Takes (Holds S k (s.fence a.shard))
      (recordSuccess k retry slot id (formatInt a.generation) a.wakeId a.scope.owner.replicaId
        a.scope.owner.expectedEpoch)
      (Holds S k ((s.recordSuccess a).1.fence a.shard))
      ⟨RecordReply.status (s.recordSuccess a).2, []⟩ := by
  have hscope : a.scope.fenced = false := if_pos howner
  rw [howner]
  refine ifThere_takes (fun hf => by simp [Sub.recordSuccess, hscope, hf, RecordReply.status])
    fun f hf => ?_
  refine .bind (get_takes .generation rfl rfl) (.bind (get_takes .wakeId rfl rfl) ?_)
  simp only [Sub.recordSuccess, hscope, hf, Bool.false_eq_true, if_false, ne_eq, Option.some.injEq,
    formatInt_injective.eq_iff]
  split
  · exact kept_takes hf
  · exact wrote_takes hf f.cleared rfl <| .bind (set_takes (by funext x; cases x <;> rfl)) <|
      .bind (zrem_takes hretry id) (takes_pure _)

theorem recordWakeSent_takes (a : Sub.WakeSentArgs) :
    Takes (Holds S k (s.fence a.shard))
      (recordWakeSent k (formatInt a.nowNs) (formatInt a.generation) a.wakeId)
      (Holds S k ((s.recordWakeSent a).1.fence a.shard))
      ⟨RecordReply.status (s.recordWakeSent a).2, []⟩ := by
  refine ifThere_takes (fun hf => by simp [Sub.recordWakeSent, hf, RecordReply.status])
    fun f hf => ?_
  refine .bind (get_takes .generation rfl rfl) (.bind (get_takes .wakeId rfl rfl) ?_)
  simp only [Sub.recordWakeSent, hf, ne_eq, Option.some.injEq, formatInt_injective.eq_iff]
  split
  · exact kept_takes hf
  · exact wrote_takes hf _ rfl <| .bind (set_takes (by funext x; cases x <;> rfl)) (takes_pure _)

end Fence

end Chronicle.Webhook.Commands
