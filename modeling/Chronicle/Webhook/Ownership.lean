import Chronicle.Webhook.Refusals

/-! # The ownership of a slot

A replica owns a slot at an epoch. Only a transfer to another replica counts the
epoch up, so the owners of a slot form a list, one for each epoch, and a script
that carries the pair of an earlier owner is turned down before it writes.
-/

namespace Chronicle.Webhook.Ownership

open Keyspace Commands

section Scripts

variable {ν : Type} [Number ν]

def leaseExpiryNs : Bytes := Bytes.ascii "lease_expiry_ns"

inductive ClaimStatus where
  | busy
  | renewed
  | claimed
  deriving DecidableEq, Repr

structure SlotClaim where
  status : ClaimStatus
  owner : Option Bytes
  epoch : Option Bytes
  untilNs : Option Bytes
  deriving DecidableEq, Repr

def ClaimStatus.granted : ClaimStatus → Bool
  | .busy => false
  | .renewed | .claimed => true

def isForeign (owner expiry : Option Bytes) (me nowNs : Bytes) : Script ν Bool :=
  if owner ≠ none ∧ owner ≠ some me then do
    let now ← ofOption (Number.tonumber nowNs)
    return Number.lt now (storedLease expiry : ν)
  else return false

def grantedEpoch (slot : Bytes) (owner : Option Bytes) (me : Bytes) : Script ν (Option Bytes) :=
  if owner = some me then get slot .ownerEpoch
  else do
    let epoch ← hincr slot Field.ownerEpoch.name
    return some (Decimal.formatInt epoch)

def claimShard (slot me nowNs slotLeaseTtlMs : Bytes) : Script ν SlotClaim := do
  let owner ← get slot .ownerId
  let expiry ← hget slot leaseExpiryNs
  let foreign ← isForeign (ν := ν) owner expiry me nowNs
  if foreign then
    let epoch ← get slot .ownerEpoch
    return ⟨.busy, owner, epoch, expiry⟩
  else
    let epoch ← grantedEpoch slot owner me
    let untilNs : ν ← Commands.leaseUntil nowNs slotLeaseTtlMs
    hset slot [(Field.ownerId.name, me), (leaseExpiryNs, Number.tostring untilNs)]
    return ⟨if owner = some me then .renewed else .claimed, some me, epoch,
      some (Number.tostring untilNs)⟩

inductive OwnerCheck where
  | unowned
  | fenced
  | owner
  deriving DecidableEq, Repr

omit [Number ν] in
def checkOwner (slot me expectedEpoch : Bytes) : Script ν OwnerCheck := do
  let owner ← get slot .ownerId
  if owner = none then return .unowned
  else
    let epoch ← get slot .ownerEpoch
    return if owner ≠ some me ∨ epoch ≠ some expectedEpoch then .fenced else .owner

end Scripts

section Runs

variable {ν : Type} [Number ν]

/-- A reading of a clock or a duration, as the scripts get it. -/
structure Reading (ν : Type) [Number ν] where
  text : Bytes
  isNumber : (Number.tonumber text : Option ν).isSome

inductive Event where
  | claim (h : ℕ) (me : Bytes) (reply : Option SlotClaim)
  | check (h : ℕ) (me epoch : Bytes) (verdict : Option OwnerCheck)
  | request (r : Request) (reply : Option Commands.Reply)

/-- A replica claims a slot or checks its ownership, or a script runs for a subscription. -/
inductive Step : Db ν → Event → Db ν → Prop where
  | claim {db : Db ν} (h : ℕ) (me : Bytes) (now ttl : Reading ν) :
      Step db (.claim h me (claimShard (slotKey h) me now.text ttl.text db).2)
        (claimShard (slotKey h) me now.text ttl.text db).1
  | check {db : Db ν} (h : ℕ) (me epoch : Bytes) :
      Step db (.check h me epoch (checkOwner (slotKey h) me epoch db).2)
        (checkOwner (slotKey h) me epoch db).1
  | request {db : Db ν} (r : Request) : Step db (.request r (r.run db).2) (r.run db).1

def Event.grant (h : ℕ) : Event → Option (Bytes × Bytes)
  | .claim h' me (some c) => if h' = h ∧ c.status.granted then c.epoch.map (me, ·) else none
  | _ => none

def grants (h : ℕ) (history : List Event) : List (Bytes × Bytes) := history.filterMap (·.grant h)

def ownerEpoch (h : ℕ) (db : Db ν) : ℤ :=
  (((db.fields (slotKey h)).bind (·.lookup Field.ownerEpoch.name)).bind Decimal.parseInt).getD 0

end Runs

section Ledger

variable {ν : Type}

/-- A record of the ownership of a slot that has had these owners, one for each epoch. -/
def Records (owners : List Bytes) (v : Option (Value ν)) : Prop :=
  match owners.getLast? with
  | none => v = none
  | some owner => ∃ f, v = some (.hash f) ∧ f.lookup Field.ownerId.name = some owner ∧
      f.lookup Field.ownerEpoch.name = some (Decimal.formatInt owners.length)

variable {owners : List Bytes} {k : Bytes} {db : Db ν}

theorem Records.fields (h : Records owners (db k)) :
    ∃ f, db.fields k = some f ∧ f.lookup Field.ownerId.name = owners.getLast? ∧
      f.lookup Field.ownerEpoch.name =
        if owners = [] then none else some (Decimal.formatInt owners.length) := by
  unfold Records at h
  split at h
  · rename_i hlast
    refine ⟨∅, by rw [Db.fields, h], ?_, ?_⟩
    · rw [hlast, Finmap.lookup_empty]
    · rw [if_pos (List.getLast?_eq_none_iff.mp hlast), Finmap.lookup_empty]
  · rename_i owner hlast
    obtain ⟨f, hk, hid, hepoch⟩ := h
    refine ⟨f, by rw [Db.fields, hk], by rw [hid, hlast], ?_⟩
    rw [hepoch, if_neg]
    rintro rfl
    cases hlast

theorem records_nil {v : Option (Value ν)} : Records [] v ↔ v = none := Iff.rfl

theorem records_snoc {owner : Bytes} {v : Option (Value ν)} :
    Records (owners ++ [owner]) v ↔ ∃ f, v = some (.hash f) ∧
      f.lookup Field.ownerId.name = some owner ∧
      f.lookup Field.ownerEpoch.name = some (Decimal.formatInt (owners ++ [owner]).length) := by
  unfold Records
  rw [List.getLast?_append_of_ne_nil _ (List.cons_ne_nil owner [])]
  rfl

/-- The lease of an owner is written. -/
theorem lookup_granted (f : Finmap fun _ : Bytes => Bytes) (me untilNs : Bytes) :
    ((f.insert Field.ownerId.name me).insert leaseExpiryNs untilNs).lookup Field.ownerId.name =
        some me ∧
      ((f.insert Field.ownerId.name me).insert leaseExpiryNs untilNs).lookup
        Field.ownerEpoch.name = f.lookup Field.ownerEpoch.name := by
  constructor
  · rw [Finmap.lookup_insert_of_ne _ (by decide), Finmap.lookup_insert]
  · rw [Finmap.lookup_insert_of_ne _ (by decide), Finmap.lookup_insert_of_ne _ (by decide)]

theorem checkOwner_readOnly (slot me epoch : Bytes) :
    ReadOnly (checkOwner slot me epoch : Script ν OwnerCheck) := by
  refine .bind (readOnly_get _ _) fun owner => ?_
  split
  · exact readOnly_pure _
  · exact .bind (readOnly_get _ _) fun _ => readOnly_pure _

variable [Number ν]

inductive Granted (owners : List Bytes) (slot me : Bytes) (db : Db ν) :
    Db ν × Option SlotClaim → Prop where
  | refused {r : Db ν × Option SlotClaim} (hdb : r.1 = db)
      (hr : ∀ c, r.2 = some c → c.status.granted = false) : Granted owners slot me db r
  | renewed {v : Option (Value ν)} {untilNs : Bytes} (hlast : owners.getLast? = some me)
      (hv : Records owners v) :
      Granted owners slot me db (Function.update db slot v,
        some ⟨.renewed, some me, some (Decimal.formatInt owners.length), some untilNs⟩)
  | claimed {v : Option (Value ν)} {untilNs : Bytes} (hlast : owners.getLast? ≠ some me)
      (hv : Records (owners ++ [me]) v) :
      Granted owners slot me db (Function.update db slot v,
        some ⟨.claimed, some me, some (Decimal.formatInt (owners ++ [me]).length), some untilNs⟩)

theorem leaseUntil_run (now ttl : Reading ν) (db : Db ν) :
    ∃ u, Commands.leaseUntil now.text ttl.text db = (db, some u) := by
  obtain ⟨n, hn⟩ := Option.isSome_iff_exists.mp now.isNumber
  obtain ⟨t, ht⟩ := Option.isSome_iff_exists.mp ttl.isNumber
  refine ⟨Number.add n (Number.mul t (Number.ofNat 1000000)), ?_⟩
  simp only [Commands.leaseUntil, hn, ht]
  rfl

theorem isForeign_run (owner expiry : Option Bytes) (me : Bytes) (now : Reading ν) (db : Db ν) :
    ∃ foreign, isForeign owner expiry me now.text db = (db, some foreign) := by
  obtain ⟨n, hn⟩ := Option.isSome_iff_exists.mp now.isNumber
  unfold isForeign
  split
  · refine ⟨Number.lt n (storedLease expiry), ?_⟩
    simp only [hn]
    rfl
  · exact ⟨false, rfl⟩

variable {me : Bytes} (hrec : Records owners (db k)) (now ttl : Reading ν)
include hrec

theorem transfer_granted (hlast : owners.getLast? ≠ some me) :
    Granted owners k me db ((do
      let epoch ← (do
        let epoch ← hincr k Field.ownerEpoch.name
        return some (Decimal.formatInt epoch))
      let untilNs : ν ← Commands.leaseUntil now.text ttl.text
      hset k [(Field.ownerId.name, me), (leaseExpiryNs, Number.tostring untilNs)]
      return ⟨.claimed, some me, epoch, some (Number.tostring untilNs)⟩ : Script ν SlotClaim)
      db) := by
  obtain ⟨f, hf, -, hepoch⟩ := hrec.fields
  have hstored : storedInt (f.lookup Field.ownerEpoch.name) = some (owners.length : ℤ) := by
    rw [hepoch]
    split
    · rename_i hnil
      rw [hnil]
      rfl
    · simp [storedInt]
  have hcount := hincr_run hf hstored
  split at hcount
  · have hlen : ((owners ++ [me]).length : ℤ) = owners.length + 1 := by simp
    rw [← hlen] at hcount
    obtain ⟨u, hu⟩ := leaseUntil_run now ttl (Function.update db k (some (.hash
      (f.insert Field.ownerEpoch.name (Decimal.formatInt (owners ++ [me]).length)))))
    obtain ⟨hid, hnext⟩ := lookup_granted
      (f.insert Field.ownerEpoch.name (Decimal.formatInt (owners ++ [me]).length)) me
      (Number.tostring u)
    rw [Finmap.lookup_insert] at hnext
    rw [bind_run (bind_run hcount _), bind_run hu, bind_run (hset_run (fields_update _ _ _) _),
      Function.update_idem]
    exact .claimed hlast (records_snoc.mpr ⟨_, rfl, hid, hnext⟩)
  · rw [bind_failed (bind_failed hcount _)]
    exact .refused rfl nofun

theorem renewal_granted (hlast : owners.getLast? = some me) :
    Granted owners k me db ((do
      let epoch ← Commands.get k .ownerEpoch
      let untilNs : ν ← Commands.leaseUntil now.text ttl.text
      hset k [(Field.ownerId.name, me), (leaseExpiryNs, Number.tostring untilNs)]
      return ⟨.renewed, some me, epoch, some (Number.tostring untilNs)⟩ : Script ν SlotClaim) db) := by
  obtain ⟨f, hf, -, hepoch⟩ := hrec.fields
  have hne : owners ≠ [] := by
    rintro rfl
    cases hlast
  rw [if_neg hne] at hepoch
  obtain ⟨u, hu⟩ := leaseUntil_run now ttl db
  obtain ⟨hid, hkept⟩ := lookup_granted f me (Number.tostring u)
  rw [get_run hf, hepoch, bind_run hu, bind_run (hset_run hf _)]
  refine .renewed hlast ?_
  unfold Records
  rw [hlast]
  exact ⟨_, rfl, hid, hkept.trans hepoch⟩

theorem claimShard_granted (me : Bytes) :
    Granted owners k me db (claimShard k me now.text ttl.text db) := by
  obtain ⟨f, hf, hid, -⟩ := hrec.fields
  obtain ⟨foreign, hforeign⟩ :=
    isForeign_run owners.getLast? (f.lookup leaseExpiryNs) me now db
  rw [claimShard, get_run hf, hid, hget_run hf, bind_run hforeign]
  cases foreign with
  | true =>
    rw [if_pos rfl, get_run hf]
    refine .refused rfl ?_
    rintro c hc
    cases hc
    rfl
  | false =>
    rw [if_neg Bool.false_ne_true, grantedEpoch]
    by_cases hlast : owners.getLast? = some me
    · rw [if_pos hlast, if_pos hlast]
      exact renewal_granted hrec now ttl hlast
    · rw [if_neg hlast, if_neg hlast]
      exact transfer_granted hrec now ttl hlast

end Ledger

section Refinement

/-- The owners of a slot: a grant renews the last one or adds another one. -/
inductive Advance (h : ℕ) : List Bytes → Event → List Bytes → Prop where
  | keep {owners : List Bytes} {e : Event}
      (he : ∀ me c, e = .claim h me (some c) → c.status.granted = false) : Advance h owners e owners
  | renew {owners : List Bytes} {me : Bytes} {c : SlotClaim} (hlast : owners.getLast? = some me)
      (hc : c.status = .renewed) (hepoch : c.epoch = some (Decimal.formatInt owners.length)) :
      Advance h owners (.claim h me (some c)) owners
  | transfer {owners : List Bytes} {me : Bytes} {c : SlotClaim}
      (hlast : owners.getLast? ≠ some me) (hc : c.status = .claimed)
      (hepoch : c.epoch = some (Decimal.formatInt (owners ++ [me]).length)) :
      Advance h owners (.claim h me (some c)) (owners ++ [me])

variable {ν : Type} [Number ν] {db db' : Db ν} {h : ℕ} {owners : List Bytes} {e : Event}

theorem slotKey_injective {h h' : ℕ} (heq : slotKey h = slotKey h') : h = h' := by
  simp only [slotKey, List.append_assoc] at heq
  exact Decimal.formatNat_injective (List.append_cancel_left (slotHome_append_inj heq))

def keyScope (k : Bytes) : Scope where
  owned := {k}
  shared _ := ∅
  reads := ∅
  scored := ∅
  listed := ∅
  holds _ _ := True
  owned_scored _ _ := id
  owned_listed _ _ := id
  scored_listed _ _ := id

theorem claimShard_within (k me nowNs ttlMs : Bytes) :
    Within (keyScope k) (claimShard k me nowNs ttlMs : Script ν SlotClaim) := by
  have hk : k ∈ (keyScope k).owned := rfl
  unfold claimShard isForeign grantedEpoch
  refine .bind (get_within (.inl hk) _) fun owner => .bind (.hget _ (.inl hk)) fun expiry =>
    .bind ?_ fun foreign => ?_
  · split
    · exact .bind (.ofOption _) fun _ => .pure _
    · exact .pure _
  · split
    · exact .bind (get_within (.inl hk) _) fun _ => .pure _
    · refine .bind ?_ fun _ => .bind (leaseUntil_within _ _) fun _ => .bind (.hset _ hk) fun _ =>
        .pure _
      split
      · exact get_within (.inl hk) _
      · exact .bind (.hincr hk _) fun _ => .pure _

theorem claimShard_of_ne {h' : ℕ} (hne : h' ≠ h) (me nowNs ttlMs : Bytes) :
    (claimShard (slotKey h') me nowNs ttlMs db).1 (slotKey h) = db (slotKey h) := by
  have hdb : (keyScope (slotKey h')).Holds db := fun _ _ _ _ _ => trivial
  have hallows := ((claimShard_within (slotKey h') me nowNs ttlMs).respects hdb).allows
  exact hallows.key _ (fun heq => hne (slotKey_injective heq).symm) rfl

theorem request_slotKey (r : Request) : (r.run db).1 (slotKey h) = db (slotKey h) := by
  refine (r.run_keeps db).key _ ?_ ?_
  · intro hkey
    exact hkey.notMem_slotKeys h (by simp [slotKeys])
  · rw [Set.eq_empty_iff_forall_notMem]
    rintro x (⟨hmem, -⟩ | ⟨heq, -⟩)
    · exact (slotKey_notMem _ _).1 hmem
    · exact (slotKey_notMem _ _).2 (.inl heq)

theorem Step.advance (hstep : Step db e db') (hrec : Records owners (db (slotKey h))) :
    ∃ owners', Advance h owners e owners' ∧ Records owners' (db' (slotKey h)) := by
  cases hstep with
  | claim h' me now ttl =>
    by_cases heq : h' = h
    · subst heq
      have hgranted := claimShard_granted hrec now ttl me
      generalize claimShard (slotKey h') me now.text ttl.text db = r at hgranted
      cases hgranted with
      | refused hdb hr =>
        refine ⟨owners, .keep ?_, hdb ▸ hrec⟩
        intro me' c hc
        simp only [Event.claim.injEq, true_and] at hc
        exact hr c hc.2
      | renewed hlast hv =>
        refine ⟨owners, .renew hlast rfl rfl, ?_⟩
        dsimp only
        rwa [Function.update_self]
      | claimed hlast hv =>
        refine ⟨owners ++ [me], .transfer hlast rfl rfl, ?_⟩
        dsimp only
        rwa [Function.update_self]
    · refine ⟨owners, .keep ?_, ?_⟩
      · intro me' c hc
        simp only [Event.claim.injEq] at hc
        exact absurd hc.1 heq
      · rwa [claimShard_of_ne heq]
  | check h' me epoch =>
    refine ⟨owners, .keep nofun, ?_⟩
    rwa [checkOwner_readOnly]
  | request r =>
    refine ⟨owners, .keep nofun, ?_⟩
    rwa [request_slotKey]

theorem run_advance {db₀ : Db ν} {history : List Event}
    (hrec : Records owners (db₀ (slotKey h))) (hrun : Trace.Run Step db₀ history db) :
    ∃ owners', Trace.Run (Advance h) owners history owners' ∧ Records owners' (db (slotKey h)) := by
  induction hrun with
  | nil => exact ⟨owners, .nil, hrec⟩
  | snoc _ hstep ih =>
    obtain ⟨owners₁, hrun₁, hrec₁⟩ := ih
    obtain ⟨owners₂, hadv, hrec₂⟩ := hstep.advance hrec₁
    exact ⟨owners₂, hrun₁.snoc hadv, hrec₂⟩

end Refinement

section Abstract

variable {h : ℕ} {owners owners' : List Bytes} {history : List Event} {e : Event} {me epoch : Bytes}

theorem Advance.isPrefix (hadv : Advance h owners e owners') : owners <+: owners' := by
  cases hadv with
  | keep | renew => exact List.prefix_rfl
  | transfer => exact List.prefix_append ..

theorem run_isPrefix (hrun : Trace.Run (Advance h) owners history owners') : owners <+: owners' :=
  hrun.invariant List.prefix_rfl fun _ _ _ hprefix hadv => hprefix.trans hadv.isPrefix

def OwnedAt (owners : List Bytes) (me epoch : Bytes) : Prop :=
  ∃ i, owners[i]? = some me ∧ epoch = Decimal.formatInt (i + 1 : ℕ)

theorem OwnedAt.mono (hle : owners <+: owners') (hown : OwnedAt owners me epoch) :
    OwnedAt owners' me epoch := by
  obtain ⟨i, hi, rfl⟩ := hown
  obtain ⟨rest, rfl⟩ := hle
  exact ⟨i, by rw [List.getElem?_append_left (List.getElem?_eq_some_iff.mp hi).1, hi], rfl⟩

theorem ownedAt_last (hlast : owners.getLast? = some me) :
    OwnedAt owners me (Decimal.formatInt owners.length) := by
  have hpos : 0 < owners.length := by
    rw [List.length_pos_iff]
    rintro rfl
    cases hlast
  refine ⟨owners.length - 1, ?_, ?_⟩
  · rwa [← List.getLast?_eq_getElem?]
  · rw [Nat.sub_add_cancel hpos]

theorem OwnedAt.of_snoc {owner : Bytes} (hown : OwnedAt (owners ++ [owner]) me epoch) :
    OwnedAt owners me epoch ∨
      me = owner ∧ epoch = Decimal.formatInt (owners ++ [owner]).length := by
  obtain ⟨i, hi, rfl⟩ := hown
  rw [List.getElem?_append] at hi
  split at hi
  · exact .inl ⟨i, hi, rfl⟩
  · rename_i hge
    have hi' := List.getElem?_eq_some_iff.mp hi
    obtain ⟨hlt, heq⟩ := hi'
    rw [List.length_singleton] at hlt
    have hlen : i = owners.length := by omega
    subst hlen
    refine .inr ⟨by simpa using heq.symm, by simp⟩

theorem grants_granted {c : SlotClaim} (hc : c.status.granted = true)
    (hepoch : c.epoch = some epoch) : grants h [.claim h me (some c)] = [(me, epoch)] := by
  simp [grants, Event.grant, hc, hepoch]

theorem mem_grants_iff (hrun : Trace.Run (Advance h) [] history owners) :
    (me, epoch) ∈ grants h history ↔ OwnedAt owners me epoch := by
  induction hrun with
  | nil =>
    constructor
    · nofun
    · rintro ⟨i, hi, -⟩
      cases hi
  | @snoc history owners owners' e _ hadv ih =>
    rw [grants, List.filterMap_append, List.mem_append, ← grants, ← grants, ih]
    cases hadv with
    | keep he =>
      have hnone : e.grant h = none := by
        unfold Event.grant
        split
        · rename_i h' me c
          rw [if_neg]
          rintro ⟨rfl, hgranted⟩
          rw [he me c rfl] at hgranted
          cases hgranted
        · rfl
      simp [grants, hnone]
    | renew hlast hc hepoch =>
      rw [grants_granted (by rw [hc]; rfl) hepoch, List.mem_singleton, Prod.mk.injEq]
      refine or_iff_left_of_imp ?_
      rintro ⟨rfl, rfl⟩
      exact ownedAt_last hlast
    | transfer hlast hc hepoch =>
      rw [grants_granted (by rw [hc]; rfl) hepoch, List.mem_singleton, Prod.mk.injEq]
      constructor
      · rintro (hown | ⟨rfl, rfl⟩)
        · exact hown.mono (List.prefix_append ..)
        · exact ownedAt_last List.getLast?_concat
      · exact OwnedAt.of_snoc

theorem OwnedAt.unique {me' : Bytes} (hown : OwnedAt owners me epoch)
    (hown' : OwnedAt owners me' epoch) : me' = me := by
  obtain ⟨i, hi, rfl⟩ := hown
  obtain ⟨j, hj, heq⟩ := hown'
  have hij : i = j := by
    have := Decimal.formatInt_injective heq
    omega
  subst hij
  rw [hi, Option.some.injEq] at hj
  exact hj.symm

theorem length_lt_of_claimed {c : SlotClaim} (hc : c.status = .claimed)
    (hrun : Trace.Run (Advance h) owners (.claim h me (some c) :: history) owners') :
    owners.length < owners'.length := by
  obtain ⟨owners₁, hadv, hrest⟩ := hrun.first
  have hprefix := run_isPrefix hrest
  cases hadv with
  | keep he =>
    have hfalse := he me c rfl
    rw [hc] at hfalse
    cases hfalse
  | renew _ hrenewed _ =>
    rw [hc] at hrenewed
    cases hrenewed
  | transfer =>
    have hle := hprefix.length_le
    rw [List.length_append, List.length_singleton] at hle
    omega

end Abstract

section Fence

variable {ν : Type} {db : Db ν} {h : ℕ} {owners : List Bytes} {me epoch : Bytes}

/-- A pair of a replica and an epoch passes one of the checks of ownership. An empty epoch does not
act as an owner. -/
def Passes (h : ℕ) (db : Db ν) (p : Bytes × Bytes) : Prop :=
  p.2 ≠ [] ∧ (Commands.ownerFenced (slotKey h) p.1 p.2 db).2 = some false ∨
    (checkOwner (slotKey h) p.1 p.2 db).2 = some .owner

def ownerOf : Request → Option OwnerScope
  | .armWake _ _ _ _ _ owner | .ack _ _ _ _ _ _ _ _ _ owner | .release _ _ _ _ owner
  | .expireLease _ _ owner | .scheduleRetry _ _ _ _ _ owner | .recordSuccess _ _ _ owner =>
    some owner
  | _ => none

def Current (owners : List Bytes) (me epoch : Bytes) : Prop :=
  owners.getLast? = some me ∧ epoch = Decimal.formatInt owners.length

theorem ownerEpoch_eq (hrec : Records owners (db (slotKey h))) :
    ownerEpoch h db = owners.length := by
  obtain ⟨f, hf, -, hepoch⟩ := hrec.fields
  rw [ownerEpoch, hf, Option.bind_some, hepoch]
  split
  · rename_i hnil
    rw [hnil]
    rfl
  · simp

theorem ownerFenced_run (hrec : Records owners (db (slotKey h))) (hne : epoch ≠ []) :
    ∃ deposed, Commands.ownerFenced (slotKey h) me epoch db = (db, some deposed) ∧
      (deposed = false ↔ Current owners me epoch) := by
  obtain ⟨f, hf, hid, hepoch⟩ := hrec.fields
  rw [Commands.ownerFenced, if_neg hne, get_run hf, hid]
  by_cases hlast : owners.getLast? = some me
  · have hnil : owners ≠ [] := by
      rintro rfl
      cases hlast
    rw [if_neg (not_not_intro hlast), get_run hf, hepoch, if_neg hnil]
    refine ⟨_, rfl, ?_⟩
    rw [Current, @eq_comm _ epoch]
    simp [hlast]
  · rw [if_pos hlast]
    exact ⟨true, rfl, nofun, fun hcur => absurd hcur.1 hlast⟩

theorem checkOwner_run (hrec : Records owners (db (slotKey h))) :
    ∃ verdict, checkOwner (slotKey h) me epoch db = (db, some verdict) ∧
      (verdict = .owner ↔ Current owners me epoch) ∧ (verdict = .unowned → owners = []) := by
  obtain ⟨f, hf, hid, hepoch⟩ := hrec.fields
  rw [checkOwner, get_run hf, hid]
  by_cases hnil : owners = []
  · subst hnil
    exact ⟨.unowned, rfl, ⟨nofun, nofun⟩, fun _ => rfl⟩
  · rw [if_neg (mt List.getLast?_eq_none_iff.mp hnil), get_run hf, hepoch, if_neg hnil]
    refine ⟨_, rfl, ?_⟩
    rw [Current, @eq_comm _ epoch]
    by_cases hcur : owners.getLast? = some me ∧ Decimal.formatInt owners.length = epoch
    · rw [if_neg (by simp [hcur])]
      exact ⟨⟨fun _ => hcur, fun _ => rfl⟩, nofun⟩
    · rw [if_pos (by rwa [Ne, Ne, Option.some.injEq, ← not_and_or])]
      exact ⟨⟨nofun, fun h => absurd h hcur⟩, nofun⟩

theorem Passes.current (hrec : Records owners (db (slotKey h))) {p : Bytes × Bytes}
    (hpass : Passes h db p) : Current owners p.1 p.2 := by
  obtain ⟨hne, hpass⟩ | hpass := hpass
  · obtain ⟨deposed, hrun, hiff⟩ := @ownerFenced_run ν db h owners p.1 p.2 hrec hne
    rw [hrun, Option.some.injEq] at hpass
    exact hiff.mp hpass
  · obtain ⟨verdict, hrun, hiff, -⟩ := @checkOwner_run ν db h owners p.1 p.2 hrec
    rw [hrun, Option.some.injEq] at hpass
    exact hiff.mp hpass

theorem fenced_run {slot : Bytes} (hfenced : Commands.ownerFenced slot me epoch db = (db, some true))
    (m : Script ν Commands.Reply) :
    ((do
      let deposed ← Commands.ownerFenced slot me epoch
      if deposed then return ⟨.fenced, []⟩ else m : Script ν Commands.Reply) db).1 = db := by
  rw [bind_run hfenced]
  rfl

variable [Number ν]

theorem stale_inert (hrec : Records owners (db (slotKey h))) (hne : epoch ≠ [])
    (hstale : ¬ Current owners me epoch) {r : Request} (hslot : slotOf r.id = h)
    (howner : ownerOf r = some ⟨me, epoch⟩) : (r.run db).1 = db := by
  obtain ⟨deposed, hrun, hiff⟩ := @ownerFenced_run ν db h owners me epoch hrec hne
  have hdeposed : deposed = true := by
    cases deposed with
    | false => exact absurd (hiff.mp rfl) hstale
    | true => rfl
  rw [hdeposed, ← hslot] at hrun
  cases r with
  | armWake | ack | release | expireLease | scheduleRetry | recordSuccess =>
    cases howner
    exact fenced_run hrun _
  | claim | restoreLease | linkStream | unlinkStream | deleteSub => cases howner

/-- The epoch of a slot never decreases, and every epoch is granted to exactly one replica. At most
one pair of a replica and an epoch passes the checks, and once a slot was claimed anew no script
that carries an earlier pair changes any key. -/
theorem slot_fence {db₀ db : Db ν} {h : ℕ} {history : List Event} (h₀ : db₀ (slotKey h) = none)
    (hrun : Trace.Run Step db₀ history db) :
    (∀ e db', Step db e db' → ownerEpoch h db ≤ ownerEpoch h db') ∧
    (∀ p ∈ grants h history, ∃ n : ℤ, 1 ≤ n ∧ n ≤ ownerEpoch h db ∧ p.2 = Decimal.formatInt n) ∧
    (∀ n : ℤ, 1 ≤ n → n ≤ ownerEpoch h db →
      ∃! me, (me, Decimal.formatInt n) ∈ grants h history) ∧
    (∀ p q, Passes h db p → Passes h db q → p = q) ∧
    ∀ history₁ me c history₂, history = history₁ ++ .claim h me (some c) :: history₂ →
      c.status = .claimed → ∀ p ∈ grants h history₁,
        (checkOwner (slotKey h) p.1 p.2 db).2 = some .fenced ∧
        ∀ r : Request, slotOf r.id = h → ownerOf r = some ⟨p.1, p.2⟩ → (r.run db).1 = db := by
  obtain ⟨owners, hadv, hrec⟩ := run_advance (records_nil.mpr h₀) hrun
  have hepoch := ownerEpoch_eq hrec
  refine ⟨?_, ?_, ?_, ?_, ?_⟩
  · intro e db' hstep
    obtain ⟨owners', hnext, hrec'⟩ := hstep.advance hrec
    rw [hepoch, ownerEpoch_eq hrec']
    exact_mod_cast hnext.isPrefix.length_le
  · rintro ⟨me, epoch⟩ hmem
    obtain ⟨i, hi, rfl⟩ := (mem_grants_iff hadv).mp hmem
    have hlt := (List.getElem?_eq_some_iff.mp hi).1
    refine ⟨(i + 1 : ℕ), ?_, ?_, rfl⟩ <;> omega
  · intro n hpos hle
    obtain ⟨i, rfl⟩ : ∃ i : ℕ, n = (i + 1 : ℕ) := ⟨(n - 1).toNat, by omega⟩
    have hlt : i < owners.length := by omega
    refine ⟨owners[i], (mem_grants_iff hadv).mpr ⟨i, List.getElem?_eq_getElem hlt, rfl⟩, ?_⟩
    intro me hme
    exact OwnedAt.unique ⟨i, List.getElem?_eq_getElem hlt, rfl⟩ ((mem_grants_iff hadv).mp hme)
  · rintro ⟨me, epoch⟩ ⟨me', epoch'⟩ hpass hpass'
    obtain ⟨hlast, rfl⟩ := hpass.current hrec
    obtain ⟨hlast', rfl⟩ := hpass'.current hrec
    rw [hlast, Option.some.injEq] at hlast'
    exact Prod.ext hlast' rfl
  · rintro history₁ me c history₂ rfl hclaimed ⟨me', epoch⟩ hmem
    obtain ⟨owners₁, hadv₁, hadv₂⟩ := hadv.split
    obtain ⟨i, hi, rfl⟩ := (mem_grants_iff hadv₁).mp hmem
    have hlt := (List.getElem?_eq_some_iff.mp hi).1
    have hlen := length_lt_of_claimed hclaimed hadv₂
    have hstale : ¬ Current owners me' (Decimal.formatInt (i + 1 : ℕ)) := by
      rintro ⟨-, heq⟩
      have := Decimal.formatInt_injective heq
      omega
    refine ⟨?_, fun r hslot howner => stale_inert hrec (Decimal.formatInt_ne_nil _) hstale hslot
      howner⟩
    obtain ⟨verdict, hcheck, hiff, hunowned⟩ := @checkOwner_run ν db h owners me'
      (Decimal.formatInt (i + 1 : ℕ)) hrec
    rw [hcheck]
    cases verdict with
    | owner => exact absurd (hiff.mp rfl) hstale
    | unowned => simp [hunowned rfl] at hlen
    | fenced => rfl

def firstOwner : Db ℤ := (claimShard (slotKey 130) [97] zero one fun _ => none).1

def secondOwner : Db ℤ := (claimShard (slotKey 130) [98] (Bytes.ascii "9000000") one firstOwner).1

def staleExpiry : Request := .expireLease (Bytes.ascii "s") zero ⟨[97], one⟩

theorem slot_fence_deposed :
    slotOf staleExpiry.id = 130 ∧ (staleExpiry.run secondOwner).1 = secondOwner := by
  have hslot : slotOf staleExpiry.id = 130 := by decide +kernel
  have hfirst : Step (fun _ => none) _ firstOwner :=
    .claim 130 [97] (⟨zero, by decide⟩ : Reading ℤ) ⟨one, by decide⟩
  have hsecond : Step firstOwner _ secondOwner :=
    .claim 130 [98] (⟨Bytes.ascii "9000000", by decide⟩ : Reading ℤ) ⟨one, by decide⟩
  have hreply : (claimShard (slotKey 130) [98] (Bytes.ascii "9000000") one firstOwner).2 =
      some ⟨.claimed, some [98], some [50], some (Bytes.ascii "10000000")⟩ := by decide +kernel
  rw [hreply] at hsecond
  have hrun := (Trace.Run.nil.snoc hfirst).snoc hsecond
  refine ⟨hslot, ((slot_fence rfl hrun).2.2.2.2 _ _ _ [] rfl rfl ([97], one) ?_).2 staleExpiry hslot
    rfl⟩
  decide +kernel

end Fence

end Chronicle.Webhook.Ownership
