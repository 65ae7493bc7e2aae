import Chronicle.Webhook.Ownership

/-! # The bridge to the legacy ownership record

During a rollout old replicas claim a slot on a legacy record. A new replica
reserves the legacy record, claims the new one and copies its lease back, in
separate steps. The legacy record keeps two replicas from holding the slot at the
same time, as long as no late copy or deletion hits the live lease of another
replica.
-/

namespace Chronicle.Webhook.Rollout

open Keyspace Commands Ownership

def legacyOwnershipSlotKey (h : ℕ) : Bytes :=
  Bytes.ascii "ds:\x7bownership\x7d:slot:" ++ Decimal.formatNat h

section Scripts

variable {ν : Type} [Number ν]

def reserveLegacySlot (slot me nowNs slotLeaseTtlMs : Bytes) : Script ν SlotClaim := do
  let owner ← Commands.get slot .ownerId
  let epoch ← Commands.get slot .ownerEpoch
  let expiry ← hget slot leaseExpiryNs
  let foreign ← isForeign (ν := ν) owner expiry me nowNs
  if foreign then return ⟨.busy, owner, epoch, expiry⟩
  else
    let untilNs : ν ← Commands.leaseUntil nowNs slotLeaseTtlMs
    let epoch := if epoch = some [] then zero else epoch.getD zero
    hset slot [(Field.ownerId.name, me), (Field.ownerEpoch.name, epoch),
      (leaseExpiryNs, Number.tostring untilNs)]
    return ⟨.renewed, some me, some epoch, some (Number.tostring untilNs)⟩

def mirrorClaim (slot : Bytes) (c : SlotClaim) : Script ν Unit :=
  hset slot [(Field.ownerId.name, c.owner.getD []), (Field.ownerEpoch.name, c.epoch.getD []),
    (leaseExpiryNs, c.untilNs.getD [])]

def parseLeaseUntilNs (v : Option Bytes) : ℤ := (v.bind Decimal.parseInt).getD 0

def probeReservation (slot me : Bytes) (reserved : SlotClaim) : Script ν Bool := do
  let owner ← Commands.get slot .ownerId
  let expiry ← hget slot leaseExpiryNs
  return owner = some me ∧ parseLeaseUntilNs expiry = parseLeaseUntilNs reserved.untilNs

end Scripts

section System

/-- The slot, the common lease and the replicas that run the new code. -/
structure Setup where
  slot : ℕ
  ttlMs : ℤ
  isNew : Bytes → Bool

def Setup.expiry (cfg : Setup) (now : ℤ) : ℤ := now + cfg.ttlMs * 1000000

/-- How far a replica has come in a pass. The clock is read once, at the beginning. -/
inductive Stage where
  | idle
  | begun (now : ℤ)
  | reserved (now : ℤ) (c : SlotClaim)
  | granted (now : ℤ) (c : SlotClaim)
  | refused (c : SlotClaim)
  | probed
  deriving DecidableEq, Repr

structure System where
  db : Db ℤ
  clock : ℤ
  stage : Bytes → Stage

/-- A step of the system: time passes, or a replica takes the next step of a pass. -/
inductive Action where
  | tick (clock : ℤ)
  | start (me : Bytes)
  | reserve (me : Bytes)
  | claim (me : Bytes)
  | mirror (me : Bytes)
  | probe (me : Bytes)
  | delete (me : Bytes)
  | legacyClaim (me : Bytes)
  deriving DecidableEq, Repr

abbrev Lease := Bytes × ℤ

def System.run {α : Type} (s : System) (me : Bytes) (m : Script ℤ α) (next : α → Stage) :
    Option (α × System) :=
  match m s.db with
  | (db, some a) => some (a, { s with db := db, stage := Function.update s.stage me (next a) })
  | (_, none) => none

def leaseOf (me : Bytes) (c : SlotClaim) : Option Lease :=
  if c.status.granted then some (me, parseLeaseUntilNs c.untilNs) else none

variable (cfg : Setup)

def exec (s : System) : Action → Option (Option Lease × System)
  | .tick clock => if s.clock ≤ clock then some (none, { s with clock := clock }) else none
  | .start me =>
    match s.stage me with
    | .idle => some (none, { s with stage := Function.update s.stage me (.begun s.clock) })
    | _ => none
  | .reserve me =>
    match s.stage me with
    | .begun now =>
      if cfg.isNew me then
        (s.run me (reserveLegacySlot (legacyOwnershipSlotKey cfg.slot) me (Decimal.formatInt now)
          (Decimal.formatInt cfg.ttlMs)) fun c =>
            if c.status.granted then .reserved now c else .idle).map fun (_, s) => (none, s)
      else none
    | _ => none
  | .claim me =>
    match s.stage me with
    | .reserved now r =>
      (s.run me (Ownership.claimShard (slotKey cfg.slot) me (Decimal.formatInt now)
        (Decimal.formatInt cfg.ttlMs)) fun c =>
          if c.status.granted then .granted now c else .refused r).map fun (c, s) =>
            (leaseOf me c, s)
    | _ => none
  | .mirror me =>
    match s.stage me with
    | .granted _ c =>
      (s.run me (mirrorClaim (legacyOwnershipSlotKey cfg.slot) c) fun _ => .idle).map
        fun (_, s) => (none, s)
    | _ => none
  | .probe me =>
    match s.stage me with
    | .refused r =>
      (s.run me (probeReservation (legacyOwnershipSlotKey cfg.slot) me r) fun ours =>
        if ours then .probed else .idle).map fun (_, s) => (none, s)
    | _ => none
  | .delete me =>
    match s.stage me with
    | .probed =>
      (s.run me (del (legacyOwnershipSlotKey cfg.slot)) fun _ => .idle).map fun (_, s) => (none, s)
    | _ => none
  | .legacyClaim me =>
    match s.stage me with
    | .begun now =>
      if cfg.isNew me then none
      else
        (s.run me (Ownership.claimShard (legacyOwnershipSlotKey cfg.slot) me (Decimal.formatInt now)
          (Decimal.formatInt cfg.ttlMs)) fun _ => .idle).map fun (c, s) => (leaseOf me c, s)
    | _ => none

abbrev Event := Action × Option Lease

def Step (s : System) (e : Event) (s' : System) : Prop := exec cfg s e.1 = some (e.2, s')

def leases (history : List Event) : List Lease := history.filterMap (·.2)

/-- The owner of a record and the end of its lease, as the scripts read them. -/
def view : Option (Value ℤ) → Option Lease
  | some (.hash f) =>
    (f.lookup Field.ownerId.name).map fun owner => (owner, storedLease (f.lookup leaseExpiryNs))
  | _ => none

def Free (s : System) (me : Bytes) : Prop :=
  ∀ p, view (s.db (legacyOwnershipSlotKey cfg.slot)) = some p → p.1 = me ∨ p.2 ≤ s.clock

def Timely (s : System) : Action → Prop
  | .mirror me | .delete me => Free cfg s me
  | _ => True

end System

section Records

variable {db : Db ℤ} {k me : Bytes} {f : Finmap fun _ : Bytes => Bytes}

theorem view_eq (hf : db.fields k = some f) :
    view (db k) = (f.lookup Field.ownerId.name).map fun owner =>
      (owner, storedLease (f.lookup leaseExpiryNs)) := by
  unfold Db.fields at hf
  split at hf
  · rename_i hk
    cases hf
    rw [hk, Finmap.lookup_empty]
    rfl
  · rename_i hk
    cases hf
    rw [hk]
    rfl
  · cases hf

/-- What a claim or a reservation does to a record: it fails, another replica holds the record, or
the record is free and taken. -/
inductive Contends (k me : Bytes) (now expiry : ℤ) (db : Db ℤ) : Db ℤ × Option SlotClaim → Prop where
  | failed : Contends k me now expiry db (db, none)
  | busy {c : SlotClaim} {p : Lease} (hc : c.status.granted = false) (hview : view (db k) = some p)
      (hne : p.1 ≠ me) (hlt : now < p.2) : Contends k me now expiry db (db, some c)
  | taken {c : SlotClaim} {v : Option (Value ℤ)} (hc : c.status.granted = true)
      (howner : c.owner = some me) (huntil : c.untilNs = some (Decimal.formatInt expiry))
      (hfree : ∀ p, view (db k) = some p → p.1 = me ∨ p.2 ≤ now)
      (hv : view v = some (me, expiry)) :
      Contends k me now expiry db (Function.update db k v, some c)

theorem isForeign_eq (owner expiry : Option Bytes) (me : Bytes) (now : ℤ) :
    isForeign owner expiry me (Decimal.formatInt now) db =
      (db, some (decide (owner ≠ none ∧ owner ≠ some me ∧ now < storedLease expiry))) := by
  unfold isForeign
  rw [tonumber_formatInt]
  split
  · rename_i howner
    simp only [howner, ne_eq, not_false_eq_true, true_and]
    rfl
  · rename_i howner
    rw [decide_eq_false fun h => howner ⟨h.1, h.2.1⟩]
    rfl

theorem leaseUntil_eq (now ttl : ℤ) :
    Commands.leaseUntil (Decimal.formatInt now) (Decimal.formatInt ttl) db =
      (db, some (now + ttl * 1000000)) := by
  rw [Commands.leaseUntil, tonumber_formatInt, tonumber_formatInt]
  rfl

theorem foreign_iff (hf : db.fields k = some f) {now : ℤ} :
    (f.lookup Field.ownerId.name ≠ none ∧ f.lookup Field.ownerId.name ≠ some me ∧
      now < storedLease (f.lookup leaseExpiryNs)) ↔
    ¬ ∀ p, view (db k) = some p → p.1 = me ∨ p.2 ≤ now := by
  rw [view_eq hf]
  cases f.lookup Field.ownerId.name <;> simp

/-- The end of the lease is written last. -/
theorem view_written (howner : f.lookup Field.ownerId.name = some me) (expiry : ℤ) :
    view (some (.hash (f.insert leaseExpiryNs (Decimal.formatInt expiry)))) = some (me, expiry) := by
  rw [view, Finmap.lookup_insert, Finmap.lookup_insert_of_ne _ (by decide), howner,
    storedLease_formatInt]
  rfl

theorem get_failed (hf : db.fields k = none) (field : Field) :
    Commands.get k field db = (db, none) := by
  rw [Commands.get, hget, hf]
  rfl

theorem hincr_cases (hf : db.fields k = some f) (field : Bytes) :
    hincr k field db = (db, none) ∨ ∃ n,
      hincr k field db =
        (Function.update db k (some (.hash (f.insert field (Decimal.formatInt n)))), some n) := by
  rw [hincr, hget_run hf]
  cases hn : (storedInt (f.lookup field)).bind nextInt with
  | none => exact .inl rfl
  | some n => exact .inr ⟨n, bind_run (hset_run hf _) _⟩

variable (db k me)

theorem reserveLegacySlot_contends (now ttl : ℤ) :
    Contends k me now (now + ttl * 1000000) db
      (reserveLegacySlot k me (Decimal.formatInt now) (Decimal.formatInt ttl) db) := by
  unfold reserveLegacySlot
  cases hf : db.fields k with
  | none =>
    rw [bind_failed (get_failed hf _)]
    exact .failed
  | some f =>
    rw [get_run hf, get_run hf, hget_run hf, bind_run (isForeign_eq _ _ _ _)]
    simp only [foreign_iff hf]
    by_cases hfree : ∀ p, view (db k) = some p → p.1 = me ∨ p.2 ≤ now
    swap
    · rw [decide_eq_true hfree, if_pos rfl]
      push Not at hfree
      obtain ⟨p, hp, hne, hlt⟩ := hfree
      exact .busy rfl hp hne hlt
    · rw [decide_eq_false (not_not.mpr hfree), if_neg Bool.false_ne_true,
        bind_run (leaseUntil_eq _ _), bind_run (hset_run hf _)]
      refine .taken rfl rfl rfl hfree (view_written ?_ _)
      rw [Finmap.lookup_insert_of_ne _ (by decide), Finmap.lookup_insert]

theorem claimShard_contends (now ttl : ℤ) :
    Contends k me now (now + ttl * 1000000) db
      (Ownership.claimShard k me (Decimal.formatInt now) (Decimal.formatInt ttl) db) := by
  unfold Ownership.claimShard
  cases hf : db.fields k with
  | none =>
    rw [bind_failed (get_failed hf _)]
    exact .failed
  | some f =>
    rw [get_run hf, hget_run hf, bind_run (isForeign_eq _ _ _ _)]
    simp only [foreign_iff hf]
    by_cases hfree : ∀ p, view (db k) = some p → p.1 = me ∨ p.2 ≤ now
    swap
    · rw [decide_eq_true hfree, if_pos rfl, get_run hf]
      push Not at hfree
      obtain ⟨p, hp, hne, hlt⟩ := hfree
      exact .busy rfl hp hne hlt
    · rw [decide_eq_false (not_not.mpr hfree), if_neg Bool.false_ne_true, grantedEpoch]
      by_cases hme : f.lookup Field.ownerId.name = some me
      · rw [if_pos hme, get_run hf, bind_run (leaseUntil_eq _ _), bind_run (hset_run hf _)]
        exact .taken (by rw [if_pos hme]; rfl) rfl rfl hfree
          (view_written (Finmap.lookup_insert _) _)
      · rw [if_neg hme]
        obtain hfail | ⟨n, hn⟩ := hincr_cases hf Field.ownerEpoch.name
        · rw [bind_failed (bind_failed hfail _)]
          exact .failed
        · rw [bind_run (bind_run hn _), bind_run (leaseUntil_eq _ _),
            bind_run (hset_run (fields_update _ _ _) _), Function.update_idem]
          exact .taken (by rw [if_neg hme]; rfl) rfl rfl hfree
            (view_written (Finmap.lookup_insert _) _)

end Records

section Invariant

variable (cfg : Setup)

/-- A record holds the slot for a replica at least as long as a lease. -/
def Protects (v : Option (Value ℤ)) (p : Lease) : Prop := ∃ e, view v = some (p.1, e) ∧ p.2 ≤ e

/-- What a replica knows in the course of a pass. -/
def Knows (ls : List Lease) (s : System) (me : Bytes) : Stage → Prop
  | .idle => True
  | .begun now => now ≤ s.clock ∧ ∀ p ∈ ls, p.1 = me → p.2 ≤ cfg.expiry now
  | .reserved now _ => cfg.isNew me = true ∧ now ≤ s.clock ∧
      (∀ p ∈ ls, p.1 = me → p.2 ≤ cfg.expiry now) ∧
      (s.clock < cfg.expiry now →
        view (s.db (legacyOwnershipSlotKey cfg.slot)) = some (me, cfg.expiry now))
  | .granted now c => (∀ p ∈ ls, p.1 = me → p.2 ≤ cfg.expiry now) ∧ c.owner = some me ∧
      c.untilNs = some (Decimal.formatInt (cfg.expiry now))
  | .refused _ | .probed => ∀ p ∈ ls, p.1 = me → p.2 ≤ s.clock

/-- The legacy record protects every lease that is not over, and the new record those of the new
replicas. -/
structure Inv (ls : List Lease) (s : System) : Prop where
  legacy : ∀ p ∈ ls, s.clock < p.2 → Protects (s.db (legacyOwnershipSlotKey cfg.slot)) p
  fresh : ∀ p ∈ ls, cfg.isNew p.1 = true → s.clock < p.2 → Protects (s.db (slotKey cfg.slot)) p
  bound : ∀ p ∈ ls, p.2 ≤ cfg.expiry s.clock
  knows : ∀ me, Knows cfg ls s me (s.stage me)

/-- What a step of a replica leaves as it was: the other replicas and their live records. -/
structure Acts (me : Bytes) (s s' : System) : Prop where
  clock : s'.clock = s.clock
  stage : ∀ x ≠ me, s'.stage x = s.stage x
  legacy : ∀ p, view (s.db (legacyOwnershipSlotKey cfg.slot)) = some p → p.1 ≠ me →
    s.clock < p.2 → view (s'.db (legacyOwnershipSlotKey cfg.slot)) = some p
  fresh : ∀ p, view (s.db (slotKey cfg.slot)) = some p → p.1 ≠ me → s.clock < p.2 →
    view (s'.db (slotKey cfg.slot)) = some p

variable {cfg} {ls : List Lease} {s s' : System} {me : Bytes}

theorem expiry_mono {now now' : ℤ} (h : now ≤ now') : cfg.expiry now ≤ cfg.expiry now' := by
  unfold Setup.expiry
  omega

theorem Protects.keep {v v' : Option (Value ℤ)} {p : Lease} {clock : ℤ} (h : Protects v p)
    (hlive : clock < p.2)
    (hkeep : ∀ q, view v = some q → q.1 ≠ me → clock < q.2 → view v' = some q) (hne : p.1 ≠ me) :
    Protects v' p := by
  obtain ⟨e, he, hle⟩ := h
  exact ⟨e, hkeep _ he hne (lt_of_lt_of_le hlive hle), hle⟩

variable {new : Option Lease}

theorem Knows.keep {x : Bytes} {st : Stage} (hacts : Acts cfg me s s') (hx : x ≠ me)
    (hnew : ∀ p ∈ new, p.1 = me) (h : Knows cfg ls s x st) :
    Knows cfg (ls ++ new.toList) s' x st := by
  have hmem : ∀ {p : Lease}, p ∈ ls ++ new.toList → p.1 = x → p ∈ ls := by
    intro p hp hpx
    rw [List.mem_append, Option.mem_toList] at hp
    exact hp.resolve_right fun hp => hx (hpx.symm.trans (hnew p hp))
  cases st with
  | idle => trivial
  | begun now => exact ⟨hacts.clock ▸ h.1, fun p hp hpx => h.2 p (hmem hp hpx) hpx⟩
  | reserved now c =>
    obtain ⟨hisNew, hnow, hold, hview⟩ := h
    refine ⟨hisNew, hacts.clock ▸ hnow, fun p hp hpx => hold p (hmem hp hpx) hpx, fun hlive => ?_⟩
    rw [hacts.clock] at hlive
    exact hacts.legacy _ (hview hlive) hx hlive
  | granted now c => exact ⟨fun p hp hpx => h.1 p (hmem hp hpx) hpx, h.2⟩
  | refused | probed => exact fun p hp hpx => hacts.clock ▸ h p (hmem hp hpx) hpx

theorem Inv.acts (hinv : Inv cfg ls s) (hacts : Acts cfg me s s')
    (hnew : ∀ p ∈ new, p.1 = me ∧ p.2 ≤ cfg.expiry s.clock)
    (hlegacy : ∀ p ∈ ls ++ new.toList, p.1 = me → s.clock < p.2 →
      Protects (s'.db (legacyOwnershipSlotKey cfg.slot)) p)
    (hfresh : ∀ p ∈ ls ++ new.toList, p.1 = me → cfg.isNew me = true → s.clock < p.2 →
      Protects (s'.db (slotKey cfg.slot)) p)
    (hknows : Knows cfg (ls ++ new.toList) s' me (s'.stage me)) :
    Inv cfg (ls ++ new.toList) s' := by
  have hmem : ∀ {p : Lease}, p ∈ ls ++ new.toList → p.1 ≠ me → p ∈ ls := by
    intro p hp hne
    rw [List.mem_append, Option.mem_toList] at hp
    exact hp.resolve_right fun hp => hne (hnew p hp).1
  constructor
  · intro p hp hlive
    rw [hacts.clock] at hlive
    by_cases hme : p.1 = me
    · exact hlegacy p hp hme hlive
    · exact (hinv.legacy p (hmem hp hme) hlive).keep hlive hacts.legacy hme
  · intro p hp hisNew hlive
    rw [hacts.clock] at hlive
    by_cases hme : p.1 = me
    · exact hfresh p hp hme (hme ▸ hisNew) hlive
    · exact (hinv.fresh p (hmem hp hme) hisNew hlive).keep hlive hacts.fresh hme
  · intro p hp
    rw [hacts.clock]
    rw [List.mem_append, Option.mem_toList] at hp
    exact hp.elim (hinv.bound p) fun hp => (hnew p hp).2
  · intro x
    by_cases hx : x = me
    · exact hx ▸ hknows
    · rw [hacts.stage x hx]
      exact (hinv.knows x).keep hacts hx fun p hp => (hnew p hp).1

theorem Inv.knows_at (hinv : Inv cfg ls s) {st : Stage} (hst : s.stage me = st) :
    Knows cfg ls s me st := hst ▸ hinv.knows me

theorem Inv.quiet (hinv : Inv cfg ls s) : Inv cfg (ls ++ (none : Option Lease).toList) s := by
  rwa [Option.toList_none, List.append_nil]

theorem Inv.tick (hinv : Inv cfg ls s) {clock : ℤ} (hle : s.clock ≤ clock) :
    Inv cfg ls { s with clock := clock } := by
  constructor
  · exact fun p hp hlive => hinv.legacy p hp (lt_of_le_of_lt hle hlive)
  · exact fun p hp hisNew hlive => hinv.fresh p hp hisNew (lt_of_le_of_lt hle hlive)
  · exact fun p hp => (hinv.bound p hp).trans (expiry_mono hle)
  · intro me
    have h := hinv.knows me
    cases hst : s.stage me with
    | idle => trivial
    | begun =>
      rw [hst] at h
      exact ⟨h.1.trans hle, h.2⟩
    | reserved =>
      rw [hst] at h
      exact ⟨h.1, h.2.1.trans hle, h.2.2.1, fun hlive => h.2.2.2 (lt_of_le_of_lt hle hlive)⟩
    | granted =>
      rw [hst] at h
      exact h
    | refused | probed =>
      rw [hst] at h
      exact fun p hp hme => (h p hp hme).trans hle

end Invariant

section Steps

variable {cfg : Setup} {ls : List Lease} {s s' : System} {me : Bytes} {now : ℤ}

theorem slotKey_ne_legacy (h h' : ℕ) : slotKey h ≠ legacyOwnershipSlotKey h' := by
  intro heq
  have hnew : (slotKey h).take 5 = Bytes.ascii "ds:\x7b_" := rfl
  have hlegacy : (legacyOwnershipSlotKey h').take 5 = Bytes.ascii "ds:\x7bo" := rfl
  rw [heq, hlegacy] at hnew
  exact absurd hnew (by decide)

def System.next (s : System) (me : Bytes) (db : Db ℤ) (st : Stage) : System :=
  { s with db := db, stage := Function.update s.stage me st }

theorem next_stage (db : Db ℤ) (st : Stage) : (s.next me db st).stage me = st :=
  Function.update_self ..

theorem next_db (db : Db ℤ) (st : Stage) : (s.next me db st).db = db := rfl

theorem run_map_eq_some {α : Type} {m : Script ℤ α} {next : α → Stage}
    {g : α × System → Option Lease × System} {r : Option Lease × System}
    (h : (s.run me m next).map g = some r) :
    ∃ db a, m s.db = (db, some a) ∧ r = g (a, s.next me db (next a)) := by
  unfold System.run at h
  split at h
  · rename_i db a heq
    cases h
    exact ⟨db, a, heq, rfl⟩
  · cases h

theorem acts_same (st : Stage) : Acts cfg me s (s.next me s.db st) where
  clock := rfl
  stage _ hx := Function.update_of_ne hx ..
  legacy _ hp _ _ := hp
  fresh _ hp _ _ := hp

variable {v : Option (Value ℤ)}

theorem acts_legacy {t : ℤ} (ht : t ≤ s.clock) (st : Stage)
    (hfree : ∀ p, view (s.db (legacyOwnershipSlotKey cfg.slot)) = some p → p.1 = me ∨ p.2 ≤ t) :
    Acts cfg me s (s.next me (Function.update s.db (legacyOwnershipSlotKey cfg.slot) v) st) where
  clock := rfl
  stage _ hx := Function.update_of_ne hx ..
  legacy p hp hne hlive :=
    absurd (hfree p hp) (not_or_intro hne (not_le_of_gt (lt_of_le_of_lt ht hlive)))
  fresh p hp _ _ := by
    rwa [next_db, Function.update_of_ne (slotKey_ne_legacy _ _)]

theorem acts_fresh (ht : now ≤ s.clock) (st : Stage)
    (hfree : ∀ p, view (s.db (slotKey cfg.slot)) = some p → p.1 = me ∨ p.2 ≤ now) :
    Acts cfg me s (s.next me (Function.update s.db (slotKey cfg.slot) v) st) where
  clock := rfl
  stage _ hx := Function.update_of_ne hx ..
  legacy p hp _ _ := by
    rwa [next_db, Function.update_of_ne (slotKey_ne_legacy _ _).symm]
  fresh p hp hne hlive :=
    absurd (hfree p hp) (not_or_intro hne (not_le_of_gt (lt_of_le_of_lt ht hlive)))

theorem Inv.same (hinv : Inv cfg ls s) {st : Stage}
    (hknows : Knows cfg ls (s.next me s.db st) me st) : Inv cfg ls (s.next me s.db st) := by
  have h := @Inv.acts cfg ls s _ me none hinv (acts_same st) (fun _ hp => nomatch hp)
  simp only [Option.toList_none, List.append_nil] at h
  refine h ?_ ?_ ?_
  · exact fun p hp _ hlive => hinv.legacy p hp hlive
  · exact fun p hp hme hisNew hlive => hinv.fresh p hp (hme ▸ hisNew) hlive
  · rwa [next_stage]

theorem Inv.writeLegacy (hinv : Inv cfg ls s) {st : Stage} {t : ℤ} (ht : t ≤ s.clock)
    (hfree : ∀ p, view (s.db (legacyOwnershipSlotKey cfg.slot)) = some p → p.1 = me ∨ p.2 ≤ t)
    {new : Option Lease} (hnew : ∀ p ∈ new, p.1 = me ∧ p.2 ≤ cfg.expiry s.clock)
    (hold : cfg.isNew me = true → new = none)
    (hown : ∀ p ∈ ls ++ new.toList, p.1 = me → s.clock < p.2 → Protects v p)
    (hknows : Knows cfg (ls ++ new.toList)
      (s.next me (Function.update s.db (legacyOwnershipSlotKey cfg.slot) v) st) me st) :
    Inv cfg (ls ++ new.toList)
      (s.next me (Function.update s.db (legacyOwnershipSlotKey cfg.slot) v) st) := by
  refine hinv.acts (acts_legacy ht st hfree) hnew ?_ ?_ ?_
  · intro p hp hme hlive
    rw [next_db, Function.update_self]
    exact hown p hp hme hlive
  · intro p hp hme hisNew hlive
    rw [next_db, Function.update_of_ne (slotKey_ne_legacy _ _)]
    rw [hold hisNew, Option.toList_none, List.append_nil] at hp
    exact hinv.fresh p hp (hme ▸ hisNew) hlive
  · rwa [next_stage]

theorem Inv.settleLegacy (hinv : Inv cfg ls s) {st : Stage} {t : ℤ} (ht : t ≤ s.clock)
    (hfree : ∀ p, view (s.db (legacyOwnershipSlotKey cfg.slot)) = some p → p.1 = me ∨ p.2 ≤ t)
    (hown : ∀ p ∈ ls, p.1 = me → s.clock < p.2 → Protects v p)
    (hknows : Knows cfg ls
      (s.next me (Function.update s.db (legacyOwnershipSlotKey cfg.slot) v) st) me st) :
    Inv cfg ls (s.next me (Function.update s.db (legacyOwnershipSlotKey cfg.slot) v) st) := by
  have h := @Inv.writeLegacy cfg ls s me v hinv st t ht hfree none (fun _ hp => nomatch hp)
    fun _ => rfl
  simp only [Option.toList_none, List.append_nil] at h
  exact h hown hknows

variable {c : SlotClaim}

theorem leaseOf_granted (hc : c.status.granted = true)
    (huntil : c.untilNs = some (Decimal.formatInt (cfg.expiry now))) :
    leaseOf me c = some (me, cfg.expiry now) := by
  rw [leaseOf, if_pos hc, huntil, parseLeaseUntilNs, Option.bind_some, Decimal.parseInt_formatInt]
  rfl

theorem bound_append (hbound : ∀ p ∈ ls, p.1 = me → p.2 ≤ cfg.expiry now) {l : Option Lease}
    (hl : l = some (me, cfg.expiry now)) :
    ∀ p ∈ ls ++ l.toList, p.1 = me → p.2 ≤ cfg.expiry now := by
  intro p hp hme
  rw [hl, List.mem_append, Option.toList_some, List.mem_singleton] at hp
  obtain hp | rfl := hp
  · exact hbound p hp hme
  · exact le_rfl

theorem Inv.start (hinv : Inv cfg ls s) : Inv cfg ls (s.next me s.db (.begun s.clock)) :=
  hinv.same ⟨le_rfl, fun p hp _ => hinv.bound p hp⟩

theorem protects_of_bound (hv : view v = some (me, cfg.expiry now))
    (hbound : ∀ p ∈ ls, p.1 = me → p.2 ≤ cfg.expiry now) :
    ∀ p ∈ ls, p.1 = me → s.clock < p.2 → Protects v p := by
  rintro p hp rfl -
  exact ⟨_, hv, hbound p hp rfl⟩

variable {db : Db ℤ}

theorem Inv.reserve (hinv : Inv cfg ls s) (hst : s.stage me = .begun now)
    (hisNew : cfg.isNew me = true)
    (hrun : reserveLegacySlot (legacyOwnershipSlotKey cfg.slot) me (Decimal.formatInt now)
      (Decimal.formatInt cfg.ttlMs) s.db = (db, some c)) :
    Inv cfg ls (s.next me db (if c.status.granted then .reserved now c else .idle)) := by
  obtain ⟨hnow, hbound⟩ := hinv.knows_at hst
  have hcontends := reserveLegacySlot_contends s.db (legacyOwnershipSlotKey cfg.slot) me now
    cfg.ttlMs
  rw [hrun] at hcontends
  cases hcontends with
  | busy hc =>
    rw [if_neg (by simp [hc])]
    exact hinv.same trivial
  | @taken _ v hc howner huntil hfree hv =>
    rw [if_pos hc]
    refine hinv.settleLegacy hnow hfree (protects_of_bound hv hbound)
      ⟨hisNew, hnow, hbound, fun _ => ?_⟩
    rw [next_db, Function.update_self]
    exact hv

theorem Inv.claim (hinv : Inv cfg ls s) {r : SlotClaim} (hst : s.stage me = .reserved now r)
    (hrun : Ownership.claimShard (slotKey cfg.slot) me (Decimal.formatInt now)
      (Decimal.formatInt cfg.ttlMs) s.db = (db, some c)) :
    Inv cfg (ls ++ (leaseOf me c).toList)
      (s.next me db (if c.status.granted then .granted now c else .refused r)) := by
  obtain ⟨hisNew, hnow, hbound, hview⟩ := hinv.knows_at hst
  have hcontends := claimShard_contends s.db (slotKey cfg.slot) me now cfg.ttlMs
  rw [hrun] at hcontends
  cases hcontends with
  | @busy _ p hc hview hne _ =>
    rw [if_neg (by simp [hc]), leaseOf, if_neg (by simp [hc]), Option.toList_none,
      List.append_nil]
    refine hinv.same fun q hq hme => ?_
    by_contra hlive
    obtain ⟨e, he, -⟩ := hinv.fresh q hq (hme ▸ hisNew) (not_le.mp hlive)
    rw [hview, hme] at he
    cases he
    exact hne rfl
  | @taken _ v hc howner huntil hfree hv =>
    have hlease : leaseOf me c = some (me, cfg.expiry now) := leaseOf_granted hc huntil
    have hall := bound_append hbound hlease
    rw [if_pos hc]
    refine hinv.acts (acts_fresh hnow _ hfree) ?_ ?_ ?_ ?_
    · intro p hp
      rw [hlease, Option.mem_some_iff] at hp
      subst hp
      exact ⟨rfl, expiry_mono hnow⟩
    · intro p hp hme hlive
      rw [next_db, Function.update_of_ne (slotKey_ne_legacy _ _).symm]
      have hle := hall p hp hme
      exact ⟨_, hme ▸ hview (lt_of_lt_of_le hlive hle), hle⟩
    · intro p hp hme _ hlive
      rw [next_db, Function.update_self]
      exact ⟨_, hme ▸ hv, hall p hp hme⟩
    · rw [next_stage]
      exact ⟨hall, howner, huntil⟩

theorem Inv.legacyClaim (hinv : Inv cfg ls s) (hst : s.stage me = .begun now)
    (hisOld : cfg.isNew me = false)
    (hrun : Ownership.claimShard (legacyOwnershipSlotKey cfg.slot) me (Decimal.formatInt now)
      (Decimal.formatInt cfg.ttlMs) s.db = (db, some c)) :
    Inv cfg (ls ++ (leaseOf me c).toList) (s.next me db .idle) := by
  obtain ⟨hnow, hbound⟩ := hinv.knows_at hst
  have hcontends := claimShard_contends s.db (legacyOwnershipSlotKey cfg.slot) me now cfg.ttlMs
  rw [hrun] at hcontends
  cases hcontends with
  | busy hc =>
    rw [leaseOf, if_neg (by simp [hc]), Option.toList_none, List.append_nil]
    exact hinv.same trivial
  | @taken _ v hc howner huntil hfree hv =>
    have hlease : leaseOf me c = some (me, cfg.expiry now) := leaseOf_granted hc huntil
    refine hinv.writeLegacy hnow hfree ?_ ?_ (protects_of_bound hv (bound_append hbound hlease))
      trivial
    · intro p hp
      rw [hlease, Option.mem_some_iff] at hp
      subst hp
      exact ⟨rfl, expiry_mono hnow⟩
    · intro hisNew
      rw [hisOld] at hisNew
      cases hisNew

theorem Inv.mirror (hinv : Inv cfg ls s) (hst : s.stage me = .granted now c) (hfree : Free cfg s me)
    {u : Unit} (hrun : mirrorClaim (legacyOwnershipSlotKey cfg.slot) c s.db = (db, some u)) :
    Inv cfg ls (s.next me db .idle) := by
  obtain ⟨hbound, howner, huntil⟩ := hinv.knows_at hst
  cases hf : s.db.fields (legacyOwnershipSlotKey cfg.slot) with
  | none =>
    rw [mirrorClaim, hset, hf] at hrun
    cases hrun
  | some f =>
    rw [mirrorClaim, hset_run hf, howner, huntil] at hrun
    cases hrun
    refine hinv.settleLegacy le_rfl hfree (protects_of_bound (view_written ?_ _) hbound) trivial
    rw [Finmap.lookup_insert_of_ne _ (by decide), Finmap.lookup_insert, Option.getD_some]

theorem Inv.probe (hinv : Inv cfg ls s) {r : SlotClaim} (hst : s.stage me = .refused r)
    {ours : Bool}
    (hrun : probeReservation (legacyOwnershipSlotKey cfg.slot) me r s.db = (db, some ours)) :
    Inv cfg ls (s.next me db (if ours then .probed else .idle)) := by
  have hknows := hinv.knows_at hst
  have hread : ReadOnly (probeReservation (legacyOwnershipSlotKey cfg.slot) me r : Script ℤ Bool) :=
    .bind (readOnly_get _ _) fun _ => .bind (readOnly_hget _ _) fun _ => readOnly_pure _
  have hdb := hread s.db
  rw [hrun] at hdb
  cases hdb
  cases ours with
  | true => exact hinv.same hknows
  | false => exact hinv.same trivial

theorem Inv.delete (hinv : Inv cfg ls s) (hst : s.stage me = .probed) (hfree : Free cfg s me) :
    Inv cfg ls
      (s.next me (Function.update s.db (legacyOwnershipSlotKey cfg.slot) none) .idle) := by
  have hknows := hinv.knows_at hst
  exact hinv.settleLegacy le_rfl hfree
    (fun p hp hme hlive => absurd hlive (not_lt.mpr (hknows p hp hme))) trivial

theorem Inv.step (hinv : Inv cfg ls s) {a : Action} {l : Option Lease}
    (hstep : exec cfg s a = some (l, s')) (htimely : Timely cfg s a) :
    Inv cfg (ls ++ l.toList) s' := by
  cases a with
  | tick clock =>
    rw [exec] at hstep
    split at hstep
    · rename_i hle
      cases hstep
      exact (hinv.tick hle).quiet
    · cases hstep
  | start me =>
    rw [exec] at hstep
    split at hstep
    · cases hstep
      exact hinv.start.quiet
    · cases hstep
  | reserve me =>
    rw [exec] at hstep
    split at hstep
    · rename_i now hst
      split at hstep
      · rename_i hisNew
        obtain ⟨db, c, hrun, heq⟩ := run_map_eq_some hstep
        cases heq
        exact (hinv.reserve hst hisNew hrun).quiet
      · cases hstep
    · cases hstep
  | claim me =>
    rw [exec] at hstep
    split at hstep
    · rename_i now r hst
      obtain ⟨db, c, hrun, heq⟩ := run_map_eq_some hstep
      cases heq
      exact hinv.claim hst hrun
    · cases hstep
  | mirror me =>
    rw [exec] at hstep
    split at hstep
    · rename_i now c hst
      obtain ⟨db, u, hrun, heq⟩ := run_map_eq_some hstep
      cases heq
      exact (hinv.mirror hst htimely hrun).quiet
    · cases hstep
  | probe me =>
    rw [exec] at hstep
    split at hstep
    · rename_i r hst
      obtain ⟨db, ours, hrun, heq⟩ := run_map_eq_some hstep
      cases heq
      exact (hinv.probe hst hrun).quiet
    · cases hstep
  | delete me =>
    rw [exec] at hstep
    split at hstep
    · rename_i hst
      obtain ⟨db, u, hrun, heq⟩ := run_map_eq_some hstep
      cases heq
      cases hrun
      exact (hinv.delete hst htimely).quiet
    · cases hstep
  | legacyClaim me =>
    rw [exec] at hstep
    split at hstep
    · rename_i now hst
      split at hstep
      · cases hstep
      · rename_i hisOld
        obtain ⟨db, c, hrun, heq⟩ := run_map_eq_some hstep
        cases heq
        exact hinv.legacyClaim hst (by simpa using hisOld) hrun
    · cases hstep

end Steps

section Exclusion

variable {cfg : Setup}

def TimelyStep (cfg : Setup) (s : System) (e : Event) (s' : System) : Prop :=
  Step cfg s e s' ∧ Timely cfg s e.1

/-- As long as copies and deletions come in time, no two replicas have a lease of the slot that is
not over. -/
theorem rollout_exclusive {s₀ s : System} {history : List Event} (h₀ : ∀ me, s₀.stage me = .idle)
    (hrun : Trace.Run (TimelyStep cfg) s₀ history s) :
    ∀ p ∈ leases history, ∀ q ∈ leases history, s.clock < p.2 → s.clock < q.2 → p.1 = q.1 := by
  have hinv : Inv cfg (leases history) s := by
    refine hrun.induct (I := fun history s => Inv cfg (leases history) s) ?_ ?_
    · refine ⟨nofun, nofun, nofun, fun me => ?_⟩
      rw [h₀ me]
      trivial
    · rintro history s ⟨a, l⟩ s' - hinv ⟨hstep, htimely⟩
      have hleases : leases (history ++ [(a, l)]) = leases history ++ l.toList := by
        cases l <;> simp [leases]
      rw [hleases]
      exact hinv.step hstep htimely
  intro p hp q hq hlive hlive'
  obtain ⟨e, he, -⟩ := hinv.legacy p hp hlive
  obtain ⟨e', he', -⟩ := hinv.legacy q hq hlive'
  rw [he, Option.some.injEq, Prod.mk.injEq] at he'
  exact he'.1

instance (s : System) (me : Bytes) : Decidable (Free cfg s me) :=
  decidable_of_iff
    ((view (s.db (legacyOwnershipSlotKey cfg.slot))).all fun p => p.1 = me ∨ p.2 ≤ s.clock) (by
      rw [Free]
      cases view (s.db (legacyOwnershipSlotKey cfg.slot)) <;> simp)

instance (s : System) (a : Action) : Decidable (Timely cfg s a) := by
  cases a <;> unfold Timely <;> infer_instance

def ran (cfg : Setup) (s : System) (a : Action) : Option (Event × System) :=
  (exec cfg s a).map fun (l, s') => ((a, l), s')

theorem ran_step (s : System) (a : Action) (e : Event) (s' : System)
    (h : ran cfg s a = some (e, s')) : Step cfg s e s' := by
  obtain ⟨⟨l, s₁⟩, hexec, heq⟩ := Option.map_eq_some_iff.mp h
  cases heq
  exact hexec

def ranTimely (cfg : Setup) (s : System) (a : Action) : Option (Event × System) :=
  if Timely cfg s a then ran cfg s a else none

theorem ranTimely_step (s : System) (a : Action) (e : Event) (s' : System)
    (h : ranTimely cfg s a = some (e, s')) : TimelyStep cfg s e s' := by
  unfold ranTimely at h
  split at h
  · rename_i htimely
    obtain ⟨⟨l, s₁⟩, hexec, heq⟩ := Option.map_eq_some_iff.mp h
    cases heq
    exact ⟨hexec, htimely⟩
  · cases h

def rollout : Setup := ⟨0, 1, fun me => me = [65] ∨ me = [66]⟩

def unclaimed : System := ⟨fun _ => none, 0, fun _ => .idle⟩

def handover : List Action :=
  [.start [65], .reserve [65], .claim [65], .mirror [65], .tick 2000000, .start [79],
    .legacyClaim [79], .start [66], .reserve [66]]

theorem handover_runs : (Trace.execAll (ranTimely rollout) unclaimed handover).isSome := by
  decide +kernel

def handedOver : List Event × System :=
  Trace.executed (ranTimely rollout) unclaimed handover handover_runs

theorem rollout_exclusive_handover :
    leases handedOver.1 = [([65], 1000000), ([79], 3000000)] ∧
      ∀ p ∈ leases handedOver.1, ∀ q ∈ leases handedOver.1, handedOver.2.clock < p.2 →
        handedOver.2.clock < q.2 → p.1 = q.1 :=
  ⟨by decide +kernel,
    rollout_exclusive (fun _ => rfl) (Trace.executed_run ranTimely_step handover_runs)⟩

def lateMirror : List Action :=
  [.start [65], .reserve [65], .claim [65], .tick 2000000, .start [79], .legacyClaim [79],
    .mirror [65], .start [66], .reserve [66], .claim [66]]

theorem lateMirror_runs : (Trace.execAll (ran rollout) unclaimed lateMirror).isSome := by
  decide +kernel

def mirroredLate : List Event × System :=
  Trace.executed (ran rollout) unclaimed lateMirror lateMirror_runs

/-- A late copy lets another replica in while the old replica has a lease. -/
theorem late_mirror_two_owners :
    Trace.Run (Step rollout) unclaimed mirroredLate.1 mirroredLate.2 ∧
      mirroredLate.2.clock = 2000000 ∧
      leases mirroredLate.1 = [([65], 1000000), ([79], 3000000), ([66], 3000000)] :=
  ⟨Trace.executed_run ran_step lateMirror_runs, by decide +kernel,
    by decide +kernel⟩

end Exclusion

end Chronicle.Webhook.Rollout
