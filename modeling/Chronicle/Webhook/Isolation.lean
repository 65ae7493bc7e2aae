import Chronicle.Webhook.Refusals
import Mathlib.Order.CompletePartialOrder

/-! # Isolation of subscriptions

The keys of a subscription are its id with one of a few suffixes, and ids are
chosen by clients. Two subscriptions are apart as long as neither id is the other
one with such a suffix; then no script for one of them reads or writes what
belongs to the other.
-/

namespace Chronicle.Webhook

open Keyspace Commands

variable {x y k : Bytes}

section Suffixes

def words : List Bytes := [Bytes.ascii "links", Bytes.ascii "shards", Bytes.ascii "incarnation"]

/-- What comes after the id in a key of a subscription. -/
inductive KeySuffix : Bytes → Prop where
  | bare : KeySuffix []
  | word {w : Bytes} (hw : w ∈ words) : KeySuffix (58 :: w)
  | shard {g : ℕ} (hg : 0 < g) : KeySuffix (shardSuffix ++ Decimal.formatNat g)

def keysOf (id : Bytes) : Set Bytes :=
  {subKey id, linksKey id, subShardRegistryKey id, subIncarnationKey id} ∪
    {k | ∃ g ≥ 1, k = subShardKey id g}

def membersOf (id : Bytes) : Set Bytes := {m | ∃ g, m = shardMember id g}

variable {s t u m : Bytes}

theorem mem_keysOf : k ∈ keysOf x ↔ ∃ s, KeySuffix s ∧ k = subKey x ++ s := by
  constructor
  · rintro ((rfl | rfl | rfl | rfl) | ⟨g, hg, rfl⟩)
    · exact ⟨[], .bare, (List.append_nil _).symm⟩
    · exact ⟨_, .word (w := Bytes.ascii "links") (by simp [words]), rfl⟩
    · exact ⟨_, .word (w := Bytes.ascii "shards") (by simp [words]), rfl⟩
    · exact ⟨_, .word (w := Bytes.ascii "incarnation") (by simp [words]), rfl⟩
    · refine ⟨_, .shard hg, ?_⟩
      rw [subShardKey, if_neg (by omega), List.append_assoc]
  · rintro ⟨s, hs, rfl⟩
    cases hs with
    | bare =>
      rw [List.append_nil]
      exact .inl (.inl rfl)
    | word hw =>
      simp only [words, List.mem_cons, List.not_mem_nil, or_false] at hw
      obtain rfl | rfl | rfl := hw
      · exact .inl (.inr (.inl rfl))
      · exact .inl (.inr (.inr (.inl rfl)))
      · exact .inl (.inr (.inr (.inr rfl)))
    | @shard g hg =>
      refine .inr ⟨g, hg, ?_⟩
      rw [subShardKey, if_neg (by omega), List.append_assoc]

theorem mem_membersOf (h : m ∈ membersOf x) : ∃ s, KeySuffix s ∧ m = x ++ s := by
  obtain ⟨g, rfl⟩ := h
  unfold shardMember
  split
  · exact ⟨[], .bare, (List.append_nil _).symm⟩
  · exact ⟨_, .shard (by omega), List.append_assoc ..⟩

theorem word_facts {w : Bytes} (hw : w ∈ words) :
    58 ∉ w ∧ ∃ c ∈ w, Decimal.isDigit c = false := by
  have h : ∀ w ∈ words, 58 ∉ w ∧ ∃ c ∈ w, Decimal.isDigit c = false := by decide
  exact h w hw

theorem KeySuffix.eq_nil (h : KeySuffix (u ++ t)) (hu : u ≠ []) (ht : KeySuffix t) : t = [] := by
  obtain ⟨c, u, rfl⟩ := List.exists_cons_of_ne_nil hu
  by_contra hne
  obtain ⟨t', rfl⟩ : ∃ t', t = 58 :: t' := by
    cases ht with
    | bare => exact absurd rfl hne
    | word => exact ⟨_, rfl⟩
    | shard => exact ⟨_, rfl⟩
  generalize hs : c :: u ++ 58 :: t' = s at h
  cases h with
  | bare => cases hs
  | word hw =>
    obtain ⟨-, rfl⟩ := List.cons_eq_cons.mp hs
    exact (word_facts hw).1 (by simp)
  | @shard g =>
    obtain ⟨-, htail⟩ := List.cons_eq_cons.mp hs
    -- the second colon of the suffix is the only one that can begin another suffix
    have hdigits : t' = Decimal.formatNat g := by
      change u ++ 58 :: t' = 103 :: 58 :: Decimal.formatNat g at htail
      match u with
      | [] => cases htail
      | [_] =>
        simp only [List.singleton_append, List.cons_eq_cons] at htail
        exact htail.2.2
      | _ :: _ :: u =>
        simp only [List.cons_append, List.cons_eq_cons] at htail
        have hmem : (58 : UInt8) ∈ Decimal.formatNat g := by
          rw [← htail.2.2]
          simp
        exact absurd hmem (Decimal.not_mem_formatNat (by decide) g)
    generalize heq : 58 :: t' = t at ht
    cases ht with
    | bare => cases heq
    | word hw =>
      obtain ⟨-, rfl⟩ := List.cons_eq_cons.mp heq
      obtain ⟨c, hc, hdigit⟩ := (word_facts hw).2
      rw [hdigits] at hc
      exact Decimal.not_mem_formatNat hdigit g hc
    | @shard g' =>
      obtain ⟨-, htail'⟩ := List.cons_eq_cons.mp heq
      refine Decimal.not_mem_formatNat (c := 103) (by decide) g ?_
      rw [← hdigits, htail']
      exact List.mem_cons_self

/-- The second id is the first one with the suffix of one of its keys. -/
def Extends (x y : Bytes) : Prop :=
  (∃ g ≥ 1, y = x ++ shardSuffix ++ Decimal.formatNat g) ∨
    slotOf x = slotOf y ∧ ∃ w ∈ words, y = x ++ 58 :: w

theorem overlap (hne : x ≠ y) (hs : KeySuffix s) (ht : KeySuffix t) (h : x ++ s = y ++ t) :
    y = x ++ s ∧ s ≠ [] ∨ x = y ++ t ∧ t ≠ [] := by
  rw [List.append_eq_append_iff] at h
  obtain ⟨u, rfl, rfl⟩ | ⟨u, rfl, rfl⟩ := h
  · have hu : u ≠ [] := by
      rintro rfl
      exact hne (List.append_nil x).symm
    have hnil := hs.eq_nil hu ht
    subst hnil
    exact .inl ⟨by rw [List.append_nil], by simpa using hu⟩
  · have hu : u ≠ [] := by
      rintro rfl
      exact hne (List.append_nil y)
    have hnil := ht.eq_nil hu hs
    subst hnil
    exact .inr ⟨by rw [List.append_nil], by simpa using hu⟩

theorem extends_of_suffix (hs : KeySuffix s) (hne : s ≠ []) (hslot : slotOf x = slotOf (x ++ s)) :
    Extends x (x ++ s) := by
  cases hs with
  | bare => exact absurd rfl hne
  | word hw => exact .inr ⟨hslot, _, hw, rfl⟩
  | shard hg => exact .inl ⟨_, hg, (List.append_assoc ..).symm⟩

theorem subKey_append_inj (h : subKey x ++ s = subKey y ++ t) :
    slotOf x = slotOf y ∧ x ++ s = y ++ t := by
  simp only [subKey, List.append_assoc] at h
  have hrest := slotHome_append_inj h
  rw [hrest] at h
  have htag := List.append_cancel_right h
  simp only [slotHome, slotTagAt, List.append_cancel_left_eq, List.append_cancel_right_eq] at htag
  exact ⟨Decimal.formatNat_injective htag, List.append_cancel_left hrest⟩

theorem keysOf_disjoint (hne : x ≠ y) (hxy : ¬ Extends x y) (hyx : ¬ Extends y x) :
    Disjoint (keysOf x) (keysOf y) := by
  rw [Set.disjoint_left]
  intro k hk hk'
  obtain ⟨s, hs, rfl⟩ := mem_keysOf.mp hk
  obtain ⟨t, ht, heq⟩ := mem_keysOf.mp hk'
  obtain ⟨hslot, heq⟩ := subKey_append_inj heq
  obtain ⟨rfl, hnil⟩ | ⟨rfl, hnil⟩ := overlap hne hs ht heq
  · exact hxy (extends_of_suffix hs hnil hslot)
  · exact hyx (extends_of_suffix ht hnil hslot.symm)

theorem extends_of_member {g : ℕ} (h : shardMember x g ≠ x) : Extends x (shardMember x g) := by
  unfold shardMember at h ⊢
  split
  · rename_i hg
    rw [if_pos hg] at h
    exact absurd rfl h
  · exact .inl ⟨g, by omega, rfl⟩

theorem membersOf_disjoint (hne : x ≠ y) (hxy : ¬ Extends x y) (hyx : ¬ Extends y x) :
    Disjoint (membersOf x) (membersOf y) := by
  rw [Set.disjoint_left]
  rintro m ⟨g, rfl⟩ ⟨g', heq⟩
  obtain ⟨s, hs, hmem⟩ := mem_membersOf ⟨g, rfl⟩
  obtain ⟨t, ht, hmem'⟩ := mem_membersOf ⟨g', rfl⟩
  obtain ⟨hy, -⟩ | ⟨hx, -⟩ := overlap hne hs ht (hmem ▸ hmem' ▸ heq)
  · rw [← hmem] at hy
    exact hxy (hy ▸ extends_of_member (hy ▸ hne.symm))
  · rw [← hmem'] at hx
    exact hyx (hx ▸ extends_of_member (hx ▸ hne))

theorem not_disjoint_of_extends (h : Extends x y) (hkeys : Disjoint (keysOf x) (keysOf y))
    (hmembers : Disjoint (membersOf x) (membersOf y)) : False := by
  obtain ⟨g, hg, rfl⟩ | ⟨hslot, w, hw, rfl⟩ := h
  · have hmem : x ++ shardSuffix ++ Decimal.formatNat g ∈ membersOf x := by
      refine ⟨g, ?_⟩
      rw [shardMember, if_neg (by omega)]
    exact Set.disjoint_left.mp hmembers hmem ⟨0, rfl⟩
  · have hmem : subKey (x ++ 58 :: w) ∈ keysOf x := by
      refine mem_keysOf.mpr ⟨_, .word hw, ?_⟩
      simp only [subKey, ← hslot, List.append_assoc]
    exact Set.disjoint_left.mp hkeys hmem (.inl (.inl rfl))

end Suffixes

variable {ν : Type}

section Scripts

variable {S : Scope} {sub : Bytes}

theorem createSub_within {subs links counter id : Bytes} (hsub : sub ∈ S.owned)
    (hlinks : links ∈ S.owned) (hcounter : counter ∈ S.owned) (hsubs : subs ∈ S.listed)
    (hid : id ∈ S.shared subs) (hholds : S.holds subs id) (a : CreateFields) :
    Within S (createSub sub subs links counter id a : Script ν _) := by
  refine .bind (.existsKey (.inl hsub)) fun there => ?_
  split
  · exact .bind (get_within (.inl hsub) _) fun _ => .bind (get_within (.inl hsub) _) fun _ =>
      .pure _
  · exact .bind (.incr hcounter) fun _ => .bind (.hset _ hsub) fun _ =>
      .bind (set_within hsub _) fun _ => .bind (.list hsubs hid hholds) fun _ =>
      .bind (.each fun _ _ => .hset _ hlinks) fun _ => .pure _

theorem deindexStale_within {links streamSubs id path : Bytes} (hsub : S.Readable sub)
    (hlinks : S.Readable links) (hlisted : streamSubs ∈ S.listed) (hid : id ∈ S.shared streamSubs) :
    Within S (deindexStale sub links streamSubs id path : Script ν _) := by
  refine .bind (.existsKey hsub) fun there => .bind ?_ fun cur => ?_
  · split
    · exact .hget _ hlinks
    · exact .pure _
  · split
    · exact .pure _
    · exact .bind (.srem hlisted hid) fun _ => .pure _

theorem recordWakeSent_careful (hsub : sub ∈ S.owned)
    (nowNs generation wakeId : Bytes) :
    Careful S Reply.Refused (Commands.recordWakeSent sub nowNs generation wakeId :
      Script ν _) := by
  refine present_careful (.inl hsub) (reads hsub fun _ => reads hsub fun _ => ?_)
  split
  · exact .pure _
  · exact (Accepts.bind (set_within hsub _) fun _ => accepts rfl).careful

variable [Number ν]

theorem inLease_looks (type phase holder leaseUntil : Option Bytes) (nowNs : Bytes) :
    Looks S (inLease type phase holder leaseUntil nowNs : Script ν Bool) := by
  unfold inLease
  split
  · exact .bind (.ofOption _) fun _ => .pure _
  · exact .pure _

theorem checkWriteFence_careful {cfg : Bytes} (hsub : S.Readable sub)
    (hcfg : S.Readable cfg) (nowNs generation wakeId holder incarnation : Bytes) :
    Careful S Reply.Refused (Commands.checkWriteFence sub cfg nowNs generation wakeId holder
      incarnation : Script ν _) := by
  refine present_careful hsub (present_careful hcfg ?_)
  refine .look (get_looks hcfg _) fun _ => .look (get_looks hsub _) fun _ => ?_
  split
  · exact .pure _
  refine .look (get_looks hsub _) fun _ => .look (get_looks hsub _) fun _ =>
    .look (get_looks hsub _) fun _ => .look (get_looks hsub _) fun _ =>
    .look (get_looks hsub _) fun _ => .look (get_looks hsub _) fun _ =>
    .look (get_looks hcfg _) fun _ => .look (inLease_looks _ _ _ _ _) fun _ => ?_
  split
  · exact .pure _
  · exact .look (.hget hcfg _) fun _ => .pure _

end Scripts

section Calls

inductive SubCall where
  | create (id : Bytes) (a : CreateFields)
  | request (r : Request)
  | recordWakeSent (id nowNs generation wakeId : Bytes)
  | deindexStale (id : Bytes) (path : Path)
  | checkWriteFence (id : Bytes) (g : ℕ) (nowNs generation wakeId holder incarnation : Bytes)

namespace SubCall

def id : SubCall → Bytes
  | create id _ | recordWakeSent id .. | deindexStale id _ | checkWriteFence id .. => id
  | request r => r.id

variable {ν : Type} [Number ν]

def run : SubCall → Script ν (Commands.Reply ⊕ CreateStatus × Bytes)
  | create id a => do
    let reply ← createSub (subKey id) (subsKey (slotOf id)) (linksKey id) (subIncarnationKey id) id a
    return .inr reply
  | request r => do
    let reply ← r.run
    return .inl reply
  | recordWakeSent id nowNs generation wakeId => do
    let reply ← Commands.recordWakeSent (subKey id) nowNs generation wakeId
    return .inl reply
  | deindexStale id path => do
    let reply ← Commands.deindexStale (subKey id) (linksKey id) (streamSubsKey (slotOf id) path) id
      path
    return .inl reply
  | checkWriteFence id g nowNs generation wakeId holder incarnation => do
    let reply ← Commands.checkWriteFence (subShardKey id g) (subKey id) nowNs generation wakeId
      holder incarnation
    return .inl reply

def Names : SubCall → Bytes → Prop
  | request r => r.Names
  | _ => fun _ => False

def IsShard (g : Bytes) : Prop := ∃ n > 0, g = Decimal.formatNat n

/-- The sets of ids that a script may change. -/
def lists : SubCall → Set Bytes
  | deindexStale id path => {streamSubsKey (slotOf id) path}
  | c => {subsKey (slotOf c.id)}

def scope (c : SubCall) : Scope := subScope IsShard c.id c.Names c.lists

theorem lists_subset (c : SubCall) : c.lists ⊆ listings (slotOf c.id) := by
  cases c with
  | deindexStale id path =>
    rintro k rfl
    exact .inr ⟨path, rfl⟩
  | _ =>
    rintro k rfl
    exact .inl rfl

theorem isShard_formatNat : ∀ g > 0, IsShard (Decimal.formatNat g) := fun g hg => ⟨g, hg, rfl⟩

theorem subsKey_ne_registry (h : ℕ) : ¬ ∃ id, subsKey h = subShardRegistryKey id := by
  rintro ⟨id, heq⟩
  exact subKey_append_notMem id _ h (heq ▸ mem_slotKeys_of_listings (.inl rfl))

theorem run_within (c : SubCall) : Within c.scope (c.run : Script ν _) := by
  have hsub : subKey c.id ∈ c.scope.owned := .inl rfl
  have hlinks : linksKey c.id ∈ c.scope.owned := .inr (.inr (.inl rfl))
  have hcounter : subIncarnationKey c.id ∈ c.scope.owned := .inr (.inr (.inr (.inr rfl)))
  have hshard : ∀ g, subShardKey c.id g ∈ c.scope.owned := keyIn_subShardKey isShard_formatNat c.id
  cases c with
  | create id a =>
    exact .bind (createSub_within hsub hlinks hcounter ⟨_, .inl rfl⟩ (.inr ⟨rfl, rfl⟩)
      (fun h => absurd h (subsKey_ne_registry _)) a) fun _ => .pure _
  | request r => exact .bind (r.run_careful isShard_formatNat).within fun _ => .pure _
  | recordWakeSent => exact .bind (recordWakeSent_careful hsub _ _ _).within fun _ => .pure _
  | deindexStale id path =>
    exact .bind (deindexStale_within (.inl hsub) (.inl hlinks) ⟨_, .inr ⟨path, rfl⟩⟩
      (.inr ⟨rfl, rfl⟩)) fun _ => .pure _
  | checkWriteFence id g =>
    exact .bind (checkWriteFence_careful (.inl (hshard g)) (.inl hsub) _ _ _ _ _).within
      fun _ => .pure _

end SubCall

/-- What the scripts keep of a keyspace: the schedules and the sets of ids have their types, and
the registries list shards. -/
structure Sane {ν : Type} (db : Db ν) : Prop where
  scored : ∀ h, ∀ k ∈ schedules h, IsScored (db k)
  listed : ∀ h, ∀ k ∈ listings h, IsListed (db k)
  shards : ∀ id s, db (subShardRegistryKey id) = some (.set s) → ∀ g ∈ s, SubCall.IsShard g

section Sane

variable {db : Db ν} {slot : ℕ} {F : SlotFootprint}

theorem Sane.holds (h : Sane db) : (slotScope SubCall.IsShard slot F).Holds db := by
  rintro k s hs g hg ⟨id, rfl⟩
  exact h.shards id s hs g hg

theorem Sane.typed (h : Sane db) : (slotScope SubCall.IsShard slot F).Typed db := by
  constructor
  · rintro k ⟨n, hk⟩
    exact h.scored n k hk
  · rintro k ⟨n, hk⟩
    exact h.listed n k hk

theorem sane_of_scope (hholds : (slotScope SubCall.IsShard slot F).Holds db)
    (htyped : (slotScope SubCall.IsShard slot F).Typed db) : Sane db where
  scored h k hk := htyped.scored k ⟨h, hk⟩
  listed h k hk := htyped.listed k ⟨h, hk⟩
  shards id s hs g hg := hholds _ s hs g hg ⟨id, rfl⟩

end Sane

section Members

def Commands.Request.onMember : Request → Bool
  | .armWake .. | .release .. | .expireLease .. | .restoreLease .. | .scheduleRetry ..
  | .recordSuccess .. => true
  | _ => false

/-- What a script for one member of the schedules may touch. -/
def memberScope (member : Bytes) : Scope :=
  slotScope SubCall.IsShard (slotOf member)
    { owned := {subKey member}
      shared k := {x | k ∈ schedules (slotOf member) ∧ x = member}
      owned_slot := by
        rintro k rfl h
        rw [← List.append_nil (subKey member)]
        exact subKey_append_notMem member [] h }

variable [Number ν]

theorem Commands.Request.run_onMember_within {r : Request} (hr : r.onMember = true) :
    Within (memberScope r.id) (r.run : Script ν _) := by
  have hslot : (memberScope r.id).Readable (slotKey (slotOf r.id)) := .inr rfl
  have hsub : subKey r.id ∈ (memberScope r.id).owned := rfl
  have hscored : ∀ k ∈ schedules (slotOf r.id), Scored (memberScope r.id) k r.id :=
    fun k hk => ⟨⟨_, hk⟩, hk, rfl⟩
  have hs : Scheduled (memberScope r.id) (leaseZKey (slotOf r.id)) (retryZKey (slotOf r.id))
      (dueZKey (slotOf r.id)) r.id :=
    ⟨hscored _ (by simp [schedules]), hscored _ (by simp [schedules]),
      hscored _ (by simp [schedules])⟩
  cases r with
  | armWake => exact (armWake_careful hslot hsub hs _ _ _ _).within
  | release => exact (release_careful hslot hsub hs _ _ _ _ _).within
  | expireLease => exact (expireLease_careful hslot hsub hs _ _).within
  | restoreLease => exact (restoreLease_careful (.inl hsub) hs _).within
  | scheduleRetry => exact (scheduleRetry_careful hslot hsub hs.retry _ _ _ _ _).within
  | recordSuccess => exact (recordSuccess_careful hslot hsub hs.retry _ _ _ _).within
  | claim | ack | linkStream | unlinkStream | deleteSub => cases hr

end Members

end Calls

section Isolation

/-- What belongs to a subscription. -/
def stateOf (id : Bytes) : Footprint where
  owned := keysOf id
  shared k := {m | k ∈ schedules (slotOf id) ∧ m ∈ membersOf id ∨
    k ∈ listings (slotOf id) ∧ m = id}

/-- A script that runs on behalf of a subscription: for its id, or for one of its members in the
schedules. -/
def SubCall.For (x : Bytes) (c : SubCall) : Prop :=
  c.id = x ∨ ∃ r g, c = .request r ∧ r.onMember = true ∧ r.id = shardMember x g

/-- A script neither reads nor writes what belongs to a subscription. -/
def SubCall.Isolated (ν : Type) [Number ν] (y : Bytes) (c : SubCall) : Prop :=
  ∀ db : Db ν, Sane db → Sane (c.run db).1 ∧ (stateOf y).Untouched db (c.run db).1 ∧
    ∀ db' : Db ν, Sane db' → (stateOf y).Allows db db' → Agree (stateOf y) (c.run db) (c.run db')

theorem keyIn_iff : KeyIn SubCall.IsShard x k ↔ k ∈ keysOf x := by
  constructor
  · rintro (rfl | ⟨_, ⟨g, hg, rfl⟩, rfl⟩ | rfl | rfl | rfl)
    · exact .inl (.inl rfl)
    · refine .inr ⟨g, hg, ?_⟩
      rw [subShardKey, if_neg (by omega)]
    · exact .inl (.inr (.inl rfl))
    · exact .inl (.inr (.inr (.inl rfl)))
    · exact .inl (.inr (.inr (.inr rfl)))
  · rintro ((rfl | rfl | rfl | rfl) | ⟨g, hg, rfl⟩)
    · exact .inl rfl
    · exact .inr (.inr (.inl rfl))
    · exact .inr (.inr (.inr (.inl rfl)))
    · exact .inr (.inr (.inr (.inr rfl)))
    · exact keyIn_subShardKey SubCall.isShard_formatNat x g

theorem memberIn_iff {m : Bytes} : MemberIn SubCall.IsShard x m ↔ m ∈ membersOf x := by
  constructor
  · rintro (rfl | ⟨_, ⟨g, hg, rfl⟩, rfl⟩)
    · exact ⟨0, rfl⟩
    · refine ⟨g, ?_⟩
      rw [shardMember, if_neg (by omega)]
  · rintro ⟨g, rfl⟩
    exact memberIn_shardMember SubCall.isShard_formatNat x g

theorem keysOf_notMem_slotKeys (h : k ∈ keysOf x) (n : ℕ) : k ∉ slotKeys n :=
  (keyIn_iff.mpr h).keyOf.notMem_slotKeys n

theorem notMem_keysOf {n : ℕ} (h : k ∈ slotKeys n) : k ∉ keysOf x :=
  fun hk => keysOf_notMem_slotKeys hk n h

theorem stateOf_shared_eq (h : ∀ n, k ∉ slotKeys n) : (stateOf y).shared k = ∅ := by
  rw [Set.eq_empty_iff_forall_notMem]
  rintro m (⟨hk, -⟩ | ⟨hk, -⟩)
  · exact h _ (mem_slotKeys_of_schedules hk)
  · exact h _ (mem_slotKeys_of_listings hk)

theorem slotKey_apart (n : ℕ) :
    slotKey n ∉ (stateOf y).owned ∧ (stateOf y).shared (slotKey n) = ∅ := by
  refine ⟨notMem_keysOf (n := n) (by simp [slotKeys]), ?_⟩
  rw [Set.eq_empty_iff_forall_notMem]
  rintro m (⟨hk, -⟩ | ⟨hk, -⟩)
  · exact (slotKey_notMem _ _).1 hk
  · exact (slotKey_notMem _ _).2 hk

theorem slotScope_apart {slot : ℕ} {F : SlotFootprint}
    (hkeys : ∀ k ∈ F.owned, k ∉ keysOf y)
    (hshared : ∀ k, ∀ m ∈ F.shared k, (∃ h, k ∈ schedules h) ∧ m ∉ membersOf y ∨
      (∃ h, k ∈ listings h) ∧ m ≠ y) :
    (slotScope SubCall.IsShard slot F).Apart (stateOf y) := by
  constructor
  · rintro k (hk | rfl)
    · exact ⟨hkeys k hk, stateOf_shared_eq (F.owned_slot k hk)⟩
    · exact slotKey_apart slot
  · intro k m hm
    obtain ⟨⟨h, hk⟩, hmem⟩ | ⟨⟨h, hk⟩, hne⟩ := hshared k m hm
    · refine ⟨notMem_keysOf (mem_slotKeys_of_schedules hk), ?_⟩
      rintro (⟨-, hm⟩ | ⟨hl, -⟩)
      · exact hmem hm
      · exact listings_notMem_schedules hl hk
    · refine ⟨notMem_keysOf (mem_slotKeys_of_listings hk), ?_⟩
      rintro (⟨hs, -⟩ | ⟨-, rfl⟩)
      · exact listings_notMem_schedules hk hs
      · exact hne rfl

theorem subScope_apart (hne : x ≠ y) (hkeys : Disjoint (keysOf x) (keysOf y))
    (hmembers : Disjoint (membersOf x) (membersOf y)) (names : Bytes → Prop) {lists : Set Bytes}
    (hlists : lists ⊆ listings (slotOf x)) :
    (subScope SubCall.IsShard x names lists).Apart (stateOf y) := by
  refine slotScope_apart ?_ ?_
  · exact fun k hk => Set.disjoint_left.mp hkeys (keyIn_iff.mp hk)
  · rintro k m (⟨hk, -, hm⟩ | ⟨hk, rfl⟩)
    · exact .inl ⟨⟨_, hk⟩, Set.disjoint_left.mp hmembers (memberIn_iff.mp hm)⟩
    · exact .inr ⟨⟨_, hlists hk⟩, hne⟩

theorem subKey_shardMember_notMem (hne : x ≠ y) (hxy : ¬ Extends x y)
    (hkeys : Disjoint (keysOf x) (keysOf y)) (g : ℕ) : subKey (shardMember x g) ∉ keysOf y := by
  by_cases hg : g = 0
  · subst hg
    exact Set.disjoint_left.mp hkeys (.inl (.inl rfl))
  intro hmem
  obtain ⟨t, ht, heq⟩ := mem_keysOf.mp hmem
  rw [← List.append_nil (subKey (shardMember x g))] at heq
  have heq' := (subKey_append_inj heq).2
  rw [List.append_nil, shardMember, if_neg hg, List.append_assoc] at heq'
  obtain ⟨hy, -⟩ | ⟨hx, -⟩ := overlap hne (.shard (Nat.pos_of_ne_zero hg)) ht heq'
  · exact hxy (.inl ⟨g, by omega, by rw [hy, List.append_assoc]⟩)
  · rw [← hx] at heq'
    have hnil := List.append_right_eq_self.mp heq'
    cases hnil

theorem memberScope_apart (hne : x ≠ y) (hxy : ¬ Extends x y)
    (hkeys : Disjoint (keysOf x) (keysOf y)) (hmembers : Disjoint (membersOf x) (membersOf y))
    (g : ℕ) : (memberScope (shardMember x g)).Apart (stateOf y) := by
  refine slotScope_apart ?_ ?_
  · rintro k rfl
    exact subKey_shardMember_notMem hne hxy hkeys g
  · rintro k m ⟨hk, rfl⟩
    exact .inl ⟨⟨_, hk⟩, Set.disjoint_left.mp hmembers ⟨g, rfl⟩⟩

variable [Number ν]

theorem isolated_of_within {c : SubCall} {slot : ℕ} {F : SlotFootprint}
    (hwithin : Within (slotScope SubCall.IsShard slot F) (c.run : Script ν _))
    (hapart : (slotScope SubCall.IsShard slot F).Apart (stateOf y)) : c.Isolated ν y := by
  intro db hdb
  have hrun := hwithin.respects hdb.holds
  refine ⟨sane_of_scope hrun.holds (hrun.typed hdb.typed), hapart.untouched hrun.allows, ?_⟩
  intro db' hdb' hallows
  exact hwithin.agree hapart hdb.holds hdb'.holds hdb.typed hdb'.typed hallows

/-- Two subscriptions are isolated from each other exactly if neither id is the other one with the
suffix of a shard or, in the same slot, of one of the other keys. -/
theorem isolated_iff (hne : x ≠ y) :
    (Disjoint (keysOf x) (keysOf y) ∧ Disjoint (membersOf x) (membersOf y) ∧
      ∀ c : SubCall, c.For x → c.Isolated ν y) ↔ ¬ Extends x y ∧ ¬ Extends y x := by
  constructor
  · rintro ⟨hkeys, hmembers, -⟩
    exact ⟨fun h => not_disjoint_of_extends h hkeys hmembers,
      fun h => not_disjoint_of_extends h hkeys.symm hmembers.symm⟩
  · rintro ⟨hxy, hyx⟩
    have hkeys := keysOf_disjoint hne hxy hyx
    have hmembers := membersOf_disjoint hne hxy hyx
    refine ⟨hkeys, hmembers, ?_⟩
    rintro c (rfl | ⟨r, g, rfl, hr, hid⟩)
    · exact isolated_of_within c.run_within (subScope_apart hne hkeys hmembers _ c.lists_subset)
    · have hapart := memberScope_apart hne hxy hkeys hmembers g
      rw [← hid] at hapart
      exact isolated_of_within (.bind (Request.run_onMember_within hr) fun _ => .pure _) hapart

theorem isolated_iff_prefix :
    Disjoint (keysOf (Bytes.ascii "a")) (keysOf (Bytes.ascii "a:b")) ∧
      ∀ c : SubCall, c.For (Bytes.ascii "a") → c.Isolated ℤ (Bytes.ascii "a:b") := by
  have hlong : ∀ x y : Bytes, y.length ≤ x.length + 3 → (∀ w ∈ words, y ≠ x ++ 58 :: w) →
      ¬ Extends x y := by
    rintro x y hlen hwords (⟨g, -, rfl⟩ | ⟨-, w, hw, rfl⟩)
    · have hpos := List.length_pos_of_ne_nil (Decimal.formatNat_ne_nil g)
      have hthree : shardSuffix.length = 3 := rfl
      simp only [List.length_append] at hlen
      omega
    · exact hwords w hw rfl
  have h := (isolated_iff (ν := ℤ) (show Bytes.ascii "a" ≠ Bytes.ascii "a:b" by decide)).mpr
    ⟨hlong _ _ (by decide) (by decide), hlong _ _ (by decide) (by decide)⟩
  exact ⟨h.1, h.2.2⟩

def clashing : Db ℤ :=
  ((SubCall.create (Bytes.ascii "a") {}).run
    ((SubCall.create (Bytes.ascii "a:g:1") {}).run fun _ => none).1).1

def clashingClaim : SubCall :=
  .request (.claim (Bytes.ascii "a") 1 (Bytes.ascii "w") zero one one
    { owner := [], incarnation := one, cfgHash := [], paths := [] })

/-- A claim for one subscription puts the other one into the hands of the worker. -/
theorem shard_takes_subscription :
    subShardKey (Bytes.ascii "a") 1 = subKey (Bytes.ascii "a:g:1") ∧
      shardMember (Bytes.ascii "a") 1 = shardMember (Bytes.ascii "a:g:1") 0 ∧
      (get (subKey (Bytes.ascii "a:g:1")) .phase clashing).2 = some (some (phaseName .idle)) ∧
      (get (subKey (Bytes.ascii "a:g:1")) .phase (clashingClaim.run clashing).1).2 =
        some (some (phaseName .live)) := by
  decide +kernel

end Isolation

end Chronicle.Webhook
