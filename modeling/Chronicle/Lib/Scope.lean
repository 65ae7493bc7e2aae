import Chronicle.Lib.Keyspace

/-! # Scripts within a scope

A scope says which keys a script may read, which keys it may write as it likes,
and which entries it may change in the sets and sorted sets that it shares with
others. A script that is built from commands within a scope changes nothing
outside of the scope, and nothing outside of the scope has an influence on it.
-/

namespace Keyspace

variable {ν α β : Type}

/-- What a script may touch. -/
structure Scope extends Footprint where
  reads : Set Bytes
  scored : Set Bytes
  listed : Set Bytes
  holds : Bytes → Bytes → Prop
  owned_scored : ∀ k ∈ owned, k ∉ scored
  owned_listed : ∀ k ∈ owned, k ∉ listed
  scored_listed : ∀ k ∈ scored, k ∉ listed

namespace Scope

def Readable (S : Scope) (k : Bytes) : Prop := k ∈ S.owned ∨ k ∈ S.reads

def Holds (S : Scope) (db : Db ν) : Prop :=
  ∀ k s, db k = some (.set s) → ∀ x ∈ s, S.holds k x

end Scope

def IsScored (v : Option (Value ν)) : Prop := v = none ∨ ∃ z, v = some (.zset z)

def IsListed (v : Option (Value ν)) : Prop := v = none ∨ ∃ s, v = some (.set s)

structure Scope.Typed (S : Scope) (db : Db ν) : Prop where
  scored : ∀ k ∈ S.scored, IsScored (db k)
  listed : ∀ k ∈ S.listed, IsListed (db k)

inductive Within (S : Scope) : {α : Type} → Script ν α → Prop where
  | pure {α : Type} (a : α) : Within S (Pure.pure a)
  | ofOption {α : Type} (a : Option α) : Within S (Keyspace.ofOption a)
  | bind {α β : Type} {m : Script ν α} {f : α → Script ν β} :
      Within S m → (∀ a, Within S (f a)) → Within S (m >>= f)
  | existsKey {k : Bytes} : S.Readable k → Within S (Keyspace.existsKey k)
  | hget {k : Bytes} (field : Bytes) : S.Readable k → Within S (Keyspace.hget k field)
  | hlen {k : Bytes} : S.Readable k → Within S (Keyspace.hlen k)
  | text {k : Bytes} : S.Readable k → Within S fun db => (db, db.text k)
  | smembers {β : Type} {k : Bytes} {f : List Bytes → Script ν β} :
      S.Readable k → (∀ s, (∀ x ∈ s, S.holds k x) → Within S (f s)) →
      Within S (Keyspace.smembers k >>= f)
  | put {k : Bytes} {v : Option (Value ν)} :
      k ∈ S.owned → (∀ s, v ≠ some (.set s)) → Within S (Keyspace.put k v)
  | hset {k : Bytes} (fields : List (Bytes × Bytes)) :
      k ∈ S.owned → Within S (Keyspace.hset k fields)
  | hdel {k : Bytes} (field : Bytes) : k ∈ S.owned → Within S (Keyspace.hdel k field)
  | sadd {k x : Bytes} : k ∈ S.owned → S.holds k x → Within S (Keyspace.sadd k x)
  | list {k x : Bytes} :
      k ∈ S.listed → x ∈ S.shared k → S.holds k x → Within S (Keyspace.sadd k x)
  | srem {k x : Bytes} : k ∈ S.listed → x ∈ S.shared k → Within S (Keyspace.srem k x)
  | zadd {k x : Bytes} (score : ν) :
      k ∈ S.scored → x ∈ S.shared k → Within S (Keyspace.zadd k score x)
  | zrem {k x : Bytes} : k ∈ S.scored → x ∈ S.shared k → Within S (Keyspace.zrem k x)

variable {S : Scope} {m : Script ν α} {k x : Bytes}

section Build

theorem Within.del (hk : k ∈ S.owned) : Within S (Keyspace.del k : Script ν Unit) :=
  .put hk nofun

theorem Within.hincr (hk : k ∈ S.owned) (field : Bytes) :
    Within S (Keyspace.hincr k field : Script ν ℤ) :=
  .bind (.hget field (.inl hk)) fun _ => .bind (.ofOption _) fun _ => .bind (.hset _ hk) fun _ =>
    .pure _

theorem Within.incr (hk : k ∈ S.owned) : Within S (Keyspace.incr k : Script ν ℤ) :=
  .bind (.text (.inl hk)) fun _ => .bind (.ofOption _) fun _ => .bind (.put hk nofun) fun _ =>
    .pure _

theorem Within.each {f : α → Script ν Unit} {as : List α} (h : ∀ a ∈ as, Within S (f a)) :
    Within S (Keyspace.each f as) := by
  induction as with
  | nil => exact .pure ()
  | cons a as ih =>
    exact .bind (h a List.mem_cons_self) fun _ => ih fun b hb => h b (List.mem_cons_of_mem a hb)

end Build

section Frame

variable {db : Db ν} {v : Option (Value ν)}

theorem Scope.Holds.update (h : S.Holds db) (hv : ∀ s, v = some (.set s) → ∀ y ∈ s, S.holds k y) :
    S.Holds (Function.update db k v) := by
  intro k' s hs
  by_cases heq : k' = k
  · subst heq
    rw [Function.update_self] at hs
    exact hv s hs
  · rw [Function.update_of_ne heq] at hs
    exact h k' s hs

theorem Scope.Holds.members (h : S.Holds db) {s : List Bytes} (hs : db.members k = some s) :
    ∀ y ∈ s, S.holds k y := by
  unfold Db.members at hs
  split at hs
  · cases hs
    nofun
  · rename_i hk
    cases hs
    exact h k s hk
  · cases hs

theorem Scope.Typed.update (h : S.Typed db) (hz : k ∈ S.scored → IsScored v)
    (hl : k ∈ S.listed → IsListed v) : S.Typed (Function.update db k v) := by
  constructor
  · intro k' hk'
    by_cases heq : k' = k
    · subst heq
      rw [Function.update_self]
      exact hz hk'
    · rw [Function.update_of_ne heq]
      exact h.scored k' hk'
  · intro k' hk'
    by_cases heq : k' = k
    · subst heq
      rw [Function.update_self]
      exact hl hk'
    · rw [Function.update_of_ne heq]
      exact h.listed k' hk'

theorem Scope.Typed.own (h : S.Typed db) (hk : k ∈ S.owned) :
    S.Typed (Function.update db k v) :=
  h.update (fun hz => absurd hz (S.owned_scored k hk)) fun hl => absurd hl (S.owned_listed k hk)

theorem isScored_drop (z : Finmap fun _ : Bytes => ν) :
    IsScored (if z.keys = ∅ then none else some (.zset z)) := by
  split
  · exact .inl rfl
  · exact .inr ⟨z, rfl⟩

theorem isListed_drop (s : List Bytes) :
    IsListed (if s = [] then none else some (.set s) : Option (Value ν)) := by
  split
  · exact .inl rfl
  · exact .inr ⟨s, rfl⟩

/-- What a step of a script leaves as it was. -/
structure Scope.Respects (S : Scope) (db db' : Db ν) : Prop where
  allows : S.Allows db db'
  holds : S.Holds db'
  typed : S.Typed db → S.Typed db'

theorem Scope.Respects.same (h : S.Holds db) : S.Respects db db := ⟨.refl _ db, h, id⟩

theorem Scope.Respects.put (h : S.Holds db) (hk : k ∈ S.owned)
    (hv : ∀ s, v = some (.set s) → ∀ y ∈ s, S.holds k y) :
    S.Respects db (Function.update db k v) :=
  ⟨Keeps.put hk v db, h.update hv, fun ht => ht.own hk⟩

theorem Scope.Respects.hset (h : S.Holds db) (hk : k ∈ S.owned) (fields : List (Bytes × Bytes)) :
    S.Respects db (Keyspace.hset k fields db).1 := by
  unfold Keyspace.hset
  split
  · exact .same h
  · exact .put h hk nofun

theorem Scope.Respects.hdel (h : S.Holds db) (hk : k ∈ S.owned) (field : Bytes) :
    S.Respects db (Keyspace.hdel k field db).1 := by
  unfold Keyspace.hdel
  split
  · exact .same h
  · refine .put h hk ?_
    intro s hs
    split at hs <;> cases hs

theorem Scope.Holds.sadd (h : S.Holds db) (hx : S.holds k x) :
    S.Holds (Keyspace.sadd k x db).1 := by
  unfold Keyspace.sadd
  split
  · exact h
  · rename_i s hs
    refine h.update fun s' hs' y hy => ?_
    cases hs'
    split at hy
    · exact h.members hs y hy
    · rw [List.mem_append, List.mem_singleton] at hy
      obtain hy | rfl := hy
      · exact h.members hs y hy
      · exact hx

theorem Scope.Respects.sadd (h : S.Holds db) (hk : k ∈ S.owned) (hx : S.holds k x) :
    S.Respects db (Keyspace.sadd k x db).1 := by
  refine ⟨Keeps.sadd hk x db, h.sadd hx, fun ht => ?_⟩
  unfold Keyspace.sadd
  split
  · exact ht
  · exact ht.own hk

theorem Scope.Respects.list (h : S.Holds db) (hk : k ∈ S.listed) (hmem : x ∈ S.shared k)
    (hx : S.holds k x) : S.Respects db (Keyspace.sadd k x db).1 := by
  refine ⟨Keeps.list hmem db, h.sadd hx, fun ht => ?_⟩
  unfold Keyspace.sadd
  split
  · exact ht
  · exact ht.update (fun hz => absurd hk (S.scored_listed k hz)) fun _ => .inr ⟨_, rfl⟩

theorem Scope.Respects.srem (h : S.Holds db) (hk : k ∈ S.listed) (hmem : x ∈ S.shared k) :
    S.Respects db (Keyspace.srem k x db).1 := by
  refine ⟨Keeps.srem hmem db, ?_, fun ht => ?_⟩
  all_goals
    unfold Keyspace.srem
    split
    · assumption
    rename_i s hs
    split
    case isFalse => assumption
  · refine h.update fun s' hs' y hy => ?_
    split at hs'
    · cases hs'
    · cases hs'
      exact h.members hs y (List.mem_of_mem_filter hy)
  · exact ht.update (fun hz => absurd hk (S.scored_listed k hz)) fun _ => isListed_drop _

theorem Scope.Respects.score {db' : Db ν} (h : S.Holds db) (hk : k ∈ S.scored)
    (hallows : S.Allows db db') (hdb : db' = db ∨ ∃ v, IsScored v ∧ db' = Function.update db k v) :
    S.Respects db db' := by
  obtain rfl | ⟨v, hv, rfl⟩ := hdb
  · exact .same h
  · refine ⟨hallows, h.update ?_, fun ht => ht.update (fun _ => hv) fun hl =>
      absurd hl (S.scored_listed k hk)⟩
    rintro s rfl
    obtain hv | ⟨z, hz⟩ := hv
    · cases hv
    · cases hz

theorem Scope.Respects.zadd (h : S.Holds db) (hk : k ∈ S.scored) (hmem : x ∈ S.shared k)
    (score : ν) : S.Respects db (Keyspace.zadd k score x db).1 := by
  refine .score h hk (Keeps.zadd hmem score db) ?_
  unfold Keyspace.zadd
  split
  · exact .inl rfl
  · exact .inr ⟨_, .inr ⟨_, rfl⟩, rfl⟩

theorem Scope.Respects.zrem (h : S.Holds db) (hk : k ∈ S.scored) (hmem : x ∈ S.shared k) :
    S.Respects db (Keyspace.zrem k x db).1 := by
  refine .score h hk (Keeps.zrem hmem db) ?_
  unfold Keyspace.zrem
  split
  · exact .inl rfl
  · split
    · exact .inr ⟨_, isScored_drop _, rfl⟩
    · exact .inl rfl

/-- A script within a scope changes nothing outside of it. -/
theorem Within.respects (h : Within S m) (hdb : S.Holds db) : S.Respects db (m db).1 := by
  induction h generalizing db with
  | pure | ofOption | existsKey | hget | hlen | text => exact .same hdb
  | @bind _ _ m f _ _ ihm ihf =>
    have hm := ihm hdb
    rcases hr : m db with ⟨db', _ | a⟩
    · rw [hr] at hm
      rwa [bind_failed hr]
    · rw [hr] at hm
      have hf := ihf a hm.holds
      rw [bind_run hr]
      exact ⟨hm.allows.trans hf.allows, hf.holds, fun ht => hf.typed (hm.typed ht)⟩
  | @smembers _ k f _ _ ihf =>
    rw [(readOnly_smembers k).bind_run f db]
    split
    · rename_i s hs
      exact ihf s (hdb.members hs) hdb
    · exact .same hdb
  | put hk hv => exact .put hdb hk fun s hs => absurd hs (hv s)
  | hset fields hk => exact .hset hdb hk fields
  | hdel field hk => exact .hdel hdb hk field
  | sadd hk hx => exact .sadd hdb hk hx
  | list hk hmem hx => exact .list hdb hk hmem hx
  | srem hk hmem => exact .srem hdb hk hmem
  | zadd score hk hmem => exact .zadd hdb hk hmem score
  | zrem hk hmem => exact .zrem hdb hk hmem

end Frame

section Careful

variable {refused : β → Prop} {f : α → Script ν β} {n : Script ν β}

/-- A script within a scope that writes nothing. -/
structure Looks (S : Scope) (m : Script ν α) : Prop where
  within : Within S m
  readOnly : ReadOnly m

theorem Looks.pure (a : α) : Looks S (Pure.pure a : Script ν α) := ⟨.pure a, readOnly_pure a⟩

theorem Looks.ofOption (a : Option α) : Looks S (Keyspace.ofOption a : Script ν α) :=
  ⟨.ofOption a, readOnly_ofOption a⟩

theorem Looks.existsKey (hk : S.Readable k) : Looks S (Keyspace.existsKey k : Script ν Bool) :=
  ⟨.existsKey hk, readOnly_existsKey k⟩

theorem Looks.hget (hk : S.Readable k) (field : Bytes) :
    Looks S (Keyspace.hget k field : Script ν _) := ⟨.hget field hk, readOnly_hget k field⟩

theorem Looks.hlen (hk : S.Readable k) : Looks S (Keyspace.hlen k : Script ν ℕ) :=
  ⟨.hlen hk, readOnly_hlen k⟩

theorem Looks.bind (hm : Looks S m) (hf : ∀ a, Looks S (f a)) : Looks S (m >>= f) :=
  ⟨.bind hm.within fun a => (hf a).within, .bind hm.readOnly fun a => (hf a).readOnly⟩

/-- A script within a scope that does not refuse. -/
structure Accepts (S : Scope) (refused : β → Prop) (n : Script ν β) : Prop where
  within : Within S n
  accepts : ∀ db, AcceptsOn refused n db

theorem Accepts.pure {r : β} (h : ¬ refused r) : Accepts S refused (Pure.pure r : Script ν β) :=
  ⟨.pure r, acceptsOn_pure h⟩

theorem Accepts.bind (hm : Within S m) (hf : ∀ a, Accepts S refused (f a)) :
    Accepts S refused (m >>= f) :=
  ⟨.bind hm fun a => (hf a).within, acceptsOn_bind fun a => (hf a).accepts⟩

/-- A script within a scope that has changed nothing when it refuses. -/
structure Careful (S : Scope) (refused : β → Prop) (n : Script ν β) : Prop where
  within : Within S n
  inert : Inert refused n

theorem Careful.pure (r : β) : Careful S refused (Pure.pure r : Script ν β) := ⟨.pure r, .pure r⟩

theorem Careful.look (hm : Looks S m) (hf : ∀ a, Careful S refused (f a)) :
    Careful S refused (m >>= f) :=
  ⟨.bind hm.within fun a => (hf a).within, .read hm.readOnly fun a => (hf a).inert⟩

theorem Accepts.careful (h : Accepts S refused n) : Careful S refused n :=
  ⟨h.within, .of_accepts h.accepts⟩

end Careful

section Blind

variable {H : Footprint} {db db' : Db ν} {v v' : Option (Value ν)}

structure Scope.Apart (S : Scope) (H : Footprint) : Prop where
  readable : ∀ k, S.Readable k → k ∉ H.owned ∧ H.shared k = ∅
  shared : ∀ k, ∀ x ∈ S.shared k, k ∉ H.owned ∧ x ∉ H.shared k

theorem Scope.Apart.eq (h : S.Apart H) (hk : S.Readable k) (hdb : H.Allows db db') :
    db' k = db k :=
  hdb.key k (h.readable k hk).1 (h.readable k hk).2

def Footprint.Untouched (H : Footprint) (db db' : Db ν) : Prop :=
  (∀ k ∈ H.owned, db' k = db k) ∧
    ∀ k, ∀ x ∈ H.shared k, Value.entry (db' k) x = Value.entry (db k) x

theorem Scope.Apart.untouched (h : S.Apart H) (hdb : S.Allows db db') : H.Untouched db db' := by
  constructor
  · intro k hk
    refine hdb.key k (fun howned => (h.readable k (.inl howned)).1 hk) ?_
    rw [Set.eq_empty_iff_forall_notMem]
    exact fun x hx => (h.shared k x hx).1 hk
  · intro k x hx
    refine hdb.entry k (fun howned => ?_) x fun hshared => (h.shared k x hshared).2 hx
    rw [(h.readable k (.inl howned)).2] at hx
    exact hx

theorem Footprint.Allows.update (h : H.Allows db db') (hv : H.shared k = ∅ → v' = v)
    (hentry : ∀ y ∉ H.shared k, Value.entry v' y = Value.entry v y) :
    H.Allows (Function.update db k v) (Function.update db' k v') := by
  constructor
  · intro k' hk' hs
    by_cases heq : k' = k
    · subst heq
      rw [Function.update_self, Function.update_self]
      exact hv hs
    · rw [Function.update_of_ne heq, Function.update_of_ne heq]
      exact h.key k' hk' hs
  · intro k' hk' y hy
    by_cases heq : k' = k
    · subst heq
      rw [Function.update_self, Function.update_self]
      exact hentry y hy
    · rw [Function.update_of_ne heq, Function.update_of_ne heq]
      exact h.entry k' hk' y hy

/-- Both runs of a script answer alike, and differ as before in what they leave. -/
def Agree (H : Footprint) (r r' : Db ν × Option α) : Prop := r'.2 = r.2 ∧ H.Allows r.1 r'.1

theorem Agree.put (h : H.Allows db db') (k : Bytes) (v : Option (Value ν)) :
    Agree H (Keyspace.put k v db) (Keyspace.put k v db') :=
  ⟨rfl, h.update (fun _ => rfl) fun _ _ => rfl⟩

theorem Agree.hset (h : H.Allows db db') (heq : db' k = db k) (fields : List (Bytes × Bytes)) :
    Agree H (Keyspace.hset k fields db) (Keyspace.hset k fields db') := by
  unfold Keyspace.hset Db.fields
  rw [heq]
  split
  · exact ⟨rfl, h⟩
  · exact .put h k _

theorem Agree.hdel (h : H.Allows db db') (heq : db' k = db k) (field : Bytes) :
    Agree H (Keyspace.hdel k field db) (Keyspace.hdel k field db') := by
  unfold Keyspace.hdel Db.fields
  rw [heq]
  split
  · exact ⟨rfl, h⟩
  · exact .put h k _

theorem Agree.sadd (h : H.Allows db db') (heq : db' k = db k) (x : Bytes) :
    Agree H (Keyspace.sadd k x db) (Keyspace.sadd k x db') := by
  unfold Keyspace.sadd Db.members
  rw [heq]
  split
  · exact ⟨rfl, h⟩
  · exact .put h k _

theorem IsListed.members (h : IsListed (db k)) : ∃ s, db.members k = some s := by
  unfold Db.members
  obtain h | ⟨s, h⟩ := h <;> rw [h] <;> exact ⟨_, rfl⟩

theorem IsScored.scores (h : IsScored (db k)) : ∃ z, db.scores k = some z := by
  unfold Db.scores
  obtain h | ⟨z, h⟩ := h <;> rw [h] <;> exact ⟨_, rfl⟩

section Listed

variable (h : H.Allows db db') (hk : k ∉ H.owned) (hs : IsListed (db k)) (hs' : IsListed (db' k))
include h hk

theorem Footprint.Allows.mem_iff {s s' : List Bytes} (hs : db.members k = some s)
    (hs' : db'.members k = some s') {y : Bytes} (hy : y ∉ H.shared k) : y ∈ s' ↔ y ∈ s := by
  have hentry := h.entry k hk y hy
  rw [Db.members_entry hs, Db.members_entry hs'] at hentry
  by_cases hmem : y ∈ s <;> by_cases hmem' : y ∈ s' <;> simp_all

theorem Footprint.Allows.members_eq {s s' : List Bytes} (hs : db.members k = some s)
    (hs' : db'.members k = some s') (hnone : H.shared k = ∅) : s' = s := by
  unfold Db.members at hs hs'
  rw [h.key k hk hnone, hs] at hs'
  exact (Option.some.inj hs').symm

include hs hs'

theorem Agree.list (x : Bytes) : Agree H (Keyspace.sadd k x db) (Keyspace.sadd k x db') := by
  obtain ⟨s, hs⟩ := hs.members
  obtain ⟨s', hs'⟩ := hs'.members
  unfold Keyspace.sadd
  rw [hs, hs']
  refine ⟨rfl, h.update (fun hnone => ?_) fun y hy => ?_⟩
  · rw [h.members_eq hk hs hs' hnone]
  · have hmem : ∀ t : List Bytes, (y ∈ if x ∈ t then t else t ++ [x]) ↔ y ∈ t ∨ y = x := by
      intro t
      split
      · rename_i hx
        exact ⟨.inl, fun hy => hy.elim id fun heq => heq ▸ hx⟩
      · simp
    simp only [Value.entry, hmem, h.mem_iff hk hs hs' hy]

theorem Agree.srem (hx : x ∉ H.shared k) :
    Agree H (Keyspace.srem k x db) (Keyspace.srem k x db') := by
  obtain ⟨s, hs⟩ := hs.members
  obtain ⟨s', hs'⟩ := hs'.members
  unfold Keyspace.srem
  rw [hs, hs']
  dsimp only
  by_cases hmem : x ∈ s
  · rw [if_pos hmem, if_pos ((h.mem_iff hk hs hs' hx).mpr hmem)]
    refine ⟨rfl, h.update (fun hnone => ?_) fun y hy => ?_⟩
    · rw [h.members_eq hk hs hs' hnone]
    · rw [entry_set, entry_set]
      simp only [List.mem_filter, h.mem_iff hk hs hs' hy]
  · rw [if_neg hmem, if_neg fun hmem' => hmem ((h.mem_iff hk hs hs' hx).mp hmem')]
    exact ⟨rfl, h⟩

end Listed

section Scored

variable (h : H.Allows db db') (hk : k ∉ H.owned) (hz : IsScored (db k)) (hz' : IsScored (db' k))
include h hk

theorem Footprint.Allows.lookup_eq {z z' : Finmap fun _ : Bytes => ν} (hz : db.scores k = some z)
    (hz' : db'.scores k = some z') {y : Bytes} (hy : y ∉ H.shared k) :
    z'.lookup y = z.lookup y := by
  have hentry := h.entry k hk y hy
  rw [Db.scores_entry hz, Db.scores_entry hz'] at hentry
  exact Option.map_injective (fun a b hab => by cases hab; rfl) hentry

theorem Footprint.Allows.scores_eq {z z' : Finmap fun _ : Bytes => ν} (hz : db.scores k = some z)
    (hz' : db'.scores k = some z') (hnone : H.shared k = ∅) : z' = z := by
  unfold Db.scores at hz hz'
  rw [h.key k hk hnone, hz] at hz'
  exact (Option.some.inj hz').symm

include hz hz'

theorem Agree.zadd (x : Bytes) (score : ν) :
    Agree H (Keyspace.zadd k score x db) (Keyspace.zadd k score x db') := by
  obtain ⟨z, hz⟩ := hz.scores
  obtain ⟨z', hz'⟩ := hz'.scores
  unfold Keyspace.zadd
  rw [hz, hz']
  refine ⟨rfl, h.update (fun hnone => ?_) fun y hy => ?_⟩
  · rw [h.scores_eq hk hz hz' hnone]
  · change ((z'.insert x score).lookup y).map Entry.score = ((z.insert x score).lookup y).map _
    by_cases hyx : y = x
    · rw [hyx, Finmap.lookup_insert, Finmap.lookup_insert]
    · rw [Finmap.lookup_insert_of_ne z' hyx, Finmap.lookup_insert_of_ne z hyx,
        h.lookup_eq hk hz hz' hy]

theorem Agree.zrem (hx : x ∉ H.shared k) :
    Agree H (Keyspace.zrem k x db) (Keyspace.zrem k x db') := by
  obtain ⟨z, hz⟩ := hz.scores
  obtain ⟨z', hz'⟩ := hz'.scores
  have hmem : x ∈ z' ↔ x ∈ z := by
    rw [← Finmap.lookup_isSome, ← Finmap.lookup_isSome, h.lookup_eq hk hz hz' hx]
  unfold Keyspace.zrem
  rw [hz, hz']
  dsimp only
  by_cases hxz : x ∈ z
  · rw [if_pos hxz, if_pos (hmem.mpr hxz)]
    refine ⟨rfl, h.update (fun hnone => ?_) fun y hy => ?_⟩
    · rw [h.scores_eq hk hz hz' hnone]
    · rw [entry_zset, entry_zset]
      by_cases hyx : y = x
      · rw [hyx, Finmap.lookup_erase, Finmap.lookup_erase]
      · rw [Finmap.lookup_erase_ne hyx, Finmap.lookup_erase_ne hyx, h.lookup_eq hk hz hz' hy]
  · rw [if_neg hxz, if_neg fun hxz' => hxz (hmem.mp hxz')]
    exact ⟨rfl, h⟩

end Scored

/-- What lies outside of the scope of a script has no influence on it. -/
theorem Within.agree (h : Within S m) (hH : S.Apart H) (hdb : S.Holds db) (hdb' : S.Holds db')
    (ht : S.Typed db) (ht' : S.Typed db') (hd : H.Allows db db') : Agree H (m db) (m db') := by
  induction h generalizing db db' with
  | pure | ofOption => exact ⟨rfl, hd⟩
  | existsKey hk =>
    refine ⟨?_, hd⟩
    simp only [Keyspace.existsKey, hH.eq hk hd]
  | hget field hk | hlen hk =>
    refine ⟨?_, hd⟩
    simp only [Keyspace.hget, Keyspace.hlen, Db.fields, hH.eq hk hd]
  | text hk =>
    refine ⟨?_, hd⟩
    simp only [Db.text, hH.eq hk hd]
  | @bind _ _ m f hm _ ihm ihf =>
    obtain ⟨hres, hdm⟩ := ihm hdb hdb' ht ht' hd
    have hm₁ := hm.respects hdb
    have hm₂ := hm.respects hdb'
    rcases hr : m db with ⟨db₁, a⟩
    rcases hr' : m db' with ⟨db₂, a'⟩
    rw [hr, hr'] at hres hdm
    rw [hr] at hm₁
    rw [hr'] at hm₂
    obtain rfl : a' = a := hres
    cases a' with
    | none =>
      rw [bind_failed hr, bind_failed hr']
      exact ⟨rfl, hdm⟩
    | some a =>
      rw [bind_run hr, bind_run hr']
      exact ihf a hm₁.holds hm₂.holds (hm₁.typed ht) (hm₂.typed ht') hdm
  | @smembers _ k f hk _ ihf =>
    rw [(readOnly_smembers k).bind_run f db, (readOnly_smembers k).bind_run f db']
    have hmem : db'.members k = db.members k := by simp only [Db.members, hH.eq hk hd]
    simp only [Keyspace.smembers, hmem]
    cases hs : db.members k with
    | none => exact ⟨rfl, hd⟩
    | some s => exact ihf s (hdb.members hs) hdb hdb' ht ht' hd
  | put => exact .put hd _ _
  | hset fields hk => exact .hset hd (hH.eq (.inl hk) hd) fields
  | hdel field hk => exact .hdel hd (hH.eq (.inl hk) hd) field
  | sadd hk => exact .sadd hd (hH.eq (.inl hk) hd) _
  | list hk hx => exact .list hd (hH.shared _ _ hx).1 (ht.listed _ hk) (ht'.listed _ hk) _
  | srem hk hx =>
    exact .srem hd (hH.shared _ _ hx).1 (ht.listed _ hk) (ht'.listed _ hk) (hH.shared _ _ hx).2
  | zadd score hk hx =>
    exact .zadd hd (hH.shared _ _ hx).1 (ht.scored _ hk) (ht'.scored _ hk) _ score
  | zrem hk hx =>
    exact .zrem hd (hH.shared _ _ hx).1 (ht.scored _ hk) (ht'.scored _ hk) (hH.shared _ _ hx).2

end Blind

end Keyspace
