import Mathlib.Data.Finmap
import Chronicle.Lib.Decimal

/-! # Scripts over a keyspace

A key holds a string, a hash, a set or a sorted set. A script is a sequence of
commands that runs as one step: each command sees what the ones before it have
written, and a command that fails ends the script. Two rules for scripts are
built up along their commands: which entries of which keys a script can change,
and that a script which refuses a request has changed nothing.
-/

namespace Keyspace

/-- What a key holds. A key whose last entry is removed is removed as well. -/
inductive Value (ν : Type) where
  | string (v : Bytes)
  | hash (fields : Finmap fun _ : Bytes => Bytes)
  | set (members : List Bytes)
  | zset (scores : Finmap fun _ : Bytes => ν)

abbrev Db (ν : Type) := Bytes → Option (Value ν)

/-- A script gives the keys that it leaves and its result. An error ends it, and what was written
until then stays. -/
def Script (ν : Type) (α : Type) := Db ν → Db ν × Option α

variable {ν α β : Type}

instance : Monad (Script ν) where
  pure a := fun db => (db, some a)
  bind m f := fun db =>
    match m db with
    | (db', some a) => f a db'
    | (db', none) => (db', none)

/-- The numbers of the script language. Nothing is assumed about them. -/
class Number (ν : Type) where
  tonumber : Bytes → Option ν
  tostring : ν → Bytes
  /-- The score that a command reads from its argument. -/
  score : Bytes → Option ν
  ofNat : ℕ → ν
  add : ν → ν → ν
  mul : ν → ν → ν
  lt : ν → ν → Bool
  le : ν → ν → Bool

/-- Exact integers. -/
instance : Number ℤ where
  tonumber := Decimal.parseInt
  tostring := Decimal.formatInt
  score := Decimal.parseInt
  ofNat n := n
  add := (· + ·)
  mul := (· * ·)
  lt a b := a < b
  le a b := a ≤ b

section Commands

def ofOption (a : Option α) : Script ν α := fun db => (db, a)

/-- The fields of a hash; no key is an empty hash, and any other key is an error. -/
def Db.fields (db : Db ν) (k : Bytes) : Option (Finmap fun _ : Bytes => Bytes) :=
  match db k with
  | none => some ∅
  | some (.hash h) => some h
  | some _ => none

def Db.members (db : Db ν) (k : Bytes) : Option (List Bytes) :=
  match db k with
  | none => some []
  | some (.set s) => some s
  | some _ => none

def Db.scores (db : Db ν) (k : Bytes) : Option (Finmap fun _ : Bytes => ν) :=
  match db k with
  | none => some ∅
  | some (.zset z) => some z
  | some _ => none

def Db.text (db : Db ν) (k : Bytes) : Option (Option Bytes) :=
  match db k with
  | none => some none
  | some (.string v) => some (some v)
  | some _ => none

def existsKey (k : Bytes) : Script ν Bool := fun db => (db, some (db k).isSome)

def hget (k field : Bytes) : Script ν (Option Bytes) :=
  fun db => (db, (db.fields k).map (·.lookup field))

def hlen (k : Bytes) : Script ν ℕ := fun db => (db, (db.fields k).map (·.keys.card))

def smembers (k : Bytes) : Script ν (List Bytes) := fun db => (db, db.members k)

def put (k : Bytes) (v : Option (Value ν)) : Script ν Unit :=
  fun db => (Function.update db k v, some ())

def del (k : Bytes) : Script ν Unit := put k none

def hset (k : Bytes) (fields : List (Bytes × Bytes)) : Script ν Unit := fun db =>
  match db.fields k with
  | none => (db, none)
  | some h => put k (some (.hash (fields.foldl (fun h (f, v) => h.insert f v) h))) db

def hdel (k field : Bytes) : Script ν Unit := fun db =>
  match db.fields k with
  | none => (db, none)
  | some h =>
    let h := h.erase field
    put k (if h.keys = ∅ then none else some (.hash h)) db

def storedInt (v : Option Bytes) : Option ℤ :=
  match v with
  | none => some 0
  | some s => (Decimal.parseInt s).filter fun n => Decimal.formatInt n = s

def nextInt (n : ℤ) : Option ℤ := if n + 1 < 2 ^ 63 then some (n + 1) else none

def hincr (k field : Bytes) : Script ν ℤ := do
  let cur ← hget k field
  let n ← ofOption ((storedInt cur).bind nextInt)
  hset k [(field, Decimal.formatInt n)]
  return n

def incr (k : Bytes) : Script ν ℤ := do
  let cur ← fun db => (db, db.text k)
  let n ← ofOption ((storedInt cur).bind nextInt)
  put k (some (.string (Decimal.formatInt n)))
  return n

def zadd (k : Bytes) (score : ν) (x : Bytes) : Script ν Unit := fun db =>
  match db.scores k with
  | none => (db, none)
  | some z => put k (some (.zset (z.insert x score))) db

def zrem (k x : Bytes) : Script ν Unit := fun db =>
  match db.scores k with
  | none => (db, none)
  | some z =>
    if x ∈ z then
      let z := z.erase x
      put k (if z.keys = ∅ then none else some (.zset z)) db
    else (db, some ())

def sadd (k x : Bytes) : Script ν Unit := fun db =>
  match db.members k with
  | none => (db, none)
  | some s => put k (some (.set (if x ∈ s then s else s ++ [x]))) db

/-- Remove a member, and answer whether it was there. -/
def srem (k x : Bytes) : Script ν Bool := fun db =>
  match db.members k with
  | none => (db, none)
  | some s =>
    if x ∈ s then
      let s := s.filter (· ≠ x)
      ((put k (if s = [] then none else some (.set s)) db).1, some true)
    else (db, some false)

def each (f : α → Script ν Unit) : List α → Script ν Unit
  | [] => pure ()
  | a :: as => do
    f a
    each f as

end Commands

section ReadOnly

def ReadOnly (m : Script ν α) : Prop := ∀ db, (m db).1 = db

theorem readOnly_pure (a : α) : ReadOnly (pure a : Script ν α) := fun _ => rfl

theorem readOnly_ofOption (a : Option α) : ReadOnly (ofOption a : Script ν α) := fun _ => rfl

theorem readOnly_existsKey (k : Bytes) : ReadOnly (existsKey k : Script ν Bool) := fun _ => rfl

theorem readOnly_hget (k f : Bytes) : ReadOnly (hget k f : Script ν _) := fun _ => rfl

theorem readOnly_hlen (k : Bytes) : ReadOnly (hlen k : Script ν ℕ) := fun _ => rfl

theorem readOnly_smembers (k : Bytes) : ReadOnly (smembers k : Script ν _) := fun _ => rfl

variable {m : Script ν α} {f : α → Script ν β}

/-- A script after a read runs on the same keys. -/
theorem ReadOnly.bind_run (h : ReadOnly m) (f : α → Script ν β) (db : Db ν) :
    (m >>= f) db = match (m db).2 with | some a => f a db | none => (db, none) := by
  have hdb := h db
  change (match m db with | (db', some a) => f a db' | (db', none) => (db', none)) = _
  rcases hm : m db with ⟨db', _ | a⟩ <;> rw [hm] at hdb <;> cases hdb <;> rfl

theorem ReadOnly.bind (h : ReadOnly m) (hf : ∀ a, ReadOnly (f a)) : ReadOnly (m >>= f) := by
  intro db
  rw [h.bind_run]
  split
  · exact hf _ db
  · rfl

end ReadOnly

section Runs

variable {db : Db ν} {k : Bytes} {f : Finmap fun _ : Bytes => Bytes}

theorem bind_run {m : Script ν α} {a : α} {db' : Db ν} (h : m db = (db', some a))
    (g : α → Script ν β) : (m >>= g) db = g a db' := by
  change (match m db with | (db', some a) => g a db' | (db', none) => (db', none)) = _
  rw [h]

theorem bind_failed {m : Script ν α} {db' : Db ν} (h : m db = (db', none))
    (g : α → Script ν β) : (m >>= g) db = (db', none) := by
  change (match m db with | (db', some a) => g a db' | (db', none) => (db', none)) = _
  rw [h]

/-- A field is read from a record. -/
theorem hget_run (hf : db.fields k = some f)
    (field : Bytes) (m : Option Bytes → Script ν α) :
    (hget k field >>= m) db = m (f.lookup field) db := by
  rw [(readOnly_hget k field).bind_run]
  simp [hget, hf]

theorem hset_run (hf : db.fields k = some f)
    (fields : List (Bytes × Bytes)) :
    hset k fields db =
      put k (some (.hash (fields.foldl (fun f (x, v) => f.insert x v) f))) db := by
  rw [hset, hf]

theorem fields_update (db : Db ν) (k : Bytes) (f : Finmap fun _ : Bytes => Bytes) :
    Db.fields (Function.update db k (some (.hash f))) k = some f := by
  rw [Db.fields, Function.update_self]

theorem hincr_run (hf : db.fields k = some f) {field : Bytes}
    {n : ℤ} (hn : storedInt (f.lookup field) = some n) :
    hincr k field db = if n + 1 < 2 ^ 63 then
        (Function.update db k (some (.hash (f.insert field (Decimal.formatInt (n + 1))))),
          some (n + 1))
      else (db, none) := by
  rw [hincr, hget_run hf, hn, Option.bind_some, nextInt]
  split
  · exact bind_run (hset_run hf _) _
  · rfl

end Runs

section Refusals

variable {refused : β → Prop} {m : Script ν α} {f : α → Script ν β} {n : Script ν β}

def Inert (refused : β → Prop) (n : Script ν β) : Prop :=
  ∀ db r, (n db).2 = some r → refused r → (n db).1 = db

def AcceptsOn (refused : β → Prop) (n : Script ν β) (db : Db ν) : Prop :=
  ∀ r, (n db).2 = some r → ¬ refused r

theorem Inert.of_accepts (h : ∀ db, AcceptsOn refused n db) : Inert refused n :=
  fun db r hr href => absurd href (h db r hr)

theorem Inert.of_readOnly (h : ReadOnly n) : Inert refused n := fun db _ _ _ => h db

theorem Inert.pure (r : β) : Inert refused (Pure.pure r : Script ν β) :=
  .of_readOnly (readOnly_pure r)

/-- Reading comes before the decision to refuse. -/
theorem Inert.read (hm : ReadOnly m) (hf : ∀ a, Inert refused (f a)) :
    Inert refused (m >>= f) := by
  intro db r hr href
  rw [hm.bind_run] at hr ⊢
  split at hr
  · rename_i a ha
    exact hf a db r hr href
  · cases hr

theorem acceptsOn_pure {r : β} (h : ¬ refused r) (db : Db ν) :
    AcceptsOn refused (pure r : Script ν β) db := by
  intro r' hr'
  cases hr'
  exact h

/-- What comes last decides. -/
theorem acceptsOn_bind (hf : ∀ a db, AcceptsOn refused (f a) db) (db : Db ν) :
    AcceptsOn refused (m >>= f) db := by
  intro r hr
  change (match m db with | (db', some a) => f a db' | (db', none) => (db', none)).2 = some r at hr
  split at hr
  · exact hf _ _ r hr
  · cases hr

/-- After a read a script goes on with what was read. -/
theorem acceptsOn_read {db : Db ν} (hm : ReadOnly m)
    (hf : ∀ a, (m db).2 = some a → AcceptsOn refused (f a) db) :
    AcceptsOn refused (m >>= f) db := by
  intro r hr
  rw [hm.bind_run] at hr
  split at hr
  · rename_i a ha
    exact hf a ha r hr
  · cases hr

end Refusals

section Frame

/-- What a key says about an entry. A string shows in all of its entries. -/
inductive Entry (ν : Type) where
  | text (v : Bytes)
  | field (v : Bytes)
  | member
  | score (x : ν)

def Value.entry : Option (Value ν) → Bytes → Option (Entry ν)
  | none, _ => none
  | some (.string v), _ => some (.text v)
  | some (.hash h), x => (h.lookup x).map .field
  | some (.set s), x => if x ∈ s then some .member else none
  | some (.zset z), x => (z.lookup x).map .score

/-- The keys that a script may write as it likes, and the entries of other keys that it may
change. -/
structure Footprint where
  owned : Set Bytes
  shared : Bytes → Set Bytes

structure Footprint.Allows (F : Footprint) (db db' : Db ν) : Prop where
  key : ∀ k ∉ F.owned, F.shared k = ∅ → db' k = db k
  entry : ∀ k ∉ F.owned, ∀ x ∉ F.shared k, Value.entry (db' k) x = Value.entry (db k) x

variable {F : Footprint} {db db' db'' : Db ν}

theorem Footprint.Allows.refl (F : Footprint) (db : Db ν) : F.Allows db db :=
  ⟨fun _ _ _ => rfl, fun _ _ _ _ => rfl⟩

theorem Footprint.Allows.trans (h : F.Allows db db') (h' : F.Allows db' db'') :
    F.Allows db db'' where
  key k hk hs := (h'.key k hk hs).trans (h.key k hk hs)
  entry k hk x hx := (h'.entry k hk x hx).trans (h.entry k hk x hx)

theorem Footprint.Allows.mono {F' : Footprint} (h : F.Allows db db') (howned : F.owned ⊆ F'.owned)
    (hshared : ∀ k, F.shared k ⊆ F'.shared k) : F'.Allows db db' where
  key k hk hs := h.key k (fun hmem => hk (howned hmem)) (Set.subset_empty_iff.mp (hs ▸ hshared k))
  entry k hk x hx := h.entry k (fun hmem => hk (howned hmem)) x fun hmem => hx (hshared k hmem)

/-- A script that stays within a footprint, also if it fails. -/
def Keeps (F : Footprint) (m : Script ν α) : Prop := ∀ db, F.Allows db (m db).1

variable {k x : Bytes}

theorem Keeps.put (hk : k ∈ F.owned) (v : Option (Value ν)) : Keeps F (Keyspace.put k v) := by
  intro db
  have hne : ∀ k' ∉ F.owned, Function.update db k v k' = db k' := by
    intro k' hk'
    exact Function.update_of_ne (fun heq => hk' (by rwa [heq])) ..
  exact ⟨fun k' hk' _ => hne k' hk', fun k' hk' x _ => congrArg (Value.entry · x) (hne k' hk')⟩

theorem Keeps.put_entry (hx : x ∈ F.shared k) {v : Option (Value ν)} {db : Db ν}
    (hv : ∀ y, y ≠ x → Value.entry v y = Value.entry (db k) y) :
    F.Allows db (Keyspace.put k v db).1 := by
  constructor
  · intro k' _ hs
    refine Function.update_of_ne ?_ ..
    rintro rfl
    rw [hs] at hx
    exact hx
  · intro k' _ y hy
    change Value.entry (Function.update db k v k') y = _
    by_cases heq : k' = k
    · subst heq
      rw [Function.update_self]
      exact hv y fun hyx => hy (hyx ▸ hx)
    · rw [Function.update_of_ne heq]

theorem Keeps.sadd (hk : k ∈ F.owned) (y : Bytes) :
    Keeps F (Keyspace.sadd k y : Script ν Unit) := by
  intro db
  unfold Keyspace.sadd
  split
  · exact .refl F db
  · exact Keeps.put hk _ db

theorem Db.scores_entry {z : Finmap fun _ : Bytes => ν} (h : db.scores k = some z) (y : Bytes) :
    Value.entry (db k) y = (z.lookup y).map .score := by
  unfold Db.scores at h
  split at h
  · rename_i hk
    cases h
    rw [hk]
    rfl
  · rename_i hk
    cases h
    rw [hk]
    rfl
  · cases h

theorem Db.members_entry {s : List Bytes} (h : db.members k = some s) (y : Bytes) :
    Value.entry (db k) y = if y ∈ s then some .member else none := by
  unfold Db.members at h
  split at h
  · rename_i hk
    cases h
    rw [hk]
    rfl
  · rename_i hk
    cases h
    rw [hk]
    rfl
  · cases h

/-- A sorted set that is stored, or removed because it is empty, shows its scores. -/
theorem entry_zset (z : Finmap fun _ : Bytes => ν) (y : Bytes) :
    Value.entry (if z.keys = ∅ then none else some (.zset z)) y = (z.lookup y).map .score := by
  split
  · rename_i hz
    have hy : y ∉ z := by
      rw [← Finmap.mem_keys, hz]
      exact Finset.notMem_empty y
    rw [Finmap.lookup_eq_none.mpr hy]
    rfl
  · rfl

/-- A set that is stored, or removed because it is empty, shows its members. -/
theorem entry_set (s : List Bytes) (y : Bytes) :
    Value.entry (if s = [] then none else some (.set s) : Option (Value ν)) y =
      if y ∈ s then some .member else none := by
  split
  · rename_i hs
    rw [hs]
    rfl
  · rfl

theorem Keeps.zadd (hx : x ∈ F.shared k) (score : ν) : Keeps F (Keyspace.zadd k score x) := by
  intro db
  unfold Keyspace.zadd
  split
  · exact .refl F db
  · rename_i z hz
    refine Keeps.put_entry hx fun y hy => ?_
    change ((z.insert x score).lookup y).map Entry.score = _
    rw [Db.scores_entry hz, Finmap.lookup_insert_of_ne z hy]

theorem Keeps.zrem (hx : x ∈ F.shared k) : Keeps F (Keyspace.zrem k x : Script ν Unit) := by
  intro db
  unfold Keyspace.zrem
  split
  · exact .refl F db
  · rename_i z hz
    split
    · refine Keeps.put_entry hx fun y hy => ?_
      rw [Db.scores_entry hz, entry_zset, Finmap.lookup_erase_ne hy]
    · exact .refl F db

theorem Keeps.list (hx : x ∈ F.shared k) : Keeps F (Keyspace.sadd k x : Script ν Unit) := by
  intro db
  unfold Keyspace.sadd
  split
  · exact .refl F db
  · rename_i s hs
    refine Keeps.put_entry hx fun y hy => ?_
    rw [Db.members_entry hs]
    change (if y ∈ if x ∈ s then s else s ++ [x] then some Entry.member else none) = _
    split
    · rfl
    · simp [hy]

theorem Keeps.srem (hx : x ∈ F.shared k) : Keeps F (Keyspace.srem k x : Script ν Bool) := by
  intro db
  unfold Keyspace.srem
  split
  · exact .refl F db
  · rename_i s hs
    split
    · refine Keeps.put_entry hx fun y hy => ?_
      rw [Db.members_entry hs, entry_set]
      simp [hy]
    · exact .refl F db

end Frame

end Keyspace
