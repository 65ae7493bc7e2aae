import Chronicle.Lib.Scope

/-! # Scripts on one hash

What a script makes of the contents of one of its hashes. The rules follow the
commands of the script.
-/

namespace Keyspace

variable {ν α β : Type}

/-- A script that starts where one condition holds returns a result, and another one holds. -/
def Takes (P : Db ν → Prop) (m : Script ν α) (Q : Db ν → Prop) (a : α) : Prop :=
  ∀ db, P db → ∃ db', m db = (db', some a) ∧ Q db'

/-- A hash in a scope has contents of some kind. -/
structure Contains (S : Scope) (k : Bytes) (Φ : (Finmap fun _ : Bytes => Bytes) → Prop)
    (db : Db ν) : Prop where
  hash : ∃ m, db.fields k = some m ∧ Φ m
  typed : S.Typed db
  owned : k ∈ S.owned

section Rules

variable {P Q R : Db ν → Prop} {m : Script ν α} {f : α → Script ν β} {a : α} {b : β}

theorem takes_pure (a : α) : Takes P (pure a : Script ν α) P a := fun db h => ⟨db, rfl, h⟩

theorem Takes.bind (h : Takes P m Q a) (hf : Takes Q (f a) R b) : Takes P (m >>= f) R b := by
  intro db hdb
  rcases h db hdb with ⟨db', hrun, hdb'⟩
  rw [bind_run hrun]
  exact hf db' hdb'

variable {S : Scope} {k x z : Bytes} {Φ Φ' : (Finmap fun _ : Bytes => Bytes) → Prop}
  {db : Db ν}

theorem hget_takes {v : Option Bytes} (hv : ∀ m, Φ m → m.lookup x = v) :
    Takes (Contains S k Φ) (hget k x : Script ν _) (Contains S k Φ) v := by
  intro db h
  rcases h.hash with ⟨m, hm, hm'⟩
  refine ⟨db, ?_, h⟩
  rw [hget, hm, Option.map_some, hv m hm']

theorem existsKey_takes (hΦ : ¬ Φ ∅) :
    Takes (Contains S k Φ) (existsKey k : Script ν Bool) (Contains S k Φ) true := by
  intro db h
  rcases h.hash with ⟨m, hm, hm'⟩
  refine ⟨db, ?_, h⟩
  cases hk : db k with
  | none =>
    rw [Db.fields, hk] at hm
    cases hm
    exact absurd hm' hΦ
  | some v => rw [existsKey, hk, Option.isSome_some]

theorem Contains.put (h : Contains S k Φ db) {v : Option (Value ν)}
    {m : Finmap fun _ : Bytes => Bytes} (hm : Db.fields (Function.update db k v) k = some m)
    (hΦ : Φ' m) : Contains S k Φ' (Function.update db k v) :=
  ⟨⟨m, hm, hΦ⟩, h.typed.own h.owned, h.owned⟩

theorem hset_takes {fields : List (Bytes × Bytes)}
    (h : ∀ m, Φ m → Φ' (fields.foldl (fun m (x, v) => m.insert x v) m)) :
    Takes (Contains S k Φ) (hset k fields : Script ν Unit) (Contains S k Φ') () := by
  intro db hdb
  rcases hdb.hash with ⟨m, hm, hm'⟩
  exact ⟨_, hset_run hm _, hdb.put (fields_update ..) (h m hm')⟩

theorem hdel_takes (h : ∀ m, Φ m → Φ' (m.erase x)) :
    Takes (Contains S k Φ) (hdel k x : Script ν Unit) (Contains S k Φ') () := by
  intro db hdb
  rcases hdb.hash with ⟨m, hm, hm'⟩
  rw [hdel, hm]
  refine ⟨_, rfl, hdb.put ?_ (h m hm')⟩
  rw [Db.fields, Function.update_self]
  split_ifs with hempty
  · refine congrArg some (Finmap.ext_lookup fun y => ?_)
    rw [Finmap.lookup_empty, eq_comm, Finmap.lookup_eq_none, ← Finmap.mem_keys, hempty]
    exact Finset.notMem_empty y
  · rfl

theorem Contains.score (h : Contains S k Φ db) (hz : z ∈ S.scored) {v : Option (Value ν)}
    (hv : IsScored v) : Contains S k Φ (Function.update db z v) := by
  have hne : k ≠ z := fun heq => S.owned_scored k h.owned (heq ▸ hz)
  refine ⟨?_, h.typed.update (fun _ => hv) fun hl => absurd hl (S.scored_listed z hz), h.owned⟩
  rw [Db.fields, Function.update_of_ne hne]
  exact h.hash

theorem zrem_takes (hz : z ∈ S.scored) (x : Bytes) :
    Takes (Contains S k Φ) (zrem z x : Script ν Unit) (Contains S k Φ) () := by
  intro db h
  rcases (h.typed.scored z hz).scores with ⟨s, hs⟩
  rw [zrem, hs]
  dsimp only
  split
  · exact ⟨_, rfl, h.score hz (isScored_drop _)⟩
  · exact ⟨db, rfl, h⟩

end Rules

end Keyspace
