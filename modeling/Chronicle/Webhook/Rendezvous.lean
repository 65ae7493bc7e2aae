import Chronicle.Lib.Decimal
import Chronicle.Lib.Winner

/-! # Rendezvous hashing

Every replica computes the owner of every slot from the live members alone: the
member with the greatest score, and the greatest id among equal scores. Whatever
the hash, this is the greatest member in a total order, so the slots are a
partition that changes only where it has to.
-/

namespace Chronicle.Webhook.Rendezvous

section Code

abbrev ownershipSlots : ℕ := 256

abbrev SlotID := Fin ownershipSlots

structure ReplicaID where
  id : Bytes
  deriving DecidableEq

def fnv64a (s : Bytes) : UInt64 :=
  s.foldl (fun hash c => (hash ^^^ c.toUInt64) * 1099511628211) 14695981039346656037

def mix64 (z : UInt64) : UInt64 :=
  let z := (z ^^^ (z >>> 30)) * 0xbf58476d1ce4e5b9
  let z := (z ^^^ (z >>> 27)) * 0x94d049bb133111eb
  z ^^^ (z >>> 31)

def hrwScore (r : ReplicaID) (h : SlotID) : UInt64 :=
  mix64 (fnv64a (r.id ++ Bytes.ascii ":" ++ Decimal.formatNat h))

variable (score : ReplicaID → SlotID → UInt64)

/-- One turn of the scan for the owner of a slot, with the best member so far and its score. -/
def consider (h : SlotID) (best : Option (ReplicaID × UInt64)) (m : ReplicaID) :
    Option (ReplicaID × UInt64) :=
  let s := score m h
  match best with
  | none => some (m, s)
  | some (owner, bestScore) =>
    if s > bestScore ∨ s = bestScore ∧ Bytes.lexLt owner.id m.id then some (m, s)
    else some (owner, bestScore)

/-- The owner of a slot among the members, `none` where there are none. -/
def hrwOwner (members : List ReplicaID) (h : SlotID) : Option ReplicaID :=
  (members.foldl (consider score h) none).map Prod.fst

def target (me : ReplicaID) (members : List ReplicaID) (out : Finset SlotID) (h : SlotID) :
    Finset SlotID :=
  match hrwOwner score members h with
  | some owner => if owner.id = me.id then insert h out else out
  | none => out

def targetedSlots (me : ReplicaID) (members : List ReplicaID) (slots : List SlotID) :
    Finset SlotID :=
  slots.foldl (target score me members) ∅

/-- The targeted slots of which the lease is held; `targeted` is in the order in which the
map is walked. -/
def ownedSlots (targeted : List SlotID) (held : Finset SlotID) : List SlotID :=
  (targeted.filter (· ∈ held)).insertionSort (· ≤ ·)

end Code

variable {score : ReplicaID → SlotID → UInt64}

section Order

variable {h : SlotID}

def Beats (score : ReplicaID → SlotID → UInt64) (h : SlotID) (m owner : ReplicaID) : Prop :=
  score m h > score owner h ∨ score m h = score owner h ∧ Bytes.lexLt owner.id m.id

instance : DecidableRel (Beats score h) := fun _ _ => inferInstanceAs (Decidable (_ ∨ _))

instance : IsStrictTotalOrder ReplicaID (Beats score h) where
  irrefl := by
    rintro ⟨a⟩ (hlt | ⟨-, hlt⟩)
    · exact UInt64.lt_irrefl _ hlt
    · exact List.lt_irrefl _ (Bytes.lexLt_iff_lt.mp hlt)
  trans := by
    rintro ⟨a⟩ ⟨b⟩ ⟨c⟩ (hab | ⟨hab, hlt⟩) (hbc | ⟨hbc, hlt'⟩)
    · exact .inl (UInt64.lt_trans hbc hab)
    · exact .inl (hbc ▸ hab)
    · exact .inl (hab ▸ hbc)
    · refine .inr ⟨hab.trans hbc, ?_⟩
      rw [Bytes.lexLt_iff_lt] at *
      exact List.lt_trans hlt' hlt
  trichotomous := by
    rintro ⟨a⟩ ⟨b⟩ hab hba
    simp only [Beats, not_or, not_and, Bytes.lexLt_iff_lt, gt_iff_lt, UInt64.not_lt] at hab hba
    have heq : score ⟨a⟩ h = score ⟨b⟩ h := UInt64.le_antisymm hab.1 hba.1
    have hid : a = b := List.le_antisymm (hab.2 heq) (hba.2 heq.symm)
    rw [hid]

theorem hrwOwner_eq_winner (members : List ReplicaID) :
    hrwOwner score members h = Winner.winner (Beats score h) members := by
  have hstep (best : Option ReplicaID) (m : ReplicaID) :
      consider score h (best.map fun m => (m, score m h)) m =
        (Winner.better (Beats score h) best m).map fun m => (m, score m h) := by
    cases best with
    | none => rfl
    | some owner =>
      simp only [consider, Option.map_some, Winner.better, Beats]
      split
      · simp [*]
      · simp [*]
  have hfold (best : Option ReplicaID) :
      members.foldl (consider score h) (best.map fun m => (m, score m h)) =
        (members.foldl (Winner.better (Beats score h)) best).map fun m => (m, score m h) := by
    induction members generalizing best with
    | nil => rfl
    | cons m members ih => rw [List.foldl_cons, List.foldl_cons, hstep, ih]
  have hscan := hfold none
  rw [Option.map_none] at hscan
  rw [hrwOwner, hscan, Option.map_map, Winner.winner]
  simp [Function.comp_def]

end Order

section Slots

variable {members : List ReplicaID}

theorem mem_targetedSlots {me : ReplicaID} {slots : List SlotID}
    {h : SlotID} :
    h ∈ targetedSlots score me members slots ↔
      h ∈ slots ∧ hrwOwner score members h = some me := by
  have hstep (out : Finset SlotID) (g : SlotID) : h ∈ target score me members out g ↔
      h ∈ out ∨ h = g ∧ hrwOwner score members h = some me := by
    rw [target]
    by_cases hg : h = g
    · subst g
      cases howner : hrwOwner score members h with
      | none => simp
      | some owner =>
        have hid : owner.id = me.id ↔ owner = me := by
          cases owner
          cases me
          simp
        by_cases heq : owner = me
        · simp [heq]
        · simp [hid, heq]
    · cases hrwOwner score members g with
      | none => simp [hg]
      | some owner =>
        dsimp only
        split
        · simp [hg]
        · simp [hg]
  have hfold (out : Finset SlotID) : h ∈ slots.foldl (target score me members) out ↔
      h ∈ out ∨ h ∈ slots ∧ hrwOwner score members h = some me := by
    induction slots generalizing out with
    | nil => simp
    | cons g slots ih =>
      rw [List.foldl_cons, ih, hstep, List.mem_cons]
      tauto
  simpa [targetedSlots] using hfold ∅

theorem targetedSlots_disjoint {r r' : ReplicaID} (hne : r ≠ r') (members : List ReplicaID)
    (slots : List SlotID) :
    Disjoint (targetedSlots score r members slots) (targetedSlots score r' members slots) := by
  rw [Finset.disjoint_left]
  intro h hr hr'
  rw [mem_targetedSlots] at hr hr'
  have heq := hr.2.symm.trans hr'.2
  rw [Option.some.injEq] at heq
  exact hne heq

theorem targetedSlots_cover (hne : members ≠ []) (slots : List SlotID) :
    members.toFinset.biUnion (fun r => targetedSlots score r members slots) =
      slots.toFinset := by
  ext h
  simp only [Finset.mem_biUnion, List.mem_toFinset, mem_targetedSlots]
  constructor
  · rintro ⟨r, -, hslot, -⟩
    exact hslot
  · intro hslot
    obtain ⟨owner, howner, hwins⟩ := Winner.winner_wins (Beats score h) hne
    rw [← hrwOwner_eq_winner] at howner
    exact ⟨owner, hwins.1, hslot, howner⟩

theorem ownedSlots_spec {targeted : List SlotID} (hnodup : targeted.Nodup)
    (held : Finset SlotID) :
    (ownedSlots targeted held).Pairwise (· < ·) ∧
      (ownedSlots targeted held).toFinset = targeted.toFinset ∩ held := by
  constructor
  · have hsorted : (ownedSlots targeted held).Pairwise (· ≤ ·) :=
      List.pairwise_insertionSort _ _
    have hdistinct : (ownedSlots targeted held).Nodup :=
      (List.perm_insertionSort _ _).nodup_iff.mpr (hnodup.filter _)
    exact hsorted.imp₂ (fun _ _ hle hne => lt_of_le_of_ne hle hne) hdistinct
  · ext h
    simp [ownedSlots]

end Slots

section Partition

/-- Rendezvous hashing is a partition of the slots that depends on the set of the members
only and changes only where a replica comes or goes, whatever the scores. -/
theorem hrw_stable_partition (score : ReplicaID → SlotID → UInt64) :
    (∀ members, members ≠ [] → ∀ h, ∃ owner ∈ members, hrwOwner score members h = some owner) ∧
    (∀ members members' : List ReplicaID, (∀ r, r ∈ members ↔ r ∈ members') →
      ∀ h, hrwOwner score members h = hrwOwner score members' h) ∧
    (∀ (members members' : List ReplicaID) (m : ReplicaID),
      (∀ r, r ∈ members' ↔ r = m ∨ r ∈ members) → ∀ h,
        hrwOwner score members' h = hrwOwner score members h ∨
          hrwOwner score members' h = some m) ∧
    (∀ (members members' : List ReplicaID) (m : ReplicaID),
      (∀ r, r ∈ members' ↔ r ∈ members ∧ r ≠ m) → ∀ h,
        hrwOwner score members h ≠ some m →
          hrwOwner score members' h = hrwOwner score members h) ∧
    (∀ (members : List ReplicaID) (slots : List SlotID), members ≠ [] → members.Nodup →
      members.Pairwise (fun r r' => Disjoint (targetedSlots score r members slots)
        (targetedSlots score r' members slots)) ∧
      members.toFinset.biUnion (fun r => targetedSlots score r members slots) =
        slots.toFinset) ∧
    ∀ (targeted held : Finset SlotID) (walk : List SlotID), walk.Nodup →
      walk.toFinset = targeted →
      (ownedSlots walk held).Pairwise (· < ·) ∧
        (ownedSlots walk held).toFinset = targeted ∩ held := by
  refine ⟨?_, ?_, ?_, ?_, ?_, ?_⟩
  · intro members hne h
    obtain ⟨owner, howner, hwins⟩ := Winner.winner_wins (Beats score h) hne
    exact ⟨owner, hwins.1, (hrwOwner_eq_winner members).trans howner⟩
  · intro members members' hmem h
    simp only [hrwOwner_eq_winner]
    exact Winner.winner_congr hmem
  · intro members members' m hmem h
    simp only [hrwOwner_eq_winner]
    exact Winner.winner_insert hmem
  · intro members members' m hmem h hne
    simp only [hrwOwner_eq_winner] at hne ⊢
    exact Winner.winner_erase hmem hne
  · intro members slots hne hnodup
    constructor
    · exact hnodup.imp fun hne => targetedSlots_disjoint hne members slots
    · exact targetedSlots_cover hne slots
  · rintro targeted held walk hnodup rfl
    exact ownedSlots_spec hnodup held

def colliding : List ReplicaID := [⟨Bytes.ascii "a"⟩, ⟨Bytes.ascii "b"⟩]

/-- With equal scores the greater id owns every slot, and stays the owner when the other
replica goes. -/
theorem hrw_stable_partition_colliding :
    hrwOwner (fun _ _ => 0) colliding 7 = some ⟨Bytes.ascii "b"⟩ ∧
    hrwOwner (fun _ _ => 0) colliding.reverse 7 = some ⟨Bytes.ascii "b"⟩ ∧
    hrwOwner (fun _ _ => 0) [⟨Bytes.ascii "b"⟩] 7 = some ⟨Bytes.ascii "b"⟩ ∧
    Disjoint (targetedSlots (fun _ _ => 0) ⟨Bytes.ascii "a"⟩ colliding [7, 2])
      (targetedSlots (fun _ _ => 0) ⟨Bytes.ascii "b"⟩ colliding [7, 2]) ∧
    (ownedSlots [7, 2] {2, 7}).Pairwise (· < ·) := by
  obtain ⟨-, hset, -, hgo, hpart, howned⟩ := hrw_stable_partition fun _ _ => 0
  have hb : hrwOwner (fun _ _ => 0) colliding 7 = some ⟨Bytes.ascii "b"⟩ := by decide
  have hab : (⟨Bytes.ascii "a"⟩ : ReplicaID) ≠ ⟨Bytes.ascii "b"⟩ := by decide
  have hleft (r : ReplicaID) : r ∈ [⟨Bytes.ascii "b"⟩] ↔
      r ∈ colliding ∧ r ≠ ⟨Bytes.ascii "a"⟩ := by
    simp only [colliding, List.mem_cons, List.not_mem_nil, or_false]
    constructor
    · rintro rfl
      exact ⟨.inr rfl, hab.symm⟩
    · rintro ⟨hr | hr, hne⟩
      · exact absurd hr hne
      · exact hr
  refine ⟨hb, ?_, ?_, ?_, ?_⟩
  · rw [hset colliding.reverse colliding (by simp), hb]
  · rw [hgo colliding [⟨Bytes.ascii "b"⟩] ⟨Bytes.ascii "a"⟩ hleft 7 (by simpa [hb] using hab.symm),
      hb]
  · have hpair := (hpart colliding [7, 2] (by decide) (by decide)).1
    exact (List.pairwise_cons.mp hpair).1 _ (by decide)
  · exact (howned {2, 7} {2, 7} [7, 2] (by decide) (by decide)).1

end Partition

section Mixing

theorem xorShift_injective {n : ℕ} (hn : 0 < n) :
    Function.Injective fun z : BitVec 64 => z ^^^ (z >>> n) := by
  intro x y h
  have hbit (i : ℕ) : (x ^^^ (x >>> n)).getLsbD i = (y ^^^ (y >>> n)).getLsbD i :=
    congrArg (fun z : BitVec 64 => z.getLsbD i) h
  -- from the highest bit down, a bit is given by the result and a bit above it
  have hbits (k i : ℕ) (hi : 64 ≤ i + k) : x.getLsbD i = y.getLsbD i := by
    induction k generalizing i with
    | zero => simp [BitVec.getLsbD_of_ge _ i hi]
    | succ k ih =>
      have habove := ih (n + i) (by omega)
      simpa [habove] using hbit i
  exact BitVec.eq_of_getLsbD_eq fun i _ => hbits 64 i (by omega)

theorem mul_injective {c d : UInt64} (h : c * d = 1) :
    Function.Injective fun z : UInt64 => z * c := by
  intro x y hxy
  have hcancel := congrArg (· * d) hxy
  simpa [UInt64.mul_assoc, h] using hcancel

theorem mix64_injective : Function.Injective mix64 := by
  have hshift (n : UInt64) (hn : 0 < (n.toBitVec % 64).toNat) :
      Function.Injective fun z : UInt64 => z ^^^ (z >>> n) := by
    intro x y h
    have hvec := congrArg UInt64.toBitVec h
    exact UInt64.eq_of_toBitVec_eq (xorShift_injective hn hvec)
  have hfirst := mul_injective (c := 0xbf58476d1ce4e5b9) (d := 0x96de1b173f119089) (by decide)
  have hsecond := mul_injective (c := 0x94d049bb133111eb) (d := 0x319642b2d24d8ec3) (by decide)
  exact (hshift 31 (by decide)).comp (hsecond.comp ((hshift 27 (by decide)).comp
    (hfirst.comp (hshift 30 (by decide)))))

/-- The mixer is a bijection on words, so distinct digests have distinct scores. -/
theorem mix64_bijective : Function.Bijective mix64 ∧
    ∀ (r r' : ReplicaID) (h h' : SlotID),
      fnv64a (r.id ++ Bytes.ascii ":" ++ Decimal.formatNat h) ≠
        fnv64a (r'.id ++ Bytes.ascii ":" ++ Decimal.formatNat h') →
      hrwScore r h ≠ hrwScore r' h' := by
  have hfinite : Finite UInt64 := .of_injective UInt64.toFin fun x y => UInt64.toFin_inj.mp
  refine ⟨Finite.injective_iff_bijective.mp mix64_injective, ?_⟩
  intro r r' h h' hne heq
  exact hne (mix64_injective heq)

theorem mix64_bijective_ab : hrwScore ⟨Bytes.ascii "a"⟩ 7 ≠ hrwScore ⟨Bytes.ascii "b"⟩ 7 :=
  mix64_bijective.2 _ _ _ _ (by decide)

end Mixing

end Chronicle.Webhook.Rendezvous
