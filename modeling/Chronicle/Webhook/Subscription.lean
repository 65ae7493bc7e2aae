import Mathlib.Data.Finmap
import Chronicle.Store.Metadata

/-! # The keys of a subscription

A subscription is a hash with its configuration and the fence of its claims, a
hash of links with their cursors, and its members in the lease, retry and due
schedules. A claim may name a shard: shard zero is the subscription hash itself,
and every other shard has a fence hash and schedule members of its own. All keys
of one subscription are in one slot, so a script changes them in one step.
-/

namespace Chronicle.Webhook

inductive Phase where
  | idle
  | waking
  | live
  deriving DecidableEq, Repr

inductive Dispatch where
  | webhook
  | pullWake
  deriving DecidableEq, Repr

inductive Status where
  | active
  | failed
  deriving DecidableEq, Repr

inductive LinkType where
  | glob
  | explicit
  deriving DecidableEq, Repr

structure Link where
  linkType : LinkType
  offset : Bytes
  deriving DecidableEq, Repr

/-- The fields with which a hash fences the claims of one shard. A number that is not stored
counts as zero, and so does an incarnation that is not stored as the empty one. -/
structure Fence where
  incarnation : Bytes := []
  phase : Phase := .idle
  generation : ℤ := 0
  wakeId : Bytes := []
  holder : Bool := false
  holderWorker : Bytes := []
  leaseUntilNs : ℤ := 0
  status : Status := .active
  retryCount : ℤ := 0
  firstFailNs : ℤ := 0
  nextAttemptNs : ℤ := 0
  wakeEventSentNs : ℤ := 0
  deriving DecidableEq, Repr

structure Config where
  cfgHash : Bytes
  type : Dispatch
  pattern : Bytes
  leaseTtlMs : ℤ
  owner : Bytes
  deriving DecidableEq, Repr

abbrev Links := Finmap fun _ : Path => Link

/-- The members of a schedule that belong to one subscription, by shard. -/
abbrev Schedule := ℕ → Option ℤ

structure Sub where
  /-- The subscription hash: configuration and the fence of shard zero. -/
  parent : Option (Config × Fence) := none
  shards : ℕ → Option Fence := fun _ => none
  links : Links := ∅
  listed : Bool := false
  lease : Schedule := fun _ => none
  retry : Schedule := fun _ => none
  due : Schedule := fun _ => none
  registry : Finset ℕ := ∅
  /-- The counter of incarnations, which outlives the subscription. -/
  incarnations : ℕ := 0

def Schedule.zadd (z : Schedule) (g : ℕ) (score : ℤ) : Schedule := Function.update z g (some score)

def Schedule.zrem (z : Schedule) (g : ℕ) : Schedule := Function.update z g none

@[simp] theorem Schedule.zadd_self (z : Schedule) (g : ℕ) (x : ℤ) : z.zadd g x g = some x :=
  Function.update_self ..

@[simp] theorem Schedule.zrem_self (z : Schedule) (g : ℕ) : z.zrem g g = none :=
  Function.update_self ..

theorem Schedule.zadd_of_ne (z : Schedule) {g g' : ℕ} (x : ℤ) (h : g' ≠ g) :
    z.zadd g x g' = z g' := Function.update_of_ne h ..

theorem Schedule.zrem_of_ne (z : Schedule) {g g' : ℕ} (h : g' ≠ g) : z.zrem g g' = z g' :=
  Function.update_of_ne h ..

namespace Sub

def fence (s : Sub) (g : ℕ) : Option Fence := if g = 0 then s.parent.map (·.2) else s.shards g

def setFence (s : Sub) (g : ℕ) (f : Fence) : Sub :=
  if g = 0 then { s with parent := s.parent.map fun (cfg, _) => (cfg, f) }
  else { s with shards := Function.update s.shards g (some f) }

@[simp] theorem setFence_lease (s : Sub) (g : ℕ) (f : Fence) : (s.setFence g f).lease = s.lease := by
  unfold setFence
  split <;> rfl

@[simp] theorem setFence_incarnations (s : Sub) (g : ℕ) (f : Fence) :
    (s.setFence g f).incarnations = s.incarnations := by
  unfold setFence
  split <;> rfl

/-- What the shape of a subscription guarantees after a fence is written: the fence is found, and
nothing else has changed. -/
theorem fence_setFence (s : Sub) {g : ℕ} (f : Fence) (h : g = 0 → s.parent.isSome = true)
    (g' : ℕ) : (s.setFence g f).fence g' = if g' = g then some f else s.fence g' := by
  unfold setFence fence
  by_cases hg : g = 0
  · subst hg
    rcases Option.isSome_iff_exists.mp (h rfl) with ⟨⟨cfg, f₀⟩, hp⟩
    by_cases hg' : g' = 0 <;> simp [hg', hp]
  · by_cases hg' : g' = g
    · simp [hg', hg]
    · by_cases h₀ : g' = 0
      · simp [hg, h₀, Ne.symm hg]
      · simp [hg, hg', h₀]

/-- A fence that is found makes its hash present. -/
theorem parent_isSome {s : Sub} {g : ℕ} {f : Fence} (h : s.fence g = some f) :
    g = 0 → s.parent.isSome = true := by
  rintro rfl
  rw [fence, if_pos rfl, Option.map_eq_some_iff] at h
  rcases h with ⟨p, hp, -⟩
  rw [hp]
  rfl

end Sub

structure SlotOwner where
  ownerId : Option Bytes := none
  ownerEpoch : Option Bytes := none
  deriving DecidableEq, Repr

/-- The owner that a caller acts as; the empty epoch is no owner. -/
structure OwnerScope where
  replicaId : Bytes := []
  expectedEpoch : Bytes := []
  deriving DecidableEq, Repr

def ownerFenced (slot : SlotOwner) (o : OwnerScope) : Bool :=
  if o.expectedEpoch = [] then false
  else if slot.ownerId ≠ some o.replicaId then true
  else slot.ownerEpoch ≠ some o.expectedEpoch

def fenced (f : Fence) (reqGen : ℤ) (reqWake : Bytes) (tokenGen : ℤ) : Bool :=
  tokenGen ≠ f.generation || reqGen ≠ f.generation || reqWake = [] || reqWake ≠ f.wakeId

/-- Whether one cursor is behind another; the beginning is less than every offset. -/
def offsetGreater (a b : Bytes) : Bool :=
  let begins (x : Bytes) : Bool := x = [45, 49] || x = []
  if a = b then false
  else if begins b then !begins a
  else if begins a then false
  else Bytes.lexLt b a

/-- The subscription and the resources that a caller has inspected. -/
structure Expectation where
  owner : Bytes
  incarnation : Bytes
  cfgHash : Bytes
  paths : List Path
  deriving DecidableEq, Repr

inductive ExpectationStatus where
  | noSub
  | forbidden
  | matched
  deriving DecidableEq, Repr

/-- Whether the subscription is still the one that the caller has inspected. -/
def Sub.meets (s : Sub) (cfg : Config) (f : Fence) (x : Expectation) : Bool :=
  f.incarnation = x.incarnation && cfg.owner = x.owner && cfg.cfgHash = x.cfgHash &&
    s.links.keys.card = x.paths.length && x.paths.Nodup && x.paths.all fun p => p ∈ s.links

def Sub.expectationStatus (s : Sub) (x : Expectation) : ExpectationStatus :=
  match s.parent with
  | none => .noSub
  | some (cfg, f) => if s.meets cfg f x then .matched else .forbidden

end Chronicle.Webhook
