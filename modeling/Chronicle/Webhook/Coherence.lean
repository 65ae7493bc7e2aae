import Chronicle.Webhook.System

/-! # Coherence of the fence and the schedules

Phase, wake id, holder and lease of a fence always fit together, and the lease
schedule has a member for a shard exactly while a lease is running. A deleted
subscription leaves nothing in the schedules.
-/

namespace Chronicle.Webhook

namespace Sub

variable {s s' : Sub} {e : Event} {g : ℕ} {h : List Event} {f : Fence}

/-- The fields of a fence fit together and fit the member of the lease schedule. -/
structure Coherent (f : Fence) (lease : Option ℤ) : Prop where
  idle_iff : f.phase = .idle ↔ f.wakeId = []
  idle : f.phase = .idle → f.holder = false ∧ f.holderWorker = [] ∧ f.leaseUntilNs = 0
  waking : f.phase = .waking → f.holder = false
  live : f.phase = .live → 0 < f.leaseUntilNs
  lease : 0 < f.leaseUntilNs ↔ lease.isSome = true

/-- The fence and the lease of a shard: without a fence there is no lease. -/
def CoherentAt (s : Sub) (g : ℕ) : Prop :=
  match s.fence g with
  | none => s.lease g = none
  | some f => Coherent f (s.lease g)

theorem coherentAt_of_fence (hf : s.fence g = some f) (h : Coherent f (s.lease g)) :
    CoherentAt s g := by
  rw [CoherentAt, hf]
  exact h

theorem CoherentAt.fence (h : CoherentAt s g) (hf : s.fence g = some f) :
    Coherent f (s.lease g) := by
  rwa [CoherentAt, hf] at h

theorem Coherent.sameClaim {f' : Fence} {l : Option ℤ} (h : Coherent f l)
    (hsame : SameClaim f f') : Coherent f' l := by
  constructor
  · rw [hsame.phase, hsame.wakeId]
    exact h.idle_iff
  · rw [hsame.phase, hsame.holder, hsame.holderWorker, hsame.leaseUntilNs]
    exact h.idle
  · rw [hsame.phase, hsame.holder]
    exact h.waking
  · rw [hsame.phase, hsame.leaseUntilNs]
    exact h.live
  · rw [hsame.leaseUntilNs]
    exact h.lease

theorem coherent_idled (f : Fence) : Coherent f.idled none :=
  ⟨by simp [Fence.idled], fun _ => ⟨rfl, rfl, rfl⟩, fun _ => rfl, by simp [Fence.idled],
    by simp [Fence.idled]⟩

theorem coherent_live {t : ℤ} (hphase : f.phase = .live) (hwake : f.wakeId ≠ [])
    (hlease : f.leaseUntilNs = t) (ht : 0 < t) : Coherent f (some t) :=
  ⟨by simp [hphase, hwake], by simp [hphase], by simp [hphase], by simp [hlease, ht],
    by simp [hlease, ht]⟩

theorem coherent_waking {l : Option ℤ} (hphase : f.phase = .waking)
    (hwake : f.wakeId ≠ []) (hholder : f.holder = false)
    (hl : 0 < f.leaseUntilNs ↔ l.isSome = true) : Coherent f l :=
  ⟨by simp [hphase, hwake], by simp [hphase], fun _ => hholder, by simp [hphase], hl⟩

theorem regular_wake {w : Bytes} (hreg : e.regular = true) (hw : e.newWake = some w) : w ≠ [] := by
  rcases e with ⟨call, reply⟩
  cases call with
  | arm a =>
    cases hw
    simp only [Event.regular, Bool.and_eq_true, decide_eq_true_eq] at hreg
    exact hreg.1.1
  | claim a =>
    cases hw
    simp only [Event.regular, Bool.and_eq_true, decide_eq_true_eq] at hreg
    exact hreg.1.1
  | create | wakeSent | ack | release | check | expire | restore | retry | success | delete | link
  | unlink => cases hw

theorem Shift.coherentAt (hsh : Shift s e s' g) (hreg : e.regular = true) (h : CoherentAt s g) :
    CoherentAt s' g := by
  cases hsh with
  | same hf hl => rwa [CoherentAt, hf, hl]
  | booked hf hf' hsame hl =>
    exact coherentAt_of_fence hf' (hl ▸ (h.fence hf).sameClaim hsame)
  | restored hf hf' hpos hl =>
    have hc := h.fence hf
    refine coherentAt_of_fence hf' ⟨hc.idle_iff, hc.idle, hc.waking, hc.live, ?_⟩
    rw [hl]
    simp [hpos]
  | armed hf hf' hidle hw _ _ _ _ hwake hphase hholder hl =>
    have hne := regular_wake hreg hw
    refine coherentAt_of_fence hf' (coherent_waking hphase (hwake ▸ hne) hholder ?_)
    rcases hl with ⟨hlease, hl⟩ | ⟨hpos, hl⟩
    · rw [hlease, hl]
      exact (h.fence hf).lease
    · rw [hl]
      simp [hpos hreg]
  | @claimed f w worker inc t hf hw _ _ hf' _ ht hl =>
    refine coherentAt_of_fence hf' ?_
    rw [hl]
    refine coherent_live rfl ?_ rfl (ht hreg)
    rw [Fence.claimed]
    split
    · rename_i hre
      simp only [Fence.reusable, Bool.and_eq_true, decide_eq_true_eq] at hre
      exact hre.2
    · exact regular_wake hreg hw
  | renewed hf hwake hf' ht hl =>
    refine coherentAt_of_fence hf' ?_
    rw [hl]
    exact coherent_live rfl hwake rfl (ht hreg)
  | ended hf hf' hsame hl =>
    refine coherentAt_of_fence hf' ?_
    rw [hl]
    exact (coherent_idled _).sameClaim hsame
  | created _ hf hf' hl =>
    refine coherentAt_of_fence hf' ?_
    rw [CoherentAt, hf] at h
    rw [hl, h]
    exact ⟨by simp, by simp, by simp, by simp, by simp⟩
  | deleted hf' hl => rwa [CoherentAt, hf']

/-- A script with positive clock readings and lease durations and a wake id that is not empty. -/
def RegularStep (s : Sub) (e : Event) (s' : Sub) : Prop := Step s e s' ∧ e.regular = true

theorem coherentAt_run (hrun : Trace.Run RegularStep {} h s) (g : ℕ) : CoherentAt s g := by
  have hinit : CoherentAt {} g := by
    rw [CoherentAt, show fence {} g = none by unfold fence; split <;> rfl]
  refine (hrun.invariant (I := fun s => Stamped s ∧ CoherentAt s g) ⟨stamped_empty, hinit⟩ ?_).2
  rintro s₁ e s₂ ⟨hs, hc⟩ ⟨hstep, hreg⟩
  exact ⟨step_stamped hs hstep, (step_shift hs hstep g).coherentAt hreg hc⟩

theorem deleteSub_clears {x : Option Expectation} (hok : (s.deleteSub x).2 = .ok)
    (hg : g = 0 ∨ g ∈ s.registry) :
    (s.deleteSub x).1.fence g = none ∧ (s.deleteSub x).1.lease g = none ∧
      (s.deleteSub x).1.retry g = none ∧ (s.deleteSub x).1.due g = none := by
  unfold deleteSub at hok ⊢
  split at hok <;> simp at hok
  refine ⟨?_, if_pos hg, if_pos hg, if_pos hg⟩
  rcases hg with rfl | hg
  · rfl
  · simp [Sub.fence, hg]

/-- Coherence of the subscription hash and the schedules in every state that is reached by
regular scripts. -/
theorem coherent_run (hrun : Trace.Run RegularStep {} h s) :
    (∀ g f, s.fence g = some f →
      (f.phase = .idle ∨ f.phase = .waking ∨ f.phase = .live) ∧
      (f.phase = .idle ↔ f.wakeId = []) ∧
      (f.phase = .idle → f.holder = false ∧ f.holderWorker = [] ∧ f.leaseUntilNs = 0) ∧
      (f.phase = .waking → f.holder = false) ∧
      (f.phase = .live → 0 < f.leaseUntilNs) ∧
      (0 < f.leaseUntilNs ↔ (s.lease g).isSome = true)) ∧
    (∀ x, (s.deleteSub x).2 = .ok → ∀ g, g = 0 ∨ g ∈ s.registry →
      (s.deleteSub x).1.fence g = none ∧ (s.deleteSub x).1.lease g = none ∧
      (s.deleteSub x).1.retry g = none ∧ (s.deleteSub x).1.due g = none) := by
  refine ⟨?_, fun x hok g hg => deleteSub_clears hok hg⟩
  intro g f hf
  have hc := (coherentAt_run hrun g).fence hf
  refine ⟨?_, hc.idle_iff, hc.idle, hc.waking, hc.live, hc.lease⟩
  cases f.phase <;> simp

def ranRegular (s : Sub) (c : Call) : Option (Event × Sub) :=
  (s.ranCall c).filter fun (e, _) => e.regular

theorem ranRegular_step (s : Sub) (c : Call) (e : Event) (s' : Sub)
    (h : s.ranRegular c = some (e, s')) : RegularStep s e s' := by
  rw [ranRegular, Option.filter_eq_some_iff] at h
  exact ⟨ranCall_step s c e s' h.1, h.2⟩

def webhookCalls : List Call :=
  [.create { cfgHash := [99], type := .webhook, pattern := [], leaseTtlMs := 1, owner := []
             links := [] },
    .arm { nowNs := 1, leaseTtlMs := 1, armLease := true, newWakeId := [1] }]

def webhookRun : List Event × Sub := Trace.executed ranRegular {} webhookCalls (by decide)

theorem coherent_run_webhook :
    ∃ f, webhookRun.2.fence 0 = some f ∧ f.phase = .waking ∧ f.holder = false ∧
      (webhookRun.2.lease 0).isSome = true := by
  have hc := (coherent_run (Trace.executed_run ranRegular_step (by decide :
    (Trace.execAll ranRegular {} webhookCalls).isSome))).1 0 _ rfl
  exact ⟨_, rfl, rfl, hc.2.2.2.1 rfl, hc.2.2.2.2.2.mp (by decide)⟩

end Sub

end Chronicle.Webhook
