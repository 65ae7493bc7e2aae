import Chronicle.Webhook.Claims

/-! # Claims of shards

A shard has a fence hash of its own, which a claim creates and stamps with the
incarnation of the subscription. The stamp decides whether the hash counts: what
is left over from an earlier incarnation authorises nothing, and a shard answers
to the most recent claim of the incarnation that is there.
-/

namespace Chronicle.Webhook

namespace Sub

variable {s₀ s s' : Sub} {e : Event} {h : List Event} {g : ℕ}

def StampedShards (s : Sub) : Prop :=
  ∀ g f, g ≠ 0 → s.fence g = some f →
    f.incarnation = [] ∨ ∃ n ≤ s.incarnations, f.incarnation = Decimal.formatNat n

/-- Before the subscription is there, all that can be left are shard hashes of earlier
incarnations. -/
structure Leftover (s : Sub) : Prop where
  absent : s.parent = none
  shards : StampedShards s

/-- A wake is armed in shard zero only. -/
def armsParent (e : Event) : Bool :=
  match e.call with
  | .arm a => a.shard = 0
  | _ => true

/-- Any script may run, but a shard gets its wakes from claims. -/
def ShardStep (s : Sub) (e : Event) (s' : Sub) : Prop := s.Step e s' ∧ armsParent e = true

/-- A pair was issued by the most recent claim that was granted in a shard, and the claim was in
the incarnation that is there now. -/
def LastClaim (s₀ : Sub) (h : List Event) (s : Sub) (g : ℕ) (generation : ℤ) (wakeId : Bytes) :
    Prop :=
  ∃ h₁ a r h₂ s₁, h = h₁ ++ ⟨.claim a, r⟩ :: h₂ ∧
    Trace.Run ShardStep s₀ (h₁ ++ [⟨.claim a, r⟩]) s₁ ∧ a.shard = g ∧
    Event.granted ⟨.claim a, r⟩ = some (generation, wakeId) ∧
    s₁.incarnation = s.incarnation ∧ ∀ e ∈ h₂, e.target = some g → e.granted = none

theorem LastClaim.snoc {generation : ℤ} {wakeId : Bytes}
    (hlast : LastClaim s₀ h s g generation wakeId) (hinc : s'.incarnation = s.incarnation)
    (he : e.target = some g → e.granted = none) :
    LastClaim s₀ (h ++ [e]) s' g generation wakeId := by
  rcases hlast with ⟨h₁, a, r, h₂, s₁, rfl, hrun, hg, hgranted, heq, hlater⟩
  refine ⟨h₁, a, r, h₂ ++ [e], s₁, by simp, hrun, hg, hgranted, heq.trans hinc.symm, ?_⟩
  intro e' he' htarget
  rw [List.mem_append, List.mem_singleton] at he'
  rcases he' with he' | rfl
  · exact hlater e' he' htarget
  · exact he htarget

theorem Shift.settled {f' : Fence} (hsh : Shift s e s' g) (ht : e.target ≠ some g) (hg : g ≠ 0)
    (hf' : s'.fence g = some f') :
    ∃ f, s.fence g = some f ∧ f'.incarnation = f.incarnation ∧
      (f'.wakeId = [] ∨ f'.generation = f.generation ∧ f'.wakeId = f.wakeId) := by
  have hinj : ∀ {f₁}, s'.fence g = some f₁ → f' = f₁ := fun h => Option.some.inj (hf'.symm.trans h)
  cases hsh with
  | same hf => exact ⟨f', hf.symm.trans hf', rfl, .inr ⟨rfl, rfl⟩⟩
  | booked hf hf₁ hsame =>
    rw [hinj hf₁]
    exact ⟨_, hf, hsame.incarnation, .inr ⟨hsame.generation, hsame.wakeId⟩⟩
  | restored hf hf₁ =>
    rw [hinj hf₁]
    exact ⟨_, hf, rfl, .inr ⟨rfl, rfl⟩⟩
  | armed _ _ _ _ htarget => exact absurd htarget ht
  | claimed _ _ htarget => exact absurd htarget ht
  | renewed hf _ hf₁ =>
    rw [hinj hf₁]
    exact ⟨_, hf, rfl, .inr ⟨rfl, rfl⟩⟩
  | ended hf hf₁ hsame =>
    rw [hinj hf₁]
    exact ⟨_, hf, hsame.incarnation, .inl hsame.wakeId⟩
  | created hzero => exact absurd hzero hg
  | deleted hf₁ =>
    rw [hf'] at hf₁
    cases hf₁

theorem shard_step {f' : Fence} (hs : Stamped s) (hstep : ShardStep s e s') (hg : g ≠ 0)
    (hf' : s'.fence g = some f') :
    (∃ f, s.fence g = some f ∧ f'.incarnation = f.incarnation ∧
      (f'.wakeId = [] ∨ f'.generation = f.generation ∧ f'.wakeId = f.wakeId) ∧
      (e.target = some g → e.granted = none)) ∨
    ∃ a r, e = ⟨.claim a, r⟩ ∧ a.shard = g ∧ e.granted = some (f'.generation, f'.wakeId) ∧
      s.incarnation = some f'.incarnation := by
  rcases hstep with ⟨hstep, harms⟩
  rcases e with ⟨call, reply⟩
  by_cases ht : Event.target ⟨call, reply⟩ = some g
  · cases call with
    | claim a =>
      rcases hclaim : s.claim a with ⟨s₁, r⟩
      have hexec : (s₁, Reply.claim r) = (s', reply) := by
        rw [← show s.exec (.claim a) = (s', reply) from hstep, exec, hclaim]
      cases hexec
      cases ht
      rcases claim_cases hs hclaim with ⟨hsame, hnone⟩ | ⟨f, inc, -, hinc, -, rfl, hf, -, -⟩
      · refine .inl ⟨f', (hsame _).1.symm.trans hf', rfl, .inr ⟨rfl, rfl⟩, fun _ => ?_⟩
        cases r with
        | claimed generation wakeId worker => exact absurd rfl (hnone generation wakeId worker)
        | busy | forbidden | noSub => rfl
      · obtain rfl := Option.some.inj (hf'.symm.trans hf)
        exact .inr ⟨a, _, rfl, rfl, rfl, hinc⟩
    | arm a =>
      cases ht
      exact absurd (of_decide_eq_true harms) hg
    | create | wakeSent | ack | release | check | expire | restore | retry | success | delete
    | link | unlink => cases ht
  · rcases (step_shift hs hstep g).settled ht hg hf' with ⟨f, hf, hinc, hpair⟩
    exact .inl ⟨f, hf, hinc, hpair, fun htarget => absurd htarget ht⟩

/-- Every shard hash is stamped, and one that belongs to the incarnation that is there carries the
pair of the last claim. -/
structure Issued (s₀ : Sub) (h : List Event) (s : Sub) : Prop where
  stamped : Stamped s
  shards : StampedShards s
  last : ∀ g f, g ≠ 0 → s.fence g = some f → s.incarnation = some f.incarnation →
    f.wakeId ≠ [] → LastClaim s₀ h s g f.generation f.wakeId

theorem incarnation_new {i : Bytes} (hs : Stamped s) (hstep : s.Step e s')
    (hnone : s.incarnation = none) (hi : s'.incarnation = some i) :
    i = Decimal.formatNat (s.incarnations + 1) := by
  have hf : s.fence 0 = none := by
    rw [incarnation, Option.map_eq_none_iff] at hnone
    rw [fence, if_pos rfl, hnone]
    rfl
  rcases fence_zero_incarnation hi with ⟨f', hf', rfl⟩
  rcases (step_shift hs hstep 0).lineage hf' with ⟨f₁, hf₁, -⟩ | ⟨-, hinc, -⟩
  · rw [hf] at hf₁
    cases hf₁
  · exact hinc

theorem StampedShards.step (hi : StampedShards s) (hs : Stamped s) (hstep : ShardStep s e s') :
    StampedShards s' := by
  intro g f' hg hf'
  have hle := step_incarnations hstep.1
  rcases shard_step hs hstep hg hf' with ⟨f, hf, hinc, -, -⟩ | ⟨-, -, -, -, -, hinc⟩
  · rw [hinc]
    rcases hi g f hg hf with hnil | ⟨n, hn, heq⟩
    · exact .inl hnil
    · exact .inr ⟨n, hn.trans hle, heq⟩
  · rcases Option.map_eq_some_iff.mp hinc with ⟨⟨cfg, pf⟩, hp, heq⟩
    rcases hs cfg pf hp with ⟨n, -, hn, hstamp⟩
    exact .inr ⟨n, hn.trans hle, heq.symm.trans hstamp⟩

theorem Issued.step (hi : Issued s₀ h s) (hrun : Trace.Run ShardStep s₀ h s)
    (hstep : ShardStep s e s') : Issued s₀ (h ++ [e]) s' := by
  refine ⟨step_stamped hi.stamped hstep.1, hi.shards.step hi.stamped hstep, ?_⟩
  intro g f' hg hf' hinc' hwake
  rcases shard_step hi.stamped hstep hg hf' with
    ⟨f, hf, hinc, hpair, hgranted⟩ | ⟨a, r, rfl, hshard, hgranted, hinc⟩
  · rcases hpair with hnil | ⟨hgen, hwakes⟩
    · exact absurd hnil hwake
    cases hcur : s.incarnation with
    | none =>
      -- a hash that was there before the subscription belongs to an earlier incarnation
      have hnew := incarnation_new hi.stamped hstep.1 hcur hinc'
      rw [hinc] at hnew
      rcases hi.shards g f hg hf with hnil | ⟨n, hn, heq⟩
      · rw [hnil] at hnew
        exact absurd hnew.symm (Decimal.formatNat_ne_nil _)
      · have := Decimal.formatNat_injective (heq.symm.trans hnew)
        omega
    | some i =>
      obtain rfl := step_incarnation hi.stamped hstep.1 hcur hinc'
      have hlast := hi.last g f hg hf (by rw [hcur, hinc]) (hwakes ▸ hwake)
      rw [hgen, hwakes]
      exact hlast.snoc (hinc'.trans hcur.symm) hgranted
  · exact ⟨h, a, r, [], s', rfl, hrun.snoc hstep, hshard, hgranted, rfl, by simp⟩

theorem issued_run (hs₀ : Leftover s₀) (hrun : Trace.Run ShardStep s₀ h s) : Issued s₀ h s := by
  refine hrun.induct (I := fun h s => Issued s₀ h s) ⟨?_, hs₀.shards, ?_⟩
    fun _ _ _ _ hrun hi hstep => hi.step hrun hstep
  · intro cfg f hp
    rw [hs₀.absent] at hp
    cases hp
  · intro g f _ _ hinc
    rw [incarnation, hs₀.absent] at hinc
    cases hinc

section Accepted

/-- A request of a shard that is accepted names the pair of a hash of the incarnation. -/
def Authorises (s : Sub) (g : ℕ) (generation : ℤ) (wakeId : Bytes) : Prop :=
  (∃ a : AckArgs, a.shard = g ∧ a.reqGen = generation ∧ a.reqWake = wakeId ∧ (s.ack a).2 = .ok) ∨
  ∃ (a : CheckArgs) (t d : ℤ), a.shard = g ∧ a.generation = generation ∧ a.wakeId = wakeId ∧
    s.checkWriteFence a = .ok t d

variable {f : Fence}

theorem sameIncarnation_eq {pf : Fence} (hg : g ≠ 0) (h : sameIncarnation g pf f = true) :
    f.incarnation = pf.incarnation := by
  rw [sameIncarnation, if_pos hg, Bool.and_eq_true, decide_eq_true_eq, decide_eq_true_eq] at h
  exact h.2

theorem Authorises.fence {generation : ℤ} {wakeId : Bytes} (hg : g ≠ 0)
    (h : s.Authorises g generation wakeId) :
    ∃ f, s.fence g = some f ∧ f.generation = generation ∧ f.wakeId = wakeId ∧ wakeId ≠ [] ∧
      s.incarnation = some f.incarnation := by
  have haccepts : s.Accepts g generation wakeId := by
    rcases h with ⟨a, rfl, rfl, rfl, hok⟩ | ⟨a, t, d, rfl, rfl, rfl, hok⟩
    · exact ack_accepts hok
    · exact checkWriteFence_accepts hok
  rcases haccepts with ⟨hwake, f, cfg, pf, hf, hp, hsame, hgen, heq⟩
  refine ⟨f, hf, hgen, heq, hwake, ?_⟩
  rw [incarnation, hp, sameIncarnation_eq hg hsame]
  rfl

end Accepted

/-- In every run, a pair that is accepted for a shard was issued by the most recent claim of the
shard, in the incarnation that is there. One pair is accepted at most, and a shard hash that is left
over from another incarnation authorises nothing. -/
theorem shard_claims_current (hs₀ : Leftover s₀) (hrun : Trace.Run ShardStep s₀ h s) (hg : g ≠ 0) :
    (∀ generation w, s.Authorises g generation w → LastClaim s₀ h s g generation w) ∧
    (∀ generation w generation' w', s.Authorises g generation w → s.Authorises g generation' w' →
      generation = generation' ∧ w = w') ∧
    ∀ f generation w, s.fence g = some f → s.incarnation ≠ some f.incarnation →
      ¬ s.Authorises g generation w := by
  have hi := issued_run hs₀ hrun
  refine ⟨?_, ?_, ?_⟩
  · intro generation w hauth
    rcases hauth.fence hg with ⟨f, hf, rfl, rfl, hwake, hinc⟩
    exact hi.last g f hg hf hinc hwake
  · intro generation w generation' w' hauth hauth'
    rcases hauth.fence hg with ⟨f, hf, rfl, rfl, -, -⟩
    rcases hauth'.fence hg with ⟨f', hf', rfl, rfl, -, -⟩
    cases hf.symm.trans hf'
    exact ⟨rfl, rfl⟩
  · intro f generation w hf hinc hauth
    rcases hauth.fence hg with ⟨f', hf', -, -, -, hinc'⟩
    cases hf.symm.trans hf'
    exact hinc hinc'

def leftShard : Sub where
  shards := Function.update (fun _ => none) 1
    (some { incarnation := [49], phase := .live, generation := 4, wakeId := [9], holder := true
            holderWorker := [97], leaseUntilNs := 10 ^ 9 })
  incarnations := 1

theorem leftover_leftShard : Leftover leftShard := by
  refine ⟨rfl, ?_⟩
  intro g f hg hf
  rw [fence, if_neg hg] at hf
  by_cases h1 : g = 1
  · subst h1
    cases hf
    exact .inr ⟨1, le_rfl, by decide⟩
  · have hnone : leftShard.shards g = none := by simp [leftShard, h1]
    rw [hnone] at hf
    cases hf

def ranShard (s : Sub) (c : Call) : Option (Event × Sub) :=
  (s.ranCall c).filter fun (e, _) => armsParent e

theorem ranShard_step (s : Sub) (c : Call) (e : Event) (s' : Sub)
    (h : s.ranShard c = some (e, s')) : ShardStep s e s' := by
  rcases Option.filter_eq_some_iff.mp h with ⟨hran, harms⟩
  exact ⟨ranCall_step _ _ _ _ hran, harms⟩

def reclaimed : List Event × Sub :=
  Trace.executed ranShard leftShard
    [.create pullSub,
      .claim { claimBy [98] [2] 1 with
               shard := 1
               expected := { owner := [111], incarnation := [50], cfgHash := [99], paths := [] } }]
    (by decide)

theorem shard_claims_current_reclaimed :
    (reclaimed.2.ack { shard := 1, reqGen := 1, reqWake := [2], tokenGen := 1, done := true
                       nowNs := 5, leaseTtlMs := 1 }).2 = .ok ∧
      LastClaim leftShard reclaimed.1 reclaimed.2 1 1 [2] ∧ ¬ reclaimed.2.Authorises 1 4 [9] := by
  have hok : (reclaimed.2.ack { shard := 1, reqGen := 1, reqWake := [2], tokenGen := 1, done := true
                                nowNs := 5, leaseTtlMs := 1 }).2 = .ok := by decide
  have hauth : reclaimed.2.Authorises 1 1 [2] := .inl ⟨_, rfl, rfl, rfl, hok⟩
  have hrun : Trace.Run ShardStep leftShard reclaimed.1 reclaimed.2 :=
    Trace.executed_run ranShard_step _
  have hcurrent := shard_claims_current leftover_leftShard hrun (show 1 ≠ 0 by decide)
  refine ⟨hok, hcurrent.1 1 [2] hauth, ?_⟩
  intro hold
  exact absurd (hcurrent.2.1 _ _ _ _ hauth hold).1 (by decide)

end Sub

end Chronicle.Webhook
