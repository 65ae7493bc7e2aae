import Chronicle.Webhook.System

/-! # The single holder of a subscription

Every wake id names one claim. The pair of generation and wake id that a fence
holds is accepted as long as it is held, and once it is gone it never comes back,
because a fence changes its pair only to one that a later call brings.
-/

namespace Chronicle.Webhook

open Chronicle.Webhook.Sub

namespace Sub

variable {s s' : Sub} {e : Event} {g : ℕ} {h : List Event}

def Holds (s : Sub) (g : ℕ) (generation : ℤ) (wakeId : Bytes) : Prop :=
  ∃ f, s.fence g = some f ∧ f.generation = generation ∧ f.wakeId = wakeId

/-- The wake ids that the calls of a history brought. -/
def minted (h : List Event) : List Bytes := h.filterMap Event.newWake

def grants (h : List Event) : List (ℤ × Bytes) := h.filterMap Event.granted

theorem mem_minted_snoc {w : Bytes} :
    w ∈ minted (h ++ [e]) ↔ w ∈ minted h ∨ e.newWake = some w := by
  simp [minted]

theorem not_mem_minted {w : Bytes} (hnodup : (minted (h ++ [e])).Nodup)
    (hw : e.newWake = some w) : w ∉ minted h := by
  intro hmem
  rw [minted, List.filterMap_append, List.filterMap_cons_some hw, List.filterMap_nil,
    List.nodup_append] at hnodup
  exact hnodup.2.2 w hmem w (List.mem_singleton_self w) rfl

theorem nodup_minted_of_snoc (hnodup : (minted (h ++ [e])).Nodup) : (minted h).Nodup := by
  rw [minted, List.filterMap_append] at hnodup
  exact hnodup.of_append_left

theorem Shift.origin {f' : Fence} (hsh : Shift s e s' g) (hf' : s'.fence g = some f')
    (hne : f'.wakeId ≠ []) :
    (∃ f, s.fence g = some f ∧ f.wakeId = f'.wakeId ∧ f.generation = f'.generation ∧
      (f'.reusable = true → f.reusable = true)) ∨
    e.target = some g ∧ e.newWake = some f'.wakeId ∧ (f'.reusable = true → e.granted = none) := by
  have hinj : ∀ {f}, s'.fence g = some f → f' = f := fun h => Option.some.inj (hf'.symm.trans h)
  cases hsh with
  | same hf => exact .inl ⟨f', hf.symm.trans hf', rfl, rfl, id⟩
  | booked hf hf₁ hsame =>
    cases hinj hf₁
    refine .inl ⟨_, hf, hsame.wakeId.symm, hsame.generation.symm, ?_⟩
    rw [Fence.reusable, Fence.reusable, hsame.phase, hsame.wakeId]
    exact id
  | restored hf hf₁ =>
    cases hinj hf₁
    exact .inl ⟨_, hf, rfl, rfl, id⟩
  | armed hf hf₁ hidle hw hg hgr _ _ hwake =>
    cases hinj hf₁
    exact .inr ⟨hg, hwake ▸ hw, fun _ => hgr⟩
  | @claimed f w worker inc t hf hw hg hgr hf₁ =>
    cases hinj hf₁
    by_cases hre : f.reusable = true
    · rcases hf with hf | rfl
      · exact .inl ⟨f, hf, by simp [Fence.claimed, hre], by simp [Fence.claimed, hre],
          fun _ => hre⟩
      · cases hre
    · refine .inr ⟨hg, ?_, ?_⟩
      · rw [show (f.claimed worker w inc t).wakeId = w from if_neg hre]
        exact hw
      · intro hlive
        simp [Fence.claimed, Fence.reusable] at hlive
  | renewed hf _ hf₁ =>
    cases hinj hf₁
    refine .inl ⟨_, hf, rfl, rfl, ?_⟩
    intro hlive
    simp [Fence.reusable] at hlive
  | ended _ hf₁ hsame =>
    cases hinj hf₁
    exact absurd hsame.wakeId hne
  | created _ _ hf₁ =>
    cases hinj hf₁
    exact absurd rfl hne
  | deleted hf₁ =>
    rw [hf'] at hf₁
    cases hf₁

theorem granted_origin {p : ℤ × Bytes} (hs : Stamped s) (hstep : Step s e s')
    (hp : e.granted = some p) :
    e.newWake = some p.2 ∨ ∃ g f f', s.fence g = some f ∧ f.reusable = true ∧ f.wakeId = p.2 ∧
      s'.fence g = some f' ∧ f'.reusable = false := by
  rcases e with ⟨call, reply⟩
  cases call with
  | claim a =>
    have hreply : reply = .claim (s.claim a).2 := (congrArg Prod.snd hstep).symm
    have hs' : (s.claim a).1 = s' := congrArg Prod.fst hstep
    subst hreply hs'
    rcases hr : s.claim a with ⟨s₁, r⟩
    rw [hr] at hp
    rcases claim_cases hs hr with ⟨-, hnone⟩ | ⟨f, inc, hf, -, -, rfl, hf', -, -⟩
    · cases r with
      | claimed generation wakeId worker => exact absurd rfl (hnone _ _ _)
      | busy | forbidden | noSub => cases hp
    · cases hp
      by_cases hre : f.reusable = true
      · rcases hf with hf | rfl
        · refine .inr ⟨a.shard, f, _, hf, hre, (if_pos hre).symm, hf', ?_⟩
          simp [Fence.reusable, Fence.claimed]
        · cases hre
      · exact .inl (congrArg some (if_neg hre).symm)
  | create | arm | wakeSent | ack | release | check | expire | restore | retry | success | delete
  | link | unlink =>
    cases hstep
    cases hp

/-- The wake ids of the fences and of the granted claims after a history. -/
structure WakeLog (h : List Event) (s : Sub) : Prop where
  stamped : Stamped s
  /-- A fence holds a wake id that some call brought. -/
  minted : ∀ g f, s.fence g = some f → f.wakeId ≠ [] → f.wakeId ∈ minted h
  /-- Two shards never hold the same wake id. -/
  apart : ∀ g g' f f', s.fence g = some f → s.fence g' = some f' → f.wakeId ≠ [] →
    f.wakeId = f'.wakeId → g = g'
  /-- A wake that can still be claimed was not claimed. -/
  unclaimed : ∀ g f, s.fence g = some f → f.reusable = true →
    ∀ p ∈ grants h, p.2 ≠ f.wakeId
  granted : ∀ p ∈ grants h, p.2 ∈ Sub.minted h
  nodup : ((grants h).map Prod.snd).Nodup

theorem reusable_wake {f : Fence} (h : f.reusable = true) : f.wakeId ≠ [] := by
  simp only [Fence.reusable, Bool.and_eq_true, decide_eq_true_eq] at h
  exact h.2

theorem WakeLog.fresh_grant {p : ℤ × Bytes} (hi : WakeLog h s) (hstep : Step s e s')
    (hnodup : (Sub.minted (h ++ [e])).Nodup) (hp : e.granted = some p) :
    ∀ q ∈ grants h, q.2 ≠ p.2 := by
  intro q hq heq
  rcases granted_origin hi.stamped hstep hp with hnew | ⟨g, f, -, hf, hre, hw, -⟩
  · exact not_mem_minted hnodup hnew (heq ▸ hi.granted q hq)
  · exact hi.unclaimed g f hf hre q hq (heq.trans hw.symm)

theorem mem_grants_snoc {p : ℤ × Bytes} :
    p ∈ grants (h ++ [e]) ↔ p ∈ grants h ∨ e.granted = some p := by
  simp [grants]

theorem WakeLog.apart_step (hi : WakeLog h s) (hstep : Step s e s')
    (hnodup : (Sub.minted (h ++ [e])).Nodup) (g g' : ℕ) (f f' : Fence)
    (hf : s'.fence g = some f) (hf' : s'.fence g' = some f') (hne : f.wakeId ≠ [])
    (heq : f.wakeId = f'.wakeId) : g = g' := by
  have hshift := step_shift hi.stamped hstep
  rcases (hshift g).origin hf hne with ⟨f₀, hf₀, hw, -⟩ | ⟨ht, hnew, -⟩
  · rcases (hshift g').origin hf' (heq ▸ hne) with ⟨f₁, hf₁, hw', -⟩ | ⟨-, hnew', -⟩
    · exact hi.apart g g' f₀ f₁ hf₀ hf₁ (hw ▸ hne) (by rw [hw, hw', heq])
    · refine absurd (hi.minted g f₀ hf₀ (hw ▸ hne)) ?_
      rw [hw, heq]
      exact not_mem_minted hnodup hnew'
  · rcases (hshift g').origin hf' (heq ▸ hne) with ⟨f₁, hf₁, hw', -⟩ | ⟨ht', -, -⟩
    · refine absurd (hi.minted g' f₁ hf₁ (hw' ▸ heq ▸ hne)) ?_
      rw [hw', ← heq]
      exact not_mem_minted hnodup hnew
    · exact Option.some.inj (ht.symm.trans ht')

theorem WakeLog.unclaimed_step (hi : WakeLog h s) (hstep : Step s e s')
    (hnodup : (Sub.minted (h ++ [e])).Nodup) (g : ℕ) (f : Fence) (hf : s'.fence g = some f)
    (hre : f.reusable = true) : ∀ p ∈ grants (h ++ [e]), p.2 ≠ f.wakeId := by
  have hne := reusable_wake hre
  intro p hp heq
  rcases (step_shift hi.stamped hstep g).origin hf hne with
    ⟨f₀, hf₀, hw, -, hre₀⟩ | ⟨-, hnew, hgr⟩
  · rcases mem_grants_snoc.mp hp with hp | hp
    · exact hi.unclaimed g f₀ hf₀ (hre₀ hre) p hp (heq.trans hw.symm)
    · rcases granted_origin hi.stamped hstep hp with hnew | ⟨g₁, f₁, f₂, hf₁, hre₁, hw₁, hf₂, hlive⟩
      · exact not_mem_minted hnodup hnew (heq ▸ hw ▸ hi.minted g f₀ hf₀ (hw ▸ hne))
      · have hg : g = g₁ := hi.apart g g₁ f₀ f₁ hf₀ hf₁ (hw ▸ hne) (by rw [hw, hw₁, heq])
        subst hg
        rw [hf, Option.some.injEq] at hf₂
        rw [hf₂, hlive] at hre
        cases hre
  · rcases mem_grants_snoc.mp hp with hp | hp
    · exact not_mem_minted hnodup hnew (heq ▸ hi.granted p hp)
    · rw [hgr hre] at hp
      cases hp

theorem WakeLog.granted_step (hi : WakeLog h s) (hstep : Step s e s') :
    ∀ p ∈ grants (h ++ [e]), p.2 ∈ Sub.minted (h ++ [e]) := by
  intro p hp
  rw [mem_minted_snoc]
  rcases mem_grants_snoc.mp hp with hp | hp
  · exact .inl (hi.granted p hp)
  · rcases granted_origin hi.stamped hstep hp with hnew | ⟨g, f, -, hf, hre, hw, -⟩
    · exact .inr hnew
    · exact .inl (hw ▸ hi.minted g f hf (reusable_wake hre))

theorem WakeLog.nodup_step (hi : WakeLog h s) (hstep : Step s e s')
    (hnodup : (Sub.minted (h ++ [e])).Nodup) : ((grants (h ++ [e])).map Prod.snd).Nodup := by
  rw [grants, List.filterMap_append]
  cases hp : e.granted with
  | none =>
    rw [List.filterMap_cons_none hp, List.filterMap_nil, List.append_nil]
    exact hi.nodup
  | some p =>
    rw [List.filterMap_cons_some hp, List.filterMap_nil, List.map_append, List.nodup_append]
    refine ⟨hi.nodup, List.nodup_singleton _, ?_⟩
    intro w hw w' hw' heq
    rcases List.mem_map.mp hw with ⟨q, hq, rfl⟩
    rw [List.map_singleton, List.mem_singleton] at hw'
    exact hi.fresh_grant hstep hnodup hp q hq (heq.trans hw')

theorem WakeLog.step (hi : WakeLog h s) (hstep : Step s e s')
    (hnodup : (Sub.minted (h ++ [e])).Nodup) : WakeLog (h ++ [e]) s' where
  stamped := step_stamped hi.stamped hstep
  minted g f hf hne := by
    rw [mem_minted_snoc]
    rcases (step_shift hi.stamped hstep g).origin hf hne with ⟨f₀, hf₀, hw, -⟩ | ⟨-, hnew, -⟩
    · exact .inl (hw ▸ hi.minted g f₀ hf₀ (hw ▸ hne))
    · exact .inr hnew
  apart := hi.apart_step hstep hnodup
  unclaimed := hi.unclaimed_step hstep hnodup
  granted := hi.granted_step hstep
  nodup := hi.nodup_step hstep hnodup

theorem wakeLog_empty : WakeLog [] {} := by
  have hnone : ∀ g, fence {} g = none := by
    intro g
    unfold fence
    split <;> rfl
  refine ⟨stamped_empty, ?_, ?_, ?_, by simp [grants], by simp [grants]⟩
  · intro g f hf
    rw [hnone] at hf
    cases hf
  · intro g g' f f' hf
    rw [hnone] at hf
    cases hf
  · intro g f hf
    rw [hnone] at hf
    cases hf

theorem wakeLog_run (hrun : Trace.Run Step {} h s) (hnodup : (Sub.minted h).Nodup) :
    WakeLog h s := by
  induction hrun with
  | nil => exact wakeLog_empty
  | snoc _ hstep ih => exact (ih (nodup_minted_of_snoc hnodup)).step hstep hnodup

theorem stamped_run (hs : Stamped s) (hrun : Trace.Run Step s h s') : Stamped s' :=
  hrun.invariant hs fun _ _ _ hs hstep => step_stamped hs hstep

section Generation

variable {n : ℕ} {generation : ℤ}

def FromGeneration (n : ℕ) (generation : ℤ) (s : Sub) : Prop :=
  Stamped s ∧ n ≤ s.incarnations ∧
    ∀ f, s.fence 0 = some f → f.incarnation = Decimal.formatNat n → generation ≤ f.generation

theorem FromGeneration.step (hi : FromGeneration n generation s) (hstep : Step s e s') :
    FromGeneration n generation s' := by
  rcases hi with ⟨hs, hn, hgen⟩
  refine ⟨step_stamped hs hstep, hn.trans (step_incarnations hstep), ?_⟩
  intro f' hf' hinc'
  rcases (step_shift hs hstep 0).lineage hf' with ⟨f, hf, hinc, hle⟩ | ⟨-, hinc, -⟩
  · exact (hgen f hf (hinc.symm.trans hinc')).trans hle
  · -- a new incarnation has a number of its own
    have heq := Decimal.formatNat_injective (hinc.symm.trans hinc')
    omega

theorem generation_le {cfg cfg' : Config} {f f' : Fence} (hs : Stamped s)
    (hrun : Trace.Run Step s h s') (hp : s.parent = some (cfg, f))
    (hp' : s'.parent = some (cfg', f')) (hinc : f.incarnation = f'.incarnation) :
    f.generation ≤ f'.generation := by
  rcases hs cfg f hp with ⟨n, -, hn, heq⟩
  have hinit : FromGeneration n f.generation s := by
    refine ⟨hs, hn, ?_⟩
    intro f₀ hf₀ _
    rw [fence_zero hp, Option.some.injEq] at hf₀
    rw [hf₀]
  have hfinal := hrun.invariant hinit fun _ _ _ hi hstep => hi.step hstep
  exact hfinal.2.2 f' (fence_zero hp') (hinc.symm.trans heq)

end Generation

section Deposed

variable {P : ℕ → ℤ → Prop} {w : Bytes}

/-- A wake id that was brought is held only where a condition allows it. -/
def Confined (P : ℕ → ℤ → Prop) (w : Bytes) (h : List Event) (s : Sub) : Prop :=
  w ∈ minted h ∧ ∀ g f, s.fence g = some f → f.wakeId = w → P g f.generation

theorem Confined.step (hw : w ≠ []) (hs : Stamped s) (hi : Confined P w h s)
    (hstep : Step s e s') (hnodup : (minted (h ++ [e])).Nodup) : Confined P w (h ++ [e]) s' := by
  refine ⟨mem_minted_snoc.mpr (.inl hi.1), ?_⟩
  rintro g f hf rfl
  rcases (step_shift hs hstep g).origin hf hw with ⟨f₀, hf₀, hw₀, hgen, -⟩ | ⟨-, hnew, -⟩
  · exact hgen ▸ hi.2 g f₀ hf₀ hw₀
  · exact absurd hi.1 (not_mem_minted hnodup hnew)

theorem Confined.run {h' : List Event} (hw : w ≠ []) (hs : Stamped s) (hi : Confined P w h s)
    (hrun : Trace.Run Step s h' s') (hnodup : (minted (h ++ h')).Nodup) :
    Confined P w (h ++ h') s' := by
  induction hrun with
  | nil => rwa [List.append_nil]
  | snoc hrun hstep ih =>
    rw [← List.append_assoc] at hnodup ⊢
    exact (ih (nodup_minted_of_snoc hnodup)).step hw (stamped_run hs hrun) hstep hnodup

/-- The pair is that of a fence of the incarnation that is there, and its wake id is not empty. -/
def Accepts (s : Sub) (g : ℕ) (generation : ℤ) (wakeId : Bytes) : Prop :=
  wakeId ≠ [] ∧ ∃ f cfg pf, s.fence g = some f ∧ s.parent = some (cfg, pf) ∧
    sameIncarnation g pf f = true ∧ f.generation = generation ∧ f.wakeId = wakeId

theorem Accepts.holds {generation : ℤ} (h : s.Accepts g generation w) :
    s.Holds g generation w := by
  rcases h with ⟨-, f, -, -, hf, -, -, heq⟩
  exact ⟨f, hf, heq⟩

theorem ack_accepts {a : AckArgs} (h : (s.ack a).2 = .ok) :
    s.Accepts a.shard a.reqGen a.reqWake := by
  unfold ack at h
  split at h
  · cases h
  split at h
  · cases h
  · cases h
  rename_i f cfg pf hf hp
  split at h
  · cases h
  rename_i hsame
  split at h
  · cases h
  rename_i hnot
  simp only [Webhook.fenced, Bool.or_eq_true, decide_eq_true_eq, not_or, not_not] at hnot
  exact ⟨hnot.1.2, f, cfg, pf, hf, hp, not_not.mp hsame, hnot.1.1.2.symm, hnot.2.symm⟩

theorem release_holds {a : ReleaseArgs} (h : (s.release a).2 = .ok) :
    s.Holds a.shard a.reqGen a.reqWake := by
  unfold release at h
  split at h
  · cases h
  split at h
  · cases h
  rename_i f hf
  split at h
  · cases h
  rename_i hnot
  simp only [Webhook.fenced, Bool.or_eq_true, decide_eq_true_eq, not_or, not_not] at hnot
  exact ⟨f, hf, hnot.1.1.2.symm, hnot.2.symm⟩

theorem checkWriteFence_accepts {a : CheckArgs} {t d : ℤ} (h : s.checkWriteFence a = .ok t d) :
    s.Accepts a.shard a.generation a.wakeId := by
  unfold checkWriteFence at h
  split at h
  · cases h
  · cases h
  rename_i f cfg pf hf hp
  split at h
  · cases h
  rename_i hsame
  split at h
  · cases h
  split at h
  · cases h
  rename_i hwake
  split at h
  · cases h
  rename_i hnot
  simp only [not_or, not_not] at hnot
  exact ⟨hnot.2.2.1 ▸ hwake, f, cfg, pf, hf, hp, not_not.mp hsame, hnot.2.1, hnot.2.2.1⟩

theorem deposed {h₁ h₂ h₃ : List Event} {s₁ s₂ s₃ : Sub} {generation : ℤ}
    (hrun₁ : Trace.Run Step {} h₁ s₁) (hrun₂ : Trace.Run Step s₁ h₂ s₂)
    (hrun₃ : Trace.Run Step s₂ h₃ s₃) (hwakes : (minted (h₁ ++ h₂ ++ h₃)).Nodup) (hw : w ≠ [])
    (hheld : s₁.Holds g generation w) (hgone : ¬ s₂.Holds g generation w) (g' : ℕ) :
    ¬ s₃.Holds g' generation w := by
  have hwakes₂ : (minted (h₁ ++ h₂)).Nodup := by
    rw [minted, List.filterMap_append] at hwakes
    exact hwakes.of_append_left
  have hwakes₁ : (minted h₁).Nodup := by
    rw [minted, List.filterMap_append] at hwakes₂
    exact hwakes₂.of_append_left
  have hlog := wakeLog_run hrun₁ hwakes₁
  rcases hheld with ⟨f, hf, rfl, rfl⟩
  have hhome : Confined (fun x y => x = g ∧ y = f.generation) f.wakeId h₁ s₁ := by
    refine ⟨hlog.minted g f hf hw, ?_⟩
    intro g₀ f₀ hf₀ heq
    cases hlog.apart g₀ g f₀ f hf₀ hf (heq ▸ hw) heq
    rw [hf, Option.some.injEq] at hf₀
    exact ⟨rfl, by rw [hf₀]⟩
  have hhome₂ := hhome.run hw hlog.stamped hrun₂ hwakes₂
  have hdead : Confined (fun _ _ => False) f.wakeId (h₁ ++ h₂) s₂ := by
    refine ⟨hhome₂.1, ?_⟩
    intro g₀ f₀ hf₀ heq
    rcases hhome₂.2 g₀ f₀ hf₀ heq with ⟨rfl, hgen⟩
    exact hgone ⟨f₀, hf₀, hgen, heq⟩
  rintro ⟨f₃, hf₃, -, heq⟩
  exact (hdead.run hw (stamped_run hlog.stamped hrun₂) hrun₃ hwakes).2 g' f₃ hf₃ heq

end Deposed

/-- The single holder of a shard. In every run whose wake ids are distinct the generation never
decreases within an incarnation, two grants never carry the same generation and wake id, an
acknowledgement of a shard is accepted for one pair at most, and a pair that was deposed is never accepted
again. -/
theorem single_holder {h₁ h₂ h₃ : List Event} {s₁ s₂ s₃ : Sub}
    (hrun₁ : Trace.Run Step {} h₁ s₁) (hrun₂ : Trace.Run Step s₁ h₂ s₂)
    (hrun₃ : Trace.Run Step s₂ h₃ s₃) (hwakes : (minted (h₁ ++ h₂ ++ h₃)).Nodup) :
    (∀ cfg₁ f₁ cfg₂ f₂, s₁.parent = some (cfg₁, f₁) → s₂.parent = some (cfg₂, f₂) →
      f₁.incarnation = f₂.incarnation → f₁.generation ≤ f₂.generation) ∧
    (grants (h₁ ++ h₂ ++ h₃)).Nodup ∧
    (∀ a a' : AckArgs, a.shard = a'.shard → (s₃.ack a).2 = .ok → (s₃.ack a').2 = .ok →
      a.reqGen = a'.reqGen ∧ a.reqWake = a'.reqWake) ∧
    (∀ g generation w, w ≠ [] → s₁.Holds g generation w → ¬ s₂.Holds g generation w →
      (∀ a : AckArgs, a.reqGen = generation → a.reqWake = w → (s₃.ack a).2 ≠ .ok) ∧
      (∀ a : ReleaseArgs, a.reqGen = generation → a.reqWake = w → (s₃.release a).2 ≠ .ok) ∧
      ∀ a : CheckArgs, a.generation = generation → a.wakeId = w →
        ∀ t d, s₃.checkWriteFence a ≠ .ok t d) := by
  refine ⟨?_, ?_, ?_, ?_⟩
  · intro cfg₁ f₁ cfg₂ f₂ hp₁ hp₂ hinc
    exact generation_le (stamped_run stamped_empty hrun₁) hrun₂ hp₁ hp₂ hinc
  · exact .of_map Prod.snd (wakeLog_run ((hrun₁.append hrun₂).append hrun₃) hwakes).nodup
  · intro a a' hshard hok hok'
    rcases (ack_accepts hok).holds with ⟨f, hf, hgen, hwake⟩
    rcases (ack_accepts hok').holds with ⟨f', hf', hgen', hwake'⟩
    rw [hshard, hf'] at hf
    cases hf
    exact ⟨hgen.symm.trans hgen', hwake.symm.trans hwake'⟩
  · intro g generation w hw hheld hgone
    have hdead := deposed hrun₁ hrun₂ hrun₃ hwakes hw hheld hgone
    refine ⟨?_, ?_, ?_⟩
    · rintro a rfl rfl hok
      exact hdead a.shard (ack_accepts hok).holds
    · rintro a rfl rfl hok
      exact hdead a.shard (release_holds hok)
    · rintro a rfl rfl t d hok
      exact hdead a.shard (checkWriteFence_accepts hok).holds

def pullSub : CreateArgs :=
  { cfgHash := [99], type := .pullWake, pattern := [], leaseTtlMs := 1, owner := [111]
    links := [] }

def claimBy (worker wakeId : Bytes) (nowNs : ℤ) : ClaimArgs :=
  { worker := worker, nowNs := nowNs, leaseTtlMs := 1, newWakeId := wakeId
    expected := { owner := [111], incarnation := [49], cfgHash := [99], paths := [] } }

def takenOver : List Event × Sub :=
  Trace.executed ranCall {} [.create pullSub, .claim (claimBy [97] [1] 1)] (by decide)

def takeover : List Event × Sub :=
  Trace.executed ranCall takenOver.2 [.claim (claimBy [98] [2] 2000000)] (by decide)

theorem single_holder_takeover :
    takenOver.2.Holds 0 1 [1] ∧ takeover.2.Holds 0 2 [2] ∧
      (takeover.2.ack { reqGen := 1, reqWake := [1], tokenGen := 1, done := true
                        nowNs := 2000001, leaseTtlMs := 1 }).2 ≠ .ok := by
  have hheld : takenOver.2.Holds 0 1 [1] := ⟨_, rfl, rfl, rfl⟩
  have hheld' : takeover.2.Holds 0 2 [2] := ⟨_, rfl, rfl, rfl⟩
  have hgone : ¬ takeover.2.Holds 0 1 [1] := by
    rintro ⟨f, hf, hgen, -⟩
    rcases hheld' with ⟨f', hf', hgen', -⟩
    rw [hf, Option.some.injEq] at hf'
    rw [hf', hgen'] at hgen
    cases hgen
  refine ⟨hheld, hheld', ?_⟩
  exact ((single_holder (Trace.executed_run ranCall_step _) (Trace.executed_run ranCall_step _)
    .nil (by decide)).2.2.2 0 1 [1] (by decide) hheld hgone).1 _ rfl rfl

def shardClaims : List Event × Sub :=
  Trace.executed ranCall {} [.create pullSub, .claim (claimBy [97] [1] 1),
    .claim { claimBy [98] [2] 1 with shard := 1 }] (by decide)

/-- Two shards are claimed at a time, and both pairs are acknowledged. -/
theorem shards_held :
    ∃ h s, Trace.Run Step {} h s ∧ (minted h).Nodup ∧ ∃ a a' : AckArgs,
      (s.ack a).2 = .ok ∧ (s.ack a').2 = .ok ∧ a.reqWake ≠ a'.reqWake :=
  ⟨_, shardClaims.2, Trace.executed_run ranCall_step _, by decide,
    { reqGen := 1, reqWake := [1], tokenGen := 1, done := true, nowNs := 2, leaseTtlMs := 1 },
    { shard := 1, reqGen := 1, reqWake := [2], tokenGen := 1, done := true, nowNs := 2
      leaseTtlMs := 1 }, by decide, by decide, by decide⟩

end Sub

end Chronicle.Webhook
