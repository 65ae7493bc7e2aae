import Mathlib.Data.List.Induction

/-! # Labelled runs

A run of a labelled transition system is recorded as the list of its events,
oldest first. Invariants, and relations between the history and the state it
leads to, are proved by looking at one step at a time.
-/

namespace Trace

variable {σ ε : Type*}

/-- The histories that lead from `s₀` to a state, one event per step. -/
inductive Run (step : σ → ε → σ → Prop) (s₀ : σ) : List ε → σ → Prop where
  | nil : Run step s₀ [] s₀
  | snoc {h : List ε} {s s' : σ} {e : ε} :
      Run step s₀ h s → step s e s' → Run step s₀ (h ++ [e]) s'

variable {step : σ → ε → σ → Prop} {s₀ s s' : σ} {h h' : List ε}

/-- A relation between history and state that every step extends holds of every run. -/
theorem Run.induct {I : List ε → σ → Prop} (h₀ : I [] s₀)
    (hs : ∀ h s e s', Run step s₀ h s → I h s → step s e s' → I (h ++ [e]) s')
    (hr : Run step s₀ h s) : I h s := by
  induction hr with
  | nil => exact h₀
  | snoc hr hst ih => exact hs _ _ _ _ hr ih hst

/-- A predicate that holds initially and is kept by every step holds of every reached state. -/
theorem Run.invariant {I : σ → Prop} (h₀ : I s₀)
    (hs : ∀ s e s', I s → step s e s' → I s') (hr : Run step s₀ h s) : I s :=
  hr.induct (I := fun _ s => I s) h₀ fun _ _ _ _ _ hi hst => hs _ _ _ hi hst

theorem Run.mono {step' : σ → ε → σ → Prop} (hm : ∀ s e s', step s e s' → step' s e s')
    (hr : Run step s₀ h s) : Run step' s₀ h s := by
  induction hr with
  | nil => exact .nil
  | snoc _ hst ih => exact .snoc ih (hm _ _ _ hst)

theorem Run.append (hr : Run step s₀ h s) (hr' : Run step s h' s') :
    Run step s₀ (h ++ h') s' := by
  induction hr' with
  | nil => rwa [List.append_nil]
  | snoc _ hst ih =>
    rw [← List.append_assoc]
    exact .snoc ih hst

theorem Run.eq_of_nil (hr : Run step s₀ [] s) : s = s₀ := by
  generalize hg : ([] : List ε) = g at hr
  cases hr with
  | nil => rfl
  | snoc => simp at hg

/-- The last step of a run. -/
theorem Run.last {e : ε} (hr : Run step s₀ (h ++ [e]) s) :
    ∃ s₁, Run step s₀ h s₁ ∧ step s₁ e s := by
  generalize hg : h ++ [e] = g at hr
  cases hr with
  | nil => simp at hg
  | snoc hr hst =>
    obtain ⟨rfl, he⟩ := List.append_inj' hg rfl
    cases he
    exact ⟨_, hr, hst⟩

/-- A run can be cut at any point of its history. -/
theorem Run.split (hr : Run step s₀ (h ++ h') s) :
    ∃ s₁, Run step s₀ h s₁ ∧ Run step s₁ h' s := by
  induction h' using List.reverseRecOn generalizing s with
  | nil => exact ⟨s, by simpa using hr, .nil⟩
  | append_singleton h' e ih =>
    rw [← List.append_assoc] at hr
    obtain ⟨t, hr, hst⟩ := hr.last
    obtain ⟨s₁, h₁, h₂⟩ := ih hr
    exact ⟨s₁, h₁, h₂.snoc hst⟩

/-- The first step of a run. -/
theorem Run.first {e : ε} (hr : Run step s₀ (e :: h) s) :
    ∃ s₁, step s₀ e s₁ ∧ Run step s₁ h s := by
  obtain ⟨s₁, hfirst, hrest⟩ := Run.split (h := [e]) hr
  obtain ⟨s₂, hnil, hst⟩ := Run.last (h := []) hfirst
  rw [hnil.eq_of_nil] at hst
  exact ⟨s₁, hst, hrest⟩

/-- Every event of a run is a step from a state with a property that the run keeps. -/
theorem Run.mem_step {I : σ → Prop} (h₀ : I s₀)
    (hs : ∀ s e s', e ∈ h → I s → step s e s' → I s') (hr : Run step s₀ h s) :
    I s ∧ ∀ e ∈ h, ∃ s₁ s₂, I s₁ ∧ step s₁ e s₂ := by
  induction hr with
  | nil => exact ⟨h₀, by simp⟩
  | @snoc h s s' e hr hst ih =>
    rcases ih fun s e' s' he' => hs s e' s' (by simp [he']) with ⟨hi, hmem⟩
    refine ⟨hs _ _ _ (by simp) hi hst, ?_⟩
    intro e' he'
    rw [List.mem_append, List.mem_singleton] at he'
    rcases he' with he' | rfl
    · exact hmem e' he'
    · exact ⟨s, s', hi, hst⟩

def execAll {α : Type*} (exec : σ → α → Option (ε × σ)) : σ → List α → Option (List ε × σ)
  | s, [] => some ([], s)
  | s, a :: as =>
    match exec s a with
    | none => none
    | some (e, s') => (execAll exec s' as).map fun (h, s'') => (e :: h, s'')

theorem execAll_run {α : Type*} {exec : σ → α → Option (ε × σ)} {as : List α}
    (hstep : ∀ s a e s', exec s a = some (e, s') → step s e s')
    (hr : Run step s₀ h s) (he : execAll exec s as = some (h', s')) :
    Run step s₀ (h ++ h') s' := by
  induction as generalizing h h' s with
  | nil =>
    cases he
    rwa [List.append_nil]
  | cons a as ih =>
    unfold execAll at he
    split at he
    · cases he
    · rename_i e s₁ hea
      rcases Option.map_eq_some_iff.mp he with ⟨⟨h₂, s₂⟩, htail, heq⟩
      cases heq
      simpa using ih (hr.snoc (hstep _ _ _ _ hea)) htail

def executed {α : Type*} (exec : σ → α → Option (ε × σ)) (s : σ) (as : List α)
    (he : (execAll exec s as).isSome) : List ε × σ := (execAll exec s as).get he

theorem executed_run {α : Type*} {exec : σ → α → Option (ε × σ)} {as : List α}
    (hstep : ∀ s a e s', exec s a = some (e, s') → step s e s')
    (he : (execAll exec s as).isSome) :
    Run step s (executed exec s as he).1 (executed exec s as he).2 :=
  execAll_run hstep .nil (Option.some_get he).symm

end Trace
