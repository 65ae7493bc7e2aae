import Chronicle.Lib.Trace
import Mathlib.Algebra.GroupWithZero.Nat

/-! # Interleaved threads

A thread is a list of instructions that it still has to run. An instruction runs
as one step on a state that all threads share, and it may put further instructions
in front of the rest of its thread. Threads start at any time and take turns in
any order.
-/

namespace Threads

variable {σ ι κ ε : Type*}

/-- An instruction in a shared state, under a choice that is left open: the new state, what the
thread runs next, and what was observed. -/
abbrev Exec (σ ι κ ε : Type*) := σ → ι → κ → Option (σ × List ι × ε)

structure State (σ ι : Type*) where
  world : σ
  threads : List (List ι)

def State.Quiescent (s : State σ ι) : Prop := ∀ p ∈ s.threads, p = []

instance (s : State σ ι) : Decidable s.Quiescent :=
  inferInstanceAs (Decidable (∀ p ∈ s.threads, p = []))

def State.Pending (s : State σ ι) (i : ι) : Prop := ∃ p ∈ s.threads, i ∈ p

variable {exec : Exec σ ι κ ε} {starts : List ι → Prop} {P : σ → ι → κ → Prop}

/-- A thread starts, or a thread runs its next instruction where a condition allows it. -/
inductive Step (exec : Exec σ ι κ ε) (starts : List ι → Prop) (P : σ → ι → κ → Prop) :
    State σ ι → Option ε → State σ ι → Prop
  | start {w ts p} (h : starts p) : Step exec starts P ⟨w, ts⟩ none ⟨w, p :: ts⟩
  | run {w w' ts₁ ts₂ i p c k e} (h : exec w i c = some (w', k, e)) (hP : P w i c) :
      Step exec starts P ⟨w, ts₁ ++ (i :: p) :: ts₂⟩ (some e) ⟨w', ts₁ ++ (k ++ p) :: ts₂⟩

theorem State.Quiescent.not_pending {s : State σ ι} (h : s.Quiescent) (i : ι) : ¬ s.Pending i := by
  rintro ⟨p, hp, hi⟩
  rw [h p hp] at hi
  cases hi

variable {w w' : σ} {ts ts₁ ts₂ : List (List ι)} {k p : List ι} {i j : ι}

theorem pending_start :
    State.Pending ⟨w, p :: ts⟩ j ↔ j ∈ p ∨ State.Pending ⟨w, ts⟩ j := by
  simp [State.Pending]

/-- What is pending after an instruction has run. -/
theorem pending_run :
    State.Pending ⟨w, ts₁ ++ (k ++ p) :: ts₂⟩ j ↔
      j ∈ k ∨ j ∈ p ∨ ∃ q ∈ ts₁ ++ ts₂, j ∈ q := by
  simp only [State.Pending, List.mem_append, List.mem_cons]
  constructor
  · rintro ⟨q, hq | rfl | hq, hj⟩
    · exact .inr (.inr ⟨q, .inl hq, hj⟩)
    · rcases List.mem_append.mp hj with hj | hj
      · exact .inl hj
      · exact .inr (.inl hj)
    · exact .inr (.inr ⟨q, .inr hq, hj⟩)
  · rintro (hj | hj | ⟨q, hq | hq, hj⟩)
    · exact ⟨_, .inr (.inl rfl), List.mem_append_left _ hj⟩
    · exact ⟨_, .inr (.inl rfl), List.mem_append_right _ hj⟩
    · exact ⟨q, .inl hq, hj⟩
    · exact ⟨q, .inr (.inr hq), hj⟩

/-- An instruction that was pending is still pending, or it is the one that ran. -/
theorem pending_kept (h : State.Pending ⟨w, ts₁ ++ (i :: p) :: ts₂⟩ j) :
    j = i ∨ State.Pending ⟨w', ts₁ ++ (k ++ p) :: ts₂⟩ j := by
  rw [show i :: p = [i] ++ p from rfl, pending_run, List.mem_singleton] at h
  rw [pending_run]
  rcases h with rfl | hj
  · exact .inl rfl
  · exact .inr (.inr hj)

/-- An instruction that is pending was pending before, or the one that ran brought it. -/
theorem pending_origin (h : State.Pending ⟨w', ts₁ ++ (k ++ p) :: ts₂⟩ j) :
    j ∈ k ∨ State.Pending ⟨w, ts₁ ++ (i :: p) :: ts₂⟩ j := by
  rw [pending_run] at h
  rw [show i :: p = [i] ++ p from rfl, pending_run]
  rcases h with hj | hj
  · exact .inl hj
  · exact .inr (.inr hj)

theorem pending_head :
    State.Pending ⟨w, ts₁ ++ (i :: p) :: ts₂⟩ i := by
  rw [show i :: p = [i] ++ p from rfl, pending_run]
  exact .inl (List.mem_singleton_self i)

/-- How many instructions of a kind are still to run. -/
def State.count (s : State σ ι) (q : ι → Bool) : ℕ := (s.threads.map (List.countP q)).sum

theorem count_start (q : ι → Bool) :
    State.count ⟨w, p :: ts⟩ q = p.countP q + State.count ⟨w, ts⟩ q := by
  simp [State.count]

/-- What an instruction brings is added to the count, and the instruction itself is taken off. -/
theorem count_run (q : ι → Bool) :
    State.count ⟨w', ts₁ ++ (k ++ p) :: ts₂⟩ q + (if q i then 1 else 0) =
      State.count ⟨w, ts₁ ++ (i :: p) :: ts₂⟩ q + k.countP q := by
  simp only [State.count, List.map_append, List.map_cons, List.sum_append, List.sum_cons,
    List.countP_append, List.countP_cons]
  omega

theorem State.Pending.count_pos {s : State σ ι} {i : ι} {q : ι → Bool} (h : s.Pending i)
    (hi : q i = true) : 0 < s.count q := by
  rcases h with ⟨p, hp, hip⟩
  have hpos : 0 < p.countP q := List.countP_pos_iff.mpr ⟨i, hip, hi⟩
  rcases List.append_of_mem hp with ⟨ts₁, ts₂, hts⟩
  rw [State.count, hts, List.map_append, List.map_cons, List.sum_append, List.sum_cons]
  omega

theorem State.Quiescent.count_eq_zero {s : State σ ι} (h : s.Quiescent) (q : ι → Bool) :
    s.count q = 0 := by
  have hnil : s.threads.map (List.countP q) = s.threads.map fun _ => 0 :=
    List.map_congr_left fun p hp => by rw [h p hp, List.countP_nil]
  rw [State.count, hnil]
  generalize s.threads = ts
  induction ts with
  | nil => rfl
  | cons _ _ ih => simpa using ih

/-- An instruction at a place of a thread stands in its first part or in its second. -/
theorem append_eq_split {k p pre post : List ι} {i : ι} (h : k ++ p = pre ++ i :: post) :
    (∃ pre', pre = k ++ pre' ∧ p = pre' ++ i :: post) ∨ ∃ post', k = pre ++ i :: post' := by
  rcases List.append_eq_append_iff.mp h with ⟨pre', hpre, hp⟩ | ⟨c, hk, hc⟩
  · exact .inl ⟨pre', hpre, hp⟩
  · cases c with
    | nil => exact .inl ⟨[], by simpa using hk.symm, hc.symm⟩
    | cons j c =>
      rw [List.cons_append, List.cons.injEq] at hc
      exact .inr ⟨c, hc.1 ▸ hk⟩

section Schedules

/-- One turn of a schedule: a thread starts, or the thread at a position runs. -/
inductive Turn (ι κ : Type*) where
  | start (p : List ι)
  | run (thread : ℕ) (choice : κ)

/-- Take one turn, where the conditions on steps are decided. -/
def turn (exec : Exec σ ι κ ε) (starts : List ι → Bool) (P : σ → ι → κ → Bool) (s : State σ ι) :
    Turn ι κ → Option (Option ε × State σ ι)
  | .start p => if starts p then some (none, ⟨s.world, p :: s.threads⟩) else none
  | .run n c =>
    match s.threads.drop n with
    | (i :: p) :: ts₂ =>
      if P s.world i c then
        (exec s.world i c).map fun (w', k, e) =>
          (some e, ⟨w', s.threads.take n ++ (k ++ p) :: ts₂⟩)
      else none
    | _ => none

theorem turn_step {starts : List ι → Bool} {P : σ → ι → κ → Bool} (s : State σ ι) (t : Turn ι κ)
    (e : Option ε) (s' : State σ ι) (h : turn exec starts P s t = some (e, s')) :
    Step exec (fun p => starts p = true) (fun w i c => P w i c = true) s e s' := by
  cases t with
  | start p =>
    dsimp only [turn] at h
    split at h
    · cases h
      exact .start ‹_›
    · cases h
  | run n c =>
    dsimp only [turn] at h
    split at h
    · rename_i i p ts₂ hdrop
      split at h
      · rename_i hP
        rcases Option.map_eq_some_iff.mp h with ⟨⟨w', k, e'⟩, hexec, heq⟩
        cases heq
        rcases s with ⟨w, ts⟩
        have hthreads : ts = ts.take n ++ (i :: p) :: ts₂ := by
          rw [← hdrop, List.take_append_drop]
        generalize ts.take n = ts₁ at hthreads ⊢
        subst hthreads
        exact .run (P := fun w i c => P w i c = true) hexec hP
      · cases h
    · cases h

end Schedules

end Threads
