import Mathlib.Data.List.Basic

/-! # The winner of a list

A scan keeps the best member seen so far. Under a strict total order this is the
member that beats every other one, so the order and the repetitions of the list do
not matter. A new member can only win itself, and one that goes can only leave its
own place.
-/

namespace Winner

variable {α : Type*} (beats : α → α → Prop) [DecidableRel beats]

def better (best : Option α) (m : α) : Option α :=
  match best with
  | none => some m
  | some b => if beats m b then some m else some b

def winner (l : List α) : Option α := l.foldl (better beats) none

variable {beats} [IsStrictTotalOrder α beats] {l l' : List α} {m w : α}

def Wins (beats : α → α → Prop) (l : List α) (w : α) : Prop :=
  w ∈ l ∧ ∀ a ∈ l, a ≠ w → beats w a

omit [DecidableRel beats] in
theorem Wins.unique {w' : α} (h : Wins beats l w) (h' : Wins beats l w') : w = w' := by
  by_contra hne
  have hbeat := h.2 w' h'.1 (Ne.symm hne)
  have hbeat' := h'.2 w h.1 hne
  exact irrefl_of beats w (trans_of beats hbeat hbeat')

theorem Wins.better (h : Wins beats l w) (m : α) :
    ∃ w', better beats (some w) m = some w' ∧ Wins beats (l ++ [m]) w' := by
  rw [Winner.better]
  split
  · rename_i hbeat
    refine ⟨m, rfl, by simp, ?_⟩
    intro a ha hne
    obtain ha | ha := List.mem_append.mp ha
    · by_cases haw : a = w
      · rwa [haw]
      · exact trans_of beats hbeat (h.2 a ha haw)
    · exact absurd (List.mem_singleton.mp ha) hne
  · rename_i hbeat
    refine ⟨w, rfl, List.mem_append_left _ h.1, ?_⟩
    intro a ha hne
    obtain ha | ha := List.mem_append.mp ha
    · exact h.2 a ha hne
    · rw [List.mem_singleton] at ha
      subst a
      obtain hlt | heq | hlt := trichotomous_of beats m w
      · exact absurd hlt hbeat
      · exact absurd heq hne
      · exact hlt

theorem foldl_wins (l' : List α) (h : Wins beats l w) :
    ∃ w', l'.foldl (better beats) (some w) = some w' ∧ Wins beats (l ++ l') w' := by
  induction l' generalizing l w with
  | nil => exact ⟨w, rfl, by simpa using h⟩
  | cons m l' ih =>
    obtain ⟨w₁, hbetter, h₁⟩ := h.better m
    obtain ⟨w₂, hfold, h₂⟩ := ih h₁
    refine ⟨w₂, ?_, by simpa using h₂⟩
    rw [List.foldl_cons, hbetter, hfold]

variable (beats) in
theorem winner_wins (hl : l ≠ []) : ∃ w, winner beats l = some w ∧ Wins beats l w := by
  cases l with
  | nil => exact absurd rfl hl
  | cons m l =>
    have hfirst : Wins beats [m] m := by
      constructor
      · exact List.mem_singleton_self m
      · intro a ha hne
        exact absurd (List.mem_singleton.mp ha) hne
    exact foldl_wins l hfirst

/-- The winner is the one member that beats every other. -/
theorem winner_eq_some_iff : winner beats l = some w ↔ Wins beats l w := by
  constructor
  · intro h
    have hl : l ≠ [] := by
      rintro rfl
      cases h
    obtain ⟨w', hw', hwins⟩ := winner_wins beats hl
    rw [h, Option.some.injEq] at hw'
    rwa [hw']
  · intro h
    obtain ⟨w', hw', hwins⟩ := winner_wins beats (List.ne_nil_of_mem h.1)
    rw [hw', hwins.unique h]

theorem winner_eq_none_iff : winner beats l = none ↔ l = [] := by
  constructor
  · intro h
    by_contra hl
    obtain ⟨w, hw, -⟩ := winner_wins beats hl
    rw [h] at hw
    cases hw
  · rintro rfl
    rfl

/-- Only the set of the members counts. -/
theorem winner_congr (h : ∀ a, a ∈ l ↔ a ∈ l') : winner beats l = winner beats l' := by
  ext w
  simp only [winner_eq_some_iff, Wins, h]

/-- A new member wins or changes nothing. -/
theorem winner_insert (h : ∀ a, a ∈ l' ↔ a = m ∨ a ∈ l) :
    winner beats l' = winner beats l ∨ winner beats l' = some m := by
  obtain ⟨w, hw, hmem, hbeats⟩ :=
    winner_wins beats (List.ne_nil_of_mem ((h m).mpr (.inl rfl)))
  obtain rfl | hl := (h w).mp hmem
  · exact .inr hw
  · left
    rw [hw, eq_comm, winner_eq_some_iff]
    exact ⟨hl, fun a ha hne => hbeats a ((h a).mpr (.inr ha)) hne⟩

/-- A member that goes and was not the winner changes nothing. -/
theorem winner_erase (h : ∀ a, a ∈ l' ↔ a ∈ l ∧ a ≠ m) (hne : winner beats l ≠ some m) :
    winner beats l' = winner beats l := by
  cases hw : winner beats l with
  | none =>
    rw [winner_eq_none_iff] at hw ⊢
    subst l
    exact List.eq_nil_iff_forall_not_mem.mpr fun a ha => by simpa using (h a).mp ha
  | some w =>
    rw [winner_eq_some_iff] at hw ⊢
    have hwm : w ≠ m := by
      rintro rfl
      exact hne (winner_eq_some_iff.mpr hw)
    exact ⟨(h w).mpr ⟨hw.1, hwm⟩, fun a ha => hw.2 a ((h a).mp ha).1⟩

end Winner
