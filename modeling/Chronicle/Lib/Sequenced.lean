import Mathlib.Data.List.Nodup
import Mathlib.Data.List.Range
import Mathlib.Order.Lattice

/-! # Sequenced logs

A sequenced log lists pairs of an epoch and a sequence number: it starts at
number zero, and each entry either takes the next number of its epoch or opens
a larger epoch at zero. Such a log has no repetition, its epochs do not
decrease, and the numbers of one epoch are an initial segment.
-/

namespace Sequenced

variable {ε κ : Type*}

section Epochs

variable [LinearOrder ε]

/-- Whether an entry may follow a log with the given last entry. -/
def Follows : Option (ε × ℤ) → ε × ℤ → Prop
  | none, (_, q) => q = 0
  | some (e, q), (e', q') => e' = e ∧ q' = q + 1 ∨ e < e' ∧ q' = 0

/-- Logs in which every entry follows the entries before it. -/
inductive Log : List (ε × ℤ) → Prop
  | nil : Log []
  | snoc {l x} : Log l → Follows l.getLast? x → Log (l ++ [x])

/-- The numbers that a log uses in one epoch. -/
def seqs (e : ε) (l : List (ε × ℤ)) : List ℤ := (l.filter (·.1 = e)).map (·.2)

theorem seqs_snoc_self (e : ε) (q : ℤ) (l : List (ε × ℤ)) :
    seqs e (l ++ [(e, q)]) = seqs e l ++ [q] := by
  simp [seqs]

theorem seqs_snoc_ne {e e' : ε} (h : e' ≠ e) (q : ℤ) (l : List (ε × ℤ)) :
    seqs e (l ++ [(e', q)]) = seqs e l := by
  simp [seqs, h]

def firstSeqs (n : ℕ) : List ℤ := (List.range n).map Int.ofNat

theorem firstSeqs_succ (n : ℕ) : firstSeqs (n + 1) = firstSeqs n ++ [(n : ℤ)] := by
  simp [firstSeqs, List.range_succ]

theorem firstSeqs_nodup (n : ℕ) : (firstSeqs n).Nodup :=
  List.nodup_range.map fun _ _ h => Int.ofNat.inj h

namespace Log

variable {l : List (ε × ℤ)}

/-- What is known about a non-empty log with a given last entry. -/
structure Ends (l : List (ε × ℤ)) (x : ε × ℤ) : Prop where
  epoch_le : ∀ y ∈ l, y.1 ≤ x.1
  seqs_eq : ∃ n : ℕ, x.2 = n ∧ seqs x.1 l = firstSeqs (n + 1)

theorem seqs_of_lt {x : ε × ℤ} (h : Ends l x) {e : ε} (he : x.1 < e) : seqs e l = [] := by
  rw [seqs, List.map_eq_nil_iff, List.filter_eq_nil_iff]
  intro y hy
  simpa using ((h.epoch_le y hy).trans_lt he).ne

theorem ends_snoc (h : ∀ x, l.getLast? = some x → Ends l x) {x : ε × ℤ}
    (hx : Follows l.getLast? x) : Ends (l ++ [x]) x := by
  obtain ⟨e, q⟩ := x
  cases hl : l.getLast? with
  | none =>
    rw [List.getLast?_eq_none_iff] at hl
    subst hl
    have hq : q = 0 := hx
    subst hq
    exact ⟨by simp, 0, rfl, by simp [seqs, firstSeqs]⟩
  | some y =>
    obtain ⟨e₀, q₀⟩ := y
    have hends := h _ hl
    rw [hl] at hx
    obtain ⟨n, hn, hseqs⟩ := hends.seqs_eq
    obtain ⟨rfl, rfl⟩ | ⟨hlt, rfl⟩ := hx
    · refine ⟨?_, n + 1, by simpa using hn, ?_⟩
      · simpa [or_imp, forall_and] using fun a b hab => hends.epoch_le (a, b) hab
      · rw [seqs_snoc_self, hseqs, firstSeqs_succ (n + 1)]
        simp_all
    · refine ⟨?_, 0, rfl, ?_⟩
      · simpa [or_imp, forall_and] using fun a b hab => (hends.epoch_le (a, b) hab).trans hlt.le
      · rw [seqs_snoc_self, seqs_of_lt hends hlt]
        rfl

theorem ends (h : Log l) {x : ε × ℤ} (hx : l.getLast? = some x) : Ends l x := by
  induction h generalizing x with
  | nil => simp at hx
  | snoc _ hf ih =>
    rw [List.getLast?_concat] at hx
    cases hx
    exact ends_snoc (fun _ => ih) hf

/-- The numbers of each epoch are `0, 1, 2, …` in this order. -/
theorem exists_seqs (h : Log l) (e : ε) : ∃ n, seqs e l = firstSeqs n := by
  induction h with
  | nil => exact ⟨0, rfl⟩
  | @snoc l x hl hf ih =>
    by_cases he : x.1 = e
    · subst he
      obtain ⟨n, -, hn⟩ := ((hl.snoc hf).ends List.getLast?_concat).seqs_eq
      exact ⟨n + 1, hn⟩
    · obtain ⟨n, hn⟩ := ih
      exact ⟨n, by rw [seqs_snoc_ne he, hn]⟩

/-- Epochs do not decrease along the log. -/
theorem pairwise_epoch (h : Log l) : l.Pairwise (·.1 ≤ ·.1) := by
  induction h with
  | nil => exact .nil
  | @snoc l x hl hf ih =>
    rw [List.pairwise_append]
    refine ⟨ih, List.pairwise_singleton _ _, fun y hy z hz => ?_⟩
    rw [List.mem_singleton] at hz
    subst hz
    exact ((hl.snoc hf).ends List.getLast?_concat).epoch_le y (by simp [hy])

theorem nodup (h : Log l) : l.Nodup := by
  rw [List.nodup_iff_count_le_one]
  intro x
  obtain ⟨n, hn⟩ := h.exists_seqs x.1
  have hcount : l.count x ≤ (seqs x.1 l).count x.2 := by
    calc l.count x = (l.filter (·.1 = x.1)).count x := by simp [List.count_filter]
      _ ≤ ((l.filter (·.1 = x.1)).map (·.2)).count x.2 := List.count_le_count_map
  exact hcount.trans (List.nodup_iff_count_le_one.mp (hn ▸ firstSeqs_nodup n) _)

end Log

end Epochs

section Keyed

variable [DecidableEq κ]

def forKey (k : κ) (l : List (κ × ε × ℤ)) : List (ε × ℤ) := (l.filter (·.1 = k)).map (·.2)

theorem forKey_snoc_self (k : κ) (x : ε × ℤ) (l : List (κ × ε × ℤ)) :
    forKey k (l ++ [(k, x)]) = forKey k l ++ [x] := by
  simp [forKey]

theorem forKey_snoc_ne {k k' : κ} (h : k' ≠ k) (x : ε × ℤ) (l : List (κ × ε × ℤ)) :
    forKey k (l ++ [(k', x)]) = forKey k l := by
  simp [forKey, h]

/-- A keyed log without repetition in any key has no repetition. -/
theorem nodup_of_forKey [DecidableEq ε] {l : List (κ × ε × ℤ)} (h : ∀ k, (forKey k l).Nodup) :
    l.Nodup := by
  rw [List.nodup_iff_count_le_one]
  intro x
  calc l.count x = (l.filter (·.1 = x.1)).count x := by simp [List.count_filter]
    _ ≤ (forKey x.1 l).count x.2 := List.count_le_count_map
    _ ≤ 1 := List.nodup_iff_count_le_one.mp (h x.1) _

end Keyed

end Sequenced
