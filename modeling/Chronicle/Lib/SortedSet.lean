import Mathlib.Data.List.Basic

/-! # Sorted sets

A set over a linear order is kept as its strictly increasing list of members.
Insertion keeps the order, and adds exactly one member when it is new. Strictly
increasing lists with the same members are equal.
-/

namespace SortedSet

open scoped List

variable {α : Type*} [LT α]

/-- The members in strictly increasing order. -/
def Sorted (l : List α) : Prop := l.Pairwise (· < ·)

/-- The order determines the list of the members. -/
theorem Sorted.eq_of_perm [Std.Asymm fun a b : α => a < b] {l l' : List α} (h : Sorted l)
    (h' : Sorted l') (hperm : l ~ l') : l = l' :=
  hperm.eq_of_pairwise (fun _ _ _ _ hab hba => absurd hba (Std.Asymm.asymm _ _ hab)) h h'

variable [DecidableLT α] [DecidableEq α]

/-- Add a member; one that is there already changes nothing. -/
def insert (a : α) : List α → List α
  | [] => [a]
  | x :: xs => if a < x then a :: x :: xs else if x = a then x :: xs else x :: insert a xs

/-- Add members one after the other. -/
def insertAll (as : List α) (l : List α) : List α := as.foldl (fun l a => insert a l) l

variable {a b : α} {l as : List α}

@[simp] theorem insertAll_nil (l : List α) : insertAll [] l = l := rfl

@[simp] theorem insertAll_cons (a : α) (as l : List α) :
    insertAll (a :: as) l = insertAll as (insert a l) := rfl

@[simp] theorem mem_insert : b ∈ insert a l ↔ b = a ∨ b ∈ l := by
  induction l with
  | nil => simp [insert]
  | cons x xs ih =>
    rw [insert]
    split_ifs with hlt heq
    · simp
    · subst heq
      simp
    · rw [List.mem_cons, ih, List.mem_cons]
      exact or_left_comm

theorem filter_insert {p : α → Bool} (h : p a = false) : (insert a l).filter p = l.filter p := by
  induction l with
  | nil => simp [insert, h]
  | cons x xs ih =>
    rw [insert]
    split_ifs with hlt heq
    · rw [List.filter_cons_of_neg (by simp [h])]
    · rfl
    · rw [List.filter_cons, List.filter_cons, ih]

theorem filter_insertAll {p : α → Bool} (h : ∀ a ∈ as, p a = false) :
    (insertAll as l).filter p = l.filter p := by
  induction as generalizing l with
  | nil => rfl
  | cons a as ih =>
    rw [insertAll_cons, ih fun b hb => h b (List.mem_cons_of_mem _ hb),
      filter_insert (h a List.mem_cons_self)]

theorem insert_perm (h : a ∉ l) : insert a l ~ a :: l := by
  induction l with
  | nil => exact .refl _
  | cons x xs ih =>
    rw [List.mem_cons, not_or] at h
    rw [insert]
    split_ifs with hlt heq
    · exact .refl _
    · exact absurd heq.symm h.1
    · exact ((ih h.2).cons x).trans (.swap a x xs)

theorem insertAll_perm (hnodup : as.Nodup) (h : ∀ a ∈ as, a ∉ l) :
    insertAll as l ~ l ++ as := by
  induction as generalizing l with
  | nil => simp
  | cons a as ih =>
    rw [List.nodup_cons] at hnodup
    have hnew : ∀ b ∈ as, b ∉ insert a l := by
      intro b hb
      rw [mem_insert, not_or]
      refine ⟨?_, h b (List.mem_cons_of_mem _ hb)⟩
      rintro rfl
      exact hnodup.1 hb
    calc insertAll (a :: as) l
      _ = insertAll as (insert a l) := rfl
      _ ~ insert a l ++ as := ih hnodup.2 hnew
      _ ~ (a :: l) ++ as := (insert_perm (h a List.mem_cons_self)).append_right as
      _ ~ l ++ a :: as := List.perm_middle.symm

section Order

variable [Trans (fun a b : α => a < b) (fun a b : α => a < b) fun a b : α => a < b]
  [Std.Trichotomous fun a b : α => a < b]

theorem Sorted.insert (h : Sorted l) (a : α) : Sorted (SortedSet.insert a l) := by
  induction l with
  | nil => exact List.pairwise_singleton _ a
  | cons x xs ih =>
    rcases List.pairwise_cons.mp h with ⟨hx, hxs⟩
    rw [SortedSet.insert]
    split_ifs with hlt heq
    · refine List.pairwise_cons.mpr ⟨?_, h⟩
      intro b hb
      rcases List.mem_cons.mp hb with rfl | hb
      · exact hlt
      · exact Trans.trans hlt (hx b hb)
    · exact h
    · refine List.pairwise_cons.mpr ⟨?_, ih hxs⟩
      intro b hb
      rcases mem_insert.mp hb with rfl | hb
      · by_contra hba
        exact heq (Std.Trichotomous.trichotomous _ _ hba hlt)
      · exact hx b hb

theorem Sorted.insertAll (h : Sorted l) (as : List α) : Sorted (SortedSet.insertAll as l) := by
  induction as generalizing l with
  | nil => exact h
  | cons a as ih => exact ih (h.insert a)

end Order

end SortedSet
