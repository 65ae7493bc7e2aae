import Mathlib.Algebra.BigOperators.Group.List.Basic
import Mathlib.Algebra.GroupWithZero.Nat
import Mathlib.Order.Lattice

/-! # Greedy pages

A scan offers the elements of a list to a visitor until the visitor stops it. A
greedy page is the prefix that fits two budgets, a number of elements and a
total size, and always takes a first element. On a list with increasing keys,
what remains after a page are the elements with larger keys than its last one.
-/

namespace Greedy

variable {α β κ : Type*}

section Scan

variable (visit : α → β → α × Bool)

/-- Offer elements to a visitor until it stops the scan. -/
def scan : List β → α → α × Bool
  | [], a => (a, true)
  | b :: l, a =>
    match visit a b with
    | (a, true) => scan l a
    | (a, false) => (a, false)

@[simp] theorem scan_nil (a : α) : scan visit [] a = (a, true) := rfl

theorem scan_append (l l' : List β) (a : α) :
    scan visit (l ++ l') a =
      match scan visit l a with
      | (a, true) => scan visit l' a
      | (a, false) => (a, false) := by
  induction l generalizing a with
  | nil => rfl
  | cons b l ih =>
    rw [List.cons_append, scan, scan]
    cases h : visit a b with
    | mk a' go => cases go <;> simp [ih]

end Scan

section Page

variable (size : β → ℕ) (target frames : ℕ)

/-- The elements a page takes after it holds `count` elements of total size `used`. -/
def page : ℕ → ℕ → List β → List β
  | _, _, [] => []
  | used, count, b :: l =>
    if frames ≤ count ∨ (count ≠ 0 ∧ target < used + size b) then []
    else if used + size b < target then b :: page (used + size b) (count + 1) l
    else [b]

theorem page_prefix (used count : ℕ) (l : List β) : page size target frames used count l <+: l := by
  induction l generalizing used count with
  | nil => exact List.prefix_rfl
  | cons b l ih =>
    rw [page]
    split
    · exact List.nil_prefix
    · split
      · exact List.cons_prefix_cons.mpr ⟨rfl, ih _ _⟩
      · exact List.cons_prefix_cons.mpr ⟨rfl, List.nil_prefix⟩

variable {l : List β}

/-- A page that holds nothing yet takes the first element. -/
theorem page_ne_nil (hl : l ≠ []) (hframes : 0 < frames) (used : ℕ) :
    page size target frames used 0 l ≠ [] := by
  cases l with
  | nil => exact absurd rfl hl
  | cons b l =>
    rw [page, if_neg (by omega)]
    split <;> simp

theorem page_length (used count : ℕ) (l : List β) :
    (page size target frames used count l).length ≤ frames - count := by
  induction l generalizing used count with
  | nil => simp [page]
  | cons b l ih =>
    rw [page]
    split
    · simp
    · split
      · have := ih (used + size b) (count + 1)
        rw [List.length_cons]
        omega
      · simp only [List.length_singleton]
        omega

theorem page_size_of_ne_zero {used count : ℕ} (hcount : count ≠ 0) (hused : used ≤ target)
    (l : List β) : used + ((page size target frames used count l).map size).sum ≤ target := by
  induction l generalizing used count with
  | nil => simpa [page] using hused
  | cons b l ih =>
    rw [page]
    split
    · simpa using hused
    · split
      · rw [List.map_cons, List.sum_cons, ← add_assoc]
        exact ih (Nat.succ_ne_zero count) (by omega)
      · simp only [List.map_singleton, List.sum_singleton]
        omega

/-- A page of more than one element stays within the size budget. -/
theorem page_size (h : 1 < (page size target frames 0 0 l).length) :
    ((page size target frames 0 0 l).map size).sum ≤ target := by
  cases l with
  | nil => simp [page]
  | cons b l =>
    rw [page] at h ⊢
    split
    · simp
    · rw [if_neg ‹_›] at h
      split
      · rw [List.map_cons, List.sum_cons]
        have hused : 0 + size b ≤ target := by omega
        have := page_size_of_ne_zero size target frames (show 0 + 1 ≠ 0 by omega) hused l
        omega
      · rw [if_neg ‹_›] at h
        simp at h

/-- The elements taken one after the other, at most so many, while their total fits. -/
def fitting : ℕ → ℕ → List β → List β
  | 0, _, _ => []
  | _ + 1, _, [] => []
  | n + 1, used, b :: l =>
    if used + size b ≤ target then b :: fitting n (used + size b) l else []

/-- The page element by element: the first one if it fits or need not, and then what fits. -/
def stepwise (oversized : Bool) : List β → List β
  | [] => []
  | b :: l => if size b ≤ target ∨ oversized then b :: fitting size target (frames - 1) (size b) l
    else []

theorem fitting_eq_nil {n used : ℕ} (h : target ≤ used) (hpos : ∀ b ∈ l, 0 < size b) :
    fitting size target n used l = [] := by
  cases n with
  | zero => rfl
  | succ n =>
    cases l with
    | nil => rfl
    | cons b l =>
      have := hpos b List.mem_cons_self
      rw [fitting, if_neg (by omega)]

theorem page_eq_fitting {used count : ℕ} (hcount : count ≠ 0) (hpos : ∀ b ∈ l, 0 < size b) :
    page size target frames used count l = fitting size target (frames - count) used l := by
  induction l generalizing used count with
  | nil => cases frames - count <;> rfl
  | cons b l ih =>
    have hrest : ∀ b ∈ l, 0 < size b := fun x hx => hpos x (List.mem_cons_of_mem b hx)
    rw [page]
    by_cases hfull : frames ≤ count
    · rw [if_pos (.inl hfull), Nat.sub_eq_zero_of_le hfull, fitting]
    · rw [show frames - count = frames - (count + 1) + 1 by omega, fitting]
      by_cases hfit : used + size b ≤ target
      · rw [if_neg (by omega), if_pos hfit]
        by_cases hmore : used + size b < target
        · rw [if_pos hmore, ih (Nat.succ_ne_zero count) hrest]
        · rw [if_neg hmore, fitting_eq_nil size target (not_lt.1 hmore) hrest]
      · rw [if_pos (.inr ⟨hcount, not_le.1 hfit⟩), if_neg hfit]

/-- The page is the one taken element by element, whether or not its first element may be
oversized. -/
theorem page_eq_stepwise {b : β} (hframes : 0 < frames) (hpos : ∀ b ∈ l, 0 < size b)
    (oversized : Bool) :
    page size target (if oversized then frames else frames + 1) 0 (if oversized then 0 else 1)
        (b :: l) = stepwise size target frames oversized (b :: l) := by
  have hpage : ∀ {frames' count}, frames' - (count + 1) = frames - 1 →
      (if 0 + size b < target then b :: page size target frames' (0 + size b) (count + 1) l
        else [b]) = b :: fitting size target (frames - 1) (size b) l := by
    intro frames' count hlimit
    rw [zero_add]
    split
    · rw [page_eq_fitting size target frames' (Nat.succ_ne_zero count) hpos, hlimit]
    · rename_i hmore
      rw [fitting_eq_nil size target (not_lt.1 hmore) hpos]
  unfold stepwise
  cases oversized with
  | true =>
    simp only [if_true, or_true]
    rw [page, if_neg (by omega)]
    exact hpage (by omega)
  | false =>
    simp only [Bool.false_eq_true, if_false, or_false]
    rw [page]
    by_cases hfit : size b ≤ target
    · rw [if_pos hfit, if_neg (by omega)]
      exact hpage (by omega)
    · rw [if_neg hfit, if_pos (.inr ⟨Nat.one_ne_zero, by omega⟩)]

end Page

section Keys

variable [LinearOrder κ] (key : β → κ)

variable {l l' : List β} {x : β}

theorem keys_split (hsorted : (l ++ l').Pairwise (key · < key ·)) (hx : l.getLast? = some x) :
    (∀ b ∈ l, key b ≤ key x) ∧ ∀ b ∈ l', key x < key b := by
  obtain ⟨l₀, rfl⟩ : ∃ l₀, l = l₀ ++ [x] :=
    ⟨l.dropLast, (List.dropLast_append_getLast? x hx).symm⟩
  constructor
  · intro b hb
    rw [List.append_assoc, List.pairwise_append] at hsorted
    rw [List.mem_append, List.mem_singleton] at hb
    obtain hb | rfl := hb
    · exact (hsorted.2.2 b hb x (by simp)).le
    · exact le_rfl
  · intro b hb
    exact (List.pairwise_append.mp hsorted).2.2 x (by simp) b hb

/-- Behind a prefix of a list with increasing keys are the elements with larger keys. -/
theorem filter_behind (hsorted : (l ++ l').Pairwise (key · < key ·)) (hx : l.getLast? = some x) :
    (l ++ l').filter (fun b => key x < key b) = l' := by
  obtain ⟨hfront, hback⟩ := keys_split key hsorted hx
  have hnil : l.filter (fun b => key x < key b) = [] := by
    rw [List.filter_eq_nil_iff]
    intro b hb
    simpa using hfront b hb
  have hall : l'.filter (fun b => key x < key b) = l' := by
    rw [List.filter_eq_self]
    intro b hb
    simpa using hback b hb
  rw [List.filter_append, hnil, hall, List.nil_append]

/-- The prefix has the elements whose keys are not larger. -/
theorem filter_upTo (hsorted : (l ++ l').Pairwise (key · < key ·)) (hx : l.getLast? = some x) :
    (l ++ l').filter (fun b => key b ≤ key x) = l := by
  obtain ⟨hfront, hback⟩ := keys_split key hsorted hx
  have hall : l.filter (fun b => key b ≤ key x) = l := by
    rw [List.filter_eq_self]
    intro b hb
    simpa using hfront b hb
  have hnil : l'.filter (fun b => key b ≤ key x) = [] := by
    rw [List.filter_eq_nil_iff]
    intro b hb
    simpa using hback b hb
  rw [List.filter_append, hnil, hall, List.append_nil]

end Keys

end Greedy
