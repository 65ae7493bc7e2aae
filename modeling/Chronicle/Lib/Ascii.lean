import Mathlib.Data.List.Basic

/-! # Byte strings

Strings of the modelled languages are byte strings. Literals are written as
ASCII text and compared bytewise.
-/

abbrev Bytes := List UInt8

instance : LawfulBEq Bytes := inferInstance

namespace Bytes

def ascii (s : String) : Bytes := s.toList.map fun c => c.toNat.toUInt8

def lowerByte (c : UInt8) : UInt8 := if 65 ≤ c ∧ c ≤ 90 then c + 32 else c

def toLower (s : Bytes) : Bytes := s.map lowerByte

/-- Bytewise lexicographic order, a proper prefix being smaller. -/
def lexLt : Bytes → Bytes → Bool
  | _, [] => false
  | [], _ :: _ => true
  | a :: s, b :: t => a < b || (a == b && lexLt s t)

def lexLe (s t : Bytes) : Bool := !lexLt t s

variable {s t p : Bytes}

@[simp] theorem lexLt_nil (s : Bytes) : lexLt s [] = false := by cases s <;> rfl

@[simp] theorem lexLt_cons (a b : UInt8) (s t : Bytes) :
    lexLt (a :: s) (b :: t) = (a < b || (a == b && lexLt s t)) := rfl

/-- The comparison decides the lexicographic order of lists. -/
theorem lexLt_iff_lt : lexLt s t ↔ s < t := by
  induction s generalizing t with
  | nil => cases t <;> simp [lexLt]
  | cons a s ih =>
    cases t with
    | nil => simp
    | cons b t => simp [List.cons_lt_cons_iff, ih]

theorem lexLt_asymm (h : lexLt s t) : lexLt t s = false := by
  rw [← Bool.not_eq_true, lexLt_iff_lt]
  exact List.lt_asymm (lexLt_iff_lt.mp h)

theorem lexLt_append_left (p s t : Bytes) : lexLt (p ++ s) (p ++ t) = lexLt s t := by
  induction p with
  | nil => rfl
  | cons a p ih => simp [ih]

/-- A difference within the length of the greater part decides, whatever follows. -/
theorem lexLt_append_of_le (hlen : t.length ≤ s.length) (h : lexLt s t) (a b : Bytes) :
    lexLt (s ++ a) (t ++ b) := by
  induction s generalizing t with
  | nil =>
    rcases t with _ | ⟨b, t⟩
    · simp at h
    · simp at hlen
  | cons c s ih =>
    rcases t with _ | ⟨d, t⟩
    · simp at h
    · simp only [List.cons_append, lexLt_cons, Bool.or_eq_true, Bool.and_eq_true,
        decide_eq_true_eq, beq_iff_eq] at h ⊢
      exact h.imp id fun h => ⟨h.1, ih (by simpa using hlen) h.2⟩

/-- A difference in parts of equal length decides, whatever follows. -/
theorem lexLt_append_of_lt (hlen : s.length = t.length) (h : lexLt s t) (a b : Bytes) :
    lexLt (s ++ a) (t ++ b) :=
  lexLt_append_of_le (Nat.le_of_eq hlen.symm) h a b

/-- What stands between two separators is of the string and contains no separator. -/
theorem mem_splitOn {a : UInt8} {l : Bytes} (h : l ∈ s.splitOn a) : ∀ c ∈ l, c ≠ a ∧ c ∈ s := by
  induction s generalizing l with
  | nil =>
    obtain rfl : l = [] := by simpa using h
    simp
  | cons b s ih =>
    rw [List.splitOn_cons_eq_if_modifyHead] at h
    have htail : ∀ l ∈ s.splitOn a, ∀ c ∈ l, c ≠ a ∧ c ∈ b :: s := fun l hl c hc =>
      (ih hl c hc).imp_right (List.mem_cons_of_mem b)
    split at h
    · obtain rfl | h := List.mem_cons.mp h
      · simp
      · exact htail l h
    · rename_i hb
      obtain ⟨m, ms, hms⟩ := List.exists_cons_of_ne_nil (List.splitOn_ne_nil a s)
      rw [hms, List.modifyHead_cons, List.mem_cons] at h
      obtain rfl | h := h
      · rw [List.forall_mem_cons]
        rw [beq_iff_eq] at hb
        exact ⟨⟨hb, List.mem_cons_self⟩, htail m (by simp [hms])⟩
      · exact htail l (by simp [hms, h])

end Bytes
