import Chronicle.Lib.Ascii

/-! # Lines of a text

A line ends at a carriage return, at a line feed, or at the two together. The
lines of a text are what stands between the line ends, so a text that ends with
a line end has an empty last line.
-/

namespace Lines

/-- The text with every line end replaced by a line feed. -/
def unify : Bytes → Bytes
  | [] => []
  | 13 :: 10 :: s => 10 :: unify s
  | c :: s => (if c = 13 then 10 else c) :: unify s

def lines (s : Bytes) : List Bytes := (unify s).splitOn 10

/-- A line feed right after a carriage return belongs to the same line end. -/
def skipFeed : Bytes → Bytes
  | 10 :: s => s
  | s => s

variable {s l : Bytes} {c : UInt8}

theorem unify_cr (s : Bytes) : unify (13 :: s) = 10 :: unify (skipFeed s) := by
  cases s with
  | nil => rfl
  | cons c s =>
    by_cases hc : c = 10
    · subst hc
      rfl
    · rw [unify, if_pos rfl, skipFeed]
      · intro t h
        exact hc (List.cons.inj h).1
      · intro t _ h
        exact hc (List.cons.inj h).1

theorem unify_cons (hc : c ≠ 13) (s : Bytes) : unify (c :: s) = c :: unify s := by
  rw [unify, if_neg hc]
  intro t h
  exact absurd h hc

theorem unify_eq_self (h : 13 ∉ s) : unify s = s := by
  induction s with
  | nil => rfl
  | cons c s ih =>
    rw [List.mem_cons, not_or] at h
    rw [unify_cons (Ne.symm h.1), ih h.2]

theorem cr_notMem_unify (s : Bytes) : 13 ∉ unify s := by
  induction s using unify.induct with
  | case1 => simp [unify]
  | case2 s ih => simpa [unify] using ih
  | case3 c s hcr ih =>
    rw [unify]
    · by_cases hc : c = 13
      · simp [hc, ih]
      · simp [hc, ih, Ne.symm hc]
    · exact hcr

/-- The lines put together again are the text with line feeds. -/
theorem intercalate_lines (s : Bytes) : List.intercalate [10] (lines s) = unify s :=
  List.intercalate_splitOn 10

theorem lines_ne_nil (s : Bytes) : lines s ≠ [] := List.splitOn_ne_nil _ _

/-- A line contains no line end. -/
theorem notMem_line (hl : l ∈ lines s) : 13 ∉ l ∧ 10 ∉ l := by
  constructor
  · intro hmem
    exact cr_notMem_unify s (Bytes.mem_splitOn hl 13 hmem).2
  · intro hmem
    exact (Bytes.mem_splitOn hl 10 hmem).1 rfl

theorem lines_cr (s : Bytes) : lines (13 :: s) = [] :: lines (skipFeed s) := by
  rw [lines, unify_cr, List.splitOn_cons_eq_if_modifyHead, if_pos (by rfl)]
  rfl

theorem lines_lf (s : Bytes) : lines (10 :: s) = [] :: lines s := by
  rw [lines, unify_cons (by decide), List.splitOn_cons_eq_if_modifyHead, if_pos (by rfl)]
  rfl

theorem lines_cons (hcr : c ≠ 13) (hlf : c ≠ 10) (s : Bytes) :
    lines (c :: s) = (lines s).modifyHead (c :: ·) := by
  rw [lines, unify_cons hcr, List.splitOn_cons_eq_if_modifyHead, if_neg (by simpa using hlf)]
  rfl

/-- The lines of a text in which every line ends with a line feed. -/
theorem lines_flatMap {ls : List Bytes} (hcr : ∀ l ∈ ls, 13 ∉ l) (hlf : ∀ l ∈ ls, 10 ∉ l) :
    lines (ls.flatMap (· ++ [10])) = ls ++ [[]] := by
  have hself : unify (ls.flatMap (· ++ [10])) = ls.flatMap (· ++ [10]) := by
    apply unify_eq_self
    rw [List.mem_flatMap]
    rintro ⟨l, hl, hmem⟩
    simp [hcr l hl] at hmem
  rw [lines, hself]
  clear hself hcr
  induction ls with
  | nil => rfl
  | cons l ls ih =>
    rw [List.forall_mem_cons] at hlf
    rw [List.flatMap_cons, List.append_assoc, List.singleton_append,
      List.splitOn_append_cons_self_of_not_mem hlf.1, ih hlf.2, List.cons_append]

end Lines
