import Chronicle.Lib.Ascii

/-! # UTF-8

A rune is one to four bytes. Bytes that start no rune are invalid, each on its
own, and coercing a text to UTF-8 puts the replacement rune in their place.
-/

namespace Utf8

def isCont (c : UInt8) : Bool := 128 ≤ c && c ≤ 191

def low (a : UInt8) : UInt8 := if a = 224 then 160 else if a = 240 then 144 else 128

def high (a : UInt8) : UInt8 := if a = 237 then 159 else if a = 244 then 143 else 191

/-- How many bytes follow the first byte of the rune with which a text starts. -/
def runeTail : Bytes → Option ℕ
  | [] => none
  | a :: s =>
    if a < 128 then some 0
    else if 194 ≤ a ∧ a ≤ 223 then
      match s with
      | b :: _ => if isCont b then some 1 else none
      | _ => none
    else if 224 ≤ a ∧ a ≤ 239 then
      match s with
      | b :: c :: _ => if low a ≤ b ∧ b ≤ high a ∧ isCont c then some 2 else none
      | _ => none
    else if 240 ≤ a ∧ a ≤ 244 then
      match s with
      | b :: c :: d :: _ =>
        if low a ≤ b ∧ b ≤ high a ∧ isCont c ∧ isCont d then some 3 else none
      | _ => none
    else none

def replacement : Bytes := [239, 191, 189]

/-- Coerce a text of which the first `n` bytes belong to a rune that has begun. -/
def coerceFrom : ℕ → Bytes → Bytes
  | _, [] => []
  | n + 1, a :: s => a :: coerceFrom n s
  | 0, a :: s =>
    match runeTail (a :: s) with
    | some n => a :: coerceFrom n s
    | none => replacement ++ coerceFrom 0 s

/-- Put the replacement rune in the place of every invalid byte. -/
def coerce (s : Bytes) : Bytes := coerceFrom 0 s

def validFrom : ℕ → Bytes → Bool
  | _, [] => true
  | n + 1, _ :: s => validFrom n s
  | 0, a :: s =>
    match runeTail (a :: s) with
    | some n => validFrom n s
    | none => false

def valid (s : Bytes) : Bool := validFrom 0 s

theorem length_le_coerceFrom (n : ℕ) (s : Bytes) : s.length ≤ (coerceFrom n s).length := by
  induction s generalizing n with
  | nil => simp [coerceFrom]
  | cons a s ih =>
    cases n with
    | succ n => simpa [coerceFrom] using ih n
    | zero =>
      unfold coerceFrom
      split
      · simpa using ih _
      · have hle := ih 0
        simp only [replacement, List.length_append, List.length_cons, List.length_nil]
        omega

theorem coerceFrom_eq_iff (n : ℕ) (s : Bytes) :
    coerceFrom n s = s ↔ validFrom n s = true := by
  induction s generalizing n with
  | nil => simp [coerceFrom, validFrom]
  | cons a s ih =>
    cases n with
    | succ n => simpa [coerceFrom, validFrom] using ih n
    | zero =>
      unfold coerceFrom validFrom
      split
      · simpa using ih _
      · -- the replacement rune makes the text longer
        refine iff_of_false ?_ (by simp)
        intro h
        have hlen := congrArg List.length h
        have hle := length_le_coerceFrom 0 s
        simp only [replacement, List.length_append, List.length_cons, List.length_nil] at hlen
        omega

/-- Coercing changes exactly the texts that are not UTF-8. -/
theorem coerce_eq_iff (s : Bytes) : coerce s = s ↔ valid s = true := coerceFrom_eq_iff 0 s

end Utf8
