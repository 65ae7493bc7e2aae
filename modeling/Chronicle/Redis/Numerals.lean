import Chronicle.Lib.Decimal

/-! # Decimal strings in the scripts

The scripts compare and increment integers as decimal strings, since numbers of
the script language are doubles. On numerals in canonical form the helpers
agree with integer arithmetic.
-/

namespace Chronicle.Redis

open Decimal

def intParts (s : Bytes) : Bool × Bytes :=
  let neg := s.take 1 = [45]
  let d := (if neg then s.drop 1 else s).dropWhile (· = 48)
  if d = [] then (false, [48]) else (neg, d)

def absCmp (ad bd : Bytes) : ℤ :=
  if ad.length < bd.length then -1
  else if bd.length < ad.length then 1
  else if Bytes.lexLt ad bd then -1
  else if Bytes.lexLt bd ad then 1
  else 0

def intCmp (a b : Bytes) : ℤ :=
  let (an, ad) := intParts a
  let (bn, bd) := intParts b
  if an && !bn then -1
  else if !an && bn then 1
  else if an && bn then -absCmp ad bd
  else absCmp ad bd

def intIsZero (s : Bytes) : Bool := (intParts s).2 = [48]

def addLoop : Bytes → ℕ → Bytes
  | [], carry => if carry = 1 then [49] else []
  | c :: d, carry =>
    let n := digitValue c + carry
    if n = 10 then 48 :: addLoop d 1 else digit n :: addLoop d 0

def absAddOne (d : Bytes) : Bytes := (addLoop d.reverse 1).reverse

def subLoop : Bytes → ℕ → Bytes
  | [], _ => []
  | c :: d, borrow =>
    if digitValue c < borrow then 57 :: subLoop d 1
    else digit (digitValue c - borrow) :: subLoop d 0

def absSubOne (d : Bytes) : Bytes :=
  let s := (subLoop d.reverse 1).reverse.dropWhile (· = 48)
  if s = [] then [48] else s

def intAddOne (s : Bytes) : Bytes :=
  let (neg, d) := intParts s
  if ¬ neg then absAddOne d
  else if d = [49] then [48]
  else 45 :: absSubOne d

section Parts

theorem take_formatNat (n : ℕ) : (formatNat n).take 1 ≠ [45] := by
  intro h
  have hmem : (45 : UInt8) ∈ formatNat n := List.mem_of_mem_take (h ▸ List.mem_singleton_self _)
  exact not_mem_formatNat rfl n hmem

theorem intParts_natCast (n : ℕ) : intParts (formatInt n) = (false, formatNat n) := by
  change intParts (formatNat n) = _
  rcases Nat.eq_zero_or_pos n with rfl | hn
  · rfl
  · simp [intParts, take_formatNat, dropWhile_formatNat hn, formatNat_ne_nil]

theorem intParts_negSucc (n : ℕ) :
    intParts (formatInt (.negSucc n)) = (true, formatNat (n + 1)) := by
  simp [intParts, formatInt, dropWhile_formatNat (Nat.succ_pos n), formatNat_ne_nil]

end Parts

section Compare

def sign (a b : ℤ) : ℤ := if a < b then -1 else if b < a then 1 else 0

theorem sign_nonpos {a b : ℤ} : sign a b ≤ 0 ↔ a ≤ b := by
  unfold sign
  split_ifs <;> omega

theorem sign_neg {a b : ℤ} : sign a b < 0 ↔ a < b := by
  unfold sign
  split_ifs <;> omega

theorem sign_pos {a b : ℤ} : 0 < sign a b ↔ b < a := by
  unfold sign
  split_ifs <;> omega

theorem sign_eq_zero {a b : ℤ} : sign a b = 0 ↔ a = b := by
  unfold sign
  constructor
  · intro h
    split_ifs at h <;> omega
  · rintro rfl
    simp

theorem absCmp_formatNat (m n : ℕ) : absCmp (formatNat m) (formatNat n) = sign m n := by
  unfold absCmp sign
  rcases lt_trichotomy (formatNat m).length (formatNat n).length with h | h | h
  · have := lt_of_length_lt h
    simp [h, this]
  · simp only [h, lt_irrefl, if_false, lexLt_formatNat h, lexLt_formatNat h.symm, Nat.cast_lt]
  · have := lt_of_length_lt h
    simp [h, this, h.not_gt, this.not_gt]

/-- Decimal strings are compared like integers. -/
@[simp] theorem intCmp_formatInt (a b : ℤ) : intCmp (formatInt a) (formatInt b) = sign a b := by
  cases a with
  | ofNat m =>
    cases b with
    | ofNat n =>
      simp only [intCmp, Int.ofNat_eq_natCast, intParts_natCast]
      exact absCmp_formatNat m n
    | negSucc n =>
      simp [intCmp, intParts_natCast, intParts_negSucc, sign]
      omega
  | negSucc m =>
    cases b with
    | ofNat n =>
      simp [intCmp, intParts_natCast, intParts_negSucc, sign]
      omega
    | negSucc n =>
      simp only [intCmp, intParts_negSucc, absCmp_formatNat, sign]
      norm_num
      split_ifs <;> omega

theorem intIsZero_formatInt (a : ℤ) : intIsZero (formatInt a) = decide (a = 0) := by
  have hzero : ∀ n : ℕ, formatNat n = [48] ↔ n = 0 := fun n =>
    ⟨fun h => formatNat_injective h, fun h => h ▸ rfl⟩
  cases a with
  | ofNat n => simp [intIsZero, intParts_natCast, hzero]
  | negSucc n => simp [intIsZero, intParts_negSucc, hzero]

end Compare

section Increment

variable {d : Bytes}

theorem addLoop_zero (h : d.all isDigit) : addLoop d 0 = d := by
  induction d with
  | nil => rfl
  | cons c d ih =>
    rw [List.all_cons, Bool.and_eq_true] at h
    have := digitValue_lt h.1
    rw [addLoop, Nat.add_zero, if_neg (by omega), ih h.2, digit_digitValue h.1]

theorem subLoop_zero (h : d.all isDigit) : subLoop d 0 = d := by
  induction d with
  | nil => rfl
  | cons c d ih =>
    rw [List.all_cons, Bool.and_eq_true] at h
    rw [subLoop, if_neg (by omega), Nat.sub_zero, ih h.2, digit_digitValue h.1]

theorem all_isDigit_reverse (n : ℕ) : (formatNat n).reverse.all isDigit := by
  rw [List.all_reverse]
  exact all_isDigit_formatNat n

theorem addLoop_formatNat (n : ℕ) :
    addLoop (formatNat n).reverse 1 = (formatNat (n + 1)).reverse := by
  induction n using digits_induction with
  | small n h =>
    rw [formatNat_of_lt h, List.reverse_singleton, addLoop, digitValue_digit h]
    split
    · rename_i h'
      obtain rfl : n = 9 := by omega
      rfl
    · rw [formatNat_of_lt (by omega)]
      rfl
  | step n h ih =>
    have hmod : n % 10 < 10 := Nat.mod_lt n (by omega)
    rw [formatNat_of_ge h, formatNat_of_ge (by omega : 10 ≤ n + 1), List.reverse_append,
      List.reverse_append, List.reverse_singleton, List.reverse_singleton, List.singleton_append,
      List.singleton_append, addLoop, digitValue_digit hmod]
    split
    · rw [ih, show (n + 1) / 10 = n / 10 + 1 by omega, show (n + 1) % 10 = 0 by omega]
      rfl
    · rw [addLoop_zero (all_isDigit_reverse _), show (n + 1) / 10 = n / 10 by omega,
        show (n + 1) % 10 = n % 10 + 1 by omega]

theorem subLoop_formatNat (n : ℕ) :
    (subLoop (formatNat (n + 1)).reverse 1).reverse = formatNat n ∨
      (subLoop (formatNat (n + 1)).reverse 1).reverse = 48 :: formatNat n := by
  generalize hm : n + 1 = m
  induction m using digits_induction generalizing n with
  | small m h =>
    left
    rw [formatNat_of_lt h, formatNat_of_lt (by omega), List.reverse_singleton, subLoop,
      digitValue_digit h, if_neg (by omega), ← hm]
    rfl
  | step m h ih =>
    have hmod : m % 10 < 10 := Nat.mod_lt m (by omega)
    rw [formatNat_of_ge h, List.reverse_append, List.reverse_singleton, List.singleton_append,
      subLoop, digitValue_digit hmod]
    split
    · rw [List.reverse_cons]
      have hlast : (57 : UInt8) = digit (n % 10) := by rw [show n % 10 = 9 by omega]; rfl
      rcases Nat.lt_or_ge n 10 with hn | hn
      · -- ten becomes nine, with a zero in front
        right
        obtain rfl : n = 9 := by omega
        obtain rfl : m = 10 := by omega
        rfl
      · rw [formatNat_of_ge hn, hlast]
        rcases ih (n / 10) (by omega) with h' | h'
        · left; rw [h']
        · right; rw [h']; rfl
    · left
      rw [subLoop_zero (all_isDigit_reverse _), List.reverse_cons, List.reverse_reverse,
        formatNat_of_ge (by omega : 10 ≤ n), show m / 10 = n / 10 by omega,
        show m % 10 - 1 = n % 10 by omega]

theorem absSubOne_formatNat (n : ℕ) : absSubOne (formatNat (n + 1)) = formatNat n := by
  have hstrip : ((subLoop (formatNat (n + 1)).reverse 1).reverse).dropWhile (· = 48) =
      (formatNat n).dropWhile (· = 48) := by
    rcases subLoop_formatNat n with h | h <;> rw [h]
    simp
  unfold absSubOne
  rw [hstrip]
  rcases Nat.eq_zero_or_pos n with rfl | hn
  · rfl
  · rw [dropWhile_formatNat hn, if_neg (formatNat_ne_nil n)]

/-- Adding one to a decimal string adds one to the integer. -/
theorem intAddOne_formatInt (a : ℤ) : intAddOne (formatInt a) = formatInt (a + 1) := by
  cases a with
  | ofNat n =>
    simp only [intAddOne, Int.ofNat_eq_natCast, intParts_natCast]
    rw [if_pos (by simp), absAddOne, addLoop_formatNat, List.reverse_reverse]
    rfl
  | negSucc n =>
    simp only [intAddOne, intParts_negSucc]
    rw [if_neg (by simp)]
    cases n with
    | zero => rfl
    | succ n =>
      have hne : formatNat (n + 1 + 1) ≠ [49] := fun h => by
        have : n + 1 + 1 = 1 := formatNat_injective h
        omega
      rw [if_neg hne, absSubOne_formatNat]
      rfl

end Increment

end Chronicle.Redis
