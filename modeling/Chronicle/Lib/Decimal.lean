import Mathlib.Data.Nat.Digits.Lemmas
import Chronicle.Lib.Ascii

/-! # Decimal numerals

Canonical decimal numerals of natural numbers and integers, with the sign
written as a leading minus and no superfluous zeros, and numerals padded with
zeros to a fixed width.
-/

namespace Decimal

def digit (d : ℕ) : UInt8 := (48 + d).toUInt8

def isDigit (c : UInt8) : Bool := 48 ≤ c && c ≤ 57

def formatNat (n : ℕ) : Bytes :=
  if n = 0 then [48] else (Nat.digits 10 n).reverse.map digit

def formatInt : ℤ → Bytes
  | .ofNat n => formatNat n
  | .negSucc n => 45 :: formatNat (n + 1)

/-- The numeral of a natural number, padded with zeros to at least the given width. -/
def formatPadded (w n : ℕ) : Bytes :=
  List.replicate (w - (formatNat n).length) 48 ++ formatNat n

def digitValue (c : UInt8) : ℕ := c.toNat - 48

/-- The number a string of digits stands for, read from the left onto an accumulator. -/
def valueFrom (acc : ℕ) (s : Bytes) : ℕ := s.foldl (fun n c => 10 * n + digitValue c) acc

def parseNat (s : Bytes) : Option ℕ :=
  if s ≠ [] ∧ s.all isDigit then some (valueFrom 0 s) else none

def parseInt : Bytes → Option ℤ
  | 45 :: s => (parseNat s).map fun n => -(n : ℤ)
  | s => (parseNat s).map fun n => (n : ℤ)

/-- A decimal with an optional sign of either kind. -/
def parseSigned : Bytes → Option ℤ
  | 43 :: s => (parseNat s).map fun n => (n : ℤ)
  | s => parseInt s

/-- A signed decimal in the range of `bits` bits. -/
def parseFixed (bits : ℕ) (s : Bytes) : Option ℤ :=
  (parseSigned s).filter fun n => -2 ^ (bits - 1) ≤ n ∧ n < 2 ^ (bits - 1)

def parseInt64 (s : Bytes) : Option ℤ := parseFixed 64 s

theorem formatNat_ne_nil (n : ℕ) : formatNat n ≠ [] := by
  unfold formatNat
  split
  · simp
  · simpa [Nat.digits_ne_nil_iff_ne_zero]

theorem formatInt_ne_nil (n : ℤ) : formatInt n ≠ [] := by
  cases n with
  | ofNat n => exact formatNat_ne_nil n
  | negSucc n => simp [formatInt]

section Digits

theorem toNat_digit {d : ℕ} (h : d < 10) : (digit d).toNat = 48 + d := by
  interval_cases d <;> rfl

theorem digitValue_digit {d : ℕ} (h : d < 10) : digitValue (digit d) = d := by
  rw [digitValue, toNat_digit h]
  omega

theorem isDigit_digit {d : ℕ} (h : d < 10) : isDigit (digit d) := by
  interval_cases d <;> rfl

variable {c : UInt8}

theorem isDigit_iff : isDigit c ↔ 48 ≤ c.toNat ∧ c.toNat ≤ 57 := by
  simp [isDigit, UInt8.le_iff_toNat_le]

theorem digitValue_lt (h : isDigit c) : digitValue c < 10 := by
  rw [isDigit_iff] at h
  unfold digitValue
  omega

theorem digit_digitValue (h : isDigit c) : digit (digitValue c) = c := by
  rw [← UInt8.toNat_inj, toNat_digit (digitValue_lt h)]
  rw [isDigit_iff] at h
  unfold digitValue
  omega

end Digits

section Format

variable {n m : ℕ} {s t : Bytes}

theorem formatNat_of_lt (h : n < 10) : formatNat n = [digit n] := by
  unfold formatNat
  split
  · subst_vars
    rfl
  · rw [Nat.digits_of_lt 10 n ‹_› h]
    rfl

/-- The last digit comes off the end. -/
theorem formatNat_of_ge (h : 10 ≤ n) :
    formatNat n = formatNat (n / 10) ++ [digit (n % 10)] := by
  unfold formatNat
  rw [if_neg (by omega), if_neg (by omega), Nat.digits_def' (by omega) (by omega)]
  simp

/-- Induction along the digits of a number. -/
theorem digits_induction {P : ℕ → Prop} (small : ∀ n < 10, P n)
    (step : ∀ n, 10 ≤ n → P (n / 10) → P n) (n : ℕ) : P n := by
  induction n using Nat.strongRecOn with
  | ind n ih =>
    rcases lt_or_ge n 10 with h | h
    · exact small n h
    · exact step n h (ih (n / 10) (by omega))

theorem all_isDigit_formatNat (n : ℕ) : (formatNat n).all isDigit := by
  induction n using digits_induction with
  | small n h => simp [formatNat_of_lt h, isDigit_digit h]
  | step n h ih =>
    rw [formatNat_of_ge h, List.all_append, ih]
    simp [isDigit_digit (Nat.mod_lt n (show 10 > 0 by omega))]

@[simp] theorem valueFrom_nil (acc : ℕ) : valueFrom acc [] = acc := rfl

theorem valueFrom_cons (acc : ℕ) (c : UInt8) (s : Bytes) :
    valueFrom acc (c :: s) = valueFrom (10 * acc + digitValue c) s := by
  rw [valueFrom, List.foldl_cons, valueFrom]

theorem valueFrom_append (acc : ℕ) (s t : Bytes) :
    valueFrom acc (s ++ t) = valueFrom (valueFrom acc s) t :=
  List.foldl_append

theorem valueFrom_eq (acc : ℕ) (s : Bytes) :
    valueFrom acc s = acc * 10 ^ s.length + valueFrom 0 s := by
  induction s generalizing acc with
  | nil => simp
  | cons c s ih =>
    rw [valueFrom_cons, valueFrom_cons, ih, ih (10 * 0 + _), List.length_cons, pow_succ]
    ring

theorem valueFrom_formatNat (n : ℕ) : valueFrom 0 (formatNat n) = n := by
  induction n using digits_induction with
  | small n h => simp [formatNat_of_lt h, valueFrom_cons, digitValue_digit h]
  | step n h ih =>
    rw [formatNat_of_ge h, valueFrom_append, ih, valueFrom_cons, valueFrom_nil,
      digitValue_digit (Nat.mod_lt n (show 10 > 0 by omega))]
    omega

@[simp] theorem parseNat_formatNat (n : ℕ) : parseNat (formatNat n) = some n := by
  rw [parseNat, if_pos ⟨formatNat_ne_nil n, all_isDigit_formatNat n⟩, valueFrom_formatNat]

theorem formatNat_injective : Function.Injective formatNat := fun a b h => by
  simpa using congrArg parseNat h

/-- A byte that is no digit does not occur in a numeral. -/
theorem not_mem_formatNat {c : UInt8} (hc : isDigit c = false) (n : ℕ) : c ∉ formatNat n := by
  intro h
  have := List.all_eq_true.mp (all_isDigit_formatNat n) c h
  simp [hc] at this

@[simp] theorem parseInt_formatInt (n : ℤ) : parseInt (formatInt n) = some n := by
  cases n with
  | ofNat n =>
    change parseInt (formatNat n) = some (n : ℤ)
    unfold parseInt
    split
    · rename_i s hs
      have hmem : (45 : UInt8) ∈ formatNat n := hs ▸ List.mem_cons_self
      exact absurd hmem (not_mem_formatNat rfl n)
    · simp
  | negSucc n =>
    simp [formatInt, parseInt]
    omega

theorem parseSigned_of_parseInt {s : Bytes} {n : ℤ} (h : parseInt s = some n) :
    parseSigned s = some n := by
  unfold parseSigned
  split
  · -- A plus sign is no digit.
    simp [parseInt, parseNat, isDigit] at h
  · exact h

theorem parseFixed_of_parseInt {bits : ℕ} {s : Bytes} {n : ℤ} (h : parseInt s = some n)
    (hlo : -2 ^ (bits - 1) ≤ n) (hhi : n < 2 ^ (bits - 1)) : parseFixed bits s = some n := by
  rw [parseFixed, parseSigned_of_parseInt h, Option.filter_some,
    if_pos (decide_eq_true ⟨hlo, hhi⟩)]

theorem formatInt_injective : Function.Injective formatInt := fun a b h => by
  simpa using congrArg parseInt h

theorem value_lt {s : Bytes} (h : s.all isDigit) : valueFrom 0 s < 10 ^ s.length := by
  induction s with
  | nil => simp
  | cons c s ih =>
    rw [List.all_cons, Bool.and_eq_true] at h
    have hrest := ih h.2
    have hdigit := digitValue_lt h.1
    rw [valueFrom_cons, valueFrom_eq, List.length_cons, pow_succ]
    have hfirst : (10 * 0 + digitValue c) * 10 ^ s.length ≤ 9 * 10 ^ s.length :=
      Nat.mul_le_mul_right _ (by omega)
    omega

/-- Strings of digits of one length are ordered like their values. -/
theorem lexLt_iff (hs : s.all isDigit) (ht : t.all isDigit) (hlen : s.length = t.length) :
    Bytes.lexLt s t ↔ valueFrom 0 s < valueFrom 0 t := by
  induction s generalizing t with
  | nil =>
    rcases t with _ | ⟨b, t⟩
    · simp
    · simp at hlen
  | cons a s ih =>
    rcases t with _ | ⟨b, t⟩
    · simp at hlen
    · rw [List.all_cons, Bool.and_eq_true] at hs ht
      have hlen' : s.length = t.length := by simpa using hlen
      have hslt := value_lt hs.2
      have htlt := value_lt ht.2
      have hvalues : a < b ↔ digitValue a < digitValue b := by
        have ha := isDigit_iff.mp hs.1
        have hb := isDigit_iff.mp ht.1
        rw [UInt8.lt_iff_toNat_lt, digitValue, digitValue]
        omega
      have heq : a = b ↔ digitValue a = digitValue b := by
        refine ⟨congrArg _, fun h => ?_⟩
        rw [← digit_digitValue hs.1, h, digit_digitValue ht.1]
      simp only [Bytes.lexLt_cons, Bool.or_eq_true, Bool.and_eq_true, decide_eq_true_eq,
        beq_iff_eq, ih hs.2 ht.2 hlen', valueFrom_cons, Nat.mul_zero, Nat.zero_add]
      rw [valueFrom_eq (digitValue a), valueFrom_eq (digitValue b), hlen', hvalues, heq]
      rw [hlen'] at hslt
      rcases lt_trichotomy (digitValue a) (digitValue b) with h | h | h
      · have : (digitValue a + 1) * 10 ^ t.length ≤ digitValue b * 10 ^ t.length :=
          Nat.mul_le_mul_right _ h
        rw [Nat.add_mul] at this
        omega
      · simp [h]
      · have : (digitValue b + 1) * 10 ^ t.length ≤ digitValue a * 10 ^ t.length :=
          Nat.mul_le_mul_right _ h
        rw [Nat.add_mul] at this
        simp only [show ¬ digitValue a < digitValue b by omega,
          show digitValue a ≠ digitValue b by omega, false_and, or_self, false_iff]
        omega

/-- A numeral has no leading zero, unless it is that of zero. -/
theorem dropWhile_formatNat (h : 0 < n) : (formatNat n).dropWhile (· = 48) = formatNat n := by
  induction n using digits_induction with
  | small n hn =>
    have hne : digit n ≠ 48 := by
      rw [Ne, ← UInt8.toNat_inj, toNat_digit hn]
      simp only [UInt8.reduceToNat]
      omega
    simp [formatNat_of_lt hn, hne]
  | step n hn ih =>
    have hq := ih (by omega)
    rw [formatNat_of_ge hn]
    rcases hf : formatNat (n / 10) with _ | ⟨c, t⟩
    · exact absurd hf (formatNat_ne_nil _)
    · rw [hf] at hq
      have hc : c ≠ 48 := by
        rintro rfl
        have hlen := congrArg List.length hq
        have hle := (t.dropWhile_sublist fun c => decide (c = 48)).length_le
        simp only [decide_true, List.dropWhile_cons_of_pos, List.length_cons] at hlen
        omega
      simp [hc]

theorem pow_le_formatNat (h : 0 < n) : 10 ^ ((formatNat n).length - 1) ≤ n := by
  induction n using digits_induction with
  | small n hn =>
    rw [formatNat_of_lt hn]
    exact h
  | step n hn ih =>
    have hq := ih (by omega)
    have hpos := List.length_pos_of_ne_nil (formatNat_ne_nil (n / 10))
    rw [formatNat_of_ge hn, List.length_append, List.length_singleton, Nat.add_sub_cancel]
    calc 10 ^ (formatNat (n / 10)).length
        = 10 ^ ((formatNat (n / 10)).length - 1 + 1) := by rw [Nat.sub_add_cancel hpos]
      _ = 10 ^ ((formatNat (n / 10)).length - 1) * 10 := pow_succ _ _
      _ ≤ n / 10 * 10 := Nat.mul_le_mul_right _ hq
      _ ≤ n := Nat.div_mul_le_self _ _

theorem formatNat_lt_pow (n : ℕ) : n < 10 ^ (formatNat n).length := by
  have := value_lt (all_isDigit_formatNat n)
  rwa [valueFrom_formatNat] at this

/-- A longer numeral is that of a larger number. -/
theorem lt_of_length_lt (h : (formatNat m).length < (formatNat n).length) : m < n := by
  have hn : 0 < n := by
    rcases Nat.eq_zero_or_pos n with rfl | hn
    · have hpos := List.length_pos_of_ne_nil (formatNat_ne_nil m)
      rw [formatNat_of_lt (show 0 < 10 by omega), List.length_singleton] at h
      omega
    · exact hn
  calc m < 10 ^ (formatNat m).length := formatNat_lt_pow m
    _ ≤ 10 ^ ((formatNat n).length - 1) := Nat.pow_le_pow_right (by omega) (by omega)
    _ ≤ n := pow_le_formatNat hn

theorem lexLt_formatNat (h : (formatNat m).length = (formatNat n).length) :
    Bytes.lexLt (formatNat m) (formatNat n) ↔ m < n := by
  rw [lexLt_iff (all_isDigit_formatNat m) (all_isDigit_formatNat n) h, valueFrom_formatNat,
    valueFrom_formatNat]

end Format

section Padded

variable {w n m : ℕ}

theorem all_isDigit_formatPadded (w n : ℕ) : (formatPadded w n).all isDigit := by
  rw [formatPadded, List.all_append, all_isDigit_formatNat, Bool.and_true, List.all_replicate]
  split <;> rfl

theorem formatPadded_ne_nil (w n : ℕ) : formatPadded w n ≠ [] := by
  simp [formatPadded, formatNat_ne_nil]

theorem valueFrom_formatPadded (w n : ℕ) : valueFrom 0 (formatPadded w n) = n := by
  have hzeros : ∀ k, valueFrom 0 (List.replicate k 48) = 0 := by
    intro k
    induction k with
    | zero => rfl
    | succ k ih =>
      rw [List.replicate_succ, valueFrom_cons]
      exact ih
  rw [formatPadded, valueFrom_append, hzeros, valueFrom_formatNat]

@[simp] theorem parseNat_formatPadded (w n : ℕ) : parseNat (formatPadded w n) = some n := by
  rw [parseNat, if_pos ⟨formatPadded_ne_nil w n, all_isDigit_formatPadded w n⟩,
    valueFrom_formatPadded]

theorem formatPadded_injective (w : ℕ) : Function.Injective (formatPadded w) := by
  intro m n h
  have := congrArg (valueFrom 0) h
  rwa [valueFrom_formatPadded, valueFrom_formatPadded] at this

theorem le_length_formatPadded (w n : ℕ) : w ≤ (formatPadded w n).length := by
  rw [formatPadded, List.length_append, List.length_replicate]
  omega

theorem length_formatPadded (hw : 0 < w) (h : n < 10 ^ w) : (formatPadded w n).length = w := by
  have hlen : (formatNat n).length ≤ w := by
    rcases Nat.eq_zero_or_pos n with rfl | hn
    · exact hw
    · have hpow := (pow_le_formatNat hn).trans_lt h
      rw [Nat.pow_lt_pow_iff_right (by omega)] at hpow
      omega
  rw [formatPadded, List.length_append, List.length_replicate]
  omega

/-- Padded numerals are ordered like the numbers. -/
theorem lexLt_formatPadded (hw : 0 < w) (hm : m < 10 ^ w) (hn : n < 10 ^ w) :
    Bytes.lexLt (formatPadded w m) (formatPadded w n) ↔ m < n := by
  rw [lexLt_iff (all_isDigit_formatPadded w m) (all_isDigit_formatPadded w n)
    (by rw [length_formatPadded hw hm, length_formatPadded hw hn]), valueFrom_formatPadded,
    valueFrom_formatPadded]

end Padded

end Decimal
