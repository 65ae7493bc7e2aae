import Mathlib.Data.Nat.Log
import Mathlib.Tactic.Ring
import Mathlib.Tactic.Linarith

/-! # Whole numbers as doubles

A language whose only numbers are doubles computes on whole numbers with
rounding. The significand of a double has 53 bits, so results up to `2 ^ 53` are
exact, and a larger one is rounded to the nearest double, ties to even. A program
is written for any arithmetic and is run with doubles or without rounding.
-/

/-- How a program rounds a result, and the whole part of a quotient that it rounds. -/
class Arithmetic where
  round : ℕ → ℕ
  floorDiv : ℕ → ℕ → ℕ

namespace Arithmetic

section Operations

variable [Arithmetic]

def add (a b : ℕ) : ℕ := round (a + b)

def sub (a b : ℕ) : ℕ := round (a - b)

def mod (a b : ℕ) : ℕ := sub a (round (floorDiv a b * b))

def roundInt (n : ℤ) : ℤ := n.sign * round n.natAbs

end Operations

instance exact : Arithmetic := ⟨fun n => n, fun n d => n / d⟩

-- The proofs are by rewriting: `simp` would use a proof by `rfl` without the instances.
@[simp] theorem exact_round (n : ℕ) : round n = n := by rw [round, exact]

@[simp] theorem exact_floorDiv (n d : ℕ) : floorDiv n d = n / d := by rw [floorDiv, exact]

@[simp] theorem exact_add (a b : ℕ) : add a b = a + b := by rw [add, exact_round]

@[simp] theorem exact_sub (a b : ℕ) : sub a b = a - b := by rw [sub, exact_round]

@[simp] theorem exact_mod (a b : ℕ) : mod a b = a % b := Nat.mod_eq_sub_div_mul.symm

@[simp] theorem exact_roundInt (n : ℤ) : roundInt n = n := Int.sign_mul_natAbs n

end Arithmetic

namespace Binary64

/-- The whole number nearest to a quotient, ties to even. -/
def nearest (n d : ℕ) : ℕ :=
  if 2 * (n % d) < d then n / d
  else if d < 2 * (n % d) then n / d + 1
  else n / d + n / d % 2

def floorDiv (n d : ℕ) : ℕ :=
  if Nat.log2 (n / d) ≤ 52 then
    nearest (n * 2 ^ (52 - Nat.log2 (n / d))) d / 2 ^ (52 - Nat.log2 (n / d))
  else nearest n (d * 2 ^ (Nat.log2 (n / d) - 52)) * 2 ^ (Nat.log2 (n / d) - 52)

def round (n : ℕ) : ℕ := floorDiv n 1

@[reducible] def doubles : Arithmetic := ⟨round, floorDiv⟩

@[simp] theorem doubles_round (n : ℕ) : doubles.round n = round n := by
  unfold doubles
  rfl

@[simp] theorem doubles_floorDiv (n d : ℕ) : doubles.floorDiv n d = floorDiv n d := by
  unfold doubles
  rfl

@[simp] theorem doubles_add (a b : ℕ) : doubles.add a b = round (a + b) := by
  unfold Arithmetic.add
  rw [doubles_round]

@[simp] theorem doubles_sub (a b : ℕ) : doubles.sub a b = round (a - b) := by
  unfold Arithmetic.sub
  rw [doubles_round]

variable {n d t : ℕ}

theorem div_le_nearest (n d : ℕ) : n / d ≤ nearest n d := by
  unfold nearest
  split_ifs <;> omega

theorem nearest_le (n : ℕ) (hd : 0 < d) : 2 * (d * nearest n d) ≤ 2 * n + d := by
  have hdiv := Nat.div_add_mod n d
  have hmod := Nat.mod_lt n hd
  unfold nearest
  split_ifs with hlow hhigh
  · omega
  · rw [Nat.mul_add]
    omega
  · have htwo : n / d % 2 ≤ 1 := by omega
    have : d * (n / d % 2) ≤ d := by nlinarith
    rw [Nat.mul_add]
    omega

theorem floorDiv_eq (hd : 0 < d) (hlt : d < 2 ^ 53) (h : d * (n / d) < 2 ^ 53) :
    floorDiv n d = n / d := by
  have hscale : d * 2 ^ Nat.log2 (n / d) < 2 ^ 53 := by
    by_cases hq : n / d = 0
    · rw [hq]
      simpa using hlt
    · have := Nat.mul_le_mul_left d (Nat.log2_self_le hq)
      omega
  have hk : Nat.log2 (n / d) ≤ 52 := by
    have hpow : 2 ^ Nat.log2 (n / d) < 2 ^ 53 := by nlinarith
    have := (Nat.pow_lt_pow_iff_right (by omega)).1 hpow
    omega
  rw [floorDiv, if_pos hk]
  -- the quotient is known up to less than half a unit of its whole part
  have hwide : d < 2 * 2 ^ (52 - Nat.log2 (n / d)) := by
    have hsplit : 2 ^ (52 - Nat.log2 (n / d)) * 2 ^ Nat.log2 (n / d) = 2 ^ 52 := by
      rw [← pow_add, Nat.sub_add_cancel hk]
    have hpos : 0 < 2 ^ Nat.log2 (n / d) := Nat.two_pow_pos _
    nlinarith
  generalize 2 ^ (52 - Nat.log2 (n / d)) = scale at hwide
  have hdiv := Nat.div_add_mod n d
  have hmod := Nat.mod_lt n hd
  have hhigh := nearest_le (n * scale) hd
  have hlow := div_le_nearest (n * scale) d
  have hwhole : n / d * scale ≤ n * scale / d := by
    rw [Nat.le_div_iff_mul_le hd, Nat.mul_right_comm]
    exact Nat.mul_le_mul_right scale (Nat.div_mul_le_self n d)
  apply Nat.div_eq_of_lt_le
  · exact hwhole.trans hlow
  · have hn : n + 1 ≤ d * (n / d + 1) := by
      rw [Nat.mul_add]
      omega
    have hscaled := Nat.mul_le_mul_right scale hn
    rw [← Nat.mul_lt_mul_left hd]
    nlinarith

theorem round_eq (h : n ≤ 2 ^ 53) : round n = n := by
  rcases h.lt_or_eq with hlt | rfl
  · rw [round, floorDiv_eq one_pos (by norm_num) (by simpa using hlt), Nat.div_one]
  · decide

theorem le_round (h : 2 ^ 53 ≤ n) : 2 ^ 53 ≤ round n := by
  have hn : n ≠ 0 := by
    rintro rfl
    norm_num at h
  have hk : 53 ≤ Nat.log2 n := (Nat.le_log2 hn).2 h
  unfold round floorDiv
  rw [Nat.div_one, if_neg (by omega), one_mul]
  have hlow := div_le_nearest n (2 ^ (Nat.log2 n - 52))
  have hlead : 2 ^ 52 ≤ n / 2 ^ (Nat.log2 n - 52) := by
    rw [Nat.le_div_iff_mul_le (Nat.two_pow_pos _), ← pow_add,
      show 52 + (Nat.log2 n - 52) = Nat.log2 n by omega]
    exact Nat.log2_self_le hn
  have htwo : 2 ≤ 2 ^ (Nat.log2 n - 52) := Nat.le_self_pow (by omega) 2
  calc 2 ^ 53 = 2 ^ 52 * 2 := rfl
    _ ≤ nearest n (2 ^ (Nat.log2 n - 52)) * 2 ^ (Nat.log2 n - 52) :=
      Nat.mul_le_mul (hlead.trans hlow) htwo

/-- Rounding does not move a number over one that is exact. -/
theorem round_lt_iff (ht : t ≤ 2 ^ 53) : round n < t ↔ n < t := by
  rcases Nat.lt_or_ge n (2 ^ 53) with hn | hn
  · rw [round_eq hn.le]
  · have := le_round hn
    omega

theorem round_le_iff (ht : t < 2 ^ 53) : round n ≤ t ↔ n ≤ t := by
  rw [← Nat.lt_succ_iff, ← Nat.lt_succ_iff]
  exact round_lt_iff ht

theorem floorDiv_ten (h : n ≤ 2 ^ 53) : floorDiv n 10 = n / 10 := by
  apply floorDiv_eq (by norm_num) (by norm_num)
  omega

theorem mod_ten (h : n ≤ 2 ^ 53) : doubles.mod n 10 = n % 10 := by
  have hproduct : n / 10 * 10 ≤ n := Nat.div_mul_le_self n 10
  change round (n - round (floorDiv n 10 * 10)) = _
  rw [floorDiv_ten h, round_eq (hproduct.trans h), round_eq (by omega)]
  omega

end Binary64
