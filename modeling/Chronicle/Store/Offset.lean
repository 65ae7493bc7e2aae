import Mathlib.Data.Prod.Lex
import Chronicle.Lib.Decimal

/-! # Stream offsets

A position in a stream is a pair of a read sequence and a byte offset, compared
lexicographically. Byte offsets count payload bytes and are modelled by natural
numbers; a stream never holds `2 ^ 64` bytes.
-/

namespace Chronicle

@[ext] structure Offset where
  readSeq : ℕ
  byteOffset : ℕ
  deriving DecidableEq, Repr

def zeroOffset : Offset := ⟨0, 0⟩

/-- The sentinel for the current tail position. -/
def nowOffset : Offset := ⟨2 ^ 64 - 1, 2 ^ 64 - 1⟩

namespace Offset

def add (o : Offset) (bytes : ℕ) : Offset := ⟨o.readSeq, o.byteOffset + bytes⟩

def isNow (o : Offset) : Bool := o == nowOffset

def compare (a b : Offset) : ℤ :=
  if a.readSeq < b.readSeq then -1
  else if b.readSeq < a.readSeq then 1
  else if a.byteOffset < b.byteOffset then -1
  else if b.byteOffset < a.byteOffset then 1
  else 0

def lessThan (o other : Offset) : Bool := compare o other < 0

def lessThanOrEqual (o other : Offset) : Bool := compare o other ≤ 0

def equal (o other : Offset) : Bool := compare o other = 0

/-- The wire form: both fields padded to sixteen digits and joined by an underscore. -/
def string (o : Offset) : Bytes :=
  Decimal.formatPadded 16 o.readSeq ++ 95 :: Decimal.formatPadded 16 o.byteOffset

/-- Digits, one underscore, and digits again. -/
def isValidOffsetFormat (s : Bytes) : Bool :=
  3 ≤ s.length && s.all (fun c => c == 95 || Decimal.isDigit c) && s.count 95 == 1 &&
    s.head? ≠ some 95 && s.getLast? ≠ some 95

def parseUint64 (s : Bytes) : Option ℕ := (Decimal.parseNat s).filter (· < 2 ^ 64)

/-- Read an offset; the empty string and "-1" are the start, and "now" is the tail. -/
def parseOffset (s : Bytes) : Option Offset :=
  if s = [] then some zeroOffset
  else if s = Bytes.ascii "-1" then some zeroOffset
  else if s = Bytes.ascii "now" then some nowOffset
  else if isValidOffsetFormat s then
    match parseUint64 (s.takeWhile (· ≠ 95)), parseUint64 ((s.dropWhile (· ≠ 95)).drop 1) with
    | some readSeq, some byteOffset => some ⟨readSeq, byteOffset⟩
    | _, _ => none
  else none

def key (o : Offset) : ℕ ×ₗ ℕ := toLex (o.readSeq, o.byteOffset)

theorem key_injective : Function.Injective key := by
  rintro ⟨r, b⟩ ⟨r', b'⟩ h
  have h' : (r, b) = (r', b') := toLex.injective h
  simpa using h'

instance : LinearOrder Offset := LinearOrder.lift' key key_injective

variable {a b : Offset}

theorem lt_def :
    a < b ↔ a.readSeq < b.readSeq ∨ a.readSeq = b.readSeq ∧ a.byteOffset < b.byteOffset :=
  Prod.Lex.toLex_lt_toLex

theorem le_def :
    a ≤ b ↔ a.readSeq < b.readSeq ∨ a.readSeq = b.readSeq ∧ a.byteOffset ≤ b.byteOffset :=
  Prod.Lex.toLex_le_toLex

@[simp] theorem lessThan_iff : a.lessThan b = true ↔ a < b := by
  rw [lessThan, decide_eq_true_eq, lt_def, compare]
  split_ifs <;> omega

@[simp] theorem lessThan_eq_false : a.lessThan b = false ↔ b ≤ a := by
  rw [← not_lt, ← lessThan_iff, Bool.not_eq_true]

@[simp] theorem lessThanOrEqual_iff : a.lessThanOrEqual b = true ↔ a ≤ b := by
  rw [lessThanOrEqual, decide_eq_true_eq, le_def, compare]
  split_ifs <;> omega

@[simp] theorem equal_iff : a.equal b = true ↔ a = b := by
  rw [equal, decide_eq_true_eq, Offset.ext_iff, compare]
  split_ifs <;> norm_num <;> omega

@[simp] theorem add_add (o : Offset) (m n : ℕ) : (o.add m).add n = o.add (m + n) := by
  simp [add, Nat.add_assoc]

theorem le_add (o : Offset) (n : ℕ) : o ≤ o.add n := by
  simp [le_def, add]

theorem lt_add {o : Offset} {n : ℕ} (hn : 0 < n) : o < o.add n := by
  simp [lt_def, add, hn]

theorem zero_le (o : Offset) : zeroOffset ≤ o := by
  simp only [le_def, zeroOffset]; omega

section Wire

open Decimal

/-- Offsets whose fields fit the sixteen digits of the wire form. -/
def Small (o : Offset) : Prop := o.readSeq < 10 ^ 16 ∧ o.byteOffset < 10 ^ 16

instance (o : Offset) : Decidable o.Small := inferInstanceAs (Decidable (_ ∧ _))

variable {a b : Offset}

theorem not_mem_formatPadded {c : UInt8} (hc : isDigit c = false) (w n : ℕ) :
    c ∉ formatPadded w n := by
  intro h
  have := List.all_eq_true.mp (all_isDigit_formatPadded w n) c h
  simp [hc] at this

theorem underscore_mem_string (o : Offset) : (95 : UInt8) ∈ o.string := by simp [string]

theorem takeWhile_string (o : Offset) :
    o.string.takeWhile (· ≠ 95) = formatPadded 16 o.readSeq ∧
      o.string.dropWhile (· ≠ 95) = 95 :: formatPadded 16 o.byteOffset := by
  have hne : ∀ c ∈ formatPadded 16 o.readSeq, decide (c ≠ 95) = true := by
    intro c hc
    rw [decide_eq_true_eq]
    rintro rfl
    exact not_mem_formatPadded rfl _ _ hc
  rw [string, List.takeWhile_append_of_pos hne, List.dropWhile_append_of_pos hne]
  simp

theorem not_mem_string (o : Offset) {c : UInt8} (hc : isDigit c = false) (hsep : c ≠ 95) :
    c ∉ o.string := by
  simp [string, not_mem_formatPadded hc, hsep]

theorem string_injective : Function.Injective string := by
  intro a b h
  have hread := congrArg (List.takeWhile (· ≠ 95)) h
  have hbyte := congrArg (List.dropWhile (· ≠ 95)) h
  rw [(takeWhile_string a).1, (takeWhile_string b).1] at hread
  rw [(takeWhile_string a).2, (takeWhile_string b).2, List.cons.injEq] at hbyte
  cases a
  cases b
  rw [Offset.mk.injEq]
  exact ⟨formatPadded_injective 16 hread, formatPadded_injective 16 hbyte.2⟩

theorem isValidOffsetFormat_string (o : Offset) : isValidOffsetFormat o.string := by
  have hr := List.length_pos_of_ne_nil (formatPadded_ne_nil 16 o.readSeq)
  have hb := List.length_pos_of_ne_nil (formatPadded_ne_nil 16 o.byteOffset)
  have hall : ∀ n, (formatPadded 16 n).all (fun c => c == 95 || isDigit c) := by
    intro n
    rw [List.all_eq_true]
    intro c hc
    simp [List.all_eq_true.mp (all_isDigit_formatPadded 16 n) c hc]
  have hcount : ∀ n, (formatPadded 16 n).count (95 : UInt8) = 0 := fun n =>
    List.count_eq_zero.mpr (not_mem_formatPadded rfl 16 n)
  have hhead : o.string.head? ≠ some 95 := by
    rw [string, List.head?_append_of_ne_nil _ (formatPadded_ne_nil _ _)]
    exact fun h => not_mem_formatPadded rfl 16 o.readSeq (List.mem_of_head? h)
  have hlast : o.string.getLast? ≠ some 95 := by
    rw [string, List.getLast?_append_of_ne_nil _ (by simp), List.getLast?_cons,
      List.getLast?_eq_getLast_of_ne_nil (formatPadded_ne_nil _ _)]
    simp only [Option.getD_some, ne_eq, Option.some.injEq]
    exact fun h => not_mem_formatPadded rfl 16 o.byteOffset (h ▸ List.getLast_mem _)
  unfold isValidOffsetFormat
  simp only [Bool.and_eq_true, decide_eq_true_eq, beq_iff_eq]
  refine ⟨⟨⟨⟨?_, ?_⟩, ?_⟩, hhead⟩, hlast⟩
  · simp only [string, List.length_append, List.length_cons]
    omega
  · rw [string, List.all_append, List.all_cons, hall, hall]
    rfl
  · rw [string, List.count_append, List.count_cons_self, hcount, hcount]

/-- The wire form is read as its two numbers. -/
theorem parseOffset_wire (a : Offset) :
    parseOffset a.string =
      match parseUint64 (formatPadded 16 a.readSeq), parseUint64 (formatPadded 16 a.byteOffset) with
      | some readSeq, some byteOffset => some ⟨readSeq, byteOffset⟩
      | _, _ => none := by
  have hmem := underscore_mem_string a
  have hne : ∀ s : Bytes, (95 : UInt8) ∉ s → a.string ≠ s := fun s hs h => hs (h ▸ hmem)
  rw [parseOffset, if_neg (hne _ (by simp)), if_neg (hne _ (by decide)), if_neg (hne _ (by decide)),
    if_pos (isValidOffsetFormat_string a), (takeWhile_string a).1, (takeWhile_string a).2,
    List.drop_one, List.tail_cons]

/-- The wire form is read back. -/
theorem parseOffset_string (h : a.Small) : parseOffset a.string = some a := by
  have hparse : ∀ n < 10 ^ 16, parseUint64 (formatPadded 16 n) = some n := by
    intro n hn
    have : n < 2 ^ 64 := lt_trans hn (by norm_num)
    simpa [parseUint64, Option.filter] using this
  rw [parseOffset_wire, hparse _ h.1, hparse _ h.2]

/-- A wire form that is read, however long, is read back. -/
theorem eq_of_parseOffset_string (h : parseOffset a.string = some b) : b = a := by
  have hparse : ∀ {n m}, parseUint64 (formatPadded 16 n) = some m → m = n := by
    intro n m hm
    rcases Option.filter_eq_some_iff.mp hm with ⟨hm, -⟩
    rw [parseNat_formatPadded, Option.some.injEq] at hm
    exact hm.symm
  rw [parseOffset_wire] at h
  split at h
  · rename_i hread hbyte
    cases h
    rw [hparse hread, hparse hbyte]
  · cases h

theorem le_length_string (a : Offset) : 33 ≤ a.string.length := by
  have hread := Decimal.le_length_formatPadded 16 a.readSeq
  have hbyte := Decimal.le_length_formatPadded 16 a.byteOffset
  rw [string, List.length_append, List.length_cons]
  omega

theorem length_string (h : a.Small) : a.string.length = 33 := by
  rw [string, List.length_append, List.length_cons, length_formatPadded (by omega) h.1,
    length_formatPadded (by omega) h.2]

/-- Wire forms are ordered like the offsets. -/
theorem lexLt_string (ha : a.Small) (hb : b.Small) : Bytes.lexLt a.string b.string ↔ a < b := by
  have hlen : (formatPadded 16 a.readSeq).length = (formatPadded 16 b.readSeq).length := by
    rw [length_formatPadded (by omega) ha.1, length_formatPadded (by omega) hb.1]
  rw [lt_def, string, string]
  rcases lt_trichotomy a.readSeq b.readSeq with h | h | h
  · have := Bytes.lexLt_append_of_lt hlen ((lexLt_formatPadded (by omega) ha.1 hb.1).mpr h)
    simp [h, this]
  · rw [h, Bytes.lexLt_append_left]
    simp [lexLt_formatPadded (w := 16) (by omega) ha.2 hb.2]
  · have := Bytes.lexLt_asymm (Bytes.lexLt_append_of_lt hlen.symm
      ((lexLt_formatPadded (by omega) hb.1 ha.1).mpr h) (95 :: formatPadded 16 b.byteOffset)
      (95 :: formatPadded 16 a.byteOffset))
    simp [this, h.not_gt, h.ne']

theorem Small.of_le (h : a.Small) (hle : b.byteOffset ≤ a.byteOffset)
    (hseq : b.readSeq = a.readSeq) : b.Small := ⟨hseq ▸ h.1, hle.trans_lt h.2⟩

end Wire

end Offset

end Chronicle
