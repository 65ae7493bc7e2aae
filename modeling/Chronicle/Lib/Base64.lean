import Chronicle.Lib.Ascii

/-! # Base64

Three bytes are four groups of six bits, and each group is written as a character
of an alphabet. A text that ends early is filled up with a padding character, or
left short when there is none. Reading skips line ends and does not look at the
bits that a short text leaves over.
-/

namespace Base64

structure Encoding where
  c62 : UInt8
  c63 : UInt8
  pad : Option UInt8

def std : Encoding := ⟨43, 47, some 61⟩

def rawURL : Encoding := ⟨45, 95, none⟩

/-- Bytes as groups of six bits. -/
def sextets : Bytes → List ℕ
  | [] => []
  | [a] => [a.toNat / 4, a.toNat % 4 * 16]
  | [a, b] => [a.toNat / 4, a.toNat % 4 * 16 + b.toNat / 16, b.toNat % 16 * 4]
  | a :: b :: c :: s =>
    a.toNat / 4 :: (a.toNat % 4 * 16 + b.toNat / 16) :: (b.toNat % 16 * 4 + c.toNat / 64) ::
      c.toNat % 64 :: sextets s

/-- The bytes of groups of six bits; a single group does not hold a byte. -/
def octets : List ℕ → Option Bytes
  | [] => some []
  | [_] => none
  | [w, x] => some [(w * 4 + x / 16).toUInt8]
  | [w, x, y] => some [(w * 4 + x / 16).toUInt8, (x % 16 * 16 + y / 4).toUInt8]
  | w :: x :: y :: z :: s =>
    (octets s).map fun rest =>
      (w * 4 + x / 16).toUInt8 :: (x % 16 * 16 + y / 4).toUInt8 :: (y % 4 * 64 + z).toUInt8 :: rest

/-- Whether the bits that do not make up a byte are zero. -/
def canonical : List ℕ → Bool
  | [_, x] => x % 16 = 0
  | [_, _, y] => y % 4 = 0
  | _ :: _ :: _ :: _ :: s => canonical s
  | _ => true

namespace Encoding

variable (enc : Encoding)

def char (n : ℕ) : UInt8 :=
  if n < 26 then (65 + n).toUInt8
  else if n < 52 then (71 + n).toUInt8
  else if n < 62 then (n - 4).toUInt8
  else if n = 62 then enc.c62
  else enc.c63

def value (c : UInt8) : Option ℕ :=
  if 65 ≤ c ∧ c ≤ 90 then some (c.toNat - 65)
  else if 97 ≤ c ∧ c ≤ 122 then some (c.toNat - 71)
  else if 48 ≤ c ∧ c ≤ 57 then some (c.toNat + 4)
  else if c = enc.c62 then some 62
  else if c = enc.c63 then some 63
  else none

def padding (n : ℕ) : Bytes :=
  match enc.pad with
  | some c => List.replicate ((3 - n % 3) % 3) c
  | none => []

def encode (s : Bytes) : Bytes := (sextets s).map enc.char ++ enc.padding s.length

def decode (s : Bytes) : Option Bytes :=
  ((s.filter fun c => c ≠ 13 && c ≠ 10).mapM enc.value).bind octets

/-- Read a text without padding whose trailing bits must be zero. Line breaks are skipped. -/
def decodeStrict (s : Bytes) : Option Bytes :=
  ((s.filter fun c => c ≠ 13 && c ≠ 10).mapM enc.value).bind fun groups =>
    if canonical groups then octets groups else none

end Encoding

theorem sextets_lt (s : Bytes) : ∀ n ∈ sextets s, n < 64 := by
  have hlt : ∀ a : UInt8, a.toNat < 256 := fun a => a.toNat_lt
  induction s using sextets.induct with
  | case1 => simp [sextets]
  | case2 a =>
    have ha := hlt a
    simp only [sextets, List.forall_mem_cons]
    refine ⟨?_, ?_, by simp⟩ <;> omega
  | case3 a b =>
    have ha := hlt a
    have hb := hlt b
    simp only [sextets, List.forall_mem_cons]
    refine ⟨?_, ?_, ?_, by simp⟩ <;> omega
  | case4 a b c s ih =>
    have ha := hlt a
    have hb := hlt b
    have hc := hlt c
    simp only [sextets, List.forall_mem_cons]
    refine ⟨?_, ?_, ?_, ?_, ih⟩ <;> omega

theorem toUInt8_eq {n : ℕ} {a : UInt8} (h : n = a.toNat) : n.toUInt8 = a := by
  subst h
  exact UInt8.ofNat_toNat

theorem octets_sextets (s : Bytes) : octets (sextets s) = some s := by
  have hlt : ∀ a : UInt8, a.toNat < 256 := fun a => a.toNat_lt
  induction s using sextets.induct with
  | case1 => rfl
  | case2 a =>
    have ha := hlt a
    simp only [sextets, octets, Option.some.injEq, List.cons.injEq, and_true]
    exact toUInt8_eq (by omega)
  | case3 a b =>
    have ha := hlt a
    have hb := hlt b
    simp only [sextets, octets, Option.some.injEq, List.cons.injEq, and_true]
    exact ⟨toUInt8_eq (by omega), toUInt8_eq (by omega)⟩
  | case4 a b c s ih =>
    have ha := hlt a
    have hb := hlt b
    have hc := hlt c
    simp only [sextets, octets, ih, Option.map_some, Option.some.injEq, List.cons.injEq, and_true]
    exact ⟨toUInt8_eq (by omega), toUInt8_eq (by omega), toUInt8_eq (by omega)⟩

theorem canonical_sextets (s : Bytes) : canonical (sextets s) = true := by
  induction s using sextets.induct with
  | case1 => rfl
  | case2 a =>
    simp only [sextets, canonical, decide_eq_true_eq]
    omega
  | case3 a b =>
    simp only [sextets, canonical, decide_eq_true_eq]
    omega
  | case4 a b c s ih => exact ih

theorem toNat_toUInt8 {n : ℕ} (h : n < 256) : n.toUInt8.toNat = n :=
  UInt8.toNat_ofNat_of_lt h

theorem sextets_octets {l : List ℕ} {s : Bytes} (hl : ∀ n ∈ l, n < 64) (hc : canonical l = true)
    (h : octets l = some s) : sextets s = l := by
  induction l using octets.induct generalizing s with
  | case1 =>
    cases h
    rfl
  | case2 w => cases h
  | case3 w x =>
    cases h
    simp only [List.forall_mem_cons, List.not_mem_nil, false_imp_iff, implies_true, and_true] at hl
    simp only [canonical, decide_eq_true_eq] at hc
    simp only [sextets]
    rw [toNat_toUInt8 (by omega)]
    simp only [List.cons.injEq, and_true]
    omega
  | case4 w x y =>
    cases h
    simp only [List.forall_mem_cons, List.not_mem_nil, false_imp_iff, implies_true, and_true] at hl
    simp only [canonical, decide_eq_true_eq] at hc
    simp only [sextets]
    rw [toNat_toUInt8 (by omega), toNat_toUInt8 (by omega)]
    simp only [List.cons.injEq, and_true]
    omega
  | case5 w x y z l ih =>
    obtain ⟨rest, hrest, rfl⟩ := Option.map_eq_some_iff.mp h
    simp only [List.forall_mem_cons] at hl
    obtain ⟨hw, hx, hy, hz, hl⟩ := hl
    rw [sextets, ih hl hc hrest, toNat_toUInt8 (by omega), toNat_toUInt8 (by omega),
      toNat_toUInt8 (by omega)]
    simp only [List.cons.injEq, and_true]
    omega

section Raw

open Encoding

theorem value_char {n : ℕ} (h : n < 64) : rawURL.value (rawURL.char n) = some n := by
  have hall : ∀ n : Fin 64, rawURL.value (rawURL.char n) = some n.val := by decide
  exact hall ⟨n, h⟩

/-- A byte outside the alphabet is not written. -/
theorem notMem_encode {c : UInt8} (hc : rawURL.value c = none) (s : Bytes) :
    c ∉ rawURL.encode s := by
  intro hmem
  have hpad : rawURL.padding s.length = [] := rfl
  rw [encode, hpad, List.append_nil, List.mem_map] at hmem
  obtain ⟨n, hn, rfl⟩ := hmem
  rw [value_char (sextets_lt s n hn)] at hc
  cases hc

theorem mapM_value_char {l : List ℕ} (h : ∀ n ∈ l, n < 64) :
    (l.map rawURL.char).mapM rawURL.value = some l := by
  induction l with
  | nil => rfl
  | cons n l ih =>
    rw [List.forall_mem_cons] at h
    rw [List.map_cons, List.mapM_cons, value_char h.1, ih h.2]
    rfl

variable {s : Bytes}

/-- Nothing is skipped in a text without line breaks. -/
theorem filter_eq_self (h13 : 13 ∉ s) (h10 : 10 ∉ s) :
    s.filter (fun c => c ≠ 13 && c ≠ 10) = s := by
  rw [List.filter_eq_self]
  intro c hc
  have h13 : c ≠ 13 := by
    rintro rfl
    exact h13 hc
  have h10 : c ≠ 10 := by
    rintro rfl
    exact h10 hc
  simp [h13, h10]

theorem mapM_value_encode (s : Bytes) :
    ((rawURL.encode s).filter fun c => c ≠ 13 && c ≠ 10).mapM rawURL.value = some (sextets s) := by
  have hpad : rawURL.padding s.length = [] := rfl
  rw [filter_eq_self (notMem_encode (by decide) s) (notMem_encode (by decide) s), encode, hpad,
    List.append_nil, mapM_value_char (sextets_lt s)]

/-- What was written is read back. -/
theorem decode_encode (s : Bytes) : rawURL.decode (rawURL.encode s) = some s := by
  rw [decode, mapM_value_encode]
  exact octets_sextets s

theorem decodeStrict_encode (s : Bytes) : rawURL.decodeStrict (rawURL.encode s) = some s := by
  rw [decodeStrict, mapM_value_encode, Option.bind_some, if_pos (canonical_sextets s)]
  exact octets_sextets s

theorem char_value {c : UInt8} {n : ℕ} (h : rawURL.value c = some n) :
    n < 64 ∧ rawURL.char n = c := by
  have hall : ∀ c : Fin 256, ∀ n ∈ rawURL.value (UInt8.ofNat c),
      n < 64 ∧ rawURL.char n = UInt8.ofNat c := by decide +kernel
  have hc := hall ⟨c.toNat, c.toNat_lt⟩ n
  rw [UInt8.ofNat_toNat] at hc
  exact hc h

theorem map_char_of_mapM_value {l : List ℕ} (h : s.mapM rawURL.value = some l) :
    (∀ n ∈ l, n < 64) ∧ l.map rawURL.char = s := by
  induction s generalizing l with
  | nil =>
    cases h
    exact ⟨nofun, rfl⟩
  | cons c s ih =>
    rw [List.mapM_cons] at h
    obtain ⟨n, hn, h⟩ := Option.bind_eq_some_iff.mp h
    obtain ⟨l', hl', h⟩ := Option.bind_eq_some_iff.mp h
    cases h
    obtain ⟨hlt, hchar⟩ := char_value hn
    obtain ⟨hlt', hmap⟩ := ih hl'
    exact ⟨List.forall_mem_cons.mpr ⟨hlt, hlt'⟩, by rw [List.map_cons, hchar, hmap]⟩

/-- A text that is read strictly is what is written for its bytes, up to line breaks. -/
theorem encode_of_decodeStrict {b : Bytes} (h : rawURL.decodeStrict s = some b) :
    rawURL.encode b = s.filter fun c => c ≠ 13 && c ≠ 10 := by
  obtain ⟨l, hl, h⟩ := Option.bind_eq_some_iff.mp h
  obtain ⟨hlt, hmap⟩ := map_char_of_mapM_value hl
  split at h
  · have hpad : rawURL.padding b.length = [] := rfl
    rw [encode, hpad, List.append_nil, sextets_octets hlt ‹_› h, hmap]
  · cases h

end Raw

end Base64
