import Mathlib.Data.List.TakeWhile
import Chronicle.Store.Metadata

/-! # JSON bodies

A JSON body is checked against the grammar and split into messages: the
elements of a top-level array, or the value itself. Scanning a value returns
the bytes that follow it, so that an element is the span it was scanned from.
-/

namespace Chronicle

namespace Json

def isSpace (c : UInt8) : Bool := c = 32 || c = 9 || c = 10 || c = 13

def skipSpace (s : Bytes) : Bytes := s.dropWhile isSpace

def isHex (c : UInt8) : Bool :=
  Decimal.isDigit c || (97 ≤ c && c ≤ 102) || (65 ≤ c && c ≤ 70)

def scanString : Bytes → Option Bytes
  | [] => none
  | 34 :: s => some s
  | 92 :: 117 :: a :: b :: c :: d :: s =>
    if isHex a && isHex b && isHex c && isHex d then scanString s else none
  | 92 :: c :: s => if c ∈ Bytes.ascii "\"\\/bfnrt" then scanString s else none
  | c :: s => if c < 32 ∨ c = 92 then none else scanString s

def scanDigits : Bytes → Option Bytes
  | c :: s => if Decimal.isDigit c then some (s.dropWhile Decimal.isDigit) else none
  | [] => none

def scanExponent : Bytes → Option Bytes
  | c :: s =>
    if c = 101 ∨ c = 69 then
      match s with
      | 43 :: t => scanDigits t
      | 45 :: t => scanDigits t
      | t => scanDigits t
    else some (c :: s)
  | [] => some []

def scanFraction : Bytes → Option Bytes
  | 46 :: s => (scanDigits s).bind scanExponent
  | s => scanExponent s

/-- The bytes after a number without its sign; no digit may follow a leading zero. -/
def scanNumber : Bytes → Option Bytes
  | 48 :: s => scanFraction s
  | s => (scanDigits s).bind scanFraction

def scanLiteral (lit s : Bytes) : Option Bytes :=
  if lit <+: s then some (s.drop lit.length) else none

inductive Goal where
  | value
  | elements
  | members

/-- The bytes after a value, after the elements of an array whose first element
starts here, or after the members of an object whose first key starts here. The
second bound is the nesting that is still allowed. -/
def scan : ℕ → Goal → ℕ → Bytes → Option Bytes
  | 0, _, _, _ => none
  | _ + 1, .value, _, [] => none
  | f + 1, .value, d, c :: s =>
    if c = 123 then
      match d, skipSpace s with
      | 0, _ => none
      | _ + 1, 125 :: t => some t
      | d + 1, t => scan f .members d t
    else if c = 91 then
      match d, skipSpace s with
      | 0, _ => none
      | _ + 1, 93 :: t => some t
      | d + 1, t => scan f .elements d t
    else if c = 34 then scanString s
    else if c = 45 then scanNumber s
    else if c = 116 then scanLiteral (Bytes.ascii "rue") s
    else if c = 102 then scanLiteral (Bytes.ascii "alse") s
    else if c = 110 then scanLiteral (Bytes.ascii "ull") s
    else scanNumber (c :: s)
  | f + 1, .elements, d, s =>
    match (scan f .value d s).map skipSpace with
    | some (44 :: t) => scan f .elements d (skipSpace t)
    | some (93 :: t) => some t
    | _ => none
  | f + 1, .members, d, s =>
    match s with
    | 34 :: t =>
      match (scanString t).map skipSpace with
      | some (58 :: u) =>
        match (scan f .value d (skipSpace u)).map skipSpace with
        | some (44 :: v) => scan f .members d (skipSpace v)
        | some (125 :: v) => some v
        | _ => none
      | _ => none
    | _ => none

def maxNestingDepth : ℕ := 10000

def scanValue (s : Bytes) : Option Bytes := scan (2 * s.length + 1) .value maxNestingDepth s

def valid (data : Bytes) : Bool := (scanValue (skipSpace data)).map skipSpace == some []

def trimSpace (data : Bytes) : Bytes :=
  ((skipSpace data).reverse.dropWhile isSpace).reverse

/-- The elements of an array whose next element starts here, as raw spans. -/
def elementsFrom : ℕ → Bytes → Option (List Bytes)
  | 0, _ => none
  | f + 1, s =>
    (scanValue s).bind fun rest =>
      let elem := s.take (s.length - rest.length)
      match skipSpace rest with
      | 44 :: t => (elementsFrom f (skipSpace t)).map (elem :: ·)
      | 93 :: _ => some [elem]
      | _ => none

def unmarshalArray : Bytes → Option (List Bytes)
  | 91 :: s =>
    match skipSpace s with
    | 93 :: _ => some []
    | t => elementsFrom s.length t
  | _ => none

variable {s e t : Bytes}

section Reads

/-- The text does not go on with one of these bytes. -/
def Stops (more : UInt8 → Bool) (t : Bytes) : Prop := ∀ c ∈ t.head?, more c = false

def Ends (e : Bytes) : Prop := ∀ c ∈ e.getLast?, isSpace c = false

/-- The scanner reads off `e`, which does not end in white space, whatever stops it. -/
structure Reads (more : UInt8 → Bool) (scanner : Bytes → Option Bytes) (e : Bytes) : Prop where
  ends : Ends e
  stops : ∀ t, Stops more t → scanner (e ++ t) = some t

def inNumber (c : UInt8) : Bool := Decimal.isDigit c || c = 46 || c = 101 || c = 69

variable {r p : Bytes} {c : UInt8} {scanner scanner' : Bytes → Option Bytes}
  {more more' : UInt8 → Bool}

theorem Ends.append (he : Ends e) (hp : e = [] → Ends p) : Ends (p ++ e) := by
  intro c hc
  rw [List.getLast?_append] at hc
  cases hl : e.getLast? with
  | none =>
    rw [hl, Option.none_or] at hc
    exact hp (List.getLast?_eq_none_iff.mp hl) c hc
  | some x =>
    rw [hl, Option.some_or] at hc
    cases hc
    exact he c hl

theorem Stops.append (h : Stops more (e ++ r)) (ht : Stops more t) : Stops more (e ++ t) := by
  cases e with
  | nil => exact ht
  | cons c e => exact h

theorem Stops.imp (h : ∀ c, more' c = true → more c = true) (ht : Stops more t) : Stops more' t := by
  intro c hc
  by_contra hmore
  exact absurd (h c (by simpa using hmore)) (by simp [ht c hc])

/-- A scanner that goes on as another one after a prefix. -/
theorem Reads.after (h : Reads more scanner' e) (hp : e = [] → Ends p)
    (heq : ∀ t, scanner (p ++ (e ++ t)) = scanner' (e ++ t)) : Reads more scanner (p ++ e) where
  ends := h.ends.append hp
  stops t ht := by rw [List.append_assoc, heq, h.stops t ht]

theorem scanString_reads (h : scanString s = some r) :
    ∃ e, e ≠ [] ∧ s = e ++ r ∧ Reads (fun _ => false) scanString e := by
  fun_induction scanString s with
  | case1 => cases h
  | case2 s =>
    cases h
    exact ⟨[34], nofun, rfl, by simp [Ends, isSpace], fun t _ => rfl⟩
  | case3 a b c d s hhex ih =>
    obtain ⟨e, hne, rfl, he⟩ := ih h
    exact ⟨[92, 117, a, b, c, d] ++ e, by simp, rfl, he.after (absurd · hne) fun t => if_pos hhex⟩
  | case4 => cases h
  | case5 c s hc hmem ih =>
    obtain ⟨e, hne, rfl, he⟩ := ih h
    refine ⟨[92, c] ++ e, by simp, rfl, he.after (absurd · hne) fun t => ?_⟩
    have hu : c ≠ 117 := by
      rintro rfl
      exact absurd hmem (by decide)
    simp [scanString, hu, hmem]
  | case6 => cases h
  | case7 => cases h
  | case8 c s h34 hu hesc hnot ih =>
    obtain ⟨e, hne, rfl, he⟩ := ih h
    refine ⟨[c] ++ e, by simp, rfl, he.after (absurd · hne) fun t => ?_⟩
    rw [not_or] at hnot
    simp [scanString, hnot]

theorem isSpace_iff : isSpace c = true ↔ c = 32 ∨ c = 9 ∨ c = 10 ∨ c = 13 := by
  simp [isSpace, or_assoc]

theorem isDigit_not_space (h : Decimal.isDigit c = true) : isSpace c = false := by
  by_contra hspace
  rw [Bool.not_eq_false, isSpace_iff] at hspace
  rcases hspace with rfl | rfl | rfl | rfl <;> exact absurd h (by decide)

theorem scanDigits_reads (h : scanDigits s = some r) :
    ∃ e, e ≠ [] ∧ s = e ++ r ∧ Stops Decimal.isDigit r ∧ Reads Decimal.isDigit scanDigits e := by
  cases s with
  | nil => cases h
  | cons c s =>
    simp only [scanDigits, Option.ite_none_right_eq_some, Option.some.injEq] at h
    obtain ⟨hc, rfl⟩ := h
    refine ⟨c :: s.takeWhile Decimal.isDigit, nofun, ?_, fun d hd => ?_, fun d hd => ?_,
      fun t ht => ?_⟩
    · rw [List.cons_append, List.takeWhile_append_dropWhile]
    · have := List.head?_dropWhile_not Decimal.isDigit s
      rw [hd] at this
      simpa using this
    · rcases List.mem_cons.mp (List.mem_of_mem_getLast? hd) with rfl | hd
      · exact isDigit_not_space hc
      · exact isDigit_not_space (List.mem_takeWhile_imp hd)
    · rw [List.cons_append, scanDigits, if_pos hc,
        List.dropWhile_append_of_pos fun x hx => List.mem_takeWhile_imp hx]
      cases t with
      | nil => rfl
      | cons d t => rw [List.dropWhile_cons_of_neg (by simp [ht d rfl])]

theorem Reads.mono (h : Reads more' scanner e) (hmore : ∀ c, more' c = true → more c = true) :
    Reads more scanner e := ⟨h.ends, fun t ht => h.stops t (ht.imp hmore)⟩

theorem isDigit_inNumber (c : UInt8) (h : Decimal.isDigit c = true) : inNumber c = true := by
  simp [inNumber, h]

/-- Digits, and what another scanner reads behind them. -/
theorem digitsThen_reads (hscan : ∀ {s r}, scanner s = some r →
    ∃ e, s = e ++ r ∧ Reads inNumber scanner e) (h : (scanDigits s).bind scanner = some r) :
    ∃ e, e ≠ [] ∧ s = e ++ r ∧ Reads inNumber (fun s => (scanDigits s).bind scanner) e := by
  obtain ⟨u, hu, hr⟩ := Option.bind_eq_some_iff.mp h
  obtain ⟨e, hne, rfl, hstop, he⟩ := scanDigits_reads hu
  obtain ⟨e', rfl, he'⟩ := hscan hr
  refine ⟨e ++ e', by simp [hne], by simp, he'.ends.append fun _ => he.ends, fun t ht => ?_⟩
  rw [List.append_assoc, he.stops _ (hstop.append (ht.imp isDigit_inNumber)), Option.bind_some,
    he'.stops t ht]

theorem scanExponent_reads (h : scanExponent s = some r) :
    ∃ e, s = e ++ r ∧ Reads inNumber scanExponent e := by
  have hnil : Reads inNumber scanExponent [] := by
    refine ⟨nofun, fun t ht => ?_⟩
    cases t with
    | nil => rfl
    | cons d t =>
      have hd := ht d rfl
      simp only [inNumber, Bool.or_eq_false_iff, decide_eq_false_iff_not] at hd
      exact if_neg (by simp [hd])
  have hdigits {p u} (h : scanDigits u = some r)
      (heq : ∀ d v, u.head? = some d → scanExponent (p ++ d :: v) = scanDigits (d :: v)) :
      ∃ e, p ++ u = e ++ r ∧ Reads inNumber scanExponent e := by
    obtain ⟨e, hne, rfl, -, he⟩ := scanDigits_reads h
    refine ⟨p ++ e, by simp, (he.after (absurd · hne) fun t => ?_).mono isDigit_inNumber⟩
    cases e with
    | nil => exact absurd rfl hne
    | cons d e => exact heq d _ rfl
  unfold scanExponent at h
  split at h
  · rename_i c s
    split at h
    · rename_i hc
      split at h
      · exact hdigits (p := [c, 43]) h fun d v _ => if_pos hc
      · exact hdigits (p := [c, 45]) h fun d v _ => if_pos hc
      · rename_i hplus hminus
        refine hdigits (p := [c]) h fun d v hd => (if_pos hc).trans ?_
        obtain ⟨w, rfl⟩ : ∃ w, s = d :: w := ⟨_, List.eq_cons_of_mem_head? hd⟩
        split
        · rename_i heq
          cases heq
          exact absurd rfl (hplus _)
        · rename_i heq
          cases heq
          exact absurd rfl (hminus _)
        · rfl
    · cases h
      exact ⟨[], rfl, hnil⟩
  · cases h
    exact ⟨[], rfl, hnil⟩

theorem scanFraction_reads (h : scanFraction s = some r) :
    ∃ e, s = e ++ r ∧ Reads inNumber scanFraction e := by
  have hother {s : Bytes} (hs : Stops (· = 46) s) : scanFraction s = scanExponent s := by
    unfold scanFraction
    split
    · exact absurd (hs 46 rfl) (by decide)
    · rfl
  by_cases hdot : Stops (· = 46) s
  · rw [hother hdot] at h
    obtain ⟨e, rfl, he⟩ := scanExponent_reads h
    refine ⟨e, rfl, he.ends, fun t ht => ?_⟩
    rw [hother (hdot.append (ht.imp (by simp +contextual [inNumber]))), he.stops t ht]
  · unfold scanFraction at h
    split at h
    · obtain ⟨e, hne, rfl, he⟩ := digitsThen_reads scanExponent_reads h
      exact ⟨[46] ++ e, rfl, he.after (absurd · hne) fun t => rfl⟩
    · rename_i hne
      refine absurd (fun c hc => ?_) hdot
      exact decide_eq_false fun heq => hne _ (heq ▸ List.eq_cons_of_mem_head? hc)

theorem scanNumber_reads (h : scanNumber s = some r) :
    ∃ e, e ≠ [] ∧ s = e ++ r ∧ Reads inNumber scanNumber e := by
  unfold scanNumber at h
  split at h
  · obtain ⟨e, rfl, he⟩ := scanFraction_reads h
    exact ⟨[48] ++ e, by simp, rfl, he.after (fun _ => by simp [Ends, isSpace]) fun t => rfl⟩
  · rename_i hzero
    obtain ⟨e, hne, rfl, he⟩ := digitsThen_reads scanFraction_reads h
    refine ⟨e, hne, rfl, he.ends, fun t ht => ?_⟩
    cases e with
    | nil => exact absurd rfl hne
    | cons d e =>
      rw [← he.stops t ht]
      unfold scanNumber
      split
      · rename_i heq
        cases heq
        exact absurd rfl (hzero _)
      · rfl

theorem scanLiteral_reads {lit : Bytes} (h : scanLiteral lit s = some r) :
    s = lit ++ r ∧ ∀ t, scanLiteral lit (lit ++ t) = some t := by
  simp only [scanLiteral, Option.ite_none_right_eq_some, Option.some.injEq] at h
  obtain ⟨⟨u, rfl⟩, rfl⟩ := h
  simp [scanLiteral]

/-- White space in front of a byte is skipped whatever follows the byte. -/
theorem skipSpace_reads {u : Bytes} (h : skipSpace s = c :: u) :
    ∃ ws, s = ws ++ c :: u ∧ (∀ v, skipSpace (ws ++ c :: v) = c :: v) ∧
      (inNumber c = false → ∀ v, Stops inNumber (ws ++ c :: v)) := by
  have hc : isSpace c = false := by
    have := List.head?_dropWhile_not isSpace s
    rw [show s.dropWhile isSpace = c :: u from h] at this
    simpa using this
  have hspace : ∀ x ∈ s.takeWhile isSpace, isSpace x = true := fun x hx => List.mem_takeWhile_imp hx
  refine ⟨s.takeWhile isSpace, ?_, fun v => ?_, fun hmore v => ?_⟩
  · rw [← h]
    exact List.takeWhile_append_dropWhile.symm
  · rw [skipSpace, List.dropWhile_append_of_pos hspace, List.dropWhile_cons_of_neg (by simp [hc])]
  · cases hw : s.takeWhile isSpace with
    | nil =>
      rintro d ⟨⟩
      exact hmore
    | cons w ws =>
      rintro d ⟨⟩
      rcases isSpace_iff.mp (hspace w (by simp [hw])) with rfl | rfl | rfl | rfl <;> decide

theorem skipTo_reads (h : skipSpace s = e ++ r) (hne : e ≠ []) :
    ∃ ws, s = ws ++ (e ++ r) ∧ ∀ t, skipSpace (ws ++ (e ++ t)) = e ++ t := by
  cases e with
  | nil => exact absurd rfl hne
  | cons c e =>
    obtain ⟨ws, hs, hskip, -⟩ := skipSpace_reads h
    exact ⟨ws, hs, fun t => hskip (e ++ t)⟩

theorem ends_byte (hc : isSpace c = false) : Ends (p ++ [c]) :=
  Ends.append (by simpa [Ends] using hc) nofun

/-- What a goal reads is read with any bound that is large enough. -/
def Scans (g : Goal) (d : ℕ) (e : Bytes) : Prop :=
  e ≠ [] ∧ ∀ f, 2 * e.length ≤ f → Reads inNumber (scan f g d) e

theorem Scans.of_succ {g : Goal} {d : ℕ} (hne : e ≠ [])
    (h : ∀ f, 2 * e.length ≤ f + 1 → Reads inNumber (scan (f + 1) g d) e) : Scans g d e := by
  refine ⟨hne, fun f hf => ?_⟩
  cases f with
  | zero => exact absurd hf (by simpa using hne)
  | succ f => exact h f hf

/-- A container: its opening byte, white space, and its items or its closing byte. -/
theorem open_scans {g : Goal} {f d : ℕ} {o q : UInt8}
    (hopen : ∀ f s, scan (f + 1) .value (d + 1) (o :: s) =
      if (skipSpace s).head? = some q then some (skipSpace s).tail else scan f g d (skipSpace s))
    (hq : isSpace q = false) (ih : ∀ {s r}, scan f g d s = some r → ∃ e, s = e ++ r ∧ Scans g d e)
    (h : scan (f + 1) .value (d + 1) (o :: s) = some r) :
    ∃ e, o :: s = e ++ r ∧ Scans .value (d + 1) e := by
  rw [hopen] at h
  split at h
  · rename_i hhead
    cases h
    obtain ⟨ws, hs, hskip, -⟩ := skipSpace_reads (List.eq_cons_of_mem_head? hhead)
    refine ⟨o :: ws ++ [q], by simpa using hs, .of_succ (by simp) fun f _ => ⟨?_, fun t _ => ?_⟩⟩
    · exact ends_byte hq
    · rw [List.append_assoc, List.cons_append, List.singleton_append, hopen, hskip]
      exact if_pos rfl
  · rename_i hhead
    obtain ⟨e, hs, hne, he⟩ := ih h
    obtain ⟨ws, rfl, hskip⟩ := skipTo_reads hs hne
    refine ⟨o :: ws ++ e, by simp, .of_succ (by simp) fun f hf => ?_⟩
    refine (he f (by simp at hf; omega)).after (absurd · hne) fun t => ?_
    rw [List.cons_append, hopen, hskip, if_neg]
    rw [hs] at hhead
    cases e with
    | nil => exact absurd rfl hne
    | cons c e => exact hhead

/-- A value, white space, and a byte behind it. -/
theorem value_reads {f d : ℕ} {u : Bytes}
    (ih : ∀ {s r}, scan f .value d s = some r → ∃ e, s = e ++ r ∧ Scans .value d e)
    (h : (scan f .value d s).map skipSpace = some (c :: u)) (hc : inNumber c = false) :
    ∃ e, e ≠ [] ∧ s = e ++ c :: u ∧ ∀ f, 2 * e.length ≤ f → ∀ v,
      (scan f .value d (e ++ c :: v)).map skipSpace = some (c :: v) := by
  obtain ⟨w, hw, hskip⟩ := Option.map_eq_some_iff.mp h
  obtain ⟨e, rfl, hne, he⟩ := ih hw
  obtain ⟨ws, rfl, hws, hstop⟩ := skipSpace_reads hskip
  refine ⟨e ++ ws, by simp [hne], by simp, fun f hf v => ?_⟩
  rw [List.append_assoc, (he f (by simp at hf; omega)).stops _ (hstop hc v), Option.map_some, hws]

theorem scan_reads {f d : ℕ} {g : Goal} (h : scan f g d s = some r) :
    ∃ e, s = e ++ r ∧ Scans g d e := by
  induction f generalizing g d s r with
  | zero => cases h
  | succ f ih =>
    cases g with
    | value =>
      cases s with
      | nil => cases h
      | cons c s =>
        have hliteral {lit : Bytes} (h : scanLiteral lit s = some r) (hends : Ends (c :: lit))
            (heq : ∀ f u, scan (f + 1) .value d (c :: u) = scanLiteral lit u) :
            ∃ e, c :: s = e ++ r ∧ Scans .value d e := by
          obtain ⟨rfl, he⟩ := scanLiteral_reads h
          exact ⟨c :: lit, rfl, .of_succ nofun fun f _ => ⟨hends, fun t _ => (heq f _).trans (he t)⟩⟩
        have hscan := h
        simp only [scan] at h
        split_ifs at h with hobj harr hstr hneg htrue hfalse hnull
        · cases d with
          | zero => cases h
          | succ d =>
            refine open_scans (q := 125) (g := .members) (fun f s => ?_) (by decide) ih hscan
            simp only [scan, hobj, if_true]
            rcases skipSpace s with _ | ⟨x, u⟩
            · rfl
            · by_cases hx : x = 125 <;> simp [hx]
        · cases d with
          | zero => cases h
          | succ d =>
            refine open_scans (q := 93) (g := .elements) (fun f s => ?_) (by decide) ih hscan
            simp only [scan, harr, if_true]
            rcases skipSpace s with _ | ⟨x, u⟩
            · rfl
            · by_cases hx : x = 93 <;> simp [hx]
        · obtain ⟨e, hne, rfl, he⟩ := scanString_reads h
          refine ⟨[c] ++ e, rfl, .of_succ (by simp) fun f _ => ?_⟩
          exact (he.mono nofun).after (absurd · hne) fun t => by simp [scan, hstr]
        · obtain ⟨e, hne, rfl, he⟩ := scanNumber_reads h
          refine ⟨[c] ++ e, rfl, .of_succ (by simp) fun f _ => ?_⟩
          exact he.after (absurd · hne) fun t => by simp [scan, hneg]
        · exact hliteral h (ends_byte (p := [c, 114, 117]) (by decide)) (by simp [scan, htrue])
        · exact hliteral h (ends_byte (p := [c, 97, 108, 115]) (by decide)) (by simp [scan, hfalse])
        · exact hliteral h (ends_byte (p := [c, 117, 108]) (by decide)) (by simp [scan, hnull])
        · obtain ⟨e, hne, heq, he⟩ := scanNumber_reads h
          refine ⟨e, heq, .of_succ hne fun f _ => ⟨he.ends, fun t ht => ?_⟩⟩
          cases e with
          | nil => exact absurd rfl hne
          | cons x e =>
            cases heq
            rw [← he.stops t ht]
            simp [scan, hobj, harr, hstr, hneg, htrue, hfalse, hnull]
    | elements =>
      simp only [scan] at h
      split at h
      · rename_i t hval
        obtain ⟨e₁, hne₁, rfl, he₁⟩ := value_reads ih hval (by decide)
        obtain ⟨e₂, hs, hne₂, he₂⟩ := ih h
        obtain ⟨ws, rfl, hskip⟩ := skipTo_reads hs hne₂
        refine ⟨e₁ ++ 44 :: ws ++ e₂, by simp, .of_succ (by simp) fun f hf => ?_⟩
        simp only [List.length_append, List.length_cons] at hf
        refine (he₂ f (by omega)).after (absurd · hne₂) fun t => ?_
        rw [scan, List.append_assoc, List.cons_append, he₁ f (by omega)]
        exact congrArg (scan f .elements d) (hskip t)
      · rename_i t hval
        cases h
        obtain ⟨e, hne, rfl, he⟩ := value_reads ih hval (by decide)
        refine ⟨e ++ [93], by simp, .of_succ (by simp) fun f hf => ⟨?_, fun t _ => ?_⟩⟩
        · exact ends_byte (by decide)
        · rw [scan, List.append_assoc, List.singleton_append, he f (by simp at hf; omega)]
          rfl
      · cases h
    | members =>
      simp only [scan] at h
      split at h
      · split at h
        · rename_i u hkey
          obtain ⟨w, hw, hcolon⟩ := Option.map_eq_some_iff.mp hkey
          obtain ⟨k, hk, rfl, hreads⟩ := scanString_reads hw
          obtain ⟨ws, rfl, hws, -⟩ := skipSpace_reads hcolon
          have hkey' : ∀ v, (scanString (k ++ (ws ++ 58 :: v))).map skipSpace = some (58 :: v) := by
            intro v
            rw [hreads.stops _ fun _ _ => rfl, Option.map_some, hws]
          split at h
          · rename_i v hval
            obtain ⟨e₁, hne₁, hs₁, he₁⟩ := value_reads ih hval (by decide)
            obtain ⟨e₂, hs₂, hne₂, he₂⟩ := ih h
            obtain ⟨ws₁, rfl, hskip₁⟩ := skipTo_reads hs₁ hne₁
            obtain ⟨ws₂, rfl, hskip₂⟩ := skipTo_reads hs₂ hne₂
            refine ⟨34 :: k ++ ws ++ 58 :: ws₁ ++ e₁ ++ 44 :: ws₂ ++ e₂, by simp,
              .of_succ (by simp) fun f hf => ?_⟩
            simp only [List.length_append, List.length_cons] at hf
            refine (he₂ f (by omega)).after (absurd · hne₂) fun t => ?_
            simp only [List.append_assoc, List.cons_append, scan, hkey', hskip₁, he₁ f (by omega),
              hskip₂]
          · rename_i v hval
            cases h
            obtain ⟨e₁, hne₁, hs₁, he₁⟩ := value_reads ih hval (by decide)
            obtain ⟨ws₁, rfl, hskip₁⟩ := skipTo_reads hs₁ hne₁
            refine ⟨34 :: k ++ ws ++ 58 :: ws₁ ++ e₁ ++ [125], by simp,
              .of_succ (by simp) fun f hf => ⟨?_, fun t _ => ?_⟩⟩
            · exact ends_byte (by decide)
            · simp only [List.length_append, List.length_cons] at hf
              simp only [List.append_assoc, List.cons_append, List.nil_append, scan, hkey', hskip₁,
                he₁ f (by omega)]
          · cases h
        · cases h
      · cases h

end Reads

section Values

/-- A JSON value of at most the nesting that is allowed. -/
def IsValue (e : Bytes) : Prop := Scans .value maxNestingDepth e

theorem IsValue.scanValue (h : IsValue e) (ht : Stops inNumber t) :
    scanValue (e ++ t) = some t :=
  (h.2 _ (by simp; omega)).stops t ht

theorem elementsFrom_values {f : ℕ} {l : List Bytes} (h : elementsFrom f s = some l) :
    ∀ e ∈ l, IsValue e := by
  induction f generalizing s l with
  | zero => cases h
  | succ f ih =>
    obtain ⟨rest, hr, h⟩ := Option.bind_eq_some_iff.mp h
    obtain ⟨e, rfl, he⟩ := scan_reads hr
    rw [List.length_append, Nat.add_sub_cancel, List.take_left] at h
    split at h
    · obtain ⟨l', hl', rfl⟩ := Option.map_eq_some_iff.mp h
      exact List.forall_mem_cons.mpr ⟨he, ih hl'⟩
    · cases h
      exact List.forall_mem_singleton.mpr he
    · cases h

theorem unmarshalArray_values {l : List Bytes} (h : unmarshalArray s = some l) :
    ∀ e ∈ l, IsValue e := by
  unfold unmarshalArray at h
  split at h
  · split at h
    · cases h
      nofun
    · exact elementsFrom_values h
  · cases h

theorem trimSpace_value (h : valid s) : IsValue (trimSpace s) := by
  rw [valid, beq_iff_eq] at h
  obtain ⟨u, hu, hspace⟩ := Option.map_eq_some_iff.mp h
  obtain ⟨e, hs, he⟩ := scan_reads hu
  have hall : ∀ c ∈ u.reverse, isSpace c = true := fun c hc =>
    List.dropWhile_eq_nil_iff.mp hspace c (List.mem_reverse.mp hc)
  have hends : e.reverse.dropWhile isSpace = e.reverse := by
    have hlast := (he.2 _ le_rfl).ends
    rw [Ends, ← List.head?_reverse] at hlast
    cases hr : e.reverse with
    | nil => rfl
    | cons c l => rw [List.dropWhile_cons_of_neg (by simp [hlast c (by simp [hr])])]
  rw [trimSpace, hs, List.reverse_append, List.dropWhile_append_of_pos hall, hends,
    List.reverse_reverse]
  exact he

end Values

end Json

/-- Validate a JSON body and split it into messages. A top-level array is
flattened one level; an empty one is an error unless explicitly allowed. -/
def processJSONAppend (data : Bytes) (allowEmpty : Bool) : Except StoreError (List Bytes) :=
  if ¬ Json.valid data then .error .invalidJSON
  else
    let trimmed := Json.trimSpace data
    if trimmed.head? = some 91 then
      match Json.unmarshalArray trimmed with
      | none => .error .invalidJSON
      | some [] => if allowEmpty then .ok [] else .error .emptyJSONArray
      | some arr => .ok arr
    else .ok [trimmed]

variable {data : Bytes} {msgs : List Bytes}

theorem processJSONAppend_values {allowEmpty : Bool}
    (h : processJSONAppend data allowEmpty = .ok msgs) : ∀ m ∈ msgs, Json.IsValue m := by
  unfold processJSONAppend at h
  split at h
  · cases h
  · rename_i hv
    dsimp only at h
    split at h
    · split at h
      · cases h
      · split at h <;> cases h
        simp
      · cases h
        exact Json.unmarshalArray_values ‹_›
    · cases h
      exact List.forall_mem_singleton.mpr (Json.trimSpace_value (by simpa using hv))

theorem processJSONAppend_ne_nil {allowEmpty : Bool}
    (h : processJSONAppend data allowEmpty = .ok msgs) : ∀ m ∈ msgs, m ≠ [] :=
  fun m hm => (processJSONAppend_values h m hm).1

theorem processJSONAppend_nonempty (h : processJSONAppend data false = .ok msgs) : msgs ≠ [] := by
  unfold processJSONAppend at h
  split at h
  · cases h
  · dsimp only at h
    split at h
    · split at h
      · cases h
      · split at h <;> cases h
        contradiction
      · cases h; simp_all
    · cases h; simp

example : processJSONAppend (Bytes.ascii " [1, \x7b\"a\":[]\x7d] ") false =
    .ok [Bytes.ascii "1", Bytes.ascii "\x7b\"a\":[]\x7d"] := by decide

end Chronicle
