import Mathlib.Data.List.TakeWhile
import Chronicle.Auth.Policy

/-! # The client certificate header of a mesh

Every hop appends an element to the header, and only the last element counts. The
header is read with the quoting rules of the proxy and refused as a whole where it
breaks them, so what a client puts in front of the last comma cannot move it: a
quote that is open at the comma stays open to the end.
-/

namespace Chronicle.Auth

inductive XfccReason where
  | unterminatedQuote
  | misplacedQuote
  | trailingAfterQuote
  deriving DecidableEq, Repr

def XfccReason.text : XfccReason → String
  | .unterminatedQuote => "unterminated quoted value"
  | .misplacedQuote => "double quote outside a quoted value"
  | .trailingAfterQuote => "data after a quoted value"

def xfccErr (reason : XfccReason) : String :=
  "malformed X-Forwarded-Client-Cert: " ++ reason.text

structure XfccPair where
  key : Bytes
  value : Bytes
  deriving DecidableEq, Repr

abbrev XfccElement := List XfccPair

section Scan

def isSeparator (c : UInt8) : Bool := c = 59 || c = 44

def isBlank (c : UInt8) : Bool := c = 32 || c = 9

def skipXFCCBlanks (s : Bytes) : Bytes := s.dropWhile isBlank

/-- Read up to a byte at which to stop, without a quote on the way. -/
def scanPlain (stop : UInt8 → Bool) : Bytes → Except XfccReason (Bytes × Bytes)
  | [] => .ok ([], [])
  | c :: s =>
    if stop c then .ok ([], c :: s)
    else if c = 34 then .error .misplacedQuote
    else (scanPlain stop s).map fun (k, r) => (c :: k, r)

def scanKey : Bytes → Except XfccReason (Bytes × Bytes) :=
  scanPlain fun c => c = 61 || isSeparator c

def scanUnquoted : Bytes → Except XfccReason (Bytes × Bytes) := scanPlain isSeparator

/-- Read up to the closing quote; a backslash keeps the byte after it. -/
def scanQuoted : Bytes → Except XfccReason (Bytes × Bytes)
  | [] => .error .unterminatedQuote
  | [92] => .error .unterminatedQuote
  | 92 :: c :: s => (scanQuoted s).map fun (v, r) => (c :: v, r)
  | 34 :: s => .ok ([], s)
  | c :: s => (scanQuoted s).map fun (v, r) => (c :: v, r)

variable (trimSpace : Bytes → Bytes)

def scanValue (s : Bytes) : Except XfccReason (Bytes × Bytes) :=
  match skipXFCCBlanks s with
  | 34 :: s =>
    match scanQuoted s with
    | .error e => .error e
    | .ok (v, r) =>
      let r := skipXFCCBlanks r
      if r.head?.all isSeparator then .ok (v, r) else .error .trailingAfterQuote
  | s => (scanUnquoted s).map fun (v, r) => (trimSpace v, r)

/-- Read one pair; without an equals sign it carries nothing. -/
def scanPair (s : Bytes) : Except XfccReason (Option XfccPair × Bytes) :=
  match scanKey s with
  | .error e => .error e
  | .ok (key, 61 :: r) =>
    (scanValue trimSpace r).map fun (value, r) => (some ⟨trimSpace key, value⟩, r)
  | .ok (_, r) => .ok (none, r)

end Scan

variable {s t r v : Bytes} {trimSpace : Bytes → Bytes}

section Consumed

variable {k : Bytes} {pair : Option XfccPair}

theorem map_eq_ok {ε α β : Type} {x : Except ε α} {f : α → β} {b : β} :
    x.map f = .ok b ↔ ∃ a, x = .ok a ∧ f a = b := by
  cases x <;> simp [Except.map]

theorem scanPlain_ok {stop : UInt8 → Bool} (h : scanPlain stop s = .ok (k, r)) :
    s = k ++ r ∧ 34 ∉ k ∧ (∀ c ∈ k, stop c = false) ∧ r.head?.all stop = true := by
  induction s generalizing k with
  | nil =>
    cases h
    simp
  | cons c s ih =>
    rw [scanPlain] at h
    split at h
    · rename_i hc
      cases h
      simp [hc]
    rename_i hc
    split at h
    · cases h
    rename_i hq
    obtain ⟨⟨k', r'⟩, hs, heq⟩ := map_eq_ok.mp h
    cases heq
    obtain ⟨rfl, hk, hstop, hr⟩ := ih hs
    refine ⟨rfl, ?_, ?_, hr⟩
    · rw [List.mem_cons, not_or]
      exact ⟨Ne.symm hq, hk⟩
    · rw [List.forall_mem_cons]
      exact ⟨eq_false_of_ne_true hc, hstop⟩

theorem skipXFCCBlanks_eq (s : Bytes) :
    ∃ b, s = b ++ skipXFCCBlanks s ∧ ∀ c ∈ b, isBlank c = true := by
  refine ⟨s.takeWhile isBlank, List.takeWhile_append_dropWhile.symm, ?_⟩
  intro c hc
  exact List.mem_takeWhile_imp hc

theorem scanQuoted_closed (h : scanQuoted s = .ok (v, r)) : ∃ t, s = t ++ 34 :: r := by
  fun_induction scanQuoted s generalizing v with
  | case1 => cases h
  | case2 => cases h
  | case3 c s ih =>
    obtain ⟨p, hs, heq⟩ := map_eq_ok.mp h
    cases heq
    obtain ⟨t, rfl⟩ := ih hs
    exact ⟨92 :: c :: t, rfl⟩
  | case4 s =>
    cases h
    exact ⟨[], rfl⟩
  | case5 c s _ _ _ ih =>
    obtain ⟨p, hs, heq⟩ := map_eq_ok.mp h
    cases heq
    obtain ⟨t, rfl⟩ := ih hs
    exact ⟨c :: t, rfl⟩

theorem scanValue_ok (h : scanValue trimSpace s = .ok (v, r)) :
    ∃ b, (∀ c ∈ b, isBlank c = true) ∧ r.head?.all isSeparator = true ∧
      ((∃ t q, s = b ++ 34 :: t ∧ scanQuoted t = .ok (v, q) ∧ r = skipXFCCBlanks q) ∨
        ∃ k, s = b ++ (k ++ r) ∧ 34 ∉ k ∧ ∀ c ∈ k, isSeparator c = false) := by
  obtain ⟨b, hb, hblank⟩ := skipXFCCBlanks_eq s
  refine ⟨b, hblank, ?_⟩
  unfold scanValue at h
  split at h
  · rename_i t ht
    split at h
    · cases h
    rename_i w q hq
    dsimp only at h
    split at h
    · rename_i hsep
      cases h
      exact ⟨hsep, .inl ⟨t, q, ht ▸ hb, hq, rfl⟩⟩
    · cases h
  · obtain ⟨⟨k, r'⟩, hk, heq⟩ := map_eq_ok.mp h
    cases heq
    obtain ⟨hs, hquote, hstop, hr⟩ := scanPlain_ok hk
    exact ⟨hr, .inr ⟨k, hs ▸ hb, hquote, hstop⟩⟩

theorem scanPair_ok (h : scanPair trimSpace s = .ok (pair, r)) :
    r.head?.all isSeparator = true ∧
      ((∃ k b t v q, s = k ++ b ++ 34 :: t ∧ 34 ∉ k ∧ (∀ c ∈ k, isSeparator c = false) ∧
          k.getLast? = some 61 ∧ (∀ c ∈ b, isBlank c = true) ∧
          scanQuoted t = .ok (v, q) ∧ r = skipXFCCBlanks q) ∨
        ∃ k, s = k ++ r ∧ 34 ∉ k ∧ ∀ c ∈ k, isSeparator c = false) := by
  unfold scanPair at h
  split at h
  · cases h
  · rename_i key u hkey
    obtain ⟨rfl, hquote, hstop, -⟩ := scanPlain_ok hkey
    have hkstop : ∀ c ∈ key ++ [61], isSeparator c = false := by
      intro c hc
      rw [List.mem_append, List.mem_singleton] at hc
      obtain hc | rfl := hc
      · have := hstop c hc
        simp_all
      · rfl
    have hkquote : 34 ∉ key ++ [61] := by simp [hquote]
    obtain ⟨⟨w, r'⟩, hvalue, heq⟩ := map_eq_ok.mp h
    cases heq
    obtain ⟨b, hblank, hr, ⟨t, q, rfl, hq, hrest⟩ | ⟨k, rfl, hk, hsep⟩⟩ := scanValue_ok hvalue
    · exact ⟨hr, .inl ⟨key ++ [61], b, t, w, q, by simp, hkquote, hkstop, by simp, hblank, hq,
        hrest⟩⟩
    · refine ⟨hr, .inr ⟨key ++ [61] ++ b ++ k, by simp, ?_, ?_⟩⟩
      · have hb : 34 ∉ b := fun hmem => absurd (hblank 34 hmem) (by decide)
        simp [hquote, hb, hk]
      · have hb : ∀ c ∈ b, isSeparator c = false := by
          intro c hc
          have := hblank c hc
          grind [isBlank, isSeparator]
        grind
  · rename_i key u hne hkey
    cases h
    obtain ⟨rfl, hquote, hstop, hr⟩ := scanPlain_ok hkey
    refine ⟨?_, .inr ⟨key, rfl, hquote, ?_⟩⟩
    · cases r with
      | nil => rfl
      | cons c r =>
        have hc : c ≠ 61 := fun h => hne r (by rw [h])
        simpa [hc] using hr
    · intro c hc
      have := hstop c hc
      simp_all

theorem scanPair_length (h : scanPair trimSpace s = .ok (pair, r)) :
    r.length ≤ s.length := by
  obtain ⟨-, ⟨k, b, t, v, q, rfl, -, -, -, -, hq, rfl⟩ | ⟨k, rfl, -, -⟩⟩ := scanPair_ok h
  · obtain ⟨t, rfl⟩ := scanQuoted_closed hq
    have hdrop : (skipXFCCBlanks q).length ≤ q.length := List.length_dropWhile_le ..
    simp only [List.length_append, List.length_cons]
    omega
  · simp

end Consumed

section Parse

variable (trimSpace : Bytes → Bytes)

/-- Read the remaining pairs behind the elements, and the pairs of an element, that are done. -/
def parseFrom (elements : List XfccElement) (element : XfccElement) (s : Bytes) :
    Except XfccReason (List XfccElement) :=
  match _h : scanPair trimSpace s with
  | .error e => .error e
  | .ok (pair, []) => .ok (elements ++ [element ++ pair.toList])
  | .ok (pair, c :: r) =>
    if c = 44 then parseFrom (elements ++ [element ++ pair.toList]) [] r
    else parseFrom elements (element ++ pair.toList) r
termination_by s.length
decreasing_by
  all_goals
    have := scanPair_length _h
    simp only [List.length_cons] at this
    omega

def parseXFCC (s : Bytes) : Except XfccReason (List XfccElement) := parseFrom trimSpace [] [] s

end Parse

section Verify

variable (trimSpace : Bytes → Bytes) (equalFold : Bytes → Bytes → Bool)

def XfccElement.uris (e : XfccElement) : List Bytes :=
  (e.filter fun p => equalFold p.key (Bytes.ascii "URI") && p.value ≠ []).map (·.value)

def verifyXFCC (header : Bytes) (trusted : List Bytes) : Except String (Option Principal) :=
  if header = [] ∨ trusted = [] then .ok none
  else
    match parseXFCC trimSpace header with
    | .error e => .error (xfccErr e)
    | .ok elements =>
      let last := elements.getLast?.getD []
      .ok (((XfccElement.uris equalFold last).find? (· ∈ trusted)).map
        fun uri => { kind := .service, subject := uri })

end Verify

section Quotes

variable {u q : Bytes} {c : UInt8}

variable (trimSpace) in
/-- The pairs from here on are read without an error. -/
def Parses (s : Bytes) : Prop :=
  ∃ elements element res, parseFrom trimSpace elements element s = .ok res

variable (trimSpace) in
def Continues (r : Bytes) : Prop := ∀ c t, r = c :: t → Parses trimSpace t

variable (trimSpace) in
/-- What is read from inside a quote on is read without an error. -/
def Closes (s : Bytes) : Prop :=
  ∃ v q, scanQuoted s = .ok (v, q) ∧ (skipXFCCBlanks q).head?.all isSeparator = true ∧
    Continues trimSpace (skipXFCCBlanks q)

theorem parseFrom_ok {elements res : List XfccElement} {element : XfccElement}
    (h : parseFrom trimSpace elements element s = .ok res) :
    ∃ pair r, scanPair trimSpace s = .ok (pair, r) ∧ Continues trimSpace r ∧
      ((r = [] ∧ res = elements ++ [element ++ pair.toList]) ∨
        (∃ t, r = 44 :: t ∧
          parseFrom trimSpace (elements ++ [element ++ pair.toList]) [] t = .ok res) ∨
        ∃ c t, c ≠ 44 ∧ r = c :: t ∧
          parseFrom trimSpace elements (element ++ pair.toList) t = .ok res) := by
  rw [parseFrom] at h
  split at h
  · cases h
  · rename_i pair hscan
    cases h
    exact ⟨pair, [], hscan, nofun, .inl ⟨rfl, rfl⟩⟩
  · rename_i pair c t hscan
    split at h
    · rename_i hc
      refine ⟨pair, c :: t, hscan, ?_, .inr (.inl ⟨t, by rw [hc], h⟩)⟩
      rintro _ _ heq
      cases heq
      exact ⟨_, _, _, h⟩
    · rename_i hc
      refine ⟨pair, c :: t, hscan, ?_, .inr (.inr ⟨c, t, hc, rfl, h⟩)⟩
      rintro _ _ heq
      cases heq
      exact ⟨_, _, _, h⟩

theorem mem_of_scanQuoted (h : scanQuoted s = .ok (v, q)) : 34 ∈ s := by
  obtain ⟨t, rfl⟩ := scanQuoted_closed h
  simp

theorem scanQuoted_cons (hq : c ≠ 34) (hb : c ≠ 92) (t : Bytes) :
    scanQuoted (c :: t) = (scanQuoted t).map fun (v, r) => (c :: v, r) := by
  rw [scanQuoted]
  · exact fun h => absurd h hb
  · exact fun _ _ h => absurd h hb
  · exact hq

theorem scanQuoted_append (hq : c ≠ 34) (hb : c ≠ 92) (h : scanQuoted (s ++ c :: t) = .ok (v, q)) :
    (∃ s₁ r, s = s₁ ++ 34 :: r ∧ q = r ++ c :: t) ∨ ∃ v', scanQuoted t = .ok (v', q) := by
  induction s using scanQuoted.induct generalizing v with
  | case1 =>
    rw [List.nil_append, scanQuoted_cons hq hb] at h
    obtain ⟨⟨v', q'⟩, ht, heq⟩ := map_eq_ok.mp h
    cases heq
    exact .inr ⟨v', ht⟩
  | case2 =>
    -- the backslash keeps the byte
    obtain ⟨⟨v', q'⟩, ht, heq⟩ := map_eq_ok.mp h
    cases heq
    exact .inr ⟨v', ht⟩
  | case3 d s ih =>
    obtain ⟨⟨v', q'⟩, hs, heq⟩ := map_eq_ok.mp h
    cases heq
    obtain ⟨s₁, r, rfl, hr⟩ | hopen := ih hs
    · exact .inl ⟨92 :: d :: s₁, r, rfl, hr⟩
    · exact .inr hopen
  | case4 s =>
    cases h
    exact .inl ⟨[], s, rfl, rfl⟩
  | case5 d s hlast hpair hquote ih =>
    have hd : d ≠ 92 := by
      rintro rfl
      cases s with
      | nil => exact hlast rfl rfl
      | cons a s => exact hpair a s rfl rfl
    rw [List.cons_append, scanQuoted_cons hquote hd] at h
    obtain ⟨⟨v', q'⟩, hs, heq⟩ := map_eq_ok.mp h
    cases heq
    obtain ⟨s₁, r, rfl, hr⟩ | hopen := ih hs
    · exact .inl ⟨d :: s₁, r, rfl, hr⟩
    · exact .inr hopen

theorem scanQuoted_through (hs : 34 ∉ s) (hq : c ≠ 34) (hb : c ≠ 92)
    (h : scanQuoted (s ++ c :: t) = .ok (v, q)) : ∃ v', scanQuoted t = .ok (v', q) := by
  obtain ⟨s₁, r, rfl, -⟩ | hopen := scanQuoted_append hq hb h
  · simp at hs
  · exact hopen

theorem align {k : Bytes} (h : s ++ c :: t = k ++ r) (hc : c ∉ k) :
    ∃ r', s = k ++ r' ∧ r = r' ++ c :: t := by
  obtain ⟨as, rfl, hr⟩ | ⟨bs, rfl, hr⟩ := List.append_eq_append_iff.mp h
  · cases as with
    | nil => exact ⟨[], by simp, by simpa using hr.symm⟩
    | cons a as =>
      cases hr
      simp at hc
  · exact ⟨bs, rfl, hr⟩

theorem blank_ne {b : Bytes} (hb : ∀ c ∈ b, isBlank c = true) (hc : isBlank c = false) :
    c ∉ b := by
  intro hmem
  rw [hb c hmem] at hc
  cases hc

theorem Parses.opens (h : Parses trimSpace (u ++ 34 :: t)) (hu : 34 ∉ u) :
    (∃ u' c, u = u' ++ [c] ∧ c ≠ 34 ∧ c ≠ 92) ∧ Closes trimSpace t := by
  induction hn : u.length using Nat.strong_induction_on generalizing u with
  | _ n ih =>
    obtain ⟨_, _, _, hparse⟩ := h
    obtain ⟨pair, r, hscan, hcont, -⟩ := parseFrom_ok hparse
    obtain ⟨hsep, ⟨k, b, t', v, q, heq, hk, -, hlast, hb, hquote, rfl⟩ | ⟨k, heq, hk, -⟩⟩ :=
      scanPair_ok hscan
    · have hkb : 34 ∉ k ++ b := by
        rw [List.mem_append, not_or]
        exact ⟨hk, blank_ne hb (by decide)⟩
      obtain ⟨r', rfl, hr'⟩ := align heq hkb
      cases r' with
      | cons c r' =>
        cases hr'
        simp at hu
      | nil =>
        cases hr'
        refine ⟨?_, v, q, hquote, hsep, hcont⟩
        obtain rfl | ⟨b', c, rfl⟩ := List.eq_nil_or_concat b
        · obtain ⟨k', rfl⟩ := List.getLast?_eq_some_iff.mp hlast
          exact ⟨k', 61, by simp, by decide, by decide⟩
        · have hc : isBlank c = true := hb c (by simp)
          refine ⟨k ++ b', c, by simp, ?_, ?_⟩
          · rintro rfl
            cases hc
          · rintro rfl
            cases hc
    · obtain ⟨r', rfl, rfl⟩ := align heq hk
      cases r' with
      | nil => cases hsep
      | cons c u₁ =>
        simp at hu
        obtain ⟨⟨u', d, rfl, hd⟩, hcl⟩ := ih u₁.length (by simp [← hn]; omega)
          (hcont c _ rfl) hu.2.2 rfl
        exact ⟨⟨k ++ c :: u', d, by simp, hd⟩, hcl⟩

theorem Parses.not_closes (h : Parses trimSpace s) : ¬ Closes trimSpace s := by
  induction hn : s.length using Nat.strong_induction_on generalizing s with
  | _ n ih =>
    rintro ⟨v, q, hquote, hsep, hcont⟩
    obtain ⟨u, t, rfl, hu⟩ := List.eq_append_cons_of_mem (mem_of_scanQuoted hquote)
    obtain ⟨⟨u', c, rfl, hc, hback⟩, v', q', hquote', hsep', hcont'⟩ := h.opens hu
    -- the open quote ends where the text opens its first one
    have hu' : 34 ∉ u' := by
      intro hmem
      simp [hmem] at hu
    rw [List.append_assoc, List.singleton_append] at hquote
    obtain ⟨v'', hend⟩ := scanQuoted_through hu' hc hback hquote
    cases hend
    -- and the value that the text has opened is read as pairs up to its end
    obtain ⟨b, hb, hblank⟩ := skipXFCCBlanks_eq q
    have hbquote : 34 ∉ b := blank_ne hblank (by decide)
    cases hrest : skipXFCCBlanks q with
    | nil =>
      rw [hrest, List.append_nil] at hb
      exact hbquote (hb ▸ mem_of_scanQuoted hquote')
    | cons d t =>
      rw [hrest] at hb hsep hcont
      have hd : isSeparator d = true := hsep
      have hd34 : d ≠ 34 := by
        rintro rfl
        cases hd
      have hd92 : d ≠ 92 := by
        rintro rfl
        cases hd
      rw [hb] at hquote'
      obtain ⟨w, hclose⟩ := scanQuoted_through hbquote hd34 hd92 hquote'
      refine ih t.length ?_ (hcont d t rfl) rfl ⟨w, q', hclose, hsep', hcont'⟩
      have hlen := congrArg List.length hb
      simp only [List.length_append, List.length_cons] at hlen hn
      omega

end Quotes

section Forged

variable {E : Bytes}

theorem parseFrom_append (done elements : List XfccElement) (element : XfccElement) (s : Bytes) :
    parseFrom trimSpace (done ++ elements) element s =
      (parseFrom trimSpace elements element s).map (done ++ ·) := by
  induction hn : s.length using Nat.strong_induction_on generalizing elements element s with
  | _ n ih =>
    rw [parseFrom, parseFrom]
    split
    · rfl
    · simp [Except.map]
    · rename_i pair c r hscan
      have hlen := scanPair_length hscan
      simp only [List.length_cons] at hlen
      split
      · rw [List.append_assoc]
        exact ih r.length (by omega) _ _ _ rfl
      · exact ih r.length (by omega) _ _ _ rfl

theorem parseFrom_last {e : XfccElement} {elements res : List XfccElement} {element : XfccElement}
    (hE : parseXFCC trimSpace E = .ok [e])
    (h : parseFrom trimSpace elements element (s ++ 44 :: E) = .ok res) :
    ∃ front, res = front ++ [e] := by
  induction hn : s.length using Nat.strong_induction_on generalizing s elements element with
  | _ n ih =>
    obtain ⟨pair, r, hscan, hcont, hnext⟩ := parseFrom_ok h
    -- the pair ends before the comma or at the comma
    have hjoin : ∃ r', r = r' ++ 44 :: E ∧ r'.length ≤ s.length := by
      obtain ⟨hsep, ⟨k, b, t, v, q, heq, -, hk, -, hb, hquote, rfl⟩ | ⟨k, heq, -, hk⟩⟩ :=
        scanPair_ok hscan
      · have hcomma : 44 ∉ k ++ b := by
          rw [List.mem_append, not_or]
          exact ⟨fun hmem => absurd (hk 44 hmem) (by decide), blank_ne hb (by decide)⟩
        obtain ⟨r', rfl, hr'⟩ := align heq hcomma
        cases r' with
        | nil => cases hr'
        | cons d s₁ =>
          cases hr'
          obtain ⟨s₂, r₁, rfl, rfl⟩ | ⟨w, hopen⟩ :=
            scanQuoted_append (by decide) (by decide) hquote
          · obtain ⟨b', hb', hblank⟩ := skipXFCCBlanks_eq (r₁ ++ 44 :: E)
            obtain ⟨r', rfl, hr'⟩ := align hb' (blank_ne hblank (by decide))
            refine ⟨r', hr', ?_⟩
            simp only [List.length_append, List.length_cons]
            omega
          · -- a quote that is open at the comma is never closed
            have hcloses : Closes trimSpace E := ⟨w, q, hopen, hsep, hcont⟩
            exact absurd hcloses (Parses.not_closes ⟨_, _, _, hE⟩)
      · have hcomma : 44 ∉ k := fun hmem => absurd (hk 44 hmem) (by decide)
        obtain ⟨r', rfl, rfl⟩ := align heq hcomma
        exact ⟨r', rfl, by simp⟩
    obtain ⟨r', rfl, hlen⟩ := hjoin
    cases r' with
    | nil =>
      obtain ⟨hnil, -⟩ | ⟨t, ht, hparse⟩ | ⟨c, t, hc, ht, -⟩ := hnext
      · cases hnil
      · cases ht
        rw [← List.append_nil (elements ++ _), parseFrom_append] at hparse
        rw [parseXFCC] at hE
        rw [hE] at hparse
        cases hparse
        exact ⟨_, rfl⟩
      · cases ht
        exact absurd rfl hc
    | cons d r' =>
      simp only [List.length_cons] at hlen
      obtain ⟨hnil, -⟩ | ⟨t, ht, hparse⟩ | ⟨c, t, hc, ht, hparse⟩ := hnext
      · cases hnil
      · cases ht
        exact ih r'.length (by omega) hparse rfl
      · cases ht
        exact ih r'.length (by omega) hparse rfl

variable {equalFold : Bytes → Bytes → Bool}

/-- Nothing that a client puts in front of the last element changes who is authenticated: the header
is refused, or its last element and the verdict are those of the element alone. -/
theorem verifyXFCC_forged_front {e : XfccElement} (hE : parseXFCC trimSpace E = .ok [e])
    (P : Bytes) :
    (∀ elements, parseXFCC trimSpace (P ++ 44 :: E) = .ok elements →
      elements.getLast? = some e) ∧
    ∀ trusted, (∃ err, verifyXFCC trimSpace equalFold (P ++ 44 :: E) trusted = .error err) ∨
      verifyXFCC trimSpace equalFold (P ++ 44 :: E) trusted =
        verifyXFCC trimSpace equalFold E trusted := by
  have hlast : ∀ elements, parseXFCC trimSpace (P ++ 44 :: E) = .ok elements →
      elements.getLast? = some e := by
    intro elements h
    obtain ⟨front, rfl⟩ := parseFrom_last hE h
    simp
  refine ⟨hlast, ?_⟩
  intro trusted
  by_cases htrusted : trusted = []
  · simp [verifyXFCC, htrusted]
  cases hjoined : parseXFCC trimSpace (P ++ 44 :: E) with
  | error err => exact .inl ⟨xfccErr err, by simp [verifyXFCC, htrusted, hjoined]⟩
  | ok elements =>
    refine .inr ?_
    by_cases hempty : E = []
    · subst hempty
      -- the last element is empty, and so is the header without the front
      have hnil : parseXFCC trimSpace [] = .ok [[]] := by
        rw [parseXFCC, parseFrom]
        rfl
      cases hnil.symm.trans hE
      simp [verifyXFCC, htrusted, hjoined, hlast _ hjoined, XfccElement.uris]
    · simp [verifyXFCC, htrusted, hjoined, hlast _ hjoined, hempty, hE]

def sidecar : Bytes := Bytes.ascii "Subject=\"CN=a,O=b\";URI=spiffe://mesh/a"

theorem verifyXFCC_forged_front_sidecar :
    verifyXFCC id (· == ·) (Bytes.ascii "URI=spiffe://mesh/b" ++ 44 :: sidecar)
      [Bytes.ascii "spiffe://mesh/b"] = .ok none := by
  have hE : parseXFCC id sidecar = .ok [[⟨Bytes.ascii "Subject", Bytes.ascii "CN=a,O=b"⟩,
      ⟨Bytes.ascii "URI", Bytes.ascii "spiffe://mesh/a"⟩]] := by decide +kernel
  obtain ⟨err, herr⟩ | heq := (verifyXFCC_forged_front hE (Bytes.ascii "URI=spiffe://mesh/b")).2
    [Bytes.ascii "spiffe://mesh/b"]
  · have hok : verifyXFCC id (· == ·) (Bytes.ascii "URI=spiffe://mesh/b" ++ 44 :: sidecar)
        [Bytes.ascii "spiffe://mesh/b"] = .ok none := by decide +kernel
    cases herr.symm.trans hok
  · rw [heq]
    decide +kernel

/-- A front that opens a quote is refused with everything behind it. -/
example : verifyXFCC id (· == ·) (Bytes.ascii "URI=spiffe://mesh/b;By=\"" ++ 44 :: sidecar)
    [Bytes.ascii "spiffe://mesh/b"] =
      .error "malformed X-Forwarded-Client-Cert: data after a quoted value" := by
  decide +kernel

end Forged

end Chronicle.Auth
