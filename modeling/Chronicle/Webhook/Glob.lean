import Chronicle.Auth.Policy
import Chronicle.Store.Metadata

/-! # Patterns of subscriptions

A pattern is matched segment by segment. A star stands for one segment and two
stars for any number of segments, and every other segment is literal, with an
escape for a star. The literal segments before the first wildcard bound what a
pattern can match.
-/

namespace Chronicle.Webhook

open Auth

section Glob

def trimSlashes (p : Bytes) : Bytes :=
  ((p.dropWhile (· = 47)).reverse.dropWhile (· = 47)).reverse

/-- The segments of a path, without slashes at its ends. -/
def splitPath (p : Path) : List Bytes :=
  if trimSlashes p = [] then [] else (trimSlashes p).splitOn 47

/-- Replace every escaped star, with the last digit of the escape in one case. -/
def decodeStars (last : UInt8) : Bytes → Bytes
  | x :: y :: z :: rest =>
    if x = 37 ∧ y = 50 ∧ z = last then 42 :: decodeStars last rest
    else x :: decodeStars last (y :: z :: rest)
  | s => s

def decodeSegment (seg : Bytes) : Bytes := decodeStars 97 (decodeStars 65 seg)

/-- Match the segments of a pattern: one star is one segment, two stars are any number. -/
def matchParts : List Bytes → List Bytes → Bool
  | [], path => path = []
  | pattern, [] => pattern.all (· = [42, 42])
  | seg :: pattern, p :: path =>
    if seg = [42, 42] then (p :: path).tails.any (matchParts pattern)
    else if seg = [42] then matchParts pattern path
    else decodeSegment seg = p && matchParts pattern path

def globMatch (pattern : Bytes) (path : Path) : Bool :=
  matchParts (splitPath pattern) (splitPath path)

example : globMatch (Bytes.ascii "a/**/c") (Bytes.ascii "/a/c/") = true := by decide

example : globMatch (Bytes.ascii "a/*") (Bytes.ascii "a/b/c") = false := by decide

end Glob

section Literals

def isWildcard (seg : Bytes) : Bool := seg = [42] || seg = [42, 42]

def literals (pattern : Bytes) : List Bytes :=
  ((splitPath pattern).takeWhile (!isWildcard ·)).map decodeSegment

def globLiteralPrefix (pattern : Bytes) : Option Bytes :=
  if literals pattern = [] then none else some (List.intercalate [47] (literals pattern))

end Literals

section Bound

variable {s : Bytes}

theorem mem_decodeStars {x c : UInt8} (h : c ∈ decodeStars x s) :
    c = 42 ∨ c ∈ s := by
  fun_induction decodeStars x s with
  | case1 a b d rest _ ih =>
    rw [List.mem_cons] at h
    obtain h | h := h
    · exact .inl h
    · exact (ih h).imp_right (by simp +contextual)
  | case2 a b d rest _ ih =>
    rw [List.mem_cons] at h
    obtain h | h := h
    · exact .inr (by simp [h])
    · exact (ih h).imp_right (List.mem_cons_of_mem _)
  | case3 s => exact .inr h

variable {seg : Bytes}

theorem slash_notMem_decodeSegment (h : 47 ∉ seg) : 47 ∉ decodeSegment seg := by
  intro hmem
  obtain hne | hmem := mem_decodeStars hmem
  · cases hne
  obtain hne | hmem := mem_decodeStars hmem
  · cases hne
  · exact h hmem

theorem matchParts_literals {pattern path : List Bytes} (h : matchParts pattern path = true) :
    (pattern.takeWhile (!isWildcard ·)).map decodeSegment <+: path := by
  induction pattern generalizing path with
  | nil => simp
  | cons seg pattern ih =>
    cases hw : isWildcard seg with
    | true => simp [hw]
    | false =>
      have hne : seg ≠ [42] ∧ seg ≠ [42, 42] := by simpa [isWildcard] using hw
      rw [List.takeWhile_cons_of_pos (by simp [hw]), List.map_cons]
      cases path with
      | nil => simp [matchParts, hne.2] at h
      | cons s path =>
        simp only [matchParts, hne.1, hne.2, if_false, Bool.and_eq_true, decide_eq_true_eq] at h
        rw [h.1, List.cons_prefix_cons]
        exact ⟨rfl, ih h.2⟩

variable {p : Bytes}

theorem splitPath_noSlash (h : seg ∈ splitPath p) : 47 ∉ seg := by
  unfold splitPath at h
  split at h
  · cases h
  · exact notMem_segment h

theorem literals_noSlash {pattern : Bytes} (h : seg ∈ literals pattern) : 47 ∉ seg := by
  obtain ⟨raw, hraw, rfl⟩ := List.mem_map.mp h
  exact slash_notMem_decodeSegment (splitPath_noSlash ((List.takeWhile_sublist _).subset hraw))

theorem decodeStars_ne_nil {x : UInt8} (h : s ≠ []) : decodeStars x s ≠ [] := by
  fun_cases decodeStars x s with
  | case1 | case2 => simp
  | case3 => exact h

theorem head?_of_segments {segs : List Bytes} (h : segments p = [] :: segs) :
    p = [] ∨ p.head? = some 47 := by
  rw [← @List.intercalate_splitOn _ p _ _ 47]
  rw [segments] at h
  rw [h]
  cases segs with
  | nil => exact .inl rfl
  | cons seg segs => exact .inr rfl

theorem splitPath_head_ne_nil {segs : List Bytes}
    (h : splitPath p = seg :: segs) : seg ≠ [] := by
  rintro rfl
  unfold splitPath at h
  split at h
  · cases h
  rename_i hne
  obtain hnil | hhead := head?_of_segments h
  · exact hne hnil
  have hfront : trimSlashes p <+: p.dropWhile (· = 47) := by
    rw [trimSlashes, ← List.reverse_suffix, List.reverse_reverse]
    exact List.dropWhile_suffix _
  obtain ⟨q, hq⟩ := List.head?_eq_some_iff.mp hhead
  rw [hq] at hfront
  obtain ⟨r, hr⟩ := hfront
  have hdrop := List.head?_dropWhile_not (· = 47) p
  rw [← hr] at hdrop
  simp at hdrop

/-- A normalized path neither begins nor ends with a slash. -/
theorem StreamPath_trimmed (path : StreamPath) :
    path.string ≠ [] ∧ path.string.head? ≠ some 47 ∧ path.string.getLast? ≠ some 47 := by
  have hempty : [] ∉ segments path.string := by
    intro hmem
    exact absurd (path.valid [] hmem) (by decide)
  refine ⟨?_, ?_, ?_⟩
  · intro hnil
    simp [hnil, segments] at hempty
  · intro hhead
    obtain ⟨q, hq⟩ := List.head?_eq_some_iff.mp hhead
    rw [hq, ← List.nil_append (47 :: q), segments_append] at hempty
    simp [segments] at hempty
  · intro hlast
    obtain ⟨q, hq⟩ := List.getLast?_eq_some_iff.mp hlast
    rw [hq, segments_append] at hempty
    simp [segments] at hempty

/-- The segments that the matcher sees are those of the normalized path. -/
theorem splitPath_normalized {raw : Bytes} {path : StreamPath}
    (h : normalizeStreamPath raw = .ok path) : splitPath raw = segments path.string := by
  have hraw := normalizeStreamPath_ok h
  obtain ⟨hne, hhead, hlast⟩ := StreamPath_trimmed path
  have hkeep : ∀ {s : Bytes}, s.head? ≠ some 47 → s.dropWhile (· = 47) = s := by
    intro s hs
    cases s with
    | nil => rfl
    | cons c s => simp_all
  have hleft : raw.dropWhile (· = 47) = path.string := by
    unfold trimSlash at hraw
    split at hraw
    · rw [hraw, List.dropWhile_cons_of_pos (by decide)]
      exact hkeep hhead
    · rw [hraw]
      exact hkeep hhead
  have hright : (path.string.reverse.dropWhile (· = 47)).reverse = path.string := by
    rw [hkeep (by simpa using hlast), List.reverse_reverse]
  rw [splitPath, trimSlashes, hleft, hright, if_neg hne, segments]

theorem literals_head_ne_nil {pattern l : Bytes} {ls : List Bytes}
    (h : literals pattern = l :: ls) : l ≠ [] := by
  unfold literals at h
  cases hsplit : splitPath pattern with
  | nil => simp [hsplit] at h
  | cons seg segs =>
    rw [hsplit, List.takeWhile_cons] at h
    split at h
    · cases h
      exact decodeStars_ne_nil (decodeStars_ne_nil (splitPath_head_ne_nil hsplit))
    · cases h

theorem trimSlash_eq_self (h : s.head? ≠ some 47) : trimSlash s = s := by
  unfold trimSlash
  split
  · simp at h
  · rfl

theorem globLiteralPrefix_segments {pattern pre : Bytes} {n : StreamPath}
    (hpre : globLiteralPrefix pattern = some pre) (hn : normalizeStreamPath pre = .ok n) :
    segments n.string = literals pattern := by
  unfold globLiteralPrefix at hpre
  split at hpre
  · cases hpre
  rename_i hlits
  cases hpre
  have hslash : ∀ seg ∈ literals pattern, 47 ∉ seg := fun seg h => literals_noSlash h
  have hhead : (List.intercalate [47] (literals pattern)).head? ≠ some 47 := by
    intro hhead
    obtain ⟨q, hq⟩ := List.head?_eq_some_iff.mp hhead
    have hsegs := segments_intercalate hlits hslash
    rw [hq, ← List.nil_append (47 :: q), segments_append] at hsegs
    exact literals_head_ne_nil hsegs.symm rfl
  rw [← normalizeStreamPath_ok hn, trimSlash_eq_self hhead, segments_intercalate hlits hslash]

/-- The literal prefix of a pattern covers whatever the pattern matches. -/
theorem globMatch_covered {pattern pre raw : Bytes} {n path : StreamPath}
    (hpre : globLiteralPrefix pattern = some pre) (hn : normalizeStreamPath pre = .ok n)
    (hmatch : globMatch pattern raw = true) (hpath : normalizeStreamPath raw = .ok path) :
    covers n path = true := by
  rw [covers_iff, globLiteralPrefix_segments hpre hn, ← splitPath_normalized hpath]
  exact matchParts_literals hmatch

end Bound

end Chronicle.Webhook
