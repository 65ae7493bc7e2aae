import Chronicle.Webhook.Glob
import Mathlib.Data.List.TakeWhile

/-! # The grammar of patterns

The matcher walks two lists of segments by index, goes back for two stars and has
a loop of its own for two stars at the end. Here it is run with a bound on its
steps, shown to return on every input, and compared with the grammar of patterns:
a split of the path along the segments of the pattern.
-/

namespace Chronicle.Webhook.Grammar

open Auth

section Loops

variable (pattern path : List Bytes)

/-- The loop over two stars at the end of a pattern, and the comparison after it. -/
def trailing : ℕ → ℕ → ℕ → Option Bool
  | 0, _, _ => none
  | fuel + 1, pi, si =>
    if pattern[pi]? = some [42, 42] then trailing fuel (pi + 1) si
    else some (pi = pattern.length && si = path.length)

mutual

/-- `matchParts` on indices, with `fuel` bounding the steps of its loops and calls. -/
def matchPartsFrom : ℕ → ℕ → ℕ → Option Bool
  | 0, _, _ => none
  | fuel + 1, pi, si =>
    match pattern[pi]?, path[si]? with
    | some seg, some p =>
      if seg = [42, 42] then skip fuel (pi + 1) si
      else if seg = [42] then matchPartsFrom fuel (pi + 1) (si + 1)
      else if decodeSegment seg ≠ p then some false
      else matchPartsFrom fuel (pi + 1) (si + 1)
    | _, _ => trailing pattern path fuel pi si

/-- The loop that tries every number of segments for two stars. -/
def skip : ℕ → ℕ → ℕ → Option Bool
  | 0, _, _ => none
  | fuel + 1, pi, i =>
    if i ≤ path.length then
      match matchPartsFrom fuel pi i with
      | none => none
      | some true => some true
      | some false => skip fuel pi (i + 1)
    else some false

end

end Loops

section Termination

/-- A computation returns a result, with any bound from some number of steps on. -/
def Returns (f : ℕ → Option Bool) (b : Bool) : Prop := ∃ n, ∀ fuel ≥ n, f fuel = some b

variable {f g : ℕ → Option Bool} {b : Bool}

theorem Returns.step (hg : Returns g b) (h : ∀ fuel, f (fuel + 1) = g fuel) : Returns f b := by
  obtain ⟨n, hn⟩ := hg
  use n + 1
  intro fuel hfuel
  obtain ⟨fuel, rfl⟩ := Nat.exists_eq_add_of_le' (Nat.one_le_of_lt hfuel)
  rw [h]
  exact hn fuel (by omega)

theorem Returns.const (h : ∀ fuel, f (fuel + 1) = some b) : Returns f b :=
  Returns.step (g := fun _ => some b) ⟨0, fun _ _ => rfl⟩ h

end Termination

section Walk

variable {pattern path : List Bytes}

theorem matchParts_nil_right (pattern : List Bytes) :
    matchParts pattern [] = pattern.all (· = [42, 42]) := by
  cases pattern <;> simp [matchParts]

/-- What the walk returns from a pair of indices; beyond the end of a list it is `false`. -/
def outcome (pattern path : List Bytes) (pi si : ℕ) : Bool :=
  decide (pi ≤ pattern.length) && decide (si ≤ path.length) &&
    matchParts (pattern.drop pi) (path.drop si)

theorem drop_of_getElem? {l : List Bytes} {i : ℕ} {x : Bytes} (h : l[i]? = some x) :
    i < l.length ∧ l.drop i = x :: l.drop (i + 1) := by
  obtain ⟨hi, rfl⟩ := List.getElem?_eq_some_iff.mp h
  exact ⟨hi, List.drop_eq_getElem_cons hi⟩

theorem trailing_returns (pi si : ℕ) :
    Returns (trailing pattern path · pi si)
      (decide (pi ≤ pattern.length) && (pattern.drop pi).all (· = [42, 42]) &&
        decide (si = path.length)) := by
  -- the loop moves to the end of the pattern
  induction hk : pattern.length - pi generalizing pi with
  | zero =>
    have hnone : pattern[pi]? = none := List.getElem?_eq_none (by omega)
    apply Returns.const
    intro fuel
    have hiff : pi ≤ pattern.length ↔ pi = pattern.length := by omega
    rw [trailing, hnone, List.drop_eq_nil_of_le (by omega)]
    simp [hiff]
  | succ k ih =>
    have hlt : pi < pattern.length := by omega
    have hget : pattern[pi]? = some pattern[pi] := List.getElem?_eq_getElem hlt
    have hdrop : pattern.drop pi = pattern[pi] :: pattern.drop (pi + 1) :=
      (drop_of_getElem? hget).2
    by_cases hseg : pattern[pi] = [42, 42]
    · have hrest := ih (pi + 1) (by omega)
      rw [hdrop, List.all_cons, hseg]
      rw [decide_eq_true (by omega : pi + 1 ≤ pattern.length)] at hrest
      rw [decide_eq_true (by omega : pi ≤ pattern.length), decide_eq_true rfl]
      exact hrest.step fun fuel => by rw [trailing, hget, hseg, if_pos rfl]
    · apply Returns.const
      intro fuel
      rw [trailing, hget, if_neg (by simpa using hseg), hdrop, List.all_cons]
      simp [hseg, hlt.ne]

theorem skip_returns {pi : ℕ} (i : ℕ)
    (h : ∀ i, Returns (matchPartsFrom pattern path · pi i) (outcome pattern path pi i)) :
    Returns (skip pattern path · pi i)
      (decide (pi ≤ pattern.length) && decide (i ≤ path.length) &&
        (path.drop i).tails.any (matchParts (pattern.drop pi))) := by
  induction hk : path.length + 1 - i generalizing i with
  | zero =>
    apply Returns.const
    intro fuel
    rw [skip, if_neg (by omega), decide_eq_false (by omega : ¬ i ≤ path.length)]
    simp
  | succ k ih =>
    have hi : i ≤ path.length := by omega
    have htails : (path.drop i).tails.any (matchParts (pattern.drop pi)) =
        (matchParts (pattern.drop pi) (path.drop i) || (decide (i + 1 ≤ path.length) &&
          (path.drop (i + 1)).tails.any (matchParts (pattern.drop pi)))) := by
      obtain rfl | hlt := hi.eq_or_lt
      · simp
      · rw [List.drop_eq_getElem_cons hlt, List.tails_cons, List.any_cons,
          decide_eq_true (by omega : i + 1 ≤ path.length), Bool.true_and]
    obtain ⟨n, hn⟩ := h i
    obtain ⟨m, hm⟩ := ih (i + 1) (by omega)
    dsimp only at hn hm
    use max n m + 1
    intro fuel hfuel
    obtain ⟨fuel, rfl⟩ := Nat.exists_eq_add_of_le' (Nat.one_le_of_lt hfuel)
    dsimp only
    rw [skip, if_pos hi, hn fuel (by omega), hm fuel (by omega), htails, outcome]
    simp only [decide_eq_true hi, Bool.and_true]
    cases decide (pi ≤ pattern.length) <;>
      cases matchParts (pattern.drop pi) (path.drop i) <;> rfl

theorem matchPartsFrom_returns (pattern path : List Bytes) (pi si : ℕ) :
    Returns (matchPartsFrom pattern path · pi si) (outcome pattern path pi si) := by
  -- every call and every turn of the loop is further along the pattern
  induction hk : pattern.length - pi generalizing pi si with
  | zero =>
    have hnone : pattern[pi]? = none := List.getElem?_eq_none (by omega)
    have hdrop : pattern.drop pi = [] := List.drop_eq_nil_of_le (by omega)
    have hend := @trailing_returns pattern path pi si
    have heq : outcome pattern path pi si = (decide (pi ≤ pattern.length) &&
        (pattern.drop pi).all (· = [42, 42]) && decide (si = path.length)) := by
      have hiff : (si ≤ path.length ∧ path.length ≤ si) ↔ si = path.length := by omega
      simp [outcome, hdrop, matchParts, ← hiff, Bool.and_assoc]
    rw [heq]
    exact hend.step fun fuel => by rw [matchPartsFrom, hnone]
  | succ k ih =>
    have hlt : pi < pattern.length := by omega
    have hget : pattern[pi]? = some pattern[pi] := List.getElem?_eq_getElem hlt
    have hdrop : pattern.drop pi = pattern[pi] :: pattern.drop (pi + 1) :=
      (drop_of_getElem? hget).2
    have hle : decide (pi ≤ pattern.length) = true := decide_eq_true (by omega)
    have hle' : decide (pi + 1 ≤ pattern.length) = true := decide_eq_true (by omega)
    cases hp : path[si]? with
    | none =>
      have hlen : path.length ≤ si := by simpa using hp
      have heq : outcome pattern path pi si = (decide (pi ≤ pattern.length) &&
          (pattern.drop pi).all (· = [42, 42]) && decide (si = path.length)) := by
        have hiff : si ≤ path.length ↔ si = path.length := by omega
        rw [outcome, List.drop_eq_nil_of_le hlen, matchParts_nil_right, hle]
        simp [hiff, Bool.and_comm]
      rw [heq]
      exact (@trailing_returns pattern path pi si).step fun fuel => by
        rw [matchPartsFrom, hget, hp]
    | some p =>
      obtain ⟨hsi, hpath⟩ := drop_of_getElem? hp
      have hsle : decide (si ≤ path.length) = true := decide_eq_true (by omega)
      have hsle' : decide (si + 1 ≤ path.length) = true := decide_eq_true (by omega)
      have hnext := ih (pi + 1) (si + 1) (by omega)
      rw [outcome, hle', hsle'] at hnext
      rw [outcome, hdrop, hpath, matchParts, ← hpath, hle, hsle]
      by_cases hstars : pattern[pi] = [42, 42]
      · rw [if_pos hstars]
        have hskip := skip_returns si fun i => ih (pi + 1) i (by omega)
        rw [hle', hsle] at hskip
        exact hskip.step fun fuel => by simp only [matchPartsFrom, hget, hp, hstars, if_pos]
      rw [if_neg hstars]
      by_cases hstar : pattern[pi] = [42]
      · rw [if_pos hstar]
        exact hnext.step fun fuel => by
          simp only [matchPartsFrom, hget, hp, hstar, if_pos]
          simp
      rw [if_neg hstar]
      by_cases heq : decodeSegment pattern[pi] = p
      · rw [decide_eq_true heq]
        exact hnext.step fun fuel => by
          simp only [matchPartsFrom, hget, hp, if_neg hstars, if_neg hstar, heq, ne_eq,
            not_true_eq_false, if_false]
      · rw [decide_eq_false heq]
        apply Returns.const
        intro fuel
        simp only [matchPartsFrom, hget, hp, if_neg hstars, if_neg hstar, ne_eq, heq,
          not_false_eq_true, if_true, Bool.true_and, Bool.false_and]

end Walk

section Segments

/-- The segments of a path: what stands between its slashes, without those at its ends. -/
def IsSegments (p : Bytes) (segs : List Bytes) : Prop :=
  ∃ core lead trail, p = List.replicate lead 47 ++ core ++ List.replicate trail 47 ∧
    core.head? ≠ some 47 ∧ core.getLast? ≠ some 47 ∧ (core = [] ↔ segs = []) ∧
    core = List.intercalate [47] segs ∧ ∀ seg ∈ segs, 47 ∉ seg

theorem dropWhile_slashes (n : ℕ) {s : Bytes} (h : s.head? ≠ some 47) :
    (List.replicate n 47 ++ s).dropWhile (· = 47) = s := by
  induction n with
  | zero => cases s <;> simp_all
  | succ n ih => simpa [List.replicate_succ] using ih

theorem exists_slashes (p : Bytes) :
    ∃ n, p = List.replicate n 47 ++ p.dropWhile (· = 47) ∧
      (p.dropWhile (· = 47)).head? ≠ some 47 := by
  use (p.takeWhile (· = 47)).length
  constructor
  · have hrep : p.takeWhile (· = 47) = List.replicate (p.takeWhile (· = 47)).length 47 := by
      apply List.eq_replicate_of_mem
      intro c hc
      simpa using List.mem_takeWhile_imp hc
    rw [← hrep, List.takeWhile_append_dropWhile]
  · intro hhead
    have hnot := List.head?_dropWhile_not (· = 47) p
    rw [hhead] at hnot
    simp at hnot

theorem isSegments_iff (p : Bytes) (segs : List Bytes) :
    IsSegments p segs ↔ splitPath p = segs := by
  constructor
  · rintro ⟨core, lead, trail, rfl, hhead, hlast, hnil, hcore, hslash⟩
    have hleft : (List.replicate lead 47 ++ core ++ List.replicate trail 47).dropWhile (· = 47) =
        if core = [] then [] else core ++ List.replicate trail 47 := by
      split
      · rename_i hempty
        rw [hempty, List.append_nil, List.replicate_append_replicate]
        simp
      · rename_i hne
        rw [List.append_assoc]
        apply dropWhile_slashes
        rwa [List.head?_append_of_ne_nil _ hne]
    unfold splitPath trimSlashes
    rw [hleft]
    split
    · rw [← hnil.mp ‹_›]
      simp
    · rename_i hne
      have hright : ((core ++ List.replicate trail 47).reverse.dropWhile (· = 47)).reverse =
          core := by
        rw [List.reverse_append, List.reverse_replicate, dropWhile_slashes, List.reverse_reverse]
        rwa [List.head?_reverse]
      rw [hright, if_neg hne, hcore]
      exact segments_intercalate (fun h => hne (hnil.mpr h)) hslash
  · rintro rfl
    obtain ⟨lead, hp, hhead⟩ := exists_slashes p
    obtain ⟨trail, hq, hlast⟩ := exists_slashes (p.dropWhile (· = 47)).reverse
    generalize hrest : (p.dropWhile (· = 47)).reverse.dropWhile (· = 47) = core at *
    have hdrop : p.dropWhile (· = 47) = core.reverse ++ List.replicate trail 47 := by
      rw [← List.reverse_reverse (p.dropWhile _), hq, List.reverse_append,
        List.reverse_replicate]
    have hp' : p = List.replicate lead 47 ++ core.reverse ++ List.replicate trail 47 := by
      rw [List.append_assoc, ← hdrop]
      exact hp
    have hsplit : splitPath p =
        if core.reverse = [] then [] else core.reverse.splitOn 47 := by
      simp only [splitPath, trimSlashes, hrest]
    refine ⟨core.reverse, lead, trail, hp', ?_, ?_, ?_, ?_, ?_⟩
    · intro hc
      apply hhead
      rw [hdrop]
      simp [List.head?_append, hc]
    · rwa [List.getLast?_reverse]
    · rw [hsplit]
      split
      · simp only [*]
      · rename_i hne
        simp only [hne, List.splitOn_ne_nil]
    · rw [hsplit]
      split
      · rename_i hempty
        rw [hempty]
        rfl
      · exact (List.intercalate_splitOn 47).symm
    · intro seg hseg
      exact splitPath_noSlash hseg

end Segments

section Escapes

/-- Replace every escaped star of a segment, in either case, in one pass. -/
def starred : Bytes → Bytes
  | x :: y :: z :: rest =>
    if x = 37 ∧ y = 50 ∧ (z = 65 ∨ z = 97) then 42 :: starred rest
    else x :: starred (y :: z :: rest)
  | s => s

theorem decodeStars_cons {last x : UInt8} {s : Bytes}
    (h : x = 37 → ∀ rest, s ≠ 50 :: last :: rest) :
    decodeStars last (x :: s) = x :: decodeStars last s := by
  match s with
  | [] | [y] => simp [decodeStars]
  | y :: z :: rest =>
    rw [decodeStars, if_neg]
    rintro ⟨rfl, rfl, rfl⟩
    exact h rfl rest rfl

theorem of_decodeStars_cons {last c : UInt8} {s t : Bytes} (h : decodeStars last s = c :: t)
    (hstar : c ≠ 42) (hpercent : c ≠ 37) : ∃ s', s = c :: s' ∧ decodeStars last s' = t := by
  fun_cases decodeStars last s with
  | case1 rest x y z hesc =>
    rw [decodeStars, if_pos hesc, List.cons.injEq] at h
    exact absurd h.1.symm hstar
  | case2 x y z rest hesc =>
    rw [decodeStars, if_neg hesc, List.cons.injEq] at h
    obtain ⟨rfl, rfl⟩ := h
    exact ⟨_, rfl, rfl⟩
  | case3 s hshort =>
    rcases s with - | ⟨x, - | ⟨y, - | ⟨z, rest⟩⟩⟩
    · simp [decodeStars] at h
    · simp only [decodeStars, List.cons.injEq] at h
      exact ⟨[], by simp [h.1], by simp [decodeStars, h.2]⟩
    · simp only [decodeStars, List.cons.injEq] at h
      exact ⟨[y], by simp [h.1], by simp [decodeStars, h.2]⟩
    · exact absurd rfl (hshort x y z rest)

theorem decodeSegment_eq_starred (s : Bytes) : decodeSegment s = starred s := by
  unfold decodeSegment
  fun_induction starred s with
  | case1 x y z rest hesc ih =>
    obtain ⟨rfl, rfl, rfl | rfl⟩ := hesc
    · rw [decodeStars, if_pos (by simp), decodeStars_cons (by simp), ih]
    · have hfirst : decodeStars 65 (37 :: 50 :: 97 :: rest) =
          37 :: 50 :: 97 :: decodeStars 65 rest := by
        rw [decodeStars_cons (by simp), decodeStars_cons (by simp), decodeStars_cons (by simp)]
      rw [hfirst, decodeStars, if_pos (by simp), ih]
  | case2 x y z rest hesc ih =>
    have hfirst : decodeStars 65 (x :: y :: z :: rest) = x :: decodeStars 65 (y :: z :: rest) := by
      apply decodeStars_cons
      rintro rfl rest' heq
      simp only [List.cons.injEq] at heq
      exact hesc ⟨rfl, heq.1, .inl heq.2.1⟩
    rw [hfirst, decodeStars_cons, ih]
    rintro rfl rest' heq
    obtain ⟨s₁, hs₁, h₁⟩ := of_decodeStars_cons heq (by decide) (by decide)
    obtain ⟨s₂, hs₂, -⟩ := of_decodeStars_cons h₁ (by decide) (by decide)
    rw [hs₂, List.cons.injEq, List.cons.injEq] at hs₁
    exact hesc ⟨rfl, hs₁.1, .inr hs₁.2.1⟩
  | case3 s hshort =>
    rcases s with - | ⟨x, - | ⟨y, - | ⟨z, rest⟩⟩⟩
    · rfl
    · rfl
    · rfl
    · exact absurd rfl (hshort x y z rest)

end Escapes

section Matching

def Takes (seg : Bytes) (part : List Bytes) : Prop :=
  if seg = [42, 42] then True
  else if seg = [42] then part.length = 1
  else part = [starred seg]

/-- The path can be split along the segments of the pattern. -/
def Matches (pattern path : List Bytes) : Prop :=
  ∃ parts, List.Forall₂ Takes pattern parts ∧ parts.flatten = path

theorem matches_nil {path : List Bytes} : Matches [] path ↔ path = [] := by
  constructor
  · rintro ⟨parts, hparts, rfl⟩
    cases hparts
    rfl
  · rintro rfl
    exact ⟨[], .nil, rfl⟩

theorem matches_cons {seg : Bytes} {pattern path : List Bytes} :
    Matches (seg :: pattern) path ↔
      ∃ part rest, Takes seg part ∧ Matches pattern rest ∧ part ++ rest = path := by
  constructor
  · rintro ⟨parts, hparts, rfl⟩
    cases hparts with
    | cons hseg hrest => exact ⟨_, _, hseg, ⟨_, hrest, rfl⟩, rfl⟩
  · rintro ⟨part, rest, hseg, ⟨parts, hparts, rfl⟩, rfl⟩
    exact ⟨part :: parts, .cons hseg hparts, rfl⟩

theorem matchParts_iff (pattern path : List Bytes) :
    matchParts pattern path = true ↔ Matches pattern path := by
  induction pattern generalizing path with
  | nil => simp [matchParts, matches_nil]
  | cons seg pattern ih =>
    rw [matches_cons]
    by_cases hstars : seg = [42, 42]
    · subst seg
      have hany : matchParts ([42, 42] :: pattern) path =
          path.tails.any (matchParts pattern) := by
        cases path with
        | nil => simp [matchParts_nil_right]
        | cons p path => simp [matchParts]
      rw [hany, List.any_eq_true]
      constructor
      · rintro ⟨rest, hrest, hmatch⟩
        obtain ⟨part, rfl⟩ := (List.mem_tails _ _).mp hrest
        exact ⟨part, rest, by simp [Takes], (ih rest).mp hmatch, rfl⟩
      · rintro ⟨part, rest, -, hmatch, rfl⟩
        exact ⟨rest, (List.mem_tails _ _).mpr (List.suffix_append part rest), (ih rest).mpr hmatch⟩
    -- every other segment takes one segment of the path
    cases path with
    | nil =>
      rw [matchParts_nil_right]
      constructor
      · intro h
        simp [hstars] at h
      · rintro ⟨part, rest, hseg, -, hnil⟩
        obtain ⟨rfl, -⟩ := List.append_eq_nil_iff.mp hnil
        simp only [Takes, if_neg hstars] at hseg
        split at hseg <;> cases hseg
    | cons p path =>
      by_cases hstar : seg = [42]
      · subst seg
        simp only [matchParts, if_neg hstars, if_true, ih]
        constructor
        · intro hmatch
          exact ⟨[p], path, by simp [Takes], hmatch, rfl⟩
        · rintro ⟨part, rest, hseg, hmatch, heq⟩
          obtain ⟨q, rfl⟩ := List.length_eq_one_iff.mp hseg
          cases heq
          exact hmatch
      · simp only [matchParts, if_neg hstars, if_neg hstar, Bool.and_eq_true,
          decide_eq_true_eq, ih, decodeSegment_eq_starred]
        constructor
        · rintro ⟨rfl, hmatch⟩
          exact ⟨[starred seg], path, by simp [Takes, hstars, hstar], hmatch, rfl⟩
        · rintro ⟨part, rest, hseg, hmatch, heq⟩
          simp only [Takes, if_neg hstars, if_neg hstar] at hseg
          subst part
          cases heq
          exact ⟨rfl, hmatch⟩

/-- A pattern matches a path when the segments of the path can be split along those of the
pattern, and the walk of the matcher returns this on every input. -/
theorem globMatch_grammar :
    (∀ pattern path : Bytes, globMatch pattern path = true ↔
      ∃ patternParts pathParts, IsSegments pattern patternParts ∧
        IsSegments path pathParts ∧ Matches patternParts pathParts) ∧
    (∀ pattern path : Bytes, Returns
      (matchPartsFrom (splitPath pattern) (splitPath path) · 0 0) (globMatch pattern path)) ∧
    ∀ (pattern path : List Bytes) (pi si : ℕ), ∃ b,
      Returns (matchPartsFrom pattern path · pi si) b := by
  refine ⟨?_, ?_, ?_⟩
  · intro pattern path
    simp only [isSegments_iff, globMatch, matchParts_iff]
    constructor
    · intro h
      exact ⟨_, _, rfl, rfl, h⟩
    · rintro ⟨_, _, rfl, rfl, h⟩
      exact h
  · intro pattern path
    have hreturns := matchPartsFrom_returns (splitPath pattern) (splitPath path) 0 0
    simpa [outcome, globMatch] using hreturns
  · intro pattern path pi si
    exact ⟨_, matchPartsFrom_returns pattern path pi si⟩

end Matching

end Chronicle.Webhook.Grammar
