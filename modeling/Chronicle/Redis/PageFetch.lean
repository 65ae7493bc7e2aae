import Chronicle.Lib.Binary64
import Chronicle.Redis.Range

/-! # Fetching a page

The script that reads a page computes in doubles. Its first stage fetches one
frame, its second stage the frames whose end offsets fit the remaining budget,
and together they are the page that is taken frame by frame, as long as no
number grows beyond what a double counts exactly.
-/

namespace Chronicle.Redis

open Arithmetic (exact_round exact_add exact_sub exact_mod exact_floorDiv)
open Binary64 (doubles doubles_round doubles_floorDiv doubles_add doubles_sub)
open Decimal

namespace Lua

/-! ## The script

The numbers are doubles. -/

def addOffsetBytes : Bytes → ℕ → Option Bytes := @Redis.addOffsetBytes doubles

def fetchRange : StreamKeys → Option Bytes → ReadArgs → Bytes → Bool → Option RangeCursor :=
  @Redis.fetchRange doubles

/-! ## Exact numbers -/

theorem carry_le {s t : Bytes} {delta carry : ℕ} (h : addDigits s delta = some (t, carry)) :
    carry ≤ delta := by
  induction s generalizing t carry with
  | nil =>
    cases h
    exact le_rfl
  | cons c s ih =>
    rw [addDigits] at h
    split at h
    · cases h
    rename_i t' carry' hrest
    have hle := ih hrest
    split at h
    · rename_i hdigit
      have := digitValue_lt hdigit
      cases h
      rw [exact_floorDiv, exact_add]
      omega
    · cases h

theorem addDigits_eq (s : Bytes) {delta : ℕ} (h : delta + 9 ≤ 2 ^ 53) :
    @addDigits doubles s delta = addDigits s delta := by
  induction s with
  | nil => rfl
  | cons c s ih =>
    simp only [addDigits, ih]
    cases hrest : addDigits s delta with
    | none => rfl
    | some result =>
      obtain ⟨t, carry⟩ := result
      have hle := carry_le hrest
      dsimp only
      by_cases hdigit : isDigit c
      · have hlt := digitValue_lt hdigit
        have hsum : digitValue c + carry ≤ 2 ^ 53 := by omega
        rw [if_pos hdigit, if_pos hdigit, doubles_add, Binary64.round_eq hsum,
          Binary64.mod_ten hsum, doubles_floorDiv, Binary64.floorDiv_ten hsum, exact_add, exact_mod,
          exact_floorDiv]
      · rw [if_neg hdigit, if_neg hdigit]

theorem addOffsetBytes_eq (offset : Bytes) {delta : ℕ} (h : delta + 9 ≤ 2 ^ 53) :
    addOffsetBytes offset delta = Redis.addOffsetBytes offset delta := by
  unfold addOffsetBytes Redis.addOffsetBytes
  rw [addDigits_eq _ h]

theorem bulkCandidates_eq (members : List Bytes) (first rangeMax : Bytes) {budget : ℕ}
    (h : budget + 9 ≤ 2 ^ 53) (limit : ℕ) :
    @bulkCandidates doubles members first rangeMax budget limit =
      bulkCandidates members first rangeMax budget limit := by
  have hoffset := addOffsetBytes_eq (first.take 33) h
  unfold addOffsetBytes at hoffset
  simp only [bulkCandidates, hoffset]

/-- Two cursors with the same page, whose total is exact. -/
structure Agree (c c' : RangeCursor) : Prop where
  members : c.members = c'.members
  returnedBytes : c.returnedBytes = c'.returnedBytes
  empty : c'.members = [] → c'.returnedBytes = 0

theorem Agree.refl : Agree {} {} := ⟨rfl, rfl, fun _ => rfl⟩

theorem Agree.accept {c c' : RangeCursor} (h : Agree c c') {member : Bytes}
    (hlen : member.length ≤ 2 ^ 53) {targetBytes : ℕ} (htarget : targetBytes < 2 ^ 53)
    (allowOversized : Bool) :
    Agree (@RangeCursor.accept doubles targetBytes allowOversized c member).1
        (RangeCursor.accept targetBytes allowOversized c' member).1 ∧
      (@RangeCursor.accept doubles targetBytes allowOversized c member).2 =
        (RangeCursor.accept targetBytes allowOversized c' member).2 := by
  have hpayload : Binary64.round (Binary64.round member.length - 34) = member.length - 34 := by
    rw [Binary64.round_eq hlen, Binary64.round_eq (by omega)]
  simp only [RangeCursor.accept, doubles_round, doubles_add, doubles_sub, exact_round,
    exact_add, exact_sub, hpayload, h.members, h.returnedBytes, Binary64.round_le_iff htarget,
    Binary64.round_lt_iff htarget.le]
  split_ifs with hcond
  · refine ⟨⟨rfl, ?_, by simp⟩, rfl⟩
    apply Binary64.round_eq
    rcases hcond with hfits | ⟨hempty, -⟩
    · omega
    · rw [h.empty hempty]
      omega
  · exact ⟨⟨rfl, rfl, h.empty⟩, rfl⟩

variable {members : List Bytes}

theorem Agree.scan {c c' : RangeCursor} (h : Agree c c') (hlen : ∀ x ∈ members, x.length ≤ 2 ^ 53)
    {targetBytes : ℕ} (htarget : targetBytes < 2 ^ 53)
    (allowOversized : Bool) :
    Agree (Greedy.scan (@RangeCursor.accept doubles targetBytes allowOversized) members c).1
      (Greedy.scan (RangeCursor.accept targetBytes allowOversized) members c').1 := by
  induction members generalizing c c' with
  | nil => exact h
  | cons x members ih =>
    obtain ⟨hnext, hgo⟩ := h.accept (hlen x List.mem_cons_self) htarget allowOversized
    rw [Greedy.scan, Greedy.scan]
    generalize @RangeCursor.accept doubles targetBytes allowOversized c x = r at hnext hgo
    generalize RangeCursor.accept targetBytes allowOversized c' x = r' at hnext hgo
    obtain ⟨c₁, go⟩ := r
    obtain ⟨c₂, go'⟩ := r'
    obtain rfl : go = go' := hgo
    cases go with
    | true => exact ih hnext fun y hy => hlen y (List.mem_cons_of_mem x hy)
    | false => exact hnext

theorem mem_of_mem_bulkCandidates {first rangeMax x : Bytes}
    {budget limit : ℕ} (h : x ∈ bulkCandidates members first rangeMax budget limit) :
    x ∈ members := by
  unfold bulkCandidates at h
  dsimp only at h
  split at h
  · split at h
    · cases h
    · exact (mem_zrangebylex h).1
  · cases h

theorem fetchRange_agree {k : StreamKeys} {a : ReadArgs} (hlen : ∀ x ∈ k.msg, x.length ≤ 2 ^ 53)
    (htarget : a.targetBytes + 9 ≤ 2 ^ 53) (hframes : a.maxFrames ≤ 2 ^ 53)
    (tail : Option Bytes) (rangeMax : Bytes) (requireCandidate : Bool) :
    Option.Rel Agree (fetchRange k tail a rangeMax requireCandidate)
      (Redis.fetchRange k tail a rangeMax requireCandidate) := by
  simp only [fetchRange, Redis.fetchRange, doubles_round, doubles_sub, exact_round, exact_sub,
    Binary64.round_eq (show a.targetBytes ≤ 2 ^ 53 by omega), Binary64.round_eq hframes]
  cases hfirst : zrangebylex k.msg a.lexMin rangeMax 1 with
  | nil =>
    dsimp only
    split
    · exact .none
    · exact .some .refl
  | cons first rest =>
    have hmem : first ∈ k.msg := (mem_zrangebylex (hfirst ▸ List.mem_cons_self)).1
    obtain ⟨hagree, hgo⟩ := Agree.refl.accept (hlen first hmem)
      (show a.targetBytes < 2 ^ 53 by omega) a.allowOversized
    dsimp only
    generalize @RangeCursor.accept doubles a.targetBytes a.allowOversized {} first = r at hagree hgo
    generalize RangeCursor.accept a.targetBytes a.allowOversized {} first = r' at hagree hgo
    obtain ⟨c, go⟩ := r
    obtain ⟨c', go'⟩ := r'
    obtain rfl : go = go' := hgo
    rw [hagree.members, hagree.returnedBytes,
      Binary64.round_eq (show a.targetBytes - c'.returnedBytes ≤ 2 ^ 53 by omega),
      Binary64.round_eq (show a.maxFrames - c'.members.length ≤ 2 ^ 53 by omega),
      bulkCandidates_eq _ _ _ (by omega)]
    split
    · refine .some (hagree.scan ?_ (by omega) a.allowOversized)
      exact fun x hx => hlen x (mem_of_mem_bulkCandidates hx)
    · exact .some hagree

end Lua

section Page

variable {m : Message} {ms : List Message} {base : Offset}

theorem offsets_increase (hms : ∀ m ∈ ms, m.offset.Small) (hlaid : EndToEnd base ms)
    (hsorted : SortedSet.Sorted (ms.map frame)) : ms.Pairwise (·.offset < ·.offset) := by
  rw [← List.isChain_iff_pairwise]
  induction ms generalizing base with
  | nil => exact .nil
  | cons m ms ih =>
    obtain ⟨-, hrest⟩ := hlaid
    rw [SortedSet.Sorted, List.map_cons, List.pairwise_cons] at hsorted
    have hchain := ih (fun x hx => hms x (List.mem_cons_of_mem m hx)) hrest hsorted.2
    cases ms with
    | nil => exact .singleton m
    | cons x ms =>
      refine .cons_cons ?_ hchain
      have hlt := hsorted.1 (frame x) (by simp)
      -- a frame that ends where the one before it ends is empty, and would stand before it
      rcases Nat.eq_zero_or_pos x.size with hzero | hpos
      · exfalso
        have hoffset : x.offset = m.offset := by
          rw [hrest.1, hzero]
          rfl
        have hdata : x.data = [] := List.length_eq_zero_iff.1 hzero
        rw [frame, frame, encodeFrame, encodeFrame, hoffset, hdata, ← Bytes.lexLt_iff_lt,
          Bytes.lexLt_append_left] at hlt
        simp at hlt
      · rw [hrest.1]
        exact Offset.lt_add hpos

/-- In doubles, the two stages fetch the page that is taken frame by frame, for every range of
every set of frames that lie end to end, while the budgets leave a double room for one more digit
and the end of the budget is an offset. The byte field of an offset is then advanced exactly, or
refused when the sum has more than sixteen digits. -/
theorem fetchRange_stepwise {k : StreamKeys} (hmsg : k.msg = ms.map frame)
    (hsorted : SortedSet.Sorted k.msg) (hlaid : EndToEnd base ms)
    (hms : ∀ m ∈ ms, m.offset.Small) (hlen : ∀ x ∈ k.msg, x.length ≤ 2 ^ 53) :
    (∀ (a : ReadArgs) (hi : Offset) (tail : Option Bytes) (requireCandidate : Bool),
      0 < a.targetBytes → a.targetBytes + 9 ≤ 2 ^ 53 → 0 < a.maxFrames → a.maxFrames ≤ 2 ^ 53 →
      (∀ m ∈ (ms.filter (inBounds a.lexMin (lexUpperBoundInclusive hi))).head?,
        m.offset.byteOffset + a.targetBytes < 10 ^ 16) →
      (Lua.fetchRange k tail a (lexUpperBoundInclusive hi) requireCandidate = none →
        ms.filter (inBounds a.lexMin (lexUpperBoundInclusive hi)) = []) ∧
      ∀ c, Lua.fetchRange k tail a (lexUpperBoundInclusive hi) requireCandidate = some c →
        c.members = (Greedy.stepwise Message.size a.targetBytes a.maxFrames a.allowOversized
          (ms.filter (inBounds a.lexMin (lexUpperBoundInclusive hi)))).map frame ∧
        c.returnedBytes = ((Greedy.stepwise Message.size a.targetBytes a.maxFrames
          a.allowOversized (ms.filter (inBounds a.lexMin (lexUpperBoundInclusive hi)))).map
            Message.size).sum) ∧
    ∀ (seq digits : Bytes) (delta : ℕ), seq.length = 16 → digits.length = 16 →
      digits.all isDigit → delta + 9 ≤ 2 ^ 53 →
      Lua.addOffsetBytes (seq ++ 95 :: digits) delta =
        if valueFrom 0 digits + delta < 10 ^ 16 then
          some (seq ++ 95 :: formatPadded 16 (valueFrom 0 digits + delta))
        else none := by
  constructor
  · intro a hi tail requireCandidate htarget hexact hframes hcount hroom
    have hincrease := offsets_increase hms hlaid (hmsg ▸ hsorted)
    have hagree := Lua.fetchRange_agree hlen hexact hcount tail (lexUpperBoundInclusive hi)
      requireCandidate
    cases hrange : ms.filter (inBounds a.lexMin (lexUpperBoundInclusive hi)) with
    | nil =>
      refine ⟨fun _ => rfl, fun c hc => ?_⟩
      have hempty : zrangebylex k.msg a.lexMin (lexUpperBoundInclusive hi) 1 = [] := by
        rw [hmsg, zrangebylex_map, hrange]
        rfl
      simp only [Lua.fetchRange, fetchRange, hempty] at hc
      split at hc
      · cases hc
      · cases hc
        exact ⟨rfl, rfl⟩
    | cons m rest =>
      have hm := hroom m (by rw [hrange]; rfl)
      obtain ⟨pre, post, rfl, hrest⟩ := range_split hms hincrease hrange
      obtain ⟨top, htiles⟩ := range_tiles hms hlaid hincrease
      rw [← hrest] at htiles
      -- a page that may not be oversized is one that already holds an element of no size
      have hbudget : Budget a a.targetBytes
          (if a.allowOversized then a.maxFrames else a.maxFrames + 1) 0
          (if a.allowOversized then 0 else 1) := by
        cases hallow : a.allowOversized with
        | true => exact ⟨rfl, rfl, hallow, htarget, hframes, fun _ => rfl⟩
        | false => exact ⟨rfl, rfl, hallow, htarget, Nat.succ_lt_succ hframes, fun _ => rfl⟩
      obtain ⟨c', hc', hmembers, hreturned, -⟩ := fetchRange_bounds hmsg hlaid hincrease hms
        hbudget (by omega) hrange tail requireCandidate
      rw [Greedy.page_eq_stepwise _ _ _ hframes htiles.size_pos] at hmembers hreturned
      rw [hc'] at hagree
      constructor
      · intro hnone
        rw [hnone] at hagree
        cases hagree
      · intro c hc
        rw [hc] at hagree
        cases hagree with
        | some h => exact ⟨h.members.trans hmembers, h.returnedBytes.trans hreturned⟩
  · intro seq digits delta hseq hdigits hall hexact
    rw [Lua.addOffsetBytes_eq _ hexact, addOffsetBytes_sum hseq hdigits hall]

def twoFrames : List Message := [⟨[1, 2, 3], ⟨0, 3⟩⟩, ⟨[4, 5], ⟨0, 5⟩⟩]

def fourBytes : ReadArgs where
  now := 0
  lexMin := lexLowerBound zeroOffset
  lexMax := lexUpperBoundInclusive ⟨0, 5⟩
  targetBytes := 4
  maxFrames := 10
  expectedIncarnation := []
  rootRead := false
  fetchFrames := true
  allowOversized := true
  requireCandidate := true
  touchRoot := false
  legacyIncarnation := []
  requestedRootOffset := []
  fixedRootTail := []
  rootOffsetNow := false

/-- Of two frames of three and two bytes, a budget of four bytes takes the first. -/
theorem fetchRange_stepwise_two :
    ∃ c, Lua.fetchRange { msg := twoFrames.map frame } none fourBytes
        (lexUpperBoundInclusive ⟨0, 5⟩) true = some c ∧
      c.members = [frame ⟨[1, 2, 3], ⟨0, 3⟩⟩] := by
  have hsmall : ∀ m ∈ twoFrames, m.offset.Small := by decide
  have hrange : twoFrames.filter (inBounds fourBytes.lexMin (lexUpperBoundInclusive ⟨0, 5⟩)) =
      twoFrames := by decide
  have hgreedy := (fetchRange_stepwise (k := { msg := twoFrames.map frame }) rfl
    (sorted_frames hsmall (by decide)) (show EndToEnd zeroOffset twoFrames from ⟨rfl, rfl, trivial⟩)
    hsmall (by decide)).1 fourBytes ⟨0, 5⟩ none true (by decide) (by decide) (by decide) (by decide)
    (by rw [hrange]; decide)
  rw [hrange] at hgreedy
  cases hc : Lua.fetchRange { msg := twoFrames.map frame } none fourBytes
      (lexUpperBoundInclusive ⟨0, 5⟩) true with
  | none => cases hgreedy.1 hc
  | some c => exact ⟨c, rfl, (hgreedy.2 c hc).1⟩

/-- Next to the largest exact double a sum is rounded. -/
theorem addOffsetBytes_rounded :
    Lua.addOffsetBytes (Offset.string ⟨0, 2⟩) (2 ^ 53 - 1) = some (Offset.string ⟨0, 2 ^ 53⟩) ∧
      Offset.string ⟨0, 2 + (2 ^ 53 - 1)⟩ ≠ Offset.string ⟨0, 2 ^ 53⟩ := by
  decide +kernel

end Page

end Chronicle.Redis
