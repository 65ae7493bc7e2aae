import Chronicle.Memory.Pages
import Chronicle.Redis.Correspondence
import Chronicle.Redis.Segments

/-! # Ranges of frames

The range of a sorted set between two bounds is the frames of the messages
between two offsets. A range is fetched in two stages, its first frame and then
those that can fit, and what is returned is the greedy page of the range.
-/

namespace Chronicle

section Tiles

variable {lo hi : Offset} {m : Message} {ms : List Message}

theorem Tiles.size_pos (h : Tiles lo hi ms) : ∀ m ∈ ms, 0 < m.size := by
  induction h with
  | nil => simp
  | cons hend hne hrest ih =>
    intro m' hm'
    rcases List.mem_cons.mp hm' with rfl | hm'
    · exact List.length_pos_iff.mpr hne
    · exact ih m' hm'

/-- Each message ends as far behind the one before it as its payload is long. -/
def EndToEnd : Offset → List Message → Prop
  | _, [] => True
  | lo, m :: ms => m.offset = lo.add m.size ∧ EndToEnd m.offset ms

theorem Tiles.endToEnd (h : Tiles lo hi ms) : EndToEnd lo ms := by
  induction h with
  | nil => trivial
  | cons hend _ _ ih => exact ⟨hend, ih⟩

theorem EndToEnd.tiles (h : EndToEnd lo ms) (hlt : ∀ m ∈ ms, lo < m.offset)
    (hsorted : ms.Pairwise (·.offset < ·.offset)) : ∃ hi, Tiles lo hi ms := by
  induction ms generalizing lo with
  | nil => exact ⟨lo, .nil lo⟩
  | cons m ms ih =>
    obtain ⟨hend, hrest⟩ := h
    rw [List.pairwise_cons] at hsorted
    obtain ⟨hi, htiles⟩ := ih hrest hsorted.1 hsorted.2
    refine ⟨hi, .cons hend ?_ htiles⟩
    intro hdata
    have hm := hlt m List.mem_cons_self
    rw [hend, Message.size, hdata] at hm
    exact lt_irrefl lo hm

theorem EndToEnd.behind {pre : List Message} (h : EndToEnd lo (pre ++ m :: ms))
    (hsorted : (pre ++ m :: ms).Pairwise (·.offset < ·.offset)) : ∃ hi, Tiles m.offset hi ms := by
  induction pre generalizing lo with
  | nil =>
    rw [List.nil_append, List.pairwise_cons] at hsorted
    exact h.2.tiles hsorted.1 hsorted.2
  | cons x pre ih =>
    rw [List.cons_append, List.pairwise_cons] at hsorted
    exact ih h.2 hsorted.2

theorem Tiles.of_prefix {ms' : List Message} (h : Tiles lo hi ms) (hp : ms' <+: ms) :
    ∃ hi', Tiles lo hi' ms' := by
  induction h generalizing ms' with
  | nil lo =>
    obtain rfl := List.prefix_nil.1 hp
    exact ⟨lo, .nil lo⟩
  | @cons lo hi m ms hend hne hrest ih =>
    rcases ms' with _ | ⟨x, ms'⟩
    · exact ⟨lo, .nil lo⟩
    · obtain ⟨rfl, hp'⟩ := List.cons_prefix_cons.1 hp
      obtain ⟨hi', htiles⟩ := ih hp'
      exact ⟨hi', .cons hend hne htiles⟩

theorem page_tiles (h : Tiles lo hi ms) {target frames used count : ℕ} (hcount : count ≠ 0)
    (hused : used ≤ target) :
    Greedy.page Message.size target frames used count ms =
      (ms.filter fun m => m.offset ≤ lo.add (target - used)).take (frames - count) := by
  induction h generalizing used count with
  | nil => simp [Greedy.page]
  | @cons lo hi m ms hend hne hrest ih =>
    have hpos : 0 < m.data.length := List.length_pos_iff.mpr hne
    have hbehind : ∀ x ∈ ms, m.offset < x.offset := hrest.lt
    rw [Greedy.page]
    by_cases hframes : frames ≤ count
    · rw [if_pos (.inl hframes), Nat.sub_eq_zero_of_le hframes, List.take_zero]
    by_cases hfit : target < used + m.size
    · rw [if_pos (.inr ⟨hcount, hfit⟩), List.filter_eq_nil_iff.mpr, List.take_nil]
      have hm : lo.add (target - used) < m.offset := by
        unfold Message.size at hfit
        rw [hend, Offset.lt_def]
        refine .inr ⟨rfl, ?_⟩
        simp only [Offset.add]
        omega
      intro x hx
      rcases List.mem_cons.mp hx with rfl | hx
      · simpa using hm
      · simpa using hm.trans (hbehind x hx)
    have hle : m.offset ≤ lo.add (target - used) := by
      unfold Message.size at hfit
      rw [hend, Offset.le_def]
      refine .inr ⟨rfl, ?_⟩
      simp only [Offset.add]
      omega
    have htake : frames - count = frames - (count + 1) + 1 := by omega
    rw [if_neg (by omega), List.filter_cons_of_pos (by simpa using hle), htake, List.take_succ_cons]
    by_cases hmore : used + m.size < target
    · rw [if_pos hmore, ih (by omega) (by omega)]
      have hadd : m.offset.add (target - (used + m.size)) = lo.add (target - used) := by
        rw [hend]
        unfold Message.size at *
        simp only [Offset.add, Offset.mk.injEq, true_and]
        omega
      rw [hadd]
    · rw [if_neg hmore, List.filter_eq_nil_iff.mpr, List.take_nil]
      have heq : lo.add (target - used) = m.offset := by
        rw [hend]
        unfold Message.size at *
        simp only [Offset.add, Offset.mk.injEq, true_and]
        omega
      intro x hx
      rw [heq]
      simpa using hbehind x hx

end Tiles

namespace Redis

open Arithmetic (round exact_round exact_add exact_sub exact_mod exact_floorDiv)
open Decimal

section Numbers

theorem intParts_formatPadded (w n : ℕ) : intParts (formatPadded w n) = intParts (formatInt n) := by
  have hdrop : (formatPadded w n).dropWhile (· = 48) = (formatNat n).dropWhile (· = 48) := by
    rw [formatPadded]
    generalize w - (formatNat n).length = z
    induction z with
    | zero => rfl
    | succ z ih =>
      rw [List.replicate_succ, List.cons_append, List.dropWhile_cons_of_pos (by decide), ih]
  have hsign {s : Bytes} (hs : s.all isDigit) : s.take 1 ≠ [45] := by
    intro h
    rcases s with _ | ⟨c, s⟩
    · cases h
    · rw [List.take_succ_cons, List.take_zero, List.cons.injEq] at h
      rw [List.all_cons, h.1] at hs
      cases hs
  have hpad := hsign (all_isDigit_formatPadded w n)
  have hnat := hsign (all_isDigit_formatNat n)
  change intParts (formatPadded w n) = intParts (formatNat n)
  simp only [intParts, hpad, hnat, decide_false, if_false, hdrop]

theorem intCmp_formatPadded (w m n : ℕ) :
    intCmp (formatPadded w m) (formatPadded w n) = sign m n := by
  rw [← intCmp_formatInt, intCmp, intCmp, intParts_formatPadded, intParts_formatPadded]

theorem offsetParts_string (o : Offset) :
    offsetParts o.string = some (formatPadded 16 o.readSeq, formatPadded 16 o.byteOffset) := by
  have htake : o.string.takeWhile isDigit = formatPadded 16 o.readSeq := by
    rw [Offset.string, List.takeWhile_append_of_pos]
    · simp [isDigit]
    · exact fun c hc => List.all_eq_true.mp (all_isDigit_formatPadded 16 o.readSeq) c hc
  have hdrop : o.string.dropWhile isDigit = 95 :: formatPadded 16 o.byteOffset := by
    rw [Offset.string, List.dropWhile_append_of_pos]
    · rfl
    · exact fun c hc => List.all_eq_true.mp (all_isDigit_formatPadded 16 o.readSeq) c hc
  simp only [offsetParts, htake, hdrop]
  rw [if_pos ⟨formatPadded_ne_nil _ _, formatPadded_ne_nil _ _, all_isDigit_formatPadded _ _⟩]

theorem sign_eq_sub (a b : ℤ) : sign a b = (a - b).sign := by
  rcases lt_trichotomy a b with h | rfl | h
  · rw [Int.sign_eq_neg_one_of_neg (by omega), sign, if_pos h]
  · simp [sign]
  · rw [Int.sign_eq_one_of_pos (by omega), sign, if_neg h.not_gt, if_pos h]

theorem offsetCmp_string (a b : Offset) : offsetCmp a.string b.string = some (a.compare b) := by
  rw [offsetCmp, offsetParts_string, offsetParts_string]
  simp only [intCmp_formatPadded, sign, Offset.compare, Nat.cast_lt]
  split_ifs <;> first | rfl | omega

/-- The scripts compare and increment numbers of any size as the integers that the
strings stand for, and decide about a producer as the in-memory store does. -/
theorem decimal_strings_exact :
    (∀ a b : ℤ, intCmp (formatInt a) (formatInt b) = (a - b).sign) ∧
    (∀ a : ℤ, intAddOne (formatInt a) = formatInt (a + 1)) ∧
    (∀ a b : Offset, offsetCmp a.string b.string = some (a.compare b)) ∧
    ∀ (state : Option ProducerState) (epoch seq now : ℤ),
      validateProducer (state.map encodeProducerState) (formatInt epoch) (formatInt seq) =
        some (match Chronicle.validateProducer state epoch seq now with
          | (r, none, none) => .dup (formatInt r.lastSeq)
          | other => outcomeOf other) := by
  refine ⟨fun a b => ?_, intAddOne_formatInt, offsetCmp_string, validateProducer_encode⟩
  rw [intCmp_formatInt, sign_eq_sub]

theorem eq_of_value_eq {s t : Bytes} (hs : s.all isDigit) (ht : t.all isDigit)
    (hlen : s.length = t.length) (h : valueFrom 0 s = valueFrom 0 t) : s = t := by
  have hst : ¬ s < t := by
    rw [← Bytes.lexLt_iff_lt, lexLt_iff hs ht hlen]
    omega
  have hts : ¬ t < s := by
    rw [← Bytes.lexLt_iff_lt, lexLt_iff ht hs hlen.symm]
    omega
  exact List.le_antisymm (List.not_lt.mp hts) (List.not_lt.mp hst)

theorem addDigits_spec {s : Bytes} (hs : s.all isDigit) (delta : ℕ) :
    ∃ t carry, addDigits s delta = some (t, carry) ∧ t.all isDigit = true ∧
      t.length = s.length ∧ valueFrom 0 t + carry * 10 ^ s.length = valueFrom 0 s + delta := by
  induction s with
  | nil => exact ⟨[], delta, rfl, rfl, rfl, by simp⟩
  | cons c s ih =>
    rw [List.all_cons, Bool.and_eq_true] at hs
    rcases ih hs.2 with ⟨t, carry, ht, hdigits, hlen, hvalue⟩
    have hlt : (digitValue c + carry) % 10 < 10 := Nat.mod_lt _ (by omega)
    refine ⟨digit ((digitValue c + carry) % 10) :: t, (digitValue c + carry) / 10, ?_, ?_, ?_, ?_⟩
    · simp only [addDigits, ht, hs.1, if_true, exact_add, exact_mod, exact_floorDiv]
    · rw [List.all_cons, isDigit_digit hlt, hdigits]
      rfl
    · rw [List.length_cons, List.length_cons, hlen]
    · have hdiv := Nat.mod_add_div (digitValue c + carry) 10
      generalize (digitValue c + carry) / 10 = q at *
      generalize (digitValue c + carry) % 10 = r at *
      rw [valueFrom_cons, valueFrom_cons, valueFrom_eq, valueFrom_eq (10 * 0 + digitValue c),
        digitValue_digit hlt, hlen, List.length_cons, pow_succ]
      generalize 10 ^ s.length = z at *
      nlinarith [congrArg (· * z) hdiv]

/-- The byte field of an offset is advanced as a number of sixteen digits. A sum of more digits is
refused. -/
theorem addOffsetBytes_sum {seq digits : Bytes} (hseq : seq.length = 16)
    (hlen : digits.length = 16) (hdigits : digits.all isDigit) (delta : ℕ) :
    addOffsetBytes (seq ++ 95 :: digits) delta =
      if valueFrom 0 digits + delta < 10 ^ 16 then
        some (seq ++ 95 :: formatPadded 16 (valueFrom 0 digits + delta))
      else none := by
  have htake : (seq ++ 95 :: digits).take 17 = seq ++ [95] := by
    rw [List.take_append, hseq, List.take_of_length_le (by omega)]
    rfl
  have hdrop : (seq ++ 95 :: digits).drop 17 = digits := by
    rw [List.drop_append, hseq, List.drop_eq_nil_of_le (by omega)]
    rfl
  have hsep : (seq ++ 95 :: digits)[16]? = some 95 := by
    rw [List.getElem?_append_right (by omega), hseq]
    rfl
  obtain ⟨t, carry, ht, htdigits, htlen, hvalue⟩ := addDigits_spec hdigits delta
  rw [hlen] at htlen hvalue
  have hlt := value_lt htdigits
  rw [htlen] at hlt
  have hform : ¬ ((seq ++ 95 :: digits).length ≠ 33 ∨ (seq ++ 95 :: digits)[16]? ≠ some 95) := by
    rw [hsep, List.length_append, List.length_cons, hseq, hlen]
    simp
  rw [addOffsetBytes, if_neg hform, hdrop, ht]
  cases carry with
  | zero =>
    have hsum : valueFrom 0 t = valueFrom 0 digits + delta := by omega
    have hfield : t = formatPadded 16 (valueFrom 0 digits + delta) := by
      apply eq_of_value_eq htdigits (all_isDigit_formatPadded _ _)
      · rw [htlen, length_formatPadded (by omega) (by omega)]
      · rw [valueFrom_formatPadded, hsum]
    rw [if_pos (by omega), ← hfield]
    change some ((seq ++ 95 :: digits).take 17 ++ t) = _
    rw [htake, List.append_assoc]
    rfl
  | succ carry =>
    rw [if_neg (by rw [Nat.add_mul] at hvalue; omega)]
    rfl

theorem addOffsetBytes_offset {o : Offset} (ho : o.Small) (delta : ℕ) :
    addOffsetBytes o.string delta =
      if o.byteOffset + delta < 10 ^ 16 then some (o.add delta).string else none := by
  have hsum := addOffsetBytes_sum (length_formatPadded (by omega) ho.1)
    (length_formatPadded (by omega) ho.2) (all_isDigit_formatPadded 16 o.byteOffset) delta
  rwa [valueFrom_formatPadded] at hsum

end Numbers

variable {lo hi : Offset} {m : Message} {ms : List Message}

section Ranges

theorem lexBelow_frame_eq (hhi : hi.Small) (hm : m.offset.Small) :
    lexBelow (lexUpperBoundInclusive hi) (frame m) = decide (m.offset ≤ hi) := by
  have hlen : m.offset.string.length = hi.string.length := by
    rw [Offset.length_string hhi, Offset.length_string hm]
  change (!Bytes.lexLt (hi.string ++ [255]) (m.offset.string ++ 124 :: m.data)) = _
  rcases lt_trichotomy m.offset hi with h | h | h
  · rw [Bytes.lexLt_asymm (Bytes.lexLt_append_of_lt hlen ((Offset.lexLt_string hm hhi).mpr h) _ _),
      decide_eq_true h.le]
    rfl
  · rw [h, Bytes.lexLt_append_left, decide_eq_true le_rfl]
    rfl
  · rw [Bytes.lexLt_append_of_lt hlen.symm ((Offset.lexLt_string hhi hm).mpr h) _ _,
      decide_eq_false h.not_ge]
    rfl

theorem lexAbove_frame_eq (hlo : lo.Small) (hm : m.offset.Small) :
    lexAbove (lexLowerBound lo) (frame m) = decide (lo < m.offset) := by
  have hlen : m.offset.string.length = lo.string.length := by
    rw [Offset.length_string hlo, Offset.length_string hm]
  change Bytes.lexLt (lo.string ++ [255]) (m.offset.string ++ 124 :: m.data) = _
  rcases lt_trichotomy m.offset lo with h | h | h
  · rw [Bytes.lexLt_asymm (Bytes.lexLt_append_of_lt hlen ((Offset.lexLt_string hm hlo).mpr h) _ _),
      decide_eq_false h.not_gt]
  · rw [h, Bytes.lexLt_append_left, decide_eq_false (lt_irrefl _)]
    rfl
  · rw [Bytes.lexLt_append_of_lt hlen.symm ((Offset.lexLt_string hlo hm).mpr h) _ _,
      decide_eq_true h]

/-- Whether the frame of a message lies between two bounds of a range. -/
def inBounds (lexMin rangeMax : Bytes) (m : Message) : Bool :=
  lexAbove lexMin (frame m) && lexBelow rangeMax (frame m)

theorem zrangebylex_map (ms : List Message) (lexMin rangeMax : Bytes) (n : ℕ) :
    zrangebylex (ms.map frame) lexMin rangeMax n =
      ((ms.filter (inBounds lexMin rangeMax)).take n).map frame := by
  rw [zrangebylex, List.filter_map, ← List.map_take]
  rfl

theorem inBounds_eq (hlo : lo.Small) (hhi : hi.Small) (hm : m.offset.Small) :
    inBounds (lexLowerBound lo) (lexUpperBoundInclusive hi) m = inRange lo hi m := by
  rw [inBounds, lexAbove_frame_eq hlo hm, lexBelow_frame_eq hhi hm, inRange, ← Bool.decide_and]

/-- A range of the sorted set is a range of messages. -/
theorem zrangebylex_frames (hlo : lo.Small) (hhi : hi.Small) (hms : ∀ m ∈ ms, m.offset.Small)
    (n : ℕ) :
    zrangebylex (ms.map frame) (lexLowerBound lo) (lexUpperBoundInclusive hi) n =
      ((ms.filter (inRange lo hi)).take n).map frame := by
  rw [zrangebylex_map, List.filter_congr fun m hm => inBounds_eq hlo hhi (hms m hm)]

theorem lexLt_frame_iff (hm : m.offset.Small) {m' : Message} (hm' : m'.offset.Small)
    (h : m.offset = m'.offset → m = m') :
    Bytes.lexLt (frame m) (frame m') ↔ m.offset < m'.offset := by
  rw [Bytes.lexLt_iff_lt]
  constructor
  · intro hlt
    rcases lt_trichotomy m.offset m'.offset with ho | ho | ho
    · exact ho
    · exact absurd (h ho ▸ hlt) (List.lt_irrefl _)
    · exact absurd (List.lt_trans hlt (lt_frame hm' hm ho)) (List.lt_irrefl _)
  · exact lt_frame hm hm'

/-- A member of the sorted set decodes to the message it was made from, the members
are in the order of their offsets, and a range between the bounds of two offsets is
the frames with an offset above the one and up to the other. -/
theorem frames_in_offset_order (hlo : lo.Small) (hhi : hi.Small)
    (hsmall : ∀ m ∈ ms, m.offset.Small) (hdistinct : (ms.map Message.offset).Nodup) :
    (∀ (o : Offset) (d : Bytes), o.Small → decodeFrame (encodeFrame o d) = some ⟨d, o⟩) ∧
    (∀ m ∈ ms, ∀ m' ∈ ms,
      (Bytes.lexLt (encodeFrame m.offset m.data) (encodeFrame m'.offset m'.data) ↔
        m.offset.compare m'.offset < 0)) ∧
    let members := zaddAll (ms.map frame) []
    let range :=
      zrangebylex members (lexLowerBound lo) (lexUpperBoundInclusive hi) members.length
    SortedSet.Sorted range ∧ ∀ x, x ∈ range ↔
      ∃ m ∈ ms, encodeFrame m.offset m.data = x ∧ 0 < m.offset.compare lo ∧
        m.offset.compare hi ≤ 0 := by
  have hcmp : ∀ a b : Offset, 0 < a.compare b ↔ b < a := by
    intro a b
    rw [Offset.lt_def, Offset.compare]
    split_ifs <;> omega
  have hmem : ∀ x, x ∈ zaddAll (ms.map frame) [] ↔ ∃ m ∈ ms, frame m = x := by
    intro x
    have hperm : (zaddAll (ms.map frame) []).Perm (ms.map frame) :=
      zaddAll_perm (l := []) (.refl _) (List.Nodup.of_map _ hdistinct)
    rw [hperm.mem_iff, List.mem_map]
  have hrange : ∀ m ∈ ms, (lexAbove (lexLowerBound lo) (frame m) &&
      lexBelow (lexUpperBoundInclusive hi) (frame m)) = true ↔
      0 < m.offset.compare lo ∧ m.offset.compare hi ≤ 0 := by
    intro m hm
    rw [lexAbove_frame_eq hlo (hsmall m hm), lexBelow_frame_eq hhi (hsmall m hm),
      Bool.and_eq_true, decide_eq_true_eq, decide_eq_true_eq, hcmp,
      ← not_lt (b := m.offset.compare hi), hcmp, not_lt]
  refine ⟨fun o d ho => decodeFrame_frame (m := ⟨d, o⟩) ho, fun m hm m' hm' => ?_, ?_, ?_⟩
  · rw [← decide_eq_true_iff (p := m.offset.compare m'.offset < 0)]
    exact (lexLt_frame_iff (hsmall m hm) (hsmall m' hm')
      (List.inj_on_of_nodup_map hdistinct hm hm')).trans Offset.lessThan_iff.symm
  · rw [zrangebylex, List.take_of_length_le (List.length_filter_le _ _)]
    exact List.Pairwise.filter _ (SortedSet.Sorted.insertAll List.Pairwise.nil _)
  · intro x
    rw [zrangebylex, List.take_of_length_le (List.length_filter_le _ _), List.mem_filter, hmem]
    constructor
    · rintro ⟨⟨m, hm, rfl⟩, hbounds⟩
      exact ⟨m, hm, rfl, (hrange m hm).mp hbounds⟩
    · rintro ⟨m, hm, rfl, hbounds⟩
      exact ⟨⟨m, hm, rfl⟩, (hrange m hm).mpr hbounds⟩

theorem frames_in_offset_order_bytes :
    let ms : List Message := [⟨[255, 124], ⟨0, 12⟩⟩, ⟨[0], ⟨0, 7⟩⟩, ⟨[], ⟨1, 0⟩⟩]
    let members := zaddAll (ms.map frame) []
    frame ⟨[0], ⟨0, 7⟩⟩ ∈ zrangebylex members (lexLowerBound ⟨0, 3⟩)
      (lexUpperBoundInclusive ⟨0, 7⟩) members.length :=
  ((@frames_in_offset_order ⟨0, 3⟩ ⟨0, 7⟩ _ (by decide) (by decide) (by decide)
    (by decide)).2.2.2 _).mpr ⟨⟨[0], ⟨0, 7⟩⟩, by simp, rfl, by decide, by decide⟩

theorem lexAbove_of_lt {lexMin x y : Bytes} (hxy : Bytes.lexLt x y) (h : lexAbove lexMin x) :
    lexAbove lexMin y := by
  unfold lexAbove at *
  split
  · simp only [Bytes.lexLt_iff_lt] at *
    exact List.lt_trans h hxy
  · simp only [Bytes.lexLe, Bool.not_eq_true', ← Bool.not_eq_true, Bytes.lexLt_iff_lt] at *
    exact fun hlt => h (List.lt_trans hxy hlt)
  · exact absurd h (by simp [*])

theorem lexBelow_of_lt {rangeMax x y : Bytes} (hxy : Bytes.lexLt x y) (h : lexBelow rangeMax y) :
    lexBelow rangeMax x := by
  unfold lexBelow at *
  split
  · simp only [Bytes.lexLt_iff_lt] at *
    exact List.lt_trans hxy h
  · simp only [Bytes.lexLe, Bool.not_eq_true', ← Bool.not_eq_true, Bytes.lexLt_iff_lt] at *
    exact fun hlt => h (List.lt_trans hlt hxy)
  · exact absurd h (by simp [*])

theorem lexBelow_min (a b x : Bytes) :
    lexBelow (if Bytes.lexLt (91 :: a) (91 :: b) then 91 :: a else 91 :: b) x =
      (lexBelow (91 :: a) x && lexBelow (91 :: b) x) := by
  rw [Bool.eq_iff_iff, Bool.and_eq_true]
  split
  · rename_i hlt
    have hba : ¬ Bytes.lexLt (91 :: b) (91 :: a) := Bool.eq_false_iff.1 (Bytes.lexLt_asymm hlt)
    exact ⟨fun h => ⟨h, lexBelow_mono hba h⟩, And.left⟩
  · rename_i hlt
    exact ⟨fun h => ⟨lexBelow_mono hlt h, h⟩, And.right⟩

end Ranges

section Fetch

variable {base : Offset} {rest : List Message} {rangeMax : Bytes} {k : StreamKeys} {a : ReadArgs}

theorem length_frame (hm : m.offset.Small) : (frame m).length - 34 = m.size := by
  rw [frame, encodeFrame, List.length_append, Offset.length_string hm, List.length_cons]
  unfold Message.size
  omega

theorem take_frame (hm : m.offset.Small) : (frame m).take 33 = m.offset.string := by
  rw [frame, encodeFrame, List.take_append_of_le_length (Offset.length_string hm).ge,
    List.take_of_length_le (Offset.length_string hm).le]

theorem scan_accept_fits {target : ℕ} {allow : Bool} (hsmall : ∀ m ∈ ms, m.offset.Small)
    (hne : ∀ m ∈ ms, 0 < m.size) {c : RangeCursor}
    (hfit : c.returnedBytes + (ms.map Message.size).sum ≤ target) :
    (Greedy.scan (RangeCursor.accept target allow) (ms.map frame) c).1 =
      { members := c.members ++ ms.map frame
        fetchedBytes := c.fetchedBytes + (ms.map Message.size).sum
        returnedBytes := c.returnedBytes + (ms.map Message.size).sum } := by
  induction ms generalizing c with
  | nil => simp
  | cons m ms ih =>
    rw [List.map_cons, List.sum_cons] at hfit
    have haccept : RangeCursor.accept target allow c (frame m) =
        ({ members := c.members ++ [frame m], fetchedBytes := c.fetchedBytes + m.size
           returnedBytes := c.returnedBytes + m.size },
          decide (c.returnedBytes + m.size < target)) := by
      simp only [RangeCursor.accept, exact_round, exact_add, exact_sub,
        length_frame (hsmall m List.mem_cons_self)]
      rw [if_pos (.inl (by omega))]
    rw [List.map_cons, Greedy.scan, haccept]
    by_cases hmore : c.returnedBytes + m.size < target
    · rw [decide_eq_true hmore]
      rw [ih (fun x hx => hsmall x (List.mem_cons_of_mem _ hx))
        (fun x hx => hne x (List.mem_cons_of_mem _ hx)) (by simpa [Nat.add_assoc] using hfit)]
      simp [Nat.add_assoc]
    · -- the budget is spent, so nothing follows
      have hnil : ms = [] := by
        rcases ms with _ | ⟨x, ms⟩
        · rfl
        · have := hne x (by simp)
          rw [List.map_cons, List.sum_cons] at hfit
          omega
      subst hnil
      rw [decide_eq_false hmore]
      simp

/-- Behind the first frame of a range the range is what lies below its upper bound. -/
theorem range_split {lexMin : Bytes} (hms : ∀ m ∈ ms, m.offset.Small)
    (hsorted : ms.Pairwise (·.offset < ·.offset))
    (hr : ms.filter (inBounds lexMin rangeMax) = m :: rest) :
    ∃ pre post, ms = pre ++ m :: post ∧
      rest = post.filter fun x => lexBelow rangeMax (frame x) := by
  obtain ⟨pre, post, rfl, -, hm, rfl⟩ := List.filter_eq_cons_iff.1 hr
  rw [inBounds, Bool.and_eq_true] at hm
  refine ⟨pre, post, rfl, List.filter_congr fun x hx => ?_⟩
  have hlt : m.offset < x.offset := by
    have hbehind := (List.pairwise_append.1 hsorted).2.1
    exact (List.pairwise_cons.1 hbehind).1 x hx
  have habove : lexAbove lexMin (frame x) := by
    refine lexAbove_of_lt (Bytes.lexLt_iff_lt.2 ?_) hm.1
    exact lt_frame (hms m (by simp)) (hms x (by simp [hx])) hlt
  rw [inBounds, habove, Bool.true_and]

/-- The messages of a range behind its first one lie end to end. -/
theorem range_tiles {pre post : List Message}
    (hms : ∀ x ∈ pre ++ m :: post, x.offset.Small) (hlaid : EndToEnd base (pre ++ m :: post))
    (hsorted : (pre ++ m :: post).Pairwise (·.offset < ·.offset)) :
    ∃ hi', Tiles m.offset hi' (post.filter fun x => lexBelow rangeMax (frame x)) := by
  obtain ⟨top, htiles⟩ := hlaid.behind hsorted
  refine htiles.of_prefix ?_
  have hpost := (List.pairwise_cons.1 (List.pairwise_append.1 hsorted).2.1).2
  have hsmall : ∀ x ∈ post, x.offset.Small := fun x hx => hms x (by simp [hx])
  clear htiles hlaid hsorted hms
  induction post with
  | nil => exact List.nil_prefix
  | cons x post ih =>
    rw [List.pairwise_cons] at hpost
    have hrest := ih hpost.2 fun y hy => hsmall y (List.mem_cons_of_mem x hy)
    by_cases hx : lexBelow rangeMax (frame x)
    · rw [List.filter_cons_of_pos (by simpa using hx)]
      exact List.cons_prefix_cons.2 ⟨rfl, hrest⟩
    · -- what lies behind a frame that is not below the bound is not below it either
      rw [List.filter_eq_nil_iff.2]
      · exact List.nil_prefix
      · intro y hy hbelow
        rcases List.mem_cons.1 hy with rfl | hy
        · exact hx hbelow
        · have hlt := lt_frame (hsmall x (by simp)) (hsmall y (by simp [hy])) (hpost.1 y hy)
          exact hx (lexBelow_of_lt (Bytes.lexLt_iff_lt.2 hlt) hbelow)

theorem bulkCandidates_bounds {pre post : List Message} (hi : Offset)
    (hms : ∀ x ∈ pre ++ m :: post, x.offset.Small)
    (hsorted : (pre ++ m :: post).Pairwise (·.offset < ·.offset))
    {budget : ℕ} (hroom : m.offset.byteOffset + budget < 10 ^ 16) (limit : ℕ) :
    bulkCandidates ((pre ++ m :: post).map frame) (frame m) (lexUpperBoundInclusive hi) budget
        limit =
      (((post.filter fun x => lexBelow (lexUpperBoundInclusive hi) (frame x)).filter fun x =>
        x.offset ≤ m.offset.add budget).take limit).map frame := by
  have hm := hms m (by simp)
  have hx : (m.offset.add budget).Small := ⟨hm.1, hroom⟩
  obtain ⟨-, hbehind, hbefore⟩ := List.pairwise_append.1 hsorted
  rw [List.pairwise_cons] at hbehind
  have hupper : ((lexUpperBoundInclusive hi).drop 1).dropLast = hi.string := by
    simp [lexUpperBoundInclusive]
  unfold bulkCandidates
  dsimp only
  rw [take_frame hm, hupper, addOffsetBytes_offset hm, if_pos hroom]
  by_cases hlt : Bytes.lexLt m.offset.string hi.string
  · rw [if_pos hlt]
    dsimp only
    rw [zrangebylex_map]
    congr 2
    have hin : ∀ x ∈ pre ++ m :: post, inBounds (40 :: m.offset.string ++ [255])
        (if Bytes.lexLt (lexUpperBoundInclusive hi)
            (91 :: (m.offset.add budget).string ++ [255]) then lexUpperBoundInclusive hi
          else 91 :: (m.offset.add budget).string ++ [255]) x =
        (decide (m.offset < x.offset) && (decide (x.offset ≤ m.offset.add budget) &&
          lexBelow (lexUpperBoundInclusive hi) (frame x))) := by
      intro x hmem
      rw [inBounds, ← lexAbove_frame_eq hm (hms x hmem), ← lexBelow_frame_eq hx (hms x hmem)]
      congr 1
      rw [Bool.and_comm]
      exact lexBelow_min _ _ _
    rw [List.filter_congr hin, List.filter_filter, List.filter_append, List.filter_cons_of_neg,
      List.filter_eq_nil_iff.2, List.nil_append]
    · refine List.filter_congr fun x hmem => ?_
      rw [decide_eq_true (hbehind.1 x hmem), Bool.true_and]
    · intro x hmem
      have := hbefore x hmem m List.mem_cons_self
      simp [this.not_gt]
    · simp
  · -- the first frame is at the upper bound
    have hnone : (post.filter fun x => lexBelow (lexUpperBoundInclusive hi) (frame x)) = [] := by
      rw [List.filter_eq_nil_iff]
      intro x hmem hbelow
      have hsmall := hms x (by simp [hmem])
      have hgt : Bytes.lexLt hi.string x.offset.string := by
        rw [Bytes.lexLt_iff_lt] at hlt ⊢
        have hmx := (Offset.lexLt_string hm hsmall).2 (hbehind.1 x hmem)
        rw [Bytes.lexLt_iff_lt] at hmx
        exact List.lt_of_le_of_lt (List.not_lt.1 hlt) hmx
      have hover := Bytes.lexLt_append_of_le
        (by rw [Offset.length_string hsmall]; exact hi.le_length_string) hgt [255] (124 :: x.data)
      rw [show lexBelow (lexUpperBoundInclusive hi) (frame x) =
        !Bytes.lexLt (hi.string ++ [255]) (x.offset.string ++ 124 :: x.data) from rfl, hover] at hbelow
      cases hbelow
    rw [if_neg hlt, hnone]
    simp

/-- How a range is fetched: what is left of the budgets of a page that holds some messages. -/
structure Budget (a : ReadArgs) (target frames used count : ℕ) : Prop where
  targetBytes : a.targetBytes = target - used
  maxFrames : a.maxFrames = frames - count
  allowOversized : a.allowOversized = decide (count = 0)
  unspent : used < target
  room : count < frames
  empty : count = 0 → used = 0

theorem Budget.accepts {target frames used count : ℕ} (h : Budget a target frames used count)
    (hm : m.offset.Small) (hfit : ¬ (count ≠ 0 ∧ target < used + m.size)) :
    RangeCursor.accept (round a.targetBytes) a.allowOversized {} (frame m) =
      ({ members := [frame m], fetchedBytes := m.size, returnedBytes := m.size },
        decide (m.size < target - used)) := by
  have hunspent := h.unspent
  simp only [RangeCursor.accept, exact_round, exact_add, exact_sub, length_frame hm,
    h.targetBytes, h.allowOversized]
  rw [if_pos (by simp; omega)]
  simp

/-- A range that has a message is fetched as the greedy page of it. -/
theorem fetchRange_bounds {target frames used count : ℕ} (hmsg : k.msg = ms.map frame)
    (hlaid : EndToEnd base ms)
    (hsorted : ms.Pairwise (·.offset < ·.offset)) (hms : ∀ m ∈ ms, m.offset.Small)
    (hbudget : Budget a target frames used count)
    (hroom : m.offset.byteOffset + (target - (used + m.size)) < 10 ^ 16)
    (hr : ms.filter (inBounds a.lexMin (lexUpperBoundInclusive hi)) = m :: rest)
    (tail : Option Bytes) (requireCandidate : Bool) :
    ∃ c, fetchRange k tail a (lexUpperBoundInclusive hi) requireCandidate = some c ∧
      c.members = (Greedy.page Message.size target frames used count (m :: rest)).map frame ∧
      c.returnedBytes =
        ((Greedy.page Message.size target frames used count (m :: rest)).map Message.size).sum ∧
      c.fetchedBytes =
        if Greedy.page Message.size target frames used count (m :: rest) = [] then m.size
        else c.returnedBytes := by
  obtain ⟨pre, post, rfl, hrest⟩ := range_split hms hsorted hr
  obtain ⟨top', htop⟩ := range_tiles hms hlaid hsorted
  rw [← hrest] at htop
  have hm := hms m (by simp)
  have hsmall : ∀ x ∈ rest, x.offset.Small := by
    intro x hx
    rw [hrest] at hx
    exact hms x (by simp [List.mem_of_mem_filter hx])
  have ⟨htarget, hframes, hallow, hused, hcount, hempty⟩ := hbudget
  unfold fetchRange
  rw [hmsg, zrangebylex_map, hr, List.take_succ_cons, List.take_zero, List.map_singleton]
  dsimp only
  by_cases hfit : count ≠ 0 ∧ target < used + m.size
  · have hpage : Greedy.page Message.size target frames used count (m :: rest) = [] := by
      rw [Greedy.page, if_pos (.inr hfit)]
    have haccept : RangeCursor.accept (round a.targetBytes) a.allowOversized {} (frame m) =
        ({ fetchedBytes := m.size }, false) := by
      simp only [RangeCursor.accept, exact_round, exact_add, exact_sub, length_frame hm, htarget,
        hallow]
      rw [if_neg (by simp [hfit.1]; omega)]
      simp
    rw [haccept, hpage, if_neg (by simp)]
    exact ⟨_, rfl, rfl, rfl, by simp⟩
  rw [hbudget.accepts hm hfit]
  simp only [exact_round, exact_sub]
  have hguard : ¬ (frames ≤ count ∨ (count ≠ 0 ∧ target < used + m.size)) := by
    rw [not_or]
    exact ⟨by omega, hfit⟩
  by_cases hmore : used + m.size < target
  · have hpage : Greedy.page Message.size target frames used count (m :: rest) =
        m :: Greedy.page Message.size target frames (used + m.size) (count + 1) rest := by
      rw [Greedy.page, if_neg hguard, if_pos hmore]
    have hfull := Greedy.page_size_of_ne_zero Message.size target frames
      (show count + 1 ≠ 0 by omega) hmore.le rest
    have hcut : Greedy.page Message.size target frames (used + m.size) (count + 1) rest = _ :=
      page_tiles htop (Nat.succ_ne_zero count) hmore.le
    rw [hpage]
    by_cases hone : count + 1 < frames
    · rw [if_pos (by simp [hframes]; omega)]
      have hbulk : bulkCandidates ((pre ++ m :: post).map frame) (frame m)
          (lexUpperBoundInclusive hi) (a.targetBytes - m.size) (a.maxFrames - 1) =
          (Greedy.page Message.size target frames (used + m.size) (count + 1) rest).map frame := by
        rw [htarget, hframes, Nat.sub_sub, Nat.sub_sub, bulkCandidates_bounds hi hms hsorted hroom,
          ← hrest, hcut]
      have hsubset : ∀ x ∈ Greedy.page Message.size target frames (used + m.size) (count + 1) rest,
          x ∈ rest := fun x hx => (Greedy.page_prefix _ _ _ _ _ _).subset hx
      refine ⟨_, rfl, ?_⟩
      dsimp only [List.length_singleton]
      rw [hbulk, scan_accept_fits (fun x hx => hsmall x (hsubset x hx))
        (fun x hx => htop.size_pos x (hsubset x hx)) (by dsimp only; omega)]
      exact ⟨by simp, by simp, by simp⟩
    · rw [if_neg (by simp [hframes]; omega)]
      have hnil : Greedy.page Message.size target frames (used + m.size) (count + 1) rest = [] := by
        rw [hcut, Nat.sub_eq_zero_of_le (by omega), List.take_zero]
      rw [hnil]
      exact ⟨_, rfl, by simp, by simp, by simp⟩
  · have hpage : Greedy.page Message.size target frames used count (m :: rest) = [m] := by
      rw [Greedy.page, if_neg hguard, if_neg hmore]
    rw [hpage, if_neg (by simp; omega)]
    exact ⟨_, rfl, by simp, by simp, by simp⟩

theorem bulkCandidates_overflow (hm : m.offset.Small) {members : List Bytes} {budget : ℕ}
    (h : 10 ^ 16 ≤ m.offset.byteOffset + budget) (limit : ℕ) :
    bulkCandidates members (frame m) rangeMax budget limit = [] := by
  unfold bulkCandidates
  dsimp only
  rw [take_frame hm, addOffsetBytes_offset hm, if_neg (not_lt.2 h)]
  split <;> rfl

/-- What is fetched first of a range that has messages: some of them, from the first one on. -/
structure Fetches (range : List Message) (target : ℕ) (page : List Message) (c : RangeCursor) :
    Prop where
  members : c.members = page.map frame
  fetchedBytes : c.fetchedBytes = (page.map Message.size).sum
  returnedBytes : c.returnedBytes = (page.map Message.size).sum
  isPrefix : page <+: range
  nonempty : page ≠ []
  bounded : (page.map Message.size).sum ≤ target ∨ ∃ m ∈ page, page = [m]

theorem fetchRange_prefix {top : Offset} {target frames : ℕ}
    (hmsg : k.msg = ms.map frame) (htiles : Tiles base top ms) (hms : ∀ m ∈ ms, m.offset.Small)
    (hlo : lo.Small) (hhi : hi.Small) (hmin : a.lexMin = lexLowerBound lo)
    (hbudget : Budget a target frames 0 0) (hr : ms.filter (inRange lo hi) = m :: rest)
    (tail : Option Bytes) (requireCandidate : Bool) :
    ∃ c page, fetchRange k tail a (lexUpperBoundInclusive hi) requireCandidate = some c ∧
      Fetches (m :: rest) target page c := by
  have hm : m.offset.Small :=
    hms m (List.mem_of_mem_filter (p := inRange lo hi) (hr ▸ List.mem_cons_self))
  by_cases hroom : m.offset.byteOffset + (target - (0 + m.size)) < 10 ^ 16
  · have hbounds : ms.filter (inBounds a.lexMin (lexUpperBoundInclusive hi)) = m :: rest := by
      rw [hmin, ← hr]
      exact List.filter_congr fun m hm => inBounds_eq hlo hhi (hms m hm)
    rcases fetchRange_bounds hmsg htiles.endToEnd htiles.sorted hms hbudget hroom hbounds tail
      requireCandidate with ⟨c, hc, hmembers, hreturned, hfetched⟩
    have hne := Greedy.page_ne_nil Message.size target frames (List.cons_ne_nil m rest)
      hbudget.room 0
    rw [if_neg hne] at hfetched
    refine ⟨c, _, hc, hmembers, hfetched.trans hreturned, hreturned, Greedy.page_prefix _ _ _ _ _ _,
      hne, ?_⟩
    rcases hpage : Greedy.page Message.size target frames 0 0 (m :: rest) with _ | ⟨x, _ | ⟨y, l⟩⟩
    · exact absurd hpage hne
    · exact .inr ⟨x, List.mem_cons_self, rfl⟩
    · rw [← hpage]
      exact .inl (Greedy.page_size _ _ _ (by rw [hpage]; simp))
  · have hbulk : ∀ limit, bulkCandidates (ms.map frame) (frame m) (lexUpperBoundInclusive hi)
        (a.targetBytes - m.size) limit = [] := by
      refine fun limit => bulkCandidates_overflow hm ?_ limit
      rw [hbudget.targetBytes]
      omega
    refine ⟨{ members := [frame m], fetchedBytes := m.size, returnedBytes := m.size }, [m], ?_,
      rfl, by simp, by simp, by simp, by simp, .inr ⟨m, List.mem_cons_self, rfl⟩⟩
    unfold fetchRange
    rw [hmin, hmsg, zrangebylex_frames hlo hhi hms, hr, List.take_succ_cons, List.take_zero,
      List.map_singleton]
    dsimp only
    rw [hbudget.accepts hm (by simp)]
    simp [hbulk]

end Fetch

end Redis

end Chronicle
