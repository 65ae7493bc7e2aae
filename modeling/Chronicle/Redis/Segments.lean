import Chronicle.Redis.Read

/-! # Members up to an offset

A read of a segment returns members of the sorted set up to the end of the
segment, so that messages behind it do not matter.
-/

namespace Chronicle.Redis

variable {k k' : StreamKeys} {o : Offset} {x : Bytes} {allowOversized : Bool} {c : RangeCursor}
  {members : List Bytes}

def SameBelow (k k' : StreamKeys) (o : Offset) : Prop :=
  k'.msg.filter (lexBelow (lexUpperBoundInclusive o)) =
    k.msg.filter (lexBelow (lexUpperBoundInclusive o))

instance (k k' : StreamKeys) (o : Offset) : Decidable (SameBelow k k' o) :=
  inferInstanceAs (Decidable (_ = _))

theorem lexBelow_frame {m : Message} (ho : o.Small) (hm : m.offset.Small) (h : o < m.offset) :
    lexBelow (lexUpperBoundInclusive o) (frame m) = false := by
  have hlt : Bytes.lexLt (o.string ++ [255]) (m.offset.string ++ 124 :: m.data) :=
    Bytes.lexLt_append_of_lt (by rw [Offset.length_string ho, Offset.length_string hm])
      ((Offset.lexLt_string ho hm).mpr h) _ _
  change (!Bytes.lexLt (o.string ++ [255]) (m.offset.string ++ 124 :: m.data)) = false
  rw [hlt]
  rfl

/-- Messages behind an offset do not show in a range that ends there. -/
theorem sameBelow_zaddAll {ms : List Message} (ho : o.Small) (hsmall : ∀ m ∈ ms, m.offset.Small)
    (hbehind : ∀ m ∈ ms, o < m.offset) (hmsg : k'.msg = zaddAll (ms.map frame) k.msg) :
    SameBelow k k' o := by
  rw [SameBelow, hmsg, zaddAll, SortedSet.filter_insertAll]
  intro x hx
  rcases List.mem_map.mp hx with ⟨m, hm, rfl⟩
  exact lexBelow_frame ho (hsmall m hm) (hbehind m hm)

theorem lexBelow_mono {b b' : Bytes} (h : ¬ Bytes.lexLt (91 :: b') (91 :: b))
    (hx : lexBelow (91 :: b) x = true) : lexBelow (91 :: b') x = true := by
  have hlt : ¬ b' < b := by simpa [Bytes.lexLt_iff_lt] using h
  have hbx : ¬ b < x := by simpa [lexBelow, Bytes.lexLe, ← Bytes.lexLt_iff_lt] using hx
  have hgoal : ¬ b' < x :=
    List.not_lt.mpr (List.le_trans (List.not_lt.mp hbx) (List.not_lt.mp hlt))
  simpa [lexBelow, Bytes.lexLe, ← Bytes.lexLt_iff_lt] using hgoal

theorem mem_zrangebylex {l : List Bytes} {lo hi : Bytes} {limit : ℕ}
    (h : x ∈ zrangebylex l lo hi limit) : x ∈ l ∧ lexBelow hi x = true := by
  rcases List.mem_filter.mp (List.mem_of_mem_take h) with ⟨hmem, hrange⟩
  exact ⟨hmem, ((Bool.and_eq_true _ _).mp hrange).2⟩

theorem mem_accept {targetBytes : ℕ} {y : Bytes}
    (h : x ∈ (RangeCursor.accept targetBytes allowOversized c y).1.members) :
    x ∈ c.members ∨ x = y := by
  unfold RangeCursor.accept at h
  dsimp only at h
  split at h
  · simpa using h
  · exact .inl h

theorem mem_scan_accept {targetBytes : ℕ} {ms : List Bytes}
    (h : x ∈ (Greedy.scan (RangeCursor.accept targetBytes allowOversized) ms c).1.members) :
    x ∈ c.members ∨ x ∈ ms := by
  induction ms generalizing c with
  | nil => exact .inl h
  | cons y ms ih =>
    have haccept (hx : x ∈ (RangeCursor.accept targetBytes allowOversized c y).1.members) :
        x ∈ c.members ∨ x ∈ y :: ms := by
      rcases mem_accept hx with hx | rfl
      · exact .inl hx
      · exact .inr List.mem_cons_self
    rw [Greedy.scan] at h
    split at h
    · rename_i c' hc
      rcases ih h with hx | hx
      · exact haccept (by rw [hc]; exact hx)
      · exact .inr (List.mem_cons_of_mem _ hx)
    · rename_i c' hc
      exact haccept (by rw [hc]; exact h)

theorem mem_bulkCandidates {first : Bytes} {budget limit : ℕ}
    (h : x ∈ bulkCandidates members first (lexUpperBoundInclusive o) budget limit) :
    x ∈ members ∧ lexBelow (lexUpperBoundInclusive o) x = true := by
  unfold bulkCandidates at h
  dsimp only at h
  split at h
  · split at h
    · cases h
    · rcases mem_zrangebylex h with ⟨hmem, hbelow⟩
      refine ⟨hmem, ?_⟩
      split at hbelow
      · exact hbelow
      · rename_i hlt
        exact lexBelow_mono hlt hbelow
  · cases h

theorem fetchRange_members {tail : Option Bytes} {a : ReadArgs} {requireCandidate : Bool}
    (h : fetchRange k tail a (lexUpperBoundInclusive o) requireCandidate = some c)
    (hx : x ∈ c.members) : x ∈ k.msg ∧ lexBelow (lexUpperBoundInclusive o) x = true := by
  unfold fetchRange at h
  split at h
  · split at h
    · cases h
    · cases h; cases hx
  rename_i first rest hrange
  have hfirst {y : Bytes}
      (hy : y ∈ (RangeCursor.accept a.targetBytes a.allowOversized {} first).1.members) :
      y ∈ k.msg ∧ lexBelow (lexUpperBoundInclusive o) y = true := by
    rcases mem_accept hy with hnil | rfl
    · cases hnil
    · exact mem_zrangebylex (hrange ▸ List.mem_cons_self)
  dsimp only at h
  split at h
  · cases h
    rcases mem_scan_accept hx with hx | hx
    · exact hfirst hx
    · exact mem_bulkCandidates hx
  · cases h
    exact hfirst hx

def Returns (k : StreamKeys) (seg : ReadSegment) (members : List Bytes) : Prop :=
  ∃ now lower targetBytes maxFrames allowOversized k' info fetched returned range,
    readScript (segmentArgs now seg lower targetBytes maxFrames allowOversized) k =
      some (k', .ok info members fetched returned range)

theorem Returns.below {seg : ReadSegment} (h : Returns k seg members) :
    ∀ x ∈ members, x ∈ k.msg ∧ lexBelow (lexUpperBoundInclusive seg.upper) x = true := by
  rcases h with ⟨now, lower, targetBytes, maxFrames, allowOversized, k', info, fetched, returned,
    range, h⟩
  have hinc (m : MetaHash) : (readIncarnation
      (segmentArgs now seg lower targetBytes maxFrames allowOversized) m k).1 = k := by
    unfold readIncarnation
    split <;> rfl
  unfold readScript at h
  split at h
  · cases h
  rename_i m hm
  rw [if_neg (by simp [segmentArgs])] at h
  unfold readPresent at h
  dsimp only at h
  split at h
  · cases h
  rw [hinc] at h
  rcases Option.map_eq_some_iff.mp h with ⟨⟨range', rangeMax, requireCandidate, fetches⟩, hsel, heq⟩
  cases hsel
  split at heq
  · split at heq
    · cases heq
    · rename_i c hfetch
      cases heq
      exact fun x hx => fetchRange_members hfetch hx
  · cases heq
    simp

theorem SameBelow.returns {seg : ReadSegment} (h : SameBelow k k' seg.upper)
    (hr : Returns k' seg members) : ∀ x ∈ members, x ∈ k.msg := by
  intro x hx
  have hmem := List.mem_filter.mpr (hr.below x hx)
  rw [h] at hmem
  exact (List.mem_filter.mp hmem).1

end Chronicle.Redis
