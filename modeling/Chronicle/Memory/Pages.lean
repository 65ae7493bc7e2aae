import Chronicle.Memory.Visible

/-! # Draining a stream page by page

A page is the greedy cut of what is still unread of the captured suffix. Pages
that are read one after another for one snapshot therefore return every message
of the suffix once and in order, whatever is appended in between.
-/

namespace Chronicle

variable {s s' : Streams} {p : Path} {st : MemoryStream}

def Message.size (m : Message) : ℕ := m.data.length

section Cut

def cutPage (targetBytes maxFrames : ℕ) (l : List Message) : List Message :=
  Greedy.page Message.size targetBytes maxFrames 0 0 l

theorem scan_visit (targetBytes maxFrames : ℕ) (l : List Message) (c : PageCursor) :
    let taken := Greedy.page Message.size targetBytes maxFrames c.stats.returnedBytes
      c.messages.length l
    let c' := (Greedy.scan (PageCursor.visit targetBytes maxFrames) l c).1
    c'.messages = c.messages ++ taken ∧
      c'.nextOffset = (taken.getLast?.map Message.offset).getD c.nextOffset := by
  induction l generalizing c with
  | nil => simp [Greedy.page]
  | cons m l ih =>
    rw [Greedy.scan, Greedy.page]
    by_cases hframes : maxFrames ≤ c.messages.length
    · simp [PageCursor.visit, hframes]
    by_cases hbytes : c.messages ≠ [] ∧ targetBytes < c.stats.returnedBytes + m.data.length
    · simp [PageCursor.visit, hframes, hbytes, Message.size]
    have hvisit : PageCursor.visit targetBytes maxFrames c m =
        ({ messages := c.messages ++ [m], nextOffset := m.offset
           stats := { c.stats with
             fetchedBytes := c.stats.fetchedBytes + m.data.length
             returnedBytes := c.stats.returnedBytes + m.data.length } },
          decide (c.stats.returnedBytes + m.data.length < targetBytes)) := by
      simp only [PageCursor.visit, if_neg hframes, if_neg hbytes]
    have hcount : ¬ (maxFrames ≤ c.messages.length ∨
        (c.messages.length ≠ 0 ∧ targetBytes < c.stats.returnedBytes + m.size)) := by
      rw [ne_eq, List.length_eq_zero_iff]
      exact not_or.mpr ⟨hframes, hbytes⟩
    rw [hvisit, if_neg hcount]
    by_cases hmore : c.stats.returnedBytes + m.data.length < targetBytes
    · have := ih { messages := c.messages ++ [m], nextOffset := m.offset
                   stats := { c.stats with
                     fetchedBytes := c.stats.fetchedBytes + m.data.length
                     returnedBytes := c.stats.returnedBytes + m.data.length } }
      simp only [List.length_append, List.length_singleton] at this
      rw [if_pos (by exact hmore)]
      simp only [hmore, decide_true, this.1, this.2, Message.size]
      refine ⟨by simp, ?_⟩
      cases hlast : (Greedy.page Message.size targetBytes maxFrames
          (c.stats.returnedBytes + m.data.length) (c.messages.length + 1) l).getLast? with
      | none =>
        rw [List.getLast?_eq_none_iff] at hlast
        simp [hlast]
      | some m' =>
        rw [List.getLast?_cons, hlast]
        rfl
    · rw [if_neg (by exact hmore)]
      simp [hmore]

variable {n : ℕ} {vis : List Message} {snapshot : ReadSnapshot}

theorem finish_nextOffset {c : PageCursor} {start : Offset}
    (h : c.nextOffset = (c.messages.getLast?.map Message.offset).getD start) :
    (c.finish snapshot).nextOffset =
      (c.messages.getLast?.map Message.offset).getD snapshot.tail := by
  unfold PageCursor.finish
  rw [h]
  cases hlast : c.messages.getLast? with
  | none => rw [if_pos (List.getLast?_eq_none_iff.mp hlast)]; rfl
  | some m => rw [if_neg (List.getLast?_isSome.mp (Option.isSome_of_mem hlast))]; rfl

theorem collectPage_eq (hlaid : LaidOut s) (hp : s.lookup p = some st)
    (hvis : visible s n st = some vis) (offset : Offset) (opts : ReadPageOptions)
    (snapshot : ReadSnapshot) :
    ∃ page, MemoryStore.collectPage s n st offset opts snapshot = some page ∧
      page.messages = cutPage opts.targetBytes opts.maxFrames
        (vis.filter (inRange (readStart offset snapshot.tail) snapshot.tail)) ∧
      page.nextOffset = (page.messages.getLast?.map Message.offset).getD snapshot.tail ∧
      page.upToDate = decide (page.nextOffset = snapshot.tail) ∧ page.snapshot = snapshot := by
  unfold MemoryStore.collectPage
  dsimp only
  rw [walkForkedMessages_eq _ hlaid hp hvis, Option.map_some]
  obtain ⟨hm, hn⟩ := scan_visit opts.targetBytes opts.maxFrames
    (vis.filter (inRange (readStart offset snapshot.tail) snapshot.tail))
    { nextOffset := readStart offset snapshot.tail
      stats := { requestedBytes := opts.targetBytes } }
  simp only [List.nil_append, List.length_nil] at hm hn
  rw [← hm] at hn
  refine ⟨_, rfl, hm, finish_nextOffset hn, ?_, rfl⟩
  rw [Bool.eq_iff_iff, decide_eq_true_eq]
  exact Offset.equal_iff

end Cut

section ReadPage

namespace MemoryStore

variable {s s' : MemoryStore} {n m : ℕ} {vis : List Message} {checkedAt touchedAt : Time}
  {offset : Offset} {opts : ReadPageOptions} {snapshot : ReadSnapshot} {page : ReadPage}

theorem collectPage_mono {streams : Streams} (hnm : n ≤ m)
    (h : collectPage streams n st offset opts snapshot = some page) :
    collectPage streams m st offset opts snapshot = some page := by
  obtain ⟨r, hr, rfl⟩ := Option.map_eq_some_iff.mp h
  exact Option.map_eq_some_iff.mpr ⟨r, walkForkedMessages_mono _ hnm hr, rfl⟩

theorem readPage_mono (hnm : n ≤ m)
    (h : s.readPage n checkedAt touchedAt p offset opts = some (s', .ok page)) :
    s.readPage m checkedAt touchedAt p offset opts = some (s', .ok page) := by
  unfold readPage at h ⊢
  dsimp only at h ⊢
  split
  · rename_i hp
    rwa [hp] at h
  rename_i st hp
  rw [hp] at h
  dsimp only at h
  split
  · rwa [if_pos ‹_›] at h
  rw [if_neg ‹_›] at h
  split
  · rwa [if_pos ‹_›] at h
  rw [if_neg ‹_›] at h
  split
  · rename_i hsnap
    rw [hsnap] at h
    obtain ⟨pg, hpg, heq⟩ := Option.map_eq_some_iff.mp h
    exact Option.map_eq_some_iff.mpr ⟨pg, collectPage_mono hnm hpg, heq⟩
  · rename_i snap hsnap
    rw [hsnap] at h
    dsimp only at h
    split
    · rwa [if_pos ‹_›] at h
    rw [if_neg ‹_›] at h
    obtain ⟨pg, hpg, heq⟩ := Option.map_eq_some_iff.mp h
    exact Option.map_eq_some_iff.mpr ⟨pg, collectPage_mono hnm hpg, heq⟩

/-- A page can be read of a stream that is neither expired nor soft-deleted and
that the snapshot, if there is one, belongs to. -/
structure Readable (st : MemoryStream) (checkedAt : Time) (opts : ReadPageOptions) : Prop where
  live : st.metadata.isExpiredAt checkedAt = false
  present : st.metadata.softDeleted = false
  same : ∀ snap, opts.snapshot = some snap → sameReadStream snap st.snapshot

theorem readPage_readable
    (h : s.readPage n checkedAt touchedAt p offset opts = some (s', .ok page)) :
    ∃ st, s.streams.lookup p = some st ∧ Readable st checkedAt opts := by
  unfold readPage at h
  dsimp only at h
  split at h
  · cases h
  rename_i st hp
  split at h
  · split at h <;> cases h
  rename_i hlive
  split at h
  · cases h
  rename_i hpresent
  refine ⟨st, hp, by simpa using hlive, by simpa using hpresent, fun snap hsnap => ?_⟩
  split at h
  · rename_i hnone
    rw [ReadPageOptions.normalize_snapshot, hsnap] at hnone
    cases hnone
  · rename_i snap' hsnap'
    rw [ReadPageOptions.normalize_snapshot, hsnap] at hsnap'
    cases hsnap'
    split at h
    · cases h
    · rename_i hsame
      simpa using hsame

theorem collectPage_touch {streams : Streams} (now : Time) :
    collectPage streams n (st.touch now) offset opts snapshot =
      collectPage streams n st offset opts snapshot := by
  cases n <;> rfl

/-- The page of a readable stream. -/
theorem readPage_eq (hlaid : LaidOut s.streams) (hp : s.streams.lookup p = some st)
    (hread : Readable st checkedAt opts) (hvis : visible s.streams n st = some vis)
    (touchedAt : Time) (offset : Offset) :
    let snap := opts.snapshot.getD st.snapshot
    ∃ s' page, s.readPage n checkedAt touchedAt p offset opts = some (s', .ok page) ∧
      page.messages = cutPage opts.normalize.targetBytes opts.normalize.maxFrames
        (vis.filter (inRange (readStart offset snap.tail) snap.tail)) ∧
      page.nextOffset = (page.messages.getLast?.map Message.offset).getD snap.tail ∧
      page.upToDate = decide (page.nextOffset = snap.tail) ∧ page.snapshot = snap := by
  unfold readPage
  rw [hp]
  dsimp only
  rw [if_neg (by simp [hread.live]), if_neg (by simp [hread.present]),
    ReadPageOptions.normalize_snapshot]
  cases hsnap : opts.snapshot with
  | none =>
    dsimp only
    split
    · have hlaid' : LaidOut (s.set p (st.touch touchedAt)).streams :=
        hlaid.insert ((hlaid p st hp).update (st.idle_touch touchedAt).update (by simp))
      have hvis' : visible (s.set p (st.touch touchedAt)).streams n (st.touch touchedAt) =
          some vis := by
        have := visible_update hp (st.idle_touch touchedAt).update (by simp) (by simp) hp
          (Finmap.lookup_insert _) hvis
        simpa [set] using this
      obtain ⟨page, hpage, hrest⟩ := collectPage_eq hlaid' (Finmap.lookup_insert _) hvis'
        offset opts.normalize st.snapshot
      rw [collectPage_touch] at hpage
      exact ⟨_, page, by rw [hpage]; rfl, hrest⟩
    · obtain ⟨page, hpage, hrest⟩ := collectPage_eq hlaid hp hvis offset opts.normalize
        st.snapshot
      exact ⟨_, page, by rw [hpage]; rfl, hrest⟩
  | some snap =>
    dsimp only
    rw [if_neg (by simp [hread.same snap hsnap])]
    obtain ⟨page, hpage, hrest⟩ := collectPage_eq hlaid hp hvis offset opts.normalize snap
    exact ⟨_, page, by rw [hpage]; rfl, hrest⟩

end MemoryStore

end ReadPage

end Chronicle
