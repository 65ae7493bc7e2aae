import Chronicle.Memory.RefCount

/-! # The fork graph

Each fork points at its source. As long as no creation replaces an expired
stream that has forks, a new stream is created under a path that nothing points
at, so following sources never comes back, and reads across the chain end.
-/

namespace Chronicle

variable {s s' : Streams} {e : Event} {p q f : Path} {st : MemoryStream}

def ForkEdge (s : Streams) (q f : Path) : Prop := sourceOf s q = some f

def Ranked (s : Streams) : Prop := ∃ rank : Path → ℕ, ∀ q f, ForkEdge s q f → rank f < rank q

theorem Ranked.acyclic (h : Ranked s) (p : Path) : ¬ Relation.TransGen (ForkEdge s) p p := by
  obtain ⟨rank, hrank⟩ := h
  have hlt : ∀ {q f}, Relation.TransGen (ForkEdge s) q f → rank f < rank q := by
    intro q f h
    induction h with
    | single h => exact hrank _ _ h
    | tail _ h ih => exact (hrank _ _ h).trans ih
  exact fun h => (hlt h).false

theorem Ranked.mono (h : Ranked s) (hsub : ∀ q f, ForkEdge s' q f → ForkEdge s q f) :
    Ranked s' := by
  obtain ⟨rank, hrank⟩ := h
  exact ⟨rank, fun q f hq => hrank q f (hsub q f hq)⟩

theorem Ranked.congr (h : Ranked s) (hs : ∀ q, sourceOf s' q = sourceOf s q) : Ranked s' :=
  h.mono fun q _ hq => (hs q).symm.trans hq

theorem Ranked.erase (h : Ranked s) (p : Path) : Ranked (s.erase p) := by
  refine h.mono fun q f hq => ?_
  unfold ForkEdge at hq
  rw [sourceOf_erase] at hq
  split at hq
  · cases hq
  · exact hq

theorem Ranked.insert (h : Ranked s) (hforks : forksOf s p = ∅) (hself : st.source ≠ some p) :
    Ranked (s.insert p st) := by
  obtain ⟨rank, hrank⟩ := h
  refine ⟨fun q => if q = p then (st.source.map rank).getD 0 + 1 else rank q, fun q f hq => ?_⟩
  unfold ForkEdge at hq
  rw [sourceOf_insert] at hq
  split at hq
  · have hf : f ≠ p := by
      rintro rfl
      exact hself hq
    simp [*]
  · have hf : f ≠ p := by
      rintro rfl
      rw [← mem_forksOf, hforks] at hq
      cases hq
    simpa [hf, *] using hrank q f hq

theorem Recounted.forkEdge (h : Recounted s s') (hq : ForkEdge s' q f) : ForkEdge s q f := by
  obtain ⟨st', hst', hf⟩ := Option.bind_eq_some_iff.mp hq
  obtain ⟨st, rc, hst, rfl⟩ := h q st' hst'
  exact Option.bind_eq_some_iff.mpr ⟨st, hst, hf⟩

/-- A free path that may be created again has no forks. -/
theorem RefInvariant.forksOf_free {opts : CreateOptions} (h : RefInvariant (· ≤ ·) s)
    (hsrc : keepsSources s e) (hcall : e.call = .create p opts) (hfree : FreeAt s e p) :
    forksOf s p = ∅ := by
  cases hp : s.lookup p with
  | none => exact h.forksOf_absent hp
  | some st => exact keepsSources_forksOf hsrc hcall hfree hp

theorem Change.ranked (hchange : Change s e s') (hi : RefInvariant (· ≤ ·) s) (h : Ranked s)
    (hsrc : keepsSources s e) : Ranked s' := by
  cases hchange with
  | same => exact h
  | update hp hu => exact h.congr (sourceOf_insert_same hp (source_congr hu.forkedFrom))
  | discard => exact h.erase _
  | plain hcall hfree _ hst =>
    refine h.insert (hi.forksOf_free hsrc hcall hfree) ?_
    simp [MemoryStream.source, StreamMetadata.isFork, hst.forkedFrom]
  | fork hcall hfree _ hne hself hsource _ _ hst =>
    refine (h.congr (sourceOf_insert_same hsource (by rfl))).insert ?_ ?_
    · rw [forksOf_insert_same hsource (by rfl)]
      exact hi.forksOf_free hsrc hcall hfree
    · rw [source_eq_some.mpr ⟨hst.forkedFrom, hne⟩]
      simpa using hself
  | delete => exact h.mono fun q f => (deletes_cascade _ _ _ le_rfl).recounted.forkEdge

section Reads

variable {α : Type*} (visit : α → Message → α × Bool) {offset : Offset}

theorem reads_return {rank : Path → ℕ} (hrank : ∀ q f, ForkEdge s q f → rank f < rank q) :
    ∀ {n : ℕ} {p : Path} {st : MemoryStream}, s.lookup p = some st → rank p < n →
      ∀ offset upper a, (readForkedStream s n st offset).isSome ∧
        (walkForkedMessages visit s n st offset upper a).isSome := by
  intro n
  induction n with
  | zero => omega
  | succ n ih =>
    intro p st hp hn offset upper a
    have hnext : ∀ source, st.metadata.forkedFrom ≠ [] →
        s.lookup st.metadata.forkedFrom = some source → ∀ upper,
        (readForkedStream s n source offset).isSome ∧
          (walkForkedMessages visit s n source offset upper a).isSome := by
      intro source hne hsource upper
      have hedge : ForkEdge s p st.metadata.forkedFrom := by
        rw [ForkEdge, sourceOf_of_lookup hp]
        exact source_eq_some.mpr ⟨rfl, hne⟩
      exact ih hsource (by have := hrank _ _ hedge; omega) offset upper a
    constructor
    · unfold readForkedStream
      split
      · rfl
      · rename_i hne
        rw [Option.isSome_map]
        split
        · split
          · rw [Option.isSome_map]
            exact (hnext _ hne ‹_› upper).1
          · rfl
        · rfl
    · unfold walkForkedMessages
      rw [Option.isSome_map]
      split
      · rename_i hcond
        split
        · exact (hnext _ hcond.1 ‹_› _).2
        · rfl
      · rfl

/-- A larger bound gives the same result. -/
theorem readForkedStream_mono {n m : ℕ} (hnm : n ≤ m) {l : List Message}
    (h : readForkedStream s n st offset = some l) : readForkedStream s m st offset = some l := by
  induction n generalizing m st l with
  | zero => cases h
  | succ n ih =>
    obtain ⟨m, rfl⟩ : ∃ k, m = k + 1 := ⟨m - 1, by omega⟩
    unfold readForkedStream at h ⊢
    split
    · rwa [if_pos ‹_›] at h
    rw [if_neg ‹_›] at h
    obtain ⟨inherited, hinh, rfl⟩ := Option.map_eq_some_iff.mp h
    refine Option.map_eq_some_iff.mpr ⟨inherited, ?_, rfl⟩
    split
    · rw [if_pos ‹_›] at hinh
      split
      · rename_i source hsource
        rw [hsource] at hinh
        obtain ⟨l', hl', rfl⟩ := Option.map_eq_some_iff.mp hinh
        exact Option.map_eq_some_iff.mpr ⟨l', ih (by omega) hl', rfl⟩
      · rename_i hsource
        rwa [hsource] at hinh
    · rwa [if_neg ‹_›] at hinh

/-- A larger bound gives the same walk. -/
theorem walkForkedMessages_mono {n m : ℕ} (hnm : n ≤ m) {upper : Offset} {a : α}
    {r : α × Bool} (h : walkForkedMessages visit s n st offset upper a = some r) :
    walkForkedMessages visit s m st offset upper a = some r := by
  induction n generalizing m st upper r with
  | zero => cases h
  | succ n ih =>
    obtain ⟨m, rfl⟩ : ∃ k, m = k + 1 := ⟨m - 1, by omega⟩
    obtain ⟨x, hx, rfl⟩ := Option.map_eq_some_iff.mp h
    refine Option.map_eq_some_iff.mpr ⟨x, ?_, rfl⟩
    split
    · rw [if_pos ‹_›] at hx
      split
      · rename_i source hsource
        rw [hsource] at hx
        exact ih (by omega) hx
      · rename_i hsource
        rwa [hsource] at hx
    · rwa [if_neg ‹_›] at hx

theorem reads_diverge {stq stf : MemoryStream} (hq : s.lookup q = some stq)
    (hf : s.lookup f = some stf)
    (hqf : stq.metadata.forkedFrom = f) (hfq : stf.metadata.forkedFrom = q)
    (hne : q ≠ []) (hne' : f ≠ []) (hoq : offset < stq.metadata.forkOffset)
    (hof : offset < stf.metadata.forkOffset) (n : ℕ) (upper : Offset) (a : α) :
    readForkedStream s n stq offset = none ∧
      walkForkedMessages visit s n stq offset upper a = none := by
  induction n generalizing q f stq stf upper with
  | zero => exact ⟨rfl, rfl⟩
  | succ n ih =>
    have hrec := fun upper => ih hf hq hfq hqf hne' hne hof hoq upper
    subst hqf
    constructor
    · unfold readForkedStream
      simp [hne', hoq, hf, (hrec upper).1]
    · unfold walkForkedMessages
      simp [hne', hoq, hf, (hrec _).2]

end Reads

namespace MemoryStore

/-- The conditions under which the fork graph has no cycle. -/
def forksSafely (s : MemoryStore) (e : Event) : Bool :=
  keepsSources s.streams e && countsFit s.streams e

/-- Counts bound the forks, and sources rank below their forks. -/
structure GraphInvariant (s : Streams) : Prop where
  refs : RefInvariant (· ≤ ·) s
  ranked : Ranked s

theorem graphInvariant_empty : GraphInvariant empty.streams :=
  ⟨refInvariant_empty, fun _ => 0, fun q f hq => by simp [ForkEdge, sourceOf, empty] at hq⟩

theorem GraphInvariant.step {s s' : MemoryStore} (hi : GraphInvariant s.streams)
    (h : Guarded forksSafely s e s') : GraphInvariant s'.streams := by
  obtain ⟨hstep, hsafe⟩ := h
  rw [forksSafely, Bool.and_eq_true] at hsafe
  have hchange := step_change hstep
  exact ⟨hchange.refInvariant counting_le hi.refs hsafe.1 hsafe.2 (.inr fun a b h => by omega),
    hchange.ranked hi.refs hi.ranked hsafe.1⟩

theorem graphInvariant_run {s : MemoryStore} {h : List Event}
    (hrun : Trace.Run (Guarded forksSafely) empty h s) : GraphInvariant s.streams :=
  hrun.invariant (I := fun s => GraphInvariant s.streams) graphInvariant_empty
    fun _ _ _ hi hstep => hi.step hstep

/-- In every run in which no creation replaces an expired stream that has forks,
and no count is at its largest value when a fork is added, following sources
never comes back, and both ways of reading a stream across its chain end with a
result that no larger bound changes. -/
theorem forkGraph_wellFounded {s : MemoryStore} {h : List Event}
    (hrun : Trace.Run (Guarded forksSafely) empty h s) :
    (∀ p, ¬ Relation.TransGen (ForkEdge s.streams) p p) ∧
    ∀ p st, s.streams.lookup p = some st → ∃ d, ∀ offset upper,
      (∃ l, ∀ n ≥ d, readForkedStream s.streams n st offset = some l) ∧
      ∀ (α : Type) (visit : α → Message → α × Bool) (a : α),
        ∃ r, ∀ n ≥ d, walkForkedMessages visit s.streams n st offset upper a = some r := by
  obtain ⟨-, hranked⟩ := graphInvariant_run hrun
  refine ⟨hranked.acyclic, fun p st hp => ?_⟩
  obtain ⟨rank, hrank⟩ := hranked
  refine ⟨rank p + 1, fun offset upper => ⟨?_, fun α visit a => ?_⟩⟩
  · obtain ⟨hread, -⟩ := reads_return (fun (_ : Unit) _ => ((), true)) hrank hp
      (Nat.lt_succ_self _) offset upper ()
    obtain ⟨l, hl⟩ := Option.isSome_iff_exists.mp hread
    exact ⟨l, fun n hn => readForkedStream_mono hn hl⟩
  · obtain ⟨-, hwalk⟩ := reads_return visit hrank hp (Nat.lt_succ_self _) offset upper a
    obtain ⟨r, hr⟩ := Option.isSome_iff_exists.mp hwalk
    exact ⟨r, fun n hn => walkForkedMessages_mono visit hn hr⟩

def chainCalls : List (Env × Call) :=
  [(.frozen 0, .create [97] { initialData := [1, 2, 3] }),
    (.frozen 1, .create [98] { forkedFrom := [97], initialData := [4] }),
    (.frozen 2, .create [99] { forkedFrom := [98] })]

theorem chainCalls_run : (empty.execGuarded forksSafely chainCalls).isSome := by decide

theorem forkGraph_wellFounded_chain :
    ∃ h s, Trace.Run (Guarded forksSafely) empty h s ∧
      Relation.TransGen (ForkEdge s.streams) [99] [97] ∧
      ¬ Relation.TransGen (ForkEdge s.streams) [99] [99] := by
  refine ⟨_, _, ran_guarded chainCalls_run, ?_,
    (forkGraph_wellFounded (ran_guarded chainCalls_run)).1 _⟩
  have h₁ : ForkEdge (ran _ chainCalls chainCalls_run).2.streams [99] [98] := by
    unfold ForkEdge; decide
  have h₂ : ForkEdge (ran _ chainCalls chainCalls_run).2.streams [98] [97] := by
    unfold ForkEdge; decide
  exact .tail (.single h₁) h₂

def cycleCalls : List (Env × Call) :=
  [(.frozen 0, .create [97] { initialData := [1, 2, 3], ttlSeconds := some 1 }),
    (.frozen 1, .create [98] { forkedFrom := [97], ttlSeconds := some 100 }),
    (.frozen (10 * 10 ^ 9), .create [97] { forkedFrom := [98] })]

theorem cycleCalls_run : (empty.execGuarded (fun _ _ => true) cycleCalls).isSome := by decide

/-- Two streams can become forks of each other, and then no read of them ends. -/
theorem forkGraph_cycle :
    ∃ h s st, Run h s ∧ Relation.TransGen (ForkEdge s.streams) [97] [97] ∧
      s.streams.lookup [97] = some st ∧
      (∀ n, readForkedStream s.streams n st zeroOffset = none) ∧
      ∀ n upper (visit : Unit → Message → Unit × Bool),
        walkForkedMessages visit s.streams n st zeroOffset upper () = none := by
  have h₁ : ForkEdge (ran _ cycleCalls cycleCalls_run).2.streams [97] [98] := by
    unfold ForkEdge; decide
  have h₂ : ForkEdge (ran _ cycleCalls cycleCalls_run).2.streams [98] [97] := by
    unfold ForkEdge; decide
  have ha : (ran _ cycleCalls cycleCalls_run).2.streams.lookup [97] = some (Option.get _ _) :=
    (Option.some_get (by decide)).symm
  have hb : (ran _ cycleCalls cycleCalls_run).2.streams.lookup [98] = some (Option.get _ _) :=
    (Option.some_get (by decide)).symm
  have hdiverge := fun (visit : Unit → Message → Unit × Bool) n upper =>
    reads_diverge visit ha hb (by decide) (by decide) (by decide) (by decide)
      (show zeroOffset < _ by decide) (by decide) n upper ()
  exact ⟨_, _, _, ran_run cycleCalls_run, .tail (.single h₁) h₂, ha,
    fun n => (hdiverge (fun _ _ => ((), true)) n zeroOffset).1,
    fun n upper visit => (hdiverge visit n upper).2⟩

end MemoryStore

end Chronicle
