import Chronicle.Memory.Closing
import Chronicle.Memory.Recreate
import Chronicle.Memory.RefCount

/-! # Deletion along a chain of sources

Deleting a fork releases its source, and a deleted source that loses its last
reference goes with it. With exact counts a deletion removes the stream and the
longest chain of such sources, and takes one reference from the next one. A
stream that is only marked as deleted always has a reference.
-/

namespace Chronicle

variable {s t : Streams} {p q f : Path} {st : MemoryStream} {err : Option StoreError}

section Chain

def CountsExact (s : Streams) : Prop :=
  ∀ p st, s.lookup p = some st → ((forksOf s p).card : ℤ) = st.metadata.refCount.toInt

def SourceChain (s : Streams) : Path → List Path → Prop
  | _, [] => True
  | p, f :: fs => sourceOf s p = some f ∧ SourceChain s f fs

def LastReference (s : Streams) (f : Path) : Prop :=
  ∃ st, s.lookup f = some st ∧ st.metadata.softDeleted = true ∧ st.metadata.refCount = 1

structure LongestRelease (s : Streams) (p : Path) (chain : List Path) : Prop where
  sources : SourceChain s p chain
  last : ∀ f ∈ chain, LastReference s f
  longest : ∀ chain', SourceChain s p chain' → (∀ f ∈ chain', LastReference s f) →
    chain' <+: chain

/-- The path and a chain of its sources are removed, the next source loses one reference, and
every other stream is as it was. -/
structure Released (s : Streams) (p : Path) (chain : List Path) (t : Streams) : Prop where
  removed : t.lookup p = none
  gone : ∀ f ∈ chain, t.lookup f = none
  source : ∀ f st, sourceOf s (chain.getLastD p) = some f → s.lookup f = some st →
    ∃ rc, t.lookup f = some (MemoryStore.setRefCount st rc) ∧
      rc.toInt = st.metadata.refCount.toInt - 1
  others : ∀ q, q ≠ p → q ∉ chain → sourceOf s (chain.getLastD p) ≠ some q →
    t.lookup q = s.lookup q

theorem SourceChain.mem {chain : List Path} (h : SourceChain s p chain) (hf : f ∈ chain) :
    ∃ q ∈ p :: chain, sourceOf s q = some f := by
  induction chain generalizing p with
  | nil => cases hf
  | cons g chain ih =>
    obtain ⟨hg, hrest⟩ := h
    rcases List.mem_cons.1 hf with rfl | hf
    · exact ⟨p, List.mem_cons_self, hg⟩
    · obtain ⟨q, hq, hsource⟩ := ih hrest hf
      exact ⟨q, List.mem_cons_of_mem p hq, hsource⟩

theorem SourceChain.notMem {chain : List Path} (h : SourceChain s p chain)
    (hno : ∀ q, sourceOf s q ≠ some f) : f ∉ chain := by
  intro hf
  obtain ⟨q, -, hq⟩ := h.mem hf
  exact hno q hq

theorem SourceChain.congr {chain : List Path} (h : SourceChain s p chain)
    (hsame : ∀ q ∈ p :: chain, sourceOf t q = sourceOf s q) : SourceChain t p chain := by
  induction chain generalizing p with
  | nil => trivial
  | cons g chain ih =>
    obtain ⟨hg, hrest⟩ := h
    exact ⟨(hsame p List.mem_cons_self).trans hg,
      ih hrest fun q hq => hsame q (List.mem_cons_of_mem p hq)⟩

theorem sourceOf_ne (h : forksOf s p = ∅) (q : Path) : sourceOf s q ≠ some p := by
  intro hq
  rw [← mem_forksOf, h] at hq
  cases hq

theorem longestRelease_nil (h : ∀ f, sourceOf s p = some f → ¬ LastReference s f) :
    LongestRelease s p [] where
  sources := trivial
  last := nofun
  longest
    | [], _, _ => List.nil_prefix
    | f :: _, hchain, hlast => absurd (hlast f List.mem_cons_self) (h f hchain.1)

theorem released_root (hsource : ∀ f, sourceOf s p = some f → s.lookup f = none) :
    LongestRelease s p [] ∧ Released s p [] (s.erase p) := by
  constructor
  · apply longestRelease_nil
    rintro f hf ⟨st, hst, -⟩
    rw [hsource f hf] at hst
    cases hst
  · exact
      { removed := Finmap.lookup_erase p s
        gone := nofun
        source := by
          intro f st hf hst
          rw [hsource f hf] at hst
          cases hst
        others := fun q hq _ _ => Finmap.lookup_erase_ne hq }

section Round

variable {parent : MemoryStream} {chain : List Path}

def afterRound (s : Streams) (p f : Path) (parent : MemoryStream) : Streams :=
  (s.erase p).insert f (MemoryStore.setRefCount parent (parent.metadata.refCount - 1))

theorem sourceOf_round (hf : (s.erase p).lookup f = some parent) (q : Path) :
    sourceOf (afterRound s p f parent) q = if q = p then none else sourceOf s q := by
  rw [afterRound, sourceOf_insert_same hf (by rfl), sourceOf_erase]

theorem lookup_round (hp : q ≠ p) (hf : q ≠ f) :
    (afterRound s p f parent).lookup q = s.lookup q := by
  rw [afterRound, Finmap.lookup_insert_of_ne _ hf, Finmap.lookup_erase_ne hp]

theorem lastReference_round (hp : q ≠ p) (hf : q ≠ f) :
    LastReference (afterRound s p f parent) q ↔ LastReference s q := by
  unfold LastReference
  rw [lookup_round hp hf]

theorem notMem_sources (hforks : forksOf s p = ∅) (hne : f ≠ p) (h : SourceChain s f chain) :
    ∀ q ∈ f :: chain, q ≠ p := by
  intro q hq
  rcases List.mem_cons.1 hq with rfl | hq
  · exact hne
  · rintro rfl
    exact h.notMem (sourceOf_ne hforks) hq

theorem sourceChain_round (hforks : forksOf s p = ∅) (hf : (s.erase p).lookup f = some parent) :
    SourceChain (afterRound s p f parent) f chain ↔ SourceChain s f chain := by
  obtain ⟨hne, -⟩ := lookup_of_lookup_erase hf
  have hforks' : forksOf (afterRound s p f parent) p = ∅ := by
    rw [Finset.eq_empty_iff_forall_notMem]
    intro q hq
    rw [mem_forksOf, sourceOf_round hf] at hq
    split at hq
    · cases hq
    · exact sourceOf_ne hforks q hq
  constructor
  · intro h
    refine h.congr fun q hq => ?_
    rw [sourceOf_round hf, if_neg (notMem_sources hforks' hne h q hq)]
  · intro h
    refine h.congr fun q hq => ?_
    rw [sourceOf_round hf, if_neg (notMem_sources hforks hne h q hq)]

variable (hcount : CountsExact s) (hp : s.lookup p = some st) (hsource : st.source = some f)
  (hf : (s.erase p).lookup f = some parent)

include hcount hp hsource hf

theorem countsExact_round :
    0 < parent.metadata.refCount.toInt ∧ CountsExact (afterRound s p f parent) :=
  counted_release counting_eq hcount hp hsource hf

theorem forksOf_round (href : parent.metadata.refCount - 1 = 0) :
    forksOf (afterRound s p f parent) f = ∅ := by
  obtain ⟨-, hcount'⟩ := countsExact_round hcount hp hsource hf
  have hzero := hcount' f _ (Finmap.lookup_insert _)
  rw [show (MemoryStore.setRefCount parent (parent.metadata.refCount - 1)).metadata.refCount = 0
    from href, Int32.toInt_zero] at hzero
  rw [← Finset.card_eq_zero]
  exact_mod_cast hzero

theorem released_stop
    (hkeep : ¬ (parent.metadata.refCount - 1 = 0 ∧ parent.metadata.softDeleted)) :
    LongestRelease s p [] ∧ Released s p [] (afterRound s p f parent) := by
  have hedge : sourceOf s p = some f := (sourceOf_of_lookup hp).trans hsource
  obtain ⟨hne, hlookup⟩ := lookup_of_lookup_erase hf
  have hpos := (countsExact_round hcount hp hsource hf).1
  constructor
  · apply longestRelease_nil
    rintro g hg ⟨st', hst', hsoft, href⟩
    cases hedge.symm.trans hg
    cases hlookup.symm.trans hst'
    rw [href] at hkeep
    exact hkeep ⟨rfl, hsoft⟩
  · exact
      { removed := by rw [afterRound, Finmap.lookup_insert_of_ne _ hne.symm, Finmap.lookup_erase]
        gone := nofun
        source := by
          intro g st' hg hst'
          rw [List.getLastD_nil, hedge] at hg
          cases hg
          cases hlookup.symm.trans hst'
          exact ⟨_, Finmap.lookup_insert _, toInt_pred hpos⟩
        others := by
          intro q hq _ hlast
          rw [List.getLastD_nil, hedge] at hlast
          exact lookup_round hq fun heq => hlast (by rw [heq]) }

theorem refCount_one (href : parent.metadata.refCount - 1 = 0) : parent.metadata.refCount = 1 := by
  have hpred := toInt_pred (countsExact_round hcount hp hsource hf).1
  rw [href, Int32.toInt_zero] at hpred
  rw [← Int32.toInt_inj, Int32.toInt_one]
  omega

theorem ne_of_mem_sources (hforks : forksOf s p = ∅) (href : parent.metadata.refCount - 1 = 0)
    (h : SourceChain s f chain) (hq : q ∈ chain) : q ≠ p ∧ q ≠ f := by
  refine ⟨notMem_sources hforks (lookup_of_lookup_erase hf).1 h q (List.mem_cons_of_mem f hq), ?_⟩
  rintro rfl
  have hafter := (sourceChain_round hforks hf).2 h
  exact hafter.notMem (sourceOf_ne (forksOf_round hcount hp hsource hf href)) hq

theorem longestRelease_next (hforks : forksOf s p = ∅)
    (href : parent.metadata.refCount - 1 = 0) (hsoft : parent.metadata.softDeleted)
    (h : LongestRelease (afterRound s p f parent) f chain) : LongestRelease s p (f :: chain) := by
  have hedge : sourceOf s p = some f := (sourceOf_of_lookup hp).trans hsource
  have hsources := (sourceChain_round hforks hf).1 h.sources
  constructor
  · exact ⟨hedge, hsources⟩
  · intro g hg
    rcases List.mem_cons.1 hg with rfl | hg
    · exact ⟨parent, (lookup_of_lookup_erase hf).2, hsoft,
        refCount_one hcount hp hsource hf href⟩
    · obtain ⟨hgp, hgf⟩ := ne_of_mem_sources hcount hp hsource hf hforks href hsources hg
      exact (lastReference_round hgp hgf).1 (h.last g hg)
  · rintro (_ | ⟨g, rest⟩) hrest hlast
    · exact List.nil_prefix
    · obtain ⟨hg, hrest⟩ := hrest
      cases hedge.symm.trans hg
      refine List.cons_prefix_cons.2 ⟨rfl, h.longest rest ?_ ?_⟩
      · exact (sourceChain_round hforks hf).2 hrest
      · intro q hq
        obtain ⟨hqp, hqf⟩ := ne_of_mem_sources hcount hp hsource hf hforks href hrest hq
        exact (lastReference_round hqp hqf).2 (hlast q (List.mem_cons_of_mem f hq))

theorem released_next (hforks : forksOf s p = ∅) (href : parent.metadata.refCount - 1 = 0)
    (hchain : SourceChain s f chain) (h : Released (afterRound s p f parent) f chain t) :
    Released s p (f :: chain) t := by
  obtain ⟨hne, -⟩ := lookup_of_lookup_erase hf
  have hnoStream := sourceOf_ne hforks
  have hlast : sourceOf (afterRound s p f parent) (chain.getLastD f) =
      sourceOf s (chain.getLastD f) := by
    rw [sourceOf_round hf, if_neg]
    exact notMem_sources hforks hne hchain _ List.getLastD_mem_cons
  have hnoSource := sourceOf_ne (forksOf_round hcount hp hsource hf href) (chain.getLastD f)
  rw [hlast] at hnoSource
  constructor
  · rw [h.others p hne.symm, afterRound, Finmap.lookup_insert_of_ne _ hne.symm,
      Finmap.lookup_erase]
    · exact hchain.notMem hnoStream
    · rw [hlast]
      exact hnoStream _
  · intro g hg
    rcases List.mem_cons.1 hg with rfl | hg
    · exact h.removed
    · exact h.gone g hg
  · intro g st' hg hst'
    rw [List.getLastD_cons] at hg
    have hgp : g ≠ p := fun heq => hnoStream _ (heq ▸ hg)
    have hgf : g ≠ f := fun heq => hnoSource (heq ▸ hg)
    refine h.source g st' (hlast.trans hg) ?_
    rw [lookup_round hgp hgf, hst']
  · intro q hqp hq hqlast
    rw [List.mem_cons, not_or] at hq
    rw [List.getLastD_cons] at hqlast
    rw [h.others q hq.1 hq.2 (by rwa [hlast]), lookup_round hqp hq.1]

end Round

theorem Deletes.released (h : Deletes s p t err) (hcount : CountsExact s)
    (hp : s.lookup p = some st) (hforks : forksOf s p = ∅) :
    err = none ∧ ∃ chain, LongestRelease s p chain ∧ Released s p chain t := by
  induction h generalizing st with
  | absent habs =>
    rw [habs] at hp
    cases hp
  | plain hp' hf =>
    refine ⟨rfl, [], released_root ?_⟩
    intro f hsource
    rw [sourceOf_of_lookup hp', source_eq_some, hf] at hsource
    exact absurd hsource.1.symm hsource.2
  | orphan hp' hne hf =>
    refine ⟨rfl, [], released_root ?_⟩
    intro f hsource
    have hself : f ≠ _ := fun heq => sourceOf_ne hforks _ (heq ▸ hsource)
    rw [sourceOf_of_lookup hp', source_eq_some] at hsource
    rwa [hsource.1, Finmap.lookup_erase_ne hself] at hf
  | underflow hp' hne hf href =>
    obtain ⟨hpos, -⟩ := countsExact_round hcount hp' (source_eq_some.2 ⟨rfl, hne⟩) hf
    rw [Int32.lt_iff_toInt_lt, toInt_pred hpos] at href
    simp at href
    omega
  | release hp' hne hf href hkeep =>
    exact ⟨rfl, [], released_stop hcount hp' (source_eq_some.2 ⟨rfl, hne⟩) hf hkeep⟩
  | next hp' hne hf href hsoft hrest ih =>
    have hsource := source_eq_some.2 ⟨rfl, hne⟩
    obtain ⟨-, hcount'⟩ := countsExact_round hcount hp' hsource hf
    obtain ⟨herr, chain, hchain, hreleased⟩ :=
      ih hcount' (Finmap.lookup_insert _) (forksOf_round hcount hp' hsource hf href)
    have hsources := (sourceChain_round hforks hf).1 hchain.sources
    exact ⟨herr, _, longestRelease_next hcount hp' hsource hf hforks href hsoft hchain,
      released_next hcount hp' hsource hf hforks href hsources hreleased⟩

end Chain

section Retained

def MemoryStream.Retained (st : MemoryStream) : Prop :=
  st.metadata.softDeleted = true → 0 < st.metadata.refCount

def RetainedBut (s : Streams) (p : Path) : Prop :=
  ∀ q st, q ≠ p → s.lookup q = some st → st.Retained

def Retained (s : Streams) : Prop := ∀ q st, s.lookup q = some st → st.Retained

theorem retained_insert {st' : MemoryStream} (h : RetainedBut s p) (hst' : st'.Retained) :
    Retained (s.insert p st') := by
  intro q st hq
  rcases lookup_of_lookup_insert hq with ⟨-, rfl⟩ | ⟨hne, hq⟩
  · exact hst'
  · exact h q st hne hq

theorem retainedBut_erase (h : RetainedBut s p) : Retained (s.erase p) := by
  intro q st hq
  obtain ⟨hne, hq⟩ := lookup_of_lookup_erase hq
  exact h q st hne hq

theorem toInt_pos {n : Int32} (h : 0 < n) : 0 < n.toInt := by
  rwa [Int32.lt_iff_toInt_lt, Int32.toInt_zero] at h

theorem Deletes.retained (h : Deletes s p t err) (hs : RetainedBut s p) : Retained t := by
  induction h with
  | absent hp =>
    intro q st hq
    refine hs q st ?_ hq
    rintro rfl
    rw [hp] at hq
    cases hq
  | plain | orphan => exact retainedBut_erase hs
  | underflow hp hne hf href =>
    refine retained_insert (fun q st _ hq => retainedBut_erase hs q st hq) ?_
    intro hsoft
    have hpos := toInt_pos (retainedBut_erase hs _ _ hf hsoft)
    rw [Int32.lt_iff_toInt_lt, toInt_pred hpos, Int32.toInt_zero] at href
    omega
  | release hp hne hf href hkeep =>
    refine retained_insert (fun q st _ hq => retainedBut_erase hs q st hq) ?_
    intro hsoft
    rw [Int32.lt_iff_toInt_lt, Int32.toInt_zero] at href ⊢
    have hzero : (_ - 1 : Int32).toInt ≠ 0 := fun h0 =>
      hkeep ⟨Int32.toInt_inj.1 (h0.trans Int32.toInt_zero.symm), hsoft⟩
    change 0 < (_ - 1 : Int32).toInt
    omega
  | next hp hne hf href hsoft hrest ih =>
    apply ih
    intro q st hqf hq
    rw [Finmap.lookup_insert_of_ne _ hqf] at hq
    exact retainedBut_erase hs q st hq

theorem MemoryStream.Edit.retained {st st' : MemoryStream} (h : st.Edit st')
    (hst : st.Retained) : st'.Retained := by
  cases h with
  | touch now => exact hst
  | softDelete href => exact fun _ => href
  | recordSeal authority generation wakeID => exact hst
  | close => exact hst
  | closeProducer stampedAt opts =>
    generalize hresult : st.closeStreamWithProducer stampedAt opts = result
    obtain ⟨hsame, -⟩ | ⟨ps, -, -, hcommit, -, -⟩ := st.closeStreamWithProducer_ladder hresult
    · rw [hsame]
      exact hst
    · rw [hcommit, Retained, bind_metadata]
      exact hst
  | append touchedAt stampedAt data opts =>
    generalize hresult : st.append touchedAt stampedAt data opts = result
    obtain ⟨hsame, -⟩ | ⟨ds, adm, -, -, hcommit, -⟩ := st.append_ladder hresult
    · rw [hsame]
      exact hst
    · rw [hcommit, Retained, commit, bind_metadata]
      exact hst

namespace MemoryStore

variable {s s' : MemoryStore} {e : Event} {env : Env} {path : Path} {opts : CreateOptions}

theorem delete_retained (h : Chronicle.Retained s.streams) (path : Path) :
    Chronicle.Retained (s.delete path).1.streams := by
  unfold delete
  split
  · exact h
  rename_i st hst
  split
  · exact h
  split
  · rename_i href
    exact retained_insert (fun q st _ hq => h q st hq) fun _ => href
  · exact (deletes_cascade _ _ _ le_rfl).retained fun q st _ hq => h q st hq

theorem create_retained {r : CreateResult}
    (h : s.create env path opts = some (s', r)) (hs : Chronicle.Retained s.streams) :
    Chronicle.Retained s'.streams := by
  rcases create_cases h with ⟨rfl, -⟩ | ⟨-, h⟩
  · exact hs
  have hremove : Chronicle.Retained (s.remove path).streams :=
    retainedBut_erase fun q st _ hq => hs q st hq
  have hnew : ∀ {t : Streams} {st : MemoryStream}, Chronicle.Retained t →
      r = .ok (st.metadata, true) → Chronicle.Retained (t.insert path st) := by
    rintro t st ht rfl
    refine retained_insert (fun q st _ hq => ht q st hq) fun hsoft => ?_
    rw [(createAbsent_made h).2.present] at hsoft
    cases hsoft
  cases createAbsent_creates h with
  | failed => exact hremove
  | plain => exact hnew hremove rfl
  | fork _ hsource hsoft =>
    refine hnew ?_ rfl
    rw [addRef, hsource]
    refine retained_insert (fun q st _ hq => hremove q st hq) fun hsoft' => ?_
    cases hsoft.symm.trans hsoft'

theorem step_retained (h : Step s e s') (hs : Chronicle.Retained s.streams) :
    Chronicle.Retained s'.streams := by
  rcases e with ⟨env, call, reply⟩
  by_cases hcreate : ∃ path opts, call = .create path opts
  · obtain ⟨path, opts, rfl⟩ := hcreate
    rcases h.ran with ⟨hr⟩
    exact create_retained hr hs
  by_cases hdelete : ∃ path, call = .delete path
  · obtain ⟨path, rfl⟩ := hdelete
    cases h
    exact delete_retained hs path
  push Not at hcreate hdelete
  intro q st' hq
  obtain ⟨st, hst, hedits⟩ := step_edited h hcreate hdelete q st' hq
  have hretained := hs q st hst
  clear hq
  induction hedits with
  | refl => exact hretained
  | tail _ hedit ih => exact hedit.retained ih

theorem run_retained {history : List Event} (h : Trace.Run Step empty history s) :
    Chronicle.Retained s.streams := by
  refine h.invariant (I := fun s => Chronicle.Retained s.streams) ?_ fun _ _ _ hs hstep =>
    step_retained hstep hs
  intro q st hq
  simp [empty] at hq

/-- Deleting a stream that is not deleted and has no references ends. It removes the stream and
the longest chain of its sources that are deleted and had no other reference, takes one reference
from the next source if there is one, and changes nothing else. No reachable state has a deleted
stream without references. -/
theorem delete_exact {history : List Event} (hrun : Trace.Run Step empty history s) :
    (CountsExact s.streams → ∀ path st, s.streams.lookup path = some st →
      st.metadata.refCount = 0 → st.metadata.softDeleted = false →
      ∃ t chain, Deletes s.streams path t none ∧
        s.delete path = ({ s with streams := t }, none) ∧
        LongestRelease s.streams path chain ∧ Released s.streams path chain t) ∧
    ∀ path st, s.streams.lookup path = some st → st.metadata.softDeleted = true →
      st.metadata.refCount ≠ 0 := by
  constructor
  · intro hcount path st hp href hsoft
    have hdeletes := deletes_cascade _ s.streams path le_rfl
    have hforks : forksOf s.streams path = ∅ := by
      have := hcount path st hp
      rw [href, Int32.toInt_zero] at this
      rw [← Finset.card_eq_zero]
      exact_mod_cast this
    obtain ⟨herr, chain, hchain, hreleased⟩ := hdeletes.released hcount hp hforks
    rw [herr] at hdeletes
    refine ⟨_, chain, hdeletes, ?_, hchain, hreleased⟩
    rw [delete, hp]
    dsimp only
    rw [hsoft, href, if_neg (by decide), if_neg (by decide), deleteWithCascade, ← herr]
  · intro path st hp hsoft href
    have hpos := run_retained hrun path st hp hsoft
    rw [href] at hpos
    exact absurd hpos (by decide)

/-- The source of a fork was deleted, and then the fork is. -/
theorem delete_exact_fork :
    ∃ history s t chain, Trace.Run Step empty history s ∧ Deletes s.streams [98] t none ∧
      LongestRelease s.streams [98] chain ∧ Released s.streams [98] chain t := by
  have hrun := ran_guarded forkCalls_run
  have hsome : ((ran _ forkCalls forkCalls_run).2.streams.lookup [98]).isSome := by decide
  obtain ⟨st, hst⟩ := Option.isSome_iff_exists.mp hsome
  have hfree : ((ran _ forkCalls forkCalls_run).2.streams.lookup [98]).all fun st =>
      st.metadata.refCount = 0 ∧ st.metadata.softDeleted = false := by decide
  rw [hst, Option.all_some, decide_eq_true_eq] at hfree
  obtain ⟨t, chain, hdeletes, -, hchain, hreleased⟩ :=
    (delete_exact (hrun.mono fun _ _ _ => And.left)).1 (refInvariant_run hrun).counted
      [98] st hst hfree.1 hfree.2
  exact ⟨_, _, t, chain, hrun.mono fun _ _ _ => And.left, hdeletes, hchain, hreleased⟩

end MemoryStore

end Retained

end Chronicle
