import Chronicle.Memory.Step

/-! # Fork reference counts

A stream that other streams are forked from carries a count of them. The count
is compared with the forks that are present: it is exact as long as creation
never replaces an expired stream that is a fork or has forks, and it is an
upper bound as long as creation never replaces one that has forks.
-/

namespace Chronicle

def MemoryStream.source (st : MemoryStream) : Option Path :=
  if st.metadata.isFork then some st.metadata.forkedFrom else none

def sourceOf (s : Streams) (q : Path) : Option Path := (s.lookup q).bind MemoryStream.source

def forksOf (s : Streams) (p : Path) : Finset Path := s.keys.filter fun q => sourceOf s q = some p

variable {s s' t : Streams} {e : Event} {p q f : Path} {st st' : MemoryStream}

theorem source_eq_some : st.source = some f ↔ st.metadata.forkedFrom = f ∧ f ≠ [] := by
  unfold MemoryStream.source StreamMetadata.isFork
  split <;> aesop

theorem source_congr (h : st'.metadata.forkedFrom = st.metadata.forkedFrom) :
    st'.source = st.source := by
  unfold MemoryStream.source StreamMetadata.isFork
  rw [h]

theorem mem_forksOf : q ∈ forksOf s p ↔ sourceOf s q = some p := by
  rw [forksOf, Finset.mem_filter, and_iff_right_iff_imp, Finmap.mem_keys, Finmap.mem_iff]
  intro h
  obtain ⟨st, hst, -⟩ := Option.bind_eq_some_iff.mp h
  exact ⟨st, hst⟩

theorem forksOf_congr (h : ∀ q, sourceOf s' q = sourceOf s q) (p : Path) :
    forksOf s' p = forksOf s p := by
  ext q
  rw [mem_forksOf, mem_forksOf, h]

theorem sourceOf_insert (s : Streams) (p q : Path) (st : MemoryStream) :
    sourceOf (s.insert p st) q = if q = p then st.source else sourceOf s q := by
  unfold sourceOf
  split
  · subst_vars
    rw [Finmap.lookup_insert]
    rfl
  · rw [Finmap.lookup_insert_of_ne _ ‹_›]

theorem sourceOf_erase (s : Streams) (p q : Path) :
    sourceOf (s.erase p) q = if q = p then none else sourceOf s q := by
  unfold sourceOf
  split
  · subst_vars
    rw [Finmap.lookup_erase]
    rfl
  · rw [Finmap.lookup_erase_ne ‹_›]

theorem sourceOf_of_lookup (h : s.lookup p = some st) : sourceOf s p = st.source := by
  rw [sourceOf, h]
  rfl

theorem isSome_lookup_insert (h : q = p ∨ (s.lookup q).isSome) (st : MemoryStream) :
    ((s.insert p st).lookup q).isSome := by
  by_cases hq : q = p
  · subst hq
    rw [Finmap.lookup_insert]
    rfl
  · rw [Finmap.lookup_insert_of_ne _ hq]
    exact h.resolve_left hq

theorem sourceOf_insert_same (h : s.lookup p = some st) (hs : st'.source = st.source) (q : Path) :
    sourceOf (s.insert p st') q = sourceOf s q := by
  rw [sourceOf_insert]
  split
  · subst_vars
    rw [hs, sourceOf_of_lookup h]
  · rfl

/-- Replacing a stream by one with the same source keeps all forks. -/
theorem forksOf_insert_same (h : s.lookup p = some st) (hs : st'.source = st.source) (q : Path) :
    forksOf (s.insert p st') q = forksOf s q :=
  forksOf_congr (sourceOf_insert_same h hs) q

theorem card_forksOf_insert (h : s.lookup p = none) (st : MemoryStream) (q : Path) :
    (forksOf (s.insert p st) q).card =
      (forksOf s q).card + if st.source = some q then 1 else 0 := by
  have hp : p ∉ forksOf s q := by simp [mem_forksOf, sourceOf, h]
  split
  · rename_i hst
    rw [← Finset.card_insert_of_notMem hp]
    congr 1
    ext r
    rw [mem_forksOf, sourceOf_insert, Finset.mem_insert, mem_forksOf]
    by_cases hr : r = p <;> simp [hr, hst]
  · rename_i hst
    rw [add_zero]
    congr 1
    ext r
    rw [mem_forksOf, sourceOf_insert, mem_forksOf]
    by_cases hr : r = p
    · subst hr
      simp [hst, sourceOf, h]
    · simp [hr]

theorem card_forksOf_erase (h : s.lookup p = some st) (q : Path) :
    (forksOf s q).card = (forksOf (s.erase p) q).card + if st.source = some q then 1 else 0 := by
  have hs : (s.erase p).insert p st = s := by
    rw [MemoryStore.insert_erase, MemoryStore.insert_lookup h]
  conv_lhs => rw [← hs]
  exact card_forksOf_insert (Finmap.lookup_erase _ _) st q

section Invariant

/-- Relations between a number of forks and a count that survive adding and
releasing a reference. -/
structure Counting (R : ℤ → ℤ → Prop) : Prop where
  zero : R 0 0
  succ : ∀ {a b}, R a b → R (a + 1) (b + 1)
  pred : ∀ {a b}, R (a + 1) b → R a (b - 1)
  le : ∀ {a b}, R a b → a ≤ b

theorem counting_eq : Counting (· = ·) := by
  constructor <;> intros <;> omega

theorem counting_le : Counting (· ≤ ·) := by
  constructor <;> intros <;> omega

/-- Every fork has its source, and every count is related to the forks. -/
structure RefInvariant (R : ℤ → ℤ → Prop) (s : Streams) : Prop where
  sound : ∀ q f, sourceOf s q = some f → (s.lookup f).isSome
  counted : ∀ p st, s.lookup p = some st → R (forksOf s p).card st.metadata.refCount.toInt

variable {R : ℤ → ℤ → Prop}

theorem RefInvariant.forksOf_absent (h : RefInvariant R s) (hp : s.lookup p = none) :
    forksOf s p = ∅ := by
  rw [Finset.eq_empty_iff_forall_notMem]
  intro q hq
  have := h.sound q p (mem_forksOf.mp hq)
  simp [hp] at this

theorem RefInvariant.update (h : RefInvariant R s) (hp : s.lookup p = some st)
    (hsource : st'.source = st.source)
    (href : st'.metadata.refCount = st.metadata.refCount) : RefInvariant R (s.insert p st') := by
  constructor
  · intro q f hq
    rw [sourceOf_insert_same hp hsource] at hq
    exact isSome_lookup_insert (.inr (h.sound q f hq)) st'
  · intro q st₁ hq
    rw [forksOf_insert_same hp hsource]
    obtain ⟨rfl, rfl⟩ | ⟨-, hq⟩ := lookup_of_lookup_insert hq
    · rw [href]
      exact h.counted q st hp
    · exact h.counted q st₁ hq

theorem sound_erase (h : RefInvariant R s) (hforks : forksOf s p = ∅) (q f : Path)
    (hq : sourceOf (s.erase p) q = some f) : f ≠ p ∧ (s.lookup f).isSome := by
  rw [sourceOf_erase] at hq
  split at hq
  · cases hq
  · refine ⟨?_, h.sound q f hq⟩
    rintro rfl
    rw [← mem_forksOf, hforks] at hq
    cases hq

/-- A stream without forks may be dropped without releasing its source when the
relation allows the count to be too large. -/
theorem RefInvariant.erase (h : RefInvariant R s) (hp : s.lookup p = some st)
    (hforks : forksOf s p = ∅) (hleak : st.source.isSome → ∀ a b, R (a + 1) b → R a b) :
    RefInvariant R (s.erase p) := by
  constructor
  · intro q f hq
    obtain ⟨hne, hf⟩ := sound_erase h hforks q f hq
    rwa [Finmap.lookup_erase_ne hne]
  · intro q st₁ hq
    have hcount := h.counted q st₁ (lookup_of_lookup_erase hq).2
    rw [card_forksOf_erase hp] at hcount
    split at hcount
    · rename_i hsource
      exact hleak (by simp [hsource]) _ _ (by exact_mod_cast hcount)
    · simpa using hcount

theorem toInt_pred {n : Int32} (h : 0 < n.toInt) : (n - 1).toInt = n.toInt - 1 := by
  have := n.toInt_lt
  rw [Int32.toInt_sub]
  simp [Int.bmod]
  omega

theorem toInt_succ {n : Int32} (h : n ≠ Int32.maxValue) : (n + 1).toInt = n.toInt + 1 := by
  have hlt := n.toInt_lt
  have hle := n.le_toInt
  have hmax : n.toInt ≠ 2 ^ 31 - 1 := fun hn => h (Int32.toInt_inj.mp hn)
  rw [Int32.toInt_add]
  simp [Int.bmod]
  omega

/-- Dropping a stream and releasing its source keeps every count related to the forks. -/
theorem counted_release (hR : Counting R)
    (h : ∀ p st, s.lookup p = some st → R (forksOf s p).card st.metadata.refCount.toInt)
    (hp : s.lookup p = some st) (hsource : st.source = some f)
    (hf : (s.erase p).lookup f = some st') :
    0 < st'.metadata.refCount.toInt ∧
    ∀ q st₁, ((s.erase p).insert f
        (MemoryStore.setRefCount st' (st'.metadata.refCount - 1))).lookup q = some st₁ →
      R (forksOf ((s.erase p).insert f
        (MemoryStore.setRefCount st' (st'.metadata.refCount - 1))) q).card
        st₁.metadata.refCount.toInt := by
  have hf' := lookup_of_lookup_erase hf
  have hcount := h f st' hf'.2
  rw [card_forksOf_erase hp, if_pos hsource] at hcount
  push_cast at hcount
  have hpos : 0 < st'.metadata.refCount.toInt := by
    have := hR.le hcount
    omega
  have hpred := toInt_pred hpos
  have hsame : (MemoryStore.setRefCount st' (st'.metadata.refCount - 1)).source = st'.source := rfl
  refine ⟨hpos, ?_⟩
  intro q st₁ hq
  rw [forksOf_insert_same hf hsame]
  obtain ⟨rfl, rfl⟩ | ⟨hne, hq⟩ := lookup_of_lookup_insert hq
  · change R _ (st'.metadata.refCount - 1).toInt
    rw [hpred]
    exact hR.pred hcount
  · have hcount' := h q st₁ (lookup_of_lookup_erase hq).2
    rw [card_forksOf_erase hp, if_neg] at hcount'
    · simpa using hcount'
    · rw [hsource, Option.some.injEq]
      exact hne.symm

theorem RefInvariant.release (hR : Counting R) (h : RefInvariant R s) (hp : s.lookup p = some st)
    (hforks : forksOf s p = ∅) (hsource : st.source = some f)
    (hf : (s.erase p).lookup f = some st') :
    0 < st'.metadata.refCount.toInt ∧
    RefInvariant R ((s.erase p).insert f
      (MemoryStore.setRefCount st' (st'.metadata.refCount - 1))) := by
  obtain ⟨hpos, hcounted⟩ := counted_release hR h.counted hp hsource hf
  refine ⟨hpos, ?_, hcounted⟩
  intro q g hq
  rw [sourceOf_insert_same hf (by rfl)] at hq
  obtain ⟨hne, hg⟩ := sound_erase h hforks q g hq
  exact isSome_lookup_insert (.inr (by rwa [Finmap.lookup_erase_ne hne])) _

theorem RefInvariant.insert_plain (hR : Counting R) (h : RefInvariant R s) (hp : s.lookup p = none)
    (hsource : st.source = none) (href : st.metadata.refCount = 0) :
    RefInvariant R (s.insert p st) := by
  constructor
  · intro q f hq
    rw [sourceOf_insert] at hq
    split at hq
    · rw [hsource] at hq
      cases hq
    · exact isSome_lookup_insert (.inr (h.sound q f hq)) st
  · intro q st₁ hq
    rw [card_forksOf_insert hp, hsource]
    obtain ⟨rfl, rfl⟩ | ⟨-, hq⟩ := lookup_of_lookup_insert hq
    · simpa [h.forksOf_absent hp, href] using hR.zero
    · simpa using h.counted q st₁ hq

theorem RefInvariant.insert_fork (hR : Counting R) (h : RefInvariant R s) (hp : s.lookup p = none)
    (hsource : st.source = some f) (href : st.metadata.refCount = 0) (hf : s.lookup f = some st')
    (hmax : st'.metadata.refCount ≠ Int32.maxValue) :
    RefInvariant R ((s.insert f
      (MemoryStore.setRefCount st' (st'.metadata.refCount + 1))).insert p st) := by
  have hne : p ≠ f := by
    rintro rfl
    rw [hp] at hf
    cases hf
  have hsame : (MemoryStore.setRefCount st' (st'.metadata.refCount + 1)).source = st'.source := rfl
  have hp' : (s.insert f (MemoryStore.setRefCount st' (st'.metadata.refCount + 1))).lookup p =
      none := by
    rw [Finmap.lookup_insert_of_ne _ hne, hp]
  constructor
  · intro q g hq
    rw [sourceOf_insert] at hq
    refine isSome_lookup_insert (.inr ?_) st
    split at hq
    · rw [hsource, Option.some.injEq] at hq
      exact isSome_lookup_insert (.inl hq.symm) _
    · rw [sourceOf_insert_same hf hsame] at hq
      exact isSome_lookup_insert (.inr (h.sound q g hq)) _
  · intro q st₁ hq
    rw [card_forksOf_insert hp', forksOf_insert_same hf hsame, hsource]
    obtain ⟨rfl, rfl⟩ | ⟨-, hq⟩ := lookup_of_lookup_insert hq
    · rw [if_neg (by simpa using hne.symm)]
      simpa [h.forksOf_absent hp, href] using hR.zero
    · obtain ⟨rfl, rfl⟩ | ⟨hqf, hq⟩ := lookup_of_lookup_insert hq
      · change R _ (st'.metadata.refCount + 1).toInt
        rw [if_pos rfl, toInt_succ hmax]
        exact_mod_cast hR.succ (h.counted q st' hf)
      · rw [if_neg (by simpa using Ne.symm hqf)]
        exact h.counted q st₁ hq

theorem RefInvariant.forksOf_of_refCount (hR : Counting R) (h : RefInvariant R s)
    (hp : s.lookup p = some st) (href : st.metadata.refCount.toInt ≤ 0) : forksOf s p = ∅ := by
  have := hR.le (h.counted p st hp)
  rw [← Finset.card_eq_zero]
  omega

theorem Deletes.refInvariant {err : Option StoreError} (hR : Counting R) (hc : Deletes s p t err)
    (h : RefInvariant R s) (hforks : forksOf s p = ∅) : RefInvariant R t ∧ err = none := by
  induction hc with
  | absent => exact ⟨h, rfl⟩
  | plain hp hf =>
    refine ⟨h.erase hp hforks fun hsource => ?_, rfl⟩
    simp [MemoryStream.source, StreamMetadata.isFork, hf] at hsource
  | @orphan s p st hp hne hf =>
    have hmem : sourceOf s p = some st.metadata.forkedFrom :=
      (sourceOf_of_lookup hp).trans (source_eq_some.mpr ⟨rfl, hne⟩)
    have hself : st.metadata.forkedFrom ≠ p := by
      intro hself
      rw [hself, ← mem_forksOf, hforks] at hmem
      cases hmem
    have hsome := h.sound p _ hmem
    rw [Finmap.lookup_erase_ne hself] at hf
    simp [hf] at hsome
  | underflow hp hne hf href =>
    obtain ⟨hpos, -⟩ := h.release hR hp hforks (source_eq_some.mpr ⟨rfl, hne⟩) hf
    rw [Int32.lt_iff_toInt_lt, toInt_pred hpos] at href
    simp at href
    omega
  | release hp hne hf =>
    exact ⟨(h.release hR hp hforks (source_eq_some.mpr ⟨rfl, hne⟩) hf).2, rfl⟩
  | next hp hne hf href _ _ ih =>
    obtain ⟨hpos, hi⟩ := h.release hR hp hforks (source_eq_some.mpr ⟨rfl, hne⟩) hf
    refine ih hi (hi.forksOf_of_refCount hR (Finmap.lookup_insert _) ?_)
    rw [href]
    rfl

end Invariant

section Conditions

/-- No creation replaces an expired stream that other streams are forked from. -/
def keepsSources (s : Streams) (e : Event) : Bool :=
  match e.call with
  | .create p _ =>
    (s.lookup p).all fun st => !st.metadata.isExpiredAt (e.env.clock 0) || forksOf s p = ∅
  | _ => true

/-- No creation replaces an expired stream that is itself a fork. -/
def keepsForks (s : Streams) (e : Event) : Bool :=
  match e.call with
  | .create p _ =>
    (s.lookup p).all fun st => !st.metadata.isExpiredAt (e.env.clock 0) || st.source = none
  | _ => true

/-- No fork is added to a source whose count is at its largest value. -/
def countsFit (s : Streams) (e : Event) : Bool :=
  match e.call with
  | .create _ opts =>
    (s.lookup opts.forkedFrom).all fun st => st.metadata.refCount ≠ Int32.maxValue
  | _ => true

variable {opts : CreateOptions}

theorem keepsSources_forksOf (h : keepsSources s e) (hcall : e.call = .create p opts)
    (hfree : FreeAt s e p) (hp : s.lookup p = some st) : forksOf s p = ∅ := by
  simpa [keepsSources, hcall, hp, hfree st hp] using h

theorem keepsForks_source (h : keepsForks s e) (hcall : e.call = .create p opts)
    (hfree : FreeAt s e p) (hp : s.lookup p = some st) : st.source = none := by
  simpa [keepsForks, hcall, hp, hfree st hp] using h

theorem countsFit_ne (h : countsFit s e) (hcall : e.call = .create p opts)
    (hf : s.lookup opts.forkedFrom = some st) : st.metadata.refCount ≠ Int32.maxValue := by
  simpa [countsFit, hcall, hf] using h

variable {R : ℤ → ℤ → Prop}

/-- Freeing a path for creation keeps the counts. -/
theorem RefInvariant.free (h : RefInvariant R s) (hsrc : keepsSources s e)
    (hleak : keepsForks s e ∨ ∀ a b, R (a + 1) b → R a b) (hcall : e.call = .create p opts)
    (hfree : FreeAt s e p) : RefInvariant R (s.erase p) := by
  cases hp : s.lookup p with
  | none =>
    rwa [MemoryStore.erase_absent hp]
  | some st =>
    refine h.erase hp (keepsSources_forksOf hsrc hcall hfree hp) fun hsome => ?_
    obtain hforks | hleak := hleak
    · simp [keepsForks_source hforks hcall hfree hp] at hsome
    · exact hleak

/-- Every step under the conditions keeps the counts. -/
theorem Change.refInvariant (hR : Counting R) (hchange : Change s e s') (h : RefInvariant R s)
    (hsrc : keepsSources s e) (hfit : countsFit s e)
    (hleak : keepsForks s e ∨ ∀ a b, R (a + 1) b → R a b) : RefInvariant R s' := by
  cases hchange with
  | same => exact h
  | update hp hu =>
    exact h.update hp (source_congr hu.forkedFrom) hu.refCount
  | discard hcall hp hfree => exact h.free hsrc hleak hcall hfree
  | plain hcall hfree _ hst =>
    rw [← MemoryStore.insert_erase]
    refine (h.free hsrc hleak hcall hfree).insert_plain hR (Finmap.lookup_erase _ _) ?_ hst.refCount
    simp [MemoryStream.source, StreamMetadata.isFork, hst.forkedFrom]
  | @fork p opts source st _ _ _ _ hcall hfree _ hne hself hsource _ _ hst =>
    have hi := (h.free hsrc hleak hcall hfree).insert_fork hR (Finmap.lookup_erase _ _)
      (source_eq_some.mpr ⟨hst.forkedFrom, hne⟩) hst.refCount
      (by rwa [Finmap.lookup_erase_ne hself]) (countsFit_ne hfit hcall hsource)
    rwa [Finmap.insert_insert_of_ne _ hself, MemoryStore.insert_erase,
      Finmap.insert_insert_of_ne _ hself.symm] at hi
  | delete hcall hp href =>
    rw [Int32.lt_iff_toInt_lt, not_lt] at href
    exact ((deletes_cascade _ _ _ le_rfl).refInvariant hR h (h.forksOf_of_refCount hR hp href)).1

theorem refInvariant_empty : RefInvariant R MemoryStore.empty.streams := by
  constructor
  · intro q f hq
    simp [sourceOf, MemoryStore.empty] at hq
  · intro p st hp
    simp [MemoryStore.empty] at hp

end Conditions

namespace MemoryStore

/-- The conditions under which reference counts are exact. -/
def countsSafely (s : MemoryStore) (e : Event) : Bool :=
  keepsSources s.streams e && keepsForks s.streams e && countsFit s.streams e

theorem refInvariant_run {s : MemoryStore} {h : List Event}
    (hrun : Trace.Run (Guarded countsSafely) empty h s) : RefInvariant (· = ·) s.streams := by
  refine hrun.invariant (I := fun s => RefInvariant (· = ·) s.streams) refInvariant_empty ?_
  rintro s e s' hi ⟨hstep, hsafe⟩
  simp only [countsSafely, Bool.and_eq_true] at hsafe
  exact (step_change hstep).refInvariant counting_eq hi hsafe.1.1 hsafe.2 (.inl hsafe.1.2)

theorem delete_no_underflow {s : MemoryStore} (hi : RefInvariant (· = ·) s.streams) (p : Path) :
    (s.delete p).2 ≠ some .refCountUnderflow := by
  unfold delete
  split
  · simp
  rename_i st hp
  split
  · simp
  split
  · simp
  · rename_i href
    rw [Int32.lt_iff_toInt_lt, not_lt] at href
    have := (deletes_cascade _ s.streams p le_rfl).refInvariant counting_eq hi
      (hi.forksOf_of_refCount counting_eq hp href)
    simp [deleteWithCascade, this.2]

/-- In every run in which no creation replaces an expired stream that is a fork
or has forks, and no count is at its largest value when a fork is added, every
reference count is the number of forks and deletion never underflows. -/
theorem refCount_exact {s : MemoryStore} {h : List Event}
    (hrun : Trace.Run (Guarded countsSafely) empty h s) :
    (∀ p st, s.streams.lookup p = some st →
      st.metadata.refCount.toInt = (forksOf s.streams p).card ∧ 0 ≤ st.metadata.refCount) ∧
    ∀ e s' p, Step s e s' → e.call = .delete p → e.reply ≠ .delete (some .refCountUnderflow) := by
  have hi := refInvariant_run hrun
  constructor
  · intro p st hp
    have hcount := hi.counted p st hp
    refine ⟨hcount.symm, ?_⟩
    rw [Int32.le_iff_toInt_le, ← hcount]
    exact Int.natCast_nonneg _
  · rintro ⟨env, call, reply⟩ s' p hstep rfl hreply
    cases hstep
    exact delete_no_underflow hi p (by simpa using hreply)

def forkCalls : List (Env × Call) :=
  [(.frozen 0, .create [97] { initialData := [1, 2, 3] }),
    (.frozen 1, .create [98] { forkedFrom := [97] }), (.frozen 2, .delete [97])]

theorem forkCalls_run : (empty.execGuarded countsSafely forkCalls).isSome := by decide

theorem refCount_exact_fork :
    ∃ h s st, Trace.Run (Guarded countsSafely) empty h s ∧ s.streams.lookup [97] = some st ∧
      (forksOf s.streams [97]).card = 1 ∧
      st.metadata.refCount.toInt = (forksOf s.streams [97]).card := by
  have hsome : ((ran _ forkCalls forkCalls_run).2.streams.lookup [97]).isSome := by decide
  obtain ⟨st, hst⟩ := Option.isSome_iff_exists.mp hsome
  exact ⟨_, _, st, ran_guarded forkCalls_run, hst, by decide,
    ((refCount_exact (ran_guarded forkCalls_run)).1 _ st hst).1⟩

def recreateCalls : List (Env × Call) :=
  [(.frozen 0, .create [97] { ttlSeconds := some 1 }),
    (.frozen 1, .create [98] { forkedFrom := [97], ttlSeconds := some 100 }),
    (.frozen (10 * 10 ^ 9), .create [97] {})]

theorem recreateCalls_run : (empty.execGuarded (fun _ _ => true) recreateCalls).isSome := by decide

/-- A re-created source does not count the fork that still refers to its path,
and deleting that fork underflows. -/
theorem refCount_recreated :
    ∃ h s st e s', Run h s ∧ s.streams.lookup [97] = some st ∧
      st.metadata.refCount.toInt ≠ (forksOf s.streams [97]).card ∧
      Step s e s' ∧ e.call = .delete [98] ∧ e.reply = .delete (some .refCountUnderflow) := by
  have hreply : ((ran _ recreateCalls recreateCalls_run).2.delete [98]).2 =
      some .refCountUnderflow := by decide
  exact ⟨_, _, ((ran _ recreateCalls recreateCalls_run).2.streams.lookup [97]).get (by decide),
    ⟨.frozen 0, .delete [98], _⟩, _, ran_run recreateCalls_run, (Option.some_get _).symm,
    by decide, rfl, rfl, by rw [hreply]⟩

end MemoryStore

end Chronicle
