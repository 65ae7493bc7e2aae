import Chronicle.Redis.Forking
import Chronicle.Redis.Serialization

/-! # References at rest

When all operations have finished, the set of forks of a stream should be the
forks that name it, and its count their number. The set is keyed by the path of
the fork only, so two creations of one fork share an entry, and the one that
loses removes it.
-/

namespace Chronicle.Redis.Forking

variable {k k' : StreamKeys} {f : Path}

section Scripts

variable {now : ℤ}

def parentOf (k : StreamKeys) : Option Path :=
  if k.info .tail = none then none else k.info .forkedFrom

structure Counted (k : StreamKeys) : Prop where
  refs : refCountOf k.info = some (k.forks.card : ℤ)
  absent : k.info .tail = none → k.forks = ∅
  named : k.info .forkedFrom ≠ some []

/-- Whether a script that finds a stream expired removes it although it is a fork. -/
def reapsFork (k : StreamKeys) (now : ℤ) : Bool :=
  k.info .tail ≠ none && isExpired k.info now = some true && (k.info .forkedFrom).isSome &&
    (refCountOf k.info).any (· ≤ 0)

theorem counted_del : Counted k.del := ⟨rfl, fun _ => rfl, nofun⟩

theorem parentOf_del : parentOf k.del = none := rfl

theorem Counted.hset (h : Counted k) {g : MetaField} (v : Bytes)
    (hg : g ≠ .refCount ∧ g ≠ .tail ∧ g ≠ .forkedFrom) :
    Counted (k.hset g v) ∧ (k.hset g v).forks = k.forks ∧ parentOf (k.hset g v) = parentOf k := by
  rcases hg with ⟨href, htail, hfork⟩
  refine ⟨⟨?_, ?_, ?_⟩, rfl, ?_⟩
  · rw [refCountOf_congr (m := k.info) (by simp [href.symm])]
    exact h.refs
  · exact fun hnone => h.absent (by simpa [htail.symm] using hnone)
  · simpa [hfork.symm] using h.named
  · simp [parentOf, htail.symm, hfork.symm]

theorem Counted.forks_empty (h : Counted k) {n : ℤ} (hn : refCountOf k.info = some n)
    (hle : n ≤ 0) : k.forks = ∅ := by
  rw [h.refs, Option.some.injEq] at hn
  rw [← Finset.card_eq_zero]
  omega

theorem expireCleanup_refs (h : Counted k) (hpresent : k.info .tail ≠ none)
    (hexp : isExpired k.info now = some true) (hreap : reapsFork k now = false)
    (hk : expireCleanup k.info k = some k') :
    Counted k' ∧ k'.forks = k.forks ∧ parentOf k' = parentOf k := by
  rcases Option.map_eq_some_iff.mp hk with ⟨n, hn, heq⟩
  split at heq
  · subst heq
    exact h.hset one (by decide)
  · rename_i hle
    subst heq
    have hforks := h.forks_empty hn (not_lt.mp hle)
    refine ⟨counted_del, hforks.symm, ?_⟩
    have hnone : k.info .forkedFrom = none := by
      simpa [reapsFork, hpresent, hexp, hn, not_lt.mp hle] using hreap
    rw [parentOf_del, parentOf, if_neg hpresent, hnone]

theorem incrRefScript_refs {r : IncrReply} (h : Counted k) (hnew : f ∉ k.forks)
    (hreap : reapsFork k now = false) (hk : incrRefScript now f k = some (k', r)) :
    Counted k' ∧ parentOf k' = parentOf k ∧
      k'.forks = match r with | .ok _ => insert f k.forks | _ => k.forks := by
  unfold incrRefScript at hk
  split at hk
  · cases hk; exact ⟨h, rfl, rfl⟩
  rename_i m hm
  rcases metaMap_present hm with ⟨rfl, hpresent⟩
  split at hk
  · cases hk; exact ⟨h, rfl, rfl⟩
  split at hk
  · cases hk
  · rename_i hexp
    rcases Option.map_eq_some_iff.mp hk with ⟨k₁, hclean, heq⟩
    cases heq
    rcases expireCleanup_refs h hpresent hexp hreap hclean with ⟨hc, hforks, hparent⟩
    exact ⟨hc, hparent, hforks⟩
  · rcases Option.map_eq_some_iff.mp hk with ⟨n, hn, heq⟩
    cases heq
    rw [h.refs, Option.some.injEq] at hn
    refine ⟨⟨?_, ?_, ?_⟩, ?_, rfl⟩
    · simp [refCountOf, Finset.card_insert_of_notMem hnew, ← hn]
    · simp [hpresent]
    · simpa using h.named
    · simp [parentOf]

theorem Counted.nonEmpty_parent (h : Counted k) (hpresent : k.info .tail ≠ none) :
    nonEmpty ((k.info .forkedFrom).getD []) = parentOf k := by
  rw [parentOf, if_neg hpresent]
  cases hp : k.info .forkedFrom with
  | none => rfl
  | some parent =>
    have hne : parent ≠ [] := fun hnil => h.named (hnil ▸ hp)
    rw [Option.getD_some, nonEmpty, if_neg hne]

theorem decrRefScript_refs {r : DecrReply} (h : Counted k) (hf : f ∈ k.forks)
    (hk : decrRefScript f k = some (k', r)) :
    Counted k' ∧ k'.forks = k.forks.erase f ∧
      match r with
      | .cascade grand => parentOf k' = none ∧ parentOf k = nonEmpty grand
      | _ => parentOf k' = parentOf k := by
  have hcard := Finset.card_erase_add_one hf
  unfold decrRefScript at hk
  split at hk
  · rename_i hnone
    rw [h.absent (metaMap_absent hnone)] at hf
    cases hf
  rename_i m hm
  rcases metaMap_present hm with ⟨rfl, hpresent⟩
  rcases Option.map_eq_some_iff.mp hk with ⟨n, hn, heq⟩
  rw [h.refs, Option.some.injEq] at hn
  split at heq
  · omega
  split at heq
  · rename_i hlast
    cases heq
    refine ⟨counted_del, ?_, parentOf_del, (h.nonEmpty_parent hpresent).symm⟩
    have hzero : (k.forks.erase f).card = 0 := by omega
    exact (Finset.card_eq_zero.mp hzero).symm
  · cases heq
    refine ⟨⟨?_, ?_, ?_⟩, rfl, ?_⟩
    · simp only [refCountOf, hset_info, if_pos, Option.getD_some, tonumber_formatInt,
        Option.some.injEq]
      omega
    · simp [hpresent]
    · simpa using h.named
    · simp [parentOf]

theorem deleteScript_refs {r : DeleteReply} (h : Counted k)
    (hk : deleteScript k = some (k', r)) :
    Counted k' ∧ k'.forks = k.forks ∧
      match r with
      | .deleted parent => parentOf k' = none ∧ parentOf k = nonEmpty parent
      | _ => parentOf k' = parentOf k := by
  unfold deleteScript at hk
  split at hk
  · cases hk; exact ⟨h, rfl, rfl⟩
  rename_i m hm
  rcases metaMap_present hm with ⟨rfl, hpresent⟩
  split at hk
  · cases hk; exact ⟨h, rfl, rfl⟩
  rcases Option.map_eq_some_iff.mp hk with ⟨n, hn, heq⟩
  split at heq
  · cases heq
    exact h.hset one (by decide)
  · rename_i hle
    cases heq
    exact ⟨counted_del, (h.forks_empty hn (not_lt.mp hle)).symm, parentOf_del,
      (h.nonEmpty_parent hpresent).symm⟩

/-- The metadata of a new stream: no forks, and the source that the request names. -/
structure NewMeta (md : StreamMetadata) (source : Path) : Prop where
  forkedFrom : md.forkedFrom = source
  refCount : md.refCount = 0

theorem freshKeys_refs {a : CreateArgs} {md : StreamMetadata} {source : Path}
    (hmd : NewMeta md source) (ha : a.fields = metaToFields md) :
    Counted (freshKeys a k) ∧ parentOf (freshKeys a k) = nonEmpty source := by
  have href : (freshKeys a k).info .refCount = none := by
    simp [freshKeys, ha, metaToFields, hmd.refCount]
  have hfork : (freshKeys a k).info .forkedFrom = nonEmpty source := by
    simp [freshKeys, ha, metaToFields, hmd.forkedFrom]
  have htail : (freshKeys a k).info .tail ≠ none := by
    simp [freshKeys, ha, metaToFields]
  refine ⟨⟨?_, fun hnone => absurd hnone htail, ?_⟩, ?_⟩
  · rw [refCountOf, href]
    rfl
  · rw [hfork, nonEmpty]
    split
    · simp
    · rename_i hne
      simpa using hne
  · rw [parentOf, if_neg htail, hfork]

theorem createScript_refs {a : CreateArgs} {md : StreamMetadata} {source : Path} {r : CreateReply}
    (h : Counted k) (hmd : NewMeta md source) (ha : a.fields = metaToFields md)
    (hreap : reapsFork k a.nowNs = false) (hk : createScript a k = some (k', r)) :
    Counted k' ∧ k'.forks = k.forks ∧
      if r = .created then parentOf k = none ∧ parentOf k' = nonEmpty source
      else parentOf k' = parentOf k := by
  rcases freshKeys_refs (k := k) hmd ha with ⟨hcounted, hparent⟩
  unfold createScript at hk
  split at hk
  · rename_i hnone
    have hgone := metaMap_absent hnone
    cases hk
    exact ⟨hcounted, (h.absent hgone).symm, if_pos hgone, hparent⟩
  rename_i m hm
  rcases metaMap_present hm with ⟨rfl, hpresent⟩
  split at hk
  · cases hk
  · rename_i hexp
    rcases Option.map_eq_some_iff.mp hk with ⟨n, hn, heq⟩
    split at heq
    · cases heq
      exact h.hset one (by decide)
    · rename_i hle
      cases heq
      have hnone : k.info .forkedFrom = none := by
        simpa [reapsFork, hpresent, hexp, hn, not_lt.mp hle] using hreap
      refine ⟨hcounted, (h.forks_empty hn (not_lt.mp hle)).symm, ?_, hparent⟩
      rw [parentOf, if_neg hpresent, hnone]
  · split at hk
    · cases hk; exact ⟨h, rfl, rfl⟩
    split at hk
    · cases hk; exact ⟨h, rfl, rfl⟩
    · cases hk; exact ⟨h, rfl, rfl⟩

theorem commit_refs {a : AppendArgs} (h : Counted k) (hpresent : k.info .tail ≠ none)
    (m : MetaHash) :
    Counted (commit m a now k) ∧ (commit m a now k).forks = k.forks ∧
      parentOf (commit m a now k) = parentOf k := by
  have hforks : (commit m a now k).forks = k.forks := by
    unfold commit
    split <;> split <;> exact (hsetAll_keys _ _).2.2.1
  have hfork : (commit m a now k).info .forkedFrom = k.info .forkedFrom :=
    commit_info_of_not_committed rfl (by decide) m a now k
  have htail : (commit m a now k).info .tail ≠ none := by
    rw [(commit_written m a now k).2.1]
    split
    · exact hpresent
    · nofun
  refine ⟨⟨?_, fun hnone => absurd hnone htail, by rw [hfork]; exact h.named⟩, hforks, ?_⟩
  · rw [refCountOf_congr (commit_info_of_not_committed rfl (by decide) m a now k), hforks]
    exact h.refs
  · rw [parentOf, parentOf, if_neg htail, if_neg hpresent, hfork]

theorem appendScript_refs {a : AppendArgs} {r : Reply} (h : Counted k)
    (hreap : (tonumber a.nowNs).all fun now => !reapsFork k now)
    (hk : appendScript a k = some (k', r)) :
    Counted k' ∧ k'.forks = k.forks ∧ parentOf k' = parentOf k := by
  rcases appendScript_inv hk with
    ⟨now, hnow, ⟨rfl, -⟩ | ⟨hpresent, ⟨hexp, hclean, -⟩ | ⟨_, _, -, hopen⟩⟩⟩
  · exact ⟨h, rfl, rfl⟩
  · rw [hnow, Option.all_some, Bool.not_eq_true'] at hreap
    exact expireCleanup_refs h hpresent hexp hreap hclean
  have htouched := h.hset (Decimal.formatInt now) (g := .accessedAtNs) (by decide)
  rcases appendOpen_cases hopen with ⟨rfl, -⟩ | ⟨rfl, -⟩
  · exact htouched
  · rcases commit_refs htouched.1 (by simpa using hpresent) k.info with ⟨hc, hforks, hparent⟩
    exact ⟨hc, hforks.trans htouched.2.1, hparent.trans htouched.2.2⟩

end Scripts

variable {db db' : Db} {i e : Instr} {ch : Choice} {next : List Instr}

section Balance

variable {s p child : Path}

/-- Whether an instruction stands for a reference of a fork on its source: the fork is about to be
created, or the reference is about to be released. -/
def holds (s f : Path) : Instr → Bool
  | .create c _ _ => s ≠ [] && c.opts.forkedFrom = s && c.path = f
  | .decrRef parent child => parent = s && child = f
  | _ => false

/-- A stream that names its source stands for a reference as well. -/
def names (k : StreamKeys) (s : Path) : ℕ := if parentOf k = some s then 1 else 0

def lists (k : StreamKeys) (f : Path) : ℕ := if f ∈ k.forks then 1 else 0

/-- What the instructions of a creation carry along. -/
def Sound : Instr → Prop
  | .fetchSource c => c.opts.forkedFrom ≠ []
  | .incrRef c md _ => c.opts.forkedFrom ≠ [] ∧ NewMeta md c.opts.forkedFrom
  | .create c md _ => NewMeta md c.opts.forkedFrom
  | .decrRef parent _ => parent ≠ []
  | _ => True

/-- A reference is taken for a fork that has none, and no fork is removed because it expired or
because the lifetime of its keys is over. -/
def orderly (db : Db) (i : Instr) (ch : Choice) : Bool :=
  match i with
  | .incrRef c _ _ =>
    c.path ∉ (db c.opts.forkedFrom).forks && !reapsFork (db c.opts.forkedFrom) ch.nowNs
  | .create c _ _ => !reapsFork (db c.path) ch.nowNs
  | .append path a => (tonumber a.nowNs).all fun now => !reapsFork (db path) now
  | .lapse path => (db path).info .forkedFrom = none
  | _ => true

/-- What a step does to the references of a fork on its source. -/
def Balanced (db : Db) (i : Instr) (db' : Db) (next : List Instr) : Prop :=
  ∀ s f, names (db' f) s + next.countP (holds s f) + lists (db s) f =
    names (db f) s + (if holds s f i then 1 else 0) + lists (db' s) f

theorem names_congr (h : parentOf k' = parentOf k) : names k' s = names k s := by
  rw [names, names, h]

theorem lists_congr (h : k'.forks = k.forks) : lists k' f = lists k f := by
  rw [lists, lists, h]

theorem names_set : names (set db p k f) s = if f = p then names k s else names (db f) s := by
  rw [set, Function.update_apply]
  split <;> rfl

theorem lists_set : lists (set db p k s) f = if s = p then lists k f else lists (db s) f := by
  rw [set, Function.update_apply]
  split <;> rfl

theorem names_kept (h : parentOf k = parentOf (db p)) :
    names (set db p k f) s = names (db f) s := by
  rw [names_set]
  split
  · subst f; exact names_congr h
  · rfl

theorem lists_kept (h : k.forks = (db p).forks) : lists (set db p k s) f = lists (db s) f := by
  rw [lists_set]
  split
  · subst s; exact lists_congr h
  · rfl

theorem lists_insert (hnew : child ∉ (db p).forks)
    (h : k.forks = insert child (db p).forks) :
    lists (set db p k s) f = lists (db s) f + if p = s ∧ child = f then 1 else 0 := by
  rw [lists_set]
  by_cases hs : s = p
  · subst s
    rw [if_pos rfl, lists, lists, h]
    by_cases hf : f = child
    · subst f
      simp [hnew]
    · simp [hf, Ne.symm hf]
  · simp [hs, Ne.symm hs]

theorem lists_erase (hold : child ∈ (db p).forks)
    (h : k.forks = (db p).forks.erase child) :
    lists (set db p k s) f + (if p = s ∧ child = f then 1 else 0) = lists (db s) f := by
  rw [lists_set]
  by_cases hs : s = p
  · subst s
    rw [if_pos rfl, lists, lists, h]
    by_cases hf : f = child
    · subst f
      simp [hold]
    · simp [hf, Ne.symm hf]
  · simp [hs, Ne.symm hs]

theorem names_created {source : Path} (hold : parentOf (db p) = none)
    (hnew : parentOf k = nonEmpty source) :
    names (set db p k f) s =
      names (db f) s + if s ≠ [] ∧ source = s ∧ p = f then 1 else 0 := by
  rw [names_set]
  by_cases hf : f = p
  · subst f
    rw [if_pos rfl, names, names, hold, hnew, nonEmpty]
    by_cases hs : source = s
    · subst s
      by_cases hnil : source = [] <;> simp [hnil]
    · by_cases hnil : source = [] <;> simp [hnil, hs]
  · simp [hf, Ne.symm hf]

theorem countP_rollback (c : Creation) (s f : Path) :
    (rollback c).countP (holds s f) =
      if s ≠ [] ∧ c.opts.forkedFrom = s ∧ c.path = f then 1 else 0 := by
  unfold rollback
  split
  · rename_i hnil
    rw [List.countP_nil, if_neg]
    rintro ⟨hs, rfl, -⟩
    exact hs hnil
  · rename_i hne
    rw [List.countP_singleton]
    by_cases hc : c.opts.forkedFrom = s ∧ c.path = f
    · rcases hc with ⟨rfl, rfl⟩
      simp [holds, hne]
    · rw [if_neg (by simpa [holds] using hc), if_neg fun h => hc h.2]

theorem countP_createNext (c : Creation) (md : StreamMetadata) (pfx : Bytes) (s f : Path) :
    (createNext c md pfx).countP (holds s f) =
      if s ≠ [] ∧ c.opts.forkedFrom = s ∧ c.path = f then 1 else 0 := by
  unfold createNext
  split
  · exact countP_rollback c s f
  · rw [List.countP_singleton]
    simp [holds, and_assoc]

theorem countP_releaseNext (parent child s f : Path) :
    (releaseNext parent child).countP (holds s f) =
      if nonEmpty parent = some s ∧ child = f then 1 else 0 := by
  unfold releaseNext nonEmpty
  split
  · simp
  · rw [List.countP_singleton]
    simp [holds]

theorem names_released {parent : Path} (hgone : parentOf k = none)
    (hold : parentOf (db p) = nonEmpty parent) :
    names (set db p k f) s + (releaseNext parent p).countP (holds s f) = names (db f) s := by
  rw [names_set, countP_releaseNext]
  by_cases hf : f = p
  · subst f
    simp [names, hgone, hold]
  · simp [hf, Ne.symm hf]

theorem holds_create (c : Creation) (md : StreamMetadata) (frames : List Bytes) :
    holds s f (.create c md frames) = true ↔ s ≠ [] ∧ c.opts.forkedFrom = s ∧ c.path = f := by
  simp [holds, and_assoc]

theorem holds_decrRef (parent child : Path) :
    holds s f (.decrRef parent child) = true ↔ parent = s ∧ child = f := by
  simp [holds]

theorem balanced_incrRef {c : Creation} {md : StreamMetadata} {pfx : Bytes} {r : IncrReply}
    (hcounted : Counted (db c.opts.forkedFrom)) (hsource : c.opts.forkedFrom ≠ [])
    (hP : orderly db (.incrRef c md pfx) ch)
    (hk : incrRefScript ch.nowNs c.path (db c.opts.forkedFrom) = some (k, r)) :
    Counted k ∧ Balanced db (.incrRef c md pfx) (set db c.opts.forkedFrom k)
      (incrNext c md pfx r) := by
  simp only [orderly, Bool.and_eq_true, decide_eq_true_eq, Bool.not_eq_true'] at hP
  rcases incrRefScript_refs hcounted hP.1 hP.2 hk with ⟨hc, hparent, hforks⟩
  refine ⟨hc, fun s f => ?_⟩
  rw [names_kept hparent]
  cases r with
  | ok n =>
    rw [lists_insert hP.1 hforks, incrNext, countP_createNext]
    have hiff : (s ≠ [] ∧ c.opts.forkedFrom = s ∧ c.path = f) ↔
        c.opts.forkedFrom = s ∧ c.path = f :=
      and_iff_right_of_imp fun h => h.1 ▸ hsource
    simp only [hiff, holds, Bool.false_eq_true, if_false]
    omega
  | notFound | softDel => rw [lists_kept hforks]; rfl

theorem balanced_create {c : Creation} {md : StreamMetadata} {frames : List Bytes} {r : CreateReply}
    (hcounted : Counted (db c.path)) (hmd : NewMeta md c.opts.forkedFrom)
    (hP : orderly db (.create c md frames) ch)
    (hk : createScript (createArgs ch.nowNs md c.opts frames) (db c.path) = some (k, r)) :
    Counted k ∧ Balanced db (.create c md frames) (set db c.path k)
      (if r = .created then [] else rollback c) := by
  simp only [orderly, Bool.not_eq_true'] at hP
  have hfields : (createArgs ch.nowNs md c.opts frames).fields = metaToFields md := rfl
  rcases createScript_refs hcounted hmd hfields hP hk with ⟨hc, hforks, hparent⟩
  refine ⟨hc, fun s f => ?_⟩
  rw [lists_kept hforks]
  simp only [holds_create]
  split at hparent
  · rename_i hcreated
    rw [if_pos hcreated, names_created hparent.1 hparent.2, List.countP_nil, Nat.add_zero]
  · rename_i hcreated
    rw [if_neg hcreated, names_kept hparent, countP_rollback]

theorem balanced_decrRef {parent : Path} {r : DecrReply} (hcounted : Counted (db parent))
    (hheld : child ∈ (db parent).forks) (hk : decrRefScript child (db parent) = some (k, r)) :
    Counted k ∧ Balanced db (.decrRef parent child) (set db parent k) (decrNext parent r) := by
  rcases decrRefScript_refs hcounted hheld hk with ⟨hc, hforks, hparent⟩
  refine ⟨hc, fun s f => ?_⟩
  have hlists := lists_erase (s := s) (f := f) hheld hforks
  simp only [holds_decrRef]
  cases r with
  | cascade grand =>
    rw [decrNext, names_released hparent.1 hparent.2]
    omega
  | gone | underflow | ok n =>
    simp only [names_kept hparent, decrNext, List.countP_nil]
    omega

theorem balanced_delete {path : Path} {r : DeleteReply} (hcounted : Counted (db path))
    (hk : deleteScript (db path) = some (k, r)) :
    Counted k ∧ Balanced db (.delete path) (set db path k) (deleteNext path r) := by
  rcases deleteScript_refs hcounted hk with ⟨hc, hforks, hparent⟩
  refine ⟨hc, fun s f => ?_⟩
  rw [lists_kept hforks]
  cases r with
  | deleted parent => rw [deleteNext, names_released hparent.1 hparent.2]; rfl
  | notFound | softDel | softDeleted => rw [names_kept hparent]; rfl

theorem balanced_read (hi : ∀ s f, holds s f i = false)
    (hnext : ∀ s f, next.countP (holds s f) = 0) : Balanced db i db next := by
  intro s f
  rw [hi, hnext]
  rfl

end Balance

section Steps

variable {c : Creation} {md : StreamMetadata}

theorem rollback_sound (c : Creation) : ∀ j ∈ rollback c, Sound j := by
  unfold rollback
  split
  · simp
  · simpa [Sound]

theorem releaseNext_sound (parent child : Path) : ∀ j ∈ releaseNext parent child, Sound j := by
  unfold releaseNext
  split
  · simp
  · simpa [Sound]

theorem NewMeta.initialFrames {md' : StreamMetadata} {source : Path} {pfx data : Bytes}
    {frames : List Bytes} (h : NewMeta md source)
    (hf : initialFrames md pfx data = .ok (md', frames)) : NewMeta md' source := by
  rcases initialFrames_meta hf with ⟨hfork, -, -, hrefs⟩
  exact ⟨hfork.trans h.forkedFrom, hrefs.trans h.refCount⟩

theorem createNext_sound (h : NewMeta md c.opts.forkedFrom) (pfx : Bytes) :
    ∀ j ∈ createNext c md pfx, Sound j := by
  unfold createNext
  split
  · exact rollback_sound c
  · rename_i hframes
    intro j hj
    rw [List.mem_singleton.mp hj]
    exact h.initialFrames hframes

theorem forkNext_cases (c : Creation) (ch : Choice) (source : StreamMetadata) :
    forkNext c ch source = [] ∨
      ∃ md pfx, NewMeta md c.opts.forkedFrom ∧ forkNext c ch source = [.incrRef c md pfx] := by
  unfold forkNext
  split
  · exact .inl rfl
  · dsimp only
    split
    · exact .inl rfl
    · exact .inr ⟨_, _, ⟨rfl, rfl⟩, rfl⟩

theorem exec_refs (hcounted : ∀ p, Counted (db p)) (hsound : Sound i) (hP : orderly db i ch)
    (hheld : ∀ s f, i = .decrRef s f → f ∈ (db s).forks)
    (h : exec db i ch = some (db', next, e)) :
    (∀ p, Counted (db' p)) ∧ (∀ j ∈ next, Sound j) ∧ Balanced db i db' next := by
  have hset {p : Path} {k : StreamKeys} (hk : Counted k) (q : Path) : Counted (set db p k q) := by
    rw [set, Function.update_apply]
    split
    · exact hk
    · exact hcounted q
  cases i with
  | precheck c =>
    dsimp only [exec] at h
    split at h
    · cases h
      exact ⟨hcounted, by simp, balanced_read (fun _ _ => rfl) fun _ _ => rfl⟩
    split at h
    · cases h
      exact ⟨hcounted, by simp, balanced_read (fun _ _ => rfl) fun _ _ => rfl⟩
    split at h
    · rename_i hfork
      cases h
      exact ⟨hcounted, by simpa [Sound], balanced_read (fun _ _ => rfl) fun _ _ => rfl⟩
    · rename_i hfork
      have hnil := not_not.mp hfork
      cases h
      refine ⟨hcounted, createNext_sound ⟨hnil.symm, rfl⟩ [], balanced_read (fun _ _ => rfl) ?_⟩
      intro s f
      rw [countP_createNext, if_neg]
      rintro ⟨hs, rfl, -⟩
      exact hs hnil
  | fetchSource c =>
    dsimp only [exec] at h
    split at h
    · cases h
      exact ⟨hcounted, by simp, balanced_read (fun _ _ => rfl) fun _ _ => rfl⟩
    · cases h
      exact ⟨hcounted, by simp, balanced_read (fun _ _ => rfl) fun _ _ => rfl⟩
    · rename_i source _
      cases h
      rcases forkNext_cases c ch source with hnext | ⟨md, pfx, hmd, hnext⟩ <;> rw [hnext]
      · exact ⟨hcounted, by simp, balanced_read (fun _ _ => rfl) fun _ _ => rfl⟩
      · refine ⟨hcounted, fun j hj => ?_, balanced_read (fun _ _ => rfl) fun _ _ => rfl⟩
        rw [List.mem_singleton.mp hj]
        exact ⟨hsound, hmd⟩
  | incrRef c md pfx =>
    rcases Option.map_eq_some_iff.mp h with ⟨⟨k, r⟩, hk, heq⟩
    rcases balanced_incrRef (hcounted _) hsound.1 hP hk with ⟨hc, hbal⟩
    cases heq
    refine ⟨hset hc, ?_, hbal⟩
    cases r with
    | ok n => exact createNext_sound hsound.2 pfx
    | notFound | softDel => simp [incrNext]
  | create c md frames =>
    rcases Option.map_eq_some_iff.mp h with ⟨⟨k, r⟩, hk, heq⟩
    rcases balanced_create (hcounted _) hsound hP hk with ⟨hc, hbal⟩
    cases heq
    refine ⟨hset hc, ?_, hbal⟩
    split
    · simp
    · exact rollback_sound c
  | decrRef parent child =>
    rcases Option.map_eq_some_iff.mp h with ⟨⟨k, r⟩, hk, heq⟩
    rcases balanced_decrRef (hcounted _) (hheld _ _ rfl) hk with ⟨hc, hbal⟩
    cases heq
    refine ⟨hset hc, ?_, hbal⟩
    cases r with
    | cascade grand => exact releaseNext_sound grand parent
    | gone | underflow | ok n => simp [decrNext]
  | delete path =>
    rcases Option.map_eq_some_iff.mp h with ⟨⟨k, r⟩, hk, heq⟩
    rcases balanced_delete (hcounted _) hk with ⟨hc, hbal⟩
    cases heq
    refine ⟨hset hc, ?_, hbal⟩
    cases r with
    | deleted parent => exact releaseNext_sound parent path
    | notFound | softDel | softDeleted => simp [deleteNext]
  | append path a =>
    rcases Option.map_eq_some_iff.mp h with ⟨⟨k, r⟩, hk, heq⟩
    rcases appendScript_refs (hcounted _) hP hk with ⟨hc, hforks, hparent⟩
    cases heq
    refine ⟨hset hc, by simp, fun s f => ?_⟩
    rw [names_kept hparent, lists_kept hforks]
    rfl
  | lapse path =>
    dsimp only [exec] at h
    split at h
    · rename_i hlapse
      cases h
      simp only [lapses, Bool.and_eq_true, Option.any_eq_true, decide_eq_true_eq] at hlapse
      rcases hlapse.1.1.2 with ⟨n, hn, hle⟩
      have hparent : parentOf (db path) = none := by
        rw [parentOf, of_decide_eq_true hP, ite_self]
      refine ⟨hset counted_del, by simp, fun s f => ?_⟩
      rw [names_kept (parentOf_del.trans hparent.symm),
        lists_kept ((hcounted path).forks_empty hn hle).symm]
      rfl
    · cases h

end Steps

section Runs

/-- The forks of a stream are those that name it, together with those whose creation or release
is under way. -/
structure Inv (st : Conf) : Prop where
  counted : ∀ p, Counted (st.world p)
  sound : ∀ i, st.Pending i → Sound i
  balance : ∀ s f, names (st.world f) s + st.count (holds s f) = lists (st.world s) f

theorem Inv.step {st st' : Conf} {e : Option Instr} (h : Inv st)
    (hstep : Interleaving orderly st e st') : Inv st' := by
  cases hstep with
  | @start w ts p hp =>
    -- the operations start without a reference
    have hstart : (∀ j ∈ p, Sound j) ∧ ∀ s f, p.countP (holds s f) = 0 := by
      unfold starts at hp
      split at hp <;> first | exact ⟨by simp [Sound], fun _ _ => rfl⟩ | cases hp
    refine ⟨h.counted, fun j hj => ?_, fun s f => ?_⟩
    · rcases Threads.pending_start.mp hj with hj | hj
      · exact hstart.1 j hj
      · exact h.sound j hj
    · rw [Threads.count_start, hstart.2, Nat.zero_add]
      exact h.balance s f
  | @run w w' ts₁ ts₂ i p ch next e hexec hP =>
    have hheld (s f : Path) (hi : i = .decrRef s f) : f ∈ (w s).forks := by
      subst hi
      have hbal : names (w f) s + _ = lists (w s) f := h.balance s f
      have hpos : 0 < Threads.State.count ⟨w, ts₁ ++ (.decrRef s f :: p) :: ts₂⟩ (holds s f) :=
        Threads.pending_head.count_pos ((holds_decrRef s f).mpr ⟨rfl, rfl⟩)
      by_contra hf
      rw [lists, if_neg hf] at hbal
      omega
    have hcounted : ∀ p, Counted (w p) := h.counted
    rcases exec_refs hcounted (h.sound i Threads.pending_head) hP hheld hexec with
      ⟨hcounted, hsound, hbal⟩
    refine ⟨hcounted, fun j hj => ?_, fun s f => ?_⟩
    · rcases Threads.pending_origin hj with hj | hj
      · exact hsound j hj
      · exact h.sound j hj
    · have hold : names (w f) s + _ = lists (w s) f := h.balance s f
      have hnew := hbal s f
      have hcount : Threads.State.count ⟨w', ts₁ ++ (next ++ p) :: ts₂⟩ (holds s f) + _ =
        Threads.State.count ⟨w, ts₁ ++ (i :: p) :: ts₂⟩ (holds s f) + _ := Threads.count_run _
      change names (w' f) s + _ = lists (w' s) f
      omega

theorem Inv.init : Inv ⟨fun _ => {}, []⟩ where
  counted _ := counted_del (k := {})
  sound i h := by
    rcases h with ⟨p, hp, -⟩
    cases hp
  balance _ _ := rfl

/-- When all operations have finished, the count of a stream is the number of its forks, and these
are the streams that name it. -/
theorem refs_at_rest {hist : List (Option Instr)} {st : Conf}
    (hrun : Trace.Run (Interleaving orderly) ⟨fun _ => {}, []⟩ hist st) (hquiet : st.Quiescent)
    (s : Path) :
    refCountOf (st.world s).info = some ((st.world s).forks.card : ℤ) ∧
    ∀ f, f ∈ (st.world s).forks ↔
      (st.world f).info .tail ≠ none ∧ (st.world f).info .forkedFrom = some s := by
  have hinv : Inv st := hrun.invariant Inv.init fun _ _ _ h hstep => h.step hstep
  refine ⟨(hinv.counted s).refs, fun f => ?_⟩
  have hbal := hinv.balance s f
  rw [hquiet.count_eq_zero, names, lists, parentOf] at hbal
  by_cases hf : f ∈ (st.world s).forks <;> by_cases htail : (st.world f).info .tail = none <;>
    simp_all

def sourceCreation : Creation := { path := [97], opts := {}, incarnation := [49], createdAt := 1 }

def forkCreation : Creation :=
  { path := [98], opts := { forkedFrom := [97] }, incarnation := [50], createdAt := 1 }

def forkTurns : List (Threads.Turn Instr Choice) :=
  [.start [.precheck sourceCreation], .run 0 {}, .run 0 {}] ++
  [.start [.precheck forkCreation], .run 0 {}, .run 0 {}, .run 0 {}, .run 0 {}]

theorem forkTurns_run :
    (Trace.execAll (Threads.turn exec starts orderly) ⟨fun _ => {}, []⟩ forkTurns).isSome := by
  decide

theorem refs_at_rest_fork :
    ((played orderly forkTurns forkTurns_run).2.world [97]).forks = {[98]} ∧
    refCountOf ((played orderly forkTurns forkTurns_run).2.world [97]).info =
      some (((played orderly forkTurns forkTurns_run).2.world [97]).forks.card : ℤ) ∧
    ∀ f, f ∈ ((played orderly forkTurns forkTurns_run).2.world [97]).forks ↔
      ((played orderly forkTurns forkTurns_run).2.world f).info .tail ≠ none ∧
      ((played orderly forkTurns forkTurns_run).2.world f).info .forkedFrom = some [97] :=
  ⟨by decide, refs_at_rest (played_run forkTurns_run) (by decide) [97]⟩

def raceTurns : List (Threads.Turn Instr Choice) :=
  [.start [.precheck sourceCreation], .run 0 {}, .run 0 {}] ++
  [.start [.precheck forkCreation], .start [.precheck { forkCreation with incarnation := [51] }],
    .run 0 {}, .run 1 {}, .run 0 {}, .run 1 {}, .run 0 {}, .run 1 {}, .run 0 {}, .run 1 {},
    .run 1 {}]

theorem raceTurns_run :
    (Trace.execAll (Threads.turn exec starts fun _ _ _ => true) ⟨fun _ => {}, []⟩
      raceTurns).isSome := by
  decide

/-- All operations have finished and the fork is there, but its source does not list it. -/
theorem refs_raced :
    ∃ hist st, Trace.Run (Interleaving fun _ _ _ => true) ⟨fun _ => {}, []⟩ hist st ∧
      st.Quiescent ∧ (st.world [97]).info .tail ≠ none ∧ (st.world [98]).info .tail ≠ none ∧
      (st.world [98]).info .forkedFrom = some [97] ∧ (st.world [97]).forks = ∅ ∧
      refCountOf (st.world [97]).info = some 1 :=
  ⟨_, _, played_run raceTurns_run, by decide, by decide, by decide, by decide, by decide,
    by decide⟩

end Runs

end Chronicle.Redis.Forking
