import Chronicle.Webhook.Cursors

/-! # The lazy migration of a subscription

A subscription of the legacy keyspace is copied to its slot when a read misses it
there, and the legacy copy is dropped afterwards. The keys are in different
slots, so the commands of a migration run one by one, between those of other
migrations and the scripts of the subscription.
-/

namespace Chronicle.Webhook.Migration

open Chronicle.Webhook.Sub

inductive Zset where
  | lease
  | retry
  | due
  deriving DecidableEq, Repr

/-- The fields of a subscription hash as a migration reads them. The hashes of older versions lack
an owner, an incarnation or the stamp of the wake event. -/
structure Fields where
  config : Config
  fence : Fence
  hasOwner : Bool := true
  hasIncarnation : Bool := true
  hasWakeEventSent : Bool := true
  deriving DecidableEq, Repr

def Fields.hset (c : Fields) (cur : Option (Config × Fence)) : Config × Fence :=
  let owner := cur.elim [] (·.1.owner)
  let f : Fence := cur.elim {} (·.2)
  ({ c.config with owner := if c.hasOwner then c.config.owner else owner },
    { c.fence with
      incarnation := if c.hasIncarnation then c.fence.incarnation else f.incarnation
      wakeEventSentNs := if c.hasWakeEventSent then c.fence.wakeEventSentNs
        else f.wakeEventSentNs })

structure Legacy where
  hash : Option Fields := none
  links : Links := ∅
  listed : Bool := false
  score : Zset → Option ℤ := fun _ => none
  streams : Finset Path := ∅

/-- The command that a migration sends next, with what it has read. -/
inductive Stage where
  | read
  | copyHash (fields : Fields)
  | readLinks
  | copyLinks (links : Links)
  | list (links : Links)
  | score (links : Links) (todo : List Zset)
  | zadd (links : Links) (z : Zset) (x : ℤ) (todo : List Zset)
  | index (links : Links) (todo : Finset Path)
  | flip (links : Links)
  | unlist (links : Links)
  | zrem (links : Links) (z : Zset) (todo : List Zset)
  | unindex (todo : Finset Path)
  | returned

/-- What the scripts have done so far. -/
structure Past where
  ended : List (ℤ × Bytes) := []
  deleted : Bool := false

structure System where
  home : Sub := {}
  indexed : Finset Path := ∅
  legacy : Legacy := {}
  runs : ℕ → Stage := fun _ => .read
  past : Past := {}

def wake (s : Sub) : Option (ℤ × Bytes) := s.parent.map fun (_, f) => (f.generation, f.wakeId)

def Fields.wake (c : Fields) : ℤ × Bytes := (c.fence.generation, c.fence.wakeId)

section Commands

def zadd (s : Sub) (x : ℤ) : Zset → Sub
  | .lease => { s with lease := s.lease.zadd 0 x }
  | .retry => { s with retry := s.retry.zadd 0 x }
  | .due => { s with due := s.due.zadd 0 x }

def Stage.indexing (links : Links) (todo : Finset Path) : Stage :=
  if todo = ∅ then .flip links else .index links todo

def Stage.scoring (links : Links) : List Zset → Stage
  | [] => .indexing links links.keys
  | todo => .score links todo

def Stage.unindexing (todo : Finset Path) : Stage := if todo = ∅ then .returned else .unindex todo

/-- The next command of a migration. The order in which it goes through schedules and links is not
fixed: where it has a choice it turns to the schedule `z` or the stream `p`. -/
def migrateSub (s : System) (z : Zset) (p : Path) : Stage → Option (System × Stage)
  | .read =>
    match s.legacy.hash with
    | none => some (s, .returned)
    | some fields => some (s, .copyHash fields)
  | .copyHash fields =>
    some ({ s with home.parent := some (fields.hset s.home.parent) }, .readLinks)
  | .readLinks =>
    let links := s.legacy.links
    some (s, if links.keys = ∅ then .list links else .copyLinks links)
  | .copyLinks links => some ({ s with home.links := links ∪ s.home.links }, .list links)
  | .list links => some ({ s with home.listed := true }, .scoring links [.lease, .retry, .due])
  | .score links todo =>
    if z ∉ todo then none
    else
      match s.legacy.score z with
      | none => some (s, .scoring links (todo.erase z))
      | some x => some (s, .zadd links z x (todo.erase z))
  | .zadd links z x todo => some ({ s with home := zadd s.home x z }, .scoring links todo)
  | .index links todo =>
    if p ∉ todo then none
    else some ({ s with indexed := insert p s.indexed }, .indexing links (todo.erase p))
  | .flip links => some ({ s with legacy.hash := none, legacy.links := ∅ }, .unlist links)
  | .unlist links => some ({ s with legacy.listed := false }, .zrem links .lease [.retry, .due])
  | .zrem links z todo =>
    some ({ s with legacy.score := Function.update s.legacy.score z none },
      match todo with
      | [] => .unindexing links.keys
      | z :: todo => .zrem links z todo)
  | .unindex todo =>
    if p ∉ todo then none
    else some ({ s with legacy.streams := s.legacy.streams.erase p }, .unindexing (todo.erase p))
  | .returned => none

end Commands

section Runs

/-- The scripts that race with a migration. -/
def racing : Call → Bool
  | .arm _ | .claim _ | .ack _ | .release _ | .link _ | .delete _ => true
  | _ => false

def isDeleted : Reply → Bool
  | .delete .ok => true
  | _ => false

def Past.after (past : Past) (old new : Option (ℤ × Bytes)) (r : Reply) : Past :=
  { ended := if old = new then past.ended else old.toList ++ past.ended
    deleted := past.deleted || isDeleted r }

inductive Action where
  | script (c : Call)
  | command (i : ℕ) (z : Zset) (p : Path)
  | stop (i : ℕ)

def exec (s : System) : Action → Option System
  | .script c =>
    if racing c then
      let (home, r) := s.home.exec c
      some { s with home := home, past := s.past.after (wake s.home) (wake home) r }
    else none
  | .command i z p =>
    match migrateSub s z p (s.runs i) with
    | none => none
    | some (s', stage) => some { s' with runs := Function.update s'.runs i stage }
  | .stop i => some { s with runs := Function.update s.runs i .returned }

def Step (s : System) (a : Action) (s' : System) : Prop := exec s a = some s'

/-- A subscription that is in the legacy keyspace only, before the first migration. -/
structure Unmigrated (s : System) : Prop where
  home : s.home.parent = none
  runs : ∀ i, s.runs i = .read
  past : s.past = {}

/-- A step after which no script has to be surprised: the generation has not decreased, no cursor
has moved back, no wake is open that a script had cleared or replaced, and after a deletion neither
the hash nor a link is there again. -/
structure Harmless (s s' : System) : Prop where
  generation : ∀ p, wake s.home = some p → ∃ p', wake s'.home = some p' ∧ p.1 ≤ p'.1
  cursors : ∀ path k, s.home.links.lookup path = some k →
    ∃ k', s'.home.links.lookup path = some k' ∧ offsetGreater k.offset k'.offset = false
  wakes : ∀ p ∈ s.past.ended, p.2 ≠ [] → wake s'.home = some p → wake s.home = some p
  hash : s.past.deleted = true → s.home.parent = none → s'.home.parent = none
  links : s.past.deleted = true → ∀ path, s.home.links.lookup path = none →
    s'.home.links.lookup path = none

/-- What a migration copies is not out of date: the hash in the slot is absent and was not deleted,
or it still stores the generation and the wake id of the copy; and a cursor in the slot is absent
and was not deleted, or it is not ahead of the copy. -/
def UpToDate (s : System) : Stage → Prop
  | .copyHash fields =>
    match wake s.home with
    | none => s.past.deleted = false
    | some p => p = fields.wake
  | .copyLinks links => ∀ path k, links.lookup path = some k →
    match s.home.links.lookup path with
    | none => s.past.deleted = false
    | some cur => offsetGreater cur.offset k.offset = false
  | _ => True

end Runs

section Scripts

/-- What a script other than a deletion can do to the generation and the wake id. -/
inductive Moves : Option (ℤ × Bytes) → Option (ℤ × Bytes) → Prop where
  | same (o : Option (ℤ × Bytes)) : Moves o o
  | renewed (g : ℤ) (w w' : Bytes) : Moves (some (g, w)) (some (g + 1, w'))
  | cleared (g : ℤ) (w : Bytes) : Moves (some (g, w)) (some (g, []))

variable {s s' : Sub}

theorem wake_congr (h : s'.parent = s.parent) : wake s' = wake s := by rw [wake, wake, h]

theorem setFence_moves_of_ne {g : ℕ} (hg : g ≠ 0) (f : Fence) :
    Moves (wake s) (wake (s.setFence g f)) := by
  have hp : (s.setFence g f).parent = s.parent := by simp [setFence, hg]
  rw [wake_congr hp]
  exact .same _

theorem setFence_moves {g : ℕ} {f f' : Fence} (hf : s.fence g = some f)
    (h : Moves (some (f.generation, f.wakeId)) (some (f'.generation, f'.wakeId))) :
    Moves (wake s) (wake (s.setFence g f')) := by
  by_cases hg : g = 0
  · subst hg
    obtain ⟨⟨cfg, f₀⟩, hp, rfl⟩ := Option.map_eq_some_iff.mp hf
    simpa [wake, setFence, hp] using h
  · exact setFence_moves_of_ne hg f'

theorem armWake_moves (s : Sub) (a : ArmArgs) : Moves (wake s) (wake (s.armWake a).1) := by
  unfold armWake
  split
  · exact .same _
  split
  · exact .same _
  rename_i f hf
  split
  · exact .same _
  split <;> exact setFence_moves hf (.renewed ..)

theorem ack_moves (s : Sub) (a : AckArgs) : Moves (wake s) (wake (s.ack a).1) := by
  unfold Sub.ack
  split
  · exact .same _
  split
  · exact .same _
  · exact .same _
  rename_i f cfg pf hf hp
  split
  · exact .same _
  split
  · exact .same _
  split
  · exact .same _
  split
  · exact setFence_moves hf (.cleared ..)
  · exact setFence_moves hf (.same _)

theorem release_moves (s : Sub) (a : ReleaseArgs) : Moves (wake s) (wake (s.release a).1) := by
  unfold release
  split
  · exact .same _
  split
  · exact .same _
  rename_i f hf
  split
  · exact .same _
  · exact setFence_moves hf (.cleared ..)

theorem claimed_moves (f : Fence) (worker w inc : Bytes) (t : ℤ) :
    Moves (some (f.generation, f.wakeId))
      (some ((f.claimed worker w inc t).generation, (f.claimed worker w inc t).wakeId)) := by
  unfold Fence.claimed
  cases f.reusable with
  | true => exact .same _
  | false => exact .renewed ..

theorem stampIncarnation_wake {cfg : Config} {pf : Fence} (hp : s.parent = some (cfg, pf)) :
    ∃ f, (s.stampIncarnation pf).1.fence 0 = some f ∧ f.generation = pf.generation ∧
      f.wakeId = pf.wakeId := by
  unfold stampIncarnation
  split
  · refine ⟨{ pf with incarnation := Decimal.formatNat (s.incarnations + 1) }, ?_, rfl, rfl⟩
    simp [fence, setFence, hp]
  · exact ⟨pf, by simp [fence, hp], rfl, rfl⟩

theorem wake_of_fence {f : Fence} (h : s.fence 0 = some f) :
    wake s = some (f.generation, f.wakeId) := by
  obtain ⟨⟨cfg, f₀⟩, hp, rfl⟩ := Option.map_eq_some_iff.mp h
  rw [wake, hp]
  rfl

theorem claim_moves (s : Sub) (a : ClaimArgs) : Moves (wake s) (wake (s.claim a).1) := by
  unfold claim
  split
  · exact .same _
  rename_i cfg pf hp
  split
  · exact .same _
  dsimp only
  have hdrop := dropStaleShard_parent s a.shard a.expected.incarnation
  generalize s.dropStaleShard a.shard a.expected.incarnation = s₁ at hdrop ⊢
  rw [← wake_congr hdrop]
  rw [hp] at hdrop
  split
  · exact .same _
  obtain ⟨f, hf, hgen, hwake⟩ := stampIncarnation_wake hdrop
  have hsame : wake (s₁.stampIncarnation pf).1 = wake s₁ := by
    rw [wake_of_fence hf, hgen, hwake, wake, hdrop]
    rfl
  rw [← hsame]
  -- the fence of the subscription hash is the one that shard zero claims
  by_cases hg : a.shard = 0
  · have hclaim : (s₁.fence a.shard).getD {} = pf := by simp [hg, fence, hdrop]
    rw [hclaim, hg]
    refine setFence_moves hf ?_
    rw [hgen, hwake]
    exact claimed_moves ..
  · exact setFence_moves_of_ne hg _

theorem exec_moves {c : Call} (hc : racing c = true) :
    Moves (wake s) (wake (s.exec c).1) ∧ isDeleted (s.exec c).2 = false ∨
      wake (s.exec c).1 = none ∧ isDeleted (s.exec c).2 = true := by
  cases c with
  | arm a => exact .inl ⟨armWake_moves s a, rfl⟩
  | claim a => exact .inl ⟨claim_moves s a, rfl⟩
  | ack a => exact .inl ⟨ack_moves s a, rfl⟩
  | release a => exact .inl ⟨release_moves s a, rfl⟩
  | link a =>
    obtain ⟨l, hl⟩ := linkStream_keys s a
    refine .inl ⟨?_, rfl⟩
    have hp : (s.exec (.link a)).1.parent = s.parent := by
      change (s.linkStream a).1.parent = s.parent
      rw [hl]
    rw [wake_congr hp]
    exact .same _
  | delete x =>
    change Moves (wake s) (wake (s.deleteSub x).1) ∧ isDeleted (.delete (s.deleteSub x).2) = false ∨
      wake (s.deleteSub x).1 = none ∧ isDeleted (.delete (s.deleteSub x).2) = true
    unfold deleteSub
    split
    · exact .inl ⟨.same _, rfl⟩
    · exact .inl ⟨.same _, rfl⟩
    · exact .inr ⟨rfl, rfl⟩
  | create | wakeSent | check | expire | restore | retry | success | unlink => cases hc

end Scripts

variable {c : Option Fields}

section Invariant

/-- What the slot stores after a copy of `c`, as far as the past goes: the copy itself, or what
scripts have made of it. -/
def Follows (c p : ℤ × Bytes) (past : Past) : Prop :=
  p = c ∨ c ∈ past.ended ∧ (c.1 < p.1 ∨ p.1 = c.1 ∧ p.2 = [])

/-- What holds in a run whose migrations copy what is up to date; `c` is what the legacy hash was
when the run began. -/
structure Inv (c : Option Fields) (s : System) : Prop where
  legacy : ∀ fields, s.legacy.hash = some fields → c = some fields
  read : ∀ i fields, s.runs i = .copyHash fields → c = some fields
  home : ∀ p, wake s.home = some p → ∃ fields, c = some fields ∧ Follows fields.wake p s.past
  absent : wake s.home = none → s.past.deleted = false → s.past.ended = []

variable {s s' : System} {past : Past}

theorem Unmigrated.inv (h : Unmigrated s) : Inv s.legacy.hash s where
  legacy _ hfields := hfields
  read i fields hi := by
    rw [h.runs i] at hi
    cases hi
  home p hp := by
    rw [wake, h.home] at hp
    cases hp
  absent _ _ := by rw [h.past]

theorem Past.mem_after {old new : Option (ℤ × Bytes)} {r : Reply} {p : ℤ × Bytes}
    (h : p ∈ past.ended) : p ∈ (past.after old new r).ended := by
  unfold Past.after
  split
  · exact h
  · exact List.mem_append_right _ h

theorem Past.mem_after_of_ne {new : Option (ℤ × Bytes)} {r : Reply} {p : ℤ × Bytes}
    (h : some p ≠ new) : p ∈ (past.after (some p) new r).ended := by
  unfold Past.after
  simp [h]

theorem Follows.moves {c p p' : ℤ × Bytes} (h : Follows c p past)
    (hmoves : Moves (some p) (some p')) (r : Reply) :
    Follows c p' (past.after (some p) (some p') r) := by
  cases hmoves with
  | same =>
    rcases h with rfl | ⟨hmem, hlt⟩
    · exact .inl rfl
    · exact .inr ⟨Past.mem_after hmem, hlt⟩
  | renewed g w w' =>
    rcases h with rfl | ⟨hmem, hlt⟩
    · exact .inr ⟨Past.mem_after_of_ne (by simp), .inl (by simp)⟩
    · refine .inr ⟨Past.mem_after hmem, .inl ?_⟩
      rcases hlt with hlt | ⟨heq, -⟩
      · exact hlt.trans (by simp)
      · simp [← heq]
  | cleared g w =>
    rcases h with rfl | ⟨hmem, hlt⟩
    · by_cases hw : w = []
      · exact .inl (by rw [hw])
      · exact .inr ⟨Past.mem_after_of_ne (by simpa using hw), .inr ⟨rfl, rfl⟩⟩
    · refine .inr ⟨Past.mem_after hmem, ?_⟩
      rcases hlt with hlt | ⟨heq, -⟩
      · exact .inl hlt
      · exact .inr ⟨heq, rfl⟩

theorem Inv.script {a : Call} (hinv : Inv c s) (ha : racing a = true)
    (h : Step s (.script a) s') : Inv c s' := by
  simp only [Step, exec, ha, if_true, Option.some.injEq] at h
  subst h
  have hexec := @exec_moves s.home a ha
  refine ⟨hinv.legacy, hinv.read, ?_, ?_⟩
  · intro p' hp'
    rw [hp'] at hexec ⊢
    rcases hexec with ⟨hmoves, -⟩ | ⟨hnone, -⟩
    · cases hw : wake s.home with
      | none =>
        rw [hw] at hmoves
        cases hmoves
      | some p =>
        rw [hw] at hmoves
        obtain ⟨fields, hc, hfollows⟩ := hinv.home p hw
        exact ⟨fields, hc, hfollows.moves hmoves _⟩
    · cases hnone
  · intro hnone hdel
    obtain ⟨hdel, hreply⟩ := Bool.or_eq_false_iff.mp hdel
    rw [hnone] at hexec ⊢
    rcases hexec with ⟨hmoves, -⟩ | ⟨-, hdeleted⟩
    · cases hw : wake s.home with
      | none => exact hinv.absent hw hdel
      | some p =>
        rw [hw] at hmoves
        cases hmoves
    · rw [hdeleted] at hreply
      cases hreply

/-- What a command of a migration can do to the keys that the scripts write. -/
inductive Writes (s s' : System) : Stage → Prop where
  | hash (fields : Fields) (hparent : s'.home.parent = some (fields.hset s.home.parent))
      (hlinks : s'.home.links = s.home.links) : Writes s s' (.copyHash fields)
  | links (links : Links) (hparent : s'.home.parent = s.home.parent)
      (hlinks : s'.home.links = links ∪ s.home.links) : Writes s s' (.copyLinks links)
  | none {stage : Stage} (hparent : s'.home.parent = s.home.parent)
      (hlinks : s'.home.links = s.home.links) (h : UpToDate s stage) : Writes s s' stage

theorem zadd_parent (s : Sub) (x : ℤ) (z : Zset) : (zadd s x z).parent = s.parent := by
  cases z <;> rfl

theorem zadd_links (s : Sub) (x : ℤ) (z : Zset) : (zadd s x z).links = s.links := by
  cases z <;> rfl

theorem indexing_ne (links : Links) (todo : Finset Path) (fields : Fields) :
    Stage.indexing links todo ≠ .copyHash fields := by
  unfold Stage.indexing
  split <;> simp

theorem scoring_ne (links : Links) (todo : List Zset) (fields : Fields) :
    Stage.scoring links todo ≠ .copyHash fields := by
  cases todo with
  | nil => exact indexing_ne links _ fields
  | cons => exact nofun

theorem unindexing_ne (todo : Finset Path) (fields : Fields) :
    Stage.unindexing todo ≠ .copyHash fields := by
  unfold Stage.unindexing
  split <;> simp

/-- What a command leaves as it was, and where the fields come from that a migration has read. -/
structure Keeps (s s' : System) (stage : Stage) : Prop where
  past : s'.past = s.past
  runs : s'.runs = s.runs
  legacy : ∀ fields, s'.legacy.hash = some fields → s.legacy.hash = some fields
  read : ∀ fields, stage = .copyHash fields → s.legacy.hash = some fields

theorem Keeps.of_ne {stage : Stage} (hpast : s'.past = s.past) (hruns : s'.runs = s.runs)
    (hlegacy : s'.legacy.hash = s.legacy.hash ∨ s'.legacy.hash = none)
    (hne : ∀ fields, stage ≠ .copyHash fields) : Keeps s s' stage where
  past := hpast
  runs := hruns
  legacy fields hfields := by
    rcases hlegacy with hlegacy | hlegacy
    · rwa [← hlegacy]
    · rw [hlegacy] at hfields
      cases hfields
  read fields hfields := absurd hfields (hne fields)

theorem migrateSub_spec {z : Zset} {p : Path} {stage stage' : Stage}
    (h : migrateSub s z p stage = some (s', stage')) : Writes s s' stage ∧ Keeps s s' stage' := by
  cases stage with
  | read =>
    simp only [migrateSub] at h
    cases hhash : s.legacy.hash with
    | none =>
      simp only [hhash, Option.some.injEq, Prod.mk.injEq] at h
      obtain ⟨rfl, rfl⟩ := h
      exact ⟨.none rfl rfl trivial, .of_ne rfl rfl (.inl rfl) (by simp)⟩
    | some fields =>
      simp only [hhash, Option.some.injEq, Prod.mk.injEq] at h
      obtain ⟨rfl, rfl⟩ := h
      refine ⟨.none rfl rfl trivial, rfl, rfl, fun _ h => h, ?_⟩
      rintro _ ⟨⟩
      exact hhash
  | copyHash fields =>
    cases h
    exact ⟨.hash fields rfl rfl, .of_ne rfl rfl (.inl rfl) (by simp)⟩
  | readLinks =>
    cases h
    refine ⟨.none rfl rfl trivial, .of_ne rfl rfl (.inl rfl) ?_⟩
    intro fields
    split <;> simp
  | copyLinks links =>
    cases h
    exact ⟨.links links rfl rfl, .of_ne rfl rfl (.inl rfl) (by simp)⟩
  | list links =>
    cases h
    exact ⟨.none rfl rfl trivial, .of_ne rfl rfl (.inl rfl) (scoring_ne _ _)⟩
  | score links todo =>
    simp only [migrateSub] at h
    split at h
    · cases h
    cases hscore : s.legacy.score z with
    | none =>
      simp only [hscore, Option.some.injEq, Prod.mk.injEq] at h
      obtain ⟨rfl, rfl⟩ := h
      exact ⟨.none rfl rfl trivial, .of_ne rfl rfl (.inl rfl) (scoring_ne _ _)⟩
    | some x =>
      simp only [hscore, Option.some.injEq, Prod.mk.injEq] at h
      obtain ⟨rfl, rfl⟩ := h
      exact ⟨.none rfl rfl trivial, .of_ne rfl rfl (.inl rfl) (by simp)⟩
  | zadd links z x todo =>
    cases h
    exact ⟨.none (zadd_parent ..) (zadd_links ..) trivial,
      .of_ne rfl rfl (.inl rfl) (scoring_ne _ _)⟩
  | index links todo =>
    simp only [migrateSub] at h
    split at h
    · cases h
    cases h
    exact ⟨.none rfl rfl trivial, .of_ne rfl rfl (.inl rfl) (indexing_ne _ _)⟩
  | flip links =>
    cases h
    exact ⟨.none rfl rfl trivial, .of_ne rfl rfl (.inr rfl) (by simp)⟩
  | unlist links =>
    cases h
    exact ⟨.none rfl rfl trivial, .of_ne rfl rfl (.inl rfl) (by simp)⟩
  | zrem links z todo =>
    cases h
    refine ⟨.none rfl rfl trivial, .of_ne rfl rfl (.inl rfl) ?_⟩
    cases todo with
    | nil => exact unindexing_ne _
    | cons => simp
  | unindex todo =>
    simp only [migrateSub] at h
    split at h
    · cases h
    cases h
    exact ⟨.none rfl rfl trivial, .of_ne rfl rfl (.inl rfl) (unindexing_ne _)⟩
  | returned => cases h

theorem hset_wake {fields : Fields} {cur : Option (Config × Fence)} {t : Sub}
    (h : t.parent = some (fields.hset cur)) : wake t = some fields.wake := by
  rw [wake, h]
  rfl

theorem Inv.command {i : ℕ} {z : Zset} {p : Path} (hinv : Inv c s)
    (h : Step s (.command i z p) s') : Inv c s' := by
  simp only [Step, exec] at h
  split at h
  · cases h
  rename_i t stage' hcommand
  cases h
  obtain ⟨hwrites, hkeeps⟩ := migrateSub_spec hcommand
  generalize hstage : s.runs i = stage at hwrites
  refine ⟨fun fields hfields => hinv.legacy fields (hkeeps.legacy fields hfields), ?_, ?_, ?_⟩
  · intro j fields hj
    dsimp only at hj
    by_cases hji : j = i
    · subst hji
      rw [Function.update_self] at hj
      exact hinv.legacy fields (hkeeps.read fields hj)
    · rw [Function.update_of_ne hji, hkeeps.runs] at hj
      exact hinv.read j fields hj
  · intro q hq
    rw [hkeeps.past]
    cases hwrites with
    | hash fields hparent =>
      rw [hset_wake hparent] at hq
      cases hq
      exact ⟨fields, hinv.read i fields hstage, .inl rfl⟩
    | links _ hparent | none hparent =>
      rw [wake_congr hparent] at hq
      exact hinv.home q hq
  · intro hnone hdel
    rw [hkeeps.past] at hdel ⊢
    cases hwrites with
    | hash fields hparent =>
      rw [hset_wake hparent] at hnone
      cases hnone
    | links _ hparent | none hparent =>
      rw [wake_congr hparent] at hnone
      exact hinv.absent hnone hdel

theorem Inv.stop {i : ℕ} (hinv : Inv c s) (h : Step s (.stop i) s') : Inv c s' := by
  cases h
  refine ⟨hinv.legacy, ?_, hinv.home, hinv.absent⟩
  intro j fields hj
  dsimp only at hj
  by_cases hji : j = i
  · subst hji
    rw [Function.update_self] at hj
    cases hj
  · rw [Function.update_of_ne hji] at hj
    exact hinv.read j fields hj

theorem run_inv {s₀ : System} {history : List Action} (h₀ : Unmigrated s₀)
    (hrun : Trace.Run Step s₀ history s) : Inv s₀.legacy.hash s := by
  refine hrun.invariant h₀.inv ?_
  intro t a t' hinv hstep
  cases a with
  | script a =>
    by_cases ha : racing a = true
    · exact hinv.script ha hstep
    · simp [Step, exec, ha] at hstep
  | command => exact hinv.command hstep
  | stop => exact hinv.stop hstep

end Invariant

section Harm

variable {s s' : System}

theorem Harmless.of_eq (hparent : s'.home.parent = s.home.parent)
    (hlinks : s'.home.links = s.home.links) : Harmless s s' where
  generation p hp := ⟨p, by rw [wake_congr hparent, hp], le_rfl⟩
  cursors path k hk := ⟨k, by rw [hlinks, hk], offsetGreater_self _⟩
  wakes p _ _ hp := by rwa [wake_congr hparent] at hp
  hash _ hnone := by rw [hparent, hnone]
  links _ path hnone := by rw [hlinks, hnone]

theorem wake_eq_none {t : Sub} : wake t = none ↔ t.parent = none := Option.map_eq_none_iff

theorem harmless_hash_iff {fields : Fields} (hinv : Inv c s) (hc : c = some fields)
    (hparent : s'.home.parent = some (fields.hset s.home.parent))
    (hlinks : s'.home.links = s.home.links) : Harmless s s' ↔ UpToDate s (.copyHash fields) := by
  have hwake := hset_wake hparent
  unfold UpToDate
  constructor
  · intro h
    cases hw : wake s.home with
    | none =>
      by_contra hdel
      have hnone := h.hash (by simpa using hdel) (wake_eq_none.mp hw)
      rw [hparent] at hnone
      cases hnone
    | some p =>
      obtain ⟨fields', hc', hfollows⟩ := hinv.home p hw
      rw [hc] at hc'
      cases hc'
      rcases hfollows with heq | ⟨hmem, hlt | ⟨hgen, hcleared⟩⟩
      · exact heq
      · -- the generation would decrease
        obtain ⟨p', hp', hle⟩ := h.generation p hw
        rw [hwake] at hp'
        cases hp'
        omega
      · -- the wake that a script has cleared would be open again
        by_cases hopen : fields.wake.2 = []
        · exact Prod.ext hgen (by rw [hcleared, hopen])
        · have hsame := h.wakes _ hmem hopen hwake
          rw [hw] at hsame
          exact Option.some.inj hsame
  · intro hup
    cases hw : wake s.home with
    | none =>
      rw [hw] at hup
      refine ⟨by simp [hw], ?_, ?_, by simp [hup], by simp [hup]⟩
      · intro path k hk
        exact ⟨k, by rw [hlinks, hk], offsetGreater_self _⟩
      · rw [hinv.absent hw hup]
        simp
    | some p =>
      rw [hw] at hup
      subst hup
      have hsome : s.home.parent ≠ none := by
        rw [Ne, ← wake_eq_none, hw]
        simp
      refine ⟨?_, ?_, ?_, fun _ hnone => absurd hnone hsome, ?_⟩
      · intro p hp
        exact ⟨p, by rw [hwake, ← hw, hp], le_rfl⟩
      · intro path k hk
        exact ⟨k, by rw [hlinks, hk], offsetGreater_self _⟩
      · intro p _ _ hp
        rw [hw, ← hwake, hp]
      · intro _ path hnone
        rw [hlinks, hnone]

theorem harmless_links_iff {links : Links} (hparent : s'.home.parent = s.home.parent)
    (hlinks : s'.home.links = links ∪ s.home.links) :
    Harmless s s' ↔ UpToDate s (.copyLinks links) := by
  constructor
  · intro h path k hk
    have hcopied : s'.home.links.lookup path = some k := by
      rw [hlinks, Finmap.lookup_union_left (Finmap.mem_of_lookup_eq_some hk), hk]
    cases hcur : s.home.links.lookup path with
    | none =>
      by_contra hdel
      have hnone := h.links (by simpa using hdel) path hcur
      rw [hcopied] at hnone
      cases hnone
    | some cur =>
      obtain ⟨k', hk', hle⟩ := h.cursors path cur hcur
      rw [hcopied] at hk'
      cases hk'
      exact hle
  · intro hup
    have hwake := wake_congr hparent
    refine ⟨?_, ?_, ?_, ?_, ?_⟩
    · intro p hp
      exact ⟨p, by rw [hwake, hp], le_rfl⟩
    · intro path cur hcur
      cases hk : links.lookup path with
      | none =>
        have hmem : path ∉ links := Finmap.lookup_eq_none.mp hk
        exact ⟨cur, by rw [hlinks, Finmap.lookup_union_right hmem, hcur], offsetGreater_self _⟩
      | some k =>
        have hle := hup path k hk
        rw [hcur] at hle
        refine ⟨k, ?_, hle⟩
        rw [hlinks, Finmap.lookup_union_left (Finmap.mem_of_lookup_eq_some hk), hk]
    · intro p _ _ hp
      rwa [hwake] at hp
    · intro _ hnone
      rw [hparent, hnone]
    · intro hdel path hnone
      cases hk : links.lookup path with
      | none => rw [hlinks, Finmap.lookup_union_right (Finmap.lookup_eq_none.mp hk), hnone]
      | some k =>
        have hkept := hup path k hk
        rw [hnone] at hkept
        rw [hdel] at hkept
        cases hkept

/-- In every run, a command of a migration is harmless iff what it copies is up to date. -/
theorem command_harmless_iff {s₀ : System} {history : List Action} {i : ℕ} {z : Zset} {p : Path}
    (h₀ : Unmigrated s₀) (hrun : Trace.Run Step s₀ history s)
    (hstep : Step s (.command i z p) s') : Harmless s s' ↔ UpToDate s (s.runs i) := by
  have hinv := run_inv h₀ hrun
  simp only [Step, exec] at hstep
  split at hstep
  · cases hstep
  rename_i t stage' hcommand
  cases hstep
  obtain ⟨hwrites, -⟩ := migrateSub_spec hcommand
  generalize hstage : s.runs i = stage at hwrites ⊢
  cases hwrites with
  | hash fields hparent hlinks =>
    exact harmless_hash_iff hinv (hinv.read i fields hstage) hparent hlinks
  | links links hparent hlinks => exact harmless_links_iff hparent hlinks
  | none hparent hlinks hup => exact iff_of_true (.of_eq hparent hlinks) hup

def ran (s : System) (a : Action) : Option (Action × System) := (exec s a).map fun s' => (a, s')

theorem ran_step (s : System) (a e : Action) (s' : System) (h : ran s a = some (e, s')) :
    Step s e s' := by
  obtain ⟨t, ht, heq⟩ := Option.map_eq_some_iff.mp h
  cases heq
  exact ht

def legacyOnly : System where
  legacy.hash := some { config := ⟨[], .webhook, [], 1000, []⟩, fence := {} }
  legacy.listed := true

theorem legacyOnly_unmigrated : Unmigrated legacyOnly := ⟨rfl, fun _ => rfl, rfl⟩

def next (i : ℕ) : Action := .command i .lease []

def hashRead : List Action × System := Trace.executed ran legacyOnly [next 0] rfl

theorem command_harmless_first :
    ∃ s', Step hashRead.2 (next 0) s' ∧ wake s'.home = some (0, []) ∧ Harmless hashRead.2 s' := by
  have hrun : Trace.Run Step legacyOnly hashRead.1 hashRead.2 := Trace.executed_run ran_step rfl
  obtain ⟨s', hstep⟩ : ∃ s', Step hashRead.2 (next 0) s' := ⟨_, rfl⟩
  refine ⟨s', hstep, ?_, (command_harmless_iff legacyOnly_unmigrated hrun hstep).mpr rfl⟩
  cases hstep
  rfl

def wakeArmed : List Action × System :=
  Trace.executed ran legacyOnly [next 0, next 1, next 0,
    .script (.arm { nowNs := 1, leaseTtlMs := 1000, armLease := true, newWakeId := [119] })] rfl

/-- The second migration takes the generation back and drops the wake in flight. -/
theorem stale_copy_harms :
    Trace.Run Step legacyOnly wakeArmed.1 wakeArmed.2 ∧
      wake wakeArmed.2.home = some (1, [119]) ∧
      ∃ s', Step wakeArmed.2 (next 1) s' ∧ wake s'.home = some (0, []) ∧
        ¬ Harmless wakeArmed.2 s' := by
  refine ⟨Trace.executed_run ran_step rfl, rfl, _, rfl, rfl, ?_⟩
  intro h
  obtain ⟨p', hp', hle⟩ := h.generation (1, [119]) rfl
  cases hp'
  cases hle

end Harm

end Chronicle.Webhook.Migration
