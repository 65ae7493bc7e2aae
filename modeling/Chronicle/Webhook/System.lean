import Chronicle.Lib.Trace
import Chronicle.Webhook.Scripts

/-! # Runs of the subscription scripts

Any script may run at any time with any arguments. What a script can do to the
fence of a shard and to its lease is said once, and the invariants of whole runs
are derived from it.
-/

namespace Chronicle.Webhook

open Chronicle.Webhook.Sub

inductive Call where
  | create (a : CreateArgs)
  | arm (a : ArmArgs)
  | wakeSent (a : WakeSentArgs)
  | claim (a : ClaimArgs)
  | ack (a : AckArgs)
  | release (a : ReleaseArgs)
  | check (a : CheckArgs)
  | expire (a : ExpireArgs)
  | restore (a : RestoreArgs)
  | retry (a : RetryArgs)
  | success (a : SuccessArgs)
  | delete (expected : Option Expectation)
  | link (a : LinkArgs)
  | unlink (a : UnlinkArgs)

inductive Reply where
  | create (r : CreateReply)
  | arm (r : ArmReply)
  | record (r : RecordReply)
  | claim (r : ClaimReply)
  | ack (r : AckReply)
  | check (r : CheckReply)
  | expire (r : ExpireReply)
  | restore (r : RestoreReply)
  | retry (r : RetryReply)
  | delete (r : DeleteReply)
  | link (r : LinkReply)
  | unlink (r : UnlinkReply)

structure Event where
  call : Call
  reply : Reply

namespace Event

def newWake (e : Event) : Option Bytes :=
  match e.call with
  | .arm a => some a.newWakeId
  | .claim a => some a.newWakeId
  | _ => none

/-- The shard in which a call may start a claim. -/
def target (e : Event) : Option ℕ :=
  match e.call with
  | .arm a => some a.shard
  | .claim a => some a.shard
  | _ => none

/-- Generation and wake id of a claim that was granted. -/
def granted (e : Event) : Option (ℤ × Bytes) :=
  match e.reply with
  | .claim (.claimed generation wakeId _) => some (generation, wakeId)
  | _ => none

/-- Clock readings and lease durations of a call are positive and its wake id is not empty. -/
def regular (e : Event) : Bool :=
  match e.call with
  | .arm a => a.newWakeId ≠ [] && 0 < a.nowNs && 0 < a.leaseTtlMs
  | .claim a => a.newWakeId ≠ [] && 0 < a.nowNs && 0 < a.leaseTtlMs
  | .ack a => 0 < a.nowNs && 0 < a.leaseTtlMs
  | _ => true

end Event

namespace Sub

def exec (s : Sub) : Call → Sub × Reply
  | .create a => let (s, r) := s.createSub a; (s, .create r)
  | .arm a => let (s, r) := s.armWake a; (s, .arm r)
  | .wakeSent a => let (s, r) := s.recordWakeSent a; (s, .record r)
  | .claim a => let (s, r) := s.claim a; (s, .claim r)
  | .ack a => let (s, r) := s.ack a; (s, .ack r)
  | .release a => let (s, r) := s.release a; (s, .ack r)
  | .check a => (s, .check (s.checkWriteFence a))
  | .expire a => let (s, r) := s.expireLease a; (s, .expire r)
  | .restore a => let (s, r) := s.restoreLease a; (s, .restore r)
  | .retry a => let (s, r) := s.scheduleRetry a; (s, .retry r)
  | .success a => let (s, r) := s.recordSuccess a; (s, .record r)
  | .delete x => let (s, r) := s.deleteSub x; (s, .delete r)
  | .link a => let (s, r) := s.linkStream a; (s, .link r)
  | .unlink a => let (s, r) := s.unlinkStream a; (s, .unlink r)

def Step (s : Sub) (e : Event) (s' : Sub) : Prop := s.exec e.call = (s', e.reply)

def ranCall (s : Sub) (c : Call) : Option (Event × Sub) :=
  let (s', r) := s.exec c
  some (⟨c, r⟩, s')

theorem ranCall_step (s : Sub) (c : Call) (e : Event) (s' : Sub)
    (h : s.ranCall c = some (e, s')) : Step s e s' := by
  cases h
  rfl

/-- The incarnation of the subscription comes from the counter. -/
def Stamped (s : Sub) : Prop :=
  ∀ cfg f, s.parent = some (cfg, f) →
    ∃ n, 0 < n ∧ n ≤ s.incarnations ∧ f.incarnation = Decimal.formatNat n

def incarnation (s : Sub) : Option Bytes := s.parent.map fun (_, f) => f.incarnation

/-- Two fences that agree on the claim and differ in the bookkeeping at most. -/
structure SameClaim (f f' : Fence) : Prop where
  incarnation : f'.incarnation = f.incarnation
  phase : f'.phase = f.phase
  generation : f'.generation = f.generation
  wakeId : f'.wakeId = f.wakeId
  holder : f'.holder = f.holder
  holderWorker : f'.holderWorker = f.holderWorker
  leaseUntilNs : f'.leaseUntilNs = f.leaseUntilNs

/-- What a script can do to the fence of a shard and to its lease. -/
inductive Shift (s : Sub) (e : Event) (s' : Sub) (g : ℕ) : Prop
  | same (hf : s'.fence g = s.fence g) (hl : s'.lease g = s.lease g)
  | booked {f f'} (hf : s.fence g = some f) (hf' : s'.fence g = some f') (h : SameClaim f f')
      (hl : s'.lease g = s.lease g)
  | restored {f} (hf : s.fence g = some f) (hf' : s'.fence g = some f)
      (hpos : 0 < f.leaseUntilNs) (hl : s'.lease g = some f.leaseUntilNs)
  | armed {f f' w} (hf : s.fence g = some f) (hf' : s'.fence g = some f') (hidle : f.phase = .idle)
      (hw : e.newWake = some w) (hg : e.target = some g) (hgr : e.granted = none)
      (hinc : f'.incarnation = f.incarnation) (hgen : f'.generation = f.generation + 1)
      (hwake : f'.wakeId = w) (hphase : f'.phase = .waking) (hholder : f'.holder = false)
      (hl : f'.leaseUntilNs = f.leaseUntilNs ∧ s'.lease g = s.lease g ∨
        (e.regular = true → 0 < f'.leaseUntilNs) ∧ s'.lease g = some f'.leaseUntilNs)
  | claimed {f w worker inc t} (hf : s.fence g = some f ∨ f = {})
      (hw : e.newWake = some w) (hg : e.target = some g)
      (hgr : e.granted = some ((f.claimed worker w inc t).generation,
        (f.claimed worker w inc t).wakeId))
      (hf' : s'.fence g = some (f.claimed worker w inc t))
      (hinc : g = 0 → s.fence g = some f ∧ inc = f.incarnation)
      (ht : e.regular = true → 0 < t) (hl : s'.lease g = some t)
  | renewed {f t} (hf : s.fence g = some f) (hwake : f.wakeId ≠ [])
      (hf' : s'.fence g = some { f with leaseUntilNs := t, phase := .live })
      (ht : e.regular = true → 0 < t) (hl : s'.lease g = some t)
  | ended {f f'} (hf : s.fence g = some f) (hf' : s'.fence g = some f')
      (h : SameClaim f.idled f') (hl : s'.lease g = none)
  | created {inc} (hg : g = 0) (hf : s.fence g = none)
      (hf' : s'.fence g = some { incarnation := inc }) (hl : s'.lease g = s.lease g)
      (hinc : inc = Decimal.formatNat (s.incarnations + 1))
      (hn : s'.incarnations = s.incarnations + 1)
  | deleted (hf' : s'.fence g = none) (hl : s'.lease g = none)

variable {s s' : Sub} {e : Event}

theorem shift_write {g₀ : ℕ} {f f' : Fence} (hf : s.fence g₀ = some f)
    (hfence : ∀ g, s'.fence g = (s.setFence g₀ f').fence g)
    (hl : ∀ g, g ≠ g₀ → s'.lease g = s.lease g)
    (hshift : s'.fence g₀ = some f' → Shift s e s' g₀) (g : ℕ) : Shift s e s' g := by
  by_cases hg : g = g₀
  · subst hg
    exact hshift (by rw [hfence, fence_setFence s f' (parent_isSome hf), if_pos rfl])
  · refine .same ?_ (hl g hg)
    rw [hfence, fence_setFence s f' (parent_isSome hf), if_neg hg]

theorem createSub_shift (a : CreateArgs) (g : ℕ) :
    Shift s ⟨.create a, .create (s.createSub a).2⟩ (s.createSub a).1 g := by
  unfold createSub
  split
  · exact .same rfl rfl
  rename_i hp
  by_cases hg : g = 0
  · subst hg
    exact .created rfl (by simp [fence, hp]) (by simp [fence]) rfl rfl rfl
  · exact .same (by simp [fence, hg]) rfl

theorem armWake_shift (a : ArmArgs) (g : ℕ) :
    Shift s ⟨.arm a, .arm (s.armWake a).2⟩ (s.armWake a).1 g := by
  unfold armWake
  split
  · exact .same rfl rfl
  split
  · exact .same rfl rfl
  rename_i f hf
  split
  · exact .same rfl rfl
  rename_i hidle
  rw [not_not] at hidle
  split
  · refine shift_write hf (by exact fun _ => rfl)
      (by exact fun _ => Schedule.zadd_of_ne _ _) ?_ g
    intro hf'
    refine .armed hf hf' hidle rfl rfl rfl rfl rfl rfl rfl rfl (.inr ⟨?_, Schedule.zadd_self ..⟩)
    intro hreg
    simp only [Event.regular, Bool.and_eq_true, decide_eq_true_eq] at hreg
    simp only [leaseUntil]
    omega
  · refine shift_write hf (by exact fun _ => rfl) (by simp) ?_ g
    intro hf'
    exact .armed hf hf' hidle rfl rfl rfl rfl rfl rfl rfl rfl (.inl ⟨rfl, by simp⟩)

theorem recordWakeSent_shift (a : WakeSentArgs) (g : ℕ) :
    Shift s ⟨.wakeSent a, .record (s.recordWakeSent a).2⟩ (s.recordWakeSent a).1 g := by
  unfold recordWakeSent
  split
  · exact .same rfl rfl
  rename_i f hf
  split
  · exact .same rfl rfl
  refine shift_write hf (by exact fun _ => rfl) (by simp) ?_ g
  intro hf'
  exact .booked hf hf' ⟨rfl, rfl, rfl, rfl, rfl, rfl, rfl⟩ (by simp)

theorem ack_shift (a : AckArgs) (g : ℕ) :
    Shift s ⟨.ack a, .ack (s.ack a).2⟩ (s.ack a).1 g := by
  unfold ack
  split
  · exact .same rfl rfl
  split
  · exact .same rfl rfl
  · exact .same rfl rfl
  rename_i f cfg pf hf hp
  split
  · exact .same rfl rfl
  split
  · exact .same rfl rfl
  rename_i hnot
  split
  · exact .same rfl rfl
  have hwake : f.wakeId ≠ [] := by
    simp only [Webhook.fenced, Bool.or_eq_true, decide_eq_true_eq, not_or, not_not] at hnot
    exact hnot.2 ▸ hnot.1.2
  split
  · refine shift_write hf (by exact fun _ => rfl)
      (by exact fun _ => Schedule.zrem_of_ne _) ?_ g
    intro hf'
    exact .ended hf hf' ⟨rfl, rfl, rfl, rfl, rfl, rfl, rfl⟩ (Schedule.zrem_self ..)
  · refine shift_write hf (by exact fun _ => rfl)
      (by exact fun _ => Schedule.zadd_of_ne _ _) ?_ g
    intro hf'
    refine .renewed hf hwake hf' ?_ (Schedule.zadd_self ..)
    intro hreg
    simp only [Event.regular, Bool.and_eq_true, decide_eq_true_eq] at hreg
    simp only [leaseUntil]
    omega

theorem release_shift (a : ReleaseArgs) (g : ℕ) :
    Shift s ⟨.release a, .ack (s.release a).2⟩ (s.release a).1 g := by
  unfold release
  split
  · exact .same rfl rfl
  split
  · exact .same rfl rfl
  rename_i f hf
  split
  · exact .same rfl rfl
  refine shift_write hf (by exact fun _ => rfl)
    (by exact fun _ => Schedule.zrem_of_ne _) ?_ g
  intro hf'
  exact .ended hf hf' ⟨rfl, rfl, rfl, rfl, rfl, rfl, rfl⟩ (Schedule.zrem_self ..)

theorem expireLease_shift (a : ExpireArgs) (g : ℕ) :
    Shift s ⟨.expire a, .expire (s.expireLease a).2⟩ (s.expireLease a).1 g := by
  unfold expireLease
  split
  · exact .same rfl rfl
  split
  · exact .same rfl rfl
  rename_i f hf
  split
  · refine shift_write hf (by exact fun _ => rfl)
      (by exact fun _ => Schedule.zrem_of_ne _) ?_ g
    intro hf'
    exact .ended hf hf' ⟨rfl, rfl, rfl, rfl, rfl, rfl, rfl⟩ (Schedule.zrem_self ..)
  · exact .same rfl rfl

theorem restoreLease_shift (a : RestoreArgs) (g : ℕ) :
    Shift s ⟨.restore a, .restore (s.restoreLease a).2⟩ (s.restoreLease a).1 g := by
  unfold restoreLease
  split
  · exact .same rfl rfl
  rename_i f hf
  split
  · rename_i hpos
    by_cases hg : g = a.shard
    · subst hg
      exact .restored hf hf hpos.2 (Schedule.zadd_self ..)
    · exact .same rfl (Schedule.zadd_of_ne _ _ hg)
  · exact .same rfl rfl

theorem scheduleRetry_shift (a : RetryArgs) (g : ℕ) :
    Shift s ⟨.retry a, .retry (s.scheduleRetry a).2⟩ (s.scheduleRetry a).1 g := by
  unfold scheduleRetry
  split
  · exact .same rfl rfl
  split
  · exact .same rfl rfl
  rename_i f hf
  split
  · exact .same rfl rfl
  refine shift_write hf (by exact fun _ => rfl) (by simp) ?_ g
  intro hf'
  exact .booked hf hf' ⟨rfl, rfl, rfl, rfl, rfl, rfl, rfl⟩ (by simp)

theorem recordSuccess_shift (a : SuccessArgs) (g : ℕ) :
    Shift s ⟨.success a, .record (s.recordSuccess a).2⟩ (s.recordSuccess a).1 g := by
  unfold recordSuccess
  split
  · exact .same rfl rfl
  split
  · exact .same rfl rfl
  rename_i f hf
  split
  · exact .same rfl rfl
  refine shift_write hf (by exact fun _ => rfl) (by simp) ?_ g
  intro hf'
  exact .booked hf hf' ⟨rfl, rfl, rfl, rfl, rfl, rfl, rfl⟩ (by simp)

theorem deleteSub_shift (x : Option Expectation) (g : ℕ) :
    Shift s ⟨.delete x, .delete (s.deleteSub x).2⟩ (s.deleteSub x).1 g := by
  unfold deleteSub
  split
  · exact .same rfl rfl
  · exact .same rfl rfl
  by_cases hg : g = 0 ∨ g ∈ s.registry
  · refine .deleted ?_ (if_pos hg)
    rcases hg with rfl | hg
    · rfl
    · simp [fence, hg]
  · rw [not_or] at hg
    refine .same ?_ (if_neg (not_or.mpr hg))
    simp [fence, hg.1, hg.2]

theorem linkStream_keys (s : Sub) (a : LinkArgs) :
    ∃ l, (s.linkStream a).1 = { s with links := l } := by
  unfold linkStream
  repeat' split
  all_goals exact ⟨_, rfl⟩

theorem unlinkStream_keys (s : Sub) (a : UnlinkArgs) :
    ∃ l, (s.unlinkStream a).1 = { s with links := l } := by
  unfold unlinkStream
  repeat' split
  all_goals exact ⟨_, rfl⟩

section Claim

theorem dropStaleShard_fence (s : Sub) (g : ℕ) (inc : Bytes) (g' : ℕ) :
    (s.dropStaleShard g inc).fence g' = s.fence g' ∨
      g' = g ∧ g ≠ 0 ∧ (s.dropStaleShard g inc).fence g' = none := by
  unfold dropStaleShard
  split
  · rename_i h
    by_cases hg : g' = g
    · exact .inr ⟨hg, h.1, by simp [fence, hg, h.1]⟩
    · exact .inl (by simp [fence, hg])
  · exact .inl rfl

theorem dropStaleShard_lease (s : Sub) (g : ℕ) (inc : Bytes) :
    (s.dropStaleShard g inc).lease = s.lease := by
  unfold dropStaleShard
  split <;> rfl

theorem dropStaleShard_parent (s : Sub) (g : ℕ) (inc : Bytes) :
    (s.dropStaleShard g inc).parent = s.parent := by
  unfold dropStaleShard
  split <;> rfl

theorem dropStaleShard_found (s : Sub) (g : ℕ) (inc : Bytes) :
    s.fence g = some (((s.dropStaleShard g inc).fence g).getD {}) ∨
      ((s.dropStaleShard g inc).fence g).getD {} = {} := by
  rcases s.dropStaleShard_fence g inc g with h | ⟨-, -, h⟩
  · rw [h]
    cases s.fence g with
    | none => exact .inr rfl
    | some f => exact .inl rfl
  · rw [h]
    exact .inr rfl

theorem Stamped.stampIncarnation (hs : Stamped s) {cfg : Config} {pf : Fence}
    (hp : s.parent = some (cfg, pf)) (t : Sub) : t.stampIncarnation pf = (t, pf.incarnation) := by
  rcases hs cfg pf hp with ⟨n, -, -, hn⟩
  exact if_neg (hn ▸ Decimal.formatNat_ne_nil n)

/-- The outcomes of a claim: nothing changes, or the shard gets the fence of a new holder. -/
theorem claim_cases {a : ClaimArgs} {r : ClaimReply} (hs : Stamped s) (h : s.claim a = (s', r)) :
    ((∀ g, s'.fence g = s.fence g ∧ s'.lease g = s.lease g) ∧
      ∀ generation wakeId worker, r ≠ .claimed generation wakeId worker) ∨
    ∃ f inc, (s.fence a.shard = some f ∨ f = {}) ∧ s.incarnation = some inc ∧
      (a.shard = 0 → s.fence a.shard = some f ∧ inc = f.incarnation) ∧
      let t := leaseUntil a.nowNs a.leaseTtlMs
      let f' := f.claimed a.worker a.newWakeId inc t
      r = .claimed f'.generation f'.wakeId a.worker ∧
      s'.fence a.shard = some f' ∧ s'.lease a.shard = some t ∧
      ∀ g, g ≠ a.shard → s'.fence g = s.fence g ∧ s'.lease g = s.lease g := by
  unfold claim at h
  split at h
  · cases h; exact .inl ⟨fun _ => ⟨rfl, rfl⟩, by simp⟩
  rename_i cfg pf hp
  split at h
  · cases h; exact .inl ⟨fun _ => ⟨rfl, rfl⟩, by simp⟩
  dsimp only at h
  have hfound := s.dropStaleShard_found a.shard a.expected.incarnation
  have hdrop := s.dropStaleShard_fence a.shard a.expected.incarnation
  have hlease := s.dropStaleShard_lease a.shard a.expected.incarnation
  have hparent := s.dropStaleShard_parent a.shard a.expected.incarnation
  generalize s.dropStaleShard a.shard a.expected.incarnation = s₁ at h hfound hdrop hlease hparent
  split at h
  · -- a worker holds the claim, so the fence of the shard was not dropped
    rename_i hbusy
    cases h
    refine .inl ⟨fun g => ⟨?_, by rw [hlease]⟩, by simp⟩
    rcases hdrop g with heq | ⟨rfl, -, hnone⟩
    · exact heq
    · rw [hnone] at hbusy
      cases hbusy.1
  · rw [hs.stampIncarnation hp] at h
    cases h
    have hsome : a.shard = 0 → s₁.parent.isSome = true := by
      intro
      rw [hparent, hp]
      rfl
    refine .inr ⟨_, pf.incarnation, hfound, by rw [incarnation, hp]; rfl, ?_, rfl, ?_,
      Schedule.zadd_self .., ?_⟩
    · intro hzero
      have h₁ : s₁.fence a.shard = some pf := by
        rw [fence, if_pos hzero, hparent, hp]
        rfl
      have h₀ : s.fence a.shard = some pf := by
        rw [fence, if_pos hzero, hp]
        rfl
      rw [h₁, h₀]
      exact ⟨rfl, rfl⟩
    · exact (fence_setFence s₁ _ hsome _).trans (if_pos rfl)
    · intro g hg
      refine ⟨((fence_setFence s₁ _ hsome g).trans (if_neg hg)).trans ?_, ?_⟩
      · rcases hdrop g with heq | ⟨heq, -⟩
        · exact heq
        · exact absurd heq hg
      · rw [← hlease]
        exact Schedule.zadd_of_ne _ _ hg

theorem claim_shift {a : ClaimArgs} {r : ClaimReply} (hs : Stamped s) (h : s.claim a = (s', r))
    (g : ℕ) : Shift s ⟨.claim a, .claim r⟩ s' g := by
  rcases claim_cases hs h with ⟨hsame, -⟩ | ⟨f, inc, hf, -, hinc, rfl, hf', hl, hne⟩
  · exact .same (hsame g).1 (hsame g).2
  by_cases hg : g = a.shard
  · subst hg
    refine .claimed hf rfl rfl rfl hf' hinc ?_ hl
    intro hreg
    simp only [Event.regular, Bool.and_eq_true, decide_eq_true_eq] at hreg
    simp only [leaseUntil]
    omega
  · exact .same (hne g hg).1 (hne g hg).2

end Claim

/-- Every script moves the fence of every shard in one of the ways of a shift. -/
theorem step_shift (hs : Stamped s) (h : Step s e s') (g : ℕ) : Shift s e s' g := by
  rcases e with ⟨call, reply⟩
  cases call with
  | create a => cases h; exact createSub_shift a g
  | arm a => cases h; exact armWake_shift a g
  | wakeSent a => cases h; exact recordWakeSent_shift a g
  | claim a => cases h; exact claim_shift hs rfl g
  | ack a => cases h; exact ack_shift a g
  | release a => cases h; exact release_shift a g
  | check a => cases h; exact .same rfl rfl
  | expire a => cases h; exact expireLease_shift a g
  | restore a => cases h; exact restoreLease_shift a g
  | retry a => cases h; exact scheduleRetry_shift a g
  | success a => cases h; exact recordSuccess_shift a g
  | delete x => cases h; exact deleteSub_shift x g
  | link a =>
    rcases s.linkStream_keys a with ⟨l, hl⟩
    rw [← show (s.linkStream a).1 = s' from congrArg Prod.fst h, hl]
    exact .same rfl rfl
  | unlink a =>
    rcases s.unlinkStream_keys a with ⟨l, hl⟩
    rw [← show (s.unlinkStream a).1 = s' from congrArg Prod.fst h, hl]
    exact .same rfl rfl

theorem dropStaleShard_incarnations (s : Sub) (g : ℕ) (inc : Bytes) :
    (s.dropStaleShard g inc).incarnations = s.incarnations := by
  unfold dropStaleShard
  split <;> rfl

theorem stampIncarnation_le (s : Sub) (f : Fence) :
    s.incarnations ≤ (s.stampIncarnation f).1.incarnations := by
  unfold stampIncarnation
  split
  · exact Nat.le_succ _
  · exact le_rfl

/-- The counter of incarnations never decreases. -/
theorem step_incarnations (h : Step s e s') : s.incarnations ≤ s'.incarnations := by
  rw [← show (s.exec e.call).1 = s' from congrArg Prod.fst h]
  cases e.call with
  | create a =>
    change s.incarnations ≤ (s.createSub a).1.incarnations
    unfold createSub
    split
    · exact le_rfl
    · exact Nat.le_succ _
  | claim a =>
    change s.incarnations ≤ (s.claim a).1.incarnations
    unfold claim
    split
    · exact le_rfl
    split
    · exact le_rfl
    dsimp only
    split
    · exact (s.dropStaleShard_incarnations ..).ge
    · refine le_trans ?_ (setFence_incarnations ..).ge
      refine le_trans ?_ (stampIncarnation_le ..)
      exact (s.dropStaleShard_incarnations ..).ge
  | link a =>
    change s.incarnations ≤ (s.linkStream a).1.incarnations
    rcases s.linkStream_keys a with ⟨l, hl⟩
    rw [hl]
  | unlink a =>
    change s.incarnations ≤ (s.unlinkStream a).1.incarnations
    rcases s.unlinkStream_keys a with ⟨l, hl⟩
    rw [hl]
  | arm | wakeSent | ack | release | check | expire | restore | retry | success | delete =>
    simp only [exec, armWake, recordWakeSent, ack, release, expireLease, restoreLease,
      scheduleRetry, recordSuccess, deleteSub]
    repeat' split
    all_goals simp

theorem fence_zero {cfg : Config} {f : Fence} (h : s.parent = some (cfg, f)) :
    s.fence 0 = some f := by
  rw [fence, if_pos rfl, h]
  rfl

theorem fence_zero_incarnation {i : Bytes} (h : s.incarnation = some i) :
    ∃ f, s.fence 0 = some f ∧ f.incarnation = i := by
  rcases Option.map_eq_some_iff.mp h with ⟨⟨cfg, f⟩, hp, rfl⟩
  exact ⟨f, fence_zero hp, rfl⟩

/-- A parent fence after a script goes on from the one before it, or it is that of a new
incarnation. -/
theorem Shift.lineage {f' : Fence} (h : Shift s e s' 0) (hf' : s'.fence 0 = some f') :
    (∃ f, s.fence 0 = some f ∧ f'.incarnation = f.incarnation ∧ f.generation ≤ f'.generation) ∨
      s.fence 0 = none ∧ f'.incarnation = Decimal.formatNat (s.incarnations + 1) ∧
        s'.incarnations = s.incarnations + 1 := by
  have hinj : ∀ {f}, s'.fence 0 = some f → f' = f := fun h => Option.some.inj (hf'.symm.trans h)
  cases h with
  | same hf => exact .inl ⟨f', hf.symm.trans hf', rfl, le_rfl⟩
  | booked hf hf₁ hsame =>
    cases hinj hf₁
    exact .inl ⟨_, hf, hsame.incarnation, hsame.generation.ge⟩
  | restored hf hf₁ =>
    cases hinj hf₁
    exact .inl ⟨_, hf, rfl, le_rfl⟩
  | armed hf hf₁ _ _ _ _ hinc hgen =>
    cases hinj hf₁
    exact .inl ⟨_, hf, hinc, by omega⟩
  | claimed _ _ _ _ hf₁ hinc =>
    cases hinj hf₁
    rcases hinc rfl with ⟨hf, hinc⟩
    refine .inl ⟨_, hf, hinc, ?_⟩
    unfold Fence.claimed
    dsimp only
    split <;> omega
  | renewed hf _ hf₁ =>
    cases hinj hf₁
    exact .inl ⟨_, hf, rfl, le_rfl⟩
  | ended hf hf₁ hsame =>
    cases hinj hf₁
    exact .inl ⟨_, hf, hsame.incarnation, hsame.generation.ge⟩
  | created _ hf hf₁ _ hinc hn =>
    cases hinj hf₁
    exact .inr ⟨hf, hinc, hn⟩
  | deleted hf₁ =>
    rw [hf'] at hf₁
    cases hf₁

/-- A subscription that is there before and after a script has kept its incarnation. -/
theorem step_incarnation (hs : Stamped s) (h : Step s e s') {i i' : Bytes}
    (hi : s.incarnation = some i) (hi' : s'.incarnation = some i') : i' = i := by
  rcases fence_zero_incarnation hi with ⟨f, hf, rfl⟩
  rcases fence_zero_incarnation hi' with ⟨f', hf', rfl⟩
  rcases (step_shift hs h 0).lineage hf' with ⟨f₁, hf₁, hinc, -⟩ | ⟨hnone, -⟩
  · rw [hf, Option.some.injEq] at hf₁
    rw [hf₁, hinc]
  · rw [hf] at hnone
    cases hnone

theorem step_stamped (hs : Stamped s) (h : Step s e s') : Stamped s' := by
  intro cfg' f' hp'
  rcases (step_shift hs h 0).lineage (fence_zero hp') with ⟨f, hf, hinc, -⟩ | ⟨-, hinc, hn⟩
  · rw [fence, if_pos rfl, Option.map_eq_some_iff] at hf
    rcases hf with ⟨⟨cfg, f₀⟩, hp, rfl⟩
    rcases hs cfg f₀ hp with ⟨n, hpos, hle, heq⟩
    exact ⟨n, hpos, hle.trans (step_incarnations h), hinc.trans heq⟩
  · exact ⟨s.incarnations + 1, Nat.succ_pos _, hn.ge, hinc⟩

theorem stamped_empty : Stamped {} := by
  intro cfg f h
  cases h

end Sub

end Chronicle.Webhook
