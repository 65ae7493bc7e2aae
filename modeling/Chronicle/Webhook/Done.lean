import Chronicle.Webhook.Claims
import Chronicle.Webhook.Fencing

/-! # Done means done

Once a claim was ended, the streams on which it was sealed refuse it for good.
They are the streams that were linked when the links were read, so a stream that
is linked and granted after that is missed.
-/

namespace Chronicle.Webhook.Fencing

open Chronicle.Webhook.Sub
open Redis (StreamKeys claimArgs Peer MarkerKept SealKept Settled Shut Moves)

variable {f : Fence}

section Subscription

/-- What a subscription shows: at the generation of a claim it is the claim, or that it has
ended. -/
structure Shows (F : AppendFence) (cfg : Config) (f : Fence) : Prop where
  incarnation : f.incarnation = F.subscriptionIncarnation
  claim : f.generation = F.generation → f.phase = .idle ∧ f.wakeId = [] ∨
    f.wakeId = F.wakeID ∧ f.inFlight cfg.type = true ∧ f.claimHolder cfg.type = F.holder

/-- A subscription from a claim on. -/
structure Underway (F : AppendFence) (cfg : Config) (s : Sub) : Prop where
  stamped : Stamped s
  current : ∃ f, s.parent = some (cfg, f) ∧ F.generation ≤ f.generation ∧ Shows F cfg f

variable {F : AppendFence} {cfg : Config} {s s' : Sub} {e : Event}

theorem setFence_config {f₀ : Fence} (h : s.parent = some (cfg, f₀)) (g : ℕ) (f : Fence) :
    ∃ f', (s.setFence g f).parent = some (cfg, f') := by
  unfold setFence
  split
  · exact ⟨f, by simp [h]⟩
  · exact ⟨f₀, h⟩

theorem stampIncarnation_config {f₀ : Fence} (h : s.parent = some (cfg, f₀)) :
    ∃ f', (s.stampIncarnation f).1.parent = some (cfg, f') := by
  unfold stampIncarnation
  split
  · exact setFence_config h 0 _
  · exact ⟨f₀, h⟩

theorem claim_config (h : s.parent = some (cfg, f)) (a : ClaimArgs) :
    ∃ f', (s.claim a).1.parent = some (cfg, f') := by
  unfold claim
  split
  · exact ⟨f, h⟩
  split
  · exact ⟨f, h⟩
  have hdrop := (s.dropStaleShard_parent a.shard a.expected.incarnation).trans h
  dsimp only
  split
  · exact ⟨f, hdrop⟩
  · rcases stampIncarnation_config hdrop with ⟨f₁, h₁⟩
    exact setFence_config h₁ _ _

theorem step_config (hstep : Step s e s') (h : s.parent = some (cfg, f))
    (hcall : ∀ x, e.call ≠ .delete x) : ∃ f', s'.parent = some (cfg, f') := by
  rw [← show (s.exec e.call).1 = s' from congrArg Prod.fst hstep]
  cases hc : e.call with
  | create a =>
    refine ⟨f, ?_⟩
    simp only [Sub.exec, createSub, h]
  | claim a => exact claim_config h a
  | link a =>
    rcases s.linkStream_keys a with ⟨l, hl⟩
    exact ⟨f, (congrArg Sub.parent hl).trans h⟩
  | unlink a =>
    rcases s.unlinkStream_keys a with ⟨l, hl⟩
    exact ⟨f, (congrArg Sub.parent hl).trans h⟩
  | delete x => exact absurd hc (hcall x)
  | arm | wakeSent | ack | release | check | expire | restore | retry | success =>
    simp only [Sub.exec, armWake, recordWakeSent, Sub.ack, Sub.release, expireLease, restoreLease,
      scheduleRetry, recordSuccess]
    repeat' split
    all_goals first | exact ⟨f, h⟩ | exact setFence_config h _ _

theorem Shows.sameClaim {f' : Fence} (h : Shows F cfg f) (hs : SameClaim f f') :
    Shows F cfg f' := by
  refine ⟨hs.incarnation.trans h.incarnation, fun hgen => ?_⟩
  have := h.claim (hs.generation ▸ hgen)
  simpa only [Fence.inFlight, Fence.claimHolder, hs.phase, hs.wakeId, hs.holder, hs.holderWorker]
    using this

theorem call_of_granted {p : ℤ × Bytes} (hstep : Step s e s') (h : e.granted = some p) :
    ∃ a, e.call = .claim a := by
  rcases e with ⟨call, reply⟩
  have hr : (s.exec call).2 = reply := congrArg Prod.snd hstep
  subst hr
  cases call with
  | claim a => exact ⟨a, rfl⟩
  | _ => cases h

theorem Underway.step (hi : Underway F cfg s) (hstep : Step s e s')
    (hdelete : ∀ x, e.call ≠ .delete x) (hclaim : ∀ a, e.call = .claim a → cfg.type = .pullWake) :
    Underway F cfg s' := by
  refine ⟨step_stamped hi.stamped hstep, ?_⟩
  rcases hi.current with ⟨f, hf, hge, hcur⟩
  rcases step_config hstep hf hdelete with ⟨f', hf'⟩
  refine ⟨f', hf', ?_⟩
  have hz := fence_zero hf
  have hz' := fence_zero hf'
  have hinj : ∀ {g}, s.fence 0 = some g → g = f := fun h => Option.some.inj (h.symm.trans hz)
  have hinj' : ∀ {g}, s'.fence 0 = some g → g = f' := fun h => Option.some.inj (h.symm.trans hz')
  cases step_shift hi.stamped hstep 0 with
  | same h => cases hinj (h ▸ hz'); exact ⟨hge, hcur⟩
  | booked h h' hsame =>
    cases hinj h
    cases hinj' h'
    exact ⟨hsame.generation ▸ hge, hcur.sameClaim hsame⟩
  | restored h h' => cases hinj h; cases hinj' h'; exact ⟨hge, hcur⟩
  | armed h h' _ _ _ _ hinc hgen =>
    cases hinj h
    cases hinj' h'
    exact ⟨by omega, hinc.trans hcur.incarnation, by omega⟩
  | @claimed f₁ w worker inc t _ _ _ hgr h' hinc =>
    rcases hinc rfl with ⟨h, rfl⟩
    cases hinj h
    cases hinj' h'
    by_cases hreuse : f.reusable = true
    · refine ⟨by simpa [Fence.claimed, hreuse] using hge, hcur.incarnation, fun hgen => ?_⟩
      -- the claim is live, and only a wake that waits for a worker is taken over
      rw [Fence.claimed, if_pos hreuse] at hgen
      rcases call_of_granted hstep hgr with ⟨a, ha⟩
      have htype := hclaim a ha
      simp only [Fence.reusable, Bool.and_eq_true, decide_eq_true_eq] at hreuse
      rcases hcur.claim hgen with ⟨hidle, -⟩ | ⟨-, hflight, -⟩
      · rw [hidle] at hreuse
        cases hreuse.1
      · simp [Fence.inFlight, htype, hreuse.1] at hflight
    · have hgen : (f.claimed worker w f.incarnation t).generation = f.generation + 1 := by
        simp [Fence.claimed, hreuse]
      exact ⟨by omega, hcur.incarnation, by omega⟩
  | renewed h hwake h' =>
    cases hinj h
    cases hinj' h'
    refine ⟨hge, hcur.incarnation, fun hgen => .inr ?_⟩
    rcases hcur.claim hgen with ⟨-, hidle⟩ | ⟨hw, hflight, hholder⟩
    · exact absurd hidle hwake
    · refine ⟨hw, ?_, hholder⟩
      unfold Fence.inFlight at hflight ⊢
      split at hflight <;> simp_all
  | ended h h' hsame =>
    cases hinj h
    cases hinj' h'
    exact ⟨hsame.generation ▸ hge, hsame.incarnation.trans hcur.incarnation,
      fun _ => .inl ⟨hsame.phase, hsame.wakeId⟩⟩
  | created _ h => rw [hz] at h; cases h
  | deleted h => rw [hz'] at h; cases h

end Subscription

abbrev Conf := Threads.State World Instr

variable {id : Bytes} {F : AppendFence} {cfg : Config}

/-- An instruction acts for the claim or for another generation of its subscription. -/
def Sound (F : AppendFence) (cfg : Config) : Instr → Prop
  | .getLinks _ cfg' f => cfg' = cfg ∧ Shows F cfg f
  | .sealing f _ | .grant f _ _ | .revoke f _ => Peer F f
  | .script (.delete _) => False
  | _ => True

/-- The paths that an ending has sealed are settled, or their seals stand before it, unless it
ends an earlier claim. -/
def Announced (F : AppendFence) (w : World) (p : List Instr) : Prop :=
  ∀ pre d q ttl sealed post, p = pre ++ .finish d q ttl sealed :: post →
    F.generation ≤ q.generation → ∀ path ∈ sealed,
      (∃ f, F.generation ≤ f.generation ∧ .sealing f path ∈ pre) ∨ Settled path F (w.streams path)

structure Inv (F : AppendFence) (cfg : Config) (st : Conf) : Prop where
  sub : Underway F cfg st.world.sub
  markers : ∀ path, MarkerKept path F (st.world.streams path)
  seals : ∀ path, SealKept F (st.world.streams path)
  sound : ∀ i, st.Pending i → Sound F cfg i
  announced : ∀ p ∈ st.threads, Announced F st.world p

/-- What one instruction does from a claim on. -/
structure Advance (F : AppendFence) (cfg : Config) (w : World) (i : Instr) (w' : World)
    (k : List Instr) : Prop where
  sub : Underway F cfg w'.sub
  moves : ∀ path, Moves path F (w.streams path) (w'.streams path)
  settles : ∀ f path, i = .sealing f path → F.generation ≤ f.generation →
    Settled path F (w'.streams path)
  sound : ∀ j ∈ k, Sound F cfg j
  announces : Announced F w' k

def OfSub (id : Bytes) (F : AppendFence) : Prop := F.subscriptionID = id ∧ F.shard = 0

section Instructions

variable {w w' : World} {i : Instr} {c : Choice} {k : List Instr} {o : Observation}

theorem Shows.peer (h : Shows F cfg f) (hF : OfSub id F) (hholds : claimHolds cfg f = true) :
    Peer F (appendFenceFor id cfg f) := by
  simp only [claimHolds, Bool.and_eq_true, decide_eq_true_eq] at hholds
  refine ⟨?_, le_rfl, fun hgen => ?_⟩
  · rw [fenceAuthority, fenceAuthority, hF.1, hF.2, ← h.incarnation]
    rfl
  · rcases h.claim hgen with ⟨-, hidle⟩ | ⟨hwake, -, hholder⟩
    · exact absurd hidle hholds.1
    · exact ⟨hwake, hholder⟩

theorem announced_of_finish (h : ∀ d q ttl sealed, .finish d q ttl sealed ∈ k → sealed = []) :
    Announced F w k := by
  rintro pre d q ttl sealed post rfl - path hpath
  rw [h d q ttl sealed (by simp)] at hpath
  cases hpath

theorem sealIfCurrent_sound {paths : List Path} {d : Ending} {q : Request} {ttl : ℤ}
    (h : Shows F cfg f) (hF : OfSub id F) :
    (∀ j ∈ sealIfCurrent id cfg f paths d q ttl, Sound F cfg j) ∧
      Announced F w (sealIfCurrent id cfg f paths d q ttl) := by
  unfold sealIfCurrent
  dsimp only
  split
  · rename_i hcur
    simp only [Bool.and_eq_true, decide_eq_true_eq] at hcur
    have hf := h.peer hF hcur.1.1.1.1
    constructor
    · intro j hj
      rcases List.mem_append.mp hj with hj | hj
      · rcases List.mem_map.mp hj with ⟨path, -, rfl⟩
        exact hf
      · cases List.mem_singleton.mp hj
        trivial
    · intro pre d' q' ttl' sealed post hk hge path hpath
      rcases Threads.append_eq_split hk with ⟨pre', rfl, hlast⟩ | ⟨post', hmap⟩
      · have hmem : Instr.finish d' q' ttl' sealed ∈ [Instr.finish d q ttl paths] := by
          rw [hlast]
          simp
        cases List.mem_singleton.mp hmem
        exact .inl ⟨_, hge.trans_eq hcur.1.1.1.2.symm,
          List.mem_append_left _ (List.mem_map_of_mem hpath)⟩
      · have hmem : Instr.finish d' q' ttl' sealed ∈
            paths.map (.sealing (appendFenceFor id cfg f)) := by
          rw [hmap]
          simp
        rcases List.mem_map.mp hmem with ⟨_, -, heq⟩
        cases heq
  · refine ⟨?_, announced_of_finish (by simp)⟩
    intro j hj
    cases List.mem_singleton.mp hj
    trivial

theorem found_sound {u : Use} (h : Shows F cfg f) (hF : OfSub id F) :
    (∀ j ∈ u.found id cfg f c, Sound F cfg j) ∧ Announced F w (u.found id cfg f c) := by
  cases u with
  | ending d q ttl => exact sealIfCurrent_sound h hF
  | mint claim =>
    dsimp only [Use.found, grantFences]
    split
    · rename_i hlive
      simp only [Bool.and_eq_true, claimLive] at hlive
      refine ⟨?_, announced_of_finish (by simp)⟩
      intro j hj
      cases List.mem_singleton.mp hj
      exact h.peer hF hlive.1.1.1
    · exact ⟨by simp, announced_of_finish (by simp)⟩
  | unlink path authorized =>
    constructor
    · intro j hj
      rcases List.mem_append.mp hj with hj | hj
      · split at hj
        · rename_i hseal
          simp only [Bool.and_eq_true] at hseal
          cases List.mem_singleton.mp hj
          exact h.peer hF hseal.1.1.2
        · cases hj
      · cases List.mem_singleton.mp hj
        trivial
    · refine announced_of_finish ?_
      intro d q ttl sealed hmem
      rcases List.mem_append.mp hmem with hmem | hmem
      · split at hmem
        · cases List.mem_singleton.mp hmem
        · cases hmem
      · cases List.mem_singleton.mp hmem

theorem absent_sound (F : AppendFence) (cfg : Config) (u : Use) :
    (∀ j ∈ u.absent, Sound F cfg j) ∧
      ∀ d q ttl sealed, .finish d q ttl sealed ∈ u.absent → sealed = [] := by
  cases u with
  | ending d q ttl => simp [Use.absent, Sound]
  | mint claim => simp [Use.absent]
  | unlink path authorized => cases authorized <;> simp [Use.absent, Sound]

theorem moves_setStream (hm : ∀ path, MarkerKept path F (w.streams path))
    (hs : ∀ path, SealKept F (w.streams path)) {path : Path} {k : StreamKeys}
    (h : Moves path F (w.streams path) k) (path' : Path) :
    Moves path' F (w.streams path') ((w.setStream path k).streams path') := by
  unfold World.setStream
  by_cases heq : path' = path
  · subst heq
    simpa using h
  · simpa [heq] using Moves.refl (hm path') (hs path')

theorem Underway.exec {s : Sub} (h : Underway F cfg s) (call : Call)
    (hdelete : ∀ x, call ≠ .delete x) (hclaim : ∀ a, call = .claim a → cfg.type = .pullWake) :
    Underway F cfg (s.exec call).1 :=
  h.step (e := ⟨call, (s.exec call).2⟩) rfl hdelete hclaim

theorem exec_advance (hF : OfSub id F) (hsub : Underway F cfg w.sub)
    (hm : ∀ path, MarkerKept path F (w.streams path)) (hs : ∀ path, SealKept F (w.streams path))
    (hi : Sound F cfg i) (h : exec id w i c = some (w', k, o)) : Advance F cfg w i w' k := by
  have hrefl : ∀ path, Moves path F (w.streams path) (w.streams path) :=
    fun path => .refl (hm path) (hs path)
  cases i with
  | lookup done q =>
    dsimp only [exec] at h
    split at h <;> cases h
    · exact ⟨hsub, hrefl, (by simp), (by simp), announced_of_finish (by simp)⟩
    · refine ⟨hsub, hrefl, (by simp), ?_, announced_of_finish ?_⟩ <;> cases done <;> simp [Sound]
  | get u =>
    dsimp only [exec] at h
    split at h <;> cases h
    · have habsent := absent_sound F cfg u
      exact ⟨hsub, hrefl, by simp, habsent.1, announced_of_finish habsent.2⟩
    · rename_i cfg' f hp
      refine ⟨hsub, hrefl, (by simp), ?_, announced_of_finish (by simp)⟩
      intro j hj
      cases List.mem_singleton.mp hj
      rcases hsub.current with ⟨f', hp', -, hcur⟩
      rw [hp, Option.some.injEq, Prod.mk.injEq] at hp'
      exact ⟨hp'.1, hp'.2 ▸ hcur⟩
  | getLinks u cfg' f =>
    rcases hi with ⟨rfl, hcur⟩
    dsimp only [exec] at h
    split at h <;> cases h
    have hfound := found_sound (w := w) (u := u) (c := c) hcur hF
    exact ⟨hsub, hrefl, (by simp), hfound.1, hfound.2⟩
  | sealing f path =>
    rcases Option.map_eq_some_iff.mp h with ⟨⟨k', r⟩, hseal, heq⟩
    cases heq
    rcases Redis.sealScript_moves (hm path) (hs path) hi hseal with ⟨hmoves, hsettled⟩
    refine ⟨hsub, moves_setStream hm hs hmoves, ?_, (by simp), announced_of_finish (by simp)⟩
    rintro f' path' heq hge
    cases heq
    simpa [World.setStream] using hsettled hge
  | finish d q ttl sealed =>
    cases h
    refine ⟨?_, hrefl, (by simp), (by simp), announced_of_finish (by simp)⟩
    cases d with
    | done => exact hsub.exec (.ack (q.ackArgs true c.nowNs ttl)) nofun nofun
    | release =>
      exact hsub.exec (.release { reqGen := q.generation, reqWake := q.wakeId,
                                  tokenGen := q.tokenGeneration }) nofun nofun
  | heartbeat q ttl =>
    cases h
    refine ⟨hsub.exec (.ack (q.ackArgs false c.nowNs ttl)) nofun nofun, hrefl, by simp, ?_,
      announced_of_finish ?_⟩
    all_goals split <;> simp [Sound]
  | grant f granted todo =>
    cases todo with
    | nil =>
      cases h
      exact ⟨hsub, hrefl, (by simp), (by simp), announced_of_finish (by simp)⟩
    | cons path todo =>
      have hrevoke : ∀ j ∈ granted.map (Instr.revoke f), Sound F cfg j := by
        intro j hj
        rcases List.mem_map.mp hj with ⟨_, -, rfl⟩
        exact hi
      dsimp only [exec] at h
      split at h
      · cases h
        exact ⟨hsub, hrefl, (by simp), hrevoke, announced_of_finish (by simp)⟩
      · rcases Option.map_eq_some_iff.mp h with ⟨⟨k', r⟩, hgrant, heq⟩
        cases heq
        have hmoves := Redis.grantScript_moves (hm path) (hs path) hi hgrant
        refine ⟨hsub, moves_setStream hm hs hmoves, (by simp), ?_, announced_of_finish ?_⟩
        · split
          · exact List.forall_mem_singleton.mpr hi
          · exact List.forall_mem_singleton.mpr hi
          · exact hrevoke
        · split <;> simp
  | revoke f path =>
    cases h
    exact ⟨hsub, moves_setStream hm hs (Redis.revokeScript_moves (hm path) (hs path) hi), (by simp),
      (by simp), announced_of_finish (by simp)⟩
  | script call =>
    have hstop : ∀ {s : Sub}, Underway F cfg s →
        Advance F cfg w (.script call) { w with sub := s } [] :=
      fun hs' => ⟨hs', hrefl, by simp, by simp, announced_of_finish (by simp)⟩
    cases call with
    | claim a =>
      dsimp only [exec] at h
      split at h <;> cases h
      · exact hstop hsub
      · rename_i hpull
        refine hstop (hsub.exec (.claim a) nofun fun _ _ => ?_)
        rcases hsub.current with ⟨f, hp, -⟩
        rw [hp] at hpull
        cases htype : cfg.type with
        | webhook => simp [htype] at hpull
        | pullWake => rfl
    | delete x => exact hi.elim
    | _ => cases h; exact hstop (hsub.exec _ nofun nofun)
  | append path a =>
    rcases Option.map_eq_some_iff.mp h with ⟨⟨k', r⟩, happend, heq⟩
    cases heq
    have hmoves := Redis.appendScript_moves (hm path) (hs path) happend
    exact ⟨hsub, moves_setStream hm hs hmoves, by simp, by simp, announced_of_finish (by simp)⟩

theorem exec_observed (h : exec id w i c = some (w', k, o)) :
    (∃ d q ttl sealed, i = .finish d q ttl sealed ∧
      o = .ended d q (d.run w.sub q c.nowNs ttl).2 ∧ w'.streams = w.streams) ∨
    (∃ path a k' r, o = .appended path a r ∧
      Redis.appendScript a (w.streams path) = some (k', r)) ∨ o = .other := by
  cases i with
  | finish d q ttl sealed =>
    cases h
    exact .inl ⟨d, q, ttl, sealed, rfl, rfl, rfl⟩
  | append path a =>
    rcases Option.map_eq_some_iff.mp h with ⟨⟨k', r⟩, happend, heq⟩
    cases heq
    exact .inr (.inl ⟨path, a, k', r, rfl, happend⟩)
  | sealing f path =>
    rcases Option.map_eq_some_iff.mp h with ⟨⟨k', r⟩, -, heq⟩
    cases heq
    exact .inr (.inr rfl)
  | grant f granted todo =>
    cases todo with
    | nil => cases h; exact .inr (.inr rfl)
    | cons path todo =>
      dsimp only [exec] at h
      split at h
      · cases h; exact .inr (.inr rfl)
      · rcases Option.map_eq_some_iff.mp h with ⟨⟨k', r⟩, -, heq⟩
        cases heq
        exact .inr (.inr rfl)
  | lookup | get | getLinks =>
    dsimp only [exec] at h
    split at h <;> cases h
    all_goals exact .inr (.inr rfl)
  | script call =>
    cases call with
    | claim a =>
      dsimp only [exec] at h
      split at h <;> cases h
      all_goals exact .inr (.inr rfl)
    | _ => cases h; exact .inr (.inr rfl)
  | heartbeat | revoke => cases h; exact .inr (.inr rfl)

theorem Announced.mono {p : List Instr} (h : Announced F w p)
    (hmoves : ∀ path, Moves path F (w.streams path) (w'.streams path)) : Announced F w' p := by
  intro pre d q ttl sealed post hp hge path hpath
  exact (h pre d q ttl sealed post hp hge path hpath).imp_right (hmoves path).settled

theorem Announced.run {p : List Instr} (h : Announced F w (i :: p)) (ha : Advance F cfg w i w' k) :
    Announced F w' (k ++ p) := by
  intro pre d q ttl sealed post hp hge path hpath
  rcases Threads.append_eq_split hp with ⟨pre', rfl, rfl⟩ | ⟨post', hk⟩
  · rcases h (i :: pre') d q ttl sealed post rfl hge path hpath with ⟨f, hgen, hf⟩ | hset
    · rcases List.mem_cons.mp hf with heq | hf
      · exact .inr (ha.settles f path heq.symm hgen)
      · exact .inl ⟨f, hgen, List.mem_append_right _ hf⟩
    · exact .inr ((ha.moves path).settled hset)
  · exact ha.announces pre d q ttl sealed post' hk hge path hpath

end Instructions

def always (_ : World) (_ : Instr) (_ : Choice) : Bool := true

abbrev Interleaving (id : Bytes) (P : World → Instr → Choice → Bool) :
    Conf → Option Observation → Conf → Prop :=
  Threads.Step (exec id) (fun p => starts p = true) fun w i c => P w i c = true

section Runs

variable {P : World → Instr → Choice → Bool} {st st' : Conf} {o : Option Observation}

theorem starts_sound (F : AppendFence) (cfg : Config) {p : List Instr} (h : starts p = true) :
    ∃ i, p = [i] ∧ Sound F cfg i ∧ ∀ d q ttl sealed, i ≠ .finish d q ttl sealed := by
  unfold starts at h
  split at h
  · cases h
  · exact ⟨_, rfl, trivial, by simp⟩
  · exact ⟨_, rfl, trivial, by simp⟩
  · rename_i call hdelete
    refine ⟨_, rfl, ?_, by simp⟩
    cases call with
    | delete x => exact absurd rfl (hdelete x)
    | _ => trivial
  · exact ⟨_, rfl, trivial, by simp⟩
  · cases h

theorem Inv.moves (hF : OfSub id F) (hi : Inv F cfg st) (h : Interleaving id P st o st')
    (path : Path) :
    Moves path F (st.world.streams path) (st'.world.streams path) := by
  cases h with
  | start => exact .refl (hi.markers path) (hi.seals path)
  | run hexec hP =>
    exact (exec_advance hF hi.sub hi.markers hi.seals
      (hi.sound _ Threads.pending_head) hexec).moves path

theorem Inv.step (hF : OfSub id F) (hi : Inv F cfg st) (h : Interleaving id P st o st') :
    Inv F cfg st' := by
  cases h with
  | @start w ts p hp =>
    rcases starts_sound F cfg hp with ⟨i₀, rfl, hsound, hfinish⟩
    refine ⟨hi.sub, hi.markers, hi.seals, ?_, ?_⟩
    · intro i hpend
      rcases Threads.pending_start.mp hpend with hmem | hpend
      · exact List.mem_singleton.mp hmem ▸ hsound
      · exact hi.sound i hpend
    · intro p' hp'
      rcases List.mem_cons.mp hp' with rfl | hp'
      · refine announced_of_finish fun d q ttl sealed hmem => ?_
        exact absurd (List.mem_singleton.mp hmem).symm (hfinish d q ttl sealed)
      · exact hi.announced p' hp'
  | @run w w' ts₁ ts₂ i p c k _ hexec hP =>
    have ha := exec_advance hF hi.sub hi.markers hi.seals
      (hi.sound i Threads.pending_head) hexec
    refine ⟨ha.sub, fun path => (ha.moves path).marker.kept, fun path => (ha.moves path).info.kept,
      ?_, ?_⟩
    · intro j hj
      rcases Threads.pending_origin hj with hj | hj
      · exact ha.sound j hj
      · exact hi.sound j hj
    · intro p' hp'
      rcases List.mem_append.mp hp' with hp' | hp'
      · exact (hi.announced p' (List.mem_append_left _ hp')).mono ha.moves
      · rcases List.mem_cons.mp hp' with rfl | hp'
        · exact (hi.announced (i :: p) (by simp)).run ha
        · exact (hi.announced p' (by simp [hp'])).mono ha.moves

/-- A claim is ended only after it was sealed on the stream. -/
def sealsFirst (path : Path) (_ : World) (i : Instr) (_ : Choice) : Bool :=
  match i with
  | .finish _ _ _ sealed => path ∈ sealed
  | _ => true

/-- An instruction of an operation that goes on for an earlier claim. -/
def Earlier (F : AppendFence) (cfg : Config) : Instr → Prop
  | .getLinks _ cfg' f =>
    cfg' = cfg ∧ f.incarnation = F.subscriptionIncarnation ∧ f.generation < F.generation
  | .sealing f _ | .grant f _ _ | .revoke f _ =>
    fenceAuthority f = fenceAuthority F ∧ 0 ≤ f.shard ∧ f.generation < F.generation
  | .finish _ q _ _ => q.generation < F.generation
  | .script (.delete _) => False
  | _ => True

/-- A claim is in flight, what is under way goes on for earlier claims, and the markers and seals
of its authority are those of its claims. -/
structure Claimed (id : Bytes) (F : AppendFence) (st : Conf) : Prop where
  stamped : Stamped st.world.sub
  claim : ∃ cfg f, st.world.sub.parent = some (cfg, f) ∧ claimHolds cfg f = true ∧
    F = appendFenceFor id cfg f ∧ ∀ i, st.Pending i → Earlier F cfg i
  markers : ∀ path, MarkerKept path F (st.world.streams path)
  seals : ∀ path, SealKept F (st.world.streams path)

theorem Earlier.sound {i : Instr} (h : Earlier F cfg i) : Sound F cfg i := by
  cases i with
  | getLinks u cfg' f => exact ⟨h.1, h.2.1, fun hgen => absurd hgen h.2.2.ne⟩
  | sealing f | grant f | revoke f => exact ⟨h.1, h.2.1, fun hgen => absurd hgen h.2.2.ne⟩
  | script call => cases call <;> exact h
  | _ => trivial

theorem Claimed.inv (h : Claimed id F st) : ∃ cfg, Inv F cfg st := by
  rcases h.claim with ⟨cfg, f, hp, hholds, rfl, hearlier⟩
  simp only [claimHolds, Bool.and_eq_true, decide_eq_true_eq] at hholds
  refine ⟨cfg, ⟨h.stamped, f, hp, le_rfl, rfl, fun _ => .inr ⟨rfl, hholds.2, rfl⟩⟩, h.markers,
    h.seals, fun i hi => (hearlier i hi).sound, ?_⟩
  rintro p hmem pre d q ttl sealed post rfl hge
  exact absurd (hearlier (.finish d q ttl sealed) ⟨_, hmem, by simp⟩) hge.not_gt

theorem Claimed.ofSub (h : Claimed id F st) : OfSub id F := by
  rcases h.claim with ⟨cfg, f, -, -, rfl, -⟩
  exact ⟨rfl, rfl⟩

theorem Inv.run {h : List (Option Observation)} (hF : OfSub id F) (hi : Inv F cfg st)
    (hrun : Trace.Run (Interleaving id P) st h st') : Inv F cfg st' :=
  hrun.invariant hi fun _ _ _ hi hstep => hi.step hF hstep

theorem ending_generation {d : Ending} {s : Sub} {q : Request} {nowNs ttl : ℤ}
    (hs : Underway F cfg s) (h : (d.run s q nowNs ttl).2 = .ok) : F.generation ≤ q.generation := by
  have hholds : s.Holds 0 q.generation q.wakeId := by
    cases d with
    | done => exact (ack_accepts h).holds
    | release => exact release_holds h
  rcases hs.current with ⟨f, hp, hge, -⟩
  rcases hholds with ⟨f', hf', hgen, -⟩
  cases (fence_zero hp).symm.trans hf'
  exact hgen ▸ hge

theorem settled_of_ended {d : Ending} {q : Request} {path : Path} (hi : Inv F cfg st)
    (h : Interleaving id (sealsFirst path) st (some (.ended d q .ok)) st') :
    Settled path F (st.world.streams path) ∧ st'.world.streams = st.world.streams := by
  cases h with
  | @run w w' ts₁ ts₂ i p c k _ hexec hP =>
    rcases exec_observed hexec with ⟨d', q', ttl, sealed, rfl, ho, hstreams⟩ | ⟨_, _, _, _, ho, -⟩ | ho
    rotate_left
    · cases ho
    · cases ho
    rw [Observation.ended.injEq] at ho
    obtain ⟨rfl, rfl, hok⟩ := ho
    have hge := ending_generation hi.sub hok.symm
    rcases hi.announced (.finish d q ttl sealed :: p) (by simp) [] d q ttl sealed p rfl hge path
      (of_decide_eq_true hP) with ⟨f, -, hf⟩ | hset
    · cases hf
    · exact ⟨hset, hstreams⟩

/-- Once a claim was ended, a write-fenced stream refuses it and the claims before it, provided
that the claim was sealed on the stream when it was ended. -/
theorem done_final {d : Ending} {q : Request} {st₀ st₁ st₂ st₃ : Conf}
    {h₁ h₂ : List (Option Observation)} (hstart : Claimed id F st₀)
    (hrun₁ : Trace.Run (Interleaving id always) st₀ h₁ st₁) {path : Path}
    (hended : Interleaving id (sealsFirst path) st₁ (some (.ended d q .ok)) st₂)
    (hrun₂ : Trace.Run (Interleaving id always) st₂ h₂ st₃)
    (hwf : (st₁.world.streams path).info .wf = some Redis.one) {a : Redis.AppendArgs}
    {r : Redis.Reply} (happend : some (.appended path a r) ∈ h₂) {f : AppendFence}
    (hfence : a.fence = some (claimArgs path f)) (hauth : fenceAuthority f = fenceAuthority F)
    (hgen : f.generation ≤ F.generation) : r.status ≠ .ok := by
  rcases hstart.inv with ⟨cfg, hi⟩
  have hF := hstart.ofSub
  have hi₁ := hi.run hF hrun₁
  rcases settled_of_ended hi₁ hended with ⟨hsettled, hstreams⟩
  have hi₂ := hi₁.step hF hended
  have hshut : Shut path F (st₂.world.streams path) := by
    rw [hstreams]
    exact hsettled.shut hwf
  have hmem := hrun₂.mem_step (I := fun st => Inv F cfg st ∧ Shut path F (st.world.streams path))
    ⟨hi₂, hshut⟩ fun st _ st' _ hst hstep =>
      ⟨hst.1.step hF hstep, (hst.1.moves hF hstep path).shut hst.2⟩
  rcases hmem.2 _ happend with ⟨st, st', ⟨-, hst⟩, hstep⟩
  cases hstep with
  | run hexec hP =>
    rcases exec_observed hexec with ⟨_, _, _, _, _, ho, -⟩ | ⟨_, _, k', _, ho, hscript⟩ | ho
    · cases ho
    · cases ho
      exact Redis.appendScript_shut hF.2.ge hauth hgen hst hfence hscript
    · cases ho

def played (id : Bytes) (st : Conf) (turns : List (Threads.Turn Instr Choice))
    (h : (Trace.execAll (Threads.turn (exec id) starts always) st turns).isSome) :
    List (Option Observation) × Conf :=
  Trace.executed (Threads.turn (exec id) starts always) st turns h

theorem played_run {turns : List (Threads.Turn Instr Choice)}
    (h : (Trace.execAll (Threads.turn (exec id) starts always) st turns).isSome) :
    Trace.Run (Interleaving id always) st (played id st turns h).1 (played id st turns h).2 :=
  Trace.executed_run Threads.turn_step h

def fencedKeys : StreamKeys where
  info
    | .tail => some zeroOffset.string
    | .wf => some Redis.one
    | .incarnation => some [105]
    | _ => none

def heldClaim : Conf where
  world :=
    { sub :=
        { parent := some
            ({ cfgHash := [], type := .pullWake, pattern := [], leaseTtlMs := 1, owner := [] },
              { incarnation := Decimal.formatNat 1, phase := .live, generation := 1
                wakeId := [119], holder := true, holderWorker := [111], leaseUntilNs := 100 })
          links := (∅ : Links).insert [97] ⟨.explicit, []⟩
          incarnations := 1 }
      streams path := if path = [97] ∨ path = [98] then fencedKeys else {} }
  threads := []

def heldFence : AppendFence :=
  { subscriptionID := [115], subscriptionIncarnation := Decimal.formatNat 1, shard := 0
    generation := 1, wakeID := [119], holder := [111], leaseUntilNs := 100 }

theorem heldClaim_claimed : Claimed [115] heldFence heldClaim where
  stamped := by
    rintro cfg f h
    cases h
    exact ⟨1, by decide, by decide, rfl⟩
  claim := ⟨_, _, rfl, by decide, rfl, by rintro _ ⟨_, hp, -⟩; cases hp⟩
  markers path cur h := by
    simp only [heldClaim] at h
    split at h <;> cases h
  seals path v h := by
    simp only [heldClaim] at h
    split at h <;> cases h

def heldAppend (path : Path) : Redis.AppendArgs where
  nowNs := Decimal.formatInt 3
  reqCT := []
  streamSeq := []
  closing := false
  hasProducer := true
  producerId := [112]
  pEpoch := Decimal.formatInt 1
  pSeq := [48]
  expectedTail := zeroOffset.string
  newTail := (zeroOffset.add 1).string
  valOnly := false
  fence := some (claimArgs path heldFence)
  frames := [Redis.encodeFrame (zeroOffset.add 1) [120]]

def heldRequest : Request := { generation := 1, wakeId := [119], tokenGeneration := 1 }

def sealTurns : List (Threads.Turn Instr Choice) :=
  [.start [.get (.mint none)], .run 0 {}, .run 0 { nowNs := 2, paths := [[97]] },
    .run 0 { nowNs := 2 }, .run 0 {}] ++
  [.start [.lookup true heldRequest], .run 0 {}, .run 0 {}, .run 0 { paths := [[97]] }, .run 0 {}]

theorem sealTurns_run :
    (Trace.execAll (Threads.turn (exec [115]) starts always) heldClaim sealTurns).isSome := by
  decide +kernel

def sealedClaim : Conf := (played [115] heldClaim sealTurns sealTurns_run).2

def endedClaim : Conf :=
  ((Threads.turn (exec [115]) starts (sealsFirst [97]) sealedClaim (.run 0 { nowNs := 2 })).get
    (by decide)).2

def lateTurns : List (Threads.Turn Instr Choice) :=
  [.start [.append [97] (heldAppend [97])], .run 0 {}]

theorem lateTurns_run :
    (Trace.execAll (Threads.turn (exec [115]) starts always) endedClaim lateTurns).isSome := by
  decide +kernel

def lateReply : Redis.Reply :=
  Redis.fenceReply .sealed zeroOffset.string (Decimal.formatInt 1) []

theorem done_final_sealed :
    (played [115] endedClaim lateTurns lateTurns_run).1 =
      [none, some (.appended [97] (heldAppend [97]) lateReply)] ∧ lateReply.status ≠ .ok := by
  have hevents : (played [115] endedClaim lateTurns lateTurns_run).1 =
      [none, some (.appended [97] (heldAppend [97]) lateReply)] := rfl
  have hended : Interleaving [115] (sealsFirst [97]) sealedClaim (some (.ended .done heldRequest .ok))
      endedClaim := Threads.turn_step sealedClaim (.run 0 { nowNs := 2 }) _ _ (by rfl)
  have hmem : some (.appended [97] (heldAppend [97]) lateReply) ∈
      (played [115] endedClaim lateTurns lateTurns_run).1 := by
    rw [hevents]
    simp
  exact ⟨hevents, done_final heldClaim_claimed (played_run sealTurns_run) hended
    (played_run lateTurns_run) (by decide +kernel) hmem (f := heldFence) rfl rfl le_rfl⟩

def missTurns : List (Threads.Turn Instr Choice) :=
  [.start [.lookup true heldRequest], .run 0 {}, .run 0 {}, .run 0 { paths := [[97]] }] ++
  [.start [.script (.link { path := [98], linkType := .explicit, offset := [] })], .run 0 {}] ++
  [.start [.lookup false heldRequest], .run 0 {}, .run 0 { nowNs := 2 }, .run 0 {},
    .run 0 { nowNs := 2, paths := [[97], [98]] }, .run 0 { nowNs := 2 }, .run 0 { nowNs := 2 },
    .run 0 {}] ++
  [.run 2 {}]

theorem missTurns_run :
    (Trace.execAll (Threads.turn (exec [115]) starts always) heldClaim missTurns).isSome := by
  decide +kernel

def missedClaim : Conf := (played [115] heldClaim missTurns missTurns_run).2

def missedEnd : Conf :=
  ((Threads.turn (exec [115]) starts always missedClaim
    (.run 2 { nowNs := 2 })).get (by decide)).2

def slipTurns : List (Threads.Turn Instr Choice) :=
  [.start [.append [98] (heldAppend [98])], .run 0 {}]

theorem slipTurns_run :
    (Trace.execAll (Threads.turn (exec [115]) starts always) missedEnd slipTurns).isSome := by
  decide +kernel

def slipReply : Redis.Reply :=
  { status := .ok, tail := (zeroOffset.add 1).string, producerResult := [49] }

theorem slipTurns_events :
    (played [115] missedEnd slipTurns slipTurns_run).1 =
      [none, some (.appended [98] (heldAppend [98]) slipReply)] := by
  rfl

theorem done_missed :
    Claimed [115] heldFence heldClaim ∧
    ∃ h₁ st₁ st₂ h₂ st₃ r,
      Trace.Run (Interleaving [115] always) heldClaim h₁ st₁ ∧
      Interleaving [115] always st₁ (some (.ended .done heldRequest .ok)) st₂ ∧
      Trace.Run (Interleaving [115] always) st₂ h₂ st₃ ∧
      [98] ∈ st₁.world.sub.links ∧ (st₁.world.streams [98]).info .wf = some Redis.one ∧
      some (.appended [98] (heldAppend [98]) r) ∈ h₂ ∧
      (heldAppend [98]).fence = some (claimArgs [98] heldFence) ∧ r.status = .ok := by
  have hended : Interleaving [115] always missedClaim
      (some (.ended .done heldRequest .ok)) missedEnd :=
    Threads.turn_step missedClaim (.run 2 { nowNs := 2 }) _ _ (by rfl)
  have hmem : some (.appended [98] (heldAppend [98]) slipReply) ∈
      (played [115] missedEnd slipTurns slipTurns_run).1 := by
    rw [slipTurns_events]
    simp
  exact ⟨heldClaim_claimed, _, missedClaim, missedEnd, _, _, _, played_run missTurns_run, hended,
    played_run slipTurns_run, by decide +kernel, by decide +kernel, hmem, rfl, rfl⟩

end Runs

end Chronicle.Webhook.Fencing
