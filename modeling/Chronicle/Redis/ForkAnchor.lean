import Chronicle.Redis.ForkRace

/-! # What a fork inherits

A stream on which somebody holds a reference is not removed, so the source of a
fork goes on as the stream on which the reference was taken. If this is the
stream whose metadata was read, then the fork inherits what it asked for.
-/

namespace Chronicle.Redis.ForkRace

open Forking (Creation)

variable {c : Creation} {source : StreamMetadata}

section Steps

variable {w w' : World} {i : Instr} {ch : Choice} {next : List Instr} {e : Observation}
  {k k' : StreamKeys} {o : Offset} {d : ℤ} {md : StreamMetadata} {issued issued' : Finset Bytes}

def Reaches (k : StreamKeys) (o : Offset) : Prop :=
  ∃ t : Offset, k.info .tail = some t.string ∧ o ≤ t

structure Sane (w : World) : Prop where
  tail : ∀ v, w.source.info .tail = some v → ∃ t : Offset, v = t.string
  absent : w.source.info .tail = none → refCountOf w.source.info = some 0
  issued : w.source.info .tail ≠ none → decodeIncarnation w.source.info ∈ w.issued

/-- A source has the incarnation of the metadata that was fetched, and the fork offset is not
behind its tail. -/
structure Anchored (k : StreamKeys) (source md : StreamMetadata) : Prop where
  incarnation : decodeIncarnation k.info = source.incarnation
  reaches : Reaches k md.forkOffset

/-- What an instruction of the creation knows of the source. -/
def Sound (c : Creation) (w : World) : Instr → Prop
  | .incrRef source md _ =>
    source.incarnation ∈ w.issued ∧ md.forkedFrom = c.opts.forkedFrom ∧
      md.forkOffset ≤ source.currentOffset ∧
      (w.source.info .tail ≠ none → decodeIncarnation w.source.info = source.incarnation →
        Reaches w.source source.currentOffset)
  | .create source md _ => md.forkedFrom = c.opts.forkedFrom ∧ Anchored w.source source md
  | _ => True

def holder : Instr → Bool
  | .create .. | .rollback | .dropRef _ => true
  | _ => false

def ours : Instr → Bool
  | .fetchMeta | .incrRef .. | .create .. | .rollback => true
  | _ => false

theorem Reaches.mono {o' : Offset} (h : Reaches k o) (hle : o' ≤ o) : Reaches k o' := by
  rcases h with ⟨t, ht, ho⟩
  exact ⟨t, ht, hle.trans ho⟩

theorem Kept.reaches (h : Kept k k') (hr : Reaches k o) : Reaches k' o := by
  rcases hr with ⟨t, ht, ho⟩
  rcases h.grows t ht with ⟨t', ht', hle, -⟩
  exact ⟨t', ht', ho.trans hle⟩

theorem Kept.anchored (h : Kept k k') (ha : Anchored k source md) :
    Anchored k' source md :=
  ⟨h.incarnation.trans ha.incarnation, h.reaches ha.reaches⟩

theorem decodeIncarnation_fresh (h : k.info = metaToFields md)
    (hne : md.incarnation ≠ []) : decodeIncarnation k.info = md.incarnation := by
  simp [decodeIncarnation, h, metaToFields, nonEmpty, hne]

theorem Sane.moved (h : Sane w) (hm : Moved w.issued w'.issued d w.source w'.source)
    (hsub : w.issued ⊆ w'.issued) : Sane w' := by
  cases hm with
  | kept hk _ =>
    have hgone : w'.source.info .tail = none → w.source.info .tail = none := by
      intro hnone
      by_contra hpresent
      rcases Option.ne_none_iff_exists'.mp hpresent with ⟨v, hv⟩
      rcases h.tail v hv with ⟨t, rfl⟩
      rcases hk.grows t hv with ⟨t', ht', -⟩
      exact absurd (ht'.symm.trans hnone) nofun
    refine ⟨fun v hv => ?_, fun hnone => ?_, fun hpresent => ?_⟩
    · cases hold : w.source.info .tail with
      | none => exact absurd (hv.symm.trans (hk.absent hold).1) nofun
      | some u =>
        rcases h.tail u hold with ⟨t, rfl⟩
        rcases hk.grows t hold with ⟨t', ht', -⟩
        exact ⟨t', Option.some.inj (hv.symm.trans ht')⟩
    · rw [(hk.absent (hgone hnone)).2]
      exact h.absent (hgone hnone)
    · rw [hk.incarnation]
      exact hsub (h.issued fun hnone => hpresent (hk.absent hnone).1)
  | gone hk _ =>
    rw [show w' = ⟨w.source.del, w'.fork, w'.issued⟩ by rw [← hk]]
    exact ⟨nofun, fun _ => rfl, fun hpresent => absurd rfl hpresent⟩
  | fresh md hk hrefs hne hnew hin _ =>
    have htail : w'.source.info .tail = some md.currentOffset.string := by rw [hk]; rfl
    refine ⟨fun v hv => ?_, fun hnone => absurd (htail.symm.trans hnone) nofun, fun _ => ?_⟩
    · exact ⟨_, Option.some.inj (hv.symm.trans htail)⟩
    · rw [decodeIncarnation_fresh hk hne]
      exact hin

theorem Moved.refs (h : Moved issued issued' d k k') {n m : ℤ}
    (hn : refCountOf k.info = some n) (hle : m ≤ n + d) :
    ∃ n', refCountOf k'.info = some n' ∧ m ≤ n' := by
  cases h with
  | kept _ hrefs => exact ⟨_, hrefs n hn, hle⟩
  | gone hk hrefs =>
    subst hk
    exact ⟨0, rfl, hle.trans (hrefs n hn)⟩
  | fresh md hk hzero _ _ _ hrefs =>
    refine ⟨0, ?_, hle.trans (hrefs n hn)⟩
    rw [refCountOf, hk, metaToFields, if_pos hzero]
    rfl

theorem Moved.held (h : Moved issued issued' d k k') {n : ℤ}
    (hn : refCountOf k.info = some n) (hpos : 1 ≤ n + d) : Kept k k' := by
  cases h with
  | kept hk _ => exact hk
  | gone _ hrefs => have := hrefs n hn; omega
  | fresh _ _ _ _ _ _ hrefs => have := hrefs n hn; omega

theorem Sound.moved (h : Sound c w i) (hm : Moved w.issued w'.issued d w.source w'.source)
    (hsub : w.issued ⊆ w'.issued) {n : ℤ} (hn : refCountOf w.source.info = some n)
    (hheld : holder i = true → 1 ≤ n + d) : Sound c w' i := by
  cases i with
  | incrRef source md pfx =>
    rcases h with ⟨hin, hfork, hle, hreach⟩
    refine ⟨hsub hin, hfork, hle, fun hpresent hinc => ?_⟩
    cases hm with
    | kept hk _ =>
      have hold : w.source.info .tail ≠ none := fun hnone => hpresent (hk.absent hnone).1
      exact hk.reaches (hreach hold (hk.incarnation.symm.trans hinc))
    | gone hk _ =>
      rw [hk] at hpresent
      exact absurd rfl hpresent
    | fresh md' hk _ hne hnew _ _ =>
      -- an incarnation is drawn once
      rw [decodeIncarnation_fresh hk hne] at hinc
      exact absurd (hinc ▸ hin) hnew
  | create source md frames => exact ⟨h.1, (hm.held hn (hheld rfl)).anchored h.2⟩
  | _ => trivial

theorem forkPoint_le {opts : CreateOptions} {pfx : Bytes}
    (h : forkPoint ch opts source = .ok (o, pfx)) : o ≤ source.currentOffset := by
  have hcheck {a : Offset} (ha : checkSource ch.sameType ch.nowNs opts source = .ok a) :
      a ≤ source.currentOffset := by
    unfold checkSource at ha
    split at ha
    · cases ha
    split at ha
    · cases ha
    split at ha
    · cases ha
    dsimp only at ha
    split at ha
    · cases ha
    · rename_i hlt
      cases ha
      exact Offset.lessThan_eq_false.mp (Bool.not_eq_true _ ▸ hlt)
  unfold forkPoint at h
  split at h
  · cases h
  rename_i forkOffset hfork
  split at h
  · cases h; exact hcheck hfork
  · cases h; exact hcheck hfork
  unfold subOffsetPoint at h
  split at h
  · split at h
    · cases h
    · rename_i m hm
      cases h
      have hmem := List.mem_of_getElem? hm
      exact Offset.lessThanOrEqual_iff.mp (List.mem_filter.mp hmem).2
  · split at h
    · cases h
    split at h
    · cases h
    · cases h; exact hcheck hfork

theorem metaFromFields_fetched {path : Path} {m : MetaHash}
    (h : metaFromFields path m = .ok (some source)) :
    ∃ v, m .tail = some v ∧ Offset.parseOffset v = some source.currentOffset ∧
      decodeIncarnation m = source.incarnation := by
  unfold metaFromFields at h
  split at h
  · cases h
  rename_i v hv
  split at h
  · cases h
  · rename_i md hmd
    cases h
    simp only [decodeMeta, Option.bind_eq_bind, Option.bind_eq_some_iff] at hmd
    rcases hmd with ⟨tail, htail, _, -, _, -, _, -, _, -, _, -, _, -, _, -, _, -, _, -, heq⟩
    cases heq
    exact ⟨v, hv, htail, rfl⟩

theorem countP_incrNext (source md : StreamMetadata) (pfx : Bytes) (r : IncrReply) :
    ((incrNext c source md pfx r).countP holder = match r with | .ok _ => 1 | _ => 0) ∧
      (incrNext c source md pfx r).countP ours ≤ 1 := by
  cases r with
  | ok n =>
    dsimp only [incrNext]
    split <;> exact ⟨rfl, le_rfl⟩
  | notFound | softDel => exact ⟨rfl, Nat.zero_le _⟩

theorem exec_moved {n : ℤ} (hsane : Sane w) (hn : refCountOf w.source.info = some n)
    (hpos : holder i = true → 1 ≤ n) (hP : settled w i ch = true)
    (h : exec c w i ch = some (w', next, e)) :
    ∃ d : ℤ, Moved w.issued w'.issued d w.source w'.source ∧ w.issued ⊆ w'.issued ∧
      (next.countP holder : ℤ) ≤ d + (if holder i then 1 else 0) ∧
      next.countP ours ≤ (if ours i then 1 else 0) ∧ (w'.fork = w.fork ∨ ours i = true) := by
  cases i with
  | fetchMeta =>
    refine ⟨0, ?_⟩
    dsimp only [exec] at h
    split at h
    · split at h <;> cases h <;>
        exact ⟨.refl _, subset_rfl, by simp [holder], by simp [ours], .inl rfl⟩
    · cases h
      exact ⟨.refl _, subset_rfl, by simp [holder], by simp [ours], .inl rfl⟩
  | incrRef source md pfx =>
    rcases Option.map_eq_some_iff.mp h with ⟨⟨k, r⟩, hk, heq⟩
    cases heq
    have hmoved := incrRefScript_moved w.issued w.issued hk
    rcases countP_incrNext (c := c) source md pfx r with ⟨hholder, hours⟩
    cases r with
    | ok refs => exact ⟨1, hmoved.1, subset_rfl, by rw [hholder]; simp [holder], hours, .inl rfl⟩
    | notFound | softDel =>
      exact ⟨0, hmoved, subset_rfl, by rw [hholder]; simp [holder], hours, .inl rfl⟩
  | create source md frames =>
    rcases Option.map_eq_some_iff.mp h with ⟨⟨k, r⟩, hk, heq⟩
    cases heq
    refine ⟨0, .refl _, subset_rfl, ?_, ?_, .inr rfl⟩
    · split <;> simp [holder]
    · split <;> simp [ours]
  | rollback =>
    rcases Option.map_eq_some_iff.mp h with ⟨⟨k, r⟩, hk, heq⟩
    cases heq
    exact ⟨-1, decrRefScript_moved hsane.absent hn (hpos rfl) hk, subset_rfl, by simp [holder],
      by simp, .inl rfl⟩
  | recreate opts inherited pfx =>
    refine ⟨0, ?_⟩
    dsimp only [exec] at h
    split at h
    · cases h
    rename_i hdrawn
    rw [not_or] at hdrawn
    split at h
    · cases h
      exact ⟨.refl _, subset_rfl, by simp [holder], by simp, .inl rfl⟩
    rename_i md frames hframes
    rcases Option.map_eq_some_iff.mp h with ⟨⟨k, r⟩, hk, heq⟩
    cases heq
    rcases initialFrames_meta hframes with ⟨-, -, hinc, hrefs⟩
    have hnew : (recreated c.opts.forkedFrom ch opts inherited).incarnation = ch.incarnation ∧
        (recreated c.opts.forkedFrom ch opts inherited).refCount = 0 := by
      unfold recreated
      split <;> exact ⟨rfl, rfl⟩
    rw [hnew.1] at hinc
    rw [hnew.2] at hrefs
    refine ⟨createScript_moved hsane.absent rfl hrefs (hinc ▸ hdrawn.1) (hinc ▸ hdrawn.2) ?_ hk,
      Finset.subset_insert _ _, by simp [holder], by simp, .inl rfl⟩
    rw [hinc]
    exact Finset.mem_insert_self _ _
  | delete =>
    rcases Option.map_eq_some_iff.mp h with ⟨⟨k, r⟩, hk, heq⟩
    cases heq
    exact ⟨0, deleteScript_moved hk, subset_rfl, by simp [holder], by simp, .inl rfl⟩
  | append data opts base ct =>
    rcases Option.map_eq_some_iff.mp h with ⟨⟨k, r⟩, hk, heq⟩
    cases heq
    exact ⟨0, appendScript_moved (of_decide_eq_true hP) hk, subset_rfl, by simp [holder], by simp,
      .inl rfl⟩
  | takeRef fork =>
    rcases Option.map_eq_some_iff.mp h with ⟨⟨k, r⟩, hk, heq⟩
    cases heq
    have hmoved := incrRefScript_moved w.issued w.issued hk
    cases r with
    | ok refs => exact ⟨1, hmoved.1, subset_rfl, by simp [holder], by simp [ours], .inl rfl⟩
    | notFound | softDel => exact ⟨0, hmoved, subset_rfl, by simp [holder], by simp, .inl rfl⟩
  | dropRef fork =>
    rcases Option.map_eq_some_iff.mp h with ⟨⟨k, r⟩, hk, heq⟩
    cases heq
    exact ⟨-1, decrRefScript_moved hsane.absent hn (hpos rfl) hk, subset_rfl, by simp [holder],
      by simp, .inl rfl⟩

/-- What an instruction leaves to do. -/
theorem exec_next (h : exec c w i ch = some (w', next, e)) :
    (∃ source o pfx, metaFromFields c.opts.forkedFrom w.source.info = .ok (some source) ∧
      forkPoint ch c.opts source = .ok (o, pfx) ∧ w' = w ∧ e = .fetched source ∧
      next = [.incrRef source
        (MemoryStore.forkMetadata c.path c.incarnation c.createdAt c.opts source o) pfx]) ∨
    (∃ source md pfx n k, i = .incrRef source md pfx ∧
      incrRefScript ch.nowNs c.path w.source = some (k, .ok n) ∧ w' = { w with source := k } ∧
      next = incrNext c source md pfx (.ok n) ∧ e = .ran) ∨
    (∃ source md frames k, i = .create source md frames ∧
      createScript (createArgs ch.nowNs md c.opts frames) w.fork = some (k, .created) ∧
      w' = { w with fork := k } ∧ next = [] ∧ e = .created source md) ∨
    (∀ j ∈ next, j = .rollback ∨ ∃ fork, j = .dropRef fork) ∧ e = .ran := by
  cases i with
  | fetchMeta =>
    dsimp only [exec] at h
    split at h
    · rename_i source hfetch
      split at h
      · cases h; simp
      · rename_i o pfx hpoint
        cases h
        exact .inl ⟨source, o, pfx, hfetch, hpoint, rfl, rfl, rfl⟩
    · cases h; simp
  | incrRef source md pfx =>
    rcases Option.map_eq_some_iff.mp h with ⟨⟨k, r⟩, hk, heq⟩
    cases heq
    cases r with
    | ok n => exact .inr (.inl ⟨source, md, pfx, n, k, rfl, hk, rfl, rfl, rfl⟩)
    | notFound | softDel => simp [incrNext]
  | create source md frames =>
    rcases Option.map_eq_some_iff.mp h with ⟨⟨k, r⟩, hk, heq⟩
    cases heq
    split
    · rename_i hr
      subst hr
      exact .inr (.inr (.inl ⟨source, md, frames, k, rfl, hk, rfl, rfl, rfl⟩))
    · simp
  | recreate opts inherited pfx =>
    dsimp only [exec] at h
    split at h
    · cases h
    split at h
    · cases h; simp
    · rcases Option.map_eq_some_iff.mp h with ⟨⟨k, r⟩, hk, heq⟩
      cases heq
      simp
  | takeRef fork =>
    rcases Option.map_eq_some_iff.mp h with ⟨⟨k, r⟩, hk, heq⟩
    cases heq
    cases r <;> simp
  | rollback | delete | append data opts base ct | dropRef fork =>
    rcases Option.map_eq_some_iff.mp h with ⟨⟨k, r⟩, hk, heq⟩
    cases heq
    simp

theorem exec_sound (hsane : Sane w) (hsound : Sound c w i) (hP : settled w i ch = true)
    (h : exec c w i ch = some (w', next, e)) : ∀ j ∈ next, Sound c w' j := by
  intro j hj
  rcases exec_next h with ⟨source, o, pfx, hfetch, hpoint, rfl, -, rfl⟩ |
    ⟨source, md, pfx, n, k, rfl, hk, rfl, rfl, -⟩ | ⟨_, _, _, _, -, -, -, rfl, -⟩ | ⟨hnext, -⟩
  · rw [List.mem_singleton.mp hj]
    rcases metaFromFields_fetched hfetch with ⟨v, hv, hparse, hinc⟩
    rcases hsane.tail v hv with ⟨t, rfl⟩
    have ht := Offset.eq_of_parseOffset_string hparse
    exact ⟨hinc ▸ hsane.issued (by rw [hv]; nofun), rfl, forkPoint_le hpoint,
      fun _ _ => ⟨t, hv, ht.le⟩⟩
  · rcases incrRefScript_moved w.issued w.issued hk with ⟨-, hkept, hpresent⟩
    rcases hsound with ⟨-, hfork, hle, hreach⟩
    have hinc := of_decide_eq_true hP
    dsimp only [incrNext] at hj
    split at hj <;> rw [List.mem_singleton.mp hj]
    · trivial
    · rename_i md' frames hframes
      rcases initialFrames_meta hframes with ⟨hfork', hoff, -, -⟩
      refine ⟨hfork'.trans hfork, hkept.incarnation.trans hinc, ?_⟩
      rw [hoff]
      exact (hkept.reaches (hreach hpresent hinc)).mono hle
  · cases hj
  · rcases hnext j hj with rfl | ⟨fork, rfl⟩ <;> trivial

def Instr.source? : Instr → Option StreamMetadata
  | .incrRef source _ _ | .create source _ _ => some source
  | _ => none

theorem exec_source (h : exec c w i ch = some (w', next, e)) :
    ∀ j ∈ next, j.source? = some source → i.source? = some source ∨ e = .fetched source := by
  intro j hj hs
  rcases exec_next h with ⟨source', o, pfx, -, -, -, rfl, rfl⟩ |
    ⟨source', md, pfx, n, k, rfl, -, -, rfl, -⟩ | ⟨_, _, _, _, -, -, -, rfl, -⟩ | ⟨hnext, -⟩
  · rw [List.mem_singleton.mp hj] at hs
    cases hs
    exact .inr rfl
  · dsimp only [incrNext] at hj
    split at hj <;> rw [List.mem_singleton.mp hj] at hs <;> cases hs
    exact .inl rfl
  · cases hj
  · rcases hnext j hj with rfl | ⟨fork, rfl⟩ <;> cases hs

theorem exec_created (h : exec c w i ch = some (w', next, .created source md)) :
    (∃ frames, i = .create source md frames) ∧ next = [] ∧ w'.source = w.source ∧
      w'.issued = w.issued ∧ w'.fork.info = metaToFields md := by
  rcases exec_next h with ⟨_, _, _, -, -, -, ⟨⟩, -⟩ | ⟨_, _, _, _, _, -, -, -, -, ⟨⟩⟩ |
    ⟨source', md', frames, k, rfl, hk, rfl, rfl, he⟩ | ⟨-, ⟨⟩⟩
  cases he
  exact ⟨⟨frames, rfl⟩, rfl, rfl, rfl, createScript_created hk⟩

end Steps

section Runs

variable {P : World → Instr → Choice → Bool}

abbrev Conf := Threads.State World Instr

/-- The creation of the fork and the other clients interleave, and every step meets a condition. -/
abbrev Interleaving (c : Creation) (P : World → Instr → Choice → Bool) :=
  Threads.Step (exec c) (fun p => starts p = true) fun w i ch => P w i ch = true

/-- The references that are held are counted, where the fork may hold one by itself. -/
structure Inv (c : Creation) (held : ℕ) (st : Conf) : Prop where
  sane : Sane st.world
  refs : ∃ n, refCountOf st.world.source.info = some n ∧ ((st.count holder + held : ℕ) : ℤ) ≤ n
  alone : st.count ours + held ≤ 1
  sound : ∀ i, st.Pending i → Sound c st.world i

theorem starts_spec {p : List Instr} (h : starts p = true) :
    p.countP holder = 0 ∧ p.countP ours = 0 ∧
      (∀ w, ∀ j ∈ p, Sound c w j) ∧ ∀ j ∈ p, j.source? = none := by
  unfold starts at h
  split at h <;> first
    | exact ⟨rfl, rfl, by simp [Sound], by simp [Instr.source?]⟩
    | cases h

theorem Inv.run_step {held : ℕ} {w w' : World} {ts₁ ts₂ : List (List Instr)} {i : Instr}
    {p next : List Instr} {ch : Choice} {e : Observation}
    (h : Inv c held ⟨w, ts₁ ++ (i :: p) :: ts₂⟩) (hexec : exec c w i ch = some (w', next, e))
    (hP : settled w i ch = true) :
    Inv c held ⟨w', ts₁ ++ (next ++ p) :: ts₂⟩ ∧ (0 < held → Kept w.source w'.source ∧
      w'.fork = w.fork) := by
  have hsane : Sane w := h.sane
  obtain ⟨n, hn, hle⟩ : ∃ n, refCountOf w.source.info = some n ∧ _ ≤ n := h.refs
  have hhead : Threads.State.Pending ⟨w, ts₁ ++ (i :: p) :: ts₂⟩ i := Threads.pending_head
  have hpos (hi : holder i = true) : 1 ≤ n := by
    have := hhead.count_pos hi
    omega
  rcases exec_moved hsane hn hpos hP hexec with ⟨d, hmoved, hsub, hholder, hours, hfork⟩
  have hcount (q : Instr → Bool) : Threads.State.count ⟨w', ts₁ ++ (next ++ p) :: ts₂⟩ q + _ =
    Threads.State.count ⟨w, ts₁ ++ (i :: p) :: ts₂⟩ q + _ := Threads.count_run q
  have hrefs : ((Threads.State.count ⟨w', ts₁ ++ (next ++ p) :: ts₂⟩ holder + held : ℕ) : ℤ) ≤
      n + d := by
    have := hcount holder
    split at hholder <;> simp_all <;> omega
  refine ⟨⟨hsane.moved hmoved hsub, hmoved.refs hn hrefs, ?_, fun j hj => ?_⟩, fun hheld => ?_⟩
  · have hold : _ + held ≤ 1 := h.alone
    have := hcount ours
    omega
  · rcases Threads.pending_origin hj with hnew | hold
    · exact exec_sound hsane (h.sound i hhead) hP hexec j hnew
    · refine (h.sound j hold).moved hmoved hsub hn fun hholds => ?_
      have := hj.count_pos hholds
      omega
  · refine ⟨hmoved.held hn (by omega), hfork.resolve_right fun hi => ?_⟩
    have := hhead.count_pos hi
    have hold : _ + held ≤ 1 := h.alone
    omega

variable {st st' : Conf} {e : Option Observation}

theorem Inv.step {held : ℕ} (h : Inv c held st) (hstep : Interleaving c settled st e st') :
    Inv c held st' := by
  cases hstep with
  | @start w ts p hp =>
    rcases starts_spec (c := c) hp with ⟨hholder, hours, hsound, -⟩
    refine ⟨h.sane, ?_, ?_, fun j hj => ?_⟩
    · rw [Threads.count_start, hholder, Nat.zero_add]
      exact h.refs
    · rw [Threads.count_start, hours, Nat.zero_add]
      exact h.alone
    · rcases Threads.pending_start.mp hj with hj | hj
      · exact hsound w j hj
      · exact h.sound j hj
  | run hexec hP => exact (h.run_step hexec hP).1

theorem Inv.created {md : StreamMetadata} (h : Inv c 0 st)
    (hstep : Interleaving c settled st (some (.created source md)) st') :
    Inv c 1 st' ∧ md.forkedFrom = c.opts.forkedFrom ∧ Anchored st'.world.source source md ∧
      st'.world.fork.info = metaToFields md := by
  cases hstep with
  | @run w w' ts₁ ts₂ i p ch next _ hexec hP =>
    rcases exec_created hexec with ⟨⟨frames, rfl⟩, rfl, hsource, -, hfork⟩
    have hnext := (h.run_step hexec hP).1
    have hcount (q : Instr → Bool) : Threads.State.count ⟨w', ts₁ ++ ([] ++ p) :: ts₂⟩ q + _ =
      Threads.State.count ⟨w, ts₁ ++ (.create source md frames :: p) :: ts₂⟩ q + _ :=
      Threads.count_run q
    obtain ⟨hname, hanchored⟩ : Sound c w (.create source md frames) :=
      h.sound _ Threads.pending_head
    obtain ⟨n, hn, hle⟩ : ∃ n, refCountOf w.source.info = some n ∧ _ ≤ n := h.refs
    refine ⟨⟨hnext.sane, ⟨n, ?_, ?_⟩, ?_, hnext.sound⟩, hname, ?_, hfork⟩
    · rw [← hn, ← hsource]
    · have := hcount holder
      simp only [holder, if_true, List.countP_nil] at this
      omega
    · have := hcount ours
      have hold : _ + 0 ≤ 1 := h.alone
      simp only [ours, if_true, List.countP_nil] at this
      omega
    · rw [← hsource] at hanchored
      exact hanchored

/-- Every instruction works with metadata that was fetched. -/
def Known (hist : List (Option Observation)) (st : Conf) : Prop :=
  ∀ i source, st.Pending i → i.source? = some source → some (.fetched source) ∈ hist

theorem Known.step {hist : List (Option Observation)} (h : Known hist st)
    (hstep : Interleaving c P st e st') :
    Known (hist ++ [e]) st' := by
  intro j source hj hs
  rw [List.mem_append, List.mem_singleton]
  cases hstep with
  | start hp =>
    rcases Threads.pending_start.mp hj with hj | hj
    · rw [(starts_spec (c := c) hp).2.2.2 j hj] at hs
      cases hs
    · exact .inl (h j source hj hs)
  | run hexec hP =>
    rcases Threads.pending_origin hj with hnew | hold
    · rcases exec_source hexec j hnew hs with hi | he
      · exact .inl (h _ source Threads.pending_head hi)
      · exact .inr (by rw [he])
    · exact .inl (h j source hold hs)

/-- What later states keep of a fork that was created, and of its source. -/
structure Later (source md : StreamMetadata) (w w' : World) : Prop where
  anchored : Anchored w'.source source md
  below : ∀ o ≤ md.forkOffset, o.Small → SameBelow w.source w'.source o
  fork : w'.fork = w.fork

theorem Inv.later {md : StreamMetadata} {w₀ : World} (h : Inv c 1 st)
    (hlater : Later source md w₀ st.world) (hstep : Interleaving c settled st e st') :
    Later source md w₀ st'.world := by
  cases hstep with
  | start hp => exact hlater
  | @run w w' ts₁ ts₂ i p ch next e hexec hP =>
    rcases (h.run_step hexec hP).2 Nat.one_pos with ⟨hkept, hfork⟩
    refine ⟨hkept.anchored hlater.anchored, fun o ho hsmall => ?_, hfork.trans hlater.fork⟩
    rcases hlater.anchored.reaches.mono ho with ⟨t, ht, hle⟩
    rcases hkept.grows t ht with ⟨-, -, -, hsame⟩
    exact (hsame o hle hsmall).trans (hlater.below o ho hsmall)

/-- A fork that was created keeps naming a source of the incarnation whose metadata was fetched;
its fork offset is not behind the tail of the source, what the source holds up to the fork offset
is what it held when the fork was created, and reads up to there return nothing else. -/
theorem fork_anchored {w : World} {h₁ h₂ : List (Option Observation)} {st₁ st₂ st₃ : Conf}
    {source md : StreamMetadata} (hfork : c.opts.forkedFrom ≠ []) (hsane : Sane w)
    (hrefs : ∃ n, refCountOf w.source.info = some n ∧ 0 ≤ n)
    (hrun : Trace.Run (Interleaving c settled) ⟨w, [[.fetchMeta]]⟩ h₁ st₁)
    (hcreated : Interleaving c settled st₁ (some (.created source md)) st₂)
    (hlater : Trace.Run (Interleaving c settled) st₂ h₂ st₃) :
    some (.fetched source) ∈ h₁ ∧
    st₃.world.fork.info .forkedFrom = some c.opts.forkedFrom ∧
    st₃.world.fork.info .forkOff = some md.forkOffset.string ∧
    decodeIncarnation st₃.world.source.info = source.incarnation ∧
    Reaches st₃.world.source md.forkOffset ∧
    (∀ o ≤ md.forkOffset, o.Small → SameBelow st₂.world.source st₃.world.source o) ∧
    ∀ seg members, seg.upper ≤ md.forkOffset → seg.upper.Small →
      Returns st₃.world.source seg members → ∀ x ∈ members, x ∈ st₂.world.source.msg := by
  have hinit : Inv c 0 ⟨w, [[.fetchMeta]]⟩ := by
    refine ⟨hsane, hrefs, le_rfl, fun i hi => ?_⟩
    rcases hi with ⟨p, hp, hi⟩
    rw [List.mem_singleton.mp hp, List.mem_singleton] at hi
    subst hi
    trivial
  have hknown : Known h₁ st₁ := by
    refine hrun.induct (I := Known) ?_ fun _ _ _ _ _ hi hstep => hi.step hstep
    rintro i source' ⟨p, hp, hi⟩ hs
    rw [List.mem_singleton.mp hp, List.mem_singleton] at hi
    subst hi
    cases hs
  have hinv : Inv c 0 st₁ := hrun.invariant hinit fun _ _ _ h hstep => h.step hstep
  rcases hinv.created hcreated with ⟨hinv₂, hname, hanchored, hinfo⟩
  have hfetched : some (.fetched source) ∈ h₁ := by
    cases hcreated with
    | run hexec _ =>
      rcases exec_created hexec with ⟨⟨frames, rfl⟩, -⟩
      exact hknown _ source Threads.pending_head rfl
  have hstart : Later source md st₂.world st₂.world :=
    ⟨hanchored, fun _ _ _ => rfl, rfl⟩
  have hend : Inv c 1 st₃ ∧ Later source md st₂.world st₃.world :=
    hlater.invariant (I := fun st => Inv c 1 st ∧ Later source md st₂.world st.world)
      ⟨hinv₂, hstart⟩ fun _ _ _ h hstep => ⟨h.1.step hstep, h.1.later h.2 hstep⟩
  have hkeys : st₃.world.fork.info = metaToFields md := by rw [hend.2.fork, hinfo]
  refine ⟨hfetched, ?_, ?_, hend.2.anchored.incarnation, hend.2.anchored.reaches, hend.2.below,
    fun seg members hle hsmall hr => (hend.2.below seg.upper hle hsmall).returns hr⟩
  · rw [hkeys, metaToFields, nonEmpty, hname, if_neg hfork]
  · rw [hkeys, metaToFields, hname, if_neg hfork]

/-- Play turns as long as the steps meet a condition. -/
def played (c : Creation) (P : World → Instr → Choice → Bool) (st : Conf)
    (turns : List (Threads.Turn Instr Choice))
    (h : (Trace.execAll (Threads.turn (exec c) starts P) st turns).isSome) :
    List (Option Observation) × Conf :=
  Trace.executed (Threads.turn (exec c) starts P) st turns h

theorem played_run {turns : List (Threads.Turn Instr Choice)}
    (h : (Trace.execAll (Threads.turn (exec c) starts P) st turns).isSome) :
    Trace.Run (Interleaving c P) st (played c P st turns h).1 (played c P st turns h).2 :=
  Trace.executed_run Threads.turn_step h

def racingFork : Creation :=
  { path := [98], opts := { forkedFrom := [97] }, incarnation := [50], createdAt := 1 }

def racedMeta : StreamMetadata :=
  { MemoryStore.plainMetadata [97] [49] 1 {} with currentOffset := zeroOffset.add 1 }

def racedWorld : World where
  source := { info := metaToFields racedMeta, msg := [encodeFrame (zeroOffset.add 1) [120]] }
  fork := {}
  issued := {[49]}

theorem racedWorld_sane : Sane racedWorld where
  tail v h := ⟨_, (Option.some.inj h).symm⟩
  absent h := by cases h
  issued _ := by decide

def anchorTurns : List (Threads.Turn Instr Choice) :=
  [.run 0 {}, .start [.append [121] {} (zeroOffset.add 1) octetStream], .run 0 {}, .run 1 {}]

theorem anchorTurns_run :
    (Trace.execAll (Threads.turn (exec racingFork) starts settled)
      ⟨racedWorld, [[.fetchMeta]]⟩ anchorTurns).isSome := by
  decide

def anchorConf : Conf :=
  (played racingFork settled ⟨racedWorld, [[.fetchMeta]]⟩ anchorTurns anchorTurns_run).2

def anchoredConf : Conf :=
  ((Threads.turn (exec racingFork) starts settled anchorConf (.run 1 {})).get (by decide)).2

def markTurns : List (Threads.Turn Instr Choice) := [.start [.delete], .run 0 {}]

theorem markTurns_run :
    (Trace.execAll (Threads.turn (exec racingFork) starts settled) anchoredConf
      markTurns).isSome := by
  decide

def racedForkMeta : StreamMetadata :=
  MemoryStore.forkMetadata [98] [50] 1 racingFork.opts racedMeta (zeroOffset.add 1)

theorem anchoredConf_step :
    Interleaving racingFork settled anchorConf (some (.created racedMeta racedForkMeta))
      anchoredConf :=
  Threads.turn_step anchorConf (.run 1 {}) _ _ (by rfl)

theorem fork_anchored_append :
    (played racingFork settled anchoredConf markTurns markTurns_run).2.world.source.info .softDel =
      some one ∧
    Reaches (played racingFork settled anchoredConf markTurns markTurns_run).2.world.source
      (zeroOffset.add 1) := by
  have h := fork_anchored (by decide) racedWorld_sane ⟨0, by decide⟩ (played_run anchorTurns_run)
    anchoredConf_step (played_run markTurns_run)
  exact ⟨by decide, h.2.2.2.2.1⟩

def astrayTurns : List (Threads.Turn Instr Choice) :=
  [.run 0 {}, .start [.delete], .run 0 {}, .start [.recreate {} none []],
    .run 0 { incarnation := [51] }, .run 2 {}]

theorem astrayTurns_run :
    (Trace.execAll (Threads.turn (exec racingFork) starts fun _ _ _ => true)
      ⟨racedWorld, [[.fetchMeta]]⟩ astrayTurns).isSome := by
  decide

def astrayConf : Conf :=
  (played racingFork (fun _ _ _ => true) ⟨racedWorld, [[.fetchMeta]]⟩ astrayTurns
    astrayTurns_run).2

def forkedAstray : Conf :=
  ((Threads.turn (exec racingFork) starts (fun _ _ _ => true) astrayConf (.run 2 {})).get
    (by decide)).2

theorem forkedAstray_step :
    Interleaving racingFork (fun _ _ _ => true) astrayConf
      (some (.created racedMeta racedForkMeta)) forkedAstray :=
  Threads.turn_step astrayConf (.run 2 {}) _ _ (by rfl)

def intrudeTurns : List (Threads.Turn Instr Choice) :=
  [.start [.append [121] {} zeroOffset octetStream], .run 0 {}]

theorem intrudeTurns_run :
    (Trace.execAll (Threads.turn (exec racingFork) starts fun _ _ _ => true) forkedAstray
      intrudeTurns).isSome := by
  decide

/-- The fork offset is behind the tail of the source, which has another incarnation, and what is
appended to the source afterwards is within the fork. -/
theorem fork_astray :
    Sane racedWorld ∧ refCountOf racedWorld.source.info = some 0 ∧
    ∃ h₁ st₁ st₂ h₂ st₃,
      Trace.Run (Interleaving racingFork fun _ _ _ => true) ⟨racedWorld, [[.fetchMeta]]⟩ h₁ st₁ ∧
      Interleaving racingFork (fun _ _ _ => true) st₁ (some (.created racedMeta racedForkMeta))
        st₂ ∧
      Trace.Run (Interleaving racingFork fun _ _ _ => true) st₂ h₂ st₃ ∧
      st₂.world.source.info .tail = some zeroOffset.string ∧
      zeroOffset < racedForkMeta.forkOffset ∧
      decodeIncarnation st₂.world.source.info ≠ racedMeta.incarnation ∧
      ¬ SameBelow st₂.world.source st₃.world.source racedForkMeta.forkOffset :=
  ⟨racedWorld_sane, by decide, _, astrayConf, forkedAstray, _, _, played_run astrayTurns_run,
    forkedAstray_step, played_run intrudeTurns_run, by decide, by decide, by decide, by decide⟩

end Runs

end Chronicle.Redis.ForkRace
