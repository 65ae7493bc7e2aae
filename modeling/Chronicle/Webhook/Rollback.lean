import Chronicle.Memory.Fences
import Chronicle.Webhook.Fencing

/-! # Granting a claim on all links

The manager grants the marker of a claim on one linked stream after the other.
When a grant fails it revokes what it has installed so far. A grant also renews
a marker that is there already, and the rollback does not tell the two apart.
-/

namespace Chronicle.Webhook

open MemoryStore Fencing

/-- The calls for one link: the grant, an error with which it may fail before it reaches the store,
and the revocation if there is one. -/
structure LinkCall where
  path : Path
  env : Env
  fault : Option StoreError := none
  undo : Env

inductive GrantFailure where
  | notLive
  | grant (position : ℕ) (err : StoreError)

section Loop

def grantLink (s : MemoryStore) (f : AppendFence) (c : LinkCall) :
    MemoryStore × Except StoreError Bool :=
  match c.fault with
  | some err => (s, .error err)
  | none => s.grantAppendFence c.env c.path f

def revokeGranted (f : AppendFence) (granted : List (Path × Env)) (s : MemoryStore) :
    MemoryStore :=
  granted.foldl (fun s (path, env) => (s.revokeAppendFence env path f).1) s

def grantLinks (f : AppendFence) (s : MemoryStore) (granted : List (Path × Env)) (position : ℕ) :
    List LinkCall → MemoryStore × Option GrantFailure
  | [] => (s, none)
  | c :: calls =>
    match grantLink s f c with
    | (s, .error err) => (revokeGranted f granted s, some (.grant position err))
    | (s, .ok installed) =>
      grantLinks f s (if installed then granted ++ [(c.path, c.undo)] else granted) (position + 1)
        calls

def grantWriteFences (s : MemoryStore) (now : Time) (id : Bytes) (cfg : Config) (fence : Fence)
    (calls : List LinkCall) : MemoryStore × Option GrantFailure :=
  let f := appendFenceFor id cfg fence
  if ¬ claimLive cfg fence now ∨ ¬ f.complete then (s, some .notLive)
  else grantLinks f s [] 0 calls

end Loop

variable {s s' : MemoryStore} {f : AppendFence} {p path : Path} {wall now : Time}

/-- The marker on a stream is live for exactly this claim at an instant. -/
def LiveFor (s : MemoryStore) (f : AppendFence) (wall now : Time) (path : Path) : Prop :=
  ∃ m, (s.marker path (fenceAuthority f) wall).2 = some m ∧ m.state = .live ∧
    m.generation = f.generation ∧ m.wakeID = f.wakeID ∧ m.holder = f.holder ∧ now < m.leaseUntilNs

def Present (s : MemoryStore) (path : Path) : Prop :=
  ∃ st, s.streams.lookup path = some st ∧ st.metadata.incarnation ≠ []

/-- A marker, if there is one, names this claim. -/
def Ours (s : MemoryStore) (f : AppendFence) (path : Path) : Prop :=
  ∀ m, s.markers path (fenceAuthority f) = some m → m.marker.generation = f.generation ∧
    m.marker.wakeID = f.wakeID ∧ m.marker.holder = f.holder

section Markers

theorem liveFor_congr (h : s'.markers path = s.markers path) :
    LiveFor s' f wall now path ↔ LiveFor s f wall now path := by
  have hmarker : (s'.marker path (fenceAuthority f) wall).2 =
      (s.marker path (fenceAuthority f) wall).2 := by
    unfold marker
    rw [h]
    split
    · rfl
    · split <;> rfl
  unfold LiveFor
  rw [hmarker]

theorem liveFor_kept {w : Time} (h : KeptAt s s' path (fenceAuthority f) w) (hw : w ≤ wall) :
    LiveFor s' f wall now path ↔ LiveFor s f wall now path := by
  have hmarker : (s'.marker path (fenceAuthority f) wall).2 =
      (s.marker path (fenceAuthority f) wall).2 := by
    unfold marker
    rcases h with heq | ⟨⟨m, hm, hlapsed⟩, hnone⟩
    · rw [heq]
      split
      · rfl
      · split <;> rfl
    · rw [hm, hnone]
      dsimp only
      rw [if_pos (hlapsed.trans_le hw)]
  unfold LiveFor
  rw [hmarker]

theorem marker_markers_ne (s : MemoryStore) (path : Path) (a : Bytes) (wall : Time) (hp : p ≠ path)
    :
    (s.marker path a wall).1.markers p = s.markers p := by
  unfold marker
  split
  · rfl
  split
  · exact Function.update_of_ne hp ..
  · rfl

theorem revoke_spec (hcomplete : f.complete = true) (env : Env) (h : Ours s f path) :
    (∀ p, p ≠ path → (s.revokeAppendFence env path f).1.markers p = s.markers p) ∧
    ∃ m, (s.revokeAppendFence env path f).1.markers path (fenceAuthority f) = some m ∧
      m.marker.state = .revoked ∧ m.marker.generation = f.generation ∧
      m.marker.wakeID = f.wakeID ∧ m.marker.holder = f.holder := by
  have hcur : ∀ m₀, (s.marker path (fenceAuthority f) (env.wall 0)).2 = some m₀ →
      m₀.generation = f.generation ∧ m₀.wakeID = f.wakeID ∧ m₀.holder = f.holder := by
    intro m₀ hm₀
    unfold marker at hm₀
    split at hm₀
    · cases hm₀
    rename_i m hm
    split at hm₀
    · cases hm₀
    · cases hm₀
      exact h m hm
  have hfresh : (s.marker path (fenceAuthority f) (env.wall 0)).2.any (fun m =>
      f.generation < m.generation || (f.generation = m.generation &&
        (m.wakeID ≠ f.wakeID || m.holder ≠ f.holder))) = false := by
    cases hc : (s.marker path (fenceAuthority f) (env.wall 0)).2 with
    | none => rfl
    | some m₀ =>
      rcases hcur m₀ hc with ⟨hgen, hwake, hholder⟩
      simp [hgen, hwake, hholder]
  unfold revokeAppendFence
  rw [if_neg (by simp [hcomplete])]
  unfold tombstone
  dsimp only
  rw [hfresh]
  constructor
  · intro p hp
    exact (Function.update_of_ne hp ..).trans (marker_markers_ne s path _ _ hp)
  · exact ⟨_, by rw [if_neg Bool.false_ne_true, putMarker_markers, if_pos ⟨rfl, rfl⟩], rfl, rfl, rfl,
      rfl⟩

theorem revoked_not_live {m : MemoryMarker}
    (hm : s.markers path (fenceAuthority f) = some m) (h : m.marker.state = .revoked) :
    ¬ LiveFor s f wall now path := by
  rintro ⟨m₀, hm₀, hlive, -⟩
  unfold marker at hm₀
  rw [hm] at hm₀
  dsimp only at hm₀
  split at hm₀
  · cases hm₀
  · cases hm₀
    rw [h] at hlive
    cases hlive

/-- A call on one stream leaves the markers on the others, and it leaves the streams. -/
structure Elsewhere (s s' : MemoryStore) (path : Path) : Prop where
  markers : ∀ p, p ≠ path → s'.markers p = s.markers p
  streams : ∀ p, Present s' p ↔ Present s p

theorem Elsewhere.refl (s : MemoryStore) (path : Path) : Elsewhere s s path :=
  ⟨fun _ _ => rfl, fun _ => .rfl⟩

theorem elsewhere_marker (s : MemoryStore) (path : Path) (a : Bytes) (w : Time) :
    Elsewhere s (s.marker path a w).1 path where
  markers p hp := marker_markers_ne s path a w hp
  streams p := by
    unfold Present
    rw [marker_streams]

theorem Elsewhere.set {st : MemoryStream} (h : Elsewhere s s' path)
    (hst : s'.streams.lookup path = some st) (a : Bytes) (g : ℤ) (wake : Bytes) :
    Elsewhere s (s'.set path (st.recordSeal a g wake).1) path where
  markers := h.markers
  streams p := by
    refine Iff.trans ?_ (h.streams p)
    unfold Present MemoryStore.set
    by_cases hp : p = path
    · subst hp
      simp [hst, MemoryStream.recordSeal]
    · simp only [Finmap.lookup_insert_of_ne _ hp]

theorem Elsewhere.put (h : Elsewhere s s' path) (a : Bytes) (m : Option MemoryMarker) :
    Elsewhere s (s'.putMarker path a m) path where
  markers p hp := (Function.update_of_ne hp ..).trans (h.markers p hp)
  streams := h.streams

theorem ours_put {m : MemoryMarker} (hgen : m.marker.generation = f.generation)
    (hwake : m.marker.wakeID = f.wakeID) (hholder : m.marker.holder = f.holder) :
    Ours (s.putMarker path (fenceAuthority f) (some m)) f path := by
  intro m₀ hm₀
  rw [putMarker_markers, if_pos ⟨rfl, rfl⟩] at hm₀
  cases hm₀
  exact ⟨hgen, hwake, hholder⟩

theorem Ours.kept {w : Time} (h : Ours s f path) (hkept : KeptAt s s' path (fenceAuthority f) w) :
    Ours s' f path := by
  intro m hm
  rcases hkept with heq | ⟨-, hnone⟩
  · exact h m (heq ▸ hm)
  · rw [hnone] at hm
    cases hm

theorem Ours.elsewhere (h : Ours s f p) (helse : Elsewhere s s' path) (hp : p ≠ path) :
    Ours s' f p := by
  rw [Ours, helse.markers p hp]
  exact h

variable {r : Except StoreError Bool}

theorem grant_spec {env : Env} (h : s.grantAppendFence env path f = (s', r)) :
    Elsewhere s s' path ∧
      ((∃ err, r = .error err) ∧ KeptAt s s' path (fenceAuthority f) (env.wall 0) ∨
        r = .ok false ∧ s' = s ∧ ¬ Present s path ∨
        r = .ok true ∧ Present s path ∧ Ours s' f path) := by
  have hreap := elsewhere_marker s path (fenceAuthority f) (env.wall 0)
  have hkept : KeptAt s (s.marker path (fenceAuthority f) (env.wall 0)).1 path (fenceAuthority f)
      (env.wall 0) := kept_marker _ _
  unfold grantAppendFence at h
  dsimp only at h
  split at h
  · cases h
    exact ⟨.refl .., .inl ⟨⟨_, rfl⟩, .inl rfl⟩⟩
  split at h
  · rename_i hnone
    cases h
    refine ⟨.refl .., .inr (.inl ⟨rfl, rfl, ?_⟩)⟩
    rintro ⟨st, hst, -⟩
    rw [hnone] at hst
    cases hst
  rename_i st hst
  split at h
  · rename_i hnil
    cases h
    refine ⟨.refl .., .inr (.inl ⟨rfl, rfl, ?_⟩)⟩
    rintro ⟨st₀, hst₀, hne⟩
    cases hst.symm.trans hst₀
    exact hne hnil
  rename_i hinc
  have hthere : Present s path := ⟨st, hst, hinc⟩
  split at h
  · cases h
    exact ⟨.refl .., .inl ⟨⟨_, rfl⟩, .inl rfl⟩⟩
  split at h
  · cases h
    exact ⟨hreap.put _ _, .inr (.inr ⟨rfl, hthere, ours_put rfl rfl rfl⟩)⟩
  split at h
  · cases h
    exact ⟨hreap, .inl ⟨⟨_, rfl⟩, hkept⟩⟩
  split at h
  · split at h
    · cases h
      exact ⟨hreap, .inl ⟨⟨_, rfl⟩, hkept⟩⟩
    · cases h
      exact ⟨hreap.put _ _, .inr (.inr ⟨rfl, hthere, ours_put rfl rfl rfl⟩)⟩
  split at h
  · cases h
    refine ⟨(hreap.set ?_ _ _ _).put _ _, .inr (.inr ⟨rfl, hthere, ours_put rfl rfl rfl⟩)⟩
    rw [marker_streams]
    exact hst
  · cases h
    exact ⟨hreap.put _ _, .inr (.inr ⟨rfl, hthere, ours_put rfl rfl rfl⟩)⟩

theorem grantLink_spec {c : LinkCall} (h : grantLink s f c = (s', r)) :
    Elsewhere s s' c.path ∧
      ((∃ err, r = .error err) ∧ KeptAt s s' c.path (fenceAuthority f) (c.env.wall 0) ∨
        r = .ok false ∧ s' = s ∧ ¬ Present s c.path ∨
        r = .ok true ∧ Present s c.path ∧ Ours s' f c.path) := by
  unfold grantLink at h
  split at h
  · cases h
    exact ⟨.refl .., .inl ⟨⟨_, rfl⟩, .inl rfl⟩⟩
  · exact grant_spec h

end Markers

section Rollback

variable {granted : List (Path × Env)} {calls : List LinkCall} {position : ℕ}

theorem revokeGranted_spec (hcomplete : f.complete = true)
    (h : ∀ g ∈ granted, Ours s f g.1) :
    (∀ p ∈ granted.map (·.1), ¬ LiveFor (revokeGranted f granted s) f wall now p) ∧
      ∀ p, p ∉ granted.map (·.1) → (revokeGranted f granted s).markers p = s.markers p := by
  induction granted generalizing s with
  | nil => exact ⟨by simp, fun _ _ => rfl⟩
  | cons g granted ih =>
    rcases g with ⟨path, env⟩
    rcases revoke_spec hcomplete env (h _ List.mem_cons_self) with
      ⟨hother, m, hm, hstate, hgen, hwake, hholder⟩
    change (∀ p ∈ _, ¬ LiveFor (revokeGranted f granted (s.revokeAppendFence env path f).1) f wall
      now p) ∧ ∀ p, p ∉ _ → (revokeGranted f granted (s.revokeAppendFence env path f).1).markers p = _
    generalize (s.revokeAppendFence env path f).1 = s₁ at hother hm ⊢
    have hours : ∀ g ∈ granted, Ours s₁ f g.1 := by
      intro g hg
      by_cases hp : g.1 = path
      · rw [hp]
        intro m₀ hm₀
        cases hm.symm.trans hm₀
        exact ⟨hgen, hwake, hholder⟩
      · rw [Ours, hother g.1 hp]
        exact h g (List.mem_cons_of_mem _ hg)
    rcases ih hours with ⟨hrevoked, hkept⟩
    constructor
    · intro p hp
      by_cases hmem : p ∈ granted.map (·.1)
      · exact hrevoked p hmem
      · obtain rfl : p = path := by
          simpa [hmem] using hp
        rw [liveFor_congr (hkept p hmem)]
        exact revoked_not_live hm hstate
    · intro p hp
      rw [List.map_cons, List.mem_cons, not_or] at hp
      exact (hkept p hp.2).trans (hother p hp.1)

theorem grantLinks_failed (hcomplete : f.complete = true) {err : StoreError} {n : ℕ}
    (hfail : grantLinks f s granted position calls = (s', some (.grant n err)))
    (hgranted : ∀ g ∈ granted, Ours s f g.1) (hlater : ∀ c ∈ calls, c.env.wall 0 ≤ wall) :
    ∃ j, n = position + j ∧ ∀ p,
      (p ∈ granted.map (·.1) ∨ (Present s p ∧ p ∈ (calls.take j).map (·.path)) →
        ¬ LiveFor s' f wall now p) ∧
      (p ∉ granted.map (·.1) → ¬ (Present s p ∧ p ∈ (calls.take j).map (·.path)) →
        (LiveFor s' f wall now p ↔ LiveFor s f wall now p)) := by
  induction calls generalizing s granted position with
  | nil => cases hfail
  | cons c calls ih =>
    unfold grantLinks at hfail
    rcases hlink : grantLink s f c with ⟨s₁, r⟩
    rw [hlink] at hfail
    rcases grantLink_spec hlink with
      ⟨helse, ⟨⟨err', rfl⟩, hkept⟩ | ⟨rfl, rfl, habsent⟩ | ⟨rfl, hthere, hours⟩⟩
    · -- this grant fails, and what was granted is revoked
      cases hfail
      have hours : ∀ g ∈ granted, Ours s₁ f g.1 := by
        intro g hg
        by_cases hp : g.1 = c.path
        · rw [hp]
          exact (hp ▸ hgranted g hg).kept hkept
        · exact (hgranted g hg).elsewhere helse hp
      have hlive : ∀ p, LiveFor s₁ f wall now p ↔ LiveFor s f wall now p := by
        intro p
        by_cases hp : p = c.path
        · subst hp
          exact liveFor_kept hkept (hlater c List.mem_cons_self)
        · exact liveFor_congr (helse.markers p hp)
      rcases revokeGranted_spec hcomplete hours with ⟨hrevoked, hrest⟩
      refine ⟨0, rfl, fun p => ⟨?_, ?_⟩⟩
      · rintro (hmem | ⟨-, hmem⟩)
        · exact hrevoked p hmem
        · cases hmem
      · intro hmem _
        rw [liveFor_congr (hrest p hmem), hlive]
    · -- there is no stream to grant the claim on
      rcases ih hfail hgranted fun c hc => hlater c (List.mem_cons_of_mem _ hc) with ⟨j, rfl, hj⟩
      refine ⟨j + 1, by omega, fun p => ?_⟩
      have hiff : (Present s₁ p ∧ p ∈ ((c :: calls).take (j + 1)).map (·.path)) ↔
          Present s₁ p ∧ p ∈ (calls.take j).map (·.path) := by
        rw [List.take_succ_cons, List.map_cons, List.mem_cons]
        constructor
        · rintro ⟨hpresent, rfl | hmem⟩
          · exact absurd hpresent habsent
          · exact ⟨hpresent, hmem⟩
        · rintro ⟨hpresent, hmem⟩
          exact ⟨hpresent, .inr hmem⟩
      rw [hiff]
      exact hj p
    · -- the claim is granted, and later grants leave this stream
      have hours' : ∀ g ∈ granted ++ [(c.path, c.undo)], Ours s₁ f g.1 := by
        intro g hg
        by_cases hp : g.1 = c.path
        · rw [hp]
          exact hours
        · rw [List.mem_append, List.mem_singleton] at hg
          rcases hg with hg | rfl
          · exact (hgranted g hg).elsewhere helse hp
          · exact absurd rfl hp
      rcases ih hfail hours' fun c hc => hlater c (List.mem_cons_of_mem _ hc) with ⟨j, rfl, hj⟩
      refine ⟨j + 1, by omega, fun p => ?_⟩
      have hiff : (p ∈ granted.map (·.1) ∨
            Present s p ∧ p ∈ ((c :: calls).take (j + 1)).map (·.path)) ↔
          p ∈ (granted ++ [(c.path, c.undo)]).map (·.1) ∨
            Present s₁ p ∧ p ∈ (calls.take j).map (·.path) := by
        rw [helse.streams p, List.take_succ_cons, List.map_cons, List.mem_cons, List.map_append,
          List.mem_append, List.map_singleton, List.mem_singleton]
        constructor
        · rintro (hmem | ⟨hpresent, rfl | hmem⟩)
          · exact .inl (.inl hmem)
          · exact .inl (.inr rfl)
          · exact .inr ⟨hpresent, hmem⟩
        · rintro ((hmem | rfl) | ⟨hpresent, hmem⟩)
          · exact .inl hmem
          · exact .inr ⟨hthere, .inl rfl⟩
          · exact .inr ⟨hpresent, .inr hmem⟩
      constructor
      · intro hmem
        exact (hj p).1 (hiff.mp hmem)
      · intro hmem hnot
        have hor := mt hiff.mpr (not_or.mpr ⟨hmem, hnot⟩)
        rw [not_or] at hor
        rw [(hj p).2 hor.1 hor.2]
        refine liveFor_congr (helse.markers p ?_)
        rintro rfl
        exact hor.1 (by simp)

theorem grantLinks_live : grantLinks f s granted position calls ≠ (s', some .notLive) := by
  induction calls generalizing s granted position with
  | nil => simp [grantLinks]
  | cons c calls ih =>
    unfold grantLinks
    split
    · simp
    · exact ih

def GrantFailure.before (calls : List LinkCall) : GrantFailure → List LinkCall
  | .notLive => []
  | .grant n _ => calls.take n

/-- A round of grants that fails leaves the claim live exactly where it was live before, unless
one of the streams that were granted before the failure had a live marker for the claim already. -/
theorem grant_rollback_iff {nowNs : Time} {id : Bytes} {cfg : Config} {fence : Fence}
    {failure : GrantFailure}
    (hfail : grantWriteFences s nowNs id cfg fence calls = (s', some failure))
    (hlater : ∀ c ∈ calls, c.env.wall 0 ≤ wall) :
    (∀ c ∈ calls, LiveFor s' (appendFenceFor id cfg fence) wall now c.path ↔
      LiveFor s (appendFenceFor id cfg fence) wall now c.path) ↔
    ∀ c ∈ failure.before calls,
      ¬ (LiveFor s (appendFenceFor id cfg fence) wall now c.path ∧ Present s c.path) := by
  unfold grantWriteFences at hfail
  dsimp only at hfail
  generalize appendFenceFor id cfg fence = f at hfail ⊢
  split at hfail
  · cases hfail
    simp [GrantFailure.before]
  rename_i hready
  have hcomplete : f.complete = true := by
    rw [not_or, not_not, not_not] at hready
    exact hready.2
  rcases failure with _ | ⟨n, err⟩
  · exact absurd hfail grantLinks_live
  rcases grantLinks_failed hcomplete hfail (by simp) hlater with ⟨j, hn, hleft⟩
  rw [Nat.zero_add] at hn
  subst hn
  have hmem : ∀ c ∈ calls.take n, c ∈ calls := fun c hc => List.mem_of_mem_take hc
  constructor
  · rintro hlaw c hc ⟨hlive, hpresent⟩
    refine (hleft c.path).1 (.inr ⟨hpresent, List.mem_map_of_mem hc⟩) ?_
    exact (hlaw c (hmem c hc)).mpr hlive
  · intro hcond c hc
    by_cases hgranted : Present s c.path ∧ c.path ∈ (calls.take n).map (·.path)
    · have hdead := (hleft c.path).1 (.inr hgranted)
      rcases List.mem_map.mp hgranted.2 with ⟨c', hc', heq⟩
      refine iff_of_false hdead fun hlive => hcond c' hc' ⟨?_, ?_⟩
      · rwa [heq]
      · rw [heq]
        exact hgranted.1
    · exact (hleft c.path).2 (by simp) hgranted

def heartbeatConfig : Config :=
  { cfgHash := [99], type := .pullWake, pattern := [], leaseTtlMs := 1, owner := [111] }

def heartbeatFence : Fence :=
  { incarnation := [49], phase := .live, generation := 1, wakeId := [7], holder := true
    holderWorker := [119], leaseUntilNs := 100 }

def heartbeatClaim : AppendFence := appendFenceFor [115] heartbeatConfig heartbeatFence

def heartbeatCalls : List LinkCall :=
  [{ path := [97], env := .frozen 50, undo := .frozen 50 },
    { path := [98], env := .frozen 50, undo := .frozen 50 }]

def sealedCalls : List (Env × Chronicle.Call) :=
  [(.frozen 1, .create [97] {}), (.frozen 1, .create [98] { writeFence := true }),
    (.frozen 2, .sealAppendFence [98] heartbeatClaim)]

theorem sealedCalls_run : (empty.execGuarded (fun _ _ => true) sealedCalls).isSome := by decide

def renewedCalls : List (Env × Chronicle.Call) :=
  sealedCalls ++ [(.frozen 3, .grantAppendFence [97] heartbeatClaim)]

theorem renewedCalls_run : (empty.execGuarded (fun _ _ => true) renewedCalls).isSome := by decide

def grantFailed (s : MemoryStore) : MemoryStore × Option GrantFailure :=
  grantWriteFences s 50 [115] heartbeatConfig heartbeatFence heartbeatCalls

theorem grant_rollback_iff_sealed :
    (grantFailed (ran _ sealedCalls sealedCalls_run).2).2 = some (.grant 1 .appendFenced) ∧
      ∀ c ∈ heartbeatCalls,
        (LiveFor (grantFailed (ran _ sealedCalls sealedCalls_run).2).1 heartbeatClaim 50 50 c.path ↔
          LiveFor (ran _ sealedCalls sealedCalls_run).2 heartbeatClaim 50 50 c.path) := by
  have hfail : (grantFailed (ran _ sealedCalls sealedCalls_run).2).2 =
      some (.grant 1 .appendFenced) := by rfl
  refine ⟨hfail, (grant_rollback_iff (Prod.ext rfl hfail) (by decide)).mpr ?_⟩
  rintro c hc ⟨⟨m, hm, -⟩, -⟩
  obtain rfl := List.mem_singleton.mp hc
  have hnone : ((ran _ sealedCalls sealedCalls_run).2.marker [97] (fenceAuthority heartbeatClaim)
    50).2 = none := by decide
  exact absurd (hnone.symm.trans hm) (by simp)

/-- A heartbeat renews the marker on the first stream, the second grant is refused, and the rollback
takes the marker away that was live before. -/
theorem grant_revokes_live :
    ∃ s : MemoryStore, (grantFailed s).2 = some (.grant 1 .appendFenced) ∧
      LiveFor s heartbeatClaim 50 50 [97] ∧ ¬ LiveFor (grantFailed s).1 heartbeatClaim 50 50 [97] :=
    by
  refine ⟨(ran _ renewedCalls renewedCalls_run).2, rfl, ?_, ?_⟩
  · exact ⟨_, rfl, rfl, rfl, rfl, rfl, by decide⟩
  · exact revoked_not_live rfl rfl

end Rollback

end Chronicle.Webhook
