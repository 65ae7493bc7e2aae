import Chronicle.Webhook.Index
import Chronicle.Webhook.System

/-! # Provenance of links

A link is seeded by the creation of its subscription, requested explicitly, or
made because the pattern of the subscription matches. A caller that makes links
for a pattern has read the subscription before, and the script that links does
not look at the subscription again.
-/

namespace Chronicle.Webhook

open Chronicle.Webhook.Sub

/-- A link that is not authorised is made while the subscription exists, in the incarnation that
its caller has read if it has read one. -/
def linksCurrent (w : World) (i : Instr) (_ : Choice) : Bool :=
  match i with
  | .link id a seen => a.expected.isSome || ((w.subs id).parent.isSome &&
      seen.all fun incarnation => (w.subs id).currentIncarnation = some incarnation)
  | _ => true

/-- Why a path is among the links of the subscription in its present incarnation: it was seeded by
the creation, it was linked explicitly, or the pattern matches it. -/
def Justified (h : List (Option Linking)) (id : Bytes) (cfg : Config) (incarnation : Bytes)
    (path : Path) : Prop :=
  (∃ a streams, some { instr := .create id a streams, incarnation := some incarnation } ∈ h ∧
    path ∈ a.links.map Prod.fst) ∨
  (∃ a seen, some { instr := .link id a seen, incarnation := some incarnation } ∈ h ∧
    a.linkType = .explicit ∧ a.path = path) ∨
  cfg.pattern ≠ [] ∧ globMatch cfg.pattern path = true

variable {incarnation : Bytes} {h : List (Option Linking)}

theorem Justified.snoc {id : Bytes} {cfg : Config} {path : Path}
    (hj : Justified h id cfg incarnation path) (e : Option Linking) :
    Justified (h ++ [e]) id cfg incarnation path := by
  rcases hj with ⟨a, streams, hmem, hpath⟩ | ⟨a, seen, hmem, htype, hpath⟩ | hpattern
  · exact .inl ⟨a, streams, List.mem_append_left _ hmem, hpath⟩
  · exact .inr (.inl ⟨a, seen, List.mem_append_left _ hmem, htype, hpath⟩)
  · exact .inr (.inr hpattern)

section Evolves

variable {s s' : Sub}

/-- How a subscription can change: it stays, it is deleted, or it gets a new incarnation. -/
def Evolves (s s' : Sub) : Prop :=
  s.incarnations ≤ s'.incarnations ∧
    (s'.parent = s.parent ∨ s'.parent = none ∨
      s'.incarnations = s.incarnations + 1 ∧
        ∃ cfg f, s'.parent = some (cfg, f) ∧
          f.incarnation = Decimal.formatNat (s.incarnations + 1))

theorem Evolves.refl (s : Sub) : Evolves s s := ⟨le_rfl, .inl rfl⟩

theorem createSub_parent {a : CreateArgs} {owner : Bytes}
    (h : s.createSub a = (s', .created owner)) :
    s.parent = none ∧ s'.incarnations = s.incarnations + 1 ∧
      s'.parent = some (a.config, { incarnation := Decimal.formatNat (s.incarnations + 1) }) := by
  unfold createSub at h
  split at h
  · split at h <;> cases h
  · cases h
    exact ⟨‹_›, rfl, rfl⟩

theorem linkStream_parent {a : LinkArgs} {r : LinkReply} (h : s.linkStream a = (s', r)) :
    s'.parent = s.parent ∧ s'.incarnations = s.incarnations := by
  rcases s.linkStream_keys a with ⟨l, hl⟩
  rw [h] at hl
  dsimp only at hl
  rw [hl]
  exact ⟨rfl, rfl⟩

theorem unlinkStream_parent {a : UnlinkArgs} {r : UnlinkReply} (h : s.unlinkStream a = (s', r)) :
    s'.parent = s.parent ∧ s'.incarnations = s.incarnations := by
  rcases s.unlinkStream_keys a with ⟨l, hl⟩
  rw [h] at hl
  dsimp only at hl
  rw [hl]
  exact ⟨rfl, rfl⟩

theorem deleteSub_parent {x : Option Expectation} (h : s.deleteSub x = (s', .ok)) :
    s'.parent = none ∧ s'.incarnations = s.incarnations := by
  unfold deleteSub at h
  split at h <;> cases h
  exact ⟨rfl, rfl⟩

variable {w w' : World} {i : Instr} {c : Choice} {k : List Instr} {e : Linking} {id : Bytes}

theorem Ran.evolves (h : Ran w c i w' k e) (id : Bytes) : Evolves (w.subs id) (w'.subs id) := by
  by_cases hid : i.writes = some id
  · cases h with
    | created h =>
      cases hid
      rcases createSub_parent h with ⟨-, hn, hp⟩
      rw [set_subs_self]
      exact ⟨by omega, .inr (.inr ⟨hn, _, _, hp, rfl⟩)⟩
    | linked h =>
      cases hid
      rcases linkStream_parent h with ⟨hp, hn⟩
      rw [set_subs_self]
      exact ⟨hn.ge, .inl hp⟩
    | unlinked h =>
      cases hid
      rcases unlinkStream_parent h with ⟨hp, hn⟩
      rw [set_subs_self]
      exact ⟨hn.ge, .inl hp⟩
    | deleted h =>
      cases hid
      rcases deleteSub_parent h with ⟨hp, hn⟩
      rw [set_subs_self]
      exact ⟨hn.ge, .inr (.inl hp)⟩
    | refused => exact .refl _
    | read | listed | stale | scanned | found | sent => cases hid
  · rw [h.others hid]
    exact .refl _

theorem Evolves.stamped (h : Evolves s s') (hs : Stamped s) : Stamped s' := by
  rcases h with ⟨hle, hp | hp | ⟨hn, cfg₀, f₀, hp, hinc⟩⟩
  · intro cfg f hf
    rcases hs cfg f (hp ▸ hf) with ⟨n, hpos, hn, heq⟩
    exact ⟨n, hpos, hn.trans hle, heq⟩
  · intro cfg f hf
    rw [hp] at hf
    cases hf
  · intro cfg f hf
    rw [hp] at hf
    cases hf
    exact ⟨_, Nat.succ_pos _, hn.ge, hinc⟩

end Evolves

/-- A caller that has read an incarnation makes links that its pattern matches. -/
def Seen (s : Sub) (path : Path) (incarnation : Bytes) : Prop :=
  (∃ n, n ≤ s.incarnations ∧ incarnation = Decimal.formatNat n) ∧
    ∀ cfg f, s.parent = some (cfg, f) → f.incarnation = incarnation →
      cfg.pattern ≠ [] ∧ globMatch cfg.pattern path = true

theorem Seen.evolves {s s' : Sub} {path : Path} (h : Seen s path incarnation)
    (he : Evolves s s') : Seen s' path incarnation := by
  rcases h with ⟨⟨n, hn, rfl⟩, hmatch⟩
  refine ⟨⟨n, hn.trans he.1, rfl⟩, ?_⟩
  intro cfg f hp hinc
  rcases he.2 with hsame | hnone | ⟨-, cfg₀, f₀, hp₀, hinc₀⟩
  · exact hmatch cfg f (hsame ▸ hp) hinc
  · rw [hnone] at hp
    cases hp
  · -- a new incarnation has a number that nobody has read
    rw [hp₀] at hp
    cases hp
    have heq := Decimal.formatNat_injective (hinc₀.symm.trans hinc)
    omega

theorem mem_globLinks {id pattern : Bytes} {streams : List (Path × Bytes)} {i : Instr}
    (h : i ∈ globLinks id pattern incarnation streams) :
    ∃ a, i = .link id a (some incarnation) ∧ a.expected = none ∧ pattern ≠ [] ∧
      globMatch pattern a.path = true := by
  unfold globLinks at h
  split at h
  · cases h
  rename_i hne
  rcases List.mem_map.mp h with ⟨⟨path, offset⟩, hmem, rfl⟩
  exact ⟨_, rfl, rfl, hne, by simpa using (List.mem_filter.mp hmem).2⟩

/-- What holds of the links after a history in which links are made for the present. -/
structure Provenance (h : List (Option Linking)) (st : Conf) : Prop where
  stamped : ∀ id, Stamped (st.world.subs id)
  /-- A subscription that is gone has no links that a later one could inherit. -/
  gone : ∀ id, (st.world.subs id).parent = none → (st.world.subs id).links = ∅
  requested : ∀ id a, st.Pending (.link id a none) → a.linkType = .explicit
  seen : ∀ id a incarnation, st.Pending (.link id a (some incarnation)) →
    a.expected = none ∧ Seen (st.world.subs id) a.path incarnation
  justified : ∀ id cfg f path, (st.world.subs id).parent = some (cfg, f) →
    path ∈ (st.world.subs id).links → Justified h id cfg f.incarnation path

section Step

variable {h : List (Option Linking)} {w w' : World} {ts₁ ts₂ : List (List Instr)} {i : Instr}
  {p k : List Instr} {e : Linking} {c : Choice}

theorem Ran.brings (hstamped : ∀ id, Stamped (w.subs id)) (hran : Ran w c i w' k e) {id : Bytes}
    {a : LinkArgs} {seen : Option Bytes} (hmem : .link id a seen ∈ k) :
    ∃ incarnation, seen = some incarnation ∧ a.expected = none ∧
      Seen (w'.subs id) a.path incarnation := by
  cases hran with
  | @created id' a' streams s owner hcreate =>
    rcases createSub_parent hcreate with ⟨-, hn, hp⟩
    rcases List.mem_append.mp hmem with hmem | hmem
    · simp at hmem
    rcases mem_globLinks hmem with ⟨a₀, heq, hexpected, hne, hmatch⟩
    cases heq
    refine ⟨_, rfl, hexpected, ?_⟩
    rw [set_subs_self]
    have hinc : s.currentIncarnation.getD [] =
        Decimal.formatNat ((w.subs id).incarnations + 1) := by
      rw [currentIncarnation, hp]
      rfl
    rw [hinc]
    refine ⟨⟨_, hn.ge, rfl⟩, ?_⟩
    intro cfg f hp' _
    rw [hp] at hp'
    cases hp'
    exact ⟨hne, hmatch⟩
  | @read id' streams cfg f hp =>
    rcases mem_globLinks hmem with ⟨a₀, heq, hexpected, hne, hmatch⟩
    cases heq
    rcases hstamped id cfg f hp with ⟨n, -, hn, heq⟩
    refine ⟨_, rfl, hexpected, ⟨n, hn, heq⟩, ?_⟩
    intro cfg' f' hp' _
    rw [hp] at hp'
    cases hp'
    exact ⟨hne, hmatch⟩
  | linked => simp at hmem
  | unlinked _ hk => cases hk _ hmem
  | listed => simp at hmem
  | deleted => simp at hmem
  | stale => simp at hmem
  | scanned => simp at hmem
  | found =>
    unfold send at hmem
    split at hmem <;> simp at hmem
  | sent =>
    unfold send at hmem
    split at hmem <;> simp at hmem
  | refused => simp at hmem

theorem Provenance.justified_step (hi : Provenance h ⟨w, ts₁ ++ (i :: p) :: ts₂⟩)
    (hran : Ran w c i w' k e) (hP : linksCurrent w i c = true) {id : Bytes} {cfg : Config}
    {f : Fence} {path : Path} (hp : (w'.subs id).parent = some (cfg, f))
    (hlink : path ∈ (w'.subs id).links) : Justified (h ++ [some e]) id cfg f.incarnation path := by
  have hkept : (w.subs id).parent = some (cfg, f) → path ∈ (w.subs id).links →
      Justified (h ++ [some e]) id cfg f.incarnation path :=
    fun hparent hold => (hi.justified id cfg f path hparent hold).snoc _
  by_cases hid : i.writes = some id
  swap
  · rw [hran.others hid] at hp hlink
    exact hkept hp hlink
  cases hran with
  | @created _ a streams s owner hcreate =>
    cases hid
    rcases createSub_parent hcreate with ⟨hnone, -, hp'⟩
    rw [set_subs_self] at hp hlink
    have hinc : s.currentIncarnation = some f.incarnation := by
      rw [currentIncarnation, hp]
      rfl
    rcases createSub_links hcreate hlink with hseed | hold
    · refine .inl ⟨a, streams, ?_, hseed⟩
      rw [hinc]
      exact List.mem_append_right _ (List.mem_singleton_self _)
    · rw [hi.gone id hnone] at hold
      exact absurd hold Finmap.notMem_empty
  | @linked _ a seen s r hl hauth =>
    cases hid
    have hparent := (linkStream_parent hl).1
    rw [set_subs_self] at hp hlink
    rcases linkStream_links hl hlink with rfl | hold
    · have hinc : s.currentIncarnation = some f.incarnation := by
        rw [currentIncarnation, hp]
        rfl
      cases seen with
      | none =>
        refine .inr (.inl ⟨a, none, ?_, hi.requested id a Threads.pending_head, rfl⟩)
        rw [hinc]
        exact List.mem_append_right _ (List.mem_singleton_self _)
      | some incarnation =>
        rcases hi.seen id a incarnation Threads.pending_head with ⟨hexpected, hseen⟩
        simp only [linksCurrent, hexpected, Option.isSome_none, Option.all_some, Bool.false_or,
          Bool.and_eq_true, decide_eq_true_eq] at hP
        refine .inr (.inr (hseen.2 cfg f (hparent ▸ hp) ?_))
        rw [currentIncarnation, ← hparent, hp] at hP
        exact Option.some.inj hP.2
    · exact hkept (hparent ▸ hp) hold
  | unlinked hl =>
    cases hid
    rw [set_subs_self] at hp hlink
    exact hkept ((unlinkStream_parent hl).1 ▸ hp) (unlinkStream_links hl hlink)
  | deleted hd =>
    cases hid
    rw [set_subs_self, (deleteSub_parent hd).1] at hp
    cases hp
  | refused => exact hkept hp hlink
  | read | listed | stale | scanned | found | sent => cases hid

theorem Provenance.gone_step (hi : Provenance h ⟨w, ts₁ ++ (i :: p) :: ts₂⟩)
    (hran : Ran w c i w' k e) (hP : linksCurrent w i c = true) (id : Bytes)
    (hnone : (w'.subs id).parent = none) : (w'.subs id).links = ∅ := by
  by_cases hid : i.writes = some id
  swap
  · rw [hran.others hid] at hnone ⊢
    exact hi.gone id hnone
  cases hran with
  | created hcreate =>
    cases hid
    rw [set_subs_self, (createSub_parent hcreate).2.2] at hnone
    cases hnone
  | linked hl hauth =>
    cases hid
    rw [set_subs_self, (linkStream_parent hl).1] at hnone
    -- a link is only made for a subscription that exists
    have hsome : (w.subs id).parent.isSome = true := by
      unfold linksCurrent at hP
      rw [Bool.or_eq_true, Bool.and_eq_true] at hP
      rcases hP with hexpected | ⟨hsome, -⟩
      · rcases Option.isSome_iff_exists.mp hexpected with ⟨x, hx⟩
        rw [hx, authorize, expectationStatus, hnone] at hauth
        cases hauth
      · exact hsome
    rw [hnone] at hsome
    cases hsome
  | unlinked hl =>
    cases hid
    rw [set_subs_self] at hnone ⊢
    rw [(unlinkStream_parent hl).1] at hnone
    have hempty := hi.gone id hnone
    refine Finmap.ext_lookup fun path => ?_
    rw [Finmap.lookup_empty, Finmap.lookup_eq_none]
    intro hmem
    have hold := unlinkStream_links hl hmem
    rw [hempty] at hold
    exact Finmap.notMem_empty hold
  | deleted hd =>
    cases hid
    rw [set_subs_self]
    exact deleteSub_links hd
  | refused => exact hi.gone id hnone
  | read | listed | stale | scanned | found | sent => cases hid

theorem Provenance.step (hi : Provenance h ⟨w, ts₁ ++ (i :: p) :: ts₂⟩)
    (hexec : exec w i c = some (w', k, e)) (hP : linksCurrent w i c = true) :
    Provenance (h ++ [some e]) ⟨w', ts₁ ++ (k ++ p) :: ts₂⟩ := by
  have hran := exec_ran hexec
  refine ⟨fun id => (hran.evolves id).stamped (hi.stamped id), hi.gone_step hran hP, ?_, ?_, ?_⟩
  · intro id a hpend
    rcases Threads.pending_origin hpend with hnew | hold
    · rcases hran.brings hi.stamped hnew with ⟨_, hseen, -⟩
      cases hseen
    · exact hi.requested id a hold
  · intro id a incarnation hpend
    rcases Threads.pending_origin hpend with hnew | hold
    · rcases hran.brings hi.stamped hnew with ⟨_, hseen, hexpected, hs⟩
      cases hseen
      exact ⟨hexpected, hs⟩
    · rcases hi.seen id a incarnation hold with ⟨hexpected, hs⟩
      exact ⟨hexpected, hs.evolves (hran.evolves id)⟩
  · intro id cfg f path hp hlink
    exact hi.justified_step hran hP hp hlink

theorem Provenance.start {p : List Instr} {ts : List (List Instr)} (hi : Provenance h ⟨w, ts⟩)
    (hp : starts p = true) : Provenance (h ++ [none]) ⟨w, p :: ts⟩ := by
  have hlink : ∀ {id a seen}, .link id a seen ∈ p → seen = none ∧ a.linkType = .explicit := by
    intro id a seen hmem
    unfold starts at hp
    split at hp
    case h_6 =>
      rw [List.mem_singleton] at hmem
      cases hmem
      simpa using hp
    case h_7 => cases List.all_eq_true.mp hp _ hmem
    all_goals simp at hmem
  refine ⟨hi.stamped, hi.gone, ?_, ?_, ?_⟩
  · intro id a hpend
    rcases Threads.pending_start.mp hpend with hnew | hold
    · exact (hlink hnew).2
    · exact hi.requested id a hold
  · intro id a incarnation hpend
    rcases Threads.pending_start.mp hpend with hnew | hold
    · cases (hlink hnew).1
    · exact hi.seen id a incarnation hold
  · intro id cfg f path hparent hmem
    exact (hi.justified id cfg f path hparent hmem).snoc _

end Step

theorem provenance_run {st : Conf} (hrun : Trace.Run (Interleaving linksCurrent) Conf.init h st) :
    Provenance h st := by
  refine hrun.induct ?_ ?_
  · have hnone : ∀ i, ¬ Conf.init.Pending i := by
      rintro i ⟨p, hp, -⟩
      cases hp
    exact ⟨fun _ => stamped_empty, fun _ _ => rfl, fun _ _ hpend => absurd hpend (hnone _),
      fun _ _ _ hpend => absurd hpend (hnone _), fun _ _ _ _ hp => by cases hp⟩
  · intro h st e st' _ hi hstep
    cases hstep with
    | start hstart => exact hi.start hstart
    | run hexec hP => exact hi.step hexec hP

/-- Provenance of links. If every link that is not authorised is made while the subscription
exists, in the incarnation that its caller has read if it has read one, then every link of a
subscription was seeded by the creation of the present incarnation, linked to it explicitly or
matches its pattern, and a subscription that is gone leaves no links to a later one. -/
theorem links_justified {st : Conf} (hrun : Trace.Run (Interleaving linksCurrent) Conf.init h st)
    (id : Bytes) :
    (∀ cfg f path, (st.world.subs id).parent = some (cfg, f) →
      path ∈ (st.world.subs id).links → Justified h id cfg f.incarnation path) ∧
    ((st.world.subs id).parent = none → (st.world.subs id).links = ∅) :=
  ⟨(provenance_run hrun).justified id, (provenance_run hrun).gone id⟩

section Runs

def patternSub (owner pattern : Bytes) : Instr :=
  .create [115] { cfgHash := owner, type := .webhook, pattern := pattern, leaseTtlMs := 1
                  owner := owner, links := [] } []

def globTurns : List (Threads.Turn Instr Choice) :=
  [.start [patternSub [111] [42]], .run 0 (.index 0), .start [.read [115] [([97], [])]],
    .run 0 (.index 0), .run 0 (.index 0)]

theorem globTurns_run :
    (Trace.execAll (Threads.turn exec starts linksCurrent) Conf.init globTurns).isSome := by
  decide

theorem links_justified_glob :
    ∃ h st cfg f, Trace.Run (Interleaving linksCurrent) Conf.init h st ∧
      (st.world.subs [115]).parent = some (cfg, f) ∧ [97] ∈ (st.world.subs [115]).links ∧
      Justified h [115] cfg f.incarnation [97] :=
  ⟨_, _, _, _, interleaved_run globTurns_run, rfl, by decide,
    (links_justified (interleaved_run globTurns_run) [115]).1 _ _ _ rfl (by decide)⟩

def inheritTurns : List (Threads.Turn Instr Choice) :=
  [.start [patternSub [111] [42]], .run 0 (.index 0), .start [.read [115] [([97], [])]],
    .run 0 (.index 0), .start [.keys [115] none], .run 0 (.keys []), .run 0 (.index 0),
    .start [patternSub [112] []], .run 0 (.index 0), .run 2 (.index 0)]

theorem inheritTurns_run :
    (Trace.execAll (Threads.turn exec starts fun _ _ _ => true) Conf.init
      inheritTurns).isSome := by
  decide

def Linking.requests (e : Option Linking) : Bool :=
  match e with
  | some { instr := .create _ a _, .. } => a.links ≠ []
  | some { instr := .link _ a _, .. } => a.linkType = .explicit
  | _ => false

theorem link_inherited :
    ∃ h st cfg f, Trace.Run (Interleaving fun _ _ _ => true) Conf.init h st ∧
      (st.world.subs [115]).parent = some (cfg, f) ∧ cfg.owner = [112] ∧
      [97] ∈ (st.world.subs [115]).links ∧ ¬ Justified h [115] cfg f.incarnation [97] := by
  refine ⟨_, _, _, _, interleaved_run inheritTurns_run, rfl, rfl, by decide, ?_⟩
  have hnone : ∀ e ∈ (interleaved _ _ inheritTurns_run).1, Linking.requests e = false := by decide
  rintro (⟨a, streams, hmem, hpath⟩ | ⟨a, seen, hmem, htype, -⟩ | ⟨hne, -⟩)
  · have hlinks : a.links = [] := by simpa [Linking.requests] using hnone _ hmem
    rw [hlinks] at hpath
    cases hpath
  · have hglob : a.linkType ≠ .explicit := by simpa [Linking.requests] using hnone _ hmem
    exact hglob htype
  · exact hne rfl

end Runs

end Chronicle.Webhook
