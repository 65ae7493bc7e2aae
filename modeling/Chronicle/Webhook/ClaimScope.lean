import Chronicle.Webhook.ControlAuthz
import Chronicle.Webhook.Cursors

/-! # What a claim grants

A claim is authorized on what the handler has read of the subscription, the script
grants it if that is still so, and the scope of the write token comes from a read
after the grant. A link that is added in between is in the scope without having
been authorized, and so is a link of a pattern that the pattern does not match.
-/

namespace Chronicle.Webhook

open Auth

section Read

structure Links.ReadAs (l : Links) (entries : List (Path × Link)) : Prop where
  nodup : (entries.map Prod.fst).Nodup
  mem_iff : ∀ p link, (p, link) ∈ entries ↔ l.lookup p = some link

theorem Links.readAs_empty : Links.ReadAs ∅ [] := ⟨.nil, by simp⟩

theorem Links.ReadAs.insert {l : Links} {entries : List (Path × Link)} (h : l.ReadAs entries)
    {p : Path} (hp : l.lookup p = none) (link : Link) :
    Links.ReadAs (l.insert p link) ((p, link) :: entries) := by
  have hnew : ∀ x, (p, x) ∉ entries := by
    intro x hx
    rw [(h.mem_iff p x).mp hx] at hp
    cases hp
  refine ⟨List.nodup_cons.mpr ⟨?_, h.nodup⟩, ?_⟩
  · intro hmem
    obtain ⟨⟨q, x⟩, hx, rfl⟩ := List.mem_map.mp hmem
    exact hnew x hx
  · intro q x
    rw [List.mem_cons, Prod.mk.injEq]
    by_cases hq : q = p
    · subst hq
      rw [Finmap.lookup_insert, Option.some.injEq]
      constructor
      · rintro (⟨-, rfl⟩ | hx)
        · rfl
        · exact absurd hx (hnew x)
      · rintro rfl
        exact .inl ⟨rfl, rfl⟩
    · rw [Finmap.lookup_insert_of_ne _ hq, ← h.mem_iff]
      simp [hq]

def normalizeStreams (paths : List Bytes) : List Bytes :=
  ((paths.map trimSlashes).filter (· ≠ [])).dedup.insertionSort fun a b => Bytes.lexLe a b

/-- A subscription as it is read: its hash, its wake stream, and its links. -/
structure Subscription where
  config : Config
  incarnation : Bytes
  wakeStream : Bytes
  links : List (Path × Link)

namespace Subscription

def linkConfig (sub : Subscription) : LinkConfig where
  streams := normalizeStreams
    ((sub.links.filter fun entry => entry.2.linkType = .explicit).map Prod.fst)
  pattern := sub.config.pattern
  wakeStream := sub.wakeStream

def expectation (sub : Subscription) : Expectation where
  owner := sub.config.owner
  incarnation := sub.incarnation
  cfgHash := sub.config.cfgHash
  paths := sub.links.map Prod.fst

/-- The two hashes are read one after the other, and other scripts run in between. -/
structure ReadFrom (sub : Subscription) (s s' : Sub) : Prop where
  hash : ∃ f, s.parent = some (sub.config, f) ∧ f.incarnation = sub.incarnation
  between : ∃ h, Trace.Run Sub.Step s h s'
  links : s'.links.ReadAs sub.links

end Subscription

end Read

section Authorization

def ownershipAuthz (storedOwner callerSubject : Bytes) : Option LinkDenial :=
  if storedOwner ≠ [] ∧ storedOwner ≠ callerSubject then
    some (.refused "subscription is owned by another caller")
  else none

def controlOwnershipAuthz (storedOwner : Bytes) (caller : ControlCaller) : Option LinkDenial :=
  if caller.trustedGateway then none else ownershipAuthz storedOwner caller.subject

def claimAuthz (caller : ControlCaller) (sub : Subscription) : Option LinkDenial :=
  (controlOwnershipAuthz sub.config.owner caller).or (linkAuthz caller .claim sub.linkConfig)

/-- The paths of a write token. A link that is not normalized is dropped. -/
def writeScope (paths : List Path) : List StreamPath :=
  paths.filterMap fun p => (normalizeStreamPath p).toOption

/-- The steps of a claim that is answered with a write token, with the runs of scripts
between them. -/
structure HandleClaim where
  /-- What was read for authorization, and from which states. -/
  sub : Subscription
  readAt : Sub
  readTo : Sub
  /-- The state in which the script runs, and its arguments. -/
  claimAt : Sub
  args : Sub.ClaimArgs
  claimed : Sub
  /-- What was read for the token. -/
  fresh : Subscription
  freshAt : Sub
  freshTo : Sub

/-- The steps follow each other in one run, and the claim is granted. -/
structure HandleClaim.Served (c : HandleClaim) : Prop where
  read : c.sub.ReadFrom c.readAt c.readTo
  pullWake : c.sub.config.type ≠ .webhook
  beforeClaim : ∃ h, Trace.Run Sub.Step c.readTo h c.claimAt
  expected : c.args.expected = c.sub.expectation
  granted : ∃ generation wakeId worker,
    c.claimAt.claim c.args = (c.claimed, .claimed generation wakeId worker)
  afterClaim : ∃ h, Trace.Run Sub.Step c.claimed h c.freshAt
  reread : c.fresh.ReadFrom c.freshAt c.freshTo

def HandleClaim.scope (c : HandleClaim) : List StreamPath := writeScope (c.fresh.links.map Prod.fst)

end Authorization

variable {sub : Subscription}

section Bounds

def normalizeAll : List Bytes → Option (List StreamPath)
  | [] => some []
  | raw :: rest =>
    match normalizeStreamPath raw with
    | .ok path => (normalizeAll rest).map (path :: ·)
    | .error _ => none

def patternBounds (pattern : Bytes) : Option (List StreamPath) :=
  if pattern = [] then some []
  else (globLiteralPrefix pattern).bind fun pre => normalizeAll [pre]

def wakeBounds (wakeStream : Bytes) : Option (List StreamPath) :=
  if wakeStream = [] then some [] else normalizeAll [wakeStream]

/-- The namespaces that a caller has to have for a claim: the explicit streams, the literal
prefix of the pattern, and the wake stream. No caller has enough if one of them is not bounded. -/
def Subscription.bounds (sub : Subscription) : Option (List StreamPath) :=
  (normalizeAll sub.linkConfig.streams).bind fun streams =>
    (patternBounds sub.linkConfig.pattern).bind fun pattern =>
      (wakeBounds sub.linkConfig.wakeStream).map fun wake => streams ++ (pattern ++ wake)

variable {caller : ControlCaller} {action : Action}

/-- Whether a caller may act on every path of a bound. -/
def AllowedOn (caller : ControlCaller) (action : Action) (bounds : Option (List StreamPath)) :
    Prop :=
  ∃ ns, bounds = some ns ∧ ∀ n ∈ ns, (caller.authorize action [n]).allowed = true

theorem allowed_of_refusal {d : Decision} : refusal d = none ↔ d.allowed = true := by
  cases d <;> simp [refusal, Decision.allowed]

theorem linkPathsAuthz_none_iff (raws : List Bytes) :
    linkPathsAuthz caller action raws = none ↔ AllowedOn caller action (normalizeAll raws) := by
  induction raws with
  | nil => simp [linkPathsAuthz, AllowedOn, normalizeAll]
  | cons raw raws ih =>
    unfold linkPathsAuthz normalizeAll
    cases normalizeStreamPath raw with
    | error e => simp [AllowedOn]
    | ok path =>
      rw [Option.or_eq_none_iff, allowed_of_refusal, ih]
      constructor
      · rintro ⟨hpath, ns, hns, hall⟩
        refine ⟨path :: ns, by rw [hns]; rfl, ?_⟩
        rintro n hn
        rw [List.mem_cons] at hn
        obtain rfl | hn := hn
        · exact hpath
        · exact hall n hn
      · rintro ⟨ns, hns, hall⟩
        obtain ⟨rest, hrest, rfl⟩ := Option.map_eq_some_iff.mp hns
        exact ⟨hall path (by simp), rest, hrest, fun n hn => hall n (by simp [hn])⟩

theorem linkPathsAuthz_single (raw : Bytes) :
    AllowedOn caller action (normalizeAll [raw]) ↔
      ∃ path, normalizeStreamPath raw = .ok path ∧
        (caller.authorize action [path]).allowed = true := by
  unfold AllowedOn normalizeAll normalizeAll
  cases normalizeStreamPath raw <;> simp

theorem patternAuthz_none_iff (hgateway : caller.trustedGateway = false) (pattern : Bytes) :
    patternAuthz caller action pattern = none ↔
      AllowedOn caller action (patternBounds pattern) := by
  unfold patternAuthz patternBounds
  by_cases hnil : pattern = []
  · simp [hnil, AllowedOn]
  rw [if_pos ⟨hnil, by simp [hgateway]⟩, if_neg hnil]
  cases globLiteralPrefix pattern with
  | none => simp [AllowedOn]
  | some pre =>
    rw [Option.bind_some, linkPathsAuthz_single]
    dsimp only
    cases normalizeStreamPath pre <;> simp [allowed_of_refusal]

theorem wakeStreamAuthz_none_iff (wakeStream : Bytes) :
    wakeStreamAuthz caller action wakeStream = none ↔
      AllowedOn caller action (wakeBounds wakeStream) := by
  unfold wakeStreamAuthz wakeBounds
  by_cases hnil : wakeStream = []
  · simp [hnil, AllowedOn]
  rw [if_pos hnil, if_neg hnil, linkPathsAuthz_single]
  cases normalizeStreamPath wakeStream <;> simp [allowed_of_refusal]

theorem claimAuthz_none_iff (hgateway : caller.trustedGateway = false) :
    claimAuthz caller sub = none ↔
      (sub.config.owner = [] ∨ sub.config.owner = caller.subject) ∧
        AllowedOn caller .claim sub.bounds := by
  have howner : controlOwnershipAuthz sub.config.owner caller = none ↔
      sub.config.owner = [] ∨ sub.config.owner = caller.subject := by
    simp [controlOwnershipAuthz, ownershipAuthz, hgateway, or_iff_not_imp_left]
  rw [claimAuthz, Option.or_eq_none_iff, howner, linkAuthz, Option.or_eq_none_iff,
    Option.or_eq_none_iff, linkPathsAuthz_none_iff, patternAuthz_none_iff hgateway,
    wakeStreamAuthz_none_iff]
  refine and_congr_right fun _ => ?_
  unfold Subscription.bounds AllowedOn
  constructor
  · rintro ⟨⟨ns, hns, h₁⟩, ⟨ps, hps, h₂⟩, ws, hws, h₃⟩
    refine ⟨ns ++ (ps ++ ws), by simp [hns, hps, hws], ?_⟩
    simp only [List.mem_append]
    rintro n (hn | hn | hn)
    · exact h₁ n hn
    · exact h₂ n hn
    · exact h₃ n hn
  · rintro ⟨all, hall, h⟩
    simp only [Option.bind_eq_some_iff, Option.map_eq_some_iff] at hall
    obtain ⟨ns, hns, ps, hps, ws, hws, rfl⟩ := hall
    simp only [List.mem_append] at h
    exact ⟨⟨ns, hns, fun n hn => h n (.inl hn)⟩, ⟨ps, hps, fun n hn => h n (.inr (.inl hn))⟩,
      ws, hws, fun n hn => h n (.inr (.inr hn))⟩

end Bounds

section Covered

variable {c : HandleClaim} {path : StreamPath} {raw : Path} {ns : List StreamPath}

def callerWith (subject : Bytes) (namespaces : List StreamPath) : ControlCaller where
  caller := { subject, namespaces }

theorem covers_self (n : StreamPath) : covers n n = true := by simp [covers]

theorem normalize_string (path : StreamPath) : normalizeStreamPath path.string = .ok path := by
  obtain ⟨hne, hhead, -⟩ := StreamPath_trimmed path
  have htrim := trimSlash_eq_self hhead
  have hfind : (segments (trimSlash path.string)).find? (!validSegment ·) = none := by
    rw [htrim, List.find?_eq_none]
    intro seg hseg
    simp [path.valid seg hseg]
  unfold normalizeStreamPath
  rw [if_neg (by rwa [htrim])]
  split
  · rename_i seg hseg
    rw [hfind] at hseg
    cases hseg
  · congr 2

theorem trimSlashes_normalized (h : normalizeStreamPath raw = .ok path) :
    trimSlashes raw = path.string := by
  have hsplit := splitPath_normalized h
  obtain ⟨hne, -, -⟩ := StreamPath_trimmed path
  apply segments_injective
  rw [← hsplit, splitPath]
  split
  · rename_i hnil
    rw [splitPath, if_pos hnil] at hsplit
    exact absurd hsplit.symm (List.splitOn_ne_nil _ _)
  · rfl

theorem mem_normalizeStreams {paths : List Bytes} (hraw : raw ∈ paths)
    (h : normalizeStreamPath raw = .ok path) : path.string ∈ normalizeStreams paths := by
  rw [normalizeStreams, List.mem_insertionSort, List.mem_dedup, List.mem_filter]
  obtain ⟨hne, -, -⟩ := StreamPath_trimmed path
  refine ⟨List.mem_map.mpr ⟨raw, hraw, trimSlashes_normalized h⟩, by simpa using hne⟩

theorem mem_normalizeAll {raws : List Bytes} (hns : normalizeAll raws = some ns) (hraw : raw ∈ raws)
    (h : normalizeStreamPath raw = .ok path) : path ∈ ns := by
  induction raws generalizing ns with
  | nil => cases hraw
  | cons r raws ih =>
    unfold normalizeAll at hns
    split at hns
    · rename_i n hn
      obtain ⟨rest, hrest, rfl⟩ := Option.map_eq_some_iff.mp hns
      rw [List.mem_cons] at hraw ⊢
      obtain rfl | hraw := hraw
      · rw [hn, Except.ok.injEq] at h
        exact .inl h.symm
      · exact .inr (ih hrest hraw)
    · cases hns

theorem mem_of_meets {s : Sub} {cfg : Config} {f : Fence} {x : Expectation}
    (h : s.meets cfg f x = true) (hraw : raw ∈ s.links) : raw ∈ x.paths := by
  simp only [Sub.meets, Bool.and_eq_true, decide_eq_true_eq, List.all_eq_true] at h
  obtain ⟨⟨⟨-, hcard⟩, hnodup⟩, hall⟩ := h
  have hsub : x.paths.toFinset ⊆ s.links.keys := by
    intro p hp
    rw [List.mem_toFinset] at hp
    exact Finmap.mem_keys.mpr (hall p hp)
  have hle : s.links.keys.card ≤ x.paths.toFinset.card := by
    rw [hcard, List.toFinset_card_of_nodup hnodup]
  rw [← List.mem_toFinset, Finset.eq_of_subset_of_card_le hsub hle]
  exact Finmap.mem_keys.mpr hraw

theorem meets_of_claimed {s s' : Sub} {a : Sub.ClaimArgs} {generation : ℤ} {wakeId worker : Bytes}
    (h : s.claim a = (s', .claimed generation wakeId worker)) :
    ∃ cfg f, s.meets cfg f a.expected = true := by
  unfold Sub.claim at h
  split at h
  · cases h
  rename_i cfg f hp
  split at h
  · cases h
  · rename_i hmeets
    exact ⟨cfg, f, by simpa using hmeets⟩

theorem within_bounds (hns : sub.bounds = some ns) {link : Link}
    (hlink : (raw, link) ∈ sub.links)
    (hglob : link.linkType = .glob → globMatch sub.config.pattern raw = true)
    (h : normalizeStreamPath raw = .ok path) : pathWithinPrefixes path ns = true := by
  simp only [Subscription.bounds, Option.bind_eq_some_iff, Option.map_eq_some_iff] at hns
  obtain ⟨streams, hstreams, pattern, hpattern, wake, -, rfl⟩ := hns
  rw [pathWithinPrefixes, List.any_eq_true]
  cases htype : link.linkType with
  | explicit =>
    have hmem : raw ∈ (sub.links.filter fun entry => entry.2.linkType = .explicit).map Prod.fst :=
      List.mem_map.mpr ⟨(raw, link), List.mem_filter.mpr ⟨hlink, by simp [htype]⟩, rfl⟩
    have hpath := mem_normalizeAll hstreams (mem_normalizeStreams hmem h) (normalize_string path)
    exact ⟨path, List.mem_append_left _ hpath, covers_self path⟩
  | glob =>
    have hmatch := hglob htype
    have hne : sub.config.pattern ≠ [] := by
      intro hnil
      rw [hnil, globMatch_nil h] at hmatch
      cases hmatch
    rw [Subscription.linkConfig, patternBounds, if_neg hne, Option.bind_eq_some_iff] at hpattern
    obtain ⟨pre, hpre, hnorm⟩ := hpattern
    unfold normalizeAll normalizeAll at hnorm
    split at hnorm
    · rename_i n hn
      cases hnorm
      exact ⟨n, by simp, globMatch_covered hpre hn hmatch h⟩
    · cases hnorm

/-- A path that is linked when a claim is granted, and that the pattern matches if it was linked
by the pattern, lies within what was authorized. -/
theorem granted_within_bounds (hserved : c.Served) (hns : c.sub.bounds = some ns)
    (hclaimed : raw ∈ c.claimed.links)
    (hglob : ∀ link, (raw, link) ∈ c.sub.links → link.linkType = .glob →
      globMatch c.sub.config.pattern raw = true)
    (hnorm : normalizeStreamPath raw = .ok path) : pathWithinPrefixes path ns = true := by
  obtain ⟨generation, wakeId, worker, hclaim⟩ := hserved.granted
  obtain ⟨cfg, f, hmeets⟩ := meets_of_claimed hclaim
  have hlinks := claim_links c.claimAt c.args
  rw [hclaim] at hlinks
  have hexpected := mem_of_meets hmeets (hlinks ▸ hclaimed)
  rw [hserved.expected] at hexpected
  obtain ⟨⟨q, link⟩, hlink, rfl⟩ := List.mem_map.mp hexpected
  exact within_bounds hns hlink (hglob link hlink) hnorm

/-- If no path was linked between the grant and the read for the token, and the pattern matches
those of its paths that it has linked, a claim grants no more than its caller may claim. -/
theorem claim_scope_allowed {caller : ControlCaller} (hserved : c.Served)
    (hgateway : caller.trustedGateway = false) (hauthz : claimAuthz caller c.sub = none)
    (hadded : ∀ p ∈ c.freshTo.links, p ∈ c.claimed.links)
    (hglob : ∀ p ∈ c.freshTo.links, ∀ link, (p, link) ∈ c.sub.links → link.linkType = .glob →
      globMatch c.sub.config.pattern p = true) :
    ∀ path ∈ c.scope, (caller.authorize .claim [path]).allowed = true := by
  intro path hpath
  obtain ⟨raw, hraw, hnorm⟩ := List.mem_filterMap.mp hpath
  obtain ⟨⟨p, link⟩, hentry, rfl⟩ := List.mem_map.mp hraw
  have hfresh : p ∈ c.freshTo.links :=
    Finmap.mem_iff.mpr ⟨link, (hserved.reread.links.mem_iff p link).mp hentry⟩
  have hok : normalizeStreamPath p = .ok path := by
    cases hn : normalizeStreamPath p with
    | error e => simp [hn, Except.toOption] at hnorm
    | ok n =>
      rw [hn] at hnorm
      exact congrArg Except.ok (Option.some.inj hnorm)
  obtain ⟨-, ns, hns, hall⟩ := (claimAuthz_none_iff hgateway).mp hauthz
  have hwithin := granted_within_bounds hserved hns (hadded p hfresh) (hglob p hfresh) hok
  rw [pathWithinPrefixes, List.any_eq_true] at hwithin
  obtain ⟨n, hn, hcover⟩ := hwithin
  exact authorize_covered hcover (hall n hn)

end Covered

section Runs

def ordersPath : Path := Bytes.ascii "orders/a"

def billingPath : Path := Bytes.ascii "billing/b"

def ownerless : Sub :=
  (({} : Sub).createSub
    { cfgHash := [1], type := .pullWake, pattern := [], leaseTtlMs := 1000, owner := []
      links := [(ordersPath, ⟨.explicit, []⟩)] }).1

def ownerlessConfig : Config where
  cfgHash := [1]
  type := .pullWake
  pattern := []
  leaseTtlMs := 1000
  owner := []

def ownerlessRead (links : List (Path × Link)) : Subscription where
  config := ownerlessConfig
  incarnation := Bytes.ascii "1"
  wakeStream := []
  links

def ordersLinks : List (Path × Link) := [(ordersPath, ⟨.explicit, []⟩)]

def ordersClaim : Sub.ClaimArgs where
  worker := Bytes.ascii "w"
  nowNs := 1
  leaseTtlMs := 1000
  newWakeId := Bytes.ascii "k"
  expected := (ownerlessRead ordersLinks).expectation

def claimedSub : Sub := (ownerless.claim ordersClaim).1

def billingLink : Sub.LinkArgs where
  path := billingPath
  linkType := .explicit
  offset := []
  expected := some (ownerlessRead ordersLinks).expectation

def extendedSub : Sub := (claimedSub.linkStream billingLink).1

theorem ownerless_readAs : ownerless.links.ReadAs ordersLinks :=
  Links.readAs_empty.insert rfl _

def claimWith (freshTo : Sub) (links : List (Path × Link)) : HandleClaim where
  sub := ownerlessRead ordersLinks
  readAt := ownerless
  readTo := ownerless
  claimAt := ownerless
  args := ordersClaim
  claimed := claimedSub
  fresh := ownerlessRead links
  freshAt := freshTo
  freshTo := freshTo

theorem claimWith_served {freshTo : Sub} {links : List (Path × Link)}
    (hrun : ∃ h, Trace.Run Sub.Step claimedSub h freshTo)
    (hhash : ∃ f, freshTo.parent = some (ownerlessConfig, f) ∧ f.incarnation = Bytes.ascii "1")
    (hlinks : freshTo.links.ReadAs links) : (claimWith freshTo links).Served where
  read := ⟨⟨_, rfl, (show Decimal.formatNat 1 = Bytes.ascii "1" by decide)⟩, ⟨[], .nil⟩,
    ownerless_readAs⟩
  pullWake := (show Dispatch.pullWake ≠ .webhook by decide)
  beforeClaim := ⟨[], .nil⟩
  expected := rfl
  granted := ⟨1, Bytes.ascii "k", Bytes.ascii "w", Prod.ext rfl (show
    (ownerless.claim ordersClaim).2 = .claimed 1 (Bytes.ascii "k") (Bytes.ascii "w") by decide)⟩
  afterClaim := hrun
  reread := ⟨hhash, ⟨[], .nil⟩, hlinks⟩

def ordersCaller : ControlCaller :=
  callerWith (Bytes.ascii "o") [⟨Bytes.ascii "orders", by decide⟩]

theorem claim_scope_allowed_unchanged :
    ∃ c : HandleClaim, c.Served ∧ claimAuthz ordersCaller c.sub = none ∧ c.scope ≠ [] ∧
      ∀ path ∈ c.scope, (ordersCaller.authorize .claim [path]).allowed = true := by
  have hserved : (claimWith claimedSub ordersLinks).Served :=
    claimWith_served ⟨[], .nil⟩ ⟨_, rfl, by decide⟩ ownerless_readAs
  have hauthz : claimAuthz ordersCaller (claimWith claimedSub ordersLinks).sub = none := by decide
  refine ⟨_, hserved, hauthz, by decide,
    claim_scope_allowed hserved rfl hauthz (fun _ h => h) fun p _ link hlink => ?_⟩
  simp only [claimWith, ownerlessRead, ordersLinks, List.mem_singleton, Prod.mk.injEq] at hlink
  simp [hlink.2]

def billingCaller : ControlCaller :=
  callerWith (Bytes.ascii "b") [⟨Bytes.ascii "billing", by decide⟩]

/-- Another caller links a stream of theirs between the grant and the read for the token, and the
token has it in its scope. -/
theorem claim_grants_later_link :
    ∃ c : HandleClaim, c.Served ∧ (∃ h, Trace.Run Sub.Step {} h c.readAt) ∧
      claimAuthz ordersCaller c.sub = none ∧
      linkPathsAuthz billingCaller .link [billingPath] = none ∧
      controlOwnershipAuthz c.sub.config.owner billingCaller = none ∧
      c.claimed.linkStream billingLink = (c.freshAt, .linked) ∧
      ∃ path ∈ c.scope, (ordersCaller.authorize .claim [path]).allowed = false := by
  have hlinks : extendedSub.links.ReadAs ((billingPath, ⟨.explicit, []⟩) :: ordersLinks) :=
    ownerless_readAs.insert (by decide) _
  have hserved : (claimWith extendedSub ((billingPath, ⟨.explicit, []⟩) :: ordersLinks)).Served :=
    claimWith_served ⟨_, .snoc .nil (Sub.ranCall_step claimedSub (.link billingLink) _ _ rfl)⟩
      ⟨_, rfl, by decide⟩ hlinks
  refine ⟨_, hserved, ⟨_, .snoc .nil (Sub.ranCall_step _ (.create _) _ _ rfl)⟩, by decide,
    by decide, by decide, Prod.ext rfl (by decide), ⟨billingPath, by decide⟩, by decide,
    by decide⟩

end Runs

end Chronicle.Webhook
