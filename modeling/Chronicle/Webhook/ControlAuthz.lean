import Chronicle.Webhook.Glob

/-! # Authorization of the control plane

A caller of the control plane is a service with a policy, or the holder of a
token with namespaces. What a subscription can reach is checked path by path, and
its pattern by the literal prefix, which bounds every match.
-/

namespace Chronicle.Webhook

open Auth

structure VerifiedCaller where
  subject : Bytes := []
  namespaces : List StreamPath := []

def VerifiedCaller.mayLink (c : VerifiedCaller) (path : StreamPath) : Bool :=
  pathWithinPrefixes path c.namespaces

structure ControlCaller where
  caller : VerifiedCaller := {}
  servicePrincipal : Principal := {}
  serviceAccess : Option ServicePolicies := none

namespace ControlCaller

def subject (c : ControlCaller) : Bytes :=
  if c.servicePrincipal.kind = .service then c.servicePrincipal.subject else c.caller.subject

def authorize (c : ControlCaller) (action : Action) (paths : List StreamPath) : Decision :=
  if c.servicePrincipal.kind = .service then
    match c.serviceAccess with
    | none => .deny .unauthenticated "service authorization is not configured"
    | some policies => (policies.authorize c.servicePrincipal action paths).1
  else if paths.all c.caller.mayLink then .allow
  else .deny .forbidden "caller namespaces do not cover this stream"

def trustedGateway (c : ControlCaller) : Bool :=
  c.servicePrincipal.kind = .service &&
    (c.serviceAccess.map (·.trustedGateway c.servicePrincipal)).getD false

end ControlCaller

structure LinkConfig where
  streams : List Bytes := []
  pattern : Bytes := []
  wakeStream : Bytes := []
  deriving DecidableEq, Repr

/-- Why a caller may not reach what a subscription reaches. -/
inductive LinkDenial where
  | invalidStream (raw : Bytes)
  | unboundedPattern (pattern : Bytes)
  | invalidWakeStream (raw : Bytes)
  | refused (detail : String)
  deriving DecidableEq, Repr

def refusal : Decision → Option LinkDenial
  | .allow => none
  | .deny _ detail => some (.refused detail)

def linkPathsAuthz (caller : ControlCaller) (action : Action) : List Bytes → Option LinkDenial
  | [] => none
  | raw :: paths =>
    match normalizeStreamPath raw with
    | .error _ => some (.invalidStream raw)
    | .ok path => (refusal (caller.authorize action [path])).or (linkPathsAuthz caller action paths)

def patternAuthz (caller : ControlCaller) (action : Action) (pattern : Bytes) :
    Option LinkDenial :=
  if pattern ≠ [] ∧ ¬ caller.trustedGateway then
    match globLiteralPrefix pattern with
    | none => some (.unboundedPattern pattern)
    | some pre =>
      match normalizeStreamPath pre with
      | .error _ => some (.unboundedPattern pattern)
      | .ok path => refusal (caller.authorize action [path])
  else none

def wakeStreamAuthz (caller : ControlCaller) (action : Action) (wakeStream : Bytes) :
    Option LinkDenial :=
  if wakeStream ≠ [] then
    match normalizeStreamPath wakeStream with
    | .error _ => some (.invalidWakeStream wakeStream)
    | .ok path => refusal (caller.authorize action [path])
  else none

/-- Whether a caller may take an action on everything that a subscription can reach. -/
def linkAuthz (caller : ControlCaller) (action : Action) (cfg : LinkConfig) : Option LinkDenial :=
  (linkPathsAuthz caller action cfg.streams).or
    ((patternAuthz caller action cfg.pattern).or (wakeStreamAuthz caller action cfg.wakeStream))

section Sound

variable {caller : ControlCaller} {action : Action} {cfg : LinkConfig} {n path : StreamPath}

theorem pathWithinPrefixes_trans {prefixes : List StreamPath} (hcover : covers n path = true)
    (h : pathWithinPrefixes n prefixes = true) : pathWithinPrefixes path prefixes = true := by
  rw [pathWithinPrefixes, List.any_eq_true] at h ⊢
  obtain ⟨m, hm, hmn⟩ := h
  rw [covers_iff] at hcover hmn
  exact ⟨m, hm, (covers_iff m path).mpr (hmn.trans hcover)⟩

/-- Who may act on a path may act on everything that the path covers. -/
theorem authorize_covered (hcover : covers n path = true)
    (h : (caller.authorize action [n]).allowed = true) :
    (caller.authorize action [path]).allowed = true := by
  unfold ControlCaller.authorize at h ⊢
  split at h
  · rename_i hkind
    rw [if_pos hkind]
    cases hacc : caller.serviceAccess with
    | none => simp [hacc, Decision.allowed] at h
    | some policies =>
      simp only [hacc] at h ⊢
      rw [ServicePolicies.authorize_allowed_iff] at h ⊢
      exact ⟨h.1, h.2.imp_right (pathWithinPrefixes_trans hcover)⟩
  · rename_i hkind
    rw [if_neg hkind]
    by_cases hn : caller.caller.mayLink n = true
    · have hpath : caller.caller.mayLink path = true := pathWithinPrefixes_trans hcover hn
      simp [hpath, Decision.allowed]
    · simp [hn, Decision.allowed] at h

theorem refusal_eq_none {d : Decision} (h : refusal d = none) : d.allowed = true := by
  cases d with
  | allow => rfl
  | deny => cases h

theorem patternAuthz_eq_none {pattern : Bytes} (hpattern : pattern ≠ [])
    (hgateway : caller.trustedGateway = false) (h : patternAuthz caller action pattern = none) :
    ∃ pre n, globLiteralPrefix pattern = some pre ∧ normalizeStreamPath pre = .ok n ∧
      (caller.authorize action [n]).allowed = true := by
  rw [patternAuthz, if_pos ⟨hpattern, by simp [hgateway]⟩] at h
  split at h
  · cases h
  rename_i pre hpre
  split at h
  · cases h
  rename_i n hn
  exact ⟨pre, n, hpre, hn, refusal_eq_none h⟩

/-- Nothing is matched by the empty pattern. -/
theorem globMatch_nil {raw : Bytes} (hpath : normalizeStreamPath raw = .ok path) :
    globMatch [] raw = false := by
  rw [globMatch, splitPath_normalized hpath]
  cases hseg : segments path.string with
  | nil => exact absurd hseg (List.splitOn_ne_nil _ _)
  | cons seg segs => rfl

/-- Checking the literal prefix of a pattern is enough: who may act on everything that a
subscription reaches may act on every path that its pattern matches. -/
theorem linkAuthz_pattern_sound (hgateway : caller.trustedGateway = false)
    (hauthz : linkAuthz caller action cfg = none) {p : Bytes}
    (hmatch : globMatch cfg.pattern p = true) (hpath : normalizeStreamPath p = .ok path) :
    (caller.authorize action [path]).allowed = true := by
  simp only [linkAuthz, Option.or_eq_none_iff] at hauthz
  have hpattern : cfg.pattern ≠ [] := by
    intro hnil
    rw [hnil, globMatch_nil hpath] at hmatch
    cases hmatch
  obtain ⟨pre, n, hpre, hn, hallowed⟩ := patternAuthz_eq_none hpattern hgateway hauthz.2.1
  exact authorize_covered (globMatch_covered hpre hn hmatch hpath) hallowed

end Sound

section Witness

def eventsNamespace : StreamPath := ⟨Bytes.ascii "events", by decide⟩

def eventsPath : StreamPath := ⟨Bytes.ascii "events/a/*", by decide⟩

def eventsCaller : ControlCaller := { caller := { namespaces := [eventsNamespace] } }

theorem linkAuthz_pattern_sound_events :
    (eventsCaller.authorize .claim [eventsPath]).allowed = true :=
  @linkAuthz_pattern_sound eventsCaller .claim { pattern := Bytes.ascii "/events/*/%2A/**" } _
    (by decide) (by decide) (Bytes.ascii "/events/a/*") (by decide) (by decide)

end Witness

end Chronicle.Webhook
