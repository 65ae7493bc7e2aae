import Chronicle.Lib.Ascii

/-! # Paths, principals and policies

A stream path is built by normalizing a raw path only, so its segments are never
empty and never a dot or two. A namespace covers the paths that begin with its
segments, and the policy of a service names its actions and its namespaces.
-/

namespace Chronicle.Auth

section Paths

def validSegment (seg : Bytes) : Bool :=
  seg ≠ [] && seg ≠ Bytes.ascii "." && seg ≠ Bytes.ascii ".."

def segments (p : Bytes) : List Bytes := p.splitOn 47

structure StreamPath where
  string : Bytes
  valid : ∀ seg ∈ segments string, validSegment seg = true
  deriving DecidableEq

inductive PathError where
  | empty
  | invalidSegment (seg : Bytes)
  deriving DecidableEq, Repr

def trimSlash : Bytes → Bytes
  | 47 :: s => s
  | s => s

def normalizeStreamPath (raw : Bytes) : Except PathError StreamPath :=
  let p := trimSlash raw
  if p = [] then .error .empty
  else
    match h : (segments p).find? (!validSegment ·) with
    | some seg => .error (.invalidSegment seg)
    | none => .ok ⟨p, by simpa using h⟩

/-- Whether a namespace covers a path: whole segments, and the namespace itself. -/
def covers (n path : StreamPath) : Bool :=
  path.string = n.string || (n.string ++ [47]).isPrefixOf path.string

def pathWithinPrefixes (path : StreamPath) (prefixes : List StreamPath) : Bool :=
  prefixes.any (covers · path)

theorem segments_injective {p q : Bytes} (h : segments p = segments q) : p = q := by
  rw [← @List.intercalate_splitOn _ p _ _ 47, ← @List.intercalate_splitOn _ q _ _ 47]
  exact congrArg _ h

theorem segments_append (p q : Bytes) : segments (p ++ 47 :: q) = segments p ++ segments q :=
  List.splitOn_append_cons_self p q

theorem segments_intercalate {ls : List Bytes} (hls : ls ≠ []) (h : ∀ l ∈ ls, 47 ∉ l) :
    segments (List.intercalate [47] ls) = ls := List.splitOn_intercalate 47 h hls

theorem notMem_segment {p seg : Bytes} (h : seg ∈ segments p) : 47 ∉ seg := by
  intro hmem
  exact (Bytes.mem_splitOn h 47 hmem).1 rfl

/-- A namespace covers the paths that begin with its segments. -/
theorem covers_iff (n path : StreamPath) :
    covers n path = true ↔ segments n.string <+: segments path.string := by
  rw [covers, Bool.or_eq_true, decide_eq_true_eq, List.isPrefixOf_iff_prefix]
  constructor
  · rintro (h | ⟨t, ht⟩)
    · exact h ▸ List.prefix_rfl
    · rw [List.append_assoc, List.singleton_append] at ht
      rw [← ht, segments_append]
      exact List.prefix_append ..
  · rintro ⟨rest, hrest⟩
    by_cases hnil : rest = []
    · subst hnil
      rw [List.append_nil] at hrest
      exact .inl (segments_injective hrest.symm)
    · refine .inr ⟨List.intercalate [47] rest, ?_⟩
      have hslash : ∀ l ∈ rest, 47 ∉ l := by
        intro l hl
        apply notMem_segment
        rw [← hrest]
        exact List.mem_append_right _ hl
      apply segments_injective
      rw [List.append_assoc, List.singleton_append, segments_append,
        segments_intercalate hnil hslash, hrest]

theorem normalizeStreamPath_ok {raw : Bytes} {path : StreamPath}
    (h : normalizeStreamPath raw = .ok path) : trimSlash raw = path.string := by
  unfold normalizeStreamPath at h
  dsimp only at h
  split at h
  · cases h
  split at h
  · cases h
  · cases h
    rfl

end Paths

section Principals

inductive PrincipalKind where
  | anonymous
  | agent
  | user
  | service
  | system
  deriving DecidableEq, Repr

/-- A verified identity; the namespaces of a service are in its policy. -/
structure Principal where
  kind : PrincipalKind := .anonymous
  subject : Bytes := []
  namespaces : List StreamPath := []
  deriving DecidableEq

inductive Action where
  | read
  | append
  | create
  | delete
  | subscribe
  | link
  | claim
  deriving DecidableEq, Repr

def Action.string : Action → String
  | .read => "read"
  | .append => "append"
  | .create => "create"
  | .delete => "delete"
  | .subscribe => "subscribe"
  | .link => "link"
  | .claim => "claim"

inductive DenyReason where
  | unauthenticated
  | forbidden
  | fenced
  deriving DecidableEq, Repr

inductive Decision where
  | allow
  | deny (reason : DenyReason) (detail : String)
  deriving DecidableEq, Repr

def Decision.allowed : Decision → Bool
  | .allow => true
  | .deny .. => false

end Principals

section Services

/-- What one service may do. A trusted gateway may do everything. -/
structure ServicePolicy where
  actions : List Action
  namespaces : List StreamPath
  trustedGateway : Bool

abbrev ServicePolicies := Bytes → Option ServicePolicy

namespace ServicePolicies

/-- Whether a service may take an action at all, and whether it is a trusted gateway. -/
def authorizeAction (p : ServicePolicies) (principal : Principal) (action : Action) :
    Decision × Bool :=
  if principal.kind ≠ .service ∨ principal.subject = [] then
    (.deny .unauthenticated "missing verified service identity", false)
  else
    match p principal.subject with
    | none => (.deny .forbidden "service identity has no policy", false)
    | some policy =>
      if policy.trustedGateway then (.allow, true)
      else if action ∉ policy.actions then
        (.deny .forbidden ("service policy does not allow " ++ action.string), false)
      else (.allow, false)

/-- Whether a service may take an action on paths; each has to be in a namespace of its policy. -/
def authorize (p : ServicePolicies) (principal : Principal) (action : Action)
    (paths : List StreamPath) : Decision × Bool :=
  let (decision, delegated) := p.authorizeAction principal action
  if !decision.allowed || delegated then (decision, delegated)
  else if paths = [] then
    (.deny .forbidden "service authorization has no protected stream path", false)
  else
    let namespaces := ((p principal.subject).map (·.namespaces)).getD []
    if paths.all (pathWithinPrefixes · namespaces) then (.allow, false)
    else (.deny .forbidden "service namespaces do not cover this stream", false)

def trustedGateway (p : ServicePolicies) (principal : Principal) : Bool :=
  match p principal.subject with
  | none => false
  | some policy => principal.kind = .service && policy.trustedGateway

/-- A service may act on a path if it may take the action and a namespace covers the path, or if it
is a trusted gateway. -/
theorem authorize_allowed_iff (p : ServicePolicies) (principal : Principal) (action : Action)
    (path : StreamPath) :
    (p.authorize principal action [path]).1.allowed = true ↔
      (p.authorizeAction principal action).1.allowed = true ∧
        ((p.authorizeAction principal action).2 = true ∨
          pathWithinPrefixes path (((p principal.subject).map (·.namespaces)).getD []) = true) := by
  unfold authorize
  rcases p.authorizeAction principal action with ⟨decision, delegated⟩
  cases hd : decision.allowed <;> cases delegated <;> simp [hd]
  split <;> simp_all [Decision.allowed]

end ServicePolicies

end Services

end Chronicle.Auth
