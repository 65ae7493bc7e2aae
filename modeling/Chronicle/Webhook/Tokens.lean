import Mathlib.Data.List.TakeWhile
import Chronicle.Auth.Policy
import Chronicle.Lib.Base64
import Chronicle.Lib.Decimal
import Chronicle.Lib.Utf8

/-! # Callback tokens and write tokens

A token is a JSON payload in base64 and a tag over it. Callback tokens and write
tokens are signed with the same key, and the tag of a write token is computed on
the payload behind a domain.
-/

namespace Chronicle.Webhook.Tokens

open Auth

section Payloads

structure TokenPayload where
  sub : Bytes
  generation : ℤ
  exp : ℤ
  jti : Bytes
  deriving DecidableEq, Repr

structure WriteTokenPayload where
  typ : Bytes
  sub : Bytes
  incarnation : Bytes
  generation : ℤ
  wakeID : Bytes
  holder : Bytes
  shard : ℤ
  exp : ℤ
  jti : Bytes
  streams : List Bytes
  deriving DecidableEq, Repr

def TokenPayload.coerced (p : TokenPayload) : TokenPayload :=
  { p with sub := Utf8.coerce p.sub, jti := Utf8.coerce p.jti }

def WriteTokenPayload.coerced (p : WriteTokenPayload) : WriteTokenPayload :=
  { p with
    typ := Utf8.coerce p.typ
    sub := Utf8.coerce p.sub
    incarnation := Utf8.coerce p.incarnation
    wakeID := Utf8.coerce p.wakeID
    holder := Utf8.coerce p.holder
    jti := Utf8.coerce p.jti
    streams := p.streams.map Utf8.coerce }

/-- JSON texts of one type of payload. Reading what was written returns the payload with its strings
coerced to UTF-8; nothing is said about other texts. -/
structure Codec (α : Type) (coerced : α → α) where
  marshal : α → Bytes
  unmarshal : Bytes → Option α
  unmarshal_marshal : ∀ p, unmarshal (marshal p) = some (coerced p)

/-- What the tokens are built from: the MAC and the JSON texts of the payloads. -/
structure Primitives where
  mac : Bytes → Bytes → Bytes
  token : Codec TokenPayload TokenPayload.coerced
  write : Codec WriteTokenPayload WriteTokenPayload.coerced

end Payloads

variable (c : Primitives) (key : Bytes)

section Mint

def hmacSig (body : Bytes) : Bytes := Base64.rawURL.encode (c.mac key body)

def unix (ns : ℤ) : ℤ := ns / 1000000000

def hexDigit (n : ℕ) : UInt8 := if n < 10 then (48 + n).toUInt8 else (87 + n).toUInt8

def hex (s : Bytes) : Bytes := s.flatMap fun b => [hexDigit (b.toNat / 16), hexDigit (b.toNat % 16)]

/-- The arguments of a callback token. The random bytes are absent if they could not be read. -/
structure TokenArgs where
  subID : Bytes
  generation : ℤ
  now : ℤ
  ttl : ℤ
  rand : Option Bytes
  deriving DecidableEq, Repr

def TokenArgs.payload (a : TokenArgs) (jti : Bytes) : TokenPayload :=
  ⟨a.subID, a.generation, unix (a.now + a.ttl), hex jti⟩

def TokenArgs.body (a : TokenArgs) (jti : Bytes) : Bytes :=
  Base64.rawURL.encode (c.token.marshal (a.payload jti))

def sealed (body message : Bytes) : Bytes := body ++ 46 :: hmacSig c key message

def generateToken (a : TokenArgs) : Option Bytes :=
  a.rand.map fun jti => sealed c key (a.body c jti) (a.body c jti)

def writeTokenDomain : Bytes := Bytes.ascii "ds-write-v1"

def writeTokenTyp : Bytes := Bytes.ascii "write"

def writeMessage (body : Bytes) : Bytes := writeTokenDomain ++ 46 :: body

structure WriteTokenArgs where
  subID : Bytes
  incarnation : Bytes
  generation : ℤ
  wakeID : Bytes
  holder : Bytes
  shard : ℤ
  streams : List StreamPath
  now : ℤ
  ttl : ℤ
  rand : Option Bytes

def WriteTokenArgs.payload (a : WriteTokenArgs) (jti : Bytes) : WriteTokenPayload where
  typ := writeTokenTyp
  sub := a.subID
  incarnation := a.incarnation
  generation := a.generation
  wakeID := a.wakeID
  holder := a.holder
  shard := a.shard
  exp := unix (a.now + a.ttl)
  jti := hex jti
  streams := a.streams.map (·.string)

def WriteTokenArgs.body (a : WriteTokenArgs) (jti : Bytes) : Bytes :=
  Base64.rawURL.encode (c.write.marshal (a.payload jti))

def generateWriteToken (a : WriteTokenArgs) : Option Bytes :=
  a.rand.map fun jti => sealed c key (a.body c jti) (writeMessage (a.body c jti))

end Mint

section Validate

def minTokenKeyBytes : ℕ := 32

def cut (token : Bytes) : Option (Bytes × Bytes) :=
  if 46 ∈ token then some (token.takeWhile (· ≠ 46), (token.dropWhile (· ≠ 46)).tail) else none

def tokenExpired (exp now : ℤ) : Bool := exp < now

structure TokenValidation where
  valid : Bool := false
  expired : Bool := false
  generation : ℤ := 0
  exp : ℤ := 0
  deriving DecidableEq, Repr

def TokenValidation.accepted (v : TokenValidation) : Bool := v.valid || v.expired

def validateToken (token subID : Bytes) (now : ℤ) : TokenValidation :=
  if key.length < minTokenKeyBytes then {}
  else
    match cut token with
    | none => {}
    | some (body, sig) =>
      if sig ≠ hmacSig c key body then {}
      else
        match (Base64.rawURL.decode body).bind c.token.unmarshal with
        | none => {}
        | some p =>
          if p.sub ≠ subID then {}
          else if tokenExpired p.exp (unix now) then
            { expired := true, generation := p.generation, exp := p.exp }
          else { valid := true, generation := p.generation, exp := p.exp }

inductive WriteTokenStatus where
  | invalid
  | expired
  | wrongPath
  | valid
  deriving DecidableEq, Repr

structure WriteTokenValidation where
  status : WriteTokenStatus := .invalid
  subID : Bytes := []
  incarnation : Bytes := []
  generation : ℤ := 0
  wakeID : Bytes := []
  holder : Bytes := []
  shard : ℤ := 0
  streams : List Bytes := []
  exp : ℤ := 0
  deriving DecidableEq, Repr

def parseWriteToken (token : Bytes) (now : ℤ) : WriteTokenValidation :=
  if key.length < minTokenKeyBytes then {}
  else
    match cut token with
    | none => {}
    | some (body, sig) =>
      if sig ≠ hmacSig c key (writeMessage body) then {}
      else
        match (Base64.rawURL.decode body).bind c.write.unmarshal with
        | none => {}
        | some p =>
          if p.typ ≠ writeTokenTyp then {}
          else
            { status := if tokenExpired p.exp (unix now) then .expired else .valid
              subID := p.sub
              incarnation := p.incarnation
              generation := p.generation
              wakeID := p.wakeID
              holder := p.holder
              shard := p.shard
              streams := p.streams
              exp := p.exp }

def validateWriteToken (token : Bytes) (path : StreamPath) (now : ℤ) : WriteTokenValidation :=
  let v := parseWriteToken c key token now
  if v.status ≠ .valid then v
  else if path.string ∈ v.streams then v
  else { v with status := .wrongPath }

end Validate

section Meaning

inductive Mint where
  | token (a : TokenArgs)
  | write (a : WriteTokenArgs)

def Mint.message : Mint → Option Bytes
  | .token a => a.rand.map (a.body c)
  | .write a => a.rand.map fun jti => writeMessage (a.body c jti)

/-- An ideal MAC: a tag that was computed verifies only for the message it was computed on. -/
def IdealMac (log : List Mint) : Prop :=
  ∀ m ∈ log.filterMap (·.message c), ∀ m', hmacSig c key m' = hmacSig c key m → m' = m

/-- A text that can be presented under an ideal MAC: if its tag verifies for a message, the tag was
computed on it. -/
def Presentable (log : List Mint) (token : Bytes) : Prop :=
  ∀ body sig, cut token = some (body, sig) → ∀ m, sig = hmacSig c key m →
    m ∈ log.filterMap (·.message c)

structure Sound (log : List Mint) (token : Bytes) : Prop where
  callback : ∀ subID now, (validateToken c key token subID now).accepted = true →
    (∃ a, .token a ∈ log ∧ generateToken c key a = some token) ∧
    ∀ a, .token a ∈ log → generateToken c key a = some token →
      a.subID = subID ∧ a.generation = (validateToken c key token subID now).generation ∧
      unix (a.now + a.ttl) = (validateToken c key token subID now).exp
  write : ∀ now, (parseWriteToken c key token now).status ≠ .invalid →
    (∃ a, .write a ∈ log ∧ generateWriteToken c key a = some token) ∧
    ∀ a, .write a ∈ log → generateWriteToken c key a = some token →
      a.subID = (parseWriteToken c key token now).subID ∧
      a.incarnation = (parseWriteToken c key token now).incarnation ∧
      a.generation = (parseWriteToken c key token now).generation ∧
      a.wakeID = (parseWriteToken c key token now).wakeID ∧
      a.holder = (parseWriteToken c key token now).holder ∧
      a.shard = (parseWriteToken c key token now).shard
  scope : ∀ path now, (validateWriteToken c key token path now).status = .valid →
    (∃ a, .write a ∈ log ∧ generateWriteToken c key a = some token) ∧
    ∀ a, .write a ∈ log → generateWriteToken c key a = some token → path ∈ a.streams
  apart : ∀ subID now now', (validateToken c key token subID now).accepted = true →
    (parseWriteToken c key token now').status = .invalid

/-- A token is minted for what it will be read as: its ids are UTF-8, and a path of its scope that
is not UTF-8 has its coerced form in the scope, if that is a path. -/
def Mint.Readable : Mint → Prop
  | .token a => a.rand.isSome = true → Utf8.valid a.subID = true
  | .write a => a.rand.isSome = true →
    (Utf8.valid a.subID = true ∧ Utf8.valid a.incarnation = true ∧ Utf8.valid a.wakeID = true ∧
      Utf8.valid a.holder = true) ∧
    ∀ path ∈ a.streams, ∀ p : StreamPath, p.string = Utf8.coerce path.string → p ∈ a.streams

end Meaning

variable {body : Bytes} {log : List Mint}

section Framing

theorem cut_eq_some {token sig : Bytes} :
    cut token = some (body, sig) ↔ token = body ++ 46 :: sig ∧ 46 ∉ body := by
  unfold cut
  constructor
  · intro h
    split at h
    · rename_i hmem
      cases h
      have hbody : 46 ∉ token.takeWhile (· ≠ 46) := fun hin => by
        simpa using List.mem_takeWhile_imp hin
      refine ⟨?_, hbody⟩
      have hsplit := @List.takeWhile_append_dropWhile _ (· ≠ (46 : UInt8)) token
      cases hdrop : token.dropWhile (· ≠ 46) with
      | nil =>
        rw [hdrop, List.append_nil] at hsplit
        rw [← hsplit] at hmem
        exact absurd hmem hbody
      | cons x rest =>
        have hx : x = 46 := by
          have hhead := List.head?_dropWhile_not (· ≠ (46 : UInt8)) token
          rw [hdrop] at hhead
          simpa using hhead
        rw [hdrop, hx] at hsplit
        exact hsplit.symm
    · cases h
  · rintro ⟨rfl, hbody⟩
    have hall : ∀ x ∈ body, decide (x ≠ 46) = true := by
      intro x hx
      rw [decide_eq_true_iff]
      rintro rfl
      exact hbody hx
    rw [if_pos (by simp), List.takeWhile_append_of_pos hall, List.dropWhile_append_of_pos hall]
    simp

theorem dot_notMem_encode (s : Bytes) : 46 ∉ Base64.rawURL.encode s :=
  Base64.notMem_encode (by decide) s

theorem dot_notMem_token (a : TokenArgs) (jti : Bytes) : 46 ∉ a.body c jti := dot_notMem_encode _

theorem dot_notMem_write (a : WriteTokenArgs) (jti : Bytes) : 46 ∉ a.body c jti :=
  dot_notMem_encode _

theorem writeMessage_injective {b b' : Bytes} (h : writeMessage b = writeMessage b') : b = b' :=
  (List.cons.inj (List.append_cancel_left h)).2

theorem dot_mem_writeMessage (b : Bytes) : 46 ∈ writeMessage b := by simp [writeMessage]

theorem cut_sealed (message : Bytes) (h : 46 ∉ body) :
    cut (sealed c key body message) = some (body, hmacSig c key message) :=
  cut_eq_some.mpr ⟨rfl, h⟩

variable {c} {key}

theorem message_token (h : body ∈ log.filterMap (·.message c)) (hdot : 46 ∉ body) :
    ∃ a jti, .token a ∈ log ∧ a.rand = some jti ∧ body = a.body c jti := by
  obtain ⟨m, hm, hmessage⟩ := List.mem_filterMap.mp h
  cases m with
  | token a =>
    obtain ⟨jti, hjti, rfl⟩ := Option.map_eq_some_iff.mp hmessage
    exact ⟨a, jti, hm, hjti, rfl⟩
  | write a =>
    obtain ⟨jti, hjti, rfl⟩ := Option.map_eq_some_iff.mp hmessage
    exact absurd (dot_mem_writeMessage _) hdot

theorem message_write (h : writeMessage body ∈ log.filterMap (·.message c)) :
    ∃ a jti, .write a ∈ log ∧ a.rand = some jti ∧ body = a.body c jti := by
  obtain ⟨m, hm, hmessage⟩ := List.mem_filterMap.mp h
  cases m with
  | token a =>
    obtain ⟨jti, hjti, hbody⟩ := Option.map_eq_some_iff.mp hmessage
    refine absurd (dot_mem_writeMessage body) ?_
    rw [← hbody]
    exact dot_notMem_encode _
  | write a =>
    obtain ⟨jti, hjti, hbody⟩ := Option.map_eq_some_iff.mp hmessage
    exact ⟨a, jti, hm, hjti, (writeMessage_injective hbody).symm⟩

end Framing

variable {token : Bytes}

section Reading

variable {c} {key}

theorem read_token (a : TokenArgs) (jti : Bytes) :
    (Base64.rawURL.decode (a.body c jti)).bind c.token.unmarshal =
      some (a.payload jti).coerced := by
  rw [TokenArgs.body, Base64.decode_encode, Option.bind_some, c.token.unmarshal_marshal]

theorem read_write (a : WriteTokenArgs) (jti : Bytes) :
    (Base64.rawURL.decode (a.body c jti)).bind c.write.unmarshal =
      some (a.payload jti).coerced := by
  rw [WriteTokenArgs.body, Base64.decode_encode, Option.bind_some, c.write.unmarshal_marshal]

theorem validateToken_accepted {subID : Bytes} {now : ℤ}
    (h : (validateToken c key token subID now).accepted = true) :
    ∃ body p, cut token = some (body, hmacSig c key body) ∧
      (Base64.rawURL.decode body).bind c.token.unmarshal = some p ∧ p.sub = subID ∧
      p.generation = (validateToken c key token subID now).generation ∧
      p.exp = (validateToken c key token subID now).exp := by
  generalize hv : validateToken c key token subID now = v at h ⊢
  unfold validateToken at hv
  split at hv
  · subst hv
    cases h
  split at hv
  · subst hv
    cases h
  rename_i body sig hcut
  split at hv
  · subst hv
    cases h
  rename_i hsig
  rw [not_not] at hsig
  subst hsig
  split at hv
  · subst hv
    cases h
  rename_i p hp
  split at hv
  · subst hv
    cases h
  rename_i hsub
  rw [not_not] at hsub
  refine ⟨body, p, hcut, hp, hsub, ?_⟩
  split at hv <;> subst hv <;> exact ⟨rfl, rfl⟩

theorem parseWriteToken_accepted {now : ℤ}
    (h : (parseWriteToken c key token now).status ≠ .invalid) :
    ∃ body p, cut token = some (body, hmacSig c key (writeMessage body)) ∧
      (Base64.rawURL.decode body).bind c.write.unmarshal = some p ∧
      parseWriteToken c key token now =
        { status := if tokenExpired p.exp (unix now) then .expired else .valid
          subID := p.sub
          incarnation := p.incarnation
          generation := p.generation
          wakeID := p.wakeID
          holder := p.holder
          shard := p.shard
          streams := p.streams
          exp := p.exp } := by
  generalize hv : parseWriteToken c key token now = v at h ⊢
  unfold parseWriteToken at hv
  split at hv
  · subst hv
    exact absurd rfl h
  split at hv
  · subst hv
    exact absurd rfl h
  rename_i body sig hcut
  split at hv
  · subst hv
    exact absurd rfl h
  rename_i hsig
  rw [not_not] at hsig
  subst hsig
  split at hv
  · subst hv
    exact absurd rfl h
  rename_i p hp
  split at hv
  · subst hv
    exact absurd rfl h
  exact ⟨body, p, hcut, hp, hv.symm⟩

theorem validateWriteToken_valid {path : StreamPath} {now : ℤ}
    (h : (validateWriteToken c key token path now).status = .valid) :
    (parseWriteToken c key token now).status ≠ .invalid ∧
      path.string ∈ (parseWriteToken c key token now).streams := by
  unfold validateWriteToken at h
  dsimp only at h
  split at h
  · rename_i hne
    exact absurd h hne
  rename_i hvalid
  rw [not_not] at hvalid
  split at h
  · rename_i hmem
    exact ⟨by simp [hvalid], hmem⟩
  · cases h

theorem token_coerced {a : TokenArgs} {p : TokenPayload} {message : Bytes}
    (hcut : cut token = some (body, message))
    (hp : (Base64.rawURL.decode body).bind c.token.unmarshal = some p)
    (ha : generateToken c key a = some token) : ∃ jti, (a.payload jti).coerced = p := by
  obtain ⟨jti, -, rfl⟩ := Option.map_eq_some_iff.mp ha
  rw [cut_sealed c key _ (dot_notMem_token c a jti)] at hcut
  cases hcut
  rw [read_token] at hp
  exact ⟨jti, Option.some.inj hp⟩

theorem write_coerced {a : WriteTokenArgs} {p : WriteTokenPayload} {message : Bytes}
    (hcut : cut token = some (body, message))
    (hp : (Base64.rawURL.decode body).bind c.write.unmarshal = some p)
    (ha : generateWriteToken c key a = some token) : ∃ jti, (a.payload jti).coerced = p := by
  obtain ⟨jti, -, rfl⟩ := Option.map_eq_some_iff.mp ha
  rw [cut_sealed c key _ (dot_notMem_write c a jti)] at hcut
  cases hcut
  rw [read_write] at hp
  exact ⟨jti, Option.some.inj hp⟩

theorem token_minted (hpresent : Presentable c key log token)
    (hcut : cut token = some (body, hmacSig c key body)) :
    ∃ a, .token a ∈ log ∧ generateToken c key a = some token := by
  obtain ⟨htoken, hdot⟩ := cut_eq_some.mp hcut
  obtain ⟨a, jti, ha, hjti, rfl⟩ := message_token (hpresent _ _ hcut _ rfl) hdot
  refine ⟨a, ha, ?_⟩
  rw [generateToken, hjti, Option.map_some, htoken]
  rfl

theorem write_minted (hpresent : Presentable c key log token)
    (hcut : cut token = some (body, hmacSig c key (writeMessage body))) :
    ∃ a, .write a ∈ log ∧ generateWriteToken c key a = some token := by
  obtain ⟨htoken, -⟩ := cut_eq_some.mp hcut
  obtain ⟨a, jti, ha, hjti, rfl⟩ := message_write (hpresent _ _ hcut _ rfl)
  refine ⟨a, ha, ?_⟩
  rw [generateWriteToken, hjti, Option.map_some, htoken]
  rfl

end Reading

section Main

variable {c} {key}

theorem isSome_of_generateToken {a : TokenArgs} (h : generateToken c key a = some token) :
    a.rand.isSome = true := by
  obtain ⟨jti, hjti, -⟩ := Option.map_eq_some_iff.mp h
  rw [hjti]
  rfl

theorem isSome_of_generateWriteToken {a : WriteTokenArgs}
    (h : generateWriteToken c key a = some token) : a.rand.isSome = true := by
  obtain ⟨jti, hjti, -⟩ := Option.map_eq_some_iff.mp h
  rw [hjti]
  rfl

theorem sound_of_readable (hideal : IdealMac c key log) (hread : ∀ m ∈ log, m.Readable)
    (hpresent : Presentable c key log token) : Sound c key log token where
  callback subID now h := by
    obtain ⟨body, p, hcut, hp, rfl, hgen, hexp⟩ := validateToken_accepted h
    refine ⟨token_minted hpresent hcut, ?_⟩
    intro a ha hmint
    obtain ⟨jti, rfl⟩ := token_coerced hcut hp hmint
    have hvalid := hread _ ha (isSome_of_generateToken hmint)
    exact ⟨((Utf8.coerce_eq_iff _).mpr hvalid).symm, hgen, hexp⟩
  write now h := by
    obtain ⟨body, p, hcut, hp, hv⟩ := parseWriteToken_accepted h
    refine ⟨write_minted hpresent hcut, ?_⟩
    intro a ha hmint
    obtain ⟨jti, rfl⟩ := write_coerced hcut hp hmint
    obtain ⟨⟨hsub, hinc, hwake, hholder⟩, -⟩ := hread _ ha (isSome_of_generateWriteToken hmint)
    rw [hv]
    exact ⟨((Utf8.coerce_eq_iff _).mpr hsub).symm, ((Utf8.coerce_eq_iff _).mpr hinc).symm, rfl,
      ((Utf8.coerce_eq_iff _).mpr hwake).symm, ((Utf8.coerce_eq_iff _).mpr hholder).symm, rfl⟩
  scope path now h := by
    obtain ⟨haccepted, hmem⟩ := validateWriteToken_valid h
    obtain ⟨body, p, hcut, hp, hv⟩ := parseWriteToken_accepted haccepted
    refine ⟨write_minted hpresent hcut, ?_⟩
    intro a ha hmint
    obtain ⟨jti, rfl⟩ := write_coerced hcut hp hmint
    obtain ⟨-, hscope⟩ := hread _ ha (isSome_of_generateWriteToken hmint)
    rw [hv] at hmem
    change path.string ∈ (a.streams.map (·.string)).map Utf8.coerce at hmem
    rw [List.map_map, List.mem_map] at hmem
    obtain ⟨path', hpath', heq⟩ := hmem
    exact hscope path' hpath' path heq.symm
  apart subID now now' h := by
    by_contra haccepted
    obtain ⟨body, p, hcut, -⟩ := validateToken_accepted h
    obtain ⟨body', p', hcut', -⟩ := parseWriteToken_accepted haccepted
    rw [hcut] at hcut'
    obtain ⟨rfl, hsig⟩ := Prod.mk.inj (Option.some.inj hcut')
    -- one tag would have been computed on the body and on the body behind the domain
    have hmem := hpresent _ _ hcut _ rfl
    have hsame := hideal _ hmem _ hsig.symm
    apply (cut_eq_some.mp hcut).2
    rw [← hsame]
    exact dot_mem_writeMessage body

theorem presentable_sealed {body message : Bytes} (hideal : IdealMac c key log) (hdot : 46 ∉ body)
    (hmem : message ∈ log.filterMap (·.message c)) :
    Presentable c key log (sealed c key body message) := by
  intro body' sig hcut m hm
  rw [cut_sealed c key message hdot] at hcut
  cases hcut
  rw [hideal _ hmem m hm.symm]
  exact hmem

variable (hkey : minTokenKeyBytes ≤ key.length)
include hkey

theorem validateToken_sealed (a : TokenArgs) (jti : Bytes) (now : ℤ) :
    (validateToken c key (sealed c key (a.body c jti) (a.body c jti)) (Utf8.coerce a.subID)
      now).accepted = true := by
  unfold validateToken
  rw [if_neg (by omega), cut_sealed c key _ (dot_notMem_token c a jti)]
  dsimp only
  rw [if_neg (by simp), read_token]
  dsimp only
  rw [if_neg (by simp [TokenPayload.coerced, TokenArgs.payload])]
  split <;> rfl

theorem parseWriteToken_sealed (a : WriteTokenArgs) (jti : Bytes) :
    parseWriteToken c key (sealed c key (a.body c jti) (writeMessage (a.body c jti)))
        ((a.now + a.ttl) / 1000000000 * 1000000000) =
      { status := .valid
        subID := Utf8.coerce a.subID
        incarnation := Utf8.coerce a.incarnation
        generation := a.generation
        wakeID := Utf8.coerce a.wakeID
        holder := Utf8.coerce a.holder
        shard := a.shard
        streams := (a.streams.map (·.string)).map Utf8.coerce
        exp := unix (a.now + a.ttl) } := by
  have htyp : Utf8.coerce writeTokenTyp = writeTokenTyp := by decide
  unfold parseWriteToken
  rw [if_neg (by omega), cut_sealed c key _ (dot_notMem_write c a jti)]
  dsimp only
  rw [if_neg (by simp), read_write]
  dsimp only [WriteTokenPayload.coerced, WriteTokenArgs.payload]
  rw [if_neg (by simp [htyp]), if_neg (by simp [tokenExpired, unix])]

/-- Tokens mean what they were minted for iff they are minted for what they will be read as. -/
theorem tokens_sound_iff (hideal : IdealMac c key log) :
    (∀ token, Presentable c key log token → Sound c key log token) ↔ ∀ m ∈ log, m.Readable := by
  constructor
  · intro hsound m hm
    cases m with
    | token a =>
      intro hrand
      obtain ⟨jti, hjti⟩ := Option.isSome_iff_exists.mp hrand
      have hmem : a.body c jti ∈ log.filterMap (·.message c) :=
        List.mem_filterMap.mpr ⟨_, hm, by rw [Mint.message, hjti, Option.map_some]⟩
      have hmint : generateToken c key a = some (sealed c key (a.body c jti) (a.body c jti)) := by
        rw [generateToken, hjti, Option.map_some]
      have h := hsound _ (presentable_sealed hideal (dot_notMem_token c a jti) hmem)
      have hid := ((h.callback _ 0 (validateToken_sealed hkey a jti 0)).2 a hm hmint).1
      exact (Utf8.coerce_eq_iff _).mp hid.symm
    | write a =>
      intro hrand
      obtain ⟨jti, hjti⟩ := Option.isSome_iff_exists.mp hrand
      have hmem : writeMessage (a.body c jti) ∈ log.filterMap (·.message c) :=
        List.mem_filterMap.mpr ⟨_, hm, by rw [Mint.message, hjti, Option.map_some]⟩
      have hmint : generateWriteToken c key a =
          some (sealed c key (a.body c jti) (writeMessage (a.body c jti))) := by
        rw [generateWriteToken, hjti, Option.map_some]
      have h := hsound _ (presentable_sealed hideal (dot_notMem_write c a jti) hmem)
      have hparse := @parseWriteToken_sealed c key hkey a jti
      have hids := (h.write _ (by rw [hparse]; simp)).2 a hm hmint
      rw [hparse] at hids
      obtain ⟨hsub, hinc, -, hwake, hholder, -⟩ := hids
      refine ⟨⟨(Utf8.coerce_eq_iff _).mp hsub.symm, (Utf8.coerce_eq_iff _).mp hinc.symm,
        (Utf8.coerce_eq_iff _).mp hwake.symm, (Utf8.coerce_eq_iff _).mp hholder.symm⟩, ?_⟩
      intro path hpath p hp
      refine (h.scope p ((a.now + a.ttl) / 1000000000 * 1000000000) ?_).2 a hm hmint
      rw [validateWriteToken, hparse]
      rw [if_neg (by simp), if_pos]
      rw [hp]
      exact List.mem_map_of_mem (List.mem_map_of_mem hpath)
  · intro hread token hpresent
    exact sound_of_readable hideal hread hpresent

end Main

section Plain

def join (fields : List Bytes) : Bytes := List.intercalate [46] fields

theorem splitOn_join {fields : List Bytes} (hne : fields ≠ []) (h : ∀ f ∈ fields, 46 ∉ f) :
    (join fields).splitOn 46 = fields := List.splitOn_intercalate 46 h hne

def text (s : Bytes) : Bytes := Base64.rawURL.encode (Utf8.coerce s)

theorem dot_notMem_formatInt (n : ℤ) : 46 ∉ Decimal.formatInt n := by
  cases n with
  | ofNat n => exact Decimal.not_mem_formatNat rfl n
  | negSucc n => simpa [Decimal.formatInt] using Decimal.not_mem_formatNat rfl _

theorem decode_text (s : Bytes) : Base64.rawURL.decode (text s) = some (Utf8.coerce s) :=
  Base64.decode_encode _

theorem mapM_decode_text (l : List Bytes) :
    l.mapM (Base64.rawURL.decode ∘ text) = some (l.map Utf8.coerce) := by
  induction l with
  | nil => rfl
  | cons s l ih =>
    rw [List.mapM_cons, Function.comp_apply, decode_text, ih]
    rfl

def plainToken : Codec TokenPayload TokenPayload.coerced where
  marshal p := join [text p.sub, Decimal.formatInt p.generation, Decimal.formatInt p.exp, text p.jti]
  unmarshal s :=
    match s.splitOn 46 with
    | [sub, generation, exp, jti] => do
      return ⟨← Base64.rawURL.decode sub, ← Decimal.parseInt generation, ← Decimal.parseInt exp,
        ← Base64.rawURL.decode jti⟩
    | _ => none
  unmarshal_marshal p := by
    rw [splitOn_join (by simp)]
    · simp [decode_text, TokenPayload.coerced]
    · simp [text, dot_notMem_encode, dot_notMem_formatInt]

def plainWrite : Codec WriteTokenPayload WriteTokenPayload.coerced where
  marshal p := join ([text p.typ, text p.sub, text p.incarnation, Decimal.formatInt p.generation,
    text p.wakeID, text p.holder, Decimal.formatInt p.shard, Decimal.formatInt p.exp, text p.jti] ++
    p.streams.map text)
  unmarshal s :=
    match s.splitOn 46 with
    | typ :: sub :: incarnation :: generation :: wakeID :: holder :: shard :: exp :: jti ::
        streams => do
      return ⟨← Base64.rawURL.decode typ, ← Base64.rawURL.decode sub,
        ← Base64.rawURL.decode incarnation, ← Decimal.parseInt generation,
        ← Base64.rawURL.decode wakeID, ← Base64.rawURL.decode holder, ← Decimal.parseInt shard,
        ← Decimal.parseInt exp, ← Base64.rawURL.decode jti, ← streams.mapM Base64.rawURL.decode⟩
    | _ => none
  unmarshal_marshal p := by
    rw [splitOn_join (by simp)]
    · simp [decode_text, mapM_decode_text, WriteTokenPayload.coerced]
    · simp [text, dot_notMem_encode, dot_notMem_formatInt]

def plain : Primitives := ⟨fun _ message => message, plainToken, plainWrite⟩

theorem plain_ideal (log : List Mint) : IdealMac plain key log := by
  intro m _ m' h
  have hdecode := Base64.decode_encode m
  rw [← show hmacSig plain key m = Base64.rawURL.encode m from rfl, ← h] at hdecode
  exact Option.some.inj ((Base64.decode_encode m').symm.trans hdecode)

def zeroKey : Bytes := List.replicate 32 0

def tokenFor (id : Bytes) : TokenArgs := ⟨id, 7, 0, 3600000000000, some [1, 2, 3, 4, 5, 6, 7, 8]⟩

def minted (id : Bytes) : Bytes :=
  sealed plain zeroKey ((tokenFor id).body plain [1, 2, 3, 4, 5, 6, 7, 8])
    ((tokenFor id).body plain [1, 2, 3, 4, 5, 6, 7, 8])

theorem presentable_minted (id : Bytes) :
    Presentable plain zeroKey [.token (tokenFor id)] (minted id) :=
  presentable_sealed (plain_ideal _ _) (dot_notMem_token _ _ _) (by simp [Mint.message, tokenFor])

theorem tokens_sound_ascii :
    generateToken plain zeroKey (tokenFor [115]) = some (minted [115]) ∧
      Sound plain zeroKey [.token (tokenFor [115])] (minted [115]) := by
  refine ⟨rfl, (tokens_sound_iff (by decide) (plain_ideal _ _)).mpr ?_ _ (presentable_minted _)⟩
  rw [List.forall_mem_singleton]
  intro _
  decide

/-- A token for an id that is not UTF-8 is accepted for another id. -/
theorem token_of_other_id :
    generateToken plain zeroKey (tokenFor [255]) = some (minted [255]) ∧
      validateToken plain zeroKey (minted [255]) [239, 191, 189] 0 =
        { valid := true, generation := 7, exp := 3600 } ∧
      ¬ Sound plain zeroKey [.token (tokenFor [255])] (minted [255]) := by
  refine ⟨rfl, by decide +kernel, ?_⟩
  intro h
  have haccepted : (validateToken plain zeroKey (minted [255]) [239, 191, 189] 0).accepted = true :=
    validateToken_sealed (by decide) (tokenFor [255]) _ 0
  have hid := ((h.callback _ _ haccepted).2 (tokenFor [255]) (by simp) rfl).1
  cases hid

end Plain

end Chronicle.Webhook.Tokens
