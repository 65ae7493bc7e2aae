import Chronicle.Store.Json
import Chronicle.Webhook.Tokens

/-! # Compact JWS

A token is a header, a payload and an Ed25519 signature, each in base64. The signature
covers the first two segments as they are received, and the third is decoded from its
text, in which line breaks are skipped.
-/

namespace Chronicle.Webhook.Jws

section Model

def jwsAlgEdDSA : Bytes := Bytes.ascii "EdDSA"

def publicKeySize : ℕ := 32

structure JoseHeader where
  alg : Bytes
  typ : Bytes
  kid : Bytes
  deriving DecidableEq, Repr

def JoseHeader.coerced (h : JoseHeader) : JoseHeader :=
  ⟨Utf8.coerce h.alg, Utf8.coerce h.typ, Utf8.coerce h.kid⟩

/-- JSON texts of headers. A decoder reads one value without unknown fields and leaves the rest;
what was written is read with its strings coerced to UTF-8, and nothing is said about other
texts. -/
structure HeaderJson where
  marshal : JoseHeader → Bytes
  decode : Bytes → Option (JoseHeader × Bytes)
  decode_marshal : ∀ h, decode (marshal h) = some (h.coerced, [])

structure Ed25519 where
  sign : Bytes → Bytes → Bytes
  verify : Bytes → Bytes → Bytes → Bool

/-- A signing key; the private half is empty where only verification is needed. -/
structure SigningKey where
  kid : Bytes
  publicKey : Bytes
  privateKey : Bytes
  deriving DecidableEq, Repr

inductive SignError where
  | noPrivateKey
  | typRequired
  deriving DecidableEq, Repr

inductive VerifyError where
  | typRequired
  | notCompact
  | headerEncoding
  | headerJson
  | algorithm
  | tokenType
  | kidRequired
  | unknownKid
  | signatureEncoding
  | signatureInvalid
  | payloadEncoding
  deriving DecidableEq, Repr

abbrev KidResolver := Bytes → Option Bytes

variable (ed : Ed25519) (json : HeaderJson)

def signingInput (key : SigningKey) (typ payload : Bytes) : Bytes :=
  Base64.rawURL.encode (json.marshal ⟨jwsAlgEdDSA, typ, key.kid⟩) ++
    46 :: Base64.rawURL.encode payload

def signCompactJWS (key : SigningKey) (typ payload : Bytes) : Except SignError Bytes :=
  if key.privateKey = [] then .error .noPrivateKey
  else if typ = [] then .error .typRequired
  else
    let input := signingInput json key typ payload
    .ok (input ++ 46 :: Base64.rawURL.encode (ed.sign key.privateKey input))

def resolverForKeys (keys : List SigningKey) : KidResolver := fun kid =>
  (keys.find? fun k => k.kid = kid).map SigningKey.publicKey

/-- One value, with nothing but blanks behind it. -/
def strictJSONUnmarshal (data : Bytes) : Option JoseHeader :=
  match json.decode data with
  | some (h, rest) => if rest.all Json.isSpace then some h else none
  | none => none

def compactParts (token : Bytes) : Option (Bytes × Bytes × Bytes) :=
  match token.splitOn 46 with
  | [header, body, signature] => some (header, body, signature)
  | _ => none

def ensure (e : VerifyError) (p : Prop) [Decidable p] : Except VerifyError Unit :=
  if p then .ok () else .error e

def orError {α : Type} (e : VerifyError) : Option α → Except VerifyError α
  | some a => .ok a
  | none => .error e

def verifyCompactJWS (token expectedTyp : Bytes) (keyFor : KidResolver) :
    Except VerifyError Bytes := do
  ensure .typRequired (expectedTyp ≠ [])
  let (header, body, signature) ← orError .notCompact (compactParts token)
  let hdrRaw ← orError .headerEncoding (Base64.rawURL.decodeStrict header)
  let hdr ← orError .headerJson (strictJSONUnmarshal json hdrRaw)
  ensure .algorithm (hdr.alg = jwsAlgEdDSA)
  ensure .tokenType (hdr.typ = expectedTyp)
  ensure .kidRequired (hdr.kid ≠ [])
  let pub ← orError .unknownKid (keyFor hdr.kid)
  ensure .unknownKid (pub.length = publicKeySize)
  let sig ← orError .signatureEncoding (Base64.rawURL.decodeStrict signature)
  ensure .signatureInvalid (ed.verify pub (header ++ 46 :: body) sig)
  orError .payloadEncoding (Base64.rawURL.decodeStrict body)

end Model

/-! ## Accepted tokens -/

variable {ed : Ed25519} {json : HeaderJson} {token expectedTyp payload : Bytes}
  {keyFor : KidResolver}

section Accepted

def signedPart (token : Bytes) : Bytes := [46].intercalate ((token.splitOn 46).take 2)

def signatureOf (token : Bytes) : Option Bytes :=
  (token.splitOn 46)[2]?.bind Base64.rawURL.decodeStrict

def headerOf (json : HeaderJson) (token : Bytes) : Option JoseHeader :=
  (token.splitOn 46).head?.bind fun header =>
    (Base64.rawURL.decodeStrict header).bind (strictJSONUnmarshal json)

def resolvedKey (json : HeaderJson) (keyFor : KidResolver) (token : Bytes) : Option Bytes :=
  (headerOf json token).bind fun hdr => keyFor hdr.kid

structure Segments (token header body signature : Bytes) : Prop where
  token_eq : token = header ++ 46 :: (body ++ 46 :: signature)
  header : 46 ∉ header
  body : 46 ∉ body
  signature : 46 ∉ signature

section Segments

variable {header body signature : Bytes}

theorem Segments.split (h : Segments token header body signature) :
    token.splitOn 46 = [header, body, signature] := by
  rw [h.token_eq, List.splitOn_append_cons_self_of_not_mem h.header,
    List.splitOn_append_cons_self_of_not_mem h.body, List.splitOn_eq_singleton h.signature]

theorem Segments.of_split (h : token.splitOn 46 = [header, body, signature]) :
    Segments token header body signature := by
  have hmem : ∀ l ∈ token.splitOn 46, 46 ∉ l := fun l hl hmem =>
    (Bytes.mem_splitOn hl 46 hmem).1 rfl
  rw [h] at hmem
  refine ⟨?_, hmem _ (by simp), hmem _ (by simp), hmem _ (by simp)⟩
  rw [← @List.intercalate_splitOn _ token _ _ 46, h]
  simp [List.intercalate]

theorem Segments.signedPart_eq (h : Segments token header body signature) :
    signedPart token = header ++ 46 :: body := by
  rw [signedPart, h.split]
  simp [List.intercalate]

theorem Segments.signatureOf_eq (h : Segments token header body signature) :
    signatureOf token = Base64.rawURL.decodeStrict signature := by
  rw [signatureOf, h.split]
  rfl

theorem Segments.headerOf_eq (h : Segments token header body signature) :
    headerOf json token = (Base64.rawURL.decodeStrict header).bind (strictJSONUnmarshal json) := by
  rw [headerOf, h.split]
  rfl

theorem Segments.inj {header' body' : Bytes} (h : Segments token header body signature)
    (hheader : 46 ∉ header') (heq : header' ++ 46 :: body' = header ++ 46 :: body) :
    header' = header ∧ body' = body := by
  have hsplit := congrArg (List.splitOn 46) heq
  rw [List.splitOn_append_cons_self_of_not_mem hheader,
    List.splitOn_append_cons_self_of_not_mem h.header, List.cons.injEq] at hsplit
  obtain ⟨rfl, -⟩ := hsplit
  exact ⟨rfl, (List.cons.inj (List.append_cancel_left heq)).2⟩

end Segments

theorem bind_eq_ok {α β : Type} {x : Except VerifyError α} {f : α → Except VerifyError β} {b : β}
    (h : (x >>= f) = .ok b) : ∃ a, x = .ok a ∧ f a = .ok b := by
  cases x with
  | error => cases h
  | ok a => exact ⟨a, rfl, h⟩

theorem ensure_eq_ok {e : VerifyError} {p : Prop} [Decidable p] {u : Unit}
    (h : ensure e p = .ok u) : p := by
  unfold ensure at h
  split at h
  · assumption
  · cases h

theorem orError_eq_ok {α : Type} {e : VerifyError} {x : Option α} {a : α}
    (h : orError e x = .ok a) : x = some a := by
  cases x with
  | none => cases h
  | some a' =>
    cases h
    rfl

theorem compactParts_eq_some {header body signature : Bytes}
    (h : compactParts token = some (header, body, signature)) :
    Segments token header body signature := by
  unfold compactParts at h
  split at h
  · cases h
    exact .of_split ‹_›
  · cases h

theorem verifyCompactJWS_ok (h : verifyCompactJWS ed json token expectedTyp keyFor = .ok payload) :
    ∃ header body signature hdr pub sig, Segments token header body signature ∧
      headerOf json token = some hdr ∧ hdr.typ = expectedTyp ∧ keyFor hdr.kid = some pub ∧
      Base64.rawURL.decodeStrict signature = some sig ∧
      ed.verify pub (header ++ 46 :: body) sig = true ∧
      Base64.rawURL.decodeStrict body = some payload := by
  obtain ⟨_, -, h⟩ := bind_eq_ok h
  obtain ⟨⟨header, body, signature⟩, hparts, h⟩ := bind_eq_ok h
  obtain ⟨hdrRaw, hraw, h⟩ := bind_eq_ok h
  obtain ⟨hdr, hjson, h⟩ := bind_eq_ok h
  obtain ⟨_, -, h⟩ := bind_eq_ok h
  obtain ⟨_, htyp, h⟩ := bind_eq_ok h
  obtain ⟨_, -, h⟩ := bind_eq_ok h
  obtain ⟨pub, hpub, h⟩ := bind_eq_ok h
  obtain ⟨_, -, h⟩ := bind_eq_ok h
  obtain ⟨sig, hsig, h⟩ := bind_eq_ok h
  obtain ⟨_, hverify, hpayload⟩ := bind_eq_ok h
  have hseg := compactParts_eq_some (orError_eq_ok hparts)
  refine ⟨header, body, signature, hdr, pub, sig, hseg, ?_, ensure_eq_ok htyp, orError_eq_ok hpub,
    orError_eq_ok hsig, ensure_eq_ok hverify, orError_eq_ok hpayload⟩
  rw [hseg.headerOf_eq, orError_eq_ok hraw, Option.bind_some, orError_eq_ok hjson]

end Accepted

/-! ## Unforgeable signatures -/

section Unforgeable

variable (ed : Ed25519) (json : HeaderJson)

structure Call where
  key : SigningKey
  typ : Bytes
  payload : Bytes
  deriving DecidableEq, Repr

structure Call.Signs (c : Call) (pub message sig : Bytes) : Prop where
  key : c.key.publicKey = pub
  input : signingInput json c.key c.typ c.payload = message
  returned : signCompactJWS ed json c.key c.typ c.payload =
    .ok (message ++ 46 :: Base64.rawURL.encode sig)

/-- Under the given keys a signature verifies for a message only if it is the one that a call
produced for that message. -/
structure StronglyUnforgeable (log : List Call) (keys : Set Bytes) : Prop where
  produced : ∀ pub ∈ keys, ∀ message sig, ed.verify pub message sig = true →
    ∃ c ∈ log, c.Signs ed json pub message sig
  one : ∀ pub ∈ keys, ∀ message sig, ed.verify pub message sig = true →
    ∀ c ∈ log, ∀ sig', c.Signs ed json pub message sig' → sig' = sig
  bound : ∀ pub ∈ keys, ∀ pub' ∈ keys, ∀ message message' sig, ed.verify pub message sig = true →
    ed.verify pub' message' sig = true → message = message'

/-- A token is byte for byte what a call returned under the key that the token resolves to, with the
expected type and the payload that verification returns. -/
def Minted (log : List Call) (keyFor : KidResolver) (token expectedTyp payload : Bytes) : Prop :=
  ∃ c ∈ log, signCompactJWS ed json c.key c.typ c.payload = .ok token ∧
    resolvedKey json keyFor token = some c.key.publicKey ∧ c.typ = expectedTyp ∧
    c.payload = payload

def NoBreaks (token : Bytes) : Prop := 13 ∉ token ∧ 10 ∉ token

/-- The signed part of a token was signed, under the key that the token resolves to, for a type that
is valid UTF-8. -/
def ValidTyp (log : List Call) (keyFor : KidResolver) (token : Bytes) : Prop :=
  ∃ c ∈ log, ∃ pub sig, resolvedKey json keyFor token = some pub ∧
    c.Signs ed json pub (signedPart token) sig ∧ Utf8.valid c.typ = true

variable {ed json} {log : List Call} {keys : Set Bytes}

theorem strictJSONUnmarshal_marshal (h : JoseHeader) :
    strictJSONUnmarshal json (json.marshal h) = some h.coerced := by
  rw [strictJSONUnmarshal, json.decode_marshal]
  rfl

theorem Segments.of_call {header body signature : Bytes}
    (h : Segments token header body signature) (c : Call)
    (hinput : signingInput json c.key c.typ c.payload = header ++ 46 :: body) :
    headerOf json token = some (JoseHeader.coerced ⟨jwsAlgEdDSA, c.typ, c.key.kid⟩) ∧
      Base64.rawURL.decodeStrict body = some c.payload := by
  obtain ⟨hheader, hbody⟩ := h.inj (Tokens.dot_notMem_encode _) hinput
  constructor
  · rw [h.headerOf_eq, ← hheader, Base64.decodeStrict_encode, Option.bind_some,
      strictJSONUnmarshal_marshal]
  · rw [← hbody, Base64.decodeStrict_encode]

theorem noBreaks_append_dot {s t : Bytes} (hs : NoBreaks s) (ht : NoBreaks t) :
    NoBreaks (s ++ 46 :: t) := by
  simp only [NoBreaks, List.mem_append, List.mem_cons, not_or] at hs ht ⊢
  exact ⟨⟨hs.1, by decide, ht.1⟩, hs.2, by decide, ht.2⟩

theorem noBreaks_encode (s : Bytes) : NoBreaks (Base64.rawURL.encode s) :=
  ⟨Base64.notMem_encode (by decide) s, Base64.notMem_encode (by decide) s⟩

theorem signCompactJWS_ok {key : SigningKey} {typ : Bytes}
    (h : signCompactJWS ed json key typ payload = .ok token) :
    ∃ sig, token = signingInput json key typ payload ++ 46 :: Base64.rawURL.encode sig := by
  unfold signCompactJWS at h
  split at h
  · cases h
  · split at h
    · cases h
    · cases h
      exact ⟨_, rfl⟩

theorem noBreaks_signCompactJWS {key : SigningKey} {typ : Bytes}
    (h : signCompactJWS ed json key typ payload = .ok token) : NoBreaks token := by
  obtain ⟨sig, rfl⟩ := signCompactJWS_ok h
  exact noBreaks_append_dot (noBreaks_append_dot (noBreaks_encode _) (noBreaks_encode _))
    (noBreaks_encode _)

theorem signs_of_returned {c : Call}
    (h : signCompactJWS ed json c.key c.typ c.payload = .ok token) :
    ∃ sig, c.Signs ed json c.key.publicKey (signedPart token) sig := by
  obtain ⟨sig, htoken⟩ := signCompactJWS_ok h
  have hseg : Segments token _ _ (Base64.rawURL.encode sig) :=
    ⟨by rw [htoken, signingInput, List.append_assoc, List.cons_append], Tokens.dot_notMem_encode _,
      Tokens.dot_notMem_encode _, Tokens.dot_notMem_encode _⟩
  have hpart : signedPart token = signingInput json c.key c.typ c.payload := hseg.signedPart_eq
  refine ⟨sig, rfl, hpart.symm, ?_⟩
  rw [hpart, ← htoken]
  exact h

theorem encode_eq_of_noBreaks {s b : Bytes} (h : Base64.rawURL.decodeStrict s = some b)
    (hs : NoBreaks s) : Base64.rawURL.encode b = s := by
  rw [Base64.encode_of_decodeStrict h, Base64.filter_eq_self hs.1 hs.2]

theorem Segments.noBreaks {header body signature : Bytes}
    (h : Segments token header body signature) (ht : NoBreaks token) : NoBreaks signature := by
  rw [h.token_eq] at ht
  constructor
  · intro hmem
    exact ht.1 (by simp [hmem])
  · intro hmem
    exact ht.2 (by simp [hmem])

/-- An accepted token is a minted one exactly if it has no line breaks and its type was valid UTF-8;
and of the accepted tokens with one signature exactly one has no line breaks. -/
theorem verifyCompactJWS_minted_iff (hs : StronglyUnforgeable ed json log keys)
    (hkeys : ∀ kid pub, keyFor kid = some pub → pub ∈ keys)
    (h : verifyCompactJWS ed json token expectedTyp keyFor = .ok payload) :
    (Minted ed json log keyFor token expectedTyp payload ↔
      NoBreaks token ∧ ValidTyp ed json log keyFor token) ∧
    ∀ token' expectedTyp' payload' keyFor', (∀ kid pub, keyFor' kid = some pub → pub ∈ keys) →
      verifyCompactJWS ed json token' expectedTyp' keyFor' = .ok payload' →
      signatureOf token' = signatureOf token → NoBreaks token →
        (token' = token ↔ NoBreaks token') := by
  obtain ⟨header, body, signature, hdr, pub, sig, hseg, hhdr, htyp, hpub, hsig, hverify, hpayload⟩ :=
    verifyCompactJWS_ok h
  have hresolved : resolvedKey json keyFor token = some pub := by
    rw [resolvedKey, hhdr, Option.bind_some, hpub]
  refine ⟨⟨?_, ?_⟩, ?_⟩
  · rintro ⟨c, hc, hreturned, hkey, rfl, rfl⟩
    obtain ⟨sig', hsigns⟩ := signs_of_returned hreturned
    refine ⟨noBreaks_signCompactJWS hreturned, c, hc, _, sig', hkey, hsigns, ?_⟩
    rw [hseg.signedPart_eq] at hsigns
    obtain ⟨hheader, -⟩ := hseg.of_call c hsigns.input
    obtain rfl := Option.some.inj (hhdr.symm.trans hheader)
    exact (Utf8.coerce_eq_iff c.typ).mp htyp
  · rintro ⟨hbreaks, c, hc, pub', sig', hkey, hsigns, hvalid⟩
    obtain rfl : pub' = pub := Option.some.inj (hkey.symm.trans hresolved)
    rw [hseg.signedPart_eq] at hsigns
    obtain rfl := hs.one pub' (hkeys _ _ hpub) _ _ hverify c hc sig' hsigns
    obtain ⟨hheader, hbody⟩ := hseg.of_call c hsigns.input
    obtain rfl := Option.some.inj (hhdr.symm.trans hheader)
    refine ⟨c, hc, ?_, by rw [hresolved, hsigns.key], ?_, Option.some.inj (hbody.symm.trans hpayload)⟩
    · rw [hsigns.returned, encode_eq_of_noBreaks hsig (hseg.noBreaks hbreaks), hseg.token_eq,
        List.append_assoc, List.cons_append]
    · rw [← htyp]
      exact ((Utf8.coerce_eq_iff c.typ).mpr hvalid).symm
  · intro token' expectedTyp' payload' keyFor' hkeys' h' hsame hbreaks
    obtain ⟨header', body', signature', hdr', pub', sig', hseg', -, -, hpub', hsig', hverify', -⟩ :=
      verifyCompactJWS_ok h'
    rw [hseg'.signatureOf_eq, hseg.signatureOf_eq, hsig, hsig'] at hsame
    obtain rfl := Option.some.inj hsame
    have hinput := hs.bound pub' (hkeys' _ _ hpub') pub (hkeys _ _ hpub) _ _ _ hverify' hverify
    constructor
    · rintro rfl
      exact hbreaks
    · intro hbreaks'
      obtain ⟨rfl, rfl⟩ := hseg.inj hseg'.header hinput
      have hsignature : signature' = signature := by
        rw [← encode_eq_of_noBreaks hsig' (hseg'.noBreaks hbreaks'),
          ← encode_eq_of_noBreaks hsig (hseg.noBreaks hbreaks)]
      rw [hseg'.token_eq, hseg.token_eq, hsignature]

end Unforgeable

/-! ## A line break behind a token -/

section Breaks

theorem compactParts_of_segments {header body signature : Bytes}
    (h : Segments token header body signature) :
    compactParts token = some (header, body, signature) := by
  rw [compactParts, h.split]

theorem orError_some {α : Type} (e : VerifyError) (a : α) : orError e (some a) = pure a := rfl

theorem decodeStrict_append_break (s : Bytes) :
    Base64.rawURL.decodeStrict (s ++ [10]) = Base64.rawURL.decodeStrict s := by
  have hskip : [10].filter (fun c : UInt8 => c ≠ 13 && c ≠ 10) = [] := by decide
  rw [Base64.Encoding.decodeStrict, List.filter_append, hskip, List.append_nil,
    Base64.Encoding.decodeStrict]

theorem verifyCompactJWS_append_break
    (h : verifyCompactJWS ed json token expectedTyp keyFor = .ok payload) :
    verifyCompactJWS ed json (token ++ [10]) expectedTyp keyFor = .ok payload := by
  obtain ⟨header, body, signature, -, -, -, hseg, -⟩ := verifyCompactJWS_ok h
  have hseg' : Segments (token ++ [10]) header body (signature ++ [10]) := by
    refine ⟨?_, hseg.header, hseg.body, ?_⟩
    · rw [hseg.token_eq]
      simp
    · simpa using hseg.signature
  unfold verifyCompactJWS at h ⊢
  rw [compactParts_of_segments hseg] at h
  rw [compactParts_of_segments hseg']
  simp only [orError_some, pure_bind] at h ⊢
  rw [decodeStrict_append_break]
  exact h

def plainHeader : HeaderJson where
  marshal h := Tokens.join [Tokens.text h.alg, Tokens.text h.typ, Tokens.text h.kid]
  decode s :=
    match s.splitOn 46 with
    | [alg, typ, kid] => do
      return (⟨← Base64.rawURL.decode alg, ← Base64.rawURL.decode typ,
        ← Base64.rawURL.decode kid⟩, [])
    | _ => none
  decode_marshal h := by
    rw [Tokens.splitOn_join (by simp)]
    · simp [Tokens.decode_text, JoseHeader.coerced]
    · simp [Tokens.text, Tokens.dot_notMem_encode]

def wakeCall : Call where
  key := ⟨Bytes.ascii "ds_k", List.replicate 32 7, List.replicate 64 7⟩
  typ := Bytes.ascii "wake+jwt"
  payload := Bytes.ascii "claims"

def wakeInput : Bytes := signingInput plainHeader wakeCall.key wakeCall.typ wakeCall.payload

def wakeEd25519 : Ed25519 where
  sign _ message := message
  verify pub message sig :=
    pub = wakeCall.key.publicKey && message = wakeInput && sig = wakeInput

def wakeToken : Bytes := wakeInput ++ 46 :: Base64.rawURL.encode wakeInput

theorem wake_unforgeable :
    StronglyUnforgeable wakeEd25519 plainHeader [wakeCall] Set.univ := by
  have hverify : ∀ {pub message sig}, wakeEd25519.verify pub message sig = true →
      pub = wakeCall.key.publicKey ∧ message = wakeInput ∧ sig = wakeInput := by
    intro pub message sig h
    simpa [wakeEd25519, and_assoc] using h
  refine ⟨?_, ?_, ?_⟩
  · rintro pub - message sig h
    obtain ⟨rfl, rfl, rfl⟩ := hverify h
    exact ⟨wakeCall, List.mem_singleton_self _, rfl, rfl, rfl⟩
  · rintro pub - message sig h c hc sig' hsigns
    obtain ⟨rfl, rfl, rfl⟩ := hverify h
    obtain rfl := List.mem_singleton.mp hc
    have hreturned : signCompactJWS wakeEd25519 plainHeader wakeCall.key wakeCall.typ
        wakeCall.payload = .ok wakeToken := rfl
    have hok := Except.ok.inj (hreturned.symm.trans hsigns.returned)
    have hencode := (List.cons.inj (List.append_cancel_left hok)).2
    have hdecode := congrArg Base64.rawURL.decode hencode
    rw [Base64.decode_encode, Base64.decode_encode] at hdecode
    exact (Option.some.inj hdecode).symm
  · rintro pub - pub' - message message' sig h h'
    rw [(hverify h).2.1, (hverify h').2.1]

theorem verify_wakeToken :
    verifyCompactJWS wakeEd25519 plainHeader wakeToken wakeCall.typ
      (resolverForKeys [wakeCall.key]) = .ok wakeCall.payload := by
  decide +kernel

theorem minted_wakeToken :
    Minted wakeEd25519 plainHeader [wakeCall] (resolverForKeys [wakeCall.key]) wakeToken
      wakeCall.typ wakeCall.payload := by
  refine (verifyCompactJWS_minted_iff wake_unforgeable (fun _ _ _ => Set.mem_univ _)
    verify_wakeToken).1.mpr ⟨?_, ?_⟩
  · exact ⟨by decide +kernel, by decide +kernel⟩
  · refine ⟨wakeCall, List.mem_singleton_self _, wakeCall.key.publicKey, wakeInput, ?_, ⟨rfl, ?_, rfl⟩,
      by decide⟩
    · decide +kernel
    · decide +kernel

/-- A token with a line break behind it is accepted, and no call has returned it. -/
theorem break_accepted :
    verifyCompactJWS wakeEd25519 plainHeader (wakeToken ++ [10]) wakeCall.typ
        (resolverForKeys [wakeCall.key]) = .ok wakeCall.payload ∧
      signatureOf (wakeToken ++ [10]) = signatureOf wakeToken ∧
      ¬ Minted wakeEd25519 plainHeader [wakeCall] (resolverForKeys [wakeCall.key])
        (wakeToken ++ [10]) wakeCall.typ wakeCall.payload := by
  refine ⟨verifyCompactJWS_append_break verify_wakeToken, by decide +kernel, ?_⟩
  rintro ⟨c, -, hreturned, -⟩
  exact (noBreaks_signCompactJWS hreturned).2 (by simp)

end Breaks

end Chronicle.Webhook.Jws
