import Mathlib.Data.Finmap
import Mathlib.Data.List.TakeWhile
import Chronicle.Lib.Base64
import Chronicle.Lib.Decimal
import Chronicle.Lib.Threads

/-! # Rotation of signing keys

A family of signing keys is a hash from key ids to key material, with a pointer to
the active key. Replicas adopt the active key or install one, rotate it in one
script, and reap retired keys by reading the hash and deleting entry by entry.
-/

namespace Chronicle.Webhook.Keys

section Material

def keyStatusActive : Bytes := Bytes.ascii "active"

def keyStatusRetiring : Bytes := Bytes.ascii "retiring"

def zeroTime : ℤ := -62135596800

def privateKeySize : ℕ := 64

abbrev PrivateKey := { b : Bytes // b.length = privateKeySize }

structure SigningKey where
  kid : Bytes
  privateKey : PrivateKey
  createdAt : ℤ
  status : Bytes
  retireAfter : ℤ := zeroTime
  deriving DecidableEq

def generateSigningKey (kid : Bytes) (privateKey : PrivateKey) (now : ℤ) : SigningKey where
  kid := kid
  privateKey := privateKey
  createdAt := now
  status := keyStatusActive

def join (parts : List Bytes) : Bytes := [58].intercalate parts

def marshalKeyMaterial (k : SigningKey) : Bytes :=
  join ([Base64.rawURL.encode k.privateKey.1, Decimal.formatInt k.createdAt, k.status] ++
    if k.retireAfter = zeroTime then [] else [Decimal.formatInt k.retireAfter])

/-- The value of a decimal whose parse error is ignored: zero, or the nearest limit. -/
def parseInt64D (s : Bytes) : ℤ :=
  ((Decimal.parseSigned s).map fun n => max (-2 ^ 63) (min n (2 ^ 63 - 1))).getD 0

def decodePrivateKey (s : Bytes) : Option PrivateKey :=
  (Base64.rawURL.decode s).bind fun b => if h : b.length = privateKeySize then some ⟨b, h⟩ else none

def unmarshalKeyMaterial (kid material : Bytes) : Option SigningKey :=
  match material.splitOn 58 with
  | [priv, created, status] =>
    (decodePrivateKey priv).map fun privateKey =>
      { kid, privateKey, createdAt := parseInt64D created, status }
  | [priv, created, status, retire] =>
    (decodePrivateKey priv).bind fun privateKey =>
      (Decimal.parseInt64 retire).map fun retireAfter =>
        { kid, privateKey, createdAt := parseInt64D created, status, retireAfter }
  | _ => none

def status (material : Bytes) : Option Bytes := (material.splitOn 58)[2]?

theorem status_join {a b c : Bytes} (parts : List Bytes) (ha : 58 ∉ a) (hb : 58 ∉ b)
    (hc : 58 ∉ c) : status (join (a :: b :: c :: parts)) = some c := by
  cases parts with
  | nil =>
    have hsplit : (join [a, b, c]).splitOn 58 = [a, b, c] :=
      List.splitOn_intercalate 58 (by simp [ha, hb, hc]) (by simp)
    rw [status, hsplit]
    rfl
  | cons d parts =>
    have hjoin : join (a :: b :: c :: d :: parts) =
        a ++ 58 :: (b ++ 58 :: (c ++ 58 :: join (d :: parts))) := by
      simp [join, List.intercalate]
    rw [status, hjoin, List.splitOn_append_cons_self_of_not_mem ha,
      List.splitOn_append_cons_self_of_not_mem hb, List.splitOn_append_cons_self_of_not_mem hc]
    rfl

theorem notMem_formatInt (n : ℤ) : 58 ∉ Decimal.formatInt n := by
  cases n with
  | ofNat n => exact Decimal.not_mem_formatNat rfl n
  | negSucc n =>
    rw [Decimal.formatInt, List.mem_cons, not_or]
    exact ⟨by decide, Decimal.not_mem_formatNat rfl _⟩

theorem status_marshalKeyMaterial {k : SigningKey} (h : 58 ∉ k.status) :
    status (marshalKeyMaterial k) = some k.status :=
  status_join _ (Base64.notMem_encode (by decide) _) (notMem_formatInt _) h

theorem status_unmarshalKeyMaterial {kid material : Bytes} {k : SigningKey}
    (h : unmarshalKeyMaterial kid material = some k) : status material = some k.status := by
  unfold unmarshalKeyMaterial at h
  rw [status]
  split at h
  · rename_i hsplit
    obtain ⟨_, -, rfl⟩ := Option.map_eq_some_iff.mp h
    rw [hsplit]
    rfl
  · rename_i hsplit
    obtain ⟨_, -, h⟩ := Option.bind_eq_some_iff.mp h
    obtain ⟨_, -, rfl⟩ := Option.map_eq_some_iff.mp h
    rw [hsplit]
    rfl
  · cases h

end Material

section Scripts

inductive KeyPurpose where
  | webhook
  | wake
  deriving DecidableEq, Repr

structure KeyFamily where
  keys : Finmap fun _ : Bytes => Bytes := ∅
  activeKid : Option Bytes := none

def capture (s : Bytes) : Option (Bytes × Bytes) :=
  match s.takeWhile (· ≠ 58), s.dropWhile (· ≠ 58) with
  | c :: field, _ :: rest => some (c :: field, rest)
  | _, _ => none

/-- The captures of `^([^:]+):([^:]+):`. -/
def matchMaterial (old : Bytes) : Option (Bytes × Bytes) :=
  (capture old).bind fun (priv, rest) => (capture rest).map fun (created, _) => (priv, created)

def KeyFamily.install (f : KeyFamily) (kid material : Bytes) : KeyFamily where
  keys := f.keys.insert kid material
  activeKid := some kid

/-- Adopt the active key, or install a candidate; the id and the material are returned. -/
def getOrCreateKey (f : KeyFamily) (kid material : Bytes) : KeyFamily × Bytes × Bytes :=
  match f.activeKid.bind fun active => (f.keys.lookup active).map (active, ·) with
  | some reply => (f, reply)
  | none => (f.install kid material, kid, material)

inductive RotateReply where
  | rotated (kid : Bytes)
  | conflict (current : Bytes)
  deriving DecidableEq, Repr

def rotateKey (f : KeyFamily) (expected kid material retireAfter : Bytes) :
    KeyFamily × RotateReply :=
  match f.activeKid with
  | none => (f, .conflict [])
  | some cur =>
    if cur ≠ expected then (f, .conflict cur)
    else
      match f.keys.lookup cur with
      | none => (f, .conflict [])
      | some old =>
        match matchMaterial old with
        | none => (f, .conflict [])
        | some (priv, created) =>
          let retiring := join [priv, created, keyStatusRetiring, retireAfter]
          (KeyFamily.install { f with keys := f.keys.insert cur retiring } kid material,
            .rotated kid)

theorem notMem_capture {s field rest : Bytes} (h : capture s = some (field, rest)) :
    58 ∉ field := by
  unfold capture at h
  split at h
  · rename_i hfield _
    cases h
    rw [← hfield]
    intro hmem
    simpa using List.mem_takeWhile_imp hmem
  · cases h

theorem notMem_matchMaterial {old priv created : Bytes}
    (h : matchMaterial old = some (priv, created)) : 58 ∉ priv ∧ 58 ∉ created := by
  obtain ⟨⟨p, rest⟩, hpriv, h⟩ := Option.bind_eq_some_iff.mp h
  obtain ⟨⟨c, rest'⟩, hcreated, heq⟩ := Option.map_eq_some_iff.mp h
  cases heq
  exact ⟨notMem_capture hpriv, notMem_capture hcreated⟩

/-- A script leaves a family alone, or it makes a new key the active one; the key that was active
before is then marked as retiring. -/
inductive Installs (kid material : Bytes) (f : KeyFamily) : KeyFamily → Prop
  | first (h : ∀ active, f.activeKid = some active → f.keys.lookup active = none) :
      Installs kid material f (f.install kid material)
  | next {cur retiring : Bytes} (hcur : f.activeKid = some cur)
      (hret : status retiring = some keyStatusRetiring) :
      Installs kid material f
        (KeyFamily.install { f with keys := f.keys.insert cur retiring } kid material)

theorem getOrCreateKey_cases {f f' : KeyFamily} {kid material : Bytes} {reply : Bytes × Bytes}
    (h : getOrCreateKey f kid material = (f', reply)) : f' = f ∨ Installs kid material f f' := by
  unfold getOrCreateKey at h
  split at h
  · cases h
    exact .inl rfl
  · rename_i hnone
    cases h
    refine .inr (.first fun active hactive => ?_)
    rw [hactive, Option.bind_some, Option.map_eq_none_iff] at hnone
    exact hnone

theorem rotateKey_cases {f f' : KeyFamily} {expected kid material retireAfter : Bytes}
    {reply : RotateReply} (h : rotateKey f expected kid material retireAfter = (f', reply)) :
    (∃ current, reply = .conflict current ∧ f' = f) ∨
      (reply = .rotated kid ∧ f.activeKid = some expected ∧ Installs kid material f f') := by
  unfold rotateKey at h
  split at h
  · cases h
    exact .inl ⟨_, rfl, rfl⟩
  · rename_i cur hcur
    split at h
    · cases h
      exact .inl ⟨_, rfl, rfl⟩
    · rename_i hexpected
      rw [ne_eq, not_not] at hexpected
      split at h
      · cases h
        exact .inl ⟨_, rfl, rfl⟩
      · split at h
        · cases h
          exact .inl ⟨_, rfl, rfl⟩
        · rename_i priv created hmatch
          cases h
          obtain ⟨hpriv, hcreated⟩ := notMem_matchMaterial hmatch
          refine .inr ⟨rfl, by rw [hcur, hexpected], .next hcur ?_⟩
          exact status_join _ hpriv hcreated (by decide)

end Scripts

/-! ## Replicas -/

section System

structure KeyStore where
  family : KeyPurpose → KeyFamily := fun _ => {}
  minted : Finset Bytes := ∅

def KeyStore.set (w : KeyStore) (purpose : KeyPurpose) (f : KeyFamily) : KeyStore :=
  { w with family := Function.update w.family purpose f }

def KeyStore.mint (w : KeyStore) (kid : Bytes) : KeyStore :=
  { w with minted := insert kid w.minted }

abbrev Entry := Sigma fun _ : Bytes => Bytes

inductive Instr where
  | load (purpose : KeyPurpose) (kid : Bytes) (privateKey : PrivateKey) (now : ℤ)
  | rotate (purpose : KeyPurpose) (expected kid : Bytes) (privateKey : PrivateKey)
      (now retireAfter : ℤ)
  | sweep (purpose : KeyPurpose) (now : ℤ)
  | reap (purpose : KeyPurpose) (now : ℤ) (entry : Entry)

inductive Event where
  | loaded (purpose : KeyPurpose) (kid material : Bytes)
  | rotated (purpose : KeyPurpose) (expected kid : Bytes)
  | conflict (purpose : KeyPurpose) (expected current : Bytes)
  | swept (purpose : KeyPurpose)
  | reaped (purpose : KeyPurpose) (kid : Bytes)
  | kept (purpose : KeyPurpose) (kid : Bytes)
  deriving DecidableEq, Repr

def lapsed (now : ℤ) (k : SigningKey) : Bool :=
  k.status = keyStatusRetiring && k.retireAfter ≠ zeroTime && ¬ now < k.retireAfter * 10 ^ 9

def due (now : ℤ) (entry : Entry) : Bool :=
  (unmarshalKeyMaterial entry.1 entry.2).any (lapsed now)

/-- One step of a replica. The entries of a hash are read in any order. -/
def exec (w : KeyStore) (i : Instr) (order : List Entry) :
    Option (KeyStore × List Instr × Event) :=
  match i with
  | .load purpose kid privateKey now =>
    let material := marshalKeyMaterial (generateSigningKey kid privateKey now)
    let (f, reply) := getOrCreateKey (w.family purpose) kid material
    some ((w.set purpose f).mint kid, [], .loaded purpose reply.1 reply.2)
  | .rotate purpose expected kid privateKey now retireAfter =>
    let material := marshalKeyMaterial (generateSigningKey kid privateKey now)
    match rotateKey (w.family purpose) expected kid material (Decimal.formatInt retireAfter) with
    | (f, .rotated kid') => some ((w.set purpose f).mint kid, [], .rotated purpose expected kid')
    | (f, .conflict cur) => some ((w.set purpose f).mint kid, [], .conflict purpose expected cur)
  | .sweep purpose now =>
    if (order : Multiset Entry) = (w.family purpose).keys.entries then
      some (w, order.map (.reap purpose now), .swept purpose)
    else none
  | .reap purpose now entry =>
    if due now entry then
      let f := w.family purpose
      some (w.set purpose { f with keys := f.keys.erase entry.1 }, [], .reaped purpose entry.1)
    else some (w, [], .kept purpose entry.1)

/-- A replica calls `LoadSigningKey`, `LoadWakeKey`, `RotateKey` or `ReapRetiredKeys`. A call that
ends in an error is a thread that is not continued. -/
def starts : List Instr → Bool
  | [.load ..] => true
  | [.rotate ..] => true
  | [.sweep .webhook now, .sweep .wake now'] => now = now'
  | _ => false

def fresh (w : KeyStore) : Instr → List Entry → Bool
  | .load _ kid _ _, _ => kid ∉ w.minted
  | .rotate _ _ kid _ _ _, _ => kid ∉ w.minted
  | _, _ => true

abbrev Conf := Threads.State KeyStore Instr

def Step : Conf → Option Event → Conf → Prop :=
  Threads.Step exec (fun p => starts p = true) fun w i c => fresh w i c = true

def start : Conf := ⟨{}, []⟩

end System

/-! ## One active key -/

variable {purpose : KeyPurpose} {kid : Bytes}

section Invariant

variable {w w' : KeyStore} {material : Bytes} {f f' : KeyFamily}

/-- The pointer and the marks of a family agree, and all its ids were generated. -/
structure KeyFamily.OneActive (minted : Finset Bytes) (f : KeyFamily) : Prop where
  named : ∀ kid, f.activeKid = some kid → ∃ m, f.keys.lookup kid = some m
  marked : ∀ kid m, f.keys.lookup kid = some m →
    (status m = some keyStatusActive ↔ f.activeKid = some kid)
  known : ∀ kid m, f.keys.lookup kid = some m → kid ∈ minted

def KeyStore.Spent (w : KeyStore) (purpose : KeyPurpose) (kid : Bytes) : Prop :=
  kid ∈ w.minted ∧ (w.family purpose).activeKid ≠ some kid

theorem KeyFamily.OneActive.mono {minted minted' : Finset Bytes} (h : f.OneActive minted)
    (hsub : minted ⊆ minted') : f.OneActive minted' :=
  ⟨h.named, h.marked, fun kid m hm => hsub (h.known kid m hm)⟩

variable {minted : Finset Bytes}

theorem KeyFamily.OneActive.active_mem (h : f.OneActive minted) (hactive : f.activeKid = some kid) :
    kid ∈ minted := by
  obtain ⟨m, hm⟩ := h.named kid hactive
  exact h.known kid m hm

theorem keyStatusRetiring_ne : keyStatusRetiring ≠ keyStatusActive := by decide

theorem KeyFamily.lookup_install (f : KeyFamily) (kid material k : Bytes) :
    (f.install kid material).keys.lookup k =
      if k = kid then some material else f.keys.lookup k := by
  split
  · subst_vars
    exact Finmap.lookup_insert _
  · exact Finmap.lookup_insert_of_ne _ ‹_›

theorem KeyFamily.OneActive.install
    (hno : ∀ k m, f.keys.lookup k = some m → status m ≠ some keyStatusActive)
    (hknown : ∀ k m, f.keys.lookup k = some m → k ∈ minted)
    (hmat : status material = some keyStatusActive) :
    (f.install kid material).OneActive (insert kid minted) := by
  refine ⟨fun k hk => ?_, fun k m hm => ?_, fun k m hm => ?_⟩
  · obtain rfl : kid = k := Option.some.inj hk
    exact ⟨material, by rw [lookup_install, if_pos rfl]⟩
  · rw [lookup_install] at hm
    split at hm
    · cases hm
      subst_vars
      exact iff_of_true hmat rfl
    · rename_i hne
      exact iff_of_false (hno k m hm) fun hk => hne (Option.some.inj hk).symm
  · rw [lookup_install] at hm
    split at hm
    · subst_vars
      exact Finset.mem_insert_self _ _
    · exact Finset.mem_insert_of_mem (hknown k m hm)

theorem KeyFamily.OneActive.installs (h : f.OneActive minted)
    (hmat : status material = some keyStatusActive) (hi : Installs kid material f f') :
    f'.OneActive (insert kid minted) := by
  cases hi with
  | first hnone =>
    refine .install (fun k m hm hact => ?_) h.known hmat
    rw [hnone k ((h.marked k m hm).mp hact)] at hm
    cases hm
  | @next cur retiring hcur hret =>
    have hentry : ∀ k m, (f.keys.insert cur retiring).lookup k = some m →
        (k = cur ∧ m = retiring) ∨ (k ≠ cur ∧ f.keys.lookup k = some m) := by
      intro k m hm
      obtain rfl | hne := eq_or_ne k cur
      · rw [Finmap.lookup_insert] at hm
        exact .inl ⟨rfl, (Option.some.inj hm).symm⟩
      · rw [Finmap.lookup_insert_of_ne _ hne] at hm
        exact .inr ⟨hne, hm⟩
    refine .install (fun k m hm hact => ?_) (fun k m hm => ?_) hmat
    · obtain ⟨rfl, rfl⟩ | ⟨hne, hm⟩ := hentry k m hm
      · exact keyStatusRetiring_ne (Option.some.inj (hret.symm.trans hact))
      · exact hne (Option.some.inj (((h.marked k m hm).mp hact).symm.trans hcur))
    · obtain ⟨rfl, -⟩ | ⟨-, hm⟩ := hentry k m hm
      · exact h.active_mem hcur
      · exact h.known k m hm

theorem KeyFamily.OneActive.erase (h : f.OneActive minted) (hne : f.activeKid ≠ some kid) :
    KeyFamily.OneActive minted { f with keys := f.keys.erase kid } := by
  have hentry : ∀ k m, (f.keys.erase kid).lookup k = some m → f.keys.lookup k = some m := by
    intro k m hm
    obtain rfl | hk := eq_or_ne k kid
    · rw [Finmap.lookup_erase] at hm
      cases hm
    · rwa [Finmap.lookup_erase_ne hk] at hm
  refine ⟨fun k hk => ?_, fun k m hm => ?_, fun k m hm => ?_⟩
  · obtain ⟨m, hm⟩ := h.named k hk
    have hkne : k ≠ kid := by
      rintro rfl
      exact hne hk
    exact ⟨m, by rwa [Finmap.lookup_erase_ne hkne]⟩
  · exact h.marked k m (hentry k m hm)
  · exact h.known k m (hentry k m hm)

/-- What a step does to one family, where further ids may have been generated. -/
inductive Moves (minted minted' : Finset Bytes) (f : KeyFamily) : KeyFamily → Prop
  | same : Moves minted minted' f f
  | installed (kid material : Bytes) (f' : KeyFamily) (hfresh : kid ∉ minted)
      (hminted : minted' = insert kid minted) (hmat : status material = some keyStatusActive)
      (hi : Installs kid material f f') : Moves minted minted' f f'
  | erased (kid : Bytes) (hne : f.activeKid ≠ some kid) :
      Moves minted minted' f { f with keys := f.keys.erase kid }

section Moves

variable {minted minted' : Finset Bytes}

theorem Moves.oneActive (h : Moves minted minted' f f') (hsub : minted ⊆ minted')
    (hf : f.OneActive minted) : f'.OneActive minted' := by
  cases h with
  | same => exact hf.mono hsub
  | installed kid material _ hfresh hminted hmat hi =>
    rw [hminted]
    exact hf.installs hmat hi
  | erased kid hne => exact (hf.erase hne).mono hsub

theorem Moves.activeKid (h : Moves minted minted' f f') :
    f'.activeKid = f.activeKid ∨ ∃ kid ∉ minted, f'.activeKid = some kid := by
  cases h with
  | same => exact .inl rfl
  | installed kid material _ hfresh _ _ hi =>
    refine .inr ⟨kid, hfresh, ?_⟩
    cases hi <;> rfl
  | erased => exact .inl rfl

end Moves

theorem status_generateSigningKey (kid : Bytes) (privateKey : PrivateKey) (now : ℤ) :
    status (marshalKeyMaterial (generateSigningKey kid privateKey now)) = some keyStatusActive :=
  status_marshalKeyMaterial (show 58 ∉ keyStatusActive by decide)

theorem status_of_due {now : ℤ} {entry : Entry} (h : due now entry = true) :
    status entry.2 = some keyStatusRetiring := by
  unfold due at h
  cases hk : unmarshalKeyMaterial entry.1 entry.2 with
  | none =>
    rw [hk] at h
    cases h
  | some k =>
    rw [hk, Option.any_some, lapsed, Bool.and_eq_true, Bool.and_eq_true, decide_eq_true_eq] at h
    rw [status_unmarshalKeyMaterial hk, h.1.1]

/-- What a step does to the store. -/
structure Effect (w : KeyStore) (e : Event) (w' : KeyStore) : Prop where
  minted : w.minted ⊆ w'.minted
  moves : ∀ purpose, Moves w.minted w'.minted (w.family purpose) (w'.family purpose)
  rotated : ∀ purpose expected kid, e = .rotated purpose expected kid →
    (w.family purpose).activeKid = some expected ∧ kid ∉ w.minted ∧
      (w'.family purpose).activeKid = some kid
  reaped : ∀ purpose kid, e = .reaped purpose kid → w.Spent purpose kid

@[simp] theorem KeyStore.family_set (w : KeyStore) (purpose : KeyPurpose) (f : KeyFamily) :
    (w.set purpose f).family = Function.update w.family purpose f := rfl

@[simp] theorem KeyStore.family_mint (w : KeyStore) (kid : Bytes) :
    (w.mint kid).family = w.family := rfl

theorem moves_update {minted minted' : Finset Bytes} {g : KeyPurpose → KeyFamily}
    (h : Moves minted minted' (g purpose) f) (p : KeyPurpose) :
    Moves minted minted' (g p) (Function.update g purpose f p) := by
  obtain rfl | hne := eq_or_ne p purpose
  · rwa [Function.update_self]
  · rw [Function.update_of_ne hne]
    exact .same

theorem exec_effect {i : Instr} {c : List Entry} {k : List Instr} {e : Event}
    (hreap : ∀ purpose now entry, i = .reap purpose now entry →
      status entry.2 = some keyStatusRetiring → w.Spent purpose entry.1)
    (hfresh : fresh w i c = true) (h : exec w i c = some (w', k, e)) : Effect w e w' := by
  cases i with
  | load purpose kid privateKey now =>
    dsimp only [exec] at h
    generalize hresult : getOrCreateKey _ _ _ = result at h
    obtain ⟨f, reply⟩ := result
    cases h
    refine ⟨Finset.subset_insert _ _, moves_update ?_, nofun, nofun⟩
    obtain rfl | hi := getOrCreateKey_cases hresult
    · exact .same
    · exact .installed _ _ _ (of_decide_eq_true hfresh) rfl (status_generateSigningKey _ _ _) hi
  | rotate purpose expected kid privateKey now retireAfter =>
    dsimp only [exec] at h
    generalize hresult : rotateKey _ _ _ _ _ = result at h
    obtain ⟨f, reply⟩ := result
    obtain ⟨cur, rfl, rfl⟩ | ⟨rfl, hactive, hi⟩ := rotateKey_cases hresult
    · cases h
      exact ⟨Finset.subset_insert _ _, moves_update .same, nofun, nofun⟩
    · cases h
      have hkid : kid ∉ w.minted := of_decide_eq_true hfresh
      refine ⟨Finset.subset_insert _ _, moves_update ?_, ?_, nofun⟩
      · exact .installed _ _ _ hkid rfl (status_generateSigningKey _ _ _) hi
      · rintro p expected' kid' heq
        cases heq
        refine ⟨hactive, hkid, ?_⟩
        rw [KeyStore.family_mint, KeyStore.family_set, Function.update_self]
        cases hi <;> rfl
  | sweep purpose now =>
    dsimp only [exec] at h
    split at h
    · cases h
      exact ⟨Finset.Subset.refl _, fun _ => .same, nofun, nofun⟩
    · cases h
  | reap purpose now entry =>
    dsimp only [exec] at h
    split at h
    · rename_i hdue
      cases h
      have hspent := hreap purpose now entry rfl (status_of_due hdue)
      refine ⟨Finset.Subset.refl _, moves_update (.erased _ hspent.2), nofun, ?_⟩
      rintro p kid heq
      cases heq
      exact hspent
    · cases h
      exact ⟨Finset.Subset.refl _, fun _ => .same, nofun, nofun⟩

theorem Effect.spent {e : Event} (h : Effect w e w') (hs : w.Spent purpose kid) :
    w'.Spent purpose kid := by
  refine ⟨h.minted hs.1, fun hactive => ?_⟩
  obtain heq | ⟨kid', hfresh, heq⟩ := (h.moves purpose).activeKid
  · exact hs.2 (heq ▸ hactive)
  · obtain rfl : kid' = kid := Option.some.inj (heq.symm.trans hactive)
    exact hfresh hs.1

/-- Every family has one active key, and what reapers hold as retiring is spent. -/
structure Inv (s : Conf) : Prop where
  families : ∀ purpose, (s.world.family purpose).OneActive s.world.minted
  held : ∀ purpose now entry, s.Pending (.reap purpose now entry) →
    status entry.2 = some keyStatusRetiring → s.world.Spent purpose entry.1

theorem inv_start : Inv start := by
  refine ⟨fun _ => ⟨nofun, fun kid m h => ?_, fun kid m h => ?_⟩, ?_⟩
  · simp [start] at h
  · simp [start] at h
  · rintro purpose now entry ⟨p, hp, -⟩
    cases hp

theorem Inv.retiring {s : Conf} (hs : Inv s)
    (hm : (s.world.family purpose).keys.lookup kid = some material)
    (hret : status material = some keyStatusRetiring) : s.world.Spent purpose kid := by
  refine ⟨(hs.families purpose).known kid material hm, fun hactive => ?_⟩
  have hact := ((hs.families purpose).marked kid material hm).mpr hactive
  exact keyStatusRetiring_ne (Option.some.inj (hret.symm.trans hact))

theorem exec_brings {i j : Instr} {c : List Entry} {k : List Instr} {e : Event}
    (h : exec w i c = some (w', k, e)) (hj : j ∈ k) :
    w' = w ∧ ∃ purpose now entry, j = .reap purpose now entry ∧
      (w.family purpose).keys.lookup entry.1 = some entry.2 := by
  cases i with
  | load purpose kid privateKey now =>
    cases h
    cases hj
  | rotate purpose expected kid privateKey now retireAfter =>
    dsimp only [exec] at h
    split at h
    · cases h
      cases hj
    · cases h
      cases hj
  | sweep purpose now =>
    dsimp only [exec] at h
    split at h
    · rename_i horder
      cases h
      obtain ⟨entry, hentry, rfl⟩ := List.mem_map.mp hj
      refine ⟨rfl, purpose, now, entry, rfl, ?_⟩
      rw [Finmap.lookup_eq_some_iff, ← horder]
      exact hentry
    · cases h
  | reap purpose now entry =>
    dsimp only [exec] at h
    split at h
    · cases h
      cases hj
    · cases h
      cases hj

theorem step_inv {s s' : Conf} {e : Option Event} (hs : Inv s) (h : Step s e s') :
    Inv s' ∧ ((e = none ∧ s'.world = s.world) ∨ ∃ e', e = some e' ∧ Effect s.world e' s'.world) := by
  cases h with
  | @start w ts p hp =>
    refine ⟨⟨hs.families, fun purpose now entry hpend => ?_⟩, .inl ⟨rfl, rfl⟩⟩
    rw [Threads.pending_start] at hpend
    obtain hmem | hpend := hpend
    · unfold starts at hp
      split at hp <;> simp at hmem hp
    · exact hs.held purpose now entry hpend
  | @run w w' ts₁ ts₂ i p c k e hexec hfresh =>
    have heffect : Effect w e w' := by
      refine exec_effect (fun purpose now entry hi => ?_) hfresh hexec
      subst hi
      exact hs.held purpose now entry Threads.pending_head
    refine ⟨⟨fun purpose => ?_, fun purpose now entry hpend hret => ?_⟩, .inr ⟨e, rfl, heffect⟩⟩
    · exact (heffect.moves purpose).oneActive heffect.minted (hs.families purpose)
    · obtain hmem | hpend := Threads.pending_origin hpend
      · obtain ⟨rfl, purpose', now', entry', heq, hlookup⟩ := exec_brings hexec hmem
        cases heq
        exact hs.retiring hlookup hret
      · exact heffect.spent (hs.held purpose now entry hpend hret)

end Invariant

/-! ## Runs -/

section Runs

variable {s s₁ s₂ : Conf} {h h₁ h₂ : List (Option Event)}

def KeyStore.Retiring (w : KeyStore) (purpose : KeyPurpose) (kid : Bytes) : Prop :=
  ∃ m, (w.family purpose).keys.lookup kid = some m ∧ status m = some keyStatusRetiring

def rotatedFrom (purpose : KeyPurpose) (expected : Bytes) : Option Event → Bool
  | some (.rotated p x _) => p = purpose && x = expected
  | _ => false

theorem run_inv (hr : Trace.Run Step start h s) : Inv s :=
  hr.invariant inv_start fun _ _ _ hs hst => (step_inv hs hst).1

theorem step_spent {e : Option Event} (hs : Inv s₁) (hst : Step s₁ e s₂)
    (h : s₁.world.Spent purpose kid) : s₂.world.Spent purpose kid := by
  obtain ⟨-, ⟨-, hw⟩ | ⟨e', -, heffect⟩⟩ := step_inv hs hst
  · rwa [hw]
  · exact heffect.spent h

theorem run_spent (hs : Inv s₁) (hr : Trace.Run Step s₁ h s₂)
    (hspent : s₁.world.Spent purpose kid) : s₂.world.Spent purpose kid := by
  have hboth : Inv s₂ ∧ s₂.world.Spent purpose kid := by
    refine hr.invariant (I := fun s => Inv s ∧ s.world.Spent purpose kid) ⟨hs, hspent⟩ ?_
    rintro s e s' ⟨hs, hspent⟩ hst
    exact ⟨(step_inv hs hst).1, step_spent hs hst hspent⟩
  exact hboth.2

theorem run_active (hs : Inv s₁) (hr : Trace.Run Step s₁ h s₂)
    (hset : (s₁.world.family purpose).activeKid ≠ none) :
    (s₂.world.family purpose).activeKid ≠ none := by
  have hboth : Inv s₂ ∧ (s₂.world.family purpose).activeKid ≠ none := by
    refine hr.invariant (I := fun s => Inv s ∧ (s.world.family purpose).activeKid ≠ none)
      ⟨hs, hset⟩ ?_
    rintro s e s' ⟨hs, hset⟩ hst
    obtain ⟨hs', ⟨-, hw⟩ | ⟨e', -, heffect⟩⟩ := step_inv hs hst
    · exact ⟨hs', by rwa [hw]⟩
    · refine ⟨hs', ?_⟩
      obtain heq | ⟨kid, -, heq⟩ := (heffect.moves purpose).activeKid
      · rwa [heq]
      · simp [heq]
  exact hboth.2

theorem run_reaped (hr : Trace.Run Step start h s) (he : some (.reaped purpose kid) ∈ h) :
    s.world.Spent purpose kid := by
  induction hr with
  | nil => cases he
  | snoc hr hst ih =>
    have hs := run_inv hr
    obtain he | he := List.mem_append.mp he
    · exact step_spent hs hst (ih he)
    · obtain rfl := List.mem_singleton.mp he
      obtain ⟨-, ⟨hnone, -⟩ | ⟨e', heq, heffect⟩⟩ := step_inv hs hst
      · cases hnone
      · cases heq
        exact heffect.spent (heffect.reaped purpose kid rfl)

theorem run_rotated (hr : Trace.Run Step start h s) (purpose : KeyPurpose) (expected : Bytes) :
    h.countP (rotatedFrom purpose expected) = 0 ∨
      (h.countP (rotatedFrom purpose expected) = 1 ∧ s.world.Spent purpose expected) := by
  induction hr with
  | nil => exact .inl rfl
  | @snoc h s s' e hr hst ih =>
    have hs := run_inv hr
    rw [List.countP_append, List.countP_singleton]
    split
    · rename_i hrot
      unfold rotatedFrom at hrot
      split at hrot
      · rename_i p x kid
        obtain ⟨rfl, rfl⟩ : p = purpose ∧ x = expected := by simpa using hrot
        obtain ⟨hs', ⟨hnone, -⟩ | ⟨e', heq, heffect⟩⟩ := step_inv hs hst
        · cases hnone
        · cases heq
          obtain ⟨hactive, hfresh, hactive'⟩ := heffect.rotated p x kid rfl
          obtain hzero | ⟨-, hspent⟩ := ih
          · have hmem := (hs.families p).active_mem hactive
            refine .inr ⟨by rw [hzero], heffect.minted hmem, fun hx => ?_⟩
            obtain rfl : kid = x := Option.some.inj (hactive'.symm.trans hx)
            exact hfresh hmem
          · exact absurd hactive hspent.2
      · cases hrot
    · rw [Nat.add_zero]
      exact ih.imp_right fun hspent => ⟨hspent.1, step_spent hs hst hspent.2⟩

/-- In every run, with a part of it marked off: once the pointer is set it names an entry that is
marked active, no other entry is marked active, at most one rotation away from a key succeeds, and
a key that was retiring or was reaped does not become active again. -/
theorem rotation_one_active (hr₁ : Trace.Run Step start h₁ s₁) (hr₂ : Trace.Run Step s₁ h₂ s₂)
    (purpose : KeyPurpose) :
    ((s₁.world.family purpose).activeKid ≠ none →
      ∃ kid m, (s₂.world.family purpose).activeKid = some kid ∧
        (s₂.world.family purpose).keys.lookup kid = some m ∧ status m = some keyStatusActive) ∧
    (∀ kid m, (s₂.world.family purpose).keys.lookup kid = some m →
      status m = some keyStatusActive → (s₂.world.family purpose).activeKid = some kid) ∧
    (∀ expected, (h₁ ++ h₂).countP (rotatedFrom purpose expected) ≤ 1) ∧
    (∀ kid, s₁.world.Retiring purpose kid ∨ some (.reaped purpose kid) ∈ h₁ →
      (s₂.world.family purpose).activeKid ≠ some kid) := by
  have hs₁ := run_inv hr₁
  have hr := hr₁.append hr₂
  have hfamily := (run_inv hr).families purpose
  refine ⟨fun hset => ?_, fun kid m hm hact => (hfamily.marked kid m hm).mp hact,
    fun expected => ?_, fun kid hkid => ?_⟩
  · obtain ⟨kid, hkid⟩ := Option.ne_none_iff_exists'.mp (run_active hs₁ hr₂ hset)
    obtain ⟨m, hm⟩ := hfamily.named kid hkid
    exact ⟨kid, m, hkid, hm, (hfamily.marked kid m hm).mpr hkid⟩
  · obtain hzero | ⟨hone, -⟩ := run_rotated hr purpose expected
    · rw [hzero]
      exact Nat.zero_le 1
    · exact hone.le
  · obtain ⟨m, hm, hret⟩ | hreaped := hkid
    · exact (run_spent hs₁ hr₂ (hs₁.retiring hm hret)).2
    · exact (run_spent hs₁ hr₂ (run_reaped hr₁ hreaped)).2

def reapedTurns : List (Threads.Turn Instr (List Entry)) :=
  let privateKey : PrivateKey := ⟨List.replicate 64 0, rfl⟩
  let material := marshalKeyMaterial (generateSigningKey [2] privateKey 100)
  let retiring := marshalKeyMaterial
    { generateSigningKey [1] privateKey 0 with status := keyStatusRetiring, retireAfter := 160 }
  [.start [.load .webhook [1] privateKey 0], .run 0 [],
    .start [.rotate .webhook [1] [2] privateKey 100 160], .run 0 [],
    .start [.sweep .webhook (160 * 10 ^ 9), .sweep .wake (160 * 10 ^ 9)],
    .run 0 [⟨[2], material⟩, ⟨[1], retiring⟩], .run 0 [], .run 0 [],
    .start [.rotate .webhook [1] [3] privateKey 170 230], .run 0 []]

def adoptedTurns : List (Threads.Turn Instr (List Entry)) :=
  [.start [.load .webhook [4] ⟨List.replicate 64 1, rfl⟩ 200], .run 0 []]

theorem reapedTurns_run :
    (Trace.execAll (Threads.turn exec starts fresh) start reapedTurns).isSome := by
  decide +kernel

theorem adoptedTurns_run :
    (Trace.execAll (Threads.turn exec starts fresh)
      (Trace.executed _ _ _ reapedTurns_run).2 adoptedTurns).isSome := by
  decide +kernel

theorem rotation_one_active_reaped :
    some (.reaped .webhook [1]) ∈ (Trace.executed _ _ _ reapedTurns_run).1 ∧
      ((Trace.executed _ _ _ adoptedTurns_run).2.world.family .webhook).activeKid ≠ some [1] := by
  have hreaped : some (.reaped .webhook [1]) ∈ (Trace.executed _ _ _ reapedTurns_run).1 := by
    decide +kernel
  exact ⟨hreaped, (rotation_one_active (Trace.executed_run Threads.turn_step reapedTurns_run)
    (Trace.executed_run Threads.turn_step adoptedTurns_run) .webhook).2.2.2 [1] (.inr hreaped)⟩

end Runs

end Chronicle.Webhook.Keys
