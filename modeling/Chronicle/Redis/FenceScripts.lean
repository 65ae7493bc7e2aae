import Chronicle.Redis.Serialization

/-! # The scripts of the write fence

The scripts that grant, revoke and seal the marker of a claim on one stream. The
marker is in the slot of its stream, so each of them is one step there. What they
do is said relative to one claim: markers and seals of its authority never fall
behind it.
-/

namespace Chronicle.Redis

open Decimal

section Scripts

def StreamKeys.setMarker (k : StreamKeys) (key : Bytes) (fields : List (MarkerField × Bytes)) :
    StreamKeys :=
  { k with
    fences := Function.update k.fences key
      (fields.foldl (fun row fv => Function.update row fv.1 (some fv.2)) (k.fences key)) }

def sealedGeneration (m : MetaHash) (authority : Bytes) : Option Bytes :=
  (m (.wfseal authority)).bind fun v => (sealParts v).map (·.1)

def lastFenced (m : MetaHash) : Bytes := (m .wfLastOff).getD ((m .tail).getD [])

def recordSeal (k : StreamKeys) (m : MetaHash) (authority gen wake : Bytes) : StreamKeys :=
  k.hsetAll [(.wfseal authority, gen ++ 58 :: (wake ++ 58 :: lastFenced m)), (.wfSealGen, gen),
    (.wfSealOff, lastFenced m)]

inductive GrantReply where
  | ok (superseded : Option Bytes)
  | notFound
  | fenced
  deriving DecidableEq, Repr

def installMarker (f : FenceArgs) (incarnation lease : Bytes) (k : StreamKeys) : StreamKeys :=
  k.setMarker f.markerKey
    [(.state, Bytes.ascii "live"), (.generation, f.gen), (.wakeId, f.wake), (.holder, f.holder),
      (.leaseUntilNs, lease), (.streamIncarnation, incarnation)]

/-- Install or renew the marker of a claim. A higher generation seals the one that it supersedes,
and a renewal never shortens a lease. -/
def grantScript (f : FenceArgs) (leaseUntilNs : Bytes) (now : ℤ) (k : StreamKeys) :
    Option (StreamKeys × GrantReply) :=
  match tonumber leaseUntilNs with
  | none => none
  | some lease =>
    if lease ≤ now then some (k, .fenced)
    else
      match metaMap k, k.info .incarnation with
      | none, _ => some (k, .notFound)
      | _, none => some (k, .notFound)
      | some m, some incarnation =>
        match fenceAuth f.markerKey with
        | none => none
        | some authority =>
          let sealGen := sealedGeneration m authority
          if sealGen.any fun g => intCmp f.gen g ≤ 0 then some (k, .fenced)
          else
            let row := k.fences f.markerKey
            match row .generation with
            | none => some (installMarker f incarnation leaseUntilNs k, .ok none)
            | some cur =>
              if intCmp f.gen cur < 0 then some (k, .fenced)
              else if intCmp f.gen cur = 0 then
                if row .state ≠ some (Bytes.ascii "live") ∨ row .wakeId ≠ some f.wake ∨
                    row .holder ≠ some f.holder then some (k, .fenced)
                else
                  match row .leaseUntilNs with
                  | none => none
                  | some held =>
                    (tonumber held).map fun t =>
                      (installMarker f incarnation (if lease < t then held else leaseUntilNs) k,
                        .ok none)
              else if m .wf = some one ∧ sealGen.all fun g => 0 < intCmp cur g then
                (row .wakeId).map fun wake =>
                  (installMarker f incarnation leaseUntilNs (recordSeal k m authority cur wake),
                    .ok (some cur))
              else some (installMarker f incarnation leaseUntilNs k, .ok none)

/-- Whether the marker belongs to a later claim, or to another one of the same generation. -/
def staleClaim (f : FenceArgs) (row : MarkerHash) : Bool :=
  (row .generation).any fun cur =>
    intCmp f.gen cur < 0 ||
      intCmp f.gen cur = 0 && (row .wakeId ≠ some f.wake || row .holder ≠ some f.holder)

/-- Leave a marker that refuses the claim. -/
def tombstone (f : FenceArgs) (k : StreamKeys) : StreamKeys :=
  k.setMarker f.markerKey
    [(.state, Bytes.ascii "revoked"), (.generation, f.gen), (.wakeId, f.wake), (.holder, f.holder),
      (.leaseUntilNs, [48])]

inductive RevokeReply where
  | ok
  | stale
  deriving DecidableEq, Repr

def revokeScript (f : FenceArgs) (k : StreamKeys) : StreamKeys × RevokeReply :=
  if staleClaim f (k.fences f.markerKey) then (k, .stale) else (tombstone f k, .ok)

inductive SealReply where
  | stale
  | notFound
  | unfenced
  | already (gen off : Bytes)
  | sealed (gen off : Bytes)
  deriving DecidableEq, Repr

/-- End a claim on a stream: its marker is left as a tombstone, and a write-fenced stream records
the generation as sealed unless a later one is. -/
def sealScript (f : FenceArgs) (k : StreamKeys) : Option (StreamKeys × SealReply) :=
  if staleClaim f (k.fences f.markerKey) then some (k, .stale)
  else
    match metaMap k with
    | none => some (tombstone f k, .notFound)
    | some m =>
      if m .wf ≠ some one then some (tombstone f k, .unfenced)
      else
        match fenceAuth f.markerKey with
        | none => none
        | some authority =>
          let record := some (recordSeal (tombstone f k) m authority f.gen f.wake,
            SealReply.sealed f.gen (lastFenced m))
          match m (.wfseal authority) with
          | none => record
          | some v =>
            match sealParts v with
            | none => none
            | some (gen, _, off) =>
              if intCmp f.gen gen ≤ 0 then some (tombstone f k, .already gen off) else record

end Scripts

section Fields

variable (k : StreamKeys) (f : FenceArgs)

theorem setMarker_claim (state lease : Bytes) (more : List (MarkerField × Bytes))
    (hmore : ∀ fv ∈ more, fv.1 = .streamIncarnation) {row : MarkerHash}
    (hrow : (k.setMarker f.markerKey
      ([(.state, state), (.generation, f.gen), (.wakeId, f.wake), (.holder, f.holder),
        (.leaseUntilNs, lease)] ++ more)).fences f.markerKey = row) :
    row .generation = some f.gen ∧ row .wakeId = some f.wake ∧ row .holder = some f.holder := by
  subst hrow
  have hkept : ∀ (row : MarkerHash) (g : MarkerField), g ≠ .streamIncarnation →
      more.foldl (fun (row : MarkerHash) fv => Function.update row fv.1 (some fv.2)) row g =
        row g := by
    intro row g hg
    induction more generalizing row with
    | nil => rfl
    | cons fv more ih =>
      rw [List.foldl_cons, ih (fun fv hfv => hmore fv (List.mem_cons_of_mem _ hfv)),
        Function.update_of_ne]
      rw [hmore fv List.mem_cons_self]
      exact hg
  dsimp only [StreamKeys.setMarker]
  rw [Function.update_self, List.foldl_append]
  refine ⟨?_, ?_, ?_⟩ <;> rw [hkept _ _ (by decide)] <;> rfl

theorem recordSeal_info (m : MetaHash) (authority gen wake : Bytes) (g : MetaField)
    (hgen : g ≠ .wfSealGen) (hoff : g ≠ .wfSealOff) :
    (recordSeal k m authority gen wake).info g =
      if g = .wfseal authority then some (gen ++ 58 :: (wake ++ 58 :: lastFenced m))
      else k.info g := by
  unfold recordSeal
  simp [hgen, hoff]

end Fields

/-- A claim of the same authority, which is the claim itself at its generation. -/
structure Peer (F f : AppendFence) : Prop where
  authority : fenceAuthority f = fenceAuthority F
  shard : 0 ≤ f.shard
  same : f.generation = F.generation → f.wakeID = F.wakeID ∧ f.holder = F.holder

section Claim

variable (path : Path) (F : AppendFence)

/-- A marker of the authority has a generation, and at that of the claim it is the marker of the
claim. -/
def MarkerKept (k : StreamKeys) : Prop :=
  ∀ cur, k.fences (appendFenceKey path F) .generation = some cur →
    ∃ γ, cur = formatInt γ ∧ (γ = F.generation →
      k.fences (appendFenceKey path F) .wakeId = some F.wakeID ∧
        k.fences (appendFenceKey path F) .holder = some F.holder)

def SealKept (k : StreamKeys) : Prop :=
  ∀ v, k.info (.wfseal (fenceAuthority F)) = some v →
    ∃ γ wake off, sealParts v = some (formatInt γ, wake, off)

def Overtaken (k : StreamKeys) : Prop :=
  ∃ γ, k.fences (appendFenceKey path F) .generation = some (formatInt γ) ∧ F.generation < γ

def SealedFrom (k : StreamKeys) : Prop :=
  ∃ v γ wake off, k.info (.wfseal (fenceAuthority F)) = some v ∧
    sealParts v = some (formatInt γ, wake, off) ∧ F.generation ≤ γ

/-- If the stream is write-fenced, it refuses the claim for good. -/
def Settled (k : StreamKeys) : Prop :=
  k.info .wf = some one → k.info .tail = none ∨ SealedFrom F k ∨ Overtaken path F k

/-- The stream refuses the claim for good. -/
def Shut (k : StreamKeys) : Prop :=
  k.info .tail = none ∨ k.info .wf = some one ∧ SealedFrom F k ∨ Overtaken path F k

/-- What a step can do to the metadata of a stream: the stream goes, or it keeps its kind and
a seal of the claim. -/
structure MetaMoves (k k' : StreamKeys) : Prop where
  kept : SealKept F k'
  stream : k'.info .tail = none ∨ k'.info .wf = k.info .wf ∧
    (k.info .tail = none → k'.info .tail = none) ∧ (SealedFrom F k → SealedFrom F k')

/-- What a step can do to the marker on a stream: it never falls behind. -/
structure MarkerMoves (k k' : StreamKeys) : Prop where
  kept : MarkerKept path F k'
  overtaken : Overtaken path F k → Overtaken path F k'

/-- What a step can do to a stream. -/
structure Moves (k k' : StreamKeys) : Prop where
  info : MetaMoves F k k'
  marker : MarkerMoves path F k k'

variable {path F} {k k' : StreamKeys} {f : AppendFence}

theorem Moves.settled (h : Moves path F k k') (hs : Settled path F k) : Settled path F k' := by
  intro hwf
  rcases h.info.stream with hgone | ⟨hkind, htail, hseal⟩
  · exact .inl hgone
  rw [hkind] at hwf
  exact (hs hwf).imp htail (Or.imp hseal h.marker.overtaken)

theorem Moves.shut (h : Moves path F k k') (hs : Shut path F k) : Shut path F k' := by
  rcases h.info.stream with hgone | ⟨hkind, htail, hseal⟩
  · exact .inl hgone
  · exact hs.imp htail (Or.imp (fun hwf => ⟨hkind.trans hwf.1, hseal hwf.2⟩) h.marker.overtaken)

theorem Settled.shut (h : Settled path F k) (hwf : k.info .wf = some one) : Shut path F k :=
  (h hwf).imp_right (Or.imp_left fun hs => ⟨hwf, hs⟩)

theorem MetaMoves.of_info (h : SealKept F k) (hinfo : k'.info = k.info) : MetaMoves F k k' := by
  refine ⟨?_, .inr ⟨by rw [hinfo], by rw [hinfo]; exact id, ?_⟩⟩
  · unfold SealKept
    rwa [hinfo]
  · unfold SealedFrom
    rw [hinfo]
    exact id

theorem MarkerMoves.of_fences (h : MarkerKept path F k) (hf : k'.fences = k.fences) :
    MarkerMoves path F k k' := by
  refine ⟨?_, ?_⟩
  · unfold MarkerKept
    rwa [hf]
  · unfold Overtaken
    rw [hf]
    exact id

theorem Moves.refl (hm : MarkerKept path F k) (hs : SealKept F k) : Moves path F k k :=
  ⟨.of_info hs rfl, .of_fences hm rfl⟩

theorem appendFenceKey_congr (path : Path) (h : fenceAuthority f = fenceAuthority F) :
    appendFenceKey path f = appendFenceKey path F := by
  rw [appendFenceKey, appendFenceKey, h]

theorem Peer.key (hf : Peer F f) (path : Path) :
    (claimArgs path f).markerKey = appendFenceKey path F ∧
      fenceAuth (appendFenceKey path F) = some (fenceAuthority F) := by
  have hkey := appendFenceKey_congr path hf.authority
  refine ⟨hkey, ?_⟩
  rw [← hkey, ← hf.authority]
  exact fenceAuth_appendFenceKey path hf.shard

theorem MarkerMoves.marked (hf : Peer F f)
    (hrow : k'.fences (appendFenceKey path F) .generation = some (formatInt f.generation) ∧
      k'.fences (appendFenceKey path F) .wakeId = some f.wakeID ∧
      k'.fences (appendFenceKey path F) .holder = some f.holder)
    (hle : ∀ γ, k.fences (appendFenceKey path F) .generation = some (formatInt γ) →
      γ ≤ f.generation) : MarkerMoves path F k k' := by
  rcases hrow with ⟨hgen, hwake, hholder⟩
  refine ⟨?_, ?_⟩
  · intro cur hcur
    rw [hgen, Option.some.injEq] at hcur
    refine ⟨f.generation, hcur.symm, fun heq => ?_⟩
    rw [hwake, hholder, (hf.same heq).1, (hf.same heq).2]
    exact ⟨rfl, rfl⟩
  · rintro ⟨γ, hγ, hlt⟩
    exact ⟨f.generation, hgen, hlt.trans_le (hle γ hγ)⟩

theorem MetaMoves.recorded (m : MetaHash) {γ : ℤ} (wake : Bytes)
    (hle : ∀ v γ' wake off, k.info (.wfseal (fenceAuthority F)) = some v →
      sealParts v = some (formatInt γ', wake, off) → γ' ≤ γ) :
    MetaMoves F k (recordSeal k m (fenceAuthority F) (formatInt γ) wake) := by
  have hseal := recordSeal_info k m (fenceAuthority F) (formatInt γ) wake
    (.wfseal (fenceAuthority F)) nofun nofun
  rw [if_pos rfl] at hseal
  rcases sealParts_formatInt γ wake (lastFenced m) with ⟨wake', off', hparts⟩
  refine ⟨?_, .inr ⟨recordSeal_info k m _ _ _ .wf nofun nofun, ?_, ?_⟩⟩
  · intro v hv
    rw [hseal, Option.some.injEq] at hv
    exact ⟨γ, wake', off', hv ▸ hparts⟩
  · rw [recordSeal_info k m _ _ _ .tail nofun nofun]
    exact id
  · rintro ⟨v, γ', w, off, hv, hp, hge⟩
    exact ⟨_, γ, wake', off', hseal, hparts, hge.trans (hle v γ' w off hv hp)⟩

theorem sealedFrom_recordSeal {m : MetaHash} {γ : ℤ} {wake : Bytes} (h : F.generation ≤ γ) :
    SealedFrom F (recordSeal k m (fenceAuthority F) (formatInt γ) wake) := by
  rcases sealParts_formatInt γ wake (lastFenced m) with ⟨wake', off', hparts⟩
  refine ⟨_, γ, wake', off', ?_, hparts, h⟩
  rw [recordSeal_info k m _ _ _ (.wfseal (fenceAuthority F)) nofun nofun, if_pos rfl]

theorem not_later {cur : Bytes} {n γ : ℤ}
    (hcur : k.fences (appendFenceKey path F) .generation = some cur)
    (hcmp : ¬ intCmp (formatInt n) cur < 0)
    (h : k.fences (appendFenceKey path F) .generation = some (formatInt γ)) : γ ≤ n := by
  rw [hcur, Option.some.injEq] at h
  rw [h, intCmp_formatInt, sign_neg] at hcmp
  exact not_lt.mp hcmp

theorem installMarker_moves (hf : Peer F f) (incarnation lease : Bytes)
    (hle : ∀ γ, k.fences (appendFenceKey path F) .generation = some (formatInt γ) →
      γ ≤ f.generation) :
    MarkerMoves path F k (installMarker (claimArgs path f) incarnation lease k') := by
  refine .marked hf ?_ hle
  rw [← appendFenceKey_congr path hf.authority]
  exact setMarker_claim k' (claimArgs path f) (Bytes.ascii "live") lease
    [(.streamIncarnation, incarnation)] (by simp) rfl

theorem tombstone_moves (hf : Peer F f)
    (hle : ∀ γ, k.fences (appendFenceKey path F) .generation = some (formatInt γ) →
      γ ≤ f.generation) : MarkerMoves path F k (tombstone (claimArgs path f) k) := by
  refine .marked hf ?_ hle
  rw [← appendFenceKey_congr path hf.authority]
  exact setMarker_claim k (claimArgs path f) (Bytes.ascii "revoked") [48] [] (by simp) rfl

theorem grantScript_moves {lease : Bytes} {now : ℤ} {r : GrantReply} (hm : MarkerKept path F k)
    (hs : SealKept F k) (hf : Peer F f)
    (h : grantScript (claimArgs path f) lease now k = some (k', r)) : Moves path F k k' := by
  have hrefl : Moves path F k k := .refl hm hs
  rcases hf.key path with ⟨hkey, hauth⟩
  unfold grantScript at h
  split at h
  · cases h
  split at h
  · cases h; exact hrefl
  split at h
  · cases h; exact hrefl
  · cases h; exact hrefl
  rename_i m incarnation hmeta hinc
  cases (metaMap_present hmeta).1
  simp only [hkey, hauth] at h
  split at h
  · cases h; exact hrefl
  split at h
  · rename_i hnone
    cases h
    refine ⟨.of_info hs rfl, installMarker_moves hf _ _ ?_⟩
    intro γ hγ
    rw [hnone] at hγ
    cases hγ
  rename_i cur hcur
  split at h
  · cases h; exact hrefl
  rename_i hcmp
  have hle : ∀ γ, k.fences (appendFenceKey path F) .generation = some (formatInt γ) →
      γ ≤ f.generation := fun γ => not_later hcur hcmp
  split at h
  · split at h
    · cases h; exact hrefl
    split at h
    · cases h
    rcases Option.map_eq_some_iff.mp h with ⟨t, -, heq⟩
    cases heq
    exact ⟨.of_info hs rfl, installMarker_moves hf _ _ hle⟩
  split at h
  · rename_i hseal
    rcases Option.map_eq_some_iff.mp h with ⟨wake, -, heq⟩
    cases heq
    rcases hm cur hcur with ⟨γ, rfl, -⟩
    refine ⟨?_, installMarker_moves hf _ _ hle⟩
    have hrec : MetaMoves F k (recordSeal k k.info (fenceAuthority F) (formatInt γ) wake) := by
      refine .recorded k.info wake ?_
      intro v γ' wake' off hv hparts
      have := hseal.2
      simp only [sealedGeneration, hv, hparts, Option.bind_some, Option.map_some, Option.all_some,
        intCmp_formatInt, decide_eq_true_eq, sign_pos] at this
      exact this.le
    exact ⟨hrec.kept, hrec.stream⟩
  · cases h
    exact ⟨.of_info hs rfl, installMarker_moves hf _ _ hle⟩

theorem not_later_of_staleClaim
    (h : staleClaim (claimArgs path f) (k.fences (appendFenceKey path F)) = false) {γ : ℤ}
    (hγ : k.fences (appendFenceKey path F) .generation = some (formatInt γ)) :
    γ ≤ f.generation := by
  unfold staleClaim at h
  rw [hγ, Option.any_some, Bool.or_eq_false_iff] at h
  exact not_later hγ (of_decide_eq_false h.1) hγ

theorem overtaken_of_staleClaim (hm : MarkerKept path F k) (hf : Peer F f)
    (hge : F.generation ≤ f.generation)
    (h : staleClaim (claimArgs path f) (k.fences (appendFenceKey path F)) = true) :
    Overtaken path F k := by
  unfold staleClaim at h
  rw [Option.any_eq_true] at h
  rcases h with ⟨cur, hcur, hstale⟩
  rcases hm cur hcur with ⟨γ, rfl, hsame⟩
  refine ⟨γ, hcur, ?_⟩
  simp only [claimArgs, intCmp_formatInt, Bool.or_eq_true, Bool.and_eq_true, decide_eq_true_eq,
    sign_neg, sign_eq_zero] at hstale
  rcases hstale with hlt | ⟨rfl, hother⟩
  · exact hge.trans_lt hlt
  · refine lt_of_le_of_ne hge ?_
    intro heq
    rcases hsame heq.symm with ⟨hwake, hholder⟩
    rcases hf.same heq.symm with ⟨hw, hh⟩
    simp [hwake, hholder, hw, hh] at hother

theorem revokeScript_moves (hm : MarkerKept path F k) (hs : SealKept F k) (hf : Peer F f) :
    Moves path F k (revokeScript (claimArgs path f) k).1 := by
  rcases hf.key path with ⟨hkey, hauth⟩
  unfold revokeScript
  rw [hkey]
  split
  · exact .refl hm hs
  · rename_i hstale
    exact ⟨.of_info hs rfl,
      tombstone_moves hf fun γ => not_later_of_staleClaim (by simpa using hstale)⟩

/-- A seal by the claim or by a later one settles the stream. -/
theorem sealScript_moves {r : SealReply} (hm : MarkerKept path F k) (hs : SealKept F k)
    (hf : Peer F f) (h : sealScript (claimArgs path f) k = some (k', r)) :
    Moves path F k k' ∧ (F.generation ≤ f.generation → Settled path F k') := by
  rcases hf.key path with ⟨hkey, hauth⟩
  unfold sealScript at h
  simp only [hkey, hauth] at h
  split at h
  · rename_i hstale
    cases h
    exact ⟨.refl hm hs, fun hge _ => .inr (.inr (overtaken_of_staleClaim hm hf hge hstale))⟩
  rename_i hstale
  have htomb : MarkerMoves path F k (tombstone (claimArgs path f) k) :=
    tombstone_moves hf fun γ => not_later_of_staleClaim (by simpa using hstale)
  have hkeep : Moves path F k (tombstone (claimArgs path f) k) := ⟨.of_info hs rfl, htomb⟩
  split at h
  · rename_i hnone
    cases h
    refine ⟨hkeep, fun _ _ => .inl ?_⟩
    unfold metaMap at hnone
    split at hnone
    · assumption
    · cases hnone
  rename_i m hmeta
  cases (metaMap_present hmeta).1
  split at h
  · rename_i hwf
    cases h
    exact ⟨hkeep, fun _ hwf' => absurd hwf' hwf⟩
  have hrecord : ∀ {k' r}, (∀ v γ' wake off, k.info (.wfseal (fenceAuthority F)) = some v →
      sealParts v = some (formatInt γ', wake, off) → γ' ≤ f.generation) →
      some (recordSeal (tombstone (claimArgs path f) k) k.info (fenceAuthority F)
        (claimArgs path f).gen (claimArgs path f).wake, SealReply.sealed (claimArgs path f).gen
          (lastFenced k.info)) = some (k', r) →
        Moves path F k k' ∧ (F.generation ≤ f.generation → Settled path F k') := by
    intro k' r hle heq
    cases heq
    have hrec := MetaMoves.recorded (k := tombstone (claimArgs path f) k) k.info
      f.wakeID hle
    have hmark : MarkerMoves path F k (recordSeal (tombstone (claimArgs path f) k) k.info
      (fenceAuthority F) (formatInt f.generation) f.wakeID) := ⟨htomb.kept, htomb.overtaken⟩
    exact ⟨⟨⟨hrec.kept, hrec.stream⟩, hmark⟩,
      fun hge _ => .inr (.inl (sealedFrom_recordSeal hge))⟩
  split at h
  · rename_i hnone
    refine hrecord ?_ h
    intro v γ' wake off hv
    rw [hnone] at hv
    cases hv
  rename_i v hv
  rcases hs v hv with ⟨γ, wake, off, hparts⟩
  simp only [hparts, claimArgs, intCmp_formatInt, sign_nonpos] at h
  split at h
  · rename_i hle
    cases h
    exact ⟨hkeep, fun hge _ => .inr (.inl ⟨v, γ, wake, off, hv, hparts, hge.trans hle⟩)⟩
  · rename_i hgt
    refine hrecord ?_ h
    intro v' γ' wake' off' hv' hparts'
    rw [hv, Option.some.injEq] at hv'
    rw [← hv', hparts, Option.some.injEq, Prod.mk.injEq] at hparts'
    rw [← formatInt_injective hparts'.1]
    exact (not_le.mp hgt).le

section Append

variable {a : AppendArgs} {r : Reply} {reason : FenceReason}

theorem MetaMoves.of_fields (h : SealKept F k) (hwf : k'.info .wf = k.info .wf)
    (htail : k.info .tail = none → k'.info .tail = none)
    (hseal : k'.info (.wfseal (fenceAuthority F)) = k.info (.wfseal (fenceAuthority F))) :
    MetaMoves F k k' := by
  refine ⟨?_, .inr ⟨hwf, htail, ?_⟩⟩
  · unfold SealKept
    rwa [hseal]
  · unfold SealedFrom
    rw [hseal]
    exact id

/-- An append moves no marker and no seal. -/
theorem appendScript_moves (hm : MarkerKept path F k) (hs : SealKept F k)
    (h : appendScript a k = some (k', r)) : Moves path F k k' := by
  rcases appendScript_keys h with ⟨hk, -⟩ | ⟨rfl, -⟩ | ⟨v, now, rfl, -, htail, -⟩
  · rcases hk with rfl | ⟨f, v, rfl | rfl, rfl⟩
    · exact .refl hm hs
    all_goals
      exact ⟨.of_fields hs (by simp) (by simp) (by simp), .of_fences hm rfl⟩
  · exact ⟨⟨nofun, .inl rfl⟩, .of_fences hm rfl⟩
  · refine ⟨.of_fields hs ?_ ?_ ?_, .of_fences hm (commit_fences ..)⟩
    · rw [commit_info_of_not_committed rfl (by decide)]
      simp
    · rw [htail]
      nofun
    · rw [commit_info_of_not_committed rfl (by simp)]
      simp

theorem evaluateFenced_refuses {streamFenced hasProducer : Bool} {incarnation : Option Bytes}
    {f : FenceArgs} {row : MarkerHash} {sealGen : Option Bytes} {now : ℤ}
    {pEpoch gen holder : Bytes} (hshut : (streamFenced && sealGen.any fun g => intCmp f.gen g ≤ 0) = true ∨
      ∃ cur, row .generation = some cur ∧ intCmp cur f.gen ≠ 0)
    (h : evaluateFenced streamFenced incarnation f row sealGen now hasProducer pEpoch =
      some (reason, gen, holder)) : reason ≠ .none := by
  unfold evaluateFenced at h
  split at h
  · rename_i state cur hstate hcur
    rcases Option.map_eq_some_iff.mp h with ⟨live, -, heq⟩
    rw [Prod.mk.injEq] at heq
    rw [← heq.1]
    rcases hshut with hseal | ⟨cur', hcur', hne⟩
    · rw [if_pos hseal]
      nofun
    · rw [hcur, Option.some.injEq] at hcur'
      split
      · nofun
      · rw [if_pos (by simp [hcur', hne])]
        nofun
  · cases h
    split <;> nofun

theorem fenceRung_shut {now : ℤ} {hasProducer : Bool} {producerId pEpoch gen holder : Bytes}
    (hF : 0 ≤ F.shard) (hf : fenceAuthority f = fenceAuthority F)
    (hle : f.generation ≤ F.generation)
    (hshut : k.info .wf = some one ∧ SealedFrom F k ∨ Overtaken path F k)
    (h : fenceRung k.info k (some (claimArgs path f)) now hasProducer producerId pEpoch =
      some (reason, gen, holder)) : reason ≠ .none := by
  have hauth : fenceAuth (claimArgs path f).markerKey = some (fenceAuthority F) := by
    rw [← fenceAuth_appendFenceKey path hF]
    exact congrArg fenceAuth (appendFenceKey_congr path hf)
  have hmarker : Overtaken path F k → ∃ cur, k.fences (claimArgs path f).markerKey .generation =
      some cur ∧ intCmp cur (claimArgs path f).gen ≠ 0 := by
    rintro ⟨γ, hγ, hlt⟩
    have hkey : (claimArgs path f).markerKey = appendFenceKey path F := appendFenceKey_congr path hf
    refine ⟨formatInt γ, by rw [hkey, hγ], ?_⟩
    rw [claimArgs, intCmp_formatInt, Ne, sign_eq_zero]
    omega
  unfold fenceRung at h
  simp only [hauth] at h
  split at h
  · rename_i hnone
    refine evaluateFenced_refuses (.inr (hmarker (hshut.resolve_left ?_))) h
    rintro ⟨-, v, γ, wake, off, hv, -⟩
    rw [hnone] at hv
    cases hv
  · rename_i v hv
    split at h
    · cases h
    · rename_i g wake off hparts
      refine evaluateFenced_refuses ?_ h
      refine hshut.imp ?_ hmarker
      rintro ⟨hwf, v', γ, wake', off', hv', hparts', hge⟩
      rw [hv, Option.some.injEq] at hv'
      rw [← hv', hparts, Option.some.injEq, Prod.mk.injEq] at hparts'
      have hgen : intCmp (claimArgs path f).gen (formatInt γ) ≤ 0 := by
        rw [claimArgs, intCmp_formatInt, sign_nonpos]
        omega
      simp [hwf, hparts'.1, hgen]

/-- A stream that is shut refuses every fenced append of the claim or of an earlier one. -/
theorem appendScript_shut (hF : 0 ≤ F.shard) (hf : fenceAuthority f = fenceAuthority F)
    (hle : f.generation ≤ F.generation) (hshut : Shut path F k)
    (ha : a.fence = some (claimArgs path f)) (h : appendScript a k = some (k', r)) :
    r.status ≠ .ok := by
  rcases appendScript_inv h with
    ⟨now, -, ⟨-, hs⟩ | ⟨hpresent, ⟨-, -, hs⟩ | ⟨gen, holder, hrung, -⟩⟩⟩
  · exact hs
  · rw [hs]
    nofun
  · rw [ha] at hrung
    exact absurd rfl (fenceRung_shut hF hf hle (hshut.resolve_left hpresent) hrung)

end Append

end Claim

end Chronicle.Redis
