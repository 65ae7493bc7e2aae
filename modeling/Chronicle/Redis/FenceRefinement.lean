import Chronicle.Redis.AppendRefinement
import Chronicle.Redis.FenceScripts

/-! # The write fence of both backends

The memory store keeps markers and seals as values. Redis keeps them as fields of
hashes that the scripts take apart again. From corresponding records the write
fence decides alike, and grants, revocations and seals answer alike and leave
corresponding records.
-/

namespace Chronicle.Redis

open Decimal

section Client

def grantResult : GrantReply → Except StoreError Bool
  | .ok _ => .ok true
  | .notFound => .ok false
  | .fenced => .error .appendFenced

def grantAppendFence (now : Time) (path : Path) (f : AppendFence) (k : StreamKeys) :
    StreamKeys × Except StoreError Bool :=
  if ¬ f.complete ∨ f.leaseUntilNs ≤ now then (k, .error .appendFenced)
  else
    match grantScript (claimArgs path f) (formatInt f.leaseUntilNs) now k with
    | none => (k, .error .scriptError)
    | some (k, reply) => (k, grantResult reply)

def revokeAppendFence (path : Path) (f : AppendFence) (k : StreamKeys) :
    StreamKeys × Option StoreError :=
  if ¬ f.complete then (k, some .appendFenced)
  else ((revokeScript (claimArgs path f) k).1, none)

/-- The outcome, generation and offset of a seal; the offset is empty without one. -/
def decodeSealReply (outcome : SealOutcome) (gen off : Bytes) : Except StoreError SealResult :=
  match parseInt64 gen, if off = [] then some zeroOffset else Offset.parseOffset off with
  | some generation, some finalOffset => .ok ⟨outcome, generation, finalOffset⟩
  | _, _ => .error .malformedReply

def sealResult : SealReply → Except StoreError SealResult
  | .stale => .ok { outcome := .stale }
  | .notFound => .ok { outcome := .notFound }
  | .unfenced => decodeSealReply .unfenced [48] []
  | .already gen off => decodeSealReply .already gen off
  | .sealed gen off => decodeSealReply .sealed gen off

def sealAppendFence (path : Path) (f : AppendFence) (k : StreamKeys) :
    StreamKeys × Except StoreError SealResult :=
  if ¬ f.complete then (k, .error .appendFenced)
  else
    match sealScript (claimArgs path f) k with
    | none => (k, .error .scriptError)
    | some (k, reply) => (k, sealResult reply)

end Client

section Records

/-- Both parts of an offset are in range. -/
def FitsUint64 (o : Offset) : Prop := o.readSeq < 2 ^ 64 ∧ o.byteOffset < 2 ^ 64

structure SealFits (sl : WriteFenceSeal) : Prop where
  generation : FitsInt64 sl.generation
  wakeID : (58 : UInt8) ∉ sl.wakeID
  offset : FitsUint64 sl.offset

/-- The keys of a stream that stand for a stream of the memory store, whether or not it has
an incarnation. -/
structure StreamAgrees (st : MemoryStream) (k : StreamKeys) : Prop where
  info : ∀ f, f ≠ .refCount → k.info f = metaFields st f
  refs : refCountOf k.info = some st.metadata.refCount.toInt
  msg : k.msg = st.messages.map frame
  prod : ∀ pid, k.prod pid = (st.metadata.producers pid).map encodeProducerState
  tail : FitsUint64 st.metadata.currentOffset
  lastFenced : ∀ o, st.lastFencedOff = some o → FitsUint64 o
  seals : ∀ authority sl, st.seals authority = some sl → SealFits sl

/-- The hash of a marker that stands for a marker of the memory store. Only a stream with an
incarnation gets a live marker. -/
structure MarkerAgrees (m : WriteFenceMarker) (row : MarkerHash) : Prop where
  mirrors : MarkerMirrors m row
  wakeId : row .wakeId = some m.wakeID
  holder : row .holder = some m.holder
  plain : (58 : UInt8) ∉ m.wakeID
  named : m.state = .live → m.streamIncarnation ≠ []

def RowAgrees (marker : Option WriteFenceMarker) (row : MarkerHash) : Prop :=
  match marker with
  | none => row = fun _ => none
  | some m => MarkerAgrees m row

/-- Corresponding records of a stream at an instant: both backends have the stream or neither
has it, and they have the same markers. -/
structure FencesAgree (s : MemoryStore) (path : Path) (k : StreamKeys) (wall : Time) : Prop where
  stream : match s.streams.lookup path with
    | none => k = k.del
    | some st => StreamAgrees st k
  markers : ∀ f : AppendFence,
    RowAgrees (s.marker path (fenceAuthority f) wall).2 (k.fences (appendFenceKey path f))

end Records

section Streams

variable {st : MemoryStream} {k : StreamKeys}

theorem Mirrors.agrees (h : Mirrors st k)
    (hlast : ∀ o, st.lastFencedOff = some o → FitsUint64 o)
    (hseals : ∀ authority sl, st.seals authority = some sl → SealFits sl) : StreamAgrees st k where
  info := h.info
  refs := h.refs
  msg := h.msg
  prod := h.prod
  tail := ⟨h.small.1.trans (by norm_num), h.small.2.trans (by norm_num)⟩
  lastFenced := hlast
  seals := hseals

theorem StreamAgrees.setMarker (h : StreamAgrees st k) (key : Bytes)
    (fields : List (MarkerField × Bytes)) : StreamAgrees st (k.setMarker key fields) :=
  ⟨h.info, h.refs, h.msg, h.prod, h.tail, h.lastFenced, h.seals⟩

theorem StreamAgrees.shows (h : StreamAgrees st k) : Shows st k.info := fun f hf _ => h.info f hf

theorem lastFenced_agrees (h : StreamAgrees st k) :
    lastFenced k.info = (st.lastFencedOff.getD st.metadata.currentOffset).string := by
  have hlast : k.info .wfLastOff = st.lastFencedOff.map Offset.string := h.info .wfLastOff (by simp)
  rw [lastFenced, hlast, h.shows.tail]
  cases st.lastFencedOff <;> rfl

theorem StreamAgrees.fits_last (h : StreamAgrees st k) :
    FitsUint64 (st.lastFencedOff.getD st.metadata.currentOffset) := by
  cases hlast : st.lastFencedOff with
  | none => exact h.tail
  | some o => exact h.lastFenced o hlast

theorem parseOffset_fits {o : Offset} (h : FitsUint64 o) : Offset.parseOffset o.string = some o := by
  have hparse : ∀ n < 2 ^ 64, Offset.parseUint64 (formatPadded 16 n) = some n := by
    intro n hn
    simpa [Offset.parseUint64, Option.filter] using hn
  rw [Offset.parseOffset_wire, hparse _ h.1, hparse _ h.2]

theorem sealParts_encodeSeal {sl : WriteFenceSeal} (h : (58 : UInt8) ∉ sl.wakeID) :
    sealParts (encodeSeal sl) = some (formatInt sl.generation, sl.wakeID, sl.offset.string) := by
  have hwake : ∀ c ∈ sl.wakeID, decide (c ≠ 58) = true := by
    intro c hc
    rw [decide_eq_true_eq]
    rintro rfl
    exact h hc
  have hdrop : (sl.wakeID ++ 58 :: sl.offset.string).dropWhile (· ≠ 58) =
      58 :: sl.offset.string := by
    rw [List.dropWhile_append_of_pos hwake]
    simp
  have htake : (sl.wakeID ++ 58 :: sl.offset.string).takeWhile (· ≠ 58) = sl.wakeID := by
    rw [List.takeWhile_append_of_pos hwake]
    simp
  unfold encodeSeal sealParts
  rw [List.append_assoc, List.cons_append, signedDigits_formatInt _ rfl]
  simp only [hdrop, htake]

theorem sealedGeneration_agrees (h : StreamAgrees st k) (authority : Bytes) :
    sealedGeneration k.info authority =
      (st.seals authority).map fun sl => formatInt sl.generation := by
  rw [sealedGeneration, h.shows.wfseal]
  cases hsl : st.seals authority with
  | none => rfl
  | some sl =>
    rw [Option.map_some, Option.bind_some, sealParts_encodeSeal (h.seals _ _ hsl).wakeID]
    rfl

theorem StreamAgrees.recordSeal (h : StreamAgrees st k) (authority : Bytes) {gen : ℤ}
    {wake : Bytes} (hgen : FitsInt64 gen) (hwake : (58 : UInt8) ∉ wake) :
    StreamAgrees (st.recordSeal authority gen wake).1
      (Redis.recordSeal k k.info authority (formatInt gen) wake) := by
  have hlast := lastFenced_agrees h
  refine ⟨?_, h.refs, h.msg, h.prod, h.tail, h.lastFenced, ?_⟩
  · intro f hf
    by_cases hsealGen : f = .wfSealGen
    · subst hsealGen
      simp [Redis.recordSeal, metaFields, MemoryStream.recordSeal]
    by_cases hsealOff : f = .wfSealOff
    · subst hsealOff
      simp [Redis.recordSeal, metaFields, MemoryStream.recordSeal, hlast]
    rw [recordSeal_info _ _ _ _ _ _ hsealGen hsealOff]
    by_cases hseal : f = .wfseal authority
    · subst hseal
      simp [metaFields, MemoryStream.recordSeal, encodeSeal, hlast]
    · rw [if_neg hseal, h.info f hf]
      cases f with
      | wfSealGen => exact absurd rfl hsealGen
      | wfSealOff => exact absurd rfl hsealOff
      | wfseal a =>
        have ha : a ≠ authority := fun heq => hseal (heq ▸ rfl)
        simp [metaFields, MemoryStream.recordSeal, ha]
      | _ => rfl
  · intro a sl hsl
    by_cases ha : a = authority
    · subst ha
      simp only [MemoryStream.recordSeal, Function.update_self, Option.some.injEq] at hsl
      subst hsl
      exact ⟨hgen, hwake, h.fits_last⟩
    · simp only [MemoryStream.recordSeal, Function.update_of_ne ha] at hsl
      exact h.seals a sl hsl

end Streams

section Markers

variable {s : MemoryStore} {path : Path} {k k' : StreamKeys} {wall : Time} {f : AppendFence}

theorem appendFenceKey_inj {g : AppendFence} (path : Path) :
    appendFenceKey path g = appendFenceKey path f ↔ fenceAuthority g = fenceAuthority f := by
  rw [appendFenceKey, appendFenceKey, List.append_cancel_left_eq]

variable {row : MarkerHash}

theorem staleClaim_agrees {marker : Option WriteFenceMarker} (path : Path) (f : AppendFence)
    (h : RowAgrees marker row) :
    staleClaim (claimArgs path f) row = marker.any fun m => f.generation < m.generation ||
      (f.generation = m.generation && (m.wakeID ≠ f.wakeID || m.holder ≠ f.holder)) := by
  cases marker with
  | none =>
    cases h
    rfl
  | some m =>
    have hrow : MarkerAgrees m row := h
    simp [staleClaim, claimArgs, hrow.mirrors.generation, hrow.wakeId, hrow.holder, sign_neg,
      sign_eq_zero]

theorem FencesAgree.reap (h : FencesAgree s path k wall) (authority : Bytes) :
    FencesAgree (s.marker path authority wall).1 path k wall := by
  refine ⟨?_, ?_⟩
  · rw [MemoryStore.marker_streams]
    exact h.stream
  · intro g
    rw [marker_marker]
    exact h.markers g

theorem FencesAgree.put (h : FencesAgree s path k wall)
    (hstream : match s.streams.lookup path with
      | none => k' = k'.del
      | some st => StreamAgrees st k')
    {m : WriteFenceMarker} {expires : Time} (hexp : wall ≤ expires) (hrow : MarkerAgrees m row)
    (hfences : k'.fences = Function.update k.fences (appendFenceKey path f) row) :
    FencesAgree (s.putMarker path (fenceAuthority f) (some ⟨m, expires⟩)) path k' wall := by
  refine ⟨hstream, ?_⟩
  intro g
  have hg := h.markers g
  rw [marker_snd] at hg ⊢
  rw [hfences]
  by_cases hauth : fenceAuthority g = fenceAuthority f
  · rw [hauth, (appendFenceKey_inj path).mpr hauth, Function.update_self]
    have hfound : ((s.putMarker path (fenceAuthority f) (some ⟨m, expires⟩)).markers path
        (fenceAuthority f)).filter (fun m => ¬ m.expiresAt < wall) = some ⟨m, expires⟩ := by
      simp [MemoryStore.putMarker, hexp]
    rw [hfound]
    exact hrow
  · rw [Function.update_of_ne (mt (appendFenceKey_inj path).mp hauth)]
    simpa [MemoryStore.putMarker, hauth] using hg

/-- The claim has a generation and a wake that Redis reads back. -/
structure ClaimFits (f : AppendFence) : Prop where
  generation : FitsInt64 f.generation
  wakeID : (58 : UInt8) ∉ f.wakeID

theorem tombstone_agrees {marker : Option WriteFenceMarker} (h : RowAgrees marker row)
    (hf : ClaimFits f) :
    MarkerAgrees
      { state := .revoked, generation := f.generation, wakeID := f.wakeID, holder := f.holder
        leaseUntilNs := 0, streamIncarnation := (marker.map (·.streamIncarnation)).getD [] }
      ([(MarkerField.state, Bytes.ascii "revoked"), (.generation, formatInt f.generation),
        (.wakeId, f.wakeID), (.holder, f.holder), (.leaseUntilNs, [48])].foldl
        (fun (row : MarkerHash) fv => Function.update row fv.1 (some fv.2)) row) := by
  have hinc : (row .streamIncarnation).getD [] = (marker.map (·.streamIncarnation)).getD [] := by
    cases marker with
    | none =>
      cases h
      rfl
    | some m => exact h.mirrors.incarnation
  exact ⟨⟨rfl, rfl, rfl, rfl, rfl, hinc, hf.generation⟩, rfl, rfl, hf.wakeID, nofun⟩

theorem installMarker_agrees (row : MarkerHash) {incarnation : Bytes} (lease : ℤ)
    (hinc : incarnation ≠ []) (hf : ClaimFits f) :
    MarkerAgrees
      { state := .live, generation := f.generation, wakeID := f.wakeID, holder := f.holder
        leaseUntilNs := lease, streamIncarnation := incarnation }
      ([(MarkerField.state, Bytes.ascii "live"), (.generation, formatInt f.generation),
        (.wakeId, f.wakeID), (.holder, f.holder), (.leaseUntilNs, formatInt lease),
        (.streamIncarnation, incarnation)].foldl
        (fun (row : MarkerHash) fv => Function.update row fv.1 (some fv.2)) row) :=
  ⟨⟨rfl, rfl, rfl, rfl, rfl, rfl, hf.generation⟩, rfl, rfl, hf.wakeID, fun _ => hinc⟩

end Markers

section Refinement

variable {s : MemoryStore} {path : Path} {k : StreamKeys} {env : Env} {f : AppendFence}

theorem FencesAgree.tombstone (h : FencesAgree s path k (env.wall 0))
    (hwall : env.wall 0 ≤ env.wall 1) (hf : ClaimFits f) :
    let r := s.tombstone env path (fenceAuthority f) f
    let stale := staleClaim (claimArgs path f) (k.fences (claimArgs path f).markerKey)
    r.2 = !stale ∧ r.1.streams = s.streams ∧
      FencesAgree r.1 path (if stale then k else Redis.tombstone (claimArgs path f) k)
        (env.wall 0) := by
  have hrow := h.markers f
  have hstale := staleClaim_agrees path f hrow
  have hreap := h.reap (fenceAuthority f)
  rw [show (claimArgs path f).markerKey = appendFenceKey path f from rfl, hstale]
  unfold MemoryStore.tombstone
  dsimp only
  split
  · rename_i hany
    rw [hany]
    exact ⟨rfl, MemoryStore.marker_streams .., hreap⟩
  · rename_i hany
    rw [Bool.not_eq_true] at hany
    rw [hany]
    refine ⟨rfl, MemoryStore.marker_streams .., ?_⟩
    refine hreap.put ?_ ?_ (tombstone_agrees hrow hf) rfl
    · have hstream := hreap.stream
      cases hlookup : (s.marker path (fenceAuthority f) (env.wall 0)).1.streams.lookup path with
      | none =>
        rw [hlookup] at hstream
        rw [hstream]
        rfl
      | some st =>
        rw [hlookup] at hstream
        exact StreamAgrees.setMarker hstream _ _
    · exact le_add_of_le_of_nonneg hwall (by decide)

theorem revoke_agrees (h : FencesAgree s path k (env.wall 0)) (hwall : env.wall 0 ≤ env.wall 1)
    (hcomplete : f.complete) (hf : ClaimFits f) :
    let m := s.revokeAppendFence env path f
    let r := revokeAppendFence path f k
    r.2 = m.2 ∧ FencesAgree m.1 path r.1 (env.wall 0) := by
  have htomb := (h.tombstone hwall hf).2.2
  unfold MemoryStore.revokeAppendFence revokeAppendFence revokeScript
  rw [if_neg (not_not.mpr hcomplete), if_neg (not_not.mpr hcomplete)]
  refine ⟨rfl, ?_⟩
  split
  · rename_i hstale
    rw [if_pos hstale] at htomb
    exact htomb
  · rename_i hstale
    rw [if_neg hstale] at htomb
    exact htomb

theorem decodeSealReply_format (outcome : SealOutcome) {gen : ℤ} {off : Offset}
    (hgen : FitsInt64 gen) (hoff : FitsUint64 off) :
    decodeSealReply outcome (formatInt gen) off.string = .ok ⟨outcome, gen, off⟩ := by
  have hne : off.string ≠ [] := by
    intro hnil
    have hmem := Offset.underscore_mem_string off
    rw [hnil] at hmem
    cases hmem
  rw [decodeSealReply, parseInt64_formatInt hgen, if_neg hne, parseOffset_fits hoff]

variable {st : MemoryStream}

theorem FencesAgree.recordSeal (h : FencesAgree s path k (env.wall 0))
    (hlookup : s.streams.lookup path = some st) {gen : ℤ} {wake : Bytes} (hgen : FitsInt64 gen)
    (hwake : (58 : UInt8) ∉ wake) (authority : Bytes) :
    FencesAgree (s.set path (st.recordSeal authority gen wake).1) path
      (Redis.recordSeal k k.info authority (formatInt gen) wake) (env.wall 0) := by
  have hstream := h.stream
  rw [hlookup] at hstream
  refine ⟨?_, ?_⟩
  · rw [MemoryStore.set, Finmap.lookup_insert]
    exact StreamAgrees.recordSeal hstream authority hgen hwake
  · intro g
    have hg := h.markers g
    rw [marker_snd] at hg ⊢
    exact hg

theorem sealScript_fenced (hst : StreamAgrees st k) (hwf : st.metadata.writeFence)
    (hshard : 0 ≤ f.shard)
    (hstale : staleClaim (claimArgs path f) (k.fences (claimArgs path f).markerKey) = false) :
    sealScript (claimArgs path f) k =
      match (st.seals (fenceAuthority f)).filter fun sl => f.generation ≤ sl.generation with
      | some sl => some (tombstone (claimArgs path f) k,
          .already (formatInt sl.generation) sl.offset.string)
      | none => some (recordSeal (tombstone (claimArgs path f) k) k.info (fenceAuthority f)
          (formatInt f.generation) f.wakeID, .sealed (formatInt f.generation)
            (st.lastFencedOff.getD st.metadata.currentOffset).string) := by
  have hauth : fenceAuth (claimArgs path f).markerKey = some (fenceAuthority f) :=
    fenceAuth_appendFenceKey path hshard
  unfold sealScript
  rw [hstale, if_neg (by simp), hst.shows.metaMap, hauth]
  dsimp only
  rw [if_neg (not_not.mpr (hst.shows.wf.mpr hwf)), hst.shows.wfseal, lastFenced_agrees hst]
  cases hsl : st.seals (fenceAuthority f) with
  | none => rfl
  | some sl =>
    rw [Option.map_some]
    dsimp only
    rw [sealParts_encodeSeal (hst.seals _ _ hsl).wakeID]
    dsimp only [claimArgs]
    simp only [intCmp_formatInt, sign_nonpos]
    by_cases hle : f.generation ≤ sl.generation
    · rw [if_pos hle, Option.filter_some_pos (by simpa using hle)]
    · rw [if_neg hle, Option.filter_some_neg (by simpa using hle)]

theorem seal_agrees (h : FencesAgree s path k (env.wall 0)) (hwall : env.wall 0 ≤ env.wall 1)
    (hcomplete : f.complete) (hf : ClaimFits f) :
    let m := s.sealAppendFence env path f
    let r := sealAppendFence path f k
    r.2 = m.2 ∧ FencesAgree m.1 path r.1 (env.wall 0) := by
  rcases h.tombstone (f := f) hwall hf with ⟨hflag, hstreams, htomb⟩
  unfold MemoryStore.sealAppendFence sealAppendFence
  rw [if_neg (not_not.mpr hcomplete), if_neg (not_not.mpr hcomplete)]
  dsimp only
  rcases hr : s.tombstone env path (fenceAuthority f) f with ⟨s₁, written⟩
  rw [hr] at hflag hstreams htomb
  dsimp only at hflag hstreams htomb
  subst hflag
  cases hstale : staleClaim (claimArgs path f) (k.fences (claimArgs path f).markerKey) with
  | true =>
    rw [hstale, if_pos rfl] at htomb
    rw [sealScript, hstale, if_pos rfl]
    exact ⟨rfl, htomb⟩
  | false =>
    rw [hstale, if_neg (by simp)] at htomb
    have hstream := h.stream
    cases hlookup : s.streams.lookup path with
    | none =>
      rw [hlookup] at hstream
      have hmeta : metaMap k = none := by
        rw [hstream]
        rfl
      simp only [sealScript, hstale, hmeta, hstreams, hlookup, Bool.false_eq_true, if_false,
        Bool.not_false]
      exact ⟨rfl, htomb⟩
    | some st =>
      rw [hlookup] at hstream
      have hst : StreamAgrees st k := hstream
      have hlookup₁ : s₁.streams.lookup path = some st := hstreams ▸ hlookup
      simp only [hlookup₁, Bool.not_false]
      by_cases hwf : st.metadata.writeFence = true
      · rw [sealScript_fenced hst hwf (complete_ranges hcomplete).1 hstale, if_neg (not_not.mpr hwf)]
        cases hfilter : (st.seals (fenceAuthority f)).filter
            fun sl => decide (f.generation ≤ sl.generation) with
        | some sl =>
          have hfits := hst.seals _ _ (Option.filter_eq_some_iff.mp hfilter).1
          exact ⟨decodeSealReply_format _ hfits.generation hfits.offset, htomb⟩
        | none =>
          exact ⟨decodeSealReply_format _ hf.generation hst.fits_last,
            htomb.recordSeal hlookup₁ hf.generation hf.wakeID _⟩
      · have hwf' : k.info .wf ≠ some one := mt hst.shows.wf.mp hwf
        simp only [sealScript, hstale, hst.shows.metaMap, if_pos hwf', if_pos hwf,
          Bool.false_eq_true, if_false]
        exact ⟨rfl, htomb⟩

theorem FencesAgree.install (h : FencesAgree s path k (env.wall 0))
    (hlookup : s.streams.lookup path = some st) (hwall : env.wall 0 ≤ env.wall 1)
    (hinc : st.metadata.incarnation ≠ []) (hf : ClaimFits f) {lease : ℤ}
    (hlease : env.clock 0 < lease) :
    FencesAgree
      (s.putMarker path (fenceAuthority f)
        (some ⟨{ state := .live, generation := f.generation, wakeID := f.wakeID, holder := f.holder
                 leaseUntilNs := lease, streamIncarnation := st.metadata.incarnation },
          env.wall 1 + (lease - env.clock 0) + MemoryStore.appendFenceRetention⟩)) path
      (installMarker (claimArgs path f) st.metadata.incarnation (formatInt lease) k)
      (env.wall 0) := by
  have hstream := h.stream
  rw [hlookup] at hstream
  refine h.put ?_ ?_ (installMarker_agrees _ lease hinc hf) rfl
  · rw [hlookup]
    exact StreamAgrees.setMarker hstream _ _
  · have hretention : (0 : ℤ) ≤ MemoryStore.appendFenceRetention := by decide
    unfold Time at *
    omega

section Checks

variable {st : MemoryStream} {m : WriteFenceMarker} {row : MarkerHash}

theorem sealed_agrees (hst : StreamAgrees st k) (path : Path) (f : AppendFence) :
    ((sealedGeneration k.info (fenceAuthority f)).any
      fun g => decide (intCmp (claimArgs path f).gen g ≤ 0)) =
      (st.seals (fenceAuthority f)).any fun sl => decide (f.generation ≤ sl.generation) := by
  rw [sealedGeneration_agrees hst]
  cases st.seals (fenceAuthority f) <;> simp [claimArgs, sign_nonpos]

theorem supersedes_agrees (hst : StreamAgrees st k) (authority : Bytes) (gen : ℤ) :
    (k.info .wf = some one ∧ ((sealedGeneration k.info authority).all
      fun g => decide (0 < intCmp (formatInt gen) g)) = true) ↔
      (st.metadata.writeFence && (st.seals authority).all
        fun sl => decide (sl.generation < gen)) = true := by
  rw [hst.shows.wf, sealedGeneration_agrees hst, Bool.and_eq_true]
  cases st.seals authority <;> simp [sign_pos]

theorem otherClaim_agrees (h : MarkerAgrees m row) (path : Path) (f : AppendFence) :
    (row .state ≠ some (Bytes.ascii "live") ∨ row .wakeId ≠ some (claimArgs path f).wake ∨
      row .holder ≠ some (claimArgs path f).holder) ↔
      (m.state ≠ .live ∨ m.wakeID ≠ f.wakeID ∨ m.holder ≠ f.holder) := by
  rw [h.mirrors.state, h.wakeId, h.holder]
  simp only [claimArgs, Ne, Option.some.injEq, name_eq_live]

theorem renewedLease (a b : ℤ) :
    (if a < b then formatInt b else formatInt a) = formatInt (max a b) := by
  split
  · rw [max_eq_right_of_lt ‹_›]
  · rw [max_eq_left (not_lt.mp ‹_›)]

end Checks

theorem grant_agrees (h : FencesAgree s path k (env.wall 0)) (hwall : env.wall 0 ≤ env.wall 1)
    (hcomplete : f.complete) (hf : ClaimFits f) :
    let m := s.grantAppendFence env path f
    let r := grantAppendFence (env.clock 0) path f k
    r.2 = m.2 ∧ FencesAgree m.1 path r.1 (env.wall 0) := by
  unfold MemoryStore.grantAppendFence grantAppendFence grantScript
  by_cases hlease : f.leaseUntilNs ≤ env.clock 0
  · rw [if_pos (.inr hlease), if_pos (.inr hlease)]
    exact ⟨rfl, h⟩
  have hlive : ¬ (¬ f.complete = true ∨ f.leaseUntilNs ≤ env.clock 0) := by
    simp [hcomplete, hlease]
  have hauth : fenceAuth (claimArgs path f).markerKey = some (fenceAuthority f) :=
    fenceAuth_appendFenceKey path (complete_ranges hcomplete).1
  have hstream := h.stream
  rw [if_neg hlive, if_neg hlive, tonumber_formatInt]
  dsimp only
  rw [if_neg hlease]
  cases hlookup : s.streams.lookup path with
  | none =>
    rw [hlookup] at hstream
    have hmeta : metaMap k = none := by
      rw [hstream]
      rfl
    rw [hmeta]
    exact ⟨rfl, h⟩
  | some st =>
    rw [hlookup] at hstream
    have hst : StreamAgrees st k := hstream
    rw [hst.shows.metaMap, hst.shows.incarnation, hauth]
    dsimp only
    by_cases hinc : st.metadata.incarnation = []
    · rw [if_pos hinc, nonEmpty, if_pos hinc]
      exact ⟨rfl, h⟩
    rw [if_neg hinc, nonEmpty, if_neg hinc]
    dsimp only
    rw [sealed_agrees hst]
    by_cases hany : (st.seals (fenceAuthority f)).any fun sl =>
        decide (f.generation ≤ sl.generation)
    · rw [if_pos hany, if_pos hany]
      exact ⟨rfl, h⟩
    rw [if_neg hany, if_neg hany]
    have hrow := h.markers f
    have hreap := h.reap (fenceAuthority f)
    have hlookup' : (s.marker path (fenceAuthority f) (env.wall 0)).1.streams.lookup path =
        some st := by
      rw [MemoryStore.marker_streams]
      exact hlookup
    rw [show (claimArgs path f).markerKey = appendFenceKey path f from rfl]
    rw [not_le] at hlease
    cases hcur : (s.marker path (fenceAuthority f) (env.wall 0)).2 with
    | none =>
      rw [hcur] at hrow
      rw [show k.fences (appendFenceKey path f) = fun _ => none from hrow]
      exact ⟨rfl, hreap.install hlookup' hwall hinc hf hlease⟩
    | some m =>
      rw [hcur] at hrow
      have hm : MarkerAgrees m (k.fences (appendFenceKey path f)) := hrow
      simp only [otherClaim_agrees hm]
      rw [hm.mirrors.generation, hm.mirrors.lease, hm.wakeId]
      simp only [claimArgs, intCmp_formatInt, sign_neg, sign_eq_zero, supersedes_agrees hst]
      by_cases hlt : f.generation < m.generation
      · rw [if_pos hlt, if_pos hlt]
        exact ⟨rfl, hreap⟩
      rw [if_neg hlt, if_neg hlt]
      by_cases heq : f.generation = m.generation
      · rw [if_pos heq, if_pos heq]
        by_cases hother : m.state ≠ .live ∨ m.wakeID ≠ f.wakeID ∨ m.holder ≠ f.holder
        · rw [if_pos hother, if_pos hother]
          exact ⟨rfl, hreap⟩
        rw [if_neg hother, if_neg hother, tonumber_formatInt, Option.map_some, renewedLease]
        exact ⟨rfl, hreap.install hlookup' hwall hinc hf (lt_max_of_lt_left hlease)⟩
      rw [if_neg heq, if_neg heq]
      by_cases hsupersede : (st.metadata.writeFence && (st.seals (fenceAuthority f)).all
          fun sl => decide (sl.generation < m.generation)) = true
      · rw [if_pos hsupersede, if_pos hsupersede, Option.map_some]
        have hrec := hreap.recordSeal hlookup' hm.mirrors.fits hm.plain (fenceAuthority f)
        have hset : ((s.marker path (fenceAuthority f) (env.wall 0)).1.set path
            (st.recordSeal (fenceAuthority f) m.generation m.wakeID).1).streams.lookup path =
            some (st.recordSeal (fenceAuthority f) m.generation m.wakeID).1 :=
          Finmap.lookup_insert _
        exact ⟨rfl, hrec.install hset hwall hinc hf hlease⟩
      · rw [if_neg hsupersede, if_neg hsupersede]
        exact ⟨rfl, hreap.install hlookup' hwall hinc hf hlease⟩

theorem fenceRung_agrees {wall : Time} (h : FencesAgree s path k wall)
    (hlookup : s.streams.lookup path = some st) (fence : Option AppendFence)
    (hcomplete : ∀ f, fence = some f → f.complete) (now : Time) (producerId : Bytes)
    (epoch : Option ℤ) :
    let out := (s.fenceRung path st fence producerId epoch now wall).2
    fenceRung k.info k (fence.map (claimArgs path)) now epoch.isSome producerId
        (formatInt (epoch.getD 0)) = some (out.reason, formatInt out.generation, out.holder) := by
  have hst := h.stream
  rw [hlookup] at hst
  refine fenceRung_info now (StreamAgrees.shows hst) ?_ ?_ fence
    (fun f hf => (complete_ranges (hcomplete f hf)).1) producerId epoch
  · intro f
    have hrow := h.markers f
    cases hcur : (s.marker path (fenceAuthority f) wall).2 with
    | none =>
      rw [hcur] at hrow
      exact hrow
    | some m =>
      rw [hcur] at hrow
      exact MarkerAgrees.mirrors hrow
  · intro _ f m hcur
    have hrow := h.markers f
    rw [hcur] at hrow
    exact MarkerAgrees.named hrow

/-- On corresponding records of a stream, the write fence decides a request of a complete claim
alike in both backends, with the same generation and holder to disclose. A grant, a revocation and
a seal of the claim answer alike, and they leave corresponding records. -/
theorem write_fences_agree (h : FencesAgree s path k (env.wall 0)) (hwall : env.wall 0 ≤ env.wall 1)
    (hcomplete : f.complete) (hgen : FitsInt64 f.generation) (hwake : (58 : UInt8) ∉ f.wakeID) :
    (∀ st, s.streams.lookup path = some st → ∀ (now : Time) (producerId : Bytes) (epoch : Option ℤ),
      let out := (s.fenceRung path st (some f) producerId epoch now (env.wall 0)).2
      fenceRung k.info k (some (claimArgs path f)) now epoch.isSome producerId
          (formatInt (epoch.getD 0)) = some (out.reason, formatInt out.generation, out.holder)) ∧
    (let m := s.grantAppendFence env path f
      let r := grantAppendFence (env.clock 0) path f k
      r.2 = m.2 ∧ FencesAgree m.1 path r.1 (env.wall 0)) ∧
    (let m := s.revokeAppendFence env path f
      let r := revokeAppendFence path f k
      r.2 = m.2 ∧ FencesAgree m.1 path r.1 (env.wall 0)) ∧
    (let m := s.sealAppendFence env path f
      let r := sealAppendFence path f k
      r.2 = m.2 ∧ FencesAgree m.1 path r.1 (env.wall 0)) := by
  have hf : ClaimFits f := ⟨hgen, hwake⟩
  refine ⟨?_, grant_agrees h hwall hcomplete hf, revoke_agrees h hwall hcomplete hf,
    seal_agrees h hwall hcomplete hf⟩
  intro st hlookup now producerId epoch
  refine fenceRung_agrees h hlookup (some f) ?_ now producerId epoch
  rintro _ ⟨⟩
  exact hcomplete

def fencedCalls : List (Env × Call) :=
  [(.frozen 0, .create [97] { initialData := [1, 2, 3], writeFence := true })]

theorem fencedCalls_run :
    (MemoryStore.empty.execGuarded (fun _ _ => true) fencedCalls).isSome := by decide

def fencedStore : MemoryStore := (MemoryStore.ran _ fencedCalls fencedCalls_run).2

def fencedStream : MemoryStream where
  metadata :=
    { path := [97], incarnation := [105], contentType := octetStream, currentOffset := ⟨0, 3⟩
      createdAt := 0, lastAccessedAt := 0, writeFence := true }
  messages := [⟨[1, 2, 3], ⟨0, 3⟩⟩]

theorem fencedStream_agrees : FencesAgree fencedStore [97] (keysOf fencedStream) 1 := by
  have hlookup : fencedStore.streams.lookup [97] = some fencedStream := rfl
  have hmirrors : Mirrors fencedStream (keysOf fencedStream) :=
    mirrors_keysOf ⟨rfl, [[1, 2, 3]], by simp, rfl, rfl⟩ (by decide) (by decide) (fun _ => rfl)
      (fun _ => rfl) fun _ => rfl
  refine ⟨?_, ?_⟩
  · rw [hlookup]
    exact hmirrors.agrees nofun nofun
  · intro f
    rw [marker_snd]
    rfl

def claimAt (generation : ℤ) : AppendFence where
  subscriptionID := [115]
  subscriptionIncarnation := [105]
  shard := 0
  generation := generation
  wakeID := [119]
  holder := [104]
  leaseUntilNs := 100

theorem write_fences_agree_superseding :
    let s := (fencedStore.grantAppendFence (.frozen 1) [97] (claimAt 1)).1
    let k := (grantAppendFence 1 [97] (claimAt 1) (keysOf fencedStream)).1
    let m := s.grantAppendFence (.frozen 1) [97] (claimAt 2)
    let r := grantAppendFence 1 [97] (claimAt 2) k
    (r.2 = .ok true ∧ m.2 = .ok true) ∧ FencesAgree m.1 [97] r.1 1 ∧
      (r.1.info .wfSealGen = some (formatInt 1)) := by
  have hfits : ∀ n : ℤ, n = 1 ∨ n = 2 → FitsInt64 n := by
    rintro n (rfl | rfl) <;> exact ⟨by decide, by decide⟩
  have hgranted := @grant_agrees _ _ _ (.frozen 1) (claimAt 1) fencedStream_agrees le_rfl
    (by decide) ⟨hfits _ (.inl rfl), by decide⟩
  have hagree := (@write_fences_agree _ _ _ (.frozen 1) (claimAt 2) hgranted.2 le_rfl
    (by decide) (hfits _ (.inr rfl)) (by decide)).2.1
  exact ⟨⟨by decide, by decide⟩, hagree.2, by decide⟩

end Refinement

end Chronicle.Redis
