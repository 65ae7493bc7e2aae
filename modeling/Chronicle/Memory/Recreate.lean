import Chronicle.Memory.Step

/-! # Idempotent creation

A creation that is repeated with the same options finds the stream that it made
and compares the options with the stored configuration. A fork stores what it
inherits from its source, so the comparison succeeds only if the fork inherits
nothing that its options leave open.
-/

namespace Chronicle

section ContentType

@[simp] theorem equalFold_refl (a : Bytes) : equalFold a a := decide_eq_true rfl

@[simp] theorem orOctetStream_orOctetStream (ct : Bytes) :
    orOctetStream (orOctetStream ct) = orOctetStream ct := by
  have hne : octetStream ≠ [] := by decide
  unfold orOctetStream
  split <;> simp_all

theorem contentTypeMatches_refl (ct : Bytes) : contentTypeMatches ct ct := equalFold_refl _

theorem contentTypeMatches_orOctetStream (ct : Bytes) :
    contentTypeMatches (orOctetStream ct) ct := by
  rw [contentTypeMatches, orOctetStream_orOctetStream]
  exact equalFold_refl _

end ContentType

structure MemoryStream.Unrecorded (st : MemoryStream) : Prop where
  seals : st.seals = fun _ => none
  bound : st.bound = fun _ => 0
  lastFencedOff : st.lastFencedOff = none

namespace MemoryStore

variable {s s' : MemoryStore} {env env' : Env} {path : Path} {opts : CreateOptions}
  {md : StreamMetadata}

theorem withInitialData_metadata {st st' : MemoryStream} {data : Bytes}
    (h : withInitialData st data = .ok st') :
    (∃ off, st'.metadata = { st.metadata with currentOffset := off }) ∧
      (st.Unrecorded → st'.Unrecorded) := by
  rcases withInitialData_ok h with ⟨ds, -, rfl⟩
  exact ⟨⟨_, rfl⟩, fun hst => ⟨hst.seals, hst.bound, hst.lastFencedOff⟩⟩

theorem materialize_metadata (md : StreamMetadata) (pfx : Bytes) :
    (∃ off, (materialize md pfx).metadata = { md with currentOffset := off }) ∧
      (materialize md pfx).Unrecorded := by
  unfold materialize
  split
  · exact ⟨⟨md.currentOffset, rfl⟩, rfl, rfl, rfl⟩
  · exact ⟨⟨_, rfl⟩, rfl, rfl, rfl⟩

/-- The metadata of a stream that was newly created, up to its tail. -/
inductive Made (s : MemoryStore) (env : Env) (path : Path) (opts : CreateOptions) :
    StreamMetadata → Prop
  | plain {incarnation off} (hfork : opts.forkedFrom = []) :
      Made s env path opts
        { plainMetadata path incarnation (env.clock 2) opts with currentOffset := off }
  | fork {incarnation off source forkOffset} (hfork : opts.forkedFrom ≠ [])
      (hsource : s.streams.lookup opts.forkedFrom = some source) :
      Made s env path opts
        { forkMetadata path incarnation (env.clock 2) opts source.metadata forkOffset with
          currentOffset := off }

theorem createAbsent_made (h : s.createAbsent env path opts = some (s', .ok (md, true))) :
    (∃ st, s'.streams.lookup path = some st ∧ st.metadata = md ∧ st.Unrecorded) ∧
      Made s env path opts md := by
  cases createAbsent_creates h with
  | plain hfork hst =>
    rcases withInitialData_metadata hst with ⟨⟨off, hoff⟩, hkeep⟩
    refine ⟨⟨_, Finmap.lookup_insert _, rfl, hkeep ⟨rfl, rfl, rfl⟩⟩, ?_⟩
    rw [hoff]
    exact .plain hfork
  | fork hfork hsource hsoft hle hres hst =>
    rcases withInitialData_metadata hst with ⟨⟨off, hoff⟩, hkeep⟩
    rcases materialize_metadata _ _ with ⟨⟨off', hoff'⟩, hnew⟩
    refine ⟨⟨_, Finmap.lookup_insert _, rfl, hkeep hnew⟩, ?_⟩
    rw [hoff, hoff']
    exact .fork hfork hsource

/-- A new stream is stored under its path with the metadata that the creation returned. -/
theorem create_made (h : s.create env path opts = some (s', .ok (md, true))) :
    (∃ st, s'.streams.lookup path = some st ∧ st.metadata = md ∧ st.Unrecorded) ∧
      Made (s.remove path) env path opts md := by
  rcases create_cases h with ⟨-, hnew, -⟩ | ⟨-, habs⟩
  · exact absurd rfl (hnew md)
  · exact createAbsent_made habs

/-- A fork inherits nothing that its options leave open: it names its content type or the source
has the default one, and the resolved expiry is the requested one. -/
def inheritsNothing (s : MemoryStore) (opts : CreateOptions) : Bool :=
  opts.forkedFrom = [] ||
    (s.streams.lookup opts.forkedFrom).all fun source =>
      (opts.contentType ≠ [] || contentTypeMatches source.metadata.contentType []) &&
        resolveForkExpiry opts source.metadata = (opts.ttlSeconds, opts.expiresAt)

theorem Made.configMatches (h : Made s env path opts md) :
    md.configMatches opts = inheritsNothing s opts := by
  cases h with
  | plain hfork =>
    simp [StreamMetadata.configMatches, inheritsNothing, plainMetadata, hfork,
      contentTypeMatches_orOctetStream]
  | @fork _ _ source _ hfork hsource =>
    have hct : contentTypeMatches
        (if opts.contentType = [] then source.metadata.contentType else opts.contentType)
        opts.contentType =
        (decide (opts.contentType ≠ []) || contentTypeMatches source.metadata.contentType []) := by
      by_cases hct : opts.contentType = []
      · simp [hct]
      · simp [hct, contentTypeMatches_refl]
    have hoff : ∀ forkOffset : Offset, opts.forkOffset.all (fun o =>
        (opts.forkOffset.getD forkOffset).equal o) = true := by
      intro forkOffset
      cases opts.forkOffset with
      | none => rfl
      | some o => exact Offset.equal_iff.mpr rfl
    have hexp : (resolveForkExpiry opts source.metadata = (opts.ttlSeconds, opts.expiresAt)) ↔
        (resolveForkExpiry opts source.metadata).1 = opts.ttlSeconds ∧
          (resolveForkExpiry opts source.metadata).2 = opts.expiresAt := Prod.ext_iff
    simp only [StreamMetadata.configMatches, inheritsNothing, forkMetadata, hct, hoff, hsource,
      hexp, hfork, Option.all_some, decide_false, Bool.false_or, beq_self_eq_true, Bool.and_true,
      Bool.or_true, beq_eq_decide, Bool.decide_and]
    rw [Bool.and_assoc]

theorem Made.present (h : Made s env path opts md) : md.softDeleted = false := by
  cases h <;> rfl

theorem Made.inheritsNothing_remove (h : Made (s.remove path) env path opts md) :
    inheritsNothing (s.remove path) opts = inheritsNothing s opts := by
  unfold inheritsNothing
  cases h with
  | plain hfork => simp [hfork]
  | fork hfork hsource =>
    have hne : opts.forkedFrom ≠ path := by
      intro heq
      rw [heq] at hsource
      exact absurd (hsource.symm.trans (Finmap.lookup_erase _ _)) (by simp)
    rw [remove, Finmap.lookup_erase_ne hne]

/-- A creation that is repeated at once, before the new stream expires, finds the stream and
changes nothing, exactly if the new stream inherited nothing that the options leave open. -/
theorem create_again_iff (hcreate : s.create env path opts = some (s', .ok (md, true)))
    (hlive : md.isExpiredAt (env'.clock 0) = false) :
    s'.create env' path opts = some (s', .ok (md, false)) ↔ inheritsNothing s opts := by
  rcases create_made hcreate with ⟨⟨st, hst, rfl, -⟩, hmade⟩
  have hmatch := hmade.configMatches
  rw [hmade.inheritsNothing_remove] at hmatch
  unfold create
  rw [hst]
  dsimp only
  rw [if_neg (by simp [hlive]), if_neg (by simp [hmade.present]), hmatch]
  cases inheritsNothing s opts <;> simp

def jsonSource : MemoryStore :=
  let opts : CreateOptions := { contentType := Bytes.ascii "application/json" }
  empty.set [97] ⟨plainMetadata [97] [105] 0 opts, [], fun _ => none, fun _ => 0, none⟩

def namedFork : CreateOptions :=
  { forkedFrom := [97], contentType := Bytes.ascii "application/json" }

def openFork : CreateOptions := { forkedFrom := [97] }

theorem create_again_iff_named :
    ∃ s' md, jsonSource.create (.frozen 1) [98] namedFork = some (s', .ok (md, true)) ∧
      s'.create (.frozen 2) [98] namedFork = some (s', .ok (md, false)) :=
  ⟨_, _, rfl,
    (@create_again_iff jsonSource _ (.frozen 1) (.frozen 2) _ _ _ rfl rfl).mpr (by decide)⟩

/-- A fork that inherits its content type is not found again: the stored content type does not
match the empty one of the same request. -/
theorem create_again_inherited :
    ∃ s' md, jsonSource.create (.frozen 1) [98] openFork = some (s', .ok (md, true)) ∧
      md.isExpiredAt ((Env.frozen 2).clock 0) = false ∧
      s'.create (.frozen 2) [98] openFork = some (s', .error .configMismatch) :=
  ⟨_, _, rfl, rfl, rfl⟩

end MemoryStore

end Chronicle
