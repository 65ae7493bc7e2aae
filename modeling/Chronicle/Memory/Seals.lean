import Chronicle.Memory.Fences
import Chronicle.Memory.Recreate

/-! # Seals, bound producers and claim markers

What the write fence guarantees over whole runs. A recorded seal is final and
its offset covers every write that it seals, a producer that wrote under a claim
stays out of the open class, and the marker of an authority only moves forward.
-/

namespace Chronicle

/-- What a write or a close brings to the write fence. -/
structure FenceRequest where
  path : Path
  fence : Option AppendFence
  producerId : Bytes
  epoch : Option ℤ

def Call.fenceRequest : Call → Option FenceRequest
  | .closeStream path => some ⟨path, none, [], none⟩
  | .closeStreamFenced path fence => some ⟨path, some fence, [], none⟩
  | .closeStreamWithProducer path opts =>
    some ⟨path, opts.fence, opts.producerId, some opts.producerEpoch⟩
  | .append path _ opts => some ⟨path, opts.fence, opts.producerId, opts.producerEpoch⟩
  | _ => none

def Event.succeeded (e : Event) : Bool :=
  match e.reply with
  | .append _ err => err = none
  | .close _ err => err = none
  | .closeProducer _ err => err = none
  | _ => false

/-- Generation and end offset of an append that was accepted under an authority on a path. -/
def Event.fencedEnd (p : Path) (a : Bytes) (e : Event) : Option (ℤ × Offset) :=
  match e.call, e.reply with
  | .append path _ opts, .append r none =>
    if path = p ∧ r.producerResult ≠ .duplicate then
      (opts.fence.filter fun f => fenceAuthority f = a).map fun f => (f.generation, r.offset)
    else none
  | _, _ => none

namespace MemoryStore

variable {s s' : MemoryStore} {e : Event} {p : Path} {st : MemoryStream} {a : Bytes}
  {f : AppendFence} {pid : Bytes}

section Rung

variable {path : Path} {epoch : Option ℤ} {now wall : Time}

theorem fenceRung_fenced
    (h : (s.fenceRung path st (some f) pid epoch now wall).2.reason = .none) :
    (st.metadata.writeFence = true → ∀ sl, st.seals (fenceAuthority f) = some sl →
      sl.generation < f.generation) ∧
    ∃ m, (s.marker path (fenceAuthority f) wall).2 = some m ∧
      m.admits f st.metadata.incarnation now = true := by
  unfold fenceRung at h
  unfold evaluateWriteFence fencedReason at h
  dsimp only at h
  split at h
  · cases h
  rename_i hseal
  split at h
  · cases h
  rename_i hmarker
  refine ⟨?_, ?_⟩
  · intro hw sl hsl
    simpa [hw, hsl] using hseal
  · rw [not_not] at hmarker
    simpa [Option.any_eq_true] using hmarker

theorem fenceRung_open (hw : st.metadata.writeFence = true) (hepoch : epoch.isSome = true)
    (h : (s.fenceRung path st none pid epoch now wall).2.reason = .none) : st.bound pid ≤ 0 := by
  unfold fenceRung at h
  dsimp only at h
  rw [if_neg (by simp [hw]), if_pos hepoch] at h
  unfold evaluateWriteFence at h
  simpa [hw, hepoch] using h

theorem CloseOutcome.passed {env : Env} {fence : Option AppendFence}
    (h : CloseOutcome s env path fence s' none) :
    ∃ st, s.streams.lookup path = some st ∧
      (s.fenceRung path st fence [] none (env.clock 1) (env.wall 0)).2.reason = .none := by
  rcases h with ⟨-, herr⟩ | ⟨st, hst, hpass, -⟩
  · cases herr
  · exact ⟨st, hst, hpass⟩

theorem request_passed {q : FenceRequest} (h : Step s e s') (hreq : e.call.fenceRequest = some q)
    (hok : e.succeeded = true) :
    ∃ st, s.streams.lookup q.path = some st ∧
      (s.fenceRung q.path st q.fence q.producerId q.epoch (e.env.clock 1) (e.env.wall 0)).2.reason =
        .none := by
  cases h.ran with
  | closeStream hr =>
    cases hreq
    cases of_decide_eq_true hok
    exact (closeStream_outcome hr).2.passed
  | closeStreamFenced hr =>
    cases hreq
    cases of_decide_eq_true hok
    exact (closeStreamFenced_outcome hr).2.passed
  | closeStreamWithProducer hr =>
    cases hreq
    cases of_decide_eq_true hok
    rcases (closeStreamWithProducer_outcome hr).2 with ⟨-, -, herr⟩ | ⟨st, _, _, hst, -, hpass, -⟩
    · cases herr
    · exact ⟨st, hst, hpass⟩
  | append hr =>
    cases hreq
    cases of_decide_eq_true hok
    rcases (append_outcome hr).2 with ⟨-, -, herr⟩ | ⟨st, _, hst, -, -, hpass, -⟩
    · cases herr
    · exact ⟨st, hst, hpass⟩
  | create | get | has | delete | readPage | read | grantAppendFence | revokeAppendFence
  | sealAppendFence => cases hreq

theorem grant_passed (h : Step s e s') (hcall : e.call = .grantAppendFence p f)
    (hreply : e.reply = .grant (.ok true)) :
    ∃ st, s.streams.lookup p = some st ∧
      ∀ sl, st.seals (fenceAuthority f) = some sl → sl.generation < f.generation := by
  rcases e with ⟨env, call, reply⟩
  cases hcall
  cases hreply
  cases h.ran
  rename_i hr
  rcases grantAppendFence_outcome hr with ⟨-, hne, -⟩ | ⟨-, st, _, _, hst, hpass, -⟩
  · exact absurd rfl hne
  · exact ⟨st, hst, hpass⟩

end Rung

section Final

/-- The stream under a path, if there is one, is write-fenced and sealed at least at a
generation. -/
def SealedFrom (g : ℤ) (a : Bytes) (p : Path) (s : Streams) : Prop :=
  ∀ st, s.lookup p = some st →
    st.metadata.writeFence = true ∧ ∃ sl, st.seals a = some sl ∧ g ≤ sl.generation

/-- A seal stays, or a later one takes its place at the offset of the last fenced write. -/
theorem FenceMove.seal {st' : MemoryStream} {sl : WriteFenceSeal} (h : FenceMove st st')
    (hfenced : st.metadata.writeFence = true) (hsl : st.seals a = some sl) :
    st'.metadata.writeFence = true ∧ ∃ sl', st'.seals a = some sl' ∧
      (sl' = sl ∨ sl.generation < sl'.generation ∧
        sl'.offset = st.lastFencedOff.getD st.metadata.currentOffset) := by
  cases h with
  | quiet hq => exact ⟨hq.writeFence.trans hfenced, sl, hq.seals ▸ hsl, .inl rfl⟩
  | write _ hw => exact ⟨hw.writeFence, sl, hw.seals ▸ hsl, .inl rfl⟩
  | @sealed authority g wake _ hg =>
    refine ⟨hfenced, ?_⟩
    rw [MemoryStream.recordSeal_seals]
    split_ifs with ha
    · subst ha
      exact ⟨_, rfl, .inr ⟨hg sl hsl, rfl⟩⟩
    · exact ⟨sl, hsl, .inl rfl⟩

theorem FenceStep.sealedFrom {s s' : Streams} {g : ℤ} (hstep : FenceStep s e s')
    (hc : e.created ≠ some p) (h : SealedFrom g a p s) : SealedFrom g a p s' := by
  intro st' hst'
  rcases hstep p hc st' hst' with ⟨st, hst, hmove⟩
  rcases h st hst with ⟨hfenced, sl, hsl, hle⟩
  rcases hmove.seal hfenced hsl with ⟨hfenced', sl', hsl', rfl | ⟨hlt, -⟩⟩
  · exact ⟨hfenced', sl', hsl', hle⟩
  · exact ⟨hfenced', sl', hsl', hle.trans hlt.le⟩

/-- Seal finality. Once a seal of a generation is recorded for an authority on a write-fenced
stream, no later request or grant of that authority and of at most that generation succeeds in
the lifetime of the stream, whatever happens to the markers. -/
theorem seal_final {life : List Event} {sl : WriteFenceSeal} (hst : s.streams.lookup p = some st)
    (hfenced : st.metadata.writeFence = true) (hseal : st.seals a = some sl)
    (hrun : Trace.Run Step s life s') (hlife : ∀ e ∈ life, e.created ≠ some p) :
    ∀ e ∈ life,
      (∀ q f, e.call.fenceRequest = some q → q.path = p → q.fence = some f →
        fenceAuthority f = a → f.generation ≤ sl.generation → e.succeeded = false) ∧
      (∀ f, e.call = .grantAppendFence p f → fenceAuthority f = a →
        f.generation ≤ sl.generation → e.reply ≠ .grant (.ok true)) := by
  have hinit : SealedFrom sl.generation a p s.streams := by
    intro st₀ hst₀
    rw [hst, Option.some.injEq] at hst₀
    exact hst₀ ▸ ⟨hfenced, sl, hseal, le_rfl⟩
  have hmem := (hrun.mem_step (I := fun s => SealedFrom sl.generation a p s.streams) hinit
    fun _ e _ he hi hstep => (step_records hstep).sealedFrom (hlife e he) hi).2
  intro e he
  rcases hmem e he with ⟨s₁, s₂, hi, hstep⟩
  constructor
  · rintro q f hreq rfl hf rfl hle
    rw [Bool.eq_false_iff]
    intro hok
    rcases request_passed hstep hreq hok with ⟨st₁, hst₁, hpass⟩
    rw [hf] at hpass
    rcases hi st₁ hst₁ with ⟨hw, sl₁, hsl₁, hge⟩
    have hlt := (fenceRung_fenced hpass).1 hw sl₁ hsl₁
    omega
  · rintro f hcall rfl hle hreply
    rcases grant_passed hstep hcall hreply with ⟨st₁, hst₁, hpass⟩
    rcases hi st₁ hst₁ with ⟨-, sl₁, hsl₁, hge⟩
    have hlt := hpass sl₁ hsl₁
    omega

def claim (generation : ℤ) : AppendFence :=
  { subscriptionID := [115], subscriptionIncarnation := [49], shard := 0, generation := generation
    wakeID := [119], holder := [104], leaseUntilNs := 100 }

def claimedAppend : AppendOptions :=
  { producerId := [112], producerEpoch := some 1, producerSeq := some 0, fence := some (claim 1) }

def claimedCalls : List (Env × Call) :=
  [(.frozen 0, .create [97] { writeFence := true }), (.frozen 1, .grantAppendFence [97] (claim 1)),
    (.frozen 2, .append [97] [1] claimedAppend)]

def sealedCalls : List (Env × Call) :=
  claimedCalls ++ [(.frozen 3, .sealAppendFence [97] (claim 1))]

theorem sealedCalls_run : (empty.execGuarded (fun _ _ => true) sealedCalls).isSome := by decide

theorem step_get (s : MemoryStore) (env : Env) (call : Call) (h : (s.exec env call).isSome) :
    Step s ⟨env, call, ((s.exec env call).get h).2⟩ ((s.exec env call).get h).1 :=
  (Option.some_get h).symm

theorem seal_final_append :
    ∃ e s', Step (ran _ sealedCalls sealedCalls_run).2 e s' ∧
      e.call = .append [97] [2] claimedAppend ∧ e.succeeded = false := by
  have hstep := step_get (ran _ sealedCalls sealedCalls_run).2 (.frozen 4)
    (.append [97] [2] claimedAppend) (by decide)
  refine ⟨_, _, hstep, rfl, ?_⟩
  refine (seal_final (p := [97]) (a := fenceAuthority (claim 1)) rfl rfl rfl
    (Trace.Run.snoc .nil hstep) ?_ _ List.mem_cons_self).1 _ _ rfl rfl rfl rfl (by decide)
  intro e he
  rw [List.nil_append, List.mem_singleton] at he
  rw [he]
  decide

end Final

section Definite

def fencedEnds (p : Path) (a : Bytes) (h : List Event) : List (ℤ × Offset) :=
  h.filterMap (Event.fencedEnd p a)

def sealOf (s : MemoryStore) (p : Path) (a : Bytes) : Option WriteFenceSeal :=
  (s.streams.lookup p).bind (·.seals a)

/-- The accepted fenced appends of a lifetime against the records of its stream. -/
structure Covered (p : Path) (life : List Event) (st : MemoryStream) : Prop where
  tail : ∀ off, st.lastFencedOff = some off → off ≤ st.metadata.currentOffset
  ends : ∀ a, ∀ x ∈ fencedEnds p a life, ∃ off, st.lastFencedOff = some off ∧ x.2 ≤ off
  offsets : ∀ a sl, st.seals a = some sl →
    sl.offset ≤ st.lastFencedOff.getD st.metadata.currentOffset
  sealed : ∀ a sl, st.seals a = some sl → ∀ x ∈ fencedEnds p a life,
    x.1 ≤ sl.generation → x.2 ≤ sl.offset

variable {life : List Event} {st' : MemoryStream}

theorem covered_nil (h : st.Unrecorded) : Covered p [] st where
  tail off hoff := by simp [h.lastFencedOff] at hoff
  ends a x hx := by cases hx
  offsets a sl hsl := by simp [h.seals] at hsl
  sealed a sl hsl := by simp [h.seals] at hsl

theorem Covered.bound_le (h : Covered p life st) :
    st.lastFencedOff.getD st.metadata.currentOffset ≤ st.metadata.currentOffset := by
  cases hoff : st.lastFencedOff with
  | none => exact le_rfl
  | some off => exact h.tail off hoff

theorem Covered.quiet (h : Covered p life st) (hq : st.Quiet st') : Covered p life st' where
  tail off hoff := (h.tail off (by rwa [← hq.lastFencedOff])).trans hq.tail
  ends := by
    rw [hq.lastFencedOff]
    exact h.ends
  offsets a sl hsl := by
    rw [hq.seals] at hsl
    refine (h.offsets a sl hsl).trans ?_
    rw [hq.lastFencedOff]
    cases st.lastFencedOff with
    | none => exact hq.tail
    | some off => exact le_rfl
  sealed a sl hsl := h.sealed a sl (by rwa [← hq.seals])

theorem Covered.write {f : AppendFence} {pid : Bytes} (h : Covered p life st)
    (hw : st.FencedWrite f pid st') : Covered p life st' where
  tail off hoff := by
    rw [hw.lastFencedOff, Option.some.injEq] at hoff
    exact hoff ▸ le_rfl
  ends a x hx := by
    rcases h.ends a x hx with ⟨off, hoff, hle⟩
    exact ⟨_, hw.lastFencedOff, hle.trans ((h.tail off hoff).trans hw.tail)⟩
  offsets a sl hsl := by
    rw [hw.seals] at hsl
    rw [hw.lastFencedOff]
    exact (h.offsets a sl hsl).trans (h.bound_le.trans hw.tail)
  sealed a sl hsl := h.sealed a sl (by rwa [← hw.seals])

theorem Covered.recordSeal (h : Covered p life st) (authority : Bytes) (g : ℤ) (wake : Bytes) :
    Covered p life (st.recordSeal authority g wake).1 where
  tail := h.tail
  ends := h.ends
  offsets a sl hsl := by
    by_cases ha : a = authority
    · subst ha
      rw [MemoryStream.recordSeal_seals, if_pos rfl, Option.some.injEq] at hsl
      exact hsl ▸ le_rfl
    · exact h.offsets a sl (by rwa [MemoryStream.recordSeal_seals, if_neg ha] at hsl)
  sealed a sl hsl x hx hle := by
    by_cases ha : a = authority
    · subst ha
      rw [MemoryStream.recordSeal_seals, if_pos rfl, Option.some.injEq] at hsl
      rcases h.ends a x hx with ⟨off, hoff, hxoff⟩
      subst hsl
      simpa [hoff] using hxoff
    · exact h.sealed a sl (by rwa [MemoryStream.recordSeal_seals, if_neg ha] at hsl) x hx hle

theorem Covered.snoc (h : Covered p life st)
    (hend : ∀ a x, e.fencedEnd p a = some x →
      (∃ off, st.lastFencedOff = some off ∧ x.2 ≤ off) ∧
        ∀ sl, st.seals a = some sl → sl.generation < x.1) : Covered p (life ++ [e]) st := by
  have hmem : ∀ a x, x ∈ fencedEnds p a (life ++ [e]) →
      x ∈ fencedEnds p a life ∨ e.fencedEnd p a = some x := by
    intro a x hx
    simpa [fencedEnds, or_and_right, exists_or] using hx
  refine ⟨h.tail, ?_, h.offsets, ?_⟩
  · intro a x hx
    rcases hmem a x hx with hx | hx
    · exact h.ends a x hx
    · exact (hend a x hx).1
  · intro a sl hsl x hx hle
    rcases hmem a x hx with hx | hx
    · exact h.sealed a sl hsl x hx hle
    · exact absurd ((hend a x hx).2 sl hsl) (not_lt.mpr hle)

theorem fencedEnd_recorded {x : ℤ × Offset} (hstep : Step s e s') (hx : e.fencedEnd p a = some x)
    (hst' : s'.streams.lookup p = some st') (hw' : st'.metadata.writeFence = true) :
    (∃ off, st'.lastFencedOff = some off ∧ x.2 ≤ off) ∧
      ∀ sl, st'.seals a = some sl → sl.generation < x.1 := by
  rcases e with ⟨env, call, reply⟩
  unfold Event.fencedEnd at hx
  split at hx
  swap
  · cases hx
  rename_i path data opts r hcall hreply
  subst hcall hreply
  split at hx
  swap
  · cases hx
  rename_i hnew
  rcases hnew with ⟨rfl, hdup⟩
  rcases Option.map_eq_some_iff.mp hx with ⟨f, hf, rfl⟩
  rcases Option.filter_eq_some_iff.mp hf with ⟨hf, ha⟩
  rw [decide_eq_true_eq] at ha
  rcases request_passed hstep rfl rfl with ⟨st, hst, hpass⟩
  rw [hf] at hpass
  have hseal := (fenceRung_fenced hpass).1
  cases hstep.ran
  rename_i happ
  rcases append_records happ with ⟨hquiet, hclass⟩ | ⟨st₀, f₀, st₁, hst₀, hf₀, -, hwrite, hs', hoff⟩
  · rcases hquiet path st' hst' with ⟨st₀, hst₀, hq⟩
    rcases hclass rfl hdup st₀ hst₀ with hnone | hun
    · simp [hf] at hnone
    · simp [hq.writeFence, hun] at hw'
  · cases hst.symm.trans hst₀
    cases hf.symm.trans hf₀
    rw [hs', Finmap.lookup_insert] at hst'
    cases hst'
    refine ⟨⟨_, hwrite.lastFencedOff, hoff.le⟩, ?_⟩
    intro sl hsl
    rw [hwrite.seals, ← ha] at hsl
    exact hseal hwrite.fenced sl hsl

/-- The stream under a path, if it is there and write-fenced, covers the accepted appends. -/
def CoveredAt (p : Path) (life : List Event) (s : MemoryStore) : Prop :=
  ∀ st, s.streams.lookup p = some st → st.metadata.writeFence = true → Covered p life st

theorem CoveredAt.step (h : CoveredAt p life s) (hstep : Step s e s')
    (hc : e.created ≠ some p) : CoveredAt p (life ++ [e]) s' := by
  intro st' hst' hw'
  refine Covered.snoc ?_ fun a x hx => fencedEnd_recorded hstep hx hst' hw'
  rcases step_records hstep p hc st' hst' with ⟨st, hst, hmove⟩
  cases hmove with
  | quiet hq => exact (h st hst (by rwa [← hq.writeFence])).quiet hq
  | write _ hw => exact (h st hst hw.fenced).write hw
  | sealed hfenced _ => exact (h st hst hfenced).recordSeal _ _ _

theorem CoveredAt.run {later : List Event} (h : CoveredAt p life s)
    (hrun : Trace.Run Step s later s') (hlater : ∀ e ∈ later, e.created ≠ some p) :
    CoveredAt p (life ++ later) s' := by
  induction hrun with
  | nil => rwa [List.append_nil]
  | snoc _ hstep ih =>
    rw [← List.append_assoc]
    exact (ih fun e he => hlater e (by simp [he])).step hstep (hlater _ (by simp))

theorem created_unrecorded (hstep : Step s e s') (hc : e.created = some p) :
    ∃ st, s'.streams.lookup p = some st ∧ st.Unrecorded := by
  rcases e with ⟨env, call, reply⟩
  unfold Event.created at hc
  split at hc
  swap
  · cases hc
  rename_i path opts md hcall hreply
  subst hcall hreply
  cases hc
  rcases hstep.ran with ⟨hr⟩
  rcases (create_made hr).1 with ⟨st, hst, -, hun⟩
  exact ⟨st, hst, hun⟩

def SinceCreation (p : Path) (h life : List Event) : Prop :=
  ∃ before c, h = before ++ [c] ++ life ∧ c.created = some p ∧ ∀ e ∈ life, e.created ≠ some p

theorem coveredAt_since {h : List Event} (hrun : Run h s) (hsince : SinceCreation p h life) :
    CoveredAt p life s := by
  rcases hsince with ⟨before, c, rfl, hc, hlife⟩
  rcases hrun.split with ⟨s₁, hbefore, hlife'⟩
  rcases hbefore.last with ⟨s₀, -, hstep⟩
  rcases created_unrecorded hstep hc with ⟨st, hst, hun⟩
  rw [← List.nil_append life]
  refine CoveredAt.run ?_ hlife' hlife
  intro st₀ hst₀ _
  rw [hst, Option.some.injEq] at hst₀
  exact hst₀ ▸ covered_nil hun

/-- Seals advance over a run: each later one has a higher generation at an offset no smaller. -/
theorem CoveredAt.seals_advance {later : List Event} {sl : WriteFenceSeal}
    (h : CoveredAt p life s) (hst : s.streams.lookup p = some st)
    (hfenced : st.metadata.writeFence = true) (hsl : st.seals a = some sl)
    (hrun : Trace.Run Step s later s') (hlater : ∀ e ∈ later, e.created ≠ some p) :
    ∀ st', s'.streams.lookup p = some st' → st'.metadata.writeFence = true ∧
      ∃ sl', st'.seals a = some sl' ∧
        (sl' = sl ∨ sl.generation < sl'.generation ∧ sl.offset ≤ sl'.offset) := by
  induction hrun with
  | nil =>
    intro st' hst'
    cases hst.symm.trans hst'
    exact ⟨hfenced, sl, hsl, .inl rfl⟩
  | @snoc later s₁ s₂ e hrun hstep ih =>
    intro st₂ hst₂
    have hbefore : ∀ e ∈ later, e.created ≠ some p := fun e he => hlater e (by simp [he])
    rcases step_records hstep p (hlater e (by simp)) st₂ hst₂ with ⟨st₁, hst₁, hmove⟩
    rcases ih hbefore st₁ hst₁ with ⟨hfenced₁, sl₁, hsl₁, hsince⟩
    rcases hmove.seal hfenced₁ hsl₁ with ⟨hfenced₂, sl₂, hsl₂, rfl | ⟨hlt, hoff⟩⟩
    · exact ⟨hfenced₂, sl₂, hsl₂, hsince⟩
    · have hle := (h.run hrun hbefore st₁ hst₁ hfenced₁).offsets a sl₁ hsl₁
      rw [← hoff] at hle
      refine ⟨hfenced₂, sl₂, hsl₂, .inr ?_⟩
      rcases hsince with rfl | ⟨hlt₁, hle₁⟩
      · exact ⟨hlt, hle⟩
      · exact ⟨hlt₁.trans hlt, hle₁.trans hle⟩

theorem seal_unrecorded {f : AppendFence} {r : SealResult} (hstep : Step s e s')
    (hcall : e.call = .sealAppendFence p f) (hreply : e.reply = .sealFence (.ok r))
    (hr : r.outcome = .already ∨ r.outcome = .stale) : s'.streams = s.streams := by
  rcases e with ⟨env, call, reply⟩
  subst hcall hreply
  cases hstep.ran
  rename_i hseal
  rcases sealAppendFence_outcome hseal with ⟨rfl, -⟩ | ⟨-, _, heq, ⟨hs', -⟩ | ⟨hsealed, -⟩⟩
  · rfl
  · exact hs'
  · cases heq
    rcases hr with hr | hr <;> simp [hr] at hsealed

/-- Definite seal offsets. In every reached state of a write-fenced stream a seal covers the end
of every fenced append of its authority that was accepted at its generation or below; in any run
from there a seal is replaced only by one of a higher generation at an offset no smaller; and a
seal call that answers already sealed or stale replaces nothing. -/
theorem seals_definite {h : List Event} (hrun : Run h s) (hsince : SinceCreation p h life)
    (hst : s.streams.lookup p = some st) (hfenced : st.metadata.writeFence = true) :
    (∀ a sl, s.sealOf p a = some sl → ∀ x ∈ fencedEnds p a life,
      x.1 ≤ sl.generation → x.2 ≤ sl.offset) ∧
    (∀ later s' a sl sl', Trace.Run Step s later s' → (∀ e ∈ later, e.created ≠ some p) →
      s.sealOf p a = some sl → s'.sealOf p a = some sl' → sl' ≠ sl →
      sl.generation < sl'.generation ∧ sl.offset ≤ sl'.offset) ∧
    (∀ e s' f r a, Step s e s' → e.call = .sealAppendFence p f → e.reply = .sealFence (.ok r) →
      r.outcome = .already ∨ r.outcome = .stale → s'.sealOf p a = s.sealOf p a) := by
  have hcovered := coveredAt_since hrun hsince
  have hsealOf : ∀ a, s.sealOf p a = st.seals a := by
    intro a
    rw [sealOf, hst, Option.bind_some]
  refine ⟨?_, ?_, ?_⟩
  · intro a sl hsl
    exact (hcovered st hst hfenced).sealed a sl (hsealOf a ▸ hsl)
  · intro later s' a sl sl' hlater hc hsl hsl' hne
    rw [hsealOf] at hsl
    rcases Option.bind_eq_some_iff.mp hsl' with ⟨st', hst', hsl'⟩
    rcases (hcovered.seals_advance hst hfenced hsl hlater hc st' hst').2 with ⟨sl₁, hsl₁, hsince⟩
    cases hsl'.symm.trans hsl₁
    exact hsince.resolve_left hne
  · intro e s' f r a hstep hcall hreply hr
    rw [sealOf, sealOf, seal_unrecorded hstep hcall hreply hr]

theorem seals_definite_claimed :
    ∃ h s life sl, Run h s ∧ SinceCreation [97] h life ∧
      s.sealOf [97] (fenceAuthority (claim 1)) = some sl ∧ sl.generation = 1 ∧
      fencedEnds [97] (fenceAuthority (claim 1)) life = [(1, ⟨0, 1⟩)] ∧ (⟨0, 1⟩ : Offset) ≤ sl.offset := by
  have hsince : SinceCreation [97] (ran _ sealedCalls sealedCalls_run).1
      (ran _ sealedCalls sealedCalls_run).1.tail := by
    refine ⟨[], (ran _ sealedCalls sealedCalls_run).1.head (by decide), ?_, by decide, by decide⟩
    exact (List.cons_head_tail _).symm
  refine ⟨_, _, _, _, ran_run sealedCalls_run, hsince, rfl, rfl, by decide, ?_⟩
  exact (seals_definite (ran_run sealedCalls_run) hsince rfl rfl).1 (fenceAuthority (claim 1)) _ rfl
    (1, ⟨0, 1⟩) (by decide) (by decide)

end Definite

section Bound

/-- The stream under a path, if there is one, is write-fenced and has bound a producer. -/
def BoundAt (pid : Bytes) (p : Path) (s : Streams) : Prop :=
  ∀ st, s.lookup p = some st → st.metadata.writeFence = true ∧ 0 < st.bound pid

theorem complete_generation (h : f.complete = true) : 0 < f.generation := by
  simp only [AppendFence.complete, Bool.and_eq_true, decide_eq_true_eq] at h
  exact h.1.1.2

theorem FencedWrite.bound_pos {st st' : MemoryStream} (hw : st.FencedWrite f pid st')
    (hcomplete : f.complete = true) : 0 < st'.bound pid := by
  rw [hw.bound, Function.update_self]
  exact complete_generation hcomplete

theorem FenceStep.boundAt {s s' : Streams} (hstep : FenceStep s e s')
    (hc : e.created ≠ some p) (h : BoundAt pid p s) : BoundAt pid p s' := by
  intro st' hst'
  rcases hstep p hc st' hst' with ⟨st, hst, hmove⟩
  cases hmove with
  | quiet hq =>
    rw [hq.writeFence, hq.bound]
    exact h st hst
  | @write f pid' _ hcomplete hw =>
    refine ⟨hw.writeFence, ?_⟩
    by_cases hpid : pid = pid'
    · subst hpid
      exact FencedWrite.bound_pos hw hcomplete
    · rw [hw.bound, Function.update_of_ne hpid]
      exact (h st hst).2
  | sealed hfenced _ => exact ⟨hfenced, (h st hst).2⟩

theorem boundAt_of_write {s s' : Streams} {st' : MemoryStream}
    (hw : st.FencedWrite f pid st') (hcomplete : f.complete = true) (hs' : s' = s.insert p st') :
    BoundAt pid p s' := by
  intro st₁ hst₁
  rw [hs', Finmap.lookup_insert, Option.some.injEq] at hst₁
  exact hst₁ ▸ ⟨hw.writeFence, FencedWrite.bound_pos hw hcomplete⟩

variable {r : ClosedByProducer}

theorem accepted_close {env : Env} {path : Path} {opts : CloseProducerOptions}
    {res : Option CloseProducerResult} {err : Option StoreError}
    (h : Event.accepted ⟨env, .closeStreamWithProducer path opts, .closeProducer res err⟩ =
      some (p, r)) :
    path = p ∧ r.producerId = opts.producerId ∧
      (res.any fun x => x.producerResult = .accepted) = true := by
  cases res with
  | none => cases h
  | some x =>
    simp only [Event.accepted, Option.ite_none_right_eq_some, Option.some.injEq,
      Prod.mk.injEq] at h
    obtain ⟨hx, rfl, rfl⟩ := h
    exact ⟨rfl, rfl, by simp [hx]⟩

theorem accepted_binds {q : FenceRequest} (hstep : Step s e s')
    (hst : s.streams.lookup p = some st) (hfenced : st.metadata.writeFence = true)
    (hreq : e.call.fenceRequest = some q) (hq : q.fence.isSome = true)
    (hacc : e.accepted = some (p, r)) (hok : e.succeeded = true) :
    BoundAt r.producerId p s'.streams := by
  have hnot : ∀ {fence : Option AppendFence}, fence.isSome = true →
      ¬ (fence = none ∨ st.metadata.writeFence = false) := by
    rintro fence hsome (rfl | hfalse)
    · cases hsome
    · rw [hfenced] at hfalse
      cases hfalse
  cases hstep.ran with
  | @append _ _ _ opts _ _ _ happ =>
    cases hreq
    simp only [Event.accepted, Option.ite_none_right_eq_some, Option.map_eq_some_iff,
      Prod.mk.injEq] at hacc
    obtain ⟨hres, r₀, hr₀, rfl, rfl⟩ := hacc
    have hpid : r₀.producerId = opts.producerId := by
      unfold AppendOptions.producer at hr₀
      grind
    rw [hpid]
    rcases append_records happ with ⟨-, hun⟩ | ⟨_, _, _, _, _, hcomplete, hw, hs', _⟩
    · exact absurd (hun (by simpa [Event.succeeded] using hok) (by simp [hres]) st hst) (hnot hq)
    · exact boundAt_of_write hw hcomplete hs'
  | closeStreamWithProducer hclose =>
    cases hreq
    obtain ⟨rfl, hpid, hres⟩ := accepted_close hacc
    rw [hpid]
    rcases closeStreamWithProducer_records hclose with
      ⟨-, hun⟩ | ⟨_, _, _, _, _, hcomplete, hw, hs'⟩
    · exact absurd (hun hres st hst) (hnot hq)
    · exact boundAt_of_write hw hcomplete hs'
  | closeStream | closeStreamFenced | create | get | has | delete | readPage | read
  | grantAppendFence | revokeAppendFence | sealAppendFence => cases hacc

theorem request_epoch {q : FenceRequest} (h : Step s e s') (hreq : e.call.fenceRequest = some q)
    (hpid : q.producerId ≠ []) (hok : e.succeeded = true) : q.epoch.isSome = true := by
  cases h.ran with
  | append hr =>
    cases hreq
    cases of_decide_eq_true hok
    rcases (append_outcome hr).2 with ⟨-, -, herr⟩ | ⟨_, _, -, -, hheaders, -⟩
    · cases herr
    simp only [AppendOptions.hasProducerHeaders, AppendOptions.hasAllProducerHeaders] at hheaders
    grind
  | closeStreamWithProducer =>
    cases hreq
    rfl
  | closeStream | closeStreamFenced =>
    cases hreq
    exact absurd rfl hpid
  | create | get | has | delete | readPage | read | grantAppendFence | revokeAppendFence
  | sealAppendFence => cases hreq

/-- Bound producers stay bound. Once a fenced append or close that names a producer is accepted
on a write-fenced stream, no later append or close that names the producer without a fence
descriptor succeeds in the lifetime of the stream. -/
theorem bound_final {life : List Event} {s₀ s₁ s₂ : MemoryStore} {c : Event} {q : FenceRequest}
    {r : ClosedByProducer} (hst : s₀.streams.lookup p = some st)
    (hfenced : st.metadata.writeFence = true) (hstep : Step s₀ c s₁)
    (hreq : c.call.fenceRequest = some q) (hfence : q.fence.isSome = true)
    (hacc : c.accepted = some (p, r)) (hok : c.succeeded = true) (hpid : r.producerId ≠ [])
    (hrun : Trace.Run Step s₁ life s₂) (hlife : ∀ e ∈ life, e.created ≠ some p) :
    ∀ e ∈ life, ∀ q', e.call.fenceRequest = some q' → q'.path = p → q'.fence = none →
      q'.producerId = r.producerId → e.succeeded = false := by
  have hinit := accepted_binds hstep hst hfenced hreq hfence hacc hok
  have hmem := (hrun.mem_step (I := fun s => BoundAt r.producerId p s.streams) hinit
    fun _ e _ he hi hstep => (step_records hstep).boundAt (hlife e he) hi).2
  intro e he q' hreq' hpath hopen hname
  rw [Bool.eq_false_iff]
  intro hsucc
  rcases hmem e he with ⟨s₃, s₄, hi, hstep'⟩
  rcases request_passed hstep' hreq' hsucc with ⟨st₁, hst₁, hpass⟩
  have hepoch := request_epoch hstep' hreq' (hname ▸ hpid) hsucc
  rw [hpath] at hst₁
  rw [hopen] at hpass
  rcases hi st₁ hst₁ with ⟨hw, hpos⟩
  have hle := fenceRung_open hw hepoch hpass
  rw [hname] at hle
  omega

def grantedStore : MemoryStore :=
  (ran (fun _ _ => true) (claimedCalls.take 2) (by decide)).2

theorem bound_final_open :
    ∃ c s₁ e s₂, Step grantedStore c s₁ ∧ c.call = .append [97] [1] claimedAppend ∧
      Step s₁ e s₂ ∧ e.call = .append [97] [2] { claimedAppend with fence := none } ∧
      c.succeeded = true ∧ e.succeeded = false := by
  have hstep := step_get grantedStore (.frozen 2) (.append [97] [1] claimedAppend) (by decide)
  have hlater := step_get _ (.frozen 3) (.append [97] [2] { claimedAppend with fence := none })
    (show (exec ((grantedStore.exec (.frozen 2) (.append [97] [1] claimedAppend)).get
      (by decide)).1 _ _).isSome by decide)
  refine ⟨_, _, _, _, hstep, rfl, hlater, rfl, by decide, ?_⟩
  refine bound_final (p := [97]) (r := ⟨[112], 1, 0⟩) rfl rfl hstep rfl rfl (by decide) (by decide)
    (by decide) (Trace.Run.snoc .nil hlater) ?_ _ List.mem_cons_self _ rfl rfl rfl rfl
  intro e he
  rw [List.nil_append, List.mem_singleton] at he
  rw [he]
  decide

end Bound

section Markers

/-- A marker that may stand where another one stood before. -/
structure Later (m m' : WriteFenceMarker) : Prop where
  generation : m.generation ≤ m'.generation
  same : m.generation = m'.generation → m'.wakeID = m.wakeID ∧ m'.holder = m.holder
  renewed : m.generation = m'.generation → m'.state = .live →
    m.state = .live ∧ m.leaseUntilNs ≤ m'.leaseUntilNs

theorem Later.refl (m : WriteFenceMarker) : Later m m :=
  ⟨le_rfl, fun _ => ⟨rfl, rfl⟩, fun _ hlive => ⟨hlive, le_rfl⟩⟩

theorem Later.trans {m₁ m₂ m₃ : WriteFenceMarker} (h : Later m₁ m₂) (h' : Later m₂ m₃) :
    Later m₁ m₃ := by
  refine ⟨h.generation.trans h'.generation, ?_, ?_⟩
  · intro heq
    have h₁₂ : m₁.generation = m₂.generation :=
      le_antisymm h.generation (heq ▸ h'.generation)
    rcases h.same h₁₂ with ⟨hwake, hholder⟩
    rcases h'.same (h₁₂ ▸ heq) with ⟨hwake', hholder'⟩
    exact ⟨hwake'.trans hwake, hholder'.trans hholder⟩
  · intro heq hlive
    have h₁₂ : m₁.generation = m₂.generation :=
      le_antisymm h.generation (heq ▸ h'.generation)
    rcases h'.renewed (h₁₂ ▸ heq) hlive with ⟨hlive₂, hlease'⟩
    rcases h.renewed h₁₂ hlive₂ with ⟨hlive₁, hlease⟩
    exact ⟨hlive₁, hlease.trans hlease'⟩

theorem Succeeds.later {m m' : WriteFenceMarker} (h : Succeeds (some m) m') : Later m m' := by
  cases h with
  | revoked hstate h =>
    rcases h m rfl with hlt | ⟨heq, hwake, hholder⟩
    · exact ⟨hlt.le, fun h => absurd h hlt.ne, fun h => absurd h hlt.ne⟩
    · refine ⟨heq.le, fun _ => ⟨hwake.symm, hholder.symm⟩, fun _ hlive => ?_⟩
      rw [hstate] at hlive
      cases hlive
  | granted _ h =>
    rcases h m rfl with hlt | ⟨hlive, heq, hwake, hholder, hlease⟩
    · exact ⟨hlt.le, fun h => absurd h hlt.ne, fun h => absurd h hlt.ne⟩
    · exact ⟨heq.le, fun _ => ⟨hwake.symm, hholder.symm⟩, fun _ _ => ⟨hlive, hlease⟩⟩

/-- The call does not reap the marker: it leaves it as it is, or finds it within its retention. -/
def Unreaped (p : Path) (a : Bytes) (s : MemoryStore) (e : Event) (s' : MemoryStore) : Prop :=
  ∀ m, s.markers p a = some m → s'.markers p a = some m ∨ e.env.wall 0 ≤ m.expiresAt

/-- A call in which the marker is not reaped. -/
def KeepingStep (p : Path) (a : Bytes) (s : MemoryStore) (e : Event) (s' : MemoryStore) : Prop :=
  Step s e s' ∧ Unreaped p a s e s'

theorem KeepingStep.later {m : MemoryMarker} (h : KeepingStep p a s e s')
    (hm : s.markers p a = some m) :
    ∃ m', s'.markers p a = some m' ∧ Later m.marker m'.marker := by
  rcases h with ⟨hstep, hkeep⟩
  rcases hkeep m hm with hsame | hretained
  · exact ⟨m, hsame, .refl _⟩
  cases step_marker hstep p a with
  | kept hkept =>
    rcases hkept with hsame | ⟨⟨m₀, hm₀, hlt⟩, -⟩
    · exact ⟨m, hsame.trans hm, .refl _⟩
    · rw [hm, Option.some.injEq] at hm₀
      exact absurd hretained (not_le.mpr (hm₀ ▸ hlt))
  | put hm' hsucc =>
    have hread : (s.marker p a (e.env.wall 0)).2 = some m.marker := by
      simp [marker, hm, not_lt.mpr hretained]
    rw [hread] at hsucc
    exact ⟨_, hm', hsucc.later⟩

/-- The generation of a fenced write or close of an authority on a path that succeeded. -/
def fencedGeneration (p : Path) (a : Bytes) (e : Event) : Option ℤ :=
  if e.succeeded then
    (e.call.fenceRequest.filter fun q => q.path = p).bind fun q =>
      (q.fence.filter fun f => fenceAuthority f = a).map (·.generation)
  else none

theorem fencedGeneration_marker {g : ℤ} (hstep : Step s e s')
    (hg : fencedGeneration p a e = some g) :
    ∃ m, s.markers p a = some m ∧ m.marker.generation = g := by
  simp only [fencedGeneration, Option.ite_none_right_eq_some, Option.bind_eq_some_iff,
    Option.filter_eq_some_iff, Option.map_eq_some_iff, decide_eq_true_eq] at hg
  obtain ⟨hok, q, ⟨hreq, rfl⟩, f, ⟨hf, rfl⟩, rfl⟩ := hg
  rcases request_passed hstep hreq hok with ⟨st, -, hpass⟩
  rw [hf] at hpass
  rcases (fenceRung_fenced hpass).2 with ⟨m, hm, hadmits⟩
  unfold marker at hm
  split at hm
  · cases hm
  rename_i m₀ hm₀
  split at hm
  · cases hm
  cases hm
  refine ⟨m₀, hm₀, ?_⟩
  simp only [WriteFenceMarker.admits, Bool.and_eq_true, decide_eq_true_eq] at hadmits
  exact hadmits.1.1.1.1.2

theorem marker_bounds_accepted {h : List Event} (hrun : Trace.Run (KeepingStep p a) s h s') :
    (h.filterMap (fencedGeneration p a)).Pairwise (· ≤ ·) ∧
    ∀ g ∈ h.filterMap (fencedGeneration p a),
      ∃ m, s'.markers p a = some m ∧ g ≤ m.marker.generation := by
  induction hrun with
  | nil => simp
  | @snoc h s₁ s₂ e hrun hstep ih =>
    rcases ih with ⟨hsorted, hbound⟩
    have hkept : ∀ g m, s₁.markers p a = some m → g ≤ m.marker.generation →
        ∃ m', s₂.markers p a = some m' ∧ g ≤ m'.marker.generation := by
      intro g m hm hle
      rcases hstep.later hm with ⟨m', hm', hlater⟩
      exact ⟨m', hm', hle.trans hlater.generation⟩
    have hold : ∀ g ∈ h.filterMap (fencedGeneration p a),
        ∃ m', s₂.markers p a = some m' ∧ g ≤ m'.marker.generation := by
      intro g hg
      rcases hbound g hg with ⟨m, hm, hle⟩
      exact hkept g m hm hle
    rw [List.filterMap_append]
    cases hg : fencedGeneration p a e with
    | none =>
      rw [List.filterMap_cons_none hg, List.filterMap_nil, List.append_nil]
      exact ⟨hsorted, hold⟩
    | some g =>
      rcases fencedGeneration_marker hstep.1 hg with ⟨m, hm, rfl⟩
      have hnew := hkept _ m hm le_rfl
      have hle : ∀ g ∈ h.filterMap (fencedGeneration p a), g ≤ m.marker.generation := by
        intro g hg
        rcases hbound g hg with ⟨m₀, hm₀, hle⟩
        rw [hm, Option.some.injEq] at hm₀
        exact hm₀ ▸ hle
      rw [List.filterMap_cons_some hg, List.filterMap_nil]
      refine ⟨List.pairwise_append.mpr ⟨hsorted, List.pairwise_singleton .., ?_⟩, ?_⟩
      · simpa using hle
      · intro g' hg'
        rcases List.mem_append.mp hg' with hg' | hg'
        · exact hold g' hg'
        · rw [List.mem_singleton.mp hg']
          exact hnew

/-- Claim markers are monotone. Over a run that does not reap the marker of an authority, its
generation never decreases, a renewal keeps the wake id and the holder and never shortens the
lease, a generation that was revoked or superseded is never live again, and the generations of
the fenced requests that succeed never decrease. -/
theorem markers_monotone {h : List Event} (hrun : Trace.Run (KeepingStep p a) s h s') :
    (∀ m, s.markers p a = some m → ∃ m', s'.markers p a = some m' ∧
      m.marker.generation ≤ m'.marker.generation ∧
      (m.marker.generation = m'.marker.generation →
        m'.marker.wakeID = m.marker.wakeID ∧ m'.marker.holder = m.marker.holder) ∧
      (m.marker.generation = m'.marker.generation → m'.marker.state = .live →
        m.marker.leaseUntilNs ≤ m'.marker.leaseUntilNs) ∧
      ∀ g, g < m.marker.generation ∨ g = m.marker.generation ∧ m.marker.state = .revoked →
        ¬ (m'.marker.generation = g ∧ m'.marker.state = .live)) ∧
    (h.filterMap (fencedGeneration p a)).Pairwise (· ≤ ·) := by
  refine ⟨?_, (marker_bounds_accepted hrun).1⟩
  intro m hm
  have hlater : ∃ m', s'.markers p a = some m' ∧ Later m.marker m'.marker := by
    refine hrun.invariant
      (I := fun s => ∃ m', s.markers p a = some m' ∧ Later m.marker m'.marker) ⟨m, hm, .refl _⟩ ?_
    rintro s₁ e s₂ ⟨m₁, hm₁, hl₁⟩ hstep
    rcases hstep.later hm₁ with ⟨m₂, hm₂, hl₂⟩
    exact ⟨m₂, hm₂, hl₁.trans hl₂⟩
  rcases hlater with ⟨m', hm', hl⟩
  refine ⟨m', hm', hl.generation, hl.same, fun heq hlive => (hl.renewed heq hlive).2, ?_⟩
  rintro g hpast ⟨heq, hlive⟩
  rcases hpast with hlt | ⟨rfl, hrevoked⟩
  · exact absurd hl.generation (not_le.mpr (heq ▸ hlt))
  · rw [(hl.renewed heq.symm hlive).1] at hrevoked
    cases hrevoked

theorem unreaped_of_retained
    (h : ((s.markers p a).all fun m => e.env.wall 0 ≤ m.expiresAt) = true) :
    Unreaped p a s e s' := by
  intro m hm
  rw [hm, Option.all_some, decide_eq_true_eq] at h
  exact .inr h

theorem markers_monotone_granted :
    ∃ h s', Trace.Run (KeepingStep [97] (fenceAuthority (claim 1))) grantedStore h s' ∧
      h.map (·.call) = [.append [97] [1] claimedAppend] ∧
      h.filterMap (fencedGeneration [97] (fenceAuthority (claim 1))) = [1] ∧
      ∃ m', s'.markers [97] (fenceAuthority (claim 1)) = some m' ∧ 1 ≤ m'.marker.generation := by
  have hstep := step_get grantedStore (.frozen 2) (.append [97] [1] claimedAppend) (by decide)
  have hrun := Trace.Run.snoc .nil
    (show KeepingStep [97] (fenceAuthority (claim 1)) _ _ _ from
      ⟨hstep, unreaped_of_retained (by decide)⟩)
  refine ⟨_, _, hrun, rfl, by decide, ?_⟩
  rcases (markers_monotone hrun).1 _ rfl with ⟨m', hm', hle, -⟩
  exact ⟨m', hm', hle⟩

end Markers

end MemoryStore

end Chronicle
