import Chronicle.Redis.Commit

/-! # Concurrent appends

Several callers append to one stream. Each one frames its body against a tail
that it was told or has read, which may have moved since, and runs the script.
Only the reads of the tail and the runs of the script are atomic. However they
interleave, the stored frames are those of the committed requests, one request
after the other.
-/

namespace Chronicle.Redis

variable {ι : Type*}

section System

variable [DecidableEq ι]

structure Request where
  data : Bytes
  opts : AppendOptions

/-- Where a caller stands: at the start of an attempt, with frames that are to be
sent, or at the end. -/
inductive Phase where
  | framing (left : ℕ) (hint : Option Offset)
  | framed (left : ℕ) (base : Offset) (ct : Bytes)
  | done (result : AppendResult) (err : Option StoreError)

def Phase.isDone : Phase → Bool
  | .done .. => true
  | _ => false

structure Caller where
  request : Request
  phase : Phase

structure Appends (ι : Type*) where
  keys : StreamKeys
  callers : ι → Option Caller := fun _ => none

inductive AppendAction (ι : Type*) where
  | start (i : ι) (r : Request)
  | frame (i : ι)
  | invoke (i : ι) (now : Time)

inductive AppendEvent (ι : Type*) where
  | start (i : ι) (r : Request)
  | frame (i : ι)
  | invoke (i : ι) (r : Request) (reply : Option Reply)

def AppendEvent.caller : AppendEvent ι → ι
  | .start i _ | .frame i | .invoke i .. => i

def startPhase (r : Request) : Phase :=
  match checkAppend r.data r.opts with
  | some e => .done {} (some e)
  | none => .framing (attempts r.opts) (firstHint r.opts)

def framePhase (r : Request) (left : ℕ) (hint : Option Offset) (k : StreamKeys) : Phase :=
  match left with
  | 0 => .done {} (some .tooMuchContention)
  | left + 1 =>
    match frameAgainst r.opts hint k with
    | .error e => .done {} (some e)
    | .ok (base, ct) => .framed left base ct

def nextPhase (r : Request) (left : ℕ) : Attempt → Phase
  | .done result err => .done result err
  | .retry tail =>
    match nextHint r.opts tail with
    | .error e => .done {} (some e)
    | .ok hint => .framing left hint

def invocation (i : ι) (now : Time) (path : Path) (r : Request) (base : Offset) (ct : Bytes)
    (k : StreamKeys) : AppendEvent ι :=
  .invoke i r ((appendScript (attemptArgs now path r.data r.opts base ct).1 k).map Prod.snd)

namespace Appends

def move (s : Appends ι) (i : ι) (r : Request) (phase : Phase) (k : StreamKeys) : Appends ι where
  keys := k
  callers := Function.update s.callers i (some ⟨r, phase⟩)

def exec (path : Path) (s : Appends ι) : AppendAction ι → Option (AppendEvent ι × Appends ι)
  | .start i r =>
    if (s.callers i).all fun c => c.phase.isDone then
      some (.start i r, s.move i r (startPhase r) s.keys)
    else none
  | .frame i =>
    match s.callers i with
    | some ⟨r, .framing left hint⟩ =>
      some (.frame i, s.move i r (framePhase r left hint s.keys) s.keys)
    | _ => none
  | .invoke i now =>
    match s.callers i with
    | some ⟨r, .framed left base ct⟩ =>
      let (k, outcome) := attempt now path r.data r.opts base ct s.keys
      some (invocation i now path r base ct s.keys, s.move i r (nextPhase r left outcome) k)
    | _ => none

def Step (path : Path) (s : Appends ι) (e : AppendEvent ι) (s' : Appends ι) : Prop :=
  ∃ a, s.exec path a = some (e, s')

theorem step_cases {path : Path} {s s' : Appends ι} {e : AppendEvent ι} (h : s.Step path e s') :
    (∃ i r, e = .start i r ∧ s' = s.move i r (startPhase r) s.keys) ∨
    (∃ i r left hint, s.callers i = some ⟨r, .framing left hint⟩ ∧ e = .frame i ∧
      s' = s.move i r (framePhase r left hint s.keys) s.keys) ∨
    (∃ i r left base ct now, s.callers i = some ⟨r, .framed left base ct⟩ ∧
      e = invocation i now path r base ct s.keys ∧
      s' = s.move i r (nextPhase r left (attempt now path r.data r.opts base ct s.keys).2)
        (attempt now path r.data r.opts base ct s.keys).1) := by
  rcases h with ⟨a, ha⟩
  cases a with
  | start i r =>
    dsimp only [exec] at ha
    split at ha
    · cases ha
      exact .inl ⟨i, r, rfl, rfl⟩
    · cases ha
  | frame i =>
    dsimp only [exec] at ha
    split at ha
    · rename_i r left hint hi
      cases ha
      exact .inr (.inl ⟨i, r, left, hint, hi, rfl, rfl⟩)
    · cases ha
  | invoke i now =>
    dsimp only [exec] at ha
    split at ha
    · rename_i r left base ct hi
      cases ha
      exact .inr (.inr ⟨i, r, left, base, ct, now, hi, rfl, rfl⟩)
    · cases ha

section Alone

variable {s : Appends ι} {i : ι} {r : Request} {hint : Option Offset}

end Alone

end Appends

end System

variable {k k' : StreamKeys} {a : AppendArgs}

section Script

variable {m : MetaHash} {now : ℤ} {reply : Reply}

def Reply.committed (r : Reply) : Bool := r.status = .ok && r.producerResult ≠ [50]

/-- The frames, the producers and what is known of the stream are as before. -/
structure Unwritten (k k' : StreamKeys) : Prop where
  msg : k'.msg = k.msg
  prod : k'.prod = k.prod
  tail : k'.info .tail = k.info .tail
  ct : k'.info .ct = k.info .ct

theorem Unwritten.refl (k : StreamKeys) : Unwritten k k := ⟨rfl, rfl, rfl, rfl⟩

theorem Unwritten.of_hset
    (h : k' = k ∨ ∃ f v, (f = .softDel ∨ f = .accessedAtNs) ∧ k' = k.hset f v) :
    Unwritten k k' := by
  rcases h with rfl | ⟨f, v, rfl | rfl, rfl⟩
  · exact .refl _
  · exact ⟨rfl, rfl, by simp, by simp⟩
  · exact ⟨rfl, rfl, by simp, by simp⟩

theorem admitProducer_committed (h : admitProducer m k a = some (some reply)) :
    reply.committed = false := by
  unfold admitProducer at h
  split at h
  · cases h
  · rcases Option.map_eq_some_iff.mp h with ⟨outcome, -, houtcome⟩
    cases outcome <;> cases houtcome <;> rfl

/-- What the script does below the write fence: it refuses, or it commits a request that was
framed against the tail and for the type of the stream. -/
theorem appendOpen_cases (h : appendOpen m a now k = some (k', reply)) :
    (k' = k ∧ reply.committed = false) ∨
    (k' = commit m a now k ∧ reply.committed = true ∧ m .tail = some a.expectedTail ∧
      a.valOnly = false ∧ (a.reqCT = [] ∨ normCt (m .ct) = a.reqCT)) := by
  unfold appendOpen at h
  split at h
  · split at h <;> cases h <;> exact .inl ⟨rfl, rfl⟩
  split at h
  · cases h
    exact .inl ⟨rfl, rfl⟩
  rename_i hct
  split at h
  · cases h
  · rename_i r hadmit
    cases h
    exact .inl ⟨rfl, admitProducer_committed hadmit⟩
  split at h
  · cases h
    exact .inl ⟨rfl, rfl⟩
  split at h
  · cases h
    exact .inl ⟨rfl, rfl⟩
  rename_i hval
  split at h
  · cases h
    exact .inl ⟨rfl, rfl⟩
  rename_i htail
  cases h
  refine .inr ⟨rfl, ?_, not_not.mp htail, by simpa using hval, ?_⟩
  · cases a.hasProducer <;> rfl
  · rw [not_and, not_not] at hct
    exact or_iff_not_imp_left.mpr hct

theorem metaMap_present (h : metaMap k = some m) :
    k.info = m ∧ k.info .tail ≠ none := by
  unfold metaMap at h
  split at h
  · cases h
  · cases h
    exact ⟨rfl, by assumption⟩

theorem metaMap_absent (h : metaMap k = none) : k.info .tail = none := by
  unfold metaMap at h
  split at h
  · assumption
  · cases h

/-- What a run of the script comes to: it refuses, it cleans up an expired stream, or it goes on
below the write fence. -/
theorem appendScript_inv (h : appendScript a k = some (k', reply)) :
    ∃ now, tonumber a.nowNs = some now ∧ ((k' = k ∧ reply.status ≠ .ok) ∨
      k.info .tail ≠ none ∧
        ((isExpired k.info now = some true ∧ expireCleanup k.info k = some k' ∧
          reply.status = .notFound) ∨
        ∃ gen holder, fenceRung k.info k a.fence now a.hasProducer a.producerId a.pEpoch =
            some (.none, gen, holder) ∧
          appendOpen k.info a now (k.hset .accessedAtNs (Decimal.formatInt now)) =
            some (k', reply))) := by
  unfold appendScript at h
  split at h
  · cases h
  rename_i now hnow
  refine ⟨now, hnow, ?_⟩
  split at h
  · cases h; exact .inl ⟨rfl, nofun⟩
  rename_i m hm
  rcases metaMap_present hm with ⟨rfl, hpresent⟩
  split at h
  · cases h; exact .inl ⟨rfl, nofun⟩
  split at h
  · cases h
  · rename_i hexp
    rcases Option.map_eq_some_iff.mp h with ⟨k₁, hclean, heq⟩
    cases heq
    exact .inr ⟨hpresent, .inl ⟨hexp, hclean, rfl⟩⟩
  split at h
  · cases h
  rename_i reason gen holder hrung
  split at h
  · cases h; exact .inl ⟨rfl, nofun⟩
  · rename_i hnone
    rw [not_not.mp hnone] at hrung
    exact .inr ⟨hpresent, .inr ⟨gen, holder, hrung, h⟩⟩

/-- What a run of the script does to the keys: it sets one field at most, it removes an expired
stream, or it commits. -/
theorem appendScript_keys (h : appendScript a k = some (k', reply)) :
    ((k' = k ∨ ∃ f v, (f = .softDel ∨ f = .accessedAtNs) ∧ k' = k.hset f v) ∧
      reply.committed = false) ∨
    (k' = k.del ∧ reply.committed = false ∧ reply.status = .notFound) ∨
    (∃ v now, k' = commit k.info a now (k.hset .accessedAtNs v) ∧ reply.committed = true ∧
      k.info .tail = some a.expectedTail ∧ a.valOnly = false ∧
      (a.reqCT = [] ∨ normCt (k.info .ct) = a.reqCT)) := by
  rcases appendScript_inv h with ⟨now, -, ⟨rfl, hs⟩ | ⟨-, ⟨-, hclean, hs⟩ | ⟨_, _, -, hopen⟩⟩⟩
  · exact .inl ⟨.inl rfl, by simp [Reply.committed, hs]⟩
  · have hreply : reply.committed = false := by simp [Reply.committed, hs]
    rcases Option.map_eq_some_iff.mp hclean with ⟨refs, -, hk⟩
    split at hk
    · exact .inl ⟨.inr ⟨.softDel, one, .inl rfl, hk.symm⟩, hreply⟩
    · exact .inr (.inl ⟨hk.symm, hreply, hs⟩)
  · rcases appendOpen_cases hopen with ⟨rfl, hreply⟩ | ⟨hk, hreply⟩
    · exact .inl ⟨.inr ⟨.accessedAtNs, _, .inr rfl, rfl⟩, hreply⟩
    · exact .inr (.inr ⟨_, _, hk, hreply⟩)

end Script

variable {base : Offset} {ds : List Bytes} {path : Path} {ct : Bytes}

section Commit

variable {now : Time} {data : Bytes} {opts : AppendOptions} {f : MetaField}

theorem hsetAll_info_of_ne {l : List (MetaField × Bytes)} (h : ∀ fv ∈ l, fv.1 ≠ f) :
    (k.hsetAll l).info f = k.info f := by
  induction l generalizing k with
  | nil => rfl
  | cons fv l ih =>
    rw [hsetAll_cons, ih fun fv' hfv => h fv' (List.mem_cons_of_mem _ hfv), hset_info,
      if_neg (h fv List.mem_cons_self).symm]

def MetaField.committed : MetaField → Bool
  | .lastSeq | .closed | .cbId | .cbEpoch | .cbSeq | .wfLastOff | .wfbind _ => true
  | _ => false

theorem commitFields_committed (m : MetaHash) (a : AppendArgs) :
    ∀ fv ∈ seqFields a ++ closeFields a ++ fenceBind m a.fence a.producerId a.newTail,
      fv.1.committed = true := by
  unfold seqFields closeFields fenceBind
  intro fv hfv
  simp only [List.mem_append] at hfv
  rcases hfv with (hfv | hfv) | hfv
  · split at hfv
    · cases List.mem_singleton.mp hfv
      rfl
    · cases hfv
  · split at hfv
    · split at hfv
      · simp only [List.mem_cons, List.not_mem_nil, or_false] at hfv
        rcases hfv with rfl | rfl | rfl | rfl <;> rfl
      · cases List.mem_singleton.mp hfv
        rfl
    · cases hfv
  · split at hfv
    · split at hfv
      · simp only [List.mem_cons, List.not_mem_nil, or_false] at hfv
        rcases hfv with rfl | rfl <;> rfl
      · cases hfv
    · cases hfv

theorem hsetAll_commitFields (hf : f.committed = false) (m : MetaHash)
    (a : AppendArgs) (k : StreamKeys) :
    (k.hsetAll (seqFields a ++ closeFields a ++
      fenceBind m a.fence a.producerId a.newTail)).info f = k.info f := by
  refine hsetAll_info_of_ne ?_
  rintro fv hfv rfl
  rw [commitFields_committed m a fv hfv] at hf
  cases hf

/-- A commit keeps every field but the tail and those that it may set. -/
theorem commit_info_of_not_committed (hf : f.committed = false) (htail : f ≠ .tail)
    (m : MetaHash) (a : AppendArgs) (now : Time) (k : StreamKeys) :
    (commit m a now k).info f = k.info f := by
  unfold commit
  split <;> split <;> refine (hsetAll_commitFields hf m a _).trans ?_ <;> simp [htail]

theorem commit_fences (m : MetaHash) (a : AppendArgs) (now : Time) (k : StreamKeys) :
    (commit m a now k).fences = k.fences := by
  unfold commit
  split <;> split <;> exact (hsetAll_keys _ _).2.2.2

/-- A commit writes the frames, moves the tail if there are any, and keeps the content type. -/
theorem commit_written (m : MetaHash) (a : AppendArgs) (now : Time) (k : StreamKeys) :
    (commit m a now k).msg = zaddAll a.frames k.msg ∧
    (commit m a now k).info .tail = (if a.frames = [] then k.info .tail else some a.newTail) ∧
    (commit m a now k).info .ct = k.info .ct := by
  have htail := hsetAll_commitFields (f := .tail) rfl m a
  have hmsg := fun k : StreamKeys => (hsetAll_keys k
    (seqFields a ++ closeFields a ++ fenceBind m a.fence a.producerId a.newTail)).1
  refine ⟨?_, ?_, commit_info_of_not_committed rfl (by decide) m a now k⟩ <;> unfold commit <;>
    dsimp only <;> by_cases hframes : a.frames = []
  · rw [if_neg (not_not.mpr hframes), hframes]
    split <;> exact hmsg k
  · rw [if_pos hframes]
    split <;> exact hmsg _
  · rw [if_neg (not_not.mpr hframes), if_pos hframes]
    split <;> exact htail k
  · rw [if_pos hframes, if_neg hframes]
    split <;> exact (htail _).trans (by simp)

/-- The messages of a body; none if it is empty or does not parse. -/
def bodyOf (ct data : Bytes) : List Bytes :=
  if data = [] then [] else
    match splitBody ct data false with
    | .ok ds => ds
    | .error _ => []

theorem bodyOf_ne_nil : ∀ d ∈ bodyOf ct data, d ≠ [] := by
  unfold bodyOf
  split
  · simp
  · rename_i hdata
    split
    · rename_i hsplit
      exact splitBody_ne_nil hsplit hdata
    · simp

/-- The frames of an attempt that is not for validation only. -/
theorem attemptArgs_frames (h : (attemptArgs now path data opts base ct).1.valOnly = false) :
    (attemptArgs now path data opts base ct).1.frames =
      (layOut base (bodyOf ct data)).map frame ∧
    (attemptArgs now path data opts base ct).1.newTail =
      (endOffset base (bodyOf ct data)).string := by
  unfold attemptArgs buildFrames bodyOf at *
  by_cases hdata : data = []
  · simp [hdata]
  · cases hsplit : splitBody ct data false with
    | ok ds => simp [hdata, Except.map]
    | error e => simp [hdata, hsplit, Except.map] at h

theorem bodyOf_normCt {stored : Option Bytes} (hreq : requestCT opts ≠ [])
    (h : normCt stored = requestCT opts) :
    bodyOf opts.contentType data = bodyOf (stored.getD []) data := by
  have hct : opts.contentType ≠ [] := by
    rintro hct
    exact hreq (by simp [requestCT, hct])
  have hlower : requestCT opts = Bytes.toLower (extractMediaType opts.contentType) := by
    simp [requestCT, normalizeCT, orOctetStream, hct]
  have hjson : isJSONContentType opts.contentType = isJSONContentType (stored.getD []) := by
    unfold isJSONContentType
    rw [← hlower, ← h]
    unfold normCt
    rcases stored with _ | c
    · decide
    · by_cases hc : c = []
      · subst hc
        decide
      · simp only [hc, if_false]
        rfl
  rw [bodyOf, bodyOf, splitBody, splitBody, hjson]

end Commit

section Tiling

open scoped List

variable {ds' : List Bytes}

/-- The stored frames are bodies laid out end to end from an offset, up to the stored tail. -/
structure Tiled (base : Offset) (ds : List Bytes) (k : StreamKeys) : Prop where
  nonempty : ∀ d ∈ ds, d ≠ []
  tail : k.info .tail = some (endOffset base ds).string
  msg : k.msg ~ (layOut base ds).map frame
  sorted : SortedSet.Sorted k.msg

theorem Tiled.of_unwritten (h : Tiled base ds k) (hk : Unwritten k k') : Tiled base ds k' where
  nonempty := h.nonempty
  tail := hk.tail.trans h.tail
  msg := hk.msg ▸ h.msg
  sorted := hk.msg ▸ h.sorted

theorem Tiled.append (h : Tiled base ds k) (hds' : ∀ d ∈ ds', d ≠ [])
    (hmsg : k'.msg = zaddAll ((layOut (endOffset base ds) ds').map frame) k.msg)
    (htail : k'.info .tail = some (endOffset (endOffset base ds) ds').string) :
    Tiled base (ds ++ ds') k' where
  nonempty := by simpa [or_imp, forall_and] using ⟨h.nonempty, hds'⟩
  tail := by rw [htail, endOffset_append]
  msg := by
    have hsorted : (layOut base (ds ++ ds')).Pairwise (·.offset < ·.offset) :=
      layOut_sorted (by simpa [or_imp, forall_and] using ⟨h.nonempty, hds'⟩)
    rw [layOut_append] at hsorted ⊢
    rw [hmsg]
    exact zaddAll_perm h.msg (hsorted.imp fun hlt heq => hlt.ne (congrArg Message.offset heq))
  sorted := by
    rw [hmsg]
    exact h.sorted.insertAll _

theorem Tiled.msg_eq (h : Tiled base ds k) (hsmall : (endOffset base ds).Small) :
    k.msg = (layOut base ds).map frame := by
  refine h.sorted.eq_of_perm (sorted_frames ?_ (layOut_sorted h.nonempty)) h.msg
  intro m hm
  have hseq : m.offset.readSeq = (endOffset base ds).readSeq := by
    rw [layOut_readSeq hm, endOffset_readSeq]
  have hle := Offset.le_def.mp (layOut_le hm)
  exact hsmall.of_le (by omega) hseq

end Tiling

variable {ds₀ : List Bytes}

section Invariant

variable {s s' : Appends ι} {e : AppendEvent ι} {h : List (AppendEvent ι)} {r : Request}

def AppendEvent.batch (ct : Bytes) : AppendEvent ι → Option (List Bytes)
  | .invoke _ r (some reply) => if reply.committed then some (bodyOf ct r.data) else none
  | _ => none

/-- Whether an invocation answered that there is no stream, as it does when it removes one. -/
def AppendEvent.absent : AppendEvent ι → Bool
  | .invoke _ _ (some reply) => reply.status = .notFound
  | _ => false

def batches (ct : Bytes) (h : List (AppendEvent ι)) : List (List Bytes) :=
  h.filterMap (AppendEvent.batch ct)

@[simp] theorem batches_snoc (ct : Bytes) (h : List (AppendEvent ι)) (e : AppendEvent ι) :
    batches ct (h ++ [e]) = batches ct h ++ (e.batch ct).toList := by
  rw [batches, List.filterMap_append, batches]
  cases he : e.batch ct <;> simp [he]

/-- What callers know of the content type, where it matters: frames are encoded for the type
that the request names or else for that of the stream. -/
def Phase.Sound (ct : Bytes) (r : Request) : Phase → Prop
  | .framing _ hint => hint.isSome → requestCT r.opts ≠ []
  | .framed _ _ ct' => ct' = if requestCT r.opts = [] then ct else r.opts.contentType
  | .done .. => True

/-- The state after a history: the frames of the committed requests, unless the stream has been
found expired and removed. -/
structure Serialized (base : Offset) (ds₀ : List Bytes) (ct : Bytes) (h : List (AppendEvent ι))
    (s : Appends ι) : Prop where
  keys : (Tiled base (ds₀ ++ (batches ct h).flatten) s.keys ∧ (s.keys.info .ct).getD [] = ct) ∨
    (s.keys = s.keys.del ∧ ∃ e ∈ h, e.absent)
  callers : ∀ i c, s.callers i = some c → c.phase.Sound ct c.request

theorem startPhase_sound (ct : Bytes) (r : Request) : (startPhase r).Sound ct r := by
  unfold startPhase
  split
  · trivial
  · intro hsome
    unfold firstHint at hsome
    split at hsome
    · assumption
    · cases hsome

theorem readTailAndContentType_ct {tc : Offset × Bytes}
    (h : readTailAndContentType k = .ok tc) : tc.2 = (k.info .ct).getD [] := by
  unfold readTailAndContentType at h
  dsimp only at h
  split at h
  · cases h
  · split at h
    · cases h
    · cases h
      rfl

theorem framePhase_sound {left : ℕ} {hint : Option Offset}
    (hphase : (Phase.framing left hint).Sound ct r)
    (hk : (k.info .ct).getD [] = ct ∨ k = k.del) : (framePhase r left hint k).Sound ct r := by
  unfold framePhase
  cases left with
  | zero => trivial
  | succ left =>
    cases hint with
    | some base =>
      have hreq := hphase rfl
      simp [frameAgainst, Phase.Sound, hreq]
    | none =>
      rcases hk with rfl | hk
      · dsimp only [frameAgainst]
        cases hread : readTailAndContentType k with
        | error e => trivial
        | ok tc =>
          have hct := readTailAndContentType_ct hread
          simp [Except.map, Phase.Sound, hct]
      · rw [hk]
        trivial

theorem nextPhase_sound (ct : Bytes) (r : Request) (left : ℕ) (outcome : Attempt) :
    (nextPhase r left outcome).Sound ct r := by
  cases outcome with
  | done result err => trivial
  | retry tail =>
    unfold nextPhase nextHint
    dsimp only
    split
    · trivial
    · rename_i hint heq
      intro hsome
      split at heq
      · assumption
      · cases heq
        cases hsome

theorem attempt_cases (ct : Bytes) (i : ι) (now : Time) (path : Path) (r : Request)
    (tail : Offset) (ct' : Bytes) (k : StreamKeys) :
    let k' := (attempt now path r.data r.opts tail ct' k).1
    let e := invocation i now path r tail ct' k
    (Unwritten k k' ∧ e.batch ct = none) ∨ (k' = k.del ∧ e.batch ct = none ∧ e.absent) ∨
    (e.batch ct = some (bodyOf ct r.data) ∧ k.info .tail = some tail.string ∧
      (requestCT r.opts = [] ∨ normCt (k.info .ct) = requestCT r.opts) ∧
      k'.msg = zaddAll ((layOut tail (bodyOf ct' r.data)).map frame) k.msg ∧
      k'.info .tail = some (endOffset tail (bodyOf ct' r.data)).string ∧
      k'.info .ct = k.info .ct) := by
  dsimp only [attempt, invocation]
  cases hscript : appendScript (attemptArgs now path r.data r.opts tail ct').1 k with
  | none => exact .inl ⟨.refl k, rfl⟩
  | some kr =>
    rcases kr with ⟨k', reply⟩
    dsimp only [Option.map_some, AppendEvent.batch, AppendEvent.absent]
    rcases appendScript_keys hscript with
      ⟨hk, hreply⟩ | ⟨hk, hreply, hstatus⟩ | ⟨v, now, rfl, hreply, htail, hval, hct⟩
    · exact .inl ⟨.of_hset hk, by simp [hreply]⟩
    · exact .inr (.inl ⟨hk, by simp [hreply], by simp [hstatus]⟩)
    · rw [attemptArgs_expectedTail] at htail
      rw [attemptArgs_reqCT] at hct
      rcases attemptArgs_frames hval with ⟨hframes, hnew⟩
      rcases commit_written k.info (attemptArgs _ path r.data r.opts tail ct').1 now
        (k.hset .accessedAtNs v) with ⟨hmsg, htail', hct'⟩
      refine .inr (.inr ⟨by simp [hreply], htail, hct, ?_, ?_, ?_⟩)
      · rw [hmsg, hframes]
        rfl
      · rw [htail', hframes, hnew]
        cases hbody : bodyOf ct' r.data with
        | nil => simpa [layOut] using htail
        | cons d ds => simp [layOut]
      · rw [hct', hset_info, if_neg (by simp)]

theorem attempt_absent (now : Time) (path : Path) (r : Request) (tail : Offset)
    (ct : Bytes) (h : k.info .tail = none) :
    (attempt now path r.data r.opts tail ct k).1 = k := by
  have hmeta : metaMap k = none := if_pos h
  dsimp only [attempt]
  split
  · rfl
  · rename_i k' reply hscript
    unfold appendScript at hscript
    rw [hmeta] at hscript
    split at hscript
    · cases hscript
    · cases hscript
      rfl

theorem Serialized.invoke (hs : Serialized base ds₀ ct h s) (i : ι) {tail : Offset}
    {ct' : Bytes} (now : Time) (path : Path)
    (hct' : ct' = if requestCT r.opts = [] then ct else r.opts.contentType) :
    let k' := (attempt now path r.data r.opts tail ct' s.keys).1
    let e := invocation i now path r tail ct' s.keys
    (Tiled base (ds₀ ++ (batches ct (h ++ [e])).flatten) k' ∧ (k'.info .ct).getD [] = ct) ∨
      (k' = k'.del ∧ ∃ e' ∈ h ++ [e], e'.absent) := by
  have hcases := attempt_cases ct i now path r tail ct' s.keys
  have hgone := attempt_absent (k := s.keys) now path r tail ct'
  dsimp only at hcases ⊢
  generalize (attempt now path r.data r.opts tail ct' s.keys).1 = k' at *
  generalize invocation i now path r tail ct' s.keys = e at *
  rw [batches_snoc, List.flatten_append]
  rcases hs.keys with ⟨htiled, hct⟩ | ⟨hdel, e', he', habsent⟩
  · rcases hcases with ⟨hk, hbatch⟩ | ⟨hk, hbatch, habsent⟩ | ⟨hbatch, htail, hreq, hmsg, hnew, hkct⟩
    · refine .inl ⟨?_, by rw [hk.ct, hct]⟩
      simpa [hbatch] using htiled.of_unwritten hk
    · exact .inr ⟨by rw [hk]; rfl, e, by simp, habsent⟩
    · left
      have hbase : tail = endOffset base (ds₀ ++ (batches ct h).flatten) := by
        apply Offset.string_injective
        rw [htiled.tail, Option.some.injEq] at htail
        exact htail.symm
      have hbody : bodyOf ct' r.data = bodyOf ct r.data := by
        rw [hct']
        split
        · rfl
        · rename_i hne
          rw [bodyOf_normCt hne (hreq.resolve_left hne), hct]
      rw [hbody, hbase] at hmsg hnew
      refine ⟨?_, by rw [hkct, hct]⟩
      simpa [hbatch, List.append_assoc] using htiled.append bodyOf_ne_nil hmsg hnew
  · right
    have hk : k' = s.keys := hgone (by rw [hdel]; rfl)
    rw [hk]
    exact ⟨hdel, e', by simp [he'], habsent⟩

variable [DecidableEq ι]

theorem callers_move {i : ι} {phase : Phase}
    (hs : ∀ i c, s.callers i = some c → c.phase.Sound ct c.request) (hphase : phase.Sound ct r)
    (j : ι) (c : Caller) (hc : (s.move i r phase k).callers j = some c) :
    c.phase.Sound ct c.request := by
  dsimp only [Appends.move] at hc
  rw [Function.update_apply] at hc
  split at hc
  · cases hc
    exact hphase
  · exact hs j c hc

theorem Serialized.step (hs : Serialized base ds₀ ct h s) (hstep : s.Step path e s') :
    Serialized base ds₀ ct (h ++ [e]) s' := by
  have hkept : e.batch ct = none → s'.keys = s.keys →
      (Tiled base (ds₀ ++ (batches ct (h ++ [e])).flatten) s'.keys ∧
        (s'.keys.info .ct).getD [] = ct) ∨ (s'.keys = s'.keys.del ∧ ∃ e' ∈ h ++ [e], e'.absent) := by
    intro hbatch hk
    rw [hk, batches_snoc, hbatch]
    rcases hs.keys with htiled | ⟨hdel, e', he', habsent⟩
    · exact .inl (by simpa using htiled)
    · exact .inr ⟨hdel, e', by simp [he'], habsent⟩
  rcases Appends.step_cases hstep with ⟨i, r, rfl, rfl⟩ | ⟨i, r, left, hint, hi, rfl, rfl⟩ |
    ⟨i, r, left, tail, ct', now, hi, rfl, rfl⟩
  · exact ⟨hkept rfl rfl, callers_move hs.callers (startPhase_sound ct r)⟩
  · refine ⟨hkept rfl rfl, callers_move hs.callers (framePhase_sound (hs.callers i _ hi) ?_)⟩
    exact hs.keys.imp And.right And.left
  · exact ⟨hs.invoke i now path (hs.callers i _ hi),
      callers_move hs.callers (nextPhase_sound ct r left _)⟩

theorem unwritten_step (hstep : s.Step path e s') (hbatch : e.batch ct = none) :
    Unwritten s.keys s'.keys ∨ s'.keys = s.keys.del ∧ e.absent := by
  rcases Appends.step_cases hstep with ⟨i, r, rfl, rfl⟩ | ⟨i, r, left, hint, hi, rfl, rfl⟩ |
    ⟨i, r, left, tail, ct', now, hi, rfl, rfl⟩
  · exact .inl (.refl _)
  · exact .inl (.refl _)
  · rcases attempt_cases ct i now path r tail ct' s.keys with
      ⟨hk, -⟩ | ⟨hk, -, habsent⟩ | ⟨hsome, -⟩
    · exact .inl hk
    · exact .inr ⟨hk, habsent⟩
    · exact absurd (hbatch.symm.trans hsome) (by simp)

end Invariant

section Serial

open scoped List

variable [DecidableEq ι] {s : Appends ι} {h : List (AppendEvent ι)} {k₀ : StreamKeys}

/-- The keys hold what bodies leave when they are added to the stream one after the other: each
body whole, end to end, with the tail behind the last one. -/
structure Serial (base : Offset) (batches : List (List Bytes)) (k : StreamKeys) : Prop where
  tail : k.info .tail = some (serial base batches).2.string
  members : k.msg ~ (serial base batches).1.map frame
  nodup : k.msg.Nodup
  ordered : (serial base batches).2.Small → k.msg = (serial base batches).1.map frame
  tiles : Tiles base (serial base batches).2 (serial base batches).1

theorem Tiled.serial {batches : List (List Bytes)} {k : StreamKeys}
    (h : Tiled base batches.flatten k) : Serial base batches k := by
  have hnodup : k.msg.Nodup := by
    refine h.sorted.imp ?_
    rintro a _ hlt rfl
    exact List.lt_irrefl a hlt
  have hserial := serial_eq base batches
  refine ⟨?_, ?_, hnodup, ?_, ?_⟩ <;> rw [hserial]
  · exact h.tail
  · exact h.msg
  · exact h.msg_eq
  · exact tiles_layOut h.nonempty

/-- In every interleaving of appends the stored frames are the serial application of the committed
requests in the order of their commits, until the stream is found expired and removed, and an
invocation that commits nothing writes no frame, no producer and no tail. -/
theorem appends_serial (hinit : Tiled base ds₀ k₀)
    (hrun : Trace.Run (Appends.Step path) ⟨k₀, fun _ => none⟩ h s) :
    let ct := (k₀.info .ct).getD []
    (Serial base (ds₀ :: batches ct h) s.keys ∨
      (s.keys = s.keys.del ∧ ∃ e ∈ h, e.absent)) ∧
    ∀ e s', s.Step path e s' → e.batch ct = none →
      (s'.keys.msg = s.keys.msg ∧ s'.keys.prod = s.keys.prod ∧
        s'.keys.info .tail = s.keys.info .tail) ∨ s'.keys = s.keys.del ∧ e.absent := by
  intro ct
  have hserialized : Serialized base ds₀ ct h s := by
    refine hrun.induct ⟨.inl ⟨by simpa [batches] using hinit, rfl⟩, ?_⟩ ?_
    · intro i c hc
      cases hc
    · intro h s e s' _ hs hstep
      exact hs.step hstep
  constructor
  · rcases hserialized.keys with ⟨htiled, -⟩ | hremoved
    · exact .inl (Tiled.serial (by simpa using htiled))
    · exact .inr hremoved
  · intro e s' hstep hbatch
    rcases unwritten_step hstep hbatch with hk | hremoved
    · exact .inl ⟨hk.msg, hk.prod, hk.tail⟩
    · exact .inr hremoved

def shortStream : StreamKeys where
  info
    | .ct => some octetStream
    | .tail => some (Offset.string ⟨0, 3⟩)
    | .accessedAtNs => some (Decimal.formatInt 0)
    | _ => none
  msg := [frame ⟨[1, 2, 3], ⟨0, 3⟩⟩]

def hintedRequest (data : Bytes) : Request where
  data := data
  opts := { contentType := octetStream, tailHint := some ⟨0, 3⟩ }

def racingAppends : List (AppendAction Bool) :=
  [.start true (hintedRequest [7]), .start false (hintedRequest [8, 9]), .frame true, .frame false,
    .invoke true 1, .invoke false 2, .frame false, .invoke false 3]

theorem racingAppends_run :
    (Trace.execAll (Appends.exec [97]) ⟨shortStream, fun _ => none⟩ racingAppends).isSome := by
  decide

def raced : List (AppendEvent Bool) × Appends Bool := Trace.executed _ _ _ racingAppends_run

theorem appends_serial_race :
    Trace.Run (Appends.Step [97]) ⟨shortStream, fun _ => none⟩ raced.1 raced.2 ∧
      batches octetStream raced.1 = [[[7]], [[8, 9]]] ∧
      Serial zeroOffset [[[1, 2, 3]], [[7]], [[8, 9]]] raced.2.keys := by
  have hinit : Tiled zeroOffset [[1, 2, 3]] shortStream :=
    ⟨by simp, rfl, .refl _, List.pairwise_singleton _ _⟩
  have hrun : Trace.Run (Appends.Step [97]) ⟨shortStream, fun _ => none⟩ raced.1 raced.2 :=
    Trace.executed_run (fun _ a _ _ hea => ⟨a, hea⟩) racingAppends_run
  have hbatches : batches octetStream raced.1 = [[[7]], [[8, 9]]] := by decide
  have hserial := (appends_serial hinit hrun).1.resolve_right ?_
  · refine ⟨hrun, hbatches, ?_⟩
    rw [← hbatches]
    exact hserial
  · rintro ⟨-, e, he, habsent⟩
    have hnone : ∀ e ∈ raced.1, e.absent = false := by decide
    simp [hnone e he] at habsent

end Serial

end Chronicle.Redis
