import Chronicle.Redis.Forking
import Chronicle.Redis.Segments
import Chronicle.Redis.Serialization

/-! # A fork and the incarnation of its source

The creation of a fork reads the metadata of its source, takes a reference on
the source, and creates the stream. In between, other clients delete, create and
append to the source. The script that takes the reference checks that there is a
stream, but not that it is the one whose metadata was read.
-/

namespace Chronicle.Redis.ForkRace

open Forking (Creation)

section Model

/-- The keys of the source and of the fork, and the incarnations that were drawn so far. -/
structure World where
  source : StreamKeys
  fork : StreamKeys
  issued : Finset Bytes

inductive Instr where
  | fetchMeta
  | incrRef (source md : StreamMetadata) (pfx : Bytes)
  | create (source md : StreamMetadata) (frames : List Bytes)
  /-- The reference is released because the fork does not come about. -/
  | rollback
  /-- Another client creates the source, as a stream or as a fork of its own source. -/
  | recreate (opts : CreateOptions) (inherited : Option (StreamMetadata × Offset)) (pfx : Bytes)
  | delete
  | append (data : Bytes) (opts : AppendOptions) (base : Offset) (ct : Bytes)
  /-- Another client takes a reference for another fork. -/
  | takeRef (fork : Path)
  | dropRef (fork : Path)

/-- The clock, the comparison of content types, the messages that the read for a sub-offset
returns, and the incarnation that is drawn. -/
structure Choice where
  nowNs : Time := 0
  sameType : Bool := true
  messages : List Message := []
  incarnation : Bytes := []

inductive Observation where
  | ran
  | fetched (source : StreamMetadata)
  | created (source md : StreamMetadata)

def forkPoint (ch : Choice) (opts : CreateOptions) (source : StreamMetadata) :
    Except StoreError (Offset × Bytes) :=
  match checkSource ch.sameType ch.nowNs opts source with
  | .error e => .error e
  | .ok forkOffset =>
    match opts.forkSubOffset with
    | none => .ok (forkOffset, [])
    | some 0 => .ok (forkOffset, [])
    | some n =>
      -- the chain is read up to the tail that was fetched
      subOffsetPoint source forkOffset n
        (ch.messages.filter fun m => m.offset.lessThanOrEqual source.currentOffset)

def incrNext (c : Creation) (source md : StreamMetadata) (pfx : Bytes) : IncrReply → List Instr
  | .ok _ =>
    match initialFrames md pfx c.opts.initialData with
    | .error _ => [.rollback]
    | .ok (md, frames) => [.create source md frames]
  | _ => []

def recreated (path : Path) (ch : Choice) (opts : CreateOptions)
    (inherited : Option (StreamMetadata × Offset)) : StreamMetadata :=
  match inherited with
  | none => MemoryStore.plainMetadata path ch.incarnation ch.nowNs opts
  | some (grand, forkOffset) =>
    MemoryStore.forkMetadata path ch.incarnation ch.nowNs opts grand forkOffset

/-- Run one instruction, where a creation of the fork is given. -/
def exec (c : Creation) (w : World) (i : Instr) (ch : Choice) :
    Option (World × List Instr × Observation) :=
  match i with
  | .fetchMeta =>
    match metaFromFields c.opts.forkedFrom w.source.info with
    | .ok (some source) =>
      match forkPoint ch c.opts source with
      | .error _ => some (w, [], .ran)
      | .ok (forkOffset, pfx) =>
        let md := MemoryStore.forkMetadata c.path c.incarnation c.createdAt c.opts source forkOffset
        some (w, [.incrRef source md pfx], .fetched source)
    | _ => some (w, [], .ran)
  | .incrRef source md pfx =>
    (incrRefScript ch.nowNs c.path w.source).map fun (k, r) =>
      ({ w with source := k }, incrNext c source md pfx r, .ran)
  | .create source md frames =>
    (createScript (createArgs ch.nowNs md c.opts frames) w.fork).map fun (k, r) =>
      ({ w with fork := k },
        if r = .created then [] else [.rollback],
        if r = .created then .created source md else .ran)
  | .rollback =>
    (decrRefScript c.path w.source).map fun (k, _) => ({ w with source := k }, [], .ran)
  | .recreate opts inherited pfx =>
    -- an incarnation is drawn once
    if ch.incarnation = [] ∨ ch.incarnation ∈ w.issued then none
    else
      match initialFrames (recreated c.opts.forkedFrom ch opts inherited) pfx opts.initialData with
      | .error _ => some (w, [], .ran)
      | .ok (md, frames) =>
        (createScript (createArgs ch.nowNs md opts frames) w.source).map fun (k, _) =>
          ({ w with source := k, issued := insert ch.incarnation w.issued }, [], .ran)
  | .delete => (deleteScript w.source).map fun (k, _) => ({ w with source := k }, [], .ran)
  | .append data opts base ct =>
    (appendScript (attemptArgs ch.nowNs c.opts.forkedFrom data opts base ct).1 w.source).map
      fun (k, _) => ({ w with source := k }, [], .ran)
  | .takeRef fork =>
    (incrRefScript ch.nowNs fork w.source).map fun (k, r) =>
      ({ w with source := k }, match r with | .ok _ => [.dropRef fork] | _ => [], .ran)
  | .dropRef fork =>
    (decrRefScript fork w.source).map fun (k, _) => ({ w with source := k }, [], .ran)

def starts (p : List Instr) : Bool :=
  match p with
  | [.recreate ..] | [.delete] | [.append ..] | [.takeRef _] => true
  | _ => false

/-- The reference is taken on the incarnation whose metadata was read, and appends keep offsets
in their format. -/
def settled (w : World) (i : Instr) (_ : Choice) : Bool :=
  match i with
  | .incrRef source _ _ => decodeIncarnation w.source.info = source.incarnation
  | .append data _ base ct => (endOffset base (bodyOf ct data)).Small
  | _ => true

end Model

section Scripts

variable {k k' : StreamKeys} {now : ℤ} {f : Path}

/-- A stream goes on: it has the same incarnation, and its tail only moves up. -/
structure Kept (k k' : StreamKeys) : Prop where
  absent : k.info .tail = none → k'.info .tail = none ∧ refCountOf k'.info = refCountOf k.info
  incarnation : decodeIncarnation k'.info = decodeIncarnation k.info
  grows : ∀ t : Offset, k.info .tail = some t.string →
    ∃ t', k'.info .tail = some t'.string ∧ t ≤ t' ∧ ∀ o ≤ t, o.Small → SameBelow k k' o

theorem Kept.refl (k : StreamKeys) : Kept k k :=
  ⟨fun h => ⟨h, rfl⟩, rfl, fun t h => ⟨t, h, le_rfl, fun _ _ _ => rfl⟩⟩

theorem Kept.of_fields (hpresent : k.info .tail ≠ none) (htail : k'.info .tail = k.info .tail)
    (hinc : k'.info .incarnation = k.info .incarnation)
    (hcreated : k'.info .createdAtNs = k.info .createdAtNs) (hmsg : k'.msg = k.msg) :
    Kept k k' where
  absent h := absurd h hpresent
  incarnation := by rw [decodeIncarnation, decodeIncarnation, hinc, hcreated]
  grows t h := ⟨t, htail.trans h, le_rfl, fun o _ _ => by rw [SameBelow, hmsg]⟩

/-- What a script does to the source, where the count of references changes by a number: the stream
goes on, or it goes or is replaced when nobody holds a reference. -/
inductive Moved (issued issued' : Finset Bytes) (d : ℤ) (k k' : StreamKeys) : Prop
  | kept (h : Kept k k')
      (refs : ∀ n, refCountOf k.info = some n → refCountOf k'.info = some (n + d))
  | gone (h : k' = k.del) (refs : ∀ n, refCountOf k.info = some n → n + d ≤ 0)
  | fresh (md : StreamMetadata) (h : k'.info = metaToFields md) (hrefs : md.refCount = 0)
      (hne : md.incarnation ≠ []) (hnew : md.incarnation ∉ issued) (hin : md.incarnation ∈ issued')
      (refs : ∀ n, refCountOf k.info = some n → n + d ≤ 0)

variable {issued issued' : Finset Bytes}

theorem Moved.refl (k : StreamKeys) : Moved issued issued' 0 k k :=
  .kept (.refl k) fun n h => by rw [h, add_zero]

theorem Moved.hset {g : MetaField} (v : Bytes) (hpresent : k.info .tail ≠ none)
    (hg : g = .softDel ∨ g = .accessedAtNs) : Moved issued issued' 0 k (k.hset g v) := by
  refine .kept (.of_fields hpresent ?_ ?_ ?_ rfl) fun n h => ?_
  · rcases hg with rfl | rfl <;> simp
  · rcases hg with rfl | rfl <;> simp
  · rcases hg with rfl | rfl <;> simp
  · rw [refCountOf_congr (m := k.info) (by rcases hg with rfl | rfl <;> simp), h, add_zero]

theorem expireCleanup_moved (hpresent : k.info .tail ≠ none)
    (hk : expireCleanup k.info k = some k') : Moved issued issued' 0 k k' := by
  rcases Option.map_eq_some_iff.mp hk with ⟨n, hn, heq⟩
  split at heq
  · subst heq
    exact .hset one hpresent (.inl rfl)
  · rename_i hle
    refine .gone heq.symm fun n' hn' => ?_
    rw [hn, Option.some.injEq] at hn'
    omega

theorem deleteScript_moved {r : DeleteReply} (hk : deleteScript k = some (k', r)) :
    Moved issued issued' 0 k k' := by
  unfold deleteScript at hk
  split at hk
  · cases hk; exact .refl k
  rename_i m hm
  rcases metaMap_present hm with ⟨rfl, hpresent⟩
  split at hk
  · cases hk; exact .refl k
  rcases Option.map_eq_some_iff.mp hk with ⟨n, hn, heq⟩
  split at heq
  · cases heq
    exact .hset one hpresent (.inl rfl)
  · rename_i hle
    cases heq
    refine .gone rfl fun n' hn' => ?_
    rw [hn, Option.some.injEq] at hn'
    omega

theorem createScript_moved {a : CreateArgs} {md : StreamMetadata} {r : CreateReply}
    (habsent : k.info .tail = none → refCountOf k.info = some 0)
    (ha : a.fields = metaToFields md) (hrefs : md.refCount = 0) (hne : md.incarnation ≠ [])
    (hnew : md.incarnation ∉ issued) (hin : md.incarnation ∈ issued')
    (hk : createScript a k = some (k', r)) :
    Moved issued issued' 0 k k' := by
  unfold createScript at hk
  split at hk
  · rename_i hnone
    cases hk
    refine .fresh md ha hrefs hne hnew hin fun n hn => ?_
    rw [habsent (metaMap_absent hnone), Option.some.injEq] at hn
    omega
  rename_i m hm
  rcases metaMap_present hm with ⟨rfl, hpresent⟩
  split at hk
  · cases hk
  · rcases Option.map_eq_some_iff.mp hk with ⟨n, hn, heq⟩
    split at heq
    · cases heq
      exact .hset one hpresent (.inl rfl)
    · rename_i hle
      cases heq
      refine .fresh md ha hrefs hne hnew hin fun n' hn' => ?_
      rw [hn, Option.some.injEq] at hn'
      omega
  · split at hk
    · cases hk; exact .refl k
    split at hk
    · cases hk; exact .refl k
    · cases hk; exact .refl k

theorem createScript_created {a : CreateArgs} (hk : createScript a k = some (k', .created)) :
    k'.info = a.fields := by
  unfold createScript at hk
  split at hk
  · cases hk; rfl
  split at hk
  · cases hk
  · rcases Option.map_eq_some_iff.mp hk with ⟨n, -, heq⟩
    split at heq <;> cases heq
    rfl
  · split at hk
    · cases hk
    split at hk <;> cases hk

/-- A reference that is taken counts. -/
theorem incrRefScript_moved {r : IncrReply} (issued issued' : Finset Bytes)
    (hk : incrRefScript now f k = some (k', r)) :
    match r with
    | .ok _ => Moved issued issued' 1 k k' ∧ Kept k k' ∧ k.info .tail ≠ none
    | _ => Moved issued issued' 0 k k' := by
  unfold incrRefScript at hk
  split at hk
  · cases hk; exact .refl k
  rename_i m hm
  rcases metaMap_present hm with ⟨rfl, hpresent⟩
  split at hk
  · cases hk; exact .refl k
  split at hk
  · cases hk
  · rcases Option.map_eq_some_iff.mp hk with ⟨k₁, hclean, heq⟩
    cases heq
    exact expireCleanup_moved hpresent hclean
  · rcases Option.map_eq_some_iff.mp hk with ⟨n, hn, heq⟩
    cases heq
    have hkept : Kept k { k.hset .refCount (Decimal.formatInt (n + 1)) with
        forks := insert f k.forks } :=
      .of_fields hpresent (by simp) (by simp) (by simp) rfl
    refine ⟨.kept hkept fun n' hn' => ?_, hkept, hpresent⟩
    rw [hn, Option.some.injEq] at hn'
    simp [refCountOf, hn']

/-- A reference is released that somebody holds. -/
theorem decrRefScript_moved {r : DecrReply} {n : ℤ}
    (habsent : k.info .tail = none → refCountOf k.info = some 0)
    (hn : refCountOf k.info = some n) (hpos : 1 ≤ n) (hk : decrRefScript f k = some (k', r)) :
    Moved issued issued' (-1) k k' := by
  unfold decrRefScript at hk
  split at hk
  · rename_i hnone
    rw [habsent (metaMap_absent hnone), Option.some.injEq] at hn
    omega
  rename_i m hm
  rcases metaMap_present hm with ⟨rfl, hpresent⟩
  rw [hn, Option.map_some, Option.some.injEq] at hk
  split at hk
  · omega
  split at hk
  · rename_i hlast
    cases hk
    refine .gone rfl fun n' hn' => ?_
    rw [hn, Option.some.injEq] at hn'
    omega
  · cases hk
    refine .kept (.of_fields hpresent (by simp) (by simp) (by simp) rfl) fun n' hn' => ?_
    rw [hn, Option.some.injEq] at hn'
    simp [refCountOf, hn', sub_eq_add_neg]

variable {path : Path} {data ct : Bytes} {opts : AppendOptions} {base : Offset}

theorem commit_kept {a : AppendArgs} (hpresent : k.info .tail = some base.string)
    (hframes : a.frames = (layOut base (bodyOf ct data)).map frame)
    (htail : a.newTail = (endOffset base (bodyOf ct data)).string)
    (hsmall : (endOffset base (bodyOf ct data)).Small) (m : MetaHash) :
    Kept k (commit m a now k) := by
  have hwritten := commit_written m a now k
  refine ⟨fun hnone => absurd (hpresent.symm.trans hnone) nofun, ?_, fun t ht => ?_⟩
  · rw [decodeIncarnation, decodeIncarnation,
      commit_info_of_not_committed rfl (by decide), commit_info_of_not_committed rfl (by decide)]
  · rw [hpresent, Option.some.injEq] at ht
    cases Offset.string_injective ht
    refine ⟨endOffset base (bodyOf ct data), ?_, le_endOffset _ _, fun o ho hos => ?_⟩
    · rw [hwritten.2.1, htail]
      split
      · rename_i hnil
        rw [hframes, List.map_eq_nil_iff] at hnil
        rw [hpresent]
        cases hb : bodyOf ct data with
        | nil => rfl
        | cons d ds => rw [hb, layOut] at hnil; cases hnil
      · rfl
    · refine sameBelow_zaddAll hos (fun m hm => ?_)
        (fun m hm => ho.trans_lt (base_lt_layOut bodyOf_ne_nil hm)) (hframes ▸ hwritten.1)
      have hseq : m.offset.readSeq = (endOffset base (bodyOf ct data)).readSeq := by
        rw [layOut_readSeq hm, endOffset_readSeq]
      have hle := layOut_le hm
      rw [Offset.le_def] at hle
      exact hsmall.of_le (by omega) hseq

theorem appendScript_moved {r : Reply} (hsmall : (endOffset base (bodyOf ct data)).Small)
    (hk : appendScript (attemptArgs now path data opts base ct).1 k = some (k', r)) :
    Moved issued issued' 0 k k' := by
  rcases appendScript_inv hk with
    ⟨now', -, ⟨rfl, -⟩ | ⟨hpresent, ⟨-, hclean, -⟩ | ⟨_, _, -, hopen⟩⟩⟩
  · exact .refl _
  · exact expireCleanup_moved hpresent hclean
  rcases appendOpen_cases hopen with ⟨rfl, -⟩ | ⟨rfl, -, htail, hval, -⟩
  · exact .hset _ hpresent (.inr rfl)
  · rcases attemptArgs_frames hval with ⟨hframes, hnew⟩
    rw [attemptArgs_expectedTail] at htail
    have hkept : Kept (k.hset .accessedAtNs (Decimal.formatInt now'))
        (commit k.info _ now' (k.hset .accessedAtNs (Decimal.formatInt now'))) :=
      commit_kept (by simpa using htail) hframes hnew hsmall k.info
    refine .kept ⟨fun hnone => absurd hnone hpresent, ?_, fun t ht => ?_⟩ fun n hn => ?_
    · rw [hkept.incarnation]
      simp [decodeIncarnation]
    · exact hkept.grows t (by simpa using ht)
    · rw [refCountOf_congr (commit_info_of_not_committed rfl (by decide) _ _ _ _), add_zero, ← hn]
      exact refCountOf_congr (by simp)

end Scripts

end Chronicle.Redis.ForkRace
