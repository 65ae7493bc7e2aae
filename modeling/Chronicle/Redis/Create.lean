import Chronicle.Redis.ForkChain
import Chronicle.Redis.ForkScripts

/-! # Creation and deletion in Redis

The client creates a stream in several steps: it reads what is there, checks and
references the source of a fork, and runs the creation script, which has to find
the path free again. A deletion runs its script and then releases the references
up the source chain. When nothing runs in between, both refine the memory store,
except for a creation over an expired stream that still has forks.
-/

namespace Chronicle.Redis

open Binary64 (doubles)
open MemoryStore (plainMetadata forkMetadata materialize withInitialData setRefCount)

section Client

/-- Release the reference of a child, and of every source that goes with its last reference. The
first argument bounds the number of scripts. -/
def releaseRef : ℕ → Path → Path → Db → Option (Db × Option StoreError)
  | 0, _, _, _ => none
  | n + 1, parent, child, db =>
    if parent = [] then some (db, none)
    else
      match decrRefScript child (db parent) with
      | none => some (db, some .scriptError)
      | some (k, reply) =>
        let db := Function.update db parent k
        match reply with
        | .gone => some (db, none)
        | .ok _ => some (db, none)
        | .underflow => some (db, some .refCountUnderflow)
        | .cascade grand => releaseRef n grand parent db

def delete (n : ℕ) (path : Path) (db : Db) : Option (Db × Option StoreError) :=
  match deleteScript (db path) with
  | none => some (db, some .scriptError)
  | some (k, reply) =>
    let db := Function.update db path k
    match reply with
    | .notFound => some (db, some .streamNotFound)
    | .softDel => some (db, some .streamSoftDeleted)
    | .softDeleted => some (db, none)
    | .deleted parent => if parent = [] then some (db, none) else releaseRef n parent path db

def resolveForkSubOffset (db : Db) (now : Time) (n : ℕ) (path : Path) (source : StreamMetadata)
    (forkOffset : Offset) (subOffset : ℕ) : Option (Except StoreError (Offset × Bytes)) :=
  (readForkChain db now n path source forkOffset).map
    (·.bind (subOffsetPoint source forkOffset subOffset))

/-- Where a fork diverges from its source, with the bytes it materializes. -/
def resolveFork (db : Db) (now : Time) (n : ℕ) (path : Path) (source : StreamMetadata)
    (forkOffset : Offset) : Option ℕ → Option (Except StoreError (Offset × Bytes))
  | none => some (.ok (forkOffset, []))
  | some 0 => some (.ok (forkOffset, []))
  | some subOffset => resolveForkSubOffset db now n path source forkOffset subOffset

def rollbackRef (n : ℕ) (path : Path) (opts : CreateOptions) (db : Db) : Option Db :=
  if opts.forkedFrom = [] then some db
  else (releaseRef n opts.forkedFrom path db).map Prod.fst

def decodeMatched (path : Path) (info : MetaHash) : CreateResult :=
  match metaFromFields path info with
  | .error e => .error e
  | .ok none => .error .malformedReply
  | .ok (some md) => .ok (md, false)

variable [Arithmetic]

def finishCreate (env : Env) (path : Path) (opts : CreateOptions) (md : StreamMetadata)
    (pfx : Bytes) (db : Db) : Option (Db × CreateResult) :=
  match initialFrames md pfx opts.initialData with
  | .error e => (rollbackRef env.fuel path opts db).map (·, .error e)
  | .ok (md, frames) =>
    match createScript (createArgs (unixNano (env.clock 4)) md opts frames) (db path) with
    | none => (rollbackRef env.fuel path opts db).map (·, .error .scriptError)
    | some (k, reply) =>
      let db := Function.update db path k
      match reply with
      | .created => some (db, .ok (md, true))
      | .exists => (rollbackRef env.fuel path opts db).map (·, .error .streamExists)
      | .mismatch => (rollbackRef env.fuel path opts db).map (·, .error .configMismatch)
      | .matched => (rollbackRef env.fuel path opts db).map (·, decodeMatched path k.info)

def referenceSource (env : Env) (path : Path) (opts : CreateOptions) (md : StreamMetadata)
    (pfx : Bytes) (db : Db) : Option (Db × CreateResult) :=
  match incrRefScript (unixNano (env.clock 3)) path (db opts.forkedFrom) with
  | none => some (db, .error .scriptError)
  | some (k, reply) =>
    let db := Function.update db opts.forkedFrom k
    match reply with
    | .notFound => some (db, .error .streamNotFound)
    | .softDel => some (db, .error .streamSoftDeleted)
    | .ok _ => finishCreate env path opts md pfx db

def createFork (env : Env) (path : Path) (opts : CreateOptions) (incarnation : Bytes) (db : Db) :
    Option (Db × CreateResult) :=
  match fetchMeta db opts.forkedFrom with
  | .error e => some (db, .error e)
  | .ok none => some (db, .error .streamNotFound)
  | .ok (some source) =>
    match checkSource (env.equalFold opts.contentType source.contentType) (env.clock 2) opts source
    with
    | .error e => some (db, .error e)
    | .ok requested =>
      match resolveFork db (env.clock 2) env.fuel opts.forkedFrom source requested
        opts.forkSubOffset with
      | none => none
      | some (.error e) => some (db, .error e)
      | some (.ok (forkOffset, pfx)) =>
        referenceSource env path opts
          (forkMetadata path incarnation (env.clock 1) opts source forkOffset) pfx db

def createAbsent (env : Env) (path : Path) (opts : CreateOptions) (db : Db) :
    Option (Db × CreateResult) :=
  match env.incarnation with
  | none => some (db, .error .incarnationUnavailable)
  | some incarnation =>
    if opts.forkedFrom ≠ [] then createFork env path opts incarnation db
    else finishCreate env path opts (plainMetadata path incarnation (env.clock 1) opts) [] db

/-- Create a stream. The producers of a stream that is there already are left out of the answer. -/
def create (env : Env) (path : Path) (opts : CreateOptions) (db : Db) :
    Option (Db × CreateResult) :=
  match fetchMeta db path with
  | .error e => some (db, .error e)
  | .ok none => createAbsent env path opts db
  | .ok (some existing) =>
    if existing.isExpiredAt (env.clock 0) then createAbsent env path opts db
    else if existing.softDeleted then some (db, .error .streamExists)
    else if existing.configMatches opts then some (db, .ok (existing, false))
    else some (db, .error .configMismatch)

end Client

variable {s : Streams} {db : Db} {now : Time} {p path : Path} {st : MemoryStream} {k : StreamKeys}

section States

/-- The keys under a path hold the stream of the memory store, or nothing where it has none. -/
inductive Stores : Option MemoryStream → StreamKeys → Prop
  | absent {k : StreamKeys} (hk : k = k.del) : Stores none k
  | present {st : MemoryStream} {k : StreamKeys} (h : Stored st k) : Stores (some st) k

def SameStreams (s : Streams) (db : Db) : Prop := ∀ p, Stores (s.lookup p) (db p)

theorem Stores.stored (h : Stores (some st) k) : Stored st k := by
  cases h with
  | present h => exact h

theorem Stores.del (h : Stores none k) : k = k.del := by
  cases h with
  | absent hk => exact hk

theorem SameStreams.stored (h : SameStreams s db) (hp : s.lookup p = some st) :
    Stored st (db p) := (hp ▸ h p).stored

theorem SameStreams.insert (h : ∀ q, q ≠ p → Stores (s.lookup q) (db q)) (hst : Stored st k) :
    SameStreams (s.insert p st) (Function.update db p k) := by
  intro q
  by_cases hq : q = p
  · subst hq
    rw [Finmap.lookup_insert, Function.update_self]
    exact .present hst
  · rw [Finmap.lookup_insert_of_ne _ hq, Function.update_of_ne hq]
    exact h q hq

theorem SameStreams.erase (h : SameStreams s db) (hk : k = k.del) :
    SameStreams (s.erase p) (Function.update db p k) := by
  intro q
  by_cases hq : q = p
  · subst hq
    rw [Finmap.lookup_erase, Function.update_self]
    exact .absent hk
  · rw [Finmap.lookup_erase_ne hq, Function.update_of_ne hq]
    exact h q

theorem metaMap_none (h : Stores none k) : metaMap k = none := by
  rw [metaMap, h.del]
  rfl

theorem fetchMeta_absent (h : Stores none (db p)) : fetchMeta db p = .ok none := by
  rw [fetchMeta, h.del]
  rfl

theorem fetchMeta_stored (h : Stored st (db p)) :
    fetchMeta db p = .ok (some (readBack p st.metadata)) :=
  metaFromFields_mirrors h.mirrors.hash h.fits p

end States

section References

theorem Stored.recount (h : Stored st k) {rc : Int32} {n : ℤ} (hn : rc.toInt = n)
    (forks : Finset Path) :
    Stored (setRefCount st rc) { k.hset .refCount (Decimal.formatInt n) with forks := forks } where
  mirrors := by
    subst hn
    constructor
    · intro f hf
      have hinfo := h.mirrors.info f hf
      rw [hset_info, if_neg hf, hinfo]
      cases f <;> first | rfl | exact absurd rfl hf
    · rw [refCountOf, hset_info, if_pos rfl, Option.getD_some, tonumber_formatInt]
      rfl
    · exact h.mirrors.msg
    · exact h.mirrors.prod
    · exact h.mirrors.laid
    · exact h.mirrors.small
    · exact h.mirrors.incarnation
    · exact h.mirrors.producers
    · exact h.mirrors.seals
    · exact h.mirrors.bound
  fits := { h.fits with }
  sizes := h.sizes

theorem pred_of_zero {n : Int32} (h : n.toInt = 0) : n - 1 < 0 := by
  rw [show n = 0 from Int32.toInt_inj.mp h]
  decide

theorem pred_of_pos {n : Int32} (h : 0 < n.toInt) :
    ¬ n - 1 < 0 ∧ (n - 1 = 0 ↔ n.toInt - 1 = 0) := by
  have hpred := toInt_pred h
  rw [Int32.lt_iff_toInt_lt, ← Int32.toInt_inj, hpred, Int32.toInt_zero]
  omega

theorem decrRefScript_stored (h : Stored st k) (hrc : 0 ≤ st.metadata.refCount.toInt)
    (fork : Path) :
    ∃ k' reply, decrRefScript fork k = some (k', reply) ∧
      ((st.metadata.refCount - 1 < 0 ∧ reply = .underflow) ∨
      (¬ st.metadata.refCount - 1 < 0 ∧
        (st.metadata.refCount - 1 = 0 ∧ st.metadata.softDeleted = true) ∧
        reply = .cascade st.metadata.forkedFrom ∧ k' = k'.del) ∨
      (¬ st.metadata.refCount - 1 < 0 ∧
        ¬ (st.metadata.refCount - 1 = 0 ∧ st.metadata.softDeleted = true) ∧
        (∃ n, reply = .ok n) ∧ Stored (setRefCount st (st.metadata.refCount - 1)) k')) := by
  rw [decrRefScript, h.mirrors.shows.metaMap]
  dsimp only
  rw [h.mirrors.refs, Option.map_some, forkedFrom_mirrors h.mirrors.hash]
  rcases hrc.eq_or_lt with hzero | hpos
  · refine ⟨_, _, by rw [if_pos (by omega)], .inl ⟨pred_of_zero hzero.symm, rfl⟩⟩
  rcases pred_of_pos hpos with ⟨hneg, hone⟩
  have hlast : (st.metadata.refCount.toInt - 1 = 0 ∧ k.info .softDel = some one) ↔
      (st.metadata.refCount - 1 = 0 ∧ st.metadata.softDeleted = true) := by
    rw [hone, h.mirrors.shows.softDel]
  by_cases hgone : st.metadata.refCount - 1 = 0 ∧ st.metadata.softDeleted = true
  · refine ⟨_, _, by rw [if_neg (by omega), if_pos (hlast.mpr hgone)], .inr (.inl ?_)⟩
    exact ⟨hneg, hgone, rfl, rfl⟩
  · refine ⟨_, _, by rw [if_neg (by omega), if_neg (hlast.not.mpr hgone)], .inr (.inr ?_)⟩
    exact ⟨hneg, hgone, ⟨_, rfl⟩, h.recount (toInt_pred hpos) _⟩

def Counted (s : Streams) : Prop :=
  ∀ p st, s.lookup p = some st → 0 ≤ st.metadata.refCount.toInt

theorem Counted.erase (h : Counted s) (p : Path) : Counted (s.erase p) := fun q st hq =>
  h q st (lookup_of_lookup_erase hq).2

theorem mem_keys_of_lookup (hp : s.lookup p = some st) : p ∈ s.keys :=
  Finmap.mem_keys.mpr (Finmap.mem_of_lookup_eq_some hp)

theorem erase_insert (s : Streams) (st : MemoryStream) (p : Path) :
    (s.insert p st).erase p = s.erase p := by
  refine Finmap.ext_lookup fun q => ?_
  by_cases hq : q = p
  · subst hq
    rw [Finmap.lookup_erase, Finmap.lookup_erase]
  · rw [Finmap.lookup_erase_ne hq, Finmap.lookup_erase_ne hq, Finmap.lookup_insert_of_ne _ hq]

theorem releaseRef_cascade (hp : s.lookup path = some st) (hsame : SameStreams (s.erase path) db)
    (hcount : Counted (s.erase path)) {n m : ℕ} (hn : s.keys.card ≤ n) (hm : s.keys.card ≤ m) :
    ∃ db', releaseRef m st.metadata.forkedFrom path db =
        some (db', (MemoryStore.cascade n s path).2) ∧
      ((MemoryStore.cascade n s path).2 = none →
        SameStreams (MemoryStore.cascade n s path).1 db') := by
  have hpos : 0 < s.keys.card := Finset.card_pos.mpr ⟨path, mem_keys_of_lookup hp⟩
  induction n generalizing s path st db m with
  | zero => omega
  | succ n ih =>
    rcases m with _ | m
    · omega
    unfold MemoryStore.cascade releaseRef
    rw [hp]
    dsimp only
    by_cases hroot : st.metadata.forkedFrom = []
    · rw [if_pos hroot, if_pos hroot]
      exact ⟨db, rfl, fun _ => hsame⟩
    rw [if_neg hroot, if_neg hroot]
    cases hf : (s.erase path).lookup st.metadata.forkedFrom with
    | none =>
      have hk : Stores none (db st.metadata.forkedFrom) := hf ▸ hsame _
      have hgone : decrRefScript path (db st.metadata.forkedFrom) =
          some (db st.metadata.forkedFrom, .gone) := by
        rw [decrRefScript, metaMap_none hk]
      rw [hgone]
      dsimp only
      rw [Function.update_eq_self]
      exact ⟨db, rfl, fun _ => hsame⟩
    | some parent =>
      have hparent := hsame.stored hf
      rcases decrRefScript_stored hparent (hcount _ _ hf) path with
        ⟨k, reply, hreply, ⟨hneg, rfl⟩ | ⟨hneg, hlast, rfl, hk⟩ | ⟨hneg, hlast, ⟨refs, rfl⟩, hk⟩⟩
      · rw [hreply]
        dsimp only
        rw [if_pos hneg]
        exact ⟨_, rfl, by simp⟩
      · -- the source goes as well, and its own reference is released next
        rw [hreply]
        dsimp only
        rw [if_neg hneg, if_pos hlast]
        have hcard := card_release hp hf (setRefCount parent (parent.metadata.refCount - 1))
        have hlookup : ((s.erase path).insert st.metadata.forkedFrom
            (setRefCount parent (parent.metadata.refCount - 1))).lookup st.metadata.forkedFrom =
            some (setRefCount parent (parent.metadata.refCount - 1)) := Finmap.lookup_insert _
        refine ih hlookup ?_ ?_ (by omega) (by omega)
          (Finset.card_pos.mpr ⟨_, mem_keys_of_lookup hlookup⟩)
        · rw [erase_insert]
          exact hsame.erase hk
        · rw [erase_insert]
          exact hcount.erase _
      · rw [hreply]
        dsimp only
        rw [if_neg hneg, if_neg hlast]
        exact ⟨_, rfl, fun _ => SameStreams.insert (fun q _ => hsame q) hk⟩

end References

section Delete

theorem Stored.softDelete (h : Stored st k) :
    Stored { st with metadata := { st.metadata with softDeleted := true } }
      (k.hset .softDel one) where
  mirrors := h.mirrors.softDelete
  fits := { h.fits with }
  sizes := h.sizes

theorem releaseRef_nil {n : ℕ} (hn : 0 < n) (child : Path) (db : Db) :
    releaseRef n [] child db = some (db, none) := by
  rcases n with _ | n
  · omega
  · rfl

theorem delete_refines {s : MemoryStore} (hsame : SameStreams s.streams db)
    (hcount : Counted s.streams) (path : Path) {n : ℕ} (hn : s.streams.keys.card ≤ n) :
    ∃ db', delete n path db = some (db', (s.delete path).2) ∧
      ((s.delete path).2 = none → SameStreams (s.delete path).1.streams db') := by
  unfold delete MemoryStore.delete deleteScript
  cases hp : s.streams.lookup path with
  | none =>
    have hk : Stores none (db path) := hp ▸ hsame path
    rw [metaMap_none hk]
    exact ⟨_, rfl, nofun⟩
  | some st =>
    have hst := hsame.stored hp
    rw [hst.mirrors.shows.metaMap]
    dsimp only
    by_cases hsoft : st.metadata.softDeleted = true
    · rw [if_pos (hst.mirrors.shows.softDel.mpr hsoft), if_pos hsoft]
      exact ⟨_, rfl, nofun⟩
    rw [if_neg (hst.mirrors.shows.softDel.not.mpr hsoft), if_neg hsoft, hst.mirrors.refs,
      Option.map_some, forkedFrom_mirrors hst.mirrors.hash]
    have hiff : 0 < st.metadata.refCount ↔ 0 < st.metadata.refCount.toInt := by
      rw [Int32.lt_iff_toInt_lt, Int32.toInt_zero]
    by_cases hrefs : 0 < st.metadata.refCount
    · rw [if_pos hrefs, if_pos (hiff.mp hrefs)]
      exact ⟨_, rfl, fun _ => SameStreams.insert (fun q _ => hsame q) hst.softDelete⟩
    · rw [if_neg hrefs, if_neg (hiff.not.mp hrefs)]
      dsimp only
      have hgone : SameStreams (s.streams.erase path) (Function.update db path (db path).del) :=
        hsame.erase rfl
      rcases releaseRef_cascade hp hgone (hcount.erase path) le_rfl hn with ⟨db', hrel, hleft⟩
      refine ⟨db', ?_, hleft⟩
      by_cases hroot : st.metadata.forkedFrom = []
      · have hpos : 0 < s.streams.keys.card := Finset.card_pos.mpr ⟨path, mem_keys_of_lookup hp⟩
        rw [if_pos hroot]
        rw [hroot, releaseRef_nil (by omega)] at hrel
        exact hrel
      · rw [if_neg hroot]
        exact hrel

end Delete

variable {md : StreamMetadata} {pfx : Bytes} {opts : CreateOptions} {env : Env}

section Fresh

variable {data : Bytes}

/-- A stream whose values are in the ranges of their encodings. -/
structure Storable (st : MemoryStream) : Prop where
  fits : MetadataFits st.metadata
  sizes : ∀ m ∈ st.messages, m.size < 2 ^ 29
  incarnation : st.metadata.incarnation ≠ []

theorem initialFrames_eq (md : StreamMetadata) (pfx data : Bytes) :
    initialFrames md pfx data =
      (withInitialData (materialize md pfx) data).map fun st =>
        (st.metadata, st.messages.map frame) := by
  unfold initialFrames withInitialData MemoryStream.appendToStream buildFrames materialize
  by_cases hpfx : pfx = [] <;> by_cases hdata : data = [] <;>
    simp only [hpfx, hdata, if_true, if_false] <;>
    cases splitBody md.contentType data true <;> rfl

structure Blank (md : StreamMetadata) : Prop where
  base : md.currentOffset = md.forkOffset
  readSeq : md.forkOffset.readSeq = 0
  refCount : md.refCount = 0
  producers : md.producers = fun _ => none
  sealedOffset : md.sealedOffset = none

theorem freshKeys_stored (hst : withInitialData (materialize md pfx) data = .ok st)
    (hblank : Blank md) (hfits : Storable st) (now : Time) (opts : CreateOptions)
    (k : StreamKeys) :
    Stored st (freshKeys (createArgs now st.metadata opts (st.messages.map frame)) k) := by
  rcases MemoryStore.materialize_fresh hblank.base hblank.refCount hblank.producers hst with
    ⟨ds, hfresh⟩
  have hlaid : st.Laid := hfresh.laid hblank.readSeq
  have hrest : st.seals = (fun _ => none) ∧ st.bound = (fun _ => 0) ∧ st.lastFencedOff = none ∧
      st.metadata.sealedOffset = none := by
    rcases MemoryStore.withInitialData_ok hst with ⟨_, -, rfl⟩
    unfold materialize
    split <;> exact ⟨rfl, rfl, rfl, hblank.sealedOffset⟩
  rcases hrest with ⟨hseals, hbound, hlast, hsealed⟩
  have hkeys := mirrors_keysOf hlaid hfits.fits.currentOffset hfits.incarnation
    (fun pid => by rw [hfresh.producers]) (fun authority => by rw [hseals])
    (fun pid => by rw [hbound])
  have hinfo := metaToFields_eq hfits.fits hseals hbound hlast hsealed
  have hmsg : zaddAll (st.messages.map frame) [] = st.messages.map frame :=
    zaddAll_frames (l := []) (fun m hm => Laid.small hlaid hfits.fits.currentOffset hm)
      hlaid.sorted
  refine ⟨⟨fun f hf => ?_, ?_, hmsg, fun pid => ?_, hkeys.laid, hkeys.small, hkeys.incarnation,
    hkeys.producers, hkeys.seals, hkeys.bound⟩, hfits.fits, hfits.sizes⟩
  · exact congrFun hinfo f
  · exact (congrArg refCountOf hinfo).trans hkeys.refs
  · rw [hfresh.producers]
    rfl

variable [Arithmetic]

def Vacant (now : Time) (k : StreamKeys) : Prop :=
  ∀ a : CreateArgs, a.nowNs = now → createScript a k = some (freshKeys a k, .created)

theorem vacant_absent (h : Stores none k) (now : Time) : Vacant now k := by
  intro a _
  rw [createScript, metaMap_none h]

theorem createScript_stored (h : Stored st k) (a : CreateArgs) :
    createScript a k =
      if lapsedAt st.metadata a.nowNs then
        some (if 0 < st.metadata.refCount.toInt then (k.hset .softDel one, .exists)
          else (freshKeys a k, .created))
      else if k.info .softDel = some one then some (k, .exists)
      else if configMatches a k.info then some (k, .matched)
      else some (k, .mismatch) := by
  rw [createScript, h.mirrors.shows.metaMap]
  dsimp only
  rw [isExpired_lapsedAt h.mirrors, h.mirrors.refs]
  cases lapsedAt st.metadata a.nowNs <;> rfl

theorem vacant_expired (h : Stored st k) (hexp : lapsedAt st.metadata now = true)
    (hrefs : ¬ 0 < st.metadata.refCount.toInt) : Vacant now k := by
  rintro a rfl
  rw [createScript_stored h, if_pos hexp, if_neg hrefs]

theorem finishCreate_ok (hst : withInitialData (materialize md pfx) opts.initialData = .ok st)
    (hvacant : Vacant (unixNano (env.clock 4)) (db path)) :
    finishCreate env path opts md pfx db =
      some (Function.update db path (freshKeys (createArgs (unixNano (env.clock 4)) st.metadata opts
        (st.messages.map frame)) (db path)), .ok (st.metadata, true)) := by
  rw [finishCreate, initialFrames_eq, hst]
  change (match createScript (createArgs (unixNano (env.clock 4)) st.metadata opts
    (st.messages.map frame)) (db path) with | none => _ | some (k, reply) => _) = _
  rw [hvacant _ rfl]

theorem finishCreate_error {e : StoreError} {db' : Db}
    (hst : withInitialData (materialize md pfx) opts.initialData = .error e)
    (hroll : rollbackRef env.fuel path opts db = some db') :
    finishCreate env path opts md pfx db = some (db', .error e) := by
  rw [finishCreate, initialFrames_eq, hst]
  rw [hroll]
  rfl

theorem incrRefScript_stored (h : Stored st k) (hsoft : st.metadata.softDeleted = false)
    (hexp : lapsedAt st.metadata now = false) (hmax : st.metadata.refCount ≠ Int32.maxValue)
    (fork : Path) :
    ∃ k' refs, incrRefScript now fork k = some (k', .ok refs) ∧
      Stored (setRefCount st (st.metadata.refCount + 1)) k' := by
  rw [incrRefScript, h.mirrors.shows.metaMap]
  dsimp only
  rw [if_neg (h.mirrors.shows.softDel.not.mpr (by simp [hsoft])), isExpired_lapsedAt h.mirrors,
    hexp]
  rw [h.mirrors.refs, Option.map_some]
  exact ⟨_, _, rfl, h.recount (toInt_succ hmax) _⟩

end Fresh

section Forks

theorem resolveFork_refines (h : Chained s db) (hranked : Ranked s) (hp : s.lookup p = some st)
    (now : Time) (requested : Offset) (subOffset : Option ℕ) :
    ∃ depth res, requested.readSeq = 0 → ∀ n, depth ≤ n →
      MemoryStore.resolveFork s n st requested subOffset = some res ∧
      resolveFork db now n p (readBack p st.metadata) requested subOffset = some res := by
  rcases subOffset with _ | _ | subOffset
  · exact ⟨0, _, fun _ n _ => ⟨rfl, rfl⟩⟩
  · exact ⟨0, _, fun _ n _ => ⟨rfl, rfl⟩⟩
  by_cases hseq : requested.readSeq = 0
  · rcases readForkChain_eq h hranked hp now hseq with ⟨depth, messages, hread⟩
    refine ⟨depth, subOffsetPoint (readBack p st.metadata) requested (subOffset + 1) messages,
      fun _ n hn => ⟨?_, ?_⟩⟩
    · change Chronicle.resolveForkSubOffset s n st requested (subOffset + 1) = _
      rw [Chronicle.resolveForkSubOffset, (hread n hn).2]
      rfl
    · change resolveForkSubOffset db now n p (readBack p st.metadata) requested (subOffset + 1) = _
      rw [resolveForkSubOffset, (hread n hn).1]
      rfl
  · exact ⟨0, .error .invalidForkOffset, fun hc => absurd hc hseq⟩

theorem counted_of_isolated (h : Isolated s) : Counted s := fun p st hp =>
  (Int.natCast_nonneg _).trans (h.refs.counted p st hp)

def answer (path : Path) (r : CreateResult) : CreateResult :=
  r.map fun (md, created) => (readBack path md, created)

/-- Two creations return and answer the same, and after a success the states correspond, given
that the values of the new stream are in range. -/
def Agrees (path : Path) (m : Option (MemoryStore × CreateResult)) (r : Option (Db × CreateResult)) :
    Prop :=
  ∃ s a db b, m = some (s, a) ∧ r = some (db, b) ∧ answer path b = answer path a ∧
    ∀ md created, a = .ok (md, created) →
      (∀ st, s.streams.lookup path = some st → Storable st) → SameStreams s.streams db

theorem Agrees.refused {s : MemoryStore} {e : StoreError} {m : Option (MemoryStore × CreateResult)}
    {r : Option (Db × CreateResult)} (hm : m = some (s, .error e)) (hr : r = some (db, .error e)) :
    Agrees path m r :=
  ⟨s, .error e, db, .error e, hm, hr, rfl, fun _ _ h => by cases h⟩

theorem createFork_checks {s : MemoryStore} {source : MemoryStream}
    (hq : s.streams.lookup opts.forkedFrom = some source) (incarnation : Bytes) :
    s.createFork env path opts incarnation =
      match checkSource (env.equalFold opts.contentType source.metadata.contentType) (env.clock 1)
        opts source.metadata with
      | .error e => some (s, .error e)
      | .ok requested =>
        (MemoryStore.resolveFork s.streams env.fuel source requested opts.forkSubOffset).map fun
          | .error e => (s, .error e)
          | .ok (forkOffset, pfx) =>
            match withInitialData (materialize (forkMetadata path incarnation (env.clock 2) opts
              source.metadata forkOffset) pfx) opts.initialData with
            | .error e => ((s.addRef opts.forkedFrom 1).addRef opts.forkedFrom (-1), .error e)
            | .ok st => ((s.addRef opts.forkedFrom 1).set path st, .ok (st.metadata, true)) := by
  have hzero : ∀ o : Offset, o.lessThan zeroOffset = false := fun o =>
    Offset.lessThan_eq_false.mpr (Offset.zero_le o)
  unfold MemoryStore.createFork checkSource
  rw [hq]
  simp only [hzero, Bool.false_or]
  split_ifs <;> rfl

theorem checkSource_ok {sameType : Bool} {source : StreamMetadata} {requested : Offset}
    (h : checkSource sameType now opts source = .ok requested) :
    source.softDeleted = false ∧ source.isExpiredAt now = false ∧
      requested = opts.forkOffset.getD source.currentOffset ∧
      requested ≤ source.currentOffset := by
  unfold checkSource at h
  split at h
  · cases h
  split at h
  · cases h
  split at h
  · cases h
  dsimp only at h
  split at h
  · cases h
  · cases h
    rename_i hsoft hexp _ hrange
    exact ⟨by simpa using hsoft, by simpa using hexp, rfl, by simpa using hrange⟩

theorem rollbackRef_returns {n : ℕ} (hn : 0 < n) (h : Stored st (db opts.forkedFrom))
    (hrc : 0 ≤ st.metadata.refCount.toInt) (hsoft : st.metadata.softDeleted = false)
    (path : Path) : ∃ db', rollbackRef n path opts db = some db' := by
  rcases n with _ | n
  · omega
  rw [rollbackRef]
  split
  · exact ⟨db, rfl⟩
  rename_i hfork
  rw [releaseRef, if_neg hfork]
  rcases decrRefScript_stored h hrc path with
    ⟨k, reply, hreply, ⟨-, rfl⟩ | ⟨-, hlast, -⟩ | ⟨-, -, ⟨refs, rfl⟩, -⟩⟩
  · rw [hreply]
    exact ⟨_, rfl⟩
  · rw [hsoft] at hlast
    cases hlast.2
  · rw [hreply]
    exact ⟨_, rfl⟩

/-- The states when a creation has found no stream that stands in its way: the memory store has
none under the path, and the keys there may be those of an expired one. -/
structure Cleared [Arithmetic] (now : Time) (path : Path) (s : Streams) (db : Db) : Prop where
  absent : s.lookup path = none
  vacant : Vacant (unixNano now) (db path)
  expired : fetchMeta db path = .ok none ∨ ∃ md, fetchMeta db path = .ok (some md) ∧
    md.isExpiredAt now = true ∧ (path ≠ [] → md.softDeleted = false)
  same : ∀ q, q ≠ path → Stores (s.lookup q) (db q)
  isolated : Isolated s
  counts : ∀ p st, s.lookup p = some st → st.metadata.refCount ≠ Int32.maxValue
  sources : ∀ q st, q ≠ [] → s.lookup q = some st → st.metadata.softDeleted = false →
    st.metadata.isExpiredAt now = false → lapsedAt st.metadata (unixNano now) = false

variable [Arithmetic]

theorem Cleared.stored (h : Cleared now path s db) (hp : s.lookup p = some st) :
    Stored st (db p) := by
  have hne : p ≠ path := by
    rintro rfl
    rw [h.absent] at hp
    cases hp
  exact (hp ▸ h.same p hne).stored

theorem Cleared.chained (h : Cleared now path s db) : Chained s db :=
  ⟨fun _ _ hp => h.stored hp, h.isolated.refs.sound, h.isolated.covers⟩

theorem finishCreate_agrees {s : MemoryStore} (hblank : Blank md)
    (hclock : ∀ i, env.clock i = now) (hvacant : Vacant (unixNano now) (db path))
    (hsame : ∀ q, q ≠ path → Stores (s.streams.lookup q) (db q))
    {s' : MemoryStore} {db' : Db} (hroll : rollbackRef env.fuel path opts db = some db') :
    Agrees path
      (some (match withInitialData (materialize md pfx) opts.initialData with
        | .error e => (s', .error e)
        | .ok st => (s.set path st, .ok (st.metadata, true))))
      (finishCreate env path opts md pfx db) := by
  cases hst : withInitialData (materialize md pfx) opts.initialData with
  | error e => exact .refused rfl (finishCreate_error hst hroll)
  | ok st =>
    refine ⟨_, _, _, _, rfl, finishCreate_ok hst (hclock 4 ▸ hvacant), rfl, ?_⟩
    intro md' created _ hfits
    exact SameStreams.insert hsame
      (freshKeys_stored hst hblank (hfits st (Finmap.lookup_insert _)) _ opts _)

theorem createFork_missing {s : MemoryStore} (h : Cleared now path s.streams db)
    (hclock : ∀ i, env.clock i = now) (hfork : opts.forkedFrom ≠ [])
    (hq : s.streams.lookup opts.forkedFrom = none) (incarnation : Bytes) :
    createFork env path opts incarnation db = some (db, .error .streamNotFound) := by
  rw [createFork]
  by_cases hself : opts.forkedFrom = path
  · rw [hself]
    rcases h.expired with hnone | ⟨md, hmd, hexp, hsoft⟩
    · rw [hnone]
    · rw [hmd]
      dsimp only
      rw [checkSource, hsoft (hself ▸ hfork), hclock 2, hexp]
      rfl
  · rw [fetchMeta_absent (hq ▸ h.same _ hself)]

theorem referenceSource_agrees {s : MemoryStore} {source : MemoryStream}
    (h : Cleared now path s.streams db) (hclock : ∀ i, env.clock i = now)
    (hfuel : 0 < env.fuel) (hq : s.streams.lookup opts.forkedFrom = some source)
    (hsoft : source.metadata.softDeleted = false)
    (hlapsed : lapsedAt source.metadata (unixNano now) = false) (hblank : Blank md)
    {s' : MemoryStore} :
    Agrees path
      (some (match withInitialData (materialize md pfx) opts.initialData with
        | .error e => (s', .error e)
        | .ok st => ((s.addRef opts.forkedFrom 1).set path st, .ok (st.metadata, true))))
      (referenceSource env path opts md pfx db) := by
  have hne : opts.forkedFrom ≠ path := by
    intro heq
    rw [heq, h.absent] at hq
    cases hq
  rcases incrRefScript_stored (h.stored hq) hsoft hlapsed (h.counts _ _ hq) path with
    ⟨k, refs, hincr, hk⟩
  have hcount := counted_of_isolated h.isolated _ _ hq
  have hrc : 0 ≤ (setRefCount source (source.metadata.refCount + 1)).metadata.refCount.toInt := by
    change 0 ≤ (source.metadata.refCount + 1).toInt
    rw [toInt_succ (h.counts _ _ hq)]
    omega
  have hself : Function.update db opts.forkedFrom k opts.forkedFrom = k := Function.update_self ..
  rcases rollbackRef_returns hfuel (hself.symm ▸ hk) hrc hsoft path with ⟨db', hroll⟩
  rw [referenceSource, hclock 3, hincr]
  refine finishCreate_agrees hblank hclock ?_ ?_ hroll
  · rw [Function.update_of_ne hne.symm]
    exact h.vacant
  · intro q hqp
    have hadd : (s.addRef opts.forkedFrom 1).streams = s.streams.insert opts.forkedFrom
        (setRefCount source (source.metadata.refCount + 1)) := by
      rw [MemoryStore.addRef, hq]
      rfl
    rw [hadd]
    by_cases hqs : q = opts.forkedFrom
    · rw [hqs, Finmap.lookup_insert, Function.update_self]
      exact .present hk
    · rw [Finmap.lookup_insert_of_ne _ hqs, Function.update_of_ne hqs]
      exact h.same q hqp

theorem createFork_agrees {s : MemoryStore} (h : Cleared now path s.streams db)
    (hfork : opts.forkedFrom ≠ []) :
    ∃ depth, ∀ (env : Env) incarnation, (∀ i, env.clock i = now) → depth ≤ env.fuel →
      Agrees path (s.createFork env path opts incarnation)
        (createFork env path opts incarnation db) := by
  cases hq : s.streams.lookup opts.forkedFrom with
  | none =>
    refine ⟨0, fun env incarnation hclock _ => ?_⟩
    have hmemory : s.createFork env path opts incarnation = some (s, .error .streamNotFound) := by
      rw [MemoryStore.createFork, hq]
    exact .refused hmemory (createFork_missing h hclock hfork hq incarnation)
  | some source =>
    have hst := h.stored hq
    rcases resolveFork_refines h.chained h.isolated.ranked hq now
      (opts.forkOffset.getD source.metadata.currentOffset) opts.forkSubOffset with
      ⟨depth, res, hres⟩
    refine ⟨depth + 1, fun env incarnation hclock hfuel => ?_⟩
    rw [createFork_checks hq, createFork, fetchMeta_stored hst, hclock 1, hclock 2]
    change Agrees path _ (match checkSource
      (env.equalFold opts.contentType source.metadata.contentType) now opts source.metadata with
      | .error e => some (db, .error e)
      | .ok requested => _)
    cases hcheck : checkSource (env.equalFold opts.contentType source.metadata.contentType) now opts
      source.metadata with
    | error e => exact .refused rfl rfl
    | ok requested =>
      rcases checkSource_ok hcheck with ⟨hsoft, hexp, rfl, hle⟩
      have hseq := readSeq_of_le hle hst.mirrors.laid.tail_readSeq
      rcases hres hseq env.fuel (by omega) with ⟨hmemory, hredis⟩
      dsimp only
      rw [hmemory, hredis]
      cases res with
      | error e => exact .refused rfl rfl
      | ok resolved =>
        rcases resolved with ⟨forkOffset, pfx⟩
        have hforkOffset := resolveFork_le hst.mirrors.laid hle hmemory
        refine referenceSource_agrees h hclock (by omega) hq hsoft
          (h.sources _ _ hfork hq hsoft hexp) ?_
        exact ⟨rfl, readSeq_of_le hforkOffset hst.mirrors.laid.tail_readSeq, rfl, rfl, rfl⟩

end Forks

section Refinement

theorem isolated_erase (h : Isolated s) (hp : s.lookup p = some st) (hforks : forksOf s p = ∅) :
    Isolated (s.erase p) where
  refs := h.refs.erase hp hforks fun _ a b hab => by omega
  ranked := h.ranked.erase p
  laid := h.laid.erase p
  covers := covers_of_le h.covers fun q st' hq =>
    ⟨st', (lookup_of_lookup_erase hq).2, rfl, rfl, le_rfl⟩

theorem decodeMatched_ne (path : Path) (info : MetaHash) (md : StreamMetadata) :
    decodeMatched path info ≠ .ok (md, true) := by
  unfold decodeMatched
  split <;> simp

theorem Agrees.answers {s : MemoryStore} {a b : CreateResult}
    (h : Agrees path (some (s, a)) (some (db, b))) : answer path b = answer path a := by
  rcases h with ⟨_, _, _, _, ⟨⟩, ⟨⟩, hanswer, -⟩
  exact hanswer

theorem Agrees.created {s : MemoryStore} {md : StreamMetadata} {b : CreateResult}
    (h : Agrees path (some (s, .ok (md, true))) (some (db, b))) : ∃ md', b = .ok (md', true) := by
  have hb := h.answers
  cases b with
  | error e => cases hb
  | ok r =>
    obtain ⟨md', created⟩ := r
    cases created with
    | true => exact ⟨md', rfl⟩
    | false => simp [answer, Except.map] at hb

variable [Arithmetic]

theorem createAbsent_agrees {s : MemoryStore} (h : Cleared now path s.streams db)
    (opts : CreateOptions) :
    ∃ depth, ∀ env : Env, (∀ i, env.clock i = now) → depth ≤ env.fuel →
      Agrees path (s.createAbsent env path opts) (createAbsent env path opts db) := by
  have hunavailable (env : Env) (hinc : env.incarnation = none) :
      Agrees path (s.createAbsent env path opts) (createAbsent env path opts db) := by
    have hmemory : s.createAbsent env path opts = some (s, .error .incarnationUnavailable) := by
      rw [MemoryStore.createAbsent, hinc]
    have hredis : createAbsent env path opts db = some (db, .error .incarnationUnavailable) := by
      rw [createAbsent, hinc]
    exact .refused hmemory hredis
  by_cases hfork : opts.forkedFrom = []
  · refine ⟨0, fun env hclock _ => ?_⟩
    cases hinc : env.incarnation with
    | none => exact hunavailable env hinc
    | some incarnation =>
      have hmemory : s.createAbsent env path opts =
          some (match withInitialData
              (materialize (plainMetadata path incarnation (env.clock 2) opts) [])
              opts.initialData with
            | .error e => (s, .error e)
            | .ok st => (s.set path st, .ok (st.metadata, true))) := by
        rw [MemoryStore.createAbsent, hinc]
        dsimp only
        rw [if_neg (not_not.mpr hfork)]
        change (match withInitialData
          (materialize (plainMetadata path incarnation (env.clock 2) opts) [])
          opts.initialData with | .error e => _ | .ok st => _) = _
        cases withInitialData (materialize (plainMetadata path incarnation (env.clock 2) opts) [])
          opts.initialData <;> rfl
      have hroll : rollbackRef env.fuel path opts db = some db := if_pos hfork
      rw [hmemory, createAbsent, hinc, hclock 2]
      dsimp only
      rw [if_neg (not_not.mpr hfork), hclock 1]
      exact finishCreate_agrees ⟨rfl, rfl, rfl, rfl, rfl⟩ hclock h.vacant h.same hroll
  · rcases createFork_agrees h hfork with ⟨depth, hdepth⟩
    refine ⟨depth, fun env hclock hfuel => ?_⟩
    cases hinc : env.incarnation with
    | none => exact hunavailable env hinc
    | some incarnation =>
      rw [MemoryStore.createAbsent, createAbsent, hinc]
      dsimp only
      rw [if_pos hfork, if_pos hfork]
      exact hdepth env incarnation hclock hfuel

/-- A stream that stays when it expires: references are counted on it, or it is marked as deleted
and could be named as a source. -/
def retained (path : Path) (st : MemoryStream) : Bool :=
  0 < st.metadata.refCount.toInt || (st.metadata.softDeleted && path ≠ [])

/-- The arithmetic of the scripts decides like the client on the expiry of the streams that a
creation meets: of an expired one under the path, which is not retained, and, where the path is free,
of a possible source. -/
structure Undisputed (now : Time) (path : Path) (s : Streams) : Prop where
  target : ∀ st, s.lookup path = some st → st.metadata.isExpiredAt now = true →
    lapsedAt st.metadata (unixNano now) = true ∧ retained path st = false
  sources : (∀ st, s.lookup path = some st → st.metadata.isExpiredAt now = true) →
    ∀ q st, q ≠ [] → q ≠ path → s.lookup q = some st → st.metadata.softDeleted = false →
      st.metadata.isExpiredAt now = false → lapsedAt st.metadata (unixNano now) = false

/-- Corresponding states in which a creation under a path can be compared: the fork graph of the
memory store is sound, and no count is at its largest value. -/
structure Comparable (s : Streams) (db : Db) : Prop where
  same : SameStreams s db
  isolated : Isolated s
  counts : ∀ p st, s.lookup p = some st → st.metadata.refCount ≠ Int32.maxValue

theorem Comparable.cleared_absent (h : Comparable s db) (hp : s.lookup path = none)
    (hfree : Undisputed now path s) : Cleared now path s db where
  absent := hp
  vacant := vacant_absent (hp ▸ h.same path) _
  expired := .inl (fetchMeta_absent (hp ▸ h.same path))
  same q _ := h.same q
  isolated := h.isolated
  counts := h.counts
  sources q st hne hq := hfree.sources (by simp [hp]) q st hne (by rintro rfl; simp [hp] at hq) hq

theorem Comparable.cleared_expired (h : Comparable s db) (hp : s.lookup path = some st)
    (hexp : st.metadata.isExpiredAt now = true) (hfree : Undisputed now path s) :
    Cleared now path (s.erase path) db := by
  have hst := h.same.stored hp
  obtain ⟨hlapsed, hret⟩ := hfree.target st hp hexp
  rw [retained, Bool.or_eq_false_iff, decide_eq_false_iff_not] at hret
  have hforks := h.isolated.refs.forksOf_of_refCount counting_le hp (not_lt.mp hret.1)
  have hsoft : path ≠ [] → st.metadata.softDeleted = false := fun hne => by simpa [hne] using hret.2
  exact
    { absent := Finmap.lookup_erase _ _
      vacant := vacant_expired hst hlapsed hret.1
      expired := .inr ⟨_, fetchMeta_stored hst, hexp, hsoft⟩
      same := fun q hq => by
        rw [Finmap.lookup_erase_ne hq]
        exact h.same q
      isolated := isolated_erase h.isolated hp hforks
      counts := fun q st' hq => h.counts q st' (lookup_of_lookup_erase hq).2
      sources := fun q st' hne hq => by
        obtain ⟨hqp, hq⟩ := lookup_of_lookup_erase hq
        refine hfree.sources (fun st' hst' => ?_) q st' hne hqp hq
        rw [hp] at hst'
        cases hst'
        exact hexp }

theorem create_stored (hst : Stored st (db path)) (env : Env) (opts : CreateOptions) :
    create env path opts db =
      if st.metadata.isExpiredAt (env.clock 0) then createAbsent env path opts db
      else if st.metadata.softDeleted then some (db, .error .streamExists)
      else if st.metadata.configMatches opts then some (db, .ok (readBack path st.metadata, false))
      else some (db, .error .configMismatch) := by
  rw [create, fetchMeta_stored hst]
  rfl

theorem create_agrees {s : MemoryStore} (h : Comparable s.streams db)
    (hfree : Undisputed now path s.streams) (opts : CreateOptions) :
    ∃ depth, ∀ env : Env, (∀ i, env.clock i = now) → depth ≤ env.fuel →
      Agrees path (s.create env path opts) (create env path opts db) := by
  unfold MemoryStore.create
  cases hp : s.streams.lookup path with
  | none =>
    unfold create
    rw [fetchMeta_absent (hp ▸ h.same path)]
    exact createAbsent_agrees (h.cleared_absent hp hfree) opts
  | some st =>
    have hst := h.same.stored hp
    cases hexp : st.metadata.isExpiredAt now with
    | true =>
      rcases @createAbsent_agrees _ _ _ _ (s.remove path) (h.cleared_expired hp hexp hfree)
        opts with ⟨depth, hdepth⟩
      refine ⟨depth, fun env hclock hfuel => ?_⟩
      rw [create_stored hst, hclock 0, if_pos hexp]
      dsimp only
      rw [if_pos hexp]
      exact hdepth env hclock hfuel
    | false =>
      refine ⟨0, fun env hclock _ => ?_⟩
      rw [create_stored hst, hclock 0, hexp]
      dsimp only
      rw [if_neg (by simp [hexp])]
      by_cases hsoft : st.metadata.softDeleted = true
      · rw [if_pos hsoft, if_pos hsoft]
        exact .refused rfl rfl
      rw [if_neg hsoft, if_neg hsoft]
      by_cases hconfig : st.metadata.configMatches opts = true
      · rw [if_pos hconfig, if_pos hconfig]
        exact ⟨s, _, db, _, rfl, rfl, rfl, fun _ _ _ _ => h.same⟩
      · rw [if_neg hconfig, if_neg hconfig]
        exact .refused rfl rfl

def drawing (now : Time) (fuel : ℕ) : Env where
  clock _ := now
  wall _ := now
  incarnation := some [105]
  equalFold a b := a == b
  fuel := fuel

/-- Over an expired stream the memory store creates, and Redis does as its script answers. -/
theorem create_refused {s : MemoryStore} (hst : Stored st (db path))
    (hp : s.streams.lookup path = some st) (hexp : st.metadata.isExpiredAt now = true)
    (hscript : ∀ a : CreateArgs, a.nowNs = unixNano now →
      ∃ k r, createScript a (db path) = some (k, r) ∧ r ≠ .created) (fuel : ℕ) :
    (∃ s' md, s.create (drawing now fuel) path {} = some (s', .ok (md, true))) ∧
      ∃ db' r, create (drawing now fuel) path {} db = some (db', r) ∧
        ∀ md, r ≠ .ok (md, true) := by
  constructor
  · rw [MemoryStore.create, hp]
    dsimp only
    rw [if_pos (show st.metadata.isExpiredAt ((drawing now fuel).clock 0) = true from hexp)]
    exact ⟨_, _, rfl⟩
  · rw [create_stored hst,
      if_pos (show st.metadata.isExpiredAt ((drawing now fuel).clock 0) = true from hexp)]
    change ∃ db' r, finishCreate (drawing now fuel) path {} (plainMetadata path [105] now {}) []
      db = _ ∧ _
    have hframes : initialFrames (plainMetadata path [105] now {}) []
        ({} : CreateOptions).initialData = .ok (plainMetadata path [105] now {}, []) := rfl
    rw [finishCreate, hframes]
    dsimp only
    obtain ⟨k, r, hr, hne⟩ := hscript (createArgs (unixNano ((drawing now fuel).clock 4))
      (plainMetadata path [105] now {}) {} []) rfl
    rw [hr]
    cases r with
    | created => exact absurd rfl hne
    | matched => exact ⟨_, _, rfl, decodeMatched_ne path k.info⟩
    | «exists» => exact ⟨_, _, rfl, by simp⟩
    | mismatch => exact ⟨_, _, rfl, by simp⟩

/-- A source that has expired for the script only is not found by it. -/
theorem createFork_lapsed {s : MemoryStore} {q : Path} (path : Path) (hst : Stored st (db q))
    (hq : s.streams.lookup q = some st) (hsoft : st.metadata.softDeleted = false)
    (hexp : st.metadata.isExpiredAt now = false)
    (hlapsed : lapsedAt st.metadata (unixNano now) = true) (fuel : ℕ) :
    (∃ s' md, s.createFork (drawing now fuel) path { forkedFrom := q } [105] =
        some (s', .ok (md, true))) ∧
      ∃ db', createFork (drawing now fuel) path { forkedFrom := q } [105] db =
        some (db', .error .streamNotFound) := by
  have hcheck (same : Bool) (md : StreamMetadata) (hs : md.softDeleted = false)
      (he : md.isExpiredAt now = false) :
      checkSource same now { forkedFrom := q } md = .ok md.currentOffset := by
    rw [checkSource, hs, he]
    simp
  constructor
  · rw [createFork_checks hq]
    rw [show (drawing now fuel).clock 1 = now from rfl, hcheck _ _ hsoft hexp]
    exact ⟨_, _, rfl⟩
  · have hincr : ∃ k', incrRefScript (unixNano now) path (db q) = some (k', .notFound) := by
      rw [incrRefScript, hst.mirrors.shows.metaMap]
      dsimp only
      rw [if_neg (hst.mirrors.shows.softDel.not.mpr (by simp [hsoft])),
        isExpired_lapsedAt hst.mirrors, hlapsed, expireCleanup, hst.mirrors.refs]
      exact ⟨_, rfl⟩
    obtain ⟨k', hincr⟩ := hincr
    rw [createFork, fetchMeta_stored hst]
    dsimp only
    rw [show (drawing now fuel).clock 2 = now from rfl, hcheck _ (readBack q st.metadata) hsoft hexp]
    dsimp only [resolveFork]
    rw [referenceSource, show (drawing now fuel).clock 3 = now from rfl, hincr]
    exact ⟨_, rfl⟩

/-- Where the path is free or holds an expired stream, a fork is created. -/
theorem create_free {s : MemoryStore} (h : Comparable s.streams db)
    (hclear : ∀ st, s.streams.lookup path = some st → st.metadata.isExpiredAt now = true)
    {q : Path} (hne : q ≠ []) (fuel : ℕ) :
    ∃ s₀ : MemoryStore, s₀.streams.lookup path = none ∧
      (∀ p, p ≠ path → s₀.streams.lookup p = s.streams.lookup p) ∧
      s.create (drawing now fuel) path { forkedFrom := q } =
        s₀.createFork (drawing now fuel) path { forkedFrom := q } [105] ∧
      create (drawing now fuel) path { forkedFrom := q } db =
        createFork (drawing now fuel) path { forkedFrom := q } [105] db := by
  rw [MemoryStore.create]
  cases hp : s.streams.lookup path with
  | none =>
    rw [create, fetchMeta_absent (hp ▸ h.same path)]
    exact ⟨s, hp, fun _ _ => rfl, if_pos hne, if_pos hne⟩
  | some st =>
    rw [create_stored (h.same.stored hp)]
    exact ⟨s.remove path, Finmap.lookup_erase _ _, fun p => Finmap.lookup_erase_ne,
      (if_pos (hclear st hp)).trans (if_pos hne), (if_pos (hclear st hp)).trans (if_pos hne)⟩

/-- Creation and deletion refine the memory store: on corresponding states they answer the same,
with the same metadata, and a success leaves corresponding states. This is so under exactly the
paths that hold no retained stream that has expired, if the arithmetic of the scripts decides on
expiry as the client does. -/
theorem create_delete_refine {s : MemoryStore} (h : Comparable s.streams db) (now : Time)
    (path : Path) :
    ((∀ opts, ∃ depth, ∀ env : Env, (∀ i, env.clock i = now) → depth ≤ env.fuel →
        Agrees path (s.create env path opts) (create env path opts db)) ∧
      ∃ depth, ∀ n, depth ≤ n → ∃ db', delete n path db = some (db', (s.delete path).2) ∧
        ((s.delete path).2 = none → SameStreams (s.delete path).1.streams db')) ↔
    Undisputed now path s.streams := by
  constructor
  · rintro ⟨hcreate, -⟩
    have hagrees (opts : CreateOptions) : ∃ fuel, Agrees path
        (s.create (drawing now fuel) path opts) (create (drawing now fuel) path opts db) := by
      obtain ⟨depth, hdepth⟩ := hcreate opts
      exact ⟨depth, hdepth (drawing now depth) (fun _ => rfl) le_rfl⟩
    -- The script has to find the path free.
    have hfree {st} (hp : s.streams.lookup path = some st)
        (hexp : st.metadata.isExpiredAt now = true) : ¬ ∀ a : CreateArgs, a.nowNs = unixNano now →
          ∃ k r, createScript a (db path) = some (k, r) ∧ r ≠ .created := by
      intro hscript
      obtain ⟨fuel, hboth⟩ := hagrees {}
      obtain ⟨⟨s', md, hm⟩, db', r, hr, hne⟩ :=
        create_refused (h.same.stored hp) hp hexp hscript fuel
      rw [hm, hr] at hboth
      obtain ⟨md', rfl⟩ := hboth.created
      exact hne md' rfl
    constructor
    · intro st hp hexp
      have hst := h.same.stored hp
      have hlapsed : lapsedAt st.metadata (unixNano now) = true := by
        by_contra hlapsed
        refine hfree hp hexp fun a ha => ?_
        rw [createScript_stored hst, ha, if_neg hlapsed]
        split_ifs <;> exact ⟨_, _, rfl, by simp⟩
      refine ⟨hlapsed, ?_⟩
      by_contra hret
      rw [Bool.not_eq_false, retained, Bool.or_eq_true, decide_eq_true_eq, Bool.and_eq_true,
        decide_eq_true_eq] at hret
      rcases hret with hrefs | ⟨hsoft, hne⟩
      · refine hfree hp hexp fun a ha => ?_
        rw [createScript_stored hst, ha, if_pos hlapsed, if_pos hrefs]
        exact ⟨_, _, rfl, by simp⟩
      · -- Marked as deleted, it is named as the source of the creation.
        obtain ⟨fuel, hboth⟩ := hagrees { forkedFrom := path }
        have hclear : ∀ st, s.streams.lookup path = some st → st.metadata.isExpiredAt now = true := by
          simp [hp, hexp]
        obtain ⟨s₀, hnone, -, hm, hr⟩ := create_free h hclear hne fuel
        rw [hm, hr, MemoryStore.createFork, hnone, createFork, fetchMeta_stored hst] at hboth
        dsimp only at hboth
        rw [checkSource, if_pos (show (readBack path st.metadata).softDeleted = true from hsoft)]
          at hboth
        cases hboth.answers
    · intro hclear q st hne hqp hq hsoft hexp
      by_contra hlapsed
      obtain ⟨fuel, hboth⟩ := hagrees { forkedFrom := q }
      obtain ⟨s₀, -, hothers, hm, hr⟩ := create_free h hclear hne fuel
      obtain ⟨⟨s', md, hm'⟩, db', hr'⟩ := createFork_lapsed path (h.same.stored hq)
        ((hothers q hqp).trans hq) hsoft hexp (Bool.not_eq_false _ ▸ hlapsed) fuel
      rw [hm, hr, hm', hr'] at hboth
      obtain ⟨_, ⟨⟩⟩ := hboth.created
  · intro hfree
    exact ⟨create_agrees h hfree, s.streams.keys.card, fun n hn =>
      delete_refines h.same (counted_of_isolated h.isolated) path hn⟩

end Refinement

section Example

theorem sourceCalls_isolated :
    (MemoryStore.empty.execGuarded MemoryStore.isolatesForks sourceCalls).isSome := by decide

def forkStream : MemoryStream where
  metadata :=
    { path := [98], incarnation := [105], contentType := octetStream, currentOffset := ⟨0, 3⟩
      ttlSeconds := some 100, createdAt := 1, lastAccessedAt := 1, forkedFrom := [97]
      forkOffset := ⟨0, 3⟩ }

def sourceDb : Db := fun p =>
  if p = [97] then keysOf sourceStream else if p = [98] then keysOf forkStream else {}

theorem sourceCalls_streams :
    (MemoryStore.ran _ sourceCalls sourceCalls_isolated).2.streams =
      ((∅ : Streams).insert [97] sourceStream).insert [98] forkStream := by
  rfl

theorem sourceStream_stored : Stored sourceStream (keysOf sourceStream) :=
  ⟨sourceStream_mirrors, sourceStream_fits, by decide⟩

theorem forkStream_stored : Stored forkStream (keysOf forkStream) where
  mirrors := mirrors_keysOf ⟨rfl, [], by simp, rfl, rfl⟩ (by decide) (by decide) (fun _ => rfl)
    (fun _ => rfl) fun _ => rfl
  fits :=
    { sourceStream_fits with
      createdAt := ⟨by decide, by decide⟩
      lastAccessedAt := ⟨by decide, by decide⟩
      ttlSeconds := by rintro _ ⟨⟩; exact ⟨by decide, by decide⟩
      forkOffset := by decide
      unforked := nofun }
  sizes := by decide

theorem sourceDb_comparable :
    Comparable (MemoryStore.ran _ sourceCalls sourceCalls_isolated).2.streams sourceDb where
  same := by
    rw [sourceCalls_streams]
    intro p
    by_cases hfork : p = [98]
    · subst hfork
      exact .present forkStream_stored
    by_cases hsource : p = [97]
    · subst hsource
      exact .present sourceStream_stored
    · rw [Finmap.lookup_insert_of_ne _ hfork, Finmap.lookup_insert_of_ne _ hsource, sourceDb,
        if_neg hsource, if_neg hfork]
      exact .absent rfl
  isolated := MemoryStore.isolated_run (MemoryStore.ran_guarded sourceCalls_isolated)
  counts := by
    rw [sourceCalls_streams]
    intro p st hp
    rcases lookup_of_lookup_insert hp with ⟨-, rfl⟩ | ⟨-, hp⟩
    · decide
    rcases lookup_of_lookup_insert hp with ⟨-, rfl⟩ | ⟨-, hp⟩
    · decide
    · simp at hp

/-- The source is still there, and it agrees; so does its deletion. -/
theorem create_delete_refine_source :
    let s := (MemoryStore.ran _ sourceCalls sourceCalls_isolated).2
    Comparable s.streams sourceDb ∧
      (∀ opts, ∃ depth, ∀ env : Env, (∀ i, env.clock i = 2) → depth ≤ env.fuel →
        Agrees [97] (s.create env [97] opts) (@create doubles env [97] opts sourceDb)) ∧
      ∃ depth, ∀ n, depth ≤ n → ∃ db', delete n [97] sourceDb = some (db', (s.delete [97]).2) ∧
        ((s.delete [97]).2 = none → SameStreams (s.delete [97]).1.streams db') := by
  refine ⟨sourceDb_comparable, (@create_delete_refine _ doubles _ sourceDb_comparable 2 [97]).mpr ?_⟩
  rw [sourceCalls_streams]
  refine @Undisputed.mk doubles _ _ _ ?_ ?_
  · rintro st ⟨⟩ ⟨⟩
  · intro hclear
    cases hclear sourceStream rfl

/-- The time-to-live of the source is over while its fork is there. Created once more, the
memory store replaces it, and Redis answers that it exists. -/
theorem create_replaces_source :
    let s := (MemoryStore.ran _ sourceCalls sourceCalls_isolated).2
    Comparable s.streams sourceDb ∧
      (∃ s' md, s.create (drawing (2 * 10 ^ 9) 5) [97] {} = some (s', .ok (md, true))) ∧
      ∃ db', @create doubles (drawing (2 * 10 ^ 9) 5) [97] {} sourceDb =
        some (db', .error .streamExists) :=
  ⟨sourceDb_comparable, ⟨_, _, rfl⟩, _, rfl⟩

end Example

/-- A read across the source chain returns what the memory store reads. -/
theorem readForkChain_refines (hsame : SameStreams s db) (hi : Isolated s)
    (hp : s.lookup p = some st) (now : Time) {offset : Offset} (hseq : offset.readSeq = 0) :
    ∃ depth messages, ∀ n, depth ≤ n →
      readForkChain db now n p (readBack p st.metadata) offset = some (.ok messages) ∧
      readForkedStream s n st offset = some messages :=
  readForkChain_eq ⟨fun _ _ hp => hsame.stored hp, hi.refs.sound, hi.covers⟩ hi.ranked hp now hseq

theorem readForkChain_refines_fork :
    let s := (MemoryStore.ran _ sourceCalls sourceCalls_isolated).2.streams
    ∃ depth messages, ∀ n, depth ≤ n →
      readForkChain sourceDb 2 n [98] (readBack [98] forkStream.metadata) zeroOffset =
        some (.ok messages) ∧ readForkedStream s n forkStream zeroOffset = some messages :=
  readForkChain_refines sourceDb_comparable.same sourceDb_comparable.isolated
    (by rw [sourceCalls_streams]; rfl) 2 rfl

end Chronicle.Redis
