import Mathlib.Data.Finmap
import Chronicle.Lib.RingBuffer
import Chronicle.Lib.Trace
import Chronicle.Store.Metadata

/-! # The queue of dirty streams

An append leaves a hint that its stream has new data. Hints of one stream are
merged, the queue is bounded, and what it cannot hold is left to a sweep over all
streams: an overflow is remembered until a sweep that began after it has
succeeded.
-/

namespace Chronicle.Webhook

section Entries

structure AppendOrigin where
  requestID : Bytes := []
  trace : Option Bytes := none
  deriving DecidableEq, Repr

def AppendOrigin.known (o : AppendOrigin) : Bool := o.requestID != [] || o.trace.isSome

inductive DirtyEntryState where
  | queued
  | processing
  deriving DecidableEq, Repr

structure DirtyEntry where
  state : DirtyEntryState := .queued
  since : Time := 0
  dirtyAgain : Bool := false
  origin : AppendOrigin := {}
  deriving DecidableEq, Repr

inductive EnqueueResult where
  | enqueued
  | coalescedQueued
  | coalescedProcessing
  | overflowed
  | overflowCoalesced
  deriving DecidableEq, Repr

def EnqueueResult.isOverflow : EnqueueResult → Bool
  | .overflowed | .overflowCoalesced => true
  | _ => false

inductive DirtyCompletion where
  | succeeded
  | retry
  deriving DecidableEq, Repr

structure DirtyWork where
  path : Path
  since : Time
  origin : AppendOrigin
  deriving DecidableEq, Repr

inductive OverflowPhase where
  | idle
  | pending
  | reconciling
  deriving DecidableEq, Repr

structure OverflowState where
  phase : OverflowPhase := .idle
  since : Time := 0
  dirtyAgain : Bool := false
  againSince : Time := 0
  deriving DecidableEq, Repr

end Entries

/-- The queue. The capacity is that of its ring, and time zero is Go's zero time. -/
structure DirtyQueue where
  ready : RingBuffer Path
  entries : Finmap fun _ : Path => DirtyEntry
  oldest : Time
  overflow : OverflowState

namespace DirtyQueue

/-! ## The operations

An operation that panics has no result. -/

def new (capacity : ℕ) (h : 0 < capacity) : DirtyQueue :=
  { ready := RingBuffer.empty [] capacity h, entries := ∅, oldest := 0, overflow := {} }

/-- The older of two times, where the first may be the zero time. -/
def earlier (oldest since : Time) : Time :=
  if oldest = 0 ∨ since < oldest then since else oldest

variable (q : DirtyQueue)

def capacity : ℕ := q.ready.capacity

def noteOverflow (now : Time) : DirtyQueue × EnqueueResult × Bool :=
  match q.overflow.phase with
  | .idle => ({ q with overflow := { phase := .pending, since := now } }, .overflowed, true)
  | .pending => (q, .overflowCoalesced, false)
  | .reconciling =>
    if q.overflow.dirtyAgain then (q, .overflowCoalesced, false)
    else
      ({ q with overflow := { q.overflow with dirtyAgain := true, againSince := now } },
        .overflowCoalesced, false)

def push (path : Path) : Option DirtyQueue :=
  (q.ready.push path).map fun ready => { q with ready }

def pop : Option (Path × DirtyQueue) :=
  (q.ready.pop []).map fun popped => (popped.1, { q with ready := popped.2 })

def enqueue (path : Path) (now : Time) (origin : AppendOrigin) :
    Option (DirtyQueue × EnqueueResult × Bool) :=
  match q.entries.lookup path with
  | some entry =>
    match entry.state with
    | .queued => some (q, .coalescedQueued, false)
    | .processing =>
      let entry := { entry with
        dirtyAgain := true
        origin := if origin.known then origin else entry.origin }
      some ({ q with entries := q.entries.insert path entry }, .coalescedProcessing, false)
  | none =>
    if q.entries.keys.card = q.capacity then some (q.noteOverflow now)
    else
      let q := { q with entries := q.entries.insert path { since := now, origin } }
      (q.push path).map fun q =>
        ({ q with oldest := earlier q.oldest now }, .enqueued, false)

/-- One round of the loop of `take`. A missing entry reads as the zero entry. -/
def takeOne : Option (DirtyQueue × DirtyWork) :=
  match q.pop with
  | none => none
  | some (path, q) =>
    let entry := (q.entries.lookup path).getD {}
    if entry.state = .queued then
      some ({ q with entries := q.entries.insert path { entry with state := .processing } },
        ⟨path, entry.since, entry.origin⟩)
    else none

def takeLoop : ℕ → DirtyQueue → List DirtyWork → Option (DirtyQueue × List DirtyWork)
  | 0, q, work => some (q, work)
  | n + 1, q, work =>
    match q.takeOne with
    | none => none
    | some (q, one) => takeLoop n q (work ++ [one])

def take (limit : ℤ) : Option (DirtyQueue × List DirtyWork) :=
  if limit ≤ 0 then none
  else takeLoop (if limit > q.ready.count then q.ready.count else limit.toNat) q []

/-- The oldest time over a walk of the entries, which a map gives in any order. -/
def recomputeOldest (walk : List DirtyEntry) : Time :=
  walk.foldl (fun oldest entry => earlier oldest entry.since) 0

def complete (path : Path) (completion : DirtyCompletion) (walk : List DirtyEntry) :
    Option DirtyQueue :=
  match q.entries.lookup path with
  | none => none
  | some entry =>
    if entry.state ≠ .processing then none
    else if completion = .retry ∨ entry.dirtyAgain then
      let entry := { entry with state := .queued, dirtyAgain := false }
      { q with entries := q.entries.insert path entry }.push path
    else
      let q := { q with entries := q.entries.erase path }
      if entry.since = q.oldest then some { q with oldest := recomputeOldest walk } else some q

def beginReconcile : DirtyQueue × Time × Bool :=
  if q.overflow.phase ≠ .pending then (q, 0, false)
  else ({ q with overflow := { q.overflow with phase := .reconciling } }, q.overflow.since, true)

def completeReconcile (success : Bool) : DirtyQueue × Bool :=
  if q.overflow.phase ≠ .reconciling then (q, false)
  else if !success then
    ({ q with overflow :=
      { q.overflow with phase := .pending, dirtyAgain := false, againSince := 0 } }, true)
  else if q.overflow.dirtyAgain then
    ({ q with overflow := { phase := .pending, since := q.overflow.againSince } }, true)
  else ({ q with overflow := {} }, false)

end DirtyQueue

/-! ## Runs -/

inductive DirtyCall where
  | enqueue (path : Path) (now : Time) (origin : AppendOrigin)
  | take (limit : ℤ)
  | complete (path : Path) (completion : DirtyCompletion) (walk : List DirtyEntry)
  | beginReconcile
  | completeReconcile (success : Bool)

inductive DirtyReply where
  | enqueue (result : EnqueueResult) (requestRecovery : Bool)
  | take (work : List DirtyWork)
  | complete
  | beginReconcile (since : Time) (ok : Bool)
  | completeReconcile (requestAgain : Bool)

structure DirtyEvent where
  call : DirtyCall
  reply : DirtyReply

/-- The queue and the paths that were taken and not yet completed. -/
structure DirtyState where
  queue : DirtyQueue
  taken : Finset Path

namespace DirtyState

def exec (s : DirtyState) : DirtyCall → Option (DirtyState × DirtyReply)
  | .enqueue path now origin =>
    (s.queue.enqueue path now origin).map fun (q, result, recovery) =>
      (⟨q, s.taken⟩, .enqueue result recovery)
  | .take limit =>
    (s.queue.take limit).map fun (q, work) =>
      (⟨q, s.taken ∪ (work.map DirtyWork.path).toFinset⟩, .take work)
  | .complete path completion walk =>
    (s.queue.complete path completion walk).map fun q => (⟨q, s.taken.erase path⟩, .complete)
  | .beginReconcile =>
    let (q, since, ok) := s.queue.beginReconcile
    some (⟨q, s.taken⟩, .beginReconcile since ok)
  | .completeReconcile success =>
    let (q, again) := s.queue.completeReconcile success
    some (⟨q, s.taken⟩, .completeReconcile again)

/-- The calls that the users of the queue make. What a completion walks are the entries that
are left. -/
def Admissible (s : DirtyState) : DirtyCall → Prop
  | .enqueue _ now _ => now ≠ 0
  | .take limit => 0 < limit
  | .complete path _ walk =>
    path ∈ s.taken ∧ ∀ entry, entry ∈ walk ↔ ∃ p, (s.queue.entries.erase path).lookup p = some entry
  | _ => True

def Step (s : DirtyState) (e : DirtyEvent) (s' : DirtyState) : Prop :=
  s.Admissible e.call ∧ s.exec e.call = some (s', e.reply)

def start (capacity : ℕ) (h : 0 < capacity) : DirtyState := ⟨.new capacity h, ∅⟩

end DirtyState

namespace DirtyQueue

def Holds (q : DirtyQueue) (state : DirtyEntryState) (p : Path) : Prop :=
  ∃ entry, q.entries.lookup p = some entry ∧ entry.state = state

/-- The path is being processed and will be queued again. -/
def Marked (q : DirtyQueue) (p : Path) : Prop :=
  ∃ entry, q.entries.lookup p = some entry ∧ entry.state = .processing ∧ entry.dirtyAgain

def OverflowRecorded (q : DirtyQueue) : Prop :=
  q.overflow.phase = .pending ∨ q.overflow.phase = .reconciling ∧ q.overflow.dirtyAgain

def IsOldest (entries : Finmap fun _ : Path => DirtyEntry) (oldest : Time) : Prop :=
  (∀ p entry, entries.lookup p = some entry → oldest ≤ entry.since) ∧
    ((∃ p entry, entries.lookup p = some entry ∧ entry.since = oldest) ∨
      entries = ∅ ∧ oldest = 0)

def sinces (entries : Finmap fun _ : Path => DirtyEntry) : Set Time :=
  {since | ∃ p entry, entries.lookup p = some entry ∧ entry.since = since}

/-- The least of the times, or zero if there is none. -/
def Least (times : Set Time) (oldest : Time) : Prop :=
  (∀ since ∈ times, oldest ≤ since) ∧ (oldest ∈ times ∨ times = ∅ ∧ oldest = 0)

structure Consistent (q : DirtyQueue) (capacity : ℕ) (taken : Finset Path) : Prop where
  capacity_eq : q.capacity = capacity
  card_le : q.entries.keys.card ≤ capacity
  nodup : q.ready.contents.Nodup
  mem_ready : ∀ p, p ∈ q.ready.contents ↔ q.Holds .queued p
  mem_taken : ∀ p, p ∈ taken ↔ q.Holds .processing p
  since_ne : 0 ∉ sinces q.entries
  oldest : Least (sinces q.entries) q.oldest

variable {q q' : DirtyQueue} {capacity : ℕ} {taken : Finset Path} {p path : Path}

theorem Consistent.ready_subset (h : q.Consistent capacity taken) :
    q.ready.contents.toFinset ⊆ q.entries.keys := by
  intro p hmem
  obtain ⟨entry, hentry, -⟩ := (h.mem_ready p).1 (List.mem_toFinset.1 hmem)
  exact Finmap.mem_keys.2 (Finmap.mem_of_lookup_eq_some hentry)

theorem Consistent.card_ready (h : q.Consistent capacity taken) :
    q.ready.contents.toFinset.card = q.ready.count := by
  rw [List.toFinset_card_of_nodup h.nodup, RingBuffer.length_contents]

theorem Consistent.count_le_card (h : q.Consistent capacity taken) :
    q.ready.count ≤ q.entries.keys.card :=
  h.card_ready ▸ Finset.card_le_card h.ready_subset

theorem Consistent.count_lt_card (h : q.Consistent capacity taken)
    (hp : q.Holds .processing path) : q.ready.count < q.entries.keys.card := by
  rw [← h.card_ready]
  apply Finset.card_lt_card
  refine (Finset.ssubset_iff_of_subset h.ready_subset).2 ⟨path, ?_, ?_⟩
  · obtain ⟨entry, hentry, -⟩ := hp
    exact Finmap.mem_keys.2 (Finmap.mem_of_lookup_eq_some hentry)
  · intro hmem
    obtain ⟨entry, hentry, hstate⟩ := hp
    obtain ⟨entry', hentry', hstate'⟩ := (h.mem_ready path).1 (List.mem_toFinset.1 hmem)
    rw [hentry, Option.some.injEq] at hentry'
    rw [hentry', hstate'] at hstate
    cases hstate

variable {oldest : Time}

section Entries

variable {entries : Finmap fun _ : Path => DirtyEntry} {entry entry' : DirtyEntry}
  {state : DirtyEntryState}

theorem holds_insert_self (he : q'.entries = q.entries.insert path entry) :
    q'.Holds state path ↔ entry.state = state := by
  simp [Holds, he]

theorem holds_insert_ne (he : q'.entries = q.entries.insert path entry) (hp : p ≠ path) :
    q'.Holds state p ↔ q.Holds state p := by
  simp [Holds, he, Finmap.lookup_insert_of_ne _ hp]

theorem holds_erase (he : q'.entries = q.entries.erase path) :
    q'.Holds state p ↔ p ≠ path ∧ q.Holds state p := by
  by_cases hp : p = path
  · subst hp
    simp [Holds, he]
  · simp [Holds, he, hp, Finmap.lookup_erase_ne hp]

theorem Holds.unique {state' : DirtyEntryState} (h : q.Holds state p) (h' : q.Holds state' p) :
    state = state' := by
  obtain ⟨entry, hentry, rfl⟩ := h
  obtain ⟨entry', hentry', rfl⟩ := h'
  rw [hentry, Option.some.injEq] at hentry'
  rw [hentry']

theorem keys_insert : (entries.insert path entry).keys = insert path entries.keys := by
  ext p
  rw [Finmap.mem_keys, Finmap.mem_insert, Finset.mem_insert, Finmap.mem_keys]

theorem card_insert_of_mem (h : path ∈ entries) :
    (entries.insert path entry).keys.card = entries.keys.card := by
  rw [keys_insert, Finset.insert_eq_of_mem (Finmap.mem_keys.2 h)]

theorem erase_insert : (entries.insert path entry).erase path = entries.erase path := by
  refine Finmap.ext_lookup fun p => ?_
  by_cases hp : p = path
  · rw [hp, Finmap.lookup_erase, Finmap.lookup_erase]
  · rw [Finmap.lookup_erase_ne hp, Finmap.lookup_insert_of_ne _ hp, Finmap.lookup_erase_ne hp]

theorem erase_of_none (h : entries.lookup path = none) : entries.erase path = entries := by
  refine Finmap.ext_lookup fun p => ?_
  by_cases hp : p = path
  · rw [hp, Finmap.lookup_erase, h]
  · exact Finmap.lookup_erase_ne hp

theorem sinces_eq (h : entries.lookup path = some entry) :
    sinces entries = insert entry.since (sinces (entries.erase path)) := by
  ext since
  constructor
  · rintro ⟨p, e, he, rfl⟩
    by_cases hp : p = path
    · rw [hp, h, Option.some.injEq] at he
      exact .inl (he ▸ rfl)
    · exact .inr ⟨p, e, by rwa [Finmap.lookup_erase_ne hp], rfl⟩
  · rintro (rfl | ⟨p, e, he, rfl⟩)
    · exact ⟨path, entry, h, rfl⟩
    · have hp : p ≠ path := by
        rintro rfl
        rw [Finmap.lookup_erase] at he
        cases he
      exact ⟨p, e, by rwa [Finmap.lookup_erase_ne hp] at he, rfl⟩

theorem sinces_insert :
    sinces (entries.insert path entry) = insert entry.since (sinces (entries.erase path)) := by
  rw [sinces_eq (Finmap.lookup_insert _), erase_insert]

theorem sinces_insert_same {e : DirtyEntry} (hentry : entries.lookup path = some entry)
    (hsince : e.since = entry.since) : sinces (entries.insert path e) = sinces entries := by
  rw [sinces_insert, hsince, ← sinces_eq hentry]

theorem isOldest_of_least (h : Least (sinces entries) oldest) : IsOldest entries oldest := by
  obtain ⟨hle, hmin⟩ := h
  refine ⟨fun p e he => hle _ ⟨p, e, he, rfl⟩, hmin.imp_right ?_⟩
  rintro ⟨hempty, h0⟩
  refine ⟨Finmap.ext_lookup fun p => ?_, h0⟩
  rw [Finmap.lookup_empty, Option.eq_none_iff_forall_ne_some]
  intro e he
  exact Set.eq_empty_iff_forall_notMem.1 hempty e.since ⟨p, e, he, rfl⟩

theorem earlier_le_right (since : Time) : earlier oldest since ≤ since := by
  unfold earlier
  split_ifs with h
  · exact le_rfl
  · exact not_lt.1 (not_or.1 h).2

theorem earlier_le_left {since : Time} (h : oldest ≠ 0) : earlier oldest since ≤ oldest := by
  unfold earlier
  split_ifs with hcond
  · exact (hcond.resolve_left h).le
  · exact le_rfl

theorem earlier_cases (oldest since : Time) :
    earlier oldest since = since ∨ earlier oldest since = oldest ∧ oldest ≠ 0 := by
  unfold earlier
  split_ifs with h
  · exact .inl rfl
  · exact .inr ⟨rfl, (not_or.1 h).1⟩

theorem Least.insert {times : Set Time} (h : Least times oldest) (hne : 0 ∉ times)
    (since : Time) : Least (insert since times) (earlier oldest since) := by
  obtain ⟨hle, hmin⟩ := h
  constructor
  · rintro t (rfl | ht)
    · exact earlier_le_right _
    · refine (earlier_le_left ?_).trans (hle t ht)
      -- a zero time says that there was no entry
      rcases hmin with hmem | ⟨rfl, -⟩
      · exact ne_of_mem_of_not_mem hmem hne
      · cases ht
  · rcases earlier_cases oldest since with heq | ⟨heq, h0⟩
    · exact .inl (.inl heq)
    · rw [heq]
      exact .inl (.inr (hmin.resolve_right fun hempty => h0 hempty.2))

theorem Least.erase (h : Least (sinces entries) oldest)
    (hentry : entries.lookup path = some entry) (hsince : entry.since ≠ oldest) :
    Least (sinces (entries.erase path)) oldest := by
  rw [sinces_eq hentry] at h
  refine ⟨fun t ht => h.1 t (.inr ht), .inl ?_⟩
  rcases h.2 with (heq | hmem) | ⟨hempty, -⟩
  · exact absurd heq.symm hsince
  · exact hmem
  · exact absurd hempty (Set.insert_nonempty _ _).ne_empty

theorem recomputeOldest_least {walk : List DirtyEntry} (hne : ∀ e ∈ walk, e.since ≠ 0) :
    Least {since | ∃ e ∈ walk, e.since = since} (recomputeOldest walk) := by
  induction walk using List.reverseRecOn with
  | nil => exact ⟨by simp, .inr ⟨by simp, rfl⟩⟩
  | append_singleton walk last ih =>
    have hwalk := fun e he => hne e (List.mem_append_left [last] he)
    have hlast := (ih hwalk).insert (by simpa using hwalk) last.since
    simp only [recomputeOldest, List.foldl_append, List.foldl_cons, List.foldl_nil] at hlast ⊢
    convert hlast using 1
    ext since
    simp [or_comm, eq_comm]

end Entries

section Operations

variable {entry entry' : DirtyEntry} {now : Time} {origin : AppendOrigin} {ready : RingBuffer Path}

theorem Consistent.new (h : 0 < capacity) : (DirtyQueue.new capacity h).Consistent capacity ∅ where
  capacity_eq := RingBuffer.capacity_empty [] h
  card_le := by simp [DirtyQueue.new]
  nodup := List.nodup_nil
  mem_ready p := by simp [DirtyQueue.new, Holds]
  mem_taken p := by simp [DirtyQueue.new, Holds]
  since_ne := by simp [DirtyQueue.new, sinces]
  oldest := by simp [DirtyQueue.new, sinces, Least]

theorem Consistent.setOverflow (h : q.Consistent capacity taken) (overflow : OverflowState) :
    { q with overflow }.Consistent capacity taken :=
  ⟨h.capacity_eq, h.card_le, h.nodup, h.mem_ready, h.mem_taken, h.since_ne, h.oldest⟩

theorem Consistent.since_ne_erase (h : q.Consistent capacity taken)
    (hentry : q.entries.lookup path = some entry) : 0 ∉ sinces (q.entries.erase path) :=
  fun h0 => h.since_ne (sinces_eq hentry ▸ .inr h0)

theorem Consistent.remark (h : q.Consistent capacity taken)
    (hentry : q.entries.lookup path = some entry) (hstate : entry'.state = entry.state)
    (hsince : entry'.since = entry.since) :
    { q with entries := q.entries.insert path entry' }.Consistent capacity taken := by
  have hholds : ∀ state p,
      { q with entries := q.entries.insert path entry' }.Holds state p ↔ q.Holds state p := by
    intro state p
    by_cases hp : p = path
    · subst hp
      rw [holds_insert_self rfl, hstate]
      simp [Holds, hentry]
    · exact holds_insert_ne rfl hp
  have hmem := Finmap.mem_of_lookup_eq_some hentry
  exact
    { capacity_eq := h.capacity_eq
      card_le := (card_insert_of_mem hmem).trans_le h.card_le
      nodup := h.nodup
      mem_ready := fun p => (h.mem_ready p).trans (hholds _ p).symm
      mem_taken := fun p => (h.mem_taken p).trans (hholds _ p).symm
      since_ne := (sinces_insert_same hentry hsince).symm ▸ h.since_ne
      oldest := (sinces_insert_same hentry hsince).symm ▸ h.oldest }

theorem Consistent.queue (h : q.Consistent capacity taken)
    (hready : ready.contents = q.ready.contents ++ [path]) (hcap : ready.capacity = q.capacity)
    (hnot : ¬ q.Holds .queued path) (hstate : entry.state = .queued)
    (hcard : (q.entries.insert path entry).keys.card ≤ capacity)
    (hne : 0 ∉ sinces (q.entries.insert path entry))
    (hold : Least (sinces (q.entries.insert path entry)) oldest) :
    Consistent ⟨ready, q.entries.insert path entry, oldest, q.overflow⟩ capacity
      (taken.erase path) where
  capacity_eq := hcap.trans h.capacity_eq
  card_le := hcard
  nodup := by
    rw [hready, ← List.concat_eq_append]
    exact h.nodup.concat fun hmem => hnot ((h.mem_ready path).1 hmem)
  mem_ready p := by
    by_cases hp : p = path
    · subst hp
      rw [holds_insert_self rfl, hready]
      simp [hstate]
    · rw [holds_insert_ne rfl hp, hready, ← h.mem_ready]
      simp [hp]
  mem_taken p := by
    by_cases hp : p = path
    · subst hp
      rw [holds_insert_self rfl, hstate]
      simp
    · rw [holds_insert_ne rfl hp, ← h.mem_taken]
      simp [hp]
  since_ne := hne
  oldest := hold

theorem Consistent.remove (h : q.Consistent capacity taken) (hprocessing : q.Holds .processing path)
    (hold : Least (sinces (q.entries.erase path)) oldest) :
    Consistent ⟨q.ready, q.entries.erase path, oldest, q.overflow⟩ capacity (taken.erase path) where
  capacity_eq := h.capacity_eq
  card_le := by
    rw [Finmap.keys_erase]
    exact Finset.card_erase_le.trans h.card_le
  nodup := h.nodup
  mem_ready p := by
    rw [holds_erase rfl, h.mem_ready]
    constructor
    · intro hqueued
      refine ⟨?_, hqueued⟩
      rintro rfl
      cases hprocessing.unique hqueued
    · exact And.right
  mem_taken p := by rw [holds_erase rfl, Finset.mem_erase, h.mem_taken]
  since_ne := by
    obtain ⟨entry, hentry, -⟩ := hprocessing
    exact h.since_ne_erase hentry
  oldest := hold

theorem Marked.insert_ne (h : q.Marked p) (he : q'.entries = q.entries.insert path entry)
    (hp : p ≠ path) : q'.Marked p := by
  obtain ⟨entry, hentry, hmark⟩ := h
  exact ⟨entry, by rw [he, Finmap.lookup_insert_of_ne _ hp, hentry], hmark⟩

theorem Marked.holds (h : q.Marked p) : q.Holds .processing p := by
  obtain ⟨entry, hentry, hstate, -⟩ := h
  exact ⟨entry, hentry, hstate⟩

theorem noteOverflow_consistent (h : q.Consistent capacity taken) (now : Time) :
    (q.noteOverflow now).1.Consistent capacity taken := by
  unfold noteOverflow
  split
  · exact h.setOverflow _
  · exact h
  · split_ifs
    · exact h
    · exact h.setOverflow _

theorem noteOverflow_records (q : DirtyQueue) (now : Time) :
    (q.noteOverflow now).2.1.isOverflow ∧ (q.noteOverflow now).1.OverflowRecorded ∧
      (q.noteOverflow now).1.entries = q.entries ∧
      ((q.noteOverflow now).1.overflow.phase = .reconciling →
        q.overflow.phase = .reconciling ∧ (q.noteOverflow now).1.overflow.dirtyAgain) := by
  unfold noteOverflow OverflowRecorded
  split
  case h_1 => simp [EnqueueResult.isOverflow]
  case h_2 hphase => simp [EnqueueResult.isOverflow, hphase]
  case h_3 hphase =>
    split_ifs with hagain
    · simp [EnqueueResult.isOverflow, hphase, hagain]
    · simp [EnqueueResult.isOverflow, hphase]

theorem push_spec (h : q.ready.count < q.capacity) (path : Path) :
    ∃ ready, q.push path = some { q with ready } ∧
      ready.contents = q.ready.contents ++ [path] ∧ ready.capacity = q.capacity := by
  obtain ⟨ready, hpush, hcontents, hcap⟩ := RingBuffer.push_spec h path
  exact ⟨ready, by rw [push, hpush, Option.map_some], hcontents, hcap⟩

theorem enqueue_spec (h : q.Consistent capacity taken) (path : Path) (hnow : now ≠ 0)
    (origin : AppendOrigin) :
    ∃ q' result recovery, q.enqueue path now origin = some (q', result, recovery) ∧
      q'.Consistent capacity taken ∧ (∀ p, q.Marked p → q'.Marked p) ∧
      (result.isOverflow = false ∧ q'.overflow = q.overflow ∧
          (q'.Holds .queued path ∨ q'.Marked path) ∨
        (q', result, recovery) = q.noteOverflow now) := by
  unfold enqueue
  split
  case h_1 entry hentry =>
    split
    case h_1 hstate =>
      exact ⟨q, _, _, rfl, h, fun _ => id, .inl ⟨rfl, rfl, .inl ⟨entry, hentry, hstate⟩⟩⟩
    case h_2 hstate =>
      refine ⟨_, _, _, rfl, h.remark hentry rfl rfl, ?_, .inl ⟨rfl, rfl, .inr ?_⟩⟩
      · intro p hmarked
        by_cases hp : p = path
        · subst hp
          exact ⟨_, Finmap.lookup_insert _, hstate, rfl⟩
        · exact hmarked.insert_ne rfl hp
      · exact ⟨_, Finmap.lookup_insert _, hstate, rfl⟩
  case h_2 hnone =>
    split_ifs with hfull
    · obtain ⟨-, -, hentries, -⟩ := noteOverflow_records q now
      refine ⟨(q.noteOverflow now).1, (q.noteOverflow now).2.1, (q.noteOverflow now).2.2, rfl,
        noteOverflow_consistent h now, ?_, .inr rfl⟩
      rintro p ⟨entry, hentry, hmark⟩
      exact ⟨entry, by rw [hentries, hentry], hmark⟩
    · have hnot : ∀ state, ¬ q.Holds state path := by
        rintro state ⟨entry, hentry, -⟩
        rw [hnone] at hentry
        cases hentry
      have hsinces : sinces (q.entries.insert path { since := now, origin }) =
          insert now (sinces q.entries) := by rw [sinces_insert, erase_of_none hnone]
      have hcount := h.count_le_card
      have hcap := h.capacity_eq
      have hle := h.card_le
      obtain ⟨ready, hpush, hcontents, hready⟩ :=
        push_spec (q := { q with entries := q.entries.insert path { since := now, origin } })
          (show q.ready.count < q.capacity by omega) path
      dsimp only
      rw [hpush]
      refine ⟨_, _, _, rfl, ?_, ?_, .inl ⟨rfl, rfl, .inl ?_⟩⟩
      · have hqueue : Consistent ⟨ready, q.entries.insert path { since := now, origin },
            earlier q.oldest now, q.overflow⟩ capacity (taken.erase path) :=
          h.queue hcontents hready (hnot _) rfl
            (by rw [keys_insert]; exact (Finset.card_insert_le _ _).trans (by omega))
            (by rw [hsinces]; exact not_or.2 ⟨hnow.symm, h.since_ne⟩)
            (hsinces ▸ h.oldest.insert h.since_ne now)
        rwa [Finset.erase_eq_of_notMem] at hqueue
        rw [h.mem_taken]
        exact hnot _
      · intro p hmarked
        refine hmarked.insert_ne rfl ?_
        rintro rfl
        exact hnot _ hmarked.holds
      · exact ⟨_, Finmap.lookup_insert _, rfl⟩

theorem takeOne_spec (h : q.Consistent capacity taken) (hcount : 0 < q.ready.count) :
    ∃ q' work, q.takeOne = some (q', work) ∧ q'.Consistent capacity (insert work.path taken) ∧
      q'.ready.count + 1 = q.ready.count ∧ q'.overflow = q.overflow ∧
      ∀ p, q.Marked p → q'.Marked p := by
  obtain ⟨path, ready, hpop, hcontents, hcap⟩ := RingBuffer.pop_spec hcount []
  have hqueued : q.Holds .queued path := by
    rw [← h.mem_ready, hcontents]
    exact List.mem_cons_self
  obtain ⟨entry, hentry, hstate⟩ := hqueued
  have hnodup := h.nodup
  rw [hcontents, List.nodup_cons] at hnodup
  have htake : q.takeOne = some
      (⟨ready, q.entries.insert path { entry with state := .processing }, q.oldest, q.overflow⟩,
        ⟨path, entry.since, entry.origin⟩) := by
    simp [takeOne, pop, hpop, hentry, hstate]
  have hsinces := sinces_insert_same (e := { entry with state := .processing }) hentry rfl
  refine ⟨_, _, htake, ?_, ?_, rfl, ?_⟩
  · exact
      { capacity_eq := hcap.trans h.capacity_eq
        card_le := (card_insert_of_mem (Finmap.mem_of_lookup_eq_some hentry)).trans_le h.card_le
        nodup := hnodup.2
        mem_ready := by
          intro p
          by_cases hp : p = path
          · subst hp
            rw [holds_insert_self rfl]
            simp [hnodup.1]
          · rw [holds_insert_ne rfl hp, ← h.mem_ready, hcontents]
            simp [hp]
        mem_taken := by
          intro p
          by_cases hp : p = path
          · subst hp
            rw [holds_insert_self rfl]
            simp
          · rw [holds_insert_ne rfl hp, ← h.mem_taken]
            simp [hp]
        since_ne := hsinces ▸ h.since_ne
        oldest := hsinces ▸ h.oldest }
  · have hlength := congrArg List.length hcontents
    rw [List.length_cons, RingBuffer.length_contents, RingBuffer.length_contents] at hlength
    exact hlength.symm
  · intro p hmarked
    refine hmarked.insert_ne rfl ?_
    rintro rfl
    cases hmarked.holds.unique ⟨entry, hentry, hstate⟩

theorem takeLoop_spec (n : ℕ) (h : q.Consistent capacity taken) (hcount : n ≤ q.ready.count)
    (work : List DirtyWork) :
    ∃ q' more, takeLoop n q work = some (q', work ++ more) ∧
      q'.Consistent capacity (taken ∪ (more.map DirtyWork.path).toFinset) ∧
      q'.overflow = q.overflow ∧ ∀ p, q.Marked p → q'.Marked p := by
  induction n generalizing q taken work with
  | zero => exact ⟨q, [], by simp [takeLoop], by simpa using h, rfl, fun _ => id⟩
  | succ n ih =>
    obtain ⟨q₁, one, htake, h₁, hn, hoverflow, hmarked⟩ := takeOne_spec h (by omega)
    obtain ⟨q₂, more, hloop, h₂, hoverflow₂, hmarked₂⟩ := ih h₁ (by omega) (work ++ [one])
    refine ⟨q₂, one :: more, ?_, ?_, hoverflow₂.trans hoverflow,
      fun p hp => hmarked₂ p (hmarked p hp)⟩
    · rw [takeLoop, htake]
      simpa using hloop
    · have hpaths : taken ∪ ((one :: more).map DirtyWork.path).toFinset =
          insert one.path taken ∪ (more.map DirtyWork.path).toFinset := by
        rw [List.map_cons, List.toFinset_cons, Finset.union_insert, Finset.insert_union]
      rw [hpaths]
      exact h₂

theorem take_spec (h : q.Consistent capacity taken) {limit : ℤ} (hlimit : 0 < limit) :
    ∃ q' work, q.take limit = some (q', work) ∧
      q'.Consistent capacity (taken ∪ (work.map DirtyWork.path).toFinset) ∧
      q'.overflow = q.overflow ∧ ∀ p, q.Marked p → q'.Marked p := by
  obtain ⟨q', work, hloop, hrest⟩ := takeLoop_spec
    (if limit > q.ready.count then q.ready.count else limit.toNat) h (by split_ifs <;> omega) []
  refine ⟨q', work, ?_, hrest⟩
  rw [take, if_neg (by omega), hloop, List.nil_append]

theorem complete_spec (h : q.Consistent capacity taken) (hpath : path ∈ taken)
    (completion : DirtyCompletion) {walk : List DirtyEntry}
    (hwalk : ∀ e, e ∈ walk ↔ ∃ p, (q.entries.erase path).lookup p = some e) :
    ∃ q', q.complete path completion walk = some q' ∧
      q'.Consistent capacity (taken.erase path) ∧ q'.overflow = q.overflow ∧
      (q.Marked path → q'.Holds .queued path) ∧ ∀ p ≠ path, q.Marked p → q'.Marked p := by
  have hprocessing := (h.mem_taken path).1 hpath
  obtain ⟨entry, hentry, hstate⟩ := hprocessing
  have hholds : q.Holds .processing path := ⟨entry, hentry, hstate⟩
  have hnot : ¬ q.Holds .queued path := fun hqueued => by cases hholds.unique hqueued
  have hmem := Finmap.mem_of_lookup_eq_some hentry
  rw [complete, hentry]
  dsimp only
  rw [if_neg (not_not.2 hstate)]
  split_ifs with hagain hold
  · have hcount := h.count_lt_card hholds
    have hcap := h.capacity_eq
    have hle := h.card_le
    obtain ⟨ready, hpush, hcontents, hready⟩ := push_spec
      (q := { q with
        entries := q.entries.insert path { entry with state := .queued, dirtyAgain := false } })
      (show q.ready.count < q.capacity by omega) path
    refine ⟨_, hpush, ?_, rfl, fun _ => ⟨_, Finmap.lookup_insert _, rfl⟩,
      fun p hp hmarked => hmarked.insert_ne rfl hp⟩
    have hsinces := sinces_insert_same
      (e := { entry with state := .queued, dirtyAgain := false }) hentry rfl
    exact h.queue hcontents hready hnot rfl ((card_insert_of_mem hmem).trans_le hle)
      (hsinces ▸ h.since_ne) (hsinces ▸ h.oldest)
  all_goals
    have hmarked : ¬ q.Marked path := by
      rintro ⟨entry', hentry', -, hdirty⟩
      rw [hentry, Option.some.injEq] at hentry'
      exact hagain (.inr (hentry' ▸ hdirty))
    have hkept : ∀ p ≠ path, q.Marked p → ∀ oldest,
        Marked ⟨q.ready, q.entries.erase path, oldest, q.overflow⟩ p := by
      rintro p hp ⟨entry, hentry, hmark⟩ oldest
      exact ⟨entry, by rw [Finmap.lookup_erase_ne hp, hentry], hmark⟩
  · refine ⟨_, rfl, h.remove hholds ?_, rfl, fun hm => absurd hm hmarked,
      fun p hp hm => hkept p hp hm _⟩
    have htimes : {since | ∃ e ∈ walk, e.since = since} = sinces (q.entries.erase path) := by
      ext since
      simp only [sinces, hwalk, Set.mem_ofPred_eq, ← exists_and_right]
      exact exists_comm
    refine htimes ▸ recomputeOldest_least ?_
    intro e he h0
    obtain ⟨p, hp⟩ := (hwalk e).1 he
    exact h.since_ne_erase hentry ⟨p, e, hp, h0⟩
  · exact ⟨_, rfl, h.remove hholds (h.oldest.erase hentry hold), rfl,
      fun hm => absurd hm hmarked, fun p hp hm => hkept p hp hm _⟩

end Operations

end DirtyQueue

def DirtyReply.begins : DirtyReply → Bool
  | .beginReconcile _ ok => ok
  | _ => false

def DirtyReply.overflows : DirtyReply → Bool
  | .enqueue result _ => result.isOverflow
  | _ => false

def DirtyCall.Completes (call : DirtyCall) (p : Path) : Prop :=
  ∃ completion walk, call = .complete p completion walk

namespace DirtyState

variable {s s' : DirtyState} {capacity : ℕ} {e : DirtyEvent} {call : DirtyCall}
  {reply : DirtyReply} {h : List DirtyEvent} {p : Path}

def Consistent (s : DirtyState) (capacity : ℕ) : Prop := s.queue.Consistent capacity s.taken

/-- What a call does to the overflow. -/
inductive Moves (before : OverflowState) : DirtyEvent → OverflowState → Prop
  | stays {e : DirtyEvent} (hbegins : e.reply.begins = false)
      (hoverflows : e.reply.overflows = false) : Moves before e before
  | records {e : DirtyEvent} {after : OverflowState} (hbegins : e.reply.begins = false)
      (hphase : after.phase ≠ .idle)
      (hrunning : after.phase = .reconciling → before.phase = .reconciling ∧ after.dirtyAgain) :
      Moves before e after
  | begins {e : DirtyEvent} {after : OverflowState} (hbegins : e.reply.begins)
      (hphase : after.phase = .reconciling) : Moves before e after
  | ends {success again : Bool} {after : OverflowState} (hphase : after.phase ≠ .reconciling)
      (hidle : after.phase = .idle →
        success ∧ before.phase = .reconciling ∧ before.dirtyAgain = false) :
      Moves before ⟨.completeReconcile success, .completeReconcile again⟩ after

theorem exec_spec (hs : s.Consistent capacity) (hcall : s.Admissible call) :
    ∃ s' reply, s.exec call = some (s', reply) ∧ s'.Consistent capacity ∧
      Moves s.queue.overflow ⟨call, reply⟩ s'.queue.overflow ∧
      ∀ p, ¬ call.Completes p → s.queue.Marked p → s'.queue.Marked p := by
  cases call with
  | enqueue path now origin =>
    obtain ⟨q', result, recovery, heq, hq', hmarked, houtcome⟩ :=
      DirtyQueue.enqueue_spec hs path hcall origin
    refine ⟨⟨q', s.taken⟩, .enqueue result recovery, by rw [exec, heq]; rfl, hq', ?_,
      fun p _ => hmarked p⟩
    rcases houtcome with ⟨hresult, hoverflow, -⟩ | hnote
    · rw [hoverflow]
      exact .stays rfl hresult
    · obtain ⟨-, hrecorded, -, hrunning⟩ := s.queue.noteOverflow_records now
      rw [← hnote] at hrecorded hrunning
      refine .records rfl ?_ hrunning
      intro hidle
      rcases hrecorded with hphase | ⟨hphase, -⟩
      all_goals
        rw [hidle] at hphase
        cases hphase
  | take limit =>
    obtain ⟨q', work, heq, hq', hoverflow, hmarked⟩ := DirtyQueue.take_spec hs hcall
    refine ⟨⟨q', _⟩, .take work, by rw [exec, heq]; rfl, hq', ?_, fun p _ => hmarked p⟩
    rw [hoverflow]
    exact .stays rfl rfl
  | complete path completion walk =>
    obtain ⟨hpath, hwalk⟩ := hcall
    obtain ⟨q', heq, hq', hoverflow, -, hmarked⟩ :=
      DirtyQueue.complete_spec hs hpath completion hwalk
    refine ⟨⟨q', _⟩, .complete, by rw [exec, heq]; rfl, hq', ?_, ?_⟩
    · rw [hoverflow]
      exact .stays rfl rfl
    · intro p hnot hp
      refine hmarked p ?_ hp
      rintro rfl
      exact hnot ⟨completion, walk, rfl⟩
  | beginReconcile =>
    refine ⟨⟨s.queue.beginReconcile.1, s.taken⟩,
      .beginReconcile s.queue.beginReconcile.2.1 s.queue.beginReconcile.2.2, rfl, ?_⟩
    unfold DirtyQueue.beginReconcile
    split_ifs with hphase
    · exact ⟨hs, .stays rfl rfl, fun _ _ => id⟩
    · exact ⟨hs.setOverflow _, .begins rfl rfl, fun _ _ => id⟩
  | completeReconcile success =>
    refine ⟨⟨(s.queue.completeReconcile success).1, s.taken⟩,
      .completeReconcile (s.queue.completeReconcile success).2, rfl, ?_⟩
    unfold DirtyQueue.completeReconcile
    split_ifs with hphase hfailed hagain
    · exact ⟨hs, .stays rfl rfl, fun _ _ => id⟩
    · exact ⟨hs.setOverflow _, .ends nofun nofun, fun _ _ => id⟩
    · exact ⟨hs.setOverflow _, .ends nofun nofun, fun _ _ => id⟩
    · refine ⟨hs.setOverflow _, .ends nofun fun _ => ⟨?_, not_not.1 hphase, ?_⟩, fun _ _ => id⟩
      · simpa using hfailed
      · simpa using hagain

theorem Step.spec (hs : s.Consistent capacity) (hstep : s.Step e s') :
    s'.Consistent capacity ∧ Moves s.queue.overflow e s'.queue.overflow ∧
      ∀ p, ¬ e.call.Completes p → s.queue.Marked p → s'.queue.Marked p := by
  obtain ⟨hcall, hexec⟩ := hstep
  obtain ⟨s₁, reply, hexec₁, hrest⟩ := exec_spec hs hcall
  rw [hexec] at hexec₁
  cases hexec₁
  exact hrest

theorem run_consistent (hs : s.Consistent capacity) (hr : Trace.Run Step s h s') :
    s'.Consistent capacity :=
  hr.invariant (I := fun s => s.Consistent capacity) hs fun _ _ _ hs hstep => (hstep.spec hs).1

theorem run_marked (hs : s.Consistent capacity) (hmarked : s.queue.Marked p)
    (hr : Trace.Run Step s h s') (hnot : ∀ e ∈ h, ¬ e.call.Completes p) :
    s'.queue.Marked p := by
  induction hr with
  | nil => exact hmarked
  | snoc hr hstep ih =>
    have hbefore := ih fun e he => hnot e (List.mem_append_left _ he)
    exact (hstep.spec (run_consistent hs hr)).2.2 p (hnot _ (by simp)) hbefore

/-- While a sweep runs, its beginning is in the history, and what overflowed since then asks for
another sweep. -/
def Covered (h : List DirtyEvent) (overflow : OverflowState) : Prop :=
  overflow.phase = .reconciling → ∃ h₁ b h₂, h = h₁ ++ b :: h₂ ∧ b.reply.begins ∧
    ∀ e ∈ h₂, e.reply.begins = false ∧ (e.reply.overflows → overflow.dirtyAgain)

theorem Covered.snoc {before after : OverflowState} (hcovered : Covered h before)
    (hmoves : Moves before e after) : Covered (h ++ [e]) after := by
  intro hphase
  cases hmoves with
  | stays hbegins hoverflows =>
    obtain ⟨h₁, b, h₂, rfl, hb, hsince⟩ := hcovered hphase
    refine ⟨h₁, b, h₂ ++ [e], by simp, hb, ?_⟩
    intro e' he'
    rcases List.mem_append.1 he' with he' | he'
    · exact hsince e' he'
    · rw [List.mem_singleton.1 he', hoverflows]
      exact ⟨hbegins, nofun⟩
  | records hbegins _ hrunning =>
    obtain ⟨hbefore, hagain⟩ := hrunning hphase
    obtain ⟨h₁, b, h₂, rfl, hb, hsince⟩ := hcovered hbefore
    refine ⟨h₁, b, h₂ ++ [e], by simp, hb, ?_⟩
    intro e' he'
    rcases List.mem_append.1 he' with he' | he'
    · exact ⟨(hsince e' he').1, fun _ => hagain⟩
    · rw [List.mem_singleton.1 he']
      exact ⟨hbegins, fun _ => hagain⟩
  | begins hbegins _ => exact ⟨h, e, [], rfl, hbegins, nofun⟩
  | ends hphase' _ => exact absurd hphase hphase'

theorem start_consistent (hcap : 0 < capacity) : (start capacity hcap).Consistent capacity :=
  .new hcap

theorem run_covered {hcap : 0 < capacity} (hr : Trace.Run Step (start capacity hcap) h s) :
    Covered h s.queue.overflow := by
  induction hr with
  | nil =>
    intro hphase
    cases hphase
  | snoc hr hstep ih =>
    exact ih.snoc (hstep.spec (run_consistent (start_consistent hcap) hr)).2.1

/-- Whatever happens until the work on the path is completed, it is queued again then. -/
def Requeues (s : DirtyState) (p : Path) : Prop :=
  s.queue.Marked p ∧ ∀ h s₁, Trace.Run Step s h s₁ → (∀ e ∈ h, ¬ e.call.Completes p) →
    ∀ e s₂, s₁.Step e s₂ → e.call.Completes p → s₂.queue.Holds .queued p

theorem requeues_of_marked (hs : s.Consistent capacity) (hmarked : s.queue.Marked p) :
    s.Requeues p := by
  refine ⟨hmarked, ?_⟩
  rintro h s₁ hr hnot ⟨call, reply⟩ s₂ ⟨hcall, hexec⟩ ⟨completion, walk, rfl⟩
  obtain ⟨hpath, hwalk⟩ := hcall
  obtain ⟨q', heq, -, -, hqueued, -⟩ :=
    DirtyQueue.complete_spec (run_consistent hs hr) hpath completion hwalk
  rw [exec, heq, Option.map_some, Option.some.injEq, Prod.mk.injEq] at hexec
  rw [← hexec.1]
  exact hqueued (run_marked hs hmarked hr hnot)

theorem Step.enqueue {now : Time} {origin : AppendOrigin} (hs : s.Consistent capacity)
    (hstep : s.Step ⟨.enqueue p now origin, reply⟩ s') :
    s'.queue.Holds .queued p ∨ s'.Requeues p ∨
      reply.overflows ∧ s'.queue.OverflowRecorded := by
  have hs' := (hstep.spec hs).1
  obtain ⟨hnow, hexec⟩ := hstep
  obtain ⟨q', result, recovery, heq, -, -, houtcome⟩ := DirtyQueue.enqueue_spec hs p hnow origin
  rw [exec, heq, Option.map_some] at hexec
  cases hexec
  rcases houtcome with ⟨-, -, hqueued | hmarked⟩ | hnote
  · exact .inl hqueued
  · exact .inr (.inl (requeues_of_marked hs' hmarked))
  · obtain ⟨hresult, hrecorded, -, -⟩ := s.queue.noteOverflow_records now
    rw [← hnote] at hresult hrecorded
    exact .inr (.inr ⟨hresult, hrecorded⟩)

theorem Step.ends_epoch (hs : s.Consistent capacity) (hcovered : Covered h s.queue.overflow)
    (hstep : s.Step e s') (hphase : s.queue.overflow.phase ≠ .idle)
    (hidle : s'.queue.overflow.phase = .idle) :
    e.call = .completeReconcile true ∧ ∃ h₁ b h₂, h = h₁ ++ b :: h₂ ∧ b.reply.begins ∧
      ∀ e ∈ h₂, e.reply.begins = false ∧ e.reply.overflows = false := by
  have hmoves := (hstep.spec hs).2.1
  generalize s'.queue.overflow = after at hmoves hidle
  cases hmoves with
  | stays => exact absurd hidle hphase
  | records _ hphase' => exact absurd hidle hphase'
  | begins _ hphase' =>
    rw [hidle] at hphase'
    cases hphase'
  | ends _ hends =>
    obtain ⟨rfl, hrunning, hagain⟩ := hends hidle
    obtain ⟨h₁, b, h₂, rfl, hb, hsince⟩ := hcovered hrunning
    refine ⟨rfl, h₁, b, h₂, rfl, hb, ?_⟩
    intro e he
    refine ⟨(hsince e he).1, Bool.eq_false_iff.2 ?_⟩
    intro hoverflows
    rw [(hsince e he).2 hoverflows] at hagain
    cases hagain

/-- In every run of a queue of positive capacity no hint is lost: no call fails, the queue is
bounded and consistent, what is enqueued is queued, marked or recorded as an overflow, and an
overflow is forgotten only after a sweep that began later. -/
theorem no_hint_lost (hcap : 0 < capacity) (hr : Trace.Run Step (start capacity hcap) h s) :
    (∀ call, s.Admissible call → (s.exec call).isSome) ∧
    s.queue.entries.keys.card ≤ capacity ∧
    (s.queue.ready.contents.Nodup ∧
      ∀ p, p ∈ s.queue.ready.contents ↔ s.queue.Holds .queued p) ∧
    DirtyQueue.IsOldest s.queue.entries s.queue.oldest ∧
    (∀ p now origin reply s', s.Step ⟨.enqueue p now origin, reply⟩ s' →
      s'.queue.Holds .queued p ∨ s'.Requeues p ∨
        reply.overflows ∧ s'.queue.OverflowRecorded) ∧
    ∀ e s', s.Step e s' → s.queue.overflow.phase ≠ .idle → s'.queue.overflow.phase = .idle →
      e.call = .completeReconcile true ∧ ∃ h₁ b h₂, h = h₁ ++ b :: h₂ ∧ b.reply.begins ∧
        ∀ e ∈ h₂, e.reply.begins = false ∧ e.reply.overflows = false := by
  have hs := run_consistent (start_consistent hcap) hr
  refine ⟨?_, hs.card_le, ⟨hs.nodup, hs.mem_ready⟩,
    DirtyQueue.isOldest_of_least hs.oldest, ?_, ?_⟩
  · intro call hcall
    obtain ⟨s', reply, hexec, -⟩ := exec_spec hs hcall
    rw [hexec]
    rfl
  · intro p now origin reply s' hstep
    exact hstep.enqueue hs
  · intro e s' hstep hphase hidle
    exact hstep.ends_epoch hs (run_covered hr) hphase hidle

/-- One stream is queued and taken, and another one does not fit. -/
theorem no_hint_lost_full : ∃ s, Trace.Run Step (start 1 one_pos)
    [⟨.enqueue [97] 5 {}, .enqueue .enqueued false⟩,
      ⟨.enqueue [98] 6 {}, .enqueue .overflowed true⟩,
      ⟨.take 64, .take [⟨[97], 5, {}⟩]⟩] s ∧ s.queue.entries.keys.card ≤ 1 := by
  have hr : Trace.Run Step (start 1 one_pos)
      ([] ++ [⟨.enqueue [97] 5 {}, .enqueue .enqueued false⟩] ++
        [⟨.enqueue [98] 6 {}, .enqueue .overflowed true⟩] ++
        [⟨.take 64, .take [⟨[97], 5, {}⟩]⟩]) _ :=
    .snoc (.snoc (.snoc .nil ⟨show (5 : ℤ) ≠ 0 by decide, rfl⟩) ⟨show (6 : ℤ) ≠ 0 by decide, rfl⟩)
      ⟨show (0 : ℤ) < 64 by decide, rfl⟩
  exact ⟨_, hr, (no_hint_lost one_pos hr).2.1⟩

/-- Taking no work at all is an error of the caller. -/
theorem take_zero_fails :
    ∃ h s, Trace.Run Step (start 1 one_pos) h s ∧ s.exec (.take 0) = none :=
  ⟨[], _, .nil, rfl⟩

end DirtyState

end Chronicle.Webhook
