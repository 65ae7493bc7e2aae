import Chronicle.Lib.Threads
import Chronicle.Webhook.Cursors

/-! # Delivery of wakes

A delivery reads a subscription, its links and the tails of the linked streams one
after the other, posts the snapshot, and on the answer that all is done acknowledges
the tails that it has posted. Streams grow meanwhile, and any other script may run.
-/

namespace Chronicle.Webhook.Delivery

open Chronicle.Webhook.Sub

section Snapshots

structure StreamLink where
  path : Path
  linkType : LinkType
  ackedOffset : Bytes
  deriving DecidableEq, Repr

structure StreamSnapshot where
  path : Path
  linkType : LinkType
  ackedOffset : Bytes
  tailOffset : Bytes
  hasPending : Bool
  deriving DecidableEq, Repr

/-- What is reported about one link. A stream that is not there has its cursor as its tail. -/
def StreamLink.snapshot (l : StreamLink) (tail : Option Bytes) : StreamSnapshot :=
  let tail := tail.getD l.ackedOffset
  ⟨l.path, l.linkType, l.ackedOffset, tail, offsetGreater tail l.ackedOffset⟩

def snapshot (links : List StreamLink) (tailOf : Path → Option Bytes) :
    List StreamSnapshot × Bool :=
  let out := links.map fun l => l.snapshot (tailOf l.path)
  (out, out.any (·.hasPending))

def acksFromSnapshot (snap : List StreamSnapshot) : List (Path × Bytes) :=
  (snap.filter (·.hasPending)).map fun e => (e.path, e.tailOffset)

def listsLinks (links : Links) (order : List StreamLink) : Bool :=
  ((order.map fun l => ⟨l.path, ⟨l.linkType, l.ackedOffset⟩⟩ :
    List (Sigma fun _ : Path => Link)) : Multiset _) = links.entries

end Snapshots

section Steps

/-- A subscription and the tails of the streams that are there. -/
structure World where
  sub : Sub := {}
  tails : Path → Option Bytes := fun _ => none

structure Attempt where
  generation : ℤ
  wakeId : Bytes
  owner : Option OwnerScope := none
  deriving DecidableEq, Repr

/-- What comes of a request: it was not sent or not accepted, or its answer was read. -/
inductive Response where
  | failed
  | accepted (done : Bool)
  deriving DecidableEq, Repr

inductive Instr where
  | script (c : Call)
  | tail (path : Path) (offset : Option Bytes)
  | checkOwner (d : Attempt)
  | get (d : Attempt)
  | getLinks (d : Attempt) (ttlMs : ℤ)
  | snapshot (d : Attempt) (ttlMs : ℤ) (links : List StreamLink) (out : List StreamSnapshot)
  | post (d : Attempt) (ttlMs : ℤ) (snap : List StreamSnapshot)
  | recordFailure (d : Attempt)
  | scheduleRetry (d : Attempt)
  | recordSuccess (d : Attempt) (ttlMs : ℤ) (snap : List StreamSnapshot) (done : Bool)
  | sealWriteFences (d : Attempt) (ttlMs : ℤ) (snap : List StreamSnapshot)
  | ack (d : Attempt) (ttlMs : ℤ) (snap : List StreamSnapshot)
  | rewake (d : Attempt)
  | rewakeLinks (d : Attempt) (cfg : Config)
  | rewakeTails (d : Attempt) (cfg : Config) (links : List StreamLink) (pending : Bool)
  | issueWake (d : Attempt) (cfg : Config)

structure Choice where
  slot : SlotOwner := {}
  nowNs : ℤ := 0
  nextAttemptNs : ℤ := 0
  links : List StreamLink := []
  readable : Bool := true
  response : Response := .failed
  newWakeId : Bytes := []

deriving instance DecidableEq for Call, Reply, Event

inductive DeliveryEvent where
  | script (e : Event)
  | tail (path : Path) (offset : Option Bytes)
  | posted (d : Attempt) (snap : List StreamSnapshot)
  | undelivered (d : Attempt)
  | acked (d : Attempt) (snap : List StreamSnapshot) (reply : AckReply)
  | internal
  deriving DecidableEq

/-- How long a webhook may fail before its subscription is deleted. -/
def gcFailureWindow : ℤ := 3 * 24 * 3600 * 1000000000

def Attempt.scope (d : Attempt) (slot : SlotOwner) : Owned := ⟨slot, d.owner.getD {}⟩

def Attempt.ackArgs (d : Attempt) (ttlMs : ℤ) (snap : List StreamSnapshot) (c : Choice) :
    AckArgs :=
  { reqGen := d.generation, reqWake := d.wakeId, tokenGen := d.generation, done := true
    nowNs := c.nowNs, leaseTtlMs := ttlMs, acks := acksFromSnapshot snap, scope := d.scope c.slot }

def World.run (w : World) (c : Call) (next : Reply → List Instr) :
    Option (World × List Instr × DeliveryEvent) :=
  let (sub, r) := w.sub.exec c
  some ({ w with sub := sub }, next r, .script ⟨c, r⟩)

def exec (w : World) (i : Instr) (c : Choice) : Option (World × List Instr × DeliveryEvent) :=
  match i with
  | .script call => w.run call fun _ => []
  | .tail path offset =>
    some ({ w with tails := Function.update w.tails path offset }, [], .tail path offset)
  | .checkOwner d =>
    match d.owner with
    | none => some (w, [.get d], .internal)
    | some o =>
      if c.slot.ownerId = some o.replicaId ∧ c.slot.ownerEpoch = some o.expectedEpoch then
        some (w, [.get d], .internal)
      else some (w, [], .internal)
  | .get d =>
    match w.sub.parent with
    | none => some (w, [], .internal)
    | some (cfg, _) => some (w, [.getLinks d cfg.leaseTtlMs], .internal)
  | .getLinks d ttlMs =>
    if listsLinks w.sub.links c.links then some (w, [.snapshot d ttlMs c.links []], .internal)
    else none
  | .snapshot d ttlMs [] out => some (w, [.post d ttlMs out], .internal)
  | .snapshot d ttlMs (l :: links) out =>
    let tail := if c.readable then w.tails l.path else none
    some (w, [.snapshot d ttlMs links (out ++ [l.snapshot tail])], .internal)
  | .post d ttlMs snap =>
    match c.response with
    | .failed => some (w, [.recordFailure d], .undelivered d)
    | .accepted done => some (w, [.recordSuccess d ttlMs snap done], .posted d snap)
  | .recordFailure d =>
    match w.sub.parent with
    | none => some (w, [], .internal)
    | some (_, f) =>
      if f.firstFailNs ≠ 0 ∧ gcFailureWindow < c.nowNs - f.firstFailNs then
        some (w, [.script (.delete none)], .internal)
      else some (w, [.scheduleRetry d], .internal)
  | .scheduleRetry d =>
    w.run (.retry { nowNs := c.nowNs, nextAttemptNs := c.nextAttemptNs, generation := d.generation
                    wakeId := d.wakeId, scope := d.scope c.slot }) fun _ => []
  | .recordSuccess d ttlMs snap done =>
    w.run (.success { generation := d.generation, wakeId := d.wakeId, scope := d.scope c.slot })
      fun r =>
        match r with
        | .record .ok => if done then [.sealWriteFences d ttlMs snap] else []
        | _ => []
  -- the fences are on the streams; an error leaves the wake in flight
  | .sealWriteFences d ttlMs snap => some (w, [.ack d ttlMs snap], .internal)
  | .ack d ttlMs snap =>
    let (sub, r) := w.sub.ack (d.ackArgs ttlMs snap c)
    some ({ w with sub := sub }, if r = .ok then [.rewake d] else [], .acked d snap r)
  | .rewake d =>
    match w.sub.parent with
    | none => some (w, [], .internal)
    | some (cfg, f) =>
      if f.phase = .idle then some (w, [.rewakeLinks d cfg], .internal)
      else some (w, [], .internal)
  | .rewakeLinks d cfg =>
    if listsLinks w.sub.links c.links then some (w, [.rewakeTails d cfg c.links false], .internal)
    else none
  | .rewakeTails d cfg [] pending =>
    some (w, if pending then [.issueWake d cfg] else [], .internal)
  | .rewakeTails d cfg (l :: links) pending =>
    let tail := if c.readable then w.tails l.path else none
    some (w, [.rewakeTails d cfg links (pending || (l.snapshot tail).hasPending)], .internal)
  | .issueWake d cfg =>
    w.run (.arm { nowNs := c.nowNs, leaseTtlMs := cfg.leaseTtlMs, armLease := cfg.type = .webhook
                  newWakeId := c.newWakeId, scope := d.scope c.slot })
      fun r =>
        match r with
        | .arm (.armed generation wakeId) =>
          if cfg.type = .webhook then [.checkOwner ⟨generation, wakeId, d.owner⟩] else []
        | _ => []

/-- Scripts run, streams change and deliveries start at any time. A step that ends in an error is a
thread that is not continued. -/
def starts : List Instr → Bool
  | [.script _] => true
  | [.tail _ _] => true
  | [.checkOwner _] => true
  | _ => false

abbrev Conf := Threads.State World Instr

def Step : Conf → Option DeliveryEvent → Conf → Prop :=
  Threads.Step exec (fun p => starts p = true) fun _ _ _ => (true = true)

def start : Conf := ⟨{}, []⟩

end Steps

/-! ## What is posted is what is acknowledged -/

variable {h : List (Option DeliveryEvent)}

section History

/-- The paths of a snapshot are those of a hash, and what is acknowledged was posted. -/
def Good (h : List (Option DeliveryEvent)) : Instr → Prop
  | .snapshot _ _ links out => (out.map (·.path) ++ links.map (·.path)).Nodup
  | .post _ _ snap => (snap.map (·.path)).Nodup
  | .recordSuccess d _ snap _ => (snap.map (·.path)).Nodup ∧ some (.posted d snap) ∈ h
  | .sealWriteFences d _ snap => (snap.map (·.path)).Nodup ∧ some (.posted d snap) ∈ h
  | .ack d _ snap => (snap.map (·.path)).Nodup ∧ some (.posted d snap) ∈ h
  | _ => True

variable {w w' : World} {i j : Instr} {c : Choice} {k : List Instr} {e : DeliveryEvent}

theorem Good.mono (hi : Good h i) (g : List (Option DeliveryEvent)) : Good (h ++ g) i := by
  cases i with
  | recordSuccess | sealWriteFences | ack => exact ⟨hi.1, List.mem_append_left _ hi.2⟩
  | _ => exact hi

theorem nodup_of_listsLinks {links : Links} {order : List StreamLink}
    (h : listsLinks links order = true) : (order.map (·.path)).Nodup := by
  have heq := of_decide_eq_true h
  have hnodup := links.nodupKeys
  rw [← heq, Multiset.coe_nodupKeys, List.NodupKeys, List.keys, List.map_map] at hnodup
  exact hnodup

theorem exec_good (hi : Good h i) (hexec : exec w i c = some (w', k, e)) (hj : j ∈ k) :
    Good (h ++ [some e]) j := by
  cases i with
  | getLinks d ttlMs =>
    dsimp only [exec] at hexec
    split at hexec
    · rename_i hlists
      cases hexec
      obtain rfl := List.mem_singleton.mp hj
      exact nodup_of_listsLinks hlists
    · cases hexec
  | snapshot d ttlMs links out =>
    cases links with
    | nil =>
      cases hexec
      obtain rfl := List.mem_singleton.mp hj
      simpa [Good] using hi
    | cons l links =>
      cases hexec
      obtain rfl := List.mem_singleton.mp hj
      simpa [Good, StreamLink.snapshot] using hi
  | post d ttlMs snap =>
    dsimp only [exec] at hexec
    split at hexec
    · cases hexec
      obtain rfl := List.mem_singleton.mp hj
      trivial
    · cases hexec
      obtain rfl := List.mem_singleton.mp hj
      exact ⟨hi, by simp⟩
  | recordSuccess d ttlMs snap done =>
    dsimp only [exec, World.run] at hexec
    cases hexec
    split at hj
    · split at hj
      · obtain rfl := List.mem_singleton.mp hj
        exact ⟨hi.1, List.mem_append_left _ hi.2⟩
      · cases hj
    · cases hj
  | sealWriteFences d ttlMs snap =>
    cases hexec
    obtain rfl := List.mem_singleton.mp hj
    exact ⟨hi.1, List.mem_append_left _ hi.2⟩
  | script | tail | scheduleRetry =>
    cases hexec
    cases hj
  | ack d ttlMs snap =>
    dsimp only [exec] at hexec
    generalize w.sub.ack _ = result at hexec
    cases hexec
    split at hj
    · obtain rfl := List.mem_singleton.mp hj
      trivial
    · cases hj
  | rewakeTails d cfg links pending =>
    cases links with
    | nil =>
      cases hexec
      split at hj
      · obtain rfl := List.mem_singleton.mp hj
        trivial
      · cases hj
    | cons l links =>
      cases hexec
      obtain rfl := List.mem_singleton.mp hj
      trivial
  | issueWake d cfg =>
    cases hexec
    dsimp only at hj
    split at hj
    · split at hj
      · obtain rfl := List.mem_singleton.mp hj
        trivial
      · cases hj
    · cases hj
  | checkOwner | get | recordFailure | rewake | rewakeLinks =>
    dsimp only [exec] at hexec
    repeat' split at hexec
    all_goals cases hexec
    all_goals first
      | cases hj; done
      | obtain rfl := List.mem_singleton.mp hj
        trivial

theorem run_good {s : Conf} (hr : Trace.Run Step start h s) : ∀ i, s.Pending i → Good h i := by
  induction hr with
  | nil =>
    rintro i ⟨p, hp, -⟩
    cases hp
  | snoc hr hst ih =>
    intro j hj
    cases hst with
    | start hp =>
      rw [Threads.pending_start] at hj
      obtain hj | hj := hj
      · unfold starts at hp
        split at hp
        all_goals first
          | cases hp; done
          | obtain rfl := List.mem_singleton.mp hj
            trivial
      · exact (ih j hj).mono _
    | run hexec _ =>
      obtain hj | hj := Threads.pending_origin hj
      · exact exec_good (ih _ Threads.pending_head) hexec hj
      · exact (ih j hj).mono _

theorem exec_acked {d : Attempt} {snap : List StreamSnapshot} {r : AckReply}
    (hexec : exec w i c = some (w', k, .acked d snap r)) :
    ∃ ttlMs, i = .ack d ttlMs snap ∧ w.sub.ack (d.ackArgs ttlMs snap c) = (w'.sub, r) := by
  cases i with
  | ack d ttlMs snap =>
    cases hexec
    exact ⟨ttlMs, rfl, rfl⟩
  | script | tail | scheduleRetry | recordSuccess | sealWriteFences | issueWake => cases hexec
  | snapshot d ttlMs links out => cases links <;> cases hexec
  | rewakeTails d cfg links pending => cases links <;> cases hexec
  | checkOwner | get | getLinks | post | recordFailure | rewake | rewakeLinks =>
    dsimp only [exec] at hexec
    repeat' split at hexec
    all_goals cases hexec

end History

/-! ## Cursors after the acknowledgement -/

section Cursors

variable {p : Path} {l : Links} {link : Link}

def maxOffset (a b : Bytes) : Bytes := if offsetGreater a b then a else b

theorem offsetGreater_maxOffset_left (a b : Bytes) : offsetGreater a (maxOffset a b) = false := by
  unfold maxOffset
  split
  · exact offsetGreater_self a
  · rename_i hle
    exact Bool.eq_false_iff.mpr hle

theorem offsetGreater_maxOffset_right (a b : Bytes) : offsetGreater b (maxOffset a b) = false := by
  unfold maxOffset
  split
  · exact offsetGreater_asymm ‹_›
  · exact offsetGreater_self b

theorem lookup_ackLink (l : Links) (a : Path × Bytes) (p : Path) :
    (ackLink l a).lookup p = (l.lookup p).map fun link =>
      if a.1 = p ∧ offsetGreater a.2 link.offset then { link with offset := a.2 } else link := by
  unfold ackLink
  obtain hp | hp := eq_or_ne a.1 p
  · subst hp
    cases hl : l.lookup a.1 with
    | none => exact hl
    | some link =>
      dsimp only
      split
      · rename_i hgt
        rw [Finmap.lookup_insert, Option.map_some, if_pos ⟨rfl, hgt⟩]
      · rename_i hgt
        rw [hl, Option.map_some, if_neg fun h => hgt h.2]
  · have hsame : (fun link : Link =>
        if a.1 = p ∧ offsetGreater a.2 link.offset then { link with offset := a.2 } else link) =
        id := by
      funext link
      rw [if_neg fun h => hp h.1]
      rfl
    rw [hsame, Option.map_id_fun, id]
    split
    · rfl
    · split
      · rw [Finmap.lookup_insert_of_ne _ (Ne.symm hp)]
      · rfl

theorem lookup_acks (acks : List (Path × Bytes)) (hl : l.lookup p = some link) :
    ∃ link', (acks.foldl ackLink l).lookup p = some link' ∧
      (link'.offset = link.offset ∨
        ∃ a ∈ acks, a.1 = p ∧ link'.offset = a.2 ∧ offsetGreater a.2 link.offset) ∧
      ∀ a ∈ acks, a.1 = p → offsetGreater a.2 link'.offset = false := by
  induction acks generalizing l link with
  | nil => exact ⟨link, hl, .inl rfl, nofun⟩
  | cons a acks ih =>
    have hfirst := lookup_ackLink l a p
    rw [hl, Option.map_some] at hfirst
    obtain ⟨link', hl', horigin, hatLeast⟩ := ih hfirst
    obtain ⟨link₂, hl₂, hforward⟩ := acks_forward acks _ hfirst
    obtain rfl : link₂ = link' := Option.some.inj (hl₂.symm.trans hl')
    refine ⟨link₂, hl', ?_, List.forall_mem_cons.mpr ⟨fun hp => ?_, hatLeast⟩⟩
    · obtain heq | ⟨b, hb, hbp, hboff, hahead⟩ := horigin
      · rw [heq]
        split
        · rename_i hmoved
          exact .inr ⟨a, List.mem_cons_self, hmoved.1, rfl, hmoved.2⟩
        · exact .inl rfl
      · refine .inr ⟨b, List.mem_cons_of_mem _ hb, hbp, hboff, ?_⟩
        split at hahead
        · rename_i hmoved
          by_contra hbehind
          rw [offsetGreater_trans (Bool.eq_false_iff.mpr hbehind)
            (offsetGreater_asymm hmoved.2)] at hahead
          cases hahead
        · exact hahead
    · split at hforward
      · exact hforward
      · rename_i hkept
        rw [not_and, Bool.not_eq_true] at hkept
        exact offsetGreater_trans (hkept hp) hforward

end Cursors

section Main

variable {s s' : Conf} {d : Attempt} {snap : List StreamSnapshot}

theorem mem_acksFromSnapshot {a : Path × Bytes} :
    a ∈ acksFromSnapshot snap ↔
      ∃ e ∈ snap, e.hasPending = true ∧ e.path = a.1 ∧ e.tailOffset = a.2 := by
  rw [acksFromSnapshot, List.mem_map]
  constructor
  · rintro ⟨e, he, rfl⟩
    rw [List.mem_filter] at he
    exact ⟨e, he.1, he.2, rfl, rfl⟩
  · rintro ⟨e, he, hpending, hpath, htail⟩
    exact ⟨e, List.mem_filter.mpr ⟨he, hpending⟩, by rw [hpath, htail]⟩

theorem snapshot_pending {links : Links} {order : List StreamLink} {tailOf : Path → Option Bytes}
    {p : Path} {link : Link} {t : Bytes} (hlists : listsLinks links order = true)
    (hlink : links.lookup p = some link) (ht : tailOf p = some t)
    (hgt : offsetGreater t link.offset = true) :
    ∃ e ∈ (snapshot order tailOf).1, e.path = p ∧ e.hasPending = true := by
  have heq := of_decide_eq_true hlists
  rw [Finmap.lookup_eq_some_iff, ← heq, Multiset.mem_coe, List.mem_map] at hlink
  obtain ⟨l, hl, hentry⟩ := hlink
  obtain ⟨hpath, hlink⟩ := Sigma.mk.inj hentry
  subst hpath
  obtain rfl := eq_of_heq hlink
  refine ⟨l.snapshot (tailOf l.path), List.mem_map_of_mem hl, rfl, ?_⟩
  rw [ht]
  exact hgt

/-- When a delivery has acknowledged with success what it posted, a cursor is at most the further
one of what it was before and the tail that was posted, at least a tail that was posted as pending,
and a stream with a tail beyond both is pending. -/
theorem autoAck_exact (hrun : Trace.Run Step start h s)
    (hstep : Step s (some (.acked d snap .ok)) s') :
    some (.posted d snap) ∈ h ∧ (snap.map (·.path)).Nodup ∧
      ∀ p link', s'.world.sub.links.lookup p = some link' →
        ∃ link, s.world.sub.links.lookup p = some link ∧
          (∀ e ∈ snap, e.path = p →
            offsetGreater link'.offset (maxOffset link.offset e.tailOffset) = false) ∧
          ((∀ e ∈ snap, e.path ≠ p) → offsetGreater link'.offset link.offset = false) ∧
          (∀ e ∈ snap, e.path = p → e.hasPending = true →
            offsetGreater e.tailOffset link'.offset = false) ∧
          ∀ order tailOf t, listsLinks s'.world.sub.links order = true → tailOf p = some t →
            offsetGreater t link.offset = true →
            (∀ e ∈ snap, e.path = p → offsetGreater t e.tailOffset = true) →
            ∃ e ∈ (snapshot order tailOf).1, e.path = p ∧ e.hasPending = true := by
  have hgood := run_good hrun
  cases hstep with
  | @run w w' ts₁ ts₂ i q c k e hexec _ =>
    obtain ⟨ttlMs, rfl, hack⟩ := exec_acked hexec
    obtain ⟨hnodup, hposted⟩ := hgood _ Threads.pending_head
    refine ⟨hposted, hnodup, fun p link' hlink' => ?_⟩
    have hlinks : w'.sub.links = (acksFromSnapshot snap).foldl ackLink w.sub.links := by
      obtain ⟨-, heq⟩ | ⟨hno, -⟩ := ack_links w.sub (d.ackArgs ttlMs snap c)
      · rw [hack] at heq
        exact heq
      · rw [hack] at hno
        exact absurd rfl hno
    rw [hlinks] at hlink'
    cases hlink : w.sub.links.lookup p with
    | none =>
      rw [acks_absent _ _ hlink] at hlink'
      cases hlink'
    | some link =>
      obtain ⟨link₁, hlink₁, horigin, hatLeast⟩ := lookup_acks (acksFromSnapshot snap) hlink
      obtain rfl : link₁ = link' := Option.some.inj (hlink₁.symm.trans hlink')
      have hfrom : link₁.offset = link.offset ∨
          ∃ e ∈ snap, e.path = p ∧ link₁.offset = e.tailOffset := by
        refine horigin.imp_right ?_
        rintro ⟨a, ha, rfl, hoff, -⟩
        obtain ⟨e, he, -, hpath, htail⟩ := mem_acksFromSnapshot.mp ha
        exact ⟨e, he, hpath, hoff.trans htail.symm⟩
      refine ⟨link, rfl, fun e he hpath => ?_, fun hnone => ?_, fun e he hpath hpending => ?_,
        fun order tailOf t hlists ht hgt hbeyond => ?_⟩
      · obtain heq | ⟨e', he', hpath', heq⟩ := hfrom
        · rw [heq]
          exact offsetGreater_maxOffset_left _ _
        · obtain rfl := List.inj_on_of_nodup_map hnodup he' he (hpath'.trans hpath.symm)
          rw [heq]
          exact offsetGreater_maxOffset_right _ _
      · obtain heq | ⟨e', he', hpath', -⟩ := hfrom
        · rw [heq]
          exact offsetGreater_self _
        · exact absurd hpath' (hnone e' he')
      · exact hatLeast (e.path, e.tailOffset)
          (mem_acksFromSnapshot.mpr ⟨e, he, hpending, rfl, rfl⟩) hpath
      · refine snapshot_pending hlists (by rw [hlinks]; exact hlink₁) ht ?_
        obtain heq | ⟨e', he', hpath', heq⟩ := hfrom
        · rwa [heq]
        · rw [heq]
          exact hbeyond e' he' hpath'

/-- A wake is delivered for a stream that grows behind the snapshot, up to the acknowledgement. -/
def autoAckTurns : List (Threads.Turn Instr Choice) :=
  let link : StreamLink := ⟨[112], .explicit, Bytes.ascii "-1"⟩
  [.start [.script (.create ⟨[99], .webhook, [], 30000, [111],
      [([112], ⟨.explicit, Bytes.ascii "-1"⟩)]⟩)], .run 0 {},
    .start [.tail [112] (some (Offset.string ⟨0, 5⟩))], .run 0 {},
    .start [.script (.arm { nowNs := 1, leaseTtlMs := 30000, armLease := true, newWakeId := [1] })],
    .run 0 {},
    .start [.checkOwner ⟨1, [1], none⟩], .run 0 {}, .run 0 {}, .run 0 { links := [link] },
    .run 0 {}, .run 0 {}, .run 0 { response := .accepted true },
    .start [.tail [112] (some (Offset.string ⟨0, 9⟩))], .run 0 {}, .run 1 {}, .run 1 {}]

theorem autoAckTurns_run :
    (Trace.execAll (Threads.turn exec starts fun _ _ _ => true) start autoAckTurns).isSome := by
  decide +kernel

def postedSnapshot : List StreamSnapshot :=
  [⟨[112], .explicit, Bytes.ascii "-1", Offset.string ⟨0, 5⟩, true⟩]

theorem autoAck_exact_grown :
    ∃ s', Step (Trace.executed _ _ _ autoAckTurns_run).2
        (some (.acked ⟨1, [1], none⟩ postedSnapshot .ok)) s' ∧
      ∃ link', s'.world.sub.links.lookup [112] = some link' ∧
        offsetGreater (Offset.string ⟨0, 5⟩) link'.offset = false := by
  have hturn : (Threads.turn exec starts (fun _ _ _ => true)
      (Trace.executed _ _ _ autoAckTurns_run).2 (.run 1 {})).map
        (fun x => (x.1, x.2.world.sub.links.lookup [112])) =
      some (some (.acked ⟨1, [1], none⟩ postedSnapshot .ok),
        some ⟨.explicit, Offset.string ⟨0, 5⟩⟩) := by
    decide +kernel
  obtain ⟨⟨e, s'⟩, hturn, heq⟩ := Option.map_eq_some_iff.mp hturn
  obtain ⟨rfl, hlink⟩ := Prod.mk.inj heq
  have hstep := Threads.turn_step _ _ _ _ hturn
  have hack := autoAck_exact (Trace.executed_run Threads.turn_step autoAckTurns_run) hstep
  obtain ⟨link, -, -, -, hatLeast, -⟩ := hack.2.2 [112] _ hlink
  exact ⟨s', hstep, _, hlink, hatLeast _ (List.mem_singleton_self _) rfl rfl⟩

end Main

end Chronicle.Webhook.Delivery
