import Chronicle.Webhook.ClaimScope
import Chronicle.Webhook.Delivery

/-! # Acknowledgements in the manager and in the script

The manager merges acknowledgements into the links it has read: the last one for a
path is compared with the cursor. The script goes through all of them in order. The
two differ where a later acknowledgement for a path is behind an earlier one.
-/

namespace Chronicle.Webhook

open Chronicle.Webhook.Sub Delivery

variable {links : List (Path × Link)}

section Merge

variable {acks : List (Path × Bytes)} {p : Path}

/-- The table of the offsets that are acknowledged, by path. -/
def byPath (acks : List (Path × Bytes)) : Path → Option Bytes :=
  acks.foldl (fun table a => Function.update table a.1 (some a.2)) fun _ => none

def mergeAcks (links : List (Path × Link)) (acks : List (Path × Bytes)) : List (Path × Link) :=
  links.map fun (path, link) =>
    match byPath acks path with
    | some off => if offsetGreater off link.offset then (path, { link with offset := off })
      else (path, link)
    | none => (path, link)

/-- The last acknowledgement for a path. -/
def lastAck (acks : List (Path × Bytes)) (p : Path) : Option Bytes :=
  ((acks.filter (·.1 = p)).getLast?).map Prod.snd

theorem byPath_eq (acks : List (Path × Bytes)) (p : Path) : byPath acks p = lastAck acks p := by
  induction acks using List.reverseRecOn with
  | nil => rfl
  | append_singleton acks a ih =>
    rw [byPath, List.foldl_append, lastAck, List.filter_append, List.foldl_cons, List.foldl_nil]
    by_cases ha : a.1 = p
    · subst ha
      simp
    · rw [Function.update_of_ne (Ne.symm ha), List.filter_cons_of_neg (by simp [ha]),
        List.filter_nil, List.append_nil]
      exact ih

theorem mem_of_lastAck {last : Bytes} (h : lastAck acks p = some last) : (p, last) ∈ acks := by
  obtain ⟨a, ha, rfl⟩ := Option.map_eq_some_iff.mp h
  obtain ⟨hmem, hp⟩ := List.mem_filter.mp (List.mem_of_getLast? ha)
  obtain rfl : a.1 = p := of_decide_eq_true hp
  exact hmem

theorem lastAck_isSome {a : Path × Bytes} (ha : a ∈ acks) (hp : a.1 = p) :
    ∃ last, lastAck acks p = some last := by
  have hne : acks.filter (·.1 = p) ≠ [] :=
    List.ne_nil_of_mem (List.mem_filter.mpr ⟨ha, decide_eq_true hp⟩)
  rw [lastAck, List.getLast?_eq_some_getLast hne]
  exact ⟨_, rfl⟩

/-- Where the manager puts a cursor. -/
def merged (acks : List (Path × Bytes)) (p : Path) (cur : Bytes) : Bytes :=
  match lastAck acks p with
  | some off => if offsetGreater off cur then off else cur
  | none => cur

theorem mem_mergeAcks {k : Link} : (p, k) ∈ mergeAcks links acks ↔
    ∃ link, (p, link) ∈ links ∧ k = { link with offset := merged acks p link.offset } := by
  have hmap : mergeAcks links acks =
      links.map fun e => (e.1, { e.2 with offset := merged acks e.1 e.2.offset }) := by
    refine List.map_congr_left fun e _ => ?_
    dsimp only
    rw [byPath_eq, merged]
    cases lastAck acks e.1 with
    | none => rfl
    | some off => dsimp only; split <;> rfl
  rw [hmap, List.mem_map]
  constructor
  · rintro ⟨e, he, heq⟩
    cases heq
    exact ⟨e.2, he, rfl⟩
  · rintro ⟨link, hlink, rfl⟩
    exact ⟨(p, link), hlink, rfl⟩

theorem eq_of_not_offsetGreater {a b c : Bytes} (hac : offsetGreater a c = true)
    (hab : offsetGreater a b = false) (hba : offsetGreater b a = false) : a = b := by
  rw [offsetGreater_iff] at hac
  rw [← Bool.not_eq_true, offsetGreater_iff, not_and, not_or] at hab hba
  obtain ⟨hb, hlt⟩ := hab hac.1
  exact List.le_antisymm (List.not_lt.mp hlt) (List.not_lt.mp (hba hb).2)

/-- The two agree on a path if and only if its last acknowledgement is not behind an earlier one
that is ahead of the cursor. -/
theorem merged_iff {stored : Links} {link link' : Link} (hl : stored.lookup p = some link)
    (hl' : (acks.foldl ackLink stored).lookup p = some link') :
    merged acks p link.offset = link'.offset ↔
      ∀ a ∈ acks, a.1 = p → offsetGreater a.2 link.offset →
        ∀ last, lastAck acks p = some last → offsetGreater a.2 last = false := by
  obtain ⟨link₁, hl₁, horigin, hatLeast⟩ := lookup_acks acks hl
  obtain rfl : link₁ = link' := Option.some.inj (hl₁.symm.trans hl')
  constructor
  · intro hmerged a ha hp hahead last hlast
    rw [merged, hlast] at hmerged
    dsimp only at hmerged
    split at hmerged
    · rw [hmerged]
      exact hatLeast a ha hp
    · rw [hmerged, hatLeast a ha hp] at hahead
      cases hahead
  · intro hlatest
    rw [merged]
    rcases horigin with heq | ⟨a, ha, hp, heq, hahead⟩
    · -- no acknowledgement has moved the cursor, the last one neither
      cases hlast : lastAck acks p with
      | none => exact heq.symm
      | some last =>
        dsimp only
        split
        · rename_i hmoved
          rw [← heq, hatLeast _ (mem_of_lastAck hlast) rfl] at hmoved
          cases hmoved
        · exact heq.symm
    · obtain ⟨last, hlast⟩ := lastAck_isSome ha hp
      have hle : offsetGreater last a.2 = false := by
        rw [← heq]
        exact hatLeast _ (mem_of_lastAck hlast) rfl
      have hsame : a.2 = last :=
        eq_of_not_offsetGreater hahead (hlatest a ha hp hahead _ hlast) hle
      rw [hlast, heq]
      dsimp only
      rw [← hsame, if_pos hahead]

end Merge

section Main

/-- The cursor that a stored value of the links hash holds. -/
def LinkHash.cursor (hash : LinkHash) (p : Path) : Option Bytes :=
  (hash.value p).bind fun v => (splitLink v).map Prod.snd

theorem LinkHash.cursor_ofLinks (links : Links) (p : Path) :
    (LinkHash.ofLinks links).cursor p = (links.lookup p).map Link.offset := by
  rw [cursor]
  cases hl : links.lookup p with
  | none =>
    rw [value_ofLinks_none.mpr hl]
    rfl
  | some k =>
    rw [value_ofLinks hl, Option.bind_some, splitLink_join]
    rfl

variable {stored : Links}

/-- The cursors of the merge are those of the script's loop if and only if, for each link, no
acknowledgement that is ahead of its cursor is ahead of the last one for its path. -/
theorem mergeAcks_refines_iff (hread : stored.ReadAs links) (acks : List (Path × Bytes)) :
    (∃ hash, acks.foldlM LinkHash.ack (LinkHash.ofLinks stored) = some hash ∧
      ∀ p off, (∃ link, (p, link) ∈ mergeAcks links acks ∧ link.offset = off) ↔
        hash.cursor p = some off) ↔
      ∀ p link, (p, link) ∈ links → ∀ a ∈ acks, a.1 = p → offsetGreater a.2 link.offset →
        ∀ last, lastAck acks p = some last → offsetGreater a.2 last = false := by
  rw [LinkHash.acks_ofLinks]
  constructor
  · rintro ⟨hash, hhash, hcursors⟩ p link hlink
    obtain rfl := Option.some.inj hhash
    have hl := (hread.mem_iff p link).mp hlink
    obtain ⟨link', hl', -⟩ := lookup_acks acks hl
    rw [← merged_iff hl hl']
    have hmerged := (hcursors p _).mp ⟨_, mem_mergeAcks.mpr ⟨link, hlink, rfl⟩, rfl⟩
    rw [LinkHash.cursor_ofLinks, hl'] at hmerged
    exact (Option.some.inj hmerged).symm
  · intro hlatest
    refine ⟨_, rfl, fun p off => ?_⟩
    rw [LinkHash.cursor_ofLinks]
    constructor
    · rintro ⟨k, hk, rfl⟩
      obtain ⟨link, hlink, rfl⟩ := mem_mergeAcks.mp hk
      have hl := (hread.mem_iff p link).mp hlink
      obtain ⟨link', hl', -⟩ := lookup_acks acks hl
      rw [hl', Option.map_some, (merged_iff hl hl').mpr (hlatest p link hlink)]
    · intro hoff
      obtain ⟨link', hl', rfl⟩ := Option.map_eq_some_iff.mp hoff
      cases hl : stored.lookup p with
      | none => rw [acks_absent acks _ hl] at hl'; cases hl'
      | some link =>
        have hlink := (hread.mem_iff p link).mpr hl
        exact ⟨_, mem_mergeAcks.mpr ⟨link, hlink, rfl⟩,
          (merged_iff hl hl').mpr (hlatest p link hlink)⟩

def orders : Path := Bytes.ascii "orders"

/-- One link, and nothing has been read through it yet. -/
def unread : List (Path × Link) := [(orders, ⟨.explicit, Bytes.ascii "-1"⟩)]

theorem unread_readAs :
    Links.ReadAs (Finmap.insert orders ⟨.explicit, Bytes.ascii "-1"⟩ ∅) unread :=
  Links.readAs_empty.insert (Finmap.lookup_empty _) _

/-- Acknowledgements that go forward, and one for a path that is not linked. -/
def forward : List (Path × Bytes) :=
  [(orders, Bytes.ascii "05"), (Bytes.ascii "refunds", Bytes.ascii "07"),
    (orders, Bytes.ascii "10")]

theorem mergeAcks_refines_forward :
    ∃ hash, forward.foldlM LinkHash.ack
        (LinkHash.ofLinks (Finmap.insert orders ⟨.explicit, Bytes.ascii "-1"⟩ ∅)) = some hash ∧
      ∀ p off, (∃ link, (p, link) ∈ mergeAcks unread forward ∧ link.offset = off) ↔
        hash.cursor p = some off := by
  refine (mergeAcks_refines_iff unread_readAs _).mpr ?_
  simp only [unread, List.mem_singleton, Prod.mk.injEq, and_imp]
  rintro p link rfl rfl a ha - - last hlast
  obtain rfl : Bytes.ascii "10" = last :=
    Option.some.inj (Eq.trans (by decide +kernel) hlast)
  revert a
  decide +kernel

/-- The second acknowledgement is behind the first. -/
def backward : List (Path × Bytes) := [(orders, Bytes.ascii "10"), (orders, Bytes.ascii "05")]

/-- The script keeps the first of the two, the manager takes the second. -/
theorem mergeAcks_backward :
    ∃ hash, backward.foldlM LinkHash.ack
        (LinkHash.ofLinks (Finmap.insert orders ⟨.explicit, Bytes.ascii "-1"⟩ ∅)) = some hash ∧
      hash.cursor orders = some (Bytes.ascii "10") ∧
      mergeAcks unread backward = [(orders, ⟨.explicit, Bytes.ascii "05"⟩)] := by
  refine ⟨_, LinkHash.acks_ofLinks _ _, ?_, by decide +kernel⟩
  rw [LinkHash.cursor_ofLinks]
  decide +kernel

end Main

end Chronicle.Webhook
