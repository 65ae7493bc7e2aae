import Chronicle.Webhook.Claims

/-! # Cursors

The links hash stores the type of a link and its cursor as one string, joined by
a colon, and the scripts take it apart and put it together again. The hash always
holds what was written last, and as long as a subscription lives and a path stays
linked, its cursor only moves forward.
-/

namespace Chronicle.Webhook

open Chronicle.Webhook.Sub

section Order

def begins (x : Bytes) : Prop := x = [45, 49] ∨ x = []

variable {a b : Bytes}

theorem offsetGreater_iff :
    offsetGreater a b = true ↔ ¬ begins a ∧ (begins b ∨ b < a) := by
  have hdec : ∀ x : Bytes, (x = [45, 49] || x = []) = true ↔ begins x := by simp [begins]
  unfold offsetGreater
  dsimp only
  split
  · rename_i hab
    subst hab
    have hirrefl : ¬ a < a := List.lt_irrefl a
    by_cases ha : begins a <;> simp [ha, hirrefl]
  split
  · rename_i hb
    rw [hdec] at hb
    rw [Bool.not_eq_true', ← Bool.not_eq_true, hdec]
    simp [hb]
  rename_i hb
  rw [hdec] at hb
  split
  · rename_i ha
    rw [hdec] at ha
    simp [ha]
  · rename_i ha
    rw [hdec] at ha
    simp [ha, hb, Bytes.lexLt_iff_lt]

/-- A cursor that is not behind another is not behind what that one is not behind. -/
theorem offsetGreater_trans {c : Bytes} (hab : offsetGreater a b = false)
    (hbc : offsetGreater b c = false) : offsetGreater a c = false := by
  rw [← Bool.not_eq_true, offsetGreater_iff] at hab hbc ⊢
  rintro ⟨ha, hc⟩
  rw [not_and, not_or] at hab hbc
  rcases hab ha with ⟨hb, hba⟩
  rcases hbc hb with ⟨hc', hcb⟩
  rcases hc with hc | hca
  · exact hc' hc
  · exact (List.le_trans (List.not_lt.mp hba) (List.not_lt.mp hcb)) hca

theorem offsetGreater_self (a : Bytes) : offsetGreater a a = false := by simp [offsetGreater]

theorem offsetGreater_asymm (h : offsetGreater a b = true) :
    offsetGreater b a = false := by
  rw [offsetGreater_iff] at h
  rw [← Bool.not_eq_true, offsetGreater_iff]
  rintro ⟨hb, ha | hab⟩
  · exact h.1 ha
  · exact h.2.elim hb fun hba => List.lt_asymm hab hba

end Order

section Hash

def LinkType.name : LinkType → Bytes
  | .glob => Bytes.ascii "glob"
  | .explicit => Bytes.ascii "explicit"

/-- Take a value of the links hash apart at its first colon. -/
def splitLink (v : Bytes) : Option (Bytes × Bytes) :=
  match v.dropWhile (· ≠ 58) with
  | [] => none
  | _ :: off => some (v.takeWhile (· ≠ 58), off)

theorem splitLink_join (t : LinkType) (off : Bytes) :
    splitLink (t.name ++ 58 :: off) = some (t.name, off) := by
  cases t <;> rfl

theorem LinkType.name_injective : Function.Injective LinkType.name := by
  intro t t' h
  cases t <;> cases t' <;> first | rfl | exact absurd h (by decide)

/-- The links hash as it is stored, with the type and the offset that were written last under each
path. -/
structure LinkHash where
  value : Path → Option Bytes := fun _ => none
  written : Path → Option (Bytes × Bytes) := fun _ => none

namespace LinkHash

/-- HSET of a type and an offset, joined by a colon. -/
def hset (l : LinkHash) (path : Path) (lt off : Bytes) : LinkHash where
  value := Function.update l.value path (some (lt ++ 58 :: off))
  written := Function.update l.written path (some (lt, off))

def hdel (l : LinkHash) (path : Path) : LinkHash where
  value := Function.update l.value path none
  written := Function.update l.written path none

/-- One acknowledgement: a value is taken apart and written again if the cursor moves. -/
def ack (l : LinkHash) (a : Path × Bytes) : Option LinkHash :=
  match l.value a.1 with
  | none => some l
  | some cur =>
    (splitLink cur).map fun (lt, curoff) =>
      if offsetGreater a.2 curoff then l.hset a.1 lt a.2 else l

def linkStream (l : LinkHash) (path : Path) (linkType : LinkType) (offset : Bytes) :
    Option LinkHash :=
  match l.value path with
  | none => some (l.hset path linkType.name offset)
  | some cur =>
    if linkType = .explicit then
      (splitLink cur).map fun (_, off) => l.hset path (Bytes.ascii "explicit") off
    else some l

def unlinkStream (l : LinkHash) (path : Path) (stillGlob : Bool) : Option LinkHash :=
  match l.value path with
  | none => some l
  | some cur =>
    if stillGlob then (splitLink cur).map fun (_, off) => l.hset path (Bytes.ascii "glob") off
    else some (l.hdel path)

/-- What a script does to the links hash when it answers as it does. A value that cannot be taken
apart is an error. -/
def exec (l : LinkHash) (c : Call) (r : Reply) : Option LinkHash :=
  match c, r with
  | .create a, .create (.created _) =>
    some (a.links.foldl (fun l (path, link) => l.hset path link.linkType.name link.offset) l)
  | .ack a, .ack .ok => a.acks.foldlM ack l
  | .link _, .link .forbidden => some l
  | .link _, .link .noSub => some l
  | .link a, .link _ => l.linkStream a.path a.linkType a.offset
  | .unlink _, .unlink .forbidden => some l
  | .unlink _, .unlink .noSub => some l
  | .unlink a, .unlink _ => l.unlinkStream a.path a.stillGlob
  | .delete _, .delete .ok => some {}
  | _, _ => some l

def ofLinks (links : Links) : LinkHash where
  value path := (links.lookup path).map fun k => k.linkType.name ++ 58 :: k.offset
  written path := (links.lookup path).map fun k => (k.linkType.name, k.offset)

theorem map_lookup_insert {β : Type*} (f : Link → β) (links : Links) (path : Path) (k : Link) :
    Function.update (fun q => (links.lookup q).map f) path (some (f k)) =
      fun q => ((links.insert path k).lookup q).map f := by
  funext q
  by_cases hq : q = path
  · subst hq
    simp
  · simp [hq, Finmap.lookup_insert_of_ne]

theorem map_lookup_erase {β : Type*} (f : Link → β) (links : Links) (path : Path) :
    Function.update (fun q => (links.lookup q).map f) path none =
      fun q => ((links.erase path).lookup q).map f := by
  funext q
  by_cases hq : q = path
  · subst hq
    simp
  · simp [hq, Finmap.lookup_erase_ne]

theorem ofLinks_insert (links : Links) (path : Path) (k : Link) :
    (ofLinks links).hset path k.linkType.name k.offset = ofLinks (links.insert path k) := by
  unfold hset ofLinks
  rw [map_lookup_insert (fun k => (k.linkType.name, k.offset)) links path k,
    map_lookup_insert (fun k => k.linkType.name ++ 58 :: k.offset) links path k]

theorem ofLinks_erase (links : Links) (path : Path) :
    (ofLinks links).hdel path = ofLinks (links.erase path) := by
  unfold hdel ofLinks
  rw [map_lookup_erase, map_lookup_erase]

theorem value_ofLinks {links : Links} {path : Path} {k : Link} (h : links.lookup path = some k) :
    (ofLinks links).value path = some (k.linkType.name ++ 58 :: k.offset) := by
  simp [ofLinks, h]

theorem value_ofLinks_none {links : Links} {path : Path} :
    (ofLinks links).value path = none ↔ links.lookup path = none := by
  simp [ofLinks]

theorem ack_ofLinks (links : Links) (a : Path × Bytes) :
    (ofLinks links).ack a = some (ofLinks (ackLink links a)) := by
  unfold ack ackLink
  cases hl : links.lookup a.1 with
  | none => simp [ofLinks, hl]
  | some k =>
    rw [value_ofLinks hl]
    dsimp only
    rw [splitLink_join, Option.map_some]
    split
    · rw [← ofLinks_insert]
    · rfl

theorem acks_ofLinks (links : Links) (acks : List (Path × Bytes)) :
    acks.foldlM ack (ofLinks links) = some (ofLinks (acks.foldl ackLink links)) := by
  induction acks generalizing links with
  | nil => rfl
  | cons a acks ih =>
    rw [List.foldlM_cons, ack_ofLinks]
    exact ih (ackLink links a)

theorem create_ofLinks (links : Links) (new : List (Path × Link)) :
    new.foldl (fun l (path, link) => l.hset path link.linkType.name link.offset) (ofLinks links) =
      ofLinks (new.foldl (fun l (path, link) => l.insert path link) links) := by
  induction new generalizing links with
  | nil => rfl
  | cons a new ih =>
    rcases a with ⟨path, link⟩
    rw [List.foldl_cons, List.foldl_cons]
    dsimp only
    rw [ofLinks_insert]
    exact ih _

theorem linkStream_ofLinks (links : Links) (path : Path) (t : LinkType) (offset : Bytes) :
    (ofLinks links).linkStream path t offset = some (ofLinks
      (match links.lookup path with
      | none => links.insert path ⟨t, offset⟩
      | some cur => if t = .explicit then links.insert path { cur with linkType := .explicit }
        else links)) := by
  unfold linkStream
  cases hl : links.lookup path with
  | none =>
    rw [show (ofLinks links).value path = none by simp [ofLinks, hl]]
    exact congrArg some (ofLinks_insert links path ⟨t, offset⟩)
  | some cur =>
    rw [value_ofLinks hl]
    dsimp only
    split
    · rw [splitLink_join]
      exact congrArg some (ofLinks_insert links path { cur with linkType := .explicit })
    · rfl

theorem unlinkStream_ofLinks (links : Links) (path : Path) (stillGlob : Bool) :
    (ofLinks links).unlinkStream path stillGlob = some (ofLinks
      (match links.lookup path with
      | none => links
      | some cur => if stillGlob then links.insert path { cur with linkType := .glob }
        else links.erase path)) := by
  unfold unlinkStream
  cases hl : links.lookup path with
  | none => rw [show (ofLinks links).value path = none by simp [ofLinks, hl]]
  | some cur =>
    rw [value_ofLinks hl]
    dsimp only
    split
    · rw [splitLink_join]
      exact congrArg some (ofLinks_insert links path { cur with linkType := .glob })
    · rw [ofLinks_erase]

end LinkHash

end Hash

section Scripts

variable {s s' : Sub} {e : Event} {p : Path} {k k' : Link}

/-- Whether a script may write to the links hash. -/
def Call.linking : Call → Bool
  | .create _ | .ack _ | .delete _ | .link _ | .unlink _ => true
  | _ => false

theorem setFence_links (s : Sub) (g : ℕ) (f : Fence) : (s.setFence g f).links = s.links := by
  unfold setFence
  split <;> rfl

theorem claim_links (s : Sub) (a : ClaimArgs) : (s.claim a).1.links = s.links := by
  have hdrop : (s.dropStaleShard a.shard a.expected.incarnation).links = s.links := by
    unfold dropStaleShard
    split <;> rfl
  unfold claim
  split
  · rfl
  split
  · rfl
  dsimp only
  split
  · exact hdrop
  · rw [setFence_links]
    unfold stampIncarnation
    split
    · rw [setFence_links]
      exact hdrop
    · exact hdrop

theorem exec_links_same (s : Sub) {c : Call} (hc : c.linking = false) :
    (s.exec c).1.links = s.links := by
  cases c with
  | create | ack | delete | link | unlink => cases hc
  | check => rfl
  | claim a => exact claim_links s a
  | arm | wakeSent | release | expire | restore | retry | success =>
    -- what is written besides a fence is a schedule
    dsimp only [Sub.exec, armWake, recordWakeSent, release, expireLease, restoreLease,
      scheduleRetry, recordSuccess]
    repeat' split
    all_goals first | rfl | exact setFence_links ..

/-- An acknowledgement that is accepted advances the cursors that it names, and no other one does
anything to the links. -/
theorem ack_links (s : Sub) (a : AckArgs) :
    (s.ack a).2 = .ok ∧ (s.ack a).1.links = a.acks.foldl ackLink s.links ∨
      (s.ack a).2 ≠ .ok ∧ (s.ack a).1.links = s.links := by
  unfold Sub.ack
  split
  · exact .inr ⟨by simp, rfl⟩
  split
  · exact .inr ⟨by simp, rfl⟩
  · exact .inr ⟨by simp, rfl⟩
  split
  · exact .inr ⟨by simp, rfl⟩
  split
  · exact .inr ⟨by simp, rfl⟩
  split
  · exact .inr ⟨by simp, rfl⟩
  split <;> exact .inl ⟨rfl, rfl⟩

theorem exec_ofLinks (s : Sub) (c : Call) :
    (LinkHash.ofLinks s.links).exec c (s.exec c).2 =
      some (LinkHash.ofLinks (s.exec c).1.links) := by
  by_cases hc : c.linking = true
  · cases c with
    | arm | wakeSent | claim | release | check | expire | restore | retry | success => cases hc
    | create a =>
      change LinkHash.exec _ _ (.create (s.createSub a).2) =
        some (LinkHash.ofLinks (s.createSub a).1.links)
      unfold createSub
      split
      · split <;> rfl
      · exact congrArg some (LinkHash.create_ofLinks ..)
    | ack a =>
      change LinkHash.exec _ _ (.ack (s.ack a).2) = some (LinkHash.ofLinks (s.ack a).1.links)
      rcases ack_links s a with ⟨hr, hl⟩ | ⟨hr, hl⟩
      · rw [hr, hl]
        exact LinkHash.acks_ofLinks ..
      · rw [hl]
        cases hr' : (s.ack a).2 with
        | ok => exact absurd hr' hr
        | fenced => rfl
        | noSub => rfl
    | delete x =>
      change LinkHash.exec _ _ (.delete (s.deleteSub x).2) =
        some (LinkHash.ofLinks (s.deleteSub x).1.links)
      unfold deleteSub
      split
      · rfl
      · rfl
      · simp [LinkHash.exec, LinkHash.ofLinks]
    | link a =>
      have hlink := LinkHash.linkStream_ofLinks s.links a.path a.linkType a.offset
      change LinkHash.exec _ _ (.link (s.linkStream a).2) =
        some (LinkHash.ofLinks (s.linkStream a).1.links)
      unfold linkStream
      split
      · rfl
      · rfl
      · cases hl : s.links.lookup a.path with
        | none => simpa [LinkHash.exec, hl] using hlink
        | some cur =>
          rw [hl] at hlink
          by_cases ht : a.linkType = .explicit <;> simpa [LinkHash.exec, ht] using hlink
    | unlink a =>
      have hunlink := LinkHash.unlinkStream_ofLinks s.links a.path a.stillGlob
      change LinkHash.exec _ _ (.unlink (s.unlinkStream a).2) =
        some (LinkHash.ofLinks (s.unlinkStream a).1.links)
      unfold unlinkStream
      split
      · rfl
      · rfl
      · cases hl : s.links.lookup a.path with
        | none => simpa [LinkHash.exec, hl] using hunlink
        | some cur =>
          rw [hl] at hunlink
          cases ht : a.stillGlob <;> simpa [LinkHash.exec, ht] using hunlink
  · rw [exec_links_same s (by simpa using hc)]
    cases c with
    | create | ack | delete | link | unlink => exact absurd rfl hc
    | arm | wakeSent | claim | release | check | expire | restore | retry | success => rfl

theorem ackLink_forward (l : Links) (a : Path × Bytes) (h : l.lookup p = some k) :
    ∃ k', (ackLink l a).lookup p = some k' ∧ offsetGreater k.offset k'.offset = false := by
  unfold ackLink
  split
  · exact ⟨k, h, offsetGreater_self _⟩
  rename_i link hlink
  split
  · rename_i hgreater
    by_cases hp : p = a.1
    · subst hp
      cases h.symm.trans hlink
      exact ⟨_, Finmap.lookup_insert _, offsetGreater_asymm hgreater⟩
    · exact ⟨k, by rwa [Finmap.lookup_insert_of_ne _ hp], offsetGreater_self _⟩
  · exact ⟨k, h, offsetGreater_self _⟩

theorem acks_forward (acks : List (Path × Bytes)) (l : Links) (h : l.lookup p = some k) :
    ∃ k', (acks.foldl ackLink l).lookup p = some k' ∧
      offsetGreater k.offset k'.offset = false := by
  induction acks generalizing l k with
  | nil => exact ⟨k, h, offsetGreater_self _⟩
  | cons a acks ih =>
    rcases ackLink_forward l a h with ⟨k₁, h₁, hle₁⟩
    rcases ih (ackLink l a) h₁ with ⟨k₂, h₂, hle₂⟩
    exact ⟨k₂, h₂, offsetGreater_trans hle₁ hle₂⟩

/-- No acknowledgement creates a link. -/
theorem acks_absent (acks : List (Path × Bytes)) (l : Links) (h : l.lookup p = none) :
    (acks.foldl ackLink l).lookup p = none := by
  induction acks generalizing l with
  | nil => exact h
  | cons a acks ih =>
    refine ih _ ?_
    unfold ackLink
    split
    · exact h
    rename_i link hlink
    have hne : p ≠ a.1 := by
      rintro rfl
      rw [h] at hlink
      cases hlink
    split
    · rwa [Finmap.lookup_insert_of_ne _ hne]
    · exact h

theorem same_offset {l : Links} (hk : l.lookup p = some k) (hk' : l.lookup p = some k') :
    k'.offset = k.offset := by
  rw [hk, Option.some.injEq] at hk'
  rw [hk']

theorem insert_offset {l : Links} {q : Path} {new : Link}
    (hnew : ∀ cur, l.lookup q = some cur → new.offset = cur.offset) (hk : l.lookup p = some k)
    (hk' : (l.insert q new).lookup p = some k') : k'.offset = k.offset := by
  by_cases hp : p = q
  · subst hp
    rw [Finmap.lookup_insert, Option.some.injEq] at hk'
    rw [← hk', hnew k hk]
  · rw [Finmap.lookup_insert_of_ne _ hp] at hk'
    exact same_offset hk hk'

theorem linkStream_offset (s : Sub) (a : LinkArgs) (hk : s.links.lookup p = some k)
    (hk' : (s.linkStream a).1.links.lookup p = some k') : k'.offset = k.offset := by
  unfold linkStream at hk'
  split at hk'
  · exact same_offset hk hk'
  · exact same_offset hk hk'
  split at hk'
  · rename_i hnone
    exact insert_offset (by simp [hnone]) hk hk'
  rename_i cur hcur
  split at hk'
  · exact insert_offset (by simp [hcur]) hk hk'
  · exact same_offset hk hk'

theorem unlinkStream_offset (s : Sub) (a : UnlinkArgs) (hk : s.links.lookup p = some k)
    (hk' : (s.unlinkStream a).1.links.lookup p = some k') : k'.offset = k.offset := by
  unfold unlinkStream at hk'
  split at hk'
  · exact same_offset hk hk'
  · exact same_offset hk hk'
  split at hk'
  · exact same_offset hk hk'
  rename_i cur hcur
  split at hk'
  · exact insert_offset (by simp [hcur]) hk hk'
  · refine same_offset hk ?_
    by_cases hp : p = a.path
    · rw [hp, Finmap.lookup_erase] at hk'
      cases hk'
    · rwa [Finmap.lookup_erase_ne hp] at hk'

theorem ack_absent {a : AckArgs} {r : Reply} (hstep : s.Step ⟨.ack a, r⟩ s')
    (h : s.links.lookup p = none) : s'.links.lookup p = none := by
  have hs' : s' = (s.ack a).1 := (congrArg Prod.fst hstep).symm
  rw [hs']
  rcases ack_links s a with ⟨-, hlinks⟩ | ⟨-, hlinks⟩
  · rw [hlinks]
    exact acks_absent a.acks s.links h
  · rw [hlinks]
    exact h

theorem step_forward (h : s.Step e s') {i : Bytes} (hi : s.incarnation = some i)
    (hi' : s'.incarnation = some i) (hk : s.links.lookup p = some k)
    (hk' : s'.links.lookup p = some k') : offsetGreater k.offset k'.offset = false := by
  rcases e with ⟨c, r⟩
  have hs' : s' = (s.exec c).1 := (congrArg Prod.fst h).symm
  have hkeep : s'.links = s.links → offsetGreater k.offset k'.offset = false := by
    intro hl
    rw [hl, hk] at hk'
    cases hk'
    exact offsetGreater_self _
  by_cases hc : c.linking = true
  · cases c with
    | arm | wakeSent | claim | release | check | expire | restore | retry | success => cases hc
    | create a =>
      -- the subscription is there, so nothing is created
      refine hkeep ?_
      rw [hs']
      change (s.createSub a).1.links = s.links
      unfold createSub
      cases hp : s.parent with
      | none =>
        rw [incarnation, hp] at hi
        cases hi
      | some x => rfl
    | ack a =>
      have hl : (s.ack a).1.links.lookup p = some k' := by
        rw [hs'] at hk'
        exact hk'
      rcases ack_links s a with ⟨-, heq⟩ | ⟨-, heq⟩
      · rcases acks_forward a.acks s.links hk with ⟨k₁, hk₁, hle⟩
        rw [heq, hk₁, Option.some.injEq] at hl
        rwa [← hl]
      · rw [heq, hk, Option.some.injEq] at hl
        rw [hl]
        exact offsetGreater_self _
    | delete x =>
      have hdel : s' = (s.deleteSub x).1 := hs'
      unfold deleteSub at hdel
      split at hdel
      · exact hkeep (by rw [hdel])
      · exact hkeep (by rw [hdel])
      · rw [hdel] at hi'
        cases hi'
    | link a =>
      rw [hs'] at hk'
      rw [linkStream_offset s a hk hk']
      exact offsetGreater_self _
    | unlink a =>
      rw [hs'] at hk'
      rw [unlinkStream_offset s a hk hk']
      exact offsetGreater_self _
  · refine hkeep ?_
    rw [hs']
    exact exec_links_same s (by simpa using hc)

end Scripts

namespace Cursors

/-- A subscription with its links hash as it is stored. -/
structure World where
  sub : Sub := {}
  links : LinkHash := {}

/-- One script runs on both. -/
def Step (w : World) (e : Event) (w' : World) : Prop :=
  w.sub.Step e w'.sub ∧ w.links.exec e.call e.reply = some w'.links

def World.cursor (w : World) (p : Path) : Option Bytes :=
  ((w.links.value p).bind splitLink).map (·.2)

/-- A step within one incarnation of the subscription, with a path linked before and after it. -/
def LinkedStep (i : Bytes) (p : Path) (w : World) (e : Event) (w' : World) : Prop :=
  Step w e w' ∧ w.sub.incarnation = some i ∧ w'.sub.incarnation = some i ∧
    (w.links.value p).isSome = true ∧ (w'.links.value p).isSome = true

variable {w w' : World} {e : Event} {p : Path} {h h' : List Event}

def Stores (w : World) : Prop := w.links = .ofLinks w.sub.links

theorem Stores.step (hw : Stores w) (hstep : Step w e w') : Stores w' := by
  rcases e with ⟨c, r⟩
  rcases hstep with ⟨hsub, hlinks⟩
  have hsub : w.sub.exec c = (w'.sub, r) := hsub
  have hexec := exec_ofLinks w.sub c
  rw [hsub] at hexec
  rw [hw] at hlinks
  exact Option.some.inj (hlinks.symm.trans hexec)

theorem stores_run (hrun : Trace.Run Step {} h w) : Stores w := by
  refine hrun.invariant ?_ fun _ _ _ hw hstep => hw.step hstep
  simp [Stores, LinkHash.ofLinks]

theorem Stores.cursor (hw : Stores w) (p : Path) :
    w.cursor p = (w.sub.links.lookup p).map (·.offset) := by
  unfold World.cursor
  rw [hw]
  cases hk : w.sub.links.lookup p with
  | none => simp [LinkHash.ofLinks, hk]
  | some k => simp [LinkHash.value_ofLinks hk, splitLink_join]

theorem forward_run {i : Bytes} (hw : Stores w) (hrun : Trace.Run (LinkedStep i p) w h' w')
    {o o' : Bytes} (ho : w.cursor p = some o) (ho' : w'.cursor p = some o') :
    offsetGreater o o' = false := by
  induction hrun generalizing o' with
  | nil =>
    rw [ho, Option.some.injEq] at ho'
    rw [ho']
    exact offsetGreater_self _
  | @snoc g w₁ w₂ e hrun hstep ih =>
    have hw₁ : Stores w₁ := hrun.invariant hw fun _ _ _ hw hstep => hw.step hstep.1
    have hw₂ : Stores w₂ := hw₁.step hstep.1
    rcases hstep with ⟨hstep, hi, hi', hp, -⟩
    rw [hw₂.cursor, Option.map_eq_some_iff] at ho'
    rcases ho' with ⟨k', hk', rfl⟩
    have hlinked : (w₁.sub.links.lookup p).isSome = true := by
      rw [hw₁] at hp
      simpa [LinkHash.ofLinks] using hp
    rcases Option.isSome_iff_exists.mp hlinked with ⟨k, hk⟩
    have hcursor : w₁.cursor p = some k.offset := by rw [hw₁.cursor, hk, Option.map_some]
    exact offsetGreater_trans (ih hcursor) (step_forward hstep.1 hi hi' hk hk')

/-- In every run of the scripts a value of the links hash parses back as the link type and the
offset that were written last, an acknowledgement creates no link, and while a subscription lives
and a path stays linked the cursor of the path does not move back. -/
theorem cursors_forward (hrun : Trace.Run Step {} h w) :
    (∀ q v, w.links.value q = some v → ∃ (t : LinkType) (off : Bytes),
      w.links.written q = some (t.name, off) ∧ splitLink v = some (t.name, off) ∧
        ∀ (t' : LinkType) off', splitLink v = some (t'.name, off') → t' = t) ∧
    (∀ a r w' q, Step w ⟨.ack a, r⟩ w' → w.links.value q = none → w'.links.value q = none) ∧
    ∀ i p h' w' o o', Trace.Run (LinkedStep i p) w h' w' → w.cursor p = some o →
      w'.cursor p = some o' → offsetGreater o o' = false := by
  have hw := stores_run hrun
  refine ⟨?_, ?_, fun i p h' w' o o' hlater ho ho' => forward_run hw hlater ho ho'⟩
  · intro q v hv
    rw [hw] at hv ⊢
    rcases Option.map_eq_some_iff.mp hv with ⟨k, hk, rfl⟩
    refine ⟨k.linkType, k.offset, by simp [LinkHash.ofLinks, hk], splitLink_join _ _, ?_⟩
    intro t' off' hsplit
    rw [splitLink_join, Option.some.injEq, Prod.mk.injEq] at hsplit
    exact LinkType.name_injective hsplit.1.symm
  · intro a r w' q hstep hq
    rw [hw.step hstep, LinkHash.value_ofLinks_none]
    rw [hw, LinkHash.value_ofLinks_none] at hq
    exact ack_absent hstep.1 hq

/-- Run one script for its event. -/
def ranCall (w : World) (c : Call) : Option (Event × World) :=
  let (s', r) := w.sub.exec c
  (w.links.exec c r).map fun l => (⟨c, r⟩, ⟨s', l⟩)

theorem ranCall_step (w : World) (c : Call) (e : Event) (w' : World)
    (h : ranCall w c = some (e, w')) : Step w e w' := by
  rcases Option.map_eq_some_iff.mp h with ⟨l, hl, heq⟩
  cases heq
  exact ⟨rfl, hl⟩

/-- Run one script within one incarnation while a path is linked. -/
def ranLinked (i : Bytes) (p : Path) (w : World) (c : Call) : Option (Event × World) :=
  match ranCall w c with
  | none => none
  | some (e, w') =>
    if w.sub.incarnation = some i ∧ w'.sub.incarnation = some i ∧
        (w.links.value p).isSome = true ∧ (w'.links.value p).isSome = true then some (e, w')
    else none

theorem ranLinked_step {i : Bytes} {p : Path} (w : World) (c : Call) (e : Event) (w' : World)
    (h : ranLinked i p w c = some (e, w')) : LinkedStep i p w e w' := by
  unfold ranLinked at h
  split at h
  · cases h
  · rename_i hran
    split at h
    · rename_i hlinked
      cases h
      exact ⟨ranCall_step _ _ _ _ hran, hlinked⟩
    · cases h

def ackAt (path : Path) (offset : Bytes) : Call :=
  .ack { reqGen := 1, reqWake := [1], tokenGen := 1, done := false, nowNs := 2, leaseTtlMs := 1
         acks := [(path, offset)] }

/-- A stream is linked by a glob at cursor 5 and its subscription is claimed. -/
def linkedAtFive : List Event × World :=
  Trace.executed ranCall {} [.create { pullSub with links := [([112], ⟨.glob, [53]⟩)] },
    .claim { claimBy [97] [1] 1 with
             expected := { owner := [111], incarnation := [49], cfgHash := [99], paths := [[112]] } }]
    (by decide)

/-- The cursor is moved to 7, the link becomes explicit, and an older acknowledgement comes in. -/
def replayedAcks : List Event × World :=
  Trace.executed (ranLinked [49] [112]) linkedAtFive.2
    [ackAt [112] [55], .link ⟨[112], .explicit, [48], none⟩, ackAt [112] [54], ackAt [113] [54]]
    (by decide)

theorem cursors_forward_replayed :
    linkedAtFive.2.cursor [112] = some [53] ∧ replayedAcks.2.cursor [112] = some [55] ∧
      replayedAcks.2.links.value [112] = some (Bytes.ascii "explicit:7") ∧
      replayedAcks.2.links.value [113] = none ∧ offsetGreater [53] [55] = false := by
  have h5 : linkedAtFive.2.cursor [112] = some [53] := by decide
  have h7 : replayedAcks.2.cursor [112] = some [55] := by decide
  refine ⟨h5, h7, by decide, by decide, ?_⟩
  exact (cursors_forward (Trace.executed_run ranCall_step _)).2.2 [49] [112] _ _ _ _
    (Trace.executed_run ranLinked_step _) h5 h7

end Cursors

end Chronicle.Webhook
