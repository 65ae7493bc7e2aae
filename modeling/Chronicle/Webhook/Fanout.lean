import Chronicle.Lib.Threads
import Chronicle.Webhook.Glob
import Chronicle.Webhook.Keys
import Chronicle.Webhook.Scripts

/-! # Links and the fan-out index

The links of a subscription are canonical. For each stream an index says which
subscriptions are linked to it: one set of ids for each slot, and a bitmap of the
slots that have one. The scripts change the links in one step; the index is
written by commands of their own after the script, and they interleave with the
commands of other callers.
-/

namespace Chronicle.Webhook

open Chronicle.Webhook.Sub

structure World where
  subs : Bytes → Sub := fun _ => {}
  members : ℕ → Path → Finset Bytes := fun _ _ => ∅
  occupied : Path → Finset ℕ := fun _ => ∅

inductive Command where
  | sadd (id : Bytes) (path : Path)
  | setbit (id : Bytes) (path : Path)
  | srem (id : Bytes) (path : Path)
  deriving DecidableEq, Repr

namespace World

def set (w : World) (id : Bytes) (s : Sub) : World :=
  { w with subs := Function.update w.subs id s }

def setMembers (w : World) (id : Bytes) (path : Path) (f : Finset Bytes → Finset Bytes) : World :=
  { w with
    members := Function.update w.members (slotOf id)
      (Function.update (w.members (slotOf id)) path (f (w.members (slotOf id) path))) }

def command (w : World) : Command → World
  | .sadd id path => w.setMembers id path (insert id)
  | .srem id path => w.setMembers id path (·.erase id)
  | .setbit id path =>
    { w with occupied := Function.update w.occupied path (insert (slotOf id) (w.occupied path)) }

def streamSubscribers (w : World) (path : Path) : Finset Bytes :=
  (w.occupied path).biUnion fun h => w.members h path

/-- Remove a member from the index unless the link is there. -/
def deindexStale (w : World) (id : Bytes) (path : Path) : World :=
  if (w.subs id).parent.isSome ∧ path ∈ (w.subs id).links then w
  else w.command (.srem id path)

end World

/-- The steps of the operations on subscriptions and their links. -/
inductive Instr where
  /-- Create a subscription, then link the listed streams that match its pattern. -/
  | create (id : Bytes) (a : CreateArgs) (streams : List (Path × Bytes))
  /-- Read the pattern of a subscription, then link the listed streams that match it. -/
  | read (id : Bytes) (streams : List (Path × Bytes))
  /-- Link a stream; a caller that has read the subscription knows its incarnation. -/
  | link (id : Bytes) (a : LinkArgs) (seen : Option Bytes)
  | unlink (id : Bytes) (a : UnlinkArgs)
  /-- Read the links of a subscription that is to be deleted. -/
  | keys (id : Bytes) (expected : Option Expectation)
  | delete (id : Bytes) (expected : Option Expectation) (paths : List Path)
  | stale (id : Bytes) (path : Path)
  /-- Read the links of subscriptions whose index is reconciled. -/
  | scan (ids : List Bytes) (found : List Command)
  /-- Commands that are sent together and run in any order. -/
  | pipeline (commands : List Command)
  deriving DecidableEq, Repr

/-- What the model leaves open in a step: which command of a pipeline runs, and in which order the
keys of a hash are listed. -/
inductive Choice where
  | index (n : ℕ)
  | keys (paths : List Path)
  deriving DecidableEq, Repr

/-- An instruction that has run, whether it was applied, and the incarnation of its subscription
after it. -/
structure Linking where
  instr : Instr
  applied : Bool := true
  incarnation : Option Bytes := none
  deriving DecidableEq, Repr

def Sub.currentIncarnation (s : Sub) : Option Bytes := s.parent.map (·.2.incarnation)

def send (cs : List Command) : List Instr := if cs = [] then [] else [.pipeline cs]

def indexCommands (id : Bytes) (path : Path) : List Command := [.sadd id path, .setbit id path]

def globLinks (id pattern incarnation : Bytes) (streams : List (Path × Bytes)) : List Instr :=
  if pattern = [] then []
  else
    (streams.filter fun (path, _) => globMatch pattern path).map fun (path, offset) =>
      .link id { path := path, linkType := .glob, offset := offset } (some incarnation)

def listsKeys (l : Links) (paths : List Path) : Bool :=
  paths.Nodup && paths.toFinset = l.keys

def exec (w : World) (i : Instr) (c : Choice) : Option (World × List Instr × Linking) :=
  match i with
  | .create id a streams =>
    match (w.subs id).createSub a with
    | (s, .created _) =>
      let incarnation := s.currentIncarnation.getD []
      some (w.set id s,
        a.links.map (fun (path, _) => .pipeline (indexCommands id path)) ++
          globLinks id a.pattern incarnation streams,
        { instr := i, incarnation := s.currentIncarnation })
    | (s, _) => some (w, [], { instr := i, applied := false, incarnation := s.currentIncarnation })
  | .read id streams =>
    let next :=
      match (w.subs id).parent with
      | none => []
      | some (cfg, f) => globLinks id cfg.pattern f.incarnation streams
    some (w, next, { instr := i, incarnation := (w.subs id).currentIncarnation })
  | .link id a _ =>
    match (w.subs id).linkStream a with
    | (s, .noSub) | (s, .forbidden) =>
      some (w, [], { instr := i, applied := false, incarnation := s.currentIncarnation })
    | (s, _) =>
      some (w.set id s, [.pipeline (indexCommands id a.path)],
        { instr := i, incarnation := s.currentIncarnation })
  | .unlink id a =>
    match (w.subs id).unlinkStream a with
    | (s, .removed) =>
      some (w.set id s, [.pipeline [.srem id a.path]], { instr := i, incarnation := s.currentIncarnation })
    | (s, _) => some (w.set id s, [], { instr := i, incarnation := s.currentIncarnation })
  | .keys id expected =>
    match c with
    | .keys paths =>
      if listsKeys (w.subs id).links paths then
        some (w, [.delete id expected paths],
          { instr := i, incarnation := (w.subs id).currentIncarnation })
      else none
    | .index _ => none
  | .delete id expected paths =>
    match (w.subs id).deleteSub expected with
    | (s, .ok) =>
      some (w.set id s, paths.map fun path => .pipeline [.srem id path],
        { instr := i, incarnation := s.currentIncarnation })
    | (s, _) => some (w, [], { instr := i, applied := false, incarnation := s.currentIncarnation })
  | .stale id path =>
    some (w.deindexStale id path, [], { instr := i, incarnation := (w.subs id).currentIncarnation })
  | .scan [] found => some (w, send found, { instr := i })
  | .scan (id :: ids) found =>
    match c with
    | .keys paths =>
      if listsKeys (w.subs id).links paths then
        some (w, [.scan ids (found ++ paths.flatMap (indexCommands id))],
          { instr := i, incarnation := (w.subs id).currentIncarnation })
      else none
    | .index _ => none
  | .pipeline commands =>
    match c with
    | .index n =>
      (commands[n]?).map fun command =>
        (w.command command, send (commands.eraseIdx n), { instr := i })
    | .keys _ => none

/-- The operations as they start: a stream is linked without a read only by an explicit request,
and the index is reconciled from nothing. -/
def starts (p : List Instr) : Bool :=
  match p with
  | [.create ..] | [.read ..] | [.unlink ..] | [.keys ..] | [.stale ..] => true
  | [.link _ a seen] => seen = none && a.linkType = .explicit
  | p => p.all fun i => match i with | .scan _ found => found = [] | _ => false

/-- The ways in which an instruction runs. -/
inductive Ran (w : World) (c : Choice) : Instr → World → List Instr → Linking → Prop
  | created {id a streams s owner} (h : (w.subs id).createSub a = (s, .created owner)) :
      Ran w c (.create id a streams) (w.set id s)
        (a.links.map (fun (path, _) => .pipeline (indexCommands id path)) ++
          globLinks id a.pattern (s.currentIncarnation.getD []) streams)
        { instr := .create id a streams, incarnation := s.currentIncarnation }
  | read {id streams cfg f} (h : (w.subs id).parent = some (cfg, f)) {e} :
      Ran w c (.read id streams) w (globLinks id cfg.pattern f.incarnation streams) e
  | linked {id a seen s r} (h : (w.subs id).linkStream a = (s, r))
      (hr : (w.subs id).authorize a.expected = .matched) :
      Ran w c (.link id a seen) (w.set id s) [.pipeline (indexCommands id a.path)]
        { instr := .link id a seen, incarnation := s.currentIncarnation }
  | unlinked {id a s r k e} (h : (w.subs id).unlinkStream a = (s, r))
      (hk : ∀ i ∈ k, i = .pipeline [.srem id a.path]) : Ran w c (.unlink id a) (w.set id s) k e
  | listed {id expected paths e} :
      Ran w c (.keys id expected) w [.delete id expected paths] e
  | deleted {id expected paths s e} (h : (w.subs id).deleteSub expected = (s, .ok)) :
      Ran w c (.delete id expected paths) (w.set id s)
        (paths.map fun path => .pipeline [.srem id path]) e
  | stale {id path e} : Ran w c (.stale id path) (w.deindexStale id path) [] e
  | scanned {ids found ids' found' e} :
      Ran w c (.scan ids found) w [.scan ids' found'] e
  | found {ids found e} : Ran w c (.scan ids found) w (send found) e
  | sent {commands command n e} (hc : c = .index n) (h : commands[n]? = some command) :
      Ran w c (.pipeline commands) (w.command command) (send (commands.eraseIdx n)) e
  | refused {i e} (h : ∀ cs, i ≠ .pipeline cs) : Ran w c i w [] e

theorem exec_ran {w w' : World} {i : Instr} {c : Choice} {k : List Instr} {e : Linking}
    (h : exec w i c = some (w', k, e)) : Ran w c i w' k e := by
  cases i with
  | create id a streams =>
    dsimp only [exec] at h
    split at h <;> cases h
    · exact .created ‹_›
    · exact .refused (by simp)
  | read id streams =>
    dsimp only [exec] at h
    split at h <;> cases h
    · exact .refused (by simp)
    · exact .read ‹_›
  | link id a seen =>
    dsimp only [exec] at h
    split at h <;> cases h
    · exact .refused (by simp)
    · exact .refused (by simp)
    · rename_i hno hforbidden hlink
      refine .linked hlink ?_
      unfold linkStream at hlink
      cases hauth : (w.subs id).authorize a.expected with
      | noSub =>
        rw [hauth] at hlink
        exact absurd (Prod.mk.inj hlink).2.symm hno
      | forbidden =>
        rw [hauth] at hlink
        exact absurd (Prod.mk.inj hlink).2.symm hforbidden
      | matched => rfl
  | unlink id a =>
    dsimp only [exec] at h
    split at h <;> cases h
    · exact .unlinked ‹_› (by simp)
    · exact .unlinked ‹_› (by simp)
  | keys id expected =>
    dsimp only [exec] at h
    split at h
    · split at h <;> cases h
      exact .listed
    · cases h
  | delete id expected paths =>
    dsimp only [exec] at h
    split at h <;> cases h
    · exact .deleted ‹_›
    · exact .refused (by simp)
  | stale id path =>
    cases h
    exact .stale
  | scan ids found =>
    cases ids with
    | nil =>
      cases h
      exact .found
    | cons id ids =>
      dsimp only [exec] at h
      split at h
      · split at h <;> cases h
        exact .scanned
      · cases h
  | pipeline commands =>
    dsimp only [exec] at h
    split at h
    · rcases Option.map_eq_some_iff.mp h with ⟨command, hcommand, heq⟩
      cases heq
      exact .sent rfl hcommand
    · cases h

end Chronicle.Webhook
