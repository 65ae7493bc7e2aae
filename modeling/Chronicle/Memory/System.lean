import Chronicle.Memory.Operations
import Chronicle.Memory.Reads

/-! # Runs of the memory store

The calls of the store with their replies, as a labelled transition system.
-/

namespace Chronicle

inductive Call where
  | create (path : Path) (opts : CreateOptions)
  | get (path : Path)
  | has (path : Path)
  | delete (path : Path)
  | closeStream (path : Path)
  | closeStreamFenced (path : Path) (fence : AppendFence)
  | closeStreamWithProducer (path : Path) (opts : CloseProducerOptions)
  | append (path : Path) (data : Bytes) (opts : AppendOptions)
  | readPage (path : Path) (offset : Offset) (opts : ReadPageOptions)
  | read (path : Path) (offset : Offset)
  | grantAppendFence (path : Path) (fence : AppendFence)
  | revokeAppendFence (path : Path) (fence : AppendFence)
  | sealAppendFence (path : Path) (fence : AppendFence)

inductive Reply where
  | create (r : CreateResult)
  | get (r : Except StoreError StreamMetadata)
  | has (r : Bool)
  | delete (r : Option StoreError)
  | close (r : Option CloseResult) (err : Option StoreError)
  | closeProducer (r : Option CloseProducerResult) (err : Option StoreError)
  | append (r : AppendResult) (err : Option StoreError)
  | readPage (r : Except StoreError ReadPage)
  | read (r : Except StoreError (List Message × Bool))
  | grant (r : Except StoreError Bool)
  | revoke (r : Option StoreError)
  | sealFence (r : Except StoreError SealResult)

/-- Whether a call carries, or may carry, producer headers. -/
def Call.request : Call → Bool
  | .append .. => true
  | .closeStreamWithProducer .. => true
  | _ => false

def Env.frozen (now : Time) : Env where
  clock _ := now
  wall _ := now
  incarnation := some [105]
  equalFold := Chronicle.equalFold
  fuel := 8

/-- One call with its environment and its reply. -/
structure Event where
  env : Env
  call : Call
  reply : Reply

namespace Event

def created (e : Event) : Option Path :=
  match e.call, e.reply with
  | .create path _, .create (.ok (_, true)) => some path
  | _, _ => none

def accepted (e : Event) : Option (Path × ClosedByProducer) :=
  match e.call, e.reply with
  | .append path _ opts, .append r _ =>
    if r.producerResult = .accepted then opts.producer.map (path, ·) else none
  | .closeStreamWithProducer path opts, .closeProducer (some r) _ =>
    if r.producerResult = .accepted then
      some (path, ⟨opts.producerId, opts.producerEpoch, opts.producerSeq⟩)
    else none
  | _, _ => none

def acceptedOn (p : Path) (e : Event) : Option ClosedByProducer :=
  e.accepted.bind fun (q, r) => if q = p then some r else none

def duplicate (e : Event) : Bool :=
  match e.reply with
  | .append r _ => r.producerResult = .duplicate
  | .closeProducer (some r) _ => r.producerResult = .duplicate
  | _ => false

/-- The body of an append that succeeded and was no retry. -/
def written (e : Event) : Option (Path × Bytes) :=
  match e.call, e.reply with
  | .append path data _, .append r none =>
    if r.producerResult = .duplicate then none else some (path, data)
  | _, _ => none

end Event

namespace MemoryStore

def exec (s : MemoryStore) (env : Env) : Call → Option (MemoryStore × Reply)
  | .create path opts => (s.create env path opts).map fun (s, r) => (s, .create r)
  | .get path => some (s, .get (s.get env path))
  | .has path => some (s, .has (s.has env path))
  | .delete path =>
    let result := s.delete path
    some (result.1, .delete result.2)
  | .closeStream path =>
    let result := s.closeStream env path none
    some (result.1, .close result.2.1 result.2.2)
  | .closeStreamFenced path fence =>
    let result := s.closeStreamFenced env path fence
    some (result.1, .close result.2.1 result.2.2)
  | .closeStreamWithProducer path opts =>
    let result := s.closeStreamWithProducer env path opts
    some (result.1, .closeProducer result.2.1 result.2.2)
  | .append path data opts =>
    let result := s.append env path data opts
    some (result.1, .append result.2.1 result.2.2)
  | .readPage path offset opts =>
    (s.readPage env.fuel (env.clock 0) (env.clock 1) path offset opts).map fun (s, r) =>
      (s, .readPage r)
  | .read path offset => (s.read env path offset).map fun (s, r) => (s, .read r)
  | .grantAppendFence path fence =>
    let result := s.grantAppendFence env path fence
    some (result.1, .grant result.2)
  | .revokeAppendFence path fence =>
    let result := s.revokeAppendFence env path fence
    some (result.1, .revoke result.2)
  | .sealAppendFence path fence =>
    let result := s.sealAppendFence env path fence
    some (result.1, .sealFence result.2)

def Step (s : MemoryStore) (e : Event) (s' : MemoryStore) : Prop :=
  s.exec e.env e.call = some (s', e.reply)

/-- The operation that a step has run, with what it gave. -/
inductive Ran (s : MemoryStore) : Event → MemoryStore → Prop
  | create {env path opts s' r} (h : s.create env path opts = some (s', r)) :
      Ran s ⟨env, .create path opts, .create r⟩ s'
  | get {env path} : Ran s ⟨env, .get path, .get (s.get env path)⟩ s
  | has {env path} : Ran s ⟨env, .has path, .has (s.has env path)⟩ s
  | delete {env path} : Ran s ⟨env, .delete path, .delete (s.delete path).2⟩ (s.delete path).1
  | closeStream {env path s' r err} (h : s.closeStream env path none = (s', r, err)) :
      Ran s ⟨env, .closeStream path, .close r err⟩ s'
  | closeStreamFenced {env path fence s' r err}
      (h : s.closeStreamFenced env path fence = (s', r, err)) :
      Ran s ⟨env, .closeStreamFenced path fence, .close r err⟩ s'
  | closeStreamWithProducer {env path opts s' r err}
      (h : s.closeStreamWithProducer env path opts = (s', r, err)) :
      Ran s ⟨env, .closeStreamWithProducer path opts, .closeProducer r err⟩ s'
  | append {env path data opts s' r err} (h : s.append env path data opts = (s', r, err)) :
      Ran s ⟨env, .append path data opts, .append r err⟩ s'
  | readPage {env path offset opts s' r}
      (h : s.readPage env.fuel (env.clock 0) (env.clock 1) path offset opts = some (s', r)) :
      Ran s ⟨env, .readPage path offset opts, .readPage r⟩ s'
  | read {env path offset s' r} (h : s.read env path offset = some (s', r)) :
      Ran s ⟨env, .read path offset, .read r⟩ s'
  | grantAppendFence {env path fence s' r} (h : s.grantAppendFence env path fence = (s', r)) :
      Ran s ⟨env, .grantAppendFence path fence, .grant r⟩ s'
  | revokeAppendFence {env path fence s' r} (h : s.revokeAppendFence env path fence = (s', r)) :
      Ran s ⟨env, .revokeAppendFence path fence, .revoke r⟩ s'
  | sealAppendFence {env path fence s' r} (h : s.sealAppendFence env path fence = (s', r)) :
      Ran s ⟨env, .sealAppendFence path fence, .sealFence r⟩ s'

theorem Step.ran {s s' : MemoryStore} {e : Event} (h : Step s e s') : Ran s e s' := by
  rcases e with ⟨env, call, reply⟩
  change s.exec env call = some (s', reply) at h
  cases call with
  | create =>
    obtain ⟨⟨s₁, r⟩, hr, heq⟩ := Option.map_eq_some_iff.mp h
    cases heq
    exact .create hr
  | get => cases h; exact .get
  | has => cases h; exact .has
  | delete => cases h; exact .delete
  | closeStream => cases h; exact .closeStream rfl
  | closeStreamFenced => cases h; exact .closeStreamFenced rfl
  | closeStreamWithProducer => cases h; exact .closeStreamWithProducer rfl
  | append => cases h; exact .append rfl
  | readPage =>
    obtain ⟨⟨s₁, r⟩, hr, heq⟩ := Option.map_eq_some_iff.mp h
    cases heq
    exact .readPage hr
  | read =>
    obtain ⟨⟨s₁, r⟩, hr, heq⟩ := Option.map_eq_some_iff.mp h
    cases heq
    exact .read hr
  | grantAppendFence => cases h; exact .grantAppendFence rfl
  | revokeAppendFence => cases h; exact .revokeAppendFence rfl
  | sealAppendFence => cases h; exact .sealAppendFence rfl

abbrev Run : List Event → MemoryStore → Prop := Trace.Run Step empty

/-- Steps that meet a condition on the state before them. -/
def Guarded (P : MemoryStore → Event → Bool) (s : MemoryStore) (e : Event) (s' : MemoryStore) :
    Prop :=
  Step s e s' ∧ P s e

/-- Run calls one after another as long as their steps meet a condition. -/
def execGuarded (P : MemoryStore → Event → Bool) (s : MemoryStore) :
    List (Env × Call) → Option (List Event × MemoryStore)
  | [] => some ([], s)
  | (env, call) :: calls =>
    match s.exec env call with
    | none => none
    | some (s', reply) =>
      if P s ⟨env, call, reply⟩ then
        (execGuarded P s' calls).map fun (events, s'') => (⟨env, call, reply⟩ :: events, s'')
      else none

variable {P : MemoryStore → Event → Bool} {calls : List (Env × Call)}

theorem execGuarded_run {s₀ s s' : MemoryStore}
    {h events : List Event}
    (hrun : Trace.Run (Guarded P) s₀ h s) (hexec : s.execGuarded P calls = some (events, s')) :
    Trace.Run (Guarded P) s₀ (h ++ events) s' := by
  induction calls generalizing h s events with
  | nil =>
    cases hexec
    simpa using hrun
  | cons c calls ih =>
    obtain ⟨env, call⟩ := c
    unfold execGuarded at hexec
    split at hexec
    · cases hexec
    · rename_i s₁ reply hcall
      split at hexec
      · rename_i hP
        obtain ⟨⟨events', s₂⟩, htail, heq⟩ := Option.map_eq_some_iff.mp hexec
        cases heq
        have hstep : Guarded P s ⟨env, call, reply⟩ s₁ := ⟨hcall, hP⟩
        simpa using ih (hrun.snoc hstep) htail
      · cases hexec

def ran (P : MemoryStore → Event → Bool) (calls : List (Env × Call))
    (h : (empty.execGuarded P calls).isSome) : List Event × MemoryStore :=
  (empty.execGuarded P calls).get h

theorem ran_guarded (h : (empty.execGuarded P calls).isSome) :
    Trace.Run (Guarded P) empty (ran P calls h).1 (ran P calls h).2 :=
  execGuarded_run .nil (Option.some_get h).symm

theorem ran_run (h : (empty.execGuarded P calls).isSome) : Run (ran P calls h).1 (ran P calls h).2
    :=
  (ran_guarded h).mono fun _ _ _ hstep => hstep.1

end MemoryStore

end Chronicle
