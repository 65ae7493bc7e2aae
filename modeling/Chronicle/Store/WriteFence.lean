import Chronicle.Lib.Base64
import Chronicle.Store.Metadata

/-! # The write fence

The fence rung of the append ladder as a pure decision: claim markers and seals
of one authority for the fenced class, and bound producers for the open class.
-/

namespace Chronicle

inductive MarkerState where
  | live
  | revoked
  deriving DecidableEq, Repr

structure WriteFenceMarker where
  state : MarkerState
  generation : ℤ
  wakeID : Bytes
  holder : Bytes
  leaseUntilNs : ℤ
  streamIncarnation : Bytes
  deriving DecidableEq, Repr

structure WriteFenceSeal where
  generation : ℤ
  wakeID : Bytes
  offset : Offset
  deriving DecidableEq, Repr

/-- Everything the fence rung decides on; an absent fence is the open class. -/
structure WriteFenceInput where
  streamFenced : Bool
  streamIncarnation : Bytes
  fence : Option AppendFence
  marker : Option WriteFenceMarker := none
  lastSeal : Option WriteFenceSeal := none
  nowNs : ℤ
  hasProducer : Bool
  producerEpoch : ℤ := 0
  boundGeneration : ℤ := 0

structure WriteFenceOutcome where
  reason : FenceReason := .none
  generation : ℤ := 0
  holder : Bytes := []
  deriving DecidableEq, Repr

/-- A marker is live at an instant when it is unrevoked and its lease has not ended. -/
def WriteFenceMarker.liveAt (m : WriteFenceMarker) (nowNs : ℤ) : Bool :=
  m.state = .live && nowNs < m.leaseUntilNs

/-- Whether a marker names this claim on this stream incarnation, unrevoked and unexpired. -/
def WriteFenceMarker.admits (m : WriteFenceMarker) (f : AppendFence) (incarnation : Bytes)
    (nowNs : ℤ) : Bool :=
  m.state = .live && m.generation = f.generation && m.wakeID = f.wakeID && m.holder = f.holder &&
    nowNs < m.leaseUntilNs && m.streamIncarnation = incarnation

def fencedReason (i : WriteFenceInput) (f : AppendFence) : FenceReason :=
  if i.streamFenced && i.lastSeal.any (fun sl => f.generation ≤ sl.generation) then .sealed
  else if ¬ i.marker.any (·.admits f i.streamIncarnation i.nowNs) then .marker
  else if i.streamFenced && !i.hasProducer then .producerRequired
  else if i.streamFenced && i.producerEpoch ≠ f.generation then .epoch
  else .none

def evaluateWriteFence (i : WriteFenceInput) : WriteFenceOutcome :=
  match i.fence with
  | none =>
    { reason := if i.streamFenced && i.hasProducer && 0 < i.boundGeneration then .bound else .none
      generation := i.boundGeneration }
  | some f =>
    { reason := fencedReason i f
      generation :=
        match i.marker, i.lastSeal with
        | some m, _ => m.generation
        | none, some sl => sl.generation
        | none, none => 0
      holder :=
        match i.marker with
        | some m => if m.liveAt i.nowNs then m.holder else []
        | none => [] }

inductive SealOutcome where
  | sealed
  | already
  | stale
  | notFound
  | unfenced
  deriving DecidableEq, Repr

structure SealResult where
  outcome : SealOutcome
  generation : ℤ := 0
  finalOffset : Offset := zeroOffset
  deriving DecidableEq, Repr

/-- The identity shared by a claim's marker and its seal. -/
def fenceAuthority (f : AppendFence) : Bytes :=
  Base64.rawURL.encode (f.subscriptionID ++ [0] ++ f.subscriptionIncarnation) ++ [58] ++
    Decimal.formatInt f.shard

end Chronicle
