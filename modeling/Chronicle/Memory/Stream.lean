import Chronicle.Store.Frames
import Chronicle.Store.Producer
import Chronicle.Store.WriteFence

/-! # One stream of the memory store

The part of each mutation that is decided on a single stream: the append ladder
below the write fence, the producer close, and the write-fence records.
-/

namespace Chronicle

structure MemoryStream where
  metadata : StreamMetadata
  messages : List Message := []
  seals : Bytes → Option WriteFenceSeal := fun _ => none
  bound : Bytes → ℤ := fun _ => 0
  lastFencedOff : Option Offset := none

namespace MemoryStream

/-- Add the messages of a body behind the tail. The tail itself is moved by the caller. -/
def appendToStream (st : MemoryStream) (data : Bytes) (allowEmpty : Bool) :
    Except StoreError (MemoryStream × Offset) :=
  match splitBody st.metadata.contentType data allowEmpty with
  | .error e => .error e
  | .ok ds =>
    .ok ({ st with messages := st.messages ++ layOut st.metadata.currentOffset ds },
      endOffset st.metadata.currentOffset ds)

/-- Record an accepted fenced-class write on a write-fenced stream. -/
def bind (st : MemoryStream) (fence : Option AppendFence) (producerId : Bytes) (off : Offset) :
    MemoryStream :=
  match fence with
  | none => st
  | some f =>
    if st.metadata.writeFence then
      { st with
        lastFencedOff := some off
        bound := Function.update st.bound producerId f.generation }
    else st

/-- Record the seal of an authority at the last fenced-class offset, or at the
tail when that class never wrote. -/
def recordSeal (st : MemoryStream) (authority : Bytes) (generation : ℤ) (wakeID : Bytes) :
    MemoryStream × WriteFenceSeal :=
  let off := st.lastFencedOff.getD st.metadata.currentOffset
  let sealed : WriteFenceSeal := ⟨generation, wakeID, off⟩
  ({ st with
      seals := Function.update st.seals authority (some sealed)
      metadata := { st.metadata with sealedGeneration := generation, sealedOffset := some off } },
    sealed)

def closedByRequest (st : MemoryStream) (p : ClosedByProducer) : Bool :=
  st.metadata.closedBy = some p

def touch (st : MemoryStream) (now : Time) : MemoryStream :=
  { st with metadata := { st.metadata with lastAccessedAt := now } }

/-- What producer validation hands to the rest of the ladder. -/
structure Admission where
  state : Option (Bytes × ProducerState) := none
  result : ProducerResult := .none
  lastSeq : ℤ := 0

/-- The producer table after an admitted request is committed. -/
def Admission.apply (adm : Admission) (producers : Bytes → Option ProducerState) :
    Bytes → Option ProducerState :=
  match adm.state with
  | none => producers
  | some (pid, ps) => Function.update producers pid (some ps)

/-- The producer rung: a refusal or a duplicate answers the request. -/
def admitProducer (st : MemoryStream) (opts : AppendOptions) (now : Time) :
    Except (AppendResult × Option StoreError) Admission :=
  match opts.producer with
  | none => .ok {}
  | some p =>
    match validateProducer (st.metadata.producers p.producerId) p.epoch p.seq now.unix with
    | (result, _, some e) => .error ({ result with offset := st.metadata.currentOffset }, some e)
    | (result, newState, none) =>
      if result.producerResult = .duplicate then
        .error ({ offset := st.metadata.currentOffset, producerResult := .duplicate,
                  lastSeq := result.lastSeq }, none)
      else
        .ok { state := newState.map fun ps => (p.producerId, ps)
              result := result.producerResult
              lastSeq := result.lastSeq }

/-- Whether the application sequence of a request conflicts with the last one. -/
def seqConflict (st : MemoryStream) (seq : Bytes) : Bool :=
  seq ≠ [] && st.metadata.lastSeq ≠ [] && Bytes.lexLe seq st.metadata.lastSeq

/-- The stream after an accepted append, once its messages have been added. -/
def commit (st : MemoryStream) (opts : AppendOptions) (adm : Admission) (newOffset : Offset) :
    MemoryStream :=
  let st := st.bind opts.fence opts.producerId newOffset
  let md := st.metadata
  { st with
    metadata :=
      { md with
        currentOffset := newOffset
        lastSeq := if opts.seq ≠ [] then opts.seq else md.lastSeq
        producers := adm.apply md.producers
        closed := md.closed || opts.close
        closedBy := if opts.close && opts.producer.isSome then opts.producer else md.closedBy } }

/-- The append ladder below the write fence: closed stream, content type,
producer, application sequence, body. -/
def append (st : MemoryStream) (touchedAt stampedAt : Time) (data : Bytes) (opts : AppendOptions) :
    MemoryStream × AppendResult × Option StoreError :=
  let st := st.touch touchedAt
  if st.metadata.closed then
    match opts.producer with
    | some p =>
      if st.closedByRequest p then
        (st, { offset := st.metadata.currentOffset, producerResult := .duplicate,
               lastSeq := p.seq, streamClosed := true }, none)
      else
        (st, { offset := st.metadata.currentOffset, streamClosed := true }, some .streamClosed)
    | none =>
      (st, { offset := st.metadata.currentOffset, streamClosed := true }, some .streamClosed)
  else if opts.contentType ≠ [] ∧ ¬ contentTypeMatches st.metadata.contentType opts.contentType then
    (st, {}, some .contentTypeMismatch)
  else
    match st.admitProducer opts stampedAt with
    | .error reply => (st, reply)
    | .ok adm =>
      if st.seqConflict opts.seq then (st, {}, some .sequenceConflict)
      else
        match st.appendToStream data false with
        | .error e => (st, {}, some e)
        | .ok (st, newOffset) =>
          (st.commit opts adm newOffset,
            { offset := newOffset, producerResult := adm.result, lastSeq := adm.lastSeq,
              streamClosed := opts.close },
            none)

def closeStream (st : MemoryStream) : MemoryStream × CloseResult :=
  ({ st with metadata := { st.metadata with closed := true } },
    { finalOffset := st.metadata.currentOffset, alreadyClosed := st.metadata.closed })

def closeStreamWithProducer (st : MemoryStream) (stampedAt : Time) (opts : CloseProducerOptions) :
    MemoryStream × CloseProducerResult × Option StoreError :=
  let off := st.metadata.currentOffset
  let request : ClosedByProducer := ⟨opts.producerId, opts.producerEpoch, opts.producerSeq⟩
  if st.metadata.closed then
    if st.closedByRequest request then
      (st, { finalOffset := off, producerResult := .duplicate, lastSeq := opts.producerSeq,
             streamClosed := true, alreadyClosed := true }, none)
    else
      (st, { finalOffset := off, streamClosed := true, alreadyClosed := true },
        some .streamClosed)
  else
    match validateProducer (st.metadata.producers opts.producerId) opts.producerEpoch
        opts.producerSeq stampedAt.unix with
    | (result, _, some e) =>
      (st, { finalOffset := off, producerResult := result.producerResult,
             currentEpoch := result.currentEpoch, expectedSeq := result.expectedSeq,
             receivedSeq := result.receivedSeq, lastSeq := result.lastSeq,
             streamClosed := st.metadata.closed }, some e)
    | (result, newState, none) =>
      if result.producerResult = .duplicate then
        (st, { finalOffset := off, producerResult := .duplicate, lastSeq := result.lastSeq,
               streamClosed := st.metadata.closed, alreadyClosed := st.metadata.closed }, none)
      else
        let md :=
          { st.metadata with
            producers := Function.update st.metadata.producers opts.producerId newState
            closed := true
            closedBy := some request }
        (({ st with metadata := md } : MemoryStream).bind opts.fence opts.producerId off,
          { finalOffset := off, producerResult := result.producerResult, lastSeq := result.lastSeq,
            streamClosed := true }, none)

end MemoryStream

end Chronicle
