import Mathlib.Data.Finmap
import Chronicle.Memory.Stream

/-! # Reading across fork chains

A fork reads the messages of its source up to its fork offset and then its own.
The source is looked up by path at read time. The recursion follows the chain,
so it takes a bound on its depth and returns nothing when the bound is reached.
-/

namespace Chronicle

abbrev Streams := Finmap fun _ : Path => MemoryStream

def readOwnMessages (st : MemoryStream) (offset : Offset) (capAtOffset : Option Offset) :
    List Message :=
  (st.messages.filter fun m => offset.byteOffset < m.offset.byteOffset).takeWhile fun m =>
    capAtOffset.all fun c => m.offset.lessThanOrEqual c

def readForkedStream (streams : Streams) : ℕ → MemoryStream → Offset → Option (List Message)
  | 0, _, _ => none
  | n + 1, st, offset =>
    if st.metadata.forkedFrom = [] then some (readOwnMessages st offset none)
    else
      let inherited :=
        if offset.lessThan st.metadata.forkOffset then
          match streams.lookup st.metadata.forkedFrom with
          | some source =>
            (readForkedStream streams n source offset).map
              (List.filter fun m => m.offset.lessThanOrEqual st.metadata.forkOffset)
          | none => some []
        else some []
      inherited.map (· ++ readOwnMessages st offset none)

section Walk

variable {α : Type*} (visit : α → Message → α × Bool)

/-- Visit the messages of one stream in an interval of offsets, open below. -/
def walkOwnMessages (offset upper : Offset) : List Message → α → α × Bool
  | [], a => (a, true)
  | m :: ms, a =>
    if ¬ offset.lessThan m.offset then walkOwnMessages offset upper ms a
    else if upper.lessThan m.offset then (a, true)
    else
      match visit a m with
      | (a, true) => walkOwnMessages offset upper ms a
      | (a, false) => (a, false)

/-- Visit messages in the same order as `readForkedStream`, up to an inclusive
bound, until the visitor stops the walk. -/
def walkForkedMessages (streams : Streams) :
    ℕ → MemoryStream → Offset → Offset → α → Option (α × Bool)
  | 0, _, _, _, _ => none
  | n + 1, st, offset, upper, a =>
    let inherited :=
      if st.metadata.forkedFrom ≠ [] ∧ offset.lessThan st.metadata.forkOffset then
        match streams.lookup st.metadata.forkedFrom with
        | some source =>
          let sourceUpper :=
            if st.metadata.forkOffset.lessThan upper then st.metadata.forkOffset else upper
          walkForkedMessages streams n source offset sourceUpper a
        | none => some (a, true)
      else some (a, true)
    inherited.map fun
      | (a, true) => walkOwnMessages visit offset upper st.messages a
      | (a, false) => (a, false)

end Walk

/-- Resolve a sub-offset against a source: whole messages of a JSON stream move
the fork offset, bytes of a binary stream become the fork's first message. -/
def resolveForkSubOffset (streams : Streams) (depth : ℕ) (source : MemoryStream)
    (forkOffset : Offset) (subOffset : ℕ) : Option (Except StoreError (Offset × Bytes)) :=
  (readForkedStream streams depth source forkOffset).map fun sourceMessages =>
    if isJSONContentType source.metadata.contentType then
      match sourceMessages[subOffset - 1]? with
      | none => .error .invalidForkSubOffset
      | some m => .ok (m.offset, [])
    else
      match sourceMessages with
      | [] => .error .invalidForkSubOffset
      | first :: _ =>
        if first.data.length < subOffset then .error .invalidForkSubOffset
        else .ok (forkOffset, first.data.take subOffset)

end Chronicle
