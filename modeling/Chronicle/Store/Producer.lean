import Chronicle.Lib.Sequenced
import Chronicle.Store.Metadata

/-! # Idempotent producers

The producer state machine decides whether a request is new, a retry, or out
of order. A request is accepted exactly when its epoch and sequence number
follow the last accepted ones.
-/

namespace Chronicle

def ProducerState.entry (st : ProducerState) : ℤ × ℤ := (st.epoch, st.lastSeq)

/-- Apply the producer state machine to one request. The second component is
the state that the caller must persist. -/
def validateProducer (state : Option ProducerState) (epoch seq nowUnix : ℤ) :
    AppendResult × Option ProducerState × Option StoreError :=
  match state with
  | none =>
    if seq ≠ 0 then
      ({ expectedSeq := 0, receivedSeq := seq }, none, some .producerSeqGap)
    else
      ({ producerResult := .accepted, lastSeq := 0 }, some ⟨epoch, 0, nowUnix⟩, none)
  | some st =>
    if epoch < st.epoch then
      ({ currentEpoch := st.epoch }, none, some .staleEpoch)
    else if st.epoch < epoch then
      if seq ≠ 0 then ({}, none, some .invalidEpochSeq)
      else ({ producerResult := .accepted, lastSeq := 0 }, some ⟨epoch, 0, nowUnix⟩, none)
    else if seq ≤ st.lastSeq then
      ({ producerResult := .duplicate, lastSeq := st.lastSeq }, none, none)
    else if seq = st.lastSeq + 1 then
      ({ producerResult := .accepted, lastSeq := seq }, some ⟨epoch, seq, nowUnix⟩, none)
    else
      ({ expectedSeq := st.lastSeq + 1, receivedSeq := seq }, none, some .producerSeqGap)

/-- The three ways in which validation can end. -/
theorem validateProducer_cases (state : Option ProducerState) (epoch seq now : ℤ) :
    (∃ r e, validateProducer state epoch seq now = (r, none, some e) ∧
      r.producerResult = .none) ∨
    (∃ r, validateProducer state epoch seq now = (r, none, none) ∧
      r.producerResult = .duplicate) ∨
    (∃ r, validateProducer state epoch seq now = (r, some ⟨epoch, seq, now⟩, none) ∧
      r.producerResult = .accepted ∧
      Sequenced.Follows (state.map ProducerState.entry) (epoch, seq)) := by
  unfold validateProducer
  cases state with
  | none =>
    by_cases hs : seq = 0
    · subst hs
      exact .inr (.inr ⟨_, if_neg (by simp), rfl, rfl⟩)
    · exact .inl ⟨_, _, if_pos hs, rfl⟩
  | some st =>
    dsimp only
    split_ifs with hlt hgt hs hdup hnext
    · exact .inl ⟨_, _, rfl, rfl⟩
    · exact .inl ⟨_, _, rfl, rfl⟩
    · rw [not_not] at hs
      subst hs
      exact .inr (.inr ⟨_, rfl, rfl, .inr ⟨hgt, rfl⟩⟩)
    · exact .inr (.inl ⟨_, rfl, rfl⟩)
    · exact .inr (.inr ⟨_, rfl, rfl, .inl ⟨le_antisymm (not_lt.mp hgt) (not_lt.mp hlt), hnext⟩⟩)
    · exact .inl ⟨_, _, rfl, rfl⟩

end Chronicle
