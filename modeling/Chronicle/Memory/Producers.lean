import Chronicle.Memory.Step

/-! # Exactly-once producers

Within one lifetime of a path, the requests accepted under each producer form a
sequenced log, whose last entry is what the producer table holds. Retries and
refusals leave every message and every tail as they were.
-/

namespace Chronicle

variable {s s' : Streams} {e : Event} {p q : Path}

theorem Event.acceptedOn_map {acc : Option ClosedByProducer} (ha : e.accepted = acc.map (q, ·)) :
    e.acceptedOn p = if q = p then acc else none := by
  unfold Event.acceptedOn
  rw [ha]
  cases acc <;> simp

theorem Event.acceptedOn_create {path : Path} {opts : CreateOptions}
    (h : e.call = .create path opts) : e.acceptedOn p = none := by
  simp [Event.acceptedOn, Event.accepted, h]

theorem Event.acceptedOn_delete {path : Path} (h : e.call = .delete path) :
    e.acceptedOn p = none := by
  simp [Event.acceptedOn, Event.accepted, h]

theorem Change.producers (h : Change s e s') {st' : MemoryStream} (hp : s'.lookup p = some st')
    (hc : e.created ≠ some p) :
    ∃ st, s.lookup p = some st ∧
      ProducerUpdate st.metadata.producers st'.metadata.producers (e.acceptedOn p) := by
  cases h with
  | same _ ha =>
    refine ⟨st', hp, ?_⟩
    rw [Event.acceptedOn, ha]
    rfl
  | @update q st _ acc _ hq hu _ ha =>
    rw [Event.acceptedOn_map ha]
    obtain ⟨rfl, rfl⟩ | ⟨hne, hp⟩ := lookup_of_lookup_insert hp
    · exact ⟨st, hq, by simpa using hu.producers⟩
    · exact ⟨st', hp, by rw [if_neg hne.symm]; rfl⟩
  | discard hcall =>
    rw [Event.acceptedOn_create hcall]
    exact ⟨st', (lookup_of_lookup_erase hp).2, rfl⟩
  | plain hcall _ hcr =>
    rw [Event.acceptedOn_create hcall]
    obtain ⟨rfl, rfl⟩ | ⟨-, hp⟩ := lookup_of_lookup_insert hp
    · exact absurd hcr hc
    · exact ⟨st', hp, rfl⟩
  | fork hcall _ hcr _ _ hsource =>
    rw [Event.acceptedOn_create hcall]
    obtain ⟨rfl, rfl⟩ | ⟨-, hp⟩ := lookup_of_lookup_insert hp
    · exact absurd hcr hc
    · obtain ⟨rfl, rfl⟩ | ⟨-, hp⟩ := lookup_of_lookup_insert hp
      · exact ⟨_, hsource, rfl⟩
      · exact ⟨st', hp, rfl⟩
  | delete hcall =>
    rw [Event.acceptedOn_delete hcall]
    obtain ⟨st, rc, hst, rfl⟩ := (deletes_cascade _ _ _ le_rfl).recounted p st' hp
    exact ⟨st, hst, rfl⟩

theorem Change.accepted_present (h : Change s e s') (hp : s'.lookup p = none) :
    e.acceptedOn p = none := by
  cases h with
  | same _ ha => rw [Event.acceptedOn, ha]; rfl
  | update _ _ _ ha =>
    rw [Event.acceptedOn_map ha, if_neg]
    rintro rfl
    simp at hp
  | discard hcall => exact Event.acceptedOn_create hcall
  | plain hcall => exact Event.acceptedOn_create hcall
  | fork hcall => exact Event.acceptedOn_create hcall
  | delete hcall => exact Event.acceptedOn_delete hcall

section Log

def accepted (p : Path) (h : List Event) : List ClosedByProducer :=
  h.filterMap (Event.acceptedOn p)

def ClosedByProducer.keyed (r : ClosedByProducer) : Bytes × ℤ × ℤ := (r.producerId, r.entry)

def entriesOf (pid : Bytes) (log : List ClosedByProducer) : List (ℤ × ℤ) :=
  Sequenced.forKey pid (log.map ClosedByProducer.keyed)

theorem accepted_snoc (p : Path) (h : List Event) (e : Event) :
    accepted p (h ++ [e]) = accepted p h ++ (e.acceptedOn p).toList := by
  cases he : e.acceptedOn p <;> simp [accepted, he]

theorem entriesOf_snoc_self (r : ClosedByProducer) (log : List ClosedByProducer) :
    entriesOf r.producerId (log ++ [r]) = entriesOf r.producerId log ++ [r.entry] := by
  rw [entriesOf, List.map_append]
  exact Sequenced.forKey_snoc_self _ _ _

theorem entriesOf_snoc_ne {pid : Bytes} {r : ClosedByProducer} (h : r.producerId ≠ pid)
    (log : List ClosedByProducer) : entriesOf pid (log ++ [r]) = entriesOf pid log := by
  rw [entriesOf, List.map_append]
  exact Sequenced.forKey_snoc_ne h _ _

/-- No request is accepted twice, the epochs of a producer do not decrease, and
the sequence numbers of each of its epochs are `0, 1, 2, …`. -/
structure ExactlyOnce (log : List ClosedByProducer) : Prop where
  nodup : log.Nodup
  epochs : ∀ pid, (entriesOf pid log).Pairwise (·.1 ≤ ·.1)
  seqs : ∀ pid epoch, ∃ n, Sequenced.seqs epoch (entriesOf pid log) = Sequenced.firstSeqs n

variable {log : List ClosedByProducer}

theorem exactlyOnce_of_sequenced (h : ∀ pid, Sequenced.Log (entriesOf pid log)) : ExactlyOnce log :=
  ⟨(Sequenced.nodup_of_forKey fun pid => (h pid).nodup).of_map _,
    fun pid => (h pid).pairwise_epoch, fun pid => (h pid).exists_seqs⟩

/-- The log of a lifetime is sequenced and agrees with the producer table. -/
structure LogInvariant (p : Path) (log : List ClosedByProducer) (s : Streams) : Prop where
  sequenced : ∀ pid, Sequenced.Log (entriesOf pid log)
  table : ∀ st, s.lookup p = some st → ∀ pid,
    (st.metadata.producers pid).map ProducerState.entry = (entriesOf pid log).getLast?

theorem LogInvariant.step (hi : LogInvariant p log s)
    (h : Change s e s') (hc : e.created ≠ some p) :
    LogInvariant p (log ++ (e.acceptedOn p).toList) s' := by
  cases hp : s'.lookup p with
  | none =>
    rw [h.accepted_present hp]
    exact ⟨by simpa using hi.sequenced, by simp [hp]⟩
  | some st' =>
    obtain ⟨st, hst, hu⟩ := h.producers hp hc
    have htable := hi.table st hst
    cases hacc : e.acceptedOn p with
    | none =>
      rw [hacc] at hu
      have hprod : st'.metadata.producers = st.metadata.producers := hu
      exact ⟨by simpa using hi.sequenced, by simpa [hp, hprod] using htable⟩
    | some r =>
      rw [hacc] at hu
      obtain ⟨hf, ps, hps, hprod⟩ := hu
      rw [htable] at hf
      constructor
      · intro pid
        by_cases hpid : r.producerId = pid
        · subst hpid
          simpa only [Option.toList_some, entriesOf_snoc_self] using (hi.sequenced _).snoc hf
        · simpa only [Option.toList_some, entriesOf_snoc_ne hpid] using hi.sequenced pid
      · rw [hp]
        rintro _ ⟨rfl⟩ pid
        rw [hprod]
        by_cases hpid : r.producerId = pid
        · subst hpid
          simp only [Option.toList_some, entriesOf_snoc_self, Function.update_self,
            Option.map_some, hps, List.getLast?_concat]
        · simpa only [Option.toList_some, entriesOf_snoc_ne hpid,
            Function.update_of_ne (Ne.symm hpid)] using htable pid

theorem LogInvariant.fresh {st : MemoryStream} (hp : s.lookup p = some st)
    (hst : st.metadata.producers = fun _ => none) : LogInvariant p [] s := by
  refine ⟨fun _ => .nil, ?_⟩
  rw [hp]
  rintro _ ⟨rfl⟩ pid
  rw [hst]
  rfl

theorem Change.created_producers (h : Change s e s') (hc : e.created = some p) :
    ∃ st, s'.lookup p = some st ∧ st.metadata.producers = fun _ => none := by
  cases h with
  | same hn | update _ _ hn | discard _ _ _ hn => simp [hn] at hc
  | plain _ _ hc' hst =>
    rw [hc'] at hc
    cases hc
    exact ⟨_, Finmap.lookup_insert _, hst.producers⟩
  | fork _ _ hc' _ _ _ _ _ hst =>
    rw [hc'] at hc
    cases hc
    exact ⟨_, Finmap.lookup_insert _, hst.producers⟩
  | delete hcall => simp [Event.created, hcall] at hc

/-- The events after a creation of a path, up to its next creation at most. -/
def Lifetime (p : Path) (h life : List Event) : Prop :=
  ∃ before c after, h = before ++ [c] ++ (life ++ after) ∧ c.created = some p ∧
    ∀ e ∈ life, e.created ≠ some p

theorem LogInvariant.run {s₁ s₂ : MemoryStore} {life : List Event}
    (hi : LogInvariant p [] s₁.streams) (hrun : Trace.Run MemoryStore.Step s₁ life s₂)
    (hlife : ∀ e ∈ life, e.created ≠ some p) : LogInvariant p (accepted p life) s₂.streams := by
  induction hrun with
  | nil => exact hi
  | snoc _ hst ih =>
    rw [accepted_snoc]
    exact (ih fun e he => hlife e (by simp [he])).step (MemoryStore.step_change hst)
      (hlife _ (by simp))

theorem lifetime_exactlyOnce {h life : List Event} {s : MemoryStore} (hrun : MemoryStore.Run h s)
    (hlife : Lifetime p h life) : ExactlyOnce (accepted p life) := by
  obtain ⟨before, c, after, rfl, hc, hlife⟩ := hlife
  obtain ⟨s₁, hbefore, hafter⟩ := hrun.split
  obtain ⟨s₀, -, hstep⟩ := hbefore.last
  obtain ⟨s₂, hlife', -⟩ := hafter.split
  obtain ⟨st, hp, hst⟩ := (MemoryStore.step_change hstep).created_producers hc
  exact exactlyOnce_of_sequenced ((LogInvariant.fresh hp hst).run hlife' hlife).sequenced

end Log

section Contents

namespace MemoryStore

variable {s s' : MemoryStore} {h : List Event}

def contents (s : MemoryStore) (p : Path) : Option (List Message × Offset) :=
  (s.streams.lookup p).map fun st => (st.messages, st.metadata.currentOffset)

theorem duplicate_request (h : Step s e s') (hd : e.duplicate) : e.call.request := by
  cases h.ran with
  | append | closeStreamWithProducer => rfl
  | create | get | has | delete | closeStream | closeStreamFenced | readPage | read
  | grantAppendFence | revokeAppendFence | sealAppendFence => cases hd

theorem written_of_duplicate (hd : e.duplicate) : e.written = none := by
  unfold Event.written
  split
  · rename_i hr
    simpa [Event.duplicate, hr] using hd
  · rfl

theorem contents_of_not_written (h : Step s e s') (hr : e.call.request) (hw : e.written = none)
    (q : Path) : s'.contents q = s.contents q := by
  have hchange := step_change h
  unfold contents
  generalize s'.streams = t at hchange
  cases hchange with
  | same => rfl
  | @update p st ds acc st' hp hu _ _ hwr =>
    have hds : ds = [] := by
      cases hwr with
      | nothing => rfl
      | body _ hw' => simp [hw'] at hw
    subst hds
    by_cases hq : q = p
    · subst hq
      simp [hp, hu.messages, hu.tail]
    · rw [Finmap.lookup_insert_of_ne _ hq]
  | discard hcall | plain hcall | fork hcall | delete hcall => simp [Call.request, hcall] at hr

theorem written_of_not_accepted (h : Step s e s') {data : Bytes} {opts : AppendOptions}
    (hcall : e.call = .append p data opts) (hp : opts.producer.isSome) (ha : e.accepted = none) :
    e.written = none := by
  have hchange := step_change h
  generalize s'.streams = t at hchange
  cases hchange with
  | same _ _ hw => exact hw
  | update _ _ _ ha' hw =>
    cases hw with
    | nothing hw => exact hw
    | body hcall' =>
      rw [hcall] at hcall'
      cases hcall'
      rw [ha'] at ha
      simp_all
  | discard hcall' | plain hcall' | fork hcall' | delete hcall' => simp [hcall] at hcall'

/-- Exactly-once producers. In every run, the requests accepted in a lifetime of
a path are exactly-once, and a call that answers a retry, or an append under a
producer that is not accepted, leaves all messages and tails as they were. -/
theorem producers_exactly_once (hrun : Run h s) :
    (∀ p life, Lifetime p h life → ExactlyOnce (accepted p life)) ∧
    (∀ e s', Step s e s' → e.duplicate → ∀ q, s'.contents q = s.contents q) ∧
    (∀ e s' p data opts, Step s e s' → e.call = .append p data opts → opts.producer.isSome →
      e.accepted = none → ∀ q, s'.contents q = s.contents q) := by
  refine ⟨fun p life => lifetime_exactlyOnce hrun, ?_, ?_⟩
  · intro e s' hstep hd q
    exact contents_of_not_written hstep (duplicate_request hstep hd) (written_of_duplicate hd) q
  · intro e s' p data opts hstep hcall hp ha q
    exact contents_of_not_written hstep (by simp [hcall, Call.request])
      (written_of_not_accepted hstep hcall hp ha) q

def retryCalls : List (Env × Call) :=
  let opts : AppendOptions :=
    { producerId := [112], producerEpoch := some 1, producerSeq := some 0 }
  [(.frozen 0, .create [97] {}), (.frozen 1, .append [97] [1, 2] opts),
    (.frozen 2, .append [97] [1, 2] opts),
    (.frozen 3, .closeStreamWithProducer [97] ⟨[112], 1, 1, none⟩)]

theorem retryCalls_run : (empty.execGuarded (fun _ _ => true) retryCalls).isSome := by decide

theorem producers_exactly_once_retry :
    ∃ h s, Run h s ∧ Lifetime [97] h h.tail ∧ h.any Event.duplicate ∧
      accepted [97] h.tail = [⟨[112], 1, 0⟩, ⟨[112], 1, 1⟩] ∧ ExactlyOnce (accepted [97] h.tail) := by
  have hlife : Lifetime [97] (ran _ retryCalls retryCalls_run).1
      (ran _ retryCalls retryCalls_run).1.tail :=
    ⟨[], (ran _ retryCalls retryCalls_run).1.head (by decide), [], by simp, by decide, by decide⟩
  exact ⟨_, _, ran_run retryCalls_run, hlife, by decide, by decide,
    (producers_exactly_once (ran_run retryCalls_run)).1 _ _ hlife⟩

end MemoryStore

end Contents

end Chronicle
