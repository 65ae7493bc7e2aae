import Chronicle.Lib.Greedy
import Chronicle.Memory.ForkGraph

/-! # Visible messages

The messages a reader can see of a stream: those of its source up to the fork
offset, and then its own. The walk of a page visits exactly the visible
messages in its interval. An append changes what is visible of its own stream
only, as long as no fork offset lies beyond the tail it appends to.
-/

namespace Chronicle

variable {s s' : Streams} {e : Event} {p q x : Path} {st st' : MemoryStream}

def visible (streams : Streams) : ℕ → MemoryStream → Option (List Message)
  | 0, _ => none
  | n + 1, st =>
    if st.metadata.forkedFrom = [] then some st.messages
    else
      match streams.lookup st.metadata.forkedFrom with
      | none => some st.messages
      | some source =>
        (visible streams n source).map fun inherited =>
          inherited.filter (fun m => m.offset ≤ st.metadata.forkOffset) ++ st.messages

section Layout

/-- The messages of a stream lie end to end between its fork offset and its
tail, in the first read sequence. -/
def MemoryStream.Laid (st : MemoryStream) : Prop :=
  st.metadata.forkOffset.readSeq = 0 ∧
  ∃ ds, (∀ d ∈ ds, d ≠ []) ∧ st.messages = layOut st.metadata.forkOffset ds ∧
    st.metadata.currentOffset = endOffset st.metadata.forkOffset ds

def LaidOut (s : Streams) : Prop := ∀ p st, s.lookup p = some st → st.Laid

namespace MemoryStream

theorem Laid.sorted (h : st.Laid) : st.messages.Pairwise (·.offset < ·.offset) := by
  obtain ⟨-, ds, hds, hm, -⟩ := h
  rw [hm]
  exact layOut_sorted hds

theorem Laid.forkOffset_lt (h : st.Laid) {m : Message} (hm : m ∈ st.messages) :
    st.metadata.forkOffset < m.offset := by
  obtain ⟨-, ds, hds, hmsg, -⟩ := h
  exact base_lt_layOut hds (hmsg ▸ hm)

theorem Laid.le_tail (h : st.Laid) {m : Message} (hm : m ∈ st.messages) :
    m.offset ≤ st.metadata.currentOffset := by
  obtain ⟨-, ds, -, hmsg, htail⟩ := h
  rw [htail]
  exact layOut_le (hmsg ▸ hm)

theorem Laid.forkOffset_le (h : st.Laid) : st.metadata.forkOffset ≤ st.metadata.currentOffset := by
  obtain ⟨-, ds, -, -, htail⟩ := h
  rw [htail]
  exact le_endOffset _ _

theorem Laid.tail_readSeq (h : st.Laid) : st.metadata.currentOffset.readSeq = 0 := by
  obtain ⟨hseq, ds, -, -, htail⟩ := h
  rw [htail, endOffset_readSeq, hseq]

theorem Laid.update {ds : List Bytes} {acc : Option ClosedByProducer} (h : st.Laid)
    (hu : st.Update ds acc st') (hds : ∀ d ∈ ds, d ≠ []) : st'.Laid := by
  obtain ⟨hseq, ds₀, hds₀, hm, ht⟩ := h
  refine ⟨hu.forkOffset ▸ hseq, ds₀ ++ ds, ?_, ?_, ?_⟩
  · simpa [or_imp, forall_and] using ⟨hds₀, hds⟩
  · rw [hu.messages, hm, ht, hu.forkOffset, layOut_append]
  · rw [hu.tail, ht, hu.forkOffset, endOffset_append]

theorem Laid.tiles (h : st.Laid) :
    Tiles st.metadata.forkOffset st.metadata.currentOffset st.messages := by
  obtain ⟨-, ds, hds, hmsg, htail⟩ := h
  rw [hmsg, htail]
  exact tiles_layOut hds

theorem Laid.recount (h : st.Laid) (rc : Int32) : (MemoryStore.setRefCount st rc).Laid := h

theorem Fresh.laid {src : Path} {base : Offset} {ds : List Bytes} (h : st.Fresh src base ds)
    (hbase : base.readSeq = 0) : st.Laid :=
  ⟨by rw [h.forkOffset, hbase], ds, h.nonempty, by rw [h.messages, h.forkOffset],
    by rw [h.tail, h.forkOffset]⟩

end MemoryStream

theorem LaidOut.insert (h : LaidOut s) (hst : st.Laid) : LaidOut (s.insert p st) := by
  intro q st' hq
  obtain ⟨rfl, rfl⟩ | ⟨-, hq⟩ := lookup_of_lookup_insert hq
  · exact hst
  · exact h q st' hq

theorem LaidOut.erase (h : LaidOut s) (p : Path) : LaidOut (s.erase p) :=
  fun q st hq => h q st (lookup_of_lookup_erase hq).2

theorem readForkedStream_le {n : ℕ} {offset : Offset} {l : List Message}
    (hst : st.Laid) (hl : readForkedStream s n st offset = some l) :
    ∀ m ∈ l, m.offset ≤ st.metadata.currentOffset := by
  have hown : ∀ m ∈ readOwnMessages st offset none, m.offset ≤ st.metadata.currentOffset := by
    intro m hm
    exact hst.le_tail (List.mem_of_mem_filter ((List.takeWhile_sublist _).subset hm))
  cases n with
  | zero => cases hl
  | succ n =>
    unfold readForkedStream at hl
    split at hl
    · cases hl
      exact hown
    · obtain ⟨inherited, hinh, rfl⟩ := Option.map_eq_some_iff.mp hl
      intro m hm
      rw [List.mem_append] at hm
      obtain hm | hm := hm
      · split at hinh
        · split at hinh
          · obtain ⟨l', -, rfl⟩ := Option.map_eq_some_iff.mp hinh
            rw [List.mem_filter, Offset.lessThanOrEqual_iff] at hm
            exact hm.2.trans hst.forkOffset_le
          · cases hinh
            cases hm
        · cases hinh
          cases hm
      · exact hown m hm

/-- A resolved fork offset does not exceed the tail of the source. -/
theorem resolveFork_le {n : ℕ} {requested forkOffset : Offset}
    {sub : Option ℕ} {pfx : Bytes} (hst : st.Laid)
    (hreq : requested ≤ st.metadata.currentOffset)
    (hres : MemoryStore.resolveFork s n st requested sub = some (.ok (forkOffset, pfx))) :
    forkOffset ≤ st.metadata.currentOffset := by
  unfold MemoryStore.resolveFork at hres
  split at hres
  · cases hres; exact hreq
  · cases hres; exact hreq
  · obtain ⟨l, hl, heq⟩ := Option.map_eq_some_iff.mp hres
    split at heq
    · split at heq
      · cases heq
      · rename_i m hm
        cases heq
        exact readForkedStream_le hst hl m (List.mem_of_getElem? hm)
    · split at heq
      · cases heq
      · split at heq <;> cases heq
        exact hreq

theorem readSeq_of_le {a b : Offset} (h : a ≤ b) (hb : b.readSeq = 0) : a.readSeq = 0 := by
  rw [Offset.le_def] at h
  omega

def appendsData (e : Event) : Bool :=
  match e.call with
  | .append _ data _ => data ≠ []
  | _ => true

theorem Writes.nonempty {ds : List Bytes} {acc : Option ClosedByProducer}
    (h : Writes e p st ds acc) (hdata : appendsData e) : ∀ d ∈ ds, d ≠ [] := by
  cases h with
  | nothing => simp
  | body hcall _ hds =>
    refine splitBody_ne_nil hds ?_
    simpa [appendsData, hcall] using hdata

theorem Change.laidOut (hchange : Change s e s') (h : LaidOut s) (hdata : appendsData e) :
    LaidOut s' := by
  cases hchange with
  | same => exact h
  | update hp hu _ _ hw => exact h.insert ((h _ _ hp).update hu (hw.nonempty hdata))
  | discard => exact h.erase _
  | plain _ _ _ hst => exact h.insert (hst.laid rfl)
  | fork _ _ _ _ _ hsource hreq hres hst =>
    have hle := resolveFork_le (h _ _ hsource) hreq hres
    exact LaidOut.insert (h.insert ((h _ _ hsource).recount _))
      (hst.laid (readSeq_of_le hle (h _ _ hsource).tail_readSeq))
  | delete =>
    intro q st hq
    obtain ⟨st, rc, hst, rfl⟩ := (deletes_cascade _ _ _ le_rfl).recounted q st hq
    exact (h q st hst).recount rc

end Layout

section Walk

variable {α : Type*} (visit : α → Message → α × Bool)

/-- Whether an offset lies in an interval that is open below. -/
def inRange (offset upper : Offset) (m : Message) : Bool := offset < m.offset ∧ m.offset ≤ upper

theorem filter_inRange_eq_nil {offset upper : Offset} (h : ¬ offset < upper) (l : List Message) :
    l.filter (inRange offset upper) = [] := by
  rw [List.filter_eq_nil_iff]
  intro m _
  have : ¬ (offset < m.offset ∧ m.offset ≤ upper) := fun hm => h (hm.1.trans_le hm.2)
  simpa [inRange] using this

theorem walkOwnMessages_eq (offset upper : Offset) {l : List Message}
    (h : l.Pairwise (·.offset < ·.offset)) (a : α) :
    walkOwnMessages visit offset upper l a =
      Greedy.scan visit (l.filter (inRange offset upper)) a := by
  induction l generalizing a with
  | nil => rfl
  | cons m l ih =>
    obtain ⟨hm, hl⟩ := List.pairwise_cons.mp h
    rw [walkOwnMessages]
    split
    · rename_i hlow
      have : inRange offset upper m = false := by simp_all [inRange]
      rw [List.filter_cons_of_neg (by simp [this]), ih hl]
    · split
      · rename_i hup
        have hnil : (m :: l).filter (inRange offset upper) = [] := by
          rw [List.filter_eq_nil_iff]
          intro b hb
          rw [List.mem_cons] at hb
          rw [Offset.lessThan_iff] at hup
          obtain rfl | hb := hb
          · simp [inRange, hup]
          · simp [inRange, hup.trans (hm b hb)]
        rw [hnil]
        rfl
      · rename_i hlow hup
        have : inRange offset upper m = true := by simp_all [inRange]
        rw [List.filter_cons_of_pos this, Greedy.scan]
        cases visit a m with
        | mk a' go => cases go <;> simp [ih hl]

theorem filter_inherited (offset upper forkOffset : Offset) (l : List Message) :
    (l.filter fun m => m.offset ≤ forkOffset).filter (inRange offset upper) =
      l.filter (inRange offset (if forkOffset.lessThan upper then forkOffset else upper)) := by
  rw [List.filter_filter]
  refine List.filter_congr fun m _ => ?_
  unfold inRange
  by_cases hu : forkOffset < upper
  · simp only [Offset.lessThan_iff.mpr hu, if_true]
    grind
  · simp only [Offset.lessThan_eq_false.mpr (not_lt.mp hu), Bool.false_eq_true, if_false]
    grind

theorem filter_inherited_of_le {offset upper forkOffset : Offset} (h : forkOffset ≤ offset)
    (l : List Message) :
    (l.filter fun m => m.offset ≤ forkOffset).filter (inRange offset upper) = [] := by
  rw [List.filter_filter, List.filter_eq_nil_iff]
  intro m _
  unfold inRange
  grind

/-- The walk of a page is a scan of the visible messages in its interval. -/
theorem walkForkedMessages_eq (hlaid : LaidOut s) {n : ℕ} {vis : List Message}
    (hp : s.lookup p = some st) (hvis : visible s n st = some vis) (offset upper : Offset) (a : α) :
    walkForkedMessages visit s n st offset upper a =
      some (Greedy.scan visit (vis.filter (inRange offset upper)) a) := by
  induction n generalizing p st vis upper with
  | zero => cases hvis
  | succ n ih =>
    have hown := walkOwnMessages_eq visit offset upper (hlaid p st hp).sorted
    unfold visible at hvis
    unfold walkForkedMessages
    split at hvis
    · rename_i hroot
      cases hvis
      simp [hroot, hown]
    · rename_i hfork
      split at hvis
      · rename_i hnone
        cases hvis
        rw [hnone]
        simp [hown]
      · rename_i source hsource
        obtain ⟨inherited, hinh, rfl⟩ := Option.map_eq_some_iff.mp hvis
        rw [List.filter_append, Greedy.scan_append, hsource]
        by_cases hlt : offset < st.metadata.forkOffset
        · rw [filter_inherited, if_pos ⟨hfork, by simpa using hlt⟩]
          dsimp only
          rw [ih hsource hinh, Option.map_some]
          congr 1
          split <;> simp_all
        · rw [filter_inherited_of_le (not_lt.mp hlt), if_neg (by simp [hlt])]
          simp [hown]

end Walk

section Visible

/-- A ranked graph makes the messages of every stream visible. -/
theorem visible_isSome {rank : Path → ℕ} (hrank : ∀ q f, ForkEdge s q f → rank f < rank q) {n : ℕ}
    (hp : s.lookup p = some st) (hn : rank p < n) : (visible s n st).isSome := by
  induction n generalizing p st with
  | zero => omega
  | succ n ih =>
    unfold visible
    split
    · rfl
    · rename_i hne
      split
      · rfl
      · rename_i source hsource
        rw [Option.isSome_map]
        have hedge : ForkEdge s p st.metadata.forkedFrom := by
          rw [ForkEdge, sourceOf_of_lookup hp]
          exact source_eq_some.mpr ⟨rfl, hne⟩
        exact ih hsource (by have := hrank _ _ hedge; omega)

variable {vis : List Message}

theorem visible_mono {n m : ℕ} (hnm : n ≤ m) (h : visible s n st = some vis) :
    visible s m st = some vis := by
  induction n generalizing m st vis with
  | zero => cases h
  | succ n ih =>
    obtain ⟨m, rfl⟩ : ∃ k, m = k + 1 := ⟨m - 1, by omega⟩
    unfold visible at h ⊢
    split
    · rwa [if_pos ‹_›] at h
    rw [if_neg ‹_›] at h
    split
    · rename_i hsource
      rwa [hsource] at h
    · rename_i source hsource
      rw [hsource] at h
      obtain ⟨l, hl, rfl⟩ := Option.map_eq_some_iff.mp h
      exact Option.map_eq_some_iff.mpr ⟨l, ih (by omega) hl, rfl⟩

/-- Visible messages have increasing offsets up to the tail. -/
theorem visible_sorted (hlaid : LaidOut s) {n : ℕ} (hp : s.lookup p = some st)
    (hvis : visible s n st = some vis) :
    vis.Pairwise (·.offset < ·.offset) ∧
      ∀ m ∈ vis, zeroOffset < m.offset ∧ m.offset ≤ st.metadata.currentOffset := by
  induction n generalizing p st vis with
  | zero => cases hvis
  | succ n ih =>
    have hst := hlaid p st hp
    have hown : ∀ m ∈ st.messages, zeroOffset < m.offset ∧ m.offset ≤ st.metadata.currentOffset :=
      fun m hm => ⟨(Offset.zero_le _).trans_lt (hst.forkOffset_lt hm), hst.le_tail hm⟩
    unfold visible at hvis
    split at hvis
    · cases hvis
      exact ⟨hst.sorted, hown⟩
    · split at hvis
      · cases hvis
        exact ⟨hst.sorted, hown⟩
      · rename_i source hsource
        obtain ⟨inherited, hinh, rfl⟩ := Option.map_eq_some_iff.mp hvis
        obtain ⟨hsorted, hbounds⟩ := ih hsource hinh
        have hle : ∀ m ∈ inherited.filter (fun m => m.offset ≤ st.metadata.forkOffset),
            zeroOffset < m.offset ∧ m.offset ≤ st.metadata.forkOffset := by
          intro m hm
          rw [List.mem_filter, decide_eq_true_eq] at hm
          exact ⟨(hbounds m hm.1).1, hm.2⟩
        constructor
        · rw [List.pairwise_append]
          exact ⟨hsorted.filter _, hst.sorted,
            fun m hm m' hm' => (hle m hm).2.trans_lt (hst.forkOffset_lt hm')⟩
        · intro m hm
          rw [List.mem_append] at hm
          obtain hm | hm := hm
          · exact ⟨(hle m hm).1, (hle m hm).2.trans hst.forkOffset_le⟩
          · exact hown m hm

def CoversForks (s : Streams) (x : Path) (stx : MemoryStream) : Prop :=
  ∀ q stq, s.lookup q = some stq → stq.source = some x →
    stq.metadata.forkOffset ≤ stx.metadata.currentOffset

/-- An append to a stream that covers its forks is visible in that stream only. -/
theorem visible_update {stx stx' : MemoryStream} {ds : List Bytes}
    {acc : Option ClosedByProducer} (hx : s.lookup x = some stx) (hu : stx.Update ds acc stx')
    (hds : ∀ d ∈ ds, d ≠ []) (hcover : ds ≠ [] → CoversForks s x stx) {n : ℕ}
    (hp : s.lookup p = some st) (hp' : (s.insert x stx').lookup p = some st')
    (hvis : visible s n st = some vis) :
    visible (s.insert x stx') n st' =
      some (vis ++ if p = x then layOut stx.metadata.currentOffset ds else []) := by
  induction n generalizing p st st' vis with
  | zero => cases hvis
  | succ n ih =>
    have hfrom : st'.metadata.forkedFrom = st.metadata.forkedFrom ∧
        st'.metadata.forkOffset = st.metadata.forkOffset ∧
        st'.messages =
          st.messages ++ if p = x then layOut stx.metadata.currentOffset ds else [] := by
      obtain ⟨rfl, rfl⟩ | ⟨hne, hp'⟩ := lookup_of_lookup_insert hp'
      · cases hx.symm.trans hp
        exact ⟨hu.forkedFrom, hu.forkOffset, by simpa using hu.messages⟩
      · cases hp.symm.trans hp'
        simp [hne]
    obtain ⟨hfrom, hoff, hmsg⟩ := hfrom
    unfold visible at hvis ⊢
    rw [hfrom, hmsg, hoff]
    split at hvis
    · rename_i hroot
      cases hvis
      rw [if_pos hroot]
    · rename_i hfork
      rw [if_neg hfork]
      split at hvis
      · rename_i hnone
        cases hvis
        have hne : st.metadata.forkedFrom ≠ x := by
          intro h
          rw [h, hx] at hnone
          cases hnone
        rw [Finmap.lookup_insert_of_ne _ hne, hnone]
      · rename_i source hsource
        obtain ⟨inherited, hinh, rfl⟩ := Option.map_eq_some_iff.mp hvis
        obtain ⟨source', hsource'⟩ := Option.isSome_iff_exists.mp
          (isSome_lookup_insert (p := x) (.inr (Option.isSome_of_mem hsource)) stx')
        rw [hsource']
        dsimp only
        rw [ih hsource hsource' hinh, Option.map_some, List.filter_append]
        -- what the source gains lies beyond the fork offset
        have hnil : (if st.metadata.forkedFrom = x then layOut stx.metadata.currentOffset ds
            else []).filter (fun m => m.offset ≤ st.metadata.forkOffset) = [] := by
          split
          · rename_i hfx
            rw [List.filter_eq_nil_iff]
            intro m hm
            have hne : ds ≠ [] := by
              rintro rfl
              cases hm
            have hle := hcover hne p st hp (source_eq_some.mpr ⟨hfx, hfx ▸ hfork⟩)
            simpa using hle.trans_lt (base_lt_layOut hds hm)
          · rfl
        rw [hnil, List.append_nil, List.append_assoc]

end Visible

end Chronicle
