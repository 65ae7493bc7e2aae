import Chronicle.Memory.Tiling
import Chronicle.Redis.AppendRefinement
import Chronicle.Redis.Range

/-! # Reads of a source chain

A read behind an offset is split into segments, one for each stream of the
source chain, and every segment is read page by page. Together the pages are the
messages that are visible behind the offset, as the memory store reads them.
-/

namespace Chronicle.Redis

variable {s : Streams} {db : Db} {now : Time} {p : Path} {st : MemoryStream} {n : ℕ}
  {vis : List Message} {lower upper : Offset}

/-- The keys of a stream whose values are in range. A member of a sorted set is a string of at
most 512 megabytes. -/
structure Stored (st : MemoryStream) (k : StreamKeys) : Prop where
  mirrors : Mirrors st k
  fits : MetadataFits st.metadata
  sizes : ∀ m ∈ st.messages, m.size < 2 ^ 29

/-- Streams that can be read across their source chains: all of them are stored, every source is
present, and no fork offset is beyond the tail of the source. -/
structure Chained (s : Streams) (db : Db) : Prop where
  stored : ∀ p st, s.lookup p = some st → Stored st (db p)
  sound : ∀ q f, sourceOf s q = some f → (s.lookup f).isSome
  covers : ∀ p st, s.lookup p = some st → CoversForks s p st

theorem Chained.laidOut (h : Chained s db) : LaidOut s := fun p st hp =>
  (h.stored p st hp).mirrors.laid

section Segments

def segmentMessages (s : Streams) (seg : ReadSegment) : List Message :=
  match s.lookup seg.path with
  | none => []
  | some st => st.messages.filter (inRange seg.lower seg.upper)

/-- A segment lies within the own messages of its stream, and ends with them where it has to end
with a frame. -/
structure Within (st : MemoryStream) (seg : ReadSegment) : Prop where
  incarnation : seg.incarnation = st.metadata.incarnation
  lower : st.metadata.forkOffset ≤ seg.lower
  order : seg.lower < seg.upper
  upper : seg.upper ≤ st.metadata.currentOffset
  required : seg.requireFrame = true → seg.upper = st.metadata.currentOffset

theorem ownSegment_eq (hst : Stored st (db p)) (hp : s.lookup p = some st)
    (hupper : upper ≤ st.metadata.currentOffset) {isFrame : Bool}
    (hframe : isFrame = true → upper = st.metadata.currentOffset) (lower : Offset) :
    (ownSegment p (readBack p st.metadata) lower upper isFrame).flatMap (segmentMessages s) =
        st.messages.filter (inRange lower upper) ∧
      ∀ seg ∈ ownSegment p (readBack p st.metadata) lower upper isFrame,
        ∃ st', s.lookup seg.path = some st' ∧ Within st' seg := by
  have hlaid := hst.mirrors.laid
  have hown : ∃ own, (if st.metadata.forkedFrom ≠ [] ∧ lower.lessThan st.metadata.forkOffset then
        st.metadata.forkOffset else lower) = own ∧ st.metadata.forkOffset ≤ own ∧
      ∀ m ∈ st.messages, lower < m.offset ↔ own < m.offset := by
    by_cases hbelow : st.metadata.forkedFrom ≠ [] ∧ lower.lessThan st.metadata.forkOffset
    · refine ⟨_, if_pos hbelow, le_rfl, fun m hm => ?_⟩
      have hbehind := hlaid.forkOffset_lt hm
      exact iff_of_true ((Offset.lessThan_iff.mp hbelow.2).trans hbehind) hbehind
    · refine ⟨_, if_neg hbelow, ?_, fun _ _ => Iff.rfl⟩
      by_cases hroot : st.metadata.forkedFrom = []
      · rw [(hst.fits.unforked hroot).1]
        exact Offset.zero_le lower
      · simpa [hroot] using hbelow
  rcases hown with ⟨own, heq, hfork, hiff⟩
  have hfilter : st.messages.filter (inRange lower upper) =
      st.messages.filter (inRange own upper) := by
    refine List.filter_congr fun m hm => ?_
    simp only [inRange, hiff m hm]
  have hdef : ownSegment p (readBack p st.metadata) lower upper isFrame =
      if own.lessThan upper then
        [{ path := p, lower := own, upper := upper, incarnation := st.metadata.incarnation
           requireFrame := isFrame }]
      else [] := by
    rw [← heq]
    rfl
  rw [hdef, hfilter]
  by_cases hlt : own < upper
  · rw [if_pos (Offset.lessThan_iff.mpr hlt)]
    refine ⟨by simp [segmentMessages, hp], ?_⟩
    intro seg hseg
    rw [List.mem_singleton] at hseg
    subst hseg
    exact ⟨st, hp, rfl, hfork, hlt, hupper, hframe⟩
  · rw [if_neg (by simpa using hlt), filter_inRange_eq_nil hlt]
    exact ⟨List.flatMap_nil, by simp⟩

theorem readSegments_eq (h : Chained s db) (lower : Offset) (hp : s.lookup p = some st)
    (hvis : visible s n st = some vis) (hupper : upper ≤ st.metadata.currentOffset)
    {isFrame : Bool} (hframe : isFrame = true → upper = st.metadata.currentOffset) :
    ∃ segs, readSegments db n p (readBack p st.metadata) lower upper isFrame = some (.ok segs) ∧
      segs.flatMap (segmentMessages s) = vis.filter (inRange lower upper) ∧
      ∀ seg ∈ segs, ∃ st', s.lookup seg.path = some st' ∧ Within st' seg := by
  induction n generalizing p st vis upper isFrame with
  | zero => cases hvis
  | succ n ih =>
    have hst := h.stored p st hp
    have hlaid := hst.mirrors.laid
    rw [readSegments]
    by_cases hlt : lower < upper
    swap
    · rw [filter_inRange_eq_nil hlt]
      exact ⟨[], by rw [if_pos (by simpa using hlt)], List.flatMap_nil, by simp⟩
    rw [if_neg (by simpa using hlt)]
    have hown := ownSegment_eq hst hp hupper hframe lower
    unfold visible at hvis
    by_cases hroot : st.metadata.forkedFrom = []
    · rw [if_pos hroot] at hvis
      cases hvis
      exact ⟨_, if_neg fun hc => hc.1 hroot, hown⟩
    rw [if_neg hroot] at hvis
    have hsource := source_eq_some.mpr ⟨rfl, hroot⟩
    have hpresent := h.sound p _ (sourceOf_of_lookup hp ▸ hsource)
    rcases Option.isSome_iff_exists.mp hpresent with ⟨source, hs⟩
    rw [hs] at hvis
    rcases Option.map_eq_some_iff.mp hvis with ⟨inherited, hinh, rfl⟩
    rw [List.filter_append]
    by_cases hbelow : lower < st.metadata.forkOffset
    swap
    · refine ⟨_, if_neg fun hc => hbelow (Offset.lessThan_iff.mp hc.2), ?_, hown.2⟩
      rw [filter_inherited_of_le (not_lt.mp hbelow), List.nil_append, hown.1]
    -- the source ends where the fork begins, and no frame of it has to end there
    have hcovers := h.covers _ source hs p st hp hsource
    have hsourceUpper : (if st.metadata.forkOffset.lessThan upper then st.metadata.forkOffset
        else upper) ≤ source.metadata.currentOffset := by
      split
      · exact hcovers
      · rename_i hle
        rw [Offset.lessThan_iff, not_lt] at hle
        exact hle.trans hcovers
    have hsourceFrame : (isFrame && upper.lessThan st.metadata.forkOffset) = false := by
      cases isFrame with
      | false => rfl
      | true =>
        rw [hframe rfl, Bool.true_and, Offset.lessThan_eq_false]
        exact hlaid.forkOffset_le
    rcases ih hs hinh hsourceUpper (fun hfalse : false = true => by cases hfalse) with
      ⟨segs, hsegs, hmsgs, hwithin⟩
    have hmeta : fetchMeta db (readBack p st.metadata).forkedFrom =
        .ok (some (readBack st.metadata.forkedFrom source.metadata)) :=
      metaFromFields_mirrors (h.stored _ _ hs).mirrors.hash (h.stored _ _ hs).fits _
    refine ⟨segs ++ ownSegment p (readBack p st.metadata) lower upper isFrame, ?_, ?_, ?_⟩
    · rw [if_pos ⟨hroot, Offset.lessThan_iff.mpr hbelow⟩]
      rw [hmeta]
      change Option.map _ (readSegments db n st.metadata.forkedFrom _ lower
        (if st.metadata.forkOffset.lessThan upper then st.metadata.forkOffset else upper)
        (isFrame && upper.lessThan st.metadata.forkOffset)) = _
      rw [hsourceFrame, hsegs]
      rfl
    · rw [List.flatMap_append, hmsgs, hown.1, filter_inherited]
    · intro seg hseg
      rcases List.mem_append.mp hseg with hseg | hseg
      · exact hwithin seg hseg
      · exact hown.2 seg hseg

end Segments

section Pages

variable {k : StreamKeys} {seg : ReadSegment} {next : Offset}

theorem readScript_segment (h : Stored st k) (hinc : seg.incarnation = st.metadata.incarnation)
    (now : Time) (next : Offset) :
    readScript (segmentArgs now seg next defaultReadPageBytes defaultReadPageFrames true) k =
      some (match fetchRange k (k.info .tail)
          (segmentArgs now seg next defaultReadPageBytes defaultReadPageFrames true)
          (lexUpperBoundInclusive seg.upper) seg.requireFrame with
        | none => (k, .missing)
        | some c => (k, .ok k.info c.members c.fetchedBytes c.returnedBytes none)) := by
  have hstored : k.info .incarnation = some st.metadata.incarnation :=
    (h.mirrors.info .incarnation (by simp)).trans (if_neg h.mirrors.incarnation)
  have hread : readIncarnation
      (segmentArgs now seg next defaultReadPageBytes defaultReadPageFrames true) k.info k =
      (k, k.info, some st.metadata.incarnation) := by
    rw [readIncarnation, hstored, if_neg (by simpa using h.mirrors.incarnation)]
  rw [readScript, h.mirrors.shows.metaMap]
  dsimp only
  rw [if_neg (by simp [segmentArgs]), readPresent, hread]
  dsimp only
  rw [if_neg (by simp [segmentArgs, hinc])]
  rfl

theorem Stored.small (h : Stored st k) {o : Offset} (ho : o ≤ st.metadata.currentOffset) :
    o.Small :=
  small_of_le h.fits.currentOffset h.mirrors.laid.tail_readSeq ho

theorem Within.last (hw : Within st seg) (hlaid : st.Laid) :
    ∃ m ∈ st.messages, m.offset = st.metadata.currentOffset := by
  have htiles := hlaid.tiles
  cases hl : st.messages.getLast? with
  | none =>
    rw [List.getLast?_eq_none_iff] at hl
    rw [hl] at htiles
    generalize htail : st.metadata.currentOffset = tail at *
    generalize hfork : st.metadata.forkOffset = base at *
    cases htiles
    have := hw.lower.trans_lt (hw.order.trans_le hw.upper)
    rw [htail, hfork] at this
    exact absurd this (lt_irrefl _)
  | some m => exact ⟨m, List.mem_of_getLast? hl, htiles.last hl⟩

theorem decodeFrames_frames {page : List Message} (h : ∀ m ∈ page, m.offset.Small) :
    decodeFrames (page.map frame) = some page := by
  induction page with
  | nil => rfl
  | cons m page ih =>
    have hrest : List.mapM decodeFrame (page.map frame) = some page :=
      ih fun x hx => h x (List.mem_cons_of_mem _ hx)
    rw [decodeFrames, List.map_cons, List.mapM_cons, decodeFrame_frame (h m List.mem_cons_self),
      hrest]
    rfl

theorem mapReadReply_frames {path : Path} {info : MetaHash} {md : StreamMetadata}
    (hmeta : metaFromFields path info = .ok (some md)) {page : List Message}
    (hsmall : ∀ m ∈ page, m.offset.Small) {size : ℕ} (hsize : size < 10 ^ 14) (target : ℕ)
    (range : Option RootReadRange) :
    ∃ r, mapReadReply path target (.ok info (page.map frame) size size range) = .ok r ∧
      r.messages = page := by
  simp only [mapReadReply, hmeta, decodeFrames_frames hsmall, parseScriptInt, if_pos hsize]
  exact ⟨_, rfl, rfl⟩

theorem readPage_segment (h : Stored st k) (hw : Within st seg) (hnext : next < seg.upper)
    (now : Time) :
    ∃ r, (runReadPageScript seg.path
        (segmentArgs now seg next defaultReadPageBytes defaultReadPageFrames true) k).2 = .ok r ∧
      r.messages <+: st.messages.filter (inRange next seg.upper) ∧
      (r.messages = [] → st.messages.filter (inRange next seg.upper) = []) := by
  have hms : ∀ m ∈ st.messages, m.offset.Small := fun m hm => h.small (h.mirrors.laid.le_tail hm)
  have hlo : next.Small := h.small (hnext.le.trans hw.upper)
  have hhi : seg.upper.Small := h.small hw.upper
  have hmeta := metaFromFields_mirrors h.mirrors.hash h.fits seg.path
  rcases hw.last h.mirrors.laid with ⟨last, hlast, hend⟩
  rw [runReadPageScript, readScript_segment h hw.incarnation]
  cases hr : st.messages.filter (inRange next seg.upper) with
  | nil =>
    have hrequired : seg.requireFrame = false := by
      by_contra hreq
      have hupper := hw.required (by simpa using hreq)
      rw [List.filter_eq_nil_iff] at hr
      refine hr last hlast ?_
      simp [inRange, hend, ← hupper, hnext]
    have hfetch : fetchRange k (k.info .tail)
        (segmentArgs now seg next defaultReadPageBytes defaultReadPageFrames true)
        (lexUpperBoundInclusive seg.upper) seg.requireFrame = some {} := by
      have hmsg : k.msg ≠ [] := by
        rw [h.mirrors.msg]
        exact List.ne_nil_of_mem (List.mem_map_of_mem hlast)
      have hmin : (segmentArgs now seg next defaultReadPageBytes defaultReadPageFrames true).lexMin =
          lexLowerBound next := rfl
      rw [fetchRange, hmin, h.mirrors.msg, zrangebylex_frames hlo hhi hms, hr, ← h.mirrors.msg, hrequired]
      simp [hmsg]
    rw [hfetch]
    have hnone : ∀ m ∈ ([] : List Message), m.offset.Small := by simp
    rcases mapReadReply_frames hmeta hnone (show 0 < 10 ^ 14 by omega) defaultReadPageBytes none
      with ⟨r, hreply, hmessages⟩
    exact ⟨r, hreply, hmessages ▸ List.prefix_rfl, fun _ => rfl⟩
  | cons m rest =>
    have hbudget : Budget
        (segmentArgs now seg next defaultReadPageBytes defaultReadPageFrames true)
        defaultReadPageBytes defaultReadPageFrames 0 0 :=
      ⟨rfl, rfl, rfl, by decide, by decide, fun _ => rfl⟩
    rcases fetchRange_prefix h.mirrors.msg h.mirrors.laid.tiles hms hlo hhi rfl hbudget hr
      (k.info .tail) seg.requireFrame with ⟨c, page, hfetch, hpage⟩
    have hmem : ∀ x ∈ page, x ∈ st.messages := fun x hx =>
      List.mem_of_mem_filter (p := inRange next seg.upper) (hr ▸ hpage.isPrefix.subset hx)
    have hsize : (page.map Message.size).sum < 10 ^ 14 := by
      rcases hpage.bounded with hle | ⟨x, hx, heq⟩
      · have : defaultReadPageBytes < 10 ^ 14 := by decide
        omega
      · have := h.sizes x (hmem x hx)
        rw [heq, List.map_singleton, List.sum_singleton]
        omega
    rw [hfetch]
    dsimp only
    rw [hpage.members, hpage.fetchedBytes, hpage.returnedBytes]
    rcases mapReadReply_frames hmeta (fun x hx => hms x (hmem x hx)) hsize defaultReadPageBytes
      none with ⟨r, hreply, hmessages⟩
    refine ⟨r, hreply, hmessages ▸ hpage.isPrefix, fun hnil => ?_⟩
    exact absurd (hmessages ▸ hnil) hpage.nonempty

theorem readSegmentFrom_eq (h : Stored st (db seg.path)) (hw : Within st seg) (now : Time)
    (hn : (st.messages.filter (inRange next seg.upper)).length < n) :
    readSegmentFrom db now seg n next =
      some (.ok (st.messages.filter (inRange next seg.upper))) := by
  induction n generalizing next with
  | zero => omega
  | succ n ih =>
    rw [readSegmentFrom]
    by_cases hnext : next < seg.upper
    swap
    · rw [if_pos (by simpa using hnext), filter_inRange_eq_nil hnext]
    rw [if_neg (by simpa using hnext)]
    rcases readPage_segment h hw hnext now with ⟨r, hr, hprefix, hnil⟩
    dsimp only
    rw [hr]
    dsimp only
    cases hl : r.messages.getLast? with
    | none => rw [hnil (List.getLast?_eq_none_iff.mp hl)]
    | some last =>
      rcases hprefix with ⟨rest, hrest⟩
      have hmem := List.mem_of_getLast? hl
      have hsorted : (r.messages ++ rest).Pairwise (·.offset < ·.offset) := by
        rw [hrest]
        exact h.mirrors.laid.sorted.filter _
      have hlast : next < last.offset := by
        have : last ∈ st.messages.filter (inRange next seg.upper) :=
          hrest ▸ List.mem_append_left _ hmem
        exact (of_decide_eq_true (List.mem_filter.mp this).2).1
      -- what is left are the messages behind the last one of the page
      have hleft : st.messages.filter (inRange last.offset seg.upper) = rest := by
        rw [← Greedy.filter_behind Message.offset hsorted hl, hrest, List.filter_filter]
        refine List.filter_congr fun m _ => ?_
        rw [inRange, inRange, ← Bool.decide_and, decide_eq_decide]
        constructor
        · exact fun hm => ⟨hm.1, hlast.trans hm.1, hm.2⟩
        · exact fun hm => ⟨hm.1, hm.2.2⟩
      have hlen : rest.length < n := by
        have hpos := List.length_pos_of_mem hmem
        rw [← hrest, List.length_append] at hn
        omega
      dsimp only
      rw [ih (by rw [hleft]; exact hlen), hleft, ← hrest]
      rfl

theorem readAllSegments_eq (h : Chained s db) (now : Time) {segs : List ReadSegment}
    (hsegs : ∀ seg ∈ segs, ∃ st, s.lookup seg.path = some st ∧ Within st seg)
    (hn : ∀ seg ∈ segs, (segmentMessages s seg).length < n) :
    readAllSegments db now n segs = some (.ok (segs.flatMap (segmentMessages s))) := by
  induction segs with
  | nil => rfl
  | cons seg segs ih =>
    rcases hsegs seg List.mem_cons_self with ⟨st, hst, hw⟩
    have hmsgs : segmentMessages s seg = st.messages.filter (inRange seg.lower seg.upper) := by
      rw [segmentMessages, hst]
    have hlen := hn seg List.mem_cons_self
    rw [hmsgs] at hlen
    rw [readAllSegments, readSegmentFrom_eq (h.stored _ _ hst) hw now hlen,
      ih (fun x hx => hsegs x (List.mem_cons_of_mem _ hx))
        (fun x hx => hn x (List.mem_cons_of_mem _ hx)), List.flatMap_cons, hmsgs]
    rfl

/-- With enough rounds a read of the source chain returns what the memory store reads. -/
theorem readForkChain_eq (h : Chained s db) (hranked : Ranked s) (hp : s.lookup p = some st)
    (now : Time) {offset : Offset} (hseq : offset.readSeq = 0) :
    ∃ depth messages, ∀ n, depth ≤ n →
      readForkChain db now n p (readBack p st.metadata) offset = some (.ok messages) ∧
      readForkedStream s n st offset = some messages := by
  rcases hranked with ⟨rank, hrank⟩
  rcases Option.isSome_iff_exists.mp (visible_isSome hrank hp (Nat.lt_succ_self (rank p))) with
    ⟨vis, hvis⟩
  refine ⟨rank p + 1 + vis.length + 1, vis.filter fun m => offset < m.offset, fun n hn => ?_⟩
  have hvis' := visible_mono (show rank p + 1 ≤ n by omega) hvis
  refine ⟨?_, readForkedStream_eq h.laidOut hp hvis' hseq⟩
  rcases readSegments_eq h offset hp hvis' le_rfl (fun _ : true = true => rfl) with
    ⟨segs, hsegs, hmsgs, hwithin⟩
  have htail : vis.filter (inRange offset st.metadata.currentOffset) =
      vis.filter fun m => offset < m.offset := by
    refine List.filter_congr fun m hm => ?_
    simp [inRange, ((visible_sorted h.laidOut hp hvis').2 m hm).2]
  have hlen : ∀ seg ∈ segs, (segmentMessages s seg).length < n := by
    intro seg hseg
    have hle := List.length_filter_le (inRange offset st.metadata.currentOffset) vis
    rcases List.append_of_mem hseg with ⟨front, back, rfl⟩
    rw [← hmsgs, List.flatMap_append, List.flatMap_cons, List.length_append,
      List.length_append] at hle
    omega
  have hoff : (readBack p st.metadata).currentOffset = st.metadata.currentOffset := rfl
  rw [readForkChain, hoff, hsegs]
  dsimp only
  rw [readAllSegments_eq h now hwithin hlen, hmsgs, htail]

end Pages

end Chronicle.Redis
