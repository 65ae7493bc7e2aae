import Chronicle.Lib.SortedSet
import Chronicle.Redis.Numerals
import Chronicle.Store.Frames
import Chronicle.Store.WriteFence

/-! # The keys of a stream

A stream in Redis is a metadata hash, a sorted set of frames, a hash of producer
states, a set of fork paths, and one hash for each claim marker. All members of
the sorted set have the score zero, so it is ordered bytewise. The lifetimes of
keys are not part of them: where they matter, what Redis removes is a step of its
own.
-/

namespace Chronicle.Redis

inductive MetaField where
  | ct
  | incarnation
  | tail
  | lastSeq
  | closed
  | ttl
  | expAtNs
  | createdAtNs
  | accessedAtNs
  | forkedFrom
  | forkOff
  | forkOffReq
  | forkSubOff
  | refCount
  | softDel
  | cbId
  | cbEpoch
  | cbSeq
  | wf
  | wfSealGen
  | wfSealOff
  | wfLastOff
  | wfseal (authority : Bytes)
  | wfbind (producerId : Bytes)
  deriving DecidableEq, Repr

inductive MarkerField where
  | state
  | generation
  | wakeId
  | holder
  | leaseUntilNs
  | streamIncarnation
  deriving DecidableEq, Repr

abbrev MetaHash := MetaField → Option Bytes

abbrev MarkerHash := MarkerField → Option Bytes

/-- The keys of one stream. Claim markers are stored under their own keys. -/
structure StreamKeys where
  info : MetaHash := fun _ => none
  msg : List Bytes := []
  prod : Bytes → Option Bytes := fun _ => none
  forks : Finset Path := ∅
  fences : Bytes → MarkerHash := fun _ _ => none

def one : Bytes := [49]

namespace StreamKeys

def hset (k : StreamKeys) (f : MetaField) (v : Bytes) : StreamKeys :=
  { k with info := Function.update k.info f (some v) }

def hsetAll (k : StreamKeys) (fields : List (MetaField × Bytes)) : StreamKeys :=
  fields.foldl (fun k fv => k.hset fv.1 fv.2) k

def del (k : StreamKeys) : StreamKeys := { fences := k.fences }

end StreamKeys

section Frames

/-- ZADD of members at score zero, where the set is in lexicographic order. -/
def zaddAll (members : List Bytes) (l : List Bytes) : List Bytes := SortedSet.insertAll members l

/-- A member of the sorted set: the end offset, a separator and the payload. -/
def encodeFrame (offset : Offset) (data : Bytes) : Bytes := offset.string ++ 124 :: data

def decodeFrame (member : Bytes) : Option Message :=
  if member.length < 34 ∨ member[33]? ≠ some 124 then none
  else (Offset.parseOffset (member.take 33)).map fun offset => ⟨member.drop 34, offset⟩

def frame (m : Message) : Bytes := encodeFrame m.offset m.data

theorem frame_injective : Function.Injective frame := by
  intro m m' h
  have hsep : ∀ o : Offset, ∀ c ∈ o.string, decide (c ≠ 124) = true := by
    intro o c hc
    rw [decide_eq_true_eq]
    rintro rfl
    exact o.not_mem_string rfl (by decide) hc
  have htake : ∀ m : Message, (frame m).takeWhile (· ≠ 124) = m.offset.string := by
    intro m
    rw [frame, encodeFrame, List.takeWhile_append_of_pos (hsep m.offset)]
    simp
  have hoff : m.offset = m'.offset := by
    apply Offset.string_injective
    rw [← htake m, ← htake m', h]
  rw [frame, frame, encodeFrame, encodeFrame, hoff, List.append_cancel_left_eq,
    List.cons.injEq] at h
  cases m
  cases m'
  cases hoff
  cases h.2
  rfl

theorem lt_frame {m m' : Message} (hm : m.offset.Small) (hm' : m'.offset.Small)
    (h : m.offset < m'.offset) : frame m < frame m' :=
  Bytes.lexLt_iff_lt.mp (Bytes.lexLt_append_of_lt
    (by rw [Offset.length_string hm, Offset.length_string hm'])
    ((Offset.lexLt_string hm hm').mpr h) _ _)

variable {ms : List Message}

/-- Frames with increasing offsets are in the order of the set. -/
theorem sorted_frames (hsmall : ∀ m ∈ ms, m.offset.Small)
    (hsorted : ms.Pairwise (·.offset < ·.offset)) : SortedSet.Sorted (ms.map frame) := by
  refine List.pairwise_map.mpr (hsorted.imp_of_mem ?_)
  intro m m' hm hm' hlt
  exact lt_frame (hsmall m hm) (hsmall m' hm') hlt

theorem decodeFrame_frame {m : Message} (h : m.offset.Small) : decodeFrame (frame m) = some m := by
  have hlen := Offset.length_string h
  have hsep : (frame m)[33]? = some 124 := by
    rw [frame, encodeFrame, List.getElem?_append_right (by omega), hlen]
    rfl
  have hlong : ¬ (frame m).length < 34 := by
    rw [frame, encodeFrame, List.length_append, List.length_cons]
    omega
  have htake : (frame m).take 33 = m.offset.string := List.take_left' hlen
  have hdrop : (frame m).drop 34 = m.data := by
    rw [frame, encodeFrame, show m.offset.string ++ 124 :: m.data =
      (m.offset.string ++ [124]) ++ m.data by simp]
    exact List.drop_left' (by simp [hlen])
  rw [decodeFrame, if_neg (by simp [hlong, hsep]), htake, hdrop, Offset.parseOffset_string h]
  rfl

/-- New frames are added to a set of frames. -/
theorem zaddAll_perm {l : List Message} {z : List Bytes} (hz : z.Perm (l.map frame))
    (hnodup : (l ++ ms).Nodup) : (zaddAll (ms.map frame) z).Perm ((l ++ ms).map frame) := by
  rcases List.nodup_append.mp hnodup with ⟨-, hms, hdisj⟩
  have hperm : (zaddAll (ms.map frame) z).Perm (z ++ ms.map frame) := by
    refine SortedSet.insertAll_perm (hms.map frame_injective) ?_
    intro x hx hxz
    rcases List.mem_map.mp hx with ⟨m, hm, rfl⟩
    rcases List.mem_map.mp (hz.mem_iff.mp hxz) with ⟨m', hm', heq⟩
    exact hdisj m' hm' m hm (frame_injective heq)
  rw [List.map_append]
  exact hperm.trans (hz.append_right _)

/-- Frames behind all members are added at the end, in order. -/
theorem zaddAll_frames {l : List Message}
    (hsmall : ∀ m ∈ l ++ ms, m.offset.Small)
    (hsorted : (l ++ ms).Pairwise (·.offset < ·.offset)) :
    zaddAll (ms.map frame) (l.map frame) = (l ++ ms).map frame := by
  have hl : SortedSet.Sorted (l.map frame) :=
    sorted_frames (fun m hm => hsmall m (List.mem_append_left _ hm))
      (List.pairwise_append.mp hsorted).1
  have hnodup : (l ++ ms).Nodup := hsorted.imp fun h heq => h.ne (congrArg Message.offset heq)
  exact SortedSet.Sorted.eq_of_perm (hl.insertAll _) (sorted_frames hsmall hsorted)
    (zaddAll_perm (.refl _) hnodup)

end Frames

section FenceKeys

def escapePath (path : Path) : Bytes :=
  path.flatMap fun c =>
    if c = 37 then [37, 50, 53]
    else if c = 123 then [37, 55, 66]
    else if c = 125 then [37, 55, 68]
    else [c]

def tag (path : Path) : Bytes := 123 :: escapePath path ++ [125]

def fenceSuffix : Bytes := Bytes.ascii ":append-fence:"

def appendFenceKey (path : Path) (f : AppendFence) : Bytes :=
  Bytes.ascii "ds:" ++ tag path ++ fenceSuffix ++ fenceAuthority f

def isAuthorityByte (c : UInt8) : Bool :=
  Decimal.isDigit c || (65 ≤ c && c ≤ 90) || (97 ≤ c && c ≤ 122) || c == 45 || c == 95

def isAuthority (s : Bytes) : Bool :=
  s.takeWhile isAuthorityByte ≠ [] &&
    match s.dropWhile isAuthorityByte with
    | 58 :: d => d ≠ [] && d.all Decimal.isDigit
    | _ => false

def fenceAuth : Bytes → Option Bytes
  | [] => none
  | c :: s =>
    if fenceSuffix <+: c :: s ∧ isAuthority ((c :: s).drop fenceSuffix.length) then
      some ((c :: s).drop fenceSuffix.length)
    else fenceAuth s

variable {s : Bytes}

theorem not_mem_of_isAuthority (h : isAuthority s) : (125 : UInt8) ∉ s := by
  unfold isAuthority at h
  rw [Bool.and_eq_true] at h
  intro hmem
  rw [← List.takeWhile_append_dropWhile (p := isAuthorityByte) (l := s), List.mem_append] at hmem
  rcases hmem with hmem | hmem
  · have := List.mem_takeWhile_imp hmem
    simp [isAuthorityByte, Decimal.isDigit] at this
  · rcases hd : s.dropWhile isAuthorityByte with _ | ⟨c, d⟩
    · rw [hd] at hmem
      cases hmem
    · rw [hd] at hmem h
      split at h
      · rename_i heq
        cases heq
        rcases List.mem_cons.mp hmem with hc | hmem
        · cases hc
        · have := List.all_eq_true.mp (Bool.and_eq_true_iff.mp h.2).2 _ hmem
          simp [Decimal.isDigit] at this
      · simp at h

theorem fenceAuth_cons {c : UInt8} (h : (125 : UInt8) ∈ c :: s) :
    fenceAuth (c :: s) = fenceAuth s := by
  rw [fenceAuth, if_neg]
  rintro ⟨⟨r, hr⟩, hauth⟩
  refine not_mem_of_isAuthority hauth ?_
  rw [← hr, List.drop_left]
  rw [← hr, List.mem_append] at h
  exact h.resolve_left (by decide)

theorem fenceAuth_append (pre : Bytes) {auth : Bytes} (h : isAuthority auth) :
    fenceAuth (pre ++ 125 :: (fenceSuffix ++ auth)) = some auth := by
  induction pre with
  | nil =>
    rw [List.nil_append, fenceAuth_cons (by simp)]
    have hcons : fenceSuffix ++ auth = 58 :: (fenceSuffix.tail ++ auth) := rfl
    rw [hcons, fenceAuth, if_pos ⟨⟨auth, hcons⟩, by rwa [← hcons, List.drop_left]⟩, ← hcons,
      List.drop_left]
  | cons c pre ih =>
    rw [List.cons_append, fenceAuth_cons (by simp), ih]

theorem isAuthorityByte_encode (s : Bytes) :
    ∀ c ∈ Base64.rawURL.encode s, isAuthorityByte c = true := by
  intro c hc
  by_contra hbyte
  refine Base64.notMem_encode ?_ s hc
  grind [isAuthorityByte, Decimal.isDigit, Base64.Encoding.value, Base64.rawURL]

theorem encode_ne_nil (h : s ≠ []) : Base64.rawURL.encode s ≠ [] := by
  intro hnil
  have hs := Base64.decode_encode s
  rw [hnil] at hs
  exact h (Option.some.inj hs).symm

theorem isAuthority_fenceAuthority {f : AppendFence} (h : 0 ≤ f.shard) :
    isAuthority (fenceAuthority f) := by
  have hbase := isAuthorityByte_encode (f.subscriptionID ++ [0] ++ f.subscriptionIncarnation)
  have hne := encode_ne_nil (s := f.subscriptionID ++ [0] ++ f.subscriptionIncarnation) (by simp)
  rcases Int.eq_ofNat_of_zero_le h with ⟨shard, hshard⟩
  unfold isAuthority fenceAuthority
  rw [List.append_assoc, List.takeWhile_append_of_pos hbase, List.dropWhile_append_of_pos hbase,
    hshard]
  have hdigits : (Decimal.formatInt (shard : ℤ)).all Decimal.isDigit :=
    Decimal.all_isDigit_formatNat shard
  have hcolon : isAuthorityByte 58 = false := rfl
  simp only [List.singleton_append, List.takeWhile_cons, hcolon, Bool.false_eq_true, if_false,
    List.append_nil, List.dropWhile_cons, hdigits, Bool.and_true]
  simpa [Decimal.formatInt_ne_nil] using hne

/-- The authority of a claim is recovered from the key of its marker. -/
theorem fenceAuth_appendFenceKey (path : Path) {f : AppendFence} (h : 0 ≤ f.shard) :
    fenceAuth (appendFenceKey path f) = some (fenceAuthority f) := by
  have := fenceAuth_append (Bytes.ascii "ds:" ++ 123 :: escapePath path)
    (isAuthority_fenceAuthority h)
  simpa [appendFenceKey, tag] using this

end FenceKeys

end Chronicle.Redis
