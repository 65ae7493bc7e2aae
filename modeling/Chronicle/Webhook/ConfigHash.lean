import Chronicle.Lib.Sorting
import Chronicle.Webhook.ClaimScope
import Chronicle.Webhook.Tokens

/-! # The hash of a configuration

A subscription is created again with the same configuration if the hashes are the
same. The hashed text gives the length of each field, so it determines the fields,
but the streams are one field, joined by a separator that a stream may contain.
-/

namespace Chronicle.Webhook.ConfigHash

section Model

structure Config where
  type : Bytes
  pattern : Bytes
  streams : List Bytes
  webhookURL : Bytes
  wakeStream : Bytes
  leaseTTLMs : ℤ
  description : Bytes
  deriving DecidableEq

def clampLeaseTTL (ms : ℤ) : ℤ :=
  if ms = 0 then 30000 else if ms < 1000 then 1000 else if 600000 < ms then 600000 else ms

def normalizeConfig (c : Config) : Config :=
  { c with leaseTTLMs := clampLeaseTTL c.leaseTTLMs, streams := normalizeStreams c.streams }

def writeField (key val : Bytes) : Bytes :=
  key ++ 61 :: Decimal.formatNat val.length ++ 58 :: val ++ [59]

def joined (streams : List Bytes) : Bytes := [31].intercalate streams

def fields (n : Config) : List (Bytes × Bytes) :=
  [(Bytes.ascii "type", n.type), (Bytes.ascii "pattern", n.pattern),
    (Bytes.ascii "streams", joined n.streams), (Bytes.ascii "webhook_url", n.webhookURL),
    (Bytes.ascii "wake_stream", n.wakeStream),
    (Bytes.ascii "lease_ttl_ms", Decimal.formatInt n.leaseTTLMs),
    (Bytes.ascii "description", n.description)]

def configHash (sha256 : Bytes → Bytes) (c : Config) : Bytes :=
  Tokens.hex (sha256 ((fields (normalizeConfig c)).flatMap fun f => writeField f.1 f.2))

end Model

section Encoding

theorem hexDigit_injective :
    ∀ m < 16, ∀ n < 16, Tokens.hexDigit m = Tokens.hexDigit n → m = n := by decide

theorem hex_injective : Function.Injective Tokens.hex := by
  intro s
  induction s with
  | nil =>
    intro t h
    cases t with
    | nil => rfl
    | cons b t => simp [Tokens.hex] at h
  | cons a s ih =>
    intro t h
    cases t with
    | nil => simp [Tokens.hex] at h
    | cons b t =>
      simp only [Tokens.hex, List.flatMap_cons, List.cons_append, List.nil_append,
        List.cons.injEq] at h
      obtain ⟨hhigh, hlow, htail⟩ := h
      have ha := a.toNat_lt
      have hb := b.toNat_lt
      have hhigh := hexDigit_injective _ (by omega) _ (by omega) hhigh
      have hlow := hexDigit_injective _ (by omega) _ (by omega) hlow
      rw [UInt8.toNat_inj.mp (show a.toNat = b.toNat by omega), ih htail]

theorem writeField_inj {key v v' rest rest' : Bytes}
    (h : writeField key v ++ rest = writeField key v' ++ rest') : v = v' ∧ rest = rest' := by
  simp only [writeField, List.append_assoc, List.cons_append, List.append_cancel_left_eq,
    List.cons.injEq, true_and, List.nil_append] at h
  have hdigits : ∀ n tail, (Decimal.formatNat n ++ 58 :: tail).takeWhile Decimal.isDigit =
      Decimal.formatNat n := by
    intro n tail
    rw [List.takeWhile_append_of_pos (List.all_eq_true.mp (Decimal.all_isDigit_formatNat n)),
      List.takeWhile_cons_of_neg (by decide), List.append_nil]
  have hlength := congrArg (List.takeWhile Decimal.isDigit) h
  rw [hdigits, hdigits] at hlength
  rw [hlength, List.append_cancel_left_eq, List.cons.injEq] at h
  obtain ⟨hv, hrest⟩ := List.append_inj h.2 (Decimal.formatNat_injective hlength)
  exact ⟨hv, (List.cons.inj hrest).2⟩

theorem writeFields_inj {l l' : List (Bytes × Bytes)} (hkeys : l.map Prod.fst = l'.map Prod.fst)
    (h : (l.flatMap fun f => writeField f.1 f.2) = l'.flatMap fun f => writeField f.1 f.2) :
    l = l' := by
  induction l generalizing l' with
  | nil => exact (List.map_eq_nil_iff.mp hkeys.symm).symm
  | cons f l ih =>
    cases l' with
    | nil => cases hkeys
    | cons f' l' =>
      rw [List.map_cons, List.map_cons, List.cons.injEq] at hkeys
      rw [List.flatMap_cons, List.flatMap_cons, hkeys.1] at h
      obtain ⟨hv, hrest⟩ := writeField_inj h
      rw [Prod.ext hkeys.1 hv, ih hkeys.2 hrest]

variable {sha256 : Bytes → Bytes} {c d : Config}

theorem configHash_eq_iff (hsha : Function.Injective sha256) :
    configHash sha256 c = configHash sha256 d ↔
      fields (normalizeConfig c) = fields (normalizeConfig d) := by
  constructor
  · intro h
    exact writeFields_inj rfl (hsha (hex_injective h))
  · intro h
    rw [configHash, configHash, h]

theorem fields_eq_iff {n m : Config} : fields n = fields m ↔
    { n with streams := [] } = { m with streams := [] } ∧ joined n.streams = joined m.streams := by
  simp only [fields, List.cons.injEq, Prod.mk.injEq, true_and, and_true, Config.mk.injEq,
    Decimal.formatInt_injective.eq_iff]
  tauto

end Encoding

section Streams

variable {l l' : List Bytes} {s t : Bytes}

theorem mem_normalize : s ∈ normalizeStreams l ↔ s ∈ l.map trimSlashes ∧ s ≠ [] := by
  rw [normalizeStreams, List.mem_insertionSort, List.mem_dedup, List.mem_filter, decide_eq_true_eq]

theorem normalizeStreams_congr
    (h : ∀ s, s ≠ [] → (s ∈ l.map trimSlashes ↔ s ∈ l'.map trimSlashes)) :
    normalizeStreams l = normalizeStreams l' := by
  refine Bytes.sort_congr ((List.perm_ext_iff_of_nodup (List.nodup_dedup _)
    (List.nodup_dedup _)).mpr fun s => ?_)
  rw [List.mem_dedup, List.mem_dedup, List.mem_filter, List.mem_filter, decide_eq_true_eq]
  exact and_congr_left (h s)

theorem mem_trimSlashes {b : UInt8} (h : b ∈ trimSlashes s) : b ∈ s := by
  rw [trimSlashes, List.mem_reverse] at h
  have hinner := (List.dropWhile_sublist _).subset h
  rw [List.mem_reverse] at hinner
  exact (List.dropWhile_sublist _).subset hinner

/-- A name that is not empty and has no slash at its ends. -/
def Trimmed (s : Bytes) : Prop := s ≠ [] ∧ s.head? ≠ some 47 ∧ s.getLast? ≠ some 47

theorem trimSlashes_of_trimmed (h : Trimmed s) : trimSlashes s = s := by
  have hkeep : ∀ {s : Bytes}, s.head? ≠ some 47 → s.dropWhile (· = 47) = s := by
    intro s hs
    cases s with
    | nil => rfl
    | cons c s => simp_all
  rw [trimSlashes, hkeep h.2.1, hkeep (by rw [List.head?_reverse]; exact h.2.2),
    List.reverse_reverse]

theorem trimmed_of_trimSlashes (h : trimSlashes t ≠ []) : Trimmed (trimSlashes t) := by
  have hdrop : ∀ s : Bytes, (s.dropWhile (· = 47)).head? ≠ some 47 := by
    intro s hhead
    have hnot := List.head?_dropWhile_not (· = 47) s
    rw [hhead] at hnot
    simp at hnot
  refine ⟨h, fun hhead => ?_, ?_⟩
  · have hfront : trimSlashes t <+: t.dropWhile (· = 47) := by
      rw [trimSlashes, ← List.reverse_suffix, List.reverse_reverse]
      exact List.dropWhile_suffix _
    obtain ⟨r, hr⟩ := hfront
    apply hdrop t
    rw [← hr, List.head?_append_of_ne_nil _ h, hhead]
  · rw [trimSlashes, List.getLast?_reverse]
    exact hdrop _

theorem Trimmed.join (hs : Trimmed s) (ht : Trimmed t) : Trimmed (s ++ 31 :: t) := by
  refine ⟨by simp, ?_, ?_⟩
  · rw [List.head?_append_of_ne_nil _ hs.1]
    exact hs.2.1
  · obtain ⟨c, t, rfl⟩ := List.exists_cons_of_ne_nil ht.1
    rw [List.getLast?_append, List.getLast?_cons_cons, List.getLast?_cons, Option.some_or,
      ← List.getLast?_cons]
    exact ht.2.2

/-- Distinct names in order, as a normalized configuration has them. -/
def Normal (l : List Bytes) : Prop := (∀ s ∈ l, Trimmed s) ∧ l.Pairwise (· < ·)

theorem normal_normalizeStreams (l : List Bytes) : Normal (normalizeStreams l) := by
  constructor
  · intro s hs
    obtain ⟨hraw, hne⟩ := mem_normalize.mp hs
    obtain ⟨raw, -, rfl⟩ := List.mem_map.mp hraw
    exact trimmed_of_trimSlashes hne
  · have hsorted : (normalizeStreams l).Pairwise fun s t => Bytes.lexLe s t = true :=
      List.pairwise_insertionSort _ _
    have hnodup : (normalizeStreams l).Nodup :=
      (Bytes.sort_perm _).nodup_iff.mpr (List.nodup_dedup _)
    refine hsorted.imp₂ (fun s t hle hne => ?_) hnodup
    exact List.not_le.mp fun hge => hne (List.le_antisymm (Bytes.lexLe_iff_le.mp hle) hge)

theorem normalizeStreams_of_normal (h : Normal l) : normalizeStreams l = l := by
  have htrim : l.map trimSlashes = l := by
    rw [List.map_congr_left fun s hs => trimSlashes_of_trimmed (h.1 s hs), List.map_id']
  have hfilter : l.filter (· ≠ []) = l := by
    rw [List.filter_eq_self]
    intro s hs
    simpa using (h.1 s hs).1
  have hnodup : l.Nodup := by
    refine h.2.imp fun hlt => ?_
    rintro rfl
    exact List.lt_irrefl _ hlt
  rw [normalizeStreams, htrim, hfilter, List.dedup_eq_self.mpr hnodup]
  exact (h.2.imp fun hlt => Bytes.lexLe_iff_le.mpr (List.le_of_lt hlt)).insertionSort_eq

theorem joined_cons_cons : joined (s :: t :: l) = s ++ 31 :: joined (t :: l) := by
  rw [joined, List.intercalate_cons_cons, List.append_assoc]
  rfl

theorem trimmed_joined (h : ∀ x ∈ s :: l, Trimmed x) : Trimmed (joined (s :: l)) := by
  induction l generalizing s with
  | nil => simpa [joined] using h
  | cons t l ih =>
    rw [List.forall_mem_cons] at h
    rw [joined_cons_cons]
    exact h.1.join (ih h.2)

/-- A stream that can be taken for two, since it is cut into two names in order by a separator. -/
def Splits (s : Bytes) : Prop := ∃ a b, s = a ++ 31 :: b ∧ Normal [a, b]

theorem splits_joined (h : Normal (s :: t :: l)) : Splits (joined (s :: t :: l)) := by
  refine ⟨s, joined (t :: l), joined_cons_cons, ?_, ?_⟩
  · rw [List.forall_mem_cons, List.forall_mem_singleton]
    exact ⟨h.1 s (by simp), trimmed_joined fun x hx => h.1 x (List.mem_cons_of_mem s hx)⟩
  · rw [List.pairwise_pair]
    have hlt : s < t := (List.pairwise_cons.mp h.2).1 t (by simp)
    have hle : t ≤ joined (t :: l) := by
      cases l with
      | nil => simp [joined]
      | cons u l =>
        rw [joined_cons_cons]
        exact List.le_append_left
    exact List.not_le.mp fun hge => List.not_le.mpr hlt (List.le_trans hle hge)

/-- The joined text determines the streams exactly if it is that of at most one stream that cannot
be taken for two. -/
theorem joined_eq_iff (h : Normal l) :
    (∀ l', Normal l' → joined l = joined l' → l = l') ↔
      l.length ≤ 1 ∧ ∀ s ∈ l, ¬ Splits s := by
  constructor
  · intro hinj
    match l, h with
    | [], _ => simp
    | [s], h =>
      simp only [List.length_singleton, le_refl, List.mem_singleton, forall_eq, true_and]
      rintro ⟨a, b, rfl, hab⟩
      have hpair := hinj [a, b] hab (by rw [joined_cons_cons]; simp [joined])
      simp at hpair
    | s :: t :: l, h =>
      -- the text of several streams is that of one
      have hone := hinj [joined (s :: t :: l)]
        ⟨by simpa using trimmed_joined h.1, List.pairwise_singleton _ _⟩ (by simp [joined])
      simp at hone
  · rintro ⟨hlen, hsplit⟩ l' h' heq
    have hne : ∀ {s : Bytes} {l : List Bytes}, Normal (s :: l) → joined (s :: l) ≠ [] :=
      fun hn => (trimmed_joined hn.1).1
    match l, l', h, h' with
    | [], [], _, _ => rfl
    | [], _ :: _, _, h' => exact absurd heq.symm (hne h')
    | [s], [], h, _ => exact absurd heq (hne h)
    | [s], [t], _, _ => simpa [joined] using heq
    | [s], t :: u :: l', _, h' =>
      have hs : s = joined (t :: u :: l') := by simpa [joined] using heq
      exact absurd (hs ▸ splits_joined h') (hsplit s (by simp))
    | _ :: _ :: _, _, _, _ => simp at hlen

/-- Without the separator in a stream the joined text determines the streams. -/
theorem joined_injective (hl : Normal l) (hl' : Normal l') (hsep : ∀ s ∈ l, 31 ∉ s)
    (hsep' : ∀ s ∈ l', 31 ∉ s) (h : joined l = joined l') : l = l' := by
  cases l with
  | nil =>
    cases l' with
    | nil => rfl
    | cons s l' => exact absurd h.symm (trimmed_joined hl'.1).1
  | cons s l =>
    cases l' with
    | nil => exact absurd h (trimmed_joined hl.1).1
    | cons s' l' =>
      rw [← List.splitOn_intercalate 31 hsep (List.cons_ne_nil s l),
        ← List.splitOn_intercalate 31 hsep' (List.cons_ne_nil s' l')]
      exact congrArg _ h

end Streams

section Main

variable {sha256 : Bytes → Bytes} {c d : Config}

theorem normalizeConfig_eq_iff : normalizeConfig c = normalizeConfig d ↔
    { normalizeConfig c with streams := [] } = { normalizeConfig d with streams := [] } ∧
      (normalizeConfig c).streams = (normalizeConfig d).streams := by
  simp only [normalizeConfig, Config.mk.injEq]
  tauto

/-- The hash tells two configurations apart, and so does a reply of create_sub. -/
def Identifies (sha256 : Bytes → Bytes) (c d : Config) : Prop :=
  (configHash sha256 c = configHash sha256 d ↔ normalizeConfig c = normalizeConfig d) ∧
    ∀ (s : Sub) (a : Sub.CreateArgs) (cfg : Webhook.Config) (f : Fence),
      s.parent = some (cfg, f) → cfg.cfgHash = configHash sha256 c →
      a.cfgHash = configHash sha256 d →
      ((s.createSub a).2 = .matched cfg.owner ↔ normalizeConfig c = normalizeConfig d)

theorem identifies_iff (hsha : Function.Injective sha256) : Identifies sha256 c d ↔
    ({ normalizeConfig c with streams := [] } = { normalizeConfig d with streams := [] } →
      joined (normalizeConfig c).streams = joined (normalizeConfig d).streams →
      (normalizeConfig c).streams = (normalizeConfig d).streams) := by
  rw [Identifies, configHash_eq_iff hsha, fields_eq_iff, normalizeConfig_eq_iff]
  constructor
  · rintro ⟨hiff, -⟩ hrest hjoined
    exact (hiff.mp ⟨hrest, hjoined⟩).2
  · intro hstreams
    have hiff := and_congr_right fun hrest => ⟨hstreams hrest, fun h => congrArg joined h⟩
    refine ⟨hiff, ?_⟩
    intro s a cfg f hparent hcfg ha
    rw [← hiff, ← fields_eq_iff, ← configHash_eq_iff hsha, ← hcfg, ← ha, Sub.createSub, hparent]
    dsimp only
    split <;> simp_all

/-- The hash tells a configuration from every other one, and so does a reply of create_sub, exactly
if it has at most one stream and that one cannot be taken for two. Two configurations whose
streams do not have the separator are told apart. -/
theorem configHash_identifies_iff (hsha : Function.Injective sha256) (c : Config) :
    ((∀ d, Identifies sha256 c d) ↔ (normalizeConfig c).streams.length ≤ 1 ∧
      ∀ s ∈ (normalizeConfig c).streams, ¬ Splits s) ∧
    (∀ d : Config, (∀ s ∈ c.streams ++ d.streams, 31 ∉ s) → Identifies sha256 c d) ∧
    ∀ streams : List Bytes, (∀ s, s ≠ [] →
        (s ∈ streams.map trimSlashes ↔ s ∈ c.streams.map trimSlashes)) →
      configHash sha256 { c with streams := streams } = configHash sha256 c := by
  refine ⟨?_, fun d hsep => ?_, fun streams hsame => ?_⟩
  · refine Iff.trans ?_ (joined_eq_iff (normal_normalizeStreams c.streams))
    constructor
    · intro hall l hl heq
      have hl' : normalizeStreams l = l := normalizeStreams_of_normal hl
      have htold := (identifies_iff hsha).mp (hall { c with streams := l }) rfl
      simp only [normalizeConfig, hl'] at htold
      exact htold heq
    · exact fun hinj d =>
        (identifies_iff hsha).mpr fun _ => hinj _ (normal_normalizeStreams d.streams)
  · rw [List.forall_mem_append] at hsep
    have hkeeps : ∀ {l : List Bytes}, (∀ s ∈ l, 31 ∉ s) → ∀ s ∈ normalizeStreams l, 31 ∉ s := by
      intro l hl s hs hmem
      obtain ⟨raw, hraw, rfl⟩ := List.mem_map.mp (mem_normalize.mp hs).1
      exact hl raw hraw (mem_trimSlashes hmem)
    exact (identifies_iff hsha).mpr fun _ => joined_injective (normal_normalizeStreams _)
      (normal_normalizeStreams _) (hkeeps hsep.1) (hkeeps hsep.2)
  · rw [configHash_eq_iff hsha, normalizeConfig, normalizeConfig]
    dsimp only
    rw [normalizeStreams_congr hsame]

def pullConfig (streams : List Bytes) : Config where
  type := Bytes.ascii "pull-wake"
  pattern := []
  streams := streams
  webhookURL := []
  wakeStream := Bytes.ascii "wakes"
  leaseTTLMs := 0
  description := []

/-- Two streams in either order, one of them with slashes and twice. -/
theorem configHash_identifies_reordered :
    configHash id (pullConfig [[97], [98]]) = configHash id (pullConfig [[47, 98], [97], [98]]) :=
  ((configHash_identifies_iff Function.injective_id _).2.1 _ (by decide)).1.mpr (by decide)

/-- One stream whose name has the separator, and the two streams around it. -/
theorem configHash_confused :
    (∀ sha256, configHash sha256 (pullConfig [[97, 31, 98]]) =
      configHash sha256 (pullConfig [[97], [98]])) ∧
      normalizeConfig (pullConfig [[97, 31, 98]]) ≠ normalizeConfig (pullConfig [[97], [98]]) := by
  constructor
  · intro sha256
    have hfields : fields (normalizeConfig (pullConfig [[97, 31, 98]])) =
        fields (normalizeConfig (pullConfig [[97], [98]])) := by decide
    rw [configHash, configHash, hfields]
  · decide

end Main

end Chronicle.Webhook.ConfigHash
