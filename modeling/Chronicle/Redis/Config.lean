import Chronicle.Redis.Close
import Chronicle.Redis.ForkScripts
import Chronicle.Redis.Serialization

/-! # Matching configurations

A creation over a stream that exists compares its options with the stream. The
script compares strings with the stored fields, and decides as the comparison of
the decoded metadata does, also after appends and closes have written the hash.
-/

namespace Chronicle.Redis

open Decimal

inductive Closing where
  | append (a : AppendArgs)
  | close (a : CloseArgs)

def Closing.run : Closing → StreamKeys → Option (StreamKeys × Reply)
  | .append a => appendScript a
  | .close a => closeScript a

/-- The fields that are fixed by the creation and compared with later ones. -/
def MetaField.config : MetaField → Bool
  | .ct | .ttl | .expAtNs | .wf | .forkedFrom | .forkOff | .forkOffReq | .forkSubOff => true
  | _ => false

variable {md : StreamMetadata}

section Kept

variable {k k' : StreamKeys} {r : Reply}

/-- What a run of the closing script does to the keys. -/
theorem closeScript_keys {a : CloseArgs} (h : closeScript a k = some (k', r)) :
    k' = k ∨ k' = k.del ∨ (∃ f v, (f = .softDel ∨ f = .closed) ∧ k' = k.hset f v) ∨
      (k.info .tail ≠ none ∧ ∃ now, k' = closeCommit k.info a now k) := by
  unfold closeScript at h
  split at h
  · cases h
  split at h
  · cases h
    exact .inl rfl
  rename_i m hm
  obtain ⟨rfl, hpresent⟩ := metaMap_present hm
  split at h
  · cases h
  · obtain ⟨k₁, hclean, heq⟩ := Option.map_eq_some_iff.mp h
    cases heq
    obtain ⟨refs, -, hk⟩ := Option.map_eq_some_iff.mp hclean
    split at hk
    · exact .inr (.inr (.inl ⟨.softDel, one, .inl rfl, hk.symm⟩))
    · exact .inr (.inl hk.symm)
  split at h
  · cases h
  split at h
  · cases h
    exact .inl rfl
  unfold closeOpen at h
  split at h
  · split at h
    · split at h <;> cases h <;> exact .inl rfl
    · cases h
      exact .inl rfl
  split at h
  · obtain ⟨outcome, -, heq⟩ := Option.map_eq_some_iff.mp h
    cases outcome with
    | accept =>
      cases heq
      exact .inr (.inr (.inr ⟨hpresent, _, rfl⟩))
    | _ =>
      cases heq
      exact .inl rfl
  · cases h
    exact .inr (.inr (.inl ⟨.closed, one, .inr rfl, rfl⟩))

theorem closeCommit_info {f : MetaField} (hf : f.config = true) (m : MetaHash) (a : CloseArgs)
    (now : ℤ) (k : StreamKeys) : (closeCommit m a now k).info f = k.info f := by
  apply hsetAll_info_of_ne
  rintro fv hfv rfl
  simp only [closedByFields, fenceBind, List.mem_append, List.mem_cons, List.not_mem_nil,
    or_false] at hfv
  rcases hfv with (rfl | rfl | rfl | rfl) | hfv
  iterate 4 cases hf
  split at hfv
  · split at hfv
    · simp only [List.mem_cons, List.not_mem_nil, or_false] at hfv
      rcases hfv with rfl | rfl <;> cases hf
    · cases hfv
  · cases hfv

/-- The stream has gone, or its configuration is that of the metadata. -/
def Configured (md : StreamMetadata) (k : StreamKeys) : Prop :=
  k.info .tail = none ∨ ∀ f : MetaField, f.config = true → k.info f = metaToFields md f

theorem Configured.hset (h : Configured md k) {f : MetaField} (hf : f.config = false)
    (htail : f ≠ .tail) (v : Bytes) : Configured md (k.hset f v) := by
  refine h.imp (fun hgone => ?_) (fun hkept g hg => ?_)
  · rw [hset_info, if_neg htail.symm, hgone]
  · have hne : g ≠ f := by
      rintro rfl
      exact absurd hg (by simp [hf])
    rw [hset_info, if_neg hne, hkept g hg]

theorem Configured.run (h : Configured md k) {c : Closing} (hrun : c.run k = some (k', r)) :
    Configured md k' := by
  cases c with
  | append a =>
    rcases appendScript_keys hrun with ⟨rfl | ⟨f, v, rfl | rfl, rfl⟩, -⟩ | ⟨rfl, -⟩ |
      ⟨v, now, rfl, -, htail, -⟩
    · exact h
    · exact h.hset rfl (by decide) v
    · exact h.hset rfl (by decide) v
    · exact .inl rfl
    · rcases h.hset (f := .accessedAtNs) rfl (by decide) v with hgone | hkept
      · rw [hset_info, if_neg (by decide), htail] at hgone
        cases hgone
      · refine .inr fun f hf => ?_
        have hnot : f.committed = false ∧ f ≠ .tail := by
          cases f <;> cases hf <;> exact ⟨rfl, nofun⟩
        rw [commit_info_of_not_committed hnot.1 hnot.2, hkept f hf]
  | close a =>
    rcases closeScript_keys hrun with rfl | rfl | ⟨f, v, rfl | rfl, rfl⟩ | ⟨hpresent, now, rfl⟩
    · exact h
    · exact .inl rfl
    · exact h.hset rfl (by decide) v
    · exact h.hset rfl (by decide) v
    · refine .inr fun f hf => ?_
      rw [closeCommit_info hf, h.resolve_left hpresent f hf]

end Kept

section Match

variable {m : MetaHash}

/-- An optional value is told from its argument, which is empty when it is left out. -/
theorem optionArg_eq_iff {α : Type} {format : α → Bytes} (hinj : Function.Injective format)
    (hne : ∀ a, format a ≠ []) (v w : Option α) :
    (v.map format).getD [] = (w.map format).getD [] ↔ v = w := by
  cases v <;> cases w <;> simp [hne, (hne _).symm, hinj.eq_iff]

theorem flagArg_eq_iff (b c : Bool) : flagArg b = flagArg c ↔ b = c := by
  cases b <;> cases c <;> decide

/-- The script decides like the client on the deadline that is sent. -/
theorem configMatches_eq (hfits : MetadataFits md)
    (hkept : ∀ f : MetaField, f.config = true → m f = metaToFields md f)
    (now : Time) (md' : StreamMetadata) (opts : CreateOptions) (frames : List Bytes) :
    configMatches (createArgs now md' opts frames) m =
      { md with closed := m .closed = some one }.configMatches
        { opts with expiresAt := opts.expiresAt.map unixNano } := by
  have hct : m .ct = some md.contentType := hkept .ct rfl
  have httl : m .ttl = md.ttlSeconds.map formatInt := hkept .ttl rfl
  have hexp : m .expAtNs = md.expiresAt.map formatInt := (hkept .expAtNs rfl).trans
    (Option.map_congr fun t ht => by rw [unixNano_eq (hfits.expiresAt t ht)])
  have hprobe : (opts.expiresAt.map fun t => formatInt (unixNano t)) =
      (opts.expiresAt.map unixNano).map formatInt := by
    cases opts.expiresAt <;> rfl
  have hwf : m .wf = flag md.writeFence := hkept .wf rfl
  have hfrom : m .forkedFrom = nonEmpty md.forkedFrom := hkept .forkedFrom rfl
  have hoff : m .forkOff = if md.forkedFrom = [] then none else some md.forkOffset.string :=
    hkept .forkOff rfl
  have hreq : m .forkOffReq =
      if md.forkedFrom = [] then none else md.forkOffsetRequested.map Offset.string :=
    hkept .forkOffReq rfl
  have hsub : (m .forkSubOff).getD [48] =
      if md.forkedFrom = [] then [48] else formatNat md.forkSubOffset := by
    rw [hkept .forkSubOff rfl, metaToFields]
    by_cases hf : md.forkedFrom = []
    · simp [hf]
    · by_cases hzero : md.forkSubOffset = 0
      · simp [hf, hzero]
        rfl
      · simp [hf, hzero]
  have hsubArg : (opts.forkSubOffset.map formatNat).getD [48] =
      formatNat (opts.forkSubOffset.getD 0) := by
    cases opts.forkSubOffset <;> rfl
  rw [Bool.eq_iff_iff]
  simp only [configMatches, createArgs, StreamMetadata.configMatches, hct, httl, hexp, hprobe, hwf,
    hfrom, hoff, hreq, hsub, hsubArg, normCt_some, normalizeCT, contentTypeMatches, equalFold,
    nonEmpty_getD, flag_eq_one, flagArg_eq_iff, Bool.and_eq_true, Bool.or_eq_true, beq_iff_eq,
    decide_eq_true_eq, Bool.decide_eq_true, optionArg_eq_iff formatInt_injective formatInt_ne_nil]
  refine and_congr_right fun hbase => or_congr_right' fun hfork => ?_
  have hne : md.forkedFrom ≠ [] := fun hnil => hfork (hbase.2 ▸ hnil)
  have hstring (o : Offset) : o.string ≠ [] := by simp [Offset.string]
  simp only [hne, if_false, formatNat_injective.eq_iff]
  cases opts.forkOffset with
  | none => simp
  | some o =>
    cases md.forkOffsetRequested <;> simp [hstring, Offset.string_injective.eq_iff]

theorem configMatches_expiresAt {opts : CreateOptions} (h : md.configMatches opts = true) :
    md.expiresAt = opts.expiresAt := by
  simp only [StreamMetadata.configMatches, Bool.and_eq_true, beq_iff_eq] at h
  exact h.1.1.1.1.2

end Match

/-- The metadata of a creation is read back from the fields that it writes, and whatever closes
the stream later, the script matches options with the fields as the client matches them with the
metadata, except for a deadline out of range that wraps around to that of a stream which matches
otherwise. -/
theorem create_config_agrees {md : StreamMetadata} {k k' : StreamKeys} {scripts : List Closing}
    (hfits : MetadataFits md) (hincarnation : md.incarnation ≠ []) (hsealed : md.sealedOffset = none)
    (hcreated : k.info = metaToFields md)
    (hrun : Trace.Run (fun k (c : Closing) k' => ∃ r, c.run k = some (k', r)) k scripts k')
    (hexists : k'.info .tail ≠ none) :
    metaFromFields md.path (metaToFields md) = .ok (some (readBack md.path md)) ∧
    ∀ (now : Time) (fresh : StreamMetadata) (opts : CreateOptions) (frames : List Bytes),
      let md' := { md with closed := k'.info .closed = some one }
      configMatches (createArgs now fresh opts frames) k'.info = md'.configMatches opts ↔
        ∀ t, opts.expiresAt = some t → md.expiresAt = some (unixNano t) →
          md'.configMatches { opts with expiresAt := md.expiresAt } = true → FitsInt64 t := by
  have hhash : HashMirrors { metadata := md } (metaToFields md) := by
    refine ⟨fun f _ => ?_, refCountOf_metaToFields md, hincarnation⟩
    exact congrFun (@metaToFields_eq { metadata := md } hfits rfl rfl rfl hsealed) f
  refine ⟨metaFromFields_mirrors hhash hfits md.path, fun now fresh opts frames => ?_⟩
  have hkept : Configured md k' :=
    hrun.invariant (.inr fun f _ => by rw [hcreated]) fun _ _ _ h hstep => h.run hstep.choose_spec
  intro md'
  rw [configMatches_eq hfits (hkept.resolve_left hexists) now fresh opts frames]
  by_cases hrange : ∀ t, opts.expiresAt = some t → FitsInt64 t
  · have hsent : opts.expiresAt.map unixNano = opts.expiresAt :=
      (Option.map_congr fun t ht => unixNano_eq (hrange t ht)).trans Option.map_id'
    rw [hsent]
    exact ⟨fun _ t ht _ _ => hrange t ht, fun _ => rfl⟩
  push Not at hrange
  obtain ⟨t, hopts, ht⟩ := hrange
  have hclient : md'.configMatches opts = false := by
    by_contra hmatch
    have hstored := configMatches_expiresAt (eq_true_of_ne_false hmatch)
    exact ht (hfits.expiresAt t (hstored.trans hopts))
  rw [hclient, hopts]
  constructor
  · rintro hscript _ ⟨⟩ hwrap hmatch
    rw [hwrap] at hmatch
    exact absurd (hmatch.symm.trans hscript) (by decide)
  · intro h
    by_contra hscript
    have hmatch := eq_true_of_ne_false hscript
    have hwrap : md.expiresAt = some (unixNano t) := configMatches_expiresAt hmatch
    refine ht (h t rfl hwrap ?_)
    rw [hwrap]
    exact hmatch

def plainKeys : StreamKeys := { info := metaToFields sourceStream.metadata }

theorem create_config_agrees_closed :
    configMatches (createArgs 0 sourceStream.metadata
      { contentType := Bytes.ascii "Application/Octet-Stream;q=1", ttlSeconds := some 1
        closed := true } []) (plainKeys.hset .closed one).info = true :=
  ((create_config_agrees (k := plainKeys) sourceStream_fits (by decide) rfl rfl
    (.snoc (e := .close (closeArgs 0 [97] none none)) .nil ⟨_, rfl⟩) (by decide)).2 0 _ _ []).mpr
    nofun |>.trans (by decide)

/-- A deadline is taken for one that is 584 years earlier. -/
theorem create_config_wrapped :
    let md := { sourceStream.metadata with ttlSeconds := none, expiresAt := some 5 }
    let opts : CreateOptions := { contentType := octetStream, expiresAt := some (5 + 2 ^ 64) }
    configMatches (createArgs 0 md opts []) (metaToFields md) = true ∧
      md.configMatches opts = false := by
  decide

end Chronicle.Redis
