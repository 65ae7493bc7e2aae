import Chronicle.Webhook.Fanout

/-! # Completeness of the fan-out index

A link is indexed by commands that follow the script, so until they have run the
index may lack it. A removal from the index is prepared before it runs, and when
it runs after the stream was linked again it removes a member that is needed.
-/

namespace Chronicle.Webhook

open Chronicle.Webhook.Sub

variable {w : World} {id : Bytes} {path : Path}

section Commands

variable {id' : Bytes} {path' : Path}

theorem mem_setMembers (w : World) (id id' : Bytes) (path path' : Path)
    (f : Finset Bytes → Finset Bytes) :
    (w.setMembers id' path' f).members (slotOf id) path =
      if slotOf id = slotOf id' ∧ path = path' then f (w.members (slotOf id') path')
      else w.members (slotOf id) path := by
  unfold World.setMembers
  by_cases hs : slotOf id = slotOf id'
  · rw [hs]
    by_cases hp : path = path' <;> simp [hp]
  · simp [hs]

theorem command_subs (w : World) (c : Command) : (w.command c).subs = w.subs := by
  cases c <;> rfl

theorem mem_sadd (w : World) (id : Bytes) (path : Path) :
    id ∈ (w.command (.sadd id path)).members (slotOf id) path := by
  rw [World.command, mem_setMembers, if_pos ⟨rfl, rfl⟩]
  exact Finset.mem_insert_self _ _

theorem mem_setbit (w : World) (id : Bytes) (path : Path) :
    slotOf id ∈ (w.command (.setbit id path)).occupied path := by
  simp [World.command]

theorem mem_command {c : Command} (h : id ∈ w.members (slotOf id) path) (hc : c ≠ .srem id path) :
    id ∈ (w.command c).members (slotOf id) path := by
  cases c with
  | sadd id' path' =>
    rw [World.command, mem_setMembers]
    split
    · rename_i heq
      rw [← heq.1, ← heq.2]
      exact Finset.mem_insert_of_mem h
    · exact h
  | srem id' path' =>
    rw [World.command, mem_setMembers]
    split
    · rename_i heq
      rw [← heq.1, ← heq.2]
      refine Finset.mem_erase.mpr ⟨?_, h⟩
      rintro rfl
      exact hc (by rw [heq.2])
    · exact h
  | setbit id' path' => exact h

theorem occupied_command {c : Command} {n : ℕ} (h : n ∈ w.occupied path) :
    n ∈ (w.command c).occupied path := by
  cases c with
  | sadd => exact h
  | srem => exact h
  | setbit id' path' =>
    unfold World.command
    by_cases hp : path = path'
    · subst hp
      simp [h]
    · simpa [hp] using h

end Commands

abbrev Conf := Threads.State World Instr

def PendingCommand (st : Conf) (c : Command) : Prop :=
  ∃ commands, st.Pending (.pipeline commands) ∧ c ∈ commands

/-- A link is indexed, or the commands that index it are still to run. -/
def Indexed (id : Bytes) (path : Path) (st : Conf) : Prop :=
  path ∈ (st.world.subs id).links →
    (id ∈ st.world.members (slotOf id) path ∨ PendingCommand st (.sadd id path)) ∧
    (slotOf id ∈ st.world.occupied path ∨ PendingCommand st (.setbit id path))

/-- The member is removed from the index only while its link is absent. -/
def removesUnlinked (id : Bytes) (path : Path) (w : World) (i : Instr) (c : Choice) : Bool :=
  match i, c with
  | .pipeline commands, .index n =>
    commands[n]? ≠ some (.srem id path) || path ∉ (w.subs id).links
  | .stale id' path', _ =>
    id' ≠ id || path' ≠ path || (w.subs id).parent.isSome || path ∉ (w.subs id).links
  | _, _ => true

section Step

variable {w' : World} {ts₁ ts₂ : List (List Instr)} {i : Instr} {p k : List Instr} {e : Linking}
  {s s' : Sub}

theorem PendingCommand.kept {c : Command} (hi : ∀ cs, i = .pipeline cs → c ∉ cs)
    (h : PendingCommand ⟨w, ts₁ ++ (i :: p) :: ts₂⟩ c) :
    PendingCommand ⟨w', ts₁ ++ (k ++ p) :: ts₂⟩ c := by
  rcases h with ⟨cs, hcs, hc⟩
  have hkept : _ ∨ Threads.State.Pending ⟨w', ts₁ ++ (k ++ p) :: ts₂⟩ _ := Threads.pending_kept hcs
  rcases hkept with rfl | hcs
  · exact absurd hc (hi cs rfl)
  · exact ⟨cs, hcs, hc⟩

theorem PendingCommand.sent {commands : List Command} {command c : Command} {n : ℕ}
    (hn : commands[n]? = some command)
    (h : PendingCommand ⟨w, ts₁ ++ (.pipeline commands :: p) :: ts₂⟩ c) :
    c = command ∨
      PendingCommand ⟨w', ts₁ ++ (send (commands.eraseIdx n) ++ p) :: ts₂⟩ c := by
  by_cases hc : c ∈ commands
  · by_cases heq : c = command
    · exact .inl heq
    · have hmem : c ∈ commands.eraseIdx n := by
        rcases List.mem_iff_getElem?.mp hc with ⟨m, hm⟩
        refine List.mem_eraseIdx_iff_getElem?.mpr ⟨m, ?_, hm⟩
        rintro rfl
        rw [hn, Option.some.injEq] at hm
        exact heq hm.symm
      refine .inr ⟨commands.eraseIdx n, Threads.pending_run.mpr (.inl ?_), hmem⟩
      rw [send, if_neg (List.ne_nil_of_mem hmem)]
      exact List.mem_singleton_self _
  · exact .inr (h.kept (by rintro cs hcs; cases hcs; exact hc))

theorem Indexed.kept (h : Indexed id path ⟨w, ts₁ ++ (i :: p) :: ts₂⟩)
    (hlink : path ∈ (w.subs id).links) (hi : ∀ cs, i ≠ .pipeline cs)
    (hm : w'.members = w.members) (ho : w'.occupied = w.occupied) :
    (id ∈ w'.members (slotOf id) path ∨
      PendingCommand ⟨w', ts₁ ++ (k ++ p) :: ts₂⟩ (.sadd id path)) ∧
    (slotOf id ∈ w'.occupied path ∨
      PendingCommand ⟨w', ts₁ ++ (k ++ p) :: ts₂⟩ (.setbit id path)) := by
  rw [hm, ho]
  have hkept : ∀ cs, i = .pipeline cs → ∀ c, c ∉ cs := fun cs hcs => absurd hcs (hi cs)
  rcases h hlink with ⟨hmem, hbit⟩
  exact ⟨hmem.imp_right (.kept fun cs hcs => hkept cs hcs _),
    hbit.imp_right (.kept fun cs hcs => hkept cs hcs _)⟩

theorem pending_indexed (hk : Instr.pipeline (indexCommands id path) ∈ k) :
    PendingCommand ⟨w', ts₁ ++ (k ++ p) :: ts₂⟩ (.sadd id path) ∧
      PendingCommand ⟨w', ts₁ ++ (k ++ p) :: ts₂⟩ (.setbit id path) :=
  ⟨⟨_, Threads.pending_run.mpr (.inl hk), by simp [indexCommands]⟩,
    ⟨_, Threads.pending_run.mpr (.inl hk), by simp [indexCommands]⟩⟩

theorem set_subs_self (w : World) (id : Bytes) (s : Sub) : (w.set id s).subs id = s :=
  Function.update_self ..

theorem set_subs_of_ne (w : World) {id' : Bytes} (s : Sub) (h : id' ≠ id) :
    (w.set id s).subs id' = w.subs id' := Function.update_of_ne h ..

theorem mem_foldl_insert {links : List (Path × Link)} {l : Links}
    (h : path ∈ links.foldl (fun l (path, link) => l.insert path link) l) :
    path ∈ links.map Prod.fst ∨ path ∈ l := by
  induction links generalizing l with
  | nil => exact .inr h
  | cons x links ih =>
    rcases ih h with hmem | hmem
    · exact .inl (List.mem_cons_of_mem _ hmem)
    · rcases Finmap.mem_insert.mp hmem with rfl | hmem
      · exact .inl List.mem_cons_self
      · exact .inr hmem

theorem createSub_links {a : CreateArgs} {owner : Bytes} (h : s.createSub a = (s', .created owner))
    (hmem : path ∈ s'.links) :
    path ∈ a.links.map Prod.fst ∨ path ∈ s.links := by
  unfold createSub at h
  split at h
  · split at h <;> cases h
  · cases h
    exact mem_foldl_insert hmem

theorem linkStream_links {a : LinkArgs} {r : LinkReply} (h : s.linkStream a = (s', r))
    (hmem : path ∈ s'.links) : path = a.path ∨ path ∈ s.links := by
  unfold linkStream at h
  split at h
  · cases h; exact .inr hmem
  · cases h; exact .inr hmem
  split at h
  · cases h; exact Finmap.mem_insert.mp hmem
  split at h
  · cases h; exact Finmap.mem_insert.mp hmem
  · cases h; exact .inr hmem

theorem unlinkStream_links {a : UnlinkArgs} {r : UnlinkReply} (h : s.unlinkStream a = (s', r))
    (hmem : path ∈ s'.links) : path ∈ s.links := by
  unfold unlinkStream at h
  split at h
  · cases h; exact hmem
  · cases h; exact hmem
  split at h
  · cases h; exact hmem
  rename_i cur hcur
  split at h
  · cases h
    rcases Finmap.mem_insert.mp hmem with rfl | hmem
    · exact Finmap.mem_of_lookup_eq_some hcur
    · exact hmem
  · cases h
    exact (Finmap.mem_erase.mp hmem).2

theorem deleteSub_links {x : Option Expectation} (h : s.deleteSub x = (s', .ok)) :
    s'.links = ∅ := by
  unfold deleteSub at h
  split at h <;> cases h
  rfl

theorem deindexStale_subs (w : World) (id : Bytes) (path : Path) :
    (w.deindexStale id path).subs = w.subs := by
  unfold World.deindexStale
  split <;> rfl

/-- The subscription whose keys an instruction writes. -/
def Instr.writes : Instr → Option Bytes
  | .create id .. | .link id .. | .unlink id .. | .delete id .. => some id
  | _ => none

theorem Ran.others {c : Choice} (h : Ran w c i w' k e) (hid : i.writes ≠ some id) :
    w'.subs id = w.subs id := by
  have hset : ∀ {id' s}, some id' ≠ some id → (w.set id' s).subs id = w.subs id :=
    fun hne => set_subs_of_ne w _ fun heq => hne (by rw [heq])
  cases h with
  | created | linked | unlinked | deleted => exact hset hid
  | stale => rw [deindexStale_subs]
  | read | listed | scanned | found | refused => rfl
  | sent => rw [command_subs]

/-- A link that a step leaves was there before, or the step goes on to index it. -/
theorem Ran.links {c : Choice} (h : Ran w c i w' k e) (hlink : path ∈ (w'.subs id).links) :
    path ∈ (w.subs id).links ∨ Instr.pipeline (indexCommands id path) ∈ k := by
  by_cases hid : i.writes = some id
  swap
  · rw [h.others hid] at hlink
    exact .inl hlink
  cases h with
  | created hcreate =>
    cases hid
    rw [set_subs_self] at hlink
    rcases createSub_links hcreate hlink with hnew | hold
    · rcases List.mem_map.mp hnew with ⟨⟨_, link⟩, hmem, rfl⟩
      exact .inr (List.mem_append_left _ (List.mem_map_of_mem
        (f := fun x : Path × Link => Instr.pipeline (indexCommands id x.1)) hmem))
    · exact .inl hold
  | linked hl =>
    cases hid
    rw [set_subs_self] at hlink
    rcases linkStream_links hl hlink with rfl | hold
    · exact .inr (List.mem_singleton_self _)
    · exact .inl hold
  | unlinked hl =>
    cases hid
    rw [set_subs_self] at hlink
    exact .inl (unlinkStream_links hl hlink)
  | deleted hd =>
    cases hid
    rw [set_subs_self, deleteSub_links hd] at hlink
    exact absurd hlink Finmap.notMem_empty
  | refused => exact .inl hlink
  | read | listed | stale | scanned | found | sent => cases hid

theorem Indexed.step {c : Choice} (hi : Indexed id path ⟨w, ts₁ ++ (i :: p) :: ts₂⟩)
    (hexec : exec w i c = some (w', k, e)) (hP : removesUnlinked id path w i c = true) :
    Indexed id path ⟨w', ts₁ ++ (k ++ p) :: ts₂⟩ := by
  intro hlink
  dsimp only at hlink ⊢
  have hran := exec_ran hexec
  rcases hran.links hlink with hold | hk
  swap
  · exact ⟨.inr (pending_indexed hk).1, .inr (pending_indexed hk).2⟩
  cases hran with
  | created | read | linked | unlinked | listed | deleted | scanned | found =>
    exact hi.kept hold (by simp) rfl rfl
  | @stale id' path' _ =>
    unfold World.deindexStale
    split <;> rename_i hstale
    · exact hi.kept hold (by simp) rfl rfl
    · have hne : Command.srem id' path' ≠ .srem id path := by
        rintro heq
        cases heq
        simp only [removesUnlinked, ne_eq, not_true_eq_false, decide_false, Bool.false_or,
          Bool.or_eq_true, decide_eq_true_eq] at hP
        rcases hP with hP | hP
        · exact hstale ⟨hP, hold⟩
        · exact hP hold
      rcases hi hold with ⟨hmem, hbit⟩
      exact ⟨hmem.imp (mem_command · hne) (.kept (by simp)),
        hbit.imp occupied_command (.kept (by simp))⟩
  | @sent commands command n _ hc hn =>
    subst hc
    have hne : command ≠ .srem id path := by
      rintro rfl
      simp [removesUnlinked, hn, hold] at hP
    rcases hi hold with ⟨hmem, hbit⟩
    constructor
    · rcases hmem with hmem | hpend
      · exact .inl (mem_command hmem hne)
      · rcases hpend.sent hn with rfl | hpend
        · exact .inl (mem_sadd w id path)
        · exact .inr hpend
    · rcases hbit with hbit | hpend
      · exact .inl (occupied_command hbit)
      · rcases hpend.sent hn with rfl | hpend
        · exact .inl (mem_setbit w id path)
        · exact .inr hpend
  | refused hne => exact hi.kept hold hne rfl rfl

end Step

/-- The operations on subscriptions and links, each of whose steps meets a condition. -/
abbrev Interleaving (P : World → Instr → Choice → Bool) :
    Conf → Option Linking → Conf → Prop :=
  Threads.Step exec (fun p => starts p = true) fun w i c => P w i c = true

def Conf.init : Conf := ⟨{}, []⟩

theorem indexed_run {h : List (Option Linking)} {st : Conf}
    (hrun : Trace.Run (Interleaving (removesUnlinked id path)) Conf.init h st) :
    Indexed id path st := by
  refine hrun.invariant ?_ ?_
  · intro hlink
    exact absurd hlink Finmap.notMem_empty
  · intro st₁ e st₂ hi hstep
    cases hstep with
    | @start w ts p =>
      intro hlink
      have hpend : ∀ {c}, PendingCommand ⟨w, ts⟩ c → PendingCommand ⟨w, p :: ts⟩ c := by
        rintro c ⟨cs, hcs, hc⟩
        exact ⟨cs, Threads.pending_start.mpr (.inr hcs), hc⟩
      exact ⟨(hi hlink).1.imp_right hpend, (hi hlink).2.imp_right hpend⟩
    | run hexec hP => exact hi.step hexec hP

/-- A link is in the index when all operations have finished, provided that it was removed from
the index only while the link was absent. -/
theorem index_complete {h : List (Option Linking)} {st : Conf} {id : Bytes} {path : Path}
    (hrun : Trace.Run (Interleaving (removesUnlinked id path)) Conf.init h st)
    (hquiet : st.Quiescent) (hlink : path ∈ (st.world.subs id).links) :
    id ∈ st.world.members (slotOf id) path ∧ slotOf id ∈ st.world.occupied path ∧
      id ∈ st.world.streamSubscribers path := by
  have hnone : ∀ c, ¬ PendingCommand st c := by
    rintro c ⟨cs, hcs, -⟩
    exact hquiet.not_pending _ hcs
  rcases indexed_run hrun hlink with ⟨hmem, hbit⟩
  have hmem := hmem.resolve_right (hnone _)
  have hbit := hbit.resolve_right (hnone _)
  exact ⟨hmem, hbit, Finset.mem_biUnion.mpr ⟨_, hbit, hmem⟩⟩

section Runs

def plainLink : Instr := .link [115] { path := [97], linkType := .explicit, offset := [] } none

def plainUnlink : Instr := .unlink [115] { path := [97], stillGlob := false }

def createTurns : List (Threads.Turn Instr Choice) :=
  [.start [.create [115] { cfgHash := [], type := .webhook, pattern := [], leaseTtlMs := 1
                           owner := [], links := [] } []],
    .run 0 (.index 0)]

def linkTurns : List (Threads.Turn Instr Choice) :=
  createTurns ++ [.start [plainLink], .run 0 (.index 0), .run 0 (.index 0), .run 0 (.index 0)]

def interleaved (P : World → Instr → Choice → Bool) (turns : List (Threads.Turn Instr Choice))
    (h : (Trace.execAll (Threads.turn exec starts P) Conf.init turns).isSome) :
    List (Option Linking) × Conf :=
  Trace.executed (Threads.turn exec starts P) Conf.init turns h

theorem interleaved_run {P : World → Instr → Choice → Bool}
    {turns : List (Threads.Turn Instr Choice)}
    (h : (Trace.execAll (Threads.turn exec starts P) Conf.init turns).isSome) :
    Trace.Run (Interleaving P) Conf.init (interleaved P turns h).1 (interleaved P turns h).2 :=
  Trace.executed_run Threads.turn_step h

theorem linkTurns_run :
    (Trace.execAll (Threads.turn exec starts (removesUnlinked [115] [97])) Conf.init
      linkTurns).isSome := by
  decide

theorem index_complete_linked :
    [97] ∈ ((interleaved _ _ linkTurns_run).2.world.subs [115]).links ∧
      [115] ∈ (interleaved _ _ linkTurns_run).2.world.streamSubscribers [97] := by
  have hlink : [97] ∈ ((interleaved _ _ linkTurns_run).2.world.subs [115]).links := by decide
  refine ⟨hlink, (index_complete (interleaved_run linkTurns_run) ?_ hlink).2.2⟩
  decide

def relinkTurns : List (Threads.Turn Instr Choice) :=
  linkTurns ++ [.start [plainUnlink], .run 0 (.index 0)] ++
    [.start [plainLink], .run 0 (.index 0), .run 0 (.index 0), .run 0 (.index 0),
      .run 1 (.index 0)]

theorem relinkTurns_run :
    (Trace.execAll (Threads.turn exec starts fun _ _ _ => true) Conf.init relinkTurns).isSome := by
  decide

theorem index_lost :
    ∃ h st, Trace.Run (Interleaving fun _ _ _ => true) Conf.init h st ∧ st.Quiescent ∧
      (st.world.subs [115]).parent.isSome = true ∧ [97] ∈ (st.world.subs [115]).links ∧
      [115] ∉ st.world.members (slotOf [115]) [97] ∧
      [115] ∉ st.world.streamSubscribers [97] := by
  refine ⟨_, _, interleaved_run relinkTurns_run, ?_, by decide, by decide, by decide, by decide⟩
  decide

end Runs

end Chronicle.Webhook
