import Chronicle.Handler.Response
import Chronicle.Memory.Closing
import Chronicle.Memory.Tiling

/-! # Catch-up reads and their entity tags

A catch-up read captures the stream with its first page and then writes the rest
of the captured messages page by page, while other calls go on. Its entity tag
names the offset at which the response ends and nothing else. Two responses with
one tag are the same response when they were captured from one stream that was not
closed there in between, or from streams that hold the same messages up to it.
-/

namespace Chronicle.Handler

open MemoryStore

section Request

/-- What a read reads of its query: the values of the offset parameter, and the
limit and the envelope, empty where absent. -/
structure ReadQuery where
  offset : List Bytes := []
  limit : Bytes := []
  envelope : Bytes := []
  deriving DecidableEq, Repr

structure ReadParams where
  offset : Offset
  limit : ℕ := 0
  envelope : Bool := false
  deriving DecidableEq, Repr

def parseLimit (v : Bytes) : ℕ := ((Decimal.parseInt64 v).getD 0).toNat

def parseEnvelope (v : Bytes) : Bool := v = Bytes.ascii "1" || equalFold v (Bytes.ascii "true")

def ReadQuery.parse (q : ReadQuery) : Except Bytes ReadParams :=
  if 1 < q.offset.length then .error (Bytes.ascii "multiple offset parameters not allowed")
  else if q.offset = [[]] then .error (Bytes.ascii "offset parameter cannot be empty")
  else
    match Offset.parseOffset (q.offset.headD []) with
    | none => .error (Bytes.ascii "invalid offset")
    | some offset =>
      let limit := parseLimit q.limit
      if defaultReadPageFrames < limit then .error (Bytes.ascii "limit cannot exceed 1024")
      else .ok { offset, limit, envelope := parseEnvelope q.envelope }

end Request

section Response

structure ReadHead where
  contentType : Bytes
  nextOffset : Bytes
  upToDate : Bool
  closed : Bool
  etag : Option Bytes := none
  cacheControl : Option Bytes := none
  envelope : Bool := false
  deriving DecidableEq, Repr

inductive ReadFailure where
  | http (status : ℕ) (message : Bytes)
  | store (err : StoreError)
  deriving DecidableEq, Repr

def readPageError : StoreError → ReadFailure
  | .streamNotFound => .http 404 (Bytes.ascii "stream not found")
  | .streamSoftDeleted => .http 410 (Bytes.ascii "stream has been deleted")
  | err => .store err

inductive ReadReply where
  | failed (failure : ReadFailure)
  /-- An answer to a read from now on. -/
  | now (head : ReadHead) (body : Bytes)
  | notModified (head : ReadHead)
  /-- The rest is up to `streamCatchupResponse`. -/
  | stream (head : ReadHead) (first : ReadPage) (opts : ReadPageOptions)
      (stopAfterFirst json enveloped : Bool)
  deriving DecidableEq, Repr

def etagOf (enveloped : Bool) (nextOffset : Offset) : Bytes :=
  if enveloped then [34] ++ nextOffset.string ++ Bytes.ascii "~env" ++ [34]
  else [34] ++ nextOffset.string ++ [34]

def stopsAfterFirst (params : ReadParams) (first : ReadPage) : Bool :=
  0 < params.limit && isJSONContentType first.snapshot.contentType

def isEnveloped (params : ReadParams) (first : ReadPage) : Bool :=
  params.envelope && isJSONContentType first.snapshot.contentType

def messagesHead (params : ReadParams) (first : ReadPage) : ReadHead :=
  let stopAfterFirst := stopsAfterFirst params first
  let nextOffset := if stopAfterFirst then first.nextOffset else first.snapshot.tail
  let upToDate := if stopAfterFirst then first.upToDate else true
  { contentType := first.snapshot.contentType
    nextOffset := nextOffset.string
    upToDate := upToDate
    closed := first.snapshot.closed && upToDate
    etag := some (etagOf (isEnveloped params first) nextOffset)
    cacheControl :=
      if !upToDate && first.messages ≠ [] then
        some (Bytes.ascii "public, max-age=60, stale-while-revalidate=300")
      else none }

/-- The answer for a captured first page. -/
def readReply (params : ReadParams) (ifNoneMatch : Bytes) (opts : ReadPageOptions)
    (first : ReadPage) : ReadReply :=
  let json := isJSONContentType first.snapshot.contentType
  let enveloped := isEnveloped params first
  if params.offset.isNow then
    .now
      { contentType := first.snapshot.contentType
        nextOffset := first.snapshot.tail.string
        upToDate := true
        closed := first.snapshot.closed
        cacheControl := some (Bytes.ascii "no-store")
        envelope := enveloped }
      (if json then Bytes.ascii "[]" else [])
  else
    let head := messagesHead params first
    if ifNoneMatch ≠ [] ∧ head.etag = some ifNoneMatch then .notModified head
    else
      .stream { head with envelope := enveloped } first opts (stopsAfterFirst params first) json
        enveloped

end Response

section Read

structure ReadHandler where
  readPageBytes : ℤ := 0

namespace ReadHandler

variable (h : ReadHandler)

def pageBytes : ℕ :=
  if 0 < h.readPageBytes then h.readPageBytes.toNat else defaultReadPageBytes

def pageOpts (params : ReadParams) : ReadPageOptions where
  targetBytes := h.pageBytes
  maxFrames :=
    if 0 < params.limit ∧ params.limit < defaultReadPageFrames then params.limit
    else defaultReadPageFrames

/-- A read without credentials and without a live mode, up to its first page. A
query that is refused is so only for a stream that is there, and does not count
as access to it. -/
def handleRead (s : MemoryStore) (env : Env) (path : Path) (query : ReadQuery)
    (ifNoneMatch : Bytes) : Option (MemoryStore × ReadReply) :=
  match query.parse with
  | .error message =>
    (s.readPage env.fuel (env.clock 0) (env.clock 1) path nowOffset
        { targetBytes := 1, maxFrames := 1, noTouch := true }).map fun (s, r) =>
      match r with
      | .error err => (s, .failed (readPageError err))
      | .ok _ => (s, .failed (.http 400 message))
  | .ok params =>
    (s.readPage env.fuel (env.clock 0) (env.clock 1) path params.offset
        (h.pageOpts params)).map fun (s, r) =>
      match r with
      | .error err => (s, .failed (readPageError err))
      | .ok first => (s, readReply params ifNoneMatch (h.pageOpts params) first)

end ReadHandler

def nextPage (env : Env) (path : Path) (opts : ReadPageOptions) (snapshot : ReadSnapshot)
    (page : ReadPage) (r : Except StoreError ReadPage) : Event :=
  ⟨env, .readPage path page.nextOffset { opts with snapshot := some snapshot }, .readPage r⟩

/-- How the loop over the pages can go on from a page that is to be written, with
the events until its end and the body if it is not given up. Other calls that meet
a condition happen between two pages. -/
inductive StreamCatchupResponse (P : MemoryStore → Event → Bool) (path : Path)
    (opts : ReadPageOptions) (snapshot : ReadSnapshot) (stopAfterFirst : Bool) :
    MemoryStore → ReadPage → CatchupResponseWriter → List Event → Option Bytes → Prop
  | close {s page writer} (hlast : stopAfterFirst = true ∨ page.upToDate = true) :
      StreamCatchupResponse P path opts snapshot stopAfterFirst s page writer []
        (some (writer.writePage page.messages).close.writes.flatten)
  | next {s s₁ s₂ page page' writer others env rest body}
      (hmore : stopAfterFirst = false ∧ page.upToDate = false)
      (hothers : Trace.Run (Guarded P) s others s₁)
      (hread : Step s₁ (nextPage env path opts snapshot page (.ok page')) s₂)
      (hmoves : page'.messages ≠ [] ∨ page'.upToDate = true)
      (hrest : StreamCatchupResponse P path opts snapshot stopAfterFirst s₂ page'
        (writer.writePage page.messages) rest body) :
      StreamCatchupResponse P path opts snapshot stopAfterFirst s page writer
        (others ++ nextPage env path opts snapshot page (.ok page') :: rest) body
  | failed {s s₁ s₂ page writer others env err}
      (hmore : stopAfterFirst = false ∧ page.upToDate = false)
      (hothers : Trace.Run (Guarded P) s others s₁)
      (hread : Step s₁ (nextPage env path opts snapshot page (.error err)) s₂) :
      StreamCatchupResponse P path opts snapshot stopAfterFirst s page writer
        (others ++ [nextPage env path opts snapshot page (.error err)]) none
  | stuck {s s₁ s₂ page page' writer others env}
      (hmore : stopAfterFirst = false ∧ page.upToDate = false)
      (hothers : Trace.Run (Guarded P) s others s₁)
      (hread : Step s₁ (nextPage env path opts snapshot page (.ok page')) s₂)
      (hstuck : page'.messages = [] ∧ page'.upToDate = false) :
      StreamCatchupResponse P path opts snapshot stopAfterFirst s page writer
        (others ++ [nextPage env path opts snapshot page (.ok page')]) none

structure Response where
  head : ReadHead
  body : Bytes
  deriving DecidableEq, Repr

/-- The responses to a read that captures a state, with the events until they are written. -/
inductive Responds (P : MemoryStore → Event → Bool) (h : ReadHandler) (path : Path)
    (query : ReadQuery) (ifNoneMatch : Bytes) (s : MemoryStore) : List Event → Response → Prop
  | now {s' env head body} (hread : h.handleRead s env path query ifNoneMatch =
        some (s', .now head body)) :
      Responds P h path query ifNoneMatch s [] ⟨head, body⟩
  | stream {s' env head first opts stopAfterFirst json enveloped events body}
      (hread : h.handleRead s env path query ifNoneMatch =
        some (s', .stream head first opts stopAfterFirst json enveloped))
      (hrest : StreamCatchupResponse P path opts first.snapshot stopAfterFirst s' first
        { json, enveloped } events (some body)) :
      Responds P h path query ifNoneMatch s events ⟨head, body⟩

end Read

section Body

namespace CatchupResponseWriter

variable {w : CatchupResponseWriter}

theorem write_started (w : CatchupResponseWriter) (p : Bytes) : (w.write p).started = w.started := by
  unfold write
  split <;> rfl

theorem start_started (w : CatchupResponseWriter) : w.start.started = true := by
  unfold start
  split
  · assumption
  · dsimp only
    split
    · exact write_started _ _
    · rfl

theorem start_of_started (h : w.started = true) : w.start = w := if_pos h

theorem writeMessage_started (w : CatchupResponseWriter) (m : Message) :
    (w.writeMessage m).started = w.started := by
  unfold writeMessage
  simp only [apply_ite started, write_started, ite_self]

theorem foldl_started (messages : List Message) (h : w.started = true) :
    (messages.foldl writeMessage w).started = true := by
  induction messages generalizing w with
  | nil => exact h
  | cons m messages ih => exact ih ((writeMessage_started w m).trans h)

theorem writePage_append (w : CatchupResponseWriter) (l l' : List Message) :
    w.writePage (l ++ l') = (w.writePage l).writePage l' := by
  rw [writePage, writePage, writePage, List.foldl_append,
    start_of_started (foldl_started l w.start_started)]

end CatchupResponseWriter

def responseBody (contentType : Bytes) (envelope : Bool) (messages : List Message) : Bytes :=
  let json := isJSONContentType contentType
  let writer : CatchupResponseWriter := { json, enveloped := envelope && json }
  (writer.writePage messages).close.writes.flatten

end Body

section Capture

/-- A stream as a read captures it, with the messages visible of it. -/
structure Capture where
  stream : MemoryStream
  visible : List Message

def Capture.At (s : MemoryStore) (path : Path) (c : Capture) : Prop :=
  s.streams.lookup path = some c.stream ∧ ∃ n, Chronicle.visible s.streams n c.stream = some c.visible

namespace Capture

variable {s s₁ s₂ s' : MemoryStore} {path : Path} {c c' : Capture} {history : List Event}
  {opts : ReadPageOptions} {page : ReadPage}

def tail (c : Capture) : Offset := c.stream.metadata.currentOffset

def closed (c : Capture) : Bool := c.stream.metadata.closed

def text (c : Capture) (params : ReadParams) (next : Offset) : Bytes :=
  responseBody c.stream.metadata.contentType params.envelope
    (c.visible.filter (inRange params.offset next))

def closedAt (c : Capture) (next : Offset) : Bool := c.closed && next = c.tail

theorem closedAt_eq_true {next : Offset} :
    c.closedAt next = true ↔ c.closed = true ∧ c.tail = next := by
  rw [closedAt, Bool.and_eq_true, decide_eq_true_eq, eq_comm (a := next)]

theorem inOrder (hi : Isolated s.streams) (hc : c.At s path) : InOrder c.visible c.tail := by
  obtain ⟨hp, n, hvis⟩ := hc
  exact visible_inOrder hi.laid hp hvis

theorem bodies_ne_nil (hrun : Trace.Run (Guarded isolatesForks) s history s') (p : Path) :
    ∀ b ∈ bodiesOf p history, b ≠ [] := by
  intro b hb
  obtain ⟨e, he, hbody⟩ := List.mem_filterMap.mp hb
  obtain ⟨-, hsteps⟩ := hrun.mem_step (I := fun _ => True) trivial fun _ _ _ _ _ _ => trivial
  obtain ⟨s₁, s₂, -, -, hsafe⟩ := hsteps e he
  simp only [isolatesForks, Bool.and_eq_true] at hsafe
  exact bodyOn_ne_nil hsafe.2 b (by simpa using hbody)

theorem later (hi : Isolated s₁.streams) (hc : c.At s₁ path) (hc' : c'.At s₂ path)
    (hrun : Trace.Run (Guarded isolatesForks) s₁ history s₂)
    (hsame : ∀ e ∈ history, e.created ≠ some path) :
    ∃ extra, c'.visible = c.visible ++ extra ∧ (∀ m ∈ extra, c.tail < m.offset) ∧
      c.tail ≤ c'.tail ∧
      c'.stream.metadata.contentType = c.stream.metadata.contentType := by
  obtain ⟨hp, n, hvis⟩ := hc
  obtain ⟨hp', n', hvis'⟩ := hc'
  obtain ⟨own, hsplits, hct, htail, hown⟩ := content_run hi hp hvis hrun hsame hp'
  have hne := hsplits.nonempty (bodies_ne_nil hrun path)
  refine ⟨layOut c.tail own, visible_unique hvis' hown, ?_, ?_, hct⟩
  · intro m hm
    exact base_lt_layOut hne hm
  · exact (le_endOffset _ own).trans_eq htail.symm

theorem suffix_append {vis extra : List Message} {next tail : Offset}
    (hextra : ∀ m ∈ extra, tail < m.offset) :
    suffix (vis ++ extra) next tail = suffix vis next tail := by
  have hnil : extra.filter (inRange (readStart next tail) tail) = [] := by
    rw [List.filter_eq_nil_iff]
    intro m hm
    simp [inRange, hextra m hm]
  rw [suffix, List.filter_append, hnil, List.append_nil]
  rfl

theorem page_of (hi : Isolated s.streams) (hc : c.At s path) {env : Env} {next : Offset}
    (h : s.readPage env.fuel (env.clock 0) (env.clock 1) path next opts = some (s', .ok page)) :
    let snapshot := opts.snapshot.getD c.stream.snapshot
    PageOf c.visible next snapshot.tail opts page ∧ page.snapshot = snapshot := by
  obtain ⟨hp, n, hvis⟩ := hc
  obtain ⟨st, hp', hread⟩ := readPage_readable h
  cases hp.symm.trans hp'
  obtain ⟨s₁, page₁, h₁, hmsgs, hnext, hup, hsnap⟩ := readPage_eq hi.laid hp hread
    (visible_mono (le_max_right env.fuel n) hvis) (env.clock 1) next
  rw [readPage_mono (le_max_left env.fuel n) h] at h₁
  cases h₁
  exact ⟨⟨hmsgs, hnext, hup⟩, hsnap⟩

theorem nextPage_of {s₀ : MemoryStore} (hi : Isolated s₀.streams) (hc : c.At s₀ path)
    (hrun : Trace.Run (Guarded isolatesForks) s₀ history s)
    (hfresh : ∀ e ∈ history, e.born path ≠ some c.stream.snapshot.incarnation) {env : Env}
    {page' : ReadPage}
    (h : Step s (nextPage env path opts c.stream.snapshot page (.ok page')) s') :
    PageOf c.visible page.nextOffset c.tail { opts with snapshot := some c.stream.snapshot }
      page' := by
  obtain ⟨⟨s₁, r⟩, hread, heq⟩ := Option.map_eq_some_iff.mp h
  cases heq
  have his : Isolated s.streams :=
    hrun.invariant (I := fun s => Isolated s.streams) hi fun _ _ _ => isolated_step
  obtain ⟨st, hp, hreadable⟩ := readPage_readable hread
  obtain ⟨n, vis, hvis⟩ := his.visible_some hp
  have hc' : Capture.At s path ⟨st, vis⟩ := ⟨hp, n, hvis⟩
  have hinc : memoryReadIncarnation st.metadata = c.stream.snapshot.incarnation := by
    have hsame := hreadable.same _ rfl
    simp only [sameReadStream, Bool.and_eq_true, decide_eq_true_eq] at hsame
    exact hsame.1.2.symm
  have hold := (run_same (hrun.mono fun _ _ _ hstep => hstep.1) hp (by rwa [hinc])).1
  obtain ⟨extra, hextra, hbehind, -⟩ := later hi hc hc' hrun hold
  obtain ⟨⟨hmsgs, hnext, hup⟩, -⟩ := page_of his hc' hread
  refine ⟨?_, hnext, hup⟩
  rw [hmsgs, hextra]
  exact congrArg _ (suffix_append hbehind)

theorem stream_body {s₀ : MemoryStore} (hi : Isolated s₀.streams) (hc : c.At s₀ path)
    {writer : CatchupResponseWriter}
    {events : List Event} {stopAfterFirst : Bool} {result : Option Bytes} {body : Bytes}
    (h : StreamCatchupResponse isolatesForks path opts c.stream.snapshot stopAfterFirst s page
      writer events result) (hresult : result = some body)
    (hrun : Trace.Run (Guarded isolatesForks) s₀ history s)
    (hfresh : ∀ e ∈ history ++ events, e.born path ≠ some c.stream.snapshot.incarnation) :
    body = (writer.writePage (page.messages ++ if stopAfterFirst = true ∨ page.upToDate = true
      then [] else suffix c.visible page.nextOffset c.tail)).close.writes.flatten := by
  induction h generalizing history with
  | close hlast =>
    cases hresult
    rw [if_pos hlast, List.append_nil]
  | @next s s₁ s₂ page page' writer others env rest body' hmore hothers hread hmoves hrest ih =>
    have hrun₁ := hrun.append hothers
    have hpage := nextPage_of hi hc hrun₁ (fun e he => hfresh e (by
      rw [← List.append_assoc]
      exact List.mem_append_left _ he)) hread
    have hsafe : isolatesForks s₁ (nextPage env path opts c.stream.snapshot page (.ok page')) :=
      rfl
    have hbody := ih hresult (hrun₁.snoc ⟨hread, hsafe⟩) (by simpa using hfresh)
    have hsplit := hpage.rest (inOrder hi hc)
    have hunread : ¬ (stopAfterFirst = true ∨ page.upToDate = true) := by simp [hmore]
    rw [hbody, if_neg hunread, hsplit, writer.writePage_append]
    simp only [hmore.1, Bool.false_eq_true, false_or]
  | failed => cases hresult
  | stuck => cases hresult

end Capture

end Capture

variable {ifNoneMatch : Bytes} {h : ReadHandler} {s : MemoryStore} {path : Path} {query : ReadQuery}

section Tags

theorem etagOf_injective {e e' : Bool} {o o' : Offset} (h : etagOf e o = etagOf e' o') :
    o = o' := by
  have htilde : ∀ a b : Offset, a.string ≠ b.string ++ Bytes.ascii "~env" := by
    intro a b hab
    have hmem : 126 ∈ a.string := by
      rw [hab]
      exact List.mem_append_right _ (by decide)
    exact a.not_mem_string rfl (by decide) hmem
  cases e <;> cases e' <;> simp only [etagOf, Bool.false_eq_true, if_true, if_false,
    List.append_assoc, List.append_cancel_left_eq] at h
  · exact Offset.string_injective (List.append_cancel_right h)
  · rw [← List.append_assoc] at h
    exact absurd (List.append_cancel_right h) (htilde o o')
  · rw [← List.append_assoc] at h
    exact absurd (List.append_cancel_right h).symm (htilde o' o)
  · exact Offset.string_injective (List.append_cancel_right h)

variable {params : ReadParams} {opts opts' : ReadPageOptions} {first first' : ReadPage}
  {head : ReadHead} {stopAfterFirst json enveloped : Bool}

structure Streams (params : ReadParams) (first : ReadPage) (head : ReadHead)
    (stopAfterFirst json enveloped : Bool) : Prop where
  past : params.offset.isNow = false
  isJson : json = isJSONContentType first.snapshot.contentType
  isEnveloped : enveloped = isEnveloped params first
  stops : stopAfterFirst = stopsAfterFirst params first
  nextOffset : head.nextOffset = (messagesHead params first).nextOffset
  closed : head.closed = (messagesHead params first).closed
  etag : head.etag = (messagesHead params first).etag

theorem readReply_stream (h : readReply params ifNoneMatch opts first =
    .stream head first' opts' stopAfterFirst json enveloped) :
    first' = first ∧ opts' = opts ∧ Streams params first head stopAfterFirst json enveloped := by
  unfold readReply at h
  dsimp only at h
  split at h
  · cases h
  rename_i hpast
  split at h
  · cases h
  · cases h
    exact ⟨rfl, rfl, by simpa using hpast, rfl, rfl, rfl, rfl, rfl, rfl⟩

variable {s' : MemoryStore} {env : Env}

theorem handleRead_stream (hread : h.handleRead s env path query ifNoneMatch =
    some (s', .stream head first opts stopAfterFirst json enveloped)) :
    ∃ params, query.parse = .ok params ∧ opts = h.pageOpts params ∧
      Step s ⟨env, .readPage path params.offset opts, .readPage (.ok first)⟩ s' ∧
      Streams params first head stopAfterFirst json enveloped := by
  unfold ReadHandler.handleRead at hread
  split at hread
  · obtain ⟨⟨s₁, r⟩, -, heq⟩ := Option.map_eq_some_iff.mp hread
    dsimp only at heq
    split at heq <;> cases heq
  · rename_i params hparse
    obtain ⟨⟨s₁, r⟩, hpage, heq⟩ := Option.map_eq_some_iff.mp hread
    dsimp only at heq
    split at heq
    · cases heq
    · rename_i page
      rw [Prod.mk.injEq] at heq
      obtain ⟨rfl, hreply⟩ := heq
      obtain ⟨rfl, rfl, hstreams⟩ := readReply_stream hreply
      exact ⟨params, hparse, rfl, Option.map_eq_some_iff.mpr ⟨_, hpage, rfl⟩, hstreams⟩

end Tags

section Soundness

variable {s₁ s₂ : MemoryStore} {ifNoneMatch₁ ifNoneMatch₂ : Bytes} {c c₁ c₂ : Capture}
  {r r₁ r₂ : Response} {before between events events₁ events₂ : List Event} {tag : Bytes}

theorem handleRead_now {s' : MemoryStore} {env : Env} {head : ReadHead} {body : Bytes}
    (hread : h.handleRead s env path query ifNoneMatch = some (s', .now head body)) :
    head.etag = none := by
  unfold ReadHandler.handleRead at hread
  split at hread
  all_goals
    obtain ⟨⟨s₁, r⟩, -, heq⟩ := Option.map_eq_some_iff.mp hread
    dsimp only at heq
    split at heq
  · cases heq
  · cases heq
  · cases heq
  · rw [Prod.mk.injEq] at heq
    obtain ⟨-, hreply⟩ := heq
    unfold readReply at hreply
    dsimp only at hreply
    split at hreply
    · cases hreply
      rfl
    · split at hreply <;> cases hreply

theorem Responds.eq (hi : Isolated s.streams) (hc : c.At s path)
    (hr : Responds isolatesForks h path query ifNoneMatch s events r)
    (hfresh : ∀ e ∈ events, e.born path ≠ some c.stream.snapshot.incarnation)
    (htag : r.head.etag = some tag) :
    ∃ params next, query.parse = .ok params ∧ next ≤ c.tail ∧
      (∃ enveloped, tag = etagOf enveloped next) ∧ r.head.nextOffset = next.string ∧
      r.head.closed = c.closedAt next ∧ r.body = c.text params next := by
  cases hr with
  | now hread =>
    rw [handleRead_now hread] at htag
    cases htag
  | @stream s' env head first opts stopAfterFirst json enveloped _ body hread hrest =>
    obtain ⟨params, hparse, rfl, hstep, hstreams⟩ := handleRead_stream hread
    obtain ⟨⟨s'', reply⟩, hpage, heq⟩ := Option.map_eq_some_iff.mp hstep
    cases heq
    obtain ⟨hof, hsnapshot⟩ := Capture.page_of hi hc hpage
    have hof : PageOf c.visible params.offset c.tail (h.pageOpts params) first := hof
    have hsnapshot : first.snapshot = c.stream.snapshot := hsnapshot
    rw [hsnapshot] at hrest
    have ho := Capture.inOrder hi hc
    have hstart : readStart params.offset c.tail = params.offset := by
      simp [readStart, hstreams.past]
    have hrun : Trace.Run (Guarded isolatesForks) s
        ([] ++ [⟨env, .readPage path params.offset (h.pageOpts params), .readPage (.ok first)⟩])
        s' := .snoc .nil ⟨hstep, rfl⟩
    have hbody := Capture.stream_body hi hc hrest rfl hrun (by
      rintro e he
      rw [List.mem_append] at he
      obtain he | he := he
      · obtain rfl : e = _ := by simpa using he
        simp [Event.born]
      · exact hfresh e he)
    have htext : ∀ {next messages},
        messages = c.visible.filter (inRange (readStart params.offset c.tail) next) →
        (({ json, enveloped } : CatchupResponseWriter).writePage messages).close.writes.flatten =
          c.text params next := by
      rintro next messages rfl
      rw [hstart, hstreams.isEnveloped, hstreams.isJson, isEnveloped, hsnapshot]
      rfl
    rw [hstreams.etag] at htag
    unfold messagesHead at htag
    rw [Option.some.injEq] at htag
    cases hstop : stopsAfterFirst params first with
    | true =>
      rw [hstop, if_pos rfl] at htag
      rw [hstreams.stops, hstop, if_pos (.inl rfl), List.append_nil] at hbody
      refine ⟨params, first.nextOffset, hparse, ?_, ⟨_, htag.symm⟩, ?_, ?_, ?_⟩
      · obtain ⟨-, -, hend⟩ | ⟨m, -, hnext, hrange, -⟩ := hof.cases ho
        · exact hend.le
        · rw [hnext]
          simp only [inRange, decide_eq_true_eq] at hrange
          exact hrange.2
      · rw [hstreams.nextOffset, messagesHead, hstop]
        rfl
      · rw [hstreams.closed, messagesHead, hstop, hsnapshot, if_pos rfl, hof.upToDate]
        rfl
      · exact hbody.trans (htext (hof.upTo ho))
    | false =>
      rw [hstop, if_neg (by simp), hsnapshot] at htag
      rw [hstreams.stops, hstop] at hbody
      simp only [Bool.false_eq_true, false_or] at hbody
      rw [← hof.rest ho] at hbody
      refine ⟨params, c.tail, hparse, le_rfl, ⟨_, htag.symm⟩, ?_, ?_, ?_⟩
      · rw [hstreams.nextOffset, messagesHead, hstop, hsnapshot]
        rfl
      · rw [hstreams.closed, messagesHead, hstop, hsnapshot]
        simp [Capture.closedAt, Capture.closed, MemoryStream.snapshot, readSnapshotFromMetadata]
      · exact hbody.trans (htext rfl)

theorem Capture.text_eq (hi : Isolated s₁.streams) (hc₁ : c₁.At s₁ path) (hc₂ : c₂.At s₂ path)
    (hbetween : Trace.Run (Guarded isolatesForks) s₁ between s₂)
    (hsame : ∀ e ∈ between, e.created ≠ some path) (params : ReadParams) {next : Offset}
    (hnext : next ≤ c₁.tail) : c₂.text params next = c₁.text params next := by
  obtain ⟨extra, hvis, hextra, -, hct⟩ := Capture.later hi hc₁ hc₂ hbetween hsame
  have hnil : extra.filter (inRange params.offset next) = [] := by
    rw [List.filter_eq_nil_iff]
    intro m hm
    have hlt := hnext.trans_lt (hextra m hm)
    simp [inRange, hlt]
  rw [text, text, hct, hvis, List.filter_append, hnil, List.append_nil]

theorem Capture.closedAt_iff (hi : Isolated s₁.streams) (hc₁ : c₁.At s₁ path)
    (hc₂ : c₂.At s₂ path) (hbetween : Trace.Run (Guarded isolatesForks) s₁ between s₂)
    (hsame : ∀ e ∈ between, e.created ≠ some path) {next : Offset} (hnext : next ≤ c₁.tail) :
    c₁.closedAt next = c₂.closedAt next ↔
      (c₁.tail = next → c₂.tail = next → c₁.closed = c₂.closed) := by
  obtain ⟨-, -, -, hle, -⟩ := Capture.later hi hc₁ hc₂ hbetween hsame
  have hstays : c₁.closed = true → c₂.closed = true ∧ c₂.tail = c₁.tail := by
    obtain ⟨-, st, hst, hwrites⟩ | ⟨e, he, hborn⟩ :=
      run_lineage (hbetween.mono fun _ _ _ hstep => hstep.1) hc₂.1
    · rw [hc₁.1] at hst
      cases hst
      exact hwrites.staysClosed
    · exact absurd (created_of_born hborn) (hsame e he)
  unfold closedAt
  constructor
  · rintro heq h₁ h₂
    simpa [h₁, h₂] using heq
  · intro hagree
    by_cases h₁ : c₁.tail = next
    · by_cases h₂ : c₂.tail = next
      · rw [hagree h₁ h₂, h₁, h₂]
      · -- the stream has grown since, so it was not closed
        have hopen : c₁.closed = false := by
          rw [Bool.eq_false_iff]
          intro hclosed
          exact h₂ ((hstays hclosed).2.trans h₁)
        simp [hopen, Ne.symm h₂]
    · have hlt : next < c₁.tail := lt_of_le_of_ne hnext (Ne.symm h₁)
      have h₂ : next ≠ c₂.tail := (hlt.trans_le hle).ne
      simp [hlt.ne, h₂]

def Response.Same (r₁ r₂ : Response) : Prop :=
  r₁.body = r₂.body ∧ r₁.head.nextOffset = r₂.head.nextOffset ∧ r₁.head.closed = r₂.head.closed

/-- Two responses with one tag that were captured from one stream are the same if and only if the
stream was not closed in between at an unchanged tail. If they were captured from two streams
that hold the same messages up to the offset of the tag, they are the same if and only if both
streams end there and are closed, or neither. -/
theorem etag_sound_iff (hbefore : Trace.Run (Guarded isolatesForks) empty before s₁)
    (hbetween : Trace.Run (Guarded isolatesForks) s₁ between s₂)
    (hc₁ : c₁.At s₁ path) (hc₂ : c₂.At s₂ path)
    (hr₁ : Responds isolatesForks h path query ifNoneMatch₁ s₁ events₁ r₁)
    (hr₂ : Responds isolatesForks h path query ifNoneMatch₂ s₂ events₂ r₂)
    (hfresh₁ : ∀ e ∈ events₁, e.born path ≠ some c₁.stream.snapshot.incarnation)
    (hfresh₂ : ∀ e ∈ events₂, e.born path ≠ some c₂.stream.snapshot.incarnation)
    (htag₁ : r₁.head.etag = some tag) (htag₂ : r₂.head.etag = some tag) :
    ∃ params next, query.parse = .ok params ∧ r₁.head.nextOffset = next.string ∧
      ((∀ e ∈ between, e.created ≠ some path) →
        (r₁.Same r₂ ↔ (c₁.tail = next → c₂.tail = next → c₁.closed = c₂.closed))) ∧
      (c₁.stream.metadata.contentType = c₂.stream.metadata.contentType →
        c₁.visible.filter (inRange params.offset next) =
          c₂.visible.filter (inRange params.offset next) →
        (r₁.Same r₂ ↔ (c₁.closed = true ∧ c₁.tail = next ↔ c₂.closed = true ∧ c₂.tail = next))) := by
  have hi₁ := isolated_run hbefore
  have hi₂ := isolated_run (hbefore.append hbetween)
  obtain ⟨params, next, hparse, hle, ⟨e₁, he₁⟩, hnext₁, hclosed₁, hbody₁⟩ :=
    hr₁.eq hi₁ hc₁ hfresh₁ htag₁
  obtain ⟨params', next', hparse', -, ⟨e₂, he₂⟩, hnext₂, hclosed₂, hbody₂⟩ :=
    hr₂.eq hi₂ hc₂ hfresh₂ htag₂
  rw [hparse, Except.ok.injEq] at hparse'
  subst hparse'
  obtain rfl : next = next' := etagOf_injective (he₁.symm.trans he₂)
  have hsame : r₁.Same r₂ ↔
      c₁.text params next = c₂.text params next ∧ c₁.closedAt next = c₂.closedAt next := by
    rw [Response.Same, hbody₁, hbody₂, hnext₁, hnext₂, hclosed₁, hclosed₂]
    exact and_congr_right fun _ => and_iff_right rfl
  refine ⟨params, next, hparse, hnext₁, fun hold => ?_, fun hct hmessages => ?_⟩
  · rw [hsame, Capture.closedAt_iff hi₁ hc₁ hc₂ hbetween hold hle]
    exact and_iff_right (Capture.text_eq hi₁ hc₁ hc₂ hbetween hold params hle).symm
  · have htext : c₁.text params next = c₂.text params next := by
      rw [Capture.text, Capture.text, hct, hmessages]
    rw [hsame, and_iff_right htext, Bool.eq_iff_iff, Capture.closedAt_eq_true,
      Capture.closedAt_eq_true]

end Soundness

section Runs

def ReadHandler.respond (h : ReadHandler) (s : MemoryStore) (env : Env) (path : Path)
    (query : ReadQuery) : Option Response :=
  match h.handleRead s env path query [] with
  | some (_, .stream head first _ stopAfterFirst json enveloped) =>
    if stopAfterFirst = true ∨ first.upToDate = true then
      some ⟨head, (({ json, enveloped } : CatchupResponseWriter).writePage
        first.messages).close.writes.flatten⟩
    else none
  | _ => none

theorem ReadHandler.respond_responds {P : MemoryStore → Event → Bool} {h : ReadHandler}
    {s : MemoryStore} (env : Env) {path : Path} {query : ReadQuery} {r : Response}
    (hr : h.respond s env path query = some r) : Responds P h path query [] s [] r := by
  unfold ReadHandler.respond at hr
  split at hr
  · rename_i hread
    rw [Option.ite_none_right_eq_some, Option.some.injEq] at hr
    obtain ⟨hlast, rfl⟩ := hr
    exact .stream hread (.close hlast)
  · cases hr

def taggedCalls : List (Env × Call) := [(.frozen 0, .create [97] { initialData := [1, 2] })]

theorem taggedCalls_run : (MemoryStore.empty.execGuarded isolatesForks taggedCalls).isSome := by
  decide

def taggedLater : List (Env × Call) := [(.frozen 1, .create [98] { forkedFrom := [97] })]

theorem taggedLater_run : ((ran _ taggedCalls taggedCalls_run).2.execGuarded isolatesForks
    taggedLater).isSome := by decide

def later (calls : List (Env × Call))
    (h : ((ran _ taggedCalls taggedCalls_run).2.execGuarded isolatesForks calls).isSome) :
    List Event × MemoryStore :=
  ((ran _ taggedCalls taggedCalls_run).2.execGuarded isolatesForks calls).get h

theorem later_run {calls : List (Env × Call)}
    (h : ((ran _ taggedCalls taggedCalls_run).2.execGuarded isolatesForks calls).isSome) :
    Trace.Run (Guarded isolatesForks) (ran _ taggedCalls taggedCalls_run).2 (later calls h).1
      (later calls h).2 :=
  execGuarded_run .nil (Option.some_get h).symm

def streamIn (s : MemoryStore) (h : (s.streams.lookup [97]).isSome) : MemoryStream :=
  (s.streams.lookup [97]).get h

theorem lookup_streamIn {s : MemoryStore} (h : (s.streams.lookup [97]).isSome) :
    s.streams.lookup [97] = some (streamIn s h) := (Option.some_get h).symm

def plainResponse (closed : Bool) (body : Bytes) : Response where
  head :=
    { contentType := octetStream
      nextOffset := (Offset.mk 0 2).string
      upToDate := true
      closed
      etag := some (etagOf false ⟨0, 2⟩) }
  body

theorem etag_sound_forked :
    ∃ before between s₁ s₂ r₁ r₂ tag, Trace.Run (Guarded isolatesForks) empty before s₁ ∧
      Trace.Run (Guarded isolatesForks) s₁ between s₂ ∧
      Responds isolatesForks {} [97] {} [] s₁ [] r₁ ∧
      Responds isolatesForks {} [97] {} [] s₂ [] r₂ ∧
      r₁.head.etag = some tag ∧ r₂.head.etag = some tag ∧ r₁.Same r₂ := by
  have hr₁ : Responds isolatesForks {} [97] {} [] (ran _ taggedCalls taggedCalls_run).2 []
      (plainResponse false [1, 2]) :=
    ReadHandler.respond_responds (.frozen 1) (by decide)
  have hr₂ : Responds isolatesForks {} [97] {} [] (later _ taggedLater_run).2 []
      (plainResponse false [1, 2]) :=
    ReadHandler.respond_responds (.frozen 2) (by decide)
  have hc₁ : Capture.At (ran _ taggedCalls taggedCalls_run).2 [97]
      ⟨streamIn (ran _ taggedCalls taggedCalls_run).2 (by decide), [⟨[1, 2], ⟨0, 2⟩⟩]⟩ :=
    ⟨lookup_streamIn (by decide), 1, by decide⟩
  have hc₂ : Capture.At (later _ taggedLater_run).2 [97]
      ⟨streamIn (later _ taggedLater_run).2 (by decide), [⟨[1, 2], ⟨0, 2⟩⟩]⟩ :=
    ⟨lookup_streamIn (by decide), 1, by decide⟩
  obtain ⟨params, next, -, -, hsame, -⟩ := etag_sound_iff (ran_guarded taggedCalls_run)
    (later_run taggedLater_run) hc₁ hc₂ hr₁ hr₂ (by simp) (by simp) rfl rfl
  exact ⟨_, _, _, _, _, _, _, ran_guarded taggedCalls_run, later_run taggedLater_run, hr₁, hr₂,
    rfl, rfl, (hsame (by decide)).mpr fun _ _ => by decide⟩

def closeCalls : List (Env × Call) := [(.frozen 1, .closeStream [97])]

theorem closeCalls_run : ((ran _ taggedCalls taggedCalls_run).2.execGuarded isolatesForks
    closeCalls).isSome := by decide

def recreateCalls : List (Env × Call) :=
  [(.frozen 1, .delete [97]), (.frozen 2, .create [97] { initialData := [3, 4] })]

theorem recreateCalls_run : ((ran _ taggedCalls taggedCalls_run).2.execGuarded isolatesForks
    recreateCalls).isSome := by decide

/-- A stream that is closed keeps its tag, and so does one that is created anew with
as many bytes. -/
theorem etag_unsound :
    ∃ before s₁ r₁ tag, Trace.Run (Guarded isolatesForks) empty before s₁ ∧
      Responds isolatesForks {} [97] {} [] s₁ [] r₁ ∧ r₁.head.etag = some tag ∧
      (∃ between s₂ r₂, Trace.Run (Guarded isolatesForks) s₁ between s₂ ∧
        (∀ e ∈ between, e.created ≠ some [97]) ∧
        Responds isolatesForks {} [97] {} [] s₂ [] r₂ ∧ r₂.head.etag = some tag ∧
        r₁.head.closed = false ∧ r₂.head.closed = true) ∧
      (∃ between s₂ r₂, Trace.Run (Guarded isolatesForks) s₁ between s₂ ∧
        Responds isolatesForks {} [97] {} [] s₂ [] r₂ ∧ r₂.head.etag = some tag ∧
        r₁.body = [1, 2] ∧ r₂.body = [3, 4]) := by
  have hr₁ : Responds isolatesForks {} [97] {} [] (ran _ taggedCalls taggedCalls_run).2 []
      (plainResponse false [1, 2]) :=
    ReadHandler.respond_responds (.frozen 1) (by decide)
  have hr₂ : Responds isolatesForks {} [97] {} [] (later _ closeCalls_run).2 []
      (plainResponse true [1, 2]) :=
    ReadHandler.respond_responds (.frozen 2) (by decide)
  have hr₃ : Responds isolatesForks {} [97] {} [] (later _ recreateCalls_run).2 []
      (plainResponse false [3, 4]) :=
    ReadHandler.respond_responds (.frozen 2) (by decide)
  exact ⟨_, _, _, _, ran_guarded taggedCalls_run, hr₁, rfl,
    ⟨_, _, _, later_run closeCalls_run, by decide, hr₂, rfl, rfl, rfl⟩,
    ⟨_, _, _, later_run recreateCalls_run, hr₃, rfl, rfl, rfl⟩⟩

end Runs

end Chronicle.Handler
