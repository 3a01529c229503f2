import MatrixFaces.Net.HttpAnswer

set_option autoImplicit false

/-!
# Which response a body belongs to

The server is known by what it does: each request on a connection has its answer, and what
is heard on a connection is the answers given on it, as far as they came.  A socket that
is held open stands at the end of an answer.

`Serves` states what is relied on of the transport and the server, with the bytes heard and
the answers given as functions of the state.  `Server` is a server with a script, for which
it holds (`Server.serves`).

The main result is `keep_alive_in_step`: in every run of `setHost` and `poll`, with anything
happening to the connection in between, a body that is handed over is the front of the body
of an answer to a request of that very poll, and all of it if its length was given and fits.
`LengthShown` is the condition on each answer given so far: the length that is read off the
window of its header line is the body's, or zero, or more than the buffer holds.

`AtBoundary` is what every call keeps.  `leftover_handed` is a `Content-Length` line that is
too long for the window.
-/

namespace MatrixFaces.Net.Mv

open MatrixFaces.Foundation

/-! ## The server -/

/-- A transport to a server that gives every request one answer, in order, and may stop
anywhere.  `answers` are those on the connection, `heard` is what was read of them, and
`given` has the answers of all connections. -/
structure Serves {σ : Type} (transport : Transport σ) (elapses : σ → σ → Prop) (heard : σ → Bytes)
    (answers given : σ → List Answer) : Prop where
  logs : transport.toClient.Logs heard fun state => (answers state, given state)
  elapse : ∀ {state later}, elapses state later →
    Reads heard (fun state => (answers state, given state)) state later []
  honest : ∀ state, heard state <+: (answers state).flatMap Answer.text
  connect : ∀ {host state next}, transport.connect host state = (true, next) →
    heard next = [] ∧ answers next = []
  given_connect : ∀ host state, given state <+: given (transport.connect host state).2
  given_stop : ∀ state, given state <+: given (transport.stop state)
  given_write : ∀ bytes state, given state <+: given (transport.write bytes state).2
  request : ∀ {topics query keepAlive state sending next},
    buildQuery topics kQueryCap = some query →
    transport.write (requestHeader query.length keepAlive) state =
        ((requestHeader query.length keepAlive).length, sending) →
      transport.write query sending = (query.length, next) →
        ∃ answer, heard next = heard state ∧ answers next = answers state ++ [answer] ∧
          given next = given state ++ [answer]

/-- What is still to come on the connection. -/
def Due {σ : Type} (heard : σ → Bytes) (answers : σ → List Answer) (state : σ) (rest : Bytes) :
    Prop :=
  heard state ++ rest = (answers state).flatMap Answer.text

section

variable {σ : Type} {transport : Transport σ} {elapses : σ → σ → Prop} {heard : σ → Bytes}
  {answers given : σ → List Answer} {bufferCap : Nat} {config : MvConfig} {host : IPAddress}
  {fuel : Nat} {state final : σ}

theorem Serves.due_reads (serves : Serves transport elapses heard answers given)
    {rest bytes : Bytes} (hdue : Due heard answers state rest)
    (hreads : Reads heard (fun state => (answers state, given state)) state final bytes) :
    ∃ more, rest = bytes ++ more ∧ Due heard answers final more := by
  obtain ⟨hheard, hkept⟩ := hreads
  have hanswers : answers final = answers state := congrArg Prod.fst hkept
  have hfront := serves.honest final
  rw [hheard, hanswers, ← hdue, List.prefix_append_right_inj] at hfront
  obtain ⟨more, rfl⟩ := hfront
  refine ⟨more, rfl, ?_⟩
  rw [Due, hheard, hanswers, ← hdue, List.append_assoc]

/-! ## A response is read -/

/-- A line that was read is the next one of the text. -/
theorem Serves.line (serves : Serves transport elapses heard answers given) {text rest : Bytes}
    (htext : chLf ∉ text) (hdue : Due heard answers state (text ++ crlf ++ rest))
    {line : LineStatus × Bytes}
    (h : readLine transport.toClient kHeaderLineCap config.responseTimeoutMs fuel state =
      some (line, final))
    (hstatus : line.1 ≠ .kTimeout) :
    line.2 = windowLine text ∧ Due heard answers final rest := by
  obtain ⟨raw, hraw, hreads, rfl⟩ := readLine_logged serves.logs (by decide) h hstatus
  obtain ⟨more, hmore, hdueMore⟩ := serves.due_reads hdue hreads
  have hcut : text ++ [chCr] = raw ∧ rest = more := by
    have hsplit : (text ++ [chCr]) ++ chLf :: rest = raw ++ chLf :: more := by
      simpa [crlf] using hmore
    have htextCr : chLf ∉ text ++ [chCr] := by
      rw [List.mem_append, List.mem_singleton, not_or]
      exact ⟨htext, by decide⟩
    have hsame : text ++ [chCr] = raw := by
      rw [← takeWhile_bne_append htextCr rest, hsplit, takeWhile_bne_append hraw]
    rw [hsame, List.append_cancel_left_eq, List.cons.injEq] at hsplit
    exact ⟨hsame, hsplit.2⟩
  obtain ⟨rfl, rfl⟩ := hcut
  exact ⟨rfl, hdueMore⟩

/-- What the header loop notes of the fields. -/
def noteFields (fields : List Field) (headers : Headers) : Headers :=
  fields.foldl (fun headers field => noteHeader (windowLine field.line) headers) headers

theorem Serves.headers (serves : Serves transport elapses heard answers given)
    {fields : List Field} {rest : Bytes} {lines : Nat} {headers found : Headers}
    (hdue : Due heard answers state (Answer.fieldsText fields ++ rest))
    (h : readHeaders transport config fuel lines headers state = some (some found, final)) :
    found = noteFields fields headers ∧ Due heard answers final rest := by
  induction lines generalizing fields headers state with
  | zero => cases h
  | succ lines ih =>
      rw [readHeaders] at h
      split at h
      · cases h
      · rename_i status line next hline
        by_cases htimeout : status = .kTimeout
        · rw [if_pos htimeout] at h
          cases h
        · rw [if_neg htimeout] at h
          cases fields with
          | nil =>
              obtain ⟨hwindow, hdueNext⟩ :=
                serves.line List.not_mem_nil (by simpa [Answer.fieldsText] using hdue) hline
                  htimeout
              dsimp only at hwindow
              rw [hwindow, windowLine_nil, if_pos rfl] at h
              cases h
              exact ⟨rfl, hdueNext⟩
          | cons field fields =>
              rw [Answer.fieldsText, List.append_assoc] at hdue
              obtain ⟨hwindow, hdueNext⟩ := serves.line field.lf_not_mem hdue hline htimeout
              dsimp only at hwindow
              rw [hwindow, if_neg field.windowLine_ne_nil] at h
              obtain ⟨hfound, hdueFinal⟩ := ih hdueNext h
              exact ⟨hfound, hdueFinal⟩

theorem noteFields_contentLength {fields : List Field}
    (h : ∀ field ∈ fields, field.name.map tolower ≠ lengthName) (headers : Headers) :
    (noteFields fields headers).contentLength = headers.contentLength := by
  induction fields generalizing headers with
  | nil => rfl
  | cons field fields ih =>
      obtain ⟨hfield, hfields⟩ := List.forall_mem_cons.mp h
      exact (ih hfields _).trans (noteHeader_contentLength (field.not_headerIs hfield) headers)

theorem noteFields_append (fields more : List Field) (headers : Headers) :
    noteFields (fields ++ more) headers = noteFields more (noteFields fields headers) :=
  List.foldl_append

/-- The length noted is the one that the window shows. -/
theorem Answer.noteFields_fields (answer : Answer) :
    (noteFields answer.fields ⟨-1, false⟩).contentLength =
      ((answer.length.map fun field => (field.shown : Int))).getD (-1) := by
  have hbefore := noteFields_contentLength
    (fun field hfield => answer.others field (List.mem_append_left _ hfield)) ⟨-1, false⟩
  have hafter := fun headers => noteFields_contentLength
    (fun field hfield => answer.others field (List.mem_append_right _ hfield)) headers
  rw [Answer.fields, noteFields_append, noteFields_append, hafter]
  cases answer.length with
  | none => exact hbefore
  | some field =>
      exact congrArg Headers.contentLength (field.noteHeader_windowLine _)

/-- The body is one of the answer's. -/
def Delivered (answer : Answer) (cap : Nat) (body : Bytes) : Prop :=
  body <+: answer.body ∧ (answer.length.isSome → answer.body.length ≤ cap → body = answer.body)

/-- A body that is read is the answer's, and the connection is kept only at its end. -/
theorem Serves.body (serves : Serves transport elapses heard answers given) {answer : Answer}
    (hshown : answer.LengthShown (bufferCap - 1)) {headers : Headers}
    (hlength : headers.contentLength =
      ((answer.length.map fun field => (field.shown : Int))).getD (-1))
    {link next : Socket × σ} (hdue : Due heard answers link.2 answer.body) {body : Bytes}
    {reusable : Bool}
    (h : readBody transport bufferCap config fuel headers link =
      some (some (body, reusable), next)) :
    Delivered answer (bufferCap - 1) body ∧
      (reusable = true → Due heard answers next.2 []) := by
  rw [readBody] at h
  dsimp only at h
  cases hfield : answer.length with
  | none =>
      rw [hlength, hfield] at h
      rw [if_pos (by decide)] at h
      split at h
      · cases h
      · rename_i read state hread
        split at h
        · cases h
        · cases h
          obtain ⟨more, hbody, _⟩ := serves.due_reads hdue (readUntilClose_logged serves.logs hread)
          refine ⟨⟨⟨more, hbody.symm⟩, fun hsome => ?_⟩, fun hreusable => by cases hreusable⟩
          rw [hfield] at hsome
          cases hsome
  | some field =>
      have hnumber := hshown field hfield
      have hvalue : headers.contentLength = (field.shown : Int) := by
        rw [hlength, hfield]
        rfl
      have hnatural : ¬ headers.contentLength < 0 := by omega
      have hnat : headers.contentLength.toNat = field.shown := by omega
      rw [if_neg hnatural, hnat] at h
      by_cases hempty : field.shown = 0
      · rw [if_pos hempty] at h
        cases h
      · rw [if_neg hempty] at h
        generalize hwant : (if field.shown < bufferCap - 1 then field.shown
          else bufferCap - 1) = want at h
        split at h
        · cases h
        · cases h
        · rename_i read state hread
          cases h
          obtain ⟨hlengthRead, hreads⟩ := readExactly_logged serves.logs hread
          obtain ⟨more, hbody, hdueMore⟩ := serves.due_reads hdue hreads
          have hfront : body <+: answer.body := ⟨more, hbody.symm⟩
          have hle := hfront.length_le
          refine ⟨⟨hfront, fun _ hfits => hfront.eq_of_length ?_⟩, fun hreusable => ?_⟩
          · rcases hnumber with hnumber | hnumber | hnumber <;> split at hwant <;> omega
          · -- the next answer starts behind the body, since all of it was read
            simp only [Bool.and_eq_true, beq_iff_eq] at hreusable
            have hwhole : body = answer.body := by
              refine hfront.eq_of_length ?_
              rcases hnumber with hnumber | hnumber | hnumber <;> split at hwant <;> omega
            rw [hwhole, List.self_eq_append_right] at hbody
            exact hbody ▸ hdueMore

theorem Serves.response (serves : Serves transport elapses heard answers given) {answer : Answer}
    (hshown : answer.LengthShown (bufferCap - 1)) {link next : Socket × σ}
    (hdue : Due heard answers link.2 answer.text) {body : Bytes} {reusable : Bool}
    (h : readResponse transport bufferCap config fuel link =
      some (some (body, reusable), next)) :
    Delivered answer (bufferCap - 1) body ∧
      (reusable = true → Due heard answers next.2 []) := by
  rw [readResponse] at h
  split at h
  · cases h
  · rename_i status line state hline
    split at h
    · cases h
    · rename_i hok
      obtain ⟨hstatus, _⟩ := not_or.mp hok
      have htimeout : status ≠ .kTimeout := by
        rintro rfl
        exact hstatus (by decide)
      obtain ⟨_, hdueHeaders⟩ := serves.line answer.isStatus hdue hline htimeout
      split at h
      · cases h
      · cases h
      · rename_i headers stateBody hheaders
        obtain ⟨hfound, hdueBody⟩ := serves.headers hdueHeaders hheaders
        exact serves.body hshown (hfound ▸ answer.noteFields_fields) hdueBody h

/-! ### Reading gives no answer -/

/-- Between the two states bytes were read, and nothing else happened. -/
def OnlyReads (heard : σ → Bytes) (answers given : σ → List Answer) (state final : σ) : Prop :=
  ∃ bytes, Reads heard (fun state => (answers state, given state)) state final bytes

theorem OnlyReads.trans {middle : σ} (h : OnlyReads heard answers given state middle)
    (hnext : OnlyReads heard answers given middle final) :
    OnlyReads heard answers given state final := by
  obtain ⟨first, hfirst⟩ := h
  obtain ⟨second, hsecond⟩ := hnext
  exact ⟨first ++ second, hfirst.trans hsecond⟩

theorem OnlyReads.given_eq (h : OnlyReads heard answers given state final) :
    given final = given state := by
  obtain ⟨bytes, _, hkept⟩ := h
  exact congrArg Prod.snd hkept

theorem Serves.headers_reads (serves : Serves transport elapses heard answers given)
    {lines : Nat} {headers : Headers} {found : Option Headers}
    (h : readHeaders transport config fuel lines headers state = some (found, final)) :
    OnlyReads heard answers given state final := by
  induction lines generalizing headers state with
  | zero =>
      cases h
      exact ⟨[], Reads.nil⟩
  | succ lines ih =>
      rw [readHeaders] at h
      split at h
      · cases h
      · rename_i status line next hline
        have hreads : OnlyReads heard answers given state next :=
          readLineFrom_reads serves.logs hline
        split at h
        · cases h
          exact hreads
        · split at h
          · cases h
            exact hreads
          · exact hreads.trans (ih h)

theorem Serves.body_reads (serves : Serves transport elapses heard answers given)
    {headers : Headers} {link next : Socket × σ} {response : Option Response}
    (h : readBody transport bufferCap config fuel headers link = some (response, next)) :
    OnlyReads heard answers given link.2 next.2 := by
  rw [readBody] at h
  dsimp only at h
  split at h
  · split at h
    · cases h
    · rename_i body state hread
      have hreads : OnlyReads heard answers given link.2 state :=
        ⟨body, readUntilClose_logged serves.logs hread⟩
      split at h <;> cases h <;> exact hreads
  · split at h
    · cases h
      exact ⟨[], Reads.nil⟩
    · generalize (if headers.contentLength.toNat < bufferCap - 1 then
        headers.contentLength.toNat else bufferCap - 1) = want at h
      split at h
      · cases h
      · rename_i state hread
        cases h
        exact readExactlyFrom_reads serves.logs hread
      · rename_i body state hread
        cases h
        exact readExactlyFrom_reads serves.logs hread

theorem Serves.response_reads (serves : Serves transport elapses heard answers given)
    {link next : Socket × σ} {response : Option Response}
    (h : readResponse transport bufferCap config fuel link = some (response, next)) :
    OnlyReads heard answers given link.2 next.2 := by
  rw [readResponse] at h
  split at h
  · cases h
  · rename_i status line state hline
    have hreads : OnlyReads heard answers given link.2 state :=
      readLineFrom_reads serves.logs hline
    split at h
    · cases h
      exact hreads
    · split at h
      · cases h
      · rename_i stateHeaders hheaders
        cases h
        exact hreads.trans (serves.headers_reads hheaders)
      · rename_i headers stateHeaders hheaders
        exact (hreads.trans (serves.headers_reads hheaders)).trans (serves.body_reads h)

/-! ## Round trips -/

/-- A socket that is open stands at the end of an answer: nothing of an earlier one is left to be
heard on it. -/
def AtBoundary (heard : σ → Bytes) (answers : σ → List Answer) (link : Socket × σ) : Prop :=
  link.1.socketOpen = true → Due heard answers link.2 []

theorem atBoundary_closeSocket (link : Socket × σ) :
    AtBoundary heard answers (closeSocket transport link) := fun hopen => by cases hopen

theorem Serves.given_closeSocket (serves : Serves transport elapses heard answers given)
    (link : Socket × σ) : given link.2 <+: given (closeSocket transport link).2 :=
  serves.given_stop link.2

/-- A connection that is there stands at the end of an answer. -/
theorem Serves.connected (serves : Serves transport elapses heard answers given)
    {link next : Socket × σ} {found : Bool}
    (h : ensureConnected transport config host link = (found, next)) :
    given link.2 <+: given next.2 ∧
      (AtBoundary heard answers link →
        AtBoundary heard answers next ∧ (found = true → Due heard answers next.2 [])) := by
  rw [ensureConnected] at h
  obtain ⟨kept, hkept, hgiven, hkeptBoundary⟩ : ∃ kept : Socket × σ,
      (if link.1.socketOpen = true ∧
          (config.keepAlive = false ∨ transport.connected link.2 = false) then
        closeSocket transport link else link) = kept ∧
        given link.2 <+: given kept.2 ∧
        (AtBoundary heard answers link → AtBoundary heard answers kept) := by
    split
    · exact ⟨_, rfl, serves.given_closeSocket link, fun _ => atBoundary_closeSocket link⟩
    · exact ⟨_, rfl, List.prefix_refl _, id⟩
  rw [hkept] at h
  by_cases hopen : kept.1.socketOpen = true
  · rw [if_pos hopen] at h
    cases h
    exact ⟨hgiven, fun hboundary =>
      ⟨hkeptBoundary hboundary, fun _ => hkeptBoundary hboundary hopen⟩⟩
  · rw [if_neg hopen] at h
    have hgivenNext := hgiven.trans (serves.given_connect host kept.2)
    rcases hconnect : transport.connect host kept.2 with ⟨connected, state⟩
    rw [hconnect] at h hgivenNext
    cases connected with
    | false =>
        cases h
        exact ⟨hgivenNext, fun _ =>
          ⟨fun hstill => absurd hstill hopen, fun hfound => by cases hfound⟩⟩
    | true =>
        cases h
        obtain ⟨hheard, hanswers⟩ := serves.connect hconnect
        have hdue : Due heard answers state [] := by
          rw [Due, hheard, hanswers]
          rfl
        exact ⟨hgivenNext, fun _ => ⟨fun _ => hdue, fun _ => hdue⟩⟩

/-- A request that was sent has an answer, which is all that is to come. -/
theorem Serves.sent (serves : Serves transport elapses heard answers given) {topics : UInt8}
    {sent : Bool} (h : sendRequest transport config topics state = (sent, final)) :
    given state <+: given final ∧
      (Due heard answers state [] → sent = true → ∃ answer,
        given final = given state ++ [answer] ∧ Due heard answers final answer.text) := by
  rw [sendRequest] at h
  split at h
  · cases h
    exact ⟨List.prefix_refl _, fun _ hsent => by cases hsent⟩
  · rename_i query hquery
    change (if (requestHeader query.length config.keepAlive).length ≥ kHeaderCap then _ else _) =
      (sent, final) at h
    split at h
    · cases h
      exact ⟨List.prefix_refl _, fun _ hsent => by cases hsent⟩
    · have hgiven := serves.given_write (requestHeader query.length config.keepAlive) state
      rcases hheader : transport.write (requestHeader query.length config.keepAlive) state with
        ⟨headerLen, sending⟩
      rw [hheader] at h hgiven
      change (if headerLen = (requestHeader query.length config.keepAlive).length then _ else _) =
        (sent, final) at h
      dsimp only at hgiven
      by_cases hlen : headerLen = (requestHeader query.length config.keepAlive).length
      · rw [if_pos hlen] at h
        have hgivenQuery := serves.given_write query sending
        rcases hwrite : transport.write query sending with ⟨queryLen, next⟩
        rw [hwrite] at h hgivenQuery
        cases h
        refine ⟨hgiven.trans hgivenQuery, fun hdue hsent => ?_⟩
        rw [hlen] at hheader
        rw [of_decide_eq_true hsent] at hwrite
        obtain ⟨answer, hheard, hanswers, hgivenNext⟩ := serves.request hquery hheader hwrite
        refine ⟨answer, hgivenNext, ?_⟩
        rw [Due, List.append_nil] at hdue
        rw [Due, hheard, hanswers, hdue, List.flatMap_append, List.flatMap_singleton]
      · rw [if_neg hlen] at h
        cases h
        exact ⟨hgiven, fun _ hsent => by cases hsent⟩

/-- The body is one of an answer that was given between the two states. -/
def Handed (given : σ → List Answer) (cap : Nat) (state final : σ) (body : Bytes) : Prop :=
  ∃ answer ∈ (given final).drop (given state).length, Delivered answer cap body

theorem Handed.widen {cap : Nat} {from' to' : σ} {body : Bytes}
    (h : Handed given cap state final body) (hstart : given from' <+: given state)
    (hend : given final <+: given to') : Handed given cap from' to' body := by
  obtain ⟨answer, hanswer, hdelivered⟩ := h
  obtain ⟨more, hmore⟩ := hend
  refine ⟨answer, ?_, hdelivered⟩
  have hlater : answer ∈ (given final).drop (given from').length :=
    (List.drop_sublist_drop_left _ hstart.length_le).mem hanswer
  rw [← hmore, List.drop_append]
  exact List.mem_append_left _ hlater

theorem Serves.roundTrip (serves : Serves transport elapses heard answers given)
    {topics : UInt8} {link next : Socket × σ} {response : Option Response}
    (h : roundTrip transport bufferCap config fuel topics link = some (response, next)) :
    given link.2 <+: given next.2 ∧
      (Due heard answers link.2 [] →
        (∀ answer ∈ given next.2, answer.LengthShown (bufferCap - 1)) →
          ∀ body reusable, response = some (body, reusable) →
            Handed given (bufferCap - 1) link.2 next.2 body ∧
              (reusable = true → Due heard answers next.2 [])) := by
  rw [Mv.roundTrip] at h
  rcases hsend : sendRequest transport config topics link.2 with ⟨sent, state⟩
  obtain ⟨hgiven, hanswer⟩ := serves.sent hsend
  rw [hsend] at h
  cases sent with
  | false =>
      cases h
      exact ⟨hgiven, fun _ _ _ _ hnone => by cases hnone⟩
  | true =>
      have hread := (serves.response_reads h).given_eq
      refine ⟨hread ▸ hgiven, fun hdue hshown body reusable hsome => ?_⟩
      obtain ⟨answer, hgivenState, hdueText⟩ := hanswer hdue rfl
      subst hsome
      have hmem : answer ∈ given next.2 := by
        rw [hread, hgivenState]
        exact List.mem_append_right _ List.mem_cons_self
      obtain ⟨hdelivered, hboundary⟩ := serves.response (hshown answer hmem) hdueText h
      refine ⟨⟨answer, ?_, hdelivered⟩, hboundary⟩
      rw [hread, hgivenState, List.drop_left]
      exact List.mem_cons_self

/-- Whatever comes of the attempts, a socket that stays open stands at the end of an
answer, and a body is one of an answer given meanwhile. -/
theorem Serves.fetchFrom (serves : Serves transport elapses heard answers given)
    {topics : UInt8} {attempts : Nat} {link next : Socket × σ} {response : Option Bytes}
    (h : fetchFrom transport bufferCap config host fuel topics attempts link =
      some (response, next)) :
    given link.2 <+: given next.2 ∧
      (AtBoundary heard answers link →
        (∀ answer ∈ given next.2, answer.LengthShown (bufferCap - 1)) →
        AtBoundary heard answers next ∧
          ∀ body, response = some body → Handed given (bufferCap - 1) link.2 next.2 body) := by
  induction attempts generalizing link with
  | zero =>
      cases h
      exact ⟨List.prefix_refl _,
        fun hboundary _ => ⟨hboundary, fun _ hnone => by cases hnone⟩⟩
  | succ attempts ih =>
      rw [Mv.fetchFrom] at h
      rcases hconnect : ensureConnected transport config host link with ⟨found, connected⟩
      obtain ⟨hgiven, hconnected⟩ := serves.connected hconnect
      rw [hconnect] at h
      cases found with
      | false =>
          cases h
          exact ⟨hgiven, fun hboundary _ =>
            ⟨(hconnected hboundary).1, fun _ hnone => by cases hnone⟩⟩
      | true =>
          dsimp only at h
          split at h
          · cases h
          · rename_i body link' htrip
            cases h
            obtain ⟨hgivenTrip, htripBody⟩ := serves.roundTrip htrip
            refine ⟨hgiven.trans hgivenTrip, fun hboundary hshown => ?_⟩
            obtain ⟨hhanded, hdueNext⟩ :=
              htripBody ((hconnected hboundary).2 rfl) hshown body true rfl
            refine ⟨fun _ => hdueNext rfl, fun found hfound => ?_⟩
            cases hfound
            exact hhanded.widen hgiven (List.prefix_refl _)
          · rename_i body link' htrip
            cases h
            obtain ⟨hgivenTrip, htripBody⟩ := serves.roundTrip htrip
            have hgivenStop := serves.given_closeSocket link'
            refine ⟨(hgiven.trans hgivenTrip).trans hgivenStop, fun hboundary hshown => ?_⟩
            obtain ⟨hhanded, _⟩ := htripBody ((hconnected hboundary).2 rfl)
              (fun answer hanswer => hshown answer (hgivenStop.mem hanswer)) body false rfl
            refine ⟨atBoundary_closeSocket link', fun found hfound => ?_⟩
            cases hfound
            exact hhanded.widen hgiven hgivenStop
          · rename_i link' htrip
            obtain ⟨hgivenTrip, _⟩ := serves.roundTrip htrip
            have hgivenStop := (hgiven.trans hgivenTrip).trans (serves.given_closeSocket link')
            split at h
            · -- the one retry, on a fresh socket
              obtain ⟨hgivenRetry, hretry⟩ := ih h
              refine ⟨hgivenStop.trans hgivenRetry, fun _ hshown => ?_⟩
              obtain ⟨hboundaryNext, hhanded⟩ := hretry (atBoundary_closeSocket link') hshown
              exact ⟨hboundaryNext, fun body hbody =>
                (hhanded body hbody).widen hgivenStop (List.prefix_refl _)⟩
            · cases h
              exact ⟨hgivenStop, fun _ _ =>
                ⟨atBoundary_closeSocket link', fun _ hnone => by cases hnone⟩⟩

end

/-! ## Runs -/

namespace MultiViewerClient

variable {σ : Type} {transport : Transport σ} {elapses : σ → σ → Prop} {heard : σ → Bytes}
  {answers given : σ → List Answer} {fuel : Nat} {nowMs : UInt32}

/-- The client's socket and its transport. -/
def link (system : MultiViewerClient × σ) : Socket × σ := (system.1.socket, system.2)

theorem poll_served (serves : Serves transport elapses heard answers given)
    {system next : MultiViewerClient × σ} {response : Option Bytes}
    (h : poll transport fuel nowMs system = some (response, next)) :
    next.1.bufferCap = system.1.bufferCap ∧ given system.2 <+: given next.2 ∧
      (AtBoundary heard answers (link system) →
        (∀ answer ∈ given next.2, answer.LengthShown (system.1.bufferCap - 1)) →
        AtBoundary heard answers (link next) ∧ ∀ body, response = some body →
          Handed given (system.1.bufferCap - 1) system.2 next.2 body) := by
  rw [poll] at h
  split at h
  · split at h
    · cases h
    · rename_i socket state hfetch
      cases h
      obtain ⟨hgiven, hfetched⟩ := serves.fetchFrom hfetch
      refine ⟨by cases response <;> rfl, hgiven, fun hboundary hshown => ?_⟩
      obtain ⟨hboundaryNext, hhanded⟩ := hfetched hboundary hshown
      exact ⟨by cases response <;> exact hboundaryNext, hhanded⟩
  · cases h
    exact ⟨rfl, List.prefix_refl _,
      fun hboundary _ => ⟨hboundary, fun _ hnone => by cases hnone⟩⟩

theorem setHost_served (serves : Serves transport elapses heard answers given)
    (system : MultiViewerClient × σ) (host : IPAddress) :
    (setHost transport host system).1.bufferCap = system.1.bufferCap ∧
      given system.2 <+: given (setHost transport host system).2 ∧
      (AtBoundary heard answers (link system) →
        AtBoundary heard answers (link (setHost transport host system))) := by
  rw [setHost]
  split
  · exact ⟨rfl, List.prefix_refl _, id⟩
  · dsimp only
    split
    · exact ⟨rfl, serves.given_stop system.2, fun _ hopen => by cases hopen⟩
    · exact ⟨rfl, List.prefix_refl _, id⟩

theorem elapse_served (serves : Serves transport elapses heard answers given)
    (client : MultiViewerClient) {state later : σ} (h : elapses state later) :
    given state <+: given later ∧
      (AtBoundary heard answers (link (client, state)) →
        AtBoundary heard answers (link (client, later))) := by
  obtain ⟨hheard, hkept⟩ := serves.elapse h
  have hanswers : answers later = answers state := congrArg Prod.fst hkept
  have hgiven : given later = given state := congrArg Prod.snd hkept
  refine ⟨hgiven ▸ List.prefix_refl _, fun hboundary hopen => ?_⟩
  have hdue : heard state ++ [] = (answers state).flatMap Answer.text := hboundary hopen
  change heard later ++ [] = (answers later).flatMap Answer.text
  rw [hheard, hanswers, List.append_nil, hdue]

/-- Over a run answers are only added, and while every length is shown the socket stays at
the end of an answer. -/
theorem Runs.served (serves : Serves transport elapses heard answers given)
    {system final : MultiViewerClient × σ} {calls : List Call}
    (hrun : Runs transport elapses system calls final) :
    final.1.bufferCap = system.1.bufferCap ∧ given system.2 <+: given final.2 ∧
      (AtBoundary heard answers (link system) →
        (∀ answer ∈ given final.2, answer.LengthShown (system.1.bufferCap - 1)) →
        AtBoundary heard answers (link final)) := by
  induction hrun with
  | nil system => exact ⟨rfl, List.prefix_refl _, fun hboundary _ => hboundary⟩
  | elapse happens rest ih =>
      obtain ⟨hcap, hgiven, hrest⟩ := ih
      obtain ⟨hgivenFirst, hfirst⟩ := elapse_served serves _ happens
      exact ⟨hcap, hgivenFirst.trans hgiven, fun hboundary hshown =>
        hrest (hfirst hboundary) hshown⟩
  | setHost rest ih =>
      obtain ⟨hcap, hgiven, hrest⟩ := ih
      obtain ⟨hcapFirst, hgivenFirst, hfirst⟩ := setHost_served serves _ _
      rw [hcapFirst] at hcap hrest
      exact ⟨hcap, hgivenFirst.trans hgiven, fun hboundary hshown =>
        hrest (hfirst hboundary) hshown⟩
  | poll step rest ih =>
      obtain ⟨hcap, hgiven, hrest⟩ := ih
      obtain ⟨hcapFirst, hgivenFirst, hfirst⟩ := poll_served serves step
      rw [hcapFirst] at hcap hrest
      refine ⟨hcap, hgivenFirst.trans hgiven, fun hboundary hshown => hrest ?_ hshown⟩
      exact (hfirst hboundary fun answer hanswer => hshown answer (hgiven.mem hanswer)).1

/-- In every run of calls, with whatever happens to the connection between them, each body
handed over is one of an answer to a request of that very poll, if every length given so
far was read off its header line.  A length is read off wrongly only where its digits go
past the window of the line. -/
theorem keep_alive_in_step {transport : Transport σ} {elapses : σ → σ → Prop} {heard : σ → Bytes}
    {answers given : σ → List Answer} (serves : Serves transport elapses heard answers given)
    {bufferCap : Nat} {config : MvConfig} {start : σ} {calls : List Call}
    {system next : MultiViewerClient × σ} {fuel : Nat} {nowMs : UInt32} {body : Bytes}
    (hrun : Runs transport elapses (initial bufferCap config, start) calls system)
    (hpoll : poll transport fuel nowMs system = some (some body, next))
    (hshown : ∀ answer ∈ given next.2, answer.LengthShown (bufferCap - 1)) :
    ∃ answer ∈ (given next.2).drop (given system.2).length,
      body <+: answer.body ∧
        (answer.length.isSome → answer.body.length < bufferCap → body = answer.body) := by
  obtain ⟨hcap, _, hrunBoundary⟩ := hrun.served serves
  obtain ⟨_, hgiven, hhanded⟩ := poll_served serves hpoll
  have hcapInitial : system.1.bufferCap = bufferCap := hcap
  rw [hcapInitial] at hhanded
  have hstart : AtBoundary heard answers (link (initial bufferCap config, start)) :=
    fun hopen => by cases hopen
  have hboundary := hrunBoundary hstart fun answer hanswer => hshown answer (hgiven.mem hanswer)
  obtain ⟨answer, hanswer, hfront, hwhole⟩ := (hhanded hboundary hshown).2 body rfl
  exact ⟨answer, hanswer, hfront, fun hlength hfits => hwhole hlength (by omega)⟩

end MultiViewerClient

/-! ### A server with a script -/

/-- A server that has its answers ready; `pending` is what was not read yet. -/
structure Server where
  script : Nat → Answer
  heard : Bytes
  pending : Bytes
  answers : List Answer
  given : List Answer
  isText : heard ++ pending = answers.flatMap Answer.text

namespace Server

def read (server : Server) : Option Byte × Server :=
  match h : server.pending with
  | [] => (none, server)
  | c :: rest =>
      (some c, { server with
        heard := server.heard ++ [c]
        pending := rest
        isText := by rw [List.append_assoc, List.singleton_append, ← h, server.isText] })

/-- The connection is new. -/
def fresh (server : Server) : Server :=
  { server with heard := [], pending := [], answers := [], isText := rfl }

def answer (server : Server) : Server :=
  let next := server.script server.given.length
  { server with
    pending := server.pending ++ next.text
    answers := server.answers ++ [next]
    given := server.given ++ [next]
    isText := by
      rw [← List.append_assoc, server.isText, List.flatMap_append, List.flatMap_singleton] }

/-- A request ends with its query, which starts with a brace. -/
def write (bytes : Bytes) (server : Server) : Nat × Server :=
  (bytes.length, if bytes.head? = some chOpen then server.answer else server)

def transport : Transport Server where
  read := read
  connected _ := true
  available server := server.pending.length
  delay := id
  millis _ := 0
  connect _ server := (true, server.fresh)
  stop := fresh
  write := write

theorem read_logs : transport.toClient.Logs heard fun server => (server.answers, server.given) where
  read := by
    intro server next byte h
    change server.read = (byte, next) at h
    rw [read] at h
    split at h
    · cases h
      exact ⟨(List.append_nil _).symm, rfl⟩
    · cases h
      exact ⟨rfl, rfl⟩
  delay _ := ⟨rfl, rfl⟩

theorem head?_buildQuery : ∀ topics : UInt8,
    (buildQuery topics kQueryCap).all (fun query => query.head? == some chOpen) = true :=
  byte_forall (by decide +kernel)

theorem serves : Serves transport Eq heard answers given where
  logs := read_logs
  elapse := by
    rintro server _ rfl
    exact Reads.nil
  honest server := ⟨server.pending, server.isText⟩
  connect := by
    rintro host server next ⟨⟩
    exact ⟨rfl, rfl⟩
  given_connect _ _ := List.prefix_refl _
  given_stop _ := List.prefix_refl _
  given_write bytes server := by
    change server.given <+: (if bytes.head? = some chOpen then server.answer else server).given
    split
    · exact List.prefix_append _ _
    · exact List.prefix_refl _
  request := by
    rintro topics query keepAlive server sending next hquery hheader hwrite
    have hbrace : query.head? = some chOpen := by
      have hall := head?_buildQuery topics
      rw [hquery] at hall
      simpa using hall
    cases hheader
    change (query.length, if query.head? = some chOpen then server.answer else server) =
      (query.length, next) at hwrite
    rw [if_pos hbrace] at hwrite
    cases hwrite
    exact ⟨_, rfl, rfl, rfl⟩

/-- A `Content-Length` of a number behind so many blanks. -/
def lengthOf (blanks : Nat) (digits : Bytes) (h : IsDigits digits) : LengthField where
  name := ascii "Content-Length"
  blanks := List.replicate blanks chSpace
  digits := digits
  trailing := []
  isName := by decide
  isBlanks := fun c hc => by rw [List.eq_of_mem_replicate hc]; rfl
  isDigits := h
  isTrailing := by simp

def answerOf (field : LengthField) (body : Bytes) (h : digitsValue field.digits = body.length) :
    Answer where
  status := ascii "HTTP/1.1 200 OK"
  before := []
  length := some field
  after := []
  body := body
  isStatus := by decide
  others := by simp
  correct := by simpa using h

theorem isDigits_plain : IsDigits (ascii "2") := isDigits_of_all (by decide) (by decide)

theorem isDigits_padded : IsDigits (ascii "35") := isDigits_of_all (by decide) (by decide)

def plainAnswer : Answer :=
  answerOf (lengthOf 1 (ascii "2") isDigits_plain) (ascii "\x7b\x7d") (by decide)

/-- A body with a response in it. -/
def nestedBody : Bytes :=
  ascii "\x7b\x7d\n" ++ ascii "HTTP/1.1\r\nContent-Length:2\r\n\r\n[]"

/-- Of the length, 35, the window shows the 3. -/
def paddedAnswer : Answer :=
  answerOf (lengthOf 239 (ascii "35") isDigits_padded) nestedBody (by decide +kernel)

def start (script : Nat → Answer) : Server := ⟨script, [], [], [], [], rfl⟩

/-- The padded answer comes first. -/
def paddedScript : Nat → Answer
  | 0 => paddedAnswer
  | _ + 1 => plainAnswer

end Server

namespace MultiViewerClient

def reusingConfig : MvConfig := ⟨⟨2000, 0, 5000, kAllTopics, 0⟩, true, 8000⟩

/-- The client with its host, in front of a server. -/
def reusing (script : Nat → Answer) : MultiViewerClient × Server :=
  setHost Server.transport 1 (initial 4096 reusingConfig, Server.start script)

/-- Two polls: the second one's body, and those of the answers given meanwhile. -/
def secondPoll (script : Nat → Answer) : Option (Option Bytes × List Bytes) := do
  let (_, system) ← poll Server.transport 400 0 (reusing script)
  let (body, next) ← poll Server.transport 400 2000 system
  return (body, (next.2.given.drop system.2.given.length).map Answer.body)

/-- The second poll hands over what was left of the first answer. -/
theorem leftover_handed :
    Serves Server.transport Eq Server.heard Server.answers Server.given ∧
      secondPoll Server.paddedScript = some (some (ascii "[]"), [ascii "\x7b\x7d"]) ∧
      ¬ ascii "[]" <+: ascii "\x7b\x7d" :=
  ⟨Server.serves, by decide +kernel, by decide⟩

/-- The second poll on a kept connection. -/
theorem keep_alive_in_step_reused :
    ∃ first next,
      poll Server.transport 400 0 (reusing fun _ => Server.plainAnswer) =
        some (some (ascii "\x7b\x7d"), first) ∧
      first.1.socket.socketOpen = true ∧
      poll Server.transport 400 2000 first = some (some (ascii "\x7b\x7d"), next) ∧
      ∃ answer ∈ next.2.given.drop first.2.given.length,
        ascii "\x7b\x7d" <+: answer.body ∧ (answer.length.isSome → answer.body.length < 4096 →
          ascii "\x7b\x7d" = answer.body) := by
  have hpolled : (poll Server.transport 400 0 (reusing fun _ => Server.plainAnswer)).any
      (fun first => first.1 == some (ascii "\x7b\x7d") && first.2.1.socket.socketOpen &&
        (poll Server.transport 400 2000 first.2).any fun second =>
          second.1 == some (ascii "\x7b\x7d") &&
            second.2.2.given.all fun answer => answer.LengthShown 4095) = true := by
    decide +kernel
  obtain ⟨⟨response, first⟩, hfirst, hresult⟩ := Option.any_eq_true _ _ |>.mp hpolled
  simp only [Bool.and_eq_true, beq_iff_eq] at hresult
  obtain ⟨⟨rfl, hopen⟩, hagain⟩ := hresult
  obtain ⟨⟨response, next⟩, hsecond, hresult⟩ := Option.any_eq_true _ _ |>.mp hagain
  simp only [Bool.and_eq_true, beq_iff_eq, List.all_eq_true, decide_eq_true_eq] at hresult
  obtain ⟨rfl, hshown⟩ := hresult
  exact ⟨first, next, hfirst, hopen, hsecond,
    keep_alive_in_step Server.serves (.setHost (.poll hfirst (.nil _))) hsecond hshown⟩

end MultiViewerClient

end MatrixFaces.Net.Mv
