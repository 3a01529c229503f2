import MatrixFaces.Api.HeaderLines

set_option autoImplicit false

/-!
# What an accepted request says about the bytes it came from

The bytes are written down as they are read (`Client.recorded`), split into lines here once
more, and compared with the fields of the request.  `splitMessage` and `declaredLength` are
written from the bytes alone and share nothing with the reader; `Faithful` says that a
request has the fields of a message.

The main result is `accepted_faithful_iff`, for every client, every fuel and every request
that was accepted.  `ReadWhole` is its condition, on the header lines alone: the value of the
last `Authorization` line has no NUL, and neither a NUL nor the end of the window hides a
digit of the last `Content-Length` line.

`accepted_cut_short` is a request that is accepted although both happen to it.
-/

namespace MatrixFaces.Api

open MatrixFaces.Foundation
open MatrixFaces.Net

/-! ## The bytes as a message -/

/-- A request as it came: its lines without their LF, and what follows the blank one. -/
structure Message where
  requestLine : Bytes
  headers : List Bytes
  rest : Bytes
  deriving DecidableEq

/-- The line that ends the headers.  One that outgrows the window is a header line. -/
def isBlankLine (raw : Bytes) : Bool := raw.length < kLineCap && raw.all (· == chCr)

/-- The header lines up to the blank one, and what follows it. -/
def splitHeaders (line : Bytes) : Bytes → Option (List Bytes × Bytes)
  | [] => none
  | c :: rest =>
      if c = chLf then
        if isBlankLine line = true then some ([], rest)
        else (splitHeaders [] rest).map fun split => (line :: split.1, split.2)
      else splitHeaders (line ++ [c]) rest

/-- The bytes split at the first LF, and at the blank line after it. -/
def splitMessage (received : Bytes) : Option Message :=
  match received.dropWhile (· != chLf) with
  | [] => none
  | _ :: rest =>
      (splitHeaders [] rest).map fun split =>
        ⟨received.takeWhile (· != chLf), split.1, split.2⟩

/-- The length that the last `Content-Length` line declares: none without such a line, and
no number unless it is plain digits. -/
def declaredLength (headers : List Bytes) : Option Nat :=
  match lastValue contentLengthName headers with
  | none => some 0
  | some value => if value.all isDigit = true then some (digitsValue value) else none

/-- A request says what its bytes say: the first two words of the first line, the path of the
target, the last `Authorization` value, and as much of what is behind the empty line as the
last `Content-Length` declares. -/
structure Faithful (received : Bytes) (request : HttpRequest) (message : Message) : Prop where
  split : splitMessage received = some message
  tokens : ∃ rest, message.requestLine =
    request.method ++ chSpace :: (request.target ++ chSpace :: rest)
  method : chSpace ∉ request.method
  target : chSpace ∉ request.target
  path : request.path = pathOf request.target
  authorization : request.authorization = (lastValue authorizationName message.headers).getD []
  body : ∃ length, declaredLength message.headers = some length ∧
    length ≤ message.rest.length ∧ request.body = message.rest.take length

/-! ## Lines and bytes -/

theorem splitHeaders_append {line raw : Bytes} (hraw : chLf ∉ raw) (rest : Bytes) :
    splitHeaders line (raw ++ rest) = splitHeaders (line ++ raw) rest := by
  induction raw generalizing line with
  | nil => rw [List.nil_append, List.append_nil]
  | cons c raw ih =>
      rw [List.mem_cons, not_or] at hraw
      rw [List.cons_append, splitHeaders, if_neg (Ne.symm hraw.1), ih hraw.2, List.append_assoc,
        List.singleton_append]

/-- Lines written one after another are split again. -/
theorem splitHeaders_lines {headers : List Bytes} {blank rest : Bytes}
    (hheaders : ∀ raw ∈ headers, chLf ∉ raw ∧ isBlankLine raw = false)
    (hlf : chLf ∉ blank) (hblank : isBlankLine blank = true) :
    splitHeaders [] (headers.flatMap (· ++ [chLf]) ++ (blank ++ chLf :: rest)) =
      some (headers, rest) := by
  induction headers with
  | nil =>
      rw [List.flatMap_nil, List.nil_append, splitHeaders_append hlf, splitHeaders, if_pos rfl,
        List.nil_append, if_pos hblank]
  | cons raw headers ih =>
      obtain ⟨hraw, hnot⟩ := hheaders raw List.mem_cons_self
      rw [List.flatMap_cons, List.append_assoc, List.append_assoc, splitHeaders_append hraw,
        List.singleton_append, splitHeaders, if_pos rfl, List.nil_append, hnot,
        if_neg Bool.false_ne_true,
        ih fun other hother => hheaders other (List.mem_cons_of_mem _ hother)]
      rfl

theorem splitMessage_lines {requestLine : Bytes} {headers : List Bytes} {blank rest : Bytes}
    (hrequest : chLf ∉ requestLine)
    (hheaders : ∀ raw ∈ headers, chLf ∉ raw ∧ isBlankLine raw = false)
    (hlf : chLf ∉ blank) (hblank : isBlankLine blank = true) :
    splitMessage (requestLine ++ chLf ::
        (headers.flatMap (· ++ [chLf]) ++ (blank ++ chLf :: rest))) =
      some ⟨requestLine, headers, rest⟩ := by
  rw [splitMessage, dropWhile_bne_append hrequest, takeWhile_bne_append hrequest]
  simp only [splitHeaders_lines hheaders hlf hblank, Option.map_some]

/-- A line ends the headers for `readHttpRequest` when it is blank. -/
theorem lineOf_isBlankLine (raw : Bytes) :
    ((lineOf kLineCap raw).2.length = 0 ∧ (lineOf kLineCap raw).1 = .kOk) ↔
      isBlankLine raw = true := by
  rw [isBlankLine, Bool.and_eq_true, decide_eq_true_eq]
  by_cases hfits : raw.length < kLineCap
  · rw [lineOf_of_lt hfits, List.length_eq_zero_iff, stripCr, List.rdropWhile_eq_nil_iff,
      List.all_eq_true]
    exact ⟨fun h => ⟨hfits, h.1⟩, fun h => ⟨h.2, rfl⟩⟩
  · rw [lineOf_of_le (Nat.not_lt.mp hfits)]
    exact ⟨fun h => LineStatus.noConfusion h.2, fun h => absurd h.1 hfits⟩

/-! ## The run of an accepted request -/

theorem splitAtSpace_eq_some {text front rest : Bytes}
    (h : splitAtSpace text = some (front, rest)) :
    text = front ++ chSpace :: rest ∧ chSpace ∉ front := by
  rw [splitAtSpace] at h
  split at h
  · cases h
  · rename_i c tail hdrop
    cases h
    have hc : c = chSpace := by
      have hhead := List.head?_dropWhile_not (· != chSpace) text
      rw [hdrop] at hhead
      simpa using hhead
    refine ⟨?_, fun hmem => ?_⟩
    · rw [← hc, ← hdrop, hc, List.takeWhile_append_dropWhile]
    · simpa using List.mem_takeWhile_imp hmem

/-- The tokens of a request line that was accepted. -/
theorem parseRequestLine_eq_ok {line method target : Bytes}
    (h : parseRequestLine line = .ok (method, target)) :
    (∃ rest, line = method ++ chSpace :: (target ++ chSpace :: rest)) ∧
      chSpace ∉ method ∧ chSpace ∉ target := by
  rw [parseRequestLine] at h
  split at h
  · cases h
  · rename_i first rest hfirst
    split at h
    · cases h
    · split at h
      · cases h
      · rename_i second tail hsecond
        split at h
        · cases h
        · cases h
          obtain ⟨rfl, hmethod⟩ := splitAtSpace_eq_some hfirst
          obtain ⟨rfl, htarget⟩ := splitAtSpace_eq_some hsecond
          exact ⟨⟨tail, rfl⟩, hmethod, htarget⟩

section

variable {σ : Type} {client : Client σ} {fuel : Nat} {state final : σ × Bytes}

/-- The lines behind a header loop that came to the blank one. -/
theorem readHeaders_recorded {remaining : Nat} {fields next : HeaderFields}
    (h : readHeaders client.recorded fuel remaining fields state = some (.ok next, final)) :
    ∃ headers blank, (∀ raw ∈ headers, chLf ∉ raw ∧ isBlankLine raw = false) ∧
      chLf ∉ blank ∧ isBlankLine blank = true ∧
      final.2 = state.2 ++ (headers.flatMap (· ++ [chLf]) ++ (blank ++ [chLf])) ∧
      acceptLines fields headers = .ok next := by
  induction remaining generalizing fields state with
  | zero => cases h
  | succ remaining ih =>
      rw [readHeaders] at h
      split at h
      · cases h
      · rename_i status line between hline
        split at h
        · cases h
        · rename_i hstatus
          obtain ⟨raw, hraw, hlog, hlineOf⟩ := readLine_recorded (by decide) hline hstatus
          have hkind : line = (lineOf kLineCap raw).2 ∧ status = (lineOf kLineCap raw).1 := by
            rw [← hlineOf]
            exact ⟨rfl, rfl⟩
          obtain ⟨rfl, rfl⟩ := hkind
          split at h
          · rename_i hblank
            cases h
            refine ⟨[], raw, fun other hother => (nomatch hother), hraw,
              (lineOf_isBlankLine raw).mp hblank, ?_, rfl⟩
            rw [hlog, List.flatMap_nil, List.nil_append, List.append_assoc]
          · rename_i hblank
            split at h
            · cases h
            · rename_i accepted haccepted
              obtain ⟨headers, blank, hheaders, hlf, hisBlank, hfinal, hlines⟩ := ih h
              refine ⟨raw :: headers, blank, fun other hother => ?_, hlf, hisBlank, ?_, ?_⟩
              · rcases List.mem_cons.mp hother with rfl | hmem
                · refine ⟨hraw, ?_⟩
                  rw [← Bool.not_eq_true]
                  exact fun hyes => hblank ((lineOf_isBlankLine other).mpr hyes)
                · exact hheaders other hmem
              · rw [hfinal, hlog, List.flatMap_cons]
                simp only [List.append_assoc]
              · rw [acceptLines, List.foldlM_cons]
                change (acceptLine fields raw >>= fun fields => acceptLines fields headers) = _
                rw [show acceptLine fields raw = .ok accepted from haccepted]
                exact hlines

theorem readBody_recorded {method target : Bytes} {fields : HeaderFields} {request : HttpRequest}
    (h : readBody client.recorded fuel method target fields state = some (.ok request, final)) :
    fields.authorizationTruncated = false ∧ request.body.length = fields.contentLength ∧
      (∃ drained, final.2 = state.2 ++ (request.body ++ drained)) ∧
      request = ⟨method, target, pathOf target, fields.authorization, fields.websocketKey,
        request.body⟩ := by
  rw [readBody] at h
  split at h
  · cases h
  · rename_i hwhole
    split at h
    · cases h
    · split at h
      · cases h
      · cases h
      · rename_i body between hbody
        obtain ⟨drainedState, hdrain, hresult⟩ := Option.map_eq_some_iff.mp h
        cases hresult
        obtain ⟨hlength, hlog⟩ := readExactly_recorded hbody
        obtain ⟨drained, hfinal⟩ := drainBufferedFrom_recorded hdrain
        refine ⟨by simpa using hwhole, hlength, ⟨drained, ?_⟩, rfl⟩
        rw [hfinal, hlog, List.append_assoc]

/-- What a request that was accepted took from its bytes. -/
structure TakenFrom (message : Message) (fields : HeaderFields) (request : HttpRequest) :
    Prop where
  lines : acceptLines .zero message.headers = .ok fields
  whole : fields.authorizationTruncated = false
  tokens : ∃ rest, message.requestLine =
    request.method ++ chSpace :: (request.target ++ chSpace :: rest)
  method : chSpace ∉ request.method
  target : chSpace ∉ request.target
  path : request.path = pathOf request.target
  authorization : request.authorization = fields.authorization
  length : fields.contentLength ≤ message.rest.length
  body : request.body = message.rest.take fields.contentLength

theorem readHttpRequest_recorded {start : σ} {request : HttpRequest}
    (h : readHttpRequest client.recorded fuel (start, []) = some (.ok request, final)) :
    ∃ message fields, splitMessage final.2 = some message ∧ TakenFrom message fields request := by
  rw [readHttpRequest] at h
  split at h
  · cases h
  · rename_i status line lineEnd hline
    split at h
    · cases h
    · rename_i htimeout
      split at h
      · cases h
      · rename_i htruncated
        split at h
        · cases h
        · rename_i method target htokens
          split at h
          · cases h
          · cases h
          · rename_i fields headersEnd hheaders
            obtain ⟨raw, hraw, hlog, hlineOf⟩ := readLine_recorded (by decide) hline htimeout
            obtain ⟨headers, blank, hall, hlf, hblank, hheadersEnd, hlines⟩ :=
              readHeaders_recorded hheaders
            obtain ⟨hwhole, hlength, ⟨drained, hfinal⟩, hrequest⟩ := readBody_recorded h
            have hreceived : final.2 = raw ++ chLf :: (headers.flatMap (· ++ [chLf]) ++
                (blank ++ chLf :: (request.body ++ drained))) := by
              rw [hfinal, hheadersEnd, hlog]
              simp only [List.nil_append, List.append_assoc, List.cons_append]
            have hsplit : splitMessage final.2 = some ⟨raw, headers, request.body ++ drained⟩ := by
              rw [hreceived]
              exact splitMessage_lines hraw hall hlf hblank
            obtain ⟨⟨tail, htail⟩, hmethod, htarget⟩ := parseRequestLine_eq_ok htokens
            have hfits : raw.length < kLineCap := by
              by_contra hle
              have hstatus := lineOf_of_le (Nat.not_lt.mp hle)
              rw [← hlineOf] at hstatus
              exact htruncated hstatus
            have htext : line = stripCr raw := by
              rw [lineOf_of_lt hfits] at hlineOf
              exact congrArg Prod.snd hlineOf
            -- the C string of the line is the front of it
            obtain ⟨cut, hcut⟩ : ∃ cut, raw = cstring line ++ cut := by
              obtain ⟨crs, hcrs⟩ := List.rdropWhile_prefix (fun c => c == chCr) raw
              refine ⟨line.dropWhile (· != 0) ++ crs, ?_⟩
              rw [← List.append_assoc, cstring, List.takeWhile_append_dropWhile, htext]
              exact hcrs.symm
            refine ⟨_, fields, hsplit, hlines, hwhole, ⟨tail ++ cut, ?_⟩, ?_, ?_, ?_, ?_, ?_, ?_⟩
            · rw [hrequest, hcut, htail]
              simp only [List.append_assoc, List.cons_append]
            · rw [hrequest]
              exact hmethod
            · rw [hrequest]
              exact htarget
            · rw [hrequest]
            · rw [hrequest]
            · rw [List.length_append, hlength]
              omega
            · exact (List.take_left' hlength).symm

end

/-! ## When it is faithful -/

/-- The last `Authorization` value has no NUL.  The last `Content-Length` line fits the
window and has none in its value, or happens to declare what the last one that does fit
was read as. -/
structure ReadWhole (headers : List Bytes) : Prop where
  authorization : ∀ value, lastValue authorizationName headers = some value → (0 : Byte) ∉ value
  contentLength : ∀ raw value, lastLine contentLengthName headers = some raw →
    valueOf contentLengthName raw = some value →
      if raw.length < kLineCap then (0 : Byte) ∉ value
      else value.all isDigit = true ∧ digitsValue value =
        digitsValue (((lastValue contentLengthName (fitting headers)).map cstring).getD [])

theorem lastLine_isSome_valueOf {name raw : Bytes} {headers : List Bytes}
    (h : lastLine name headers = some raw) : (valueOf name raw).isSome = true := by
  rw [lastLine, List.find?_eq_some_iff_append] at h
  exact h.1

/-- The last line of a name is the last one that fits, if it fits. -/
theorem lastLine_fitting {name raw : Bytes} {headers : List Bytes}
    (h : lastLine name headers = some raw) (hfits : raw.length < kLineCap) :
    lastLine name (fitting headers) = some raw := by
  rw [lastLine, List.find?_eq_some_iff_append] at h
  obtain ⟨hnamed, front, back, hheaders, hfront⟩ := h
  rw [lastLine, fitting, ← List.filter_reverse, List.find?_filter, List.find?_eq_some_iff_append]
  refine ⟨by simp [hfits, hnamed], front, back, hheaders, fun line hline => ?_⟩
  have hnot : (valueOf name line).isSome = false := by simpa using hfront line hline
  simp [hnot]

theorem lastLine_fitting_of_none {name : Bytes} {headers : List Bytes}
    (h : lastLine name headers = none) : lastLine name (fitting headers) = none := by
  rw [lastLine, List.find?_eq_none] at h ⊢
  intro line hline
  refine h line ?_
  rw [List.mem_reverse] at hline ⊢
  exact (List.mem_filter.mp hline).1

theorem cstring_eq_self_iff {text : Bytes} : cstring text = text ↔ (0 : Byte) ∉ text := by
  constructor
  · intro h
    rw [← h]
    exact zero_not_mem_cstring text
  · exact cstring_of_not_mem

section

variable {headers : List Bytes} {fields : HeaderFields}

/-- All of the value are digits of the length that was read exactly if it has no NUL, since what
was read is the value up to its first NUL. -/
theorem digits_iff_of_read {value : Bytes} {length : Nat}
    (hdigits : ∀ c ∈ cstring value, isDigit c = true)
    (hlength : digitsValue (cstring value) = length) :
    (if value.all isDigit = true then some (digitsValue value) else none) = some length ↔
      (0 : Byte) ∉ value := by
  constructor
  · intro hdeclared hzero
    split at hdeclared
    · rename_i hall
      exact absurd (List.all_eq_true.mp hall 0 hzero) (by decide)
    · cases hdeclared
  · intro hzero
    rw [cstring_of_not_mem hzero] at hdigits hlength
    rw [if_pos (List.all_eq_true.mpr hdigits), hlength]

theorem digits_iff {value : Bytes} {length : Nat} :
    (if value.all isDigit = true then some (digitsValue value) else none) = some length ↔
      value.all isDigit = true ∧ digitsValue value = length := by
  by_cases hall : value.all isDigit = true
  · rw [if_pos hall, Option.some.injEq]
    exact ⟨fun hsame => ⟨hall, hsame⟩, fun hboth => hboth.2⟩
  · rw [if_neg hall]
    constructor
    · intro hnone
      cases hnone
    · exact fun hboth => absurd hboth.1 hall

theorem declaredLength_iff (h : acceptLines .zero headers = .ok fields) :
    declaredLength headers = some fields.contentLength ↔
      ∀ raw value, lastLine contentLengthName headers = some raw →
        valueOf contentLengthName raw = some value →
          if raw.length < kLineCap then (0 : Byte) ∉ value
          else value.all isDigit = true ∧ digitsValue value = digitsValue
            (((lastValue contentLengthName (fitting headers)).map cstring).getD []) := by
  obtain ⟨hdigits, hlength⟩ := parseContentLength_eq_ok (acceptLines_contentLength h)
  change digitsValue (((lastValue contentLengthName (fitting headers)).map cstring).getD []) =
    fields.contentLength at hlength
  cases hline : lastLine contentLengthName headers with
  | none =>
      rw [lastValue, lastLine_fitting_of_none hline] at hlength
      rw [declaredLength, lastValue, hline, ← hlength]
      constructor
      · intro _ raw value hraw
        cases hraw
      · intro _
        rfl
  | some raw =>
      obtain ⟨value, hvalue⟩ := Option.isSome_iff_exists.mp (lastLine_isSome_valueOf hline)
      have hdeclared : declaredLength headers =
          if value.all isDigit = true then some (digitsValue value) else none := by
        rw [declaredLength, lastValue, hline, Option.bind_some, hvalue]
      rw [hdeclared, hlength]
      -- the condition is about this one line and its value
      have hforall : ∀ p : Bytes → Bytes → Prop, (∀ other text, some raw = some other →
          valueOf contentLengthName other = some text → p other text) ↔ p raw value := by
        intro p
        constructor
        · exact fun hall => hall raw value rfl hvalue
        · intro hone other text hother htext
          cases hother
          rw [hvalue] at htext
          cases htext
          exact hone
      rw [hforall]
      by_cases hfits : raw.length < kLineCap
      · have hread : lastValue contentLengthName (fitting headers) = some value := by
          rw [lastValue, lastLine_fitting hline hfits]
          exact hvalue
        rw [hread] at hdigits hlength
        rw [if_pos hfits]
        exact digits_iff_of_read hdigits hlength
      · rw [if_neg hfits]
        exact digits_iff

theorem authorization_iff (h : acceptLines .zero headers = .ok fields)
    (hwhole : fields.authorizationTruncated = false) :
    fields.authorization = (lastValue authorizationName headers).getD [] ↔
      ∀ value, lastValue authorizationName headers = some value → (0 : Byte) ∉ value := by
  rw [(acceptLines_authorization h hwhole).2]
  cases hvalue : lastValue authorizationName headers with
  | none => exact ⟨fun _ _ hsome => (nomatch hsome), fun _ => rfl⟩
  | some value =>
      rw [Option.map_some, Option.getD_some, Option.getD_some, cstring_eq_self_iff]
      constructor
      · intro hzero other hother
        cases hother
        exact hzero
      · exact fun hall => hall value rfl

/-- The body is what was declared when the length that was read is the declared one. -/
theorem body_iff {message : Message} {request : HttpRequest}
    (h : TakenFrom message fields request) :
    (∃ length, declaredLength message.headers = some length ∧ length ≤ message.rest.length ∧
      request.body = message.rest.take length) ↔
      declaredLength message.headers = some fields.contentLength := by
  constructor
  · rintro ⟨length, hdeclared, hle, hbody⟩
    have hsame := congrArg List.length (h.body.symm.trans hbody)
    rw [List.length_take, List.length_take, Nat.min_eq_left hle, Nat.min_eq_left h.length] at hsame
    rw [hdeclared, hsame]
  · exact fun hdeclared => ⟨fields.contentLength, hdeclared, h.length, h.body⟩

end

/-- An accepted request is faithful to the bytes that were read exactly when the lines it
depends on were read whole: no NUL in the last `Authorization` value, and none in the last
`Content-Length` value, whose line fits the window or says by chance what was read. -/
theorem accepted_faithful_iff {σ : Type} (client : Client σ) (fuel : Nat) (start : σ)
    (request : HttpRequest) (final : σ) (received : Bytes)
    (h : readHttpRequest client.recorded fuel (start, []) =
      some (.ok request, (final, received))) :
    (∃ message, Faithful received request message) ↔
      ∃ message, splitMessage received = some message ∧ ReadWhole message.headers := by
  obtain ⟨message, fields, hsplit, htaken⟩ := readHttpRequest_recorded h
  have hauthorization := authorization_iff htaken.lines htaken.whole
  have hlength := (body_iff htaken).trans (declaredLength_iff htaken.lines)
  constructor
  · rintro ⟨other, hfaithful⟩
    have hsame : other = message := Option.some.inj (hfaithful.split.symm.trans hsplit)
    subst hsame
    refine ⟨other, hsplit, hauthorization.mp ?_, hlength.mp hfaithful.body⟩
    rw [← htaken.authorization]
    exact hfaithful.authorization
  · rintro ⟨other, hother, hwhole⟩
    have hsame : other = message := Option.some.inj (hother.symm.trans hsplit)
    subst hsame
    exact ⟨other, hsplit, htaken.tokens, htaken.method, htaken.target, htaken.path,
      htaken.authorization.trans (hauthorization.mpr hwhole.authorization),
      hlength.mpr hwhole.contentLength⟩

/-- A peer that sent its bytes and closed. -/
def buffered : Client Bytes where
  read state := (state.head?, state.tail)
  connected _ := false
  available state := state.length
  delay state := state
  millis _ := 0

def ledRequest : Bytes :=
  ascii "POST /api/led HTTP/1.1" ++ crlf ++ ascii "Content-Length: 2" ++ crlf ++ crlf ++
    ascii "{}"

theorem ledRequest_accepted :
    readHttpRequest buffered.recorded 100 (ledRequest, []) =
      some (.ok ⟨ascii "POST", ascii "/api/led", ascii "/api/led", [], [], ascii "{}"⟩,
        ([], ledRequest)) := by
  decide +kernel

theorem accepted_faithful_iff_ledRequest :
    (∃ message, Faithful ledRequest
        ⟨ascii "POST", ascii "/api/led", ascii "/api/led", [], [], ascii "{}"⟩ message) ↔
      ∃ message, splitMessage ledRequest = some message ∧ ReadWhole message.headers :=
  accepted_faithful_iff buffered 100 ledRequest _ [] ledRequest ledRequest_accepted

/-! ## A header cut short and one passed over -/

def cutRequestLine : Bytes := ascii "GET / HTTP/1.1"

/-- A NUL inside the value. -/
def cutAuthorization : Bytes := ascii "Authorization: a" ++ 0 :: ascii "b"

/-- Blanks in front of the value, as many as push it out of the window. -/
def longContentLength : Bytes :=
  ascii "Content-Length:" ++ List.replicate 250 chSpace ++ ascii "5"

def cutRequest : Bytes :=
  cutRequestLine ++ crlf ++ cutAuthorization ++ crlf ++ longContentLength ++ crlf ++ crlf ++
    ascii "hello"

/-- The message these bytes are. -/
def cutMessage : Message where
  requestLine := cutRequestLine ++ [chCr]
  headers := [cutAuthorization ++ [chCr], longContentLength ++ [chCr]]
  rest := ascii "hello"

theorem splitMessage_cutRequest : splitMessage cutRequest = some cutMessage := by
  decide +kernel

theorem lastValue_cutMessage :
    lastValue authorizationName cutMessage.headers = some (ascii "a" ++ 0 :: ascii "b") := by
  decide +kernel

theorem cutRequest_accepted :
    readHttpRequest buffered.recorded 400 (cutRequest, []) =
      some (.ok ⟨ascii "GET", ascii "/", ascii "/", ascii "a", [], []⟩, ([], cutRequest)) := by
  decide +kernel

/-- The value is accepted up to the NUL, and the declared body is not there. -/
theorem accepted_cut_short :
    ∃ request final received message,
      readHttpRequest buffered.recorded 400 (cutRequest, []) =
          some (.ok request, (final, received)) ∧
        splitMessage received = some message ∧
        request.authorization = ascii "a" ∧
        lastValue authorizationName message.headers = some (ascii "a" ++ 0 :: ascii "b") ∧
        request.body = [] ∧ declaredLength message.headers = some 5 ∧
        ¬ ∃ message, Faithful received request message := by
  refine ⟨⟨ascii "GET", ascii "/", ascii "/", ascii "a", [], []⟩, [], cutRequest, cutMessage,
    cutRequest_accepted, splitMessage_cutRequest, rfl, lastValue_cutMessage, rfl,
    by decide +kernel, ?_⟩
  rintro ⟨message, hfaithful⟩
  have hmessage : message = cutMessage :=
    Option.some.inj (hfaithful.split.symm.trans splitMessage_cutRequest)
  have hsame := hfaithful.authorization
  rw [hmessage, lastValue_cutMessage] at hsame
  exact absurd hsame (by decide)

end MatrixFaces.Api
