import MatrixFaces.Api.HeaderLines
import MatrixFaces.Net.Arrivals

set_option autoImplicit false

/-!
# A request that arrives in time

A request within the limits is written out (`Sent`), its bytes arrive whenever they like
before the deadlines (`Timely`), and what is read is the request.

`Sent.WellFormed` is what a client has to keep to: a method and a target within their limits,
at most 39 header lines that fit the window and name each field once, and a body of the
length that is declared.  The segments are the parts that have a deadline of their own: each
line and the body.

The main result is `read_back`: with enough fuel the request is accepted and its fields are
those that were sent.  One lemma for each segment (`Net.Arrivals`) says that its reader ends
when the last of its bytes is there.
-/

namespace MatrixFaces.Api

open MatrixFaces.Foundation
open MatrixFaces.Net

/-! ## The request that is sent -/

/-- How a line ends. -/
inductive Ending where
  | crlf
  | lf
  deriving DecidableEq

/-- What is in front of the LF. -/
def Ending.crs : Ending → Bytes
  | .crlf => [chCr]
  | .lf => []

def Ending.bytes (ending : Ending) : Bytes := ending.crs ++ [chLf]

/-- A request and the ends of its lines. -/
structure Sent where
  method : Bytes
  target : Bytes
  requestEnding : Ending
  headers : List (Bytes × Ending)
  blankEnding : Ending
  body : Bytes
  deriving DecidableEq

namespace Sent

def requestLine (sent : Sent) : Bytes :=
  sent.method ++ chSpace :: (sent.target ++ chSpace :: ascii "HTTP/1.1")

/-- The lines and the body, as they are written one after another. -/
def segments (sent : Sent) : List Bytes :=
  (sent.requestLine ++ sent.requestEnding.bytes) ::
    (sent.headers.map (fun header => header.1 ++ header.2.bytes) ++
      [sent.blankEnding.bytes, sent.body])

/-- The values of the header lines of a name. -/
def values (sent : Sent) (name : Bytes) : List Bytes :=
  sent.headers.filterMap fun header => headerValue header.1 name

/-- The request as it should be read. -/
def request (sent : Sent) : HttpRequest where
  method := sent.method
  target := sent.target
  path := pathOf sent.target
  authorization := (sent.values authorizationName).headD []
  websocketKey := (sent.values websocketKeyName).headD []
  body := sent.body

end Sent

/-- A printable character other than the space. -/
def IsPrintable (c : Byte) : Prop := 0x21 ≤ c ∧ c ≤ 0x7E

instance : DecidablePred IsPrintable := fun _ => inferInstanceAs (Decidable (_ ∧ _))

/-- A header line by itself, which the reader takes neither for the empty line nor for two, and
which fits its window. -/
structure HeaderLine (line : Bytes) : Prop where
  nonempty : line ≠ []
  length : line.length ≤ 254
  zero : (0 : Byte) ∉ line
  cr : chCr ∉ line
  lf : chLf ∉ line

/-- A request within the limits of the reader's buffers, with each of the three headers that it
looks for at most once, and the length of the body declared unless it is empty. -/
structure Sent.WellFormed (sent : Sent) : Prop where
  method_length : 1 ≤ sent.method.length ∧ sent.method.length ≤ 7
  method : ∀ c ∈ sent.method, IsPrintable c
  target_length : 1 ≤ sent.target.length ∧ sent.target.length ≤ 95
  target : ∀ c ∈ sent.target, IsPrintable c
  body_length : sent.body.length ≤ 256
  header_count : sent.headers.length ≤ 39
  headers : ∀ header ∈ sent.headers, HeaderLine header.1
  authorization_once : (sent.values authorizationName).length ≤ 1
  authorization : ∀ value ∈ sent.values authorizationName, value.length ≤ 191
  websocketKey_once : (sent.values websocketKeyName).length ≤ 1
  websocketKey : ∀ value ∈ sent.values websocketKeyName, value.length ≤ 31
  contentLength_once : (sent.values contentLengthName).length ≤ 1
  contentLength : ∀ value ∈ sent.values contentLengthName,
    (∀ c ∈ value, isDigit c = true) ∧ digitsValue value = sent.body.length
  declared : sent.body ≠ [] → sent.values contentLengthName ≠ []

/-- Every line, and then the body, can be read less than 4000 ms after the reader has
come to it. -/
def Timely (start : Nat) : List (List Arrival) → Prop
  | [] => True
  | segment :: rest =>
      (∀ arrival ∈ segment, arrival.1 < start + 4000) ∧ Timely (finish start segment) rest

/-! ## One line -/

/-- A header line with its CR, as `readLine` finds it in front of the LF. -/
def rawLine (header : Bytes × Ending) : Bytes := header.1 ++ header.2.crs

theorem stripCr_append_crs {line : Bytes} (h : chCr ∉ line) (ending : Ending) :
    stripCr (line ++ ending.crs) = line := by
  have hself : stripCr line = line := by
    rw [stripCr, List.rdropWhile_eq_self_iff]
    intro hne hlast
    have hcr : line.getLast hne = chCr := by simpa using hlast
    exact h (hcr ▸ List.getLast_mem hne)
  cases ending with
  | crlf =>
      rw [stripCr, Ending.crs, List.rdropWhile_concat_pos _ _ _ rfl]
      exact hself
  | lf => rw [Ending.crs, List.append_nil, hself]

theorem length_crs_le (ending : Ending) : ending.crs.length ≤ 1 := by
  cases ending <;> decide

theorem lf_not_mem_crs (ending : Ending) : chLf ∉ ending.crs := by
  cases ending <;> decide

theorem lineOf_append_crs {line : Bytes} (hlength : line.length ≤ 254) (h : chCr ∉ line)
    (ending : Ending) : lineOf kLineCap (line ++ ending.crs) = (.kOk, line) := by
  have hfits : (line ++ ending.crs).length < kLineCap := by
    have hcrs := length_crs_le ending
    rw [List.length_append, kLineCap]
    omega
  rw [lineOf_of_lt hfits, stripCr_append_crs h]

/-- A line that arrives in time is read, CRs and all. -/
theorem readLine_timely {line : Bytes} {ending : Ending} {segment rest : List Arrival}
    {start : Nat} (hlength : line.length ≤ 254) (hcr : chCr ∉ line) (hlf : chLf ∉ line)
    (hsegment : segment.map Prod.snd = line ++ ending.bytes)
    (htimely : ∀ arrival ∈ segment, arrival.1 < start + 4000) :
    ∃ need, ∀ fuel,
      readLine scripted kLineCap kReadTimeoutMs (fuel + need) ⟨segment ++ rest, start⟩ =
        some ((.kOk, line), ⟨rest, finish start segment⟩) := by
  rw [Ending.bytes, ← List.append_assoc, List.map_eq_append_iff] at hsegment
  obtain ⟨front, back, rfl, hfront, hback⟩ := hsegment
  obtain ⟨⟨last, c⟩, rfl, hc⟩ := List.map_eq_singleton_iff.mp hback
  dsimp only at hc
  subst hc
  have hraw : chLf ∉ front.map Prod.snd := by
    rw [hfront, List.mem_append, not_or]
    exact ⟨hlf, lf_not_mem_crs ending⟩
  obtain ⟨need, hneed⟩ := @readLine_arrivals kLineCap start kReadTimeoutMs (by decide) front last
    rest hraw htimely (by decide)
  refine ⟨need, fun fuel => ?_⟩
  rw [List.append_assoc, List.singleton_append, hneed fuel, hfront,
    lineOf_append_crs hlength hcr]

/-! ## All lines -/

section

variable {sent : Sent} {fields : HeaderFields}

/-- The header lines with their CRs. -/
def Sent.rawLines (sent : Sent) : List Bytes := sent.headers.map rawLine

theorem valueOf_rawLine (h : sent.WellFormed) {header : Bytes × Ending}
    (hmem : header ∈ sent.headers) (name : Bytes) :
    valueOf name (rawLine header) = headerValue header.1 name := by
  rw [valueOf, rawLine, stripCr_append_crs (h.headers header hmem).cr]

/-- Every line of a well-formed request is accepted, and none is too long. -/
theorem acceptLine_of_wellFormed (h : sent.WellFormed) {header : Bytes × Ending}
    (hmem : header ∈ sent.headers) :
    ∃ next, acceptLine fields (rawLine header) = .ok next ∧
      next.authorizationTruncated = fields.authorizationTruncated := by
  have hline := h.headers header hmem
  have hvalues : ∀ name value, headerValue header.1 name = some value →
      value ∈ sent.values name := fun name value hvalue =>
    List.mem_filterMap.mpr ⟨header, hmem, hvalue⟩
  rw [acceptLine, rawLine, lineOf_append_crs hline.length hline.cr,
    cstring_of_not_mem hline.zero, acceptHeader, if_neg LineStatus.noConfusion]
  cases hauthorization : headerValue header.1 authorizationName with
  | some value =>
      have hshort := h.authorization value (hvalues _ _ hauthorization)
      dsimp only
      rw [if_neg (by simp only [HttpRequest.kAuthorizationCap]; omega)]
      exact ⟨_, rfl, rfl⟩
  | none =>
      cases hkey : headerValue header.1 websocketKeyName with
      | some value =>
          dsimp only
          split
          · exact ⟨_, rfl, rfl⟩
          · exact ⟨_, rfl, rfl⟩
      | none =>
          cases hlength : headerValue header.1 contentLengthName with
          | some value =>
              obtain ⟨hdigits, hvalue⟩ := h.contentLength value (hvalues _ _ hlength)
              have hbody := h.body_length
              have hle : digitsValue value ≤ 1000000 := by omega
              dsimp only
              rw [parseContentLength_of_le hdigits hle]
              exact ⟨_, rfl, rfl⟩
          | none => exact ⟨_, rfl, rfl⟩

theorem acceptLines_of_wellFormed (h : sent.WellFormed) {headers : List (Bytes × Ending)}
    (hsubset : ∀ header ∈ headers, header ∈ sent.headers) :
    ∃ next, acceptLines fields (headers.map rawLine) = .ok next ∧
      next.authorizationTruncated = fields.authorizationTruncated := by
  induction headers generalizing fields with
  | nil => exact ⟨fields, rfl, rfl⟩
  | cons header headers ih =>
      obtain ⟨between, hfirst, hsame⟩ :=
        @acceptLine_of_wellFormed sent fields h header (hsubset header List.mem_cons_self)
      obtain ⟨next, hrest, hflag⟩ := @ih between fun other hother =>
        hsubset other (List.mem_cons_of_mem _ hother)
      refine ⟨next, ?_, hflag.trans hsame⟩
      rw [List.map_cons, acceptLines, List.foldlM_cons]
      change (acceptLine fields (rawLine header) >>= fun fields =>
        acceptLines fields (headers.map rawLine)) = _
      rw [hfirst]
      exact hrest

/-- The value that counts is the only one. -/
theorem lastValue_rawLines (h : sent.WellFormed) {name : Bytes}
    (honce : (sent.values name).length ≤ 1) :
    (lastValue name sent.rawLines).map cstring = (sent.values name).head? := by
  have hvalues : sent.rawLines.filterMap (valueOf name) = sent.values name := by
    rw [Sent.rawLines, List.filterMap_map, Sent.values]
    exact List.filterMap_congr fun header hmem => valueOf_rawLine h hmem name
  have hzero : ∀ value ∈ sent.values name, cstring value = value := by
    intro value hvalue
    obtain ⟨header, hmem, hfound⟩ := List.mem_filterMap.mp hvalue
    obtain ⟨spelling, rest, hline, _, rfl⟩ := headerValue_eq_some_iff.mp hfound
    refine cstring_of_not_mem fun hmemZero => (h.headers header hmem).zero ?_
    rw [hline]
    exact List.mem_append_right _ (List.mem_cons_of_mem _
      ((List.dropWhile_sublist _).mem hmemZero))
  rw [lastValue_eq_getLast?, hvalues]
  cases hlist : sent.values name with
  | nil => rfl
  | cons value rest =>
      rw [hlist] at honce hzero
      obtain rfl : rest = [] := List.length_eq_zero_iff.mp (by
        rw [List.length_cons] at honce
        omega)
      rw [List.getLast?_singleton, Option.map_some, hzero value List.mem_cons_self,
        List.head?_cons]

/-- What the header lines of a well-formed request leave behind. -/
theorem fields_of_wellFormed (h : sent.WellFormed)
    (hlines : acceptLines .zero sent.rawLines = .ok fields)
    (hwhole : fields.authorizationTruncated = false) :
    fields.authorization = (sent.values authorizationName).headD [] ∧
      fields.websocketKey = (sent.values websocketKeyName).headD [] ∧
      fields.contentLength = sent.body.length := by
  have hfits : ∀ raw ∈ sent.rawLines, raw.length < kLineCap := by
    intro raw hraw
    obtain ⟨header, hmem, rfl⟩ := List.mem_map.mp hraw
    have hlength := (h.headers header hmem).length
    have hcrs := length_crs_le header.2
    rw [rawLine, List.length_append, kLineCap]
    omega
  have hshort : ∀ raw ∈ sent.rawLines, ∀ value, valueOf websocketKeyName raw = some value →
      (cstring value).length < HttpRequest.kWebSocketKeyCap := by
    intro raw hraw value hvalue
    obtain ⟨header, hmem, rfl⟩ := List.mem_map.mp hraw
    rw [valueOf_rawLine h hmem] at hvalue
    have hle := h.websocketKey value (List.mem_filterMap.mpr ⟨header, hmem, hvalue⟩)
    have hcut : (cstring value).length ≤ value.length := (List.takeWhile_sublist _).length_le
    exact Nat.lt_of_le_of_lt (hcut.trans hle) (by decide)
  have hfitting : fitting sent.rawLines = sent.rawLines :=
    List.filter_eq_self.mpr fun raw hraw => decide_eq_true (hfits raw hraw)
  have hhead : ∀ list : List Bytes, list.head?.getD [] = list.headD [] := fun list => by
    cases list <;> rfl
  refine ⟨?_, ?_, ?_⟩
  · rw [(acceptLines_authorization hlines hwhole).2, lastValue_rawLines h h.authorization_once,
      hhead]
  · rw [acceptLines_websocketKey hlines hfits hshort, lastValue_rawLines h h.websocketKey_once,
      hhead]
  · have hparsed := acceptLines_contentLength hlines
    rw [hfitting, lastValue_rawLines h h.contentLength_once] at hparsed
    obtain ⟨_, hvalue⟩ := parseContentLength_eq_ok hparsed
    rw [← hvalue]
    cases hlist : sent.values contentLengthName with
    | nil =>
        have hbody : sent.body = [] := by
          by_contra hne
          exact h.declared hne hlist
        rw [hbody]
        rfl
    | cons value rest => exact (h.contentLength value (hlist ▸ List.mem_cons_self)).2

end

/-! ## The whole request -/

/-- The header loop on lines that arrive in time, up to the body. -/
theorem readHeaders_timely {headers : List (Bytes × Ending)} {blankEnding : Ending}
    {body : Bytes} {arrivals : List (List Arrival)} {after : List Arrival}
    {fields next : HeaderFields} {remaining start : Nat}
    (hlines : ∀ header ∈ headers, HeaderLine header.1)
    (harrivals : arrivals.map (List.map Prod.snd) =
      headers.map (fun header => header.1 ++ header.2.bytes) ++ [blankEnding.bytes, body])
    (htimely : Timely start arrivals)
    (haccepted : acceptLines fields (headers.map rawLine) = .ok next)
    (hcount : headers.length < remaining) :
    ∃ need bodyArrivals bodyStart, bodyArrivals.map Prod.snd = body ∧
      (∀ arrival ∈ bodyArrivals, arrival.1 < bodyStart + 4000) ∧
      ∀ fuel, readHeaders scripted (fuel + need) remaining fields
          ⟨arrivals.flatten ++ after, start⟩ =
        some (.ok next, ⟨bodyArrivals ++ after, bodyStart⟩) := by
  induction headers generalizing arrivals fields remaining start with
  | nil =>
      obtain ⟨remaining, rfl⟩ : ∃ n, remaining = n + 1 := ⟨remaining - 1, by
        rw [List.length_nil] at hcount
        omega⟩
      cases haccepted
      rw [List.map_nil, List.nil_append] at harrivals
      obtain ⟨blank, rest, rfl, hblank, hrest⟩ := List.map_eq_cons_iff.mp harrivals
      obtain ⟨bodyArrivals, rfl, hbody⟩ := List.map_eq_singleton_iff.mp hrest
      obtain ⟨need, hneed⟩ := @readLine_timely [] blankEnding blank (bodyArrivals ++ after) start
        (by decide) List.not_mem_nil List.not_mem_nil hblank htimely.1
      refine ⟨need, bodyArrivals, finish start blank, hbody, htimely.2.1, fun fuel => ?_⟩
      rw [List.flatten_cons, List.flatten_singleton, List.append_assoc, readHeaders, hneed fuel]
      rfl
  | cons header headers ih =>
      obtain ⟨remaining, rfl⟩ : ∃ n, remaining = n + 1 := ⟨remaining - 1, by omega⟩
      have hline := hlines header List.mem_cons_self
      rw [List.map_cons, List.cons_append] at harrivals
      obtain ⟨segment, rest, rfl, hsegment, hrest⟩ := List.map_eq_cons_iff.mp harrivals
      rw [List.map_cons, acceptLines, List.foldlM_cons] at haccepted
      cases hfirst : acceptLine fields (rawLine header) with
      | error status =>
          rw [hfirst] at haccepted
          cases haccepted
      | ok between =>
          rw [hfirst] at haccepted
          obtain ⟨needLine, hneedLine⟩ := @readLine_timely header.1 header.2 segment
            (rest.flatten ++ after) start hline.length hline.cr hline.lf hsegment htimely.1
          obtain ⟨needRest, bodyArrivals, bodyStart, hbody, hbodyTimely, hneedRest⟩ :=
            ih (fun other hother => hlines other (List.mem_cons_of_mem _ hother)) hrest htimely.2
              haccepted (Nat.lt_of_succ_lt_succ hcount)
          refine ⟨needRest + needLine, bodyArrivals, bodyStart, hbody, hbodyTimely, fun fuel => ?_⟩
          have hread := hneedLine (fuel + needRest)
          have hloop := hneedRest (fuel + needLine)
          have haccept : acceptHeader fields .kOk (cstring header.1) = .ok between := by
            rw [acceptLine, rawLine, lineOf_append_crs hline.length hline.cr] at hfirst
            exact hfirst
          have hnonempty : ¬ (header.1.length = 0 ∧ LineStatus.kOk = LineStatus.kOk) :=
            fun hempty => hline.nonempty (List.length_eq_zero_iff.mp hempty.1)
          rw [Nat.add_assoc, Nat.add_comm needLine needRest] at hloop
          rw [Nat.add_assoc] at hread
          rw [List.flatten_cons, List.append_assoc, readHeaders, hread]
          dsimp only
          rw [if_neg LineStatus.noConfusion, if_neg hnonempty, haccept]
          exact hloop

theorem splitAtSpace_append {front : Bytes} (h : chSpace ∉ front) (rest : Bytes) :
    splitAtSpace (front ++ chSpace :: rest) = some (front, rest) := by
  rw [splitAtSpace, dropWhile_bne_append h, takeWhile_bne_append h]

theorem not_mem_of_printable {text : Bytes} (h : ∀ c ∈ text, IsPrintable c) {c : Byte}
    (hc : ¬ IsPrintable c) : c ∉ text := fun hmem => hc (h c hmem)

namespace Sent

variable {sent : Sent}

theorem length_requestLine (h : sent.WellFormed) : sent.requestLine.length ≤ 254 := by
  have hmethod := h.method_length
  have htarget := h.target_length
  have hversion : (ascii "HTTP/1.1").length = 8 := by decide
  simp only [requestLine, List.length_append, List.length_cons, hversion]
  omega

theorem not_mem_requestLine (h : sent.WellFormed) {c : Byte} (hc : ¬ IsPrintable c)
    (hspace : c ≠ chSpace) (hversion : c ∉ ascii "HTTP/1.1") : c ∉ sent.requestLine := by
  simp only [requestLine, List.mem_append, List.mem_cons, not_or]
  exact ⟨not_mem_of_printable h.method hc, hspace, not_mem_of_printable h.target hc, hspace,
    hversion⟩

theorem parseRequestLine_requestLine (h : sent.WellFormed) :
    parseRequestLine (cstring sent.requestLine) = .ok (sent.method, sent.target) := by
  have hspace : ¬ IsPrintable chSpace := by decide
  have hzero : (0 : Byte) ∉ sent.requestLine :=
    not_mem_requestLine h (by decide) (by decide) (by decide)
  have hmethod := h.method_length
  have htarget := h.target_length
  rw [cstring_of_not_mem hzero, requestLine, parseRequestLine,
    splitAtSpace_append (not_mem_of_printable h.method hspace)]
  dsimp only
  rw [if_neg (by simp only [HttpRequest.kMethodCap]; omega),
    splitAtSpace_append (not_mem_of_printable h.target hspace)]
  dsimp only
  rw [if_neg (by simp only [HttpRequest.kTargetCap]; omega)]

end Sent

/-- A body that arrives in time completes the request. -/
theorem readBody_timely {method target : Bytes} {fields : HeaderFields}
    {body after : List Arrival} {start : Nat} (hwhole : fields.authorizationTruncated = false)
    (hlength : fields.contentLength = body.length) (hfits : body.length ≤ HttpRequest.kBodyCap)
    (htimely : ∀ arrival ∈ body, arrival.1 < start + 4000) :
    ∃ need, ∀ fuel, need ≤ fuel → ∃ final,
      readBody scripted fuel method target fields ⟨body ++ after, start⟩ =
        some (.ok ⟨method, target, pathOf target, fields.authorization, fields.websocketKey,
          body.map Prod.snd⟩, final) := by
  obtain ⟨needBody, hneedBody⟩ := @readExactly_arrivals start kReadTimeoutMs body after htimely
  obtain ⟨needDrain, hneedDrain⟩ := @drainBufferedFrom_scripted kDrainTimeoutMs
    (Clock32.tick (finish start body)) ⟨after, finish start body⟩
  refine ⟨needBody + needDrain, fun fuel hfuel => ?_⟩
  have hread := hneedBody (fuel - needBody)
  obtain ⟨final, hdrain⟩ := hneedDrain (fuel - needDrain)
  rw [Nat.sub_add_cancel (by omega)] at hread hdrain
  have hdrained : drainBuffered scripted kDrainTimeoutMs fuel ⟨after, finish start body⟩ =
      some final := hdrain
  refine ⟨final, ?_⟩
  rw [readBody, hwhole, if_neg Bool.false_ne_true, hlength, if_neg (Nat.not_lt.mpr hfits), hread]
  dsimp only
  rw [hdrained]
  rfl

/-- However its bytes arrive within the deadlines, a well-formed request is accepted and
read back as it was sent. -/
theorem read_back (sent : Sent) (h : sent.WellFormed) (start : Nat)
    (arrivals : List (List Arrival)) (harrivals : arrivals.map (List.map Prod.snd) = sent.segments)
    (htimely : Timely start arrivals) (after : List Arrival) :
    ∃ need, ∀ fuel, need ≤ fuel → ∃ final,
      readHttpRequest scripted fuel ⟨arrivals.flatten ++ after, start⟩ =
        some (.ok sent.request, final) := by
  obtain ⟨segment, rest, rfl, hsegment, hrest⟩ := List.map_eq_cons_iff.mp harrivals
  obtain ⟨fields, haccepted, hwhole⟩ :=
    @acceptLines_of_wellFormed sent .zero h sent.headers fun _ hmem => hmem
  obtain ⟨hauthorization, hkey, hlength⟩ := fields_of_wellFormed h haccepted hwhole
  obtain ⟨needLine, hneedLine⟩ := @readLine_timely sent.requestLine sent.requestEnding segment
    (rest.flatten ++ after) start (Sent.length_requestLine h)
    (Sent.not_mem_requestLine h (by decide) (by decide) (by decide))
    (Sent.not_mem_requestLine h (by decide) (by decide) (by decide))
    hsegment htimely.1
  obtain ⟨needHeaders, body, bodyStart, hbody, hbodyTimely, hneedHeaders⟩ :=
    @readHeaders_timely sent.headers sent.blankEnding sent.body rest after .zero fields kMaxHeaders
      (finish start segment) h.headers hrest htimely.2 haccepted
      (Nat.lt_succ_of_le h.header_count)
  have hcount : fields.contentLength = body.length := by
    rw [hlength, ← hbody, List.length_map]
  have hfits : body.length ≤ HttpRequest.kBodyCap := by
    rw [← hcount, hlength]
    exact h.body_length
  obtain ⟨needBody, hneedBody⟩ := @readBody_timely sent.method sent.target fields body after
    bodyStart hwhole hcount hfits hbodyTimely
  -- the same fuel is enough for every reader
  refine ⟨needLine + needHeaders + needBody, fun fuel hfuel => ?_⟩
  have hline := hneedLine (fuel - needLine)
  have hheaders := hneedHeaders (fuel - needHeaders)
  rw [Nat.sub_add_cancel (by omega)] at hline hheaders
  obtain ⟨final, hread⟩ := hneedBody fuel (by omega)
  refine ⟨final, ?_⟩
  rw [List.flatten_cons, List.append_assoc, readHttpRequest, hline]
  dsimp only
  rw [if_neg LineStatus.noConfusion, if_neg LineStatus.noConfusion,
    Sent.parseRequestLine_requestLine h]
  dsimp only
  rw [hheaders]
  dsimp only
  rw [hread, hauthorization, hkey, hbody]
  rfl

/-- A request in pieces: its header comes three seconds late, the clock wraps meanwhile. -/
def lateRequest : Sent where
  method := ascii "PUT"
  target := ascii "/api/led?now"
  requestEnding := .crlf
  headers := [(ascii "CONTENT-length:  2", .lf)]
  blankEnding := .crlf
  body := ascii "{}"

def lateStart : Nat := 2 ^ 32 - 1000

/-- Each segment at a time of its own. -/
def lateArrivals : List (List Arrival) :=
  List.zipWith (fun late segment => segment.map fun c => (lateStart + late, c))
    [0, 3000, 3000, 6999] lateRequest.segments

theorem lateRequest_wellFormed : lateRequest.WellFormed where
  method_length := by decide
  method := by decide +kernel
  target_length := by decide
  target := by decide +kernel
  body_length := by decide
  header_count := by decide
  headers := by
    intro header hmem
    cases List.mem_singleton.mp hmem
    exact ⟨by decide, by decide, by decide, by decide, by decide⟩
  authorization_once := by decide
  authorization := by decide
  websocketKey_once := by decide
  websocketKey := by decide
  contentLength_once := by decide
  contentLength := by decide +kernel
  declared := by decide

theorem read_back_lateRequest :
    ∃ need, ∀ fuel, need ≤ fuel → ∃ final,
      readHttpRequest scripted fuel ⟨lateArrivals.flatten ++ [], lateStart⟩ =
        some (.ok lateRequest.request, final) :=
  read_back lateRequest lateRequest_wellFormed lateStart lateArrivals (by decide)
    ⟨by decide, by decide, by decide, by decide, trivial⟩ []

end MatrixFaces.Api
