import MatrixFaces.Api.ReadRequest

set_option autoImplicit false

/-!
# What a run of header lines leaves behind

A header line is what stands in front of its LF; its text is that without the CRs
at its end.

`valueOf` reads a line by itself, without the window.  `acceptLine` is one turn of the source's
loop on a line that came whole, and `Accepted` the cases of what it changes.

A field is what the last line of its name says (`lastValue`), among those that fit the window
(`fitting`): `acceptLines_authorization`, `acceptLines_websocketKey` and
`acceptLines_contentLength`, one for each field.  `Api.FaithfulRequest` and
`Api.RequestDelivery` are both read off these.
-/

namespace MatrixFaces.Api

open MatrixFaces.Foundation
open MatrixFaces.Net

/-! ## Names and values -/

section

variable {line name value : Bytes}

/-- A header line spells the name in any case, then a colon, then blanks and the value. -/
theorem headerValue_eq_some_iff :
    headerValue line name = some value ↔
      ∃ spelling rest, line = spelling ++ chColon :: rest ∧
        spelling.map lowerCase = name.map lowerCase ∧ value = rest.dropWhile isHeaderBlank := by
  rw [headerValue]
  constructor
  · intro h
    split at h
    · cases h
    · rename_i hlength
      split at h
      · cases h
      · rename_i hname
        split at h
        · cases h
        · rename_i hcolon
          cases h
          have hlt : name.length < line.length := by omega
          refine ⟨line.take name.length, line.drop (name.length + 1), ?_, ?_, rfl⟩
          · rw [not_not, List.getElem?_eq_getElem hlt, Option.some.injEq] at hcolon
            rw [← hcolon, ← List.drop_eq_getElem_cons hlt, List.take_append_drop]
          · simpa [equalsIgnoringCase] using hname
  · rintro ⟨spelling, rest, rfl, hspelling, rfl⟩
    have hlength : spelling.length = name.length := by
      simpa using congrArg List.length hspelling
    rw [if_neg (by simp [hlength]), if_neg, if_neg]
    · rw [← hlength, List.drop_append, List.drop_eq_nil_of_le (Nat.le_succ _),
        Nat.add_sub_cancel_left]
      rfl
    · simp [← hlength]
    · simp [equalsIgnoringCase, List.take_left' hlength, hspelling]

/-- One line has one name. -/
theorem spelled_of_headerValue (hname : chColon ∉ name.map lowerCase)
    (h : headerValue line name = some value) :
    (line.takeWhile (· != chColon)).map lowerCase = name.map lowerCase := by
  obtain ⟨spelling, rest, rfl, hspelling, _⟩ := headerValue_eq_some_iff.mp h
  have hcolon : chColon ∉ spelling := fun hmem =>
    hname (hspelling ▸ List.mem_map_of_mem (f := lowerCase) hmem)
  rw [takeWhile_bne_append hcolon, hspelling]

theorem headerValue_eq_none_of_other {other : Bytes} (hname : chColon ∉ name.map lowerCase)
    (hother : chColon ∉ other.map lowerCase) (hne : name.map lowerCase ≠ other.map lowerCase)
    (h : headerValue line name = some value) : headerValue line other = none := by
  cases hvalue : headerValue line other with
  | none => rfl
  | some second =>
      exact absurd ((spelled_of_headerValue hname h).symm.trans
        (spelled_of_headerValue hother hvalue)) hne

theorem cstring_dropWhile_blank (text : Bytes) :
    cstring (text.dropWhile isHeaderBlank) = (cstring text).dropWhile isHeaderBlank := by
  induction text with
  | nil => rfl
  | cons c rest ih =>
      by_cases hzero : c = 0
      · subst hzero
        rfl
      · rw [cstring_cons_of_ne hzero]
        by_cases hblank : isHeaderBlank c = true
        · rw [List.dropWhile_cons_of_pos hblank, List.dropWhile_cons_of_pos hblank, ih]
        · rw [List.dropWhile_cons_of_neg hblank, List.dropWhile_cons_of_neg hblank,
            cstring_cons_of_ne hzero]

/-- A line read up to a NUL in it has the same name, and its value up to that NUL. -/
theorem headerValue_cstring (hname : (0 : Byte) ∉ name.map lowerCase) :
    headerValue (cstring line) name = (headerValue line name).map cstring := by
  cases hvalue : headerValue line name with
  | some value =>
      obtain ⟨spelling, rest, rfl, hspelling, rfl⟩ := headerValue_eq_some_iff.mp hvalue
      have hzero : (0 : Byte) ∉ spelling ++ [chColon] := by
        rw [List.mem_append, List.mem_singleton, not_or]
        refine ⟨fun hmem => hname ?_, by decide⟩
        rw [← hspelling]
        exact List.mem_map_of_mem (f := lowerCase) hmem
      refine headerValue_eq_some_iff.mpr ⟨spelling, cstring rest, ?_, hspelling,
        cstring_dropWhile_blank rest⟩
      have hcut := cstring_append_of_not_mem hzero rest
      simpa only [List.append_assoc, List.singleton_append] using hcut
  | none =>
      cases hcut : headerValue (cstring line) name with
      | none => rfl
      | some value =>
          obtain ⟨spelling, rest, hline, hspelling, _⟩ := headerValue_eq_some_iff.mp hcut
          have hwhole : line = cstring line ++ line.dropWhile (· != 0) :=
            List.takeWhile_append_dropWhile.symm
          rw [hline, List.append_assoc, List.cons_append] at hwhole
          rw [headerValue_eq_some_iff.mpr ⟨spelling, _, hwhole, hspelling, rfl⟩] at hvalue
          cases hvalue

/-! ## The window over a line -/

theorem isSome_headerValue_append (more : Bytes) (h : (headerValue line name).isSome = true) :
    (headerValue (line ++ more) name).isSome = true := by
  obtain ⟨value, hvalue⟩ := Option.isSome_iff_exists.mp h
  obtain ⟨spelling, rest, rfl, hspelling, _⟩ := headerValue_eq_some_iff.mp hvalue
  rw [List.append_assoc, List.cons_append,
    headerValue_eq_some_iff.mpr ⟨spelling, rest ++ more, rfl, hspelling, rfl⟩]
  rfl

theorem isSome_headerValue_stripCr :
    (headerValue (stripCr line) name).isSome = (headerValue line name).isSome := by
  rw [Bool.eq_iff_iff]
  constructor
  · intro h
    obtain ⟨more, hmore⟩ := List.rdropWhile_prefix (fun c => c == chCr) line
    rw [← hmore]
    exact isSome_headerValue_append more h
  · intro h
    obtain ⟨value, hvalue⟩ := Option.isSome_iff_exists.mp h
    obtain ⟨spelling, rest, rfl, hspelling, _⟩ := headerValue_eq_some_iff.mp hvalue
    rw [stripCr_append_cons spelling rest (by decide),
      headerValue_eq_some_iff.mpr ⟨spelling, stripCr rest, rfl, hspelling, rfl⟩]
    rfl

theorem isSome_headerValue_take {n : Nat} (hn : name.length < n) :
    (headerValue (line.take n) name).isSome = (headerValue line name).isSome := by
  rw [Bool.eq_iff_iff]
  constructor
  · intro h
    rw [← List.take_append_drop n line]
    exact isSome_headerValue_append (line.drop n) h
  · intro h
    obtain ⟨value, hvalue⟩ := Option.isSome_iff_exists.mp h
    obtain ⟨spelling, rest, rfl, hspelling, _⟩ := headerValue_eq_some_iff.mp hvalue
    have hlength : spelling.length = name.length := by
      simpa using congrArg List.length hspelling
    obtain ⟨room, hroom⟩ : ∃ room, n - spelling.length = room + 1 :=
      ⟨n - spelling.length - 1, by omega⟩
    rw [List.take_append, List.take_of_length_le (by omega), hroom, List.take_succ_cons,
      headerValue_eq_some_iff.mpr ⟨spelling, rest.take room, rfl, hspelling, rfl⟩]
    rfl

end

/-! ## What one line changes -/

/-- The ways `acceptHeader` succeeds. -/
inductive Accepted (fields : HeaderFields) (status : LineStatus) (line : Bytes) :
    HeaderFields → Prop where
  | oversize (hstatus : status = .kTruncated)
      (hvalue : (headerValue line authorizationName).isSome = true) :
      Accepted fields status line { fields with authorizationTruncated := true }
  | passedOver (hstatus : status = .kTruncated)
      (hvalue : headerValue line authorizationName = none) : Accepted fields status line fields
  | authorizationTooLong (value : Bytes) (hstatus : status ≠ .kTruncated)
      (hvalue : headerValue line authorizationName = some value) :
      Accepted fields status line { fields with authorizationTruncated := true }
  | authorization (value : Bytes) (hstatus : status ≠ .kTruncated)
      (hvalue : headerValue line authorizationName = some value) :
      Accepted fields status line { fields with authorization := value }
  | keyTooLong (value : Bytes) (hstatus : status ≠ .kTruncated)
      (hnone : headerValue line authorizationName = none)
      (hvalue : headerValue line websocketKeyName = some value)
      (hlength : HttpRequest.kWebSocketKeyCap ≤ value.length) : Accepted fields status line fields
  | websocketKey (value : Bytes) (hstatus : status ≠ .kTruncated)
      (hnone : headerValue line authorizationName = none)
      (hvalue : headerValue line websocketKeyName = some value)
      (hlength : value.length < HttpRequest.kWebSocketKeyCap) :
      Accepted fields status line { fields with websocketKey := value }
  | contentLength (value : Bytes) (parsed : Nat) (hstatus : status ≠ .kTruncated)
      (hnone : headerValue line authorizationName = none)
      (hvalue : headerValue line contentLengthName = some value)
      (hparsed : parseContentLength 0 value = .ok parsed) :
      Accepted fields status line { fields with contentLength := parsed }
  | other (hstatus : status ≠ .kTruncated)
      (hauthorization : headerValue line authorizationName = none)
      (hkey : headerValue line websocketKeyName = none)
      (hlength : headerValue line contentLengthName = none) : Accepted fields status line fields

theorem accepted_of_acceptHeader {fields next : HeaderFields} {status : LineStatus} {line : Bytes}
    (h : acceptHeader fields status line = .ok next) : Accepted fields status line next := by
  rw [acceptHeader] at h
  split at h
  · rename_i hstatus
    split at h
    · rename_i hvalue
      cases h
      exact .oversize hstatus hvalue
    · rename_i hvalue
      cases h
      exact .passedOver hstatus (by simpa using hvalue)
  · rename_i hstatus
    split at h
    · rename_i value hvalue
      split at h
      · cases h
        exact .authorizationTooLong value hstatus hvalue
      · cases h
        exact .authorization value hstatus hvalue
    · rename_i hnone
      split at h
      · rename_i value hvalue
        split at h
        · rename_i hlength
          cases h
          exact .keyTooLong value hstatus hnone hvalue hlength
        · rename_i hlength
          cases h
          exact .websocketKey value hstatus hnone hvalue (Nat.not_le.mp hlength)
      · rename_i hkey
        split at h
        · rename_i value hvalue
          cases hparsed : parseContentLength 0 value with
          | error status =>
              rw [hparsed] at h
              cases h
          | ok parsed =>
              rw [hparsed] at h
              cases h
              exact .contentLength value parsed hstatus hnone hvalue hparsed
        · rename_i hlength
          cases h
          exact .other hstatus hnone hkey hlength

/-! ## One line as it came -/

/-- The value of a header line under a name, over its whole text. -/
def valueOf (name raw : Bytes) : Option Bytes := headerValue (stripCr raw) name

/-- `readLine` and then `acceptHeader`, on the bytes in front of an LF. -/
def acceptLine (fields : HeaderFields) (raw : Bytes) : Except HttpReadStatus HeaderFields :=
  acceptHeader fields (lineOf kLineCap raw).1 (cstring (lineOf kLineCap raw).2)

section

variable {raw : Bytes}

theorem lineOf_of_lt (h : raw.length < kLineCap) : lineOf kLineCap raw = (.kOk, stripCr raw) := by
  rw [lineOf, if_neg (Nat.not_le.mpr h), List.take_of_length_le (Nat.le_sub_one_of_lt h)]

theorem status_of_lt (h : raw.length < kLineCap) : (lineOf kLineCap raw).1 ≠ .kTruncated := by
  rw [lineOf_of_lt h]
  exact LineStatus.noConfusion

theorem lineOf_of_le (h : kLineCap ≤ raw.length) : (lineOf kLineCap raw).1 = .kTruncated :=
  if_pos h

/-- The value that is found in a line read whole. -/
theorem headerValue_lineOf (h : raw.length < kLineCap) {name : Bytes}
    (hname : (0 : Byte) ∉ name.map lowerCase) :
    headerValue (cstring (lineOf kLineCap raw).2) name = (valueOf name raw).map cstring := by
  rw [lineOf_of_lt h, headerValue_cstring hname, valueOf]

/-- A name is found in the window alone, if the line has it. -/
theorem isSome_headerValue_lineOf {name : Bytes} (hname : (0 : Byte) ∉ name.map lowerCase)
    (hlength : name.length < kLineCap - 1) :
    (headerValue (cstring (lineOf kLineCap raw).2) name).isSome = (valueOf name raw).isSome := by
  rw [lineOf, headerValue_cstring hname, Option.isSome_map, isSome_headerValue_stripCr,
    isSome_headerValue_take hlength, valueOf, isSome_headerValue_stripCr]

theorem valueOf_eq_none {name other value : Bytes} (hname : chColon ∉ name.map lowerCase)
    (hother : chColon ∉ other.map lowerCase) (hne : name.map lowerCase ≠ other.map lowerCase)
    (h : valueOf name raw = some value) : valueOf other raw = none :=
  headerValue_eq_none_of_other hname hother hne h

variable {fields next : HeaderFields}

theorem acceptLine_authorization (h : acceptLine fields raw = .ok next)
    (hwhole : next.authorizationTruncated = false) :
    fields.authorizationTruncated = false ∧
      ((valueOf authorizationName raw).isSome = true → raw.length < kLineCap) ∧
      next.authorization =
        ((valueOf authorizationName raw).map cstring).getD fields.authorization := by
  have hzero : (0 : Byte) ∉ authorizationName.map lowerCase := by decide
  have hfound : (headerValue (cstring (lineOf kLineCap raw).2) authorizationName).isSome =
      (valueOf authorizationName raw).isSome := isSome_headerValue_lineOf hzero (by decide)
  by_cases hfits : raw.length < kLineCap
  · have hvalueOf := headerValue_lineOf hfits hzero
    have hstatus := status_of_lt hfits
    rw [← hvalueOf]
    cases accepted_of_acceptHeader h with
    | oversize htruncated => exact absurd htruncated hstatus
    | passedOver htruncated => exact absurd htruncated hstatus
    | authorizationTooLong => cases hwhole
    | authorization value _ hvalue =>
        rw [hvalue]
        exact ⟨hwhole, fun _ => hfits, rfl⟩
    | keyTooLong _ _ hnone =>
        rw [hnone]
        exact ⟨hwhole, fun _ => hfits, rfl⟩
    | websocketKey _ _ hnone =>
        rw [hnone]
        exact ⟨hwhole, fun _ => hfits, rfl⟩
    | contentLength _ _ _ hnone =>
        rw [hnone]
        exact ⟨hwhole, fun _ => hfits, rfl⟩
    | other _ hnone =>
        rw [hnone]
        exact ⟨hwhole, fun _ => hfits, rfl⟩
  · have hstatus := lineOf_of_le (Nat.not_lt.mp hfits)
    rw [acceptLine, acceptHeader, if_pos hstatus] at h
    split at h
    · cases h
      cases hwhole
    · rename_i hnone
      cases h
      rw [hfound, Bool.not_eq_true, Option.isSome_eq_false_iff, Option.isNone_iff_eq_none] at hnone
      rw [hnone]
      refine ⟨hwhole, fun hsome => ?_, rfl⟩
      cases hsome

/-- A `Content-Length` line that was read whole is the one that counts. -/
theorem acceptLine_contentLength (h : acceptLine fields raw = .ok next)
    (hfits : raw.length < kLineCap) {value : Bytes}
    (hvalue : valueOf contentLengthName raw = some value) :
    parseContentLength 0 (cstring value) = .ok next.contentLength := by
  have hauthorization : valueOf authorizationName raw = none :=
    valueOf_eq_none (by decide) (by decide) (by decide) hvalue
  have hkey : valueOf websocketKeyName raw = none :=
    valueOf_eq_none (by decide) (by decide) (by decide) hvalue
  have hstatus := status_of_lt hfits
  rw [acceptLine, acceptHeader, if_neg hstatus] at h
  simp only [headerValue_lineOf hfits (show (0 : Byte) ∉ authorizationName.map lowerCase by decide),
    headerValue_lineOf hfits (show (0 : Byte) ∉ websocketKeyName.map lowerCase by decide),
    headerValue_lineOf hfits (show (0 : Byte) ∉ contentLengthName.map lowerCase by decide),
    hauthorization, hkey, hvalue, Option.map_none, Option.map_some] at h
  cases hparsed : parseContentLength 0 (cstring value) with
  | error status =>
      rw [hparsed] at h
      cases h
  | ok parsed =>
      rw [hparsed] at h
      cases h
      rfl

/-- Every other line leaves the length alone. -/
theorem acceptLine_contentLength_of_not (h : acceptLine fields raw = .ok next)
    (hnot : ¬ (raw.length < kLineCap ∧ (valueOf contentLengthName raw).isSome = true)) :
    next.contentLength = fields.contentLength := by
  cases accepted_of_acceptHeader h with
  | contentLength value parsed hstatus _ hvalue =>
      have hfits : raw.length < kLineCap := by
        by_contra hle
        exact hstatus (lineOf_of_le (Nat.not_lt.mp hle))
      refine absurd ⟨hfits, ?_⟩ hnot
      rw [← isSome_headerValue_lineOf (by decide) (by decide), hvalue]
      rfl
  | oversize => rfl
  | passedOver => rfl
  | authorizationTooLong => rfl
  | authorization => rfl
  | keyTooLong => rfl
  | websocketKey => rfl
  | other => rfl

theorem acceptLine_websocketKey (h : acceptLine fields raw = .ok next)
    (hfits : raw.length < kLineCap)
    (hshort : ∀ value, valueOf websocketKeyName raw = some value →
      (cstring value).length < HttpRequest.kWebSocketKeyCap) :
    next.websocketKey =
      ((valueOf websocketKeyName raw).map cstring).getD fields.websocketKey := by
  have hkey := headerValue_lineOf hfits (show (0 : Byte) ∉ websocketKeyName.map lowerCase by decide)
  -- a line that was taken for something else has no key
  have hnot : headerValue (cstring (lineOf kLineCap raw).2) websocketKeyName = none →
      fields.websocketKey =
        ((valueOf websocketKeyName raw).map cstring).getD fields.websocketKey := by
    intro hnone
    rw [← hkey, hnone]
    rfl
  cases accepted_of_acceptHeader h with
  | oversize hstatus => exact absurd hstatus (status_of_lt hfits)
  | passedOver hstatus => exact absurd hstatus (status_of_lt hfits)
  | authorizationTooLong value _ hvalue =>
      exact hnot (headerValue_eq_none_of_other (by decide) (by decide) (by decide) hvalue)
  | authorization value _ hvalue =>
      exact hnot (headerValue_eq_none_of_other (by decide) (by decide) (by decide) hvalue)
  | keyTooLong value _ _ hvalue hlength =>
      rw [hkey] at hvalue
      obtain ⟨whole, hwhole, rfl⟩ := Option.map_eq_some_iff.mp hvalue
      exact absurd (hshort whole hwhole) (Nat.not_lt.mpr hlength)
  | websocketKey value _ _ hvalue =>
      rw [← hkey, hvalue]
      rfl
  | contentLength value _ _ _ hvalue =>
      exact hnot (headerValue_eq_none_of_other (by decide) (by decide) (by decide) hvalue)
  | other _ _ hnone => exact hnot hnone

end

/-! ## All lines -/

/-- The header lines of a request, one after another. -/
def acceptLines (fields : HeaderFields) (headers : List Bytes) :
    Except HttpReadStatus HeaderFields :=
  headers.foldlM acceptLine fields

/-- The last header line of a name. -/
def lastLine (name : Bytes) (headers : List Bytes) : Option Bytes :=
  headers.reverse.find? fun raw => (valueOf name raw).isSome

/-- The value of the last header line of a name. -/
def lastValue (name : Bytes) (headers : List Bytes) : Option Bytes :=
  (lastLine name headers).bind (valueOf name)

/-- The header lines that fit the window. -/
def fitting (headers : List Bytes) : List Bytes :=
  headers.filter fun raw => raw.length < kLineCap

theorem lastValue_concat (name : Bytes) (headers : List Bytes) (raw : Bytes) :
    lastValue name (headers ++ [raw]) = (valueOf name raw).or (lastValue name headers) := by
  rw [lastValue, lastLine, List.reverse_append, List.reverse_singleton, List.singleton_append,
    List.find?_cons]
  cases hvalue : valueOf name raw with
  | none => rfl
  | some value => exact hvalue

theorem lastValue_eq_getLast? (name : Bytes) (headers : List Bytes) :
    lastValue name headers = (headers.filterMap (valueOf name)).getLast? := by
  induction headers using List.reverseRecOn with
  | nil => rfl
  | append_singleton headers raw ih =>
      rw [lastValue_concat, ih, List.filterMap_append]
      cases hvalue : valueOf name raw with
      | none =>
          rw [List.filterMap_cons_none hvalue, List.filterMap_nil, List.append_nil,
            Option.none_or]
      | some value =>
          rw [List.filterMap_cons_some hvalue, List.filterMap_nil, List.getLast?_concat,
            Option.some_or]

theorem acceptLines_concat {fields next : HeaderFields} {headers : List Bytes} {raw : Bytes}
    (h : acceptLines fields (headers ++ [raw]) = .ok next) :
    ∃ before, acceptLines fields headers = .ok before ∧ acceptLine before raw = .ok next := by
  rw [acceptLines, List.foldlM_append] at h
  cases hbefore : headers.foldlM acceptLine fields with
  | error status =>
      rw [hbefore] at h
      cases h
  | ok before =>
      refine ⟨before, hbefore, ?_⟩
      rw [hbefore] at h
      cases hlast : acceptLine before raw with
      | error status =>
          simp only [bind, Except.bind, List.foldlM_cons, hlast] at h
          cases h
      | ok last =>
          simp only [bind, Except.bind, List.foldlM_cons, hlast, List.foldlM_nil] at h
          exact h

section

variable {headers : List Bytes} {fields : HeaderFields}

/-- Unless one was too long, every `Authorization` line was read whole, and the last one
counts up to its first NUL. -/
theorem acceptLines_authorization (h : acceptLines .zero headers = .ok fields)
    (hwhole : fields.authorizationTruncated = false) :
    (∀ raw ∈ headers, (valueOf authorizationName raw).isSome = true → raw.length < kLineCap) ∧
      fields.authorization = ((lastValue authorizationName headers).map cstring).getD [] := by
  induction headers using List.reverseRecOn generalizing fields with
  | nil =>
      cases h
      exact ⟨fun raw hmem => (nomatch hmem), rfl⟩
  | append_singleton headers raw ih =>
      obtain ⟨before, hbefore, hlast⟩ := acceptLines_concat h
      obtain ⟨hwholeBefore, hfits, hvalue⟩ := acceptLine_authorization hlast hwhole
      obtain ⟨hfitsBefore, hvalueBefore⟩ := ih hbefore hwholeBefore
      refine ⟨fun line hmem hnamed => ?_, ?_⟩
      · rcases List.mem_append.mp hmem with hold | hnew
        · exact hfitsBefore line hold hnamed
        · rw [List.mem_singleton.mp hnew] at hnamed ⊢
          exact hfits hnamed
      · rw [hvalue, hvalueBefore, lastValue_concat]
        cases valueOf authorizationName raw <;> rfl

/-- The last `Content-Length` line that fits the window counts, up to its first NUL. -/
theorem acceptLines_contentLength (h : acceptLines .zero headers = .ok fields) :
    parseContentLength 0 (((lastValue contentLengthName (fitting headers)).map cstring).getD []) =
      .ok fields.contentLength := by
  induction headers using List.reverseRecOn generalizing fields with
  | nil =>
      cases h
      rfl
  | append_singleton headers raw ih =>
      obtain ⟨before, hbefore, hlast⟩ := acceptLines_concat h
      have hold := ih hbefore
      by_cases hfits : raw.length < kLineCap
      · have hfitting : fitting (headers ++ [raw]) = fitting headers ++ [raw] := by
          rw [fitting, List.filter_append, fitting, List.filter_singleton]
          simp only [hfits, decide_true, cond_true]
        rw [hfitting, lastValue_concat]
        cases hvalue : valueOf contentLengthName raw with
        | some value => exact acceptLine_contentLength hlast hfits hvalue
        | none =>
            rw [acceptLine_contentLength_of_not hlast (by simp [hvalue])]
            exact hold
      · have hfitting : fitting (headers ++ [raw]) = fitting headers := by
          rw [fitting, List.filter_append, fitting, List.filter_singleton]
          simp only [hfits, decide_false, cond_false, List.append_nil]
        rw [hfitting, acceptLine_contentLength_of_not hlast fun hboth => hfits hboth.1]
        exact hold

theorem acceptLines_websocketKey (h : acceptLines .zero headers = .ok fields)
    (hfits : ∀ raw ∈ headers, raw.length < kLineCap)
    (hshort : ∀ raw ∈ headers, ∀ value, valueOf websocketKeyName raw = some value →
      (cstring value).length < HttpRequest.kWebSocketKeyCap) :
    fields.websocketKey = ((lastValue websocketKeyName headers).map cstring).getD [] := by
  induction headers using List.reverseRecOn generalizing fields with
  | nil =>
      cases h
      rfl
  | append_singleton headers raw ih =>
      obtain ⟨before, hbefore, hlast⟩ := acceptLines_concat h
      have hmem : raw ∈ headers ++ [raw] := List.mem_append_right _ List.mem_cons_self
      rw [acceptLine_websocketKey hlast (hfits raw hmem) (hshort raw hmem),
        ih hbefore (fun line hline => hfits line (List.mem_append_left _ hline))
          (fun line hline => hshort line (List.mem_append_left _ hline)), lastValue_concat]
      cases valueOf websocketKeyName raw <;> rfl

end

/-! ## Declared lengths -/

theorem parseContentLength_eq_ok {parsed length : Nat} {digits : Bytes}
    (h : parseContentLength parsed digits = .ok length) :
    (∀ c ∈ digits, isDigit c = true) ∧
      digits.foldl (fun value c => value * 10 + (c.toNat - 0x30)) parsed = length := by
  induction digits generalizing parsed with
  | nil =>
      cases h
      exact ⟨fun c hc => (nomatch hc), rfl⟩
  | cons c rest ih =>
      rw [parseContentLength] at h
      split at h
      · cases h
      · rename_i hdigit
        split at h
        · cases h
        · obtain ⟨hrest, hvalue⟩ := ih h
          refine ⟨fun d hd => ?_, hvalue⟩
          rcases List.mem_cons.mp hd with rfl | hd
          · simpa using hdigit
          · exact hrest d hd

theorem le_foldl_digits (parsed : Nat) (digits : Bytes) :
    parsed ≤ digits.foldl (fun value c => value * 10 + (c.toNat - 0x30)) parsed := by
  induction digits generalizing parsed with
  | nil => exact Nat.le_refl _
  | cons c rest ih =>
      have hc : parsed ≤ parsed * 10 + (c.toNat - 0x30) := by omega
      exact hc.trans (ih _)

/-- Digits worth no more than the check allows are read as what they are worth. -/
theorem parseContentLength_of_le {parsed : Nat} {digits : Bytes}
    (hdigits : ∀ c ∈ digits, isDigit c = true)
    (hle : digits.foldl (fun value c => value * 10 + (c.toNat - 0x30)) parsed ≤ 1000000) :
    parseContentLength parsed digits =
      .ok (digits.foldl (fun value c => value * 10 + (c.toNat - 0x30)) parsed) := by
  induction digits generalizing parsed with
  | nil => rfl
  | cons c rest ih =>
      have hc : isDigit c = true := hdigits c List.mem_cons_self
      have hstep := le_foldl_digits (parsed * 10 + (c.toNat - 0x30)) rest
      rw [List.foldl_cons] at hle ⊢
      rw [parseContentLength, if_neg (by rw [hc]; exact Bool.noConfusion), if_neg (by omega)]
      exact ih (fun d hd => hdigits d (List.mem_cons_of_mem _ hd)) hle

end MatrixFaces.Api
