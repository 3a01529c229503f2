import MatrixFaces.Net.FieldSearch

set_option autoImplicit false

/-!
# What is shown and what the response says

A response is a document, and says what stands in it at the field's place.  The parser
shows what its searches see; the two are the same as long as no other name comes first.

`ownMessage` and `ownLap` read the document by its path.  `seenMessage` and `seenLap` read it
as the parser does: by the first name, at any depth, that ends in the word.  That the parser
over the text does just this is `Net.FieldSearch`.

The main result is `shown_right_iff`, for every document and every path to the session and
without hypotheses: over all states, the flag and the laps that are shown are the response's
or none exactly if what is seen is the response's (`FlagKept`, `LapKept`).
`stray_status_shown` is a response with an earlier session's topic in front.
-/

namespace MatrixFaces.Net.Mv

open MatrixFaces.Foundation

/-! ## What the response says -/

def sessionName : Bytes := ascii "f1LiveTimingState"
def trackStatusName : Bytes := ascii "TrackStatus"
def messageName : Bytes := ascii "Message"
def lapCountName : Bytes := ascii "LapCount"
def currentLapName : Bytes := ascii "CurrentLap"
def totalLapsName : Bytes := ascii "TotalLaps"

/-- A field of a topic, with the session in the object that the path leads to. -/
def ownField (path : List Bytes) (topic field : Bytes) (doc : JsonDoc .element) :
    Option (JsonDoc .value) :=
  doc.root.at? (path ++ [sessionName, topic, field])

/-- The track status message. -/
def ownMessage (path : List Bytes) (doc : JsonDoc .element) : Option Bytes :=
  ((ownField path trackStatusName messageName doc).bind JsonDoc.stringChars).map unescape

/-- A field of the lap count that is an integer. -/
def ownLap (path : List Bytes) (field : Bytes) (doc : JsonDoc .element) : Option Int :=
  ((ownField path lapCountName field doc).bind JsonDoc.numberText).bind NumberText.integer

/-- No flag is shown, or the flag that the message names.  The message is the one at the path
of the session, whatever else the document has. -/
def RightFlag (path : List Bytes) (doc : JsonDoc .element) (state : SessionState) : Prop :=
  state.trackFlag = .kUnknown ∨ ∃ message ∈ ownMessage path doc, state.trackFlag = flagOf message

/-- A lap field that was updated is the integer that the response gives, where that has 32 bits. -/
def RightLap (own : Option Int) (before after : UInt32) : Prop :=
  after ≠ before → ∃ lap ∈ own, 0 ≤ lap → lap < 2 ^ 32 → (after.toNat : Int) = lap

/-- No laps are shown, or those that the response gives: at least one of the two fields is there,
and one that was updated has the response's value. -/
def RightLaps (path : List Bytes) (doc : JsonDoc .element) (before after : SessionState) : Prop :=
  after.hasLapCount = true →
    ((ownLap path currentLapName doc).isSome ∨ (ownLap path totalLapsName doc).isSome) ∧
      RightLap (ownLap path currentLapName doc) before.currentLap after.currentLap ∧
      RightLap (ownLap path totalLapsName doc) before.totalLaps after.totalLaps

/-! ## What is seen -/

/-- The names seen in a topic. -/
def seenTopic (topic : Bytes) (doc : JsonDoc .element) : Option (List JsonKey) :=
  (seenObject sessionName doc.keys).bind (seenObject topic)

def seenMessage (doc : JsonDoc .element) : Option Bytes :=
  (seenTopic trackStatusName doc).bind (seenString messageName)

def seenLap (field : Bytes) (doc : JsonDoc .element) : Option NumberText :=
  (seenTopic lapCountName doc).bind (seenNumber field)

/-- The string that is seen names no flag without its backslashes, or the message's. -/
def FlagKept (path : List Bytes) (doc : JsonDoc .element) : Prop :=
  ∀ chars ∈ seenMessage doc, flagOf (unslash chars) = .kUnknown ∨
    ∃ message ∈ ownMessage path doc, flagOf (unslash chars) = flagOf message

/-- Where a number is seen, the response gives an integer, and what is in front of the
number's point and exponent is that integer, if it has 32 bits. -/
def LapKept (path : List Bytes) (field : Bytes) (doc : JsonDoc .element) : Prop :=
  ∀ number ∈ seenLap field doc, ∃ lap ∈ ownLap path field doc, 0 ≤ lap → lap < 2 ^ 32 →
    longOf number % 2 ^ 32 = lap

instance (path : List Bytes) (doc : JsonDoc .element) : Decidable (FlagKept path doc) :=
  inferInstanceAs (Decidable (∀ chars ∈ seenMessage doc, _ ∨ _))

instance (path : List Bytes) (field : Bytes) (doc : JsonDoc .element) :
    Decidable (LapKept path field doc) :=
  inferInstanceAs (Decidable (∀ number ∈ seenLap field doc, _))

/-! ## What is shown -/

theorem reading_session_iff (body scope : Bytes) :
    reading body = some (.session scope) ↔ findObject body stateKey = some scope := by
  rw [reading, findObject]
  cases findValue body stateKey with
  | none => simp
  | some value =>
      simp only [Option.bind_some, readingOf]
      by_cases hnull : ascii "null" <+: value
      · have hnone : findObjectEnd value = none := by
          obtain ⟨rest, rfl⟩ := hnull
          rfl
        simp [hnull, hnone]
      · simp [hnull]

/-- Two lookups of which one finds something where the other does. -/
theorem rel_cases {α β : Type} {R : α → β → Prop} {left : Option α} {right : Option β}
    (h : Option.Rel R left right) :
    left = none ∧ right = none ∨ ∃ a b, left = some a ∧ right = some b ∧ R a b := by
  cases h with
  | none => exact Or.inl ⟨rfl, rfl⟩
  | some hab => exact Or.inr ⟨_, _, rfl, rfl, hab⟩

theorem isWord_of_all {word : Bytes} (hne : word ≠ []) (h : word.all isWordByte = true) :
    IsWord word :=
  ⟨hne, List.all_eq_true.mp h⟩

theorem isWord_of_mem {names : List Bytes}
    (h : names.all (fun name => name != [] && name.all isWordByte) = true) {word : Bytes}
    (hmem : word ∈ names) : IsWord word := by
  have hword := List.all_eq_true.mp h word hmem
  rw [Bool.and_eq_true, bne_iff_ne] at hword
  exact isWord_of_all hword.1 hword.2

theorem isWord_names (word : Bytes) (h : word ∈ [sessionName, trackStatusName, messageName,
    lapCountName, currentLapName, totalLapsName]) : IsWord word :=
  isWord_of_mem (by decide +kernel) h

/-- A word is told by less of a text than is kept of it. -/
theorem take_eq_iff {text word : Bytes} {n : Nat} (h : word.length < n) :
    text.take n = word ↔ text = word := by
  constructor
  · intro htake
    have hlength := congrArg List.length htake
    rw [List.length_take] at hlength
    rw [← htake, List.take_of_length_le (by omega)]
  · intro hsame
    rw [hsame, List.take_of_length_le (by omega)]

/-- A message as long as the buffer names no flag. -/
theorem flagOf_take (message : Bytes) : flagOf (message.take 23) = flagOf message := by
  have hword : ∀ name : Bytes, name.length < 23 → (message.take 23 = name ↔ message = name) :=
    fun _ => take_eq_iff
  simp only [flagOf, hword (ascii "AllClear") (by decide), hword (ascii "Yellow") (by decide),
    hword (ascii "DoubleYellow") (by decide), hword (ascii "SCDeployed") (by decide),
    hword (ascii "VSCDeployed") (by decide), hword (ascii "VSCEnding") (by decide),
    hword (ascii "Red") (by decide)]

theorem flagOf_read {chars : Bytes} (h : StringChars chars) :
    flagOf (cstring ((unslash chars).take (24 - 1))) = flagOf (unslash chars) := by
  have hzero : (0 : Byte) ∉ (unslash chars).take 23 := fun hmem =>
    unslash_ne_zero (stringChars_ne_zero h) 0 (List.mem_of_mem_take hmem) rfl
  rw [cstring_of_not_mem hzero, flagOf_take]

theorem stringChars_of_seenString {word chars : Bytes} {keys : List JsonKey}
    (h : seenString word keys = some chars) : StringChars chars := by
  obtain ⟨value, _, hvalue⟩ := Option.bind_eq_some_iff.mp h
  exact (string_of_stringChars hvalue).1

/-- The flag at the track status that is seen. -/
theorem Scope.trackStatusOf {scope : Bytes} {keys : List JsonKey} (h : Scope scope keys) :
    trackStatusOf scope = (((seenObject trackStatusName keys).bind (seenString messageName)).map
      fun chars => flagOf (unslash chars)).getD .kUnknown := by
  have hstatus := h.findObject (isWord_names trackStatusName (by decide))
  have hkey : ascii "\"TrackStatus\":" = keyText trackStatusName := by decide
  have hmessage : ascii "\"Message\":" = keyText messageName := by decide
  rw [Mv.trackStatusOf, hkey, hmessage]
  rcases rel_cases hstatus with ⟨hfound, hseen⟩ | ⟨object, inner, hfound, hseen, hscope⟩
  · rw [hfound, hseen]
    rfl
  · simp only [hfound, hseen, Option.bind_some,
      hscope.extractString (isWord_names messageName (by decide))]
    cases hstring : seenString messageName inner with
    | none => rfl
    | some chars => exact flagOf_read (stringChars_of_seenString hstring)

/-- The laps at the lap count that is seen. -/
theorem Scope.lapCountOf {scope : Bytes} {keys : List JsonKey} (h : Scope scope keys) :
    let current := (seenObject lapCountName keys).bind (seenNumber currentLapName)
    let total := (seenObject lapCountName keys).bind (seenNumber totalLapsName)
    lapCountOf scope = if current = none ∧ total = none then none
      else some (current.map longOf, total.map longOf) := by
  have hcount := h.findObject (isWord_names lapCountName (by decide))
  have hkey : ascii "\"LapCount\":" = keyText lapCountName := by decide
  have hcurrent : ascii "\"CurrentLap\":" = keyText currentLapName := by decide
  have htotal : ascii "\"TotalLaps\":" = keyText totalLapsName := by decide
  intro current total
  rw [Mv.lapCountOf, hkey, hcurrent, htotal]
  rcases rel_cases hcount with ⟨hfound, hseen⟩ | ⟨object, inner, hfound, hseen, hscope⟩
  · simp only [current, total, hfound, hseen, Option.bind_none, and_self, if_true]
  · simp only [current, total, hfound, hseen, Option.bind_some,
      hscope.extractLong (isWord_names currentLapName (by decide)),
      hscope.extractLong (isWord_names totalLapsName (by decide)), Option.map_eq_none_iff]

/-! ## Responses -/

section

variable {doc : JsonDoc .element} {nowMs : UInt32} {state : SessionState} {counters : Counters}

/-- The session that is seen is the one that is read. -/
theorem reading_doc (doc : JsonDoc .element) :
    (∀ scope, reading doc.text ≠ some (.session scope)) ∧ seenObject sessionName doc.keys = none ∨
      ∃ scope keys, reading doc.text = some (.session scope) ∧
        seenObject sessionName doc.keys = some keys ∧ Scope scope keys := by
  have hsession := (scope_doc doc).findObject (isWord_names sessionName (by decide))
  have hkey : keyText sessionName = stateKey := by decide
  rw [hkey] at hsession
  rcases rel_cases hsession with ⟨hfound, hseen⟩ | ⟨scope, keys, hfound, hseen, hscope⟩
  · refine Or.inl ⟨fun scope hscope => ?_, hseen⟩
    rw [reading_session_iff, hfound] at hscope
    cases hscope
  · exact Or.inr ⟨scope, keys, (reading_session_iff _ _).mpr hfound, hseen, hscope⟩

theorem parse_doc_kOk_iff (doc : JsonDoc .element) (nowMs : UInt32) (state : SessionState)
    (counters : Counters) :
    (parse doc.text nowMs state counters).result = .kOk ↔
      (seenObject sessionName doc.keys).isSome = true := by
  rw [parse_result_kOk_iff]
  rcases reading_doc doc with ⟨hnone, hseen⟩ | ⟨scope, keys, hread, hseen, _⟩
  · rw [hseen]
    exact iff_of_false (fun ⟨scope, hscope⟩ => hnone scope hscope) Bool.false_ne_true
  · rw [hseen]
    exact iff_of_true ⟨scope, hread⟩ rfl

/-- A lap field with the number that is seen for it, if any. -/
def lapAfter (seen : Option NumberText) (before : UInt32) : UInt32 :=
  (seen.map fun number => UInt32.ofInt (longOf number)).getD before

/-- A session's flag and laps are those that are seen. -/
theorem parse_doc (hok : (parse doc.text nowMs state counters).result = .kOk) :
    let next := (parse doc.text nowMs state counters).state
    next.trackFlag = ((seenMessage doc).map fun chars => flagOf (unslash chars)).getD .kUnknown ∧
      next.hasLapCount =
        ((seenLap currentLapName doc).isSome || (seenLap totalLapsName doc).isSome) ∧
      next.currentLap = lapAfter (seenLap currentLapName doc) state.currentLap ∧
      next.totalLaps = lapAfter (seenLap totalLapsName doc) state.totalLaps := by
  rcases reading_doc doc with ⟨hnone, -⟩ | ⟨scope, keys, hread, hseen, hscope⟩
  · obtain ⟨scope, hread⟩ := (parse_result_kOk_iff ..).mp hok
    exact absurd hread (hnone scope)
  obtain ⟨hflag, hlaps⟩ := sameFront_topics scope nowMs state
  have hstate : (parse doc.text nowMs state counters).state = parseTopics scope nowMs state := by
    rw [parse_state, hread]
    rfl
  simp only [SessionState.laps, Prod.mk.injEq] at hlaps
  simp only [hstate, hflag, hlaps, seenMessage, seenLap, seenTopic, hseen, Option.bind_some]
  rw [parseLapCount_eq, parseTrackStatus_eq, hscope.trackStatusOf, hscope.lapCountOf]
  generalize (seenObject lapCountName keys).bind (seenNumber currentLapName) = current
  generalize (seenObject lapCountName keys).bind (seenNumber totalLapsName) = total
  cases current <;> cases total <;> exact ⟨rfl, rfl, rfl, rfl⟩

theorem lapAfter_right_iff (seen : Option NumberText) (own : Option Int) :
    (∀ before, RightLap own before (lapAfter seen before)) ↔
      ∀ number ∈ seen, ∃ lap ∈ own, 0 ≤ lap → lap < 2 ^ 32 → longOf number % 2 ^ 32 = lap := by
  cases seen with
  | none => exact iff_of_true (fun before hne => absurd rfl hne) (by simp)
  | some number =>
      have hvalue : ((UInt32.ofInt (longOf number)).toNat : Int) = longOf number % 2 ^ 32 :=
        toNat_ofInt _
      have hlap : ∀ before, lapAfter (some number) before = UInt32.ofInt (longOf number) :=
        fun _ => rfl
      simp only [hlap, RightLap, hvalue, Option.mem_some_iff, forall_eq']
      refine ⟨fun h => h (UInt32.ofInt (longOf number) + 1) ?_, fun h before _ => h⟩
      simp

theorem flag_right_iff (path : List Bytes) (doc : JsonDoc .element) :
    (∀ nowMs state counters, (parse doc.text nowMs state counters).result = .kOk →
      RightFlag path doc (parse doc.text nowMs state counters).state) ↔ FlagKept path doc := by
  constructor
  · intro h chars hchars
    have hsession : (seenObject sessionName doc.keys).isSome = true := by
      rw [seenMessage, seenTopic] at hchars
      exact Option.isSome_of_isSome_bind
        (Option.isSome_of_isSome_bind (Option.isSome_of_mem hchars))
    have hok := (parse_doc_kOk_iff doc 0 .initial ⟨0, 0, 0, 0⟩).mpr hsession
    have hright := h 0 .initial ⟨0, 0, 0, 0⟩ hok
    rw [RightFlag, (parse_doc hok).1, Option.mem_def.mp hchars] at hright
    exact hright
  · intro hkept nowMs state counters hok
    rw [RightFlag, (parse_doc hok).1]
    cases hseen : seenMessage doc with
    | none => exact Or.inl rfl
    | some chars => exact hkept chars hseen

theorem laps_right_iff (path : List Bytes) (doc : JsonDoc .element) :
    (∀ nowMs state counters, (parse doc.text nowMs state counters).result = .kOk →
      RightLaps path doc state (parse doc.text nowMs state counters).state) ↔
      LapKept path currentLapName doc ∧ LapKept path totalLapsName doc := by
  constructor
  · intro h
    -- where one of the fields is seen, both are right whatever was shown before
    have hboth : ∀ before,
        (seenLap currentLapName doc).isSome ∨ (seenLap totalLapsName doc).isSome →
        RightLap (ownLap path currentLapName doc) before
            (lapAfter (seenLap currentLapName doc) before) ∧
          RightLap (ownLap path totalLapsName doc) before
            (lapAfter (seenLap totalLapsName doc) before) := by
      intro before hseen
      have hsession : (seenObject sessionName doc.keys).isSome = true := by
        simp only [seenLap, seenTopic] at hseen
        rcases hseen with hseen | hseen <;>
          exact Option.isSome_of_isSome_bind (Option.isSome_of_isSome_bind hseen)
      have hok := (parse_doc_kOk_iff doc 0
        { SessionState.initial with currentLap := before, totalLaps := before }
        ⟨0, 0, 0, 0⟩).mpr hsession
      obtain ⟨-, hhas, hcurrent, htotal⟩ := parse_doc hok
      have hright := h _ _ _ hok (by rw [hhas, Bool.or_eq_true]; exact hseen)
      rw [hcurrent, htotal] at hright
      exact hright.2
    refine ⟨(lapAfter_right_iff _ _).mp fun before => ?_,
      (lapAfter_right_iff _ _).mp fun before => ?_⟩
    · cases hseen : seenLap currentLapName doc with
      | none => exact fun hne => absurd rfl hne
      | some number => exact hseen ▸ (hboth before (Or.inl (hseen ▸ rfl))).1
    · cases hseen : seenLap totalLapsName doc with
      | none => exact fun hne => absurd rfl hne
      | some number => exact hseen ▸ (hboth before (Or.inr (hseen ▸ rfl))).2
  · rintro ⟨hcurrent, htotal⟩ nowMs state counters hok hhas
    obtain ⟨-, hhasIs, hcurrentIs, htotalIs⟩ := parse_doc hok
    rw [hhasIs, Bool.or_eq_true] at hhas
    rw [hcurrentIs, htotalIs]
    refine ⟨hhas.imp (fun hseen => ?_) fun hseen => ?_, (lapAfter_right_iff _ _).mpr hcurrent _,
      (lapAfter_right_iff _ _).mpr htotal _⟩
    · obtain ⟨number, hnumber⟩ := Option.isSome_iff_exists.mp hseen
      obtain ⟨lap, hlap, -⟩ := hcurrent number hnumber
      exact Option.isSome_of_mem hlap
    · obtain ⟨number, hnumber⟩ := Option.isSome_iff_exists.mp hseen
      obtain ⟨lap, hlap, -⟩ := htotal number hnumber
      exact Option.isSome_of_mem hlap

end

/-- The flag and the laps that are shown after a response are the response's or none exactly
if what is seen of the message and of the lap fields is the response's.  What is seen is the
first value whose name ends in the field's, at any depth; what is the response's stands at
the path. -/
theorem shown_right_iff (path : List Bytes) (doc : JsonDoc .element) :
    (∀ nowMs state counters,
      let parsed := parse doc.text nowMs state counters
      parsed.result = .kOk →
        RightFlag path doc parsed.state ∧ RightLaps path doc state parsed.state) ↔
      FlagKept path doc ∧ LapKept path currentLapName doc ∧ LapKept path totalLapsName doc := by
  rw [← flag_right_iff, ← laps_right_iff]
  constructor
  · intro h
    exact ⟨fun nowMs state counters hok => (h nowMs state counters hok).1,
      fun nowMs state counters hok => (h nowMs state counters hok).2⟩
  · rintro ⟨hflag, hlaps⟩ nowMs state counters
    intro parsed hok
    exact ⟨hflag nowMs state counters hok, hlaps nowMs state counters hok⟩

/-- A topic with one string in it. -/
def topicOf (topic field message : Bytes) : JsonDoc .member :=
  .plainMember topic (.object (.oneMember (.plainMember field (.plainString message))))

/-- A response with a session. -/
def responseOf (topics : JsonDoc .members) : JsonDoc .element :=
  let data : JsonDoc .value := .object (.oneMember (.plainMember sessionName (.object topics)))
  .element [] (.object (.oneMember (.plainMember (ascii "data") data))) [] isBlankRun_nil
    isBlankRun_nil

example : FlagKept [ascii "data"]
    (responseOf (.oneMember (topicOf trackStatusName messageName (ascii "Red")))) := by
  decide +kernel

/-- The track is clear; a topic in front, of an earlier session, has a status too. -/
def strayStatus : JsonDoc .element :=
  let earlier : JsonDoc .member := .plainMember (ascii "Previous")
    (.object (.oneMember (topicOf trackStatusName messageName (ascii "Red"))))
  responseOf (.moreMembers earlier
    (.oneMember (topicOf trackStatusName messageName (ascii "AllClear"))))

/-- Its red flag is shown. -/
theorem stray_status_shown :
    let parsed := parse strayStatus.text 0 .initial ⟨0, 0, 0, 0⟩
    strayStatus.text = ascii "\x7b\"data\":\x7b\"f1LiveTimingState\":\x7b" ++
      ascii "\"Previous\":\x7b\"TrackStatus\":\x7b\"Message\":\"Red\"\x7d\x7d," ++
      ascii "\"TrackStatus\":\x7b\"Message\":\"AllClear\"\x7d\x7d\x7d\x7d" ∧
      strayStatus.distinct = true ∧ parsed.result = .kOk ∧ parsed.state.trackFlag = .kRed ∧
      ¬ RightFlag [ascii "data"] strayStatus parsed.state := by
  intro parsed
  have hflag : parsed.state.trackFlag = .kRed := by decide +kernel
  have hown : ownMessage [ascii "data"] strayStatus = some (ascii "AllClear") := by decide +kernel
  refine ⟨by decide +kernel, by decide +kernel, by decide +kernel, hflag, ?_⟩
  rw [RightFlag, hflag, hown]
  rintro (hnone | ⟨message, hmessage, hsame⟩)
  · cases hnone
  · cases hmessage
    exact absurd hsame (by decide)

end MatrixFaces.Net.Mv
