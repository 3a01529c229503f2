import MatrixFaces.Net.BlueFlagMap
import MatrixFaces.Net.ShownRight

set_option autoImplicit false

/-!
# The blue flags and what the response says

A response has its own messages, and others that the searches may come to first.  The table
keeps the map of those that are read; that is the response's map as long as what is read
does the same to every map as what the response says.

Two descriptions are compared.  `ownFlags` are the flags of the session's own messages, read
off the JSON document by the path to them; `seenMessages` are the entries that the parser's
searches come to, in the order of the text.  `KeepsMap` says of a response that the table
behind it stands for the map that its own messages make of the map in front of it.

The main result is `keepsMap_iff`: that is so exactly if the messages that are read do to
every map what the response's own do (`HeardAlike`).  What the table does with the messages
it reads is settled before (`Net.BlueFlagMap`), so only the reading is left in the condition.
`PlainResponse` is a response as the server writes it, and `keepsMap_of_ownFirst` in
`Net.PlainMessages` the case in which nothing else comes first.

`stray_blue_shown` is a plain response with an earlier session's topic in front.
-/

namespace MatrixFaces.Net.Mv

open MatrixFaces.Foundation
open SlotTable (keys write Represents)

/-! ## What the response says -/

def raceControlName : Bytes := ascii "RaceControlMessages"
def messagesName : Bytes := ascii "Messages"
def categoryName : Bytes := ascii "Category"
def scopeName : Bytes := ascii "Scope"
def racingNumberName : Bytes := ascii "RacingNumber"
def flagName : Bytes := ascii "Flag"

/-- The messages of the session, each with the name it has. -/
def ownMessages (path : List Bytes) (doc : JsonDoc .element) : List (Bytes × JsonDoc .value) :=
  ((ownField path raceControlName messagesName doc).map JsonDoc.members).getD []

/-- The index that is a message's name. -/
def messageIndex (message : Bytes × JsonDoc .value) : Int := digitsValue (unescape message.1)

/-- The string at a name. -/
def ownString (name : Bytes) (message : JsonDoc .value) : Option Bytes :=
  ((message.member? name).bind JsonDoc.stringChars).map unescape

/-- The racing number, bare or quoted. -/
def ownNumber (message : JsonDoc .value) : Option Int :=
  (message.member? racingNumberName).bind fun value =>
    (value.numberText.bind NumberText.integer).or
      (value.stringChars.map fun chars => digitsValue (unescape chars))

/-- What a message says about a driver's flag, if it is about one. -/
def ownFlag (message : JsonDoc .value) : Option FlagMessage :=
  if ownString categoryName message = some (ascii "Flag") ∧
      ownString scopeName message = some (ascii "Driver") then
    (ownNumber message).bind fun number =>
      (ownString flagName message).map fun flag => (UInt16.ofInt number, flag)
  else none

/-- The session's messages about drivers' flags, in their order. -/
def ownFlags (path : List Bytes) (doc : JsonDoc .element) : List FlagMessage :=
  (ownMessages path doc).filterMap fun message => ownFlag message.2

/-! ## Responses as they are written -/

/-- The names that are looked for in a message. -/
def fieldNames : List Bytes := [categoryName, scopeName, racingNumberName, flagName]

/-- A number that is written in digits, bare or quoted. -/
def numeral : JsonDoc .value → Option Bytes
  | .number n => if n.negative = false ∧ n.frac = [] ∧ n.exp = none then some n.int else none
  | .string chars _ => some chars
  | _ => none

/-- Digits without leading zeros, of a number that has 16 bits. -/
structure IsRacingNumber (digits : Bytes) : Prop where
  isDigits : IsDigits digits
  head : digits.head? ≠ some 0x30
  bound : digitsValue digits ≤ 65535

/-- A flat object; what is looked for in it has no escapes, and its racing number is one. -/
structure PlainMessage (message : JsonDoc .value) : Prop where
  isObject : message.objectKeys.isSome
  flat : ∀ member ∈ message.members, member.2.isScalar = true
  strings : ∀ name ∈ fieldNames, ∀ value ∈ message.member? name, ∀ chars ∈ value.stringChars,
    chBackslash ∉ chars
  number : ∀ value ∈ message.member? racingNumberName,
    ∃ digits ∈ numeral value, IsRacingNumber digits

/-- A response as it is written: no white space, and messages with their indices. -/
structure PlainResponse (path : List Bytes) (doc : JsonDoc .element) : Prop where
  compact : doc.compact = true
  index : ∀ message ∈ ownMessages path doc, IsDigits message.1 ∧ digitsValue message.1 < 2 ^ 31
  plain : ∀ message ∈ ownMessages path doc, PlainMessage message.2

instance (digits : Bytes) : Decidable (IsDigits digits) :=
  decidable_of_iff (digits ≠ [] ∧ digits.all isDigit = true)
    ⟨fun h => ⟨h.1, List.all_eq_true.mp h.2⟩, fun h => ⟨h.1, List.all_eq_true.mpr h.2⟩⟩

instance (digits : Bytes) : Decidable (IsRacingNumber digits) :=
  decidable_of_iff (IsDigits digits ∧ digits.head? ≠ some 0x30 ∧ digitsValue digits ≤ 65535)
    ⟨fun h => ⟨h.1, h.2.1, h.2.2⟩, fun h => ⟨h.isDigits, h.head, h.bound⟩⟩

instance (message : JsonDoc .value) : Decidable (PlainMessage message) :=
  decidable_of_iff (message.objectKeys.isSome ∧
      (∀ member ∈ message.members, member.2.isScalar = true) ∧
      (∀ name ∈ fieldNames, ∀ value ∈ message.member? name, ∀ chars ∈ value.stringChars,
        chBackslash ∉ chars) ∧
      ∀ value ∈ message.member? racingNumberName, ∃ digits ∈ numeral value, IsRacingNumber digits)
    ⟨fun h => ⟨h.1, h.2.1, h.2.2.1, h.2.2.2⟩,
      fun h => ⟨h.isObject, h.flat, h.strings, h.number⟩⟩

instance (path : List Bytes) (doc : JsonDoc .element) : Decidable (PlainResponse path doc) :=
  decidable_of_iff (doc.compact = true ∧
      (∀ message ∈ ownMessages path doc, IsDigits message.1 ∧ digitsValue message.1 < 2 ^ 31) ∧
      ∀ message ∈ ownMessages path doc, PlainMessage message.2)
    ⟨fun h => ⟨h.1, h.2.1, h.2.2⟩, fun h => ⟨h.compact, h.index, h.plain⟩⟩

/-! ## The map of a response -/

/-- From every table without a driver twice and at any time, messages that are all above the
last index leave the table of the map that they make, and of the flags that have not timed
out one whose driver has a TLA is shown. -/
def KeepsMap (path : List Bytes) (doc : JsonDoc .element) : Prop :=
  ∀ scope, reading doc.text = some (.session scope) →
    ∀ (nowMs : UInt32) (state : SessionState), NoDriverTwice state.blueFlags →
      (∀ message ∈ ownMessages path doc, state.lastMessageIndex < messageIndex message) →
        Remains (inTime nowMs ((ownFlags path doc).foldl (heard nowMs) (lastSeen state.blueFlags)))
          state (parseRaceControlMessages scope nowMs state)

/-! ## What is read -/

/-- The entries read in an object. -/
def entriesIn (value : JsonDoc .value) : Option (List Message) :=
  value.objectKeys.map fun _ => dictEntries (value.text.dropLast.drop 1)

/-- The entries of the `Messages` object that is seen. -/
def seenMessages (doc : JsonDoc .element) : Option (List Message) :=
  ((seenTopic raceControlName doc).bind (seenValue messagesName)).bind entriesIn

/-- A map with no more drivers than there are slots. -/
structure Fits (map : LastSeen) : Prop where
  unused : map 0 = none
  room : (keys map).ncard ≤ kMaxDrivers

/-- Where a session is seen, messages are, and to every map they do what the session's own do.
The maps are those that the table can hold, the last index one below that of every message of
the session's own. -/
def HeardAlike (path : List Bytes) (doc : JsonDoc .element) : Prop :=
  (seenObject sessionName doc.keys).isSome → ∃ messages ∈ seenMessages doc,
    ∀ last nowMs map, (∀ message ∈ ownMessages path doc, last < messageIndex message) →
      Fits map →
        heardAll last nowMs messages map = (ownFlags path doc).foldl (heard nowMs) map

theorem isWord_messageNames (word : Bytes) (h : word ∈ [raceControlName, messagesName,
    categoryName, scopeName, racingNumberName, flagName]) : IsWord word :=
  isWord_of_mem (by decide +kernel) h

/-- The messages read in a scope. -/
theorem Scope.messagesOf {scope : Bytes} {names : List JsonKey} (h : Scope scope names) :
    messagesOf scope =
      ((seenObject raceControlName names).bind (seenValue messagesName)).bind entriesIn := by
  have hkey : raceControlKey = keyText raceControlName := by decide
  have hmessages : messagesKey = keyText messagesName := by decide
  rw [Mv.messagesOf, hkey, hmessages]
  rcases rel_cases (h.findObject (isWord_messageNames raceControlName (by decide))) with
    ⟨hfound, hseen⟩ | ⟨object, inner, hfound, hseen, hscope⟩
  · rw [hfound, hseen]
    rfl
  · rw [hfound, hseen, Option.bind_some]
    dsimp only
    rw [hscope.findObject_eq (isWord_messageNames messagesName (by decide)), Option.map_bind]
    refine congrArg _ (funext fun value => ?_)
    rw [Function.comp_apply, Option.map_map, entriesIn]
    rfl

/-- The messages read in a response with a session. -/
theorem messagesOf_doc {doc : JsonDoc .element} {scope : Bytes}
    (h : reading doc.text = some (.session scope)) :
    messagesOf scope = seenMessages doc ∧ (seenObject sessionName doc.keys).isSome := by
  rcases reading_doc doc with ⟨hnone, -⟩ | ⟨found, names, hread, hseen, hscope⟩
  · exact absurd h (hnone scope)
  · rw [h] at hread
    cases hread
    rw [hscope.messagesOf, seenMessages, seenTopic, hseen, Option.bind_some]
    exact ⟨rfl, rfl⟩

/-! ## Times -/

/-- The times of a map through a function. -/
def retimed (f : UInt32 → UInt32) (map : LastSeen) : LastSeen := fun number => (map number).map f

/-- Times are written and taken away, but not looked at: the change commutes with any renaming
of times that keeps the present one. -/
structure Timeless (nowMs : UInt32) (change : LastSeen → LastSeen) : Prop where
  retimed : ∀ f : UInt32 → UInt32, f nowMs = nowMs → ∀ map,
    change (retimed f map) = retimed f (change map)
  cases : ∀ map number, change map number = none ∨ change map number = some nowMs ∨
    change map number = map number

namespace Timeless

variable {nowMs : UInt32} {change other : LastSeen → LastSeen}

theorem clear : Timeless nowMs fun _ _ => none :=
  ⟨fun _ _ _ => rfl, fun _ _ => Or.inl rfl⟩

theorem heard (flag : FlagMessage) : Timeless nowMs fun map => heard nowMs map flag := by
  constructor
  · intro f hf map
    unfold Mv.heard
    split
    · have hwrite := SlotTable.write_map kMaxDrivers map flag.1 nowMs f
      rw [hf] at hwrite
      exact hwrite
    · funext number
      unfold Mv.retimed
      by_cases hnumber : number = flag.1
      · subst hnumber
        rw [Function.update_self, Function.update_self, Option.map_none]
      · rw [Function.update_of_ne hnumber, Function.update_of_ne hnumber]
  · intro map number
    unfold Mv.heard
    split
    · exact Or.inr (SlotTable.write_cases kMaxDrivers map flag.1 nowMs number)
    · by_cases hnumber : number = flag.1
      · subst hnumber
        exact Or.inl (Function.update_self ..)
      · exact Or.inr (Or.inr (Function.update_of_ne hnumber ..))

theorem comp (h : Timeless nowMs change) (hother : Timeless nowMs other) :
    Timeless nowMs fun map => other (change map) := by
  constructor
  · intro f hf map
    rw [h.retimed f hf, hother.retimed f hf]
  · intro map number
    rcases hother.cases (change map) number with hnone | hnow | hsame
    · exact Or.inl hnone
    · exact Or.inr (Or.inl hnow)
    · rw [hsame]
      exact h.cases map number

theorem foldl (flags : List FlagMessage) :
    Timeless nowMs fun map => flags.foldl (Mv.heard nowMs) map := by
  induction flags with
  | nil => exact ⟨fun _ _ _ => rfl, fun _ _ => Or.inr (Or.inr rfl)⟩
  | cons flag rest ih => exact (Timeless.heard flag).comp ih

theorem heardAll (last : Int) (messages : List Message) :
    Timeless nowMs (heardAll last nowMs messages) := by
  unfold Mv.heardAll
  by_cases hbelow : (messages.any fun message => message.1 < last) = true
  · simp only [if_pos hbelow]
    exact clear
  · simp only [if_neg hbelow]
    exact foldl _

/-- Times other than now are a moment ago. -/
def momentAgo (nowMs : UInt32) (seenMs : UInt32) : UInt32 :=
  if seenMs = nowMs then nowMs else nowMs - 1

theorem momentAgo_inTime (nowMs seenMs : UInt32) :
    nowMs - momentAgo nowMs seenMs < kBlueFlagTimeoutMs := by
  unfold momentAgo
  split
  · rw [UInt32.sub_self]
    decide
  · have hone : nowMs - (nowMs - 1) = 1 := by grind
    rw [hone]
    decide

theorem momentAgo_eq_now_iff (nowMs seenMs : UInt32) :
    momentAgo nowMs seenMs = nowMs ↔ seenMs = nowMs := by
  unfold momentAgo
  split
  · exact iff_of_true rfl ‹_›
  · have hbefore : nowMs - 1 ≠ nowMs := by grind
    exact iff_of_false hbefore ‹_›

theorem inTime_momentAgo (nowMs : UInt32) (map : LastSeen) :
    inTime nowMs (Mv.retimed (momentAgo nowMs) map) = Mv.retimed (momentAgo nowMs) map := by
  funext number
  unfold inTime Mv.retimed
  cases map number with
  | none => rfl
  | some seenMs =>
      rw [Option.map_some, Option.filter_some_pos]
      exact decide_eq_true (momentAgo_inTime nowMs seenMs)

/-- Changes that agree on a map of a moment ago, timeouts apart, agree on the map. -/
theorem eq_of_inTime (h : Timeless nowMs change) (hother : Timeless nowMs other) {map : LastSeen}
    (hsame : inTime nowMs (change (Mv.retimed (momentAgo nowMs) map)) =
      inTime nowMs (other (Mv.retimed (momentAgo nowMs) map))) : change map = other map := by
  have hnow : momentAgo nowMs nowMs = nowMs := if_pos rfl
  rw [h.retimed _ hnow, hother.retimed _ hnow, inTime_momentAgo, inTime_momentAgo] at hsame
  funext number
  have hnumber : (change map number).map (momentAgo nowMs) =
      (other map number).map (momentAgo nowMs) := congrFun hsame number
  cases hleft : change map number with
  | none =>
      rw [hleft, Option.map_none] at hnumber
      exact (Option.map_eq_none_iff.mp hnumber.symm).symm
  | some seenMs =>
      cases hright : other map number with
      | none =>
          rw [hleft, hright] at hnumber
          cases hnumber
      | some otherMs =>
          rw [hleft, hright, Option.map_some, Option.map_some, Option.some.injEq] at hnumber
          by_cases hfresh : seenMs = nowMs
          · rw [hfresh, hnow] at hnumber
            rw [hfresh, (momentAgo_eq_now_iff nowMs otherMs).mp hnumber.symm]
          · have hold : otherMs ≠ nowMs := by
              rintro rfl
              exact hfresh ((momentAgo_eq_now_iff _ seenMs).mp (hnumber.trans hnow))
            -- neither was written now, so both were there before
            have hboth : map number = some seenMs ∧ map number = some otherMs := by
              have hfirst := h.cases map number
              have hsecond := hother.cases map number
              rw [hleft] at hfirst
              rw [hright] at hsecond
              simp only [reduceCtorEq, Option.some.injEq, hfresh, hold, false_or] at hfirst hsecond
              exact ⟨hfirst.symm, hsecond.symm⟩
            rw [← hboth.1, hboth.2]

end Timeless

/-! ## Tables -/

theorem fits_lastSeen {flags : BlueFlags} (h : NoDriverTwice flags) : Fits (lastSeen flags) := by
  constructor
  · exact if_pos rfl
  · have hroom := h.represents.ncard_keys_le
    rw [Nat.card_fin] at hroom
    exact hroom

theorem Fits.retimed {map : LastSeen} (h : Fits map) (f : UInt32 → UInt32) :
    Fits (retimed f map) := by
  have hkeys : keys (Mv.retimed f map) = keys map := by
    ext number
    simp only [keys, Mv.retimed, Set.mem_ofPred_eq, ne_eq, Option.map_eq_none_iff]
  constructor
  · rw [Mv.retimed, h.unused, Option.map_none]
  · rw [hkeys]
    exact h.room

/-- A slot with an entry, or an empty one. -/
def slotEntry : Option (UInt16 × UInt32) → BlueFlagEntry
  | none => ⟨0, 0⟩
  | some (number, seenMs) => ⟨number, seenMs⟩

/-- Every map that fits is a table's. -/
theorem Fits.exists_table {map : LastSeen} (h : Fits map) :
    ∃ flags : BlueFlags, Represents (slotsOf flags) map := by
  have hfinite : Finite UInt16 := Finite.of_injective UInt16.toFin fun _ _ => UInt16.toFin_inj.mp
  have hroom := h.room
  rw [← Nat.card_fin kMaxDrivers] at hroom
  obtain ⟨table, htable⟩ := SlotTable.exists_represents (Set.toFinite (keys map)) hroom
  refine ⟨fun i => slotEntry (table i), ?_⟩
  have hslots : slotsOf (fun i => slotEntry (table i)) = table := by
    funext i
    rw [slotsOf]
    cases hslot : table i with
    | none => rfl
    | some entry =>
        have hnumber : entry.1 ≠ 0 := by
          intro hzero
          have hvalue := htable.value hslot
          rw [hzero, h.unused] at hvalue
          cases hvalue
        exact if_neg hnumber
  rw [hslots]
  exact htable

/-! ## The table and the response -/

section

variable {path : List Bytes} {doc : JsonDoc .element}

theorem keepsMap_of_heardAlike (h : HeardAlike path doc) : KeepsMap path doc := by
  intro scope hread nowMs state hunique hlast
  obtain ⟨hmessages, hsession⟩ := messagesOf_doc hread
  obtain ⟨messages, hseen, hsame⟩ := h hsession
  rw [← hsame _ nowMs _ hlast (fits_lastSeen hunique), parseRaceControlMessages, hmessages,
    Option.mem_def.mp hseen]
  exact actOnMessages_remains messages nowMs hunique

/-- Where no messages are read, what was shown stays. -/
theorem not_keepsMap_of_none {scope : Bytes} (hread : reading doc.text = some (.session scope))
    (hmessages : messagesOf scope = none) : ¬ KeepsMap path doc := by
  intro h
  have hstate : ∀ tla : Bytes, parseRaceControlMessages scope 0
      { SessionState.initial with blueFlagTla := tla } =
        { SessionState.initial with blueFlagTla := tla } := by
    intro tla
    rw [parseRaceControlMessages, hmessages]
  have hremains : ∀ tla : Bytes, _ := fun tla =>
    h scope hread 0 { SessionState.initial with blueFlagTla := tla }
      (fun _ _ hused => absurd rfl hused) fun message _ => by
        have hstart : (-1 : Int) < 0 := by decide
        exact hstart.trans_le (Int.natCast_nonneg _)
  have hempty := (hremains []).shown_iff
  have hfull := (hremains [0x41]).shown_iff
  rw [hstate] at hempty hfull
  exact hempty.mpr (hfull.mp (by decide)) rfl

theorem heardAlike_of_keepsMap (h : KeepsMap path doc) : HeardAlike path doc := by
  intro hsession
  rcases reading_doc doc with ⟨-, hnone⟩ | ⟨scope, _, hread, -, -⟩
  · rw [hnone] at hsession
    cases hsession
  obtain ⟨hmessages, -⟩ := messagesOf_doc hread
  cases hseen : seenMessages doc with
  | none => exact absurd h (not_keepsMap_of_none hread (hmessages.trans hseen))
  | some messages =>
      refine ⟨messages, rfl, fun last nowMs map hlast hfits => ?_⟩
      refine (Timeless.heardAll last messages).eq_of_inTime (Timeless.foldl _) ?_
      obtain ⟨flags, hflags⟩ := (hfits.retimed (Timeless.momentAgo nowMs)).exists_table
      obtain ⟨state, rfl, rfl⟩ : ∃ state : SessionState,
          state.blueFlags = flags ∧ state.lastMessageIndex = last :=
        ⟨{ SessionState.initial with blueFlags := flags, lastMessageIndex := last }, rfl, rfl⟩
      have hunique := noDriverTwice_of_represents hflags
      have hown := h scope hread nowMs state hunique hlast
      have hread := actOnMessages_remains messages nowMs hunique
      rw [parseRaceControlMessages, hmessages, hseen] at hown
      rw [← lastSeen_of_represents hflags]
      exact hread.table.symm.trans hown.table

end

/-- The table keeps the map of the response's messages exactly if the messages that are read
do to every map what the response's own do.  No condition is put on the table or on the
state, only on what the searches come to in this document. -/
theorem keepsMap_iff (path : List Bytes) (doc : JsonDoc .element) :
    KeepsMap path doc ↔ HeardAlike path doc := by
  constructor
  · exact heardAlike_of_keepsMap
  · exact keepsMap_of_heardAlike

/-- A message that shows a flag to driver 44. -/
def driverMessage (flag : Bytes) : JsonDoc .value :=
  .object (.moreMembers (.plainMember categoryName (.plainString (ascii "Flag")))
    (.moreMembers (.plainMember flagName (.plainString flag))
      (.moreMembers (.plainMember scopeName (.plainString (ascii "Driver")))
        (.oneMember (.plainMember racingNumberName (.plainString (ascii "44")))))))

/-- A topic with one message. -/
def raceControlOf (message : JsonDoc .value) : JsonDoc .member :=
  .plainMember raceControlName (.object (.oneMember (.plainMember messagesName
    (.object (.oneMember (.plainMember (ascii "1") message))))))

/-- The session's message takes the flag of driver 44 back; a topic in front, of an earlier
session, has a message that shows it. -/
def strayBlue : JsonDoc .element :=
  responseOf (.moreMembers
    (.plainMember (ascii "Previous")
      (.object (.oneMember (raceControlOf (driverMessage (ascii "BLUE"))))))
    (.oneMember (raceControlOf (driverMessage (ascii "CLEAR")))))

/-- Driver 44 is on the list. -/
def strayState : SessionState :=
  { SessionState.initial with drivers := fun i => if i = 0 then ⟨44, ascii "HAM"⟩ else ⟨0, []⟩ }

/-- The blue flag of the earlier session is shown. -/
theorem stray_blue_shown :
    let parsed := parse strayBlue.text 10000 strayState ⟨0, 0, 0, 0⟩
    strayBlue.text = ascii "\x7b\"data\":\x7b\"f1LiveTimingState\":\x7b" ++
        ascii "\"Previous\":\x7b\"RaceControlMessages\":\x7b\"Messages\":\x7b" ++
        ascii "\"1\":\x7b\"Category\":\"Flag\",\"Flag\":\"BLUE\"," ++
        ascii "\"Scope\":\"Driver\",\"RacingNumber\":\"44\"\x7d\x7d\x7d\x7d," ++
        ascii "\"RaceControlMessages\":\x7b\"Messages\":\x7b" ++
        ascii "\"1\":\x7b\"Category\":\"Flag\",\"Flag\":\"CLEAR\"," ++
        ascii "\"Scope\":\"Driver\",\"RacingNumber\":\"44\"\x7d\x7d\x7d\x7d\x7d\x7d" ∧
      strayBlue.distinct = true ∧ PlainResponse [ascii "data"] strayBlue ∧
      NoDriverTwice strayState.blueFlags ∧ parsed.result = .kOk ∧
      parsed.state.blueFlagTla = ascii "HAM" ∧ ¬ KeepsMap [ascii "data"] strayBlue := by
  intro parsed
  have hok : parsed.result = .kOk := by decide +kernel
  have hshown : parsed.state.blueFlagTla = ascii "HAM" := by decide +kernel
  refine ⟨by decide +kernel, by decide +kernel, by decide +kernel,
    fun _ _ hused => absurd rfl hused, hok, hshown, fun hkeeps => ?_⟩
  obtain ⟨scope, hread⟩ := (parse_result_kOk_iff ..).mp hok
  have hflags : (parseFront scope strayState).blueFlags = fun _ => ⟨0, 0⟩ :=
    (parseFront_blueFlags scope strayState).1
  have hstate : parsed.state =
      parseRaceControlMessages scope 10000 (parseFront scope strayState) := by
    rw [parse_state, hread]
    rfl
  have hremains := hkeeps scope hread 10000 (parseFront scope strayState)
    (noDriverTwice_of_represents (hflags ▸ represents_empty)) (by
      rw [parseFront_lastMessageIndex]
      decide +kernel)
  -- the session's own message leaves the map without drivers
  have hown : ownFlags [ascii "data"] strayBlue = [(44, ascii "CLEAR")] := by decide +kernel
  have hempty : heard 10000 (fun _ => none) (44, ascii "CLEAR") = fun _ => none := by
    rw [heard, if_neg (by decide), Function.update_eq_self_iff]
  rw [← hstate, hflags, lastSeen_of_represents represents_empty, hown, List.foldl_cons, hempty,
    List.foldl_nil] at hremains
  obtain ⟨number, hnumber, -⟩ := hremains.shown (by rw [hshown]; decide)
  exact hnumber rfl

end MatrixFaces.Net.Mv
