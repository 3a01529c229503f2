import MatrixFaces.Net.Truncation

set_option autoImplicit false

/-!
# Race control messages as they are written

A response without insignificant white space around its messages, and what the parser
reads from it.

`MessageText` is one message with its index and its members.  `driverFlag_eq` and
`dictEntries_messagesText` say what is read of one message and of the list of them;
`Surroundings` is the rest of a response, and `reading_response` and `messagesOf_response` are
about all of it.
-/

namespace MatrixFaces.Net.Mv

open MatrixFaces.Foundation

/-- A message as `nextDictEntry` gives it. -/
abbrev Message := Int × Bytes

/-- A message as it is written: its index and its object. -/
structure MessageText where
  name : Bytes
  object : Bytes
  isDigits : IsDigits name
  isObject : IsObject object

namespace MessageText

def text (message : MessageText) : Bytes :=
  chQuote :: message.name ++ chQuote :: chColon :: message.object

/-- What the parser makes of it. -/
def read (message : MessageText) : Message :=
  (min LONG_MAX (digitsValue message.name), message.object.dropLast)

end MessageText

def quoted (chars : Bytes) : Bytes := chQuote :: chars ++ [chQuote]

/-- Members with these names and values. -/
def membersText : List (Bytes × Bytes) → Bytes
  | [] => []
  | [(name, value)] => quoted name ++ chColon :: value
  | (name, value) :: rest => quoted name ++ chColon :: value ++ chComma :: membersText rest

/-- The object with these members. -/
def objectText (members : List (Bytes × Bytes)) : Bytes :=
  chOpen :: membersText members ++ [chClose]

theorem jsonText_membersText {members : List (Bytes × Bytes)} (hne : members ≠ [])
    (h : ∀ member ∈ members, StringChars member.1 ∧ JsonText .value member.2) :
    JsonText .members (membersText members) := by
  have hone : ∀ name value : Bytes, StringChars name → JsonText .value value →
      JsonText .member (quoted name ++ chColon :: value) := by
    intro name value hname hvalue
    have hblank : IsBlankRun [] := by simp [IsBlankRun]
    have hmember := JsonText.member hblank hname hblank hblank hblank hvalue
    simpa [quoted] using hmember
  induction members with
  | nil => exact absurd rfl hne
  | cons member rest ih =>
      obtain ⟨⟨hname, hvalue⟩, hrest⟩ := List.forall_mem_cons.mp h
      cases rest with
      | nil => exact .oneMember (hone member.1 member.2 hname hvalue)
      | cons next more =>
          have hmore := JsonText.moreMembers (hone member.1 member.2 hname hvalue)
            (ih (by simp) hrest)
          simpa [membersText] using hmore

theorem isObject_objectText {members : List (Bytes × Bytes)} (hne : members ≠ [])
    (h : ∀ member ∈ members, StringChars member.1 ∧ JsonText .value member.2) :
    IsObject (objectText members) :=
  ⟨membersText members, rfl, Or.inr (jsonText_membersText hne h)⟩

/-- The inside of a `Messages` object. -/
def messagesText : List MessageText → Bytes
  | [] => []
  | [message] => message.text
  | message :: rest => message.text ++ chComma :: messagesText rest

theorem object_eq_cons {object : Bytes} (h : IsObject object) :
    ∃ rest, object = chOpen :: rest := by
  obtain ⟨inner, rfl, _⟩ := h
  exact ⟨inner ++ [chClose], rfl⟩

/-! ## One message -/

theorem nextDictEntry_message (message : MessageText) {front : Bytes}
    (hfront : ∀ c ∈ front, isSeparator c = true) (rest : Bytes) :
    nextDictEntry (front ++ (message.text ++ rest)) =
      some (message.read.1, message.read.2, rest) := by
  have hskip : (front ++ (message.text ++ rest)).dropWhile isSeparator = message.text ++ rest := by
    rw [List.dropWhile_append_of_pos hfront, MessageText.text]
    exact List.dropWhile_cons_of_neg (by decide)
  have htext : message.text ++ rest =
      chQuote :: (message.name ++ chQuote :: (chColon :: (message.object ++ rest))) := by
    simp [MessageText.text]
  have hcolon : (chQuote :: chColon :: (message.object ++ rest)).dropWhile (· != chColon) =
      chColon :: (message.object ++ rest) := by
    rw [List.dropWhile_cons_of_pos (by decide), List.dropWhile_cons_of_neg (by decide)]
  have hblank : (message.object ++ rest).dropWhile isBlank = message.object ++ rest := by
    obtain ⟨inner, hinner⟩ := object_eq_cons message.isObject
    rw [hinner]
    exact List.dropWhile_cons_of_neg (by decide)
  have hlength : 0 < message.object.length := by
    obtain ⟨inner, hinner⟩ := object_eq_cons message.isObject
    rw [hinner]
    exact Nat.zero_lt_succ _
  rw [nextDictEntry, hskip, htext]
  simp only [ne_eq, not_true_eq_false, if_false]
  rw [strtol_digits message.isDigits fun c hc => by cases hc; rfl]
  simp only [hcolon, hblank, findObjectEnd_object message.isObject]
  rw [List.take_append_of_le_length (Nat.sub_le _ _), ← List.dropLast_eq_take,
    Nat.sub_add_cancel hlength, List.drop_left]
  rfl

/-! ## A message about a driver's flag -/

/-- The racing number that a message gives, bare or quoted. -/
def numberOf (value : Option Bytes) : Option Int :=
  match extractLong value with
  | some racingNumber => some racingNumber
  | none => (extractString value 8).map fun text => ((strtol text).map Prod.fst).getD 0

theorem guard_positive {α β : Type} (n : Int) (found : Option α) (f : α → β) :
    ((guard (0 < n) : Option Unit).bind fun _ => found.bind fun a => some (f a)) =
      if n ≤ 0 then none else found.map f := by
  by_cases hn : 0 < n
  · rw [guard, if_pos hn, if_neg (by omega), Option.map_eq_bind]
    rfl
  · rw [guard, if_neg hn, if_pos (by omega)]
    rfl

theorem driverFlag_eq (entry : Bytes) :
    driverFlag entry =
      if (extractString (findValue entry (ascii "\"Category\":")) 16).map cstring ≠
          some (ascii "Flag") then none
      else if (extractString (findValue entry (ascii "\"Scope\":")) 16).map cstring ≠
          some (ascii "Driver") then none
      else
        match numberOf (findValue entry (ascii "\"RacingNumber\":")) with
        | none => none
        | some racingNumber =>
            if racingNumber ≤ 0 then none
            else
              (extractString (findValue entry (ascii "\"Flag\":")) 16).map fun flag =>
                (UInt16.ofInt racingNumber, cstring flag) := by
  unfold driverFlag
  cases extractString (findValue entry (ascii "\"Category\":")) 16 with
  | none => rfl
  | some category =>
      by_cases hcategory : cstring category = ascii "Flag"
      · cases extractString (findValue entry (ascii "\"Scope\":")) 16 with
        | none => simp [hcategory]
        | some scope =>
            by_cases hscope : cstring scope = ascii "Driver"
            · unfold numberOf
              simp only [hcategory, hscope, Option.bind_eq_bind, Option.bind_some,
                Option.map_some, ne_eq, not_true, if_false]
              cases extractLong (findValue entry (ascii "\"RacingNumber\":")) with
              | some racingNumber => exact guard_positive racingNumber _ _
              | none =>
                  cases extractString (findValue entry (ascii "\"RacingNumber\":")) 8 with
                  | none => rfl
                  | some text => exact guard_positive _ _ _
            · simp [hcategory, hscope]
      · simp [hcategory]

/-! ## A list of messages -/

theorem dictEntriesUpTo_messages {messages : List MessageText} {calls : Nat}
    (hcalls : messages.length ≤ calls) {front : Bytes}
    (hfront : ∀ c ∈ front, isSeparator c = true) (hnil : messages = [] → front = []) :
    dictEntriesUpTo calls (front ++ messagesText messages) = messages.map MessageText.read := by
  induction messages generalizing calls front with
  | nil =>
      rw [hnil rfl]
      cases calls with
      | zero => rfl
      | succ calls => rfl
  | cons message rest ih =>
      obtain ⟨calls, rfl⟩ : ∃ n, calls = n + 1 :=
        ⟨calls - 1, by simp only [List.length_cons] at hcalls; omega⟩
      have hrest : messagesText (message :: rest) = message.text ++
          ((if rest = [] then [] else [chComma]) ++ messagesText rest) := by
        cases rest with
        | nil => simp [messagesText]
        | cons next more => simp [messagesText]
      rw [hrest, dictEntriesUpTo, nextDictEntry_message message hfront, List.map_cons]
      simp only
      rw [ih (by simp only [List.length_cons] at hcalls; omega)]
      · split
        · simp
        · simp [isSeparator]
      · intro hempty
        rw [if_pos hempty]

theorem length_le_messagesText (messages : List MessageText) :
    messages.length ≤ (messagesText messages).length := by
  induction messages with
  | nil => exact le_rfl
  | cons message rest ih =>
      cases rest with
      | nil => simp [messagesText, MessageText.text]
      | cons next more =>
          simp only [messagesText, List.length_append, List.length_cons] at ih ⊢
          omega

theorem dictEntries_messagesText (messages : List MessageText) :
    dictEntries (messagesText messages) = messages.map MessageText.read := by
  have hnone : ∀ c ∈ ([] : Bytes), isSeparator c = true := by simp
  have hall := dictEntriesUpTo_messages (length_le_messagesText messages) hnone fun _ => rfl
  rw [List.nil_append] at hall
  exact hall

/-! ## A response -/

/-- A member's name and colon. -/
theorem neutral_key {name : Bytes} (h : StringChars name) :
    Neutral (chQuote :: name ++ [chQuote, chColon]) := by
  have hsplit : chQuote :: name ++ [chQuote, chColon] =
      (chQuote :: name ++ [chQuote]) ++ [chColon] := by simp
  rw [hsplit]
  exact (Neutral.string h).append (Neutral.plain (plain_of_all rfl))

theorem neutral_object {object : Bytes} (h : IsObject object) : Neutral object := by
  obtain ⟨inner, rfl, hblank | hmembers⟩ := h
  · exact (Neutral.plain hblank.plain).braces
  · exact (neutral_of_jsonText hmembers).braces

theorem MessageText.neutral (message : MessageText) : Neutral message.text := by
  have htext : message.text =
      (chQuote :: message.name ++ [chQuote, chColon]) ++ message.object := by
    simp [MessageText.text]
  rw [htext]
  exact (neutral_key (IsDigits.stringChars message.isDigits)).append
    (neutral_object message.isObject)

theorem neutral_messagesText (messages : List MessageText) : Neutral (messagesText messages) := by
  induction messages with
  | nil => exact Neutral.nil
  | cons message rest ih =>
      cases rest with
      | nil => exact message.neutral
      | cons next more =>
          have hcomma : Neutral [chComma] := Neutral.plain (plain_of_all rfl)
          have hall := (message.neutral.append hcomma).append ih
          rw [List.append_assoc] at hall
          exact hall

/-- The members around the messages: those in front name the three other topics, and
nothing in them is taken for the race control messages. -/
structure Surroundings where
  before : Bytes
  after : Bytes
  neutralBefore : Neutral before
  neutralAfter : Neutral after
  located : strstr raceControlKey (chOpen :: before ++ raceControlKey) = some raceControlKey
  trackStatus : (findObject (chOpen :: before) (ascii "\"TrackStatus\":")).isSome
  lapCount : (findObject (chOpen :: before) (ascii "\"LapCount\":")).isSome
  drivers : (findObject (chOpen :: before) (ascii "\"DriverList\":")).isSome

namespace Surroundings

variable (around : Surroundings)

/-- The value of `RaceControlMessages`. -/
def raceControl (messages : List MessageText) : Bytes :=
  chOpen :: (messagesKey ++ (chOpen :: messagesText messages ++ [chClose])) ++ [chClose]

/-- The members of the session. -/
def members (messages : List MessageText) : Bytes :=
  around.before ++ raceControlKey ++ raceControl messages ++ around.after

/-- A response with these messages. -/
def response (messages : List MessageText) : Bytes :=
  responseHead ++ (chOpen :: around.members messages ++ [chClose] ++ [chClose, chClose])

theorem neutral_raceControlKey : Neutral raceControlKey := by
  have hname : StringChars (ascii "RaceControlMessages") := stringChars_of_all rfl
  have hkey := neutral_key hname
  exact hkey

theorem neutral_messagesKey : Neutral messagesKey := by
  have hname : StringChars (ascii "Messages") := stringChars_of_all rfl
  have hkey := neutral_key hname
  exact hkey

theorem neutral_raceControl (messages : List MessageText) :
    Neutral (messagesKey ++ (chOpen :: messagesText messages ++ [chClose])) :=
  neutral_messagesKey.append (neutral_messagesText messages).braces

theorem neutral_members (messages : List MessageText) : Neutral (around.members messages) :=
  ((around.neutralBefore.append neutral_raceControlKey).append
    (neutral_raceControl messages).braces).append around.neutralAfter

theorem reading_response (messages : List MessageText) :
    reading (around.response messages) =
      some (.session (chOpen :: around.members messages)) := by
  have hnull : ¬ ascii "null" <+:
      chOpen :: around.members messages ++ [chClose] ++ [chClose, chClose] := by
    rintro ⟨rest, hrest⟩
    cases hrest
  have hvalue : findValue (around.response messages) stateKey =
      some (chOpen :: around.members messages ++ [chClose] ++ [chClose, chClose]) :=
    findValue_at (by decide +kernel) _
  rw [reading, hvalue, Option.bind_some, readingOf, if_neg hnull,
    findObjectEnd_braces (around.neutral_members messages)]
  simp

/-- The object right behind the first occurrence of its key. -/
theorem findObject_at {front key inner : Bytes} (h : strstr key (front ++ key) = some key)
    (hinner : Neutral inner) (rest : Bytes) :
    findObject (front ++ key ++ (chOpen :: inner ++ [chClose] ++ rest)) key =
      some (chOpen :: inner) := by
  rw [findObject, List.cons_append, List.cons_append, findValue_at h]
  simp only
  rw [← List.cons_append, ← List.cons_append, findObjectEnd_braces hinner]
  simp

theorem messagesOf_response (messages : List MessageText) :
    messagesOf (chOpen :: around.members messages) = some (messages.map MessageText.read) := by
  have hraceControl : findObject (chOpen :: around.members messages) raceControlKey =
      some (chOpen :: (messagesKey ++ (chOpen :: messagesText messages ++ [chClose]))) := by
    have hat := findObject_at around.located (neutral_raceControl messages) around.after
    simpa [members, raceControl] using hat
  have hmessages : findObject
      (chOpen :: (messagesKey ++ (chOpen :: messagesText messages ++ [chClose]))) messagesKey =
      some (chOpen :: messagesText messages) := by
    have hlocated : strstr messagesKey ([chOpen] ++ messagesKey) = some messagesKey := by
      decide +kernel
    have hat := findObject_at hlocated (neutral_messagesText messages) []
    simpa using hat
  rw [messagesOf, hraceControl]
  simp only
  rw [hmessages, Option.map_some, List.drop_one, List.tail_cons, dictEntries_messagesText]

theorem findObject_append {scope key object : Bytes} (more : Bytes)
    (h : findObject scope key = some object) : findObject (scope ++ more) key = some object := by
  rw [findObject] at h ⊢
  cases hvalue : findValue scope key with
  | none =>
      rw [hvalue] at h
      cases h
  | some value =>
      rw [hvalue] at h
      obtain ⟨length, hlength, rfl⟩ := Option.map_eq_some_iff.mp h
      rw [findValue_append more hvalue]
      simp only [findObjectEnd_append more hlength, Option.map_some]
      rw [List.take_append_of_le_length (findObjectEnd_lt hlength).le]

/-- A topic in front of the messages is found whatever they are. -/
theorem findObject_members (messages : List MessageText) {key : Bytes}
    (h : (findObject (chOpen :: around.before) key).isSome) :
    findObject (chOpen :: around.members messages) key =
      findObject (chOpen :: around.before) key := by
  obtain ⟨object, hobject⟩ := Option.isSome_iff_exists.mp h
  rw [hobject, members, List.append_assoc, List.append_assoc, ← List.cons_append]
  exact findObject_append _ hobject

end Surroundings

end MatrixFaces.Net.Mv
