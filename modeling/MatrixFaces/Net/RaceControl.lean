import MatrixFaces.Net.MessagesText

set_option autoImplicit false

/-!
# Polling a list of messages that grows

Each response carries all messages so far.  The parser skips those up to the index of the
last poll, and takes one below it for the start of a new session.  A poll that repeats two
messages has one below it.

A `Poll` is what was seen before and what is new; `response` is its text and `reducedResponse`
the text with the new messages alone.  `Grows` says that each poll repeats what the ones
before it had.

The main result is `repoll_exact_iff`: from the start of a session, polling the whole list and
polling what is new leave the same state after every call exactly if no response repeats
messages with two indices (`OneIndex`).  `repeat_clears_blue` is a response with two messages,
polled twice.
-/

namespace MatrixFaces.Net.Mv

open MatrixFaces.Foundation

/-! ## The message loop -/

/-- The highest index of a list, or -1. -/
def highestOf (messages : List Message) : Int :=
  messages.foldl (fun highest message => max highest message.1) (-1)

theorem foldl_max_le_iff {messages : List Message} {start bound : Int} :
    messages.foldl (fun highest message => max highest message.1) start ≤ bound ↔
      start ≤ bound ∧ ∀ message ∈ messages, message.1 ≤ bound := by
  induction messages generalizing start with
  | nil => simp
  | cons message rest ih =>
      rw [List.foldl_cons, ih, max_le_iff, List.forall_mem_cons, and_assoc]

theorem le_highestOf (messages : List Message) :
    -1 ≤ highestOf messages ∧ ∀ message ∈ messages, message.1 ≤ highestOf messages :=
  foldl_max_le_iff.mp le_rfl

theorem highestOf_append (seen added : List Message) :
    highestOf (seen ++ added) =
      added.foldl (fun highest message => max highest message.1) (highestOf seen) := by
  rw [highestOf, List.foldl_append]
  rfl

/-- Messages up to the last index are skipped, but for the test of a new session. -/
theorem foldl_scanMessage_of_le {last : Int} (nowMs : UInt32) {messages : List Message}
    (h : ∀ message ∈ messages, message.1 ≤ last) (start : Messages) :
    messages.foldl (scanMessage last nowMs) start =
      { start with
        sawLowerIndex := start.sawLowerIndex || messages.any fun message => message.1 < last } := by
  induction messages generalizing start with
  | nil => simp
  | cons message rest ih =>
      obtain ⟨hmessage, hrest⟩ := List.forall_mem_cons.mp h
      rw [List.foldl_cons, ih hrest, scanMessage, if_pos hmessage, List.any_cons]
      by_cases hlower : message.1 < last
      · simp [hlower]
      · simp [hlower]

/-- Only a message below the last index looks like a new session. -/
theorem sawLowerIndex_foldl (last : Int) (nowMs : UInt32) (messages : List Message)
    (start : Messages) :
    (messages.foldl (scanMessage last nowMs) start).sawLowerIndex =
      (start.sawLowerIndex || messages.any fun message => message.1 < last) := by
  induction messages generalizing start with
  | nil => exact (Bool.or_false _).symm
  | cons message rest ih =>
      rw [List.foldl_cons, ih, List.any_cons, ← Bool.or_assoc, scanMessage]
      by_cases hskip : message.1 ≤ last
      · rw [if_pos hskip]
        by_cases hbelow : message.1 < last
        · rw [if_pos hbelow, decide_eq_true hbelow, Bool.or_true]
        · rw [if_neg hbelow, decide_eq_false hbelow, Bool.or_false]
      · have hbelow : ¬ message.1 < last := fun hlt => hskip hlt.le
        rw [if_neg hskip, decide_eq_false hbelow, Bool.or_false]

theorem sawLowerIndex_of_mem {last : Int} {nowMs : UInt32} {list : List Message}
    {messages : Messages} {message : Message} (hmem : message ∈ list) (hlt : message.1 < last) :
    (list.foldl (scanMessage last nowMs) messages).sawLowerIndex = true := by
  rw [sawLowerIndex_foldl, Bool.or_eq_true, List.any_eq_true]
  exact Or.inr ⟨message, hmem, decide_eq_true hlt⟩

/-- Messages from the last index on raise it to the highest of them. -/
theorem highestIndex_foldl_of_ge {last : Int} (nowMs : UInt32) {messages : List Message}
    (h : ∀ message ∈ messages, last ≤ message.1) (start : Messages)
    (hstart : last ≤ start.highestIndex) :
    (messages.foldl (scanMessage last nowMs) start).highestIndex =
      messages.foldl (fun highest message => max highest message.1) start.highestIndex := by
  induction messages generalizing start with
  | nil => rfl
  | cons message rest ih =>
      obtain ⟨hmessage, hrest⟩ := List.forall_mem_cons.mp h
      have hone : (scanMessage last nowMs start message).highestIndex =
          max start.highestIndex message.1 := by
        rw [scanMessage]
        by_cases hle : message.1 ≤ last
        · rw [if_pos hle, if_neg (not_lt.mpr hmessage)]
          exact (max_eq_left (hle.trans hstart)).symm
        · rw [if_neg hle]
      rw [List.foldl_cons, List.foldl_cons, ih hrest _ (hone ▸ hstart.trans (le_max_left _ _)),
        hone]

theorem ageAndShow_lastMessageIndex (nowMs : UInt32) (slots : List (Fin kMaxDrivers))
    (state : SessionState) :
    (slots.foldl (ageAndShow nowMs) state).lastMessageIndex = state.lastMessageIndex := by
  induction slots generalizing state with
  | nil => rfl
  | cons i rest ih =>
      rw [List.foldl_cons, ih, ageAndShow]
      repeat' split
      all_goals rfl

/-- Where every message seen before has the last index, only the added ones matter. -/
theorem actOnMessages_append {seen added : List Message} {nowMs : UInt32} {state : SessionState}
    (h : ∀ message ∈ seen, message.1 = state.lastMessageIndex) :
    actOnMessages (seen ++ added) nowMs state = actOnMessages added nowMs state := by
  have hskip := foldl_scanMessage_of_le nowMs (fun message hm => (h message hm).le)
    ⟨state.lastMessageIndex, false, state.blueFlags⟩
  have hnone : seen.any (fun message => message.1 < state.lastMessageIndex) = false := by
    rw [List.any_eq_false]
    intro message hm
    simp [h message hm]
  rw [hnone] at hskip
  unfold actOnMessages
  rw [List.foldl_append, hskip]
  rfl

/-- New messages move the last index to the highest. -/
theorem actOnMessages_last_of_ge {messages : List Message} {nowMs : UInt32} {state : SessionState}
    (h : ∀ message ∈ messages, state.lastMessageIndex ≤ message.1) :
    (actOnMessages messages nowMs state).lastMessageIndex =
      messages.foldl (fun highest message => max highest message.1) state.lastMessageIndex := by
  have hhighest := highestIndex_foldl_of_ge nowMs h
    ⟨state.lastMessageIndex, false, state.blueFlags⟩ le_rfl
  have hlower := sawLowerIndex_foldl state.lastMessageIndex nowMs messages
    ⟨state.lastMessageIndex, false, state.blueFlags⟩
  have hnone : messages.any (fun message => message.1 < state.lastMessageIndex) = false := by
    rw [List.any_eq_false]
    intro message hmessage
    simpa using h message hmessage
  rw [hnone] at hlower
  unfold actOnMessages
  simp only [hlower]
  rw [ageAndShow_lastMessageIndex]
  exact hhighest

/-- A message below the last index makes the parser forget. -/
theorem actOnMessages_last_of_lower {seen : List Message} (added : List Message)
    (nowMs : UInt32) {state : SessionState}
    (hlower : ∃ message ∈ seen, message.1 < state.lastMessageIndex) :
    (actOnMessages (seen ++ added) nowMs state).lastMessageIndex = -1 := by
  have hsaw : ((seen ++ added).foldl (scanMessage state.lastMessageIndex nowMs)
      ⟨state.lastMessageIndex, false, state.blueFlags⟩).sawLowerIndex = true := by
    obtain ⟨message, hmessage, hlt⟩ := hlower
    exact sawLowerIndex_of_mem (List.mem_append_left _ hmessage) hlt
  unfold actOnMessages
  simp only [hsaw, if_true]
  rw [ageAndShow_lastMessageIndex]

/-! ## The topics in front -/

/-- The drivers a session's `DriverList` names, if it has one. -/
def driversOf (scope : Bytes) : Option (List DriverEntry) :=
  (findObject scope (ascii "\"DriverList\":")).map fun object =>
    (dictEntries (object.drop 1)).filterMap driverOf

/-- Two sessions that differ in their messages only. -/
structure SameTopics (scope other : Bytes) : Prop where
  trackStatus : trackStatusOf scope = trackStatusOf other
  lapCount : lapCountOf scope = lapCountOf other
  drivers : driversOf scope = driversOf other

/-- The topics parsed in front of the messages. -/
def parseFront (scope : Bytes) (state : SessionState) : SessionState :=
  parseDriverList scope (parseLapCount scope (parseTrackStatus scope state))

theorem parseDriverList_eq (scope : Bytes) (state : SessionState) :
    parseDriverList scope state =
      match driversOf scope with
      | none => state
      | some drivers => { state with drivers := fun i => drivers.getD i ⟨0, []⟩ } := by
  unfold parseDriverList driversOf
  cases findObject scope (ascii "\"DriverList\":") <;> rfl

theorem SameTopics.parseFront {scope other : Bytes} (h : SameTopics scope other)
    (state : SessionState) : parseFront scope state = parseFront other state := by
  simp only [Mv.parseFront, parseDriverList_eq, parseLapCount_eq, parseTrackStatus_eq,
    h.trackStatus, h.lapCount, h.drivers]

theorem parseFront_lastMessageIndex (scope : Bytes) (state : SessionState) :
    (parseFront scope state).lastMessageIndex = state.lastMessageIndex := by
  rw [parseFront, parseDriverList_eq, parseLapCount_eq, parseTrackStatus_eq]
  repeat' split
  all_goals rfl

/-! ## Polls -/

/-- A call of `parse`: the response, and the response with its `Messages` object reduced to
the entries that the response before it did not have. -/
structure Poll where
  nowMs : UInt32
  full : Bytes
  reduced : Bytes
  seen : List Message
  added : List Message

/-- Both responses are complete and alike but for the messages; the added ones have the
larger indices. -/
structure Poll.Reduces (poll : Poll) : Prop where
  scopes : ∃ scope other, reading poll.full = some (.session scope) ∧
    reading poll.reduced = some (.session other) ∧
    messagesOf scope = some (poll.seen ++ poll.added) ∧ messagesOf other = some poll.added ∧
    SameTopics scope other
  natural : ∀ message ∈ poll.seen ++ poll.added, 0 ≤ message.1
  larger : ∀ old ∈ poll.seen, ∀ new ∈ poll.added, old.1 ≤ new.1

/-- Each response has the messages of the one before it, and the added ones. -/
def Grows : List Message → List Poll → Prop
  | _, [] => True
  | seen, poll :: rest => poll.seen = seen ∧ poll.Reduces ∧ Grows (seen ++ poll.added) rest

/-- The state and the counters after a sequence of calls. -/
def parseAll : List (Bytes × UInt32) → SessionState × Counters → SessionState × Counters
  | [], memory => memory
  | response :: rest, memory =>
      let parsed := parse response.1 response.2 memory.1 memory.2
      parseAll rest (parsed.state, parsed.counters)

def Poll.response (poll : Poll) : Bytes × UInt32 := (poll.full, poll.nowMs)

def Poll.reducedResponse (poll : Poll) : Bytes × UInt32 := (poll.reduced, poll.nowMs)

/-- No two of the messages have different indices. -/
def OneIndex (messages : List Message) : Prop :=
  ∀ message ∈ messages, ∀ other ∈ messages, message.1 = other.1

/-- A call on a complete response. -/
theorem parse_session {body scope : Bytes} {messages : List Message}
    (hreading : reading body = some (.session scope)) (hmessages : messagesOf scope = some messages)
    (nowMs : UInt32) (state : SessionState) (counters : Counters) :
    (parse body nowMs state counters).state =
      actOnMessages messages nowMs (parseFront scope state) := by
  rw [parse_state, hreading, take, parseTopics, parseRaceControlMessages, hmessages]
  rfl

/-- One poll: the two responses leave the same state if the repeated messages have one
index, and different ones otherwise. -/
theorem Poll.Reduces.step {poll : Poll} (h : poll.Reduces) {state : SessionState}
    (hlast : state.lastMessageIndex = highestOf poll.seen) (counters : Counters) :
    let full := (parse poll.full poll.nowMs state counters).state
    let reduced := (parse poll.reduced poll.nowMs state counters).state
    reduced.lastMessageIndex = highestOf (poll.seen ++ poll.added) ∧
      (full = reduced ↔ OneIndex poll.seen) := by
  intro full reduced
  obtain ⟨scope, other, hfull, hreduced, hmessages, hadded, htopics⟩ := h.scopes
  have hfullState : full = actOnMessages (poll.seen ++ poll.added) poll.nowMs
      (parseFront other state) := by
    rw [← htopics.parseFront]
    exact parse_session hfull hmessages poll.nowMs state counters
  have hreducedState : reduced = actOnMessages poll.added poll.nowMs (parseFront other state) :=
    parse_session hreduced hadded poll.nowMs state counters
  generalize hfront : parseFront other state = front at hfullState hreducedState
  have hfrontLast : front.lastMessageIndex = highestOf poll.seen := by
    rw [← hfront, parseFront_lastMessageIndex, hlast]
  have hle : ∀ message ∈ poll.seen, message.1 ≤ front.lastMessageIndex := by
    rw [hfrontLast]
    exact (le_highestOf poll.seen).2
  have hge : ∀ message ∈ poll.added, front.lastMessageIndex ≤ message.1 := by
    intro message hmessage
    rw [hfrontLast, highestOf, foldl_max_le_iff]
    refine ⟨?_, fun old hold => h.larger old hold message hmessage⟩
    have := h.natural message (List.mem_append_right _ hmessage)
    omega
  have hreducedLast : reduced.lastMessageIndex = highestOf (poll.seen ++ poll.added) := by
    rw [hreducedState, actOnMessages_last_of_ge hge, hfrontLast, highestOf_append]
  refine ⟨hreducedLast, fun hsame => ?_, fun hone => ?_⟩
  · -- a message below the highest one would have made the full response forget
    have hall : ∀ message ∈ poll.seen, message.1 = front.lastMessageIndex := by
      intro message hmessage
      by_contra hne
      have hforgot := actOnMessages_last_of_lower poll.added poll.nowMs
        ⟨message, hmessage, lt_of_le_of_ne (hle message hmessage) hne⟩
      rw [← hfullState, hsame, hreducedLast] at hforgot
      have hhigh := (le_highestOf (poll.seen ++ poll.added)).2 message
        (List.mem_append_left _ hmessage)
      have := h.natural message (List.mem_append_left _ hmessage)
      omega
    exact fun message hmessage old hold => (hall message hmessage).trans (hall old hold).symm
  · rw [hfullState, hreducedState]
    refine actOnMessages_append fun message hmessage => le_antisymm (hle message hmessage) ?_
    rw [hfrontLast, highestOf, foldl_max_le_iff]
    refine ⟨?_, fun old hold => (hone old hold message hmessage).le⟩
    have := h.natural message (List.mem_append_left _ hmessage)
    omega

theorem parseAll_agree_iff {polls : List Poll} {seen : List Message} (hgrows : Grows seen polls)
    {state : SessionState} (hlast : state.lastMessageIndex = highestOf seen)
    (counters other : Counters) :
    (∀ k, (parseAll ((polls.take k).map Poll.response) (state, counters)).1 =
      (parseAll ((polls.take k).map Poll.reducedResponse) (state, other)).1) ↔
      ∀ poll ∈ polls, OneIndex poll.seen := by
  induction polls generalizing seen state counters other with
  | nil => simp [parseAll]
  | cons poll rest ih =>
      obtain ⟨rfl, hreduces, hrest⟩ := hgrows
      obtain ⟨hnext, hsame⟩ := hreduces.step hlast counters
      have hother : (parse poll.reduced poll.nowMs state other).state =
          (parse poll.reduced poll.nowMs state counters).state := by
        rw [parse_state, parse_state]
      rw [List.forall_mem_cons]
      constructor
      · intro hagree
        have hone := hsame.mp ((hagree 1).trans hother)
        refine ⟨hone, (ih hrest hnext (parse poll.full poll.nowMs state counters).counters
          (parse poll.reduced poll.nowMs state other).counters).mp fun k => ?_⟩
        have hk := hagree (k + 1)
        simp only [List.take_succ_cons, List.map_cons, parseAll, Poll.response,
          Poll.reducedResponse, hother, hsame.mpr hone] at hk
        exact hk
      · rintro ⟨hone, hlater⟩ k
        cases k with
        | zero => rfl
        | succ k =>
            simp only [List.take_succ_cons, List.map_cons, parseAll, Poll.response,
              Poll.reducedResponse, hother, hsame.mpr hone]
            exact (ih hrest hnext _ _).mpr hlater k

/-! ## Polls as they are written -/

theorem Surroundings.sameTopics (around : Surroundings) (messages other : List MessageText) :
    SameTopics (chOpen :: around.members messages) (chOpen :: around.members other) where
  trackStatus := by
    rw [trackStatusOf, trackStatusOf, around.findObject_members messages around.trackStatus,
      around.findObject_members other around.trackStatus]
  lapCount := by
    rw [lapCountOf, lapCountOf, around.findObject_members messages around.lapCount,
      around.findObject_members other around.lapCount]
  drivers := by
    rw [driversOf, driversOf, around.findObject_members messages around.drivers,
      around.findObject_members other around.drivers]

/-- A poll whose response has all the messages so far, and whose reduced response has the
added ones. -/
def Surroundings.poll (around : Surroundings) (nowMs : UInt32) (seen added : List MessageText) :
    Poll where
  nowMs := nowMs
  full := around.response (seen ++ added)
  reduced := around.response added
  seen := seen.map MessageText.read
  added := added.map MessageText.read

/-- Such polls of a list that grows are what `Grows` asks for. -/
theorem Surroundings.reduces (around : Surroundings) (nowMs : UInt32)
    {seen added : List MessageText}
    (hlarger : ∀ old ∈ seen, ∀ new ∈ added, digitsValue old.name ≤ digitsValue new.name) :
    (around.poll nowMs seen added).Reduces where
  scopes := by
    refine ⟨_, _, around.reading_response _, around.reading_response _, ?_,
      around.messagesOf_response _, around.sameTopics _ _⟩
    rw [around.messagesOf_response, List.map_append]
    rfl
  natural := by
    intro message hmessage
    obtain ⟨text, _, rfl⟩ : ∃ text ∈ seen ++ added, text.read = message := by
      simpa [Surroundings.poll, or_imp, exists_or, or_and_right] using hmessage
    simp only [MessageText.read, LONG_MAX]
    omega
  larger := by
    intro old hold new hnew
    obtain ⟨oldText, holdText, rfl⟩ := List.mem_map.mp hold
    obtain ⟨newText, hnewText, rfl⟩ := List.mem_map.mp hnew
    have := hlarger oldText holdText newText hnewText
    simp only [MessageText.read]
    omega

/-! ## The whole sequence -/

/-- From the start of a session, polling the growing list does what polling the added
messages would do, after every call, exactly when no response repeats two messages. -/
theorem repoll_exact_iff (polls : List Poll) (state : SessionState) (counters : Counters)
    (hstart : state.lastMessageIndex = -1) (hgrows : Grows [] polls) :
    (∀ k, (parseAll ((polls.take k).map Poll.response) (state, counters)).1 =
      (parseAll ((polls.take k).map Poll.reducedResponse) (state, counters)).1) ↔
      ∀ poll ∈ polls, OneIndex poll.seen :=
  parseAll_agree_iff hgrows hstart counters counters

/-- A message that shows a flag to driver 44. -/
def flagMessage (name flag : Bytes) (hname : IsDigits name)
    (hflag : flag.all isUnescaped = true) : MessageText where
  name := name
  object := objectText [(ascii "Category", quoted (ascii "Flag")),
    (ascii "Flag", quoted flag), (ascii "Scope", quoted (ascii "Driver")),
    (ascii "RacingNumber", quoted (ascii "44"))]
  isDigits := hname
  isObject := by
    refine isObject_objectText (by simp) ?_
    simp only [List.forall_mem_cons, List.not_mem_nil, false_imp_iff, implies_true, and_true]
    exact ⟨⟨stringChars_of_all rfl, .string (stringChars_of_all rfl)⟩,
      ⟨stringChars_of_all rfl, .string (stringChars_of_all hflag)⟩,
      ⟨stringChars_of_all rfl, .string (stringChars_of_all rfl)⟩,
      ⟨stringChars_of_all rfl, .string (stringChars_of_all rfl)⟩⟩

def blueMessage : MessageText :=
  flagMessage (ascii "1") (ascii "BLUE") (isDigits_of_all (by decide) rfl) rfl

def clearMessage : MessageText :=
  flagMessage (ascii "2") (ascii "CLEAR") (isDigits_of_all (by decide) rfl) rfl

def secondBlue : MessageText :=
  flagMessage (ascii "2") (ascii "BLUE") (isDigits_of_all (by decide) rfl) rfl

/-- The other topics while driver 44 is on the track. -/
def midRace : Surroundings where
  before := membersText [
    (ascii "TrackStatus", objectText [(ascii "Message", quoted (ascii "AllClear"))]),
    (ascii "LapCount", objectText [(ascii "CurrentLap", ascii "12")]),
    (ascii "DriverList",
      objectText [(ascii "44", objectText [(ascii "Tla", quoted (ascii "HAM"))])])] ++ [chComma]
  after := []
  neutralBefore := by
    have hname : StringChars (ascii "Message") := stringChars_of_all rfl
    have hlap : StringChars (ascii "CurrentLap") := stringChars_of_all rfl
    have htla : StringChars (ascii "Tla") := stringChars_of_all rfl
    have hdriver : StringChars (ascii "44") := stringChars_of_all rfl
    have htwelve : JsonText .value (ascii "12") :=
      .number (isNumber_of_digits (isDigits_of_all (by decide) rfl) (by decide))
    have hquoted : ∀ text ∈ [ascii "AllClear", ascii "HAM"], JsonText .value (quoted text) := by
      simp only [List.forall_mem_cons, List.not_mem_nil, false_imp_iff, implies_true, and_true]
      exact ⟨.string (stringChars_of_all rfl), .string (stringChars_of_all rfl)⟩
    have hsingle : ∀ name value : Bytes, StringChars name → JsonText .value value →
        JsonText .value (objectText [(name, value)]) := fun name value hname hvalue =>
      (isObject_objectText (by simp) (by simpa using ⟨hname, hvalue⟩)).value
    refine (neutral_of_jsonText (jsonText_membersText (by simp) ?_)).append
      (Neutral.plain (plain_of_all rfl))
    simp only [List.forall_mem_cons, List.not_mem_nil, false_imp_iff, implies_true, and_true]
    exact ⟨⟨stringChars_of_all rfl, hsingle _ _ hname (hquoted _ (by simp))⟩,
      ⟨stringChars_of_all rfl, hsingle _ _ hlap htwelve⟩,
      ⟨stringChars_of_all rfl,
        hsingle _ _ hdriver (hsingle _ _ htla (hquoted _ (by simp)))⟩⟩
  neutralAfter := Neutral.nil
  located := by decide +kernel
  trackStatus := by decide +kernel
  lapCount := by decide +kernel
  drivers := by decide +kernel

/-- Two messages, and the same two again: the blue flag that was shown goes out. -/
theorem repeat_clears_blue :
    let polls := [midRace.poll 10000 [] [blueMessage, secondBlue],
      midRace.poll 11000 [blueMessage, secondBlue] []]
    Grows [] polls ∧
      (parseAll (polls.map Poll.response) (.initial, ⟨0, 0, 0, 0⟩)).1.blueFlagTla = [] ∧
      (parseAll (polls.map Poll.reducedResponse) (.initial, ⟨0, 0, 0, 0⟩)).1.blueFlagTla =
        ascii "HAM" := by
  intro polls
  exact ⟨⟨rfl, midRace.reduces 10000 (by decide), rfl, midRace.reduces 11000 (by decide), trivial⟩,
    by decide +kernel, by decide +kernel⟩

/-- A blue flag, and then the same message with the one that rescinds it. -/
theorem repoll_exact_iff_two :
    let polls := [midRace.poll 10000 [] [blueMessage],
      midRace.poll 11000 [blueMessage] [clearMessage]]
    ∀ k, (parseAll ((polls.take k).map Poll.response) (.initial, ⟨0, 0, 0, 0⟩)).1 =
      (parseAll ((polls.take k).map Poll.reducedResponse) (.initial, ⟨0, 0, 0, 0⟩)).1 := by
  intro polls
  have hgrows : Grows [] polls :=
    ⟨rfl, midRace.reduces 10000 (by decide), rfl, midRace.reduces 11000 (by decide), trivial⟩
  refine (repoll_exact_iff polls .initial ⟨0, 0, 0, 0⟩ rfl hgrows).mpr ?_
  have hone : OneIndex [blueMessage.read] := by simp [OneIndex]
  exact List.forall_mem_cons.mpr ⟨by simp [OneIndex, Surroundings.poll],
    List.forall_mem_cons.mpr ⟨hone, by simp⟩⟩

end MatrixFaces.Net.Mv
