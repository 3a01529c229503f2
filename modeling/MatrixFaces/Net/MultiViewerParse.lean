import Mathlib.Data.Fin.Basic
import Mathlib.Data.Fintype.Basic
import Mathlib.Data.List.FinRange
import Mathlib.Logic.Function.Basic
import MatrixFaces.Foundation.CText

set_option autoImplicit false

/-!
# The MultiViewer feed parser (`src/net/multiviewer_parse.cpp`)

A scope `[start, end)` is the list of its bytes, and a pointer into it the list of those
from it on.  The byte behind a scope that `findObjectEnd` delimits is a closing brace,
where `strtol` stops as it does at the end of the list.  The terminators `findValue`
writes are taken back before it returns.  A `char` array holds the bytes in front of its
terminator.

`parse` is put together from one function for each topic, and from `actOnMessages` for the race
control messages: they are scanned in the order of the text, then the table is aged and what is
shown is chosen.  Its results and counters are those of the source.

That this is what the parser does in its buffer is `Net.ParserMemory` and `Net.ParserSafety`.
-/

namespace MatrixFaces.Net.Mv

open MatrixFaces.Foundation

/-! ## `multiviewer_parse.h` -/

inductive Flag where
  | kUnknown | kAllClear | kYellow | kSafetyCar | kVirtualSafetyCar | kRed
  deriving DecidableEq, Repr

abbrev kTlaCap : Nat := 4
abbrev kMaxDrivers : Nat := 28
def kBlueFlagTimeoutMs : UInt32 := 20000

/-- No number marks an unused slot. -/
structure DriverEntry where
  racingNumber : UInt16
  tla : Bytes
  deriving DecidableEq, Repr

structure BlueFlagEntry where
  racingNumber : UInt16
  lastSeenMs : UInt32
  deriving DecidableEq, Repr

abbrev Drivers := Fin kMaxDrivers → DriverEntry

abbrev BlueFlags := Fin kMaxDrivers → BlueFlagEntry

structure SessionState where
  trackFlag : Flag
  hasLapCount : Bool
  currentLap : UInt32
  totalLaps : UInt32
  drivers : Drivers
  lastMessageIndex : Int
  blueFlags : BlueFlags
  blueFlagTla : Bytes
  deriving DecidableEq

/-- The counters that `parse` maintains. -/
structure Counters where
  parsed : UInt32
  noSession : UInt32
  malformed : UInt32
  truncated : UInt32
  deriving DecidableEq, Repr

inductive ParseResult where
  | kOk | kNoSession | kMalformed | kTruncated
  deriving DecidableEq, Repr

namespace SessionState

/-- The state at boot, and what `reset` goes back to. -/
def initial : SessionState where
  trackFlag := .kUnknown
  hasLapCount := false
  currentLap := 0
  totalLaps := 0
  drivers := fun _ => ⟨0, []⟩
  lastMessageIndex := -1
  blueFlags := fun _ => ⟨0, 0⟩
  blueFlagTla := []

def reset (_ : SessionState) : SessionState := initial

def tlaForRacingNumber (state : SessionState) (racingNumber : UInt16) : Option Bytes :=
  ((List.finRange kMaxDrivers).find? fun i => (state.drivers i).racingNumber = racingNumber).map
    fun i => (state.drivers i).tla

end SessionState

/-! ## Finding fields -/

def isBlank (c : Byte) : Bool := c = chSpace || c = chTab

/-- `findValue`; the key carries its quotes and its colon. -/
def findValue (scope key : Bytes) : Option Bytes :=
  match strstr key scope with
  | none => none
  | some found =>
      let value := (found.drop key.length).dropWhile isBlank
      if value = [] then none else some value

/-- The loop of `findObjectEnd` inside the object, at a depth of `nested` objects in it. -/
def scanObject : Nat → Bool → Bytes → Option Nat
  | _, _, [] => none
  | nested, true, c :: rest =>
      if c = chBackslash then
        match rest with
        | [] => none
        | _ :: rest => (scanObject nested true rest).map (· + 2)
      else (scanObject nested (c != chQuote) rest).map (· + 1)
  | nested, false, c :: rest =>
      if c = chQuote then (scanObject nested true rest).map (· + 1)
      else if c = chOpen then (scanObject (nested + 1) false rest).map (· + 1)
      else if c = chClose then
        match nested with
        | 0 => some 0
        | nested + 1 => (scanObject nested false rest).map (· + 1)
      else (scanObject nested false rest).map (· + 1)

/-- `findObjectEnd`: how far behind the opening brace its closing brace is. -/
def findObjectEnd : Bytes → Option Nat
  | [] => none
  | c :: rest => if c = chOpen then (scanObject 0 false rest).map (· + 1) else none

/-- The loop of `extractString`: the characters, and whether the string was closed. -/
def unquote : Bytes → Bytes × Bool
  | [] => ([], false)
  | c :: rest =>
      if c = chQuote then ([], true)
      else if c = chBackslash then
        match rest with
        | [] => ([c], false)
        | escaped :: rest => (escaped :: (unquote rest).1, (unquote rest).2)
      else (c :: (unquote rest).1, (unquote rest).2)

/-- `extractString`, from a value that may be missing, into `cap` bytes. -/
def extractString (value : Option Bytes) (cap : Nat) : Option Bytes :=
  match value with
  | none | some [] => none
  | some (c :: rest) =>
      if c = chQuote ∧ (unquote rest).2 = true then some ((unquote rest).1.take (cap - 1)) else none

/-- `extractLong`. -/
def extractLong (value : Option Bytes) : Option Int :=
  match value with
  | none => none
  | some value => (strtol value).map Prod.fst

def isSeparator (c : Byte) : Bool :=
  c = chComma || c = chSpace || c = chTab || c = 0x0A || c = 0x0D

/-- `nextDictEntry`: the key, the entry's object and the cursor behind it. -/
def nextDictEntry (cursor : Bytes) : Option (Int × Bytes × Bytes) :=
  match cursor.dropWhile isSeparator with
  | [] => none
  | c :: name =>
      if c ≠ chQuote then none
      else
        match strtol name with
        | none => none
        | some (key, rest) =>
            match rest.dropWhile (· != chColon) with
            | [] => none
            | _ :: rest =>
                let entry := rest.dropWhile isBlank
                match findObjectEnd entry with
                | none => none
                | some length => some (key, entry.take length, entry.drop (length + 1))

/-- The calls of `nextDictEntry` up to the one that finds nothing. -/
def dictEntriesUpTo : Nat → Bytes → List (Int × Bytes)
  | 0, _ => []
  | calls + 1, cursor =>
      match nextDictEntry cursor with
      | none => []
      | some (key, entry, rest) => (key, entry) :: dictEntriesUpTo calls rest

/-- Every call takes a byte off the cursor, so there are no more calls than bytes. -/
def dictEntries (cursor : Bytes) : List (Int × Bytes) := dictEntriesUpTo cursor.length cursor

/-- The scope of the object that is the key's value. -/
def findObject (scope key : Bytes) : Option Bytes :=
  match findValue scope key with
  | none => none
  | some value => (findObjectEnd value).map fun length => value.take length

/-- `strncpy` into a TLA array, whose last byte is the terminator. -/
def copyTla (text : Bytes) : Bytes := (cstring text).take (kTlaCap - 1)

/-! ## Topics -/

/-- What a track status message is shown as. -/
def flagOf (message : Bytes) : Flag :=
  if message = ascii "AllClear" then .kAllClear
  else if message = ascii "Yellow" ∨ message = ascii "DoubleYellow" then .kYellow
  else if message = ascii "SCDeployed" then .kSafetyCar
  else if message = ascii "VSCDeployed" ∨ message = ascii "VSCEnding" then .kVirtualSafetyCar
  else if message = ascii "Red" then .kRed
  else .kUnknown

def parseTrackStatus (scope : Bytes) (state : SessionState) : SessionState :=
  match findObject scope (ascii "\"TrackStatus\":") with
  | none => { state with trackFlag := .kUnknown }
  | some object =>
      match extractString (findValue object (ascii "\"Message\":")) 24 with
      | none => { state with trackFlag := .kUnknown }
      | some message => { state with trackFlag := flagOf (cstring message) }

def parseLapCount (scope : Bytes) (state : SessionState) : SessionState :=
  match findObject scope (ascii "\"LapCount\":") with
  | none => { state with hasLapCount := false }
  | some object =>
      let current := extractLong (findValue object (ascii "\"CurrentLap\":"))
      let total := extractLong (findValue object (ascii "\"TotalLaps\":"))
      if current = none ∧ total = none then { state with hasLapCount := false }
      else
        { state with
          currentLap := (current.map UInt32.ofInt).getD state.currentLap
          totalLaps := (total.map UInt32.ofInt).getD state.totalLaps
          hasLapCount := true }

/-- The driver in an entry of the list, if it has a TLA. -/
def driverOf (entry : Int × Bytes) : Option DriverEntry :=
  (extractString (findValue entry.2 (ascii "\"Tla\":")) kTlaCap).map fun tla =>
    ⟨UInt16.ofInt entry.1, copyTla tla⟩

def parseDriverList (scope : Bytes) (state : SessionState) : SessionState :=
  match findObject scope (ascii "\"DriverList\":") with
  | none => state
  | some object =>
      let found := (dictEntries (object.drop 1)).filterMap driverOf
      { state with drivers := fun i => found.getD i ⟨0, []⟩ }

/-- The driver and the flag of a message about a driver's flag. -/
def driverFlag (entry : Bytes) : Option (UInt16 × Bytes) := do
  let category ← extractString (findValue entry (ascii "\"Category\":")) 16
  guard (cstring category = ascii "Flag")
  let scope ← extractString (findValue entry (ascii "\"Scope\":")) 16
  guard (cstring scope = ascii "Driver")
  let value := findValue entry (ascii "\"RacingNumber\":")
  let racingNumber ←
    match extractLong value with
    | some racingNumber => some racingNumber
    | none =>
        -- a quoted number; where nothing is converted it is zero
        (extractString value 8).map fun text => ((strtol text).map Prod.fst).getD 0
  guard (0 < racingNumber)
  let flag ← extractString (findValue entry (ascii "\"Flag\":")) 16
  return (UInt16.ofInt racingNumber, cstring flag)

/-- The first slot with this racing number; 0 finds an unused one. -/
def slotOf (flags : BlueFlags) (number : UInt16) : Option (Fin kMaxDrivers) :=
  (List.finRange kMaxDrivers).find? fun i => (flags i).racingNumber = number

def raiseBlue (flags : BlueFlags) (number : UInt16) (nowMs : UInt32) : BlueFlags :=
  match slotOf flags number with
  | some i => Function.update flags i { flags i with lastSeenMs := nowMs }
  | none =>
      match slotOf flags 0 with
      | some i => Function.update flags i ⟨number, nowMs⟩
      | none => flags

def rescindBlue (flags : BlueFlags) (number : UInt16) : BlueFlags :=
  match slotOf flags number with
  | some i => Function.update flags i { flags i with racingNumber := 0 }
  | none => flags

/-- The variables of the loop over the messages. -/
structure Messages where
  highestIndex : Int
  sawLowerIndex : Bool
  blueFlags : BlueFlags

/-- The body of the loop over the messages. -/
def scanMessage (lastMessageIndex : Int) (nowMs : UInt32) (messages : Messages)
    (message : Int × Bytes) : Messages :=
  if message.1 ≤ lastMessageIndex then
    if message.1 < lastMessageIndex then { messages with sawLowerIndex := true } else messages
  else
    let blueFlags :=
      match driverFlag message.2 with
      | none => messages.blueFlags
      | some (number, flag) =>
          if flag = ascii "BLUE" then raiseBlue messages.blueFlags number nowMs
          else rescindBlue messages.blueFlags number
    { messages with
      highestIndex := max messages.highestIndex message.1
      blueFlags := blueFlags }

/-- The body of the last loop: drop a flag that timed out, and show the first that is left
and has a TLA. -/
def ageAndShow (nowMs : UInt32) (state : SessionState) (i : Fin kMaxDrivers) : SessionState :=
  if (state.blueFlags i).racingNumber = 0 then state
  else if nowMs - (state.blueFlags i).lastSeenMs ≥ kBlueFlagTimeoutMs then
    { state with
      blueFlags :=
        Function.update state.blueFlags i { state.blueFlags i with racingNumber := 0 } }
  else if state.blueFlagTla = [] then
    match state.tlaForRacingNumber (state.blueFlags i).racingNumber with
    | none => state
    | some tla => { state with blueFlagTla := copyTla tla }
  else state

/-- The message loop and what follows it. -/
def actOnMessages (messages : List (Int × Bytes)) (nowMs : UInt32) (state : SessionState) :
    SessionState :=
  let scanned := messages.foldl (scanMessage state.lastMessageIndex nowMs)
    ⟨state.lastMessageIndex, false, state.blueFlags⟩
  let updated :=
    if scanned.sawLowerIndex then
      { state with lastMessageIndex := -1, blueFlags := fun _ => ⟨0, 0⟩ }
    else
      { state with lastMessageIndex := scanned.highestIndex, blueFlags := scanned.blueFlags }
  (List.finRange kMaxDrivers).foldl (ageAndShow nowMs) { updated with blueFlagTla := [] }

def raceControlKey : Bytes := ascii "\"RaceControlMessages\":"

def messagesKey : Bytes := ascii "\"Messages\":"

/-- The entries of the `Messages` object. -/
def messagesOf (scope : Bytes) : Option (List (Int × Bytes)) :=
  match findObject scope raceControlKey with
  | none => none
  | some raceControl =>
      (findObject raceControl messagesKey).map fun object => dictEntries (object.drop 1)

def parseRaceControlMessages (scope : Bytes) (nowMs : UInt32) (state : SessionState) :
    SessionState :=
  match messagesOf scope with
  | none => state
  | some messages => actOnMessages messages nowMs state

/-! ## `parse` -/

/-- What `parse` returns and leaves behind. -/
structure Parsed where
  result : ParseResult
  state : SessionState
  counters : Counters
  deriving DecidableEq

/-- The four topics of the object that holds the session. -/
def parseTopics (scope : Bytes) (nowMs : UInt32) (state : SessionState) : SessionState :=
  parseRaceControlMessages scope nowMs
    (parseDriverList scope (parseLapCount scope (parseTrackStatus scope state)))

def stateKey : Bytes := ascii "\"f1LiveTimingState\":"

def parse (buf : Bytes) (nowMs : UInt32) (state : SessionState) (counters : Counters) : Parsed :=
  match findValue buf stateKey with
  | none => ⟨.kMalformed, state, { counters with malformed := counters.malformed + 1 }⟩
  | some value =>
      let value := value.dropWhile isBlank
      if ascii "null" <+: value then
        ⟨.kNoSession, state.reset, { counters with noSession := counters.noSession + 1 }⟩
      else if value.head? ≠ some chOpen then
        ⟨.kMalformed, state, { counters with malformed := counters.malformed + 1 }⟩
      else
        match findObjectEnd value with
        | none => ⟨.kTruncated, state, { counters with truncated := counters.truncated + 1 }⟩
        | some length =>
            ⟨.kOk, parseTopics (value.take length) nowMs state,
              { counters with parsed := counters.parsed + 1 }⟩

end MatrixFaces.Net.Mv
