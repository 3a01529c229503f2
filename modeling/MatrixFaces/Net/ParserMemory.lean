import MatrixFaces.Foundation.CMemory
import MatrixFaces.Net.ObjectScan

set_option autoImplicit false

/-!
# The feed parser over its buffer (`src/net/multiviewer_parse.cpp`)

The parser's pointers as indices into the buffer that it was given, with the terminators
that it writes into the buffer and takes out again.  A pointer that may be null is an
optional index.  What does not touch the buffer is as it was for lists.

The functions keep their names, so that each can be read beside the one of
`Net.MultiViewerParse`.  That none fails, and that both agree, is `Net.ParserSafety`.
-/

namespace MatrixFaces.Net.Mv.Memory

open MatrixFaces.Foundation

/-! ## Finding fields -/

/-- `findValue`, called with no null pointer. -/
def findValue (scopeStart scopeEnd : Nat) (key : Bytes) : Mem (Option Nat) :=
  if scopeEnd ≤ scopeStart then pure none
  else do
    let saved ← Mem.load scopeEnd
    Mem.store scopeEnd 0
    let found ← Mem.reads fun mem => strstrAt mem key scopeStart
    Mem.store scopeEnd saved
    match found with
    | none => pure none
    | some found =>
        let value ← Mem.reads fun mem => skipBelow mem isBlank scopeEnd (found + key.length)
        pure (if value < scopeEnd then some value else none)

/-- The loop of `findObjectEnd`. -/
def scanObject (mem : Bytes) (bufEnd p : Nat) (depth : Int) (inString : Bool) :
    Option (Option Nat) :=
  if p < bufEnd then do
    let c ← mem[p]?
    if inString then
      -- the escaped character is skipped, whatever it is
      if c = chBackslash then scanObject mem bufEnd (p + 2) depth true
      else scanObject mem bufEnd (p + 1) depth (c != chQuote)
    else if c = chQuote then scanObject mem bufEnd (p + 1) depth true
    else if c = chOpen then scanObject mem bufEnd (p + 1) (depth + 1) false
    else if c = chClose then
      if depth - 1 = 0 then return some p else scanObject mem bufEnd (p + 1) (depth - 1) false
    else scanObject mem bufEnd (p + 1) depth false
  else some none
termination_by bufEnd - p

def findObjectEnd (mem : Bytes) (objStart bufEnd : Nat) : Option (Option Nat) :=
  if bufEnd ≤ objStart then some none
  else do
    let c ← mem[objStart]?
    if c ≠ chOpen then return none
    else scanObject mem bufEnd objStart 0 false

/-- `if (n + 1 < cap) out[n++] = c`. -/
def putByte (cap : Nat) (out : Bytes) (c : Byte) : Bytes :=
  if out.length + 1 < cap then out ++ [c] else out

/-- The loop of `extractString`: where it stops, and what is in front of `out[n]`. -/
def copyString (mem : Bytes) (bufEnd cap value : Nat) (out : Bytes) : Option (Nat × Bytes) :=
  if value < bufEnd then do
    let c ← mem[value]?
    if c = chQuote then return (value, out)
    else if c = chBackslash ∧ value + 1 < bufEnd then
      let c ← mem[value + 1]?
      copyString mem bufEnd cap (value + 2) (putByte cap out c)
    else copyString mem bufEnd cap (value + 1) (putByte cap out c)
  else some (value, out)
termination_by bufEnd - value

def extractString (mem : Bytes) (value : Option Nat) (bufEnd cap : Nat) : Option (Option Bytes) :=
  match value with
  | none => some none
  | some value =>
      if bufEnd ≤ value then some none
      else do
        let c ← mem[value]?
        if c ≠ chQuote ∨ cap = 0 then return none
        else
          let (value, out) ← copyString mem bufEnd cap (value + 1) []
          return if value < bufEnd then some out else none

def extractLong (mem : Bytes) (value : Option Nat) (bufEnd : Nat) : Option (Option Int) :=
  match value with
  | none => some none
  | some value =>
      if bufEnd ≤ value then some none
      else do
        let (out, last) ← strtolAt mem value
        return if last = value then none else some out

/-- `nextDictEntry`: the key, the entry's start and end, and the cursor behind it. -/
def nextDictEntry (mem : Bytes) (cursor scopeEnd : Nat) :
    Option (Option (Int × Nat × Nat × Nat)) :=
  if scopeEnd ≤ cursor then some none
  else do
    let cursor ← skipBelow mem isSeparator scopeEnd cursor
    if scopeEnd ≤ cursor then return none
    else
      let c ← mem[cursor]?
      if c = chClose then return none
      else if c ≠ chQuote then return none
      else
        let (key, last) ← strtolAt mem (cursor + 1)
        if last = cursor + 1 then return none
        else
          let cursor ← skipBelow mem (· != chColon) scopeEnd last
          if scopeEnd ≤ cursor then return none
          else
            let cursor ← skipBelow mem isBlank scopeEnd (cursor + 1)
            if scopeEnd ≤ cursor then return none
            else
              let c ← mem[cursor]?
              if c ≠ chOpen then return none
              else
                let entryEnd ← findObjectEnd mem cursor scopeEnd
                return entryEnd.map fun entryEnd => (key, cursor, entryEnd, entryEnd + 1)

/-! ## Topics -/

/-- How every topic starts: the key's value has to be an object. -/
def findObject (scopeStart scopeEnd : Nat) (key : Bytes) : Mem (Option (Nat × Nat)) := do
  match ← findValue scopeStart scopeEnd key with
  | none => pure none
  | some value =>
      if scopeEnd ≤ value then pure none
      else
        let c ← Mem.load value
        if c ≠ chOpen then pure none
        else
          let objEnd ← Mem.reads fun mem => findObjectEnd mem value scopeEnd
          pure (objEnd.map fun objEnd => (value, objEnd))

/-- `extractString(findValue(…), …)`. -/
def extractField (scopeStart scopeEnd : Nat) (key : Bytes) (cap : Nat) : Mem (Option Bytes) := do
  let value ← findValue scopeStart scopeEnd key
  Mem.reads fun mem => extractString mem value scopeEnd cap

def parseTrackStatus (scopeStart scopeEnd : Nat) (state : SessionState) : Mem SessionState := do
  match ← findObject scopeStart scopeEnd (ascii "\"TrackStatus\":") with
  | none => pure { state with trackFlag := .kUnknown }
  | some (value, objEnd) =>
      match ← extractField value objEnd (ascii "\"Message\":") 24 with
      | none => pure { state with trackFlag := .kUnknown }
      | some message => pure { state with trackFlag := flagOf (cstring message) }

def parseLapCount (scopeStart scopeEnd : Nat) (state : SessionState) : Mem SessionState := do
  match ← findObject scopeStart scopeEnd (ascii "\"LapCount\":") with
  | none => pure { state with hasLapCount := false }
  | some (value, objEnd) =>
      let currentValue ← findValue value objEnd (ascii "\"CurrentLap\":")
      let current ← Mem.reads fun mem => extractLong mem currentValue objEnd
      let totalValue ← findValue value objEnd (ascii "\"TotalLaps\":")
      let total ← Mem.reads fun mem => extractLong mem totalValue objEnd
      if current = none ∧ total = none then pure { state with hasLapCount := false }
      else
        pure { state with
          currentLap := (current.map UInt32.ofInt).getD state.currentLap
          totalLaps := (total.map UInt32.ofInt).getD state.totalLaps
          hasLapCount := true }

/-- The loop over the drivers.  A call of `nextDictEntry` takes a byte off the scope, so
that not all `calls` are needed. -/
def driverLoop (objEnd : Nat) : Nat → Nat → Nat → Drivers → Mem Drivers
  | 0, _, _, _ => fun _ => none
  | calls + 1, cursor, count, drivers =>
      if h : count < kMaxDrivers then do
        match ← Mem.reads fun mem => nextDictEntry mem cursor objEnd with
        | none => pure drivers
        | some (key, entryStart, entryEnd, cursor) =>
            match ← extractField entryStart entryEnd (ascii "\"Tla\":") kTlaCap with
            | none => driverLoop objEnd calls cursor count drivers
            | some tla =>
                driverLoop objEnd calls cursor (count + 1)
                  (Function.update drivers ⟨count, h⟩ ⟨UInt16.ofInt key, copyTla tla⟩)
      else pure drivers

def parseDriverList (scopeStart scopeEnd : Nat) (state : SessionState) : Mem SessionState := do
  match ← findObject scopeStart scopeEnd (ascii "\"DriverList\":") with
  | none => pure state
  | some (value, objEnd) =>
      let drivers ← driverLoop objEnd objEnd (value + 1) 0 fun _ => ⟨0, []⟩
      pure { state with drivers := drivers }

/-- The racing number, bare or quoted; the quoted one is copied out of the buffer. -/
def racingNumberOf (mem : Bytes) (value : Option Nat) (entryEnd : Nat) : Option (Option Int) := do
  match ← extractLong mem value entryEnd with
  | some racingNumber => return some racingNumber
  | none =>
      match ← extractString mem value entryEnd 8 with
      | none => return none
      | some text =>
          let (racingNumber, _) ← strtolAt (text ++ [0]) 0
          return some racingNumber

/-- The driver and the flag of a message about a driver's flag. -/
def driverFlag (entryStart entryEnd : Nat) : Mem (Option (UInt16 × Bytes)) := do
  let category ← extractField entryStart entryEnd (ascii "\"Category\":") 16
  if category.map cstring ≠ some (ascii "Flag") then pure none
  else
    let scope ← extractField entryStart entryEnd (ascii "\"Scope\":") 16
    if scope.map cstring ≠ some (ascii "Driver") then pure none
    else
      let value ← findValue entryStart entryEnd (ascii "\"RacingNumber\":")
      match ← Mem.reads fun mem => racingNumberOf mem value entryEnd with
      | none => pure none
      | some racingNumber =>
          if racingNumber ≤ 0 then pure none
          else
            let flag ← extractField entryStart entryEnd (ascii "\"Flag\":") 16
            pure (flag.map fun flag => (UInt16.ofInt racingNumber, cstring flag))

/-- What a message changes, once its flag is known. -/
def noteMessage (nowMs : UInt32) (messages : Messages) (key : Int)
    (found : Option (UInt16 × Bytes)) : Messages :=
  { messages with
    highestIndex := max messages.highestIndex key
    blueFlags :=
      match found with
      | none => messages.blueFlags
      | some (number, flag) =>
          if flag = ascii "BLUE" then raiseBlue messages.blueFlags number nowMs
          else rescindBlue messages.blueFlags number }

/-- The loop over the messages. -/
def messageLoop (lastMessageIndex : Int) (nowMs : UInt32) (messagesEnd : Nat) :
    Nat → Nat → Messages → Mem Messages
  | 0, _, _ => fun _ => none
  | calls + 1, cursor, messages => do
      match ← Mem.reads fun mem => nextDictEntry mem cursor messagesEnd with
      | none => pure messages
      | some (key, entryStart, entryEnd, cursor) =>
          if key ≤ lastMessageIndex then
            messageLoop lastMessageIndex nowMs messagesEnd calls cursor
              (if key < lastMessageIndex then { messages with sawLowerIndex := true }
                else messages)
          else
            let found ← driverFlag entryStart entryEnd
            messageLoop lastMessageIndex nowMs messagesEnd calls cursor
              (noteMessage nowMs messages key found)

/-- What follows the loop over the messages. -/
def afterMessages (scanned : Messages) (nowMs : UInt32) (state : SessionState) : SessionState :=
  let updated :=
    if scanned.sawLowerIndex then
      { state with lastMessageIndex := -1, blueFlags := fun _ => ⟨0, 0⟩ }
    else
      { state with lastMessageIndex := scanned.highestIndex, blueFlags := scanned.blueFlags }
  (List.finRange kMaxDrivers).foldl (ageAndShow nowMs) { updated with blueFlagTla := [] }

def parseRaceControlMessages (scopeStart scopeEnd : Nat) (nowMs : UInt32) (state : SessionState) :
    Mem SessionState := do
  match ← findObject scopeStart scopeEnd raceControlKey with
  | none => pure state
  | some (rcmValue, rcmEnd) =>
      match ← findObject rcmValue rcmEnd messagesKey with
      | none => pure state
      | some (messagesValue, messagesEnd) =>
          let scanned ← messageLoop state.lastMessageIndex nowMs messagesEnd messagesEnd
            (messagesValue + 1) ⟨state.lastMessageIndex, false, state.blueFlags⟩
          pure (afterMessages scanned nowMs state)

/-! ## `parse` -/

/-- `strncmp(p, word, strlen(word)) == 0`. -/
def startsWith (mem : Bytes) : Bytes → Nat → Option Bool
  | [], _ => some true
  | w :: word, p => do
      let c ← mem[p]?
      if c = w then startsWith mem word (p + 1) else return false

/-- `stateValue + 4 <= bufEnd && strncmp(stateValue, "null", 4) == 0`. -/
def isNull (mem : Bytes) (stateValue bufEnd : Nat) : Option Bool :=
  if stateValue + 4 ≤ bufEnd then startsWith mem (ascii "null") stateValue else some false

/-- The buffer has the `len` bytes of the body, and one more. -/
def parse (len : Nat) (nowMs : UInt32) (state : SessionState) (counters : Counters) :
    Mem Parsed := do
  match ← findValue 0 len stateKey with
  | none => pure ⟨.kMalformed, state, { counters with malformed := counters.malformed + 1 }⟩
  | some value =>
      let stateValue ← Mem.reads fun mem => skipBelow mem isBlank len value
      if ← Mem.reads fun mem => isNull mem stateValue len then
        pure ⟨.kNoSession, state.reset, { counters with noSession := counters.noSession + 1 }⟩
      else if len ≤ stateValue then
        pure ⟨.kMalformed, state, { counters with malformed := counters.malformed + 1 }⟩
      else
        let c ← Mem.load stateValue
        if c ≠ chOpen then
          pure ⟨.kMalformed, state, { counters with malformed := counters.malformed + 1 }⟩
        else
          match ← Mem.reads fun mem => findObjectEnd mem stateValue len with
          | none => pure ⟨.kTruncated, state, { counters with truncated := counters.truncated + 1 }⟩
          | some stateEnd =>
              let state ← parseTrackStatus stateValue stateEnd state
              let state ← parseLapCount stateValue stateEnd state
              let state ← parseDriverList stateValue stateEnd state
              let state ← parseRaceControlMessages stateValue stateEnd nowMs state
              pure ⟨.kOk, state, { counters with parsed := counters.parsed + 1 }⟩

end MatrixFaces.Net.Mv.Memory
