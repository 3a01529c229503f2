import MatrixFaces.Board.CommandQueue

set_option autoImplicit false

/-!
# The settings handlers (`src/api/handlers.cpp`)

`handleSetAppSettings` and `handleWsMessage`.  The JSON reader is a library the
firmware links; the handlers below take the document it made, `none` when it
reported an error.  `handleSetAppSettings` is cut where it first touches the
command queue, since the other tasks can run between two of its queue calls.

`prepareSettings` is the part in front of the queue: the app, the body, and the settings that
it mentions, in the order of the app's own descriptors.  Its errors carry the status and the
code that the source sends.  `acceptedSetting` is what will be posted for one setting.

`wsCommand` is the same for a message of one setting, which is posted by itself.

`prepareSettings` is the part in front of the queue: the app, the body, and the settings that it
mentions, in the order of the app's own descriptors.  Its errors carry the status and the code
that the source sends.  `acceptedSetting` is what will be posted for one setting.

`wsCommand` is the same for a message of one setting, which is posted by itself.
-/

namespace MatrixFaces.Api

open MatrixFaces.Foundation
open MatrixFaces.Apps
open MatrixFaces.Board

/-- A JSON document as the handlers read it. -/
inductive Json where
  | null
  | bool (value : Bool)
  | int (value : Int)
  | float
  | string (text : Bytes)
  | array
  | object (members : List (Bytes × Json))

namespace Json

/-- `doc[key]`: null unless `doc` is an object with that member. -/
def get (doc : Json) (key : Bytes) : Json :=
  match doc with
  | .object members =>
      match members.find? fun member => member.1 == key with
      | none => .null
      | some member => member.2
  | _ => .null

def isNull : Json → Bool
  | .null => true
  | _ => false

/-- `is<bool>()` and `as<bool>()`. -/
def bool? : Json → Option Bool
  | .bool value => some value
  | _ => none

/-- `is<int32_t>()` and `as<int32_t>()`. -/
def int32? : Json → Option Int32
  | .int value =>
      if -2147483648 ≤ value ∧ value ≤ 2147483647 then some (Int32.ofInt value) else none
  | _ => none

/-- `is<uint32_t>()` and `as<uint32_t>()`. -/
def uint32? : Json → Option UInt32
  | .int value => if 0 ≤ value ∧ value ≤ 4294967295 then some (UInt32.ofNat value.toNat) else none
  | _ => none

/-- `is<const char *>()` and `as<const char *>()`. -/
def string? : Json → Option Bytes
  | .string text => some text
  | _ => none

end Json

/-! ## Replies -/

/-- A reply: an error document, or the settings a 200 reports. -/
inductive Reply where
  | error (status : Nat) (code : String)
  | settings (values : List (Bytes × SettingValue))
  deriving DecidableEq

def Reply.status : Reply → Nat
  | .error status _ => status
  | .settings _ => 200

/-! ## Reading the request -/

/-- `parseAppIndex`; `none` is `kNoAppIndex`. -/
def parseAppIndex (text : Bytes) : Option Nat :=
  let digits := cstring text
  if digits = [] then none
  else
    digits.foldl
      (fun value (c : Byte) =>
        value.bind fun value =>
          if c < 48 ∨ 57 < c then none
          else if value * 10 + (c.toNat - 48) > 255 then none
          else some (value * 10 + (c.toNat - 48)))
      (some 0)

/-- `resolveAppIndex`. -/
def resolveAppIndex (wildcard : Bytes) (scheduler : AppScheduler) : Except Reply UInt8 :=
  match parseAppIndex wildcard with
  | none => .error (.error 404 "unknown_endpoint")
  | some parsed =>
      if parsed ≥ scheduler.count then .error (.error 404 "unknown_app_index")
      else .ok (UInt8.ofNat parsed)

/-- `readSettingValue` on a zero value: the source's `bool` and what it leaves in
the value. -/
def readSettingValue (raw : Json) (descriptor : SettingDescriptor) : Bool × SettingValue :=
  let value := { SettingValue.zero with type := descriptor.type }
  match descriptor.type with
  | .kBool =>
      match raw.bool? with
      | none => (false, value)
      | some b => (true, { value with boolValue := b })
  | .kInt | .kColor =>
      match raw.int32? with
      | none => (false, value)
      | some n => (true, { value with intValue := n })
  | .kString =>
      match raw.string? with
      | none => (false, value)
      | some text =>
          if (cstring text).length ≥ kStringCap then (false, value)
          else (true, { value with stringValue := stringField (cstring text) })

/-- `AcceptedSetting`. -/
structure AcceptedSetting where
  key : Bytes
  value : SettingValue
  deriving DecidableEq

/-- The descriptors whose key the body mentions with a value other than null. -/
def mentioned (body : Json) (descriptors : List SettingDescriptor) : List SettingDescriptor :=
  descriptors.filter fun descriptor => !(body.get descriptor.key).isNull

/-- The test of pass 1 on one mentioned setting. -/
def passesValidation (scheduler : AppScheduler) (appIndex : UInt8) (body : Json)
    (descriptor : SettingDescriptor) : Bool :=
  let read := readSettingValue (body.get descriptor.key) descriptor
  read.1 && scheduler.validateSetting appIndex descriptor.key read.2

/-- The entry pass 2 makes of one mentioned setting. -/
def acceptedSetting (body : Json) (descriptor : SettingDescriptor) : AcceptedSetting :=
  ⟨descriptor.key, (readSettingValue (body.get descriptor.key) descriptor).2⟩

/-- `handleSetAppSettings` up to its first queue call: the reply it gives without
one, or the app index, `accepted`, and `tooManyToQueue`. -/
def prepareSettings (scheduler : AppScheduler) (wildcard : Bytes) (body : Option Json) :
    Except Reply (UInt8 × List AcceptedSetting × Bool) :=
  match resolveAppIndex wildcard scheduler with
  | .error reply => .error reply
  | .ok appIndex =>
      match body with
      | none => .error (.error 400 "invalid_setting_value")
      | some body =>
          let present := mentioned body (scheduler.descriptors appIndex)
          if present.all (passesValidation scheduler appIndex body) = false then
            .error (.error 400 "invalid_setting_value")
          else if present = [] then .error (.error 400 "no_recognized_settings")
          else
            .ok (appIndex, (present.take kCommandQueueDepth).map (acceptedSetting body),
              decide (kCommandQueueDepth < present.length))

/-- `sendAppSettings`: what was just accepted in preference to the live value. -/
def sendAppSettings (scheduler : AppScheduler) (appIndex : UInt8)
    (accepted : List AcceptedSetting) : Reply :=
  .settings ((scheduler.descriptors appIndex).filterMap fun descriptor =>
    match accepted.find? fun entry => entry.key == descriptor.key with
    | some pending => some (descriptor.key, pending.value)
    | none => (scheduler.getSetting appIndex descriptor.key).map fun value =>
        (descriptor.key, value))

/-- `handleWsMessage` up to its queue call: the command it posts, if any. -/
def wsCommand (scheduler : AppScheduler) (body : Option Json) : Option Command := do
  let body ← body
  let app ← (body.get (ascii "app")).uint32?
  let key ← (body.get (ascii "key")).string?
  if app.toNat ≥ scheduler.count then none
  else
    let appIndex := app.toUInt8
    let descriptor ← (scheduler.descriptors appIndex).find? fun descriptor =>
      descriptor.key == cstring key
    let read := readSettingValue (body.get (ascii "value")) descriptor
    if read.1 && scheduler.validateSetting appIndex descriptor.key read.2 then
      some (Command.applySetting appIndex descriptor.key read.2)
    else none

/-- Every reply `prepareSettings` gives by itself is a 400 or a 404. -/
theorem status_of_prepareSettings {scheduler : AppScheduler} {wildcard : Bytes}
    {body : Option Json} {reply : Reply}
    (h : prepareSettings scheduler wildcard body = .error reply) :
    reply.status = 400 ∨ reply.status = 404 := by
  rw [prepareSettings] at h
  split at h
  · rename_i resolved hresolve
    cases h
    rw [resolveAppIndex] at hresolve
    split at hresolve
    · cases hresolve
      exact Or.inr rfl
    · split at hresolve
      · cases hresolve
        exact Or.inr rfl
      · cases hresolve
  · split at h
    · cases h
      exact Or.inl rfl
    · simp only at h
      split at h
      · cases h
        exact Or.inl rfl
      · split at h
        · cases h
          exact Or.inl rfl
        · cases h

end MatrixFaces.Api
