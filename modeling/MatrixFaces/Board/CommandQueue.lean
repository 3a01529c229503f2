import MatrixFaces.Apps.Settings

set_option autoImplicit false

/-!
# The command queue (`board/rtos.h`, `board/esp32s3/rtos.cpp`)

A bounded queue that refuses when full.  Each operation is one step: FreeRTOS
runs it under its own lock.

A key is cut to the characters that a `Command` has room for (`Command.applySetting`).  Every
operation has one lemma on the list of the commands: `commands_of_post` and `commands_of_take`.
A post is refused exactly when the queue is full (`commandPost_eq_none_iff`).
-/

namespace MatrixFaces.Board

open MatrixFaces.Foundation
open MatrixFaces.Apps

/-- `Command::Kind`. -/
inductive CommandKind where
  | kSwitchApp
  | kApplySetting
  | kSetLed
  deriving DecidableEq, Repr

/-- `Command`; the key by the characters it holds. -/
structure Command where
  kind : CommandKind
  appIndex : UInt8
  on : Bool
  key : Bytes
  value : SettingValue
  deriving DecidableEq

/-- `Command{}`. -/
def Command.zero : Command := ⟨.kSwitchApp, 0, false, [], SettingValue.zero⟩

/-- `sizeof(Command::key)`. -/
def kCommandKeyCap : Nat := 16

/-- The command that carries one setting; `strncpy` keeps 15 characters of the key. -/
def Command.applySetting (appIndex : UInt8) (key : Bytes) (value : SettingValue) : Command :=
  { Command.zero with
    kind := .kApplySetting
    appIndex := appIndex
    key := (cstring key).take (kCommandKeyCap - 1)
    value := value }

def kCommandQueueDepth : Nat := 8

/-- The commands waiting, oldest first. -/
structure CommandQueue where
  commands : List Command
  length_le : commands.length ≤ kCommandQueueDepth

namespace CommandQueue

/-- `commandFree`. -/
def commandFree (queue : CommandQueue) : Nat := kCommandQueueDepth - queue.commands.length

/-- `commandPost`; `none` is the source's `false`. -/
def commandPost (queue : CommandQueue) (command : Command) : Option CommandQueue :=
  if h : queue.commands.length < kCommandQueueDepth then
    some ⟨queue.commands ++ [command], by rw [List.length_append]; exact h⟩
  else none

/-- `commandTake`. -/
def commandTake (queue : CommandQueue) : Option (Command × CommandQueue) :=
  match h : queue.commands with
  | [] => none
  | command :: rest => some (command, ⟨rest, by
      have := queue.length_le
      rw [h, List.length_cons] at this
      omega⟩)

/-- A post takes one place, and is refused exactly when there is none. -/
theorem commandPost_eq_none_iff {queue : CommandQueue} {command : Command} :
    queue.commandPost command = none ↔ queue.commandFree = 0 := by
  have hle := queue.length_le
  rw [commandPost, commandFree]
  split <;> simp <;> omega

theorem commandFree_of_post {queue next : CommandQueue} {command : Command}
    (h : queue.commandPost command = some next) : queue.commandFree = next.commandFree + 1 := by
  rw [commandPost] at h
  split at h
  · cases h
    simp only [commandFree, List.length_append, List.length_singleton]
    omega
  · cases h

theorem commandFree_of_take {queue next : CommandQueue} {command : Command}
    (h : queue.commandTake = some (command, next)) : next.commandFree = queue.commandFree + 1 := by
  have hle := queue.length_le
  rw [commandTake] at h
  split at h
  · cases h
  · rename_i rest hcommands
    cases h
    simp only [commandFree, hcommands, List.length_cons] at *
    omega

theorem commands_of_post {queue next : CommandQueue} {command : Command}
    (h : queue.commandPost command = some next) :
    next.commands = queue.commands ++ [command] := by
  rw [commandPost] at h
  split at h
  · cases h
    rfl
  · cases h

theorem commands_of_take {queue next : CommandQueue} {command : Command}
    (h : queue.commandTake = some (command, next)) : queue.commands = command :: next.commands := by
  rw [commandTake] at h
  split at h
  · cases h
  · cases h
    assumption

end CommandQueue

end MatrixFaces.Board
