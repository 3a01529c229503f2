import MatrixFaces.Board.CommandQueue

set_option autoImplicit false

/-!
# The event queue (`board/rtos.h`, `board/ring.h`, `board/esp32s3/rtos.cpp`)

A bounded queue that makes room by dropping its oldest entry.

`eventPost` is a send, and if that is refused a receive and a second send.  Here it is the three
in a row; with another task in between they are in `Board.EventTasks`.  Each operation has its
lemma on the list of the events (`events_send`, `events_discard`, `events_eventTake`).
-/

namespace MatrixFaces.Board

open MatrixFaces.Foundation

/-- `Event::Kind`. -/
inductive EventKind where
  | kSettingChanged
  | kAppSwitched
  deriving DecidableEq, Repr

/-- `Event`; the key by the characters it holds. -/
structure Event where
  kind : EventKind
  appIndex : UInt8
  key : Bytes
  deriving DecidableEq

/-- `sizeof(Event::key)`. -/
def kEventKeyCap : Nat := 16

/-- The event of an applied setting. -/
def Event.settingChanged (appIndex : UInt8) (key : Bytes) : Event :=
  ⟨.kSettingChanged, appIndex, (cstring key).take (kEventKeyCap - 1)⟩

/-- The event of a switch. -/
def Event.appSwitched (appIndex : UInt8) : Event := ⟨.kAppSwitched, appIndex, []⟩

def kEventQueueDepth : Nat := 16

/-- The events waiting, oldest first. -/
structure EventQueue where
  events : List Event
  length_le : events.length ≤ kEventQueueDepth

namespace EventQueue

def empty : EventQueue := ⟨[], Nat.zero_le _⟩

/-- Put an event behind the others; `none` when there is no room. -/
def send (queue : EventQueue) (event : Event) : Option EventQueue :=
  if h : queue.events.length < kEventQueueDepth then
    some ⟨queue.events ++ [event], by rw [List.length_append]; exact h⟩
  else none

/-- `eventTake`. -/
def eventTake (queue : EventQueue) : Option (Event × EventQueue) :=
  match h : queue.events with
  | [] => none
  | event :: rest => some (event, ⟨rest, by
      have hle := queue.length_le
      rw [h, List.length_cons] at hle
      exact Nat.le_of_succ_le hle⟩)

/-- Take the oldest event out to make room. -/
def discard (queue : EventQueue) : EventQueue :=
  match queue.eventTake with
  | none => queue
  | some (_, rest) => rest

/-- `eventPost` in one go: the queue behind it, and whether nothing was dropped. -/
def eventPost (queue : EventQueue) (event : Event) : EventQueue × Bool :=
  match queue.send event with
  | some sent => (sent, true)
  | none => ((queue.discard.send event).getD queue.discard, false)

theorem events_send {queue next : EventQueue} {event : Event}
    (h : queue.send event = some next) : next.events = queue.events ++ [event] := by
  rw [send] at h
  split at h
  · cases h
    rfl
  · cases h

theorem events_eventTake {queue next : EventQueue} {event : Event}
    (h : queue.eventTake = some (event, next)) : queue.events = event :: next.events := by
  rw [eventTake] at h
  split at h
  · cases h
  · cases h
    assumption

theorem eventTake_eq_none {queue : EventQueue} (h : queue.eventTake = none) :
    queue.events = [] := by
  rw [eventTake] at h
  split at h
  · assumption
  · cases h

theorem events_discard (queue : EventQueue) : queue.discard.events = queue.events.tail := by
  rw [discard]
  cases htake : queue.eventTake with
  | none => rw [eventTake_eq_none htake]; rfl
  | some taken => rw [events_eventTake htake]; rfl

theorem send_of_room {queue : EventQueue} (event : Event)
    (h : queue.events.length < kEventQueueDepth) : ∃ next, queue.send event = some next :=
  ⟨_, dif_pos h⟩

/-- A discard makes room. -/
theorem length_discard_lt (queue : EventQueue) :
    queue.discard.events.length < kEventQueueDepth := by
  have hle := queue.length_le
  rw [events_discard, List.length_tail]
  unfold kEventQueueDepth at hle ⊢
  omega

/-- A post always puts its event in, at the price of the oldest one if it must. -/
theorem events_eventPost (queue : EventQueue) (event : Event) :
    (queue.eventPost event).1.events =
      (if (queue.eventPost event).2 = true then queue.events else queue.events.tail) ++
        [event] := by
  rw [eventPost]
  cases hsend : queue.send event with
  | some sent => exact events_send hsend
  | none =>
      obtain ⟨next, hnext⟩ := send_of_room event queue.length_discard_lt
      simp only [hnext, Option.getD_some, Bool.false_eq_true, if_false]
      rw [events_send hnext, events_discard]

end EventQueue

end MatrixFaces.Board
