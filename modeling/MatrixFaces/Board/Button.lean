import MatrixFaces.Foundation.Clock32
import MatrixFaces.Foundation.History
import MatrixFaces.Foundation.Machine

set_option autoImplicit false

/-!
# Buttons (`src/board/button.h`, `src/board/button.cpp`)

A debounced button over a run of its calls.  A hold that comes out of `poll` is a real
one; `begin` with the button already down leaves an old press time behind.

`Watched` is the button with a record of what was read from the pin and what was taken.
`Honest` says what the record has to show: every press that was taken was debounced, every
hold that can be taken lasted as long as it says, and neither comes twice.

The main result is `holds_real_iff`, over every run of `begin`, `poll`, `takePress` and
`takeHold` whose times do not decrease and span less than the range of `millis()`.  The
condition is on each `begin`, in the state in front of it (`BeginIsSound`): the pin is high,
the button was down already, its hold is taken, or the press time left behind is the very
millisecond of the call.  `hold_at_boot` is a `begin` with the button down.
-/

namespace MatrixFaces.Board

open MatrixFaces.Foundation
open MatrixFaces.Foundation.Clock32
open MatrixFaces.Foundation.History

/-- `Button`, without the number of its pin: a level that was read is an argument. -/
structure Button where
  rawLevel : Bool
  stableDown : Bool
  lastChangeMs : UInt32
  pressedAtMs : UInt32
  pressPending : Bool
  holdConsumed : Bool
  deriving DecidableEq, Repr

namespace Button

def kDebounceMs : UInt32 := 30

def initial : Button := ⟨true, false, 0, 0, false, false⟩

/-- `Button::begin`; `level` is true when the pin reads high, which is released. -/
def begin (button : Button) (level : Bool) (nowMs : UInt32) : Button :=
  { button with rawLevel := level, stableDown := !level, lastChangeMs := nowMs }

/-- `Button::poll`. -/
def poll (button : Button) (level : Bool) (nowMs : UInt32) : Button :=
  if level ≠ button.rawLevel then { button with rawLevel := level, lastChangeMs := nowMs }
  else if nowMs - button.lastChangeMs < kDebounceMs then button
  else
    let down := !level
    if down = button.stableDown then button
    else if down then
      { button with
        stableDown := true, pressedAtMs := nowMs, pressPending := true, holdConsumed := false }
    else { button with stableDown := false }

/-- `Button::takePress`. -/
def takePress (button : Button) : Bool × Button :=
  if button.pressPending = false then (false, button)
  else (true, { button with pressPending := false })

/-- `Button::takeHold`. -/
def takeHold (button : Button) (ms nowMs : UInt32) : Bool × Button :=
  if button.stableDown = false ∨ button.holdConsumed = true then (false, button)
  else if nowMs - button.pressedAtMs < ms then (false, button)
  else (true, { button with holdConsumed := true })

/-! ## Runs -/

inductive Call where
  | begin (level : Bool)
  | poll (level : Bool)
  | takePress
  | takeHold (ms : UInt32)
  deriving DecidableEq, Repr

/-- A call and the time it is made at, in milliseconds. -/
structure Action where
  call : Call
  time : Nat

/-- A call's answer, false for those without one, and what it leaves. -/
def perform (button : Button) (nowMs : UInt32) : Call → Bool × Button
  | .begin level => (false, button.begin level nowMs)
  | .poll level => (false, button.poll level nowMs)
  | .takePress => button.takePress
  | .takeHold ms => button.takeHold ms nowMs

/-- A call that was made, its answer, and the debounced state around it. -/
structure Record where
  call : Call
  time : Nat
  answer : Bool
  wasDown : Bool
  isDown : Bool

/-- A button with its history, newest first. -/
structure Watched where
  button : Button
  since : Nat
  now : Nat
  history : List Record

namespace Watched

/-- The button once a call was made. -/
def after (watched : Watched) (action : Action) : Watched :=
  let (answer, button) := watched.button.perform (tick action.time) action.call
  { watched with
    button := button
    now := action.time
    history :=
      ⟨action.call, action.time, answer, watched.button.stableDown, button.stableDown⟩ ::
        watched.history }

/-- Time does not go back, and a run is shorter than the range of the clock. -/
def step (watched : Watched) (action : Action) : Option Watched :=
  if watched.now ≤ action.time ∧ action.time < watched.since + 2 ^ 32 then
    some (watched.after action)
  else none

/-- A run may begin at any time. -/
def machine : Machine Watched Action where
  start := fun watched =>
    watched.button = initial ∧ watched.now = watched.since ∧ watched.history = []
  step := step

end Watched

/-! ## What a history says -/

namespace Record

/-- A `begin` or a `poll` of at least `ms` before `time` that left the button down. -/
def DownBy (ms time : Nat) (record : Record) : Prop :=
  (∃ level, record.call = .begin level ∨ record.call = .poll level) ∧
    record.time + ms ≤ time ∧ record.isDown = true

/-- A hold that was answered. -/
def Held (record : Record) : Prop := (∃ ms, record.call = .takeHold ms) ∧ record.answer = true

/-- A `poll` that found a press. -/
def Pressed (record : Record) : Prop :=
  (∃ level, record.call = .poll level) ∧ record.wasDown = false ∧ record.isDown = true

/-- A press that was taken. -/
def Took (record : Record) : Prop := record.call = .takePress ∧ record.answer = true

def Down (record : Record) : Prop := record.isDown = true

theorem not_held {record : Record} (h : record.answer = false) : ¬ record.Held := by
  rintro ⟨_, hanswer⟩
  rw [h] at hanswer
  cases hanswer

theorem not_took {record : Record} (h : record.answer = false) : ¬ record.Took := by
  rintro ⟨_, hanswer⟩
  rw [h] at hanswer
  cases hanswer

end Record

/-- A hold taken at any time from now on is a real one and the first of its stretch; a
press is taken exactly when there was one since the last. -/
structure Watched.Honest (watched : Watched) : Prop where
  held : ∀ (ms : UInt32) (time : Nat), watched.now ≤ time → time < watched.since + 2 ^ 32 →
    (watched.button.takeHold ms (tick time)).1 = true →
      Since (Record.DownBy ms.toNat time) Record.Down watched.history ∧
        ¬ Since Record.Held Record.Down watched.history
  pressed : watched.button.takePress.1 = true ↔
    Since Record.Pressed (fun record => ¬ record.Took) watched.history

/-- `begin` does not find a button down that was up, unless no hold can come of it or the
press time left behind is this very one. -/
def Watched.BeginIsSound (watched : Watched) (action : Action) : Prop :=
  match action.call with
  | .begin level =>
      level = true ∨ watched.button.stableDown = true ∨ watched.button.holdConsumed = true ∨
        watched.button.pressedAtMs = tick action.time
  | _ => True

instance (watched : Watched) (action : Action) : Decidable (watched.BeginIsSound action) :=
  match action with
  | ⟨.begin level, time⟩ =>
      inferInstanceAs (Decidable (level = true ∨ watched.button.stableDown = true ∨
        watched.button.holdConsumed = true ∨ watched.button.pressedAtMs = tick time))
  | ⟨.poll _, _⟩ => isTrue trivial
  | ⟨.takePress, _⟩ => isTrue trivial
  | ⟨.takeHold _, _⟩ => isTrue trivial

/-! ## What a call does -/

/-- The fields that holds and presses depend on. -/
def flags (button : Button) : Bool × UInt32 × Bool × Bool :=
  (button.stableDown, button.pressedAtMs, button.pressPending, button.holdConsumed)

/-- A poll finds no change, a press or a release. -/
theorem poll_cases (button : Button) (level : Bool) (nowMs : UInt32) :
    (button.poll level nowMs).flags = button.flags ∨
      (button.stableDown = false ∧ (button.poll level nowMs).flags = (true, nowMs, true, false)) ∨
      (button.stableDown = true ∧ (button.poll level nowMs).flags =
        (false, button.pressedAtMs, button.pressPending, button.holdConsumed)) := by
  rw [poll]
  split
  · exact .inl rfl
  · split
    · exact .inl rfl
    · simp only
      split
      · exact .inl rfl
      · rename_i hchange
        split
        · rename_i hdown
          refine .inr (.inl ⟨?_, rfl⟩)
          rw [hdown] at hchange
          simpa using hchange
        · rename_i hup
          refine .inr (.inr ⟨?_, rfl⟩)
          rw [Bool.not_eq_true] at hup
          rw [hup] at hchange
          simpa using hchange

theorem takePress_fst (button : Button) : button.takePress.1 = button.pressPending := by
  rw [takePress]
  split
  · rename_i hnone
    exact hnone.symm
  · rename_i hpending
    simpa using hpending

theorem takePress_flags (button : Button) : button.takePress.2.flags =
    (button.stableDown, button.pressedAtMs, false, button.holdConsumed) := by
  rw [takePress]
  split
  · rename_i hnone
    rw [flags, hnone]
  · rfl

/-- A hold is answered when the button is down, not yet consumed and old enough. -/
theorem takeHold_fst {button : Button} {ms nowMs : UInt32} :
    (button.takeHold ms nowMs).1 = true ↔ button.stableDown = true ∧
      button.holdConsumed = false ∧ ms ≤ nowMs - button.pressedAtMs := by
  rw [takeHold]
  split
  · rename_i hnever
    simp only [Bool.false_eq_true, false_iff, not_and]
    intro hdown hfree
    simp [hdown, hfree] at hnever
  · rename_i hready
    simp only [not_or, Bool.not_eq_false, Bool.not_eq_true] at hready
    split
    · rename_i hyoung
      simp [UInt32.not_le.mpr hyoung]
    · rename_i hold
      simp [hready, UInt32.not_lt.mp hold]

theorem takeHold_flags (button : Button) (ms nowMs : UInt32) :
    (button.takeHold ms nowMs).2.flags = (button.stableDown, button.pressedAtMs,
      button.pressPending, button.holdConsumed || (button.takeHold ms nowMs).1) := by
  rw [takeHold]
  split
  · simp [flags]
  · split
    · simp [flags]
    · simp [flags]

/-! ## The invariant -/

/-- The `begin` or `poll` that the press time belongs to. -/
def Record.Opens (pressedAtMs : UInt32) (record : Record) : Prop :=
  (∃ level, record.call = .begin level ∨ record.call = .poll level) ∧
    tick record.time = pressedAtMs ∧ record.isDown = true

/-- What the flags say about the history.  While a hold can still be taken the press time is that
of a call since which the button was down. -/
structure Watched.Inv (watched : Watched) : Prop where
  span : watched.since ≤ watched.now ∧ watched.now < watched.since + 2 ^ 32
  times : ∀ record ∈ watched.history, watched.since ≤ record.time ∧ record.time ≤ watched.now
  latest : (watched.history.head?.map Record.isDown).getD false = watched.button.stableDown
  stretch : watched.button.stableDown = true → watched.button.holdConsumed = false →
    Since (Record.Opens watched.button.pressedAtMs) Record.Down watched.history
  first : watched.button.stableDown = false ∨ watched.button.holdConsumed = false →
    ¬ Since Record.Held Record.Down watched.history
  pressed : watched.button.pressPending = true ↔
    Since Record.Pressed (fun record => ¬ record.Took) watched.history

theorem Watched.Inv.honest {watched : Watched} (h : watched.Inv) : watched.Honest := by
  constructor
  · intro ms time hnow htime hheld
    obtain ⟨hdown, hfree, hold⟩ := takeHold_fst.mp hheld
    refine ⟨(h.stretch hdown hfree).mono fun record hmem hopens => ?_, h.first (.inr hfree)⟩
    obtain ⟨hcall, hpressed, hisDown⟩ := hopens
    obtain ⟨hlow, hhigh⟩ := h.times record hmem
    refine ⟨hcall, ?_, hisDown⟩
    rw [← hpressed, UInt32.le_iff_toNat_le, tick_sub_toNat_of_le (by omega),
      Nat.mod_eq_of_lt (by omega)] at hold
    omega
  · rw [takePress_fst]
    exact h.pressed

/-- One more record: times and the latest state take care of themselves. -/
theorem Watched.Inv.cons {watched : Watched} (h : watched.Inv) {time : Nat}
    (htime : watched.now ≤ time ∧ time < watched.since + 2 ^ 32) {button : Button}
    {record : Record} (hrecord : record.time = time) (hdown : record.isDown = button.stableDown)
    (hstretch : button.stableDown = true → button.holdConsumed = false →
      Since (Record.Opens button.pressedAtMs) Record.Down (record :: watched.history))
    (hfirst : button.stableDown = false ∨ button.holdConsumed = false →
      ¬ Since Record.Held Record.Down (record :: watched.history))
    (hpressed : button.pressPending = true ↔
      Since Record.Pressed (fun record => ¬ record.Took) (record :: watched.history)) :
    Watched.Inv ⟨button, watched.since, time, record :: watched.history⟩ where
  span := ⟨Nat.le_trans h.span.1 htime.1, htime.2⟩
  times := by
    have hlow := h.span.1
    refine List.forall_mem_cons.mpr ⟨by dsimp only; omega, fun other hother => ?_⟩
    obtain ⟨hstart, hnow⟩ := h.times other hother
    exact ⟨hstart, Nat.le_trans hnow htime.1⟩
  latest := hdown
  stretch := hstretch
  first := hfirst
  pressed := hpressed

/-- A call that leaves the flags alone and is neither a press nor an answer. -/
theorem Watched.Inv.quiet {watched : Watched} (h : watched.Inv) {time : Nat}
    (htime : watched.now ≤ time ∧ time < watched.since + 2 ^ 32) {button : Button} (call : Call)
    (hflags : button.flags = watched.button.flags) :
    Watched.Inv ⟨button, watched.since, time,
      ⟨call, time, false, watched.button.stableDown, button.stableDown⟩ :: watched.history⟩ := by
  simp only [flags, Prod.mk.injEq] at hflags
  obtain ⟨hdown, hpressedAt, hpending, hconsumed⟩ := hflags
  refine h.cons htime rfl rfl ?_ ?_ ?_
  · intro hisDown hfree
    rw [since_cons, hpressedAt]
    exact .inr ⟨hisDown, h.stretch (hdown ▸ hisDown) (hconsumed ▸ hfree)⟩
  · intro hready
    rw [hdown, hconsumed] at hready
    rw [since_cons]
    rintro (hheld | ⟨_, hbefore⟩)
    · exact Record.not_held rfl hheld
    · exact h.first hready hbefore
  · rw [hpending, h.pressed]
    refine (since_cons_iff ?_ ?_).symm
    · rintro ⟨_, hwas, his⟩
      have hwas' : watched.button.stableDown = false := hwas
      rw [hdown, hwas'] at his
      cases his
    · exact Record.not_took rfl

/-- The button comes up. -/
theorem Watched.Inv.release {watched : Watched} (h : watched.Inv) {time : Nat}
    (htime : watched.now ≤ time ∧ time < watched.since + 2 ^ 32) {button : Button} {call : Call}
    (hflags : button.flags = (false, watched.button.pressedAtMs, watched.button.pressPending,
      watched.button.holdConsumed)) :
    Watched.Inv ⟨button, watched.since, time,
      ⟨call, time, false, watched.button.stableDown, button.stableDown⟩ :: watched.history⟩ := by
  simp only [flags, Prod.mk.injEq] at hflags
  obtain ⟨hup, _, hpending, _⟩ := hflags
  refine h.cons htime rfl rfl ?_ ?_ ?_
  · intro hisDown
    rw [hup] at hisDown
    cases hisDown
  · intro _
    rw [since_cons]
    rintro (hheld | ⟨hisDown, _⟩)
    · exact Record.not_held rfl hheld
    · rw [Record.Down, hup] at hisDown
      cases hisDown
  · rw [hpending, h.pressed]
    refine (since_cons_iff ?_ ?_).symm
    · rintro ⟨_, _, his⟩
      rw [hup] at his
      cases his
    · exact Record.not_took rfl

/-- `begin` finds the button down. -/
theorem Watched.Inv.begin_down {watched : Watched} (h : watched.Inv) {time : Nat}
    (htime : watched.now ≤ time ∧ time < watched.since + 2 ^ 32)
    (hsound : watched.BeginIsSound ⟨.begin false, time⟩) :
    Watched.Inv ⟨watched.button.begin false (tick time), watched.since, time,
      ⟨.begin false, time, false, watched.button.stableDown, true⟩ :: watched.history⟩ := by
  refine h.cons htime rfl rfl ?_ ?_ ?_
  · intro _ hfree
    rw [since_cons]
    rcases hsound with hlevel | hdown | hconsumed | hpressedAt
    · cases hlevel
    · exact .inr ⟨rfl, h.stretch hdown hfree⟩
    · change watched.button.holdConsumed = false at hfree
      rw [hconsumed] at hfree
      cases hfree
    · exact .inl ⟨⟨false, .inl rfl⟩, hpressedAt.symm, rfl⟩
  · intro hready
    have hfree : watched.button.holdConsumed = false := by
      rcases hready with hup | hfree
      · cases hup
      · exact hfree
    rw [since_cons]
    rintro (hheld | ⟨_, hbefore⟩)
    · exact Record.not_held rfl hheld
    · exact h.first (.inr hfree) hbefore
  · refine Iff.trans h.pressed (since_cons_iff ?_ ?_).symm
    · rintro ⟨⟨_, hpoll⟩, _⟩
      cases hpoll
    · exact Record.not_took rfl

/-- `poll` finds a press. -/
theorem Watched.Inv.press {watched : Watched} (h : watched.Inv) {time : Nat}
    (htime : watched.now ≤ time ∧ time < watched.since + 2 ^ 32) {button : Button} {level : Bool}
    (hup : watched.button.stableDown = false)
    (hflags : button.flags = (true, tick time, true, false)) :
    Watched.Inv ⟨button, watched.since, time,
      ⟨.poll level, time, false, watched.button.stableDown, button.stableDown⟩ ::
        watched.history⟩ := by
  simp only [flags, Prod.mk.injEq] at hflags
  obtain ⟨hdown, hpressedAt, hpending, _⟩ := hflags
  refine h.cons htime rfl rfl ?_ ?_ ?_
  · intro _ _
    rw [since_cons]
    exact .inl ⟨⟨level, .inr rfl⟩, hpressedAt.symm, hdown⟩
  · intro _
    rw [since_cons]
    rintro (hheld | ⟨_, hbefore⟩)
    · exact Record.not_held rfl hheld
    · exact h.first (.inl hup) hbefore
  · rw [hpending, since_cons]
    exact iff_of_true rfl (.inl ⟨⟨level, rfl⟩, hup, hdown⟩)

/-- `takePress` was answered. -/
theorem Watched.Inv.took {watched : Watched} (h : watched.Inv) {time : Nat}
    (htime : watched.now ≤ time ∧ time < watched.since + 2 ^ 32) {button : Button}
    (hflags : button.flags = (watched.button.stableDown, watched.button.pressedAtMs, false,
      watched.button.holdConsumed)) :
    Watched.Inv ⟨button, watched.since, time,
      ⟨.takePress, time, true, watched.button.stableDown, button.stableDown⟩ ::
        watched.history⟩ := by
  simp only [flags, Prod.mk.injEq] at hflags
  obtain ⟨hdown, hpressedAt, hpending, hconsumed⟩ := hflags
  refine h.cons htime rfl rfl ?_ ?_ ?_
  · intro hisDown hfree
    rw [since_cons, hpressedAt]
    exact .inr ⟨hisDown, h.stretch (hdown ▸ hisDown) (hconsumed ▸ hfree)⟩
  · intro hready
    rw [hdown, hconsumed] at hready
    rw [since_cons]
    rintro (⟨⟨_, hcall⟩, _⟩ | ⟨_, hbefore⟩)
    · cases hcall
    · exact h.first hready hbefore
  · rw [hpending, since_cons]
    refine iff_of_false Bool.false_ne_true ?_
    rintro (⟨⟨_, hcall⟩, _⟩ | ⟨hkept, _⟩)
    · cases hcall
    · exact hkept ⟨rfl, rfl⟩

/-- `takeHold` was answered. -/
theorem Watched.Inv.held {watched : Watched} (h : watched.Inv) {time : Nat}
    (htime : watched.now ≤ time ∧ time < watched.since + 2 ^ 32) {button : Button} (ms : UInt32)
    (hdown : watched.button.stableDown = true)
    (hflags : button.flags = (watched.button.stableDown, watched.button.pressedAtMs,
      watched.button.pressPending, true)) :
    Watched.Inv ⟨button, watched.since, time,
      ⟨.takeHold ms, time, true, watched.button.stableDown, button.stableDown⟩ ::
        watched.history⟩ := by
  simp only [flags, Prod.mk.injEq] at hflags
  obtain ⟨hstill, _, hpending, hconsumed⟩ := hflags
  refine h.cons htime rfl rfl ?_ ?_ ?_
  · intro _ hfree
    rw [hconsumed] at hfree
    cases hfree
  · rintro (hup | hfree)
    · rw [hstill, hdown] at hup
      cases hup
    · rw [hconsumed] at hfree
      cases hfree
  · rw [hpending, h.pressed]
    refine (since_cons_iff ?_ ?_).symm
    · rintro ⟨⟨_, hcall⟩, _⟩
      cases hcall
    · rintro ⟨hcall, _⟩
      cases hcall

/-- A sound call keeps the invariant. -/
theorem Watched.Inv.after {watched : Watched} (h : watched.Inv) {action : Action}
    (htime : watched.now ≤ action.time ∧ action.time < watched.since + 2 ^ 32)
    (hsound : watched.BeginIsSound action) : (watched.after action).Inv := by
  obtain ⟨call, time⟩ := action
  cases call with
  | begin level =>
      cases level with
      | false => exact h.begin_down htime hsound
      | true => exact h.release htime rfl
  | poll level =>
      rcases poll_cases watched.button level (tick time) with hsame | ⟨hup, hpress⟩ | ⟨_, hrelease⟩
      · exact h.quiet htime _ hsame
      · exact h.press htime hup hpress
      · exact h.release htime hrelease
  | takePress =>
      have hflags := watched.button.takePress_flags
      have hanswer := watched.button.takePress_fst
      cases hpending : watched.button.pressPending with
      | false =>
          rw [hpending] at hanswer
          have hsame : watched.button.takePress.2.flags = watched.button.flags := by
            rw [hflags, flags, hpending]
          have hquiet := h.quiet htime .takePress hsame
          rw [← hanswer] at hquiet
          exact hquiet
      | true =>
          have htook := h.took htime hflags
          rw [hpending] at hanswer
          rw [← hanswer] at htook
          exact htook
  | takeHold ms =>
      have hflags := watched.button.takeHold_flags ms (tick time)
      cases hanswer : (watched.button.takeHold ms (tick time)).1 with
      | false =>
          rw [hanswer, Bool.or_false] at hflags
          have hquiet := h.quiet htime (.takeHold ms) hflags
          rw [← hanswer] at hquiet
          exact hquiet
      | true =>
          rw [hanswer, Bool.or_true] at hflags
          have hheld := h.held htime ms (takeHold_fst.mp hanswer).1 hflags
          rw [← hanswer] at hheld
          exact hheld

theorem Watched.step_eq_some_iff {watched next : Watched} {action : Action} :
    watched.step action = some next ↔
      (watched.now ≤ action.time ∧ action.time < watched.since + 2 ^ 32) ∧
        watched.after action = next := by
  rw [step]
  split
  · rename_i htime
    rw [Option.some.injEq]
    exact (and_iff_right htime).symm
  · rename_i htime
    exact iff_of_false (by simp) fun h => htime h.1

/-- An unsound `begin` starts a stretch that an old press time belongs to: one
millisecond of it is there to be taken at once. -/
theorem Watched.Inv.not_honest {watched next : Watched} {action : Action} (h : watched.Inv)
    (hbad : ¬ watched.BeginIsSound action) (hstep : watched.step action = some next) :
    ¬ next.Honest := by
  obtain ⟨call, time⟩ := action
  obtain ⟨htime, rfl⟩ := step_eq_some_iff.mp hstep
  cases call with
  | poll => exact absurd trivial hbad
  | takePress => exact absurd trivial hbad
  | takeHold => exact absurd trivial hbad
  | begin level =>
      simp only [BeginIsSound, not_or] at hbad
      obtain ⟨hlevel, hup, hfree, hstale⟩ := hbad
      rw [Bool.not_eq_true] at hlevel hup hfree
      subst hlevel
      intro hhonest
      have hfires :
          ((watched.after ⟨.begin false, time⟩).button.takeHold 1 (tick time)).1 = true := by
        refine takeHold_fst.mpr ⟨rfl, hfree, ?_⟩
        change 1 ≤ tick time - watched.button.pressedAtMs
        rw [UInt32.le_iff_toNat_le]
        refine Nat.one_le_iff_ne_zero.mpr fun hzero => hstale ?_
        have hdiff : tick time - watched.button.pressedAtMs = 0 := UInt32.toNat_inj.mp hzero
        rw [← UInt32.sub_add_cancel (tick time) watched.button.pressedAtMs, hdiff, UInt32.zero_add]
      obtain ⟨hsince, _⟩ := hhonest.held 1 time (Nat.le_refl time) htime.2 hfires
      change Since _ _ (_ :: watched.history) at hsince
      rw [since_cons] at hsince
      rcases hsince with ⟨_, hold, _⟩ | ⟨_, hbefore⟩
      · have hone : (1 : UInt32).toNat = 1 := rfl
        simp only [hone] at hold
        omega
      · -- The button was up in front of this call, so nothing held since before it.
        have hlatest := h.latest
        rw [hup] at hlatest
        cases hhistory : watched.history with
        | nil =>
            rw [hhistory] at hbefore
            exact not_since_nil hbefore
        | cons newest rest =>
            rw [hhistory] at hbefore hlatest
            rw [since_cons] at hbefore
            have hnewest : newest.isDown = false := hlatest
            rcases hbefore with ⟨_, _, hdown⟩ | ⟨hdown, _⟩
            · rw [hnewest] at hdown
              cases hdown
            · rw [Record.Down, hnewest] at hdown
              cases hdown

theorem Watched.inv_of_start {watched : Watched} (h : machine.start watched) : watched.Inv := by
  obtain ⟨hbutton, hnow, hhistory⟩ := h
  constructor
  · omega
  · rw [hhistory]
    simp
  · rw [hhistory, hbutton]
    rfl
  · rw [hbutton]
    intro hdown
    cases hdown
  · rw [hhistory]
    exact fun _ => not_since_nil
  · rw [hbutton, hhistory]
    exact iff_of_false Bool.false_ne_true not_since_nil

/-- Whatever is called in a run, what can be taken in the states it passes is real
exactly when every `begin` in it is sound, that is unless one finds the pin low while an old
press time would pass for a hold. -/
theorem holds_real_iff {start final : Watched} {actions : List Action}
    (hstart : Watched.machine.start start)
    (hexec : Watched.machine.exec start actions = some final) :
    Watched.machine.Throughout Watched.Honest start actions ↔
      Watched.machine.Guarded Watched.BeginIsSound start actions := by
  refine Watched.machine.throughout_iff_guarded ?_
    (fun _ _ _ (hInv : Watched.Inv _) hbad hstep => hInv.not_honest hbad hstep)
    (fun _ hInv => hInv.honest) actions start final (Watched.inv_of_start hstart) hexec
  intro watched action next hInv hsound hstep
  obtain ⟨htime, rfl⟩ := Watched.step_eq_some_iff.mp hstep
  exact hInv.after htime hsound

/-- A button that is up at power-up, with time at `since`. -/
def Watched.boot (since : Nat) : Watched := ⟨initial, since, since, []⟩

/-- Begun while up, pressed, held for five seconds. -/
def realHold : List Action :=
  [⟨.begin true, 10000⟩, ⟨.poll false, 10010⟩, ⟨.poll false, 10040⟩, ⟨.takeHold 5000, 15040⟩]

theorem holds_real_iff_realHold :
    Watched.machine.Throughout Watched.Honest (Watched.boot 10000) realHold :=
  (@holds_real_iff _ _ _ ⟨rfl, rfl, rfl⟩ rfl).mpr (by decide)

/-- Begun with the button down, ten seconds after power-up: a five-second hold is there
at once. -/
theorem hold_at_boot :
    Watched.machine.start (Watched.boot 10000) ∧ ∃ final,
      Watched.machine.exec (Watched.boot 10000) [⟨.begin false, 10000⟩] = some final ∧
        (final.button.takeHold 5000 (tick 10000)).1 = true ∧
        ¬ Since (Record.DownBy 5000 10000) Record.Down final.history := by
  refine ⟨⟨rfl, rfl, rfl⟩, _, rfl, by decide, ?_⟩
  change ¬ Since _ _ [_]
  rw [since_cons]
  rintro (⟨_, hold, _⟩ | ⟨_, hbefore⟩)
  · simp only at hold
    omega
  · exact not_since_nil hbefore

end Button

end MatrixFaces.Board
