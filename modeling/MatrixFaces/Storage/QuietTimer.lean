import MatrixFaces.Foundation.Clock32

set_option autoImplicit false

/-!
# The quiet timer (`src/storage/quiet_timer.h`)

One word: zero is clean, anything else the instant a write becomes due.

`mark` sets the instant, past zero if it would be zero, and `due` compares it with the clock by
the sign of the difference (`Foundation.Clock32`).
-/

namespace MatrixFaces.Storage

open MatrixFaces.Foundation

/-- `QuietTimer`. -/
structure QuietTimer where
  quietMs : UInt32
  dueAtMs : UInt32
  deriving DecidableEq, Repr

namespace QuietTimer

/-- `QuietTimer::mark`. -/
def mark (timer : QuietTimer) (nowMs : UInt32) : QuietTimer :=
  let dueAt := nowMs + timer.quietMs
  { timer with dueAtMs := if dueAt = 0 then 1 else dueAt }

/-- `QuietTimer::due`. -/
def due (timer : QuietTimer) (nowMs : UInt32) : Bool :=
  timer.dueAtMs != 0 && Clock32.atOrPast nowMs timer.dueAtMs

/-- `QuietTimer::pending`. -/
def pending (timer : QuietTimer) : Bool := timer.dueAtMs != 0

/-- `QuietTimer::clear`. -/
def clear (timer : QuietTimer) : QuietTimer := { timer with dueAtMs := 0 }

@[simp] theorem pending_mark (timer : QuietTimer) (nowMs : UInt32) :
    (timer.mark nowMs).pending = true := by
  rw [mark, pending]
  split
  · rfl
  · simpa using ‹_›

@[simp] theorem pending_clear (timer : QuietTimer) : timer.clear.pending = false := by
  simp [clear, pending]

theorem pending_of_due {timer : QuietTimer} {nowMs : UInt32} (h : timer.due nowMs = true) :
    timer.pending = true := by
  rw [due, Bool.and_eq_true] at h
  exact h.1

end QuietTimer

end MatrixFaces.Storage
