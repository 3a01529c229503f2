import Mathlib.Data.List.Basic

set_option autoImplicit false

/-!
# Reading frames off a growing buffer

A reader looks at the front of a buffer and either waits for more, takes a frame
off it, or stops for good.  If more bytes never change a verdict already given,
then what is read depends on the bytes and not on how they arrived:
`drain_append` is that fact.
-/

namespace MatrixFaces.Foundation

/-- What a reader makes of the front of a buffer. -/
inductive Verdict (Effect : Type) where
  | wait
  | stop (effect : Effect)
  | frame (effect : Effect) (length : Nat)
  deriving DecidableEq

/-- A reader whose verdicts stand when the buffer grows. -/
structure Framing (α Effect : Type) where
  read : List α → Verdict Effect
  frame_length : ∀ {data effect length}, read data = .frame effect length →
    0 < length ∧ length ≤ data.length
  frame_append : ∀ {data effect length} (more), read data = .frame effect length →
    read (data ++ more) = .frame effect length
  stop_append : ∀ {data effect} (more), read data = .stop effect →
    read (data ++ more) = .stop effect

namespace Framing

variable {α Effect : Type} (framing : Framing α Effect)

/-- The loop with a bound on its turns. -/
def drainTurns : Nat → List α → List Effect × Option (List α)
  | 0, data => ([], some data)
  | turns + 1, data =>
      match framing.read data with
      | .wait => ([], some data)
      | .stop effect => ([effect], none)
      | .frame effect length =>
          let rest := drainTurns turns (data.drop length)
          (effect :: rest.1, rest.2)

/-- Take frames until the reader waits, with the bytes left over, or stops. -/
def drain (data : List α) : List Effect × Option (List α) :=
  framing.drainTurns (data.length + 1) data

/-- Every turn shortens the buffer, so its length bounds the turns. -/
theorem drainTurns_of_le : ∀ (turns more : Nat) (data : List α), data.length < turns →
    framing.drainTurns (turns + more) data = framing.drainTurns turns data := by
  intro turns
  induction turns with
  | zero => intro more data h; omega
  | succ turns ih =>
      intro more data h
      rw [Nat.succ_add, drainTurns, drainTurns]
      cases hread : framing.read data with
      | wait => rfl
      | stop effect => rfl
      | frame effect length =>
          have hlength := framing.frame_length hread
          simp only
          rw [ih more (data.drop length) (by rw [List.length_drop]; omega)]

theorem drainTurns_eq_drain {turns : Nat} {data : List α} (h : data.length < turns) :
    framing.drainTurns turns data = framing.drain data := by
  obtain ⟨more, rfl⟩ : ∃ more, turns = data.length + 1 + more :=
    ⟨turns - (data.length + 1), by omega⟩
  exact framing.drainTurns_of_le _ _ _ (Nat.lt_succ_self _)

theorem drain_of_wait {data : List α} (h : framing.read data = .wait) :
    framing.drain data = ([], some data) := by
  rw [drain, drainTurns, h]

theorem drain_of_stop {data : List α} {effect : Effect} (h : framing.read data = .stop effect) :
    framing.drain data = ([effect], none) := by
  rw [drain, drainTurns, h]

theorem drain_of_frame {data : List α} {effect : Effect} {length : Nat}
    (h : framing.read data = .frame effect length) :
    framing.drain data =
      (effect :: (framing.drain (data.drop length)).1, (framing.drain (data.drop length)).2) := by
  have hlength := framing.frame_length h
  rw [drain, drainTurns, h]
  simp only
  rw [framing.drainTurns_eq_drain (by rw [List.length_drop]; omega)]

/-- Induction on the frames at the front of a buffer. -/
theorem drain_induction {P : List α → Prop}
    (hwait : ∀ data, framing.read data = .wait → P data)
    (hstop : ∀ data effect, framing.read data = .stop effect → P data)
    (hframe : ∀ data effect length, framing.read data = .frame effect length →
      P (data.drop length) → P data) (data : List α) : P data := by
  induction hsize : data.length using Nat.strongRecOn generalizing data with
  | ind size ih =>
      cases hread : framing.read data with
      | wait => exact hwait data hread
      | stop effect => exact hstop data effect hread
      | frame effect length =>
          have hlength := framing.frame_length hread
          refine hframe data effect length hread ?_
          exact ih (data.drop length).length (by rw [List.length_drop]; omega) _ rfl

/-- The bytes left over when the reader waits are still waited on. -/
theorem read_rest {data rest : List α} (h : (framing.drain data).2 = some rest) :
    framing.read rest = .wait := by
  induction data using framing.drain_induction with
  | hwait data hread =>
      rw [framing.drain_of_wait hread] at h
      cases h
      exact hread
  | hstop data effect hread =>
      rw [framing.drain_of_stop hread] at h
      cases h
  | hframe data effect length hread ih =>
      rw [framing.drain_of_frame hread] at h
      exact ih h

/-- What is left over is the end of the buffer. -/
theorem drain_suffix {data rest : List α} (h : (framing.drain data).2 = some rest) :
    rest <:+ data := by
  induction data using framing.drain_induction with
  | hwait data hread =>
      rw [framing.drain_of_wait hread] at h
      cases h
      exact List.suffix_rfl
  | hstop data effect hread =>
      rw [framing.drain_of_stop hread] at h
      cases h
  | hframe data effect length hread ih =>
      rw [framing.drain_of_frame hread] at h
      exact (ih h).trans (List.drop_suffix length data)

/-- Reading a buffer in two parts is reading it in one. -/
theorem drain_append (data more : List α) :
    framing.drain (data ++ more) =
      match framing.drain data with
      | (effects, none) => (effects, none)
      | (effects, some rest) =>
          (effects ++ (framing.drain (rest ++ more)).1, (framing.drain (rest ++ more)).2) := by
  induction data using framing.drain_induction with
  | hwait data hread => rw [framing.drain_of_wait hread]; rfl
  | hstop data effect hread =>
      rw [framing.drain_of_stop hread, framing.drain_of_stop (framing.stop_append more hread)]
  | hframe data effect length hread ih =>
      have hlength := framing.frame_length hread
      rw [framing.drain_of_frame hread, framing.drain_of_frame (framing.frame_append more hread),
        List.drop_append_of_le_length hlength.2, ih]
      cases framing.drain (data.drop length) with
      | mk effects rest => cases rest <;> rfl

end Framing

end MatrixFaces.Foundation
