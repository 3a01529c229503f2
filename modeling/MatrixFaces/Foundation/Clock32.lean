import Mathlib.Algebra.Group.Nat.Defs
import Mathlib.Data.List.Basic

set_option autoImplicit false

/-!
# A free-running 32-bit counter

A counter read as `t mod 2^32` at real time `t`, and the comparison of two
readings by the sign of their difference.  The comparison is right as long as
the two instants are less than half the counter's range apart, and wrong again
in every other half after that; both facts are stated exactly.
-/

namespace MatrixFaces.Foundation.Clock32

/-- The reading at real time `t`. -/
def tick (t : Nat) : UInt32 := UInt32.ofNat t

/-- `now` is at or past `mark`, judged by the sign of the wrapped difference. -/
def atOrPast (now mark : UInt32) : Bool := decide (0 ≤ (now - mark).toInt32.toInt)

@[simp] theorem tick_toNat (t : Nat) : (tick t).toNat = t % 2 ^ 32 := by
  simp [tick]

theorem tick_add (t d : Nat) : tick (t + d) = tick t + UInt32.ofNat d := by
  simp [tick, UInt32.ofNat_add]

theorem tick_eq_zero_iff (t : Nat) : tick t = 0 ↔ t % 2 ^ 32 = 0 := by
  rw [← UInt32.toNat_inj, tick_toNat]
  rfl

theorem atOrPast_iff (now mark : UInt32) :
    atOrPast now mark = true ↔ (now - mark).toNat < 2 ^ 31 := by
  have hsigned : (now - mark).toInt32.toInt = (now - mark).toBitVec.toInt := rfl
  have hlt := (now - mark).toBitVec.isLt
  rw [atOrPast, decide_eq_true_iff, hsigned, BitVec.toInt_eq_toNat_cond]
  simp only [UInt32.toNat_toBitVec] at *
  split <;> omega

theorem tick_sub_toNat (t d : Nat) :
    (tick t - tick d).toNat = (2 ^ 32 - d % 2 ^ 32 + t % 2 ^ 32) % 2 ^ 32 := by
  rw [UInt32.toNat_sub, tick_toNat, tick_toNat]

theorem tick_sub_toNat_of_le {d t : Nat} (h : d ≤ t) :
    (tick t - tick d).toNat = (t - d) % 2 ^ 32 := by
  rw [tick_sub_toNat]
  omega

/-- Less than half a range after the mark the signed difference is the time that passed. -/
theorem signed_tick_sub {d t : Nat} (h : d ≤ t) (hnear : t < d + 2 ^ 31) :
    (tick t - tick d).toInt32.toInt = ((t - d : Nat) : Int) := by
  have hsigned : (tick t - tick d).toInt32.toInt = (tick t - tick d).toBitVec.toInt := rfl
  have hpassed := tick_sub_toNat_of_le h
  rw [hsigned, BitVec.toInt_eq_toNat_cond, UInt32.toNat_toBitVec, hpassed]
  split <;> omega

/-- After the mark the comparison holds in every even half-range. -/
theorem atOrPast_tick_of_le {d t : Nat} (h : d ≤ t) :
    atOrPast (tick t) (tick d) = true ↔ (t - d) % 2 ^ 32 < 2 ^ 31 := by
  rw [atOrPast_iff, tick_sub_toNat_of_le h]

/-- Up to half a range before the mark the comparison fails, as it should. -/
theorem atOrPast_tick_of_lt {d t : Nat} (h : t < d) (hnear : d - t ≤ 2 ^ 31) :
    atOrPast (tick t) (tick d) = false := by
  rw [← Bool.not_eq_true, atOrPast_iff, tick_sub_toNat]
  omega

end MatrixFaces.Foundation.Clock32
