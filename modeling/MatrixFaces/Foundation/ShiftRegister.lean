import Mathlib.Data.List.GetD

set_option autoImplicit false

/-!
# Shift registers

A register that takes in one bit at a time and folds what falls out back in through
a polynomial.  Stepping is linear in exclusive or, and when the top bit of the
polynomial is set no state but zero goes to zero; so two inputs that differ only in a
stretch no longer than the register leave different states.
-/

namespace MatrixFaces.Foundation

/-- The polynomial of a register, lowest power in the highest bit. -/
structure ShiftRegister (w : Nat) where
  poly : BitVec w
  /-- What falls out is folded back in at the top. -/
  top : poly.getLsbD (w - 1) = true

/-- A word from its bits, lowest first. -/
def wordOfBits (w : Nat) : List Bool → BitVec w
  | [] => 0#w
  | bit :: rest => (BitVec.ofBool bit).setWidth w ^^^ (wordOfBits w rest <<< 1)

theorem getLsbD_wordOfBits (w : Nat) (bits : List Bool) (i : Nat) :
    (wordOfBits w bits).getLsbD i = (decide (i < w) && bits.getD i false) := by
  induction bits generalizing i with
  | nil => simp [wordOfBits]
  | cons bit rest ih =>
      rw [wordOfBits, BitVec.getLsbD_xor, BitVec.getLsbD_setWidth, BitVec.getLsbD_ofBool,
        BitVec.getLsbD_shiftLeft, ih]
      cases i with
      | zero => simp
      | succ i =>
          simp only [Nat.add_eq_zero_iff, Nat.one_ne_zero, and_false, decide_false, Bool.false_and,
            Bool.and_false, Bool.false_xor, Nat.not_lt.mpr (Nat.le_add_left 1 i), Bool.not_false,
            Bool.and_true, Nat.add_sub_cancel, List.getD_cons_succ]
          by_cases h : i + 1 < w
          · simp [h, Nat.lt_of_succ_lt h]
          · simp [h]

theorem wordOfBits_ne_zero {w : Nat} {bits : List Bool} (hlength : bits.length ≤ w)
    (h : true ∈ bits) : wordOfBits w bits ≠ 0#w := by
  intro hzero
  obtain ⟨i, hi, hbit⟩ := List.mem_iff_getElem.mp h
  have hword := congrArg (fun word : BitVec w => word.getLsbD i) hzero
  simp only [getLsbD_wordOfBits, BitVec.getLsbD_zero, List.getD_eq_getElem _ _ hi, hbit,
    Bool.and_true, decide_eq_false_iff_not] at hword
  omega

namespace ShiftRegister

variable {w : Nat} (register : ShiftRegister w)

/-- One place down, with the polynomial folded in when a bit falls out. -/
def shift (state : BitVec w) : BitVec w :=
  if state.getLsbD 0 then (state >>> 1) ^^^ register.poly else state >>> 1

def shifts : Nat → BitVec w → BitVec w
  | 0, state => state
  | n + 1, state => shifts n (register.shift state)

/-- One bit of input, met by the lowest bit of the state. -/
def feed (state : BitVec w) (bit : Bool) : BitVec w :=
  register.shift (state ^^^ (BitVec.ofBool bit).setWidth w)

theorem getLsbD_shift (state : BitVec w) (i : Nat) :
    (register.shift state).getLsbD i =
      (state.getLsbD (1 + i) ^^ (state.getLsbD 0 && register.poly.getLsbD i)) := by
  rw [shift]
  cases state.getLsbD 0 <;> simp

/-! ## Linearity -/

theorem shift_xor (a b : BitVec w) :
    register.shift (a ^^^ b) = register.shift a ^^^ register.shift b := by
  refine BitVec.eq_of_getLsbD_eq fun i _ => ?_
  simp only [BitVec.getLsbD_xor, getLsbD_shift]
  cases a.getLsbD 0 <;> cases b.getLsbD 0 <;> cases a.getLsbD (1 + i) <;>
    cases b.getLsbD (1 + i) <;> cases register.poly.getLsbD i <;> rfl

theorem shift_zero : register.shift 0#w = 0#w := by
  refine BitVec.eq_of_getLsbD_eq fun i _ => ?_
  simp [getLsbD_shift]

theorem shifts_xor (n : Nat) (a b : BitVec w) :
    register.shifts n (a ^^^ b) = register.shifts n a ^^^ register.shifts n b := by
  induction n generalizing a b with
  | zero => rfl
  | succ n ih => rw [shifts, shift_xor, ih, shifts, shifts]

theorem feed_xor (a b : BitVec w) (x y : Bool) :
    register.feed (a ^^^ b) (x ^^ y) = register.feed a x ^^^ register.feed b y := by
  have hbit : (BitVec.ofBool (x ^^ y)).setWidth w =
      (BitVec.ofBool x).setWidth w ^^^ (BitVec.ofBool y).setWidth w := by
    refine BitVec.eq_of_getLsbD_eq fun i hi => ?_
    simp only [BitVec.getLsbD_xor, BitVec.getLsbD_setWidth, BitVec.getLsbD_ofBool]
    cases x <;> cases y <;> simp
  rw [feed, feed, feed, ← shift_xor, hbit]
  congr 1
  ac_rfl

theorem foldl_feed_xor (a b : BitVec w) {xs ys : List Bool} (h : xs.length = ys.length) :
    (List.zipWith (· ^^ ·) xs ys).foldl register.feed (a ^^^ b) =
      xs.foldl register.feed a ^^^ ys.foldl register.feed b := by
  induction xs generalizing a b ys with
  | nil =>
      cases ys with
      | nil => rfl
      | cons y ys => cases h
  | cons x xs ih =>
      cases ys with
      | nil => cases h
      | cons y ys =>
          rw [List.zipWith_cons_cons, List.foldl_cons, feed_xor, ih _ _ (Nat.succ.inj h),
            List.foldl_cons, List.foldl_cons]

/-! ## Nothing but zero goes to zero -/

theorem shift_ne_zero {state : BitVec w} (h : state ≠ 0#w) : register.shift state ≠ 0#w := by
  intro hzero
  have hbit : ∀ i, (register.shift state).getLsbD i = false := by
    intro i
    rw [hzero, BitVec.getLsbD_zero]
  have hlow : state.getLsbD 0 = false := by
    -- a bit that fell out would be back at the top
    have htop := hbit (w - 1)
    rw [getLsbD_shift, register.top, BitVec.getLsbD_of_ge state (1 + (w - 1)) (by omega)] at htop
    simpa using htop
  refine h (BitVec.eq_of_getLsbD_eq fun i _ => ?_)
  cases i with
  | zero => rw [hlow, BitVec.getLsbD_zero]
  | succ i =>
      have hnext := hbit i
      rw [getLsbD_shift, hlow, Bool.false_and, Bool.xor_false, Nat.add_comm] at hnext
      rw [hnext, BitVec.getLsbD_zero]

theorem shifts_ne_zero (n : Nat) {state : BitVec w} (h : state ≠ 0#w) :
    register.shifts n state ≠ 0#w := by
  induction n generalizing state with
  | zero => exact h
  | succ n ih => exact ih (register.shift_ne_zero h)

theorem shifts_injective (n : Nat) {a b : BitVec w}
    (h : register.shifts n a = register.shifts n b) : a = b := by
  refine Classical.byContradiction fun hne => ?_
  have hawake : a ^^^ b ≠ 0#w := fun hzero => hne (BitVec.xor_eq_zero_iff.mp hzero)
  refine register.shifts_ne_zero n hawake ?_
  rw [shifts_xor, h, BitVec.xor_self]

/-! ## A word at a time -/

/-- A state that loses no set bit only moves down. -/
theorem shift_shiftLeft {state : BitVec w} (h : state.getLsbD (w - 1) = false) :
    register.shift (state <<< 1) = state := by
  refine BitVec.eq_of_getLsbD_eq fun i hi => ?_
  rw [getLsbD_shift, BitVec.getLsbD_shiftLeft, BitVec.getLsbD_shiftLeft]
  by_cases hlast : i = w - 1
  · rw [hlast, h]
    simp [show ¬ 1 + (w - 1) < w by omega]
  · simp [show 1 + i < w by omega]

/-- Feeding no more bits than the register holds adds them to the state and shifts. -/
theorem foldl_feed {bits : List Bool} (h : bits.length ≤ w) (state : BitVec w) :
    bits.foldl register.feed state =
      register.shifts bits.length (state ^^^ wordOfBits w bits) := by
  induction bits generalizing state with
  | nil => rw [wordOfBits, BitVec.xor_zero]; rfl
  | cons bit rest ih =>
      rw [List.length_cons] at h
      have htop : (wordOfBits w rest).getLsbD (w - 1) = false := by
        rw [getLsbD_wordOfBits, List.getD_eq_default _ _ (by omega), Bool.and_false]
      rw [List.foldl_cons, ih (Nat.le_of_succ_le h), feed, List.length_cons, shifts, wordOfBits,
        ← BitVec.xor_assoc, shift_xor _ _ (wordOfBits w rest <<< 1), register.shift_shiftLeft htop]

/-- A register at rest is left at rest by zeros. -/
theorem foldl_feed_replicate (n : Nat) :
    (List.replicate n false).foldl register.feed 0#w = 0#w := by
  induction n with
  | zero => rfl
  | succ n ih =>
      have hfeed : register.feed 0#w false = 0#w := by
        rw [feed]
        simpa using register.shift_zero
      rw [List.replicate_succ, List.foldl_cons, hfeed, ih]

/-- A burst no longer than the register leaves it awake, however many zeros surround it. -/
theorem foldl_feed_burst {burst : List Bool} (hlength : burst.length ≤ w) (h : true ∈ burst)
    (before after : Nat) :
    (List.replicate before false ++ burst ++ List.replicate after false).foldl register.feed 0#w ≠
      0#w := by
  have hawake : burst.foldl register.feed 0#w ≠ 0#w := by
    rw [register.foldl_feed hlength, BitVec.zero_xor]
    exact register.shifts_ne_zero _ (wordOfBits_ne_zero hlength h)
  have hzeros : ∀ (n : Nat) (state : BitVec w), state ≠ 0#w →
      (List.replicate n false).foldl register.feed state ≠ 0#w := by
    intro n
    induction n with
    | zero => exact fun _ h => h
    | succ n ih =>
        intro state hstate
        refine ih _ ?_
        rw [feed]
        exact register.shift_ne_zero (by simpa using hstate)
  rw [List.foldl_append, List.foldl_append, foldl_feed_replicate]
  exact hzeros after _ hawake

end ShiftRegister

end MatrixFaces.Foundation
