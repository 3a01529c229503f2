import MatrixFaces.Foundation.Bytes

set_option autoImplicit false

/-!
# Little-endian words

Words written a byte at a time, lowest byte first, and read back with shifts.

`readU32_writeU32` and `readU16_writeU16` are the round trips, whatever follows.  Words are taken
apart and put together with shifts, so no machine's order is assumed.
-/

namespace MatrixFaces.Foundation

def writeU32 (value : UInt32) : Bytes :=
  [value.toUInt8, (value >>> 8).toUInt8, (value >>> 16).toUInt8, (value >>> 24).toUInt8]

def writeU16 (value : UInt16) : Bytes := [value.toUInt8, (value >>> 8).toUInt8]

/-- The word at the front of `bytes`; 0 if they are fewer than four. -/
def readU32 : Bytes → UInt32
  | b₀ :: b₁ :: b₂ :: b₃ :: _ =>
      b₀.toUInt32 ||| (b₁.toUInt32 <<< 8) ||| (b₂.toUInt32 <<< 16) ||| (b₃.toUInt32 <<< 24)
  | _ => 0

/-- The word at the front of `bytes`; 0 if they are fewer than two. -/
def readU16 : Bytes → UInt16
  | b₀ :: b₁ :: _ => b₀.toUInt16 ||| (b₁.toUInt16 <<< 8)
  | _ => 0

@[simp] theorem length_writeU32 (value : UInt32) : (writeU32 value).length = 4 := rfl

@[simp] theorem length_writeU16 (value : UInt16) : (writeU16 value).length = 2 := rfl

theorem drop_writeU32 (value : UInt32) (rest : Bytes) : (writeU32 value ++ rest).drop 4 = rest :=
  rfl

theorem drop_writeU16 (value : UInt16) (rest : Bytes) : (writeU16 value ++ rest).drop 2 = rest :=
  rfl

@[simp] theorem readU32_writeU32 (value : UInt32) (rest : Bytes) :
    readU32 (writeU32 value ++ rest) = value := by
  change value.toUInt8.toUInt32 ||| ((value >>> 8).toUInt8.toUInt32 <<< 8) |||
    ((value >>> 16).toUInt8.toUInt32 <<< 16) ||| ((value >>> 24).toUInt8.toUInt32 <<< 24) = value
  rw [← UInt32.toBitVec_inj]
  refine BitVec.eq_of_getLsbD_eq fun i hi => ?_
  -- bit `i` of the octet that starts at bit `k`
  have hoctet : ∀ k, (decide (i < 32) && !decide (i < k) && (decide (i - k < 32) &&
      (decide (i - k < 8) && value.toBitVec.getLsbD (k + (i - k))))) =
      (decide (k ≤ i ∧ i < k + 8) && value.toBitVec.getLsbD i) := by
    intro k
    by_cases hk : k ≤ i
    · rw [Nat.add_sub_cancel' hk]
      by_cases hlt : i < k + 8
      · simp [hi, hk, hlt, show ¬ i < k by omega, show i - k < 32 by omega,
          show i - k < 8 by omega]
      · simp [hlt, show ¬ i - k < 8 by omega]
    · simp [hk, show i < k by omega]
  simp only [UInt32.toBitVec_or, UInt32.toBitVec_shiftLeft, UInt32.toBitVec_shiftRight,
    UInt8.toBitVec_toUInt32, UInt32.toBitVec_toUInt8, BitVec.getLsbD_or, BitVec.getLsbD_setWidth]
  simp [BitVec.getLsbD_shiftLeft, BitVec.getLsbD_setWidth, BitVec.getLsbD_ushiftRight, hoctet]
  grind

@[simp] theorem readU16_writeU16 (value : UInt16) (rest : Bytes) :
    readU16 (writeU16 value ++ rest) = value := by
  change value.toUInt8.toUInt16 ||| ((value >>> 8).toUInt8.toUInt16 <<< 8) = value
  rw [← UInt16.toBitVec_inj]
  refine BitVec.eq_of_getLsbD_eq fun i hi => ?_
  simp only [UInt16.toBitVec_or, UInt16.toBitVec_shiftLeft, UInt16.toBitVec_shiftRight,
    UInt8.toBitVec_toUInt16, UInt16.toBitVec_toUInt8, BitVec.getLsbD_or, BitVec.getLsbD_setWidth]
  simp [BitVec.getLsbD_shiftLeft, BitVec.getLsbD_setWidth, BitVec.getLsbD_ushiftRight]
  grind

/-- The bytes of a word that was read off them. -/
theorem writeU32_readU32 (b₀ b₁ b₂ b₃ : Byte) (rest : Bytes) :
    writeU32 (readU32 (b₀ :: b₁ :: b₂ :: b₃ :: rest)) = [b₀, b₁, b₂, b₃] := by
  have hword : readU32 (b₀ :: b₁ :: b₂ :: b₃ :: rest) =
      b₀.toUInt32 ||| (b₁.toUInt32 <<< 8) ||| (b₂.toUInt32 <<< 16) ||| (b₃.toUInt32 <<< 24) := rfl
  rw [writeU32, hword]
  simp only [List.cons.injEq, and_true]
  refine ⟨?_, ?_, ?_, ?_⟩
  all_goals
    rw [← UInt8.toBitVec_inj]
    refine BitVec.eq_of_getLsbD_eq fun i hi => ?_
    simp only [UInt32.toBitVec_or, UInt32.toBitVec_shiftLeft, UInt32.toBitVec_shiftRight,
      UInt8.toBitVec_toUInt32, UInt32.toBitVec_toUInt8, BitVec.getLsbD_or, BitVec.getLsbD_setWidth]
    simp [BitVec.getLsbD_shiftLeft, BitVec.getLsbD_setWidth, BitVec.getLsbD_ushiftRight]
    grind

end MatrixFaces.Foundation
