import Mathlib.Data.List.Basic
import MatrixFaces.Foundation.ShiftRegister
import MatrixFaces.Storage.RecordBlob

set_option autoImplicit false

/-!
# Bursts in a stored blob

The checksum is a shift register fed with the bits of the blob, lowest bit of each byte
first, and the checksum behind the data is 32 more of them.  A blob passes exactly when
all its bits leave the register in one fixed state (`checksum_iff`).

The main result is `parse_burst_ne_ok`: a stored blob whose bits are turned over anywhere
within 32 consecutive ones, at least one of them, is not accepted.  The burst may lie across
two bytes, across the data and the checksum, or in the checksum alone.

The register is linear, and no state but zero goes to zero (`Foundation.ShiftRegister`), so
two blobs that differ by such a burst leave it in two states.
-/

namespace MatrixFaces.Storage

open MatrixFaces.Foundation

/-- The register of `crc32`. -/
def crcRegister : ShiftRegister 32 where
  poly := 0xedb88320#32
  top := by decide

/-- The bits of a word of `n` bits, lowest first. -/
def wordBits {n : Nat} (word : BitVec n) : List Bool := (List.range n).map word.getLsbD

/-- The bits of a byte string, byte by byte, lowest bit first. -/
def bits (bytes : Bytes) : List Bool := bytes.flatMap fun byte => wordBits byte.toBitVec

@[simp] theorem length_wordBits {n : Nat} (word : BitVec n) : (wordBits word).length = n := by
  rw [wordBits, List.length_map, List.length_range]

@[simp] theorem bits_nil : bits [] = [] := rfl

theorem bits_cons (byte : Byte) (rest : Bytes) :
    bits (byte :: rest) = wordBits byte.toBitVec ++ bits rest := by
  rw [bits, List.flatMap_cons, bits]

theorem bits_append (front back : Bytes) : bits (front ++ back) = bits front ++ bits back :=
  List.flatMap_append

theorem length_bits (bytes : Bytes) : (bits bytes).length = 8 * bytes.length := by
  induction bytes with
  | nil => rfl
  | cons byte rest ih => rw [bits_cons, List.length_append, length_wordBits, ih, List.length_cons,
      Nat.mul_succ, Nat.add_comm]

theorem wordOfBits_wordBits {n w : Nat} (word : BitVec n) :
    wordOfBits w (wordBits word) = word.setWidth w := by
  refine BitVec.eq_of_getLsbD_eq fun i hi => ?_
  rw [getLsbD_wordOfBits, BitVec.getLsbD_setWidth, wordBits]
  by_cases hn : i < n
  · rw [List.getD_eq_getElem _ _ (by simpa using hn)]
    simp
  · rw [List.getD_eq_default _ _ (by simpa using hn), BitVec.getLsbD_of_ge word i (by omega)]

/-! ## The checksum as a register -/

/-- The branchless step of the source is one step of the register. -/
theorem crcStep_toBitVec (crc : UInt32) :
    ((crc >>> 1) ^^^ (0xedb88320 &&& ~~~((crc &&& 1) - 1))).toBitVec =
      crcRegister.shift crc.toBitVec := by
  have hlow : (crc &&& 1).toBitVec = (BitVec.ofBool (crc.toBitVec.getLsbD 0)).setWidth 32 := by
    rw [UInt32.toBitVec_and]
    exact BitVec.and_one_eq_setWidth_ofBool_getLsbD
  have hmask : (~~~((crc &&& 1) - 1)).toBitVec =
      if crc.toBitVec.getLsbD 0 then 0xffffffff#32 else 0#32 := by
    rw [UInt32.toBitVec_not, UInt32.toBitVec_sub, hlow]
    cases crc.toBitVec.getLsbD 0 <;> rfl
  rw [UInt32.toBitVec_xor, UInt32.toBitVec_and, hmask, ShiftRegister.shift]
  cases crc.toBitVec.getLsbD 0 with
  | true =>
      rw [if_pos rfl, if_pos rfl]
      congr 1
  | false =>
      rw [if_neg Bool.false_ne_true, if_neg Bool.false_ne_true, BitVec.and_zero, BitVec.xor_zero]
      simp

theorem crcByte_toBitVec (crc : UInt32) (byte : Byte) :
    (crcByte crc byte).toBitVec = (wordBits byte.toBitVec).foldl crcRegister.feed crc.toBitVec := by
  have hsteps : ∀ (n : Nat) (crc : UInt32),
      ((List.range n).foldl
        (fun (crc : UInt32) (_ : Nat) => (crc >>> 1) ^^^ (0xedb88320 &&& ~~~((crc &&& 1) - 1)))
        crc).toBitVec = crcRegister.shifts n crc.toBitVec := by
    intro n
    induction n with
    | zero => exact fun _ => rfl
    | succ n ih =>
        intro crc
        rw [List.range_succ_eq_map, List.foldl_cons, List.foldl_map, ih, crcStep_toBitVec,
          ShiftRegister.shifts]
  have hlength : (wordBits byte.toBitVec).length ≤ 32 := by
    rw [length_wordBits]
    decide
  rw [crcRegister.foldl_feed hlength, length_wordBits, wordOfBits_wordBits, crcByte]
  exact (hsteps 8 _).trans (by rw [UInt32.toBitVec_xor, UInt8.toBitVec_toUInt32])

theorem foldl_crcByte_toBitVec (data : Bytes) (crc : UInt32) :
    (data.foldl crcByte crc).toBitVec = (bits data).foldl crcRegister.feed crc.toBitVec := by
  induction data generalizing crc with
  | nil => rfl
  | cons byte rest ih =>
      rw [List.foldl_cons, ih, crcByte_toBitVec, bits_cons, List.foldl_append]

/-! ## Bits by their number -/

/-- Bit `i` of a byte string. -/
def bitAt (bytes : Bytes) (i : Nat) : Bool := (bytes.getD (i / 8) 0).toBitVec.getLsbD (i % 8)

theorem getD_bits (bytes : Bytes) (i : Nat) : (bits bytes).getD i false = bitAt bytes i := by
  induction bytes generalizing i with
  | nil => simp [bitAt]
  | cons byte rest ih =>
      rw [bits_cons, bitAt]
      by_cases hi : i < 8
      · rw [List.getD_append _ _ _ _ (by simpa using hi), wordBits,
          List.getD_eq_getElem _ _ (by simpa using hi), Nat.div_eq_of_lt hi, Nat.mod_eq_of_lt hi]
        simp
      · obtain ⟨j, rfl⟩ := Nat.exists_eq_add_of_le (Nat.not_lt.mp hi)
        rw [List.getD_append_right _ _ _ _ (by simp), length_wordBits, Nat.add_sub_cancel_left, ih,
          bitAt, Nat.add_div_left _ (by decide), Nat.add_mod_left, List.getD_cons_succ]

/-- The bits of a little-endian word, read back. -/
theorem wordOfBits_word (b₀ b₁ b₂ b₃ : Byte) :
    wordOfBits 32 (bits [b₀, b₁, b₂, b₃]) = (readU32 [b₀, b₁, b₂, b₃]).toBitVec := by
  refine BitVec.eq_of_getLsbD_eq fun i hi => ?_
  rw [getLsbD_wordOfBits, getD_bits, bitAt, readU32]
  simp only [UInt32.toBitVec_or, UInt32.toBitVec_shiftLeft, UInt8.toBitVec_toUInt32,
    BitVec.getLsbD_or, BitVec.getLsbD_setWidth]
  obtain ⟨q, r, hr, rfl⟩ : ∃ q r, r < 8 ∧ i = 8 * q + r :=
    ⟨i / 8, i % 8, Nat.mod_lt _ (by decide), (Nat.div_add_mod i 8).symm⟩
  have hq : q = 0 ∨ q = 1 ∨ q = 2 ∨ q = 3 := by omega
  rw [Nat.mul_add_div (by decide), Nat.div_eq_of_lt hr, Nat.mul_add_mod, Nat.mod_eq_of_lt hr]
  -- the other octets have no bit there
  have hzero : ∀ (b : Byte) (k : Nat), 8 ≤ k → b.toBitVec.getLsbD k = false :=
    fun b k hk => BitVec.getLsbD_of_ge b.toBitVec k hk
  rcases hq with rfl | rfl | rfl | rfl
  · simp [show r < 32 by omega, show r < 24 by omega, show r < 16 by omega, hr]
  · simp [show 8 + r < 32 by omega, show 8 + r < 24 by omega, show 8 + r < 16 by omega]
  · simp [show 16 + r < 32 by omega, show 16 + r < 24 by omega, show ¬ 16 + r < 16 by omega,
      show 16 + r - 8 = 8 + r by omega, hzero b₀ (16 + r) (by omega)]
  · simp [show 24 + r < 32 by omega, show ¬ 24 + r < 24 by omega, show ¬ 24 + r < 8 by omega,
      show 24 + r - 8 = 16 + r by omega, show 24 + r - 16 = 8 + r by omega,
      hzero b₀ (24 + r) (by omega), hzero b₁ (16 + r) (by omega)]

/-- What the register holds after a blob that passes. -/
def residue : BitVec 32 := crcRegister.shifts 32 (BitVec.allOnes 32)

/-- The state of the register after a byte string. -/
def register (bytes : Bytes) : BitVec 32 := (bits bytes).foldl crcRegister.feed (BitVec.allOnes 32)

/-- A word behind the data is its checksum exactly when the register ends in the residue. -/
theorem checksum_iff (data : Bytes) (b₀ b₁ b₂ b₃ : Byte) :
    readU32 [b₀, b₁, b₂, b₃] = crc32 data ↔ register (data ++ [b₀, b₁, b₂, b₃]) = residue := by
  have hlength : (bits [b₀, b₁, b₂, b₃]).length = 32 := length_bits _
  have hstate : register (data ++ [b₀, b₁, b₂, b₃]) =
      crcRegister.shifts 32 (register data ^^^ (readU32 [b₀, b₁, b₂, b₃]).toBitVec) := by
    rw [register, bits_append, List.foldl_append, crcRegister.foldl_feed hlength.le, hlength,
      wordOfBits_word]
    rfl
  have hcrc : (crc32 data).toBitVec = ~~~register data := by
    rw [crc32, UInt32.toBitVec_not, foldl_crcByte_toBitVec]
    rfl
  have hinverse : BitVec.allOnes 32 = register data ^^^ ~~~register data := by
    refine BitVec.eq_of_getLsbD_eq fun i hi => ?_
    rw [BitVec.getLsbD_allOnes, BitVec.getLsbD_xor, BitVec.getLsbD_not]
    simp [hi]
  rw [hstate, residue, ← UInt32.toBitVec_inj, hcrc]
  constructor
  · intro h
    rw [h, ← hinverse]
  · intro h
    have hword := crcRegister.shifts_injective 32 h
    rw [hinverse] at hword
    exact (BitVec.xor_right_inj _).mp hword

/-- A blob without a byte too many that is read leaves the residue. -/
theorem register_of_parse {bytes : Bytes} {magic : UInt32} {version : UInt16}
    {recordSize maxRecords : Nat} {read : UInt16 × Bytes}
    (hlength : bytes.length ≤ framedSize recordSize maxRecords)
    (h : parse bytes magic version recordSize maxRecords = .ok read) :
    register bytes = residue := by
  rw [parse] at h
  simp only at h
  split at h
  · cases h
  rename_i hlong
  split at h
  · cases h
  split at h
  · cases h
  split at h
  · cases h
  rename_i hcrc
  have htail : (bytes.drop (framedSize recordSize maxRecords - 4)).length = 4 := by
    rw [List.length_drop]
    simp only [framedSize] at hlength hlong ⊢
    omega
  obtain ⟨b₀, b₁, b₂, b₃, hrest⟩ := List.length_eq_four.mp htail
  rw [hrest, not_not, checksum_iff, ← hrest, List.take_append_drop] at hcrc
  exact hcrc

/-! ## Errors -/

theorem wordBits_xor {n : Nat} (a b : BitVec n) :
    wordBits (a ^^^ b) = List.zipWith (· ^^ ·) (wordBits a) (wordBits b) := by
  rw [wordBits, wordBits, wordBits, List.zipWith_map, List.zipWith_self]
  exact List.map_congr_left fun i _ => BitVec.getLsbD_xor

theorem bits_zipWith {bytes error : Bytes} (h : error.length = bytes.length) :
    bits (List.zipWith (· ^^^ ·) bytes error) =
      List.zipWith (· ^^ ·) (bits bytes) (bits error) := by
  induction bytes generalizing error with
  | nil => rfl
  | cons byte rest ih =>
      cases error with
      | nil => cases h
      | cons flip flips =>
          rw [List.zipWith_cons_cons, bits_cons, ih (Nat.succ.inj h), UInt8.toBitVec_xor,
            wordBits_xor, bits_cons, bits_cons, List.zipWith_append (by simp)]

/-- A list of bits that is set nowhere outside a stretch. -/
theorem eq_burst {error : List Bool} {start n : Nat}
    (h : ∀ i, error.getD i false = true → start ≤ i ∧ i < start + n) :
    error = List.replicate (error.take start).length false ++ (error.drop start).take n ++
      List.replicate ((error.drop start).drop n).length false := by
  have hzeros : ∀ (part : List Bool), (∀ bit ∈ part, bit = false) →
      part = List.replicate part.length false := fun part hpart =>
    List.eq_replicate_iff.mpr ⟨rfl, hpart⟩
  have hfront : error.take start = List.replicate (error.take start).length false := by
    refine hzeros _ fun bit hbit => ?_
    obtain ⟨i, hi, rfl⟩ := List.mem_iff_getElem.mp hbit
    rw [List.length_take] at hi
    rw [List.getElem_take]
    refine Bool.eq_false_iff.mpr fun hset => ?_
    have := h i (by rw [List.getD_eq_getElem _ _ (by omega), hset])
    omega
  have hback : (error.drop start).drop n =
      List.replicate ((error.drop start).drop n).length false := by
    refine hzeros _ fun bit hbit => ?_
    obtain ⟨i, hi, rfl⟩ := List.mem_iff_getElem.mp hbit
    rw [List.length_drop, List.length_drop] at hi
    rw [List.getElem_drop, List.getElem_drop]
    refine Bool.eq_false_iff.mpr fun hset => ?_
    have := h (start + (n + i)) (by rw [List.getD_eq_getElem _ _ (by omega), hset])
    omega
  rw [← hfront, ← hback, List.append_assoc, List.take_append_drop, List.take_append_drop]

/-- What `serialize` wrote leaves the residue. -/
theorem register_of_serialize {outCap : Nat} {magic : UInt32} {version : UInt16} {records : Bytes}
    {recordSize maxRecords : Nat} {count : UInt16} {blob : Bytes}
    (h : serialize outCap magic version records recordSize maxRecords count = some blob) :
    register blob = residue ∧ blob.length ≤ framedSize recordSize maxRecords := by
  rw [serialize] at h
  split at h
  · cases h
  rename_i hfits
  cases h
  constructor
  · exact (checksum_iff _ _ _ _ _).mp (readU32_writeU32 _ [])
  · have hle : recordSize * count.toNat ≤ recordSize * maxRecords :=
      Nat.mul_le_mul_left recordSize (by omega)
    simp only [framed, framedSize, List.length_append, length_writeU32, length_writeU16,
      List.length_take, List.length_replicate]
    omega

/-- No burst of up to 32 bits in a stored blob goes unnoticed, wherever it begins: among the
data, in the checksum, or across both. -/
theorem parse_burst_ne_ok {outCap : Nat} {magic : UInt32} {version : UInt16} {records : Bytes}
    {recordSize maxRecords : Nat} {count : UInt16} {blob : Bytes}
    (hblob : serialize outCap magic version records recordSize maxRecords count = some blob)
    {error : Bytes} (hlength : error.length = blob.length) (hset : ∃ i, bitAt error i = true)
    {start : Nat} (hburst : ∀ i, bitAt error i = true → start ≤ i ∧ i < start + 32)
    (read : UInt16 × Bytes) :
    parse (List.zipWith (· ^^^ ·) blob error) magic version recordSize maxRecords ≠ .ok read := by
  intro hparse
  obtain ⟨hresidue, hshort⟩ := register_of_serialize hblob
  have hcorrupted : register (List.zipWith (· ^^^ ·) blob error) = residue := by
    refine register_of_parse ?_ hparse
    rw [List.length_zipWith, hlength, Nat.min_self]
    exact hshort
  -- the register is linear, so the error alone would have to leave it at rest
  have hbits : (bits blob).length = (bits error).length := by
    rw [length_bits, length_bits, hlength]
  have hlinear := crcRegister.foldl_feed_xor (BitVec.allOnes 32) 0#32 hbits
  rw [← bits_zipWith hlength, BitVec.xor_zero] at hlinear
  change register (List.zipWith (· ^^^ ·) blob error) = register blob ^^^ _ at hlinear
  have hrest : (bits error).foldl crcRegister.feed 0#32 = 0#32 := by
    have hsame : register blob ^^^ (bits error).foldl crcRegister.feed 0#32 =
        register blob ^^^ 0#32 := by
      rw [← hlinear, hcorrupted, hresidue, BitVec.xor_zero]
    exact (BitVec.xor_right_inj _).mp hsame
  have hsplit : bits error = _ := eq_burst fun i hi => hburst i (by rwa [← getD_bits])
  refine crcRegister.foldl_feed_burst (List.length_take_le 32 ((bits error).drop start)) ?_ _ _
    (hsplit ▸ hrest)
  obtain ⟨i, hi⟩ := hset
  have hmem : true ∈ bits error := by
    rw [← getD_bits] at hi
    have hlt : i < (bits error).length := by
      refine Nat.lt_of_not_le fun hle => ?_
      rw [List.getD_eq_default _ _ hle] at hi
      cases hi
    rw [List.getD_eq_getElem _ _ hlt] at hi
    exact hi ▸ List.getElem_mem hlt
  rw [hsplit, List.mem_append, List.mem_append, List.mem_replicate, List.mem_replicate] at hmem
  simpa using hmem

/-- The last bit of the records and the first of the checksum, flipped. -/
theorem parse_burst_ne_ok_boundary :
    ∃ blob, serialize 24 7 1 [1, 0, 0, 0, 2, 0, 0, 0] 4 3 2 = some blob ∧
      ∀ read, parse (List.zipWith (· ^^^ ·) blob (List.replicate 19 0 ++ [0x80, 1, 0, 0, 0]))
        7 1 4 3 ≠ .ok read := by
  have hblob : serialize 24 7 1 [1, 0, 0, 0, 2, 0, 0, 0] 4 3 2 = some _ :=
    serialize_of_fits (by decide) (by decide)
  have hstart : ∀ i, bitAt (List.replicate 19 0 ++ [0x80, 1, 0, 0, 0]) i = true →
      140 ≤ i ∧ i < 140 + 32 := by
    intro i hi
    have hflips : ∀ i < 192, bitAt (List.replicate 19 0 ++ [0x80, 1, 0, 0, 0]) i = true →
        140 ≤ i ∧ i < 140 + 32 := by decide +kernel
    refine hflips i (Nat.lt_of_not_le fun hle => ?_) hi
    rw [← getD_bits, List.getD_eq_default _ _ (by rw [length_bits]; exact hle)] at hi
    cases hi
  refine ⟨_, hblob, parse_burst_ne_ok hblob ?_ ⟨159, by decide⟩ hstart⟩
  rw [length_blob (by decide) (by decide)]
  rfl

end MatrixFaces.Storage
