import Mathlib.Tactic.Ring
import MatrixFaces.Foundation.BlockStream
import MatrixFaces.Foundation.Bytes

set_option autoImplicit false

/-!
# Bit strings

Numbers and bytes as strings of bits, most significant first, and strings cut into groups.

Standards speak of bits, programs of bytes and words.  `bits` and `bytesOf` go from one to the
other; `word_of_bytes`, `bits_word` and `groups_bits` are the bridge for words of 32 and 64
bits.
-/

namespace MatrixFaces.Foundation

/-! ## Groups -/

section

variable {α β : Type}

/-- The whole groups of a string, in order. -/
def groups (size : Nat) (items : List α) : List (List α) :=
  (List.range (items.length / size)).map fun k => (items.drop (k * size)).take size

/-- Compressing every block is folding over the groups. -/
theorem foldl_groups {State : Type} (compress : State → List α → State) (size : Nat)
    (state : State) (items : List α) :
    (groups size items).foldl compress state = compressAll compress size state items := by
  rw [compressAll, foldBlocks_eq_foldl, groups, List.foldl_map]

/-- A group in front is the first one. -/
theorem groups_block {size : Nat} (hsize : 0 < size) {block : List α} (h : block.length = size)
    (more : List α) : groups size (block ++ more) = block :: groups size more := by
  have hcount : (block ++ more).length / size = more.length / size + 1 := by
    rw [List.length_append, h, Nat.add_comm, Nat.add_div_right _ hsize]
  rw [groups, hcount, List.range_succ_eq_map, List.map_cons, List.map_map, Nat.zero_mul,
    List.drop_zero, List.take_left' h, groups]
  refine congrArg₂ List.cons rfl (List.map_congr_left fun k _ => ?_)
  rw [Function.comp_apply, Nat.succ_mul, Nat.add_comm, ← List.drop_drop, List.drop_left' h]

variable {f : α → List β} {n : Nat}

theorem length_flatMap_of_const (hf : ∀ a, (f a).length = n) (items : List α) :
    (items.flatMap f).length = items.length * n := by
  induction items with
  | nil => simp
  | cons a rest ih =>
      rw [List.flatMap_cons, List.length_append, hf, ih, List.length_cons, Nat.succ_mul,
        Nat.add_comm]

theorem drop_flatMap (hf : ∀ a, (f a).length = n) (k : Nat) (items : List α) :
    (items.flatMap f).drop (k * n) = (items.drop k).flatMap f := by
  induction k generalizing items with
  | zero => rw [Nat.zero_mul, List.drop_zero, List.drop_zero]
  | succ k ih =>
      cases items with
      | nil => simp
      | cons a rest =>
          rw [List.flatMap_cons, List.drop_succ_cons, ← ih, Nat.succ_mul, Nat.add_comm,
            ← List.drop_drop, List.drop_left' (hf a)]

theorem take_flatMap (hf : ∀ a, (f a).length = n) (k : Nat) (items : List α) :
    (items.flatMap f).take (k * n) = (items.take k).flatMap f := by
  induction k generalizing items with
  | zero => simp
  | succ k ih =>
      cases items with
      | nil => simp
      | cons a rest =>
          have hsum : (k + 1) * n = (f a).length + k * n := by
            rw [hf, Nat.succ_mul, Nat.add_comm]
          rw [List.flatMap_cons, List.take_succ_cons, List.flatMap_cons, ← ih, hsum,
            List.take_length_add_append]

/-- Groups of whole pieces are the pieces of groups. -/
theorem groups_flatMap (hf : ∀ a, (f a).length = n) (hn : 0 < n) (size : Nat) (items : List α) :
    groups (size * n) (items.flatMap f) = (groups size items).map fun group => group.flatMap f := by
  rw [groups, groups, length_flatMap_of_const hf, Nat.mul_div_mul_right _ _ hn, List.map_map]
  refine List.map_congr_left fun k _ => ?_
  rw [← Nat.mul_assoc, drop_flatMap hf, take_flatMap hf, Function.comp_apply]

theorem groups_flatMap_one (hf : ∀ a, (f a).length = n) (hn : 0 < n) (items : List α) :
    groups n (items.flatMap f) = items.map f := by
  have hgroups := groups_flatMap hf hn 1 items
  rw [Nat.one_mul] at hgroups
  rw [hgroups, groups, List.map_map]
  refine List.ext_getElem (by simp) fun k hleft hright => ?_
  have hk : k < items.length := by simpa using hright
  have hone : (items.drop k).take 1 = [items[k]] := by
    rw [List.drop_eq_getElem_cons hk, List.take_succ_cons, List.take_zero]
  simp [hone]

end

/-! ## Numbers -/

/-- The low bits of a number. -/
def natBits (width n : Nat) : List Bool := (List.range width).map fun i => n.testBit (width - 1 - i)

/-- The number that bits write. -/
def bitsValue (bits : List Bool) : Nat := bits.foldl (fun value bit => 2 * value + bit.toNat) 0

@[simp] theorem length_natBits (width n : Nat) : (natBits width n).length = width := by
  simp [natBits]

theorem natBits_succ (width n : Nat) :
    natBits (width + 1) n = n.testBit width :: natBits width n := by
  rw [natBits, List.range_succ_eq_map, List.map_cons, List.map_map, natBits]
  refine congrArg₂ List.cons rfl (List.map_congr_left fun i _ => ?_)
  rw [Function.comp_apply]
  congr 1
  omega

/-- The higher bits are those of the quotient. -/
theorem natBits_add (high low n : Nat) :
    natBits (high + low) n = natBits high (n / 2 ^ low) ++ natBits low n := by
  induction high with
  | zero => rw [Nat.zero_add]; rfl
  | succ high ih =>
      rw [Nat.add_right_comm, natBits_succ, natBits_succ, ih, Nat.testBit_div_two_pow,
        List.cons_append]

theorem natBits_mod {width k : Nat} (h : width ≤ k) (n : Nat) :
    natBits width (n % 2 ^ k) = natBits width n := by
  refine List.map_congr_left fun i hi => ?_
  have hlt : width - 1 - i < k := by
    have := List.mem_range.mp hi
    omega
  rw [Nat.testBit_mod_two_pow, decide_eq_true hlt, Bool.true_and]

theorem bitsValue_append (front back : List Bool) :
    bitsValue (front ++ back) = bitsValue front * 2 ^ back.length + bitsValue back := by
  induction back using List.reverseRecOn with
  | nil => simp [bitsValue]
  | append_singleton back bit ih =>
      have hlast : ∀ bits : List Bool,
          bitsValue (bits ++ [bit]) = 2 * bitsValue bits + bit.toNat := by
        intro bits
        rw [bitsValue, List.foldl_append]
        rfl
      rw [← List.append_assoc, hlast, hlast, ih, List.length_append, List.length_singleton,
        Nat.pow_succ]
      ring

theorem bitsValue_natBits (width n : Nat) : bitsValue (natBits width n) = n % 2 ^ width := by
  induction width with
  | zero => rw [Nat.pow_zero, Nat.mod_one]; rfl
  | succ width ih =>
      rw [natBits_succ, ← List.singleton_append, bitsValue_append, ih, length_natBits]
      have hbit : bitsValue [n.testBit width] = n / 2 ^ width % 2 := by
        rw [bitsValue, Nat.testBit_eq_decide_div_mod_eq]
        rcases Nat.mod_two_eq_zero_or_one (n / 2 ^ width) with hmod | hmod <;> simp [hmod]
      rw [hbit, Nat.pow_succ, Nat.mod_mul, Nat.add_comm, Nat.mul_comm]

theorem bitsValue_lt (bits : List Bool) : bitsValue bits < 2 ^ bits.length := by
  induction bits with
  | nil => decide
  | cons bit rest ih =>
      have hbit : bitsValue [bit] ≤ 1 := by
        cases bit <;> decide
      have hle := Nat.mul_le_mul_right (2 ^ rest.length) hbit
      rw [← List.singleton_append, bitsValue_append, List.length_append, List.length_singleton,
        Nat.pow_add]
      omega

/-- The bits of the number that they write. -/
theorem natBits_bitsValue (bits : List Bool) : natBits bits.length (bitsValue bits) = bits := by
  induction bits with
  | nil => rfl
  | cons bit rest ih =>
      have hbit : natBits 1 (bitsValue [bit]) = [bit] := by
        cases bit <;> rfl
      have hhigh : (bitsValue [bit] * 2 ^ rest.length + bitsValue rest) / 2 ^ rest.length =
          bitsValue [bit] := by
        rw [Nat.mul_comm, Nat.mul_add_div (Nat.two_pow_pos _),
          Nat.div_eq_of_lt (bitsValue_lt rest), Nat.add_zero]
      have hlow : (bitsValue [bit] * 2 ^ rest.length + bitsValue rest) % 2 ^ rest.length =
          bitsValue rest := by
        rw [Nat.mul_comm, Nat.mul_add_mod, Nat.mod_eq_of_lt (bitsValue_lt rest)]
      rw [← List.singleton_append, bitsValue_append, List.length_append, List.length_singleton,
        natBits_add, hhigh, hbit, ← natBits_mod (le_refl rest.length), hlow, ih]

/-- Zeros behind them. -/
theorem natBits_shift (width k n : Nat) :
    natBits (width + k) (n * 2 ^ k) = natBits width n ++ List.replicate k false := by
  have hzeros : natBits k 0 = List.replicate k false := by
    rw [natBits]
    simp [List.map_const']
  rw [natBits_add, Nat.mul_div_cancel _ (Nat.two_pow_pos k), ← natBits_mod (le_refl k),
    Nat.mul_mod_left, hzeros]

/-! ## Bytes -/

def byteBits (b : Byte) : List Bool := natBits 8 b.toNat

theorem length_byteBits (b : Byte) : (byteBits b).length = 8 := length_natBits 8 b.toNat

/-- The bits of bytes. -/
def bits (bytes : Bytes) : List Bool := bytes.flatMap byteBits

/-- The bytes that bits write, eight at a time. -/
def bytesOf (bits : List Bool) : Bytes :=
  (groups 8 bits).map fun octet => UInt8.ofNat (bitsValue octet)

theorem bits_append (front back : Bytes) : bits (front ++ back) = bits front ++ bits back :=
  List.flatMap_append

@[simp] theorem length_bits (bytes : Bytes) : (bits bytes).length = bytes.length * 8 :=
  length_flatMap_of_const length_byteBits bytes

theorem groups_bits (size : Nat) (bytes : Bytes) :
    groups (size * 8) (bits bytes) = (groups size bytes).map bits :=
  groups_flatMap length_byteBits (by decide) size bytes

@[simp] theorem bytesOf_bits (bytes : Bytes) : bytesOf (bits bytes) = bytes := by
  rw [bytesOf, bits, groups_flatMap_one length_byteBits (by decide),
    List.map_map]
  refine (List.map_congr_left fun b _ => ?_).trans (List.map_id bytes)
  rw [Function.comp_apply, byteBits, bitsValue_natBits, Nat.mod_eq_of_lt b.toNat_lt,
    UInt8.ofNat_toNat, id]

theorem bitsValue_bits_cons (b : Byte) (rest : Bytes) :
    bitsValue (bits (b :: rest)) = b.toNat * 2 ^ (rest.length * 8) + bitsValue (bits rest) := by
  rw [bits, List.flatMap_cons, ← bits, bitsValue_append, length_bits, byteBits, bitsValue_natBits,
    Nat.mod_eq_of_lt b.toNat_lt]

/-- A number written in whole bytes, most significant first. -/
theorem bits_range (count n : Nat) :
    bits ((List.range count).map fun i => UInt8.ofNat (n / 2 ^ ((count - 1 - i) * 8))) =
      natBits (count * 8) n := by
  induction count with
  | zero => rfl
  | succ count ih =>
      have hrest : (List.range count).map
          ((fun i => UInt8.ofNat (n / 2 ^ ((count + 1 - 1 - i) * 8))) ∘ Nat.succ) =
          (List.range count).map fun i => UInt8.ofNat (n / 2 ^ ((count - 1 - i) * 8)) := by
        refine List.map_congr_left fun i _ => ?_
        rw [Function.comp_apply, Nat.add_sub_cancel, Nat.succ_eq_add_one, Nat.sub_add_eq,
          Nat.sub_right_comm]
      have hfirst : byteBits (UInt8.ofNat (n / 2 ^ ((count + 1 - 1 - 0) * 8))) =
          natBits 8 (n / 2 ^ (count * 8)) := by
        rw [byteBits, UInt8.toNat_ofNat', natBits_mod (le_refl 8), Nat.add_sub_cancel, Nat.sub_zero]
      have hwidth : (count + 1) * 8 = 8 + count * 8 := by omega
      rw [List.range_succ_eq_map, List.map_cons, List.map_map, hrest, bits, List.flatMap_cons,
        ← bits, ih, hfirst, hwidth, natBits_add]

/-! ## Words -/

theorem toUInt8_shiftRight (w : UInt32) {k : Nat} (hk : k < 32) :
    (w >>> UInt32.ofNat k).toUInt8 = UInt8.ofNat (w.toNat / 2 ^ k) := by
  apply UInt8.toNat_inj.mp
  rw [UInt32.toNat_toUInt8, UInt32.toNat_shiftRight, UInt32.toNat_ofNat', UInt8.toNat_ofNat',
    Nat.mod_eq_of_lt (by omega : k < 2 ^ 32), Nat.mod_eq_of_lt hk, Nat.shiftRight_eq_div_pow]

theorem toUInt8_shiftRight64 (w : UInt64) {k : Nat} (hk : k < 64) :
    (w >>> UInt64.ofNat k).toUInt8 = UInt8.ofNat (w.toNat / 2 ^ k) := by
  apply UInt8.toNat_inj.mp
  rw [UInt64.toNat_toUInt8, UInt64.toNat_shiftRight, UInt64.toNat_ofNat', UInt8.toNat_ofNat',
    Nat.mod_eq_of_lt (by omega : k < 2 ^ 64), Nat.mod_eq_of_lt hk, Nat.shiftRight_eq_div_pow]

/-- A word written byte by byte, most significant first. -/
theorem bits_word (w : UInt32) :
    bits ((List.range 4).map fun i => (w >>> UInt32.ofNat (24 - i * 8)).toUInt8) =
      natBits 32 w.toNat := by
  rw [← bits_range 4 w.toNat]
  refine congrArg bits (List.map_congr_left fun i hi => ?_)
  have hlt := List.mem_range.mp hi
  have hshift : 24 - i * 8 = (4 - 1 - i) * 8 := by omega
  rw [hshift]
  exact toUInt8_shiftRight w (by omega)

theorem bits_word64 (w : UInt64) :
    bits ((List.range 8).map fun i => (w >>> UInt64.ofNat (56 - i * 8)).toUInt8) =
      natBits 64 w.toNat := by
  rw [← bits_range 8 w.toNat]
  refine congrArg bits (List.map_congr_left fun i hi => ?_)
  have hlt := List.mem_range.mp hi
  have hshift : 56 - i * 8 = (8 - 1 - i) * 8 := by omega
  rw [hshift]
  exact toUInt8_shiftRight64 w (by omega)

/-- The length field of a message of bytes. -/
theorem natBits_bitLength (n : Nat) :
    natBits 64 (UInt64.ofNat n * 8).toNat = natBits 64 (n * 8) := by
  have hvalue : (UInt64.ofNat n * 8).toNat = n * 8 % 2 ^ 64 := by
    rw [UInt64.toNat_mul, UInt64.toNat_ofNat', UInt64.toNat_ofNat, ← Nat.mul_mod]
  rw [hvalue]
  exact natBits_mod (le_refl 64) (n * 8)

/-- A byte shifted in front of a shorter word. -/
theorem toNat_shiftLeft_or (b : Byte) {k : Nat} (hk : k ≤ 24) {rest : UInt32}
    (hrest : rest.toNat < 2 ^ k) :
    (b.toUInt32 <<< UInt32.ofNat k ||| rest).toNat = b.toNat * 2 ^ k + rest.toNat := by
  have hb := b.toNat_lt
  have hpow : 2 ^ k ≤ 2 ^ 24 := Nat.pow_le_pow_right (by decide) hk
  have hlt : b.toNat * 2 ^ k < 2 ^ 32 := by
    calc b.toNat * 2 ^ k ≤ 255 * 2 ^ 24 := Nat.mul_le_mul (by omega) hpow
      _ < 2 ^ 32 := by decide
  rw [UInt32.toNat_or, UInt32.toNat_shiftLeft, UInt8.toNat_toUInt32, UInt32.toNat_ofNat',
    Nat.mod_eq_of_lt (by omega : k < 2 ^ 32), Nat.mod_eq_of_lt (by omega : k < 32),
    Nat.shiftLeft_eq, Nat.mod_eq_of_lt hlt, ← Nat.shiftLeft_eq,
    ← Nat.shiftLeft_add_eq_or_of_lt hrest, Nat.shiftLeft_eq]

/-- Four bytes put into a word with shifts. -/
theorem word_of_bytes (b₀ b₁ b₂ b₃ : Byte) :
    b₀.toUInt32 <<< 24 ||| b₁.toUInt32 <<< 16 ||| b₂.toUInt32 <<< 8 ||| b₃.toUInt32 =
      UInt32.ofNat (bitsValue (bits [b₀, b₁, b₂, b₃])) := by
  have h₀ := b₀.toNat_lt
  have h₁ := b₁.toNat_lt
  have h₂ := b₂.toNat_lt
  have h₃ := b₃.toNat_lt
  have hlow : b₃.toUInt32.toNat < 2 ^ 8 := by rw [UInt8.toNat_toUInt32]; exact h₃
  have hword₂ := toNat_shiftLeft_or b₂ (by decide : 8 ≤ 24) hlow
  have hword₁ := toNat_shiftLeft_or b₁ (by decide : 16 ≤ 24)
    (by rw [hword₂, UInt8.toNat_toUInt32]; omega :
      (b₂.toUInt32 <<< UInt32.ofNat 8 ||| b₃.toUInt32).toNat < 2 ^ 16)
  have hword₀ := toNat_shiftLeft_or b₀ (le_refl 24)
    (by rw [hword₁, hword₂, UInt8.toNat_toUInt32]; omega :
      (b₁.toUInt32 <<< UInt32.ofNat 16 |||
        (b₂.toUInt32 <<< UInt32.ofNat 8 ||| b₃.toUInt32)).toNat < 2 ^ 24)
  have hvalue : bitsValue (bits [b₀, b₁, b₂, b₃]) =
      b₀.toNat * 2 ^ 24 + (b₁.toNat * 2 ^ 16 + (b₂.toNat * 2 ^ 8 + b₃.toNat)) := by
    have hnil : bitsValue (bits []) = 0 := rfl
    simp only [bitsValue_bits_cons, List.length_cons, List.length_nil, hnil]
    norm_num
  apply UInt32.toNat_inj.mp
  rw [UInt32.or_assoc, UInt32.or_assoc, hvalue, UInt32.toNat_ofNat', Nat.mod_eq_of_lt (by omega)]
  rw [hword₁, hword₂, UInt8.toNat_toUInt32] at hword₀
  exact hword₀

end MatrixFaces.Foundation
