import MatrixFaces.Foundation.BitString

set_option autoImplicit false

/-!
# Base64

The encoding of RFC 4648, section 4: six bits a character, zero bits at the right of the
last group, and a pad character for each byte that the last three miss.

`encode` is defined over the groups of three bytes of any list; `encode_three`, `encode_two` and
`encode_one` are its quanta as arithmetic on bytes, in the form in which programs compute them.
-/

namespace MatrixFaces.Foundation.Base64

/-- `A` to `Z`, `a` to `z`, `0` to `9`, `+` and `/`. -/
def alphabet : Bytes :=
  (List.range 26).map (fun i => UInt8.ofNat (0x41 + i)) ++
    (List.range 26).map (fun i => UInt8.ofNat (0x61 + i)) ++
    (List.range 10).map (fun i => UInt8.ofNat (0x30 + i)) ++ ascii "+/"

def padding : Byte := 0x3D

/-- The character of a six-bit number. -/
def digit (value : Nat) : Byte := alphabet.getD value padding

/-- The zero bits behind the last byte. -/
def fill (length : Nat) : List Bool := List.replicate ((6 - length * 8 % 6) % 6) false

def encode (bytes : Bytes) : Bytes :=
  (groups 6 (bits bytes ++ fill bytes.length)).map (fun group => digit (bitsValue group)) ++
    List.replicate ((3 - bytes.length % 3) % 3) padding

/-! ## By quanta -/

/-- The characters of a number of so many groups. -/
def digits (count n : Nat) : Bytes :=
  (List.range count).map fun i => digit (n / 2 ^ ((count - 1 - i) * 6) % 64)

theorem digits_succ (count n : Nat) :
    digits (count + 1) n = digit (n / 2 ^ (count * 6) % 64) :: digits count n := by
  unfold digits
  rw [List.range_succ_eq_map, List.map_cons, List.map_map]
  refine congrArg₂ List.cons rfl (List.map_congr_left fun i _ => ?_)
  rw [Function.comp_apply, Nat.add_sub_cancel, Nat.succ_eq_add_one, Nat.sub_add_eq,
    Nat.sub_right_comm]

theorem map_groups_natBits (count n : Nat) (more : List Bool) :
    (groups 6 (natBits (count * 6) n ++ more)).map (fun group => digit (bitsValue group)) =
      digits count n ++ (groups 6 more).map fun group => digit (bitsValue group) := by
  induction count with
  | zero =>
      rw [Nat.zero_mul]
      rfl
  | succ count ih =>
      have hwidth : (count + 1) * 6 = 6 + count * 6 := by omega
      rw [hwidth, natBits_add, List.append_assoc, groups_block (by decide) (length_natBits 6 _),
        List.map_cons, ih, bitsValue_natBits, digits_succ]
      rfl

/-- Bytes and zeros that end with a group. -/
theorem map_groups_bits {bytes : Bytes} {k count : Nat} (h : bytes.length * 8 + k = count * 6)
    (more : List Bool) :
    (groups 6 (bits bytes ++ List.replicate k false ++ more)).map
        (fun group => digit (bitsValue group)) =
      digits count (bitsValue (bits bytes) * 2 ^ k) ++
        (groups 6 more).map fun group => digit (bitsValue group) := by
  have hbits : bits bytes ++ List.replicate k false =
      natBits (count * 6) (bitsValue (bits bytes) * 2 ^ k) := by
    rw [← h, natBits_shift, ← length_bits, natBits_bitsValue]
  rw [hbits, map_groups_natBits]

/-- Three bytes in front are four characters in front. -/
theorem encode_three (a b c : Byte) (rest : Bytes) :
    encode (a :: b :: c :: rest) = digits 4 (bitsValue (bits [a, b, c])) ++ encode rest := by
  have hbits : bits (a :: b :: c :: rest) =
      bits [a, b, c] ++ List.replicate 0 false ++ bits rest := by
    rw [List.replicate_zero, List.append_nil, ← bits_append]
    rfl
  have hfill : fill (a :: b :: c :: rest).length = fill rest.length := by
    unfold fill
    congr 1
    simp only [List.length_cons]
    omega
  have hpads : (3 - (a :: b :: c :: rest).length % 3) % 3 = (3 - rest.length % 3) % 3 := by
    simp only [List.length_cons]
    omega
  have hwhole : [a, b, c].length * 8 + 0 = 4 * 6 := rfl
  unfold encode
  rw [hbits, hfill, hpads, List.append_assoc, map_groups_bits hwhole, Nat.pow_zero,
    Nat.mul_one, List.append_assoc]

/-- Two bytes or one at the end, with the zeros that they need. -/
theorem encode_last {bytes : Bytes} {k count : Nat}
    (hfill : fill bytes.length = List.replicate k false)
    (h : bytes.length * 8 + k = count * 6) :
    encode bytes = digits count (bitsValue (bits bytes) * 2 ^ k) ++
      List.replicate ((3 - bytes.length % 3) % 3) padding := by
  have hgroups := map_groups_bits h []
  have hnil : groups 6 ([] : List Bool) = [] := rfl
  rw [List.append_nil, hnil, List.map_nil, List.append_nil] at hgroups
  rw [encode, hfill, hgroups]

theorem encode_one (a : Byte) :
    encode [a] = digits 2 (bitsValue (bits [a]) * 2 ^ 4) ++ [padding, padding] :=
  encode_last (by decide : fill 1 = List.replicate 4 false) rfl

theorem encode_two (a b : Byte) :
    encode [a, b] = digits 3 (bitsValue (bits [a, b]) * 2 ^ 2) ++ [padding] :=
  encode_last (by decide : fill 2 = List.replicate 2 false) rfl

@[simp] theorem length_digits (count n : Nat) : (digits count n).length = count := by
  simp [digits]

/-- Four characters for every three bytes that were begun. -/
theorem length_encode : ∀ bytes : Bytes, (encode bytes).length = (bytes.length + 2) / 3 * 4
  | [] => rfl
  | [a] => by
      rw [encode_one, List.length_append, length_digits]
      simp
  | [a, b] => by
      rw [encode_two, List.length_append, length_digits]
      simp
  | a :: b :: c :: rest => by
      rw [encode_three, List.length_append, length_digits, length_encode rest]
      simp only [List.length_cons]
      omega

end MatrixFaces.Foundation.Base64
