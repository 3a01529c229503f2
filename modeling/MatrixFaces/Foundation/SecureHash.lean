import Mathlib.Data.Nat.NthRoot.Defs
import MatrixFaces.Foundation.BitString

set_option autoImplicit false

/-!
# The secure hash standard

SHA-1 and SHA-256 of bit strings as FIPS 180-4 defines them, and HMAC over any hash of
byte strings as RFC 2104 does.

The functions are those of the standard's own sections: padding, the message schedule with its
index, one round, and the digest as the words in a row.  `bits_pad` and `digest_bits` say what
they are for messages of whole bytes, which is where an implementation starts.
-/

namespace MatrixFaces.Foundation.SecureHash

/-! ## Preprocessing -/

/-- How many zeros follow the bit that marks the end of a message. -/
def zeros (length : Nat) : Nat := (959 - length % 512) % 512

/-- They are the fewest that leave 64 bits of the last block. -/
theorem zeros_least (length : Nat) :
    (length + 1 + zeros length) % 512 = 448 ∧
      ∀ k, (length + 1 + k) % 512 = 448 → zeros length ≤ k := by
  rw [zeros]
  constructor
  · omega
  · intro k hk
    omega

/-- The message, padded to whole blocks of 512 bits. -/
def pad (message : List Bool) : List Bool :=
  message ++ true :: List.replicate (zeros message.length) false ++ natBits 64 message.length

/-- The words of a block. -/
def word (block : List Bool) (t : Nat) : UInt32 :=
  UInt32.ofNat (bitsValue ((block.drop (t * 32)).take 32))

/-- The words at the end, after every block was taken in. -/
def digest {State : Type} (step : State → (Nat → UInt32) → State) (initial : State)
    (words : State → List UInt32) (message : List Bool) : List Bool :=
  (words ((groups 512 (pad message)).foldl (fun H block => step H (word block)) initial)).flatMap
    fun w => natBits 32 w.toNat

/-! ## Functions on words -/

def rotl (n x : UInt32) : UInt32 := (x <<< n) ||| (x >>> (32 - n))
def rotr (n x : UInt32) : UInt32 := (x >>> n) ||| (x <<< (32 - n))
def shr (n x : UInt32) : UInt32 := x >>> n

def ch (x y z : UInt32) : UInt32 := (x &&& y) ^^^ (~~~x &&& z)
def parity (x y z : UInt32) : UInt32 := x ^^^ y ^^^ z
def maj (x y z : UInt32) : UInt32 := (x &&& y) ^^^ (x &&& z) ^^^ (y &&& z)

/-- No bit comes from both sides. -/
theorem ch_eq_or (x y z : UInt32) : ch x y z = (x &&& y) ||| (~~~x &&& z) := by
  apply UInt32.toBitVec_inj.mp
  ext i hi
  simp only [ch, UInt32.toBitVec_xor, UInt32.toBitVec_or, UInt32.toBitVec_and,
    UInt32.toBitVec_not, BitVec.getElem_xor, BitVec.getElem_or, BitVec.getElem_and,
    BitVec.getElem_not]
  cases x.toBitVec[i] <;> simp

/-- A bit of all three is in every part. -/
theorem maj_eq_or (x y z : UInt32) : maj x y z = (x &&& y) ||| (x &&& z) ||| (y &&& z) := by
  apply UInt32.toBitVec_inj.mp
  ext i hi
  simp only [maj, UInt32.toBitVec_xor, UInt32.toBitVec_or, UInt32.toBitVec_and,
    BitVec.getElem_xor, BitVec.getElem_or, BitVec.getElem_and]
  cases x.toBitVec[i] <;> cases y.toBitVec[i] <;> simp

/-! ## SHA-1 -/

/-- Five words. -/
structure Words5 where
  a : UInt32
  b : UInt32
  c : UInt32
  d : UInt32
  e : UInt32
  deriving DecidableEq, Repr

namespace Sha1

def initial : Words5 := ⟨0x67452301, 0xefcdab89, 0x98badcfe, 0x10325476, 0xc3d2e1f0⟩

def f (t : Nat) : UInt32 → UInt32 → UInt32 → UInt32 :=
  if t < 20 then ch else if t < 40 then parity else if t < 60 then maj else parity

def K (t : Nat) : UInt32 :=
  if t < 20 then 0x5a827999 else if t < 40 then 0x6ed9eba1
  else if t < 60 then 0x8f1bbcdc else 0xca62c1d6

/-- The message schedule. -/
def W (M : Nat → UInt32) (t : Nat) : UInt32 :=
  if t < 16 then M t
  else rotl 1 (W M (t - 3) ^^^ W M (t - 8) ^^^ W M (t - 14) ^^^ W M (t - 16))

theorem W_of_lt {t : Nat} (h : t < 16) (M : Nat → UInt32) : W M t = M t := by
  rw [W, if_pos h]

theorem W_of_ge {t : Nat} (h : 16 ≤ t) (M : Nat → UInt32) :
    W M t = rotl 1 (W M (t - 3) ^^^ W M (t - 8) ^^^ W M (t - 14) ^^^ W M (t - 16)) := by
  rw [W, if_neg (Nat.not_lt.mpr h)]

/-- Only the words of the block count. -/
theorem W_congr {M M' : Nat → UInt32} (h : ∀ t, t < 16 → M t = M' t) (t : Nat) :
    W M t = W M' t := by
  induction t using Nat.strongRecOn with
  | _ t ih =>
      rcases Nat.lt_or_ge t 16 with hlt | hge
      · rw [W_of_lt hlt, W_of_lt hlt, h t hlt]
      · rw [W_of_ge hge, W_of_ge hge, ih _ (by omega), ih _ (by omega), ih _ (by omega),
          ih _ (by omega)]

def round (M : Nat → UInt32) (v : Words5) (t : Nat) : Words5 :=
  let T := rotl 5 v.a + f t v.b v.c v.d + v.e + K t + W M t
  ⟨T, v.a, rotl 30 v.b, v.c, v.d⟩

def step (H : Words5) (M : Nat → UInt32) : Words5 :=
  let v := (List.range 80).foldl (round M) H
  ⟨v.a + H.a, v.b + H.b, v.c + H.c, v.d + H.d, v.e + H.e⟩

theorem step_congr {M M' : Nat → UInt32} (h : ∀ t, t < 16 → M t = M' t) (H : Words5) :
    step H M = step H M' := by
  have hround : round M = round M' := by
    funext v t
    simp only [round, W_congr h]
  rw [step, hround, step]

def words (H : Words5) : List UInt32 := [H.a, H.b, H.c, H.d, H.e]

end Sha1

/-- SHA-1 of a bit string. -/
def sha1 : List Bool → List Bool := digest Sha1.step Sha1.initial Sha1.words

/-! ## SHA-256 -/

/-- Eight words. -/
structure Words8 where
  a : UInt32
  b : UInt32
  c : UInt32
  d : UInt32
  e : UInt32
  f : UInt32
  g : UInt32
  h : UInt32
  deriving DecidableEq, Repr

namespace Sha256

/-- The first 64 primes, by trial division. -/
def primes : List Nat :=
  (List.range 312).filter fun n =>
    2 ≤ n && (List.range 18).all fun d => d < 2 || n ≤ d || n % d != 0

/-- The first 32 bits of the fractional part of a root. -/
def rootBits (k n : Nat) : UInt32 := UInt32.ofNat (Nat.nthRoot k (n * 2 ^ (32 * k)))

/-- The fractions of the square roots of the first eight primes. -/
def initial : Words8 :=
  let H (i : Nat) := rootBits 2 (primes.getD i 0)
  ⟨H 0, H 1, H 2, H 3, H 4, H 5, H 6, H 7⟩

/-- The fractions of the cube roots. -/
def K (t : Nat) : UInt32 := rootBits 3 (primes.getD t 0)

def bigSigma0 (x : UInt32) : UInt32 := rotr 2 x ^^^ rotr 13 x ^^^ rotr 22 x
def bigSigma1 (x : UInt32) : UInt32 := rotr 6 x ^^^ rotr 11 x ^^^ rotr 25 x
def sigma0 (x : UInt32) : UInt32 := rotr 7 x ^^^ rotr 18 x ^^^ shr 3 x
def sigma1 (x : UInt32) : UInt32 := rotr 17 x ^^^ rotr 19 x ^^^ shr 10 x

/-- The message schedule. -/
def W (M : Nat → UInt32) (t : Nat) : UInt32 :=
  if t < 16 then M t
  else sigma1 (W M (t - 2)) + W M (t - 7) + sigma0 (W M (t - 15)) + W M (t - 16)

theorem W_of_lt {t : Nat} (h : t < 16) (M : Nat → UInt32) : W M t = M t := by
  rw [W, if_pos h]

theorem W_of_ge {t : Nat} (h : 16 ≤ t) (M : Nat → UInt32) :
    W M t = sigma1 (W M (t - 2)) + W M (t - 7) + sigma0 (W M (t - 15)) + W M (t - 16) := by
  rw [W, if_neg (Nat.not_lt.mpr h)]

/-- Only the words of the block count. -/
theorem W_congr {M M' : Nat → UInt32} (h : ∀ t, t < 16 → M t = M' t) (t : Nat) :
    W M t = W M' t := by
  induction t using Nat.strongRecOn with
  | _ t ih =>
      rcases Nat.lt_or_ge t 16 with hlt | hge
      · rw [W_of_lt hlt, W_of_lt hlt, h t hlt]
      · rw [W_of_ge hge, W_of_ge hge, ih _ (by omega), ih _ (by omega), ih _ (by omega),
          ih _ (by omega)]

def round (M : Nat → UInt32) (v : Words8) (t : Nat) : Words8 :=
  let T1 := v.h + bigSigma1 v.e + ch v.e v.f v.g + K t + W M t
  let T2 := bigSigma0 v.a + maj v.a v.b v.c
  ⟨T1 + T2, v.a, v.b, v.c, v.d + T1, v.e, v.f, v.g⟩

def step (H : Words8) (M : Nat → UInt32) : Words8 :=
  let v := (List.range 64).foldl (round M) H
  ⟨v.a + H.a, v.b + H.b, v.c + H.c, v.d + H.d, v.e + H.e, v.f + H.f, v.g + H.g, v.h + H.h⟩

theorem step_congr {M M' : Nat → UInt32} (h : ∀ t, t < 16 → M t = M' t) (H : Words8) :
    step H M = step H M' := by
  have hround : round M = round M' := by
    funext v t
    simp only [round, W_congr h]
  rw [step, hround, step]

def words (H : Words8) : List UInt32 := [H.a, H.b, H.c, H.d, H.e, H.f, H.g, H.h]

end Sha256

/-- SHA-256 of a bit string. -/
def sha256 : List Bool → List Bool := digest Sha256.step Sha256.initial Sha256.words

/-! ## HMAC -/

/-- HMAC over a hash `H` with blocks of `B` bytes. -/
def hmac (H : Bytes → Bytes) (B : Nat) (key text : Bytes) : Bytes :=
  let short := if B < key.length then H key else key
  let K := short ++ List.replicate (B - short.length) 0
  H (K.map (· ^^^ 0x5c) ++ H (K.map (· ^^^ 0x36) ++ text))

/-! ## Messages of whole bytes -/

/-- The zeros of a message of bytes are whole bytes behind the seven that end the marker. -/
theorem zeros_bytes (length : Nat) : zeros (length * 8) = 7 + (119 - length % 64) % 64 * 8 := by
  rw [zeros]
  omega

theorem bits_zeros (count : Nat) :
    bits (List.replicate count 0) = List.replicate (count * 8) false := by
  induction count with
  | zero => rfl
  | succ count ih =>
      rw [List.replicate_succ, bits, List.flatMap_cons, ← bits, ih, Nat.succ_mul, Nat.add_comm,
        List.replicate_add]
      rfl

/-- The padding of a message of bytes, as bytes. -/
theorem bits_pad (message lengthBytes : Bytes)
    (hlength : bits lengthBytes = natBits 64 (message.length * 8)) :
    bits (message ++ 0x80 :: List.replicate ((119 - message.length % 64) % 64) 0 ++ lengthBytes) =
      pad (bits message) := by
  have hmark : bits (0x80 :: List.replicate ((119 - message.length % 64) % 64) 0) =
      true :: List.replicate (zeros (message.length * 8)) false := by
    rw [bits, List.flatMap_cons, ← bits, bits_zeros, zeros_bytes, List.replicate_add]
    rfl
  rw [bits_append, bits_append, hmark, hlength, pad, length_bits]

/-- The words of a block of bytes are numbers of four bytes. -/
theorem word_bits (block : Bytes) (t : Nat) :
    word (bits block) t = UInt32.ofNat (bitsValue (bits ((block.drop (t * 4)).take 4))) := by
  have hdrop : (bits block).drop (t * 32) = bits (block.drop (t * 4)) := by
    rw [bits, bits, ← drop_flatMap length_byteBits, Nat.mul_assoc]
  have htake : (bits (block.drop (t * 4))).take 32 = bits ((block.drop (t * 4)).take 4) :=
    take_flatMap length_byteBits 4 _
  rw [word, hdrop, htake]

/-- A word of a block, put together from its bytes with shifts. -/
theorem word_block {block : Bytes} {t : Nat} (h : t * 4 + 4 ≤ block.length) :
    word (bits block) t =
      (block.getD (t * 4) 0).toUInt32 <<< 24 ||| (block.getD (t * 4 + 1) 0).toUInt32 <<< 16 |||
        (block.getD (t * 4 + 2) 0).toUInt32 <<< 8 ||| (block.getD (t * 4 + 3) 0).toUInt32 := by
  have hfour : (block.drop (t * 4)).take 4 =
      [block.getD (t * 4) 0, block.getD (t * 4 + 1) 0, block.getD (t * 4 + 2) 0,
        block.getD (t * 4 + 3) 0] := by
    have hget : ∀ i, i < block.length → block.drop i = block.getD i 0 :: block.drop (i + 1) := by
      intro i hi
      rw [List.drop_eq_getElem_cons hi, List.getD_eq_getElem?_getD, List.getElem?_eq_getElem hi]
      rfl
    rw [hget _ (by omega), hget _ (by omega), hget _ (by omega), hget _ (by omega)]
    rfl
  rw [word_bits, hfour, word_of_bytes]

/-- The digest of a message of bytes, from its padded bytes. -/
theorem digest_bits {State : Type} (step : State → (Nat → UInt32) → State) (initial : State)
    (words : State → List UInt32) (message : Bytes) {padded : Bytes}
    (h : bits padded = pad (bits message)) :
    digest step initial words (bits message) =
      (words (compressAll (fun H block => step H (word (bits block))) 64 initial padded)).flatMap
        fun w => natBits 32 w.toNat := by
  rw [digest, ← h, groups_bits 64, List.foldl_map, foldl_groups]

end MatrixFaces.Foundation.SecureHash
