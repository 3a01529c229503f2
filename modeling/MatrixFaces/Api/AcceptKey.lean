import MatrixFaces.Api.Sha1
import MatrixFaces.Foundation.Base64

set_option autoImplicit false

/-!
# The handshake key (`src/api/websocket.cpp`)

What the server answers to a client's `Sec-WebSocket-Key`: the SHA-1 of the key and a fixed
GUID, in Base64.  `acceptKey` is the function of the source over the caller's buffer, with
the bytes behind the terminator; `base64Encode` is its own loop over groups of three bytes.

The standard's side is `handshakeKey`: the hash and the encoding of the library modules
`Foundation.SecureHash` and `Foundation.Base64`, which know nothing of the source.

The main result is `acceptKey_standard`, for every key up to its terminator and every buffer
with room for the answer and its NUL.  It goes through `Api.Sha1`, where the hash that takes
its bytes one by one is shown to be the standard one.
-/

namespace MatrixFaces.Api.Ws

open MatrixFaces.Foundation

def kBase64 : Bytes := ascii "ABCDEFGHIJKLMNOPQRSTUVWXYZabcdefghijklmnopqrstuvwxyz0123456789+/"

/-- The four characters that a turn of the loop makes of `in[i]` and the two bytes behind it. -/
def quad (input : Bytes) (i : Nat) : Bytes :=
  let a := (input.getD i 0).toUInt32
  let b := if i + 1 < input.length then (input.getD (i + 1) 0).toUInt32 else 0
  let c := if i + 2 < input.length then (input.getD (i + 2) 0).toUInt32 else 0
  let triple := (a <<< 16) ||| (b <<< 8) ||| c
  [kBase64.getD ((triple >>> 18) &&& 0x3F).toNat 0,
    kBase64.getD ((triple >>> 12) &&& 0x3F).toNat 0,
    if i + 1 < input.length then kBase64.getD ((triple >>> 6) &&& 0x3F).toNat 0 else 0x3D,
    if i + 2 < input.length then kBase64.getD (triple &&& 0x3F).toNat 0 else 0x3D]

/-- `out[o++] = c`. -/
def putChar (cursor : Nat × Bytes) (c : Byte) : Option (Nat × Bytes) :=
  (store cursor.2 cursor.1 c).map fun out => (cursor.1 + 1, out)

/-- `base64Encode`, and what `out` then holds; `none` is a write outside of it. -/
def base64Encode (input out : Bytes) (cap : Nat) : Option (Nat × Bytes) :=
  let needed := (input.length + 2) / 3 * 4
  if cap < needed + 1 then some (0, out)
  else do
    let (o, out) ← (List.range ((input.length + 2) / 3)).foldlM
      (fun cursor k => (quad input (3 * k)).foldlM putChar cursor) (0, out)
    let out ← store out o 0
    return (o, out)

def kGuid : Bytes := ascii "258EAFA5-E914-47DA-95CA-C5AB0DC85B11"

def kAcceptKeyCap : Nat := 29

/-- `ws::acceptKey`, with what its context finds on the stack. -/
def acceptKey (stack : Block 64) (clientKey out : Option Bytes) (cap : Nat) :
    Option (Bool × Option Bytes) :=
  match clientKey, out with
  | some key, some buffer =>
      if cap < kAcceptKeyCap + 1 then some (false, out)
      else do
        let ctx := sha1Update (sha1Update (sha1Init stack) (cstring key)) kGuid
        let (written, buffer) ← base64Encode (sha1Final ctx).1 buffer cap
        return (written != 0, some buffer)
  | _, _ => some (false, out)

/-! ## The characters -/

theorem kBase64_eq : kBase64 = Base64.alphabet := by decide

theorem getD_kBase64 {n : Nat} : kBase64.getD (n % 64) 0 = Base64.digit (n % 64) := by
  have hlt : n % 64 < Base64.alphabet.length := Nat.mod_lt _ (by decide)
  rw [kBase64_eq, Base64.digit, List.getD_eq_getElem?_getD, List.getD_eq_getElem?_getD,
    List.getElem?_eq_getElem hlt]
  rfl

/-- The table at six bits of a word. -/
theorem digit_of_shift (w : UInt32) {k : Nat} (hk : k < 32) :
    kBase64.getD ((w >>> UInt32.ofNat k) &&& 0x3F).toNat 0 =
      Base64.digit (w.toNat / 2 ^ k % 64) := by
  have hbits : ((w >>> UInt32.ofNat k) &&& 0x3F).toNat = w.toNat / 2 ^ k % 64 := by
    rw [UInt32.toNat_and, UInt32.toNat_shiftRight, UInt32.toNat_ofNat',
      Nat.mod_eq_of_lt (by omega : k < 2 ^ 32), Nat.mod_eq_of_lt hk, Nat.shiftRight_eq_div_pow]
    exact Nat.and_two_pow_sub_one_eq_mod _ 6
  rw [hbits, getD_kBase64]

/-- Three bytes in one word. -/
theorem toNat_triple (a b c : Byte) :
    (a.toUInt32 <<< 16 ||| b.toUInt32 <<< 8 ||| c.toUInt32).toNat =
      bitsValue (bits [a, b, c]) := by
  have hword := word_of_bytes 0 a b c
  have hzero : (0 : Byte).toUInt32 <<< 24 = 0 := rfl
  have hlt := bitsValue_lt (bits [a, b, c])
  rw [hzero, UInt32.zero_or] at hword
  rw [hword, bitsValue_bits_cons 0, UInt32.toNat_ofNat', UInt8.toNat_zero, Nat.zero_mul,
    Nat.zero_add]
  refine Nat.mod_eq_of_lt (hlt.trans_le ?_)
  rw [length_bits]
  exact Nat.pow_le_pow_right (by decide) (by decide : 3 * 8 ≤ 32)

/-- The four characters of a word. -/
theorem four_digits (w : UInt32) :
    [kBase64.getD ((w >>> 18) &&& 0x3F).toNat 0, kBase64.getD ((w >>> 12) &&& 0x3F).toNat 0,
      kBase64.getD ((w >>> 6) &&& 0x3F).toNat 0, kBase64.getD (w &&& 0x3F).toNat 0] =
      Base64.digits 4 w.toNat := by
  have hlast : w &&& 0x3F = (w >>> UInt32.ofNat 0) &&& 0x3F := by simp
  rw [hlast]
  exact congrArg₂ List.cons (digit_of_shift w (by decide : 18 < 32))
    (congrArg₂ List.cons (digit_of_shift w (by decide : 12 < 32))
      (congrArg₂ List.cons (digit_of_shift w (by decide : 6 < 32))
        (congrArg₂ List.cons (digit_of_shift w (by decide : 0 < 32)) rfl)))

/-- The first characters of a number with zero bits behind it. -/
theorem take_digits {count : Nat} (n : Nat) (h : count ≤ 4) :
    (Base64.digits 4 (n * 2 ^ ((4 - count) * 6))).take count = Base64.digits count n := by
  unfold Base64.digits
  rw [← List.map_take, List.take_range, Nat.min_eq_left h]
  refine List.map_congr_left fun i hi => ?_
  have hlt := List.mem_range.mp hi
  have hshift : (4 - 1 - i) * 6 = (count - 1 - i) * 6 + (4 - count) * 6 := by omega
  rw [hshift, Nat.pow_add, Nat.mul_div_mul_right _ _ (Nat.two_pow_pos _)]

theorem quad_three (a b c : Byte) (rest : Bytes) :
    quad (a :: b :: c :: rest) 0 = Base64.digits 4 (bitsValue (bits [a, b, c])) := by
  have h1 : 0 + 1 < (a :: b :: c :: rest).length := by simp
  have h2 : 0 + 2 < (a :: b :: c :: rest).length := by simp
  rw [← toNat_triple, ← four_digits, quad]
  simp only [if_pos h1, if_pos h2]
  rfl

theorem quad_two (a b : Byte) : quad [a, b] 0 = Base64.encode [a, b] := by
  have hvalue : bitsValue (bits [a, b, 0]) =
      bitsValue (bits [a, b]) * 2 ^ 2 * 2 ^ ((4 - 3) * 6) := by
    have hnil : bitsValue (bits []) = 0 := rfl
    simp only [bitsValue_bits_cons, List.length_cons, List.length_nil, hnil, UInt8.toNat_zero]
    omega
  have hquad : quad [a, b] 0 = (Base64.digits 4 (bitsValue (bits [a, b, 0]))).take 3 ++ [0x3D] := by
    rw [← toNat_triple, ← four_digits]
    rfl
  rw [hquad, hvalue, take_digits _ (by decide), Base64.encode_two]
  rfl

theorem quad_one (a : Byte) : quad [a] 0 = Base64.encode [a] := by
  have hvalue : bitsValue (bits [a, 0, 0]) = bitsValue (bits [a]) * 2 ^ 4 * 2 ^ ((4 - 2) * 6) := by
    have hnil : bitsValue (bits []) = 0 := rfl
    simp only [bitsValue_bits_cons, List.length_cons, List.length_nil, hnil, UInt8.toNat_zero]
    omega
  have hquad : quad [a] 0 =
      (Base64.digits 4 (bitsValue (bits [a, 0, 0]))).take 2 ++ [0x3D, 0x3D] := by
    rw [← toNat_triple, ← four_digits]
    rfl
  rw [hquad, hvalue, take_digits _ (by decide), Base64.encode_one]
  rfl

/-- A later turn does not see the first three bytes. -/
theorem quad_add_three (a b c : Byte) (rest : Bytes) (i : Nat) :
    quad (a :: b :: c :: rest) (i + 3) = quad rest i := by
  have h1 : i + 3 + 1 < (a :: b :: c :: rest).length ↔ i + 1 < rest.length := by
    simp only [List.length_cons]
    omega
  have h2 : i + 3 + 2 < (a :: b :: c :: rest).length ↔ i + 2 < rest.length := by
    simp only [List.length_cons]
    omega
  unfold quad
  simp only [h1, h2]
  rfl

/-- The characters of all turns. -/
theorem flatMap_quad : ∀ input : Bytes,
    (List.range ((input.length + 2) / 3)).flatMap (fun k => quad input (3 * k)) =
      Base64.encode input
  | [] => rfl
  | [a] => by
      have hcount : ([a].length + 2) / 3 = 1 := by simp
      rw [← quad_one, hcount]
      exact List.append_nil _
  | [a, b] => by
      have hcount : ([a, b].length + 2) / 3 = 1 := by simp
      rw [← quad_two, hcount]
      exact List.append_nil _
  | a :: b :: c :: rest => by
      have hcount : ((a :: b :: c :: rest).length + 2) / 3 = (rest.length + 2) / 3 + 1 := by
        simp only [List.length_cons]
        omega
      rw [hcount, List.range_succ_eq_map, List.flatMap_cons, List.flatMap_map, Nat.mul_zero,
        quad_three, Base64.encode_three, ← flatMap_quad rest]
      refine congrArg₂ _ rfl (List.flatMap_congr fun k _ => ?_)
      exact quad_add_three a b c rest (3 * k)

/-! ## The buffer -/

/-- Characters written one by one. -/
theorem foldlM_putChar {text out : Bytes} {o : Nat} (h : o + text.length ≤ out.length) :
    text.foldlM putChar (o, out) = some (o + text.length, memcpy out o text) := by
  induction text generalizing o out with
  | nil =>
      have hsame : memcpy out o [] = out := by
        rw [memcpy, List.append_nil]
        exact List.take_append_drop o out
      rw [hsame]
      rfl
  | cons c text ih =>
      rw [List.length_cons] at h
      have hinside : o < out.length := by omega
      have hput : putChar (o, out) c = some (o + 1, memcpy out o [c]) := by
        unfold putChar
        rw [store_eq hinside]
        rfl
      have hone : o + [c].length ≤ out.length := by
        rw [List.length_singleton]
        omega
      rw [List.foldlM_cons, hput]
      refine (ih (by rw [length_memcpy hone]; omega)).trans ?_
      have hjoin := memcpy_append text hone
      rw [List.length_singleton] at hjoin
      rw [hjoin, List.length_cons, Nat.add_right_comm, Nat.add_assoc]
      rfl

theorem foldlM_quads (input : Bytes) (cursor : Nat × Bytes) (turns : List Nat) :
    turns.foldlM (fun cursor k => (quad input (3 * k)).foldlM putChar cursor) cursor =
      (turns.flatMap fun k => quad input (3 * k)).foldlM putChar cursor := by
  induction turns generalizing cursor with
  | nil => rfl
  | cons k turns ih =>
      rw [List.foldlM_cons, List.flatMap_cons, List.foldlM_append]
      exact bind_congr fun cursor => ih cursor

/-- The text and its terminator go to the front of the buffer. -/
theorem base64Encode_eq {input out : Bytes} {cap : Nat}
    (hcap : (input.length + 2) / 3 * 4 + 1 ≤ cap) (hout : cap ≤ out.length) :
    base64Encode input out cap =
      some ((input.length + 2) / 3 * 4, memcpy out 0 (Base64.encode input ++ [0])) := by
  have hlength := Base64.length_encode input
  have hroom : 0 + (Base64.encode input).length ≤ out.length := by omega
  have hend : store (memcpy out 0 (Base64.encode input)) (0 + (Base64.encode input).length) 0 =
      some (memcpy out 0 (Base64.encode input ++ [0])) := by
    rw [store_eq (by rw [length_memcpy hroom]; omega), memcpy_append _ hroom]
  unfold base64Encode
  rw [if_neg (by omega), foldlM_quads, flatMap_quad, foldlM_putChar hroom]
  simp only [Option.bind_eq_bind, Option.bind_some, hend]
  rw [Nat.zero_add, hlength]
  rfl

/-! ## The key -/

/-- What RFC 6455 has the server answer: the digest of the key and the GUID, in Base64. -/
def handshakeKey (clientKey : Bytes) : Bytes :=
  Base64.encode (bytesOf (SecureHash.sha1
    (bits (clientKey ++ ascii "258EAFA5-E914-47DA-95CA-C5AB0DC85B11"))))

/-- For every key up to its terminator, the answer is the standard one and its own terminator,
and the bytes behind them stay as they were. -/
theorem acceptKey_standard (stack : Block 64) {key : Bytes} (rest out : Bytes) {cap : Nat}
    (hkey : (0 : Byte) ∉ key) (hcap : kAcceptKeyCap + 1 ≤ cap) (hout : cap ≤ out.length) :
    acceptKey stack (some (key ++ 0 :: rest)) (some out) cap =
      some (true, some (handshakeKey key ++ 0 :: out.drop kAcceptKeyCap)) := by
  have hfed := ((Sha1.init_fed stack).update key).update kGuid
  have hdigest := hfed.final
  rw [List.nil_append] at hdigest
  generalize hctx : sha1Update (sha1Update (sha1Init stack) key) kGuid = ctx at hdigest
  have htext : Base64.encode (sha1Final ctx).1 = handshakeKey key := by
    rw [hdigest]
    rfl
  have hlength : (handshakeKey key).length = 28 := by
    rw [← htext, Base64.length_encode, Block.length_val]
  have hneeded : ((sha1Final ctx).1.length + 2) / 3 * 4 + 1 ≤ cap := by
    rw [Block.length_val]
    exact (by decide : 29 ≤ 30).trans hcap
  have hwritten := base64Encode_eq hneeded hout
  have hbuffer : memcpy out 0 (handshakeKey key ++ [0]) =
      handshakeKey key ++ 0 :: out.drop kAcceptKeyCap := by
    rw [memcpy, List.length_append, hlength, List.append_assoc, List.append_assoc]
    rfl
  rw [htext, hbuffer] at hwritten
  unfold acceptKey
  dsimp only
  rw [if_neg (Nat.not_lt.mpr hcap), cstring_append_zero hkey, hctx, hwritten]
  simp

theorem acceptKey_standard_sample :
    (0 : Byte) ∉ ascii "dGhlIHNhbXBsZSBub25jZQ==" ∧
      acceptKey (Block.zero 64) (some (ascii "dGhlIHNhbXBsZSBub25jZQ==" ++ [0]))
          (some (List.replicate 30 0)) 30 =
        some (true, some (handshakeKey (ascii "dGhlIHNhbXBsZSBub25jZQ==") ++ [0, 0])) :=
  ⟨by decide, acceptKey_standard (Block.zero 64) [] (List.replicate 30 0) (by decide) (by decide)
    (by decide)⟩

example : acceptKey (Block.zero 64) (some (ascii "dGhlIHNhbXBsZSBub25jZQ==" ++ [0]))
    (some (List.replicate 30 0)) 30 =
      some (true, some (ascii "s3pPLMBiTxaQ9kYGzzhZRbK+xOo=" ++ [0, 0])) := by
  decide +kernel

end MatrixFaces.Api.Ws
