import MatrixFaces.Foundation.Bytes

set_option autoImplicit false

/-!
# SHA-256 and HMAC (`lib/apiauth/sha256.cpp`, `lib/apiauth/hmac_sha256.cpp`)

A context has the chaining value, the bytes that wait for a block to fill, and the number of
bits so far.  The object in memory, whose buffer keeps what earlier blocks left, is in
`ApiAuth.Sha256Memory`; what the functions compute is compared with the standard in
`ApiAuth.Sha256Standard`.
-/

namespace MatrixFaces.ApiAuth

open MatrixFaces.Foundation

/-- `Sha256::kBlockSize`. -/
def kBlockSize : Nat := 64

/-- `Sha256::kDigestSize`. -/
def kDigestSize : Nat := 32

def kK : List UInt32 :=
  [0x428a2f98, 0x71374491, 0xb5c0fbcf, 0xe9b5dba5, 0x3956c25b, 0x59f111f1,
   0x923f82a4, 0xab1c5ed5, 0xd807aa98, 0x12835b01, 0x243185be, 0x550c7dc3,
   0x72be5d74, 0x80deb1fe, 0x9bdc06a7, 0xc19bf174, 0xe49b69c1, 0xefbe4786,
   0x0fc19dc6, 0x240ca1cc, 0x2de92c6f, 0x4a7484aa, 0x5cb0a9dc, 0x76f988da,
   0x983e5152, 0xa831c66d, 0xb00327c8, 0xbf597fc7, 0xc6e00bf3, 0xd5a79147,
   0x06ca6351, 0x14292967, 0x27b70a85, 0x2e1b2138, 0x4d2c6dfc, 0x53380d13,
   0x650a7354, 0x766a0abb, 0x81c2c92e, 0x92722c85, 0xa2bfe8a1, 0xa81a664b,
   0xc24b8b70, 0xc76c51a3, 0xd192e819, 0xd6990624, 0xf40e3585, 0x106aa070,
   0x19a4c116, 0x1e376c08, 0x2748774c, 0x34b0bcb5, 0x391c0cb3, 0x4ed8aa4a,
   0x5b9cca4f, 0x682e6ff3, 0x748f82ee, 0x78a5636f, 0x84c87814, 0x8cc70208,
   0x90befffa, 0xa4506ceb, 0xbef9a3f7, 0xc67178f2]

def rotr (x n : UInt32) : UInt32 := (x >>> n) ||| (x <<< (32 - n))

/-- The chaining value `state_`. -/
structure HashState where
  a : UInt32
  b : UInt32
  c : UInt32
  d : UInt32
  e : UInt32
  f : UInt32
  g : UInt32
  h : UInt32
  deriving DecidableEq, Repr

/-- The big-endian word at byte offset `4 * i` of a block. -/
def blockWord (block : Bytes) (i : Nat) : UInt32 :=
  (block.getD (i * 4) 0).toUInt32 <<< 24 ||| (block.getD (i * 4 + 1) 0).toUInt32 <<< 16 |||
    (block.getD (i * 4 + 2) 0).toUInt32 <<< 8 ||| (block.getD (i * 4 + 3) 0).toUInt32

/-- `w[i]` from the words before it. -/
def scheduleWord (w : List UInt32) (i : Nat) : UInt32 :=
  let w15 := w.getD (i - 15) 0
  let w2 := w.getD (i - 2) 0
  let s0 := rotr w15 7 ^^^ rotr w15 18 ^^^ (w15 >>> 3)
  let s1 := rotr w2 17 ^^^ rotr w2 19 ^^^ (w2 >>> 10)
  w.getD (i - 16) 0 + s0 + w.getD (i - 7) 0 + s1

/-- The message schedule `w[0..64)`. -/
def schedule (block : Bytes) : List UInt32 :=
  (List.range 48).foldl (fun w i => w ++ [scheduleWord w (i + 16)])
    ((List.range 16).map (blockWord block))

/-- One of the 64 rounds. -/
def round (s : HashState) (kw : UInt32 × UInt32) : HashState :=
  let s1 := rotr s.e 6 ^^^ rotr s.e 11 ^^^ rotr s.e 25
  let ch := (s.e &&& s.f) ^^^ (~~~s.e &&& s.g)
  let temp1 := s.h + s1 + ch + kw.1 + kw.2
  let s0 := rotr s.a 2 ^^^ rotr s.a 13 ^^^ rotr s.a 22
  let maj := (s.a &&& s.b) ^^^ (s.a &&& s.c) ^^^ (s.b &&& s.c)
  let temp2 := s0 + maj
  { a := temp1 + temp2, b := s.a, c := s.b, d := s.c,
    e := s.d + temp1, f := s.e, g := s.f, h := s.g }

/-- `Sha256::compress`. -/
def compress (s : HashState) (block : Bytes) : HashState :=
  let t := (kK.zip (schedule block)).foldl round s
  { a := s.a + t.a, b := s.b + t.b, c := s.c + t.c, d := s.d + t.d,
    e := s.e + t.e, f := s.f + t.f, g := s.g + t.g, h := s.h + t.h }

/-- A hashing context.  `buffer` holds the `bufferLen_` bytes not yet compressed. -/
structure Sha256 where
  state : HashState
  bitLength : UInt64
  buffer : Bytes
  buffer_lt : buffer.length < kBlockSize

namespace Sha256

/-- `Sha256::reset`. -/
def reset : Sha256 where
  state := ⟨0x6a09e667, 0xbb67ae85, 0x3c6ef372, 0xa54ff53a,
    0x510e527f, 0x9b05688c, 0x1f83d9ab, 0x5be0cd19⟩
  bitLength := 0
  buffer := []
  buffer_lt := by decide

/-- The loop of `update`: fill the buffer, compress it whenever it is full. -/
def absorb (ctx : Sha256) (data : Bytes) : Sha256 :=
  if hdone : data = [] then ctx
  else
    let take := min data.length (kBlockSize - ctx.buffer.length)
    let filled := ctx.buffer ++ data.take take
    if hfull : filled.length = kBlockSize then
      absorb { ctx with
        state := compress ctx.state filled, buffer := [], buffer_lt := by decide }
        (data.drop take)
    else
      absorb { ctx with
        buffer := filled
        buffer_lt := by
          have hlt := ctx.buffer_lt
          have hle : filled.length ≤ kBlockSize := by
            simp only [filled, List.length_append, List.length_take, take]
            omega
          omega }
        (data.drop take)
termination_by data.length
decreasing_by
  all_goals
    have hpos := List.length_pos_iff.mpr hdone
    have hlt := ctx.buffer_lt
    simp only [List.length_drop]
    omega

/-- `Sha256::update`. -/
def update (ctx : Sha256) (data : Bytes) : Sha256 :=
  absorb { ctx with bitLength := ctx.bitLength + UInt64.ofNat data.length * 8 } data

/-- `while (bufferLen_ != 56) update(&zero, 1)`; 64 turns always reach 56. -/
def padZeros : Nat → Sha256 → Sha256
  | 0, ctx => ctx
  | n + 1, ctx => if ctx.buffer.length = 56 then ctx else padZeros n (ctx.update [0x00])

def wordBytes (w : UInt32) : Bytes :=
  [(w >>> 24).toUInt8, (w >>> 16).toUInt8, (w >>> 8).toUInt8, w.toUInt8]

/-- The captured bit length, big-endian. -/
def lengthBytes (bits : UInt64) : Bytes :=
  (List.range 8).map fun i => (bits >>> (UInt64.ofNat (56 - i * 8))).toUInt8

/-- `Sha256::finish`. -/
def finish (ctx : Sha256) : Block kDigestSize :=
  let bits := ctx.bitLength
  let padded := padZeros kBlockSize (ctx.update [0x80])
  let s := compress padded.state (padded.buffer ++ lengthBytes bits)
  ⟨wordBytes s.a ++ wordBytes s.b ++ wordBytes s.c ++ wordBytes s.d ++
    wordBytes s.e ++ wordBytes s.f ++ wordBytes s.g ++ wordBytes s.h, rfl⟩

/-- `Sha256::hash`. -/
def hash (data : Bytes) : Block kDigestSize := (reset.update data).finish

end Sha256

/-- The key block: a long key is replaced by its digest, a short one zero-filled. -/
def hmacKeyBlock (key : Bytes) : Bytes :=
  let short := if key.length > kBlockSize then (Sha256.hash key).1 else key
  short ++ List.replicate (kBlockSize - short.length) 0

/-- `hmacSha256`. -/
def hmacSha256 (key message : Bytes) : Block kDigestSize :=
  let block := hmacKeyBlock key
  let inner := ((Sha256.reset.update (block.map (· ^^^ 0x36))).update message).finish
  ((Sha256.reset.update (block.map (· ^^^ 0x5c))).update inner.1).finish

end MatrixFaces.ApiAuth
