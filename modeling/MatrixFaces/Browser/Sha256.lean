import MatrixFaces.ApiAuth.Sha256Stream
import MatrixFaces.Foundation.BitString
import MatrixFaces.Foundation.JsNumber

set_option autoImplicit false

/-!
# SHA-256 in the browser (`data/app.js`)

The whole message is padded into one array and its blocks are read out of it, in
JavaScript's numbers.  It computes what `Sha256::hash` does.

Numbers, bitwise operators and typed arrays are those of `Foundation.JsNumber`.  The loops over
blocks and rounds are shown to make the words of `ApiAuth.Sha256`; `sha256_eq` is the result,
for a message of any bytes.
-/

namespace MatrixFaces.Browser

open MatrixFaces.Foundation MatrixFaces.Foundation.Js

def SHA256_K : Uint32Array :=
  [0x428a2f98, 0x71374491, 0xb5c0fbcf, 0xe9b5dba5, 0x3956c25b, 0x59f111f1, 0x923f82a4, 0xab1c5ed5,
   0xd807aa98, 0x12835b01, 0x243185be, 0x550c7dc3, 0x72be5d74, 0x80deb1fe, 0x9bdc06a7, 0xc19bf174,
   0xe49b69c1, 0xefbe4786, 0x0fc19dc6, 0x240ca1cc, 0x2de92c6f, 0x4a7484aa, 0x5cb0a9dc, 0x76f988da,
   0x983e5152, 0xa831c66d, 0xb00327c8, 0xbf597fc7, 0xc6e00bf3, 0xd5a79147, 0x06ca6351, 0x14292967,
   0x27b70a85, 0x2e1b2138, 0x4d2c6dfc, 0x53380d13, 0x650a7354, 0x766a0abb, 0x81c2c92e, 0x92722c85,
   0xa2bfe8a1, 0xa81a664b, 0xc24b8b70, 0xc76c51a3, 0xd192e819, 0xd6990624, 0xf40e3585, 0x106aa070,
   0x19a4c116, 0x1e376c08, 0x2748774c, 0x34b0bcb5, 0x391c0cb3, 0x4ed8aa4a, 0x5b9cca4f, 0x682e6ff3,
   0x748f82ee, 0x78a5636f, 0x84c87814, 0x8cc70208, 0x90befffa, 0xa4506ceb, 0xbef9a3f7, 0xc67178f2]

/-- `H` before the first block. -/
def initialH : Uint32Array :=
  [0x6a09e667, 0xbb67ae85, 0x3c6ef372, 0xa54ff53a,
   0x510e527f, 0x9b05688c, 0x1f83d9ab, 0x5be0cd19]

/-- The array `padded` once both halves of the bit length are in it. -/
def padded (bytes : Bytes) : Uint8Array :=
  let bitLen : Int := bytes.length * 8
  -- `Math.ceil((bytes.length + 9) / 64) * 64`
  let size := (bytes.length + 9 + 63) / 64 * 64
  let marked := (Uint8Array.filled size bytes).write bytes.length 0x80
  setUint32 (setUint32 marked (size - 4) (shiftRight bitLen 0)) (size - 8)
    (bitLen / 0x100000000)

def rotr (x n : Int) : Int := bitOr (shiftRight x n) (shiftLeft x (32 - n))

/-- `w[i]` from the block that starts at `offset`. -/
def loadWord (view : Uint8Array) (offset : Nat) (w : Uint32Array) (i : Nat) : Uint32Array :=
  w.write i (getUint32 view (offset + i * 4))

/-- `w[i]` from the words before it. -/
def extendWord (w : Uint32Array) (i : Nat) : Uint32Array :=
  let s0 := bitXor (bitXor (rotr (w.read (i - 15)) 7) (rotr (w.read (i - 15)) 18))
    (shiftRight (w.read (i - 15)) 3)
  let s1 := bitXor (bitXor (rotr (w.read (i - 2)) 17) (rotr (w.read (i - 2)) 19))
    (shiftRight (w.read (i - 2)) 10)
  w.write i (bitOr (w.read (i - 16) + s0 + w.read (i - 7) + s1) 0)

/-- The variables `a` to `h`. -/
structure Variables where
  a : Int
  b : Int
  c : Int
  d : Int
  e : Int
  f : Int
  g : Int
  h : Int

/-- One turn of the loop over `a` to `h`. -/
def turn (w : Uint32Array) (v : Variables) (i : Nat) : Variables :=
  let S1 := bitXor (bitXor (rotr v.e 6) (rotr v.e 11)) (rotr v.e 25)
  let ch := bitXor (bitAnd v.e v.f) (bitAnd (bitNot v.e) v.g)
  let temp1 := bitOr (v.h + S1 + ch + SHA256_K.read i + w.read i) 0
  let S0 := bitXor (bitXor (rotr v.a 2) (rotr v.a 13)) (rotr v.a 22)
  let maj := bitXor (bitXor (bitAnd v.a v.b) (bitAnd v.a v.c)) (bitAnd v.b v.c)
  let temp2 := bitOr (S0 + maj) 0
  { a := bitOr (temp1 + temp2) 0, b := v.a, c := v.b, d := v.c,
    e := bitOr (v.d + temp1) 0, f := v.e, g := v.f, h := v.g }

/-- `[a, b, c, d, e, f, g, h] = H` -/
def spread (H : Uint32Array) : Variables :=
  ⟨H.read 0, H.read 1, H.read 2, H.read 3, H.read 4, H.read 5, H.read 6, H.read 7⟩

/-- `H[i] = (H[i] + x) | 0` -/
def addTo (H : Uint32Array) (i : Nat) (x : Int) : Uint32Array := H.write i (bitOr (H.read i + x) 0)

/-- The eight additions to `H`. -/
def addAll (H : Uint32Array) (v : Variables) : Uint32Array :=
  addTo (addTo (addTo (addTo (addTo (addTo (addTo (addTo H 0 v.a) 1 v.b) 2 v.c) 3 v.d)
    4 v.e) 5 v.f) 6 v.g) 7 v.h

/-- What both loops over `w` make of it for the block at `offset`. -/
def fillWords (view : Uint8Array) (offset : Nat) (w : Uint32Array) : Uint32Array :=
  (List.range 48).foldl (fun w i => extendWord w (i + 16))
    ((List.range 16).foldl (loadWord view offset) w)

/-- The loop over the blocks at one offset: `H`, and the `w` all blocks share. -/
def blockAt (view : Uint8Array) (arrays : Uint32Array × Uint32Array) (offset : Nat) :
    Uint32Array × Uint32Array :=
  let w := fillWords view offset arrays.2
  (addAll arrays.1 ((List.range 64).foldl (turn w) (spread arrays.1)), w)

/-- `sha256` -/
def sha256 (bytes : Bytes) : Uint8Array :=
  let view := padded bytes
  -- One turn for each offset below the length.
  let blocks := (view.length + 63) / 64
  let H := ((List.range blocks).foldl (fun arrays k => blockAt view arrays (k * 64))
    (initialH, List.replicate 64 0)).1
  (List.range 8).foldl (fun out i => setUint32 out (i * 4) (H.read i)) (List.replicate 32 0)

/-! ## The same words -/

open MatrixFaces.ApiAuth

theorem SHA256_K_eq : SHA256_K = kK := rfl

theorem ofInt_rotr (x n : Int) :
    UInt32.ofInt (rotr x n) = ApiAuth.rotr (UInt32.ofInt x) (UInt32.ofInt n) := by
  simp only [rotr, ApiAuth.rotr, ofInt_bitOr, ofInt_shiftRight, ofInt_shiftLeft, ofInt_sub,
    ofInt_ofNat]

/-- The chaining value the variables stand for. -/
def words (v : Variables) : HashState :=
  ⟨UInt32.ofInt v.a, UInt32.ofInt v.b, UInt32.ofInt v.c, UInt32.ofInt v.d,
    UInt32.ofInt v.e, UInt32.ofInt v.f, UInt32.ofInt v.g, UInt32.ofInt v.h⟩

theorem words_turn (w : Uint32Array) (v : Variables) (i : Nat) :
    words (turn w v i) = ApiAuth.round (words v) (kK.getD i 0, w.getD i 0) := by
  simp [words, turn, ApiAuth.round, ofInt_rotr, ofInt_ofNat, SHA256_K_eq]

theorem words_turns (w : Uint32Array) (v : Variables) (indices : List Nat) :
    words (indices.foldl (turn w) v) =
      (indices.map fun i => (kK.getD i 0, w.getD i 0)).foldl ApiAuth.round (words v) := by
  induction indices generalizing v with
  | nil => rfl
  | cons i rest ih => rw [List.foldl_cons, ih, words_turn, List.map_cons, List.foldl_cons]

/-! ### The message schedule -/

theorem extendWord_eq (w : Uint32Array) (i : Nat) :
    extendWord w i = w.set i (scheduleWord w i) := by
  simp [extendWord, scheduleWord, Uint32Array.write, ofInt_rotr, ofInt_ofNat]

theorem uint32At_eq (view : Uint8Array) (offset : Nat) {i : Nat} (hi : i < 16) :
    uint32At view (offset + i * 4) = blockWord ((view.drop offset).take 64) i := by
  have hbyte (j : Nat) (hj : j < 4) : ((view.drop offset).take 64).getD (i * 4 + j) 0 =
      view.getD (offset + i * 4 + j) 0 := by
    rw [List.getD_eq_getElem?_getD, List.getD_eq_getElem?_getD, List.getElem?_take_of_lt (by omega),
      List.getElem?_drop, Nat.add_assoc]
  have hfirst := hbyte 0 (by decide)
  rw [Nat.add_zero, Nat.add_zero] at hfirst
  rw [uint32At, blockWord, hfirst, hbyte 1 (by decide), hbyte 2 (by decide), hbyte 3 (by decide)]

/-- A word of the schedule is made from the words before it. -/
theorem scheduleWord_append (front back : List UInt32) (h : 16 ≤ front.length) :
    scheduleWord (front ++ back) front.length = scheduleWord front front.length := by
  have hword (d : Nat) (hd : 0 < d) :
      (front ++ back).getD (front.length - d) 0 = front.getD (front.length - d) 0 := by
    rw [List.getD_eq_getElem?_getD, List.getElem?_append_left (by omega),
      List.getD_eq_getElem?_getD]
  rw [scheduleWord, scheduleWord, hword 15 (by decide), hword 2 (by decide), hword 16 (by decide),
    hword 7 (by decide)]

theorem fillWords_eq (view : Uint8Array) (offset : Nat) {w : Uint32Array} (hw : w.length = 64) :
    fillWords view offset w = schedule ((view.drop offset).take 64) ∧
      (fillWords view offset w).length = 64 := by
  have hload := @foldl_set_eq _ (fun _ i => uint32At view (offset + i * 4)) 0
    (fun _ _ _ => rfl) [] w rfl 16 (by omega)
  have hwords : (List.range 16).foldl (loadWord view offset) w =
      (List.range 16).map (blockWord ((view.drop offset).take 64)) ++ w.drop 16 := by
    have hmap : (List.range 16).map (blockWord ((view.drop offset).take 64)) =
        (List.range 16).map fun i => uint32At view (offset + i * 4) :=
      List.map_congr_left fun i hi => (uint32At_eq view offset (List.mem_range.mp hi)).symm
    have hstep : loadWord view offset = fun w i => w.set i (uint32At view (offset + i * 4)) := by
      funext w i
      rw [loadWord, Uint32Array.write, ofInt_getUint32]
    rw [hmap, hstep]
    exact hload.1
  have hextend := @foldl_set_eq _ scheduleWord 16 scheduleWord_append
    ((List.range 16).map (blockWord ((view.drop offset).take 64))) (w.drop 16)
    (by rw [List.length_map, List.length_range]) 48 (by rw [List.length_drop]; omega)
  have hrest : (w.drop 16).drop 48 = [] := by
    rw [List.drop_drop, List.drop_of_length_le (by omega)]
  rw [fillWords, hwords]
  simp only [extendWord_eq]
  rw [hrest, List.append_nil] at hextend
  rw [hextend.1]
  exact ⟨rfl, hextend.2⟩

theorem length_schedule (block : Bytes) : (schedule block).length = 64 :=
  (@foldl_set_eq _ scheduleWord 16 scheduleWord_append ((List.range 16).map (blockWord block))
    (List.replicate 48 0) (by rw [List.length_map, List.length_range]) 48 (by simp)).2

/-! ### One block -/

/-- The eight words of a chaining value, in order. -/
def array (s : HashState) : Uint32Array := [s.a, s.b, s.c, s.d, s.e, s.f, s.g, s.h]

theorem words_spread (s : HashState) : words (spread (array s)) = s := by
  simp only [words, spread, ofInt_read]
  rfl

theorem zip_eq_map {as bs : List UInt32} {n : Nat} (has : as.length = n) (hbs : bs.length = n) :
    as.zip bs = (List.range n).map fun i => (as.getD i 0, bs.getD i 0) := by
  refine List.ext_getElem (by simp [has, hbs]) fun i hi hj => ?_
  have hlt : i < n := by simpa using hj
  simp [List.getD_eq_getElem?_getD, has, hbs, hlt]

theorem addAll_eq (s : HashState) (v : Variables) :
    addAll (array s) v =
      array { a := s.a + (words v).a, b := s.b + (words v).b, c := s.c + (words v).c,
              d := s.d + (words v).d, e := s.e + (words v).e, f := s.f + (words v).f,
              g := s.g + (words v).g, h := s.h + (words v).h } := by
  simp [addAll, addTo, Uint32Array.write, array, words, ofInt_ofNat]

theorem blockAt_eq (view : Uint8Array) (s : HashState) {w : Uint32Array} (hw : w.length = 64)
    (offset : Nat) :
    (blockAt view (array s, w) offset).1 = array (compress s ((view.drop offset).take 64)) ∧
      (blockAt view (array s, w) offset).2.length = 64 := by
  obtain ⟨hfill, hlength⟩ := fillWords_eq view offset hw
  simp only [blockAt]
  refine ⟨?_, hlength⟩
  rw [addAll_eq, words_turns, words_spread, hfill]
  rw [← zip_eq_map (by decide) (length_schedule _), compress]

/-- The loop over the blocks. -/
theorem blocks_eq (view : Uint8Array) (s : HashState) (n : Nat) :
    ((List.range n).foldl (fun arrays k => blockAt view arrays (k * 64))
        (array s, List.replicate 64 0)).1 = array (foldBlocks compress 64 n s view) ∧
      ((List.range n).foldl (fun arrays k => blockAt view arrays (k * 64))
        (array s, List.replicate 64 0)).2.length = 64 := by
  induction n with
  | zero => exact ⟨rfl, List.length_replicate⟩
  | succ n ih =>
      rw [foldBlocks_eq_foldl] at ih ⊢
      rw [List.range_succ, List.foldl_append, List.foldl_append]
      generalize (List.range n).foldl (fun arrays k => blockAt view arrays (k * 64))
        (array s, List.replicate 64 0) = arrays at ih ⊢
      obtain ⟨H, w⟩ := arrays
      obtain ⟨rfl, hw⟩ := ih
      exact blockAt_eq view _ hw (n * 64)

/-! ### Padding -/

theorem uint32Bytes_eq (word : UInt32) :
    uint32Bytes word = [24, 16, 8, 0].map fun k => UInt8.ofNat (word.toNat / 2 ^ k) := by
  simp only [List.map_cons, List.map_nil]
  rw [← toUInt8_shiftRight word (by decide), ← toUInt8_shiftRight word (by decide),
    ← toUInt8_shiftRight word (by decide), Nat.pow_zero, Nat.div_one, uint32Bytes]
  rfl

theorem ofNat_congr {m n : Nat} (h : m % 2 ^ 8 = n % 2 ^ 8) : UInt8.ofNat m = UInt8.ofNat n := by
  apply UInt8.toNat_inj.mp
  rw [UInt8.toNat_ofNat', UInt8.toNat_ofNat', h]

/-- The bytes of the two halves are the eight bytes of the length. -/
theorem lengthBytes_eq {high low : UInt32} {bits : UInt64}
    (hhigh : high.toNat = bits.toNat / 2 ^ 32) (hlow : low.toNat = bits.toNat % 2 ^ 32) :
    uint32Bytes high ++ uint32Bytes low = Sha256.lengthBytes bits := by
  have hbits : Sha256.lengthBytes bits =
      (List.range 8).map fun i => UInt8.ofNat (bits.toNat / 2 ^ (56 - i * 8)) :=
    List.map_congr_left fun i _ => toUInt8_shiftRight64 bits (by omega)
  rw [uint32Bytes_eq, uint32Bytes_eq, hbits, hhigh, hlow]
  simp only [List.range_succ, List.range_zero, List.nil_append, List.cons_append, List.map_cons,
    List.map_nil, List.cons.injEq, and_true]
  refine ⟨?_, ?_, ?_, ?_, ?_, ?_, ?_, ?_⟩ <;> exact ofNat_congr (by omega)

/-- Marking the end of the message and cutting the room for its length. -/
theorem marked_eq (bytes : Bytes) (zeros : Nat) :
    (Uint8Array.filled (bytes.length + (zeros + 1) + 8) bytes).write bytes.length 0x80 =
      bytes ++ 0x80 :: List.replicate zeros 0 ++ List.replicate 4 0 ++ List.replicate 4 0 := by
  have hroom : bytes.length + (zeros + 1) + 8 - bytes.length = 1 + (zeros + 4 + 4) := by omega
  rw [Uint8Array.filled, Uint8Array.write, List.set_append_right _ _ (Nat.le_refl _), Nat.sub_self,
    hroom, ← List.replicate_append_replicate, ← List.replicate_append_replicate,
    ← List.replicate_append_replicate]
  simp only [List.replicate_one, List.set_cons_zero, List.append_assoc,
    List.cons_append]
  rfl

theorem padded_eq (bytes : Bytes) : padded bytes = paddedStream bytes := by
  have hsize : (bytes.length + 9 + 63) / 64 * 64 =
      bytes.length + (zeroCount bytes.length + 1) + 8 := by
    rw [zeroCount]
    omega
  have hbits : (UInt64.ofNat bytes.length * 8).toNat = bytes.length * 8 % 2 ^ 64 := by
    rw [UInt64.toNat_mul, UInt64.toNat_ofNat']
    change bytes.length % 2 ^ 64 * 8 % 2 ^ 64 = bytes.length * 8 % 2 ^ 64
    omega
  have hhigh : (UInt32.ofInt ((bytes.length : Int) * 8 / 0x100000000)).toNat =
      (UInt64.ofNat bytes.length * 8).toNat / 2 ^ 32 := by
    rw [hbits, UInt32.ofInt, UInt32.toNat_ofNat']
    omega
  have hlow : (UInt32.ofInt (shiftRight ((bytes.length : Int) * 8) 0)).toNat =
      (UInt64.ofNat bytes.length * 8).toNat % 2 ^ 32 := by
    rw [hbits, ofInt_shiftRight, UInt32.toNat_shiftRight, UInt32.ofInt, UInt32.toNat_ofNat']
    change _ >>> 0 = _
    rw [Nat.shiftRight_zero]
    omega
  have hfront : (bytes ++ 0x80 :: List.replicate (zeroCount bytes.length) 0).length =
      bytes.length + (zeroCount bytes.length + 1) := by simp
  have hwith : (bytes ++ 0x80 :: List.replicate (zeroCount bytes.length) 0 ++
      List.replicate 4 (0 : UInt8)).length = bytes.length + (zeroCount bytes.length + 1) + 4 := by
    rw [List.length_append, hfront, List.length_replicate]
  simp only [padded]
  rw [hsize, marked_eq, Nat.add_sub_cancel]
  have hlowAt : bytes.length + (zeroCount bytes.length + 1) + 8 - 4 =
      (bytes ++ 0x80 :: List.replicate (zeroCount bytes.length) 0 ++
        List.replicate 4 (0 : UInt8)).length := by
    rw [hwith]
    omega
  rw [hlowAt, ← List.append_nil (_ ++ List.replicate 4 0 ++ List.replicate 4 0),
    setUint32_append List.length_replicate, ← hfront, List.append_nil,
    setUint32_append List.length_replicate, List.append_assoc, lengthBytes_eq hhigh hlow,
    paddedStream]

theorem length_padded (bytes : Bytes) : (padded bytes).length % 64 = 0 := by
  rw [padded_eq, paddedStream]
  simp only [List.length_append, List.length_cons, List.length_replicate, zeroCount,
    Sha256.lengthBytes, List.length_map, List.length_range]
  omega

/-! ## The digest -/

theorem write_array (s : HashState) :
    (List.range 8).foldl (fun out i => setUint32 out (i * 4) ((array s).read i))
      (List.replicate 32 0) = (Sha256.digest s).1 := by
  simp [List.range_succ, setUint32, array, Sha256.digest, uint32Bytes, Sha256.wordBytes]

/-- `app.js` computes the hash the firmware does. -/
theorem sha256_eq (bytes : Bytes) : sha256 bytes = (Sha256.hash bytes).1 := by
  have hblocks : ((padded bytes).length + 63) / 64 = (padded bytes).length / 64 := by
    have hwhole := length_padded bytes
    omega
  rw [Sha256.hash_eq, ← padded_eq, compressAll, kBlockSize, ← write_array, ← (blocks_eq _ _ _).1,
    ← hblocks]
  rfl

end MatrixFaces.Browser
