import MatrixFaces.Foundation.SecureHash

set_option autoImplicit false

/-!
# The handshake's SHA-1 (`src/api/websocket.cpp`)

The hash takes its bytes one by one into a block that keeps those of the block before.

`Fed` says of a context which stream it was fed, in the terms of `Foundation.BlockStream`: the
chaining value of the whole blocks, and the bytes behind them.  `Fed.update` is about any call
and `Fed.final` about the digest.  `words_compressAll` takes the source's words to the
standard's (`Foundation.SecureHash`), round by round.
-/

namespace MatrixFaces.Api.Ws

open MatrixFaces.Foundation

/-! ## One block -/

/-- `state[5]`, and the variables of the rounds. -/
structure Sha1State where
  a : UInt32
  b : UInt32
  c : UInt32
  d : UInt32
  e : UInt32
  deriving DecidableEq, Repr

def rol (value bits : UInt32) : UInt32 := (value <<< bits) ||| (value >>> (32 - bits))

/-- `w[i]` from the bytes of the block. -/
def blockWord (block : Bytes) (i : Nat) : UInt32 :=
  (block.getD (i * 4) 0).toUInt32 <<< 24 ||| (block.getD (i * 4 + 1) 0).toUInt32 <<< 16 |||
    (block.getD (i * 4 + 2) 0).toUInt32 <<< 8 ||| (block.getD (i * 4 + 3) 0).toUInt32

/-- `w[i]` from the words before it. -/
def scheduleWord (w : List UInt32) (i : Nat) : UInt32 :=
  rol (w.getD (i - 3) 0 ^^^ w.getD (i - 8) 0 ^^^ w.getD (i - 14) 0 ^^^ w.getD (i - 16) 0) 1

/-- `w[80]`. -/
def schedule (block : Bytes) : List UInt32 :=
  (List.range 64).foldl (fun w i => w ++ [scheduleWord w (i + 16)])
    ((List.range 16).map (blockWord block))

/-- One of the 80 rounds. -/
def round (w : List UInt32) (s : Sha1State) (i : Nat) : Sha1State :=
  let (f, k) : UInt32 × UInt32 :=
    if i < 20 then ((s.b &&& s.c) ||| (~~~s.b &&& s.d), 0x5A827999)
    else if i < 40 then (s.b ^^^ s.c ^^^ s.d, 0x6ED9EBA1)
    else if i < 60 then ((s.b &&& s.c) ||| (s.b &&& s.d) ||| (s.c &&& s.d), 0x8F1BBCDC)
    else (s.b ^^^ s.c ^^^ s.d, 0xCA62C1D6)
  let temp := rol s.a 5 + f + s.e + k + w.getD i 0
  ⟨temp, s.a, rol s.b 30, s.c, s.d⟩

def sha1Transform (state : Sha1State) (block : Bytes) : Sha1State :=
  let v := (List.range 80).foldl (round (schedule block)) state
  ⟨state.a + v.a, state.b + v.b, state.c + v.c, state.d + v.d, state.e + v.e⟩

/-! ## The context -/

structure Sha1 where
  state : Sha1State
  bitCount : UInt64
  block : Block 64
  blockLen : Nat
  blockLen_lt : blockLen < 64

def kInitial : Sha1State := ⟨0x67452301, 0xEFCDAB89, 0x98BADCFE, 0x10325476, 0xC3D2E1F0⟩

/-- `sha1Init`, to a context on the stack with whatever the block holds. -/
def sha1Init (stack : Block 64) : Sha1 where
  state := kInitial
  bitCount := 0
  block := stack
  blockLen := 0
  blockLen_lt := by decide

namespace Sha1

/-- `block[blockLen] = b`. -/
def store (ctx : Sha1) (b : Byte) : Block 64 :=
  ⟨ctx.block.1.set ctx.blockLen b, by rw [List.length_set, ctx.block.2]⟩

/-- One turn of the loop of `sha1Update`. -/
def put (ctx : Sha1) (b : Byte) : Sha1 :=
  let block := ctx.store b
  if hfull : ctx.blockLen + 1 = 64 then
    ⟨sha1Transform ctx.state block.1, ctx.bitCount + 8, block, 0, by decide⟩
  else
    ⟨ctx.state, ctx.bitCount + 8, block, ctx.blockLen + 1, by
      have hlt := ctx.blockLen_lt
      omega⟩

end Sha1

def sha1Update (ctx : Sha1) (data : Bytes) : Sha1 := data.foldl Sha1.put ctx

/-- `while (blockLen != 56) sha1Update(&pad, 1)`; 64 turns always reach 56. -/
def padZeros : Nat → Sha1 → Sha1
  | 0, ctx => ctx
  | n + 1, ctx => if ctx.blockLen = 56 then ctx else padZeros n (sha1Update ctx [0x00])

/-- The captured bit count, big-endian. -/
def bitCountBytes (bits : UInt64) : Bytes :=
  (List.range 8).map fun i => (bits >>> UInt64.ofNat (56 - i * 8)).toUInt8

/-- `sha1Final`; the length goes into the block behind the back of `sha1Update`. -/
def sha1Final (ctx : Sha1) : Block 20 :=
  let bits := ctx.bitCount
  let padded := padZeros 64 (sha1Update ctx [0x80])
  let s := sha1Transform padded.state (memcpy padded.block.1 56 (bitCountBytes bits))
  let words := [s.a, s.b, s.c, s.d, s.e]
  ⟨(List.range 20).map fun i =>
    (words.getD (i / 4) 0 >>> UInt32.ofNat (24 - i % 4 * 8)).toUInt8, by simp⟩

/-! ## A context and the stream that it was fed -/

namespace Sha1

/-- The context has taken in a stream since `sha1Init`. -/
structure Fed (ctx : Sha1) (stream : Bytes) : Prop where
  state : ctx.state = compressAll sha1Transform 64 kInitial stream
  block : ctx.block.1.take ctx.blockLen = waiting 64 stream
  bitCount : ctx.bitCount = UInt64.ofNat stream.length * 8

variable {ctx : Sha1} {stream : Bytes}

theorem Fed.blockLen (h : ctx.Fed stream) : ctx.blockLen = stream.length % 64 := by
  have hlt := ctx.blockLen_lt
  rw [← length_waiting, ← h.block, List.length_take, ctx.block.2]
  omega

theorem init_fed (stack : Block 64) : (sha1Init stack).Fed [] :=
  ⟨(compressAll_of_lt (by decide) _).symm,
    (waiting_of_lt (by decide : ([] : Bytes).length < 64)).symm, rfl⟩

/-- The block up to the byte that was put there. -/
theorem take_store (ctx : Sha1) (b : Byte) :
    (ctx.store b).1.take (ctx.blockLen + 1) = ctx.block.1.take ctx.blockLen ++ [b] := by
  have hlt : ctx.blockLen < ctx.block.1.length := by
    rw [ctx.block.2]
    exact ctx.blockLen_lt
  change (ctx.block.1.set ctx.blockLen b).take (ctx.blockLen + 1) = _
  rw [set_eq_memcpy hlt]
  exact take_memcpy [b] hlt.le

theorem Fed.put (h : ctx.Fed stream) (b : Byte) : (ctx.put b).Fed (stream ++ [b]) := by
  have hstored := ctx.take_store b
  have hbits : ctx.bitCount + 8 = UInt64.ofNat (stream ++ [b]).length * 8 := by
    rw [h.bitCount, List.length_append, UInt64.ofNat_add, UInt64.add_mul]
    rfl
  have hlength : (waiting 64 stream ++ [b]).length = ctx.blockLen + 1 := by
    rw [List.length_append, length_waiting, h.blockLen]
    rfl
  rw [h.block] at hstored
  unfold Sha1.put
  by_cases hfull : ctx.blockLen + 1 = 64
  · have hwhole : (ctx.store b).1 = waiting 64 stream ++ [b] := by
      rw [← hstored, hfull, List.take_of_length_le (Nat.le_of_eq (ctx.store b).2)]
    have hblock := hlength.trans hfull
    rw [dif_pos hfull]
    refine ⟨?_, ?_, hbits⟩
    · rw [compressAll_append (by decide), ← h.state, compressAll_whole (by decide) hblock, hwhole]
    · rw [waiting_append (by decide), waiting_whole (by decide) hblock]
      rfl
  · have hlt : (waiting 64 stream ++ [b]).length < 64 := by
      have hroom := ctx.blockLen_lt
      omega
    rw [dif_neg hfull]
    refine ⟨?_, ?_, hbits⟩
    · rw [compressAll_append (by decide), ← h.state, compressAll_of_lt hlt]
    · rw [waiting_append (by decide), waiting_of_lt hlt]
      exact hstored

theorem Fed.update (h : ctx.Fed stream) (data : Bytes) :
    (sha1Update ctx data).Fed (stream ++ data) := by
  induction data generalizing ctx stream with
  | nil =>
      rw [List.append_nil]
      exact h
  | cons b data ih =>
      have hrest := ih (h.put b)
      rw [List.append_assoc] at hrest
      exact hrest

/-- The loop of `sha1Final` stops where only the length is missing. -/
theorem Fed.padZeros (h : ctx.Fed stream) {n : Nat} (hn : (120 - stream.length % 64) % 64 ≤ n) :
    (padZeros n ctx).Fed (stream ++ List.replicate ((120 - stream.length % 64) % 64) 0) := by
  have hlen := h.blockLen
  induction n generalizing ctx stream with
  | zero =>
      have hzero : (120 - stream.length % 64) % 64 = 0 := by omega
      rw [hzero, List.replicate_zero, List.append_nil]
      exact h
  | succ n ih =>
      unfold Ws.padZeros
      by_cases hdone : ctx.blockLen = 56
      · have hzero : (120 - stream.length % 64) % 64 = 0 := by omega
        rw [if_pos hdone, hzero, List.replicate_zero, List.append_nil]
        exact h
      · have hcount : (120 - stream.length % 64) % 64 =
            (120 - (stream ++ [0x00]).length % 64) % 64 + 1 := by
          rw [List.length_append, List.length_singleton]
          omega
        have hnext := h.update [0x00]
        have hrest := ih hnext (by omega) hnext.blockLen
        rw [List.append_assoc, List.singleton_append, ← List.replicate_succ, ← hcount] at hrest
        rw [if_neg hdone]
        exact hrest

end Sha1

/-! ## The standard's words -/

namespace Sha1State

/-- The standard's words. -/
def words (s : Sha1State) : SecureHash.Words5 := ⟨s.a, s.b, s.c, s.d, s.e⟩

end Sha1State

theorem scheduleWord_eq (M : Nat → UInt32) {i : Nat} (h : 16 ≤ i) :
    scheduleWord ((List.range i).map (SecureHash.Sha1.W M)) i = SecureHash.Sha1.W M i := by
  have hget : ∀ k, 1 ≤ k → k ≤ 16 → ((List.range i).map (SecureHash.Sha1.W M)).getD (i - k) 0 =
      SecureHash.Sha1.W M (i - k) := by
    intro k hpos hk
    have hlt : i - k < i := by omega
    simp [List.getD_eq_getElem?_getD, hlt]
  rw [scheduleWord, hget 3 (by decide) (by decide), hget 8 (by decide) (by decide),
    hget 14 (by decide) (by decide), hget 16 (by decide) (by decide), SecureHash.Sha1.W_of_ge h]
  rfl

/-- The loop's array holds the standard's schedule. -/
theorem schedule_eq (block : Bytes) :
    schedule block = (List.range 80).map (SecureHash.Sha1.W (blockWord block)) := by
  have hloop : ∀ n, (List.range n).foldl (fun w i => w ++ [scheduleWord w (i + 16)])
      ((List.range 16).map (blockWord block)) =
      (List.range (n + 16)).map (SecureHash.Sha1.W (blockWord block)) := by
    intro n
    induction n with
    | zero =>
        refine List.map_congr_left fun i hi => ?_
        rw [SecureHash.Sha1.W_of_lt (List.mem_range.mp hi)]
    | succ n ih =>
        rw [List.range_succ (n := n), List.foldl_append, ih, List.foldl_cons, List.foldl_nil,
          scheduleWord_eq _ (Nat.le_add_left 16 n), Nat.add_right_comm,
          List.range_succ (n := n + 16), List.map_append]
        rfl
  exact hloop 64

/-- A round picks the standard's function and constant. -/
theorem words_round (block : Bytes) (s : Sha1State) {i : Nat} (h : i < 80) :
    (round (schedule block) s i).words =
      SecureHash.Sha1.round (blockWord block) s.words i := by
  have hw : (schedule block).getD i 0 = SecureHash.Sha1.W (blockWord block) i := by
    rw [schedule_eq]
    simp [List.getD_eq_getElem?_getD, h]
  unfold round SecureHash.Sha1.round SecureHash.Sha1.f SecureHash.Sha1.K
  rw [hw]
  split_ifs
  · rw [SecureHash.ch_eq_or]
    rfl
  · rfl
  · rw [SecureHash.maj_eq_or]
    rfl
  · rfl

theorem words_transform (s : Sha1State) (block : Bytes) :
    (sha1Transform s block).words = SecureHash.Sha1.step s.words (blockWord block) := by
  have hrounds : ∀ n ≤ 80, ((List.range n).foldl (round (schedule block)) s).words =
      (List.range n).foldl (SecureHash.Sha1.round (blockWord block)) s.words := by
    intro n
    induction n with
    | zero => intro _; rfl
    | succ n ih =>
        intro hn
        rw [List.range_succ, List.foldl_append, List.foldl_append, List.foldl_cons,
          List.foldl_cons, List.foldl_nil, List.foldl_nil, words_round block _ (by omega),
          ih (by omega)]
  unfold SecureHash.Sha1.step
  rw [← hrounds 80 (le_refl 80)]
  simp only [sha1Transform, Sha1State.words, UInt32.add_comm]

theorem words_compressAll (s : Sha1State) (stream : Bytes) :
    (compressAll sha1Transform 64 s stream).words =
      compressAll (fun H block => SecureHash.Sha1.step H (SecureHash.word (bits block))) 64
        s.words stream := by
  refine compressAll_hom Sha1State.words s stream fun s block hblock => ?_
  rw [words_transform]
  refine SecureHash.Sha1.step_congr (fun t ht => ?_) s.words
  have hword : t * 4 + 4 ≤ block.length := by
    rw [hblock]
    omega
  exact (SecureHash.word_block hword).symm

/-! ## The digest -/

/-- The stream as it is compressed to the end. -/
def paddedStream (stream : Bytes) : Bytes :=
  stream ++ 0x80 :: List.replicate ((119 - stream.length % 64) % 64) 0 ++
    bitCountBytes (UInt64.ofNat stream.length * 8)

theorem bits_paddedStream (stream : Bytes) :
    bits (paddedStream stream) = SecureHash.pad (bits stream) := by
  refine SecureHash.bits_pad stream _ ?_
  unfold bitCountBytes
  rw [bits_word64, natBits_bitLength]

namespace Sha1

variable {ctx : Sha1} {stream : Bytes}

/-- The block that `sha1Final` compresses is the last of the padded stream. -/
theorem Fed.last_block (h : ctx.Fed stream) :
    sha1Transform (Ws.padZeros 64 (sha1Update ctx [0x80])).state
        (memcpy (Ws.padZeros 64 (sha1Update ctx [0x80])).block.1 56 (bitCountBytes ctx.bitCount)) =
      compressAll sha1Transform 64 kInitial (paddedStream stream) := by
  have hmarked := h.update [0x80]
  have hpadded := hmarked.padZeros (Nat.le_of_lt (Nat.mod_lt _ (by decide : 0 < 64)))
  have hzeros : (120 - (stream ++ [0x80]).length % 64) % 64 =
      (119 - stream.length % 64) % 64 := by
    rw [List.length_append, List.length_singleton]
    omega
  rw [hzeros] at hpadded
  have hlength : (bitCountBytes ctx.bitCount).length = 8 := by simp [bitCountBytes]
  have hlen : (Ws.padZeros 64 (sha1Update ctx [0x80])).blockLen = 56 := by
    rw [hpadded.blockLen]
    simp only [List.length_append, List.length_singleton, List.length_replicate]
    omega
  have hblock : memcpy (Ws.padZeros 64 (sha1Update ctx [0x80])).block.1 56
      (bitCountBytes ctx.bitCount) =
      waiting 64 (stream ++ [0x80] ++ List.replicate ((119 - stream.length % 64) % 64) 0) ++
        bitCountBytes ctx.bitCount := by
    rw [memcpy_to_end (by rw [Block.length_val, hlength]), ← hpadded.block, hlen]
  have hwhole : (waiting 64 (stream ++ [0x80] ++
      List.replicate ((119 - stream.length % 64) % 64) 0) ++
        bitCountBytes ctx.bitCount).length = 64 := by
    rw [← hblock, length_memcpy (by rw [Block.length_val, hlength]), Block.length_val]
  have hstream : paddedStream stream =
      stream ++ [0x80] ++ List.replicate ((119 - stream.length % 64) % 64) 0 ++
        bitCountBytes ctx.bitCount := by
    rw [h.bitCount, paddedStream]
    simp only [List.append_assoc, List.cons_append, List.nil_append]
  rw [hstream, compressAll_append (by decide), ← hpadded.state, hblock,
    compressAll_whole (by decide) hwhole]

theorem Fed.final (h : ctx.Fed stream) :
    (sha1Final ctx).1 = bytesOf (SecureHash.sha1 (bits stream)) := by
  have hdigest : ∀ s : Sha1State, bits ((List.range 20).map fun i =>
      ([s.a, s.b, s.c, s.d, s.e].getD (i / 4) 0 >>> UInt32.ofNat (24 - i % 4 * 8)).toUInt8) =
      (SecureHash.Sha1.words s.words).flatMap fun w => natBits 32 w.toNat := by
    intro s
    simp only [← bits_word]
    rfl
  rw [← bytesOf_bits (sha1Final ctx).1]
  refine congrArg bytesOf ?_
  unfold sha1Final
  dsimp only
  rw [hdigest, h.last_block, words_compressAll, SecureHash.sha1,
    SecureHash.digest_bits _ _ _ _ (bits_paddedStream stream)]
  rfl

end Sha1

end MatrixFaces.Api.Ws
