import MatrixFaces.ApiAuth.Sha256
import MatrixFaces.Foundation.BlockStream

set_option autoImplicit false

/-!
# A hashing context and the stream it was fed

However `update` cut the stream, a context holds the chaining value of its whole blocks
and the bytes after them; `finish` compresses the padded stream.

`Fed` relates a context to its stream, over `Foundation.BlockStream`.  It holds of a new context
(`reset_fed`), each `update` appends its bytes (`Fed.update`), and the digest is that of the
padded stream (`Fed.finish`); `hash_eq` and `hmacSha256_eq` say so of whole messages.
-/

namespace MatrixFaces.ApiAuth

open MatrixFaces.Foundation

/-- The digest of a chaining value. -/
def Sha256.digest (s : HashState) : Block kDigestSize :=
  ⟨wordBytes s.a ++ wordBytes s.b ++ wordBytes s.c ++ wordBytes s.d ++
    wordBytes s.e ++ wordBytes s.f ++ wordBytes s.g ++ wordBytes s.h, rfl⟩

/-- The zeros between the marker and the bit length of a stream. -/
def zeroCount (streamLength : Nat) : Nat := (119 - streamLength % 64) % 64

/-- The stream as it is compressed to the end. -/
def paddedStream (stream : Bytes) : Bytes :=
  stream ++ 0x80 :: List.replicate (zeroCount stream.length) 0 ++
    Sha256.lengthBytes (UInt64.ofNat stream.length * 8)

namespace Sha256

/-- The context has taken in a stream since `reset`, padding and all. -/
structure Fed (ctx : Sha256) (stream : Bytes) : Prop where
  state : ctx.state = compressAll compress kBlockSize reset.state stream
  buffer : ctx.buffer = waiting kBlockSize stream

theorem absorb_spec (ctx : Sha256) (data : Bytes) :
    (ctx.absorb data).state = compressAll compress kBlockSize ctx.state (ctx.buffer ++ data) ∧
      (ctx.absorb data).buffer = waiting kBlockSize (ctx.buffer ++ data) := by
  induction ctx, data using absorb.induct with
  | case1 ctx =>
      rw [absorb, dif_pos rfl, List.append_nil]
      exact ⟨(compressAll_of_lt ctx.buffer_lt _).symm, (waiting_of_lt ctx.buffer_lt).symm⟩
  | case2 ctx data hdone take filled hfull ih =>
      have hjoin : ctx.buffer ++ data = filled ++ data.drop take := by
        simp only [filled, List.append_assoc, List.take_append_drop]
      rw [absorb, dif_neg hdone, dif_pos hfull, hjoin, compressAll_block (by decide) hfull,
        waiting_block (by decide) hfull]
      exact ih
  | case3 ctx data hdone take filled hfull ih =>
      have hjoin : ctx.buffer ++ data = filled ++ data.drop take := by
        simp only [filled, List.append_assoc, List.take_append_drop]
      rw [absorb, dif_neg hdone, dif_neg hfull, hjoin]
      exact ih

theorem absorb_bitLength (ctx : Sha256) (data : Bytes) :
    (ctx.absorb data).bitLength = ctx.bitLength := by
  induction ctx, data using absorb.induct with
  | case1 ctx => rw [absorb, dif_pos rfl]
  | case2 ctx data hdone take filled hfull ih =>
      rw [absorb, dif_neg hdone, dif_pos hfull]
      exact ih
  | case3 ctx data hdone take filled hfull ih =>
      rw [absorb, dif_neg hdone, dif_neg hfull]
      exact ih

theorem reset_fed : reset.Fed [] :=
  ⟨(compressAll_of_lt (by decide) _).symm, (waiting_of_lt (by decide)).symm⟩

theorem Fed.update {ctx : Sha256} {stream : Bytes} (h : ctx.Fed stream) (data : Bytes) :
    (ctx.update data).Fed (stream ++ data) := by
  obtain ⟨hstate, hbuffer⟩ :=
    absorb_spec { ctx with bitLength := ctx.bitLength + UInt64.ofNat data.length * 8 } data
  refine ⟨hstate.trans ?_, hbuffer.trans ?_⟩
  · rw [compressAll_append (by decide) reset.state stream data, ← h.state, ← h.buffer]
  · rw [waiting_append (by decide) stream data, ← h.buffer]

theorem update_bitLength (ctx : Sha256) (data : Bytes) :
    (ctx.update data).bitLength = ctx.bitLength + UInt64.ofNat data.length * 8 :=
  absorb_bitLength _ data

/-- The loop of `finish` stops at the first multiple of the block size less eight. -/
theorem Fed.padZeros {ctx : Sha256} {stream : Bytes} (h : ctx.Fed stream) {n : Nat}
    (hn : (120 - stream.length % 64) % 64 ≤ n) :
    (padZeros n ctx).Fed (stream ++ List.replicate ((120 - stream.length % 64) % 64) 0) := by
  have hbuffer : ctx.buffer.length = stream.length % 64 := by
    rw [h.buffer, length_waiting, kBlockSize]
  induction n generalizing ctx stream with
  | zero =>
      have hzero : (120 - stream.length % 64) % 64 = 0 := by omega
      rw [hzero, List.replicate_zero, List.append_nil]
      exact h
  | succ n ih =>
      rw [Sha256.padZeros]
      split
      · rename_i hdone
        have hzero : (120 - stream.length % 64) % 64 = 0 := by omega
        rw [hzero, List.replicate_zero, List.append_nil]
        exact h
      · rename_i hmore
        have hcount : (120 - stream.length % 64) % 64 =
            (120 - (stream ++ [0x00]).length % 64) % 64 + 1 := by
          rw [List.length_append, List.length_singleton]
          omega
        have hnext := h.update [0x00]
        have hlength : (ctx.update [0x00]).buffer.length = (stream ++ [0x00]).length % 64 := by
          rw [hnext.buffer, length_waiting, kBlockSize]
        have hdone := ih hnext (by omega) hlength
        rw [List.append_assoc, List.singleton_append, ← List.replicate_succ, ← hcount] at hdone
        exact hdone

/-- What `finish` answers depends on the stream alone. -/
theorem Fed.finish {ctx : Sha256} {stream : Bytes} (h : ctx.Fed stream)
    (hbits : ctx.bitLength = UInt64.ofNat stream.length * 8) :
    ctx.finish = digest (compressAll compress kBlockSize reset.state (paddedStream stream)) := by
  have hmarked : (ctx.update [0x80]).Fed (stream ++ [0x80]) := h.update [0x80]
  have hpadded := @Fed.padZeros _ _ hmarked kBlockSize (Nat.le_of_lt (Nat.mod_lt _ (by decide)))
  have hzeros : (120 - (stream ++ [0x80]).length % 64) % 64 = zeroCount stream.length := by
    rw [List.length_append, List.length_singleton, zeroCount]
    omega
  rw [hzeros] at hpadded
  have hblock : ((Sha256.padZeros kBlockSize (ctx.update [0x80])).buffer ++
      lengthBytes ctx.bitLength).length = kBlockSize := by
    have hlength : (lengthBytes ctx.bitLength).length = 8 := by simp [lengthBytes]
    rw [List.length_append, hlength, hpadded.buffer, length_waiting, kBlockSize]
    simp only [List.length_append, List.length_singleton, List.length_replicate, zeroCount]
    omega
  have hstream : paddedStream stream =
      stream ++ [0x80] ++ List.replicate (zeroCount stream.length) 0 ++
        lengthBytes ctx.bitLength := by
    rw [hbits, paddedStream]
    simp only [List.append_assoc, List.cons_append, List.nil_append]
  rw [hstream, compressAll_append (by decide), ← hpadded.state, ← hpadded.buffer,
    compressAll_whole (by decide) hblock]
  rfl

theorem hash_eq (data : Bytes) :
    hash data = digest (compressAll compress kBlockSize reset.state (paddedStream data)) :=
  (reset_fed.update data).finish ((update_bitLength reset data).trans (UInt64.zero_add _))

/-- A stream fed in two pieces has the hash of the whole. -/
theorem finish_update_update (front back : Bytes) :
    ((reset.update front).update back).finish = hash (front ++ back) := by
  rw [hash_eq, ((reset_fed.update front).update back).finish]
  · rfl
  · rw [update_bitLength, update_bitLength]
    simp [List.length_append, UInt64.ofNat_add, UInt64.add_mul, reset]

end Sha256

/-- HMAC by whole messages. -/
theorem hmacSha256_eq (key message : Bytes) :
    hmacSha256 key message =
      Sha256.hash ((hmacKeyBlock key).map (· ^^^ 0x5c) ++
        (Sha256.hash ((hmacKeyBlock key).map (· ^^^ 0x36) ++ message)).1) := by
  simp only [hmacSha256, Sha256.finish_update_update]

end MatrixFaces.ApiAuth
