import MatrixFaces.ApiAuth.Sha256Memory
import MatrixFaces.Foundation.SecureHash

set_option autoImplicit false

/-!
# The hash and the MAC are the standard functions

The code's words against those of the standard: constants, message schedule, rounds,
padding and digest.  The standard's side is `Foundation.SecureHash`, over bit strings;
`standardSha256` is it over the bytes of a message.

The main result is `sha256_hmac_standard`.  An object that held anything before is reset and
fed a message in any pieces, and finishes with the standard digest; and the MAC that is made
with one object, used three times, is HMAC over that hash.

It is put together from three modules: `ApiAuth.Sha256Memory` takes the object in memory to
the context, `ApiAuth.Sha256Stream` the context to the whole message, and this one the
message's hash to the standard's.
-/

namespace MatrixFaces.ApiAuth

open MatrixFaces.Foundation

/-! ## Constants -/

/-- The table is the standard's list of cube roots. -/
theorem kK_eq : kK = (List.range 64).map SecureHash.Sha256.K := by decide +kernel

/-- A chaining value in the standard's words. -/
def HashState.words (s : HashState) : SecureHash.Words8 := ⟨s.a, s.b, s.c, s.d, s.e, s.f, s.g, s.h⟩

theorem initial_eq : SecureHash.Sha256.initial =
    ⟨0x6a09e667, 0xbb67ae85, 0x3c6ef372, 0xa54ff53a,
      0x510e527f, 0x9b05688c, 0x1f83d9ab, 0x5be0cd19⟩ := by decide +kernel

theorem reset_words : Sha256.reset.state.words = SecureHash.Sha256.initial := initial_eq.symm

/-! ## One block -/

/-- The words before `w[i]`, put into the standard's recurrence. -/
theorem scheduleWord_eq (M : Nat → UInt32) {i : Nat} (h : 16 ≤ i) :
    scheduleWord ((List.range i).map (SecureHash.Sha256.W M)) i = SecureHash.Sha256.W M i := by
  have hget : ∀ k, 1 ≤ k → k ≤ 16 → ((List.range i).map (SecureHash.Sha256.W M)).getD (i - k) 0 =
      SecureHash.Sha256.W M (i - k) := by
    intro k hpos hk
    have hlt : i - k < i := by omega
    simp [List.getD_eq_getElem?_getD, hlt]
  have hreverse : ∀ a b c d : UInt32, a + b + c + d = d + c + b + a := by
    intro a b c d
    rw [UInt32.add_comm, UInt32.add_comm (a + b) c, UInt32.add_comm a b, ← UInt32.add_assoc,
      ← UInt32.add_assoc]
  rw [scheduleWord, hget 15 (by decide) (by decide), hget 2 (by decide) (by decide),
    hget 16 (by decide) (by decide), hget 7 (by decide) (by decide),
    SecureHash.Sha256.W_of_ge h]
  exact hreverse _ _ _ _

/-- The loop's array holds the standard's schedule. -/
theorem schedule_eq (block : Bytes) :
    schedule block = (List.range 64).map (SecureHash.Sha256.W (blockWord block)) := by
  have hloop : ∀ n, (List.range n).foldl (fun w i => w ++ [scheduleWord w (i + 16)])
      ((List.range 16).map (blockWord block)) =
      (List.range (n + 16)).map (SecureHash.Sha256.W (blockWord block)) := by
    intro n
    induction n with
    | zero =>
        refine List.map_congr_left fun i hi => ?_
        rw [SecureHash.Sha256.W_of_lt (List.mem_range.mp hi)]
    | succ n ih =>
        rw [List.range_succ (n := n), List.foldl_append, ih, List.foldl_cons, List.foldl_nil,
          scheduleWord_eq _ (Nat.le_add_left 16 n), Nat.add_right_comm,
          List.range_succ (n := n + 16),
          List.map_append]
        rfl
  exact hloop 48

theorem words_round (M : Nat → UInt32) (s : HashState) (t : Nat) :
    (round s (SecureHash.Sha256.K t, SecureHash.Sha256.W M t)).words =
      SecureHash.Sha256.round M s.words t := rfl

theorem words_compress (s : HashState) (block : Bytes) :
    (compress s block).words = SecureHash.Sha256.step s.words (blockWord block) := by
  have hrounds : ((kK.zip (schedule block)).foldl round s).words =
      (List.range 64).foldl (SecureHash.Sha256.round (blockWord block)) s.words := by
    rw [kK_eq, schedule_eq, List.zip_map', List.foldl_map]
    exact (List.foldl_hom HashState.words fun s t => (words_round (blockWord block) s t).symm).symm
  rw [SecureHash.Sha256.step, ← hrounds]
  simp only [compress, HashState.words, UInt32.add_comm]

/-- Whole blocks of bytes, compressed by the code and by the standard. -/
theorem words_compressAll (s : HashState) (stream : Bytes) :
    (compressAll compress kBlockSize s stream).words =
      compressAll (fun H block => SecureHash.Sha256.step H (SecureHash.word (bits block)))
        kBlockSize s.words stream := by
  refine compressAll_hom HashState.words s stream fun s block hblock => ?_
  rw [words_compress]
  refine SecureHash.Sha256.step_congr (fun t ht => ?_) s.words
  have hword : t * 4 + 4 ≤ block.length := by
    rw [hblock, kBlockSize]
    omega
  exact (SecureHash.word_block hword).symm

/-! ## Words and lengths as bytes -/

theorem bits_wordBytes (w : UInt32) : bits (Sha256.wordBytes w) = natBits 32 w.toNat := by
  have hlast : w.toUInt8 = (w >>> UInt32.ofNat 0).toUInt8 := by simp
  rw [← bits_word, Sha256.wordBytes, hlast]
  rfl

theorem bits_lengthBytes (n : Nat) :
    bits (Sha256.lengthBytes (UInt64.ofNat n * 8)) = natBits 64 (n * 8) := by
  rw [Sha256.lengthBytes, bits_word64, natBits_bitLength]

/-- The digest is the standard's, byte for byte. -/
theorem digest_eq (message : Bytes) :
    (Sha256.digest (compressAll compress kBlockSize Sha256.reset.state (paddedStream message))).1 =
      bytesOf (SecureHash.sha256 (bits message)) := by
  have hpadded : bits (paddedStream message) = SecureHash.pad (bits message) :=
    SecureHash.bits_pad message _ (bits_lengthBytes message.length)
  have hbytes : ∀ s : HashState, bits (Sha256.digest s).1 =
      (SecureHash.Sha256.words s.words).flatMap fun w => natBits 32 w.toNat := by
    intro s
    simp only [Sha256.digest, bits_append, bits_wordBytes, List.append_assoc]
    rfl
  rw [← bytesOf_bits (Sha256.digest _).1, hbytes, words_compressAll, reset_words,
    SecureHash.sha256, SecureHash.digest_bits _ _ _ _ hpadded]
  rfl

/-! ## The functions -/

/-- SHA-256 of bytes. -/
def standardSha256 (message : Bytes) : Bytes := bytesOf (SecureHash.sha256 (bits message))

theorem hash_standard (data : Bytes) : (Sha256.hash data).1 = standardSha256 data := by
  rw [Sha256.hash_eq, digest_eq, standardSha256]

/-- A message in pieces leaves the context of the whole. -/
theorem fed_pieces {ctx : Sha256} {stream : Bytes} (h : ctx.Fed stream)
    (hbits : ctx.bitLength = UInt64.ofNat stream.length * 8) (pieces : List Bytes) :
    (pieces.foldl Sha256.update ctx).Fed (stream ++ pieces.flatten) ∧
      (pieces.foldl Sha256.update ctx).bitLength =
        UInt64.ofNat (stream ++ pieces.flatten).length * 8 := by
  induction pieces generalizing ctx stream with
  | nil =>
      rw [List.flatten_nil, List.append_nil]
      exact ⟨h, hbits⟩
  | cons piece rest ih =>
      have hlength : (ctx.update piece).bitLength =
          UInt64.ofNat (stream ++ piece).length * 8 := by
        rw [Sha256.update_bitLength, hbits, List.length_append, UInt64.ofNat_add, UInt64.add_mul]
      rw [List.foldl_cons, List.flatten_cons, ← List.append_assoc]
      exact ih (h.update piece) hlength

theorem hmac_standard (key message : Bytes) :
    (hmacSha256 key message).1 = SecureHash.hmac standardSha256 kBlockSize key message := by
  have hkey : hmacKeyBlock key =
      (if kBlockSize < key.length then standardSha256 key else key) ++ List.replicate
        (kBlockSize - (if kBlockSize < key.length then standardSha256 key else key).length) 0 := by
    simp only [hmacKeyBlock, hash_standard, gt_iff_lt]
  rw [hmacSha256_eq, hash_standard, hash_standard, hkey, SecureHash.hmac]

/-- Whatever the object held before, `reset`, any cut of a message into `update`s and
`finish` give the standard digest of the message; the MAC made with one object is HMAC
over that hash. -/
theorem sha256_hmac_standard :
    (∀ (ctx : Sha256.Memory) (pieces : List Bytes),
      (pieces.foldl Sha256.Memory.update ctx.reset).finish.2.1 = standardSha256 pieces.flatten) ∧
    (∀ (stack : Sha256.Memory) (key message : Bytes),
      (hmacSha256Reusing stack key message).1 =
        SecureHash.hmac standardSha256 kBlockSize key message) := by
  constructor
  · intro ctx pieces
    obtain ⟨hfed, hbits⟩ := fed_pieces Sha256.reset_fed rfl pieces
    rw [List.nil_append] at hfed hbits
    rw [Sha256.Memory.finish_eq, Sha256.Memory.view_pieces, Sha256.Memory.view_reset,
      hfed.finish hbits, digest_eq, standardSha256]
  · intro stack key message
    rw [hmacSha256Reusing_eq, hmac_standard]

end MatrixFaces.ApiAuth
