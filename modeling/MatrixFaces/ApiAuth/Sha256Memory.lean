import MatrixFaces.ApiAuth.Sha256Stream

set_option autoImplicit false

/-!
# The hashing object in memory (`lib/apiauth/sha256.h`, `sha256.cpp`, `hmac_sha256.cpp`)

The members of the class as they lie in memory: `buffer_` keeps the bytes of earlier
blocks behind `bufferLen_`, and `reset` leaves them there.  Every operation does to the
context what the context's own operation says.

`view` is the context that a memory holds.  `finish_eq`, `hash_eq` and
`hmacSha256Reusing_eq` are the operations that the rest of the firmware calls, each on memory
that held anything before.

`view` is the context that a memory holds.  `finish_eq`, `hash_eq` and `hmacSha256Reusing_eq`
are the operations that the rest of the firmware calls, each on memory that held anything
before.
-/

namespace MatrixFaces.ApiAuth

open MatrixFaces.Foundation

namespace Sha256

/-- The members of the class. -/
structure Memory where
  state : HashState
  bitLength : UInt64
  buffer : Block kBlockSize
  bufferLen : Nat
  bufferLen_lt : bufferLen < kBlockSize

namespace Memory

/-- `Sha256::reset`: the bytes of `buffer_` stay. -/
def reset (ctx : Memory) : Memory where
  state := ⟨0x6a09e667, 0xbb67ae85, 0x3c6ef372, 0xa54ff53a,
    0x510e527f, 0x9b05688c, 0x1f83d9ab, 0x5be0cd19⟩
  bitLength := 0
  buffer := ctx.buffer
  bufferLen := 0
  bufferLen_lt := by decide

/-- `memcpy(buffer + bufferLen, p, len)`. -/
def store (ctx : Memory) (p : Bytes) (h : ctx.bufferLen + p.length ≤ kBlockSize) :
    Block kBlockSize :=
  ⟨memcpy ctx.buffer.1 ctx.bufferLen p, by
    rw [length_memcpy (by rw [ctx.buffer.2]; exact h), ctx.buffer.2]⟩

/-- What is copied in one turn fits. -/
theorem take_fits (ctx : Memory) (p : Bytes) :
    ctx.bufferLen + (p.take (min p.length (kBlockSize - ctx.bufferLen))).length ≤
      kBlockSize := by
  have hlt := ctx.bufferLen_lt
  rw [List.length_take]
  omega

/-- The loop of `update`. -/
def absorb (ctx : Memory) (p : Bytes) : Memory :=
  if hdone : p.length = 0 then ctx
  else
    let room := kBlockSize - ctx.bufferLen
    let take := min p.length room
    let buffer := ctx.store (p.take take) (ctx.take_fits p)
    if hfull : ctx.bufferLen + take = kBlockSize then
      absorb ⟨compress ctx.state buffer.1, ctx.bitLength, buffer, 0, by decide⟩ (p.drop take)
    else
      absorb ⟨ctx.state, ctx.bitLength, buffer, ctx.bufferLen + take, by
        have hlt := ctx.bufferLen_lt
        omega⟩ (p.drop take)
termination_by p.length
decreasing_by
  all_goals
    have hlt := ctx.bufferLen_lt
    rw [List.length_drop]
    omega

/-- `Sha256::update`. -/
def update (ctx : Memory) (data : Bytes) : Memory :=
  absorb { ctx with bitLength := ctx.bitLength + UInt64.ofNat data.length * 8 } data

/-! ## The context that a memory holds -/

/-- The stale bytes forgotten. -/
def view (ctx : Memory) : Sha256 where
  state := ctx.state
  bitLength := ctx.bitLength
  buffer := ctx.buffer.1.take ctx.bufferLen
  buffer_lt := by
    have hlt := ctx.bufferLen_lt
    rw [List.length_take]
    omega

theorem length_view_buffer (ctx : Memory) : ctx.view.buffer.length = ctx.bufferLen := by
  have hlt := ctx.bufferLen_lt
  rw [view, List.length_take, ctx.buffer.2]
  omega

/-- The filled bytes of the buffer after one turn of the loop. -/
theorem take_store (ctx : Memory) (p : Bytes) (h : ctx.bufferLen + p.length ≤ kBlockSize) :
    (ctx.store p h).1.take (ctx.bufferLen + p.length) = ctx.view.buffer ++ p :=
  take_memcpy p (by rw [ctx.buffer.2]; omega)

/-- What fills the buffer leaves nothing stale. -/
theorem store_to_end (ctx : Memory) {p : Bytes} (h : ctx.bufferLen + p.length = kBlockSize) :
    (ctx.store p (Nat.le_of_eq h)).1 = ctx.view.buffer ++ p :=
  memcpy_to_end (by rw [ctx.buffer.2, h])

theorem view_reset (ctx : Memory) : ctx.reset.view = Sha256.reset := rfl

theorem view_absorb (ctx : Memory) (p : Bytes) : (ctx.absorb p).view = ctx.view.absorb p := by
  have hroom : ∀ (ctx : Memory) (p : Bytes),
      min p.length (kBlockSize - ctx.view.buffer.length) =
        min p.length (kBlockSize - ctx.bufferLen) := by
    intro ctx p
    rw [length_view_buffer]
  have hlength : ∀ (ctx : Memory) (p : Bytes),
      (p.take (min p.length (kBlockSize - ctx.bufferLen))).length =
        min p.length (kBlockSize - ctx.bufferLen) := by
    intro ctx p
    rw [List.length_take]
    omega
  induction ctx, p using absorb.induct with
  | case1 ctx p hdone =>
      have hnil := List.eq_nil_of_length_eq_zero hdone
      rw [absorb, dif_pos hdone, Sha256.absorb, dif_pos hnil]
  | case2 ctx p hdone room take buffer hfull ih =>
      have hne : p ≠ [] := fun h => hdone (by rw [h]; rfl)
      have hfilled : (ctx.view.buffer ++ p.take take).length = kBlockSize := by
        rw [List.length_append, length_view_buffer, hlength, hfull]
      have hbuffer : buffer.1 = ctx.view.buffer ++ p.take take :=
        ctx.store_to_end (by rw [hlength]; exact hfull)
      rw [absorb, dif_neg hdone, dif_pos hfull, ih, Sha256.absorb.eq_def ctx.view p, dif_neg hne]
      simp only [hroom]
      rw [dif_pos hfilled, ← hbuffer]
      rfl
  | case3 ctx p hdone room take buffer hfull ih =>
      have hne : p ≠ [] := fun h => hdone (by rw [h]; rfl)
      have hfilled : (ctx.view.buffer ++ p.take take).length ≠ kBlockSize := by
        rw [List.length_append, length_view_buffer, hlength]
        exact hfull
      have hbuffer : buffer.1.take (ctx.bufferLen + take) = ctx.view.buffer ++ p.take take := by
        rw [← take_store ctx (p.take take) (ctx.take_fits p), hlength]
      rw [absorb, dif_neg hdone, dif_neg hfull, ih, Sha256.absorb.eq_def ctx.view p, dif_neg hne]
      simp only [hroom]
      rw [dif_neg hfilled]
      simp only [view, hbuffer]
      rfl

theorem view_update (ctx : Memory) (data : Bytes) : (ctx.update data).view = ctx.view.update data :=
  view_absorb _ data

theorem bufferLen_update (ctx : Memory) (data : Bytes) :
    (ctx.update data).bufferLen = (ctx.bufferLen + data.length) % kBlockSize := by
  have hbuffer := (absorb_spec { ctx.view with
    bitLength := ctx.view.bitLength + UInt64.ofNat data.length * 8 } data).2
  rw [← length_view_buffer, view_update, Sha256.update, hbuffer, length_waiting,
    List.length_append, length_view_buffer]

/-! ## The end of a message -/

/-- `while (bufferLen != 56) update(&zero, 1)`. -/
def padZeros (ctx : Memory) : Memory :=
  if ctx.bufferLen = 56 then ctx else padZeros (ctx.update [0x00])
termination_by (120 - ctx.bufferLen) % kBlockSize
decreasing_by
  have hlt := ctx.bufferLen_lt
  rw [bufferLen_update, List.length_singleton]
  rw [kBlockSize] at *
  omega

theorem bufferLen_padZeros (ctx : Memory) : ctx.padZeros.bufferLen = 56 := by
  induction ctx using padZeros.induct with
  | case1 ctx hdone => rw [padZeros, if_pos hdone]; exact hdone
  | case2 ctx hmore ih => rw [padZeros, if_neg hmore]; exact ih

/-- `Sha256::finish`: the object after it and the digest. -/
def finish (ctx : Memory) : Memory × Block kDigestSize :=
  let bits := ctx.bitLength
  let padded := (ctx.update [0x80]).padZeros
  let buffer := padded.store (lengthBytes bits) (by rw [bufferLen_padZeros]; rfl)
  let state := compress padded.state buffer.1
  (⟨state, padded.bitLength, buffer, 0, by decide⟩,
    ⟨wordBytes state.a ++ wordBytes state.b ++ wordBytes state.c ++ wordBytes state.d ++
      wordBytes state.e ++ wordBytes state.f ++ wordBytes state.g ++ wordBytes state.h, rfl⟩)

/-- `Sha256::hash`, its `ctx` made from whatever the stack held. -/
def hash (stack : Memory) (data : Bytes) : Block kDigestSize := (stack.reset.update data).finish.2

theorem view_padZeros (ctx : Memory) {n : Nat} (hn : (120 - ctx.bufferLen) % kBlockSize ≤ n) :
    ctx.padZeros.view = Sha256.padZeros n ctx.view := by
  induction n generalizing ctx with
  | zero =>
      have hlt := ctx.bufferLen_lt
      have hdone : ctx.bufferLen = 56 := by
        rw [kBlockSize] at *
        omega
      rw [padZeros, if_pos hdone, Sha256.padZeros]
  | succ n ih =>
      rw [padZeros, Sha256.padZeros, length_view_buffer]
      split
      · rfl
      · rename_i hmore
        have hlt := ctx.bufferLen_lt
        have hnext : (120 - (ctx.update [0x00]).bufferLen) % kBlockSize ≤ n := by
          rw [bufferLen_update, List.length_singleton]
          rw [kBlockSize] at *
          omega
        rw [ih _ hnext, view_update]

/-- The digest is that of the context. -/
theorem finish_eq (ctx : Memory) : ctx.finish.2 = ctx.view.finish := by
  have hlength : (ctx.update [0x80]).padZeros.bufferLen +
      (lengthBytes ctx.bitLength).length = kBlockSize := by
    rw [bufferLen_padZeros]
    rfl
  have hfuel : (120 - (ctx.update [0x80]).bufferLen) % kBlockSize ≤ kBlockSize :=
    Nat.le_of_lt (Nat.mod_lt _ (by decide))
  have hmemory : ctx.finish.2 = digest (compress (ctx.update [0x80]).padZeros.state
      ((ctx.update [0x80]).padZeros.store (lengthBytes ctx.bitLength)
        (Nat.le_of_eq hlength)).1) := rfl
  have hcontext : ctx.view.finish = digest (compress
      (Sha256.padZeros kBlockSize (ctx.view.update [0x80])).state
      ((Sha256.padZeros kBlockSize (ctx.view.update [0x80])).buffer ++
        lengthBytes ctx.bitLength)) := rfl
  rw [hmemory, hcontext, store_to_end _ hlength, ← view_update, ← view_padZeros _ hfuel]
  rfl

theorem hash_eq (stack : Memory) (data : Bytes) : stack.hash data = Sha256.hash data := by
  rw [hash, finish_eq, view_update, view_reset, Sha256.hash]

/-- A context fed a message in pieces. -/
theorem view_pieces (ctx : Memory) (pieces : List Bytes) :
    (pieces.foldl update ctx).view = pieces.foldl Sha256.update ctx.view := by
  induction pieces generalizing ctx with
  | nil => rfl
  | cons piece rest ih => rw [List.foldl_cons, List.foldl_cons, ih, view_update]

end Memory

end Sha256

/-- `hmacSha256`: `ctx` is reset and fed again after it gave the inner digest. -/
def hmacSha256Reusing (stack : Sha256.Memory) (key message : Bytes) : Block kDigestSize :=
  let zeros := List.replicate kBlockSize 0
  let block :=
    if key.length > kBlockSize then memcpy zeros 0 (stack.hash key).1 else memcpy zeros 0 key
  let ctx := (stack.reset.update (block.map (· ^^^ 0x36))).update message
  let (ctx, inner) := ctx.finish
  ((ctx.reset.update (block.map (· ^^^ 0x5c))).update inner.1).finish.2

/-- The key block as the two copies leave it. -/
theorem memcpy_zeros (short : Bytes) :
    memcpy (List.replicate kBlockSize 0) 0 short =
      short ++ List.replicate (kBlockSize - short.length) 0 := by
  rw [memcpy, List.take_zero, List.nil_append, Nat.zero_add, List.drop_replicate]

theorem hmacSha256Reusing_eq (stack : Sha256.Memory) (key message : Bytes) :
    hmacSha256Reusing stack key message = hmacSha256 key message := by
  have hblock : (if key.length > kBlockSize then
      memcpy (List.replicate kBlockSize 0) 0 (stack.hash key).1
      else memcpy (List.replicate kBlockSize 0) 0 key) = hmacKeyBlock key := by
    rw [hmacKeyBlock]
    split
    · rw [memcpy_zeros, stack.hash_eq]
    · exact memcpy_zeros key
  unfold hmacSha256Reusing hmacSha256
  simp only [hblock, Sha256.Memory.finish_eq, Sha256.Memory.view_update, Sha256.Memory.view_reset]

end MatrixFaces.ApiAuth
