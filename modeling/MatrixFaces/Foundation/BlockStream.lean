import Mathlib.Data.List.Basic

set_option autoImplicit false

/-!
# Streams cut into blocks

A compression function is fed a stream block by block; what does not fill a block waits.
Feeding the stream in pieces, the waiting part in front of the next piece, compresses the
same blocks as feeding it whole.

`compressAll` is what was compressed and `waiting` what was not; `compressAll_append` and
`waiting_append` are the rules for one more piece.  A block that fills up, and a piece of whole
blocks, are the cases `compressAll_block` and `compressAll_whole`.
-/

namespace MatrixFaces.Foundation

variable {State Item : Type} (compress : State → List Item → State) (size : Nat)

/-- The first `n` blocks of a stream, compressed in order. -/
def foldBlocks : Nat → State → List Item → State
  | 0, state, _ => state
  | n + 1, state, stream => foldBlocks n (compress state (stream.take size)) (stream.drop size)

/-- Every whole block of the stream, compressed in order. -/
def compressAll (state : State) (stream : List Item) : State :=
  foldBlocks compress size (stream.length / size) state stream

/-- What is left of the stream after its last whole block. -/
def waiting (stream : List Item) : List Item := stream.drop (stream.length / size * size)

variable {compress size}

theorem foldBlocks_add (m n : Nat) (state : State) (stream : List Item) :
    foldBlocks compress size (m + n) state stream =
      foldBlocks compress size n (foldBlocks compress size m state stream)
        (stream.drop (m * size)) := by
  induction m generalizing state stream with
  | zero => rw [Nat.zero_add, Nat.zero_mul, List.drop_zero, foldBlocks]
  | succ m ih =>
      rw [Nat.add_right_comm, foldBlocks, ih, foldBlocks, List.drop_drop]
      congr 2
      rw [Nat.succ_mul, Nat.add_comm]

/-- The blocks are found at the multiples of their size. -/
theorem foldBlocks_eq_foldl (n : Nat) (state : State) (stream : List Item) :
    foldBlocks compress size n state stream =
      (List.range n).foldl
        (fun state k => compress state ((stream.drop (k * size)).take size)) state := by
  induction n with
  | zero => rfl
  | succ n ih => rw [foldBlocks_add, ih, List.range_succ, List.foldl_append]; rfl

/-- Blocks that end inside the first piece do not see the second. -/
theorem foldBlocks_append {n : Nat} {front : List Item} (h : n * size ≤ front.length)
    (state : State) (back : List Item) :
    foldBlocks compress size n state (front ++ back) = foldBlocks compress size n state front := by
  induction n generalizing state front with
  | zero => rfl
  | succ n ih =>
      rw [Nat.succ_mul] at h
      have hfirst : size ≤ front.length := by omega
      rw [foldBlocks, foldBlocks, List.take_append_of_le_length hfirst,
        List.drop_append_of_le_length hfirst]
      exact ih (by rw [List.length_drop]; omega) _

/-- A second compression function that follows the first block by block. -/
theorem compressAll_hom {State' : Type} {compress' : State' → List Item → State'}
    (view : State → State') (state : State) (stream : List Item)
    (hstep : ∀ state block, block.length = size →
      view (compress state block) = compress' (view state) block) :
    view (compressAll compress size state stream) =
      compressAll compress' size (view state) stream := by
  have hblocks : ∀ (n : Nat) (state : State) (stream : List Item), n * size ≤ stream.length →
      view (foldBlocks compress size n state stream) =
        foldBlocks compress' size n (view state) stream := by
    intro n
    induction n with
    | zero => intro state stream _; rfl
    | succ n ih =>
        intro state stream h
        rw [Nat.succ_mul] at h
        have hfirst : (stream.take size).length = size := by
          rw [List.length_take]
          omega
        rw [foldBlocks, foldBlocks, ih _ _ (by rw [List.length_drop]; omega), hstep _ _ hfirst]
  exact hblocks _ _ _ (Nat.div_mul_le_self _ _)

theorem length_waiting (stream : List Item) :
    (waiting size stream).length = stream.length % size := by
  have hdiv := Nat.div_add_mod stream.length size
  rw [Nat.mul_comm] at hdiv
  rw [waiting, List.length_drop]
  omega

theorem compressAll_of_lt {stream : List Item} (h : stream.length < size) (state : State) :
    compressAll compress size state stream = state := by
  rw [compressAll, Nat.div_eq_of_lt h, foldBlocks]

theorem waiting_of_lt {stream : List Item} (h : stream.length < size) :
    waiting size stream = stream := by
  rw [waiting, Nat.div_eq_of_lt h, Nat.zero_mul, List.drop_zero]

/-- A whole block in front is compressed first. -/
theorem compressAll_block (hsize : 0 < size) {block : List Item} (h : block.length = size)
    (state : State) (more : List Item) :
    compressAll compress size state (block ++ more) =
      compressAll compress size (compress state block) more := by
  have hcount : (block ++ more).length / size = more.length / size + 1 := by
    rw [List.length_append, h, Nat.add_comm, Nat.add_div_right _ hsize]
  rw [compressAll, hcount, foldBlocks, ← h, List.take_left, List.drop_left, h, compressAll]

theorem waiting_block (hsize : 0 < size) {block : List Item} (h : block.length = size)
    (more : List Item) : waiting size (block ++ more) = waiting size more := by
  have hcount : (block ++ more).length / size = more.length / size + 1 := by
    rw [List.length_append, h, Nat.add_comm, Nat.add_div_right _ hsize]
  rw [waiting, hcount, Nat.succ_mul, Nat.add_comm, ← List.drop_drop]
  congr 1
  rw [← h, List.drop_left]

/-- A stream of one block. -/
theorem compressAll_whole (hsize : 0 < size) {block : List Item} (h : block.length = size)
    (state : State) : compressAll compress size state block = compress state block := by
  have hblock : compressAll compress size state (block ++ []) =
      compressAll compress size (compress state block) [] := compressAll_block hsize h state []
  rw [List.append_nil] at hblock
  exact hblock.trans (compressAll_of_lt hsize _)

theorem waiting_whole (hsize : 0 < size) {block : List Item} (h : block.length = size) :
    waiting size block = [] := by
  have hblock := waiting_block hsize h []
  rw [List.append_nil] at hblock
  exact hblock.trans (waiting_of_lt hsize)

/-- How many blocks a piece completes, the waiting part of the piece before in front. -/
theorem blocks_append (hsize : 0 < size) (front back : List Item) :
    (front ++ back).length / size =
      front.length / size + (waiting size front ++ back).length / size := by
  have hdiv := Nat.div_add_mod front.length size
  have hsum : (front ++ back).length =
      size * (front.length / size) + (waiting size front ++ back).length := by
    rw [List.length_append, List.length_append, length_waiting]
    omega
  rw [hsum, Nat.mul_add_div hsize]

theorem drop_blocks_append (front back : List Item) :
    (front ++ back).drop (front.length / size * size) = waiting size front ++ back :=
  List.drop_append_of_le_length (Nat.div_mul_le_self _ _)

/-- Feeding a stream in two pieces. -/
theorem compressAll_append (hsize : 0 < size) (state : State) (front back : List Item) :
    compressAll compress size state (front ++ back) =
      compressAll compress size (compressAll compress size state front)
        (waiting size front ++ back) := by
  rw [compressAll, blocks_append hsize, foldBlocks_add, drop_blocks_append,
    foldBlocks_append (Nat.div_mul_le_self _ _)]
  rfl

theorem waiting_append (hsize : 0 < size) (front back : List Item) :
    waiting size (front ++ back) = waiting size (waiting size front ++ back) := by
  rw [waiting, blocks_append hsize, Nat.add_mul, ← List.drop_drop, drop_blocks_append]
  rfl

end MatrixFaces.Foundation
