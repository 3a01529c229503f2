import Mathlib.Algebra.Group.Nat.Defs
import Mathlib.Data.List.TakeWhile
import Mathlib.Data.List.Induction

set_option autoImplicit false

/-!
# Bytes, fixed-size blocks and NUL-terminated strings

`memcpy` writes a run of bytes into a buffer that keeps its length, and `cstring` is a text up
to its first NUL.  `HoldsText` says that a buffer holds a text with its terminator, which is
what callers ask of the functions that write one.

`Block n` is `n` bytes, for keys and identifiers whose length is part of their type.
-/

namespace MatrixFaces.Foundation

abbrev Byte := UInt8

abbrev Bytes := List Byte

/-- The bytes of an ASCII literal. -/
def ascii (text : String) : Bytes := text.toList.map fun c => UInt8.ofNat c.toNat

/-- A property checked at all 256 byte values holds of every byte. -/
theorem byte_forall {P : Byte → Prop} (h : ∀ n : Fin 256, P (UInt8.ofNat n)) (b : Byte) : P b := by
  simpa using h ⟨b.toNat, b.toNat_lt⟩

/-- A property checked at every byte of a text. -/
theorem forall_mem_of_all {P : Byte → Prop} [DecidablePred P] {text : Bytes}
    (h : text.all (fun c => P c) = true) : ∀ c ∈ text, P c := by
  intro c hc
  simpa using List.all_eq_true.mp h c hc

/-- A byte array of fixed size. -/
abbrev Block (n : Nat) := { bytes : Bytes // bytes.length = n }

namespace Block

/-- A zero-filled array. -/
def zero (n : Nat) : Block n := ⟨List.replicate n 0, List.length_replicate⟩

/-- The array read from the front of `bytes`. -/
def ofBytes (n : Nat) (bytes : Bytes) : Block n :=
  ⟨(bytes ++ List.replicate n 0).take n, by
    rw [List.length_take, List.length_append, List.length_replicate]
    omega⟩

theorem ofBytes_append {n : Nat} (block : Block n) (rest : Bytes) :
    ofBytes n (block.1 ++ rest) = block := by
  refine Subtype.ext ?_
  change (block.1 ++ rest ++ List.replicate n 0).take n = block.1
  rw [List.append_assoc]
  exact List.take_left' block.2

@[simp] theorem length_val {n : Nat} (block : Block n) : block.1.length = n := block.2

end Block

/-- `memcpy(dest + start, src, n)` where `src` holds the `n` bytes. -/
def memcpy (dest : Bytes) (start : Nat) (src : Bytes) : Bytes :=
  dest.take start ++ src ++ dest.drop (start + src.length)

theorem length_memcpy {dest src : Bytes} {start : Nat} (h : start + src.length ≤ dest.length) :
    (memcpy dest start src).length = dest.length := by
  simp only [memcpy, List.length_append, List.length_take, List.length_drop]
  omega

/-- Up to the end of what was written. -/
theorem take_memcpy {dest : Bytes} {start : Nat} (src : Bytes) (h : start ≤ dest.length) :
    (memcpy dest start src).take (start + src.length) = dest.take start ++ src := by
  rw [memcpy]
  refine List.take_left' ?_
  rw [List.length_append, List.length_take, Nat.min_eq_left h]

/-- What was written. -/
theorem drop_take_memcpy {dest : Bytes} {start : Nat} (src : Bytes) (h : start ≤ dest.length) :
    ((memcpy dest start src).drop start).take src.length = src := by
  have hfront : (dest.take start).length = start := by
    rw [List.length_take, Nat.min_eq_left h]
  rw [memcpy, List.append_assoc, List.drop_left' hfront, List.take_left]

/-- Behind what was written. -/
theorem drop_memcpy {dest : Bytes} {start : Nat} (src : Bytes) (h : start ≤ dest.length) :
    (memcpy dest start src).drop (start + src.length) = dest.drop (start + src.length) := by
  rw [memcpy]
  refine List.drop_left' ?_
  rw [List.length_append, List.length_take, Nat.min_eq_left h]

@[simp] theorem memcpy_nil (dest : Bytes) (start : Nat) : memcpy dest start [] = dest := by
  rw [memcpy, List.append_nil, List.length_nil, Nat.add_zero, List.take_append_drop]

/-- Writing up to the end leaves nothing of what was behind. -/
theorem memcpy_to_end {dest src : Bytes} {start : Nat} (h : dest.length = start + src.length) :
    memcpy dest start src = dest.take start ++ src := by
  rw [memcpy, List.drop_eq_nil_of_le (Nat.le_of_eq h), List.append_nil]

/-- A single byte, by its index. -/
theorem set_eq_memcpy {dest : Bytes} {start : Nat} (h : start < dest.length) (b : Byte) :
    dest.set start b = memcpy dest start [b] := by
  rw [List.set_eq_take_append_cons_drop, if_pos h, memcpy, List.append_assoc]
  rfl

/-- One piece behind the other. -/
theorem memcpy_append {dest front : Bytes} {start : Nat} (back : Bytes)
    (h : start + front.length ≤ dest.length) :
    memcpy (memcpy dest start front) (start + front.length) back =
      memcpy dest start (front ++ back) := by
  have hfront : (dest.take start ++ front).length = start + front.length := by
    rw [List.length_append, List.length_take, Nat.min_eq_left (by omega)]
  have hback : (memcpy dest start front).drop (start + front.length + back.length) =
      dest.drop (start + (front ++ back).length) := by
    rw [memcpy, ← hfront, List.drop_length_add_append, List.drop_drop, hfront,
      List.length_append, Nat.add_assoc]
  rw [memcpy, hback, take_memcpy front (by omega), memcpy, List.append_assoc (dest.take start)]

/-- The first byte, and the others behind it. -/
theorem memcpy_set {dest : Bytes} {start : Nat} (h : start < dest.length) (b : Byte)
    (rest : Bytes) :
    memcpy (dest.set start b) (start + 1) rest = memcpy dest start (b :: rest) := by
  have happend := @memcpy_append dest [b] start rest h
  rwa [List.length_singleton, List.singleton_append, ← set_eq_memcpy h] at happend

/-- `dest[i] = b`, which has to be inside. -/
def store (dest : Bytes) (i : Nat) (b : Byte) : Option Bytes :=
  if i < dest.length then some (dest.set i b) else none

theorem store_eq {dest : Bytes} {i : Nat} (h : i < dest.length) (b : Byte) :
    store dest i b = some (memcpy dest i [b]) := by
  rw [store, if_pos h, set_eq_memcpy h]

/-- The length of an array copied out of the middle of `bytes`. -/
theorem length_take_drop {bytes : Bytes} {start n : Nat} (h : start + n ≤ bytes.length) :
    ((bytes.drop start).take n).length = n := by
  rw [List.length_take, List.length_drop]
  omega

/-- What is copied out of the middle does not depend on what follows. -/
theorem take_drop_append (bytes : Bytes) {start n : Nat} (more : Bytes)
    (h : start + n ≤ bytes.length) :
    ((bytes ++ more).drop start).take n = (bytes.drop start).take n := by
  rw [List.drop_append_of_le_length (by omega), List.take_append_of_le_length]
  rw [List.length_drop]
  omega

/-- A byte that is not there stops no scan for it. -/
theorem bne_of_not_mem {bytes : Bytes} {b : Byte} (h : b ∉ bytes) :
    ∀ c ∈ bytes, (c != b) = true := by
  intro c hc
  simp only [bne_iff_ne, ne_eq]
  rintro rfl
  exact h hc

/-- What stands in front of the first `b`. -/
theorem takeWhile_bne_append {front : Bytes} {b : Byte} (h : b ∉ front) (rest : Bytes) :
    (front ++ b :: rest).takeWhile (· != b) = front := by
  rw [List.takeWhile_append_of_pos (bne_of_not_mem h), List.takeWhile_cons_of_neg (by simp),
    List.append_nil]

/-- What starts with the first `b`. -/
theorem dropWhile_bne_append {front : Bytes} {b : Byte} (h : b ∉ front) (rest : Bytes) :
    (front ++ b :: rest).dropWhile (· != b) = b :: rest := by
  rw [List.dropWhile_append_of_pos (bne_of_not_mem h), List.dropWhile_cons_of_neg (by simp)]

theorem not_mem_behind {front rest : Bytes} {b c : Byte} (h : b ∉ front ++ c :: rest) :
    b ∉ rest :=
  fun hmem => h (List.mem_append_right _ (List.mem_cons_of_mem _ hmem))

/-- What does not contain a byte is a prefix of a text only in front of that byte. -/
theorem prefix_append_cons_iff {needle : Bytes} {b : Byte} (h : b ∉ needle) (more text : Bytes) :
    needle <+: text ++ b :: more ↔ needle <+: text := by
  refine ⟨fun hprefix => ?_, fun hprefix => hprefix.trans (List.prefix_append text _)⟩
  rcases List.prefix_or_prefix_of_prefix hprefix (List.prefix_append text (b :: more))
    with hle | hge
  · exact hle
  · obtain ⟨behind, rfl⟩ := hge
    rw [List.prefix_append_right_inj] at hprefix
    cases behind with
    | nil => simp
    | cons c behind =>
        obtain ⟨hc, -⟩ := List.cons_prefix_cons.mp hprefix
        exact absurd (List.mem_append_right text (hc ▸ List.mem_cons_self)) h

/-- Texts cut at the same byte have the same pieces. -/
theorem append_cons_inj {front front' rest rest' : Bytes} {b : Byte} (h : b ∉ front)
    (h' : b ∉ front') (heq : front ++ b :: rest = front' ++ b :: rest') :
    front = front' ∧ rest = rest' := by
  have hfront := congrArg (List.takeWhile (· != b)) heq
  rw [takeWhile_bne_append h, takeWhile_bne_append h'] at hfront
  subst hfront
  exact ⟨rfl, (List.cons.inj (List.append_cancel_left heq)).2⟩

/-- The characters of a NUL-terminated string stored at the front of `bytes`. -/
def cstring (bytes : Bytes) : Bytes := bytes.takeWhile (· != 0)

theorem zero_not_mem_cstring (bytes : Bytes) : (0 : Byte) ∉ cstring bytes := by
  intro h
  simpa using List.mem_takeWhile_imp h

theorem length_cstring_lt {bytes : Bytes} (h : (0 : Byte) ∈ bytes) :
    (cstring bytes).length < bytes.length := by
  refine Nat.lt_of_le_of_ne (List.takeWhile_prefix _).length_le fun heq => ?_
  have hwhole : cstring bytes = bytes := (List.takeWhile_prefix _).eq_of_length heq
  exact zero_not_mem_cstring bytes (by rwa [hwhole])

theorem cstring_of_not_mem {bytes : Bytes} (h : (0 : Byte) ∉ bytes) : cstring bytes = bytes := by
  rw [cstring, List.takeWhile_eq_self_iff]
  exact bne_of_not_mem h

theorem cstring_cons_of_ne {b : Byte} (h : b ≠ 0) (rest : Bytes) :
    cstring (b :: rest) = b :: cstring rest :=
  List.takeWhile_cons_of_pos (by simpa using h)

@[simp] theorem cstring_cstring (bytes : Bytes) : cstring (cstring bytes) = cstring bytes :=
  cstring_of_not_mem (zero_not_mem_cstring bytes)

/-- A terminator ends the string, whatever is behind it. -/
theorem cstring_append_zero {bytes : Bytes} (h : (0 : Byte) ∉ bytes) (rest : Bytes) :
    cstring (bytes ++ 0 :: rest) = bytes :=
  takeWhile_bne_append h rest

theorem cstring_append_of_not_mem {front : Bytes} (h : (0 : Byte) ∉ front) (rest : Bytes) :
    cstring (front ++ rest) = front ++ cstring rest :=
  List.takeWhile_append_of_pos (bne_of_not_mem h)

/-- A string that leaves room for its terminator is read back from its field whole. -/
theorem cstring_padded {bytes : Bytes} {cap : Nat} (hzero : (0 : Byte) ∉ bytes)
    (hfits : bytes.length < cap) :
    cstring ((bytes ++ List.replicate cap 0).take cap) = bytes := by
  obtain ⟨room, hroom⟩ : ∃ room, cap - bytes.length = room + 1 :=
    ⟨cap - bytes.length - 1, by omega⟩
  have hfield : (bytes ++ List.replicate cap 0).take cap = bytes ++ 0 :: List.replicate room 0 := by
    rw [List.take_append, List.take_of_length_le (Nat.le_of_lt hfits), List.take_replicate,
      Nat.min_eq_left (Nat.sub_le _ _), hroom, List.replicate_succ]
  rw [hfield]
  exact cstring_append_zero hzero _

/-! ## A buffer for a text -/

/-- The buffer holds the text and its terminator. -/
def HoldsText (out text : Bytes) : Prop := text ++ [0] <+: out

theorem holdsText_set_zero {out : Bytes} (h : 0 < out.length) : HoldsText (out.set 0 0) [] := by
  obtain ⟨first, rest, rfl⟩ := List.exists_cons_of_length_pos h
  exact ⟨rest, rfl⟩

/-- What is copied into a buffer with room for the terminator. -/
theorem holdsText_memcpy {text out : Bytes} (h : text.length < out.length) :
    HoldsText ((memcpy out 0 text).set text.length 0) text ∧
      ((memcpy out 0 text).set text.length 0).length = out.length := by
  have hlength := length_memcpy (show 0 + text.length ≤ out.length by omega)
  refine ⟨?_, by rw [List.length_set, hlength]⟩
  have happend := @memcpy_append out text 0 [0] (by omega)
  have hfront := @take_memcpy out 0 (text ++ [0]) (Nat.zero_le _)
  rw [Nat.zero_add] at happend
  rw [List.take_zero, List.nil_append] at hfront
  have hprefix := List.take_prefix (0 + (text ++ [0]).length) (memcpy out 0 (text ++ [0]))
  rw [hfront] at hprefix
  rw [set_eq_memcpy (by omega), happend]
  exact hprefix

/-- The characters of a buffer that holds a text. -/
theorem HoldsText.cstring_eq {out text : Bytes} (h : HoldsText out text)
    (hzero : (0 : Byte) ∉ text) : cstring out = text := by
  obtain ⟨rest, rfl⟩ := h
  rw [List.append_assoc]
  exact cstring_append_zero hzero rest

/-- What a function did with its buffer: it wrote the text that it found, or nothing. -/
structure Wrote (result : Bool × Bytes) (found : Option Bytes) (cap : Nat) : Prop where
  answer : result.1 = found.isSome
  holds : HoldsText result.2 (found.getD [])
  length : result.2.length = cap

end MatrixFaces.Foundation
