import MatrixFaces.Foundation.Bytes

set_option autoImplicit false

/-!
# An address space

Cells by their address, runs of bytes written over them and read back.  Writing inside of
what was written before is writing once what comes of both.

`overwrite_overwrite` is the rule for writes one inside of the other, `overwrite_outside` and
`read_overwrite` say what is found beside a write and in it.  Nothing here has an end, so there
is no room to be out of.
-/

namespace MatrixFaces.Foundation

/-- What a byte-addressed memory holds. -/
abbrev AddressSpace := Nat → Byte

namespace AddressSpace

/-- The bytes written from `start` on. -/
def overwrite (space : AddressSpace) (start : Nat) (bytes : Bytes) : AddressSpace := fun a =>
  if start ≤ a then (bytes[a - start]?).getD (space a) else space a

/-- The `n` cells from `start` on. -/
def read (space : AddressSpace) (start n : Nat) : Bytes :=
  (List.range n).map fun i => space (start + i)

variable {space : AddressSpace} {start : Nat} {bytes : Bytes}

@[simp] theorem length_read (space : AddressSpace) (start n : Nat) :
    (space.read start n).length = n := by
  rw [read, List.length_map, List.length_range]

theorem read_congr {other : AddressSpace} {n : Nat}
    (h : ∀ a, start ≤ a → a < start + n → space a = other a) :
    space.read start n = other.read start n :=
  List.map_congr_left fun i hi =>
    h (start + i) (Nat.le_add_right _ _) (Nat.add_lt_add_left (List.mem_range.mp hi) start)

/-- Cells outside of the run are as they were. -/
theorem overwrite_outside {a : Nat} (h : a < start ∨ start + bytes.length ≤ a) :
    space.overwrite start bytes a = space a := by
  rw [overwrite]
  split
  · rw [List.getElem?_eq_none (by omega), Option.getD_none]
  · rfl

theorem overwrite_inside {i : Nat} (h : i < bytes.length) :
    space.overwrite start bytes (start + i) = bytes[i] := by
  rw [overwrite, if_pos (Nat.le_add_right _ _), Nat.add_sub_cancel_left,
    List.getElem?_eq_getElem h, Option.getD_some]

/-- The front of a run reads back as it was written. -/
theorem read_overwrite {n : Nat} (h : n ≤ bytes.length) :
    (space.overwrite start bytes).read start n = bytes.take n := by
  refine List.ext_getElem ?_ fun i hi hi' => ?_
  · rw [length_read, List.length_take, Nat.min_eq_left h]
  · rw [length_read] at hi
    rw [List.getElem_take]
    simp only [read, List.getElem_map, List.getElem_range]
    exact overwrite_inside (hi.trans_le h)

theorem getElem?_memcpy {dest src : Bytes} (h : start + src.length ≤ dest.length) (i : Nat) :
    (memcpy dest start src)[i]? =
      if start ≤ i ∧ i < start + src.length then src[i - start]? else dest[i]? := by
  have hfront : (dest.take start).length = start := by
    rw [List.length_take, Nat.min_eq_left (by omega)]
  rw [memcpy, List.append_assoc]
  by_cases hbefore : i < start
  · rw [List.getElem?_append_left (by rwa [hfront]), if_neg (by omega),
      List.getElem?_take_of_lt hbefore]
  · rw [List.getElem?_append_right (by rw [hfront]; omega), hfront]
    by_cases hinside : i < start + src.length
    · rw [List.getElem?_append_left (by omega), if_pos (by omega)]
    · rw [List.getElem?_append_right (by omega), if_neg (by omega), List.getElem?_drop]
      congr 1
      omega

/-- A run inside of another. -/
theorem overwrite_overwrite {offset : Nat} {inner : Bytes}
    (h : offset + inner.length ≤ bytes.length) :
    (space.overwrite start bytes).overwrite (start + offset) inner =
      space.overwrite start (memcpy bytes offset inner) := by
  funext a
  by_cases hbefore : a < start
  · rw [overwrite_outside (by omega), overwrite_outside (by omega), overwrite_outside (by omega)]
  · obtain ⟨i, rfl⟩ := Nat.exists_eq_add_of_le (Nat.le_of_not_lt hbefore)
    rw [overwrite, overwrite, overwrite, if_pos (Nat.le_add_right start i),
      if_pos (Nat.le_add_right start i), Nat.add_sub_cancel_left, getElem?_memcpy h]
    by_cases hinner : offset ≤ i
    · rw [if_pos (by omega), show start + i - (start + offset) = i - offset by omega]
      by_cases hinside : i < offset + inner.length
      · have hlt : i - offset < inner.length := by omega
        rw [if_pos ⟨hinner, hinside⟩, List.getElem?_eq_getElem hlt]
        rfl
      · have hle : inner.length ≤ i - offset := by omega
        rw [if_neg (by omega), List.getElem?_eq_none hle]
        rfl
    · rw [if_neg (by omega), if_neg (by omega)]

end AddressSpace

end MatrixFaces.Foundation
