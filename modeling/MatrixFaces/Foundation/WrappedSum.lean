import Mathlib.Algebra.BigOperators.Group.List.Basic
import Mathlib.Data.Nat.ModEq

set_option autoImplicit false

/-!
# Sums in a word

A sum kept in 32 bits, and the mean read from it.

`toNat_foldl_add` is the sum in the word modulo `2 ^ 32`.  `wrapped_mean_iff` says when the mean
read from it is the mean of the values: exactly while their sum is below `2 ^ 32`, for fewer
than `2 ^ 32` of them.
-/

namespace MatrixFaces.Foundation

/-- The values of some words. -/
def values (words : List UInt32) : List Nat := words.map UInt32.toNat

/-- The arithmetic mean, rounded down; nothing has mean zero. -/
def mean (words : List UInt32) : Nat := (values words).sum / words.length

/-- The largest value, zero if there is none. -/
def highest (words : List UInt32) : Nat := (values words).foldl max 0

@[simp] theorem length_values (words : List UInt32) : (values words).length = words.length :=
  List.length_map _

@[simp] theorem values_cons (word : UInt32) (rest : List UInt32) :
    values (word :: rest) = word.toNat :: values rest := rfl

@[simp] theorem mean_nil : mean [] = 0 := rfl

/-- The same word again and again. -/
theorem sum_values_replicate (n : Nat) (word : UInt32) :
    (values (List.replicate n word)).sum = n * word.toNat := by
  rw [values, List.map_replicate, List.sum_replicate_nat]

/-- A sum kept in a word is the sum of the values, modulo the range of the word. -/
theorem toNat_foldl_add (words : List UInt32) (start : UInt32) :
    (words.foldl (· + ·) start).toNat = (start.toNat + (values words).sum) % 2 ^ 32 := by
  induction words generalizing start with
  | nil => exact (Nat.mod_eq_of_lt start.toNat_lt).symm
  | cons word rest ih =>
      rw [List.foldl_cons, ih, values_cons, List.sum_cons, UInt32.toNat_add, Nat.mod_add_mod,
        Nat.add_assoc]

theorem toNat_max (a b : UInt32) : (max a b).toNat = max a.toNat b.toNat := by
  change (if a ≤ b then b else a).toNat = _
  split
  · rename_i hle
    exact (Nat.max_eq_right (UInt32.le_iff_toNat_le.mp hle)).symm
  · rename_i hle
    rw [UInt32.le_iff_toNat_le] at hle
    exact (Nat.max_eq_left (Nat.le_of_not_le hle)).symm

/-- A maximum of words. -/
theorem toNat_foldl_max (words : List UInt32) (start : UInt32) :
    (words.foldl max start).toNat = (values words).foldl max start.toNat := by
  induction words generalizing start with
  | nil => rfl
  | cons word rest ih =>
      rw [List.foldl_cons, ih, toNat_max, values_cons, List.foldl_cons]

/-- A count kept in a word. -/
theorem toNat_count (n : Nat) (h : n < 2 ^ 32) : (UInt32.ofNat n).toNat = n := by
  rw [UInt32.toNat_ofNat_of_lt' h]

/-- Dividing what is left of a number after it went round takes another quotient, unless it
did not go round: the range is larger than the divisor. -/
theorem mod_div_eq_iff {total range n : Nat} (hpos : 0 < n) (hrange : n ≤ range) :
    total % range / n = total / n ↔ total < range := by
  constructor
  · intro heq
    by_contra hle
    have hround : total % range + n ≤ total := by
      have hsplit := Nat.mod_add_div total range
      have honce : range * 1 ≤ range * (total / range) :=
        Nat.mul_le_mul_left range (Nat.div_pos (Nat.le_of_not_lt hle) (by omega))
      omega
    have hmore : total % range / n + 1 ≤ total / n := by
      rw [← Nat.add_div_right _ hpos]
      exact Nat.div_le_div_right hround
    omega
  · intro hlt
    rw [Nat.mod_eq_of_lt hlt]

/-- The mean read from a sum in a word is the mean exactly when the sum fits. -/
theorem wrapped_mean_iff {words : List UInt32} (h : words.length < 2 ^ 32) :
    (values words).sum % 2 ^ 32 / words.length = mean words ↔ (values words).sum < 2 ^ 32 := by
  cases words with
  | nil => exact iff_of_true rfl (by decide)
  | cons word rest => exact mod_div_eq_iff (Nat.succ_pos _) (Nat.le_of_lt h)

end MatrixFaces.Foundation
