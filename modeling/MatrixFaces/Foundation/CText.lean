import Mathlib.Algebra.Group.Int.Defs
import MatrixFaces.Foundation.Bytes

set_option autoImplicit false

/-!
# C's text functions

A pointer into a text is the list of the bytes from it on, up to the end of the
scope it is used in.  `long` has 32 bits.

`strstr` answers the text from the first occurrence on, `strtol` a number and the text behind
it, or nothing if there are no digits; a number that has no room is the limit on its side.
`strstr_take` and `strstr_append` say what is found in a longer and in a shorter text.
-/

namespace MatrixFaces.Foundation

abbrev chTab : Byte := 0x09
abbrev chSpace : Byte := 0x20
abbrev chQuote : Byte := 0x22
abbrev chComma : Byte := 0x2C
abbrev chColon : Byte := 0x3A
abbrev chBackslash : Byte := 0x5C
abbrev chOpen : Byte := 0x7B
abbrev chClose : Byte := 0x7D

/-! ## `strstr` -/

/-- `strstr`: the text from the first occurrence of the needle on; a NUL ends the search. -/
def strstr (needle : Bytes) : Bytes → Option Bytes
  | [] => if needle = [] then some [] else none
  | c :: rest =>
      if needle <+: c :: rest then some (c :: rest)
      else if c = 0 then none
      else strstr needle rest

/-- What is found is a later part of the text, and starts with the needle. -/
theorem strstr_eq_some {needle text found : Bytes} (h : strstr needle text = some found) :
    found <:+ text ∧ needle <+: found := by
  induction text with
  | nil =>
      rw [strstr] at h
      split at h
      · next hempty =>
          cases h
          exact ⟨List.suffix_rfl, hempty ▸ List.nil_prefix⟩
      · cases h
  | cons c rest ih =>
      rw [strstr] at h
      split at h
      · cases h
        exact ⟨List.suffix_rfl, ‹_›⟩
      · split at h
        · cases h
        · exact ⟨(ih h).1.trans (List.suffix_cons c rest), (ih h).2⟩

/-- What was found is found at the same place when more text follows. -/
theorem strstr_append {needle text found : Bytes} (more : Bytes)
    (h : strstr needle text = some found) :
    strstr needle (text ++ more) = some (found ++ more) := by
  induction text with
  | nil =>
      rw [strstr] at h
      split at h
      · rename_i hneedle
        cases h
        subst hneedle
        cases more <;> simp [strstr]
      · cases h
  | cons c rest ih =>
      rw [strstr] at h
      rw [List.cons_append, strstr]
      split at h
      · rename_i hprefix
        cases h
        have hlong : needle <+: c :: (rest ++ more) :=
          hprefix.trans (List.prefix_append (c :: rest) more)
        rw [if_pos hlong]
        rfl
      · rename_i hprefix
        split at h
        · cases h
        · rename_i hzero
          have hrest := ih h
          obtain ⟨hsuffix, hneedle⟩ := strstr_eq_some h
          have hlength : needle.length ≤ (c :: rest).length :=
            hneedle.length_le.trans (hsuffix.length_le.trans (Nat.le_succ _))
          have hnot : ¬ needle <+: c :: (rest ++ more) := by
            intro hlong
            exact hprefix (List.prefix_of_prefix_length_le hlong
              (List.prefix_append (c :: rest) more) hlength)
          rw [if_neg hnot, if_neg hzero, hrest]

/-- A text cut off behind the needle still shows it. -/
theorem strstr_take {needle before found : Bytes} {n : Nat}
    (h : strstr needle (before ++ found) = some found)
    (hn : before.length + needle.length ≤ n) :
    strstr needle ((before ++ found).take n) = some (found.take (n - before.length)) := by
  induction before generalizing n with
  | nil =>
      simp only [List.nil_append, List.length_nil, Nat.zero_add, Nat.sub_zero] at h hn ⊢
      obtain ⟨_, hneedle⟩ := strstr_eq_some h
      have hfront : needle <+: found.take n := by
        rw [List.prefix_take_iff]
        exact ⟨hneedle, hn⟩
      cases hfound : found.take n with
      | nil =>
          rw [hfound, List.prefix_nil] at hfront
          rw [strstr, if_pos hfront]
      | cons c rest => rw [strstr, if_pos (hfound ▸ hfront)]
  | cons c before ih =>
      obtain ⟨n, rfl⟩ : ∃ m, n = m + 1 := ⟨n - 1, by simp only [List.length_cons] at hn; omega⟩
      simp only [List.cons_append, List.length_cons, List.take_succ_cons] at h hn ⊢
      rw [strstr] at h
      split at h
      · -- the needle cannot be in front of where it was found first
        have hlength := congrArg List.length (Option.some.inj h)
        simp only [List.length_cons, List.length_append] at hlength
        omega
      · rename_i hprefix
        split at h
        · cases h
        · rename_i hzero
          have hnot : ¬ needle <+: c :: (before ++ found).take n := by
            intro hfront
            refine hprefix (hfront.trans ?_)
            exact (List.prefix_cons_inj c).mpr (List.take_prefix _ _)
          rw [strstr, if_neg hnot, if_neg hzero, ih h (by omega)]
          congr 2
          omega

/-! ## `strtol` -/

/-- `isspace` in the C locale. -/
def isSpace (c : Byte) : Bool := c = chSpace || (0x09 ≤ c && c ≤ 0x0D)

def isDigit (c : Byte) : Bool := 0x30 ≤ c && c ≤ 0x39

def LONG_MAX : Int := 2 ^ 31 - 1
def LONG_MIN : Int := -2 ^ 31

/-- The number a run of digits writes. -/
def digitsValue (digits : Bytes) : Nat :=
  digits.foldl (fun value c => value * 10 + (c.toNat - 0x30)) 0

/-- The sign at the front, and what follows it. -/
def readSign : Bytes → Int × Bytes
  | [] => (1, [])
  | c :: rest => if c = 0x2D then (-1, rest) else if c = 0x2B then (1, rest) else (1, c :: rest)

/-- `strtol` to base 10: the number and `end`, or `none` where nothing was converted. -/
def strtol (text : Bytes) : Option (Int × Bytes) :=
  let signed := readSign (text.dropWhile isSpace)
  let digits := signed.2.takeWhile isDigit
  if digits = [] then none
  else
    some (max LONG_MIN (min LONG_MAX (signed.1 * digitsValue digits)), signed.2.dropWhile isDigit)

end MatrixFaces.Foundation
