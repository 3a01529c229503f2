import Mathlib.Data.List.Forall2
import MatrixFaces.Foundation.Bytes

set_option autoImplicit false

/-!
# Hexadecimal (`lib/apiauth/hex.cpp`)

`Spells` says which texts denote which bytes, in either case of the letters;
`fromHex_eq_some_iff` is `fromHex` in its terms, and `fromHex_toHex` and `toHex_injective` are
what the users of identifiers need.  `constantTimeEquals` compares all bytes and is equality.
-/

namespace MatrixFaces.ApiAuth

open MatrixFaces.Foundation

/-- `nibble`; `none` is the -1 of the source. -/
def nibble (c : Byte) : Option Byte :=
  if 48 ≤ c ∧ c ≤ 57 then some (c - 48)
  else if 97 ≤ c ∧ c ≤ 102 then some (c - 97 + 10)
  else if 65 ≤ c ∧ c ≤ 70 then some (c - 65 + 10)
  else none

/-- `kDigits`: the lowercase digit of a nibble. -/
def kDigit (n : Byte) : Byte := if n < 10 then 48 + n else 87 + n

/-- `toHex`, without the terminator. -/
def toHex (bytes : Bytes) : Bytes :=
  bytes.flatMap fun (b : Byte) => [kDigit (b >>> 4), kDigit (b &&& 0x0f)]

/-- The loop of `fromHex`: one byte from each pair of digits. -/
def decodePairs : (n : Nat) → Bytes → Option (Block n)
  | 0, _ => some ⟨[], rfl⟩
  | n + 1, hi :: lo :: rest =>
      match nibble hi, nibble lo, decodePairs n rest with
      | some h, some l, some tail => some ⟨(h <<< 4 ||| l) :: tail.1, by simp [tail.2]⟩
      | _, _, _ => none
  | _ + 1, _ => none

/-- `fromHex`: exactly `outLen` bytes from `2 * outLen` characters. -/
def fromHex (hex : Bytes) (outLen : Nat) : Option (Block outLen) :=
  if hex.length = outLen * 2 then decodePairs outLen hex else none

/-- `constantTimeEquals` on two arrays of one size. -/
def constantTimeEquals {n : Nat} (a b : Block n) : Bool :=
  (List.zipWith (· ^^^ ·) a.1 b.1).foldl (· ||| ·) 0 == 0

@[simp] theorem toHex_length (bytes : Bytes) : (toHex bytes).length = bytes.length * 2 := by
  induction bytes with
  | nil => rfl
  | cons b rest ih =>
      simp only [toHex, List.flatMap_cons, List.length_append] at *
      simp only [List.length_cons, List.length_nil, ih]
      omega

/-- Every nibble is written as a digit that reads back as it. -/
theorem nibble_kDigit : ∀ n : Byte, n < 16 → nibble (kDigit n) = some n :=
  byte_forall (by decide +kernel)

theorem byte_halves : ∀ b : Byte, (b >>> 4) < 16 ∧ (b &&& 0x0f) < 16 ∧
    ((b >>> 4) <<< 4 ||| (b &&& 0x0f)) = b :=
  byte_forall (by decide +kernel)

theorem decodePairs_toHex {n : Nat} (block : Block n) :
    decodePairs n (toHex block.1) = some block := by
  obtain ⟨bytes, rfl⟩ := block
  induction bytes with
  | nil => rfl
  | cons b rest ih =>
      obtain ⟨hhi, hlo, hjoin⟩ := byte_halves b
      have htail : decodePairs rest.length (toHex rest) = some ⟨rest, rfl⟩ := ih
      have hsplit : toHex (b :: rest) =
          kDigit (b >>> 4) :: kDigit (b &&& 0x0f) :: toHex rest := rfl
      simp only [List.length_cons, hsplit, decodePairs, nibble_kDigit _ hhi,
        nibble_kDigit _ hlo, htail, hjoin]

/-- The two spellings of a nibble. -/
def hexDigitsOf (v : Byte) : Bytes :=
  [(ascii "0123456789abcdef").getD v.toNat 0, (ascii "0123456789ABCDEF").getD v.toNat 0]

/-- Digits of either case that spell bytes, the high nibble first. -/
def Spells (text bytes : Bytes) : Prop :=
  List.Forall₂ (fun c v => c ∈ hexDigitsOf v) text
    (bytes.flatMap fun (b : Byte) => [b >>> 4, b &&& 0x0f])

theorem nibble_eq_some_iff {c v : Byte} (h : v < 16) :
    nibble c = some v ↔ c ∈ hexDigitsOf v := by
  have hall : ∀ (c : Byte) (k : Fin 16),
      nibble c = some (UInt8.ofNat k.1) ↔ c ∈ hexDigitsOf (UInt8.ofNat k.1) :=
    byte_forall (by decide +kernel)
  have hv : v.toNat < 16 := h
  simpa using hall c ⟨v.toNat, hv⟩

/-- A byte put together from two nibbles. -/
theorem nibbles_join {h l b : Byte} (hh : h < 16) (hl : l < 16) :
    h <<< 4 ||| l = b ↔ h = b >>> 4 ∧ l = b &&& 0x0f := by
  have hall : ∀ j k : Fin 16, (UInt8.ofNat j.1 <<< 4 ||| UInt8.ofNat k.1) >>> 4 = UInt8.ofNat j.1 ∧
      (UInt8.ofNat j.1 <<< 4 ||| UInt8.ofNat k.1) &&& 0x0f = UInt8.ofNat k.1 := by decide +kernel
  constructor
  · rintro rfl
    have hjoined := hall ⟨h.toNat, hh⟩ ⟨l.toNat, hl⟩
    simp only [UInt8.ofNat_toNat] at hjoined
    exact ⟨hjoined.1.symm, hjoined.2.symm⟩
  · rintro ⟨rfl, rfl⟩
    exact (byte_halves b).2.2

theorem nibble_lt {c v : Byte} (h : nibble c = some v) : v < 16 := by
  have hall : ∀ c : Byte, ((nibble c).all fun v => v < 16) = true := byte_forall (by decide +kernel)
  simpa [h] using hall c

theorem spells_cons {hi lo b : Byte} {rest bytes : Bytes} :
    Spells (hi :: lo :: rest) (b :: bytes) ↔
      nibble hi = some (b >>> 4) ∧ nibble lo = some (b &&& 0x0f) ∧ Spells rest bytes := by
  obtain ⟨hhi, hlo, _⟩ := byte_halves b
  rw [Spells, List.flatMap_cons, List.cons_append, List.cons_append, List.nil_append,
    List.forall₂_cons, List.forall₂_cons, nibble_eq_some_iff hhi, nibble_eq_some_iff hlo, Spells]

/-- Exactly the spellings of a block decode to it. -/
theorem decodePairs_eq_some_iff {n : Nat} {text : Bytes} (h : text.length = n * 2)
    {block : Block n} : decodePairs n text = some block ↔ Spells text block.1 := by
  induction n generalizing text with
  | zero =>
      obtain ⟨bytes, hbytes⟩ := block
      obtain rfl := List.eq_nil_of_length_eq_zero hbytes
      obtain rfl := List.eq_nil_of_length_eq_zero h
      simp [decodePairs, Spells]
  | succ n ih =>
      obtain ⟨hi, lo, rest, rfl⟩ : ∃ hi lo rest, text = hi :: lo :: rest := by
        match text, h with
        | [], h => rw [List.length_nil] at h; omega
        | [_], h => rw [List.length_singleton] at h; omega
        | hi :: lo :: rest, _ => exact ⟨hi, lo, rest, rfl⟩
      obtain ⟨_ | ⟨b, tail⟩, hblock⟩ := block
      · cases hblock
      · have hrest : rest.length = n * 2 := by
          simp only [List.length_cons] at h
          omega
        have htail := @ih rest hrest ⟨tail, by simpa using hblock⟩
        rw [spells_cons, ← htail, decodePairs]
        split
        · rename_i h l decoded hh hl hdecoded
          rw [hh, hl, hdecoded]
          simp only [Option.some.injEq, List.cons.injEq, Subtype.ext_iff,
            nibbles_join (nibble_lt hh) (nibble_lt hl), and_assoc]
        · rename_i hnone
          simp only [reduceCtorEq, false_iff]
          rintro ⟨hh, hl, hdecoded⟩
          exact hnone _ _ _ hh hl hdecoded

theorem fromHex_eq_some_iff {n : Nat} {text : Bytes} {block : Block n} :
    fromHex text n = some block ↔ Spells text block.1 := by
  rw [fromHex]
  split
  · rename_i hlength
    exact decodePairs_eq_some_iff hlength
  · rename_i hlength
    simp only [reduceCtorEq, false_iff]
    intro hspells
    have hcount := hspells.length_eq
    have hpairs : ∀ bytes : Bytes, (bytes.flatMap fun (b : Byte) =>
        [b >>> 4, b &&& 0x0f]).length = bytes.length * 2 := by
      intro bytes
      simp [List.length_flatMap]
    rw [hpairs, block.2] at hcount
    exact hlength hcount

/-- Decoding what was encoded. -/
theorem fromHex_toHex {n : Nat} (block : Block n) :
    fromHex (toHex block.1) n = some block := by
  rw [fromHex, if_pos (by simp), decodePairs_toHex]

/-- Blocks of one size with the same digits are the same block. -/
theorem toHex_injective {n : Nat} {a b : Block n} (h : toHex a.1 = toHex b.1) : a = b := by
  have hread := fromHex_toHex a
  rw [h, fromHex_toHex] at hread
  exact (Option.some.inj hread).symm

/-- Every character `toHex` writes reads back as a nibble. -/
theorem nibble_of_mem_toHex {bytes : Bytes} {c : Byte} (h : c ∈ toHex bytes) :
    (nibble c).isSome = true := by
  rw [toHex, List.mem_flatMap] at h
  obtain ⟨b, _, hc⟩ := h
  obtain ⟨hhi, hlo, _⟩ := byte_halves b
  simp only [List.mem_cons, List.not_mem_nil, or_false] at hc
  rcases hc with rfl | rfl
  · rw [nibble_kDigit _ hhi]; rfl
  · rw [nibble_kDigit _ hlo]; rfl

theorem foldl_or_eq_zero (bytes : Bytes) :
    ∀ acc : Byte, bytes.foldl (· ||| ·) acc = 0 ↔ acc = 0 ∧ ∀ b ∈ bytes, b = 0 := by
  induction bytes with
  | nil => simp
  | cons b rest ih =>
      intro acc
      rw [List.foldl_cons, ih, UInt8.or_eq_zero_iff]
      simp [and_assoc]

theorem zipWith_xor_eq_zero_iff :
    ∀ a b : Bytes, a.length = b.length →
      ((∀ x ∈ List.zipWith (· ^^^ ·) a b, x = 0) ↔ a = b)
  | [], [], _ => by simp
  | [], _ :: _, h => by simp at h
  | _ :: _, [], h => by simp at h
  | x :: xs, y :: ys, h => by
      have ih := zipWith_xor_eq_zero_iff xs ys (by simpa using h)
      simp only [List.zipWith_cons_cons, List.forall_mem_cons, UInt8.xor_eq_zero_iff, ih,
        List.cons.injEq]

/-- The constant-time comparison is equality. -/
theorem constantTimeEquals_iff {n : Nat} (a b : Block n) :
    constantTimeEquals a b = true ↔ a = b := by
  rw [constantTimeEquals, beq_iff_eq, foldl_or_eq_zero, Subtype.ext_iff,
    ← zipWith_xor_eq_zero_iff a.1 b.1 (by simp)]
  simp

end MatrixFaces.ApiAuth
