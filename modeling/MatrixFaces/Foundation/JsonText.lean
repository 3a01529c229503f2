import MatrixFaces.Foundation.CText

set_option autoImplicit false

/-!
# JSON texts

The grammar of JSON as an inductive family over byte strings, with the white space and
the escapes of a text left as they are written.

`JsonText` relates the parts of a document to their texts.  It is a relation and no parser, so a
program that scans texts by its own rules is compared with it directly.  Bytes that are neither
quotes nor braces (`IsPlain`) are what such a scan passes over.
-/

namespace MatrixFaces.Foundation

/-- A run of insignificant white space. -/
def IsBlankRun (text : Bytes) : Prop := ∀ c ∈ text, c = 0x20 ∨ c = 0x09 ∨ c = 0x0A ∨ c = 0x0D

def isHexDigit (c : Byte) : Bool :=
  isDigit c || (0x41 ≤ c && c ≤ 0x46) || (0x61 ≤ c && c ≤ 0x66)

/-- What stands between the quotes of a string. -/
inductive StringChars : Bytes → Prop where
  | nil : StringChars []
  | plain {c : Byte} {rest : Bytes} (hquote : c ≠ chQuote) (hbackslash : c ≠ chBackslash)
      (hcontrol : 0x20 ≤ c) : StringChars rest → StringChars (c :: rest)
  | escape {c : Byte} {rest : Bytes} (hc : c ∈ ascii "\"\\/bfnrt") :
      StringChars rest → StringChars (chBackslash :: c :: rest)
  | unicode {hex rest : Bytes} (hlength : hex.length = 4) (hhex : ∀ c ∈ hex, isHexDigit c = true) :
      StringChars rest → StringChars (chBackslash :: 0x75 :: (hex ++ rest))

def IsDigits (text : Bytes) : Prop := text ≠ [] ∧ ∀ c ∈ text, isDigit c = true

/-- A number: an integer without leading zeros, a fraction and an exponent. -/
structure IsNumber (text : Bytes) : Prop where
  parts : ∃ sign int frac exp : Bytes, text = sign ++ int ++ frac ++ exp ∧
    (sign = [] ∨ sign = ascii "-") ∧
    (int = ascii "0" ∨ IsDigits int ∧ int.head? ≠ some 0x30) ∧
    (frac = [] ∨ ∃ digits, IsDigits digits ∧ frac = ascii "." ++ digits) ∧
    (exp = [] ∨ ∃ mark expSign digits, IsDigits digits ∧ (mark = ascii "e" ∨ mark = ascii "E") ∧
      (expSign = [] ∨ expSign = ascii "+" ∨ expSign = ascii "-") ∧
      exp = mark ++ expSign ++ digits)

/-- The parts a JSON text is made of. -/
inductive JsonPart where
  | value | member | members | element | elements
  deriving DecidableEq

/-- The texts of each part. -/
inductive JsonText : JsonPart → Bytes → Prop where
  | number {text : Bytes} (h : IsNumber text) : JsonText .value text
  | literal {text : Bytes} (h : text ∈ [ascii "true", ascii "false", ascii "null"]) :
      JsonText .value text
  | string {chars : Bytes} (h : StringChars chars) :
      JsonText .value (chQuote :: chars ++ [chQuote])
  | emptyObject {blank : Bytes} (h : IsBlankRun blank) :
      JsonText .value (chOpen :: blank ++ [chClose])
  | object {text : Bytes} : JsonText .members text → JsonText .value (chOpen :: text ++ [chClose])
  | emptyArray {blank : Bytes} (h : IsBlankRun blank) : JsonText .value (0x5B :: blank ++ [0x5D])
  | array {text : Bytes} : JsonText .elements text → JsonText .value (0x5B :: text ++ [0x5D])
  | member {before name behind front value after : Bytes} (hbefore : IsBlankRun before)
      (hname : StringChars name) (hbehind : IsBlankRun behind) (hfront : IsBlankRun front)
      (hafter : IsBlankRun after) : JsonText .value value →
      JsonText .member (before ++ (chQuote :: name ++ [chQuote]) ++ behind ++ [chColon] ++
        front ++ value ++ after)
  | oneMember {text : Bytes} : JsonText .member text → JsonText .members text
  | moreMembers {text rest : Bytes} : JsonText .member text → JsonText .members rest →
      JsonText .members (text ++ [chComma] ++ rest)
  | element {before value after : Bytes} (hbefore : IsBlankRun before) (hafter : IsBlankRun after) :
      JsonText .value value → JsonText .element (before ++ value ++ after)
  | oneElement {text : Bytes} : JsonText .element text → JsonText .elements text
  | moreElements {text rest : Bytes} : JsonText .element text → JsonText .elements rest →
      JsonText .elements (text ++ [chComma] ++ rest)

/-- An object: the value of a text that starts with a brace. -/
def IsObject (text : Bytes) : Prop :=
  ∃ inner, text = chOpen :: inner ++ [chClose] ∧
    (IsBlankRun inner ∨ JsonText .members inner)

/-! ## Bytes that are neither quotes nor braces -/

/-- A byte outside strings that is no brace. -/
def IsPlain (c : Byte) : Prop := c ≠ chQuote ∧ c ≠ chOpen ∧ c ≠ chClose

instance (c : Byte) : Decidable (IsPlain c) := inferInstanceAs (Decidable (_ ∧ _ ∧ _))

theorem plain_of_all {text : Bytes} (h : text.all (fun c => IsPlain c) = true) :
    ∀ c ∈ text, IsPlain c :=
  forall_mem_of_all h

theorem isPlain_of_digit : ∀ c : Byte, isDigit c = true → IsPlain c :=
  byte_forall (by decide +kernel)

theorem IsBlankRun.plain {text : Bytes} (h : IsBlankRun text) : ∀ c ∈ text, IsPlain c := by
  intro c hc
  rcases h c hc with rfl | rfl | rfl | rfl <;> decide

theorem IsDigits.plain {text : Bytes} (h : IsDigits text) : ∀ c ∈ text, IsPlain c :=
  fun c hc => isPlain_of_digit c (h.2 c hc)

/-- The bytes that numbers are written with. -/
theorem IsNumber.byte {text : Bytes} (h : IsNumber text) :
    ∀ c ∈ text, isDigit c = true ∨ c ∈ ascii "+-.eE" := by
  obtain ⟨sign, int, frac, exp, rfl, hsign, hint, hfrac, hexp⟩ := h.parts
  have hdigits : ∀ {digits : Bytes}, IsDigits digits →
      ∀ c ∈ digits, isDigit c = true ∨ c ∈ ascii "+-.eE" := fun h c hc => Or.inl (h.2 c hc)
  have hmarks : ∀ {marks : Bytes}, marks ⊆ ascii "+-.eE" →
      ∀ c ∈ marks, isDigit c = true ∨ c ∈ ascii "+-.eE" := fun h c hc => Or.inr (h hc)
  have hsignByte : ∀ c ∈ sign, isDigit c = true ∨ c ∈ ascii "+-.eE" := by
    rcases hsign with rfl | rfl <;> exact hmarks (by decide)
  have hintByte : ∀ c ∈ int, isDigit c = true ∨ c ∈ ascii "+-.eE" := by
    rcases hint with rfl | ⟨hint, _⟩
    · exact forall_mem_of_all rfl
    · exact hdigits hint
  have hfracByte : ∀ c ∈ frac, isDigit c = true ∨ c ∈ ascii "+-.eE" := by
    rcases hfrac with rfl | ⟨digits, hfrac, rfl⟩
    · simp
    · exact List.forall_mem_append.mpr ⟨hmarks (by decide), hdigits hfrac⟩
  have hexpByte : ∀ c ∈ exp, isDigit c = true ∨ c ∈ ascii "+-.eE" := by
    rcases hexp with rfl | ⟨mark, expSign, digits, hexp, hmark, hexpSign, rfl⟩
    · simp
    · refine List.forall_mem_append.mpr ⟨List.forall_mem_append.mpr ⟨?_, ?_⟩, hdigits hexp⟩
      · rcases hmark with rfl | rfl <;> exact hmarks (by decide)
      · rcases hexpSign with rfl | rfl | rfl <;> exact hmarks (by decide)
  exact List.forall_mem_append.mpr ⟨List.forall_mem_append.mpr
    ⟨List.forall_mem_append.mpr ⟨hsignByte, hintByte⟩, hfracByte⟩, hexpByte⟩

theorem IsNumber.plain {text : Bytes} (h : IsNumber text) : ∀ c ∈ text, IsPlain c := by
  intro c hc
  rcases h.byte c hc with hdigit | hmark
  · exact isPlain_of_digit c hdigit
  · exact (plain_of_all rfl : ∀ c ∈ ascii "+-.eE", IsPlain c) c hmark

theorem literal_plain {text : Bytes} (h : text ∈ [ascii "true", ascii "false", ascii "null"]) :
    ∀ c ∈ text, IsPlain c := by
  simp only [List.mem_cons, List.not_mem_nil, or_false] at h
  rcases h with rfl | rfl | rfl <;> exact plain_of_all rfl

/-! ## Building texts -/

theorem IsObject.value {text : Bytes} (h : IsObject text) : JsonText .value text := by
  obtain ⟨inner, rfl, hblank | hmembers⟩ := h
  · exact .emptyObject hblank
  · exact .object hmembers

theorem isNumber_of_digits {text : Bytes} (h : IsDigits text) (hzero : text.head? ≠ some 0x30) :
    IsNumber text :=
  ⟨[], text, [], [], by simp, Or.inl rfl, Or.inr ⟨h, hzero⟩, Or.inl rfl, Or.inl rfl⟩

theorem isDigits_of_all {text : Bytes} (hne : text ≠ []) (h : text.all isDigit = true) :
    IsDigits text :=
  ⟨hne, List.all_eq_true.mp h⟩

theorem not_blank_of_digit :
    ∀ c : Byte, isDigit c = true → isSpace c = false ∧ c ≠ 0x2D ∧ c ≠ 0x2B :=
  byte_forall (by decide +kernel)

def signText (negative : Bool) : Bytes := if negative then ascii "-" else []

/-- `strtol` reads a sign and a run of digits up to its end. -/
theorem strtol_signed (negative : Bool) {digits : Bytes} (h : IsDigits digits) {rest : Bytes}
    (hrest : ∀ c ∈ rest.head?, isDigit c = false) :
    strtol (signText negative ++ (digits ++ rest)) =
      some (max LONG_MIN (min LONG_MAX ((if negative then -1 else 1) * (digitsValue digits : Int))),
        rest) := by
  obtain ⟨d, more, rfl⟩ := List.exists_cons_of_ne_nil h.1
  have hd := not_blank_of_digit d (h.2 d List.mem_cons_self)
  have hsign : readSign ((signText negative ++ (d :: more ++ rest)).dropWhile isSpace) =
      (if negative then -1 else 1, d :: more ++ rest) := by
    cases negative with
    | true => rfl
    | false =>
        rw [signText, if_neg (by decide), List.nil_append, List.cons_append,
          List.dropWhile_cons_of_neg (by simp [hd.1]), readSign, if_neg hd.2.1, if_neg hd.2.2]
        rfl
  have hstop : rest.takeWhile isDigit = [] ∧ rest.dropWhile isDigit = rest := by
    cases rest with
    | nil => exact ⟨rfl, rfl⟩
    | cons c rest =>
        have hc : ¬ isDigit c = true := by simp [hrest c rfl]
        exact ⟨List.takeWhile_cons_of_neg hc, List.dropWhile_cons_of_neg hc⟩
  have hnumber : (d :: more ++ rest).takeWhile isDigit = d :: more := by
    rw [List.takeWhile_append_of_pos h.2, hstop.1, List.append_nil]
  have hend : (d :: more ++ rest).dropWhile isDigit = rest := by
    rw [List.dropWhile_append_of_pos h.2, hstop.2]
  rw [strtol, hsign]
  simp only [hnumber, hend]
  rw [if_neg (by simp)]

/-- `strtol` reads a run of digits up to its end. -/
theorem strtol_digits {digits : Bytes} (h : IsDigits digits) {rest : Bytes}
    (hrest : ∀ c ∈ rest.head?, isDigit c = false) :
    strtol (digits ++ rest) = some (min LONG_MAX (digitsValue digits), rest) := by
  have hmin : LONG_MIN ≤ min LONG_MAX (digitsValue digits : Int) := by
    rw [LONG_MIN, LONG_MAX]
    omega
  have hread := strtol_signed false h hrest
  rw [if_neg (by decide), Int.one_mul, Int.max_eq_right hmin] at hread
  exact hread

/-- Needs no escape between quotes. -/
def isUnescaped (c : Byte) : Bool := c != chQuote && c != chBackslash && 0x20 ≤ c

theorem stringChars_of_all {text : Bytes} (h : text.all isUnescaped = true) :
    StringChars text := by
  induction text with
  | nil => exact .nil
  | cons c rest ih =>
      rw [List.all_cons, Bool.and_eq_true] at h
      obtain ⟨hc, hrest⟩ := h
      simp only [isUnescaped, Bool.and_eq_true, bne_iff_ne, decide_eq_true_eq] at hc
      exact .plain hc.1.1 hc.1.2 hc.2 (ih hrest)

theorem IsDigits.stringChars {text : Bytes} (h : IsDigits text) : StringChars text :=
  stringChars_of_all <| List.all_eq_true.mpr fun c hc => byte_forall
    (P := fun c => isDigit c = true → isUnescaped c = true) (by decide +kernel) c (h.2 c hc)

end MatrixFaces.Foundation
