import MatrixFaces.Foundation.JsonText

set_option autoImplicit false

/-!
# JSON documents and their names

A document is a JSON text together with the way it is read.  Its names are listed in the
order in which they stand in the text, at whatever depth, and a search for `"word":` in
the text is a search in that list.

`text` is the text of a document, so every document is read from the text it was written as;
`keys` are its names in the order of the text, each with what is in front of its value and
behind it.

`JsonDoc.strstr` is the main lemma: a search for a word stops at the first name that ends in it
and whose colon follows at once, and finds nothing if there is none.  A quote inside a string is
escaped, so no string is mistaken for a name.
-/

namespace MatrixFaces.Foundation

/-! ## Strings -/

/-- The value of a run of hexadecimal digits. -/
def hexValue (hex : Bytes) : Nat :=
  hex.foldl (fun value c => value * 16 +
    if isDigit c then c.toNat - 0x30
    else if c.toNat < 0x60 then c.toNat - 0x37
    else c.toNat - 0x57) 0

/-- A UTF-16 code unit in UTF-8; the halves of a surrogate pair are written one by one. -/
def utf8 (unit : Nat) : Bytes :=
  if unit < 0x80 then [UInt8.ofNat unit]
  else if unit < 0x800 then [UInt8.ofNat (0xC0 + unit / 64), UInt8.ofNat (0x80 + unit % 64)]
  else
    [UInt8.ofNat (0xE0 + unit / 4096), UInt8.ofNat (0x80 + unit / 64 % 64),
      UInt8.ofNat (0x80 + unit % 64)]

/-- What a letter behind a backslash stands for. -/
def escapeOf (c : Byte) : Byte :=
  if c = 0x62 then 0x08 else if c = 0x66 then 0x0C else if c = 0x6E then 0x0A
  else if c = 0x72 then 0x0D else if c = 0x74 then 0x09 else c

/-- What the characters of a string stand for. -/
def unescape : Bytes → Bytes
  | [] => []
  | [c] => [c]
  | c :: d :: rest =>
      if c ≠ chBackslash then c :: unescape (d :: rest)
      else if d ≠ 0x75 then escapeOf d :: unescape rest
      else
        match rest with
        | h₁ :: h₂ :: h₃ :: h₄ :: rest => utf8 (hexValue [h₁, h₂, h₃, h₄]) ++ unescape rest
        | _ => []

/-- The characters of a string without the backslashes in front of those they escape. -/
def unslash : Bytes → Bytes
  | [] => []
  | [c] => [c]
  | c :: d :: rest => if c = chBackslash then d :: unslash rest else c :: unslash (d :: rest)

/-! ## Documents -/

/-- A number as it is written; there is no point where no digits are behind it. -/
structure NumberText where
  negative : Bool
  int : Bytes
  frac : Bytes
  exp : Option (Byte × Bytes × Bytes)
  isInt : int = ascii "0" ∨ IsDigits int ∧ int.head? ≠ some 0x30
  isFrac : frac = [] ∨ IsDigits frac
  isExp : ∀ part ∈ exp, (part.1 = 0x65 ∨ part.1 = 0x45) ∧
    (part.2.1 = [] ∨ part.2.1 = ascii "+" ∨ part.2.1 = ascii "-") ∧ IsDigits part.2.2

namespace NumberText

def expText : Option (Byte × Bytes × Bytes) → Bytes
  | none => []
  | some (mark, sign, digits) => [mark] ++ sign ++ digits

def fracText (frac : Bytes) : Bytes := if frac = [] then [] else ascii "." ++ frac

def text (number : NumberText) : Bytes :=
  signText number.negative ++ number.int ++ fracText number.frac ++ expText number.exp

/-- The power of ten. -/
def scale (number : NumberText) : Int :=
  (match number.exp with
    | none => 0
    | some (_, sign, digits) =>
        if sign = ascii "-" then -(digitsValue digits : Int) else digitsValue digits) -
    number.frac.length

/-- The number, if it is an integer. -/
def integer (number : NumberText) : Option Int :=
  let sign : Int := if number.negative then -1 else 1
  let digits := digitsValue (number.int ++ number.frac)
  if 0 ≤ number.scale then some (sign * digits * 10 ^ number.scale.toNat)
  else
    let power := 10 ^ (-number.scale).toNat
    if digits % power = 0 then some (sign * ((digits / power : Nat) : Int)) else none

/-- The integer in front of its point and exponent. -/
def front (number : NumberText) : Int :=
  (if number.negative then -1 else 1) * (digitsValue number.int : Int)

theorem isDigits_int (number : NumberText) : IsDigits number.int := by
  rcases number.isInt with hzero | ⟨hdigits, _⟩
  · rw [hzero]
    exact isDigits_of_all (by decide) rfl
  · exact hdigits

/-- No digit stands behind the integer. -/
theorem head_behind_int (number : NumberText) {rest : Bytes}
    (hrest : ∀ c ∈ rest.head?, isDigit c = false) :
    ∀ c ∈ (fracText number.frac ++ (expText number.exp ++ rest)).head?, isDigit c = false := by
  rw [fracText]
  split
  · cases hexp : number.exp with
    | none => exact hrest
    | some part =>
        rintro c ⟨⟩
        rcases (number.isExp part hexp).1 with hmark | hmark <;> rw [hmark] <;> rfl
  · rintro c ⟨⟩
    rfl

theorem isNumber (number : NumberText) : IsNumber number.text := by
  refine ⟨signText number.negative, number.int, fracText number.frac, expText number.exp, rfl, ?_,
    number.isInt, ?_, ?_⟩
  · rw [signText]
    split
    · exact Or.inr rfl
    · exact Or.inl rfl
  · rw [fracText]
    split
    · exact Or.inl rfl
    · rename_i hfrac
      exact Or.inr ⟨number.frac, number.isFrac.resolve_left hfrac, rfl⟩
  · cases hexp : number.exp with
    | none => exact Or.inl rfl
    | some part =>
        obtain ⟨hmark, hsign, hdigits⟩ := number.isExp part hexp
        refine Or.inr ⟨[part.1], part.2.1, part.2.2, hdigits, ?_, hsign, rfl⟩
        rcases hmark with hmark | hmark <;> rw [hmark]
        · exact Or.inl rfl
        · exact Or.inr rfl

/-- `strtol` reads the integer in front. -/
theorem strtol (number : NumberText) {rest : Bytes} (hrest : ∀ c ∈ rest.head?, isDigit c = false) :
    (strtol (number.text ++ rest)).map Prod.fst =
      some (max LONG_MIN (min LONG_MAX number.front)) := by
  have hread := strtol_signed number.negative number.isDigits_int (number.head_behind_int hrest)
  rw [text, List.append_assoc, List.append_assoc, List.append_assoc, hread]
  rfl

/-- Every number is written so. -/
theorem exists_of_isNumber {text : Bytes} (h : IsNumber text) :
    ∃ number : NumberText, number.text = text := by
  obtain ⟨sign, int, frac, exp, rfl, hsign, hint, hfrac, hexp⟩ := h.parts
  obtain ⟨negative, rfl⟩ : ∃ negative, signText negative = sign := by
    rcases hsign with rfl | rfl
    · exact ⟨false, rfl⟩
    · exact ⟨true, rfl⟩
  obtain ⟨fracDigits, hfracDigits, rfl⟩ : ∃ digits, (digits = [] ∨ IsDigits digits) ∧
      fracText digits = frac := by
    rcases hfrac with rfl | ⟨digits, hdigits, rfl⟩
    · exact ⟨[], Or.inl rfl, rfl⟩
    · exact ⟨digits, Or.inr hdigits, if_neg hdigits.1⟩
  rcases hexp with rfl | ⟨mark, expSign, digits, hdigits, hmark, hexpSign, rfl⟩
  · exact ⟨⟨negative, int, fracDigits, none, hint, hfracDigits, fun _ hnone => by cases hnone⟩, rfl⟩
  · obtain ⟨c, rfl, hc⟩ : ∃ c : Byte, mark = [c] ∧ (c = 0x65 ∨ c = 0x45) := by
      rcases hmark with rfl | rfl
      · exact ⟨0x65, rfl, Or.inl rfl⟩
      · exact ⟨0x45, rfl, Or.inr rfl⟩
    refine ⟨⟨negative, int, fracDigits, some (c, expSign, digits), hint, hfracDigits, ?_⟩, rfl⟩
    rintro part ⟨⟩
    exact ⟨hc, hexpSign, hdigits⟩

end NumberText

theorem all_isUnescaped (text : Bytes) : (text.filter isUnescaped).all isUnescaped = true :=
  List.all_eq_true.mpr fun _ hc => (List.mem_filter.mp hc).2

theorem isBlankRun_nil : IsBlankRun [] := fun _ hc => by cases hc

/-- A JSON text of each part, taken apart. -/
inductive JsonDoc : JsonPart → Type where
  | number (number : NumberText) : JsonDoc .value
  | literal (text : Bytes) (h : text ∈ [ascii "true", ascii "false", ascii "null"]) :
      JsonDoc .value
  | string (chars : Bytes) (h : StringChars chars) : JsonDoc .value
  | emptyObject (blank : Bytes) (h : IsBlankRun blank) : JsonDoc .value
  | object (members : JsonDoc .members) : JsonDoc .value
  | emptyArray (blank : Bytes) (h : IsBlankRun blank) : JsonDoc .value
  | array (elements : JsonDoc .elements) : JsonDoc .value
  | member (before name behind front : Bytes) (value : JsonDoc .value) (after : Bytes)
      (hbefore : IsBlankRun before) (hname : StringChars name) (hbehind : IsBlankRun behind)
      (hfront : IsBlankRun front) (hafter : IsBlankRun after) : JsonDoc .member
  | oneMember (member : JsonDoc .member) : JsonDoc .members
  | moreMembers (member : JsonDoc .member) (rest : JsonDoc .members) : JsonDoc .members
  | element (before : Bytes) (value : JsonDoc .value) (after : Bytes)
      (hbefore : IsBlankRun before) (hafter : IsBlankRun after) : JsonDoc .element
  | oneElement (element : JsonDoc .element) : JsonDoc .elements
  | moreElements (element : JsonDoc .element) (rest : JsonDoc .elements) : JsonDoc .elements

/-- A name, and what stands behind it: blanks, a colon, blanks, the value and all the rest
of the text. -/
structure JsonKey where
  name : Bytes
  behind : Bytes
  front : Bytes
  value : JsonDoc .value
  after : Bytes

/-- With more text behind. -/
def JsonKey.within (more : Bytes) (key : JsonKey) : JsonKey :=
  { key with after := key.after ++ more }

namespace JsonDoc

def text : {part : JsonPart} → JsonDoc part → Bytes
  | _, .number n => n.text
  | _, .literal text _ => text
  | _, .string chars _ => chQuote :: chars ++ [chQuote]
  | _, .emptyObject blank _ => chOpen :: blank ++ [chClose]
  | _, .object members => chOpen :: members.text ++ [chClose]
  | _, .emptyArray blank _ => 0x5B :: blank ++ [0x5D]
  | _, .array elements => 0x5B :: elements.text ++ [0x5D]
  | _, .member before name behind front value after _ _ _ _ _ =>
      before ++ (chQuote :: name ++ [chQuote]) ++ behind ++ [chColon] ++ front ++ value.text ++
        after
  | _, .oneMember m => m.text
  | _, .moreMembers m rest => m.text ++ [chComma] ++ rest.text
  | _, .element before value after _ _ => before ++ value.text ++ after
  | _, .oneElement e => e.text
  | _, .moreElements e rest => e.text ++ [chComma] ++ rest.text

/-- The names, each in front of those in its value. -/
def keys : {part : JsonPart} → JsonDoc part → List JsonKey
  | _, .object members => members.keys.map (JsonKey.within [chClose])
  | _, .array elements => elements.keys.map (JsonKey.within [0x5D])
  | _, .member _ name behind front value after _ _ _ _ _ =>
      ⟨name, behind, front, value, after⟩ :: value.keys.map (JsonKey.within after)
  | _, .oneMember m => m.keys
  | _, .moreMembers m rest =>
      m.keys.map (JsonKey.within ([chComma] ++ rest.text)) ++ rest.keys
  | _, .element _ value after _ _ => value.keys.map (JsonKey.within after)
  | _, .oneElement e => e.keys
  | _, .moreElements e rest =>
      e.keys.map (JsonKey.within ([chComma] ++ rest.text)) ++ rest.keys
  | _, _ => []

/-- The members directly in an object. -/
def members : {part : JsonPart} → JsonDoc part → List (Bytes × JsonDoc .value)
  | _, .object members => members.members
  | _, .member _ name _ _ value _ _ _ _ _ _ => [(name, value)]
  | _, .oneMember m => m.members
  | _, .moreMembers m rest => m.members ++ rest.members
  | _, _ => []

/-- The value in a document. -/
def root : JsonDoc .element → JsonDoc .value
  | .element _ value _ _ _ => value

/-- The names in an object, at whatever depth. -/
def objectKeys : JsonDoc .value → Option (List JsonKey)
  | .emptyObject _ _ => some []
  | .object m => some m.keys
  | _ => none

def stringChars : JsonDoc .value → Option Bytes
  | .string chars _ => some chars
  | _ => none

def numberText : JsonDoc .value → Option NumberText
  | .number n => some n
  | _ => none

/-- The value of the first member of a name. -/
def member? (name : Bytes) (doc : JsonDoc .value) : Option (JsonDoc .value) :=
  (doc.members.find? fun m => unescape m.1 = name).map Prod.snd

/-- The value that a path of names leads to. -/
def at? (path : List Bytes) (doc : JsonDoc .value) : Option (JsonDoc .value) :=
  path.foldlM (fun doc name => doc.member? name) doc

/-- No object has two members of one name. -/
def distinct : {part : JsonPart} → JsonDoc part → Bool
  | _, .object m => decide (m.members.map fun m => unescape m.1).Nodup && m.distinct
  | _, .array e => e.distinct
  | _, .member _ _ _ _ value _ _ _ _ _ _ => value.distinct
  | _, .oneMember m => m.distinct
  | _, .moreMembers m rest => m.distinct && rest.distinct
  | _, .element _ value _ _ _ => value.distinct
  | _, .oneElement e => e.distinct
  | _, .moreElements e rest => e.distinct && rest.distinct
  | _, _ => true

/-- A string of the characters that need no escape. -/
def plainString (chars : Bytes) : JsonDoc .value :=
  .string (chars.filter isUnescaped) (stringChars_of_all (all_isUnescaped _))

/-- A member without blanks, its name of the characters that need no escape. -/
def plainMember (name : Bytes) (value : JsonDoc .value) : JsonDoc .member :=
  .member [] (name.filter isUnescaped) [] [] value [] isBlankRun_nil
    (stringChars_of_all (all_isUnescaped _)) isBlankRun_nil isBlankRun_nil isBlankRun_nil

/-- Every document is a JSON text. -/
theorem jsonText : {part : JsonPart} → (doc : JsonDoc part) → JsonText part doc.text
  | _, .number n => .number n.isNumber
  | _, .literal _ h => .literal h
  | _, .string _ h => .string h
  | _, .emptyObject _ h => .emptyObject h
  | _, .object members => .object members.jsonText
  | _, .emptyArray _ h => .emptyArray h
  | _, .array elements => .array elements.jsonText
  | _, .member _ _ _ _ value _ hbefore hname hbehind hfront hafter =>
      .member hbefore hname hbehind hfront hafter value.jsonText
  | _, .oneMember m => .oneMember m.jsonText
  | _, .moreMembers m rest => .moreMembers m.jsonText rest.jsonText
  | _, .element _ value _ hbefore hafter => .element hbefore hafter value.jsonText
  | _, .oneElement e => .oneElement e.jsonText
  | _, .moreElements e rest => .moreElements e.jsonText rest.jsonText

/-- Every JSON text is a document's. -/
theorem exists_of_jsonText {part : JsonPart} {text : Bytes} (h : JsonText part text) :
    ∃ doc : JsonDoc part, doc.text = text := by
  induction h with
  | number h =>
      obtain ⟨number, rfl⟩ := NumberText.exists_of_isNumber h
      exact ⟨.number number, rfl⟩
  | literal h => exact ⟨.literal _ h, rfl⟩
  | string h => exact ⟨.string _ h, rfl⟩
  | emptyObject h => exact ⟨.emptyObject _ h, rfl⟩
  | object _ ih =>
      obtain ⟨members, rfl⟩ := ih
      exact ⟨.object members, rfl⟩
  | emptyArray h => exact ⟨.emptyArray _ h, rfl⟩
  | array _ ih =>
      obtain ⟨elements, rfl⟩ := ih
      exact ⟨.array elements, rfl⟩
  | member hbefore hname hbehind hfront hafter _ ih =>
      obtain ⟨value, rfl⟩ := ih
      exact ⟨.member _ _ _ _ value _ hbefore hname hbehind hfront hafter, rfl⟩
  | oneMember _ ih =>
      obtain ⟨member, rfl⟩ := ih
      exact ⟨.oneMember member, rfl⟩
  | moreMembers _ _ ih ihRest =>
      obtain ⟨member, rfl⟩ := ih
      obtain ⟨rest, rfl⟩ := ihRest
      exact ⟨.moreMembers member rest, rfl⟩
  | element hbefore hafter _ ih =>
      obtain ⟨value, rfl⟩ := ih
      exact ⟨.element _ value _ hbefore hafter, rfl⟩
  | oneElement _ ih =>
      obtain ⟨element, rfl⟩ := ih
      exact ⟨.oneElement element, rfl⟩
  | moreElements _ _ ih ihRest =>
      obtain ⟨element, rfl⟩ := ih
      obtain ⟨rest, rfl⟩ := ihRest
      exact ⟨.moreElements element rest, rfl⟩

end JsonDoc

namespace JsonKey

/-- The text behind the colon. -/
def rest (key : JsonKey) : Bytes := key.front ++ key.value.text ++ key.after

theorem rest_within (more : Bytes) (key : JsonKey) : (key.within more).rest = key.rest ++ more := by
  simp [rest, within]

end JsonKey

/-! ## What a value starts with -/

/-- The first byte of a value tells what it is. -/
structure JsonDoc.Head (doc : JsonDoc .value) (c : Byte) : Prop where
  space : isSpace c = false
  plus : c ≠ 0x2B
  object : (c == chOpen) = doc.objectKeys.isSome
  string : (c == chQuote) = doc.stringChars.isSome
  number : (isDigit c || c == 0x2D) = doc.numberText.isSome

theorem head_of_digit :
    ∀ c : Byte, isDigit c = true → (c == chOpen) = false ∧ (c == chQuote) = false :=
  byte_forall (by decide +kernel)

theorem JsonDoc.exists_head (doc : JsonDoc .value) :
    ∃ c rest, doc.text = c :: rest ∧ doc.Head c := by
  cases doc with
  | number n =>
      have hint := n.isDigits_int
      obtain ⟨d, more, hcons⟩ := List.exists_cons_of_ne_nil hint.1
      have hdigit := hint.2 d (hcons ▸ List.mem_cons_self)
      have hblank := not_blank_of_digit d hdigit
      have hmark := head_of_digit d hdigit
      rw [JsonDoc.text, NumberText.text, signText, hcons]
      cases n.negative with
      | true => exact ⟨0x2D, _, rfl, rfl, by decide, rfl, rfl, rfl⟩
      | false =>
          refine ⟨d, _, rfl, hblank.1, hblank.2.2, hmark.1, hmark.2, ?_⟩
          rw [hdigit]
          rfl
  | literal text h =>
      simp only [List.mem_cons, List.not_mem_nil, or_false] at h
      rcases h with rfl | rfl | rfl <;> exact ⟨_, _, rfl, rfl, by decide, rfl, rfl, rfl⟩
  | string chars h => exact ⟨chQuote, _, rfl, rfl, by decide, rfl, rfl, rfl⟩
  | emptyObject blank h => exact ⟨chOpen, _, rfl, rfl, by decide, rfl, rfl, rfl⟩
  | object members => exact ⟨chOpen, _, rfl, rfl, by decide, rfl, rfl, rfl⟩
  | emptyArray blank h => exact ⟨0x5B, _, rfl, rfl, by decide, rfl, rfl, rfl⟩
  | array elements => exact ⟨0x5B, _, rfl, rfl, by decide, rfl, rfl, rfl⟩

/-! ## The search for a word -/

def isWordByte (c : Byte) : Bool :=
  isDigit c || (0x41 ≤ c && c ≤ 0x5A) || (0x61 ≤ c && c ≤ 0x7A)

/-- Letters and digits. -/
structure IsWord (word : Bytes) : Prop where
  ne_nil : word ≠ []
  byte : ∀ c ∈ word, isWordByte c = true

/-- A word as a name, its colon right behind. -/
def keyText (word : Bytes) : Bytes := chQuote :: (word ++ [chQuote, chColon])

/-- The name is the word, or ends in an escaped quote and the word; its colon is right behind. -/
def JsonKey.endsIn (word : Bytes) (key : JsonKey) : Bool :=
  chQuote :: word <:+ chQuote :: key.name ∧ key.behind = []

/-- The first name, in the order of the text, that ends in the word. -/
def firstKey (word : Bytes) (keys : List JsonKey) : Option JsonKey :=
  keys.find? (JsonKey.endsIn word)

/-- A text that no word carries on in, and no name. -/
def Stops (rest : Bytes) : Prop := ∀ c ∈ rest.head?, c ≠ chColon ∧ isWordByte c = false

theorem stops_nil : Stops [] := fun _ hc => by cases hc

theorem ne_of_wordByte :
    ∀ c : Byte, isWordByte c = true → c ≠ chQuote ∧ c ≠ chBackslash ∧ c ≠ chColon :=
  byte_forall (by decide +kernel)

section

variable {word : Bytes}

theorem strstr_cons (c : Byte) (rest : Bytes) (hc : c ≠ 0) :
    strstr (keyText word) (c :: rest) =
      if keyText word <+: c :: rest then some (c :: rest) else strstr (keyText word) rest := by
  rw [strstr, if_neg hc]

/-- The search passes a byte that is no quote. -/
theorem strstr_skip {c : Byte} (rest : Bytes) (hquote : c ≠ chQuote) (hzero : c ≠ 0) :
    strstr (keyText word) (c :: rest) = strstr (keyText word) rest := by
  rw [strstr_cons c rest hzero, if_neg]
  intro hfront
  rw [keyText, List.cons_prefix_cons] at hfront
  exact hquote hfront.1.symm

theorem strstr_skips {text : Bytes} (rest : Bytes) (h : ∀ c ∈ text, c ≠ chQuote ∧ c ≠ 0) :
    strstr (keyText word) (text ++ rest) = strstr (keyText word) rest := by
  induction text with
  | nil => rfl
  | cons c text ih =>
      obtain ⟨hc, htext⟩ := List.forall_mem_cons.mp h
      rw [List.cons_append, strstr_skip _ hc.1 hc.2, ih htext]

/-- At a quote in front of a string's characters and their closing quote. -/
theorem keyText_prefix_iff (hword : ∀ c ∈ word, isWordByte c = true) {chars : Bytes}
    (h : StringChars chars) (rest : Bytes) :
    keyText word <+: chQuote :: (chars ++ chQuote :: rest) ↔
      chars = word ∧ [chColon] <+: rest := by
  rw [keyText, List.cons_prefix_cons, and_iff_right rfl]
  have hbackslash : chQuote ≠ chBackslash := by decide
  induction h generalizing word with
  | nil =>
      cases word with
      | nil => simp [List.cons_prefix_cons]
      | cons d word =>
          have hd := (ne_of_wordByte d (hword d List.mem_cons_self)).1
          simp [List.cons_prefix_cons, hd]
  | @plain c chars hquote hbackslash _ _ ih =>
      cases word with
      | nil => simp [List.cons_prefix_cons, Ne.symm hquote]
      | cons d word =>
          have hmore : word ++ [chQuote, chColon] <+: chars ++ chQuote :: rest ↔
              chars = word ∧ [chColon] <+: rest :=
            ih fun c hc => hword c (List.mem_cons_of_mem d hc)
          rw [List.cons_append, List.cons_append, List.cons_prefix_cons, hmore, List.cons.injEq,
            ← and_assoc, @eq_comm _ d c]
  | @escape c chars _ _ _ =>
      cases word with
      | nil => simp [List.cons_prefix_cons, hbackslash]
      | cons d word =>
          have hd := (ne_of_wordByte d (hword d List.mem_cons_self)).2.1
          simp [List.cons_prefix_cons, hd, Ne.symm hd]
  | @unicode hex chars _ _ _ _ =>
      cases word with
      | nil => simp [List.cons_prefix_cons, hbackslash]
      | cons d word =>
          have hd := (ne_of_wordByte d (hword d List.mem_cons_self)).2.1
          simp [List.cons_prefix_cons, hd, Ne.symm hd]

theorem hexDigit_passes : ∀ c : Byte, isHexDigit c = true → c ≠ chQuote ∧ c ≠ 0 :=
  byte_forall (by decide +kernel)

theorem escape_ne_zero : ∀ c ∈ ascii "\"\\/bfnrt", c ≠ 0 := forall_mem_of_all rfl

theorem stringChars_ne_zero {chars : Bytes} (h : StringChars chars) : ∀ c ∈ chars, c ≠ 0 := by
  induction h with
  | nil => exact fun _ hc => by cases hc
  | @plain c rest _ _ hcontrol _ ih =>
      refine List.forall_mem_cons.mpr ⟨?_, ih⟩
      rintro rfl
      exact absurd hcontrol (by decide)
  | @escape c rest hc _ ih =>
      refine List.forall_mem_cons.mpr ⟨by decide, List.forall_mem_cons.mpr ⟨?_, ih⟩⟩
      exact escape_ne_zero c hc
  | @unicode hex rest _ hhex _ ih =>
      refine List.forall_mem_cons.mpr ⟨by decide, List.forall_mem_cons.mpr ⟨by decide, ?_⟩⟩
      refine List.forall_mem_append.mpr ⟨fun c hc => ?_, ih⟩
      exact (hexDigit_passes c (hhex c hc)).2

/-- What starts with a quote is no longer than what stands behind the last other byte. -/
theorem quote_suffix_append_iff {front : Bytes} (h : ∀ c ∈ front, c ≠ chQuote) (chars : Bytes) :
    chQuote :: word <:+ front ++ chars ↔ chQuote :: word <:+ chars := by
  induction front with
  | nil => rfl
  | cons c front ih =>
      obtain ⟨hc, hfront⟩ := List.forall_mem_cons.mp h
      rw [List.cons_append, List.suffix_cons_iff, ih hfront, List.cons.injEq]
      simp only [Ne.symm hc, false_and, false_or]

/-- Inside a string the word can stand behind an escaped quote only, at the string's end. -/
theorem strstr_chars (hword : IsWord word) {chars : Bytes} (h : StringChars chars)
    (rest : Bytes) :
    strstr (keyText word) (chars ++ chQuote :: rest) =
      if chQuote :: word <:+ chars ∧ [chColon] <+: rest then
        some (chQuote :: (word ++ chQuote :: rest))
      else strstr (keyText word) (chQuote :: rest) := by
  induction h with
  | nil => simp
  | @plain c chars hquote hbackslash hcontrol _ ih =>
      have hzero : c ≠ 0 := by
        rintro rfl
        exact absurd hcontrol (by decide)
      rw [List.cons_append, strstr_skip _ hquote hzero, ih]
      simp only [List.suffix_cons_iff, List.cons.injEq, Ne.symm hquote, false_and, false_or]
  | @escape c chars hc hchars ih =>
      have hescape : chBackslash ≠ chQuote := by decide
      rw [List.cons_append, List.cons_append, strstr_skip _ hescape (by decide)]
      simp only [List.suffix_cons_iff, List.cons.injEq, Ne.symm hescape, false_and, false_or]
      by_cases hquote : c = chQuote
      · subst hquote
        rw [strstr_cons _ _ (by decide)]
        by_cases hhere : chars = word ∧ [chColon] <+: rest
        · rw [if_pos ((keyText_prefix_iff hword.byte hchars rest).mpr hhere), if_pos
            ⟨Or.inl ⟨rfl, hhere.1.symm⟩, hhere.2⟩, hhere.1]
        · rw [if_neg fun hfront => hhere ((keyText_prefix_iff hword.byte hchars rest).mp hfront),
            ih]
          by_cases hcolon : [chColon] <+: rest
          · have hne : word ≠ chars := fun hsame => hhere ⟨hsame.symm, hcolon⟩
            simp only [hne, and_false, false_or]
          · simp only [hcolon, and_false, if_false]
      · rw [strstr_skip _ hquote (escape_ne_zero c hc), ih]
        simp only [Ne.symm hquote, false_and, false_or]
  | @unicode hex chars hlength hhex _ ih =>
      have hhexByte : ∀ c ∈ hex, c ≠ chQuote ∧ c ≠ 0 := fun c hc => hexDigit_passes c (hhex c hc)
      have hfront : ∀ c ∈ chBackslash :: 0x75 :: hex, c ≠ chQuote ∧ c ≠ 0 :=
        List.forall_mem_cons.mpr ⟨by decide, List.forall_mem_cons.mpr ⟨by decide, hhexByte⟩⟩
      have hsplit : chBackslash :: 0x75 :: (hex ++ chars) = (chBackslash :: 0x75 :: hex) ++ chars :=
        rfl
      rw [hsplit, List.append_assoc, strstr_skips _ hfront, ih]
      simp only [quote_suffix_append_iff fun c hc => (hfront c hc).1]

/-- A string that is no name is passed. -/
theorem strstr_string (hword : IsWord word) {chars rest : Bytes} (h : StringChars chars)
    (hrest : Stops rest) :
    strstr (keyText word) (chQuote :: chars ++ [chQuote] ++ rest) =
      strstr (keyText word) rest := by
  have hcolon : ¬ [chColon] <+: rest := by
    rintro ⟨more, rfl⟩
    exact (hrest chColon rfl).1 rfl
  have hclosing : ¬ keyText word <+: chQuote :: rest := by
    obtain ⟨d, more, hmore⟩ := List.exists_cons_of_ne_nil hword.ne_nil
    rw [keyText, List.cons_prefix_cons, hmore]
    rintro ⟨_, tail, rfl⟩
    exact absurd (hword.byte d (hmore ▸ List.mem_cons_self)) (by simp [(hrest d rfl).2])
  have hsplit : chQuote :: chars ++ [chQuote] ++ rest = chQuote :: (chars ++ chQuote :: rest) := by
    simp
  rw [hsplit, strstr_cons _ _ (by decide),
    if_neg fun hfront => hcolon ((keyText_prefix_iff hword.byte h rest).mp hfront).2,
    strstr_chars hword h, if_neg fun hboth => hcolon hboth.2, strstr_cons _ _ (by decide),
    if_neg hclosing]

/-- At a name with its colon right behind. -/
theorem strstr_name (hword : IsWord word) {name : Bytes} (h : StringChars name) (rest : Bytes) :
    strstr (keyText word) (chQuote :: name ++ [chQuote] ++ chColon :: rest) =
      if chQuote :: word <:+ chQuote :: name then some (keyText word ++ rest)
      else strstr (keyText word) rest := by
  have hsplit : chQuote :: name ++ [chQuote] ++ chColon :: rest =
      chQuote :: (name ++ chQuote :: chColon :: rest) := by
    simp
  have hclosing : ¬ keyText word <+: chQuote :: chColon :: rest := by
    obtain ⟨d, more, hmore⟩ := List.exists_cons_of_ne_nil hword.ne_nil
    rw [keyText, List.cons_prefix_cons, hmore, List.cons_append, List.cons_prefix_cons]
    have hd := ne_of_wordByte d (hword.byte d (hmore ▸ List.mem_cons_self))
    exact fun hfront => hd.2.2 hfront.2.1
  have hcolon : [chColon] <+: chColon :: rest := List.prefix_append [chColon] rest
  have hfound : keyText word ++ rest = chQuote :: (word ++ chQuote :: chColon :: rest) := by
    simp [keyText]
  have hchars := strstr_chars hword h (chColon :: rest)
  simp only [and_iff_left hcolon] at hchars
  rw [hsplit, strstr_cons _ _ (by decide), hchars, hfound]
  simp only [keyText_prefix_iff hword.byte h, and_iff_left hcolon, List.suffix_cons_iff]
  by_cases hwhole : name = word
  · subst hwhole
    rw [if_pos rfl, if_pos (Or.inl rfl)]
  · have hne : ¬ chQuote :: word = chQuote :: name := fun hsame =>
      hwhole (List.cons.inj hsame).2.symm
    simp only [hwhole, hne, false_or, if_false]
    rw [strstr_cons _ _ (by decide), if_neg hclosing, strstr_skip _ (by decide) (by decide)]

/-! ## The search in a JSON text -/

theorem IsBlankRun.passes {text : Bytes} (h : IsBlankRun text) :
    ∀ c ∈ text, c ≠ chQuote ∧ c ≠ 0 := by
  intro c hc
  rcases h c hc with rfl | rfl | rfl | rfl <;> decide

theorem IsBlankRun.stops {text rest : Bytes} (h : IsBlankRun text) (hrest : Stops rest) :
    Stops (text ++ rest) := by
  cases text with
  | nil => exact hrest
  | cons c text =>
      rintro d ⟨⟩
      rcases h c List.mem_cons_self with rfl | rfl | rfl | rfl <;> decide

theorem IsNumber.passes {text : Bytes} (h : IsNumber text) : ∀ c ∈ text, c ≠ chQuote ∧ c ≠ 0 := by
  intro c hc
  rcases h.byte c hc with hdigit | hmark
  · exact byte_forall (P := fun c => isDigit c = true → c ≠ chQuote ∧ c ≠ 0) (by decide +kernel) c
      hdigit
  · exact (forall_mem_of_all rfl : ∀ d ∈ ascii "+-.eE", d ≠ chQuote ∧ d ≠ 0) c hmark

theorem literal_passes {text : Bytes} (h : text ∈ [ascii "true", ascii "false", ascii "null"]) :
    ∀ c ∈ text, c ≠ chQuote ∧ c ≠ 0 := by
  simp only [List.mem_cons, List.not_mem_nil, or_false] at h
  rcases h with rfl | rfl | rfl <;> exact forall_mem_of_all rfl

theorem stops_closer {c : Byte} (h : c ∈ ascii ",]\x7d") (rest : Bytes) : Stops ([c] ++ rest) := by
  rintro d ⟨⟩
  exact (forall_mem_of_all rfl :
    ∀ e ∈ ascii ",]\x7d", e ≠ chColon ∧ isWordByte e = false) c h

theorem firstKey_within (more : Bytes) (keys : List JsonKey) :
    firstKey word (keys.map (JsonKey.within more)) =
      (firstKey word keys).map (JsonKey.within more) := by
  rw [firstKey, List.find?_map]
  rfl

theorem firstKey_append (keys more : List JsonKey) :
    firstKey word (keys ++ more) = (firstKey word keys).or (firstKey word more) :=
  List.find?_append

/-- What the search finds in a text with these names and more text behind. -/
def foundIn (word : Bytes) (keys : List JsonKey) (rest : Bytes) : Option Bytes :=
  ((firstKey word keys).map fun key => keyText word ++ (key.rest ++ rest)).or
    (strstr (keyText word) rest)

theorem foundIn_within (more : Bytes) (keys : List JsonKey) {rest : Bytes}
    (hmore : strstr (keyText word) (more ++ rest) = strstr (keyText word) rest) :
    foundIn word (keys.map (JsonKey.within more)) rest = foundIn word keys (more ++ rest) := by
  rw [foundIn, firstKey_within, foundIn, hmore, Option.map_map]
  congr 2
  funext key
  rw [Function.comp_apply, JsonKey.rest_within, List.append_assoc]

theorem foundIn_append (keys more : List JsonKey) (rest : Bytes) :
    foundIn word (keys ++ more) rest =
      ((firstKey word keys).map fun key => keyText word ++ (key.rest ++ rest)).or
        (foundIn word more rest) := by
  rw [foundIn, firstKey_append, foundIn]
  cases firstKey word keys <;> simp

/-- Two parts with a comma between them. -/
theorem foundIn_comma (keys keysMore : List JsonKey) {more rest : Bytes}
    (hmore : strstr (keyText word) (more ++ rest) = foundIn word keysMore rest) :
    foundIn word (keys.map (JsonKey.within ([chComma] ++ more)) ++ keysMore) rest =
      foundIn word keys ([chComma] ++ (more ++ rest)) := by
  have hcomma : strstr (keyText word) ([chComma] ++ (more ++ rest)) =
      foundIn word keysMore rest := by
    rw [strstr_skips _ (forall_mem_of_all rfl), hmore]
  rw [foundIn_append, firstKey_within, Option.map_map]
  conv_rhs => rw [foundIn, hcomma]
  congr 2
  funext key
  simp [JsonKey.rest_within]

/-- Blanks in front of the value, and behind it no more of a word. -/
structure JsonKey.Sound (key : JsonKey) : Prop where
  front : IsBlankRun key.front
  after : ∀ rest, Stops rest → Stops (key.after ++ rest)

theorem sound_within {keys : List JsonKey} {more : Bytes} (h : ∀ key ∈ keys, key.Sound)
    (hmore : ∀ rest, Stops rest → Stops (more ++ rest)) :
    ∀ key ∈ keys.map (JsonKey.within more), key.Sound := by
  intro key hkey
  obtain ⟨inner, hinner, rfl⟩ := List.mem_map.mp hkey
  obtain ⟨hfront, hafter⟩ := h inner hinner
  refine ⟨hfront, fun rest hrest => ?_⟩
  rw [JsonKey.within, List.append_assoc]
  exact hafter _ (hmore rest hrest)

theorem JsonDoc.sound {part : JsonPart} (doc : JsonDoc part) : ∀ key ∈ doc.keys, key.Sound := by
  induction doc with
  | number | literal | string | emptyObject | emptyArray => exact fun _ hkey => by cases hkey
  | object members ih => exact sound_within ih fun rest _ => stops_closer (by decide) rest
  | array elements ih => exact sound_within ih fun rest _ => stops_closer (by decide) rest
  | member before name behind front value after hbefore hname hbehind hfront hafter ih =>
      rw [keys, List.forall_mem_cons]
      exact ⟨⟨hfront, fun _ => hafter.stops⟩, sound_within ih fun _ => hafter.stops⟩
  | oneMember member ih => exact ih
  | moreMembers member more ih ihRest =>
      rw [keys, List.forall_mem_append]
      refine ⟨sound_within ih fun rest _ => ?_, ihRest⟩
      rw [List.append_assoc]
      exact stops_closer (by decide) _
  | element before value after hbefore hafter ih => exact sound_within ih fun _ => hafter.stops
  | oneElement element ih => exact ih
  | moreElements element more ih ihRest =>
      rw [keys, List.forall_mem_append]
      refine ⟨sound_within ih fun rest _ => ?_, ihRest⟩
      rw [List.append_assoc]
      exact stops_closer (by decide) _

/-- A search that passes brackets with blanks between them. -/
theorem strstr_brackets {opener closer : Byte} {blank : Bytes}
    (hopener : opener ≠ chQuote ∧ opener ≠ 0)
    (hcloser : closer ≠ chQuote ∧ closer ≠ 0) (h : IsBlankRun blank) (rest : Bytes) :
    strstr (keyText word) (opener :: blank ++ [closer] ++ rest) = strstr (keyText word) rest := by
  rw [List.append_assoc, List.cons_append, strstr_skip _ hopener.1 hopener.2,
    strstr_skips _ h.passes, List.singleton_append, strstr_skip _ hcloser.1 hcloser.2]

/-- A search that comes to the first name inside of brackets. -/
theorem strstr_enclosed {opener closer : Byte} {inner : Bytes} {keys : List JsonKey}
    (hopener : opener ≠ chQuote ∧ opener ≠ 0) (hcloser : closer ≠ chQuote ∧ closer ≠ 0)
    {rest : Bytes} (h : strstr (keyText word) (inner ++ ([closer] ++ rest)) =
      foundIn word keys ([closer] ++ rest)) :
    strstr (keyText word) (opener :: inner ++ [closer] ++ rest) =
      foundIn word (keys.map (JsonKey.within [closer])) rest := by
  rw [List.append_assoc, List.cons_append, strstr_skip _ hopener.1 hopener.2, h,
    foundIn_within _ _ (strstr_skip _ hcloser.1 hcloser.2)]

/-- The name of a member is found if it ends in the word and the colon follows it; else the
search goes on behind the colon. -/
theorem strstr_member (hword : IsWord word) {name behind front after : Bytes}
    {value : JsonDoc .value} (hname : StringChars name) (hbehind : IsBlankRun behind)
    {rest : Bytes} (hvalue : strstr (keyText word) (front ++ (value.text ++ (after ++ rest))) =
      foundIn word (value.keys.map (JsonKey.within after)) rest) :
    strstr (keyText word) (chQuote :: name ++ [chQuote] ++
        (behind ++ chColon :: (front ++ (value.text ++ (after ++ rest))))) =
      foundIn word (⟨name, behind, front, value, after⟩ ::
        value.keys.map (JsonKey.within after)) rest := by
  rw [foundIn, firstKey, List.find?_cons]
  by_cases htight : behind = []
  · subst htight
    rw [List.nil_append, strstr_name hword hname, hvalue]
    by_cases hends : chQuote :: word <:+ chQuote :: name
    · have hfound : JsonKey.endsIn word ⟨name, [], front, value, after⟩ = true :=
        decide_eq_true ⟨hends, rfl⟩
      rw [if_pos hends, hfound]
      simp [JsonKey.rest]
    · have hfound : JsonKey.endsIn word ⟨name, [], front, value, after⟩ = false :=
        decide_eq_false fun hboth => hends hboth.1
      rw [if_neg hends, hfound]
      rfl
  · have hfound : JsonKey.endsIn word ⟨name, behind, front, value, after⟩ = false :=
      decide_eq_false fun hboth => htight hboth.2
    have hblank : Stops (behind ++ chColon :: (front ++ (value.text ++ (after ++ rest)))) := by
      obtain ⟨c, more, rfl⟩ := List.exists_cons_of_ne_nil htight
      rintro d ⟨⟩
      rcases hbehind c List.mem_cons_self with rfl | rfl | rfl | rfl <;> decide
    rw [strstr_string hword hname hblank, strstr_skips _ hbehind.passes,
      strstr_skip _ (by decide) (by decide), hvalue, hfound]
    rfl

/-- A search in a JSON text stops at the first name that ends in the word. -/
theorem JsonDoc.strstr (hword : IsWord word) {part : JsonPart} (doc : JsonDoc part) {rest : Bytes}
    (hrest : Stops rest) :
    strstr (keyText word) (doc.text ++ rest) = foundIn word doc.keys rest := by
  induction doc generalizing rest with
  | number number => exact strstr_skips _ number.isNumber.passes
  | literal text h => exact strstr_skips _ (literal_passes h)
  | string chars h => exact strstr_string hword h hrest
  | emptyObject blank h => exact strstr_brackets (by decide) (by decide) h rest
  | emptyArray blank h => exact strstr_brackets (by decide) (by decide) h rest
  | object members ih =>
      exact strstr_enclosed (by decide) (by decide)
        (ih (stops_closer (c := chClose) (by decide) rest))
  | array elements ih =>
      exact strstr_enclosed (by decide) (by decide)
        (ih (stops_closer (c := 0x5D) (by decide) rest))
  | member before name behind front value after hbefore hname hbehind hfront hafter ih =>
      -- what stands behind the colon
      have hvalue : Foundation.strstr (keyText word) (front ++ (value.text ++ (after ++ rest))) =
          foundIn word (value.keys.map (JsonKey.within after)) rest := by
        rw [strstr_skips _ hfront.passes, ih (hafter.stops hrest),
          foundIn_within _ _ (strstr_skips _ hafter.passes)]
      have hsplit : before ++ (chQuote :: name ++ [chQuote]) ++ behind ++ [chColon] ++ front ++
          value.text ++ after ++ rest =
          before ++ (chQuote :: name ++ [chQuote] ++
            (behind ++ chColon :: (front ++ (value.text ++ (after ++ rest))))) := by simp
      rw [text, hsplit, strstr_skips _ hbefore.passes, strstr_member hword hname hbehind hvalue]
      rfl
  | oneMember member ih => exact ih hrest
  | moreMembers member more ih ihRest =>
      have hsplit : member.text ++ [chComma] ++ more.text ++ rest =
          member.text ++ ([chComma] ++ (more.text ++ rest)) := by simp
      rw [text, hsplit, ih (stops_closer (c := chComma) (by decide) _), keys,
        foundIn_comma _ _ (ihRest hrest)]
  | element before value after hbefore hafter ih =>
      rw [text, List.append_assoc, List.append_assoc, strstr_skips _ hbefore.passes,
        ih (hafter.stops hrest), keys, foundIn_within _ _ (strstr_skips _ hafter.passes)]
  | oneElement element ih => exact ih hrest
  | moreElements element more ih ihRest =>
      have hsplit : element.text ++ [chComma] ++ more.text ++ rest =
          element.text ++ ([chComma] ++ (more.text ++ rest)) := by simp
      rw [text, hsplit, ih (stops_closer (c := chComma) (by decide) _), keys,
        foundIn_comma _ _ (ihRest hrest)]

end

/-! ## Documents without white space -/

namespace JsonDoc

/-- No insignificant white space. -/
def compact : {part : JsonPart} → JsonDoc part → Bool
  | _, .emptyObject blank _ => blank.isEmpty
  | _, .object m => m.compact
  | _, .emptyArray blank _ => blank.isEmpty
  | _, .array e => e.compact
  | _, .member before _ behind front value after _ _ _ _ _ =>
      before.isEmpty && behind.isEmpty && front.isEmpty && after.isEmpty && value.compact
  | _, .oneMember m => m.compact
  | _, .moreMembers m rest => m.compact && rest.compact
  | _, .element before value after _ _ => before.isEmpty && after.isEmpty && value.compact
  | _, .oneElement e => e.compact
  | _, .moreElements e rest => e.compact && rest.compact
  | _, _ => true

/-- No object and no array. -/
def isScalar : JsonDoc .value → Bool
  | .number _ | .literal _ _ | .string _ _ => true
  | _ => false

theorem keys_of_isScalar {value : JsonDoc .value} (h : value.isScalar = true) :
    value.keys = [] := by
  cases value with
  | number | literal | string => rfl
  | emptyObject | object | emptyArray | array => cases h

theorem compact_root {doc : JsonDoc .element} (h : doc.compact = true) :
    doc.root.compact = true := by
  cases doc with
  | element before value after hbefore hafter =>
      rw [compact, Bool.and_eq_true] at h
      exact h.2

theorem compact_members : {part : JsonPart} → (doc : JsonDoc part) → doc.compact = true →
    ∀ member ∈ doc.members, member.2.compact = true
  | _, .object m, h => compact_members m h
  | _, .member _ _ _ _ value _ _ _ _ _ _, h => by
      rw [compact, Bool.and_eq_true] at h
      intro member hmember
      rw [members, List.mem_singleton] at hmember
      rw [hmember]
      exact h.2
  | _, .oneMember m, h => compact_members m h
  | _, .moreMembers m rest, h => by
      rw [compact, Bool.and_eq_true] at h
      rw [members, List.forall_mem_append]
      exact ⟨compact_members m h.1, compact_members rest h.2⟩
  | _, .number _, _ | _, .literal _ _, _ | _, .string _ _, _ | _, .emptyObject _ _, _
  | _, .emptyArray _ _, _ | _, .array _, _ | _, .element _ _ _ _ _, _ | _, .oneElement _, _
  | _, .moreElements _ _, _ => fun _ hmember => by cases hmember

theorem compact_at? {doc value : JsonDoc .value} {path : List Bytes} (hdoc : doc.compact = true)
    (h : doc.at? path = some value) : value.compact = true := by
  induction path generalizing doc with
  | nil =>
      cases h
      exact hdoc
  | cons name rest ih =>
      rw [at?, List.foldlM_cons] at h
      obtain ⟨next, hnext, hrest⟩ := Option.bind_eq_some_iff.mp h
      obtain ⟨member, hmember, rfl⟩ := Option.map_eq_some_iff.mp hnext
      exact ih (compact_members doc hdoc member (List.mem_of_find?_eq_some hmember)) hrest

/-- A member without white space is its name, a colon and its value. -/
theorem eq_of_compact_member {before name behind front after : Bytes} {value : JsonDoc .value}
    {hbefore : IsBlankRun before} {hname : StringChars name} {hbehind : IsBlankRun behind}
    {hfront : IsBlankRun front} {hafter : IsBlankRun after}
    (h : (member before name behind front value after hbefore hname hbehind hfront hafter).compact =
      true) :
    before = [] ∧ behind = [] ∧ front = [] ∧ after = [] ∧ value.compact = true := by
  simp only [compact, Bool.and_eq_true, List.isEmpty_iff] at h
  obtain ⟨⟨⟨⟨hb, hd⟩, hf⟩, ha⟩, hv⟩ := h
  exact ⟨hb, hd, hf, ha, hv⟩

end JsonDoc

end MatrixFaces.Foundation
