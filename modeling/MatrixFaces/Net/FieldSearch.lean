import MatrixFaces.Foundation.JsonDoc
import MatrixFaces.Net.ObjectScan
import MatrixFaces.Net.Truncation

set_option autoImplicit false

/-!
# Searches for fields in JSON texts

In the text of a document the search for a field goes by the first name that ends in the
field's word, at whatever depth it stands.

`seenValue`, `seenObject`, `seenString` and `seenNumber` are what the parser's searches come to,
said of the document.  `Scope` is a text with the names that a search in it comes to, as a
document has, and the part of one that an object delimits; in it `findValue` and `findObject`
have one lemma each.

`extractString` and `extractLong` then copy and read what was found; `longOf` is the number as
`strtol` reads it, up to its point or exponent.
-/

namespace MatrixFaces.Net.Mv

open MatrixFaces.Foundation

/-! ## What is seen of a document -/

/-- The value at the first name that ends in the word, if nothing but spaces and tabs is in
front of it. -/
def seenValue (word : Bytes) (keys : List JsonKey) : Option (JsonDoc .value) :=
  (firstKey word keys).bind fun key => if key.front.all isBlank then some key.value else none

/-- The names in the object at the word. -/
def seenObject (word : Bytes) (keys : List JsonKey) : Option (List JsonKey) :=
  (seenValue word keys).bind JsonDoc.objectKeys

/-- The characters of the string at the word. -/
def seenString (word : Bytes) (keys : List JsonKey) : Option Bytes :=
  (seenValue word keys).bind JsonDoc.stringChars

/-- The number at the word, whatever blanks are in front of it. -/
def seenNumber (word : Bytes) (keys : List JsonKey) : Option NumberText :=
  (firstKey word keys).bind fun key => key.value.numberText

/-- What `findValue` finds at a name. -/
def shown (key : JsonKey) : Bytes :=
  key.front.dropWhile isBlank ++ (key.value.text ++ key.after)

/-! ## Scopes -/

/-- A text, and the names that are found in it. -/
structure Scope (text : Bytes) (keys : List JsonKey) : Prop where
  sound : ∀ key ∈ keys, key.Sound
  search : ∀ word, IsWord word → strstr (keyText word) text =
    (firstKey word keys).map fun key => keyText word ++ key.rest

theorem foundIn_nil (word : Bytes) (keys : List JsonKey) :
    foundIn word keys [] = (firstKey word keys).map fun key => keyText word ++ key.rest := by
  rw [foundIn, strstr, if_neg (by simp [keyText]), Option.or_none]
  simp only [List.append_nil]

theorem scope_doc {part : JsonPart} (doc : JsonDoc part) : Scope doc.text doc.keys := by
  refine ⟨doc.sound, fun word hword => ?_⟩
  have hsearch := doc.strstr hword stops_nil
  rw [List.append_nil, foundIn_nil] at hsearch
  exact hsearch

/-- Brackets and blanks are passed. -/
theorem Scope.behind {text : Bytes} {keys : List JsonKey} (h : Scope text keys) (front : Bytes)
    (hfront : ∀ c ∈ front, c ≠ chQuote ∧ c ≠ 0) : Scope (front ++ text) keys :=
  ⟨h.sound, fun word hword => by rw [strstr_skips _ hfront, h.search word hword]⟩

theorem scope_nil : Scope [] [] :=
  ⟨(fun _ hkey => by cases hkey), fun word _ => foundIn_nil word []⟩

/-- An object without its closing brace. -/
theorem scope_object {doc : JsonDoc .value} {keys : List JsonKey} (h : doc.objectKeys = some keys) :
    IsObject doc.text ∧ Scope doc.text.dropLast keys := by
  cases doc with
  | emptyObject blank hblank =>
      cases h
      refine ⟨⟨blank, rfl, Or.inl hblank⟩, ?_⟩
      have hscope : Scope (chOpen :: (blank ++ [])) [] :=
        (scope_nil.behind blank hblank.passes).behind [chOpen] (forall_mem_of_all rfl)
      rw [JsonDoc.text, List.dropLast_concat]
      exact List.append_nil blank ▸ hscope
  | object members =>
      cases h
      refine ⟨⟨members.text, rfl, Or.inr members.jsonText⟩, ?_⟩
      rw [JsonDoc.text, List.dropLast_concat]
      exact (scope_doc members).behind [chOpen] (forall_mem_of_all rfl)
  | number | literal | string | emptyArray | array => cases h

/-! ## Values -/

theorem shown_of_blank {key : JsonKey} (h : key.front.all isBlank = true) :
    shown key = key.value.text ++ key.after := by
  rw [shown, List.dropWhile_eq_nil_iff.mpr (List.all_eq_true.mp h), List.nil_append]

/-- A line break in front of a value hides what it is. -/
theorem shown_of_not_blank {key : JsonKey} (hsound : key.Sound)
    (h : ¬ key.front.all isBlank = true) :
    ∃ c rest, shown key = c :: rest ∧ c ≠ chOpen ∧ c ≠ chQuote := by
  have hne : key.front.dropWhile isBlank ≠ [] := fun hnil =>
    h (List.all_eq_true.mpr (List.dropWhile_eq_nil_iff.mp hnil))
  obtain ⟨c, rest, hcons⟩ := List.exists_cons_of_ne_nil hne
  have hmem : c ∈ key.front := (List.dropWhile_suffix _).subset (hcons ▸ List.mem_cons_self)
  refine ⟨c, rest ++ (key.value.text ++ key.after), by rw [shown, hcons]; rfl, ?_⟩
  rcases hsound.front c hmem with rfl | rfl | rfl | rfl <;> decide

theorem isBlank_of_not_space : ∀ c : Byte, isSpace c = false → isBlank c = false :=
  byte_forall (by decide +kernel)

theorem shown_eq (key : JsonKey) : key.rest.dropWhile isBlank = shown key := by
  obtain ⟨c, rest, htext, hhead⟩ := key.value.exists_head
  have hc : ¬ isBlank c = true := by simp [isBlank_of_not_space c hhead.space]
  rw [JsonKey.rest, shown, List.append_assoc, List.dropWhile_append, htext, List.cons_append]
  split
  · rename_i hempty
    rw [List.dropWhile_cons_of_neg hc, List.isEmpty_iff.mp hempty, List.nil_append]
  · rfl

theorem shown_ne_nil (key : JsonKey) : shown key ≠ [] := by
  obtain ⟨c, rest, htext, _⟩ := key.value.exists_head
  simp [shown, htext]

namespace Scope

variable {text word : Bytes} {keys : List JsonKey}

theorem findValue (h : Scope text keys) (hword : IsWord word) :
    findValue text (keyText word) = (firstKey word keys).map shown := by
  rw [Mv.findValue, h.search word hword]
  cases firstKey word keys with
  | none => rfl
  | some key =>
      simp only [Option.map_some, List.drop_left, shown_eq]
      rw [if_neg (shown_ne_nil key)]

theorem sound_firstKey (h : Scope text keys) {key : JsonKey}
    (hkey : firstKey word keys = some key) : key.Sound :=
  h.sound key (List.mem_of_find?_eq_some hkey)

/-- What is found of an object is its text up to the closing brace. -/
theorem findObject_eq (h : Scope text keys) (hword : IsWord word) :
    Mv.findObject text (keyText word) =
      (seenValue word keys).bind fun value =>
        value.objectKeys.map fun _ => value.text.dropLast := by
  rw [Mv.findObject, h.findValue hword, seenValue]
  cases hkey : firstKey word keys with
  | none => rfl
  | some key =>
      simp only [Option.map_some, Option.bind_some]
      by_cases hblank : key.front.all isBlank = true
      · rw [if_pos hblank, shown_of_blank hblank, Option.bind_some]
        cases hobject : key.value.objectKeys with
        | none =>
            obtain ⟨c, rest, htext, hhead⟩ := key.value.exists_head
            have hc : c ≠ chOpen := by
              have hopen := hhead.object
              rw [hobject] at hopen
              simpa using hopen
            rw [htext, List.cons_append, findObjectEnd, if_neg hc]
            rfl
        | some inner =>
            rw [findObjectEnd_object (scope_object hobject).1, Option.map_some,
              List.take_append_of_le_length (Nat.sub_le _ _), ← List.dropLast_eq_take]
            rfl
      · obtain ⟨c, rest, hshown, hopen, _⟩ := shown_of_not_blank (h.sound_firstKey hkey) hblank
        rw [if_neg hblank, hshown, findObjectEnd, if_neg hopen]
        rfl

/-- The object at the word is the scope of the names seen in it. -/
theorem findObject (h : Scope text keys) (hword : IsWord word) :
    Option.Rel Scope (Mv.findObject text (keyText word)) (seenObject word keys) := by
  rw [h.findObject_eq hword, seenObject]
  cases seenValue word keys with
  | none => exact .none
  | some value =>
      rw [Option.bind_some, Option.bind_some]
      cases hobject : value.objectKeys with
      | none => exact .none
      | some inner => exact .some (scope_object hobject).2

end Scope

/-! ## Strings -/

theorem unslash_cons {c : Byte} (hc : c ≠ chBackslash) (rest : Bytes) :
    unslash (c :: rest) = c :: unslash rest := by
  cases rest with
  | nil => rfl
  | cons d rest => rw [unslash, if_neg hc]

theorem unslash_escape (c : Byte) (rest : Bytes) :
    unslash (chBackslash :: c :: rest) = c :: unslash rest := by
  rw [unslash, if_pos rfl]

theorem unquote_cons {c : Byte} (hquote : c ≠ chQuote) (hbackslash : c ≠ chBackslash)
    (rest : Bytes) : unquote (c :: rest) = (c :: (unquote rest).1, (unquote rest).2) := by
  rw [unquote.eq_def]
  simp only [if_neg hquote, if_neg hbackslash]

theorem unquote_escape (c : Byte) (rest : Bytes) :
    unquote (chBackslash :: c :: rest) = (c :: (unquote rest).1, (unquote rest).2) := by
  rw [unquote.eq_def]
  rfl

theorem hexDigit_plain : ∀ c : Byte, isHexDigit c = true → c ≠ chQuote ∧ c ≠ chBackslash :=
  byte_forall (by decide +kernel)

theorem unquote_hex {hex : Bytes} (h : ∀ c ∈ hex, isHexDigit c = true) {chars rest : Bytes}
    (hrest : unquote rest = (unslash chars, true)) :
    unquote (hex ++ rest) = (unslash (hex ++ chars), true) := by
  induction hex with
  | nil => exact hrest
  | cons c hex ih =>
      obtain ⟨hc, hhex⟩ := List.forall_mem_cons.mp h
      obtain ⟨hquote, hbackslash⟩ := hexDigit_plain c hc
      rw [List.cons_append, List.cons_append, unquote_cons hquote hbackslash, ih hhex,
        unslash_cons hbackslash]

theorem string_of_stringChars {doc : JsonDoc .value} {chars : Bytes}
    (h : doc.stringChars = some chars) :
    StringChars chars ∧ doc.text = chQuote :: chars ++ [chQuote] := by
  cases doc with
  | string _ hchars =>
      cases h
      exact ⟨hchars, rfl⟩
  | _ => cases h

/-- Of a string's escapes only the backslashes are taken off. -/
theorem unquote_chars {chars : Bytes} (h : StringChars chars) (rest : Bytes) :
    unquote (chars ++ chQuote :: rest) = (unslash chars, true) := by
  induction h with
  | nil =>
      rw [List.nil_append, unquote.eq_def]
      rfl
  | plain hquote hbackslash _ _ ih =>
      rw [List.cons_append, unquote_cons hquote hbackslash, ih, unslash_cons hbackslash]
  | escape _ _ ih =>
      rw [List.cons_append, List.cons_append, unquote_escape, ih, unslash_escape]
  | unicode _ hhex _ ih =>
      rw [List.cons_append, List.cons_append, List.append_assoc, unquote_escape,
        unquote_hex hhex ih, unslash_escape]

theorem unslash_ne_zero {chars : Bytes} (h : ∀ c ∈ chars, c ≠ 0) : ∀ c ∈ unslash chars, c ≠ 0 := by
  intro c hc
  induction chars using unslash.induct with
  | case1 => cases hc
  | case2 d => exact h c hc
  | case3 d rest ih =>
      rw [unslash_escape, List.mem_cons] at hc
      rcases hc with rfl | hc
      · exact h c (by simp)
      · exact ih (fun b hb => h b (by simp [hb])) hc
  | case4 b d rest hb ih =>
      rw [unslash_cons hb, List.mem_cons] at hc
      rcases hc with rfl | hc
      · exact h c (by simp)
      · exact ih (fun a ha => h a (List.mem_cons_of_mem b ha)) hc

/-! ## Numbers -/

/-- What `strtol` makes of a number. -/
def longOf (number : NumberText) : Int := max LONG_MIN (min LONG_MAX number.front)

/-- A `long` cast to `uint32_t`. -/
theorem toNat_ofInt (x : Int) : ((UInt32.ofInt x).toNat : Int) = x % 2 ^ 32 := by
  rw [UInt32.ofInt, UInt32.toNat_ofNat']
  omega

theorem strtol_blank {blank : Bytes} (h : ∀ c ∈ blank, isSpace c = true) (rest : Bytes) :
    strtol (blank ++ rest) = strtol rest := by
  rw [strtol, List.dropWhile_append_of_pos h, strtol]

theorem strtol_cons_of_not_number {c : Byte} (hspace : isSpace c = false)
    (hplus : c ≠ 0x2B) (h : (isDigit c || c == 0x2D) = false) (rest : Bytes) :
    strtol (c :: rest) = none := by
  rw [Bool.or_eq_false_iff, beq_eq_false_iff_ne] at h
  have hsign : readSign (c :: rest) = (1, c :: rest) := by
    rw [readSign, if_neg h.2, if_neg hplus]
  rw [strtol, List.dropWhile_cons_of_neg (by simp [hspace]), hsign]
  have hdigits : (c :: rest).takeWhile isDigit = [] := List.takeWhile_cons_of_neg (by simp [h.1])
  simp only [hdigits, if_true]

/-- Blanks of all kinds are passed in front of a number. -/
theorem strtol_shown {key : JsonKey} (hsound : key.Sound) :
    (strtol (shown key)).map Prod.fst =
      key.value.numberText.map longOf := by
  have hfront : ∀ c ∈ key.front.dropWhile isBlank, isSpace c = true := by
    intro c hc
    rcases hsound.front c ((List.dropWhile_suffix _).subset hc) with rfl | rfl | rfl | rfl <;> rfl
  rw [shown, strtol_blank hfront]
  cases hnumber : key.value.numberText with
  | none =>
      obtain ⟨c, rest, htext, hhead⟩ := key.value.exists_head
      have hnot := hhead.number
      rw [hnumber] at hnot
      rw [htext, List.cons_append, strtol_cons_of_not_number hhead.space hhead.plus hnot]
      rfl
  | some number =>
      have hvalue : key.value.text = number.text := by
        cases hdoc : key.value with
        | number n =>
            rw [hdoc] at hnumber
            cases hnumber
            rfl
        | _ => rw [hdoc] at hnumber; cases hnumber
      have hstop : ∀ c ∈ key.after.head?, isDigit c = false := by
        have hafter := hsound.after [] stops_nil
        rw [List.append_nil] at hafter
        intro c hc
        have hword := (hafter c hc).2
        rw [isWordByte, Bool.or_eq_false_iff, Bool.or_eq_false_iff] at hword
        exact hword.1.1
      rw [hvalue, number.strtol hstop]
      rfl

namespace Scope

variable {text word : Bytes} {keys : List JsonKey}

theorem extractLong (h : Scope text keys) (hword : IsWord word) :
    extractLong (Mv.findValue text (keyText word)) = (seenNumber word keys).map longOf := by
  rw [h.findValue hword, seenNumber]
  cases hkey : firstKey word keys with
  | none => rfl
  | some key => exact strtol_shown (h.sound_firstKey hkey)

theorem extractString (h : Scope text keys) (hword : IsWord word) (cap : Nat) :
    extractString (Mv.findValue text (keyText word)) cap =
      (seenString word keys).map fun chars => (unslash chars).take (cap - 1) := by
  rw [h.findValue hword, seenString, seenValue]
  cases hkey : firstKey word keys with
  | none => rfl
  | some key =>
      simp only [Option.map_some, Option.bind_some]
      by_cases hblank : key.front.all isBlank = true
      · rw [if_pos hblank, shown_of_blank hblank, Option.bind_some]
        cases hstring : key.value.stringChars with
        | none =>
            obtain ⟨c, rest, htext, hhead⟩ := key.value.exists_head
            have hc : c ≠ chQuote := by
              have hquote := hhead.string
              rw [hstring] at hquote
              simpa using hquote
            rw [htext, List.cons_append, Mv.extractString, if_neg fun hboth => hc hboth.1]
            rfl
        | some chars =>
            obtain ⟨hchars, htext⟩ := string_of_stringChars hstring
            have hread := unquote_chars hchars key.after
            have hsplit : chQuote :: chars ++ [chQuote] ++ key.after =
                chQuote :: (chars ++ chQuote :: key.after) := by simp
            rw [htext, hsplit, Mv.extractString, hread, if_pos ⟨rfl, rfl⟩]
            rfl
      · obtain ⟨c, rest, hshown, _, hquote⟩ := shown_of_not_blank (h.sound_firstKey hkey) hblank
        rw [if_neg hblank, hshown, Mv.extractString, if_neg fun hboth => hquote hboth.1]
        rfl

end Scope

end MatrixFaces.Net.Mv
