import MatrixFaces.Net.BlueFlagReading
import MatrixFaces.Net.MessagesText

set_option autoImplicit false

/-!
# Messages without escapes

Where a response is written without white space, its messages are flat and without escapes,
and the searches lead to the session's own messages, what is read of them is what they say.

`keepsMap_of_ownFirst` is what it comes to: for such a response, with the session's messages
first (`OwnFirst`), the map is kept.  The last section has responses with nothing in front of
the messages, for which that is so whatever the messages are.
-/

namespace MatrixFaces.Net.Mv

open MatrixFaces.Foundation
open SlotTable (keys write Represents)

/-! ## Texts without escapes -/

theorem unescape_plain {chars : Bytes} (h : chBackslash ∉ chars) : unescape chars = chars := by
  induction chars with
  | nil => rfl
  | cons c rest ih =>
      rw [List.mem_cons, not_or] at h
      cases rest with
      | nil => rfl
      | cons d rest =>
          rw [unescape.eq_def]
          dsimp only
          rw [if_pos (Ne.symm h.1), ih h.2]

theorem unslash_plain {chars : Bytes} (h : chBackslash ∉ chars) : unslash chars = chars := by
  induction chars with
  | nil => rfl
  | cons c rest ih =>
      rw [List.mem_cons, not_or] at h
      rw [unslash_cons (Ne.symm h.1), ih h.2]

theorem no_quote_of_plain {chars : Bytes} (h : StringChars chars) (hplain : chBackslash ∉ chars) :
    chQuote ∉ chars := by
  induction h with
  | nil => exact List.not_mem_nil
  | plain hquote _ _ _ ih =>
      rw [List.mem_cons, not_or] at hplain ⊢
      exact ⟨hquote.symm, ih hplain.2⟩
  | escape | unicode => exact absurd List.mem_cons_self hplain

theorem endsIn_plain {word name : Bytes} (h : StringChars name) (hplain : chBackslash ∉ name)
    (front after : Bytes) (value : JsonDoc .value) :
    JsonKey.endsIn word ⟨name, [], front, value, after⟩ = decide (unescape name = word) := by
  have hquote := no_quote_of_plain h hplain
  rw [unescape_plain hplain, JsonKey.endsIn, decide_eq_decide, and_iff_left rfl,
    List.suffix_cons_iff, List.cons.injEq, and_iff_right rfl]
  constructor
  · rintro (hsame | hsuffix)
    · exact hsame.symm
    · exact absurd (hsuffix.subset List.mem_cons_self) hquote
  · intro hsame
    exact Or.inl hsame.symm

/-! ## Flat objects -/

theorem seenValue_cons (word : Bytes) (key : JsonKey) (rest : List JsonKey) :
    seenValue word (key :: rest) =
      if key.endsIn word = true then if key.front.all isBlank = true then some key.value else none
      else seenValue word rest := by
  unfold seenValue firstKey
  rw [List.find?_cons]
  cases key.endsIn word <;> rfl

theorem firstKey_eq_seenValue {names : List JsonKey} (h : ∀ key ∈ names, key.front = [])
    (word : Bytes) : (firstKey word names).map JsonKey.value = seenValue word names := by
  unfold seenValue
  cases hkey : firstKey word names with
  | none => rfl
  | some key =>
      have hfront := h key (List.mem_of_find?_eq_some hkey)
      rw [Option.map_some, Option.bind_some, hfront]
      rfl

/-- In a flat object whose names have no escapes, the first name that ends in a word is the
member of that name. -/
theorem seenValue_flat : (doc : JsonDoc .members) → doc.compact = true →
    (∀ member ∈ doc.members, member.2.isScalar = true ∧ chBackslash ∉ member.1) →
    (∀ key ∈ doc.keys, key.front = []) ∧ ∀ word, seenValue word doc.keys =
      (doc.members.find? fun member => unescape member.1 = word).map Prod.snd
  | .oneMember (.member before name behind front value after hb hname hd hf ha), hcompact,
      hflat => by
      obtain ⟨rfl, rfl, rfl, rfl, -⟩ := JsonDoc.eq_of_compact_member hcompact
      obtain ⟨hscalar, hplain⟩ := hflat (name, value) List.mem_cons_self
      have hkeys : (JsonDoc.oneMember (.member [] name [] [] value [] hb hname hd hf ha)).keys =
          [⟨name, [], [], value, []⟩] := by
        rw [JsonDoc.keys, JsonDoc.keys, JsonDoc.keys_of_isScalar hscalar]
        rfl
      rw [hkeys]
      refine ⟨fun key hkey => ?_, fun word => ?_⟩
      · rw [List.mem_singleton.mp hkey]
      · rw [seenValue_cons, endsIn_plain hname hplain, JsonDoc.members, JsonDoc.members,
          List.find?_cons]
        by_cases hword : unescape name = word
        · simp [hword]
        · simp [hword, seenValue, firstKey]
  | .moreMembers (.member before name behind front value after hb hname hd hf ha) rest, hcompact,
      hflat => by
      rw [JsonDoc.compact, Bool.and_eq_true] at hcompact
      obtain ⟨rfl, rfl, rfl, rfl, -⟩ := JsonDoc.eq_of_compact_member hcompact.1
      obtain ⟨hscalar, hplain⟩ := hflat (name, value) List.mem_cons_self
      obtain ⟨hfronts, hrest⟩ := seenValue_flat rest hcompact.2 fun member hmember =>
        hflat member (List.mem_cons_of_mem _ hmember)
      have hkeys : (JsonDoc.moreMembers
          (.member [] name [] [] value [] hb hname hd hf ha) rest).keys =
          ⟨name, [], [], value, [] ++ ([chComma] ++ rest.text)⟩ :: rest.keys := by
        rw [JsonDoc.keys, JsonDoc.keys, JsonDoc.keys_of_isScalar hscalar]
        rfl
      have hmembers : (JsonDoc.moreMembers
          (.member [] name [] [] value [] hb hname hd hf ha) rest).members =
          (name, value) :: rest.members := rfl
      rw [hkeys, hmembers]
      refine ⟨List.forall_mem_cons.mpr ⟨rfl, hfronts⟩, fun word => ?_⟩
      rw [seenValue_cons, endsIn_plain hname hplain, hrest, List.find?_cons]
      by_cases hword : unescape name = word
      · simp [hword]
      · simp [hword]

/-! ## Messages -/

theorem pow_le_foldl (digits : Bytes) (start : Nat) :
    start * 10 ^ digits.length ≤
      digits.foldl (fun value c => value * 10 + (c.toNat - 0x30)) start := by
  induction digits generalizing start with
  | nil => simp
  | cons c rest ih =>
      have hrest := ih (start * 10 + (c.toNat - 0x30))
      calc
        start * 10 ^ (c :: rest).length = start * 10 * 10 ^ rest.length := by
          rw [List.length_cons, Nat.pow_succ', Nat.mul_assoc]
        _ ≤ (start * 10 + (c.toNat - 0x30)) * 10 ^ rest.length :=
          Nat.mul_le_mul_right _ (Nat.le_add_right _ _)
        _ ≤ _ := hrest

/-- Without leading zeros a number has a power of ten for each digit behind the first. -/
theorem IsRacingNumber.pow_le {digits : Bytes} (h : IsRacingNumber digits) :
    10 ^ (digits.length - 1) ≤ digitsValue digits := by
  obtain ⟨c, rest, rfl⟩ := List.exists_cons_of_ne_nil h.isDigits.1
  have hdigit : ∀ d : Byte, isDigit d = true → d ≠ 0x30 → 1 ≤ d.toNat - 0x30 :=
    byte_forall (by decide +kernel)
  have hhead : c ≠ 0x30 := by
    rintro rfl
    exact h.head rfl
  have hfirst := hdigit c (h.isDigits.2 c List.mem_cons_self) hhead
  calc
    10 ^ ((c :: rest).length - 1) = 1 * 10 ^ rest.length := by
      rw [List.length_cons, Nat.add_sub_cancel, Nat.one_mul]
    _ ≤ (0 * 10 + (c.toNat - 0x30)) * 10 ^ rest.length :=
      Nat.mul_le_mul_right _ (by rw [Nat.zero_mul, Nat.zero_add]; exact hfirst)
    _ ≤ digitsValue (c :: rest) := pow_le_foldl rest _

theorem IsRacingNumber.pos {digits : Bytes} (h : IsRacingNumber digits) :
    0 < digitsValue digits :=
  (Nat.pow_pos (by decide)).trans_le h.pow_le

theorem IsRacingNumber.length_le {digits : Bytes} (h : IsRacingNumber digits) :
    digits.length ≤ 5 := by
  by_contra hlong
  have hpow : 10 ^ 5 ≤ 10 ^ (digits.length - 1) := Nat.pow_le_pow_right (by decide) (by omega)
  have := hpow.trans (h.pow_le.trans h.bound)
  omega

/-- A bare number is its digits' value, and a quoted one its digits. -/
theorem numeral_cases {value : JsonDoc .value} {digits : Bytes} (h : digits ∈ numeral value) :
    (∃ n ∈ value.numberText, n.integer = some (digitsValue digits : Int) ∧
      n.front = digitsValue digits) ∨
      value.numberText = none ∧ value.stringChars = some digits := by
  cases value with
  | number n =>
      rw [numeral] at h
      split at h
      · rename_i hbare
        obtain ⟨hsign, hfrac, hexp⟩ := hbare
        cases h
        refine Or.inl ⟨n, rfl, ?_, ?_⟩
        · simp [NumberText.integer, NumberText.scale, hsign, hfrac, hexp]
        · simp [NumberText.front, hsign]
      · cases h
  | string chars hchars =>
      cases h
      exact Or.inr ⟨rfl, rfl⟩
  | literal | emptyObject | object | emptyArray | array => cases h

namespace PlainMessage

variable {message : JsonDoc .value}

/-- What is seen of a message are its members. -/
theorem seen (h : PlainMessage message) (hcompact : message.compact = true)
    (hnames : ∀ member ∈ message.members, chBackslash ∉ member.1) :
    ∃ names, message.objectKeys = some names ∧ (∀ key ∈ names, key.front = []) ∧
      ∀ word, seenValue word names = message.member? word := by
  cases message with
  | emptyObject blank hblank =>
      exact ⟨[], rfl, (fun _ hkey => by cases hkey), fun _ => rfl⟩
  | object members =>
      obtain ⟨hfronts, hseen⟩ := seenValue_flat members hcompact fun member hmember =>
        ⟨h.flat member hmember, hnames member hmember⟩
      exact ⟨members.keys, rfl, hfronts, hseen⟩
  | number | literal | string | emptyArray | array => cases h.isObject

/-- The strings of a message are read up to the size of the buffer. -/
theorem readString (h : PlainMessage message) {names : List JsonKey} {entry : Bytes}
    (hscope : Scope entry names) (hseen : ∀ word, seenValue word names = message.member? word)
    {name : Bytes} (hname : name ∈ fieldNames) (cap : Nat) :
    (extractString (findValue entry (keyText name)) cap).map cstring =
      (ownString name message).map (List.take (cap - 1)) := by
  have hword : IsWord name :=
    isWord_messageNames name (List.mem_cons_of_mem _ (List.mem_cons_of_mem _ hname))
  rw [hscope.extractString hword, seenString, hseen, ownString, Option.map_map, Option.map_map]
  cases hvalue : message.member? name with
  | none => rfl
  | some value =>
      rw [Option.bind_some]
      cases hstring : value.stringChars with
      | none => rfl
      | some chars =>
          have hplain := h.strings name hname value hvalue chars hstring
          have hzero : (0 : Byte) ∉ chars.take (cap - 1) := by
            intro hmem
            exact stringChars_ne_zero (string_of_stringChars hstring).1 0
              (List.mem_of_mem_take hmem) rfl
          rw [Option.map_some, Option.map_some, Function.comp_apply, Function.comp_apply,
            unslash_plain hplain, unescape_plain hplain, cstring_of_not_mem hzero]

/-- The racing number of a message is the value of its digits. -/
theorem ownNumber_eq (h : PlainMessage message) {value : JsonDoc .value} {digits : Bytes}
    (hvalue : message.member? racingNumberName = some value) (hdigits : digits ∈ numeral value) :
    ownNumber message = some (digitsValue digits : Int) := by
  rw [ownNumber, hvalue, Option.bind_some]
  rcases numeral_cases hdigits with ⟨n, hnumber, hinteger, -⟩ | ⟨hnumber, hstring⟩
  · rw [Option.mem_def.mp hnumber, Option.bind_some, hinteger, Option.some_or]
  · have hplain := h.strings racingNumberName (by decide) value hvalue digits hstring
    rw [hnumber, hstring, Option.bind_none, Option.none_or, Option.map_some,
      unescape_plain hplain]

/-- It is read. -/
theorem readNumber (h : PlainMessage message) {names : List JsonKey} {entry : Bytes}
    (hscope : Scope entry names) (hfronts : ∀ key ∈ names, key.front = [])
    (hseen : ∀ word, seenValue word names = message.member? word) :
    numberOf (findValue entry (keyText racingNumberName)) = ownNumber message := by
  have hword : IsWord racingNumberName := isWord_messageNames racingNumberName (by decide)
  have hnumber : seenNumber racingNumberName names =
      (message.member? racingNumberName).bind JsonDoc.numberText := by
    rw [← hseen, ← firstKey_eq_seenValue hfronts, seenNumber, Option.bind_map]
    rfl
  rw [numberOf, hscope.extractLong hword, hnumber, hscope.extractString hword, seenString, hseen]
  cases hvalue : message.member? racingNumberName with
  | none =>
      rw [ownNumber, hvalue]
      rfl
  | some value =>
      obtain ⟨digits, hdigits, hracing⟩ := h.number value hvalue
      have hbound := hracing.bound
      have hmin : min LONG_MAX (digitsValue digits : Int) = digitsValue digits := by
        rw [LONG_MAX]
        omega
      have hmax : max LONG_MIN (digitsValue digits : Int) = digitsValue digits := by
        rw [LONG_MIN]
        omega
      rw [h.ownNumber_eq hvalue hdigits, Option.bind_some, Option.bind_some]
      rcases numeral_cases hdigits with ⟨n, hnumber, -, hfront⟩ | ⟨hnumber, hstring⟩
      · rw [Option.mem_def.mp hnumber, Option.map_some, longOf, hfront, hmin, hmax]
      · have hplain := h.strings racingNumberName (by decide) value hvalue digits hstring
        have hshort : digits.take (8 - 1) = digits :=
          List.take_of_length_le (hracing.length_le.trans (by decide))
        have hstrtol : strtol (digits ++ []) = some (min LONG_MAX (digitsValue digits : Int), []) :=
          strtol_digits hracing.isDigits fun c hc => by cases hc
        rw [List.append_nil, hmin] at hstrtol
        rw [hnumber, hstring, Option.map_none, Option.map_some, unslash_plain hplain, hshort,
          Option.map_some, hstrtol, Option.map_some, Option.getD_some]

theorem ownNumber_bounds (h : PlainMessage message) {number : Int}
    (hnumber : ownNumber message = some number) : 0 < number ∧ number ≤ 65535 := by
  obtain ⟨value, hvalue, -⟩ := Option.bind_eq_some_iff.mp hnumber
  obtain ⟨digits, hdigits, hracing⟩ := h.number value hvalue
  rw [h.ownNumber_eq hvalue hdigits, Option.some.injEq] at hnumber
  have hpos := hracing.pos
  have hbound := hracing.bound
  omega

/-- A message is read as what it says, its flag up to the size of the buffer. -/
theorem driverFlag_eq (h : PlainMessage message) (hcompact : message.compact = true)
    (hnames : ∀ member ∈ message.members, chBackslash ∉ member.1) :
    driverFlag message.text.dropLast =
      (ownFlag message).map fun flag => (flag.1, flag.2.take 15) := by
  obtain ⟨names, hobject, hfronts, hseen⟩ := h.seen hcompact hnames
  have hscope := (scope_object hobject).2
  have hcategory : ascii "\"Category\":" = keyText categoryName := by decide
  have hscopeKey : ascii "\"Scope\":" = keyText scopeName := by decide
  have hnumber : ascii "\"RacingNumber\":" = keyText racingNumberName := by decide
  have hflag : ascii "\"Flag\":" = keyText flagName := by decide
  have hread := fun name (hname : name ∈ fieldNames) => h.readString hscope hseen hname 16
  have hword : ∀ (found : Option Bytes) (word : Bytes), word.length < 15 →
      (found.map (List.take (16 - 1)) = some word ↔ found = some word) := by
    intro found word hlength
    cases found with
    | none => exact Iff.rfl
    | some text => rw [Option.map_some, Option.some.injEq, Option.some.injEq, take_eq_iff hlength]
  rw [Mv.driverFlag_eq, hcategory, hscopeKey, hnumber, hflag, hread _ (by decide),
    hread _ (by decide), h.readNumber hscope hfronts hseen, ownFlag]
  by_cases hisFlag : ownString categoryName message = some (ascii "Flag")
  · rw [if_neg (not_not_intro ((hword _ _ (by decide)).mpr hisFlag))]
    by_cases hisDriver : ownString scopeName message = some (ascii "Driver")
    · rw [if_neg (not_not_intro ((hword _ _ (by decide)).mpr hisDriver)),
        if_pos ⟨hisFlag, hisDriver⟩]
      cases hracing : ownNumber message with
      | none => rfl
      | some number =>
          have hpos := (h.ownNumber_bounds hracing).1
          have hread := hread flagName (by decide)
          dsimp only
          rw [if_neg (not_le.mpr hpos), Option.bind_some, Option.map_map]
          calc
            _ = ((extractString (findValue message.text.dropLast (keyText flagName)) 16).map
                cstring).map (Prod.mk (UInt16.ofInt number)) := by
              rw [Option.map_map]
              rfl
            _ = _ := by
              rw [hread, Option.map_map]
              rfl
    · rw [if_pos fun hread => hisDriver ((hword _ _ (by decide)).mp hread),
        if_neg fun hboth => hisDriver hboth.2]
      rfl
  · rw [if_pos fun hread => hisFlag ((hword _ _ (by decide)).mp hread),
      if_neg fun hboth => hisFlag hboth.1]
    rfl

end PlainMessage

/-! ## Responses -/

/-- The names seen first lead to the session's messages, and no name in these has an escape. -/
structure OwnFirst (path : List Bytes) (doc : JsonDoc .element) : Prop where
  seen : (seenTopic raceControlName doc).bind (seenValue messagesName) =
    ownField path raceControlName messagesName doc
  isObject : ∃ object ∈ ownField path raceControlName messagesName doc, object.objectKeys.isSome
  names : ∀ message ∈ ownMessages path doc, ∀ member ∈ message.2.members, chBackslash ∉ member.1

/-- The members of a `Messages` object as its entries. -/
theorem exists_messagesText : (doc : JsonDoc .members) → doc.compact = true →
    (∀ member ∈ doc.members, IsDigits member.1 ∧ member.2.objectKeys.isSome) →
    ∃ list : List MessageText, list ≠ [] ∧ messagesText list = doc.text ∧
      list.map MessageText.read = doc.members.map fun member =>
        (min LONG_MAX (digitsValue member.1 : Int), member.2.text.dropLast)
  | .oneMember (.member before name behind front value after hb hname hd hf ha), hcompact, h => by
      obtain ⟨rfl, rfl, rfl, rfl, -⟩ := JsonDoc.eq_of_compact_member hcompact
      obtain ⟨hdigits, hobject⟩ := h (name, value) List.mem_cons_self
      obtain ⟨names, hnames⟩ := Option.isSome_iff_exists.mp hobject
      refine ⟨[⟨name, value.text, hdigits, (scope_object hnames).1⟩], List.cons_ne_nil _ _, ?_, rfl⟩
      simp [messagesText, MessageText.text, JsonDoc.text]
  | .moreMembers (.member before name behind front value after hb hname hd hf ha) rest, hcompact,
      h => by
      rw [JsonDoc.compact, Bool.and_eq_true] at hcompact
      obtain ⟨rfl, rfl, rfl, rfl, -⟩ := JsonDoc.eq_of_compact_member hcompact.1
      obtain ⟨hdigits, hobject⟩ := h (name, value) List.mem_cons_self
      obtain ⟨names, hnames⟩ := Option.isSome_iff_exists.mp hobject
      obtain ⟨list, hne, htext, hread⟩ := exists_messagesText rest hcompact.2
        fun member hmember => h member (List.mem_cons_of_mem _ hmember)
      obtain ⟨next, more, rfl⟩ := List.exists_cons_of_ne_nil hne
      refine ⟨⟨name, value.text, hdigits, (scope_object hnames).1⟩ :: next :: more,
        List.cons_ne_nil _ _, ?_, ?_⟩
      · rw [messagesText.eq_3 _ _ hne, htext]
        simp [MessageText.text, JsonDoc.text]
      · rw [List.map_cons, hread]
        rfl

/-- The entries read in an object of messages. -/
theorem entriesIn_plain {value : JsonDoc .value} (hobject : value.objectKeys.isSome)
    (hcompact : value.compact = true)
    (h : ∀ member ∈ value.members, IsDigits member.1 ∧ member.2.objectKeys.isSome) :
    entriesIn value = some (value.members.map fun member =>
      (min LONG_MAX (digitsValue member.1 : Int), member.2.text.dropLast)) := by
  cases value with
  | emptyObject blank hblank =>
      rw [JsonDoc.compact, List.isEmpty_iff] at hcompact
      subst hcompact
      rfl
  | object members =>
      obtain ⟨list, -, htext, hread⟩ := exists_messagesText members hcompact h
      have hinner : (JsonDoc.object members).text.dropLast.drop 1 = members.text := by
        rw [JsonDoc.text, List.dropLast_concat, List.drop_one, List.tail_cons]
      rw [entriesIn, hinner, ← htext, dictEntries_messagesText, hread]
      rfl
  | number | literal | string | emptyArray | array => cases hobject

/-- Only whether a flag is BLUE is heard. -/
theorem heard_take (nowMs : UInt32) (map : LastSeen) (flag : FlagMessage) :
    heard nowMs map (flag.1, flag.2.take 15) = heard nowMs map flag := by
  have hblue : flag.2.take 15 = ascii "BLUE" ↔ flag.2 = ascii "BLUE" := take_eq_iff (by decide)
  unfold heard
  simp only [hblue]

section

variable {path : List Bytes} {doc : JsonDoc .element}

/-- What is seen of a plain response are its own messages. -/
theorem OwnFirst.seenMessages (h : OwnFirst path doc) (hplain : PlainResponse path doc) :
    seenMessages doc = some ((ownMessages path doc).map fun message =>
      (messageIndex message, message.2.text.dropLast)) := by
  obtain ⟨object, hobject, hisObject⟩ := h.isObject
  have hmessages : ownMessages path doc = object.members := by
    rw [ownMessages, Option.mem_def.mp hobject]
    rfl
  have hindex : ∀ message ∈ object.members,
      (min LONG_MAX (digitsValue message.1 : Int), message.2.text.dropLast) =
        (messageIndex message, message.2.text.dropLast) := by
    intro message hmessage
    obtain ⟨hdigits, hbound⟩ := hplain.index message (hmessages ▸ hmessage)
    have hescape : chBackslash ∉ message.1 := by
      intro hmem
      exact absurd (hdigits.2 _ hmem) (by decide)
    rw [messageIndex, unescape_plain hescape, LONG_MAX, min_eq_right]
    omega
  rw [Mv.seenMessages, h.seen, Option.mem_def.mp hobject, Option.bind_some, hmessages,
    entriesIn_plain hisObject (JsonDoc.compact_at? (JsonDoc.compact_root hplain.compact) hobject)
      fun message hmessage => ⟨(hplain.index message (hmessages ▸ hmessage)).1,
        (hplain.plain message (hmessages ▸ hmessage)).isObject⟩,
    List.map_congr_left hindex]

theorem PlainResponse.compact_message (h : PlainResponse path doc)
    {message : Bytes × JsonDoc .value} (hmessage : message ∈ ownMessages path doc) :
    message.2.compact = true := by
  unfold ownMessages at hmessage
  cases hobject : ownField path raceControlName messagesName doc with
  | none =>
      rw [hobject] at hmessage
      cases hmessage
  | some object =>
      rw [hobject] at hmessage
      exact JsonDoc.compact_members object
        (JsonDoc.compact_at? (JsonDoc.compact_root h.compact) hobject) message hmessage

/-- The flags that are read are those that the messages show. -/
theorem OwnFirst.flagsAbove (h : OwnFirst path doc) (hplain : PlainResponse path doc) {last : Int}
    (hlast : ∀ message ∈ ownMessages path doc, last < messageIndex message) :
    flagsAbove last ((ownMessages path doc).map fun message =>
      (messageIndex message, message.2.text.dropLast)) =
        (ownFlags path doc).map fun flag => (flag.1, flag.2.take 15) := by
  have hall : ∀ entry ∈ (ownMessages path doc).map fun message =>
      (messageIndex message, message.2.text.dropLast), decide (last < entry.1) = true := by
    intro entry hentry
    obtain ⟨message, hmessage, rfl⟩ := List.mem_map.mp hentry
    exact decide_eq_true (hlast message hmessage)
  rw [Mv.flagsAbove, List.filter_eq_self.mpr hall, List.filterMap_map, ownFlags,
    List.map_filterMap]
  refine List.filterMap_congr fun message hmessage => ?_
  exact (hplain.plain message hmessage).driverFlag_eq (hplain.compact_message hmessage)
    (h.names message hmessage)

theorem PlainResponse.number_ne_zero (h : PlainResponse path doc) :
    ∀ flag ∈ ownFlags path doc, flag.1 ≠ 0 := by
  intro flag hflag
  obtain ⟨message, hmessage, hown⟩ := List.mem_filterMap.mp hflag
  unfold ownFlag at hown
  split at hown
  · obtain ⟨number, hnumber, hfound⟩ := Option.bind_eq_some_iff.mp hown
    obtain ⟨_, -, rfl⟩ := Option.map_eq_some_iff.mp hfound
    obtain ⟨hpos, hbound⟩ := (h.plain message hmessage).ownNumber_bounds hnumber
    intro hzero
    have hnat : (UInt16.ofInt number).toNat = 0 := congrArg UInt16.toNat hzero
    rw [UInt16.ofInt, UInt16.toNat_ofNat'] at hnat
    omega
  · cases hown

/-- Where no other names come first, what is read of a plain response is what it says. -/
theorem heardAlike_of_ownFirst (hplain : PlainResponse path doc) (h : OwnFirst path doc) :
    HeardAlike path doc := by
  intro _
  refine ⟨_, h.seenMessages hplain, fun last nowMs map hlast _ => ?_⟩
  have hnone : ((ownMessages path doc).map fun message =>
      (messageIndex message, message.2.text.dropLast)).any
        (fun message => decide (message.1 < last)) = false := by
    rw [List.any_map, List.any_eq_false]
    intro message hmessage
    simpa using (hlast message hmessage).le
  have hused : ((ownFlags path doc).map fun flag => (flag.1, flag.2.take 15)).filter
      (fun flag => flag.1 ≠ 0) = (ownFlags path doc).map fun flag => (flag.1, flag.2.take 15) := by
    refine List.filter_eq_self.mpr fun flag hflag => ?_
    obtain ⟨own, hown, rfl⟩ := List.mem_map.mp hflag
    exact decide_eq_true (hplain.number_ne_zero own hown)
  rw [heardAll, hnone, if_neg Bool.false_ne_true, h.flagsAbove hplain hlast, hused, List.foldl_map]
  exact List.foldl_ext _ _ map fun before flag _ => heard_take nowMs before flag

/-- The table keeps the map of such a response. -/
theorem keepsMap_of_ownFirst (hplain : PlainResponse path doc) (h : OwnFirst path doc) :
    KeepsMap path doc :=
  keepsMap_of_heardAlike (heardAlike_of_ownFirst hplain h)

end

/-! ## A response with nothing else in it -/

theorem seenValue_within (word more : Bytes) (keys : List JsonKey) :
    seenValue word (keys.map (JsonKey.within more)) = seenValue word keys := by
  rw [seenValue, firstKey, List.find?_map]
  change Option.bind (Option.map _ (firstKey word keys)) _ = _
  rw [Option.bind_map]
  rfl

/-- A list of one member, for who looks for a name in its text. -/
theorem seenValue_oneMember {name : Bytes} (h : name.all isUnescaped = true) (word : Bytes)
    (value : JsonDoc .value) :
    seenValue word (JsonDoc.oneMember (.plainMember name value)).keys =
      if name = word then some value else seenValue word value.keys := by
  have hname : name.filter isUnescaped = name := List.filter_eq_self.mpr (List.all_eq_true.mp h)
  have hplain : chBackslash ∉ name := fun hmem =>
    absurd (List.all_eq_true.mp h _ hmem) (by decide)
  have hkeys : (JsonDoc.oneMember (.plainMember name value)).keys =
      ⟨name.filter isUnescaped, [], [], value, []⟩ :: value.keys.map (JsonKey.within []) := rfl
  rw [hkeys, seenValue_cons, hname, endsIn_plain (stringChars_of_all h) hplain,
    unescape_plain hplain, seenValue_within]
  by_cases hword : name = word
  · simp [hword]
  · simp [hword]

theorem seenValue_object (word : Bytes) (members : JsonDoc .members) :
    seenValue word (JsonDoc.object members).keys = seenValue word members.keys :=
  seenValue_within word [chClose] members.keys

theorem seenValue_element (word : Bytes) {front after : Bytes} (value : JsonDoc .value)
    (hfront : IsBlankRun front) (hafter : IsBlankRun after) :
    seenValue word (JsonDoc.element front value after hfront hafter).keys =
      seenValue word value.keys :=
  seenValue_within word after value.keys

theorem member?_oneMember {name : Bytes} (h : name.all isUnescaped = true)
    (value : JsonDoc .value) :
    (JsonDoc.object (.oneMember (.plainMember name value))).member? name = some value := by
  have hname : name.filter isUnescaped = name := List.filter_eq_self.mpr (List.all_eq_true.mp h)
  have hplain : chBackslash ∉ name := fun hmem =>
    absurd (List.all_eq_true.mp h _ hmem) (by decide)
  have hmembers : (JsonDoc.object (.oneMember (.plainMember name value))).members =
      [(name.filter isUnescaped, value)] := rfl
  rw [JsonDoc.member?, hmembers, hname, List.find?_singleton, unescape_plain hplain,
    if_pos (decide_eq_true rfl)]
  rfl

/-- A response with the session's messages and nothing else. -/
def messagesOnly (messages : JsonDoc .members) : JsonDoc .element :=
  responseOf (.oneMember (.plainMember raceControlName
    (.object (.oneMember (.plainMember messagesName (.object messages))))))

theorem ownField_messagesOnly (messages : JsonDoc .members) :
    ownField [ascii "data"] raceControlName messagesName (messagesOnly messages) =
      some (.object messages) := by
  have hnames : ∀ name ∈ [ascii "data", sessionName, raceControlName, messagesName],
      name.all isUnescaped = true := by decide
  rw [ownField, JsonDoc.at?, messagesOnly, responseOf, JsonDoc.root]
  simp only [List.singleton_append, List.foldlM_cons, List.foldlM_nil]
  rw [member?_oneMember (hnames _ (by simp))]
  simp only [Option.bind_eq_bind, Option.bind_some]
  rw [member?_oneMember (hnames _ (by simp))]
  simp only [Option.bind_some]
  rw [member?_oneMember (hnames _ (by simp))]
  simp only [Option.bind_some]
  rw [member?_oneMember (hnames _ (by simp))]
  rfl

theorem seen_messagesOnly (messages : JsonDoc .members) :
    (seenTopic raceControlName (messagesOnly messages)).bind (seenValue messagesName) =
      some (.object messages) := by
  have hdata : (ascii "data").all isUnescaped = true := by decide
  have hsession : seenObject sessionName (messagesOnly messages).keys =
      some (JsonDoc.oneMember (.plainMember raceControlName
        (.object (.oneMember (.plainMember messagesName (.object messages)))))).keys := by
    rw [messagesOnly, responseOf, seenObject, seenValue_element, seenValue_object,
      seenValue_oneMember hdata, if_neg (by decide), seenValue_object,
      seenValue_oneMember (by decide), if_pos rfl]
    rfl
  have htopic : seenObject raceControlName (JsonDoc.oneMember (.plainMember raceControlName
      (.object (.oneMember (.plainMember messagesName (.object messages)))))).keys =
        some (JsonDoc.oneMember (.plainMember messagesName (.object messages))).keys := by
    rw [seenObject, seenValue_oneMember (by decide), if_pos rfl]
    rfl
  rw [seenTopic, hsession, Option.bind_some, htopic, Option.bind_some,
    seenValue_oneMember (by decide), if_pos rfl]

/-- What a response says that has nothing in front of its messages is what is read of it. -/
theorem ownFirst_messagesOnly {messages : JsonDoc .members}
    (h : ∀ message ∈ messages.members, ∀ member ∈ message.2.members, chBackslash ∉ member.1) :
    OwnFirst [ascii "data"] (messagesOnly messages) where
  seen := (seen_messagesOnly messages).trans (ownField_messagesOnly messages).symm
  isObject := ⟨_, ownField_messagesOnly messages, rfl⟩
  names := by
    rw [ownMessages, ownField_messagesOnly]
    exact h

/-- The blue flag of driver 44, and nothing else. -/
example : KeepsMap [ascii "data"] (messagesOnly (.oneMember (.plainMember (ascii "1")
    (driverMessage (ascii "BLUE"))))) :=
  keepsMap_of_ownFirst (by decide +kernel) (ownFirst_messagesOnly (by decide +kernel))

end MatrixFaces.Net.Mv
