import Mathlib.Data.List.Forall2
import Mathlib.Data.Nat.Digits.Defs
import MatrixFaces.ApiAuth.AuthHeader

set_option autoImplicit false

/-!
# The grammar of the Authorization header

The header as a grammar says it, with no reader in sight: a scheme and a list of
parameters (`IsHeader`), each a name, an equals sign and a value of its own kind, with blanks
and commas between them.  `lastValue` is what a list of parameters says of a name.

The main result is `parseAuthHeader_grammar`: the scanner comes to its end on every string,
it accepts exactly the headers of the grammar in which all four names occur, and each field
is the last value of its name, the timestamp the number that its digits write.

The scanner is followed parameter by parameter: one turn of its loop takes one parameter of
the grammar off the front, and where no parameter stands it gives up.
-/

namespace MatrixFaces.ApiAuth

open MatrixFaces.Foundation

/-! ## The grammar -/

def blanks : Bytes := ascii " \t"
def separators : Bytes := ascii " \t,"
def hexDigits : Bytes := ascii "0123456789abcdefABCDEF"
def decimalDigits : Bytes := ascii "0123456789"

/-- The number that decimal digits denote. -/
def numberOf (digits : Bytes) : Nat := Nat.ofDigits 10 (digits.reverse.map fun c => c.toNat - 48)

/-- `n` hexadecimal digits. -/
def IsHex (n : Nat) (value : Bytes) : Prop := value.length = n ∧ ∀ c ∈ value, c ∈ hexDigits

/-- One to ten digits that denote a 32-bit number. -/
def IsTimestamp (value : Bytes) : Prop :=
  1 ≤ value.length ∧ value.length ≤ 10 ∧ (∀ c ∈ value, c ∈ decimalDigits) ∧
    numberOf value ≤ 2 ^ 32 - 1

/-- `name=value`. -/
structure Param where
  name : Bytes
  value : Bytes

namespace Param

def text (param : Param) : Bytes := param.name ++ ascii "=" ++ param.value

/-- One of the four parameters. -/
def Valid (param : Param) : Prop :=
  (param.name = ascii "id" ∧ IsHex 16 param.value) ∨
  (param.name = ascii "ts" ∧ IsTimestamp param.value) ∨
  (param.name = ascii "nonce" ∧ IsHex 16 param.value) ∨
  (param.name = ascii "sig" ∧ IsHex 64 param.value)

end Param

/-- Parameters with separators in front of, between and behind them. -/
inductive IsParams : List Param → Bytes → Prop
  | done {seps : Bytes} (hseps : ∀ c ∈ seps, c ∈ separators) : IsParams [] seps
  | param {seps rest : Bytes} {param : Param} {params : List Param}
      (hseps : ∀ c ∈ seps, c ∈ separators) (hvalid : param.Valid)
      (hend : ∀ c ∈ rest.head?, c ∈ separators) (hrest : IsParams params rest) :
      IsParams (param :: params) (seps ++ param.text ++ rest)

/-- `HMAC` in any letter case. -/
def IsScheme (scheme : Bytes) : Prop :=
  List.Forall₂ (· ∈ ·) scheme [ascii "Hh", ascii "Mm", ascii "Aa", ascii "Cc"]

/-- The whole header: blanks, the scheme, and behind at least one more blank the parameters. -/
def IsHeader (params : List Param) (text : Bytes) : Prop :=
  ∃ lead scheme body : Bytes, text = lead ++ scheme ++ body ∧ (∀ c ∈ lead, c ∈ blanks) ∧
    IsScheme scheme ∧ (∃ c ∈ body.head?, c ∈ blanks) ∧ IsParams params body

/-- The value of the last parameter of a name. -/
def lastValue (name : Bytes) (params : List Param) : Option Bytes :=
  ((params.filter fun param => param.name = name).getLast?).map Param.value

/-! ## Characters -/

theorem isSpace_iff (c : Byte) : isSpace c = true ↔ c ∈ blanks :=
  byte_forall (P := fun c => isSpace c = true ↔ c ∈ blanks) (by decide +kernel) c

theorem isSeparator_iff (c : Byte) : (isSpace c || c == comma) = true ↔ c ∈ separators :=
  byte_forall (P := fun c => (isSpace c || c == comma) = true ↔ c ∈ separators)
    (by decide +kernel) c

theorem isHexDigit_iff (c : Byte) :
    ((48 ≤ c && c ≤ 57) || (97 ≤ c && c ≤ 102) || (65 ≤ c && c ≤ 70)) = true ↔ c ∈ hexDigits :=
  byte_forall (P := fun c =>
    ((48 ≤ c && c ≤ 57) || (97 ≤ c && c ≤ 102) || (65 ≤ c && c ≤ 70)) = true ↔ c ∈ hexDigits)
    (by decide +kernel) c

theorem isDigit_iff (c : Byte) : isDigit c = true ↔ c ∈ decimalDigits :=
  byte_forall (P := fun c => isDigit c = true ↔ c ∈ decimalDigits) (by decide +kernel) c

/-- `lower` folds exactly the two cases of a letter of the scheme. -/
theorem lower_scheme (c : Byte) :
    (lower c = lower 72 ↔ c ∈ ascii "Hh") ∧ (lower c = lower 77 ↔ c ∈ ascii "Mm") ∧
      (lower c = lower 65 ↔ c ∈ ascii "Aa") ∧ (lower c = lower 67 ↔ c ∈ ascii "Cc") :=
  byte_forall (P := fun c =>
    (lower c = lower 72 ↔ c ∈ ascii "Hh") ∧ (lower c = lower 77 ↔ c ∈ ascii "Mm") ∧
      (lower c = lower 65 ↔ c ∈ ascii "Aa") ∧ (lower c = lower 67 ↔ c ∈ ascii "Cc"))
    (by decide +kernel) c

/-! ## Values -/

theorem decimal_eq (digits : Bytes) : decimal digits = numberOf digits := by
  induction digits using List.reverseRecOn with
  | nil => rfl
  | append_singleton digits c ih =>
      rw [decimal, List.foldl_append, ← decimal, ih, numberOf, numberOf, List.reverse_append]
      simp only [List.foldl_cons, List.foldl_nil, List.reverse_singleton, List.singleton_append,
        List.map_cons, Nat.ofDigits_cons]
      omega

theorem takeHexValue_eq_some_iff {value text : Bytes} {n : Nat} :
    takeHexValue value n = some text ↔ IsHex n value ∧ text = value := by
  have hchars : isHexString value = true ↔ ∀ c ∈ value, c ∈ hexDigits := by
    rw [isHexString, List.all_eq_true]
    exact forall₂_congr fun c _ => isHexDigit_iff c
  rw [takeHexValue, IsHex, ← hchars]
  split
  · rename_i h
    simp [h, eq_comm]
  · rename_i h
    simp [h]

theorem takeTimestamp_eq_some_iff {value : Bytes} {t : Bytes × UInt32} :
    takeTimestamp value = some t ↔
      IsTimestamp value ∧ t = (value, UInt32.ofNat (numberOf value)) := by
  have hchars : value.all isDigit = true ↔ ∀ c ∈ value, c ∈ decimalDigits := by
    rw [List.all_eq_true]
    exact forall₂_congr fun c _ => isDigit_iff c
  rw [takeTimestamp, decimal_eq, IsTimestamp, ← hchars]
  split
  · rename_i h
    constructor
    · intro hnone
      cases hnone
    · intro ht
      omega
  · rename_i hlength
    cases hdigits : value.all isDigit with
    | false => simp
    | true =>
        by_cases hbig : numberOf value > 0xffffffff
        · simp only [Bool.true_eq_false, if_false, if_pos hbig]
          constructor
          · intro hnone
            cases hnone
          · intro ht
            omega
        · simp only [Bool.true_eq_false, if_false, if_neg hbig, Option.some.injEq]
          constructor
          · rintro rfl
            exact ⟨⟨by omega, by omega, trivial, by omega⟩, rfl⟩
          · rintro ⟨_, rfl⟩
            rfl

/-! ## One parameter -/

/-- What is seen once a parameter was taken. -/
def PartialHeader.set (out : PartialHeader) (param : Param) : PartialHeader :=
  if param.name = ascii "id" then { out with id := some param.value }
  else if param.name = ascii "ts" then
    { out with ts := some (param.value, UInt32.ofNat (numberOf param.value)) }
  else if param.name = ascii "nonce" then { out with nonce := some param.value }
  else if param.name = ascii "sig" then { out with sig := some param.value }
  else out

theorem takeParam_eq_some_iff {out next : PartialHeader} {name value : Bytes} :
    takeParam out name value = some next ↔
      (Param.mk name value).Valid ∧ next = out.set ⟨name, value⟩ := by
  have hhex : ∀ (n : Nat) (f : Bytes → PartialHeader),
      (takeHexValue value n).map f = some next ↔ IsHex n value ∧ next = f value := by
    intro n f
    simp only [Option.map_eq_some_iff, takeHexValue_eq_some_iff]
    constructor
    · rintro ⟨_, ⟨hvalid, rfl⟩, rfl⟩
      exact ⟨hvalid, rfl⟩
    · rintro ⟨hvalid, rfl⟩
      exact ⟨value, ⟨hvalid, rfl⟩, rfl⟩
  have hts : (takeTimestamp value).map (fun v => { out with ts := some v }) = some next ↔
      IsTimestamp value ∧
        next = { out with ts := some (value, UInt32.ofNat (numberOf value)) } := by
    simp only [Option.map_eq_some_iff, takeTimestamp_eq_some_iff]
    constructor
    · rintro ⟨_, ⟨hvalid, rfl⟩, rfl⟩
      exact ⟨hvalid, rfl⟩
    · rintro ⟨hvalid, rfl⟩
      exact ⟨_, ⟨hvalid, rfl⟩, rfl⟩
  simp only [takeParam, PartialHeader.set, Param.Valid]
  split
  · rename_i hname
    subst hname
    simp [hhex, kClientIdHexLen, kClientIdBytes, show ascii "id" ≠ ascii "ts" by decide,
      show ascii "id" ≠ ascii "nonce" by decide, show ascii "id" ≠ ascii "sig" by decide]
  · split
    · rename_i hname
      subst hname
      simp [hts, show ascii "ts" ≠ ascii "id" by decide,
        show ascii "ts" ≠ ascii "nonce" by decide, show ascii "ts" ≠ ascii "sig" by decide]
    · split
      · rename_i hname
        subst hname
        simp [hhex, kNonceHexLen, kNonceBytes, show ascii "nonce" ≠ ascii "id" by decide,
          show ascii "nonce" ≠ ascii "ts" by decide, show ascii "nonce" ≠ ascii "sig" by decide]
      · split
        · simp_all [kSignatureHexLen, kSignatureBytes]
        · simp_all

theorem lastValue_concat (name : Bytes) (params : List Param) (param : Param) :
    lastValue name (params ++ [param]) =
      if param.name = name then some param.value else lastValue name params := by
  rw [lastValue, List.filter_append, lastValue]
  split
  · rename_i hname
    simp [hname]
  · rename_i hname
    simp [hname]

/-- After all parameters each field holds the last value of its name. -/
theorem foldl_set (params : List Param) :
    params.foldl PartialHeader.set {} =
      { id := lastValue (ascii "id") params
        ts := (lastValue (ascii "ts") params).map fun v => (v, UInt32.ofNat (numberOf v))
        nonce := lastValue (ascii "nonce") params
        sig := lastValue (ascii "sig") params } := by
  induction params using List.reverseRecOn with
  | nil => rfl
  | append_singleton params param ih =>
      rw [List.foldl_append, List.foldl_cons, List.foldl_nil, ih, PartialHeader.set]
      simp only [lastValue_concat]
      split
      · rename_i hname
        simp [hname, show ascii "id" ≠ ascii "ts" by decide,
          show ascii "id" ≠ ascii "nonce" by decide, show ascii "id" ≠ ascii "sig" by decide]
      · split
        · rename_i hname
          simp [hname, show ascii "ts" ≠ ascii "nonce" by decide,
            show ascii "ts" ≠ ascii "sig" by decide]
        · split
          · rename_i hname
            simp [hname, show ascii "nonce" ≠ ascii "sig" by decide]
          · split
            · rfl
            · rfl

/-! ## The loop -/

theorem Param.Valid.value_chars {param : Param} (h : param.Valid) :
    ∀ c ∈ param.value, isValueChar c = true := by
  have hhex : ∀ n, IsHex n param.value → ∀ c ∈ param.value, isValueChar c = true := fun n hvalue =>
    valueChars_of_takeHexValue (takeHexValue_eq_some_iff.mpr ⟨hvalue, rfl⟩)
  rcases h with ⟨_, hvalue⟩ | ⟨_, hvalue⟩ | ⟨_, hvalue⟩ | ⟨_, hvalue⟩
  · exact hhex _ hvalue
  · exact valueChars_of_takeTimestamp (takeTimestamp_eq_some_iff.mpr ⟨hvalue, rfl⟩)
  · exact hhex _ hvalue
  · exact hhex _ hvalue

theorem Param.Valid.name_chars {param : Param} (h : param.Valid) :
    param.name ≠ [] ∧
      param.name.all (fun c => c != equals && c != comma && !isSpace c) = true := by
  rcases h with ⟨hname, _⟩ | ⟨hname, _⟩ | ⟨hname, _⟩ | ⟨hname, _⟩ <;> rw [hname] <;> decide

/-- Separators in front are skipped in the turn of the parameter behind them. -/
theorem parseParams_separators {seps : Bytes} (h : ∀ c ∈ seps, c ∈ separators) (fuel : Nat)
    (p : Bytes) (out : PartialHeader) :
    parseParams (fuel + 1) (seps ++ p) out = parseParams (fuel + 1) p out := by
  induction seps with
  | nil => rfl
  | cons c rest ih =>
      rw [List.forall_mem_cons] at h
      rw [List.cons_append, parseParams_separator ((isSeparator_iff c).mpr h.1), ih h.2]

/-- A text of the grammar is read to its end. -/
theorem parseParams_of_isParams {params : List Param} {text : Bytes} (h : IsParams params text) :
    ∀ {fuel : Nat} (out : PartialHeader), text.length ≤ fuel →
      parseParams fuel text out = some (params.foldl PartialHeader.set out) := by
  induction h with
  | @done seps hseps =>
      intro fuel out hfuel
      cases fuel with
      | zero => rfl
      | succ fuel =>
          rw [← List.append_nil seps, parseParams_separators hseps, parseParams_nil]
          rfl
  | @param seps rest param params hseps hvalid hend hrest ih =>
      intro fuel out hfuel
      have hlength : rest.length < fuel := by
        have hpos := List.length_pos_iff.mpr hvalid.name_chars.1
        simp only [Param.text, List.length_append] at hfuel
        omega
      obtain ⟨fuel, rfl⟩ := Nat.exists_eq_add_one_of_ne_zero (by omega : fuel ≠ 0)
      have htext : seps ++ param.text ++ rest =
          seps ++ (param.name ++ equals :: (param.value ++ rest)) := by
        rw [Param.text]
        simp [ascii, equals]
      have htake : takeParam out param.name param.value = some (out.set param) :=
        takeParam_eq_some_iff.mpr ⟨hvalid, rfl⟩
      rw [htext, parseParams_separators hseps,
        parseParams_param hvalid.name_chars hvalid.value_chars
          (fun c hc => (isSeparator_iff c).mpr (hend c hc)) htake,
        ih _ (by omega), List.foldl_cons]

/-- A scan stops at the end or in front of a character it does not take. -/
theorem head_dropWhile {q : Byte → Bool} {text : Bytes} :
    ∀ c ∈ (text.dropWhile q).head?, q c = false := by
  intro c hc
  have hstop := List.head?_dropWhile_not q text
  rw [hc] at hstop
  simpa using hstop

/-- What a turn of the loop that does not fail has read. -/
theorem parseParams_succ_cases {fuel : Nat} {p : Bytes} {out final : PartialHeader}
    (h : parseParams (fuel + 1) p out = some final) :
    (∀ c ∈ p, c ∈ separators) ∨
      ∃ (seps rest : Bytes) (param : Param) (next : PartialHeader),
        p = seps ++ param.text ++ rest ∧ (∀ c ∈ seps, c ∈ separators) ∧
          (∀ c ∈ rest.head?, c ∈ separators) ∧
          takeParam out param.name param.value = some next ∧
          parseParams fuel rest next = some final := by
  have hseps : ∀ c ∈ p.takeWhile (fun c => isSpace c || c == comma), c ∈ separators := by
    intro c hc
    have hc' := List.mem_takeWhile_imp hc
    exact (isSeparator_iff c).mp hc'
  have hp := List.takeWhile_append_dropWhile (p := fun c => isSpace c || c == comma) (l := p)
  rw [parseParams] at h
  generalize p.dropWhile (fun c => isSpace c || c == comma) = body at h hp
  generalize p.takeWhile (fun c => isSpace c || c == comma) = seps at hseps hp
  simp only at h
  split at h
  · rename_i hnil
    left
    rw [← hp, hnil, List.append_nil]
    exact hseps
  · have hbody := List.takeWhile_append_dropWhile
      (p := fun c => c != equals && c != comma) (l := body)
    have hstop := @head_dropWhile (fun c => c != equals && c != comma) body
    generalize body.dropWhile (fun c => c != equals && c != comma) = tail at h hbody hstop
    generalize body.takeWhile (fun c => c != equals && c != comma) = name at h hbody
    cases tail with
    | nil => cases h
    | cons c rest =>
        simp only at h
        split at h
        · cases h
        · rename_i hequals
          have hc : c = equals := by simpa using hequals
          subst hc
          have hrest := List.takeWhile_append_dropWhile
            (p := fun c => c != comma && !isSpace c) (l := rest)
          have hend := @head_dropWhile (fun c => c != comma && !isSpace c) rest
          generalize rest.dropWhile (fun c => c != comma && !isSpace c) = after at h hrest hend
          generalize rest.takeWhile (fun c => c != comma && !isSpace c) = value at h hrest
          cases htake : takeParam out name value with
          | none => rw [htake] at h; cases h
          | some next =>
              rw [htake] at h
              right
              refine ⟨seps, after, ⟨name, value⟩, next, ?_, hseps, ?_, htake, h⟩
              · rw [← hp, ← hbody, ← hrest, Param.text]
                simp [ascii, equals]
              · intro c hc
                have hc' := hend c hc
                rw [← isSeparator_iff]
                cases hspace : isSpace c with
                | true => rfl
                | false => simpa [hspace] using hc'

/-- What the loop accepts is a text of the grammar. -/
theorem isParams_of_parseParams {fuel : Nat} :
    ∀ {p : Bytes} {out final : PartialHeader}, p.length ≤ fuel →
      parseParams fuel p out = some final → ∃ params, IsParams params p := by
  induction fuel with
  | zero =>
      intro p out final hfuel _
      have hnil : p = [] := List.eq_nil_of_length_eq_zero (Nat.le_zero.mp hfuel)
      exact ⟨[], hnil ▸ .done (by simp)⟩
  | succ fuel ih =>
      intro p out final hfuel h
      rcases parseParams_succ_cases h with
        hseps | ⟨seps, rest, param, next, rfl, hseps, hend, htake, hnext⟩
      · exact ⟨[], .done hseps⟩
      · have hvalid : param.Valid := (takeParam_eq_some_iff.mp htake).1
        have hshort : rest.length ≤ fuel := by
          have hpos := List.length_pos_iff.mpr hvalid.name_chars.1
          simp only [Param.text, List.length_append] at hfuel
          omega
        obtain ⟨params, hparams⟩ := ih hshort hnext
        exact ⟨param :: params, .param hseps hvalid hend hparams⟩

/-- The bound on the turns is never reached: more turns change nothing. -/
theorem parseParams_fuel {text : Bytes} {fuel : Nat} (h : text.length ≤ fuel)
    (out : PartialHeader) :
    parseParams fuel text out = parseParams text.length text out := by
  by_cases hgrammar : ∃ params, IsParams params text
  · obtain ⟨params, hparams⟩ := hgrammar
    rw [parseParams_of_isParams hparams out h, parseParams_of_isParams hparams out (le_refl _)]
  · have hnone : ∀ {fuel : Nat}, text.length ≤ fuel → parseParams fuel text out = none := by
      intro fuel hfuel
      rw [Option.eq_none_iff_forall_ne_some]
      intro final hfinal
      exact hgrammar (isParams_of_parseParams hfuel hfinal)
    rw [hnone h, hnone (le_refl _)]

/-! ## The header -/

theorem exists_four {text : Bytes} (h : text.length = 4) : ∃ a b c d, text = [a, b, c, d] := by
  rcases text with _ | ⟨a, _ | ⟨b, _ | ⟨c, _ | ⟨d, _ | ⟨e, rest⟩⟩⟩⟩⟩
  case cons.cons.cons.cons.nil => exact ⟨a, b, c, d, rfl⟩
  all_goals
    simp only [List.length_cons, List.length_nil] at h
    omega

theorem isScheme_iff {scheme : Bytes} :
    IsScheme scheme ↔
      scheme.length = kScheme.length ∧ matchesIgnoringCase scheme kScheme = true := by
  have hletters : kScheme = [72, 77, 65, 67] := rfl
  rw [IsScheme, matchesIgnoringCase, hletters]
  constructor
  · intro h
    obtain ⟨a, b, c, d, rfl⟩ := exists_four h.length_eq
    simp only [List.forall₂_cons] at h
    simp [lower_scheme, h]
  · rintro ⟨hlength, hall⟩
    obtain ⟨a, b, c, d, rfl⟩ := exists_four hlength
    simpa [lower_scheme] using hall

theorem not_isSpace_of_scheme {scheme : Bytes} (h : IsScheme scheme) :
    ∀ c ∈ scheme.head?, isSpace c = false := by
  cases h with
  | cons hfirst _ =>
      rintro c ⟨⟩
      revert hfirst
      exact byte_forall (P := fun c => c ∈ ascii "Hh" → isSpace c = false) (by decide +kernel) _

/-- A header of the grammar is read, and says what its last parameters say. -/
theorem parseAuthHeader_of_isHeader {params : List Param} {value : Bytes}
    (h : IsHeader params (cstring value)) :
    parseAuthHeader (some value) = (params.foldl PartialHeader.set {}).complete := by
  obtain ⟨lead, scheme, body, htext, hlead, hscheme, ⟨first, hfirst, hblank⟩, hparams⟩ := h
  have hskip : (cstring value).dropWhile isSpace = scheme ++ body := by
    rw [htext, List.append_assoc,
      List.dropWhile_append_of_pos fun c hc => (isSpace_iff c).mpr (hlead c hc)]
    cases hscheme with
    | cons hletter hrest =>
        have hhead := not_isSpace_of_scheme (.cons hletter hrest) _ rfl
        rw [List.cons_append, List.dropWhile_cons_of_neg (by simp [hhead])]
  obtain ⟨hlength, hmatch⟩ := isScheme_iff.mp hscheme
  have hmatches : matchesIgnoringCase (scheme ++ body) kScheme = true := by
    rw [matchesIgnoringCase, ← hlength, List.take_left]
    rw [matchesIgnoringCase, ← hlength, List.take_length] at hmatch
    exact hmatch
  have hbody : (scheme ++ body).drop kScheme.length = body := by rw [← hlength, List.drop_left]
  rw [parseAuthHeader]
  simp only [hskip, hmatches, hbody]
  rw [if_neg (by simp [List.length_append, hlength])]
  cases body with
  | nil => cases hfirst
  | cons c rest =>
      cases hfirst
      simp only [(isSpace_iff first).mpr hblank, Bool.true_eq_false, if_false]
      rw [parseParams_of_isParams hparams _ (le_refl _)]
      rfl

/-- A header that is accepted is one of the grammar. -/
theorem isHeader_of_parseAuthHeader {value : Bytes} {header : AuthHeader}
    (h : parseAuthHeader (some value) = some header) :
    ∃ params, IsHeader params (cstring value) := by
  rw [parseAuthHeader] at h
  have hsplit := List.takeWhile_append_dropWhile (p := isSpace) (l := cstring value)
  have hlead : ∀ c ∈ (cstring value).takeWhile isSpace, c ∈ blanks := by
    intro c hc
    have hc' := List.mem_takeWhile_imp hc
    exact (isSpace_iff c).mp hc'
  generalize (cstring value).dropWhile isSpace = p at h hsplit
  split at h
  · cases h
  · rename_i hguard
    simp only [not_or, Nat.not_lt, Bool.not_eq_false] at hguard
    have hscheme : IsScheme (p.take kScheme.length) := by
      rw [isScheme_iff, matchesIgnoringCase, List.take_take, Nat.min_self]
      exact ⟨by rw [List.length_take]; omega, hguard.2⟩
    have hp := List.take_append_drop kScheme.length p
    generalize p.drop kScheme.length = body at h hp
    cases body with
    | nil => cases h
    | cons c rest =>
        simp only at h
        split at h
        · cases h
        · rename_i hblank
          rw [Option.bind_eq_some_iff] at h
          obtain ⟨final, hfinal, _⟩ := h
          obtain ⟨params, hparams⟩ := isParams_of_parseParams (le_refl _) hfinal
          refine ⟨params, (cstring value).takeWhile isSpace, p.take kScheme.length, c :: rest, ?_,
            hlead, hscheme, ⟨c, rfl, ?_⟩, hparams⟩
          · rw [List.append_assoc, hp, hsplit]
          · rw [← isSpace_iff]
            simpa using hblank

theorem complete_eq_some_iff {params : List Param} {header : AuthHeader} :
    (params.foldl PartialHeader.set {}).complete = some header ↔
      lastValue (ascii "id") params = some header.id ∧
      lastValue (ascii "ts") params = some header.ts ∧
      lastValue (ascii "nonce") params = some header.nonce ∧
      lastValue (ascii "sig") params = some header.sig ∧
      header.timestamp = UInt32.ofNat (numberOf header.ts) := by
  obtain ⟨id, nonce, sig, ts, timestamp⟩ := header
  rw [foldl_set, PartialHeader.complete]
  cases lastValue (ascii "id") params with
  | none => simp
  | some lastId =>
      cases lastValue (ascii "ts") params with
      | none => simp
      | some lastTs =>
          cases lastValue (ascii "nonce") params with
          | none => simp
          | some lastNonce =>
              cases lastValue (ascii "sig") params with
              | none => simp
              | some lastSig =>
                  simp only [Option.map_some, Option.some.injEq, AuthHeader.mk.injEq]
                  constructor
                  · rintro ⟨rfl, rfl, rfl, rfl, rfl⟩
                    exact ⟨rfl, rfl, rfl, rfl, rfl⟩
                  · rintro ⟨rfl, rfl, rfl, rfl, rfl⟩
                    exact ⟨rfl, rfl, rfl, rfl, rfl⟩

theorem lastValue_isSome_iff (name : Bytes) (params : List Param) :
    (lastValue name params).isSome = true ↔ ∃ param ∈ params, param.name = name := by
  rw [lastValue, Option.isSome_map, List.getLast?_isSome, ne_eq, List.filter_eq_nil_iff]
  simp

theorem IsParams.valid {params : List Param} {text : Bytes} (h : IsParams params text) :
    ∀ param ∈ params, param.Valid := by
  induction h with
  | done => simp
  | param _ hvalid _ _ ih => exact List.forall_mem_cons.mpr ⟨hvalid, ih⟩

/-- The last value of a name was checked as one of that name. -/
theorem IsHeader.lastValue_valid {params : List Param} {text name value : Bytes}
    (h : IsHeader params text) (hlast : lastValue name params = some value) :
    (Param.mk name value).Valid := by
  obtain ⟨lead, scheme, body, _, _, _, _, hbody⟩ := h
  rw [lastValue, Option.map_eq_some_iff] at hlast
  obtain ⟨param, hparam, rfl⟩ := hlast
  have hmem := List.mem_of_getLast? hparam
  rw [List.mem_filter, decide_eq_true_eq] at hmem
  obtain ⟨hin, rfl⟩ := hmem
  exact hbody.valid param hin

theorem Param.valid_ts {value : Bytes} (h : (Param.mk (ascii "ts") value).Valid) :
    IsTimestamp value := by
  simpa [Valid, show ascii "ts" ≠ ascii "id" by decide, show ascii "ts" ≠ ascii "nonce" by decide,
    show ascii "ts" ≠ ascii "sig" by decide] using h

theorem Param.valid_nonce {value : Bytes} (h : (Param.mk (ascii "nonce") value).Valid) :
    IsHex 16 value := by
  simpa [Valid, show ascii "nonce" ≠ ascii "id" by decide,
    show ascii "nonce" ≠ ascii "ts" by decide, show ascii "nonce" ≠ ascii "sig" by decide] using h

/-- The signed fields of an accepted header. -/
theorem signed_of_parseAuthHeader {value : Bytes} {header : AuthHeader}
    (h : parseAuthHeader (some value) = some header) :
    IsTimestamp header.ts ∧ IsHex 16 header.nonce := by
  obtain ⟨params, hparams⟩ := isHeader_of_parseAuthHeader h
  rw [parseAuthHeader_of_isHeader hparams, complete_eq_some_iff] at h
  obtain ⟨_, hts, hnonce, _, _⟩ := h
  exact ⟨Param.valid_ts (hparams.lastValue_valid hts),
    Param.valid_nonce (hparams.lastValue_valid hnonce)⟩

/-- The scanner stops within the string and accepts exactly the grammar with all four
names; each field is then the last value of its name, the timestamp its number. -/
theorem parseAuthHeader_grammar (value : Bytes) :
    (∀ (text : Bytes) (out : PartialHeader) (turns : Nat), text.length ≤ turns →
      parseParams turns text out = parseParams text.length text out) ∧
    ((parseAuthHeader (some value)).isSome = true ↔
      ∃ params, IsHeader params (cstring value) ∧
        ∀ name ∈ [ascii "id", ascii "ts", ascii "nonce", ascii "sig"],
          ∃ param ∈ params, param.name = name) ∧
    ∀ header params, parseAuthHeader (some value) = some header →
      IsHeader params (cstring value) →
        lastValue (ascii "id") params = some header.id ∧
        lastValue (ascii "ts") params = some header.ts ∧
        lastValue (ascii "nonce") params = some header.nonce ∧
        lastValue (ascii "sig") params = some header.sig ∧
        header.timestamp.toNat = numberOf header.ts := by
  refine ⟨fun text out turns h => parseParams_fuel h out, ?_, ?_⟩
  · simp only [List.forall_mem_cons, List.not_mem_nil, false_implies, implies_true, and_true,
      ← lastValue_isSome_iff]
    constructor
    · intro h
      obtain ⟨header, hheader⟩ := Option.isSome_iff_exists.mp h
      obtain ⟨params, hparams⟩ := isHeader_of_parseAuthHeader hheader
      rw [parseAuthHeader_of_isHeader hparams, complete_eq_some_iff] at hheader
      exact ⟨params, hparams, by simp [hheader]⟩
    · rintro ⟨params, hparams, hid, hts, hnonce, hsig⟩
      obtain ⟨id, hid⟩ := Option.isSome_iff_exists.mp hid
      obtain ⟨ts, hts⟩ := Option.isSome_iff_exists.mp hts
      obtain ⟨nonce, hnonce⟩ := Option.isSome_iff_exists.mp hnonce
      obtain ⟨sig, hsig⟩ := Option.isSome_iff_exists.mp hsig
      have hdone : (params.foldl PartialHeader.set {}).complete =
          some ⟨id, nonce, sig, ts, UInt32.ofNat (numberOf ts)⟩ :=
        complete_eq_some_iff.mpr ⟨hid, hts, hnonce, hsig, rfl⟩
      rw [parseAuthHeader_of_isHeader hparams, hdone]
      rfl
  · intro header params h hparams
    rw [parseAuthHeader_of_isHeader hparams, complete_eq_some_iff] at h
    obtain ⟨hid, hts, hnonce, hsig, htimestamp⟩ := h
    have hnumber := (Param.valid_ts (hparams.lastValue_valid hts)).2.2.2
    refine ⟨hid, hts, hnonce, hsig, ?_⟩
    rw [htimestamp, UInt32.toNat_ofNat', Nat.mod_eq_of_lt (by omega)]

end MatrixFaces.ApiAuth
