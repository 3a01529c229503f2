import MatrixFaces.Foundation.JsonText
import MatrixFaces.Net.MultiViewerClient

set_option autoImplicit false

/-!
# The responses a server may give

A response is its status line, its fields and its body; its length is given in one field
or not at all.  What the client notes of a field is what its window shows of it.

`Answer` carries the proofs that no other field has the name of the length and that the length,
where it is given, is the body's, so an answer that is at odds with itself cannot be built.
`windowLine` is a line as the client's short window shows it, and `shown` the number that is
left of a length there.
-/

namespace MatrixFaces.Net.Mv

open MatrixFaces.Foundation

/-! ## Responses -/

/-- A header field. -/
structure Field where
  name : Bytes
  value : Bytes
  named : name ≠ []
  isName : ∀ c ∈ name, c ≠ chColon ∧ c ≠ chCr ∧ c ≠ chLf
  isValue : chLf ∉ value

def Field.line (field : Field) : Bytes := field.name ++ chColon :: field.value

def lengthName : Bytes := ascii "content-length"

/-- A `Content-Length` field: blanks, the number and blanks again. -/
structure LengthField where
  name : Bytes
  blanks : Bytes
  digits : Bytes
  trailing : Bytes
  isName : name.map tolower = lengthName
  isBlanks : ∀ c ∈ blanks, isBlank c = true
  isDigits : IsDigits digits
  isTrailing : ∀ c ∈ trailing, isBlank c = true

def LengthField.value (field : LengthField) : Bytes :=
  field.blanks ++ field.digits ++ field.trailing

theorem ne_of_blank :
    ∀ c : Byte, isBlank c = true → c ≠ chLf ∧ c ≠ chCr ∧ c ≠ 0 ∧ isDigit c = false :=
  byte_forall (by decide +kernel)

theorem ne_of_digit :
    ∀ c : Byte, isDigit c = true → c ≠ chLf ∧ c ≠ chCr ∧ c ≠ 0 ∧ isBlank c = false :=
  byte_forall (by decide +kernel)

theorem ne_of_tolower_mem :
    ∀ c : Byte, tolower c ∈ lengthName → c ≠ chColon ∧ c ≠ chCr ∧ c ≠ chLf ∧ c ≠ 0 :=
  byte_forall (by decide +kernel)

theorem tolower_eq_colon : ∀ c : Byte, tolower c = chColon → c = chColon :=
  byte_forall (by decide +kernel)

namespace LengthField

variable (field : LengthField)

theorem name_ne {c : Byte} (hc : c ∈ field.name) : c ≠ chColon ∧ c ≠ chCr ∧ c ≠ chLf ∧ c ≠ 0 :=
  ne_of_tolower_mem c (field.isName ▸ List.mem_map_of_mem hc)

theorem length_name : field.name.length = 14 := by
  have hlength := congrArg List.length field.isName
  rw [List.length_map] at hlength
  exact hlength

/-- The field as any other. -/
def toField : Field where
  name := field.name
  value := field.value
  named := by
    intro hempty
    have hlength := field.length_name
    rw [hempty] at hlength
    cases hlength
  isName := fun c hc => ⟨(field.name_ne hc).1, (field.name_ne hc).2.1, (field.name_ne hc).2.2.1⟩
  isValue := by
    intro hmem
    rw [value, List.mem_append, List.mem_append] at hmem
    rcases hmem with (hmem | hmem) | hmem
    · exact (ne_of_blank _ (field.isBlanks _ hmem)).1 rfl
    · exact (ne_of_digit _ (field.isDigits.2 _ hmem)).1 rfl
    · exact (ne_of_blank _ (field.isTrailing _ hmem)).1 rfl

/-- The digits that the window over the line has room for. -/
def shownDigits : Bytes :=
  field.digits.take (kHeaderLineCap - 1 - (field.name.length + 1 + field.blanks.length))

/-- The number they write, as far as a `long` goes. -/
def shown : Nat := min LONG_MAX.toNat (digitsValue field.shownDigits)

end LengthField

/-- A response; with no length given its body ends where the server closes. -/
structure Answer where
  status : Bytes
  before : List Field
  length : Option LengthField
  after : List Field
  body : Bytes
  isStatus : chLf ∉ status
  others : ∀ field ∈ before ++ after, field.name.map tolower ≠ lengthName
  correct : ∀ field ∈ length, digitsValue field.digits = body.length

namespace Answer

def fields (answer : Answer) : List Field :=
  answer.before ++ (answer.length.map LengthField.toField).toList ++ answer.after

/-- The fields' lines and the blank one. -/
def fieldsText : List Field → Bytes
  | [] => crlf
  | field :: rest => field.line ++ crlf ++ fieldsText rest

/-- The bytes of a response. -/
def text (answer : Answer) : Bytes :=
  answer.status ++ crlf ++ (fieldsText answer.fields ++ answer.body)

/-- The length that the client reads off the header is the body's, or none, or more than the
buffer holds. -/
def LengthShown (answer : Answer) (cap : Nat) : Prop :=
  ∀ field ∈ answer.length,
    field.shown = answer.body.length ∨ field.shown = 0 ∨ cap < field.shown

instance (answer : Answer) (cap : Nat) : Decidable (answer.LengthShown cap) :=
  inferInstanceAs (Decidable (∀ field ∈ answer.length, _))

end Answer

/-! ## A line through the window -/

/-- What is left of a line of the header. -/
def windowLine (line : Bytes) : Bytes := (lineOf kHeaderLineCap (line ++ [chCr])).2

theorem stripCr_isPrefix (line : Bytes) : stripCr line <+: line :=
  List.rdropWhile_prefix _ _

theorem windowLine_isPrefix (line : Bytes) : windowLine line <+: line ++ [chCr] :=
  (stripCr_isPrefix _).trans (List.take_prefix _ _)

theorem windowLine_nil : windowLine [] = [] := by decide

theorem Field.windowLine_ne_nil (field : Field) : windowLine field.line ≠ [] := by
  obtain ⟨c, rest, hname⟩ := List.exists_cons_of_ne_nil field.named
  have hc : c ≠ chCr := (field.isName c (hname ▸ List.mem_cons_self)).2.1
  have hline : (field.line ++ [chCr]).take (kHeaderLineCap - 1) =
      [] ++ c :: (rest ++ chColon :: field.value ++ [chCr]).take 254 := by
    rw [Field.line, hname]
    rfl
  change stripCr ((field.line ++ [chCr]).take (kHeaderLineCap - 1)) ≠ []
  rw [hline, stripCr_append_cons _ _ hc]
  exact List.cons_ne_nil _ _

theorem Field.lf_not_mem (field : Field) : chLf ∉ field.line := by
  rw [Field.line, List.mem_append, List.mem_cons, not_or, not_or]
  exact ⟨fun hmem => (field.isName _ hmem).2.2 rfl, by decide, field.isValue⟩

/-! ## What is noted of it -/

theorem noteHeader_contentLength {line : Bytes}
    (h : headerIs line (ascii "content-length:") = false) (headers : Headers) :
    (noteHeader line headers).contentLength = headers.contentLength := by
  rw [noteHeader, h, if_neg Bool.false_ne_true]
  split
  · split
    · rfl
    · split <;> rfl
  · rfl

/-- Only a `Content-Length` field looks like one. -/
theorem Field.not_headerIs (field : Field) (h : field.name.map tolower ≠ lengthName) :
    headerIs (windowLine field.line) (ascii "content-length:") = false := by
  refine decide_eq_false fun hfront => h ?_
  have hname : (ascii "content-length:").map tolower = lengthName ++ [chColon] := by decide
  have hline : (field.line ++ [chCr]).map tolower =
      field.name.map tolower ++ chColon :: (field.value ++ [chCr]).map tolower := by
    rw [Field.line, List.append_assoc, List.map_append, List.cons_append, List.map_cons]
    rfl
  rw [hname] at hfront
  obtain ⟨rest, hrest⟩ := hfront.trans ((windowLine_isPrefix field.line).map tolower)
  rw [hline, List.append_assoc, List.singleton_append] at hrest
  have hnotName : chColon ∉ field.name.map tolower := by
    intro hmem
    obtain ⟨c, hc, hcolon⟩ := List.mem_map.mp hmem
    exact (field.isName c hc).1 (tolower_eq_colon c hcolon)
  have hnotLength : chColon ∉ lengthName := by decide
  rw [← takeWhile_bne_append hnotName ((field.value ++ [chCr]).map tolower), ← hrest,
    takeWhile_bne_append hnotLength]

theorem stripCr_append {front : Bytes} (h : chCr ∉ front) (rest : Bytes) :
    stripCr (front ++ rest) = front ++ stripCr rest := by
  rcases List.eq_nil_or_concat front with rfl | ⟨init, c, rfl⟩
  · rfl
  · rw [List.concat_eq_append] at h ⊢
    have hc : c ≠ chCr := by
      rintro rfl
      exact h (List.mem_append_right init List.mem_cons_self)
    rw [List.append_assoc, List.singleton_append, stripCr_append_cons init rest hc,
      List.append_assoc, List.singleton_append]

namespace LengthField

variable (field : LengthField)

/-- What the window shows of the blanks in front of the number. -/
def shownBlanks : Bytes := field.blanks.take (kHeaderLineCap - 1 - (field.name.length + 1))

/-- What the window shows behind the number. -/
def shownEnd : Bytes :=
  stripCr ((field.trailing ++ [chCr]).take (kHeaderLineCap - 1 -
    (field.name.length + 1 + field.blanks.length + field.digits.length)))

theorem shownBlanks_blank {c : Byte} (hc : c ∈ field.shownBlanks) : isBlank c = true :=
  field.isBlanks c (List.mem_of_mem_take hc)

theorem shownDigits_digit {c : Byte} (hc : c ∈ field.shownDigits) : isDigit c = true :=
  field.isDigits.2 c (List.mem_of_mem_take hc)

theorem shownEnd_ne {c : Byte} (hc : c ∈ field.shownEnd) : isDigit c = false ∧ c ≠ 0 := by
  have hmem := List.mem_of_mem_take ((stripCr_isPrefix _).mem hc)
  rcases List.mem_append.mp hmem with hblank | hcr
  · have hne := ne_of_blank c (field.isTrailing c hblank)
    exact ⟨hne.2.2.2, hne.2.2.1⟩
  · rw [List.mem_singleton.mp hcr]
    decide

/-- The line, as far as the window shows it. -/
theorem windowLine_eq :
    windowLine field.toField.line =
      field.name ++ chColon :: (field.shownBlanks ++ (field.shownDigits ++ field.shownEnd)) := by
  have hraw : field.toField.line ++ [chCr] =
      field.name ++ chColon :: (field.blanks ++ (field.digits ++ (field.trailing ++ [chCr]))) := by
    simp only [Field.line, toField, value, List.append_assoc, List.cons_append]
  have hname := field.length_name
  have htake : (field.toField.line ++ [chCr]).take (kHeaderLineCap - 1) =
      field.name ++ chColon :: (field.shownBlanks ++ (field.shownDigits ++
        (field.trailing ++ [chCr]).take (kHeaderLineCap - 1 -
          (field.name.length + 1 + field.blanks.length + field.digits.length)))) := by
    have hwindow : kHeaderLineCap - 1 = 255 := rfl
    rw [hraw, List.take_append, List.take_of_length_le (by omega), shownBlanks, shownDigits, hname,
      hwindow]
    congr 1
    change chColon :: List.take 240 _ = _
    rw [List.take_append, List.take_append]
    congr 4 <;> omega
  have hblanks : chCr ∉ field.shownBlanks := fun hmem =>
    (ne_of_blank _ (field.shownBlanks_blank hmem)).2.1 rfl
  have hdigits : chCr ∉ field.shownDigits := fun hmem =>
    (ne_of_digit _ (field.shownDigits_digit hmem)).2.1 rfl
  change stripCr ((field.toField.line ++ [chCr]).take (kHeaderLineCap - 1)) = _
  rw [htake, stripCr_append_cons _ _ (by decide), stripCr_append hblanks, stripCr_append hdigits]
  rfl

theorem headerIs_windowLine :
    headerIs (windowLine field.toField.line) (ascii "content-length:") = true := by
  refine decide_eq_true ?_
  have hname : (ascii "content-length:").map tolower = lengthName ++ [chColon] := by decide
  rw [hname, windowLine_eq, List.map_append, field.isName, List.map_cons]
  exact (List.prefix_append_right_inj _).mpr (List.prefix_append [chColon] _)

theorem headerValue_windowLine :
    headerValue (windowLine field.toField.line) =
      some ((field.shownDigits ++ field.shownEnd).dropWhile isBlank) := by
  have hzero : (0 : Byte) ∉ field.shownBlanks ++ (field.shownDigits ++ field.shownEnd) := by
    intro hmem
    rcases List.mem_append.mp hmem with hmem | hmem
    · exact (ne_of_blank _ (field.shownBlanks_blank hmem)).2.2.1 rfl
    · rcases List.mem_append.mp hmem with hmem | hmem
      · exact (ne_of_digit _ (field.shownDigits_digit hmem)).2.2.1 rfl
      · exact (field.shownEnd_ne hmem).2 rfl
  have hline : (0 : Byte) ∉ windowLine field.toField.line := by
    rw [windowLine_eq, List.mem_append, List.mem_cons, not_or, not_or]
    exact ⟨fun hmem => (field.name_ne hmem).2.2.2 rfl, by decide, hzero⟩
  rw [headerValue, cstring_of_not_mem hline, windowLine_eq,
    dropWhile_bne_append fun hmem => (field.name_ne hmem).1 rfl]
  dsimp only
  rw [List.dropWhile_append_of_pos fun c hc => field.shownBlanks_blank hc]

/-- What is noted of the length is the number that the window shows. -/
theorem noteHeader_windowLine (headers : Headers) :
    noteHeader (windowLine field.toField.line) headers =
      { headers with contentLength := field.shown } := by
  rw [noteHeader, field.headerIs_windowLine, if_pos rfl, headerValue_windowLine]
  dsimp only
  congr 1
  have hlong : (LONG_MAX.toNat : Int) = LONG_MAX := by decide
  by_cases hdigits : field.shownDigits = []
  · have hend : field.shownEnd = [] := by
      have hroom : kHeaderLineCap - 1 - (field.name.length + 1 + field.blanks.length) = 0 := by
        by_contra hroom
        have hempty := List.take_eq_nil_iff.mp hdigits
        exact hempty.elim hroom field.isDigits.1
      have hnone : kHeaderLineCap - 1 -
          (field.name.length + 1 + field.blanks.length + field.digits.length) = 0 := by
        omega
      rw [shownEnd, hnone, List.take_zero]
      rfl
    rw [hdigits, hend, shown, hdigits]
    decide
  · have hshown : IsDigits field.shownDigits := ⟨hdigits, fun c hc => field.shownDigits_digit hc⟩
    obtain ⟨d, more, hmore⟩ := List.exists_cons_of_ne_nil hdigits
    have hd : isBlank d = false :=
      (ne_of_digit d (field.shownDigits_digit (hmore ▸ List.mem_cons_self))).2.2.2
    have hskip : (field.shownDigits ++ field.shownEnd).dropWhile isBlank =
        field.shownDigits ++ field.shownEnd := by
      rw [hmore, List.cons_append]
      exact List.dropWhile_cons_of_neg (by simp [hd])
    rw [hskip, strtol_digits hshown fun c hc =>
      (field.shownEnd_ne (List.mem_of_mem_head? hc)).1, shown]
    simp only [Option.map_some, Option.getD_some]
    omega

end LengthField

end MatrixFaces.Net.Mv
