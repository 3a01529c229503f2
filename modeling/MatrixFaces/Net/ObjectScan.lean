import MatrixFaces.Foundation.JsonText
import MatrixFaces.Net.MultiViewerParse

set_option autoImplicit false

/-!
# The object scanner

`findObjectEnd` looks at no byte behind the closing brace it finds, and on JSON texts it
finds the brace that closes the object.

The first half is about any text: a verdict depends on the bytes up to the brace
(`findObjectEnd_take`, `findObjectEnd_append`).  The second one goes along the grammar:
`Neutral` texts leave the scanner at the depth it had, every part of a document is neutral
(`neutral_of_jsonText`), and so an object ends where its text does (`findObjectEnd_object`).
-/

namespace MatrixFaces.Net.Mv

open MatrixFaces.Foundation

/-! ## One byte -/

section

variable (nested : Nat) {c : Byte} (rest : Bytes)

@[simp] theorem scanObject_nil (inString : Bool) : scanObject nested inString [] = none := by
  rw [scanObject.eq_def]

@[simp] theorem scanObject_backslash_nil : scanObject nested true [chBackslash] = none := by
  rw [scanObject.eq_def]
  rfl

theorem scanObject_escape (escaped : Byte) :
    scanObject nested true (chBackslash :: escaped :: rest) =
      (scanObject nested true rest).map (· + 2) := by
  rw [scanObject.eq_def]
  rfl

theorem scanObject_char (hc : c ≠ chBackslash) :
    scanObject nested true (c :: rest) =
      (scanObject nested (c != chQuote) rest).map (· + 1) := by
  rw [scanObject.eq_def]
  simp only [hc, if_false]

theorem scanObject_quote :
    scanObject nested false (chQuote :: rest) = (scanObject nested true rest).map (· + 1) := by
  rw [scanObject.eq_def]
  rfl

theorem scanObject_open :
    scanObject nested false (chOpen :: rest) =
      (scanObject (nested + 1) false rest).map (· + 1) := by
  rw [scanObject.eq_def]
  rfl

@[simp] theorem scanObject_close_zero : scanObject 0 false (chClose :: rest) = some 0 := by
  rw [scanObject.eq_def]
  rfl

theorem scanObject_close_succ :
    scanObject (nested + 1) false (chClose :: rest) =
      (scanObject nested false rest).map (· + 1) := by
  rw [scanObject.eq_def]
  rfl

theorem scanObject_plain (hc : IsPlain c) :
    scanObject nested false (c :: rest) = (scanObject nested false rest).map (· + 1) := by
  rw [scanObject.eq_def]
  simp only [hc.1, hc.2.1, hc.2.2, if_false]

end

/-! ## Cutting a text off -/

theorem filter_lt_map_add (found : Option Nat) (n k : Nat) :
    (found.filter (· < n)).map (· + k) = (found.map (· + k)).filter (· < n + k) := by
  cases found with
  | none => rfl
  | some length =>
      by_cases hlt : length < n
      · simp [Option.filter, hlt]
      · simp [Option.filter, hlt]

theorem filter_lt_zero (found : Option Nat) : found.filter (· < 0) = none := by
  cases found <;> simp [Option.filter]

/-- No bytes show no brace. -/
theorem scanObject_take_zero (nested : Nat) (inString : Bool) (text : Bytes)
    (found : Option Nat) :
    scanObject nested inString (text.take 0) = found.filter (· < 0) := by
  rw [List.take_zero, scanObject_nil, filter_lt_zero]

/-- The first `n` bytes show the closing brace exactly when it is among them. -/
theorem scanObject_take (nested : Nat) (inString : Bool) (text : Bytes) (n : Nat) :
    scanObject nested inString (text.take n) =
      (scanObject nested inString text).filter (· < n) := by
  fun_induction scanObject nested inString text generalizing n with
  | case1 => simp
  | case2 nested =>
      cases n with
      | zero => exact scanObject_take_zero _ _ _ _
      | succ n => simp
  | case3 nested escaped rest ih =>
      match n with
      | 0 => exact scanObject_take_zero _ _ _ _
      | 1 =>
          rw [List.take_succ_cons, List.take_zero, scanObject_backslash_nil]
          cases scanObject nested true rest <;> simp [Option.filter]
      | n + 2 =>
          rw [List.take_succ_cons, List.take_succ_cons, scanObject_escape, ih n,
            filter_lt_map_add]
  | case4 nested c rest hc ih =>
      cases n with
      | zero => exact scanObject_take_zero _ _ _ _
      | succ n => rw [List.take_succ_cons, scanObject_char _ _ hc, ih n, filter_lt_map_add]
  | case5 nested rest ih =>
      cases n with
      | zero => exact scanObject_take_zero _ _ _ _
      | succ n => rw [List.take_succ_cons, scanObject_quote, ih n, filter_lt_map_add]
  | case6 nested rest _ ih =>
      cases n with
      | zero => exact scanObject_take_zero _ _ _ _
      | succ n => rw [List.take_succ_cons, scanObject_open, ih n, filter_lt_map_add]
  | case7 rest =>
      cases n with
      | zero => exact scanObject_take_zero _ _ _ _
      | succ n => simp [Option.filter]
  | case8 rest nested _ _ ih =>
      cases n with
      | zero => exact scanObject_take_zero _ _ _ _
      | succ n => rw [List.take_succ_cons, scanObject_close_succ, ih n, filter_lt_map_add]
  | case9 nested c rest hquote hopen hclose ih =>
      cases n with
      | zero => exact scanObject_take_zero _ _ _ _
      | succ n =>
          rw [List.take_succ_cons, scanObject_plain _ _ ⟨hquote, hopen, hclose⟩, ih n,
            filter_lt_map_add]

theorem findObjectEnd_take (text : Bytes) (n : Nat) :
    findObjectEnd (text.take n) = (findObjectEnd text).filter (· < n) := by
  cases text with
  | nil => simp [findObjectEnd]
  | cons c rest =>
      cases n with
      | zero => rw [List.take_zero, findObjectEnd, filter_lt_zero]
      | succ n =>
          rw [List.take_succ_cons, findObjectEnd, findObjectEnd]
          split
          · rw [scanObject_take, filter_lt_map_add]
          · rfl

theorem findObjectEnd_lt {text : Bytes} {length : Nat} (h : findObjectEnd text = some length) :
    length < text.length := by
  have hall := findObjectEnd_take text text.length
  rw [List.take_length, h] at hall
  by_contra hnot
  simp [Option.filter, hnot] at hall

theorem findObjectEnd_append {text : Bytes} {length : Nat} (more : Bytes)
    (h : findObjectEnd text = some length) : findObjectEnd (text ++ more) = some length := by
  have hfront := findObjectEnd_take (text ++ more) text.length
  rw [List.take_left, h] at hfront
  exact (Option.filter_eq_some_iff.mp hfront.symm).1

/-! ## JSON texts -/

/-- A text the scanner passes over and is where it was. -/
def Neutral (text : Bytes) : Prop :=
  ∀ nested rest, scanObject nested false (text ++ rest) =
    (scanObject nested false rest).map (· + text.length)

theorem map_add_map_add (found : Option Nat) (n k : Nat) :
    (found.map (· + n)).map (· + k) = found.map (· + (k + n)) := by
  rw [Option.map_map]
  congr 1
  funext length
  simp only [Function.comp_apply]
  omega

theorem map_add_of_eq (found : Option Nat) {n k : Nat} (h : n = k) :
    found.map (· + n) = found.map (· + k) := by
  rw [h]

theorem Neutral.nil : Neutral [] := fun nested rest => by simp

theorem Neutral.append {left right : Bytes} (hleft : Neutral left) (hright : Neutral right) :
    Neutral (left ++ right) := by
  intro nested rest
  rw [List.append_assoc, hleft nested, hright nested, map_add_map_add, List.length_append]

theorem Neutral.plain {text : Bytes} (h : ∀ c ∈ text, IsPlain c) : Neutral text := by
  induction text with
  | nil => exact Neutral.nil
  | cons c rest ih =>
      intro nested more
      have hrest := ih fun b hb => h b (List.mem_cons_of_mem c hb)
      rw [List.cons_append, scanObject_plain _ _ (h c List.mem_cons_self), hrest nested,
        map_add_map_add, List.length_cons, Nat.add_comm]

/-- Inside a string the scanner passes over hexadecimal digits. -/
theorem scanObject_hex {hex : Bytes} (hhex : ∀ c ∈ hex, isHexDigit c = true) (nested : Nat)
    (rest : Bytes) :
    scanObject nested true (hex ++ rest) =
      (scanObject nested true rest).map (· + hex.length) := by
  induction hex with
  | nil => simp
  | cons c more ih =>
      obtain ⟨hdigit, hmore⟩ := List.forall_mem_cons.mp hhex
      have hc : c ≠ chBackslash ∧ (c != chQuote) = true :=
        byte_forall (P := fun c => isHexDigit c = true → c ≠ chBackslash ∧ (c != chQuote) = true)
          (by decide +kernel) c hdigit
      rw [List.cons_append, scanObject_char _ _ hc.1, hc.2, ih hmore, map_add_map_add,
        List.length_cons, Nat.add_comm]

/-- Inside a string the scanner comes to the closing quote. -/
theorem scanObject_string {chars : Bytes} (h : StringChars chars) (nested : Nat) (rest : Bytes) :
    scanObject nested true (chars ++ chQuote :: rest) =
      (scanObject nested false rest).map (· + (chars.length + 1)) := by
  induction h with
  | nil =>
      rw [List.nil_append, scanObject_char _ _ (by decide)]
      rfl
  | @plain c chars hquote hbackslash _ _ ih =>
      have hstay : (c != chQuote) = true := by simpa using hquote
      rw [List.cons_append, scanObject_char _ _ hbackslash, hstay, ih, map_add_map_add,
        List.length_cons]
      exact map_add_of_eq _ (by omega)
  | @escape c chars _ _ ih =>
      rw [List.cons_append, List.cons_append, scanObject_escape, ih, map_add_map_add,
        List.length_cons, List.length_cons]
      exact map_add_of_eq _ (by omega)
  | @unicode hex chars hlength hhex _ ih =>
      rw [List.cons_append, List.cons_append, scanObject_escape, List.append_assoc,
        scanObject_hex hhex, ih, map_add_map_add, map_add_map_add]
      refine map_add_of_eq _ ?_
      simp only [List.length_cons, List.length_append]
      omega

theorem Neutral.string {chars : Bytes} (h : StringChars chars) :
    Neutral (chQuote :: chars ++ [chQuote]) := by
  intro nested rest
  rw [List.append_assoc, List.cons_append, scanObject_quote, List.cons_append,
    List.nil_append, scanObject_string h, map_add_map_add]
  refine map_add_of_eq _ ?_
  simp only [List.length_append, List.length_cons, List.length_nil]
  omega

theorem Neutral.braces {text : Bytes} (h : Neutral text) :
    Neutral (chOpen :: text ++ [chClose]) := by
  intro nested rest
  rw [List.append_assoc, List.cons_append, scanObject_open, h (nested + 1), List.cons_append,
    List.nil_append, scanObject_close_succ, map_add_map_add, map_add_map_add]
  refine map_add_of_eq _ ?_
  simp only [List.length_append, List.length_cons, List.length_nil]
  omega

theorem neutral_of_jsonText {part : JsonPart} {text : Bytes} (h : JsonText part text) :
    Neutral text := by
  have hleft : Neutral [0x5B] := Neutral.plain (plain_of_all rfl)
  have hright : Neutral [0x5D] := Neutral.plain (plain_of_all rfl)
  have hbracket : ∀ {inner : Bytes}, Neutral inner → Neutral (0x5B :: inner ++ [0x5D]) :=
    fun hinner => (hleft.append hinner).append hright
  have hcomma : Neutral [chComma] := Neutral.plain (plain_of_all rfl)
  have hcolon : Neutral [chColon] := Neutral.plain (plain_of_all rfl)
  induction h with
  | number h => exact Neutral.plain h.plain
  | literal h => exact Neutral.plain (literal_plain h)
  | string h => exact Neutral.string h
  | emptyObject h => exact (Neutral.plain h.plain).braces
  | object _ ih => exact ih.braces
  | emptyArray h => exact hbracket (Neutral.plain h.plain)
  | array _ ih => exact hbracket ih
  | member hbefore hname hbehind hfront hafter _ ih =>
      exact ((((((Neutral.plain hbefore.plain).append (Neutral.string hname)).append
        (Neutral.plain hbehind.plain)).append hcolon).append
        (Neutral.plain hfront.plain)).append ih).append (Neutral.plain hafter.plain)
  | oneMember _ ih => exact ih
  | moreMembers _ _ ih ihRest => exact (ih.append hcomma).append ihRest
  | element hbefore hafter _ ih =>
      exact ((Neutral.plain hbefore.plain).append ih).append (Neutral.plain hafter.plain)
  | oneElement _ ih => exact ih
  | moreElements _ _ ih ihRest => exact (ih.append hcomma).append ihRest

theorem findObjectEnd_braces {inner : Bytes} (h : Neutral inner) (rest : Bytes) :
    findObjectEnd (chOpen :: inner ++ [chClose] ++ rest) = some (inner.length + 1) := by
  rw [List.append_assoc, List.cons_append, findObjectEnd, if_pos rfl, h 0, List.cons_append,
    List.nil_append, scanObject_close_zero]
  simp

/-- The scanner finds the brace that closes a JSON object, whatever follows it. -/
theorem findObjectEnd_object {text : Bytes} (h : IsObject text) (rest : Bytes) :
    findObjectEnd (text ++ rest) = some (text.length - 1) := by
  obtain ⟨inner, rfl, hinner⟩ := h
  have hneutral : Neutral inner := by
    rcases hinner with hblank | hmembers
    · exact Neutral.plain hblank.plain
    · exact neutral_of_jsonText hmembers
  rw [findObjectEnd_braces hneutral]
  simp

end MatrixFaces.Net.Mv
