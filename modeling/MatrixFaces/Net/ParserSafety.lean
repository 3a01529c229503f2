import MatrixFaces.Net.MessagesText
import MatrixFaces.Net.ParserMemory

set_option autoImplicit false

/-!
# The feed parser stays inside its buffer

Over every buffer the parser's indices are inside, the terminators are taken out again, and
it finds what the parser of lists does.

`Net.ParserMemory` is the parser as it works on its buffer, where an access outside is a
failure.  The first main result is `parse_safe`: for every body with one more byte behind it,
every state and every time, `parse` fails nowhere, leaves every byte of the buffer as it was,
and leaves the state alone if it cannot use the body.

The second one is `findObjectEnd_matches`: from the opening brace of a JSON object the
scanner comes to the brace that closes it, whatever follows, and to none in a buffer that
ends earlier.

There is one lemma for each function of the parser, from the searches up to the topics, each
with its result on lists beside it.
-/

namespace MatrixFaces.Net.Mv.Memory

open MatrixFaces.Foundation
open MatrixFaces.Foundation.Mem (Runs Keeps)

variable {mem text : Bytes} {stop p : Nat}

/-! ## Finding fields -/

/-- A field name can be looked for with `strstr`. -/
structure IsKey (key : Bytes) : Prop where
  ne_nil : key ≠ []
  no_zero : (0 : Byte) ∉ key

instance (key : Bytes) : Decidable (IsKey key) :=
  decidable_of_iff (key ≠ [] ∧ (0 : Byte) ∉ key) ⟨fun h => ⟨h.1, h.2⟩, fun h => ⟨h.1, h.2⟩⟩

/-- The byte at the scope's end makes room for the terminator, and comes back. -/
theorem findValue_keeps (h : Points mem stop p text) (hstop : stop < mem.length) {key : Bytes}
    (hkey : IsKey key) :
    ∃ value, Keeps (findValue p stop key) mem value ∧
      Option.Rel (Points mem stop) value (Mv.findValue text key) := by
  cases text with
  | nil =>
      refine ⟨none, ?_, ?_⟩
      · unfold findValue
        rw [if_pos (Nat.le_of_eq h.eq_of_nil.symm)]
        exact Runs.pure none mem
      · rw [Mv.findValue, strstr, if_neg hkey.ne_nil]
        exact .none
  | cons c rest =>
      have hsaved : mem[stop]? = some mem[stop] := List.getElem?_eq_getElem hstop
      have hzero : (mem.set stop 0)[stop]? = some 0 := List.getElem?_set_self hstop
      have hfound := (h.set_stop 0).strstrAt hzero hkey.ne_nil hkey.no_zero
      have hback : (mem.set stop 0).set stop mem[stop] = mem := by
        rw [List.set_set, List.set_getElem_self]
      have hrestore : Runs (Mem.store stop mem[stop]) (mem.set stop 0) () mem := by
        have hrun := Runs.store (by rwa [List.length_set] : stop < (mem.set stop 0).length)
          mem[stop]
        rwa [hback] at hrun
      unfold findValue
      rw [if_neg (Nat.not_le.mpr h.lt), Mv.findValue]
      cases hstrstr : strstr key (c :: rest) with
      | none =>
          rw [hstrstr] at hfound
          refine ⟨none, ?_, .none⟩
          refine (Runs.load hsaved).bind ((Runs.store hstop 0).bind ?_)
          refine (Runs.reads hfound).bind (hrestore.bind ?_)
          exact Runs.pure none mem
      | some found =>
          rw [hstrstr] at hfound
          obtain ⟨hsuffix, hprefix⟩ := strstr_eq_some hstrstr
          have hbehind := (h.suffix hsuffix).drop hprefix.length_le
          obtain ⟨value, hvalue, hpoints⟩ := hbehind.skipBelow isBlank
          refine ⟨if value < stop then some value else none, ?_, ?_⟩
          · refine (Runs.load hsaved).bind ((Runs.store hstop 0).bind ?_)
            refine (Runs.reads hfound).bind (hrestore.bind ?_)
            exact (Runs.reads hvalue).bind (Runs.pure _ mem)
          · dsimp only
            by_cases hnil : (found.drop key.length).dropWhile isBlank = []
            · have hend : ¬ value < stop := by
                rw [hpoints.lt_iff]
                exact not_not.mpr hnil
              rw [if_pos hnil, if_neg hend]
              exact .none
            · rw [if_neg hnil, if_pos (hpoints.lt_iff.mpr hnil)]
              exact .some hpoints

/-! ## Objects -/

theorem map_add_map_add_left (found : Option Nat) (p k : Nat) :
    (found.map (· + k)).map (p + ·) = found.map (p + k + ·) := by
  rw [Option.map_map]
  congr 1
  funext length
  simp only [Function.comp_apply]
  omega

theorem scanObject_of_get {c : Byte} (hlt : p < stop) (hget : mem[p]? = some c) (depth : Int)
    (inString : Bool) :
    scanObject mem stop p depth inString =
      if inString then
        if c = chBackslash then scanObject mem stop (p + 2) depth true
        else scanObject mem stop (p + 1) depth (c != chQuote)
      else if c = chQuote then scanObject mem stop (p + 1) depth true
      else if c = chOpen then scanObject mem stop (p + 1) (depth + 1) false
      else if c = chClose then
        if depth - 1 = 0 then some (some p) else scanObject mem stop (p + 1) (depth - 1) false
      else scanObject mem stop (p + 1) depth false := by
  rw [scanObject, if_pos hlt, hget]
  rfl

theorem scanObject_of_ge (h : stop ≤ p) (depth : Int) (inString : Bool) :
    scanObject mem stop p depth inString = some none := by
  rw [scanObject, if_neg (Nat.not_lt.mpr h)]

theorem scanObject_eq (h : Points mem stop p text) (nested : Nat) (inString : Bool) :
    scanObject mem stop p (nested + 1) inString =
      some ((Mv.scanObject nested inString text).map (p + ·)) := by
  fun_induction Mv.scanObject nested inString text generalizing p with
  | case1 =>
      rw [scanObject_of_ge (Nat.le_of_eq h.eq_of_nil.symm)]
      rfl
  | case2 nested =>
      -- an escape at the end goes past it
      have hend := h.tail.eq_of_nil
      rw [scanObject_of_get h.lt h.get, if_pos rfl, if_pos rfl, scanObject_of_ge (by omega)]
      rfl
  | case3 nested escaped rest ih =>
      rw [scanObject_of_get h.lt h.get, if_pos rfl, if_pos rfl, ih h.tail.tail,
        map_add_map_add_left]
  | case4 nested c rest hc ih =>
      rw [scanObject_of_get h.lt h.get, if_pos rfl, if_neg hc, ih h.tail, map_add_map_add_left]
  | case5 nested rest ih =>
      rw [scanObject_of_get h.lt h.get, if_neg Bool.false_ne_true, if_pos rfl, ih h.tail,
        map_add_map_add_left]
  | case6 nested rest hquote ih =>
      have hdeeper : (nested : Int) + 1 + 1 = ((nested + 1 : Nat) : Int) + 1 := by omega
      rw [scanObject_of_get h.lt h.get, if_neg Bool.false_ne_true, if_neg hquote, if_pos rfl,
        hdeeper, ih h.tail, map_add_map_add_left]
  | case7 rest hquote hopen =>
      rw [scanObject_of_get h.lt h.get, if_neg Bool.false_ne_true, if_neg hquote, if_neg hopen,
        if_pos rfl, if_pos (by omega)]
      rfl
  | case8 rest nested hquote hopen ih =>
      have hshallower : ((nested + 1 : Nat) : Int) + 1 - 1 = (nested : Int) + 1 := by omega
      rw [scanObject_of_get h.lt h.get, if_neg Bool.false_ne_true, if_neg hquote, if_neg hopen,
        if_pos rfl, if_neg (by omega), hshallower, ih h.tail, map_add_map_add_left]
  | case9 nested c rest hquote hopen hclose ih =>
      rw [scanObject_of_get h.lt h.get, if_neg Bool.false_ne_true, if_neg hquote, if_neg hopen,
        if_neg hclose, ih h.tail, map_add_map_add_left]

theorem findObjectEnd_eq (h : Points mem stop p text) :
    findObjectEnd mem p stop = some ((Mv.findObjectEnd text).map (p + ·)) := by
  cases text with
  | nil =>
      rw [findObjectEnd, if_pos (Nat.le_of_eq h.eq_of_nil.symm)]
      rfl
  | cons c rest =>
      rw [findObjectEnd, if_neg (Nat.not_le.mpr h.lt), h.get, Mv.findObjectEnd]
      by_cases hc : c = chOpen
      · subst hc
        have hrest := scanObject_eq h.tail 0 false
        rw [Option.bind_eq_bind, Option.bind_some, if_neg (not_not.mpr rfl),
          scanObject_of_get h.lt h.get, if_neg Bool.false_ne_true, if_neg (by decide), if_pos rfl,
          if_pos rfl, map_add_map_add_left]
        exact hrest
      · rw [Option.bind_eq_bind, Option.bind_some, if_pos hc, if_neg hc]
        rfl

/-- `findObjectEnd` finds the brace that closes a JSON object, whatever bytes follow it in the
buffer, and finds none in a buffer that ends before it. -/
theorem findObjectEnd_matches {object : Bytes} (hobject : IsObject object) :
    (∀ mem p stop rest, Points mem stop p (object ++ rest) →
      findObjectEnd mem p stop = some (some (p + (object.length - 1))) ∧
        mem[p + (object.length - 1)]? = some chClose) ∧
      ∀ mem p stop n, n < object.length → Points mem stop p (object.take n) →
        findObjectEnd mem p stop = some none := by
  have hwhole := fun rest => findObjectEnd_object hobject rest
  obtain ⟨inner, rfl, _⟩ := hobject
  constructor
  · intro mem p stop rest hpoints
    constructor
    · rw [findObjectEnd_eq hpoints, hwhole rest, Option.map_some]
    · refine hpoints.getElem? ?_
      simp
  · intro mem p stop n hn hpoints
    have hend := hwhole []
    rw [List.append_nil] at hend
    -- the closing brace is the last byte, behind every strict prefix
    have hcut : ¬ (chOpen :: inner ++ [chClose]).length - 1 < n := by omega
    rw [findObjectEnd_eq hpoints, findObjectEnd_take, hend, Option.filter_some,
      decide_eq_false hcut, if_neg Bool.false_ne_true, Option.map_none]

/-- `{"a":"\"}\\{"}`: an escaped quote, an escaped backslash and braces inside a string. -/
theorem findObjectEnd_matches_escapes :
    findObjectEnd (ascii "\x7b\"a\":\"\\\"\x7d\\\\\x7b\"\x7d,") 0 15 = some (some 13) := by
  have hchars : StringChars (ascii "\\\"\x7d\\\\\x7b") :=
    .escape (by decide) (.plain (by decide) (by decide) (by decide)
      (.escape (by decide) (.plain (by decide) (by decide) (by decide) .nil)))
  have hname : StringChars (ascii "a") := .plain (by decide) (by decide) (by decide) .nil
  have hblank : IsBlankRun [] := List.forall_mem_nil _
  have hobject : IsObject (chOpen :: ([] ++ (chQuote :: ascii "a" ++ [chQuote]) ++ [] ++
      [chColon] ++ [] ++ (chQuote :: ascii "\\\"\x7d\\\\\x7b" ++ [chQuote]) ++ []) ++ [chClose]) :=
    ⟨_, rfl, Or.inr (.oneMember (.member hblank hname hblank hblank hblank (.string hchars)))⟩
  exact ((findObjectEnd_matches hobject).1 _ 0 15 (ascii ",") ⟨rfl, rfl⟩).1

/-- What ends an object is its closing brace. -/
theorem scanObject_close {nested : Nat} {inString : Bool} {length : Nat}
    (h : Mv.scanObject nested inString text = some length) : text[length]? = some chClose := by
  fun_induction Mv.scanObject nested inString text generalizing length with
  | case1 => cases h
  | case2 nested => cases h
  | case3 nested escaped rest ih =>
      obtain ⟨inner, hinner, rfl⟩ := Option.map_eq_some_iff.mp h
      exact ih hinner
  | case4 nested c rest hc ih =>
      obtain ⟨inner, hinner, rfl⟩ := Option.map_eq_some_iff.mp h
      exact ih hinner
  | case5 nested rest ih =>
      obtain ⟨inner, hinner, rfl⟩ := Option.map_eq_some_iff.mp h
      exact ih hinner
  | case6 nested rest hquote ih =>
      obtain ⟨inner, hinner, rfl⟩ := Option.map_eq_some_iff.mp h
      exact ih hinner
  | case7 rest hquote hopen =>
      cases h
      rfl
  | case8 rest nested hquote hopen ih =>
      obtain ⟨inner, hinner, rfl⟩ := Option.map_eq_some_iff.mp h
      exact ih hinner
  | case9 nested c rest hquote hopen hclose ih =>
      obtain ⟨inner, hinner, rfl⟩ := Option.map_eq_some_iff.mp h
      exact ih hinner

theorem findObjectEnd_close {length : Nat} (h : Mv.findObjectEnd text = some length) :
    text[length]? = some chClose := by
  cases text with
  | nil => cases h
  | cons c rest =>
      rw [Mv.findObjectEnd] at h
      split at h
      · obtain ⟨inner, hinner, rfl⟩ := Option.map_eq_some_iff.mp h
        have hclose := scanObject_close hinner
        exact hclose
      · cases h

/-! ## Strings and numbers -/

theorem take_putByte {cap : Nat} {out : Bytes} (hout : out.length + 1 ≤ cap) (c : Byte)
    (more : Bytes) :
    (putByte cap out c ++ more).take (cap - 1) = (out ++ c :: more).take (cap - 1) ∧
      (putByte cap out c).length + 1 ≤ cap := by
  unfold putByte
  by_cases hroom : out.length + 1 < cap
  · rw [if_pos hroom, List.append_assoc]
    refine ⟨rfl, ?_⟩
    rw [List.length_append, List.length_singleton]
    omega
  · have hfull : cap - 1 = out.length := by omega
    rw [if_neg hroom, hfull, List.take_left, List.take_left]
    exact ⟨rfl, hout⟩

theorem copyString_of_get {cap : Nat} {c : Byte} (hlt : p < stop) (hget : mem[p]? = some c)
    (out : Bytes) :
    copyString mem stop cap p out =
      if c = chQuote then some (p, out)
      else if c = chBackslash ∧ p + 1 < stop then
        (mem[p + 1]?).bind fun c => copyString mem stop cap (p + 2) (putByte cap out c)
      else copyString mem stop cap (p + 1) (putByte cap out c) := by
  rw [copyString, if_pos hlt, hget]
  rfl

/-- The copy is cut off where `out` is full. -/
theorem copyString_eq (h : Points mem stop p text) {cap : Nat} {out : Bytes}
    (hout : out.length + 1 ≤ cap) :
    ∃ q, copyString mem stop cap p out = some (q, (out ++ (unquote text).1).take (cap - 1)) ∧
      (q < stop ↔ (unquote text).2 = true) := by
  fun_induction unquote text generalizing p out with
  | case1 =>
      refine ⟨p, ?_, ?_⟩
      · rw [copyString, if_neg (by rw [h.eq_of_nil]; omega), List.append_nil,
          List.take_of_length_le (by omega)]
      · rw [h.eq_of_nil]
        simp
  | case2 rest =>
      refine ⟨p, ?_, ?_⟩
      · rw [copyString_of_get h.lt h.get, if_pos rfl, List.append_nil,
          List.take_of_length_le (by omega)]
      · simp [h.lt]
  | case3 hquote =>
      -- a backslash in front of the end is a character like any other
      have hend := h.tail.eq_of_nil
      obtain ⟨htake, hroom⟩ := take_putByte hout chBackslash []
      refine ⟨p + 1, ?_, ?_⟩
      · rw [copyString_of_get h.lt h.get, if_neg hquote, if_neg (by omega), copyString,
          if_neg (by omega), ← htake, List.append_nil, List.take_of_length_le (by omega)]
      · rw [hend]
        simp
  | case4 escaped rest hquote ih =>
      obtain ⟨htake, hroom⟩ := take_putByte hout escaped (unquote rest).1
      obtain ⟨q, hq, hclosed⟩ := ih h.tail.tail hroom
      refine ⟨q, ?_, hclosed⟩
      rw [copyString_of_get h.lt h.get, if_neg hquote, if_pos ⟨rfl, h.tail.lt⟩, h.tail.get,
        Option.bind_some, hq, htake]
  | case5 c rest hquote hbackslash ih =>
      obtain ⟨htake, hroom⟩ := take_putByte hout c (unquote rest).1
      obtain ⟨q, hq, hclosed⟩ := ih h.tail hroom
      refine ⟨q, ?_, hclosed⟩
      rw [copyString_of_get h.lt h.get, if_neg hquote, if_neg fun hboth => hbackslash hboth.1, hq,
        htake]

theorem extractString_eq {value : Option Nat} {found : Option Bytes}
    (h : Option.Rel (Points mem stop) value found) {cap : Nat} (hcap : 0 < cap) :
    extractString mem value stop cap = some (Mv.extractString found cap) := by
  cases h with
  | none => rfl
  | @some p text h =>
      cases text with
      | nil =>
          rw [extractString]
          dsimp only
          rw [if_pos (Nat.le_of_eq h.eq_of_nil.symm)]
          rfl
      | cons c rest =>
          rw [extractString, Mv.extractString]
          dsimp only
          rw [if_neg (Nat.not_le.mpr h.lt), h.get, Option.bind_eq_bind, Option.bind_some]
          by_cases hc : c = chQuote
          · have hroom : ([] : Bytes).length + 1 ≤ cap := hcap
            obtain ⟨q, hq, hclosed⟩ := copyString_eq h.tail hroom
            rw [if_neg (by simp [hc, hcap.ne']), hq, Option.bind_eq_bind, Option.bind_some]
            simp only [hclosed, hc, true_and, List.nil_append]
            rfl
          · rw [if_pos (.inl hc), if_neg fun hboth => hc hboth.1]
            rfl

theorem endsNumber_close : EndsNumber chClose := by
  unfold EndsNumber
  decide

/-- The closing brace keeps `strtol` in the scope. -/
theorem extractLong_eq {value : Option Nat} {found : Option Bytes}
    (h : Option.Rel (Points mem stop) value found) (hclose : mem[stop]? = some chClose) :
    extractLong mem value stop = some (Mv.extractLong found) := by
  cases h with
  | none => rfl
  | @some p text h =>
      rw [extractLong, Mv.extractLong]
      dsimp only
      by_cases hend : stop ≤ p
      · obtain rfl := h.nil_of_le hend
        rw [if_pos hend]
        rfl
      · obtain ⟨q, hq, hnumber⟩ := h.strtolAt hclose endsNumber_close
        rw [if_neg hend, hq, Option.bind_eq_bind, Option.bind_some]
        cases hstrtol : strtol text with
        | none =>
            rw [hstrtol] at hnumber
            simp only [hnumber, if_true]
            rfl
        | some read =>
            rw [hstrtol] at hnumber
            simp only [hnumber.1, if_false]
            rfl

/-! ## Entries -/

/-- The buffer holds an entry and what is behind it. -/
structure EntryAt (mem : Bytes) (stop : Nat) (entry : Int × Nat × Nat × Nat)
    (found : Int × Bytes × Bytes) : Prop where
  key : entry.1 = found.1
  object : Points mem entry.2.2.1 entry.2.1 found.2.1
  close : mem[entry.2.2.1]? = some chClose
  rest : Points mem stop entry.2.2.2 found.2.2

/-- The entry's object, once the cursor is there. -/
theorem entry_of_object (h : Points mem stop p text) (key : Int) :
    Option.Rel (EntryAt mem stop)
      (((Mv.findObjectEnd text).map (p + ·)).map fun entryEnd => (key, p, entryEnd, entryEnd + 1))
      (match Mv.findObjectEnd text with
        | none => none
        | some length => some (key, text.take length, text.drop (length + 1))) := by
  cases hobject : Mv.findObjectEnd text with
  | none => exact .none
  | some length =>
      have hlt := findObjectEnd_lt hobject
      exact .some ⟨rfl, h.take hlt.le, h.getElem? (findObjectEnd_close hobject), h.drop hlt⟩

theorem nextDictEntry_eq (h : Points mem stop p text) (hclose : mem[stop]? = some chClose) :
    ∃ entry, nextDictEntry mem p stop = some entry ∧
      Option.Rel (EntryAt mem stop) entry (Mv.nextDictEntry text) := by
  rw [nextDictEntry, Mv.nextDictEntry]
  by_cases hempty : stop ≤ p
  · obtain rfl := h.nil_of_le hempty
    rw [if_pos hempty]
    exact ⟨none, rfl, .none⟩
  obtain ⟨quote, hskip, hquote⟩ := h.skipBelow isSeparator
  rw [if_neg hempty, hskip, Option.bind_eq_bind, Option.bind_some]
  cases hname : text.dropWhile isSeparator with
  | nil =>
      rw [hname] at hquote
      rw [if_pos (Nat.le_of_eq hquote.eq_of_nil.symm)]
      exact ⟨none, rfl, .none⟩
  | cons c name =>
      rw [hname] at hquote
      rw [if_neg (Nat.not_le.mpr hquote.lt), hquote.get, Option.bind_eq_bind, Option.bind_some]
      dsimp only
      by_cases hc : c = chQuote
      · obtain ⟨digits, hread, hnumber⟩ := hquote.tail.strtolAt hclose endsNumber_close
        have hnot : c ≠ chClose := by
          rw [hc]
          decide
        rw [if_neg hnot, if_neg (not_not.mpr hc), if_neg (not_not.mpr hc), hread,
          Option.bind_eq_bind, Option.bind_some]
        cases hstrtol : strtol name with
        | none =>
            rw [hstrtol] at hnumber
            dsimp only at hnumber ⊢
            rw [if_pos hnumber]
            exact ⟨none, rfl, .none⟩
        | some read =>
            obtain ⟨key, behind⟩ := read
            rw [hstrtol] at hnumber
            obtain ⟨hsome, hbehind⟩ := hnumber
            obtain ⟨colon, hskip, hcolon⟩ := hbehind.skipBelow (· != chColon)
            dsimp only
            rw [if_neg hsome, hskip, Option.bind_eq_bind, Option.bind_some]
            cases hvalue : behind.dropWhile (· != chColon) with
            | nil =>
                rw [hvalue] at hcolon
                rw [if_pos (Nat.le_of_eq hcolon.eq_of_nil.symm)]
                exact ⟨none, rfl, .none⟩
            | cons d value =>
                rw [hvalue] at hcolon
                obtain ⟨object, hskip, hobject⟩ := hcolon.tail.skipBelow isBlank
                rw [if_neg (Nat.not_le.mpr hcolon.lt), hskip, Option.bind_some]
                dsimp only
                cases hentry : value.dropWhile isBlank with
                | nil =>
                    rw [hentry] at hobject
                    rw [if_pos (Nat.le_of_eq hobject.eq_of_nil.symm)]
                    exact ⟨none, rfl, .none⟩
                | cons b rest =>
                    rw [hentry] at hobject
                    rw [if_neg (Nat.not_le.mpr hobject.lt), hobject.get, Option.bind_some]
                    by_cases hb : b = chOpen
                    · rw [if_neg (not_not.mpr hb), findObjectEnd_eq hobject, Option.bind_some]
                      exact ⟨_, rfl, entry_of_object hobject key⟩
                    · rw [if_pos hb, Mv.findObjectEnd, if_neg hb]
                      exact ⟨none, rfl, .none⟩
      · refine ⟨none, ?_, ?_⟩
        · rw [if_pos hc]
          split <;> rfl
        · rw [if_pos hc]
          exact .none

/-! ## Topics -/

/-- A scope that ends at a closing brace. -/
structure Closed (mem : Bytes) (stop p : Nat) (text : Bytes) : Prop
    extends Points mem stop p text where
  close : mem[stop]? = some chClose

theorem Closed.room (h : Closed mem stop p text) : stop < mem.length :=
  (List.getElem?_eq_some_iff.mp h.close).1

/-- An object, with its opening brace. -/
structure ObjectAt (mem : Bytes) (object : Nat × Nat) (text : Bytes) : Prop
    extends Closed mem object.2 object.1 text where
  lt : object.1 < object.2

/-- What is behind the opening brace. -/
theorem ObjectAt.inner {object : Nat × Nat} (h : ObjectAt mem object text) :
    Points mem object.2 (object.1 + 1) (text.drop 1) := by
  have := h.length
  have := h.lt
  exact h.toPoints.drop (by omega)

theorem findObjectEnd_pos {length : Nat} (h : Mv.findObjectEnd text = some length) :
    0 < length := by
  cases text with
  | nil => cases h
  | cons c rest =>
      rw [Mv.findObjectEnd] at h
      split at h
      · obtain ⟨inner, -, rfl⟩ := Option.map_eq_some_iff.mp h
        exact Nat.succ_pos inner
      · cases h

theorem findObject_keeps (h : Points mem stop p text) (hstop : stop < mem.length) {key : Bytes}
    (hkey : IsKey key) :
    ∃ object, Keeps (findObject p stop key) mem object ∧
      Option.Rel (ObjectAt mem) object (Mv.findObject text key) := by
  obtain ⟨value, hrun, hvalue⟩ := findValue_keeps h hstop hkey
  rw [Mv.findObject]
  generalize Mv.findValue text key = found at hvalue
  cases hvalue with
  | none =>
      refine ⟨none, ?_, .none⟩
      exact hrun.bind (Runs.pure none mem)
  | @some value found hpoints =>
      cases found with
      | nil =>
          refine ⟨none, hrun.bind ?_, .none⟩
          dsimp only
          rw [if_pos (Nat.le_of_eq hpoints.eq_of_nil.symm)]
          exact Runs.pure none mem
      | cons c rest =>
          by_cases hc : c = chOpen
          · refine ⟨((Mv.findObjectEnd (c :: rest)).map (value + ·)).map fun objEnd =>
              (value, objEnd), hrun.bind ?_, ?_⟩
            · dsimp only
              rw [if_neg (Nat.not_le.mpr hpoints.lt)]
              refine (Runs.load hpoints.get).bind ?_
              rw [if_neg (not_not.mpr hc)]
              exact (Runs.reads (findObjectEnd_eq hpoints)).bind (Runs.pure _ mem)
            · dsimp only
              cases hobject : Mv.findObjectEnd (c :: rest) with
              | none => exact .none
              | some length =>
                  have hlt := findObjectEnd_lt hobject
                  have hpos := findObjectEnd_pos hobject
                  exact .some
                    ⟨⟨hpoints.take hlt.le, hpoints.getElem? (findObjectEnd_close hobject)⟩,
                    Nat.lt_add_of_pos_right hpos⟩
          · refine ⟨none, hrun.bind ?_, ?_⟩
            · dsimp only
              rw [if_neg (Nat.not_le.mpr hpoints.lt)]
              refine (Runs.load hpoints.get).bind ?_
              rw [if_pos hc]
              exact Runs.pure none mem
            · dsimp only
              rw [Mv.findObjectEnd, if_neg hc]
              exact .none

theorem extractField_keeps (h : Points mem stop p text) (hstop : stop < mem.length) {key : Bytes}
    (hkey : IsKey key) {cap : Nat} (hcap : 0 < cap) :
    Keeps (extractField p stop key cap) mem
      (Mv.extractString (Mv.findValue text key) cap) := by
  obtain ⟨value, hrun, hvalue⟩ := findValue_keeps h hstop hkey
  exact hrun.bind (Runs.reads (extractString_eq hvalue hcap))

theorem parseTrackStatus_keeps (h : Points mem stop p text) (hstop : stop < mem.length)
    (state : SessionState) :
    Keeps (parseTrackStatus p stop state) mem (Mv.parseTrackStatus text state) := by
  obtain ⟨object, hrun, hobject⟩ :=
    findObject_keeps h hstop (by decide : IsKey (ascii "\"TrackStatus\":"))
  unfold parseTrackStatus Mv.parseTrackStatus
  refine hrun.bind ?_
  generalize Mv.findObject text _ = found at hobject
  cases hobject with
  | none => exact Runs.pure _ mem
  | @some object found hat =>
      refine (extractField_keeps hat.toPoints hat.room (by decide) (by decide)).bind ?_
      dsimp only
      cases Mv.extractString (Mv.findValue found (ascii "\"Message\":")) 24 <;>
        exact Runs.pure _ mem

theorem parseLapCount_keeps (h : Points mem stop p text) (hstop : stop < mem.length)
    (state : SessionState) :
    Keeps (parseLapCount p stop state) mem (Mv.parseLapCount text state) := by
  obtain ⟨object, hrun, hobject⟩ :=
    findObject_keeps h hstop (by decide : IsKey (ascii "\"LapCount\":"))
  unfold parseLapCount Mv.parseLapCount
  refine hrun.bind ?_
  generalize Mv.findObject text _ = found at hobject
  cases hobject with
  | none => exact Runs.pure _ mem
  | some hat =>
      obtain ⟨current, hcurrentRun, hcurrent⟩ := findValue_keeps hat.toPoints hat.room
        (by decide : IsKey (ascii "\"CurrentLap\":"))
      obtain ⟨total, htotalRun, htotal⟩ := findValue_keeps hat.toPoints hat.room
        (by decide : IsKey (ascii "\"TotalLaps\":"))
      refine hcurrentRun.bind ((Runs.reads (extractLong_eq hcurrent hat.close)).bind ?_)
      refine htotalRun.bind ((Runs.reads (extractLong_eq htotal hat.close)).bind ?_)
      dsimp only
      split <;> exact Runs.pure _ mem

/-! ## The loops over entries -/

theorem dropWhile_length_le (pred : Byte → Bool) (text : Bytes) :
    (text.dropWhile pred).length ≤ text.length := (List.dropWhile_suffix pred).length_le

theorem strtol_rest {number : Int} {rest : Bytes} (h : strtol text = some (number, rest)) :
    rest.length ≤ text.length := by
  rw [strtol] at h
  split at h
  · cases h
  · cases h
    exact ((List.dropWhile_suffix _).trans
      ((readSign_suffix _).trans (List.dropWhile_suffix _))).length_le

/-- Every entry takes at least its quote off the cursor. -/
theorem nextDictEntry_rest {key : Int} {entry rest : Bytes}
    (h : Mv.nextDictEntry text = some (key, entry, rest)) : rest.length < text.length := by
  have hseparators := dropWhile_length_le isSeparator text
  rw [Mv.nextDictEntry] at h
  cases hname : text.dropWhile isSeparator with
  | nil =>
      rw [hname] at h
      cases h
  | cons c name =>
      rw [hname] at h hseparators
      dsimp only at h
      split at h
      · cases h
      · cases hstrtol : strtol name with
        | none =>
            rw [hstrtol] at h
            cases h
        | some read =>
            have hnumber := strtol_rest hstrtol
            rw [hstrtol] at h
            dsimp only at h
            have hcolon := dropWhile_length_le (· != chColon) read.2
            cases hvalue : read.2.dropWhile (· != chColon) with
            | nil =>
                rw [hvalue] at h
                cases h
            | cons d value =>
                rw [hvalue] at h hcolon
                have hblank := dropWhile_length_le isBlank value
                dsimp only at h
                cases hobject : Mv.findObjectEnd (value.dropWhile isBlank) with
                | none =>
                    rw [hobject] at h
                    cases h
                | some length =>
                    rw [hobject] at h
                    cases h
                    simp only [List.length_cons, List.length_drop] at hseparators hcolon ⊢
                    omega

/-- More calls find no more entries. -/
theorem dictEntriesUpTo_eq {calls : Nat} (h : text.length ≤ calls) :
    dictEntriesUpTo calls text = dictEntries text := by
  have hmore : ∀ calls calls' text, text.length ≤ calls → text.length ≤ calls' →
      dictEntriesUpTo calls text = dictEntriesUpTo calls' text := by
    intro calls
    induction calls with
    | zero =>
        intro calls' text hcalls _
        obtain rfl := List.eq_nil_of_length_eq_zero (Nat.le_zero.mp hcalls)
        cases calls' with
        | zero => rfl
        | succ calls' => rfl
    | succ calls ih =>
        intro calls' text hcalls hcalls'
        cases calls' with
        | zero =>
            obtain rfl := List.eq_nil_of_length_eq_zero (Nat.le_zero.mp hcalls')
            rfl
        | succ calls' =>
            rw [dictEntriesUpTo, dictEntriesUpTo]
            cases hnext : Mv.nextDictEntry text with
            | none => rfl
            | some found =>
                obtain ⟨key, entry, rest⟩ := found
                have hrest := nextDictEntry_rest hnext
                dsimp only
                rw [ih calls' rest (by omega) (by omega)]
  exact hmore calls text.length text h (le_refl _)

theorem dictEntries_eq (cursor : Bytes) :
    dictEntries cursor =
      match Mv.nextDictEntry cursor with
      | none => []
      | some (key, entry, rest) => (key, entry) :: dictEntries rest := by
  rw [← dictEntriesUpTo_eq (Nat.le_succ cursor.length), dictEntriesUpTo]
  cases hnext : Mv.nextDictEntry cursor with
  | none => rfl
  | some found =>
      dsimp only
      rw [dictEntriesUpTo_eq (nextDictEntry_rest hnext).le]

/-- What the loop over the drivers makes of the table from `count` on. -/
def fill (count : Nat) (drivers : Drivers) (found : List DriverEntry) : Drivers := fun i =>
  if i.1 < count then drivers i else found.getD (i.1 - count) ⟨0, []⟩

theorem fill_cons {count : Nat} (h : count < kMaxDrivers) (drivers : Drivers) (driver : DriverEntry)
    (found : List DriverEntry) :
    fill (count + 1) (Function.update drivers ⟨count, h⟩ driver) found =
      fill count drivers (driver :: found) := by
  funext i
  unfold fill
  rcases Nat.lt_trichotomy i.1 count with hlt | heq | hgt
  · rw [if_pos (by omega), if_pos hlt, Function.update_of_ne]
    intro hi
    rw [hi] at hlt
    exact Nat.lt_irrefl count hlt
  · obtain rfl : i = ⟨count, h⟩ := Fin.ext heq
    rw [if_pos (Nat.lt_succ_self count), if_neg (Nat.lt_irrefl count), Function.update_self,
      Nat.sub_self]
    rfl
  · have hoffset : i.1 - count = i.1 - (count + 1) + 1 := by omega
    rw [if_neg (by omega), if_neg (by omega), hoffset, List.getD_cons_succ]

theorem driverLoop_keeps (h : Points mem stop p text) (hclose : mem[stop]? = some chClose)
    {calls : Nat} (hcalls : text.length < calls) {count : Nat} {drivers : Drivers}
    (hempty : ∀ i : Fin kMaxDrivers, count ≤ i.1 → drivers i = ⟨0, []⟩) :
    Keeps (driverLoop stop calls p count drivers) mem
      (fill count drivers ((dictEntries text).filterMap driverOf)) := by
  induction calls generalizing p text count drivers with
  | zero => exact absurd hcalls (Nat.not_lt_zero _)
  | succ calls ih =>
      unfold driverLoop
      by_cases hroom : count < kMaxDrivers
      · rw [dif_pos hroom, dictEntries_eq]
        obtain ⟨entry, hnext, hentry⟩ := nextDictEntry_eq h hclose
        refine (Runs.reads hnext).bind ?_
        cases hfound : Mv.nextDictEntry text with
        | none =>
            rw [hfound] at hentry
            cases hentry
            have hsame : fill count drivers [] = drivers := by
              funext i
              unfold fill
              split
              · rfl
              · exact (hempty i (by omega)).symm
            dsimp only
            rw [List.filterMap_nil, hsame]
            exact Runs.pure drivers mem
        | some found =>
            obtain ⟨key, object, rest⟩ := found
            have hrest := nextDictEntry_rest hfound
            rw [hfound] at hentry
            cases hentry with
            | @some entry _ hat =>
                obtain ⟨entryKey, entryStart, entryEnd, cursor⟩ := entry
                obtain ⟨hkey, hobject, hobjectClose, hbehind⟩ := hat
                dsimp only at hkey hobject hobjectClose hbehind
                subst hkey
                have hstop := (List.getElem?_eq_some_iff.mp hobjectClose).1
                dsimp only
                refine (extractField_keeps hobject hstop (by decide) (by decide)).bind ?_
                cases htla : Mv.extractString (Mv.findValue object (ascii "\"Tla\":")) kTlaCap with
                | none =>
                    have hnone : driverOf (entryKey, object) = none := by
                      rw [driverOf, htla]
                      rfl
                    rw [List.filterMap_cons_none hnone]
                    exact ih hbehind (by omega) hempty
                | some tla =>
                    have hsome : driverOf (entryKey, object) =
                        some ⟨UInt16.ofInt entryKey, copyTla tla⟩ := by
                      rw [driverOf, htla]
                      rfl
                    rw [List.filterMap_cons_some hsome, ← fill_cons hroom]
                    refine ih hbehind (by omega) fun i hi => ?_
                    rw [Function.update_of_ne, hempty i (by omega)]
                    intro heq
                    rw [heq] at hi
                    exact Nat.not_succ_le_self count hi
      · have hfull : fill count drivers ((dictEntries text).filterMap driverOf) = drivers := by
          funext i
          have := i.2
          exact if_pos (by omega)
        rw [dif_neg hroom, hfull]
        exact Runs.pure drivers mem

theorem parseDriverList_keeps (h : Points mem stop p text) (hstop : stop < mem.length)
    (state : SessionState) :
    Keeps (parseDriverList p stop state) mem (Mv.parseDriverList text state) := by
  obtain ⟨object, hrun, hobject⟩ :=
    findObject_keeps h hstop (by decide : IsKey (ascii "\"DriverList\":"))
  unfold parseDriverList Mv.parseDriverList
  refine hrun.bind ?_
  generalize Mv.findObject text _ = found at hobject
  cases hobject with
  | none => exact Runs.pure _ mem
  | @some object found hat =>
      have hinner := hat.inner
      have hcalls : (found.drop 1).length < object.2 := by
        have := hinner.length
        omega
      refine (driverLoop_keeps hinner hat.close hcalls fun _ _ => rfl).bind ?_
      exact Runs.pure _ mem

/-! ## Messages -/

/-- A terminated array around the text. -/
theorem strtolAt_array (text : Bytes) :
    ∃ last, strtolAt (text ++ [0]) 0 = some (((strtol text).map Prod.fst).getD 0, last) := by
  have hpoints := Points.whole (text ++ [0]) (by simp : text.length ≤ (text ++ [0]).length)
  rw [List.take_left] at hpoints
  have hend : (text ++ [0])[text.length]? = some 0 := by simp
  have hstops : EndsNumber 0 := by
    unfold EndsNumber
    decide
  obtain ⟨last, hlast, -⟩ := hpoints.strtolAt hend hstops
  exact ⟨last, hlast⟩

theorem racingNumberOf_eq {value : Option Nat} {found : Option Bytes}
    (h : Option.Rel (Points mem stop) value found) (hclose : mem[stop]? = some chClose) :
    racingNumberOf mem value stop = some (numberOf found) := by
  rw [racingNumberOf, extractLong_eq h hclose, Option.bind_eq_bind, Option.bind_some, numberOf]
  cases Mv.extractLong found with
  | some racingNumber => rfl
  | none =>
      dsimp only
      rw [extractString_eq h (by decide), Option.bind_eq_bind, Option.bind_some]
      cases Mv.extractString found 8 with
      | none => rfl
      | some text =>
          obtain ⟨last, hlast⟩ := strtolAt_array text
          dsimp only
          rw [hlast]
          rfl

theorem driverFlag_keeps (h : Points mem stop p text) (hclose : mem[stop]? = some chClose) :
    Keeps (driverFlag p stop) mem (Mv.driverFlag text) := by
  have hstop := (List.getElem?_eq_some_iff.mp hclose).1
  obtain ⟨value, hvalueRun, hvalue⟩ :=
    findValue_keeps h hstop (by decide : IsKey (ascii "\"RacingNumber\":"))
  rw [driverFlag_eq]
  unfold driverFlag
  refine (extractField_keeps h hstop (by decide) (by decide)).bind ?_
  split
  · exact Runs.pure none mem
  · refine (extractField_keeps h hstop (by decide) (by decide)).bind ?_
    split
    · exact Runs.pure none mem
    · refine hvalueRun.bind ((Runs.reads (racingNumberOf_eq hvalue hclose)).bind ?_)
      cases numberOf (Mv.findValue text (ascii "\"RacingNumber\":")) with
      | none => exact Runs.pure none mem
      | some racingNumber =>
          dsimp only
          split
          · exact Runs.pure none mem
          · refine (extractField_keeps h hstop (by decide) (by decide)).bind ?_
            exact Runs.pure _ mem

theorem messageLoop_keeps (h : Points mem stop p text) (hclose : mem[stop]? = some chClose)
    (lastMessageIndex : Int) (nowMs : UInt32) {calls : Nat} (hcalls : text.length < calls)
    (messages : Messages) :
    Keeps (messageLoop lastMessageIndex nowMs stop calls p messages) mem
      ((dictEntries text).foldl (scanMessage lastMessageIndex nowMs) messages) := by
  induction calls generalizing p text messages with
  | zero => exact absurd hcalls (Nat.not_lt_zero _)
  | succ calls ih =>
      rw [dictEntries_eq]
      unfold messageLoop
      obtain ⟨entry, hnext, hentry⟩ := nextDictEntry_eq h hclose
      refine (Runs.reads hnext).bind ?_
      cases hfound : Mv.nextDictEntry text with
      | none =>
          rw [hfound] at hentry
          cases hentry
          exact Runs.pure messages mem
      | some found =>
          obtain ⟨key, object, rest⟩ := found
          have hrest := nextDictEntry_rest hfound
          rw [hfound] at hentry
          cases hentry with
          | @some entry _ hat =>
              obtain ⟨entryKey, entryStart, entryEnd, cursor⟩ := entry
              obtain ⟨hkey, hobject, hobjectClose, hbehind⟩ := hat
              dsimp only at hkey hobject hobjectClose hbehind
              subst hkey
              dsimp only
              rw [List.foldl_cons, scanMessage]
              by_cases hold : entryKey ≤ lastMessageIndex
              · rw [if_pos hold, if_pos hold]
                exact ih hbehind (by omega) _
              · rw [if_neg hold, if_neg hold]
                refine (driverFlag_keeps hobject hobjectClose).bind ?_
                exact ih hbehind (by omega) _

theorem parseRaceControlMessages_keeps (h : Points mem stop p text) (hstop : stop < mem.length)
    (nowMs : UInt32) (state : SessionState) :
    Keeps (parseRaceControlMessages p stop nowMs state) mem
      (Mv.parseRaceControlMessages text nowMs state) := by
  obtain ⟨object, hrun, hobject⟩ := findObject_keeps h hstop (by decide : IsKey raceControlKey)
  unfold parseRaceControlMessages Mv.parseRaceControlMessages messagesOf
  refine hrun.bind ?_
  generalize Mv.findObject text raceControlKey = found at hobject
  cases hobject with
  | none => exact Runs.pure state mem
  | @some object found hat =>
      obtain ⟨inner, hinnerRun, hinner⟩ :=
        findObject_keeps hat.toPoints hat.room (by decide : IsKey messagesKey)
      refine hinnerRun.bind ?_
      dsimp only
      generalize Mv.findObject found messagesKey = list at hinner
      cases hinner with
      | none => exact Runs.pure state mem
      | @some inner list hlist =>
          have hmessages := hlist.inner
          have hcalls : (list.drop 1).length < inner.2 := by
            have := hmessages.length
            omega
          refine (messageLoop_keeps hmessages hlist.close _ nowMs hcalls _).bind ?_
          exact Runs.pure _ mem

/-! ## `parse` -/

theorem startsWith_eq (h : Points mem stop p text) {word : Bytes}
    (hlength : word.length ≤ text.length) :
    startsWith mem word p = some (decide (word <+: text)) := by
  induction word generalizing p text with
  | nil => simp [startsWith]
  | cons w word ih =>
      cases text with
      | nil => exact absurd hlength (Nat.not_succ_le_zero _)
      | cons c rest =>
          rw [startsWith, h.get, Option.bind_eq_bind, Option.bind_some]
          by_cases hc : c = w
          · have hsame : word <+: rest ↔ w :: word <+: c :: rest := by
              rw [hc, List.prefix_cons_inj]
            rw [if_pos hc, ih h.tail (Nat.le_of_succ_le_succ hlength)]
            exact congrArg some (decide_eq_decide.mpr hsame)
          · have hnot : ¬ w :: word <+: c :: rest := by
              intro hprefix
              exact hc (List.cons_prefix_cons.mp hprefix).1.symm
            rw [if_neg hc, decide_eq_false hnot]
            rfl

theorem isNull_eq (h : Points mem stop p text) :
    isNull mem p stop = some (decide (ascii "null" <+: text)) := by
  have hlength := h.length
  unfold isNull
  by_cases hroom : p + 4 ≤ stop
  · rw [if_pos hroom]
    exact startsWith_eq h (by change 4 ≤ text.length; omega)
  · have hshort : ¬ ascii "null" <+: text := by
      intro hnull
      have hfour : 4 ≤ text.length := hnull.length_le
      omega
    rw [if_neg hroom, decide_eq_false hshort]

/-- Over the whole buffer. -/
theorem parse_keeps {len : Nat} (hlen : len < mem.length) (nowMs : UInt32) (state : SessionState)
    (counters : Counters) :
    Keeps (parse len nowMs state counters) mem
      (Mv.parse (mem.take len) nowMs state counters) := by
  have h := Points.whole mem hlen.le
  obtain ⟨value, hrun, hvalue⟩ := findValue_keeps h hlen (by decide : IsKey stateKey)
  unfold parse Mv.parse
  refine hrun.bind ?_
  generalize Mv.findValue (mem.take len) stateKey = found at hvalue
  cases hvalue with
  | none => exact Runs.pure _ mem
  | @some value found hpoints =>
      obtain ⟨stateValue, hskip, hstate⟩ := hpoints.skipBelow isBlank
      refine (Runs.reads hskip).bind ((Runs.reads (isNull_eq hstate)).bind ?_)
      dsimp only
      generalize found.dropWhile isBlank = text at hstate
      by_cases hnull : ascii "null" <+: text
      · rw [if_pos hnull, if_pos (decide_eq_true hnull)]
        exact Runs.pure _ mem
      · rw [if_neg hnull, if_neg (by simpa using hnull)]
        cases text with
        | nil =>
            rw [if_pos (Nat.le_of_eq hstate.eq_of_nil.symm), if_pos (by simp)]
            exact Runs.pure _ mem
        | cons c rest =>
            rw [if_neg (Nat.not_le.mpr hstate.lt)]
            refine (Runs.load hstate.get).bind ?_
            by_cases hc : c = chOpen
            · rw [if_neg (not_not.mpr hc), if_neg (by simp [hc])]
              refine (Runs.reads (findObjectEnd_eq hstate)).bind ?_
              cases hobject : Mv.findObjectEnd (c :: rest) with
              | none => exact Runs.pure _ mem
              | some length =>
                  have hlt := findObjectEnd_lt hobject
                  have hscope := hstate.take hlt.le
                  have hroom := (List.getElem?_eq_some_iff.mp
                    (hstate.getElem? (findObjectEnd_close hobject))).1
                  refine (parseTrackStatus_keeps hscope hroom _).bind ?_
                  refine (parseLapCount_keeps hscope hroom _).bind ?_
                  refine (parseDriverList_keeps hscope hroom _).bind ?_
                  refine (parseRaceControlMessages_keeps hscope hroom nowMs _).bind ?_
                  exact Runs.pure _ mem
            · rw [if_pos hc, if_pos (by simpa using hc)]
              exact Runs.pure _ mem

/-- A body without a session leaves the state as it was. -/
theorem parse_state_of_unusable {body : Bytes} {nowMs : UInt32} {state : SessionState}
    {counters : Counters}
    (h : (Mv.parse body nowMs state counters).result = .kMalformed ∨
      (Mv.parse body nowMs state counters).result = .kTruncated) :
    (Mv.parse body nowMs state counters).state = state := by
  unfold Mv.parse at h ⊢
  cases hvalue : Mv.findValue body stateKey with
  | none => rfl
  | some value =>
      rw [hvalue] at h
      dsimp only at h ⊢
      split at h
      · rcases h with h | h <;> cases h
      · rename_i hnull
        rw [if_neg hnull]
        split at h
        · rename_i hopen
          rw [if_pos hopen]
        · rename_i hopen
          rw [if_neg hopen]
          cases hobject : Mv.findObjectEnd (value.dropWhile isBlank) with
          | none => rfl
          | some length =>
              rw [hobject] at h
              rcases h with h | h <;> cases h

/-- For every body in a buffer with one more byte, from every state and at every time, `parse`
returns, with no access outside of the buffer and every byte of it as it was; a body that it
cannot use leaves the state as it was. -/
theorem parse_safe (body : Bytes) (spare : Byte) (nowMs : UInt32) (state : SessionState)
    (counters : Counters) :
    ∃ parsed, parse body.length nowMs state counters (body ++ [spare]) =
        some (parsed, body ++ [spare]) ∧
      (parsed.result = .kMalformed ∨ parsed.result = .kTruncated → parsed.state = state) := by
  have hlen : body.length < (body ++ [spare]).length := by simp
  have hkeeps := parse_keeps hlen nowMs state counters
  rw [List.take_left] at hkeeps
  exact ⟨Mv.parse body nowMs state counters, hkeeps, parse_state_of_unusable⟩

end MatrixFaces.Net.Mv.Memory
