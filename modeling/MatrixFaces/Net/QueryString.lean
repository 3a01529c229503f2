import MatrixFaces.Api.WsTickets
import MatrixFaces.Foundation.CMemory

set_option autoImplicit false

/-!
# Query parameters (`src/net/query_string.cpp`)

The loop over the memory that holds the target, and the query split at its ampersands.

`pieces` is that split, `valueOf` the value of a piece for a name and `firstValue` the first
one among the pieces; none of them knows of a pointer or a buffer.

The main result is `queryParam_splits`, for every text in memory, every name without an
ampersand and every buffer: the loop ends inside the text, answers true exactly if the first
value of the name fits, which then stands in the buffer, and leaves an empty text there
otherwise.  The function of `Api.WsTickets` is tied to the same split.
-/

namespace MatrixFaces.Net.QueryString

open MatrixFaces.Foundation
open MatrixFaces.Api

/-! ## The source -/

/-- `strchr(p, c)`, for a `c` that is not NUL. -/
def strchrAt (mem : Bytes) (c : Byte) (p : Nat) : Option (Option Nat) := do
  let found ← skipWhile mem (fun b => b != c && b != 0) p
  let b ← mem[found]?
  return if b = c then some found else none

/-- `strncmp(p, name, strlen(name)) == 0`. -/
def startsWithAt (mem : Bytes) : Bytes → Nat → Option Bool
  | [], _ => some true
  | c :: name, p => do
      let b ← mem[p]?
      if b = c then startsWithAt mem name (p + 1) else some false

/-- `strlen(p)`. -/
def strlenAt (mem : Bytes) (p : Nat) : Option Nat := do
  let last ← skipWhile mem (· != 0) p
  return last - p

/-- The `n` bytes from `p` on, as `memcpy` reads them. -/
def bytesAt (mem : Bytes) (p n : Nat) : Option Bytes :=
  if p + n ≤ mem.length then some ((mem.drop p).take n) else none

/-- `valueLen`: up to the next `&` or the end. -/
def valueLenAt (mem : Bytes) (valueStart : Nat) : Option Nat := do
  match ← strchrAt mem chAmp valueStart with
  | some valueEnd => return valueEnd - valueStart
  | none => strlenAt mem valueStart

/-- The copy at the end of `queryParam`. -/
def copyValue (mem out : Bytes) (valueStart : Nat) : Option (Bool × Bytes) := do
  let valueLen ← valueLenAt mem valueStart
  if valueLen + 1 > out.length then return (false, out)
  else
    let value ← bytesAt mem valueStart valueLen
    return (true, (memcpy out 0 value).set valueLen 0)

/-- `strncmp(cursor, name, nameLen) == 0 && cursor[nameLen] == '='`. -/
def hasNameAt (mem name : Bytes) (cursor : Nat) : Option Bool := do
  let starts ← startsWithAt mem name cursor
  if starts then (mem[cursor + name.length]?).map (· == chEquals) else some false

/-- The loop of `queryParam`; it runs on fuel. -/
def findParam (mem name out : Bytes) : Nat → Nat → Option (Bool × Bytes)
  | 0, _ => none
  | fuel + 1, cursor => do
      if ← hasNameAt mem name cursor then copyValue mem out (cursor + name.length + 1)
      else
        match ← strchrAt mem chAmp cursor with
        | none => return (false, out)
        | some cursor => findParam mem name out fuel (cursor + 1)

/-- `queryParam`, called with no null pointer; `none` is an access outside of the memory or a
loop that is not over.  The buffer has `cap` bytes. -/
def queryParam (mem name out : Bytes) (fuel target : Nat) : Option (Bool × Bytes) := do
  let out := out.set 0 0
  if out.length = 0 then return (false, out)
  else
    match ← strchrAt mem chQuestion target with
    | none => return (false, out)
    | some query => findParam mem name out fuel (query + 1)

/-! ## The query, split -/

/-- The pieces between the ampersands, behind the first question mark. -/
def pieces (target : Bytes) : List Bytes :=
  match target.dropWhile (· != chQuestion) with
  | [] => []
  | _ :: query => query.splitOn chAmp

/-- The value of a piece `name=value`. -/
def valueOf (name piece : Bytes) : Option Bytes :=
  if (name ++ [chEquals]).isPrefixOf piece then some (piece.drop (name.length + 1)) else none

theorem valueOf_eq_some_iff {name piece value : Bytes} :
    valueOf name piece = some value ↔ piece = name ++ chEquals :: value := by
  rw [valueOf]
  split
  · rename_i hprefix
    obtain ⟨rest, rfl⟩ := List.isPrefixOf_iff_prefix.mp hprefix
    have hdrop : (name ++ [chEquals] ++ rest).drop (name.length + 1) = rest :=
      List.drop_left' (by simp)
    rw [hdrop, Option.some.injEq, List.append_assoc, List.singleton_append]
    constructor
    · rintro rfl
      rfl
    · exact fun h => (List.cons.inj (List.append_cancel_left h)).2
  · rename_i hnot
    refine iff_of_false (by simp) ?_
    rintro rfl
    exact hnot (List.isPrefixOf_iff_prefix.mpr ⟨value, by simp⟩)

/-- The value of the first piece for the name. -/
def firstValue (target name : Bytes) : Option Bytes := (pieces target).findSome? (valueOf name)

/-- Behind each ampersand a piece starts. -/
theorem map_takeWhile_afterAmps (query : Bytes) :
    (query :: afterAmps query).map (List.takeWhile (· != chAmp)) = query.splitOn chAmp := by
  induction query with
  | nil => rfl
  | cons c rest ih =>
      rw [List.splitOn_cons_eq_if_modifyHead, ← ih, afterAmps]
      by_cases hc : c = chAmp
      · rw [if_pos hc, if_pos (by simpa using hc), List.map_cons,
          List.takeWhile_cons_of_neg (by simpa using hc)]
      · rw [if_neg hc, if_neg (by simpa using hc), List.map_cons, List.map_cons,
          List.takeWhile_cons_of_pos (by simpa using hc)]
        rfl

/-! ## The source on a text -/

section

variable {mem text rest name out : Bytes} {stop p : Nat} {c : Byte}

theorem strchrAt_of_not_mem (h : Points mem stop p text) (hstop : mem[stop]? = some 0)
    (hzero : (0 : Byte) ∉ text) (hc : c ≠ 0) (hnot : c ∉ text) :
    strchrAt mem c p = some none := by
  obtain ⟨found, hskip, hpoints⟩ :=
    @Points.skipWhile mem text stop p h (fun b => b != c && b != 0) 0 hstop (by simp)
  have hnil : text.dropWhile (fun b => b != c && b != 0) = [] := by
    rw [List.dropWhile_eq_nil_iff]
    intro b hb
    rw [Bool.and_eq_true]
    exact ⟨bne_of_not_mem hnot b hb, bne_of_not_mem hzero b hb⟩
  rw [hnil] at hpoints
  rw [strchrAt, hskip, hpoints.eq_of_nil]
  simp [hstop, Ne.symm hc]

theorem strchrAt_append (h : Points mem stop p (text ++ c :: rest)) (hstop : mem[stop]? = some 0)
    (hzero : (0 : Byte) ∉ text ++ c :: rest) (hnot : c ∉ text) :
    strchrAt mem c p = some (some (p + text.length)) := by
  obtain ⟨found, hskip, hpoints⟩ :=
    @Points.skipWhile mem (text ++ c :: rest) stop p h (fun b => b != c && b != 0) 0 hstop
      (by simp)
  have hdrop : (text ++ c :: rest).dropWhile (fun b => b != c && b != 0) = c :: rest := by
    rw [List.dropWhile_append_of_pos, List.dropWhile_cons_of_neg (by simp)]
    intro b hb
    rw [Bool.and_eq_true]
    exact ⟨bne_of_not_mem hnot b hb,
      bne_of_not_mem (fun hmem => hzero (List.mem_append_left _ hmem)) b hb⟩
  rw [hdrop] at hpoints
  have hfound : found = p + text.length := by
    have hlength := h.length
    have hlast := hpoints.length
    rw [List.length_append] at hlength
    omega
  have hget := hpoints.get
  rw [hfound] at hskip hget
  rw [strchrAt, hskip]
  simp [hget]

theorem startsWithAt_eq (h : Points mem stop p text) (hstop : mem[stop]? = some 0)
    (hname : (0 : Byte) ∉ name) : startsWithAt mem name p = some (name.isPrefixOf text) := by
  induction name generalizing p text with
  | nil => rfl
  | cons c name ih =>
      rw [List.mem_cons, not_or] at hname
      cases text with
      | nil =>
          rw [← h.eq_of_nil] at hstop
          rw [startsWithAt, hstop]
          simp [hname.1]
      | cons b text =>
          rw [startsWithAt, h.get, Option.bind_eq_bind, Option.bind_some,
            List.isPrefixOf_cons_cons]
          by_cases hb : b = c
          · rw [if_pos hb, ih h.tail hname.2, hb, beq_self_eq_true, Bool.true_and]
          · rw [if_neg hb, beq_false_of_ne (Ne.symm hb), Bool.false_and]

/-- The name and the sign behind it. -/
theorem hasNameAt_eq (h : Points mem stop p text) (hstop : mem[stop]? = some 0)
    (hname : (0 : Byte) ∉ name) :
    hasNameAt mem name p = some ((name ++ [chEquals]).isPrefixOf text) := by
  rw [hasNameAt, startsWithAt_eq h hstop hname, Option.bind_eq_bind, Option.bind_some]
  by_cases hprefix : name.isPrefixOf text = true
  · obtain ⟨rest, rfl⟩ := List.isPrefixOf_iff_prefix.mp hprefix
    have hbehind := h.drop (show name.length ≤ (name ++ rest).length by simp)
    rw [List.drop_left] at hbehind
    rw [if_pos hprefix]
    cases rest with
    | nil =>
        rw [hbehind.eq_of_nil, hstop, Option.map_some, List.append_nil]
        have hshort : ¬ (name ++ [chEquals]) <+: name := fun hlong => by
          have hlength := hlong.length_le
          rw [List.length_append, List.length_singleton] at hlength
          omega
        have hfalse : (name ++ [chEquals]).isPrefixOf name = false := by
          rwa [← Bool.not_eq_true, List.isPrefixOf_iff_prefix]
        rw [hfalse]
        rfl
    | cons b rest =>
        rw [hbehind.get, Option.map_some, Option.some.injEq, Bool.eq_iff_iff, beq_iff_eq,
          List.isPrefixOf_iff_prefix, List.prefix_append_right_inj, List.cons_prefix_cons]
        exact ⟨fun hb => ⟨hb.symm, List.nil_prefix⟩, fun hb => hb.1.symm⟩
  · rw [if_neg hprefix]
    have hfalse : (name ++ [chEquals]).isPrefixOf text = false := by
      rw [← Bool.not_eq_true, List.isPrefixOf_iff_prefix]
      intro hlong
      exact hprefix (List.isPrefixOf_iff_prefix.mpr ((List.prefix_append _ _).trans hlong))
    rw [hfalse]

theorem strlenAt_eq (h : Points mem stop p text) (hstop : mem[stop]? = some 0)
    (hzero : (0 : Byte) ∉ text) : strlenAt mem p = some text.length := by
  obtain ⟨last, hskip, hpoints⟩ := @Points.skipWhile mem text stop p h (· != 0) 0 hstop rfl
  rw [List.dropWhile_eq_nil_iff.mpr (bne_of_not_mem hzero)] at hpoints
  have hlength := h.length
  rw [strlenAt, hskip, hpoints.eq_of_nil, Option.bind_eq_bind, Option.bind_some]
  exact congrArg some (by omega)

theorem bytesAt_eq (h : Points mem stop p (text ++ rest)) (hstop : mem[stop]? = some 0) :
    bytesAt mem p text.length = some text := by
  have hlength := h.length
  have hlt := (List.getElem?_eq_some_iff.mp hstop).1
  rw [List.length_append] at hlength
  rw [bytesAt, if_pos (by omega), h.bytes, List.append_assoc, List.take_left]

/-- The value ends in front of the next ampersand. -/
theorem valueLenAt_eq {value : Bytes} (h : Points mem stop p (value ++ rest))
    (hstop : mem[stop]? = some 0) (hzero : (0 : Byte) ∉ value ++ rest) (hvalue : chAmp ∉ value)
    (hrest : ∀ b ∈ rest.head?, b = chAmp) : valueLenAt mem p = some value.length := by
  cases rest with
  | nil =>
      rw [List.append_nil] at h hzero
      rw [valueLenAt, strchrAt_of_not_mem h hstop hzero (by decide) hvalue, Option.bind_eq_bind,
        Option.bind_some]
      exact strlenAt_eq h hstop hzero
  | cons c rest =>
      obtain rfl : c = chAmp := hrest c rfl
      rw [valueLenAt, strchrAt_append h hstop hzero hvalue, Option.bind_eq_bind, Option.bind_some]
      exact congrArg some (Nat.add_sub_cancel_left p value.length)

/-- The value is copied if it fits with its terminator. -/
theorem wrote_copyValue {value : Bytes} (h : Points mem stop p (value ++ rest))
    (hstop : mem[stop]? = some 0) (hzero : (0 : Byte) ∉ value ++ rest) (hvalue : chAmp ∉ value)
    (hrest : ∀ b ∈ rest.head?, b = chAmp) (hempty : HoldsText out []) :
    ∃ result, copyValue mem out p = some result ∧
      Wrote result ((some value).filter (·.length < out.length)) out.length := by
  have hcopy : copyValue mem out p =
      if value.length + 1 > out.length then some (false, out)
      else some (true, (memcpy out 0 value).set value.length 0) := by
    rw [copyValue, valueLenAt_eq h hstop hzero hvalue hrest, Option.bind_eq_bind,
      Option.bind_some, bytesAt_eq h hstop]
    rfl
  rw [hcopy]
  by_cases hfits : value.length + 1 > out.length
  · have hnone : (some value).filter (·.length < out.length) = none := by
      rw [Option.filter_some, if_neg (by simp; omega)]
    rw [if_pos hfits, hnone]
    exact ⟨_, rfl, rfl, hempty, rfl⟩
  · have hsome : (some value).filter (·.length < out.length) = some value := by
      rw [Option.filter_some, if_pos (by simp; omega)]
    obtain ⟨hholds, hlength⟩ := @holdsText_memcpy value out (by omega)
    rw [if_neg hfits, hsome]
    exact ⟨_, rfl, rfl, hholds, hlength⟩

/-- The value of the first piece for the name, if it fits with its terminator. -/
def fitting (found : Option Bytes) (cap : Nat) : Option Bytes := found.filter (·.length < cap)

/-- The value behind a name at the front. -/
theorem wrote_value {value : Bytes}
    (h : Points mem stop p (name ++ chEquals :: value ++ rest)) (hstop : mem[stop]? = some 0)
    (hzero : (0 : Byte) ∉ name ++ chEquals :: value ++ rest) (hvalue : chAmp ∉ value)
    (hrest : ∀ b ∈ rest.head?, b = chAmp) (hempty : HoldsText out []) :
    ∃ result, copyValue mem out (p + name.length + 1) = some result ∧
      Wrote result (fitting (some value) out.length) out.length := by
  rw [List.append_assoc] at h hzero
  exact wrote_copyValue h.behind hstop (not_mem_behind hzero) hvalue hrest hempty

/-- The loop looks at piece after piece, and is over behind the last one. -/
theorem wrote_findParam {fuel : Nat} (h : Points mem stop p text) (hstop : mem[stop]? = some 0)
    (hzero : (0 : Byte) ∉ text) (hname : (0 : Byte) ∉ name) (hamp : chAmp ∉ name)
    (hempty : HoldsText out []) (hfuel : text.length < fuel) :
    ∃ result, findParam mem name out fuel p = some result ∧
      Wrote result (fitting ((text.splitOn chAmp).findSome? (valueOf name)) out.length)
        out.length := by
  induction fuel generalizing p text with
  | zero => exact absurd hfuel (Nat.not_lt_zero _)
  | succ fuel ih =>
      have hneedle : chAmp ∉ name ++ [chEquals] := by
        rw [List.mem_append, List.mem_singleton, not_or]
        exact ⟨hamp, by decide⟩
      rw [findParam, hasNameAt_eq h hstop hname, Option.bind_eq_bind, Option.bind_some]
      by_cases hmore : chAmp ∈ text
      · obtain ⟨piece, more, rfl, hpiece⟩ := List.eq_append_cons_of_mem hmore
        rw [List.splitOn_append_cons_self_of_not_mem hpiece, List.findSome?_cons]
        cases hvalueOf : valueOf name piece with
        | some value =>
            obtain rfl := valueOf_eq_some_iff.mp hvalueOf
            rw [if_pos (List.isPrefixOf_iff_prefix.mpr ⟨value ++ chAmp :: more, by simp⟩)]
            exact wrote_value h hstop hzero (not_mem_behind hpiece) (by simp) hempty
        | none =>
            have hnot : ¬ (name ++ [chEquals]).isPrefixOf (piece ++ chAmp :: more) = true := by
              rw [List.isPrefixOf_iff_prefix, prefix_append_cons_iff hneedle]
              rintro ⟨value, rfl⟩
              rw [valueOf_eq_some_iff.mpr (List.append_cons name chEquals value).symm] at hvalueOf
              cases hvalueOf
            rw [if_neg hnot, strchrAt_append h hstop hzero hpiece, Option.bind_eq_bind,
              Option.bind_some]
            rw [List.length_append, List.length_cons] at hfuel
            exact ih h.behind (not_mem_behind hzero) (by omega)
      · rw [List.splitOn_eq_singleton hmore, List.findSome?_singleton]
        cases hvalueOf : valueOf name text with
        | some value =>
            obtain rfl := valueOf_eq_some_iff.mp hvalueOf
            rw [if_pos (List.isPrefixOf_iff_prefix.mpr ⟨value, by simp⟩)]
            rw [← List.append_nil (name ++ chEquals :: value)] at h hzero
            exact wrote_value h hstop hzero (not_mem_behind hmore) (by simp) hempty
        | none =>
            have hnot : ¬ (name ++ [chEquals]).isPrefixOf text = true := by
              rw [List.isPrefixOf_iff_prefix]
              rintro ⟨value, rfl⟩
              rw [valueOf_eq_some_iff.mpr (List.append_cons name chEquals value).symm] at hvalueOf
              cases hvalueOf
            rw [if_neg hnot, strchrAt_of_not_mem h hstop hzero (by decide) hmore,
              Option.bind_eq_bind, Option.bind_some]
            exact ⟨_, rfl, rfl, hempty, rfl⟩

/-- `queryParam` finds the first value for the name, if it fits. -/
theorem wrote_queryParam {fuel : Nat} (h : Points mem stop p text) (hstop : mem[stop]? = some 0)
    (hzero : (0 : Byte) ∉ text) (hname : (0 : Byte) ∉ name) (hamp : chAmp ∉ name)
    (hcap : 0 < out.length) (hfuel : text.length < fuel) :
    ∃ result, queryParam mem name out fuel p = some result ∧
      Wrote result (fitting (firstValue text name) out.length) out.length := by
  have hempty := holdsText_set_zero hcap
  have hlength : (out.set 0 0).length = out.length := List.length_set
  rw [queryParam, if_neg (by rw [hlength]; exact Nat.ne_of_gt hcap), firstValue, pieces]
  by_cases hquery : chQuestion ∈ text
  · obtain ⟨front, query, rfl, hfront⟩ := List.eq_append_cons_of_mem hquery
    rw [List.length_append, List.length_cons] at hfuel
    rw [strchrAt_append h hstop hzero hfront, dropWhile_bne_append hfront, Option.bind_eq_bind,
      Option.bind_some]
    have hfind := wrote_findParam h.behind hstop (not_mem_behind hzero) hname hamp hempty
      (show query.length < fuel by omega)
    rwa [hlength] at hfind
  · rw [strchrAt_of_not_mem h hstop hzero (by decide) hquery,
      List.dropWhile_eq_nil_iff.mpr (bne_of_not_mem hquery), Option.bind_eq_bind, Option.bind_some]
    exact ⟨_, rfl, rfl, hempty, hlength⟩

end

theorem suffix_of_mem_afterAmps {query cursor : Bytes} (h : cursor ∈ afterAmps query) :
    cursor <:+ query := by
  induction query with
  | nil => cases h
  | cons c rest ih =>
      rw [afterAmps] at h
      split at h
      · rcases List.mem_cons.mp h with rfl | hlater
        · exact List.suffix_cons c cursor
        · exact (ih hlater).trans (List.suffix_cons c rest)
      · exact (ih h).trans (List.suffix_cons c rest)

/-- The pieces are parts of the query. -/
theorem mem_of_mem_splitOn {query piece : Bytes} (h : piece ∈ query.splitOn chAmp) :
    ∀ c ∈ piece, c ∈ query := by
  rw [← map_takeWhile_afterAmps] at h
  obtain ⟨cursor, hcursor, rfl⟩ := List.mem_map.mp h
  intro c hc
  have hmem := (List.takeWhile_prefix _).mem hc
  rcases List.mem_cons.mp hcursor with rfl | hlater
  · exact hmem
  · exact (suffix_of_mem_afterAmps hlater).mem hmem

/-- A value that was found holds no NUL. -/
theorem zero_not_mem_firstValue {text name value : Bytes} (hzero : (0 : Byte) ∉ text)
    (h : firstValue text name = some value) : (0 : Byte) ∉ value := by
  intro hmem
  obtain ⟨piece, hpiece, hvalue⟩ := List.exists_of_findSome?_eq_some h
  obtain rfl := valueOf_eq_some_iff.mp hvalue
  rw [pieces] at hpiece
  split at hpiece
  · cases hpiece
  · rename_i question query hquery
    have hin := mem_of_mem_splitOn hpiece 0
      (List.mem_append_right _ (List.mem_cons_of_mem _ hmem))
    refine hzero ((List.dropWhile_suffix (· != chQuestion)).mem ?_)
    rw [hquery]
    exact List.mem_cons_of_mem _ hin

/-- The `queryParam` of the tickets is this one. -/
theorem ticket_queryParam {target name : Bytes} (hamp : chAmp ∉ name) (cap : Nat) :
    Api.queryParam target name cap = fitting (firstValue target name) cap := by
  have hneedle : chAmp ∉ name ++ [chEquals] := by
    rw [List.mem_append, List.mem_singleton, not_or]
    exact ⟨hamp, by decide⟩
  -- whether the name is at a position is seen in the piece that starts there
  have hpiece : ∀ cursor : Bytes, (name ++ [chEquals]).isPrefixOf cursor =
      (name ++ [chEquals]).isPrefixOf (cursor.takeWhile (· != chAmp)) := by
    intro cursor
    by_cases hmem : chAmp ∈ cursor
    · obtain ⟨piece, more, rfl, hnot⟩ := List.eq_append_cons_of_mem hmem
      rw [takeWhile_bne_append hnot, Bool.eq_iff_iff, List.isPrefixOf_iff_prefix,
        List.isPrefixOf_iff_prefix, prefix_append_cons_iff hneedle]
    · rw [List.takeWhile_eq_self_iff.mpr (bne_of_not_mem hmem)]
  have hvalue : ∀ cursor : Bytes, (name ++ [chEquals]).isPrefixOf cursor = true →
      (cursor.drop (name.length + 1)).takeWhile (· != chAmp) =
        (cursor.takeWhile (· != chAmp)).drop (name.length + 1) := by
    intro cursor hprefix
    obtain ⟨rest, rfl⟩ := List.isPrefixOf_iff_prefix.mp hprefix
    have hlength : (name ++ [chEquals]).length = name.length + 1 := by simp
    rw [List.takeWhile_append_of_pos (bne_of_not_mem hneedle), ← hlength, List.drop_left,
      List.drop_left]
  have hfind : ∀ cursors : List Bytes,
      (cursors.map (List.takeWhile (· != chAmp))).findSome? (valueOf name) =
        (cursors.find? fun cursor => (name ++ [chEquals]).isPrefixOf cursor).map fun cursor =>
          (cursor.drop (name.length + 1)).takeWhile (· != chAmp) := by
    intro cursors
    induction cursors with
    | nil => rfl
    | cons cursor rest ih =>
        rw [List.map_cons, List.findSome?_cons, List.find?_cons, valueOf, ← hpiece]
        by_cases hprefix : (name ++ [chEquals]).isPrefixOf cursor = true
        · rw [if_pos hprefix, hprefix, Option.map_some, hvalue cursor hprefix]
        · rw [if_neg hprefix, Bool.eq_false_iff.mpr hprefix]
          exact ih
  rw [Api.queryParam, firstValue, pieces]
  cases target.dropWhile (· != chQuestion) with
  | nil => rfl
  | cons question query =>
      simp only
      rw [← map_takeWhile_afterAmps, hfind]
      cases (query :: afterAmps query).find? fun cursor =>
          (name ++ [chEquals]).isPrefixOf cursor with
      | none => rfl
      | some cursor =>
          simp only [fitting, Option.map_some, Option.filter_some]
          split
          · rw [if_neg (by simp; omega)]
          · rw [if_pos (by simp; omega)]

/-- `queryParam` comes to an end, and agrees with splitting the query at its ampersands: it
returns true with a value in the buffer exactly when that is the value of the first piece for
the name and fits, and otherwise returns false with an empty text in the buffer. -/
theorem queryParam_splits {mem text : Bytes} {stop target fuel : Nat} (name out : Bytes)
    (htarget : Points mem stop target text) (hstop : mem[stop]? = some 0)
    (hzero : (0 : Byte) ∉ text) (hname : (0 : Byte) ∉ name) (hamp : chAmp ∉ name)
    (hfuel : text.length < fuel) :
    ∃ found written, queryParam mem name out fuel target = some (found, written) ∧
      written.length = out.length ∧
      (∀ value, (found = true ∧ cstring written = value) ↔
        (firstValue text name = some value ∧ value.length < out.length)) ∧
      ((¬ ∃ value, firstValue text name = some value ∧ value.length < out.length) →
        found = false ∧ (0 < out.length → cstring written = [])) := by
  by_cases hcap : 0 < out.length
  · obtain ⟨⟨found, written⟩, hrun, hwrote⟩ :=
      wrote_queryParam htarget hstop hzero hname hamp hcap hfuel
    refine ⟨found, written, hrun, hwrote.length, ?_⟩
    cases hfitting : fitting (firstValue text name) out.length with
    | none =>
        rw [hfitting] at hwrote
        have hfalse : found = false := hwrote.answer
        have hempty : cstring written = [] := hwrote.holds.cstring_eq List.not_mem_nil
        have hnone : ∀ value, ¬ (firstValue text name = some value ∧
            value.length < out.length) := by
          rintro value ⟨hvalue, hfits⟩
          rw [fitting, hvalue, Option.filter_some, if_pos (by simpa using hfits)] at hfitting
          cases hfitting
        exact ⟨fun value => iff_of_false (by simp [hfalse]) (hnone value),
          fun _ => ⟨hfalse, fun _ => hempty⟩⟩
    | some value =>
        rw [hfitting] at hwrote
        obtain ⟨hvalue, hfits⟩ := Option.filter_eq_some_iff.mp hfitting
        have hfits : value.length < out.length := by simpa using hfits
        have htrue : found = true := hwrote.answer
        have hwritten : cstring written = value :=
          hwrote.holds.cstring_eq (zero_not_mem_firstValue hzero hvalue)
        refine ⟨fun other => ?_, fun hnone => absurd ⟨value, hvalue, hfits⟩ hnone⟩
        rw [hwritten, hvalue, Option.some.injEq]
        constructor
        · rintro ⟨-, rfl⟩
          exact ⟨rfl, hfits⟩
        · rintro ⟨rfl, -⟩
          exact ⟨htrue, rfl⟩
  · obtain rfl : out = [] := List.length_eq_zero_iff.mp (by omega)
    exact ⟨false, [], rfl, rfl, fun value => iff_of_false (by simp) (by simp),
      fun _ => ⟨rfl, fun h => absurd h (Nat.lt_irrefl 0)⟩⟩

/-- A parameter behind one whose name ends alike. -/
theorem queryParam_splits_ticket :
    let mem := ascii "/api/ws?myid=1&id=abc" ++ [0]
    firstValue (ascii "/api/ws?myid=1&id=abc") (ascii "id") = some (ascii "abc") ∧
      ∃ found written, queryParam mem (ascii "id") [7, 7, 7, 7] 22 0 = some (found, written) ∧
        found = true ∧ cstring written = ascii "abc" := by
  have htarget : Points (ascii "/api/ws?myid=1&id=abc" ++ [0]) 21 0
      (ascii "/api/ws?myid=1&id=abc") := ⟨rfl, rfl⟩
  have hfound : firstValue (ascii "/api/ws?myid=1&id=abc") (ascii "id") = some (ascii "abc") := rfl
  obtain ⟨found, written, hrun, -, hvalue, -⟩ :=
    queryParam_splits (ascii "id") [7, 7, 7, 7] htarget rfl (by decide) (by decide) (by decide)
      (show 21 < 22 by decide)
  exact ⟨hfound, found, written, hrun, (hvalue (ascii "abc")).mpr ⟨hfound, by decide⟩⟩

end MatrixFaces.Net.QueryString
