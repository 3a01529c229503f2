import MatrixFaces.Foundation.CText

set_option autoImplicit false

/-!
# C's text functions over one buffer

The functions of `CText` once more, over the indices of a buffer: an access outside of it
is a failure.  Wherever the buffer holds a text between two indices, and behind it a byte
at which the function stops, it does not fail and finds what the function on the text does.

`Runs` is a run that does not fail, with its result and the buffer behind it, and `Keeps` one
that leaves the buffer as it was; `Runs.bind` puts runs in a row.  `Points` is a pointer into a
scope: the text from it up to the end.

Each function has one lemma over `Points`, as `Points.strstrAt` and `Points.strtolAt`, with the
function of `Foundation.CText` as its result.
-/

namespace MatrixFaces.Foundation

/-! ## Programs over a buffer -/

/-- A program over one buffer; `none` is an access outside of it. -/
abbrev Mem (α : Type) := StateT Bytes Option α

namespace Mem

/-- A program that only reads. -/
def reads {α : Type} (read : Bytes → Option α) : Mem α := fun mem =>
  (read mem).map fun a => (a, mem)

/-- `*p`. -/
def load (p : Nat) : Mem Byte := reads fun mem => mem[p]?

/-- `*p = b`. -/
def store (p : Nat) (b : Byte) : Mem Unit := fun mem =>
  (Foundation.store mem p b).map fun mem => ((), mem)

/-- The program does not fail. -/
def Runs {α : Type} (program : Mem α) (mem : Bytes) (a : α) (after : Bytes) : Prop :=
  program mem = some (a, after)

variable {α β : Type} {mem middle after : Bytes} {a : α} {b : β}

theorem Runs.pure (a : α) (mem : Bytes) : Runs (Pure.pure a) mem a mem := rfl

theorem Runs.bind {first : Mem α} {next : α → Mem β} (h : Runs first mem a middle)
    (hnext : Runs (next a) middle b after) : Runs (first >>= next) mem b after := by
  unfold Runs at h hnext ⊢
  change (first mem >>= fun result => next result.1 result.2) = some (b, after)
  rw [h]
  exact hnext

theorem Runs.reads {read : Bytes → Option α} (h : read mem = some a) :
    Runs (Mem.reads read) mem a mem := by
  unfold Runs Mem.reads
  rw [h]
  rfl

theorem Runs.load {p : Nat} {c : Byte} (h : mem[p]? = some c) : Runs (Mem.load p) mem c mem :=
  Runs.reads h

theorem Runs.store {p : Nat} (h : p < mem.length) (c : Byte) :
    Runs (Mem.store p c) mem () (mem.set p c) := by
  unfold Runs Mem.store Foundation.store
  rw [if_pos h]
  rfl

/-- The program leaves the buffer as it was. -/
abbrev Keeps (program : Mem α) (mem : Bytes) (a : α) : Prop := Runs program mem a mem

/-- The `n` bytes from `p` on, one after the other. -/
def loads : Nat → Nat → Mem Bytes
  | _, 0 => Pure.pure []
  | p, n + 1 => do
      let c ← load p
      let rest ← loads (p + 1) n
      Pure.pure (c :: rest)

/-- The bytes written from `p` on, one after the other. -/
def stores : Nat → Bytes → Mem Unit
  | _, [] => Pure.pure ()
  | p, c :: rest => do
      store p c
      stores (p + 1) rest

theorem Runs.loads {p n : Nat} (h : p + n ≤ mem.length) :
    Keeps (Mem.loads p n) mem ((mem.drop p).take n) := by
  induction n generalizing p with
  | zero =>
      rw [List.take_zero]
      exact Runs.pure [] mem
  | succ n ih =>
      have hlt : p < mem.length := by omega
      rw [List.drop_eq_getElem_cons hlt, List.take_succ_cons]
      refine (Runs.load (List.getElem?_eq_getElem hlt)).bind ?_
      exact (ih (by omega)).bind (Runs.pure _ mem)

theorem Runs.stores {p : Nat} {bytes : Bytes} (h : p + bytes.length ≤ mem.length) :
    Runs (Mem.stores p bytes) mem () (memcpy mem p bytes) := by
  induction bytes generalizing p mem with
  | nil =>
      rw [memcpy_nil]
      exact Runs.pure () mem
  | cons c rest ih =>
      rw [List.length_cons] at h
      have hlt : p < mem.length := by omega
      have hrest := @ih (mem.set p c) (p + 1) (by rw [List.length_set]; omega)
      rw [memcpy_set hlt] at hrest
      exact (Runs.store hlt c).bind hrest

end Mem

/-! ## The text between two indices -/

/-- From `p` up to `stop` the buffer holds the text. -/
structure Points (mem : Bytes) (stop p : Nat) (text : Bytes) : Prop where
  bytes : mem.drop p = text ++ mem.drop stop
  length : p + text.length = stop

namespace Points

variable {mem text rest : Bytes} {stop p : Nat} {c : Byte}

theorem whole (mem : Bytes) {stop : Nat} (h : stop ≤ mem.length) :
    Points mem stop 0 (mem.take stop) := by
  constructor
  · rw [List.drop_zero, List.take_append_drop]
  · rw [List.length_take, Nat.zero_add, Nat.min_eq_left h]

theorem le (h : Points mem stop p text) : p ≤ stop := by
  have := h.length
  omega

theorem lt (h : Points mem stop p (c :: rest)) : p < stop := by
  have := h.length
  rw [List.length_cons] at this
  omega

theorem eq_of_nil (h : Points mem stop p []) : p = stop := h.length

theorem lt_iff (h : Points mem stop p text) : p < stop ↔ text ≠ [] := by
  cases text with
  | nil => exact iff_of_false (by rw [h.eq_of_nil]; omega) (by simp)
  | cons c rest => exact iff_of_true h.lt (by simp)

theorem nil_of_le (h : Points mem stop p text) (hle : stop ≤ p) : text = [] := by
  by_contra hne
  exact Nat.not_lt.mpr hle (h.lt_iff.mpr hne)

theorem get (h : Points mem stop p (c :: rest)) : mem[p]? = some c := by
  have hhead := congrArg List.head? h.bytes
  rwa [List.head?_drop] at hhead

theorem getElem? (h : Points mem stop p text) {n : Nat} (hn : text[n]? = some c) :
    mem[p + n]? = some c := by
  have hlt := (List.getElem?_eq_some_iff.mp hn).1
  rw [← List.getElem?_drop, h.bytes, List.getElem?_append_left hlt, hn]

theorem drop (h : Points mem stop p text) {n : Nat} (hn : n ≤ text.length) :
    Points mem stop (p + n) (text.drop n) := by
  constructor
  · rw [← List.drop_drop, h.bytes, List.drop_append_of_le_length hn]
  · rw [List.length_drop, ← h.length]
    omega

theorem tail (h : Points mem stop p (c :: rest)) : Points mem stop (p + 1) rest :=
  h.drop (Nat.succ_le_succ (Nat.zero_le rest.length))

/-- Behind a front and the byte after it. -/
theorem behind {front : Bytes} (h : Points mem stop p (front ++ c :: rest)) :
    Points mem stop (p + front.length + 1) rest := by
  have hfront := h.drop (n := front.length) (by simp)
  rw [List.drop_left] at hfront
  exact hfront.tail

/-- A later part of the text, by its length. -/
theorem suffix (h : Points mem stop p text) (hrest : rest <:+ text) :
    Points mem stop (stop - rest.length) rest := by
  obtain ⟨front, rfl⟩ := hrest
  have hlength := h.length
  have hdrop := h.drop (n := front.length) (by simp)
  rw [List.drop_left] at hdrop
  rw [List.length_append] at hlength
  have hstop : stop - rest.length = p + front.length := by omega
  rwa [hstop]

/-- The front of the text. -/
theorem take (h : Points mem stop p text) {n : Nat} (hn : n ≤ text.length) :
    Points mem (p + n) p (text.take n) := by
  constructor
  · rw [(h.drop hn).bytes, ← List.append_assoc, List.take_append_drop, h.bytes]
  · rw [List.length_take, Nat.min_eq_left hn]

theorem take_drop (h : Points mem stop p text) : (mem.drop p).take (stop - p) = text := by
  rw [h.bytes, ← h.length, Nat.add_sub_cancel_left, List.take_left]

/-- A text that two texts have both as a later part is at one index. -/
theorem unique (h : Points mem stop p text) {q : Nat} (hq : Points mem stop q text) : p = q := by
  have := h.length
  have := hq.length
  omega

/-- What is written at its end does not touch the text. -/
theorem set_stop (h : Points mem stop p text) (b : Byte) : Points (mem.set stop b) stop p text := by
  constructor
  · have hp : ¬ stop < p := Nat.not_lt.mpr h.le
    have hoffset : stop - p = text.length := by
      have := h.length
      omega
    rw [List.drop_set, if_neg hp, List.drop_set, if_neg (Nat.lt_irrefl stop), h.bytes, hoffset,
      Nat.sub_self, List.set_append_right _ _ (Nat.le_refl _), Nat.sub_self]
  · exact h.length

/-- A later part of the text is at a later index. -/
theorem le_of_suffix (h : Points mem stop p text) {q : Nat} (hq : Points mem stop q rest)
    (hrest : rest <:+ text) : p ≤ q := by
  have := h.length
  have := hq.length
  have := hrest.length_le
  omega

end Points

/-! ## Scans -/

/-- `while (p < stop && pred(*p)) p++`. -/
def skipBelow (mem : Bytes) (pred : Byte → Bool) (stop p : Nat) : Option Nat :=
  if p < stop then do
    let c ← mem[p]?
    if pred c then skipBelow mem pred stop (p + 1) else return p
  else some p
termination_by stop - p

/-- `while (pred(*p)) p++`. -/
def skipWhile (mem : Bytes) (pred : Byte → Bool) (p : Nat) : Option Nat :=
  if h : p < mem.length then
    if pred mem[p] then skipWhile mem pred (p + 1) else some p
  else none
termination_by mem.length - p

variable {mem text : Bytes} {stop p : Nat}

theorem Points.skipBelow (h : Points mem stop p text) (pred : Byte → Bool) :
    ∃ q, skipBelow mem pred stop p = some q ∧ Points mem stop q (text.dropWhile pred) := by
  induction text generalizing p with
  | nil =>
      refine ⟨p, ?_, h⟩
      rw [Foundation.skipBelow, if_neg (by rw [h.eq_of_nil]; omega)]
  | cons c rest ih =>
      rw [Foundation.skipBelow, if_pos h.lt, h.get]
      by_cases hc : pred c = true
      · obtain ⟨q, hq, hpoints⟩ := ih h.tail
        refine ⟨q, ?_, ?_⟩
        · rw [Option.bind_eq_bind, Option.bind_some, if_pos hc, hq]
        · rw [List.dropWhile_cons_of_pos hc]
          exact hpoints
      · refine ⟨p, ?_, ?_⟩
        · rw [Option.bind_eq_bind, Option.bind_some, if_neg hc]
          rfl
        · rw [List.dropWhile_cons_of_neg hc]
          exact h

theorem skipWhile_of_get {c : Byte} (h : mem[p]? = some c) (pred : Byte → Bool) :
    skipWhile mem pred p = if pred c then skipWhile mem pred (p + 1) else some p := by
  obtain ⟨hlt, hget⟩ := List.getElem?_eq_some_iff.mp h
  rw [skipWhile, dif_pos hlt, hget]

/-- The byte behind the text ends the scan at the latest. -/
theorem Points.skipWhile (h : Points mem stop p text) {pred : Byte → Bool} {c : Byte}
    (hstop : mem[stop]? = some c) (hc : pred c = false) :
    ∃ q, skipWhile mem pred p = some q ∧ Points mem stop q (text.dropWhile pred) := by
  induction text generalizing p with
  | nil =>
      refine ⟨p, ?_, h⟩
      rw [← h.eq_of_nil] at hstop
      rw [skipWhile_of_get hstop, hc]
      rfl
  | cons b rest ih =>
      rw [skipWhile_of_get h.get]
      by_cases hb : pred b = true
      · obtain ⟨q, hq, hpoints⟩ := ih h.tail
        rw [if_pos hb, List.dropWhile_cons_of_pos hb]
        exact ⟨q, hq, hpoints⟩
      · rw [if_neg hb, List.dropWhile_cons_of_neg hb]
        exact ⟨p, rfl, h⟩

/-! ## `strstr` -/

/-- `strstr(p, needle)`; the buffer has to hold a NUL from `p` on. -/
def strstrAt (mem needle : Bytes) (p : Nat) : Option (Option Nat) :=
  if (0 : Byte) ∈ mem.drop p then
    some ((strstr needle (mem.drop p)).map fun found => mem.length - found.length)
  else none

/-- The NUL ends the text. -/
theorem strstr_append_zero {needle : Bytes} (hne : needle ≠ []) (hneedle : (0 : Byte) ∉ needle)
    (text more : Bytes) :
    strstr needle (text ++ 0 :: more) = (strstr needle text).map (· ++ 0 :: more) := by
  have hfront := prefix_append_cons_iff hneedle more
  induction text with
  | nil =>
      rw [List.nil_append, strstr, strstr, if_neg hne, if_neg, if_pos rfl]
      · rfl
      · intro h
        exact hne (List.prefix_nil.mp ((hfront []).mp h))
  | cons c rest ih =>
      rw [List.cons_append, strstr, strstr, ← List.cons_append]
      simp only [hfront (c :: rest)]
      split
      · rfl
      · split
        · rfl
        · exact ih

/-- With a NUL behind the text, `strstr` finds what is in the text. -/
theorem Points.strstrAt (h : Points mem stop p text) (hzero : mem[stop]? = some 0) {needle : Bytes}
    (hne : needle ≠ []) (hneedle : (0 : Byte) ∉ needle) :
    strstrAt mem needle p = some ((strstr needle text).map fun found => stop - found.length) := by
  obtain ⟨hlt, hget⟩ := List.getElem?_eq_some_iff.mp hzero
  have hbytes : mem.drop p = text ++ 0 :: mem.drop (stop + 1) := by
    rw [h.bytes, List.drop_eq_getElem_cons hlt, hget]
  have hmem : (0 : Byte) ∈ mem.drop p := by
    rw [hbytes]
    simp
  rw [Foundation.strstrAt, if_pos hmem, hbytes, strstr_append_zero hne hneedle, Option.map_map]
  congr 2
  funext found
  simp only [Function.comp_apply, List.length_append, List.length_cons, List.length_drop]
  omega

/-! ## `strtol` -/

/-- The sign at `p`, and the index behind it. -/
def signAt (mem : Bytes) (p : Nat) : Option (Int × Nat) :=
  (mem[p]?).map fun c => if c = 0x2D then (-1, p + 1) else if c = 0x2B then (1, p + 1) else (1, p)

/-- `strtol(p, &end, 10)`: the number and `end`. -/
def strtolAt (mem : Bytes) (p : Nat) : Option (Int × Nat) := do
  let q ← skipWhile mem isSpace p
  let (sign, digits) ← signAt mem q
  let stop ← skipWhile mem isDigit digits
  if stop = digits then return (0, p)
  else
    return (max LONG_MIN
        (min LONG_MAX (sign * digitsValue ((mem.drop digits).take (stop - digits)))),
      stop)

/-- A byte at which `strtol` stops. -/
def EndsNumber (c : Byte) : Prop :=
  isSpace c = false ∧ isDigit c = false ∧ c ≠ 0x2D ∧ c ≠ 0x2B

theorem readSign_suffix (text : Bytes) : (readSign text).2 <:+ text := by
  cases text with
  | nil => exact List.suffix_rfl
  | cons c rest =>
      rw [readSign]
      split
      · exact List.suffix_cons c rest
      · split
        · exact List.suffix_cons c rest
        · exact List.suffix_rfl

theorem Points.signAt (h : Points mem stop p text) {c : Byte} (hstop : mem[stop]? = some c)
    (hc : EndsNumber c) :
    ∃ q, signAt mem p = some ((readSign text).1, q) ∧ Points mem stop q (readSign text).2 := by
  cases text with
  | nil =>
      refine ⟨p, ?_, h⟩
      rw [← h.eq_of_nil] at hstop
      rw [Foundation.signAt, hstop, Option.map_some, if_neg hc.2.2.1, if_neg hc.2.2.2]
      rfl
  | cons b rest =>
      rw [Foundation.signAt, h.get, Option.map_some, readSign]
      split
      · exact ⟨p + 1, rfl, h.tail⟩
      · split
        · exact ⟨p + 1, rfl, h.tail⟩
        · exact ⟨p, rfl, h⟩

/-- A run of bytes in front, from index to index. -/
theorem Points.takeWhile (h : Points mem stop p text) {pred : Byte → Bool} {q : Nat}
    (hq : Points mem stop q (text.dropWhile pred)) :
    (mem.drop p).take (q - p) = text.takeWhile pred := by
  have hle : (text.takeWhile pred).length ≤ text.length := (List.takeWhile_prefix pred).length_le
  have hfront := h.take hle
  have hdrop := h.drop hle
  have hsplit : text.drop (text.takeWhile pred).length = text.dropWhile pred := by
    have happend := List.takeWhile_append_dropWhile (p := pred) (l := text)
    exact (congrArg (List.drop (text.takeWhile pred).length) happend.symm).trans List.drop_left
  rw [hsplit] at hdrop
  rw [← hdrop.unique hq, hfront.take_drop]
  exact (List.prefix_iff_eq_take.mp (List.takeWhile_prefix pred)).symm

/-- What `strtol` finds in front of a byte at which it stops. -/
theorem Points.strtolAt (h : Points mem stop p text) {c : Byte} (hstop : mem[stop]? = some c)
    (hc : EndsNumber c) :
    ∃ q, Foundation.strtolAt mem p = some (((strtol text).map Prod.fst).getD 0, q) ∧
      match strtol text with
      | none => q = p
      | some (_, rest) => q ≠ p ∧ Points mem stop q rest := by
  obtain ⟨afterSpace, hspace, hspacePoints⟩ := h.skipWhile hstop hc.1
  obtain ⟨digits, hsign, hdigits⟩ := hspacePoints.signAt hstop hc
  obtain ⟨last, hlast, hlastPoints⟩ := hdigits.skipWhile hstop hc.2.1
  have hread := hdigits.takeWhile hlastPoints
  have hempty : last = digits ↔
      (readSign (text.dropWhile isSpace)).2.takeWhile isDigit = [] := by
    constructor
    · intro heq
      rw [← hread, heq, Nat.sub_self, List.take_zero]
    · intro hnil
      have hsame := List.takeWhile_append_dropWhile (p := isDigit)
        (l := (readSign (text.dropWhile isSpace)).2)
      rw [hnil, List.nil_append] at hsame
      rw [hsame] at hlastPoints
      exact hlastPoints.unique hdigits
  have hrun : Foundation.strtolAt mem p = if last = digits then some (0, p) else
      some (max LONG_MIN (min LONG_MAX ((readSign (text.dropWhile isSpace)).1 *
        digitsValue ((mem.drop digits).take (last - digits)))), last) := by
    rw [Foundation.strtolAt, hspace]
    simp only [Option.bind_eq_bind, Option.bind_some, hsign, hlast]
    rfl
  rw [hrun, strtol]
  by_cases hnone : last = digits
  · refine ⟨p, ?_, ?_⟩
    · rw [if_pos hnone, if_pos (hempty.mp hnone)]
      rfl
    · rw [if_pos (hempty.mp hnone)]
  · refine ⟨last, ?_, ?_⟩
    · rw [if_neg hnone, if_neg fun hnil => hnone (hempty.mpr hnil), hread]
      rfl
    · rw [if_neg fun hnil => hnone (hempty.mpr hnil)]
      refine ⟨fun heq => hnone ?_, hlastPoints⟩
      have hspaces := h.le_of_suffix hspacePoints (List.dropWhile_suffix _)
      have hsigned := hspacePoints.le_of_suffix hdigits (readSign_suffix _)
      have hafter := hdigits.le_of_suffix hlastPoints (List.dropWhile_suffix _)
      omega

end MatrixFaces.Foundation
