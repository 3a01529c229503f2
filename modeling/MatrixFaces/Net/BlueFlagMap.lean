import MatrixFaces.Foundation.SlotTable
import MatrixFaces.Net.BlueFlagAge

set_option autoImplicit false

/-!
# The table of blue flags as a map

The table stands for a map from drivers to the times their flags were last seen.  Each
message does to the table what it does to the map, and the last loop drops the flags that
timed out and shows one that is left.

`lastSeen` is the map that a table stands for, `change` what one message does to the table, and
`flagsAbove` are the messages that a call reads.  `actOnMessages_remains` is the result for a
whole call: the table stands for the changed map without what timed out, and what is shown is
one of what is left.

It is an instance of `Foundation.SlotTable`, with the racing number 0 for an empty slot.
-/

namespace MatrixFaces.Net.Mv

open MatrixFaces.Foundation
open SlotTable (keys write Represents)

/-! ## The map -/

/-- When each driver's blue flag was last seen. -/
abbrev LastSeen := UInt16 → Option UInt32

/-- A message about a driver's flag. -/
abbrev FlagMessage := UInt16 × Bytes

/-- BLUE is seen now, if there is room for it; any other flag takes the driver's away. -/
noncomputable def heard (nowMs : UInt32) (map : LastSeen) (flag : FlagMessage) : LastSeen :=
  if flag.2 = ascii "BLUE" then write kMaxDrivers map flag.1 nowMs
  else Function.update map flag.1 none

/-- The flags that have not timed out. -/
def inTime (nowMs : UInt32) (map : LastSeen) : LastSeen :=
  fun number => (map number).filter fun seenMs => nowMs - seenMs < kBlueFlagTimeoutMs

/-- The messages above the last index that are about a driver's flag. -/
def flagsAbove (last : Int) (messages : List Message) : List FlagMessage :=
  (messages.filter fun message => last < message.1).filterMap fun message => driverFlag message.2

/-- What a list of messages does to a map: one below the last index empties it. -/
noncomputable def heardAll (last : Int) (nowMs : UInt32) (messages : List Message)
    (map : LastSeen) : LastSeen :=
  if messages.any fun message => message.1 < last then fun _ => none
  else ((flagsAbove last messages).filter fun flag => flag.1 ≠ 0).foldl (heard nowMs) map

/-! ## The table -/

/-- No driver has two slots. -/
def NoDriverTwice (flags : BlueFlags) : Prop :=
  ∀ i j, (flags i).racingNumber ≠ 0 → (flags i).racingNumber = (flags j).racingNumber → i = j

/-- The map that a table stands for. -/
def lastSeen (flags : BlueFlags) : LastSeen := fun number =>
  if number = 0 then none else (slotOf flags number).map fun i => (flags i).lastSeenMs

/-- A slot without a driver is empty. -/
def entryOf (entry : BlueFlagEntry) : Option (UInt16 × UInt32) :=
  if entry.racingNumber = 0 then none else some (entry.racingNumber, entry.lastSeenMs)

def slotsOf (flags : BlueFlags) : SlotTable (Fin kMaxDrivers) UInt16 UInt32 :=
  fun i => entryOf (flags i)

theorem slotsOf_eq_some_iff {flags : BlueFlags} {i : Fin kMaxDrivers} {number : UInt16}
    {seenMs : UInt32} :
    slotsOf flags i = some (number, seenMs) ↔ number ≠ 0 ∧ flags i = ⟨number, seenMs⟩ := by
  unfold slotsOf entryOf
  generalize flags i = entry
  obtain ⟨driver, time⟩ := entry
  by_cases hunused : driver = 0
  · subst hunused
    simp only [if_true, reduceCtorEq, BlueFlagEntry.mk.injEq, false_iff]
    rintro ⟨hnumber, hzero, -⟩
    exact hnumber hzero.symm
  · simp only [if_neg hunused, Option.some.injEq, Prod.mk.injEq, BlueFlagEntry.mk.injEq]
    constructor
    · rintro ⟨rfl, rfl⟩
      exact ⟨hunused, rfl, rfl⟩
    · rintro ⟨-, hsame⟩
      exact hsame

theorem slotsOf_eq_none_iff {flags : BlueFlags} {i : Fin kMaxDrivers} :
    slotsOf flags i = none ↔ (flags i).racingNumber = 0 := by
  unfold slotsOf entryOf
  split
  · exact iff_of_true rfl ‹_›
  · exact iff_of_false (Option.some_ne_none _) ‹_›

theorem slotsOf_update (flags : BlueFlags) (i : Fin kMaxDrivers) (entry : BlueFlagEntry) :
    slotsOf (Function.update flags i entry) =
      Function.update (slotsOf flags) i (entryOf entry) := by
  funext j
  unfold slotsOf
  by_cases hji : j = i
  · subst hji
    rw [Function.update_self, Function.update_self]
  · rw [Function.update_of_ne hji, Function.update_of_ne hji]

/-- A table that stands for a map has no driver twice. -/
theorem noDriverTwice_of_represents {flags : BlueFlags} {map : LastSeen}
    (h : Represents (slotsOf flags) map) : NoDriverTwice flags := by
  intro i j hi hij
  have hfirst : slotsOf flags i = some ((flags i).racingNumber, (flags i).lastSeenMs) :=
    slotsOf_eq_some_iff.mpr ⟨hi, rfl⟩
  have hsecond : slotsOf flags j = some ((flags i).racingNumber, (flags j).lastSeenMs) :=
    slotsOf_eq_some_iff.mpr ⟨hi, by rw [hij]⟩
  exact h.unique hfirst hsecond

/-- A table in which no driver stands twice stands for a map. -/
theorem NoDriverTwice.represents {flags : BlueFlags} (h : NoDriverTwice flags) :
    Represents (slotsOf flags) (lastSeen flags) := by
  constructor
  · intro i j number seenMs other hi hj
    obtain ⟨hnumber, hentry⟩ := slotsOf_eq_some_iff.mp hi
    obtain ⟨-, hother⟩ := slotsOf_eq_some_iff.mp hj
    refine h i j ?_ ?_
    · rw [hentry]
      exact hnumber
    · rw [hentry, hother]
  · intro number seenMs
    unfold lastSeen
    by_cases hnumber : number = 0
    · rw [if_pos hnumber]
      refine iff_of_false (Option.some_ne_none _).symm ?_
      rintro ⟨i, hi⟩
      exact (slotsOf_eq_some_iff.mp hi).1 hnumber
    · rw [if_neg hnumber]
      constructor
      · intro hseen
        obtain ⟨i, hslot, rfl⟩ := Option.map_eq_some_iff.mp hseen
        refine ⟨i, slotsOf_eq_some_iff.mpr ⟨hnumber, ?_⟩⟩
        rw [← slotOf_eq_some hslot]
      · rintro ⟨i, hi⟩
        obtain ⟨-, hentry⟩ := slotsOf_eq_some_iff.mp hi
        have hnumberAt : (flags i).racingNumber = number := by rw [hentry]
        cases hslot : slotOf flags number with
        | none => exact absurd hnumberAt (slotOf_eq_none hslot i)
        | some j =>
            have hj := slotOf_eq_some hslot
            have hsame : j = i := h j i (hj ▸ hnumber) (hj.trans hnumberAt.symm)
            rw [hsame, Option.map_some, hentry]

theorem lastSeen_of_represents {flags : BlueFlags} {map : LastSeen}
    (h : Represents (slotsOf flags) map) : lastSeen flags = map :=
  (noDriverTwice_of_represents h).represents.map_eq h

/-! ## Messages -/

section Messages

variable {flags : BlueFlags} {map : LastSeen} {number : UInt16}

/-- The message loop's step on the table. -/
def change (nowMs : UInt32) (flags : BlueFlags) (flag : FlagMessage) : BlueFlags :=
  if flag.2 = ascii "BLUE" then raiseBlue flags flag.1 nowMs else rescindBlue flags flag.1

theorem no_slot_of_slotOf_eq_none (h : slotOf flags number = none) (i : Fin kMaxDrivers)
    (seenMs : UInt32) : slotsOf flags i ≠ some (number, seenMs) := by
  intro hslot
  obtain ⟨-, hentry⟩ := slotsOf_eq_some_iff.mp hslot
  exact slotOf_eq_none h i (by rw [hentry])

theorem raiseBlue_represents (h : Represents (slotsOf flags) map) (hnumber : number ≠ 0)
    (nowMs : UInt32) :
    Represents (slotsOf (raiseBlue flags number nowMs)) (write kMaxDrivers map number nowMs) := by
  have hentry : entryOf ⟨number, nowMs⟩ = some (number, nowMs) := if_neg hnumber
  unfold raiseBlue
  cases hslot : slotOf flags number with
  | some i =>
      have hnumberAt := slotOf_eq_some hslot
      have hold : slotsOf flags i = some (number, (flags i).lastSeenMs) :=
        slotsOf_eq_some_iff.mpr ⟨hnumber, by rw [← hnumberAt]⟩
      simp only [hnumberAt, slotsOf_update, hentry]
      exact h.write_slot hold kMaxDrivers nowMs
  | none =>
      have hnone := no_slot_of_slotOf_eq_none hslot
      cases hfree : slotOf flags 0 with
      | some i =>
          have hempty := slotsOf_eq_none_iff.mpr (slotOf_eq_some hfree)
          simp only [slotsOf_update, hentry]
          have hwrite := h.write_empty hnone hempty nowMs
          rw [Nat.card_fin] at hwrite
          exact hwrite
      | none =>
          have hfull : ∀ i, slotsOf flags i ≠ none := by
            intro i hi
            exact slotOf_eq_none hfree i (slotsOf_eq_none_iff.mp hi)
          have hwrite := h.write_full hnone hfull nowMs
          rw [Nat.card_fin] at hwrite
          exact hwrite

theorem rescindBlue_represents (h : Represents (slotsOf flags) map) (hnumber : number ≠ 0) :
    Represents (slotsOf (rescindBlue flags number)) (Function.update map number none) := by
  unfold rescindBlue
  cases hslot : slotOf flags number with
  | some i =>
      have hold : slotsOf flags i = some (number, (flags i).lastSeenMs) :=
        slotsOf_eq_some_iff.mpr ⟨hnumber, by rw [← slotOf_eq_some hslot]⟩
      have hempty : entryOf { flags i with racingNumber := 0 } = none := if_pos rfl
      simp only [slotsOf_update, hempty]
      exact h.clear hold
  | none =>
      have hvalue := (h.eq_none_iff number).mpr (no_slot_of_slotOf_eq_none hslot)
      have hsame : Function.update map number none = map := by
        rw [← hvalue, Function.update_eq_self]
      rw [hsame]
      exact h

/-- Number 0 marks an empty slot, and is written to empty slots only. -/
theorem slotsOf_change_zero (nowMs : UInt32) (flags : BlueFlags) (flag : Bytes) :
    slotsOf (change nowMs flags (0, flag)) = slotsOf flags := by
  have hkeeps : ∀ (i : Fin kMaxDrivers) (entry : BlueFlagEntry), (flags i).racingNumber = 0 →
      entry.racingNumber = 0 → slotsOf (Function.update flags i entry) = slotsOf flags := by
    intro i entry hi hentry
    have hnone : entryOf entry = none := if_pos hentry
    rw [slotsOf_update, hnone, ← slotsOf_eq_none_iff.mpr hi, Function.update_eq_self]
  unfold change
  split
  · unfold raiseBlue
    cases hslot : slotOf flags 0 with
    | none => rfl
    | some i => exact hkeeps i _ (slotOf_eq_some hslot) (slotOf_eq_some hslot)
  · unfold rescindBlue
    cases hslot : slotOf flags 0 with
    | none => rfl
    | some i => exact hkeeps i _ (slotOf_eq_some hslot) rfl

/-- One message. -/
theorem change_represents (h : Represents (slotsOf flags) map) {flag : FlagMessage}
    (hnumber : flag.1 ≠ 0) (nowMs : UInt32) :
    Represents (slotsOf (change nowMs flags flag)) (heard nowMs map flag) := by
  unfold change heard
  split
  · exact raiseBlue_represents h hnumber nowMs
  · exact rescindBlue_represents h hnumber

/-- A list of messages. -/
theorem changes_represent (h : Represents (slotsOf flags) map) (nowMs : UInt32)
    (list : List FlagMessage) :
    Represents (slotsOf (list.foldl (change nowMs) flags))
      ((list.filter fun flag => flag.1 ≠ 0).foldl (heard nowMs) map) := by
  induction list generalizing flags map with
  | nil => exact h
  | cons flag rest ih =>
      rw [List.foldl_cons]
      by_cases hnumber : flag.1 = 0
      · rw [List.filter_cons_of_neg (by simp [hnumber])]
        refine ih ?_
        obtain ⟨number, text⟩ := flag
        subst hnumber
        rw [slotsOf_change_zero]
        exact h
      · rw [List.filter_cons_of_pos (by simp [hnumber]), List.foldl_cons]
        exact ih (change_represents h hnumber nowMs)

/-- What the message loop leaves of the table. -/
theorem blueFlags_foldl (last : Int) (nowMs : UInt32) (list : List Message) (start : Messages) :
    (list.foldl (scanMessage last nowMs) start).blueFlags =
      (flagsAbove last list).foldl (change nowMs) start.blueFlags := by
  induction list generalizing start with
  | nil => rfl
  | cons message rest ih =>
      rw [List.foldl_cons, ih]
      unfold scanMessage flagsAbove
      by_cases hskip : message.1 ≤ last
      · rw [if_pos hskip, List.filter_cons_of_neg (by simpa using hskip)]
        split <;> rfl
      · rw [if_neg hskip, List.filter_cons_of_pos (by simpa using hskip)]
        cases hflag : driverFlag message.2 with
        | none => simp only [List.filterMap_cons, hflag]
        | some flag => simp only [List.filterMap_cons, hflag, List.foldl_cons, change]

end Messages

/-! ## The last loop -/

theorem entryOf_aged (nowMs : UInt32) (entry : BlueFlagEntry) :
    entryOf (aged nowMs entry) =
      (entryOf entry).filter fun found => nowMs - found.2 < kBlueFlagTimeoutMs := by
  by_cases hunused : entry.racingNumber = 0
  · have hnone : entryOf entry = none := if_pos hunused
    rw [aged_unused hunused, hnone]
    rfl
  · have hsome : entryOf entry = some (entry.racingNumber, entry.lastSeenMs) := if_neg hunused
    rw [hsome, aged]
    by_cases hold : nowMs - entry.lastSeenMs ≥ kBlueFlagTimeoutMs
    · rw [if_pos hold, Option.filter_some_neg (by simpa using hold)]
      rfl
    · rw [if_neg hold, hsome, Option.filter_some_pos (by simpa using hold)]

/-- The table and what is shown after a list of messages: the flags that remain, no driver
twice, and of the TLAs of their drivers one that is not empty, if there is one. -/
structure Remains (map : LastSeen) (state next : SessionState) : Prop where
  unique : NoDriverTwice next.blueFlags
  table : lastSeen next.blueFlags = map
  shown_iff : next.blueFlagTla ≠ [] ↔
    ∃ number tla, map number ≠ none ∧ state.tlaOf number = some tla ∧ tla ≠ []
  shown : next.blueFlagTla ≠ [] →
    ∃ number, map number ≠ none ∧ state.tlaOf number = some next.blueFlagTla

/-- The last loop drops the flags that timed out. -/
theorem ageAndShow_remains {start : SessionState} {map : LastSeen}
    (h : Represents (slotsOf start.blueFlags) map) (hclear : start.blueFlagTla = [])
    (nowMs : UInt32) :
    Remains (inTime nowMs map) start
      ((List.finRange kMaxDrivers).foldl (ageAndShow nowMs) start) := by
  have haged := agedTo_foldl hclear nowMs
  generalize (List.finRange kMaxDrivers).foldl (ageAndShow nowMs) start = next at haged
  have hflags : ∀ i, next.blueFlags i = aged nowMs (start.blueFlags i) := by
    intro i
    rw [haged.blueFlags, if_pos (List.mem_finRange i)]
  have htable : Represents (slotsOf next.blueFlags) (inTime nowMs map) := by
    have hfilter := h.filter fun seenMs => nowMs - seenMs < kBlueFlagTimeoutMs
    have hslots : slotsOf next.blueFlags = fun i => (slotsOf start.blueFlags i).filter
        fun found => nowMs - found.2 < kBlueFlagTimeoutMs := by
      funext i
      rw [slotsOf, hflags, entryOf_aged, slotsOf]
    rw [hslots]
    exact hfilter
  -- a driver remains exactly if a slot with its number does
  have hremains : ∀ i, (aged nowMs (start.blueFlags i)).racingNumber ≠ 0 →
      inTime nowMs map (start.blueFlags i).racingNumber ≠ none := by
    intro i hused
    have hsame := (aged_of_used hused).1
    rw [hsame] at hused
    have hslot : slotsOf next.blueFlags i =
        some ((start.blueFlags i).racingNumber, (start.blueFlags i).lastSeenMs) := by
      rw [slotsOf_eq_some_iff, hflags, hsame]
      exact ⟨hused, rfl⟩
    rw [htable.value hslot]
    exact Option.some_ne_none _
  have hslotOf : ∀ number, inTime nowMs map number ≠ none → ∃ i,
      (aged nowMs (start.blueFlags i)).racingNumber ≠ 0 ∧
        (start.blueFlags i).racingNumber = number := by
    intro number hne
    obtain ⟨seenMs, hvalue⟩ := Option.ne_none_iff_exists'.mp hne
    obtain ⟨i, hslot⟩ := (htable.value_iff number seenMs).mp hvalue
    obtain ⟨hnumber, hentry⟩ := slotsOf_eq_some_iff.mp hslot
    rw [hflags] at hentry
    have hused : (aged nowMs (start.blueFlags i)).racingNumber ≠ 0 := by
      rw [hentry]
      exact hnumber
    refine ⟨i, hused, ?_⟩
    rw [← (aged_of_used hused).1, hentry]
  refine ⟨noDriverTwice_of_represents htable, lastSeen_of_represents htable, ?_, ?_⟩
  · constructor
    · intro hne
      obtain ⟨i, -, hused, htla⟩ := haged.shown hne
      exact ⟨_, _, hremains i hused, htla, hne⟩
    · rintro ⟨number, tla, hmap, htla, hne⟩ hnil
      obtain ⟨i, hused, rfl⟩ := hslotOf number hmap
      exact hne (haged.empty hnil i (List.mem_finRange i) hused tla htla)
  · intro hne
    obtain ⟨i, -, hused, htla⟩ := haged.shown hne
    exact ⟨_, hremains i hused, htla⟩

theorem Remains.of_drivers {map : LastSeen} {start state next : SessionState}
    (h : Remains map start next) (hdrivers : start.drivers = state.drivers) :
    Remains map state next := by
  have htla : start.tlaOf = state.tlaOf := by
    funext number
    rw [SessionState.tlaOf, SessionState.tlaForRacingNumber, hdrivers, SessionState.tlaOf,
      SessionState.tlaForRacingNumber]
  obtain ⟨hunique, htable, hshownIff, hshown⟩ := h
  rw [htla] at hshownIff hshown
  exact ⟨hunique, htable, hshownIff, hshown⟩

theorem represents_empty : Represents (slotsOf fun _ => ⟨0, 0⟩) (fun _ => none) := by
  constructor
  · intro i j number seenMs other hi _
    cases hi
  · intro number seenMs
    refine iff_of_false (Option.some_ne_none _).symm ?_
    rintro ⟨i, hi⟩
    cases hi

/-- What a list of messages does to a table, and what is shown of it. -/
theorem actOnMessages_remains (messages : List Message) (nowMs : UInt32) {state : SessionState}
    (h : NoDriverTwice state.blueFlags) :
    Remains (inTime nowMs (heardAll state.lastMessageIndex nowMs messages
        (lastSeen state.blueFlags))) state (actOnMessages messages nowMs state) := by
  have hlower := sawLowerIndex_foldl state.lastMessageIndex nowMs messages
    ⟨state.lastMessageIndex, false, state.blueFlags⟩
  have hflags := blueFlags_foldl state.lastMessageIndex nowMs messages
    ⟨state.lastMessageIndex, false, state.blueFlags⟩
  unfold actOnMessages heardAll
  generalize messages.foldl (scanMessage state.lastMessageIndex nowMs)
    ⟨state.lastMessageIndex, false, state.blueFlags⟩ = scanned at hlower hflags ⊢
  simp only [hlower, hflags, Bool.false_or]
  by_cases hbelow : (messages.any fun message => message.1 < state.lastMessageIndex) = true
  · rw [if_pos hbelow, if_pos hbelow]
    exact (ageAndShow_remains represents_empty rfl nowMs).of_drivers rfl
  · rw [if_neg hbelow, if_neg hbelow]
    exact (ageAndShow_remains (changes_represent h.represents nowMs _) rfl nowMs).of_drivers rfl

end MatrixFaces.Net.Mv
