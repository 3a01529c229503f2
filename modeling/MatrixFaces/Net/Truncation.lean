import Mathlib.Data.List.DropRight
import MatrixFaces.Net.ObjectScan

set_option autoImplicit false

/-!
# Bodies cut off by a full buffer

`parse` takes nothing from an object whose closing brace it does not see.  `extent` is
how many bytes of a body it has to see, and `reading_take` what it makes of fewer.

The main result is `cut_agrees_iff`, for every body, cut and state: the flag behind the cut
body is the flag behind the whole one exactly if the cut is behind the closing brace, or the
state showed that flag before (`ShowsFlag`); and so for the laps (`ShowsLaps`).  Fields that
come first in the body are no safer than the others.

`first_fields_lost` is a body that is cut behind both topics.
-/

namespace MatrixFaces.Net.Mv

open MatrixFaces.Foundation

/-! ## What `parse` goes by -/

/-- The session in a body, if `parse` finds one or finds that there is none. -/
inductive Reading where
  | noSession
  | session (scope : Bytes)
  deriving DecidableEq, Repr

/-- The reading of the value behind the key. -/
def readingOf (value : Bytes) : Option Reading :=
  if ascii "null" <+: value then some .noSession
  else (findObjectEnd value).map fun length => .session (value.take length)

def reading (body : Bytes) : Option Reading := (findValue body stateKey).bind readingOf

/-- How many bytes of the value show its reading: those of `null`, or those of the object
up to its closing brace. -/
def extentOf (value : Bytes) : Nat :=
  if ascii "null" <+: value then 4
  else
    match findObjectEnd value with
    | none => 0
    | some length => length + 1

/-- How many bytes of a body show its reading; none are needed where there is none. -/
def extent (body : Bytes) : Nat :=
  match findValue body stateKey with
  | none => 0
  | some value =>
      if (readingOf value).isSome then body.length - value.length + extentOf value else 0

/-- The state after a reading. -/
def take (reading : Option Reading) (nowMs : UInt32) (state : SessionState) : SessionState :=
  match reading with
  | none => state
  | some .noSession => state.reset
  | some (.session scope) => parseTopics scope nowMs state

/-! ## The search for a field -/

theorem findValue_eq_some {scope key value : Bytes} (h : findValue scope key = some value) :
    ∃ before found, scope = before ++ found ∧ strstr key scope = some found ∧
      value = (found.drop key.length).dropWhile isBlank ∧ value ≠ [] := by
  rw [findValue] at h
  split at h
  · cases h
  · rename_i found hfound
    obtain ⟨before, hbefore⟩ := (strstr_eq_some hfound).1
    simp only at h
    split at h
    · cases h
    · rename_i hvalue
      cases h
      exact ⟨before, found, hbefore.symm, hfound, rfl, hvalue⟩

theorem findValue_of_strstr {scope key found : Bytes} (h : strstr key scope = some found)
    (hvalue : (found.drop key.length).dropWhile isBlank ≠ []) :
    findValue scope key = some ((found.drop key.length).dropWhile isBlank) := by
  rw [findValue, h]
  simp only
  rw [if_neg hvalue]

/-- The value is not blank, and the search skips no more when it is asked to. -/
theorem findValue_dropWhile {scope key value : Bytes} (h : findValue scope key = some value) :
    value.dropWhile isBlank = value := by
  obtain ⟨_, _, _, _, rfl, _⟩ := findValue_eq_some h
  exact List.dropWhile_idempotent _ _

theorem dropWhile_append_of_ne_nil {text : Bytes} (more : Bytes)
    (h : text.dropWhile isBlank ≠ []) :
    (text ++ more).dropWhile isBlank = text.dropWhile isBlank ++ more := by
  rw [List.dropWhile_append]
  rw [if_neg (by simpa using h)]

theorem findValue_append {scope key value : Bytes} (more : Bytes)
    (h : findValue scope key = some value) :
    findValue (scope ++ more) key = some (value ++ more) := by
  obtain ⟨before, found, rfl, hfound, rfl, hvalue⟩ := findValue_eq_some h
  have hkey := (strstr_eq_some hfound).2.length_le
  have hdrop : ((found ++ more).drop key.length).dropWhile isBlank =
      (found.drop key.length).dropWhile isBlank ++ more := by
    rw [List.drop_append_of_le_length hkey]
    exact dropWhile_append_of_ne_nil more hvalue
  rw [findValue_of_strstr (strstr_append more hfound), hdrop]
  rw [hdrop]
  exact List.append_ne_nil_of_left_ne_nil hvalue more

/-- A scope cut off behind the first byte of the value still shows the value. -/
theorem findValue_take {before key value : Bytes} {n : Nat}
    (h : findValue (before ++ value) key = some value) (hn : before.length < n) :
    findValue ((before ++ value).take n) key = some (value.take (n - before.length)) := by
  obtain ⟨front, found, hscope, hfound, hvalue, hne⟩ := findValue_eq_some h
  have hkey := (strstr_eq_some hfound).2.length_le
  have hblanks : found.drop key.length =
      (found.drop key.length).takeWhile isBlank ++ value := by
    rw [hvalue, List.takeWhile_append_dropWhile]
  generalize hrun : (found.drop key.length).takeWhile isBlank = blanks at hblanks
  have hsplit : before = front ++ found.take key.length ++ blanks := by
    refine (List.append_left_inj value).mp ?_
    rw [hscope, List.append_assoc, List.append_assoc, ← hblanks, List.take_append_drop]
  have hlength : before.length = front.length + key.length + blanks.length := by
    rw [hsplit, List.length_append, List.length_append, List.length_take_of_le hkey]
  have hblank : ∀ c ∈ blanks, isBlank c = true := by
    intro c hc
    rw [← hrun] at hc
    exact List.mem_takeWhile_imp hc
  obtain ⟨c, more, rfl⟩ := List.exists_cons_of_ne_nil hne
  have hc : ¬ isBlank c = true := by
    intro hblankHead
    have hsame := findValue_dropWhile h
    rw [List.dropWhile_cons_of_pos hblankHead] at hsame
    have hshort := List.length_dropWhile_le isBlank more
    rw [hsame, List.length_cons] at hshort
    omega
  obtain ⟨m, hm⟩ : ∃ m, n - before.length = m + 1 := ⟨n - before.length - 1, by omega⟩
  have hrest : ((found.take (n - front.length)).drop key.length).dropWhile isBlank =
      (c :: more).take (n - before.length) := by
    rw [List.drop_take, hblanks, List.take_append, List.take_of_length_le (by omega),
      List.dropWhile_append_of_pos hblank,
      show n - front.length - key.length - blanks.length = n - before.length by omega, hm,
      List.take_succ_cons, List.dropWhile_cons_of_neg hc]
  rw [hscope] at hfound ⊢
  rw [findValue_of_strstr (strstr_take hfound (by omega)), hrest]
  rw [hrest, hm]
  simp

theorem exists_before_of_findValue {scope key value : Bytes}
    (h : findValue scope key = some value) : ∃ before, scope = before ++ value := by
  obtain ⟨front, found, rfl, _, rfl, _⟩ := findValue_eq_some h
  obtain ⟨skipped, hskipped⟩ :=
    (List.dropWhile_suffix isBlank (l := found.drop key.length)).trans
      (List.drop_suffix key.length found)
  exact ⟨front ++ skipped, by rw [List.append_assoc, hskipped]⟩

/-- A scope cut off in front of the value shows none. -/
theorem findValue_take_of_le {before key value : Bytes} {n : Nat}
    (h : findValue (before ++ value) key = some value) (hn : n ≤ before.length) :
    findValue ((before ++ value).take n) key = none := by
  cases hcut : findValue ((before ++ value).take n) key with
  | none => rfl
  | some shown =>
      have hwhole := findValue_append ((before ++ value).drop n) hcut
      rw [List.take_append_drop, h] at hwhole
      have hlength := congrArg List.length (Option.some.inj hwhole)
      obtain ⟨_, _, _, _, _, hne⟩ := findValue_eq_some hcut
      have hpos := List.length_pos_iff.mpr hne
      simp only [List.length_append, List.length_drop] at hlength
      omega

/-- An object right behind the first occurrence of the key is its value. -/
theorem findValue_at {front key : Bytes} (h : strstr key (front ++ key) = some key) (rest : Bytes) :
    findValue (front ++ key ++ chOpen :: rest) key = some (chOpen :: rest) := by
  have hvalue : ((key ++ chOpen :: rest).drop key.length).dropWhile isBlank = chOpen :: rest := by
    rw [List.drop_left]
    exact List.dropWhile_cons_of_neg (by decide)
  rw [findValue_of_strstr (strstr_append _ h), hvalue]
  rw [hvalue]
  simp

/-! ## A reading takes its bytes -/

theorem readingOf_take (value : Bytes) (n : Nat) :
    readingOf (value.take n) = if extentOf value ≤ n then readingOf value else none := by
  by_cases hnull : ascii "null" <+: value
  · rw [extentOf, if_pos hnull, readingOf, readingOf, if_pos hnull]
    have hfront : ascii "null" <+: value.take n ↔ 4 ≤ n := by
      rw [List.prefix_take_iff]
      exact ⟨fun h => h.2, fun h => ⟨hnull, h⟩⟩
    by_cases hn : 4 ≤ n
    · rw [if_pos (hfront.mpr hn), if_pos hn]
    · rw [if_neg (fun h => hn (hfront.mp h)), if_neg hn]
      obtain ⟨more, rfl⟩ := hnull
      have hnone : findObjectEnd (ascii "null" ++ more) = none := rfl
      rw [findObjectEnd_take, hnone]
      rfl
  · have hfront : ¬ ascii "null" <+: value.take n :=
      fun h => hnull (h.trans (List.take_prefix n value))
    rw [extentOf, if_neg hnull, readingOf, readingOf, if_neg hnull, if_neg hfront,
      findObjectEnd_take]
    cases findObjectEnd value with
    | none => simp
    | some length =>
        by_cases hn : length < n
        · simp only [Option.filter, hn, decide_true, if_true, Option.map_some,
            if_pos (Nat.succ_le_of_lt hn)]
          rw [List.take_take, Nat.min_eq_left hn.le]
        · simp only [Option.filter, hn, decide_false, Bool.false_eq_true, if_false,
            Option.map_none, if_neg (fun h => hn (Nat.lt_of_succ_le h))]

theorem extentOf_pos {value : Bytes} (h : (readingOf value).isSome) : 0 < extentOf value := by
  rw [extentOf]
  split
  · exact Nat.zero_lt_succ 3
  · rename_i hnull
    rw [readingOf, if_neg hnull, Option.isSome_map] at h
    obtain ⟨length, hlength⟩ := Option.isSome_iff_exists.mp h
    rw [hlength]
    exact Nat.zero_lt_succ length

/-- A body cut off in front of its extent has no reading, and any longer part of it has
the reading of the whole. -/
theorem reading_take (body : Bytes) (n : Nat) :
    reading (body.take n) = if extent body ≤ n then reading body else none := by
  cases hvalue : findValue body stateKey with
  | none =>
      have hcut : findValue (body.take n) stateKey = none := by
        cases hcut : findValue (body.take n) stateKey with
        | none => rfl
        | some shown =>
            have hwhole := findValue_append (body.drop n) hcut
            rw [List.take_append_drop, hvalue] at hwhole
            cases hwhole
      rw [extent, reading, reading, hvalue, hcut]
      simp
  | some value =>
      obtain ⟨before, rfl⟩ := exists_before_of_findValue hvalue
      have hstart : (before ++ value).length - value.length = before.length := by
        rw [List.length_append, Nat.add_sub_cancel]
      have hcut : reading ((before ++ value).take n) =
          if before.length < n then readingOf (value.take (n - before.length)) else none := by
        rw [reading]
        by_cases hn : before.length < n
        · rw [findValue_take hvalue hn, if_pos hn]
          rfl
        · rw [findValue_take_of_le hvalue (Nat.le_of_not_lt hn), if_neg hn]
          rfl
      have hwhole : reading (before ++ value) = readingOf value := by
        rw [reading, hvalue]
        rfl
      rw [hcut, hwhole, extent, hvalue, readingOf_take]
      simp only [hstart]
      cases hreading : readingOf value with
      | none => simp
      | some found =>
          have hpos : 0 < extentOf value := extentOf_pos (by rw [hreading]; rfl)
          simp only [Option.isSome_some, if_true]
          by_cases hn : before.length + extentOf value ≤ n
          · rw [if_pos (by omega), if_pos (by omega), if_pos hn]
          · rw [if_neg hn]
            split
            · rw [if_neg (by omega)]
            · rfl

theorem findObjectEnd_of_head {value : Bytes} (h : value.head? ≠ some chOpen) :
    findObjectEnd value = none := by
  cases value with
  | nil => rfl
  | cons c rest => exact if_neg fun hc => h (congrArg some hc)

/-- `parse` goes by the reading. -/
theorem parse_state (buf : Bytes) (nowMs : UInt32) (state : SessionState) (counters : Counters) :
    (parse buf nowMs state counters).state = take (reading buf) nowMs state := by
  unfold parse reading
  cases hvalue : findValue buf stateKey with
  | none => rfl
  | some value =>
      simp only [findValue_dropWhile hvalue, Option.bind_some, readingOf]
      by_cases hnull : ascii "null" <+: value
      · rw [if_pos hnull, if_pos hnull]
        rfl
      · rw [if_neg hnull, if_neg hnull]
        by_cases hopen : value.head? = some chOpen
        · rw [if_neg (not_not.mpr hopen)]
          cases findObjectEnd value <;> rfl
        · rw [if_pos hopen, findObjectEnd_of_head hopen]
          rfl

theorem parse_result_kOk_iff (buf : Bytes) (nowMs : UInt32) (state : SessionState)
    (counters : Counters) :
    (parse buf nowMs state counters).result = .kOk ↔
      ∃ scope, reading buf = some (.session scope) := by
  unfold parse reading
  cases hvalue : findValue buf stateKey with
  | none => simp
  | some value =>
      simp only [findValue_dropWhile hvalue, Option.bind_some, readingOf]
      by_cases hnull : ascii "null" <+: value
      · simp [hnull]
      · by_cases hopen : value.head? = some chOpen
        · rw [if_neg hnull, if_neg hnull, if_neg (not_not.mpr hopen)]
          cases findObjectEnd value <;> simp
        · rw [if_neg hnull, if_neg hnull, if_pos hopen, findObjectEnd_of_head hopen]
          simp

/-! ## The fields in front -/

/-- The lap count's fields. -/
def SessionState.laps (state : SessionState) : Bool × UInt32 × UInt32 :=
  (state.hasLapCount, state.currentLap, state.totalLaps)

/-- The flag a session's `TrackStatus` names. -/
def trackStatusOf (scope : Bytes) : Flag :=
  match findObject scope (ascii "\"TrackStatus\":") with
  | none => .kUnknown
  | some object =>
      match extractString (findValue object (ascii "\"Message\":")) 24 with
      | none => .kUnknown
      | some message => flagOf (cstring message)

/-- The laps a session's `LapCount` gives, if it gives any. -/
def lapCountOf (scope : Bytes) : Option (Option Int × Option Int) :=
  match findObject scope (ascii "\"LapCount\":") with
  | none => none
  | some object =>
      let current := extractLong (findValue object (ascii "\"CurrentLap\":"))
      let total := extractLong (findValue object (ascii "\"TotalLaps\":"))
      if current = none ∧ total = none then none else some (current, total)

theorem parseTrackStatus_eq (scope : Bytes) (state : SessionState) :
    parseTrackStatus scope state = { state with trackFlag := trackStatusOf scope } := by
  unfold parseTrackStatus trackStatusOf
  cases findObject scope (ascii "\"TrackStatus\":") with
  | none => rfl
  | some object =>
      simp only
      cases extractString (findValue object (ascii "\"Message\":")) 24 <;> rfl

theorem parseLapCount_eq (scope : Bytes) (state : SessionState) :
    parseLapCount scope state =
      match lapCountOf scope with
      | none => { state with hasLapCount := false }
      | some (current, total) =>
          { state with
            currentLap := (current.map UInt32.ofInt).getD state.currentLap
            totalLaps := (total.map UInt32.ofInt).getD state.totalLaps
            hasLapCount := true } := by
  unfold parseLapCount lapCountOf
  cases findObject scope (ascii "\"LapCount\":") with
  | none => rfl
  | some object =>
      simp only
      split <;> rfl

/-- The flag and the laps are left alone by the topics behind them. -/
structure SameFront (state next : SessionState) : Prop where
  trackFlag : next.trackFlag = state.trackFlag
  laps : next.laps = state.laps

theorem sameFront_driverList (scope : Bytes) (state : SessionState) :
    SameFront state (parseDriverList scope state) := by
  unfold parseDriverList
  split
  · exact ⟨rfl, rfl⟩
  · exact ⟨rfl, rfl⟩

theorem sameFront_ageAndShow (nowMs : UInt32) (state : SessionState) (i : Fin kMaxDrivers) :
    SameFront state (ageAndShow nowMs state i) := by
  unfold ageAndShow
  repeat' split
  all_goals exact ⟨rfl, rfl⟩

theorem sameFront_foldl (nowMs : UInt32) (slots : List (Fin kMaxDrivers)) (state : SessionState) :
    SameFront state (slots.foldl (ageAndShow nowMs) state) := by
  induction slots generalizing state with
  | nil => exact ⟨rfl, rfl⟩
  | cons i rest ih =>
      obtain ⟨hflag, hlaps⟩ := sameFront_ageAndShow nowMs state i
      obtain ⟨hflagRest, hlapsRest⟩ := ih (ageAndShow nowMs state i)
      exact ⟨hflagRest.trans hflag, hlapsRest.trans hlaps⟩

theorem sameFront_actOnMessages (messages : List (Int × Bytes)) (nowMs : UInt32)
    (state : SessionState) : SameFront state (actOnMessages messages nowMs state) := by
  unfold actOnMessages
  simp only
  split
  · obtain ⟨hflag, hlaps⟩ := sameFront_foldl nowMs (List.finRange kMaxDrivers) _
    exact ⟨hflag, hlaps⟩
  · obtain ⟨hflag, hlaps⟩ := sameFront_foldl nowMs (List.finRange kMaxDrivers) _
    exact ⟨hflag, hlaps⟩

theorem sameFront_topics (scope : Bytes) (nowMs : UInt32) (state : SessionState) :
    SameFront (parseLapCount scope (parseTrackStatus scope state))
      (parseTopics scope nowMs state) := by
  obtain ⟨hflag, hlaps⟩ :=
    sameFront_driverList scope (parseLapCount scope (parseTrackStatus scope state))
  rw [parseTopics, parseRaceControlMessages]
  split
  · exact ⟨hflag, hlaps⟩
  · obtain ⟨hflagLast, hlapsLast⟩ := sameFront_actOnMessages _ nowMs
      (parseDriverList scope (parseLapCount scope (parseTrackStatus scope state)))
    exact ⟨hflagLast.trans hflag, hlapsLast.trans hlaps⟩

/-! ## What survives -/

/-- The state shows the flag that the reading names. -/
def ShowsFlag (state : SessionState) : Option Reading → Prop
  | none => True
  | some .noSession => state.trackFlag = .kUnknown
  | some (.session scope) => state.trackFlag = trackStatusOf scope

/-- The state shows the laps that the reading gives. -/
def ShowsLaps (state : SessionState) : Option Reading → Prop
  | none => True
  | some .noSession => state.laps = (false, 0, 0)
  | some (.session scope) =>
      match lapCountOf scope with
      | none => state.hasLapCount = false
      | some (current, total) =>
          state.hasLapCount = true ∧ (∀ lap ∈ current, state.currentLap = UInt32.ofInt lap) ∧
            ∀ laps ∈ total, state.totalLaps = UInt32.ofInt laps

theorem take_trackFlag_iff (state : SessionState) (nowMs : UInt32) (read : Option Reading) :
    state.trackFlag = (take read nowMs state).trackFlag ↔ ShowsFlag state read := by
  cases read with
  | none => exact iff_of_true rfl trivial
  | some read =>
      cases read with
      | noSession => exact Iff.rfl
      | session scope =>
          rw [take, (sameFront_topics scope nowMs state).trackFlag, parseLapCount_eq,
            parseTrackStatus_eq]
          split <;> exact Iff.rfl

theorem take_laps_iff (state : SessionState) (nowMs : UInt32) (read : Option Reading) :
    state.laps = (take read nowMs state).laps ↔ ShowsLaps state read := by
  cases read with
  | none => exact iff_of_true rfl trivial
  | some read =>
      cases read with
      | noSession => exact Iff.rfl
      | session scope =>
          rw [take, (sameFront_topics scope nowMs state).laps, parseLapCount_eq,
            parseTrackStatus_eq, ShowsLaps]
          split
          · simp [SessionState.laps]
          · rename_i current total _
            cases current <;> cases total <;> simp [SessionState.laps]

/-- A cut body leaves the flag, and the laps, as the whole body does exactly when the cut
is behind the closing brace or they were shown before. -/
theorem cut_agrees_iff (body : Bytes) (n : Nat) (nowMs : UInt32) (state : SessionState)
    (counters : Counters) :
    ((parse (body.take n) nowMs state counters).state.trackFlag =
        (parse body nowMs state counters).state.trackFlag ↔
      extent body ≤ n ∨ ShowsFlag state (reading body)) ∧
    ((parse (body.take n) nowMs state counters).state.laps =
        (parse body nowMs state counters).state.laps ↔
      extent body ≤ n ∨ ShowsLaps state (reading body)) := by
  rw [parse_state, parse_state, reading_take]
  by_cases hn : extent body ≤ n
  · rw [if_pos hn]
    exact ⟨iff_of_true rfl (Or.inl hn), iff_of_true rfl (Or.inl hn)⟩
  · rw [if_neg hn, or_iff_right hn, or_iff_right hn]
    exact ⟨take_trackFlag_iff state nowMs (reading body), take_laps_iff state nowMs (reading body)⟩

/-- With the first two topics read whole, and the third cut off, neither is shown. -/
theorem first_fields_lost :
    let fits := ascii ("\x7b\"data\":\x7b\"f1LiveTimingState\":\x7b" ++
      "\"TrackStatus\":\x7b\"Status\":\"5\",\"Message\":\"Red\"\x7d," ++
      "\"LapCount\":\x7b\"CurrentLap\":12,\"TotalLaps\":57\x7d,")
    let rest := ascii "\"DriverList\":\x7b\x7d\x7d\x7d\x7d"
    let cut := (parse fits 0 .initial ⟨0, 0, 0, 0⟩).state
    let whole := (parse (fits ++ rest) 0 .initial ⟨0, 0, 0, 0⟩).state
    (cut.trackFlag, cut.laps) = (.kUnknown, false, 0, 0) ∧
      (whole.trackFlag, whole.laps) = (.kRed, true, 12, 57) := by
  decide +kernel

/-! ## Where a response ends -/

/-- When the key's value is a JSON object, its own closing brace is the last byte needed. -/
theorem extent_of_object {before object after : Bytes} (hobject : IsObject object)
    (hfound : findValue (before ++ (object ++ after)) stateKey = some (object ++ after)) :
    extent (before ++ (object ++ after)) = (before ++ object).length := by
  have hend := findObjectEnd_object hobject after
  obtain ⟨inner, rfl, _⟩ := hobject
  have hnull : ¬ ascii "null" <+: chOpen :: inner ++ [chClose] ++ after := by
    intro hnull
    obtain ⟨rest, hrest⟩ := hnull
    cases hrest
  rw [extent, hfound]
  simp only [readingOf, extentOf, if_neg hnull, hend, Option.map_some, Option.isSome_some, if_true]
  simp only [List.length_append, List.length_cons, List.length_nil]
  omega

/-- What a response starts with. -/
def responseHead : Bytes := ascii "\x7b\"data\":\x7b" ++ stateKey

theorem findValue_response {object : Bytes} (hobject : IsObject object) (after : Bytes) :
    findValue (responseHead ++ (object ++ after)) stateKey = some (object ++ after) := by
  obtain ⟨inner, rfl, _⟩ := hobject
  exact findValue_at (by decide +kernel) _

/-- A response has to be seen up to the brace that closes its session. -/
theorem extent_of_response {object : Bytes} (hobject : IsObject object) (after : Bytes) :
    extent (responseHead ++ (object ++ after)) = (responseHead ++ object).length :=
  extent_of_object hobject (findValue_response hobject after)

end MatrixFaces.Net.Mv
