import MatrixFaces.Net.RaceControl

set_option autoImplicit false

/-!
# The age of the blue flag that is shown

The messages of a session and when each was first seen are kept beside the parser's state.
The table of blue flags agrees with them as long as no message is read twice; what is shown
comes from the table, except where a response leaves the messages out.

`logAll` is that log over a list of responses, and `ShownInTime` says of the flag that is
shown that it was seen less than `kBlueFlagTimeoutMs` ago and not rescinded since.

The main result is `blue_flag_in_time`, over every list of responses at times that do not
decrease.  `Timely` is the condition on one response in the state it meets: one without
messages comes while nothing is shown or what is shown has time left, and one with messages
starts a new session or reads none of them a second time (`ReadsOnce`).

`TableInv` is the invariant between the table and the log.  `blue_flag_outlives_timeout` is a
flag that is shown for half a minute after it was last seen.
-/

namespace MatrixFaces.Net.Mv

open MatrixFaces.Foundation

/-! ## What was seen -/

/-- A message, and the time of the call that first read it. -/
structure Sighting where
  message : Message
  seenMs : UInt32
  deriving DecidableEq

/-- The sightings with one more message of a response. -/
def sight (nowMs : UInt32) (log : List Sighting) (message : Message) : List Sighting :=
  if message ∈ log.map Sighting.message then log else log ++ [⟨message, nowMs⟩]

/-- The sightings of the session after a response. -/
def logAfter (log : List Sighting) (response : Bytes × UInt32) : List Sighting :=
  match reading response.1 with
  | none => log
  | some .noSession => []
  | some (.session scope) => ((messagesOf scope).getD []).foldl (sight response.2) log

/-- The sightings after a sequence of calls. -/
def logAll (responses : List (Bytes × UInt32)) : List Sighting := responses.foldl logAfter []

/-- A message that takes a driver's blue flag back. -/
def Rescinds (number : UInt16) (message : Message) : Prop :=
  ∃ flag, driverFlag message.2 = some (number, flag) ∧ flag ≠ ascii "BLUE"

/-- A BLUE message for a driver was first seen at a time, and none seen later rescinds it. -/
def BlueSince (log : List Sighting) (number : UInt16) (seenMs : UInt32) : Prop :=
  ∃ before message after, log = before ++ ⟨message, seenMs⟩ :: after ∧
    driverFlag message.2 = some (number, ascii "BLUE") ∧
    ∀ later ∈ after, ¬ Rescinds number later.message

/-- The flag that is shown, if any, is a driver's whose BLUE message has not timed out and was
not rescinded, going by the log of what was seen and when. -/
def ShownInTime (nowMs : UInt32) (state : SessionState) (log : List Sighting) : Prop :=
  state.blueFlagTla ≠ [] → ∃ number seenMs, BlueSince log number seenMs ∧ seenMs ≤ nowMs ∧
    nowMs.toNat - seenMs.toNat < kBlueFlagTimeoutMs.toNat ∧
    (state.tlaForRacingNumber number).map copyTla = some state.blueFlagTla

/-! ## Calls that keep the table right -/

/-- No message above the last index that raises a blue flag was read before, and none at the
last index that rescinds one was not. -/
def ReadsOnce (last : Int) (nowMs : UInt32) : List Sighting → List Message → Prop
  | _, [] => True
  | log, message :: rest =>
      (last < message.1 → message ∈ log.map Sighting.message →
        ∀ number, driverFlag message.2 ≠ some (number, ascii "BLUE")) ∧
      (message.1 = last → message ∉ log.map Sighting.message →
        ∀ number, ¬ Rescinds number message) ∧
      ReadsOnce last nowMs (sight nowMs log message) rest

/-- The flag that is shown is one of the table's that has time left, and its driver is on
the list the response leaves. -/
def StillUp (nowMs : UInt32) (scope : Bytes) (state : SessionState) : Prop :=
  ∃ i, (state.blueFlags i).racingNumber ≠ 0 ∧
    nowMs - (state.blueFlags i).lastSeenMs < kBlueFlagTimeoutMs ∧
    ((parseDriverList scope state).tlaForRacingNumber (state.blueFlags i).racingNumber).map
      copyTla = some state.blueFlagTla

/-- A call that does not carry on with a flag it should have dropped: a session without
messages comes while what is shown has time left, and one with messages reads them once,
unless one below the last index clears the table. -/
def Timely (state : SessionState) (log : List Sighting) (response : Bytes × UInt32) : Prop :=
  ∀ scope, reading response.1 = some (.session scope) →
    match messagesOf scope with
    | none => state.blueFlagTla = [] ∨ StillUp response.2 scope state
    | some messages => (∃ message ∈ messages, message.1 < state.lastMessageIndex) ∨
        ReadsOnce state.lastMessageIndex response.2 log messages

/-- Every call of a sequence is timely in the state it finds. -/
def AllTimely : SessionState → List Sighting → List (Bytes × UInt32) → Prop
  | _, _, [] => True
  | state, log, response :: rest => Timely state log response ∧
      AllTimely (take (reading response.1) response.2 state) (logAfter log response) rest

/-! ## The table -/

/-- Every entry in use stands for a BLUE message seen at its time, one entry a driver. -/
structure TableInv (flags : BlueFlags) (log : List Sighting) (nowMs : UInt32) : Prop where
  since : ∀ i, (flags i).racingNumber ≠ 0 →
    BlueSince log (flags i).racingNumber (flags i).lastSeenMs ∧ (flags i).lastSeenMs ≤ nowMs
  unique : ∀ i j, (flags i).racingNumber ≠ 0 →
    (flags i).racingNumber = (flags j).racingNumber → i = j

theorem BlueSince.append {log : List Sighting} {number : UInt16} {seenMs : UInt32}
    (h : BlueSince log number seenMs) {sighting : Sighting}
    (hkeeps : ¬ Rescinds number sighting.message) :
    BlueSince (log ++ [sighting]) number seenMs := by
  obtain ⟨before, message, after, rfl, hblue, hafter⟩ := h
  refine ⟨before, message, after ++ [sighting], by simp, hblue, fun later hlater => ?_⟩
  rcases List.mem_append.mp hlater with hlater | hlater
  · exact hafter later hlater
  · rw [List.mem_singleton.mp hlater]
    exact hkeeps

theorem BlueSince.sight {log : List Sighting} {number : UInt16} {seenMs : UInt32}
    (h : BlueSince log number seenMs) (nowMs : UInt32) {message : Message}
    (hkeeps : message ∉ log.map Sighting.message → ¬ Rescinds number message) :
    BlueSince (sight nowMs log message) number seenMs := by
  rw [Mv.sight]
  split
  · exact h
  · exact h.append (hkeeps ‹_›)

theorem slotOf_eq_some {flags : BlueFlags} {number : UInt16} {i : Fin kMaxDrivers}
    (h : slotOf flags number = some i) : (flags i).racingNumber = number := by
  simpa using List.find?_some h

theorem slotOf_eq_none {flags : BlueFlags} {number : UInt16} (h : slotOf flags number = none)
    (i : Fin kMaxDrivers) : (flags i).racingNumber ≠ number := by
  simpa using List.find?_eq_none.mp h i (List.mem_finRange i)

/-- A BLUE message writes one entry at most: the driver's own, or else one of no driver's. -/
theorem raiseBlue_cases (flags : BlueFlags) (number : UInt16) (nowMs : UInt32) :
    raiseBlue flags number nowMs = flags ∨
      ∃ i, raiseBlue flags number nowMs = Function.update flags i ⟨number, nowMs⟩ ∧
        ((flags i).racingNumber = number ∨ ∀ j, (flags j).racingNumber ≠ number) := by
  rw [raiseBlue]
  cases hslot : slotOf flags number with
  | some i =>
      have hnumber := slotOf_eq_some hslot
      exact Or.inr ⟨i, by rw [← hnumber], Or.inl hnumber⟩
  | none =>
      cases hfree : slotOf flags 0 with
      | some i => exact Or.inr ⟨i, rfl, Or.inr (slotOf_eq_none hslot)⟩
      | none => exact Or.inl rfl

/-- A rescinding message empties the driver's entry, if there is one. -/
theorem rescindBlue_cases (flags : BlueFlags) (number : UInt16) :
    (rescindBlue flags number = flags ∧ ∀ j, (flags j).racingNumber ≠ number) ∨
      ∃ i, rescindBlue flags number =
        Function.update flags i { flags i with racingNumber := 0 } ∧
          (flags i).racingNumber = number := by
  rw [rescindBlue]
  cases hslot : slotOf flags number with
  | some i => exact Or.inr ⟨i, rfl, slotOf_eq_some hslot⟩
  | none => exact Or.inl ⟨rfl, slotOf_eq_none hslot⟩

namespace TableInv

variable {flags : BlueFlags} {log : List Sighting} {nowMs : UInt32}

theorem empty (log : List Sighting) (nowMs : UInt32) : TableInv (fun _ => ⟨0, 0⟩) log nowMs :=
  ⟨fun _ h => absurd rfl h, fun _ _ h => absurd rfl h⟩

theorem later (h : TableInv flags log nowMs) {laterMs : UInt32} (hle : nowMs ≤ laterMs) :
    TableInv flags log laterMs :=
  ⟨fun i hi => ⟨(h.since i hi).1, UInt32.le_trans (h.since i hi).2 hle⟩, h.unique⟩

/-- Entries may be emptied. -/
theorem of_emptied (h : TableInv flags log nowMs) {next : BlueFlags}
    (hnext : ∀ i, next i = flags i ∨ (next i).racingNumber = 0) : TableInv next log nowMs := by
  have hsame : ∀ i, (next i).racingNumber ≠ 0 → next i = flags i := fun i hi =>
    (hnext i).resolve_right hi
  refine ⟨fun i hi => ?_, fun i j hi hij => ?_⟩
  · have hused := hsame i hi
    rw [hused] at hi ⊢
    exact h.since i hi
  · have hj : (next j).racingNumber ≠ 0 := hij ▸ hi
    have hiSame := hsame i hi
    rw [hiSame] at hi hij
    rw [hsame j hj] at hij
    exact h.unique i j hi hij

/-- A message that rescinds no flag of the table. -/
theorem sight (h : TableInv flags log nowMs) (seenMs : UInt32) {message : Message}
    (hkeeps : message ∉ log.map Sighting.message →
      ∀ i, (flags i).racingNumber ≠ 0 → ¬ Rescinds (flags i).racingNumber message) :
    TableInv flags (sight seenMs log message) nowMs :=
  ⟨fun i hi => ⟨(h.since i hi).1.sight seenMs fun hnew => hkeeps hnew i hi, (h.since i hi).2⟩,
    h.unique⟩

theorem raise (h : TableInv flags log nowMs) {message : Message} {number : UInt16}
    (hflag : driverFlag message.2 = some (number, ascii "BLUE"))
    (hnew : message ∉ log.map Sighting.message) :
    TableInv (raiseBlue flags number nowMs) (Mv.sight nowMs log message) nowMs := by
  have hkeeps : ∀ other, ¬ Rescinds other message := by
    rintro other ⟨flag, hother, hne⟩
    rw [hflag] at hother
    exact hne (Prod.mk.inj (Option.some.inj hother)).2.symm
  have hold := h.sight nowMs fun _ i _ => hkeeps _
  rcases raiseBlue_cases flags number nowMs with hsame | ⟨i, hupdate, hfree⟩
  · rw [hsame]
    exact hold
  · rw [hupdate]
    have hown : ∀ j, j ≠ i → (flags j).racingNumber ≠ 0 → (flags j).racingNumber ≠ number := by
      intro j hj hused heq
      rcases hfree with hi | hnone
      · exact hj (h.unique j i hused (heq.trans hi.symm))
      · exact hnone j heq
    refine ⟨fun j hj => ?_, fun j k hj hjk => ?_⟩
    · by_cases hji : j = i
      · subst hji
        rw [Function.update_self, Mv.sight, if_neg hnew]
        exact ⟨⟨log, message, [], rfl, hflag, by simp⟩, UInt32.le_refl _⟩
      · rw [Function.update_of_ne hji] at hj ⊢
        exact hold.since j hj
    · by_cases hji : j = i <;> by_cases hki : k = i
      · rw [hji, hki]
      · subst hji
        rw [Function.update_self, Function.update_of_ne hki] at hjk
        rw [Function.update_self] at hj
        exact absurd hjk.symm (hown k hki (hjk ▸ hj))
      · subst hki
        rw [Function.update_self, Function.update_of_ne hji] at hjk
        rw [Function.update_of_ne hji] at hj
        exact absurd hjk (hown j hji hj)
      · rw [Function.update_of_ne hji] at hj hjk
        rw [Function.update_of_ne hki] at hjk
        exact h.unique j k hj hjk

theorem rescind (h : TableInv flags log nowMs) (seenMs : UInt32) {message : Message}
    {number : UInt16} {flag : Bytes} (hflag : driverFlag message.2 = some (number, flag)) :
    TableInv (rescindBlue flags number) (Mv.sight seenMs log message) nowMs := by
  have hnumber : ∀ other, Rescinds other message → other = number := by
    rintro other ⟨_, hother, _⟩
    rw [hflag] at hother
    exact (Prod.mk.inj (Option.some.inj hother)).1.symm
  rcases rescindBlue_cases flags number with ⟨hsame, hnone⟩ | ⟨i, hupdate, hi⟩
  · rw [hsame]
    exact h.sight seenMs fun _ j _ hrescinds => hnone j (hnumber _ hrescinds)
  · have hemptied : TableInv (rescindBlue flags number) log nowMs := by
      refine h.of_emptied fun j => ?_
      rw [hupdate]
      by_cases hji : j = i
      · subst hji
        right
        rw [Function.update_self]
      · exact Or.inl (Function.update_of_ne hji ..)
    refine hemptied.sight seenMs fun _ j hj hrescinds => ?_
    have hjnumber := hnumber _ hrescinds
    rw [hupdate] at hj hjnumber
    by_cases hji : j = i
    · subst hji
      rw [Function.update_self] at hj
      exact hj rfl
    · rw [Function.update_of_ne hji] at hj hjnumber
      exact hji (h.unique j i hj (hjnumber.trans hi.symm))

/-- One message that is not below the last index. -/
theorem scanMessage {last : Int} {messages : Messages} (h : TableInv messages.blueFlags log nowMs)
    {message : Message} (hlast : last ≤ message.1)
    (hraise : last < message.1 → message ∈ log.map Sighting.message →
      ∀ number, driverFlag message.2 ≠ some (number, ascii "BLUE"))
    (hrescind : message.1 = last → message ∉ log.map Sighting.message →
      ∀ number, ¬ Rescinds number message) :
    TableInv (Mv.scanMessage last nowMs messages message).blueFlags
      (Mv.sight nowMs log message) nowMs := by
  rw [Mv.scanMessage]
  by_cases hskip : message.1 ≤ last
  · rw [if_pos hskip, if_neg (not_lt.mpr hlast)]
    exact h.sight nowMs fun hnew i _ => hrescind (le_antisymm hskip hlast) hnew _
  · rw [if_neg hskip]
    cases hflag : driverFlag message.2 with
    | none =>
        refine h.sight nowMs fun _ i _ hrescinds => ?_
        obtain ⟨_, hother, _⟩ := hrescinds
        rw [hflag] at hother
        cases hother
    | some found =>
        obtain ⟨number, flag⟩ := found
        by_cases hblue : flag = ascii "BLUE"
        · subst hblue
          simp only [if_true]
          exact h.raise hflag fun hseen => hraise (not_le.mp hskip) hseen number hflag
        · simp only [if_neg hblue]
          exact h.rescind nowMs hflag

/-- The message loop, when it meets no message below the last index. -/
theorem scanMessages {last : Int} {list : List Message} (hlast : ∀ message ∈ list, last ≤ message.1)
    {messages : Messages} (h : TableInv messages.blueFlags log nowMs)
    (honce : ReadsOnce last nowMs log list) :
    TableInv (list.foldl (Mv.scanMessage last nowMs) messages).blueFlags
      (list.foldl (Mv.sight nowMs) log) nowMs := by
  induction list generalizing messages log with
  | nil => exact h
  | cons message rest ih =>
      obtain ⟨hmessage, hrest⟩ := List.forall_mem_cons.mp hlast
      obtain ⟨hraise, hrescind, honceRest⟩ := honce
      exact ih hrest (h.scanMessage hmessage hraise hrescind) honceRest

end TableInv

/-! ## What is shown -/

/-- The last loop empties entries, and shows one that has time left. -/
structure AgedFrom (start : SessionState) (nowMs : UInt32) (state : SessionState) : Prop where
  emptied : ∀ i, state.blueFlags i = start.blueFlags i ∨ (state.blueFlags i).racingNumber = 0
  drivers : state.drivers = start.drivers
  shown : state.blueFlagTla ≠ [] → ∃ i, (start.blueFlags i).racingNumber ≠ 0 ∧
    nowMs - (start.blueFlags i).lastSeenMs < kBlueFlagTimeoutMs ∧
    (start.tlaForRacingNumber (start.blueFlags i).racingNumber).map copyTla =
      some state.blueFlagTla

/-- An entry as the last loop leaves it. -/
def aged (nowMs : UInt32) (entry : BlueFlagEntry) : BlueFlagEntry :=
  if nowMs - entry.lastSeenMs ≥ kBlueFlagTimeoutMs then { entry with racingNumber := 0 } else entry

/-- What is shown for a driver on the list. -/
def SessionState.tlaOf (state : SessionState) (number : UInt16) : Option Bytes :=
  (state.tlaForRacingNumber number).map copyTla

theorem aged_unused {nowMs : UInt32} {entry : BlueFlagEntry} (h : entry.racingNumber = 0) :
    aged nowMs entry = entry := by
  unfold aged
  split
  · rw [← h]
  · rfl

theorem aged_of_used {nowMs : UInt32} {entry : BlueFlagEntry}
    (h : (aged nowMs entry).racingNumber ≠ 0) :
    aged nowMs entry = entry ∧ nowMs - entry.lastSeenMs < kBlueFlagTimeoutMs := by
  unfold aged at h ⊢
  split at h
  · exact absurd rfl h
  · rename_i hold
    rw [if_neg hold]
    exact ⟨rfl, UInt32.not_le.mp hold⟩

/-- The last loop behind the slots it has been at. -/
structure AgedTo (start : SessionState) (nowMs : UInt32) (slots : List (Fin kMaxDrivers))
    (state : SessionState) : Prop where
  drivers : state.drivers = start.drivers
  blueFlags : ∀ i, state.blueFlags i =
    if i ∈ slots then aged nowMs (start.blueFlags i) else start.blueFlags i
  empty : state.blueFlagTla = [] → ∀ i ∈ slots,
    (aged nowMs (start.blueFlags i)).racingNumber ≠ 0 →
      ∀ tla ∈ start.tlaOf (start.blueFlags i).racingNumber, tla = []
  shown : state.blueFlagTla ≠ [] → ∃ i ∈ slots,
    (aged nowMs (start.blueFlags i)).racingNumber ≠ 0 ∧
      start.tlaOf (start.blueFlags i).racingNumber = some state.blueFlagTla

namespace AgedTo

variable {start state : SessionState} {nowMs : UInt32} {slots : List (Fin kMaxDrivers)}

/-- The table is as it was, but for one more slot. -/
theorem blueFlags_concat (h : AgedTo start nowMs slots state) {i : Fin kMaxDrivers}
    {next : BlueFlags} (hnext : next i = aged nowMs (start.blueFlags i))
    (hothers : ∀ j, j ≠ i → next j = state.blueFlags j) (j : Fin kMaxDrivers) :
    next j = if j ∈ slots ++ [i] then aged nowMs (start.blueFlags j) else start.blueFlags j := by
  by_cases hji : j = i
  · subst hji
    rw [hnext, if_pos (by simp)]
  · rw [hothers j hji, h.blueFlags]
    simp [hji]

/-- Where the slot has nothing to show, or something is shown already. -/
theorem quiet (h : AgedTo start nowMs slots state) {i : Fin kMaxDrivers} {next : SessionState}
    (hdrivers : next.drivers = state.drivers) (htla : next.blueFlagTla = state.blueFlagTla)
    (hnext : next.blueFlags i = aged nowMs (start.blueFlags i))
    (hothers : ∀ j, j ≠ i → next.blueFlags j = state.blueFlags j)
    (hnone : state.blueFlagTla = [] → (aged nowMs (start.blueFlags i)).racingNumber ≠ 0 →
      ∀ tla ∈ start.tlaOf (start.blueFlags i).racingNumber, tla = []) :
    AgedTo start nowMs (slots ++ [i]) next where
  drivers := hdrivers.trans h.drivers
  blueFlags := h.blueFlags_concat hnext hothers
  empty hempty j hj := by
    rw [htla] at hempty
    rcases List.mem_append.mp hj with hj | hj
    · exact h.empty hempty j hj
    · rw [List.mem_singleton.mp hj]
      exact hnone hempty
  shown hne := by
    rw [htla] at hne ⊢
    obtain ⟨j, hj, hup⟩ := h.shown hne
    exact ⟨j, List.mem_append_left _ hj, hup⟩

/-- Where it is the first one that is shown. -/
theorem show_first (h : AgedTo start nowMs slots state) {i : Fin kMaxDrivers} {tla : Bytes}
    (hfree : state.blueFlagTla = []) (hnext : state.blueFlags i = aged nowMs (start.blueFlags i))
    (hused : (aged nowMs (start.blueFlags i)).racingNumber ≠ 0)
    (hfound : start.tlaOf (start.blueFlags i).racingNumber = some tla) :
    AgedTo start nowMs (slots ++ [i]) { state with blueFlagTla := tla } where
  drivers := h.drivers
  blueFlags := h.blueFlags_concat hnext fun _ _ => rfl
  empty hempty j hj hup text htext := by
    rcases List.mem_append.mp hj with hj | hj
    · exact h.empty hfree j hj hup text htext
    · rw [List.mem_singleton.mp hj, hfound] at htext
      cases htext
      exact hempty
  shown _ := ⟨i, by simp, hused, hfound⟩

/-- One more slot. -/
theorem step (h : AgedTo start nowMs slots state) {i : Fin kMaxDrivers} (hi : i ∉ slots) :
    AgedTo start nowMs (slots ++ [i]) (ageAndShow nowMs state i) := by
  have hentry : state.blueFlags i = start.blueFlags i := by rw [h.blueFlags, if_neg hi]
  have htla : ∀ number, state.tlaForRacingNumber number = start.tlaForRacingNumber number := by
    intro number
    rw [SessionState.tlaForRacingNumber, h.drivers, SessionState.tlaForRacingNumber]
  unfold ageAndShow
  rw [hentry]
  by_cases hunused : (start.blueFlags i).racingNumber = 0
  · rw [if_pos hunused]
    have haged := @aged_unused nowMs _ hunused
    refine h.quiet rfl rfl (hentry.trans haged.symm) (fun _ _ => rfl) fun _ hused => ?_
    rw [haged] at hused
    exact absurd hunused hused
  · rw [if_neg hunused]
    by_cases hold : nowMs - (start.blueFlags i).lastSeenMs ≥ kBlueFlagTimeoutMs
    · rw [if_pos hold]
      have haged : aged nowMs (start.blueFlags i) =
          { start.blueFlags i with racingNumber := 0 } := if_pos hold
      refine h.quiet rfl rfl ((Function.update_self ..).trans haged.symm)
        (fun j hj => Function.update_of_ne hj ..) fun _ hused => ?_
      rw [haged] at hused
      exact absurd rfl hused
    · rw [if_neg hold]
      have haged : aged nowMs (start.blueFlags i) = start.blueFlags i := if_neg hold
      by_cases hfree : state.blueFlagTla = []
      · rw [if_pos hfree, htla]
        cases hfound : start.tlaForRacingNumber (start.blueFlags i).racingNumber with
        | none =>
            refine h.quiet rfl rfl (hentry.trans haged.symm) (fun _ _ => rfl) fun _ _ tla hmem => ?_
            rw [SessionState.tlaOf, hfound] at hmem
            cases hmem
        | some tla =>
            refine h.show_first hfree (hentry.trans haged.symm) (by rwa [haged]) ?_
            rw [SessionState.tlaOf, hfound, Option.map_some]
      · rw [if_neg hfree]
        exact h.quiet rfl rfl (hentry.trans haged.symm) (fun _ _ => rfl)
          fun hnil => absurd hnil hfree

/-- The slots that are left. -/
theorem foldl {rest : List (Fin kMaxDrivers)} (h : AgedTo start nowMs slots state)
    (hnodup : (slots ++ rest).Nodup) :
    AgedTo start nowMs (slots ++ rest) (rest.foldl (ageAndShow nowMs) state) := by
  induction rest generalizing slots state with
  | nil =>
      rw [List.append_nil]
      exact h
  | cons i rest ih =>
      have hi : i ∉ slots := fun hmem =>
        (List.nodup_append.mp hnodup).2.2 i hmem i List.mem_cons_self rfl
      have hsplit : slots ++ i :: rest = (slots ++ [i]) ++ rest := by simp
      rw [List.foldl_cons, hsplit]
      exact ih (h.step hi) (hsplit ▸ hnodup)

end AgedTo

theorem agedTo_foldl {start : SessionState} (hclear : start.blueFlagTla = []) (nowMs : UInt32) :
    AgedTo start nowMs (List.finRange kMaxDrivers)
      ((List.finRange kMaxDrivers).foldl (ageAndShow nowMs) start) := by
  have hstart : AgedTo start nowMs [] start :=
    ⟨rfl, (fun _ => (if_neg List.not_mem_nil).symm), (fun _ _ hmem => by cases hmem),
      fun hshown => absurd hclear hshown⟩
  have hnodup : ([] ++ List.finRange kMaxDrivers).Nodup := List.nodup_finRange _
  have haged := hstart.foldl hnodup
  rw [List.nil_append] at haged
  exact haged

theorem agedFrom_foldl {start : SessionState} (hclear : start.blueFlagTla = []) (nowMs : UInt32) :
    AgedFrom start nowMs ((List.finRange kMaxDrivers).foldl (ageAndShow nowMs) start) := by
  have haged := agedTo_foldl hclear nowMs
  refine ⟨fun i => ?_, haged.drivers, fun hshown => ?_⟩
  · rw [haged.blueFlags, if_pos (List.mem_finRange i)]
    unfold aged
    split
    · exact Or.inr rfl
    · exact Or.inl rfl
  · obtain ⟨i, -, hused, htla⟩ := haged.shown hshown
    obtain ⟨hsame, htime⟩ := aged_of_used hused
    exact ⟨i, hsame ▸ hused, htime, htla⟩

theorem in_time_of_lt {nowMs seenMs : UInt32} (hle : seenMs ≤ nowMs)
    (h : nowMs - seenMs < kBlueFlagTimeoutMs) :
    nowMs.toNat - seenMs.toNat < kBlueFlagTimeoutMs.toNat := by
  rw [← UInt32.toNat_sub_of_le _ _ hle]
  exact UInt32.lt_iff_toNat_lt.mp h

/-- An entry of the table with time left answers for what is shown. -/
theorem TableInv.shownInTime {flags : BlueFlags} {log : List Sighting} {nowMs : UInt32}
    (h : TableInv flags log nowMs) {state : SessionState} {i : Fin kMaxDrivers}
    (hused : (flags i).racingNumber ≠ 0) (htime : nowMs - (flags i).lastSeenMs < kBlueFlagTimeoutMs)
    (htla : (state.tlaForRacingNumber (flags i).racingNumber).map copyTla =
      some state.blueFlagTla) : ShownInTime nowMs state log := by
  obtain ⟨hsince, hle⟩ := h.since i hused
  exact fun _ => ⟨_, _, hsince, hle, in_time_of_lt hle htime, htla⟩

/-- The messages of a response, read in a state whose table is right. -/
theorem actOnMessages_inTime {log : List Sighting} {nowMs : UInt32} {state : SessionState}
    (h : TableInv state.blueFlags log nowMs) {messages : List Message}
    (htimely : (∃ message ∈ messages, message.1 < state.lastMessageIndex) ∨
      ReadsOnce state.lastMessageIndex nowMs log messages) :
    TableInv (actOnMessages messages nowMs state).blueFlags (messages.foldl (sight nowMs) log)
        nowMs ∧
      ShownInTime nowMs (actOnMessages messages nowMs state)
        (messages.foldl (sight nowMs) log) := by
  unfold actOnMessages
  generalize hscan : messages.foldl (scanMessage state.lastMessageIndex nowMs)
    ⟨state.lastMessageIndex, false, state.blueFlags⟩ = scanned
  simp only
  generalize hupdated : (if scanned.sawLowerIndex then
      { state with lastMessageIndex := -1, blueFlags := fun _ => ⟨0, 0⟩ }
    else { state with lastMessageIndex := scanned.highestIndex, blueFlags := scanned.blueFlags }) =
    updated
  have htable : TableInv updated.blueFlags (messages.foldl (sight nowMs) log) nowMs := by
    rw [← hupdated]
    split
    · exact TableInv.empty _ _
    · rename_i hlower
      have hge : ∀ message ∈ messages, state.lastMessageIndex ≤ message.1 := by
        refine fun message hmessage => not_lt.mp fun hlt => hlower ?_
        rw [← hscan]
        exact sawLowerIndex_of_mem hmessage hlt
      have honce := htimely.resolve_left fun ⟨message, hmessage, hlt⟩ =>
        absurd (hge message hmessage) (not_le.mpr hlt)
      have hscanned := @TableInv.scanMessages _ _ _ _ hge
        ⟨state.lastMessageIndex, false, state.blueFlags⟩ h honce
      rw [hscan] at hscanned
      exact hscanned
  have haged : AgedFrom { updated with blueFlagTla := [] } nowMs _ := agedFrom_foldl rfl nowMs
  refine ⟨htable.of_emptied haged.emptied, fun hshown => ?_⟩
  obtain ⟨i, hused, htime, htla⟩ := haged.shown hshown
  refine htable.shownInTime hused htime ?_ hshown
  rw [← htla, SessionState.tlaForRacingNumber, SessionState.tlaForRacingNumber, haged.drivers]

theorem parseFront_blueFlags (scope : Bytes) (state : SessionState) :
    (parseFront scope state).blueFlags = state.blueFlags ∧
      (parseFront scope state).blueFlagTla = state.blueFlagTla ∧
      (parseFront scope state).drivers = (parseDriverList scope state).drivers := by
  rw [parseFront, parseDriverList_eq, parseDriverList_eq, parseLapCount_eq, parseTrackStatus_eq]
  cases driversOf scope <;> cases lapCountOf scope <;> exact ⟨rfl, rfl, rfl⟩

/-! ## Calls and runs -/

/-- A timely call keeps the table right, and a session it reads is shown in time. -/
theorem Timely.step {state : SessionState} {log : List Sighting} {response : Bytes × UInt32}
    (h : TableInv state.blueFlags log response.2) (htimely : Timely state log response) :
    TableInv (take (reading response.1) response.2 state).blueFlags (logAfter log response)
        response.2 ∧
      ∀ scope, reading response.1 = some (.session scope) →
        ShownInTime response.2 (take (reading response.1) response.2 state)
          (logAfter log response) := by
  rw [logAfter]
  cases hreading : reading response.1 with
  | none => exact ⟨h, fun _ hnone => by cases hnone⟩
  | some found =>
      cases found with
      | noSession => exact ⟨TableInv.empty _ _, fun _ hnone => by cases hnone⟩
      | session scope =>
          have hscope := htimely scope hreading
          obtain ⟨hflags, htla, hdrivers⟩ := parseFront_blueFlags scope state
          have hlast := parseFront_lastMessageIndex scope state
          have hparse : take (some (.session scope)) response.2 state =
              parseRaceControlMessages scope response.2 (parseFront scope state) := rfl
          simp only [hparse]
          rw [parseRaceControlMessages]
          cases hmessages : messagesOf scope with
          | none =>
              rw [hmessages] at hscope
              simp only [Option.getD_none, List.foldl_nil]
              refine ⟨hflags ▸ h, fun _ _ hshown => ?_⟩
              rw [htla] at hshown
              obtain ⟨i, hused, htime, hdriver⟩ := hscope.resolve_left hshown
              refine h.shownInTime hused htime ?_ (htla ▸ hshown)
              rw [htla, ← hdriver, SessionState.tlaForRacingNumber,
                SessionState.tlaForRacingNumber, hdrivers]
          | some messages =>
              rw [hmessages] at hscope
              rw [← hlast] at hscope
              obtain ⟨htable, hshown⟩ := actOnMessages_inTime (hflags.symm ▸ h) hscope
              exact ⟨htable, fun _ _ => hshown⟩

theorem inTime_from {responses : List (Bytes × UInt32)} {state : SessionState}
    {log : List Sighting} (htimes : responses.Pairwise fun a b => a.2 ≤ b.2)
    (htable : ∀ response ∈ responses, TableInv state.blueFlags log response.2)
    (htimely : AllTimely state log responses) {earlier later : List (Bytes × UInt32)}
    {response : Bytes × UInt32} (hsplit : responses = earlier ++ response :: later)
    (counters : Counters) :
    let before := parseAll earlier (state, counters)
    (parse response.1 response.2 before.1 before.2).result = .kOk →
      ShownInTime response.2 (parse response.1 response.2 before.1 before.2).state
        (logAfter (earlier.foldl logAfter log) response) := by
  induction earlier generalizing responses state log counters with
  | nil =>
      subst hsplit
      intro before hok
      obtain ⟨scope, hscope⟩ := (parse_result_kOk_iff ..).mp hok
      have hstep := htimely.1.step (htable response (by simp))
      rw [parse_state]
      exact hstep.2 scope hscope
  | cons first rest ih =>
      subst hsplit
      rw [List.cons_append, List.pairwise_cons] at htimes
      obtain ⟨hfirst, hrest⟩ := htimes
      obtain ⟨hnow, hlater⟩ := htimely
      have hstep := (hnow.step (htable first (by simp))).1
      have hnext := ih hrest (fun other hother => hstep.later (hfirst other hother)) hlater rfl
        (parse first.1 first.2 state counters).counters
      rw [← parse_state first.1 first.2 state counters] at hnext
      exact hnext

/-- Over any calls at non-decreasing times, each of them timely, a blue flag shown after a
call that found a session has not timed out and was not rescinded.  A call is timely unless
it has no messages and what is shown is out of time, or reads a message a second time. -/
theorem blue_flag_in_time {responses : List (Bytes × UInt32)}
    (htimes : responses.Pairwise fun a b => a.2 ≤ b.2)
    (htimely : AllTimely .initial [] responses) {earlier later : List (Bytes × UInt32)}
    {response : Bytes × UInt32} (hsplit : responses = earlier ++ response :: later)
    (counters : Counters) :
    let before := parseAll earlier (.initial, counters)
    (parse response.1 response.2 before.1 before.2).result = .kOk →
      ShownInTime response.2 (parse response.1 response.2 before.1 before.2).state
        (logAll (earlier ++ [response])) := by
  have hstart : ∀ other ∈ responses, TableInv SessionState.initial.blueFlags [] other.2 :=
    fun _ _ => TableInv.empty _ _
  rw [logAll, List.foldl_append]
  exact inTime_from htimes hstart htimely hsplit counters

/-- What a poll for the cheap topics brings. -/
def cheapResponse : Bytes :=
  ascii "\x7b\"data\":\x7b\"f1LiveTimingState\":\x7b" ++
    ascii "\"TrackStatus\":\x7b\"Message\":\"AllClear\"\x7d," ++
    ascii "\"LapCount\":\x7b\"CurrentLap\":13\x7d\x7d\x7d\x7d"

/-- The session in it. -/
def cheapScope : Bytes :=
  ascii "\x7b\"TrackStatus\":\x7b\"Message\":\"AllClear\"\x7d," ++
    ascii "\"LapCount\":\x7b\"CurrentLap\":13\x7d"

/-- A blue flag is up, and half a minute later a poll without messages succeeds: it is
still shown. -/
theorem blue_flag_outlives_timeout :
    let earlier := [(midRace.response [blueMessage], 10000)]
    let response := (cheapResponse, 40000)
    let before := parseAll earlier (.initial, ⟨0, 0, 0, 0⟩)
    (parse response.1 response.2 before.1 before.2).result = .kOk ∧
      ¬ ShownInTime response.2 (parse response.1 response.2 before.1 before.2).state
        (logAll (earlier ++ [response])) := by
  intro earlier response before
  refine ⟨by decide +kernel, fun hshown => ?_⟩
  have hlog : logAll (earlier ++ [response]) = [⟨blueMessage.read, 10000⟩] := by decide +kernel
  obtain ⟨number, seenMs, ⟨front, message, after, hsplit, -⟩, -, hage, -⟩ :=
    hshown (by decide +kernel)
  rw [hlog] at hsplit
  have hseen : seenMs = 10000 := by
    have hmem : (⟨message, seenMs⟩ : Sighting) ∈ [⟨blueMessage.read, 10000⟩] := by
      rw [hsplit]
      simp
    exact congrArg Sighting.seenMs (List.mem_singleton.mp hmem)
  subst hseen
  exact absurd hage (by decide)

theorem blue_flag_in_time_cheap :
    let earlier := [(midRace.response [blueMessage], 10000)]
    let before := parseAll earlier (.initial, ⟨0, 0, 0, 0⟩)
    ShownInTime 20000 (parse cheapResponse 20000 before.1 before.2).state
      (logAll (earlier ++ [(cheapResponse, 20000)])) := by
  intro earlier before
  have htimely : AllTimely .initial [] (earlier ++ [(cheapResponse, 20000)]) := by
    refine ⟨fun scope hscope => ?_, fun scope hscope => ?_, trivial⟩
    · have hread := (midRace.reading_response [blueMessage]).symm.trans hscope
      cases hread
      rw [midRace.messagesOf_response]
      exact Or.inr ⟨(fun _ hseen => by cases hseen), (fun hlast => absurd hlast (by decide)),
        trivial⟩
    · have hread : reading cheapResponse = some (.session cheapScope) := by decide +kernel
      rw [hread] at hscope
      cases hscope
      have hnone : messagesOf cheapScope = none := by decide +kernel
      rw [hnone]
      exact Or.inr ⟨0, by decide +kernel⟩
  exact blue_flag_in_time (by simp [earlier]) htimely rfl ⟨0, 0, 0, 0⟩ (by decide +kernel)

end MatrixFaces.Net.Mv
