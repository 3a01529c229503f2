import MatrixFaces.Net.MultiViewerClient
import MatrixFaces.Net.BlueFlagAge

set_option autoImplicit false

/-!
# What a change of host leaves on screen

A run is seen as its calls, each poll with the body that it handed to `parse`.  Two
runs that differ in front of a change of host are compared behind it: what they show may
differ only by what the old host's responses left behind.

`ShownAlike` says that two clients show the same whenever they are connected, and `Replaced`
that a body leaves out nothing in which the two sessions still differ.  One with no session
always does; one with a session has the laps (`LapsReplaced`), and messages that both take
for new or for a new session's, with its drivers (`BlueReplaced`).

The main result is `new_host_shown`, for any two lists of calls with the same questions in
front of the change and the same answers behind it, if every body behind it is `Replaced`.
`old_flag_stays_up` is a pair of runs in which the first body of the new host says nothing
of the flag.
-/

namespace MatrixFaces.Net.Mv

open MatrixFaces.Foundation

/-! ## Calls -/

/-- The same call, whatever the response. -/
def Call.asked : Call → Call
  | .setHost host => .setHost host
  | .poll nowMs _ => .poll nowMs none

namespace MultiViewerClient

/-- What a call does to the client, apart from its socket. -/
def call (client : MultiViewerClient) : Call → MultiViewerClient
  | .setHost host =>
      if host = client.host then client
      else { client with host := host, connected := false, everPolled := false }
  | .poll nowMs response =>
      if client.asks nowMs then (client.begun nowMs).finished nowMs response else client

def calls (client : MultiViewerClient) (list : List Call) : MultiViewerClient :=
  list.foldl call client

@[simp] theorem calls_nil (client : MultiViewerClient) : client.calls [] = client := rfl

theorem calls_append (client : MultiViewerClient) (front rest : List Call) :
    client.calls (front ++ rest) = (client.calls front).calls rest := List.foldl_append

theorem calls_concat (client : MultiViewerClient) (front : List Call) (last : Call) :
    client.calls (front ++ [last]) = (client.calls front).call last :=
  client.calls_append front [last]

/-- The clients differ in their sockets only. -/
def SameButSocket (client other : MultiViewerClient) : Prop :=
  other = { client with socket := other.socket }

variable {σ : Type} {transport : Transport σ} {client other : MultiViewerClient}

theorem SameButSocket.refl (client : MultiViewerClient) : client.SameButSocket client := rfl

theorem SameButSocket.call (h : client.SameButSocket other) (next : Call) :
    (client.call next).SameButSocket (other.call next) := by
  obtain ⟨socket, hother⟩ : ∃ socket, other = { client with socket := socket } := ⟨_, h⟩
  subst hother
  cases next with
  | setHost host =>
      by_cases hhost : host = client.host
      · simp only [MultiViewerClient.call, if_pos hhost, SameButSocket]
      · simp only [MultiViewerClient.call, if_neg hhost, SameButSocket]
  | poll nowMs response =>
      by_cases hasks : client.asks nowMs
      · have hother : ({ client with socket := socket } : MultiViewerClient).asks nowMs := hasks
        simp only [MultiViewerClient.call, if_pos hasks, if_pos hother, SameButSocket]
        cases response <;> rfl
      · have hother : ¬ ({ client with socket := socket } : MultiViewerClient).asks nowMs := hasks
        simp only [MultiViewerClient.call, if_neg hasks, if_neg hother, SameButSocket]

theorem SameButSocket.trans {third : MultiViewerClient} (h : client.SameButSocket other)
    (hnext : other.SameButSocket third) : client.SameButSocket third := by
  rw [SameButSocket] at h hnext ⊢
  rw [hnext, h]

/-- `setHost` does what the call says. -/
theorem setHost_call (transport : Transport σ) (host : IPAddress)
    (system : MultiViewerClient × σ) :
    (system.1.call (.setHost host)).SameButSocket (setHost transport host system).1 := by
  rw [setHost, call]
  by_cases hhost : host = system.1.host
  · rw [if_pos hhost, if_pos hhost]
    exact .refl _
  · rw [if_neg hhost, if_neg hhost]
    dsimp only
    split <;> rfl

/-- `poll` does what the call says, with the body that it handed to `parse`. -/
theorem poll_call {fuel : Nat} {nowMs : UInt32} {system next : MultiViewerClient × σ}
    {response : Option Bytes}
    (h : poll transport fuel nowMs system = some (response, next)) :
    (system.1.call (.poll nowMs response)).SameButSocket next.1 := by
  rw [poll] at h
  rw [call]
  by_cases hasks : system.1.asks nowMs
  · rw [if_pos hasks] at h ⊢
    dsimp only at h
    split at h
    · cases h
    · cases h
      cases response <;> rfl
  · rw [if_neg hasks] at h ⊢
    cases h
    exact .refl _

theorem SameButSocket.calls (h : client.SameButSocket other) (list : List Call) :
    (client.calls list).SameButSocket (other.calls list) := by
  induction list generalizing client other with
  | nil => exact h
  | cons next list ih => exact ih (h.call next)

/-- Every run is one of its calls. -/
theorem Runs.calls {elapses : σ → σ → Prop} {system final : MultiViewerClient × σ}
    {list : List Call} (h : Runs transport elapses system list final) :
    (system.1.calls list).SameButSocket final.1 := by
  induction h with
  | nil system => exact .refl _
  | elapse _ rest ih => exact ih
  | setHost rest ih => exact ((setHost_call transport _ _).calls _).trans ih
  | poll step rest ih => exact ((poll_call step).calls _).trans ih

end MultiViewerClient

/-! ## Two clients in step -/

/-- The clients were told the same, whatever came of it: they have one buffer size, one
configuration and one host. -/
structure SameHost (client other : MultiViewerClient) : Prop where
  bufferCap : other.bufferCap = client.bufferCap
  config : other.config = client.config
  host : other.host = client.host

/-- The clients would poll at the same times, so that the same calls find them polling or
waiting together. -/
structure InStep (client other : MultiViewerClient) : Prop extends SameHost client other where
  everPolled : other.everPolled = client.everPolled
  connected : other.connected = client.connected
  lastPollMs : client.everPolled = true → other.lastPollMs = client.lastPollMs

variable {client other : MultiViewerClient}

theorem call_setHost (client : MultiViewerClient) {host : IPAddress} (h : host ≠ client.host) :
    client.call (.setHost host) =
      { client with host := host, connected := false, everPolled := false } := if_neg h

theorem call_poll {nowMs : UInt32} (response : Option Bytes) (h : client.asks nowMs) :
    client.call (.poll nowMs response) = (client.begun nowMs).finished nowMs response := if_pos h

theorem call_poll_of_not {nowMs : UInt32} (response : Option Bytes) (h : ¬ client.asks nowMs) :
    client.call (.poll nowMs response) = client := if_neg h

/-- A poll leaves what the client was told. -/
theorem SameHost.of_poll (client : MultiViewerClient) (nowMs : UInt32) (response : Option Bytes) :
    SameHost client (client.call (.poll nowMs response)) := by
  rw [MultiViewerClient.call]
  split
  · cases response <;> exact ⟨rfl, rfl, rfl⟩
  · exact ⟨rfl, rfl, rfl⟩

theorem SameHost.call (h : SameHost client other) {next next' : Call}
    (hasked : next.asked = next'.asked) : SameHost (client.call next) (other.call next') := by
  cases next with
  | setHost host =>
      cases next' with
      | poll _ _ => cases hasked
      | setHost host' =>
          cases hasked
          by_cases hhost : host = client.host
          · rw [MultiViewerClient.call, MultiViewerClient.call, h.host, if_pos hhost, if_pos hhost]
            exact h
          · rw [call_setHost client hhost, call_setHost other (h.host ▸ hhost)]
            exact ⟨h.bufferCap, h.config, rfl⟩
  | poll nowMs response =>
      cases next' with
      | setHost _ => cases hasked
      | poll nowMs' response' =>
          have hclient := SameHost.of_poll client nowMs response
          have hother := SameHost.of_poll other nowMs' response'
          exact ⟨by rw [hother.bufferCap, h.bufferCap, hclient.bufferCap],
            by rw [hother.config, h.config, hclient.config],
            by rw [hother.host, h.host, hclient.host]⟩

theorem SameHost.calls (h : SameHost client other) {list list' : List Call}
    (hasked : list.map Call.asked = list'.map Call.asked) :
    SameHost (client.calls list) (other.calls list') := by
  induction list generalizing list' client other with
  | nil =>
      cases list' with
      | nil => exact h
      | cons _ _ => cases hasked
  | cons next list ih =>
      cases list' with
      | nil => cases hasked
      | cons next' list' =>
          obtain ⟨hnext, hrest⟩ := List.cons.inj hasked
          exact ih (h.call hnext) hrest

/-- A change of host puts them in step. -/
theorem SameHost.inStep (h : SameHost client other) {host : IPAddress}
    (hhost : host ≠ client.host) :
    InStep (client.call (.setHost host)) (other.call (.setHost host)) := by
  rw [call_setHost client hhost, call_setHost other (h.host ▸ hhost)]
  exact ⟨⟨h.bufferCap, h.config, rfl⟩, rfl, rfl, fun hpolled => by cases hpolled⟩

theorem InStep.asks (h : InStep client other) (nowMs : UInt32) :
    other.asks nowMs ↔ client.asks nowMs := by
  have hdue : (other.plan nowMs).due = true ↔ (client.plan nowMs).due = true := by
    rw [MultiViewerClient.plan, MultiViewerClient.plan, planPoll_due, planPoll_due]
    simp only [MultiViewerClient.pollState, h.config, h.everPolled, h.connected]
    cases hpolled : client.everPolled with
    | false => simp only [Bool.false_eq_true, false_and]
    | true => rw [h.lastPollMs hpolled]
  rw [MultiViewerClient.asks, MultiViewerClient.asks, h.host, h.bufferCap, hdue]

theorem InStep.call (h : InStep client other) (next : Call) :
    InStep (client.call next) (other.call next) := by
  cases next with
  | setHost host =>
      by_cases hhost : host = client.host
      · rw [MultiViewerClient.call, MultiViewerClient.call, h.host, if_pos hhost, if_pos hhost]
        exact h
      · exact h.toSameHost.inStep hhost
  | poll nowMs response =>
      by_cases hasks : client.asks nowMs
      · rw [call_poll response hasks, call_poll response ((h.asks nowMs).mpr hasks)]
        cases response <;> exact ⟨⟨h.bufferCap, h.config, h.host⟩, rfl, rfl, fun _ => rfl⟩
      · rw [call_poll_of_not response hasks,
          call_poll_of_not response fun hother => hasks ((h.asks nowMs).mp hother)]
        exact h

theorem InStep.calls (h : InStep client other) (list : List Call) :
    InStep (client.calls list) (other.calls list) := by
  induction list generalizing client other with
  | nil => exact h
  | cons next list ih => exact ih (h.call next)

/-! ## What the screen shows -/

/-- The sessions look alike. -/
structure ShowSame (state other : SessionState) : Prop where
  trackFlag : other.trackFlag = state.trackFlag
  hasLapCount : other.hasLapCount = state.hasLapCount
  laps : state.hasLapCount = true →
    other.currentLap = state.currentLap ∧ other.totalLaps = state.totalLaps
  blueFlagTla : other.blueFlagTla = state.blueFlagTla

theorem ShowSame.refl (state : SessionState) : ShowSame state state :=
  ⟨rfl, rfl, fun _ => ⟨rfl, rfl⟩, rfl⟩

/-- The tables hold the same flags. -/
def TablesAlike (flags other : BlueFlags) : Prop :=
  ∀ i, (other i).racingNumber = (flags i).racingNumber ∧
    ((flags i).racingNumber ≠ 0 → (other i).lastSeenMs = (flags i).lastSeenMs)

/-- Both last indices put the message on the same side. -/
def MarkedAlike (last otherLast : Int) (message : Message) : Prop :=
  (message.1 ≤ otherLast ↔ message.1 ≤ last) ∧ (message.1 < otherLast ↔ message.1 < last)

/-- Where a session gives only one of the laps, the other one is the same already. -/
def LapsReplaced (scope : Bytes) (state other : SessionState) : Prop :=
  ∀ current total, lapCountOf scope = some (current, total) →
    (current = none → other.currentLap = state.currentLap) ∧
      (total = none → other.totalLaps = state.totalLaps)

/-- Without messages the blue flag is the same already.  With messages, both clients take
the same ones for new, and they make both forget, or the tables are alike and the drivers
are listed or the same already. -/
def BlueReplaced (scope : Bytes) (state other : SessionState) : Prop :=
  match messagesOf scope with
  | none => other.blueFlagTla = state.blueFlagTla
  | some messages =>
      (∀ message ∈ messages, MarkedAlike state.lastMessageIndex other.lastMessageIndex message) ∧
        ((∃ message ∈ messages, message.1 < state.lastMessageIndex) ∨
          TablesAlike state.blueFlags other.blueFlags ∧
            (driversOf scope = none → other.drivers = state.drivers))

/-- What a body does not say is no different in the two sessions it comes to.  A body with no
session leaves the same behind in both, and one that is not understood leaves both alone. -/
def Replaced (body : Bytes) (state other : SessionState) : Prop :=
  match reading body with
  | none => ShowSame state other
  | some .noSession => True
  | some (.session scope) => LapsReplaced scope state other ∧ BlueReplaced scope state other

/-! ## The messages -/

namespace TablesAlike

variable {flags other : BlueFlags}

theorem slotOf (h : TablesAlike flags other) (number : UInt16) :
    slotOf other number = slotOf flags number := by
  rw [Mv.slotOf, Mv.slotOf]
  congr 1
  funext i
  rw [(h i).1]

theorem update (h : TablesAlike flags other) (i : Fin kMaxDrivers)
    {entry otherEntry : BlueFlagEntry}
    (hnumber : otherEntry.racingNumber = entry.racingNumber)
    (hseen : entry.racingNumber ≠ 0 → otherEntry.lastSeenMs = entry.lastSeenMs) :
    TablesAlike (Function.update flags i entry) (Function.update other i otherEntry) := by
  intro j
  by_cases hji : j = i
  · subst hji
    rw [Function.update_self, Function.update_self]
    exact ⟨hnumber, hseen⟩
  · rw [Function.update_of_ne hji, Function.update_of_ne hji]
    exact h j

theorem raiseBlue (h : TablesAlike flags other) (number : UInt16) (nowMs : UInt32) :
    TablesAlike (raiseBlue flags number nowMs) (raiseBlue other number nowMs) := by
  rw [Mv.raiseBlue, Mv.raiseBlue, h.slotOf, h.slotOf]
  split
  · exact h.update _ (h _).1 fun _ => rfl
  · split
    · exact h.update _ rfl fun _ => rfl
    · exact h

theorem rescindBlue (h : TablesAlike flags other) (number : UInt16) :
    TablesAlike (rescindBlue flags number) (rescindBlue other number) := by
  rw [Mv.rescindBlue, Mv.rescindBlue, h.slotOf]
  split
  · exact h.update _ rfl fun hzero => absurd rfl hzero
  · exact h

end TablesAlike

/-- Both loops over the messages are at the same point. -/
structure ScannedAlike (scanned other : Messages) : Prop where
  sawLowerIndex : other.sawLowerIndex = scanned.sawLowerIndex
  blueFlags : TablesAlike scanned.blueFlags other.blueFlags

theorem ScannedAlike.step {last otherLast : Int} {scanned other : Messages}
    (h : ScannedAlike scanned other) (nowMs : UInt32) {message : Message}
    (hmarked : MarkedAlike last otherLast message) :
    ScannedAlike (scanMessage last nowMs scanned message)
      (scanMessage otherLast nowMs other message) := by
  rw [scanMessage, scanMessage]
  by_cases hle : message.1 ≤ last
  · rw [if_pos hle, if_pos (hmarked.1.mpr hle)]
    by_cases hlt : message.1 < last
    · rw [if_pos hlt, if_pos (hmarked.2.mpr hlt)]
      exact ⟨rfl, h.blueFlags⟩
    · rw [if_neg hlt, if_neg fun hother => hlt (hmarked.2.mp hother)]
      exact h
  · rw [if_neg hle, if_neg fun hother => hle (hmarked.1.mp hother)]
    refine ⟨h.sawLowerIndex, ?_⟩
    dsimp only
    cases driverFlag message.2 with
    | none => exact h.blueFlags
    | some found =>
        dsimp only
        split
        · exact h.blueFlags.raiseBlue found.1 nowMs
        · exact h.blueFlags.rescindBlue found.1

theorem ScannedAlike.foldl {last otherLast : Int} {scanned other : Messages}
    (h : ScannedAlike scanned other) (nowMs : UInt32) {list : List Message}
    (hmarked : ∀ message ∈ list, MarkedAlike last otherLast message) :
    ScannedAlike (list.foldl (scanMessage last nowMs) scanned)
      (list.foldl (scanMessage otherLast nowMs) other) := by
  induction list generalizing scanned other with
  | nil => exact h
  | cons message list ih =>
      obtain ⟨hmessage, hlist⟩ := List.forall_mem_cons.mp hmarked
      exact ih (h.step nowMs hmessage) hlist

/-- Both loops over the table are at the same point. -/
structure AgedAlike (state other : SessionState) : Prop where
  blueFlags : TablesAlike state.blueFlags other.blueFlags
  drivers : other.drivers = state.drivers
  blueFlagTla : other.blueFlagTla = state.blueFlagTla

theorem AgedAlike.step {state other : SessionState} (h : AgedAlike state other) (nowMs : UInt32)
    (i : Fin kMaxDrivers) : AgedAlike (ageAndShow nowMs state i) (ageAndShow nowMs other i) := by
  obtain ⟨hnumber, hseen⟩ := h.blueFlags i
  rw [ageAndShow, ageAndShow, hnumber]
  by_cases hused : (state.blueFlags i).racingNumber = 0
  · rw [if_pos hused, if_pos hused]
    exact h
  · rw [if_neg hused, if_neg hused, hseen hused]
    split
    · exact ⟨h.blueFlags.update i rfl fun hzero => absurd rfl hzero, h.drivers, h.blueFlagTla⟩
    · have htla : other.tlaForRacingNumber (state.blueFlags i).racingNumber =
          state.tlaForRacingNumber (state.blueFlags i).racingNumber := by
        rw [SessionState.tlaForRacingNumber, SessionState.tlaForRacingNumber, h.drivers]
      rw [h.blueFlagTla, htla]
      split
      · split
        · exact h
        · exact ⟨h.blueFlags, h.drivers, rfl⟩
      · exact h

theorem AgedAlike.foldl {state other : SessionState} (h : AgedAlike state other) (nowMs : UInt32)
    (slots : List (Fin kMaxDrivers)) :
    AgedAlike (slots.foldl (ageAndShow nowMs) state) (slots.foldl (ageAndShow nowMs) other) := by
  induction slots generalizing state other with
  | nil => exact h
  | cons i slots ih => exact ih (h.step nowMs i)

/-- A parser that forgot shows no blue flag. -/
theorem actOnMessages_blueFlagTla_of_lower {messages : List Message} {nowMs : UInt32}
    {state : SessionState}
    (h : (messages.foldl (scanMessage state.lastMessageIndex nowMs)
      ⟨state.lastMessageIndex, false, state.blueFlags⟩).sawLowerIndex = true) :
    (actOnMessages messages nowMs state).blueFlagTla = [] := by
  rw [actOnMessages]
  simp only [h, if_true]
  refine by_contra fun hshown => ?_
  have haged : AgedFrom
      { state with lastMessageIndex := -1, blueFlags := fun _ => ⟨0, 0⟩, blueFlagTla := [] }
      nowMs _ := agedFrom_foldl rfl nowMs
  obtain ⟨i, hused, _⟩ := haged.shown hshown
  exact hused rfl

/-- The state in front of the last loop, where the parser did not forget. -/
def SessionState.scannedTo (state : SessionState) (scanned : Messages) : SessionState :=
  { state with
    lastMessageIndex := scanned.highestIndex
    blueFlags := scanned.blueFlags
    blueFlagTla := [] }

theorem actOnMessages_of_kept {messages : List Message} {nowMs : UInt32} {state : SessionState}
    (h : (messages.foldl (scanMessage state.lastMessageIndex nowMs)
      ⟨state.lastMessageIndex, false, state.blueFlags⟩).sawLowerIndex = false) :
    actOnMessages messages nowMs state =
      (List.finRange kMaxDrivers).foldl (ageAndShow nowMs) (state.scannedTo (messages.foldl
        (scanMessage state.lastMessageIndex nowMs)
        ⟨state.lastMessageIndex, false, state.blueFlags⟩)) := by
  rw [actOnMessages]
  simp only [h, Bool.false_eq_true, if_false]
  rfl

theorem actOnMessages_alike {messages : List Message} {nowMs : UInt32} {state other : SessionState}
    (hmarked : ∀ message ∈ messages,
      MarkedAlike state.lastMessageIndex other.lastMessageIndex message)
    (htables : TablesAlike state.blueFlags other.blueFlags)
    (hdrivers : other.drivers = state.drivers) :
    (actOnMessages messages nowMs other).blueFlagTla =
      (actOnMessages messages nowMs state).blueFlagTla := by
  have hstart : ScannedAlike ⟨state.lastMessageIndex, false, state.blueFlags⟩
      ⟨other.lastMessageIndex, false, other.blueFlags⟩ := ⟨rfl, htables⟩
  obtain ⟨hlowerOther, htablesAfter⟩ := hstart.foldl nowMs hmarked
  cases hlower : (messages.foldl (scanMessage state.lastMessageIndex nowMs)
      ⟨state.lastMessageIndex, false, state.blueFlags⟩).sawLowerIndex with
  | true =>
      rw [actOnMessages_blueFlagTla_of_lower hlower,
        actOnMessages_blueFlagTla_of_lower (hlowerOther.trans hlower)]
  | false =>
      rw [hlower] at hlowerOther
      rw [actOnMessages_of_kept hlower, actOnMessages_of_kept hlowerOther]
      have haged : AgedAlike (state.scannedTo (messages.foldl
            (scanMessage state.lastMessageIndex nowMs)
            ⟨state.lastMessageIndex, false, state.blueFlags⟩))
          (other.scannedTo (messages.foldl (scanMessage other.lastMessageIndex nowMs)
            ⟨other.lastMessageIndex, false, other.blueFlags⟩)) :=
        ⟨htablesAfter, hdrivers, rfl⟩
      exact (haged.foldl nowMs (List.finRange kMaxDrivers)).blueFlagTla

/-! ## A body -/

theorem parseFront_drivers (scope : Bytes) (state : SessionState) :
    (parseFront scope state).drivers =
      match driversOf scope with
      | none => state.drivers
      | some drivers => fun i => drivers.getD i ⟨0, []⟩ := by
  rw [parseFront, parseDriverList_eq, parseLapCount_eq, parseTrackStatus_eq]
  cases driversOf scope <;> cases lapCountOf scope <;> rfl

theorem BlueReplaced.topics {scope : Bytes} {state other : SessionState}
    (h : BlueReplaced scope state other) (nowMs : UInt32) :
    (parseTopics scope nowMs other).blueFlagTla = (parseTopics scope nowMs state).blueFlagTla := by
  obtain ⟨hflags, htla, _⟩ := parseFront_blueFlags scope state
  obtain ⟨hflagsOther, htlaOther, _⟩ := parseFront_blueFlags scope other
  have hlast := parseFront_lastMessageIndex scope state
  have hlastOther := parseFront_lastMessageIndex scope other
  change (parseRaceControlMessages scope nowMs (parseFront scope other)).blueFlagTla =
    (parseRaceControlMessages scope nowMs (parseFront scope state)).blueFlagTla
  rw [parseRaceControlMessages, parseRaceControlMessages]
  rw [BlueReplaced] at h
  cases hmessages : messagesOf scope with
  | none =>
      rw [hmessages] at h
      dsimp only at h ⊢
      rw [htlaOther, htla, h]
  | some messages =>
      rw [hmessages] at h
      dsimp only at h ⊢
      obtain ⟨hmarked, hlower | ⟨htables, hdrivers⟩⟩ := h
      · obtain ⟨message, hm, hlt⟩ := hlower
        have hltOther : message.1 < other.lastMessageIndex := (hmarked message hm).2.mpr hlt
        rw [actOnMessages_blueFlagTla_of_lower, actOnMessages_blueFlagTla_of_lower]
        · exact sawLowerIndex_of_mem hm (hlast.symm ▸ hlt)
        · exact sawLowerIndex_of_mem hm (hlastOther.symm ▸ hltOther)
      · refine actOnMessages_alike ?_ ?_ ?_
        · rwa [hlast, hlastOther]
        · rwa [hflags, hflagsOther]
        · rw [parseFront_drivers, parseFront_drivers]
          cases hlist : driversOf scope with
          | none => exact hdrivers hlist
          | some drivers => rfl

/-- A session's flag replaces the one before it; the laps do where they are given. -/
theorem topics_showSame_iff (scope : Bytes) (nowMs : UInt32) (state other : SessionState) :
    ShowSame (parseTopics scope nowMs state) (parseTopics scope nowMs other) ↔
      LapsReplaced scope state other ∧
        (parseTopics scope nowMs other).blueFlagTla =
          (parseTopics scope nowMs state).blueFlagTla := by
  obtain ⟨hflag, hlap⟩ := sameFront_topics scope nowMs state
  obtain ⟨hflagOther, hlapOther⟩ := sameFront_topics scope nowMs other
  rw [parseLapCount_eq, parseTrackStatus_eq] at hflag hlap hflagOther hlapOther
  simp only [SessionState.laps, Prod.mk.injEq] at hlap hlapOther
  obtain ⟨hhas, hcurrent, htotal⟩ := hlap
  obtain ⟨hhasOther, hcurrentOther, htotalOther⟩ := hlapOther
  have hsameFlag : (parseTopics scope nowMs other).trackFlag =
      (parseTopics scope nowMs state).trackFlag := by
    rw [hflag, hflagOther]
    cases lapCountOf scope <;> rfl
  have hsameHas : (parseTopics scope nowMs other).hasLapCount =
      (parseTopics scope nowMs state).hasLapCount := by
    rw [hhas, hhasOther]
    cases lapCountOf scope <;> rfl
  have hlaps : ((parseTopics scope nowMs state).hasLapCount = true →
      (parseTopics scope nowMs other).currentLap = (parseTopics scope nowMs state).currentLap ∧
        (parseTopics scope nowMs other).totalLaps = (parseTopics scope nowMs state).totalLaps) ↔
      LapsReplaced scope state other := by
    rw [hhas, hcurrent, htotal, hcurrentOther, htotalOther, LapsReplaced]
    cases lapCountOf scope with
    | none => simp
    | some laps =>
        obtain ⟨current, total⟩ := laps
        cases current <;> cases total <;> simp
  exact ⟨fun h => ⟨hlaps.mp h.laps, h.blueFlagTla⟩,
    fun h => ⟨hsameFlag, hsameHas, hlaps.mpr h.1, h.2⟩⟩

/-- After such a body the sessions look alike. -/
theorem Replaced.parse {body : Bytes} {state other : SessionState} (h : Replaced body state other)
    (nowMs : UInt32) (counters otherCounters : Counters) :
    ShowSame (parse body nowMs state counters).state
      (parse body nowMs other otherCounters).state := by
  rw [Replaced] at h
  rw [parse_state, parse_state]
  cases hreading : reading body with
  | none =>
      rw [hreading] at h
      exact h
  | some read =>
      rw [hreading] at h
      cases read with
      | noSession => exact ShowSame.refl _
      | session scope =>
          exact (topics_showSame_iff scope nowMs state other).mpr ⟨h.1, h.2.topics nowMs⟩

/-- For a body without messages, the sessions look alike after it only then. -/
theorem parse_showSame_iff {body : Bytes}
    (hmessages : ∀ scope, reading body = some (.session scope) → messagesOf scope = none)
    (nowMs : UInt32) (state other : SessionState) (counters otherCounters : Counters) :
    ShowSame (parse body nowMs state counters).state
        (parse body nowMs other otherCounters).state ↔
      Replaced body state other := by
  refine ⟨fun h => ?_, fun h => h.parse nowMs counters otherCounters⟩
  rw [parse_state, parse_state] at h
  rw [Replaced]
  cases hreading : reading body with
  | none =>
      rw [hreading] at h
      exact h
  | some read =>
      rw [hreading] at h
      cases read with
      | noSession => exact trivial
      | session scope =>
          have hnone := hmessages scope hreading
          obtain ⟨hlaps, htla⟩ := (topics_showSame_iff scope nowMs state other).mp h
          refine ⟨hlaps, ?_⟩
          rw [BlueReplaced, hnone]
          rw [parseTopics, parseTopics, parseRaceControlMessages, parseRaceControlMessages,
            hnone] at htla
          exact (parseFront_blueFlags scope other).2.1.symm.trans
            (htla.trans (parseFront_blueFlags scope state).2.1)

/-! ## Runs -/

/-- The clients agree on whether they are connected, and then on what they show.  What a client
holds while it is not connected is not shown. -/
def ShownAlike (client other : MultiViewerClient) : Prop :=
  other.connected = client.connected ∧
    (client.connected = true → ShowSame client.state other.state)

theorem InStep.shown_call (h : InStep client other)
    (hshown : client.connected = true → ShowSame client.state other.state) {next : Call}
    (hreplaced : ∀ nowMs body, next = .poll nowMs (some body) → client.asks nowMs →
      Replaced body client.state other.state) :
    (client.call next).connected = true →
      ShowSame (client.call next).state (other.call next).state := by
  cases next with
  | setHost host =>
      by_cases hhost : host = client.host
      · rw [MultiViewerClient.call, MultiViewerClient.call, h.host, if_pos hhost, if_pos hhost]
        exact hshown
      · rw [call_setHost client hhost]
        exact fun hconnected => by cases hconnected
  | poll nowMs response =>
      by_cases hasks : client.asks nowMs
      · rw [call_poll response hasks, call_poll response ((h.asks nowMs).mpr hasks)]
        cases response with
        | none => exact fun hconnected => by cases hconnected
        | some body => exact fun _ => (hreplaced nowMs body rfl hasks).parse nowMs _ _
      · rw [call_poll_of_not response hasks,
          call_poll_of_not response fun hother => hasks ((h.asks nowMs).mp hother)]
        exact hshown

/-- The bodies that come to two clients in step are such bodies. -/
def AllReplaced (client other : MultiViewerClient) (list : List Call) : Prop :=
  ∀ earlier nowMs body, earlier ++ [.poll nowMs (some body)] <+: list →
    (client.calls earlier).asks nowMs →
      Replaced body (client.calls earlier).state (other.calls earlier).state

theorem InStep.shown_calls (h : InStep client other)
    (hshown : client.connected = true → ShowSame client.state other.state) {list : List Call}
    (hreplaced : AllReplaced client other list) :
    ShownAlike (client.calls list) (other.calls list) := by
  induction list generalizing client other with
  | nil => exact ⟨h.connected, hshown⟩
  | cons next list ih =>
      refine ih (h.call next) (h.shown_call hshown fun nowMs body hnext hasks => ?_)
        fun earlier nowMs body hfront hasks => ?_
      · subst hnext
        exact hreplaced [] nowMs body (List.prefix_append _ list) hasks
      · exact hreplaced (next :: earlier) nowMs body
          ((List.prefix_cons_inj next).mpr hfront) hasks

/-- Two runs with the same calls up to a change of host, whatever the responses, and with
the same responses from then on show the same whenever they are connected, if no body
leaves out what the two sessions still differ in. -/
theorem new_host_shown {bufferCap : Nat} {config : MvConfig} {before before' : List Call}
    {host : IPAddress} {after : List Call}
    (hasked : before.map Call.asked = before'.map Call.asked)
    (hhost : host ≠ ((MultiViewerClient.initial bufferCap config).calls before).host)
    (hreplaced : AllReplaced
      ((MultiViewerClient.initial bufferCap config).calls (before ++ [.setHost host]))
      ((MultiViewerClient.initial bufferCap config).calls (before' ++ [.setHost host])) after) :
    ∀ moment, moment <+: after →
      ShownAlike
        ((MultiViewerClient.initial bufferCap config).calls (before ++ .setHost host :: moment))
        ((MultiViewerClient.initial bufferCap config).calls
          (before' ++ .setHost host :: moment)) := by
  intro moment hmoment
  have hsame : SameHost ((MultiViewerClient.initial bufferCap config).calls before)
      ((MultiViewerClient.initial bufferCap config).calls before') :=
    SameHost.calls ⟨rfl, rfl, rfl⟩ hasked
  have hstep := hsame.inStep hhost
  rw [MultiViewerClient.calls_concat, MultiViewerClient.calls_concat] at hreplaced
  rw [MultiViewerClient.calls_append, MultiViewerClient.calls_append]
  refine hstep.shown_calls (fun hconnected => ?_) fun earlier nowMs body hfront =>
    hreplaced earlier nowMs body (hfront.trans hmoment)
  rw [call_setHost _ hhost] at hconnected
  cases hconnected

/-! ### An old flag -/

def redBody : Bytes :=
  ascii ("\x7b\"data\":\x7b\"f1LiveTimingState\":\x7b" ++
    "\"TrackStatus\":\x7b\"Message\":\"Red\"\x7d\x7d\x7d\x7d")

/-- Up to its closing brace. -/
def clearScope : Bytes := ascii "\x7b\"TrackStatus\":\x7b\"Message\":\"AllClear\"\x7d"

def clearBody : Bytes :=
  ascii "\x7b\"data\":\x7b\"f1LiveTimingState\":" ++ clearScope ++ ascii "\x7d\x7d\x7d"

/-- What the server sends for a query that failed. -/
def failedBody : Bytes := ascii "\x7b\"data\":null\x7d"

def fixedTiming : PollTiming := ⟨2000, 0, 5000, kAllTopics, 0⟩

def fixedConfig : MvConfig := ⟨fixedTiming, false, 8000⟩

/-- The first host had the red flag out, or did not answer. -/
def redBefore : List Call := [.setHost 1, .poll 0 (some redBody)]

def silentBefore : List Call := [.setHost 1, .poll 0 none]

/-- The old host's flag is still up behind a first answer without a session. -/
theorem old_flag_stays_up :
    let client := (MultiViewerClient.initial 4096 fixedConfig).calls
      (redBefore ++ .setHost 2 :: [.poll 100 (some failedBody)])
    let other := (MultiViewerClient.initial 4096 fixedConfig).calls
      (silentBefore ++ .setHost 2 :: [.poll 100 (some failedBody)])
    redBefore.map Call.asked = silentBefore.map Call.asked ∧
      client.host = 2 ∧ client.connected = true ∧ client.state.trackFlag = .kRed ∧
      other.host = 2 ∧ other.connected = true ∧ other.state.trackFlag = .kUnknown := by
  decide +kernel

theorem new_host_shown_clear :
    ShownAlike
      ((MultiViewerClient.initial 4096 fixedConfig).calls
        (redBefore ++ .setHost 2 :: [.poll 100 (some clearBody)]))
      ((MultiViewerClient.initial 4096 fixedConfig).calls
        (silentBefore ++ .setHost 2 :: [.poll 100 (some clearBody)])) := by
  refine new_host_shown (by decide +kernel) (by decide +kernel) ?_ _ (List.prefix_refl _)
  intro earlier nowMs body hfront _
  have hlength := hfront.length_le
  rw [List.length_append, List.length_singleton, List.length_singleton] at hlength
  obtain rfl : earlier = [] := List.length_eq_zero_iff.mp (by omega)
  obtain ⟨rfl, rfl⟩ : nowMs = 100 ∧ body = clearBody := by
    simpa using hfront
  have hreading : reading clearBody = some (.session clearScope) := by decide +kernel
  have hlaps : lapCountOf clearScope = none := by decide +kernel
  have hmessages : messagesOf clearScope = none := by decide +kernel
  rw [Replaced, hreading]
  refine ⟨fun current total hgiven => ?_, ?_⟩
  · rw [hlaps] at hgiven
    cases hgiven
  · rw [BlueReplaced, hmessages]
    decide +kernel

end MatrixFaces.Net.Mv
