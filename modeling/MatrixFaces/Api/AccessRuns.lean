import MatrixFaces.Api.AccessTrace
import MatrixFaces.Api.SettingsPost

set_option autoImplicit false

/-!
# Runs of everything a peer can do

Every open socket goes back to a signed request for a ticket made shortly before it, and
a factory reset ends what can still be signed but not what was already handed out.

A run is a list of `Action`s from boot; `trace` is the list of its turns, each with the state
in front of it and the effects it had.  Where something comes from is a place in that list.

The first main result is `sockets_trace_back`: there is an `origin` that names for every
adopted connection the turn that issued its ticket, to an accepted request and at most ten
seconds earlier, and no two connections have one.  `Steady` is its only condition: once the
clock is synced it stays so, its readings do not decrease, and no two are `2 ^ 31` seconds
apart.

The second one is `posts_after_reset`.  From a turn that `Resets` to the next pairing nobody
is authenticated and no ticket is issued; what still posts commands are messages on
connections whose ticket is older than the reset.  `command_after_reset` is a run in which
one does.
-/

namespace MatrixFaces.Api

open MatrixFaces.Foundation
open MatrixFaces.Foundation.Clock32
open MatrixFaces.ApiAuth
open MatrixFaces.Apps
open MatrixFaces.Board

namespace Access

variable {site : Site} {libs : Libraries}

/-! ## A ticket, a factory reset, and a socket -/

/-- `{"app":0,"key":"a","value":true}` -/
def flagOn : Bytes := ascii "\x7b\"app\":0,\"key\":\"a\",\"value\":true\x7d"

/-- A JSON reader that knows this one document. -/
def flagLibs : Libraries where
  deserializeJson text :=
    if text = flagOn then
      some (.object [(ascii "app", .int 0), (ascii "key", .string (ascii "a")),
        (ascii "value", .bool true)])
    else none
  acceptKey _ := ascii "accept"

/-- A request, with everything it needs at hand. -/
def exchangeAt (request : HttpRequest) (time : Nat) : Exchange where
  request := request
  gateTime := some time
  handlerTime := some time
  millis := 0
  ids := []
  secret := none
  ticket := some (Block.zero _)
  scheduler := Tasks.twoFlags
  commandFree := kCommandQueueDepth

def ticketRequest : HttpRequest :=
  { HttpRequest.zero with
    method := ascii "POST"
    target := ascii "/api/ws-ticket"
    path := ascii "/api/ws-ticket"
    authorization :=
      (Device.signedHeader (ascii "POST") (ascii "/api/ws-ticket") (Device.numbered 0)).getD [] }

def upgradeRequest : HttpRequest :=
  { HttpRequest.zero with
    method := ascii "GET"
    target := ascii "/api/ws?ticket=0000000000000000"
    path := ascii "/api/ws"
    websocketKey := ascii "key" }

/-- The message in a masked text frame. -/
def flagFrame : Bytes := [0x81, 0x80 + UInt8.ofNat flagOn.length, 0, 0, 0, 0] ++ flagOn

def askForTicket : Action := .request (exchangeAt ticketRequest 1700000000)

def openSocket : Action := .request (exchangeAt upgradeRequest 1700000003)

/-- A client gets a ticket, everybody is revoked, and the ticket is used. -/
def resetRun : List Action :=
  [askForTicket, .holdDown, .takeReset, openSocket, .peerDelivers 1 flagFrame,
    .poll Tasks.twoFlags]

def flagCommand : Command :=
  Command.applySetting 0 (ascii "a") { SettingValue.zero with boolValue := true }

theorem steady_resetRun : Steady resetRun := by
  have hreadings : resetRun.flatMap Action.readings =
      [some 1700000000, some 1700000000, some 1700000003, some 1700000003] := rfl
  rw [Steady, hreadings]
  simp [Follows]

theorem checkRequest_ticketRequest :
    Authenticator.checkRequest Device.onePaired
        (signedCall ticketRequest (Clock.reading (some 1700000000))) =
      .ok (Device.statusRequest (Device.numbered 0)) := by
  have hsigned : Authenticator.checkRequest Device.onePaired
      ⟨Device.signedHeader (ascii "POST") (ascii "/api/ws-ticket") (Device.numbered 0),
        ascii "POST", ascii "/api/ws-ticket", [], ⟨true, 1700000000⟩⟩ =
      .ok (Device.statusRequest (Device.numbered 0)) :=
    Device.checkRequest_signed (Device.numbered 0) (by decide) (by decide)
  have hsome : Device.signedHeader (ascii "POST") (ascii "/api/ws-ticket") (Device.numbered 0) =
      some ticketRequest.authorization := by
    cases hheader : Device.signedHeader (ascii "POST") (ascii "/api/ws-ticket")
        (Device.numbered 0) with
    | none =>
        rw [hheader] at hsigned
        cases hsigned
    | some text => simp only [ticketRequest, hheader, Option.getD_some]
  rw [hsome] at hsigned
  exact hsigned

theorem dispatch_ticketRequest :
    ∃ auth, dispatch plainSite (Device.boot Device.onePaired) (Clock.reading (some 1700000000))
        ticketRequest = (⟨Device.onePaired, auth⟩, .handler .handleCreateWsTicket []) := by
  have hroute : findRoute (kRoutes plainSite.metricsEnabled) ticketRequest.method
      ticketRequest.path kWildcardCap =
        some (⟨ascii "POST", ascii "/api/ws-ticket", .handleCreateWsTicket, true⟩, []) := rfl
  have haccept : (Authenticator.initial.acceptRequest
      (Device.statusRequest (Device.numbered 0))).2 = .kAuthOk := by decide
  have hdispatch : dispatch plainSite (Device.boot Device.onePaired)
      (Clock.reading (some 1700000000)) ticketRequest =
        (⟨Device.onePaired, (Authenticator.initial.acceptRequest
          (Device.statusRequest (Device.numbered 0))).1⟩, .handler .handleCreateWsTicket []) :=
    @dispatch_of_accepted plainSite (Device.boot Device.onePaired) _ ticketRequest _ _ _ rfl
      (by decide) checkRequest_ticketRequest haccept hroute
  exact ⟨_, hdispatch⟩

/-- The board once the ticket is out, whatever its authenticator noted. -/
def ticketOut (auth : Authenticator) : Access :=
  { boot Device.onePaired with
    device := ⟨Device.onePaired, auth⟩
    tickets := WsTicketStore.initial.issue (Block.zero _) (tick 1700000000) 0
    sockets := (boot Device.onePaired).acceptConnection.finishRequest.sockets
    steps := 1 }

theorem perform_askForTicket :
    ∃ auth, (boot Device.onePaired).perform plainSite flagLibs askForTicket =
      ({ ticketOut auth with steps := 0 }, [.issued]) := by
  obtain ⟨auth, hdispatch⟩ := dispatch_ticketRequest
  have hhandled := handleRequest_of_dispatch flagLibs (exchangeAt ticketRequest 1700000000)
    (boot Device.onePaired).acceptConnection hdispatch
  refine ⟨auth, ?_⟩
  rw [askForTicket, perform, hhandled]
  rfl

/-- The board after the factory reset. -/
def wiped (auth : Authenticator) : Access :=
  { ticketOut auth with
    device := (Device.mk Device.onePaired auth).apply .factoryReset
    steps := 3 }

theorem perform_takeReset (auth : Authenticator) :
    ((ticketOut auth).step plainSite flagLibs .holdDown).perform plainSite flagLibs .takeReset =
      ({ wiped auth with steps := 2 }, [.reset]) :=
  rfl

/-- The store once the ticket is used. -/
def ticketUsed : WsTicketStore where
  slots := [⟨Block.zero _, tick 1700000000, true, true, 0⟩, Ticket.zero, Ticket.zero, Ticket.zero]
  next := 1
  slots_length := rfl
  next_lt := by decide

theorem consume_ticketOut :
    (WsTicketStore.initial.issue (Block.zero _) (tick 1700000000) 0).consume
        (ascii "0000000000000000") (tick 1700000003) =
      some (⟨Block.zero _, tick 1700000000, false, true, 0⟩, ticketUsed) :=
  rfl

/-- The tables of the hub while the upgrade is served. -/
def serving : Sockets := (wiped Authenticator.initial).acceptConnection.sockets

/-- And with the socket open. -/
def opened : Sockets :=
  { (takeOver (ascii "accept") serving).1 with
    link := (takeOver (ascii "accept") serving).1.link.finishRequest
    net := .idle }

theorem perform_openSocket (auth : Authenticator) :
    ((wiped auth).perform plainSite flagLibs openSocket).1.sockets = opened ∧
      ((wiped auth).perform plainSite flagLibs openSocket).2 = [.adopted 1] := by
  have hdispatch : dispatch plainSite (wiped auth).acceptConnection.device
      (Clock.reading (exchangeAt upgradeRequest 1700000003).gateTime)
      (exchangeAt upgradeRequest 1700000003).request =
        ((wiped auth).acceptConnection.device, .handler .handleWebSocketUpgrade []) := rfl
  have hhandled := handleRequest_of_dispatch flagLibs _ _ hdispatch
  have hsite : plainSite.kHasWebSocket = true := rfl
  have hupgrade := handleWebSocketUpgrade_of_takeOver flagLibs
    (exchangeAt upgradeRequest 1700000003)
    { (wiped auth).acceptConnection with device := (wiped auth).acceptConnection.device }
    hsite rfl consume_ticketOut (by decide)
    (show (takeOver (ascii "accept") serving).2 = true from rfl) rfl
  have htaken : takeOver (flagLibs.acceptKey
        (exchangeAt upgradeRequest 1700000003).request.websocketKey)
      ({ (wiped auth).acceptConnection with
        device := (wiped auth).acceptConnection.device } : Access).sockets =
        takeOver (ascii "accept") serving := rfl
  rw [openSocket, perform, hhandled, handle, hupgrade, htaken, opened]
  generalize takeOver (ascii "accept") serving = taken
  exact ⟨rfl, rfl⟩

/-- The hub's tables when the message has arrived. -/
def delivered : Sockets :=
  { opened with
    link := opened.link.modify 1 fun conn => { conn with arrived := conn.arrived ++ flagFrame } }

theorem pollMessages_delivered : pollMessages delivered = [(1, flagOn)] := rfl

theorem onWsMessage_flagOn :
    onWsMessage flagLibs Tasks.twoFlags (1, flagOn) = some (.posted flagCommand (some 1)) :=
  rfl

theorem effects_resetRun :
    (trace plainSite flagLibs (boot Device.onePaired) resetRun).map Turn.effects =
      [[.issued], [], [.reset], [.adopted 1], [], [.posted flagCommand (some 1)]] := by
  obtain ⟨auth, hticket⟩ := perform_askForTicket
  have hout : (boot Device.onePaired).step plainSite flagLibs askForTicket = ticketOut auth := by
    rw [step, hticket]
    rfl
  have hwiped : ((ticketOut auth).step plainSite flagLibs .holdDown).step plainSite flagLibs
      .takeReset = wiped auth := by
    rw [step, perform_takeReset]
    rfl
  obtain ⟨hsockets, hopen⟩ := perform_openSocket auth
  generalize hsocketOpen : (wiped auth).step plainSite flagLibs openSocket = socketOpen
  have hopened : socketOpen.sockets = opened := by
    rw [← hsocketOpen]
    exact hsockets
  have harrived : (socketOpen.step plainSite flagLibs (.peerDelivers 1 flagFrame)).sockets =
      delivered := by
    have hisOpen : (socketOpen.sockets.link.conns 1).isOpen = true := by
      rw [hopened]
      rfl
    rw [step, perform, if_pos hisOpen]
    simp only [hopened]
    rfl
  have hquiet : (socketOpen.perform plainSite flagLibs (.peerDelivers 1 flagFrame)).2 = [] := by
    simp only [perform]
    split <;> rfl
  have hposted : ((socketOpen.step plainSite flagLibs (.peerDelivers 1 flagFrame)).perform plainSite
      flagLibs (.poll Tasks.twoFlags)).2 = [.posted flagCommand (some 1)] := by
    rw [perform, harrived, pollMessages_delivered, List.filterMap_cons, onWsMessage_flagOn,
      List.filterMap_nil]
  have hheld : ((ticketOut auth).perform plainSite flagLibs .holdDown).2 = [] := rfl
  simp only [resetRun, trace, List.map_cons, List.map_nil, hticket, hout, hheld, perform_takeReset,
    hwiped, hopen, hsocketOpen, hquiet, hposted]

/-- What the run did in one of its steps. -/
theorem turn_of_resetRun {k : Nat} {action : Action} {effects : List Effect}
    (haction : resetRun[k]? = some action)
    (heffects : [[.issued], [], [.reset], [.adopted 1], [], [.posted flagCommand (some 1)]][k]? =
      some effects) :
    ∃ turn, (trace plainSite flagLibs (boot Device.onePaired) resetRun)[k]? = some turn ∧
      turn.action = action ∧ turn.effects = effects := by
  rw [← trace_action plainSite flagLibs (boot Device.onePaired) resetRun,
    List.getElem?_map, Option.map_eq_some_iff] at haction
  obtain ⟨turn, hturn, haction⟩ := haction
  rw [← effects_resetRun, List.getElem?_map, hturn] at heffects
  exact ⟨turn, hturn, haction, Option.some.inj heffects⟩

theorem unpaired_resetRun (j : Nat) (turn : Turn) (_ : 2 < j) (_ : j < 5)
    (hturn : (trace plainSite flagLibs (boot Device.onePaired) resetRun)[j]? = some turn)
    (id : ClientId) : Effect.paired id ∉ turn.effects := by
  have hmem : turn.effects ∈
      (trace plainSite flagLibs (boot Device.onePaired) resetRun).map Turn.effects :=
    List.mem_map_of_mem (List.mem_of_getElem? hturn)
  rw [effects_resetRun] at hmem
  simp only [List.mem_cons, List.not_mem_nil, or_false] at hmem
  rcases hmem with h | h | h | h | h | h <;> simp [h]

/-! ## Tickets behind every socket -/

/-- A step of the run adopted the connection. -/
def Adopted (turns : List Turn) (id : ConnId) : Prop :=
  ∃ turn ∈ turns, Effect.adopted id ∈ turn.effects

/-- The handler of an accepted request reads a synced clock. -/
theorem Steady.time_of_authenticated {actions : List Action} (h : Steady actions)
    {access : Access} {i : Nat} {turn : Turn}
    (hturn : (trace site libs access actions)[i]? = some turn) (hauth : turn.Authenticated) :
    ∃ t, turn.time = some t := by
  obtain ⟨exchange, haction, _⟩ := id hauth
  obtain ⟨gate, hgate⟩ := gateTime_of_authenticated hauth haction
  have hmem : turn.action ∈ actions := by
    rw [← trace_action site libs access actions]
    exact List.mem_map_of_mem (List.mem_of_getElem? hturn)
  have hreadings := (List.pairwise_flatMap.mp h).1 turn.action hmem
  rw [haction, Action.readings, hgate] at hreadings
  obtain ⟨t, ht, _⟩ := (List.pairwise_cons.mp hreadings).1 _ List.mem_cons_self gate rfl
  exact ⟨t, by rw [Turn.time, haction]; exact ht⟩

/-- Every connection the hub adopted goes back to a ticket of its own, issued to an accepted
request at most ten seconds earlier, and everything a peer makes the board do is due to an
accepted request or to such a connection. -/
theorem sockets_trace_back (site : Site) (libs : Libraries) (store : CredentialStore)
    (actions : List Action) (hsteady : Steady actions) :
    ∃ origin : ConnId → Nat,
      (∀ k adoption id, (trace site libs (boot store) actions)[k]? = some adoption →
        Effect.adopted id ∈ adoption.effects →
          ∃ minting issuedAt adoptedAt, origin id < k ∧
            (trace site libs (boot store) actions)[origin id]? = some minting ∧
            minting.IssuesTicket ∧ minting.time = some issuedAt ∧
            adoption.time = some adoptedAt ∧ issuedAt ≤ adoptedAt ∧
            adoptedAt ≤ issuedAt + kLifetimeSeconds) ∧
      (∀ id other, Adopted (trace site libs (boot store) actions) id →
        Adopted (trace site libs (boot store) actions) other →
        origin id = origin other → id = other) ∧
      ∀ k turn, (trace site libs (boot store) actions)[k]? = some turn →
        ∀ effect ∈ turn.effects,
          Caused ((trace site libs (boot store) actions).take k) turn effect := by
  obtain ⟨hbooks, hcaused⟩ := accounted_run site libs actions [] (boot store)
    (accounted_boot store)
  rw [List.nil_append] at hbooks
  refine ⟨(run site libs (boot store) actions).openedWith, ?_, ?_, ?_⟩
  · intro k adoption id hadoption hid
    obtain ⟨hbefore, ⟨exchange, haction⟩, minting, hminting, hissues, hfresh⟩ :=
      hbooks.opened k adoption id hadoption hid
    obtain ⟨issuedAt, hissuedAt⟩ := hsteady.time_of_authenticated hminting hissues.authenticated
    obtain ⟨minter, hminter, _⟩ := hissues.request
    obtain ⟨adoptedAt, hadoptedAt, hle, hlt⟩ := hsteady.follows hminting hadoption hbefore
      (time_mem_readings hminter) (time_mem_readings haction) issuedAt hissuedAt
    rw [hissuedAt, hadoptedAt, Clock.reading, Clock.reading, signed_tick_sub hle hlt] at hfresh
    exact ⟨minting, issuedAt, adoptedAt, hbefore, hminting, hissues, hissuedAt, hadoptedAt, hle,
      Nat.sub_le_iff_le_add'.mp (Int.ofNat_le.mp hfresh)⟩
  · intro id other hid hother
    exact hbooks.single id other ((hbooks.known id).mpr hid) ((hbooks.known other).mpr hother)
  · exact hcaused

/-- The socket of the run goes back to the ticket of its first step. -/
theorem sockets_trace_back_resetRun :
    ∃ origin minting issuedAt, origin < 3 ∧
      (trace plainSite flagLibs (boot Device.onePaired) resetRun)[origin]? = some minting ∧
      minting.IssuesTicket ∧ minting.time = some issuedAt ∧ issuedAt ≤ 1700000003 ∧
      1700000003 ≤ issuedAt + kLifetimeSeconds := by
  obtain ⟨origin, hopened, _, _⟩ :=
    sockets_trace_back plainSite flagLibs Device.onePaired resetRun steady_resetRun
  obtain ⟨adoption, hadoption, haction, heffects⟩ := turn_of_resetRun (k := 3) rfl rfl
  obtain ⟨minting, issuedAt, adoptedAt, hbefore, hminting, hissues, hissuedAt, hadoptedAt, hle,
    hlt⟩ := hopened 3 adoption 1 hadoption (by rw [heffects]; exact List.mem_cons_self)
  have htime : adoption.time = some 1700000003 := by
    rw [Turn.time, haction]
    rfl
  cases htime.symm.trans hadoptedAt
  exact ⟨origin 1, minting, issuedAt, hbefore, hminting, hissues, hissuedAt, hle, hlt⟩

/-! ## Factory resets -/

/-- The step carried out a factory reset. -/
def Turn.Resets (turn : Turn) : Prop := turn.action = .takeReset ∧ Effect.reset ∈ turn.effects

/-- No client is paired. -/
def NobodyPaired (access : Access) : Prop := access.device.store.clients = []

theorem not_authenticated_of_nobody {turn : Turn} (h : NobodyPaired turn.before) :
    ¬ turn.Authenticated := by
  rintro ⟨exchange, _, hok⟩
  obtain ⟨request, hcheck⟩ := Authenticator.exists_checked hok
  obtain ⟨_, client, hpasses⟩ := Authenticator.exists_passes hcheck
  have hfound := hpasses.found
  rw [CredentialStore.find, h] at hfound
  cases hfound

theorem dispatch_store (site : Site) (device : Device) (clock : Clock) (request : HttpRequest) :
    (dispatch site device clock request).1.store = device.store := by
  unfold dispatch
  simp only
  repeat' split
  all_goals rfl

/-- Only two handlers touch the credential store. -/
theorem device_handle (site : Site) (libs : Libraries) (exchange : Exchange) (wildcard : Bytes)
    (access : Access) {handler : Handler} (hpair : handler ≠ .handlePair)
    (hrevoke : handler ≠ .handleRevokeClient) :
    (handle site libs exchange wildcard access handler).1.device = access.device := by
  cases handler with
  | handlePair => exact absurd rfl hpair
  | handleRevokeClient => exact absurd rfl hrevoke
  | handleSetLed =>
      simp only [handle, handleSetLed]
      repeat' split
      all_goals rfl
  | handleSetActiveApp =>
      simp only [handle, handleSetActiveApp]
      repeat' split
      all_goals rfl
  | handleSetAppSettings =>
      simp only [handle, handleSetAppSettings]
      repeat' split
      all_goals rfl
  | handleCreateWsTicket =>
      simp only [handle, handleCreateWsTicket]
      repeat' split
      all_goals rfl
  | handleWebSocketUpgrade =>
      simp only [handle, handleWebSocketUpgrade]
      repeat' split
      all_goals rfl
  | handleGetAppSettings =>
      simp only [handle]
      split <;> rfl
  | handleRoot | handleStatus | handleListClients | handleListApps | handleGetActiveApp
  | handleMetrics => rfl

/-- A handler leaves the empty store empty, or pairs. -/
theorem nobody_handle {exchange : Exchange} {wildcard : Bytes} {access : Access}
    {handler : Handler} (h : NobodyPaired access) :
    NobodyPaired (handle site libs exchange wildcard access handler).1 ∨
      ∃ id, Effect.paired id ∈ (handle site libs exchange wildcard access handler).2.1 := by
  by_cases hpair : handler = .handlePair
  · subst hpair
    simp only [handle, handlePair]
    split
    · exact Or.inl h
    · split
      · exact Or.inl h
      · split
        · exact Or.inr ⟨_, List.mem_cons_self⟩
        · exact Or.inl h
  · left
    by_cases hrevoke : handler = .handleRevokeClient
    · subst hrevoke
      have hclients : access.device.store.clients = [] := h
      have hremove : ∀ id, access.device.store.remove id = none := fun id => by
        rw [CredentialStore.remove, if_neg (by simp [hclients])]
      simp only [handle, handleRevokeClient, hremove, Option.isNone_none, if_true]
      split <;> exact h
    · rw [NobodyPaired, device_handle site libs exchange wildcard access hpair hrevoke]
      exact h

theorem nobody_step {access : Access} (h : NobodyPaired access) (action : Action)
    (hpaired : ∀ id, Effect.paired id ∉ (access.perform site libs action).2) :
    NobodyPaired (access.step site libs action) := by
  have hkeep : (access.perform site libs action).1.device = access.device →
      NobodyPaired (access.step site libs action) := fun hdevice => by
    rw [NobodyPaired, step, hdevice]
    exact h
  cases action with
  | request exchange =>
      simp only [step, perform, handleRequest] at hpaired ⊢
      have hstore := dispatch_store site access.acceptConnection.device
        (Clock.reading exchange.gateTime) exchange.request
      generalize dispatch site access.acceptConnection.device (Clock.reading exchange.gateTime)
        exchange.request = dispatched at *
      have hnobody : NobodyPaired { access.acceptConnection with device := dispatched.1 } := by
        rw [NobodyPaired, hstore]
        exact h
      cases houtcome : dispatched.2 with
      | error reply => exact hnobody
      | file response => exact hnobody
      | handler handler wildcard =>
          rw [houtcome] at hpaired
          exact (nobody_handle hnobody).resolve_right fun hpairs => hpairs.elim hpaired
  | takeReset =>
      have hempty : access.device.store.clients = [] := h
      refine hkeep ?_
      simp only [perform]
      split
      · simp [Device.apply, CredentialStore.clear, hempty]
      · rfl
  | pressUp millis =>
      obtain ⟨window, hperform⟩ := exists_perform_pressUp site libs access millis
      exact hkeep (by rw [hperform])
  | holdDown => exact hkeep rfl
  | poll scheduler => exact hkeep rfl
  | broadcast text taken => exact hkeep rfl
  | peerDelivers id bytes =>
      refine hkeep ?_
      simp only [perform]
      split <;> rfl
  | peerDisconnects id => exact hkeep rfl

/-- The reset leaves nobody paired. -/
theorem nobody_of_reset {access : Access}
    (h : Effect.reset ∈ (access.perform site libs .takeReset).2) :
    NobodyPaired (access.step site libs .takeReset) := by
  simp only [step, perform] at h ⊢
  split at h
  · rename_i hrequested
    rw [if_pos hrequested]
    by_cases hempty : access.device.store.clients = []
    · simp [CredentialStore.clear, hempty] at h
    · simp [NobodyPaired, Device.apply, CredentialStore.clear, hempty, CredentialStore.empty]
  · cases h

/-- A step of a trace did what `perform` does. -/
theorem effects_of_trace {access : Access} {actions : List Action} {k : Nat} {turn : Turn}
    (h : (trace site libs access actions)[k]? = some turn) :
    turn.effects = (turn.before.perform site libs turn.action).2 := by
  induction actions generalizing access k with
  | nil => cases h
  | cons action rest ih =>
      cases k with
      | zero =>
          cases h
          rfl
      | succ k => exact ih h

/-- The next step starts where the step ended. -/
theorem before_of_trace {access : Access} {actions : List Action} {k : Nat} {turn next : Turn}
    (h : (trace site libs access actions)[k]? = some turn)
    (hnext : (trace site libs access actions)[k + 1]? = some next) :
    next.before = turn.before.step site libs turn.action := by
  induction actions generalizing access k with
  | nil => cases h
  | cons action rest ih =>
      cases k with
      | zero =>
          cases h
          cases rest with
          | nil => cases hnext
          | cons other rest =>
              cases hnext
              rfl
      | succ k => exact ih h hnext

/-- Nobody is paired after a reset until somebody pairs. -/
theorem nobody_after_reset {access : Access} {actions : List Action} {r : Nat} {reset : Turn}
    (hreset : (trace site libs access actions)[r]? = some reset) (hresets : reset.Resets)
    {k : Nat} {turn : Turn} (hturn : (trace site libs access actions)[k]? = some turn)
    (hlt : r < k)
    (hunpaired : ∀ j earlier, r < j → j < k → (trace site libs access actions)[j]? = some earlier →
      ∀ id, Effect.paired id ∉ earlier.effects) :
    NobodyPaired turn.before := by
  induction k generalizing turn with
  | zero => cases hlt
  | succ k ih =>
      obtain ⟨hlength, _⟩ := List.getElem?_eq_some_iff.mp hturn
      have hearlier := List.getElem?_eq_getElem (Nat.lt_of_succ_lt hlength)
      generalize (trace site libs access actions)[k] = earlier at hearlier
      rw [before_of_trace hearlier hturn]
      rcases Nat.lt_or_eq_of_le (Nat.le_of_lt_succ hlt) with hbetween | rfl
      · refine nobody_step (ih hearlier hbetween fun j other hj hk => ?_) _ ?_
        · exact hunpaired j other hj (Nat.lt_succ_of_lt hk)
        · rw [← effects_of_trace hearlier]
          exact hunpaired k earlier hbetween (Nat.lt_succ_self k) hearlier
      · cases hreset.symm.trans hearlier
        have heffects := hresets.2
        rw [effects_of_trace hreset, hresets.1] at heffects
        rw [hresets.1]
        exact nobody_of_reset heffects

/-- From a factory reset to the next pairing no request is accepted, and a command can be
posted only by a message on a connection whose ticket was issued before the reset, a ticket
serving one connection at most. -/
theorem posts_after_reset (site : Site) (libs : Libraries) (store : CredentialStore)
    (actions : List Action) :
    ∃ origin : ConnId → Nat,
      (∀ id other, Adopted (trace site libs (boot store) actions) id →
        Adopted (trace site libs (boot store) actions) other →
        origin id = origin other → id = other) ∧
      ∀ r reset, (trace site libs (boot store) actions)[r]? = some reset → reset.Resets →
        ∀ k turn, (trace site libs (boot store) actions)[k]? = some turn → r < k →
          (∀ j earlier, r < j → j < k → (trace site libs (boot store) actions)[j]? = some earlier →
            ∀ id, Effect.paired id ∉ earlier.effects) →
          ¬ turn.Authenticated ∧ Effect.issued ∉ turn.effects ∧
          ∀ command message, Effect.posted command message ∈ turn.effects →
            ∃ id minting, message = some id ∧ origin id < r ∧
              (trace site libs (boot store) actions)[origin id]? = some minting ∧
              minting.IssuesTicket := by
  obtain ⟨hbooks, hcaused⟩ := accounted_run site libs actions [] (boot store)
    (accounted_boot store)
  rw [List.nil_append] at hbooks
  refine ⟨(run site libs (boot store) actions).openedWith, fun id other hid hother =>
    hbooks.single id other ((hbooks.known id).mpr hid) ((hbooks.known other).mpr hother), ?_⟩
  intro r reset hreset hresets k turn hturn hlt hunpaired
  have hrefused := not_authenticated_of_nobody
    (nobody_after_reset hreset hresets hturn hlt hunpaired)
  refine ⟨hrefused, fun hissued => hrefused (hcaused k turn hturn _ hissued), ?_⟩
  intro command message hposted
  have hcause := hcaused k turn hturn _ hposted
  cases message with
  | none => exact absurd hcause hrefused
  | some id =>
      obtain ⟨adoption, hadoption, hadopts⟩ := hcause
      obtain ⟨a, ha⟩ := List.mem_iff_getElem?.mp hadoption
      have hak : a < k := by
        have hlength := (List.getElem?_eq_some_iff.mp ha).1
        exact Nat.lt_of_lt_of_le hlength (List.length_take_le k _)
      rw [List.nil_append, List.getElem?_take_of_lt hak] at ha
      obtain ⟨hbefore, _, minting, hminting, hissues, _⟩ := hbooks.opened a adoption id ha hadopts
      refine ⟨id, minting, rfl, ?_, hminting, hissues⟩
      -- the ticket was not issued after the reset, since nobody could sign for it
      rcases Nat.lt_trichotomy ((run site libs (boot store) actions).openedWith id) r with
        hearlier | hsame | hlater
      · exact hearlier
      · rw [hsame, hreset] at hminting
        cases hminting
        obtain ⟨exchange, haction, _⟩ := hissues.request
        cases haction.symm.trans hresets.1
      · have hnobody := nobody_after_reset hreset hresets hminting hlater
          fun j earlier hj hlast => hunpaired j earlier hj
            (Nat.lt_trans hlast (Nat.lt_trans hbefore hak))
        exact absurd hissues.authenticated (not_authenticated_of_nobody hnobody)

/-- The run posts a command after the reset, and the ticket behind it is from before. -/
theorem posts_after_reset_resetRun :
    ∃ origin minting, origin < 2 ∧
      (trace plainSite flagLibs (boot Device.onePaired) resetRun)[origin]? = some minting ∧
      minting.IssuesTicket := by
  obtain ⟨origin, _, hafter⟩ := posts_after_reset plainSite flagLibs Device.onePaired resetRun
  obtain ⟨reset, hreset, haction, heffects⟩ := turn_of_resetRun (k := 2) rfl rfl
  obtain ⟨turn, hturn, _, hposts⟩ := turn_of_resetRun (k := 5) rfl rfl
  obtain ⟨_, _, hcaused⟩ := hafter 2 reset hreset
    ⟨haction, by rw [heffects]; exact List.mem_cons_self⟩ 5 turn hturn (by decide)
    unpaired_resetRun
  obtain ⟨id, minting, _, hrest⟩ :=
    hcaused flagCommand (some 1) (by rw [hposts]; exact List.mem_cons_self)
  exact ⟨origin id, minting, hrest⟩

/-- After a factory reset an earlier ticket still opens a socket, and a message on it still
posts a command. -/
theorem command_after_reset :
    ∃ reset turn command message,
      (trace plainSite flagLibs (boot Device.onePaired) resetRun)[2]? = some reset ∧
      reset.Resets ∧
      (trace plainSite flagLibs (boot Device.onePaired) resetRun)[5]? = some turn ∧
      (∀ j earlier, 2 < j → j < 5 →
        (trace plainSite flagLibs (boot Device.onePaired) resetRun)[j]? = some earlier →
          ∀ id, Effect.paired id ∉ earlier.effects) ∧
      Effect.posted command message ∈ turn.effects := by
  obtain ⟨reset, hreset, haction, heffects⟩ := turn_of_resetRun (k := 2) rfl rfl
  obtain ⟨turn, hturn, _, hposts⟩ := turn_of_resetRun (k := 5) rfl rfl
  exact ⟨reset, turn, flagCommand, some 1, hreset,
    ⟨haction, by rw [heffects]; exact List.mem_cons_self⟩, hturn, unpaired_resetRun,
    by rw [hposts]; exact List.mem_cons_self⟩

end Access

end MatrixFaces.Api
