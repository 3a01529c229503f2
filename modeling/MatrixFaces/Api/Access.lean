import MatrixFaces.Api.Dispatch
import MatrixFaces.Api.PairingWindow
import MatrixFaces.Api.SettingsHandlers
import MatrixFaces.Api.WsTable
import MatrixFaces.Api.WsTickets

set_option autoImplicit false

/-!
# Everything a peer can do (`src/api/handlers.cpp`, `netTick` and `wsTick` in `src/main.cpp`)

The three kinds of authority, which are stored credentials, outstanding tickets and open
sockets, and every step that uses or changes one of them.  A request is one step, and so
is a poll of the hub.  The render task only shows through what a step finds: the apps,
and the room in the command queue.  Fields called ghost are not in the source.

The bottom layer is here in the source's order: the handlers, `handleRequest` in front of them,
what `poll` hands to `onWsMessage`, and the steps of the board (`Action`).  A step answers with
its `Effect`s, which are what it made the board do: a command posted, a ticket issued, a
connection adopted, a client paired or revoked, a reset.

`trace` lists the steps of a run with the state in front of each.  What is proved about these
runs is in `Api.AccessTrace` and `Api.AccessRuns`.
-/

namespace MatrixFaces.Api

open MatrixFaces.Foundation
open MatrixFaces.Foundation.Clock32
open MatrixFaces.ApiAuth
open MatrixFaces.Apps
open MatrixFaces.Board

/-- Libraries the firmware links, and `ws::acceptKey`. -/
structure Libraries where
  /-- `deserializeJson`; `none` when it reports an error. -/
  deserializeJson : Bytes → Option Json
  acceptKey : Bytes → Bytes

/-- What `TimeSource` answers at a number of seconds since the epoch, or before it has synced. -/
def Clock.reading : Option Nat → Clock
  | none => ⟨false, 0⟩
  | some t => ⟨true, tick t⟩

/-- A request and what the board finds while it serves it. -/
structure Exchange where
  request : HttpRequest
  /-- The clock as `authenticate` reads it. -/
  gateTime : Option Nat
  /-- The clock as the handler reads it. -/
  handlerTime : Option Nat
  millis : UInt32
  /-- What `secure_random::bytes` answers each time `handlePair` asks for an id. -/
  ids : List (Option ClientId)
  secret : Option (Block kSecretBytes)
  /-- What it answers `handleCreateWsTicket`. -/
  ticket : Option (Block kTicketBytes)
  scheduler : AppScheduler
  commandFree : Nat

/-- The state behind the API. -/
structure Access where
  device : Device
  pairing : PairingWindow
  tickets : WsTicketStore
  sockets : Sockets
  revokeAllRequested : Bool
  /-- Ghost: how many steps were made. -/
  steps : Nat
  /-- Ghost: the step that issued the ticket a connection was opened with. -/
  openedWith : ConnId → Nat

namespace Access

/-- What a step did that somebody else can notice later. -/
inductive Effect where
  /-- A command was posted, by a handler or because of a message on a connection. -/
  | posted (command : Command) (message : Option ConnId)
  | issued
  | adopted (id : ConnId)
  | revoked (id : ClientId)
  | paired (id : ClientId)
  | reset
  deriving DecidableEq

/-- What a request is answered. -/
inductive Answer where
  | error (reply : ErrorReply)
  | file (response : Bytes)
  /-- The document of a handler that only reads. -/
  | document
  | credentials (id : ClientId) (secret : Block kSecretBytes)
  | led (on : Bool)
  | activeApp (index : UInt8)
  | settings (reply : Reply)
  | revoked
  | ticket (hex : Bytes)
  | upgraded

/-- The state after a handler, what it did and what it answered. -/
abbrev Handled := Access × List Effect × Answer

def refuse (access : Access) (statusCode : Nat) (statusText errorCode : String) : Handled :=
  (access, [], .error ⟨statusCode, statusText, errorCode⟩)

/-- `parseJsonBody`. -/
def parseJsonBody (libs : Libraries) (request : HttpRequest) : Option Json :=
  if request.body = [] then none else libs.deserializeJson request.body

/-! ## The handlers -/

/-- The attempts of `handlePair` at an id nobody has. -/
def generateId (store : CredentialStore) : List (Option ClientId) → Option ClientId
  | [] => none
  | none :: _ => none
  | some id :: rest => if store.find id = none then some id else generateId store rest

def handlePair (exchange : Exchange) (access : Access) : Handled :=
  if access.pairing.isOpen exchange.millis = false then
    access.refuse 401 "Unauthorized" "pairing_closed"
  else if access.device.store.full = true then access.refuse 409 "Conflict" "too_many_clients"
  else
    match generateId access.device.store (exchange.ids.take 4), exchange.secret with
    | some id, some secret =>
        let stored : StoredClient := ⟨id, secret, (Clock.reading exchange.handlerTime).now⟩
        ({ access with
            device := access.device.apply (.pair stored), pairing := PairingWindow.close },
          [.paired id], .credentials id secret)
    | _, _ => access.refuse 500 "Internal Server Error" "rng_unavailable"

def handleSetLed (libs : Libraries) (exchange : Exchange) (access : Access) : Handled :=
  match (parseJsonBody libs exchange.request).bind fun body => (body.get (ascii "on")).bool? with
  | none => access.refuse 400 "Bad Request" "expected_on_boolean"
  | some on =>
      if exchange.commandFree = 0 then access.refuse 503 "Service Unavailable" "busy"
      else
        (access, [.posted { Command.zero with kind := .kSetLed, on := on } none], .led on)

def handleSetActiveApp (libs : Libraries) (exchange : Exchange) (access : Access) : Handled :=
  match (parseJsonBody libs exchange.request).bind fun body =>
      (body.get (ascii "index")).uint32? with
  | none => access.refuse 400 "Bad Request" "expected_index_integer"
  | some index =>
      if index.toNat ≥ exchange.scheduler.count then
        access.refuse 400 "Bad Request" "unknown_app_index"
      else if exchange.commandFree = 0 then access.refuse 503 "Service Unavailable" "busy"
      else
        (access,
          [.posted { Command.zero with kind := .kSwitchApp, appIndex := index.toUInt8 } none],
          .activeApp index.toUInt8)

def handleSetAppSettings (libs : Libraries) (exchange : Exchange) (wildcard : Bytes)
    (access : Access) : Handled :=
  match prepareSettings exchange.scheduler wildcard (parseJsonBody libs exchange.request) with
  | .error reply => (access, [], .settings reply)
  | .ok (appIndex, accepted, tooManyToQueue) =>
      if tooManyToQueue = true ∨ exchange.commandFree < accepted.length then
        access.refuse 503 "Service Unavailable" "busy"
      else
        (access,
          accepted.map fun entry =>
            .posted (Command.applySetting appIndex entry.key entry.value) none,
          .settings (sendAppSettings exchange.scheduler appIndex accepted))

def handleRevokeClient (wildcard : Bytes) (access : Access) : Handled :=
  match fromHex (cstring wildcard) kClientIdBytes with
  | none => access.refuse 400 "Bad Request" "invalid_client_id"
  | some id =>
      if access.device.store.remove id |>.isNone then
        access.refuse 404 "Not Found" "unknown_client"
      else ({ access with device := access.device.apply (.revoke id) }, [.revoked id], .revoked)

def handleCreateWsTicket (site : Site) (exchange : Exchange) (access : Access) : Handled :=
  if site.kHasWebSocket = false then access.refuse 501 "Not Implemented" "websocket_unsupported"
  else
    match exchange.ticket with
    | none => access.refuse 500 "Internal Server Error" "rng_unavailable"
    | some bytes =>
        ({ access with
            tickets :=
              access.tickets.issue bytes (Clock.reading exchange.handlerTime).now access.steps },
          [.issued], .ticket (toHex bytes.1))

/-- The three writes of the response, as long as the client is there. -/
def writeResponse (acceptKey : Bytes) (slot : Slot) (link : NetLink) : NetLink :=
  match link.holder slot with
  | none => link
  | some id =>
      (List.range 3).foldl
        (fun link part => link.write id (.response part (Sockets.responsePart acceptKey part))) link

/-- `retain()` and `adopt()`, and the response when both succeed. -/
def takeOver (acceptKey : Bytes) (sockets : Sockets) : Sockets × Bool :=
  match sockets.link.retain with
  | none => (sockets, false)
  | some (slot, link) =>
      let adopted := ({ sockets with link := link } : Sockets).adopt slot
      if adopted.net = .adopted slot then
        ({ adopted with link := writeResponse acceptKey slot adopted.link }, true)
      else ({ adopted with link := adopted.link.release slot }, false)

def handleWebSocketUpgrade (site : Site) (libs : Libraries) (exchange : Exchange)
    (access : Access) : Handled :=
  if site.kHasWebSocket = false then access.refuse 501 "Not Implemented" "websocket_unsupported"
  else
    match (queryParam exchange.request.target (ascii "ticket") (kTicketHexLen + 1)).bind
        fun hex => access.tickets.consume hex (Clock.reading exchange.handlerTime).now with
    | none => access.refuse 401 "Unauthorized" "invalid_ticket"
    | some (ticket, tickets) =>
        let access := { access with tickets := tickets }
        if exchange.request.websocketKey = [] then
          access.refuse 400 "Bad Request" "expected_websocket_key"
        else
          match takeOver (libs.acceptKey exchange.request.websocketKey) access.sockets,
              access.sockets.link.request with
          | (sockets, true), some id =>
              ({ access with
                  sockets := sockets
                  openedWith := Function.update access.openedWith id ticket.issuedIn },
                [.adopted id], .upgraded)
          | (sockets, _), _ =>
              ({ access with sockets := sockets }).refuse 503 "Service Unavailable"
                "too_many_connections"

/-- The handler of a route. -/
def handle (site : Site) (libs : Libraries) (exchange : Exchange) (wildcard : Bytes)
    (access : Access) : Handler → Handled
  | .handlePair => handlePair exchange access
  | .handleSetLed => handleSetLed libs exchange access
  | .handleSetActiveApp => handleSetActiveApp libs exchange access
  | .handleSetAppSettings => handleSetAppSettings libs exchange wildcard access
  | .handleRevokeClient => handleRevokeClient wildcard access
  | .handleCreateWsTicket => handleCreateWsTicket site exchange access
  | .handleWebSocketUpgrade => handleWebSocketUpgrade site libs exchange access
  | .handleGetAppSettings =>
      match resolveAppIndex wildcard exchange.scheduler with
      | .error reply => (access, [], .settings reply)
      | .ok appIndex => (access, [], .settings (sendAppSettings exchange.scheduler appIndex []))
  | .handleRoot | .handleStatus | .handleListClients | .handleListApps | .handleGetActiveApp
  | .handleMetrics => (access, [], .document)

/-- `handleRequest`. -/
def handleRequest (site : Site) (libs : Libraries) (exchange : Exchange) (access : Access) :
    Handled :=
  let dispatched := dispatch site access.device (Clock.reading exchange.gateTime) exchange.request
  let access := { access with device := dispatched.1 }
  match dispatched.2 with
  | .error reply => (access, [], .error reply)
  | .file response => (access, [], .file response)
  | .handler handler wildcard => handle site libs exchange wildcard access handler

/-! ## The hub's messages -/

/-- The messages `poll` takes out of entry `i`, with the connection they were read from. -/
def messagesOf (sockets : Sockets) (i : Slot) : List (ConnId × Bytes) :=
  match (sockets.table i).slot with
  | none => []
  | some slot =>
      match sockets.link.holder slot with
      | none => []
      | some id =>
          let polled := WsHub.pollEntry
            ⟨(sockets.table i).buf.map Prod.snd, (sockets.link.conns id).arrived⟩
          (polled.1.filterMap WsHub.Effect.message?).map fun text => (id, text)

/-- The messages of the entries from `entries` on. -/
def messagesFrom : List Slot → Sockets → List (ConnId × Bytes)
  | [], _ => []
  | i :: rest, sockets => messagesOf sockets i ++ messagesFrom rest (sockets.pollOne i)

/-- The messages of one `poll`. -/
def pollMessages (sockets : Sockets) : List (ConnId × Bytes) :=
  messagesFrom (List.finRange kMaxRetained) sockets

/-- `onWsMessage`: what a message makes the board do. -/
def onWsMessage (libs : Libraries) (scheduler : AppScheduler) (message : ConnId × Bytes) :
    Option Effect :=
  (wsCommand scheduler (libs.deserializeJson (cstring message.2))).map fun command =>
    .posted command (some message.1)

/-! ## Steps and runs -/

inductive Action where
  /-- Housekeeping sees UP pressed. -/
  | pressUp (millis : UInt32)
  /-- Housekeeping sees DOWN held. -/
  | holdDown
  /-- The top of `netTick`. -/
  | takeReset
  /-- The rest of `netTick`: a connection is accepted and its request served. -/
  | request (exchange : Exchange)
  /-- `WsHub::poll`. -/
  | poll (scheduler : AppScheduler)
  | broadcast (text : Bytes) (taken : Slot → Nat)
  | peerDelivers (id : ConnId) (bytes : Bytes)
  | peerDisconnects (id : ConnId)

/-- `accept()`. -/
def acceptConnection (access : Access) : Access :=
  { access with
    sockets := { access.sockets with link := access.sockets.link.accept, net := .serving } }

/-- `finishRequest()`. -/
def finishRequest (access : Access) : Access :=
  { access with
    sockets := { access.sockets with link := access.sockets.link.finishRequest, net := .idle } }

/-- What a step changes and does. -/
def perform (site : Site) (libs : Libraries) (access : Access) : Action → Access × List Effect
  | .pressUp millis => ({ access with pairing := PairingWindow.openAt millis }, [])
  | .holdDown => ({ access with revokeAllRequested := true }, [])
  | .takeReset =>
      if access.revokeAllRequested = true then
        ({ access with
            device := access.device.apply .factoryReset
            revokeAllRequested := false },
          if access.device.store.clear.isSome then [.reset] else [])
      else (access, [])
  | .request exchange =>
      let handled := handleRequest site libs exchange access.acceptConnection
      (handled.1.finishRequest, handled.2.1)
  | .poll scheduler =>
      ({ access with sockets := access.sockets.poll },
        (pollMessages access.sockets).filterMap (onWsMessage libs scheduler))
  | .broadcast text taken => ({ access with sockets := access.sockets.broadcast text taken }, [])
  | .peerDelivers id bytes =>
      if (access.sockets.link.conns id).isOpen = true then
        ({ access with
            sockets := { access.sockets with
              link := access.sockets.link.modify id fun conn =>
                { conn with arrived := conn.arrived ++ bytes } } }, [])
      else (access, [])
  | .peerDisconnects id =>
      ({ access with
          sockets := { access.sockets with link := access.sockets.link.stop id } }, [])

def step (site : Site) (libs : Libraries) (access : Access) (action : Action) : Access :=
  { (access.perform site libs action).1 with steps := access.steps + 1 }

/-- One step of a run: the state it was made in, and what it did. -/
structure Turn where
  before : Access
  action : Action
  effects : List Effect

/-- The steps of a run. -/
def trace (site : Site) (libs : Libraries) (access : Access) : List Action → List Turn
  | [] => []
  | action :: rest =>
      ⟨access, action, (access.perform site libs action).2⟩ ::
        trace site libs (access.step site libs action) rest

/-- The state a run ends in. -/
def run (site : Site) (libs : Libraries) (access : Access) (actions : List Action) : Access :=
  actions.foldl (fun access action => access.step site libs action) access

/-- A board after `setup()`. -/
def boot (store : CredentialStore) : Access where
  device := Device.boot store
  pairing := PairingWindow.initial
  tickets := WsTicketStore.initial
  sockets := Sockets.boot
  revokeAllRequested := false
  steps := 0
  openedWith := fun _ => 0

end Access

end MatrixFaces.Api
