import MatrixFaces.Net.MultiViewerParse
import MatrixFaces.Net.MvSchedule
import MatrixFaces.Net.StreamRead

set_option autoImplicit false

/-!
# The MultiViewer transport (`src/net/multiviewer_client.cpp`)

The transport is a state of its own beside the client's fields.  The readers run on
fuel; `none` is a poll that is not over yet.

The names are the source's: `ensureConnected`, `sendRequest`, `readResponse`, the retry in
`fetchFrom`, and `poll` around them.  A `Transport` is the library's socket; nothing is asked of
it here.

`Runs` is a run of `setHost` and `poll` calls with anything happening to the connection in
between, on enough fuel for each poll to be over.
-/

namespace MatrixFaces.Net.Mv

open MatrixFaces.Foundation

/-! ## `multiviewer_client.h` -/

/-- `IPAddress`; 0 is the unset address. -/
abbrev IPAddress := UInt32

/-- `Client`, with what only this class calls. -/
structure Transport (σ : Type) extends Client σ where
  connect : IPAddress → σ → Bool × σ
  stop : σ → σ
  write : Bytes → σ → Nat × σ

structure MvConfig where
  timing : PollTiming
  keepAlive : Bool
  responseTimeoutMs : UInt32

/-- The counters that the client maintains. -/
structure PollCounters where
  polls : UInt32
  connects : UInt32
  connectFailures : UInt32
  framingErrors : UInt32
  emptyResponses : UInt32
  deriving DecidableEq, Repr

/-- The fields that a round trip changes. -/
structure Socket where
  socketOpen : Bool
  counters : PollCounters
  deriving DecidableEq, Repr

/-- A buffer that is missing has a cap of 0. -/
structure MultiViewerClient where
  bufferCap : Nat
  config : MvConfig
  host : IPAddress
  everPolled : Bool
  connected : Bool
  lastPollMs : UInt32
  lastSlowPollMs : UInt32
  socket : Socket
  state : SessionState
  counters : Counters

abbrev kQueryCap : Nat := 160
abbrev kHeaderCap : Nat := 224
abbrev kHeaderLineCap : Nat := 256
abbrev kMaxHeaderLines : Nat := 32

namespace MultiViewerClient

/-- The client at boot. -/
def initial (bufferCap : Nat) (config : MvConfig) : MultiViewerClient where
  bufferCap := bufferCap
  config := config
  host := 0
  everPolled := false
  connected := false
  lastPollMs := 0
  lastSlowPollMs := 0
  socket := ⟨false, ⟨0, 0, 0, 0, 0⟩⟩
  state := .initial
  counters := ⟨0, 0, 0, 0⟩

def blueFlagTla (client : MultiViewerClient) : Bytes := client.state.blueFlagTla

end MultiViewerClient

/-! ## Header lines -/

def tolower (c : Byte) : Byte := if 0x41 ≤ c ∧ c ≤ 0x5A then c + 0x20 else c

/-- `headerIs`. -/
def headerIs (line name : Bytes) : Bool := name.map tolower <+: line.map tolower

/-- `headerValue`. -/
def headerValue (line : Bytes) : Option Bytes :=
  match (cstring line).dropWhile (· != chColon) with
  | [] => none
  | _ :: value => some (value.dropWhile isBlank)

/-- What the headers said so far. -/
structure Headers where
  contentLength : Int
  serverWillClose : Bool
  deriving DecidableEq, Repr

/-- A header line.  Where `strtol` converts nothing it returns 0. -/
def noteHeader (line : Bytes) (headers : Headers) : Headers :=
  if headerIs line (ascii "content-length:") then
    match headerValue line with
    | none => headers
    | some value => { headers with contentLength := ((strtol value).map Prod.fst).getD 0 }
  else if headerIs line (ascii "connection:") then
    match headerValue line with
    | none => headers
    | some value =>
        if headerIs value (ascii "close") then { headers with serverWillClose := true }
        else headers
  else headers

/-! ## The request -/

/-- The `%u` of `snprintf`. -/
def decimal (n : Nat) : Bytes := ascii (toString n)

def crlf : Bytes := [chCr, chLf]

def requestHeader (queryLen : Nat) (keepAlive : Bool) : Bytes :=
  ascii "POST /api/graphql HTTP/1.1" ++ crlf ++ ascii "Host: multiviewer" ++ crlf ++
    ascii "Content-Type: application/json" ++ crlf ++
    ascii "Content-Length: " ++ decimal queryLen ++ crlf ++
    ascii "Connection: " ++ (if keepAlive then ascii "keep-alive" else ascii "close") ++
    crlf ++ crlf

/-! ## A round trip -/

namespace Socket

def noteConnect (socket : Socket) : Socket where
  socketOpen := true
  counters := { socket.counters with connects := socket.counters.connects + 1 }

def noteConnectFailure (socket : Socket) : Socket :=
  { socket with
    counters := { socket.counters with connectFailures := socket.counters.connectFailures + 1 } }

def noteFraming (socket : Socket) : Socket :=
  { socket with
    counters := { socket.counters with framingErrors := socket.counters.framingErrors + 1 } }

def noteEmpty (socket : Socket) : Socket :=
  { socket with
    counters := { socket.counters with emptyResponses := socket.counters.emptyResponses + 1 } }

def close (socket : Socket) : Socket := { socket with socketOpen := false }

end Socket

section

variable {σ : Type} (transport : Transport σ) (bufferCap : Nat) (config : MvConfig)
  (host : IPAddress) (fuel : Nat)

/-- `transport_.stop()` where the socket is given up. -/
def closeSocket (link : Socket × σ) : Socket × σ := (link.1.close, transport.stop link.2)

/-- `ensureConnected`: whether there is a connection. -/
def ensureConnected (link : Socket × σ) : Bool × Socket × σ :=
  let link :=
    if link.1.socketOpen ∧ (config.keepAlive = false ∨ transport.connected link.2 = false) then
      closeSocket transport link
    else link
  if link.1.socketOpen then (true, link)
  else
    match transport.connect host link.2 with
    | (false, state) => (false, link.1.noteConnectFailure, state)
    | (true, state) => (true, link.1.noteConnect, state)

/-- `sendRequest`; it touches nothing but the transport. -/
def sendRequest (topics : UInt8) (state : σ) : Bool × σ :=
  match buildQuery topics kQueryCap with
  | none => (false, state)
  | some query =>
      let header := requestHeader query.length config.keepAlive
      if header.length ≥ kHeaderCap then (false, state)
      else
        match transport.write header state with
        | (headerLen, state) =>
            if headerLen = header.length then
              match transport.write query state with
              | (queryLen, state) => (queryLen = query.length, state)
            else (false, state)

/-- The header loop of `readResponse`; `none` where it gave up. -/
def readHeaders : Nat → Headers → σ → Option (Option Headers × σ)
  | 0, _, state => some (none, state)
  | lines + 1, headers, state =>
      match readLine transport.toClient kHeaderLineCap config.responseTimeoutMs fuel state with
      | none => none
      | some ((status, line), state) =>
          if status = .kTimeout then some (none, state)
          else if line = [] then some (some headers, state)
          else readHeaders lines (noteHeader line headers) state

/-- A body and whether the connection may serve another request. -/
abbrev Response := Bytes × Bool

/-- `readResponse` behind the headers. -/
def readBody (headers : Headers) (link : Socket × σ) : Option (Option Response × Socket × σ) :=
  let cap := bufferCap - 1
  if headers.contentLength < 0 then
    match readUntilClose transport.toClient bufferCap config.responseTimeoutMs fuel link.2 with
    | none => none
    | some (body, state) =>
        if body = [] then some (none, link.1.noteEmpty, state)
        else some (some (body, false), link.1, state)
  else
    let bodyLen := headers.contentLength.toNat
    if bodyLen = 0 then some (none, link.1.noteEmpty, link.2)
    else
      let want := if bodyLen < cap then bodyLen else cap
      match readExactly transport.toClient want config.responseTimeoutMs fuel link.2 with
      | none => none
      | some (none, state) => some (none, link.1.noteEmpty, state)
      | some (some body, state) =>
          some (some (body, config.keepAlive && !headers.serverWillClose && want == bodyLen),
            link.1, state)

/-- `readResponse`; the inner `none` is the source's `false`. -/
def readResponse (link : Socket × σ) : Option (Option Response × Socket × σ) :=
  match readLine transport.toClient kHeaderLineCap config.responseTimeoutMs fuel link.2 with
  | none => none
  | some ((status, line), state) =>
      if status ≠ .kOk ∨ ¬ ascii "HTTP/1." <+: line then
        some (none, link.1.noteFraming, state)
      else
        match readHeaders transport config fuel kMaxHeaderLines ⟨-1, false⟩ state with
        | none => none
        | some (none, state) => some (none, link.1.noteFraming, state)
        | some (some headers, state) =>
            readBody transport bufferCap config fuel headers (link.1, state)

/-- `sendRequest(topics) && readResponse(outLen, reusable)`. -/
def roundTrip (topics : UInt8) (link : Socket × σ) : Option (Option Response × Socket × σ) :=
  match sendRequest transport config topics link.2 with
  | (false, state) => some (none, link.1, state)
  | (true, state) => readResponse transport bufferCap config fuel (link.1, state)

/-- The loop of `fetch`, with the attempts that are left. -/
def fetchFrom (topics : UInt8) : Nat → Socket × σ → Option (Option Bytes × Socket × σ)
  | 0, link => some (none, link)
  | attempts + 1, link =>
      let reusingSocket := link.1.socketOpen
      match ensureConnected transport config host link with
      | (false, link) => some (none, link)
      | (true, link) =>
          match roundTrip transport bufferCap config fuel topics link with
          | none => none
          | some (some (body, true), link) => some (some body, link)
          | some (some (body, false), link) => some (some body, closeSocket transport link)
          | some (none, link) =>
              if reusingSocket then fetchFrom topics attempts (closeSocket transport link)
              else some (none, closeSocket transport link)

/-- `fetch`: the body it left in the buffer. -/
def fetch (topics : UInt8) (link : Socket × σ) : Option (Option Bytes × Socket × σ) :=
  fetchFrom transport bufferCap config host fuel topics 2 link

end

/-! ## Polls -/

namespace MultiViewerClient

/-- `setHost`. -/
def setHost {σ : Type} (transport : Transport σ) (host : IPAddress)
    (system : MultiViewerClient × σ) : MultiViewerClient × σ :=
  if host = system.1.host then system
  else
    let client := { system.1 with host := host, connected := false, everPolled := false }
    if client.socket.socketOpen then
      ({ client with socket := client.socket.close }, transport.stop system.2)
    else (client, system.2)

/-- What `planPoll` decides about. -/
def pollState (client : MultiViewerClient) : PollState where
  everPolled := client.everPolled
  connected := client.connected
  lastPollMs := client.lastPollMs
  lastSlowPollMs := client.lastSlowPollMs

def plan (client : MultiViewerClient) (nowMs : UInt32) : PollPlan :=
  planPoll client.config.timing client.pollState nowMs

/-- Whether `poll` gets as far as asking. -/
def asks (client : MultiViewerClient) (nowMs : UInt32) : Prop :=
  client.host ≠ 0 ∧ client.bufferCap ≠ 0 ∧ (client.plan nowMs).due = true

instance (client : MultiViewerClient) (nowMs : UInt32) : Decidable (client.asks nowMs) :=
  inferInstanceAs (Decidable (_ ∧ _))

/-- `poll` up to its call of `fetch`. -/
def begun (client : MultiViewerClient) (nowMs : UInt32) : MultiViewerClient :=
  let slowTopics := client.config.timing.slowTopics
  { client with
    lastPollMs := nowMs
    everPolled := true
    lastSlowPollMs :=
      if (client.plan nowMs).topics &&& slowTopics = slowTopics then nowMs
      else client.lastSlowPollMs
    socket :=
      { client.socket with
        counters := { client.socket.counters with polls := client.socket.counters.polls + 1 } } }

/-- `poll` behind its call of `fetch`. -/
def finished (client : MultiViewerClient) (nowMs : UInt32) (response : Option Bytes) :
    MultiViewerClient :=
  match response with
  | none => { client with connected := false }
  | some body =>
      let parsed := parse body nowMs client.state client.counters
      { client with connected := true, state := parsed.state, counters := parsed.counters }

/-- `poll`, and the body it handed to `parse`. -/
def poll {σ : Type} (transport : Transport σ) (fuel : Nat) (nowMs : UInt32)
    (system : MultiViewerClient × σ) : Option (Option Bytes × MultiViewerClient × σ) :=
  let client := system.1
  if client.asks nowMs then
    match fetch transport client.bufferCap client.config client.host fuel
        (client.plan nowMs).topics ((client.begun nowMs).socket, system.2) with
    | none => none
    | some (response, socket, state) =>
        some (response, ({ client.begun nowMs with socket := socket }).finished nowMs response,
          state)
  else some (none, system)

end MultiViewerClient

/-- A call, and the body that a poll hands to `parse`. -/
inductive Call where
  | setHost (host : IPAddress)
  | poll (nowMs : UInt32) (response : Option Bytes)
  deriving DecidableEq, Repr

namespace MultiViewerClient

/-- A run against a transport, to which something may happen between two calls. -/
inductive Runs {σ : Type} (transport : Transport σ) (elapses : σ → σ → Prop) :
    MultiViewerClient × σ → List Call → MultiViewerClient × σ → Prop where
  | nil (system : MultiViewerClient × σ) : Runs transport elapses system [] system
  | elapse {client : MultiViewerClient} {state later : σ} {list : List Call}
      {final : MultiViewerClient × σ} (happens : elapses state later)
      (rest : Runs transport elapses (client, later) list final) :
      Runs transport elapses (client, state) list final
  | setHost {system : MultiViewerClient × σ} {host : IPAddress} {list : List Call}
      {final : MultiViewerClient × σ}
      (rest : Runs transport elapses (setHost transport host system) list final) :
      Runs transport elapses system (.setHost host :: list) final
  | poll {system next : MultiViewerClient × σ} {fuel : Nat} {nowMs : UInt32}
      {response : Option Bytes} {list : List Call} {final : MultiViewerClient × σ}
      (step : poll transport fuel nowMs system = some (response, next))
      (rest : Runs transport elapses next list final) :
      Runs transport elapses system (.poll nowMs response :: list) final

end MultiViewerClient

end MatrixFaces.Net.Mv
