import MatrixFaces.Api.HttpRequest
import MatrixFaces.Api.Replay
import MatrixFaces.Api.Router

set_option autoImplicit false

/-!
# The way to a handler (`handleRequest` in `src/api/handlers.cpp`)

The route table, and `handleRequest` up to the call of a route's handler: static files, the
prefix `/api/`, the upgrade that is let through without a signature, the check of the
signature, and the route.

What the web site answers is a parameter (`Site`); what the read-only handlers answer is the
outcome `.document`, since they change nothing.

The main result is `unsigned_requests_alike`: under `/api/`, and away from the upgrade, two
requests with one `Authorization` header of which neither is signed for its own method and
target get the same error reply and leave the device as it was.  So the reply does not tell
which routes there are.
-/

namespace MatrixFaces.Api

open MatrixFaces.Foundation
open MatrixFaces.ApiAuth

/-- The functions of the route table. -/
inductive Handler where
  | handleRoot
  | handlePair
  | handleStatus
  | handleCreateWsTicket
  | handleWebSocketUpgrade
  | handleSetLed
  | handleListClients
  | handleListApps
  | handleGetActiveApp
  | handleSetActiveApp
  | handleGetAppSettings
  | handleSetAppSettings
  | handleMetrics
  | handleRevokeClient
  deriving DecidableEq, Repr

/-- What the build and the board decide. -/
structure Site where
  /-- `METRICS_ENABLED`. -/
  metricsEnabled : Bool
  kHasFilesystem : Bool
  kHasWebSocket : Bool
  /-- What `fs::serveFile` writes; `none` when there is no such file. -/
  serveFile : Bytes → Option Bytes

/-- `kRoutes`. -/
def kRoutes (metricsEnabled : Bool) : List (Route Handler) :=
  [⟨ascii "GET", ascii "/", .handleRoot, false⟩,
    ⟨ascii "POST", ascii "/pair", .handlePair, false⟩,
    ⟨ascii "GET", ascii "/api/status", .handleStatus, true⟩,
    ⟨ascii "POST", ascii "/api/ws-ticket", .handleCreateWsTicket, true⟩,
    ⟨ascii "GET", ascii "/api/ws", .handleWebSocketUpgrade, false⟩,
    ⟨ascii "POST", ascii "/api/led", .handleSetLed, true⟩,
    ⟨ascii "GET", ascii "/api/clients", .handleListClients, true⟩,
    ⟨ascii "GET", ascii "/api/apps", .handleListApps, true⟩,
    ⟨ascii "GET", ascii "/api/app", .handleGetActiveApp, true⟩,
    ⟨ascii "POST", ascii "/api/app", .handleSetActiveApp, true⟩,
    ⟨ascii "GET", ascii "/api/apps/*/settings", .handleGetAppSettings, true⟩,
    ⟨ascii "POST", ascii "/api/apps/*/settings", .handleSetAppSettings, true⟩] ++
  (if metricsEnabled then [⟨ascii "GET", ascii "/api/metrics", .handleMetrics, true⟩] else []) ++
  [⟨ascii "DELETE", ascii "/api/clients/*", .handleRevokeClient, true⟩]

def kWildcardCap : Nat := HttpRequest.kTargetCap

/-- `authResultCode`. -/
def authResultCode : AuthResult → String
  | .kAuthOk => "ok"
  | .kAuthMissingHeader => "missing_authorization"
  | .kAuthMalformedHeader => "malformed_authorization"
  | .kAuthUnknownClient => "unknown_client"
  | .kAuthClockUnavailable => "clock_unavailable"
  | .kAuthStaleTimestamp => "stale_timestamp"
  | .kAuthReplay => "replay_detected"
  | .kAuthBadSignature => "bad_signature"

def unknownEndpoint : ErrorReply := ⟨404, "Not Found", "unknown_endpoint"⟩

/-- The reply to a request that `authenticate` refused. -/
def authRefusal (result : AuthResult) : ErrorReply :=
  if result = .kAuthClockUnavailable then ⟨503, "Service Unavailable", authResultCode result⟩
  else ⟨401, "Unauthorized", authResultCode result⟩

/-- What becomes of a request. -/
inductive Outcome where
  | handler (handler : Handler) (wildcard : Bytes)
  | file (response : Bytes)
  | error (reply : ErrorReply)
  deriving DecidableEq

/-- The path is under `/api/`. -/
def underApi (path : Bytes) : Bool := (ascii "/api/").isPrefixOf path

/-- The arguments `handleRequest` hands to `authenticate`. -/
def signedCall (request : HttpRequest) (clock : Clock) : SignedCall where
  authorization := some request.authorization
  method := request.method
  path := request.target
  body := request.body
  clock := clock

/-- `handleRequest` up to the call of the handler. -/
def dispatch (site : Site) (device : Device) (clock : Clock) (request : HttpRequest) :
    Device × Outcome :=
  let route := findRoute (kRoutes site.metricsEnabled) request.method request.path kWildcardCap
  match route.filter fun found => !found.1.requiresAuth with
  | some (found, wildcard) => (device, .handler found.handler wildcard)
  | none =>
      if underApi request.path = false then
        if site.kHasFilesystem = true ∧ request.method = ascii "GET" then
          match site.serveFile request.path with
          | some response => (device, .file response)
          | none => (device, .error unknownEndpoint)
        else (device, .error unknownEndpoint)
      else
        let (auth, result, _) := device.auth.authenticate device.store (signedCall request clock)
        let device := { device with auth := auth }
        if result ≠ .kAuthOk then (device, .error (authRefusal result))
        else
          match route with
          | none => (device, .error unknownEndpoint)
          | some (found, wildcard) => (device, .handler found.handler wildcard)

/-! ## The route table -/

/-- The routes that ask for no signature. -/
theorem filter_open (metricsEnabled : Bool) :
    ((kRoutes metricsEnabled).filter fun route => !route.requiresAuth) =
      [⟨ascii "GET", ascii "/", .handleRoot, false⟩,
        ⟨ascii "POST", ascii "/pair", .handlePair, false⟩,
        ⟨ascii "GET", ascii "/api/ws", .handleWebSocketUpgrade, false⟩] := by
  cases metricsEnabled <;> rfl

/-- A request that is routed without a signature. -/
theorem open_route_cases {metricsEnabled : Bool} {method path wildcard : Bytes}
    {route : Route Handler}
    (h : findRoute (kRoutes metricsEnabled) method path kWildcardCap = some (route, wildcard))
    (hopen : route.requiresAuth = false) :
    (route.handler = .handleRoot ∧ method = ascii "GET" ∧ path = ascii "/") ∨
      (route.handler = .handlePair ∧ method = ascii "POST" ∧ path = ascii "/pair") ∨
      (route.handler = .handleWebSocketUpgrade ∧ method = ascii "GET" ∧
        path = ascii "/api/ws") := by
  obtain ⟨hroute, hmethod, hmatch⟩ := findRoute_eq_some h
  have hmem : route ∈ (kRoutes metricsEnabled).filter fun route => !route.requiresAuth :=
    List.mem_filter.mpr ⟨hroute, by rw [hopen]; rfl⟩
  rw [filter_open] at hmem
  simp only [List.mem_cons, List.not_mem_nil, or_false] at hmem
  rcases hmem with rfl | rfl | rfl
  · exact Or.inl ⟨rfl, hmethod.symm, eq_of_matchPath rfl hmatch⟩
  · exact Or.inr (Or.inl ⟨rfl, hmethod.symm, eq_of_matchPath rfl hmatch⟩)
  · exact Or.inr (Or.inr ⟨rfl, hmethod.symm, eq_of_matchPath rfl hmatch⟩)

/-- Under `/api/` every request but the upgrade goes through `authenticate`. -/
theorem dispatch_of_underApi {site : Site} {device : Device} {clock : Clock}
    {request : HttpRequest} (hpath : underApi request.path = true)
    (hupgrade : ¬ (request.method = ascii "GET" ∧ request.path = ascii "/api/ws")) :
    dispatch site device clock request =
      let (auth, result, _) := device.auth.authenticate device.store (signedCall request clock)
      let device := { device with auth := auth }
      if result ≠ .kAuthOk then (device, .error (authRefusal result))
      else
        match findRoute (kRoutes site.metricsEnabled) request.method request.path kWildcardCap with
        | none => (device, .error unknownEndpoint)
        | some (found, wildcard) => (device, .handler found.handler wildcard) := by
  have hclosed : (findRoute (kRoutes site.metricsEnabled) request.method request.path
      kWildcardCap).filter (fun found => !found.1.requiresAuth) = none := by
    rw [Option.filter_eq_none_iff]
    rintro ⟨route, wildcard⟩ hroute hopen
    rcases open_route_cases hroute (by simpa using hopen) with
      ⟨_, _, hother⟩ | ⟨_, _, hother⟩ | ⟨_, hmethod, hother⟩
    · rw [hother] at hpath
      cases hpath
    · rw [hother] at hpath
      cases hpath
    · exact hupgrade ⟨hmethod, hother⟩
  rw [dispatch, hclosed]
  simp only [hpath, Bool.true_eq_false, if_false]

/-- An accepted request reaches the handler of its route. -/
theorem dispatch_of_accepted {site : Site} {device : Device} {clock : Clock}
    {request : HttpRequest} {checked : Request} {route : Route Handler} {wildcard : Bytes}
    (hpath : underApi request.path = true)
    (hupgrade : ¬ (request.method = ascii "GET" ∧ request.path = ascii "/api/ws"))
    (hcheck : Authenticator.checkRequest device.store (signedCall request clock) = .ok checked)
    (haccept : (device.auth.acceptRequest checked).2 = .kAuthOk)
    (hroute : findRoute (kRoutes site.metricsEnabled) request.method request.path kWildcardCap =
      some (route, wildcard)) :
    dispatch site device clock request =
      ({ device with auth := (device.auth.acceptRequest checked).1 },
        .handler route.handler wildcard) := by
  rw [dispatch_of_underApi hpath hupgrade, Authenticator.authenticate, hcheck, hroute]
  simp only [haccept, ne_eq, not_true, if_false]

/-- A request that reaches a handler was routed without a signature or accepted. -/
theorem dispatch_handler {site : Site} {device : Device} {clock : Clock} {request : HttpRequest}
    {handler : Handler} {wildcard : Bytes}
    (h : (dispatch site device clock request).2 = .handler handler wildcard) :
    ∃ route, findRoute (kRoutes site.metricsEnabled) request.method request.path kWildcardCap =
        some (route, wildcard) ∧ route.handler = handler ∧
      (route.requiresAuth = false ∨
        (device.auth.authenticate device.store (signedCall request clock)).2.1 = .kAuthOk) := by
  rw [dispatch] at h
  cases hroute : findRoute (kRoutes site.metricsEnabled) request.method request.path
      kWildcardCap with
  | none =>
      simp only [hroute, Option.filter_none] at h
      split at h
      · split at h
        · split at h <;> cases h
        · cases h
      · split at h <;> cases h
  | some found =>
      obtain ⟨route, text⟩ := found
      cases hauth : route.requiresAuth with
      | false =>
          rw [hroute, Option.filter_some, if_pos (by simp [hauth])] at h
          cases h
          exact ⟨route, rfl, rfl, Or.inl hauth⟩
      | true =>
          simp only [hroute, Option.filter_some, hauth, Bool.not_true, Bool.false_eq_true,
            if_false] at h
          split at h
          · split at h
            · split at h <;> cases h
            · cases h
          · split at h
            · cases h
            · rename_i hok
              cases h
              exact ⟨route, rfl, rfl, Or.inr (by simpa using hok)⟩

/-- The routes whose handlers are reached by an accepted request only. -/
theorem authenticated_of_handler {site : Site} {device : Device} {clock : Clock}
    {request : HttpRequest} {handler : Handler} {wildcard : Bytes}
    (h : (dispatch site device clock request).2 = .handler handler wildcard)
    (hroot : handler ≠ .handleRoot) (hpair : handler ≠ .handlePair)
    (hupgrade : handler ≠ .handleWebSocketUpgrade) :
    (device.auth.authenticate device.store (signedCall request clock)).2.1 = .kAuthOk := by
  obtain ⟨route, hroute, rfl, hopen | hok⟩ := dispatch_handler h
  · rcases open_route_cases hroute hopen with ⟨hhandler, _⟩ | ⟨hhandler, _⟩ | ⟨hhandler, _⟩
    · exact absurd hhandler hroot
    · exact absurd hhandler hpair
    · exact absurd hhandler hupgrade
  · exact hok

/-- Only `POST /api/ws-ticket` reaches `handleCreateWsTicket`. -/
theorem ticket_route {site : Site} {device : Device} {clock : Clock} {request : HttpRequest}
    {wildcard : Bytes}
    (h : (dispatch site device clock request).2 = .handler .handleCreateWsTicket wildcard) :
    request.method = ascii "POST" ∧ request.path = ascii "/api/ws-ticket" := by
  obtain ⟨route, hroute, hhandler, _⟩ := dispatch_handler h
  obtain ⟨hmem, hmethod, hmatch⟩ := findRoute_eq_some hroute
  have hsame : ((kRoutes site.metricsEnabled).filter fun route =>
      route.handler = .handleCreateWsTicket) =
        [⟨ascii "POST", ascii "/api/ws-ticket", .handleCreateWsTicket, true⟩] := by
    cases site.metricsEnabled <;> rfl
  have honly : route ∈ (kRoutes site.metricsEnabled).filter fun route =>
      route.handler = .handleCreateWsTicket :=
    List.mem_filter.mpr ⟨hmem, decide_eq_true hhandler⟩
  rw [hsame, List.mem_singleton] at honly
  subst honly
  exact ⟨hmethod.symm, eq_of_matchPath rfl hmatch⟩

/-! ## Requests without a valid signature -/

namespace Authenticator

/-- The header names a paired client whose signature over this call verifies.  Nothing is asked
of its time or of its nonce. -/
def SignatureVerifies (store : CredentialStore) (call : SignedCall) : Prop :=
  ∃ header clientId client, parseAuthHeader call.authorization = some header ∧
    fromHex header.id kClientIdBytes = some clientId ∧ store.find clientId = some client ∧
    verifyRequestSignature client.secret.1 call.method call.path header.ts header.nonce
      call.body header.sig = true

/-- What a call is told whose signature does not verify. -/
def refusal (store : CredentialStore) (authorization : Option Bytes) (clock : Clock) :
    AuthResult :=
  match authorization with
  | none => .kAuthMissingHeader
  | some text =>
      if cstring text = [] then .kAuthMissingHeader
      else
        match parseAuthHeader (some text) with
        | none => .kAuthMalformedHeader
        | some header =>
            match fromHex header.id kClientIdBytes, fromHex header.nonce kNonceBytes with
            | some clientId, some _ =>
                if clock.isValid = false then .kAuthClockUnavailable
                else if store.find clientId = none then .kAuthUnknownClient
                else if skew clock.now header.timestamp > kMaxSkewSeconds then .kAuthStaleTimestamp
                else .kAuthBadSignature
            | _, _ => .kAuthMalformedHeader

/-- The checks never fail with `kAuthOk`. -/
theorem checkRequest_ne_error_ok (store : CredentialStore) (call : SignedCall) :
    checkRequest store call ≠ .error .kAuthOk := by
  unfold checkRequest
  repeat' split
  all_goals simp

/-- An accepted call passed the stateless checks. -/
theorem exists_checked {auth : Authenticator} {store : CredentialStore} {call : SignedCall}
    (h : (auth.authenticate store call).2.1 = .kAuthOk) :
    ∃ request, checkRequest store call = .ok request := by
  rw [authenticate] at h
  split at h
  · rename_i result herror
    have hresult : result = .kAuthOk := h
    rw [hresult] at herror
    exact absurd herror (checkRequest_ne_error_ok store call)
  · exact ⟨_, ‹_›⟩

/-- Without a valid signature the method, the path and the body have no say. -/
theorem checkRequest_of_unverified {store : CredentialStore} {call : SignedCall}
    (h : ¬ SignatureVerifies store call) :
    checkRequest store call = .error (refusal store call.authorization call.clock) := by
  unfold checkRequest refusal
  cases hauthorization : call.authorization with
  | none => rfl
  | some text =>
      by_cases hempty : cstring text = []
      · simp only [if_pos hempty]
      · simp only [if_neg hempty]
        cases hheader : parseAuthHeader (some text) with
        | none => rfl
        | some header =>
            cases hid : fromHex header.id kClientIdBytes with
            | none => simp only [hid]
            | some clientId =>
                cases hnonce : fromHex header.nonce kNonceBytes with
                | none => simp only [hid, hnonce]
                | some nonce =>
                    simp only [hid, hnonce]
                    by_cases hclock : call.clock.isValid = false
                    · simp only [if_pos hclock]
                    · simp only [if_neg hclock]
                      cases hfound : store.find clientId with
                      | none => simp only [if_true]
                      | some client =>
                          have hbad : ¬ verifyRequestSignature client.secret.1 call.method
                              call.path header.ts header.nonce call.body header.sig = true :=
                            fun hverified => h ⟨header, clientId, client,
                              hauthorization ▸ hheader, hid, hfound, hverified⟩
                          simp only [if_neg hbad, reduceCtorEq, if_false]
                          split <;> rfl

theorem refusal_ne_ok (store : CredentialStore) (authorization : Option Bytes) (clock : Clock) :
    refusal store authorization clock ≠ .kAuthOk := by
  unfold refusal
  repeat' split
  all_goals simp

end Authenticator

/-- A request under `/api/` whose signature does not verify gets a reply that
depends on its `Authorization` header only, and changes nothing. -/
theorem dispatch_of_unverified {site : Site} {device : Device} {clock : Clock}
    {request : HttpRequest} (hpath : underApi request.path = true)
    (hupgrade : ¬ (request.method = ascii "GET" ∧ request.path = ascii "/api/ws"))
    (hunverified : ¬ Authenticator.SignatureVerifies device.store (signedCall request clock)) :
    dispatch site device clock request =
      (device, .error (authRefusal
        (Authenticator.refusal device.store (some request.authorization) clock))) := by
  rw [dispatch_of_underApi hpath hupgrade, Authenticator.authenticate,
    Authenticator.checkRequest_of_unverified hunverified]
  exact if_pos (Authenticator.refusal_ne_ok _ _ _)

/-- Two requests under `/api/` with one `Authorization` header, neither with a valid
signature, get the same error reply, whatever routes they match.  Their bodies need not
even be the same. -/
theorem unsigned_requests_alike (site : Site) (device : Device) (clock : Clock)
    (first second : HttpRequest)
    (hauthorization : first.authorization = second.authorization)
    (hfirst : underApi first.path = true) (hsecond : underApi second.path = true)
    (hfirstUpgrade : ¬ (first.method = ascii "GET" ∧ first.path = ascii "/api/ws"))
    (hsecondUpgrade : ¬ (second.method = ascii "GET" ∧ second.path = ascii "/api/ws"))
    (hfirstSig : ¬ Authenticator.SignatureVerifies device.store (signedCall first clock))
    (hsecondSig : ¬ Authenticator.SignatureVerifies device.store (signedCall second clock)) :
    ∃ reply, dispatch site device clock first = (device, .error reply) ∧
      dispatch site device clock second = (device, .error reply) := by
  refine ⟨_, dispatch_of_unverified hfirst hfirstUpgrade hfirstSig, ?_⟩
  rw [dispatch_of_unverified hsecond hsecondUpgrade hsecondSig, hauthorization]

/-- A board that serves no files. -/
def plainSite : Site := ⟨false, false, true, fun _ => none⟩

/-- A request whose `Authorization` header cannot be read. -/
def garbled (method path : Bytes) : HttpRequest :=
  { HttpRequest.zero with
    method := method
    target := path
    path := path
    authorization := ascii "HMAC id=" }

theorem garbled_unverified (store : CredentialStore) (clock : Clock) (method path : Bytes) :
    ¬ Authenticator.SignatureVerifies store (signedCall (garbled method path) clock) := by
  rintro ⟨header, _, _, hheader, _⟩
  have hnone : parseAuthHeader (some (ascii "HMAC id=")) = none := by decide
  rw [signedCall, garbled, hnone] at hheader
  cases hheader

/-- A route that exists and one that does not. -/
theorem unsigned_requests_alike_garbled :
    ∃ reply,
      dispatch plainSite (Device.boot Device.onePaired) ⟨true, 0⟩
          (garbled (ascii "GET") (ascii "/api/status")) =
        (Device.boot Device.onePaired, .error reply) ∧
      dispatch plainSite (Device.boot Device.onePaired) ⟨true, 0⟩
          (garbled (ascii "DELETE") (ascii "/api/nothing")) =
        (Device.boot Device.onePaired, .error reply) :=
  unsigned_requests_alike plainSite (Device.boot Device.onePaired) ⟨true, 0⟩
    (garbled (ascii "GET") (ascii "/api/status"))
    (garbled (ascii "DELETE") (ascii "/api/nothing"))
    rfl rfl rfl (by decide) (by decide) (garbled_unverified _ _ _ _) (garbled_unverified _ _ _ _)

end MatrixFaces.Api
