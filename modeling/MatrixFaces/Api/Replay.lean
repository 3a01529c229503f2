import MatrixFaces.Api.ReplayHistory

set_option autoImplicit false

/-!
# Replays over whole runs

The store and the authenticator together, under every operation that changes
them: signed requests, forgetting, pairing, revocation and factory reset.

The main result is `served_twice_needs_rollover`.  Two accepted requests of one client with
one timestamp and nonce have at least `kNonceCacheSize` other accepted requests between them,
none of which is a later one of this client, unless the client was forgotten in between.  It
follows from `Api.ReplayHistory`: the ring and the marks answer as a history of everything
that was served does, cut off at the ring's length.

`capture_served_twice` shows that this is as far as it goes: after 24 requests in the same
second a copy is accepted.
-/

namespace MatrixFaces.Api

open MatrixFaces.Foundation
open MatrixFaces.Foundation.ReplayWindow
open MatrixFaces.ApiAuth

/-- The credential store and the replay state of one board. -/
structure Device where
  store : CredentialStore
  auth : Authenticator

/-- An operation on the two. -/
inductive Op where
  /-- One call of `authenticate`. -/
  | authenticate (call : SignedCall)
  | forget (id : ClientId)
  | forgetAll
  /-- `handlePair` adding a client under an id it found unused. -/
  | pair (client : StoredClient)
  /-- `handleRevokeClient`. -/
  | revoke (id : ClientId)
  /-- The factory reset of `netTick`. -/
  | factoryReset

/-- The operation drops what is remembered about the client. -/
def Op.Forgets (id : ClientId) : Op → Prop
  | .authenticate _ | .pair _ => False
  | .forget other | .revoke other => other = id
  | .forgetAll | .factoryReset => True

namespace Device

/-- A board after `begin()` loaded this store. -/
def boot (store : CredentialStore) : Device := ⟨store, Authenticator.initial⟩

/-- The board after one operation. -/
def apply (device : Device) : Op → Device
  | .authenticate call => { device with auth := (device.auth.authenticate device.store call).1 }
  | .forget id => { device with auth := device.auth.forget id }
  | .forgetAll => { device with auth := device.auth.forgetAll }
  | .pair client =>
      match device.store.find client.id, device.store.add client with
      | none, some store => { device with store := store }
      | _, _ => device
  | .revoke id =>
      match device.store.remove id with
      | none => device
      | some store => ⟨store, device.auth.forget id⟩
  | .factoryReset =>
      match device.store.clear with
      | none => device
      | some store => ⟨store, device.auth.forgetAll⟩

/-- The board after a list of operations, oldest first. -/
def run (device : Device) (ops : List Op) : Device := ops.foldl apply device

/-- The request a call gets served, when `authenticate` answers `kAuthOk`. -/
def serves (device : Device) (call : SignedCall) : Option Request :=
  match (device.auth.authenticate device.store call).2.1,
      Authenticator.checkRequest device.store call with
  | .kAuthOk, .ok request => some request
  | _, _ => none

/-- The requests served by a list of operations, oldest first. -/
def accepted (device : Device) : List Op → List Request
  | [] => []
  | .authenticate call :: rest =>
      (device.serves call).toList ++ accepted (device.apply (.authenticate call)) rest
  | op :: rest => accepted (device.apply op) rest

/-! ## The run as a history -/

/-- What an operation does to the history. -/
def events (device : Device) : Op → List (Event ClientId Nonce UInt32)
  | .authenticate call => (device.serves call).toList.map Event.serve
  | .forget id => [.forget id]
  | .forgetAll => [.forgetAll]
  | .pair _ => []
  | .revoke id => if (device.store.remove id).isSome then [.forget id] else []
  | .factoryReset => if device.store.clear.isSome then [.forgetAll] else []

/-- What a list of operations does to the history. -/
def eventsOf (device : Device) : List Op → List (Event ClientId Nonce UInt32)
  | [] => []
  | op :: rest => device.events op ++ eventsOf (device.apply op) rest

theorem serves_eq_some_iff {device : Device} {call : SignedCall} {request : Request} :
    device.serves call = some request ↔
      Authenticator.checkRequest device.store call = .ok request ∧
        (device.auth.acceptRequest request).2 = .kAuthOk := by
  rw [serves, Authenticator.authenticate]
  cases hcheck : Authenticator.checkRequest device.store call with
  | error result => simp
  | ok checked =>
      by_cases hok : (device.auth.acceptRequest checked).2 = .kAuthOk
      · simp only [hok, Option.some.injEq, Except.ok.injEq]
        exact ⟨fun h => ⟨h, h ▸ hok⟩, fun h => h.1⟩
      · have hnone : ∀ result : AuthResult, result ≠ .kAuthOk →
            (match result, (Except.ok checked : Except AuthResult Request) with
              | .kAuthOk, .ok request => some request
              | _, _ => none) = none := by
          intro result hne
          cases result <;> first | rfl | exact absurd rfl hne
        simp only [hnone _ hok, Except.ok.injEq]
        simp only [reduceCtorEq, false_iff, not_and]
        rintro rfl
        exact hok

/-- A request that passes the stateless checks comes from a paired client. -/
theorem mem_ids_of_checkRequest {store : CredentialStore} {call : SignedCall} {request : Request}
    (h : Authenticator.checkRequest store call = .ok request) : request.client ∈ store.ids := by
  obtain ⟨_, _, hpasses⟩ := Authenticator.exists_passes h
  exact CredentialStore.mem_ids_of_find hpasses.found

theorem apply_of_serves {device : Device} {call : SignedCall} {request : Request}
    (h : device.serves call = some request) :
    device.apply (.authenticate call) =
      { device with auth := (device.auth.acceptRequest request).1 } := by
  obtain ⟨hcheck, _⟩ := serves_eq_some_iff.mp h
  simp only [apply, Authenticator.authenticate, hcheck]

/-- A call that is not served changes nothing. -/
theorem apply_of_not_serves {device : Device} {call : SignedCall}
    (h : device.serves call = none) : device.apply (.authenticate call) = device := by
  rw [apply, Authenticator.authenticate]
  cases hcheck : Authenticator.checkRequest device.store call with
  | error result => rfl
  | ok request =>
      have hrefused : (device.auth.acceptRequest request).2 ≠ .kAuthOk := by
        intro hok
        rw [serves_eq_some_iff.mpr ⟨hcheck, hok⟩] at h
        cases h
      have hsame : (device.auth.acceptRequest request).1 = device.auth := by
        rw [Authenticator.acceptRequest] at hrefused ⊢
        split
        · rfl
        · split
          · rfl
          · rename_i holder hseen
            rw [if_neg holder, if_neg hseen] at hrefused
            split at hrefused <;> exact absurd rfl hrefused
      simp only [hsame]

/-- One operation changes the device as its events change the history. -/
theorem remembers_apply {device : Device} {history : ServedHistory}
    (h : device.auth.Remembers device.store history) (op : Op) :
    (device.apply op).auth.Remembers (device.apply op).store
      (recordAll history (device.events op)) := by
  cases op with
  | authenticate call =>
      cases hserves : device.serves call with
      | none =>
          rw [apply_of_not_serves hserves, events, hserves]
          exact h
      | some request =>
          obtain ⟨hcheck, hok⟩ := serves_eq_some_iff.mp hserves
          rw [apply_of_serves hserves, events, hserves]
          exact h.acceptRequest (mem_ids_of_checkRequest hcheck) hok
  | forget id => exact h.forget id fun other hother _ => hother
  | forgetAll => exact Authenticator.remembers_initial device.store
  | pair client =>
      rw [apply]
      split
      · rename_i store hfind hadd
        refine h.mono fun id hid => ?_
        rw [CredentialStore.ids_add hadd]
        exact List.mem_append_left _ hid
      · exact h
  | revoke id =>
      rw [apply, events]
      cases hremove : device.store.remove id with
      | none => exact h
      | some store =>
          exact h.forget id fun other hother hne =>
            CredentialStore.mem_ids_remove hremove hne hother
  | factoryReset =>
      rw [apply, events]
      cases device.store.clear with
      | none => exact h
      | some store => exact Authenticator.remembers_initial store

theorem remembers_run {device : Device} {history : ServedHistory}
    (h : device.auth.Remembers device.store history) (ops : List Op) :
    (device.run ops).auth.Remembers (device.run ops).store
      (recordAll history (device.eventsOf ops)) := by
  induction ops generalizing device history with
  | nil => exact h
  | cons op rest ih =>
      rw [eventsOf, recordAll_append]
      exact ih (remembers_apply h op)

theorem run_append (device : Device) (left right : List Op) :
    device.run (left ++ right) = (device.run left).run right := List.foldl_append

theorem servedBy_eventsOf (device : Device) (ops : List Op) :
    servedBy (device.eventsOf ops) = device.accepted ops := by
  induction ops generalizing device with
  | nil => rfl
  | cons op rest ih =>
      have hsplit : ∀ left right : List (Event ClientId Nonce UInt32),
          servedBy (left ++ right) = servedBy left ++ servedBy right := fun left right => by
        simp [servedBy]
      rw [eventsOf, hsplit, ih]
      cases op with
      | authenticate call =>
          rw [accepted, events]
          cases device.serves call <;> rfl
      | revoke id =>
          rw [accepted, events]
          · split <;> rfl
          · simp
      | factoryReset =>
          rw [accepted, events]
          · split <;> rfl
          · simp
      | forget id => rfl
      | forgetAll => rfl
      | pair client => rfl

/-- Operations that keep a client leave its history alone. -/
theorem not_erases_of_kept {device : Device} {ops : List Op} {id : ClientId}
    (h : ∀ op ∈ ops, ¬ op.Forgets id) : ∀ event ∈ device.eventsOf ops, ¬ event.Erases id := by
  induction ops generalizing device with
  | nil => simp [eventsOf]
  | cons op rest ih =>
      intro event hevent
      rw [eventsOf, List.mem_append] at hevent
      rcases hevent with hhead | htail
      · have hop := h op List.mem_cons_self
        cases op with
        | authenticate call =>
            obtain ⟨request, _, rfl⟩ := List.mem_map.mp hhead
            exact fun hfalse => hfalse
        | pair client => cases hhead
        | forget other =>
            rw [List.mem_singleton.mp hhead]
            exact hop
        | revoke other =>
            rw [events] at hhead
            split at hhead
            · rw [List.mem_singleton.mp hhead]
              exact hop
            · cases hhead
        | forgetAll => exact absurd trivial hop
        | factoryReset => exact absurd trivial hop
      · exact ih (fun other hother => h other (List.mem_cons_of_mem _ hother)) event htail

/-- The same timestamp and nonce are served twice to a client that was not
forgotten in between only after 24 other requests were served, and then only if
none of them was a later one of this client. -/
theorem served_twice_needs_rollover (store : CredentialStore) (before between : List Op)
    (first second : SignedCall) (served replayed : Request)
    (hfirst : ((boot store).run before).serves first = some served)
    (hsecond : ((boot store).run (before ++ .authenticate first :: between)).serves second =
      some replayed)
    (hclient : served.client = replayed.client)
    (hpair : (served.timestamp, served.nonce) = (replayed.timestamp, replayed.nonce))
    (hkept : ∀ op ∈ between, ¬ op.Forgets served.client) :
    kNonceCacheSize ≤ (((boot store).run (before ++ [.authenticate first])).accepted
        between).length ∧
      ∀ request ∈ ((boot store).run (before ++ [.authenticate first])).accepted between,
        request.client = served.client → request.timestamp ≤ served.timestamp := by
  obtain ⟨htime, hnonce⟩ := Prod.mk.inj hpair
  obtain ⟨hcheck, hok⟩ := serves_eq_some_iff.mp hfirst
  obtain ⟨hcheckAgain, hokAgain⟩ := serves_eq_some_iff.mp hsecond
  have hboot : (boot store).auth.Remembers (boot store).store [] :=
    Authenticator.remembers_initial store
  have hstart := (remembers_run hboot before).acceptRequest (mem_ids_of_checkRequest hcheck) hok
  have hmiddle : (boot store).run (before ++ [.authenticate first]) =
      { (boot store).run before with
        auth := (((boot store).run before).auth.acceptRequest served).1 } := by
    rw [run_append, ← apply_of_serves hfirst]
    rfl
  have hend : (boot store).run (before ++ .authenticate first :: between) =
      ((boot store).run (before ++ [.authenticate first])).run between := by
    rw [← run_append, List.append_assoc]
    rfl
  rw [hend] at hcheckAgain hokAgain
  rw [hmiddle] at hcheckAgain hokAgain ⊢
  have hadmits := (Authenticator.acceptRequest_ok_iff (remembers_run hstart between)
    (mem_ids_of_checkRequest hcheckAgain)).mp hokAgain
  obtain ⟨hlength, hlater⟩ := rolled_over_of_admits hadmits hclient hnonce
    (not_erases_of_kept hkept)
  rw [servedBy_eventsOf] at hlength hlater
  exact ⟨hlength, fun request hrequest hsame => htime ▸ hlater request hrequest hsame⟩

/-! ## A capture that outlives the window -/

/-- A client with an all-zero id and secret. -/
def pairedClient : StoredClient := ⟨Block.zero _, Block.zero _, 0⟩

/-- A board that knows this client only. -/
def onePaired : CredentialStore := ⟨[pairedClient], by decide⟩

def numbered (i : Nat) : Nonce := ⟨[0, 0, 0, 0, 0, 0, 0, UInt8.ofNat i], rfl⟩

/-- `GET /api/status` signed by the client at one fixed second. -/
def statusCall (nonce : Nonce) : SignedCall where
  authorization := (signRequest pairedClient.secret.1 (ascii "GET") (ascii "/api/status")
      (ascii "1700000000") (toHex nonce.1) []).map fun signature =>
    formatAuthHeader
      { id := toHex pairedClient.id.1
        nonce := toHex nonce.1
        sig := toHex signature.1
        ts := ascii "1700000000"
        timestamp := 1700000000 }
  method := ascii "GET"
  path := ascii "/api/status"
  body := []
  clock := ⟨true, 1700000000⟩

def statusRequest (nonce : Nonce) : Request := ⟨pairedClient.id, nonce, 1700000000⟩

/-- The `Authorization` header of a call without a body, signed by the client at that second. -/
def signedHeader (method path : Bytes) (nonce : Nonce) : Option Bytes :=
  (signRequest pairedClient.secret.1 method path (ascii "1700000000") (toHex nonce.1) []).map
    fun signature =>
      formatAuthHeader
        { id := toHex pairedClient.id.1
          nonce := toHex nonce.1
          sig := toHex signature.1
          ts := ascii "1700000000"
          timestamp := 1700000000 }

/-- A call signed that way passes the stateless checks in that second. -/
theorem checkRequest_signed {method path : Bytes} (nonce : Nonce)
    (hzero : (0 : Byte) ∉ method ++ path ++ ascii "1700000000")
    (hfits : (method ++ path).length + 94 < kCanonicalRequestMax) :
    Authenticator.checkRequest onePaired
        ⟨signedHeader method path nonce, method, path, [], ⟨true, 1700000000⟩⟩ =
      .ok (statusRequest nonce) := by
  have hlength : (toHex nonce.1).length = 16 := by simp [kNonceBytes]
  obtain ⟨signature, hsignature⟩ := Option.isSome_iff_exists.mp
    (signRequest_of_fits pairedClient.secret.1 method path (ascii "1700000000") (toHex nonce.1) []
      (by
        rw [List.mem_append]
        exact not_or.mpr ⟨hzero, zero_not_mem_toHex nonce.1⟩)
      (by
        have hts : (ascii "1700000000").length = 10 := rfl
        rw [List.length_append, List.length_append, hlength, hts]
        omega))
  have hfound : onePaired.find pairedClient.id = some pairedClient := by decide
  have hrecent : Authenticator.skew 1700000000 1700000000 ≤ kMaxSkewSeconds := by decide
  have hts : takeTimestamp (ascii "1700000000") = some (ascii "1700000000", 1700000000) := by
    decide
  suffices hpasses : Authenticator.Passes onePaired
      ⟨signedHeader method path nonce, method, path, [], ⟨true, 1700000000⟩⟩
      { id := toHex pairedClient.id.1
        nonce := toHex nonce.1
        sig := toHex signature.1
        ts := ascii "1700000000"
        timestamp := 1700000000 } pairedClient (statusRequest nonce) from
    Authenticator.checkRequest_of_passes hpasses
  refine ⟨?_, fromHex_toHex _, fromHex_toHex _, rfl, rfl, hfound, hrecent,
    verifyRequestSignature_signRequest hsignature⟩
  simp only [signedHeader, hsignature, Option.map_some]
  exact parseAuthHeader_formatAuthHeader ⟨takeHexValue_toHex _, takeHexValue_toHex _,
    takeHexValue_toHex _, hts⟩

theorem checkRequest_statusCall (nonce : Nonce) :
    Authenticator.checkRequest onePaired (statusCall nonce) = .ok (statusRequest nonce) :=
  checkRequest_signed nonce (by decide) (by decide)

/-- Status calls run through `acceptRequest` alone. -/
theorem run_statusCalls (auth : Authenticator) (nonces : List Nonce) :
    run ⟨onePaired, auth⟩ (nonces.map fun nonce => .authenticate (statusCall nonce)) =
      ⟨onePaired,
        nonces.foldl (fun auth nonce => (auth.acceptRequest (statusRequest nonce)).1) auth⟩ := by
  induction nonces generalizing auth with
  | nil => rfl
  | cons nonce rest ih =>
      rw [List.map_cons, List.foldl_cons, ← ih, run, List.foldl_cons, apply,
        Authenticator.authenticate, checkRequest_statusCall]
      rfl

/-- Twenty-four calls with nonces of their own, all in the same second. -/
def otherCalls : List Op :=
  ((List.range 24).map fun i => numbered (i + 1)).map fun nonce => .authenticate (statusCall nonce)

theorem first_call_served :
    (boot onePaired).serves (statusCall (numbered 0)) = some (statusRequest (numbered 0)) :=
  serves_eq_some_iff.mpr ⟨checkRequest_statusCall _, by decide⟩

theorem captured_call_served :
    ((boot onePaired).run (.authenticate (statusCall (numbered 0)) :: otherCalls)).serves
      (statusCall (numbered 0)) = some (statusRequest (numbered 0)) := by
  have hrun := run_statusCalls Authenticator.initial
    (numbered 0 :: (List.range 24).map fun i => numbered (i + 1))
  rw [List.map_cons] at hrun
  rw [boot, otherCalls, hrun, serves_eq_some_iff]
  exact ⟨checkRequest_statusCall _, by decide +kernel⟩

theorem otherCalls_keep : ∀ op ∈ otherCalls, ¬ op.Forgets pairedClient.id := by
  intro op hop
  obtain ⟨nonce, _, rfl⟩ := List.mem_map.mp hop
  exact fun hfalse => hfalse

/-- One capture, served a second time after 24 other requests. -/
theorem capture_served_twice :
    (boot onePaired).serves (statusCall (numbered 0)) = some (statusRequest (numbered 0)) ∧
      ((boot onePaired).run (.authenticate (statusCall (numbered 0)) :: otherCalls)).serves
        (statusCall (numbered 0)) = some (statusRequest (numbered 0)) ∧
      ∀ op ∈ otherCalls, ¬ op.Forgets (statusRequest (numbered 0)).client :=
  ⟨first_call_served, captured_call_served, otherCalls_keep⟩

/-- The bound is attained by that run. -/
theorem served_twice_needs_rollover_attained :
    kNonceCacheSize ≤ (((boot onePaired).run [.authenticate (statusCall (numbered 0))]).accepted
      otherCalls).length :=
  (served_twice_needs_rollover onePaired [] otherCalls (statusCall (numbered 0))
    (statusCall (numbered 0)) (statusRequest (numbered 0)) (statusRequest (numbered 0))
    first_call_served captured_call_served rfl rfl otherCalls_keep).1

end Device

end MatrixFaces.Api
