import Mathlib.Data.List.Nodup
import Mathlib.Data.List.Perm.Subperm
import MatrixFaces.Foundation.EvictingRing
import MatrixFaces.Foundation.ReplayWindow
import MatrixFaces.ApiAuth.RequestSig
import MatrixFaces.Api.CredentialStore

set_option autoImplicit false

/-!
# Request authentication (`src/api/authenticator.cpp`)

`authenticate` is split where it first reads replay state: `checkRequest` is the
part that depends on the request, the store and the clock only, `acceptRequest` the part
that reads and writes the nonce ring and the marks.

The store decides who signs and the clock what is fresh.  A `SignedCall` has the arguments of
one call; a `Request` is what the replay state sees of it: the client, the timestamp and the
nonce.

`Passes` says in one place what a request has to be for `checkRequest` to hand it on; that it
does then, and only then, is `checkRequest_of_passes` and `exists_passes`.  `Api.ReplayHistory`
is about the other half.
-/

namespace MatrixFaces.Api

open MatrixFaces.Foundation
open MatrixFaces.ApiAuth

/-- `AuthResult`. -/
inductive AuthResult where
  | kAuthOk
  | kAuthMissingHeader
  | kAuthMalformedHeader
  | kAuthUnknownClient
  | kAuthClockUnavailable
  | kAuthStaleTimestamp
  | kAuthReplay
  | kAuthBadSignature
  deriving DecidableEq, Repr

/-- What `TimeSource` answers during one call. -/
structure Clock where
  isValid : Bool
  now : UInt32
  deriving DecidableEq, Repr

/-- The arguments of one call; `authorization` is `none` for a null pointer. -/
structure SignedCall where
  authorization : Option Bytes
  method : Bytes
  path : Bytes
  body : Bytes
  clock : Clock
  deriving DecidableEq, Repr

/-- A request as the replay state sees it. -/
abbrev Request := ReplayWindow.Served ClientId Nonce UInt32

structure NonceEntry where
  clientId : ClientId
  nonce : Nonce
  timestamp : UInt32
  used : Bool
  deriving DecidableEq, Repr

structure HighWaterMark where
  clientId : ClientId
  timestamp : UInt32
  used : Bool
  deriving DecidableEq, Repr

def NonceEntry.zero : NonceEntry := ⟨Block.zero _, Block.zero _, 0, false⟩

def HighWaterMark.zero : HighWaterMark := ⟨Block.zero _, 0, false⟩

def kNonceCacheSize : Nat := 24

def kMaxSkewSeconds : UInt32 := 60

/-- `Authenticator`, without the references it holds. -/
structure Authenticator where
  nonces : EvictingRing NonceEntry kNonceCacheSize
  marks : List HighWaterMark
  marks_length : marks.length = kMaxClients

namespace Authenticator

/-- The authenticator at boot. -/
def initial : Authenticator where
  nonces := EvictingRing.fill kNonceCacheSize (by decide) NonceEntry.zero
  marks := List.replicate kMaxClients HighWaterMark.zero
  marks_length := List.length_replicate

/-- `nonceSeen`. -/
def nonceSeen (auth : Authenticator) (clientId : ClientId) (nonce : Nonce) : Bool :=
  auth.nonces.slots.any fun entry =>
    entry.used && entry.clientId == clientId && entry.nonce == nonce

/-- `rememberNonce`. -/
def rememberNonce (auth : Authenticator) (request : Request) : Authenticator :=
  { auth with
    nonces := auth.nonces.write ⟨request.client, request.nonce, request.timestamp, true⟩ }

/-- `highWaterMark`: the client's mark, else the first unused one; `none` is the
null pointer. -/
def highWaterMark (auth : Authenticator) (clientId : ClientId) : Option (Fin auth.marks.length) :=
  match auth.marks.findFinIdx? fun mark => mark.used && mark.clientId == clientId with
  | some i => some i
  | none => auth.marks.findFinIdx? fun mark => !mark.used

/-- The update of the mark at the end of `authenticate`. -/
def raiseMark (auth : Authenticator) (i : Fin auth.marks.length) (request : Request) :
    Authenticator :=
  let mark := auth.marks.get i
  { auth with
    marks := auth.marks.set i
      { clientId := request.client
        timestamp := if !mark.used || request.timestamp > mark.timestamp then request.timestamp
          else mark.timestamp
        used := true }
    marks_length := by rw [List.length_set, auth.marks_length] }

/-- The mark refuses the request as older than one already served. -/
def isOlder (auth : Authenticator) (request : Request) : Bool :=
  match auth.highWaterMark request.client with
  | none => false
  | some i => (auth.marks.get i).used && request.timestamp < (auth.marks.get i).timestamp

/-- `authenticate` from the first read of replay state on. -/
def acceptRequest (auth : Authenticator) (request : Request) : Authenticator × AuthResult :=
  if auth.isOlder request then (auth, .kAuthReplay)
  else if auth.nonceSeen request.client request.nonce then (auth, .kAuthReplay)
  else
    match auth.highWaterMark request.client with
    | none => (auth.rememberNonce request, .kAuthOk)
    | some i => ((auth.rememberNonce request).raiseMark i request, .kAuthOk)

/-- Seconds between the board's clock and a timestamp. -/
def skew (now timestamp : UInt32) : UInt32 :=
  if now > timestamp then now - timestamp else timestamp - now

/-- `authenticate` up to the first read of replay state. -/
def checkRequest (store : CredentialStore) (call : SignedCall) : Except AuthResult Request :=
  match call.authorization with
  | none => .error .kAuthMissingHeader
  | some authorization =>
      if cstring authorization = [] then .error .kAuthMissingHeader
      else
        match parseAuthHeader (some authorization) with
        | none => .error .kAuthMalformedHeader
        | some header =>
            match fromHex header.id kClientIdBytes, fromHex header.nonce kNonceBytes with
            | some clientId, some nonce =>
                if call.clock.isValid = false then .error .kAuthClockUnavailable
                else
                  match store.find clientId with
                  | none => .error .kAuthUnknownClient
                  | some client =>
                      if skew call.clock.now header.timestamp > kMaxSkewSeconds then
                        .error .kAuthStaleTimestamp
                      else if verifyRequestSignature client.secret.1 call.method call.path
                          header.ts header.nonce call.body header.sig then
                        .ok ⟨clientId, nonce, header.timestamp⟩
                      else .error .kAuthBadSignature
            | _, _ => .error .kAuthMalformedHeader

/-- A header, store and clock with which a call passes the stateless checks. -/
structure Passes (store : CredentialStore) (call : SignedCall) (header : AuthHeader)
    (client : StoredClient) (request : Request) : Prop where
  parsed : parseAuthHeader call.authorization = some header
  id : fromHex header.id kClientIdBytes = some request.client
  nonce : fromHex header.nonce kNonceBytes = some request.nonce
  timestamp : header.timestamp = request.timestamp
  clock : call.clock.isValid = true
  found : store.find request.client = some client
  recent : skew call.clock.now header.timestamp ≤ kMaxSkewSeconds
  verified : verifyRequestSignature client.secret.1 call.method call.path header.ts header.nonce
    call.body header.sig = true

theorem exists_passes {store : CredentialStore} {call : SignedCall} {request : Request}
    (h : checkRequest store call = .ok request) :
    ∃ header client, Passes store call header client request := by
  rw [checkRequest] at h
  split at h
  · cases h
  · rename_i authorization hauthorization
    split at h
    · cases h
    · split at h
      · cases h
      · rename_i header hparsed
        split at h
        · rename_i id nonce hid hnonce
          split at h
          · cases h
          · rename_i hclock
            split at h
            · cases h
            · rename_i client hfound
              split at h
              · cases h
              · rename_i hrecent
                split at h
                · rename_i hverified
                  cases h
                  exact ⟨header, client, ⟨hauthorization ▸ hparsed, hid, hnonce, rfl,
                    by simpa using hclock, hfound, UInt32.not_lt.mp hrecent, hverified⟩⟩
                · cases h
        · cases h

theorem checkRequest_of_passes {store : CredentialStore} {call : SignedCall} {header : AuthHeader}
    {client : StoredClient} {request : Request} (h : Passes store call header client request) :
    checkRequest store call = .ok request := by
  rw [checkRequest]
  cases hauthorization : call.authorization with
  | none =>
      have hparsed := h.parsed
      rw [hauthorization] at hparsed
      cases hparsed
  | some authorization =>
      have hparsed := h.parsed
      rw [hauthorization] at hparsed
      have hne : cstring authorization ≠ [] := by
        intro hempty
        rw [parseAuthHeader] at hparsed
        simp only [hempty] at hparsed
        rw [if_pos (by decide)] at hparsed
        cases hparsed
      have hclock : ¬ call.clock.isValid = false := by rw [h.clock]; simp
      have hrecent := UInt32.not_lt.mpr h.recent
      rw [h.timestamp] at hrecent
      simp only [if_neg hne, hparsed, h.id, h.nonce, if_neg hclock, h.found, gt_iff_lt,
        if_neg hrecent, h.verified, if_true, h.timestamp]

/-- `Authenticator::authenticate`, with the client id it writes on success. -/
def authenticate (auth : Authenticator) (store : CredentialStore) (call : SignedCall) :
    Authenticator × AuthResult × Option ClientId :=
  match checkRequest store call with
  | .error result => (auth, result, none)
  | .ok request =>
      let (next, result) := auth.acceptRequest request
      (next, result, if result = .kAuthOk then some request.client else none)

/-- `Authenticator::forget`. -/
def forget (auth : Authenticator) (id : ClientId) : Authenticator where
  nonces := auth.nonces.map fun entry =>
    if entry.used = true ∧ entry.clientId = id then { entry with used := false } else entry
  marks := auth.marks.map fun mark =>
    if mark.used = true ∧ mark.clientId = id then { mark with used := false } else mark
  marks_length := by rw [List.length_map, auth.marks_length]

/-- `Authenticator::forgetAll`. -/
def forgetAll (_ : Authenticator) : Authenticator := initial

end Authenticator

end MatrixFaces.Api
