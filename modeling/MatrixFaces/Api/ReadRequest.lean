import MatrixFaces.Api.HttpRequest
import MatrixFaces.Foundation.CText
import MatrixFaces.Net.StreamRead

set_option autoImplicit false

/-!
# Reading a request off a socket (`src/api/http_request.cpp`)

The whole of `readHttpRequest`: the request line and its split at blanks, the header lines up to
the empty one, and the body, each through the readers of `Net.StreamRead`.  Lines go through a
window of `kLineCap` bytes, and what does not fit it is dropped.

The client is any (`Client σ`), so the runs in time (`Api.RequestBudget`), with a log
(`Api.FaithfulRequest`) and against a script (`Api.RequestDelivery`) are of this one function.
-/

namespace MatrixFaces.Api

open MatrixFaces.Foundation
open MatrixFaces.Net

/-- `HttpReadStatus`, without `kHttpOk`. -/
inductive HttpReadStatus where
  | kHttpTimeout
  | kHttpMalformed
  | kHttpTargetTooLong
  | kHttpHeaderTooLong
  | kHttpBodyTooLarge
  deriving DecidableEq, Repr

def kReadTimeoutMs : UInt32 := 4000
def kLineCap : Nat := 256
def kMaxHeaders : Nat := 40
def kDrainTimeoutMs : UInt32 := 200

/-! ## One header line -/

/-- A letter in lower case, as `equalsIgnoringCase` folds it. -/
def lowerCase (c : Byte) : Byte := if 0x41 ≤ c ∧ c ≤ 0x5A then c - 0x41 + 0x61 else c

/-- `equalsIgnoringCase`. -/
def equalsIgnoringCase (a b : Bytes) (len : Nat) : Bool :=
  (a.take len).map lowerCase == (b.take len).map lowerCase

def isHeaderBlank (c : Byte) : Bool := c = chSpace || c = chTab

/-- `headerValue`; `none` is the null pointer. -/
def headerValue (line name : Bytes) : Option Bytes :=
  if line.length < name.length + 1 then none
  else if equalsIgnoringCase line name name.length = false then none
  else if (line)[name.length]? ≠ some chColon then none
  else some ((line.drop (name.length + 1)).dropWhile isHeaderBlank)

def authorizationName : Bytes := ascii "authorization"
def websocketKeyName : Bytes := ascii "sec-websocket-key"
def contentLengthName : Bytes := ascii "content-length"

/-- What the header lines left in the request, and `authorizationTruncated`. -/
structure HeaderFields where
  authorization : Bytes
  websocketKey : Bytes
  contentLength : Nat
  authorizationTruncated : Bool
  deriving DecidableEq, Repr

def HeaderFields.zero : HeaderFields := ⟨[], [], 0, false⟩

/-- The loop over the characters of a `Content-Length`.  `parsed` is checked at every
digit, long before 32 bits are full. -/
def parseContentLength : Nat → Bytes → Except HttpReadStatus Nat
  | parsed, [] => .ok parsed
  | parsed, c :: rest =>
      if isDigit c = false then .error .kHttpMalformed
      else if parsed * 10 + (c.toNat - 0x30) > 1000000 then .error .kHttpBodyTooLarge
      else parseContentLength (parsed * 10 + (c.toNat - 0x30)) rest

/-- The body of the header loop, on a line that was read and does not end the headers. -/
def acceptHeader (fields : HeaderFields) (status : LineStatus) (line : Bytes) :
    Except HttpReadStatus HeaderFields :=
  if status = .kTruncated then
    if (headerValue line authorizationName).isSome then
      .ok { fields with authorizationTruncated := true }
    else .ok fields
  else
    match headerValue line authorizationName with
    | some value =>
        if value.length ≥ HttpRequest.kAuthorizationCap then
          .ok { fields with authorizationTruncated := true }
        else .ok { fields with authorization := value }
    | none =>
        match headerValue line websocketKeyName with
        | some value =>
            if value.length ≥ HttpRequest.kWebSocketKeyCap then .ok fields
            else .ok { fields with websocketKey := value }
        | none =>
            match headerValue line contentLengthName with
            | some value =>
                (parseContentLength 0 value).map fun parsed =>
                  { fields with contentLength := parsed }
            | none => .ok fields

/-! ## The request line -/

/-- `strchr` for a space: what is in front of it and what is behind it. -/
def splitAtSpace (text : Bytes) : Option (Bytes × Bytes) :=
  match text.dropWhile (· != chSpace) with
  | [] => none
  | _ :: rest => some (text.takeWhile (· != chSpace), rest)

/-- The method and the target of a request line. -/
def parseRequestLine (line : Bytes) : Except HttpReadStatus (Bytes × Bytes) :=
  match splitAtSpace line with
  | none => .error .kHttpMalformed
  | some (method, rest) =>
      if method.length ≥ HttpRequest.kMethodCap then .error .kHttpMalformed
      else
        match splitAtSpace rest with
        | none => .error .kHttpMalformed
        | some (target, _) =>
            if target.length ≥ HttpRequest.kTargetCap then .error .kHttpTargetTooLong
            else .ok (method, target)

def chQuery : Byte := 0x3F

/-- The part of a target that routing sees. -/
def pathOf (target : Bytes) : Bytes := target.takeWhile (· != chQuery)

/-! ## The whole request -/

section

variable {σ : Type}

/-- The header loop, with `remaining` lines to go before `kMaxHeaders`. -/
def readHeaders (client : Client σ) (fuel : Nat) :
    Nat → HeaderFields → σ → Option (Except HttpReadStatus HeaderFields × σ)
  | 0, _, state => some (.error .kHttpHeaderTooLong, state)
  | remaining + 1, fields, state =>
      match readLine client kLineCap kReadTimeoutMs fuel state with
      | none => none
      | some ((status, line), state) =>
          if status = .kTimeout then some (.error .kHttpTimeout, state)
          else if line.length = 0 ∧ status = .kOk then some (.ok fields, state)
          else
            match acceptHeader fields status (cstring line) with
            | .error status => some (.error status, state)
            | .ok fields => readHeaders client fuel remaining fields state

/-- `readHttpRequest` behind the headers. -/
def readBody (client : Client σ) (fuel : Nat) (method target : Bytes) (fields : HeaderFields)
    (state : σ) : Option (Except HttpReadStatus HttpRequest × σ) :=
  if fields.authorizationTruncated = true then some (.error .kHttpHeaderTooLong, state)
  else if fields.contentLength > HttpRequest.kBodyCap then some (.error .kHttpBodyTooLarge, state)
  else
    match readExactly client fields.contentLength kReadTimeoutMs fuel state with
    | none => none
    | some (none, state) => some (.error .kHttpTimeout, state)
    | some (some body, state) =>
        (drainBuffered client kDrainTimeoutMs fuel state).map fun state =>
          (.ok ⟨method, target, pathOf target, fields.authorization, fields.websocketKey, body⟩,
            state)

/-- `readHttpRequest`. -/
def readHttpRequest (client : Client σ) (fuel : Nat) (state : σ) :
    Option (Except HttpReadStatus HttpRequest × σ) :=
  match readLine client kLineCap kReadTimeoutMs fuel state with
  | none => none
  | some ((status, line), state) =>
      if status = .kTimeout then some (.error .kHttpTimeout, state)
      else if status = .kTruncated then some (.error .kHttpTargetTooLong, state)
      else
        match parseRequestLine (cstring line) with
        | .error status => some (.error status, state)
        | .ok (method, target) =>
            match readHeaders client fuel kMaxHeaders .zero state with
            | none => none
            | some (.error status, state) => some (.error status, state)
            | some (.ok fields, state) => readBody client fuel method target fields state

end

end MatrixFaces.Api
