import MatrixFaces.Foundation.Bytes

set_option autoImplicit false

/-!
# Requests and error responses (`src/api/http_request.h`, `src/api/http_request.cpp`)

What a handler is given, and what it sends back when it refuses.  The sizes of the buffers are
here as well; a text in one of them has room for its terminator.
-/

namespace MatrixFaces.Api

open MatrixFaces.Foundation

/-- `HttpRequest`: its strings by the characters they hold, its body by `bodyLen` bytes. -/
structure HttpRequest where
  method : Bytes
  target : Bytes
  path : Bytes
  authorization : Bytes
  websocketKey : Bytes
  body : Bytes
  deriving DecidableEq, Repr

namespace HttpRequest

def kMethodCap : Nat := 8
def kTargetCap : Nat := 96
def kAuthorizationCap : Nat := 192
def kBodyCap : Nat := 256
def kWebSocketKeyCap : Nat := 32

/-- The request after `memset`. -/
def zero : HttpRequest := ⟨[], [], [], [], [], []⟩

end HttpRequest

/-- The arguments of `sendErrorResponse`. -/
structure ErrorReply where
  statusCode : Nat
  statusText : String
  errorCode : String
  deriving DecidableEq, Repr

def crlf : Bytes := [0x0D, 0x0A]

/-- What `sendJsonResponse` writes. -/
def sendJsonResponse (statusCode : Nat) (statusText : String) (json : Bytes) : Bytes :=
  ascii "HTTP/1.1 " ++ ascii (toString statusCode) ++ ascii " " ++ ascii statusText ++ crlf ++
    ascii "Content-Type: application/json" ++ crlf ++
    ascii "Content-Length: " ++ ascii (toString json.length) ++ crlf ++
    ascii "Cache-Control: no-store" ++ crlf ++
    ascii "Connection: close" ++ crlf ++ crlf ++ json

/-- What `sendErrorResponse` writes; its buffer keeps 95 characters of the document. -/
def sendErrorResponse (reply : ErrorReply) : Bytes :=
  sendJsonResponse reply.statusCode reply.statusText
    ((ascii "\x7b\"error\":\"" ++ ascii reply.errorCode ++ ascii "\"\x7d").take 95)

end MatrixFaces.Api
