import Mathlib.Data.List.Induction
import MatrixFaces.Api.WebSocket
import MatrixFaces.Foundation.Framing

set_option autoImplicit false

/-!
# One WebSocket connection (`src/api/ws_hub.cpp`)

What `poll` does to the entry of a peer that stays connected: it moves what has
arrived into the buffer, closes on a full buffer, and takes frames off the front.
The terminator written behind a payload for the handler is put back before the
next frame is looked at, so it is not part of the buffer here.

`readFrame` is a verdict in the sense of `Foundation.Framing`: wait, stop, or a frame and its
length.  That bytes behind it change no verdict is `readFrame_append`, so `framing` is an
instance and what is read depends on the stream alone.

`Session` is one connection under `poll`s; `poll_ofDrain` says that as long as the
buffer does not fill up, polling piece by piece is draining the whole stream.

`readFrame` is a verdict in the sense of `Foundation.Framing`: wait, stop, or a frame and its
length.  That bytes behind it change no verdict is `readFrame_append`, so `framing` is an
instance and what is read depends on the stream alone.

`Session` is one connection under `poll`s; `poll_ofDrain` says that as long as the buffer does
not fill up, polling piece by piece is draining the whole stream.
-/

namespace MatrixFaces.Api

open MatrixFaces.Foundation

namespace WsHub

def kInboundCap : Nat := 256

def kCloseNormal : Nat := 1000
def kCloseProtocolError : Nat := 1002
def kCloseTooBig : Nat := 1009

/-- What one frame made the hub do. -/
inductive Effect where
  /-- The handler was called with this payload. -/
  | message (payload : Bytes)
  /-- A pong with this payload was written. -/
  | pong (payload : Bytes)
  | ignored
  /-- A close frame with this code was written and the entry freed. -/
  | closed (code : Nat)
  deriving DecidableEq, Repr

/-- The payload handed to the handler. -/
def Effect.message? : Effect → Option Bytes
  | .message payload => some payload
  | _ => none

/-- The `switch` of `drainFrames`.  It has no default, so a reserved opcode falls
through to the shift behind it. -/
def dispatch (opcode : Byte) (payload : Bytes) (total : Nat) : Verdict Effect :=
  if opcode = Ws.kText then .frame (.message payload) total
  else if opcode = Ws.kPing then .frame (.pong payload) total
  else if opcode = Ws.kClose then .stop (.closed kCloseNormal)
  else if opcode = Ws.kPong then .frame .ignored total
  else if opcode = Ws.kBinary ∨ opcode = Ws.kContinuation then .stop (.closed kCloseProtocolError)
  else .frame .ignored total

/-- One turn of `drainFrames`. -/
def readFrame (buf : Bytes) : Verdict Effect :=
  match Ws.parseHeader buf with
  | .error .kIncomplete => .wait
  | .error .kUnsupported => .stop (.closed kCloseProtocolError)
  | .ok header =>
      if header.masked = false then .stop (.closed kCloseProtocolError)
      else if header.payloadLen > kInboundCap - header.headerLen then .stop (.closed kCloseTooBig)
      else if buf.length < header.headerLen + header.payloadLen then .wait
      else
        dispatch header.opcode
          (Ws.unmask ((buf.drop header.headerLen).take header.payloadLen) header.maskKey)
          (header.headerLen + header.payloadLen)

/-- The verdict on a buffer that holds the whole first frame. -/
theorem readFrame_of_header {buf : Bytes} {header : Ws.FrameHeader}
    (hparse : Ws.parseHeader buf = .ok header) (hmasked : header.masked = true)
    (hfits : header.headerLen + header.payloadLen ≤ kInboundCap)
    (hwhole : header.headerLen + header.payloadLen ≤ buf.length) :
    readFrame buf = dispatch header.opcode
      (Ws.unmask ((buf.drop header.headerLen).take header.payloadLen) header.maskKey)
      (header.headerLen + header.payloadLen) := by
  rw [readFrame, hparse]
  simp only [hmasked]
  rw [if_neg (by simp), if_neg (by omega), if_neg (by omega)]

theorem dispatch_eq_frame {opcode : Byte} {payload : Bytes} {total length : Nat} {effect : Effect}
    (h : dispatch opcode payload total = .frame effect length) : length = total := by
  simp only [dispatch] at h
  repeat' split at h
  all_goals cases h
  all_goals rfl

theorem readFrame_append {buf : Bytes} (more : Bytes) (h : readFrame buf ≠ .wait) :
    readFrame (buf ++ more) = readFrame buf := by
  have hparse : Ws.parseHeader buf ≠ .error .kIncomplete := by
    intro hincomplete
    rw [readFrame, hincomplete] at h
    exact h rfl
  have happend := Ws.parseHeader_append more hparse
  rw [readFrame] at h ⊢
  rw [readFrame, happend]
  cases hheader : Ws.parseHeader buf with
  | error error =>
      cases error with
      | kIncomplete => exact absurd hheader hparse
      | kUnsupported => rfl
  | ok header =>
      have hlen := Ws.parseHeader_headerLen hheader
      simp only [hheader] at h ⊢
      split
      · rfl
      · rename_i hmasked
        rw [if_neg hmasked] at h
        split
        · rfl
        · rename_i hfits
          rw [if_neg hfits] at h
          split at h
          · exact absurd rfl h
          · rename_i hwhole
            rw [if_neg hwhole, if_neg (by rw [List.length_append]; omega),
              take_drop_append buf more (Nat.le_of_not_lt hwhole)]

/-- `drainFrames` as a reader of frames. -/
def framing : Framing Byte Effect where
  read := readFrame
  frame_length := by
    intro buf effect length h
    rw [readFrame] at h
    cases hheader : Ws.parseHeader buf with
    | error error =>
        rw [hheader] at h
        cases error <;> cases h
    | ok header =>
        have hlen := Ws.parseHeader_headerLen hheader
        simp only [hheader] at h
        split at h
        · cases h
        · split at h
          · cases h
          · split at h
            · cases h
            · rw [dispatch_eq_frame h]
              omega
  frame_append := fun more h => by rw [readFrame_append more (by rw [h]; simp), h]
  stop_append := fun more h => by rw [readFrame_append more (by rw [h]; simp), h]

/-- `drainFrames`: what the frames in the buffer made the hub do, and the bytes left
in it, or `none` once the connection was closed. -/
def drainFrames (buf : Bytes) : List Effect × Option Bytes := framing.drain buf

/-! ## Polling -/

/-- An entry in use. -/
structure Inbound where
  /-- The first `len` bytes of `buf`. -/
  buf : Bytes
  /-- Bytes that have arrived and were not read. -/
  arrived : Bytes
  deriving DecidableEq

/-- The part of `poll` behind the test of `connected()`. -/
def pollEntry (entry : Inbound) : List Effect × Option Inbound :=
  let room := kInboundCap - entry.buf.length
  let buf := entry.buf ++ entry.arrived.take room
  if buf.length ≥ kInboundCap then ([.closed kCloseTooBig], none)
  else
    let drained := drainFrames buf
    (drained.1, drained.2.map fun rest => ⟨rest, entry.arrived.drop room⟩)

/-- A connection over time: what it made the hub do, and its entry while it is open. -/
structure Session where
  log : List Effect
  entry : Option Inbound
  deriving DecidableEq

namespace Session

/-- A connection just adopted. -/
def initial : Session := ⟨[], some ⟨[], []⟩⟩

/-- More bytes arrive and the hub polls. -/
def poll (session : Session) (chunk : Bytes) : Session :=
  match session.entry with
  | none => session
  | some entry =>
      let polled := pollEntry { entry with arrived := entry.arrived ++ chunk }
      ⟨session.log ++ polled.1, polled.2⟩

/-- A poll for each chunk of the stream. -/
def receive (chunks : List Bytes) : Session := chunks.foldl poll initial

theorem receive_append_single (chunks : List Bytes) (chunk : Bytes) :
    receive (chunks ++ [chunk]) = (receive chunks).poll chunk := by
  simp [receive]

/-- The session of a connection whose buffer never filled up. -/
def ofDrain (drained : List Effect × Option Bytes) : Session :=
  ⟨drained.1, drained.2.map fun rest => ⟨rest, []⟩⟩

/-- A poll that stays below the capacity reads everything. -/
theorem poll_of_lt {log : List Effect} {buf chunk : Bytes}
    (h : buf.length + chunk.length < kInboundCap) :
    poll ⟨log, some ⟨buf, []⟩⟩ chunk =
      ofDrain (log ++ (drainFrames (buf ++ chunk)).1, (drainFrames (buf ++ chunk)).2) := by
  have hall : chunk.take (kInboundCap - buf.length) = chunk :=
    List.take_of_length_le (by omega)
  have hnone : chunk.drop (kInboundCap - buf.length) = [] :=
    List.drop_of_length_le (by omega)
  simp only [poll, pollEntry, ofDrain, List.nil_append, hall, hnone, List.length_append]
  rw [if_neg (by omega)]

/-- A poll that fills the buffer closes the connection and looks at no frame. -/
theorem poll_of_ge {log : List Effect} {buf chunk : Bytes}
    (h : kInboundCap ≤ buf.length + chunk.length) :
    poll ⟨log, some ⟨buf, []⟩⟩ chunk = ⟨log ++ [.closed kCloseTooBig], none⟩ := by
  simp only [poll, pollEntry, List.nil_append, List.length_append, List.length_take]
  rw [if_pos (by omega)]

@[simp] theorem poll_closed {session : Session} {chunk : Bytes} (h : session.entry = none) :
    session.poll chunk = session := by
  simp only [poll, h]

/-- As long as the buffer does not fill up, polling chunk by chunk is draining the
whole stream. -/
theorem poll_ofDrain {stream chunk : Bytes}
    (h : ∀ rest, (drainFrames stream).2 = some rest → rest.length + chunk.length < kInboundCap) :
    poll (ofDrain (drainFrames stream)) chunk = ofDrain (drainFrames (stream ++ chunk)) := by
  have happend := framing.drain_append stream chunk
  rw [← drainFrames, ← drainFrames] at happend
  rw [happend]
  cases hdrain : drainFrames stream with
  | mk effects rest =>
      cases rest with
      | none => rfl
      | some rest =>
          rw [hdrain] at h
          exact poll_of_lt (h rest rfl)

end Session

end WsHub

end MatrixFaces.Api
