import Mathlib.Data.Fin.Basic
import Mathlib.Logic.Function.Basic
import MatrixFaces.Foundation.Bytes

set_option autoImplicit false

/-!
# Retained connections (`src/board/esp32s3/net_link.cpp`)

A `WiFiClient` is a handle on a connection, and tests false exactly when it holds
no open one.  Connections are numbered in the order they were accepted.

A slot keeps the number of the connection that was retained in it, also when the peer is gone;
`holder` is the connection if it is still open.  `freeSlot` is the slot that `retain()` picks,
the first without a holder.

What each operation leaves alone is a `simp` lemma for each field, as `write_retained` and
`finishRequest_accepted`.
-/

namespace MatrixFaces.Board

open MatrixFaces.Foundation

abbrev kMaxRetained : Nat := 4

abbrev Slot := Fin kMaxRetained

abbrev ConnId := Nat

/-- Something the board wrote to a connection. -/
inductive Written where
  /-- One of the three writes of the handshake response. -/
  | response (part : Nat) (text : Bytes)
  /-- Bytes of WebSocket frames. -/
  | frame (bytes : Bytes)
  deriving DecidableEq, Repr

/-- A connection. -/
structure Conn where
  isOpen : Bool
  /-- Bytes from the peer that were not read. -/
  arrived : Bytes
  written : List Written
  deriving DecidableEq, Repr

/-- `g_retained`, `g_request` and the connections behind them. -/
structure NetLink where
  conns : ConnId → Conn
  /-- How many connections were accepted; the next one gets this number. -/
  accepted : Nat
  retained : Slot → Option ConnId
  request : Option ConnId

namespace NetLink

/-- Change one connection. -/
def modify (link : NetLink) (id : ConnId) (f : Conn → Conn) : NetLink :=
  { link with conns := Function.update link.conns id (f (link.conns id)) }

/-- `stop()`. -/
def stop (link : NetLink) (id : ConnId) : NetLink :=
  link.modify id fun conn => { conn with isOpen := false }

/-- `write()`: nothing reaches a connection that is not open. -/
def write (link : NetLink) (id : ConnId) (piece : Written) : NetLink :=
  link.modify id fun conn =>
    if conn.isOpen then { conn with written := conn.written ++ [piece] } else conn

/-- `retained(slot)`; `none` is the null pointer. -/
def holder (link : NetLink) (slot : Slot) : Option ConnId :=
  (link.retained slot).filter fun id => (link.conns id).isOpen

/-- The slot `retain()` picks: the first whose client tests false. -/
def freeSlot (link : NetLink) : Option Slot :=
  (List.finRange kMaxRetained).find? fun slot => (link.holder slot).isNone

/-- `retain()`. -/
def retain (link : NetLink) : Option (Slot × NetLink) :=
  link.freeSlot.map fun slot =>
    (slot, { link with
      retained := Function.update link.retained slot link.request
      request := none })

/-- `release(slot)`. -/
def release (link : NetLink) (slot : Slot) : NetLink :=
  let stopped :=
    match link.holder slot with
    | none => link
    | some id => link.stop id
  { stopped with retained := Function.update link.retained slot none }

/-- `accept()` of a new connection. -/
def accept (link : NetLink) : NetLink :=
  { link with
    conns := Function.update link.conns link.accepted ⟨true, [], []⟩
    accepted := link.accepted + 1
    request := some link.accepted }

/-- `finishRequest()`. -/
def finishRequest (link : NetLink) : NetLink :=
  match link.request with
  | none => link
  | some id => { link.stop id with request := none }

/-! ## What each operation leaves alone -/

@[simp] theorem modify_retained (link : NetLink) (id : ConnId) (f : Conn → Conn) :
    (link.modify id f).retained = link.retained := rfl

@[simp] theorem modify_request (link : NetLink) (id : ConnId) (f : Conn → Conn) :
    (link.modify id f).request = link.request := rfl

@[simp] theorem modify_accepted (link : NetLink) (id : ConnId) (f : Conn → Conn) :
    (link.modify id f).accepted = link.accepted := rfl

@[simp] theorem write_retained (link : NetLink) (id : ConnId) (piece : Written) :
    (link.write id piece).retained = link.retained := rfl

theorem write_of_open {link : NetLink} {id : ConnId} (h : (link.conns id).isOpen = true)
    (piece : Written) :
    link.write id piece =
      link.modify id fun conn => { conn with written := conn.written ++ [piece] } := by
  simp only [write, modify, h, if_true]

theorem write_of_closed {link : NetLink} {id : ConnId} (h : (link.conns id).isOpen = false)
    (piece : Written) : link.write id piece = link := by
  simp [write, modify, h]

theorem release_retained (link : NetLink) (slot : Slot) :
    (link.release slot).retained = Function.update link.retained slot none := rfl

@[simp] theorem release_accepted (link : NetLink) (slot : Slot) :
    (link.release slot).accepted = link.accepted := by
  unfold release
  split <;> rfl

@[simp] theorem release_request (link : NetLink) (slot : Slot) :
    (link.release slot).request = link.request := by
  unfold release
  split <;> rfl

theorem release_of_holder {link : NetLink} {slot : Slot} {id : ConnId}
    (h : link.holder slot = some id) :
    link.release slot =
      { link.stop id with retained := Function.update link.retained slot none } := by
  simp only [release, h]

theorem release_of_empty {link : NetLink} {slot : Slot} (h : link.holder slot = none) :
    link.release slot = { link with retained := Function.update link.retained slot none } := by
  simp only [release, h]

@[simp] theorem finishRequest_retained (link : NetLink) :
    link.finishRequest.retained = link.retained := by
  unfold finishRequest
  split <;> rfl

@[simp] theorem finishRequest_accepted (link : NetLink) :
    link.finishRequest.accepted = link.accepted := by
  unfold finishRequest
  split <;> rfl

theorem retain_eq_some {link next : NetLink} {slot : Slot}
    (h : link.retain = some (slot, next)) :
    link.freeSlot = some slot ∧
      next = { link with
        retained := Function.update link.retained slot link.request, request := none } := by
  obtain ⟨picked, hpicked, hpair⟩ := Option.map_eq_some_iff.mp h
  cases hpair
  exact ⟨hpicked, rfl⟩

theorem holder_eq_some_iff {link : NetLink} {slot : Slot} {id : ConnId} :
    link.holder slot = some id ↔ link.retained slot = some id ∧ (link.conns id).isOpen = true := by
  rw [holder, Option.filter_eq_some_iff]

end NetLink

end MatrixFaces.Board
