import MatrixFaces.Api.WsHub
import MatrixFaces.Board.NetLink
import MatrixFaces.Foundation.Machine

set_option autoImplicit false

/-!
# The hub's connection table (`src/api/ws_hub.cpp`) beside `net_link`'s slots

The network task runs the upgrade handler (`handleWebSocketUpgrade` in
`src/api/handlers.cpp`), the WebSocket task polls and broadcasts, and peers come
and go.  Each hub operation holds the hub's mutex and is one step; each call and
each write of the handler is one step.  A buffered byte is kept with the connection it was
read from.  Fields called ghost are not in the source.

The main result is `slots_owned_of_guarded`.  `SlotsOwned` says that the bytes the hub
handles for a connection are that connection's own, and what it writes for one goes there.
`SlotIsFree` is the condition, on the state in front of a step: `retain()` picks no slot that
an entry of the table still names, and a first poll that no `adopt()` came before finds nobody
in slot 0, which every zeroed entry names.

`Sound` and `Consistent` are what every step keeps of the table and the slots.
`slot_shared` is a run in which a slot is handed out again while an entry names it.
-/

namespace MatrixFaces.Api

open MatrixFaces.Foundation
open MatrixFaces.Board
open MatrixFaces.Api.WsHub

/-- `WsHub::Connection`; no slot is the source's -1. -/
structure Entry where
  slot : Option Slot
  buf : List (ConnId × Byte)
  deriving DecidableEq

/-- Where the upgrade handler is. -/
inductive UpgradePc where
  | idle
  /-- A request is being served; nothing was retained yet. -/
  | serving
  /-- Between `retain()` and `adopt()`. -/
  | retained (slot : Slot)
  /-- `adopt()` answered false. -/
  | refused (slot : Slot)
  /-- Between `adopt()` and the test of `retained(slot)`. -/
  | adopted (slot : Slot)
  /-- Before one of the three writes of the response. -/
  | printing (slot : Slot) (part : Nat)
  /-- Before `finishRequest()`. -/
  | finishing
  deriving DecidableEq, Repr

/-- The two tables and the handler. -/
structure Sockets where
  link : NetLink
  table : Slot → Entry
  initialised : Bool
  net : UpgradePc
  /-- Ghost: the hub has polled or adopted. -/
  hubRan : Bool
  /-- Ghost: the connections the hub adopted. -/
  upgraded : ConnId → Bool

namespace Sockets

/-! ## The hub's operations -/

/-- An entry is freed. -/
def freeEntry (sockets : Sockets) (i : Slot) : Sockets :=
  { sockets with table := Function.update sockets.table i ⟨none, []⟩ }

/-- The frame an effect of `drainFrames` writes. -/
def frameOf : Effect → Option Bytes
  | .pong payload => some (Ws.encodePong payload)
  | .closed code => some (Ws.encodeClose code)
  | .message _ | .ignored => none

/-- Write frames one by one. -/
def writeFrames (link : NetLink) (id : ConnId) (frames : List Bytes) : NetLink :=
  frames.foldl (fun link frame => link.write id (.frame frame)) link

/-- Entry `i`'s buffer with what `poll` reads from its client. -/
def readInto (sockets : Sockets) (i : Slot) (id : ConnId) : List (ConnId × Byte) :=
  (sockets.table i).buf ++
    ((sockets.link.conns id).arrived.take
      (kInboundCap - (sockets.table i).buf.length)).map fun b => (id, b)

/-- The body of the loop in `poll`. -/
def pollOne (sockets : Sockets) (i : Slot) : Sockets :=
  match (sockets.table i).slot with
  | none => sockets
  | some slot =>
      match sockets.link.holder slot with
      | none => { sockets with link := sockets.link.release slot }.freeEntry i
      | some id =>
          let tagged := sockets.readInto i id
          let polled := pollEntry
            ⟨(sockets.table i).buf.map Prod.snd, (sockets.link.conns id).arrived⟩
          let link := writeFrames sockets.link id (polled.1.filterMap frameOf)
          match polled.2 with
          | none => { sockets with link := link.release slot }.freeEntry i
          | some rest =>
              { sockets with
                link := link.modify id fun conn => { conn with arrived := rest.arrived }
                table := Function.update sockets.table i
                  ⟨some slot, tagged.drop (tagged.length - rest.buf.length)⟩ }

/-- `WsHub::poll`. -/
def poll (sockets : Sockets) : Sockets :=
  { (List.finRange kMaxRetained).foldl pollOne sockets with hubRan := true }

/-- The body of the loop in `broadcast`, when the socket takes `taken` bytes. -/
def broadcastOne (frame : Bytes) (taken : Slot → Nat) (sockets : Sockets) (i : Slot) : Sockets :=
  match (sockets.table i).slot with
  | none => sockets
  | some slot =>
      match sockets.link.holder slot with
      | none => { sockets with link := sockets.link.release slot }.freeEntry i
      | some id =>
          let sent := frame.take (taken i)
          let link := if sent = [] then sockets.link else sockets.link.write id (.frame sent)
          if sent.length = frame.length then { sockets with link := link }
          else { sockets with link := link.release slot }.freeEntry i

/-- `WsHub::broadcast`. -/
def broadcast (sockets : Sockets) (text : Bytes) (taken : Slot → Nat) : Sockets :=
  match Ws.encodeHeader Ws.kText text.length with
  | none => sockets
  | some header =>
      if text = [] then sockets
      else (List.finRange kMaxRetained).foldl (broadcastOne (header ++ text) taken) sockets

/-- The table `adopt` scans: the first call writes the free marker into every entry. -/
def initTable (sockets : Sockets) : Slot → Entry :=
  if sockets.initialised then sockets.table
  else fun i => { sockets.table i with slot := none }

/-- The entry `adopt` takes: the first that is free. -/
def freeIndex (table : Slot → Entry) : Option Slot :=
  (List.finRange kMaxRetained).find? fun i => (table i).slot.isNone

/-- `WsHub::adopt`, and where the handler goes on. -/
def adopt (sockets : Sockets) (slot : Slot) : Sockets :=
  let table := sockets.initTable
  let ready := { sockets with table := table, initialised := true, hubRan := true }
  match freeIndex table with
  | none => { ready with net := .refused slot }
  | some i =>
      { ready with
        table := Function.update table i ⟨some slot, []⟩
        net := .adopted slot
        upgraded :=
          match sockets.link.retained slot with
          | none => sockets.upgraded
          | some id => Function.update sockets.upgraded id true }

/-! ## The steps -/

inductive Action where
  | accept
  /-- The handler reads `count` bytes of the request. -/
  | readRequest (count : Nat)
  /-- `retain()`; without a free slot the request is refused. -/
  | retain
  | adopt
  /-- `release(slot)` after `adopt()` answered false. -/
  | release
  /-- The test of `retained(slot)`. -/
  | lookUp
  /-- One write of the response. -/
  | print
  | finishRequest
  | poll
  /-- A broadcast; entry `i`'s socket takes `taken i` bytes of the frame. -/
  | broadcast (text : Bytes) (taken : Slot → Nat)
  | peerDelivers (id : ConnId) (bytes : Bytes)
  | peerDisconnects (id : ConnId)

/-- The three writes of the response; the accept key is the handshake's. -/
def responsePart (acceptKey : Bytes) : Nat → Bytes
  | 0 => ascii ("HTTP/1.1 101 Switching Protocols\r\nUpgrade: websocket\r\n" ++
      "Connection: Upgrade\r\nSec-WebSocket-Accept: ")
  | 1 => acceptKey
  | _ => ascii "\r\n\r\n"

def step (acceptKey : Bytes) (sockets : Sockets) : Action → Option Sockets
  | .accept =>
      match sockets.net with
      | .idle => some { sockets with link := sockets.link.accept, net := .serving }
      | _ => none
  | .readRequest count =>
      match sockets.net, sockets.link.request with
      | .serving, some id =>
          some { sockets with
            link := sockets.link.modify id fun conn =>
              { conn with arrived := conn.arrived.drop count } }
      | _, _ => none
  | .retain =>
      match sockets.net with
      | .serving =>
          match sockets.link.retain with
          | none => some { sockets with net := .finishing }
          | some (slot, link) => some { sockets with link := link, net := .retained slot }
      | _ => none
  | .adopt =>
      match sockets.net with
      | .retained slot => some (sockets.adopt slot)
      | _ => none
  | .release =>
      match sockets.net with
      | .refused slot =>
          some { sockets with link := sockets.link.release slot, net := .finishing }
      | _ => none
  | .lookUp =>
      match sockets.net with
      | .adopted slot =>
          some { sockets with
            net := if (sockets.link.holder slot).isNone then .finishing else .printing slot 0 }
      | _ => none
  | .print =>
      match sockets.net with
      | .printing slot part =>
          some { sockets with
            link :=
              match sockets.link.retained slot with
              | none => sockets.link
              | some id => sockets.link.write id (.response part (responsePart acceptKey part))
            net := if part = 2 then .finishing else .printing slot (part + 1) }
      | _ => none
  | .finishRequest =>
      match sockets.net with
      | .serving | .finishing =>
          some { sockets with link := sockets.link.finishRequest, net := .idle }
      | _ => none
  | .poll => some sockets.poll
  | .broadcast text taken => some (sockets.broadcast text taken)
  | .peerDelivers id bytes =>
      if (sockets.link.conns id).isOpen then
        some { sockets with
          link := sockets.link.modify id fun conn =>
            { conn with arrived := conn.arrived ++ bytes } }
      else none
  | .peerDisconnects id => some { sockets with link := sockets.link.stop id }

/-- Where the handler is after a write of the response. -/
def afterPart (slot : Slot) (part : Nat) : UpgradePc :=
  if part = 2 then .finishing else .printing slot (part + 1)

theorem afterPart_ne (slot other : Slot) (part : Nat) :
    ¬ (afterPart slot part = .retained other ∨ afterPart slot part = .refused other) := by
  unfold afterPart
  split <;> simp

/-- What each action does where it is enabled. -/
inductive Stepped (acceptKey : Bytes) (sockets : Sockets) : Action → Sockets → Prop where
  | accept (hnet : sockets.net = .idle) :
      Stepped acceptKey sockets .accept
        { sockets with link := sockets.link.accept, net := .serving }
  | readRequest (count : Nat) (id : ConnId) :
      Stepped acceptKey sockets (.readRequest count)
        { sockets with
          link := sockets.link.modify id fun conn =>
            { conn with arrived := conn.arrived.drop count } }
  | retainNone (hnet : sockets.net = .serving) :
      Stepped acceptKey sockets .retain { sockets with net := .finishing }
  | retain {slot : Slot} {link : NetLink} (hnet : sockets.net = .serving)
      (hretain : sockets.link.retain = some (slot, link)) :
      Stepped acceptKey sockets .retain { sockets with link := link, net := .retained slot }
  | adopt (slot : Slot) (hnet : sockets.net = .retained slot) :
      Stepped acceptKey sockets .adopt (sockets.adopt slot)
  | release (slot : Slot) (hnet : sockets.net = .refused slot) :
      Stepped acceptKey sockets .release
        { sockets with link := sockets.link.release slot, net := .finishing }
  | lookUpGone (slot : Slot) (hnet : sockets.net = .adopted slot)
      (hholder : sockets.link.holder slot = none) :
      Stepped acceptKey sockets .lookUp { sockets with net := .finishing }
  | lookUp (slot : Slot) (hnet : sockets.net = .adopted slot) :
      Stepped acceptKey sockets .lookUp { sockets with net := .printing slot 0 }
  | printGone {slot : Slot} {part : Nat} (hnet : sockets.net = .printing slot part)
      (hholder : sockets.link.holder slot = none) :
      Stepped acceptKey sockets .print { sockets with net := afterPart slot part }
  | print {slot : Slot} {part : Nat} {id : ConnId} (hnet : sockets.net = .printing slot part)
      (hholder : sockets.link.holder slot = some id) :
      Stepped acceptKey sockets .print
        { sockets with
          link := sockets.link.modify id fun conn =>
            { conn with written := conn.written ++ [.response part (responsePart acceptKey part)] }
          net := afterPart slot part }
  | finishRequest (hnet : sockets.net = .serving ∨ sockets.net = .finishing) :
      Stepped acceptKey sockets .finishRequest
        { sockets with link := sockets.link.finishRequest, net := .idle }
  | poll : Stepped acceptKey sockets .poll sockets.poll
  | broadcast (text : Bytes) (taken : Slot → Nat) :
      Stepped acceptKey sockets (.broadcast text taken) (sockets.broadcast text taken)
  | peerDelivers (id : ConnId) (bytes : Bytes) :
      Stepped acceptKey sockets (.peerDelivers id bytes)
        { sockets with
          link := sockets.link.modify id fun conn =>
            { conn with arrived := conn.arrived ++ bytes } }
  | peerDisconnects (id : ConnId) :
      Stepped acceptKey sockets (.peerDisconnects id) { sockets with link := sockets.link.stop id }

theorem stepped_print {acceptKey : Bytes} {sockets : Sockets} {slot : Slot} {part : Nat}
    (hnet : sockets.net = .printing slot part) :
    Stepped acceptKey sockets .print
      { sockets with
        link :=
          match sockets.link.retained slot with
          | none => sockets.link
          | some id => sockets.link.write id (.response part (responsePart acceptKey part))
        net := afterPart slot part } := by
  cases hretained : sockets.link.retained slot with
  | none => exact .printGone hnet (by rw [NetLink.holder, hretained]; rfl)
  | some id =>
      cases hopen : (sockets.link.conns id).isOpen with
      | true =>
          simp only [NetLink.write_of_open hopen]
          exact .print hnet (NetLink.holder_eq_some_iff.mpr ⟨hretained, hopen⟩)
      | false =>
          simp only [NetLink.write_of_closed hopen]
          exact .printGone hnet (by simp [NetLink.holder, hretained, hopen])

theorem stepped_of_step {acceptKey : Bytes} {sockets next : Sockets} {action : Action}
    (h : sockets.step acceptKey action = some next) : Stepped acceptKey sockets action next := by
  cases action with
  | accept =>
      rw [step] at h
      split at h
      · cases h
        exact .accept ‹_›
      · cases h
  | readRequest count =>
      rw [step] at h
      split at h
      · cases h
        exact .readRequest count _
      · cases h
  | retain =>
      rw [step] at h
      split at h
      · split at h
        · cases h
          exact .retainNone ‹_›
        · cases h
          exact .retain ‹_› ‹_›
      · cases h
  | adopt =>
      rw [step] at h
      split at h
      · cases h
        exact .adopt _ ‹_›
      · cases h
  | release =>
      rw [step] at h
      split at h
      · cases h
        exact .release _ ‹_›
      · cases h
  | lookUp =>
      rw [step] at h
      split at h
      · rename_i slot hnet
        cases h
        cases hholder : sockets.link.holder slot with
        | none => exact .lookUpGone slot hnet hholder
        | some id => exact .lookUp slot hnet
      · cases h
  | print =>
      rw [step] at h
      split at h
      · cases h
        exact stepped_print ‹_›
      · cases h
  | finishRequest =>
      rw [step] at h
      split at h
      · cases h
        exact .finishRequest (Or.inl ‹_›)
      · cases h
        exact .finishRequest (Or.inr ‹_›)
      · cases h
  | poll =>
      cases h
      exact .poll
  | broadcast text taken =>
      cases h
      exact .broadcast text taken
  | peerDelivers id bytes =>
      rw [step] at h
      split at h
      · cases h
        exact .peerDelivers id bytes
      · cases h
  | peerDisconnects id =>
      cases h
      exact .peerDisconnects id

/-- The board at boot: no connection, and a zero-filled table that names slot 0. -/
def boot : Sockets where
  link := ⟨fun _ => ⟨false, [], []⟩, 0, fun _ => none, none⟩
  table := fun _ => ⟨some 0, []⟩
  initialised := false
  net := .idle
  hubRan := false
  upgraded := fun _ => false

def machine (acceptKey : Bytes) : Machine Sockets Action where
  start sockets := sockets = boot
  step := step acceptKey

/-! ## Who owns a slot -/

/-- No two entries name the same slot, and what an entry holds was read from the
client in its slot. -/
structure Owned (table : Slot → Entry) (retained : Slot → Option ConnId) : Prop where
  alone : ∀ i j slot, (table i).slot = some slot → (table j).slot = some slot → i = j
  own : ∀ i slot, (table i).slot = some slot → ∀ b ∈ (table i).buf, retained slot = some b.1

/-- The property of a state: it is asked once the hub has polled or adopted, since the zeroed
table names slot 0 in every entry until then. -/
def SlotsOwned (sockets : Sockets) : Prop :=
  sockets.hubRan = true → Owned sockets.table sockets.link.retained

namespace Owned

variable {table : Slot → Entry} {retained : Slot → Option ConnId}

theorem of_free (h : ∀ i, (table i).slot = none) : Owned table retained where
  alone i _ _ hi := by rw [h i] at hi; cases hi
  own i _ hi := by rw [h i] at hi; cases hi

/-- An entry and its slot are given up. -/
theorem free (h : Owned table retained) {i : Slot} {slot : Slot}
    (hslot : (table i).slot = some slot) :
    Owned (Function.update table i ⟨none, []⟩) (Function.update retained slot none) where
  alone j k other hj hk := by
    rw [Function.update_apply] at hj hk
    split at hj
    · cases hj
    · split at hk
      · cases hk
      · exact h.alone j k other hj hk
  own j other hj b hb := by
    rw [Function.update_apply] at hj hb
    split at hj
    · cases hj
    · rename_i hne
      rw [if_neg hne] at hb
      have hother : other ≠ slot := fun hsame => hne (h.alone j i slot (hsame ▸ hj) hslot)
      rw [Function.update_of_ne hother]
      exact h.own j other hj b hb

/-- An entry's buffer changes, and still holds bytes of its own client only. -/
theorem refill (h : Owned table retained) {i : Slot} {slot : Slot} {buf : List (ConnId × Byte)}
    (hslot : (table i).slot = some slot) (hbuf : ∀ b ∈ buf, retained slot = some b.1) :
    Owned (Function.update table i ⟨some slot, buf⟩) retained := by
  have hsame : ∀ j, (Function.update table i ⟨some slot, buf⟩ j).slot = (table j).slot := by
    intro j
    rw [Function.update_apply]
    split
    · rename_i hj
      rw [hj, hslot]
    · rfl
  refine ⟨fun j k other hj hk => ?_, fun j other hj b hb => ?_⟩
  · rw [hsame] at hj hk
    exact h.alone j k other hj hk
  · rw [hsame] at hj
    rw [Function.update_apply] at hb
    split at hb
    · rename_i heq
      rw [heq, hslot] at hj
      cases hj
      exact hbuf b hb
    · exact h.own j other hj b hb

/-- An entry takes a slot that no entry names. -/
theorem take (h : Owned table retained) {slot : Slot} (i : Slot)
    (hfree : ∀ j, (table j).slot ≠ some slot) :
    Owned (Function.update table i ⟨some slot, []⟩) retained where
  alone j k other hj hk := by
    rw [Function.update_apply] at hj hk
    split at hj
    · rename_i hji
      cases hj
      split at hk
      · rename_i hki
        rw [hji, hki]
      · exact absurd hk (hfree k)
    · split at hk
      · cases hk
        exact absurd hj (hfree j)
      · exact h.alone j k other hj hk
  own j other hj b hb := by
    rw [Function.update_apply] at hj hb
    split at hj
    · rename_i hji
      rw [if_pos hji] at hb
      cases hb
    · rename_i hji
      rw [if_neg hji] at hb
      exact h.own j other hj b hb

/-- A slot that no entry names changes its client. -/
theorem change (h : Owned table retained) {slot : Slot} (client : Option ConnId)
    (hfree : ∀ j, (table j).slot ≠ some slot) :
    Owned table (Function.update retained slot client) where
  alone := h.alone
  own j other hj b hb := by
    have hother : other ≠ slot := fun hsame => hfree j (hsame ▸ hj)
    rw [Function.update_of_ne hother]
    exact h.own j other hj b hb

end Owned

/-! ## What the hub's loops keep -/

@[simp] theorem writeFrames_retained (link : NetLink) (id : ConnId) (frames : List Bytes) :
    (writeFrames link id frames).retained = link.retained := by
  induction frames generalizing link with
  | nil => rfl
  | cons frame rest ih =>
      rw [writeFrames, List.foldl_cons, ← writeFrames, ih, NetLink.write_retained]

/-- The table as the hub and the handler left it: slots are owned, a table that was
never initialised is empty, and a slot on its way to the hub is named by no entry. -/
structure Sound (sockets : Sockets) : Prop where
  owned : Owned sockets.table sockets.link.retained
  raw : sockets.initialised = false → ∀ i, (sockets.table i).slot = none
  pending : ∀ slot, sockets.net = .retained slot ∨ sockets.net = .refused slot →
    ∀ i, (sockets.table i).slot ≠ some slot

/-- An entry that is freed names nothing, the others what they named. -/
theorem update_slot_ne {table : Slot → Entry} {i j : Slot} {entry : Entry} {slot : Slot}
    (hentry : entry.slot = none ∨ entry.slot = (table i).slot)
    (h : (table j).slot ≠ some slot) : (Function.update table i entry j).slot ≠ some slot := by
  rw [Function.update_apply]
  split
  · rename_i hji
    rcases hentry with hnone | hsame
    · rw [hnone]
      simp
    · rw [hsame, ← hji]
      exact h
  · exact h

theorem Sound.free {sockets : Sockets} (h : sockets.Sound) {i slot : Slot} {link : NetLink}
    (hslot : (sockets.table i).slot = some slot)
    (hlink : link.retained = Function.update sockets.link.retained slot none) :
    ({ sockets with link := link }.freeEntry i).Sound where
  owned := by
    show Owned (Function.update sockets.table i ⟨none, []⟩) link.retained
    rw [hlink]
    exact h.owned.free hslot
  raw hraw j := by
    have := h.raw hraw i
    rw [hslot] at this
    cases this
  pending other hother j := update_slot_ne (Or.inl rfl) (h.pending other hother j)

theorem Sound.pollOne {sockets : Sockets} (h : sockets.Sound) (i : Slot) :
    (sockets.pollOne i).Sound := by
  unfold Sockets.pollOne
  split
  · exact h
  · rename_i slot hslot
    split
    · exact h.free hslot rfl
    · rename_i id hholder
      obtain ⟨hid, _⟩ := NetLink.holder_eq_some_iff.mp hholder
      simp only
      split
      · refine h.free hslot ?_
        rw [NetLink.release_retained, writeFrames_retained]
      · rename_i rest _
        have hbuf : ∀ b ∈ (sockets.readInto i id).drop
            ((sockets.readInto i id).length - rest.buf.length),
            sockets.link.retained slot = some b.1 := by
          intro b hb
          rcases List.mem_append.mp (List.mem_of_mem_drop hb) with hold | hnew
          · exact h.owned.own i slot hslot b hold
          · obtain ⟨_, _, rfl⟩ := List.mem_map.mp hnew
            exact hid
        refine ⟨?_, fun hraw j => ?_, fun other hother j => ?_⟩
        · simp only [NetLink.modify_retained, writeFrames_retained]
          exact h.owned.refill hslot hbuf
        · have := h.raw hraw i
          rw [hslot] at this
          cases this
        · exact update_slot_ne (Or.inr hslot.symm) (h.pending other hother j)

theorem Sound.broadcastOne {sockets : Sockets} (h : sockets.Sound) (frame : Bytes)
    (taken : Slot → Nat) (i : Slot) : (sockets.broadcastOne frame taken i).Sound := by
  unfold Sockets.broadcastOne
  split
  · exact h
  · rename_i slot hslot
    split
    · exact h.free hslot rfl
    · rename_i id _
      have hwrite : ∀ sent : Bytes, (if sent = [] then sockets.link
          else sockets.link.write id (.frame sent)).retained = sockets.link.retained := by
        intro sent
        split <;> rfl
      simp only
      split
      · refine ⟨?_, h.raw, h.pending⟩
        simp only [hwrite]
        exact h.owned
      · refine h.free hslot ?_
        rw [NetLink.release_retained, hwrite]

theorem Sound.foldl {f : Sockets → Slot → Sockets}
    (hf : ∀ sockets i, Sound sockets → Sound (f sockets i)) (entries : List Slot)
    {sockets : Sockets} (h : sockets.Sound) : (entries.foldl f sockets).Sound := by
  induction entries generalizing sockets with
  | nil => exact h
  | cons i rest ih => exact ih (hf sockets i h)

theorem Sound.poll {sockets : Sockets} (h : sockets.Sound) : sockets.poll.Sound := by
  have hfold := Sound.foldl (fun _ i h => h.pollOne i) (List.finRange kMaxRetained) h
  exact ⟨hfold.owned, hfold.raw, hfold.pending⟩

theorem Sound.broadcast {sockets : Sockets} (h : sockets.Sound) (text : Bytes)
    (taken : Slot → Nat) : (sockets.broadcast text taken).Sound := by
  unfold Sockets.broadcast
  split
  · exact h
  · split
    · exact h
    · exact Sound.foldl (fun _ i h => h.broadcastOne _ taken i) _ h

theorem broadcastOne_net (frame : Bytes) (taken : Slot → Nat) (sockets : Sockets) (i : Slot) :
    (sockets.broadcastOne frame taken i).net = sockets.net := by
  unfold broadcastOne
  split
  · rfl
  · split
    · rfl
    · simp only
      split <;> rfl

theorem broadcastOne_hubRan (frame : Bytes) (taken : Slot → Nat) (sockets : Sockets) (i : Slot) :
    (sockets.broadcastOne frame taken i).hubRan = sockets.hubRan := by
  unfold broadcastOne
  split
  · rfl
  · split
    · rfl
    · simp only
      split <;> rfl

/-- What every turn of a loop over the table leaves alone, the loop leaves alone. -/
theorem foldl_keeps {Part : Type} (part : Sockets → Part) {f : Sockets → Slot → Sockets}
    (hf : ∀ sockets i, part (f sockets i) = part sockets) (entries : List Slot)
    (sockets : Sockets) : part (entries.foldl f sockets) = part sockets := by
  induction entries generalizing sockets with
  | nil => rfl
  | cons i rest ih => rw [List.foldl_cons, ih, hf]

theorem broadcast_net (sockets : Sockets) (text : Bytes) (taken : Slot → Nat) :
    (sockets.broadcast text taken).net = sockets.net := by
  unfold broadcast
  split
  · rfl
  · split
    · rfl
    · exact foldl_keeps _ (broadcastOne_net _ taken) _ sockets

theorem broadcast_hubRan (sockets : Sockets) (text : Bytes) (taken : Slot → Nat) :
    (sockets.broadcast text taken).hubRan = sockets.hubRan := by
  unfold broadcast
  split
  · rfl
  · split
    · rfl
    · exact foldl_keeps _ (broadcastOne_hubRan _ taken) _ sockets

/-- `adopt` on a table in which no entry names the slot. -/
theorem sound_adopt {sockets : Sockets} {slot : Slot}
    (howned : Owned sockets.initTable sockets.link.retained)
    (hfree : ∀ i, (sockets.initTable i).slot ≠ some slot) : (sockets.adopt slot).Sound := by
  unfold Sockets.adopt
  simp only
  split
  · refine ⟨howned, fun hraw => (nomatch hraw), fun other hother => ?_⟩
    rcases hother with hother | hother
    · cases hother
    · cases hother
      exact hfree
  · refine ⟨howned.take _ hfree, fun hraw => (nomatch hraw), fun other hother => ?_⟩
    rcases hother with hother | hother <;> cases hother

theorem initTable_of_raw {sockets : Sockets} (h : sockets.initialised = false) (i : Slot) :
    (sockets.initTable i).slot = none := by
  rw [initTable, h]
  rfl

theorem Sound.adopt {sockets : Sockets} {slot : Slot} (hnet : sockets.net = .retained slot)
    (h : sockets.Sound) : (sockets.adopt slot).Sound := by
  cases hinit : sockets.initialised with
  | true =>
      have htable : sockets.initTable = sockets.table := by
        rw [initTable, hinit, if_pos rfl]
      refine sound_adopt ?_ ?_
      · rw [htable]
        exact h.owned
      · rw [htable]
        exact h.pending slot (Or.inl hnet)
  | false =>
      have hnone := initTable_of_raw hinit
      exact sound_adopt (Owned.of_free hnone) fun i => by rw [hnone i]; simp

/-- Steps that touch neither table keep them sound. -/
theorem Sound.of_same {sockets next : Sockets} (h : sockets.Sound)
    (htable : next.table = sockets.table) (hretained : next.link.retained = sockets.link.retained)
    (hinit : next.initialised = sockets.initialised)
    (hnet : ∀ slot, next.net = .retained slot ∨ next.net = .refused slot →
      next.net = sockets.net) : next.Sound where
  owned := by rw [htable, hretained]; exact h.owned
  raw := by rw [htable, hinit]; exact h.raw
  pending := by
    intro slot hslot
    rw [htable]
    exact h.pending slot (hnet slot hslot ▸ hslot)

/-! ## Before the hub has run -/

/-- The table as boot left it, or with some entries freed by a broadcast: all an entry can name
before the first poll is slot 0. -/
structure Unused (sockets : Sockets) : Prop where
  raw : sockets.initialised = false
  slots : ∀ i, (sockets.table i).slot = none ∨ (sockets.table i).slot = some 0

theorem Unused.adopt {sockets : Sockets} (h : sockets.Unused) (slot : Slot) :
    (sockets.adopt slot).Sound := by
  have hnone := initTable_of_raw h.raw
  exact sound_adopt (Owned.of_free hnone) fun i => by rw [hnone i]; simp

theorem Unused.freeEntry {sockets : Sockets} (h : sockets.Unused) (link : NetLink) (i : Slot) :
    ({ sockets with link := link }.freeEntry i).Unused where
  raw := h.raw
  slots j := by
    show (Function.update sockets.table i ⟨none, []⟩ j).slot = none ∨ _
    rw [Function.update_apply]
    split
    · exact Or.inl rfl
    · rename_i hne
      show _ ∨ (Function.update sockets.table i ⟨none, []⟩ j).slot = _
      rw [Function.update_of_ne hne]
      exact h.slots j

theorem Unused.broadcastOne {sockets : Sockets} (h : sockets.Unused) (frame : Bytes)
    (taken : Slot → Nat) (i : Slot) : (sockets.broadcastOne frame taken i).Unused := by
  unfold Sockets.broadcastOne
  split
  · exact h
  · split
    · exact h.freeEntry _ i
    · simp only
      split
      · exact ⟨h.raw, h.slots⟩
      · exact h.freeEntry _ i

/-- The first poll frees an entry whose slot is empty, and no other changes. -/
theorem Unused.pollOne {sockets : Sockets} (h : sockets.Unused)
    (hempty : ∀ i, (sockets.table i).slot = some 0 → sockets.link.holder 0 = none) (i : Slot) :
    (sockets.pollOne i).Unused ∧
      (∀ j, ((sockets.pollOne i).table j).slot = some 0 →
        (sockets.pollOne i).link.holder 0 = none) ∧
      ((sockets.pollOne i).table i).slot = none ∧
      ∀ j, (sockets.table j).slot = none → ((sockets.pollOne i).table j).slot = none := by
  rcases h.slots i with hnone | hzero
  · have hsame : sockets.pollOne i = sockets := by
      simp only [Sockets.pollOne, hnone]
    rw [hsame]
    exact ⟨h, hempty, hnone, fun _ hj => hj⟩
  · have hholder := hempty i hzero
    have hfree : sockets.pollOne i =
        { sockets with link := sockets.link.release 0 }.freeEntry i := by
      simp only [Sockets.pollOne, hzero, hholder]
    rw [hfree]
    refine ⟨h.freeEntry _ i, fun _ _ => ?_, ?_, fun j hj => ?_⟩
    · show NetLink.holder (sockets.link.release 0) 0 = none
      rw [NetLink.holder, NetLink.release_retained, Function.update_self]
      rfl
    · show (Function.update sockets.table i ⟨none, []⟩ i).slot = none
      rw [Function.update_self]
    · show (Function.update sockets.table i ⟨none, []⟩ j).slot = none
      rw [Function.update_apply]
      split
      · rfl
      · exact hj

theorem Unused.foldl_pollOne (entries : List Slot) {sockets : Sockets} (h : sockets.Unused)
    (hempty : ∀ i, (sockets.table i).slot = some 0 → sockets.link.holder 0 = none) :
    (entries.foldl Sockets.pollOne sockets).initialised = false ∧
      (∀ j, (sockets.table j).slot = none →
        ((entries.foldl Sockets.pollOne sockets).table j).slot = none) ∧
      ∀ i ∈ entries, ((entries.foldl Sockets.pollOne sockets).table i).slot = none := by
  induction entries generalizing sockets with
  | nil => exact ⟨h.raw, fun _ hj => hj, by simp⟩
  | cons i rest ih =>
      obtain ⟨hnext, hemptyNext, hi, hothers⟩ := h.pollOne hempty i
      obtain ⟨hraw, hkeep, hrest⟩ := ih hnext hemptyNext
      refine ⟨hraw, fun j hj => hkeep j (hothers j hj), fun j hj => ?_⟩
      rcases List.mem_cons.mp hj with rfl | hmem
      · exact hkeep j hi
      · exact hrest j hmem

/-- The first poll, with nobody in slot 0, leaves an empty table. -/
theorem Unused.poll {sockets : Sockets} (h : sockets.Unused)
    (hempty : ∀ i, (sockets.table i).slot = some 0 → sockets.link.holder 0 = none) :
    sockets.poll.Sound := by
  obtain ⟨_, _, hnone⟩ := h.foldl_pollOne (List.finRange kMaxRetained) hempty
  have hfree : ∀ i, (sockets.poll.table i).slot = none := fun i => hnone i (List.mem_finRange i)
  exact ⟨Owned.of_free hfree, fun _ => hfree, fun slot _ i => by rw [hfree i]; simp⟩

theorem Unused.broadcast {sockets : Sockets} (h : sockets.Unused) (text : Bytes)
    (taken : Slot → Nat) : (sockets.broadcast text taken).Unused := by
  unfold Sockets.broadcast
  split
  · exact h
  · split
    · exact h
    · generalize List.finRange kMaxRetained = entries
      induction entries generalizing sockets with
      | nil => exact h
      | cons i rest ih => exact ih (h.broadcastOne _ taken i)

/-! ## Every step -/

/-- `retain()` picks a slot that no entry of the hub still names, and the hub's first
poll, when no adopt came before it, finds nobody in slot 0. -/
def SlotIsFree (sockets : Sockets) : Action → Prop
  | .retain => sockets.hubRan = true → ∀ slot, sockets.link.freeSlot = some slot →
      ∀ i, (sockets.table i).slot ≠ some slot
  | .poll => sockets.hubRan = false → ∀ i, (sockets.table i).slot = some 0 →
      sockets.link.holder 0 = none
  | _ => True

instance (sockets : Sockets) : ∀ action, Decidable (sockets.SlotIsFree action)
  | .retain =>
      inferInstanceAs (Decidable (sockets.hubRan = true → ∀ slot,
        sockets.link.freeSlot = some slot → ∀ i, (sockets.table i).slot ≠ some slot))
  | .poll =>
      inferInstanceAs (Decidable (sockets.hubRan = false → ∀ i,
        (sockets.table i).slot = some 0 → sockets.link.holder 0 = none))
  | .accept | .readRequest _ | .adopt | .release | .lookUp | .print | .finishRequest
  | .broadcast _ _ | .peerDelivers _ _ | .peerDisconnects _ => isTrue trivial

/-- The invariant of guarded runs: behind the hub's first poll or adopt the table is sound, in
front of it nothing has used it. -/
structure Consistent (sockets : Sockets) : Prop where
  sound : sockets.hubRan = true → sockets.Sound
  unused : sockets.hubRan = false → sockets.Unused
  refused : ∀ slot, sockets.net = .refused slot → sockets.hubRan = true

theorem consistent_boot : boot.Consistent where
  sound h := nomatch h
  unused _ := ⟨rfl, fun _ => Or.inr rfl⟩
  refused _ h := nomatch h

/-- Steps that touch neither table. -/
theorem Consistent.of_same {sockets next : Sockets} (h : sockets.Consistent)
    (htable : next.table = sockets.table) (hretained : next.link.retained = sockets.link.retained)
    (hinit : next.initialised = sockets.initialised) (hran : next.hubRan = sockets.hubRan)
    (hnet : ∀ slot, next.net = .retained slot ∨ next.net = .refused slot →
      next.net = sockets.net) : next.Consistent where
  sound hnext := (h.sound (hran ▸ hnext)).of_same htable hretained hinit hnet
  unused hnext := by
    obtain ⟨hraw, hslots⟩ := h.unused (hran ▸ hnext)
    exact ⟨hinit ▸ hraw, fun i => by rw [htable]; exact hslots i⟩
  refused slot hslot := by
    rw [hran]
    exact h.refused slot (hnet slot (Or.inr hslot) ▸ hslot)

/-- A slot that no entry names gets the request's client. -/
theorem Consistent.retain {sockets : Sockets} {slot : Slot} {link : NetLink}
    (h : sockets.Consistent) (hguard : sockets.SlotIsFree .retain)
    (hretain : sockets.link.retain = some (slot, link)) :
    ({ sockets with link := link, net := .retained slot } : Sockets).Consistent := by
  obtain ⟨hslot, rfl⟩ := NetLink.retain_eq_some hretain
  refine ⟨fun hran => ?_, fun hran => ?_, fun _ hother => by simp at hother⟩
  · have hfree := hguard hran slot hslot
    refine ⟨(h.sound hran).owned.change _ hfree, (h.sound hran).raw, fun other hother => ?_⟩
    rcases hother with hother | hother
    · cases hother
      exact hfree
    · cases hother
  · exact ⟨(h.unused hran).raw, (h.unused hran).slots⟩

theorem consistent_step {acceptKey : Bytes} {sockets next : Sockets} {action : Action}
    (h : sockets.Consistent) (hguard : sockets.SlotIsFree action)
    (hstep : sockets.step acceptKey action = some next) : next.Consistent := by
  cases stepped_of_step hstep with
  | accept hnet => exact h.of_same rfl rfl rfl rfl fun _ hslot => by simp at hslot
  | readRequest count id => exact h.of_same rfl rfl rfl rfl fun _ _ => rfl
  | retainNone hnet => exact h.of_same rfl rfl rfl rfl fun _ hslot => by simp at hslot
  | retain hnet hretain => exact h.retain hguard hretain
  | adopt slot hnet =>
      have hran : (sockets.adopt slot).hubRan = true := by
        unfold Sockets.adopt
        simp only
        split <;> rfl
      refine ⟨fun _ => ?_, fun hnot => ?_, fun _ _ => hran⟩
      · cases hbefore : sockets.hubRan with
        | true => exact (h.sound hbefore).adopt hnet
        | false => exact (h.unused hbefore).adopt slot
      · rw [hran] at hnot
        cases hnot
  | release slot hnet =>
      have hran := h.refused slot hnet
      have hsound := h.sound hran
      refine ⟨fun _ => ⟨?_, hsound.raw, fun other hother => ?_⟩, fun hnot => ?_, fun _ _ => hran⟩
      · exact hsound.owned.change none (hsound.pending slot (Or.inr hnet))
      · simp at hother
      · exact absurd (hran.symm.trans hnot) (by simp)
  | lookUpGone slot hnet hholder => exact h.of_same rfl rfl rfl rfl fun _ hslot => by simp at hslot
  | lookUp slot hnet => exact h.of_same rfl rfl rfl rfl fun _ hslot => by simp at hslot
  | printGone hnet hholder =>
      exact h.of_same rfl rfl rfl rfl fun _ hslot => absurd hslot (afterPart_ne _ _ _)
  | print hnet hholder =>
      exact h.of_same rfl rfl rfl rfl fun _ hslot => absurd hslot (afterPart_ne _ _ _)
  | finishRequest hnet =>
      exact h.of_same rfl sockets.link.finishRequest_retained rfl rfl fun _ hslot => by
        simp at hslot
  | poll =>
      refine ⟨fun _ => ?_, fun hnot => (by cases hnot), fun _ _ => rfl⟩
      cases hbefore : sockets.hubRan with
      | true => exact (h.sound hbefore).poll
      | false => exact (h.unused hbefore).poll (hguard hbefore)
  | broadcast text taken =>
      refine ⟨fun hran => ?_, fun hran => ?_, fun slot hslot => ?_⟩
      · exact (h.sound (broadcast_hubRan sockets text taken ▸ hran)).broadcast text taken
      · exact (h.unused (broadcast_hubRan sockets text taken ▸ hran)).broadcast text taken
      · rw [broadcast_hubRan]
        exact h.refused slot (broadcast_net sockets text taken ▸ hslot)
  | peerDelivers id bytes => exact h.of_same rfl rfl rfl rfl fun _ _ => rfl
  | peerDisconnects id => exact h.of_same rfl rfl rfl rfl fun _ _ => rfl

/-- Every run in which `retain()` picks no slot that the hub still names leaves each
connection's socket to it alone.  The guard is asked of the state in front of each `retain()`,
and of a first poll, which finds the table as it was zeroed. -/
theorem slots_owned_of_guarded (acceptKey : Bytes) (actions : List Action) (final : Sockets)
    (hguard : (machine acceptKey).Guarded SlotIsFree boot actions)
    (hexec : (machine acceptKey).exec boot actions = some final) : final.SlotsOwned := by
  have hfinal : final.Consistent :=
    (machine acceptKey).invariant_of_guarded
      (fun _ _ _ h hcondition hstep => consistent_step h hcondition hstep)
      actions boot final consistent_boot hguard hexec
  exact fun hran => (hfinal.sound hran).owned

/-- One upgrade, from the accept to the end of the request. -/
def upgrade : List Action :=
  [.accept, .retain, .adopt, .lookUp, .print, .print, .print, .finishRequest]

/-- Two clients; the first leaves, and the hub polls before a third arrives. -/
theorem slots_owned_of_guarded_three :
    let actions := upgrade ++ upgrade ++ [.peerDisconnects 0, .poll] ++ upgrade
    ∃ final, (machine []).exec boot actions = some final ∧
      (final.table 0).slot = some 0 ∧ final.link.retained 0 = some 2 ∧ final.SlotsOwned := by
  intro actions
  have hsome : ((machine []).exec boot actions).isSome = true := by decide
  obtain ⟨final, hexec⟩ := Option.isSome_iff_exists.mp hsome
  have hslot : ((machine []).exec boot actions).map
      (fun final => ((final.table 0).slot, final.link.retained 0)) = some (some 0, some 2) := by
    decide
  rw [hexec] at hslot
  obtain ⟨hentry, hclient⟩ := Prod.mk.inj (Option.some.inj hslot)
  exact ⟨final, hexec, hentry, hclient,
    slots_owned_of_guarded [] actions final (by decide) hexec⟩

/-- A client leaves, the next one gets its slot before the hub has polled, and two
entries name that slot. -/
theorem slot_shared :
    ∃ final, (machine []).exec boot
        (upgrade ++ [.peerDisconnects 0, .accept, .retain, .adopt]) = some final ∧
      ¬ final.SlotsOwned := by
  generalize hrun : (machine []).exec boot
    (upgrade ++ [.peerDisconnects 0, .accept, .retain, .adopt]) = result
  have hslots : result.map (fun final =>
      (final.hubRan, (final.table 0).slot, (final.table 1).slot)) =
      some (true, some 0, some 0) := by
    rw [← hrun]
    decide
  obtain ⟨final, rfl, hfinal⟩ := Option.map_eq_some_iff.mp hslots
  simp only [Prod.mk.injEq] at hfinal
  obtain ⟨hran, hfirst, hsecond⟩ := hfinal
  refine ⟨final, rfl, fun howned => ?_⟩
  have hsame := (howned hran).alone 0 1 0 hfirst hsecond
  cases hsame

end Sockets

end MatrixFaces.Api
