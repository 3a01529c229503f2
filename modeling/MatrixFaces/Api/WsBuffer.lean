import MatrixFaces.Api.WsHub
import MatrixFaces.Foundation.CMemory

set_option autoImplicit false

/-!
# The buffer of a WebSocket connection (`src/api/ws_hub.cpp`, `src/api/websocket.cpp`)

What `poll` does to the `kInboundCap` bytes of a connection, every access by its index:
the header read byte by byte, the payload unmasked in place, the terminator written behind
a text and taken out again, and what is left over shifted down.

An access outside of the buffer is `none`.  `Runs` says that a computation over the buffer
makes none, what it answers and what it leaves.

The main result is `drainFrames_stays_inside`, over every list of `Event`s of an entry (bytes
that come, a new connection, one that is closed) and every first content of the buffer.  No
access fails, the buffer is never full when the frames are taken, and what the hub does is
what `Api.WsHub` says, which knows no terminator.
-/

namespace MatrixFaces.Api.WsHub.Memory

open MatrixFaces.Foundation
open MatrixFaces.Foundation.Mem (Runs Keeps)

/-! ## One frame -/

/-- The length field, and the cursor behind it. -/
def readPayloadLen (len lenField : Nat) : Mem (Except Ws.ParseError (Nat × Nat)) :=
  if lenField < 126 then pure (.ok (lenField, 2))
  else if lenField = 126 then
    if len < 2 + 2 then pure (.error .kIncomplete)
    else do
      let bytes ← Mem.loads 2 2
      pure (.ok (Ws.bigEndian bytes, 4))
  else if len < 2 + 8 then pure (.error .kIncomplete)
  else do
    let bytes ← Mem.loads 2 8
    if Ws.bigEndian bytes ≥ 2 ^ 63 then pure (.error .kUnsupported)
    else pure (.ok (Ws.bigEndian bytes, 10))

/-- `parseHeader` of the first `len` bytes. -/
def parseHeader (len : Nat) : Mem (Except Ws.ParseError Ws.FrameHeader) :=
  if len < 2 then pure (.error .kIncomplete)
  else do
    let first ← Mem.load 0
    let second ← Mem.load 1
    if first &&& 0x70 != 0 then pure (.error .kUnsupported)
    else
      let fin := first &&& 0x80 != 0
      let opcode := first &&& 0x0F
      match ← readPayloadLen len (second &&& 0x7F).toNat with
      | .error error => pure (.error error)
      | .ok (payloadLen, cursor) =>
          if Ws.isControl opcode && (decide (payloadLen > 125) || !fin) then
            pure (.error .kUnsupported)
          else if second &&& 0x80 != 0 then
            if len < cursor + 4 then pure (.error .kIncomplete)
            else do
              let maskKey ← Mem.loads cursor 4
              pure (.ok ⟨fin, opcode, true, payloadLen, Block.ofBytes 4 maskKey, cursor + 4⟩)
          else pure (.ok ⟨fin, opcode, false, payloadLen, Block.zero 4, cursor⟩)

/-- The loop of `unmask`, from its `i`-th byte on. -/
def unmask (payload : Nat) (maskKey : Block 4) : Nat → Nat → Mem Unit
  | _, 0 => pure ()
  | i, n + 1 => do
      let c ← Mem.load (payload + i)
      Mem.store (payload + i) (c ^^^ maskKey.1.getD (i % 4) 0)
      unmask payload maskKey (i + 1) n

/-- The text case: the handler is called between the two writes to `buf[total]`, and sees
the payload with a NUL behind it. -/
def deliver (payload payloadLen total : Nat) : Mem Bytes := do
  let terminated ← Mem.load total
  Mem.store (payload + payloadLen) 0
  let json ← Mem.loads payload payloadLen
  Mem.store total terminated
  pure json

/-- The `switch` of `drainFrames`. -/
def dispatch (header : Ws.FrameHeader) (total : Nat) : Mem (Verdict Effect) :=
  if header.opcode = Ws.kText then do
    let json ← deliver header.headerLen header.payloadLen total
    pure (.frame (.message json) total)
  else if header.opcode = Ws.kPing then do
    let payload ← Mem.loads header.headerLen header.payloadLen
    pure (.frame (.pong payload) total)
  else if header.opcode = Ws.kClose then pure (.stop (.closed kCloseNormal))
  else if header.opcode = Ws.kPong then pure (.frame .ignored total)
  else if header.opcode = Ws.kBinary ∨ header.opcode = Ws.kContinuation then
    pure (.stop (.closed kCloseProtocolError))
  else pure (.frame .ignored total)

/-- One turn of `drainFrames`, up to the shift. -/
def readFrame (len : Nat) : Mem (Verdict Effect) := do
  match ← parseHeader len with
  | .error .kIncomplete => pure .wait
  | .error .kUnsupported => pure (.stop (.closed kCloseProtocolError))
  | .ok header =>
      if header.masked = false then pure (.stop (.closed kCloseProtocolError))
      else if header.payloadLen > kInboundCap - header.headerLen then
        pure (.stop (.closed kCloseTooBig))
      else
        let total := header.headerLen + header.payloadLen
        if len < total then pure .wait
        else do
          unmask header.headerLen header.maskKey 0 header.payloadLen
          dispatch header total

/-! ## `drainFrames` and `poll` -/

/-- `memmove(buf, buf + total, len)`, where it is called. -/
def shift (total len : Nat) : Mem Unit :=
  if len > 0 then do
    let rest ← Mem.loads total len
    Mem.stores 0 rest
  else pure ()

/-- What came of `drainFrames`: the fill level at each of its turns, what the frames made
the hub do, and the fill level behind it unless the connection was closed. -/
structure Drained where
  levels : List Nat
  effects : List Effect
  len : Option Nat

/-- The loop of `drainFrames`; with no turns left it is not over. -/
def drainFrames : Nat → Nat → Mem Drained
  | 0, _ => fun _ => none
  | turns + 1, len => do
      match ← readFrame len with
      | .wait => pure ⟨[len], [], some len⟩
      | .stop effect => pure ⟨[len], [effect], none⟩
      | .frame effect total =>
          shift total (len - total)
          let rest ← drainFrames turns (len - total)
          pure ⟨len :: rest.levels, effect :: rest.effects, rest.len⟩

/-- The loop that reads what has arrived: the fill level behind it and what was not read. -/
def fill : Bytes → Nat → Mem (Nat × Bytes)
  | [], len => pure (len, [])
  | c :: rest, len =>
      if len < kInboundCap then do
        Mem.store len c
        fill rest (len + 1)
      else pure (len, c :: rest)

/-- The part of `poll` behind the test of `connected()`, and what was not read. -/
def pollEntry (len : Nat) (arrived : Bytes) : Mem (Drained × Bytes) := do
  let (len, arrived) ← fill arrived len
  if len ≥ kInboundCap then pure (⟨[], [.closed kCloseTooBig], none⟩, arrived)
  else
    let drained ← drainFrames (len + 1) len
    pure (drained, arrived)

/-! ## What one turn does -/

variable {mem : Bytes} {len : Nat}

theorem take_drop_take {p n : Nat} (h : p + n ≤ len) :
    ((mem.take len).drop p).take n = (mem.drop p).take n := by
  rw [List.drop_take, List.take_take, Nat.min_eq_left (by omega)]

theorem readPayloadLen_keeps (hlen : len ≤ mem.length) (lenField : Nat) :
    Keeps (readPayloadLen len lenField) mem
      (Ws.readPayloadLen lenField ((mem.take len).drop 2)) := by
  have hrest : ((mem.take len).drop 2).length = len - 2 := by
    rw [List.length_drop, List.length_take, Nat.min_eq_left hlen]
  rw [readPayloadLen, Ws.readPayloadLen]
  by_cases hshort : lenField < 126
  · rw [if_pos hshort, if_pos hshort]
    exact Runs.pure _ mem
  · rw [if_neg hshort, if_neg hshort]
    by_cases hword : lenField = 126
    · rw [if_pos hword, if_pos hword]
      by_cases hmissing : len < 2 + 2
      · rw [if_pos hmissing, if_pos (by omega)]
        exact Runs.pure _ mem
      · rw [if_neg hmissing, if_neg (by omega), take_drop_take (by omega)]
        exact (Runs.loads (by omega)).bind (Runs.pure _ mem)
    · rw [if_neg hword, if_neg hword]
      by_cases hmissing : len < 2 + 8
      · rw [if_pos hmissing, if_pos (by omega)]
        exact Runs.pure _ mem
      · rw [if_neg hmissing, if_neg (by omega), take_drop_take (by omega)]
        refine (Runs.loads (by omega)).bind ?_
        split
        · exact Runs.pure _ mem
        · exact Runs.pure _ mem

/-- The header is read off the first `len` bytes and nothing behind them. -/
theorem parseHeader_keeps (hlen : len ≤ mem.length) :
    Keeps (parseHeader len) mem (Ws.parseHeader (mem.take len)) := by
  by_cases hshort : len < 2
  · have hincomplete : Ws.parseHeader (mem.take len) = .error .kIncomplete := by
      have hlength : (mem.take len).length < 2 := by
        rw [List.length_take]
        omega
      match mem.take len, hlength with
      | [], _ => rfl
      | [_], _ => rfl
    rw [parseHeader, if_pos hshort, hincomplete]
    exact Runs.pure _ mem
  · obtain ⟨k, rfl⟩ : ∃ k, len = k + 2 := ⟨len - 2, by omega⟩
    match mem, hlen with
    | [], hlen => simp at hlen
    | [_], hlen => simp at hlen
    | first :: second :: more, hlen =>
        have hpayload := readPayloadLen_keeps hlen (second &&& 0x7F).toNat
        have htake : (first :: second :: more).take (k + 2) = first :: second :: more.take k := rfl
        have hdrop : ((first :: second :: more).take (k + 2)).drop 2 = more.take k := rfl
        rw [hdrop] at hpayload
        have hlength : (first :: second :: more.take k).length = k + 2 := by
          rw [← htake, List.length_take, Nat.min_eq_left hlen]
        rw [parseHeader, if_neg hshort, htake, Ws.parseHeader]
        refine (Runs.load rfl).bind ((Runs.load rfl).bind ?_)
        by_cases hreserved : (first &&& 0x70 != 0) = true
        · rw [if_pos hreserved, if_pos hreserved]
          exact Runs.pure _ _
        · rw [if_neg hreserved, if_neg hreserved]
          refine hpayload.bind ?_
          cases Ws.readPayloadLen (second &&& 0x7F).toNat (more.take k) with
          | error error => exact Runs.pure _ _
          | ok read =>
              obtain ⟨payloadLen, cursor⟩ := read
              dsimp only
              split
              · exact Runs.pure _ _
              · split
                · by_cases hkey : k + 2 < cursor + 4
                  · rw [if_pos hkey, dif_pos (by rw [hlength]; exact hkey)]
                    exact Runs.pure _ _
                  · rw [if_neg hkey, dif_neg (by rw [hlength]; exact hkey)]
                    have hbound : cursor + 4 ≤ (first :: second :: more.take k).length := by
                      omega
                    have hbytes : ((first :: second :: more).drop cursor).take 4 =
                        ((first :: second :: more.take k).drop cursor).take 4 := by
                      rw [← htake, take_drop_take (by omega)]
                    have hblock := Block.ofBytes_append (⟨_, length_take_drop hbound⟩ : Block 4) []
                    rw [List.append_nil] at hblock
                    refine (Runs.loads (by omega)).bind ?_
                    rw [hbytes, hblock]
                    exact Runs.pure _ _
                · exact Runs.pure _ _

/-- What `unmask` makes of its bytes from the `i`-th on. -/
def unmaskedFrom (maskKey : Block 4) (i : Nat) (bytes : Bytes) : Bytes :=
  bytes.mapIdx fun j (b : Byte) => b ^^^ maskKey.1.getD ((i + j) % 4) 0

theorem unmaskedFrom_zero (maskKey : Block 4) (bytes : Bytes) :
    unmaskedFrom maskKey 0 bytes = Ws.unmask bytes maskKey := by
  simp only [unmaskedFrom, Ws.unmask, Nat.zero_add]

theorem unmaskedFrom_cons (maskKey : Block 4) (i : Nat) (b : Byte) (rest : Bytes) :
    unmaskedFrom maskKey i (b :: rest) =
      (b ^^^ maskKey.1.getD (i % 4) 0) :: unmaskedFrom maskKey (i + 1) rest := by
  have hindex : (fun j (c : Byte) => c ^^^ maskKey.1.getD ((i + (j + 1)) % 4) 0) =
      fun j c => c ^^^ maskKey.1.getD ((i + 1 + j) % 4) 0 := by
    funext j c
    rw [Nat.add_comm j 1, Nat.add_assoc]
  rw [unmaskedFrom, List.mapIdx_cons, hindex]
  rfl

/-- The payload is unmasked in place, and nothing else is written. -/
theorem unmask_runs (maskKey : Block 4) {payload i n : Nat} (h : payload + i + n ≤ mem.length) :
    Runs (unmask payload maskKey i n) mem ()
      (memcpy mem (payload + i) (unmaskedFrom maskKey i ((mem.drop (payload + i)).take n))) := by
  induction n generalizing i mem with
  | zero =>
      rw [List.take_zero, unmaskedFrom, List.mapIdx_nil, memcpy_nil]
      exact Runs.pure () mem
  | succ n ih =>
      have hlt : payload + i < mem.length := by omega
      rw [List.drop_eq_getElem_cons hlt, List.take_succ_cons, unmaskedFrom_cons]
      refine (Runs.load (List.getElem?_eq_getElem hlt)).bind ((Runs.store hlt _).bind ?_)
      generalize mem[payload + i] ^^^ maskKey.1.getD (i % 4) 0 = c
      have hrest := @ih (mem.set (payload + i) c) (i + 1) (by rw [List.length_set]; omega)
      have hbehind : (mem.set (payload + i) c).drop (payload + (i + 1)) =
          mem.drop (payload + i + 1) := by
        rw [← Nat.add_assoc, List.drop_set_of_lt (Nat.lt_succ_self _)]
      rw [hbehind, ← Nat.add_assoc, memcpy_set hlt] at hrest
      exact hrest

/-- The terminator is gone again when the handler has returned. -/
theorem deliver_keeps {payload payloadLen : Nat} (h : payload + payloadLen < mem.length) :
    Keeps (deliver payload payloadLen (payload + payloadLen)) mem
      ((mem.drop payload).take payloadLen) := by
  have hback : (mem.set (payload + payloadLen) 0).set (payload + payloadLen)
      mem[payload + payloadLen] = mem := by
    rw [List.set_set, List.set_getElem_self]
  have hseen : ((mem.set (payload + payloadLen) 0).drop payload).take payloadLen =
      (mem.drop payload).take payloadLen := by
    rw [List.drop_set, if_neg (by omega), Nat.add_sub_cancel_left, List.take_set_of_le]
    exact Nat.le_refl _
  refine (Runs.load (List.getElem?_eq_getElem h)).bind ((Runs.store h 0).bind ?_)
  refine (Runs.loads (by rw [List.length_set]; omega)).bind ?_
  refine (Runs.store (by rw [List.length_set]; exact h) _).bind ?_
  rw [hback, hseen]
  exact Runs.pure _ mem

theorem dispatch_ne_wait (opcode : Byte) (payload : Bytes) (total : Nat) :
    WsHub.dispatch opcode payload total ≠ .wait := by
  rw [WsHub.dispatch]
  repeat' split
  all_goals intro hwait
  all_goals cases hwait

theorem dispatch_keeps {header : Ws.FrameHeader}
    (h : header.headerLen + header.payloadLen < mem.length) :
    Keeps (dispatch header (header.headerLen + header.payloadLen)) mem
      (WsHub.dispatch header.opcode ((mem.drop header.headerLen).take header.payloadLen)
        (header.headerLen + header.payloadLen)) := by
  rw [dispatch, WsHub.dispatch]
  split
  · exact (deliver_keeps h).bind (Runs.pure _ mem)
  · split
    · exact (Runs.loads h.le).bind (Runs.pure _ mem)
    · split
      · exact Runs.pure _ mem
      · split
        · exact Runs.pure _ mem
        · split
          · exact Runs.pure _ mem
          · exact Runs.pure _ mem

/-- What a turn leaves behind: the verdict on the bytes in the buffer, and behind a frame the
bytes of the next one as they were. -/
structure TurnLeaves (mem : Bytes) (len : Nat) (after : Bytes) : Prop where
  runs : Runs (readFrame len) mem (WsHub.readFrame (mem.take len)) after
  size : after.length = mem.length
  waits : WsHub.readFrame (mem.take len) = .wait → after = mem
  next : ∀ effect total, WsHub.readFrame (mem.take len) = .frame effect total →
    after.drop total = mem.drop total

/-- A turn that writes nothing. -/
theorem TurnLeaves.same
    (h : Keeps (readFrame len) mem (WsHub.readFrame (mem.take len))) : TurnLeaves mem len mem :=
  ⟨h, rfl, fun _ => rfl, fun _ _ _ => rfl⟩

/-- A frame that is all there is unmasked in place and dispatched.  It ends in front of the
last byte, as the buffer is not full. -/
theorem TurnLeaves.whole {header : Ws.FrameHeader}
    (hparse : Keeps (parseHeader len) mem (Ws.parseHeader (mem.take len)))
    (hheader : Ws.parseHeader (mem.take len) = .ok header) (hlen : len < mem.length)
    (hmasked : ¬ header.masked = false)
    (hlarge : ¬ header.payloadLen > kInboundCap - header.headerLen)
    (hpart : ¬ len < header.headerLen + header.payloadLen) :
    ∃ after, TurnLeaves mem len after := by
  have hdata : (mem.take len).length = len := by
    rw [List.length_take, Nat.min_eq_left hlen.le]
  have htotal : header.headerLen + header.payloadLen ≤ len := Nat.le_of_not_lt hpart
  have hstart : header.headerLen ≤ mem.length := by omega
  have hpayload : ((mem.drop header.headerLen).take header.payloadLen).length =
      header.payloadLen := length_take_drop (by omega)
  obtain ⟨payload, hbytes⟩ : ∃ payload, Ws.unmask
      ((mem.drop header.headerLen).take header.payloadLen) header.maskKey = payload := ⟨_, rfl⟩
  have hlength : payload.length = header.payloadLen := by
    rw [← hbytes, Ws.unmask, List.length_mapIdx, hpayload]
  have hunmask := @unmask_runs mem header.maskKey header.headerLen 0 header.payloadLen (by omega)
  rw [Nat.add_zero, unmaskedFrom_zero, hbytes] at hunmask
  have hsize : (memcpy mem header.headerLen payload).length = mem.length :=
    length_memcpy (by omega)
  have hdispatch := @dispatch_keeps (memcpy mem header.headerLen payload) header (by omega)
  have hread := drop_take_memcpy payload hstart
  rw [hlength] at hread
  rw [hread] at hdispatch
  have hverdict : WsHub.readFrame (mem.take len) = WsHub.dispatch header.opcode payload
      (header.headerLen + header.payloadLen) := by
    rw [WsHub.readFrame, hheader]
    dsimp only
    rw [if_neg hmasked, if_neg hlarge, hdata, if_neg hpart, take_drop_take htotal, hbytes]
  refine ⟨memcpy mem header.headerLen payload, ?runs, hsize, fun hwait => ?waits,
    fun effect total hframe => ?next⟩
  case runs =>
    rw [hheader] at hparse
    rw [hverdict, readFrame]
    refine hparse.bind ?_
    dsimp only
    rw [if_neg hmasked, if_neg hlarge, if_neg hpart]
    exact hunmask.bind hdispatch
  case waits =>
    rw [hverdict] at hwait
    exact absurd hwait (dispatch_ne_wait _ _ _)
  case next =>
    rw [hverdict] at hframe
    rw [dispatch_eq_frame hframe, ← hlength]
    exact drop_memcpy payload hstart

/-- A turn of the loop, whatever the buffer holds. -/
theorem readFrame_runs (hfull : mem.length = kInboundCap) (hlen : len < kInboundCap) :
    ∃ after, TurnLeaves mem len after := by
  have hle : len ≤ mem.length := by omega
  have hdata : (mem.take len).length = len := by
    rw [List.length_take, Nat.min_eq_left hle]
  have hparse := parseHeader_keeps hle
  cases hheader : Ws.parseHeader (mem.take len) with
  | error error =>
      rw [hheader] at hparse
      refine ⟨mem, .same ?_⟩
      rw [readFrame, WsHub.readFrame, hheader]
      cases error with
      | kIncomplete => exact hparse.bind (Runs.pure _ mem)
      | kUnsupported => exact hparse.bind (Runs.pure _ mem)
  | ok header =>
      by_cases hmasked : header.masked = false
      · refine ⟨mem, .same ?_⟩
        rw [hheader] at hparse
        rw [readFrame, WsHub.readFrame, hheader]
        refine hparse.bind ?_
        dsimp only
        rw [if_pos hmasked, if_pos hmasked]
        exact Runs.pure _ mem
      · by_cases hlarge : header.payloadLen > kInboundCap - header.headerLen
        · refine ⟨mem, .same ?_⟩
          rw [hheader] at hparse
          rw [readFrame, WsHub.readFrame, hheader]
          refine hparse.bind ?_
          dsimp only
          rw [if_neg hmasked, if_neg hmasked, if_pos hlarge, if_pos hlarge]
          exact Runs.pure _ mem
        · by_cases hpart : len < header.headerLen + header.payloadLen
          · refine ⟨mem, .same ?_⟩
            rw [hheader] at hparse
            rw [readFrame, WsHub.readFrame, hheader]
            refine hparse.bind ?_
            dsimp only
            rw [if_neg hmasked, if_neg hmasked, if_neg hlarge, if_neg hlarge, if_pos hpart, hdata,
              if_pos hpart]
            exact Runs.pure _ mem
          · exact TurnLeaves.whole hparse hheader (by omega) hmasked hlarge hpart

/-! ## The loop -/

theorem shift_runs {total n : Nat} (h : total + n ≤ mem.length) :
    ∃ after, Runs (shift total n) mem () after ∧ after.length = mem.length ∧
      after.take n = (mem.drop total).take n := by
  by_cases hrest : n > 0
  · have hbytes : ((mem.drop total).take n).length = n := length_take_drop h
    have hstores := @Runs.stores mem 0 ((mem.drop total).take n) (by omega)
    have hsize := @length_memcpy mem ((mem.drop total).take n) 0 (by omega)
    refine ⟨_, ?_, hsize, ?_⟩
    · rw [shift, if_pos hrest]
      exact (Runs.loads h).bind hstores
    · have htake := @take_memcpy mem 0 ((mem.drop total).take n) (Nat.zero_le _)
      rw [hbytes, Nat.zero_add, List.take_zero, List.nil_append] at htake
      exact htake
  · have hnone : n = 0 := Nat.le_zero.mp (Nat.not_lt.mp hrest)
    refine ⟨mem, ?_, rfl, ?_⟩
    · rw [shift, if_neg hrest]
      exact Runs.pure () mem
    · rw [hnone, List.take_zero, List.take_zero]

/-- The loop has drained the first `len` bytes as a reader of frames does: it had the same
effects, and what it leaves in front of the buffer is what such a reader leaves over. -/
structure Drains (mem : Bytes) (len : Nat) (drained : Drained) (after : Bytes) : Prop where
  size : after.length = mem.length
  levels : ∀ level ∈ drained.levels, level ≤ len
  effects : drained.effects = (WsHub.drainFrames (mem.take len)).1
  rest : drained.len.map after.take = (WsHub.drainFrames (mem.take len)).2
  le : ∀ left ∈ drained.len, left ≤ len

/-- Every frame takes at least a byte off, so that there is a turn for each level. -/
theorem drainFrames_runs {turns : Nat} (hfull : mem.length = kInboundCap)
    (hlen : len < kInboundCap) (hturns : len < turns) :
    ∃ drained after, Runs (drainFrames turns len) mem drained after ∧
      Drains mem len drained after := by
  induction turns generalizing len mem with
  | zero => exact absurd hturns (Nat.not_lt_zero _)
  | succ turns ih =>
      obtain ⟨middle, hturn⟩ := readFrame_runs hfull hlen
      cases hread : WsHub.readFrame (mem.take len) with
      | wait =>
          have hdrain := framing.drain_of_wait hread
          have hmiddle := hturn.waits hread
          have hruns := hturn.runs
          rw [hread, hmiddle] at hruns
          refine ⟨⟨[len], [], some len⟩, mem, hruns.bind (Runs.pure _ mem), rfl, ?_, ?_, ?_, ?_⟩
          · simp
          · rw [WsHub.drainFrames, hdrain]
          · rw [WsHub.drainFrames, hdrain]
            rfl
          · simp
      | stop effect =>
          have hdrain := framing.drain_of_stop hread
          have hruns := hturn.runs
          rw [hread] at hruns
          refine ⟨⟨[len], [effect], none⟩, middle, hruns.bind (Runs.pure _ middle), hturn.size,
            ?_, ?_, ?_, ?_⟩
          · simp
          · rw [WsHub.drainFrames, hdrain]
          · rw [WsHub.drainFrames, hdrain]
            rfl
          · simp
      | frame effect total =>
          have hdrain := framing.drain_of_frame hread
          have hframe := framing.frame_length hread
          have htotal : total ≤ len := by
            have hle := hframe.2
            rw [List.length_take] at hle
            omega
          have hsize := hturn.size
          obtain ⟨shifted, hshift, hshiftedSize, hshifted⟩ :=
            @shift_runs middle total (len - total) (by omega)
          have hcontents : shifted.take (len - total) = (mem.take len).drop total := by
            rw [hshifted, hturn.next effect total hread, List.drop_take]
          obtain ⟨drained, after, hruns, hdrains⟩ :=
            @ih shifted (len - total) (by omega) (by omega) (by omega)
          have heffects := hdrains.effects
          have hrest := hdrains.rest
          have hle := hdrains.le
          rw [hcontents, WsHub.drainFrames] at heffects hrest
          have hfirst := hturn.runs
          rw [hread] at hfirst
          refine ⟨⟨len :: drained.levels, effect :: drained.effects, drained.len⟩, after,
            hfirst.bind (hshift.bind (hruns.bind (Runs.pure _ after))), ?_, ?_, ?_, ?_, ?_⟩
          · rw [hdrains.size, hshiftedSize, hsize]
          · intro level hlevel
            rcases List.mem_cons.mp hlevel with rfl | hlater
            · exact Nat.le_refl _
            · exact (hdrains.levels level hlater).trans (Nat.sub_le _ _)
          · rw [WsHub.drainFrames, hdrain, heffects]
          · rw [WsHub.drainFrames, hdrain, hrest]
          · exact fun left hleft => (hle left hleft).trans (Nat.sub_le _ _)

/-- Reading what has arrived: as much of it as there is room for, behind what was there. -/
theorem fill_runs (hfull : mem.length = kInboundCap) (hlen : len ≤ kInboundCap)
    (arrived : Bytes) :
    ∃ level after, Runs (fill arrived len) mem (level, arrived.drop (kInboundCap - len)) after ∧
      after.length = mem.length ∧ level ≤ kInboundCap ∧
      after.take level = mem.take len ++ arrived.take (kInboundCap - len) := by
  induction arrived generalizing len mem with
  | nil =>
      refine ⟨len, mem, ?_, rfl, hlen, ?_⟩
      · rw [fill, List.drop_nil]
        exact Runs.pure _ mem
      · rw [List.take_nil, List.append_nil]
  | cons c rest ih =>
      by_cases hroom : len < kInboundCap
      · have hlt : len < mem.length := by omega
        obtain ⟨level, after, hruns, hsize, hlevel, hcontents⟩ :=
          @ih (mem.set len c) (len + 1) (by rw [List.length_set]; exact hfull) hroom
        have hmore : kInboundCap - len = kInboundCap - (len + 1) + 1 := by omega
        have hset : (mem.set len c).take (len + 1) = mem.take len ++ [c] := by
          rw [set_eq_memcpy hlt]
          exact take_memcpy [c] hlt.le
        refine ⟨level, after, ?_, ?_, hlevel, ?_⟩
        · rw [fill, if_pos hroom, hmore, List.drop_succ_cons]
          exact (Runs.store hlt c).bind hruns
        · rw [hsize, List.length_set]
        · rw [hcontents, hset, hmore, List.take_succ_cons, List.append_assoc,
            List.singleton_append]
      · have hnone : kInboundCap - len = 0 := Nat.sub_eq_zero_of_le (Nat.not_lt.mp hroom)
        refine ⟨len, mem, ?_, rfl, hlen, ?_⟩
        · rw [fill, if_neg hroom, hnone, List.drop_zero]
          exact Runs.pure _ mem
        · rw [hnone, List.take_zero, List.append_nil]

/-- A poll never leaves the buffer, and drains no full one. -/
theorem pollEntry_runs (hfull : mem.length = kInboundCap) (hlen : len < kInboundCap)
    (arrived : Bytes) :
    ∃ drained rest after, Runs (pollEntry len arrived) mem (drained, rest) after ∧
      after.length = kInboundCap ∧ (∀ level ∈ drained.levels, level < kInboundCap) ∧
      (∀ left ∈ drained.len, left < kInboundCap) ∧
      WsHub.pollEntry ⟨mem.take len, arrived⟩ =
        (drained.effects, drained.len.map fun left => ⟨after.take left, rest⟩) := by
  obtain ⟨level, filled, hfill, hsize, hlevel, hcontents⟩ := fill_runs hfull hlen.le arrived
  have hbuf : (mem.take len).length = len := by
    rw [List.length_take]
    omega
  have hcount : (mem.take len ++ arrived.take (kInboundCap - len)).length = level := by
    rw [← hcontents, List.length_take]
    omega
  by_cases hover : level ≥ kInboundCap
  · refine ⟨⟨[], [.closed kCloseTooBig], none⟩, arrived.drop (kInboundCap - len), filled,
      hfill.bind ?_, hsize.trans hfull, ?_, ?_, ?_⟩
    · dsimp only
      rw [if_pos hover]
      exact Runs.pure _ filled
    · simp
    · simp
    · rw [WsHub.pollEntry]
      dsimp only
      rw [hbuf, hcount, if_pos hover]
      rfl
  · obtain ⟨drained, after, hruns, hdrains⟩ :=
      @drainFrames_runs filled level (level + 1) (hsize.trans hfull) (Nat.not_le.mp hover)
        (Nat.lt_succ_self level)
    refine ⟨drained, arrived.drop (kInboundCap - len), after, hfill.bind ?_,
      hdrains.size.trans (hsize.trans hfull),
      fun shown hshown => (hdrains.levels shown hshown).trans_lt (Nat.not_le.mp hover),
      fun left hleft => (hdrains.le left hleft).trans_lt (Nat.not_le.mp hover), ?_⟩
    · dsimp only
      rw [if_neg hover]
      exact hruns.bind (Runs.pure _ after)
    · have heffects := hdrains.effects
      have hrest := hdrains.rest
      rw [hcontents] at heffects hrest
      rw [WsHub.pollEntry]
      dsimp only
      rw [hbuf, hcount, if_neg hover, ← heffects, ← hrest, Option.map_map]
      rfl

/-! ## A connection over time -/

theorem kInboundCap_pos : 0 < kInboundCap := by decide

/-- An entry of the table, with what its client has for it and was not read.  `slot` is
whether `slot >= 0`. -/
structure Connection where
  slot : Bool
  len : Nat
  buf : Bytes
  arrived : Bytes

/-- What can happen to an entry. -/
inductive Event where
  | adopt
  /-- These bytes have arrived since, and the hub polls. -/
  | poll (chunk : Bytes)
  /-- The client is gone, or would not take a broadcast. -/
  | gone

/-- What the entry's frames made the hub do, and the fill levels at which `drainFrames` looked
for one. -/
structure History where
  log : List Effect
  levels : List Nat
  connection : Connection

namespace History

/-- A free entry, with whatever its buffer holds. -/
def initial (buf : Block kInboundCap) : History := ⟨[], [], ⟨false, 0, buf.1, []⟩⟩

def step (history : History) : Event → Option History
  | .adopt =>
      if history.connection.slot then some history
      else some { history with connection := ⟨true, 0, history.connection.buf, []⟩ }
  | .poll chunk =>
      if history.connection.slot then
        (pollEntry history.connection.len (history.connection.arrived ++ chunk)
          history.connection.buf).map fun ((drained, arrived), buf) =>
            ⟨history.log ++ drained.effects, history.levels ++ drained.levels,
              ⟨drained.len.isSome, drained.len.getD 0, buf, arrived⟩⟩
      else some history
  | .gone => some { history with connection := ⟨false, 0, history.connection.buf, []⟩ }

/-- The connection as a list of bytes in front of a reader of frames. -/
def session (history : History) : Session :=
  ⟨history.log, if history.connection.slot then
    some ⟨history.connection.buf.take history.connection.len, history.connection.arrived⟩
    else none⟩

/-- There is room for one byte more, at least. -/
structure HasRoom (history : History) : Prop where
  size : history.connection.buf.length = kInboundCap
  len_lt : history.connection.len < kInboundCap
  levels_lt : ∀ level ∈ history.levels, level < kInboundCap

theorem hasRoom_initial (buf : Block kInboundCap) : (initial buf).HasRoom where
  size := buf.2
  len_lt := kInboundCap_pos
  levels_lt _ h := absurd h List.not_mem_nil

end History

/-- What the same events do to the reader of frames. -/
def follow (session : Session) : Event → Session
  | .adopt => if session.entry.isSome then session else { session with entry := some ⟨[], []⟩ }
  | .poll chunk => session.poll chunk
  | .gone => { session with entry := none }

theorem step_runs {history : History} (h : history.HasRoom) (event : Event) :
    ∃ next, history.step event = some next ∧ next.HasRoom ∧
      next.session = follow history.session event := by
  obtain ⟨log, levels, ⟨slot, len, buf, arrived⟩⟩ := history
  obtain ⟨hsize, hlen, hlevels⟩ := h
  cases event with
  | adopt =>
      cases slot with
      | true => exact ⟨_, rfl, ⟨hsize, hlen, hlevels⟩, rfl⟩
      | false => exact ⟨_, rfl, ⟨hsize, kInboundCap_pos, hlevels⟩, rfl⟩
  | gone => exact ⟨_, rfl, ⟨hsize, kInboundCap_pos, hlevels⟩, rfl⟩
  | poll chunk =>
      cases slot with
      | false => exact ⟨_, rfl, ⟨hsize, hlen, hlevels⟩, rfl⟩
      | true =>
          obtain ⟨drained, rest, after, hruns, hafter, hnew, hleft, hpoll⟩ :=
            pollEntry_runs hsize hlen (arrived ++ chunk)
          refine ⟨⟨log ++ drained.effects, levels ++ drained.levels,
            ⟨drained.len.isSome, drained.len.getD 0, after, rest⟩⟩, ?_, ⟨hafter, ?_, ?_⟩, ?_⟩
          · change (pollEntry len (arrived ++ chunk) buf).map _ = _
            rw [show pollEntry len (arrived ++ chunk) buf = _ from hruns]
            rfl
          · cases hdrained : drained.len with
            | none => exact kInboundCap_pos
            | some left => exact hleft left hdrained
          · exact List.forall_mem_append.mpr ⟨hlevels, hnew⟩
          · change _ = Session.poll ⟨log, some ⟨buf.take len, arrived⟩⟩ chunk
            rw [Session.poll]
            dsimp only
            rw [hpoll]
            rw [History.session]
            cases drained.len with
            | none => rfl
            | some left => rfl

/-- Over every stream of bytes, however it is cut into polls, whatever else happens to the entry
and whatever its buffer held before: no access is outside of the buffer, the loops come to their
end, `drainFrames` never sees the buffer full, and what the frames make the hub do is what a
reader of frames without a terminator would.  A turn of `drainFrames` leaves the bytes behind
its frame as they were. -/
theorem drainFrames_stays_inside (buf : Block kInboundCap) (events : List Event) :
    (∃ history, events.foldlM History.step (History.initial buf) = some history ∧
      (∀ level ∈ history.levels, level < kInboundCap) ∧
      history.session = events.foldl follow ⟨[], none⟩) ∧
    ∀ (mem : Block kInboundCap) (len : Fin kInboundCap), ∃ after,
      Runs (readFrame len) mem.1 (WsHub.readFrame (mem.1.take len)) after ∧
      ∀ effect total, WsHub.readFrame (mem.1.take len) = .frame effect total →
        after.drop total = mem.1.drop total := by
  constructor
  · have hrun : ∀ history : History, history.HasRoom →
        ∃ final, events.foldlM History.step history = some final ∧ final.HasRoom ∧
          final.session = events.foldl follow history.session := by
      induction events with
      | nil => exact fun history hroom => ⟨history, rfl, hroom, rfl⟩
      | cons event events ih =>
          intro history hroom
          obtain ⟨next, hstep, hnext, hsession⟩ := step_runs hroom event
          obtain ⟨final, hfinal, hfinalRoom, hfinalSession⟩ := ih next hnext
          refine ⟨final, ?_, hfinalRoom, ?_⟩
          · rw [List.foldlM_cons, hstep]
            exact hfinal
          · rw [hfinalSession, hsession, List.foldl_cons]
    obtain ⟨final, hfinal, hroom, hsession⟩ := hrun _ (History.hasRoom_initial buf)
    exact ⟨final, hfinal, hroom.levels_lt, hsession⟩
  · intro mem len
    obtain ⟨after, hturn⟩ := readFrame_runs mem.2 len.isLt
    exact ⟨after, hturn.runs, hturn.next⟩

end MatrixFaces.Api.WsHub.Memory
