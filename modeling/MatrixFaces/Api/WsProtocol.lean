import MatrixFaces.Api.WsHub

set_option autoImplicit false

/-!
# What the protocol allows

`WireFrame` is a frame as the wire format defines it, whatever its fields say.
`protocol` reads a stream up to its first terminating frame; the hub is compared
with it.

A frame `Terminates` if the hub is to close for it: a close, an unmasked frame, one with a
reserved bit or opcode, a binary one, a fragment, a control frame that is too long, a frame
that does not fit the buffer.  It `Leaks` if all that is wrong with it is a text's missing
FIN or a reserved opcode, which the hub does not look at.  `Faithful` says that the hub
handed over the texts of the stream, and nothing behind a terminating frame, and closed if
there was one.

The main result is `receive_faithful_iff`, for every stream that stays below the buffer's
capacity, however it is cut: the hub is faithful exactly if the first terminating frame that
was received whole does not leak.  `leaks_delivered` has the two kinds that do.
-/

namespace MatrixFaces.Api.WsHub

open MatrixFaces.Foundation

/-- A whole frame on the wire. -/
structure WireFrame where
  fin : Bool
  /-- One of the three reserved bits is set. -/
  reserved : Bool
  opcode : Byte
  masked : Bool
  payloadLen : Nat
  maskKey : Block 4
  headerLen : Nat
  deriving DecidableEq, Repr

/-- The payload length and the cursor behind it, without judging the length. -/
def wireLength (lenField : Nat) (rest : Bytes) : Option (Nat × Nat) :=
  if lenField < 126 then some (lenField, 2)
  else if lenField = 126 then
    if rest.length < 2 then none else some (Ws.bigEndian (rest.take 2), 4)
  else if rest.length < 8 then none
  else some (Ws.bigEndian (rest.take 8), 10)

/-- The first frame of a stream, once its header is there. -/
def wireHeader (data : Bytes) : Option WireFrame :=
  match data with
  | first :: second :: rest =>
      (wireLength (second &&& 0x7F).toNat rest).bind fun read =>
        let frame : WireFrame :=
          { fin := first &&& 0x80 != 0
            reserved := first &&& 0x70 != 0
            opcode := first &&& 0x0F
            masked := second &&& 0x80 != 0
            payloadLen := read.1
            maskKey := Block.zero 4
            headerLen := read.2 }
        if second &&& 0x80 != 0 then
          if h : data.length < read.2 + 4 then none
          else
            some { frame with
              maskKey := ⟨(data.drop read.2).take 4, length_take_drop (not_lt.mp h)⟩
              headerLen := read.2 + 4 }
        else some frame
  | _ => none

namespace WireFrame

def total (frame : WireFrame) : Nat := frame.headerLen + frame.payloadLen

/-- An opcode below 8 belongs to a data frame. -/
def isData (frame : WireFrame) : Bool := frame.opcode < 8

/-- `0x3`–`0x7` and `0xB`–`0xF`. -/
def isReservedOpcode (frame : WireFrame) : Bool :=
  (3 ≤ frame.opcode && frame.opcode ≤ 7) || 11 ≤ frame.opcode

/-- After this frame nothing more is read: a close frame, or a frame outside the
supported protocol. -/
def Terminates (frame : WireFrame) : Bool :=
  frame.opcode == Ws.kClose || decide (frame.total > kInboundCap) || frame.reserved ||
    !frame.masked || (frame.isData && !frame.fin) || frame.opcode == Ws.kContinuation ||
    frame.opcode == Ws.kBinary || frame.isReservedOpcode ||
    (!frame.isData && (!frame.fin || decide (frame.payloadLen > 125)))

/-- All that is wrong with the frame is a clear FIN bit on a text frame, or a
reserved opcode. -/
def Leaks (frame : WireFrame) : Bool :=
  decide (frame.total ≤ kInboundCap) && !frame.reserved && frame.masked &&
    ((frame.opcode == Ws.kText && !frame.fin) ||
      (frame.isReservedOpcode && (frame.isData ||
        (frame.fin && decide (frame.payloadLen ≤ 125)))))

/-- The unmasked payload, from the stream the frame is in front of. -/
def payload (frame : WireFrame) (data : Bytes) : Bytes :=
  Ws.unmask ((data.drop frame.headerLen).take frame.payloadLen) frame.maskKey

end WireFrame

/-- A frame of a stream in order of the protocol. -/
inductive Allowed where
  | text (payload : Bytes)
  | control
  | terminated (frame : WireFrame)
  deriving DecidableEq, Repr

def Allowed.text? : Allowed → Option Bytes
  | .text payload => some payload
  | _ => none

/-- The first frame, once it has been received whole. -/
def readAllowed (data : Bytes) : Verdict Allowed :=
  match wireHeader data with
  | none => .wait
  | some frame =>
      if data.length < frame.total then .wait
      else if frame.Terminates then .stop (.terminated frame)
      else if frame.opcode = Ws.kText then .frame (.text (frame.payload data)) frame.total
      else .frame .control frame.total

/-! ## The hub's header against the wire's -/

/-- The hub reads the length field of the wire, and refuses lengths from 2^63 on. -/
theorem readPayloadLen_eq (lenField : Nat) (rest : Bytes) :
    Ws.readPayloadLen lenField rest =
      match wireLength lenField rest with
      | none => .error .kIncomplete
      | some read => if 2 ^ 63 ≤ read.1 then .error .kUnsupported else .ok read := by
  unfold Ws.readPayloadLen wireLength
  split
  · simp only
    rw [if_neg (by omega)]
  · split
    · split
      · rfl
      · rename_i hlen
        have hlt := Ws.bigEndian_lt (rest.take 2)
        rw [List.length_take_of_le (Nat.le_of_not_lt hlen)] at hlt
        simp only
        rw [if_neg (by omega)]
    · split <;> rfl

theorem lowNibble_lt : ∀ b : Byte, b &&& 0x0F < 16 := byte_forall (by decide +kernel)

/-- `parseHeader` refuses the frame for its reserved bits, its length field or as a
control frame; otherwise it reads the fields of the wire. -/
theorem parseHeader_of_wire {data : Bytes} {frame : WireFrame}
    (h : wireHeader data = some frame) :
    frame.opcode < 16 ∧
      ((Ws.parseHeader data = .error .kUnsupported ∧ (frame.reserved = true ∨
          2 ^ 63 ≤ frame.payloadLen ∨
          (Ws.isControl frame.opcode = true ∧ (125 < frame.payloadLen ∨ frame.fin = false)))) ∨
        (Ws.parseHeader data = .ok ⟨frame.fin, frame.opcode, frame.masked, frame.payloadLen,
            frame.maskKey, frame.headerLen⟩ ∧ frame.reserved = false ∧
          ¬ (Ws.isControl frame.opcode = true ∧
            (125 < frame.payloadLen ∨ frame.fin = false)))) := by
  match data with
  | [] => cases h
  | [_] => cases h
  | first :: second :: rest =>
      have hlow := lowNibble_lt first
      simp only [wireHeader, Option.bind_eq_some_iff] at h
      obtain ⟨read, hlength, hframe⟩ := h
      have hfields : frame.fin = (first &&& 0x80 != 0) ∧ frame.reserved = (first &&& 0x70 != 0) ∧
          frame.opcode = first &&& 0x0F ∧ frame.payloadLen = read.1 := by
        split at hframe
        · split at hframe
          · cases hframe
          · cases hframe
            exact ⟨rfl, rfl, rfl, rfl⟩
        · cases hframe
          exact ⟨rfl, rfl, rfl, rfl⟩
      obtain ⟨hfin, hreserved, hopcode, hpayload⟩ := hfields
      refine ⟨hopcode ▸ hlow, ?_⟩
      simp only [Ws.parseHeader]
      by_cases hbits : (first &&& 0x70 != 0) = true
      · rw [if_pos hbits]
        exact Or.inl ⟨rfl, Or.inl (hreserved.trans hbits)⟩
      · rw [if_neg hbits]
        simp only [readPayloadLen_eq, hlength]
        by_cases hhuge : 2 ^ 63 ≤ read.1
        · rw [if_pos hhuge]
          exact Or.inl ⟨rfl, Or.inr (Or.inl (hpayload ▸ hhuge))⟩
        · rw [if_neg hhuge]
          have hcontrol : (Ws.isControl (first &&& 0x0F) &&
              (decide (read.1 > 125) || !(first &&& 0x80 != 0))) = true ↔
              (Ws.isControl frame.opcode = true ∧
                (125 < frame.payloadLen ∨ frame.fin = false)) := by
            rw [hopcode, hpayload, hfin]
            simp
          simp only
          split
          · rename_i hrefused
            exact Or.inl ⟨rfl, Or.inr (Or.inr (hcontrol.mp hrefused))⟩
          · rename_i haccepted
            refine Or.inr ⟨?_, hreserved.trans (by simpa using hbits), fun hrefused =>
              haccepted (hcontrol.mpr hrefused)⟩
            split at hframe
            · rename_i hmasked
              rw [if_pos hmasked]
              split at hframe
              · cases hframe
              · rename_i hlen
                rw [dif_neg hlen]
                cases hframe
                simp only [hmasked]
            · rename_i hmasked
              rw [if_neg hmasked]
              cases hframe
              simp only [hmasked]

/-- Without a whole header on the wire the hub waits, or has already seen enough. -/
theorem parseHeader_of_no_wire {data : Bytes} (h : wireHeader data = none) :
    ∃ error, Ws.parseHeader data = .error error := by
  match data with
  | [] => exact ⟨_, rfl⟩
  | [_] => exact ⟨_, rfl⟩
  | first :: second :: rest =>
      simp only [wireHeader, Ws.parseHeader] at h ⊢
      split
      · exact ⟨_, rfl⟩
      · rw [readPayloadLen_eq]
        cases hlength : wireLength (second &&& 0x7F).toNat rest with
        | none => exact ⟨_, rfl⟩
        | some read =>
            rw [hlength, Option.bind_some] at h
            simp only
            by_cases hhuge : 2 ^ 63 ≤ read.1
            · rw [if_pos hhuge]
              exact ⟨_, rfl⟩
            · rw [if_neg hhuge]
              simp only
              split
              · exact ⟨_, rfl⟩
              · split
                · rename_i hmasked
                  rw [if_pos hmasked] at h
                  split
                  · exact ⟨_, rfl⟩
                  · rename_i hlen
                    rw [dif_neg hlen] at h
                    cases h
                · rename_i hmasked
                  rw [if_neg hmasked] at h
                  cases h

theorem isControl_iff : ∀ opcode : Byte, opcode < 16 → (Ws.isControl opcode = true ↔ 8 ≤ opcode) :=
  byte_forall (by decide +kernel)

/-- The sixteen values of the opcode field. -/
theorem opcode_cases : ∀ opcode : Byte, opcode < 16 →
    opcode = 0 ∨ opcode = 1 ∨ opcode = 2 ∨ opcode = 3 ∨ opcode = 4 ∨ opcode = 5 ∨ opcode = 6 ∨
      opcode = 7 ∨ opcode = 8 ∨ opcode = 9 ∨ opcode = 10 ∨ opcode = 11 ∨ opcode = 12 ∨
      opcode = 13 ∨ opcode = 14 ∨ opcode = 15 :=
  byte_forall (by decide +kernel)

/-! ## The protocol as a reader -/

theorem wireLength_append {lenField : Nat} {rest : Bytes} {read : Nat × Nat} (more : Bytes)
    (h : wireLength lenField rest = some read) :
    wireLength lenField (rest ++ more) = some read ∧ 2 ≤ read.2 := by
  simp only [wireLength] at h ⊢
  split at h
  · rename_i hshort
    rw [if_pos hshort]
    cases h
    exact ⟨rfl, le_rfl⟩
  · rename_i hshort
    rw [if_neg hshort]
    split at h
    · rename_i hword
      rw [if_pos hword]
      split at h
      · cases h
      · rename_i hlen
        cases h
        rw [if_neg (by rw [List.length_append]; omega),
          List.take_append_of_le_length (by omega)]
        exact ⟨rfl, by simp⟩
    · rename_i hword
      rw [if_neg hword]
      split at h
      · cases h
      · rename_i hlen
        cases h
        rw [if_neg (by rw [List.length_append]; omega),
          List.take_append_of_le_length (by omega)]
        exact ⟨rfl, by simp⟩

theorem wireHeader_append {data : Bytes} {frame : WireFrame} (more : Bytes)
    (h : wireHeader data = some frame) :
    wireHeader (data ++ more) = some frame ∧ 0 < frame.headerLen := by
  match data with
  | [] => cases h
  | [_] => cases h
  | first :: second :: rest =>
      simp only [wireHeader, List.cons_append, Option.bind_eq_some_iff] at h ⊢
      obtain ⟨read, hlength, hframe⟩ := h
      obtain ⟨happend, hlow⟩ := wireLength_append more hlength
      split at hframe
      · rename_i hmasked
        split at hframe
        · cases hframe
        · rename_i hlen
          simp only [List.length_cons, not_lt] at hlen
          cases hframe
          refine ⟨⟨read, happend, ?_⟩, by simp⟩
          have hkey : ((first :: second :: (rest ++ more)).drop read.2).take 4 =
              ((first :: second :: rest).drop read.2).take 4 :=
            take_drop_append (first :: second :: rest) more hlen
          rw [if_pos hmasked, dif_neg (by simp only [List.length_cons, List.length_append]; omega)]
          simp only [hkey]
      · rename_i hmasked
        cases hframe
        exact ⟨⟨read, happend, by rw [if_neg hmasked]⟩, Nat.lt_of_lt_of_le Nat.two_pos hlow⟩

theorem WireFrame.payload_append {data : Bytes} {frame : WireFrame} (more : Bytes)
    (hwhole : frame.total ≤ data.length) : frame.payload (data ++ more) = frame.payload data := by
  rw [WireFrame.payload, WireFrame.payload, take_drop_append data more hwhole]

theorem readAllowed_append {data : Bytes} (more : Bytes) (h : readAllowed data ≠ .wait) :
    readAllowed (data ++ more) = readAllowed data := by
  rw [readAllowed] at h ⊢
  rw [readAllowed]
  cases hwire : wireHeader data with
  | none =>
      rw [hwire] at h
      exact absurd rfl h
  | some frame =>
      obtain ⟨happend, _⟩ := wireHeader_append more hwire
      simp only [hwire, happend] at h ⊢
      by_cases hwhole : data.length < frame.total
      · rw [if_pos hwhole] at h
        exact absurd rfl h
      · rw [if_neg hwhole, if_neg (by rw [List.length_append]; omega),
          frame.payload_append more (Nat.le_of_not_lt hwhole)]

/-- The protocol as a reader of frames. -/
def protocol : Framing Byte Allowed where
  read := readAllowed
  frame_length := by
    intro data allowed length h
    rw [readAllowed] at h
    cases hwire : wireHeader data with
    | none =>
        rw [hwire] at h
        cases h
    | some frame =>
        obtain ⟨_, hpos⟩ := wireHeader_append [] hwire
        have htotal : 0 < frame.total := by
          rw [WireFrame.total]
          omega
        simp only [hwire] at h
        split at h
        · cases h
        · split at h
          · cases h
          · split at h <;> cases h <;> omega
  frame_append := fun more h => by rw [readAllowed_append more (by rw [h]; simp), h]
  stop_append := fun more h => by rw [readAllowed_append more (by rw [h]; simp), h]

/-! ## The hub's verdict against the protocol's -/

/-- What `parseHeader` refuses terminates and does not leak. -/
theorem terminates_of_refused {frame : WireFrame} (hopcode : frame.opcode < 16)
    (h : frame.reserved = true ∨ 2 ^ 63 ≤ frame.payloadLen ∨
      (Ws.isControl frame.opcode = true ∧ (125 < frame.payloadLen ∨ frame.fin = false))) :
    frame.Terminates = true ∧ frame.Leaks = false := by
  rcases h with hreserved | hhuge | ⟨hcontrol, hrule⟩
  · simp [WireFrame.Terminates, WireFrame.Leaks, hreserved]
  · have hbig : kInboundCap < frame.total := by
      simp only [WireFrame.total, kInboundCap]
      omega
    simp [WireFrame.Terminates, WireFrame.Leaks, hbig, Nat.not_le.mpr hbig]
  · have hhigh := (isControl_iff frame.opcode hopcode).mp hcontrol
    have hdata : frame.isData = false := by
      rw [WireFrame.isData, decide_eq_false_iff_not, UInt8.not_lt]
      exact hhigh
    have htext : (frame.opcode == Ws.kText) = false := by
      rw [beq_eq_false_iff_ne]
      intro htext
      rw [htext] at hhigh
      exact absurd hhigh (by decide)
    have hrefused : (frame.fin && decide (frame.payloadLen ≤ 125)) = false := by
      rcases hrule with hlong | hfin
      · simp [Nat.not_le.mpr hlong]
      · simp [hfin]
    have hbroken : (!frame.fin || decide (frame.payloadLen > 125)) = true := by
      rcases hrule with hlong | hfin
      · simp [hlong]
      · simp [hfin]
    constructor
    · simp only [WireFrame.Terminates, hdata, hbroken, Bool.not_false, Bool.and_true,
        Bool.or_true]
    · simp only [WireFrame.Leaks, htext, hdata, hrefused, Bool.false_and, Bool.or_self,
        Bool.and_false]

/-- The hub's verdict on a whole frame: it agrees with the protocol unless the frame
leaks, and then it reads on behind it. -/
theorem readFrame_of_wire {data : Bytes} {frame : WireFrame} (hwire : wireHeader data = some frame)
    (hwhole : frame.total ≤ data.length) :
    (frame.Terminates = false → ∃ effect, readFrame data = .frame effect frame.total ∧
      effect.message? = if frame.opcode = Ws.kText then some (frame.payload data) else none) ∧
    (frame.Terminates = true → frame.Leaks = false →
      ∃ effect, readFrame data = .stop effect ∧ effect.message? = none) ∧
    (frame.Leaks = true → frame.Terminates = true ∧
      ∃ effect, readFrame data = .frame effect frame.total) := by
  obtain ⟨hopcode, ⟨hrefused, hwhy⟩ | ⟨hparse, hreserved, hrules⟩⟩ := parseHeader_of_wire hwire
  · obtain ⟨hterminates, hleaks⟩ := terminates_of_refused hopcode hwhy
    have hread : readFrame data = .stop (.closed kCloseProtocolError) := by
      rw [readFrame, hrefused]
    simp [hterminates, hleaks, hread, Effect.message?]
  · by_cases hmasked : frame.masked = true
    · by_cases hfits : frame.total ≤ kInboundCap
      · have hread := readFrame_of_header hparse hmasked hfits hwhole
        have hrules' : ¬ (8 ≤ frame.opcode ∧ (125 < frame.payloadLen ∨ frame.fin = false)) := by
          rw [← isControl_iff frame.opcode hopcode]
          exact hrules
        rw [← WireFrame.payload, ← WireFrame.total] at hread
        rw [hread]
        simp only [WireFrame.Terminates, WireFrame.Leaks, WireFrame.isData,
          WireFrame.isReservedOpcode, hreserved, hmasked, hfits, Nat.not_lt.mpr hfits]
        rcases opcode_cases frame.opcode hopcode with
          h | h | h | h | h | h | h | h | h | h | h | h | h | h | h | h
        all_goals
          simp only [h] at hrules' ⊢
          cases hfin : frame.fin <;>
            simp [hfin, dispatch, Ws.kText, Ws.kPing, Ws.kClose, Ws.kPong, Ws.kBinary,
              Ws.kContinuation, Effect.message?] at hrules' ⊢
        all_goals exact hrules'
      · have hread : readFrame data = .stop (.closed kCloseTooBig) := by
          have hheader := Ws.parseHeader_headerLen hparse
          simp only [WireFrame.total, kInboundCap] at hfits hheader
          rw [readFrame, hparse]
          simp only [hmasked, kInboundCap]
          rw [if_neg (by simp), if_pos (by omega)]
        have hbig := Nat.lt_of_not_le hfits
        simp [WireFrame.Terminates, WireFrame.Leaks, hread, hfits, hbig, Effect.message?]
    · rw [Bool.not_eq_true] at hmasked
      have hread : readFrame data = .stop (.closed kCloseProtocolError) := by
        rw [readFrame, hparse]
        simp only [hmasked, if_true]
      simp [WireFrame.Terminates, WireFrame.Leaks, hread, hmasked, Effect.message?]

theorem readAllowed_eq_stop {data : Bytes} {allowed : Allowed}
    (h : readAllowed data = .stop allowed) :
    ∃ frame, wireHeader data = some frame ∧ frame.total ≤ data.length ∧
      frame.Terminates = true ∧ allowed = .terminated frame := by
  rw [readAllowed] at h
  split at h
  · cases h
  · rename_i frame hwire
    split at h
    · cases h
    · rename_i hwhole
      split at h
      · rename_i hterminates
        cases h
        exact ⟨frame, hwire, Nat.le_of_not_lt hwhole, hterminates, rfl⟩
      · split at h <;> cases h

theorem readAllowed_eq_frame {data : Bytes} {allowed : Allowed} {length : Nat}
    (h : readAllowed data = .frame allowed length) :
    ∃ frame, wireHeader data = some frame ∧ frame.total ≤ data.length ∧
      frame.Terminates = false ∧ length = frame.total ∧
      allowed = if frame.opcode = Ws.kText then .text (frame.payload data) else .control := by
  rw [readAllowed] at h
  split at h
  · cases h
  · rename_i frame hwire
    split at h
    · cases h
    · rename_i hwhole
      split at h
      · cases h
      · rename_i hterminates
        refine ⟨frame, hwire, Nat.le_of_not_lt hwhole, by simpa using hterminates, ?_⟩
        split at h
        · rename_i htext
          cases h
          exact ⟨rfl, by rw [if_pos htext]⟩
        · rename_i htext
          cases h
          exact ⟨rfl, by rw [if_neg htext]⟩

/-- Without a whole frame in front the hub takes none off. -/
theorem readFrame_of_no_frame {data : Bytes} (h : readAllowed data = .wait) :
    readFrame data = .wait ∨ ∃ code, readFrame data = .stop (.closed code) := by
  rw [readAllowed] at h
  cases hwire : wireHeader data with
  | none =>
      obtain ⟨error, hparse⟩ := parseHeader_of_no_wire hwire
      rw [readFrame, hparse]
      cases error with
      | kIncomplete => exact Or.inl rfl
      | kUnsupported => exact Or.inr ⟨_, rfl⟩
  | some frame =>
      simp only [hwire] at h
      have hpart : data.length < frame.total := by
        by_contra hwhole
        rw [if_neg hwhole] at h
        split at h
        · cases h
        · split at h <;> cases h
      obtain ⟨_, ⟨hrefused, _⟩ | ⟨hparse, _⟩⟩ := parseHeader_of_wire hwire
      · exact Or.inr ⟨_, by rw [readFrame, hrefused]⟩
      · rw [WireFrame.total] at hpart
        rw [readFrame, hparse]
        simp only
        split
        · exact Or.inr ⟨_, rfl⟩
        · split
          · exact Or.inr ⟨_, rfl⟩
          · exact Or.inl rfl

/-! ## The whole stream -/

/-- What was delivered and closed is what the protocol says of the stream: the
payloads are those of the text frames in front of the first terminating frame, and
once that frame is there the connection is closed and nothing behind it was read. -/
structure Faithful (stream : Bytes) (log : List Effect) (isOpen : Bool) : Prop where
  messages : log.filterMap Effect.message? =
    (protocol.drain stream).1.filterMap Allowed.text?
  closed : (protocol.drain stream).2 = none →
    isOpen = false ∧ log.length = (protocol.drain stream).1.length

theorem drain_closed_ne_nil {stream : Bytes} (h : (framing.drain stream).2 = none) :
    (framing.drain stream).1 ≠ [] := by
  cases hread : framing.read stream with
  | wait =>
      rw [framing.drain_of_wait hread] at h
      cases h
  | stop effect => simp [framing.drain_of_stop hread]
  | frame effect length => simp [framing.drain_of_frame hread]

/-- A frame that the hub and the protocol read alike does not tell them apart. -/
theorem faithful_frame_iff {stream : Bytes} {allowed : Allowed} {effect : Effect} {length : Nat}
    (hread : protocol.read stream = .frame allowed length)
    (hhub : framing.read stream = .frame effect length)
    (hsame : effect.message? = allowed.text?) :
    Faithful stream (framing.drain stream).1 (framing.drain stream).2.isSome ↔
      Faithful (stream.drop length) (framing.drain (stream.drop length)).1
        (framing.drain (stream.drop length)).2.isSome := by
  have hdrain := protocol.drain_of_frame hread
  rw [framing.drain_of_frame hhub]
  constructor
  · rintro ⟨hmessages, hclosed⟩
    rw [hdrain] at hmessages hclosed
    refine ⟨?_, fun hnone => ?_⟩
    · simp only [List.filterMap_cons, hsame] at hmessages
      split at hmessages
      · exact hmessages
      · exact (List.cons.inj hmessages).2
    · obtain ⟨hopen, hlength⟩ := hclosed hnone
      exact ⟨hopen, by simpa using hlength⟩
  · rintro ⟨hmessages, hclosed⟩
    refine ⟨?_, fun hnone => ?_⟩
    · rw [hdrain]
      simp only [List.filterMap_cons, hsame, hmessages]
    · rw [hdrain] at hnone ⊢
      obtain ⟨hopen, hlength⟩ := hclosed hnone
      exact ⟨hopen, by simpa using hlength⟩

/-- Draining a stream is faithful to the protocol exactly when its first terminating
frame does not leak. -/
theorem drain_faithful_iff (stream : Bytes) :
    Faithful stream (framing.drain stream).1 (framing.drain stream).2.isSome ↔
      ∀ frame, .terminated frame ∈ (protocol.drain stream).1 → frame.Leaks = false := by
  induction stream using protocol.drain_induction with
  | hwait stream hread =>
      have hdrain := protocol.drain_of_wait hread
      refine iff_of_true ⟨?_, fun hnone => ?_⟩ (by simp [hdrain])
      · rw [hdrain]
        rcases readFrame_of_no_frame hread with hhub | ⟨code, hhub⟩
        · rw [framing.drain_of_wait hhub]
          rfl
        · rw [framing.drain_of_stop hhub]
          rfl
      · rw [hdrain] at hnone
        cases hnone
  | hstop stream allowed hread =>
      have hdrain := protocol.drain_of_stop hread
      obtain ⟨frame, hwire, hwhole, hterminates, rfl⟩ := readAllowed_eq_stop hread
      obtain ⟨_, hstrict, hleaky⟩ := readFrame_of_wire hwire hwhole
      rw [hdrain]
      cases hleaks : frame.Leaks with
      | false =>
          obtain ⟨effect, hhub, hsilent⟩ := hstrict hterminates hleaks
          refine iff_of_true ⟨?_, fun _ => ?_⟩ (by simp [hleaks])
          · rw [hdrain, framing.drain_of_stop hhub]
            simp [hsilent, Allowed.text?]
          · rw [hdrain, framing.drain_of_stop hhub]
            exact ⟨rfl, rfl⟩
      | true =>
          obtain ⟨_, effect, hhub⟩ := hleaky hleaks
          refine iff_of_false (fun hfaithful => ?_) (by simp [hleaks])
          obtain ⟨hclosed, hlength⟩ := hfaithful.closed (by rw [hdrain])
          rw [framing.drain_of_frame hhub] at hclosed hlength
          rw [hdrain] at hlength
          simp only [List.length_cons, List.length_nil, Nat.add_eq_right, List.length_eq_zero_iff]
            at hlength
          exact drain_closed_ne_nil (by simpa using hclosed) hlength
  | hframe stream allowed length hread ih =>
      obtain ⟨frame, hwire, hwhole, hterminates, rfl, rfl⟩ := readAllowed_eq_frame hread
      obtain ⟨hcontinues, _, _⟩ := readFrame_of_wire hwire hwhole
      obtain ⟨effect, hhub, hmessage⟩ := hcontinues hterminates
      have hsame : effect.message? = Allowed.text?
          (if frame.opcode = Ws.kText then .text (frame.payload stream) else .control) := by
        rw [hmessage]
        split <;> rfl
      rw [faithful_frame_iff hread hhub hsame, ih, protocol.drain_of_frame hread]
      simp only [List.mem_cons]
      constructor
      · intro hall terminator hmem
        rcases hmem with hhead | htail
        · split at hhead <;> cases hhead
        · exact hall terminator htail
      · exact fun hall terminator htail => hall terminator (Or.inr htail)

namespace Session

/-- At every poll of an open connection, the unprocessed bytes stay below the
buffer's capacity. -/
def BelowCapacity : Session → List Bytes → Bool
  | _, [] => true
  | session, chunk :: rest =>
      (match session.entry with
        | none => true
        | some entry =>
            decide (entry.buf.length + entry.arrived.length + chunk.length < kInboundCap)) &&
        BelowCapacity (session.poll chunk) rest

theorem receive_of_belowCapacity {stream : Bytes} {chunks : List Bytes}
    (h : BelowCapacity (ofDrain (drainFrames stream)) chunks = true) :
    chunks.foldl poll (ofDrain (drainFrames stream)) =
      ofDrain (drainFrames (stream ++ chunks.flatten)) := by
  induction chunks generalizing stream with
  | nil => simp
  | cons chunk rest ih =>
      rw [BelowCapacity, Bool.and_eq_true] at h
      obtain ⟨hroom, hrest⟩ := h
      have hpoll : poll (ofDrain (drainFrames stream)) chunk =
          ofDrain (drainFrames (stream ++ chunk)) := by
        refine poll_ofDrain fun left hleft => ?_
        simpa [ofDrain, hleft] using hroom
      rw [hpoll] at hrest
      rw [List.foldl_cons, hpoll, ih hrest, List.flatten_cons, List.append_assoc]

/-- Over every stream that stays below the capacity the hub is faithful to the
protocol exactly when the first terminating frame received does not leak.  A frame leaks when
all that is wrong with it is a clear FIN on a text frame or a reserved opcode. -/
theorem receive_faithful_iff {chunks : List Bytes}
    (h : BelowCapacity initial chunks = true) :
    Faithful chunks.flatten (receive chunks).log (receive chunks).entry.isSome ↔
      ∀ frame, .terminated frame ∈ (protocol.drain chunks.flatten).1 → frame.Leaks = false := by
  have hreceive : receive chunks = ofDrain (drainFrames chunks.flatten) :=
    @receive_of_belowCapacity [] chunks h
  rw [hreceive, ← drain_faithful_iff]
  simp [ofDrain, drainFrames]

/-! ## Two frames that leak -/

/-- A text frame with FIN clear and the payload `x`, under an all-zero key. -/
def unfinishedText : Bytes := [0x01, 0x81, 0, 0, 0, 0, 120]

/-- A frame with the reserved opcode 3, and a text frame behind it. -/
def reservedThenText : Bytes := [0x83, 0x80, 0, 0, 0, 0, 0x81, 0x81, 0, 0, 0, 0, 120]

/-- The fragment is delivered as a message, the reserved opcode is skipped and what
follows it is delivered, and both connections stay open. -/
theorem leaks_delivered :
    receive [unfinishedText] = ⟨[.message [120]], some ⟨[], []⟩⟩ ∧
      receive [reservedThenText] = ⟨[.ignored, .message [120]], some ⟨[], []⟩⟩ ∧
      ¬ Faithful [unfinishedText].flatten (receive [unfinishedText]).log
        (receive [unfinishedText]).entry.isSome ∧
      ¬ Faithful [reservedThenText].flatten (receive [reservedThenText]).log
        (receive [reservedThenText]).entry.isSome := by
  refine ⟨by decide, by decide, fun hfaithful => ?_, fun hfaithful => ?_⟩
  · have := hfaithful.messages
    revert this
    decide
  · have := hfaithful.messages
    revert this
    decide

/-- A text frame `x`, cut in two, and a close frame behind it. -/
def textThenClose : List Bytes := [[0x81, 0x81, 0, 0], [0, 0, 120, 0x88, 0x80, 0, 0, 0, 0]]

/-- The text is handed over and the close frame does not leak. -/
theorem receive_faithful_iff_textThenClose :
    Faithful textThenClose.flatten (receive textThenClose).log
      (receive textThenClose).entry.isSome := by
  refine (receive_faithful_iff (by decide)).mpr fun frame hframe => ?_
  have hread : (protocol.drain textThenClose.flatten).1 =
      [.text [120], .terminated ⟨true, false, Ws.kClose, true, 0, ⟨[0, 0, 0, 0], rfl⟩, 6⟩] := by
    decide
  rw [hread, List.mem_cons, List.mem_singleton] at hframe
  rcases hframe with hframe | hframe
  · cases hframe
  · cases hframe
    rfl

end Session

end MatrixFaces.Api.WsHub
