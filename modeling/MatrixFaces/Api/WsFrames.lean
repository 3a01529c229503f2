import MatrixFaces.Api.WebSocket

set_option autoImplicit false

/-!
# Frame headers there and back

A frame header as RFC 6455 lays it out, with the shortest length that holds the payload.
The encoders of `src/api/websocket.cpp` write such headers without a mask, clients send them
with one; `parseHeader` reads both back, whatever follows, and calls nothing shorter a
header.

The buffers.  `encodeHeader`, `encodeClose` and `encodePong` write into a buffer of `cap`
bytes and answer 0 where it is too small, which is `none` here.  How much room each of them
needs is part of what is proved, so an encoder that refused would not do.

The main result is `frames_round_trip`.  It has no hypothesis on the state of anything: the
opcodes and lengths are those the board may write, and `Legal` is what the RFC lets a client
send (four bits of opcode, control frames whole and short, a length below `2 ^ 63`).
-/

namespace MatrixFaces.Api.Ws

open MatrixFaces.Foundation

/-! ## The encoders and their buffers -/

def kMaxServerHeader : Nat := 4
def kMaxControlFrame : Nat := 2 + 125

/-- `encodeHeader` into a buffer of `cap` bytes; `none` is the 0 of the source. -/
def encodeHeaderInto (cap : Nat) (opcode : Byte) (payloadLen : Nat) : Option Bytes :=
  let first := 0x80 ||| opcode
  if payloadLen < 126 then
    if cap < 2 then none else some [first, UInt8.ofNat payloadLen]
  else if payloadLen ≤ 0xFFFF then
    if cap < 4 then none
    else some [first, 126, UInt8.ofNat (payloadLen / 256), UInt8.ofNat payloadLen]
  else none

/-- `encodeClose` into a buffer. -/
def encodeCloseInto (cap : Nat) (code : UInt16) : Option Bytes :=
  if cap < 4 then none else some (encodeClose code.toNat)

/-- `encodePong` into a buffer. -/
def encodePongInto (cap : Nat) (payload : Bytes) : Option Bytes :=
  if payload.length > 125 then none
  else if cap < 2 + payload.length then none
  else some (encodePong payload)

/-- `unmask` of a piece behind `offset` bytes of the payload. -/
def unmaskAt (offset : UInt64) (payload : Bytes) (maskKey : Block 4) : Bytes :=
  payload.mapIdx fun i (b : Byte) =>
    b ^^^ maskKey.1.getD ((offset + UInt64.ofNat i) % 4).toNat 0

/-- A payload unmasked as its pieces arrive, each at its own offset. -/
def unmaskPieces (maskKey : Block 4) : Nat → List Bytes → Bytes
  | _, [] => []
  | offset, piece :: rest =>
      unmaskAt (UInt64.ofNat offset) piece maskKey ++
        unmaskPieces maskKey (offset + piece.length) rest

/-! ## Headers as the RFC lays them out -/

/-- A number in `width` bytes, most significant first. -/
def numberBytes (width n : Nat) : Bytes :=
  (List.range width).map fun i => UInt8.ofNat (n / 256 ^ (width - 1 - i))

/-- The second byte and the extended length of the shortest form. -/
def lengthBytes (masked : Bool) (n : Nat) : Bytes :=
  let bit := if masked then 128 else 0
  if n ≤ 125 then [UInt8.ofNat (bit + n)]
  else if n ≤ 65535 then UInt8.ofNat (bit + 126) :: numberBytes 2 n
  else UInt8.ofNat (bit + 127) :: numberBytes 8 n

/-- A frame header; `mask` is the key of a masked frame. -/
def frameHeader (fin : Bool) (opcode : Byte) (mask : Option (Block 4)) (n : Nat) : Bytes :=
  UInt8.ofNat ((if fin then 128 else 0) + opcode.toNat) :: lengthBytes mask.isSome n ++
    (mask.elim [] fun key => key.1)

/-- Four bits of opcode; a control frame is whole and short; the length has its top bit clear. -/
structure Legal (fin : Bool) (opcode : Byte) (n : Nat) : Prop where
  opcode_lt : opcode.toNat < 16
  control : 8 ≤ opcode.toNat → fin = true ∧ n ≤ 125
  length : n < 2 ^ 63

/-- What a reader is to make of a header. -/
def headerOf (fin : Bool) (opcode : Byte) (mask : Option (Block 4)) (n : Nat) : FrameHeader :=
  ⟨fin, opcode, mask.isSome, n, mask.getD (Block.zero 4), (frameHeader fin opcode mask n).length⟩

/-- The payload under a mask. -/
def mask (key : Block 4) (payload : Bytes) : Bytes :=
  payload.mapIdx fun i (b : Byte) => b ^^^ key.1.getD (i % 4) 0

/-! ## Numbers -/

theorem numberBytes_succ (width n : Nat) :
    numberBytes (width + 1) n = UInt8.ofNat (n / 256 ^ width) :: numberBytes width n := by
  rw [numberBytes, List.range_succ_eq_map, List.map_cons, List.map_map]
  refine congrArg₂ List.cons rfl (List.map_congr_left fun i _ => ?_)
  rw [Function.comp_apply]
  congr 3
  omega

@[simp] theorem length_numberBytes (width n : Nat) : (numberBytes width n).length = width := by
  simp [numberBytes]

theorem bigEndian_cons (b : Byte) (rest : Bytes) :
    bigEndian (b :: rest) = b.toNat * 256 ^ rest.length + bigEndian rest := by
  induction rest using List.reverseRecOn with
  | nil => simp [bigEndian]
  | append_singleton rest c ih =>
      rw [← List.cons_append, bigEndian_concat, bigEndian_concat, ih, List.length_append,
        List.length_singleton, Nat.pow_succ, Nat.add_mul, Nat.mul_assoc, Nat.add_assoc]

theorem bigEndian_numberBytes (width n : Nat) :
    bigEndian (numberBytes width n) = n % 256 ^ width := by
  induction width with
  | zero => rw [Nat.pow_zero, Nat.mod_one]; rfl
  | succ width ih =>
      rw [numberBytes_succ, bigEndian_cons, ih, length_numberBytes, UInt8.toNat_ofNat',
        Nat.pow_succ 256 width, Nat.mod_mul, Nat.add_comm, Nat.mul_comm]

/-! ## Bits of the first two bytes -/

theorem first_byte (fin : Bool) {opcode : Byte} (h : opcode.toNat < 16) :
    let first := UInt8.ofNat ((if fin then 128 else 0) + opcode.toNat)
    first &&& 0x70 = 0 ∧ (first &&& 0x80 != 0) = fin ∧ first &&& 0x0F = opcode := by
  have hall : ∀ (fin : Bool) (k : Fin 16),
      let first := UInt8.ofNat ((if fin then 128 else 0) + k.1)
      first &&& 0x70 = 0 ∧ (first &&& 0x80 != 0) = fin ∧ first &&& 0x0F = UInt8.ofNat k.1 := by
    decide +kernel
  simpa using hall fin ⟨opcode.toNat, h⟩

theorem second_byte (masked : Bool) {field : Nat} (h : field < 128) :
    let second := UInt8.ofNat ((if masked then 128 else 0) + field)
    (second &&& 0x7F).toNat = field ∧ (second &&& 0x80 != 0) = masked := by
  have hall : ∀ (masked : Bool) (k : Fin 128),
      let second := UInt8.ofNat ((if masked then 128 else 0) + k.1)
      (second &&& 0x7F).toNat = k.1 ∧ (second &&& 0x80 != 0) = masked := by
    decide +kernel
  exact hall masked ⟨field, h⟩

theorem isControl_iff {opcode : Byte} (h : opcode.toNat < 16) :
    isControl opcode = true ↔ 8 ≤ opcode.toNat := by
  have hall : ∀ k : Fin 16, isControl (UInt8.ofNat k.1) = true ↔ 8 ≤ k.1 := by decide +kernel
  simpa using hall ⟨opcode.toNat, h⟩

/-! ## Reading a header -/

/-- The length field of the shortest form. -/
def lengthField (n : Nat) : Nat := if n ≤ 125 then n else if n ≤ 65535 then 126 else 127

/-- The bytes behind the second one that belong to the length. -/
def extendedLength (n : Nat) : Bytes :=
  if n ≤ 125 then [] else if n ≤ 65535 then numberBytes 2 n else numberBytes 8 n

theorem lengthBytes_eq (masked : Bool) (n : Nat) :
    lengthBytes masked n =
      UInt8.ofNat ((if masked then 128 else 0) + lengthField n) :: extendedLength n := by
  simp only [lengthBytes, lengthField, extendedLength]
  split
  · rfl
  · split <;> rfl

theorem lengthField_lt (n : Nat) : lengthField n < 128 := by
  rw [lengthField]
  split
  · omega
  · split <;> omega

/-- The extended length says the payload's length. -/
theorem readPayloadLen_extendedLength {n : Nat} (h : n < 2 ^ 63) (rest : Bytes) :
    readPayloadLen (lengthField n) (extendedLength n ++ rest) =
      .ok (n, (extendedLength n).length + 2) := by
  have hread : ∀ width, (numberBytes width n ++ rest).take width = numberBytes width n := by
    intro width
    exact List.take_left' (length_numberBytes width n)
  have hlong : ∀ width, ¬(numberBytes width n ++ rest).length < width := by
    intro width
    rw [List.length_append, length_numberBytes]
    omega
  rw [lengthField, extendedLength]
  split
  · rename_i hshort
    rw [readPayloadLen, if_pos (by omega)]
    rfl
  · split
    · rename_i hword
      rw [readPayloadLen, if_neg (by omega), if_pos rfl, if_neg (hlong 2), hread,
        bigEndian_numberBytes, Nat.mod_eq_of_lt (by omega), length_numberBytes]
    · rw [readPayloadLen, if_neg (by omega), if_neg (by omega), if_neg (hlong 8), hread,
        bigEndian_numberBytes, Nat.mod_eq_of_lt (by omega), if_neg (by omega), length_numberBytes]

theorem length_frameHeader (fin : Bool) (opcode : Byte) (mask : Option (Block 4)) (n : Nat) :
    (frameHeader fin opcode mask n).length =
      (extendedLength n).length + 2 + if mask.isSome then 4 else 0 := by
  rw [frameHeader, lengthBytes_eq, List.length_append, List.length_cons, List.length_cons]
  cases mask with
  | none => rfl
  | some key =>
      rw [Option.elim_some, key.2]
      rfl

/-- A legal header alone is read back. -/
theorem parseHeader_frameHeader {fin : Bool} {opcode : Byte} {n : Nat} (h : Legal fin opcode n)
    (mask : Option (Block 4)) :
    parseHeader (frameHeader fin opcode mask n) = .ok (headerOf fin opcode mask n) := by
  obtain ⟨hreserved, hfin, hopcode⟩ := first_byte fin h.opcode_lt
  obtain ⟨hfield, hmasked⟩ := second_byte mask.isSome (lengthField_lt n)
  have hlength := length_frameHeader fin opcode mask n
  have hcontrol : (isControl opcode && (decide (n > 125) || !fin)) = false := by
    cases hkind : isControl opcode with
    | false => rfl
    | true =>
        obtain ⟨rfl, hshort⟩ := h.control ((isControl_iff h.opcode_lt).mp hkind)
        simp [hshort]
  rw [headerOf, hlength]
  rw [frameHeader, lengthBytes_eq] at hlength ⊢
  generalize UInt8.ofNat ((if fin then 128 else 0) + opcode.toNat) = first at *
  generalize UInt8.ofNat ((if mask.isSome then 128 else 0) + lengthField n) = second at *
  rw [List.cons_append, List.cons_append]
  simp only [parseHeader, hreserved, hfin, hopcode, hfield, hmasked,
    readPayloadLen_extendedLength h.length, hcontrol, bne_self_eq_false, Bool.false_eq_true,
    if_false]
  cases mask with
  | none => simp
  | some key =>
      have hkey : ((first :: second :: (extendedLength n ++ key.1)).drop
          ((extendedLength n).length + 2)).take 4 = key.1 := by
        rw [List.drop_succ_cons, List.drop_succ_cons, List.drop_left,
          List.take_of_length_le (Nat.le_of_eq key.2)]
      simp only [Option.isSome_some, if_true, Option.elim_some, Option.getD_some, hkey]
      rw [dif_neg]
      simp only [List.length_cons, List.length_append, key.2]
      omega

/-- More bytes behind it do not matter. -/
theorem parseHeader_frameHeader_append {fin : Bool} {opcode : Byte} {n : Nat}
    (h : Legal fin opcode n) (mask : Option (Block 4)) (more : Bytes) :
    parseHeader (frameHeader fin opcode mask n ++ more) = .ok (headerOf fin opcode mask n) := by
  have hread := parseHeader_frameHeader h mask
  rw [parseHeader_append more (by rw [hread]; simp), hread]

/-- A part of a header is not taken for one: a verdict on it would stand for the whole,
whose length it does not have. -/
theorem parseHeader_take_frameHeader {fin : Bool} {opcode : Byte} {n : Nat}
    (h : Legal fin opcode n) (mask : Option (Block 4)) {k : Nat}
    (hk : k < (frameHeader fin opcode mask n).length) :
    parseHeader ((frameHeader fin opcode mask n).take k) = .error .kIncomplete := by
  by_contra hverdict
  have hwhole := parseHeader_append ((frameHeader fin opcode mask n).drop k) hverdict
  rw [List.take_append_drop, parseHeader_frameHeader h] at hwhole
  have hlength := (parseHeader_headerLen hwhole.symm).2.1
  have hheader : (headerOf fin opcode mask n).headerLen =
      (frameHeader fin opcode mask n).length := rfl
  rw [List.length_take, hheader] at hlength
  omega

/-! ## What the encoders write -/

theorem legal_of_data {opcode : Byte} {n : Nat}
    (hopcode : opcode = kContinuation ∨ opcode = kText ∨ opcode = kBinary) (hn : n ≤ 65535) :
    Legal true opcode n where
  opcode_lt := by rcases hopcode with rfl | rfl | rfl <;> decide
  control := by rcases hopcode with rfl | rfl | rfl <;> exact fun h => absurd h (by decide)
  length := by omega

theorem legal_of_control {opcode : Byte} {n : Nat}
    (hopcode : opcode = kClose ∨ opcode = kPing ∨ opcode = kPong) (hn : n ≤ 125) :
    Legal true opcode n where
  opcode_lt := by rcases hopcode with rfl | rfl | rfl <;> decide
  control := fun _ => ⟨rfl, hn⟩
  length := by omega

/-- The first byte of a frame that is not fragmented. -/
theorem first_or {opcode : Byte} (h : opcode.toNat < 16) :
    0x80 ||| opcode = UInt8.ofNat ((if true then 128 else 0) + opcode.toNat) := by
  have hall : ∀ k : Fin 16, 0x80 ||| UInt8.ofNat k.1 = UInt8.ofNat (128 + k.1) := by decide +kernel
  simpa using hall ⟨opcode.toNat, h⟩

theorem encodeHeaderInto_eq {cap : Nat} {opcode : Byte} {n : Nat} {written : Bytes}
    (h : opcode.toNat < 16) (hwritten : encodeHeaderInto cap opcode n = some written) :
    written = frameHeader true opcode none n := by
  rw [encodeHeaderInto, first_or h] at hwritten
  rw [frameHeader, lengthBytes_eq]
  split at hwritten
  · rename_i hshort
    have hfield : lengthField n = n := if_pos (by omega)
    have hextended : extendedLength n = [] := if_pos (by omega)
    split at hwritten
    · cases hwritten
    · cases hwritten
      rw [hfield, hextended]
      simp
  · rename_i hlong
    split at hwritten
    · rename_i hword
      have hfield : lengthField n = 126 := by rw [lengthField, if_neg (by omega), if_pos hword]
      have hextended : extendedLength n = numberBytes 2 n := by
        rw [extendedLength, if_neg (by omega), if_pos hword]
      split at hwritten
      · cases hwritten
      · cases hwritten
        rw [hfield, hextended]
        simp [numberBytes, List.range_succ]
    · cases hwritten

theorem encodeClose_eq (code : Nat) :
    encodeClose code =
      frameHeader true kClose none 2 ++ [UInt8.ofNat (code / 256), UInt8.ofNat code] :=
  rfl

theorem encodePong_eq {payload : Bytes} (h : payload.length ≤ 125) :
    encodePong payload = frameHeader true kPong none payload.length ++ payload := by
  rw [encodePong, if_neg (by omega), frameHeader, lengthBytes_eq, lengthField, extendedLength,
    if_pos h, if_pos h]
  simp only [Option.isSome_none, Bool.false_eq_true, if_false, Nat.zero_add, Option.elim_none]
  rfl

/-! ## Masks -/

theorem unmaskAt_ofNat (offset : Nat) (payload : Bytes) (key : Block 4) :
    unmaskAt (UInt64.ofNat offset) payload key =
      payload.mapIdx fun i (b : Byte) => b ^^^ key.1.getD ((offset + i) % 4) 0 := by
  refine List.mapIdx_eq_mapIdx_iff.mpr fun i _ => ?_
  have hindex : ((UInt64.ofNat offset + UInt64.ofNat i) % 4).toNat = (offset + i) % 4 := by
    rw [← UInt64.ofNat_add, UInt64.toNat_mod, UInt64.toNat_ofNat']
    exact Nat.mod_mod_of_dvd _ (by decide)
  rw [hindex]

/-- The default offset. -/
theorem unmaskAt_zero (payload : Bytes) (key : Block 4) :
    unmaskAt 0 payload key = unmask payload key := by
  have hzero := unmaskAt_ofNat 0 payload key
  simp only [Nat.zero_add] at hzero
  exact hzero

/-- The pieces together are unmasked as the payload whole. -/
theorem unmaskPieces_eq (key : Block 4) (offset : Nat) (pieces : List Bytes) :
    unmaskPieces key offset pieces =
      pieces.flatten.mapIdx fun i (b : Byte) => b ^^^ key.1.getD ((offset + i) % 4) 0 := by
  induction pieces generalizing offset with
  | nil => rfl
  | cons piece rest ih =>
      rw [unmaskPieces, unmaskAt_ofNat, ih, List.flatten_cons, List.mapIdx_append]
      simp only [Nat.add_assoc, Nat.add_comm piece.length]

theorem unmaskPieces_mask {key : Block 4} {payload : Bytes} {pieces : List Bytes}
    (h : pieces.flatten = mask key payload) : unmaskPieces key 0 pieces = payload := by
  rw [unmaskPieces_eq, h, mask, List.mapIdx_mapIdx]
  refine List.ext_getElem (by simp) fun i _ _ => ?_
  rw [List.getElem_mapIdx, Function.comp_apply, Nat.zero_add, UInt8.xor_assoc, UInt8.xor_self,
    UInt8.xor_zero]

/-! ## Round trips -/

/-- Read as `header` whatever follows, and not from a part of it. -/
structure ReadBack (written : Bytes) (header : FrameHeader) : Prop where
  whole : ∀ more, parseHeader (written ++ more) = .ok header
  part : ∀ k < header.headerLen, parseHeader (written.take k) = .error .kIncomplete

theorem readBack_frameHeader {fin : Bool} {opcode : Byte} {n : Nat} (h : Legal fin opcode n)
    (mask : Option (Block 4)) (payload : Bytes) :
    ReadBack (frameHeader fin opcode mask n ++ payload) (headerOf fin opcode mask n) := by
  constructor
  · intro more
    rw [List.append_assoc, parseHeader_frameHeader_append h]
  · intro k hk
    have hheader : (headerOf fin opcode mask n).headerLen =
        (frameHeader fin opcode mask n).length := rfl
    rw [hheader] at hk
    rw [List.take_append_of_le_length (Nat.le_of_lt hk), parseHeader_take_frameHeader h mask hk]

/-- How many bytes `encodeHeader` needs. -/
def headerSize (n : Nat) : Nat := if n < 126 then 2 else 4

/-- What an encoder is to give: a frame exactly when it has room `enough`, and the frame is
read back as its header, with the payload behind it. -/
structure RoundTrip (enough : Prop) (encoded : Option Bytes) (header : FrameHeader)
    (payload : Bytes) : Prop where
  writes : encoded.isSome = true ↔ enough
  back : ∀ written, encoded = some written → ReadBack written header
  carries : ∀ written, encoded = some written → written.drop header.headerLen = payload

/-- An encoder that writes a known legal frame exactly when it has room. -/
theorem roundTrip_of_eq {enough : Prop} {encoded : Option Bytes} {opcode : Byte} {n : Nat}
    {payload : Bytes} (hlegal : Legal true opcode n) (hwrites : encoded.isSome = true ↔ enough)
    (hwritten : ∀ written, encoded = some written →
      written = frameHeader true opcode none n ++ payload) :
    RoundTrip enough encoded (headerOf true opcode none n) payload where
  writes := hwrites
  back written h := by
    rw [hwritten written h]
    exact readBack_frameHeader hlegal none payload
  carries written h := by
    rw [hwritten written h]
    exact List.drop_left

theorem headerOf_none {opcode : Byte} {n : Nat} (h : n ≤ 65535) :
    headerOf true opcode none n = ⟨true, opcode, false, n, Block.zero 4, headerSize n⟩ := by
  have hlength : (frameHeader true opcode none n).length = headerSize n := by
    rw [length_frameHeader, extendedLength, headerSize]
    by_cases hshort : n ≤ 125
    · rw [if_pos hshort, if_pos (Nat.lt_succ_of_le hshort)]
      rfl
    · rw [if_neg hshort, if_pos h, if_neg (fun hlt => hshort (Nat.le_of_lt_succ hlt)),
        length_numberBytes]
      rfl
  rw [headerOf, hlength]
  rfl

theorem encodeHeaderInto_isSome_iff {cap : Nat} {opcode : Byte} {n : Nat} (h : n ≤ 65535) :
    (encodeHeaderInto cap opcode n).isSome = true ↔ headerSize n ≤ cap := by
  rw [encodeHeaderInto, headerSize]
  split
  · rw [Option.isSome_ite', Nat.not_lt]
  · rw [Option.isSome_ite', Nat.not_lt]

theorem encodeCloseInto_isSome_iff {cap : Nat} {code : UInt16} :
    (encodeCloseInto cap code).isSome = true ↔ 4 ≤ cap := by
  rw [encodeCloseInto, Option.isSome_ite', Nat.not_lt]

theorem encodePongInto_isSome_iff {cap : Nat} {payload : Bytes} :
    (encodePongInto cap payload).isSome = true ↔
      payload.length ≤ 125 ∧ 2 + payload.length ≤ cap := by
  rw [encodePongInto]
  split
  · rename_i hlong
    exact iff_of_false Bool.false_ne_true fun h => Nat.not_le.mpr hlong h.1
  · rename_i hshort
    rw [Option.isSome_ite', Nat.not_lt]
    exact (and_iff_right (Nat.not_lt.mp hshort)).symm

/-- Buffers of the documented sizes, `kMaxServerHeader` and `kMaxControlFrame`, have room for
every frame that the board may write. -/
theorem encoders_fit :
    (∀ (opcode : Byte) (n cap : Nat), n ≤ 65535 → kMaxServerHeader ≤ cap →
      (encodeHeaderInto cap opcode n).isSome = true) ∧
    (∀ (code : UInt16) (cap : Nat), kMaxControlFrame ≤ cap →
      (encodeCloseInto cap code).isSome = true) ∧
    ∀ (payload : Bytes) (cap : Nat), payload.length ≤ 125 → kMaxControlFrame ≤ cap →
      (encodePongInto cap payload).isSome = true := by
  refine ⟨fun opcode n cap hn hcap => ?_, fun code cap hcap => ?_, fun payload cap hn hcap => ?_⟩
  · rw [kMaxServerHeader] at hcap
    refine (encodeHeaderInto_isSome_iff hn).mpr ?_
    rw [headerSize]
    split <;> omega
  · rw [kMaxControlFrame] at hcap
    exact encodeCloseInto_isSome_iff.mpr (by omega)
  · rw [kMaxControlFrame] at hcap
    exact encodePongInto_isSome_iff.mpr ⟨hn, by omega⟩

/-- Every encoder writes a frame as soon as its buffer has room for it, and `parseHeader`
reads the frame back whatever follows.  It reads back every masked header of a client that
the RFC allows as well, takes no part of a header for one, and the masked payload comes out
of any cut into pieces. -/
theorem frames_round_trip :
    (∀ (opcode : Byte) (n cap : Nat),
      ((opcode = kContinuation ∨ opcode = kText ∨ opcode = kBinary) ∧ n ≤ 65535) ∨
        ((opcode = kClose ∨ opcode = kPing ∨ opcode = kPong) ∧ n ≤ 125) →
      RoundTrip (headerSize n ≤ cap) (encodeHeaderInto cap opcode n)
        ⟨true, opcode, false, n, Block.zero 4, headerSize n⟩ []) ∧
    (∀ (code : UInt16) (cap : Nat),
      RoundTrip (4 ≤ cap) (encodeCloseInto cap code) ⟨true, kClose, false, 2, Block.zero 4, 2⟩
        [UInt8.ofNat (code.toNat / 256), UInt8.ofNat code.toNat]) ∧
    (∀ (payload : Bytes) (cap : Nat),
      RoundTrip (payload.length ≤ 125 ∧ 2 + payload.length ≤ cap) (encodePongInto cap payload)
        ⟨true, kPong, false, payload.length, Block.zero 4, 2⟩ payload) ∧
    (∀ (fin : Bool) (opcode : Byte) (n : Nat) (key : Block 4), Legal fin opcode n →
      ReadBack (frameHeader fin opcode (some key) n)
        ⟨fin, opcode, true, n, key, (frameHeader fin opcode (some key) n).length⟩) ∧
    ∀ (key : Block 4) (payload : Bytes) (pieces : List Bytes),
      pieces.flatten = mask key payload → unmaskPieces key 0 pieces = payload := by
  refine ⟨?_, ?_, ?_, ?_, fun key payload pieces h => unmaskPieces_mask h⟩
  · intro opcode n cap hkind
    have hlegal : Legal true opcode n := by
      rcases hkind with ⟨hopcode, hn⟩ | ⟨hopcode, hn⟩
      · exact legal_of_data hopcode hn
      · exact legal_of_control hopcode hn
    have hshort : n ≤ 65535 := by
      rcases hkind with ⟨-, hn⟩ | ⟨-, hn⟩ <;> omega
    rw [← headerOf_none hshort]
    refine roundTrip_of_eq hlegal (encodeHeaderInto_isSome_iff hshort) fun written hwritten => ?_
    rw [List.append_nil]
    exact encodeHeaderInto_eq hlegal.opcode_lt hwritten
  · intro code cap
    refine roundTrip_of_eq (legal_of_control (.inl rfl) (by decide)) encodeCloseInto_isSome_iff
      fun written hwritten => ?_
    rw [encodeCloseInto] at hwritten
    split at hwritten
    · cases hwritten
    · cases hwritten
      exact encodeClose_eq code.toNat
  · intro payload cap
    by_cases hlength : payload.length ≤ 125
    · have hheader := @headerOf_none kPong payload.length (by omega)
      rw [headerSize, if_pos (Nat.lt_succ_of_le hlength)] at hheader
      rw [← hheader]
      refine roundTrip_of_eq (legal_of_control (.inr (.inr rfl)) hlength)
        encodePongInto_isSome_iff fun written hwritten => ?_
      rw [encodePongInto, if_neg (Nat.not_lt.mpr hlength)] at hwritten
      split at hwritten
      · cases hwritten
      · cases hwritten
        exact encodePong_eq hlength
    · have hrefused : encodePongInto cap payload = none := if_pos (Nat.not_le.mp hlength)
      refine ⟨encodePongInto_isSome_iff, fun written h => ?_, fun written h => ?_⟩ <;>
        · rw [hrefused] at h
          cases h
  · intro fin opcode n key hlegal
    have hback := readBack_frameHeader hlegal (some key) []
    rw [List.append_nil] at hback
    exact hback

/-- A text of 300 bytes in a buffer of four, a close, a pong of three bytes, the header of a
client's fragment, and a payload that arrives in two pieces. -/
theorem frames_round_trip_samples :
    (∃ written, encodeHeaderInto 4 kText 300 = some written ∧
      ReadBack written ⟨true, kText, false, 300, Block.zero 4, 4⟩) ∧
    (∃ written, encodeCloseInto 4 1000 = some written ∧
      ReadBack written ⟨true, kClose, false, 2, Block.zero 4, 2⟩) ∧
    (∃ written, encodePongInto 127 [1, 2, 3] = some written ∧
      ReadBack written ⟨true, kPong, false, 3, Block.zero 4, 2⟩) ∧
    ReadBack (frameHeader false kText (some ⟨[7, 8, 9, 10], rfl⟩) 200)
      ⟨false, kText, true, 200, ⟨[7, 8, 9, 10], rfl⟩, 8⟩ ∧
    unmaskPieces ⟨[7, 8, 9, 10], rfl⟩ 0 [[6, 10, 10], [14, 2]] = [1, 2, 3, 4, 5] := by
  obtain ⟨hheader, hclose, hpong, hclient, hpieces⟩ := frames_round_trip
  obtain ⟨written, hwritten⟩ := Option.isSome_iff_exists.mp
    ((hheader kText 300 4 (.inl ⟨.inr (.inl rfl), by decide⟩)).writes.mpr (by decide))
  obtain ⟨closed, hclosed⟩ := Option.isSome_iff_exists.mp
    ((hclose 1000 4).writes.mpr (Nat.le_refl 4))
  obtain ⟨answered, hanswered⟩ := Option.isSome_iff_exists.mp
    ((hpong [1, 2, 3] 127).writes.mpr (by decide))
  refine ⟨⟨written, hwritten, ?_⟩, ⟨closed, hclosed, (hclose 1000 4).back closed hclosed⟩,
    ⟨answered, hanswered, (hpong [1, 2, 3] 127).back answered hanswered⟩,
    hclient false kText 200 _ ⟨by decide, by decide, by decide⟩, hpieces _ _ _ (by decide)⟩
  exact (hheader kText 300 4 (.inl ⟨.inr (.inl rfl), by decide⟩)).back written hwritten

end MatrixFaces.Api.Ws
