import MatrixFaces.Foundation.Bytes

set_option autoImplicit false

/-!
# WebSocket frames (`src/api/websocket.cpp`)

The header is read from the front of what has arrived.  Unless it is that more is needed, the
verdict on it stands whatever arrives behind (`parseHeader_append`).  The encoders answer `none`
where the source answers 0.
-/

namespace MatrixFaces.Api.Ws

open MatrixFaces.Foundation

/-! ## Opcodes

The field is cast from four raw bits, so it can hold any value below 16. -/

def kContinuation : Byte := 0x0
def kText : Byte := 0x1
def kBinary : Byte := 0x2
def kClose : Byte := 0x8
def kPing : Byte := 0x9
def kPong : Byte := 0xA

/-- `FrameHeader`. -/
structure FrameHeader where
  fin : Bool
  opcode : Byte
  masked : Bool
  payloadLen : Nat
  maskKey : Block 4
  headerLen : Nat
  deriving DecidableEq, Repr

/-- `ParseResult` other than `kOk`. -/
inductive ParseError where
  | kIncomplete
  | kUnsupported
  deriving DecidableEq, Repr

/-- The bytes of an unsigned number, most significant first. -/
def bigEndian (bytes : Bytes) : Nat := bytes.foldl (fun value (b : Byte) => value * 256 + b.toNat) 0

/-- The length field, from the bytes behind the first two, and the cursor behind it. -/
def readPayloadLen (lenField : Nat) (rest : Bytes) : Except ParseError (Nat × Nat) :=
  if lenField < 126 then .ok (lenField, 2)
  else if lenField = 126 then
    if rest.length < 2 then .error .kIncomplete else .ok (bigEndian (rest.take 2), 4)
  else if rest.length < 8 then .error .kIncomplete
  else if bigEndian (rest.take 8) ≥ 2 ^ 63 then .error .kUnsupported
  else .ok (bigEndian (rest.take 8), 10)

/-- The opcode is that of a control frame. -/
def isControl (opcode : Byte) : Bool := opcode &&& 0x08 != 0

/-- `parseHeader`. -/
def parseHeader (data : Bytes) : Except ParseError FrameHeader :=
  match data with
  | first :: second :: rest =>
      if first &&& 0x70 != 0 then .error .kUnsupported
      else
        let fin := first &&& 0x80 != 0
        let opcode := first &&& 0x0F
        match readPayloadLen (second &&& 0x7F).toNat rest with
        | .error error => .error error
        | .ok (payloadLen, cursor) =>
            if isControl opcode && (decide (payloadLen > 125) || !fin) then .error .kUnsupported
            else if second &&& 0x80 != 0 then
              if h : data.length < cursor + 4 then .error .kIncomplete
              else
                .ok ⟨fin, opcode, true, payloadLen,
                  ⟨(data.drop cursor).take 4, length_take_drop (not_lt.mp h)⟩, cursor + 4⟩
            else .ok ⟨fin, opcode, false, payloadLen, Block.zero 4, cursor⟩
  | _ => .error .kIncomplete

/-- `unmask` from offset 0. -/
def unmask (payload : Bytes) (maskKey : Block 4) : Bytes :=
  payload.mapIdx fun i (b : Byte) => b ^^^ maskKey.1.getD (i % 4) 0

/-- `encodeHeader` of a frame the buffer has room for. -/
def encodeHeader (opcode : Byte) (payloadLen : Nat) : Option Bytes :=
  let first := 0x80 ||| opcode
  if payloadLen < 126 then some [first, UInt8.ofNat payloadLen]
  else if payloadLen ≤ 0xFFFF then
    some [first, 126, UInt8.ofNat (payloadLen / 256), UInt8.ofNat payloadLen]
  else none

/-- `encodeClose`. -/
def encodeClose (code : Nat) : Bytes :=
  [0x80 ||| kClose, 2, UInt8.ofNat (code / 256), UInt8.ofNat code]

/-- `encodePong`; longer payloads are refused and nothing is written. -/
def encodePong (payload : Bytes) : Bytes :=
  if payload.length > 125 then [] else [0x80 ||| kPong, UInt8.ofNat payload.length] ++ payload

/-! ## A verdict on a header stands -/

theorem bigEndian_concat (bytes : Bytes) (b : Byte) :
    bigEndian (bytes ++ [b]) = bigEndian bytes * 256 + b.toNat := by
  rw [bigEndian, List.foldl_append]
  rfl

theorem bigEndian_lt (bytes : Bytes) : bigEndian bytes < 256 ^ bytes.length := by
  induction bytes using List.reverseRecOn with
  | nil => exact Nat.one_pos
  | append_singleton bytes b ih =>
      have hb := b.toNat_lt
      rw [bigEndian_concat, List.length_append, List.length_singleton, Nat.pow_succ]
      omega

theorem readPayloadLen_append {lenField : Nat} {rest : Bytes} (more : Bytes)
    (h : readPayloadLen lenField rest ≠ .error .kIncomplete) :
    readPayloadLen lenField (rest ++ more) = readPayloadLen lenField rest := by
  simp only [readPayloadLen] at h ⊢
  split
  · rfl
  · rename_i hshort
    rw [if_neg hshort] at h
    split
    · rename_i hword
      rw [if_pos hword] at h
      split at h
      · exact absurd rfl h
      · rename_i hlen
        rw [if_neg hlen, if_neg (by rw [List.length_append]; omega),
          List.take_append_of_le_length (by omega)]
    · rename_i hlong
      rw [if_neg hlong] at h
      split at h
      · exact absurd rfl h
      · rename_i hlen
        rw [if_neg hlen, if_neg (by rw [List.length_append]; omega),
          List.take_append_of_le_length (by omega)]

theorem readPayloadLen_cursor {lenField payloadLen cursor : Nat} {rest : Bytes}
    (h : readPayloadLen lenField rest = .ok (payloadLen, cursor)) :
    2 ≤ cursor ∧ cursor ≤ rest.length + 2 ∧ cursor ≤ 10 := by
  rw [readPayloadLen] at h
  split at h
  · cases h; omega
  · split at h
    · split at h
      · cases h
      · cases h; omega
    · split at h
      · cases h
      · split at h
        · cases h
        · cases h; omega

/-- More bytes change nothing once a header was not incomplete. -/
theorem parseHeader_append {data : Bytes} (more : Bytes)
    (h : parseHeader data ≠ .error .kIncomplete) :
    parseHeader (data ++ more) = parseHeader data := by
  match data with
  | [] => exact absurd rfl h
  | [_] => exact absurd rfl h
  | first :: second :: rest =>
      simp only [parseHeader, List.cons_append] at h ⊢
      split
      · rfl
      · rename_i hreserved
        rw [if_neg hreserved] at h
        have hlen : readPayloadLen (second &&& 0x7F).toNat rest ≠ .error .kIncomplete := by
          intro hincomplete
          rw [hincomplete] at h
          exact h rfl
        rw [readPayloadLen_append more hlen]
        cases hread : readPayloadLen (second &&& 0x7F).toNat rest with
        | error error => rfl
        | ok read =>
            obtain ⟨payloadLen, cursor⟩ := read
            obtain ⟨hlow, hhigh, _⟩ := readPayloadLen_cursor hread
            simp only [hread] at h ⊢
            split
            · rfl
            · rename_i hcontrol
              rw [if_neg hcontrol] at h
              split
              · rename_i hmasked
                rw [if_pos hmasked] at h
                split at h
                · exact absurd rfl h
                · rename_i henough
                  simp only [List.length_cons, not_lt] at henough
                  rw [dif_neg (by simp only [List.length_cons, List.length_append]; omega)]
                  rw [dif_neg (by simp only [List.length_cons]; omega)]
                  have hkey : (List.drop cursor (first :: second :: (rest ++ more))).take 4 =
                      (List.drop cursor (first :: second :: rest)).take 4 :=
                    take_drop_append (first :: second :: rest) more henough
                  simp only [hkey]
              · rfl

/-- A header lies within the bytes it was parsed from. -/
theorem parseHeader_headerLen {data : Bytes} {header : FrameHeader}
    (h : parseHeader data = .ok header) :
    2 ≤ header.headerLen ∧ header.headerLen ≤ data.length ∧ header.headerLen ≤ 14 := by
  match data with
  | [] => cases h
  | [_] => cases h
  | first :: second :: rest =>
      simp only [parseHeader] at h
      split at h
      · cases h
      · cases hread : readPayloadLen (second &&& 0x7F).toNat rest with
        | error error =>
            rw [hread] at h
            cases h
        | ok read =>
            obtain ⟨payloadLen, cursor⟩ := read
            obtain ⟨hlow, hhigh, hmax⟩ := readPayloadLen_cursor hread
            simp only [hread] at h
            split at h
            · cases h
            · split at h
              · split at h
                · cases h
                · rename_i henough
                  cases h
                  simp only [List.length_cons, not_lt] at henough ⊢
                  omega
              · cases h
                simp only [List.length_cons]
                omega

end MatrixFaces.Api.Ws
