import MatrixFaces.Foundation.LittleEndian

set_option autoImplicit false

/-!
# The framing of stored records (`src/storage/record_blob.cpp`)

A magic number, a version, a count, room for the full capacity of records and a
checksum of everything before it.  `parse` answers with the records that were read, and
`parseInto` is it over the caller's memory.

The main result is `framing_faithful`, for every magic number, version, size and number of
records: what `serialize` writes is parsed back, with anything behind it and over any memory,
is no data for another magic number or version, and depends on nothing behind the records in
use; and a blob that is refused leaves the caller's memory and count as they were.
-/

namespace MatrixFaces.Storage

open MatrixFaces.Foundation

/-- The inner loop of `crc32`: eight shifts of the remainder. -/
def crcByte (crc : UInt32) (byte : Byte) : UInt32 :=
  (List.range 8).foldl
    (fun crc _ =>
      let mask := ~~~((crc &&& 1) - 1)
      (crc >>> 1) ^^^ (0xedb88320 &&& mask))
    (crc ^^^ byte.toUInt32)

/-- `crc32`. -/
def crc32 (data : Bytes) : UInt32 := ~~~(data.foldl crcByte 0xffffffff)

/-- `framedSize`. -/
def framedSize (recordSize maxRecords : Nat) : Nat := 8 + recordSize * maxRecords + 4

/-- Everything in front of the checksum. -/
def framed (magic : UInt32) (version : UInt16) (records : Bytes) (recordSize maxRecords : Nat)
    (count : UInt16) : Bytes :=
  writeU32 magic ++ writeU16 version ++ writeU16 count ++
    records.take (recordSize * count.toNat) ++
    List.replicate (recordSize * maxRecords - recordSize * count.toNat) 0

/-- `serialize`; `none` is the source's `false`. -/
def serialize (outCap : Nat) (magic : UInt32) (version : UInt16) (records : Bytes)
    (recordSize maxRecords : Nat) (count : UInt16) : Option Bytes :=
  if outCap < framedSize recordSize maxRecords ∨ count.toNat > maxRecords then none
  else
    let bytes := framed magic version records recordSize maxRecords count
    some (bytes ++ writeU32 (crc32 bytes))

/-- `ParseResult`, without `kOk`. -/
inductive ParseError where
  | kTooShort
  | kNoData
  | kBadChecksum
  | kBadCount
  deriving DecidableEq, Repr

/-- `parse`: the count and the bytes of that many records. -/
def parse (bytes : Bytes) (magic : UInt32) (version : UInt16) (recordSize maxRecords : Nat) :
    Except ParseError (UInt16 × Bytes) :=
  let crcOffset := framedSize recordSize maxRecords - 4
  if bytes.length < framedSize recordSize maxRecords then .error .kTooShort
  else if readU32 bytes ≠ magic then .error .kNoData
  else if readU16 (bytes.drop 4) ≠ version then .error .kNoData
  else if readU32 (bytes.drop crcOffset) ≠ crc32 (bytes.take crcOffset) then .error .kBadChecksum
  else
    let count := readU16 (bytes.drop 6)
    if count.toNat > maxRecords then .error .kBadCount
    else .ok (count, (bytes.drop 8).take (recordSize * count.toNat))

/-- `ParseResult`. -/
inductive ParseResult where
  | kOk
  | kTooShort
  | kNoData
  | kBadChecksum
  | kBadCount
  deriving DecidableEq, Repr

def ParseError.result : ParseError → ParseResult
  | .kTooShort => .kTooShort
  | .kNoData => .kNoData
  | .kBadChecksum => .kBadChecksum
  | .kBadCount => .kBadCount

/-- What `parse` returns, and what it leaves in its caller's `records` and `outCount`. -/
structure Parsed where
  result : ParseResult
  records : Bytes
  outCount : UInt16
  deriving DecidableEq

/-- `parse` with the caller's memory. -/
def parseInto (bytes : Bytes) (magic : UInt32) (version : UInt16) (recordSize maxRecords : Nat)
    (records : Bytes) (outCount : UInt16) : Parsed :=
  let crcOffset := framedSize recordSize maxRecords - 4
  if bytes.length < framedSize recordSize maxRecords then ⟨.kTooShort, records, outCount⟩
  else if readU32 bytes ≠ magic then ⟨.kNoData, records, outCount⟩
  else if readU16 (bytes.drop 4) ≠ version then ⟨.kNoData, records, outCount⟩
  else if readU32 (bytes.drop crcOffset) ≠ crc32 (bytes.take crcOffset) then
    ⟨.kBadChecksum, records, outCount⟩
  else
    let count := readU16 (bytes.drop 6)
    if count.toNat > maxRecords then ⟨.kBadCount, records, outCount⟩
    else
      ⟨.kOk, (bytes.drop 8).take (recordSize * count.toNat) ++
        records.drop (recordSize * count.toNat), count⟩

/-- `parse` touches the memory only where it succeeds. -/
theorem parseInto_eq (bytes : Bytes) (magic : UInt32) (version : UInt16)
    (recordSize maxRecords : Nat) (records : Bytes) (outCount : UInt16) :
    parseInto bytes magic version recordSize maxRecords records outCount =
      match parse bytes magic version recordSize maxRecords with
      | .error error => ⟨error.result, records, outCount⟩
      | .ok (count, read) => ⟨.kOk, read ++ records.drop (recordSize * count.toNat), count⟩ := by
  unfold parseInto parse
  simp only
  repeat' split
  all_goals first
    | rfl
    | (rename_i h; cases h; rfl)
    | (rename_i h; cases h)

/-- A count that is read back is one the blob has room for. -/
theorem count_le_of_parse {bytes : Bytes} {magic : UInt32} {version : UInt16}
    {recordSize maxRecords : Nat} {count : UInt16} {read : Bytes}
    (h : parse bytes magic version recordSize maxRecords = .ok (count, read)) :
    count.toNat ≤ maxRecords := by
  rw [parse] at h
  simp only at h
  repeat' split at h
  all_goals cases h
  exact Nat.not_lt.mp ‹_›

section

variable {magic : UInt32} {version : UInt16} {records : Bytes} {recordSize maxRecords : Nat}
  {count : UInt16}

theorem length_framed (hcount : count.toNat ≤ maxRecords)
    (hrecords : recordSize * count.toNat ≤ records.length) :
    (framed magic version records recordSize maxRecords count).length =
      framedSize recordSize maxRecords - 4 := by
  have hle : recordSize * count.toNat ≤ recordSize * maxRecords :=
    Nat.mul_le_mul_left recordSize hcount
  simp only [framed, framedSize, List.length_append, length_writeU32, length_writeU16,
    List.length_take, Nat.min_eq_left hrecords, List.length_replicate]
  omega

/-- Only the first `count` records are framed. -/
theorem framed_take {other : Bytes}
    (h : records.take (recordSize * count.toNat) = other.take (recordSize * count.toNat)) :
    framed magic version records recordSize maxRecords count =
      framed magic version other recordSize maxRecords count := by
  rw [framed, framed, h]

theorem serialize_of_fits {outCap : Nat} (hcap : framedSize recordSize maxRecords ≤ outCap)
    (hcount : count.toNat ≤ maxRecords) :
    serialize outCap magic version records recordSize maxRecords count =
      some (framed magic version records recordSize maxRecords count ++
        writeU32 (crc32 (framed magic version records recordSize maxRecords count))) :=
  if_neg (not_or.mpr ⟨Nat.not_lt.mpr hcap, Nat.not_lt.mpr hcount⟩)

theorem length_blob (hcount : count.toNat ≤ maxRecords)
    (hrecords : recordSize * count.toNat ≤ records.length) (checksum : UInt32) :
    (framed magic version records recordSize maxRecords count ++ writeU32 checksum).length =
      framedSize recordSize maxRecords := by
  rw [List.length_append, length_framed hcount hrecords, length_writeU32, framedSize]
  omega

variable (magic version records recordSize maxRecords count) in
/-- The magic number and the version of a frame, whatever follows it. -/
theorem head_framed (rest : Bytes) :
    readU32 (framed magic version records recordSize maxRecords count ++ rest) = magic ∧
      readU16 ((framed magic version records recordSize maxRecords count ++ rest).drop 4) =
        version := by
  rw [framed]
  simp only [List.append_assoc, readU32_writeU32, drop_writeU32, readU16_writeU16, and_self]

/-- What was framed is read back, whatever stands behind it. -/
theorem parse_framed (hcount : count.toNat ≤ maxRecords)
    (hrecords : recordSize * count.toNat ≤ records.length) (more : Bytes) :
    parse (framed magic version records recordSize maxRecords count ++
        writeU32 (crc32 (framed magic version records recordSize maxRecords count)) ++ more)
      magic version recordSize maxRecords =
        .ok (count, records.take (recordSize * count.toNat)) := by
  have hlength : (framed magic version records recordSize maxRecords count).length =
      framedSize recordSize maxRecords - 4 := length_framed hcount hrecords
  generalize hbytes : framed magic version records recordSize maxRecords count = bytes
  obtain ⟨hmagic, hversion⟩ := head_framed magic version records recordSize maxRecords count
    (writeU32 (crc32 bytes) ++ more)
  rw [hbytes] at hlength hmagic hversion
  have hnumber : readU16 ((bytes ++ (writeU32 (crc32 bytes) ++ more)).drop 6) = count := by
    rw [← hbytes, framed, ← List.drop_drop (i := 2) (j := 4)]
    simp only [List.append_assoc, drop_writeU32, drop_writeU16, readU16_writeU16]
  have hbody : ((bytes ++ (writeU32 (crc32 bytes) ++ more)).drop 8).take
      (recordSize * count.toNat) = records.take (recordSize * count.toNat) := by
    rw [← hbytes, framed, ← List.drop_drop (i := 4) (j := 4), ← List.drop_drop (i := 2) (j := 2)]
    simp only [List.append_assoc, drop_writeU32, drop_writeU16]
    exact List.take_left' (by rw [List.length_take, Nat.min_eq_left hrecords])
  rw [List.append_assoc, parse, ← hlength, List.drop_left, List.take_left, hmagic, hversion,
    hnumber, if_neg, if_neg (not_not.mpr rfl), if_neg (not_not.mpr rfl), if_neg]
  · dsimp only
    rw [if_neg (Nat.not_lt.mpr hcount), hbody]
  · exact not_not.mpr (readU32_writeU32 _ more)
  · rw [List.length_append, List.length_append, hlength, length_writeU32, framedSize]
    omega

/-- What was framed is read back. -/
theorem parse_serialize {outCap : Nat} (hcap : framedSize recordSize maxRecords ≤ outCap)
    (hcount : count.toNat ≤ maxRecords) (hrecords : records.length = recordSize * count.toNat) :
    ∃ blob, serialize outCap magic version records recordSize maxRecords count = some blob ∧
      blob.length = framedSize recordSize maxRecords ∧
      parse blob magic version recordSize maxRecords = .ok (count, records) := by
  refine ⟨_, serialize_of_fits hcap hcount, length_blob hcount hrecords.ge _, ?_⟩
  have hread := @parse_framed magic version _ _ _ _ hcount hrecords.ge []
  rw [List.append_nil, ← hrecords, List.take_length] at hread
  exact hread

/-- A blob of another kind is no data. -/
theorem parse_framed_other {otherMagic : UInt32} {otherVersion : UInt16}
    (hother : otherMagic ≠ magic ∨ otherVersion ≠ version) {rest : Bytes}
    (hlength : framedSize recordSize maxRecords ≤
      (framed magic version records recordSize maxRecords count ++ rest).length) :
    parse (framed magic version records recordSize maxRecords count ++ rest) otherMagic
      otherVersion recordSize maxRecords = .error .kNoData := by
  obtain ⟨hmagic, hversion⟩ := head_framed magic version records recordSize maxRecords count rest
  rw [parse, if_neg (Nat.not_lt.mpr hlength), hmagic, hversion]
  by_cases h : magic = otherMagic
  · rw [if_neg (not_not.mpr h), if_pos]
    exact (hother.resolve_left fun hne => hne h.symm).symm
  · rw [if_pos h]

end

/-- A blob decodes to what was encoded and to nothing else, and a failed read does no
damage.  What stands behind the records in use, and behind the blob, does not matter. -/
theorem framing_faithful (magic : UInt32) (version : UInt16) (recordSize maxRecords : Nat) :
    (∀ (outCap : Nat) (count : UInt16) (records : Bytes),
      framedSize recordSize maxRecords ≤ outCap → count.toNat ≤ maxRecords →
      recordSize * count.toNat ≤ records.length →
      ∃ blob, serialize outCap magic version records recordSize maxRecords count = some blob ∧
        (∀ (more memory : Bytes) (outCount : UInt16),
          parseInto (blob ++ more) magic version recordSize maxRecords memory outCount =
            ⟨.kOk, records.take (recordSize * count.toNat) ++
              memory.drop (recordSize * count.toNat), count⟩) ∧
        (∀ (otherMagic : UInt32) (otherVersion : UInt16) (more memory : Bytes) (outCount : UInt16),
          otherMagic ≠ magic ∨ otherVersion ≠ version →
          (parseInto (blob ++ more) otherMagic otherVersion recordSize maxRecords memory
            outCount).result = .kNoData) ∧
        ∀ (otherCap : Nat) (other : Bytes), framedSize recordSize maxRecords ≤ otherCap →
          other.take (recordSize * count.toNat) = records.take (recordSize * count.toNat) →
          serialize otherCap magic version other recordSize maxRecords count = some blob) ∧
    ∀ (bytes memory : Bytes) (outCount : UInt16),
      (parseInto bytes magic version recordSize maxRecords memory outCount).result ≠ .kOk →
      (parseInto bytes magic version recordSize maxRecords memory outCount).records = memory ∧
        (parseInto bytes magic version recordSize maxRecords memory outCount).outCount =
          outCount := by
  constructor
  · intro outCap count records hcap hcount hrecords
    refine ⟨_, serialize_of_fits hcap hcount, fun more memory outCount => ?_,
      fun otherMagic otherVersion more memory outCount hother => ?_,
      fun otherCap other hotherCap hother => ?_⟩
    · rw [parseInto_eq, parse_framed hcount hrecords]
    · have hlong : framedSize recordSize maxRecords ≤
          (framed magic version records recordSize maxRecords count ++
            (writeU32 (crc32 (framed magic version records recordSize maxRecords count)) ++
              more)).length := by
        rw [← List.append_assoc, List.length_append, length_blob hcount hrecords]
        exact Nat.le_add_right _ _
      rw [parseInto_eq, List.append_assoc, parse_framed_other hother hlong]
      rfl
    · rw [serialize_of_fits hotherCap hcount, framed_take hother]
  · intro bytes memory outCount hfailed
    rw [parseInto_eq] at hfailed ⊢
    cases hparse : parse bytes magic version recordSize maxRecords with
    | error error => exact ⟨rfl, rfl⟩
    | ok read =>
        rw [hparse] at hfailed
        exact absurd rfl hfailed

/-- Two records of one word, in a blob with room for three. -/
theorem framing_faithful_words :
    ∃ blob, serialize 24 7 1 [1, 0, 0, 0, 2, 0, 0, 0] 4 3 2 = some blob ∧
      parseInto blob 7 1 4 3 (List.replicate 12 9) 0 =
        ⟨.kOk, [1, 0, 0, 0, 2, 0, 0, 0, 9, 9, 9, 9], 2⟩ ∧
      (parseInto blob 8 1 4 3 (List.replicate 12 9) 0).result = .kNoData ∧
      serialize 30 7 1 [1, 0, 0, 0, 2, 0, 0, 0, 3] 4 3 2 = some blob ∧
      (parseInto [] 7 1 4 3 (List.replicate 12 9) 5).outCount = 5 := by
  obtain ⟨hrounds, hfailed⟩ := framing_faithful 7 1 4 3
  obtain ⟨blob, hblob, hread, hother, hsame⟩ :=
    hrounds 24 2 [1, 0, 0, 0, 2, 0, 0, 0] (by decide) (by decide) (by decide)
  refine ⟨blob, hblob, ?_, ?_, hsame 30 _ (by decide) (by decide),
    (hfailed [] _ 5 (by decide)).2⟩
  · have hexact := hread [] (List.replicate 12 9) 0
    rw [List.append_nil] at hexact
    exact hexact
  · have hexact := hother 8 1 [] (List.replicate 12 9) 0 (Or.inl (by decide))
    rw [List.append_nil] at hexact
    exact hexact

end MatrixFaces.Storage
