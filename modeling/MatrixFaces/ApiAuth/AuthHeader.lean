import MatrixFaces.ApiAuth.Hex

set_option autoImplicit false

/-!
# The Authorization header (`lib/apiauth/auth_header.cpp`)

`Authorization: HMAC id=..,ts=..,nonce=..,sig=..`

The scanner runs on fuel; `ApiAuth.HeaderGrammar` shows that the length of the text is enough.
Each parameter is taken by `takeParam`, which gives up on a name that it does not know.

`formatAuthHeader` is the header as a client writes it, and
`parseAuthHeader_formatAuthHeader` that it is read back.

The scanner runs on fuel; `ApiAuth.HeaderGrammar` shows that the length of the text is enough.
Each parameter is taken by `takeParam`, which gives up on a name that it does not know.

`formatAuthHeader` is the header as a client writes it, and `parseAuthHeader_formatAuthHeader`
that it is read back.
-/

namespace MatrixFaces.ApiAuth

open MatrixFaces.Foundation

def kClientIdBytes : Nat := 8
def kNonceBytes : Nat := 8
def kSecretBytes : Nat := 32
def kSignatureBytes : Nat := 32

def kClientIdHexLen : Nat := kClientIdBytes * 2
def kNonceHexLen : Nat := kNonceBytes * 2
def kSignatureHexLen : Nat := kSignatureBytes * 2

/-- A parsed header.  The timestamp is kept as text too, because the canonical
request is signed over the exact characters the client sent. -/
structure AuthHeader where
  id : Bytes
  nonce : Bytes
  sig : Bytes
  ts : Bytes
  timestamp : UInt32
  deriving DecidableEq, Repr

/-- A space or a tab. -/
def isSpace (c : Byte) : Bool := c == 32 || c == 9

def comma : Byte := 44

def equals : Byte := 61

def lower (c : Byte) : Byte := if 65 ≤ c ∧ c ≤ 90 then c - 65 + 97 else c

/-- `matchesIgnoringCase` over the whole of `b`, which `a` must be long enough for. -/
def matchesIgnoringCase (a b : Bytes) : Bool :=
  (a.take b.length).map lower == b.map lower

def isHexString (s : Bytes) : Bool :=
  s.all fun (c : Byte) => (48 ≤ c && c ≤ 57) || (97 ≤ c && c ≤ 102) || (65 ≤ c && c ≤ 70)

/-- `takeValue` followed by the hex test every caller makes. -/
def takeHexValue (value : Bytes) (expectedLen : Nat) : Option Bytes :=
  if value.length = expectedLen ∧ isHexString value = true then some value else none

def isDigit (c : Byte) : Bool := 48 ≤ c && c ≤ 57

/-- The digits of a timestamp as a number. -/
def decimal (digits : Bytes) : Nat :=
  digits.foldl (fun n (c : Byte) => n * 10 + (c.toNat - 48)) 0

/-- The `ts` branch: one to ten digits, at most 2^32 - 1. -/
def takeTimestamp (value : Bytes) : Option (Bytes × UInt32) :=
  if value.length = 0 ∨ value.length ≥ 11 then none
  else if value.all isDigit = false then none
  else if decimal value > 0xffffffff then none
  else some (value, UInt32.ofNat (decimal value))

/-- What the loop has seen so far: a field is set when its `have` flag is. -/
structure PartialHeader where
  id : Option Bytes := none
  ts : Option (Bytes × UInt32) := none
  nonce : Option Bytes := none
  sig : Option Bytes := none

/-- One `name=value` parameter; unknown names are refused. -/
def takeParam (out : PartialHeader) (name value : Bytes) : Option PartialHeader :=
  if name = ascii "id" then
    (takeHexValue value kClientIdHexLen).map fun v => { out with id := some v }
  else if name = ascii "ts" then
    (takeTimestamp value).map fun v => { out with ts := some v }
  else if name = ascii "nonce" then
    (takeHexValue value kNonceHexLen).map fun v => { out with nonce := some v }
  else if name = ascii "sig" then
    (takeHexValue value kSignatureHexLen).map fun v => { out with sig := some v }
  else none

/-- The parameter loop on the rest of the string.  Every turn consumes at least
the `=`, so a bound of the string's length is never reached. -/
def parseParams : Nat → Bytes → PartialHeader → Option PartialHeader
  | 0, _, out => some out
  | fuel + 1, p, out =>
      let p := p.dropWhile fun c => isSpace c || c == comma
      if p = [] then some out
      else
        let name := p.takeWhile fun c => c != equals && c != comma
        match p.dropWhile fun c => c != equals && c != comma with
        | [] => none
        | c :: rest =>
            if c != equals then none
            else
              let value := rest.takeWhile fun c => c != comma && !isSpace c
              match takeParam out name value with
              | none => none
              | some next =>
                  parseParams fuel (rest.dropWhile fun c => c != comma && !isSpace c) next

/-- All four parameters were seen. -/
def PartialHeader.complete (out : PartialHeader) : Option AuthHeader :=
  match out.id, out.ts, out.nonce, out.sig with
  | some id, some ts, some nonce, some sig =>
      some { id := id, nonce := nonce, sig := sig, ts := ts.1, timestamp := ts.2 }
  | _, _, _, _ => none

def kScheme : Bytes := ascii "HMAC"

/-- `parseAuthHeader`; the argument is `none` for a null pointer. -/
def parseAuthHeader (value : Option Bytes) : Option AuthHeader :=
  match value with
  | none => none
  | some value =>
      let p := (cstring value).dropWhile isSpace
      if p.length < kScheme.length ∨ matchesIgnoringCase p kScheme = false then none
      else
        match p.drop kScheme.length with
        | [] => none
        | c :: rest =>
            if isSpace c = false then none
            else (parseParams (c :: rest).length (c :: rest) {}).bind PartialHeader.complete

/-! ## The header a client writes -/

/-- The header text with its four parameters in the documented order. -/
def formatAuthHeader (header : AuthHeader) : Bytes :=
  ascii "HMAC id=" ++ (header.id ++ (ascii ",ts=" ++ (header.ts ++ (ascii ",nonce=" ++
    (header.nonce ++ (ascii ",sig=" ++ header.sig))))))

/-- The fields have the sizes and alphabets of the grammar. -/
structure AuthHeader.WellFormed (header : AuthHeader) : Prop where
  id : takeHexValue header.id kClientIdHexLen = some header.id
  nonce : takeHexValue header.nonce kNonceHexLen = some header.nonce
  sig : takeHexValue header.sig kSignatureHexLen = some header.sig
  ts : takeTimestamp header.ts = some (header.ts, header.timestamp)

/-- A character with a hexadecimal value is one of the 22 digits. -/
theorem isHexDigit_of_nibble {c : Byte} (h : (nibble c).isSome = true) :
    ((48 ≤ c && c ≤ 57) || (97 ≤ c && c ≤ 102) || (65 ≤ c && c ≤ 70)) = true := by
  revert h
  exact byte_forall (P := fun c => (nibble c).isSome = true →
    ((48 ≤ c && c ≤ 57) || (97 ≤ c && c ≤ 102) || (65 ≤ c && c ≤ 70)) = true)
    (by decide +kernel) c

/-- What `toHex` writes is accepted as a value of its length. -/
theorem takeHexValue_toHex {n : Nat} (block : Block n) :
    takeHexValue (toHex block.1) (n * 2) = some (toHex block.1) := by
  rw [takeHexValue, if_pos]
  refine ⟨by simp, List.all_eq_true.mpr fun c hc => ?_⟩
  exact isHexDigit_of_nibble (nibble_of_mem_toHex hc)

/-- A character that can stand in a parameter value. -/
def isValueChar (c : Byte) : Bool := c != comma && !isSpace c && c != 0

theorem isValueChar_of_hex {c : Byte}
    (h : ((48 ≤ c && c ≤ 57) || (97 ≤ c && c ≤ 102) || (65 ≤ c && c ≤ 70)) = true) :
    isValueChar c = true := by
  revert h
  exact byte_forall (P := fun c =>
    ((48 ≤ c && c ≤ 57) || (97 ≤ c && c ≤ 102) || (65 ≤ c && c ≤ 70)) = true →
      isValueChar c = true) (by decide +kernel) c

theorem valueChars_of_takeHexValue {value text : Bytes} {n : Nat}
    (h : takeHexValue value n = some text) : ∀ c ∈ value, isValueChar c = true := by
  rw [takeHexValue] at h
  split at h
  · rename_i hvalid
    intro c hc
    exact isValueChar_of_hex (List.all_eq_true.mp hvalid.2 c hc)
  · simp at h

theorem valueChars_of_takeTimestamp {value : Bytes} {t : Bytes × UInt32}
    (h : takeTimestamp value = some t) : ∀ c ∈ value, isValueChar c = true := by
  simp only [takeTimestamp] at h
  split at h
  · simp at h
  · split at h
    · simp at h
    · rename_i hdigits
      rw [Bool.not_eq_false] at hdigits
      intro c hc
      have hdigit := List.all_eq_true.mp hdigits c hc
      exact isValueChar_of_hex (by simp only [isDigit] at hdigit; simp [hdigit])

/-- One turn of the loop on `name=value` followed by the end or a separator. -/
theorem parseParams_param {name value rest : Bytes} {out next : PartialHeader} {fuel : Nat}
    (hname : name ≠ [] ∧ name.all (fun c => c != equals && c != comma && !isSpace c) = true)
    (hvalue : ∀ c ∈ value, isValueChar c = true)
    (hrest : ∀ c ∈ rest.head?, (isSpace c || c == comma) = true)
    (htake : takeParam out name value = some next) :
    parseParams (fuel + 1) (name ++ equals :: (value ++ rest)) out =
      parseParams fuel rest next := by
  obtain ⟨first, name, rfl⟩ := List.exists_cons_of_ne_nil hname.1
  have hall := List.all_eq_true.mp hname.2
  have hfirst := hall first List.mem_cons_self
  simp only [Bool.and_eq_true, bne_iff_ne, Bool.not_eq_true'] at hfirst
  have hskip : (first :: name ++ equals :: (value ++ rest)).dropWhile
      (fun c => isSpace c || c == comma) = first :: name ++ equals :: (value ++ rest) := by
    rw [List.cons_append, List.dropWhile_cons_of_neg]
    simp [hfirst.1.2, hfirst.2]
  have hstop : ∀ c ∈ first :: name, (c != equals && c != comma) = true := by
    intro c hc
    have := hall c hc
    simp_all
  have htakeName : (first :: name ++ equals :: (value ++ rest)).takeWhile
      (fun c => c != equals && c != comma) = first :: name := by
    rw [List.takeWhile_append_of_pos hstop, List.takeWhile_cons_of_neg (by simp)]
    simp
  have hdropName : (first :: name ++ equals :: (value ++ rest)).dropWhile
      (fun c => c != equals && c != comma) = equals :: (value ++ rest) := by
    rw [List.dropWhile_append_of_pos hstop, List.dropWhile_cons_of_neg (by simp)]
  have hkeep : ∀ c ∈ value, (c != comma && !isSpace c) = true := by
    intro c hc
    have := hvalue c hc
    simp only [isValueChar, Bool.and_eq_true] at this
    simp [this]
  have hstopValue : rest.takeWhile (fun c => c != comma && !isSpace c) = [] ∧
      rest.dropWhile (fun c => c != comma && !isSpace c) = rest := by
    cases rest with
    | nil => exact ⟨rfl, rfl⟩
    | cons c tail =>
        have hc := hrest c rfl
        have hkept : ¬(c != comma && !isSpace c) = true := by
          simp only [Bool.or_eq_true, beq_iff_eq] at hc
          rcases hc with hc | hc <;> simp [hc]
        exact ⟨List.takeWhile_cons_of_neg hkept, List.dropWhile_cons_of_neg hkept⟩
  have htakeValue : (value ++ rest).takeWhile (fun c => c != comma && !isSpace c) = value := by
    rw [List.takeWhile_append_of_pos hkeep, hstopValue.1, List.append_nil]
  have hdropValue : (value ++ rest).dropWhile (fun c => c != comma && !isSpace c) = rest := by
    rw [List.dropWhile_append_of_pos hkeep, hstopValue.2]
  rw [parseParams]
  simp only [hskip, htakeName, hdropName, htakeValue, hdropValue, htake]
  simp

/-- Separators in front of a parameter are skipped. -/
theorem parseParams_separator {c : Byte} (hc : (isSpace c || c == comma) = true) (fuel : Nat)
    (p : Bytes) (out : PartialHeader) :
    parseParams (fuel + 1) (c :: p) out = parseParams (fuel + 1) p out := by
  rw [parseParams, parseParams, List.dropWhile_cons_of_pos (by simpa using hc)]

@[simp] theorem parseParams_nil (fuel : Nat) (out : PartialHeader) :
    parseParams fuel [] out = some out := by
  cases fuel <;> simp [parseParams]

theorem takeParam_id {header : AuthHeader} (h : header.WellFormed) (out : PartialHeader) :
    takeParam out (ascii "id") header.id = some { out with id := some header.id } := by
  rw [takeParam, if_pos rfl, h.id]
  rfl

theorem takeParam_ts {header : AuthHeader} (h : header.WellFormed) (out : PartialHeader) :
    takeParam out (ascii "ts") header.ts =
      some { out with ts := some (header.ts, header.timestamp) } := by
  rw [takeParam, if_neg (by decide), if_pos rfl, h.ts]
  rfl

theorem takeParam_nonce {header : AuthHeader} (h : header.WellFormed) (out : PartialHeader) :
    takeParam out (ascii "nonce") header.nonce = some { out with nonce := some header.nonce } := by
  rw [takeParam, if_neg (by decide), if_neg (by decide), if_pos rfl, h.nonce]
  rfl

theorem takeParam_sig {header : AuthHeader} (h : header.WellFormed) (out : PartialHeader) :
    takeParam out (ascii "sig") header.sig = some { out with sig := some header.sig } := by
  rw [takeParam, if_neg (by decide), if_neg (by decide), if_neg (by decide), if_pos rfl, h.sig]
  rfl

/-- The parameters of a formatted header, behind the scheme. -/
def formatParams (header : AuthHeader) : Bytes :=
  ascii "id" ++ equals :: (header.id ++ comma :: (ascii "ts" ++ equals :: (header.ts ++
    comma :: (ascii "nonce" ++ equals :: (header.nonce ++
      comma :: (ascii "sig" ++ equals :: (header.sig ++ [])))))))

theorem formatAuthHeader_eq (header : AuthHeader) :
    formatAuthHeader header = kScheme ++ 32 :: formatParams header := by
  simp [formatAuthHeader, formatParams, kScheme, ascii, comma, equals]

theorem parseParams_formatParams {header : AuthHeader} (h : header.WellFormed) (fuel : Nat) :
    parseParams (fuel + 4) (formatParams header) {} =
      some { id := some header.id, ts := some (header.ts, header.timestamp),
             nonce := some header.nonce, sig := some header.sig } := by
  have hcomma : (isSpace comma || comma == comma) = true := by decide
  have hnext : ∀ tail : Bytes, ∀ c ∈ (comma :: tail).head?, (isSpace c || c == comma) = true := by
    rintro tail c ⟨⟩
    exact hcomma
  rw [formatParams,
    parseParams_param (by decide) (valueChars_of_takeHexValue h.id) (hnext _)
      (takeParam_id h _),
    parseParams_separator hcomma,
    parseParams_param (by decide) (valueChars_of_takeTimestamp h.ts) (hnext _)
      (takeParam_ts h _),
    parseParams_separator hcomma,
    parseParams_param (by decide) (valueChars_of_takeHexValue h.nonce) (hnext _)
      (takeParam_nonce h _),
    parseParams_separator hcomma,
    parseParams_param (by decide) (valueChars_of_takeHexValue h.sig) (by simp)
      (takeParam_sig h _),
    parseParams_nil]

theorem zero_not_mem_of_valueChars {value : Bytes} (h : ∀ c ∈ value, isValueChar c = true) :
    (0 : Byte) ∉ value := by
  intro hzero
  simpa [isValueChar] using h 0 hzero

theorem zero_not_mem_formatAuthHeader {header : AuthHeader} (h : header.WellFormed) :
    (0 : Byte) ∉ formatAuthHeader header := by
  have hid := zero_not_mem_of_valueChars (valueChars_of_takeHexValue h.id)
  have hts := zero_not_mem_of_valueChars (valueChars_of_takeTimestamp h.ts)
  have hnonce := zero_not_mem_of_valueChars (valueChars_of_takeHexValue h.nonce)
  have hsig := zero_not_mem_of_valueChars (valueChars_of_takeHexValue h.sig)
  simp only [formatAuthHeader, List.mem_append, not_or]
  exact ⟨by decide, hid, by decide, hts, by decide, hnonce, by decide, hsig⟩

/-- The parser reads back what a client writes. -/
theorem parseAuthHeader_formatAuthHeader {header : AuthHeader} (h : header.WellFormed) :
    parseAuthHeader (some (formatAuthHeader header)) = some header := by
  have hlength : (32 :: formatParams header).length =
      (formatParams header).length - 3 + 4 := by
    have : 3 ≤ (formatParams header).length := by
      simp [formatParams, ascii]
    simp only [List.length_cons]
    omega
  have hscheme : (kScheme ++ 32 :: formatParams header).dropWhile isSpace =
      kScheme ++ 32 :: formatParams header := by
    rw [show kScheme = 72 :: kScheme.tail by decide, List.cons_append,
      List.dropWhile_cons_of_neg (by decide)]
  have hmatch : matchesIgnoringCase (kScheme ++ 32 :: formatParams header) kScheme = true := by
    simp [matchesIgnoringCase]
  have hcstring := cstring_of_not_mem (zero_not_mem_formatAuthHeader h)
  rw [formatAuthHeader_eq] at hcstring ⊢
  rw [parseAuthHeader]
  simp only [hcstring, hscheme, hmatch, List.drop_left]
  rw [if_neg (by simp), if_neg (by decide), hlength, parseParams_separator (by decide),
    parseParams_formatParams h]
  rfl

end MatrixFaces.ApiAuth
