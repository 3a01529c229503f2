import Mathlib.Data.List.GetD
import MatrixFaces.ApiAuth.RequestSig
import MatrixFaces.Browser.Sha256

set_option autoImplicit false

/-!
# Signed requests from the browser (`data/app.js`)

A string without lone surrogates is the list of its characters, and what the page hashes is
its UTF-8 encoding.  The functions of the page are here under their names: `bytesToHex`,
`hexToBytes`, `sha256Hex`, `hmacSha256Hex` and the canonical text of a request.

The main result is `browser_signature_verifies`: with one secret on both sides, the firmware
accepts the signature that the page computes for a request exactly if the canonical text,
with its terminator, fits `kCanonicalRequestMax`.  The page hashes as the firmware does for
all bytes (`Browser.Sha256`).
-/

namespace MatrixFaces.Browser

open MatrixFaces.Foundation MatrixFaces.Foundation.Js MatrixFaces.ApiAuth

abbrev Text := List Char

/-- `new TextEncoder().encode(text)` -/
def encode (text : Text) : Bytes := text.flatMap String.utf8EncodeChar

/-! ## Hexadecimal -/

/-- `b.toString(16).padStart(2, "0")` -/
def hexByte (b : Byte) : Text :=
  let digits := Nat.toDigits 16 b.toNat
  List.replicate (2 - digits.length) '0' ++ digits

/-- `bytesToHex` -/
def bytesToHex (bytes : Bytes) : Text := bytes.flatMap hexByte

/-- What `parseInt` skips in front of a number. -/
def whiteSpace : List Char :=
  ['\u0009', '\u000A', '\u000B', '\u000C', '\u000D', '\u0020', '\u00A0', '\u1680', '\u2000',
    '\u2001', '\u2002', '\u2003', '\u2004', '\u2005', '\u2006', '\u2007', '\u2008', '\u2009',
    '\u200A', '\u2028', '\u2029', '\u202F', '\u205F', '\u3000', '\uFEFF']

/-- The value of a hexadecimal digit. -/
def digit16 (c : Char) : Option Nat :=
  let code := c.toNat
  if 48 ≤ code ∧ code ≤ 57 then some (code - 48)
  else if 97 ≤ code ∧ code ≤ 102 then some (code - 87)
  else if 65 ≤ code ∧ code ≤ 70 then some (code - 55)
  else none

/-- `parseInt(text, 16)`: white space, a sign and `0x` are skipped and the number ends at the
first character that is no digit; `none` is `NaN`. -/
def parseInt16 (text : Text) : Option Int :=
  let trimmed := text.dropWhile whiteSpace.contains
  let negative := trimmed.head? = some '-'
  let unsigned :=
    if trimmed.head? = some '-' ∨ trimmed.head? = some '+' then trimmed.tail else trimmed
  let stripped :=
    if unsigned.take 2 = ['0', 'x'] ∨ unsigned.take 2 = ['0', 'X'] then unsigned.drop 2
    else unsigned
  let digits := stripped.takeWhile fun c => (digit16 c).isSome
  if digits = [] then none
  else
    let value : Int := digits.foldl (fun value c => value * 16 + (digit16 c).getD 0) 0
    some (if negative then -value else value)

/-- `hexToBytes`; `NaN` is stored as 0. -/
def hexToBytes (hex : Text) : Uint8Array :=
  (List.range (hex.length / 2)).map fun i =>
    UInt8.ofInt ((parseInt16 ((hex.drop (i * 2)).take 2)).getD 0)

/-! ## Signing -/

/-- `sha256Hex` -/
def sha256Hex (text : Text) : Text := bytesToHex (sha256 (encode text))

/-- `key` as it enters the pads. -/
def blockKey (secretHex : Text) : Uint8Array :=
  let secret := hexToBytes secretHex
  let key := if secret.length > 64 then sha256 secret else secret
  if key.length < 64 then Uint8Array.filled 64 key else key

/-- `oKeyPad` and `iKeyPad`. -/
def keyPad (key : Uint8Array) (mask : Int) : Uint8Array :=
  (List.range 64).map fun i => UInt8.ofInt (bitXor (key.read i) mask)

/-- `hmacSha256Hex` -/
def hmacSha256Hex (secretHex message : Text) : Text :=
  let key := blockKey secretHex
  let inner := sha256 (keyPad key 0x36 ++ encode message)
  bytesToHex (sha256 (keyPad key 0x5c ++ inner))

/-- `String(ts)` for the seconds of a date. -/
def numberText (ts : Nat) : Text := Nat.toDigits 10 ts

/-- `canonical` in `apiFetch`. -/
def canonical (method path : Text) (ts : Nat) (nonce bodyText : Text) : Text :=
  ['\n'].intercalate [method, path, numberText ts, nonce, sha256Hex bodyText]

/-! ## The same characters -/

theorem encode_append (front back : Text) : encode (front ++ back) = encode front ++ encode back :=
  List.flatMap_append

theorem encode_hexByte : ∀ b : Byte, encode (hexByte b) = [kDigit (b >>> 4), kDigit (b &&& 0x0f)] :=
  byte_forall (by decide +kernel)

theorem encode_bytesToHex (bytes : Bytes) : encode (bytesToHex bytes) = toHex bytes := by
  induction bytes with
  | nil => rfl
  | cons b rest ih =>
      have hsplit : bytesToHex (b :: rest) = hexByte b ++ bytesToHex rest := rfl
      rw [hsplit, encode_append, encode_hexByte, ih]
      rfl

/-- A character is one ASCII byte, or bytes from 0x80 on. -/
theorem utf8_cases (c : Char) :
    (c.toNat < 128 ∧ String.utf8EncodeChar c = [UInt8.ofNat c.toNat]) ∨
      (128 ≤ c.toNat ∧ ∀ b ∈ String.utf8EncodeChar c, 128 ≤ b.toNat) := by
  have hbyte (n base : Nat) (hbase : 128 ≤ base) (hlt : n + base < 256) :
      128 ≤ (UInt8.ofNat (n + base)).toNat := by
    rw [UInt8.toNat_ofNat_of_lt' hlt]
    omega
  by_cases h : c.toNat < 128
  · have hsmall : c.val.toNat ≤ 0x7f := Nat.le_of_lt_succ h
    exact Or.inl ⟨h, by rw [String.utf8EncodeChar, if_pos hsmall]; rfl⟩
  · have hlarge : ¬c.val.toNat ≤ 0x7f := fun hle => h (Nat.lt_succ_of_le hle)
    refine Or.inr ⟨Nat.le_of_not_lt h, fun b hb => ?_⟩
    rw [String.utf8EncodeChar, if_neg hlarge] at hb
    split at hb
    · simp only [List.mem_cons, List.not_mem_nil, or_false] at hb
      rcases hb with rfl | rfl <;> exact hbyte _ _ (by decide) (by omega)
    · split at hb
      · simp only [List.mem_cons, List.not_mem_nil, or_false] at hb
        rcases hb with rfl | rfl | rfl <;> exact hbyte _ _ (by decide) (by omega)
      · simp only [List.mem_cons, List.not_mem_nil, or_false] at hb
        rcases hb with rfl | rfl | rfl | rfl <;> exact hbyte _ _ (by decide) (by omega)

/-- Only the character NUL is encoded with a NUL. -/
theorem zero_mem_utf8 {c : Char} (h : (0 : Byte) ∈ String.utf8EncodeChar c) : c = '\u0000' := by
  rcases utf8_cases c with ⟨hascii, hone⟩ | ⟨-, hhigh⟩
  · rw [hone, List.mem_singleton] at h
    have hnat : (0 : Byte).toNat = (UInt8.ofNat c.toNat).toNat := congrArg UInt8.toNat h
    rw [UInt8.toNat_ofNat_of_lt' (by simp [UInt8.size]; omega)] at hnat
    exact Char.toNat_inj.mp hnat.symm
  · exact absurd (hhigh 0 h) (by decide)

theorem zero_not_mem_encode {text : Text} (h : '\u0000' ∉ text) : (0 : Byte) ∉ encode text := by
  intro hmem
  obtain ⟨c, hc, hzero⟩ := List.mem_flatMap.mp hmem
  rw [zero_mem_utf8 hzero] at hc
  exact h hc

/-! ### The key -/

theorem nibble_ascii : ∀ n : Fin 128,
    (nibble (UInt8.ofNat n)).map UInt8.toNat = digit16 (Char.ofNat n) := by decide +kernel

theorem nibble_high : ∀ b : Byte, 128 ≤ b.toNat → nibble b = none :=
  byte_forall (by decide +kernel)

/-- A byte that is a digit is the whole of its character. -/
theorem digit_of_nibble {c : Char} {b : Byte} {more : Bytes} {n : Byte}
    (h : String.utf8EncodeChar c = b :: more) (hn : nibble b = some n) :
    more = [] ∧ digit16 c = some n.toNat := by
  rcases utf8_cases c with ⟨hascii, hone⟩ | ⟨-, hhigh⟩
  · rw [hone] at h
    obtain ⟨rfl, rfl⟩ := List.cons.inj h
    have hdigit := nibble_ascii ⟨c.toNat, hascii⟩
    simp only [hn, Option.map_some, Char.ofNat_toNat] at hdigit
    exact ⟨rfl, hdigit.symm⟩
  · rw [nibble_high b (hhigh b (h ▸ List.mem_cons_self))] at hn
    cases hn

/-- A digit is none of what `parseInt` skips. -/
theorem skips_no_digit {c : Char} {n : Nat} (h : digit16 c = some n) :
    c ≠ '-' ∧ c ≠ '+' ∧ c ≠ 'x' ∧ c ≠ 'X' ∧ c ∉ whiteSpace := by
  have hnone :
      ('-' :: '+' :: 'x' :: 'X' :: whiteSpace).all (fun d => digit16 d == none) = true := by
    decide +kernel
  have hplain : c ∉ '-' :: '+' :: 'x' :: 'X' :: whiteSpace := by
    intro hmem
    rw [eq_of_beq (List.all_eq_true.mp hnone c hmem)] at h
    cases h
  simpa only [List.mem_cons, not_or] using hplain

theorem parseInt16_pair {c d : Char} {high low : Nat} (hc : digit16 c = some high)
    (hd : digit16 d = some low) : parseInt16 [c, d] = some ((high * 16 + low : Nat) : Int) := by
  obtain ⟨hminus, hplus, -, -, hspace⟩ := skips_no_digit hc
  obtain ⟨-, -, hx, hX, -⟩ := skips_no_digit hd
  have htrim : [c, d].dropWhile whiteSpace.contains = [c, d] :=
    List.dropWhile_cons_of_neg (by simpa using hspace)
  simp [parseInt16, htrim, hminus, hplus, hx, hX, hc, hd]

theorem byte_of_nibbles : ∀ high low : Fin 16,
    UInt8.ofInt ((high.val * 16 + low.val : Nat) : Int) =
      UInt8.ofNat high <<< 4 ||| UInt8.ofNat low := by decide +kernel

theorem nibble_lt : ∀ b n : Byte, nibble b = some n → n.toNat < 16 := by
  have hall : ∀ b : Byte, ∀ n ∈ nibble b, n.toNat < 16 := byte_forall (by decide +kernel)
  exact fun b n h => hall b n h

theorem hexToBytes_cons (c d : Char) (rest : Text) :
    hexToBytes (c :: d :: rest) =
      UInt8.ofInt ((parseInt16 [c, d]).getD 0) :: hexToBytes rest := by
  have hlength : (c :: d :: rest).length / 2 = rest.length / 2 + 1 := by
    rw [List.length_cons, List.length_cons]
    omega
  rw [hexToBytes, hlength, List.range_succ_eq_map, List.map_cons, List.map_map, hexToBytes]
  refine congrArg₂ List.cons rfl (List.map_congr_left fun i _ => ?_)
  have hstart : (i + 1) * 2 = i * 2 + 2 := by omega
  rw [Function.comp_apply, Nat.succ_eq_add_one, hstart, List.drop_succ_cons, List.drop_succ_cons]

/-- A text whose first byte is a digit starts with that digit. -/
theorem digit_first {hex : Text} {b : Byte} {more : Bytes} {n : Byte} (h : encode hex = b :: more)
    (hn : nibble b = some n) :
    ∃ c rest, hex = c :: rest ∧ encode rest = more ∧ digit16 c = some n.toNat := by
  cases hex with
  | nil => cases h
  | cons c rest =>
      have hsplit : String.utf8EncodeChar c ++ encode rest = b :: more := h
      obtain ⟨first, others, hfirst⟩ := List.exists_cons_of_ne_nil (@String.utf8EncodeChar_ne_nil c)
      rw [hfirst, List.cons_append] at hsplit
      obtain ⟨rfl, hothers⟩ := List.cons.inj hsplit
      obtain ⟨rfl, hdigit⟩ := digit_of_nibble hfirst hn
      exact ⟨c, rest, rfl, hothers, hdigit⟩

theorem hexToBytes_of_decodePairs {n : Nat} {hex : Text} {secret : Block n}
    (hlength : (encode hex).length = n * 2) (h : decodePairs n (encode hex) = some secret) :
    hexToBytes hex = secret.1 := by
  induction n generalizing hex with
  | zero =>
      have hempty : hex = [] := by
        cases hex with
        | nil => rfl
        | cons c rest =>
            have hsome := List.length_pos_iff.mpr (@String.utf8EncodeChar_ne_nil c)
            rw [encode, List.flatMap_cons, List.length_append] at hlength
            omega
      subst hempty
      cases h
      rfl
  | succ n ih =>
      cases hbytes : encode hex with
      | nil =>
          rw [hbytes] at hlength
          simp at hlength
      | cons hi more =>
          cases more with
          | nil =>
              rw [hbytes, List.length_singleton] at hlength
              omega
          | cons lo rest =>
              rw [hbytes, decodePairs] at h
              split at h
              · rename_i high low tail hhigh hlow htail
                obtain ⟨c, hex', rfl, hmore, hc⟩ := digit_first hbytes hhigh
                obtain ⟨d, hex', rfl, rfl, hd⟩ := digit_first hmore hlow
                rw [hbytes, List.length_cons, List.length_cons] at hlength
                cases h
                have hjoin := byte_of_nibbles ⟨high.toNat, nibble_lt _ _ hhigh⟩
                  ⟨low.toNat, nibble_lt _ _ hlow⟩
                simp only [UInt8.ofNat_toNat] at hjoin
                rw [hexToBytes_cons, parseInt16_pair hc hd, Option.getD_some, hjoin,
                  ih (by omega) htail]
              · cases h

/-- What the firmware reads as a key of `n` bytes is the key `app.js` signs with. -/
theorem hexToBytes_of_fromHex {hex : Text} {n : Nat} {secret : Block n}
    (h : fromHex (encode hex) n = some secret) : hexToBytes hex = secret.1 := by
  rw [fromHex] at h
  split at h
  · exact hexToBytes_of_decodePairs ‹_› h
  · cases h

/-! ### The signature -/

theorem length_hmacKeyBlock (key : Bytes) : (hmacKeyBlock key).length = 64 := by
  simp only [hmacKeyBlock, List.length_append, List.length_replicate]
  split
  · rw [Block.length_val, kDigestSize, kBlockSize]
  · have hshort : key.length ≤ kBlockSize := by omega
    rw [Nat.add_sub_cancel' hshort, kBlockSize]

theorem blockKey_eq (secretHex : Text) :
    blockKey secretHex = hmacKeyBlock (hexToBytes secretHex) := by
  simp only [blockKey, hmacKeyBlock, sha256_eq]
  rw [show kBlockSize = 64 from rfl]
  generalize (if (hexToBytes secretHex).length > 64 then (Sha256.hash (hexToBytes secretHex)).1
    else hexToBytes secretHex) = key
  by_cases h : key.length < 64
  · rw [if_pos h, Uint8Array.filled]
  · rw [if_neg h, Nat.sub_eq_zero_of_le (by omega), List.replicate_zero, List.append_nil]

theorem keyPad_eq {key : Uint8Array} (hkey : key.length = 64) (mask : Int) :
    keyPad key mask = key.map (· ^^^ UInt8.ofInt mask) := by
  refine List.ext_getElem (by simp [keyPad, hkey]) fun i hi hj => ?_
  have hlt : i < key.length := by simpa using hj
  simp only [keyPad, List.getElem_map, List.getElem_range]
  rw [ofInt8_bitXor, Uint8Array.read, List.getD_eq_getElem _ _ hlt, ofInt8_natCast]

/-- `app.js` computes the HMAC the firmware does. -/
theorem encode_hmacSha256Hex (secretHex message : Text) :
    encode (hmacSha256Hex secretHex message) =
      toHex (hmacSha256 (hexToBytes secretHex) (encode message)).1 := by
  have hinner : UInt8.ofInt 0x36 = 0x36 := rfl
  have houter : UInt8.ofInt 0x5c = 0x5c := rfl
  have hkey := length_hmacKeyBlock (hexToBytes secretHex)
  simp only [hmacSha256Hex, encode_bytesToHex, sha256_eq, blockKey_eq]
  rw [keyPad_eq hkey, keyPad_eq hkey, hinner, houter, ← hmacSha256_eq]

/-- The text `app.js` signs is the canonical request of the firmware. -/
theorem encode_canonical (method path : Text) (ts : Nat) (nonce bodyText : Text) :
    encode (canonical method path ts nonce bodyText) =
      (canonicalTexts (encode method) (encode path) (encode (numberText ts)) (encode nonce)
        (Sha256.hash (encode bodyText))).flatten := by
  have hnewline : encode ['\n'] = [10] := rfl
  simp only [canonical, List.intercalate, List.intersperse, List.flatten_cons, List.flatten_nil,
    List.append_nil, encode_append, hnewline, sha256Hex, encode_bytesToHex, sha256_eq,
    canonicalTexts]

theorem zero_not_mem_number (ts : Nat) : '\u0000' ∉ numberText ts := by
  intro hmem
  have hdigit := Nat.isDigit_of_mem_toDigits (by decide) (by decide) hmem
  revert hdigit
  decide

/-- A request is accepted under the signature the browser sends with it exactly when its
canonical form and the terminator fit; and both sides hash alike. -/
theorem browser_signature_verifies {secretHex : Text} {secret : Block kDigestSize}
    (hsecret : fromHex (encode secretHex) kDigestSize = some secret) {method path nonce : Text}
    (hmethod : '\u0000' ∉ method) (hpath : '\u0000' ∉ path) (hnonce : '\u0000' ∉ nonce)
    (ts : Nat) (bodyText : Text) :
    (∀ bytes, sha256 bytes = (Sha256.hash bytes).1) ∧
      (verifyRequestSignature secret.1 (encode method) (encode path) (encode (numberText ts))
          (encode nonce) (encode bodyText)
          (encode (hmacSha256Hex secretHex (canonical method path ts nonce bodyText))) = true ↔
        (encode (canonical method path ts nonce bodyText)).length < kCanonicalRequestMax) := by
  refine ⟨sha256_eq, ?_⟩
  have hzero : (0 : Byte) ∉
      encode method ++ encode path ++ encode (numberText ts) ++ encode nonce := by
    simp only [List.mem_append, not_or]
    exact ⟨⟨⟨zero_not_mem_encode hmethod, zero_not_mem_encode hpath⟩,
      zero_not_mem_encode (zero_not_mem_number ts)⟩, zero_not_mem_encode hnonce⟩
  have hsign := buildCanonicalRequest_eq hzero (Sha256.hash (encode bodyText))
    (show 0 < kCanonicalRequestMax by decide)
  rw [← encode_canonical] at hsign
  rw [encode_hmacSha256Hex, hexToBytes_of_fromHex hsecret]
  by_cases hfits : (encode (canonical method path ts nonce bodyText)).length < kCanonicalRequestMax
  · rw [if_pos hfits] at hsign
    have hsigned : signRequest secret.1 (encode method) (encode path) (encode (numberText ts))
        (encode nonce) (encode bodyText) =
          some (hmacSha256 secret.1 (encode (canonical method path ts nonce bodyText))) := by
      rw [signRequest, hsign, Option.map_some]
    exact iff_of_true (verifyRequestSignature_signRequest hsigned) hfits
  · rw [if_neg hfits] at hsign
    refine iff_of_false (fun hverified => ?_) hfits
    have hrefused : signRequest secret.1 (encode method) (encode path) (encode (numberText ts))
        (encode nonce) (encode bodyText) = none := by
      rw [signRequest, hsign, Option.map_none]
    rw [verifyRequestSignature, hrefused] at hverified
    split at hverified
    · exact Bool.false_ne_true hverified
    · exact Bool.false_ne_true hverified

theorem browser_signature_verifies_get :
    verifyRequestSignature (List.replicate 32 0xAB) (encode "GET".toList)
      (encode "/api/apps?a=1".toList) (encode (numberText 1700000000)) (encode "0a1b".toList)
      (encode [])
      (encode (hmacSha256Hex (bytesToHex (List.replicate 32 0xAB))
        (canonical "GET".toList "/api/apps?a=1".toList 1700000000 "0a1b".toList []))) = true := by
  have hsecret : fromHex (encode (bytesToHex (List.replicate 32 0xAB))) kDigestSize =
      some ⟨List.replicate 32 0xAB, List.length_replicate⟩ := by
    rw [encode_bytesToHex]
    exact @fromHex_toHex kDigestSize ⟨List.replicate 32 0xAB, List.length_replicate⟩
  have hverifies := (browser_signature_verifies hsecret (by decide : '\u0000' ∉ "GET".toList)
    (by decide : '\u0000' ∉ "/api/apps?a=1".toList) (by decide : '\u0000' ∉ "0a1b".toList)
    1700000000 []).2
  refine hverifies.mpr ?_
  rw [encode_canonical]
  simp only [canonicalTexts, List.length_flatten, List.map_cons, List.map_nil, toHex_length,
    Block.length_val]
  decide +kernel

end MatrixFaces.Browser
