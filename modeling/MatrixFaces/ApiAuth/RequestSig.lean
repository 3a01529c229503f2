import MatrixFaces.ApiAuth.Hex
import MatrixFaces.ApiAuth.Sha256

set_option autoImplicit false

/-!
# Request signatures (`lib/apiauth/request_sig.cpp`)

The canonical text is put together part by part into a buffer of `kCanonicalRequestMax` bytes,
and refused as soon as a part does not fit.  `buildCanonicalRequest_eq` says that, without a NUL
among the parts, this is all of them in a row if they fit with a terminator.

`verifyRequestSignature_signRequest` is the round trip: what is signed with a secret verifies
with it.
-/

namespace MatrixFaces.ApiAuth

open MatrixFaces.Foundation

def kCanonicalRequestMax : Nat := 320

/-- `append`: refuses text that would leave no room for the terminator. -/
def append (cap : Nat) (out text : Bytes) : Option Bytes :=
  if out.length + (cstring text).length ≥ cap then none else some (out ++ cstring text)

/-- `appendChar`. -/
def appendChar (cap : Nat) (out : Bytes) (c : Byte) : Option Bytes :=
  if out.length + 1 ≥ cap then none else some (out ++ [c])

/-- `buildCanonicalRequest`; `none` is the 0 of the source. -/
def buildCanonicalRequest (method path ts nonce : Bytes) (bodyHash : Block kDigestSize)
    (cap : Nat) : Option Bytes :=
  if cap = 0 then none
  else do
    let out ← append cap [] method
    let out ← appendChar cap out 10
    let out ← append cap out path
    let out ← appendChar cap out 10
    let out ← append cap out ts
    let out ← appendChar cap out 10
    let out ← append cap out nonce
    let out ← appendChar cap out 10
    append cap out (toHex bodyHash.1)

/-- `signRequest`. -/
def signRequest (secret method path ts nonce body : Bytes) : Option (Block kDigestSize) :=
  (buildCanonicalRequest method path ts nonce (Sha256.hash body) kCanonicalRequestMax).map
    (hmacSha256 secret)

/-- `verifyRequestSignature`. -/
def verifyRequestSignature (secret method path ts nonce body sigHex : Bytes) : Bool :=
  match fromHex (cstring sigHex) kDigestSize with
  | none => false
  | some provided =>
      match signRequest secret method path ts nonce body with
      | none => false
      | some expected => constantTimeEquals expected provided

/-- Hexadecimal text holds no terminator. -/
theorem zero_not_mem_toHex (bytes : Bytes) : (0 : Byte) ∉ toHex bytes := by
  intro h
  have hdigit := nibble_of_mem_toHex h
  revert hdigit
  decide

theorem append_of_fits {cap : Nat} {out text : Bytes} (hzero : (0 : Byte) ∉ text)
    (hfits : out.length + text.length < cap) : append cap out text = some (out ++ text) := by
  rw [append, cstring_of_not_mem hzero, if_neg (by omega)]

theorem appendChar_eq (cap : Nat) (out : Bytes) {c : Byte} (hc : c ≠ 0) :
    appendChar cap out c = append cap out [c] := by
  rw [append, cstring_of_not_mem (by simpa using hc.symm), List.length_singleton, appendChar]

/-- Texts are appended until one leaves no room. -/
theorem foldlM_append {cap : Nat} {texts : List Bytes} (hzero : ∀ text ∈ texts, (0 : Byte) ∉ text)
    {out : Bytes} (hout : out.length < cap) :
    texts.foldlM (append cap) out =
      if (out ++ texts.flatten).length < cap then some (out ++ texts.flatten) else none := by
  induction texts generalizing out with
  | nil => rw [List.flatten_nil, List.append_nil, if_pos hout]; rfl
  | cons text rest ih =>
      rw [List.forall_mem_cons] at hzero
      rw [List.foldlM_cons, List.flatten_cons, ← List.append_assoc]
      by_cases hfits : out.length + text.length < cap
      · rw [append_of_fits hzero.1 hfits]
        exact ih hzero.2 (by rw [List.length_append]; exact hfits)
      · have hlong : ¬(out ++ text ++ rest.flatten).length < cap := by
          rw [List.length_append, List.length_append]
          omega
        rw [if_neg hlong, append, cstring_of_not_mem hzero.1, if_pos (by omega)]
        rfl

/-- The fields of a canonical request and the newlines between them. -/
def canonicalTexts (method path ts nonce : Bytes) (bodyHash : Block kDigestSize) : List Bytes :=
  [method, [10], path, [10], ts, [10], nonce, [10], toHex bodyHash.1]

/-- A canonical request is its fields, when they and a terminator fit. -/
theorem buildCanonicalRequest_eq {method path ts nonce : Bytes}
    (hzero : (0 : Byte) ∉ method ++ path ++ ts ++ nonce) (bodyHash : Block kDigestSize)
    {cap : Nat} (hcap : 0 < cap) :
    buildCanonicalRequest method path ts nonce bodyHash cap =
      if (canonicalTexts method path ts nonce bodyHash).flatten.length < cap then
        some (canonicalTexts method path ts nonce bodyHash).flatten
      else none := by
  have htexts : ∀ text ∈ canonicalTexts method path ts nonce bodyHash, (0 : Byte) ∉ text := by
    simp only [List.mem_append, not_or] at hzero
    simp [canonicalTexts, hzero, zero_not_mem_toHex]
  have hfold := @foldlM_append cap _ htexts [] hcap
  rw [List.nil_append] at hfold
  rw [← hfold, buildCanonicalRequest, if_neg (Nat.ne_of_gt hcap)]
  have hnewline (out : Bytes) : appendChar cap out 10 = append cap out [10] :=
    appendChar_eq cap out (by decide)
  simp only [hnewline, canonicalTexts, List.foldlM_cons, List.foldlM_nil, bind_pure]

/-- Text without terminators that leaves room for the hash can be signed. -/
theorem signRequest_of_fits (secret method path ts nonce body : Bytes)
    (hzero : (0 : Byte) ∉ method ++ path ++ ts ++ nonce)
    (hfits : (method ++ path ++ ts ++ nonce).length + 68 < kCanonicalRequestMax) :
    (signRequest secret method path ts nonce body).isSome = true := by
  have hshort : (canonicalTexts method path ts nonce (Sha256.hash body)).flatten.length <
      kCanonicalRequestMax := by
    simp only [List.length_append] at hfits
    simp only [canonicalTexts, List.length_flatten, List.map_cons, List.map_nil, List.sum_cons,
      List.sum_nil, toHex_length, Block.length_val, kDigestSize, List.length_singleton]
    omega
  rw [signRequest, buildCanonicalRequest_eq hzero _ (by decide), if_pos hshort]
  rfl

/-- A request signed with the key it is checked against verifies. -/
theorem verifyRequestSignature_signRequest {secret method path ts nonce body : Bytes}
    {signature : Block kDigestSize}
    (h : signRequest secret method path ts nonce body = some signature) :
    verifyRequestSignature secret method path ts nonce body (toHex signature.1) = true := by
  rw [verifyRequestSignature, cstring_of_not_mem (zero_not_mem_toHex _), fromHex_toHex]
  simp only [h]
  exact (constantTimeEquals_iff signature signature).mpr rfl

end MatrixFaces.ApiAuth
