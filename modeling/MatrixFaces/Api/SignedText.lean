import MatrixFaces.Api.FaithfulRequest
import MatrixFaces.ApiAuth.HeaderGrammar
import MatrixFaces.ApiAuth.RequestSig

set_option autoImplicit false

/-!
# The signed text determines the request

No line and no header parameter that was read holds a newline or is too long, so the
canonical request of what was read fits its buffer and splits back into its fields.

`SignedRequest` is what a signature is made over, and `Deliverable` what the readers promise
of it: method and target within their limits and without newline or NUL, a timestamp of up to
ten digits, a nonce of sixteen hexadecimal ones.

The main result is `canonical_determines_request`: what `readHttpRequest` and
`parseAuthHeader` hand over is deliverable with any body, its canonical request is not
refused for its length, and two deliverable requests with one canonical request are the same.
The last part needs no grammar: the newlines of the text are exactly the four between its
fields.
-/

namespace MatrixFaces.Api

open MatrixFaces.Foundation
open MatrixFaces.Net
open MatrixFaces.ApiAuth

/-- What a signature is made over. -/
structure SignedRequest where
  method : Bytes
  target : Bytes
  ts : Bytes
  nonce : Bytes
  bodyHash : Block kDigestSize

namespace SignedRequest

/-- The fields as the readers hand them over, with the limits of their buffers.  What the
canonical text needs of them is that none but the body has a newline. -/
structure Deliverable (request : SignedRequest) : Prop where
  method_length : request.method.length ≤ 7
  target_length : request.target.length ≤ 95
  method_newline : (10 : Byte) ∉ request.method
  target_newline : (10 : Byte) ∉ request.target
  method_zero : (0 : Byte) ∉ request.method
  target_zero : (0 : Byte) ∉ request.target
  ts_length : 1 ≤ request.ts.length ∧ request.ts.length ≤ 10
  ts_digits : ∀ c ∈ request.ts, c ∈ decimalDigits
  nonce_hex : IsHex 16 request.nonce

/-- `buildCanonicalRequest` with the buffer of `signRequest`. -/
def canonical (request : SignedRequest) : Option Bytes :=
  buildCanonicalRequest request.method request.target request.ts request.nonce request.bodyHash
    kCanonicalRequestMax

/-- The text that is signed. -/
def text (request : SignedRequest) : Bytes :=
  request.method ++ 10 :: (request.target ++ 10 :: (request.ts ++ 10 :: (request.nonce ++
    10 :: toHex request.bodyHash.1)))

namespace Deliverable

variable {request : SignedRequest}

theorem not_mem_ts (h : request.Deliverable) {c : Byte} (hc : c ∉ decimalDigits) :
    c ∉ request.ts := fun hmem => hc (h.ts_digits c hmem)

theorem not_mem_nonce (h : request.Deliverable) {c : Byte} (hc : c ∉ hexDigits) :
    c ∉ request.nonce := fun hmem => hc (h.nonce_hex.2 c hmem)

theorem length_text (h : request.Deliverable) : request.text.length < kCanonicalRequestMax := by
  have hmethod := h.method_length
  have htarget := h.target_length
  have hts := h.ts_length.2
  have hnonce := h.nonce_hex.1
  simp only [text, List.length_append, List.length_cons, toHex_length, Block.length_val,
    kDigestSize, kCanonicalRequestMax]
  omega

/-- Nothing that was read is refused for its length. -/
theorem canonical_eq (h : request.Deliverable) : request.canonical = some request.text := by
  have hzero : (0 : Byte) ∉ request.method ++ request.target ++ request.ts ++ request.nonce := by
    simp only [List.mem_append, not_or]
    exact ⟨⟨⟨h.method_zero, h.target_zero⟩, h.not_mem_ts (by decide)⟩, h.not_mem_nonce (by decide)⟩
  have htext : (canonicalTexts request.method request.target request.ts request.nonce
      request.bodyHash).flatten = request.text := by
    simp [canonicalTexts, text]
  rw [canonical, buildCanonicalRequest_eq hzero _ (by decide), htext, if_pos h.length_text]

end Deliverable

/-- The text of a request splits at its newlines. -/
theorem text_inj {a b : SignedRequest} (ha : a.Deliverable) (hb : b.Deliverable)
    (h : a.text = b.text) : a = b := by
  obtain ⟨method, target, ts, nonce, bodyHash⟩ := a
  obtain ⟨method', target', ts', nonce', bodyHash'⟩ := b
  have hten : (10 : Byte) ∉ decimalDigits := by decide
  have hten' : (10 : Byte) ∉ hexDigits := by decide
  obtain ⟨hmethod, htail⟩ := append_cons_inj ha.method_newline hb.method_newline h
  obtain ⟨htarget, htail⟩ := append_cons_inj ha.target_newline hb.target_newline htail
  obtain ⟨hts, htail⟩ := append_cons_inj (ha.not_mem_ts hten) (hb.not_mem_ts hten) htail
  obtain ⟨hnonce, htail⟩ := append_cons_inj (ha.not_mem_nonce hten') (hb.not_mem_nonce hten') htail
  have hhash := toHex_injective htail
  rw [mk.injEq]
  exact ⟨hmethod, htarget, hts, hnonce, hhash⟩

end SignedRequest

/-! ## What the readers hand over -/

theorem lf_not_mem_stripCr {out : Bytes} (h : chLf ∉ out) : chLf ∉ stripCr out :=
  fun hmem => h ((List.rdropWhile_prefix _ _).subset hmem)

/-- A line holds no LF. -/
theorem lf_not_mem_readLine {σ : Type} {client : Client σ} {cap : Nat} {timeoutMs : UInt32}
    {fuel : Nat} {state final : σ} {status : LineStatus} {line : Bytes}
    (h : readLine client cap timeoutMs fuel state = some ((status, line), final)) :
    chLf ∉ line := by
  have hloop : ∀ (fuel : Nat) (out : Bytes) (overflowed : Bool) (start : UInt32) (state : σ),
      chLf ∉ out →
      readLineFrom client cap timeoutMs start fuel out overflowed state =
        some ((status, line), final) → chLf ∉ line := by
    intro fuel
    induction fuel with
    | zero => intro out overflowed start state _ h; cases h
    | succ fuel ih =>
        intro out overflowed start state hout h
        rw [readLineFrom] at h
        split at h
        · split at h
          · split at h
            · cases h
              exact List.not_mem_nil
            · exact ih _ _ _ _ hout h
          · rename_i c next _
            split at h
            · cases h
              exact lf_not_mem_stripCr hout
            · rename_i hc
              split at h
              · refine ih _ _ _ _ ?_ h
                simpa using ⟨hout, Ne.symm hc⟩
              · exact ih _ _ _ _ hout h
        · cases h
          exact List.not_mem_nil
  exact hloop fuel [] false _ state List.not_mem_nil h

theorem length_of_parseRequestLine {line method target : Bytes}
    (h : parseRequestLine line = .ok (method, target)) :
    method.length < HttpRequest.kMethodCap ∧ target.length < HttpRequest.kTargetCap := by
  rw [parseRequestLine] at h
  split at h
  · cases h
  · split at h
    · cases h
    · rename_i hmethod
      split at h
      · cases h
      · split at h
        · cases h
        · rename_i htarget
          cases h
          exact ⟨Nat.not_le.mp hmethod, Nat.not_le.mp htarget⟩

theorem readBody_tokens {σ : Type} {client : Client σ} {fuel : Nat} {method target : Bytes}
    {fields : HeaderFields} {state final : σ} {request : HttpRequest}
    (h : readBody client fuel method target fields state = some (.ok request, final)) :
    request.method = method ∧ request.target = target := by
  rw [readBody] at h
  split at h
  · cases h
  · split at h
    · cases h
    · split at h
      · cases h
      · cases h
      · rw [Option.map_eq_some_iff] at h
        obtain ⟨_, _, heq⟩ := h
        cases heq
        exact ⟨rfl, rfl⟩

/-- The method and the target of an accepted request are parts of one line. -/
theorem requestLine_of_readHttpRequest {σ : Type} {client : Client σ} {fuel : Nat}
    {state final : σ} {request : HttpRequest}
    (h : readHttpRequest client fuel state = some (.ok request, final)) :
    ∃ status line next, readLine client kLineCap kReadTimeoutMs fuel state =
        some ((status, line), next) ∧
      parseRequestLine (cstring line) = .ok (request.method, request.target) := by
  rw [readHttpRequest] at h
  split at h
  · cases h
  · rename_i status line next hline
    split at h
    · cases h
    · split at h
      · cases h
      · split at h
        · cases h
        · rename_i method target htokens
          split at h
          · cases h
          · cases h
          · obtain ⟨hmethod, htarget⟩ := readBody_tokens h
            exact ⟨status, line, next, hline, by rw [htokens, hmethod, htarget]⟩

/-- A request and its header as the readers hand them over. -/
theorem deliverable_of_read {σ : Type} {client : Client σ} {fuel : Nat} {state final : σ}
    {request : HttpRequest} {header : AuthHeader}
    (hrequest : readHttpRequest client fuel state = some (.ok request, final))
    (hheader : parseAuthHeader (some request.authorization) = some header)
    (bodyHash : Block kDigestSize) :
    (SignedRequest.mk request.method request.target header.ts header.nonce
      bodyHash).Deliverable := by
  obtain ⟨status, line, next, hline, htokens⟩ := requestLine_of_readHttpRequest hrequest
  obtain ⟨hmethod, htarget⟩ := length_of_parseRequestLine htokens
  obtain ⟨⟨rest, hsplit⟩, _, _⟩ := parseRequestLine_eq_ok htokens
  have hparts : ∀ c : Byte, c ∉ cstring line → c ∉ request.method ∧ c ∉ request.target := by
    intro c hc
    rw [hsplit] at hc
    simp only [List.mem_append, List.mem_cons, not_or] at hc
    exact ⟨hc.1, hc.2.2.1⟩
  have hlf : (10 : Byte) ∉ cstring line := fun hmem =>
    lf_not_mem_readLine hline ((List.takeWhile_prefix _).subset hmem)
  obtain ⟨hmethodLf, htargetLf⟩ := hparts 10 hlf
  obtain ⟨hmethodZero, htargetZero⟩ := hparts 0 (zero_not_mem_cstring line)
  obtain ⟨⟨hpos, hlength, hdigits, _⟩, hnonce⟩ := signed_of_parseAuthHeader hheader
  exact {
    method_length := Nat.le_of_lt_succ hmethod
    target_length := Nat.le_of_lt_succ htarget
    method_newline := hmethodLf
    target_newline := htargetLf
    method_zero := hmethodZero
    target_zero := htargetZero
    ts_length := ⟨hpos, hlength⟩
    ts_digits := hdigits
    nonce_hex := hnonce }

/-- What the readers hand over is deliverable, with any body; the canonical request of a
deliverable request is never refused and tells it from every other. -/
theorem canonical_determines_request :
    (∀ {σ : Type} (client : Client σ) (fuel : Nat) (state final : σ) (request : HttpRequest)
      (header : AuthHeader) (bodyHash : Block kDigestSize),
      readHttpRequest client fuel state = some (.ok request, final) →
      parseAuthHeader (some request.authorization) = some header →
        (SignedRequest.mk request.method request.target header.ts header.nonce
          bodyHash).Deliverable) ∧
    (∀ request : SignedRequest, request.Deliverable → request.canonical.isSome = true) ∧
    ∀ a b : SignedRequest, a.Deliverable → b.Deliverable → a.canonical = b.canonical → a = b := by
  refine ⟨fun client fuel state final request header bodyHash hrequest hheader =>
    deliverable_of_read hrequest hheader bodyHash, ?_, ?_⟩
  · intro request h
    rw [h.canonical_eq]
    rfl
  · intro a b ha hb h
    rw [ha.canonical_eq, hb.canonical_eq, Option.some.injEq] at h
    exact SignedRequest.text_inj ha hb h

/-- The parameters of a signed request. -/
def sampleHeader : AuthHeader where
  id := ascii "0011223344556677"
  nonce := ascii "8899aabbccddeeff"
  sig := List.replicate 64 0x61
  ts := ascii "1700000000"
  timestamp := 1700000000

/-- A request for a target with these parameters, as it comes over the wire. -/
def sampleRequest (target : Bytes) : Bytes :=
  ascii "GET " ++ target ++ ascii " HTTP/1.1" ++ crlf ++ ascii "Authorization: " ++
    formatAuthHeader sampleHeader ++ crlf ++ crlf

/-- What is signed over it, with an empty body. -/
def sampleSigned (target : Bytes) : SignedRequest :=
  ⟨ascii "GET", target, ascii "1700000000", ascii "8899aabbccddeeff", Sha256.hash []⟩

theorem sampleRequest_read :
    readHttpRequest buffered 400 (sampleRequest (ascii "/api/apps")) =
        some (.ok ⟨ascii "GET", ascii "/api/apps", ascii "/api/apps",
          formatAuthHeader sampleHeader, [], []⟩, []) ∧
      readHttpRequest buffered 400 (sampleRequest (ascii "/api/clients")) =
        some (.ok ⟨ascii "GET", ascii "/api/clients", ascii "/api/clients",
          formatAuthHeader sampleHeader, [], []⟩, []) := by
  decide +kernel

/-- Two requests that differ in the target alone are read, and are signed over two texts. -/
theorem canonical_determines_request_targets :
    (sampleSigned (ascii "/api/apps")).Deliverable ∧
      (sampleSigned (ascii "/api/clients")).Deliverable ∧
      (sampleSigned (ascii "/api/apps")).canonical.isSome = true ∧
      (sampleSigned (ascii "/api/apps")).canonical ≠
        (sampleSigned (ascii "/api/clients")).canonical := by
  obtain ⟨hread, hwritten, hinjective⟩ := canonical_determines_request
  obtain ⟨hfirst, hsecond⟩ := sampleRequest_read
  have hheader : parseAuthHeader (some (formatAuthHeader sampleHeader)) = some sampleHeader := by
    decide +kernel
  have happs : (sampleSigned (ascii "/api/apps")).Deliverable :=
    hread buffered 400 _ _ _ sampleHeader (Sha256.hash []) hfirst hheader
  have hclients : (sampleSigned (ascii "/api/clients")).Deliverable :=
    hread buffered 400 _ _ _ sampleHeader (Sha256.hash []) hsecond hheader
  refine ⟨happs, hclients, hwritten _ happs, fun hsame => ?_⟩
  have htarget := congrArg SignedRequest.target (hinjective _ _ happs hclients hsame)
  exact absurd htarget (by decide)

end MatrixFaces.Api
