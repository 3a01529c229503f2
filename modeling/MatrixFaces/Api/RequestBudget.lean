import MatrixFaces.Api.ReadRequest
import MatrixFaces.Net.Deadlines

set_option autoImplicit false

/-!
# What a request costs

A request is a bounded number of lines and then a body, and each has its own deadline.  So a
peer can keep the reader for the sum of them, whatever it sends and whenever.

The main result is `readHttpRequest_within_budget`, for every schedule of bytes and every
moment at which the peer closes: the reader settles on a result, having read one request line
and at most 40 header lines, within 42 times its timeout, and it waits no more once the peer
has closed.  How many lines were read is said by `readLines`, the line reader on its own,
which comes to the same place on the socket.

It rests on `Net.Deadlines`, where each reader of `Net.StreamRead` is shown to end by its own
deadline.
-/

namespace MatrixFaces.Api

open MatrixFaces.Foundation
open MatrixFaces.Net

variable {σ : Type}

/-- Lines read one after another, as `readHttpRequest` reads each of them. -/
def readLines (client : Client σ) (fuel : Nat) :
    Nat → σ → Option (List (LineStatus × Bytes) × σ)
  | 0, state => some ([], state)
  | calls + 1, state => do
      let (line, state) ← readLine client kLineCap kReadTimeoutMs fuel state
      let (lines, state) ← readLines client fuel calls state
      return (line :: lines, state)

variable {client : Client σ} {closesAt : Option Nat} {now unread : σ → Nat}
  {state middle final : σ} {line : LineStatus × Bytes} {lines : List (LineStatus × Bytes)}
  {calls : Nat}

theorem readLines_cons
    (hline : Settles (fun fuel => readLine client kLineCap kReadTimeoutMs fuel state)
      (line, middle))
    (hlines : Settles (fun fuel => readLines client fuel calls middle) (lines, final)) :
    Settles (fun fuel => readLines client fuel (calls + 1) state) (line :: lines, final) := by
  filter_upwards [hline, hlines] with fuel hfuel hmore
  rw [readLines, hfuel, Option.bind_eq_bind, Option.bind_some]
  dsimp only
  rw [hmore]
  rfl

theorem readLines_one
    (hline : Settles (fun fuel => readLine client kLineCap kReadTimeoutMs fuel state)
      (line, middle)) :
    Settles (fun fuel => readLines client fuel 1 state) ([line], middle) :=
  readLines_cons hline (.of_eq fun _ => rfl)

/-- The header loop reads its lines, one deadline each. -/
theorem readHeaders_budget (timed : client.Timed closesAt now unread) (remaining : Nat)
    (fields : HeaderFields) (state : σ) :
    ∃ result final headers lines, headers ≤ remaining ∧
      Settles (fun fuel => readHeaders client fuel remaining fields state) (result, final) ∧
      Settles (fun fuel => readLines client fuel headers state) (lines, final) ∧
      InTime closesAt now (now state + remaining * 4000) state final := by
  induction remaining generalizing fields state with
  | zero =>
      exact ⟨.error .kHttpHeaderTooLong, state, 0, [], Nat.le_refl 0, .of_eq fun _ => rfl,
        .of_eq fun _ => rfl, .of_eq rfl (Nat.le_add_right _ _)⟩
  | succ remaining ih =>
      obtain ⟨⟨status, line⟩, middle, hline, hinTime⟩ :=
        readLine_inTime timed kLineCap kReadTimeoutMs state
      have hwithin : InTime closesAt now (now state + (remaining + 1) * 4000) state middle :=
        hinTime.mono (by rw [show kReadTimeoutMs.toNat = 4000 from rfl]; omega)
      -- what makes this line the last
      have hlast : ∀ result : Except HttpReadStatus HeaderFields,
          (∀ fuel, readLine client kLineCap kReadTimeoutMs fuel state =
              some ((status, line), middle) →
            readHeaders client fuel (remaining + 1) fields state = some (result, middle)) →
          ∃ result final headers lines, headers ≤ remaining + 1 ∧
            Settles (fun fuel => readHeaders client fuel (remaining + 1) fields state)
              (result, final) ∧
            Settles (fun fuel => readLines client fuel headers state) (lines, final) ∧
            InTime closesAt now (now state + (remaining + 1) * 4000) state final := by
        intro result hresult
        refine ⟨result, middle, 1, _, Nat.le_add_left 1 remaining, ?_, readLines_one hline,
          hwithin⟩
        filter_upwards [hline] with fuel hfuel
        exact hresult fuel hfuel
      by_cases htimeout : status = .kTimeout
      · refine hlast (.error .kHttpTimeout) fun fuel hfuel => ?_
        rw [readHeaders, hfuel]
        exact if_pos htimeout
      · by_cases hend : line.length = 0 ∧ status = .kOk
        · refine hlast (.ok fields) fun fuel hfuel => ?_
          rw [readHeaders, hfuel]
          simp only [if_neg htimeout, if_pos hend]
        · cases haccept : acceptHeader fields status (cstring line) with
          | error refused =>
              refine hlast (.error refused) fun fuel hfuel => ?_
              rw [readHeaders, hfuel]
              simp only [if_neg htimeout, if_neg hend, haccept]
          | ok accepted =>
              obtain ⟨result, final, headers, lines, hheaders, hsettles, hlines, hrest⟩ :=
                ih accepted middle
              refine ⟨result, final, headers + 1, _, Nat.succ_le_succ hheaders, ?_,
                readLines_cons hline hlines, (hwithin.trans hrest).mono ?_⟩
              · filter_upwards [hline, hsettles] with fuel hfuel hmore
                rw [readHeaders, hfuel]
                simp only [if_neg htimeout, if_neg hend, haccept]
                exact hmore
              · have hmiddle := hinTime.limit
                rw [show kReadTimeoutMs.toNat = 4000 from rfl] at hmiddle
                omega

/-- Behind the headers there is one deadline left, and no line is read. -/
theorem readBody_budget (timed : client.Timed closesAt now unread) (method target : Bytes)
    (fields : HeaderFields) (state : σ) :
    ∃ result final,
      Settles (fun fuel => readBody client fuel method target fields state) (result, final) ∧
      InTime closesAt now (now state + 4000) state final := by
  by_cases htruncated : fields.authorizationTruncated = true
  · refine ⟨.error .kHttpHeaderTooLong, state, .of_eq fun fuel => ?_,
      .of_eq rfl (Nat.le_add_right _ _)⟩
    exact if_pos htruncated
  · by_cases hlarge : fields.contentLength > HttpRequest.kBodyCap
    · refine ⟨.error .kHttpBodyTooLarge, state, .of_eq fun fuel => ?_,
        .of_eq rfl (Nat.le_add_right _ _)⟩
      rw [readBody, if_neg htruncated, if_pos hlarge]
    · obtain ⟨body, middle, hbody, hinTime⟩ :=
        readExactly_inTime timed fields.contentLength kReadTimeoutMs state
      cases body with
      | none =>
          refine ⟨.error .kHttpTimeout, middle, ?_, hinTime⟩
          filter_upwards [hbody] with fuel hfuel
          rw [readBody, if_neg htruncated, if_neg hlarge, hfuel]
      | some body =>
          obtain ⟨final, hdrain, hnow⟩ := drainBuffered_inTime timed kDrainTimeoutMs middle
          refine ⟨.ok ⟨method, target, pathOf target, fields.authorization, fields.websocketKey,
            body⟩, final, ?_, hinTime.trans (.of_eq hnow hinTime.limit)⟩
          filter_upwards [hbody, hdrain] with fuel hfuel hdrained
          rw [readBody, if_neg htruncated, if_neg hlarge, hfuel]
          simp only [hdrained, Option.map_some]

/-- A run of `readHttpRequest` is so many lines, and then at most the body. -/
structure WithinBudget (client : Client σ) (closesAt : Option Nat) (now : σ → Nat) (state : σ)
    (result : Except HttpReadStatus HttpRequest) (final : σ) : Prop where
  lines : ∃ headers ≤ kMaxHeaders, ∃ lines middle,
    Settles (fun fuel => readLines client fuel (1 + headers) state) (lines, middle) ∧
      (final = middle ∨ ∃ method target fields,
        Settles (fun fuel => readBody client fuel method target fields middle) (result, final))
  time : InTime closesAt now (now state + 42 * 4000) state final

theorem readHttpRequest_budget (timed : client.Timed closesAt now unread) (state : σ) :
    ∃ result final,
      Settles (fun fuel => readHttpRequest client fuel state) (result, final) ∧
      WithinBudget client closesAt now state result final := by
  obtain ⟨⟨status, line⟩, middle, hline, hfirst⟩ :=
    readLine_inTime timed kLineCap kReadTimeoutMs state
  rw [show kReadTimeoutMs.toNat = 4000 from rfl] at hfirst
  have hrefused : ∀ refused : HttpReadStatus,
      (∀ fuel, readLine client kLineCap kReadTimeoutMs fuel state = some ((status, line), middle) →
        readHttpRequest client fuel state = some (.error refused, middle)) →
      ∃ result final,
        Settles (fun fuel => readHttpRequest client fuel state) (result, final) ∧
        WithinBudget client closesAt now state result final := by
    intro refused hresult
    refine ⟨.error refused, middle, ?_, ⟨0, Nat.zero_le _, _, middle, readLines_one hline,
      Or.inl rfl⟩, hfirst.mono (by omega)⟩
    filter_upwards [hline] with fuel hfuel
    exact hresult fuel hfuel
  by_cases htimeout : status = .kTimeout
  · refine hrefused .kHttpTimeout fun fuel hfuel => ?_
    rw [readHttpRequest, hfuel]
    exact if_pos htimeout
  · by_cases htruncated : status = .kTruncated
    · refine hrefused .kHttpTargetTooLong fun fuel hfuel => ?_
      rw [readHttpRequest, hfuel]
      simp only [if_neg htimeout, if_pos htruncated]
    · cases hparsed : parseRequestLine (cstring line) with
      | error refused =>
          refine hrefused refused fun fuel hfuel => ?_
          rw [readHttpRequest, hfuel]
          simp only [if_neg htimeout, if_neg htruncated, hparsed]
      | ok parsed =>
          obtain ⟨method, target⟩ := parsed
          obtain ⟨result, behind, headers, lines, hheaders, hsettles, hlines, hsecond⟩ :=
            readHeaders_budget timed kMaxHeaders .zero middle
          have hread := readLines_cons hline hlines
          rw [Nat.add_comm] at hread
          have hmiddle := hfirst.limit
          have hbehind := hsecond.limit
          rw [show kMaxHeaders = 40 from rfl] at hbehind
          cases result with
          | error refused =>
              refine ⟨.error refused, behind, ?_, ⟨headers, hheaders, _, behind, hread,
                Or.inl rfl⟩, (hfirst.trans hsecond).mono ?_⟩
              · filter_upwards [hline, hsettles] with fuel hfuel hheaders
                rw [readHttpRequest, hfuel]
                simp only [if_neg htimeout, if_neg htruncated, hparsed, hheaders]
              · rw [show kMaxHeaders = 40 from rfl]
                omega
          | ok fields =>
              obtain ⟨result, final, hbody, hthird⟩ :=
                readBody_budget timed method target fields behind
              refine ⟨result, final, ?_, ⟨headers, hheaders, _, behind, hread,
                Or.inr ⟨method, target, fields, hbody⟩⟩,
                ((hfirst.trans hsecond).trans hthird).mono (by omega)⟩
              filter_upwards [hline, hsettles, hbody] with fuel hfuel hheaders hrest
              rw [readHttpRequest, hfuel]
              simp only [if_neg htimeout, if_neg htruncated, hparsed, hheaders]
              exact hrest

/-- Whatever bytes come, whenever they come and whenever the peer closes, `readHttpRequest`
comes to its end, with one request line and at most 40 header lines read, within 42 times its
timeout, and from the moment the peer has closed without waiting. -/
theorem readHttpRequest_within_budget (closesAt : Option Nat) (peer : ScriptedPeer) :
    ∃ result final,
      Settles (fun fuel => readHttpRequest (leaving closesAt) fuel peer) (result, final) ∧
      (∃ headers ≤ kMaxHeaders, ∃ lines middle,
        Settles (fun fuel => readLines (leaving closesAt) fuel (1 + headers) peer)
          (lines, middle) ∧
        (final = middle ∨ ∃ method target fields,
          Settles (fun fuel => readBody (leaving closesAt) fuel method target fields middle)
            (result, final))) ∧
      final.now ≤ peer.now + 42 * 4000 ∧ ∀ closes ∈ closesAt, final.now ≤ max peer.now closes := by
  obtain ⟨result, final, hsettles, hbudget⟩ :=
    readHttpRequest_budget (leaving_timed closesAt) peer
  exact ⟨result, final, hsettles, hbudget.lines, hbudget.time.limit, hbudget.time.closed⟩

end MatrixFaces.Api
