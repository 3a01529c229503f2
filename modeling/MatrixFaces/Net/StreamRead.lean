import Mathlib.Data.List.DropRight
import MatrixFaces.Foundation.Bytes

set_option autoImplicit false

/-!
# Reading a socket under a deadline (`src/net/stream_read.cpp`)

The socket is any state that gives up its bytes one at a time, with the clock
beside it.  Nothing says that it ever runs dry, so the loops run on fuel; `none`
is a loop that is not over yet.

`readLine`, `readExactly` and `drainBuffered` are the source's loops, each with its deadline.
`lineOf` is what a line looks like through its window.

`Client.Logs` says of a client that its bytes can be written down as they are read, and
`readLine_logged` and `readExactly_logged` that what a reader answers is read off these bytes.
`Client.recorded` is a client that keeps such a log.
-/

namespace MatrixFaces.Net

open MatrixFaces.Foundation

/-- `Client` and the clock, as far as the readers use them. -/
structure Client (σ : Type) where
  read : σ → Option Byte × σ
  connected : σ → Bool
  available : σ → Nat
  delay : σ → σ
  millis : σ → UInt32

/-- `LineStatus`. -/
inductive LineStatus where
  | kOk
  | kTruncated
  | kTimeout
  deriving DecidableEq, Repr

def chLf : Byte := 0x0A
def chCr : Byte := 0x0D

section

variable {σ : Type}

/-- `waitForMore`; `none` is the source's `false`. -/
def waitForMore (client : Client σ) (state : σ) : Option σ :=
  if client.connected state = false ∧ client.available state = 0 then none
  else some (client.delay state)

/-- The line without the CRs at its end. -/
def stripCr (out : Bytes) : Bytes := out.rdropWhile (· == chCr)

/-- The loop of `readLine`, with what is in `out` so far. -/
def readLineFrom (client : Client σ) (cap : Nat) (timeoutMs start : UInt32) :
    Nat → Bytes → Bool → σ → Option ((LineStatus × Bytes) × σ)
  | 0, _, _, _ => none
  | fuel + 1, out, overflowed, state =>
      if client.millis state - start < timeoutMs then
        match client.read state with
        | (none, state) =>
            match waitForMore client state with
            | none => some ((.kTimeout, []), state)
            | some state => readLineFrom client cap timeoutMs start fuel out overflowed state
        | (some c, state) =>
            if c = chLf then
              some ((if overflowed then .kTruncated else .kOk, stripCr out), state)
            else if out.length + 1 < cap then
              readLineFrom client cap timeoutMs start fuel (out ++ [c]) overflowed state
            else readLineFrom client cap timeoutMs start fuel out true state
      else some ((.kTimeout, []), state)

/-- `readLine`. -/
def readLine (client : Client σ) (cap : Nat) (timeoutMs : UInt32) (fuel : Nat) (state : σ) :
    Option ((LineStatus × Bytes) × σ) :=
  readLineFrom client cap timeoutMs (client.millis state) fuel [] false state

/-- The loop of `readExactly`. -/
def readExactlyFrom (client : Client σ) (want : Nat) (timeoutMs start : UInt32) :
    Nat → Bytes → σ → Option (Option Bytes × σ)
  | 0, _, _ => none
  | fuel + 1, out, state =>
      if out.length < want then
        match client.read state with
        | (none, state) =>
            if client.millis state - start ≥ timeoutMs then some (none, state)
            else
              match waitForMore client state with
              | none => some (none, state)
              | some state => readExactlyFrom client want timeoutMs start fuel out state
        | (some c, state) => readExactlyFrom client want timeoutMs start fuel (out ++ [c]) state
      else some (some out, state)

/-- `readExactly`; the inner `none` is the source's `false`. -/
def readExactly (client : Client σ) (want : Nat) (timeoutMs : UInt32) (fuel : Nat) (state : σ) :
    Option (Option Bytes × σ) :=
  readExactlyFrom client want timeoutMs (client.millis state) fuel [] state

/-- The loop of `drainBuffered`. -/
def drainBufferedFrom (client : Client σ) (timeoutMs start : UInt32) : Nat → σ → Option σ
  | 0, _ => none
  | fuel + 1, state =>
      if 0 < client.available state ∧ client.millis state - start < timeoutMs then
        drainBufferedFrom client timeoutMs start fuel (client.read state).2
      else some state

/-- `drainBuffered`. -/
def drainBuffered (client : Client σ) (timeoutMs : UInt32) (fuel : Nat) (state : σ) : Option σ :=
  drainBufferedFrom client timeoutMs (client.millis state) fuel state

/-! ## A line through its window -/

/-- What `readLine` makes of the bytes in front of an LF. -/
def lineOf (cap : Nat) (raw : Bytes) : LineStatus × Bytes :=
  (if cap ≤ raw.length then .kTruncated else .kOk, stripCr (raw.take (cap - 1)))

theorem stripCr_append_cons (front rest : Bytes) {c : Byte} (hc : c ≠ chCr) :
    stripCr (front ++ c :: rest) = front ++ c :: stripCr rest := by
  have hback : ((front ++ c :: rest).reverse.dropWhile (· == chCr)) =
      rest.reverse.dropWhile (· == chCr) ++ c :: front.reverse := by
    rw [List.reverse_append, List.reverse_cons, List.append_assoc, List.dropWhile_append]
    split
    · rename_i hempty
      rw [List.isEmpty_iff.mp hempty, List.singleton_append,
        List.dropWhile_cons_of_neg (by simpa using hc), List.nil_append]
    · rfl
  rw [stripCr, List.rdropWhile, hback, stripCr, List.rdropWhile]
  simp only [List.reverse_append, List.reverse_cons, List.reverse_reverse, List.append_assoc,
    List.singleton_append]

variable {client : Client σ} {cap : Nat} {timeoutMs start : UInt32} {fuel : Nat} {raw : Bytes}
  {state next : σ}

/-- A byte of the line goes through, or is counted as too much. -/
theorem readLineFrom_byte (hcap : 0 < cap) {c : Byte}
    (htime : client.millis state - start < timeoutMs) (hread : client.read state = (some c, next))
    (hc : c ≠ chLf) :
    readLineFrom client cap timeoutMs start (fuel + 1) (raw.take (cap - 1))
        (decide (cap ≤ raw.length)) state =
      readLineFrom client cap timeoutMs start fuel ((raw ++ [c]).take (cap - 1))
        (decide (cap ≤ (raw ++ [c]).length)) next := by
  rw [readLineFrom, if_pos htime]
  simp only [hread, if_neg hc, List.length_take, List.length_append, List.length_singleton]
  by_cases hroom : min (cap - 1) raw.length + 1 < cap
  · have htake : (raw ++ [c]).take (cap - 1) = raw.take (cap - 1) ++ [c] := by
      have hlength : (raw ++ [c]).length ≤ cap - 1 := by
        rw [List.length_append, List.length_singleton]
        omega
      rw [List.take_of_length_le hlength, List.take_of_length_le (by omega)]
    have hfits : decide (cap ≤ raw.length + 1) = decide (cap ≤ raw.length) := by
      simp only [decide_eq_decide]
      omega
    rw [if_pos hroom, htake, hfits]
  · have htake : (raw ++ [c]).take (cap - 1) = raw.take (cap - 1) :=
      List.take_append_of_le_length (by omega)
    have hover : decide (cap ≤ raw.length + 1) = true := by
      simp only [decide_eq_true_eq]
      omega
    rw [if_neg hroom, htake, hover]

/-- The LF hands the line over. -/
theorem readLineFrom_lf (htime : client.millis state - start < timeoutMs)
    (hread : client.read state = (some chLf, next)) :
    readLineFrom client cap timeoutMs start (fuel + 1) (raw.take (cap - 1))
        (decide (cap ≤ raw.length)) state =
      some (lineOf cap raw, next) := by
  rw [readLineFrom, if_pos htime]
  simp only [hread, if_pos, lineOf, decide_eq_true_eq]

end

/-- The loop of `readUntilClose`. -/
def readUntilCloseFrom {σ : Type} (client : Client σ) (cap : Nat) (timeoutMs start : UInt32) :
    Nat → Bytes → σ → Option (Bytes × σ)
  | 0, _, _ => none
  | fuel + 1, out, state =>
      if out.length + 1 < cap then
        match client.read state with
        | (none, state) =>
            if client.millis state - start ≥ timeoutMs then some (out, state)
            else
              match waitForMore client state with
              | none => some (out, state)
              | some state => readUntilCloseFrom client cap timeoutMs start fuel out state
        | (some c, state) => readUntilCloseFrom client cap timeoutMs start fuel (out ++ [c]) state
      else some (out, state)

/-- `readUntilClose`: what it read, without the terminator. -/
def readUntilClose {σ : Type} (client : Client σ) (cap : Nat) (timeoutMs : UInt32) (fuel : Nat)
    (state : σ) : Option (Bytes × σ) :=
  readUntilCloseFrom client cap timeoutMs (client.millis state) fuel [] state

/-! ## What was read -/

section

variable {σ Kept : Type}

/-- `heard` is the bytes that were read, and reading leaves what is `kept` alone. -/
structure Client.Logs (client : Client σ) (heard : σ → Bytes) (kept : σ → Kept) : Prop where
  read : ∀ {state next : σ} {byte : Option Byte}, client.read state = (byte, next) →
    heard next = heard state ++ byte.toList ∧ kept next = kept state
  delay : ∀ state, heard (client.delay state) = heard state ∧
    kept (client.delay state) = kept state

variable {client : Client σ} {heard : σ → Bytes} {kept : σ → Kept} {cap : Nat}
  {timeoutMs start : UInt32} {fuel : Nat} {state final : σ}

theorem Client.Logs.waitForMore (logs : client.Logs heard kept) {next : σ}
    (h : waitForMore client state = some next) :
    heard next = heard state ∧ kept next = kept state := by
  rw [Net.waitForMore] at h
  split at h
  · cases h
  · cases h
    exact logs.delay state

/-- What is read between two states. -/
def Reads (heard : σ → Bytes) (kept : σ → Kept) (state final : σ) (bytes : Bytes) : Prop :=
  heard final = heard state ++ bytes ∧ kept final = kept state

theorem Reads.nil {state : σ} : Reads heard kept state state [] := ⟨(List.append_nil _).symm, rfl⟩

theorem Reads.trans {middle : σ} {first second : Bytes} (h : Reads heard kept state middle first)
    (hnext : Reads heard kept middle final second) :
    Reads heard kept state final (first ++ second) :=
  ⟨by rw [hnext.1, h.1, List.append_assoc], hnext.2.trans h.2⟩

theorem Client.Logs.reads (logs : client.Logs heard kept) {next : σ} {byte : Option Byte}
    (h : client.read state = (byte, next)) : Reads heard kept state next byte.toList := logs.read h

/-- A read that came up empty, and the wait behind it. -/
theorem Client.Logs.reads_wait (logs : client.Logs heard kept) {next waited : σ}
    (h : client.read state = (none, next)) (hwait : Net.waitForMore client next = some waited) :
    Reads heard kept state waited [] := by
  obtain ⟨hheard, hkept⟩ := logs.read h
  obtain ⟨hheardWait, hkeptWait⟩ := logs.waitForMore hwait
  exact ⟨by rw [hheardWait, hheard, Option.toList_none], hkeptWait.trans hkept⟩

/-- A line that was read is the bytes up to an LF, through the window. -/
theorem readLineFrom_logged (logs : client.Logs heard kept) (hcap : 0 < cap) {raw : Bytes}
    {line : LineStatus × Bytes}
    (h : readLineFrom client cap timeoutMs start fuel (raw.take (cap - 1))
      (decide (cap ≤ raw.length)) state = some (line, final))
    (hstatus : line.1 ≠ .kTimeout) :
    ∃ more, chLf ∉ more ∧ Reads heard kept state final (more ++ [chLf]) ∧
      line = lineOf cap (raw ++ more) := by
  induction fuel generalizing raw state with
  | zero => cases h
  | succ fuel ih =>
      by_cases htime : client.millis state - start < timeoutMs
      · rcases hread : client.read state with ⟨byte, next⟩
        cases byte with
        | none =>
            rw [readLineFrom, if_pos htime] at h
            simp only [hread] at h
            split at h
            · cases h
              exact absurd rfl hstatus
            · rename_i waited hwait
              obtain ⟨more, hmore, hreads, hline⟩ := ih h
              exact ⟨more, hmore, (logs.reads_wait hread hwait).trans hreads, hline⟩
        | some c =>
            have hbyte := logs.reads hread
            by_cases hc : c = chLf
            · subst hc
              rw [readLineFrom_lf htime hread] at h
              cases h
              exact ⟨[], List.not_mem_nil, hbyte, by rw [List.append_nil]⟩
            · rw [readLineFrom_byte hcap htime hread hc] at h
              obtain ⟨more, hmore, hreads, hline⟩ := ih h
              refine ⟨c :: more, ?_, hbyte.trans hreads, ?_⟩
              · rw [List.mem_cons, not_or]
                exact ⟨Ne.symm hc, hmore⟩
              · rw [hline, List.append_assoc, List.singleton_append]
      · rw [readLineFrom, if_neg htime] at h
        cases h
        exact absurd rfl hstatus

/-- Whatever comes of a line, it was read. -/
theorem readLineFrom_reads (logs : client.Logs heard kept) {out : Bytes} {overflowed : Bool}
    {line : LineStatus × Bytes}
    (h : readLineFrom client cap timeoutMs start fuel out overflowed state = some (line, final)) :
    ∃ bytes, Reads heard kept state final bytes := by
  induction fuel generalizing out overflowed state with
  | zero => cases h
  | succ fuel ih =>
      rw [readLineFrom] at h
      split at h
      · rcases hread : client.read state with ⟨byte, next⟩
        simp only [hread] at h
        cases byte with
        | none =>
            dsimp only at h
            split at h
            · cases h
              exact ⟨_, logs.reads hread⟩
            · rename_i waited hwait
              obtain ⟨bytes, hreads⟩ := ih h
              exact ⟨_, (logs.reads_wait hread hwait).trans hreads⟩
        | some c =>
            dsimp only at h
            split at h
            · cases h
              exact ⟨_, logs.reads hread⟩
            · split at h
              · obtain ⟨bytes, hreads⟩ := ih h
                exact ⟨_, (logs.reads hread).trans hreads⟩
              · obtain ⟨bytes, hreads⟩ := ih h
                exact ⟨_, (logs.reads hread).trans hreads⟩
      · cases h
        exact ⟨[], Reads.nil⟩

theorem readLine_logged (logs : client.Logs heard kept) (hcap : 0 < cap)
    {line : LineStatus × Bytes}
    (h : readLine client cap timeoutMs fuel state = some (line, final))
    (hstatus : line.1 ≠ .kTimeout) :
    ∃ raw, chLf ∉ raw ∧ Reads heard kept state final (raw ++ [chLf]) ∧ line = lineOf cap raw := by
  have hfrom : readLineFrom client cap timeoutMs (client.millis state) fuel
      (([] : Bytes).take (cap - 1)) (decide (cap ≤ ([] : Bytes).length)) state =
        some (line, final) := by
    rw [List.take_nil, List.length_nil, decide_eq_false (Nat.not_le.mpr hcap)]
    exact h
  exact readLineFrom_logged logs hcap hfrom hstatus

theorem readExactlyFrom_logged (logs : client.Logs heard kept) {want : Nat} {out body : Bytes}
    (hout : out.length ≤ want)
    (h : readExactlyFrom client want timeoutMs start fuel out state = some (some body, final)) :
    ∃ more, body = out ++ more ∧ body.length = want ∧ Reads heard kept state final more := by
  induction fuel generalizing out state with
  | zero => cases h
  | succ fuel ih =>
      rw [readExactlyFrom] at h
      by_cases hmore : out.length < want
      · rw [if_pos hmore] at h
        rcases hread : client.read state with ⟨byte, next⟩
        simp only [hread] at h
        cases byte with
        | none =>
            dsimp only at h
            split at h
            · cases h
            · split at h
              · cases h
              · rename_i waited hwait
                obtain ⟨more, hbody, hlength, hreads⟩ := ih hout h
                exact ⟨more, hbody, hlength, (logs.reads_wait hread hwait).trans hreads⟩
        | some c =>
            have hnext : (out ++ [c]).length ≤ want := by
              rw [List.length_append, List.length_singleton]
              exact hmore
            obtain ⟨more, hbody, hlength, hreads⟩ := ih hnext h
            refine ⟨c :: more, ?_, hlength, (logs.reads hread).trans hreads⟩
            rw [hbody, List.append_assoc, List.singleton_append]
      · rw [if_neg hmore] at h
        cases h
        exact ⟨[], (List.append_nil _).symm, Nat.le_antisymm hout (Nat.not_lt.mp hmore), Reads.nil⟩

theorem readExactly_logged (logs : client.Logs heard kept) {want : Nat} {body : Bytes}
    (h : readExactly client want timeoutMs fuel state = some (some body, final)) :
    body.length = want ∧ Reads heard kept state final body := by
  obtain ⟨more, hbody, hlength, hreads⟩ := readExactlyFrom_logged logs (Nat.zero_le want) h
  rw [List.nil_append] at hbody
  exact ⟨hlength, hbody ▸ hreads⟩

/-- Whatever comes of it, it was read. -/
theorem readExactlyFrom_reads (logs : client.Logs heard kept) {want : Nat} {out : Bytes}
    {body : Option Bytes}
    (h : readExactlyFrom client want timeoutMs start fuel out state = some (body, final)) :
    ∃ bytes, Reads heard kept state final bytes := by
  induction fuel generalizing out state with
  | zero => cases h
  | succ fuel ih =>
      rw [readExactlyFrom] at h
      split at h
      · rcases hread : client.read state with ⟨byte, next⟩
        simp only [hread] at h
        cases byte with
        | none =>
            dsimp only at h
            split at h
            · cases h
              exact ⟨_, logs.reads hread⟩
            · split at h
              · cases h
                exact ⟨_, logs.reads hread⟩
              · rename_i waited hwait
                obtain ⟨bytes, hreads⟩ := ih h
                exact ⟨_, (logs.reads_wait hread hwait).trans hreads⟩
        | some c =>
            obtain ⟨bytes, hreads⟩ := ih h
            exact ⟨_, (logs.reads hread).trans hreads⟩
      · cases h
        exact ⟨[], Reads.nil⟩

theorem readUntilCloseFrom_logged (logs : client.Logs heard kept) {out body : Bytes}
    (h : readUntilCloseFrom client cap timeoutMs start fuel out state = some (body, final)) :
    ∃ more, body = out ++ more ∧ Reads heard kept state final more := by
  induction fuel generalizing out state with
  | zero => cases h
  | succ fuel ih =>
      rw [readUntilCloseFrom] at h
      by_cases hmore : out.length + 1 < cap
      · rw [if_pos hmore] at h
        rcases hread : client.read state with ⟨byte, next⟩
        simp only [hread] at h
        cases byte with
        | none =>
            dsimp only at h
            split at h
            · cases h
              exact ⟨[], (List.append_nil _).symm, logs.reads hread⟩
            · split at h
              · cases h
                exact ⟨[], (List.append_nil _).symm, logs.reads hread⟩
              · rename_i waited hwait
                obtain ⟨more, hbody, hreads⟩ := ih h
                exact ⟨more, hbody, (logs.reads_wait hread hwait).trans hreads⟩
        | some c =>
            obtain ⟨more, hbody, hreads⟩ := ih h
            refine ⟨c :: more, ?_, (logs.reads hread).trans hreads⟩
            rw [hbody, List.append_assoc, List.singleton_append]
      · rw [if_neg hmore] at h
        cases h
        exact ⟨[], (List.append_nil _).symm, Reads.nil⟩

theorem readUntilClose_logged (logs : client.Logs heard kept) {body : Bytes}
    (h : readUntilClose client cap timeoutMs fuel state = some (body, final)) :
    Reads heard kept state final body := by
  obtain ⟨more, hbody, hreads⟩ := readUntilCloseFrom_logged logs h
  rw [List.nil_append] at hbody
  exact hbody ▸ hreads

theorem drainBufferedFrom_logged (logs : client.Logs heard kept)
    (h : drainBufferedFrom client timeoutMs start fuel state = some final) :
    ∃ drained, Reads heard kept state final drained := by
  induction fuel generalizing state with
  | zero => cases h
  | succ fuel ih =>
      rw [drainBufferedFrom] at h
      split at h
      · rcases hread : client.read state with ⟨byte, next⟩
        rw [hread] at h
        obtain ⟨drained, hreads⟩ := ih h
        exact ⟨_, (logs.reads hread).trans hreads⟩
      · cases h
        exact ⟨[], Reads.nil⟩

end

/-! ### A record of it -/

section

variable {σ : Type}

/-- The same client, with every byte it gave written down. -/
def Client.recorded (client : Client σ) : Client (σ × Bytes) where
  read state :=
    ((client.read state.1).1, (client.read state.1).2, state.2 ++ (client.read state.1).1.toList)
  connected state := client.connected state.1
  available state := client.available state.1
  delay state := (client.delay state.1, state.2)
  millis state := client.millis state.1

variable {client : Client σ} {cap : Nat} {timeoutMs start : UInt32} {fuel : Nat}
  {state final : σ × Bytes}

theorem recorded_logs (client : Client σ) : client.recorded.Logs Prod.snd fun _ => () where
  read := by
    intro state next byte h
    have hnext : state.2 ++ (client.read state.1).1.toList = next.2 :=
      congrArg (fun result => result.2.2) h
    have hbyte : (client.read state.1).1 = byte := congrArg Prod.fst h
    exact ⟨by rw [← hnext, hbyte], rfl⟩
  delay _ := ⟨rfl, rfl⟩

theorem readLine_recorded (hcap : 0 < cap) {line : LineStatus × Bytes}
    (h : readLine client.recorded cap timeoutMs fuel state = some (line, final))
    (hstatus : line.1 ≠ .kTimeout) :
    ∃ raw, chLf ∉ raw ∧ final.2 = state.2 ++ raw ++ [chLf] ∧ line = lineOf cap raw := by
  obtain ⟨raw, hraw, hreads, hline⟩ := readLine_logged (recorded_logs client) hcap h hstatus
  exact ⟨raw, hraw, by rw [hreads.1, List.append_assoc], hline⟩

theorem readExactly_recorded {want : Nat} {body : Bytes}
    (h : readExactly client.recorded want timeoutMs fuel state = some (some body, final)) :
    body.length = want ∧ final.2 = state.2 ++ body := by
  obtain ⟨hlength, hreads⟩ := readExactly_logged (recorded_logs client) h
  exact ⟨hlength, hreads.1⟩

theorem drainBufferedFrom_recorded
    (h : drainBufferedFrom client.recorded timeoutMs start fuel state = some final) :
    ∃ drained, final.2 = state.2 ++ drained := by
  obtain ⟨drained, hreads⟩ := drainBufferedFrom_logged (recorded_logs client) h
  exact ⟨drained, hreads.1⟩

end

end MatrixFaces.Net
