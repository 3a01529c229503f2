import MatrixFaces.Foundation.Fuel
import MatrixFaces.Net.Arrivals

set_option autoImplicit false

/-!
# How long the readers take

Time passes in `delay` alone, and of the bytes still to come every read takes one.  Then
every reader comes to its end, by its deadline, and does not wait on a peer that has closed.

`Client.Timed` is what is asked of a client, and `InTime` what is shown of a reader: the time at
which it is back, and that it does not wait once the peer has closed.  Each reader of
`Net.StreamRead` has one lemma; `leaving` is a scripted peer that closes at a time of its own.
-/

namespace MatrixFaces.Net

open MatrixFaces.Foundation

variable {σ : Type}

/-- The clock goes on in `delay` alone, a byte that is read is one of finitely many to come,
and behind an empty read nothing is waited for from the moment the peer has closed. -/
structure Client.Timed (client : Client σ) (closesAt : Option Nat) (now unread : σ → Nat) :
    Prop where
  millis : ∀ state, client.millis state = Clock32.tick (now state)
  delay : ∀ state, now (client.delay state) = now state + 1 ∧
    unread (client.delay state) = unread state
  empty : ∀ {state next : σ}, client.read state = (none, next) →
    now next = now state ∧ unread next = unread state
  byte : ∀ {state next : σ} {c : Byte}, client.read state = (some c, next) →
    now next = now state ∧ unread next + 1 = unread state
  buffered : ∀ {state : σ}, 0 < client.available state → ∃ c next,
    client.read state = (some c, next)
  closed : ∀ {state next : σ}, client.read state = (none, next) →
    ∀ closes ∈ closesAt, closes ≤ now next → waitForMore client next = none

/-- Between two states no time passes behind the limit, and none once the peer has closed. -/
structure InTime (closesAt : Option Nat) (now : σ → Nat) (limit : Nat) (state final : σ) :
    Prop where
  le : now state ≤ now final
  limit : now final ≤ limit
  closed : ∀ closes ∈ closesAt, now final ≤ max (now state) closes

section

variable {closesAt : Option Nat} {now unread : σ → Nat} {limit : Nat} {state middle final : σ}

theorem InTime.of_eq (h : now final = now state) (hlimit : now state ≤ limit) :
    InTime closesAt now limit state final where
  le := h.ge
  limit := h.trans_le hlimit
  closed _ _ := h.trans_le (Nat.le_max_left _ _)

theorem InTime.trans {further : Nat} (h : InTime closesAt now limit state middle)
    (hnext : InTime closesAt now further middle final) :
    InTime closesAt now further state final where
  le := h.le.trans hnext.le
  limit := hnext.limit
  closed closes hcloses := by
    have hfirst := h.closed closes hcloses
    have hsecond := hnext.closed closes hcloses
    omega

theorem InTime.mono {further : Nat} (h : InTime closesAt now limit state final)
    (hle : limit ≤ further) : InTime closesAt now further state final :=
  ⟨h.le, h.limit.trans hle, h.closed⟩

variable {client : Client σ}

/-- How many passes are left at most to a reader with a deadline: each takes a byte off those to
come or a millisecond off the time that is left. -/
def passesLeft (now unread : σ → Nat) (limit : Nat) (state : σ) : Nat :=
  unread state + (limit - now state)

theorem Client.Timed.passesLeft_byte (timed : client.Timed closesAt now unread) {c : Byte}
    (hread : client.read state = (some c, middle)) :
    passesLeft now unread limit middle < passesLeft now unread limit state := by
  obtain ⟨hnow, hunread⟩ := timed.byte hread
  rw [passesLeft, passesLeft]
  omega

/-- A wait takes one millisecond, while the peer has not closed. -/
theorem Client.Timed.wait (timed : client.Timed closesAt now unread)
    (hread : client.read state = (none, middle)) (hwait : waitForMore client middle = some final) :
    now final = now state + 1 ∧ unread final = unread state ∧
      ∀ closes ∈ closesAt, now state < closes := by
  obtain ⟨hnow, hunread⟩ := timed.empty hread
  refine ⟨?_, ?_, fun closes hcloses => ?_⟩
  · rw [waitForMore] at hwait
    split at hwait
    · cases hwait
    · cases hwait
      rw [(timed.delay middle).1, hnow]
  · rw [waitForMore] at hwait
    split at hwait
    · cases hwait
    · cases hwait
      rw [(timed.delay middle).2, hunread]
  · by_contra hlate
    rw [timed.closed hread closes hcloses (by omega)] at hwait
    cases hwait

theorem Client.Timed.inTime_wait (timed : client.Timed closesAt now unread)
    (hread : client.read state = (none, middle)) (hwait : waitForMore client middle = some final)
    (hlimit : now state < limit) :
    InTime closesAt now limit state final ∧
      passesLeft now unread limit final < passesLeft now unread limit state := by
  obtain ⟨hnow, hunread, hopen⟩ := timed.wait hread hwait
  constructor
  · refine ⟨by omega, by omega, fun closes hcloses => ?_⟩
    have hbefore := hopen closes hcloses
    omega
  · rw [passesLeft, passesLeft]
    omega

/-! ## The readers -/

variable {cap : Nat} {timeoutMs : UInt32} {start : Nat}

/-- The wrapped clock shows a deadline that has come. -/
theorem not_tick_sub_lt {later : Nat} (hle : start ≤ later)
    (hlate : start + timeoutMs.toNat ≤ later) (hnear : later ≤ start + timeoutMs.toNat) :
    ¬ Clock32.tick later - Clock32.tick start < timeoutMs := by
  have hbound := timeoutMs.toNat_lt
  rw [UInt32.lt_iff_toNat_lt, Clock32.tick_sub_toNat_of_le hle]
  omega

/-- `readLine` checks its deadline at every byte. -/
theorem readLineFrom_inTime (timed : client.Timed closesAt now unread) (out : Bytes)
    (overflowed : Bool) (hle : start ≤ now state) (hlimit : now state ≤ start + timeoutMs.toNat) :
    ∃ line final,
      Settles (fun fuel => readLineFrom client cap timeoutMs (Clock32.tick start) fuel out
        overflowed state) (line, final) ∧
      InTime closesAt now (start + timeoutMs.toNat) state final := by
  induction hleft : passesLeft now unread (start + timeoutMs.toNat) state using Nat.strongRecOn
    generalizing out overflowed state with
  | ind left ih =>
      subst hleft
      by_cases htime : now state < start + timeoutMs.toNat
      · have hclock : client.millis state - Clock32.tick start < timeoutMs := by
          rw [timed.millis]
          exact tick_sub_lt hle htime
        rcases hread : client.read state with ⟨byte, next⟩
        cases byte with
        | none =>
            cases hwait : waitForMore client next with
            | none =>
                refine ⟨(.kTimeout, []), next, .stop fun fuel => ?_,
                  .of_eq (timed.empty hread).1 hlimit⟩
                rw [readLineFrom, if_pos hclock]
                simp only [hread, hwait]
            | some waited =>
                obtain ⟨hstep, hless⟩ := timed.inTime_wait hread hwait htime
                obtain ⟨line, final, hsettles, hinTime⟩ :=
                  ih _ hless out overflowed (hle.trans hstep.le) hstep.limit rfl
                refine ⟨line, final, hsettles.step fun fuel => ?_, hstep.trans hinTime⟩
                rw [readLineFrom, if_pos hclock]
                simp only [hread, hwait]
        | some c =>
            have hless : passesLeft now unread (start + timeoutMs.toNat) next <
                passesLeft now unread (start + timeoutMs.toNat) state :=
              timed.passesLeft_byte hread
            have hstep : InTime closesAt now (start + timeoutMs.toNat) state next :=
              .of_eq (timed.byte hread).1 hlimit
            by_cases hlf : c = chLf
            · refine ⟨(if overflowed then .kTruncated else .kOk, stripCr out), next,
                .stop fun fuel => ?_, hstep⟩
              rw [readLineFrom, if_pos hclock]
              simp only [hread, if_pos hlf]
            · by_cases hroom : out.length + 1 < cap
              · obtain ⟨line, final, hsettles, hinTime⟩ :=
                  ih _ hless (out ++ [c]) overflowed (hle.trans hstep.le) hstep.limit rfl
                refine ⟨line, final, hsettles.step fun fuel => ?_, hstep.trans hinTime⟩
                rw [readLineFrom, if_pos hclock]
                simp only [hread, if_neg hlf, if_pos hroom]
              · obtain ⟨line, final, hsettles, hinTime⟩ :=
                  ih _ hless out true (hle.trans hstep.le) hstep.limit rfl
                refine ⟨line, final, hsettles.step fun fuel => ?_, hstep.trans hinTime⟩
                rw [readLineFrom, if_pos hclock]
                simp only [hread, if_neg hlf, if_neg hroom]
      · have hclock : ¬ client.millis state - Clock32.tick start < timeoutMs := by
          rw [timed.millis]
          exact not_tick_sub_lt hle (Nat.not_lt.mp htime) hlimit
        refine ⟨(.kTimeout, []), state, .stop fun fuel => ?_, .of_eq rfl hlimit⟩
        rw [readLineFrom, if_neg hclock]

theorem readLine_inTime (timed : client.Timed closesAt now unread) (cap : Nat)
    (timeoutMs : UInt32) (state : σ) :
    ∃ line final, Settles (fun fuel => readLine client cap timeoutMs fuel state) (line, final) ∧
      InTime closesAt now (now state + timeoutMs.toNat) state final := by
  obtain ⟨line, final, hsettles, hinTime⟩ :=
    @readLineFrom_inTime σ closesAt now unread state client cap timeoutMs (now state) timed []
      false (Nat.le_refl _) (Nat.le_add_right _ _)
  refine ⟨line, final, ?_, hinTime⟩
  filter_upwards [hsettles] with fuel hfuel
  rw [readLine, timed.millis, hfuel]

/-- `readExactly` asks for the time when it is starved, and then alone does any pass. -/
theorem readExactlyFrom_inTime (timed : client.Timed closesAt now unread) (want : Nat)
    (out : Bytes) (hle : start ≤ now state) (hlimit : now state ≤ start + timeoutMs.toNat) :
    ∃ body final,
      Settles (fun fuel => readExactlyFrom client want timeoutMs (Clock32.tick start) fuel out
        state) (body, final) ∧
      InTime closesAt now (start + timeoutMs.toNat) state final := by
  induction hleft : passesLeft now unread (start + timeoutMs.toNat) state using Nat.strongRecOn
    generalizing out state with
  | ind left ih =>
      subst hleft
      by_cases hmore : out.length < want
      · rcases hread : client.read state with ⟨byte, next⟩
        cases byte with
        | none =>
            obtain ⟨hempty, _⟩ := timed.empty hread
            by_cases htime : now state < start + timeoutMs.toNat
            · have hclock : ¬ client.millis next - Clock32.tick start ≥ timeoutMs := by
                rw [timed.millis, hempty]
                exact UInt32.not_le.mpr (tick_sub_lt hle htime)
              cases hwait : waitForMore client next with
              | none =>
                  refine ⟨none, next, .stop fun fuel => ?_, .of_eq hempty hlimit⟩
                  rw [readExactlyFrom, if_pos hmore]
                  simp only [hread, if_neg hclock, hwait]
              | some waited =>
                  obtain ⟨hstep, hless⟩ := timed.inTime_wait hread hwait htime
                  obtain ⟨body, final, hsettles, hinTime⟩ :=
                    ih _ hless out (hle.trans hstep.le) hstep.limit rfl
                  refine ⟨body, final, hsettles.step fun fuel => ?_, hstep.trans hinTime⟩
                  rw [readExactlyFrom, if_pos hmore]
                  simp only [hread, if_neg hclock, hwait]
            · have hclock : client.millis next - Clock32.tick start ≥ timeoutMs := by
                rw [timed.millis, hempty]
                exact UInt32.not_lt.mp (not_tick_sub_lt hle (Nat.not_lt.mp htime) hlimit)
              refine ⟨none, next, .stop fun fuel => ?_, .of_eq hempty hlimit⟩
              rw [readExactlyFrom, if_pos hmore]
              simp only [hread, if_pos hclock]
        | some c =>
            have hless : passesLeft now unread (start + timeoutMs.toNat) next <
                passesLeft now unread (start + timeoutMs.toNat) state :=
              timed.passesLeft_byte hread
            have hstep : InTime closesAt now (start + timeoutMs.toNat) state next :=
              .of_eq (timed.byte hread).1 hlimit
            obtain ⟨body, final, hsettles, hinTime⟩ :=
              ih _ hless (out ++ [c]) (hle.trans hstep.le) hstep.limit rfl
            refine ⟨body, final, hsettles.step fun fuel => ?_, hstep.trans hinTime⟩
            rw [readExactlyFrom, if_pos hmore]
            simp only [hread]
      · refine ⟨some out, state, .stop fun fuel => ?_, .of_eq rfl hlimit⟩
        rw [readExactlyFrom, if_neg hmore]

theorem readExactly_inTime (timed : client.Timed closesAt now unread) (want : Nat)
    (timeoutMs : UInt32) (state : σ) :
    ∃ body final,
      Settles (fun fuel => readExactly client want timeoutMs fuel state) (body, final) ∧
      InTime closesAt now (now state + timeoutMs.toNat) state final := by
  obtain ⟨body, final, hsettles, hinTime⟩ :=
    @readExactlyFrom_inTime σ closesAt now unread state client timeoutMs (now state) timed want []
      (Nat.le_refl _) (Nat.le_add_right _ _)
  refine ⟨body, final, ?_, hinTime⟩
  filter_upwards [hsettles] with fuel hfuel
  rw [readExactly, timed.millis, hfuel]

/-- `drainBuffered` waits for nothing. -/
theorem drainBuffered_inTime (timed : client.Timed closesAt now unread) (timeoutMs : UInt32)
    (state : σ) :
    ∃ final, Settles (fun fuel => drainBuffered client timeoutMs fuel state) final ∧
      now final = now state := by
  generalize hstarted : client.millis state = started
  have hloop : ∃ final,
      Settles (fun fuel => drainBufferedFrom client timeoutMs started fuel state) final ∧
        now final = now state := by
    clear hstarted
    induction hleft : unread state generalizing state with
    | zero =>
        refine ⟨state, .stop fun fuel => ?_, rfl⟩
        have hdry : ¬ 0 < client.available state := fun havailable => by
          obtain ⟨c, next, hread⟩ := timed.buffered havailable
          have hbyte := (timed.byte hread).2
          omega
        rw [drainBufferedFrom, if_neg fun h => hdry h.1]
    | succ left ih =>
        by_cases hgoes : 0 < client.available state ∧ client.millis state - started < timeoutMs
        · obtain ⟨c, next, hread⟩ := timed.buffered hgoes.1
          obtain ⟨hnow, hunread⟩ := timed.byte hread
          obtain ⟨final, hsettles, hfinal⟩ := ih next (by omega)
          refine ⟨final, hsettles.step fun fuel => ?_, hfinal.trans hnow⟩
          rw [drainBufferedFrom, if_pos hgoes, hread]
        · refine ⟨state, .stop fun fuel => ?_, rfl⟩
          rw [drainBufferedFrom, if_neg hgoes]
  obtain ⟨final, hsettles, hfinal⟩ := hloop
  refine ⟨final, ?_, hfinal⟩
  filter_upwards [hsettles] with fuel hfuel
  rw [drainBuffered, hstarted, hfuel]

end

/-! ## A peer that closes -/

/-- The scripted peer, closed from `closesAt` on.  What it sent by then can still be read. -/
def leaving (closesAt : Option Nat) : Client ScriptedPeer :=
  { scripted with connected := fun peer => closesAt.all (peer.now < ·) }

theorem leaving_timed (closesAt : Option Nat) :
    (leaving closesAt).Timed closesAt ScriptedPeer.now fun peer => peer.unread.length where
  millis _ := rfl
  delay _ := ⟨rfl, rfl⟩
  empty := by
    rintro ⟨unread, now⟩ next hread
    cases unread with
    | nil =>
        cases hread
        exact ⟨rfl, rfl⟩
    | cons arrival rest =>
        by_cases harrived : arrival.1 ≤ now
        · cases (scripted_read_of_le harrived).symm.trans hread
        · cases (scripted_read_of_lt (Nat.not_le.mp harrived)).symm.trans hread
          exact ⟨rfl, rfl⟩
  byte := by
    rintro ⟨unread, now⟩ next c hread
    cases unread with
    | nil => cases hread
    | cons arrival rest =>
        by_cases harrived : arrival.1 ≤ now
        · cases (scripted_read_of_le harrived).symm.trans hread
          exact ⟨rfl, rfl⟩
        · cases (scripted_read_of_lt (Nat.not_le.mp harrived)).symm.trans hread
  buffered := by
    rintro ⟨unread, now⟩ havailable
    cases unread with
    | nil => cases havailable
    | cons arrival rest =>
        by_cases harrived : arrival.1 ≤ now
        · exact ⟨arrival.2, _, scripted_read_of_le harrived⟩
        · simp [leaving, scripted, harrived] at havailable
  closed := by
    rintro ⟨unread, now⟩ next hread closes hcloses hlate
    have hquiet : next = ⟨unread, now⟩ ∧ (leaving closesAt).available next = 0 := by
      cases unread with
      | nil =>
          cases hread
          exact ⟨rfl, rfl⟩
      | cons arrival rest =>
          by_cases harrived : arrival.1 ≤ now
          · cases (scripted_read_of_le harrived).symm.trans hread
          · cases (scripted_read_of_lt (Nat.not_le.mp harrived)).symm.trans hread
            exact ⟨rfl, by simp [leaving, scripted, harrived]⟩
    obtain ⟨rfl, havailable⟩ := hquiet
    have hclosed : (leaving closesAt).connected ⟨unread, now⟩ = false := by
      rw [Option.mem_def.mp hcloses]
      exact decide_eq_false (Nat.not_lt.mpr hlate)
    exact if_pos ⟨hclosed, havailable⟩

end MatrixFaces.Net
