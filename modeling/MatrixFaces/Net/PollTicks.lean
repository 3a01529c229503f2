import MatrixFaces.Net.HostChange
import MatrixFaces.Foundation.Clock32
import Mathlib.Data.Nat.Find
import Mathlib.Order.Monotone.Basic

set_option autoImplicit false

/-!
# How often the client polls

A run of `poll` ticks whose real times pass every bound.  The client keeps them modulo
2^32, in two timestamps and two flags, and the run may take any time.

`TickRun g` is such a run, in which two ticks are at most `g` apart; `TickRun.ofPolls` makes
one of the polls of a client.  `Scheduled` has a part for what follows a success, one for
what follows a failure, and one for the slow topics: no poll before its interval is over, one
within a tick behind it, all topics in the one behind a failure, and the slow ones within a
tick of their own interval while polls keep succeeding.

The main result is `scheduled`, for any intervals and a run of any length whose waits are
shorter than the range of `millis()`.  Where both intervals are zero every tick polls, and
`a_whole_tick_apart` shows that the last bound is then reached.
-/

namespace MatrixFaces.Net.Mv

open MatrixFaces.Foundation
open MatrixFaces.Foundation.Clock32 (tick tick_sub_toNat_of_le)

/-! ## Runs of ticks -/

/-- Ticks at most `g` apart, to a client that has a host and a buffer.  What the socket
goes through between them is left open. -/
structure TickRun (g : Nat) where
  client : Nat → MultiViewerClient
  times : Nat → Nat
  response : Nat → Option Bytes
  host : (client 0).host ≠ 0
  bufferCap : (client 0).bufferCap ≠ 0
  step : ∀ n, ((client n).call (.poll (tick (times n)) (response n))).SameButSocket (client (n + 1))
  later : ∀ n, times n ≤ times (n + 1)
  near : ∀ n, times (n + 1) ≤ times n + g
  unbounded : ∀ t, ∃ n, t ≤ times n

namespace TickRun

/-- Ticks of `poll` against a transport are such a run. -/
def ofPolls {σ : Type} (transport : Transport σ) {g : Nat} (system : Nat → MultiViewerClient × σ)
    (times : Nat → Nat) (response : Nat → Option Bytes)
    (host : (system 0).1.host ≠ 0) (bufferCap : (system 0).1.bufferCap ≠ 0)
    (polled : ∀ n, ∃ fuel state, MultiViewerClient.poll transport fuel (tick (times n)) (system n) =
      some (response n, (system (n + 1)).1, state))
    (later : ∀ n, times n ≤ times (n + 1)) (near : ∀ n, times (n + 1) ≤ times n + g)
    (unbounded : ∀ t, ∃ n, t ≤ times n) : TickRun g where
  client n := (system n).1
  times := times
  response := response
  host := host
  bufferCap := bufferCap
  step n := by
    obtain ⟨fuel, state, hpoll⟩ := polled n
    have hcall := MultiViewerClient.poll_call hpoll
    exact hcall
  later := later
  near := near
  unbounded := unbounded

variable {g : Nat} (run : TickRun g)

def timing : PollTiming := (run.client 0).config.timing

/-- The longest that the client may wait, in any of its states. -/
def span : Nat :=
  run.timing.fastIntervalMs.toNat + run.timing.slowIntervalMs.toNat +
    run.timing.backoffMs.toNat + g

/-- A poll starts at the tick. -/
def Starts (n : Nat) : Prop := (run.client n).asks (tick (run.times n))

/-- The topics that a poll would ask for at the tick. -/
def topics (n : Nat) : UInt8 := ((run.client n).plan (tick (run.times n))).topics

/-- A poll that starts at the tick carries the slow topics. -/
def Carries (n : Nat) : Prop :=
  run.Starts n ∧ run.topics n &&& run.timing.slowTopics = run.timing.slowTopics

/-- How long after the tick's poll the next one is due. -/
def wait (n : Nat) : Nat := (dueMs run.timing (run.response n).isSome).toNat

instance (n : Nat) : Decidable (run.Starts n) := inferInstanceAs (Decidable (_ ∧ _ ∧ _))

instance (n : Nat) : Decidable (run.Carries n) := inferInstanceAs (Decidable (_ ∧ _))

/-- No `P` in between. -/
def NoneBetween (P : Nat → Prop) (n m : Nat) : Prop := ∀ k, n < k → k < m → ¬ P k

/-- `m` is the next `P` after `n`. -/
def NextAfter (P : Nat → Prop) (n m : Nat) : Prop := n < m ∧ P m ∧ NoneBetween P n m

variable {run}

theorem monotone_times : Monotone run.times := monotone_nat_of_le_succ run.later

/-- The first tick after `n` at which so much time has passed, and the tick in front of it. -/
theorem exists_first (n t : Nat) :
    ∃ m, n < m ∧ run.times n + t ≤ run.times m ∧
      (∀ k, n < k → k < m → run.times k < run.times n + t) ∧
      run.times m ≤ run.times (m - 1) + g := by
  have hsome : ∃ m, n < m ∧ run.times n + t ≤ run.times m := by
    obtain ⟨m, hm⟩ := run.unbounded (run.times n + t)
    refine ⟨max m (n + 1), by omega, ?_⟩
    exact hm.trans (monotone_times (Nat.le_max_left m (n + 1)))
  obtain ⟨hlt, htime⟩ := Nat.find_spec hsome
  refine ⟨Nat.find hsome, hlt, htime, fun k hnk hk => ?_, ?_⟩
  · have hmin := Nat.find_min hsome hk
    omega
  · have hnear := run.near (Nat.find hsome - 1)
    rwa [Nat.sub_add_cancel (by omega)] at hnear

/-- The last `P` in front of `m`, if there is one from `n` on. -/
theorem exists_last {P : Nat → Prop} [DecidablePred P] {n m : Nat} (hn : P n) (hlt : n < m) :
    ∃ p, n ≤ p ∧ p < m ∧ P p ∧ NoneBetween P p m := by
  have hle : n ≤ m - 1 := by omega
  have hspec := Nat.findGreatest_spec hle hn
  have hbound := Nat.findGreatest_le (P := P) (m - 1)
  refine ⟨Nat.findGreatest P (m - 1), Nat.le_findGreatest hle hn, by omega, hspec, ?_⟩
  intro k hk hkm
  exact Nat.findGreatest_is_greatest hk (by omega)

/-- The next `P` after `n`, if there is one up to `m`. -/
theorem exists_next {P : Nat → Prop} [DecidablePred P] {n m : Nat} (hm : P m) (hlt : n < m) :
    ∃ k, k ≤ m ∧ NextAfter P n k := by
  have hsome : ∃ k, n < k ∧ P k := ⟨m, hlt, hm⟩
  obtain ⟨hnk, hk⟩ := Nat.find_spec hsome
  refine ⟨Nat.find hsome, Nat.find_min' hsome ⟨hlt, hm⟩, hnk, hk, ?_⟩
  intro j hnj hj hPj
  exact Nat.find_min hsome hj ⟨hnj, hPj⟩

theorem NextAfter.unique {P : Nat → Prop} {n m k : Nat} (hm : NextAfter P n m)
    (hk : NextAfter P n k) : m = k := by
  obtain ⟨hnm, hPm, hfreem⟩ := hm
  obtain ⟨hnk, hPk, hfreek⟩ := hk
  rcases Nat.lt_trichotomy m k with hlt | heq | hgt
  · exact absurd hPm (hfreek m hnm hlt)
  · exact heq
  · exact absurd hPk (hfreem k hnk hgt)

/-! ## What a tick leaves of the bookkeeping -/

/-- What the client was told stays. -/
theorem told (n : Nat) : SameHost (run.client 0) (run.client n) := by
  induction n with
  | zero => exact ⟨rfl, rfl, rfl⟩
  | succ n ih =>
      have hpoll := SameHost.of_poll (run.client n) (tick (run.times n)) (run.response n)
      have hsocket := run.step n
      unfold MultiViewerClient.SameButSocket at hsocket
      rw [hsocket]
      exact ⟨hpoll.bufferCap.trans ih.bufferCap, hpoll.config.trans ih.config,
        hpoll.host.trans ih.host⟩

theorem config_timing (n : Nat) : (run.client n).config.timing = run.timing := by
  rw [(run.told n).config, timing]

/-- What a tick's poll writes down. -/
def noted (run : TickRun g) (n : Nat) : PollState where
  everPolled := true
  connected := (run.response n).isSome
  lastPollMs := tick (run.times n)
  lastSlowPollMs :=
    if run.Carries n then tick (run.times n) else (run.client n).lastSlowPollMs

theorem pollState_succ (n : Nat) :
    (run.client (n + 1)).pollState =
      if run.Starts n then run.noted n else (run.client n).pollState := by
  have hsocket := run.step n
  unfold MultiViewerClient.SameButSocket at hsocket
  rw [hsocket]
  by_cases hstarts : run.Starts n
  · have hcarries : run.Carries n ↔
        run.topics n &&& run.timing.slowTopics = run.timing.slowTopics := by
      unfold Carries
      exact and_iff_right hstarts
    rw [if_pos hstarts, call_poll _ hstarts, noted]
    simp only [hcarries, ← run.config_timing n]
    cases run.response n <;> rfl
  · rw [if_neg hstarts, call_poll_of_not _ hstarts]
    rfl

/-- It stays so until the next poll. -/
theorem pollState_after {n m : Nat} (hn : run.Starts n) (hlt : n < m)
    (hnone : NoneBetween run.Starts n m) : (run.client m).pollState = run.noted n := by
  induction m, hlt using Nat.le_induction with
  | base => rw [pollState_succ, if_pos hn]
  | succ m hlt ih =>
      rw [pollState_succ, if_neg (hnone m hlt (Nat.lt_succ_self m))]
      exact ih fun k hnk hkm => hnone k hnk (Nat.lt_succ_of_lt hkm)

/-- So does the time of the slow topics, until they are carried again. -/
theorem lastSlowPollMs_after {n m : Nat} (hn : run.Carries n) (hlt : n < m)
    (hnone : NoneBetween run.Carries n m) :
    (run.client m).lastSlowPollMs = tick (run.times n) := by
  induction m, hlt using Nat.le_induction with
  | base =>
      have hstate := congrArg PollState.lastSlowPollMs (run.pollState_succ n)
      rw [if_pos hn.1] at hstate
      exact hstate.trans (if_pos hn)
  | succ m hlt ih =>
      have hstate := congrArg PollState.lastSlowPollMs (run.pollState_succ m)
      have hm := hnone m hlt (Nat.lt_succ_self m)
      rw [← ih fun k hnk hkm => hnone k hnk (Nat.lt_succ_of_lt hkm)]
      refine hstate.trans ?_
      split
      · exact if_neg hm
      · rfl

/-! ## The next poll -/

theorem starts_iff (n : Nat) :
    run.Starts n ↔ ((run.client n).plan (tick (run.times n))).due = true := by
  unfold Starts MultiViewerClient.asks
  rw [(run.told n).host, (run.told n).bufferCap, and_iff_right run.host,
    and_iff_right run.bufferCap]

theorem tick_sub_lt {n m d : Nat} (hle : run.times n ≤ run.times m)
    (hnear : run.times m < run.times n + 2 ^ 32) (w : UInt32) (hd : w.toNat = d) :
    tick (run.times m) - tick (run.times n) < w ↔ run.times m < run.times n + d := by
  rw [UInt32.lt_iff_toNat_lt, tick_sub_toNat_of_le hle, Nat.mod_eq_of_lt (by omega), hd]
  omega

/-- Up to the next poll, one is due as soon as the interval has passed. -/
theorem starts_after_iff {n m : Nat} (hn : run.Starts n) (hlt : n < m)
    (hnone : NoneBetween run.Starts n m) (hnear : run.times m < run.times n + 2 ^ 32) :
    run.Starts m ↔ run.times n + run.wait n ≤ run.times m := by
  rw [starts_iff, MultiViewerClient.plan, planPoll_due, pollState_after hn hlt hnone,
    config_timing, noted,
    tick_sub_lt (monotone_times hlt.le) hnear (dueMs run.timing (run.response n).isSome) rfl]
  unfold wait
  simp

theorem wait_le (n : Nat) : run.wait n + g ≤ run.span := by
  unfold wait span dueMs
  split <;> omega

/-- The next poll is the first tick at which the interval has passed. -/
theorem exists_next_start (hspan : run.span < 2 ^ 32) {n : Nat} (hn : run.Starts n) :
    ∃ m, NextAfter run.Starts n m ∧ run.times n + run.wait n ≤ run.times m ∧
      (∀ k, n < k → k < m → run.times k < run.times n + run.wait n) ∧
      run.times m ≤ run.times (m - 1) + g := by
  obtain ⟨m, hlt, hpassed, hbefore, hnear⟩ := run.exists_first n (run.wait n)
  have hwait := run.wait_le n
  have hnone : ∀ j, j ≤ m → NoneBetween run.Starts n j := by
    intro j
    induction j with
    | zero => exact fun _ k _ hk => absurd hk (Nat.not_lt_zero k)
    | succ j ih =>
        intro hj k hnk hk hstarts
        rcases Nat.lt_succ_iff_lt_or_eq.mp hk with hkj | rfl
        · exact ih (by omega) k hnk hkj hstarts
        · have hshort := hbefore k hnk (by omega)
          have hdue := (starts_after_iff hn hnk (ih (by omega)) (by omega)).mp hstarts
          omega
  have hlate : run.times m < run.times n + 2 ^ 32 := by
    rcases Nat.lt_or_ge n (m - 1) with hfar | hclose
    · have := hbefore (m - 1) hfar (by omega)
      omega
    · have := run.monotone_times hclose
      omega
  exact ⟨m, ⟨hlt, (starts_after_iff hn hlt (hnone m le_rfl) hlate).mpr hpassed, hnone m le_rfl⟩,
    hpassed, hbefore, hnear⟩

/-- The next poll comes no more than a tick after its interval. -/
theorem exists_next_start_near (hspan : run.span < 2 ^ 32) {n : Nat} (hn : run.Starts n) :
    ∃ m, NextAfter run.Starts n m ∧ run.times m ≤ run.times n + run.wait n + g ∧
      (run.wait n ≠ 0 → run.times m < run.times n + run.wait n + g) ∧
      (run.wait n = 0 → m = n + 1) := by
  obtain ⟨m, hnext, hpassed, hbefore, hnear⟩ := exists_next_start hspan hn
  have hfirst : run.wait n = 0 → m = n + 1 := by
    intro hzero
    by_contra hne
    have hlt := hnext.1
    have hshort := hbefore (n + 1) (Nat.lt_succ_self n) (by omega)
    have hmono := run.later n
    omega
  have hprev : m - 1 = n ∨ run.times (m - 1) < run.times n + run.wait n := by
    have hlt := hnext.1
    rcases Nat.lt_or_ge n (m - 1) with hfar | hclose
    · exact .inr (hbefore (m - 1) hfar (by omega))
    · exact .inl (by omega)
  refine ⟨m, hnext, ?_, fun hwait => ?_, hfirst⟩
  · rcases hprev with heq | hshort
    · rw [heq] at hnear
      omega
    · omega
  · rcases hprev with heq | hshort
    · rw [heq] at hnear
      omega
    · omega

/-- Polls do not come sooner than their interval. -/
theorem le_times_of_starts (hspan : run.span < 2 ^ 32) {n m : Nat} (hn : run.Starts n)
    (hlt : n < m) (hm : run.Starts m) : run.times n + run.wait n ≤ run.times m := by
  obtain ⟨k, ⟨hnk, -, hnone⟩, hpassed, -, -⟩ := exists_next_start hspan hn
  have hkm : k ≤ m := by
    by_contra hmk
    exact hnone m hlt (by omega) hm
  exact hpassed.trans (monotone_times hkm)

/-! ## What a poll asks for -/

/-- After a failure it asks for everything. -/
theorem topics_of_failed {n m : Nat} (hn : run.Starts n) (hfailed : run.response n = none)
    (hnext : NextAfter run.Starts n m) : run.topics m = kAllTopics := by
  obtain ⟨hlt, hm, hnone⟩ := hnext
  have hdue := (planPoll_due _ _ _).mp ((run.starts_iff m).mp hm)
  unfold topics MultiViewerClient.plan planPoll
  rw [if_neg hdue, pollState_after hn hlt hnone, noted, hfailed]
  simp

theorem or_and_self (a b : UInt8) : (a ||| b) &&& b = b := by
  apply UInt8.toBitVec_inj.mp
  rw [UInt8.toBitVec_and, UInt8.toBitVec_or]
  ext i hi
  rw [BitVec.getElem_and, BitVec.getElem_or]
  cases b.toBitVec[i] <;> simp

/-- After a success it carries the slow topics once their interval has passed. -/
theorem carries_of_answered (hslow : run.timing.slowTopics ≠ 0)
    {n p m : Nat} (hn : run.Carries n) (hnp : n ≤ p) (hp : run.Starts p)
    (hanswered : run.response p ≠ none) (hnext : NextAfter run.Starts p m)
    (hnone : NoneBetween run.Carries n m)
    (hpassed : run.times n + run.timing.slowIntervalMs.toNat ≤ run.times m)
    (hnear : run.times m < run.times n + 2 ^ 32) : run.Carries m := by
  obtain ⟨hlt, hm, hfree⟩ := hnext
  have hdue := (planPoll_due _ _ _).mp ((run.starts_iff m).mp hm)
  have hstate := pollState_after hp hlt hfree
  have hlast : (run.client m).pollState.lastSlowPollMs = tick (run.times n) :=
    lastSlowPollMs_after hn (by omega) hnone
  have hconnected : ¬ (¬ (run.client m).pollState.everPolled = true ∨
      ¬ (run.client m).pollState.connected = true) := by
    rw [hstate, noted]
    simpa [Option.isSome_iff_ne_none] using hanswered
  have hlong : tick (run.times m) - tick (run.times n) ≥ run.timing.slowIntervalMs := by
    have hmono : run.times n ≤ run.times m := by omega
    have hiff := tick_sub_lt hmono hnear run.timing.slowIntervalMs rfl
    exact UInt32.not_lt.mp fun hshort => by
      have := hiff.mp hshort
      omega
  refine ⟨hm, ?_⟩
  unfold topics MultiViewerClient.plan planPoll
  rw [if_neg hdue, if_neg hconnected, config_timing, if_neg hslow, hlast, if_pos hlong]
  exact or_and_self _ _

/-- All polls from tick `n` on have succeeded until the slow topics are carried again. -/
def KeepsSucceeding (run : TickRun g) (n : Nat) : Prop :=
  ∀ k, n ≤ k → NoneBetween run.Carries n (k + 1) → run.Starts k → run.response k ≠ none

theorem wait_of_answered {n : Nat} (h : run.response n ≠ none) :
    run.wait n = run.timing.fastIntervalMs.toNat := by
  unfold wait dueMs
  rw [if_pos (Option.isSome_iff_ne_none.mpr h)]

/-- The time from `n` to `m` is less than both intervals and a tick.  Where neither interval
keeps a poll back, it is one tick. -/
def SoonAfter (run : TickRun g) (n m : Nat) : Prop :=
  run.times m - run.times n <
      run.timing.slowIntervalMs.toNat + run.timing.fastIntervalMs.toNat + g ∨
    run.timing.slowIntervalMs = 0 ∧ run.timing.fastIntervalMs = 0 ∧
      run.times m - run.times n ≤ g

/-- The first poll at which the slow interval has passed is soon after `n`. -/
theorem soonAfter_of_answered {n late p m : Nat} (hnp : n ≤ p) (hplate : p < late)
    (hbefore : ∀ k, n < k → k < late →
      run.times k < run.times n + run.timing.slowIntervalMs.toNat)
    (hlate : run.timing.slowIntervalMs.toNat = 0 → late = n + 1)
    (hwait : run.wait p = run.timing.fastIntervalMs.toNat)
    (hnear : run.times m ≤ run.times p + run.wait p + g)
    (hnearer : run.wait p ≠ 0 → run.times m < run.times p + run.wait p + g) :
    run.SoonAfter n m := by
  unfold SoonAfter
  rw [← UInt32.toNat_inj, ← UInt32.toNat_inj, UInt32.toNat_zero]
  rcases Nat.eq_zero_or_pos run.timing.slowIntervalMs.toNat with hslow | hslow
  · have hlate := hlate hslow
    obtain rfl : p = n := by omega
    rcases Nat.eq_zero_or_pos (run.wait p) with hzero | hpos
    · exact .inr ⟨hslow, by omega, by omega⟩
    · have := hnearer (by omega)
      exact .inl (by omega)
  · have hp : run.times p < run.times n + run.timing.slowIntervalMs.toNat := by
      rcases Nat.eq_or_lt_of_le hnp with rfl | hlt
      · omega
      · exact hbefore p hlt hplate
    exact .inl (by omega)

/-- As long as polls succeed, the slow topics are carried again soon. -/
theorem exists_carries (hspan : run.span < 2 ^ 32) (hslow : run.timing.slowTopics ≠ 0)
    {n : Nat} (hn : run.Carries n) (hsucceeds : run.KeepsSucceeding n) :
    ∃ m, NextAfter run.Carries n m ∧ run.SoonAfter n m := by
  obtain ⟨late, hlate, hpassed, hbefore, -⟩ :=
    run.exists_first n run.timing.slowIntervalMs.toNat
  by_cases hearly : ∃ k, n < k ∧ k < late ∧ run.Carries k
  · obtain ⟨k, hnk, hk, hcarries⟩ := hearly
    obtain ⟨m, hmk, hnext⟩ := exists_next hcarries hnk
    have hshort := hbefore m hnext.1 (by omega)
    have hmono := run.monotone_times hnext.1.le
    exact ⟨m, hnext, .inl (by omega)⟩
  · have hnone : NoneBetween run.Carries n late := fun k hnk hk hcarries =>
      hearly ⟨k, hnk, hk, hcarries⟩
    obtain ⟨p, hnp, hplate, hp, hfreep⟩ := exists_last hn.1 hlate
    have hanswered : run.response p ≠ none :=
      hsucceeds p hnp (fun k hnk hk => hnone k hnk (by omega)) hp
    have hwait := wait_of_answered hanswered
    obtain ⟨m, hnext, hnear, hnearer, -⟩ := exists_next_start_near hspan hp
    -- no poll starts between `p` and `late`, so the next one comes late enough
    have hlatem : late ≤ m := by
      by_contra hm
      exact hfreep m hnext.1 (by omega) hnext.2.1
    have hfree : NoneBetween run.Carries n m := by
      intro k hnk hkm hcarries
      rcases Nat.lt_or_ge k late with hk | hk
      · exact hnone k hnk hk hcarries
      · exact hnext.2.2 k (by omega) hkm hcarries.1
    have hfirst : run.timing.slowIntervalMs.toNat = 0 → late = n + 1 := by
      intro hzero
      by_contra hne
      have hshort := hbefore (n + 1) (Nat.lt_succ_self n) (by omega)
      have hlater := run.later n
      omega
    have hsoon := soonAfter_of_answered hnp hplate hbefore hfirst hwait hnear hnearer
    have hmono := run.monotone_times hlatem
    have hmn : run.times m < run.times n + 2 ^ 32 := by
      unfold span at hspan
      unfold SoonAfter at hsoon
      omega
    have hcarries := carries_of_answered hslow hn hnp hp hanswered hnext hfree
      (by omega) hmn
    exact ⟨m, ⟨by omega, hcarries, hfree⟩, hsoon⟩

/-! ## The schedule -/

/-- The polls neither hammer nor starve.  Behind a success and behind a failure no poll starts
before its interval is over; one starts within a tick of it; and while polls keep succeeding
the slow topics come round in time. -/
structure Scheduled (run : TickRun g) : Prop where
  afterSuccess : ∀ n, run.Starts n → run.response n ≠ none →
    (∀ m, n < m → run.Starts m →
      run.times n + run.timing.fastIntervalMs.toNat ≤ run.times m) ∧
    ∃ m, n < m ∧ run.Starts m ∧
      run.times m ≤ run.times n + run.timing.fastIntervalMs.toNat + g
  afterFailure : ∀ n, run.Starts n → run.response n = none →
    (∀ m, n < m → run.Starts m → run.times n + run.timing.backoffMs.toNat ≤ run.times m) ∧
    ∃ m, NextAfter run.Starts n m ∧ run.topics m = kAllTopics
  slowTopics : ∀ n, run.Carries n → run.KeepsSucceeding n →
    ∃ m, NextAfter run.Carries n m ∧ run.SoonAfter n m

theorem wait_of_failed {n : Nat} (h : run.response n = none) :
    run.wait n = run.timing.backoffMs.toNat := by
  unfold wait dueMs
  rw [h]
  rfl

/-- With any intervals, and over any stretch of time, polls start no sooner than their
interval and no later than a tick behind it, and the slow topics are carried in time. -/
theorem scheduled (run : TickRun g) (hslow : run.timing.slowTopics ≠ 0)
    (hspan : run.span < 2 ^ 32) : run.Scheduled := by
  constructor
  · intro n hn hanswered
    have hwait := wait_of_answered hanswered
    constructor
    · intro m hlt hm
      exact hwait ▸ le_times_of_starts hspan hn hlt hm
    · obtain ⟨m, hnext, hnear, -, -⟩ := exists_next_start_near hspan hn
      exact ⟨m, hnext.1, hnext.2.1, hwait ▸ hnear⟩
  · intro n hn hfailed
    have hwait := wait_of_failed hfailed
    constructor
    · intro m hlt hm
      exact hwait ▸ le_times_of_starts hspan hn hlt hm
    · obtain ⟨m, hnext, -, -, -⟩ := exists_next_start_near hspan hn
      exact ⟨m, hnext, topics_of_failed hn hfailed hnext⟩
  · intro n hn hsucceeds
    exact exists_carries hspan hslow hn hsucceeds

/-! ### Ticks a second apart -/

/-- No interval keeps a poll back. -/
def restless : PollTiming := ⟨0, 0, 5000, kTrackStatus, kDriverList⟩

/-- Every poll succeeds. -/
def answeredClient : Nat → MultiViewerClient
  | 0 => { MultiViewerClient.initial 4096 ⟨restless, false, 8000⟩ with host := 1 }
  | n + 1 => (answeredClient n).call (.poll (tick (1000 * n)) (some (ascii "\x7b\x7d")))

def answered : TickRun 1000 where
  client := answeredClient
  times n := 1000 * n
  response _ := some (ascii "\x7b\x7d")
  host := by decide
  bufferCap := by decide
  step n := MultiViewerClient.SameButSocket.refl _
  later n := by omega
  near n := by omega
  unbounded t := ⟨t, by omega⟩

/-- Without intervals every tick carries the slow topics, a whole tick apart. -/
theorem a_whole_tick_apart :
    answered.timing.slowTopics ≠ 0 ∧ answered.span < 2 ^ 32 ∧
      answered.KeepsSucceeding 0 ∧ answered.Carries 0 ∧ NextAfter answered.Carries 0 1 ∧
      ¬ answered.times 1 - answered.times 0 <
        answered.timing.slowIntervalMs.toNat + answered.timing.fastIntervalMs.toNat + 1000 := by
  refine ⟨by decide, by decide, ?_, by decide +kernel, ⟨by decide, by decide +kernel, ?_⟩,
    by decide⟩
  · intro k _ _ _ hnone
    cases hnone
  · intro k hk hk1
    omega

theorem scheduled_answered :
    answered.timing.slowTopics ≠ 0 ∧ answered.span < 2 ^ 32 ∧ answered.Scheduled :=
  ⟨by decide, by decide, scheduled answered (by decide) (by decide)⟩

end TickRun

end MatrixFaces.Net.Mv
