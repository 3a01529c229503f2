import MatrixFaces.Foundation.WrappedSum

set_option autoImplicit false

/-!
# The timing counters (`board/metrics_counters.h`)

All counters are words of 32 bits and go round; only the rates of a window are taken in 64.

`CounterCall` is a call of the counters, `requestsOf` and `authsOf` are the durations that a
list of calls recorded, and `ReportsMeans` says of a snapshot that its averages and maxima
are theirs.

The main result is `averages_right_iff`: from construction on, whatever else is called in
between, the averages are right exactly as long as the durations of the requests, and those
of the authentications, sum to less than `2 ^ 32`.  `begin` and `tick` reset no total.
`average_of_seconds` is a little more than an hour of requests of a second each.
-/

namespace MatrixFaces.Board

open MatrixFaces.Foundation

/-- `Snapshot`, as far as the counters fill it. -/
structure Snapshot where
  loopHz : UInt32
  busyPermille : UInt32
  requests : UInt32
  requestAvgMicros : UInt32
  requestMaxMicros : UInt32
  authAvgMicros : UInt32
  authMaxMicros : UInt32
  deriving DecidableEq, Repr

/-- `Counters`. -/
structure Counters where
  windowStartMicros : UInt32
  loops : UInt32
  busyMicros : UInt32
  loopHz : UInt32
  busyPermille : UInt32
  requests : UInt32
  requestTotalMicros : UInt32
  requestMaxMicros : UInt32
  auths : UInt32
  authTotalMicros : UInt32
  authMaxMicros : UInt32
  deriving DecidableEq, Repr

def kWindowMicros : UInt32 := 1000000

namespace Counters

/-- The counters as they are constructed. -/
def zero : Counters := ⟨0, 0, 0, 0, 0, 0, 0, 0, 0, 0, 0⟩

/-- `begin`. -/
def beginAt (counters : Counters) (nowMicros : UInt32) : Counters :=
  { counters with windowStartMicros := nowMicros }

/-- `markLoop`. -/
def markLoop (counters : Counters) : Counters := { counters with loops := counters.loops + 1 }

/-- `recordRequest`. -/
def recordRequest (counters : Counters) (elapsedMicros : UInt32) : Counters :=
  { counters with
    requests := counters.requests + 1
    requestTotalMicros := counters.requestTotalMicros + elapsedMicros
    busyMicros := counters.busyMicros + elapsedMicros
    requestMaxMicros := max counters.requestMaxMicros elapsedMicros }

/-- `recordAuth`. -/
def recordAuth (counters : Counters) (elapsedMicros : UInt32) : Counters :=
  { counters with
    auths := counters.auths + 1
    authTotalMicros := counters.authTotalMicros + elapsedMicros
    authMaxMicros := max counters.authMaxMicros elapsedMicros }

/-- Whether a `tick` closes the window. -/
def closes (counters : Counters) (nowMicros : UInt32) : Bool :=
  kWindowMicros ≤ nowMicros - counters.windowStartMicros

/-- `tick`. -/
def tick (counters : Counters) (nowMicros : UInt32) : Counters :=
  let elapsed := nowMicros - counters.windowStartMicros
  if elapsed < kWindowMicros then counters
  else
    { counters with
      loopHz := (counters.loops.toUInt64 * 1000000 / elapsed.toUInt64).toUInt32
      busyPermille := (counters.busyMicros.toUInt64 * 1000 / elapsed.toUInt64).toUInt32
      loops := 0
      busyMicros := 0
      windowStartMicros := nowMicros }

/-- `fill`. -/
def fill (counters : Counters) : Snapshot where
  loopHz := counters.loopHz
  busyPermille := counters.busyPermille
  requests := counters.requests
  requestAvgMicros :=
    if counters.requests ≠ 0 then counters.requestTotalMicros / counters.requests else 0
  requestMaxMicros := counters.requestMaxMicros
  authAvgMicros := if counters.auths ≠ 0 then counters.authTotalMicros / counters.auths else 0
  authMaxMicros := counters.authMaxMicros

end Counters

/-! ## Runs -/

/-- A call of one of the methods. -/
inductive CounterCall where
  | beginAt (nowMicros : UInt32)
  | markLoop
  | recordRequest (elapsedMicros : UInt32)
  | recordAuth (elapsedMicros : UInt32)
  | tick (nowMicros : UInt32)
  deriving DecidableEq, Repr

namespace CounterCall

def run (counters : Counters) : CounterCall → Counters
  | .beginAt nowMicros => counters.beginAt nowMicros
  | .markLoop => counters.markLoop
  | .recordRequest elapsedMicros => counters.recordRequest elapsedMicros
  | .recordAuth elapsedMicros => counters.recordAuth elapsedMicros
  | .tick nowMicros => counters.tick nowMicros

/-- The duration of a request that was recorded. -/
def request? : CounterCall → Option UInt32
  | .recordRequest elapsedMicros => some elapsedMicros
  | _ => none

/-- The duration of a verification that was recorded. -/
def auth? : CounterCall → Option UInt32
  | .recordAuth elapsedMicros => some elapsedMicros
  | _ => none

end CounterCall

namespace Counters

/-- The counters after some calls. -/
def after (counters : Counters) (calls : List CounterCall) : Counters :=
  calls.foldl CounterCall.run counters

/-- What three of the counters make of the durations recorded. -/
structure Sums where
  count : UInt32
  total : UInt32
  highest : UInt32

def Sums.record (sums : Sums) (elapsedMicros : UInt32) : Sums :=
  ⟨sums.count + 1, sums.total + elapsedMicros, max sums.highest elapsedMicros⟩

/-- The counters of requests. -/
def requestSums (counters : Counters) : Sums :=
  ⟨counters.requests, counters.requestTotalMicros, counters.requestMaxMicros⟩

/-- The counters of verifications. -/
def authSums (counters : Counters) : Sums :=
  ⟨counters.auths, counters.authTotalMicros, counters.authMaxMicros⟩

theorem sums_run (counters : Counters) (call : CounterCall) :
    (call.run counters).requestSums =
        call.request?.toList.foldl Sums.record counters.requestSums ∧
      (call.run counters).authSums = call.auth?.toList.foldl Sums.record counters.authSums := by
  cases call with
  | beginAt nowMicros => exact ⟨rfl, rfl⟩
  | markLoop => exact ⟨rfl, rfl⟩
  | recordRequest elapsedMicros => exact ⟨rfl, rfl⟩
  | recordAuth elapsedMicros => exact ⟨rfl, rfl⟩
  | tick nowMicros =>
      simp only [CounterCall.run, tick]
      split <;> exact ⟨rfl, rfl⟩

/-- Each group of counters sees the durations recorded for it, in order, and nothing else. -/
theorem sums_after (counters : Counters) (calls : List CounterCall) :
    (counters.after calls).requestSums =
        (calls.filterMap CounterCall.request?).foldl Sums.record counters.requestSums ∧
      (counters.after calls).authSums =
        (calls.filterMap CounterCall.auth?).foldl Sums.record counters.authSums := by
  induction calls generalizing counters with
  | nil => exact ⟨rfl, rfl⟩
  | cons call rest ih =>
      obtain ⟨hrequest, hauth⟩ := sums_run counters call
      obtain ⟨hrequestRest, hauthRest⟩ := ih (call.run counters)
      rw [after, List.foldl_cons, ← after, hrequestRest, hauthRest, hrequest, hauth,
        ← List.foldl_append, ← List.foldl_append, List.filterMap_cons, List.filterMap_cons]
      cases call <;> exact ⟨rfl, rfl⟩

theorem foldl_record (sums : Sums) (durations : List UInt32) :
    durations.foldl Sums.record sums =
      ⟨sums.count + UInt32.ofNat durations.length, durations.foldl (· + ·) sums.total,
        durations.foldl max sums.highest⟩ := by
  induction durations generalizing sums with
  | nil => simp
  | cons duration rest ih =>
      rw [List.foldl_cons, ih, Sums.record, List.length_cons, List.foldl_cons, List.foldl_cons,
        UInt32.add_assoc, UInt32.ofNat_add, UInt32.add_comm 1]
      rfl

/-- The average that `fill` takes. -/
def Sums.average (sums : Sums) : UInt32 := if sums.count ≠ 0 then sums.total / sums.count else 0

theorem fill_averages (counters : Counters) :
    counters.fill.requestAvgMicros = counters.requestSums.average ∧
      counters.fill.authAvgMicros = counters.authSums.average := ⟨rfl, rfl⟩

/-- The counters of durations recorded from zero on, fewer than their range. -/
theorem sums_of_durations {durations : List UInt32} (h : durations.length < 2 ^ 32) :
    (durations.foldl Sums.record ⟨0, 0, 0⟩).average.toNat =
        (values durations).sum % 2 ^ 32 / durations.length ∧
      (durations.foldl Sums.record ⟨0, 0, 0⟩).highest.toNat = highest durations := by
  have htotal := toNat_foldl_add durations 0
  have hcount := toNat_count durations.length h
  rw [UInt32.toNat_zero, Nat.zero_add] at htotal
  rw [foldl_record]
  refine ⟨?_, toNat_foldl_max durations 0⟩
  simp only [Sums.average, UInt32.zero_add]
  split
  · rw [UInt32.toNat_div, htotal, hcount]
  · rename_i hzero
    have hlength : durations.length = 0 := by
      rw [ne_eq, not_not] at hzero
      rw [← hcount, hzero]
      rfl
    rw [hlength, Nat.div_zero]
    rfl

/-! ## Averages -/

/-- The durations of the requests that were recorded. -/
def requestsOf (calls : List CounterCall) : List UInt32 := calls.filterMap CounterCall.request?

/-- The durations of the verifications that were recorded. -/
def authsOf (calls : List CounterCall) : List UInt32 := calls.filterMap CounterCall.auth?

/-- The averages are the means of the durations, and the maxima their maxima, over all calls and
not only those of a window. -/
structure ReportsMeans (snapshot : Snapshot) (calls : List CounterCall) : Prop where
  requestAvg : snapshot.requestAvgMicros.toNat = mean (requestsOf calls)
  authAvg : snapshot.authAvgMicros.toNat = mean (authsOf calls)
  requestMax : snapshot.requestMaxMicros.toNat = highest (requestsOf calls)
  authMax : snapshot.authMaxMicros.toNat = highest (authsOf calls)

/-- What is reported after some calls. -/
theorem fill_after {calls : List CounterCall}
    (h : (requestsOf calls).length + (authsOf calls).length < 2 ^ 32) :
    let snapshot := (zero.after calls).fill
    (snapshot.requestAvgMicros.toNat =
        (values (requestsOf calls)).sum % 2 ^ 32 / (requestsOf calls).length ∧
      snapshot.authAvgMicros.toNat =
        (values (authsOf calls)).sum % 2 ^ 32 / (authsOf calls).length) ∧
      snapshot.requestMaxMicros.toNat = highest (requestsOf calls) ∧
      snapshot.authMaxMicros.toNat = highest (authsOf calls) := by
  intro snapshot
  obtain ⟨hrequestSums, hauthSums⟩ := sums_after zero calls
  obtain ⟨hrequestAvg, hauthAvg⟩ := (zero.after calls).fill_averages
  obtain ⟨hrequests, hrequestsHighest⟩ := sums_of_durations
    (show (requestsOf calls).length < 2 ^ 32 by omega)
  obtain ⟨hauths, hauthsHighest⟩ := sums_of_durations
    (show (authsOf calls).length < 2 ^ 32 by omega)
  refine ⟨⟨?_, ?_⟩, ?_, ?_⟩
  · rw [hrequestAvg, hrequestSums]
    exact hrequests
  · rw [hauthAvg, hauthSums]
    exact hauths
  · exact (congrArg (fun sums => sums.highest.toNat) hrequestSums).trans hrequestsHighest
  · exact (congrArg (fun sums => sums.highest.toNat) hauthSums).trans hauthsHighest

/-- The reported averages are the means exactly as long as neither total has left its word.
The totals run from the construction of the counters; no call takes them back. -/
theorem averages_right_iff (calls : List CounterCall)
    (h : (requestsOf calls).length + (authsOf calls).length < 2 ^ 32) :
    ReportsMeans (zero.after calls).fill calls ↔
      (values (requestsOf calls)).sum < 2 ^ 32 ∧ (values (authsOf calls)).sum < 2 ^ 32 := by
  obtain ⟨⟨hrequestAvg, hauthAvg⟩, hrequestMax, hauthMax⟩ := fill_after h
  have hrequests := wrapped_mean_iff (show (requestsOf calls).length < 2 ^ 32 by omega)
  have hauths := wrapped_mean_iff (show (authsOf calls).length < 2 ^ 32 by omega)
  rw [← hrequests, ← hauths, ← hrequestAvg, ← hauthAvg]
  constructor
  · exact fun hmeans => ⟨hmeans.requestAvg, hmeans.authAvg⟩
  · exact fun hmeans => ⟨hmeans.1, hmeans.2, hrequestMax, hauthMax⟩

theorem averages_right_iff_two :
    ReportsMeans (zero.after [.recordRequest 10, .tick 5, .recordRequest 15]).fill
      [.recordRequest 10, .tick 5, .recordRequest 15] :=
  (averages_right_iff [.recordRequest 10, .tick 5, .recordRequest 15] (by decide)).mpr
    (by decide)

/-- A little more than an hour in requests of one second each: the average says seven
microseconds. -/
theorem average_of_seconds :
    let calls := List.replicate 4295 (CounterCall.recordRequest 1000000)
    (requestsOf calls).length + (authsOf calls).length < 2 ^ 32 ∧
      (zero.after calls).fill.requestAvgMicros = 7 ∧ mean (requestsOf calls) = 1000000 ∧
      ¬ ReportsMeans (zero.after calls).fill calls := by
  intro calls
  have hrequests : requestsOf calls = List.replicate 4295 1000000 :=
    List.filterMap_replicate_of_some rfl
  have hauths : authsOf calls = [] := List.filterMap_replicate_of_none rfl
  have hsum : (values (List.replicate 4295 1000000)).sum = 4295 * 1000000 :=
    sum_values_replicate 4295 1000000
  have hfew : (requestsOf calls).length + (authsOf calls).length < 2 ^ 32 := by
    rw [hrequests, hauths, List.length_replicate]
    decide
  have havg : (zero.after calls).fill.requestAvgMicros.toNat = 7 := by
    rw [(fill_after hfew).1.1, hrequests, List.length_replicate, hsum]
    rfl
  have hmean : mean (requestsOf calls) = 1000000 := by
    rw [hrequests, mean, hsum, List.length_replicate]
  refine ⟨hfew, UInt32.toNat_inj.mp havg, hmean, fun hmeans => ?_⟩
  have heq := hmeans.requestAvg
  rw [havg, hmean] at heq
  exact absurd heq (by decide)

end Counters

end MatrixFaces.Board
