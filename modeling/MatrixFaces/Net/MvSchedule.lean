import MatrixFaces.Foundation.Bytes

set_option autoImplicit false

/-!
# When to poll and what to ask for (`src/net/mv_schedule.cpp`)

`planPoll` says whether a poll is due and which topics it asks for, from two timestamps and two
flags; `planPoll_due` is when it is.  `buildQuery` is the request's body: where it answers it
fits with its terminator (`length_buildQuery`), and in the client's array it answers for every
set of topics but the empty one (`buildQuery_isSome_iff`).
-/

namespace MatrixFaces.Net.Mv

open MatrixFaces.Foundation

/-! ## The schedule -/

def kTrackStatus : UInt8 := 0x01
def kLapCount : UInt8 := 0x02
def kDriverList : UInt8 := 0x04
def kRaceControlMessages : UInt8 := 0x08

def kAllTopics : UInt8 := kTrackStatus ||| kLapCount ||| kDriverList ||| kRaceControlMessages

structure PollTiming where
  fastIntervalMs : UInt32
  slowIntervalMs : UInt32
  backoffMs : UInt32
  fastTopics : UInt8
  slowTopics : UInt8
  deriving DecidableEq, Repr

structure PollState where
  everPolled : Bool
  connected : Bool
  lastPollMs : UInt32
  lastSlowPollMs : UInt32
  deriving DecidableEq, Repr

structure PollPlan where
  due : Bool
  topics : UInt8
  deriving DecidableEq, Repr

/-- How long after the last poll the next one is due. -/
def dueMs (timing : PollTiming) (connected : Bool) : UInt32 :=
  if connected then timing.fastIntervalMs else timing.backoffMs

def planPoll (timing : PollTiming) (state : PollState) (nowMs : UInt32) : PollPlan :=
  if state.everPolled ∧ nowMs - state.lastPollMs < dueMs timing state.connected then ⟨false, 0⟩
  else if ¬ state.everPolled ∨ ¬ state.connected then ⟨true, kAllTopics⟩
  else if timing.slowTopics = 0 then ⟨true, timing.fastTopics⟩
  else if nowMs - state.lastSlowPollMs ≥ timing.slowIntervalMs then
    ⟨true, timing.fastTopics ||| timing.slowTopics⟩
  else ⟨true, timing.fastTopics⟩

/-- Whether a poll is due does not depend on when the slow topics were asked for. -/
theorem planPoll_due (timing : PollTiming) (state : PollState) (nowMs : UInt32) :
    (planPoll timing state nowMs).due = true ↔
      ¬ (state.everPolled ∧ nowMs - state.lastPollMs < dueMs timing state.connected) := by
  rw [planPoll]
  split
  · rename_i hwait
    exact iff_of_false Bool.false_ne_true (not_not.mpr hwait)
  · rename_i hdue
    refine iff_of_true ?_ hdue
    split_ifs <;> rfl

/-! ## The query -/

/-- `kTopicNames`. -/
def kTopicNames : List (UInt8 × Bytes) :=
  [(kTrackStatus, ascii "TrackStatus"), (kLapCount, ascii "LapCount"),
    (kDriverList, ascii "DriverList"), (kRaceControlMessages, ascii "RaceControlMessages")]

def kPrefix : Bytes := ascii "\x7b\"query\":\"\x7bf1LiveTimingState\x7b"

def kSuffix : Bytes := ascii "\x7d\x7d\"\x7d"

/-- The loop of `buildQuery` over the names, with what is in `out` so far. -/
def addTopics (topics : UInt8) (cap : Nat) : List (UInt8 × Bytes) → Bool → Bytes → Option Bytes
  | [], _, out => some out
  | (bit, field) :: names, first, out =>
      if topics &&& bit = 0 then addTopics topics cap names first out
      else
        let needed := field.length + if first then 0 else 1
        if out.length + needed + kSuffix.length + 1 > cap then none
        else addTopics topics cap names false (out ++ (if first then [] else [0x20]) ++ field)

/-- `buildQuery`; `none` is the source's 0. -/
def buildQuery (topics : UInt8) (cap : Nat) : Option Bytes :=
  if topics = 0 then none
  else if cap < kPrefix.length + kSuffix.length + 1 then none
  else (addTopics topics cap kTopicNames true kPrefix).map (· ++ kSuffix)

theorem length_addTopics {topics : UInt8} {cap : Nat} {names : List (UInt8 × Bytes)} {first : Bool}
    {out query : Bytes} (hout : out.length + kSuffix.length + 1 ≤ cap)
    (h : addTopics topics cap names first out = some query) :
    query.length + kSuffix.length + 1 ≤ cap := by
  induction names generalizing first out with
  | nil =>
      cases h
      exact hout
  | cons name names ih =>
      obtain ⟨bit, field⟩ := name
      rw [addTopics] at h
      by_cases hbit : topics &&& bit = 0
      · rw [if_pos hbit] at h
        exact ih hout h
      · rw [if_neg hbit] at h
        by_cases hover :
            out.length + (field.length + if first then 0 else 1) + kSuffix.length + 1 > cap
        · rw [if_pos hover] at h
          cases h
        · rw [if_neg hover] at h
          refine ih ?_ h
          cases first <;> simp at hover ⊢ <;> omega

/-- A query and its terminator fit where they are written. -/
theorem length_buildQuery {topics : UInt8} {cap : Nat} {query : Bytes}
    (h : buildQuery topics cap = some query) : query.length < cap := by
  rw [buildQuery] at h
  split at h
  · cases h
  · split at h
    · cases h
    · rename_i hcap
      obtain ⟨topicsText, htopics, rfl⟩ := Option.map_eq_some_iff.mp h
      have hlength := length_addTopics (by omega) htopics
      rw [List.length_append]
      omega

/-- Every mask but the empty one has a query that fits the client's array. -/
theorem buildQuery_isSome_iff :
    ∀ topics : UInt8, (buildQuery topics 160).isSome ↔ topics ≠ 0 :=
  byte_forall (by decide +kernel)

example : buildQuery (kTrackStatus ||| kLapCount) 160 =
    some (ascii "\x7b\"query\":\"\x7bf1LiveTimingState\x7bTrackStatus LapCount\x7d\x7d\"\x7d") := by
  decide +kernel

end MatrixFaces.Net.Mv
