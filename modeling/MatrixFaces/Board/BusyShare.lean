import Mathlib.Tactic.Ring
import MatrixFaces.Board.MetricsCounters
import MatrixFaces.Foundation.Clock32
import MatrixFaces.Foundation.Machine

set_option autoImplicit false

/-!
# The busy share of a window (`board/metrics_counters.h`)

Requests run one after another and are counted when they end; another task may close the
window at any time.  A request that was under way when a window opened is counted in it with
all the time it took, the time before the window included.

`Timeline` is the device over real time with the counters beside it.  `Consistent` is what
every step keeps: the busy total is what the requests that ended in the window took, modulo
`2 ^ 32`, and that is the part they took before the window and the part they took in it.

The main result is `busy_share_iff`, over every interleaving: the share is never above a
thousand exactly if every window that closes is `WithinWindow`, that is if what was carried
into it fits in the time in which no request ran, but for less than a thousandth of the window,
or if the two parts together pass the word and the total has gone round.  Where no window
closes while a request is under way nothing is carried (`withinWindow_of_turns`).
`busy_share_exceeded` is a window with 2400.
-/

namespace MatrixFaces.Board

open MatrixFaces.Foundation

/-- The device over time.  `opened` is when the current window opened, and `ended` the
requests that ended in it, each with its first and last microsecond. -/
structure Timeline where
  nowMicros : Nat
  /-- When the request under way began. -/
  running : Option Nat
  counters : Counters
  opened : Nat
  ended : List (Nat × Nat)

/-- What happens next. -/
inductive TimelineAction where
  | pass (micros : Nat)
  | beginRequest
  | endRequest
  | tick
  deriving DecidableEq

namespace Timeline

/-- Behind `begin`. -/
def begun (startMicros : Nat) : Timeline :=
  ⟨startMicros, none, Counters.zero.beginAt (Clock32.tick startMicros), startMicros, []⟩

/-- One step.  No request and no window is longer than the range of the clock. -/
def step (timeline : Timeline) : TimelineAction → Option Timeline
  | .pass micros => some { timeline with nowMicros := timeline.nowMicros + micros }
  | .beginRequest =>
      match timeline.running with
      | none => some { timeline with running := some timeline.nowMicros }
      | some _ => none
  | .endRequest =>
      match timeline.running with
      | none => none
      | some began =>
          if timeline.nowMicros - began ≤ 2 ^ 32 then
            some { timeline with
              running := none
              counters :=
                timeline.counters.recordRequest (UInt32.ofNat (timeline.nowMicros - began))
              ended := timeline.ended ++ [(began, timeline.nowMicros)] }
          else none
  | .tick =>
      if timeline.nowMicros - timeline.opened ≤ 2 ^ 32 then
        let counters := timeline.counters.tick (Clock32.tick timeline.nowMicros)
        if timeline.counters.closes (Clock32.tick timeline.nowMicros) then
          some { timeline with counters := counters, opened := timeline.nowMicros, ended := [] }
        else some { timeline with counters := counters }
      else none

def machine : Machine Timeline TimelineAction where
  start timeline := ∃ startMicros, timeline = begun startMicros
  step := step

/-! ## Where the time of a window goes -/

/-- How long the window has been open. -/
def span (timeline : Timeline) : Nat := timeline.nowMicros - timeline.opened

/-- The time that the requests that ended in the window took, as a whole. -/
def taken (timeline : Timeline) : Nat :=
  (timeline.ended.map fun request => request.2 - request.1).sum

/-- The part of it in front of the window. -/
def carried (timeline : Timeline) : Nat :=
  (timeline.ended.map fun request => timeline.opened - request.1).sum

/-- The part of it in the window. -/
def inside (timeline : Timeline) : Nat :=
  (timeline.ended.map fun request => request.2 - max request.1 timeline.opened).sum

/-- What holds whenever nothing is happening.  The time that the requests of a window took is
what they took before it (`carried`) and in it (`inside`), and the counter has it modulo its
word. -/
structure Consistent (timeline : Timeline) : Prop where
  windowStart : timeline.counters.windowStartMicros = Clock32.tick timeline.opened
  opened_le : timeline.opened ≤ timeline.nowMicros
  began_le : ∀ began ∈ timeline.running, began ≤ timeline.nowMicros
  /-- Only the first request of a window can have begun before it. -/
  began_inside : timeline.ended ≠ [] → ∀ began ∈ timeline.running, timeline.opened ≤ began
  busy : timeline.counters.busyMicros.toNat = timeline.taken % 2 ^ 32
  taken_eq : timeline.taken = timeline.carried + timeline.inside
  carried_le : timeline.carried ≤ 2 ^ 32
  inside_le : timeline.inside ≤ timeline.running.getD timeline.nowMicros - timeline.opened

/-- What is reported is a share, that is not more than a thousand thousandths. -/
def IsShare (timeline : Timeline) : Prop := timeline.counters.fill.busyPermille ≤ 1000

instance (timeline : Timeline) : Decidable timeline.IsShare :=
  inferInstanceAs (Decidable (_ ≤ _))

theorem consistent_begun (startMicros : Nat) : (begun startMicros).Consistent where
  windowStart := rfl
  opened_le := Nat.le_refl _
  began_le := by simp [begun]
  began_inside := fun h => absurd rfl h
  busy := rfl
  taken_eq := rfl
  carried_le := Nat.zero_le _
  inside_le := Nat.zero_le _

/-- The counters after a tick that closes the window. -/
theorem tick_of_closes {counters : Counters} {nowMicros : UInt32}
    (h : counters.closes nowMicros = true) :
    (counters.tick nowMicros).busyPermille.toNat =
        counters.busyMicros.toNat * 1000 / (nowMicros - counters.windowStartMicros).toNat ∧
      (counters.tick nowMicros).busyMicros = 0 ∧
      (counters.tick nowMicros).windowStartMicros = nowMicros := by
  rw [Counters.closes, decide_eq_true_eq] at h
  have hnot : ¬ nowMicros - counters.windowStartMicros < kWindowMicros := UInt32.not_lt.mpr h
  rw [Counters.tick, if_neg hnot]
  refine ⟨?_, rfl, rfl⟩
  have hbusy := counters.busyMicros.toNat_lt
  have hquotient : counters.busyMicros.toNat * 1000 /
      (nowMicros - counters.windowStartMicros).toNat < 2 ^ 32 := by
    have hlong : 1000000 ≤ (nowMicros - counters.windowStartMicros).toNat :=
      UInt32.le_iff_toNat_le.mp h
    rw [Nat.div_lt_iff_lt_mul (by omega)]
    calc counters.busyMicros.toNat * 1000 < 2 ^ 32 * 1000000 := by omega
      _ ≤ 2 ^ 32 * (nowMicros - counters.windowStartMicros).toNat :=
          Nat.mul_le_mul_left _ hlong
  rw [UInt64.toNat_toUInt32, UInt64.toNat_div, UInt64.toNat_mul, UInt32.toNat_toUInt64,
    UInt32.toNat_toUInt64]
  rw [show (1000 : UInt64).toNat = 1000 from rfl, Nat.mod_eq_of_lt (by omega : _ * 1000 < 2 ^ 64),
    Nat.mod_eq_of_lt hquotient]

theorem tick_of_not_closes {counters : Counters} {nowMicros : UInt32}
    (h : ¬ counters.closes nowMicros = true) : counters.tick nowMicros = counters := by
  rw [Counters.closes, decide_eq_true_eq, UInt32.not_le] at h
  rw [Counters.tick, if_pos h]

/-- The clock shows the span of a window that is closed. -/
theorem Consistent.elapsed {timeline : Timeline} (h : timeline.Consistent)
    (hspan : timeline.span ≤ 2 ^ 32)
    (hcloses : timeline.counters.closes (Clock32.tick timeline.nowMicros) = true) :
    (Clock32.tick timeline.nowMicros - timeline.counters.windowStartMicros).toNat =
      timeline.span ∧ 1000000 ≤ timeline.span ∧ timeline.span < 2 ^ 32 := by
  rw [Counters.closes, decide_eq_true_eq] at hcloses
  have hlong := UInt32.le_iff_toNat_le.mp hcloses
  rw [h.windowStart, Clock32.tick_sub_toNat_of_le h.opened_le] at hlong ⊢
  rw [span] at *
  have hwindow : kWindowMicros.toNat = 1000000 := rfl
  rw [hwindow] at hlong
  omega

theorem Consistent.inside_le_span {timeline : Timeline} (h : timeline.Consistent) :
    timeline.inside ≤ timeline.span := by
  have hinside := h.inside_le
  have hbegan := h.began_le
  rw [span]
  cases hrunning : timeline.running with
  | none =>
      rw [hrunning] at hinside
      exact hinside
  | some began =>
      rw [hrunning] at hinside hbegan
      have hle := hbegan began rfl
      simp only [Option.getD_some] at hinside
      omega

/-- The requests that ended in a window had not taken more time in front of it than the window
has for other things, up to a thousandth of it; or their time has gone round the counter. -/
def WithinWindow (timeline : Timeline) : TimelineAction → Prop
  | .tick => timeline.counters.closes (Clock32.tick timeline.nowMicros) = true →
      2 ^ 32 ≤ timeline.taken ∨
        timeline.carried * 1000 < (timeline.span - timeline.inside) * 1000 + timeline.span
  | _ => True

instance (timeline : Timeline) (action : TimelineAction) :
    Decidable (timeline.WithinWindow action) := by
  cases action <;> unfold WithinWindow <;> infer_instance

/-- With `carried` and `inside` as the two parts of the time taken, the time taken is less than
1001 thousandths of the span exactly when the rest of the span makes up for what is carried. -/
theorem share_arith {carried inside span : Nat} (h : inside ≤ span) :
    (carried + inside) * 1000 < 1001 * span ↔
      carried * 1000 < (span - inside) * 1000 + span := by
  obtain ⟨rest, rfl⟩ := Nat.exists_eq_add_of_le h
  rw [Nat.add_sub_cancel_left, Nat.add_mul]
  omega

/-- The share of a window that closes. -/
theorem Consistent.share_iff {timeline : Timeline} (h : timeline.Consistent)
    (hspan : timeline.span ≤ 2 ^ 32)
    (hcloses : timeline.counters.closes (Clock32.tick timeline.nowMicros) = true) :
    (timeline.counters.tick (Clock32.tick timeline.nowMicros)).busyPermille ≤ 1000 ↔
      timeline.WithinWindow .tick := by
  obtain ⟨helapsed, hlong, hshort⟩ := h.elapsed hspan hcloses
  have hinside := h.inside_le_span
  have htaken := h.taken_eq
  have hcarried := h.carried_le
  have hpermille : (timeline.counters.tick (Clock32.tick timeline.nowMicros)).busyPermille ≤ 1000 ↔
      timeline.taken % 2 ^ 32 * 1000 < 1001 * timeline.span := by
    rw [UInt32.le_iff_toNat_le, (tick_of_closes hcloses).1, helapsed, h.busy,
      ← Nat.div_lt_iff_lt_mul (by omega)]
    exact Nat.lt_succ_iff.symm
  rw [hpermille, WithinWindow]
  by_cases hround : 2 ^ 32 ≤ timeline.taken
  · -- what is left is no more than the part in the window
    refine iff_of_true ?_ fun _ => Or.inl hround
    omega
  · rw [Nat.mod_eq_of_lt (Nat.lt_of_not_le hround), htaken, share_arith hinside]
    constructor
    · exact fun hshare _ => Or.inr hshare
    · intro hwithin
      rw [← htaken] at hwithin
      exact (hwithin hcloses).resolve_left hround

/-! ## Runs -/

/-- A request ends: the part of it in front of the window is carried into it. -/
theorem consistent_ended {timeline : Timeline} (h : timeline.Consistent) {began : Nat}
    (hrunning : timeline.running = some began) (hlong : timeline.nowMicros - began ≤ 2 ^ 32) :
    Consistent { timeline with
      running := none
      counters := timeline.counters.recordRequest (UInt32.ofNat (timeline.nowMicros - began))
      ended := timeline.ended ++ [(began, timeline.nowMicros)] } := by
  have hopened := h.opened_le
  have hbegan := h.began_le began hrunning
  have hinside := h.inside_le
  rw [hrunning, Option.getD_some] at hinside
  refine ⟨h.windowStart, hopened, by simp, by simp, ?_, ?_, ?_, ?_⟩
  · have hbusy := h.busy
    simp only [Counters.recordRequest, UInt32.toNat_add, UInt32.toNat_ofNat', hbusy, taken,
      List.map_append, List.sum_append, List.map_singleton, List.sum_singleton]
    omega
  · have htaken := h.taken_eq
    simp only [taken, carried, inside, List.map_append, List.sum_append, List.map_singleton,
      List.sum_singleton] at htaken ⊢
    omega
  · have hcarried := h.carried_le
    simp only [carried, List.map_append, List.sum_append, List.map_singleton,
      List.sum_singleton] at hcarried ⊢
    by_cases hfirst : timeline.ended = []
    · rw [hfirst]
      simp only [List.map_nil, List.sum_nil]
      omega
    · have hin := h.began_inside hfirst began hrunning
      omega
  · simp only [inside, List.map_append, List.sum_append, List.map_singleton, List.sum_singleton,
      Option.getD_none] at hinside ⊢
    omega

theorem consistent_step {timeline next : Timeline} {action : TimelineAction}
    (h : timeline.Consistent) (hstep : timeline.step action = some next) : next.Consistent := by
  have hopened := h.opened_le
  cases action with
  | pass micros =>
      cases hstep
      refine ⟨h.windowStart, Nat.le_add_right_of_le hopened, fun began hbegan =>
        Nat.le_add_right_of_le (h.began_le began hbegan), h.began_inside, h.busy, h.taken_eq,
        h.carried_le, h.inside_le.trans ?_⟩
      cases timeline.running with
      | none =>
          simp only [Option.getD_none]
          omega
      | some began => exact Nat.le_refl _
  | beginRequest =>
      cases hrunning : timeline.running with
      | some began => simp [step, hrunning] at hstep
      | none =>
          simp only [step, hrunning] at hstep
          cases hstep
          have hinside := h.inside_le
          rw [hrunning] at hinside
          refine ⟨h.windowStart, hopened, ?_, ?_, h.busy, h.taken_eq, h.carried_le, hinside⟩
          · rintro began ⟨⟩
            exact Nat.le_refl _
          · rintro _ began ⟨⟩
            exact hopened
  | endRequest =>
      cases hrunning : timeline.running with
      | none => simp [step, hrunning] at hstep
      | some began =>
          simp only [step, hrunning] at hstep
          split at hstep
          · rename_i hlong
            cases hstep
            exact consistent_ended h hrunning hlong
          · cases hstep
  | tick =>
      rw [step] at hstep
      split at hstep
      · split at hstep
        · rename_i hcloses
          cases hstep
          obtain ⟨_, hbusy, hwindow⟩ := tick_of_closes hcloses
          refine ⟨hwindow, Nat.le_refl _, h.began_le, fun hne => absurd rfl hne, ?_, rfl,
            Nat.zero_le _, Nat.zero_le _⟩
          rw [hbusy]
          rfl
        · rename_i hopen
          cases hstep
          rw [tick_of_not_closes hopen]
          exact ⟨h.windowStart, h.opened_le, h.began_le, h.began_inside, h.busy, h.taken_eq,
            h.carried_le, h.inside_le⟩
      · cases hstep

/-- Only a tick that closes the window changes the share. -/
theorem share_step {timeline next : Timeline} {action : TimelineAction}
    (h : timeline.Consistent) (hshare : timeline.IsShare)
    (hstep : timeline.step action = some next) :
    next.IsShare ↔ timeline.WithinWindow action := by
  cases action with
  | pass micros =>
      cases hstep
      exact iff_of_true hshare trivial
  | beginRequest =>
      rw [step] at hstep
      split at hstep <;> cases hstep
      exact iff_of_true hshare trivial
  | endRequest =>
      rw [step] at hstep
      split at hstep
      · cases hstep
      · split at hstep <;> cases hstep
        exact iff_of_true hshare trivial
  | tick =>
      rw [step] at hstep
      split at hstep
      · rename_i hspan
        split at hstep
        · rename_i hcloses
          cases hstep
          exact h.share_iff hspan hcloses
        · rename_i hopen
          cases hstep
          rw [IsShare, tick_of_not_closes hopen]
          exact iff_of_true hshare fun hcloses => absurd hcloses hopen
      · cases hstep

/-- However ticks and requests interleave, the busy share is never more than the whole exactly
when every window that closes leaves room for what was carried into it: the requests that
ended in it ran before it began no longer than no request ran in it, up to the rounding. -/
theorem busy_share_iff (startMicros : Nat) (actions : List TimelineAction) {final : Timeline}
    (h : machine.exec (begun startMicros) actions = some final) :
    machine.Throughout IsShare (begun startMicros) actions ↔
      machine.Guarded WithinWindow (begun startMicros) actions := by
  have hkeeps : ∀ (timeline : Timeline) (action : TimelineAction) (next : Timeline),
      timeline.Consistent ∧ timeline.IsShare →
      timeline.WithinWindow action → timeline.step action = some next →
      next.Consistent ∧ next.IsShare := fun _ _ _ hinv hwithin hstep =>
    ⟨consistent_step hinv.1 hstep, (share_step hinv.1 hinv.2 hstep).mpr hwithin⟩
  have hbreaks : ∀ (timeline : Timeline) (action : TimelineAction) (next : Timeline),
      timeline.Consistent ∧ timeline.IsShare →
      ¬ timeline.WithinWindow action → timeline.step action = some next → ¬ next.IsShare :=
    fun _ _ _ hinv hwithin hstep hshare => hwithin ((share_step hinv.1 hinv.2 hstep).mp hshare)
  have hbegun : (begun startMicros).Consistent ∧ (begun startMicros).IsShare :=
    ⟨consistent_begun startMicros, show (0 : UInt32) ≤ 1000 by decide⟩
  exact machine.throughout_iff_guarded hkeeps hbreaks (fun _ hinv => hinv.2) actions
    (begun startMicros) final hbegun h

/-- A window closes 1.2 s into a request of 1.5 s, and the next one stays open for 1.6 s,
which is long enough to make up for it. -/
theorem busy_share_iff_carried :
    machine.Throughout IsShare (begun 0)
      [.beginRequest, .pass 1200000, .tick, .pass 300000, .endRequest, .pass 1300000, .tick] :=
  (busy_share_iff 0
    [.beginRequest, .pass 1200000, .tick, .pass 300000, .endRequest, .pass 1300000, .tick]
    rfl).mpr (by decide)

/-- A tick falls into a request of 2.4 s: the next window is a second long, and 2400
thousandths of it were busy. -/
theorem busy_share_exceeded :
    ∃ final, machine.exec (begun 0) [.beginRequest, .pass 1500000, .tick, .pass 900000,
        .endRequest, .pass 100000, .tick] = some final ∧
      final.counters.fill.busyPermille = 2400 ∧ ¬ final.IsShare :=
  ⟨_, rfl, rfl, by decide⟩

/-- Where ticks and requests take turns, as in one task, nothing is carried into a window. -/
theorem withinWindow_of_turns (startMicros : Nat) (actions : List TimelineAction)
    (h : machine.Guarded (fun timeline action => action = .tick → timeline.running = none)
      (begun startMicros) actions) :
    machine.Guarded WithinWindow (begun startMicros) actions := by
  have hkeeps : ∀ (timeline : Timeline) (action : TimelineAction) (next : Timeline),
      timeline.Consistent ∧ timeline.carried = 0 ∧
        (∀ began ∈ timeline.running, timeline.opened ≤ began) →
      (action = .tick → timeline.running = none) → timeline.step action = some next →
      next.Consistent ∧ next.carried = 0 ∧ ∀ began ∈ next.running, next.opened ≤ began := by
    rintro timeline action next ⟨hinv, hcarried, hinside⟩ hturn hstep
    refine ⟨consistent_step hinv hstep, ?_⟩
    cases action with
    | pass micros =>
        cases hstep
        exact ⟨hcarried, hinside⟩
    | beginRequest =>
        rw [step] at hstep
        split at hstep <;> cases hstep
        refine ⟨hcarried, ?_⟩
        rintro began ⟨⟩
        exact hinv.opened_le
    | endRequest =>
        rw [step] at hstep
        split at hstep
        · cases hstep
        · rename_i began hrunning
          split at hstep <;> cases hstep
          have hbegan := hinside began hrunning
          rw [carried] at hcarried ⊢
          refine ⟨?_, fun other hother => by cases hother⟩
          rw [List.map_append, List.sum_append, hcarried, List.map_singleton,
            List.sum_singleton, Nat.zero_add]
          exact Nat.sub_eq_zero_of_le hbegan
    | tick =>
        rw [step] at hstep
        split at hstep
        · split at hstep <;> cases hstep
          · exact ⟨rfl, fun began hbegan => by rw [hturn rfl] at hbegan; cases hbegan⟩
          · exact ⟨hcarried, hinside⟩
        · cases hstep
  refine machine.guarded_imp hkeeps ?_ actions (begun startMicros)
    ⟨consistent_begun startMicros, rfl, fun _ hbegan => by cases hbegan⟩ h
  rintro timeline action ⟨hinv, hcarried, _⟩ _
  cases action with
  | tick =>
      intro hcloses
      rw [Counters.closes, decide_eq_true_eq] at hcloses
      have hlong := UInt32.le_iff_toNat_le.mp hcloses
      have hwindow : kWindowMicros.toNat = 1000000 := rfl
      rw [hinv.windowStart, Clock32.tick_sub_toNat_of_le hinv.opened_le, hwindow] at hlong
      right
      rw [hcarried, span]
      omega
  | pass micros => trivial
  | beginRequest => trivial
  | endRequest => trivial

end Timeline

end MatrixFaces.Board
