import Mathlib.Data.List.Induction
import MatrixFaces.Foundation.Clock32

set_option autoImplicit false

/-!
# The pairing window (`src/api/pairing_window.cpp`)

The window during which `POST /pair` is accepted.  Its whole state is one
32-bit word: zero when closed, otherwise the reading of `millis()` at which it
runs out.  Nothing clears the word when the window merely expires, so what
`isOpen` answers weeks later is decided by the sign of a wrapped difference.

A history is the list of the calls so far with their real times in milliseconds.
`PromiseKept` says what the documentation promises of it: the window is open exactly in the
minute behind the last `open()` that was not followed by a `close()`, and `remainingSeconds`
counts that minute down.

The main result is `promiseKept_iff`, for every history whose times do not decrease.  The
promise is kept exactly at the times that are before the deadline, or behind it in an even
half of the counter's range.  `reopens_by_itself` is a window that is open again after 25
days.
-/

namespace MatrixFaces.Api

open MatrixFaces.Foundation.Clock32

/-- `PairingWindow`. -/
structure PairingWindow where
  deadlineMs : UInt32
  deriving DecidableEq, Repr

namespace PairingWindow

def kWindowMs : UInt32 := 60000

/-- The word of a closed window. -/
def kClosed : UInt32 := 0

/-- A window as constructed at boot. -/
def initial : PairingWindow := ⟨kClosed⟩

/-- `reached`: the signed difference of `millis()` and the deadline. -/
def reached (millis deadlineMs : UInt32) : Bool := atOrPast millis deadlineMs

/-- `PairingWindow::open`. -/
def openAt (millis : UInt32) : PairingWindow :=
  let deadline := millis + kWindowMs
  ⟨if deadline = kClosed then 1 else deadline⟩

/-- `PairingWindow::close`. -/
def close : PairingWindow := ⟨kClosed⟩

/-- `PairingWindow::isOpen`. -/
def isOpen (window : PairingWindow) (millis : UInt32) : Bool :=
  window.deadlineMs != kClosed && !reached millis window.deadlineMs

/-- `PairingWindow::remainingSeconds`. -/
def remainingSeconds (window : PairingWindow) (millis : UInt32) : UInt32 :=
  if window.deadlineMs == kClosed || reached millis window.deadlineMs then 0
  else (window.deadlineMs - millis + 999) / 1000

@[simp] theorem close_isOpen (millis : UInt32) : close.isOpen millis = false := by
  simp [isOpen, close]

/-- The two readings test the same condition. -/
theorem remainingSeconds_of_not_isOpen {window : PairingWindow} {millis : UInt32}
    (h : window.isOpen millis = false) : window.remainingSeconds millis = 0 := by
  rw [isOpen, Bool.and_eq_false_iff] at h
  rw [remainingSeconds, if_pos]
  rcases h with h | h <;> simp_all

/-! ## Runs at real times -/

/-- A call on the window. -/
inductive Call where
  | openAt
  | close
  | isOpen
  | remainingSeconds
  deriving DecidableEq, Repr

/-- A call leaves the window alone unless it opens or closes it. -/
def Call.isQuery : Call → Bool
  | .isOpen | .remainingSeconds => true
  | .openAt | .close => false

/-- The window after one call made at real time `t`. -/
def apply (window : PairingWindow) (t : Nat) : Call → PairingWindow
  | .openAt => openAt (tick t)
  | .close => close
  | .isOpen | .remainingSeconds => window

/-- The window after a history of calls, oldest first. -/
def after (history : List (Nat × Call)) : PairingWindow :=
  history.foldl (fun window call => window.apply call.1 call.2) initial

@[simp] theorem after_append_single (history : List (Nat × Call)) (t : Nat) (call : Call) :
    after (history ++ [(t, call)]) = (after history).apply t call := by
  simp [after]

/-- The last `open()` or `close()` of the history is an `open()` at `t₀`. -/
def OpenedAt (history : List (Nat × Call)) (t₀ : Nat) : Prop :=
  ∃ before later, history = before ++ (t₀, Call.openAt) :: later ∧
    ∀ call ∈ later, call.2.isQuery = true

/-- The milliseconds a window opened at `t₀` is meant to last: the deadline that
would have been the closed marker borrows the next millisecond. -/
def span (t₀ : Nat) : Nat := if (t₀ + 60000) % 2 ^ 32 = 0 then 60001 else 60000

theorem openAt_deadlineMs (t₀ : Nat) :
    (openAt (tick t₀)).deadlineMs = tick (t₀ + span t₀) := by
  have hword : tick t₀ + kWindowMs = tick (t₀ + 60000) := (tick_add t₀ 60000).symm
  simp only [openAt, hword, kClosed, tick_eq_zero_iff, span]
  split
  · rename_i hzero
    rw [← UInt32.toNat_inj, tick_toNat]
    show 1 = _
    omega
  · rfl

/-- The stored deadline is never the closed marker. -/
theorem openAt_deadlineMs_ne (t₀ : Nat) : (openAt (tick t₀)).deadlineMs ≠ kClosed := by
  rw [openAt_deadlineMs, kClosed, Ne, tick_eq_zero_iff, span]
  split <;> omega

/-- Queries after the last `open()` do not disturb the word. -/
theorem after_of_openedAt {history : List (Nat × Call)} {t₀ : Nat}
    (h : OpenedAt history t₀) : after history = openAt (tick t₀) := by
  obtain ⟨before, later, rfl, hlater⟩ := h
  induction later using List.reverseRecOn with
  | nil => simp [apply]
  | append_singleton later last ih =>
      have hinit := ih fun call hcall => hlater call (by simp [hcall])
      have hquery : last.2.isQuery = true := hlater last (by simp)
      rw [← List.cons_append, ← List.append_assoc, after_append_single, hinit]
      cases hlast : last.2 <;> simp_all [apply, Call.isQuery]

theorem OpenedAt.append_query {history : List (Nat × Call)} {t₀ : Nat}
    (h : OpenedAt history t₀) (t : Nat) {call : Call} (hquery : call.isQuery = true) :
    OpenedAt (history ++ [(t, call)]) t₀ := by
  obtain ⟨before, later, rfl, hlater⟩ := h
  refine ⟨before, later ++ [(t, call)], by simp, ?_⟩
  intro other hother
  rcases List.mem_append.mp hother with hmem | hmem
  · exact hlater other hmem
  · rw [List.mem_singleton.mp hmem]
    exact hquery

/-- Without an `open()` in force the word is the closed marker. -/
theorem after_of_not_openedAt {history : List (Nat × Call)}
    (h : ∀ t₀, ¬ OpenedAt history t₀) : after history = close := by
  induction history using List.reverseRecOn with
  | nil => rfl
  | append_singleton history last ih =>
      obtain ⟨t, call⟩ := last
      rw [after_append_single]
      cases call with
      | openAt => exact absurd ⟨history, [], rfl, by simp⟩ (h t)
      | close => rfl
      | isOpen => exact ih fun t₀ hopened => h t₀ (hopened.append_query t rfl)
      | remainingSeconds => exact ih fun t₀ hopened => h t₀ (hopened.append_query t rfl)

/-- The `open()` in force is the last call that is not a query. -/
theorem OpenedAt.last_change {history : List (Nat × Call)} {t₀ : Nat}
    (h : OpenedAt history t₀) :
    (history.filter fun call => !call.2.isQuery).getLast? = some (t₀, Call.openAt) := by
  obtain ⟨before, later, rfl, hlater⟩ := h
  have hnone : (later.filter fun call => !call.2.isQuery) = [] := by
    rw [List.filter_eq_nil_iff]
    intro call hcall
    simp [hlater call hcall]
  rw [List.filter_append, List.filter_cons, hnone]
  simp [Call.isQuery]

theorem OpenedAt.mem {history : List (Nat × Call)} {t₀ : Nat} (h : OpenedAt history t₀) :
    (t₀, Call.openAt) ∈ history := by
  obtain ⟨before, later, rfl, _⟩ := h
  simp

theorem OpenedAt.unique {history : List (Nat × Call)} {s t : Nat}
    (hs : OpenedAt history s) (ht : OpenedAt history t) : s = t := by
  have hlast := hs.last_change.symm.trans ht.last_change
  simpa using hlast

/-! ## What a query answers -/

/-- Before its deadline an opened window is open; afterwards it is open again in
every odd half-range of the counter. -/
theorem openAt_isOpen_iff {t₀ t : Nat} (h : t₀ ≤ t) :
    (openAt (tick t₀)).isOpen (tick t) = true ↔
      t < t₀ + span t₀ ∨ 2 ^ 31 ≤ (t - (t₀ + span t₀)) % 2 ^ 32 := by
  have hne : ((openAt (tick t₀)).deadlineMs != kClosed) = true := by
    simpa using openAt_deadlineMs_ne t₀
  have hspan : span t₀ ≤ 60001 := by rw [span]; split <;> omega
  rw [isOpen, hne, Bool.true_and, Bool.not_eq_true', reached, openAt_deadlineMs]
  by_cases hlate : t₀ + span t₀ ≤ t
  · rw [← Bool.not_eq_true, atOrPast_tick_of_le hlate]
    omega
  · have hsoon : t < t₀ + span t₀ := by omega
    simp only [hsoon, true_or, iff_true]
    exact atOrPast_tick_of_lt hsoon (by omega)

/-- Until its deadline an opened window reports at most its span, rounded up. -/
theorem openAt_remainingSeconds_le {t₀ t : Nat} (h : t₀ ≤ t) (hsoon : t < t₀ + span t₀) :
    ((openAt (tick t₀)).remainingSeconds (tick t)).toNat ≤
      if (t₀ + 60000) % 2 ^ 32 = 0 then 61 else 60 := by
  have hdiff : (tick (t₀ + span t₀) - tick t).toNat = t₀ + span t₀ - t := by
    have hspan : span t₀ ≤ 60001 := by rw [span]; split <;> omega
    rw [tick_sub_toNat_of_le (Nat.le_of_lt hsoon)]
    omega
  rw [remainingSeconds, openAt_deadlineMs]
  split
  · simp
  · rw [UInt32.toNat_div, UInt32.toNat_add, hdiff]
    simp only [UInt32.reduceToNat, span] at *
    split <;> simp_all <;> omega

/-! ## The window over a whole run -/

/-- What the window promises at time `t` after a history of calls: it is open
exactly in the minute after the `open()` in force, and counts down that minute. -/
def PromiseKept (history : List (Nat × Call)) (t : Nat) : Prop :=
  ((after history).isOpen (tick t) = true ↔
      ∃ t₀, OpenedAt history t₀ ∧ t - t₀ < span t₀) ∧
  ((after history).isOpen (tick t) = false →
      (after history).remainingSeconds (tick t) = 0) ∧
  ((after history).isOpen (tick t) = true → ∃ t₀, OpenedAt history t₀ ∧
      ((after history).remainingSeconds (tick t)).toNat ≤
        if (t₀ + 60000) % 2 ^ 32 = 0 then 61 else 60)

/-- The promise is kept at every time that does not fall in an odd half-range of
the counter after the last deadline, and broken at every time that does. -/
theorem promiseKept_iff (history : List (Nat × Call)) (t : Nat)
    (hordered : (history ++ [(t, Call.isOpen)]).Pairwise fun a b => a.1 ≤ b.1) :
    PromiseKept history t ↔
      ∀ t₀, OpenedAt history t₀ →
        t < t₀ + span t₀ ∨ (t - (t₀ + span t₀)) % 2 ^ 32 < 2 ^ 31 := by
  have hpast : ∀ t₀, OpenedAt history t₀ → t₀ ≤ t := by
    intro t₀ hopened
    rw [List.pairwise_append] at hordered
    exact hordered.2.2 _ hopened.mem _ (List.mem_singleton_self _)
  constructor
  · rintro ⟨hopen, _, _⟩ t₀ hopened
    rw [after_of_openedAt hopened, openAt_isOpen_iff (hpast t₀ hopened)] at hopen
    by_cases hsoon : t < t₀ + span t₀
    · exact Or.inl hsoon
    · refine Or.inr (Nat.lt_of_not_le fun hodd => ?_)
      obtain ⟨t₁, hopened₁, hlt⟩ := hopen.mp (Or.inr hodd)
      obtain rfl := hopened₁.unique hopened
      have := hpast t₁ hopened
      omega
  · intro hcondition
    by_cases hnone : ∀ t₀, ¬ OpenedAt history t₀
    · rw [PromiseKept, after_of_not_openedAt hnone]
      refine ⟨?_, fun h => remainingSeconds_of_not_isOpen h, by simp⟩
      simp only [close_isOpen, Bool.false_eq_true, false_iff]
      rintro ⟨t₀, hopened, _⟩
      exact hnone t₀ hopened
    · obtain ⟨t₀, hopened⟩ := not_forall_not.mp hnone
      have hle := hpast t₀ hopened
      have hsoon : (openAt (tick t₀)).isOpen (tick t) = true ↔ t < t₀ + span t₀ := by
        have := hcondition t₀ hopened
        rw [openAt_isOpen_iff hle]
        omega
      rw [PromiseKept, after_of_openedAt hopened]
      refine ⟨?_, fun h => remainingSeconds_of_not_isOpen h, ?_⟩
      · rw [hsoon]
        constructor
        · exact fun h => ⟨t₀, hopened, by omega⟩
        · rintro ⟨t₁, hopened₁, hlt⟩
          obtain rfl := hopened₁.unique hopened
          omega
      · exact fun h => ⟨t₀, hopened, openAt_remainingSeconds_le hle (hsoon.mp h)⟩

/-- A press at boot, asked about a second later. -/
theorem promiseKept_iff_after_press : PromiseKept [(5, .openAt)] 1005 :=
  (promiseKept_iff [(5, .openAt)] 1005 (by decide)).mpr fun t₀ hopened => by
    have hmem := hopened.mem
    simp only [List.mem_singleton, Prod.mk.injEq, and_true] at hmem
    subst hmem
    decide

/-- One press and nothing else: 2^31 ms after its deadline the window is open
again, and says so for the next 2^31 ms. -/
theorem reopens_by_itself :
    (after [(5, .openAt)]).isOpen (tick (60005 + 2 ^ 31)) = true ∧
      ((after [(5, .openAt)]).remainingSeconds (tick (60005 + 2 ^ 31))).toNat = 2147484 ∧
      ¬ PromiseKept [(5, .openAt)] (60005 + 2 ^ 31) := by
  refine ⟨by decide, by decide, ?_⟩
  rintro ⟨hopen, _, _⟩
  obtain ⟨t₀, hopened, hlt⟩ := hopen.mp (by decide)
  have hmem := hopened.mem
  simp only [List.mem_singleton, Prod.mk.injEq, and_true] at hmem
  subst hmem
  revert hlt
  decide

end PairingWindow

end MatrixFaces.Api
