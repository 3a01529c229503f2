import MatrixFaces.Apps.Settings
import MatrixFaces.Foundation.Machine
import MatrixFaces.Storage.QuietTimer

set_option autoImplicit false

/-!
# Writing settings once things go quiet

The render task applies a setting and then marks the timer; housekeeping sees the
timer due, reads every setting (`src/apps/app_settings_store.cpp`), writes the
blob and clears the timer (`src/main.cpp`).  The two run on different cores, so
each of these is a step of its own.

The main result is `owed_throughout_iff`, over every interleaving.  `Owed` says that no change
is forgotten: unless a mark is about to come, the timer is pending as long as the settings
differ from what was written last.

`ClearIsSafe` is the condition, on the state in front of each clear: the render task is about
to mark again, or what the save read is what the settings still hold, or the write failed and
the settings are back at what was written last.

Each step keeps `Accounted`, where a save under way is still pending and a written blob is
what it read; a clear is the one step that may not.  `change_forgotten` is a change between a
save's read and its clear.
-/

namespace MatrixFaces.Storage

open MatrixFaces.Foundation
open MatrixFaces.Apps

/-- `AppSettingsStore::SettingRecord`, its names by the characters they hold. -/
structure SettingRecord where
  appName : Bytes
  key : Bytes
  value : SettingValue
  deriving DecidableEq

def kMaxRecords : Nat := 32

def kNameCap : Nat := 16

/-- `copyCapped` into a name of a record. -/
def copyCapped (src : Bytes) : Bytes := (cstring src).take (kNameCap - 1)

/-- The settings in the order `saveAll` visits them. -/
def settingSlots (scheduler : AppScheduler) : List (UInt8 × Bytes) :=
  (List.range scheduler.count).flatMap fun i =>
    (scheduler.descriptors (UInt8.ofNat i)).map fun descriptor =>
      (UInt8.ofNat i, descriptor.key)

/-- The record of one setting as it is now. -/
def readRecord (scheduler : AppScheduler) (slot : UInt8 × Bytes) : Option SettingRecord :=
  (scheduler.getSetting slot.1 slot.2).map fun value =>
    ⟨copyCapped (scheduler.name slot.1), copyCapped slot.2, value⟩

/-- The live values of all settings. -/
def liveRecords (scheduler : AppScheduler) : List SettingRecord :=
  (settingSlots scheduler).filterMap (readRecord scheduler)

/-- The loops of `saveAll`: the setting they are at and the records made so far. -/
structure Save where
  next : Nat
  records : List SettingRecord
  deriving DecidableEq

/-- One turn; `none` when the loops are over. -/
def Save.turn (save : Save) (scheduler : AppScheduler) : Option Save :=
  if save.records.length < kMaxRecords then
    (settingSlots scheduler)[save.next]?.map fun slot =>
      ⟨save.next + 1, save.records ++ (readRecord scheduler slot).toList⟩
  else none

/-! ## The two tasks -/

/-- Where `drainCommands` is. -/
inductive RenderPc where
  | idle
  /-- Between `applySetting` and its own `mark`. -/
  | marking
  deriving DecidableEq

/-- Where `housekeepTick` is. -/
inductive HousekeepPc where
  | idle
  | saving (save : Save)
  /-- After the write, before `clear`. -/
  | clearing (records : List SettingRecord) (written : Bool)
  deriving DecidableEq

/-- What the two tasks share. -/
structure Persist where
  scheduler : AppScheduler
  timer : QuietTimer
  /-- The records of the last blob that was written. -/
  saved : List SettingRecord
  render : RenderPc
  housekeep : HousekeepPc

namespace Persist

inductive Action where
  /-- `applySetting` on one command. -/
  | applySetting (appIndex : UInt8) (key : Bytes) (value : SettingValue)
  /-- `settingsQuiet.mark(nowMs)`. -/
  | mark (nowMs : UInt32)
  /-- `settingsQuiet.due(nowMs)`, which starts a save when it is true. -/
  | due (nowMs : UInt32)
  /-- `saveAll` reads one setting. -/
  | readSetting
  /-- `saveAll` writes the blob, which may fail; nothing reports it. -/
  | write (succeeds : Bool)
  /-- `settingsQuiet.clear()`. -/
  | clear

def step (state : Persist) : Action → Option Persist
  | .applySetting appIndex key value =>
      match state.render with
      | .marking => none
      | .idle =>
          match state.scheduler.applySetting appIndex key value with
          | none => some state
          | some scheduler => some { state with scheduler := scheduler, render := .marking }
  | .mark nowMs =>
      match state.render with
      | .idle => none
      | .marking => some { state with timer := state.timer.mark nowMs, render := .idle }
  | .due nowMs =>
      match state.housekeep with
      | .idle =>
          if state.timer.due nowMs then some { state with housekeep := .saving ⟨0, []⟩ }
          else some state
      | _ => none
  | .readSetting =>
      match state.housekeep with
      | .saving save =>
          (save.turn state.scheduler).map fun save => { state with housekeep := .saving save }
      | _ => none
  | .write succeeds =>
      match state.housekeep with
      | .saving save =>
          if save.turn state.scheduler = none then
            some { state with
              saved := if succeeds then save.records else state.saved
              housekeep := .clearing save.records succeeds }
          else none
      | _ => none
  | .clear =>
      match state.housekeep with
      | .clearing _ _ => some { state with timer := state.timer.clear, housekeep := .idle }
      | _ => none

/-- The two tasks, from live settings that all stand in the saved blob. -/
def machine : Machine Persist Action where
  start state := state.saved = liveRecords state.scheduler ∧
    state.saved.length ≤ kMaxRecords ∧ state.render = .idle ∧ state.housekeep = .idle
  step := step

/-! ## What is owed -/

/-- Outside the window between an apply and its mark, a live value that is not the
saved one leaves a save pending.  This is what a lost change breaks. -/
def Owed (state : Persist) : Prop :=
  state.render = .idle → state.saved ≠ liveRecords state.scheduler →
    state.timer.pending = true

/-- A save may be cleared when the live values are those it wrote, or those of the
last blob if its write failed, or when a mark is still to come. -/
def ClearIsSafe (state : Persist) (action : Action) : Prop :=
  match action, state.housekeep with
  | .clear, .clearing records written =>
      (if written then records else state.saved) = liveRecords state.scheduler ∨
        state.render = .marking
  | _, _ => True

/-- A save in progress is still pending, and a written blob is what it read. -/
structure Accounted (state : Persist) : Prop where
  owed : state.Owed
  pending : state.housekeep ≠ .idle → state.timer.pending = true
  written : ∀ records, state.housekeep = .clearing records true → state.saved = records

/-- A safe clear, the one step that takes a pending save away. -/
theorem accounted_clear {state next : Persist} (h : state.Accounted)
    (hsafe : state.ClearIsSafe .clear) (hstep : state.step .clear = some next) :
    next.Accounted := by
  rw [step] at hstep
  split at hstep
  · rename_i records written hpc
    cases hstep
    refine ⟨fun hidle hdiffers => ?_, fun hbusy => absurd rfl hbusy, fun _ hnext => ?_⟩
    · simp only [ClearIsSafe, hpc] at hsafe
      rcases hsafe with hsame | hmarking
      · refine absurd ?_ hdiffers
        cases written with
        | true => rw [← hsame, if_pos rfl, h.written records hpc]
        | false => exact hsame
      · rw [hmarking] at hidle
        cases hidle
    · cases hnext
  · cases hstep

theorem accounted_step {state next : Persist} {action : Action} (h : state.Accounted)
    (hsafe : state.ClearIsSafe action) (hstep : state.step action = some next) :
    next.Accounted := by
  cases action with
  | applySetting appIndex key value =>
      rw [step] at hstep
      split at hstep
      · cases hstep
      · split at hstep
        · cases hstep
          exact h
        · cases hstep
          exact ⟨fun hidle => (nomatch hidle), h.pending, h.written⟩
  | mark nowMs =>
      rw [step] at hstep
      split at hstep
      · cases hstep
      · cases hstep
        exact ⟨fun _ _ => QuietTimer.pending_mark _ _, fun _ => QuietTimer.pending_mark _ _,
          h.written⟩
  | due nowMs =>
      rw [step] at hstep
      split at hstep
      · split at hstep
        · rename_i hdue
          cases hstep
          exact ⟨h.owed, fun _ => QuietTimer.pending_of_due hdue, fun _ hpc => (nomatch hpc)⟩
        · cases hstep
          exact h
      · cases hstep
  | readSetting =>
      rw [step] at hstep
      split at hstep
      · rename_i save hpc
        obtain ⟨turned, _, rfl⟩ := Option.map_eq_some_iff.mp hstep
        exact ⟨h.owed, fun _ => h.pending (by simp [hpc]), fun _ hnext => (nomatch hnext)⟩
      · cases hstep
  | write succeeds =>
      rw [step] at hstep
      split at hstep
      · rename_i save hpc
        have hpending := h.pending (by simp [hpc])
        split at hstep
        · cases hstep
          refine ⟨fun _ _ => hpending, fun _ => hpending, fun records hnext => ?_⟩
          cases hnext
          rfl
        · cases hstep
      · cases hstep
  | clear => exact accounted_clear h hsafe hstep

/-- An unsafe clear is the one step that loses a change. -/
theorem not_owed_of_unsafe {state next : Persist} {action : Action} (h : state.Accounted)
    (hbad : ¬ state.ClearIsSafe action) (hstep : state.step action = some next) :
    ¬ next.Owed := by
  unfold ClearIsSafe at hbad
  split at hbad
  · rename_i records written hpc
    simp only [step, hpc, Option.some.injEq] at hstep
    subst hstep
    rw [not_or] at hbad
    intro howed
    have hidle : state.render = .idle := by
      cases hrender : state.render with
      | idle => rfl
      | marking => exact absurd hrender hbad.2
    have hdiffers : state.saved ≠ liveRecords state.scheduler := by
      intro hsame
      refine hbad.1 ?_
      cases written with
      | true => rw [if_pos rfl, ← h.written records hpc, hsame]
      | false => exact hsame
    have hpending := howed hidle hdiffers
    rw [QuietTimer.pending_clear] at hpending
    cases hpending
  · exact absurd trivial hbad

/-- No change is forgotten in a run exactly when every clear in it is safe.  A clear is safe when
a mark is about to follow it, or the settings are still those that the save wrote; if its write
failed, those that were written last. -/
theorem owed_throughout_iff {start final : Persist} {actions : List Action}
    (hstart : machine.start start) (hexec : machine.exec start actions = some final) :
    machine.Throughout Owed start actions ↔ machine.Guarded ClearIsSafe start actions := by
  obtain ⟨hsaved, _, _, hidle⟩ := hstart
  refine machine.throughout_iff_guarded
    (fun _ _ _ (hInv : Accounted _) hsafe hstep => accounted_step hInv hsafe hstep)
    (fun _ _ _ hInv hbad hstep => not_owed_of_unsafe hInv hbad hstep)
    (fun _ hInv => hInv.owed) actions start final ?_ hexec
  exact ⟨fun _ hdiffers => absurd hsaved hdiffers, fun hbusy => absurd hidle hbusy,
    fun records hpc => by rw [hidle] at hpc; cases hpc⟩

/-! ## A change behind the read -/

/-- One app with one boolean setting, off and saved so. -/
def oneFlag : Persist where
  scheduler :=
    { apps :=
        [⟨ascii "app", some ⟨[⟨⟨ascii "on", .kBool, 0, 0, 0⟩, .boolean false, rfl⟩], by decide⟩⟩]
      activeIndex := 0
      count_le := by decide }
  timer := ⟨5000, 0⟩
  saved := [⟨ascii "app", ascii "on", SettingValue.zero⟩]
  render := .idle
  housekeep := .idle

def turn (on : Bool) : Action :=
  .applySetting 0 (ascii "on") { SettingValue.zero with boolValue := on }

theorem oneFlag_start : machine.start oneFlag := ⟨by decide, by decide, rfl, rfl⟩

/-- Switched off again while the save is under way: the blob says on, the setting is
off, and nothing is pending. -/
theorem change_forgotten :
    machine.start oneFlag ∧ ∃ final,
      machine.exec oneFlag [turn true, .mark 0, .due 5000, .readSetting, turn false, .mark 5000,
        .write true, .clear] = some final ∧ ¬ final.Owed := by
  refine ⟨oneFlag_start, _, rfl, fun howed => ?_⟩
  have hpending := howed rfl (by decide)
  revert hpending
  decide

/-- Without the second change nothing is lost. -/
theorem owed_throughout_iff_single :
    machine.Throughout Owed oneFlag
        [turn true, .mark 0, .due 5000, .readSetting, .write true, .clear] ↔
      machine.Guarded ClearIsSafe oneFlag
        [turn true, .mark 0, .due 5000, .readSetting, .write true, .clear] :=
  owed_throughout_iff oneFlag_start rfl

end Persist

end MatrixFaces.Storage
