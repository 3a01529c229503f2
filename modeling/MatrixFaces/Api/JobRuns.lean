import MatrixFaces.Api.Jobs

set_option autoImplicit false

/-!
# Accepted commands, over whole runs

A handler validates a setting against descriptors that no command changes, so what it
posts is still valid when the drain comes to it, whatever was applied in between.

The main result is `applied_once_in_order`, over every interleaving of the handlers, the
drain and the broadcasts from boot: what was posted is what was performed, what is in flight
and what is queued, in that order; the apps and the LED are what the performed commands leave
one after the other; and none was refused.  `ShortKeys` is its condition on the firmware's
own settings: every key fits the key of a command.

What one command leaves stands beside it, for each kind: `Tasks.applyCommand_switchApp`,
`Tasks.applyCommand_applySetting` and `Tasks.applyCommand_setLed`.  `InOrder` is the
invariant, with a lemma for each part of a step.
-/

namespace MatrixFaces.Api

open MatrixFaces.Foundation
open MatrixFaces.Apps
open MatrixFaces.Board

/-! ## Validated commands -/

/-- Every setting's key fits the key of a command, so that it is found again under what was
posted. -/
def ShortKeys (scheduler : AppScheduler) : Prop :=
  ∀ appIndex, ∀ descriptor ∈ scheduler.descriptors appIndex,
    descriptor.key.length ≤ kCommandKeyCap - 1

theorem shortKeys_of_apps {scheduler : AppScheduler}
    (h : ∀ app ∈ scheduler.apps, ∀ bag, app.settings = some bag → ∀ binding ∈ bag.bindings,
      binding.descriptor.key.length ≤ kCommandKeyCap - 1) : ShortKeys scheduler := by
  intro appIndex descriptor hmem
  rw [AppScheduler.descriptors] at hmem
  split at hmem
  · cases hmem
  · rename_i bag hbag
    obtain ⟨app, happ, hsettings⟩ := Option.bind_eq_some_iff.mp hbag
    obtain ⟨binding, hbinding, rfl⟩ := List.mem_map.mp hmem
    exact h app (List.mem_of_getElem? happ) bag hsettings binding hbinding

/-- The apps would accept the command.  Only one that applies a setting can be refused. -/
def Valid (scheduler : AppScheduler) (command : Command) : Prop :=
  command.kind = .kApplySetting →
    scheduler.validateSetting command.appIndex command.key command.value = true

/-- The same descriptors accept the same commands. -/
theorem Valid.of_descriptors {scheduler other : AppScheduler} {command : Command}
    (h : Valid scheduler command)
    (hsame : ∀ appIndex, other.descriptors appIndex = scheduler.descriptors appIndex) :
    Valid other command := by
  intro hkind
  rw [AppScheduler.validateSetting_eq, hsame, ← AppScheduler.validateSetting_eq]
  exact h hkind

/-- What was validated under its full key is valid as a command. -/
theorem valid_applySetting {scheduler : AppScheduler} (hkeys : ShortKeys scheduler)
    {appIndex : UInt8} {descriptor : SettingDescriptor} {value : SettingValue}
    (hmem : descriptor ∈ scheduler.descriptors appIndex)
    (hvalid : scheduler.validateSetting appIndex descriptor.key value = true) :
    Valid scheduler (Command.applySetting appIndex descriptor.key value) := by
  intro _
  have hkey : (cstring descriptor.key).take (kCommandKeyCap - 1) = cstring descriptor.key :=
    List.take_of_length_le
      (Nat.le_trans (List.takeWhile_prefix _).length_le (hkeys _ _ hmem))
  have hagain : cstring (cstring descriptor.key) = cstring descriptor.key :=
    cstring_of_not_mem (zero_not_mem_cstring _)
  rw [AppScheduler.validateSetting_eq] at hvalid ⊢
  simp only [Command.applySetting, hkey, hagain]
  exact hvalid

theorem valid_prepareSettings {scheduler : AppScheduler} (hkeys : ShortKeys scheduler)
    {wildcard : Bytes} {body : Option Json} {appIndex : UInt8} {accepted : List AcceptedSetting}
    {tooManyToQueue : Bool}
    (h : prepareSettings scheduler wildcard body = .ok (appIndex, accepted, tooManyToQueue)) :
    ∀ entry ∈ accepted, Valid scheduler (Command.applySetting appIndex entry.key entry.value) := by
  rw [prepareSettings] at h
  split at h
  · cases h
  · split at h
    · cases h
    · rename_i doc
      simp only at h
      split at h
      · cases h
      · rename_i hall
        split at h
        · cases h
        · cases h
          intro entry hentry
          obtain ⟨descriptor, hdescriptor, rfl⟩ := List.mem_map.mp hentry
          have hpresent := List.mem_of_mem_take hdescriptor
          have hpasses := List.all_eq_true.mp (by simpa using hall) descriptor hpresent
          rw [passesValidation, Bool.and_eq_true] at hpasses
          exact valid_applySetting hkeys (List.mem_of_mem_filter hpresent) hpasses.2

theorem valid_wsCommand {scheduler : AppScheduler} (hkeys : ShortKeys scheduler)
    {body : Option Json} {command : Command} (h : wsCommand scheduler body = some command) :
    Valid scheduler command := by
  rw [wsCommand] at h
  obtain ⟨doc, _, h⟩ := Option.bind_eq_some_iff.mp h
  obtain ⟨app, _, h⟩ := Option.bind_eq_some_iff.mp h
  obtain ⟨key, _, h⟩ := Option.bind_eq_some_iff.mp h
  split at h
  · cases h
  · obtain ⟨descriptor, hfound, h⟩ := Option.bind_eq_some_iff.mp h
    simp only at h
    split at h
    · rename_i hpasses
      cases h
      rw [Bool.and_eq_true] at hpasses
      exact valid_applySetting hkeys (List.mem_of_find?_eq_some hfound) hpasses.2
    · cases h

/-- The handlers of one command post no setting. -/
theorem Jobs.handler_netPost {scheduler : AppScheduler} {action : Jobs.Action} {command : Command}
    (h : action.handler scheduler = some (.netPost command)) :
    command.kind ≠ .kApplySetting ∧ command.key = [] := by
  cases action with
  | setLed body =>
      obtain ⟨_, hcommand, hpost⟩ := Option.map_eq_some_iff.mp h
      cases hpost
      obtain ⟨on, _, rfl⟩ := Option.map_eq_some_iff.mp hcommand
      exact ⟨CommandKind.noConfusion, rfl⟩
  | setActiveApp body =>
      obtain ⟨_, hcommand, hpost⟩ := Option.map_eq_some_iff.mp h
      cases hpost
      rw [setActiveAppCommand] at hcommand
      split at hcommand
      · cases hcommand
      · split at hcommand
        · cases hcommand
        · cases hcommand
          exact ⟨CommandKind.noConfusion, rfl⟩
  | request wildcard body | checkFree | post | reply | wsMessage body => cases h
  | take | apply | announce | drop | resend | takeEvent | readValue | send => cases h

/-- A handler's step is one of the tasks' steps, and not the drain's. -/
theorem Jobs.step_of_handler {jobs next : Jobs} {action : Jobs.Action}
    {taskAction : Tasks.Action} (h : action.handler jobs.tasks.scheduler = some taskAction)
    (hstep : jobs.step action = some next) :
    jobs.handle taskAction = some next ∧ taskAction ≠ .take := by
  cases action with
  | request wildcard body | checkFree | post | reply | wsMessage body =>
      cases h
      exact ⟨hstep, Tasks.Action.noConfusion⟩
  | setLed body | setActiveApp body =>
      rw [step, h] at hstep
      obtain ⟨command, _, rfl⟩ := Option.map_eq_some_iff.mp h
      exact ⟨hstep, Tasks.Action.noConfusion⟩
  | take | apply | announce | drop | resend | takeEvent | readValue | send => cases h

namespace Tasks

/-- What the settings handler has accepted is valid. -/
def NetValid (scheduler : AppScheduler) : NetPc → Prop
  | .checking appIndex accepted _ =>
      ∀ entry ∈ accepted, Valid scheduler (Command.applySetting appIndex entry.key entry.value)
  | .posting loop =>
      ∀ entry ∈ loop.accepted,
        Valid scheduler (Command.applySetting loop.appIndex entry.key entry.value)
  | .idle | .answered _ _ _ => True

theorem NetValid.countOther {scheduler : AppScheduler} {pc : NetPc} (h : NetValid scheduler pc) :
    NetValid scheduler pc.countOther := by
  cases pc <;> exact h

theorem NetValid.countTaken {scheduler : AppScheduler} {pc : NetPc} (h : NetValid scheduler pc) :
    NetValid scheduler pc.countTaken := by
  cases pc <;> exact h

theorem NetValid.of_descriptors {scheduler other : AppScheduler} {pc : NetPc}
    (h : NetValid scheduler pc)
    (hsame : ∀ appIndex, other.descriptors appIndex = scheduler.descriptors appIndex) :
    NetValid other pc := by
  cases pc with
  | checking appIndex accepted tooManyToQueue =>
      exact fun entry hentry => (h entry hentry).of_descriptors hsame
  | posting loop => exact fun entry hentry => (h entry hentry).of_descriptors hsame
  | idle | answered accepted landed reply => trivial

/-- No command changes a descriptor. -/
theorem descriptors_applyCommand (tasks : Tasks) (command : Command) (appIndex : UInt8) :
    (tasks.applyCommand command).scheduler.descriptors appIndex =
      tasks.scheduler.descriptors appIndex := by
  rw [applyCommand]
  split
  · exact AppScheduler.switchTo_descriptors _ _ _
  · split
    · rfl
    · rename_i happly
      exact (AppScheduler.applied_of_applySetting happly).descriptors appIndex
  · rfl

/-- What a command does depends on the apps and the LED only. -/
theorem applyCommand_congr {tasks other : Tasks} (hscheduler : tasks.scheduler = other.scheduler)
    (hled : tasks.led = other.led) (command : Command) :
    (tasks.applyCommand command).scheduler = (other.applyCommand command).scheduler ∧
      (tasks.applyCommand command).led = (other.applyCommand command).led := by
  rw [applyCommand, applyCommand, hscheduler]
  cases command.kind with
  | kSwitchApp => exact ⟨rfl, hled⟩
  | kApplySetting =>
      simp only
      cases other.scheduler.applySetting command.appIndex command.key command.value with
      | none => exact ⟨hscheduler, hled⟩
      | some scheduler => exact ⟨rfl, hled⟩
  | kSetLed => exact ⟨rfl, rfl⟩

/-- What a handler's step does: it leaves the apps and the LED alone, queues what it posts, and
goes on holding only what the apps would accept. -/
structure Handled (tasks : Tasks) (action : Action) (next : Tasks) : Prop where
  scheduler : next.scheduler = tasks.scheduler
  led : next.led = tasks.led
  queue : next.queue.commands = tasks.queue.commands ++ tasks.queued action
  net : NetValid tasks.scheduler tasks.net → ShortKeys tasks.scheduler →
    NetValid tasks.scheduler next.net

/-- The step of a handler that offers nothing. -/
theorem queued_of_none {tasks : Tasks} {action : Action} (h : tasks.offered action = none) :
    tasks.queued action = [] := by
  rw [queued, h]

theorem queued_of_refused {tasks : Tasks} {action : Action} {command : Command}
    (h : tasks.offered action = some command) (hfull : tasks.queue.commandPost command = none) :
    tasks.queued action = [] := by
  simp [queued, h, hfull]

theorem queued_of_posted {tasks : Tasks} {action : Action} {command : Command}
    {queue : CommandQueue} (h : tasks.offered action = some command)
    (hposted : tasks.queue.commandPost command = some queue) :
    tasks.queued action = [command] := by
  simp [queued, h, hposted]

theorem offered_of_mem_queued {tasks : Tasks} {action : Action} {command : Command}
    (h : command ∈ tasks.queued action) : tasks.offered action = some command := by
  rw [queued] at h
  split at h
  · cases h
  · rename_i offered hoffered
    split at h
    · rw [hoffered, List.mem_singleton.mp h]
    · cases h

/-- Whatever a handler offers is valid. -/
theorem valid_offered {tasks : Tasks} {action : Action} {command : Command}
    (h : tasks.offered action = some command) (hnet : NetValid tasks.scheduler tasks.net)
    (hkeys : ShortKeys tasks.scheduler)
    (hother : ∀ command, action = .netPost command → Valid tasks.scheduler command) :
    Valid tasks.scheduler command := by
  cases action with
  | post =>
      simp only [offered] at h
      split at h
      · rename_i loop hloop
        obtain ⟨entry, hentry, rfl⟩ := Option.map_eq_some_iff.mp h
        rw [hloop] at hnet
        exact hnet entry (List.mem_of_getElem? hentry)
      · cases h
  | netPost other =>
      simp only [offered] at h
      split at h
      · cases h
        exact hother _ rfl
      · cases h
  | wsMessage body => exact valid_wsCommand hkeys h
  | request wildcard body | checkFree | reply | take => cases h

theorem valid_queued {tasks : Tasks} {action : Action} (hnet : NetValid tasks.scheduler tasks.net)
    (hkeys : ShortKeys tasks.scheduler)
    (hother : ∀ command, action = .netPost command → Valid tasks.scheduler command) :
    ∀ command ∈ tasks.queued action, Valid tasks.scheduler command :=
  fun _ hcommand => valid_offered (offered_of_mem_queued hcommand) hnet hkeys hother

theorem handled_post {tasks next : Tasks} (h : tasks.post = some next) :
    Handled tasks .post next := by
  rw [post] at h
  split at h
  · rename_i loop hloop
    split at h
    · cases h
    · rename_i entry hentry
      have hoffered : tasks.offered .post =
          some (Command.applySetting loop.appIndex entry.key entry.value) := by
        simp only [offered, hloop, hentry, Option.map_some]
      have hnet : NetValid tasks.scheduler tasks.net → ∀ entry ∈ loop.accepted,
          Valid tasks.scheduler (Command.applySetting loop.appIndex entry.key entry.value) :=
        fun hvalid => by
          rw [hloop] at hvalid
          exact hvalid
      split at h
      · rename_i hfull
        cases h
        exact ⟨rfl, rfl, by rw [queued_of_refused hoffered hfull, List.append_nil],
          fun hold _ => hnet hold⟩
      · rename_i queue hposted
        cases h
        exact ⟨rfl, rfl, by
          rw [queued_of_posted hoffered hposted]
          exact CommandQueue.commands_of_post hposted, fun hold _ => hnet hold⟩
  · cases h

/-- A command of the network task between two requests. -/
theorem handled_netPost {tasks next : Tasks} {command : Command}
    (h : tasks.step (.netPost command) = some next) : Handled tasks (.netPost command) next := by
  simp only [step] at h
  split at h
  · rename_i hbetween
    cases h
    have hoffered : tasks.offered (.netPost command) = some command := by
      simp only [offered, hbetween, if_true]
    refine ⟨rfl, rfl, ?_, fun hold _ => hold⟩
    cases hpost : tasks.queue.commandPost command with
    | none =>
        rw [queued_of_refused hoffered hpost, List.append_nil]
        rfl
    | some queue =>
        rw [queued_of_posted hoffered hpost]
        exact CommandQueue.commands_of_post hpost
  · cases h

/-- A message of the WebSocket task. -/
theorem handled_wsMessage {tasks next : Tasks} {body : Option Json}
    (h : tasks.step (.wsMessage body) = some next) : Handled tasks (.wsMessage body) next := by
  simp only [step] at h
  split at h
  · rename_i hnone
    cases h
    refine ⟨rfl, rfl, ?_, fun hold _ => hold⟩
    have hoffered : tasks.offered (.wsMessage body) = wsCommand tasks.scheduler body := rfl
    cases hcommand : wsCommand tasks.scheduler body with
    | none => rw [queued_of_none (hoffered.trans hcommand), List.append_nil]
    | some command =>
        rw [hcommand, Option.bind_some] at hnone
        rw [queued_of_refused (hoffered.trans hcommand) hnone, List.append_nil]
  · rename_i queue hqueue
    obtain ⟨command, hcommand, hpost⟩ := Option.bind_eq_some_iff.mp hqueue
    cases h
    refine ⟨rfl, rfl, ?_, fun hold _ => hold.countOther⟩
    have hoffered : tasks.offered (.wsMessage body) = some command := hcommand
    rw [queued_of_posted hoffered hpost]
    exact CommandQueue.commands_of_post hpost

theorem handled_step {tasks next : Tasks} {action : Action} (hne : action ≠ .take)
    (h : tasks.step action = some next) : Handled tasks action next := by
  cases action with
  | request wildcard body =>
      simp only [step] at h
      split at h
      · cases h
        refine ⟨rfl, rfl, by rw [queued_of_none rfl, List.append_nil], fun _ hkeys => ?_⟩
        simp only
        split
        · trivial
        · rename_i hprepared
          exact valid_prepareSettings hkeys hprepared
      · cases h
  | checkFree =>
      simp only [step, checkFree] at h
      split at h
      · rename_i appIndex accepted tooManyToQueue hnet
        cases h
        refine ⟨rfl, rfl, by rw [queued_of_none rfl, List.append_nil], fun hold _ => ?_⟩
        rw [hnet] at hold
        simp only
        split
        · trivial
        · exact hold
      · cases h
  | post => exact handled_post h
  | reply =>
      simp only [step, reply] at h
      split at h
      · split at h
        · cases h
          exact ⟨rfl, rfl, by rw [queued_of_none rfl, List.append_nil], fun _ _ => trivial⟩
        · cases h
      · cases h
  | netPost command => exact handled_netPost h
  | wsMessage body => exact handled_wsMessage h
  | take => exact absurd rfl hne

end Tasks

namespace Jobs

/-! ## Exactly once, in order -/

/-- The command between `commandTake` and its application. -/
def inFlight (jobs : Jobs) : List Command :=
  match jobs.drain with
  | .taken command => [command]
  | _ => []

/-- Every command that was posted has been carried out, is at work or waits, in this order,
and the apps will accept those that are left. -/
structure InOrder (start : Tasks) (jobs : Jobs) : Prop where
  posted : jobs.posted = jobs.performed ++ jobs.inFlight ++ jobs.tasks.queue.commands
  scheduler : (jobs.performed.foldl Tasks.applyCommand start).scheduler = jobs.tasks.scheduler
  led : (jobs.performed.foldl Tasks.applyCommand start).led = jobs.tasks.led
  refused : jobs.refused = []
  descriptors : ∀ appIndex,
    jobs.tasks.scheduler.descriptors appIndex = start.scheduler.descriptors appIndex
  waiting : ∀ command ∈ jobs.inFlight ++ jobs.tasks.queue.commands,
    Valid jobs.tasks.scheduler command
  net : Tasks.NetValid jobs.tasks.scheduler jobs.tasks.net

theorem InOrder.shortKeys {start : Tasks} {jobs : Jobs} (h : InOrder start jobs)
    (hkeys : ShortKeys start.scheduler) : ShortKeys jobs.tasks.scheduler := by
  intro appIndex descriptor hmem
  rw [h.descriptors] at hmem
  exact hkeys appIndex descriptor hmem

/-- A step that moves no command. -/
theorem InOrder.of_same {start : Tasks} {jobs next : Jobs} (h : InOrder start jobs)
    (htasks : next.tasks = jobs.tasks) (hflight : next.inFlight = jobs.inFlight)
    (hposted : next.posted = jobs.posted) (hperformed : next.performed = jobs.performed)
    (hrefused : next.refused = jobs.refused) : InOrder start next where
  posted := by rw [hposted, hperformed, hflight, htasks, h.posted]
  scheduler := by rw [hperformed, htasks, h.scheduler]
  led := by rw [hperformed, htasks, h.led]
  refused := by rw [hrefused, h.refused]
  descriptors := by rw [htasks]; exact h.descriptors
  waiting := by rw [hflight, htasks]; exact h.waiting
  net := by rw [htasks]; exact h.net

theorem inOrder_handle {start : Tasks} {jobs next : Jobs} {action : Tasks.Action}
    (h : InOrder start jobs) (hkeys : ShortKeys start.scheduler) (hne : action ≠ .take)
    (hother : ∀ command, action = .netPost command → Valid jobs.tasks.scheduler command)
    (hstep : jobs.handle action = some next) : InOrder start next := by
  obtain ⟨tasks, htasks, rfl⟩ := Option.map_eq_some_iff.mp hstep
  have hhandled := Tasks.handled_step hne htasks
  have hshort := h.shortKeys hkeys
  have hvalid := Tasks.valid_queued h.net hshort hother
  refine ⟨?_, ?_, ?_, h.refused, ?_, ?_, ?_⟩
  · simp only [h.posted, hhandled.queue, inFlight, List.append_assoc]
  · rw [hhandled.scheduler]
    exact h.scheduler
  · rw [hhandled.led]
    exact h.led
  · rw [hhandled.scheduler]
    exact h.descriptors
  · intro command hcommand
    rw [hhandled.queue, ← List.append_assoc] at hcommand
    rw [hhandled.scheduler]
    rcases List.mem_append.mp hcommand with hold | hnew
    · exact h.waiting command hold
    · exact hvalid command hnew
  · rw [hhandled.scheduler]
    exact hhandled.net h.net hshort

theorem inOrder_take {start : Tasks} {jobs next : Jobs} (h : InOrder start jobs)
    (hstep : jobs.take = some next) : InOrder start next := by
  rw [take] at hstep
  split at hstep
  · rename_i hidle
    split at hstep
    · cases hstep
      exact h
    · rename_i command queue htake
      cases hstep
      have hcommands := CommandQueue.commands_of_take htake
      have hflight : jobs.inFlight = [] := by rw [inFlight, hidle]
      refine ⟨?_, h.scheduler, h.led, h.refused, h.descriptors, ?_, h.net.countTaken⟩
      · simp only [inFlight, h.posted, hidle, hcommands, List.append_nil, List.append_assoc,
          List.singleton_append]
      · have hwaiting := h.waiting
        rw [hflight, hcommands] at hwaiting
        exact hwaiting
  · cases hstep

/-- The drain carries out the command it took. -/
theorem InOrder.perform {start : Tasks} {jobs next : Jobs} {command : Command}
    (h : InOrder start jobs) (hflight : jobs.inFlight = [command])
    (hnext : next.inFlight = []) (htasks : next.tasks = jobs.tasks.applyCommand command)
    (hposted : next.posted = jobs.posted)
    (hperformed : next.performed = jobs.performed ++ [command])
    (hrefused : next.refused = jobs.refused) : InOrder start next := by
  obtain ⟨hnet, hqueue⟩ := Tasks.net_applyCommand jobs.tasks command
  have hsame := Tasks.descriptors_applyCommand jobs.tasks command
  have hlast : next.performed.foldl Tasks.applyCommand start =
      (jobs.performed.foldl Tasks.applyCommand start).applyCommand command := by
    rw [hperformed, List.foldl_append, List.foldl_cons, List.foldl_nil]
  obtain ⟨hscheduler, hled⟩ := Tasks.applyCommand_congr h.scheduler h.led command
  have hwaiting := h.waiting
  rw [hflight] at hwaiting
  refine ⟨?_, ?_, ?_, ?_, fun appIndex => ?_, fun other hmem => ?_, ?_⟩
  · rw [hposted, hperformed, hnext, htasks, hqueue, h.posted, hflight, List.append_nil]
  · rw [hlast, htasks, hscheduler]
  · rw [hlast, htasks, hled]
  · rw [hrefused, h.refused]
  · rw [htasks, hsame, h.descriptors]
  · rw [hnext, htasks, hqueue, List.nil_append] at hmem
    rw [htasks]
    exact (hwaiting other (List.mem_cons_of_mem _ hmem)).of_descriptors hsame
  · rw [htasks, hnet]
    exact h.net.of_descriptors hsame

/-- The apps accept what the drain took. -/
theorem inOrder_apply {start : Tasks} {jobs next : Jobs} (h : InOrder start jobs)
    (hstep : jobs.apply = some next) : InOrder start next := by
  rw [apply] at hstep
  split at hstep
  · rename_i command htaken
    have hflight : jobs.inFlight = [command] := by rw [inFlight, htaken]
    cases hkind : command.kind with
    | kSwitchApp =>
        simp only [hkind, Option.some.injEq] at hstep
        subst hstep
        exact h.perform hflight rfl (by rw [Tasks.applyCommand, hkind]) rfl rfl rfl
    | kApplySetting =>
        have hvalid := h.waiting command (by rw [hflight]; exact List.mem_cons_self) hkind
        rw [← AppScheduler.applySetting_isSome] at hvalid
        obtain ⟨scheduler, hscheduler⟩ := Option.isSome_iff_exists.mp hvalid
        simp only [hkind, hscheduler, Option.some.injEq] at hstep
        subst hstep
        exact h.perform hflight rfl (by simp only [Tasks.applyCommand, hkind, hscheduler]) rfl rfl
          rfl
    | kSetLed =>
        simp only [hkind, Option.some.injEq] at hstep
        subst hstep
        exact h.perform hflight rfl (by rw [Tasks.applyCommand, hkind]) rfl rfl rfl
  · cases hstep

theorem inOrder_step {start : Tasks} {jobs next : Jobs} {action : Action}
    (h : InOrder start jobs) (hkeys : ShortKeys start.scheduler)
    (hstep : jobs.step action = some next) : InOrder start next := by
  cases hhandler : action.handler jobs.tasks.scheduler with
  | some taskAction =>
      obtain ⟨hhandle, hne⟩ := step_of_handler hhandler hstep
      refine inOrder_handle h hkeys hne (fun command hcommand hkind => ?_) hhandle
      rw [hcommand] at hhandler
      exact absurd hkind (handler_netPost hhandler).1
  | none =>
      cases action with
      | take => exact inOrder_take h hstep
      | apply => exact inOrder_apply h hstep
      | announce =>
          simp only [step, announce] at hstep
          split at hstep
          · rename_i event hdrain
            have hflight : jobs.inFlight = [] := by rw [inFlight, hdrain]
            split at hstep
            · cases hstep
              exact h.of_same rfl hflight.symm rfl rfl rfl
            · cases hstep
              exact h.of_same rfl hflight.symm rfl rfl rfl
          · cases hstep
      | drop =>
          simp only [step, drop] at hstep
          split at hstep
          · rename_i event hdrain
            have hflight : jobs.inFlight = [] := by rw [inFlight, hdrain]
            cases hstep
            exact h.of_same rfl hflight.symm rfl rfl rfl
          · cases hstep
      | resend =>
          simp only [step, resend] at hstep
          split at hstep
          · rename_i event hdrain
            have hflight : jobs.inFlight = [] := by rw [inFlight, hdrain]
            cases hstep
            exact h.of_same rfl hflight.symm rfl rfl rfl
          · cases hstep
      | takeEvent =>
          simp only [step, takeEvent] at hstep
          split at hstep
          · split at hstep
            · cases hstep
              exact h
            · cases hstep
              exact h.of_same rfl rfl rfl rfl rfl
          · cases hstep
      | readValue =>
          simp only [step, readValue] at hstep
          split at hstep
          · cases hstep
            exact h.of_same rfl rfl rfl rfl rfl
          · cases hstep
      | send =>
          simp only [step, send] at hstep
          split at hstep
          · cases hstep
            exact h.of_same rfl rfl rfl rfl rfl
          · cases hstep
      | setLed body | setActiveApp body =>
          rw [step, hhandler] at hstep
          cases hstep
          exact h
      | request wildcard body | checkFree | post | reply | wsMessage body => cases hhandler

theorem inOrder_boot (scheduler : AppScheduler) (led : Bool) :
    InOrder (boot scheduler led).tasks (boot scheduler led) :=
  ⟨rfl, rfl, rfl, rfl, fun _ => rfl, fun _ hnone => absurd hnone List.not_mem_nil, trivial⟩

end Jobs

/-! ## What a command leaves -/

namespace Tasks

/-- A switch leaves the app active that it names, if there is one, and every setting alone. -/
theorem applyCommand_switchApp {tasks : Tasks} {command : Command}
    (hkind : command.kind = .kSwitchApp) :
    (tasks.applyCommand command).scheduler.activeIndex =
        (if command.appIndex.toNat < tasks.scheduler.count then command.appIndex
          else tasks.scheduler.activeIndex) ∧
      (∀ appIndex key, (tasks.applyCommand command).scheduler.getSetting appIndex key =
        tasks.scheduler.getSetting appIndex key) ∧
      (tasks.applyCommand command).led = tasks.led := by
  have happly : tasks.applyCommand command =
      { tasks with scheduler := tasks.scheduler.switchTo command.appIndex } := by
    rw [Tasks.applyCommand, hkind]
  rw [happly]
  refine ⟨?_, fun appIndex key => ?_, rfl⟩
  · change (tasks.scheduler.switchTo command.appIndex).activeIndex = _
    rw [AppScheduler.switchTo]
    split
    · rename_i hstays
      split
      · rename_i hlt
        exact (hstays.resolve_left (Nat.not_le.mpr hlt)).symm
      · rfl
    · rename_i hmoves
      rw [not_or, Nat.not_le] at hmoves
      rw [if_pos hmoves.1]
  · rw [AppScheduler.getSetting_eq, AppScheduler.getSetting_eq, AppScheduler.switchTo_settingAt]

/-- A setting that passes validation reads as it was given, and nothing else changes. -/
theorem applyCommand_applySetting {tasks : Tasks} {command : Command}
    (hkind : command.kind = .kApplySetting) (hvalid : Valid tasks.scheduler command) :
    (∃ read, (tasks.applyCommand command).scheduler.getSetting command.appIndex command.key =
        some read ∧ command.value.Same read) ∧
      (∀ appIndex key, appIndex ≠ command.appIndex ∨ cstring key ≠ cstring command.key →
        (tasks.applyCommand command).scheduler.getSetting appIndex key =
          tasks.scheduler.getSetting appIndex key) ∧
      (tasks.applyCommand command).scheduler.activeIndex = tasks.scheduler.activeIndex ∧
      (tasks.applyCommand command).led = tasks.led := by
  obtain ⟨next, happlied⟩ := Option.isSome_iff_exists.mp
    ((AppScheduler.applySetting_isSome ..).trans (hvalid hkind))
  obtain ⟨⟨binding, haccepts, -, hwritten⟩, hothers, -, -, -⟩ :=
    AppScheduler.applied_of_applySetting happlied
  have happly : tasks.applyCommand command = { tasks with scheduler := next } := by
    rw [Tasks.applyCommand, hkind]
    simp only [happlied]
  rw [happly]
  refine ⟨⟨_, ?_, binding.same_read_write haccepts⟩, fun appIndex key hother => ?_, ?_, rfl⟩
  · rw [AppScheduler.getSetting_eq, hwritten]
    rfl
  · rw [AppScheduler.getSetting_eq, AppScheduler.getSetting_eq, hothers appIndex key hother]
  · exact AppScheduler.activeIndex_applySetting happlied

/-- The LED's command leaves its state, and every app alone. -/
theorem applyCommand_setLed {tasks : Tasks} {command : Command} (hkind : command.kind = .kSetLed) :
    (tasks.applyCommand command).led = command.on ∧
      (tasks.applyCommand command).scheduler = tasks.scheduler := by
  rw [Tasks.applyCommand, hkind]
  exact ⟨rfl, rfl⟩

end Tasks

namespace Jobs

/-! ## The order of the commands -/

/-- In every run the drain carries out the posted commands, each once and in the order they
were posted, and `applySetting` refuses none. -/
theorem applied_once_in_order (scheduler : AppScheduler) (led : Bool)
    (hkeys : ShortKeys scheduler) (actions : List Action) (final : Jobs)
    (hexec : machine.exec (boot scheduler led) actions = some final) :
    final.posted = final.performed ++ final.inFlight ++ final.tasks.queue.commands ∧
      (final.performed.foldl Tasks.applyCommand (boot scheduler led).tasks).scheduler =
        final.tasks.scheduler ∧
      (final.performed.foldl Tasks.applyCommand (boot scheduler led).tasks).led =
        final.tasks.led ∧
      final.refused = [] := by
  have hfinal : InOrder (boot scheduler led).tasks final :=
    machine.invariant_of_allowed
      (fun _ _ _ hInv (_ : True) hstep => inOrder_step hInv hkeys hstep) actions _ _
      (inOrder_boot scheduler led) (fun _ _ => trivial) hexec
  exact ⟨hfinal.posted, hfinal.scheduler, hfinal.led, hfinal.refused⟩

/-! ## A setting and the LED -/

/-- `{"app":0,"key":"a","value":true}` -/
def flagDocument : Json :=
  .object [(ascii "app", .int 0), (ascii "key", .string (ascii "a")), (ascii "value", .bool true)]

/-- A message and a request post one command each; the drain takes both. -/
def flagAndLed : List Action :=
  [.wsMessage (some flagDocument), .setLed (some (.object [(ascii "on", .bool true)])), .take,
    .apply, .announce, .take, .apply]

theorem shortKeys_twoFlags : ShortKeys Tasks.twoFlags := by
  refine shortKeys_of_apps fun app happ bag hbag binding hbinding => ?_
  rw [List.mem_singleton.mp happ] at hbag
  cases hbag
  simp only [List.mem_cons, List.not_mem_nil, or_false] at hbinding
  rcases hbinding with rfl | rfl <;> decide

theorem applied_once_in_order_flagAndLed :
    ∃ final, machine.exec (boot Tasks.twoFlags false) flagAndLed = some final ∧
      final.performed.map Command.kind = [.kApplySetting, .kSetLed] ∧
      final.posted = final.performed ++ final.inFlight ++ final.tasks.queue.commands ∧
      final.refused = [] := by
  have hexec : (machine.exec (boot Tasks.twoFlags false) flagAndLed).isSome = true := rfl
  obtain ⟨final, hfinal⟩ := Option.isSome_iff_exists.mp hexec
  obtain ⟨hposted, _, _, hrefused⟩ :=
    applied_once_in_order Tasks.twoFlags false shortKeys_twoFlags flagAndLed final hfinal
  refine ⟨final, hfinal, ?_, hposted, hrefused⟩
  have hkinds : (machine.exec (boot Tasks.twoFlags false) flagAndLed).map
      (fun jobs => jobs.performed.map Command.kind) = some [.kApplySetting, .kSetLed] := rfl
  rw [hfinal] at hkinds
  exact Option.some.inj hkinds

end Jobs

end MatrixFaces.Api
