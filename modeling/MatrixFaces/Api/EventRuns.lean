import MatrixFaces.Api.JobRuns

set_option autoImplicit false

/-!
# Messages to the listeners, over whole runs

An event names a setting and carries no value, so one event is as good as many.  A change
is still owed to the listeners as long as an event of its setting is on its way, and it is
lost when a full queue drops the last one.

The main result is `converged_of_safe_drops`.  `Quiet` says that nothing is on its way any
more: no command, no event, no message.  `Converged` says that the last message about each
setting that was changed carries the value the setting holds.

The condition is `DropIsSafe`, on the state in front of each step that drops an event: without
it the setting that it names is still `Settled`.  Another event of that setting is on its way,
or the message at hand has the value, or the last message had it or there was none to owe.

What carries the proof is `Announced`, that every setting is settled.  Each step keeps it
(`announced_step`), by a lemma for each task.  `change_never_broadcast` is a run in which one
change and sixteen switches lose it.
-/

namespace MatrixFaces.Api

open MatrixFaces.Foundation
open MatrixFaces.Apps
open MatrixFaces.Board

/-- The event announces a change of this setting. -/
def Names (event : Event) (appIndex : UInt8) (key : Bytes) : Prop :=
  event.kind = .kSettingChanged ∧ event.appIndex = appIndex ∧ event.key = key

/-- The event `drainCommands` is about to post. -/
def DrainPc.event? : DrainPc → Option Event
  | .announcing event | .dropping event | .resending event => some event
  | .idle | .taken _ => none

/-- The entry is about this setting. -/
def LogEntry.about (appIndex : UInt8) (key : Bytes) : LogEntry → Bool
  | .changed other otherKey | .broadcast other otherKey _ => other == appIndex && otherKey == key
  | .switched _ => false

theorem about_changed {appIndex other : UInt8} {key otherKey : Bytes} :
    (LogEntry.changed other otherKey).about appIndex key = true ↔
      other = appIndex ∧ otherKey = key := by
  rw [LogEntry.about, Bool.and_eq_true, beq_iff_eq, beq_iff_eq]

theorem about_broadcast {appIndex other : UInt8} {key otherKey : Bytes}
    {value : Option SettingValue} :
    (LogEntry.broadcast other otherKey value).about appIndex key = true ↔
      other = appIndex ∧ otherKey = key := by
  rw [LogEntry.about, Bool.and_eq_true, beq_iff_eq, beq_iff_eq]

/-- The last thing that happened to a setting. -/
def lastAbout (log : List LogEntry) (appIndex : UInt8) (key : Bytes) : Option LogEntry :=
  (log.filter (LogEntry.about appIndex key)).getLast?

theorem lastAbout_append (log : List LogEntry) (entry : LogEntry) (appIndex : UInt8)
    (key : Bytes) :
    lastAbout (log ++ [entry]) appIndex key =
      if entry.about appIndex key = true then some entry else lastAbout log appIndex key := by
  rw [lastAbout, List.filter_append, List.filter_singleton]
  by_cases habout : entry.about appIndex key = true
  · rw [if_pos habout, habout, cond_true, List.getLast?_concat]
  · rw [if_neg habout, Bool.not_eq_true _ |>.mp habout, cond_false, List.append_nil, lastAbout]

theorem lastAbout_ne_none {log : List LogEntry} {appIndex : UInt8} {key : Bytes}
    (h : LogEntry.changed appIndex key ∈ log) : lastAbout log appIndex key ≠ none := by
  rw [lastAbout, ne_eq, List.getLast?_eq_none_iff]
  exact List.ne_nil_of_mem (List.mem_filter.mpr ⟨h, about_changed.mpr ⟨rfl, rfl⟩⟩)

namespace Jobs

/-- What a listener would read now. -/
def live (jobs : Jobs) (appIndex : UInt8) (key : Bytes) : Option SettingValue :=
  jobs.tasks.scheduler.getSetting appIndex key

/-- An event of the setting is on its way to `getSetting`. -/
structure Pending (jobs : Jobs) (appIndex : UInt8) (key : Bytes) : Prop where
  named : (∃ event ∈ jobs.events.events, Names event appIndex key) ∨
    (∃ event, jobs.drain.event? = some event ∧ Names event appIndex key) ∨
    ∃ event, jobs.broadcaster = .reading event ∧ Names event appIndex key

/-- The message at hand tells the listeners this value of the setting. -/
def Sending (jobs : Jobs) (appIndex : UInt8) (key : Bytes) (value : Option SettingValue) : Prop :=
  ∃ event, jobs.broadcaster = .sending event value ∧ Names event appIndex key

/-- The listeners know the value, or are about to be told: an event is on its way, or the
message at hand has it, or the last message had it. -/
def Settled (jobs : Jobs) (appIndex : UInt8) (key : Bytes) : Prop :=
  jobs.Pending appIndex key ∨ jobs.Sending appIndex key (jobs.live appIndex key) ∨
    ((∀ value, ¬ jobs.Sending appIndex key value) ∧
      (lastAbout jobs.log appIndex key = none ∨
        lastAbout jobs.log appIndex key =
          some (.broadcast appIndex key (jobs.live appIndex key))))

/-- Both queues are empty and no pass is in progress, so nothing more will be told unless
something is posted. -/
structure Quiet (jobs : Jobs) : Prop where
  commands : jobs.tasks.queue.commands = []
  events : jobs.events.events = []
  drain : jobs.drain = .idle
  broadcaster : jobs.broadcaster = .idle

/-- Every setting that was changed was last broadcast with the value it holds. -/
def Converged (jobs : Jobs) : Prop :=
  ∀ appIndex key, LogEntry.changed appIndex key ∈ jobs.log →
    ∃ value, jobs.live appIndex key = some value ∧
      lastAbout jobs.log appIndex key = some (.broadcast appIndex key (some value))

/-- An event that a full queue drops is not the last one owed for its setting: another one
is on its way, or the value has been read or sent since the change. -/
def DropIsSafe (jobs : Jobs) (action : Action) : Prop :=
  match action with
  | .drop => ∀ oldest ∈ jobs.events.events.head?, ∀ appIndex key, Names oldest appIndex key →
      ({ jobs with events := jobs.events.discard } : Jobs).Settled appIndex key
  | _ => True

/-- A step that takes no event of the setting away. -/
theorem Settled.mono {jobs next : Jobs} {appIndex : UInt8} {key : Bytes}
    (h : jobs.Settled appIndex key) (hlive : next.live appIndex key = jobs.live appIndex key)
    (hlog : lastAbout next.log appIndex key = lastAbout jobs.log appIndex key)
    (hsending : ∀ value, next.Sending appIndex key value ↔ jobs.Sending appIndex key value)
    (hpending : jobs.Pending appIndex key → next.Pending appIndex key) :
    next.Settled appIndex key := by
  rcases h with hnamed | hnow | ⟨hnone, hlast⟩
  · exact Or.inl (hpending hnamed)
  · refine Or.inr (Or.inl ?_)
    rw [hlive, hsending]
    exact hnow
  · refine Or.inr (Or.inr ⟨fun value hvalue => hnone value ((hsending value).mp hvalue), ?_⟩)
    rw [hlog, hlive]
    exact hlast

/-- A setting that is neither owed nor being told is up to date. -/
theorem Settled.of_quiet {jobs : Jobs} {appIndex : UInt8} {key : Bytes}
    (h : jobs.Settled appIndex key) (hquiet : jobs.Quiet) :
    lastAbout jobs.log appIndex key = none ∨
      lastAbout jobs.log appIndex key =
        some (.broadcast appIndex key (jobs.live appIndex key)) := by
  rcases h with ⟨⟨event, hmem, _⟩ | ⟨event, hevent, _⟩ | ⟨event, hreading, _⟩⟩ |
    ⟨event, hsending, _⟩ | ⟨_, hlast⟩
  · rw [hquiet.events] at hmem
    cases hmem
  · rw [hquiet.drain] at hevent
    cases hevent
  · rw [hquiet.broadcaster] at hreading
    cases hreading
  · rw [hquiet.broadcaster] at hsending
    cases hsending
  · exact hlast

/-! ## What every step keeps -/

/-- The key went through the 16 characters of a command, and stays as it is if it does so
again. -/
def ShortKey (command : Command) : Prop :=
  (cstring command.key).take (kCommandKeyCap - 1) = command.key

theorem ShortKey.cstring_key {command : Command} (h : ShortKey command) :
    cstring command.key = command.key := by
  refine cstring_of_not_mem fun hzero => ?_
  rw [← show _ = command.key from h] at hzero
  exact zero_not_mem_cstring _ (List.mem_of_mem_take hzero)

theorem shortKey_applySetting (appIndex : UInt8) (key : Bytes) (value : SettingValue) :
    ShortKey (Command.applySetting appIndex key value) := by
  have hzero : (0 : Byte) ∉ (cstring key).take (kCommandKeyCap - 1) := fun h =>
    zero_not_mem_cstring key (List.mem_of_mem_take h)
  rw [ShortKey, Command.applySetting, cstring_of_not_mem hzero, List.take_take, Nat.min_self]

theorem shortKey_queued {tasks : Tasks} {action : Tasks.Action}
    (hother : ∀ command, action = .netPost command → ShortKey command) :
    ∀ command ∈ tasks.queued action, ShortKey command := by
  intro command hcommand
  have hoffered := Tasks.offered_of_mem_queued hcommand
  cases action with
  | post =>
      simp only [Tasks.offered] at hoffered
      split at hoffered
      · obtain ⟨entry, _, rfl⟩ := Option.map_eq_some_iff.mp hoffered
        exact shortKey_applySetting _ _ _
      · cases hoffered
  | netPost other =>
      simp only [Tasks.offered] at hoffered
      split at hoffered
      · cases hoffered
        exact hother _ rfl
      · cases hoffered
  | wsMessage body =>
      simp only [Tasks.offered, wsCommand] at hoffered
      obtain ⟨_, _, hoffered⟩ := Option.bind_eq_some_iff.mp hoffered
      obtain ⟨_, _, hoffered⟩ := Option.bind_eq_some_iff.mp hoffered
      obtain ⟨_, _, hoffered⟩ := Option.bind_eq_some_iff.mp hoffered
      split at hoffered
      · cases hoffered
      · obtain ⟨_, _, hoffered⟩ := Option.bind_eq_some_iff.mp hoffered
        split at hoffered
        · cases hoffered
          exact shortKey_applySetting _ _ _
        · cases hoffered
  | request wildcard body | checkFree | reply | take => cases hoffered

/-- Every setting is settled; the rest is what the steps need to know to keep it so.  Keys are
as the drain writes them, the live values of changed settings exist, and a second send finds
the place that was made for it. -/
structure Announced (jobs : Jobs) : Prop where
  settled : ∀ appIndex key, cstring key = key → jobs.Settled appIndex key
  known : ∀ appIndex key, LogEntry.changed appIndex key ∈ jobs.log →
    cstring key = key ∧ (jobs.live appIndex key).isSome = true
  short : ∀ command ∈ jobs.inFlight ++ jobs.tasks.queue.commands, ShortKey command
  room : ∀ event, jobs.drain = .resending event →
    jobs.events.events.length < kEventQueueDepth

theorem announced_boot (scheduler : AppScheduler) (led : Bool) :
    Announced (boot scheduler led) where
  settled _ _ _ := by
    refine Or.inr (Or.inr ⟨?_, Or.inl rfl⟩)
    rintro value ⟨event, hsending, _⟩
    cases hsending
  known _ _ h := absurd h List.not_mem_nil
  short _ h := absurd h List.not_mem_nil
  room _ h := by cases h

theorem announced_handle {jobs next : Jobs} {action : Tasks.Action} (h : jobs.Announced)
    (hne : action ≠ .take) (hother : ∀ command, action = .netPost command → ShortKey command)
    (hstep : jobs.handle action = some next) : next.Announced := by
  obtain ⟨tasks, htasks, rfl⟩ := Option.map_eq_some_iff.mp hstep
  have hhandled := Tasks.handled_step hne htasks
  have hlive : ∀ appIndex key, ({ jobs with
      tasks := tasks, posted := jobs.posted ++ jobs.tasks.queued action } : Jobs).live
        appIndex key = jobs.live appIndex key := fun appIndex key => by
    rw [live, live, hhandled.scheduler]
  refine ⟨fun appIndex key hkey => ?_, fun appIndex key hchanged => ?_, fun command hmem => ?_,
    h.room⟩
  · refine (h.settled appIndex key hkey).mono (hlive appIndex key) rfl (fun _ => Iff.rfl) ?_
    exact fun hpending => ⟨hpending.named⟩
  · rw [hlive]
    exact h.known appIndex key hchanged
  · rw [hhandled.queue, ← List.append_assoc] at hmem
    rcases List.mem_append.mp hmem with hold | hnew
    · exact h.short command hold
    · exact shortKey_queued hother command hnew

theorem announced_take {jobs next : Jobs} (h : jobs.Announced) (hstep : jobs.take = some next) :
    next.Announced := by
  rw [take] at hstep
  split at hstep
  · rename_i hidle
    split at hstep
    · cases hstep
      exact h
    · rename_i command queue htake
      cases hstep
      have hcommands := CommandQueue.commands_of_take htake
      refine ⟨fun appIndex key hkey => ?_, h.known, fun other hmem => h.short other ?_, ?_⟩
      · refine (h.settled appIndex key hkey).mono rfl rfl (fun _ => Iff.rfl) ?_
        rintro ⟨hevents | ⟨event, hevent, _⟩ | hreading⟩
        · exact ⟨Or.inl hevents⟩
        · rw [hidle] at hevent
          cases hevent
        · exact ⟨Or.inr (Or.inr hreading)⟩
      · rw [hcommands]
        exact List.mem_append_right _ hmem
      · intro event hevent
        cases hevent
  · cases hstep

section

variable {jobs next : Jobs} {command : Command} {appIndex : UInt8} {key : Bytes}

/-- The command in the drain's hands is no event. -/
theorem Pending.of_taken (h : jobs.Pending appIndex key) (htaken : jobs.drain = .taken command)
    (hevents : next.events = jobs.events) (hbroadcaster : next.broadcaster = jobs.broadcaster) :
    next.Pending appIndex key := by
  rcases h with ⟨hnamed | ⟨event, hevent, _⟩ | hreading⟩
  · rw [← hevents] at hnamed
    exact ⟨Or.inl hnamed⟩
  · rw [htaken] at hevent
    cases hevent
  · rw [← hbroadcaster] at hreading
    exact ⟨Or.inr (Or.inr hreading)⟩

theorem Announced.short_queued (h : jobs.Announced) :
    ∀ other ∈ jobs.tasks.queue.commands, ShortKey other :=
  fun other hmem => h.short other (List.mem_append_right _ hmem)

theorem Announced.short_taken (h : jobs.Announced) (htaken : jobs.drain = .taken command) :
    ShortKey command := by
  refine h.short command (List.mem_append_left _ ?_)
  rw [inFlight, htaken]
  exact List.mem_singleton_self command

/-- A command that changes no setting. -/
theorem Announced.of_unchanged (h : jobs.Announced) (htaken : jobs.drain = .taken command)
    (hevents : next.events = jobs.events) (hbroadcaster : next.broadcaster = jobs.broadcaster)
    (hlog : next.log = jobs.log)
    (hlive : ∀ appIndex key, next.live appIndex key = jobs.live appIndex key)
    (hqueue : next.inFlight ++ next.tasks.queue.commands = jobs.tasks.queue.commands)
    (hroom : ∀ event, next.drain ≠ .resending event) : next.Announced where
  settled appIndex key hkey :=
    (h.settled appIndex key hkey).mono (hlive appIndex key) (by rw [hlog])
      (fun _ => by rw [Sending, Sending, hbroadcaster])
      (fun hpending => hpending.of_taken htaken hevents hbroadcaster)
  known appIndex key hchanged := by
    rw [hlive]
    exact h.known appIndex key (hlog ▸ hchanged)
  short other hmem := h.short_queued other (hqueue ▸ hmem)
  room event hevent := absurd hevent (hroom event)

theorem getSetting_switchTo (scheduler : AppScheduler) (index appIndex : UInt8) (key : Bytes) :
    (scheduler.switchTo index).getSetting appIndex key = scheduler.getSetting appIndex key := by
  rw [AppScheduler.getSetting_eq, AppScheduler.getSetting_eq, AppScheduler.switchTo_settingAt]

/-- What a command does not name keeps its value. -/
theorem getSetting_of_ne {scheduler written : AppScheduler}
    (happlied : scheduler.Applied command.appIndex command.key command.value written)
    (hshort : ShortKey command) (hkey : cstring key = key)
    (hne : ¬ (appIndex = command.appIndex ∧ key = command.key)) :
    written.getSetting appIndex key = scheduler.getSetting appIndex key := by
  rw [AppScheduler.getSetting_eq, AppScheduler.getSetting_eq, happlied.others appIndex key
    (by rw [hkey, hshort.cstring_key]; exact not_and_or.mp hne)]

/-- A setting that was written is announced by the event in the drain's hands, and the others
are settled as they were. -/
theorem Announced.written (h : jobs.Announced) (htaken : jobs.drain = .taken command)
    {scheduler : AppScheduler} (happly : jobs.tasks.scheduler.applySetting command.appIndex
      command.key command.value = some scheduler) :
    ({ jobs with
        tasks := { jobs.tasks with scheduler := scheduler }
        drain := .announcing (Event.settingChanged command.appIndex command.key)
        performed := jobs.performed ++ [command]
        log := jobs.log ++ [.changed command.appIndex command.key] } : Jobs).Announced := by
  have happlied := AppScheduler.applied_of_applySetting happly
  have hshort := h.short_taken htaken
  refine ⟨fun appIndex key hkey => ?settled, fun appIndex key hchanged => ?known,
    h.short_queued, fun event hevent => by cases hevent⟩
  case settled =>
    by_cases hself : appIndex = command.appIndex ∧ key = command.key
    · obtain ⟨rfl, rfl⟩ := hself
      exact Or.inl ⟨Or.inr (Or.inl ⟨_, rfl, rfl, rfl, hshort⟩)⟩
    · refine (h.settled appIndex key hkey).mono (getSetting_of_ne happlied hshort hkey hself)
        ?_ (fun _ => Iff.rfl) (fun hpending => hpending.of_taken htaken rfl rfl)
      rw [lastAbout_append, if_neg]
      rw [about_changed]
      exact fun hsame => hself ⟨hsame.1.symm, hsame.2.symm⟩
  case known =>
    by_cases hself : appIndex = command.appIndex ∧ key = command.key
    · obtain ⟨rfl, rfl⟩ := hself
      obtain ⟨binding, _, _, hafter⟩ := happlied.written
      refine ⟨hshort.cstring_key, ?_⟩
      rw [live, AppScheduler.getSetting_eq, hafter]
      rfl
    · have hold : LogEntry.changed appIndex key ∈ jobs.log := by
        rcases List.mem_append.mp hchanged with hold | hnew
        · exact hold
        · cases List.mem_singleton.mp hnew
          exact absurd ⟨rfl, rfl⟩ hself
      obtain ⟨hkey, hsome⟩ := h.known appIndex key hold
      refine ⟨hkey, ?_⟩
      rw [live, getSetting_of_ne happlied hshort hkey hself]
      exact hsome

/-- What applying a command leaves to be announced. -/
theorem announced_apply (h : jobs.Announced) (hstep : jobs.apply = some next) :
    next.Announced := by
  rw [apply] at hstep
  split at hstep
  · rename_i command htaken
    cases hkind : command.kind with
    | kSwitchApp =>
        simp only [hkind, Option.some.injEq] at hstep
        subst hstep
        exact h.of_unchanged htaken rfl rfl rfl (getSetting_switchTo _ _) rfl (by simp)
    | kApplySetting =>
        simp only [hkind, Option.some.injEq] at hstep
        cases happly : jobs.tasks.scheduler.applySetting command.appIndex command.key
            command.value with
        | none =>
            simp only [happly] at hstep
            subst hstep
            exact h.of_unchanged htaken rfl rfl rfl (fun _ _ => rfl) rfl (by simp)
        | some scheduler =>
            simp only [happly] at hstep
            subst hstep
            exact h.written htaken happly
    | kSetLed =>
        simp only [hkind, Option.some.injEq] at hstep
        subst hstep
        exact h.of_unchanged htaken rfl rfl rfl (fun _ _ => rfl) rfl (by simp)
  · cases hstep

end

/-- A step of `eventPost` or of `broadcastEvents`: the apps and the commands stay. -/
theorem Announced.of_events {jobs next : Jobs} (h : jobs.Announced)
    (htasks : next.tasks = jobs.tasks) (hflight : next.inFlight = jobs.inFlight)
    (hlog : ∀ appIndex key, LogEntry.changed appIndex key ∈ next.log →
      LogEntry.changed appIndex key ∈ jobs.log)
    (hsettled : ∀ appIndex key, cstring key = key → next.Settled appIndex key)
    (hroom : ∀ event, next.drain = .resending event →
      next.events.events.length < kEventQueueDepth) : next.Announced where
  settled := hsettled
  known appIndex key hchanged := by
    rw [live, htasks]
    exact h.known appIndex key (hlog appIndex key hchanged)
  short := by
    rw [hflight, htasks]
    exact h.short
  room := hroom

theorem announced_announce {jobs next : Jobs} (h : jobs.Announced)
    (hstep : jobs.announce = some next) : next.Announced := by
  rw [announce] at hstep
  split at hstep
  · rename_i event hdrain
    have hflight : jobs.inFlight = [] := by rw [inFlight, hdrain]
    split at hstep
    · rename_i events hsend
      cases hstep
      refine h.of_events rfl hflight.symm (fun _ _ hold => hold) (fun appIndex key hkey => ?_)
        (fun event hevent => by cases hevent)
      refine (h.settled appIndex key hkey).mono rfl rfl (fun _ => Iff.rfl) ?_
      rintro ⟨⟨queued, hmem, hnames⟩ | ⟨posted, hposted, hnames⟩ | hreading⟩
      · exact ⟨Or.inl ⟨queued, by
          rw [EventQueue.events_send hsend]
          exact List.mem_append_left _ hmem, hnames⟩⟩
      · rw [hdrain] at hposted
        cases hposted
        exact ⟨Or.inl ⟨event, by
          rw [EventQueue.events_send hsend]
          exact List.mem_append_right _ List.mem_cons_self, hnames⟩⟩
      · exact ⟨Or.inr (Or.inr hreading)⟩
    · cases hstep
      refine h.of_events rfl hflight.symm (fun _ _ hold => hold) (fun appIndex key hkey => ?_)
        (fun event hevent => by cases hevent)
      refine (h.settled appIndex key hkey).mono rfl rfl (fun _ => Iff.rfl) ?_
      rintro ⟨hqueued | ⟨posted, hposted, hnames⟩ | hreading⟩
      · exact ⟨Or.inl hqueued⟩
      · rw [hdrain] at hposted
        exact ⟨Or.inr (Or.inl ⟨posted, hposted, hnames⟩)⟩
      · exact ⟨Or.inr (Or.inr hreading)⟩
  · cases hstep

/-- The step that can lose a change. -/
theorem announced_drop {jobs next : Jobs} (h : jobs.Announced) (hsafe : jobs.DropIsSafe .drop)
    (hstep : jobs.drop = some next) : next.Announced := by
  rw [drop] at hstep
  split at hstep
  · rename_i event hdrain
    have hflight : jobs.inFlight = [] := by rw [inFlight, hdrain]
    cases hstep
    refine h.of_events rfl hflight.symm (fun _ _ hold => hold) (fun appIndex key hkey => ?_) ?_
    · have hwithout : ({ jobs with events := jobs.events.discard } : Jobs).Settled
          appIndex key := by
        by_cases holdest : ∃ oldest ∈ jobs.events.events.head?, Names oldest appIndex key
        · obtain ⟨oldest, hmem, hnames⟩ := holdest
          exact hsafe oldest hmem appIndex key hnames
        · refine (h.settled appIndex key hkey).mono rfl rfl (fun _ => Iff.rfl) ?_
          rintro ⟨⟨queued, hmem, hnames⟩ | hother⟩
          · refine ⟨Or.inl ⟨queued, ?_, hnames⟩⟩
            rw [EventQueue.events_discard]
            cases hevents : jobs.events.events with
            | nil =>
                rw [hevents] at hmem
                cases hmem
            | cons oldest rest =>
                rw [hevents] at hmem holdest
                rcases List.mem_cons.mp hmem with rfl | hrest
                · exact absurd ⟨queued, rfl, hnames⟩ holdest
                · exact hrest
          · exact ⟨Or.inr hother⟩
      refine hwithout.mono rfl rfl (fun _ => Iff.rfl) ?_
      rintro ⟨hqueued | ⟨posted, hposted, hnames⟩ | hreading⟩
      · exact ⟨Or.inl hqueued⟩
      · simp only [hdrain] at hposted
        exact ⟨Or.inr (Or.inl ⟨posted, hposted, hnames⟩)⟩
      · exact ⟨Or.inr (Or.inr hreading)⟩
    · exact fun _ _ => jobs.events.length_discard_lt
  · cases hstep

theorem announced_resend {jobs next : Jobs} (h : jobs.Announced)
    (hstep : jobs.resend = some next) : next.Announced := by
  rw [resend] at hstep
  split at hstep
  · rename_i event hdrain
    have hflight : jobs.inFlight = [] := by rw [inFlight, hdrain]
    have hsend := EventQueue.send_of_room event (h.room event hdrain)
    obtain ⟨events, hevents⟩ := hsend
    rw [hevents, Option.getD_some] at hstep
    cases hstep
    refine h.of_events rfl hflight.symm (fun _ _ hold => hold) (fun appIndex key hkey => ?_)
      (fun event hevent => by cases hevent)
    refine (h.settled appIndex key hkey).mono rfl rfl (fun _ => Iff.rfl) ?_
    rintro ⟨⟨queued, hmem, hnames⟩ | ⟨posted, hposted, hnames⟩ | hreading⟩
    · exact ⟨Or.inl ⟨queued, by
        rw [EventQueue.events_send hevents]
        exact List.mem_append_left _ hmem, hnames⟩⟩
    · rw [hdrain] at hposted
      cases hposted
      exact ⟨Or.inl ⟨event, by
        rw [EventQueue.events_send hevents]
        exact List.mem_append_right _ List.mem_cons_self, hnames⟩⟩
    · exact ⟨Or.inr (Or.inr hreading)⟩
  · cases hstep

theorem announced_takeEvent {jobs next : Jobs} (h : jobs.Announced)
    (hstep : jobs.takeEvent = some next) : next.Announced := by
  rw [takeEvent] at hstep
  split at hstep
  · rename_i hidle
    split at hstep
    · cases hstep
      exact h
    · rename_i event events htake
      cases hstep
      have hevents := EventQueue.events_eventTake htake
      refine h.of_events rfl rfl (fun _ _ hold => hold) (fun appIndex key hkey => ?_) ?_
      · have hsending : ∀ value, ¬ jobs.Sending appIndex key value := by
          rintro value ⟨other, hother, _⟩
          rw [hidle] at hother
          cases hother
        refine (h.settled appIndex key hkey).mono rfl rfl (fun value => ?_) ?_
        · refine iff_of_false ?_ (hsending value)
          rintro ⟨other, hother, _⟩
          cases hother
        · rintro ⟨⟨queued, hmem, hnames⟩ | hposted | ⟨other, hother, _⟩⟩
          · rw [hevents] at hmem
            rcases List.mem_cons.mp hmem with rfl | hrest
            · exact ⟨Or.inr (Or.inr ⟨queued, rfl, hnames⟩)⟩
            · exact ⟨Or.inl ⟨queued, hrest, hnames⟩⟩
          · exact ⟨Or.inr (Or.inl hposted)⟩
          · rw [hidle] at hother
            cases hother
      · intro other hother
        have hroom := h.room other hother
        rw [hevents, List.length_cons] at hroom
        exact Nat.lt_of_succ_lt hroom
  · cases hstep

/-- What is read now is what the setting holds. -/
theorem announced_readValue {jobs next : Jobs} (h : jobs.Announced)
    (hstep : jobs.readValue = some next) : next.Announced := by
  rw [readValue] at hstep
  split at hstep
  · rename_i event hreading
    cases hstep
    refine h.of_events rfl rfl (fun _ _ hold => hold) (fun appIndex key hkey => ?_) h.room
    by_cases hnames : Names event appIndex key
    · refine Or.inr (Or.inl ⟨event, ?_, hnames⟩)
      obtain ⟨hkind, rfl, rfl⟩ := hnames
      simp only [hkind]
      rfl
    · refine (h.settled appIndex key hkey).mono rfl rfl (fun value => iff_of_false ?_ ?_) ?_
      · rintro ⟨other, hother, hother'⟩
        cases hother
        exact hnames hother'
      · rintro ⟨other, hother, _⟩
        rw [hreading] at hother
        cases hother
      · rintro ⟨hqueued | hposted | ⟨other, hother, hother'⟩⟩
        · exact ⟨Or.inl hqueued⟩
        · exact ⟨Or.inr (Or.inl hposted)⟩
        · rw [hreading] at hother
          cases hother
          exact absurd hother' hnames
  · cases hstep

/-- What is sent is what the setting holds, unless an event of it is on its way. -/
theorem announced_send {jobs next : Jobs} (h : jobs.Announced) (hstep : jobs.send = some next) :
    next.Announced := by
  rw [send] at hstep
  split at hstep
  · rename_i event value hsending
    cases hstep
    refine h.of_events rfl rfl (fun appIndex key hchanged => ?_) (fun appIndex key hkey => ?_)
      h.room
    · rcases List.mem_append.mp hchanged with hold | hnew
      · exact hold
      · cases hkind : event.kind <;> simp [told, hkind] at hnew
    · have hpending : jobs.Pending appIndex key → Pending
          { jobs with broadcaster := .idle, log := jobs.log ++ [told event value] }
          appIndex key := by
        rintro ⟨hqueued | hposted | ⟨other, hother, _⟩⟩
        · exact ⟨Or.inl hqueued⟩
        · exact ⟨Or.inr (Or.inl hposted)⟩
        · rw [hsending] at hother
          cases hother
      have hidle : ∀ other, ¬ Sending
          { jobs with broadcaster := .idle, log := jobs.log ++ [told event value] }
          appIndex key other := by
        rintro other ⟨_, hother, _⟩
        cases hother
      by_cases hnames : Names event appIndex key
      · obtain ⟨hkind, rfl, rfl⟩ := hnames
        rcases h.settled event.appIndex event.key hkey with hnamed | ⟨other, hother, _⟩ | ⟨hnone, _⟩
        · exact Or.inl (hpending hnamed)
        · rw [hsending] at hother
          cases hother
          refine Or.inr (Or.inr ⟨hidle, Or.inr ?_⟩)
          simp only [told, hkind]
          rw [lastAbout_append, if_pos (about_broadcast.mpr ⟨rfl, rfl⟩)]
          rfl
        · exact absurd ⟨event, hsending, hkind, rfl, rfl⟩ (hnone value)
      · refine (h.settled appIndex key hkey).mono rfl ?_
          (fun other => iff_of_false (hidle other) ?_) hpending
        · simp only
          rw [lastAbout_append, if_neg]
          cases hkind : event.kind with
          | kAppSwitched => simp [told, hkind, LogEntry.about]
          | kSettingChanged =>
              simp only [told, hkind]
              rw [about_broadcast]
              exact fun hsame => hnames ⟨hkind, hsame⟩
        · rintro ⟨_, hother, hother'⟩
          rw [hsending] at hother
          cases hother
          exact hnames hother'
  · cases hstep

theorem announced_step {jobs next : Jobs} {action : Action} (h : jobs.Announced)
    (hsafe : jobs.DropIsSafe action) (hstep : jobs.step action = some next) :
    next.Announced := by
  cases hhandler : action.handler jobs.tasks.scheduler with
  | some taskAction =>
      obtain ⟨hhandle, hne⟩ := step_of_handler hhandler hstep
      refine announced_handle h hne (fun command hcommand => ?_) hhandle
      rw [hcommand] at hhandler
      rw [ShortKey, (handler_netPost hhandler).2]
      rfl
  | none =>
      cases action with
      | take => exact announced_take h hstep
      | apply => exact announced_apply h hstep
      | announce => exact announced_announce h hstep
      | drop => exact announced_drop h hsafe hstep
      | resend => exact announced_resend h hstep
      | takeEvent => exact announced_takeEvent h hstep
      | readValue => exact announced_readValue h hstep
      | send => exact announced_send h hstep
      | setLed body | setActiveApp body =>
          rw [step, hhandler] at hstep
          cases hstep
          exact h
      | request wildcard body | checkFree | post | reply | wsMessage body => cases hhandler

/-- In every run whose drops are safe, once everything is quiet the listeners were told what
each changed setting holds.  A drop is safe when the setting that the oldest event names is
still settled without it; the switch of an app may be dropped at any time. -/
theorem converged_of_safe_drops {start final : Jobs} {actions : List Action}
    (hstart : machine.start start) (hexec : machine.exec start actions = some final)
    (hsafe : machine.Guarded DropIsSafe start actions) (hquiet : final.Quiet) :
    final.Converged := by
  obtain ⟨scheduler, led, rfl⟩ := hstart
  have hfinal : final.Announced :=
    machine.invariant_of_guarded (fun _ _ _ hInv hcondition hstep =>
      announced_step hInv hcondition hstep) actions _ _ (announced_boot scheduler led) hsafe hexec
  intro appIndex key hchanged
  obtain ⟨hkey, hsome⟩ := hfinal.known appIndex key hchanged
  obtain ⟨value, hvalue⟩ := Option.isSome_iff_exists.mp hsome
  have hlast := ((hfinal.settled appIndex key hkey).of_quiet hquiet).resolve_left
    (lastAbout_ne_none hchanged)
  exact ⟨value, hvalue, by rw [hlast, hvalue]⟩

/-! ## One change behind sixteen switches -/

/-- A setting is switched on. -/
def changeFlag : List Action := [.wsMessage (some flagDocument), .take, .apply, .announce]

/-- The same app is chosen once more. -/
def switchAgain : List Action :=
  [.setActiveApp (some (.object [(ascii "index", .int 0)])), .take, .apply, .announce]

def tellListeners : List Action := [.takeEvent, .readValue, .send]

/-- What is left to do, and the last thing the listeners heard of the setting. -/
def rest (jobs : Jobs) :
    List Command × List Event × DrainPc × BroadcastPc × List LogEntry × Option LogEntry :=
  (jobs.tasks.queue.commands, jobs.events.events, jobs.drain, jobs.broadcaster,
    jobs.log.filter (LogEntry.about 0 (ascii "a")), lastAbout jobs.log 0 (ascii "a"))

theorem quiet_of_rest {jobs : Jobs} {entries : List LogEntry} {last : Option LogEntry}
    (h : jobs.rest = ([], [], .idle, .idle, entries, last)) : jobs.Quiet := by
  simp only [rest, Prod.mk.injEq] at h
  exact ⟨h.1, h.2.1, h.2.2.1, h.2.2.2.1⟩

theorem exec_changeFlag :
    (machine.exec (boot Tasks.twoFlags false) (changeFlag ++ tellListeners)).map rest =
      some ([], [], .idle, .idle,
        [.changed 0 (ascii "a"),
          .broadcast 0 (ascii "a") (some { SettingValue.zero with boolValue := true })],
        some (.broadcast 0 (ascii "a") (some { SettingValue.zero with boolValue := true }))) :=
  rfl

theorem converged_of_safe_drops_changeFlag :
    ∃ final, machine.exec (boot Tasks.twoFlags false) (changeFlag ++ tellListeners) = some final ∧
      LogEntry.changed 0 (ascii "a") ∈ final.log ∧ final.Converged := by
  obtain ⟨final, hfinal, hrest⟩ := Option.map_eq_some_iff.mp exec_changeFlag
  refine ⟨final, hfinal, ?_, converged_of_safe_drops ⟨_, _, rfl⟩ hfinal ?_ (quiet_of_rest hrest)⟩
  · simp only [rest, Prod.mk.injEq] at hrest
    have hchanged : LogEntry.changed 0 (ascii "a") ∈
        final.log.filter (LogEntry.about 0 (ascii "a")) := by
      rw [hrest.2.2.2.2.1]
      exact List.mem_cons_self
    exact (List.mem_filter.mp hchanged).1
  · refine machine.guarded_of_forall _ _ fun action haction jobs => ?_
    simp only [changeFlag, tellListeners, List.cons_append, List.nil_append, List.mem_cons,
      List.not_mem_nil, or_false] at haction
    rcases haction with rfl | rfl | rfl | rfl | rfl | rfl | rfl <;> trivial

/-- The change is the oldest of seventeen events, and is dropped for the last switch. -/
def changeThenSwitches : List Action :=
  changeFlag ++ (List.replicate 16 switchAgain).flatten ++ [.drop, .resend] ++
    (List.replicate 16 tellListeners).flatten

theorem exec_changeThenSwitches :
    (machine.exec (boot Tasks.twoFlags false) changeThenSwitches).map rest =
      some ([], [], .idle, .idle, [.changed 0 (ascii "a")], some (.changed 0 (ascii "a"))) := by
  rfl

/-- Everything is quiet, and no listener has heard of the change. -/
theorem change_never_broadcast :
    ∃ final, machine.exec (boot Tasks.twoFlags false) changeThenSwitches = some final ∧
      final.Quiet ∧ ¬ final.Converged := by
  obtain ⟨final, hfinal, hrest⟩ := Option.map_eq_some_iff.mp exec_changeThenSwitches
  refine ⟨final, hfinal, quiet_of_rest hrest, fun hconverged => ?_⟩
  simp only [rest, Prod.mk.injEq] at hrest
  have hchanged : LogEntry.changed 0 (ascii "a") ∈
      final.log.filter (LogEntry.about 0 (ascii "a")) := by
    rw [hrest.2.2.2.2.1]
    exact List.mem_cons_self
  obtain ⟨value, _, hlast⟩ := hconverged 0 (ascii "a") (List.mem_filter.mp hchanged).1
  rw [hrest.2.2.2.2.2] at hlast
  cases hlast

end Jobs

end MatrixFaces.Api
