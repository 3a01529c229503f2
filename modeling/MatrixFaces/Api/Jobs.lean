import MatrixFaces.Api.SettingsPost
import MatrixFaces.Apps.SettingAt
import MatrixFaces.Board.EventQueue

set_option autoImplicit false

/-!
# Commands in, events out (`drainCommands` and `broadcastEvents` in `src/main.cpp`)

The handlers post commands, the render task takes and applies them and posts an event for
each change, and the task of the sockets turns events into messages.  Every queue
operation is one step, and so are applying a command, reading a value and sending a
message.  The fields called ghost are not in the source.

`step` has one case for each action; the handlers' actions are those of `Api.SettingsPost`.
What a handler posted, what the drain took and performed, and what was told to the listeners
is kept in ghost lists, so that a run can be asked what came of each command.

`announce_alone` says that the three steps of `eventPost`, with nothing in between, are the
function of `Board.EventQueue`.

`step` has one case for each action; the handlers' actions are those of `Api.SettingsPost`.
What a handler posted, what the drain took and performed, and what was told to the listeners is
kept in ghost lists, so that a run can be asked what came of each command.

`announce_alone` says that the three steps of `eventPost`, with nothing in between, are the
function of `Board.EventQueue`.
-/

namespace MatrixFaces.Api

open MatrixFaces.Foundation
open MatrixFaces.Apps
open MatrixFaces.Board

/-- `handleSetLed` up to its queue call: the command it posts, if any. -/
def setLedCommand (body : Option Json) : Option Command :=
  (body.bind fun body => (body.get (ascii "on")).bool?).map fun on =>
    { Command.zero with kind := .kSetLed, on := on }

/-- `handleSetActiveApp` up to its queue call. -/
def setActiveAppCommand (scheduler : AppScheduler) (body : Option Json) : Option Command :=
  match body.bind fun body => (body.get (ascii "index")).uint32? with
  | none => none
  | some index =>
      if index.toNat ≥ scheduler.count then none
      else some { Command.zero with kind := .kSwitchApp, appIndex := index.toUInt8 }

namespace Tasks

/-- The command a handler's step offers to `commandPost`. -/
def offered (tasks : Tasks) : Action → Option Command
  | .post =>
      match tasks.net with
      | .posting loop =>
          loop.accepted[loop.posted]?.map fun entry =>
            Command.applySetting loop.appIndex entry.key entry.value
      | _ => none
  | .netPost command => if tasks.net.between then some command else none
  | .wsMessage body => wsCommand tasks.scheduler body
  | .request _ _ | .checkFree | .reply | .take => none

/-- The command a handler's step puts into the queue. -/
def queued (tasks : Tasks) (action : Action) : List Command :=
  match tasks.offered action with
  | none => []
  | some command => if (tasks.queue.commandPost command).isSome then [command] else []

end Tasks

/-- Where `drainCommands` is. -/
inductive DrainPc where
  | idle
  /-- `commandTake` gave this command. -/
  | taken (command : Command)
  /-- At `eventPost`. -/
  | announcing (event : Event)
  /-- Inside `eventPost`, which found no room. -/
  | dropping (event : Event)
  /-- Inside `eventPost`, which has made room. -/
  | resending (event : Event)
  deriving DecidableEq

/-- Where `broadcastEvents` is. -/
inductive BroadcastPc where
  | idle
  /-- `eventTake` gave this event. -/
  | reading (event : Event)
  /-- With what `getSetting` answered, before the message is sent. -/
  | sending (event : Event) (value : Option SettingValue)
  deriving DecidableEq

/-- What happened to a setting, or to the active app. -/
inductive LogEntry where
  | changed (appIndex : UInt8) (key : Bytes)
  | broadcast (appIndex : UInt8) (key : Bytes) (value : Option SettingValue)
  | switched (appIndex : UInt8)
  deriving DecidableEq

/-- The entry of a message. -/
def told (event : Event) (value : Option SettingValue) : LogEntry :=
  match event.kind with
  | .kAppSwitched => .switched event.appIndex
  | .kSettingChanged => .broadcast event.appIndex event.key value

/-- The state of the tasks. -/
structure Jobs where
  tasks : Tasks
  drain : DrainPc
  events : EventQueue
  broadcaster : BroadcastPc
  /-- Ghost: the commands `commandPost` took, oldest first. -/
  posted : List Command
  /-- Ghost: the commands the drain carried out. -/
  performed : List Command
  /-- Ghost: the commands `applySetting` refused. -/
  refused : List Command
  /-- Ghost: changes and messages, oldest first. -/
  log : List LogEntry

namespace Jobs

inductive Action where
  /-- The network task starts on a settings request. -/
  | request (wildcard : Bytes) (body : Option Json)
  | checkFree
  | post
  | reply
  /-- The network task runs one of the two handlers that post one command. -/
  | setLed (body : Option Json)
  | setActiveApp (body : Option Json)
  /-- A message arrives on a WebSocket. -/
  | wsMessage (body : Option Json)
  /-- `commandTake`. -/
  | take
  /-- The `switch` of `drainCommands`, up to the event. -/
  | apply
  /-- `eventPost` tries the queue. -/
  | announce
  /-- `eventPost` takes the oldest event out. -/
  | drop
  /-- `eventPost` tries again. -/
  | resend
  /-- `eventTake`. -/
  | takeEvent
  /-- `getSetting`. -/
  | readValue
  /-- `WsHub::broadcast`. -/
  | send

/-- What a handler's step is for the queue. -/
def Action.handler (scheduler : AppScheduler) : Action → Option Tasks.Action
  | .request wildcard body => some (.request wildcard body)
  | .checkFree => some .checkFree
  | .post => some .post
  | .reply => some .reply
  | .setLed body => (setLedCommand body).map .netPost
  | .setActiveApp body => (setActiveAppCommand scheduler body).map .netPost
  | .wsMessage body => some (.wsMessage body)
  | .take | .apply | .announce | .drop | .resend | .takeEvent | .readValue | .send => none

/-- A step of a handler. -/
def handle (jobs : Jobs) (action : Tasks.Action) : Option Jobs :=
  (jobs.tasks.step action).map fun tasks =>
    { jobs with tasks := tasks, posted := jobs.posted ++ jobs.tasks.queued action }

def take (jobs : Jobs) : Option Jobs :=
  match jobs.drain with
  | .idle =>
      match jobs.tasks.queue.commandTake with
      | none => some jobs
      | some (command, queue) =>
          some { jobs with
            tasks := { jobs.tasks with queue := queue, net := jobs.tasks.net.countTaken }
            drain := .taken command }
  | _ => none

def apply (jobs : Jobs) : Option Jobs :=
  match jobs.drain with
  | .taken command =>
      some (match command.kind with
        | .kSwitchApp =>
            { jobs with
              tasks := { jobs.tasks with
                scheduler := jobs.tasks.scheduler.switchTo command.appIndex }
              drain := .announcing (Event.appSwitched command.appIndex)
              performed := jobs.performed ++ [command] }
        | .kApplySetting =>
            match jobs.tasks.scheduler.applySetting command.appIndex command.key
                command.value with
            | none => { jobs with drain := .idle, refused := jobs.refused ++ [command] }
            | some scheduler =>
                { jobs with
                  tasks := { jobs.tasks with scheduler := scheduler }
                  drain := .announcing (Event.settingChanged command.appIndex command.key)
                  performed := jobs.performed ++ [command]
                  log := jobs.log ++ [.changed command.appIndex command.key] }
        | .kSetLed =>
            { jobs with
              tasks := { jobs.tasks with led := command.on }
              drain := .idle
              performed := jobs.performed ++ [command] })
  | _ => none

def announce (jobs : Jobs) : Option Jobs :=
  match jobs.drain with
  | .announcing event =>
      match jobs.events.send event with
      | some events => some { jobs with events := events, drain := .idle }
      | none => some { jobs with drain := .dropping event }
  | _ => none

def drop (jobs : Jobs) : Option Jobs :=
  match jobs.drain with
  | .dropping event =>
      some { jobs with events := jobs.events.discard, drain := .resending event }
  | _ => none

def resend (jobs : Jobs) : Option Jobs :=
  match jobs.drain with
  | .resending event =>
      some { jobs with events := (jobs.events.send event).getD jobs.events, drain := .idle }
  | _ => none

def takeEvent (jobs : Jobs) : Option Jobs :=
  match jobs.broadcaster with
  | .idle =>
      match jobs.events.eventTake with
      | none => some jobs
      | some (event, events) => some { jobs with events := events, broadcaster := .reading event }
  | _ => none

def readValue (jobs : Jobs) : Option Jobs :=
  match jobs.broadcaster with
  | .reading event =>
      some { jobs with
        broadcaster := .sending event (match event.kind with
          | .kAppSwitched => none
          | .kSettingChanged => jobs.tasks.scheduler.getSetting event.appIndex event.key) }
  | _ => none

def send (jobs : Jobs) : Option Jobs :=
  match jobs.broadcaster with
  | .sending event value =>
      some { jobs with
        broadcaster := .idle
        log := jobs.log ++ [told event value] }
  | _ => none

def step (jobs : Jobs) (action : Action) : Option Jobs :=
  match action with
  | .take => jobs.take
  | .apply => jobs.apply
  | .announce => jobs.announce
  | .drop => jobs.drop
  | .resend => jobs.resend
  | .takeEvent => jobs.takeEvent
  | .readValue => jobs.readValue
  | .send => jobs.send
  | .request _ _ | .checkFree | .post | .reply | .setLed _ | .setActiveApp _ | .wsMessage _ =>
      match action.handler jobs.tasks.scheduler with
      | none => some jobs
      | some taskAction => jobs.handle taskAction

/-- A board after `setup()`: nothing is queued and no task is at work. -/
def boot (scheduler : AppScheduler) (led : Bool) : Jobs where
  tasks := ⟨scheduler, ⟨[], Nat.zero_le _⟩, led, .idle⟩
  drain := .idle
  events := EventQueue.empty
  broadcaster := .idle
  posted := []
  performed := []
  refused := []
  log := []

/-- The tasks from boot, whatever apps are registered. -/
def machine : Machine Jobs Action where
  start jobs := ∃ scheduler led, jobs = boot scheduler led
  step := step

/-- `eventPost` undisturbed does what `EventQueue.eventPost` does. -/
theorem announce_alone {jobs : Jobs} {event : Event} (h : jobs.drain = .announcing event) :
    machine.exec jobs (if (jobs.events.eventPost event).2 = true then [.announce]
        else [.announce, .drop, .resend]) =
      some { jobs with events := (jobs.events.eventPost event).1, drain := .idle } := by
  cases hsend : jobs.events.send event with
  | some sent =>
      simp [EventQueue.eventPost, hsend, Machine.exec_cons, machine, step, announce, h]
  | none =>
      simp [EventQueue.eventPost, hsend, Machine.exec_cons, machine, step, announce, drop, resend,
        h]

end Jobs

end MatrixFaces.Api
