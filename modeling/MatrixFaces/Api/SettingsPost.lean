import MatrixFaces.Foundation.Machine
import MatrixFaces.Api.SettingsHandlers

set_option autoImplicit false

/-!
# A settings request among the other tasks

The network task runs `handleSetAppSettings`, the WebSocket task posts commands
of its own and the render task drains the queue.  Every queue operation is one
step.  The fields called ghost are not in the source; they count what the other
tasks did since the handler read `commandFree()`.

The main result is `lands_whole_iff`, for one answered request among any steps of the other
tasks.  `Whole` says that all of its settings were posted and the answer is 200, or none was
and the answer is an error.  `RoomLeft` is the condition, on the state in front of each post
of the handler's loop: the places it read are not used up by what was posted since.

`lands_half` is the shortest run in which a message takes the last place.
-/

namespace MatrixFaces.Api

open MatrixFaces.Foundation
open MatrixFaces.Apps
open MatrixFaces.Board

/-- The loop that posts `accepted`. -/
structure Posting where
  appIndex : UInt8
  accepted : List AcceptedSetting
  /-- The loop counter. -/
  posted : Nat
  /-- What `commandFree()` answered. -/
  free : Nat
  /-- Ghost: the settings whose command is in the queue. -/
  landed : List AcceptedSetting
  /-- Ghost: commands the WebSocket task queued since. -/
  others : Nat
  /-- Ghost: commands the render task took since. -/
  taken : Nat
  deriving DecidableEq

/-- Where the network task is. -/
inductive NetPc where
  | idle
  /-- Before the test of `tooManyToQueue` and `commandFree()`. -/
  | checking (appIndex : UInt8) (accepted : List AcceptedSetting) (tooManyToQueue : Bool)
  | posting (loop : Posting)
  | answered (accepted landed : List AcceptedSetting) (reply : Reply)
  deriving DecidableEq

/-- The network task is between requests. -/
def NetPc.between : NetPc → Bool
  | .idle | .answered _ _ _ => true
  | .checking _ _ _ | .posting _ => false

/-- Count a command the WebSocket task queued. -/
def NetPc.countOther : NetPc → NetPc
  | .posting loop => .posting { loop with others := loop.others + 1 }
  | pc => pc

/-- Count a command the render task took. -/
def NetPc.countTaken : NetPc → NetPc
  | .posting loop => .posting { loop with taken := loop.taken + 1 }
  | pc => pc

/-- The state the three tasks share. -/
structure Tasks where
  scheduler : AppScheduler
  queue : CommandQueue
  led : Bool
  net : NetPc

namespace Tasks

/-- One step of a task. -/
inductive Action where
  /-- The network task starts on a settings request. -/
  | request (wildcard : Bytes) (body : Option Json)
  | checkFree
  | post
  | reply
  /-- The network task posts one command from another handler. -/
  | netPost (command : Command)
  /-- The WebSocket task runs `handleWsMessage`. -/
  | wsMessage (body : Option Json)
  /-- The render task takes one command and applies it. -/
  | take

/-- The body of the loop in `drainCommands`, without its event. -/
def applyCommand (tasks : Tasks) (command : Command) : Tasks :=
  match command.kind with
  | .kSwitchApp => { tasks with scheduler := tasks.scheduler.switchTo command.appIndex }
  | .kApplySetting =>
      match tasks.scheduler.applySetting command.appIndex command.key command.value with
      | none => tasks
      | some scheduler => { tasks with scheduler := scheduler }
  | .kSetLed => { tasks with led := command.on }

/-- The check in front of the loop. -/
def checkFree (tasks : Tasks) : Option Tasks :=
  match tasks.net with
  | .checking appIndex accepted tooManyToQueue =>
      some { tasks with
        net :=
          if tooManyToQueue = true ∨ tasks.queue.commandFree < accepted.length then
            .answered accepted [] (.error 503 "busy")
          else .posting ⟨appIndex, accepted, 0, tasks.queue.commandFree, [], 0, 0⟩ }
  | _ => none

/-- One turn of the loop: `commandPost`'s answer is not looked at. -/
def post (tasks : Tasks) : Option Tasks :=
  match tasks.net with
  | .posting loop =>
      match loop.accepted[loop.posted]? with
      | none => none
      | some entry =>
          match tasks.queue.commandPost
              (Command.applySetting loop.appIndex entry.key entry.value) with
          | none => some { tasks with net := .posting { loop with posted := loop.posted + 1 } }
          | some queue =>
              some { tasks with
                queue := queue
                net := .posting { loop with
                  posted := loop.posted + 1
                  landed := loop.landed ++ [entry] } }
  | _ => none

/-- The reply behind the loop. -/
def reply (tasks : Tasks) : Option Tasks :=
  match tasks.net with
  | .posting loop =>
      if loop.posted = loop.accepted.length then
        some { tasks with
          net := .answered loop.accepted loop.landed
            (sendAppSettings tasks.scheduler loop.appIndex loop.accepted) }
      else none
  | _ => none

def step (tasks : Tasks) : Action → Option Tasks
  | .request wildcard body =>
      if tasks.net.between then
        some { tasks with
          net :=
            match prepareSettings tasks.scheduler wildcard body with
            | .error reply => .answered [] [] reply
            | .ok (appIndex, accepted, tooManyToQueue) =>
                .checking appIndex accepted tooManyToQueue }
      else none
  | .checkFree => tasks.checkFree
  | .post => tasks.post
  | .reply => tasks.reply
  | .netPost command =>
      if tasks.net.between then
        some { tasks with queue := (tasks.queue.commandPost command).getD tasks.queue }
      else none
  | .wsMessage body =>
      match (wsCommand tasks.scheduler body).bind tasks.queue.commandPost with
      | none => some tasks
      | some queue => some { tasks with queue := queue, net := tasks.net.countOther }
  | .take =>
      match tasks.queue.commandTake with
      | none => some tasks
      | some (command, queue) =>
          some (applyCommand { tasks with queue := queue, net := tasks.net.countTaken } command)

/-- The three tasks, from any state with the network task idle. -/
def machine : Machine Tasks Action where
  start tasks := tasks.net = .idle
  step := step

/-- The action is the start of a request. -/
def Action.isRequest : Action → Bool
  | .request _ _ => true
  | _ => false

/-! ## Whole or not at all -/

/-- The request landed whole or not at all, and the answer says which. -/
def Whole (accepted landed : List AcceptedSetting) (reply : Reply) : Prop :=
  (reply.status = 200 ∧ landed = accepted) ∨
    ((reply.status = 400 ∨ reply.status = 404 ∨ reply.status = 503) ∧ landed = [])

/-- A post of the loop is due while the other tasks have left room for it: what
they queued and the loop's own posts are fewer than the places the handler
counted and those freed since. -/
def RoomLeft (tasks : Tasks) (action : Action) : Prop :=
  match tasks.net, action with
  | .posting loop, .post => loop.others + loop.posted < loop.free + loop.taken
  | _, _ => True

/-- What holds while every post found room and `free` places are left. -/
def Landed (free : Nat) : NetPc → Prop
  | .posting loop => loop.posted ≤ loop.accepted.length ∧
      loop.landed = loop.accepted.take loop.posted ∧
      free + loop.others + loop.posted = loop.free + loop.taken
  | .answered accepted landed reply => Whole accepted landed reply
  | .checking _ _ _ | .idle => True

/-- Everything this request has posted so far is in the queue. -/
def AllLanded (tasks : Tasks) : Prop := Landed tasks.queue.commandFree tasks.net

/-- What holds once a post of the loop was refused. -/
def Lost : NetPc → Prop
  | .posting loop => loop.landed.length < loop.posted ∧ loop.posted ≤ loop.accepted.length
  | .answered accepted landed reply => reply.status = 200 ∧ landed.length < accepted.length
  | .checking _ _ _ | .idle => False

theorem Landed.of_between {pc : NetPc} {free : Nat} (h : Landed free pc)
    (hbetween : pc.between = true) (other : Nat) : Landed other pc := by
  cases pc with
  | posting loop => cases hbetween
  | idle | checking | answered => exact h

theorem Landed.countOther {pc : NetPc} {free : Nat} (h : Landed (free + 1) pc) :
    Landed free pc.countOther := by
  cases pc with
  | posting loop =>
      obtain ⟨hle, hlanded, hcount⟩ := h
      refine ⟨hle, hlanded, ?_⟩
      simp only
      omega
  | idle | checking | answered => exact h

theorem Landed.countTaken {pc : NetPc} {free : Nat} (h : Landed free pc) :
    Landed (free + 1) pc.countTaken := by
  cases pc with
  | posting loop =>
      obtain ⟨hle, hlanded, hcount⟩ := h
      refine ⟨hle, hlanded, ?_⟩
      simp only
      omega
  | idle | checking | answered => exact h

theorem roomLeft_post {tasks : Tasks} {loop : Posting} (hnet : tasks.net = .posting loop) :
    tasks.RoomLeft .post ↔ loop.others + loop.posted < loop.free + loop.taken := by
  simp only [RoomLeft, hnet]

theorem net_applyCommand (tasks : Tasks) (command : Command) :
    (tasks.applyCommand command).net = tasks.net ∧
      (tasks.applyCommand command).queue = tasks.queue := by
  rw [applyCommand]
  split
  · exact ⟨rfl, rfl⟩
  · split <;> exact ⟨rfl, rfl⟩
  · exact ⟨rfl, rfl⟩

theorem roomLeft_of_ne_post {tasks : Tasks} {action : Action} (h : action ≠ .post) :
    tasks.RoomLeft action := by
  unfold RoomLeft
  split
  · exact absurd rfl h
  · trivial

/-- A turn of the loop with room left puts its setting in the queue. -/
theorem allLanded_post {tasks next : Tasks} (h : tasks.AllLanded)
    (hroom : tasks.RoomLeft .post) (hstep : tasks.post = some next) : next.AllLanded := by
  rw [post] at hstep
  split at hstep
  · rename_i loop hnet
    rw [AllLanded, hnet] at h
    obtain ⟨hle, hlanded, hcount⟩ := h
    rw [roomLeft_post hnet] at hroom
    split at hstep
    · cases hstep
    · rename_i entry hentry
      obtain ⟨hlt, hget⟩ := List.getElem?_eq_some_iff.mp hentry
      split at hstep
      · rename_i hfull
        have := CommandQueue.commandPost_eq_none_iff.mp hfull
        omega
      · rename_i queue hqueue
        have hfree := CommandQueue.commandFree_of_post hqueue
        cases hstep
        refine ⟨hlt, ?_, ?_⟩
        · simp only [hlanded]
          rw [List.take_add_one, hentry]
          rfl
        · simp only
          omega
  · cases hstep

/-- A turn of the loop without room loses its setting. -/
theorem lost_post {tasks next : Tasks} (h : tasks.AllLanded)
    (hroom : ¬ tasks.RoomLeft .post) (hstep : tasks.post = some next) : Lost next.net := by
  rw [post] at hstep
  split at hstep
  · rename_i loop hnet
    rw [AllLanded, hnet] at h
    obtain ⟨hle, hlanded, hcount⟩ := h
    rw [roomLeft_post hnet] at hroom
    have hfree : tasks.queue.commandFree = 0 := by omega
    split at hstep
    · cases hstep
    · rename_i entry hentry
      obtain ⟨hlt, _⟩ := List.getElem?_eq_some_iff.mp hentry
      simp only [CommandQueue.commandPost_eq_none_iff.mpr hfree, Option.some.injEq] at hstep
      subst hstep
      refine ⟨?_, hlt⟩
      simp only [hlanded, List.length_take]
      omega
  · cases hstep

/-- The other tasks' steps and their effect on the handler's counters. -/
theorem step_others {tasks next : Tasks} {action : Action}
    (hother : (∃ body, action = .wsMessage body) ∨ action = .take)
    (hstep : tasks.step action = some next) :
    (next.net = tasks.net ∧ next.queue = tasks.queue) ∨
      (next.net = tasks.net.countOther ∧
        tasks.queue.commandFree = next.queue.commandFree + 1) ∨
      (next.net = tasks.net.countTaken ∧
        next.queue.commandFree = tasks.queue.commandFree + 1) := by
  rcases hother with ⟨body, rfl⟩ | rfl
  · rw [step] at hstep
    split at hstep
    · cases hstep
      exact Or.inl ⟨rfl, rfl⟩
    · rename_i queue hqueue
      obtain ⟨command, _, hpost⟩ := Option.bind_eq_some_iff.mp hqueue
      cases hstep
      exact Or.inr (Or.inl ⟨rfl, CommandQueue.commandFree_of_post hpost⟩)
  · rw [step] at hstep
    split at hstep
    · cases hstep
      exact Or.inl ⟨rfl, rfl⟩
    · rename_i command queue htake
      cases hstep
      obtain ⟨hnet, hqueue⟩ := net_applyCommand
        { tasks with queue := queue, net := tasks.net.countTaken } command
      rw [hnet, hqueue]
      exact Or.inr (Or.inr ⟨rfl, CommandQueue.commandFree_of_take htake⟩)

theorem allLanded_others {tasks next : Tasks} {action : Action} (h : tasks.AllLanded)
    (hother : (∃ body, action = .wsMessage body) ∨ action = .take)
    (hstep : tasks.step action = some next) : next.AllLanded := by
  rw [AllLanded] at h ⊢
  rcases step_others hother hstep with ⟨hnet, hqueue⟩ | ⟨hnet, hfree⟩ | ⟨hnet, hfree⟩
  · rw [hnet, hqueue]
    exact h
  · rw [hnet]
    rw [hfree] at h
    exact h.countOther
  · rw [hnet, hfree]
    exact h.countTaken

/-- A request that is answered before the queue is touched has queued nothing. -/
theorem allLanded_request {tasks next : Tasks} {wildcard : Bytes} {body : Option Json}
    (hstep : tasks.step (.request wildcard body) = some next) : next.AllLanded := by
  rw [step] at hstep
  split at hstep
  · cases hprepare : prepareSettings tasks.scheduler wildcard body with
    | error reply =>
        simp only [hprepare, Option.some.injEq] at hstep
        subst hstep
        have hstatus := status_of_prepareSettings hprepare
        exact Or.inr ⟨by omega, rfl⟩
    | ok prepared =>
        simp only [hprepare, Option.some.injEq] at hstep
        subst hstep
        trivial
  · cases hstep

/-- One step with room left keeps everything landed. -/
theorem allLanded_step {tasks next : Tasks} {action : Action} (h : tasks.AllLanded)
    (hroom : tasks.RoomLeft action) (hstep : tasks.step action = some next) :
    next.AllLanded := by
  cases action with
  | request wildcard body => exact allLanded_request hstep
  | checkFree =>
      rw [step, checkFree] at hstep
      split at hstep
      · cases hstep
        rw [AllLanded]
        simp only
        split
        · exact Or.inr ⟨Or.inr (Or.inr rfl), rfl⟩
        · exact ⟨Nat.zero_le _, rfl, rfl⟩
      · cases hstep
  | post => exact allLanded_post h hroom hstep
  | reply =>
      rw [step, reply] at hstep
      split at hstep
      · rename_i loop hnet
        rw [AllLanded, hnet] at h
        split at hstep
        · rename_i hdone
          cases hstep
          refine Or.inl ⟨rfl, ?_⟩
          rw [h.2.1, hdone, List.take_length]
        · cases hstep
      · cases hstep
  | netPost command =>
      rw [step] at hstep
      split at hstep
      · rename_i hbetween
        cases hstep
        exact Landed.of_between h hbetween _
      · cases hstep
  | wsMessage body => exact allLanded_others h (Or.inl ⟨body, rfl⟩) hstep
  | take => exact allLanded_others h (Or.inr rfl) hstep

/-- A setting once lost stays lost until the next request. -/
theorem lost_step {tasks next : Tasks} {action : Action} (h : Lost tasks.net)
    (hsame : action.isRequest = false) (hstep : tasks.step action = some next) :
    Lost next.net := by
  have hcounted : Lost tasks.net.countOther ∧ Lost tasks.net.countTaken := by
    cases hnet : tasks.net <;> rw [hnet] at h <;> exact ⟨h, h⟩
  have hothers : (∃ body, action = .wsMessage body) ∨ action = .take → Lost next.net := by
    intro hother
    rcases step_others hother hstep with ⟨hnet, _⟩ | ⟨hnet, _⟩ | ⟨hnet, _⟩
    · exact hnet ▸ h
    · exact hnet ▸ hcounted.1
    · exact hnet ▸ hcounted.2
  cases action with
  | request wildcard body => cases hsame
  | checkFree =>
      rw [step, checkFree] at hstep
      split at hstep
      · rename_i hnet
        rw [hnet] at h
        exact absurd h id
      · cases hstep
  | post =>
      rw [step, post] at hstep
      split at hstep
      · rename_i loop hnet
        rw [hnet] at h
        obtain ⟨hshort, hle⟩ := h
        split at hstep
        · cases hstep
        · rename_i entry hentry
          obtain ⟨hlt, _⟩ := List.getElem?_eq_some_iff.mp hentry
          split at hstep
          · cases hstep
            exact ⟨Nat.lt_succ_of_lt hshort, hlt⟩
          · cases hstep
            refine ⟨?_, hlt⟩
            simp only [List.length_append, List.length_singleton]
            omega
      · cases hstep
  | reply =>
      rw [step, reply] at hstep
      split at hstep
      · rename_i loop hnet
        rw [hnet] at h
        split at hstep
        · rename_i hdone
          cases hstep
          exact ⟨rfl, hdone ▸ h.1⟩
        · cases hstep
      · cases hstep
  | netPost command =>
      rw [step] at hstep
      split at hstep
      · cases hstep
        exact h
      · cases hstep
  | wsMessage body => exact hothers (Or.inl ⟨body, rfl⟩)
  | take => exact hothers (Or.inr rfl)

/-- A post without room loses its setting; every other action has room. -/
theorem lost_of_no_room {tasks next : Tasks} {action : Action} (h : tasks.AllLanded)
    (hroom : ¬ tasks.RoomLeft action) (hstep : tasks.step action = some next) :
    Lost next.net := by
  obtain rfl : action = .post := by
    by_contra hpost
    exact hroom (roomLeft_of_ne_post hpost)
  exact lost_post h hroom hstep

/-- Until the next request, a run with room left at every post ends with
everything landed, and one without ends with a setting lost. -/
theorem landed_or_lost {actions : List Action} {tasks final : Tasks} (h : tasks.AllLanded)
    (hsame : ∀ action ∈ actions, action.isRequest = false)
    (hexec : machine.exec tasks actions = some final) :
    (machine.Guarded RoomLeft tasks actions ∧ final.AllLanded) ∨
      (¬ machine.Guarded RoomLeft tasks actions ∧ Lost final.net) :=
  machine.guarded_or_broken
    (fun _ _ _ h hroom hstep => allLanded_step h hroom hstep)
    (fun _ _ _ h hroom hstep => lost_of_no_room h hroom hstep)
    (fun _ _ _ h hsame hstep => lost_step h hsame hstep) actions tasks final h hsame hexec

/-- A settings request that was answered landed whole or not at all exactly when
the other tasks left room at each of its posts.  The condition is on the state in front of
the post: what the others queued and the loop posted since `commandFree()` was read is less
than the places counted there and those freed since. -/
theorem lands_whole_iff {start final : Tasks} {wildcard : Bytes} {body : Option Json}
    {actions : List Action} {accepted landed : List AcceptedSetting} {reply : Reply}
    (hsame : ∀ action ∈ actions, action.isRequest = false)
    (hexec : machine.exec start (.request wildcard body :: actions) = some final)
    (hanswered : final.net = .answered accepted landed reply) :
    Whole accepted landed reply ↔
      machine.Guarded RoomLeft start (.request wildcard body :: actions) := by
  obtain ⟨next, hnext, hrest⟩ := machine.exec_cons_eq_some.mp hexec
  rw [machine.guarded_cons_iff hnext (roomLeft_of_ne_post (by simp))]
  rcases landed_or_lost (allLanded_request hnext) hsame hrest with ⟨hguard, hall⟩ | ⟨hguard, hlost⟩
  · rw [AllLanded, hanswered] at hall
    exact iff_of_true hall hguard
  · rw [hanswered] at hlost
    obtain ⟨hstatus, hshort⟩ := hlost
    refine iff_of_false ?_ hguard
    rintro (⟨_, hwhole⟩ | ⟨herror, _⟩)
    · rw [hwhole] at hshort
      exact Nat.lt_irrefl _ hshort
    · omega

/-! ## Two settings, two places, and one message in between -/

/-- A boolean setting that is off. -/
def flag (key : Bytes) : Binding := ⟨⟨key, .kBool, 0, 0, 0⟩, .boolean false, rfl⟩

/-- One app with the settings `a` and `b`. -/
def twoFlags : AppScheduler where
  apps := [⟨ascii "app", some ⟨[flag (ascii "a"), flag (ascii "b")], by decide⟩⟩]
  activeIndex := 0
  count_le := by decide

/-- Six commands waiting, so two places are left. -/
def twoPlaces : Tasks where
  scheduler := twoFlags
  queue := ⟨List.replicate 6 { Command.zero with kind := .kSetLed }, by decide⟩
  led := false
  net := .idle

/-- `{"a":true,"b":true}` -/
def bothOn : Json := .object [(ascii "a", .bool true), (ascii "b", .bool true)]

/-- `{"app":0,"key":"a","value":false}` -/
def wsOff : Json :=
  .object [(ascii "app", .int 0), (ascii "key", .string (ascii "a")), (ascii "value", .bool false)]

def acceptedFlag (key : Bytes) : AcceptedSetting :=
  ⟨key, { SettingValue.zero with boolValue := true }⟩

/-- The reply to `bothOn`. -/
def bothOnReply : Reply :=
  .settings [(ascii "a", (acceptedFlag (ascii "a")).value),
    (ascii "b", (acceptedFlag (ascii "b")).value)]

/-- The message takes the second place, `b` is lost, and the answer is 200. -/
theorem lands_half :
    (machine.exec twoPlaces [.request (ascii "0") (some bothOn), .checkFree,
        .wsMessage (some wsOff), .post, .post, .reply]).map Tasks.net =
      some (.answered [acceptedFlag (ascii "a"), acceptedFlag (ascii "b")]
        [acceptedFlag (ascii "a")] bothOnReply) ∧
    ¬ Whole [acceptedFlag (ascii "a"), acceptedFlag (ascii "b")] [acceptedFlag (ascii "a")]
      bothOnReply := by
  refine ⟨by decide, ?_⟩
  rintro (⟨_, hwhole⟩ | ⟨_, hnone⟩)
  · revert hwhole
    decide
  · cases hnone

/-- With the message held back both land. -/
theorem lands_whole_iff_undisturbed :
    Whole [acceptedFlag (ascii "a"), acceptedFlag (ascii "b")]
        [acceptedFlag (ascii "a"), acceptedFlag (ascii "b")] bothOnReply ↔
      machine.Guarded RoomLeft twoPlaces
        [.request (ascii "0") (some bothOn), .checkFree, .post, .post, .reply] :=
  lands_whole_iff (by decide) rfl rfl

end Tasks

end MatrixFaces.Api
