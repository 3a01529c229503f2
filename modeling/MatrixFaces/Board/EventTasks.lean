import MatrixFaces.Board.EventQueue
import MatrixFaces.Foundation.LossyLog
import MatrixFaces.Foundation.Machine

set_option autoImplicit false

/-!
# The event queue between two tasks (`board/esp32s3/rtos.cpp`)

The render task posts, another task takes.  `eventPost` is up to three queue operations, and
the other task may run between any two of them.

`EventTasks` is the queue with what was posted and what was taken.  The main result is
`losses_are_reported`, over every interleaving of the two tasks' operations: what is taken
was posted, in order and once each.  While no `eventPost` is under way the last event posted
is taken or queued behind all others, and no more events are missing than calls that
answered `false`.

`Accounted` is the invariant, in the terms of `Foundation.LossyLog`: what was taken and what
is queued is the log of what was posted with at most so many entries missing.
-/

namespace MatrixFaces.Board

open MatrixFaces.Foundation

/-- Where the posting task is in `eventPost`. -/
inductive Poster where
  | idle
  /-- In front of the first `xQueueSend`. -/
  | sending (event : Event)
  /-- In front of `xQueueReceive`: the queue was full. -/
  | makingRoom (event : Event)
  /-- In front of the second `xQueueSend`. -/
  | resending (event : Event)
  deriving DecidableEq

/-- Both tasks, and what they did so far. -/
structure EventTasks where
  queue : EventQueue
  poster : Poster
  /-- The events `eventPost` was called with. -/
  posted : List Event
  /-- The events `eventTake` returned. -/
  taken : List Event
  /-- The calls of `eventPost` that returned `false`. -/
  refused : Nat

/-- One queue operation, or the start of a call. -/
inductive EventAction where
  | callPost (event : Event)
  | send
  | makeRoom
  | resend
  | take
  deriving DecidableEq

namespace EventTasks

def initial : EventTasks := ⟨EventQueue.empty, .idle, [], [], 0⟩

/-- One operation of one of the tasks. -/
def step (tasks : EventTasks) : EventAction → Option EventTasks
  | .callPost event =>
      match tasks.poster with
      | .idle => some { tasks with poster := .sending event, posted := tasks.posted ++ [event] }
      | _ => none
  | .send =>
      match tasks.poster with
      | .sending event =>
          match tasks.queue.send event with
          | some queue => some { tasks with queue := queue, poster := .idle }
          | none => some { tasks with poster := .makingRoom event }
      | _ => none
  | .makeRoom =>
      match tasks.poster with
      | .makingRoom event =>
          some { tasks with queue := tasks.queue.discard, poster := .resending event }
      | _ => none
  | .resend =>
      match tasks.poster with
      | .resending event =>
          -- the result of the second send is not looked at
          some { tasks with
            queue := (tasks.queue.send event).getD tasks.queue
            poster := .idle
            refused := tasks.refused + 1 }
      | _ => none
  | .take =>
      match tasks.queue.eventTake with
      | none => some tasks
      | some (event, queue) =>
          some { tasks with queue := queue, taken := tasks.taken ++ [event] }

/-- The interleavings of the two tasks. -/
def machine : Machine EventTasks EventAction where
  start tasks := tasks = initial
  step := step

/-- The events that were not lost: taken or still queued. -/
def kept (tasks : EventTasks) : List Event := tasks.taken ++ tasks.queue.events

/-- What holds between any two operations.  An event that is being posted is not in the queue
yet, and once room was made for it only the other task touches the queue. -/
def Accounted (tasks : EventTasks) : Prop :=
  match tasks.poster with
  | .idle => Loses tasks.posted tasks.kept tasks.refused ∧ EndsAlike tasks.posted tasks.kept
  | .sending event | .makingRoom event =>
      ∃ before, tasks.posted = before ++ [event] ∧ Loses before tasks.kept tasks.refused
  | .resending event =>
      ∃ before, tasks.posted = before ++ [event] ∧
        Loses before tasks.kept (tasks.refused + 1) ∧
        tasks.queue.events.length < kEventQueueDepth

theorem accounted_initial : initial.Accounted :=
  ⟨Loses.refl [], EndsAlike.refl []⟩

/-- Taking moves an event from the queue to the taken ones. -/
theorem kept_take {tasks : EventTasks} {event : Event} {queue : EventQueue}
    (h : tasks.queue.eventTake = some (event, queue)) :
    (tasks.taken ++ [event]) ++ queue.events = tasks.kept := by
  rw [kept, EventQueue.events_eventTake h, List.append_assoc, List.singleton_append]

/-- Making room loses one event at most. -/
theorem loses_discard {tasks : EventTasks} {log : List Event} {lost : Nat}
    (h : Loses log tasks.kept lost) :
    Loses log (tasks.taken ++ tasks.queue.discard.events) (lost + 1) := by
  rw [EventQueue.events_discard]
  rw [kept] at h
  cases hevents : tasks.queue.events with
  | nil =>
      rw [hevents] at h
      exact h.more
  | cons oldest rest =>
      rw [hevents] at h
      exact h.drop

/-- An event that got its place ends the log. -/
theorem accounted_queued {tasks : EventTasks} {before : List Event} {event : Event}
    {refused : Nat} {queue : EventQueue} (hposted : tasks.posted = before ++ [event])
    (hsend : tasks.queue.send event = some queue) (hloses : Loses before tasks.kept refused) :
    Loses tasks.posted (tasks.taken ++ queue.events) refused ∧
      EndsAlike tasks.posted (tasks.taken ++ queue.events) := by
  have hkept : tasks.taken ++ queue.events = tasks.kept ++ [event] := by
    rw [kept, EventQueue.events_send hsend, List.append_assoc]
  rw [hposted, hkept]
  exact ⟨hloses.concat event, hloses.endsAlike event⟩

/-- Taking keeps the account, whatever the other task is at. -/
theorem accounted_take {tasks next : EventTasks} (hinv : tasks.Accounted)
    (h : tasks.step .take = some next) : next.Accounted := by
  rw [step] at h
  cases htake : tasks.queue.eventTake with
  | none =>
      rw [htake] at h
      cases h
      exact hinv
  | some pair =>
      obtain ⟨event, queue⟩ := pair
      rw [htake] at h
      cases h
      have hkept := kept_take htake
      have hshorter : queue.events.length ≤ tasks.queue.events.length := by
        rw [EventQueue.events_eventTake htake, List.length_cons]
        exact Nat.le_succ _
      rw [Accounted] at hinv ⊢
      cases hposter : tasks.poster <;> simp only [hposter, kept, hkept] at hinv ⊢
      · exact hinv
      · exact hinv
      · exact hinv
      · obtain ⟨before, hposted, hloses, hroom⟩ := hinv
        exact ⟨before, hposted, hloses, Nat.lt_of_le_of_lt hshorter hroom⟩

theorem accounted_step {tasks next : EventTasks} {action : EventAction}
    (hinv : tasks.Accounted) (h : tasks.step action = some next) : next.Accounted := by
  cases action with
  | callPost event =>
      cases hposter : tasks.poster <;> simp only [step, hposter] at h <;> cases h
      rw [Accounted, hposter] at hinv
      exact ⟨tasks.posted, rfl, hinv.1⟩
  | send =>
      cases hposter : tasks.poster <;> simp only [step, hposter] at h <;> try cases h
      rename_i event
      rw [Accounted, hposter] at hinv
      obtain ⟨before, hposted, hloses⟩ := hinv
      cases hsend : tasks.queue.send event with
      | none =>
          rw [hsend] at h
          cases h
          exact ⟨before, hposted, hloses⟩
      | some queue =>
          rw [hsend] at h
          cases h
          exact @accounted_queued tasks _ _ _ _ hposted hsend hloses
  | makeRoom =>
      cases hposter : tasks.poster <;> simp only [step, hposter] at h <;> cases h
      rw [Accounted, hposter] at hinv
      obtain ⟨before, hposted, hloses⟩ := hinv
      exact ⟨before, hposted, loses_discard hloses, tasks.queue.length_discard_lt⟩
  | resend =>
      cases hposter : tasks.poster <;> simp only [step, hposter] at h <;> cases h
      rename_i event
      rw [Accounted, hposter] at hinv
      obtain ⟨before, hposted, hloses, hroom⟩ := hinv
      -- the consumer can only have made more room, so the second send succeeds
      obtain ⟨queue, hsend⟩ := EventQueue.send_of_room event hroom
      rw [hsend, Option.getD_some]
      exact @accounted_queued tasks _ _ _ _ hposted hsend hloses
  | take => exact accounted_take hinv h

theorem accounted_run {actions : List EventAction} {final : EventTasks}
    (h : machine.exec initial actions = some final) : final.Accounted :=
  machine.invariant_of_allowed
    (fun _ _ _ hinv _ hstep => accounted_step hinv hstep) actions initial final accounted_initial
    (fun _ _ => trivial) h

/-- A call the other task leaves alone is `EventQueue.eventPost`. -/
theorem exec_eventPost {tasks : EventTasks} (hidle : tasks.poster = .idle) (event : Event) :
    ∃ actions final, machine.exec tasks (.callPost event :: .send :: actions) = some final ∧
      final.poster = .idle ∧ final.queue = (tasks.queue.eventPost event).1 ∧
      final.refused = tasks.refused + if (tasks.queue.eventPost event).2 = true then 0 else 1 := by
  cases hsend : tasks.queue.send event with
  | some queue =>
      refine ⟨[], { tasks with
        queue := queue, poster := .idle, posted := tasks.posted ++ [event] }, ?_, rfl, ?_, ?_⟩
      · simp [machine, Machine.exec, step, hidle, hsend]
      · rw [EventQueue.eventPost, hsend]
      · simp [EventQueue.eventPost, hsend]
  | none =>
      refine ⟨[.makeRoom, .resend], { tasks with
        queue := (tasks.queue.discard.send event).getD tasks.queue.discard
        poster := .idle
        posted := tasks.posted ++ [event]
        refused := tasks.refused + 1 }, ?_, rfl, ?_, ?_⟩
      · simp [machine, Machine.exec, step, hidle, hsend]
      · rw [EventQueue.eventPost, hsend]
      · simp [EventQueue.eventPost, hsend]

theorem Accounted.sublist {tasks : EventTasks} (h : tasks.Accounted) :
    tasks.kept.Sublist tasks.posted := by
  rw [Accounted] at h
  cases hposter : tasks.poster <;> simp only [hposter] at h
  · exact h.1.sublist
  all_goals
    obtain ⟨before, hposted, hloses⟩ := h
    rw [hposted]
  · exact hloses.sublist.trans (List.sublist_append_left before _)
  · exact hloses.sublist.trans (List.sublist_append_left before _)
  · exact hloses.1.sublist.trans (List.sublist_append_left before _)

/-- However the operations of the two tasks interleave, what is taken are events that were
posted, in order and once each.  While no `eventPost` is under way the last one posted was
taken or is queued, behind all the others, and there are no more lost ones than calls that
reported a loss. -/
theorem losses_are_reported (actions : List EventAction) {final : EventTasks}
    (h : machine.exec initial actions = some final) :
    final.taken.Sublist final.posted ∧
      (final.poster = .idle →
        EndsAlike final.posted (final.taken ++ final.queue.events) ∧
        (final.taken ++ final.queue.events).Sublist final.posted ∧
        final.posted.length - (final.taken.length + final.queue.events.length) ≤
          final.refused) := by
  have hinv := accounted_run h
  refine ⟨(List.sublist_append_left _ _).trans hinv.sublist, fun hidle => ?_⟩
  rw [Accounted, hidle] at hinv
  obtain ⟨hloses, hends⟩ := hinv
  refine ⟨hends, hloses.sublist, ?_⟩
  have hlength := hloses.length_le
  rw [kept, List.length_append] at hlength
  omega

/-- A post that finds the queue full while the other task takes an event: two are gone from
the queue, and one of them is lost. -/
def takenInBetween : List EventAction :=
  ((List.replicate 17 [.callPost (.appSwitched 1), .send]).flatten : List EventAction) ++
    [.take, .makeRoom, .resend]

theorem losses_are_reported_in_between :
    ∃ final, machine.exec initial takenInBetween = some final ∧
      final.taken.length = 1 ∧ final.queue.events.length = 15 ∧
      final.posted.length - (final.taken.length + final.queue.events.length) ≤ 1 :=
  ⟨_, rfl, rfl, rfl, ((losses_are_reported takenInBetween rfl).2 rfl).2.2⟩

end EventTasks

end MatrixFaces.Board
