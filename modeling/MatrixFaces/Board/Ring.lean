import Mathlib.Data.List.Rotate
import Mathlib.Data.Nat.ModEq
import MatrixFaces.Board.EventQueue
import MatrixFaces.Foundation.BoundedFifo

set_option autoImplicit false

/-!
# The ring of the single-task boards (`board/ring.h`, `board/samd51/rtos.cpp`)

A fixed array read from `head_` on, around its end, for `count_` items.  Indices are bytes;
sums of two of them are taken in `int` before the remainder.

The main result is `ring_refines_fifo`: whatever a new ring is asked, of either policy and
any depth a byte can say, it answers like a `BoundedFifo` that starts empty, and what it
holds is that queue's items.  `Holds` is the relation between the two, and each call keeps it.

`ring_commands` and `ring_events` tie the ring to the queues the other modules use.
-/

namespace MatrixFaces.Board

open MatrixFaces.Foundation

/-- `Ring`; its bounds are those that `post`, `take` and `clear` keep. -/
structure Ring (α : Type) (Depth : UInt8) (dropOldest : Bool) where
  items : List α
  head : UInt8
  count : UInt8
  items_length : items.length = Depth.toNat
  head_lt : head.toNat < Depth.toNat
  count_le : count.toNat ≤ Depth.toNat

namespace Ring

variable {α : Type} {Depth : UInt8} {dropOldest : Bool}

/-- A ring just built: whatever the array holds, nothing is in it. -/
def fresh (dropOldest : Bool) (items : List α) (hlength : items.length = Depth.toNat)
    (hpos : 0 < Depth.toNat) : Ring α Depth dropOldest :=
  ⟨items, 0, 0, hlength, hpos, Nat.zero_le _⟩

theorem toNat_pred {n : UInt8} (h : 0 < n.toNat) : (n - 1).toNat = n.toNat - 1 := by
  have hone : (1 : UInt8) ≤ n := UInt8.le_iff_toNat_le.mpr h
  rw [UInt8.toNat_sub_of_le _ _ hone]
  rfl

theorem toNat_succ {n m : UInt8} (h : n.toNat < m.toNat) : (n + 1).toNat = n.toNat + 1 := by
  have hlt := m.toNat_lt
  rw [UInt8.toNat_add, UInt8.toNat_one, Nat.mod_eq_of_lt (by omega)]

theorem toNat_mod (n : Nat) (hpos : 0 < Depth.toNat) :
    (UInt8.ofNat (n % Depth.toNat)).toNat = n % Depth.toNat := by
  have hlt := Nat.mod_lt n hpos
  have hdepth := Depth.toNat_lt
  rw [UInt8.toNat_ofNat_of_lt' (by rw [UInt8.size]; omega)]

/-- `head_ = (head_ + 1) % Depth` and `--count_`. -/
def advance (ring : Ring α Depth dropOldest) (h : 0 < ring.count.toNat) :
    Ring α Depth dropOldest where
  items := ring.items
  head := UInt8.ofNat ((ring.head.toNat + 1) % Depth.toNat)
  count := ring.count - 1
  items_length := ring.items_length
  head_lt := by
    have hpos := Nat.zero_lt_of_lt ring.head_lt
    rw [toNat_mod _ hpos]
    exact Nat.mod_lt _ hpos
  count_le := by
    rw [toNat_pred h]
    exact (Nat.sub_le _ _).trans ring.count_le

/-- `items_[(head_ + count_) % Depth] = item` and `++count_`. -/
def put (ring : Ring α Depth dropOldest) (item : α) (h : ring.count.toNat < Depth.toNat) :
    Ring α Depth dropOldest where
  items := ring.items.set ((ring.head.toNat + ring.count.toNat) % Depth.toNat) item
  head := ring.head
  count := ring.count + 1
  items_length := by rw [List.length_set, ring.items_length]
  head_lt := ring.head_lt
  count_le := by
    rw [toNat_succ h]
    exact h

/-- `post`. -/
def post (ring : Ring α Depth dropOldest) (item : α) : Bool × Ring α Depth dropOldest :=
  if hfull : Depth.toNat ≤ ring.count.toNat then
    if dropOldest = false then (false, ring)
    else
      have hpos : 0 < ring.count.toNat := (Nat.zero_lt_of_lt ring.head_lt).trans_le hfull
      (false, (ring.advance hpos).put item (by
        have hle := ring.count_le
        rw [advance, toNat_pred hpos]
        omega))
  else (true, ring.put item (Nat.lt_of_not_le hfull))

/-- `take`; `none` is the source's `false`, with `out` as it was. -/
def take (ring : Ring α Depth dropOldest) : Option α × Ring α Depth dropOldest :=
  if hempty : ring.count.toNat = 0 then (none, ring)
  else
    (some (ring.items.get ⟨ring.head.toNat, ring.items_length ▸ ring.head_lt⟩),
      ring.advance (Nat.pos_of_ne_zero hempty))

/-- `free`. -/
def free (ring : Ring α Depth dropOldest) : UInt8 := UInt8.ofNat (Depth.toNat - ring.count.toNat)

/-- `clear`. -/
def clear (ring : Ring α Depth dropOldest) : Ring α Depth dropOldest :=
  { ring with
    head := 0
    count := 0
    head_lt := Nat.zero_lt_of_lt ring.head_lt
    count_le := Nat.zero_le _ }

/-- A ring as an object. -/
def behaviour : Behaviour (FifoCall α) (FifoAnswer α) (Ring α Depth dropOldest)
  | ring, .post item => (.posted (ring.post item).1, (ring.post item).2)
  | ring, .take => (.taken ring.take.1, ring.take.2)
  | ring, .free => (.free ring.free.toNat, ring)
  | ring, .clear => (.cleared, ring.clear)

/-! ## What is in the ring -/

/-- The items, oldest first. -/
def contents (ring : Ring α Depth dropOldest) : List α :=
  (ring.items.rotate ring.head.toNat).take ring.count.toNat

theorem length_contents (ring : Ring α Depth dropOldest) :
    ring.contents.length = ring.count.toNat := by
  have hle := ring.count_le
  rw [contents, List.length_take, List.length_rotate, ring.items_length]
  exact Nat.min_eq_left hle

@[simp] theorem contents_fresh (items : List α) (hlength : items.length = Depth.toNat)
    (hpos : 0 < Depth.toNat) : (fresh dropOldest items hlength hpos).contents = [] := rfl

@[simp] theorem contents_clear (ring : Ring α Depth dropOldest) : ring.clear.contents = [] := rfl

/-- Around the end of the array, the slot behind `head_` starts the rotated rest. -/
theorem contents_advance (ring : Ring α Depth dropOldest) (h : 0 < ring.count.toNat) :
    ring.contents = ring.items.get ⟨ring.head.toNat, ring.items_length ▸ ring.head_lt⟩ ::
      (ring.advance h).contents := by
  have hhead := ring.head_lt
  have hcount := ring.count_le
  have hlength := ring.items_length
  have hrotate : ring.items.rotate ((ring.head.toNat + 1) % Depth.toNat) =
      (ring.items.rotate ring.head.toNat).rotate 1 := by
    rw [List.rotate_rotate, ← hlength, List.rotate_mod]
  obtain ⟨n, hn⟩ : ∃ n, ring.count.toNat = n + 1 := ⟨ring.count.toNat - 1, by omega⟩
  cases hitems : ring.items.rotate ring.head.toNat with
  | nil =>
      have hrotated := congrArg List.length hitems
      rw [List.length_rotate, hlength, List.length_nil] at hrotated
      omega
  | cons first rest =>
      have hrest : rest.length + 1 = Depth.toNat := by
        have hrotated := congrArg List.length hitems
        rw [List.length_rotate, hlength, List.length_cons] at hrotated
        exact hrotated.symm
      have hfirst : ring.items[ring.head.toNat]? = some first := by
        have hzero := @List.getElem?_rotate α ring.items ring.head.toNat 0 (by omega)
        rw [hitems, Nat.zero_add, Nat.mod_eq_of_lt (by omega)] at hzero
        exact hzero.symm
      have hget : ring.items.get ⟨ring.head.toNat, ring.items_length ▸ ring.head_lt⟩ = first :=
        (List.getElem?_eq_some_iff.mp hfirst).2
      rw [contents, contents, hitems, hget]
      change _ = first :: (ring.items.rotate (UInt8.ofNat _).toNat).take (ring.count - 1).toNat
      rw [toNat_mod _ (Nat.zero_lt_of_lt hhead), toNat_pred h, hrotate, hitems, hn,
        List.take_succ_cons, List.rotate_cons_succ, List.rotate_zero, Nat.add_sub_cancel,
        List.take_append_of_le_length (by omega)]

/-- The slot that is written is the one behind the last item. -/
theorem contents_put (ring : Ring α Depth dropOldest) (item : α)
    (h : ring.count.toNat < Depth.toNat) :
    (ring.put item h).contents = ring.contents ++ [item] := by
  have hhead := ring.head_lt
  have hlength := ring.items_length
  have hset : (ring.items.set ((ring.head.toNat + ring.count.toNat) % Depth.toNat) item).rotate
      ring.head.toNat = (ring.items.rotate ring.head.toNat).set ring.count.toNat item := by
    refine List.ext_getElem (by simp) fun k hk _ => ?_
    rw [List.length_rotate, List.length_set, hlength] at hk
    rw [List.getElem_rotate, List.getElem_set, List.getElem_set, List.getElem_rotate]
    simp only [List.length_set, hlength]
    have hslot : (ring.head.toNat + ring.count.toNat) % Depth.toNat =
        (k + ring.head.toNat) % Depth.toNat ↔ ring.count.toNat = k := by
      constructor
      · intro hmod
        rw [Nat.add_comm k] at hmod
        have hcancel := Nat.ModEq.add_left_cancel' _ hmod
        rwa [Nat.ModEq, Nat.mod_eq_of_lt h, Nat.mod_eq_of_lt hk] at hcancel
      · rintro rfl
        rw [Nat.add_comm]
    by_cases hk' : ring.count.toNat = k
    · rw [if_pos (hslot.mpr hk'), if_pos hk']
    · rw [if_neg fun hmod => hk' (hslot.mp hmod), if_neg hk']
  rw [contents, contents]
  change (List.rotate _ ring.head.toNat).take (ring.count + 1).toNat = _
  have hlt : ring.count.toNat < (ring.items.rotate ring.head.toNat).length := by
    rw [List.length_rotate, hlength]
    exact h
  rw [toNat_succ h]
  change ((ring.items.set _ item).rotate ring.head.toNat).take _ = _
  rw [hset, List.take_add_one, List.take_set_of_le (Nat.le_refl _), List.getElem?_set_self hlt]
  rfl

/-! ## The ring is a bounded queue -/

/-- The queue a ring stands for. -/
def queue (ring : Ring α Depth dropOldest) : BoundedFifo α Depth.toNat :=
  ⟨ring.contents, ring.length_contents.le.trans ring.count_le⟩

/-- A ring and the queue of its items.  Where the ring begins in its array is not compared. -/
def Holds (ring : Ring α Depth dropOldest) (fifo : BoundedFifo α Depth.toNat) : Prop :=
  ring.contents = fifo.items

theorem Holds.count {ring : Ring α Depth dropOldest} {fifo : BoundedFifo α Depth.toNat}
    (h : ring.Holds fifo) : ring.count.toNat = fifo.items.length := by
  rw [← ring.length_contents, h]

theorem Holds.post {ring : Ring α Depth dropOldest} {fifo : BoundedFifo α Depth.toNat}
    (h : ring.Holds fifo) (item : α) :
    (ring.post item).1 = (fifo.post dropOldest item).1 ∧
      (ring.post item).2.Holds (fifo.post dropOldest item).2 := by
  have hcount := h.count
  have hpos := Nat.zero_lt_of_lt ring.head_lt
  by_cases hfull : Depth.toNat ≤ ring.count.toNat
  · have hnot : ¬ fifo.items.length < Depth.toNat := by omega
    rw [Ring.post, dif_pos hfull]
    cases dropOldest with
    | false =>
        rw [if_pos rfl, BoundedFifo.post_refused item hnot]
        exact ⟨rfl, h⟩
    | true =>
        obtain ⟨hanswer, hitems⟩ := BoundedFifo.post_evicting item hpos hnot
        rw [if_neg (by decide), hanswer]
        refine ⟨rfl, ?_⟩
        have hadvance := ring.contents_advance (hpos.trans_le hfull)
        rw [Holds, contents_put, hitems, ← h, hadvance, List.tail_cons]
  · obtain ⟨hanswer, hitems⟩ :=
      @BoundedFifo.post_of_lt α Depth.toNat dropOldest fifo item (by omega)
    rw [Ring.post, dif_neg hfull, hanswer]
    refine ⟨rfl, ?_⟩
    rw [Holds, contents_put, hitems, h]

theorem Holds.take {ring : Ring α Depth dropOldest} {fifo : BoundedFifo α Depth.toNat}
    (h : ring.Holds fifo) : ring.take.1 = fifo.take.1 ∧ ring.take.2.Holds fifo.take.2 := by
  have hcount := h.count
  by_cases hempty : ring.count.toNat = 0
  · have hnil : fifo.items = [] := List.length_eq_zero_iff.mp (by omega)
    rw [Ring.take, dif_pos hempty, BoundedFifo.take, Holds]
    simp only [hnil]
    exact ⟨rfl, h.trans hnil⟩
  · have hadvance := ring.contents_advance (Nat.pos_of_ne_zero hempty)
    rw [h] at hadvance
    rw [Ring.take, dif_neg hempty, BoundedFifo.take, Holds]
    simp only [hadvance]
    exact ⟨rfl, rfl⟩

/-- One call on the ring is the same call on the queue. -/
theorem behaviour_implements :
    (@behaviour α Depth dropOldest).Implements (BoundedFifo.behaviour dropOldest) Holds := by
  intro ring fifo h call
  cases call with
  | post item => exact ⟨congrArg _ (h.post item).1, (h.post item).2⟩
  | take => exact ⟨congrArg _ h.take.1, h.take.2⟩
  | free =>
      have hdepth := Depth.toNat_lt
      have hfree : ring.free.toNat = fifo.free := by
        rw [Ring.free, BoundedFifo.free, h.count,
          UInt8.toNat_ofNat_of_lt' (by rw [UInt8.size]; omega)]
      exact ⟨congrArg FifoAnswer.free hfree, h⟩
  | clear => exact ⟨rfl, rfl⟩

/-- Whatever a new ring is asked, it answers like a queue of at most `Depth` items that starts
empty, and holds the items of that queue.  Where its reading begins is not to be told from
outside. -/
theorem ring_refines_fifo (Depth : UInt8) (dropOldest : Bool) (items : List α)
    (hlength : items.length = Depth.toNat) (hpos : 0 < Depth.toNat) (calls : List (FifoCall α)) :
    let ring : Ring α Depth dropOldest := fresh dropOldest items hlength hpos
    let queue : BoundedFifo α Depth.toNat := BoundedFifo.empty
    behaviour.answers ring calls = (BoundedFifo.behaviour dropOldest).answers queue calls ∧
      (behaviour.after ring calls).contents =
        ((BoundedFifo.behaviour dropOldest).after queue calls).items := by
  intro ring queue
  have hempty : ring.Holds queue := contents_fresh items hlength hpos
  exact behaviour_implements.run hempty calls

/-- Three posts on a ring of two that makes room, and what is left. -/
theorem ring_refines_fifo_two :
    let ring : Ring Nat 2 true := fresh true [7, 7] rfl (by decide)
    let calls : List (FifoCall Nat) := [.post 1, .post 2, .post 3, .free, .take, .clear, .take]
    behaviour.answers ring calls = [.posted true, .posted true, .posted false, .free 0,
      .taken (some 2), .cleared, .taken none] :=
  (ring_refines_fifo 2 true [7, 7] rfl (by decide) [.post 1, .post 2, .post 3, .free, .take,
    .clear, .take]).1.trans rfl

end Ring

/-! ## The queues of both boards

What the other modules say of `CommandQueue` and `EventQueue` holds of the rings too. -/

section

variable {commands : Ring Command 8 false} {events : Ring Event 16 true}
  {commandQueue : CommandQueue} {eventQueue : EventQueue}

/-- `commandPost`, `commandTake` and `commandFree` on a ring. -/
theorem ring_commands (h : commands.contents = commandQueue.commands) (command : Command) :
    ((commands.post command).1 = (commandQueue.commandPost command).isSome ∧
      (commands.post command).2.contents =
        ((commandQueue.commandPost command).getD commandQueue).commands) ∧
    (commands.take.1 = commandQueue.commandTake.map Prod.fst ∧
      commands.take.2.contents =
        ((commandQueue.commandTake.map Prod.snd).getD commandQueue).commands) ∧
    commands.free.toNat = commandQueue.commandFree := by
  have hholds : commands.Holds ⟨commandQueue.commands, commandQueue.length_le⟩ := h
  refine ⟨?_, ?_, ?_⟩
  · obtain ⟨hanswer, hcontents⟩ := hholds.post command
    by_cases hroom : commandQueue.commands.length < kCommandQueueDepth
    · have hpost : commandQueue.commandPost command = some _ := dif_pos hroom
      obtain ⟨htrue, hitems⟩ := @BoundedFifo.post_of_lt Command 8 false
        ⟨commandQueue.commands, commandQueue.length_le⟩ command hroom
      rw [hpost]
      exact ⟨hanswer.trans htrue, hcontents.trans hitems⟩
    · have hpost : commandQueue.commandPost command = none := dif_neg hroom
      have hrefused := @BoundedFifo.post_refused Command 8
        ⟨commandQueue.commands, commandQueue.length_le⟩ command hroom
      rw [hpost]
      exact ⟨hanswer.trans (congrArg Prod.fst hrefused),
        hcontents.trans (congrArg (fun posted => posted.2.items) hrefused)⟩
  · obtain ⟨hanswer, hcontents⟩ := hholds.take
    rw [hanswer, hcontents, BoundedFifo.take]
    cases htake : commandQueue.commandTake with
    | none =>
        have hnil : commandQueue.commands = [] := by
          rw [CommandQueue.commandTake] at htake
          split at htake
          · assumption
          · cases htake
        simp [hnil]
    | some taken =>
        simp [CommandQueue.commands_of_take htake]
  · have hfree := (Ring.behaviour_implements _ _ hholds .free).1
    exact FifoAnswer.free.inj hfree

/-- `eventPost` and `eventTake` on a ring. -/
theorem ring_events (h : events.contents = eventQueue.events) (event : Event) :
    ((events.post event).1 = (eventQueue.eventPost event).2 ∧
      (events.post event).2.contents = (eventQueue.eventPost event).1.events) ∧
    (events.take.1 = eventQueue.eventTake.map Prod.fst ∧
      events.take.2.contents =
        ((eventQueue.eventTake.map Prod.snd).getD eventQueue).events) := by
  have hholds : events.Holds ⟨eventQueue.events, eventQueue.length_le⟩ := h
  constructor
  · obtain ⟨hanswer, hcontents⟩ := hholds.post event
    have hposted := eventQueue.events_eventPost event
    by_cases hroom : eventQueue.events.length < kEventQueueDepth
    · obtain ⟨next, hsend⟩ := EventQueue.send_of_room event hroom
      have hpost : eventQueue.eventPost event = (next, true) := by
        rw [EventQueue.eventPost, hsend]
      obtain ⟨htrue, hitems⟩ := @BoundedFifo.post_of_lt Event 16 true
        ⟨eventQueue.events, eventQueue.length_le⟩ event hroom
      rw [hpost] at hposted ⊢
      exact ⟨hanswer.trans htrue, hcontents.trans (hitems.trans hposted.symm)⟩
    · have hsend : eventQueue.send event = none := dif_neg hroom
      have hrefused : (eventQueue.eventPost event).2 = false := by
        rw [EventQueue.eventPost, hsend]
      obtain ⟨hfalse, hitems⟩ := @BoundedFifo.post_evicting Event 16
        ⟨eventQueue.events, eventQueue.length_le⟩ event (by decide) hroom
      rw [hrefused, if_neg Bool.false_ne_true] at hposted
      exact ⟨(hanswer.trans hfalse).trans hrefused.symm,
        hcontents.trans (hitems.trans hposted.symm)⟩
  · obtain ⟨hanswer, hcontents⟩ := hholds.take
    rw [hanswer, hcontents, BoundedFifo.take]
    cases htake : eventQueue.eventTake with
    | none => simp [EventQueue.eventTake_eq_none htake]
    | some taken => simp [EventQueue.events_eventTake htake]

end

end MatrixFaces.Board
