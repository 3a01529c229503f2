import MatrixFaces.Foundation.Objects

set_option autoImplicit false

/-!
# Bounded queues

First in, first out, with room for `depth` items.  A post on a full queue is refused, or
takes the place of the oldest item.

A queue carries the bound on its items as a field.  `behaviour` is it as an object of
`Foundation.Objects`, so an implementation is compared with it over all calls at once.
-/

namespace MatrixFaces.Foundation

/-- The items waiting, oldest first. -/
structure BoundedFifo (α : Type) (depth : Nat) where
  items : List α
  length_le : items.length ≤ depth

/-- What a bounded queue is asked. -/
inductive FifoCall (α : Type) where
  | post (item : α)
  | take
  | free
  | clear
  deriving DecidableEq, Repr

/-- What it answers. -/
inductive FifoAnswer (α : Type) where
  /-- Whether the item was put in and no other was lost for it. -/
  | posted (whole : Bool)
  /-- The item that was taken, if there was one. -/
  | taken (item : Option α)
  | free (room : Nat)
  | cleared
  deriving DecidableEq, Repr

namespace BoundedFifo

variable {α : Type} {depth : Nat}

def empty : BoundedFifo α depth := ⟨[], Nat.zero_le depth⟩

/-- Put an item behind the others.  On a full queue `dropOldest` decides: the item is refused,
or the oldest one leaves. -/
def post (dropOldest : Bool) (queue : BoundedFifo α depth) (item : α) :
    Bool × BoundedFifo α depth :=
  if h : queue.items.length < depth then
    (true, ⟨queue.items ++ [item], by rw [List.length_append]; exact h⟩)
  else if dropOldest then
    (false, ⟨(queue.items ++ [item]).tail, by
      rw [List.length_tail, List.length_append]
      exact queue.length_le⟩)
  else (false, queue)

/-- Take the oldest item. -/
def take (queue : BoundedFifo α depth) : Option α × BoundedFifo α depth :=
  (queue.items.head?, ⟨queue.items.tail, by
    rw [List.length_tail]
    exact Nat.le_trans (Nat.sub_le _ _) queue.length_le⟩)

/-- The room that is left. -/
def free (queue : BoundedFifo α depth) : Nat := depth - queue.items.length

/-- A bounded queue as an object. -/
def behaviour (dropOldest : Bool) :
    Behaviour (FifoCall α) (FifoAnswer α) (BoundedFifo α depth)
  | queue, .post item => ((.posted (queue.post dropOldest item).1), (queue.post dropOldest item).2)
  | queue, .take => (.taken queue.take.1, queue.take.2)
  | queue, .free => (.free queue.free, queue)
  | _, .clear => (.cleared, empty)

theorem post_of_lt {dropOldest : Bool} {queue : BoundedFifo α depth} (item : α)
    (h : queue.items.length < depth) :
    (queue.post dropOldest item).1 = true ∧
      (queue.post dropOldest item).2.items = queue.items ++ [item] := by
  rw [post, dif_pos h]
  exact ⟨rfl, rfl⟩

/-- A refused post changes nothing. -/
theorem post_refused {queue : BoundedFifo α depth} (item : α)
    (h : ¬ queue.items.length < depth) : queue.post false item = (false, queue) := by
  rw [post, dif_neg h, if_neg Bool.false_ne_true]

/-- A post that makes room loses the oldest item. -/
theorem post_evicting {queue : BoundedFifo α depth} (item : α) (hpos : 0 < depth)
    (h : ¬ queue.items.length < depth) :
    (queue.post true item).1 = false ∧
      (queue.post true item).2.items = queue.items.tail ++ [item] := by
  have hne : queue.items ≠ [] := by
    intro hnil
    rw [hnil] at h
    exact h hpos
  rw [post, dif_neg h, if_pos rfl]
  exact ⟨rfl, List.tail_append_of_ne_nil hne⟩

end BoundedFifo

end MatrixFaces.Foundation
