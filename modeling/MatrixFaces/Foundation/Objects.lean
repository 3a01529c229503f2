import Mathlib.Data.List.Basic

set_option autoImplicit false

/-!
# Objects that answer calls

An object is what it answers to a call and the state the call leaves it in.  Two objects
whose states are related answer alike, whatever they are asked, when one call does.

`Implements` is that relation between two behaviours, asked of one call; `Implements.run` is the
induction over a list of calls, with the answers equal and the states related behind it.
-/

namespace MatrixFaces.Foundation

/-- How an object with this state answers calls. -/
abbrev Behaviour (Call Answer State : Type) := State → Call → Answer × State

namespace Behaviour

variable {Call Answer State State' : Type}

/-- The answers to a list of calls, in order. -/
def answers (behaviour : Behaviour Call Answer State) : State → List Call → List Answer
  | _, [] => []
  | state, call :: rest =>
      (behaviour state call).1 :: answers behaviour (behaviour state call).2 rest

/-- The state a list of calls leaves. -/
def after (behaviour : Behaviour Call Answer State) (state : State) (calls : List Call) : State :=
  calls.foldl (fun state call => (behaviour state call).2) state

/-- Related states answer one call alike and stay related. -/
def Implements (behaviour : Behaviour Call Answer State)
    (spec : Behaviour Call Answer State') (R : State → State' → Prop) : Prop :=
  ∀ state state', R state state' → ∀ call,
    (behaviour state call).1 = (spec state' call).1 ∧
      R (behaviour state call).2 (spec state' call).2

variable {behaviour : Behaviour Call Answer State} {spec : Behaviour Call Answer State'}
  {R : State → State' → Prop}

/-- Any list of calls is answered alike, and leaves related states. -/
theorem Implements.run (h : behaviour.Implements spec R) {state : State} {state' : State'}
    (hrel : R state state') (calls : List Call) :
    behaviour.answers state calls = spec.answers state' calls ∧
      R (behaviour.after state calls) (spec.after state' calls) := by
  induction calls generalizing state state' with
  | nil => exact ⟨rfl, hrel⟩
  | cons call rest ih =>
      obtain ⟨hanswer, hnext⟩ := h state state' hrel call
      obtain ⟨hrest, hafter⟩ := ih hnext
      refine ⟨?_, hafter⟩
      rw [answers, answers, hanswer, hrest]

end Behaviour

end MatrixFaces.Foundation
