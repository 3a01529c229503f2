import Mathlib.Data.List.Basic

set_option autoImplicit false

/-!
# Step machines

A machine is a set of start states and a partial step function: an action that
is not enabled in a state leads nowhere.  A run is the list of actions taken.
The induction over runs is done once here; every safety theorem of the
development is then a statement about one step.

`invariant_of_guarded` is the rule for a property that every allowed step keeps.  `Guarded` is a
run whose steps all meet a condition on the state in front of them.

Where the condition is also necessary, `throughout_iff_guarded` gives both directions from two
facts about one step: an allowed one keeps the invariant, and any other breaks the property.
-/

namespace MatrixFaces.Foundation

/-- A machine with partial steps. -/
structure Machine (State Action : Type) where
  /-- The states a run may begin in. -/
  start : State → Prop
  /-- One action; `none` when the action is not enabled. -/
  step : State → Action → Option State

namespace Machine

variable {State Action : Type} (machine : Machine State Action)

/-- The state after a list of actions, if every one of them was enabled. -/
def exec : State → List Action → Option State
  | state, [] => some state
  | state, action :: rest =>
      match machine.step state action with
      | none => none
      | some next => exec next rest

@[simp] theorem exec_nil (state : State) : machine.exec state [] = some state := rfl

theorem exec_cons (state : State) (action : Action) (rest : List Action) :
    machine.exec state (action :: rest) =
      (machine.step state action).bind fun next => machine.exec next rest := by
  simp only [exec]
  cases machine.step state action <;> rfl

theorem exec_cons_eq_some {state final : State} {action : Action} {rest : List Action} :
    machine.exec state (action :: rest) = some final ↔
      ∃ next, machine.step state action = some next ∧
        machine.exec next rest = some final := by
  rw [exec_cons, Option.bind_eq_some_iff]

/-- Every action of the run was taken in a state that meets the condition. -/
def Guarded (condition : State → Action → Prop) : State → List Action → Prop
  | _, [] => True
  | state, action :: rest =>
      condition state action ∧
        ∀ next, machine.step state action = some next → Guarded condition next rest

/-- Whether a run is guarded can be computed. -/
instance decidableGuarded (condition : State → Action → Prop)
    [∀ state action, Decidable (condition state action)] :
    ∀ state actions, Decidable (machine.Guarded condition state actions)
  | _, [] => isTrue trivial
  | state, action :: rest =>
      match hnext : machine.step state action with
      | none =>
          decidable_of_iff (condition state action)
            ⟨fun h => ⟨h, fun _ hsome => by rw [hnext] at hsome; cases hsome⟩, And.left⟩
      | some next =>
          have := decidableGuarded condition next rest
          decidable_of_iff (condition state action ∧ machine.Guarded condition next rest)
            ⟨fun h => ⟨h.1, fun _ hsome => by rw [hnext] at hsome; cases hsome; exact h.2⟩,
              fun h => ⟨h.1, h.2 next hnext⟩⟩

/-- The rule for runs: what one guarded step preserves holds at the end of every
guarded run. -/
theorem invariant_of_guarded {condition : State → Action → Prop} {P : State → Prop}
    (hstep : ∀ state action next, P state → condition state action →
      machine.step state action = some next → P next) :
    ∀ (actions : List Action) (state final : State),
      P state → machine.Guarded condition state actions →
      machine.exec state actions = some final → P final := by
  intro actions
  induction actions with
  | nil =>
      intro state final hP _ hexec
      simp only [exec_nil, Option.some.injEq] at hexec
      exact hexec ▸ hP
  | cons action rest ih =>
      intro state final hP hguard hexec
      obtain ⟨next, hnext, hrest⟩ := (machine.exec_cons_eq_some).mp hexec
      exact ih next final (hstep state action next hP hguard.1 hnext)
        (hguard.2 next hnext) hrest

/-- What one step of an allowed action preserves holds at the end of every run of
allowed actions. -/
theorem invariant_of_allowed {allowed : Action → Prop} {P : State → Prop}
    (hstep : ∀ state action next, P state → allowed action →
      machine.step state action = some next → P next) :
    ∀ (actions : List Action) (state final : State),
      P state → (∀ action ∈ actions, allowed action) →
      machine.exec state actions = some final → P final := by
  intro actions
  induction actions with
  | nil =>
      intro state final hP _ hexec
      cases hexec
      exact hP
  | cons action rest ih =>
      intro state final hP hallowed hexec
      obtain ⟨hfirst, hothers⟩ := List.forall_mem_cons.mp hallowed
      obtain ⟨next, hnext, hrest⟩ := machine.exec_cons_eq_some.mp hexec
      exact ih next final (hstep state action next hP hfirst hnext) hothers hrest

/-- A condition that every action meets in every state guards every run. -/
theorem guarded_of_forall {condition : State → Action → Prop} :
    ∀ (actions : List Action) (state : State),
      (∀ action ∈ actions, ∀ state, condition state action) →
        machine.Guarded condition state actions := by
  intro actions
  induction actions with
  | nil => exact fun _ _ => trivial
  | cons action rest ih =>
      intro state h
      obtain ⟨hfirst, hothers⟩ := List.forall_mem_cons.mp h
      exact ⟨hfirst state, fun next _ => ih next hothers⟩

/-- A condition that the invariant of another one implies. -/
theorem guarded_imp {condition condition' : State → Action → Prop} {Inv : State → Prop}
    (hstep : ∀ state action next, Inv state → condition state action →
      machine.step state action = some next → Inv next)
    (himp : ∀ state action, Inv state → condition state action → condition' state action) :
    ∀ (actions : List Action) (state : State), Inv state →
      machine.Guarded condition state actions → machine.Guarded condition' state actions := by
  intro actions
  induction actions with
  | nil => exact fun _ _ _ => trivial
  | cons action rest ih =>
      intro state hInv h
      exact ⟨himp state action hInv h.1, fun next hnext =>
        ih next (hstep state action next hInv h.1 hnext) (h.2 next hnext)⟩

/-! ## Where a property breaks -/

/-- Behind a step that was taken, only the steps after it are left to be guarded. -/
theorem guarded_cons_iff {condition : State → Action → Prop} {state next : State}
    {action : Action} {rest : List Action} (hnext : machine.step state action = some next)
    (hcondition : condition state action) :
    machine.Guarded condition state (action :: rest) ↔ machine.Guarded condition next rest := by
  constructor
  · exact fun h => h.2 next hnext
  · intro h
    refine ⟨hcondition, fun other hother => ?_⟩
    rw [hnext] at hother
    cases hother
    exact h

/-- The rule for a defect that stays: when guarded steps keep an invariant, an unguarded
step breaks it, and no allowed action mends what is broken, a run of allowed actions is
guarded and ends in the invariant, or it is not and ends broken. -/
theorem guarded_or_broken {condition : State → Action → Prop} {allowed : Action → Prop}
    {Inv Broken : State → Prop}
    (hstep : ∀ state action next, Inv state → condition state action →
      machine.step state action = some next → Inv next)
    (hbreak : ∀ state action next, Inv state → ¬ condition state action →
      machine.step state action = some next → Broken next)
    (hbroken : ∀ state action next, Broken state → allowed action →
      machine.step state action = some next → Broken next) :
    ∀ (actions : List Action) (state final : State),
      Inv state → (∀ action ∈ actions, allowed action) →
      machine.exec state actions = some final →
      (machine.Guarded condition state actions ∧ Inv final) ∨
        (¬ machine.Guarded condition state actions ∧ Broken final) := by
  intro actions
  induction actions with
  | nil =>
      intro state final hInv _ hexec
      cases hexec
      exact Or.inl ⟨trivial, hInv⟩
  | cons action rest ih =>
      intro state final hInv hallowed hexec
      obtain ⟨_, hothers⟩ := List.forall_mem_cons.mp hallowed
      obtain ⟨next, hnext, hrest⟩ := machine.exec_cons_eq_some.mp hexec
      by_cases hcondition : condition state action
      · rw [machine.guarded_cons_iff hnext hcondition]
        exact ih next final (hstep state action next hInv hcondition hnext) hothers hrest
      · refine Or.inr ⟨fun h => hcondition h.1, ?_⟩
        exact machine.invariant_of_allowed hbroken rest next final
          (hbreak state action next hInv hcondition hnext) hothers hrest

/-- The property holds in every state the run passes through. -/
def Throughout (P : State → Prop) : State → List Action → Prop
  | state, [] => P state
  | state, action :: rest =>
      P state ∧ ∀ next, machine.step state action = some next → Throughout P next rest

/-- The rule for locating a defect: when guarded steps keep an invariant that has
the property, and every unguarded step out of it breaks the property, a run keeps
the property throughout exactly when all its steps are guarded. -/
theorem throughout_iff_guarded {condition : State → Action → Prop} {Inv P : State → Prop}
    (hstep : ∀ state action next, Inv state → condition state action →
      machine.step state action = some next → Inv next)
    (hbreak : ∀ state action next, Inv state → ¬ condition state action →
      machine.step state action = some next → ¬ P next)
    (hP : ∀ state, Inv state → P state) :
    ∀ (actions : List Action) (state final : State), Inv state →
      machine.exec state actions = some final →
      (machine.Throughout P state actions ↔ machine.Guarded condition state actions) := by
  intro actions
  induction actions with
  | nil => exact fun state _ hInv _ => iff_of_true (hP state hInv) trivial
  | cons action rest ih =>
      intro state final hInv hexec
      obtain ⟨next, hnext, hrest⟩ := machine.exec_cons_eq_some.mp hexec
      have honly : ∀ other, machine.step state action = some other → other = next := by
        intro other hother
        rw [hnext] at hother
        exact (Option.some.inj hother).symm
      by_cases hcondition : condition state action
      · have hrun := ih next final (hstep state action next hInv hcondition hnext) hrest
        constructor
        · rintro ⟨_, hafter⟩
          exact ⟨hcondition, fun other hother => honly other hother ▸ hrun.mp (hafter next hnext)⟩
        · rintro ⟨_, hafter⟩
          exact ⟨hP state hInv, fun other hother =>
            honly other hother ▸ hrun.mpr (hafter next hnext)⟩
      · refine iff_of_false ?_ fun h => hcondition h.1
        rintro ⟨_, hafter⟩
        refine hbreak state action next hInv hcondition hnext ?_
        have hthroughout := hafter next hnext
        cases rest with
        | nil => exact hthroughout
        | cons _ _ => exact hthroughout.1

end Machine

end MatrixFaces.Foundation
