import Mathlib.Data.List.Basic

set_option autoImplicit false

/-!
# Histories

What was done so far, newest first, and what has held since something in it.

`Since mark kept` is the temporal operator: there was a mark, and everything behind it was kept.
`since_cons` is its recursion over the newest entry, which is how a step lemma uses it.
-/

namespace MatrixFaces.Foundation.History

variable {Event : Type}

/-- A history split at an event, by whether the newest one is in front of the split. -/
theorem exists_split_cons {newest event : Event} {history : List Event}
    {P : List Event → Prop} :
    (∃ later earlier, newest :: history = later ++ event :: earlier ∧ P later) ↔
      (newest = event ∧ P []) ∨
        ∃ later earlier, history = later ++ event :: earlier ∧ P (newest :: later) := by
  constructor
  · rintro ⟨later, earlier, hsplit, hP⟩
    cases later with
    | nil => exact .inl ⟨(List.cons.inj hsplit).1, hP⟩
    | cons first later =>
        obtain ⟨rfl, hrest⟩ := List.cons.inj hsplit
        exact .inr ⟨later, earlier, hrest, hP⟩
  · rintro (⟨rfl, hP⟩ | ⟨later, earlier, rfl, hP⟩)
    · exact ⟨[], history, rfl, hP⟩
    · exact ⟨newest :: later, earlier, rfl, hP⟩

/-- There was a `mark`, and every event after it was `kept`. -/
def Since (mark kept : Event → Prop) (history : List Event) : Prop :=
  ∃ later event earlier, history = later ++ event :: earlier ∧ mark event ∧
    ∀ other ∈ later, kept other

variable {mark kept : Event → Prop} {newest : Event} {history : List Event}

@[simp] theorem not_since_nil : ¬ Since mark kept [] := by
  rintro ⟨later, event, earlier, hsplit, _⟩
  cases later <;> cases hsplit

theorem since_cons :
    Since mark kept (newest :: history) ↔
      mark newest ∨ (kept newest ∧ Since mark kept history) := by
  constructor
  · rintro ⟨later, event, earlier, hsplit, hmark, hkept⟩
    cases later with
    | nil =>
        obtain ⟨rfl, _⟩ := List.cons.inj hsplit
        exact .inl hmark
    | cons first later =>
        obtain ⟨rfl, hrest⟩ := List.cons.inj hsplit
        obtain ⟨hfirst, hothers⟩ := List.forall_mem_cons.mp hkept
        exact .inr ⟨hfirst, later, event, earlier, hrest, hmark, hothers⟩
  · rintro (hmark | ⟨hfirst, later, event, earlier, rfl, hmark, hothers⟩)
    · exact ⟨[], newest, history, rfl, hmark, by simp⟩
    · exact ⟨newest :: later, event, earlier, rfl, hmark,
        List.forall_mem_cons.mpr ⟨hfirst, hothers⟩⟩

/-- A newest event that is no mark and is kept. -/
theorem since_cons_iff (hmark : ¬ mark newest) (hkept : kept newest) :
    Since mark kept (newest :: history) ↔ Since mark kept history := by
  rw [since_cons]
  constructor
  · rintro (hnewest | ⟨_, hbefore⟩)
    · exact absurd hnewest hmark
    · exact hbefore
  · exact fun hbefore => .inr ⟨hkept, hbefore⟩

/-- A weaker mark. -/
theorem Since.mono {mark' : Event → Prop} (h : Since mark kept history)
    (hmark : ∀ event ∈ history, mark event → mark' event) : Since mark' kept history := by
  obtain ⟨later, event, earlier, rfl, hevent, hothers⟩ := h
  exact ⟨later, event, earlier, rfl, hmark event (by simp) hevent, hothers⟩

end MatrixFaces.Foundation.History
