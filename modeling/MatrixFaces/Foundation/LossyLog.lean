import Mathlib.Data.List.Basic

set_option autoImplicit false

/-!
# Logs with losses

What is left of a log when entries in the middle are lost, and how many of them were.

`Loses full kept n` says that `kept` is `full` with at most `n` entries missing and `EndsAlike`
that the last entry of `full` is the last one of `kept`.  The rules are one more entry
(`concat`), the loss of one that was kept (`drop`), and a larger count (`more`).
-/

namespace MatrixFaces.Foundation

variable {α : Type} {log kept front rest : List α} {lost : Nat} {entry : α}

/-- `kept` is the log in its order, each entry at most once, with no more than `lost` missing. -/
structure Loses (log kept : List α) (lost : Nat) : Prop where
  sublist : kept.Sublist log
  length_le : log.length ≤ kept.length + lost

/-- The last entry of the log is the last one kept, and what is kept in front of it comes from
in front of it. -/
def EndsAlike (log kept : List α) : Prop :=
  ∀ before last, log = before ++ [last] → ∃ front, kept = front ++ [last] ∧ front.Sublist before

namespace Loses

theorem refl (log : List α) : Loses log log 0 := ⟨List.Sublist.refl log, Nat.le_refl _⟩

/-- A bound that is larger than it has to be. -/
theorem more (h : Loses log kept lost) : Loses log kept (lost + 1) :=
  ⟨h.sublist, Nat.le_succ_of_le h.length_le⟩

/-- A new entry that is kept. -/
theorem concat (h : Loses log kept lost) (entry : α) :
    Loses (log ++ [entry]) (kept ++ [entry]) lost := by
  refine ⟨h.sublist.append_right [entry], ?_⟩
  have hle := h.length_le
  simp only [List.length_append, List.length_singleton]
  omega

/-- An entry that was kept is lost. -/
theorem drop (h : Loses log (front ++ entry :: rest) lost) :
    Loses log (front ++ rest) (lost + 1) := by
  refine ⟨(List.Sublist.append_left (List.sublist_cons_self entry rest) front).trans h.sublist, ?_⟩
  have hle := h.length_le
  simp only [List.length_append, List.length_cons] at hle ⊢
  omega

theorem endsAlike (h : Loses log kept lost) (entry : α) :
    EndsAlike (log ++ [entry]) (kept ++ [entry]) := by
  intro before last hsplit
  obtain ⟨rfl, hlast⟩ := List.append_inj' hsplit rfl
  rw [hlast]
  exact ⟨kept, rfl, h.sublist⟩

end Loses

theorem EndsAlike.refl (log : List α) : EndsAlike log log :=
  fun before _ hsplit => ⟨before, hsplit, List.Sublist.refl before⟩

end MatrixFaces.Foundation
