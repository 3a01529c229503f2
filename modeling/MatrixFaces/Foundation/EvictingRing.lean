import Mathlib.Data.List.Nodup

set_option autoImplicit false

/-!
# A ring that overwrites its oldest slot

A fixed number of slots and a write position that goes round.  Read from the
write position backwards, the slots are the last `n` values written, newest
first; `newest_write` and `newest_map` are all a client needs to know.

The rules for `filterMap` over slots and over `newest` are for users that keep something live in
some of the slots: replacing one slot takes its entry away and adds the new one.
-/

namespace MatrixFaces.Foundation

/-- `n` slots and the index of the next one to overwrite. -/
structure EvictingRing (α : Type) (n : Nat) where
  slots : List α
  next : Nat
  slots_length : slots.length = n
  next_lt : next < n

namespace EvictingRing

variable {α β : Type} {n : Nat}

/-- Overwrite the oldest slot. -/
def write (ring : EvictingRing α n) (x : α) : EvictingRing α n where
  slots := ring.slots.set ring.next x
  next := (ring.next + 1) % n
  slots_length := by rw [List.length_set, ring.slots_length]
  next_lt := Nat.mod_lt _ (Nat.zero_lt_of_lt ring.next_lt)

/-- Change every slot in place. -/
def map (f : α → β) (ring : EvictingRing α n) : EvictingRing β n where
  slots := ring.slots.map f
  next := ring.next
  slots_length := by rw [List.length_map, ring.slots_length]
  next_lt := ring.next_lt

/-- A ring with one value in every slot. -/
def fill (n : Nat) (hpos : 0 < n) (x : α) : EvictingRing α n where
  slots := List.replicate n x
  next := 0
  slots_length := List.length_replicate
  next_lt := hpos

/-- The slots in the order they were written, newest first. -/
def newest (ring : EvictingRing α n) : List α :=
  (ring.slots.take ring.next).reverse ++ (ring.slots.drop ring.next).reverse

theorem mem_newest {ring : EvictingRing α n} {x : α} : x ∈ ring.newest ↔ x ∈ ring.slots := by
  rw [newest, List.mem_append, List.mem_reverse, List.mem_reverse, ← List.mem_append,
    List.take_append_drop]

@[simp] theorem newest_map (f : α → β) (ring : EvictingRing α n) :
    (ring.map f).newest = ring.newest.map f := by
  simp [newest, map, List.map_take, List.map_drop]

@[simp] theorem newest_fill (hpos : 0 < n) (x : α) :
    (fill n hpos x).newest = List.replicate n x := by
  simp [newest, fill]

/-- The slot about to be overwritten is the last in writing order. -/
theorem newest_eq_append (ring : EvictingRing α n) :
    ring.newest = ((ring.slots.take ring.next).reverse ++
      (ring.slots.drop (ring.next + 1)).reverse) ++
        [ring.slots.get ⟨ring.next, by rw [ring.slots_length]; exact ring.next_lt⟩] := by
  have hlt : ring.next < ring.slots.length := by rw [ring.slots_length]; exact ring.next_lt
  rw [newest, List.drop_eq_getElem_cons hlt]
  simp

/-- A write puts its value in front and drops the oldest. -/
theorem newest_write (ring : EvictingRing α n) (x : α) :
    (ring.write x).newest = x :: ring.newest.take (n - 1) := by
  have hlt : ring.next < ring.slots.length := by rw [ring.slots_length]; exact ring.next_lt
  have hkept : ring.newest.take (n - 1) = (ring.slots.take ring.next).reverse ++
      (ring.slots.drop (ring.next + 1)).reverse := by
    rw [newest_eq_append, List.take_left']
    have hlen := ring.slots_length
    simp only [List.length_append, List.length_reverse, List.length_take, List.length_drop]
    omega
  rw [hkept]
  by_cases hwrap : ring.next + 1 = n
  · have hdrop : ring.slots.drop (ring.next + 1) = [] := by
      rw [List.drop_eq_nil_iff, ring.slots_length]
      exact Nat.le_of_eq hwrap.symm
    have hset : ring.slots.set ring.next x = ring.slots.take ring.next ++ [x] := by
      rw [List.set_eq_take_append_cons_drop, if_pos hlt, hdrop]
    have hnext : (ring.next + 1) % n = 0 := by rw [hwrap, Nat.mod_self]
    simp [newest, write, hnext, hset, hdrop]
  · have hnext : (ring.next + 1) % n = ring.next + 1 := Nat.mod_eq_of_lt (by
      have := ring.next_lt
      omega)
    have htake : (ring.slots.set ring.next x).take (ring.next + 1) =
        ring.slots.take ring.next ++ [x] := by
      rw [List.take_add_one, List.take_set_of_le (Nat.le_refl _), List.getElem?_set_self hlt]
      rfl
    have hdrop : (ring.slots.set ring.next x).drop (ring.next + 1) =
        ring.slots.drop (ring.next + 1) := List.drop_set_of_lt (Nat.lt_succ_self _)
    simp only [newest, write, hnext, htake, hdrop, List.reverse_append, List.reverse_singleton,
      List.cons_append, List.nil_append]

/-! ## What the slots stand for

A partial view `f` of the slots, and one slot overwritten. -/

theorem exists_split_set {α : Type} (xs : List α) {i : Nat} (hi : i < xs.length) :
    ∃ before after, xs = before ++ xs[i] :: after ∧
      ∀ x, xs.set i x = before ++ x :: after := by
  refine ⟨xs.take i, xs.drop (i + 1), ?_, fun x => ?_⟩
  · simp
  · rw [List.set_eq_take_append_cons_drop, if_pos hi]

/-- Only the new value can add to what the slots stand for. -/
theorem mem_filterMap_set {f : α → Option β} {xs : List α} {i : Nat} {x : α} {b : β}
    (h : b ∈ (xs.set i x).filterMap f) : f x = some b ∨ b ∈ xs.filterMap f := by
  obtain ⟨y, hy, hb⟩ := List.mem_filterMap.mp h
  rcases List.mem_or_eq_of_mem_set hy with hold | rfl
  · exact Or.inr (List.mem_filterMap.mpr ⟨y, hold, hb⟩)
  · exact Or.inl hb

/-- Slots that stand for different things still do after one is overwritten with
something fresh or with nothing. -/
theorem nodup_filterMap_set {f : α → Option β} {xs : List α} {i : Nat} {x : α}
    (h : (xs.filterMap f).Nodup) (hfresh : ∀ b, f x = some b → b ∉ xs.filterMap f) :
    ((xs.set i x).filterMap f).Nodup := by
  by_cases hi : i < xs.length
  · obtain ⟨before, after, hxs, hset⟩ := exists_split_set xs hi
    have hrest : (before.filterMap f ++ after.filterMap f).Nodup := by
      rw [hxs, List.filterMap_append, List.filterMap_cons] at h
      split at h
      · exact h
      · exact (List.nodup_cons.mp (List.nodup_middle.mp h)).2
    have hsubset : ∀ b, b ∈ before.filterMap f ++ after.filterMap f → b ∈ xs.filterMap f := by
      intro b hb
      rw [hxs, List.filterMap_append, List.filterMap_cons]
      rcases List.mem_append.mp hb with hleft | hright
      · exact List.mem_append_left _ hleft
      · split
        · exact List.mem_append_right _ hright
        · exact List.mem_append_right _ (List.mem_cons_of_mem _ hright)
    rw [hset, List.filterMap_append, List.filterMap_cons]
    split
    · exact hrest
    · rename_i b hb
      exact List.nodup_middle.mpr (List.nodup_cons.mpr
        ⟨fun hmem => hfresh b hb (hsubset b hmem), hrest⟩)
  · rw [List.set_eq_of_length_le (Nat.le_of_not_lt hi)]
    exact h

/-- What the overwritten slot stood for is gone. -/
theorem not_mem_filterMap_set {f : α → Option β} {xs : List α} {i : Nat} {x : α} {b : β}
    (h : (xs.filterMap f).Nodup) (hi : i < xs.length) (hold : f xs[i] = some b)
    (hnew : f x ≠ some b) : b ∉ (xs.set i x).filterMap f := by
  obtain ⟨before, after, hxs, hset⟩ := exists_split_set xs hi
  rw [hxs, List.filterMap_append, List.filterMap_cons_some hold] at h
  have hrest := (List.nodup_cons.mp (List.nodup_middle.mp h)).1
  rw [hset, List.filterMap_append, List.filterMap_cons]
  split
  · exact hrest
  · rename_i c hc
    rw [List.mem_append] at hrest
    rw [List.mem_append, List.mem_cons]
    rintro (hleft | rfl | hright)
    · exact hrest (Or.inl hleft)
    · exact hnew hc
    · exact hrest (Or.inr hright)

/-- A value that slots stand for only once is found in one slot. -/
theorem index_unique {f : α → Option β} {xs : List α} (h : (xs.filterMap f).Nodup) {i j : Nat}
    (hi : i < xs.length) (hj : j < xs.length) {b : β} (hleft : f xs[i] = some b)
    (hright : f xs[j] = some b) : i = j := by
  have hpairs := List.pairwise_iff_getElem.mp (List.pairwise_filterMap.mp h)
  rcases Nat.lt_trichotomy i j with hlt | heq | hgt
  · exact absurd rfl (hpairs i j hi hj hlt b hleft b hright)
  · exact heq
  · exact absurd rfl (hpairs j i hj hi hgt b hright b hleft)

theorem newest_perm (ring : EvictingRing α n) : ring.newest.Perm ring.slots := by
  have hparts : ring.newest.Perm (ring.slots.take ring.next ++ ring.slots.drop ring.next) :=
    (List.reverse_perm _).append (List.reverse_perm _)
  rw [List.take_append_drop] at hparts
  exact hparts

end EvictingRing

end MatrixFaces.Foundation
