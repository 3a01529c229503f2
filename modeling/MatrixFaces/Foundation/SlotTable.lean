import Mathlib.Data.Set.Card
import Mathlib.Logic.Function.Basic

set_option autoImplicit false

/-!
# Maps kept in slots

A table has a slot for each index, empty or with a key and its value.  Where no key has two
slots it is a map, and writing to a slot is writing to the map.

`Represents` says that a table is a map.  `write` puts a value under a key as long as there is
room for one key more; it is what a program does that looks for the key's slot, then for an
empty one, and gives up if all are full (`Represents.write_slot`, `Represents.write_empty`,
`Represents.write_full`).
-/

namespace MatrixFaces.Foundation

abbrev SlotTable (ι K V : Type) := ι → Option (K × V)

namespace SlotTable

variable {ι K V : Type} {table : SlotTable ι K V} {map : K → Option V}

/-- The keys that have a value. -/
def keys (map : K → Option V) : Set K := {k | map k ≠ none}

/-- A key gets a value, unless it has none and as many other keys as there is room for do. -/
noncomputable def write [DecidableEq K] (room : Nat) (map : K → Option V) (k : K) (v : V) :
    K → Option V :=
  open Classical in
  if map k = none ∧ room ≤ {other | other ≠ k ∧ map other ≠ none}.ncard then map
  else Function.update map k (some v)

/-- The table is the map, and no key has two slots. -/
structure Represents (table : SlotTable ι K V) (map : K → Option V) : Prop where
  unique : ∀ {i j k v w}, table i = some (k, v) → table j = some (k, w) → i = j
  value_iff : ∀ k v, map k = some v ↔ ∃ i, table i = some (k, v)

namespace Represents

theorem value (h : Represents table map) {i : ι} {k : K} {v : V} (hslot : table i = some (k, v)) :
    map k = some v :=
  (h.value_iff k v).mpr ⟨i, hslot⟩

theorem eq_none_iff (h : Represents table map) (k : K) :
    map k = none ↔ ∀ i v, table i ≠ some (k, v) := by
  constructor
  · intro hnone i v hslot
    rw [h.value hslot] at hnone
    cases hnone
  · intro hslots
    rw [Option.eq_none_iff_forall_ne_some]
    intro v hvalue
    obtain ⟨i, hslot⟩ := (h.value_iff k v).mp hvalue
    exact hslots i v hslot

theorem map_eq {other : K → Option V} (h : Represents table map) (hother : Represents table other) :
    map = other := by
  funext k
  ext v
  rw [h.value_iff, hother.value_iff]

section Writes

variable [DecidableEq ι] [DecidableEq K] {i : ι} {k : K}

/-- A slot that no other key has is given to a key that has no other slot. -/
theorem put (h : Represents table map) (v : V) (hfree : ∀ entry ∈ table i, entry.1 = k)
    (honly : ∀ j w, table j = some (k, w) → j = i) :
    Represents (Function.update table i (some (k, v))) (Function.update map k (some v)) := by
  constructor
  · intro j l k' v' w' hj hl
    by_cases hji : j = i <;> by_cases hli : l = i
    · rw [hji, hli]
    · subst hji
      rw [Function.update_self] at hj
      rw [Function.update_of_ne hli] at hl
      cases hj
      exact (honly l w' hl).symm
    · subst hli
      rw [Function.update_self] at hl
      rw [Function.update_of_ne hji] at hj
      cases hl
      exact honly j v' hj
    · rw [Function.update_of_ne hji] at hj
      rw [Function.update_of_ne hli] at hl
      exact h.unique hj hl
  · intro k' v'
    by_cases hk : k' = k
    · subst hk
      rw [Function.update_self]
      constructor
      · intro hvalue
        cases hvalue
        exact ⟨i, Function.update_self ..⟩
      · rintro ⟨j, hj⟩
        by_cases hji : j = i
        · subst hji
          rw [Function.update_self] at hj
          cases hj
          rfl
        · rw [Function.update_of_ne hji] at hj
          exact absurd (honly j v' hj) hji
    · rw [Function.update_of_ne hk, h.value_iff]
      constructor
      · rintro ⟨j, hj⟩
        have hji : j ≠ i := by
          rintro rfl
          exact hk (hfree _ hj)
        exact ⟨j, by rw [Function.update_of_ne hji, hj]⟩
      · rintro ⟨j, hj⟩
        have hji : j ≠ i := by
          rintro rfl
          rw [Function.update_self] at hj
          cases hj
          exact hk rfl
        rw [Function.update_of_ne hji] at hj
        exact ⟨j, hj⟩

/-- The slot of a key is emptied. -/
theorem clear (h : Represents table map) {v : V} (hslot : table i = some (k, v)) :
    Represents (Function.update table i none) (Function.update map k none) := by
  have hne : ∀ {j entry}, Function.update table i none j = some entry → j ≠ i ∧
      table j = some entry := by
    intro j entry hj
    by_cases hji : j = i
    · subst hji
      rw [Function.update_self] at hj
      cases hj
    · rw [Function.update_of_ne hji] at hj
      exact ⟨hji, hj⟩
  constructor
  · intro j l k' v' w' hj hl
    exact h.unique (hne hj).2 (hne hl).2
  · intro k' v'
    by_cases hk : k' = k
    · subst hk
      rw [Function.update_self]
      constructor
      · intro hvalue
        cases hvalue
      · rintro ⟨j, hj⟩
        exact absurd (h.unique (hne hj).2 hslot) (hne hj).1
    · rw [Function.update_of_ne hk, h.value_iff]
      constructor
      · rintro ⟨j, hj⟩
        have hji : j ≠ i := by
          rintro rfl
          rw [hslot] at hj
          cases hj
          exact hk rfl
        exact ⟨j, by rw [Function.update_of_ne hji, hj]⟩
      · rintro ⟨j, hj⟩
        exact ⟨j, (hne hj).2⟩

end Writes

/-- Slots are emptied by what their values are. -/
theorem filter (h : Represents table map) (keep : V → Bool) :
    Represents (fun i => (table i).filter fun entry => keep entry.2)
      (fun k => (map k).filter keep) := by
  constructor
  · intro i j k v w hi hj
    rw [Option.filter_eq_some_iff] at hi hj
    exact h.unique hi.1 hj.1
  · intro k v
    simp only [Option.filter_eq_some_iff, h.value_iff, exists_and_right]

/-! ## Room -/

theorem ncard_keys (h : Represents table map) :
    {i | table i ≠ none}.ncard = (keys map).ncard := by
  have hkey : ∀ i (hi : table i ≠ none), ∃ v,
      table i = some (((table i).get (Option.isSome_iff_ne_none.mpr hi)).1, v) := by
    intro i hi
    exact ⟨_, (Option.some_get _).symm⟩
  refine Set.ncard_congr (fun i hi => ((table i).get (Option.isSome_iff_ne_none.mpr hi)).1)
    ?_ ?_ ?_
  · intro i hi
    obtain ⟨v, hslot⟩ := hkey i hi
    rw [keys, Set.mem_ofPred_eq, h.value hslot]
    exact Option.some_ne_none v
  · intro i j hi hj hsame
    obtain ⟨v, hslot⟩ := hkey i hi
    obtain ⟨w, hother⟩ := hkey j hj
    rw [← hsame] at hother
    exact h.unique hslot hother
  · intro k hk
    obtain ⟨v, hvalue⟩ := Option.ne_none_iff_exists'.mp hk
    obtain ⟨i, hslot⟩ := (h.value_iff k v).mp hvalue
    have hi : table i ≠ none := by
      rw [hslot]
      exact Option.some_ne_none _
    refine ⟨i, hi, ?_⟩
    simp only [hslot, Option.get_some]

/-- The slots are all in use when as many keys have values. -/
theorem full_iff [Finite ι] (h : Represents table map) :
    (∀ i, table i ≠ none) ↔ Nat.card ι ≤ (keys map).ncard := by
  rw [← h.ncard_keys]
  constructor
  · intro hused
    have huniv : {i | table i ≠ none} = Set.univ := Set.eq_univ_of_forall hused
    rw [huniv, Set.ncard_univ]
  · intro hcard i
    have huniv : {i | table i ≠ none} = Set.univ :=
      (Set.eq_univ_iff_ncard _).mpr (le_antisymm (Set.ncard_le_card _) hcard)
    have hi : i ∈ {i | table i ≠ none} := huniv ▸ Set.mem_univ i
    exact hi

theorem ncard_keys_le [Finite ι] (h : Represents table map) :
    (keys map).ncard ≤ Nat.card ι := by
  rw [← h.ncard_keys]
  exact Set.ncard_le_card _

end Represents

theorem others_eq_keys {k : K} (h : map k = none) :
    {other | other ≠ k ∧ map other ≠ none} = keys map := by
  ext other
  constructor
  · rintro ⟨-, hother⟩
    exact hother
  · intro hother
    refine ⟨?_, hother⟩
    rintro rfl
    exact hother h

/-- Every map with no more keys than there are slots is a table. -/
theorem exists_represents [Finite ι] (hfinite : (keys map).Finite)
    (hcard : (keys map).ncard ≤ Nat.card ι) : ∃ table : SlotTable ι K V, Represents table map := by
  have hfiniteKeys : Finite (keys map) := hfinite
  have := Fintype.ofFinite (keys map)
  have := Fintype.ofFinite ι
  obtain ⟨slot⟩ : Nonempty (keys map ↪ ι) := by
    rw [← Nat.card_coe_set_eq, Nat.card_eq_fintype_card, Nat.card_eq_fintype_card] at hcard
    exact Function.Embedding.nonempty_of_card_le hcard
  have hinverse := slot.injective.isPartialInv
  refine ⟨fun i => (Function.partialInv slot i).bind fun k => (map k).map fun v => (k, v), ?_, ?_⟩
  · intro i j k v w hi hj
    obtain ⟨key, hkey, hentry⟩ := Option.bind_eq_some_iff.mp hi
    obtain ⟨other, hother, hentryOther⟩ := Option.bind_eq_some_iff.mp hj
    obtain ⟨_, -, hsame⟩ := Option.map_eq_some_iff.mp hentry
    obtain ⟨_, -, hsameOther⟩ := Option.map_eq_some_iff.mp hentryOther
    have hkeys : key = other := by
      rw [Prod.mk.injEq] at hsame hsameOther
      exact Subtype.ext (hsame.1.trans hsameOther.1.symm)
    rw [← (hinverse key i).mp hkey, ← (hinverse other j).mp hother, hkeys]
  · intro k v
    constructor
    · intro hvalue
      have hk : k ∈ keys map := by
        rw [keys, Set.mem_ofPred_eq, hvalue]
        exact Option.some_ne_none v
      refine ⟨slot ⟨k, hk⟩, Option.bind_eq_some_iff.mpr ⟨⟨k, hk⟩, ?_, ?_⟩⟩
      · exact (hinverse _ _).mpr rfl
      · rw [hvalue, Option.map_some]
    · rintro ⟨i, hi⟩
      obtain ⟨key, -, hentry⟩ := Option.bind_eq_some_iff.mp hi
      obtain ⟨value, hvalue, hsame⟩ := Option.map_eq_some_iff.mp hentry
      cases hsame
      exact hvalue

/-! ## Writing by keys -/

section Write

variable [DecidableEq K] {k : K} {v : V}

/-- A key that has a slot keeps it. -/
theorem Represents.write_slot [DecidableEq ι] (h : Represents table map) {i : ι} {w : V}
    (hslot : table i = some (k, w)) (room : Nat) (v : V) :
    Represents (Function.update table i (some (k, v))) (write room map k v) := by
  have hsome : ¬ (map k = none ∧ room ≤ {other | other ≠ k ∧ map other ≠ none}.ncard) := by
    rw [h.value hslot]
    rintro ⟨hnone, -⟩
    cases hnone
  rw [write, if_neg hsome]
  refine h.put v (fun entry hentry => ?_) fun j _ hj => h.unique hj hslot
  rw [Option.mem_def, hslot] at hentry
  cases hentry
  rfl

/-- A key that has none gets an empty one. -/
theorem Represents.write_empty [DecidableEq ι] [Finite ι] (h : Represents table map) {i : ι}
    (hnone : ∀ j w, table j ≠ some (k, w)) (hslot : table i = none) (v : V) :
    Represents (Function.update table i (some (k, v))) (write (Nat.card ι) map k v) := by
  have hroom : ¬ (map k = none ∧
      Nat.card ι ≤ {other | other ≠ k ∧ map other ≠ none}.ncard) := by
    rintro ⟨hvalue, hcard⟩
    rw [others_eq_keys hvalue] at hcard
    exact h.full_iff.mpr hcard i hslot
  rw [write, if_neg hroom]
  refine h.put v (fun entry hentry => ?_) fun j w hj => absurd hj (hnone j w)
  rw [Option.mem_def, hslot] at hentry
  cases hentry

/-- Where no slot is empty, a key that has none gets none. -/
theorem Represents.write_full [Finite ι] (h : Represents table map)
    (hnone : ∀ j w, table j ≠ some (k, w)) (hfull : ∀ i, table i ≠ none) (v : V) :
    Represents table (write (Nat.card ι) map k v) := by
  have hvalue := (h.eq_none_iff k).mpr hnone
  have hcard := h.full_iff.mp hfull
  rw [← others_eq_keys hvalue] at hcard
  rw [write, if_pos ⟨hvalue, hcard⟩]
  exact h

/-- Values are not looked at. -/
theorem write_map {W : Type} (room : Nat) (map : K → Option V) (k : K) (v : V) (f : V → W) :
    write room (fun other => (map other).map f) k (f v) =
      fun other => (write room map k v other).map f := by
  unfold write
  simp only [ne_eq, Option.map_eq_none_iff]
  split
  · rfl
  · funext other
    by_cases hother : other = k
    · subst hother
      rw [Function.update_self, Function.update_self, Option.map_some]
    · rw [Function.update_of_ne hother, Function.update_of_ne hother]

/-- A value is the one that was written, or it was there. -/
theorem write_cases (room : Nat) (map : K → Option V) (k : K) (v : V) (other : K) :
    write room map k v other = some v ∨ write room map k v other = map other := by
  unfold write
  split
  · exact Or.inr rfl
  · by_cases hother : other = k
    · subst hother
      exact Or.inl (Function.update_self ..)
    · exact Or.inr (Function.update_of_ne hother ..)

end Write

end SlotTable

end MatrixFaces.Foundation
