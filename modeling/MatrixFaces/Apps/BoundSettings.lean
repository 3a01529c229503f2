import Mathlib.Data.List.Forall2
import Mathlib.Logic.Function.Basic
import MatrixFaces.Apps.SettingAt

set_option autoImplicit false

/-!
# Settings bound to an app's members

`SettingsBag` over the memory it points into: a binding is a descriptor and the
address of a member, and `find`, `get`, `validate` and `apply` work through that
address.  `Apps.Settings` holds each member inside its binding; `Simulates` connects
the two.

`BoundSetting.Built` are the ways the source makes a binding, and `BoundBag.WellBuilt` is a
bag of such bindings no two of which share a member.

The main result is `validated_store`, for every bag that is built that way and every sequence
of calls: `apply` accepts exactly what `validate` passes, a refused call changes nothing, an
accepted one notifies the owner once with its key, and every key reads as the value that was
last accepted for it, cut to what the member holds.
-/

namespace MatrixFaces.Apps

open MatrixFaces.Foundation

/-- A member a setting can be bound to: a `bool`, an `int32_t` or a whole `char[N]`. -/
inductive Cell where
  | boolean (value : Bool)
  | integer (value : Int32)
  | text (buffer : Bytes)
  deriving DecidableEq

namespace Cell

/-- `*storage.boolean`. -/
def flag : Cell → Bool
  | boolean value => value
  | _ => false

/-- `*storage.integer`. -/
def number : Cell → Int32
  | integer value => value
  | _ => 0

/-- The characters `storage.text` points at. -/
def characters : Cell → Bytes
  | text buffer => buffer
  | _ => []

end Cell

/-- The members of the apps by their addresses. -/
abbrev Memory := Nat → Cell

/-- `SettingsBag::Binding`, its union as the address it holds. -/
structure BoundSetting where
  descriptor : SettingDescriptor
  storage : Nat
  deriving DecidableEq

namespace BoundSetting

/-! ## The factories -/

/-- `SettingsBag::boolean`. -/
def boolean (key : Bytes) (storage : Nat) : BoundSetting := ⟨⟨key, .kBool, 0, 0, 0⟩, storage⟩

/-- `SettingsBag::integer`. -/
def integer (key : Bytes) (min max : Int32) (storage : Nat) : BoundSetting :=
  ⟨⟨key, .kInt, min, max, 0⟩, storage⟩

/-- `SettingsBag::color`. -/
def color (key : Bytes) (storage : Nat) : BoundSetting :=
  ⟨⟨key, .kColor, 0, 0xFFFFFF, 0⟩, storage⟩

/-- `SettingsBag::text` for a `char[N]`. -/
def text (key : Bytes) (N : Nat) (storage : Nat) : BoundSetting :=
  ⟨⟨key, .kString, 0, 0, N - 1⟩, storage⟩

/-- A binding a factory built, over a member whose content satisfies its descriptor. -/
inductive Built (memory : Memory) : BoundSetting → Prop where
  | boolean (key : Bytes) (storage : Nat) (value : Bool)
      (holds : memory storage = .boolean value) : Built memory (boolean key storage)
  | integer (key : Bytes) (min max : Int32) (storage : Nat) (value : Int32)
      (holds : memory storage = .integer value) (range : min ≤ value ∧ value ≤ max) :
      Built memory (integer key min max storage)
  | color (key : Bytes) (storage : Nat) (value : Int32)
      (holds : memory storage = .integer value) (range : 0 ≤ value ∧ value ≤ 0xFFFFFF) :
      Built memory (color key storage)
  | text (key : Bytes) (N storage : Nat) (buffer : Bytes)
      (holds : memory storage = .text buffer) (size : buffer.length = N)
      (asserted : 2 ≤ N ∧ N ≤ kStringCap) (terminated : (0 : Byte) ∈ buffer) :
      Built memory (text key N storage)

/-! ## The member behind the address -/

/-- The `switch` of `SettingsBag::get`. -/
def read (binding : BoundSetting) (memory : Memory) : SettingValue :=
  let out := { SettingValue.zero with type := binding.descriptor.type }
  let member := memory binding.storage
  match binding.descriptor.type with
  | .kBool => { out with boolValue := member.flag }
  | .kInt | .kColor => { out with intValue := member.number }
  | .kString =>
      { out with stringValue := stringField ((cstring member.characters).take (kStringCap - 1)) }

/-- The member as the `switch` of `SettingsBag::apply` leaves it: a text is copied to the
front of its buffer with a terminator behind it. -/
def assigned (binding : BoundSetting) (member : Cell) (value : SettingValue) : Cell :=
  match binding.descriptor.type with
  | .kBool => .boolean value.boolValue
  | .kInt | .kColor => .integer value.intValue
  | .kString => .text (value.text ++ 0 :: member.characters.drop (value.text.length + 1))

/-- The `switch` of `SettingsBag::apply`. -/
def write (binding : BoundSetting) (memory : Memory) (value : SettingValue) : Memory :=
  Function.update memory binding.storage (binding.assigned (memory binding.storage) value)

end BoundSetting

/-! ## The bag -/

/-- `SettingsBag` with the memory its bindings point into. -/
structure BoundBag where
  bindings : List BoundSetting
  count_lt : bindings.length < 256
  memory : Memory
  /-- What `owner_.onSettingChanged` was called with, in order. -/
  notified : List Bytes

/-- One call of `SettingsBag::apply`; a key of `none` is the null pointer. -/
structure ApplyCall where
  key : Option Bytes
  value : SettingValue

namespace BoundBag

/-- `SettingsBag::find`. -/
def find (bag : BoundBag) : Option Bytes → Option BoundSetting
  | none => none
  | some key => bag.bindings.find? fun binding => binding.descriptor.key == cstring key

/-- `SettingsBag::get`; `none` is the source's `false`. -/
def get (bag : BoundBag) (key : Option Bytes) : Option SettingValue :=
  (bag.find key).map fun binding => binding.read bag.memory

/-- `SettingsBag::validate`. -/
def validate (bag : BoundBag) (key : Option Bytes) (value : SettingValue) : Bool :=
  match bag.find key with
  | none => false
  | some binding => binding.descriptor.accepts value

/-- `SettingsBag::apply`, and what it returns. -/
def apply (bag : BoundBag) (call : ApplyCall) : BoundBag × Bool :=
  if bag.validate call.key call.value = false then (bag, false)
  else
    match bag.find call.key with
    -- A key without a binding was refused above.
    | none => (bag, false)
    | some binding =>
        ({ bag with
            memory := binding.write bag.memory call.value
            notified := bag.notified ++ [binding.descriptor.key] }, true)

/-- A sequence of `apply` calls. -/
def run (bag : BoundBag) (calls : List ApplyCall) : BoundBag :=
  calls.foldl (fun bag call => (bag.apply call).1) bag

/-- Every binding comes from a factory, with content its descriptor allows, and no two of
them share a member. -/
structure WellBuilt (bag : BoundBag) : Prop where
  built : ∀ binding ∈ bag.bindings, binding.Built bag.memory
  separate : (bag.bindings.map BoundSetting.storage).Nodup

/-- The value of the last of the calls that succeeded on a key. -/
def lastApplied (bag : BoundBag) (key : Option Bytes) : List ApplyCall → Option SettingValue
  | [] => none
  | call :: rest =>
      (lastApplied (bag.apply call).1 key rest).or
        (if (bag.apply call).2 ∧ call.key.map cstring = key.map cstring then some call.value
        else none)

end BoundBag

/-- A value as it is read back: only the member its type selects, a string cut at its first
NUL. -/
def SettingValue.cut (value : SettingValue) : SettingValue :=
  let out := { SettingValue.zero with type := value.type }
  match value.type with
  | .kBool => { out with boolValue := value.boolValue }
  | .kInt | .kColor => { out with intValue := value.intValue }
  | .kString => { out with stringValue := stringField value.text }

/-! ## What a binding accepts and reads back -/

/-- What a binding was given is what it is read back as. -/
theorem Binding.read_write {binding : Binding} {value : SettingValue}
    (h : binding.descriptor.accepts value = true) :
    (binding.write value h).read = value.cut := by
  obtain ⟨descriptor, storage, hagrees⟩ := binding
  have haccepts : descriptor.accepts value = true := h
  simp only [SettingDescriptor.accepts, Bool.and_eq_true, beq_iff_eq] at haccepts
  obtain ⟨htype, hrange⟩ := haccepts
  cases storage with
  | boolean old =>
      have hbool : descriptor.type = .kBool := hagrees
      simp only [read, write, stored, SettingValue.cut, htype, hbool]
  | integer old =>
      rcases hagrees with hint | hcolor
      · simp only [read, write, stored, SettingValue.cut, htype, hint]
      · simp only [read, write, stored, SettingValue.cut, htype, hcolor]
  | text old =>
      obtain ⟨hstring, -, hcap, -⟩ := hagrees
      simp only [hstring, decide_eq_true_eq] at hrange
      have htake : value.text.take (kStringCap - 1) = value.text :=
        List.take_of_length_le (by omega)
      simp only [read, write, stored, SettingValue.cut, htype, hstring, htake]

/-- A value that passes still passes when it is read back. -/
theorem accepts_cut {descriptor : SettingDescriptor} {value : SettingValue}
    (hmax : descriptor.maxLen < kStringCap) (h : descriptor.accepts value = true) :
    descriptor.accepts value.cut = true := by
  simp only [SettingDescriptor.accepts, Bool.and_eq_true, beq_iff_eq] at h ⊢
  obtain ⟨htype, hrange⟩ := h
  cases hkind : descriptor.type with
  | kBool => simp [SettingValue.cut, htype, hkind]
  | kInt =>
      rw [hkind] at hrange
      simpa [SettingValue.cut, htype, hkind] using hrange
  | kColor =>
      rw [hkind] at hrange
      simpa [SettingValue.cut, htype, hkind] using hrange
  | kString =>
      simp only [hkind, decide_eq_true_eq] at hrange
      have htext : cstring (stringField value.text).1 = value.text :=
        cstring_padded (zero_not_mem_cstring _) (by omega)
      simp only [SettingValue.cut, SettingValue.text, htype, hkind, true_and, decide_eq_true_eq]
      rw [← SettingValue.text, htext]
      exact hrange

namespace BoundSetting

variable {memory : Memory} {binding : BoundSetting}

theorem Built.maxLen_lt (h : binding.Built memory) : binding.descriptor.maxLen < kStringCap := by
  cases h with
  | boolean | integer | color => exact Nat.zero_lt_succ _
  | text key N storage buffer holds size asserted terminated =>
      change N - 1 < kStringCap
      omega

/-- What a factory bound is read back as a value its descriptor passes. -/
theorem Built.accepts_read (h : binding.Built memory) :
    binding.descriptor.accepts (binding.read memory) = true := by
  cases h with
  | boolean => rfl
  | integer key min max storage value holds range =>
      simpa [SettingDescriptor.accepts, read, BoundSetting.integer, holds, Cell.number] using range
  | color key storage value holds range =>
      simpa [SettingDescriptor.accepts, read, BoundSetting.color, holds, Cell.number] using range
  | text key N storage buffer holds size asserted terminated =>
      have hlength : (cstring buffer).length < N := size ▸ length_cstring_lt terminated
      have htake : (cstring buffer).take (kStringCap - 1) = cstring buffer :=
        List.take_of_length_le (by omega)
      have htext : cstring (stringField (cstring buffer)).1 = cstring buffer :=
        cstring_padded (zero_not_mem_cstring _) (by omega)
      simp only [SettingDescriptor.accepts, read, BoundSetting.text, holds, Cell.characters, htake,
        SettingValue.text, htext, BEq.rfl, Bool.true_and, decide_eq_true_eq]
      omega

end BoundSetting

/-! ## The bag that holds its members -/

/-- A member and what `Binding` keeps of it: of a buffer, the text before its terminator. -/
def Cell.Represents (size : Nat) : Cell → Storage → Prop
  | boolean value, .boolean held => value = held
  | integer value, .integer held => value = held
  | text buffer, .text held => cstring buffer = held ∧ buffer.length = size
  | _, _ => False

/-- The binding that holds what the bound member does. -/
structure BoundSetting.Holds (memory : Memory) (bound : BoundSetting) (binding : Binding) :
    Prop where
  descriptor : bound.descriptor = binding.descriptor
  member : (memory bound.storage).Represents (bound.descriptor.maxLen + 1) binding.storage

namespace BoundSetting

variable {memory : Memory} {bound : BoundSetting} {binding : Binding}

theorem Built.holds (h : bound.Built memory) : ∃ binding, bound.Holds memory binding := by
  cases h with
  | boolean key storage value holds =>
      exact ⟨⟨⟨key, .kBool, 0, 0, 0⟩, .boolean value, rfl⟩, rfl,
        by simp [BoundSetting.boolean, holds, Cell.Represents]⟩
  | integer key min max storage value holds range =>
      exact ⟨⟨_, .integer value, Or.inl rfl⟩, rfl,
        by simp [BoundSetting.integer, holds, Cell.Represents]⟩
  | color key storage value holds range =>
      exact ⟨⟨_, .integer value, Or.inr rfl⟩, rfl,
        by simp [BoundSetting.color, holds, Cell.Represents]⟩
  | text key N storage buffer holds size asserted terminated =>
      have hlength : (cstring buffer).length < buffer.length := length_cstring_lt terminated
      refine ⟨⟨⟨key, .kString, 0, 0, N - 1⟩, .text (cstring buffer), rfl, ?_, ?_,
        zero_not_mem_cstring buffer⟩, rfl, ?_⟩
      · change (cstring buffer).length ≤ N - 1
        omega
      · change N - 1 < kStringCap
        omega
      · simp only [BoundSetting.text, holds, Cell.Represents, true_and]
        omega

theorem Holds.read_eq (h : bound.Holds memory binding) : bound.read memory = binding.read := by
  obtain ⟨descriptor, storage⟩ := bound
  obtain ⟨other, held, hagrees⟩ := binding
  obtain ⟨hsame, hmember⟩ := h
  cases hsame
  simp only [read, Binding.read]
  cases hcell : memory storage <;> cases held <;>
    simp only [hcell, Cell.Represents] at hmember
  · have hbool : descriptor.type = .kBool := hagrees
    simp only [hbool, Cell.flag, hmember]
  · rcases hagrees with hint | hcolor
    · simp only [hint, Cell.number, hmember]
    · simp only [hcolor, Cell.number, hmember]
  · have hstring : descriptor.type = .kString := hagrees.1
    simp only [hstring, Cell.characters, hmember.1]

/-- The write stays inside the member, and the binding beside it follows. -/
theorem Holds.write_holds {value : SettingValue} (h : bound.Holds memory binding)
    (haccepts : binding.descriptor.accepts value = true) :
    bound.Holds (bound.write memory value) (binding.write value haccepts) := by
  obtain ⟨descriptor, storage⟩ := bound
  obtain ⟨other, held, hagrees⟩ := binding
  obtain ⟨hsame, hmember⟩ := h
  cases hsame
  refine ⟨rfl, ?_⟩
  simp only [write, Function.update_self, Binding.write, assigned]
  cases hcell : memory storage <;> cases held <;>
    simp only [hcell, Cell.Represents] at hmember
  · have hbool : descriptor.type = .kBool := hagrees
    simp only [hbool, Binding.stored, Cell.Represents]
  · rcases hagrees with hint | hcolor
    · simp only [hint, Binding.stored, Cell.Represents]
    · simp only [hcolor, Binding.stored, Cell.Represents]
  · have hstring : descriptor.type = .kString := hagrees.1
    have hlength : value.text.length ≤ descriptor.maxLen := by
      have hrange : descriptor.accepts value = true := haccepts
      simp only [SettingDescriptor.accepts, hstring, Bool.and_eq_true, decide_eq_true_eq] at hrange
      exact hrange.2
    simp only [hstring, Binding.stored, Cell.Represents, Cell.characters]
    refine ⟨cstring_append_zero (zero_not_mem_cstring _) _, ?_⟩
    rw [List.length_append, List.length_cons, List.length_drop, hmember.2]
    omega

/-- A write to another member leaves this one. -/
theorem Holds.frame {other : BoundSetting} {value : SettingValue} (h : bound.Holds memory binding)
    (hseparate : bound.storage ≠ other.storage) :
    bound.Holds (other.write memory value) binding := by
  refine ⟨h.descriptor, ?_⟩
  rw [write, Function.update_of_ne hseparate]
  exact h.member

end BoundSetting

/-! ### One call -/

/-- The bindings hold their members' contents, one for each. -/
abbrev HoldsAll (memory : Memory) : List BoundSetting → List Binding → Prop :=
  List.Forall₂ (BoundSetting.Holds memory)

namespace HoldsAll

variable {memory : Memory} {bounds : List BoundSetting} {bindings : List Binding}

theorem exists_of_built (h : ∀ bound ∈ bounds, bound.Built memory) :
    ∃ bindings, HoldsAll memory bounds bindings := by
  induction bounds with
  | nil => exact ⟨[], .nil⟩
  | cons bound rest ih =>
      obtain ⟨binding, hbinding⟩ := (h bound (by simp)).holds
      obtain ⟨others, hothers⟩ := ih fun other hother => h other (List.mem_cons_of_mem _ hother)
      exact ⟨binding :: others, .cons hbinding hothers⟩

/-- Both bags find the same binding under a key. -/
theorem find (h : HoldsAll memory bounds bindings) (key : Bytes) :
    Option.Rel (BoundSetting.Holds memory)
      (bounds.find? fun bound => bound.descriptor.key == key)
      (bindings.find? fun binding => binding.descriptor.key == key) := by
  induction h with
  | nil => exact .none
  | @cons bound binding bounds bindings hheld hrest ih =>
      rw [List.find?_cons, List.find?_cons, hheld.descriptor]
      cases binding.descriptor.key == key with
      | true => exact .some hheld
      | false => exact ih

theorem frame {target : BoundSetting} {value : SettingValue} (h : HoldsAll memory bounds bindings)
    (hseparate : target.storage ∉ bounds.map BoundSetting.storage) :
    HoldsAll (target.write memory value) bounds bindings := by
  induction h with
  | nil => exact .nil
  | @cons bound binding bounds bindings hheld hrest ih =>
      rw [List.map_cons, List.mem_cons, not_or] at hseparate
      exact .cons (hheld.frame fun heq => hseparate.1 heq.symm) (ih hseparate.2)

/-- The member `find` points at is written where `writeFirst` writes. -/
theorem writeFirst {key : Bytes} {value : SettingValue} (h : HoldsAll memory bounds bindings)
    (hseparate : (bounds.map BoundSetting.storage).Nodup) {target : BoundSetting}
    (hfind : bounds.find? (fun bound => bound.descriptor.key == cstring key) = some target)
    (haccepts : target.descriptor.accepts value = true) :
    ∃ next, SettingsBag.writeFirst key value bindings = some next ∧
      HoldsAll (target.write memory value) bounds next := by
  induction h with
  | nil => cases hfind
  | @cons bound binding bounds bindings hheld hrest ih =>
      rw [List.map_cons, List.nodup_cons] at hseparate
      rw [List.find?_cons, hheld.descriptor] at hfind
      rw [SettingsBag.writeFirst]
      by_cases hkey : binding.descriptor.key == cstring key
      · rw [hkey] at hfind
        cases hfind
        rw [hheld.descriptor] at haccepts
        rw [if_pos hkey, dif_pos haccepts]
        exact ⟨_, rfl, .cons (hheld.write_holds haccepts) (frame hrest hseparate.1)⟩
      · rw [Bool.eq_false_iff.mpr hkey] at hfind
        obtain ⟨next, hnext, hholds⟩ := ih hseparate.2 hfind
        have hmem : target ∈ bounds := List.mem_of_find?_eq_some hfind
        have hother : bound.storage ≠ target.storage := fun heq =>
          hseparate.1 (heq ▸ List.mem_map_of_mem hmem)
        rw [if_neg hkey, hnext]
        exact ⟨_, rfl, .cons (hheld.frame hother) hholds⟩

end HoldsAll

namespace BoundBag

/-- The bag that holds its members, in step with the one that points at them.  No two bindings
share a member, so a write through one is a write to one. -/
structure Simulates (bag : BoundBag) (held : SettingsBag) : Prop where
  bindings : HoldsAll bag.memory bag.bindings held.bindings
  separate : (bag.bindings.map BoundSetting.storage).Nodup

variable {bag : BoundBag} {held : SettingsBag}

theorem WellBuilt.simulates (h : bag.WellBuilt) : ∃ held, bag.Simulates held := by
  obtain ⟨bindings, hbindings⟩ := HoldsAll.exists_of_built h.built
  exact ⟨⟨bindings, hbindings.length_eq ▸ bag.count_lt⟩, hbindings, h.separate⟩

theorem Simulates.find (h : bag.Simulates held) (key : Bytes) :
    Option.Rel (BoundSetting.Holds bag.memory) (bag.find (some key)) (held.find key) :=
  h.bindings.find (cstring key)

theorem Simulates.get_eq (h : bag.Simulates held) (key : Bytes) :
    bag.get (some key) = held.get key := by
  have hfind := h.find key
  rw [get, SettingsBag.get]
  generalize bag.find (some key) = bound, held.find key = binding at hfind ⊢
  cases hfind with
  | some hheld => exact congrArg some hheld.read_eq
  | none => rfl

theorem Simulates.validate_eq (h : bag.Simulates held) (key : Bytes) (value : SettingValue) :
    bag.validate (some key) value = held.validate key value := by
  have hfind := h.find key
  rw [validate, SettingsBag.validate]
  generalize bag.find (some key) = bound, held.find key = binding at hfind ⊢
  cases hfind with
  | some hheld => exact congrArg (SettingDescriptor.accepts · value) hheld.descriptor
  | none => rfl

theorem apply_of_refused {call : ApplyCall} (h : bag.validate call.key call.value = false) :
    bag.apply call = (bag, false) := by
  rw [apply, if_pos h]

/-- What an accepted call does: one member is written, and the owner hears of it once. -/
theorem apply_of_accepted {call : ApplyCall} (h : bag.validate call.key call.value = true) :
    ∃ key binding, call.key = some key ∧ bag.find (some key) = some binding ∧
      binding.descriptor.key = cstring key ∧ binding.descriptor.accepts call.value = true ∧
      bag.apply call =
        ({ bag with
            memory := binding.write bag.memory call.value
            notified := bag.notified ++ [cstring key] }, true) := by
  obtain ⟨key, value⟩ := call
  cases key with
  | none => cases h
  | some key =>
      cases hfind : bag.find (some key) with
      | none =>
          simp only [validate, hfind] at h
          cases h
      | some binding =>
          have haccepts : binding.descriptor.accepts value = true := by
            simpa only [validate, hfind] using h
          have hkey : binding.descriptor.key = cstring key := by simpa using List.find?_some hfind
          refine ⟨key, binding, rfl, hfind, hkey, haccepts, ?_⟩
          simp only [apply, h, hfind, hkey, Bool.true_eq_false, if_false]

theorem apply_bindings (bag : BoundBag) (call : ApplyCall) :
    (bag.apply call).1.bindings = bag.bindings := by
  cases h : bag.validate call.key call.value with
  | false => rw [apply_of_refused h]
  | true =>
      obtain ⟨key, binding, -, -, -, -, happly⟩ := apply_of_accepted h
      rw [happly]

/-- A call is accepted by both bags or by neither, and leaves them in step. -/
theorem Simulates.apply (h : bag.Simulates held) (call : ApplyCall) :
    ∃ next, (bag.apply call).1.Simulates next ∧
      ((bag.apply call).2 = true → ∃ key, call.key = some key ∧
        held.apply key call.value = some next) := by
  cases hvalid : bag.validate call.key call.value with
  | false =>
      rw [apply_of_refused hvalid]
      exact ⟨held, h, fun hfalse => by cases hfalse⟩
  | true =>
      obtain ⟨key, binding, hkey, hfind, -, haccepts, happly⟩ := apply_of_accepted hvalid
      obtain ⟨next, hwrite, hholds⟩ := h.bindings.writeFirst h.separate hfind haccepts
      have hsome : (held.apply key call.value).isSome = true := by
        rw [SettingsBag.apply_isSome, ← h.validate_eq, ← hkey]
        exact hvalid
      obtain ⟨after, hafter⟩ := Option.isSome_iff_exists.mp hsome
      have hbindings : after.bindings = next := by
        rw [SettingsBag.apply] at hafter
        split at hafter
        · cases hafter
        · rename_i hwrote
          cases hafter
          exact Option.some.inj (hwrote.symm.trans hwrite)
      rw [happly]
      refine ⟨after, ⟨?_, h.separate⟩, fun _ => ⟨key, hkey, hafter⟩⟩
      rw [hbindings]
      exact hholds

/-- After an accepted call its key reads as the value given, and every other key as before. -/
theorem Simulates.get_apply (h : bag.Simulates held) {call : ApplyCall}
    (hvalid : bag.validate call.key call.value = true) (key : Option Bytes) :
    (bag.apply call).1.get key =
      if call.key.map cstring = key.map cstring then some call.value.cut else bag.get key := by
  obtain ⟨next, hnext, hheld⟩ := h.apply call
  have hsucceeds : (bag.apply call).2 = true := by
    obtain ⟨_, _, -, -, -, -, happly⟩ := apply_of_accepted hvalid
    rw [happly]
  obtain ⟨target, htarget, happly⟩ := hheld hsucceeds
  obtain ⟨⟨binding, haccepts, -, hwritten⟩, hothers, -⟩ := SettingsBag.wrote_of_apply happly
  rw [htarget]
  cases key with
  | none => rfl
  | some key =>
      simp only [hnext.get_eq, h.get_eq, Option.map_some, Option.some.injEq]
      by_cases hsame : cstring target = cstring key
      · rw [if_pos hsame, SettingsBag.get, SettingsBag.find, ← hsame]
        change (SettingsBag.firstNamed (cstring target) next.bindings).map Binding.read = _
        rw [hwritten, Option.map_some, Binding.read_write]
      · rw [if_neg hsame]
        exact congrArg (Option.map Binding.read) (hothers _ fun heq => hsame heq.symm)

/-! ## Runs -/

theorem validate_congr {other : BoundBag} (hbindings : other.bindings = bag.bindings)
    {key again : Option Bytes} (hkey : again.map cstring = key.map cstring)
    (value : SettingValue) : other.validate again value = bag.validate key value := by
  have hfind : other.find again = bag.find key := by
    cases key <;> cases again <;> simp_all [find]
  rw [validate, validate, hfind]

theorem lastApplied_valid {key : Option Bytes} {calls : List ApplyCall} {value : SettingValue}
    (h : bag.lastApplied key calls = some value) : bag.validate key value = true := by
  induction calls generalizing bag with
  | nil => cases h
  | cons call rest ih =>
      rw [lastApplied] at h
      cases hlater : (bag.apply call).1.lastApplied key rest with
      | some later =>
          rw [hlater] at h
          cases h
          rw [← validate_congr (bag.apply_bindings call) rfl]
          exact ih hlater
      | none =>
          rw [hlater, Option.none_or] at h
          split at h
          · rename_i hnow
            cases h
            cases hvalid : bag.validate call.key call.value with
            | false =>
                rw [apply_of_refused hvalid] at hnow
                cases hnow.1
            | true => rwa [← validate_congr rfl hnow.2]
          · cases h

theorem Simulates.get_run (h : bag.Simulates held) (calls : List ApplyCall) (key : Option Bytes) :
    (bag.run calls).get key =
      match bag.lastApplied key calls with
      | some value => some value.cut
      | none => bag.get key := by
  induction calls generalizing bag held with
  | nil => rfl
  | cons call rest ih =>
      obtain ⟨next, hnext, -⟩ := h.apply call
      rw [run, List.foldl_cons, ← run, ih hnext, lastApplied]
      cases (bag.apply call).1.lastApplied key rest with
      | some later => rfl
      | none =>
          rw [Option.none_or]
          cases hvalid : bag.validate call.key call.value with
          | false => simp [apply_of_refused hvalid]
          | true =>
              rw [h.get_apply hvalid]
              obtain ⟨_, _, -, -, -, -, happly⟩ := apply_of_accepted hvalid
              rw [happly]
              by_cases hsame : call.key.map cstring = key.map cstring <;> simp [hsame]

theorem run_bindings (bag : BoundBag) (calls : List ApplyCall) :
    (bag.run calls).bindings = bag.bindings := by
  induction calls generalizing bag with
  | nil => rfl
  | cons call rest ih => rw [run, List.foldl_cons, ← run, ih, apply_bindings]

theorem WellBuilt.validate_cut (h : bag.WellBuilt) {key : Option Bytes} {value : SettingValue}
    (hvalid : bag.validate key value = true) : bag.validate key value.cut = true := by
  cases key with
  | none => cases hvalid
  | some key =>
      rw [validate] at hvalid ⊢
      cases hfind : bag.find (some key) with
      | none =>
          rw [hfind] at hvalid
          cases hvalid
      | some binding =>
          rw [hfind] at hvalid
          have hmem : binding ∈ bag.bindings := List.mem_of_find?_eq_some hfind
          exact accepts_cut (h.built binding hmem).maxLen_lt hvalid

theorem WellBuilt.validate_get (h : bag.WellBuilt) {key : Option Bytes} {value : SettingValue}
    (hget : bag.get key = some value) : bag.validate key value = true := by
  cases key with
  | none => cases hget
  | some key =>
      obtain ⟨binding, hfind, rfl⟩ := Option.map_eq_some_iff.mp hget
      have hmem : binding ∈ bag.bindings := List.mem_of_find?_eq_some hfind
      rw [validate, hfind]
      exact (h.built binding hmem).accepts_read

/-- In every state a sequence of calls can reach, `apply` accepts what `validate` does, a
refused call changes nothing, an accepted one notifies the owner once, every key reads as
the value it was last given, and what is read validates. -/
theorem validated_store {bag : BoundBag} (hbuilt : bag.WellBuilt) (calls : List ApplyCall) :
    (∀ call,
      ((bag.run calls).apply call).2 = (bag.run calls).validate call.key call.value ∧
      (((bag.run calls).apply call).2 = false →
        ((bag.run calls).apply call).1 = bag.run calls) ∧
      (((bag.run calls).apply call).2 = true → ∃ key, call.key = some key ∧
        ((bag.run calls).apply call).1.notified = (bag.run calls).notified ++ [cstring key])) ∧
    ∀ key,
      ((bag.run calls).get key =
        match bag.lastApplied key calls with
        | some value => some value.cut
        | none => bag.get key) ∧
      ∀ value, (bag.run calls).get key = some value →
        (bag.run calls).validate key value = true := by
  obtain ⟨held, hheld⟩ := hbuilt.simulates
  refine ⟨fun call => ?_, fun key => ⟨hheld.get_run calls key, fun value hget => ?_⟩⟩
  · cases hvalid : (bag.run calls).validate call.key call.value with
    | false =>
        rw [apply_of_refused hvalid]
        exact ⟨rfl, fun _ => rfl, fun hfalse => by cases hfalse⟩
    | true =>
        obtain ⟨key, binding, hkey, -, -, -, happly⟩ := apply_of_accepted hvalid
        rw [happly]
        exact ⟨rfl, (fun hfalse => by cases hfalse), fun _ => ⟨key, hkey, rfl⟩⟩
  · rw [validate_congr (bag.run_bindings calls) rfl]
    rw [hheld.get_run calls key] at hget
    cases hlast : bag.lastApplied key calls with
    | some last =>
        rw [hlast] at hget
        cases hget
        exact hbuilt.validate_cut (lastApplied_valid hlast)
    | none =>
        rw [hlast] at hget
        exact hbuilt.validate_get hget

/-- A driver's three letters and a lap, in a `char[4]` and an `int32_t`. -/
def driverBag : BoundBag where
  bindings := [.text (ascii "driver") 4 0, .integer (ascii "lap") 0 99 1]
  count_lt := by decide
  memory := fun address => if address = 0 then .text (ascii "VER\x00") else .integer 5
  notified := []

theorem driverBag_wellBuilt : driverBag.WellBuilt := by
  refine ⟨fun binding hbinding => ?_, by decide⟩
  simp only [driverBag, List.mem_cons, List.not_mem_nil, or_false] at hbinding
  rcases hbinding with rfl | rfl
  · exact .text (ascii "driver") 4 0 (ascii "VER\x00") rfl rfl (by decide) (by decide)
  · exact .integer (ascii "lap") 0 99 1 5 rfl (by decide)

/-- A string of 32 characters without a terminator, refused, and then one of two. -/
def driverCalls : List ApplyCall :=
  [⟨some (ascii "driver"), { SettingValue.zero with
      type := .kString, stringValue := ⟨List.replicate 32 65, rfl⟩ }⟩,
    ⟨some (ascii "driver"), { SettingValue.zero with
      type := .kString, stringValue := stringField (ascii "AL\x00ONSO") }⟩]

theorem validated_store_driver :
    (driverBag.run driverCalls).get (some (ascii "driver")) =
        some { SettingValue.zero with type := .kString, stringValue := stringField (ascii "AL") } ∧
      (driverBag.run driverCalls).get (some (ascii "lap")) =
        some { SettingValue.zero with type := .kInt, intValue := 5 } := by
  have hstore := (validated_store driverBag_wellBuilt driverCalls).2
  exact ⟨(hstore (some (ascii "driver"))).1.trans (by decide +kernel),
    (hstore (some (ascii "lap"))).1.trans (by decide +kernel)⟩

end BoundBag

end MatrixFaces.Apps
