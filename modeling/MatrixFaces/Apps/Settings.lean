import MatrixFaces.Foundation.Bytes

set_option autoImplicit false

/-!
# Settings and the apps that own them

`apps/app_setting.h`, `apps/settings_bag.cpp` and `apps/app_scheduler.cpp`.  What
an app does when one of its settings changes (`onSettingChanged`) touches no
setting and is left out.

A `Binding` is a descriptor with the member it stands for, of the kind that its type needs
(`Storage.Agrees`), so a binding whose member is of another kind cannot be made.  The bag
with pointers into memory is in `Apps.BoundSettings`, which this one simulates.

The scheduler is the list of its apps, at most `kMaxApps` of them.

A `Binding` is a descriptor with the member it stands for, of the kind that its type needs
(`Storage.Agrees`), so a binding whose member is of another kind cannot be made.  The bag with
pointers into memory is in `Apps.BoundSettings`, which this one simulates.

The scheduler is the list of its apps, at most `kMaxApps` of them.
-/

namespace MatrixFaces.Apps

open MatrixFaces.Foundation

/-- `SettingType`. -/
inductive SettingType where
  | kBool
  | kInt
  | kString
  | kColor
  deriving DecidableEq, Repr

/-- `SettingDescriptor`, without the label only a UI shows. -/
structure SettingDescriptor where
  key : Bytes
  type : SettingType
  intMin : Int32
  intMax : Int32
  maxLen : Nat
  deriving DecidableEq

def kStringCap : Nat := 32

/-- `SettingValue`. -/
structure SettingValue where
  type : SettingType
  boolValue : Bool
  intValue : Int32
  stringValue : Block kStringCap
  deriving DecidableEq

/-- `SettingValue{}`. -/
def SettingValue.zero : SettingValue := ⟨.kBool, false, 0, Block.zero _⟩

/-- The characters of the string member, up to its terminator or its end. -/
def SettingValue.text (value : SettingValue) : Bytes := cstring value.stringValue.1

/-- A string as `strncpy` leaves it in the 32 characters of a value. -/
def stringField (text : Bytes) : Block kStringCap :=
  ⟨(text ++ List.replicate kStringCap 0).take kStringCap, by simp [kStringCap]⟩

/-- The type and range half of `SettingsBag::validate`. -/
def SettingDescriptor.accepts (descriptor : SettingDescriptor) (value : SettingValue) : Bool :=
  value.type == descriptor.type &&
    match descriptor.type with
    | .kBool => true
    | .kInt | .kColor => descriptor.intMin ≤ value.intValue && value.intValue ≤ descriptor.intMax
    | .kString => value.text.length ≤ descriptor.maxLen

/-! ## Bindings -/

/-- The member a setting is bound to; a text buffer by the string it holds. -/
inductive Storage where
  | boolean (value : Bool)
  | integer (value : Int32)
  | text (value : Bytes)
  deriving DecidableEq

/-- The member has the descriptor's type, and a text fits its buffer. -/
def Storage.Agrees (descriptor : SettingDescriptor) : Storage → Prop
  | .boolean _ => descriptor.type = .kBool
  | .integer _ => descriptor.type = .kInt ∨ descriptor.type = .kColor
  | .text value => descriptor.type = .kString ∧ value.length ≤ descriptor.maxLen ∧
      descriptor.maxLen < kStringCap ∧ (0 : Byte) ∉ value

/-- `SettingsBag::Binding`. -/
structure Binding where
  descriptor : SettingDescriptor
  storage : Storage
  agrees : storage.Agrees descriptor

namespace Binding

/-- The `switch` of `SettingsBag::get`. -/
def read (binding : Binding) : SettingValue :=
  let out := { SettingValue.zero with type := binding.descriptor.type }
  match binding.storage with
  | .boolean value => { out with boolValue := value }
  | .integer value => { out with intValue := value }
  | .text value => { out with stringValue := stringField (value.take (kStringCap - 1)) }

/-- What the `switch` of `SettingsBag::apply` assigns. -/
def stored (storage : Storage) (value : SettingValue) : Storage :=
  match storage with
  | .boolean _ => .boolean value.boolValue
  | .integer _ => .integer value.intValue
  | .text _ => .text value.text

theorem stored_agrees {binding : Binding} {value : SettingValue}
    (h : binding.descriptor.accepts value = true) :
    (stored binding.storage value).Agrees binding.descriptor := by
  have hagrees := binding.agrees
  cases hstorage : binding.storage with
  | boolean old =>
      rw [hstorage] at hagrees
      exact hagrees
  | integer old =>
      rw [hstorage] at hagrees
      exact hagrees
  | text old =>
      rw [hstorage] at hagrees
      obtain ⟨htype, _, hcap, _⟩ := hagrees
      simp only [SettingDescriptor.accepts, htype, Bool.and_eq_true, decide_eq_true_eq] at h
      exact ⟨htype, h.2, hcap, zero_not_mem_cstring _⟩

/-- The `switch` of `SettingsBag::apply` on a value that was validated. -/
def write (binding : Binding) (value : SettingValue)
    (h : binding.descriptor.accepts value = true) : Binding :=
  { binding with
    storage := stored binding.storage value
    agrees := stored_agrees h }

end Binding

/-! ## Bags -/

/-- `SettingsBag`. -/
structure SettingsBag where
  bindings : List Binding
  count_lt : bindings.length < 256

namespace SettingsBag

/-- `SettingsBag::find`. -/
def find (bag : SettingsBag) (key : Bytes) : Option Binding :=
  bag.bindings.find? fun binding => binding.descriptor.key == cstring key

/-- `SettingsBag::get`. -/
def get (bag : SettingsBag) (key : Bytes) : Option SettingValue :=
  (bag.find key).map Binding.read

/-- `SettingsBag::validate`. -/
def validate (bag : SettingsBag) (key : Bytes) (value : SettingValue) : Bool :=
  match bag.find key with
  | none => false
  | some binding => binding.descriptor.accepts value

/-- The binding `find` points at, overwritten; `none` when it refuses the value. -/
def writeFirst (key : Bytes) (value : SettingValue) : List Binding → Option (List Binding)
  | [] => none
  | binding :: rest =>
      if binding.descriptor.key == cstring key then
        if h : binding.descriptor.accepts value = true then some (binding.write value h :: rest)
        else none
      else (writeFirst key value rest).map (binding :: ·)

theorem length_writeFirst {key : Bytes} {value : SettingValue} {bindings next : List Binding}
    (h : writeFirst key value bindings = some next) : next.length = bindings.length := by
  induction bindings generalizing next with
  | nil => cases h
  | cons binding rest ih =>
      rw [writeFirst] at h
      split at h
      · split at h
        · cases h
          rfl
        · cases h
      · obtain ⟨tail, htail, rfl⟩ := Option.map_eq_some_iff.mp h
        rw [List.length_cons, List.length_cons, ih htail]

/-- `SettingsBag::apply`; `none` is the source's `false`. -/
def apply (bag : SettingsBag) (key : Bytes) (value : SettingValue) : Option SettingsBag :=
  match h : writeFirst key value bag.bindings with
  | none => none
  | some bindings => some ⟨bindings, by rw [length_writeFirst h]; exact bag.count_lt⟩

theorem writeFirst_isSome (key : Bytes) (value : SettingValue) (bindings : List Binding) :
    (writeFirst key value bindings).isSome =
      match bindings.find? fun binding => binding.descriptor.key == cstring key with
      | none => false
      | some binding => binding.descriptor.accepts value := by
  induction bindings with
  | nil => rfl
  | cons binding rest ih =>
      rw [writeFirst, List.find?_cons]
      cases binding.descriptor.key == cstring key with
      | true => by_cases h : binding.descriptor.accepts value = true <;> simp [h]
      | false => simpa using ih

/-- `apply` succeeds on exactly the values `validate` passes. -/
theorem apply_isSome (bag : SettingsBag) (key : Bytes) (value : SettingValue) :
    (bag.apply key value).isSome = bag.validate key value := by
  have hsome : (bag.apply key value).isSome = (writeFirst key value bag.bindings).isSome := by
    rw [apply]
    split
    · rename_i h
      simp only [h, Option.isSome_none]
    · rename_i h
      simp only [h, Option.isSome_some]
  rw [hsome, writeFirst_isSome, validate, find]

end SettingsBag

/-! ## The scheduler -/

/-- What the settings layer sees of an `App`. -/
structure App where
  name : Bytes
  /-- `none` is the null pointer of an app without settings. -/
  settings : Option SettingsBag

def kMaxApps : Nat := 8

/-- `AppScheduler`. -/
structure AppScheduler where
  apps : List App
  activeIndex : UInt8
  count_le : apps.length ≤ kMaxApps

namespace AppScheduler

/-- `AppScheduler::count`. -/
def count (scheduler : AppScheduler) : Nat := scheduler.apps.length

/-- `AppScheduler::switchTo`, as far as the index goes. -/
def switchTo (scheduler : AppScheduler) (index : UInt8) : AppScheduler :=
  if index.toNat ≥ scheduler.count ∨ index = scheduler.activeIndex then scheduler
  else { scheduler with activeIndex := index }

/-- `AppScheduler::name`. -/
def name (scheduler : AppScheduler) (index : UInt8) : Bytes :=
  match scheduler.apps[index.toNat]? with
  | none => []
  | some app => app.name

/-- `AppScheduler::bagFor`. -/
def bagFor (scheduler : AppScheduler) (appIndex : UInt8) : Option SettingsBag :=
  scheduler.apps[appIndex.toNat]?.bind App.settings

/-- `AppScheduler::settingDescriptor` at every index below `settingCount`. -/
def descriptors (scheduler : AppScheduler) (appIndex : UInt8) : List SettingDescriptor :=
  match scheduler.bagFor appIndex with
  | none => []
  | some bag => bag.bindings.map Binding.descriptor

/-- `AppScheduler::getSetting`. -/
def getSetting (scheduler : AppScheduler) (appIndex : UInt8) (key : Bytes) : Option SettingValue :=
  (scheduler.bagFor appIndex).bind fun bag => bag.get key

/-- `AppScheduler::validateSetting`. -/
def validateSetting (scheduler : AppScheduler) (appIndex : UInt8) (key : Bytes)
    (value : SettingValue) : Bool :=
  match scheduler.bagFor appIndex with
  | none => false
  | some bag => bag.validate key value

/-- `AppScheduler::applySetting`; `none` is the source's `false`. -/
def applySetting (scheduler : AppScheduler) (appIndex : UInt8) (key : Bytes)
    (value : SettingValue) : Option AppScheduler :=
  match scheduler.apps[appIndex.toNat]? with
  | none => none
  | some app =>
      (app.settings.bind fun bag => bag.apply key value).map fun bag =>
        { scheduler with
          apps := scheduler.apps.set appIndex.toNat { app with settings := some bag }
          count_le := by rw [List.length_set]; exact scheduler.count_le }

/-- What passes validation is applied, and nothing else. -/
theorem applySetting_isSome (scheduler : AppScheduler) (appIndex : UInt8) (key : Bytes)
    (value : SettingValue) :
    (scheduler.applySetting appIndex key value).isSome =
      scheduler.validateSetting appIndex key value := by
  rw [applySetting, validateSetting, bagFor]
  cases scheduler.apps[appIndex.toNat]? with
  | none => rfl
  | some app =>
      cases hbag : app.settings with
      | none => simp [hbag]
      | some bag => simp [hbag, SettingsBag.apply_isSome]

end AppScheduler

end MatrixFaces.Apps
