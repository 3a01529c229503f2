import MatrixFaces.Apps.Settings

set_option autoImplicit false

/-!
# One setting among the others

What `applySetting` changes, and what it leaves alone: every other setting, every
descriptor and every name.

`settingAt` is the setting that a key names in an app, the first one of that name.  Reading,
validating and applying are all about it (`getSetting_eq`, `validateSetting_eq`,
`applied_of_applySetting`), so later modules do not unfold the bags.

`Applied` has what an accepted `applySetting` writes and everything it leaves alone.
`SettingValue.Same` compares values by the member that their type selects.
-/

namespace MatrixFaces.Apps

open MatrixFaces.Foundation

namespace Storage

variable {descriptor : SettingDescriptor} {storage : Storage}

theorem Agrees.boolean (h : storage.Agrees descriptor) (htype : descriptor.type = .kBool) :
    ∃ value, storage = .boolean value := by
  cases storage <;> simp_all [Agrees]

theorem Agrees.integer (h : storage.Agrees descriptor)
    (htype : descriptor.type = .kInt ∨ descriptor.type = .kColor) :
    ∃ value, storage = .integer value := by
  cases storage <;> simp_all [Agrees]

theorem Agrees.text (h : storage.Agrees descriptor) (htype : descriptor.type = .kString) :
    ∃ value, storage = .text value := by
  cases storage <;> simp_all [Agrees]

end Storage

/-- Two values that say the same of a setting: what the other members hold does not matter. -/
structure SettingValue.Same (value other : SettingValue) : Prop where
  type : other.type = value.type
  bool : value.type = .kBool → other.boolValue = value.boolValue
  int : value.type = .kInt ∨ value.type = .kColor → other.intValue = value.intValue
  string : value.type = .kString → other.text = value.text

namespace Binding

/-- A value that was written is read back. -/
theorem same_read_write (binding : Binding) {value : SettingValue}
    (h : binding.descriptor.accepts value = true) : value.Same (binding.write value h).read := by
  obtain ⟨descriptor, storage, hagrees⟩ := binding
  have haccepts := h
  rw [SettingDescriptor.accepts, Bool.and_eq_true, beq_iff_eq] at haccepts
  obtain ⟨htype, hrange⟩ := haccepts
  have hread : ((⟨descriptor, storage, hagrees⟩ : Binding).write value h).read.type =
      value.type := by
    cases storage <;> exact htype.symm
  cases storage with
  | boolean old =>
      have hbool : value.type = .kBool := htype.trans hagrees
      exact ⟨hread, fun _ => rfl, by simp [hbool], by simp [hbool]⟩
  | integer old =>
      have hint : value.type = .kInt ∨ value.type = .kColor := by
        rw [htype]
        exact hagrees
      refine ⟨hread, fun hbool => ?_, fun _ => rfl, fun hstring => ?_⟩
      · rcases hint with hint | hint <;> rw [hint] at hbool <;> cases hbool
      · rcases hint with hint | hint <;> rw [hint] at hstring <;> cases hstring
  | text old =>
      have hstring : value.type = .kString := htype.trans hagrees.1
      refine ⟨hread, by simp [hstring], by simp [hstring], fun _ => ?_⟩
      have hlength : value.text.length ≤ descriptor.maxLen := by
        have htext : descriptor.type = .kString := hagrees.1
        simpa [htext] using hrange
      have hcap := hagrees.2.2.1
      have htake : value.text.take (kStringCap - 1) = value.text :=
        List.take_of_length_le (by omega)
      change cstring (stringField (value.text.take (kStringCap - 1))).1 = value.text
      rw [htake]
      exact cstring_padded (zero_not_mem_cstring _) (by omega)

/-- What was read from one binding is what is read from any other it is written to. -/
theorem read_write_read {source target : Binding}
    (h : target.descriptor.accepts source.read = true) :
    (target.write source.read h).read = source.read := by
  obtain ⟨descriptor, storage, hagrees⟩ := source
  obtain ⟨other, member, hmember⟩ := target
  have htype : descriptor.type = other.type := by
    simp only [SettingDescriptor.accepts, Bool.and_eq_true, beq_iff_eq] at h
    cases storage <;> exact h.1
  cases storage with
  | boolean value =>
      obtain ⟨old, rfl⟩ := hmember.boolean (htype ▸ hagrees)
      simp only [read, write, stored, htype]
  | integer value =>
      obtain ⟨old, rfl⟩ := hmember.integer (htype ▸ hagrees)
      simp only [read, write, stored, htype]
  | text value =>
      obtain ⟨hstring, hmax, hcap, hzero⟩ := hagrees
      obtain ⟨old, rfl⟩ := hmember.text (htype ▸ hstring)
      have htake : value.take (kStringCap - 1) = value :=
        List.take_of_length_le (by omega)
      have htext : cstring (stringField value).1 = value := cstring_padded hzero (by omega)
      simp only [read, write, stored, SettingValue.text, htype, htake, htext]

end Binding

namespace SettingsBag

/-- The first binding under a key. -/
def firstNamed (key : Bytes) (bindings : List Binding) : Option Binding :=
  bindings.find? fun binding => binding.descriptor.key == key

theorem firstNamed_cons_of_ne {key : Bytes} {binding : Binding} (rest : List Binding)
    (h : binding.descriptor.key ≠ key) :
    firstNamed key (binding :: rest) = firstNamed key rest :=
  List.find?_cons_of_neg (by simpa using h)

theorem firstNamed_cons_self (binding : Binding) (rest : List Binding) :
    firstNamed binding.descriptor.key (binding :: rest) = some binding :=
  List.find?_cons_of_pos (by simp)

/-- What `writeFirst` did to the bindings. -/
structure Wrote (key : Bytes) (value : SettingValue) (bindings next : List Binding) : Prop where
  written : ∃ binding, ∃ h : binding.descriptor.accepts value = true,
    firstNamed (cstring key) bindings = some binding ∧
      firstNamed (cstring key) next = some (binding.write value h)
  others : ∀ other, other ≠ cstring key → firstNamed other next = firstNamed other bindings
  descriptors : next.map Binding.descriptor = bindings.map Binding.descriptor

theorem wrote_of_writeFirst {key : Bytes} {value : SettingValue} {bindings next : List Binding}
    (h : writeFirst key value bindings = some next) : Wrote key value bindings next := by
  induction bindings generalizing next with
  | nil => cases h
  | cons binding rest ih =>
      rw [writeFirst] at h
      split at h
      · rename_i hkey
        have hname : binding.descriptor.key = cstring key := by simpa using hkey
        split at h
        · rename_i haccepts
          cases h
          refine ⟨⟨binding, haccepts, ?_, ?_⟩, fun other hother => ?_, rfl⟩
          · rw [← hname]
            exact firstNamed_cons_self binding rest
          · rw [← hname]
            exact firstNamed_cons_self (binding.write value haccepts) rest
          · have hne : binding.descriptor.key ≠ other := fun heq =>
              hother (heq.symm.trans hname)
            rw [firstNamed_cons_of_ne rest hne]
            exact firstNamed_cons_of_ne rest hne
        · cases h
      · rename_i hkey
        have hname : binding.descriptor.key ≠ cstring key := by simpa using hkey
        obtain ⟨tail, htail, rfl⟩ := Option.map_eq_some_iff.mp h
        obtain ⟨⟨found, haccepts, hold, hnew⟩, hothers, hdescriptors⟩ := ih htail
        refine ⟨⟨found, haccepts, ?_, ?_⟩, fun other hother => ?_, ?_⟩
        · rw [firstNamed_cons_of_ne rest hname]
          exact hold
        · rw [firstNamed_cons_of_ne tail hname]
          exact hnew
        · by_cases hsame : binding.descriptor.key = other
          · subst hsame
            rw [firstNamed_cons_self, firstNamed_cons_self]
          · rw [firstNamed_cons_of_ne tail hsame, firstNamed_cons_of_ne rest hsame]
            exact hothers other hother
        · rw [List.map_cons, List.map_cons, hdescriptors]

theorem wrote_of_apply {bag next : SettingsBag} {key : Bytes} {value : SettingValue}
    (h : bag.apply key value = some next) : Wrote key value bag.bindings next.bindings := by
  rw [apply] at h
  split at h
  · cases h
  · rename_i hwrite
    cases h
    exact wrote_of_writeFirst hwrite

end SettingsBag

namespace AppScheduler

/-- The binding behind a setting, as every access to it finds it. -/
def settingAt (scheduler : AppScheduler) (appIndex : UInt8) (key : Bytes) : Option Binding :=
  (scheduler.bagFor appIndex).bind fun bag => bag.find key

theorem getSetting_eq (scheduler : AppScheduler) (appIndex : UInt8) (key : Bytes) :
    scheduler.getSetting appIndex key = (scheduler.settingAt appIndex key).map Binding.read := by
  rw [getSetting, settingAt]
  cases scheduler.bagFor appIndex <;> rfl

/-- Validation asks the descriptors only. -/
theorem validateSetting_eq (scheduler : AppScheduler) (appIndex : UInt8) (key : Bytes)
    (value : SettingValue) :
    scheduler.validateSetting appIndex key value =
      match (scheduler.descriptors appIndex).find? fun descriptor =>
          descriptor.key == cstring key with
      | none => false
      | some descriptor => descriptor.accepts value := by
  rw [validateSetting, descriptors]
  cases scheduler.bagFor appIndex with
  | none => rfl
  | some bag =>
      simp only [SettingsBag.validate, SettingsBag.find, List.find?_map, Function.comp_def]
      cases bag.bindings.find? _ <;> rfl

/-- What an accepted `applySetting` did. -/
structure Applied (scheduler : AppScheduler) (appIndex : UInt8) (key : Bytes)
    (value : SettingValue) (next : AppScheduler) : Prop where
  written : ∃ binding, ∃ h : binding.descriptor.accepts value = true,
    scheduler.settingAt appIndex key = some binding ∧
      next.settingAt appIndex key = some (binding.write value h)
  others : ∀ other otherKey, other ≠ appIndex ∨ cstring otherKey ≠ cstring key →
    next.settingAt other otherKey = scheduler.settingAt other otherKey
  descriptors : ∀ other, next.descriptors other = scheduler.descriptors other
  name : ∀ other, next.name other = scheduler.name other
  count : next.count = scheduler.count

theorem applied_of_applySetting {scheduler next : AppScheduler} {appIndex : UInt8} {key : Bytes}
    {value : SettingValue} (h : scheduler.applySetting appIndex key value = some next) :
    Applied scheduler appIndex key value next := by
  rw [applySetting] at h
  split at h
  · cases h
  · rename_i app happ
    obtain ⟨bag, hbind, rfl⟩ := Option.map_eq_some_iff.mp h
    obtain ⟨old, hold, happly⟩ := Option.bind_eq_some_iff.mp hbind
    obtain ⟨⟨binding, haccepts, hbefore, hafter⟩, hothers, hdescriptors⟩ :=
      SettingsBag.wrote_of_apply happly
    have hlt : appIndex.toNat < scheduler.apps.length :=
      (List.getElem?_eq_some_iff.mp happ).1
    have hself : (scheduler.apps.set appIndex.toNat { app with settings := some bag })[
        appIndex.toNat]? = some { app with settings := some bag } :=
      List.getElem?_set_self hlt
    have hother : ∀ other : UInt8, other ≠ appIndex →
        (scheduler.apps.set appIndex.toNat { app with settings := some bag })[other.toNat]? =
          scheduler.apps[other.toNat]? := fun other hne =>
      List.getElem?_set_ne fun heq => hne (UInt8.toNat_inj.mp heq.symm)
    have hbag : scheduler.bagFor appIndex = some old := by
      rw [bagFor, happ, Option.bind_some, hold]
    refine ⟨⟨binding, haccepts, ?_, ?_⟩, fun other otherKey hdiffers => ?_, fun other => ?_,
      fun other => ?_, ?_⟩
    · rw [settingAt, hbag]
      exact hbefore
    · rw [settingAt, bagFor, hself]
      exact hafter
    · by_cases hsame : other = appIndex
      · subst hsame
        rw [settingAt, bagFor, hself, settingAt, hbag]
        exact hothers _ (hdiffers.resolve_left fun hne => hne rfl)
      · rw [settingAt, bagFor, hother other hsame, settingAt, bagFor]
    · by_cases hsame : other = appIndex
      · subst hsame
        rw [descriptors, bagFor, hself, descriptors, hbag]
        exact hdescriptors
      · rw [descriptors, bagFor, hother other hsame, descriptors, bagFor]
    · by_cases hsame : other = appIndex
      · subst hsame
        rw [name, hself, name, happ]
      · rw [name, hother other hsame, name]
    · rw [count, List.length_set, count]

theorem activeIndex_applySetting {scheduler next : AppScheduler} {appIndex : UInt8} {key : Bytes}
    {value : SettingValue} (h : scheduler.applySetting appIndex key value = some next) :
    next.activeIndex = scheduler.activeIndex := by
  rw [applySetting] at h
  split at h
  · cases h
  · obtain ⟨bag, -, rfl⟩ := Option.map_eq_some_iff.mp h
    rfl

theorem switchTo_apps (scheduler : AppScheduler) (index : UInt8) :
    (scheduler.switchTo index).apps = scheduler.apps := by
  rw [switchTo]
  split <;> rfl

theorem switchTo_settingAt (scheduler : AppScheduler) (index other : UInt8) (key : Bytes) :
    (scheduler.switchTo index).settingAt other key = scheduler.settingAt other key := by
  rw [settingAt, bagFor, switchTo_apps, settingAt, bagFor]

theorem switchTo_descriptors (scheduler : AppScheduler) (index other : UInt8) :
    (scheduler.switchTo index).descriptors other = scheduler.descriptors other := by
  rw [descriptors, bagFor, switchTo_apps, descriptors, bagFor]

end AppScheduler

end MatrixFaces.Apps
