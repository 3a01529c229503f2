import Mathlib.Data.List.Nodup
import MatrixFaces.Apps.SettingAt
import MatrixFaces.Storage.Persistence
import MatrixFaces.Storage.RecordBlob

set_option autoImplicit false

/-!
# Settings across a firmware update (`src/apps/app_settings_store.cpp`)

Every setting goes out as a record under its app's name and its key, and comes
back into whatever scheduler the next image builds.

`Storable` is what is asked of the image that saves: names and keys that fit a record, without
NUL, and not more settings than records.  `DistinctNames` is asked of the image that loads.
Both are about the firmware's own tables, not about what a user set.

The main result is `settings_survive`: the blob is written, and the next image gives each of
its settings the value that the setting of the same app name and key had, if it passes the
setting's own check, and leaves every other as it was.  The order of the apps and of their
settings does not matter.
-/

namespace MatrixFaces.Storage

open MatrixFaces.Foundation
open MatrixFaces.Apps

/-! ## A record in memory -/

/-- A `SettingType` as its byte. -/
def settingTypeByte : SettingType → Byte
  | .kBool => 0
  | .kInt => 1
  | .kString => 2
  | .kColor => 3

/-- The `SettingType` a byte stands for; `none` is a type no descriptor has. -/
def settingTypeOf (byte : Byte) : Option SettingType :=
  if byte = 0 then some .kBool
  else if byte = 1 then some .kInt
  else if byte = 2 then some .kString
  else if byte = 3 then some .kColor
  else none

/-- `char[kNameCap]` as `copyCapped` leaves it. -/
def nameField (name : Bytes) : Bytes := (name ++ List.replicate kNameCap 0).take kNameCap

/-- `sizeof(SettingRecord)`. -/
def kRecordSize : Nat := 72

/-- The bytes of a record.  What lies between `boolValue` and `intValue` is indeterminate. -/
def encodeRecord (padding : Byte × Byte) (record : SettingRecord) : Bytes :=
  nameField record.appName ++ (nameField record.key ++
    (settingTypeByte record.value.type :: (if record.value.boolValue then 1 else 0) ::
      padding.1 :: padding.2 ::
        (writeU32 record.value.intValue.toUInt32 ++ record.value.stringValue.1)))

/-- The record whose bytes are at the front; `none` is one that no setting can accept. -/
def decodeRecord (bytes : Bytes) : Option SettingRecord :=
  match (bytes.drop kNameCap).drop kNameCap with
  | type :: bool :: _ :: _ :: rest =>
      (settingTypeOf type).map fun type =>
        ⟨cstring (bytes.take kNameCap), cstring ((bytes.drop kNameCap).take kNameCap),
          ⟨type, bool != 0, (readU32 rest).toInt32, stringField (rest.drop 4)⟩⟩
  | _ => none

/-- `records`, as `saveAll` hands them to `serialize`. -/
def encodeRecords (padding : Nat → Byte × Byte) : List SettingRecord → Bytes
  | [] => []
  | record :: rest =>
      encodeRecord (padding 0) record ++ encodeRecords (fun i => padding (i + 1)) rest

/-- `records`, as `parse` leaves them to `load`. -/
def decodeRecords : Nat → Bytes → List SettingRecord
  | 0, _ => []
  | count + 1, bytes =>
      (decodeRecord bytes).toList ++ decodeRecords count (bytes.drop kRecordSize)

/-! ## Records come back -/

theorem settingTypeOf_byte (type : SettingType) :
    settingTypeOf (settingTypeByte type) = some type := by
  cases type <;> rfl

theorem length_nameField (name : Bytes) : (nameField name).length = kNameCap := by
  rw [nameField, List.length_take, List.length_append, List.length_replicate]
  omega

/-- A name with room for its terminator is read back whole. -/
theorem cstring_nameField {name : Bytes} (hzero : (0 : Byte) ∉ name)
    (hfits : name.length < kNameCap) : cstring (nameField name) = name :=
  cstring_padded hzero hfits

theorem stringField_val (block : Block kStringCap) (rest : Bytes) :
    stringField (block.1 ++ rest) = block := by
  refine Subtype.ext ?_
  change (block.1 ++ rest ++ List.replicate kStringCap 0).take kStringCap = block.1
  rw [List.append_assoc]
  exact List.take_left' block.2

/-- Both names of a record fit their fields. -/
structure SettingRecord.Fits (record : SettingRecord) : Prop where
  appName_zero : (0 : Byte) ∉ record.appName
  appName_length : record.appName.length < kNameCap
  key_zero : (0 : Byte) ∉ record.key
  key_length : record.key.length < kNameCap

theorem length_encodeRecord (padding : Byte × Byte) (record : SettingRecord) :
    (encodeRecord padding record).length = kRecordSize := by
  simp only [encodeRecord, List.length_append, length_nameField, List.length_cons,
    length_writeU32, Block.length_val]
  rfl

theorem decodeRecord_encodeRecord (padding : Byte × Byte) {record : SettingRecord}
    (hfits : record.Fits) (rest : Bytes) :
    decodeRecord (encodeRecord padding record ++ rest) = some record := by
  simp only [decodeRecord, encodeRecord, List.append_assoc, List.cons_append,
    List.drop_left' (length_nameField _), List.take_left' (length_nameField _),
    settingTypeOf_byte, Option.map_some, readU32_writeU32, drop_writeU32, stringField_val,
    Int32.toInt32_toUInt32, cstring_nameField hfits.appName_zero hfits.appName_length,
    cstring_nameField hfits.key_zero hfits.key_length]
  obtain ⟨appName, key, type, flag, number, text⟩ := record
  cases flag <;> rfl

theorem length_encodeRecords (padding : Nat → Byte × Byte) (records : List SettingRecord) :
    (encodeRecords padding records).length = kRecordSize * records.length := by
  induction records generalizing padding with
  | nil => rfl
  | cons record rest ih =>
      rw [encodeRecords, List.length_append, length_encodeRecord, ih, List.length_cons,
        Nat.mul_succ, Nat.add_comm]

theorem decodeRecords_encodeRecords (padding : Nat → Byte × Byte) {records : List SettingRecord}
    (hfits : ∀ record ∈ records, record.Fits) :
    decodeRecords records.length (encodeRecords padding records) = records := by
  induction records generalizing padding with
  | nil => rfl
  | cons record rest ih =>
      rw [encodeRecords, List.length_cons, decodeRecords,
        decodeRecord_encodeRecord _ (hfits record List.mem_cons_self),
        List.drop_left' (length_encodeRecord _ _),
        ih _ fun other hother => hfits other (List.mem_cons_of_mem _ hother)]
      rfl

namespace AppSettingsStore

def kMagic : UInt32 := 0x4d344153

def kVersion : UInt16 := 1

/-! ## Saving and loading -/

/-- The loops of `saveAll`. -/
def snapshot (scheduler : AppScheduler) : List SettingRecord :=
  (settingSlots scheduler).foldl
    (fun records slot =>
      if records.length < kMaxRecords then records ++ (readRecord scheduler slot).toList
      else records)
    []

/-- `saveAll`: the bytes it hands to `blob_store::save`. -/
def saveAll (padding : Nat → Byte × Byte) (scheduler : AppScheduler) : Option Bytes :=
  let records := snapshot scheduler
  serialize (framedSize kRecordSize kMaxRecords) kMagic kVersion (encodeRecords padding records)
    kRecordSize kMaxRecords (UInt16.ofNat records.length)

/-- The inner loop of `load`: the first app of that name gets the value. -/
def restoreRecord (scheduler : AppScheduler) (record : SettingRecord) : AppScheduler :=
  match (List.range scheduler.count).find? fun i =>
      cstring (scheduler.name (UInt8.ofNat i)) == cstring record.appName with
  | none => scheduler
  | some i =>
      (scheduler.applySetting (UInt8.ofNat i) record.key record.value).getD scheduler

/-- `load`, where `stored` is what `blob_store::load` read. -/
def load (stored : Option Bytes) (scheduler : AppScheduler) : AppScheduler :=
  match stored with
  | none => scheduler
  | some blob =>
      match parse blob kMagic kVersion kRecordSize kMaxRecords with
      | .error _ => scheduler
      | .ok (count, records) =>
          (decodeRecords count.toNat records).foldl restoreRecord scheduler

/-- `begin`, without the check it only logs. -/
def begin (stored : Option Bytes) (scheduler : AppScheduler) : AppScheduler :=
  load stored scheduler

/-! ## One record restored -/

theorem length_name_lt {scheduler : AppScheduler} {cap : Nat} (hcap : 0 < cap)
    (h : ∀ app ∈ scheduler.apps, (cstring app.name).length < cap) (appIndex : UInt8) :
    (cstring (scheduler.name appIndex)).length < cap := by
  rw [AppScheduler.name]
  split
  · exact hcap
  · rename_i app happ
    exact h app (List.mem_of_getElem? happ)

/-- No two apps have the same name, up to its terminator.  Records are found by these names, not
by the place of the app. -/
def DistinctNames (scheduler : AppScheduler) : Prop :=
  ∀ first second : UInt8, first.toNat < scheduler.count → second.toNat < scheduler.count →
    cstring (scheduler.name first) = cstring (scheduler.name second) → first = second

theorem name_eq {scheduler : AppScheduler} {appIndex : UInt8}
    (h : appIndex.toNat < scheduler.apps.length) :
    scheduler.name appIndex = scheduler.apps[appIndex.toNat].name := by
  rw [AppScheduler.name, List.getElem?_eq_getElem h]

theorem distinctNames_of_nodup {scheduler : AppScheduler}
    (h : (scheduler.apps.map fun app => cstring app.name).Nodup) : DistinctNames scheduler := by
  intro first second hfirst hsecond hname
  rw [name_eq hfirst, name_eq hsecond] at hname
  refine UInt8.toNat_inj.mp ((@List.Nodup.getElem_inj_iff _ _ h first.toNat
    (by rwa [List.length_map]) second.toNat (by rwa [List.length_map])).mp ?_)
  rw [List.getElem_map, List.getElem_map]
  exact hname

/-- What restoring never touches: the apps, their names and their descriptors. -/
structure Framed (scheduler next : AppScheduler) : Prop where
  count : next.count = scheduler.count
  name : ∀ appIndex, next.name appIndex = scheduler.name appIndex
  descriptors : ∀ appIndex, next.descriptors appIndex = scheduler.descriptors appIndex

theorem Framed.refl (scheduler : AppScheduler) : Framed scheduler scheduler :=
  ⟨rfl, fun _ => rfl, fun _ => rfl⟩

theorem Framed.trans {first second third : AppScheduler} (h : Framed first second)
    (hnext : Framed second third) : Framed first third :=
  ⟨hnext.count.trans h.count, fun appIndex => (hnext.name appIndex).trans (h.name appIndex),
    fun appIndex => (hnext.descriptors appIndex).trans (h.descriptors appIndex)⟩

theorem Framed.validateSetting {scheduler next : AppScheduler} (h : Framed scheduler next)
    (appIndex : UInt8) (key : Bytes) (value : SettingValue) :
    next.validateSetting appIndex key value = scheduler.validateSetting appIndex key value := by
  rw [AppScheduler.validateSetting_eq, AppScheduler.validateSetting_eq, h.descriptors]

theorem Framed.distinctNames {scheduler next : AppScheduler} (h : Framed scheduler next)
    (hdistinct : DistinctNames scheduler) : DistinctNames next := by
  intro first second hfirst hsecond hname
  rw [h.count] at hfirst hsecond
  rw [h.name, h.name] at hname
  exact hdistinct first second hfirst hsecond hname

/-- A record addresses a setting when it has its app's name and its key. -/
def Addresses (scheduler : AppScheduler) (appIndex : UInt8) (key : Bytes)
    (record : SettingRecord) : Prop :=
  cstring (scheduler.name appIndex) = cstring record.appName ∧ cstring record.key = cstring key

/-- What one record does. -/
theorem restoreRecord_cases (scheduler : AppScheduler) (record : SettingRecord) :
    ((∀ appIndex : UInt8, appIndex.toNat < scheduler.count →
        cstring (scheduler.name appIndex) ≠ cstring record.appName) ∧
      restoreRecord scheduler record = scheduler) ∨
    ∃ appIndex : UInt8, appIndex.toNat < scheduler.count ∧
      cstring (scheduler.name appIndex) = cstring record.appName ∧
      restoreRecord scheduler record =
        (scheduler.applySetting appIndex record.key record.value).getD scheduler := by
  rw [restoreRecord]
  split
  · rename_i hnone
    rw [List.find?_eq_none] at hnone
    refine .inl ⟨fun appIndex hlt hname => hnone appIndex.toNat (List.mem_range.mpr hlt) ?_, rfl⟩
    simpa using hname
  · rename_i i hfound
    have hlt : i < scheduler.count := List.mem_range.mp (List.mem_of_find?_eq_some hfound)
    have hname : cstring (scheduler.name (UInt8.ofNat i)) = cstring record.appName := by
      simpa using List.find?_some hfound
    have htoNat : (UInt8.ofNat i).toNat = i := by
      have hsmall : i < kMaxApps := Nat.lt_of_lt_of_le hlt scheduler.count_le
      rw [UInt8.toNat_ofNat']
      exact Nat.mod_eq_of_lt (Nat.lt_trans hsmall (by decide))
    exact .inr ⟨UInt8.ofNat i, by rwa [htoNat], hname, rfl⟩

theorem framed_restoreRecord (scheduler : AppScheduler) (record : SettingRecord) :
    Framed scheduler (restoreRecord scheduler record) := by
  rcases restoreRecord_cases scheduler record with ⟨_, hsame⟩ | ⟨target, _, _, hnext⟩
  · rw [hsame]
    exact Framed.refl scheduler
  · rw [hnext]
    cases happly : scheduler.applySetting target record.key record.value with
    | none => exact Framed.refl scheduler
    | some next =>
        have happlied := AppScheduler.applied_of_applySetting happly
        exact ⟨happlied.count, happlied.name, happlied.descriptors⟩

/-- A record leaves every setting alone that it does not address. -/
theorem restoreRecord_settingAt_of_not {scheduler : AppScheduler} {appIndex : UInt8} {key : Bytes}
    {record : SettingRecord} (h : ¬ Addresses scheduler appIndex key record) :
    (restoreRecord scheduler record).settingAt appIndex key =
      scheduler.settingAt appIndex key := by
  rcases restoreRecord_cases scheduler record with ⟨_, hsame⟩ | ⟨target, _, hname, hnext⟩
  · rw [hsame]
  · rw [hnext]
    cases happly : scheduler.applySetting target record.key record.value with
    | none => rfl
    | some next =>
        refine (AppScheduler.applied_of_applySetting happly).others appIndex key ?_
        by_cases hkey : cstring key = cstring record.key
        · refine .inl fun heq => h ⟨?_, hkey.symm⟩
          rw [heq]
          exact hname
        · exact .inr hkey

theorem settingAt_congr (scheduler : AppScheduler) (appIndex : UInt8) {first second : Bytes}
    (h : cstring first = cstring second) :
    scheduler.settingAt appIndex first = scheduler.settingAt appIndex second := by
  simp only [AppScheduler.settingAt, SettingsBag.find, h]

theorem validateSetting_congr (scheduler : AppScheduler) (appIndex : UInt8)
    {first second : Bytes} (h : cstring first = cstring second) (value : SettingValue) :
    scheduler.validateSetting appIndex first value =
      scheduler.validateSetting appIndex second value := by
  rw [AppScheduler.validateSetting_eq, AppScheduler.validateSetting_eq, h]

section

variable {scheduler : AppScheduler} {appIndex : UInt8} {key : Bytes} {record : SettingRecord}

/-- With distinct names a record reaches the app it addresses. -/
theorem restoreRecord_of_addresses (hdistinct : DistinctNames scheduler)
    (hlt : appIndex.toNat < scheduler.count) (h : Addresses scheduler appIndex key record) :
    restoreRecord scheduler record =
      (scheduler.applySetting appIndex record.key record.value).getD scheduler := by
  rcases restoreRecord_cases scheduler record with ⟨hnone, _⟩ | ⟨target, htarget, hname, hnext⟩
  · exact absurd h.1 (hnone appIndex hlt)
  · rw [hnext, hdistinct target appIndex htarget hlt (hname.trans h.1.symm)]

/-- A value that validation refuses is dropped. -/
theorem restoreRecord_settingAt_of_refused (hdistinct : DistinctNames scheduler)
    (hlt : appIndex.toNat < scheduler.count) (h : Addresses scheduler appIndex key record)
    (hrefused : scheduler.validateSetting appIndex key record.value = false) :
    (restoreRecord scheduler record).settingAt appIndex key =
      scheduler.settingAt appIndex key := by
  have hnone : scheduler.applySetting appIndex record.key record.value = none := by
    rw [← Option.isNone_iff_eq_none, ← Option.not_isSome, AppScheduler.applySetting_isSome,
      validateSetting_congr scheduler appIndex h.2, hrefused]
    rfl
  rw [restoreRecord_of_addresses hdistinct hlt h, hnone, Option.getD_none]

/-- A value that was read somewhere and passes here is read here from then on. -/
theorem restoreRecord_getSetting (hdistinct : DistinctNames scheduler)
    (hlt : appIndex.toNat < scheduler.count) (h : Addresses scheduler appIndex key record)
    {source : Binding} (hvalue : record.value = source.read)
    (haccepts : scheduler.validateSetting appIndex key record.value = true) :
    (restoreRecord scheduler record).getSetting appIndex key = some record.value := by
  have hsome : (scheduler.applySetting appIndex record.key record.value).isSome = true := by
    rw [AppScheduler.applySetting_isSome, validateSetting_congr scheduler appIndex h.2, haccepts]
  obtain ⟨next, hnext⟩ := Option.isSome_iff_exists.mp hsome
  obtain ⟨binding, hbinding, _, hafter⟩ := (AppScheduler.applied_of_applySetting hnext).written
  rw [restoreRecord_of_addresses hdistinct hlt h, hnext, Option.getD_some,
    AppScheduler.getSetting_eq, ← settingAt_congr next appIndex h.2, hafter, Option.map_some]
  simp only [hvalue, Binding.read_write_read]

end

theorem Framed.addresses_iff {scheduler next : AppScheduler} (h : Framed scheduler next)
    (appIndex : UInt8) (key : Bytes) (record : SettingRecord) :
    Addresses next appIndex key record ↔ Addresses scheduler appIndex key record := by
  rw [Addresses, Addresses, h.name]

/-! ## All records restored -/

theorem framed_foldl_restoreRecord (records : List SettingRecord) (scheduler : AppScheduler) :
    Framed scheduler (records.foldl restoreRecord scheduler) := by
  induction records generalizing scheduler with
  | nil => exact Framed.refl scheduler
  | cons record rest ih => exact (framed_restoreRecord scheduler record).trans (ih _)

section

variable {scheduler : AppScheduler} {appIndex : UInt8} {key : Bytes}
  {records : List SettingRecord}

/-- A setting for which no stored value passes keeps its own. -/
theorem foldl_restoreRecord_settingAt (hdistinct : DistinctNames scheduler)
    (hlt : appIndex.toNat < scheduler.count)
    (hrefused : ∀ record ∈ records, Addresses scheduler appIndex key record →
      scheduler.validateSetting appIndex key record.value = false) :
    (records.foldl restoreRecord scheduler).settingAt appIndex key =
      scheduler.settingAt appIndex key := by
  induction records generalizing scheduler with
  | nil => rfl
  | cons record rest ih =>
      have hframed := framed_restoreRecord scheduler record
      have hhead : (restoreRecord scheduler record).settingAt appIndex key =
          scheduler.settingAt appIndex key := by
        by_cases h : Addresses scheduler appIndex key record
        · exact restoreRecord_settingAt_of_refused hdistinct hlt h
            (hrefused record List.mem_cons_self h)
        · exact restoreRecord_settingAt_of_not h
      refine (ih (hframed.distinctNames hdistinct) (by rwa [hframed.count]) ?_).trans hhead
      intro other hother haddresses
      rw [hframed.validateSetting]
      exact hrefused other (List.mem_cons_of_mem _ hother)
        ((hframed.addresses_iff appIndex key other).mp haddresses)

/-- A setting whose stored values are all `value` holds it afterwards, if one of them is
there or it held it before. -/
theorem foldl_restoreRecord_getSetting (hdistinct : DistinctNames scheduler)
    (hlt : appIndex.toNat < scheduler.count) {source : Binding}
    (haccepts : scheduler.validateSetting appIndex key source.read = true)
    (hsame : ∀ record ∈ records, Addresses scheduler appIndex key record →
      record.value = source.read)
    (h : scheduler.getSetting appIndex key = some source.read ∨
      ∃ record ∈ records, Addresses scheduler appIndex key record) :
    (records.foldl restoreRecord scheduler).getSetting appIndex key = some source.read := by
  induction records generalizing scheduler with
  | nil =>
      rcases h with hheld | ⟨record, hmem, _⟩
      · exact hheld
      · cases hmem
  | cons record rest ih =>
      have hframed := framed_restoreRecord scheduler record
      refine ih (hframed.distinctNames hdistinct) (by rwa [hframed.count])
        (by rwa [hframed.validateSetting]) ?_ ?_
      · intro other hother haddresses
        exact hsame other (List.mem_cons_of_mem _ hother)
          ((hframed.addresses_iff appIndex key other).mp haddresses)
      · by_cases hhead : Addresses scheduler appIndex key record
        · have hvalue := hsame record List.mem_cons_self hhead
          refine .inl ?_
          rw [← hvalue]
          exact restoreRecord_getSetting hdistinct hlt hhead hvalue (by rwa [hvalue])
        · rcases h with hheld | ⟨other, hmem, haddresses⟩
          · refine .inl ?_
            rw [AppScheduler.getSetting_eq, restoreRecord_settingAt_of_not hhead,
              ← AppScheduler.getSetting_eq]
            exact hheld
          · rcases List.mem_cons.mp hmem with heq | hrest
            · exact absurd (heq ▸ haddresses) hhead
            · exact .inr ⟨other, hrest, (hframed.addresses_iff appIndex key other).mpr haddresses⟩

end

/-! ## What is saved -/

theorem foldl_snapshot {scheduler : AppScheduler} {slots : List (UInt8 × Bytes)}
    {records : List SettingRecord} (h : records.length + slots.length ≤ kMaxRecords) :
    slots.foldl
        (fun records slot =>
          if records.length < kMaxRecords then records ++ (readRecord scheduler slot).toList
          else records)
        records =
      records ++ slots.filterMap (readRecord scheduler) := by
  induction slots generalizing records with
  | nil => rw [List.foldl_nil, List.filterMap_nil, List.append_nil]
  | cons slot rest ih =>
      rw [List.length_cons] at h
      rw [List.foldl_cons, if_pos (by omega)]
      cases hread : readRecord scheduler slot with
      | none =>
          rw [List.filterMap_cons_none hread, Option.toList_none, List.append_nil]
          exact ih (by omega)
      | some record =>
          rw [List.filterMap_cons_some hread, Option.toList_some, ih, List.append_assoc]
          · rfl
          · rw [List.length_append, List.length_singleton]
            omega

/-- Every setting is in the blob when there are no more than it has room for. -/
theorem snapshot_eq {scheduler : AppScheduler}
    (h : (settingSlots scheduler).length ≤ kMaxRecords) :
    snapshot scheduler = liveRecords scheduler := by
  rw [snapshot, foldl_snapshot (by rwa [List.length_nil, Nat.zero_add]), List.nil_append]
  rfl

theorem fits_of_mem_liveRecords {scheduler : AppScheduler} {record : SettingRecord}
    (h : record ∈ liveRecords scheduler) : record.Fits := by
  have hzero : ∀ src : Bytes, (0 : Byte) ∉ copyCapped src := fun src hmem =>
    zero_not_mem_cstring src (List.mem_of_mem_take hmem)
  have hlength : ∀ src : Bytes, (copyCapped src).length < kNameCap := fun src =>
    Nat.lt_of_le_of_lt (List.length_take_le _ _) (by decide)
  obtain ⟨slot, _, hread⟩ := List.mem_filterMap.mp h
  obtain ⟨value, _, rfl⟩ := Option.map_eq_some_iff.mp hread
  exact ⟨hzero _, hlength _, hzero _, hlength _⟩

/-- What the next image does with the blob this one saved. -/
theorem begin_saveAll (padding : Nat → Byte × Byte) {scheduler : AppScheduler}
    (h : (settingSlots scheduler).length ≤ kMaxRecords) :
    ∃ blob, saveAll padding scheduler = some blob ∧
      ∀ other, begin (some blob) other =
        (liveRecords scheduler).foldl restoreRecord other := by
  have hlength : (liveRecords scheduler).length ≤ kMaxRecords :=
    (List.length_filterMap_le _ _).trans h
  have hcount : (UInt16.ofNat (liveRecords scheduler).length).toNat =
      (liveRecords scheduler).length := by
    rw [UInt16.toNat_ofNat']
    exact Nat.mod_eq_of_lt (Nat.lt_of_le_of_lt hlength (by decide))
  obtain ⟨blob, hsaved, _, hparsed⟩ := @parse_serialize kMagic kVersion
    (encodeRecords padding (liveRecords scheduler)) kRecordSize kMaxRecords
    (UInt16.ofNat (liveRecords scheduler).length) _ (Nat.le_refl _) (by rwa [hcount])
    (by rw [length_encodeRecords, hcount])
  refine ⟨blob, ?_, fun other => ?_⟩
  · rw [saveAll, snapshot_eq h]
    exact hsaved
  · rw [begin, load]
    simp only [hparsed, hcount,
      decodeRecords_encodeRecords padding fun _ hmem => fits_of_mem_liveRecords hmem]

/-! ## Across the update -/

/-- Its app names are distinct, they and its keys are shorter than their fields, and its
settings are no more than a blob holds. -/
structure Storable (scheduler : AppScheduler) : Prop where
  distinct : DistinctNames scheduler
  names : ∀ appIndex : UInt8, (cstring (scheduler.name appIndex)).length < kNameCap
  keys : ∀ slot ∈ settingSlots scheduler, (cstring slot.2).length < kNameCap
  settings : (settingSlots scheduler).length ≤ kMaxRecords

/-- An app of that name has a setting of that key with that value. -/
def Holds (scheduler : AppScheduler) (name key : Bytes) (value : SettingValue) : Prop :=
  ∃ appIndex : UInt8, appIndex.toNat < scheduler.count ∧
    cstring (scheduler.name appIndex) = cstring name ∧
    scheduler.getSetting appIndex key = some value

section

variable {scheduler : AppScheduler} {name key : Bytes} {value : SettingValue}

theorem Holds.read (h : Holds scheduler name key value) :
    ∃ source : Binding, value = source.read := by
  obtain ⟨appIndex, _, _, hget⟩ := h
  rw [AppScheduler.getSetting_eq] at hget
  obtain ⟨source, _, hread⟩ := Option.map_eq_some_iff.mp hget
  exact ⟨source, hread.symm⟩

theorem Holds.unique {other : SettingValue} (hdistinct : DistinctNames scheduler)
    (h : Holds scheduler name key value) (hother : Holds scheduler name key other) :
    value = other := by
  obtain ⟨first, hfirst, hname, hget⟩ := h
  obtain ⟨second, hsecond, hnameSecond, hgetSecond⟩ := hother
  rw [hdistinct first second hfirst hsecond (hname.trans hnameSecond.symm)] at hget
  exact Option.some.inj (hget.symm.trans hgetSecond)

/-- A setting that is found is among those `saveAll` visits. -/
theorem exists_slot {appIndex : UInt8} (hlt : appIndex.toNat < scheduler.count)
    (h : scheduler.getSetting appIndex key = some value) :
    ∃ slot ∈ settingSlots scheduler, slot.1 = appIndex ∧ cstring slot.2 = cstring key := by
  obtain ⟨bag, hbag, hget⟩ := Option.bind_eq_some_iff.mp h
  obtain ⟨binding, hfind, _⟩ := Option.map_eq_some_iff.mp hget
  have hkey : binding.descriptor.key = cstring key := by simpa using List.find?_some hfind
  have hmem : binding.descriptor ∈ scheduler.descriptors appIndex := by
    rw [AppScheduler.descriptors, hbag]
    exact List.mem_map_of_mem (List.mem_of_find?_eq_some hfind)
  refine ⟨(appIndex, binding.descriptor.key), ?_, rfl, ?_⟩
  · refine List.mem_flatMap.mpr ⟨appIndex.toNat, List.mem_range.mpr hlt, ?_⟩
    rw [UInt8.ofNat_toNat]
    exact List.mem_map_of_mem (f := fun descriptor => (appIndex, descriptor.key)) hmem
  · rw [hkey, cstring_cstring]

/-- The blob holds exactly the values the settings have. -/
theorem holds_iff_mem_liveRecords (h : Storable scheduler) :
    Holds scheduler name key value ↔
      ∃ record ∈ liveRecords scheduler, cstring record.appName = cstring name ∧
        cstring record.key = cstring key ∧ record.value = value := by
  have hcopy : ∀ src : Bytes, (cstring src).length < kNameCap → copyCapped src = cstring src :=
    fun src hshort => List.take_of_length_le (Nat.le_sub_one_of_lt hshort)
  constructor
  · rintro ⟨appIndex, hlt, hname, hget⟩
    obtain ⟨slot, hslot, happ, hkey⟩ := exists_slot hlt hget
    subst happ
    refine ⟨⟨copyCapped (scheduler.name slot.1), copyCapped slot.2, value⟩,
      List.mem_filterMap.mpr ⟨slot, hslot, ?_⟩, ?_, ?_, rfl⟩
    · rw [readRecord, AppScheduler.getSetting_eq, settingAt_congr scheduler slot.1 hkey,
        ← AppScheduler.getSetting_eq, hget, Option.map_some]
    · rw [hcopy _ (h.names _), cstring_cstring, hname]
    · rw [hcopy _ (h.keys slot hslot), cstring_cstring, hkey]
  · rintro ⟨record, hmem, hname, hkey, rfl⟩
    obtain ⟨slot, hslot, hread⟩ := List.mem_filterMap.mp hmem
    obtain ⟨value, hget, rfl⟩ := Option.map_eq_some_iff.mp hread
    simp only [hcopy _ (h.names _), hcopy _ (h.keys slot hslot), cstring_cstring] at hname hkey
    refine ⟨slot.1, ?_, hname, ?_⟩
    · obtain ⟨i, hi, hdescriptor⟩ := List.mem_flatMap.mp hslot
      obtain ⟨_, _, rfl⟩ := List.mem_map.mp hdescriptor
      exact Nat.lt_of_le_of_lt (by rw [UInt8.toNat_ofNat']; exact Nat.mod_le _ _)
        (List.mem_range.mp hi)
    · rw [AppScheduler.getSetting_eq, ← settingAt_congr scheduler slot.1 hkey,
        ← AppScheduler.getSetting_eq]
      exact hget

end

/-- After `saveAll` of one image and `begin` of the next, a setting has the value the
setting of the same app name and key had, if that passes; every other is as it was. -/
theorem settings_survive (padding : Nat → Byte × Byte) {old new : AppScheduler}
    (hold : Storable old) (hnew : DistinctNames new) :
    ∃ blob, saveAll padding old = some blob ∧ Framed new (begin (some blob) new) ∧
      ∀ appIndex key binding, new.settingAt appIndex key = some binding →
        (∀ value, Holds old (new.name appIndex) key value →
          new.validateSetting appIndex key value = true →
            (begin (some blob) new).getSetting appIndex key = some value) ∧
        ((∀ value, Holds old (new.name appIndex) key value →
          new.validateSetting appIndex key value = false) →
            (begin (some blob) new).settingAt appIndex key = some binding) := by
  obtain ⟨blob, hsaved, hbegin⟩ := begin_saveAll padding hold.settings
  refine ⟨blob, hsaved, ?_, fun appIndex key binding hbinding => ?_⟩
  · rw [hbegin]
    exact framed_foldl_restoreRecord _ _
  · have hlt : appIndex.toNat < new.count := by
      obtain ⟨bag, hbag, _⟩ := Option.bind_eq_some_iff.mp hbinding
      obtain ⟨app, happ, _⟩ := Option.bind_eq_some_iff.mp hbag
      exact (List.getElem?_eq_some_iff.mp happ).1
    -- an addressed record holds what the old image held
    have hstored : ∀ record ∈ liveRecords old, Addresses new appIndex key record →
        Holds old (new.name appIndex) key record.value := fun record hmem haddresses =>
      (holds_iff_mem_liveRecords hold).mpr
        ⟨record, hmem, haddresses.1.symm, haddresses.2, rfl⟩
    rw [hbegin]
    constructor
    · intro value hholds haccepts
      obtain ⟨source, rfl⟩ := hholds.read
      obtain ⟨record, hmem, hname, hkey, _⟩ := (holds_iff_mem_liveRecords hold).mp hholds
      exact foldl_restoreRecord_getSetting hnew hlt haccepts
        (fun other hother haddresses =>
          (hstored other hother haddresses).unique hold.distinct hholds)
        (.inr ⟨record, hmem, hname.symm, hkey⟩)
    · intro hrefused
      rw [foldl_restoreRecord_settingAt hnew hlt fun record hmem haddresses =>
        hrefused record.value (hstored record hmem haddresses)]
      exact hbinding

def switch : SettingDescriptor := ⟨ascii "on", .kBool, 0, 0, 0⟩

theorem switch_agrees (on : Bool) : (Storage.boolean on).Agrees switch := rfl

theorem length_singleton_lt (binding : Binding) : [binding].length < 256 := by
  rw [List.length_singleton]
  decide

/-- An app with one switch. -/
def switchApp (name : Bytes) (on : Bool) : App :=
  ⟨name, some ⟨[⟨switch, .boolean on, switch_agrees on⟩], length_singleton_lt _⟩⟩

/-- The old image, its only app switched on. -/
def oldImage : AppScheduler where
  apps := [switchApp (ascii "flags") true]
  activeIndex := 0
  count_le := by decide

/-- The new image has another app with that key in front of it. -/
def newImage : AppScheduler where
  apps := [switchApp (ascii "news") false, switchApp (ascii "flags") false]
  activeIndex := 0
  count_le := by decide

theorem storable_oldImage : Storable oldImage where
  distinct := distinctNames_of_nodup (by decide)
  names := length_name_lt (by decide) (by decide)
  keys := by decide
  settings := by decide

theorem settings_survive_reordered :
    ∃ blob, saveAll (fun _ => (0xA5, 0x5A)) oldImage = some blob ∧
      Framed newImage (begin (some blob) newImage) ∧
      ∀ appIndex key binding, newImage.settingAt appIndex key = some binding →
        (∀ value, Holds oldImage (newImage.name appIndex) key value →
          newImage.validateSetting appIndex key value = true →
            (begin (some blob) newImage).getSetting appIndex key = some value) ∧
        ((∀ value, Holds oldImage (newImage.name appIndex) key value →
          newImage.validateSetting appIndex key value = false) →
            (begin (some blob) newImage).settingAt appIndex key = some binding) :=
  settings_survive _ storable_oldImage (distinctNames_of_nodup (by decide))

end AppSettingsStore

end MatrixFaces.Storage
