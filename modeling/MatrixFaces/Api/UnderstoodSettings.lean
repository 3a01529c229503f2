import Mathlib.Data.List.Perm.Subperm
import MatrixFaces.Api.Access
import MatrixFaces.Api.SettingsPost
import MatrixFaces.Apps.SettingAt

set_option autoImplicit false

/-!
# Which settings requests are accepted

`handleSetAppSettings` walks through the app's own settings, so it looks at no member of
the body that it does not know.

`Understood` says when a body is: there is a member, and every live one names a setting of
the app and has a value that the setting takes.  `AllOrNothing` is what the interface promises: an
understood body is posted whole, any other is refused and nothing is posted.

The main result is `allOrNothing_iff`, for every app, body and state with room for the
settings.  Its condition is on the body: it mentions no setting of the app, or one that fails,
or no member of it is passed over and no text hides characters behind a NUL; and an
understood body names no key that the app declares twice.

`unknown_member_accepted` is a body with a member too many.
-/

namespace MatrixFaces.Api

open MatrixFaces.Foundation
open MatrixFaces.Apps
open MatrixFaces.Board
open Access

/-! ## What a body asks for -/

/-- The members that are not null. -/
def live (members : List (Bytes × Json)) : List (Bytes × Json) :=
  members.filter fun member => !member.2.isNull

/-- The setting of that name. -/
def settingNamed (descriptors : List SettingDescriptor) (key : Bytes) : Option SettingDescriptor :=
  descriptors.find? fun descriptor => descriptor.key == key

/-- A value of the setting's type, within its range or length. -/
def takes (descriptor : SettingDescriptor) (raw : Json) : Bool :=
  match descriptor.type, raw with
  | .kBool, .bool _ => true
  | .kInt, .int value | .kColor, .int value =>
      descriptor.intMin.toInt ≤ value && value ≤ descriptor.intMax.toInt
  | .kString, .string text => text.length ≤ descriptor.maxLen
  | _, _ => false

/-- The body names at least one value, and only settings of the app with values they take.  A
member that is null names none. -/
def Understood (descriptors : List SettingDescriptor) (members : List (Bytes × Json)) : Prop :=
  live members ≠ [] ∧ ∀ member ∈ live members, ∃ descriptor,
    settingNamed descriptors member.1 = some descriptor ∧ takes descriptor member.2 = true

/-- The command for one member. -/
def commandFor (appIndex : UInt8) (descriptors : List SettingDescriptor) (member : Bytes × Json) :
    Command :=
  match settingNamed descriptors member.1 with
  | none => Command.zero
  | some descriptor =>
      Command.applySetting appIndex descriptor.key (readSettingValue member.2 descriptor).2

/-- All of an understood body is posted, one command for each member, and nothing of any
other, which is answered 400. -/
def AllOrNothing (appIndex : UInt8) (descriptors : List SettingDescriptor)
    (members : List (Bytes × Json)) (handled : Handled) : Prop :=
  (Understood descriptors members →
    handled.2.1.Perm
      ((live members).map fun member => .posted (commandFor appIndex descriptors member) none)) ∧
  (¬ Understood descriptors members →
    handled.2.1 = [] ∧ ∃ code, handled.2.2 = .settings (.error 400 code))

/-- No part of a text that is too long stands behind a NUL, where the handler does not see it. -/
def HidesNothing (descriptor : SettingDescriptor) : Json → Prop
  | .string text => (cstring text).length ≤ descriptor.maxLen → text.length ≤ descriptor.maxLen
  | _ => True

/-! ## Members by their keys -/

theorem get_of_mem {members : List (Bytes × Json)} (h : (members.map Prod.fst).Nodup)
    {member : Bytes × Json} (hmember : member ∈ members) :
    (Json.object members).get member.1 = member.2 := by
  induction members with
  | nil => cases hmember
  | cons first rest ih =>
      rw [List.map_cons, List.nodup_cons] at h
      rw [Json.get, List.find?_cons]
      rcases List.mem_cons.mp hmember with rfl | hrest
      · rw [beq_self_eq_true]
      · have hne : (first.1 == member.1) = false := by
          rw [beq_eq_false_iff_ne]
          intro heq
          exact h.1 (heq ▸ List.mem_map_of_mem hrest)
        rw [hne]
        exact ih h.2 hrest

theorem mem_of_get {members : List (Bytes × Json)} {key : Bytes}
    (h : ((Json.object members).get key).isNull = false) :
    (key, (Json.object members).get key) ∈ members := by
  rw [Json.get] at h ⊢
  cases hfound : members.find? fun member => member.1 == key with
  | none =>
      rw [hfound] at h
      cases h
  | some member =>
      have hkey : member.1 = key := by simpa using List.find?_some hfound
      simp only
      rw [← hkey]
      exact List.mem_of_find?_eq_some hfound

/-- The settings a body mentions are those that a live member names. -/
theorem mem_mentioned_iff {members : List (Bytes × Json)} (h : (members.map Prod.fst).Nodup)
    {descriptors : List SettingDescriptor} {descriptor : SettingDescriptor} :
    descriptor ∈ mentioned (.object members) descriptors ↔
      descriptor ∈ descriptors ∧ descriptor.key ∈ (live members).map Prod.fst := by
  rw [mentioned, List.mem_filter, List.mem_map]
  refine and_congr_right fun _ => ⟨fun hlive => ?_, ?_⟩
  · have hlive : ((Json.object members).get descriptor.key).isNull = false := by simpa using hlive
    refine ⟨_, List.mem_filter.mpr ⟨mem_of_get hlive, ?_⟩, rfl⟩
    rw [hlive]
    rfl
  · rintro ⟨member, hmember, hkey⟩
    obtain ⟨hmem, hlive⟩ := List.mem_filter.mp hmember
    rw [← hkey, get_of_mem h hmem]
    exact hlive

theorem nodup_live {members : List (Bytes × Json)} (h : (members.map Prod.fst).Nodup) :
    ((live members).map Prod.fst).Nodup :=
  h.sublist (List.filter_sublist.map _)

/-! ## One value -/

/-- The tests of pass 1, once the setting was found. -/
def Passes (descriptor : SettingDescriptor) (raw : Json) : Prop :=
  (readSettingValue raw descriptor).1 = true ∧
    descriptor.accepts (readSettingValue raw descriptor).2 = true

theorem text_stringField {text : Bytes} (h : (cstring text).length < kStringCap)
    (type : SettingType) (flag : Bool) (number : Int32) :
    (⟨type, flag, number, stringField (cstring text)⟩ : SettingValue).text = cstring text :=
  cstring_padded (zero_not_mem_cstring text) h

/-- A range is tested after the value has been narrowed, which loses nothing inside it. -/
theorem inRange_iff {low high : Int32} {value : Int} :
    (low.toInt ≤ value ∧ value ≤ high.toInt) ↔
      (-2147483648 ≤ value ∧ value ≤ 2147483647) ∧
        low ≤ Int32.ofInt value ∧ Int32.ofInt value ≤ high := by
  have hlow := low.le_toInt
  have hhigh := high.toInt_lt
  constructor
  · rintro ⟨hmin, hmax⟩
    have hvalue : (Int32.ofInt value).toInt = value :=
      Int32.toInt_ofInt_of_le (by omega) (by omega)
    rw [Int32.le_iff_toInt_le, Int32.le_iff_toInt_le, hvalue]
    exact ⟨⟨by omega, by omega⟩, hmin, hmax⟩
  · rintro ⟨⟨hmin, hmax⟩, hrange⟩
    have hvalue : (Int32.ofInt value).toInt = value :=
      Int32.toInt_ofInt_of_le (by omega) (by omega)
    rwa [Int32.le_iff_toInt_le, Int32.le_iff_toInt_le, hvalue] at hrange

/-- A setting takes what passes, but for a text whose tail the handler does not see. -/
theorem takes_iff {descriptor : SettingDescriptor}
    (hcap : descriptor.type = .kString → descriptor.maxLen < kStringCap) (raw : Json) :
    takes descriptor raw = true ↔ Passes descriptor raw ∧ HidesNothing descriptor raw := by
  obtain ⟨key, type, low, high, maxLen⟩ := descriptor
  cases type with
  | kBool => cases raw <;> simp [takes, Passes, HidesNothing, readSettingValue, Json.bool?,
      SettingDescriptor.accepts]
  | kInt | kColor =>
      cases raw with
      | int value =>
          simp only [takes, Passes, HidesNothing, readSettingValue, Json.int32?,
            SettingDescriptor.accepts, Bool.and_eq_true, decide_eq_true_eq, and_true, inRange_iff]
          by_cases h : -2147483648 ≤ value ∧ value ≤ 2147483647
          · simp [h]
          · simp [h]
      | null | bool | float | string | array | object =>
          simp [takes, Passes, readSettingValue, Json.int32?]
  | kString =>
      cases raw with
      | string text =>
          have hshort : (cstring text).length ≤ text.length := (List.takeWhile_prefix _).length_le
          have hfits : maxLen < kStringCap := hcap rfl
          simp only [takes, Passes, HidesNothing, readSettingValue, Json.string?, decide_eq_true_eq]
          by_cases hlong : (cstring text).length ≥ kStringCap
          · rw [if_pos hlong]
            simp only [Bool.false_eq_true, false_and, iff_false]
            omega
          · rw [if_neg hlong]
            simp only [SettingDescriptor.accepts, text_stringField (Nat.lt_of_not_le hlong),
              beq_self_eq_true, Bool.true_and, decide_eq_true_eq, true_and]
            omega
      | null | bool | float | int | array | object =>
          simp [takes, Passes, readSettingValue, Json.string?]

/-! ## The app's settings -/

theorem maxLen_lt_of_mem {scheduler : AppScheduler} {appIndex : UInt8}
    {descriptor : SettingDescriptor} (h : descriptor ∈ scheduler.descriptors appIndex)
    (htype : descriptor.type = .kString) : descriptor.maxLen < kStringCap := by
  rw [AppScheduler.descriptors] at h
  split at h
  · cases h
  · obtain ⟨binding, -, rfl⟩ := List.mem_map.mp h
    have hagrees := binding.agrees
    cases hstorage : binding.storage with
    | text value =>
        rw [hstorage] at hagrees
        exact hagrees.2.2.1
    | boolean value =>
        rw [hstorage] at hagrees
        exact absurd (hagrees.symm.trans htype) (by decide)
    | integer value =>
        rw [hstorage] at hagrees
        rcases hagrees with hint | hcolor
        · exact absurd (hint.symm.trans htype) (by decide)
        · exact absurd (hcolor.symm.trans htype) (by decide)

/-- The first setting of a name is tested on what it reads itself. -/
theorem passesValidation_first {scheduler : AppScheduler} {appIndex : UInt8} {body : Json}
    {key : Bytes} {descriptor : SettingDescriptor}
    (hzero : (0 : Byte) ∉ descriptor.key)
    (hfirst : settingNamed (scheduler.descriptors appIndex) key = some descriptor) :
    passesValidation scheduler appIndex body descriptor = true ↔
      Passes descriptor (body.get descriptor.key) := by
  have hkey : descriptor.key = key := by simpa using List.find?_some hfirst
  rw [passesValidation, Bool.and_eq_true, Passes, AppScheduler.validateSetting_eq,
    cstring_of_not_mem hzero, hkey]
  rw [settingNamed] at hfirst
  rw [hfirst]

section

variable {libs : Libraries} {exchange : Exchange} {wildcard : Bytes} {access : Access}
  {appIndex : UInt8} {members : List (Bytes × Json)}

/-- The settings of the addressed app that the body mentions. -/
def named (exchange : Exchange) (appIndex : UInt8) (members : List (Bytes × Json)) :
    List SettingDescriptor :=
  mentioned (.object members) (exchange.scheduler.descriptors appIndex)

/-- Every setting the body mentions passes. -/
def allPass (exchange : Exchange) (appIndex : UInt8) (members : List (Bytes × Json)) : Bool :=
  (named exchange appIndex members).all
    (passesValidation exchange.scheduler appIndex (.object members))

/-- What the loop posts for the settings the body mentions. -/
def postedFor (exchange : Exchange) (appIndex : UInt8) (members : List (Bytes × Json)) :
    List Effect :=
  (named exchange appIndex members).map fun descriptor =>
    .posted (Command.applySetting appIndex descriptor.key
      (readSettingValue ((Json.object members).get descriptor.key) descriptor).2) none

theorem prepareSettings_eq (happ : resolveAppIndex wildcard exchange.scheduler = .ok appIndex) :
    prepareSettings exchange.scheduler wildcard (some (.object members)) =
      if allPass exchange appIndex members = false then .error (.error 400 "invalid_setting_value")
      else if named exchange appIndex members = [] then .error (.error 400 "no_recognized_settings")
      else
        .ok (appIndex,
          ((named exchange appIndex members).take kCommandQueueDepth).map
            (acceptedSetting (.object members)),
          decide (kCommandQueueDepth < (named exchange appIndex members).length)) := by
  rw [prepareSettings, happ]
  rfl

/-- A body that mentions a setting which fails, or none at all, is answered 400. -/
theorem handle_of_refused (access : Access)
    (happ : resolveAppIndex wildcard exchange.scheduler = .ok appIndex)
    (hbody : parseJsonBody libs exchange.request = some (.object members))
    (h : named exchange appIndex members = [] ∨ allPass exchange appIndex members = false) :
    ∃ code, handleSetAppSettings libs exchange wildcard access =
      (access, [], .settings (.error 400 code)) := by
  rw [handleSetAppSettings, hbody, prepareSettings_eq happ]
  by_cases hpass : allPass exchange appIndex members = false
  · rw [if_pos hpass]
    exact ⟨_, rfl⟩
  · rw [if_neg hpass, if_pos (h.resolve_right hpass)]
    exact ⟨_, rfl⟩

/-- Any other body is posted, or is more than fits and posts nothing. -/
theorem handle_of_passed (happ : resolveAppIndex wildcard exchange.scheduler = .ok appIndex)
    (hbody : parseJsonBody libs exchange.request = some (.object members))
    (hfree : exchange.commandFree ≤ kCommandQueueDepth)
    (hsome : named exchange appIndex members ≠ [])
    (hpass : allPass exchange appIndex members = true) :
    handleSetAppSettings libs exchange wildcard access =
      if exchange.commandFree < (named exchange appIndex members).length then
        access.refuse 503 "Service Unavailable" "busy"
      else
        (access, postedFor exchange appIndex members,
          .settings (sendAppSettings exchange.scheduler appIndex
            ((named exchange appIndex members).map (acceptedSetting (.object members))))) := by
  rw [handleSetAppSettings, hbody, prepareSettings_eq happ, hpass, if_neg (by decide), if_neg hsome]
  simp only [decide_eq_true_eq, List.length_map, List.length_take]
  by_cases hlong : exchange.commandFree < (named exchange appIndex members).length
  · rw [if_pos hlong, if_pos (by omega)]
  · rw [if_neg hlong, if_neg (by omega), List.take_of_length_le (by omega), postedFor, List.map_map]
    rfl

/-! ## Whole or not at all -/

theorem mem_named_of_first (hmembers : (members.map Prod.fst).Nodup) {member : Bytes × Json}
    (hmember : member ∈ live members) {descriptor : SettingDescriptor}
    (hfirst : settingNamed (exchange.scheduler.descriptors appIndex) member.1 = some descriptor) :
    descriptor.key = member.1 ∧ descriptor ∈ named exchange appIndex members := by
  have hkey : descriptor.key = member.1 := by simpa using List.find?_some hfirst
  refine ⟨hkey, (mem_mentioned_iff hmembers).mpr ⟨List.mem_of_find?_eq_some hfirst, ?_⟩⟩
  rw [hkey]
  exact List.mem_map_of_mem hmember

theorem mem_keys_of_named (hmembers : (members.map Prod.fst).Nodup) {key : Bytes}
    (h : key ∈ (named exchange appIndex members).map SettingDescriptor.key) :
    key ∈ (live members).map Prod.fst := by
  obtain ⟨descriptor, hdescriptor, rfl⟩ := List.mem_map.mp h
  exact ((mem_mentioned_iff hmembers).mp hdescriptor).2

theorem mem_named_of_understood (hmembers : (members.map Prod.fst).Nodup)
    (h : Understood (exchange.scheduler.descriptors appIndex) members) {key : Bytes}
    (hkey : key ∈ (live members).map Prod.fst) :
    key ∈ (named exchange appIndex members).map SettingDescriptor.key := by
  obtain ⟨member, hmember, rfl⟩ := List.mem_map.mp hkey
  obtain ⟨descriptor, hfirst, -⟩ := h.2 member hmember
  obtain ⟨hname, hnamed⟩ := mem_named_of_first hmembers hmember hfirst
  exact List.mem_map.mpr ⟨descriptor, hnamed, hname⟩

/-- As many settings as live members: every key is declared once. -/
theorem perm_of_length (hmembers : (members.map Prod.fst).Nodup)
    (h : Understood (exchange.scheduler.descriptors appIndex) members)
    (hlength : (named exchange appIndex members).length ≤ (live members).length) :
    ((named exchange appIndex members).map SettingDescriptor.key).Perm
      ((live members).map Prod.fst) := by
  have hsub : ((live members).map Prod.fst).Subperm
      ((named exchange appIndex members).map SettingDescriptor.key) :=
    List.subperm_of_subset (nodup_live hmembers)
      fun _ hkey => mem_named_of_understood hmembers h hkey
  refine (hsub.perm_of_length_le ?_).symm
  rwa [List.length_map, List.length_map]

theorem perm_of_distinct (hmembers : (members.map Prod.fst).Nodup)
    (h : Understood (exchange.scheduler.descriptors appIndex) members)
    (hdistinct : ((named exchange appIndex members).map SettingDescriptor.key).Nodup) :
    ((named exchange appIndex members).map SettingDescriptor.key).Perm
      ((live members).map Prod.fst) :=
  (List.perm_ext_iff_of_nodup hdistinct (nodup_live hmembers)).mpr fun _ =>
    ⟨mem_keys_of_named hmembers, mem_named_of_understood hmembers h⟩

/-- A setting whose key no other mentioned setting has is the first of that name. -/
theorem first_of_named (hmembers : (members.map Prod.fst).Nodup)
    (hdistinct : ((named exchange appIndex members).map SettingDescriptor.key).Nodup)
    {descriptor : SettingDescriptor} (h : descriptor ∈ named exchange appIndex members) :
    settingNamed (exchange.scheduler.descriptors appIndex) descriptor.key = some descriptor := by
  obtain ⟨hmem, hkey⟩ := (mem_mentioned_iff hmembers).mp h
  obtain ⟨member, hmember, hname⟩ := List.mem_map.mp hkey
  cases hfirst : settingNamed (exchange.scheduler.descriptors appIndex) descriptor.key with
  | none =>
      have hnone := List.find?_eq_none.mp hfirst descriptor hmem
      exact absurd (beq_self_eq_true _) hnone
  | some first =>
      rw [← hname] at hfirst
      obtain ⟨hsame, hnamed⟩ := mem_named_of_first hmembers hmember hfirst
      rw [List.inj_on_of_nodup_map hdistinct hnamed h (hsame.trans hname)]

/-- With its keys declared once, what is posted for a setting is the command of its member. -/
theorem postedFor_perm (hmembers : (members.map Prod.fst).Nodup)
    (h : Understood (exchange.scheduler.descriptors appIndex) members)
    (hdistinct : ((named exchange appIndex members).map SettingDescriptor.key).Nodup) :
    (postedFor exchange appIndex members).Perm
      ((live members).map fun member =>
        .posted (commandFor appIndex (exchange.scheduler.descriptors appIndex) member) none) := by
  let command (key : Bytes) : Effect :=
    .posted (commandFor appIndex (exchange.scheduler.descriptors appIndex)
      (key, (Json.object members).get key)) none
  have hposted : postedFor exchange appIndex members =
      ((named exchange appIndex members).map SettingDescriptor.key).map command := by
    rw [postedFor, List.map_map]
    refine List.map_congr_left fun descriptor hdescriptor => ?_
    simp only [Function.comp_apply, command, commandFor,
      first_of_named hmembers hdistinct hdescriptor]
  have hlive : ((live members).map fun member =>
      Effect.posted (commandFor appIndex (exchange.scheduler.descriptors appIndex) member) none) =
        ((live members).map Prod.fst).map command := by
    rw [List.map_map]
    refine List.map_congr_left fun member hmember => ?_
    simp only [Function.comp_apply, command, get_of_mem hmembers (List.mem_of_mem_filter hmember)]
  rw [hposted, hlive]
  exact (perm_of_distinct hmembers h hdistinct).map command

/-- The settings an understood body mentions all pass. -/
theorem allPass_of_understood (hmembers : (members.map Prod.fst).Nodup)
    (hkeys : ∀ descriptor ∈ exchange.scheduler.descriptors appIndex, (0 : Byte) ∉ descriptor.key)
    (h : Understood (exchange.scheduler.descriptors appIndex) members)
    (hdistinct : ((named exchange appIndex members).map SettingDescriptor.key).Nodup) :
    allPass exchange appIndex members = true := by
  refine List.all_eq_true.mpr fun descriptor hdescriptor => ?_
  obtain ⟨hmem, hkey⟩ := (mem_mentioned_iff hmembers).mp hdescriptor
  obtain ⟨member, hmember, hname⟩ := List.mem_map.mp hkey
  have hfirst := first_of_named hmembers hdistinct hdescriptor
  obtain ⟨first, hfound, htakes⟩ := h.2 member hmember
  rw [hname, hfirst] at hfound
  cases hfound
  rw [passesValidation_first (hkeys _ hmem) hfirst, ← hname,
    get_of_mem hmembers (List.mem_of_mem_filter hmember)]
  exact ((takes_iff (maxLen_lt_of_mem hmem) member.2).mp htakes).1

/-- What passes and hides nothing, with no member passed over, was understood. -/
theorem understood_of_allPass (hmembers : (members.map Prod.fst).Nodup)
    (hkeys : ∀ descriptor ∈ exchange.scheduler.descriptors appIndex, (0 : Byte) ∉ descriptor.key)
    (hsome : named exchange appIndex members ≠ [])
    (hpass : allPass exchange appIndex members = true)
    (hknown : ∀ member ∈ live members, ∃ descriptor,
      settingNamed (exchange.scheduler.descriptors appIndex) member.1 = some descriptor ∧
        HidesNothing descriptor member.2) :
    Understood (exchange.scheduler.descriptors appIndex) members := by
  refine ⟨fun hnone => ?_, fun member hmember => ?_⟩
  · obtain ⟨descriptor, hdescriptor⟩ := List.exists_mem_of_ne_nil _ hsome
    have hkey := mem_keys_of_named hmembers (List.mem_map_of_mem hdescriptor)
    rw [hnone] at hkey
    cases hkey
  · obtain ⟨descriptor, hfirst, hwhole⟩ := hknown member hmember
    obtain ⟨hname, hnamed⟩ := mem_named_of_first hmembers hmember hfirst
    have hmem := List.mem_of_find?_eq_some hfirst
    have hpasses := List.all_eq_true.mp hpass descriptor hnamed
    rw [passesValidation_first (hkeys _ hmem) hfirst, hname,
      get_of_mem hmembers (List.mem_of_mem_filter hmember)] at hpasses
    exact ⟨descriptor, hfirst, (takes_iff (maxLen_lt_of_mem hmem) member.2).mpr ⟨hpasses, hwhole⟩⟩

end

section

variable {libs : Libraries} {exchange : Exchange} {wildcard : Bytes} {appIndex : UInt8}
  {members : List (Bytes × Json)}

/-- An understood body mentions a setting, and passes no member over. -/
theorem named_ne_nil_of_understood (hmembers : (members.map Prod.fst).Nodup)
    (h : Understood (exchange.scheduler.descriptors appIndex) members) :
    named exchange appIndex members ≠ [] := by
  obtain ⟨member, hmember⟩ := List.exists_mem_of_ne_nil _ h.1
  obtain ⟨descriptor, hfirst, -⟩ := h.2 member hmember
  exact List.ne_nil_of_mem (mem_named_of_first hmembers hmember hfirst).2

theorem known_of_understood (h : Understood (exchange.scheduler.descriptors appIndex) members) :
    ∀ member ∈ live members, ∃ descriptor,
      settingNamed (exchange.scheduler.descriptors appIndex) member.1 = some descriptor ∧
        HidesNothing descriptor member.2 := by
  intro member hmember
  obtain ⟨descriptor, hfirst, htakes⟩ := h.2 member hmember
  have hcap := maxLen_lt_of_mem (List.mem_of_find?_eq_some hfirst)
  exact ⟨descriptor, hfirst, ((takes_iff hcap member.2).mp htakes).2⟩

/-- All of an understood body is posted exactly if it names no key that the app declares
twice. -/
theorem posted_iff_of_understood (access : Access)
    (happ : resolveAppIndex wildcard exchange.scheduler = .ok appIndex)
    (hbody : parseJsonBody libs exchange.request = some (.object members))
    (hmembers : (members.map Prod.fst).Nodup)
    (hkeys : ∀ descriptor ∈ exchange.scheduler.descriptors appIndex, (0 : Byte) ∉ descriptor.key)
    (hroom : (live members).length ≤ exchange.commandFree)
    (hfree : exchange.commandFree ≤ kCommandQueueDepth)
    (h : Understood (exchange.scheduler.descriptors appIndex) members) :
    (handleSetAppSettings libs exchange wildcard access).2.1.Perm ((live members).map fun member =>
        .posted (commandFor appIndex (exchange.scheduler.descriptors appIndex) member) none) ↔
      ((named exchange appIndex members).map SettingDescriptor.key).Nodup := by
  have hsome := named_ne_nil_of_understood hmembers h
  constructor
  · intro hposted
    -- something was posted, so the settings mentioned are as many as the members
    have hpass : allPass exchange appIndex members = true := by
      refine Bool.not_eq_false _ ▸ fun hfailed => ?_
      obtain ⟨code, hhandled⟩ := handle_of_refused access happ hbody (Or.inr hfailed)
      rw [hhandled] at hposted
      exact h.1 (List.map_eq_nil_iff.mp (List.nil_perm.mp hposted))
    rw [handle_of_passed happ hbody hfree hsome hpass] at hposted
    have hlength : (named exchange appIndex members).length ≤ (live members).length := by
      split at hposted
      · exact absurd (List.map_eq_nil_iff.mp (List.nil_perm.mp hposted)) h.1
      · have := hposted.length_eq
        simp only [postedFor, List.length_map] at this
        exact this.le
    exact (perm_of_length hmembers h hlength).nodup_iff.mpr (nodup_live hmembers)
  · intro hdistinct
    have hlength := (perm_of_distinct hmembers h hdistinct).length_eq
    rw [List.length_map, List.length_map] at hlength
    rw [handle_of_passed happ hbody hfree hsome
      (allPass_of_understood hmembers hkeys h hdistinct), if_neg (by omega)]
    exact postedFor_perm hmembers h hdistinct

/-- A body that is not understood is refused exactly if it mentions no setting, or one that
fails. -/
theorem refused_iff (access : Access)
    (happ : resolveAppIndex wildcard exchange.scheduler = .ok appIndex)
    (hbody : parseJsonBody libs exchange.request = some (.object members))
    (hfree : exchange.commandFree ≤ kCommandQueueDepth) :
    ((handleSetAppSettings libs exchange wildcard access).2.1 = [] ∧
        ∃ code, (handleSetAppSettings libs exchange wildcard access).2.2 =
          .settings (.error 400 code)) ↔
      named exchange appIndex members = [] ∨ allPass exchange appIndex members = false := by
  by_cases hrefused : named exchange appIndex members = [] ∨
      allPass exchange appIndex members = false
  · obtain ⟨code, hhandled⟩ := handle_of_refused access happ hbody hrefused
    rw [hhandled]
    exact iff_of_true ⟨rfl, code, rfl⟩ hrefused
  · refine iff_of_false ?_ hrefused
    rw [not_or, Bool.not_eq_false] at hrefused
    obtain ⟨hsome, hpass⟩ := hrefused
    rw [handle_of_passed happ hbody hfree hsome hpass]
    split
    · rintro ⟨-, code, hanswer⟩
      cases hanswer
    · rintro ⟨hnone, -⟩
      exact hsome (List.map_eq_nil_iff.mp hnone)

end

/-- A request is served whole or refused exactly when no member of it is passed over: it
mentions no setting, or one that fails, or every live member names a setting and shows all
of its text; and an understood body names no key that the app declares twice. -/
theorem allOrNothing_iff (libs : Libraries) (exchange : Exchange) (wildcard : Bytes)
    (access : Access) {appIndex : UInt8} {members : List (Bytes × Json)}
    (happ : resolveAppIndex wildcard exchange.scheduler = .ok appIndex)
    (hbody : parseJsonBody libs exchange.request = some (.object members))
    (hmembers : (members.map Prod.fst).Nodup)
    (hkeys : ∀ descriptor ∈ exchange.scheduler.descriptors appIndex, (0 : Byte) ∉ descriptor.key)
    (hroom : (live members).length ≤ exchange.commandFree)
    (hfree : exchange.commandFree ≤ kCommandQueueDepth) :
    AllOrNothing appIndex (exchange.scheduler.descriptors appIndex) members
        (handleSetAppSettings libs exchange wildcard access) ↔
      (named exchange appIndex members = [] ∨ allPass exchange appIndex members = false ∨
        ∀ member ∈ live members, ∃ descriptor,
          settingNamed (exchange.scheduler.descriptors appIndex) member.1 = some descriptor ∧
            HidesNothing descriptor member.2) ∧
      (Understood (exchange.scheduler.descriptors appIndex) members →
        ((named exchange appIndex members).map SettingDescriptor.key).Nodup) := by
  by_cases hunderstood : Understood (exchange.scheduler.descriptors appIndex) members
  · rw [and_iff_right (Or.inr (Or.inr (known_of_understood hunderstood))), AllOrNothing,
      forall_prop_of_true hunderstood, forall_prop_of_true hunderstood,
      and_iff_left (fun hnot => absurd hunderstood hnot)]
    exact posted_iff_of_understood access happ hbody hmembers hkeys hroom hfree hunderstood
  · rw [and_iff_left (fun h => absurd h hunderstood), AllOrNothing,
      and_iff_right (fun h => absurd h hunderstood), forall_prop_of_true hunderstood,
      refused_iff access happ hbody hfree, ← or_assoc]
    -- with settings that pass and no member passed over it would have been understood
    refine ⟨Or.inl, fun h => h.elim id fun hknown => ?_⟩
    by_contra hrefused
    rw [not_or, Bool.not_eq_false] at hrefused
    exact hunderstood (understood_of_allPass hmembers hkeys hrefused.1 hrefused.2 hknown)

/-! ## A member passed over -/

/-- A JSON reader that knows one document. -/
def libsReading (body : Bytes) (members : List (Bytes × Json)) : Libraries where
  deserializeJson text := if text = body then some (.object members) else none
  acceptKey _ := []

/-- A body for the app with the settings `a` and `b`, posted while the queue is empty. -/
def flagsExchange (body : Bytes) : Exchange where
  request := { HttpRequest.zero with body := body }
  gateTime := none
  handlerTime := none
  millis := 0
  ids := []
  secret := none
  ticket := none
  scheduler := Tasks.twoFlags
  commandFree := kCommandQueueDepth

theorem parseJsonBody_libsReading {body : Bytes} (h : body ≠ []) (members : List (Bytes × Json)) :
    parseJsonBody (libsReading body members) (flagsExchange body).request =
      some (.object members) :=
  (if_neg h).trans (if_pos rfl)

/-- The members of `{"a":true,"c":true}`. -/
def unknownMembers : List (Bytes × Json) := [(ascii "a", .bool true), (ascii "c", .bool true)]

/-- The flag `a` is written and the request answered 200, although nothing is called `c`. -/
theorem unknown_member_accepted :
    ¬ AllOrNothing 0 (Tasks.twoFlags.descriptors 0) unknownMembers
        (handleSetAppSettings
          (libsReading (ascii "\x7b\"a\":true,\"c\":true\x7d") unknownMembers)
          (flagsExchange (ascii "\x7b\"a\":true,\"c\":true\x7d")) (ascii "0")
          (Access.boot CredentialStore.empty)) := by
  rintro ⟨-, hrefused⟩
  have hnot : ¬ Understood (Tasks.twoFlags.descriptors 0) unknownMembers := by
    rintro ⟨-, hknown⟩
    obtain ⟨descriptor, hnamed, -⟩ := hknown (ascii "c", .bool true)
      (by simp [live, unknownMembers, Json.isNull])
    have hnone : settingNamed (Tasks.twoFlags.descriptors 0) (ascii "c") = none := by decide
    rw [hnone] at hnamed
    cases hnamed
  have hposted := congrArg List.length (hrefused hnot).1
  revert hposted
  decide +kernel

/-- The members of `{"a":true,"b":false}`. -/
def bothMembers : List (Bytes × Json) := [(ascii "a", .bool true), (ascii "b", .bool false)]

/-- A body that names both flags is served whole. -/
theorem allOrNothing_iff_bothFlags :
    AllOrNothing 0 (Tasks.twoFlags.descriptors 0) bothMembers
      (handleSetAppSettings
        (libsReading (ascii "\x7b\"a\":true,\"b\":false\x7d") bothMembers)
        (flagsExchange (ascii "\x7b\"a\":true,\"b\":false\x7d")) (ascii "0")
        (Access.boot CredentialStore.empty)) := by
  refine (allOrNothing_iff _ (flagsExchange _) (ascii "0") _ (by decide)
    (parseJsonBody_libsReading (by decide) _) (by decide) (by decide) (by decide)
    (by decide)).mpr ⟨Or.inr (Or.inr fun member hmember => ?_), fun _ => by decide⟩
  have hmember : member = (ascii "a", .bool true) ∨ member = (ascii "b", .bool false) := by
    simpa [live, bothMembers, Json.isNull] using hmember
  rcases hmember with rfl | rfl
  · exact ⟨_, rfl, trivial⟩
  · exact ⟨_, rfl, trivial⟩

end MatrixFaces.Api
