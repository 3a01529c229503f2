import Mathlib.Data.List.Nodup
import MatrixFaces.Api.CredentialTable

set_option autoImplicit false

/-!
# Pairing, revoking and rebooting

Runs of the credential store over its storage (`src/api/credential_store.cpp`), where what
was saved last is what is loaded.  Before the first save the storage reads as erased flash.

The log.  `changes` says what a run is to change, one operation after the other, and looks
at nothing that an operation computes: an `add` counts as soon as its id is new and a place
is free, whatever the store makes of it.  `lastAdded` reads off it which record stands under
an id.

The main result is `store_and_image_agree`, for every run from blank storage and without any
hypothesis.  What carries it is `Kept`, which every operation keeps (`Kept.apply`): the ids
are distinct, `find` answers what the log says, and what is stored loads as the list in
memory.
-/

namespace MatrixFaces.Api

open MatrixFaces.Foundation
open MatrixFaces.ApiAuth

/-- The store in memory, and the bytes in storage. -/
structure CredentialBoard where
  table : CredentialTable
  stored : Bytes

/-- What happens to the store. -/
inductive CredentialOp where
  | add (client : StoredClient)
  | remove (id : ClientId)
  | clear
  | reboot
  deriving DecidableEq

/-- What an operation is to change. -/
inductive CredentialChange where
  | added (client : StoredClient)
  | removed (id : ClientId)
  | cleared
  deriving DecidableEq

namespace CredentialBoard

open CredentialTable (begin save)

/-- The first boot. -/
def blank : CredentialBoard where
  table := begin (List.replicate CredentialTable.kBlobSize 0xff)
  stored := List.replicate CredentialTable.kBlobSize 0xff

/-- The table after an operation that saves unless it returned `false`. -/
def saved (board : CredentialBoard) : Option CredentialTable → CredentialBoard
  | none => board
  | some table => ⟨table, table.save board.stored⟩

/-- One operation.  `handlePair` adds a client only under an id that `find` does not know. -/
def apply (board : CredentialBoard) : CredentialOp → CredentialBoard
  | .add client =>
      if (board.table.find client.id).isSome then board else board.saved (board.table.add client)
  | .remove id => board.saved (board.table.remove id)
  | .clear => board.saved board.table.clear
  | .reboot => { board with table := begin board.stored }

def run (board : CredentialBoard) (ops : List CredentialOp) : CredentialBoard :=
  ops.foldl apply board

/-- What an operation is to change, by the state in front of it: an `add` under a new id
while one of the four places is free, and every `remove` and `clear`. -/
def change (board : CredentialBoard) : CredentialOp → Option CredentialChange
  | .add client =>
      if board.table.find client.id = none ∧ board.table.count < 4 then some (.added client)
      else none
  | .remove id => some (.removed id)
  | .clear => some .cleared
  | .reboot => none

/-- The changes of a run, oldest first. -/
def changes (board : CredentialBoard) : List CredentialOp → List CredentialChange
  | [] => []
  | op :: rest => (board.change op).toList ++ (board.apply op).changes rest

end CredentialBoard

/-- The record of an id after a change, if it was `last` before. -/
def CredentialChange.standing (id : ClientId) (last : Option StoredClient) :
    CredentialChange → Option StoredClient
  | .added client => if client.id = id then some client else last
  | .removed other => if other = id then none else last
  | .cleared => none

/-- The last record added under an id and not taken away since. -/
def lastAdded (id : ClientId) (changes : List CredentialChange) : Option StoredClient :=
  changes.foldl (CredentialChange.standing id) none

/-! ## What every operation keeps -/

/-- The store and its image agree, and both hold what was added last. -/
structure Kept (board : CredentialBoard) (last : ClientId → Option StoredClient) : Prop where
  distinct : (board.table.list.map StoredClient.id).Nodup
  find : ∀ id, board.table.find id = last id
  stored : (CredentialTable.load board.stored).list = board.table.list

namespace CredentialTable

/-- `add` is made exactly while there is a place. -/
theorem add_eq_some_iff {table : CredentialTable} {client : StoredClient} :
    (∃ next, table.add client = some next) ↔ table.count < 4 := by
  rw [add]
  split
  · rename_i hfull
    simp only [full, ge_iff_le, decide_eq_true_eq] at hfull
    refine iff_of_false ?_ (Nat.not_lt.mpr hfull)
    rintro ⟨next, hnext⟩
    cases hnext
  · rename_i hroom
    simp only [full, ge_iff_le, decide_eq_true_eq, not_le] at hroom
    exact iff_of_true ⟨_, rfl⟩ hroom

theorem find_of_list {table next : CredentialTable} (h : next.list = table.list) (id : ClientId) :
    next.find id = table.find id := by
  rw [find, find, h]

theorem find_eq_none_iff {table : CredentialTable} {id : ClientId} :
    table.find id = none ↔ id ∉ table.list.map StoredClient.id := by
  simp only [find, List.find?_eq_none, constantTimeEquals_iff, List.mem_map, not_exists, not_and]

theorem find_add {table next : CredentialTable} {client : StoredClient}
    (h : table.add client = some next) (hnew : table.find client.id = none) (id : ClientId) :
    next.find id = if client.id = id then some client else table.find id := by
  rw [find, list_add h, List.find?_append]
  split
  · rename_i hid
    subst hid
    rw [find] at hnew
    rw [hnew, Option.none_or, List.find?_singleton, if_pos ((constantTimeEquals_iff _ _).mpr rfl)]
  · rename_i hid
    rw [List.find?_singleton, if_neg (by rwa [constantTimeEquals_iff]), Option.or_none]
    rfl

/-- With distinct ids, taking the first match out takes all matches out. -/
theorem eraseP_eq_filter {clients : List StoredClient} (h : (clients.map StoredClient.id).Nodup)
    (id : ClientId) :
    clients.eraseP (fun client => constantTimeEquals client.id id) =
      clients.filter fun client => client.id ≠ id := by
  induction clients with
  | nil => rfl
  | cons client rest ih =>
      rw [List.map_cons, List.nodup_cons] at h
      rw [List.eraseP_cons, List.filter_cons]
      by_cases hid : client.id = id
      · rw [(constantTimeEquals_iff _ _).mpr hid, cond_true, if_neg (by simpa using hid)]
        refine (List.filter_eq_self.mpr fun other hother => ?_).symm
        rw [decide_eq_true_eq]
        intro hsame
        exact h.1 (List.mem_map.mpr ⟨other, hother, hsame.trans hid.symm⟩)
      · have hdiffers : constantTimeEquals client.id id = false := by
          rwa [← Bool.not_eq_true, constantTimeEquals_iff]
        rw [hdiffers, cond_false, if_pos (by simpa using hid), ih h.2]

/-- The table after a removal, whether there was something to remove or not. -/
theorem list_removed {board : CredentialBoard}
    (h : (board.table.list.map StoredClient.id).Nodup) (id : ClientId) :
    (board.apply (.remove id)).table.list =
      board.table.list.filter fun client => client.id ≠ id := by
  rw [CredentialBoard.apply]
  cases hremove : board.table.remove id with
  | some next => exact (list_remove hremove).trans (eraseP_eq_filter h id)
  | none =>
      rw [remove] at hremove
      split at hremove
      · rename_i hnone
        refine (List.filter_eq_self.mpr fun client hclient => ?_).symm
        have hdiffers := List.findIdx?_eq_none_iff.mp hnone client hclient
        rw [decide_eq_true_eq]
        intro hsame
        rw [(constantTimeEquals_iff _ _).mpr hsame] at hdiffers
        cases hdiffers
      · cases hremove

theorem find_filter {table next : CredentialTable} {removed : ClientId}
    (h : next.list = table.list.filter fun client => client.id ≠ removed) (id : ClientId) :
    next.find id = if removed = id then none else table.find id := by
  split
  · rename_i hid
    subst hid
    rw [find_eq_none_iff, h, List.mem_map]
    rintro ⟨client, hclient, hsame⟩
    simp [hsame] at hclient
  · rename_i hid
    rw [find, find, h, List.find?_filter]
    congr 1
    funext client
    by_cases hmatch : constantTimeEquals client.id id = true
    · have hother : client.id ≠ removed := fun hsame =>
        hid (hsame.symm.trans ((constantTimeEquals_iff _ _).mp hmatch))
      simp [hmatch, hother]
    · simp [hmatch]

end CredentialTable

open CredentialTable

/-- An `add` that is to be made is made, and goes to the end of the list. -/
theorem CredentialBoard.apply_add {board : CredentialBoard} {client : StoredClient}
    (hnew : board.table.find client.id = none) (hroom : board.table.count < 4) :
    ∃ next, board.table.add client = some next ∧ next.list = board.table.list ++ [client] ∧
      board.apply (.add client) = board.saved (some next) := by
  obtain ⟨next, hadd⟩ := add_eq_some_iff.mpr hroom
  have hunknown : ¬(board.table.find client.id).isSome = true :=
    Option.not_isSome_iff_eq_none.mpr hnew
  refine ⟨next, hadd, list_add hadd, ?_⟩
  rw [CredentialBoard.apply, if_neg hunknown, hadd]

/-- Any other `add` leaves the board as it was. -/
theorem CredentialBoard.apply_add_of_not {board : CredentialBoard} {client : StoredClient}
    (h : ¬(board.table.find client.id = none ∧ board.table.count < 4)) :
    board.apply (.add client) = board := by
  rw [CredentialBoard.apply]
  split
  · rfl
  · rename_i hunknown
    have hnew := Option.not_isSome_iff_eq_none.mp hunknown
    cases hadd : board.table.add client with
    | none => rfl
    | some next => exact absurd ⟨hnew, add_eq_some_iff.mp ⟨next, hadd⟩⟩ h

/-- One operation. -/
theorem Kept.apply {board : CredentialBoard} {last : ClientId → Option StoredClient}
    (h : Kept board last) (op : CredentialOp) :
    Kept (board.apply op) fun id =>
      (board.change op).toList.foldl (CredentialChange.standing id) (last id) := by
  -- what was saved is loaded again, and nothing else changes the image
  have hsaved : ∀ result,
      (load (board.saved result).stored).list = (board.saved result).table.list := by
    intro result
    cases result with
    | none => exact h.stored
    | some table => exact list_load_save table board.stored
  cases op with
  | add client =>
      rw [CredentialBoard.change]
      split
      · rename_i hmade
        obtain ⟨hnew, hroom⟩ := hmade
        obtain ⟨next, hadd, hlist, happly⟩ := CredentialBoard.apply_add hnew hroom
        rw [happly]
        refine ⟨?_, fun id => ?_, hsaved _⟩
        · change (next.list.map StoredClient.id).Nodup
          rw [hlist, List.map_append, List.nodup_append]
          refine ⟨h.distinct, List.nodup_singleton _, fun id hid other hother => ?_⟩
          rintro rfl
          rw [List.map_singleton, List.mem_singleton] at hother
          exact find_eq_none_iff.mp hnew (hother ▸ hid)
        · exact (find_add hadd hnew id).trans (by rw [h.find]; rfl)
      · rename_i hrefused
        rw [CredentialBoard.apply_add_of_not hrefused]
        exact h
  | remove removed =>
      refine ⟨?_, fun id => ?_, hsaved _⟩
      · rw [list_removed h.distinct]
        exact h.distinct.sublist (List.filter_sublist.map _)
      · rw [find_filter (list_removed h.distinct removed), h.find]
        rfl
  | clear =>
      have hlist : (board.apply .clear).table.list = [] := by
        rw [CredentialBoard.apply, clear]
        split
        · rename_i hcount
          exact List.length_eq_zero_iff.mp (by rw [CredentialBoard.saved, length_list, hcount])
        · rfl
      refine ⟨?_, fun id => ?_, hsaved _⟩
      · rw [hlist]
        exact List.nodup_nil
      · change (board.apply .clear).table.find id = none
        rw [CredentialTable.find, hlist]
        rfl
  | reboot =>
      refine ⟨?_, fun id => ?_, rfl⟩
      · change ((load board.stored).list.map StoredClient.id).Nodup
        rw [h.stored]
        exact h.distinct
      · exact (find_of_list h.stored id).trans (h.find id)

theorem Kept.run {board : CredentialBoard} {last : ClientId → Option StoredClient}
    (h : Kept board last) (ops : List CredentialOp) :
    Kept (board.run ops) fun id =>
      (board.changes ops).foldl (CredentialChange.standing id) (last id) := by
  induction ops generalizing board last with
  | nil => exact h
  | cons op rest ih =>
      have hrest := ih (h.apply op)
      simp only [CredentialBoard.changes, List.foldl_append]
      exact hrest

theorem list_blank : CredentialBoard.blank.table.list = [] := by
  rw [CredentialBoard.blank, CredentialTable.begin, list_load_blank]

theorem kept_blank : Kept CredentialBoard.blank fun _ => none where
  distinct := by
    rw [list_blank]
    exact List.nodup_nil
  find _ := by
    rw [find, list_blank]
    rfl
  stored := by
    rw [list_blank, CredentialBoard.blank, list_load_blank]

/-- In every state that pairing, revoking, clearing and rebooting lead to, the store has at
most four clients with distinct ids and holds under each id what was added last; while a
place is free a client with a new id is added at the end, a removal keeps the order of the
others, and a reboot brings the same list back. -/
theorem store_and_image_agree (ops : List CredentialOp) :
    let board := CredentialBoard.blank.run ops
    board.table.count ≤ 4 ∧ board.table.list.length = board.table.count ∧
      (board.table.list.map StoredClient.id).Nodup ∧
      (∀ id, board.table.find id = lastAdded id (CredentialBoard.blank.changes ops)) ∧
      (∀ client, board.table.find client.id = none → board.table.count < 4 →
        (board.apply (.add client)).table.list = board.table.list ++ [client]) ∧
      (∀ id, (board.apply (.remove id)).table.list =
        board.table.list.filter fun client => client.id ≠ id) ∧
      (board.apply .reboot).table.list = board.table.list := by
  intro board
  have hkept : Kept board _ := kept_blank.run ops
  refine ⟨board.table.count_le, length_list _, hkept.distinct, hkept.find,
    fun client hnew hroom => ?_, list_removed hkept.distinct, hkept.stored⟩
  obtain ⟨next, -, hlist, happly⟩ := CredentialBoard.apply_add hnew hroom
  rw [happly]
  exact hlist

/-- A client that was added before a restart is found after it, and one that was taken away
is not. -/
theorem store_and_image_agree_restart :
    let first : StoredClient := ⟨Block.zero _, Block.zero _, 0⟩
    let second : StoredClient := ⟨⟨1 :: List.replicate 7 0, rfl⟩, Block.zero _, 0⟩
    let board := CredentialBoard.blank.run [.add first, .add second, .remove first.id, .reboot]
    board.table.find first.id = none ∧ board.table.find second.id = some second := by
  intro first second board
  obtain ⟨-, -, -, hfind, -⟩ :=
    store_and_image_agree [.add first, .add second, .remove first.id, .reboot]
  exact ⟨(hfind first.id).trans (by decide +kernel), (hfind second.id).trans (by decide +kernel)⟩

end MatrixFaces.Api
