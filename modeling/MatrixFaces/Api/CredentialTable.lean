import Mathlib.Data.List.GetD
import MatrixFaces.Api.CredentialStore
import MatrixFaces.Storage.RecordBlob

set_option autoImplicit false

/-!
# The credential table in memory and in storage (`src/api/credential_store.cpp`)

The array `clients_` with its loops, and the blob it goes out to.  Its first `count_`
entries are a `CredentialStore`, and every operation does to them what the operation of
that name does there.

`store` is the abstraction, and `store_find`, `store_add`, `store_remove` and `store_clear` are
its commuting squares.  In storage the table is a blob of its full capacity with the count in
front; `list_load_save` says that what was saved is what is loaded, and `list_load_blank` that
erased flash is an empty table.
-/

namespace MatrixFaces.Api

open MatrixFaces.Foundation
open MatrixFaces.ApiAuth
open MatrixFaces.Storage

/-- A zero-filled entry. -/
def StoredClient.zero : StoredClient := ⟨Block.zero _, Block.zero _, 0⟩

/-- `CredentialStore`, as it lies in memory. -/
structure CredentialTable where
  clients : List StoredClient
  length_clients : clients.length = kMaxClients
  count : Nat
  count_le : count ≤ kMaxClients

namespace CredentialTable

/-- The entries in use. -/
def list (table : CredentialTable) : List StoredClient := table.clients.take table.count

/-- What `load` starts from and `clear` leaves. -/
def cleared : CredentialTable where
  clients := List.replicate kMaxClients StoredClient.zero
  length_clients := List.length_replicate
  count := 0
  count_le := Nat.zero_le _

/-- `CredentialStore::full`. -/
def full (table : CredentialTable) : Bool := table.count ≥ kMaxClients

/-- `CredentialStore::find`. -/
def find (table : CredentialTable) (id : ClientId) : Option StoredClient :=
  table.list.find? fun client => constantTimeEquals client.id id

/-- `CredentialStore::add`; `none` is the source's `false`. -/
def add (table : CredentialTable) (client : StoredClient) : Option CredentialTable :=
  if h : table.full = true then none
  else some
    { clients := table.clients.set table.count client
      length_clients := by rw [List.length_set, table.length_clients]
      count := table.count + 1
      count_le := by
        simp only [full, ge_iff_le, decide_eq_true_eq, not_le] at h
        exact h }

/-- The inner loop of `remove`: `clients_[j] = clients_[j + 1]`. -/
def moveDown (clients : List StoredClient) (i n : Nat) : List StoredClient :=
  (List.range' i n).foldl (fun clients j => clients.set j (clients.getD (j + 1) StoredClient.zero))
    clients

theorem length_moveDown (clients : List StoredClient) (i n : Nat) :
    (moveDown clients i n).length = clients.length := by
  rw [moveDown]
  induction n generalizing i clients with
  | zero => rfl
  | succ n ih => rw [List.range'_succ, List.foldl_cons, ih, List.length_set]

/-- `CredentialStore::remove`. -/
def remove (table : CredentialTable) (id : ClientId) : Option CredentialTable :=
  match table.list.findIdx? fun client => constantTimeEquals client.id id with
  | none => none
  | some i => some
      { clients :=
          (moveDown table.clients i (table.count - 1 - i)).set (table.count - 1) StoredClient.zero
        length_clients := by rw [List.length_set, length_moveDown, table.length_clients]
        count := table.count - 1
        count_le := Nat.le_trans (Nat.sub_le _ _) table.count_le }

/-- `CredentialStore::clear`. -/
def clear (table : CredentialTable) : Option CredentialTable :=
  if table.count = 0 then none else some cleared

/-! ## The table is a credential store -/

theorem length_list (table : CredentialTable) : table.list.length = table.count := by
  rw [list, List.length_take, table.length_clients]
  exact Nat.min_eq_left table.count_le

/-- The paired clients of the table. -/
def store (table : CredentialTable) : CredentialStore :=
  ⟨table.list, by rw [length_list]; exact table.count_le⟩

theorem store_find (table : CredentialTable) (id : ClientId) :
    table.store.find id = table.find id :=
  rfl

theorem store_full (table : CredentialTable) : table.store.full = table.full := by
  rw [full, CredentialStore.full, store, length_list]

theorem list_add {table next : CredentialTable} {client : StoredClient}
    (h : table.add client = some next) : next.list = table.list ++ [client] := by
  rw [add] at h
  split at h
  · cases h
  · rename_i hroom
    cases h
    have hlt : table.count < table.clients.length := by
      rw [table.length_clients]
      simpa [full] using hroom
    rw [list, list, List.take_succ_eq_append_getElem (by rwa [List.length_set]),
      List.take_set_of_le (Nat.le_refl _), List.getElem_set_self]

theorem store_add (table : CredentialTable) (client : StoredClient) :
    (table.add client).map store = table.store.add client := by
  cases hadd : table.add client with
  | none =>
      rw [add] at hadd
      split at hadd
      · rename_i hfull
        rw [CredentialStore.add, dif_pos (by rw [store_full, hfull])]
        rfl
      · cases hadd
  | some next =>
      have hroom : table.store.full ≠ true := by
        rw [store_full]
        intro hfull
        rw [add, dif_pos hfull] at hadd
        cases hadd
      rw [CredentialStore.add, dif_neg hroom]
      simp only [Option.map_some, store, list_add hadd]

/-- The loop moves every entry behind the gap down by one. -/
theorem getElem?_moveDown {clients : List StoredClient} {i n : Nat}
    (hlength : i + n < clients.length) (k : Nat) :
    (moveDown clients i n)[k]? =
      if i ≤ k ∧ k < i + n then clients[k + 1]? else clients[k]? := by
  induction n generalizing i clients with
  | zero =>
      rw [if_neg (by omega)]
      rfl
  | succ n ih =>
      have hnext : i + 1 < clients.length := by omega
      have hstep : moveDown clients i (n + 1) =
          moveDown (clients.set i (clients.getD (i + 1) StoredClient.zero)) (i + 1) n := by
        rw [moveDown, List.range'_succ, List.foldl_cons]
        rfl
      rw [hstep, ih (by rw [List.length_set]; omega), List.getD_eq_getElem _ _ hnext]
      by_cases hin : i + 1 ≤ k ∧ k < i + 1 + n
      · rw [if_pos hin, if_pos (by omega), List.getElem?_set_ne (by omega)]
      · rw [if_neg hin]
        by_cases hk : k = i
        · subst hk
          rw [if_pos (by omega), List.getElem?_set_self (by omega), List.getElem?_eq_getElem hnext]
        · rw [if_neg (by omega), List.getElem?_set_ne (Ne.symm hk)]

theorem list_remove {table next : CredentialTable} {id : ClientId}
    (h : table.remove id = some next) :
    next.list = table.list.eraseP fun client => constantTimeEquals client.id id := by
  rw [remove] at h
  split at h
  · cases h
  · rename_i i hfound
    cases h
    rw [List.eraseP_eq_eraseIdx, hfound]
    have hi : i < table.count := by
      have hlt := (List.findIdx?_eq_some_iff_findIdx_eq.mp hfound).1
      rwa [length_list] at hlt
    have hcount := table.count_le
    have hlength : i + (table.count - 1 - i) < table.clients.length := by
      rw [table.length_clients]
      omega
    refine List.ext_getElem? fun k => ?_
    simp only [list, List.getElem?_take, List.getElem?_eraseIdx]
    by_cases hk : k < table.count - 1
    · rw [if_pos hk, List.getElem?_set_ne (by omega), getElem?_moveDown hlength]
      by_cases hbehind : k < i
      · rw [if_neg (by omega), if_pos hbehind, if_pos (by omega)]
      · rw [if_pos (by omega), if_neg hbehind, if_pos (by omega)]
    · rw [if_neg hk, if_neg (by omega : ¬ k < i), if_neg (by omega)]

theorem store_remove (table : CredentialTable) (id : ClientId) :
    (table.remove id).map store = table.store.remove id := by
  rw [CredentialStore.remove]
  cases hremove : table.remove id with
  | none =>
      rw [remove] at hremove
      split at hremove
      · rename_i hnone
        rw [if_neg, Option.map_none]
        simpa [store] using List.findIdx?_eq_none_iff.mp hnone
      · cases hremove
  | some next =>
      have hfound :
          table.store.clients.any (fun client => constantTimeEquals client.id id) = true := by
        rw [remove] at hremove
        split at hremove
        · cases hremove
        · rename_i i hfound
          have hsome := @List.findIdx?_isSome _ table.list
            fun client => constantTimeEquals client.id id
          rw [hfound] at hsome
          exact hsome.symm
      rw [if_pos hfound]
      simp only [Option.map_some, store, list_remove hremove]

theorem store_clear (table : CredentialTable) : table.clear.map store = table.store.clear := by
  rw [clear, CredentialStore.clear]
  by_cases h : table.count = 0
  · rw [if_pos h, if_pos (List.length_eq_zero_iff.mp (by rw [store, length_list, h]))]
    rfl
  · rw [if_neg h, if_neg, Option.map_some]
    · rfl
    · intro hnil
      exact h (by rw [← length_list]; exact List.length_eq_zero_iff.mpr hnil)

/-! ## In storage -/

def kMagic : UInt32 := 0x4d345753

def kVersion : UInt16 := 1

/-- `sizeof(StoredClient)`. -/
def kClientSize : Nat := 44

def kBlobSize : Nat := framedSize kClientSize kMaxClients

/-- The bytes of an entry. -/
def encodeClient (client : StoredClient) : Bytes :=
  client.id.1 ++ (client.secret.1 ++ writeU32 client.pairedAt)

/-- The entry whose bytes are at the front. -/
def decodeClient (bytes : Bytes) : StoredClient :=
  ⟨Block.ofBytes _ bytes, Block.ofBytes _ (bytes.drop kClientIdBytes),
    readU32 (bytes.drop (kClientIdBytes + kSecretBytes))⟩

/-- The bytes of an array. -/
def encodeClients (clients : List StoredClient) : Bytes := clients.flatMap encodeClient

/-- The array of `n` entries whose bytes are at the front. -/
def decodeClients : Nat → Bytes → List StoredClient
  | 0, _ => []
  | n + 1, bytes => decodeClient bytes :: decodeClients n (bytes.drop kClientSize)

theorem length_decodeClients (n : Nat) (bytes : Bytes) : (decodeClients n bytes).length = n := by
  induction n generalizing bytes with
  | zero => rfl
  | succ n ih => rw [decodeClients, List.length_cons, ih]

theorem length_encodeClient (client : StoredClient) :
    (encodeClient client).length = kClientSize := by
  simp only [encodeClient, List.length_append, Block.length_val, length_writeU32]
  rfl

theorem decodeClient_encodeClient (client : StoredClient) (rest : Bytes) :
    decodeClient (encodeClient client ++ rest) = client := by
  obtain ⟨id, secret, pairedAt⟩ := client
  have hdrop : (encodeClient ⟨id, secret, pairedAt⟩ ++ rest).drop (kClientIdBytes + kSecretBytes) =
      writeU32 pairedAt ++ rest := by
    simp only [encodeClient, List.append_assoc, ← List.drop_drop, List.drop_left' id.2,
      List.drop_left' secret.2]
  rw [decodeClient, hdrop]
  simp only [encodeClient, List.append_assoc, List.drop_left' id.2, Block.ofBytes_append,
    readU32_writeU32]

theorem length_encodeClients (clients : List StoredClient) :
    (encodeClients clients).length = kClientSize * clients.length := by
  induction clients with
  | nil => rfl
  | cons client rest ih =>
      rw [encodeClients, List.flatMap_cons, List.length_append, length_encodeClient,
        List.length_cons, Nat.mul_succ, Nat.add_comm]
      exact congrArg (· + kClientSize) ih

theorem decodeClients_encodeClients (clients : List StoredClient) (rest : Bytes) :
    decodeClients clients.length (encodeClients clients ++ rest) = clients := by
  induction clients with
  | nil => rfl
  | cons client others ih =>
      rw [encodeClients, List.flatMap_cons, List.append_assoc, List.length_cons, decodeClients,
        decodeClient_encodeClient, List.drop_left' (length_encodeClient client)]
      exact congrArg (client :: ·) ih

theorem take_encodeClients (clients : List StoredClient) (n : Nat) :
    (encodeClients clients).take (kClientSize * n) = encodeClients (clients.take n) := by
  induction clients generalizing n with
  | nil => simp [encodeClients]
  | cons client rest ih =>
      cases n with
      | zero => rfl
      | succ n =>
          rw [List.take_succ_cons, encodeClients, encodeClients, List.flatMap_cons,
            List.flatMap_cons, Nat.mul_succ, Nat.add_comm, ← length_encodeClient client,
            List.take_length_add_append, length_encodeClient]
          exact congrArg (encodeClient client ++ ·) (ih n)

theorem take_decodeClients {n count : Nat} (h : count ≤ n) (bytes : Bytes) :
    (decodeClients n bytes).take count = decodeClients count bytes := by
  induction n generalizing count bytes with
  | zero =>
      rw [Nat.le_zero.mp h]
      rfl
  | succ n ih =>
      cases count with
      | zero => rfl
      | succ count =>
          rw [decodeClients, List.take_succ_cons, ih (Nat.le_of_succ_le_succ h), decodeClients]

/-- `save`: what storage holds afterwards, if it held `stored`. -/
def save (table : CredentialTable) (stored : Bytes) : Bytes :=
  (serialize kBlobSize kMagic kVersion (encodeClients table.clients) kClientSize kMaxClients
    (UInt16.ofNat table.count)).getD stored

/-- The call of `parse` in `load`, on a cleared table. -/
def parseStored (stored : Bytes) : Parsed :=
  parseInto stored kMagic kVersion kClientSize kMaxClients (encodeClients cleared.clients) 0

theorem outCount_parseStored_le (stored : Bytes) :
    (parseStored stored).outCount.toUInt8.toNat ≤ kMaxClients := by
  rw [parseStored, parseInto_eq]
  cases hparse : parse stored kMagic kVersion kClientSize kMaxClients with
  | error error => exact Nat.zero_le _
  | ok read =>
      have hnarrow : read.1.toUInt8.toNat ≤ read.1.toNat := by
        rw [UInt16.toNat_toUInt8]
        exact Nat.mod_le _ _
      exact Nat.le_trans hnarrow (count_le_of_parse hparse)

/-- `load`, where `stored` is what `blob_store::load` read. -/
def load (stored : Bytes) : CredentialTable :=
  if (parseStored stored).result ≠ .kOk then cleared
  else
    { clients := decodeClients kMaxClients (parseStored stored).records
      length_clients := length_decodeClients _ _
      count := (parseStored stored).outCount.toUInt8.toNat
      count_le := outCount_parseStored_le stored }

theorem list_load (stored : Bytes) :
    (load stored).list =
      if (parseStored stored).result ≠ .kOk then []
      else
        (decodeClients kMaxClients (parseStored stored).records).take
          (parseStored stored).outCount.toUInt8.toNat := by
  rw [load]
  split <;> rfl

/-- `begin`, without the check it only logs. -/
def begin (stored : Bytes) : CredentialTable := load stored

/-- What went out comes back. -/
theorem list_load_save (table : CredentialTable) (stored : Bytes) :
    (load (table.save stored)).list = table.list := by
  have hcount : (UInt16.ofNat table.count).toNat = table.count :=
    UInt16.toNat_ofNat_of_lt' (Nat.lt_of_le_of_lt table.count_le (by decide))
  have hfits : (UInt16.ofNat table.count).toNat ≤ kMaxClients := by
    rw [hcount]
    exact table.count_le
  have hrecords : kClientSize * (UInt16.ofNat table.count).toNat ≤
      (encodeClients table.clients).length := by
    rw [length_encodeClients, table.length_clients]
    exact Nat.mul_le_mul_left _ hfits
  have hread : parseStored (table.save stored) =
      ⟨.kOk, encodeClients table.list ++
        (encodeClients cleared.clients).drop (kClientSize * table.count),
        UInt16.ofNat table.count⟩ := by
    have hparse := @parse_framed kMagic kVersion _ _ _ _ hfits hrecords []
    rw [List.append_nil] at hparse
    rw [parseStored, save, kBlobSize, serialize_of_fits (Nat.le_refl _) hfits, Option.getD_some,
      parseInto_eq, hparse]
    simp only [hcount, take_encodeClients, list]
  have hnarrow : (UInt16.ofNat table.count).toUInt8.toNat = table.count := by
    rw [UInt16.toNat_toUInt8, hcount]
    exact Nat.mod_eq_of_lt (Nat.lt_of_le_of_lt table.count_le (by decide))
  rw [list_load, hread, if_neg (not_not.mpr rfl), hnarrow, take_decodeClients table.count_le,
    ← length_list, decodeClients_encodeClients]

/-- A store whose storage was never written. -/
theorem list_load_blank : (load (List.replicate kBlobSize 0xff)).list = [] := by
  decide +kernel

end CredentialTable

end MatrixFaces.Api
