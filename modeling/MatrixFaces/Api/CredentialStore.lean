import MatrixFaces.ApiAuth.AuthHeader

set_option autoImplicit false

/-!
# Paired clients (`src/api/credential_store.cpp`)

The table of paired clients in memory.  Writing it to flash does not change it
and is not part of this module.

`mem_ids_of_find`, `ids_add` and `mem_ids_remove` are all the authenticator's proofs use of it:
who is found is in the list, and an operation changes the list by one id.  The array with its
loops is in `Api.CredentialTable`.
-/

namespace MatrixFaces.Api

open MatrixFaces.Foundation
open MatrixFaces.ApiAuth

abbrev ClientId := Block kClientIdBytes

abbrev Nonce := Block kNonceBytes

/-- `StoredClient`. -/
structure StoredClient where
  id : ClientId
  secret : Block kSecretBytes
  pairedAt : UInt32
  deriving DecidableEq, Repr

def kMaxClients : Nat := 4

/-- `CredentialStore`: the first `count_` entries of `clients_`. -/
structure CredentialStore where
  clients : List StoredClient
  count_le : clients.length ≤ kMaxClients

namespace CredentialStore

/-- The ids of the paired clients. -/
def ids (store : CredentialStore) : List ClientId := store.clients.map StoredClient.id

theorem ids_length_le (store : CredentialStore) : store.ids.length ≤ kMaxClients := by
  rw [ids, List.length_map]
  exact store.count_le

def empty : CredentialStore := ⟨[], Nat.zero_le _⟩

/-- `CredentialStore::full`. -/
def full (store : CredentialStore) : Bool := store.clients.length ≥ kMaxClients

/-- `CredentialStore::find`. -/
def find (store : CredentialStore) (id : ClientId) : Option StoredClient :=
  store.clients.find? fun client => constantTimeEquals client.id id

/-- `CredentialStore::add`; `none` is the source's `false`. -/
def add (store : CredentialStore) (client : StoredClient) : Option CredentialStore :=
  if h : store.full = true then none
  else some ⟨store.clients ++ [client], by
    simp only [full, ge_iff_le, decide_eq_true_eq, not_le] at h
    rw [List.length_append]
    exact h⟩

/-- `CredentialStore::remove`: takes out the first entry with this id. -/
def remove (store : CredentialStore) (id : ClientId) : Option CredentialStore :=
  if store.clients.any fun client => constantTimeEquals client.id id then
    some ⟨store.clients.eraseP fun client => constantTimeEquals client.id id,
      Nat.le_trans (List.length_eraseP_le) store.count_le⟩
  else none

/-- `CredentialStore::clear`. -/
def clear (store : CredentialStore) : Option CredentialStore :=
  if store.clients = [] then none else some empty

theorem find_id {store : CredentialStore} {id : ClientId} {client : StoredClient}
    (h : store.find id = some client) : client.id = id := by
  rw [find] at h
  have hequals := List.find?_some h
  exact (constantTimeEquals_iff _ _).mp hequals

theorem mem_ids_of_find {store : CredentialStore} {id : ClientId} {client : StoredClient}
    (h : store.find id = some client) : id ∈ store.ids := by
  rw [ids, List.mem_map]
  exact ⟨client, List.mem_of_find?_eq_some h, find_id h⟩

theorem ids_add {store next : CredentialStore} {client : StoredClient}
    (h : store.add client = some next) : next.ids = store.ids ++ [client.id] := by
  rw [add] at h
  split at h
  · cases h
  · cases h
    simp [ids]

/-- Removal keeps every other client. -/
theorem mem_ids_remove {store next : CredentialStore} {id other : ClientId}
    (h : store.remove id = some next) (hne : other ≠ id) (hmem : other ∈ store.ids) :
    other ∈ next.ids := by
  rw [remove] at h
  split at h
  · cases h
    obtain ⟨client, hclient, rfl⟩ := List.mem_map.mp hmem
    refine List.mem_map.mpr ⟨client, ?_, rfl⟩
    refine (List.mem_eraseP_of_neg ?_).mpr hclient
    rw [constantTimeEquals_iff]
    exact hne
  · cases h

end CredentialStore

end MatrixFaces.Api
