import MatrixFaces.Api.Replay

set_option autoImplicit false

/-!
# Marks and rejections over whole runs

The mark of a client only rises while the client stays paired, and a request
that is not accepted leaves nothing behind for the ones that follow.

The first main result is `marks_cover_and_ascend`, over every run of requests, pairings,
revocations and resets.  There are as many marks as places for clients, so one is always
found (`Authenticator.Remembers` carries that), and while no operation `Forgets` a client its
accepted timestamps do not go back.

The second one is `answers_unmarked`.  Calls are marked at will, as long as no marked one is
accepted; with the marked calls left out the others are answered as before.
-/

namespace MatrixFaces.Api

open MatrixFaces.Foundation
open MatrixFaces.Foundation.ReplayWindow
open MatrixFaces.ApiAuth

/-! ## Accepted timestamps -/

namespace Device

/-- What was served to a client stays in the history until the client is forgotten. -/
theorem mem_recordAll_of_kept {history : ServedHistory}
    {events : List (Event ClientId Nonce UInt32)} {served : Request}
    (hserved : some served ∈ history) (hkept : ∀ event ∈ events, ¬ event.Erases served.client) :
    some served ∈ recordAll history events := by
  induction events generalizing history with
  | nil => exact hserved
  | cons event rest ih =>
      obtain ⟨hevent, hrest⟩ := List.forall_mem_cons.mp hkept
      refine ih ?_ hrest
      cases event with
      | serve message => exact List.mem_cons_of_mem _ hserved
      | forget client =>
          refine List.mem_map.mpr ⟨some served, hserved, ?_⟩
          have hne : served.client ≠ client := fun h => hevent h.symm
          simp [hne]
      | forgetAll => exact absurd trivial hevent

/-- While a client is kept, nothing accepted from it is older than what was accepted before. -/
theorem accepted_ascend {device : Device} {history : ServedHistory} {id : ClientId}
    (h : device.auth.Remembers device.store history) {ops : List Op}
    (hkept : ∀ op ∈ ops, ¬ op.Forgets id) :
    (∀ served, some served ∈ history → served.client = id →
        ∀ request ∈ device.accepted ops, request.client = id →
          served.timestamp ≤ request.timestamp) ∧
      ((device.accepted ops).filter fun request => request.client = id).Pairwise
        fun first second => first.timestamp ≤ second.timestamp := by
  induction ops generalizing device history with
  | nil => exact ⟨fun _ _ _ _ hrequest => absurd hrequest List.not_mem_nil, List.Pairwise.nil⟩
  | cons op rest ih =>
      obtain ⟨hop, hrest⟩ := List.forall_mem_cons.mp hkept
      obtain ⟨hbound, hsorted⟩ := ih (remembers_apply h op) hrest
      have hstays : ∀ served, some served ∈ history → served.client = id →
          some served ∈ recordAll history (device.events op) := by
        intro served hserved hclient
        refine mem_recordAll_of_kept hserved ?_
        rw [hclient]
        intro event hevent
        have honly : ∀ other ∈ [op], ¬ other.Forgets id := fun other hother =>
          List.mem_singleton.mp hother ▸ hop
        exact not_erases_of_kept honly event (List.mem_append_left _ hevent)
      have hsilent : ∀ accepted : List Request, accepted = (device.apply op).accepted rest →
          (∀ served, some served ∈ history → served.client = id →
            ∀ request ∈ accepted, request.client = id → served.timestamp ≤ request.timestamp) ∧
          (accepted.filter fun request => request.client = id).Pairwise
            fun first second => first.timestamp ≤ second.timestamp := by
        rintro _ rfl
        exact ⟨fun served hserved hclient => hbound served (hstays served hserved hclient) hclient,
          hsorted⟩
      cases op with
      | authenticate call =>
          rw [accepted]
          cases hserves : device.serves call with
          | none => exact hsilent _ rfl
          | some request =>
              obtain ⟨hcheck, hok⟩ := serves_eq_some_iff.mp hserves
              have hadmits := (Authenticator.acceptRequest_ok_iff h
                (mem_ids_of_checkRequest hcheck)).mp hok
              have hrecorded : some request ∈
                  recordAll history (device.events (.authenticate call)) := by
                rw [events, hserves]
                exact List.mem_cons_self
              rw [Option.toList_some, List.singleton_append]
              constructor
              · intro served hserved hclient other hother hsame
                rcases List.mem_cons.mp hother with rfl | hlater
                · exact hadmits.newest served hserved (hclient.trans hsame.symm)
                · exact hbound served (hstays served hserved hclient) hclient other hlater hsame
              · rw [List.filter_cons]
                split
                · rename_i hclient
                  have hclient : request.client = id := by simpa using hclient
                  refine List.pairwise_cons.mpr ⟨fun other hother => ?_, hsorted⟩
                  obtain ⟨hlater, hsame⟩ := List.mem_filter.mp hother
                  exact hbound request hrecorded hclient other hlater (by simpa using hsame)
                · exact hsorted
      | forget other => exact hsilent _ rfl
      | forgetAll => exact hsilent _ rfl
      | pair client => exact hsilent _ rfl
      | revoke other => exact hsilent _ rfl
      | factoryReset => exact hsilent _ rfl

/-- Every paired client finds a mark in every state, and while a client is neither
revoked nor reset away its accepted timestamps never go back. -/
theorem marks_cover_and_ascend (store : CredentialStore) (before kept : List Op) :
    (∀ id ∈ ((boot store).run before).store.ids,
      ((boot store).run before).auth.highWaterMark id ≠ none) ∧
    ∀ id, (∀ op ∈ kept, ¬ op.Forgets id) →
      ((((boot store).run before).accepted kept).filter fun request => request.client = id).Pairwise
        fun first second => first.timestamp ≤ second.timestamp := by
  have hboot : (boot store).auth.Remembers (boot store).store [] :=
    Authenticator.remembers_initial store
  have hrun := remembers_run hboot before
  exact ⟨fun id hpaired => Authenticator.highWaterMark_ne_none hrun hpaired,
    fun id hkept => (accepted_ascend hrun hkept).2⟩

/-- Two calls of one client in the same second. -/
def twoCalls : List Op :=
  [.authenticate (statusCall (numbered 0)), .authenticate (statusCall (numbered 1))]

theorem accepted_twoCalls : (boot onePaired).accepted twoCalls =
    [statusRequest (numbered 0), statusRequest (numbered 1)] := by
  have hsecond : ((boot onePaired).apply (.authenticate (statusCall (numbered 0)))).serves
      (statusCall (numbered 1)) = some (statusRequest (numbered 1)) := by
    rw [apply_of_serves first_call_served]
    exact serves_eq_some_iff.mpr ⟨checkRequest_statusCall _, by decide⟩
  simp only [twoCalls, accepted, first_call_served, hsecond, Option.toList_some,
    List.singleton_append]

theorem marks_cover_and_ascend_two :
    (boot onePaired).auth.highWaterMark pairedClient.id ≠ none ∧
      ([statusRequest (numbered 0), statusRequest (numbered 1)].filter fun request =>
        request.client = pairedClient.id).Pairwise
          fun first second => first.timestamp ≤ second.timestamp := by
  have hrun := marks_cover_and_ascend onePaired [] twoCalls
  rw [run, List.foldl_nil, accepted_twoCalls] at hrun
  exact ⟨hrun.1 pairedClient.id List.mem_cons_self,
    hrun.2 pairedClient.id (by simp [twoCalls, Op.Forgets])⟩

end Device

/-! ## Rejected calls -/

namespace Authenticator

/-- The answers to a list of calls, oldest first: the result and the client id written. -/
def answers (store : CredentialStore) (auth : Authenticator) :
    List SignedCall → List (AuthResult × Option ClientId)
  | [] => []
  | call :: rest =>
      (auth.authenticate store call).2 :: answers store (auth.authenticate store call).1 rest

/-- A call that is not accepted leaves the nonce ring and the marks as they were. -/
theorem authenticate_of_rejected {auth : Authenticator} {store : CredentialStore}
    {call : SignedCall} (h : (auth.authenticate store call).2.1 ≠ .kAuthOk) :
    (auth.authenticate store call).1 = auth := by
  have hnone : Device.serves ⟨store, auth⟩ call = none := by
    cases hserves : Device.serves ⟨store, auth⟩ call with
    | none => rfl
    | some request =>
        obtain ⟨hcheck, hok⟩ := Device.serves_eq_some_iff.mp hserves
        rw [authenticate, hcheck] at h
        exact absurd hok h
  exact congrArg Device.auth (Device.apply_of_not_serves hnone)

/-- A run with some of its calls marked, the marked ones left out. -/
def unmarked {α : Type} (entries : List (α × Bool)) : List α :=
  (entries.filter fun entry => !entry.2).map Prod.fst

@[simp] theorem unmarked_nil {α : Type} : unmarked ([] : List (α × Bool)) = [] := rfl

@[simp] theorem unmarked_cons_true {α : Type} (x : α) (entries : List (α × Bool)) :
    unmarked ((x, true) :: entries) = unmarked entries := rfl

@[simp] theorem unmarked_cons_false {α : Type} (x : α) (entries : List (α × Bool)) :
    unmarked ((x, false) :: entries) = x :: unmarked entries := rfl

/-- Leaving out any calls that were not accepted changes no answer to the others, so nobody
without a secret can make a signed request fail. -/
theorem answers_unmarked (store : CredentialStore) (auth : Authenticator)
    (calls : List (SignedCall × Bool))
    (hrejected : ∀ entry ∈ (answers store auth (calls.map Prod.fst)).zip (calls.map Prod.snd),
      entry.2 = true → entry.1.1 ≠ .kAuthOk) :
    answers store auth (unmarked calls) =
      unmarked ((answers store auth (calls.map Prod.fst)).zip (calls.map Prod.snd)) := by
  induction calls generalizing auth with
  | nil => rfl
  | cons entry rest ih =>
      obtain ⟨call, left⟩ := entry
      simp only [List.map_cons, answers, List.zip_cons_cons, List.forall_mem_cons] at hrejected ⊢
      obtain ⟨hfirst, hrest⟩ := hrejected
      cases left with
      | true =>
          have hsame := authenticate_of_rejected (hfirst rfl)
          rw [hsame] at hrest ⊢
          rw [unmarked_cons_true, unmarked_cons_true]
          exact ih auth hrest
      | false =>
          rw [unmarked_cons_false, unmarked_cons_false, answers, ih _ hrest]

/-- A call without an `Authorization` header. -/
def bareCall : SignedCall := { Device.statusCall (Device.numbered 0) with authorization := none }

/-- A status call, its replay and a call without a header, and another status call. -/
def mixedCalls : List (SignedCall × Bool) :=
  [(Device.statusCall (Device.numbered 0), false), (Device.statusCall (Device.numbered 0), true),
    (bareCall, true), (Device.statusCall (Device.numbered 1), false)]

theorem authenticate_statusCall (auth : Authenticator) (nonce : Nonce) :
    auth.authenticate Device.onePaired (Device.statusCall nonce) =
      let (next, result) := auth.acceptRequest (Device.statusRequest nonce)
      (next, result, if result = .kAuthOk then some Device.pairedClient.id else none) := by
  rw [authenticate, Device.checkRequest_statusCall]
  rfl

theorem answers_mixedCalls :
    answers Device.onePaired initial (mixedCalls.map Prod.fst) =
      [(.kAuthOk, some Device.pairedClient.id), (.kAuthReplay, none), (.kAuthMissingHeader, none),
        (.kAuthOk, some Device.pairedClient.id)] := by
  have hbare : ∀ auth : Authenticator, auth.authenticate Device.onePaired bareCall =
      (auth, .kAuthMissingHeader, none) := fun _ => rfl
  simp only [mixedCalls, List.map_cons, List.map_nil, answers, authenticate_statusCall, hbare]
  decide

theorem answers_unmarked_mixed :
    answers Device.onePaired initial
        [Device.statusCall (Device.numbered 0), Device.statusCall (Device.numbered 1)] =
      [(.kAuthOk, some Device.pairedClient.id), (.kAuthOk, some Device.pairedClient.id)] := by
  have hkept := answers_unmarked Device.onePaired initial mixedCalls
    (by rw [answers_mixedCalls]; decide)
  rw [answers_mixedCalls] at hkept
  exact hkept

end Authenticator


end MatrixFaces.Api
