import MatrixFaces.ApiAuth.Hex
import MatrixFaces.Foundation.Clock32
import MatrixFaces.Foundation.EvictingRing

set_option autoImplicit false

/-!
# Tickets for the upgrade (`src/api/ws_ticket.cpp`, `src/net/query_string.cpp`)

Four tickets at most, each good for one use within ten seconds.  A ticket
carries one field that is not in the source, marked ghost: what it was issued for.

`queryParam` is here as it is called for a ticket.  `lookUp` is the first slot whose ticket can
still be accepted for the bytes, and `consume` marks it as used unless it is too old.

`outstanding` are the steps whose tickets can still be used; `Consumed` says what an accepted
call of `consume` does to them, and `nodup_outstanding_issue` that each is there once.
-/

namespace MatrixFaces.Api

open MatrixFaces.Foundation
open MatrixFaces.Foundation.Clock32
open MatrixFaces.ApiAuth

/-! ## The query string -/

abbrev chQuestion : Byte := 0x3F
abbrev chAmp : Byte := 0x26
abbrev chEquals : Byte := 0x3D

/-- The positions behind each `&`. -/
def afterAmps : Bytes → List Bytes
  | [] => []
  | c :: rest => if c = chAmp then rest :: afterAmps rest else afterAmps rest

/-- `queryParam`; `none` is the source's `false`. -/
def queryParam (target name : Bytes) (cap : Nat) : Option Bytes :=
  match target.dropWhile (· != chQuestion) with
  | [] => none
  | _ :: query =>
      match (query :: afterAmps query).find? fun cursor =>
          (name ++ [chEquals]).isPrefixOf cursor with
      | none => none
      | some cursor =>
          let value := (cursor.drop (name.length + 1)).takeWhile (· != chAmp)
          if value.length + 1 > cap then none else some value

/-! ## The store -/

def kTicketBytes : Nat := 8

def kTicketHexLen : Nat := kTicketBytes * 2

def kLifetimeSeconds : Nat := 10

def kMaxTickets : Nat := 4

/-- `WsTicketStore::Ticket`. -/
structure Ticket where
  bytes : Block kTicketBytes
  issuedAtS : UInt32
  used : Bool
  live : Bool
  /-- Ghost: the number of the step that issued it. -/
  issuedIn : Nat
  deriving DecidableEq

def Ticket.zero : Ticket := ⟨Block.zero _, 0, false, false, 0⟩

/-- A ticket that `consume` can still accept. -/
def Ticket.open? (ticket : Ticket) : Option Nat :=
  if ticket.live && !ticket.used then some ticket.issuedIn else none

abbrev WsTicketStore := EvictingRing Ticket kMaxTickets

namespace WsTicketStore

def initial : WsTicketStore := EvictingRing.fill kMaxTickets (by decide) Ticket.zero

/-- `WsTicketStore::issue`; the hex it writes is `toHex bytes`. -/
def issue (store : WsTicketStore) (bytes : Block kTicketBytes) (nowS : UInt32) (step : Nat) :
    WsTicketStore :=
  store.write ⟨bytes, nowS, false, true, step⟩

/-- The ticket was issued more than its lifetime before `nowS`, by the signed difference. -/
def expired (ticket : Ticket) (nowS : UInt32) : Bool :=
  (nowS - ticket.issuedAtS).toInt32.toInt > kLifetimeSeconds

/-- The ticket `consume` looks at: the first it can still accept with these bytes. -/
def lookUp (store : WsTicketStore) (bytes : Block kTicketBytes) : Option (Fin store.slots.length) :=
  store.slots.findFinIdx? fun ticket => ticket.live && !ticket.used && ticket.bytes == bytes

/-- `WsTicketStore::consume`; `none` is the source's `false`. -/
def consume (store : WsTicketStore) (hex : Bytes) (nowS : UInt32) :
    Option (Ticket × WsTicketStore) :=
  if (cstring hex).length ≠ kTicketHexLen then none
  else
    match fromHex (cstring hex) kTicketBytes with
    | none => none
    | some bytes =>
        match store.lookUp bytes with
        | none => none
        | some i =>
            let ticket := store.slots.get i
            if expired ticket nowS then none
            else
              some (ticket, { store with
                slots := store.slots.set i { ticket with used := true }
                slots_length := by rw [List.length_set, store.slots_length] })

/-! ## What is outstanding -/

/-- The steps whose tickets can still be used. -/
def outstanding (store : WsTicketStore) : List Nat := store.slots.filterMap Ticket.open?

theorem outstanding_initial : initial.outstanding = [] := by decide

theorem mem_outstanding_issue {store : WsTicketStore} {bytes : Block kTicketBytes}
    {nowS : UInt32} {step other : Nat} (h : other ∈ (store.issue bytes nowS step).outstanding) :
    other = step ∨ other ∈ store.outstanding := by
  rcases EvictingRing.mem_filterMap_set h with hnew | hold
  · exact Or.inl (Option.some.inj hnew).symm
  · exact Or.inr hold

theorem nodup_outstanding_issue {store : WsTicketStore} {bytes : Block kTicketBytes}
    {nowS : UInt32} {step : Nat} (h : store.outstanding.Nodup) (hfresh : step ∉ store.outstanding) :
    (store.issue bytes nowS step).outstanding.Nodup := by
  refine EvictingRing.nodup_filterMap_set h fun other hother => ?_
  rw [← Option.some.inj hother]
  exact hfresh

/-- What `consume` does when it accepts. -/
structure Consumed (store : WsTicketStore) (nowS : UInt32) (ticket : Ticket)
    (next : WsTicketStore) : Prop where
  member : ticket ∈ store.slots
  usable : ticket.open? = some ticket.issuedIn
  fresh : expired ticket nowS = false
  kept : ∀ other ∈ next.outstanding, other ∈ store.outstanding
  gone : store.outstanding.Nodup → ticket.issuedIn ∉ next.outstanding
  nodup : store.outstanding.Nodup → next.outstanding.Nodup
  slots : ∀ other ∈ next.slots, other.open? ≠ none → other ∈ store.slots

theorem consumed_of_consume {store next : WsTicketStore} {hex : Bytes} {nowS : UInt32}
    {ticket : Ticket} (h : store.consume hex nowS = some (ticket, next)) :
    Consumed store nowS ticket next := by
  rw [consume] at h
  split at h
  · cases h
  · split at h
    · cases h
    · split at h
      · cases h
      · rename_i i hlookUp
        simp only at h
        split at h
        · cases h
        · rename_i hfresh
          cases h
          have hfound := (List.findFinIdx?_eq_some_iff.mp hlookUp).1
          rw [Bool.and_eq_true] at hfound
          have husable : (store.slots.get i).open? = some (store.slots.get i).issuedIn :=
            if_pos hfound.1
          have hused : ({ store.slots.get i with used := true } : Ticket).open? = none := by
            simp [Ticket.open?]
          refine ⟨List.get_mem _ _, husable, by simpa using hfresh, fun other hother => ?_,
            fun hnodup => ?_, fun hnodup => ?_, fun other hother hopen => ?_⟩
          · rcases EvictingRing.mem_filterMap_set hother with hnew | hold
            · rw [hused] at hnew
              cases hnew
            · exact hold
          · exact EvictingRing.not_mem_filterMap_set hnodup i.isLt husable (by rw [hused]; simp)
          · refine EvictingRing.nodup_filterMap_set hnodup fun other hother => ?_
            rw [hused] at hother
            cases hother
          · rcases List.mem_or_eq_of_mem_set hother with hold | rfl
            · exact hold
            · exact absurd hused hopen

end WsTicketStore

end MatrixFaces.Api
