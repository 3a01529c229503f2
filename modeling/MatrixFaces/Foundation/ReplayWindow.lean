import Mathlib.Data.List.Induction

set_option autoImplicit false

/-!
# Replay protection by a window and a high-water mark

A server remembers what it served.  It refuses a message whose nonce is among
the last `n` it served, and one older than anything it served the same client.
The history below is that memory in full; an implementation keeps less of it.

`Admits` is the server's rule and `record` what it does to the history.  Operations that make
the server forget a client are events of their own (`Event.Erases`).

`rolled_over_of_admits` is the result: unless its client was erased in between, a nonce is
admitted again only when `n` messages were served since, none of them, with the same timestamp,
a later one of this client.
-/

namespace MatrixFaces.Foundation.ReplayWindow

/-- A message that was served. -/
structure Served (Client Nonce Time : Type) where
  client : Client
  nonce : Nonce
  timestamp : Time
  deriving DecidableEq

/-- Everything served, newest first.  `none` is a message of a client since forgotten. -/
abbrev History (Client Nonce Time : Type) := List (Option (Served Client Nonce Time))

variable {Client Nonce Time : Type}

/-- A message the server accepts when its window holds `n` messages. -/
structure Admits [LE Time] (n : Nat) (history : History Client Nonce Time)
    (message : Served Client Nonce Time) : Prop where
  /-- Nothing newer was served to this client. -/
  newest : ∀ served, some served ∈ history → served.client = message.client →
    served.timestamp ≤ message.timestamp
  /-- The nonce is not in the window. -/
  fresh : ∀ served, some served ∈ history.take n → served.client = message.client →
    served.nonce ≠ message.nonce

/-- What can happen to the memory. -/
inductive Event (Client Nonce Time : Type) where
  | serve (message : Served Client Nonce Time)
  | forget (client : Client)
  | forgetAll

/-- The event erases what is known about the client. -/
def Event.Erases (client : Client) : Event Client Nonce Time → Prop
  | .serve _ => False
  | .forget other => other = client
  | .forgetAll => True

variable [DecidableEq Client]

/-- The memory after one event. -/
def record (history : History Client Nonce Time) : Event Client Nonce Time →
    History Client Nonce Time
  | .serve message => some message :: history
  | .forget client => history.map (Option.filter fun served => served.client ≠ client)
  | .forgetAll => []

/-- The memory after a list of events, oldest first. -/
def recordAll (history : History Client Nonce Time) (events : List (Event Client Nonce Time)) :
    History Client Nonce Time :=
  events.foldl record history

/-- The messages served by a list of events, oldest first. -/
def servedBy (events : List (Event Client Nonce Time)) : List (Served Client Nonce Time) :=
  events.filterMap fun
    | .serve message => some message
    | .forget _ | .forgetAll => none

theorem recordAll_append (history : History Client Nonce Time)
    (left right : List (Event Client Nonce Time)) :
    recordAll history (left ++ right) = recordAll (recordAll history left) right :=
  List.foldl_append

/-- As long as a client is not forgotten, a message served to it stays where it
is, behind exactly the messages served since, and so do the later ones. -/
theorem recordAll_of_kept {client : Client} {first : Served Client Nonce Time}
    (hfirst : first.client = client) (history : History Client Nonce Time)
    (events : List (Event Client Nonce Time))
    (hkept : ∀ event ∈ events, ¬ event.Erases client) :
    ∃ since older, recordAll (some first :: history) events = since ++ some first :: older ∧
      since.length = (servedBy events).length ∧
      ∀ message ∈ servedBy events, message.client = client → some message ∈ since := by
  induction events using List.reverseRecOn with
  | nil => exact ⟨[], history, rfl, rfl, by simp [servedBy]⟩
  | append_singleton events last ih =>
      obtain ⟨since, older, hrecord, hlength, hmem⟩ :=
        ih fun event hevent => hkept event (List.mem_append_left _ hevent)
      have hlast := hkept last (by simp)
      rw [recordAll_append, hrecord]
      cases last with
      | serve message =>
          refine ⟨some message :: since, older, rfl, by simp [servedBy, hlength], ?_⟩
          intro served hserved hclient
          rw [servedBy, List.filterMap_append, List.mem_append] at hserved
          rcases hserved with hold | hnew
          · exact List.mem_cons_of_mem _ (hmem served hold hclient)
          · simp only [List.filterMap_cons, List.filterMap_nil, List.mem_singleton] at hnew
            exact hnew ▸ List.mem_cons_self
      | forget other =>
          have hne : first.client ≠ other := by
            rw [hfirst]
            exact fun h => hlast h.symm
          refine ⟨since.map (Option.filter fun served => served.client ≠ other),
            older.map (Option.filter fun served => served.client ≠ other), ?_, ?_, ?_⟩
          · simp [recordAll, record, hne]
          · simp [servedBy, hlength]
          · intro served hserved hclient
            rw [servedBy, List.filterMap_append, List.mem_append] at hserved
            have hold := hmem served (hserved.resolve_right (by simp)) hclient
            refine List.mem_map.mpr ⟨some served, hold, ?_⟩
            have : served.client ≠ other := by
              rw [hclient]
              exact fun h => hlast h.symm
            simp [this]
      | forgetAll => exact absurd trivial hlast

/-- A nonce is accepted a second time from a client that was not forgotten only
after the window has rolled over, and with the same timestamp only if nothing
newer was served to the client in between. -/
theorem rolled_over_of_admits [LE Time] {n : Nat} {first second : Served Client Nonce Time}
    {history : History Client Nonce Time} {events : List (Event Client Nonce Time)}
    (hadmits : Admits n (recordAll (some first :: history) events) second)
    (hclient : first.client = second.client) (hnonce : first.nonce = second.nonce)
    (hkept : ∀ event ∈ events, ¬ event.Erases first.client) :
    n ≤ (servedBy events).length ∧
      ∀ message ∈ servedBy events, message.client = first.client →
        message.timestamp ≤ second.timestamp := by
  obtain ⟨since, older, hrecord, hlength, hmem⟩ := recordAll_of_kept rfl history events hkept
  rw [hrecord] at hadmits
  constructor
  · refine Nat.le_of_not_lt fun hshort => ?_
    refine hadmits.fresh first ?_ hclient hnonce
    rw [List.take_append, List.mem_append]
    right
    obtain ⟨extra, hextra⟩ : ∃ extra, n - since.length = extra + 1 :=
      ⟨n - since.length - 1, by omega⟩
    rw [hextra, List.take_succ_cons]
    exact List.mem_cons_self
  · intro message hmessage hsame
    exact hadmits.newest message (List.mem_append_left _ (hmem message hmessage hsame))
      (hsame.trans hclient)

end MatrixFaces.Foundation.ReplayWindow
