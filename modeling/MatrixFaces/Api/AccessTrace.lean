import MatrixFaces.Api.Access
import MatrixFaces.Api.WsHandshake

set_option autoImplicit false

/-!
# Where every open socket comes from

A run of the board is followed with the list of the steps made so far.  Every ticket that
can still be used, and every connection the hub adopted, is tied to the step that issued
the ticket, and no two of them to the same step.

`Accounted` is the invariant, over the list of the steps so far and the state they lead to.
A step is one of three kinds for it: it issues a ticket (`Accounted.issue`), it adopts a
connection on one (`Accounted.adopt`), or it does neither (`Accounted.keep`).  `Dealt` says
this of whatever a handler does.

`accounted_step` is about one step and `accounted_run` about a whole run, with `Caused` for
every effect: it is due to an accepted request, or to a connection that was adopted before.
`Steady` is what is asked of the clock where ages of tickets are compared.

`Accounted` is the invariant, over the list of the steps so far and the state they lead to.  A
step is one of three kinds for it: it issues a ticket (`Accounted.issue`), it adopts a
connection on one (`Accounted.adopt`), or it does neither (`Accounted.keep`).  `Dealt` says this
of whatever a handler does.

`accounted_step` is about one step and `accounted_run` about a whole run, with `Caused` for
every effect: it is due to an accepted request, or to a connection that was adopted before.
`Steady` is what is asked of the clock where ages of tickets are compared.
-/

namespace MatrixFaces.Api

open MatrixFaces.Foundation
open MatrixFaces.Foundation.Clock32
open MatrixFaces.ApiAuth
open MatrixFaces.Apps
open MatrixFaces.Board

namespace Access

/-! ## What a step shows -/

/-- The step is a request that `authenticate` accepted. -/
def Turn.Authenticated (turn : Turn) : Prop :=
  ∃ exchange, turn.action = .request exchange ∧
    (turn.before.device.auth.authenticate turn.before.device.store
      (signedCall exchange.request (Clock.reading exchange.gateTime))).2.1 = .kAuthOk

/-- The step is an accepted `POST /api/ws-ticket` that issued a ticket. -/
structure Turn.IssuesTicket (turn : Turn) : Prop where
  authenticated : turn.Authenticated
  request : ∃ exchange, turn.action = .request exchange ∧
    exchange.request.method = ascii "POST" ∧ exchange.request.path = ascii "/api/ws-ticket"
  issued : .issued ∈ turn.effects

/-- When the handler of the step's request read the clock. -/
def Turn.time (turn : Turn) : Option Nat :=
  match turn.action with
  | .request exchange => exchange.handlerTime
  | _ => none

/-- What an effect of a step is due to, after the steps in `past`. -/
def Caused (past : List Turn) (turn : Turn) : Effect → Prop
  | .posted _ none | .issued | .revoked _ => turn.Authenticated
  | .posted _ (some id) => ∃ earlier ∈ past, .adopted id ∈ earlier.effects
  | .adopted _ | .paired _ | .reset => True

/-! ## The tables of the hub -/

/-- The hub adopted nobody new. -/
structure SameClients (before after : Sockets) : Prop where
  upgraded : after.upgraded = before.upgraded
  accepted : before.link.accepted ≤ after.link.accepted
  retained : ∀ slot id, after.link.retained slot = some id → before.link.retained slot = some id

theorem SameClients.refl (sockets : Sockets) : SameClients sockets sockets :=
  ⟨rfl, Nat.le_refl _, fun _ _ h => h⟩

theorem SameClients.trans {first second third : Sockets} (h : SameClients first second)
    (h' : SameClients second third) : SameClients first third where
  upgraded := h'.upgraded.trans h.upgraded
  accepted := Nat.le_trans h.accepted h'.accepted
  retained slot id hslot := h.retained slot id (h'.retained slot id hslot)

theorem SameClients.of_served {before after : Sockets} (h : Sockets.Served before after) :
    SameClients before after :=
  ⟨h.upgraded, Nat.le_of_eq h.accepted.symm, h.retained⟩

theorem sameClients_poll (sockets : Sockets) : SameClients sockets sockets.poll := by
  have h := Sockets.pollLoop.served (List.finRange kMaxRetained) sockets
  rw [Sockets.poll_eq_run]
  exact ⟨h.upgraded, Nat.le_of_eq h.accepted.symm, h.retained⟩

theorem sameClients_broadcast (sockets : Sockets) (text : Bytes) (taken : Slot → Nat) :
    SameClients sockets (sockets.broadcast text taken) := by
  cases hheader : Ws.encodeHeader Ws.kText text.length with
  | none =>
      rw [Sockets.broadcast, hheader]
      exact .refl _
  | some header =>
      by_cases htext : text = []
      · rw [Sockets.broadcast, hheader]
        simp only [htext, if_true]
        exact .refl _
      · rw [Sockets.broadcast_eq_run sockets taken hheader htext]
        exact .of_served (Sockets.HubLoop.served _ _ _)

/-- Everybody in a slot was adopted. -/
def OnlyAdopted (sockets : Sockets) : Prop :=
  ∀ slot id, sockets.link.retained slot = some id → sockets.upgraded id = true

theorem OnlyAdopted.of_same {before after : Sockets} (h : OnlyAdopted before)
    (hsame : SameClients before after) : OnlyAdopted after := by
  intro slot id hslot
  rw [hsame.upgraded]
  exact h slot id (hsame.retained slot id hslot)

/-- A message comes from somebody the hub adopted. -/
theorem upgraded_of_message {entries : List Slot} {sockets : Sockets}
    (h : OnlyAdopted sockets) {message : ConnId × Bytes}
    (hmessage : message ∈ messagesFrom entries sockets) :
    sockets.upgraded message.1 = true := by
  induction entries generalizing sockets with
  | nil => cases hmessage
  | cons i rest ih =>
      rcases List.mem_append.mp hmessage with hhead | hrest
      · rw [messagesOf] at hhead
        cases hslot : (sockets.table i).slot with
        | none =>
            rw [hslot] at hhead
            cases hhead
        | some slot =>
            cases hholder : sockets.link.holder slot with
            | none =>
                simp only [hslot, hholder] at hhead
                cases hhead
            | some id =>
                simp only [hslot, hholder] at hhead
                obtain ⟨text, _, rfl⟩ := List.mem_map.mp hhead
                exact h slot id (NetLink.holder_eq_some_iff.mp hholder).1
      · have hsame := SameClients.of_served (Sockets.pollOne_turned sockets i).served
        rw [← hsame.upgraded]
        exact ih (h.of_same hsame) hrest

@[simp] theorem writeResponse_retained (acceptKey : Bytes) (slot : Slot) (link : NetLink) :
    (writeResponse acceptKey slot link).retained = link.retained := by
  unfold writeResponse
  split <;> rfl

@[simp] theorem writeResponse_accepted (acceptKey : Bytes) (slot : Slot) (link : NetLink) :
    (writeResponse acceptKey slot link).accepted = link.accepted := by
  unfold writeResponse
  split <;> rfl

/-- The hub takes over the request's connection, or nobody. -/
theorem takeOver_cases (acceptKey : Bytes) {sockets : Sockets} {id : ConnId}
    (hrequest : sockets.link.request = some id) :
    ((takeOver acceptKey sockets).2 = false ∧
        SameClients sockets (takeOver acceptKey sockets).1) ∨
      ((takeOver acceptKey sockets).2 = true ∧
        (takeOver acceptKey sockets).1.upgraded = Function.update sockets.upgraded id true ∧
        (takeOver acceptKey sockets).1.link.accepted = sockets.link.accepted ∧
        ∀ slot other, (takeOver acceptKey sockets).1.link.retained slot = some other →
          other = id ∨ sockets.link.retained slot = some other) := by
  rw [takeOver]
  cases hretain : sockets.link.retain with
  | none => exact Or.inl ⟨rfl, .refl _⟩
  | some pair =>
      obtain ⟨slot, link⟩ := pair
      obtain ⟨_, rfl⟩ := NetLink.retain_eq_some hretain
      simp only [hrequest, Sockets.adopt]
      cases Sockets.freeIndex _ with
      | none =>
          refine Or.inl ⟨by simp, ?_⟩
          simp only [reduceCtorEq, if_false]
          refine ⟨rfl, by simp, fun other id' hother => ?_⟩
          rw [NetLink.release_retained, Function.update_apply] at hother
          split at hother
          · cases hother
          · rename_i hne
            simpa [Function.update_apply, hne] using hother
      | some i =>
          refine Or.inr ⟨by simp, ?_⟩
          simp only [if_true, Function.update_self, writeResponse_retained,
            writeResponse_accepted, Function.update_apply, true_and]
          intro other id' hother
          split at hother
          · exact Or.inl (Option.some.inj hother).symm
          · exact Or.inr hother

/-! ## What a request can do -/

/-- Effects that touch no ticket and no connection; `accepted` says that `authenticate`
accepted the request. -/
def Effect.Plain (accepted : Prop) : Effect → Prop
  | .posted _ none | .revoked _ => accepted
  | .paired _ | .reset => True
  | .posted _ (some _) | .issued | .adopted _ => False

theorem Effect.Plain.mono {accepted accepted' : Prop} (himp : accepted → accepted')
    {effect : Effect} (h : effect.Plain accepted) : effect.Plain accepted' := by
  cases effect with
  | posted command message =>
      cases message with
      | none => exact himp h
      | some id => exact h
  | revoked id => exact himp h
  | issued | adopted id | paired id | reset => exact h

theorem Effect.Plain.caused {past : List Turn} {turn : Turn} {effect : Effect}
    (h : effect.Plain turn.Authenticated) : Caused past turn effect := by
  cases effect with
  | posted command message =>
      cases message with
      | none => exact h
      | some id => cases h
  | issued | adopted id => cases h
  | revoked id => exact h
  | paired id | reset => exact trivial

/-- Everything a request can do to tickets and connections. -/
inductive Dealt (exchange : Exchange) (access : Access) (accepted : Prop) : Handled → Prop where
  | plain (device : Device) (pairing : PairingWindow) (effects : List Effect) (answer : Answer)
      (heffects : ∀ effect ∈ effects, effect.Plain accepted) :
      Dealt exchange access accepted
        ({ access with device := device, pairing := pairing }, effects, answer)
  | issued (device : Device) (bytes : Block kTicketBytes) (answer : Answer) (haccepted : accepted)
      (hmethod : exchange.request.method = ascii "POST")
      (hpath : exchange.request.path = ascii "/api/ws-ticket") :
      Dealt exchange access accepted
        ({ access with
            device := device
            tickets := access.tickets.issue bytes (Clock.reading exchange.handlerTime).now
              access.steps }, [.issued], answer)
  | refused (device : Device) (ticket : Ticket) (tickets : WsTicketStore) (sockets : Sockets)
      (answer : Answer)
      (hconsumed : access.tickets.Consumed (Clock.reading exchange.handlerTime).now ticket tickets)
      (hsame : SameClients access.sockets sockets) :
      Dealt exchange access accepted
        ({ access with device := device, tickets := tickets, sockets := sockets }, [], answer)
  | adopted (device : Device) (ticket : Ticket) (tickets : WsTicketStore) (sockets : Sockets)
      (id : ConnId) (answer : Answer)
      (hconsumed : access.tickets.Consumed (Clock.reading exchange.handlerTime).now ticket tickets)
      (hrequest : access.sockets.link.request = some id)
      (hupgraded : sockets.upgraded = Function.update access.sockets.upgraded id true)
      (haccepted : sockets.link.accepted = access.sockets.link.accepted)
      (hretained : ∀ slot other, sockets.link.retained slot = some other →
        other = id ∨ access.sockets.link.retained slot = some other) :
      Dealt exchange access accepted
        ({ access with
            device := device
            tickets := tickets
            sockets := sockets
            openedWith := Function.update access.openedWith id ticket.issuedIn },
          [.adopted id], answer)

section Handlers

variable {site : Site} {libs : Libraries} {exchange : Exchange} {access : Access} {accepted : Prop}
  {device : Device}

theorem dealt_nothing (answer : Answer) :
    Dealt exchange access accepted ({ access with device := device }, [], answer) :=
  .plain device access.pairing [] answer (by simp)

theorem dealt_pair :
    Dealt exchange access accepted (handlePair exchange { access with device := device }) := by
  unfold handlePair
  split
  · exact dealt_nothing _
  · split
    · exact dealt_nothing _
    · split
      · exact .plain _ _ _ _ (by simp [Effect.Plain])
      · exact dealt_nothing _

theorem dealt_setLed (h : accepted) :
    Dealt exchange access accepted
      (handleSetLed libs exchange { access with device := device }) := by
  unfold handleSetLed
  split
  · exact dealt_nothing _
  · split
    · exact dealt_nothing _
    · exact .plain _ _ _ _ (by simpa [Effect.Plain] using h)

theorem dealt_setActiveApp (h : accepted) :
    Dealt exchange access accepted
      (handleSetActiveApp libs exchange { access with device := device }) := by
  unfold handleSetActiveApp
  split
  · exact dealt_nothing _
  · split
    · exact dealt_nothing _
    · split
      · exact dealt_nothing _
      · exact .plain _ _ _ _ (by simpa [Effect.Plain] using h)

theorem dealt_setAppSettings (h : accepted) (wildcard : Bytes) :
    Dealt exchange access accepted
      (handleSetAppSettings libs exchange wildcard { access with device := device }) := by
  unfold handleSetAppSettings
  split
  · exact dealt_nothing _
  · split
    · exact dealt_nothing _
    · refine .plain _ _ _ _ fun effect heffect => ?_
      obtain ⟨entry, _, rfl⟩ := List.mem_map.mp heffect
      exact h

theorem dealt_revokeClient (h : accepted) (wildcard : Bytes) :
    Dealt exchange access accepted
      (handleRevokeClient wildcard { access with device := device }) := by
  unfold handleRevokeClient
  split
  · exact dealt_nothing _
  · split
    · exact dealt_nothing _
    · exact .plain _ _ _ _ (by simpa [Effect.Plain] using h)

theorem dealt_createWsTicket (h : accepted) (hmethod : exchange.request.method = ascii "POST")
    (hpath : exchange.request.path = ascii "/api/ws-ticket") :
    Dealt exchange access accepted
      (handleCreateWsTicket site exchange { access with device := device }) := by
  unfold handleCreateWsTicket
  split
  · exact dealt_nothing _
  · split
    · exact dealt_nothing _
    · exact .issued _ _ _ h hmethod hpath

theorem dealt_webSocketUpgrade {id : ConnId} (hrequest : access.sockets.link.request = some id) :
    Dealt exchange access accepted
      (handleWebSocketUpgrade site libs exchange { access with device := device }) := by
  unfold handleWebSocketUpgrade
  split
  · exact dealt_nothing _
  · split
    · exact dealt_nothing _
    · rename_i ticket tickets hconsume
      obtain ⟨hex, _, hconsume⟩ := Option.bind_eq_some_iff.mp hconsume
      have hconsumed := WsTicketStore.consumed_of_consume hconsume
      simp only
      split
      · exact .refused device ticket tickets access.sockets _ hconsumed (.refl _)
      · have hcases := takeOver_cases (libs.acceptKey exchange.request.websocketKey) hrequest
        generalize takeOver (libs.acceptKey exchange.request.websocketKey) access.sockets =
          taken at hcases ⊢
        obtain ⟨sockets, done⟩ := taken
        rcases hcases with ⟨rfl, hsame⟩ | ⟨rfl, hupgraded, haccepted, hretained⟩
        · exact .refused device ticket tickets sockets _ hconsumed hsame
        · simp only [hrequest]
          exact .adopted device ticket tickets sockets id _ hconsumed hrequest hupgraded haccepted
            hretained

/-- What `handleRequest` can do. -/
theorem dealt_handleRequest (site : Site) (libs : Libraries) (exchange : Exchange) {access : Access}
    {id : ConnId} (hrequest : access.sockets.link.request = some id) :
    Dealt exchange access
      ((access.device.auth.authenticate access.device.store
        (signedCall exchange.request (Clock.reading exchange.gateTime))).2.1 = .kAuthOk)
      (handleRequest site libs exchange access) := by
  unfold handleRequest
  simp only
  split
  · exact dealt_nothing _
  · exact dealt_nothing _
  · rename_i handler wildcard hdispatch
    have hgate := authenticated_of_handler hdispatch
    cases handler with
    | handlePair => exact dealt_pair
    | handleWebSocketUpgrade => exact dealt_webSocketUpgrade hrequest
    | handleSetLed => exact dealt_setLed (hgate (by simp) (by simp) (by simp))
    | handleSetActiveApp => exact dealt_setActiveApp (hgate (by simp) (by simp) (by simp))
    | handleSetAppSettings =>
        exact dealt_setAppSettings (hgate (by simp) (by simp) (by simp)) wildcard
    | handleRevokeClient =>
        exact dealt_revokeClient (hgate (by simp) (by simp) (by simp)) wildcard
    | handleCreateWsTicket =>
        obtain ⟨hmethod, hpath⟩ := ticket_route hdispatch
        exact dealt_createWsTicket (hgate (by simp) (by simp) (by simp)) hmethod hpath
    | handleGetAppSettings =>
        simp only [handle]
        split <;> exact dealt_nothing _
    | handleRoot => exact dealt_nothing _
    | handleStatus => exact dealt_nothing _
    | handleListClients => exact dealt_nothing _
    | handleListApps => exact dealt_nothing _
    | handleGetActiveApp => exact dealt_nothing _
    | handleMetrics => exact dealt_nothing _

end Handlers

/-- A request runs the handler it is dispatched to. -/
theorem handleRequest_of_dispatch {site : Site} (libs : Libraries) (exchange : Exchange)
    (access : Access) {device : Device} {handler : Handler} {wildcard : Bytes}
    (h : dispatch site access.device (Clock.reading exchange.gateTime) exchange.request =
      (device, .handler handler wildcard)) :
    handleRequest site libs exchange access =
      handle site libs exchange wildcard { access with device := device } handler := by
  rw [handleRequest, h]

/-- An upgrade with a good ticket, a key and room for the connection. -/
theorem handleWebSocketUpgrade_of_takeOver {site : Site} (libs : Libraries) (exchange : Exchange)
    (access : Access) {hex : Bytes} {ticket : Ticket} {tickets : WsTicketStore} {id : ConnId}
    (hsite : site.kHasWebSocket = true)
    (hquery : queryParam exchange.request.target (ascii "ticket") (kTicketHexLen + 1) = some hex)
    (hconsume : access.tickets.consume hex (Clock.reading exchange.handlerTime).now =
      some (ticket, tickets))
    (hkey : exchange.request.websocketKey ≠ [])
    (htaken : (takeOver (libs.acceptKey exchange.request.websocketKey) access.sockets).2 = true)
    (hid : access.sockets.link.request = some id) :
    handleWebSocketUpgrade site libs exchange access =
      ({ access with
          tickets := tickets
          sockets := (takeOver (libs.acceptKey exchange.request.websocketKey) access.sockets).1
          openedWith := Function.update access.openedWith id ticket.issuedIn },
        [.adopted id], .upgraded) := by
  rw [handleWebSocketUpgrade, if_neg (by simp [hsite]), hquery, Option.bind_some, hconsume]
  simp only [hkey, if_false, hid]
  generalize takeOver (libs.acceptKey exchange.request.websocketKey) access.sockets = taken at *
  obtain ⟨sockets, done⟩ := taken
  cases htaken
  rfl

/-! ## The books -/

/-- The connection adopted in step `k` was opened with the ticket of an earlier step that had
not expired. -/
structure OpenedBy (past : List Turn) (step k : Nat) (adoption : Turn) : Prop where
  before : step < k
  request : ∃ exchange, adoption.action = .request exchange
  minted : ∃ minting, past[step]? = some minting ∧ minting.IssuesTicket ∧
    ((Clock.reading adoption.time).now - (Clock.reading minting.time).now).toInt32.toInt ≤
      kLifetimeSeconds

/-- Tickets and connections, and the steps they come from. -/
structure Accounted (past : List Turn) (access : Access) : Prop where
  steps : access.steps = past.length
  minted : ∀ ticket ∈ access.tickets.slots, ∀ step, ticket.open? = some step →
    ∃ turn, past[step]? = some turn ∧ turn.IssuesTicket ∧
      (Clock.reading turn.time).now = ticket.issuedAtS
  distinct : access.tickets.outstanding.Nodup
  retained : OnlyAdopted access.sockets
  numbered : ∀ id, access.sockets.upgraded id = true → id < access.sockets.link.accepted
  known : ∀ id, access.sockets.upgraded id = true ↔
    ∃ turn ∈ past, Effect.adopted id ∈ turn.effects
  opened : ∀ k turn id, past[k]? = some turn → Effect.adopted id ∈ turn.effects →
    OpenedBy past (access.openedWith id) k turn
  single : ∀ id other, access.sockets.upgraded id = true → access.sockets.upgraded other = true →
    access.openedWith id = access.openedWith other → id = other
  spent : ∀ id, access.sockets.upgraded id = true →
    access.openedWith id ∉ access.tickets.outstanding

theorem accounted_boot (store : CredentialStore) : Accounted [] (boot store) where
  steps := rfl
  minted ticket hticket step hopen := by
    rw [List.eq_of_mem_replicate hticket] at hopen
    cases hopen
  distinct := by
    have hnone : (boot store).tickets.outstanding = [] := WsTicketStore.outstanding_initial
    simp [hnone]
  retained _ _ h := by cases h
  numbered _ h := by cases h
  known _ := by simp [boot, Sockets.boot]
  opened _ _ _ h := by simp at h
  single _ _ h := by cases h
  spent _ h := by cases h

/-- A step that was made stays where it is. -/
theorem getElem?_past {past : List Turn} {k : Nat} {turn : Turn} (last : Turn)
    (h : past[k]? = some turn) : (past ++ [last])[k]? = some turn := by
  obtain ⟨hlt, _⟩ := List.getElem?_eq_some_iff.mp h
  rw [List.getElem?_append_left hlt, h]

/-- The steps of a longer list are the old ones and the last. -/
theorem getElem?_append_last {past : List Turn} {k : Nat} {last turn : Turn}
    (h : (past ++ [last])[k]? = some turn) :
    past[k]? = some turn ∨ (k = past.length ∧ turn = last) := by
  by_cases hlt : k < past.length
  · rw [List.getElem?_append_left hlt] at h
    exact Or.inl h
  · have hle := Nat.le_of_not_lt hlt
    rw [List.getElem?_append_right hle] at h
    obtain ⟨hzero, hlast⟩ := List.getElem?_eq_some_iff.mp h
    simp only [List.length_singleton] at hzero
    refine Or.inr ⟨by omega, ?_⟩
    simpa using hlast.symm

theorem OpenedBy.append {past : List Turn} {step k : Nat} {adoption : Turn} (last : Turn)
    (h : OpenedBy past step k adoption) : OpenedBy (past ++ [last]) step k adoption where
  before := h.before
  request := h.request
  minted := by
    obtain ⟨minting, hminting, hissues, hfresh⟩ := h.minted
    exact ⟨minting, getElem?_past last hminting, hissues, hfresh⟩

/-- Whoever was adopted in an earlier step still is. -/
theorem Accounted.opened_append {past : List Turn} {access : Access} (h : Accounted past access)
    (last : Turn) {k : Nat} {turn : Turn} {id : ConnId}
    (hlast : ∀ id, Effect.adopted id ∉ last.effects)
    (hturn : (past ++ [last])[k]? = some turn) (hid : Effect.adopted id ∈ turn.effects) :
    OpenedBy (past ++ [last]) (access.openedWith id) k turn := by
  rcases getElem?_append_last hturn with hold | ⟨_, rfl⟩
  · exact (h.opened k turn id hold hid).append last
  · exact absurd hid (hlast id)

theorem known_append {past : List Turn} {last : Turn} {id : ConnId}
    (hlast : ∀ id, Effect.adopted id ∉ last.effects) :
    (∃ turn ∈ past ++ [last], Effect.adopted id ∈ turn.effects) ↔
      ∃ turn ∈ past, Effect.adopted id ∈ turn.effects := by
  simp [or_and_right, exists_or, hlast]

/-- A step that issues no ticket and adopts nobody, and at most uses tickets up. -/
theorem Accounted.keep {past : List Turn} {access next : Access} (h : Accounted past access)
    (last : Turn) (hlast : ∀ id, Effect.adopted id ∉ last.effects)
    (hsteps : next.steps = access.steps + 1)
    (hslots : ∀ ticket ∈ next.tickets.slots, ticket.open? ≠ none → ticket ∈ access.tickets.slots)
    (hdistinct : next.tickets.outstanding.Nodup)
    (houtstanding : ∀ step ∈ next.tickets.outstanding, step ∈ access.tickets.outstanding)
    (hsockets : SameClients access.sockets next.sockets)
    (hopenedWith : next.openedWith = access.openedWith) :
    Accounted (past ++ [last]) next where
  steps := by rw [hsteps, h.steps, List.length_append, List.length_singleton]
  minted ticket hticket step hopen := by
    obtain ⟨turn, hturn, hrest⟩ :=
      h.minted ticket (hslots ticket hticket (by simp [hopen])) step hopen
    exact ⟨turn, getElem?_past last hturn, hrest⟩
  distinct := hdistinct
  retained := h.retained.of_same hsockets
  numbered id hid := by
    rw [hsockets.upgraded] at hid
    exact Nat.lt_of_lt_of_le (h.numbered id hid) hsockets.accepted
  known id := by rw [hsockets.upgraded, known_append hlast, h.known id]
  opened k turn id hturn hid := by
    rw [hopenedWith]
    exact h.opened_append last hlast hturn hid
  single id other hid hother hsame := by
    rw [hsockets.upgraded] at hid hother
    rw [hopenedWith] at hsame
    exact h.single id other hid hother hsame
  spent id hid hmem := by
    rw [hsockets.upgraded] at hid
    rw [hopenedWith] at hmem
    exact h.spent id hid (houtstanding _ hmem)

theorem Accounted.lt_of_outstanding {past : List Turn} {access : Access}
    (h : Accounted past access) {step : Nat} (hstep : step ∈ access.tickets.outstanding) :
    step < past.length := by
  obtain ⟨ticket, hticket, hopen⟩ := List.mem_filterMap.mp hstep
  obtain ⟨_, hturn, _⟩ := h.minted ticket hticket step hopen
  exact (List.getElem?_eq_some_iff.mp hturn).1

theorem Accounted.lt_of_upgraded {past : List Turn} {access : Access}
    (h : Accounted past access) {id : ConnId} (hid : access.sockets.upgraded id = true) :
    access.openedWith id < past.length := by
  obtain ⟨turn, hturn, heffect⟩ := (h.known id).mp hid
  obtain ⟨k, hk⟩ := List.mem_iff_getElem?.mp hturn
  exact Nat.lt_trans (h.opened k turn id hk heffect).before (List.getElem?_eq_some_iff.mp hk).1

/-- An accepted request for a ticket. -/
theorem Accounted.issue {past : List Turn} {access next : Access} (h : Accounted past access)
    {last : Turn} (bytes : Block kTicketBytes) (hissues : last.IssuesTicket)
    (heffects : last.effects = [.issued]) (hsteps : next.steps = access.steps + 1)
    (htickets : next.tickets =
      access.tickets.issue bytes (Clock.reading last.time).now access.steps)
    (hsockets : SameClients access.sockets next.sockets)
    (hopenedWith : next.openedWith = access.openedWith) :
    Accounted (past ++ [last]) next where
  steps := by rw [hsteps, h.steps, List.length_append, List.length_singleton]
  minted ticket hticket step hopen := by
    rw [htickets] at hticket
    rcases List.mem_or_eq_of_mem_set hticket with hold | rfl
    · obtain ⟨turn, hturn, hrest⟩ := h.minted ticket hold step hopen
      exact ⟨turn, getElem?_past last hturn, hrest⟩
    · have hstep : step = past.length := by
        rw [← h.steps]
        exact (Option.some.inj hopen).symm
      exact ⟨last, by rw [hstep, List.getElem?_concat_length], hissues, rfl⟩
  distinct := by
    rw [htickets]
    exact WsTicketStore.nodup_outstanding_issue h.distinct fun hmem =>
      Nat.lt_irrefl _ (h.steps ▸ h.lt_of_outstanding hmem)
  retained := h.retained.of_same hsockets
  numbered id hid := by
    rw [hsockets.upgraded] at hid
    exact Nat.lt_of_lt_of_le (h.numbered id hid) hsockets.accepted
  known id := by rw [hsockets.upgraded, known_append (by simp [heffects]), h.known id]
  opened k turn id hturn hid := by
    rw [hopenedWith]
    exact h.opened_append last (by simp [heffects]) hturn hid
  single id other hid hother hsame := by
    rw [hsockets.upgraded] at hid hother
    rw [hopenedWith] at hsame
    exact h.single id other hid hother hsame
  spent id hid hmem := by
    rw [hsockets.upgraded] at hid
    rw [hopenedWith, htickets] at hmem
    rcases WsTicketStore.mem_outstanding_issue hmem with hnew | hold
    · exact Nat.lt_irrefl _ (h.steps ▸ hnew ▸ h.lt_of_upgraded hid)
    · exact h.spent id hid hold

/-- An upgrade redeemed a ticket, and the newest connection joined the adopted ones. -/
structure Adopts (access next : Access) (last : Turn) (id : ConnId) (ticket : Ticket) : Prop where
  action : ∃ exchange, last.action = .request exchange
  effects : last.effects = [.adopted id]
  steps : next.steps = access.steps + 1
  consumed : access.tickets.Consumed (Clock.reading last.time).now ticket next.tickets
  newest : id = access.sockets.link.accepted
  accepted : next.sockets.link.accepted = access.sockets.link.accepted + 1
  upgraded : next.sockets.upgraded = Function.update access.sockets.upgraded id true
  retained : ∀ slot other, next.sockets.link.retained slot = some other →
    other = id ∨ access.sockets.link.retained slot = some other
  openedWith : next.openedWith = Function.update access.openedWith id ticket.issuedIn

section

variable {past : List Turn} {access next : Access} {last : Turn} {id other : ConnId}
  {ticket : Ticket}

theorem Adopts.cases_upgraded (hadopts : Adopts access next last id ticket)
    (hother : next.sockets.upgraded other = true) :
    other = id ∨ (other ≠ id ∧ access.sockets.upgraded other = true) := by
  rw [hadopts.upgraded, Function.update_apply] at hother
  split at hother
  · exact Or.inl ‹_›
  · exact Or.inr ⟨‹_›, hother⟩

theorem Adopts.openedWith_self (hadopts : Adopts access next last id ticket) :
    next.openedWith id = ticket.issuedIn := by
  rw [hadopts.openedWith, Function.update_self]

theorem Adopts.openedWith_of_ne (hadopts : Adopts access next last id ticket)
    (hne : other ≠ id) : next.openedWith other = access.openedWith other := by
  rw [hadopts.openedWith, Function.update_of_ne hne]

/-- The redeemed ticket was outstanding, so no connection was opened with it. -/
theorem Adopts.issuedIn_mem (hadopts : Adopts access next last id ticket) :
    ticket.issuedIn ∈ access.tickets.outstanding :=
  List.mem_filterMap.mpr ⟨ticket, hadopts.consumed.member, hadopts.consumed.usable⟩

theorem Accounted.not_upgraded (h : Accounted past access)
    (hadopts : Adopts access next last id ticket) : ¬ access.sockets.upgraded id = true :=
  fun hold => Nat.lt_irrefl _ (hadopts.newest ▸ h.numbered id hold)

/-- The new connection goes back to the step that issued its ticket, the others to theirs. -/
theorem Accounted.opened_adopt (h : Accounted past access)
    (hadopts : Adopts access next last id ticket) {k : Nat} {turn : Turn}
    (hturn : (past ++ [last])[k]? = some turn) (hother : Effect.adopted other ∈ turn.effects) :
    OpenedBy (past ++ [last]) (next.openedWith other) k turn := by
  rcases getElem?_append_last hturn with hold | ⟨rfl, rfl⟩
  · have hne : other ≠ id := by
      rintro rfl
      exact h.not_upgraded hadopts
        ((h.known other).mpr ⟨turn, List.mem_of_getElem? hold, hother⟩)
    rw [hadopts.openedWith_of_ne hne]
    exact (h.opened k turn other hold hother).append last
  · rw [hadopts.effects, List.mem_singleton, Effect.adopted.injEq] at hother
    subst hother
    obtain ⟨minting, hminting, hissues, hissuedAt⟩ :=
      h.minted ticket hadopts.consumed.member ticket.issuedIn hadopts.consumed.usable
    have hfresh := hadopts.consumed.fresh
    rw [WsTicketStore.expired, decide_eq_false_iff_not, gt_iff_lt, not_lt] at hfresh
    rw [hadopts.openedWith_self]
    exact ⟨(List.getElem?_eq_some_iff.mp hminting).1, hadopts.action, minting,
      getElem?_past _ hminting, hissues, hissuedAt ▸ hfresh⟩

/-- The new connection's ticket is not one that another connection was opened with. -/
theorem Accounted.openedWith_ne (h : Accounted past access)
    (hadopts : Adopts access next last id ticket) (hne : other ≠ id)
    (hother : access.sockets.upgraded other = true) :
    next.openedWith other ≠ next.openedWith id := by
  rw [hadopts.openedWith_self, hadopts.openedWith_of_ne hne]
  exact fun hsame => h.spent other hother (hsame ▸ hadopts.issuedIn_mem)

theorem Accounted.single_adopt (h : Accounted past access)
    (hadopts : Adopts access next last id ticket) {first second : ConnId}
    (hfirst : next.sockets.upgraded first = true) (hsecond : next.sockets.upgraded second = true)
    (hsame : next.openedWith first = next.openedWith second) : first = second := by
  rcases hadopts.cases_upgraded hfirst with rfl | ⟨hfirstNe, hfirstOld⟩
  · rcases hadopts.cases_upgraded hsecond with rfl | ⟨hsecondNe, hsecondOld⟩
    · rfl
    · exact absurd hsame.symm (h.openedWith_ne hadopts hsecondNe hsecondOld)
  · rcases hadopts.cases_upgraded hsecond with rfl | ⟨hsecondNe, hsecondOld⟩
    · exact absurd hsame (h.openedWith_ne hadopts hfirstNe hfirstOld)
    · rw [hadopts.openedWith_of_ne hfirstNe, hadopts.openedWith_of_ne hsecondNe] at hsame
      exact h.single first second hfirstOld hsecondOld hsame

/-- An upgrade that redeemed a ticket keeps the books. -/
theorem Accounted.adopt (h : Accounted past access) (hadopts : Adopts access next last id ticket) :
    Accounted (past ++ [last]) next where
  steps := by rw [hadopts.steps, h.steps, List.length_append, List.length_singleton]
  minted other hother step hopen := by
    obtain ⟨turn, hturn, hrest⟩ :=
      h.minted other (hadopts.consumed.slots other hother (by simp [hopen])) step hopen
    exact ⟨turn, getElem?_past last hturn, hrest⟩
  distinct := hadopts.consumed.nodup h.distinct
  retained slot other hslot := by
    rw [hadopts.upgraded, Function.update_apply]
    rcases hadopts.retained slot other hslot with rfl | hold
    · exact if_pos rfl
    · rw [h.retained slot other hold]
      exact ite_self true
  numbered other hother := by
    rw [hadopts.accepted]
    rcases hadopts.cases_upgraded hother with rfl | ⟨_, hold⟩
    · exact hadopts.newest ▸ Nat.lt_succ_self _
    · exact Nat.lt_succ_of_lt (h.numbered other hold)
  known other := by
    rw [hadopts.upgraded, Function.update_apply]
    simp only [List.mem_append, List.mem_singleton, or_and_right, exists_or, exists_eq_left,
      hadopts.effects, Effect.adopted.injEq, ← h.known other]
    split <;> simp_all
  opened _ _ _ hturn hother := h.opened_adopt hadopts hturn hother
  single _ _ hfirst hsecond hsame := h.single_adopt hadopts hfirst hsecond hsame
  spent other hother hmem := by
    rcases hadopts.cases_upgraded hother with rfl | ⟨hne, hold⟩
    · rw [hadopts.openedWith_self] at hmem
      exact hadopts.consumed.gone h.distinct hmem
    · rw [hadopts.openedWith_of_ne hne] at hmem
      exact h.spent other hold (hadopts.consumed.kept _ hmem)

end

/-! ## Every step and every run -/

variable {site : Site} {libs : Libraries}

/-- The step a board makes next. -/
def turnOf (site : Site) (libs : Libraries) (access : Access) (action : Action) : Turn :=
  ⟨access, action, (access.perform site libs action).2⟩

theorem sameClients_accept (access : Access) :
    SameClients access.sockets access.acceptConnection.sockets :=
  ⟨rfl, Nat.le_succ _, fun _ _ h => h⟩

theorem sameClients_finish (access : Access) :
    SameClients access.sockets access.finishRequest.sockets :=
  ⟨rfl, Nat.le_of_eq (NetLink.finishRequest_accepted _).symm, fun _ _ h => by
    rwa [finishRequest, NetLink.finishRequest_retained] at h⟩

/-- Serving a request keeps the books. -/
theorem accounted_request {past : List Turn} {access : Access} (h : Accounted past access)
    (exchange : Exchange) :
    Accounted (past ++ [turnOf site libs access (.request exchange)])
        (access.step site libs (.request exchange)) ∧
      ∀ effect ∈ (turnOf site libs access (.request exchange)).effects,
        Caused past (turnOf site libs access (.request exchange)) effect := by
  have hrequest : access.acceptConnection.sockets.link.request =
      some access.sockets.link.accepted := rfl
  have hdealt := dealt_handleRequest site libs exchange hrequest
  have hauthenticated : (access.device.auth.authenticate access.device.store
      (signedCall exchange.request (Clock.reading exchange.gateTime))).2.1 = .kAuthOk →
      (turnOf site libs access (.request exchange)).Authenticated := fun hok =>
    ⟨exchange, rfl, hok⟩
  have haction : (turnOf site libs access (.request exchange)).action = .request exchange := rfl
  have htime : (turnOf site libs access (.request exchange)).time = exchange.handlerTime := rfl
  have hstep : access.step site libs (.request exchange) =
      { (handleRequest site libs exchange access.acceptConnection).1.finishRequest with
        steps := access.steps + 1 } := rfl
  have heffects : (turnOf site libs access (.request exchange)).effects =
      (handleRequest site libs exchange access.acceptConnection).2.1 := rfl
  rw [hstep]
  generalize turnOf site libs access (.request exchange) = last at *
  generalize handleRequest site libs exchange access.acceptConnection = handled at *
  cases hdealt with
  | plain device pairing effects answer hplain =>
      have hlast : ∀ effect ∈ last.effects, effect.Plain last.Authenticated := by
        intro effect heffect
        rw [heffects] at heffect
        exact (hplain effect heffect).mono hauthenticated
      refine ⟨?_, fun effect heffect => (hlast effect heffect).caused⟩
      exact h.keep last (fun id hid => hlast _ hid) rfl (fun _ hticket _ => hticket) h.distinct
        (fun _ hmem => hmem) ((sameClients_accept access).trans (sameClients_finish _)) rfl
  | issued device bytes answer haccepted hmethod hpath =>
      have hauth := hauthenticated haccepted
      refine ⟨?_, fun effect heffect => ?_⟩
      · refine h.issue bytes ⟨hauth, ⟨exchange, haction, hmethod, hpath⟩, ?_⟩ heffects rfl ?_
          ((sameClients_accept access).trans (sameClients_finish _)) rfl
        · rw [heffects]
          exact List.mem_cons_self
        · rw [htime]
          rfl
      · rw [heffects] at heffect
        rw [List.mem_singleton.mp heffect]
        exact hauth
  | refused device ticket tickets sockets answer hconsumed hsame =>
      refine ⟨?_, fun effect heffect => ?_⟩
      · exact h.keep last (by simp [heffects]) rfl hconsumed.slots (hconsumed.nodup h.distinct)
          hconsumed.kept ((sameClients_accept access).trans
            (hsame.trans (sameClients_finish { access with sockets := sockets }))) rfl
      · rw [heffects] at heffect
        cases heffect
  | adopted device ticket tickets sockets id answer hconsumed hrequest hupgraded haccepted
      hretained =>
      refine ⟨@Accounted.adopt past access _ last id ticket h ?_, fun effect heffect => ?_⟩
      · exact {
          action := ⟨exchange, haction⟩
          effects := heffects
          steps := rfl
          consumed := htime ▸ hconsumed
          newest := (Option.some.inj hrequest).symm
          accepted := by
            simp only [finishRequest, NetLink.finishRequest_accepted, haccepted]
            rfl
          upgraded := hupgraded
          retained slot other hslot := by
            simp only [finishRequest, NetLink.finishRequest_retained] at hslot
            exact hretained slot other hslot
          openedWith := rfl }
      · rw [heffects] at heffect
        rw [List.mem_singleton.mp heffect]
        exact trivial

/-- A press of the button changes the pairing window only. -/
theorem exists_perform_pressUp (site : Site) (libs : Libraries) (access : Access)
    (millis : UInt32) :
    ∃ window, access.perform site libs (.pressUp millis) =
      ({ access with pairing := window }, []) :=
  ⟨PairingWindow.openAt millis, by rw [perform]⟩

/-- A step that adopts nobody and leaves tickets and connections as they were. -/
theorem Accounted.quiet {past : List Turn} {access : Access} (h : Accounted past access)
    {action : Action} (hlast : ∀ id, Effect.adopted id ∉ (turnOf site libs access action).effects)
    (htickets : (access.perform site libs action).1.tickets = access.tickets)
    (hopenedWith : (access.perform site libs action).1.openedWith = access.openedWith)
    (hsockets : SameClients access.sockets (access.perform site libs action).1.sockets) :
    Accounted (past ++ [turnOf site libs access action]) (access.step site libs action) := by
  have hnext : (access.step site libs action).tickets = access.tickets := htickets
  exact h.keep _ hlast rfl (fun _ hticket _ => hnext ▸ hticket) (hnext ▸ h.distinct)
    (fun _ hmem => hnext ▸ hmem) hsockets hopenedWith

/-- The step keeps the books, and what it does is due to an accepted request or to a
connection that was adopted before. -/
def KeepsBooks (site : Site) (libs : Libraries) (past : List Turn) (access : Access)
    (action : Action) : Prop :=
  Accounted (past ++ [turnOf site libs access action]) (access.step site libs action) ∧
    ∀ effect ∈ (turnOf site libs access action).effects,
      Caused past (turnOf site libs access action) effect

section

variable {past : List Turn} {access : Access}

/-- A step without effects that leaves tickets and connections as they were. -/
theorem keepsBooks_of_silent (h : Accounted past access) {action : Action}
    (hsilent : (access.perform site libs action).2 = [])
    (htickets : (access.perform site libs action).1.tickets = access.tickets)
    (hopenedWith : (access.perform site libs action).1.openedWith = access.openedWith)
    (hsockets : SameClients access.sockets (access.perform site libs action).1.sockets) :
    KeepsBooks site libs past access action := by
  have heffects : (turnOf site libs access action).effects = [] := hsilent
  exact ⟨h.quiet (by simp [heffects]) htickets hopenedWith hsockets, by simp [heffects]⟩

/-- The button held down resets the device at most. -/
theorem keepsBooks_takeReset (h : Accounted past access) :
    KeepsBooks site libs past access .takeReset := by
  have heffects : ∀ effect ∈ (turnOf site libs access .takeReset).effects,
      effect = .reset := by
    intro effect heffect
    simp only [turnOf, perform] at heffect
    split at heffect
    · simp only at heffect
      split at heffect
      · exact List.mem_singleton.mp heffect
      · cases heffect
    · cases heffect
  refine ⟨h.quiet (fun id hid => ?_) ?_ ?_ ?_,
    fun effect heffect => heffects effect heffect ▸ trivial⟩
  · cases heffects _ hid
  · simp only [perform]
    split <;> rfl
  · simp only [perform]
    split <;> rfl
  · simp only [perform]
    split <;> exact .refl _

/-- What a poll posts comes from connections that were adopted before. -/
theorem keepsBooks_poll (h : Accounted past access) (scheduler : AppScheduler) :
    KeepsBooks site libs past access (.poll scheduler) := by
  have heffects : ∀ effect ∈ (turnOf site libs access (.poll scheduler)).effects,
      ∃ command id, effect = .posted command (some id) ∧
        access.sockets.upgraded id = true := by
    intro effect heffect
    obtain ⟨message, hmessage, hposted⟩ := List.mem_filterMap.mp heffect
    obtain ⟨command, _, rfl⟩ := Option.map_eq_some_iff.mp hposted
    exact ⟨command, message.1, rfl, upgraded_of_message h.retained hmessage⟩
  refine ⟨h.quiet (fun id hid => ?_) rfl rfl ?_, fun effect heffect => ?_⟩
  · obtain ⟨_, _, hother, _⟩ := heffects _ hid
    cases hother
  · rw [perform]
    exact sameClients_poll _
  · obtain ⟨command, id, rfl, hid⟩ := heffects effect heffect
    exact (h.known id).mp hid

theorem keepsBooks_peerDelivers (h : Accounted past access) (id : ConnId) (bytes : Bytes) :
    KeepsBooks site libs past access (.peerDelivers id bytes) := by
  refine keepsBooks_of_silent h ?_ ?_ ?_ ?_ <;> simp only [perform]
  · split <;> rfl
  · split <;> rfl
  · split <;> rfl
  · split
    · exact ⟨rfl, Nat.le_refl _, fun _ _ h => h⟩
    · exact .refl _

end

theorem accounted_step (site : Site) (libs : Libraries) {past : List Turn} {access : Access}
    (h : Accounted past access) (action : Action) : KeepsBooks site libs past access action := by
  cases action with
  | pressUp millis =>
      obtain ⟨window, hperform⟩ := exists_perform_pressUp site libs access millis
      exact keepsBooks_of_silent h (by rw [hperform]) (by rw [hperform]) (by rw [hperform])
        (by rw [hperform]; exact .refl _)
  | holdDown => exact keepsBooks_of_silent h rfl rfl rfl (.refl _)
  | takeReset => exact keepsBooks_takeReset h
  | request exchange => exact accounted_request h exchange
  | poll scheduler => exact keepsBooks_poll h scheduler
  | broadcast text taken =>
      refine keepsBooks_of_silent h rfl rfl rfl ?_
      rw [perform]
      exact sameClients_broadcast _ text taken
  | peerDelivers id bytes => exact keepsBooks_peerDelivers h id bytes
  | peerDisconnects id =>
      exact keepsBooks_of_silent h rfl rfl rfl ⟨rfl, Nat.le_refl _, fun _ _ h => h⟩

/-- A whole run keeps the books. -/
theorem accounted_run (site : Site) (libs : Libraries) :
    ∀ (actions : List Action) (past : List Turn) (access : Access), Accounted past access →
    Accounted (past ++ trace site libs access actions) (run site libs access actions) ∧
      ∀ k turn, (trace site libs access actions)[k]? = some turn → ∀ effect ∈ turn.effects,
        Caused (past ++ (trace site libs access actions).take k) turn effect := by
  intro actions
  induction actions with
  | nil =>
      intro past access h
      rw [trace, List.append_nil]
      exact ⟨h, fun k turn hturn => by simp at hturn⟩
  | cons action rest ih =>
      intro past access h
      obtain ⟨hnext, hcaused⟩ := accounted_step site libs h action
      obtain ⟨hrun, hrest⟩ := ih _ _ hnext
      rw [List.append_assoc] at hrun
      refine ⟨hrun, fun k turn hturn effect heffect => ?_⟩
      cases k with
      | zero =>
          cases hturn
          rw [List.take_zero, List.append_nil]
          exact hcaused effect heffect
      | succ k =>
          have htail := hrest k turn hturn effect heffect
          rw [List.append_assoc] at htail
          exact htail

/-! ## The clock -/

/-- The clock readings of a step, in order. -/
def Action.readings : Action → List (Option Nat)
  | .request exchange => [exchange.gateTime, exchange.handlerTime]
  | _ => []

/-- A later reading of a clock that stays synced, never steps back and has not advanced by
`2^31` seconds since. -/
def Follows (earlier later : Option Nat) : Prop :=
  ∀ a, earlier = some a → ∃ b, later = some b ∧ a ≤ b ∧ b < a + 2 ^ 31

/-- The clock keeps going forward over the run. -/
def Steady (actions : List Action) : Prop := (actions.flatMap Action.readings).Pairwise Follows

theorem trace_action (site : Site) (libs : Libraries) (access : Access) (actions : List Action) :
    (trace site libs access actions).map Turn.action = actions := by
  induction actions generalizing access with
  | nil => rfl
  | cons action rest ih => rw [trace, List.map_cons, ih]

theorem time_mem_readings {turn : Turn} {exchange : Exchange}
    (h : turn.action = .request exchange) : turn.time ∈ turn.action.readings := by
  rw [Turn.time, h]
  exact List.mem_cons_of_mem _ List.mem_cons_self

/-- The clock of an accepted request is synced. -/
theorem gateTime_of_authenticated {turn : Turn} {exchange : Exchange}
    (h : turn.Authenticated) (haction : turn.action = .request exchange) :
    ∃ t, exchange.gateTime = some t := by
  obtain ⟨other, hother, hok⟩ := h
  cases haction.symm.trans hother
  obtain ⟨request, hcheck⟩ := Authenticator.exists_checked hok
  obtain ⟨_, _, hpasses⟩ := Authenticator.exists_passes hcheck
  have hvalid := hpasses.clock
  cases htime : exchange.gateTime with
  | none =>
      rw [signedCall, htime] at hvalid
      cases hvalid
  | some t => exact ⟨t, rfl⟩

/-- Of two steps of a steady run, the later handler reads a time that follows. -/
theorem Steady.follows {access : Access} {actions : List Action} (h : Steady actions)
    {i k : Nat} {earlier later : Turn}
    (hearlier : (trace site libs access actions)[i]? = some earlier)
    (hlater : (trace site libs access actions)[k]? = some later) (hlt : i < k)
    {first second : Option Nat} (hfirst : first ∈ earlier.action.readings)
    (hsecond : second ∈ later.action.readings) : Follows first second := by
  have hactions := (List.pairwise_flatMap.mp h).2
  rw [← trace_action site libs access actions, List.pairwise_map] at hactions
  obtain ⟨hi, rfl⟩ := List.getElem?_eq_some_iff.mp hearlier
  obtain ⟨hk, rfl⟩ := List.getElem?_eq_some_iff.mp hlater
  exact List.pairwise_iff_getElem.mp hactions i k hi hk hlt first hfirst second hsecond

end Access

end MatrixFaces.Api
