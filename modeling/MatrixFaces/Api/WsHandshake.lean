import MatrixFaces.Api.HubTurns

set_option autoImplicit false

/-!
# The handshake comes before every frame

The upgrade handler makes a connection known to the hub with `adopt()` and writes the
101 response afterwards, in three writes, without the hub's mutex.  A hub operation in
between writes a frame in front of the response or into it.

The main result is `handshake_first_iff`, over every run of `Api.WsTable`.  `HandshakeFirst`
says of every upgraded connection that what was written to it begins with the response.

`HubWaits` is the condition, on the state in front of a step.  An `adopt` takes a connection
to which nothing was written; and until the response is complete, a broadcast or a poll comes
to an entry of that client only with nothing to write to it.

Both directions come from one step.  `Orderly` is the invariant of the runs in which every
step meets the condition (`orderly_step`), and a step that does not meet it leaves a
connection out of order (`not_handshakeFirst_of_step`).  `frame_before_handshake` is such a
run.
-/

namespace MatrixFaces.Api

open MatrixFaces.Foundation
open MatrixFaces.Board
open MatrixFaces.Api.WsHub

namespace Sockets

/-! ## The property -/

/-- The three writes of the 101 response. -/
def response (acceptKey : Bytes) : List Written :=
  (List.range 3).map fun part => .response part (responsePart acceptKey part)

/-- What a client has to see: the response, as far as it was written, and frames only behind
all three parts of it. -/
def InOrder (acceptKey : Bytes) (written : List Written) : Prop :=
  written <+: response acceptKey ∨
    ∃ frames : List Bytes, written = response acceptKey ++ frames.map .frame

/-- Every client that was upgraded saw the response first, the closed ones included. -/
def HandshakeFirst (acceptKey : Bytes) (sockets : Sockets) : Prop :=
  ∀ id, sockets.upgraded id = true → InOrder acceptKey (sockets.link.conns id).written

/-- The client whose response is being written. -/
def handshaking (sockets : Sockets) : Option ConnId :=
  match sockets.net with
  | .adopted slot => sockets.link.holder slot
  | .printing slot _ => sockets.link.holder slot
  | _ => none

/-- How many of the three writes the handler has made. -/
def partsWritten : UpgradePc → Nat
  | .printing _ part => part
  | _ => 0

/-- The first entry with this client. -/
def firstEntry (sockets : Sockets) (id : ConnId) : Option Slot :=
  (List.finRange kMaxRetained).find? fun i => sockets.clientOf i = some id

/-- The hub leaves a connection alone until its response is written: what is adopted has
been sent nothing, and a poll or broadcast between the adopt and the last write finds
nothing to send to it. -/
def HubWaits (sockets : Sockets) : Action → Prop
  | .adopt => ∀ slot, sockets.net = .retained slot → freeIndex sockets.initTable ≠ none →
      ∀ id ∈ sockets.link.retained slot, (sockets.link.conns id).written = []
  | .poll => ∀ id ∈ sockets.handshaking, ∀ i ∈ sockets.firstEntry id, sockets.pollFrames i = []
  | .broadcast text taken => ∀ id ∈ sockets.handshaking, ∀ i ∈ sockets.firstEntry id,
      Ws.encodeHeader Ws.kText text.length = none ∨ text = [] ∨ taken i = 0
  | _ => True

instance (sockets : Sockets) : ∀ action, Decidable (sockets.HubWaits action)
  | .adopt =>
      inferInstanceAs (Decidable (∀ slot, sockets.net = .retained slot →
        freeIndex sockets.initTable ≠ none →
        ∀ id ∈ sockets.link.retained slot, (sockets.link.conns id).written = []))
  | .poll =>
      inferInstanceAs (Decidable (∀ id ∈ sockets.handshaking, ∀ i ∈ sockets.firstEntry id,
        sockets.pollFrames i = []))
  | .broadcast text taken =>
      inferInstanceAs (Decidable (∀ id ∈ sockets.handshaking, ∀ i ∈ sockets.firstEntry id,
        Ws.encodeHeader Ws.kText text.length = none ∨ text = [] ∨ taken i = 0))
  | .accept | .readRequest _ | .retain | .release | .lookUp | .print | .finishRequest
  | .peerDelivers _ _ | .peerDisconnects _ => isTrue trivial

/-- A frame behind an incomplete response is out of order. -/
theorem not_inOrder_of_frame {acceptKey : Bytes} {part : Nat} (hpart : part ≤ 2)
    {frames : List Bytes} (hframes : frames ≠ []) :
    ¬ InOrder acceptKey ((response acceptKey).take part ++ frames.map .frame) := by
  intro h
  obtain ⟨frame, rest, rfl⟩ := List.exists_cons_of_ne_nil hframes
  have hlength : (response acceptKey).length = 3 := by simp [response]
  have hat : ((response acceptKey).take part ++ (frame :: rest).map .frame)[part]? =
      some (.frame frame) := by
    rw [List.getElem?_append_right (by rw [List.length_take]; omega), List.length_take,
      Nat.min_eq_left (by omega), Nat.sub_self]
    rfl
  have hresponse : (response acceptKey)[part]? =
      some (.response part (responsePart acceptKey part)) := by
    rw [response, List.getElem?_map, List.getElem?_range (by omega)]
    rfl
  have hsame : ((response acceptKey).take part ++ (frame :: rest).map .frame)[part]? =
      (response acceptKey)[part]? := by
    rcases h with ⟨more, hmore⟩ | ⟨more, hmore⟩
    · have hget := congrArg (fun written => written[part]?) hmore
      have hbehind : part <
          ((response acceptKey).take part ++ (frame :: rest).map Written.frame).length := by
        rw [List.length_append, List.length_take, List.length_map, List.length_cons]
        omega
      rw [List.getElem?_append_left hbehind] at hget
      exact hget
    · rw [hmore, List.getElem?_append_left (by omega)]
  rw [hat, hresponse] at hsame
  cases hsame

/-! ## The invariant -/

/-- What every run keeps as long as the hub waits.  A client whose response is under way saw the
parts written so far and nothing else; an upgraded one that is open and has its response saw
frames behind it; and one that was not upgraded yet saw no part. -/
structure Orderly (acceptKey : Bytes) (sockets : Sockets) : Prop where
  settled : AllSettled sockets
  known : ∀ slot id, sockets.link.retained slot = some id → id < sockets.link.accepted
  request : ∀ id, sockets.link.request = some id →
    id < sockets.link.accepted ∧ sockets.upgraded id = false
  fresh : ∀ id, sockets.link.accepted ≤ id → sockets.upgraded id = false
  raw : ∀ id, sockets.upgraded id = false →
    ∃ frames : List Bytes, (sockets.link.conns id).written = frames.map .frame
  pending : ∀ slot, sockets.net = .retained slot → sockets.link.request = none ∧
    ∀ id, sockets.link.retained slot = some id → sockets.upgraded id = false
  part : partsWritten sockets.net ≤ 2
  shaking : ∀ id, sockets.handshaking = some id → sockets.upgraded id = true ∧
    (sockets.link.conns id).written = (response acceptKey).take (partsWritten sockets.net)
  complete : ∀ id, sockets.upgraded id = true → (sockets.link.conns id).isOpen = true →
    sockets.handshaking ≠ some id →
    ∃ frames : List Bytes, (sockets.link.conns id).written =
      response acceptKey ++ frames.map .frame
  ordered : HandshakeFirst acceptKey sockets

theorem orderly_boot (acceptKey : Bytes) : Orderly acceptKey boot where
  settled _ := settled_free
  known _ _ h := by cases h
  request _ h := by cases h
  fresh _ _ := rfl
  raw _ _ := ⟨[], rfl⟩
  pending _ h := by cases h
  part := Nat.zero_le 2
  shaking _ h := by cases h
  complete _ h := by cases h
  ordered _ h := by cases h

variable {acceptKey : Bytes} {sockets next : Sockets}

theorem Served.holder_of_next (h : Served sockets next) {k : Slot} {id : ConnId}
    (hk : next.link.holder k = some id) : sockets.link.holder k = some id := by
  obtain ⟨hretained, hopen⟩ := NetLink.holder_eq_some_iff.mp hk
  exact NetLink.holder_eq_some_iff.mpr ⟨h.retained k id hretained, h.opened id hopen⟩

theorem Served.modify_written (id : ConnId) {f : Conn → Conn}
    (hf : ∀ conn, (f conn).written = conn.written) (other : ConnId) :
    ((sockets.link.modify id f).conns other).written = (sockets.link.conns other).written := by
  simp only [NetLink.modify, Function.update_apply]
  split
  · rename_i hsame
    rw [hsame, hf]
  · rfl

/-- A connection changes, and is written nothing. -/
theorem Served.modify (id : ConnId) {f : Conn → Conn}
    (hopen : ∀ conn, (f conn).isOpen = true → conn.isOpen = true)
    (hf : ∀ conn, (f conn).written = conn.written) :
    Served sockets { sockets with link := sockets.link.modify id f } where
  net := rfl
  upgraded := rfl
  accepted := rfl
  request _ h := h
  opened other hother := by
    simp only [NetLink.modify, Function.update_apply] at hother
    split at hother
    · rename_i hsame
      rw [hsame]
      exact hopen _ hother
    · exact hother
  retained _ _ h := h
  holder_kept k other hk hother :=
    NetLink.holder_eq_some_iff.mpr ⟨(NetLink.holder_eq_some_iff.mp hk).1, hother⟩
  written other :=
    ⟨[], by rw [Served.modify_written id hf, List.map_nil, List.append_nil],
      fun hne => absurd rfl hne⟩

/-- A slot without an open client is emptied. -/
theorem Served.forget {slot : Slot} (hholder : sockets.link.holder slot = none) :
    Served sockets { sockets with
      link := { sockets.link with
        retained := Function.update sockets.link.retained slot none } } where
  net := rfl
  upgraded := rfl
  accepted := rfl
  request _ h := h
  opened _ h := h
  retained k id hk := by
    simp only [Function.update_apply] at hk
    split at hk
    · cases hk
    · exact hk
  holder_kept k id hk hopen := by
    have hne : k ≠ slot := by
      rintro rfl
      rw [hk] at hholder
      cases hholder
    refine NetLink.holder_eq_some_iff.mpr ⟨?_, hopen⟩
    exact (Function.update_of_ne hne _ _).trans (NetLink.holder_eq_some_iff.mp hk).1
  written _ := ⟨[], by simp, fun hne => absurd rfl hne⟩

theorem Served.release (sockets : Sockets) (slot : Slot) :
    Served sockets { sockets with link := sockets.link.release slot } := by
  cases hholder : sockets.link.holder slot with
  | none =>
      rw [NetLink.release_of_empty hholder]
      exact Served.forget hholder
  | some id =>
      rw [NetLink.release_of_holder hholder]
      have hstop : Served sockets { sockets with link := sockets.link.stop id } :=
        Served.modify id (fun _ hopen => by cases hopen) fun _ => rfl
      refine hstop.trans (@Served.forget { sockets with link := sockets.link.stop id } slot ?_)
      have hretained := (NetLink.holder_eq_some_iff.mp hholder).1
      simp [NetLink.holder, hretained, NetLink.stop, NetLink.modify]

theorem Served.finishRequest (sockets : Sockets) :
    Served sockets { sockets with link := sockets.link.finishRequest } := by
  unfold NetLink.finishRequest
  split
  · exact Served.refl sockets
  · rename_i id _
    have hstop : Served sockets { sockets with link := sockets.link.stop id } :=
      Served.modify id (fun _ hopen => by cases hopen) fun _ => rfl
    exact ⟨rfl, rfl, rfl, fun _ h => (by cases h), hstop.opened, hstop.retained, hstop.holder_kept,
      hstop.written⟩

theorem Served.handshaking_of_next (h : Served sockets next) {id : ConnId}
    (hid : next.handshaking = some id) : sockets.handshaking = some id := by
  unfold handshaking at hid ⊢
  rw [h.net] at hid
  split at hid
  · exact h.holder_of_next hid
  · exact h.holder_of_next hid
  · cases hid

theorem Served.handshaking_kept (h : Served sockets next) {id : ConnId}
    (hid : sockets.handshaking = some id) (hopen : (next.link.conns id).isOpen = true) :
    next.handshaking = some id := by
  unfold handshaking at hid ⊢
  rw [h.net]
  split at hid
  · exact h.holder_kept _ id hid hopen
  · exact h.holder_kept _ id hid hopen
  · cases hid

theorem Served.handshaking_none (h : Served sockets next) (hnone : sockets.handshaking = none) :
    next.handshaking = none := by
  cases hnext : next.handshaking with
  | none => rfl
  | some id =>
      have hsome := h.handshaking_of_next hnext
      rw [hnone] at hsome
      cases hsome

/-- Serving the connections keeps the order when nothing is written to the client whose
response is not complete. -/
theorem Orderly.serve (h : Orderly acceptKey sockets) (hserved : Served sockets next)
    (hsettled : AllSettled next)
    (hquiet : ∀ id, sockets.handshaking = some id →
      (next.link.conns id).written = (sockets.link.conns id).written) :
    Orderly acceptKey next where
  settled := hsettled
  known slot id hid := hserved.accepted ▸ h.known slot id (hserved.retained slot id hid)
  request id hid := by
    rw [hserved.accepted, hserved.upgraded]
    exact h.request id (hserved.request id hid)
  fresh id hid := by
    rw [hserved.accepted] at hid
    rw [hserved.upgraded]
    exact h.fresh id hid
  raw id hid := by
    rw [hserved.upgraded] at hid
    obtain ⟨old, hold⟩ := h.raw id hid
    obtain ⟨frames, hframes, _⟩ := hserved.written id
    exact ⟨old ++ frames, by rw [hframes, hold, List.map_append]⟩
  pending slot hslot := by
    rw [hserved.net] at hslot
    obtain ⟨hrequest, hclient⟩ := h.pending slot hslot
    refine ⟨?_, fun id hid => ?_⟩
    · cases hnext : next.link.request with
      | none => rfl
      | some id =>
          rw [hserved.request id hnext] at hrequest
          cases hrequest
    · rw [hserved.upgraded]
      exact hclient id (hserved.retained slot id hid)
  part := hserved.net ▸ h.part
  shaking id hid := by
    have hbefore := hserved.handshaking_of_next hid
    rw [hserved.upgraded, hserved.net, hquiet id hbefore]
    exact h.shaking id hbefore
  complete id hup hopen hnot := by
    rw [hserved.upgraded] at hup
    have hbefore : sockets.handshaking ≠ some id :=
      fun hid => hnot (hserved.handshaking_kept hid hopen)
    obtain ⟨old, hold⟩ := h.complete id hup (hserved.opened id hopen) hbefore
    obtain ⟨frames, hframes, _⟩ := hserved.written id
    exact ⟨old ++ frames, by rw [hframes, hold, List.map_append, List.append_assoc]⟩
  ordered id hup := by
    rw [hserved.upgraded] at hup
    obtain ⟨frames, hframes, hopen⟩ := hserved.written id
    by_cases hnil : frames = []
    · rw [hframes, hnil, List.map_nil, List.append_nil]
      exact h.ordered id hup
    · by_cases hid : sockets.handshaking = some id
      · rw [hquiet id hid]
        exact h.ordered id hup
      · obtain ⟨old, hold⟩ := h.complete id hup (hopen hnil) hid
        exact Or.inr ⟨old ++ frames, by rw [hframes, hold, List.map_append, List.append_assoc]⟩

theorem Orderly.serve_idle (h : Orderly acceptKey sockets) (hserved : Served sockets next)
    (htable : next.table = sockets.table) (hbefore : sockets.handshaking = none) :
    Orderly acceptKey next := by
  refine h.serve hserved (fun i => ?_) fun id hid => ?_
  · rw [htable]
    exact h.settled i
  · rw [hbefore] at hid
    cases hid

theorem Orderly.modify (h : Orderly acceptKey sockets) (id : ConnId) {f : Conn → Conn}
    (hopen : ∀ conn, (f conn).isOpen = true → conn.isOpen = true)
    (hf : ∀ conn, (f conn).written = conn.written) :
    Orderly acceptKey { sockets with link := sockets.link.modify id f } :=
  h.serve (Served.modify id hopen hf) h.settled fun other _ => Served.modify_written id hf other

/-- Nothing is written, and the response that is on its way stays the same. -/
theorem Orderly.of_link (h : Orderly acceptKey sockets) (hlink : next.link = sockets.link)
    (hup : next.upgraded = sockets.upgraded) (hsettled : AllSettled next)
    (hsame : next.handshaking = sockets.handshaking) (hpart : partsWritten next.net ≤ 2)
    (hcount : sockets.handshaking ≠ none → partsWritten next.net = partsWritten sockets.net)
    (hretained : ∀ slot, next.net = .retained slot → sockets.net = .retained slot) :
    Orderly acceptKey next where
  settled := hsettled
  known := by
    rw [hlink]
    exact h.known
  request := by
    rw [hlink, hup]
    exact h.request
  fresh := by
    rw [hlink, hup]
    exact h.fresh
  raw := by
    rw [hlink, hup]
    exact h.raw
  pending slot hslot := by
    rw [hlink, hup]
    exact h.pending slot (hretained slot hslot)
  part := hpart
  shaking id hid := by
    rw [hsame] at hid
    rw [hlink, hup, hcount (by rw [hid]; simp)]
    exact h.shaking id hid
  complete := by
    rw [hlink, hup, hsame]
    exact h.complete
  ordered := by
    rw [HandshakeFirst, hlink, hup]
    exact h.ordered

/-- The handler goes on. -/
theorem Orderly.goOn (h : Orderly acceptKey sockets) {net : UpgradePc}
    (hsame : ({ sockets with net := net } : Sockets).handshaking = sockets.handshaking)
    (hpart : partsWritten net ≤ 2)
    (hcount : sockets.handshaking ≠ none → partsWritten net = partsWritten sockets.net)
    (hretained : ∀ slot, net ≠ .retained slot) :
    Orderly acceptKey { sockets with net := net } :=
  h.of_link rfl rfl h.settled hsame hpart hcount fun slot hslot => absurd hslot (hretained slot)

/-- The handler is through with a client whose response is complete or was given up. -/
theorem Orderly.rest (h : Orderly acceptKey sockets) (hbefore : sockets.handshaking = none)
    {net : UpgradePc} (hnet : net = .finishing ∨ net = .idle) :
    Orderly acceptKey { sockets with net := net } := by
  rcases hnet with rfl | rfl <;>
    exact h.goOn hbefore.symm (Nat.zero_le 2) (fun hsome => absurd hbefore hsome) (by simp)

/-! ## The handler's steps -/

theorem Orderly.accept (h : Orderly acceptKey sockets) (hbefore : sockets.handshaking = none) :
    Orderly acceptKey { sockets with link := sockets.link.accept, net := .serving } where
  settled := h.settled
  known slot id hid := Nat.lt_succ_of_lt (h.known slot id hid)
  request id hid := by
    obtain rfl : sockets.link.accepted = id := Option.some.inj hid
    exact ⟨Nat.lt_succ_self _, h.fresh _ le_rfl⟩
  fresh id hid := h.fresh id (Nat.le_of_succ_le hid)
  raw id hid := by
    by_cases hnew : id = sockets.link.accepted
    · exact ⟨[], by simp [NetLink.accept, hnew]⟩
    · obtain ⟨frames, hframes⟩ := h.raw id hid
      exact ⟨frames, by simpa [NetLink.accept, Function.update_of_ne hnew] using hframes⟩
  pending slot hslot := by cases hslot
  part := Nat.zero_le 2
  shaking id hid := by cases hid
  complete id hup hopen _ := by
    have hold : id ≠ sockets.link.accepted := by
      rintro rfl
      exact absurd (h.fresh _ le_rfl) (by simp [show sockets.upgraded _ = true from hup])
    simp only [NetLink.accept, Function.update_of_ne hold] at hopen ⊢
    exact h.complete id hup hopen (by rw [hbefore]; simp)
  ordered id hup := by
    have hold : id ≠ sockets.link.accepted := by
      rintro rfl
      exact absurd (h.fresh _ le_rfl) (by simp [show sockets.upgraded _ = true from hup])
    simp only [NetLink.accept, Function.update_of_ne hold]
    exact h.ordered id hup

theorem Orderly.retain (h : Orderly acceptKey sockets) (hbefore : sockets.handshaking = none)
    {slot : Slot} {link : NetLink} (hretain : sockets.link.retain = some (slot, link)) :
    Orderly acceptKey { sockets with link := link, net := .retained slot } := by
  obtain ⟨_, rfl⟩ := NetLink.retain_eq_some hretain
  refine
    { settled := h.settled
      known := fun k id hid => ?_
      request := fun id hid => by cases hid
      fresh := h.fresh
      raw := h.raw
      pending := fun k hk => ?_
      part := Nat.zero_le 2
      shaking := fun id hid => by cases hid
      complete := fun id hup hopen _ => h.complete id hup hopen (by rw [hbefore]; simp)
      ordered := h.ordered }
  · simp only [Function.update_apply] at hid
    split at hid
    · exact (h.request id hid).1
    · exact h.known k id hid
  · obtain rfl : slot = k := by simpa using hk
    refine ⟨rfl, fun id hid => ?_⟩
    simp only [Function.update_self] at hid
    exact (h.request id hid).2

/-- `adopt` looks at the slots of the entries only. -/
theorem initTable_settled (h : AllSettled sockets) (i : Slot) : Settled (sockets.initTable i) := by
  unfold initTable
  split
  · exact h i
  · exact h i

/-- A connection to which nothing was written becomes the hub's. -/
theorem Orderly.adopt_client (h : Orderly acceptKey sockets) {slot : Slot} {client : ConnId}
    (hnet : sockets.net = .retained slot) (hheld : sockets.link.retained slot = some client)
    (hwritten : (sockets.link.conns client).written = []) {table : Slot → Entry}
    (hsettled : ∀ i, Settled (table i)) :
    Orderly acceptKey { sockets with
      table := table
      initialised := true
      net := .adopted slot
      hubRan := true
      upgraded := Function.update sockets.upgraded client true } := by
  have hbefore : sockets.handshaking = none := by rw [handshaking, hnet]
  have hother : ∀ id, Function.update sockets.upgraded client true id = true →
      id = client ∨ sockets.upgraded id = true := by
    intro id hup
    rw [Function.update_apply] at hup
    split at hup
    · exact Or.inl ‹_›
    · exact Or.inr hup
  refine
    { settled := hsettled
      known := h.known
      request := fun id hid => absurd ((h.pending slot hnet).1.symm.trans hid) (by simp)
      fresh := fun id hid => ?_
      raw := fun id hid => ?_
      pending := fun k hk => by cases hk
      part := Nat.zero_le 2
      shaking := fun id hid => ?_
      complete := fun id hup hopen hnot => ?_
      ordered := fun id hup => ?_ }
  · have hne : id ≠ client := by
      rintro rfl
      exact absurd (h.known slot id hheld) (not_lt.mpr hid)
    simp only [Function.update_of_ne hne]
    exact h.fresh id hid
  · have hne : id ≠ client := by
      rintro rfl
      simp at hid
    simp only [Function.update_of_ne hne] at hid
    exact h.raw id hid
  · have hid : sockets.link.holder slot = some id := hid
    obtain ⟨hretained, _⟩ := NetLink.holder_eq_some_iff.mp hid
    obtain rfl : client = id := Option.some.inj (hheld.symm.trans hretained)
    exact ⟨by simp, hwritten⟩
  · rcases hother id hup with rfl | hold
    · exact absurd (NetLink.holder_eq_some_iff.mpr ⟨hheld, hopen⟩) hnot
    · exact h.complete id hold hopen (by rw [hbefore]; simp)
  · rcases hother id hup with rfl | hold
    · refine Or.inl ?_
      show (sockets.link.conns id).written <+: _
      rw [hwritten]
      exact List.nil_prefix
    · exact h.ordered id hold

theorem Orderly.adopt (h : Orderly acceptKey sockets) {slot : Slot}
    (hnet : sockets.net = .retained slot) (hguard : sockets.HubWaits .adopt) :
    Orderly acceptKey (sockets.adopt slot) := by
  have hbefore : sockets.handshaking = none := by rw [handshaking, hnet]
  unfold Sockets.adopt
  simp only
  split
  · exact h.of_link rfl rfl (initTable_settled h.settled) hbefore.symm (Nat.zero_le 2)
      (fun hsome => absurd hbefore hsome) fun k hk => by cases hk
  · rename_i i hfree
    have hsettled : ∀ j, Settled (Function.update sockets.initTable i ⟨some slot, []⟩ j) := by
      intro j
      rw [Function.update_apply]
      split
      · exact settled_free
      · exact initTable_settled h.settled j
    split
    · rename_i hnone
      have hafter : sockets.link.holder slot = none := by
        rw [NetLink.holder, hnone]
        rfl
      exact h.of_link rfl rfl hsettled (hafter.trans hbefore.symm) (Nat.zero_le 2)
        (fun hsome => absurd hbefore hsome) fun k hk => by cases hk
    · rename_i client hheld
      exact h.adopt_client hnet hheld (hguard slot hnet (by rw [hfree]; simp) client hheld) hsettled

theorem response_length (acceptKey : Bytes) : (response acceptKey).length = 3 := by
  simp [response]

/-- One more of the three writes. -/
theorem response_take_succ (acceptKey : Bytes) {part : Nat} (hpart : part ≤ 2) :
    (response acceptKey).take (part + 1) =
      (response acceptKey).take part ++ [.response part (responsePart acceptKey part)] := by
  rw [List.take_add_one, response, List.getElem?_map, List.getElem?_range (by omega)]
  rfl

/-- A write to a client that is gone. -/
theorem Orderly.print_gone (h : Orderly acceptKey sockets) {slot : Slot} {part : Nat}
    (hnet : sockets.net = .printing slot part) (hholder : sockets.link.holder slot = none) :
    Orderly acceptKey { sockets with net := afterPart slot part } := by
  have hbefore : sockets.handshaking = none := by rw [handshaking, hnet]; exact hholder
  have hpart : part ≤ 2 := by simpa [hnet, partsWritten] using h.part
  by_cases hlast : part = 2
  · rw [afterPart, if_pos hlast]
    exact h.rest hbefore (Or.inl rfl)
  · rw [afterPart, if_neg hlast]
    refine h.goOn (hholder.trans hbefore.symm) ?_ (fun hsome => absurd hbefore hsome) (by simp)
    simp only [partsWritten]
    omega

/-- The state behind one of the three writes to a client. -/
def printed (acceptKey : Bytes) (sockets : Sockets) (slot : Slot) (part : Nat) (id : ConnId) :
    Sockets :=
  { sockets with
    link := sockets.link.modify id fun conn =>
      { conn with written := conn.written ++ [.response part (responsePart acceptKey part)] }
    net := afterPart slot part }

section

variable {slot : Slot} {part : Nat} {id other : ConnId}

theorem conns_printed_of_ne (hne : other ≠ id) :
    (printed acceptKey sockets slot part id).link.conns other = sockets.link.conns other :=
  Function.update_of_ne hne _ _

/-- Behind the last part the handler is done with the client. -/
theorem handshaking_printed (hholder : sockets.link.holder slot = some id) :
    (printed acceptKey sockets slot part id).handshaking = if part = 2 then none else some id := by
  by_cases hlast : part = 2
  · simp [printed, handshaking, afterPart, hlast]
  · obtain ⟨hretained, hopen⟩ := NetLink.holder_eq_some_iff.mp hholder
    simp only [printed, handshaking, afterPart, if_neg hlast]
    refine NetLink.holder_eq_some_iff.mpr ⟨hretained, ?_⟩
    simp only [NetLink.modify, Function.update_self]
    exact hopen

/-- The client has one part more. -/
theorem Orderly.written_printed (h : Orderly acceptKey sockets)
    (hnet : sockets.net = .printing slot part) (hholder : sockets.link.holder slot = some id) :
    ((printed acceptKey sockets slot part id).link.conns id).written =
      (response acceptKey).take (part + 1) := by
  have hbefore : sockets.handshaking = some id := by rw [handshaking, hnet]; exact hholder
  have hpart : part ≤ 2 := by simpa [hnet, partsWritten] using h.part
  have hwritten := (h.shaking id hbefore).2
  rw [hnet] at hwritten
  rw [response_take_succ acceptKey hpart]
  simp only [printed, NetLink.modify, Function.update_self, hwritten]
  rfl

/-- An open client that is not waiting for another part has the whole response. -/
theorem Orderly.complete_printed (h : Orderly acceptKey sockets)
    (hnet : sockets.net = .printing slot part) (hholder : sockets.link.holder slot = some id)
    (hother : sockets.upgraded other = true)
    (hopen : ((printed acceptKey sockets slot part id).link.conns other).isOpen = true)
    (hnot : (printed acceptKey sockets slot part id).handshaking ≠ some other) :
    ∃ frames : List Bytes, ((printed acceptKey sockets slot part id).link.conns other).written =
      response acceptKey ++ frames.map .frame := by
  rw [handshaking_printed hholder] at hnot
  by_cases hne : other = id
  · subst hne
    have hlast : part = 2 := by
      by_contra hmore
      exact hnot (if_neg hmore)
    refine ⟨[], ?_⟩
    rw [h.written_printed hnet hholder, hlast, List.map_nil, List.append_nil]
    exact List.take_of_length_le (response_length acceptKey).le
  · have hbefore : sockets.handshaking = some id := by rw [handshaking, hnet]; exact hholder
    rw [conns_printed_of_ne hne] at hopen ⊢
    exact h.complete other hother hopen fun hsame =>
      hne (Option.some.inj (hsame.symm.trans hbefore))

/-- A write of the response. -/
theorem Orderly.print_open (h : Orderly acceptKey sockets)
    (hnet : sockets.net = .printing slot part) (hholder : sockets.link.holder slot = some id) :
    Orderly acceptKey (printed acceptKey sockets slot part id) := by
  have hbefore : sockets.handshaking = some id := by rw [handshaking, hnet]; exact hholder
  have hpart : part ≤ 2 := by simpa [hnet, partsWritten] using h.part
  have hup := (h.shaking id hbefore).1
  refine
    { settled := h.settled
      known := h.known
      request := h.request
      fresh := h.fresh
      raw := fun other hother => ?raw
      pending := fun k hk => ?pending
      part := ?part
      shaking := fun other hother => ?shaking
      complete := fun other => h.complete_printed hnet hholder
      ordered := fun other hother => ?ordered }
  case raw =>
    have hne : other ≠ id := by
      rintro rfl
      exact absurd (hup.symm.trans hother) (by simp)
    rw [conns_printed_of_ne hne]
    exact h.raw other hother
  case pending =>
    simp only [printed, afterPart] at hk
    split at hk <;> cases hk
  case part =>
    simp only [printed, afterPart]
    split
    · exact Nat.zero_le 2
    · simp only [partsWritten]
      omega
  case shaking =>
    rw [handshaking_printed hholder] at hother
    split at hother
    · cases hother
    · rename_i hmore
      cases hother
      refine ⟨hup, (h.written_printed hnet hholder).trans ?_⟩
      simp only [printed, afterPart, if_neg hmore, partsWritten]
  case ordered =>
    by_cases hne : other = id
    · subst hne
      refine Or.inl ?_
      rw [h.written_printed hnet hholder]
      exact List.take_prefix _ _
    · rw [conns_printed_of_ne hne]
      exact h.ordered other hother

end

/-! ## The hub's steps -/

theorem poll_eq_run (sockets : Sockets) :
    sockets.poll =
      { pollLoop.run (List.finRange kMaxRetained) sockets with hubRan := true } := rfl

theorem broadcast_eq_run (sockets : Sockets) {text header : Bytes} (taken : Slot → Nat)
    (hheader : Ws.encodeHeader Ws.kText text.length = some header) (htext : text ≠ []) :
    sockets.broadcast text taken =
      (broadcastLoop (header ++ text) (List.append_ne_nil_of_right_ne_nil header htext) taken).run
        (List.finRange kMaxRetained) sockets := by
  rw [Sockets.broadcast, hheader]
  simp only [htext, if_false]
  rfl

theorem Orderly.poll (h : Orderly acceptKey sockets) (hguard : sockets.HubWaits .poll) :
    Orderly acceptKey sockets.poll := by
  rw [poll_eq_run]
  have hrun : Orderly acceptKey (pollLoop.run (List.finRange kMaxRetained) sockets) :=
    h.serve (pollLoop.served _ _) (pollLoop.run_settled _ h.settled) fun id hid =>
      pollLoop.written_of_silent (List.nodup_finRange _) h.settled (hguard id hid)
  exact hrun.of_link rfl rfl hrun.settled rfl hrun.part (fun _ => rfl) fun _ hslot => hslot

theorem Orderly.broadcast (h : Orderly acceptKey sockets) {text : Bytes} {taken : Slot → Nat}
    (hguard : sockets.HubWaits (.broadcast text taken)) :
    Orderly acceptKey (sockets.broadcast text taken) := by
  cases hheader : Ws.encodeHeader Ws.kText text.length with
  | none =>
      rw [Sockets.broadcast, hheader]
      exact h
  | some header =>
      by_cases htext : text = []
      · rw [Sockets.broadcast, hheader]
        simp only [htext, if_true]
        exact h
      · rw [broadcast_eq_run sockets taken hheader htext]
        refine h.serve (HubLoop.served _ _ _) (HubLoop.run_settled _ _ h.settled) fun id hid => ?_
        refine HubLoop.written_of_silent _ (List.nodup_finRange _) h.settled fun i hi => ?_
        rcases hguard id hid i hi with hnone | hnil | hzero
        · exact absurd (hheader.symm.trans hnone) (by simp)
        · exact absurd hnil htext
        · simp [broadcastLoop, broadcastFrames, hzero]

/-- A frame for the client whose response is not complete. -/
theorem Orderly.breaks (h : Orderly acceptKey sockets) {id : ConnId}
    (hid : sockets.handshaking = some id) (hup : next.upgraded = sockets.upgraded)
    (hloud : ∃ frames : List Bytes, frames ≠ [] ∧ (next.link.conns id).written =
      (sockets.link.conns id).written ++ frames.map .frame) :
    ¬ HandshakeFirst acceptKey next := by
  intro hfirst
  obtain ⟨frames, hne, hframes⟩ := hloud
  obtain ⟨hupgraded, hwritten⟩ := h.shaking id hid
  have horder := hfirst id (by rw [hup]; exact hupgraded)
  rw [hframes, hwritten] at horder
  exact not_inOrder_of_frame h.part hne horder

/-! ## Every step -/

theorem orderly_step {action : Action} (h : Orderly acceptKey sockets)
    (hguard : sockets.HubWaits action) (hstep : sockets.step acceptKey action = some next) :
    Orderly acceptKey next := by
  cases stepped_of_step hstep with
  | accept hnet => exact h.accept (by rw [handshaking, hnet])
  | readRequest count id => exact h.modify id (fun _ hopen => hopen) fun _ => rfl
  | retainNone hnet =>
      have hbefore : sockets.handshaking = none := by rw [handshaking, hnet]
      exact h.rest hbefore (Or.inl rfl)
  | retain hnet hretain => exact h.retain (by rw [handshaking, hnet]) hretain
  | adopt slot hnet => exact h.adopt hnet hguard
  | release slot hnet =>
      have hbefore : sockets.handshaking = none := by rw [handshaking, hnet]
      have hserved := Served.release sockets slot
      exact (h.serve_idle hserved rfl hbefore).rest (hserved.handshaking_none hbefore) (Or.inl rfl)
  | lookUpGone slot hnet hholder =>
      have hbefore : sockets.handshaking = none := by
        rw [handshaking, hnet]
        exact hholder
      exact h.rest hbefore (Or.inl rfl)
  | lookUp slot hnet =>
      have hbefore : sockets.handshaking = sockets.link.holder slot := by rw [handshaking, hnet]
      exact h.goOn hbefore.symm (Nat.zero_le 2) (fun _ => by rw [hnet]; rfl) (by simp)
  | printGone hnet hholder => exact h.print_gone hnet hholder
  | print hnet hholder => exact h.print_open hnet hholder
  | finishRequest hnet =>
      have hbefore : sockets.handshaking = none := by
        rcases hnet with hnet | hnet <;> rw [handshaking, hnet]
      have hserved := Served.finishRequest sockets
      exact (h.serve_idle hserved rfl hbefore).rest (hserved.handshaking_none hbefore) (Or.inr rfl)
  | poll => exact h.poll hguard
  | broadcast text taken => exact h.broadcast hguard
  | peerDelivers id bytes => exact h.modify id (fun _ hopen => hopen) fun _ => rfl
  | peerDisconnects id => exact h.modify id (fun _ hopen => by cases hopen) fun _ => rfl

/-- The first step after which the hub did not wait. -/
theorem not_handshakeFirst_of_step {action : Action} (h : Orderly acceptKey sockets)
    (hguard : ¬ sockets.HubWaits action) (hstep : sockets.step acceptKey action = some next) :
    ¬ HandshakeFirst acceptKey next := by
  cases action with
  | adopt =>
      simp only [HubWaits, not_forall] at hguard
      obtain ⟨slot, hnet, hfree, id, hid, hwritten⟩ := hguard
      obtain ⟨i, hi⟩ := Option.ne_none_iff_exists'.mp hfree
      rw [step, hnet] at hstep
      simp only [Option.some.injEq] at hstep
      subst hstep
      obtain ⟨frames, hframes⟩ := h.raw id ((h.pending slot hnet).2 id hid)
      intro hfirst
      have hup : (sockets.adopt slot).upgraded id = true := by
        simp only [Sockets.adopt, hi, Option.mem_def.mp hid, Function.update_self]
      have hsame : ((sockets.adopt slot).link.conns id).written = frames.map .frame := by
        rw [← hframes]
        simp only [Sockets.adopt, hi]
      have horder := hfirst id hup
      rw [hsame] at horder
      have hne : frames ≠ [] := by
        rintro rfl
        exact hwritten hframes
      have hbroken : ¬ InOrder acceptKey ((response acceptKey).take 0 ++ frames.map .frame) :=
        not_inOrder_of_frame (Nat.zero_le 2) hne
      exact hbroken horder
  | poll =>
      simp only [HubWaits, not_forall] at hguard
      obtain ⟨id, hid, i, hi, hframes⟩ := hguard
      rw [step] at hstep
      cases hstep
      exact h.breaks hid (pollLoop.served (List.finRange kMaxRetained) sockets).upgraded
        (pollLoop.written_of_loud (List.nodup_finRange _) hi hframes)
  | broadcast text taken =>
      simp only [HubWaits, not_forall, not_or] at hguard
      obtain ⟨id, hid, i, hi, hheader, htext, htaken⟩ := hguard
      obtain ⟨header, hsome⟩ := Option.ne_none_iff_exists'.mp hheader
      rw [step] at hstep
      cases hstep
      rw [broadcast_eq_run sockets taken hsome htext]
      have hframe : header ++ text ≠ [] := List.append_ne_nil_of_right_ne_nil header htext
      refine h.breaks hid (HubLoop.served _ _ _).upgraded
        (HubLoop.written_of_loud _ (List.nodup_finRange _) hi ?_)
      have htake : (header ++ text).take (taken i) ≠ [] := by
        rw [Ne, List.take_eq_nil_iff, not_or]
        exact ⟨htaken, hframe⟩
      simp [broadcastLoop, broadcastFrames, htake]
  | _ => exact absurd trivial hguard

/-- In every run the 101 response comes first exactly when the hub waits for it: what is adopted
was sent nothing yet, and until the last of the three writes no poll and no broadcast has
anything to send to the client. -/
theorem handshake_first_iff (acceptKey : Bytes) (actions : List Action) (final : Sockets)
    (hexec : (machine acceptKey).exec boot actions = some final) :
    (machine acceptKey).Throughout (HandshakeFirst acceptKey) boot actions ↔
      (machine acceptKey).Guarded HubWaits boot actions :=
  (machine acceptKey).throughout_iff_guarded
    (fun _ _ _ h hcondition hstep => orderly_step h hcondition hstep)
    (fun _ _ _ h hcondition hstep => not_handshakeFirst_of_step h hcondition hstep)
    (fun _ h => h.ordered) actions boot final (orderly_boot acceptKey) hexec

/-- A broadcast between `adopt()` and the first write gets in front of the response. -/
theorem frame_before_handshake :
    ∃ final, (machine []).exec boot [.accept, .retain, .adopt,
        .broadcast (ascii "x") fun _ => 3, .lookUp, .print, .print, .print, .finishRequest] =
          some final ∧
      final.upgraded 0 = true ∧
      (final.link.conns 0).written = .frame [0x81, 1, 0x78] :: response [] ∧
      ¬ HandshakeFirst [] final := by
  generalize hrun : (machine []).exec boot [.accept, .retain, .adopt,
    .broadcast (ascii "x") fun _ => 3, .lookUp, .print, .print, .print, .finishRequest] = result
  have hend : result.map (fun final => (final.upgraded 0, (final.link.conns 0).written)) =
      some (true, .frame [0x81, 1, 0x78] :: response []) := by
    rw [← hrun]
    decide
  obtain ⟨final, rfl, hfinal⟩ := Option.map_eq_some_iff.mp hend
  obtain ⟨hup, hwritten⟩ := Prod.mk.inj hfinal
  refine ⟨final, rfl, hup, hwritten, fun hfirst => ?_⟩
  have horder := hfirst 0 hup
  rw [hwritten] at horder
  rcases horder with ⟨more, hmore⟩ | ⟨frames, hframes⟩
  · cases hmore
  · cases hframes

/-- Two upgrades, with a broadcast behind each. -/
theorem handshake_first_iff_two :
    let actions := upgrade ++ [.broadcast (ascii "x") fun _ => 3] ++ upgrade ++
      [.broadcast (ascii "y") fun _ => 3, .poll]
    ∃ final, (machine []).exec boot actions = some final ∧
      (machine []).Throughout (HandshakeFirst []) boot actions := by
  intro actions
  have hsome : ((machine []).exec boot actions).isSome = true := by decide
  obtain ⟨final, hexec⟩ := Option.isSome_iff_exists.mp hsome
  exact ⟨final, hexec, (handshake_first_iff [] actions final hexec).mpr (by decide)⟩

end Sockets

end MatrixFaces.Api
