import Mathlib.Data.List.Find
import MatrixFaces.Api.WsTable

set_option autoImplicit false

/-!
# The turns of the hub's loops

`poll` and `broadcast` go over the table entry by entry.  A turn either finds the
entry free, frees it because its client is gone, or writes some frames to the client
and then keeps or drops it: `Turned` says this once for both loops.  What a whole
loop writes to one connection is decided at the first entry whose client it is.

`HubLoop` is a loop over the entries whose turns are `Turned`; `Served` is what any number of
turns leaves.  `written_of_silent` and `written_of_loud` say what a connection was sent by a
whole loop, and `pollLoop` and `broadcastLoop` are the two that the hub has.
-/

namespace MatrixFaces.Api

open MatrixFaces.Foundation
open MatrixFaces.Board
open MatrixFaces.Api.WsHub

/-- A connection that was sent frames. -/
def sendTo (frames : List Bytes) (conn : Conn) : Conn :=
  { conn with written := conn.written ++ frames.map .frame }

namespace Sockets

/-- The open client of an entry. -/
def clientOf (sockets : Sockets) (i : Slot) : Option ConnId :=
  (sockets.table i).slot.bind sockets.link.holder

theorem writeFrames_eq_modify {link : NetLink} {id : ConnId} (hopen : (link.conns id).isOpen = true)
    (frames : List Bytes) : writeFrames link id frames = link.modify id (sendTo frames) := by
  induction frames generalizing link with
  | nil => simp [writeFrames, NetLink.modify, sendTo]
  | cons frame rest ih =>
      have hwrite : link.write id (.frame frame) = link.modify id (sendTo [frame]) :=
        NetLink.write_of_open hopen (.frame frame)
      rw [writeFrames, List.foldl_cons, ← writeFrames, hwrite, ih]
      · simp [NetLink.modify, sendTo]
      · simpa [NetLink.modify, sendTo] using hopen

/-! ## One turn -/

/-- What a turn does with entry `i`, when it writes `frames` to the entry's client. -/
inductive Turned (sockets : Sockets) (i : Slot) (frames : List Bytes) : Sockets → Prop where
  | free (hslot : (sockets.table i).slot = none) : Turned sockets i frames sockets
  | gone (slot : Slot) (hslot : (sockets.table i).slot = some slot)
      (hholder : sockets.link.holder slot = none) :
      Turned sockets i frames ({ sockets with link := sockets.link.release slot }.freeEntry i)
  | dropped (slot : Slot) (id : ConnId) (hslot : (sockets.table i).slot = some slot)
      (hholder : sockets.link.holder slot = some id) :
      Turned sockets i frames
        ({ sockets with link := (sockets.link.modify id (sendTo frames)).release slot }.freeEntry i)
  | kept (slot : Slot) (id : ConnId) (hslot : (sockets.table i).slot = some slot)
      (hholder : sockets.link.holder slot = some id) (arrived : Bytes) (entry : Entry) :
      Turned sockets i frames
        { sockets with
          link := sockets.link.modify id fun conn => { sendTo frames conn with arrived := arrived }
          table := Function.update sockets.table i entry }

namespace Turned

variable {sockets next : Sockets} {i : Slot} {frames : List Bytes}

theorem clientOf_eq {slot : Slot} {client : Option ConnId}
    (hslot : (sockets.table i).slot = some slot) (hholder : sockets.link.holder slot = client) :
    sockets.clientOf i = client := by
  rw [clientOf, hslot]
  exact hholder

theorem net (h : Turned sockets i frames next) : next.net = sockets.net := by
  cases h <;> rfl

theorem upgraded (h : Turned sockets i frames next) : next.upgraded = sockets.upgraded := by
  cases h <;> rfl

theorem link_accepted (h : Turned sockets i frames next) :
    next.link.accepted = sockets.link.accepted := by
  cases h <;> simp [freeEntry]

theorem link_request (h : Turned sockets i frames next) :
    next.link.request = sockets.link.request := by
  cases h <;> simp [freeEntry]

theorem table (h : Turned sockets i frames next) {j : Slot} (hj : j ≠ i) :
    next.table j = sockets.table j := by
  cases h with
  | free => rfl
  | gone | dropped | kept => exact Function.update_of_ne hj _ _

/-- The release behind a turn that drops the client. -/
theorem release_modify {slot : Slot} {id : ConnId} (hholder : sockets.link.holder slot = some id) :
    (sockets.link.modify id (sendTo frames)).release slot =
      { sockets.link with
        conns := Function.update sockets.link.conns id
          { sendTo frames (sockets.link.conns id) with isOpen := false }
        retained := Function.update sockets.link.retained slot none } := by
  obtain ⟨hid, hopen⟩ := NetLink.holder_eq_some_iff.mp hholder
  have hsame : (sockets.link.modify id (sendTo frames)).holder slot = some id := by
    rw [NetLink.holder_eq_some_iff]
    exact ⟨hid, by simpa [NetLink.modify, sendTo] using hopen⟩
  rw [NetLink.release_of_holder hsame]
  simp [NetLink.stop, NetLink.modify]

theorem others (h : Turned sockets i frames next) {id : ConnId}
    (hid : sockets.clientOf i ≠ some id) : next.link.conns id = sockets.link.conns id := by
  cases h with
  | free => rfl
  | gone slot hslot hholder => rw [NetLink.release_of_empty hholder]; rfl
  | dropped slot client hslot hholder =>
      rw [clientOf_eq hslot hholder] at hid
      rw [release_modify hholder]
      exact Function.update_of_ne (fun hsame => hid (congrArg some hsame.symm)) _ _
  | kept slot client hslot hholder arrived entry =>
      rw [clientOf_eq hslot hholder] at hid
      exact Function.update_of_ne (fun hsame => hid (congrArg some hsame.symm)) _ _

theorem written (h : Turned sockets i frames next) {id : ConnId}
    (hid : sockets.clientOf i = some id) :
    (next.link.conns id).written = (sockets.link.conns id).written ++ frames.map .frame := by
  cases h with
  | free hslot =>
      rw [clientOf, hslot] at hid
      cases hid
  | gone slot hslot hholder =>
      rw [clientOf_eq hslot hholder] at hid
      cases hid
  | dropped slot client hslot hholder =>
      rw [clientOf_eq hslot hholder] at hid
      cases hid
      rw [release_modify hholder]
      simp [freeEntry, sendTo]
  | kept slot client hslot hholder arrived entry =>
      rw [clientOf_eq hslot hholder] at hid
      cases hid
      simp [NetLink.modify, sendTo]

theorem opened (h : Turned sockets i frames next) {id : ConnId}
    (hopen : (next.link.conns id).isOpen = true) : (sockets.link.conns id).isOpen = true := by
  by_cases hid : sockets.clientOf i = some id
  · obtain ⟨_, _, hholder⟩ := Option.bind_eq_some_iff.mp hid
    exact (NetLink.holder_eq_some_iff.mp hholder).2
  · rw [← h.others hid]
    exact hopen

theorem retained (h : Turned sockets i frames next) {k : Slot} {id : ConnId}
    (hk : next.link.retained k = some id) : sockets.link.retained k = some id := by
  have hfreed : ∀ slot, Function.update sockets.link.retained slot none k = some id →
      sockets.link.retained k = some id := by
    intro slot hupdate
    rw [Function.update_apply] at hupdate
    split at hupdate
    · cases hupdate
    · exact hupdate
  cases h with
  | free => exact hk
  | gone slot => exact hfreed slot hk
  | dropped slot => exact hfreed slot hk
  | kept => exact hk

/-- A client that is still open after the turn is still in its slot. -/
theorem holder_kept (h : Turned sockets i frames next) {k : Slot} {id : ConnId}
    (hk : sockets.link.holder k = some id) (hopen : (next.link.conns id).isOpen = true) :
    next.link.holder k = some id := by
  rw [NetLink.holder_eq_some_iff]
  refine ⟨?_, hopen⟩
  have hretained := (NetLink.holder_eq_some_iff.mp hk).1
  cases h with
  | free => exact hretained
  | gone slot hslot hholder =>
      have hne : k ≠ slot := by
        rintro rfl
        rw [hk] at hholder
        cases hholder
      exact (Function.update_of_ne hne _ _).trans hretained
  | dropped slot client hslot hholder =>
      have hne : k ≠ slot := by
        rintro rfl
        rw [hk] at hholder
        cases hholder
        rw [release_modify hk] at hopen
        simp [freeEntry] at hopen
      exact (Function.update_of_ne hne _ _).trans hretained
  | kept => exact hretained

theorem holder_of_next (h : Turned sockets i frames next) {k : Slot} {id : ConnId}
    (hk : next.link.holder k = some id) : sockets.link.holder k = some id := by
  obtain ⟨hretained, hopen⟩ := NetLink.holder_eq_some_iff.mp hk
  exact NetLink.holder_eq_some_iff.mpr ⟨h.retained hretained, h.opened hopen⟩

/-- The turn of another client's entry changes nothing at the entries of this one. -/
theorem clientOf_iff (h : Turned sockets i frames next) {id : ConnId} {j : Slot} (hj : j ≠ i)
    (hid : sockets.clientOf i ≠ some id) :
    next.clientOf j = some id ↔ sockets.clientOf j = some id := by
  simp only [clientOf, h.table hj, Option.bind_eq_some_iff]
  refine exists_congr fun slot => and_congr_right fun _ => ⟨h.holder_of_next, fun hk => ?_⟩
  refine h.holder_kept hk ?_
  rw [h.others hid]
  exact (NetLink.holder_eq_some_iff.mp hk).2

/-- So the first of the other entries with this client stays the same. -/
theorem find_clientOf (h : Turned sockets i frames next) {id : ConnId}
    (hid : sockets.clientOf i ≠ some id) {entries : List Slot} (hi : i ∉ entries) :
    entries.find? (fun j => next.clientOf j = some id) =
      entries.find? (fun j => sockets.clientOf j = some id) :=
  List.find?_congr fun _ hj => by
    rw [decide_eq_decide]
    exact h.clientOf_iff (fun hsame => hi (hsame ▸ hj)) hid

end Turned

/-! ## Loops -/

/-- What any number of turns leaves. -/
structure Served (sockets next : Sockets) : Prop where
  net : next.net = sockets.net
  upgraded : next.upgraded = sockets.upgraded
  accepted : next.link.accepted = sockets.link.accepted
  request : ∀ id, next.link.request = some id → sockets.link.request = some id
  opened : ∀ id, (next.link.conns id).isOpen = true → (sockets.link.conns id).isOpen = true
  retained : ∀ k id, next.link.retained k = some id → sockets.link.retained k = some id
  holder_kept : ∀ k id, sockets.link.holder k = some id → (next.link.conns id).isOpen = true →
    next.link.holder k = some id
  written : ∀ id, ∃ frames : List Bytes,
    (next.link.conns id).written = (sockets.link.conns id).written ++ frames.map .frame ∧
      (frames ≠ [] → (sockets.link.conns id).isOpen = true)

theorem Served.refl (sockets : Sockets) : Served sockets sockets where
  net := rfl
  upgraded := rfl
  accepted := rfl
  request _ h := h
  opened _ h := h
  retained _ _ h := h
  holder_kept _ _ h _ := h
  written _ := ⟨[], by simp, fun h => absurd rfl h⟩

theorem Served.trans {first second third : Sockets} (h : Served first second)
    (h' : Served second third) : Served first third where
  net := h'.net.trans h.net
  upgraded := h'.upgraded.trans h.upgraded
  accepted := h'.accepted.trans h.accepted
  request id hid := h.request id (h'.request id hid)
  opened id hopen := h.opened id (h'.opened id hopen)
  retained k id hk := h.retained k id (h'.retained k id hk)
  holder_kept k id hk hopen :=
    h'.holder_kept k id (h.holder_kept k id hk (h'.opened id hopen)) hopen
  written id := by
    obtain ⟨frames, hframes, hopen⟩ := h.written id
    obtain ⟨more, hmore, hopen'⟩ := h'.written id
    refine ⟨frames ++ more, ?_, fun hne => ?_⟩
    · rw [hmore, hframes, List.map_append, List.append_assoc]
    · by_cases hnil : frames = []
      · exact h.opened id (hopen' (by simpa [hnil] using hne))
      · exact hopen hnil

theorem Turned.served {sockets next : Sockets} {i : Slot} {frames : List Bytes}
    (h : Turned sockets i frames next) : Served sockets next where
  net := h.net
  upgraded := h.upgraded
  accepted := h.link_accepted
  request _ hid := h.link_request ▸ hid
  opened _ hopen := h.opened hopen
  retained _ _ hk := h.retained hk
  holder_kept _ _ hk hopen := h.holder_kept hk hopen
  written id := by
    by_cases hid : sockets.clientOf i = some id
    · obtain ⟨_, _, hholder⟩ := Option.bind_eq_some_iff.mp hid
      exact ⟨frames, h.written hid, fun _ => (NetLink.holder_eq_some_iff.mp hholder).2⟩
    · exact ⟨[], by simp [h.others hid], fun hne => absurd rfl hne⟩

/-- Nothing more is read from what a poll left in an entry. -/
def Settled (entry : Entry) : Prop :=
  pollEntry ⟨entry.buf.map Prod.snd, []⟩ = ([], some ⟨entry.buf.map Prod.snd, []⟩)

def AllSettled (sockets : Sockets) : Prop := ∀ i, Settled (sockets.table i)

/-- A loop over the table.  After a turn that wrote nothing to its client, no later
entry makes the loop write to that client. -/
structure HubLoop where
  turn : Sockets → Slot → Sockets
  /-- What the turn of an entry writes to the entry's client. -/
  frames : Sockets → Slot → List Bytes
  turned : ∀ sockets i, Turned sockets i (frames sockets i) (turn sockets i)
  settled : ∀ sockets i, AllSettled sockets → AllSettled (turn sockets i)
  frames_congr : ∀ sockets next j id, next.table j = sockets.table j →
    sockets.clientOf j = some id → next.clientOf j = some id →
    next.link.conns id = sockets.link.conns id → frames next j = frames sockets j
  silent : ∀ sockets i id, AllSettled sockets → sockets.clientOf i = some id →
    frames sockets i = [] → ∀ j, (turn sockets i).clientOf j = some id →
    frames (turn sockets i) j = []

namespace HubLoop

variable (loop : HubLoop)

def run (entries : List Slot) (sockets : Sockets) : Sockets := entries.foldl loop.turn sockets

theorem served (entries : List Slot) (sockets : Sockets) :
    Served sockets (loop.run entries sockets) := by
  induction entries generalizing sockets with
  | nil => exact Served.refl sockets
  | cons i rest ih => exact (loop.turned sockets i).served.trans (ih _)

theorem run_settled (entries : List Slot) {sockets : Sockets} (h : AllSettled sockets) :
    AllSettled (loop.run entries sockets) := by
  induction entries generalizing sockets with
  | nil => exact h
  | cons i rest ih => exact ih (loop.settled sockets i h)

/-- A loop that has nothing to write to the client at its first entry writes nothing
to it. -/
theorem written_of_silent {id : ConnId} {entries : List Slot} (hnodup : entries.Nodup)
    {sockets : Sockets} (hsettled : AllSettled sockets)
    (hsilent : ∀ i, entries.find? (fun i => sockets.clientOf i = some id) = some i →
      loop.frames sockets i = []) :
    ((loop.run entries sockets).link.conns id).written = (sockets.link.conns id).written := by
  induction entries generalizing sockets with
  | nil => rfl
  | cons i rest ih =>
      obtain ⟨hi, hrest⟩ := List.nodup_cons.mp hnodup
      have hturn := loop.turned sockets i
      by_cases hid : sockets.clientOf i = some id
      · have hnone := hsilent i (by rw [List.find?_cons_of_pos (by simpa using hid)])
        have hsame := hturn.written hid
        rw [hnone, List.map_nil, List.append_nil] at hsame
        rw [← hsame]
        refine ih hrest (loop.settled sockets i hsettled) fun j hj => ?_
        exact loop.silent sockets i id hsettled hid hnone j (by simpa using List.find?_some hj)
      · rw [← hturn.others hid]
        refine ih hrest (loop.settled sockets i hsettled) fun j hj => ?_
        have hmem := List.mem_of_find?_eq_some hj
        have hne : j ≠ i := fun hsame => hi (hsame ▸ hmem)
        have hclient : (loop.turn sockets i).clientOf j = some id := by
          simpa using List.find?_some hj
        have hfirst := hturn.find_clientOf hid hi
        rw [loop.frames_congr sockets _ j id (hturn.table hne)
          ((hturn.clientOf_iff hne hid).mp hclient) hclient (hturn.others hid)]
        refine hsilent j ?_
        rw [List.find?_cons_of_neg (by simpa using hid), ← hfirst]
        exact hj

/-- A loop that has something to write to the client at its first entry writes it. -/
theorem written_of_loud {id : ConnId} {entries : List Slot} (hnodup : entries.Nodup)
    {sockets : Sockets} {i : Slot}
    (hfind : entries.find? (fun i => sockets.clientOf i = some id) = some i)
    (hloud : loop.frames sockets i ≠ []) :
    ∃ frames : List Bytes, frames ≠ [] ∧ ((loop.run entries sockets).link.conns id).written =
      (sockets.link.conns id).written ++ frames.map .frame := by
  induction entries generalizing sockets with
  | nil => cases hfind
  | cons head rest ih =>
      obtain ⟨hhead, hrest⟩ := List.nodup_cons.mp hnodup
      have hturn := loop.turned sockets head
      by_cases hid : sockets.clientOf head = some id
      · rw [List.find?_cons_of_pos (by simpa using hid)] at hfind
        obtain rfl := Option.some.inj hfind
        obtain ⟨more, hmore, _⟩ := (loop.served rest (loop.turn sockets head)).written id
        refine ⟨loop.frames sockets head ++ more, by simp [hloud], ?_⟩
        rw [run, List.foldl_cons, ← run, hmore, hturn.written hid, List.map_append,
          List.append_assoc]
      · rw [List.find?_cons_of_neg (by simpa using hid)] at hfind
        have hmem := List.mem_of_find?_eq_some hfind
        have hne : i ≠ head := fun hsame => hhead (hsame ▸ hmem)
        have hclient : sockets.clientOf i = some id := by simpa using List.find?_some hfind
        have hclient' := (hturn.clientOf_iff hne hid).mpr hclient
        have hfirst := hturn.find_clientOf hid hhead
        have hframes := loop.frames_congr sockets _ i id (hturn.table hne) hclient hclient'
          (hturn.others hid)
        rw [← hturn.others hid]
        exact ih hrest (hfirst.trans hfind) (by rw [hframes]; exact hloud)

end HubLoop

/-! ## `poll` -/

/-- A closed connection was told so. -/
theorem drainFrames_closed {buf : Bytes} (h : (drainFrames buf).2 = none) :
    ∃ code, .closed code ∈ (drainFrames buf).1 := by
  have hstop : ∀ data effect, readFrame data = .stop effect → ∃ code, effect = .closed code := by
    intro data effect hread
    rw [readFrame] at hread
    cases hheader : Ws.parseHeader data with
    | error error =>
        rw [hheader] at hread
        cases error <;> cases hread
        exact ⟨_, rfl⟩
    | ok header =>
        simp only [hheader, dispatch] at hread
        repeat' split at hread
        all_goals cases hread
        all_goals exact ⟨_, rfl⟩
  unfold drainFrames at h ⊢
  induction buf using framing.drain_induction with
  | hwait data hread =>
      rw [framing.drain_of_wait hread] at h
      cases h
  | hstop data effect hread =>
      obtain ⟨code, rfl⟩ := hstop data effect hread
      rw [framing.drain_of_stop hread]
      exact ⟨code, List.mem_singleton_self _⟩
  | hframe data effect length hread ih =>
      rw [framing.drain_of_frame hread] at h ⊢
      obtain ⟨code, hcode⟩ := ih h
      exact ⟨code, List.mem_cons_of_mem _ hcode⟩

/-- An entry that is closed by a poll is written a close frame. -/
theorem pollEntry_closed {entry : Inbound} (h : (pollEntry entry).2 = none) :
    (pollEntry entry).1.filterMap frameOf ≠ [] := by
  have hcode : ∃ code, .closed code ∈ (pollEntry entry).1 := by
    simp only [pollEntry] at h ⊢
    split
    · exact ⟨_, List.mem_singleton_self _⟩
    · rename_i hfits
      rw [if_neg hfits] at h
      exact drainFrames_closed (Option.map_eq_none_iff.mp h)
  obtain ⟨code, hcode⟩ := hcode
  exact List.ne_nil_of_mem (List.mem_filterMap.mpr ⟨_, hcode, rfl⟩)

/-- An entry that stays open read everything that had arrived, and only the start of a
frame is left in its buffer. -/
theorem pollEntry_open {entry rest : Inbound} (h : (pollEntry entry).2 = some rest) :
    rest.arrived = [] ∧ pollEntry ⟨rest.buf, []⟩ = ([], some ⟨rest.buf, []⟩) ∧
      rest.buf <:+ entry.buf ++ entry.arrived.take (kInboundCap - entry.buf.length) := by
  simp only [pollEntry] at h
  split at h
  · cases h
  · rename_i hfits
    obtain ⟨left, hleft, rfl⟩ := Option.map_eq_some_iff.mp h
    have hsuffix := framing.drain_suffix hleft
    have hlength := hsuffix.length_le
    simp only [List.length_append, List.length_take] at hfits hlength
    refine ⟨List.drop_of_length_le (by omega), ?_, hsuffix⟩
    simp only [pollEntry, List.take_nil, List.append_nil, List.drop_nil]
    rw [if_neg (by omega), drainFrames, framing.drain_of_wait (framing.read_rest hleft)]
    rfl

/-- What the turn of `poll` writes to the client of entry `i`. -/
def pollFrames (sockets : Sockets) (i : Slot) : List Bytes :=
  match sockets.clientOf i with
  | none => []
  | some id =>
      (pollEntry ⟨(sockets.table i).buf.map Prod.snd, (sockets.link.conns id).arrived⟩).1.filterMap
        frameOf

/-- The bytes `readInto` tags are those `pollEntry` looks at. -/
theorem readInto_bytes (sockets : Sockets) (i : Slot) (id : ConnId) :
    (sockets.readInto i id).map Prod.snd =
      (sockets.table i).buf.map Prod.snd ++ (sockets.link.conns id).arrived.take
        (kInboundCap - ((sockets.table i).buf.map Prod.snd).length) := by
  simp [readInto, Function.comp_def]

theorem pollOne_turned (sockets : Sockets) (i : Slot) :
    Turned sockets i (sockets.pollFrames i) (sockets.pollOne i) := by
  unfold pollOne
  split
  · exact .free ‹_›
  · rename_i slot hslot
    split
    · exact .gone slot hslot ‹_›
    · rename_i id hholder
      have hopen := (NetLink.holder_eq_some_iff.mp hholder).2
      simp only [pollFrames, Turned.clientOf_eq hslot hholder, writeFrames_eq_modify hopen]
      split
      · exact .dropped slot id hslot hholder
      · have hkept := @Turned.kept sockets i (sockets.pollFrames i) slot id hslot hholder
        simp only [pollFrames, Turned.clientOf_eq hslot hholder] at hkept
        simpa [NetLink.modify] using hkept _ _

theorem settled_free : Settled ⟨none, []⟩ := by
  unfold Settled
  decide

theorem pollOne_settled {sockets : Sockets} {i : Slot} (h : AllSettled sockets) :
    AllSettled (sockets.pollOne i) := by
  intro j
  by_cases hj : j = i
  · subst hj
    unfold pollOne
    split
    · exact h j
    · split
      · simpa [freeEntry] using settled_free
      · rename_i id _
        simp only
        split
        · simpa [freeEntry] using settled_free
        · rename_i rest hrest
          obtain ⟨_, hsettled, hsuffix⟩ := pollEntry_open hrest
          have hbuf : ((sockets.readInto j id).drop
              ((sockets.readInto j id).length - rest.buf.length)).map Prod.snd = rest.buf := by
            have hdrop := List.suffix_iff_eq_drop.mp hsuffix
            rw [← readInto_bytes, List.length_map] at hdrop
            rw [List.map_drop]
            exact hdrop.symm
          simp only [Function.update_self, Settled]
          rw [hbuf]
          exact hsettled
  · rw [(pollOne_turned sockets i).table hj]
    exact h j

/-- A turn that answers nothing leaves its client without bytes. -/
theorem pollOne_silent {sockets : Sockets} {i : Slot} {id : ConnId}
    (hid : sockets.clientOf i = some id) (hsilent : sockets.pollFrames i = []) :
    ((sockets.pollOne i).link.conns id).arrived = [] := by
  obtain ⟨slot, hslot, hholder⟩ := Option.bind_eq_some_iff.mp hid
  simp only [pollFrames, hid] at hsilent
  simp only [pollOne, hslot, hholder]
  split
  · rename_i hnone
    exact absurd hsilent (pollEntry_closed hnone)
  · rename_i rest hrest
    simpa [NetLink.modify] using (pollEntry_open hrest).1

def pollLoop : HubLoop where
  turn := pollOne
  frames := pollFrames
  turned := pollOne_turned
  settled _ _ h := pollOne_settled h
  frames_congr sockets next j id htable hid hnext hconn := by
    simp only [pollFrames, hid, hnext, htable, hconn]
  silent sockets i id hsettled hid hsilent j hj := by
    have hentry : Settled ((sockets.pollOne i).table j) := pollOne_settled hsettled j
    rw [pollFrames, hj]
    simp only [pollOne_silent hid hsilent]
    rw [hentry]
    rfl

/-! ## `broadcast` -/

/-- What the turn of `broadcast` writes to the client of entry `i`. -/
def broadcastFrames (frame : Bytes) (taken : Slot → Nat) (i : Slot) : List Bytes :=
  if frame.take (taken i) = [] then [] else [frame.take (taken i)]

theorem broadcastOne_turned (frame : Bytes) (taken : Slot → Nat) (sockets : Sockets) (i : Slot) :
    Turned sockets i (broadcastFrames frame taken i) (sockets.broadcastOne frame taken i) := by
  unfold broadcastOne
  split
  · exact .free ‹_›
  · rename_i slot hslot
    split
    · exact .gone slot hslot ‹_›
    · rename_i id hholder
      have hopen := (NetLink.holder_eq_some_iff.mp hholder).2
      have hlink : (if frame.take (taken i) = [] then sockets.link
          else sockets.link.write id (.frame (frame.take (taken i)))) =
          sockets.link.modify id (sendTo (broadcastFrames frame taken i)) := by
        rw [broadcastFrames, ← writeFrames_eq_modify hopen]
        split <;> rfl
      simp only [hlink]
      split
      · have hkept := @Turned.kept sockets i (broadcastFrames frame taken i) slot id hslot hholder
          (sockets.link.conns id).arrived (sockets.table i)
        rw [Function.update_eq_self] at hkept
        exact hkept
      · exact .dropped slot id hslot hholder

def broadcastLoop (frame : Bytes) (hframe : frame ≠ []) (taken : Slot → Nat) : HubLoop where
  turn := broadcastOne frame taken
  frames _ := broadcastFrames frame taken
  turned := broadcastOne_turned frame taken
  settled sockets i h j := by
    by_cases hj : j = i
    · subst hj
      unfold broadcastOne
      split
      · exact h j
      · split
        · simpa [freeEntry] using settled_free
        · simp only
          split
          · exact h j
          · simpa [freeEntry] using settled_free
    · rw [(broadcastOne_turned frame taken sockets i).table hj]
      exact h j
  frames_congr _ _ _ _ _ _ _ _ := rfl
  silent sockets i id _ hid hsilent j hj := by
    -- nothing was taken, so the turn dropped the client
    obtain ⟨slot, hslot, hholder⟩ := Option.bind_eq_some_iff.mp hid
    obtain ⟨_, _, hnext⟩ := Option.bind_eq_some_iff.mp hj
    have hopen := (NetLink.holder_eq_some_iff.mp hnext).2
    have hnone : frame.take (taken i) = [] := by
      by_contra hne
      rw [broadcastFrames, if_neg hne] at hsilent
      cases hsilent
    have hlength : ¬ (frame.take (taken i)).length = frame.length := by
      rw [hnone]
      exact fun hzero => hframe (List.length_eq_zero_iff.mp hzero.symm)
    simp only [broadcastOne, hslot, hholder, hlength, if_false] at hopen
    rw [if_pos hnone, NetLink.release_of_holder hholder] at hopen
    simp [freeEntry, NetLink.stop, NetLink.modify] at hopen

end Sockets

end MatrixFaces.Api
