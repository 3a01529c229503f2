import MatrixFaces.Api.WsTickets
import MatrixFaces.Foundation.History

set_option autoImplicit false

/-!
# Tickets over a run

A run of `issue` and `consume` calls, with its history beside the store.  Whether a call
of `consume` is honoured can be read off the history alone; the four slots hold exactly
what is needed to answer.

`Honoured` says it: the text names one of the last four tickets, which is at most ten seconds
old, and no text of that ticket was accepted since.  The main result is
`consume_iff_honoured`, for every list of calls that is `InScope`: times do not decrease and
span less than half the clock, and any four tickets in a row differ.

The proof follows the store through the run: `Follows` relates the slots to the list of
`entries` that a history stands for, and a call does the same to both.
-/

namespace MatrixFaces.Api.WsTicketStore

open MatrixFaces.Foundation
open MatrixFaces.Foundation.Clock32
open MatrixFaces.ApiAuth

/-! ## Runs -/

/-- A call, at a time in seconds; the text of a `consume` is `none` for a null pointer. -/
inductive Call where
  | issue (bytes : Block kTicketBytes) (nowS : Nat)
  | consume (hex : Option Bytes) (nowS : Nat)

def Call.time : Call → Nat
  | .issue _ nowS => nowS
  | .consume _ nowS => nowS

/-- A call that was made, and its answer. -/
inductive Event where
  | issued (bytes : Block kTicketBytes) (nowS : Nat)
  | consumed (hex : Option Bytes) (nowS : Nat) (answer : Bool)

/-- The store and what was done to it, newest first. -/
structure Run where
  store : WsTicketStore
  history : List Event

namespace Run

def start : Run := ⟨initial, []⟩

/-- What `consume` would do now. -/
def redeem (run : Run) (hex : Option Bytes) (nowS : Nat) : Option (Ticket × WsTicketStore) :=
  hex.bind fun hex => run.store.consume hex (tick nowS)

/-- One call. -/
def call (run : Run) : Call → Run
  | .issue bytes nowS =>
      ⟨run.store.issue bytes (tick nowS) run.history.length, .issued bytes nowS :: run.history⟩
  | .consume hex nowS =>
      match run.redeem hex nowS with
      | none => ⟨run.store, .consumed hex nowS false :: run.history⟩
      | some (_, next) => ⟨next, .consumed hex nowS true :: run.history⟩

/-- A list of calls, oldest first. -/
def calls (calls : List Call) : Run := calls.foldl call start

end Run

/-! ## What the history says -/

/-- The text is the ticket's hexadecimal, in either case. -/
def Names (hex : Option Bytes) (bytes : Block kTicketBytes) : Prop :=
  ∃ text, hex = some text ∧ Spells (cstring text) bytes.1

/-- The byte strings that were issued, newest first. -/
def issues (history : List Event) : List (Block kTicketBytes) :=
  history.filterMap fun
    | .issued bytes _ => some bytes
    | .consumed .. => none

/-- The text names one of the last four tickets, which is at most ten seconds old and was
not redeemed since. -/
def Honoured (history : List Event) (hex : Option Bytes) (nowS : Nat) : Prop :=
  ∃ later bytes issuedAtS earlier, history = later ++ .issued bytes issuedAtS :: earlier ∧
    (issues later).length < 4 ∧ Names hex bytes ∧ nowS ≤ issuedAtS + 10 ∧
    ∀ hex' nowS', .consumed hex' nowS' true ∈ later → ¬ Names hex' bytes

/-- The byte strings of the `issue` calls, oldest first. -/
def issueBytes (calls : List Call) : List (Block kTicketBytes) :=
  calls.filterMap fun
    | .issue bytes _ => some bytes
    | .consume .. => none

/-- Times do not decrease and span less than half the clock; any four issues in a row differ. -/
structure InScope (calls : List Call) : Prop where
  ordered : (calls.map Call.time).Pairwise (· ≤ ·)
  span : ∀ a ∈ calls, ∀ b ∈ calls, b.time < a.time + 2 ^ 31
  distinct : ∀ k, (((issueBytes calls).drop k).take 4).Nodup

/-! ## The history as a list of tickets -/

/-- The bytes that `consume` looks for. -/
def decoded (hex : Option Bytes) : Option (Block kTicketBytes) :=
  hex.bind fun hex => fromHex (cstring hex) kTicketBytes

theorem decoded_eq_some_iff {hex : Option Bytes} {bytes : Block kTicketBytes} :
    decoded hex = some bytes ↔ Names hex bytes := by
  rw [decoded, Option.bind_eq_some_iff, Names]
  exact exists_congr fun text => and_congr_right fun _ => fromHex_eq_some_iff

/-- A ticket that was issued, and whether a text of its was accepted since. -/
structure Entry where
  bytes : Block kTicketBytes
  issuedAtS : Nat
  redeemed : Bool

/-- The entry once a text was accepted. -/
def Entry.mark (hex : Option Bytes) (entry : Entry) : Entry :=
  { entry with redeemed := entry.redeemed || decide (decoded hex = some entry.bytes) }

/-- Every ticket of a history, newest first. -/
def entries : List Event → List Entry
  | [] => []
  | .issued bytes nowS :: history => ⟨bytes, nowS, false⟩ :: entries history
  | .consumed hex _ true :: history => (entries history).map (Entry.mark hex)
  | .consumed _ _ false :: history => entries history

theorem map_bytes_entries (history : List Event) :
    (entries history).map Entry.bytes = issues history := by
  induction history with
  | nil => rfl
  | cons event history ih =>
      match event with
      | .issued bytes nowS => rw [entries, List.map_cons, ih]; rfl
      | .consumed hex nowS true => rw [entries, List.map_map]; exact ih
      | .consumed hex nowS false => rw [entries, ih]; rfl

/-- A text of the bytes was accepted. -/
def RedeemedIn (later : List Event) (bytes : Block kTicketBytes) : Prop :=
  ∃ hex nowS, .consumed hex nowS true ∈ later ∧ Names hex bytes

/-- Where an entry stands in the list is where its issue stands in the history. -/
theorem mem_take_entries {n : Nat} {history : List Event} {entry : Entry} :
    entry ∈ (entries history).take n ↔
      ∃ later earlier, history = later ++ .issued entry.bytes entry.issuedAtS :: earlier ∧
        (issues later).length < n ∧ (entry.redeemed = true ↔ RedeemedIn later entry.bytes) := by
  induction history generalizing n entry with
  | nil => simp [entries]
  | cons event history ih =>
      rw [History.exists_split_cons (P := fun later => (issues later).length < n ∧
        (entry.redeemed = true ↔ RedeemedIn later entry.bytes))]
      match event with
      | .issued bytes nowS =>
          have hlater : ∀ later, RedeemedIn (.issued bytes nowS :: later) entry.bytes ↔
              RedeemedIn later entry.bytes := by
            intro later
            simp [RedeemedIn]
          have hcount : ∀ later, (issues (.issued bytes nowS :: later)).length =
              (issues later).length + 1 := fun later => rfl
          have hnone : ¬ RedeemedIn [] entry.bytes := by simp [RedeemedIn]
          cases n with
          | zero => simp
          | succ n =>
              simp only [entries, List.take_succ_cons, List.mem_cons, ih, hlater, hcount,
                Nat.add_lt_add_iff_right, hnone, iff_false, Event.issued.injEq]
              refine or_congr ?_ Iff.rfl
              obtain ⟨entryBytes, issuedAtS, redeemed⟩ := entry
              simp [Entry.mk.injEq, issues, eq_comm, and_assoc]
      | .consumed hex nowS true =>
          have hlater : ∀ later, RedeemedIn (.consumed hex nowS true :: later) entry.bytes ↔
              RedeemedIn later entry.bytes ∨ decoded hex = some entry.bytes := by
            intro later
            rw [decoded_eq_some_iff]
            simp only [RedeemedIn, List.mem_cons, Event.consumed.injEq]
            constructor
            · rintro ⟨hex', nowS', ⟨rfl, _⟩ | hmem, hnames⟩
              · exact .inr hnames
              · exact .inl ⟨hex', nowS', hmem, hnames⟩
            · rintro (⟨hex', nowS', hmem, hnames⟩ | hnames)
              · exact ⟨hex', nowS', .inr hmem, hnames⟩
              · exact ⟨hex, nowS, .inl ⟨rfl, rfl, trivial⟩, hnames⟩
          have hcount : ∀ later, issues (.consumed hex nowS true :: later) = issues later :=
            fun later => rfl
          simp only [entries, ← List.map_take, List.mem_map, ih, hlater, hcount, reduceCtorEq,
            false_and, false_or]
          constructor
          · rintro ⟨old, ⟨later, earlier, hsplit, hshort, hold⟩, rfl⟩
            refine ⟨later, earlier, hsplit, hshort, ?_⟩
            simp only [Entry.mark, Bool.or_eq_true, decide_eq_true_eq, hold]
          · rintro ⟨later, earlier, hsplit, hshort, hredeemed⟩
            classical
            refine ⟨⟨entry.bytes, entry.issuedAtS, decide (RedeemedIn later entry.bytes)⟩,
              ⟨later, earlier, hsplit, hshort, decide_eq_true_iff⟩, ?_⟩
            obtain ⟨entryBytes, issuedAtS, redeemed⟩ := entry
            simp only [Entry.mark, Entry.mk.injEq, true_and]
            rw [Bool.eq_iff_iff, hredeemed, Bool.or_eq_true, decide_eq_true_eq, decide_eq_true_eq]
      | .consumed hex nowS false =>
          have hlater : ∀ later, RedeemedIn (.consumed hex nowS false :: later) entry.bytes ↔
              RedeemedIn later entry.bytes := by
            intro later
            simp [RedeemedIn]
          have hcount : ∀ later, issues (.consumed hex nowS false :: later) = issues later :=
            fun later => rfl
          simp only [entries, ih, hlater, hcount, reduceCtorEq, false_and, false_or]

/-- The history's verdict in terms of its tickets. -/
theorem honoured_iff {history : List Event} {hex : Option Bytes} {nowS : Nat} :
    Honoured history hex nowS ↔ ∃ entry ∈ (entries history).take 4,
      Names hex entry.bytes ∧ nowS ≤ entry.issuedAtS + 10 ∧ entry.redeemed = false := by
  have hnever : ∀ later bytes, (∀ hex' nowS', .consumed hex' nowS' true ∈ later →
      ¬ Names hex' bytes) ↔ ¬ RedeemedIn later bytes := by
    intro later bytes
    simp [RedeemedIn]
  simp only [Honoured, hnever]
  constructor
  · rintro ⟨later, bytes, issuedAtS, earlier, hsplit, hshort, hnames, hfresh, hnone⟩
    refine ⟨⟨bytes, issuedAtS, false⟩, mem_take_entries.mpr
      ⟨later, earlier, hsplit, hshort, by simpa using hnone⟩, hnames, hfresh, rfl⟩
  · rintro ⟨entry, hentry, hnames, hfresh, hunused⟩
    obtain ⟨later, earlier, hsplit, hshort, hredeemed⟩ := mem_take_entries.mp hentry
    refine ⟨later, entry.bytes, entry.issuedAtS, earlier, hsplit, hshort, hnames, hfresh, ?_⟩
    rw [← hredeemed, hunused]
    exact Bool.false_ne_true

/-! ## The slots -/

/-- The bytes of a slot that holds a ticket. -/
def liveBytes (ticket : Ticket) : Option (Block kTicketBytes) :=
  if ticket.live then some ticket.bytes else none

/-- The slot once a ticket of these bytes was accepted. -/
def markUsed (bytes : Block kTicketBytes) (ticket : Ticket) : Ticket :=
  if liveBytes ticket = some bytes then { ticket with used := true } else ticket

/-- The ticket can be accepted for these bytes. -/
structure Usable (ticket : Ticket) (bytes : Block kTicketBytes) (nowS : UInt32) : Prop where
  named : liveBytes ticket = some bytes
  unused : ticket.used = false
  fresh : expired ticket nowS = false

theorem liveBytes_eq_some_iff {ticket : Ticket} {bytes : Block kTicketBytes} :
    liveBytes ticket = some bytes ↔ ticket.live = true ∧ ticket.bytes = bytes := by
  rw [liveBytes]
  split
  · rename_i hlive
    simp [hlive]
  · rename_i hlive
    simp [hlive]

variable {store : WsTicketStore} {bytes : Block kTicketBytes}

/-- Live tickets of different bytes: the scan finds the only one there is. -/
theorem lookUp_eq_some_iff (h : (store.slots.filterMap liveBytes).Nodup)
    {i : Fin store.slots.length} :
    store.lookUp bytes = some i ↔
      liveBytes (store.slots.get i) = some bytes ∧ (store.slots.get i).used = false := by
  have htest : ∀ ticket : Ticket, (ticket.live && !ticket.used && ticket.bytes == bytes) = true ↔
      liveBytes ticket = some bytes ∧ ticket.used = false := by
    intro ticket
    rw [liveBytes_eq_some_iff]
    simp only [Bool.and_eq_true, Bool.not_eq_true', beq_iff_eq]
    tauto
  rw [lookUp, List.findFinIdx?_eq_some_iff, htest]
  refine and_iff_left_of_imp fun hi j hj hother => ?_
  have hsame := EvictingRing.index_unique h i.isLt (Nat.lt_trans hj i.2) hi.1
    ((htest _).mp hother).1
  omega

/-- An accepted ticket is marked where it stands. -/
theorem slots_set_eq_map (h : (store.slots.filterMap liveBytes).Nodup)
    {i : Fin store.slots.length} (hi : liveBytes (store.slots.get i) = some bytes) :
    store.slots.set i { store.slots.get i with used := true } =
      store.slots.map (markUsed bytes) := by
  refine List.ext_getElem (by simp) fun j hleft hright => ?_
  rw [List.getElem_set, List.getElem_map, markUsed]
  rw [List.length_set] at hleft
  split
  · rename_i hij
    subst hij
    exact (if_pos hi).symm
  · rename_i hij
    exact (if_neg fun hj => hij (EvictingRing.index_unique h i.isLt hleft hi hj)).symm

/-- What `consume` accepts, and what it leaves. -/
theorem consume_eq_some_iff (h : (store.newest.filterMap liveBytes).Nodup) {hex : Bytes}
    {nowS : UInt32} {ticket : Ticket} {next : WsTicketStore} :
    store.consume hex nowS = some (ticket, next) ↔
      ∃ bytes, fromHex (cstring hex) kTicketBytes = some bytes ∧ ticket ∈ store.newest ∧
        Usable ticket bytes nowS ∧ next = store.map (markUsed bytes) := by
  have hslots : (store.slots.filterMap liveBytes).Nodup :=
    (List.Perm.filterMap _ store.newest_perm).nodup_iff.mp h
  have hset : ∀ {i : Fin store.slots.length} {bytes : Block kTicketBytes} {hlength},
      liveBytes (store.slots.get i) = some bytes →
      ({ store with
        slots := store.slots.set i { store.slots.get i with used := true }
        slots_length := hlength } : WsTicketStore) = store.map (markUsed bytes) := by
    intro i bytes hlength hi
    simp only [EvictingRing.map, slots_set_eq_map hslots hi]
  rw [consume]
  constructor
  · intro haccepted
    split at haccepted
    · cases haccepted
    · split at haccepted
      · cases haccepted
      · rename_i bytes hbytes
        split at haccepted
        · cases haccepted
        · rename_i i hlookUp
          obtain ⟨hnamed, hunused⟩ := (lookUp_eq_some_iff hslots).mp hlookUp
          simp only at haccepted
          split at haccepted
          · cases haccepted
          · rename_i hfresh
            cases haccepted
            exact ⟨bytes, hbytes, EvictingRing.mem_newest.mpr (List.get_mem _ _),
              ⟨hnamed, hunused, by simpa using hfresh⟩, hset hnamed⟩
  · rintro ⟨bytes, hbytes, hmem, husable, rfl⟩
    have hlength : (cstring hex).length = kTicketHexLen := by
      by_contra hother
      rw [kTicketHexLen] at hother
      rw [fromHex, if_neg hother] at hbytes
      cases hbytes
    obtain ⟨i, rfl⟩ := List.mem_iff_get.mp (EvictingRing.mem_newest.mp hmem)
    have hlookUp := (lookUp_eq_some_iff hslots).mpr ⟨husable.named, husable.unused⟩
    rw [if_neg (not_not.mpr hlength)]
    simp only [hbytes, hlookUp, husable.fresh, Bool.false_eq_true, if_false,
      hset husable.named]

/-! ## The slots follow the history -/

/-- What a slot says of the ticket in it. -/
def slotView (ticket : Ticket) : Option (Block kTicketBytes × UInt32 × Bool) :=
  if ticket.live then some (ticket.bytes, ticket.issuedAtS, ticket.used) else none

def Entry.view (entry : Entry) : Option (Block kTicketBytes × UInt32 × Bool) :=
  some (entry.bytes, tick entry.issuedAtS, entry.redeemed)

/-- The slots, from the newest on, are the last four tickets of the history; a slot that was
never written holds none. -/
def Follows (run : Run) : Prop :=
  run.store.newest.map slotView =
    ((entries run.history).map Entry.view ++ List.replicate kMaxTickets none).take kMaxTickets

theorem follows_start : Follows Run.start := by
  rw [Follows, Run.start, initial, EvictingRing.newest_fill]
  rfl

/-- Views in the slots are views of the last four tickets. -/
theorem Follows.filterMap {run : Run} (h : Follows run) {β : Type}
    (f : Block kTicketBytes × UInt32 × Bool → Option β) :
    run.store.newest.filterMap (fun ticket => (slotView ticket).bind f) =
      ((entries run.history).take kMaxTickets).filterMap fun entry => entry.view.bind f := by
  have hslots := congrArg (List.filterMap fun view : Option _ => view.bind f) h
  rw [List.filterMap_map, List.take_append, List.filterMap_append, List.take_replicate,
    List.filterMap_replicate_of_none rfl, List.append_nil, ← List.map_take,
    List.filterMap_map] at hslots
  exact hslots

theorem Follows.liveBytes {run : Run} (h : Follows run) :
    run.store.newest.filterMap liveBytes = (issues run.history).take kMaxTickets := by
  have hslots : run.store.newest.filterMap WsTicketStore.liveBytes =
      run.store.newest.filterMap fun ticket => (slotView ticket).bind fun view => some view.1 := by
    refine List.filterMap_congr fun ticket _ => ?_
    rw [WsTicketStore.liveBytes, slotView]
    split <;> rfl
  have hentries : (fun entry : Entry => entry.view.bind fun view => some view.1) =
      some ∘ Entry.bytes := rfl
  rw [hslots, h.filterMap, hentries, List.filterMap_eq_map, List.map_take, map_bytes_entries]

/-- A view that is found in a slot is that of one of the last four tickets. -/
theorem Follows.exists_view {run : Run} (h : Follows run)
    {view : Block kTicketBytes × UInt32 × Bool} :
    (∃ ticket ∈ run.store.newest, slotView ticket = some view) ↔
      ∃ entry ∈ (entries run.history).take kMaxTickets, entry.view = some view := by
  have hviews := congrArg (view ∈ ·) (h.filterMap some)
  simpa [List.mem_filterMap] using hviews

theorem Follows.issue {run : Run} (h : Follows run) (bytes : Block kTicketBytes) (nowS : Nat) :
    Follows (run.call (.issue bytes nowS)) := by
  have hkept := congrArg (List.take (kMaxTickets - 1)) h
  rw [← List.map_take, List.take_take] at hkept
  rw [Follows, Run.call, WsTicketStore.issue, EvictingRing.newest_write, List.map_cons, hkept]
  rfl

/-- What an accepted text changes in a view. -/
def markView (bytes : Block kTicketBytes) :
    Block kTicketBytes × UInt32 × Bool → Block kTicketBytes × UInt32 × Bool
  | (other, issuedAtS, used) => (other, issuedAtS, used || decide (bytes = other))

theorem slotView_markUsed (bytes : Block kTicketBytes) (ticket : Ticket) :
    slotView (markUsed bytes ticket) = (slotView ticket).map (markView bytes) := by
  rw [markUsed, slotView]
  by_cases hlive : ticket.live = true
  · by_cases hbytes : ticket.bytes = bytes
    · rw [if_pos (liveBytes_eq_some_iff.mpr ⟨hlive, hbytes⟩), slotView, if_pos hlive]
      simp [hlive, markView, hbytes]
    · rw [if_neg (fun hlook => hbytes (liveBytes_eq_some_iff.mp hlook).2), slotView, if_pos hlive]
      simp [markView, Ne.symm hbytes]
  · rw [if_neg (fun hlook => hlive (liveBytes_eq_some_iff.mp hlook).1), slotView, if_neg hlive]
    rfl

theorem view_mark {hex : Option Bytes} {bytes : Block kTicketBytes}
    (h : decoded hex = some bytes) (entry : Entry) :
    (entry.mark hex).view = entry.view.map (markView bytes) := by
  simp [Entry.mark, Entry.view, markView, h]

/-- What a call of `consume` accepts, as long as the live tickets differ. -/
theorem redeem_eq_some_iff {run : Run} (h : (run.store.newest.filterMap liveBytes).Nodup)
    {hex : Option Bytes} {nowS : Nat} {ticket : Ticket} {next : WsTicketStore} :
    run.redeem hex nowS = some (ticket, next) ↔
      ∃ bytes, decoded hex = some bytes ∧ ticket ∈ run.store.newest ∧
        Usable ticket bytes (tick nowS) ∧ next = run.store.map (markUsed bytes) := by
  cases hex with
  | none => simp [Run.redeem, decoded]
  | some text => exact consume_eq_some_iff h

theorem Follows.consume {run : Run} (h : Follows run)
    (hdistinct : ((issues run.history).take kMaxTickets).Nodup) (hex : Option Bytes) (nowS : Nat) :
    Follows (run.call (.consume hex nowS)) := by
  rw [Run.call]
  split
  · exact h
  · rename_i ticket next hredeem
    have hlive := h.liveBytes ▸ hdistinct
    obtain ⟨bytes, hdecoded, _, _, rfl⟩ := (redeem_eq_some_iff hlive).mp hredeem
    have hslots : slotView ∘ markUsed bytes = (Option.map (markView bytes)) ∘ slotView := by
      funext ticket
      exact slotView_markUsed bytes ticket
    have hviews : Entry.view ∘ Entry.mark hex = (Option.map (markView bytes)) ∘ Entry.view := by
      funext entry
      exact view_mark hdecoded entry
    have hnone : List.replicate kMaxTickets none =
        (List.replicate kMaxTickets none).map (Option.map (markView bytes)) := rfl
    rw [Follows, EvictingRing.newest_map, List.map_map, hslots, ← List.map_map, h, entries,
      List.map_map, hviews, ← List.map_map, hnone, ← List.map_append, List.map_take]
    rfl

/-- The slots tell what the history tells, while the clock can. -/
theorem Follows.redeem_iff {run : Run} (h : Follows run)
    (hdistinct : ((issues run.history).take kMaxTickets).Nodup) {nowS : Nat}
    (htimes : ∀ entry ∈ entries run.history,
      entry.issuedAtS ≤ nowS ∧ nowS < entry.issuedAtS + 2 ^ 31) (hex : Option Bytes) :
    (run.redeem hex nowS).isSome = true ↔ Honoured run.history hex nowS := by
  have hlive := h.liveBytes ▸ hdistinct
  have haccept : (run.redeem hex nowS).isSome = true ↔ ∃ bytes, decoded hex = some bytes ∧
      ∃ ticket ∈ run.store.newest, Usable ticket bytes (tick nowS) := by
    simp only [Option.isSome_iff_exists, Prod.exists, redeem_eq_some_iff hlive]
    constructor
    · rintro ⟨ticket, next, bytes, hdecoded, hmem, husable, _⟩
      exact ⟨bytes, hdecoded, ticket, hmem, husable⟩
    · rintro ⟨bytes, hdecoded, ticket, hmem, husable⟩
      exact ⟨ticket, _, bytes, hdecoded, hmem, husable, rfl⟩
  have hexpired : ∀ (issuedAtS : Nat), issuedAtS ≤ nowS → nowS < issuedAtS + 2 ^ 31 →
      (((tick nowS - tick issuedAtS).toInt32.toInt > kLifetimeSeconds) ↔
        ¬ nowS ≤ issuedAtS + 10) := by
    intro issuedAtS hle hlt
    rw [signed_tick_sub hle hlt, kLifetimeSeconds]
    omega
  rw [haccept, honoured_iff]
  constructor
  · rintro ⟨bytes, hdecoded, ticket, hmem, husable⟩
    obtain ⟨hticket, hbytes⟩ := liveBytes_eq_some_iff.mp husable.named
    have hview : slotView ticket = some (bytes, ticket.issuedAtS, false) := by
      rw [slotView, if_pos hticket, hbytes, husable.unused]
    obtain ⟨entry, hentry, heq⟩ := h.exists_view.mp ⟨ticket, hmem, hview⟩
    simp only [Entry.view, Option.some.injEq, Prod.mk.injEq] at heq
    obtain ⟨hentryBytes, hissued, hunused⟩ := heq
    obtain ⟨hle, hlt⟩ := htimes entry (List.mem_of_mem_take hentry)
    refine ⟨entry, hentry, ?_, ?_, hunused⟩
    · rw [hentryBytes]
      exact decoded_eq_some_iff.mp hdecoded
    · have hfresh := husable.fresh
      rw [expired, ← hissued, decide_eq_false_iff_not, hexpired _ hle hlt, not_not] at hfresh
      exact hfresh
  · rintro ⟨entry, hentry, hnames, hfresh, hunused⟩
    obtain ⟨ticket, hmem, hview⟩ := h.exists_view.mpr ⟨entry, hentry, rfl⟩
    obtain ⟨hle, hlt⟩ := htimes entry (List.mem_of_mem_take hentry)
    rw [slotView] at hview
    split at hview
    · rename_i hticket
      simp only [Option.some.injEq, Prod.mk.injEq] at hview
      obtain ⟨hbytes, hissued, hused⟩ := hview
      refine ⟨entry.bytes, decoded_eq_some_iff.mpr hnames, ticket, hmem,
        liveBytes_eq_some_iff.mpr ⟨hticket, hbytes⟩, hused.trans hunused, ?_⟩
      rw [expired, hissued, decide_eq_false_iff_not, hexpired _ hle hlt, not_not]
      exact hfresh
    · cases hview

/-! ## Runs in scope -/

theorem InScope.front {front : List Call} {last : Call} (h : InScope (front ++ [last])) :
    InScope front := by
  constructor
  · have hordered := h.ordered
    rw [List.map_append, List.pairwise_append] at hordered
    exact hordered.1
  · intro a ha b hb
    exact h.span a (List.mem_append_left _ ha) b (List.mem_append_left _ hb)
  · intro k
    have hdistinct := h.distinct k
    rw [issueBytes, List.filterMap_append, List.drop_append, List.take_append] at hdistinct
    exact (List.nodup_append.mp hdistinct).1

theorem calls_concat (front : List Call) (last : Call) :
    Run.calls (front ++ [last]) = (Run.calls front).call last := by
  rw [Run.calls, List.foldl_append]
  rfl

theorem issues_calls (calls : List Call) :
    issues (Run.calls calls).history = (issueBytes calls).reverse := by
  induction calls using List.reverseRecOn with
  | nil => rfl
  | append_singleton front last ih =>
      have hlast : (issueBytes (front ++ [last])).reverse =
          (issueBytes [last]).reverse ++ (issueBytes front).reverse := by
        rw [issueBytes, List.filterMap_append, List.reverse_append]
        rfl
      rw [calls_concat, hlast, ← ih]
      cases last with
      | issue bytes nowS => rfl
      | consume hex nowS =>
          rw [Run.call]
          split <;> rfl

theorem mem_calls_of_issued {calls : List Call} {bytes : Block kTicketBytes} {nowS : Nat}
    (h : .issued bytes nowS ∈ (Run.calls calls).history) : .issue bytes nowS ∈ calls := by
  induction calls using List.reverseRecOn with
  | nil => cases h
  | append_singleton front last ih =>
      rw [calls_concat] at h
      rw [List.mem_append, List.mem_singleton]
      cases last with
      | issue lastBytes lastS =>
          simp only [Run.call, List.mem_cons, Event.issued.injEq] at h
          rcases h with ⟨rfl, rfl⟩ | hmem
          · exact .inr rfl
          · exact .inl (ih hmem)
      | consume hex lastS =>
          rw [Run.call] at h
          split at h
          · simp only [List.mem_cons, reduceCtorEq, false_or] at h
            exact .inl (ih h)
          · simp only [List.mem_cons, reduceCtorEq, false_or] at h
            exact .inl (ih h)

theorem mem_calls_of_entry {calls : List Call} {entry : Entry}
    (h : entry ∈ entries (Run.calls calls).history) :
    .issue entry.bytes entry.issuedAtS ∈ calls := by
  rw [← List.take_length (l := entries _), mem_take_entries] at h
  obtain ⟨later, earlier, hsplit, _, _⟩ := h
  refine mem_calls_of_issued ?_
  rw [hsplit]
  simp

theorem InScope.distinct_issues {calls : List Call} (h : InScope calls) :
    ((issues (Run.calls calls).history).take kMaxTickets).Nodup := by
  have hlast := h.distinct ((issueBytes calls).length - kMaxTickets)
  rw [List.take_of_length_le (by rw [List.length_drop, kMaxTickets]; omega)] at hlast
  rw [issues_calls, List.take_reverse, List.nodup_reverse]
  exact hlast

theorem InScope.follows {calls : List Call} (h : InScope calls) : Follows (Run.calls calls) := by
  induction calls using List.reverseRecOn with
  | nil => exact follows_start
  | append_singleton front last ih =>
      rw [calls_concat]
      cases last with
      | issue bytes nowS => exact (ih h.front).issue bytes nowS
      | consume hex nowS => exact (ih h.front).consume h.front.distinct_issues hex nowS

/-- A text is accepted exactly when the history of the run honours it: it is the text of one of
the last four tickets, at most ten seconds old, that was not accepted since it was issued. -/
theorem consume_iff_honoured (calls : List Call) (hex : Option Bytes) (nowS : Nat)
    (h : InScope (calls ++ [.consume hex nowS])) :
    ((Run.calls calls).redeem hex nowS).isSome = true ↔
      Honoured (Run.calls calls).history hex nowS := by
  refine h.front.follows.redeem_iff h.front.distinct_issues (fun entry hentry => ?_) hex
  have hcall := mem_calls_of_entry hentry
  have hordered := h.ordered
  rw [List.map_append, List.pairwise_append] at hordered
  have hle := hordered.2.2 _ (List.mem_map_of_mem hcall) nowS (List.mem_singleton.mpr rfl)
  have hlt := h.span _ (List.mem_append_left _ hcall) (.consume hex nowS)
    (List.mem_append_right _ (List.mem_singleton.mpr rfl))
  exact ⟨hle, hlt⟩

/-- Tickets that all differ may be issued in any number. -/
theorem inScope_of_nodup {calls : List Call} (hordered : (calls.map Call.time).Pairwise (· ≤ ·))
    (hspan : ∀ a ∈ calls, ∀ b ∈ calls, b.time < a.time + 2 ^ 31)
    (hnodup : (issueBytes calls).Nodup) : InScope calls where
  ordered := hordered
  span := hspan
  distinct k := hnodup.sublist ((List.take_sublist _ _).trans (List.drop_sublist k _))

/-- A ticket that differs from the others in its first byte. -/
def ticketBytes (k : Byte) : Block kTicketBytes := ⟨k :: List.replicate 7 0, rfl⟩

/-- The text of such a ticket. -/
def ticketText (k : Byte) : Option Bytes := some (toHex (ticketBytes k).1)

/-- Five tickets, one a second: the fifth takes the first one's place. -/
def fiveTickets : List Call :=
  [.issue (ticketBytes 1) 1000, .issue (ticketBytes 2) 1001, .issue (ticketBytes 3) 1002,
    .issue (ticketBytes 4) 1003, .issue (ticketBytes 5) 1004]

/-- The last of five tickets is accepted once, and the first one no more. -/
theorem consume_iff_honoured_evicted :
    Honoured (Run.calls fiveTickets).history (ticketText 5) 1005 ∧
      ¬ Honoured (Run.calls (fiveTickets ++ [.consume (ticketText 5) 1005])).history
        (ticketText 5) 1006 ∧
      ¬ Honoured (Run.calls fiveTickets).history (ticketText 1) 1005 := by
  have hfifth : InScope (fiveTickets ++ [.consume (ticketText 5) 1005]) :=
    inScope_of_nodup (by decide) (by decide) (by decide)
  have hagain : InScope
      ((fiveTickets ++ [.consume (ticketText 5) 1005]) ++ [.consume (ticketText 5) 1006]) :=
    inScope_of_nodup (by decide) (by decide) (by decide)
  have hfirst : InScope (fiveTickets ++ [.consume (ticketText 1) 1005]) :=
    inScope_of_nodup (by decide) (by decide) (by decide)
  refine ⟨(consume_iff_honoured _ _ _ hfifth).mp (by decide +kernel), fun h => ?_, fun h => ?_⟩
  · exact absurd ((consume_iff_honoured _ _ _ hagain).mpr h) (by decide +kernel)
  · exact absurd ((consume_iff_honoured _ _ _ hfirst).mpr h) (by decide +kernel)

end MatrixFaces.Api.WsTicketStore
