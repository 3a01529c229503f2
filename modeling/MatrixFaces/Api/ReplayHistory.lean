import MatrixFaces.Api.Authenticator

set_option autoImplicit false

/-!
# What the authenticator remembers

The nonce ring and the marks stand for a history of everything served:
`Remembers` relates the two, and `acceptRequest` answers as the history does.

`Remembers` is the simulation between the arrays of the source and `Foundation.ReplayWindow`.
The ring is the last nonces of the history, and a mark the highest timestamp of its client.
There are as many marks as clients, so one is always found (`highWaterMark_ne_none`).

`acceptRequest_ok_iff` says that the answer is the history's, `Remembers.acceptRequest` that
serving keeps the relation, and `Remembers.forget` and `Remembers.mono` do so for what changes
the clients.
-/

namespace MatrixFaces.Api

open MatrixFaces.Foundation
open MatrixFaces.Foundation.ReplayWindow
open MatrixFaces.ApiAuth

/-- What a ring entry stands for. -/
def NonceEntry.view (entry : NonceEntry) : Option Request :=
  if entry.used then some ⟨entry.clientId, entry.nonce, entry.timestamp⟩ else none

abbrev ServedHistory := History ClientId Nonce UInt32

namespace Authenticator

/-- The clients a list of marks belongs to. -/
def usedIds (marks : List HighWaterMark) : List ClientId :=
  (marks.filter HighWaterMark.used).map HighWaterMark.clientId

@[simp] theorem usedIds_append (left right : List HighWaterMark) :
    usedIds (left ++ right) = usedIds left ++ usedIds right := by
  simp [usedIds]

theorem usedIds_cons_of_used {mark : HighWaterMark} (h : mark.used = true)
    (marks : List HighWaterMark) : usedIds (mark :: marks) = mark.clientId :: usedIds marks := by
  simp [usedIds, h]

theorem usedIds_cons_of_unused {mark : HighWaterMark} (h : mark.used = false)
    (marks : List HighWaterMark) : usedIds (mark :: marks) = usedIds marks := by
  simp [usedIds, h]

theorem mem_usedIds {marks : List HighWaterMark} {id : ClientId} :
    id ∈ usedIds marks ↔ ∃ mark ∈ marks, mark.used = true ∧ mark.clientId = id := by
  simp [usedIds, and_assoc]

/-- The ids that have a mark. -/
def markedIds (auth : Authenticator) : List ClientId := usedIds auth.marks

/-- The replay state `auth` of a device with this credential store stands for
`history`. -/
structure Remembers (auth : Authenticator) (store : CredentialStore) (history : ServedHistory) :
    Prop where
  /-- The ring holds the last 24 requests served. -/
  ring : auth.nonces.newest.map NonceEntry.view =
    (history ++ List.replicate kNonceCacheSize none).take kNonceCacheSize
  /-- No client has two marks. -/
  nodup : auth.markedIds.Nodup
  /-- Only paired clients have marks. -/
  paired : ∀ id ∈ auth.markedIds, id ∈ store.ids
  /-- Every client that was served has a mark. -/
  marked : ∀ request, some request ∈ history → request.client ∈ auth.markedIds
  /-- A mark is the latest timestamp served to its client. -/
  latest : ∀ mark ∈ auth.marks, mark.used = true →
    (∃ request, some request ∈ history ∧ request.client = mark.clientId ∧
      request.timestamp = mark.timestamp) ∧
    ∀ request, some request ∈ history → request.client = mark.clientId →
      request.timestamp ≤ mark.timestamp

theorem mem_markedIds {auth : Authenticator} {id : ClientId} :
    id ∈ auth.markedIds ↔ ∃ mark ∈ auth.marks, mark.used = true ∧ mark.clientId = id :=
  mem_usedIds

/-- A fresh authenticator remembers nothing. -/
theorem remembers_initial (store : CredentialStore) : initial.Remembers store [] where
  ring := by simp [initial, NonceEntry.view, NonceEntry.zero]
  nodup := by
    have : initial.markedIds = [] := by decide
    simp [this]
  paired := by
    have : initial.markedIds = [] := by decide
    simp [this]
  marked := by simp
  latest := by
    intro mark hmark hused
    rw [List.eq_of_mem_replicate hmark] at hused
    cases hused

/-! ## Looking up a mark -/

/-- The mark found is the client's own, or an unused one if the client has none. -/
theorem highWaterMark_eq_some {auth : Authenticator} {id : ClientId}
    {i : Fin auth.marks.length} (h : auth.highWaterMark id = some i) :
    ((auth.marks.get i).used = true ∧ (auth.marks.get i).clientId = id) ∨
      ((auth.marks.get i).used = false ∧ id ∉ auth.markedIds) := by
  rw [highWaterMark] at h
  split at h
  · rename_i j hfound
    cases h
    have := (List.findFinIdx?_eq_some_iff.mp hfound).1
    simp only [Bool.and_eq_true, beq_iff_eq] at this
    exact Or.inl this
  · rename_i hmissing
    have hnone := List.findFinIdx?_eq_none_iff.mp hmissing
    have hunused := (List.findFinIdx?_eq_some_iff.mp h).1
    refine Or.inr ⟨by simpa using hunused, ?_⟩
    rw [mem_markedIds]
    rintro ⟨mark, hmark, hused, hid⟩
    exact hnone mark hmark (by simp [hused, hid])

/-- Without a mark to give, all four belong to other clients. -/
theorem highWaterMark_eq_none {auth : Authenticator} {id : ClientId}
    (h : auth.highWaterMark id = none) :
    id ∉ auth.markedIds ∧ auth.markedIds.length = kMaxClients := by
  rw [highWaterMark] at h
  split at h
  · cases h
  · rename_i hmissing
    have hnone := List.findFinIdx?_eq_none_iff.mp hmissing
    have hused := List.findFinIdx?_eq_none_iff.mp h
    constructor
    · rw [mem_markedIds]
      rintro ⟨mark, hmark, hmarkUsed, hid⟩
      exact hnone mark hmark (by simp [hmarkUsed, hid])
    · rw [markedIds, usedIds, List.length_map, List.filter_eq_self.mpr, auth.marks_length]
      intro mark hmark
      simpa using hused mark hmark

/-- A paired client always finds a mark: four distinct others would make five
paired clients. -/
theorem highWaterMark_ne_none {auth : Authenticator} {store : CredentialStore}
    {history : ServedHistory} (h : auth.Remembers store history) {id : ClientId}
    (hpaired : id ∈ store.ids) : auth.highWaterMark id ≠ none := by
  intro hnone
  obtain ⟨hunmarked, hfull⟩ := highWaterMark_eq_none hnone
  have hnodup : (id :: auth.markedIds).Nodup := List.nodup_cons.mpr ⟨hunmarked, h.nodup⟩
  have hsubset : id :: auth.markedIds ⊆ store.ids := by
    intro other hother
    rcases List.mem_cons.mp hother with rfl | hmem
    · exact hpaired
    · exact h.paired other hmem
  have hlength := (List.subperm_of_subset hnodup hsubset).length_le
  have hmax := store.ids_length_le
  rw [List.length_cons, hfull] at hlength
  omega

/-! ## Answers -/

theorem mem_take_iff_seen {auth : Authenticator} {store : CredentialStore}
    {history : ServedHistory} (h : auth.Remembers store history) (id : ClientId) (nonce : Nonce) :
    auth.nonceSeen id nonce = true ↔
      ∃ request, some request ∈ history.take kNonceCacheSize ∧ request.client = id ∧
        request.nonce = nonce := by
  have hview : ∀ request : Request, some request ∈ history.take kNonceCacheSize ↔
      ∃ entry ∈ auth.nonces.slots, entry.view = some request := by
    intro request
    have hring : some request ∈ (history ++ List.replicate kNonceCacheSize none).take
        kNonceCacheSize ↔ some request ∈ history.take kNonceCacheSize := by
      rw [List.take_append, List.mem_append, List.take_replicate]
      simp
    rw [← hring, ← h.ring, List.mem_map]
    simp only [EvictingRing.mem_newest]
  simp only [hview, nonceSeen, List.any_eq_true, Bool.and_eq_true, beq_iff_eq, NonceEntry.view]
  constructor
  · rintro ⟨entry, hentry, ⟨hused, hid⟩, hnonce⟩
    exact ⟨_, ⟨entry, hentry, by rw [if_pos hused]⟩, hid, hnonce⟩
  · rintro ⟨request, ⟨entry, hentry, hrequest⟩, hid, hnonce⟩
    split at hrequest
    · cases hrequest
      exact ⟨entry, hentry, ⟨by assumption, hid⟩, hnonce⟩
    · cases hrequest

theorem isOlder_eq_false_iff {auth : Authenticator} {store : CredentialStore}
    {history : ServedHistory} (h : auth.Remembers store history) {request : Request}
    (hpaired : request.client ∈ store.ids) :
    auth.isOlder request = false ↔
      ∀ served, some served ∈ history → served.client = request.client →
        served.timestamp ≤ request.timestamp := by
  obtain ⟨i, hi⟩ := Option.ne_none_iff_exists'.mp (highWaterMark_ne_none h hpaired)
  simp only [isOlder, hi]
  rcases highWaterMark_eq_some hi with ⟨hused, hid⟩ | ⟨hunused, hmissing⟩
  · obtain ⟨⟨latest, hlatest, hclient, htime⟩, hmax⟩ :=
      h.latest _ (List.get_mem auth.marks i) hused
    rw [hused, Bool.true_and, decide_eq_false_iff_not, UInt32.not_lt]
    constructor
    · intro hle served hserved hsame
      exact UInt32.le_trans (hmax served hserved (hsame.trans hid.symm)) hle
    · intro hall
      rw [← htime]
      exact hall latest hlatest (hclient.trans hid)
  · simp only [hunused, Bool.false_and, true_iff]
    intro served hserved hsame
    exact absurd (hsame ▸ h.marked served hserved) hmissing

/-- `acceptRequest` accepts what the history admits. -/
theorem acceptRequest_ok_iff {auth : Authenticator} {store : CredentialStore}
    {history : ServedHistory}
    (h : auth.Remembers store history) {request : Request}
    (hpaired : request.client ∈ store.ids) :
    (auth.acceptRequest request).2 = .kAuthOk ↔ Admits kNonceCacheSize history request := by
  have haccept : (auth.acceptRequest request).2 = .kAuthOk ↔
      auth.isOlder request = false ∧ auth.nonceSeen request.client request.nonce = false := by
    rw [acceptRequest]
    cases auth.isOlder request with
    | true => simp
    | false =>
        cases auth.nonceSeen request.client request.nonce with
        | true => simp
        | false => cases auth.highWaterMark request.client <;> simp
  rw [haccept, isOlder_eq_false_iff h hpaired, ← Bool.not_eq_true, mem_take_iff_seen h]
  constructor
  · rintro ⟨hnewest, hfresh⟩
    exact ⟨hnewest, fun served hserved hclient hnonce =>
      hfresh ⟨served, hserved, hclient, hnonce⟩⟩
  · rintro ⟨hnewest, hfresh⟩
    exact ⟨hnewest, fun ⟨served, hserved, hclient, hnonce⟩ =>
      hfresh served hserved hclient hnonce⟩

/-! ## Serving a request -/

/-- Writing the client's own mark, or an unused one if it has none, adds the
client to those with a mark and nobody else. -/
theorem usedIds_serve {before after : List HighWaterMark} {mark : HighWaterMark}
    (raised : HighWaterMark) (hraised : raised.used = true)
    (hmark : (mark.used = true ∧ mark.clientId = raised.clientId) ∨
      (mark.used = false ∧ raised.clientId ∉ usedIds (before ++ mark :: after)))
    (hnodup : (usedIds (before ++ mark :: after)).Nodup) :
    (usedIds (before ++ raised :: after)).Nodup ∧
      (∀ id, id ∈ usedIds (before ++ raised :: after) ↔
        id = raised.clientId ∨ id ∈ usedIds (before ++ mark :: after)) ∧
      raised.clientId ∉ usedIds (before ++ after) := by
  simp only [usedIds_append, usedIds_cons_of_used hraised] at *
  rcases hmark with ⟨hused, hid⟩ | ⟨hunused, hmissing⟩
  · rw [usedIds_cons_of_used hused, hid] at hnodup
    rw [usedIds_cons_of_used hused, hid]
    refine ⟨hnodup, fun id => ?_, (List.nodup_cons.mp (List.nodup_middle.mp hnodup)).1⟩
    simp only [List.mem_append, List.mem_cons]
    tauto
  · rw [usedIds_cons_of_unused hunused] at hnodup hmissing ⊢
    refine ⟨List.nodup_middle.mpr (List.nodup_cons.mpr ⟨hmissing, hnodup⟩), fun id => ?_, hmissing⟩
    simp only [List.mem_append, List.mem_cons]
    tauto

theorem ring_serve {auth : Authenticator} {history : ServedHistory} (request : Request)
    (h : auth.nonces.newest.map NonceEntry.view =
      (history ++ List.replicate kNonceCacheSize none).take kNonceCacheSize) :
    (auth.rememberNonce request).nonces.newest.map NonceEntry.view =
      (some request :: history ++ List.replicate kNonceCacheSize none).take kNonceCacheSize := by
  simp only [rememberNonce, EvictingRing.newest_write, List.map_cons, List.map_take, h,
    List.take_take, List.cons_append]
  rfl

/-- The marks after a request the history admits: one of them is now the
request's, and the others belong to other clients. -/
theorem marks_serve {auth : Authenticator} {store : CredentialStore} {history : ServedHistory}
    (h : auth.Remembers store history) {request : Request} {i : Fin auth.marks.length}
    (hmark : auth.highWaterMark request.client = some i) :
    ((auth.raiseMark i request).markedIds).Nodup ∧
      (∀ id, id ∈ (auth.raiseMark i request).markedIds ↔
        id = request.client ∨ id ∈ auth.markedIds) ∧
      ∀ mark ∈ (auth.raiseMark i request).marks, mark.used = true →
        (mark.clientId = request.client ∧ mark.timestamp =
          if !(auth.marks.get i).used || request.timestamp > (auth.marks.get i).timestamp then
            request.timestamp else (auth.marks.get i).timestamp) ∨
        (mark ∈ auth.marks ∧ mark.clientId ≠ request.client) := by
  obtain ⟨before, after, hsplit, hset⟩ := EvictingRing.exists_split_set auth.marks i.isLt
  have hmarks : auth.marks = before ++ auth.marks.get i :: after := hsplit
  clear hsplit
  have hnodup := h.nodup
  have hfound := highWaterMark_eq_some hmark
  simp only [markedIds, raiseMark] at *
  rw [hset]
  generalize auth.marks.get i = mark at *
  rw [hmarks] at hnodup hfound ⊢
  obtain ⟨hnext, hids, hothers⟩ := usedIds_serve ⟨request.client,
    if !mark.used || request.timestamp > mark.timestamp then request.timestamp
      else mark.timestamp, true⟩ rfl hfound hnodup
  refine ⟨hnext, hids, ?_⟩
  intro other hother hused
  rw [List.mem_append, List.mem_cons] at hother
  rcases hother with hbefore | rfl | hafter
  · refine Or.inr ⟨List.mem_append_left _ hbefore, fun hsame => hothers ?_⟩
    exact mem_usedIds.mpr ⟨other, List.mem_append_left _ hbefore, hused, hsame⟩
  · exact Or.inl ⟨rfl, rfl⟩
  · refine Or.inr ⟨List.mem_append_right _ (List.mem_cons_of_mem _ hafter),
      fun hsame => hothers ?_⟩
    exact mem_usedIds.mpr ⟨other, List.mem_append_right _ hafter, hused, hsame⟩

theorem acceptRequest_of_ok {auth : Authenticator} {request : Request}
    {i : Fin auth.marks.length} (hok : (auth.acceptRequest request).2 = .kAuthOk)
    (hmark : auth.highWaterMark request.client = some i) :
    (auth.acceptRequest request).1 = (auth.rememberNonce request).raiseMark i request := by
  rw [acceptRequest] at hok ⊢
  split at hok
  · cases hok
  · split at hok
    · cases hok
    · rename_i hnotOlder hnotSeen
      rw [if_neg hnotOlder, if_neg hnotSeen]
      simp only [hmark]

/-- The mark of a client goes up to the timestamp of what it is served. -/
theorem raised_timestamp {auth : Authenticator} {store : CredentialStore}
    {history : ServedHistory} (h : auth.Remembers store history) {request : Request}
    {i : Fin auth.marks.length} (hmark : auth.highWaterMark request.client = some i)
    (hadmits : Admits kNonceCacheSize history request) :
    (if !(auth.marks.get i).used || request.timestamp > (auth.marks.get i).timestamp then
      request.timestamp else (auth.marks.get i).timestamp) = request.timestamp := by
  split
  · rfl
  · rename_i hkept
    simp only [Bool.or_eq_true, Bool.not_eq_true', decide_eq_true_eq, not_or,
      Bool.not_eq_false, gt_iff_lt, UInt32.not_lt] at hkept
    obtain ⟨hused, hle⟩ := hkept
    rcases highWaterMark_eq_some hmark with ⟨_, hid⟩ | ⟨hunused, _⟩
    · obtain ⟨⟨latest, hlatest, hclient, htime⟩, _⟩ :=
        h.latest _ (List.get_mem auth.marks i) hused
      have hnewer := hadmits.newest latest hlatest (hclient.trans hid)
      rw [htime] at hnewer
      exact UInt32.le_antisymm hnewer hle
    · rw [hunused] at hused
      cases hused

/-- An accepted request is remembered. -/
theorem Remembers.acceptRequest {auth : Authenticator} {store : CredentialStore}
    {history : ServedHistory} (h : auth.Remembers store history) {request : Request}
    (hpaired : request.client ∈ store.ids) (hok : (auth.acceptRequest request).2 = .kAuthOk) :
    (auth.acceptRequest request).1.Remembers store (some request :: history) := by
  have hadmits := (acceptRequest_ok_iff h hpaired).mp hok
  obtain ⟨i, hi⟩ := Option.ne_none_iff_exists'.mp (highWaterMark_ne_none h hpaired)
  obtain ⟨hnodup, hids, hmarks⟩ := marks_serve h hi
  rw [acceptRequest_of_ok hok hi]
  refine ⟨ring_serve request h.ring, hnodup, ?_, ?_, ?_⟩
  · intro id hid
    rcases (hids id).mp hid with rfl | hold
    · exact hpaired
    · exact h.paired id hold
  · intro served hserved
    refine (hids served.client).mpr ?_
    rcases List.mem_cons.mp hserved with hnew | hold
    · cases hnew
      exact Or.inl rfl
    · exact Or.inr (h.marked served hold)
  · intro mark hmark hused
    rcases hmarks mark hmark hused with ⟨hclient, htime⟩ | ⟨hmem, hne⟩
    · have hraised : mark.timestamp = request.timestamp :=
        htime.trans (raised_timestamp h hi hadmits)
      refine ⟨⟨request, List.mem_cons_self, hclient.symm, hraised.symm⟩, ?_⟩
      intro served hserved hsame
      rcases List.mem_cons.mp hserved with hnew | hold
      · cases hnew
        exact hraised ▸ UInt32.le_refl _
      · exact hraised ▸ hadmits.newest served hold (hsame.trans hclient)
    · obtain ⟨⟨latest, hlatest, hlatestClient, hlatestTime⟩, hmax⟩ := h.latest mark hmem hused
      refine ⟨⟨latest, List.mem_cons_of_mem _ hlatest, hlatestClient, hlatestTime⟩, ?_⟩
      intro served hserved hsame
      rcases List.mem_cons.mp hserved with hnew | hold
      · cases hnew
        exact absurd hsame.symm hne
      · exact hmax served hold hsame

/-! ## Forgetting -/

theorem view_forget (entry : NonceEntry) (id : ClientId) :
    NonceEntry.view (if entry.used = true ∧ entry.clientId = id then { entry with used := false }
      else entry) = entry.view.filter fun request => request.client ≠ id := by
  by_cases hused : entry.used = true
  · by_cases hid : entry.clientId = id
    · rw [if_pos ⟨hused, hid⟩, NonceEntry.view, if_neg (by simp), NonceEntry.view, if_pos hused,
        Option.filter_some, if_neg (by simp [hid])]
    · rw [if_neg fun h => hid h.2, NonceEntry.view, if_pos hused, Option.filter_some,
        if_pos (by simpa using hid)]
  · rw [if_neg fun h => hused h.1, NonceEntry.view, if_neg hused, Option.filter_none]

theorem usedIds_forget (marks : List HighWaterMark) (id : ClientId) :
    usedIds (marks.map fun mark =>
        if mark.used = true ∧ mark.clientId = id then { mark with used := false } else mark) =
      (usedIds marks).filter fun other => other ≠ id := by
  induction marks with
  | nil => rfl
  | cons mark rest ih =>
      rw [List.map_cons]
      cases hused : mark.used with
      | false =>
          rw [if_neg (by simp), usedIds_cons_of_unused hused, usedIds_cons_of_unused hused, ih]
      | true =>
          rw [usedIds_cons_of_used hused]
          by_cases hid : mark.clientId = id
          · rw [if_pos ⟨rfl, hid⟩, usedIds_cons_of_unused rfl, ih,
              List.filter_cons_of_neg (by simp [hid])]
          · rw [if_neg fun h => hid h.2, usedIds_cons_of_used hused, ih,
              List.filter_cons_of_pos (by simpa using hid)]

/-- Forgetting a client erases it from the history, and allows the store to drop it. -/
theorem Remembers.forget {auth : Authenticator} {store next : CredentialStore}
    {history : ServedHistory} (h : auth.Remembers store history) (id : ClientId)
    (hstore : ∀ other ∈ store.ids, other ≠ id → other ∈ next.ids) :
    (auth.forget id).Remembers next (record history (.forget id)) := by
  have hids : (auth.forget id).markedIds = auth.markedIds.filter fun other => other ≠ id :=
    usedIds_forget auth.marks id
  have hmem : ∀ request, some request ∈ record history (.forget id) ↔
      some request ∈ history ∧ request.client ≠ id := by
    intro request
    simp only [record, List.mem_map]
    constructor
    · rintro ⟨entry, hentry, hfilter⟩
      obtain ⟨rfl, hne⟩ := Option.filter_eq_some_iff.mp hfilter
      exact ⟨hentry, by simpa using hne⟩
    · rintro ⟨hentry, hne⟩
      exact ⟨_, hentry, Option.filter_eq_some_iff.mpr ⟨rfl, by simpa using hne⟩⟩
  refine ⟨?_, ?_, ?_, ?_, ?_⟩
  · have hring := congrArg (List.map (Option.filter fun request : Request =>
      decide (request.client ≠ id))) h.ring
    rw [List.map_map, List.map_take, List.map_append, List.map_replicate] at hring
    rw [Authenticator.forget, EvictingRing.newest_map, List.map_map, record]
    simp only [Function.comp_def, view_forget, Option.filter_none] at hring ⊢
    exact hring
  · rw [hids]
    exact h.nodup.filter _
  · intro other hother
    rw [hids, List.mem_filter] at hother
    exact hstore other (h.paired other hother.1) (by simpa using hother.2)
  · intro request hrequest
    obtain ⟨hold, hne⟩ := (hmem request).mp hrequest
    rw [hids, List.mem_filter]
    exact ⟨h.marked request hold, by simpa using hne⟩
  · intro mark hmark hused
    obtain ⟨old, hold, rfl⟩ := List.mem_map.mp hmark
    split at hused
    · cases hused
    · rename_i hkeep
      rw [if_neg hkeep]
      have hne : old.clientId ≠ id := fun hid => hkeep ⟨hused, hid⟩
      obtain ⟨⟨latest, hlatest, hclient, htime⟩, hmax⟩ := h.latest old hold hused
      refine ⟨⟨latest, (hmem latest).mpr ⟨hlatest, hclient ▸ hne⟩, hclient, htime⟩, ?_⟩
      intro request hrequest
      exact hmax request ((hmem request).mp hrequest).1

/-- Marks stay right when the store only grows. -/
theorem Remembers.mono {auth : Authenticator} {store next : CredentialStore}
    {history : ServedHistory} (h : auth.Remembers store history)
    (hstore : ∀ id ∈ store.ids, id ∈ next.ids) : auth.Remembers next history :=
  { h with paired := fun id hid => hstore id (h.paired id hid) }

end Authenticator

end MatrixFaces.Api
