import MatrixFaces.Api.WsHub

set_option autoImplicit false

/-!
# Text messages across arbitrary arrivals

A client sends masked text frames; their bytes reach the hub cut up in any way.
Every message is delivered exactly when no poll finds the buffer full.

`IsTextFrame` is a frame as clients send it, and `payloadOf` its text.  The main result is
`delivered_iff_fits`, for every list of such frames and every cut of their bytes into polls:
the messages are handed over once each and in order and the connection stays open exactly if
at every poll what is left of an incomplete frame and what has arrived are together less than
the buffer holds (`FitsBuffer`).  `carry` is what is left over, counted on the stream alone.

`pipelined_frames_lost` is a poll that finds 43 frames of six bytes waiting.
-/

namespace MatrixFaces.Api.WsHub

open MatrixFaces.Foundation

/-- The bytes of one masked, unfragmented text frame that fits the buffer. -/
def IsTextFrame (frame : Bytes) : Prop :=
  ∃ header, Ws.parseHeader frame = .ok header ∧ header.fin = true ∧
    header.opcode = Ws.kText ∧ header.masked = true ∧
    frame.length = header.headerLen + header.payloadLen ∧ frame.length ≤ kInboundCap

/-- The unmasked payload of a frame. -/
def payloadOf (frame : Bytes) : Bytes :=
  match Ws.parseHeader frame with
  | .error _ => []
  | .ok header => Ws.unmask (frame.drop header.headerLen) header.maskKey

/-- The bytes of an incomplete frame among the first `n` bytes of the frames. -/
def carry : List Bytes → Nat → Nat
  | [], _ => 0
  | frame :: rest, n => if frame.length ≤ n then carry rest (n - frame.length) else n

/-- A whole text frame is delivered. -/
theorem readFrame_text {frame : Bytes} (h : IsTextFrame frame) (more : Bytes) :
    readFrame (frame ++ more) = .frame (.message (payloadOf frame)) frame.length := by
  obtain ⟨header, hparse, _, hopcode, hmasked, hlength, hcap⟩ := h
  have hread : readFrame frame = .frame (.message (payloadOf frame)) frame.length := by
    rw [readFrame_of_header hparse hmasked (by omega) (by omega), hopcode, dispatch, if_pos rfl,
      payloadOf, hparse, hlength, List.take_of_length_le (by rw [List.length_drop]; omega)]
  rw [readFrame_append more (by rw [hread]; simp), hread]

/-- Part of a text frame is waited on. -/
theorem readFrame_of_cut {frame : Bytes} (h : IsTextFrame frame) {n : Nat}
    (hn : n < frame.length) : readFrame (frame.take n) = .wait := by
  obtain ⟨header, hparse, _, _, hmasked, hlength, hcap⟩ := h
  have htake : (frame.take n).length = n := by rw [List.length_take]; omega
  by_cases hincomplete : Ws.parseHeader (frame.take n) = .error .kIncomplete
  · rw [readFrame, hincomplete]
  · have hsame := Ws.parseHeader_append (frame.drop n) hincomplete
    rw [List.take_append_drop, hparse] at hsame
    rw [readFrame, ← hsame]
    simp only [hmasked]
    rw [if_neg (by simp), if_neg (by omega), if_pos (by omega)]

theorem readFrame_nil : readFrame [] = .wait := rfl

/-- Draining the first `n` bytes of the frames delivers the complete ones among
them, in order, and leaves the bytes of the next. -/
theorem drainFrames_take {frames : List Bytes} (h : ∀ frame ∈ frames, IsTextFrame frame) (n : Nat) :
    ∃ delivered rest, drainFrames (frames.flatten.take n) =
        (delivered.map fun frame => Effect.message (payloadOf frame), some rest) ∧
      rest.length = carry frames n ∧ (frames.flatten.length ≤ n → delivered = frames) := by
  induction frames generalizing n with
  | nil =>
      refine ⟨[], [], ?_, rfl, fun _ => rfl⟩
      rw [List.flatten_nil, List.take_nil]
      exact framing.drain_of_wait readFrame_nil
  | cons frame rest ih =>
      have hframe := h frame List.mem_cons_self
      have hrest := ih fun other hother => h other (List.mem_cons_of_mem _ hother)
      rw [List.flatten_cons, carry]
      by_cases hn : frame.length ≤ n
      · obtain ⟨delivered, left, hdrain, hleft, hall⟩ := hrest (n - frame.length)
        refine ⟨frame :: delivered, left, ?_, by rw [if_pos hn, hleft], ?_⟩
        · have hread := readFrame_text hframe (rest.flatten.take (n - frame.length))
          rw [List.take_append, List.take_of_length_le hn, drainFrames,
            framing.drain_of_frame hread, List.drop_left, ← drainFrames, hdrain]
          rfl
        · intro hlen
          rw [List.length_append] at hlen
          rw [hall (by omega)]
      · have hlt : n < frame.length := Nat.lt_of_not_le hn
        refine ⟨[], frame.take n, ?_, ?_, ?_⟩
        · rw [List.take_append_of_le_length (Nat.le_of_lt hlt)]
          exact framing.drain_of_wait (readFrame_of_cut hframe hlt)
        · rw [if_neg hn, List.length_take]
          omega
        · intro hlen
          rw [List.length_append] at hlen
          omega

namespace Session

/-- Every poll finds less than a full buffer: what is left of an incomplete frame
and what arrived with the poll. -/
def FitsBuffer (frames chunks : List Bytes) : Prop :=
  ∀ before chunk after, chunks = before ++ chunk :: after →
    carry frames before.flatten.length + chunk.length < kInboundCap

/-- The session after part of the chunks: it has drained them, or it is closed
because a poll found the buffer full. -/
theorem receive_prefix {frames : List Bytes} (h : ∀ frame ∈ frames, IsTextFrame frame)
    {chunks : List Bytes} {after : Bytes} (hsplit : chunks.flatten ++ after = frames.flatten) :
    (FitsBuffer frames chunks ∧ receive chunks = ofDrain (drainFrames chunks.flatten)) ∨
      (¬ FitsBuffer frames chunks ∧ (receive chunks).entry = none) := by
  induction chunks using List.reverseRecOn generalizing after with
  | nil =>
      refine Or.inl ⟨fun before chunk after hsplit => ?_, rfl⟩
      simp at hsplit
  | append_singleton chunks chunk ih =>
      have hprefix : chunks.flatten ++ (chunk ++ after) = frames.flatten := by
        rw [← hsplit]
        simp
      have hfits : FitsBuffer frames (chunks ++ [chunk]) ↔ FitsBuffer frames chunks ∧
          carry frames chunks.flatten.length + chunk.length < kInboundCap := by
        constructor
        · intro hall
          refine ⟨fun before other rest heq => hall before other (rest ++ [chunk]) (by simp [heq]),
            hall chunks chunk [] rfl⟩
        · rintro ⟨hbefore, hlast⟩ before other rest heq
          rcases List.eq_nil_or_concat rest with rfl | ⟨init, last, rfl⟩
          · obtain ⟨rfl, hchunk⟩ := List.append_inj' heq rfl
            cases hchunk
            exact hlast
          · rw [List.concat_eq_append, ← List.cons_append, ← List.append_assoc] at heq
            obtain ⟨hinit, _⟩ := List.append_inj' heq rfl
            exact hbefore before other init hinit
      have hstream : chunks.flatten = frames.flatten.take chunks.flatten.length := by
        rw [← hprefix, List.take_left]
      obtain ⟨delivered, rest, hdrain, hrest, _⟩ := drainFrames_take h chunks.flatten.length
      rw [← hstream] at hdrain
      rw [receive_append_single, hfits]
      rcases ih hprefix with ⟨hbefore, hreceive⟩ | ⟨hbefore, hclosed⟩
      · by_cases hlast : carry frames chunks.flatten.length + chunk.length < kInboundCap
        · refine Or.inl ⟨⟨hbefore, hlast⟩, ?_⟩
          rw [hreceive, poll_ofDrain, List.flatten_append, List.flatten_singleton]
          intro left hleft
          rw [hdrain] at hleft
          cases hleft
          omega
        · refine Or.inr ⟨fun hboth => hlast hboth.2, ?_⟩
          rw [hreceive, hdrain, ofDrain, Option.map_some, poll_of_ge (by omega)]
      · refine Or.inr ⟨fun hboth => hbefore hboth.1, ?_⟩
        rw [poll_closed hclosed, hclosed]

/-- Every message is delivered, once and in order, and the connection stays open,
exactly when no poll finds the buffer full. -/
theorem delivered_iff_fits {frames chunks : List Bytes}
    (h : ∀ frame ∈ frames, IsTextFrame frame) (hsplit : chunks.flatten = frames.flatten) :
    ((receive chunks).log = frames.map (fun frame => Effect.message (payloadOf frame)) ∧
      (receive chunks).entry ≠ none) ↔ FitsBuffer frames chunks := by
  obtain ⟨delivered, rest, hdrain, _, hall⟩ := drainFrames_take h chunks.flatten.length
  rw [hsplit, List.take_length] at hdrain
  rw [hsplit] at hall
  have hall' : chunks.flatten ++ [] = frames.flatten := by simpa using hsplit
  rcases receive_prefix h hall' with ⟨hfits, hreceive⟩ | ⟨hfits, hclosed⟩
  · refine iff_of_true ?_ hfits
    rw [hreceive, hsplit, hdrain, hall (Nat.le_refl _)]
    exact ⟨rfl, by simp [ofDrain]⟩
  · exact iff_of_false (fun hkept => hkept.2 hclosed) hfits

/-! ## Frames that wait together -/

/-- A text frame with an empty payload under an all-zero key. -/
def emptyText : Bytes := [0x81, 0x80, 0, 0, 0, 0]

theorem isTextFrame_emptyText : IsTextFrame emptyText :=
  ⟨⟨true, 1, true, 0, ⟨[0, 0, 0, 0], rfl⟩, 6⟩, by decide, rfl, rfl, rfl, rfl, by decide⟩

/-- Forty-three such frames waiting at one poll fill the buffer: none is delivered
and the connection is closed. -/
theorem pipelined_frames_lost :
    (∀ frame ∈ List.replicate 43 emptyText, IsTextFrame frame) ∧
      receive [(List.replicate 43 emptyText).flatten] = ⟨[.closed kCloseTooBig], none⟩ ∧
      ¬ ((receive [(List.replicate 43 emptyText).flatten]).log =
          (List.replicate 43 emptyText).map (fun frame => Effect.message (payloadOf frame)) ∧
        (receive [(List.replicate 43 emptyText).flatten]).entry ≠ none) := by
  have hclosed : receive [(List.replicate 43 emptyText).flatten] =
      ⟨[.closed kCloseTooBig], none⟩ := by decide +kernel
  refine ⟨?_, hclosed, ?_⟩
  · intro frame hframe
    rw [List.eq_of_mem_replicate hframe]
    exact isTextFrame_emptyText
  · rw [hclosed]
    exact fun hkept => hkept.2 rfl

/-- Two frames cut in the middle of the first. -/
theorem delivered_iff_fits_cut :
    ((receive [[0x81, 0x80], [0, 0, 0, 0, 0x81, 0x80, 0, 0, 0, 0]]).log =
        [emptyText, emptyText].map (fun frame => Effect.message (payloadOf frame)) ∧
      (receive [[0x81, 0x80], [0, 0, 0, 0, 0x81, 0x80, 0, 0, 0, 0]]).entry ≠ none) ↔
    FitsBuffer [emptyText, emptyText] [[0x81, 0x80], [0, 0, 0, 0, 0x81, 0x80, 0, 0, 0, 0]] :=
  delivered_iff_fits (by simp [isTextFrame_emptyText]) rfl

end Session

end MatrixFaces.Api.WsHub
