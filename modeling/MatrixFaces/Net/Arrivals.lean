import MatrixFaces.Foundation.Clock32
import MatrixFaces.Net.StreamRead

set_option autoImplicit false

/-!
# A peer whose bytes arrive on a schedule

Each byte has the time from which it can be read.  The peer stays connected, and
time passes in `delay` alone.

`readLine_arrivals` and `readExactly_arrivals` say of one line and of so many bytes: if the last
byte is there before the deadline the reader has it, at the time it came, and the rest is left
on the schedule.  Times are natural numbers, of which the client sees the low 32 bits.
-/

namespace MatrixFaces.Net

open MatrixFaces.Foundation

/-- A byte and the millisecond from which it can be read. -/
abbrev Arrival := Nat × Byte

/-- The bytes still to come, and the time. -/
structure ScriptedPeer where
  unread : List Arrival
  now : Nat

/-- The bytes come in order: a late one holds up those behind it. -/
def scripted : Client ScriptedPeer where
  read peer :=
    match peer.unread with
    | [] => (none, peer)
    | arrival :: rest =>
        if arrival.1 ≤ peer.now then (some arrival.2, { peer with unread := rest })
        else (none, peer)
  connected _ := true
  available peer := (peer.unread.takeWhile fun arrival => arrival.1 ≤ peer.now).length
  delay peer := { peer with now := peer.now + 1 }
  millis peer := Clock32.tick peer.now

/-- When a reader that started at `start` has them all. -/
def finish (start : Nat) (arrivals : List Arrival) : Nat :=
  arrivals.foldl (fun now arrival => max now arrival.1) start

theorem scripted_read_of_le {arrival : Arrival} {rest : List Arrival} {now : Nat}
    (h : arrival.1 ≤ now) :
    scripted.read ⟨arrival :: rest, now⟩ = (some arrival.2, ⟨rest, now⟩) :=
  if_pos h

theorem scripted_read_of_lt {arrival : Arrival} {rest : List Arrival} {now : Nat}
    (h : now < arrival.1) :
    scripted.read ⟨arrival :: rest, now⟩ = (none, ⟨arrival :: rest, now⟩) :=
  if_neg (Nat.not_le.mpr h)

theorem waitForMore_scripted (peer : ScriptedPeer) :
    waitForMore scripted peer = some { peer with now := peer.now + 1 } :=
  if_neg fun h => Bool.noConfusion h.1

/-- The wrapped clock tells the time that passed, up to the deadline. -/
theorem tick_sub_lt {start now : Nat} {timeoutMs : UInt32} (hle : start ≤ now)
    (hlt : now < start + timeoutMs.toNat) :
    Clock32.tick now - Clock32.tick start < timeoutMs := by
  have hbound := timeoutMs.toNat_lt
  rw [UInt32.lt_iff_toNat_lt, Clock32.tick_sub_toNat_of_le hle]
  omega

section

variable {cap start now : Nat} {timeoutMs : UInt32}

/-- Starved, `readLine` waits for the next byte. -/
theorem readLineFrom_wait {arrival : Arrival} {rest : List Arrival} {out : Bytes}
    {overflowed : Bool} (hle : start ≤ now) (hlt : now < start + timeoutMs.toNat)
    (harrives : arrival.1 < start + timeoutMs.toNat) (fuel : Nat) :
    readLineFrom scripted cap timeoutMs (Clock32.tick start) (fuel + (arrival.1 - now)) out
        overflowed ⟨arrival :: rest, now⟩ =
      readLineFrom scripted cap timeoutMs (Clock32.tick start) fuel out overflowed
        ⟨arrival :: rest, max now arrival.1⟩ := by
  induction hwait : arrival.1 - now generalizing now with
  | zero => rw [Nat.max_eq_left (Nat.sub_eq_zero_iff_le.mp hwait), Nat.add_zero]
  | succ wait ih =>
      have htime : scripted.millis ⟨arrival :: rest, now⟩ - Clock32.tick start < timeoutMs :=
        tick_sub_lt hle hlt
      have hnow : now < arrival.1 := by omega
      rw [← Nat.add_assoc, readLineFrom, if_pos htime]
      simp only [scripted_read_of_lt hnow, waitForMore_scripted]
      rw [ih (by omega) (by omega) (by omega), Nat.max_eq_right (by omega),
        Nat.max_eq_right (by omega)]

/-- A line all of whose bytes arrive in time is read. -/
theorem readLineFrom_arrivals (hcap : 0 < cap) {line : List Arrival} {last : Nat}
    {rest : List Arrival} {raw : Bytes} (hline : chLf ∉ line.map Prod.snd)
    (harrive : ∀ arrival ∈ line ++ [(last, chLf)], arrival.1 < start + timeoutMs.toNat)
    (hle : start ≤ now) (hlt : now < start + timeoutMs.toNat) :
    ∃ need, ∀ fuel,
      readLineFrom scripted cap timeoutMs (Clock32.tick start) (fuel + need)
          (raw.take (cap - 1)) (decide (cap ≤ raw.length)) ⟨line ++ (last, chLf) :: rest, now⟩ =
        some (lineOf cap (raw ++ line.map Prod.snd),
          ⟨rest, finish now (line ++ [(last, chLf)])⟩) := by
  induction line generalizing now raw with
  | nil =>
      have hlast : last < start + timeoutMs.toNat := harrive (last, chLf) List.mem_cons_self
      refine ⟨1 + (last - now), fun fuel => ?_⟩
      have htime : scripted.millis ⟨(last, chLf) :: rest, max now last⟩ - Clock32.tick start <
          timeoutMs :=
        tick_sub_lt (hle.trans (Nat.le_max_left _ _)) (Nat.max_lt.mpr ⟨hlt, hlast⟩)
      rw [← Nat.add_assoc, List.nil_append,
        @readLineFrom_wait cap start now timeoutMs (last, chLf) _ _ _ hle hlt hlast,
        readLineFrom_lf htime (scripted_read_of_le (Nat.le_max_right _ _)), List.map_nil,
        List.append_nil]
      rfl
  | cons arrival line ih =>
      rw [List.map_cons, List.mem_cons, not_or] at hline
      have harrival : arrival.1 < start + timeoutMs.toNat := harrive arrival List.mem_cons_self
      obtain ⟨need, hneed⟩ := @ih (max now arrival.1) (raw ++ [arrival.2]) hline.2
        (fun other hother => harrive other (List.mem_cons_of_mem _ hother)) (by omega) (by omega)
      refine ⟨need + 1 + (arrival.1 - now), fun fuel => ?_⟩
      have htime : scripted.millis ⟨arrival :: (line ++ (last, chLf) :: rest),
          max now arrival.1⟩ - Clock32.tick start < timeoutMs :=
        tick_sub_lt (hle.trans (Nat.le_max_left _ _)) (Nat.max_lt.mpr ⟨hlt, harrival⟩)
      rw [← Nat.add_assoc, ← Nat.add_assoc, List.cons_append, readLineFrom_wait hle hlt harrival,
        readLineFrom_byte hcap htime (scripted_read_of_le (Nat.le_max_right _ _))
          (Ne.symm hline.1), hneed fuel, List.map_cons, List.append_assoc, List.singleton_append]
      rfl

theorem readLine_arrivals (hcap : 0 < cap) {line : List Arrival} {last : Nat}
    {rest : List Arrival} (hline : chLf ∉ line.map Prod.snd)
    (harrive : ∀ arrival ∈ line ++ [(last, chLf)], arrival.1 < start + timeoutMs.toNat)
    (htimeout : 0 < timeoutMs.toNat) :
    ∃ need, ∀ fuel,
      readLine scripted cap timeoutMs (fuel + need) ⟨line ++ (last, chLf) :: rest, start⟩ =
        some (lineOf cap (line.map Prod.snd),
          ⟨rest, finish start (line ++ [(last, chLf)])⟩) := by
  obtain ⟨need, hneed⟩ := @readLineFrom_arrivals cap start start timeoutMs hcap line last rest []
    hline harrive (Nat.le_refl start) (Nat.lt_add_of_pos_right htimeout)
  refine ⟨need, fun fuel => ?_⟩
  have hread := hneed fuel
  rw [List.take_nil, List.length_nil, decide_eq_false (Nat.not_le.mpr hcap),
    List.nil_append] at hread
  exact hread

/-- Starved, `readExactly` waits for the next byte. -/
theorem readExactlyFrom_wait {want : Nat} {arrival : Arrival} {rest : List Arrival} {out : Bytes}
    (hmore : out.length < want) (hle : start ≤ now)
    (harrives : arrival.1 < start + timeoutMs.toNat) (fuel : Nat) :
    readExactlyFrom scripted want timeoutMs (Clock32.tick start) (fuel + (arrival.1 - now)) out
        ⟨arrival :: rest, now⟩ =
      readExactlyFrom scripted want timeoutMs (Clock32.tick start) fuel out
        ⟨arrival :: rest, max now arrival.1⟩ := by
  induction hwait : arrival.1 - now generalizing now with
  | zero => rw [Nat.max_eq_left (Nat.sub_eq_zero_iff_le.mp hwait), Nat.add_zero]
  | succ wait ih =>
      have hnow : now < arrival.1 := by omega
      have htime : ¬ scripted.millis ⟨arrival :: rest, now⟩ - Clock32.tick start ≥ timeoutMs :=
        UInt32.not_le.mpr (tick_sub_lt hle (hnow.trans harrives))
      rw [← Nat.add_assoc, readExactlyFrom, if_pos hmore]
      simp only [scripted_read_of_lt hnow, waitForMore_scripted, if_neg htime]
      rw [ih (by omega) (by omega), Nat.max_eq_right (by omega), Nat.max_eq_right (by omega)]

/-- A body all of whose bytes arrive in time is read. -/
theorem readExactlyFrom_arrivals {body : List Arrival} {rest : List Arrival} {out : Bytes}
    (harrive : ∀ arrival ∈ body, arrival.1 < start + timeoutMs.toNat) (hle : start ≤ now) :
    ∃ need, ∀ fuel,
      readExactlyFrom scripted (out.length + body.length) timeoutMs (Clock32.tick start)
          (fuel + need) out ⟨body ++ rest, now⟩ =
        some (some (out ++ body.map Prod.snd), ⟨rest, finish now body⟩) := by
  induction body generalizing now out with
  | nil =>
      refine ⟨1, fun fuel => ?_⟩
      rw [readExactlyFrom, List.length_nil, Nat.add_zero, if_neg (Nat.lt_irrefl _), List.map_nil,
        List.append_nil]
      rfl
  | cons arrival body ih =>
      have harrival : arrival.1 < start + timeoutMs.toNat := harrive arrival List.mem_cons_self
      obtain ⟨need, hneed⟩ := @ih (max now arrival.1) (out ++ [arrival.2])
        (fun other hother => harrive other (List.mem_cons_of_mem _ hother))
        (hle.trans (Nat.le_max_left _ _))
      refine ⟨need + 1 + (arrival.1 - now), fun fuel => ?_⟩
      have hmore : out.length < out.length + (arrival :: body).length := by
        rw [List.length_cons]
        omega
      have hwant : out.length + (arrival :: body).length =
          (out ++ [arrival.2]).length + body.length := by
        rw [List.length_append, List.length_singleton, List.length_cons]
        omega
      rw [← Nat.add_assoc, ← Nat.add_assoc, List.cons_append,
        readExactlyFrom_wait hmore hle harrival, readExactlyFrom, if_pos hmore]
      simp only [scripted_read_of_le (show arrival.1 ≤ max now arrival.1 from Nat.le_max_right _ _)]
      rw [hwant, hneed fuel, List.map_cons, List.append_assoc, List.singleton_append]
      rfl

theorem readExactly_arrivals {body rest : List Arrival}
    (harrive : ∀ arrival ∈ body, arrival.1 < start + timeoutMs.toNat) :
    ∃ need, ∀ fuel,
      readExactly scripted body.length timeoutMs (fuel + need) ⟨body ++ rest, start⟩ =
        some (some (body.map Prod.snd), ⟨rest, finish start body⟩) := by
  obtain ⟨need, hneed⟩ := @readExactlyFrom_arrivals start start timeoutMs body rest []
    harrive (Nat.le_refl start)
  refine ⟨need, fun fuel => ?_⟩
  have hread := hneed fuel
  rw [List.length_nil, Nat.zero_add, List.nil_append] at hread
  exact hread

/-- Draining is over when what has arrived is read. -/
theorem drainBufferedFrom_scripted (started : UInt32) (peer : ScriptedPeer) :
    ∃ need, ∀ fuel, ∃ final,
      drainBufferedFrom scripted timeoutMs started (fuel + need) peer = some final := by
  obtain ⟨unread, now⟩ := peer
  induction unread with
  | nil => exact ⟨1, fun fuel => ⟨⟨[], now⟩, if_neg fun h => absurd h.1 (Nat.lt_irrefl 0)⟩⟩
  | cons arrival rest ih =>
      obtain ⟨need, hneed⟩ := ih
      refine ⟨need + 1, fun fuel => ?_⟩
      by_cases hmore : 0 < scripted.available ⟨arrival :: rest, now⟩ ∧
          scripted.millis ⟨arrival :: rest, now⟩ - started < timeoutMs
      · have harrived : arrival.1 ≤ now := by
          by_contra hlate
          have havailable : scripted.available ⟨arrival :: rest, now⟩ = 0 := by
            simp [scripted, hlate]
          omega
        rw [← Nat.add_assoc, drainBufferedFrom, if_pos hmore, scripted_read_of_le harrived]
        exact hneed fuel
      · rw [← Nat.add_assoc, drainBufferedFrom, if_neg hmore]
        exact ⟨_, rfl⟩

end

end MatrixFaces.Net
