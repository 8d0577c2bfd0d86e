import NtpProto.FilterRun

/-!
# Packets and the tuples they give

`Peer::update_with_packet` stores a header, checks it and computes a filter tuple from its four
timestamps.

* `updateWithPacket_cases`: the two outcomes. A rejected header is stored and nothing else
  changes; an accepted one also schedules the next poll (`pollUpdate_frame`: only `host_poll`
  and `next_date` move) and marks the peer reachable.
* `updateWithPacket_symmetric`: the tuple of an exchange over a symmetric path, with one-way
  delay `d`, server processing time `q` and clock offset `θ`. The code's `offset2` is
  `T4 - T3` and its `delta2` is `T2 - T3`, so the offset is `d` and the delay `2·d + 2·q`,
  whatever `θ` is.
* `pollUpdate_scheduled`: the next poll is not before the current time, except while a burst
  waits for its date (that branch returns before the final check) and in the last second of
  the era, where `t + 1 s` wraps; `pollUpdate_past` gives a call of each kind.
-/

namespace Ntp

open NtpDuration

/-- The checks of `update_with_packet` that a stored header passes: synchronized, a stratum
below `MAX_STRATUM`, root delay and dispersion in bounds, and no time travel. -/
def NtpHeader.Accepted (r : NtpHeader) : Prop :=
  r.leap.isSynchronized ∧ r.stratum < MAX_STRATUM ∧
    r.rootDelay / (2 : Int) + r.rootDispersion < MAX_DISPERSION ∧
    r.referenceTimestamp ≤ r.transmitTimestamp

instance (r : NtpHeader) : Decidable r.Accepted :=
  inferInstanceAs (Decidable (r.leap.isSynchronized ∧ r.stratum < MAX_STRATUM ∧
    r.rootDelay / (2 : Int) + r.rootDispersion < MAX_DISPERSION ∧
    r.referenceTimestamp ≤ r.transmitTimestamp))

/-- The header `update_with_packet` stores: stratum 0 is read as `MAX_STRATUM`. -/
def NtpHeader.normalize (packet : NtpHeader) : NtpHeader :=
  if packet.stratum = 0 then { packet with stratum := MAX_STRATUM } else packet

/-- A header that passes the checks once stored was stored unchanged. -/
theorem NtpHeader.normalize_of_accepted {packet : NtpHeader} (h : packet.normalize.Accepted) :
    packet.normalize = packet := by
  by_cases h0 : packet.stratum = 0
  · simp [normalize, h0, Accepted] at h
  · exact if_neg h0

namespace Peer

/-- `poll_update` moves only `host_poll` and `next_date`. -/
theorem pollUpdate_frame (p : Peer) (t : NtpTimestamp) (i : NtpDuration) :
    ∃ hostPoll nextDate, p.pollUpdate t i = { p with hostPoll, nextDate } := by
  simp only [pollUpdate]
  split_ifs <;> exact ⟨_, _, rfl⟩

/-- `next_date` after `poll_update`: a burst still waiting for its date returns early and
leaves it; every other call ends with the date its branch computed, or `t + 1 s` when that date
is before `t`. -/
theorem pollUpdate_nextDate (p : Peer) (t : NtpTimestamp) (i : NtpDuration) :
    (0 < p.burst ∧ p.nextDate ≠ t ∧ (p.pollUpdate t i).nextDate = p.nextDate) ∨
      ∃ d : NtpTimestamp, (p.pollUpdate t i).nextDate = if d < t then t + ONE else d := by
  unfold pollUpdate
  dsimp only
  split
  · split
    · exact .inl ⟨‹_›, ‹_›, rfl⟩
    · exact .inr ⟨_, apply_ite nextDate _ _ _⟩
  · exact .inr ⟨_, apply_ite nextDate _ _ _⟩

/-- `update_with_packet` as one case split on the checks of the stored header. -/
theorem updateWithPacket_eq (p : Peer) (t : NtpTimestamp) (sp : NtpDuration)
    (packet : NtpHeader) (dst : NtpTimestamp) :
    p.updateWithPacket t sp packet dst =
      if packet.normalize.Accepted then
        let q := { p with lastPacket := packet.normalize }.pollUpdate t p.hostPoll
        (some (packetTuple t sp packet.normalize dst), { q with reach := q.reach.update })
      else (none, { p with lastPacket := packet.normalize }) := by
  dsimp only [updateWithPacket, NtpHeader.normalize]
  generalize (if packet.stratum = 0 then { packet with stratum := MAX_STRATUM } else packet) = r
  split
  next h₁ =>
    refine (if_neg fun h => ?_).symm
    simp only [Bool.or_eq_true, Bool.not_eq_true', decide_eq_true_eq, ge_iff_le] at h₁
    exact h₁.elim (by simp [h.1]) (UInt8.not_le.mpr h.2.1)
  split
  next h₂ =>
    refine (if_neg fun h => ?_).symm
    simp only [ge_iff_le, le_iff, gt_iff_lt, NtpTimestamp.lt_iff] at h₂
    exact h₂.elim (Int.not_le.mpr h.2.2.1) (Nat.not_lt.mpr h.2.2.2)
  next h₁ h₂ =>
    simp only [Bool.or_eq_true, Bool.not_eq_true', decide_eq_true_eq, ge_iff_le, not_or,
      UInt8.not_le, Bool.not_eq_false] at h₁
    simp only [not_or, ge_iff_le, le_iff, gt_iff_lt, NtpTimestamp.lt_iff, Int.not_le,
      Nat.not_lt] at h₂
    exact (if_pos ⟨h₁.1, h₁.2, h₂.1, h₂.2⟩).symm

/-- Everything `update_with_packet` can do: store the header, then either reject it, changing
nothing else, or accept it, schedule the next poll, set the reachability bit and return the
tuple of `packetTuple`. -/
theorem updateWithPacket_cases (p : Peer) (t : NtpTimestamp) (sp : NtpDuration)
    (packet : NtpHeader) (dst : NtpTimestamp) :
    ((p.updateWithPacket t sp packet dst).1 = none ∧ ¬packet.normalize.Accepted ∧
        (p.updateWithPacket t sp packet dst).2 = { p with lastPacket := packet.normalize }) ∨
      ((p.updateWithPacket t sp packet dst).1 = some (packetTuple t sp packet.normalize dst) ∧
        packet.normalize.Accepted ∧
        ∃ hostPoll nextDate, (p.updateWithPacket t sp packet dst).2 =
          { p with lastPacket := packet.normalize, hostPoll, nextDate, reach := p.reach.update }) := by
  rw [updateWithPacket_eq]
  split
  next h =>
    obtain ⟨hp, n, he⟩ := pollUpdate_frame { p with lastPacket := packet.normalize } t p.hostPoll
    exact .inr ⟨rfl, h, hp, n, by dsimp only; rw [he]⟩
  next h => exact .inl ⟨rfl, h, rfl⟩

/-! ## The tuple of a symmetric exchange -/

/-- An exchange over a symmetric path: the request takes `d` ticks to the server, which answers
`q` ticks later, and the answer takes `d` ticks back; the server's clock is `θ` ticks ahead of
the local one, and nothing is large enough to wrap. A header that passes the checks gives a tuple
of offset `d` and delay `max(system_precision, 2·d + 2·q)`, whatever `θ` is. -/
theorem updateWithPacket_symmetric (p : Peer) (t : NtpTimestamp) (sp : NtpDuration)
    (packet : NtpHeader) (dst : NtpTimestamp) (d θ q : Int) (hmode : packet.mode ≠ .broadcast)
    (hacc : packet.normalize.Accepted)
    (hrecv : packet.receiveTimestamp = packet.originTimestamp + ofInt (d + θ))
    (hxmt : packet.transmitTimestamp = packet.receiveTimestamp + ofInt q)
    (hdst : dst = packet.transmitTimestamp + ofInt (d - θ))
    (hd : 0 ≤ d) (hq : 0 ≤ q) (hsmall : 2 * (d + q) + θ.natAbs < 2 ^ 63) :
    ∃ tuple, (p.updateWithPacket t sp packet dst).1 = some tuple ∧
      tuple.offset.duration = d ∧ tuple.delay.duration = max sp.duration (2 * (d + q)) := by
  rcases updateWithPacket_cases p t sp packet dst with ⟨-, hn, -⟩ | ⟨h, -, -⟩
  · exact absurd hacc hn
  refine ⟨_, h, ?_⟩
  have hθ : 2 * (d + q) + θ < 2 ^ 63 ∧ 2 * (d + q) - θ < 2 ^ 63 := by omega
  clear hsmall
  have h21 : (packet.receiveTimestamp - packet.originTimestamp).duration = d + θ := by
    rw [hrecv, NtpTimestamp.add_ofInt_sub_self _ (by omega) (by omega)]
  have h43 : (dst - packet.transmitTimestamp).duration = d - θ := by
    rw [hdst, NtpTimestamp.add_ofInt_sub_self _ (by omega) (by omega)]
  have h23 : (packet.receiveTimestamp - packet.transmitTimestamp).duration = -q := by
    rw [hxmt, NtpTimestamp.sub_add_duration, NtpTimestamp.sub_self_duration,
      ofInt_of_mem (by omega) (by omega), Int.zero_sub, wrapI64_of_mem (by omega) (by omega)]
  have h31 : (packet.transmitTimestamp - packet.originTimestamp).duration = d + θ + q := by
    rw [hxmt, NtpTimestamp.add_sub_duration, h21, ofInt_of_mem (by omega) (by omega),
      wrapI64_of_mem (by omega) (by omega)]
  have h41 : (dst - packet.originTimestamp).duration = 2 * d + q := by
    rw [hdst, NtpTimestamp.add_sub_duration, h31, ofInt_of_mem (by omega) (by omega),
      wrapI64_of_mem (by omega) (by omega)]
    omega
  rw [NtpHeader.normalize_of_accepted hacc]
  simp only [packetTuple, if_neg hmode, div_duration, add_duration, sub_duration, max_duration,
    h21, h43, h23, h41]
  have h2d : wrapI64 (2 * d) = 2 * d := wrapI64_of_mem (by omega) (by omega)
  have h2dq : wrapI64 (2 * (d + q)) = 2 * (d + q) := wrapI64_of_mem (by omega) (by omega)
  rw [show d + θ + (d - θ) = 2 * d by omega, show 2 * d + q - -q = 2 * (d + q) by omega, h2d,
    h2dq, Int.mul_tdiv_cancel_left _ (by decide), wrapI64_of_mem (by omega) (by omega)]
  exact ⟨rfl, rfl⟩

end Peer

/-- The answer of a server one second ahead to a request sent at the start of 2026, over a path
of no delay, after one second of processing. -/
def NtpHeader.secondAhead : NtpHeader where
  leap := .noWarning
  mode := .server
  stratum := 2
  poll := 6
  precision := -20
  rootDelay := ZERO
  rootDispersion := ZERO
  referenceId := ⟨1⟩
  referenceTimestamp := .jan2026
  originTimestamp := .jan2026
  receiveTimestamp := ⟨(3976214400 + 1) * 2 ^ 32, by decide⟩
  transmitTimestamp := ⟨(3976214400 + 2) * 2 ^ 32, by decide⟩

theorem updateWithPacket_symmetric_secondAhead :
    let dst : NtpTimestamp := ⟨(3976214400 + 1) * 2 ^ 32, by decide⟩
    NtpHeader.secondAhead.mode ≠ .broadcast ∧ NtpHeader.secondAhead.normalize.Accepted ∧
      NtpHeader.secondAhead.receiveTimestamp =
        NtpHeader.secondAhead.originTimestamp + ofInt (0 + 2 ^ 32) ∧
      NtpHeader.secondAhead.transmitTimestamp =
        NtpHeader.secondAhead.receiveTimestamp + ofInt (2 ^ 32) ∧
      dst = NtpHeader.secondAhead.transmitTimestamp + ofInt (0 - 2 ^ 32) ∧
      ∃ tuple, (Peer.sample.updateWithPacket dst ZERO .secondAhead dst).1 = some tuple ∧
        tuple.offset.duration = 0 ∧ tuple.delay.duration = max ZERO.duration (2 * (0 + 2 ^ 32)) :=
  ⟨by decide, by decide, by decide, by decide, by decide,
    Peer.updateWithPacket_symmetric _ _ _ _ _ 0 (2 ^ 32) (2 ^ 32) (by decide) (by decide)
      (by decide) (by decide) (by decide) (by decide) (by decide) (by decide)⟩


/-! ## The next poll -/

namespace Peer

/-- What `poll_update` at `t` promises of the next poll date `d` of a peer that was `p` on entry:
a burst still waiting for its date defers the update and leaves `d` as it was; otherwise `d` is
not before `t`, or `t` is in the last second of the era and `d` is `t + 1 s`, wrapped into the
next one. -/
def PollScheduled (p : Peer) (t d : NtpTimestamp) : Prop :=
  (0 < p.burst ∧ p.nextDate ≠ t ∧ d = p.nextDate) ∨ t ≤ d ∨
    (2 ^ 64 ≤ t.timestamp + 2 ^ 32 ∧ d = t + ONE)

instance (p : Peer) (t d : NtpTimestamp) : Decidable (p.PollScheduled t d) :=
  inferInstanceAs (Decidable ((0 < p.burst ∧ p.nextDate ≠ t ∧ d = p.nextDate) ∨ t ≤ d ∨
    (2 ^ 64 ≤ t.timestamp + 2 ^ 32 ∧ d = t + ONE)))

theorem pollUpdate_pollScheduled (p : Peer) (t : NtpTimestamp) (i : NtpDuration) :
    p.PollScheduled t (p.pollUpdate t i).nextDate := by
  rcases pollUpdate_nextDate p t i with h | ⟨d, hd⟩
  · exact .inl h
  rw [hd]
  split
  · by_cases hw : t.timestamp + 2 ^ 32 < 2 ^ 64
    · exact .inr (.inl (t.le_add (by decide) (by rw [ONE_duration]; omega)))
    · exact .inr (.inr ⟨by omega, rfl⟩)
  · exact .inr (.inl (Nat.not_lt.mp ‹_›))

/-- The next poll date after `poll_update`, for every scheduler state, clock reading and poll
interval, and after every `update_with_packet` that accepts its header, which runs it with the
peer's `host_poll`. -/
theorem pollUpdate_scheduled (p : Peer) (t : NtpTimestamp) (i : NtpDuration) :
    p.PollScheduled t (p.pollUpdate t i).nextDate ∧
      ∀ sp packet dst, packet.normalize.Accepted →
        p.PollScheduled t (p.updateWithPacket t sp packet dst).2.nextDate :=
  ⟨pollUpdate_pollScheduled p t i, fun sp packet dst h => by
    rw [updateWithPacket_eq, if_pos h]
    exact pollUpdate_pollScheduled { p with lastPacket := packet.normalize } t p.hostPoll⟩

end Peer

theorem pollUpdate_scheduled_secondAhead :
    Peer.sample.PollScheduled .jan2026 (Peer.sample.pollUpdate .jan2026 ZERO).nextDate ∧
      NtpHeader.secondAhead.normalize.Accepted ∧
      Peer.sample.PollScheduled .jan2026
        (Peer.sample.updateWithPacket .jan2026 ZERO .secondAhead .jan2026).2.nextDate :=
  ⟨(Peer.pollUpdate_scheduled _ _ _).1, by decide,
    (Peer.pollUpdate_scheduled _ _ ZERO).2 _ _ _ (by decide)⟩

/-- Two calls that leave the next poll in the past. A peer in a burst whose next date, `ZERO`, is
not the current time defers the update: `update_with_packet` accepts a header at the start of
2026 and returns with the next poll 126 years earlier. At the last tick of the era, `t + 1 s`
wraps to the start of the next one, below `t`. -/
theorem pollUpdate_past :
    NtpHeader.secondAhead.normalize.Accepted ∧
      ({ Peer.sample with burst := 1 }.updateWithPacket .jan2026 ZERO .secondAhead
        .jan2026).2.nextDate < .jan2026 ∧
      (Peer.sample.pollUpdate ⟨2 ^ 64 - 1, by decide⟩ ZERO).nextDate < ⟨2 ^ 64 - 1, by decide⟩ := by
  decide

end Ntp
