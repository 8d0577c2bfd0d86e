import NtpProto.Exchange

/-!
# A peer over its calls

`update_with_packet` and `clock_filter` are the two operations that change a peer; `PeerCall`
names one call of either, and `Peer.run` applies a list of them in order.

* `run_isReachable`: after a run a peer is reachable exactly when it was before, or the run
  passed it a header that `update_with_packet` accepts. Nothing clears the register: the shift
  made when a packet is sent is not in this snapshot.
* `run_hostPoll`: the first accepted header clamps `host_poll` into `[2^4 s, 2^17 s]`, and
  nothing moves it afterwards.
* `run_separate`: the two operations touch disjoint fields, so a run ends where its
  `update_with_packet` calls followed by its `clock_filter` calls end
  (`updateWithPacket_clockFilter_comm` for one pair, results included).
* `acceptSynchronization_unreachable`: `accept_synchronization` never reads `reach` (the
  `TODO` in its body), so a peer that only ever got a rejected header is accepted.
-/

namespace Ntp

open NtpDuration

/-- One call that changes a peer. -/
inductive PeerCall where
  | updateWithPacket (localClockTime : NtpTimestamp) (systemPrecision : NtpDuration)
      (packet : NtpHeader) (destinationTimestamp : NtpTimestamp)
  | clockFilter (newTuple : FilterTuple) (systemLeapIndicator : NtpLeapIndicator)
      (systemPrecision : F64)

/-- The call hands the peer a header that `update_with_packet` accepts. -/
def PeerCall.Accepts : PeerCall → Prop
  | .updateWithPacket _ _ packet _ => packet.normalize.Accepted
  | .clockFilter _ _ _ => False

instance : DecidablePred PeerCall.Accepts
  | .updateWithPacket _ _ packet _ => inferInstanceAs (Decidable packet.normalize.Accepted)
  | .clockFilter _ _ _ => inferInstanceAs (Decidable False)

/-- The tuple a call hands `clock_filter`, if it is one. -/
def PeerCall.newTuple : PeerCall → Option FilterTuple
  | .updateWithPacket .. => none
  | .clockFilter s _ _ => some s

namespace Peer

def call (p : Peer) : PeerCall → Peer
  | .updateWithPacket t sp packet dst => (p.updateWithPacket t sp packet dst).2
  | .clockFilter s leap prec => (p.clockFilter s leap prec).2

def run (p : Peer) (calls : List PeerCall) : Peer := calls.foldl call p

@[simp] theorem run_nil (p : Peer) : p.run [] = p := rfl

@[simp] theorem run_cons (p : Peer) (c : PeerCall) (cs : List PeerCall) :
    p.run (c :: cs) = (p.call c).run cs := rfl

theorem clockFilter_reach (p : Peer) (s : FilterTuple) (leap : NtpLeapIndicator) (prec : F64) :
    (p.clockFilter s leap prec).2.reach = p.reach := by
  rcases clockFilter_cases p s leap prec with ⟨-, -, he⟩ | ⟨-, -, he⟩ <;> rw [he]

theorem updateWithPacket_reach (p : Peer) (t : NtpTimestamp) (sp : NtpDuration)
    (packet : NtpHeader) (dst : NtpTimestamp) :
    (p.updateWithPacket t sp packet dst).2.reach =
      if packet.normalize.Accepted then p.reach.update else p.reach := by
  rcases updateWithPacket_cases p t sp packet dst with ⟨-, hn, he⟩ | ⟨-, ha, _, _, he⟩
  · rw [he, if_neg hn]
  · rw [he, if_pos ha]

/-- One call: the peer is reachable after it when it was before or the call brought an accepted
header. -/
theorem call_isReachable (p : Peer) (c : PeerCall) :
    (p.call c).reach.isReachable ↔ p.reach.isReachable ∨ c.Accepts := by
  cases c with
  | updateWithPacket t sp packet dst =>
    simp only [call, PeerCall.Accepts, updateWithPacket_reach]
    split
    · exact iff_of_true (Reach.update_isReachable _) (.inr ‹_›)
    · simp [‹¬_›]
  | clockFilter s leap prec => simp [call, PeerCall.Accepts, clockFilter_reach]

/-- Reachability over a run. -/
theorem run_isReachable (p : Peer) (calls : List PeerCall) :
    (p.run calls).reach.isReachable ↔ p.reach.isReachable ∨ ∃ c ∈ calls, c.Accepts := by
  induction calls generalizing p with
  | nil => simp
  | cons c cs ih => rw [run_cons, ih, call_isReachable]; simp [or_assoc]

/-! ## The poll interval over a run -/

/-- Clamping to `[MIN_POLL, MAX_POLL]` a second time changes nothing. -/
theorem clampPoll_clampPoll (v : NtpDuration) :
    clampNtpDuration (fromExponent MIN_POLL)
        (clampNtpDuration (fromExponent MIN_POLL) v (fromExponent MAX_POLL))
        (fromExponent MAX_POLL) =
      clampNtpDuration (fromExponent MIN_POLL) v (fromExponent MAX_POLL) := by
  have h : (fromExponent MIN_POLL).duration ≤ (fromExponent MAX_POLL).duration := by decide
  ext
  simp only [clampNtpDuration_duration]
  omega

theorem pollUpdate_hostPoll (p : Peer) (t : NtpTimestamp) (i : NtpDuration) :
    (p.pollUpdate t i).hostPoll =
      clampNtpDuration (fromExponent MIN_POLL) i (fromExponent MAX_POLL) := by
  simp only [pollUpdate]
  split_ifs <;> rfl

/-- One call: an accepted header clamps `host_poll`, passed back to `poll_update` as the poll
interval; nothing else touches it. -/
theorem call_hostPoll (p : Peer) (c : PeerCall) :
    (p.call c).hostPoll =
      if c.Accepts then clampNtpDuration (fromExponent MIN_POLL) p.hostPoll (fromExponent MAX_POLL)
      else p.hostPoll := by
  cases c with
  | updateWithPacket t sp packet dst =>
    simp only [call, PeerCall.Accepts, updateWithPacket_eq]
    split
    · exact pollUpdate_hostPoll _ t _
    · rfl
  | clockFilter s leap prec =>
    rcases clockFilter_cases p s leap prec with ⟨-, -, he⟩ | ⟨-, -, he⟩ <;>
      simp only [call, he, PeerCall.Accepts, if_false]

/-- `host_poll` over a run: the first accepted header clamps it into `[2^4 s, 2^17 s]` and
nothing moves it afterwards, so the poll interval never adapts; a run with no accepted header
leaves it as it was. -/
theorem run_hostPoll (p : Peer) (calls : List PeerCall) :
    (p.run calls).hostPoll = (if ∃ c ∈ calls, c.Accepts then
        clampNtpDuration (fromExponent MIN_POLL) p.hostPoll (fromExponent MAX_POLL)
      else p.hostPoll) ∧
      ((∃ c ∈ calls, c.Accepts) →
        fromExponent MIN_POLL ≤ (p.run calls).hostPoll ∧
          (p.run calls).hostPoll ≤ fromExponent MAX_POLL) := by
  have hrun : (p.run calls).hostPoll = if ∃ c ∈ calls, c.Accepts then
      clampNtpDuration (fromExponent MIN_POLL) p.hostPoll (fromExponent MAX_POLL)
      else p.hostPoll := by
    induction calls generalizing p with
    | nil => simp
    | cons c cs ih =>
      rw [run_cons, ih, call_hostPoll]
      by_cases hc : c.Accepts <;> by_cases hcs : ∃ c ∈ cs, c.Accepts <;>
        simp [hc, hcs, clampPoll_clampPoll]
  refine ⟨hrun, fun h => ?_⟩
  have hb : (fromExponent MIN_POLL).duration ≤ (fromExponent MAX_POLL).duration := by decide
  rw [hrun, if_pos h, le_iff, le_iff, clampNtpDuration_duration]
  omega

/-! ## The two operations commute -/

/-- `clock_filter` changes only the register, the statistics and the time. -/
theorem clockFilter_frame (p : Peer) (s : FilterTuple) (leap : NtpLeapIndicator) (prec : F64) :
    (p.clockFilter s leap prec).2 = { p with
      lastMeasurements := (p.clockFilter s leap prec).2.lastMeasurements
      statistics := (p.clockFilter s leap prec).2.statistics
      time := (p.clockFilter s leap prec).2.time } := by
  rcases clockFilter_cases p s leap prec with ⟨-, -, he⟩ | ⟨-, -, he⟩ <;> rw [he]

/-- `clock_filter` reads only the register, the statistics and the time. -/
theorem clockFilter_congr {p q : Peer} (h₁ : q.lastMeasurements = p.lastMeasurements)
    (h₂ : q.statistics = p.statistics) (h₃ : q.time = p.time) (s : FilterTuple)
    (leap : NtpLeapIndicator) (prec : F64) :
    q.clockFilter s leap prec = ((p.clockFilter s leap prec).1, { q with
      lastMeasurements := (p.clockFilter s leap prec).2.lastMeasurements
      statistics := (p.clockFilter s leap prec).2.statistics
      time := (p.clockFilter s leap prec).2.time }) := by
  simp only [clockFilter, h₁, h₂, h₃]
  split_ifs <;> rfl

/-- `update_with_packet` changes only the stored header, the poll state and `reach`. -/
theorem updateWithPacket_frame (p : Peer) (t : NtpTimestamp) (sp : NtpDuration)
    (packet : NtpHeader) (dst : NtpTimestamp) :
    (p.updateWithPacket t sp packet dst).2 = { p with
      lastPacket := (p.updateWithPacket t sp packet dst).2.lastPacket
      hostPoll := (p.updateWithPacket t sp packet dst).2.hostPoll
      nextDate := (p.updateWithPacket t sp packet dst).2.nextDate
      reach := (p.updateWithPacket t sp packet dst).2.reach } := by
  rcases updateWithPacket_cases p t sp packet dst with ⟨-, -, he⟩ | ⟨-, -, _, _, he⟩ <;>
    rw [he]

/-- `update_with_packet` reads only the poll state and `reach`, besides its arguments: the old
header is overwritten before any check. -/
theorem updateWithPacket_congr {p q : Peer} (h₁ : q.hostPoll = p.hostPoll)
    (h₂ : q.burst = p.burst) (h₃ : q.outDate = p.outDate) (h₄ : q.nextDate = p.nextDate)
    (h₅ : q.reach = p.reach) (t : NtpTimestamp) (sp : NtpDuration) (packet : NtpHeader)
    (dst : NtpTimestamp) :
    q.updateWithPacket t sp packet dst = ((p.updateWithPacket t sp packet dst).1, { q with
      lastPacket := (p.updateWithPacket t sp packet dst).2.lastPacket
      hostPoll := (p.updateWithPacket t sp packet dst).2.hostPoll
      nextDate := (p.updateWithPacket t sp packet dst).2.nextDate
      reach := (p.updateWithPacket t sp packet dst).2.reach }) := by
  simp only [updateWithPacket_eq, pollUpdate, h₁, h₂, h₃, h₄, h₅]
  split_ifs <;> rfl

/-- A header and a tuple can be handled in either order: each operation returns the same result
and the peer ends the same. -/
theorem updateWithPacket_clockFilter_comm (p : Peer) (t : NtpTimestamp) (sp : NtpDuration)
    (packet : NtpHeader) (dst : NtpTimestamp) (s : FilterTuple) (leap : NtpLeapIndicator)
    (prec : F64) :
    (p.updateWithPacket t sp packet dst).2.clockFilter s leap prec =
        ((p.clockFilter s leap prec).1,
          ((p.clockFilter s leap prec).2.updateWithPacket t sp packet dst).2) ∧
      (p.clockFilter s leap prec).2.updateWithPacket t sp packet dst =
        ((p.updateWithPacket t sp packet dst).1,
          ((p.updateWithPacket t sp packet dst).2.clockFilter s leap prec).2) := by
  have hu := updateWithPacket_frame p t sp packet dst
  have hc := clockFilter_frame p s leap prec
  rw [clockFilter_congr (q := (p.updateWithPacket t sp packet dst).2) (p := p) (by rw [hu])
      (by rw [hu]) (by rw [hu]),
    updateWithPacket_congr (q := (p.clockFilter s leap prec).2) (p := p) (by rw [hc])
      (by rw [hc]) (by rw [hc]) (by rw [hc]) (by rw [hc]), hu, hc]
  exact ⟨rfl, rfl⟩

/-- A `clock_filter` call moves past a run of `update_with_packet` calls. -/
theorem run_call_comm (p : Peer) (c : PeerCall) (hc : c.newTuple.isSome) :
    ∀ us : List PeerCall, (∀ u ∈ us, u.newTuple.isNone) →
      (p.call c).run us = (p.run us).call c := by
  intro us
  induction us generalizing p with
  | nil => intro; rfl
  | cons u us ih =>
    intro hus
    cases c with
    | updateWithPacket => cases hc
    | clockFilter s leap prec =>
      cases u with
      | clockFilter => cases hus _ (List.mem_cons_self _ _)
      | updateWithPacket t sp packet dst =>
        rw [run_cons, run_cons, ← ih _ fun v hv => hus v (List.mem_cons_of_mem _ hv)]
        exact congrArg (run · us)
          (congrArg Prod.snd (updateWithPacket_clockFilter_comm p t sp packet dst s leap prec).2)

/-- Handling headers and filtering tuples touch disjoint parts of a peer: every run ends where its
`update_with_packet` calls, followed by its `clock_filter` calls, each kept in its own order,
end. -/
theorem run_separate (p : Peer) (calls : List PeerCall) :
    p.run calls = (p.run (calls.filter fun c => c.newTuple.isNone)).run
      (calls.filter fun c => c.newTuple.isSome) := by
  induction calls generalizing p with
  | nil => rfl
  | cons c cs ih =>
    cases c with
    | updateWithPacket t sp packet dst => exact ih _
    | clockFilter s leap prec =>
      rw [run_cons, ih, run_call_comm p (.clockFilter s leap prec) rfl _ fun u hu => by
        simpa using (List.mem_filter.mp hu).2]
      rfl

end Peer

/-- The header of `NtpHeader.secondAhead` with a reference time after its transmit time. -/
def NtpHeader.timeTravel : NtpHeader :=
  { NtpHeader.secondAhead with referenceTimestamp := ⟨(3976214400 + 3) * 2 ^ 32, by decide⟩ }

/-- A fresh peer handed one header, which `update_with_packet` rejects for time travel: the
peer has never been reached, and `accept_synchronization` accepts it. -/
theorem acceptSynchronization_unreachable :
    (Peer.sample.run [.updateWithPacket .ZERO ZERO .timeTravel .ZERO]).reach.isReachable = false ∧
      (Peer.sample.run [.updateWithPacket .ZERO ZERO .timeTravel .ZERO]).acceptSynchronization
        .ZERO ZERO = true := by
  decide

end Ntp
