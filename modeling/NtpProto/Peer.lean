import NtpProto.Packet
import NtpProto.TemporaryList

/-!
# A peer association

`Peer` of `filter.rs` and its operations, each a function from the peer to its result and the
updated peer:

* `clockFilter` (`Peer::clock_filter`): shift the new tuple in, select the stage of smallest
  delay, and keep it unless the prime directive rejects it. `clockFilter_cases` states the two
  outcomes once; later proofs use it and not the definition.
* `rootDistance`, `acceptSynchronization`: read-only.
* `updateWithPacket` (`Peer::update_with_packet`): store the header, check it, schedule the
  next poll (`pollUpdate`), mark the peer reachable, and compute the tuple (`packetTuple`).

`peer_id` is never read by these functions and is left out.
-/

namespace Ntp

open NtpDuration FilterTuple

def MAX_STRATUM : UInt8 := 16
def MAX_DISTANCE : NtpDuration := ONE
def BROADCAST_DELAY : NtpDuration := ONE.dividedBy 250

/-- `PeerStatistics`. -/
structure PeerStatistics where
  offset : NtpDuration
  delay : NtpDuration
  dispersion : NtpDuration
  jitter : F64
deriving DecidableEq

/-- `#[derive(Default)]`: zero durations and a `0.0` jitter. -/
instance : Inhabited PeerStatistics := ⟨⟨ZERO, ZERO, ZERO, F64.zero⟩⟩

/-- `Reach(u8)`: the reachability register. -/
structure Reach where
  bits : Nat
  bits_lt : bits < 2 ^ 8
deriving DecidableEq

namespace Reach

/-- `Reach::is_reachable`. -/
def isReachable (r : Reach) : Bool := r.bits ≠ 0

/-- `Reach::update`: set the rightmost bit. -/
def update (r : Reach) : Reach := ⟨r.bits ||| 1, Nat.or_lt_two_pow r.bits_lt (by decide)⟩

theorem update_isReachable (r : Reach) : r.update.isReachable := by
  have h : (r.bits ||| 1).testBit 0 = true := by simp [Nat.testBit_or, Nat.testBit_one_zero]
  simp only [isReachable, update, decide_eq_true_eq]
  exact fun h0 => by simp [h0] at h

end Reach

inductive Decision where
  | ignore
  | process
deriving DecidableEq, Repr

/-- `Peer`. -/
structure Peer where
  statistics : PeerStatistics
  lastMeasurements : LastMeasurements
  lastPacket : NtpHeader
  time : NtpTimestamp
  ourId : ReferenceId
  hostPoll : NtpDuration
  burst : UInt8
  outDate : NtpTimestamp
  nextDate : NtpTimestamp
  reach : Reach

/-- `clamp_ntp_duration`. -/
def clampNtpDuration (lowerBound value upperBound : NtpDuration) : NtpDuration :=
  max (min value upperBound) lowerBound

@[simp] theorem clampNtpDuration_duration (lowerBound value upperBound : NtpDuration) :
    (clampNtpDuration lowerBound value upperBound).duration =
      max (min value.duration upperBound.duration) lowerBound.duration := by
  simp [clampNtpDuration]

namespace Peer

/-- The peer the tests of `filter.rs` build: default statistics and stages, time `ZERO`; here
also nothing reached and no poll scheduled. -/
def init (lastPacket : NtpHeader) (ourId : ReferenceId) : Peer where
  statistics := default
  lastMeasurements := .new
  lastPacket := lastPacket
  time := .ZERO
  ourId := ourId
  hostPoll := ZERO
  burst := 0
  outDate := .ZERO
  nextDate := .ZERO
  reach := ⟨0, by decide⟩

/-- `Peer::clock_filter`. -/
def clockFilter (p : Peer) (newTuple : FilterTuple) (systemLeapIndicator : NtpLeapIndicator)
    (systemPrecision : F64) : Decision × Peer :=
  let dispersionCorrection := multiplyByPhi (newTuple.time - p.time)
  let lastMeasurements := p.lastMeasurements.shiftAndInsert newTuple dispersionCorrection
  let temporaryList := TemporaryList.fromClockFilterContents lastMeasurements
  let smallestDelay := temporaryList.smallestDelay
  -- Prime directive: use a sample only once and never a sample older than the latest one,
  -- but anything goes before first synchronized.
  if smallestDelay.time - p.time ≤ ZERO ∧ systemLeapIndicator.isSynchronized then
    (.ignore, { p with lastMeasurements })
  else
    let statistics : PeerStatistics :=
      { offset := smallestDelay.offset
        delay := smallestDelay.delay
        dispersion := temporaryList.dispersion
        jitter := temporaryList.jitter smallestDelay systemPrecision }
    (.process, { p with lastMeasurements, statistics, time := smallestDelay.time })

/-- `Peer::root_distance`. -/
def rootDistance (p : Peer) (localClockTime : NtpTimestamp) : NtpDuration :=
  max MIN_DISPERSION (p.lastPacket.rootDelay + p.statistics.delay) / (2 : Int)
    + p.lastPacket.rootDispersion
    + p.statistics.dispersion
    + multiplyByPhi (localClockTime - p.time)
    + fromSeconds p.statistics.jitter

/-- `Peer::accept_synchronization`. -/
def acceptSynchronization (p : Peer) (localClockTime : NtpTimestamp) (systemPoll : NtpDuration) :
    Bool :=
  if !p.lastPacket.leap.isSynchronized || p.lastPacket.stratum ≥ MAX_STRATUM then false
  else if p.rootDistance localClockTime > MAX_DISTANCE + multiplyByPhi systemPoll then false
  else if p.lastPacket.stratum != 1 && p.lastPacket.referenceId == p.ourId then false
  -- TODO: An unreachable error occurs if the server is unreachable.
  else true

def MIN_POLL : Int := 4
def MAX_POLL : Int := 17

/-- `Peer::poll_update`. The burst branch returns early, before the final check. -/
def pollUpdate (p : Peer) (localClockTime : NtpTimestamp) (pollInterval : NtpDuration) : Peer :=
  let p := { p with
    hostPoll := clampNtpDuration (fromExponent MIN_POLL) pollInterval (fromExponent MAX_POLL) }
  let notPast (p : Peer) : Peer :=
    if p.nextDate < localClockTime then { p with nextDate := localClockTime + ONE } else p
  if p.burst > 0 then
    if p.nextDate ≠ localClockTime then p
    else notPast { p with nextDate := p.nextDate + BROADCAST_DELAY }
  else
    let offset := clampNtpDuration (fromExponent MIN_POLL) p.hostPoll (fromExponent p.lastPacket.poll)
    notPast { p with nextDate := p.outDate + offset }

/-- The tuple that `update_with_packet` computes from the stored header `r`. -/
def packetTuple (localClockTime : NtpTimestamp) (systemPrecision : NtpDuration) (r : NtpHeader)
    (destinationTimestamp : NtpTimestamp) : FilterTuple :=
  let packetPrecision := fromExponent r.precision
  if r.mode = .broadcast then
    { offset := r.transmitTimestamp - destinationTimestamp
      delay := BROADCAST_DELAY
      dispersion := packetPrecision + systemPrecision + multiplyByPhi (BROADCAST_DELAY * (2 : Int))
      time := localClockTime }
  else
    let offset1 := r.receiveTimestamp - r.originTimestamp
    let offset2 := destinationTimestamp - r.transmitTimestamp
    let offset := (offset1 + offset2) / (2 : Int)
    let delta1 := destinationTimestamp - r.originTimestamp
    let delta2 := r.receiveTimestamp - r.transmitTimestamp
    let delay := max systemPrecision (delta1 - delta2)
    let dispersion := packetPrecision + systemPrecision + multiplyByPhi delta1
    { offset, delay, dispersion, time := localClockTime }

/-- `Peer::update_with_packet`. -/
def updateWithPacket (p : Peer) (localClockTime : NtpTimestamp) (systemPrecision : NtpDuration)
    (packet : NtpHeader) (destinationTimestamp : NtpTimestamp) : Option FilterTuple × Peer :=
  let packet := if packet.stratum = 0 then { packet with stratum := MAX_STRATUM } else packet
  let p := { p with lastPacket := packet }
  if !packet.leap.isSynchronized || packet.stratum ≥ MAX_STRATUM then (none, p)
  else
    let packetDispersion := packet.rootDelay / (2 : Int) + packet.rootDispersion
    let timeTravel := packet.referenceTimestamp > packet.transmitTimestamp
    if packetDispersion ≥ MAX_DISPERSION ∨ timeTravel then (none, p)
    else
      let p := p.pollUpdate localClockTime p.hostPoll
      let p := { p with reach := p.reach.update }
      (some (packetTuple localClockTime systemPrecision packet destinationTimestamp), p)

/-! ## The two outcomes of `clock_filter` -/

/-- The stage `clock_filter` selects when the new tuple is `s`. -/
def selected (p : Peer) (s : FilterTuple) : FilterTuple :=
  (TemporaryList.fromClockFilterContents
    (p.lastMeasurements.shiftAndInsert s (multiplyByPhi (s.time - p.time)))).smallestDelay

/-- The selected stage is the new tuple or an old stage, aged. -/
theorem selected_mem (p : Peer) (s : FilterTuple) :
    p.selected s = s ∨ ∃ u ∈ p.lastMeasurements.register,
      p.selected s = u.age (multiplyByPhi (s.time - p.time)) :=
  LastMeasurements.mem_shiftAndInsert
    (TemporaryList.mem_fromClockFilterContents.mp (TemporaryList.smallestDelay_mem _))

/-- Everything `clock_filter` can do: it always shifts the tuple in; then it either ignores the
selected stage, leaving statistics and time, or takes its offset, delay and time. -/
theorem clockFilter_cases (p : Peer) (s : FilterTuple) (leap : NtpLeapIndicator) (prec : F64) :
    let m := p.lastMeasurements.shiftAndInsert s (multiplyByPhi (s.time - p.time))
    let b := p.selected s
    ((p.clockFilter s leap prec).1 = .ignore ∧
        (b.time - p.time ≤ ZERO ∧ leap.isSynchronized) ∧
        (p.clockFilter s leap prec).2 = { p with lastMeasurements := m }) ∨
      ((p.clockFilter s leap prec).1 = .process ∧
        ¬(b.time - p.time ≤ ZERO ∧ leap.isSynchronized) ∧
        (p.clockFilter s leap prec).2 =
          { p with lastMeasurements := m, time := b.time
                   statistics := ⟨b.offset, b.delay,
                     (TemporaryList.fromClockFilterContents m).dispersion,
                     (TemporaryList.fromClockFilterContents m).jitter b prec⟩ }) := by
  simp only [clockFilter, selected]
  split
  · exact .inl ⟨rfl, ‹_›, rfl⟩
  · exact .inr ⟨rfl, ‹_›, rfl⟩

theorem clockFilter_lastMeasurements (p : Peer) (s : FilterTuple) (leap : NtpLeapIndicator)
    (prec : F64) : (p.clockFilter s leap prec).2.lastMeasurements =
      p.lastMeasurements.shiftAndInsert s (multiplyByPhi (s.time - p.time)) := by
  rcases clockFilter_cases p s leap prec with ⟨-, -, h⟩ | ⟨-, -, h⟩ <;> rw [h]

/-- A property of the new tuple's time and of every stage's time holds of the selected stage's
time. -/
theorem selected_time {p : Peer} {s : FilterTuple} (P : NtpTimestamp → Prop)
    (hreg : ∀ t ∈ p.lastMeasurements.register, P t.time) (hs : P s.time) :
    P (p.selected s).time := by
  rcases selected_mem p s with h | ⟨u, hu, h⟩ <;> rw [h]
  · exact hs
  · rw [age_time]; exact hreg u hu

/-- A property of every time a peer holds and of the new tuple's time holds of every time the
peer holds after `clock_filter`. -/
theorem clockFilter_times {p : Peer} {s : FilterTuple} {leap : NtpLeapIndicator} {prec : F64}
    (P : NtpTimestamp → Prop) (hp : P p.time)
    (hreg : ∀ t ∈ p.lastMeasurements.register, P t.time) (hs : P s.time) :
    P (p.clockFilter s leap prec).2.time ∧
      ∀ t ∈ (p.clockFilter s leap prec).2.lastMeasurements.register, P t.time := by
  refine ⟨?_, fun t ht => ?_⟩
  · rcases clockFilter_cases p s leap prec with ⟨-, -, he⟩ | ⟨-, -, he⟩ <;> rw [he]
    · exact hp
    · exact selected_time P hreg hs
  · rw [clockFilter_lastMeasurements] at ht
    rcases LastMeasurements.mem_shiftAndInsert ht with rfl | ⟨u, hu, rfl⟩
    · exact hs
    · rw [age_time]; exact hreg u hu

end Peer

end Ntp
