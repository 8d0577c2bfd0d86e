import NtpProto.Peer

/-!
# Runs of `clock_filter`

A run feeds a peer one tuple after another, each with the system's leap indicator and precision
at that call; `clockFilterSteps` lists every call with the peer before it, the decision and the
peer after it.

* A fresh peer (time `ZERO`, every stage the dummy) and a first tuple of delay at most
  `MAX_DISPERSION`: the tuple is selected (`selected_fresh`). It is processed when its time is
  in `(0, 2^63)` ticks (`clockFilter_fresh_process`), but a synchronized system ignores it
  from `2^63` ticks on, which is every timestamp after 1968 (`clockFilter_init_presentDay`).
* A first tuple of larger delay sorts after the seven dummies: a dummy is selected and the
  valid tuples are all eight stages (`clockFilter_init_long_delay`).
* Whatever the register holds, the valid tuples that `jitter` reads contain the new tuple
  unless it is the dummy (`Peer.clockFilter_validTuples`).
* A fresh peer's first processed tuple is its only valid tuple, and the jitter is then the system
  precision, through a NaN (`Peer.clockFilter_fresh_jitter`).
* The prime directive over a whole run (`clockFilter_prime_directive`).
* Aging over a whole run while every correction a real stage gets is exact
  (`clockFilter_aging_nondecreasing`). A fresh peer of a synchronized system keeps its time
  `ZERO` through a present-day sample, and the next correction is negative
  (`clockFilter_aging_presentDay`); the correction of that first call already overflows
  (`multiplyByPhi_presentDay`).
-/

namespace Ntp

open NtpDuration FilterTuple

/-- One call of a run: the new tuple, the system leap indicator and the system precision. -/
structure FilterInput where
  tuple : FilterTuple
  leap : NtpLeapIndicator
  precision : F64

/-- One call of a run with the peer before it, its decision and the peer after it. -/
structure FilterStep where
  before : Peer
  input : FilterInput
  decision : Decision
  after : Peer

/-- The calls of a run of `clock_filter` from `p`, first call first. -/
def clockFilterSteps : Peer → List FilterInput → List FilterStep
  | _, [] => []
  | p, i :: is =>
    let r := p.clockFilter i.tuple i.leap i.precision
    ⟨p, i, r.1, r.2⟩ :: clockFilterSteps r.2 is

@[simp] theorem clockFilterSteps_nil (p : Peer) : clockFilterSteps p [] = [] := rfl

@[simp] theorem clockFilterSteps_cons (p : Peer) (i : FilterInput) (is : List FilterInput) :
    clockFilterSteps p (i :: is) =
      ⟨p, i, (p.clockFilter i.tuple i.leap i.precision).1, (p.clockFilter i.tuple i.leap i.precision).2⟩ ::
        clockFilterSteps (p.clockFilter i.tuple i.leap i.precision).2 is := rfl

namespace Peer

/-- A peer that has consumed no sample: time `ZERO` and every stage the dummy. -/
def IsFresh (p : Peer) : Prop :=
  p.time = NtpTimestamp.ZERO ∧ p.lastMeasurements.register = List.replicate 8 DUMMY

theorem init_isFresh (h : NtpHeader) (id : ReferenceId) : (init h id).IsFresh := ⟨rfl, rfl⟩

/-- A fresh peer of a synchronized stratum-2 server, for the concrete runs below. -/
def sample : Peer :=
  init ⟨.noWarning, .server, 2, 0, 0, ZERO, ZERO, ⟨0⟩, .ZERO, .ZERO, .ZERO, .ZERO⟩ ⟨0⟩

/-- `shift_and_insert` into an all-dummy register: the tuple, then seven dummies. -/
theorem shiftAndInsert_fresh {m : LastMeasurements} (hm : m.register = List.replicate 8 DUMMY)
    (s : FilterTuple) (a : NtpDuration) :
    (m.shiftAndInsert s a).register = s :: List.replicate 7 DUMMY := by
  simp [LastMeasurements.register_shiftAndInsert, hm, List.take_replicate, List.map_replicate]

/-- A first tuple of delay at most `MAX_DISPERSION` is selected. -/
theorem selected_fresh {p : Peer} (hp : p.IsFresh) {s : FilterTuple}
    (hd : s.delay ≤ MAX_DISPERSION) : p.selected s = s :=
  TemporaryList.smallestDelay_eq
    (@TemporaryList.fromClockFilterContents_append _ [s] 7 (shiftAndInsert_fresh hp.2 _ _)
      (by simpa using hd))

/-- A fresh peer takes a first tuple of delay at most `MAX_DISPERSION` and time in
`(0, 2^63)` ticks, whatever the system's state. -/
theorem clockFilter_fresh_process {p : Peer} (hp : p.IsFresh) {s : FilterTuple}
    (hd : s.delay ≤ MAX_DISPERSION) (ht : 0 < s.time.timestamp ∧ s.time.timestamp < 2 ^ 63)
    (leap : NtpLeapIndicator) (prec : F64) :
    (p.clockFilter s leap prec).1 = .process ∧ (p.clockFilter s leap prec).2.time = s.time ∧
      (p.clockFilter s leap prec).2.statistics.offset = s.offset ∧
      (p.clockFilter s leap prec).2.statistics.delay = s.delay := by
  rcases clockFilter_cases p s leap prec with ⟨-, ⟨hle, -⟩, -⟩ | ⟨h, -, he⟩
  · rw [selected_fresh hp hd, hp.1, le_iff, NtpTimestamp.sub_duration,
      NtpTimestamp.ZERO_timestamp, ZERO_duration, wrapI64] at hle
    omega
  · rw [he, selected_fresh hp hd]; exact ⟨h, rfl, rfl, rfl⟩

theorem clockFilter_fresh_process_second :
    let s : FilterTuple := ⟨ONE, ONE, ZERO, ⟨2 ^ 32, by decide⟩⟩
    sample.IsFresh ∧ s.delay ≤ MAX_DISPERSION ∧ (0 < s.time.timestamp ∧ s.time.timestamp < 2 ^ 63) ∧
      (sample.clockFilter s .noWarning F64.zero).1 = .process ∧
      (sample.clockFilter s .noWarning F64.zero).2.time = s.time ∧
      (sample.clockFilter s .noWarning F64.zero).2.statistics.offset = s.offset ∧
      (sample.clockFilter s .noWarning F64.zero).2.statistics.delay = s.delay :=
  ⟨init_isFresh _ _, by decide, by decide,
    clockFilter_fresh_process (init_isFresh _ _) (by decide) (by decide) _ _⟩

/-- A fresh peer of a synchronized system ignores a first tuple whose time is `2^63` ticks or
more: the wrap-aware difference to `ZERO` is negative. Its time and statistics stay. -/
theorem clockFilter_fresh_ignore {p : Peer} (hp : p.IsFresh) {s : FilterTuple}
    (hd : s.delay ≤ MAX_DISPERSION) (ht : 2 ^ 63 ≤ s.time.timestamp) {leap : NtpLeapIndicator}
    (hleap : leap.isSynchronized) (prec : F64) :
    (p.clockFilter s leap prec).1 = .ignore ∧ (p.clockFilter s leap prec).2.time = p.time ∧
      (p.clockFilter s leap prec).2.statistics = p.statistics := by
  rcases clockFilter_cases p s leap prec with ⟨h, -, he⟩ | ⟨-, hn, -⟩
  · rw [he]; exact ⟨h, rfl, rfl⟩
  · refine absurd ⟨?_, hleap⟩ hn
    have := s.time.timestamp_lt
    rw [selected_fresh hp hd, hp.1, le_iff, NtpTimestamp.sub_duration,
      NtpTimestamp.ZERO_timestamp, ZERO_duration, wrapI64]
    omega

end Peer

/-- `2026-01-01T00:00:00Z`, `3976214400` s after the NTP epoch. -/
def NtpTimestamp.jan2026 : NtpTimestamp := ⟨3976214400 * 2 ^ 32, by decide⟩

/-- The first tuple of a fresh peer, timed at the start of 2026, under a synchronized system
(leap indicator `NoWarning`): it is ignored, and the peer's time stays `ZERO`. -/
theorem clockFilter_init_presentDay (h : NtpHeader) (id : ReferenceId) :
    let s : FilterTuple := ⟨ONE, ONE, ZERO, NtpTimestamp.jan2026⟩
    ((Peer.init h id).clockFilter s .noWarning F64.zero).1 = .ignore ∧
      ((Peer.init h id).clockFilter s .noWarning F64.zero).2.time = NtpTimestamp.ZERO :=
  (Peer.clockFilter_fresh_ignore (Peer.init_isFresh h id) (by decide) (by decide)
    (rfl : NtpLeapIndicator.noWarning.isSynchronized = true) _).imp_right And.left

/-- That call ages the register by `multiply_by_phi(s.time - peer.time)` before the prime
directive looks at it. The wrap-aware difference to `ZERO`, about `-3.2·10^8` s, is well
inside the `~2^30` s range `multiply_by_phi` is computed for, yet `15·d` is below
`i64::MIN`: a release build wraps the product, and a debug build panics. -/
theorem multiplyByPhi_presentDay :
    let d : NtpDuration := NtpTimestamp.jan2026 - NtpTimestamp.ZERO
    d.duration.natAbs < 2 ^ 30 * 2 ^ 32 ∧ 15 * d.duration < -2 ^ 63 ∧
      (multiplyByPhi d).duration ≠ (15 * d.duration).tdiv 1000000 := by
  decide

/-- Inserting a tuple that sorts after every dummy puts it last. -/
theorem orderedInsert_dummies_of_gt {s : FilterTuple} (hs : MAX_DISPERSION < s.delay) (k : Nat) :
    (List.replicate k DUMMY).orderedInsert DelayLe s = List.replicate k DUMMY ++ [s] := by
  induction k with
  | zero => rfl
  | succ k ih =>
    have : ¬DelayLe s DUMMY := by simpa [DelayLe] using hs
    simp [List.replicate_succ, List.orderedInsert, this, ih]

/-- A first tuple of delay above `MAX_DISPERSION` sorts after the seven dummies. -/
theorem Peer.sorted_fresh_of_gt {p : Peer} (hp : p.IsFresh) {s : FilterTuple}
    (hd : MAX_DISPERSION < s.delay) (a : NtpDuration) :
    (TemporaryList.fromClockFilterContents (p.lastMeasurements.shiftAndInsert s a)).register =
      List.replicate 7 DUMMY ++ [s] := by
  rw [TemporaryList.fromClockFilterContents_register, shiftAndInsert_fresh hp.2, List.insertionSort,
    insertionSort_dummies]
  exact orderedInsert_dummies_of_gt hd 7

/-- A first tuple of delay above `MAX_DISPERSION`: the sorted view puts the seven dummies first,
so a dummy is selected and the valid tuples are all eight stages; a peer of an unsynchronized
system processes the dummy and takes its delay and its time `ZERO`. -/
theorem Peer.clockFilter_fresh_long_delay {p : Peer} (hp : p.IsFresh) {s : FilterTuple}
    (hd : MAX_DISPERSION < s.delay) (hs : ¬s.isDummy) (prec : F64) :
    let r := p.clockFilter s .unsynchronized prec
    let l := TemporaryList.fromClockFilterContents r.2.lastMeasurements
    l.smallestDelay = DUMMY ∧ l.validTuples = List.replicate 7 DUMMY ++ [s] ∧
      r.1 = .process ∧ r.2.statistics.delay = MAX_DISPERSION ∧ r.2.time = NtpTimestamp.ZERO := by
  have hl := p.sorted_fresh_of_gt hp hd (multiplyByPhi (s.time - p.time))
  dsimp only
  rw [clockFilter_lastMeasurements]
  refine ⟨TemporaryList.smallestDelay_eq hl, ?_, ?_⟩
  · simp only [TemporaryList.validTuples, hl]; simp [hs]
  rcases clockFilter_cases p s .unsynchronized prec with ⟨-, ⟨-, hu⟩, -⟩ | ⟨hr, -, he⟩
  · exact absurd hu (by decide)
  · rw [hr, he, selected, TemporaryList.smallestDelay_eq hl]; exact ⟨rfl, rfl, rfl⟩

/-- A sample of delay 20 s taken one second after the epoch, on a fresh peer of an unsynchronized
system. -/
theorem clockFilter_init_long_delay (h : NtpHeader) (id : ReferenceId) :
    let s : FilterTuple := ⟨ZERO, ofInt (20 * 2 ^ 32), ZERO, ⟨2 ^ 32, by decide⟩⟩
    let r := (Peer.init h id).clockFilter s .unsynchronized F64.zero
    let l := TemporaryList.fromClockFilterContents r.2.lastMeasurements
    l.smallestDelay = DUMMY ∧ l.validTuples = List.replicate 7 DUMMY ++ [s] ∧
      r.1 = .process ∧ r.2.statistics.delay = MAX_DISPERSION ∧ r.2.time = NtpTimestamp.ZERO :=
  Peer.clockFilter_fresh_long_delay (Peer.init_isFresh h id) (by decide)
    (not_isDummy_of_time (by decide)) F64.zero

/-- Two samples of a synchronized system, one and two seconds after the epoch. -/
def FilterInput.twoSeconds : List FilterInput :=
  [⟨⟨ZERO, ONE, ZERO, ⟨2 ^ 32, by decide⟩⟩, .noWarning, F64.zero⟩,
   ⟨⟨ONE, ONE, ZERO, ⟨2 ^ 33, by decide⟩⟩, .noWarning, F64.zero⟩]

/-! ## The valid tuples of a call -/

/-- The list `clock_filter` hands `jitter_help` (through `jitter`) is the valid tuples of the
register it has just shifted, which hold the new tuple unless that is the dummy: it is never
empty, and `valid_tuples.len() - 1` does not wrap. -/
theorem Peer.clockFilter_validTuples (p : Peer) (s : FilterTuple) (leap : NtpLeapIndicator)
    (prec : F64) (hs : ¬s.isDummy) :
    let V := (TemporaryList.fromClockFilterContents
      (p.clockFilter s leap prec).2.lastMeasurements).validTuples
    s ∈ V ∧ ((V.length : Int) - 1) % 2 ^ 64 = V.length - 1 := by
  intro V
  have hm : s ∈ V := by
    refine TemporaryList.mem_validTuples (TemporaryList.mem_fromClockFilterContents.mpr ?_) hs
    rw [clockFilter_lastMeasurements, LastMeasurements.register_shiftAndInsert]
    exact List.mem_cons_self _ _
  have hl := List.length_pos_of_mem hm
  have hl8 : V.length ≤ 8 := TemporaryList.length_validTuples_le _
  exact ⟨hm, Int.emod_eq_of_lt (by omega) (by omega)⟩

theorem clockFilter_validTuples_second :
    let s : FilterTuple := ⟨ZERO, ONE, ZERO, ⟨2 ^ 32, by decide⟩⟩
    let V := (TemporaryList.fromClockFilterContents
      (Peer.sample.clockFilter s .noWarning F64.zero).2.lastMeasurements).validTuples
    ¬s.isDummy ∧ s ∈ V ∧ ((V.length : Int) - 1) % 2 ^ 64 = V.length - 1 :=
  ⟨by decide, Peer.clockFilter_validTuples _ _ _ _ (by decide)⟩

/-- A fresh peer's first processed tuple, real and of delay at most `MAX_DISPERSION`, is the only
valid tuple, so the jitter the peer takes is the system precision, whatever the tuple: the root
mean square `0.0` divided by `valid_tuples.len() - 1 = 0` is NaN, and `f64::max` returns its
other argument. -/
theorem Peer.clockFilter_fresh_jitter {p : Peer} (hp : p.IsFresh) {s : FilterTuple}
    (hd : s.delay ≤ MAX_DISPERSION) (hs : ¬s.isDummy) (leap : NtpLeapIndicator) (prec : F64)
    (hproc : (p.clockFilter s leap prec).1 = .process) :
    (TemporaryList.fromClockFilterContents
      (p.clockFilter s leap prec).2.lastMeasurements).validTuples = [s] ∧
      (p.clockFilter s leap prec).2.statistics.jitter = prec := by
  have hv : ∀ a, (TemporaryList.fromClockFilterContents
      (p.lastMeasurements.shiftAndInsert s a)).validTuples = [s] := fun _ =>
    @TemporaryList.validTuples_append _ [s] 7 (Peer.shiftAndInsert_fresh hp.2 _ _)
      (by simpa using hd) (by simpa using hs)
  refine ⟨by rw [clockFilter_lastMeasurements]; exact hv _, ?_⟩
  rcases Peer.clockFilter_cases p s leap prec with ⟨hi, -, -⟩ | ⟨-, -, he⟩
  · rw [hi] at hproc; cases hproc
  · rw [he]
    dsimp only [TemporaryList.jitter]
    rw [Peer.selected_fresh hp hd, hv]
    exact TemporaryList.jitterHelp_single s prec

theorem clockFilter_fresh_jitter_second :
    let s : FilterTuple := ⟨ZERO, ONE, ZERO, ⟨2 ^ 32, by decide⟩⟩
    Peer.sample.IsFresh ∧ s.delay ≤ MAX_DISPERSION ∧ ¬s.isDummy ∧
      (Peer.sample.clockFilter s .noWarning F64.zero).1 = .process ∧
      (TemporaryList.fromClockFilterContents
        (Peer.sample.clockFilter s .noWarning F64.zero).2.lastMeasurements).validTuples = [s] ∧
      (Peer.sample.clockFilter s .noWarning F64.zero).2.statistics.jitter = F64.zero :=
  ⟨Peer.init_isFresh _ _, by decide, by decide, by decide,
    Peer.clockFilter_fresh_jitter (Peer.init_isFresh _ _) (by decide) (by decide) _ _ (by decide)⟩

/-! ## The prime directive over a run -/

/-- `t` lies in the window of `2^63` ticks that starts at `b`. -/
def InWindow (b t : NtpTimestamp) : Prop := (t.timestamp + 2 ^ 64 - b.timestamp) % 2 ^ 64 < 2 ^ 63

instance (b t : NtpTimestamp) : Decidable (InWindow b t) :=
  inferInstanceAs (Decidable ((t.timestamp + 2 ^ 64 - b.timestamp) % 2 ^ 64 < 2 ^ 63))

/-- The position of `t` in the window that starts at `b`: its distance from `b`. -/
def windowPos (b t : NtpTimestamp) : Nat := (t.timestamp + 2 ^ 64 - b.timestamp) % 2 ^ 64

/-- Inside one window the wrap-aware difference is the difference of positions. -/
theorem sub_duration_window {b t₁ t₂ : NtpTimestamp} (h₁ : InWindow b t₁) (h₂ : InWindow b t₂) :
    (t₁ - t₂).duration = (windowPos b t₁ : Int) - windowPos b t₂ := by
  have := t₁.timestamp_lt; have := t₂.timestamp_lt; have := b.timestamp_lt
  unfold InWindow at h₁ h₂
  simp only [NtpTimestamp.sub_duration, windowPos, wrapI64]
  omega

/-- Every time a peer holds, its own and its stages', lies in the window from `b`. -/
def TimesInWindow (b : NtpTimestamp) (p : Peer) : Prop :=
  InWindow b p.time ∧ ∀ t ∈ p.lastMeasurements.register, InWindow b t.time

instance (b : NtpTimestamp) (p : Peer) : Decidable (TimesInWindow b p) :=
  inferInstanceAs
    (Decidable (InWindow b p.time ∧ ∀ t ∈ p.lastMeasurements.register, InWindow b t.time))

/-- The prime directive at one call: `process` moves the peer's time strictly later in the
window from `b`, `ignore` leaves its time and statistics. -/
def PrimeDirective (b : NtpTimestamp) (st : FilterStep) : Prop :=
  (st.decision = .process → windowPos b st.before.time < windowPos b st.after.time) ∧
    (st.decision = .ignore →
      st.after.time = st.before.time ∧ st.after.statistics = st.before.statistics)

namespace Peer

variable {b : NtpTimestamp} {p : Peer} {s : FilterTuple} {leap : NtpLeapIndicator} {prec : F64}

/-- Under a synchronized system, a processed tuple moves the peer's time strictly later. -/
theorem clockFilter_process_later (hp : TimesInWindow b p) (hs : InWindow b s.time)
    (hleap : leap.isSynchronized) (h : (p.clockFilter s leap prec).1 = .process) :
    windowPos b p.time < windowPos b (p.clockFilter s leap prec).2.time := by
  rcases clockFilter_cases p s leap prec with ⟨hi, -, -⟩ | ⟨-, hn, he⟩
  · rw [h] at hi; cases hi
  · have hd := sub_duration_window (selected_time (InWindow b) hp.2 hs) hp.1
    rw [he]
    simp only [le_iff, ZERO_duration, hleap, and_true, hd] at hn
    show windowPos b p.time < windowPos b (p.selected s).time
    omega

/-- An ignored tuple leaves the peer's statistics and time. -/
theorem clockFilter_ignore_eq (h : (p.clockFilter s leap prec).1 = .ignore) :
    (p.clockFilter s leap prec).2.time = p.time ∧
      (p.clockFilter s leap prec).2.statistics = p.statistics := by
  rcases clockFilter_cases p s leap prec with ⟨-, -, he⟩ | ⟨hp, -, -⟩
  · rw [he]; exact ⟨rfl, rfl⟩
  · rw [h] at hp; cases hp

/-- The prime directive at one call. -/
theorem clockFilter_primeDirective (i : FilterInput) (hp : TimesInWindow b p)
    (hs : InWindow b i.tuple.time) (hleap : i.leap.isSynchronized) :
    PrimeDirective b ⟨p, i, (p.clockFilter i.tuple i.leap i.precision).1,
      (p.clockFilter i.tuple i.leap i.precision).2⟩ :=
  ⟨clockFilter_process_later hp hs hleap, clockFilter_ignore_eq⟩

end Peer

/-- The window positions of the times that the `process` calls of a run select. -/
def processedTimes (b : NtpTimestamp) (steps : List FilterStep) : List Nat :=
  steps.filterMap fun st => if st.decision = .process then some (windowPos b st.after.time) else none

/-- The prime directive over a run of a synchronized system whose times (the peer's, its
stages', the new tuples') lie in a window of `2^63` ticks: each call that processes moves the
peer's time strictly later, each call that ignores leaves its time and statistics, and so the
selected times strictly increase, every one later than the peer's time at the start. -/
theorem clockFilterSteps_prime_directive {b : NtpTimestamp} :
    ∀ {p : Peer} {inputs : List FilterInput}, (∀ i ∈ inputs, i.leap.isSynchronized) →
    TimesInWindow b p → (∀ i ∈ inputs, InWindow b i.tuple.time) →
    (∀ st ∈ clockFilterSteps p inputs, PrimeDirective b st) ∧
    (∀ x ∈ processedTimes b (clockFilterSteps p inputs), windowPos b p.time < x) ∧
    (processedTimes b (clockFilterSteps p inputs)).Pairwise (· < ·)
  | _, [], _, _, _ => by simp [processedTimes]
  | p, i :: is, hsync, hp, hin => by
    have hs := hin i (List.mem_cons_self _ _)
    have hstep := Peer.clockFilter_primeDirective i hp hs (hsync i (List.mem_cons_self _ _))
    obtain ⟨ihs, ihx, ihp⟩ := clockFilterSteps_prime_directive (p := (p.clockFilter i.tuple i.leap i.precision).2)
      (fun j hj => hsync j (List.mem_cons_of_mem _ hj)) (Peer.clockFilter_times (InWindow b) hp.1 hp.2 hs)
      (fun j hj => hin j (List.mem_cons_of_mem _ hj))
    simp only [clockFilterSteps_cons, processedTimes, List.filterMap_cons] at ihx ihp ⊢
    refine ⟨List.forall_mem_cons.mpr ⟨hstep, ihs⟩, ?_⟩
    cases hd : (p.clockFilter i.tuple i.leap i.precision).1
    · rw [(hstep.2 hd).1] at ihx
      simp only [reduceCtorEq, if_false]
      exact ⟨ihx, ihp⟩
    · have hlt := hstep.1 hd
      simp only [if_true, List.mem_cons, List.pairwise_cons]
      exact ⟨fun x hx => hx.elim (· ▸ hlt) (fun hx => hlt.trans (ihx x hx)), ihx, ihp⟩

/-- The prime directive (RFC 5905, A.5.2) over every run of a synchronized system whose times
lie in one window of `2^63` ticks: each `process` moves the peer's time strictly later, each
`ignore` leaves time and statistics, and the times that successive `process` calls select
strictly increase, so no stage is selected twice and none older than one selected before. -/
theorem clockFilter_prime_directive (b : NtpTimestamp) (p : Peer) (inputs : List FilterInput)
    (hsync : ∀ i ∈ inputs, i.leap.isSynchronized) (hp : TimesInWindow b p)
    (hin : ∀ i ∈ inputs, InWindow b i.tuple.time) :
    (∀ st ∈ clockFilterSteps p inputs,
      (st.decision = .process → windowPos b st.before.time < windowPos b st.after.time) ∧
      (st.decision = .ignore →
        st.after.time = st.before.time ∧ st.after.statistics = st.before.statistics)) ∧
    (processedTimes b (clockFilterSteps p inputs)).Pairwise (· < ·) :=
  let h := clockFilterSteps_prime_directive hsync hp hin
  ⟨h.1, h.2.2⟩

theorem clockFilter_prime_directive_twoSeconds :
    (∀ i ∈ FilterInput.twoSeconds, i.leap.isSynchronized) ∧ TimesInWindow .ZERO Peer.sample ∧
      (∀ i ∈ FilterInput.twoSeconds, InWindow .ZERO i.tuple.time) ∧
      ((∀ st ∈ clockFilterSteps Peer.sample FilterInput.twoSeconds,
        (st.decision = .process → windowPos .ZERO st.before.time < windowPos .ZERO st.after.time) ∧
        (st.decision = .ignore →
          st.after.time = st.before.time ∧ st.after.statistics = st.before.statistics)) ∧
      (processedTimes .ZERO (clockFilterSteps Peer.sample FilterInput.twoSeconds)).Pairwise (· < ·)) :=
  ⟨by decide, by decide, by decide,
    clockFilter_prime_directive _ _ _ (by decide) (by decide) (by decide)⟩

/-! ## Aging over a run -/

/-- The correction of a call whose tuple is `δ` ticks after the peer's time, `15·δ < 2^63`:
non-negative, and below `2^44` ticks (about an hour). -/
theorem multiplyByPhi_elapsed {t₀ t : NtpTimestamp} (hle : t₀.timestamp ≤ t.timestamp)
    (hspan : 15 * (t.timestamp - t₀.timestamp) < 2 ^ 63) :
    0 ≤ (multiplyByPhi (t - t₀)).duration ∧ (multiplyByPhi (t - t₀)).duration < 2 ^ 44 := by
  have hd : (t - t₀).duration = (t.timestamp - t₀.timestamp : Nat) := by
    rw [NtpTimestamp.sub_duration, wrapI64_of_mem] <;> omega
  rw [multiplyByPhi_exact (by rw [hd]; omega), hd, Int.tdiv_eq_ediv (by omega) (by decide)]
  omega

/-- Each stage `k < 7` of `m` is stage `k + 1` of `m'`: a dummy unchanged, a real stage with its
offset, delay and time and a dispersion no smaller. -/
def StagesAgedUp (m m' : LastMeasurements) : Prop :=
  ∀ k t, k < 7 → m.register[k]? = some t →
    (t.isDummy → m'.register[k + 1]? = some t) ∧
    (¬t.isDummy → ∃ t', m'.register[k + 1]? = some t' ∧ t'.offset = t.offset ∧
      t'.delay = t.delay ∧ t'.time = t.time ∧ t.dispersion.duration ≤ t'.dispersion.duration)

/-- What aging keeps along a run: every time the peer holds is at most `τ`, and a real stage
`k` has a dispersion of at most `2^62 + k·2^44` ticks. -/
def AgingInv (τ : Nat) (p : Peer) : Prop :=
  p.time.timestamp ≤ τ ∧ (∀ t ∈ p.lastMeasurements.register, t.time.timestamp ≤ τ) ∧
    ∀ (k : Nat) t, p.lastMeasurements.register[k]? = some t → ¬t.isDummy →
      t.dispersion.duration ≤ 2 ^ 62 + (k : Int) * 2 ^ 44

theorem agingInv_fresh {p : Peer} (hp : p.IsFresh) : AgingInv 0 p := by
  refine ⟨by rw [hp.1]; rfl, fun t ht => ?_, fun k t ht hn => ?_⟩ <;> rw [hp.2] at ht
  · rw [List.eq_of_mem_replicate ht]; rfl
  · exact absurd ((isDummy_iff t).mpr (List.eq_of_mem_replicate (List.getElem?_mem ht))) hn

/-- A real stage of dispersion at most `2^62 + k·2^44` aged by a correction in `[0, 2^44)` gets
exactly the correction added. -/
theorem age_dispersion {t : FilterTuple} {a : NtpDuration} {k : Nat} (hk : k < 7)
    (hn : ¬t.isDummy) (ht : t.dispersion.duration ≤ 2 ^ 62 + (k : Int) * 2 ^ 44)
    (ha : 0 ≤ a.duration ∧ a.duration < 2 ^ 44) :
    (t.age a).dispersion.duration = t.dispersion.duration + a.duration := by
  rw [age_of_not_isDummy hn]
  exact add_duration_of_mem (by have := t.dispersion.le_duration; omega) (by omega)

namespace Peer

variable {τ : Nat} {p : Peer} {s : FilterTuple} {leap : NtpLeapIndicator} {prec : F64}

/-- The register holds a real sample. -/
def HasRealStage (p : Peer) : Prop := ∃ t ∈ p.lastMeasurements.register, ¬t.isDummy

instance (p : Peer) : Decidable p.HasRealStage :=
  inferInstanceAs (Decidable (∃ t ∈ p.lastMeasurements.register, ¬t.isDummy))

/-- One call with the tuple at or after `τ`, and `15·δ < 2^63` for its distance `δ` from the
peer's time whenever a real stage is there to age: the correction such a stage gets is
non-negative, and the stages age up. -/
theorem clockFilter_agesUp (hinv : AgingInv τ p) (hτ : τ ≤ s.time.timestamp)
    (hspan : p.HasRealStage → 15 * (s.time.timestamp - p.time.timestamp) < 2 ^ 63) :
    (p.HasRealStage → 0 ≤ (multiplyByPhi (s.time - p.time)).duration) ∧
      StagesAgedUp p.lastMeasurements (p.clockFilter s leap prec).2.lastMeasurements := by
  have ha := fun h => multiplyByPhi_elapsed (hinv.1.trans hτ) (hspan h)
  refine ⟨fun h => (ha h).1, fun k t hk ht => ?_⟩
  rw [clockFilter_lastMeasurements, LastMeasurements.shiftAndInsert_getElem?_succ, if_pos hk, ht,
    Option.map_some']
  refine ⟨fun hd => by rw [age_of_isDummy hd], fun hn => ?_⟩
  have ha := ha ⟨t, List.getElem?_mem ht, hn⟩
  refine ⟨_, rfl, by simp, by simp, by simp, ?_⟩
  rw [age_dispersion hk hn (hinv.2.2 k t ht hn) ha]
  omega

/-- The invariant moves on to the new tuple's time. -/
theorem clockFilter_agingInv (hinv : AgingInv τ p) (hτ : τ ≤ s.time.timestamp)
    (hs : s.dispersion.duration ≤ 2 ^ 62)
    (hspan : p.HasRealStage → 15 * (s.time.timestamp - p.time.timestamp) < 2 ^ 63) :
    AgingInv s.time.timestamp (p.clockFilter s leap prec).2 := by
  obtain ⟨htime, hreg⟩ := @clockFilter_times p s leap prec
    (fun t => t.timestamp ≤ s.time.timestamp) (hinv.1.trans hτ)
    (fun t ht => (hinv.2.1 t ht).trans hτ) (Nat.le_refl _)
  refine ⟨htime, hreg, fun k t ht hn => ?_⟩
  rw [clockFilter_lastMeasurements] at ht
  cases k with
  | zero =>
    rw [LastMeasurements.shiftAndInsert_getElem?_zero] at ht
    cases ht; omega
  | succ k =>
    rw [LastMeasurements.shiftAndInsert_getElem?_succ] at ht
    split at ht
    · obtain ⟨u, hu, rfl⟩ := Option.map_eq_some'.mp ht
      have hun : ¬u.isDummy := fun hd => hn (by rwa [age_of_isDummy hd])
      have ha := multiplyByPhi_elapsed (hinv.1.trans hτ) (hspan ⟨u, List.getElem?_mem hu, hun⟩)
      have hu' := hinv.2.2 k u hu hun
      rw [age_dispersion ‹_› hun hu' ha]
      push_cast; omega
    · cases ht

end Peer

theorem clockFilterSteps_agesUp :
    ∀ {p : Peer} {inputs : List FilterInput} {τ : Nat}, AgingInv τ p →
    (∀ i ∈ inputs, τ ≤ i.tuple.time.timestamp) →
    (inputs.map fun i => i.tuple.time.timestamp).Sorted (· ≤ ·) →
    (∀ i ∈ inputs, i.tuple.dispersion.duration ≤ 2 ^ 62) →
    (∀ st ∈ clockFilterSteps p inputs, st.before.HasRealStage →
      15 * (st.input.tuple.time.timestamp - st.before.time.timestamp) < 2 ^ 63) →
    ∀ st ∈ clockFilterSteps p inputs,
      (st.before.HasRealStage → 0 ≤ (multiplyByPhi (st.input.tuple.time - st.before.time)).duration) ∧
        StagesAgedUp st.before.lastMeasurements st.after.lastMeasurements
  | _, [], _, _, _, _, _, _ => by simp
  | p, i :: is, τ, hinv, hτ, hmono, hdisp, hspan => by
    simp only [List.map_cons, List.sorted_cons, List.mem_map, forall_exists_index, and_imp,
      forall_apply_eq_imp_iff₂] at hmono
    simp only [clockFilterSteps_cons, List.forall_mem_cons] at hspan ⊢
    have hi := hτ i (List.mem_cons_self _ _)
    have hdi := hdisp i (List.mem_cons_self _ _)
    exact ⟨Peer.clockFilter_agesUp hinv hi hspan.1,
      clockFilterSteps_agesUp (Peer.clockFilter_agingInv hinv hi hdi hspan.1) hmono.1 hmono.2
        (fun j hj => hdisp j (List.mem_cons_of_mem _ hj)) hspan.2⟩

/-- Aging over a run from a fresh peer with non-decreasing tuple times and dispersions of at most
`2^62` ticks, in which every tuple that finds a real sample in the register is less than
`2^63 / 15` ticks (about 4.5 years) after the peer's time at its call: every correction applied
to a real sample is non-negative, every real stage keeps its offset, delay and time and gets no
smaller a dispersion as it moves one stage on, and every dummy stage moves on unchanged. -/
theorem clockFilter_aging_nondecreasing {p : Peer} {inputs : List FilterInput} (hp : p.IsFresh)
    (hmono : (inputs.map fun i => i.tuple.time.timestamp).Sorted (· ≤ ·))
    (hdisp : ∀ i ∈ inputs, i.tuple.dispersion.duration ≤ 2 ^ 62)
    (hspan : ∀ st ∈ clockFilterSteps p inputs, st.before.HasRealStage →
      15 * (st.input.tuple.time.timestamp - st.before.time.timestamp) < 2 ^ 63) :
    ∀ st ∈ clockFilterSteps p inputs,
      (st.before.HasRealStage → 0 ≤ (multiplyByPhi (st.input.tuple.time - st.before.time)).duration) ∧
        StagesAgedUp st.before.lastMeasurements st.after.lastMeasurements :=
  clockFilterSteps_agesUp (agingInv_fresh hp) (fun _ _ => Nat.zero_le _) hmono hdisp hspan

theorem clockFilter_aging_nondecreasing_twoSeconds :
    Peer.sample.IsFresh ∧
      (FilterInput.twoSeconds.map fun i => i.tuple.time.timestamp).Sorted (· ≤ ·) ∧
      (∀ i ∈ FilterInput.twoSeconds, i.tuple.dispersion.duration ≤ 2 ^ 62) ∧
      (∀ st ∈ clockFilterSteps Peer.sample FilterInput.twoSeconds, st.before.HasRealStage →
        15 * (st.input.tuple.time.timestamp - st.before.time.timestamp) < 2 ^ 63) ∧
      ∀ st ∈ clockFilterSteps Peer.sample FilterInput.twoSeconds,
        (st.before.HasRealStage →
          0 ≤ (multiplyByPhi (st.input.tuple.time - st.before.time)).duration) ∧
          StagesAgedUp st.before.lastMeasurements st.after.lastMeasurements :=
  ⟨Peer.init_isFresh _ _, by decide, by decide, by decide,
    clockFilter_aging_nondecreasing (Peer.init_isFresh _ _) (by decide) (by decide) (by decide)⟩

set_option maxRecDepth 4000 in
/-- A fresh peer of a synchronized system, given a sample timed at the start of 2026 and another
one second later. The first is ignored and stored, and the peer's time stays `ZERO`. The second
call's correction, `multiply_by_phi` of the wrap-aware difference to `ZERO`, is negative, so
the stored sample moves to stage 1 with a smaller dispersion. -/
theorem clockFilter_aging_presentDay :
    let s₁ : FilterTuple := ⟨ONE, ONE, ZERO, NtpTimestamp.jan2026⟩
    let s₂ : FilterTuple := ⟨ONE, ONE, ZERO, ⟨3976214401 * 2 ^ 32, by decide⟩⟩
    let p₁ := (Peer.sample.clockFilter s₁ .noWarning F64.zero).2
    let p₂ := (p₁.clockFilter s₂ .noWarning F64.zero).2
    p₁.time = NtpTimestamp.ZERO ∧ p₁.HasRealStage ∧
      (multiplyByPhi (s₂.time - p₁.time)).duration < 0 ∧
      p₂.lastMeasurements.register[1]? =
        some { s₁ with dispersion := s₁.dispersion + multiplyByPhi (s₂.time - p₁.time) } ∧
      (s₁.dispersion + multiplyByPhi (s₂.time - p₁.time)).duration < s₁.dispersion.duration := by
  decide

end Ntp
