import NtpProto.Association

/-!
# The filter register as a window on the samples

`clock_filter` shifts each new tuple into the eight-stage register and ages the stages it keeps;
`update_with_packet` leaves the register alone. What a stage says about its sample is its offset,
delay and time (`Sample`): aging moves only the dispersion. The abstract model is the window,
the samples of the last eight `clock_filter` calls of a run, newest first (`Window.run`), and a
register refines a window when it holds a stage for each of its samples and then dummies
(`LastMeasurements.Holds`). Every call keeps the refinement (`Peer.call_holds`).

* After any run of both operations from an empty register, the register holds the samples of
  the run's last eight `clock_filter` calls, newest first, then dummies (`Peer.run_window`).
* The valid tuples that `jitter` reads are then that window sorted by delay, when every sample
  in it is real and none has a delay above `MAX_DISPERSION` (`Peer.run_validTuples`).
* `clock_filter` takes the newest sample of least delay in the window padded with dummies
  (`Peer.clockFilter_selects`): `sort_by` is stable. In a run from an empty register a new tuple
  of delay at most `MAX_DISPERSION` makes that one of the last eight samples, never a dummy
  (`Peer.run_clockFilter_selects`).
* A peer never reports a sample it was not handed: the offset, delay and time it reports after a
  run are its old ones, those of a sample of the run or of the window, or the dummy's, and the
  dummy's only after a sample of delay above `MAX_DISPERSION` (`Peer.run_reported`).
-/

namespace Ntp

open NtpDuration FilterTuple

/-- What a stage says about its sample: everything but the dispersion, which aging moves. -/
structure Sample where
  offset : NtpDuration
  delay : NtpDuration
  time : NtpTimestamp
deriving DecidableEq

/-- The sample a stage holds. -/
def FilterTuple.sample (t : FilterTuple) : Sample := ⟨t.offset, t.delay, t.time⟩

@[simp] theorem FilterTuple.age_sample (t : FilterTuple) (a : NtpDuration) :
    (t.age a).sample = t.sample := by
  simp only [sample, age_offset, age_delay, age_time]

/-- The order of the sorted view, on samples. -/
def Sample.DelayLe (a b : Sample) : Prop := a.delay ≤ b.delay

instance : DecidableRel Sample.DelayLe := fun a b =>
  inferInstanceAs (Decidable (a.delay ≤ b.delay))

/-- `b` is the newest sample of least delay in `l`, newest first: every sample before it has a
larger delay, and none after it a smaller one. -/
def Sample.NewestLeastDelay (l : List Sample) (b : Sample) : Prop :=
  ∃ pre post, l = pre ++ b :: post ∧ (∀ t ∈ pre, b.delay < t.delay) ∧
    ∀ t ∈ post, b.delay ≤ t.delay

/-- The samples a run hands `clock_filter`, first call first. -/
def PeerCall.samples (calls : List PeerCall) : List Sample :=
  (calls.filterMap newTuple).map FilterTuple.sample

/-! ## The abstract window -/

namespace Window

/-- One call on the window: a `clock_filter` call pushes its sample and drops the ninth. -/
def call (ws : List Sample) (c : PeerCall) : List Sample :=
  match c.newTuple with
  | some s => (s.sample :: ws).take 8
  | none => ws

def run (ws : List Sample) (calls : List PeerCall) : List Sample := calls.foldl call ws

/-- The window as the eight stages see it: its samples, then the dummy's. -/
def pad (ws : List Sample) : List Sample := ws ++ List.replicate (8 - ws.length) DUMMY.sample

theorem take_append_take {α : Type} (xs ys : List α) (n : Nat) :
    (xs ++ ys.take n).take n = (xs ++ ys).take n := by
  rw [List.take_append_eq_append_take, List.take_append_eq_append_take, List.take_take,
    Nat.min_eq_left (Nat.sub_le n _)]

/-- The window after a run: the run's samples, newest first, before the old window, cut to
eight. -/
theorem run_eq (calls : List PeerCall) :
    ∀ ws : List Sample, ws.length ≤ 8 →
      run ws calls = ((PeerCall.samples calls).reverse ++ ws).take 8 := by
  induction calls with
  | nil => intro ws h; exact (List.take_of_length_le h).symm
  | cons c cs ih =>
    intro ws h
    cases c with
    | updateWithPacket => exact ih ws h
    | clockFilter s leap prec =>
      rw [show run ws (.clockFilter s leap prec :: cs) = run ((s.sample :: ws).take 8) cs from rfl,
        ih _ (List.length_take_le _ _), take_append_take,
        show PeerCall.samples (.clockFilter s leap prec :: cs) = s.sample :: PeerCall.samples cs
          from rfl, List.reverse_cons, List.append_assoc, List.singleton_append]

/-- From the empty window: the run's last eight samples, newest first. -/
theorem run_nil_eq (calls : List PeerCall) :
    run [] calls = (PeerCall.samples calls).reverse.take 8 := by
  rw [run_eq calls [] (Nat.zero_le _), List.append_nil]

/-- A window whose newest sample has a delay of at most `MAX_DISPERSION`: its newest sample of
least delay is the one the padded window has, so the dummy's padding is never taken. -/
theorem newestLeastDelay_of_pad {ws : List Sample} {w b : Sample} (hw : w ∈ ws.head?)
    (hd : w.delay ≤ MAX_DISPERSION) (h : Sample.NewestLeastDelay (pad ws) b) :
    Sample.NewestLeastDelay ws b := by
  obtain ⟨pre, post, hl, hpre, hpost⟩ := h
  have hws : w ∈ ws := List.mem_of_mem_head? hw
  -- a dummy taken from the padding would have a delay below the newest sample's
  have hnot : ∀ k, b ∈ List.replicate k DUMMY.sample → w ∉ pre := fun k hb hpw => by
    have := hpre w hpw
    rw [List.eq_of_mem_replicate hb] at this
    exact absurd hd (Int.not_le.mpr this)
  rcases List.append_eq_append_iff.mp hl with ⟨a', hpre', hrep⟩ | ⟨c', hws', hpost'⟩
  · exact absurd (by rw [hpre']; exact List.mem_append_left _ hws)
      (hnot _ (hrep ▸ List.mem_append_right _ (List.mem_cons_self _ _)))
  · cases c' with
    | nil =>
      rw [List.append_nil] at hws'
      exact absurd (hws' ▸ hws) (hnot _ (hpost' ▸ List.mem_cons_self _ _))
    | cons c cs =>
      obtain ⟨rfl, rfl⟩ := List.cons_eq_cons.mp hpost'
      exact ⟨pre, cs, hws', hpre, fun t ht => hpost t (List.mem_append_left _ ht)⟩

end Window

/-! ## The register refines the window -/

/-- The register refines the window `ws`: a stage for each of its samples, newest first, then a
dummy for every stage left. -/
def LastMeasurements.Holds (m : LastMeasurements) (ws : List Sample) : Prop :=
  ∃ rs, m.register = rs ++ List.replicate (8 - ws.length) DUMMY ∧ rs.map sample = ws

namespace LastMeasurements

theorem new_holds : new.Holds [] := ⟨[], rfl, rfl⟩

theorem Holds.length_le {m : LastMeasurements} {ws : List Sample} (h : m.Holds ws) :
    ws.length ≤ 8 := by
  obtain ⟨rs, hm, rfl⟩ := h
  have := m.length_register
  simp only [hm, List.length_append, List.length_replicate, List.length_map] at this ⊢
  omega

/-- The samples of the register's stages are the padded window. -/
theorem Holds.map_register {m : LastMeasurements} {ws : List Sample} (h : m.Holds ws) :
    m.register.map sample = Window.pad ws := by
  obtain ⟨rs, hm, hrs⟩ := h
  rw [hm, List.map_append, hrs, List.map_replicate, Window.pad]

/-- `shift_and_insert` slides the window: the new sample first, the oldest of eight dropped. -/
theorem Holds.shiftAndInsert {m : LastMeasurements} {ws : List Sample} (h : m.Holds ws)
    (s : FilterTuple) (a : NtpDuration) :
    (m.shiftAndInsert s a).Holds ((s.sample :: ws).take 8) := by
  have h8 := h.length_le
  obtain ⟨rs, hm, hrs⟩ := h
  have hn : rs.length = ws.length := by rw [← hrs, List.length_map]
  refine ⟨s :: (rs.take 7).map (age a), ?_, ?_⟩
  · rw [register_shiftAndInsert, hm, List.take_append_eq_append_take, List.map_append,
      List.take_replicate, List.map_replicate, age_DUMMY, List.take_succ_cons, List.length_cons,
      List.length_take, List.cons_append, hn]
    congr 3
    omega
  · rw [List.take_succ_cons, List.map_cons, List.map_map, ← hrs, ← List.map_take]
    simp only [Function.comp_def, age_sample]

end LastMeasurements

namespace Peer

theorem updateWithPacket_lastMeasurements (p : Peer) (t : NtpTimestamp) (sp : NtpDuration)
    (packet : NtpHeader) (dst : NtpTimestamp) :
    (p.updateWithPacket t sp packet dst).2.lastMeasurements = p.lastMeasurements := by
  rw [updateWithPacket_frame]

/-- One call keeps the refinement. -/
theorem call_holds {p : Peer} {ws : List Sample} (h : p.lastMeasurements.Holds ws) (c : PeerCall) :
    (p.call c).lastMeasurements.Holds (Window.call ws c) := by
  cases c with
  | updateWithPacket t sp packet dst =>
    rw [call, updateWithPacket_lastMeasurements]; exact h
  | clockFilter s leap prec =>
    rw [call, clockFilter_lastMeasurements]; exact h.shiftAndInsert s _

/-- A whole run keeps it. -/
theorem run_holds {p : Peer} {ws : List Sample} (h : p.lastMeasurements.Holds ws)
    (calls : List PeerCall) : (p.run calls).lastMeasurements.Holds (Window.run ws calls) := by
  induction calls generalizing p ws with
  | nil => exact h
  | cons c cs ih => exact ih (call_holds h c)

/-- After any run from an empty register, the register holds the samples of the run's last
eight `clock_filter` calls, newest first, each in a stage of its own, then dummies. -/
theorem run_window {p : Peer} (hp : p.lastMeasurements = .new) (calls : List PeerCall) :
    (p.run calls).lastMeasurements.Holds ((PeerCall.samples calls).reverse.take 8) :=
  Window.run_nil_eq calls ▸ run_holds (hp ▸ LastMeasurements.new_holds) calls

end Peer

/-- An accepted header at the start of 2026, then the two samples of `FilterInput.twoSeconds`. -/
def PeerCall.twoSeconds : List PeerCall :=
  .updateWithPacket .jan2026 ZERO .secondAhead .jan2026 ::
    FilterInput.twoSeconds.map fun i => .clockFilter i.tuple i.leap i.precision

theorem run_window_twoSeconds :
    Peer.sample.lastMeasurements = .new ∧
      (Peer.sample.run PeerCall.twoSeconds).lastMeasurements.Holds
        ((PeerCall.samples PeerCall.twoSeconds).reverse.take 8) :=
  ⟨rfl, Peer.run_window rfl _⟩

namespace Peer

/-- After any run from an empty register whose last eight samples are real (time not `ZERO`) and
have delays of at most `MAX_DISPERSION`, the valid tuples `jitter` reads hold exactly those
samples, sorted by delay: every stage still filled is valid. -/
theorem run_validTuples {p : Peer} (hp : p.lastMeasurements = .new) (calls : List PeerCall)
    (hs : ∀ w ∈ (PeerCall.samples calls).reverse.take 8,
      w.time ≠ NtpTimestamp.ZERO ∧ w.delay ≤ MAX_DISPERSION) :
    (TemporaryList.fromClockFilterContents (p.run calls).lastMeasurements).validTuples.map
        FilterTuple.sample =
      ((PeerCall.samples calls).reverse.take 8).insertionSort Sample.DelayLe := by
  obtain ⟨rs, hm, hrs⟩ :=
    Window.run_nil_eq calls ▸ run_holds (hp ▸ LastMeasurements.new_holds) calls
  have hw : ∀ r ∈ rs, r.time ≠ NtpTimestamp.ZERO ∧ r.delay ≤ MAX_DISPERSION := fun r hr =>
    hs r.sample (hrs ▸ List.mem_map_of_mem _ hr)
  rw [TemporaryList.validTuples_append hm (fun r hr => (hw r hr).2)
      (fun r hr => not_isDummy_of_time (hw r hr).1),
    List.map_insertionSort DelayLe Sample.DelayLe FilterTuple.sample _ fun _ _ _ _ => Iff.rfl, hrs]

end Peer

theorem run_validTuples_twoSeconds :
    Peer.sample.lastMeasurements = .new ∧
      (∀ w ∈ (PeerCall.samples PeerCall.twoSeconds).reverse.take 8,
        w.time ≠ NtpTimestamp.ZERO ∧ w.delay ≤ MAX_DISPERSION) ∧
      (TemporaryList.fromClockFilterContents
        (Peer.sample.run PeerCall.twoSeconds).lastMeasurements).validTuples.map FilterTuple.sample =
        ((PeerCall.samples PeerCall.twoSeconds).reverse.take 8).insertionSort Sample.DelayLe :=
  ⟨rfl, by decide, Peer.run_validTuples rfl _ (by decide)⟩

namespace Peer

/-- Which sample `clock_filter` takes, from a register that holds the window `ws`: the stage it
selects holds the newest sample of least delay in the window after the shift, padded with the
dummy's, and a call that processes takes that stage's time, offset and delay. -/
theorem clockFilter_selects {p : Peer} {ws : List Sample} (h : p.lastMeasurements.Holds ws)
    (s : FilterTuple) (leap : NtpLeapIndicator) (prec : F64) :
    Sample.NewestLeastDelay (Window.pad ((s.sample :: ws).take 8)) (p.selected s).sample ∧
      ((p.clockFilter s leap prec).1 = .process →
        (p.clockFilter s leap prec).2.time = (p.selected s).time ∧
        (p.clockFilter s leap prec).2.statistics.offset = (p.selected s).offset ∧
        (p.clockFilter s leap prec).2.statistics.delay = (p.selected s).delay) := by
  obtain ⟨pre, post, hreg, hpre, hpost⟩ := TemporaryList.smallestDelay_split
    (p.lastMeasurements.shiftAndInsert s (multiplyByPhi (s.time - p.time)))
  refine ⟨⟨pre.map FilterTuple.sample, post.map FilterTuple.sample, ?_, ?_, ?_⟩, fun hproc => ?_⟩
  · rw [← (h.shiftAndInsert s _).map_register, hreg, List.map_append, List.map_cons]; rfl
  · simpa using hpre
  · simpa using hpost
  · rcases clockFilter_cases p s leap prec with ⟨hi, -, -⟩ | ⟨-, -, he⟩
    · rw [hi] at hproc; cases hproc
    · rw [he]; exact ⟨rfl, rfl, rfl⟩

/-- Which sample each `clock_filter` call of a run from an empty register selects, when its new
tuple has a delay of at most `MAX_DISPERSION`: the newest of least delay among the run's last
eight samples, this call's included, and never a dummy. When the call processes it, the peer takes
that sample's time, offset and delay. -/
theorem run_clockFilter_selects {p : Peer} (hp : p.lastMeasurements = .new)
    (calls : List PeerCall) (s : FilterTuple) (hs : s.delay ≤ MAX_DISPERSION)
    (leap : NtpLeapIndicator) (prec : F64) :
    Sample.NewestLeastDelay ((s.sample :: (PeerCall.samples calls).reverse).take 8)
        ((p.run calls).selected s).sample ∧
      (((p.run calls).clockFilter s leap prec).1 = .process →
        ((p.run calls).clockFilter s leap prec).2.time = ((p.run calls).selected s).time ∧
        ((p.run calls).clockFilter s leap prec).2.statistics.offset =
          ((p.run calls).selected s).offset ∧
        ((p.run calls).clockFilter s leap prec).2.statistics.delay =
          ((p.run calls).selected s).delay) := by
  obtain ⟨hb, hproc⟩ := clockFilter_selects
    (Window.run_nil_eq calls ▸ run_holds (hp ▸ LastMeasurements.new_holds) calls) s leap prec
  rw [List.take_succ_cons, List.take_take, Nat.min_eq_left (by decide),
    ← List.take_succ_cons] at hb
  exact ⟨Window.newestLeastDelay_of_pad (w := s.sample) rfl hs hb, hproc⟩

end Peer

theorem run_clockFilter_selects_twoSeconds :
    let s : FilterTuple := ⟨ONE, ONE, ZERO, ⟨3 * 2 ^ 32, by decide⟩⟩
    let q := Peer.sample.run PeerCall.twoSeconds
    Peer.sample.lastMeasurements = .new ∧ s.delay ≤ MAX_DISPERSION ∧
      (q.clockFilter s .noWarning F64.zero).1 = .process ∧
      (Sample.NewestLeastDelay ((s.sample :: (PeerCall.samples PeerCall.twoSeconds).reverse).take 8)
          (q.selected s).sample ∧
        ((q.clockFilter s .noWarning F64.zero).1 = .process →
          (q.clockFilter s .noWarning F64.zero).2.time = (q.selected s).time ∧
          (q.clockFilter s .noWarning F64.zero).2.statistics.offset = (q.selected s).offset ∧
          (q.clockFilter s .noWarning F64.zero).2.statistics.delay = (q.selected s).delay)) :=
  ⟨rfl, by decide, by decide, Peer.run_clockFilter_selects rfl _ _ (by decide) _ _⟩

/-! ## What a peer reports -/

/-- What a peer reports of the sample it last processed: the offset and delay of its statistics,
and its time. -/
def Peer.reported (p : Peer) : Sample := ⟨p.statistics.offset, p.statistics.delay, p.time⟩

theorem Sample.NewestLeastDelay.mem {l : List Sample} {b : Sample}
    (h : Sample.NewestLeastDelay l b) : b ∈ l := by
  obtain ⟨pre, post, rfl, -, -⟩ := h
  exact List.mem_append_right _ (List.mem_cons_self _ _)

theorem PeerCall.samples_cons (c : PeerCall) (cs : List PeerCall) :
    PeerCall.samples (c :: cs) = PeerCall.samples [c] ++ PeerCall.samples cs := by
  cases c <;> rfl

/-- A call's window holds only its own sample and the old window's. -/
theorem Window.call_subset (ws : List Sample) (c : PeerCall) :
    Window.call ws c ⊆ PeerCall.samples [c] ++ ws := by
  cases c with
  | updateWithPacket => exact List.subset_append_right _ _
  | clockFilter s leap prec => exact List.take_subset _ _

namespace Peer

/-- One call: the peer reports what it reported, the sample of this call or of the window, or the
dummy's, and the dummy's only when this call's tuple has a delay above `MAX_DISPERSION`. -/
theorem call_reported {p : Peer} {ws : List Sample} (h : p.lastMeasurements.Holds ws)
    (c : PeerCall) :
    (p.call c).reported = p.reported ∨ (p.call c).reported ∈ PeerCall.samples [c] ++ ws ∨
      ((p.call c).reported = DUMMY.sample ∧
        ∃ w ∈ PeerCall.samples [c], MAX_DISPERSION < w.delay) := by
  cases c with
  | updateWithPacket t sp packet dst => exact .inl (by rw [call, updateWithPacket_frame]; rfl)
  | clockFilter s leap prec =>
    obtain ⟨hb, hproc⟩ := clockFilter_selects h s leap prec
    rcases clockFilter_cases p s leap prec with ⟨-, -, he⟩ | ⟨hp, -, -⟩
    · exact .inl (by rw [call, he]; rfl)
    · obtain ⟨ht, ho, hd⟩ := hproc hp
      have hrep : (p.call (.clockFilter s leap prec)).reported = (p.selected s).sample := by
        simp only [call, reported, ht, ho, hd]; rfl
      rw [hrep]
      by_cases hs : s.delay ≤ MAX_DISPERSION
      · -- then the padding is never taken
        exact .inr (.inl (List.take_subset _ _
          (Window.newestLeastDelay_of_pad (w := s.sample) rfl hs hb).mem))
      · rcases List.mem_append.mp hb.mem with hw | hw
        · exact .inr (.inl (List.take_subset _ _ hw))
        · exact .inr (.inr ⟨List.eq_of_mem_replicate hw, s.sample, List.mem_singleton_self _,
            Int.not_le.mp hs⟩)

/-- A peer never reports a sample it was not handed: after any run from a register that holds the
window `ws`, the offset, delay and time the peer reports are its old ones, those of a sample the
run handed `clock_filter` or of one still in the window, or the dummy's, and the dummy's only
when some sample of the run had a delay above `MAX_DISPERSION`. -/
theorem run_reported {p : Peer} {ws : List Sample} (h : p.lastMeasurements.Holds ws)
    (calls : List PeerCall) :
    (p.run calls).reported = p.reported ∨
      (p.run calls).reported ∈ PeerCall.samples calls ++ ws ∨
      ((p.run calls).reported = DUMMY.sample ∧
        ∃ w ∈ PeerCall.samples calls, MAX_DISPERSION < w.delay) := by
  induction calls generalizing p ws with
  | nil => exact .inl rfl
  | cons c cs ih =>
    rw [run_cons, PeerCall.samples_cons]
    have h₁ : PeerCall.samples [c] ++ ws ⊆ PeerCall.samples [c] ++ PeerCall.samples cs ++ ws :=
      fun x hx => by simp only [List.mem_append] at hx ⊢; tauto
    have h₂ : PeerCall.samples cs ++ Window.call ws c ⊆
        PeerCall.samples [c] ++ PeerCall.samples cs ++ ws := fun x hx => by
      have hc := fun (hx : x ∈ Window.call ws c) =>
        List.mem_append.mp (Window.call_subset ws c hx)
      simp only [List.mem_append] at hx hc ⊢
      tauto
    rcases ih (call_holds h c) with he | hm | ⟨hd, w, hw, hlt⟩
    · rw [he]
      rcases call_reported h c with he' | hm' | ⟨hd', w, hw, hlt⟩
      · exact .inl he'
      · exact .inr (.inl (h₁ hm'))
      · exact .inr (.inr ⟨hd', w, List.mem_append_left _ hw, hlt⟩)
    · exact .inr (.inl (h₂ hm))
    · exact .inr (.inr ⟨hd, w, List.mem_append_right _ hw, hlt⟩)

end Peer

theorem run_reported_twoSeconds :
    Peer.sample.lastMeasurements.Holds [] ∧
      ((Peer.sample.run PeerCall.twoSeconds).reported = Peer.sample.reported ∨
        (Peer.sample.run PeerCall.twoSeconds).reported ∈
          PeerCall.samples PeerCall.twoSeconds ++ [] ∨
        ((Peer.sample.run PeerCall.twoSeconds).reported = DUMMY.sample ∧
          ∃ w ∈ PeerCall.samples PeerCall.twoSeconds, MAX_DISPERSION < w.delay)) :=
  ⟨LastMeasurements.new_holds, Peer.run_reported LastMeasurements.new_holds _⟩

end Ntp
