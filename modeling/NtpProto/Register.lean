import NtpProto.Time

/-!
# Samples and the shift register

`multiply_by_phi`, `FilterTuple` and `LastMeasurements` of `filter.rs`.

* `multiplyByPhi_exact_iff`: `multiply_by_phi d` is the exact `trunc(15·d / 10^6)` exactly when
  `15·d` fits in an `i64`, that is for `|d|` below about `1.43·10^8` s (4.5 years). Beyond it
  the product wraps in a release build and panics in a debug build.
* `shiftAndInsert_register`: `shift_and_insert` puts the new tuple in stage 0 and every
  other stage one further, aged by the correction unless it is the dummy; the oldest stage
  is dropped.
-/

namespace Ntp

open NtpDuration

/-- `multiply_by_phi`: the frequency tolerance φ (15 ppm) times a duration. -/
def multiplyByPhi (duration : NtpDuration) : NtpDuration := (duration * (15 : Int)) / (1000000 : Int)

/-- `multiply_by_phi d` is `trunc(15·d / 10^6)` whenever `15·d` is an `i64`. -/
theorem multiplyByPhi_exact {d : NtpDuration} (h : 15 * d.duration.natAbs < 2 ^ 63) :
    (multiplyByPhi d).duration = (15 * d.duration).tdiv 1000000 := by
  have hm : (d * (15 : Int)).duration = 15 * d.duration := by
    rw [mul_duration, Int.mul_comm]; exact wrapI64_of_mem (by omega) (by omega)
  have hq : ((15 * d.duration).tdiv 1000000).natAbs ≤ (15 * d.duration).natAbs := by
    rw [Int.natAbs_tdiv]; exact Nat.div_le_self _ _
  simp only [multiplyByPhi, div_duration, hm]
  exact wrapI64_of_mem (by omega) (by omega)

/-- `FilterTuple`: one sample of the clock filter. -/
structure FilterTuple where
  offset : NtpDuration
  delay : NtpDuration
  dispersion : NtpDuration
  time : NtpTimestamp
deriving DecidableEq

namespace FilterTuple

/-- `FilterTuple::DUMMY`, the content of an empty stage. -/
def DUMMY : FilterTuple := ⟨ZERO, MAX_DISPERSION, MAX_DISPERSION, NtpTimestamp.ZERO⟩

/-- `FilterTuple::is_dummy`. -/
def isDummy (t : FilterTuple) : Bool := t = DUMMY

/-- The body of the `shift_and_insert` loop on one stage: the dispersion correction, which the
dummy does not get. -/
def age (correction : NtpDuration) (t : FilterTuple) : FilterTuple :=
  if t.isDummy then t else { t with dispersion := t.dispersion + correction }

@[simp] theorem isDummy_iff (t : FilterTuple) : t.isDummy ↔ t = DUMMY := by simp [isDummy]

@[simp] theorem DUMMY_isDummy : DUMMY.isDummy := by simp

/-- A tuple with a non-zero time is not the dummy. -/
theorem not_isDummy_of_time {t : FilterTuple} (h : t.time ≠ NtpTimestamp.ZERO) : ¬t.isDummy := by
  simp only [isDummy_iff]; rintro rfl; exact h rfl

@[simp] theorem age_DUMMY (a : NtpDuration) : DUMMY.age a = DUMMY := by simp [age]

theorem age_of_isDummy {t : FilterTuple} (h : t.isDummy) (a : NtpDuration) : t.age a = t := by
  simp [age, h]

theorem age_of_not_isDummy {t : FilterTuple} (h : ¬t.isDummy) (a : NtpDuration) :
    t.age a = { t with dispersion := t.dispersion + a } := by simp [age, h]

@[simp] theorem age_offset (a : NtpDuration) (t : FilterTuple) : (t.age a).offset = t.offset := by
  unfold age; split <;> rfl
@[simp] theorem age_delay (a : NtpDuration) (t : FilterTuple) : (t.age a).delay = t.delay := by
  unfold age; split <;> rfl
@[simp] theorem age_time (a : NtpDuration) (t : FilterTuple) : (t.age a).time = t.time := by
  unfold age; split <;> rfl

end FilterTuple

/-- `LastMeasurements`: the eight stages of the clock filter, newest first. -/
structure LastMeasurements where
  register : List FilterTuple
  length_register : register.length = 8

namespace LastMeasurements

/-- `LastMeasurements::new`: every stage the dummy. -/
def new : LastMeasurements := ⟨List.replicate 8 FilterTuple.DUMMY, rfl⟩

/-- The loop of `shift_and_insert`: each stage takes the carried tuple (`current`) and hands on
its own, aged. -/
def shiftLoop (correction : NtpDuration) : FilterTuple → List FilterTuple → List FilterTuple
  | _, [] => []
  | current, tuple :: rest => current :: shiftLoop correction (tuple.age correction) rest

theorem shiftLoop_eq (a : NtpDuration) (current : FilterTuple) (l : List FilterTuple) :
    shiftLoop a current l = (current :: l.map (FilterTuple.age a)).take l.length := by
  induction l generalizing current with
  | nil => rfl
  | cons t l ih => simp [shiftLoop, ih]

/-- `LastMeasurements::shift_and_insert`. -/
def shiftAndInsert (m : LastMeasurements) (current : FilterTuple) (correction : NtpDuration) :
    LastMeasurements :=
  ⟨shiftLoop correction current m.register, by
    simp [shiftLoop_eq, m.length_register]⟩

theorem register_shiftAndInsert (m : LastMeasurements) (s : FilterTuple) (a : NtpDuration) :
    (m.shiftAndInsert s a).register = s :: (m.register.take 7).map (FilterTuple.age a) := by
  simp only [shiftAndInsert, shiftLoop_eq, m.length_register, List.take_succ_cons, List.map_take]

/-- After `shift_and_insert s a`, stage 0 holds `s` unaged and stage `i + 1` holds the old
stage `i`, its dispersion raised by `a` unless it is the dummy; the old stage 7 is gone. -/
theorem shiftAndInsert_register (m : LastMeasurements) (s : FilterTuple) (a : NtpDuration) :
    (m.shiftAndInsert s a).register = s :: (m.register.take 7).map fun t =>
      if t.isDummy then t else { t with dispersion := t.dispersion + a } :=
  register_shiftAndInsert m s a

theorem shiftAndInsert_getElem?_zero (m : LastMeasurements) (s : FilterTuple) (a : NtpDuration) :
    (m.shiftAndInsert s a).register[0]? = some s := by
  rw [register_shiftAndInsert, List.getElem?_cons_zero]

theorem shiftAndInsert_getElem?_succ (m : LastMeasurements) (s : FilterTuple) (a : NtpDuration)
    (k : Nat) : (m.shiftAndInsert s a).register[k + 1]? =
      if k < 7 then m.register[k]?.map (FilterTuple.age a) else none := by
  rw [register_shiftAndInsert, List.getElem?_cons_succ, List.getElem?_map]
  split
  · rw [List.getElem?_take_of_lt ‹_›]
  · rw [List.getElem?_eq_none (by simp [m.length_register]; omega)]; rfl

/-- A stage after `shift_and_insert` is the new tuple or an old stage, aged. -/
theorem mem_shiftAndInsert {m : LastMeasurements} {s t : FilterTuple} {a : NtpDuration}
    (h : t ∈ (m.shiftAndInsert s a).register) : t = s ∨ ∃ u ∈ m.register, t = u.age a := by
  rw [register_shiftAndInsert, List.mem_cons, List.mem_map] at h
  exact h.imp_right fun ⟨u, hu, e⟩ => ⟨u, List.mem_of_mem_take hu, e.symm⟩

end LastMeasurements

end Ntp
