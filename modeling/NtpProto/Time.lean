import Mathlib

/-!
# NTP timestamps and durations

`NtpTimestamp` and `NtpDuration` are declared in `ntp-proto/src/time_types.rs`, which this
snapshot does not contain; both are modelled from the spec (§3, §4.1):

* a timestamp is an unsigned 64-bit count of `2^-32` s since the NTP epoch, ordered as an
  unsigned integer;
* a duration is a signed 64-bit count of the same unit; its arithmetic is two's-complement
  (`wrapI64`), so an overflowing result wraps as in a release build;
* the difference of two timestamps is the wrapping `u64` difference read as an `i64`
  (`sub_duration`): the true difference only while the two are less than `2^63` ticks apart.
-/

namespace Ntp

/-- Two's-complement wrap of an integer onto the `i64` range `[-2^63, 2^63)`. -/
def wrapI64 (x : Int) : Int := (x + 2 ^ 63) % 2 ^ 64 - 2 ^ 63

theorem le_wrapI64 (x : Int) : -2 ^ 63 ≤ wrapI64 x := by unfold wrapI64; omega

theorem wrapI64_lt (x : Int) : wrapI64 x < 2 ^ 63 := by unfold wrapI64; omega

/-- A value in range does not wrap. -/
theorem wrapI64_of_mem {x : Int} (h₁ : -2 ^ 63 ≤ x) (h₂ : x < 2 ^ 63) : wrapI64 x = x := by
  unfold wrapI64; omega

/-- Modelled from the spec: `NtpDuration`, a signed 64-bit count of `2^-32` s. -/
structure NtpDuration where
  duration : Int
  le_duration : -2 ^ 63 ≤ duration
  duration_lt : duration < 2 ^ 63
deriving DecidableEq

namespace NtpDuration

@[ext] theorem ext {a b : NtpDuration} (h : a.duration = b.duration) : a = b := by
  cases a; cases b; cases h; rfl

/-- The duration with the `i64` representation of `x` (its two's-complement wrap). -/
def ofInt (x : Int) : NtpDuration := ⟨wrapI64 x, le_wrapI64 x, wrapI64_lt x⟩

@[simp] theorem ofInt_duration (x : Int) : (ofInt x).duration = wrapI64 x := rfl

theorem ofInt_of_mem {x : Int} (h₁ : -2 ^ 63 ≤ x) (h₂ : x < 2 ^ 63) : (ofInt x).duration = x :=
  wrapI64_of_mem h₁ h₂

def ZERO : NtpDuration := ofInt 0
/-- One second. -/
def ONE : NtpDuration := ofInt (2 ^ 32)
/-- Modelled from the spec: `MAX_DISPERSION`, 16 s. -/
def MAX_DISPERSION : NtpDuration := ofInt (16 * 2 ^ 32)
/-- Modelled from the spec: `MIN_DISPERSION`, about `2^-16` s. -/
def MIN_DISPERSION : NtpDuration := ofInt (2 ^ 16)

instance : Inhabited NtpDuration := ⟨ZERO⟩
instance : Add NtpDuration := ⟨fun a b => ofInt (a.duration + b.duration)⟩
instance : Sub NtpDuration := ⟨fun a b => ofInt (a.duration - b.duration)⟩
/-- `duration * i64`. -/
instance : HMul NtpDuration Int NtpDuration := ⟨fun a k => ofInt (a.duration * k)⟩
/-- `duration / i64`: truncating division, as Rust's `/` on `i64`. -/
instance : HDiv NtpDuration Int NtpDuration := ⟨fun a k => ofInt (a.duration.tdiv k)⟩
instance : LE NtpDuration := ⟨fun a b => a.duration ≤ b.duration⟩
instance : LT NtpDuration := ⟨fun a b => a.duration < b.duration⟩
instance (a b : NtpDuration) : Decidable (a ≤ b) :=
  inferInstanceAs (Decidable (a.duration ≤ b.duration))
instance (a b : NtpDuration) : Decidable (a < b) :=
  inferInstanceAs (Decidable (a.duration < b.duration))
/-- `Ord::max`: the second argument when they compare equal. -/
instance : Max NtpDuration := maxOfLe
/-- `Ord::min`: the first argument when they compare equal. -/
instance : Min NtpDuration := minOfLe

/-- `NtpDuration::divided_by`. -/
def dividedBy (d : NtpDuration) (n : Int) : NtpDuration := d / n

@[simp] theorem ZERO_duration : ZERO.duration = 0 := rfl
@[simp] theorem ONE_duration : ONE.duration = 2 ^ 32 := rfl
@[simp] theorem MAX_DISPERSION_duration : MAX_DISPERSION.duration = 16 * 2 ^ 32 := rfl
@[simp] theorem MIN_DISPERSION_duration : MIN_DISPERSION.duration = 2 ^ 16 := rfl
@[simp] theorem default_eq : (default : NtpDuration) = ZERO := rfl
@[simp] theorem add_duration (a b : NtpDuration) :
    (a + b).duration = wrapI64 (a.duration + b.duration) := rfl
@[simp] theorem sub_duration (a b : NtpDuration) :
    (a - b).duration = wrapI64 (a.duration - b.duration) := rfl

@[simp] theorem sub_self_eq_ZERO (a : NtpDuration) : a - a = ZERO := by
  ext; simp [wrapI64]
@[simp] theorem mul_duration (a : NtpDuration) (k : Int) :
    (a * k).duration = wrapI64 (a.duration * k) := rfl
@[simp] theorem div_duration (a : NtpDuration) (k : Int) :
    (a / k).duration = wrapI64 (a.duration.tdiv k) := rfl
@[simp] theorem le_iff (a b : NtpDuration) : a ≤ b ↔ a.duration ≤ b.duration := Iff.rfl
@[simp] theorem lt_iff (a b : NtpDuration) : a < b ↔ a.duration < b.duration := Iff.rfl

theorem max_def (a b : NtpDuration) : max a b = if a ≤ b then b else a := rfl
theorem min_def (a b : NtpDuration) : min a b = if a ≤ b then a else b := rfl

@[simp] theorem max_duration (a b : NtpDuration) :
    (max a b).duration = max a.duration b.duration :=
  apply_ite duration (a ≤ b) b a

@[simp] theorem min_duration (a b : NtpDuration) :
    (min a b).duration = min a.duration b.duration :=
  apply_ite duration (a ≤ b) a b

/-- A sum of two durations is their exact sum when that sum is in range. -/
theorem add_duration_of_mem {a b : NtpDuration} (h₁ : -2 ^ 63 ≤ a.duration + b.duration)
    (h₂ : a.duration + b.duration < 2 ^ 63) : (a + b).duration = a.duration + b.duration :=
  wrapI64_of_mem h₁ h₂

/-- Modelled from the spec: `NtpDuration::from_exponent`, `2^e` seconds, saturated to the
largest duration above `2^30` s and truncated to zero ticks below `2^-32` s. -/
def fromExponent (e : Int) : NtpDuration :=
  if 30 < e then ofInt (2 ^ 63 - 1)
  else if e < -32 then ZERO
  else ofInt (2 ^ (e + 32).toNat : Nat)

end NtpDuration

/-- Modelled from the spec: `NtpTimestamp`, an unsigned 64-bit count of `2^-32` s since the
NTP epoch. -/
structure NtpTimestamp where
  timestamp : Nat
  timestamp_lt : timestamp < 2 ^ 64
deriving DecidableEq

namespace NtpTimestamp

@[ext] theorem ext {a b : NtpTimestamp} (h : a.timestamp = b.timestamp) : a = b := by
  cases a; cases b; cases h; rfl

def ZERO : NtpTimestamp := ⟨0, by decide⟩

instance : Inhabited NtpTimestamp := ⟨ZERO⟩

/-- `a - b`: the wrapping `u64` difference read as an `i64`. -/
instance : HSub NtpTimestamp NtpTimestamp NtpDuration :=
  ⟨fun a b => .ofInt (a.timestamp - b.timestamp)⟩

/-- `a + d`: a wrapping `u64` addition of the duration's two's-complement bits. -/
instance : HAdd NtpTimestamp NtpDuration NtpTimestamp :=
  ⟨fun a d => ⟨((a.timestamp + d.duration) % 2 ^ 64).toNat, by omega⟩⟩

/-- Timestamps compare as unsigned integers. -/
instance : LE NtpTimestamp := ⟨fun a b => a.timestamp ≤ b.timestamp⟩
instance : LT NtpTimestamp := ⟨fun a b => a.timestamp < b.timestamp⟩
instance (a b : NtpTimestamp) : Decidable (a ≤ b) :=
  inferInstanceAs (Decidable (a.timestamp ≤ b.timestamp))
instance (a b : NtpTimestamp) : Decidable (a < b) :=
  inferInstanceAs (Decidable (a.timestamp < b.timestamp))

@[simp] theorem ZERO_timestamp : ZERO.timestamp = 0 := rfl
@[simp] theorem default_eq : (default : NtpTimestamp) = ZERO := rfl
@[simp] theorem sub_duration (a b : NtpTimestamp) :
    (a - b).duration = wrapI64 ((a.timestamp : Int) - b.timestamp) := rfl
@[simp] theorem add_timestamp (a : NtpTimestamp) (d : NtpDuration) :
    (a + d).timestamp = (((a.timestamp : Int) + d.duration) % 2 ^ 64).toNat := rfl
@[simp] theorem le_iff (a b : NtpTimestamp) : a ≤ b ↔ a.timestamp ≤ b.timestamp := Iff.rfl
@[simp] theorem lt_iff (a b : NtpTimestamp) : a < b ↔ a.timestamp < b.timestamp := Iff.rfl

/-- Moving a timestamp by a duration moves its wrap-aware difference to any other timestamp by
the same duration, wrapped. -/
theorem add_sub_duration (a b : NtpTimestamp) (x : NtpDuration) :
    (a + x - b).duration = wrapI64 ((a - b).duration + x.duration) := by
  have := a.timestamp_lt; have := b.timestamp_lt
  simp only [sub_duration, add_timestamp, wrapI64]
  omega

theorem sub_add_duration (a b : NtpTimestamp) (x : NtpDuration) :
    (a - (b + x)).duration = wrapI64 ((a - b).duration - x.duration) := by
  have := a.timestamp_lt; have := b.timestamp_lt
  simp only [sub_duration, add_timestamp, wrapI64]
  omega

@[simp] theorem sub_self_duration (a : NtpTimestamp) : (a - a).duration = 0 := by
  simp [wrapI64]

/-- A timestamp moved by `x` ticks, `x` in the `i64` range, is `x` ticks after the original. -/
theorem add_ofInt_sub_self (a : NtpTimestamp) {x : Int} (h₁ : -2 ^ 63 ≤ x) (h₂ : x < 2 ^ 63) :
    (a + NtpDuration.ofInt x - a).duration = x := by
  rw [add_sub_duration, sub_self_duration, Int.zero_add, NtpDuration.ofInt_of_mem h₁ h₂,
    wrapI64_of_mem h₁ h₂]

/-- A forward move that stays inside the era does not move a timestamp earlier. -/
theorem le_add (t : NtpTimestamp) {x : NtpDuration} (h₀ : 0 ≤ x.duration)
    (h : t.timestamp + x.duration < 2 ^ 64) : t ≤ t + x := by
  show t.timestamp ≤ (((t.timestamp : Int) + x.duration) % 2 ^ 64).toNat
  omega

end NtpTimestamp

end Ntp
