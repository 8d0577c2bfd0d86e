import NtpProto.Time

/-!
# Binary64 values

The jitter of a peer is computed in `f64` (`TemporaryList::jitter_help`) and turned back into a
duration by `NtpDuration::from_seconds` (`Peer::root_distance`). `f64` arithmetic and the two
conversions (in `time_types.rs`, outside this snapshot) are modelled from the spec (§4.3, §9:
IEEE-754 double):

* an `F64` is NaN, an infinity, or a finite value `m · 2^e`, kept exactly;
* every operation rounds its exact result once, to the nearest binary64 value with ties to
  even (`F64.round`), and overflows to an infinity;
* the sign of a zero is not kept: no function of the filter tells `-0.0` from `0.0`.
-/

namespace Ntp

inductive F64 where
  | nan
  | inf (neg : Bool)
  /-- The finite value `m · 2^e`. -/
  | finite (m : Int) (e : Int)
deriving DecidableEq

namespace F64

/-- `0.0`, the default `f64`. -/
def zero : F64 := finite 0 0

instance : Inhabited F64 := ⟨zero⟩

/-- The exponent `k` with `2^k ≤ n / d < 2^(k+1)`, for `n, d > 0`. -/
def binaryExponent (n d : Nat) : Int :=
  let l : Int := (n.log2 : Int) - d.log2
  if d * 2 ^ l.toNat ≤ n * 2 ^ (-l).toNat then l else l - 1

/-- The binary64 value nearest to `(n / d) · 2^e`, negated when `neg` (`d > 0`), ties to even.
Below `2^-1022` the last place is `2^-1074` (subnormals); from `2^1024` on the result is an
infinity. -/
def round (neg : Bool) (n d : Nat) (e : Int) : F64 :=
  if n = 0 then zero else
  -- the exponent of the last place of the result
  let u := max (binaryExponent n d + e) (-1022) - 52
  let s := u - e
  -- `(n / d) · 2^e = (num / den) · 2^u`
  let num := n * 2 ^ (-s).toNat
  let den := d * 2 ^ s.toNat
  let q := num / den
  let r := num % den
  let m := if 2 * r < den ∨ (2 * r = den ∧ q % 2 = 0) then q else q + 1
  if 0 ≤ u ∧ 2 ^ 1024 ≤ m * 2 ^ u.toNat then inf neg
  else finite (if neg then -(m : Int) else m) u

/-- `m · 2^e`, rounded. -/
def ofDyadic (m e : Int) : F64 := round (decide (m < 0)) m.natAbs 1 e

/-- `i as f64`. -/
def ofInt (i : Int) : F64 := ofDyadic i 0

def add : F64 → F64 → F64
  | nan, _ | _, nan => nan
  | inf a, inf b => if a = b then inf a else nan
  | inf a, finite _ _ | finite _ _, inf a => inf a
  | finite m₁ e₁, finite m₂ e₂ =>
    let e := min e₁ e₂
    ofDyadic (m₁ * 2 ^ (e₁ - e).toNat + m₂ * 2 ^ (e₂ - e).toNat) e

def mul : F64 → F64 → F64
  | nan, _ | _, nan => nan
  | inf a, inf b => inf (a != b)
  | inf a, finite m _ | finite m _, inf a => if m = 0 then nan else inf (a != decide (m < 0))
  | finite m₁ e₁, finite m₂ e₂ => ofDyadic (m₁ * m₂) (e₁ + e₂)

def div : F64 → F64 → F64
  | nan, _ | _, nan | inf _, inf _ => nan
  | inf a, finite m _ => inf (a != decide (m < 0))
  | finite _ _, inf _ => zero
  | finite m₁ e₁, finite m₂ e₂ =>
    if m₂ = 0 then (if m₁ = 0 then nan else inf (decide (m₁ < 0)))
    else round (decide (m₁ < 0) != decide (m₂ < 0)) m₁.natAbs m₂.natAbs (e₁ - e₂)

/-- `f64::sqrt`. For the operand `m' · 2^e'` with `e'` even and `N = m' · 4^55`, `⌊√N⌋` has at
least 56 bits, so an inexact `√N` rounds as `⌊√N⌋ + 1/2` does. -/
def sqrt : F64 → F64
  | nan | inf true => nan
  | inf false => inf false
  | finite m e =>
    if m < 0 then nan else
    let m' := if e % 2 = 0 then m.toNat else 2 * m.toNat
    let e' := if e % 2 = 0 then e else e - 1
    let N := m' * 4 ^ 55
    let s := N.sqrt
    round false (2 * s + if s * s = N then 0 else 1) 2 (e' / 2 - 55)

/-- `x < y` on the values; false when either is NaN. -/
def lt : F64 → F64 → Bool
  | nan, _ | _, nan => false
  | inf a, inf b => a && !b
  | inf a, finite _ _ => a
  | finite _ _, inf b => !b
  | finite m₁ e₁, finite m₂ e₂ =>
    let e := min e₁ e₂
    decide (m₁ * 2 ^ (e₁ - e).toNat < m₂ * 2 ^ (e₂ - e).toNat)

/-- `f64::max`: the other argument when one is NaN. -/
def max (x y : F64) : F64 :=
  match x, y with
  | nan, _ => y
  | _, nan => x
  | _, _ => if x.lt y then y else x

@[simp] theorem nan_max (y : F64) : nan.max y = y := by cases y <;> rfl

/-- `f64::powi(2)`. -/
def square (x : F64) : F64 := x.mul x

/-- `Iterator::sum::<f64>`: a left fold of `+` from `0.0`. -/
def sum (xs : List F64) : F64 := xs.foldl add zero

end F64

namespace NtpDuration

/-- Modelled from the spec: `NtpDuration::to_seconds`, `duration as f64 / 2^32`. -/
def toSeconds (d : NtpDuration) : F64 := (F64.ofInt d.duration).div (F64.ofInt (2 ^ 32))

@[simp] theorem toSeconds_ZERO : ZERO.toSeconds = F64.zero := by
  have h : F64.ofInt (2 ^ 32) = .finite (2 ^ 52) (-20) := by
    rw [F64.ofInt, F64.ofDyadic, F64.round, F64.binaryExponent]
    simp only [show ((2 : Int) ^ 32).natAbs = 2 ^ 32 from rfl, Nat.log2_two_pow,
      show Nat.log2 1 = 0 from Nat.log2_two_pow (n := 0)]
    decide
  rw [toSeconds, h]
  decide

/-- Clamp onto the `i64` range, as Rust's saturating float-to-integer `as` does. -/
def saturateI64 (x : Int) : Int := max (-2 ^ 63) (min x (2 ^ 63 - 1))

/-- Modelled from the spec: `NtpDuration::from_seconds`, `seconds · 2^32` converted by
`as i64`: truncated toward zero, saturated at the `i64` bounds, and zero for NaN. -/
def fromSeconds : F64 → NtpDuration
  | .nan => ZERO
  | .inf neg => ofInt (if neg then -2 ^ 63 else 2 ^ 63 - 1)
  | .finite m e =>
    ofInt (saturateI64
      (if 0 ≤ e + 32 then m * 2 ^ (e + 32).toNat else m.tdiv (2 ^ (-(e + 32)).toNat)))

@[simp] theorem fromSeconds_zero : fromSeconds F64.zero = ZERO := rfl

end NtpDuration

end Ntp
