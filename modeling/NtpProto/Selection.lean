import NtpProto.Association

/-!
# The intersection of correctness intervals

`construct_candidate_list` and `find_interval` of `filter.rs` (RFC 5905, A.5.5.1). Each peer
gives three edges, `offset + root_distance` (upper), `offset` (middle) and
`offset - root_distance` (lower), sorted by edge; `find_interval` scans them for the largest
intersection, allowing more falsetickers each round.

`n` is the length of the chime list, three edges for each of the `m` peers. In the lower scan
`chime` grows only at lower edges, so it never exceeds `m`, while `n - found` is at least
`3·m - m`: the scan never stops (`scan_lower_none`), and `find_interval` returns its initial
`low`, `2·10^9` s, for every list of peers (`findInterval_low`).

The initial `high`, `low * -164`, is about `-3.3·10^11` s, far outside the `i64` range: a debug
build stops at the multiplication on every call, and a release build wraps it to about
`-1.58·10^9` s, the `high` a call with no peers returns (`findInterval_high_overflow`).

Every round of the `allow` loop runs the same two scans from `found = 0`, against the threshold
`n - found`, which does not depend on `allow`: `find_interval` returns what its first round
computes, for every chime list (`findInterval_first_round`). With the edges below `2·10^9` s, as
the doc comment of `find_interval` says they are, its `high` is then an edge or the sentinel and
stays below `low`: the interval it returns is always empty (`findInterval_empty`).

`i32` and `usize` arithmetic wraps as in a release build (`wrapI32`). The upper scan goes on
counting midpoints from the lower scan's `found`, which can pass `n`; `n - found` then
underflows, and a debug build panics where the release build compares `chime` with a negative
threshold.
-/

namespace Ntp

open NtpDuration

/-- Two's-complement wrap onto the `i32` range, as `as i32` does. -/
def wrapI32 (x : Int) : Int := (x + 2 ^ 31) % 2 ^ 32 - 2 ^ 31

theorem wrapI32_of_mem {x : Int} (h₁ : -2 ^ 31 ≤ x) (h₂ : x < 2 ^ 31) : wrapI32 x = x := by
  unfold wrapI32; omega

/-- `EndpointType`. -/
inductive EndpointType where
  | upper
  | middle
  | lower
deriving DecidableEq, Repr

/-- `endpoint_type as i32`, its `repr(i8)` value. -/
def EndpointType.toInt : EndpointType → Int
  | .upper => 1
  | .middle => 0
  | .lower => -1

/-- `CandidateTuple`. The peer it borrows is read by neither function and is left out. -/
structure CandidateTuple where
  endpointType : EndpointType
  /-- Correctness interval edge -/
  edge : NtpDuration
deriving DecidableEq

/-- The order of `sort_by(|a, b| a.edge.cmp(&b.edge))`. -/
def EdgeLe (a b : CandidateTuple) : Prop := a.edge ≤ b.edge

instance : DecidableRel EdgeLe := fun a b => inferInstanceAs (Decidable (a.edge ≤ b.edge))

/-- `construct_candidate_list`: three edges per peer, then a stable sort by edge. -/
def constructCandidateList (validAssociations : List Peer) (localClockTime : NtpTimestamp) :
    List CandidateTuple :=
  (validAssociations.flatMap fun peer =>
    let offset := peer.statistics.offset
    [⟨.upper, offset + peer.rootDistance localClockTime⟩, ⟨.middle, offset⟩,
      ⟨.lower, offset - peer.rootDistance localClockTime⟩]).insertionSort EdgeLe

/-- One scan of `find_interval` (the lower one with `sign = -1` over the list, the upper one with
`sign = 1` over its reverse): `chime` moves by `sign · endpoint_type` at each tuple, and the scan
stops at the first tuple where `chime ≥ (n - found) as i32`, with that tuple's edge; `found`
counts the midpoints passed before. In a release build `n - found` wraps modulo `2^64` once
`found > n`, and `2^32` divides `2^64`, so the cast is `wrapI32` of the difference in `Int`. -/
def scan (sign : Int) (n : Nat) : List CandidateTuple → Int → Nat → Option NtpDuration × Nat
  | [], _, found => (none, found)
  | t :: ts, chime, found =>
    let chime := wrapI32 (chime + sign * t.endpointType.toInt)
    if chime ≥ wrapI32 ((n : Int) - found) then (some t.edge, found)
    else scan sign n ts chime (if t.endpointType = .middle then found + 1 else found)

/-- The `allow` loop of `find_interval` from the current `low` and `high`. Every round runs the
same two scans; only the comparison with `allow` changes. -/
def allowLoop (chimeList : List CandidateTuple) :
    List Nat → NtpDuration → NtpDuration → NtpDuration × NtpDuration
  | [], low, high => (low, high)
  | allow :: allows, low, high =>
    let n := chimeList.length
    let (lowEdge, found) := scan (-1) n chimeList 0 0
    let low := lowEdge.getD low
    let (highEdge, found) := scan 1 n chimeList.reverse 0 found
    let high := highEdge.getD high
    if found > allow then allowLoop chimeList allows low high
    else if high > low then (low, high)
    else allowLoop chimeList allows low high

/-- `find_interval`. `(0..).take_while(|allow| 2 * allow < n)` is the list of `allow < n` up to
the first with `2 · allow ≥ n`. -/
def findInterval (chimeList : List CandidateTuple) : NtpDuration × NtpDuration :=
  let n := chimeList.length
  let low := ONE * (2000000000 : Int)
  let high := low * (-164 : Int)
  allowLoop chimeList ((List.range n).takeWhile fun allow => 2 * allow < n) low high


/-- Three edges per peer, one of each type. -/
theorem countP_constructCandidateList (peers : List Peer) (t : NtpTimestamp) (e : EndpointType) :
    (constructCandidateList peers t).countP (fun c => c.endpointType = e) = peers.length := by
  rw [constructCandidateList, (List.perm_insertionSort _ _).countP_eq]
  induction peers with
  | nil => rfl
  | cons p ps ih => cases e <;> simp_all [List.countP_cons]

theorem length_constructCandidateList (peers : List Peer) (t : NtpTimestamp) :
    (constructCandidateList peers t).length = 3 * peers.length := by
  rw [constructCandidateList, (List.perm_insertionSort _ _).length_eq]
  induction peers with
  | nil => rfl
  | cons p ps ih => simp_all; omega

/-- A fresh peer asked at the start of 2026: the wrap-aware difference to its time `ZERO` makes
the aging term, and with it the root distance, negative, so its correctness interval is
inverted, the lower edge above the upper one. -/
theorem rootDistance_presentDay :
    Peer.sample.rootDistance .jan2026 < MIN_DISPERSION / (2 : Int) ∧
      (Peer.sample.rootDistance .jan2026).duration < 0 ∧
      constructCandidateList [Peer.sample] .jan2026 =
        [⟨.upper, ZERO + Peer.sample.rootDistance .jan2026⟩, ⟨.middle, ZERO⟩,
          ⟨.lower, ZERO - Peer.sample.rootDistance .jan2026⟩] := by
  decide

/-- A scan stops only at a tuple of the list, with that tuple's edge. -/
theorem scan_edge (sign : Int) (n : Nat) :
    ∀ (ts : List CandidateTuple) (c : Int) (f : Nat) (e : NtpDuration),
      (scan sign n ts c f).1 = some e → ∃ t ∈ ts, t.edge = e
  | [], _, _, _, h => by cases h
  | t :: ts, c, f, e, h => by
    simp only [scan] at h
    split at h
    · exact ⟨t, List.mem_cons_self _ _, Option.some.inj h⟩
    · obtain ⟨u, hu, rfl⟩ := scan_edge sign n ts _ _ e h
      exact ⟨u, List.mem_cons_of_mem _ hu, rfl⟩

/-- The lower scan does not stop while `chime` plus `found`, and all the lower edges and
midpoints still ahead, stay below `n`. -/
theorem scan_lower_none {n : Nat} (hn : n < 2 ^ 31) :
    ∀ (ts : List CandidateTuple) (c : Int) (f : Nat), -2 ^ 31 + ts.length ≤ c →
      f + ts.countP (fun t => t.endpointType = .middle) ≤ n →
      c + f + ts.countP (fun t => t.endpointType = .lower) +
        ts.countP (fun t => t.endpointType = .middle) < n →
      (scan (-1) n ts c f).1 = none
  | [], _, _, _, _, _ => rfl
  | t :: ts, c, f, hc, hf, hlt => by
    have hk : wrapI32 ((n : Int) - f) = n - f := wrapI32_of_mem (by omega) (by omega)
    simp only [List.length_cons, List.countP_cons] at hc hf hlt
    cases h : t.endpointType <;> simp [h] at hf hlt <;>
      simp only [scan, h, EndpointType.toInt, hk, reduceCtorEq, if_true, if_false] <;>
      rw [wrapI32_of_mem (by omega) (by omega), if_neg (by omega)] <;>
      exact scan_lower_none hn ts _ _ (by omega) (by omega) (by omega)

/-- When the lower scan never stops, no round of the `allow` loop moves `low`. -/
theorem allowLoop_low {chimeList : List CandidateTuple}
    (h : (scan (-1) chimeList.length chimeList 0 0).1 = none) :
    ∀ (allows : List Nat) (low high : NtpDuration), (allowLoop chimeList allows low high).1 = low
  | [], _, _ => rfl
  | a :: as, low, high => by
    simp only [allowLoop, h, Option.getD_none]
    split_ifs
    · exact allowLoop_low h as _ _
    · rfl
    · exact allowLoop_low h as _ _

/-- Once `low` and `high` are what the scans leave them, no round of the `allow` loop moves
them: every round runs the same two scans from the same start. -/
theorem allowLoop_scanned {chimeList : List CandidateTuple} {low high : NtpDuration}
    (hl : (scan (-1) chimeList.length chimeList 0 0).1.getD low = low)
    (hh : (scan 1 chimeList.length chimeList.reverse 0
      (scan (-1) chimeList.length chimeList 0 0).2).1.getD high = high) :
    ∀ allows, allowLoop chimeList allows low high = (low, high)
  | [] => rfl
  | _ :: as => by
    simp only [allowLoop, hl, hh]
    split_ifs
    · exact allowLoop_scanned hl hh as
    · rfl
    · exact allowLoop_scanned hl hh as

/-- A loop of at least one round ends with its first round's `low` and `high`, whether it stops
there or runs on. -/
theorem allowLoop_first_round (chimeList : List CandidateTuple) (a : Nat) (as : List Nat)
    (low high : NtpDuration) :
    allowLoop chimeList (a :: as) low high =
      ((scan (-1) chimeList.length chimeList 0 0).1.getD low,
        (scan 1 chimeList.length chimeList.reverse 0
          (scan (-1) chimeList.length chimeList 0 0).2).1.getD high) := by
  have hd : ∀ (o : Option NtpDuration) x, o.getD (o.getD x) = o.getD x := fun o x => by
    cases o <;> rfl
  simp only [allowLoop]
  split_ifs
  · exact allowLoop_scanned (hd _ _) (hd _ _) as
  · rfl
  · exact allowLoop_scanned (hd _ _) (hd _ _) as

/-- For every list of fewer than `2^31 / 3` peers, `find_interval` of their chime list returns
its initial `low`, `2·10^9` s: the lower scan never stops. -/
theorem findInterval_low (peers : List Peer) (t : NtpTimestamp) (h : 3 * peers.length < 2 ^ 31) :
    (findInterval (constructCandidateList peers t)).1 = ONE * (2000000000 : Int) := by
  refine allowLoop_low ?_ _ _ _
  by_cases hm : peers = []
  · subst hm; rfl
  have hm := List.length_pos.mpr hm
  have hl := length_constructCandidateList peers t
  have hc := countP_constructCandidateList peers t
  exact scan_lower_none (by omega) _ 0 0 (by omega) (by rw [hc]; omega)
    (by rw [hc, hc]; omega)

theorem findInterval_low_sample :
    3 * [Peer.sample].length < 2 ^ 31 ∧
      (findInterval (constructCandidateList [Peer.sample] .ZERO)).1 = ONE * (2000000000 : Int) :=
  ⟨by decide, findInterval_low _ _ (by decide)⟩

/-- The one correctness interval of that list is `[-2^15, 2^15]` ticks. -/
example : constructCandidateList [Peer.sample] .ZERO =
    [⟨.lower, ofInt (-2 ^ 15)⟩, ⟨.middle, ZERO⟩, ⟨.upper, ofInt (2 ^ 15)⟩] := by
  decide

/-- The `high` sentinel: the exact product `2^32 · 2·10^9 · (-164)` is below `i64::MIN`, and the
wrapped value is what `find_interval` returns for no peers. -/
theorem findInterval_high_overflow (t : NtpTimestamp) :
    (ONE * (2000000000 : Int)).duration * -164 < -2 ^ 63 ∧
      findInterval (constructCandidateList [] t) =
        (ONE * (2000000000 : Int), ofInt (-1582485504 * 2 ^ 32)) :=
  ⟨by decide, rfl⟩

/-- The `allow` loop never changes the result: for every chime list, `find_interval` returns
what its first round computes from the two sentinels, whatever falsetickers it would allow. -/
theorem findInterval_first_round (chimeList : List CandidateTuple) :
    findInterval chimeList =
      ((scan (-1) chimeList.length chimeList 0 0).1.getD (ONE * (2000000000 : Int)),
        (scan 1 chimeList.length chimeList.reverse 0
          (scan (-1) chimeList.length chimeList 0 0).2).1.getD
          (ONE * (2000000000 : Int) * (-164 : Int))) := by
  cases chimeList with
  | nil => rfl
  | cons t ts =>
    rw [findInterval, List.length_cons, List.range_succ_eq_map,
      List.takeWhile_cons_of_pos (by simp)]
    exact allowLoop_first_round _ _ _ _ _

/-- Four midpoints and a lower edge: the lower scan stops at the lower edge with `found = 4`, and
the upper scan counts two more midpoints and stops at the third, where `(n - found) as i32` has
wrapped to `-1`. -/
example : findInterval [⟨.middle, ofInt 1⟩, ⟨.middle, ofInt 2⟩, ⟨.middle, ofInt 3⟩,
    ⟨.middle, ofInt 4⟩, ⟨.lower, ofInt 5⟩] = (ofInt 5, ofInt 2) := by
  decide

/-- With every edge below `2·10^9` s, as the timestamp calculations keep them (the doc comment of
`find_interval`), and fewer than `2^31 / 3` peers, `find_interval` returns its initial `low` and
a `high` below it: the interval is empty for every list of peers, so no intersection is ever
found. -/
theorem findInterval_empty (peers : List Peer) (t : NtpTimestamp) (h : 3 * peers.length < 2 ^ 31)
    (hedge : ∀ c ∈ constructCandidateList peers t, c.edge < ONE * (2000000000 : Int)) :
    (findInterval (constructCandidateList peers t)).1 = ONE * (2000000000 : Int) ∧
      (findInterval (constructCandidateList peers t)).2 <
        (findInterval (constructCandidateList peers t)).1 := by
  cases hl : constructCandidateList peers t with
  | nil => exact ⟨rfl, by decide⟩
  | cons c cs =>
    have hlow : (scan (-1) (c :: cs).length (c :: cs) 0 0).1 = none := by
      have hm : peers ≠ [] := fun h0 => by simp [h0, constructCandidateList] at hl
      have hlen := length_constructCandidateList peers t
      have hc := countP_constructCandidateList peers t
      rw [hl] at hlen hc
      have := List.length_pos.mpr hm
      exact scan_lower_none (by omega) _ 0 0 (by omega) (by rw [hc]; omega)
        (by rw [hc, hc]; omega)
    rw [findInterval, List.length_cons, List.range_succ_eq_map,
      List.takeWhile_cons_of_pos (by simp), allowLoop_first_round, hlow]
    refine ⟨rfl, ?_⟩
    -- `high` is the sentinel or the edge where the upper scan stopped
    cases hh : (scan 1 (c :: cs).length (c :: cs).reverse 0
      (scan (-1) (c :: cs).length (c :: cs) 0 0).2).1 with
    | none => exact (by decide : ONE * (2000000000 : Int) * (-164 : Int) < ONE * (2000000000 : Int))
    | some e =>
      obtain ⟨u, hu, rfl⟩ := scan_edge _ _ _ _ _ _ hh
      exact hedge u (hl ▸ List.mem_reverse.mp hu)

theorem findInterval_empty_sample :
    3 * [Peer.sample].length < 2 ^ 31 ∧
      (∀ c ∈ constructCandidateList [Peer.sample] .ZERO, c.edge < ONE * (2000000000 : Int)) ∧
      (findInterval (constructCandidateList [Peer.sample] .ZERO)).1 = ONE * (2000000000 : Int) ∧
      (findInterval (constructCandidateList [Peer.sample] .ZERO)).2 <
        (findInterval (constructCandidateList [Peer.sample] .ZERO)).1 :=
  ⟨by decide, by decide, findInterval_empty _ _ (by decide) (by decide)⟩

end Ntp
