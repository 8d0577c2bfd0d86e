import NtpProto.Float
import NtpProto.Register

/-!
# The delay-sorted view of the register

`TemporaryList` of `filter.rs`: a copy of the eight stages sorted by delay, carrying the
source's invariant (sorted by increasing delay) as a field.

`sort_by` is a stable sort, and its comparison of two `i64` delays never fails, so the copy is
the stable sort of the stages by delay, which `List.insertionSort` computes.

* `fromClockFilterContents_append`: stages whose delays are at most the dummies' sort before
  the dummies that follow them; `validTuples_append` is then exactly those stages.
* A stage of larger delay than `MAX_DISPERSION` sorts after the dummies, and `validTuples` then
  keeps the dummies (`Peer.sorted_fresh_of_gt` in `FilterRun`).
* `mem_validTuples`: `valid_tuples` drops only the trailing run of dummies, so every real stage
  is valid. `validTuples_real`: when every real stage has a delay below `MAX_DISPERSION`, the
  valid tuples are exactly the real stages, sorted, wherever the dummies stood.
* `smallestDelay_split`: `smallest_delay` is the newest stage of least delay: the stages before
  it in the register have larger delays, those after it no smaller ones.
* `registerDispersion_no_overflow`: the loop of `dispersion` is the exact sum of its terms
  `trunc(dispersion_i / 2^(i+1))` over any stages: the `k`-th partial sum stays below
  `2^63 - 2^63/2^k` in size (`foldl_dispersion_exact`). With every dispersion in `[0, D]` the
  result lies in `[0, D·(1 - 2^-8)]`.
-/

namespace Ntp

open NtpDuration FilterTuple

/-- `t₁` sorts no later than `t₂` in `from_clock_filter_contents`. -/
def DelayLe (t₁ t₂ : FilterTuple) : Prop := t₁.delay ≤ t₂.delay

instance : DecidableRel DelayLe := fun t₁ t₂ => inferInstanceAs (Decidable (t₁.delay ≤ t₂.delay))

instance : IsTotal FilterTuple DelayLe := ⟨fun a b => Int.le_total a.delay.duration b.delay.duration⟩

instance : IsTrans FilterTuple DelayLe := ⟨fun _ _ _ h₁ h₂ => Int.le_trans h₁ h₂⟩

/-- `TemporaryList`. -/
structure TemporaryList where
  register : List FilterTuple
  length_register : register.length = 8
  /-- Invariant: this array is always sorted by increasing delay. -/
  sorted_register : register.Sorted DelayLe

namespace TemporaryList

/-- `TemporaryList::from_clock_filter_contents`. -/
def fromClockFilterContents (source : LastMeasurements) : TemporaryList :=
  ⟨source.register.insertionSort DelayLe,
    by rw [(List.perm_insertionSort _ _).length_eq, source.length_register],
    List.sorted_insertionSort _ _⟩

/-- `TemporaryList::smallest_delay`. -/
def smallestDelay (l : TemporaryList) : FilterTuple :=
  l.register.get ⟨0, by rw [l.length_register]; decide⟩

/-- `TemporaryList::valid_tuples`: the prefix before the trailing run of dummies. The `usize`
subtraction cannot underflow: the run is part of the register. -/
def validTuples (l : TemporaryList) : List FilterTuple :=
  let numInvalidTuples := (l.register.reverse.takeWhile FilterTuple.isDummy).length
  let numValidTuples := l.register.length - numInvalidTuples
  l.register.take numValidTuples

/-- The loop of `TemporaryList::dispersion` over any list of stages: stage `i` contributes its
dispersion divided by `2^(i+1)`, and the terms are added from the left, from zero. -/
def registerDispersion (register : List FilterTuple) : NtpDuration :=
  (register.enum.map fun (i, t) => t.dispersion / ((2 : Int) ^ (i + 1))).foldl (· + ·) default

/-- `TemporaryList::dispersion`: `Σ dispersion_i / 2^(i+1)` over the register. -/
def dispersion (l : TemporaryList) : NtpDuration := registerDispersion l.register

/-- `TemporaryList::jitter_help`. `(valid_tuples.len() - 1) as f64` is a `usize` subtraction,
kept with its wrap. -/
def jitterHelp (validTuples : List FilterTuple) (smallestDelay : FilterTuple)
    (systemPrecision : F64) : F64 :=
  let rootMeanSquare :=
    (F64.sum (validTuples.map fun t => (t.offset - smallestDelay.offset).toSeconds.square)).sqrt
  let jitter := rootMeanSquare.div (F64.ofInt (((validTuples.length : Int) - 1) % 2 ^ 64))
  jitter.max systemPrecision

/-- `TemporaryList::jitter`. -/
def jitter (l : TemporaryList) (smallestDelay : FilterTuple) (systemPrecision : F64) : F64 :=
  jitterHelp l.validTuples smallestDelay systemPrecision

/-- One valid tuple, the selected one: the root mean square is `0.0`, the division by
`valid_tuples.len() - 1 = 0` gives NaN, and `f64::max` then returns the system precision. -/
theorem jitterHelp_single (t : FilterTuple) (systemPrecision : F64) :
    jitterHelp [t] t systemPrecision = systemPrecision := by
  rw [jitterHelp, List.map_singleton, sub_self_eq_ZERO, toSeconds_ZERO, List.length_singleton,
    show (F64.sum [F64.zero.square]).sqrt.div (F64.ofInt ((((1 : Nat) : Int) - 1) % 2 ^ 64)) =
      F64.nan by decide, F64.nan_max]

@[simp] theorem fromClockFilterContents_register (source : LastMeasurements) :
    (fromClockFilterContents source).register = source.register.insertionSort DelayLe := rfl

theorem smallestDelay_mem (l : TemporaryList) : l.smallestDelay ∈ l.register := List.get_mem _ _ _

theorem mem_fromClockFilterContents {m : LastMeasurements} {t : FilterTuple} :
    t ∈ (fromClockFilterContents m).register ↔ t ∈ m.register :=
  (List.perm_insertionSort _ _).mem_iff

theorem smallestDelay_eq {l : TemporaryList} {t : FilterTuple} {rest : List FilterTuple}
    (h : l.register = t :: rest) : l.smallestDelay = t := by
  simp [smallestDelay, h]

/-- The smallest delay is the delay of no stage larger. -/
theorem smallestDelay_le (l : TemporaryList) {t : FilterTuple} (ht : t ∈ l.register) :
    l.smallestDelay.delay ≤ t.delay := by
  obtain ⟨t₀, rest, h⟩ := List.exists_cons_of_length_eq_add_one l.length_register
  have hs := l.sorted_register
  rw [h] at hs ht
  rw [smallestDelay_eq h]
  rcases List.mem_cons.mp ht with rfl | ht
  · exact Int.le_refl _
  · exact List.rel_of_sorted_cons hs t ht

end TemporaryList

/-! ## Sorting real stages against dummies -/

/-- Inserting an element no later than every element of `ys` into `xs ++ ys` stays in `xs`. -/
theorem orderedInsert_append {a : FilterTuple} {xs ys : List FilterTuple}
    (h : ∀ y ∈ ys, DelayLe a y) :
    xs.orderedInsert DelayLe a ++ ys = (xs ++ ys).orderedInsert DelayLe a := by
  induction xs with
  | nil => cases ys with
    | nil => rfl
    | cons y ys => simp [List.orderedInsert, h y (List.mem_cons_self _ _)]
  | cons x xs ih => simp only [List.orderedInsert, List.cons_append]; split <;> simp [ih]

/-- Stages that each sort no later than every stage of `ys` are sorted apart from `ys`. -/
theorem insertionSort_append {xs ys : List FilterTuple} (h : ∀ x ∈ xs, ∀ y ∈ ys, DelayLe x y) :
    (xs ++ ys).insertionSort DelayLe = xs.insertionSort DelayLe ++ ys.insertionSort DelayLe := by
  induction xs with
  | nil => rfl
  | cons x xs ih =>
    rw [List.cons_append, List.insertionSort, ih (fun x' hx' => h x' (List.mem_cons_of_mem _ hx')),
      List.insertionSort, orderedInsert_append]
    exact fun y hy => h x (List.mem_cons_self _ _) y ((List.perm_insertionSort _ _).subset hy)

theorem insertionSort_dummies (k : Nat) :
    (List.replicate k DUMMY).insertionSort DelayLe = List.replicate k DUMMY :=
  List.Sorted.insertionSort_eq (List.pairwise_replicate.mpr (.inr (Int.le_refl _)))

theorem takeWhile_isDummy_append {xs : List FilterTuple} (hxs : ∀ x ∈ xs.getLast?, ¬x.isDummy)
    (k : Nat) :
    ((xs ++ List.replicate k DUMMY).reverse.takeWhile isDummy).length = k := by
  rw [List.reverse_append, List.reverse_replicate, List.takeWhile_append_of_pos (by simp)]
  cases h : xs.reverse with
  | nil => simp
  | cons x rest =>
    have : ¬x.isDummy := hxs x (by simp [List.getLast?_eq_head?_reverse, h])
    simp [List.takeWhile, this]

/-- Inserting past stages that sort strictly before the new one. -/
theorem orderedInsert_append_of_not_le {a : FilterTuple} {xs ys : List FilterTuple}
    (h : ∀ x ∈ xs, ¬DelayLe a x) :
    (xs ++ ys).orderedInsert DelayLe a = xs ++ ys.orderedInsert DelayLe a := by
  induction xs with
  | nil => rfl
  | cons x xs ih =>
    rw [List.cons_append, List.orderedInsert, if_neg (h x (List.mem_cons_self _ _)),
      ih fun y hy => h y (List.mem_cons_of_mem _ hy), List.cons_append]

/-- When every real stage has a delay below `MAX_DISPERSION`, sorting puts the real stages
first, in their own sorted order, and every dummy after them, wherever the dummies stood. -/
theorem insertionSort_real_dummies {l : List FilterTuple}
    (h : ∀ t ∈ l, ¬t.isDummy → t.delay < MAX_DISPERSION) :
    l.insertionSort DelayLe =
      (l.filter fun t => !t.isDummy).insertionSort DelayLe ++
        List.replicate (l.countP isDummy) DUMMY := by
  induction l with
  | nil => rfl
  | cons a l ih =>
    rw [List.insertionSort, ih fun t ht => h t (List.mem_cons_of_mem _ ht), List.filter_cons,
      List.countP_cons]
    by_cases ha : a.isDummy
    · have hreal : ∀ x ∈ (l.filter fun t => !t.isDummy).insertionSort DelayLe,
          ¬DelayLe DUMMY x := by
        intro x hx
        rw [(List.perm_insertionSort _ _).mem_iff, List.mem_filter] at hx
        have := h x (List.mem_cons_of_mem _ hx.1) (by simpa [isDummy] using hx.2)
        simp only [DelayLe, DUMMY, le_iff, lt_iff, MAX_DISPERSION_duration] at this ⊢
        omega
      rw [(isDummy_iff a).mp ha, orderedInsert_append_of_not_le hreal]
      cases l.countP isDummy <;> simp [List.replicate_succ, List.orderedInsert, DelayLe]
    · have hd := h a (List.mem_cons_self _ _) ha
      rw [if_pos (by simpa [isDummy] using ha), if_neg ha, Nat.add_zero, List.insertionSort,
        orderedInsert_append]
      intro y hy
      rw [List.eq_of_mem_replicate hy]
      exact Int.le_of_lt hd

namespace TemporaryList

/-- Stages of delay at most `MAX_DISPERSION` followed by dummies: the sorted view keeps the
stages' own sorted order before the dummies. -/
theorem fromClockFilterContents_append {m : LastMeasurements} {xs : List FilterTuple} {k : Nat}
    (hm : m.register = xs ++ List.replicate k DUMMY) (hd : ∀ x ∈ xs, x.delay ≤ MAX_DISPERSION) :
    (fromClockFilterContents m).register = xs.insertionSort DelayLe ++ List.replicate k DUMMY := by
  rw [fromClockFilterContents_register, hm, insertionSort_append, insertionSort_dummies]
  intro x hx y hy
  rw [List.eq_of_mem_replicate hy]
  exact hd x hx

/-- The valid tuples of such a view are the non-dummy stages, sorted. -/
theorem validTuples_append {m : LastMeasurements} {xs : List FilterTuple} {k : Nat}
    (hm : m.register = xs ++ List.replicate k DUMMY) (hd : ∀ x ∈ xs, x.delay ≤ MAX_DISPERSION)
    (hx : ∀ x ∈ xs, ¬x.isDummy) :
    (fromClockFilterContents m).validTuples = xs.insertionSort DelayLe := by
  have hl : (xs.insertionSort DelayLe).length + k = 8 := by
    rw [(List.perm_insertionSort _ _).length_eq, ← List.length_replicate k DUMMY, ← List.length_append,
      ← hm, m.length_register]
  have hlast : ∀ x ∈ (xs.insertionSort DelayLe).getLast?, ¬x.isDummy := fun x hx' =>
    hx x ((List.perm_insertionSort _ _).subset (List.mem_of_getLast?_eq_some hx'))
  simp only [validTuples, fromClockFilterContents_append hm hd, takeWhile_isDummy_append hlast,
    List.length_append, List.length_replicate, Nat.add_sub_cancel, List.take_left]

theorem length_validTuples_le (l : TemporaryList) : l.validTuples.length ≤ 8 :=
  (List.length_take_le' _ _).trans_eq l.length_register

/-- `valid_tuples` drops only the trailing run of dummies: every real stage is valid. -/
theorem mem_validTuples {l : TemporaryList} {t : FilterTuple} (ht : t ∈ l.register)
    (hn : ¬t.isDummy) : t ∈ l.validTuples := by
  have hdrop : ∀ u ∈ l.register.drop (l.register.length -
      (l.register.reverse.takeWhile isDummy).length), u.isDummy := by
    intro u hu
    rw [← List.mem_reverse, ← List.take_reverse,
      ← List.prefix_iff_eq_take.mp (List.takeWhile_prefix _)] at hu
    exact List.mem_takeWhile_imp hu
  rw [← List.take_append_drop (l.register.length -
    (l.register.reverse.takeWhile isDummy).length) l.register, List.mem_append] at ht
  exact ht.resolve_right fun h => hn (hdrop t h)

/-- `valid_tuples` of any register whose real stages all have delays below `MAX_DISPERSION`:
exactly the real stages, sorted by delay, wherever the dummies stood. -/
theorem validTuples_real {m : LastMeasurements}
    (h : ∀ t ∈ m.register, ¬t.isDummy → t.delay < MAX_DISPERSION) :
    (fromClockFilterContents m).validTuples =
      (m.register.filter fun t => !t.isDummy).insertionSort DelayLe := by
  have hlast : ∀ x ∈ ((m.register.filter fun t => !t.isDummy).insertionSort DelayLe).getLast?,
      ¬x.isDummy := fun x hx => by
    have := (List.perm_insertionSort _ _).subset (List.mem_of_getLast?_eq_some hx)
    simpa [isDummy] using (List.mem_filter.mp this).2
  simp only [validTuples, fromClockFilterContents_register, insertionSort_real_dummies h,
    takeWhile_isDummy_append hlast, List.length_append, List.length_replicate, Nat.add_sub_cancel,
    List.take_left]

theorem validTuples_real_interleaved :
    let s : FilterTuple := ⟨ZERO, ONE, ZERO, ⟨2 ^ 32, by decide⟩⟩
    let m : LastMeasurements := ⟨[DUMMY, s, DUMMY, DUMMY, s, DUMMY, DUMMY, DUMMY], rfl⟩
    (∀ t ∈ m.register, ¬t.isDummy → t.delay < MAX_DISPERSION) ∧
      (fromClockFilterContents m).validTuples =
        (m.register.filter fun t => !t.isDummy).insertionSort DelayLe :=
  ⟨by decide, validTuples_real (by decide)⟩

/-- The sorted view starts with the selected stage. -/
theorem register_eq_smallestDelay_cons (l : TemporaryList) :
    l.register = l.smallestDelay :: l.register.tail := by
  obtain ⟨t, rest, h⟩ := List.exists_cons_of_length_eq_add_one l.length_register
  rw [h, smallestDelay_eq h]; rfl

/-- `smallest_delay` is the newest stage of least delay: `sort_by` is stable, so the stages of
least delay keep their register order, and the first of them is selected. -/
theorem smallestDelay_split (m : LastMeasurements) :
    ∃ pre post, m.register = pre ++ (fromClockFilterContents m).smallestDelay :: post ∧
      (∀ t ∈ pre, (fromClockFilterContents m).smallestDelay.delay < t.delay) ∧
      ∀ t ∈ post, (fromClockFilterContents m).smallestDelay.delay ≤ t.delay := by
  set l := fromClockFilterContents m
  set sel := l.smallestDelay
  have hmin : ∀ t ∈ m.register, sel.delay ≤ t.delay := fun t ht =>
    l.smallestDelay_le (mem_fromClockFilterContents.mpr ht)
  have hsel : sel ∈ m.register := mem_fromClockFilterContents.mp (smallestDelay_mem l)
  -- the stages of least delay, in register order, are a sublist of the sorted view
  have hsub : (m.register.filter fun t => t.delay = sel.delay).Sublist l.register :=
    List.sublist_insertionSort (List.pairwise_of_forall_mem_list fun a ha b hb => by
      simp only [List.mem_filter, decide_eq_true_eq] at ha hb
      show a.delay ≤ b.delay
      rw [ha.2, hb.2]; exact Int.le_refl _) (List.filter_sublist _)
  have hmem : sel ∈ m.register.filter fun t => t.delay = sel.delay :=
    List.mem_filter.mpr ⟨hsel, by simp⟩
  obtain ⟨t, c, hc⟩ := List.exists_cons_of_ne_nil (List.ne_nil_of_mem hmem)
  -- the first of them is the head of the sorted view: otherwise `sel` occurs once too often
  have ht : t = sel := by
    rw [hc, register_eq_smallestDelay_cons l] at hsub
    cases hsub with
    | cons₂ _ _ => rfl
    | cons _ h =>
      have h₁ := h.count_le sel
      have h₂ : (t :: c).count sel = m.register.count sel := by
        rw [← hc]; exact List.count_filter (by simp)
      have h₃ := (List.perm_insertionSort DelayLe m.register).count_eq sel
      rw [show m.register.insertionSort DelayLe = l.register from rfl,
        register_eq_smallestDelay_cons l, List.count_cons_self] at h₃
      omega
  obtain ⟨pre, post, hreg, hpre, -, -⟩ := List.filter_eq_cons_iff.mp hc
  subst ht
  refine ⟨pre, post, hreg, fun x hx => ?_, fun x hx => hmin x (by rw [hreg]; simp [hx])⟩
  have hne : x.delay ≠ sel.delay := by simpa using hpre x hx
  exact Int.lt_iff_le_and_ne.mpr
    ⟨hmin x (by rw [hreg]; simp [hx]), fun h => hne (NtpDuration.ext h.symm)⟩

end TemporaryList

/-! ## The dispersion sum -/

namespace TemporaryList

/-- `Σ trunc(dispersion_i / 2^(i+1))` over the stages, in exact integer arithmetic. -/
def exactDispersion (register : List FilterTuple) : Int :=
  (register.enum.map fun p => p.2.dispersion.duration.tdiv (2 ^ (p.1 + 1))).sum

/-- A duration divided by `m > 0`, truncated, is at most `2^63 / m` in size. -/
theorem abs_tdiv_mul_le (d : NtpDuration) {m : Int} (hm : 0 < m) :
    |d.duration.tdiv m| * m ≤ 2 ^ 63 := by
  have h : (d.duration.tdiv m).natAbs * m.natAbs ≤ 2 ^ 63 := by
    rw [Int.natAbs_tdiv]
    exact (Nat.div_mul_le_self _ _).trans (by have := d.le_duration; have := d.duration_lt; omega)
  calc |d.duration.tdiv m| * m = ((d.duration.tdiv m).natAbs * m.natAbs : Nat) := by
        rw [Nat.cast_mul, Int.natAbs_of_nonneg hm.le, Int.abs_eq_natAbs]
    _ ≤ 2 ^ 63 := by exact_mod_cast h

/-- One step of the loop at stage `k` (`Q = 2^k`): a partial sum `a` with `|a| ≤ 2^63 - 2^63/Q`
takes a term `q` with `|q| ≤ 2^63 / 2Q`; the new sum and the term are in the `i64` range, and
the new sum has `|a + q| ≤ 2^63 - 2^63/2Q`. -/
theorem dispersion_step {a q Q : Int} (hQ : 1 ≤ Q) (ha : |a| * Q + 2 ^ 63 ≤ 2 ^ 63 * Q)
    (hq : |q| * (Q * 2) ≤ 2 ^ 63) :
    |a + q| * (Q * 2) + 2 ^ 63 ≤ 2 ^ 63 * (Q * 2) ∧ |a + q| < 2 ^ 63 ∧ |q| < 2 ^ 63 := by
  have h₁ := mul_le_mul_of_nonneg_right (abs_add a q) (by omega : (0 : Int) ≤ Q * 2)
  have h₂ : |q| * 2 ≤ |q| * (Q * 2) := mul_le_mul_of_nonneg_left (by omega) (abs_nonneg q)
  refine ⟨by linarith, ?_, by linarith⟩
  by_contra hc
  have := mul_le_mul_of_nonneg_right (not_lt.mp hc) (by omega : (0 : Int) ≤ Q * 2)
  linarith

/-- The loop from stage `k` on, from a partial sum `a` with `|a| ≤ 2^63 - 2^63/2^k`: no step
wraps, and the result is `a` plus the exact sum of the remaining terms. -/
theorem foldl_dispersion_exact (xs : List FilterTuple) (k : Nat) (a : NtpDuration)
    (ha : |a.duration| * 2 ^ k + 2 ^ 63 ≤ 2 ^ 63 * 2 ^ k) :
    (((xs.enumFrom k).map fun (i, t) => t.dispersion / ((2 : Int) ^ (i + 1))).foldl
        (· + ·) a).duration =
      a.duration + ((xs.enumFrom k).map fun p => p.2.dispersion.duration.tdiv (2 ^ (p.1 + 1))).sum := by
  induction xs generalizing k a with
  | nil => simp
  | cons x xs ih =>
    simp only [List.enumFrom_cons, List.map_cons, List.foldl_cons, List.sum_cons]
    have hq := abs_tdiv_mul_le x.dispersion (by positivity : (0 : Int) < 2 ^ (k + 1))
    rw [pow_succ] at hq ⊢
    obtain ⟨hnext, hsum, hterm⟩ := dispersion_step (one_le_pow₀ (by decide)) ha hq
    have hs : (a + x.dispersion / ((2 : Int) ^ k * 2) : NtpDuration).duration =
        a.duration + x.dispersion.duration.tdiv ((2 : Int) ^ k * 2) := by
      rw [add_duration, div_duration, wrapI64_of_mem (abs_lt.mp hterm).1.le (abs_lt.mp hterm).2,
        wrapI64_of_mem (abs_lt.mp hsum).1.le (abs_lt.mp hsum).2]
    rw [ih (k + 1) _ (by rwa [hs, pow_succ]), hs, Int.add_assoc]

/-- Over any number of stages the loop computes the exact sum. -/
theorem registerDispersion_eq_exact (register : List FilterTuple) :
    (registerDispersion register).duration = exactDispersion register :=
  (foldl_dispersion_exact register 0 default (by simp)).trans (Int.zero_add _)

/-- From stage `k` on, with every dispersion in `[0, D]`: the exact sum of the `n` remaining
terms is non-negative and at most `(1 - 2^-n)·D / 2^k`. -/
theorem exactSum_le (xs : List FilterTuple) (k : Nat) {D : Int}
    (hd : ∀ t ∈ xs, 0 ≤ t.dispersion.duration ∧ t.dispersion.duration ≤ D) :
    0 ≤ ((xs.enumFrom k).map fun p => p.2.dispersion.duration.tdiv (2 ^ (p.1 + 1))).sum ∧
      2 ^ (k + xs.length) *
          ((xs.enumFrom k).map fun p => p.2.dispersion.duration.tdiv (2 ^ (p.1 + 1))).sum ≤
        (2 ^ xs.length - 1) * D := by
  induction xs generalizing k with
  | nil => simp
  | cons x xs ih =>
    simp only [List.enumFrom_cons, List.map_cons, List.sum_cons, List.length_cons]
    obtain ⟨h₀, hD⟩ := hd x (List.mem_cons_self _ _)
    obtain ⟨hS₀, hS⟩ := ih (k + 1) fun t ht => hd t (List.mem_cons_of_mem _ ht)
    have hB : (0 : Int) < 2 ^ (k + 1) := by positivity
    rw [Int.tdiv_eq_ediv h₀ hB.le]
    have hq₀ := Int.ediv_nonneg h₀ hB.le
    have hq := mul_le_mul_of_nonneg_left ((Int.ediv_mul_le _ hB.ne').trans hD)
      (by positivity : (0 : Int) ≤ 2 ^ xs.length)
    refine ⟨by omega, ?_⟩
    rw [pow_add] at hS
    rw [show k + (xs.length + 1) = k + 1 + xs.length by omega, pow_add, pow_succ 2 xs.length]
    linarith

/-- `TemporaryList::dispersion` of any eight stages, sorted or not: the loop over the first `j`
stages is the exact sum of their terms for every `j`, so no partial sum overflows, and when
every dispersion is in `[0, D]` the result is in `[0, D·(1 - 2^-8)]`. -/
theorem registerDispersion_no_overflow (register : List FilterTuple) (h : register.length = 8) :
    (∀ j, (registerDispersion (register.take j)).duration = exactDispersion (register.take j)) ∧
      ∀ D : Int, (∀ t ∈ register, 0 ≤ t.dispersion.duration ∧ t.dispersion.duration ≤ D) →
        0 ≤ (registerDispersion register).duration ∧
          256 * (registerDispersion register).duration ≤ 255 * D := by
  refine ⟨fun j => registerDispersion_eq_exact _, fun D hd => ?_⟩
  have := exactSum_le register 0 hd
  rw [h] at this
  rw [registerDispersion_eq_exact]
  exact this

theorem registerDispersion_no_overflow_dummies :
    (List.replicate 8 DUMMY).length = 8 ∧
      ((∀ j, (registerDispersion ((List.replicate 8 DUMMY).take j)).duration =
          exactDispersion ((List.replicate 8 DUMMY).take j)) ∧
        ∀ D : Int, (∀ t ∈ List.replicate 8 DUMMY,
            0 ≤ t.dispersion.duration ∧ t.dispersion.duration ≤ D) →
          0 ≤ (registerDispersion (List.replicate 8 DUMMY)).duration ∧
            256 * (registerDispersion (List.replicate 8 DUMMY)).duration ≤ 255 * D) :=
  ⟨rfl, registerDispersion_no_overflow _ rfl⟩

/-- The all-dummy register of the source's test reaches the bound for `D = MAX_DISPERSION`:
`16 s · (1 - 2^-8) = 15.9375 s`. -/
example : (fromClockFilterContents .new).dispersion.duration = 255 * 2 ^ 28 := by
  decide

end TemporaryList

end Ntp
