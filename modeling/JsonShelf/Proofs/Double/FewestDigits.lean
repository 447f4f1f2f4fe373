import JsonShelf.Proofs.Double.ReadBack
import Mathlib.Data.Rat.Floor

/-!
# The shortest decimal has the fewest digits

The search for the shortest decimal looks at two points of each grid only, and not at the grids
before its start. This is enough: what a double covers is an interval around it, so when a grid has
a point there, one of the two points next to the double is there as well, and on the grids before
the start only zero is below the end of the interval. What is found lies on the coarsest grid that
has a covered point, and of these points it is the one nearest to the double.

Digits are fewest on the coarsest grid. Otherwise a power of ten would lie between a covered number
of fewer digits and the one that was found, and it would be a point of a coarser grid. The grid
cannot be coarse beyond measure either, as the interval is about as wide as the distance of
neighbouring doubles, so 17 digits are always enough.

## Main definitions

* `Finite.IsShortest` — the covered decimals of coarsest grid that are nearest to a double

## Main results

* `Finite.isShortest_iff` — there is one such decimal, and it is the one that is found
* `Finite.digits_shortest_lt_of_covers` — no covered decimal has fewer digits
* `Finite.digits_shortest_lt` — there are at most 17 digits
-/

namespace JsonShelf

namespace Double

namespace Finite

/-- A covered decimal on the coarsest grid that has one. No other on this grid is nearer to the
double, and if one is as near, the digits are even. -/
structure IsShortest (x : Finite) (d : Decimal) : Prop where
  covers : x.Covers d.value
  coarsest {n : ℕ} {scale : ℤ} (h : x.Covers (n * 10 ^ scale)) : scale ≤ d.scale
  nearest {n : ℕ} (h : x.Covers (n * 10 ^ d.scale)) :
    |d.value - x.size| ≤ |n * 10 ^ d.scale - x.size|
  even {n : ℕ} (h : x.Covers (n * 10 ^ d.scale)) (hne : n ≠ d.digits)
    (heq : |n * 10 ^ d.scale - x.size| = |d.value - x.size|) : d.digits % 2 = 0

variable {x : Finite} {r : ℚ}

/-! ### What a double covers is an interval -/

theorem Covers.of_le_of_le {a b : ℚ} (ha : x.Covers a) (hb : x.Covers b) (har : a ≤ r)
    (hrb : r ≤ b) : x.Covers r := by
  obtain ⟨hlow, -, hodd⟩ := covers_iff.1 ha
  obtain ⟨-, hup, hodd'⟩ := covers_iff.1 hb
  exact covers_iff.2 ⟨by linarith, by linarith, fun h =>
    ⟨by linarith [(hodd h).1], by linarith [(hodd' h).2]⟩⟩

/-! ### Points of a grid -/

theorem magnitude_mul_finestScale (x : Finite) :
    (x.magnitude : ℚ) * 10 ^ x.finestScale = x.size := by
  rw [magnitude, size, ← x.unit_mul_finestScale]
  push_cast
  ring

theorem Reads.of_le_of_le {a b n : ℕ} (ha : x.Reads a) (hb : x.Reads b) (han : a ≤ n)
    (hnb : n ≤ b) : x.Reads n :=
  ⟨by have := ha.1; omega, by have := hb.2; omega⟩

/-! ### The points next to a double -/

/-- If a point of a grid up to the double reads back, the last one does. -/
theorem Reads.low {n k : ℕ} (h : x.Reads (n * 10 ^ k)) (hn : n ≤ x.magnitude / 10 ^ k) :
    x.Reads (x.magnitude / 10 ^ k * 10 ^ k) :=
  h.of_le_of_le x.reads_magnitude (Nat.mul_le_mul_right _ hn) (Nat.div_mul_le_self _ _)

/-- If a point of a grid beyond the double reads back, the first one does. -/
theorem Reads.high {n k : ℕ} (h : x.Reads (n * 10 ^ k)) (hn : x.magnitude / 10 ^ k < n) :
    x.Reads ((x.magnitude / 10 ^ k + 1) * 10 ^ k) := by
  have hlt : x.magnitude < (x.magnitude / 10 ^ k + 1) * 10 ^ k := by
    rw [Nat.succ_mul]
    exact Nat.lt_div_mul_add (by positivity)
  exact x.reads_magnitude.of_le_of_le h hlt.le (Nat.mul_le_mul_right _ hn)

/-- A grid with a point that reads back has such a point next to the double. -/
theorem not_reads_of_onGrid?_eq_none {k : ℕ} (h : x.onGrid? k = none) (n : ℕ) :
    ¬ x.Reads (n * 10 ^ k) := by
  intro hn
  rw [onGrid?] at h
  simp only [Nat.pow_eq] at h
  split at h
  · split at h
    · split at h
      · cases h
      · split at h <;> cases h
    · cases h
  · next hlow =>
    split at h
    · cases h
    · next hhigh =>
      rcases Nat.lt_or_ge (x.magnitude / 10 ^ k) n with hlt | hge
      · exact hhigh (hn.high hlt)
      · exact hlow (hn.low hge)

/-- The point that is taken from a grid is the nearest of all that read back: the middle between it
and another one lies on the other side of the double. The middle is the double only if the point
taken is even. -/
theorem middle_of_onGrid? {k digits n : ℕ} (h : x.onGrid? k = some digits)
    (hn : x.Reads (n * 10 ^ k)) :
    (digits < n → 2 * x.magnitude ≤ (digits + n) * 10 ^ k ∧
      (digits % 2 = 1 → 2 * x.magnitude < (digits + n) * 10 ^ k)) ∧
    (n < digits → (n + digits) * 10 ^ k ≤ 2 * x.magnitude ∧
      (digits % 2 = 1 → (n + digits) * 10 ^ k < 2 * x.magnitude)) := by
  have hlow := hn.low
  have hhigh := hn.high
  have hdiv := Nat.div_add_mod' x.magnitude (10 ^ k)
  have hmod := Nat.mod_lt x.magnitude (show 0 < 10 ^ k by positivity)
  have hcases := onGrid?_cases h
  generalize 10 ^ k = step at *
  generalize x.magnitude / step = low at *
  generalize x.magnitude % step = rem at *
  rcases hcases with ⟨rfl, -, hother⟩ | ⟨low, rfl, rfl, -, hother⟩
  · constructor
    · intro hlt
      have hle : (digits + 1) * step ≤ n * step := Nat.mul_le_mul_right step hlt
      have := hother (hhigh hlt)
      simp only [Nat.add_mul, Nat.one_mul] at hle ⊢
      omega
    · intro hlt
      have hle : (n + 1) * step ≤ digits * step := Nat.mul_le_mul_right step hlt
      simp only [Nat.add_mul, Nat.one_mul] at hle ⊢
      omega
  · constructor
    · intro hlt
      have hle : (low + 1 + 1) * step ≤ n * step := Nat.mul_le_mul_right step hlt
      simp only [Nat.add_mul, Nat.one_mul] at hle ⊢
      omega
    · intro hlt
      have hle : n * step ≤ low * step := Nat.mul_le_mul_right step (Nat.le_of_lt_succ hlt)
      have := hother (hlow (Nat.le_of_lt_succ hlt))
      simp only [Nat.add_mul, Nat.one_mul]
      omega

/-! ### The search -/

/-- The grids behind the start of the search have no point that reads back. -/
theorem Reads.le_start {n k : ℕ} (h : x.Reads (n * 10 ^ k)) (hx : 0 < x.significand) :
    k ≤ (4 * x.magnitude + 2 * x.unit).log2 / 3 := by
  have hn : n ≠ 0 := by
    rintro rfl
    have := (reads_mul_iff_covers.1 h).pos hx
    rw [Nat.cast_zero, zero_mul] at this
    exact lt_irrefl 0 this
  have hle : 10 ^ k ≤ n * 10 ^ k := Nat.le_mul_of_pos_left _ (Nat.pos_of_ne_zero hn)
  have hslack : (if x.significand % 2 = 0 then 1 else 0) ≤ 1 := by split <;> omega
  have hpos : 0 < 10 ^ k := by positivity
  have hup : 4 * (n * 10 ^ k) < 4 * x.magnitude + 2 * x.unit + 1 := h.2.trans_le (by omega)
  have hpow : 2 ^ (3 * k) ≤ 4 * x.magnitude + 2 * x.unit :=
    calc 2 ^ (3 * k) = 8 ^ k := pow_mul 2 3 k
      _ ≤ 10 ^ k := Nat.pow_le_pow_left (by norm_num) k
      _ ≤ 4 * x.magnitude + 2 * x.unit := by omega
  have hlog := (Nat.le_log2 (by omega)).2 hpow
  omega

/-- What is found is taken from a grid, and no coarser grid has a point that reads back. -/
theorem exists_shortest (hx : 0 < x.significand) :
    ∃ j, x.shortest.scale = x.finestScale + (j : ℕ) ∧ x.onGrid? j = some x.shortest.digits ∧
      ∀ i, j < i → ∀ n, ¬ x.Reads (n * 10 ^ i) := by
  rw [shortest, if_neg hx.ne']
  obtain ⟨j, hscale, hgrid, hnone⟩ :=
    x.exists_coarsest ((4 * x.magnitude + 2 * x.unit).log2 / 3 + 1)
  refine ⟨j, hscale, hgrid, fun i hi n hn => ?_⟩
  exact not_reads_of_onGrid?_eq_none (hnone i hi (by have := hn.le_start hx; omega)) n hn

/-- No coarser grid has a covered point. -/
theorem le_scale_shortest (hx : 0 < x.significand) {n : ℕ} {scale : ℤ}
    (h : x.Covers (n * 10 ^ scale)) : scale ≤ x.shortest.scale := by
  obtain ⟨j, hscale, -, hnone⟩ := exists_shortest hx
  by_contra hlt
  obtain ⟨i, hi⟩ := Int.eq_ofNat_of_zero_le (show 0 ≤ scale - x.finestScale by omega)
  rw [show scale = x.finestScale + i by omega] at h
  exact hnone i (by omega) n (reads_mul_iff_covers.2 h)

/-- The middle between the shortest decimal and another covered point of its grid lies on the other
side of the double, or is the double if the digits of the shortest decimal are even. -/
theorem middle_shortest (hx : 0 < x.significand) {n : ℕ}
    (h : x.Covers (n * 10 ^ x.shortest.scale)) :
    (x.shortest.digits < n → 2 * x.size ≤ x.shortest.value + n * 10 ^ x.shortest.scale ∧
      (x.shortest.digits % 2 = 1 →
        2 * x.size < x.shortest.value + n * 10 ^ x.shortest.scale)) ∧
    (n < x.shortest.digits → n * 10 ^ x.shortest.scale + x.shortest.value ≤ 2 * x.size ∧
      (x.shortest.digits % 2 = 1 →
        n * 10 ^ x.shortest.scale + x.shortest.value < 2 * x.size)) := by
  obtain ⟨j, hscale, hgrid, -⟩ := exists_shortest hx
  rw [hscale] at h
  have hmiddle := middle_of_onGrid? hgrid (reads_mul_iff_covers.2 h)
  have hs : (0 : ℚ) < 10 ^ x.finestScale := zpow_pos (by norm_num) _
  -- everything is counted on the finest grid
  have hsize : 2 * x.size = (2 * x.magnitude : ℕ) * 10 ^ x.finestScale := by
    rw [← x.magnitude_mul_finestScale]
    push_cast
    ring
  have hsum : ∀ a b : ℕ, (a : ℚ) * 10 ^ (x.finestScale + j) + b * 10 ^ (x.finestScale + j) =
      ((a + b) * 10 ^ j : ℕ) * 10 ^ x.finestScale := by
    intro a b
    rw [← add_mul, ← Nat.cast_add, mul_zpow_finestScale_add]
  rw [Decimal.value, hscale, hsum, hsum, hsize]
  simp only [mul_le_mul_iff_left₀ hs, mul_lt_mul_iff_left₀ hs, Nat.cast_le, Nat.cast_lt]
  exact hmiddle

theorem mul_ten_zpow_lt {m n : ℕ} (h : m < n) (scale : ℤ) :
    (m : ℚ) * 10 ^ scale < n * 10 ^ scale :=
  mul_lt_mul_of_pos_right (by exact_mod_cast h) (zpow_pos (by norm_num) _)

theorem isShortest_shortest (hx : 0 < x.significand) : x.IsShortest x.shortest where
  covers := x.covers_value_shortest
  coarsest h := le_scale_shortest hx h
  nearest {n} h := by
    obtain ⟨habove, hbelow⟩ := middle_shortest hx h
    rcases lt_trichotomy x.shortest.digits n with hlt | rfl | hgt
    · exact (abs_sub_le_iff_of_lt (mul_ten_zpow_lt hlt _)).2 (habove hlt).1
    · exact le_rfl
    · exact (abs_sub_ge_iff_of_lt (mul_ten_zpow_lt hgt _)).2 (hbelow hgt).1
  even {n} h hne heq := by
    obtain ⟨habove, hbelow⟩ := middle_shortest hx h
    by_contra hodd
    have hodd := Nat.mod_two_ne_zero.1 hodd
    rcases lt_or_gt_of_ne hne with hlt | hgt
    · have hmiddle := (abs_sub_eq_iff_of_lt (mul_ten_zpow_lt hlt _)).1 heq
      exact ((hbelow hlt).2 hodd).ne' hmiddle
    · have hmiddle := (abs_sub_eq_iff_of_lt (mul_ten_zpow_lt hgt _)).1 heq.symm
      exact ((habove hgt).2 hodd).ne hmiddle

/-- Two such decimals would have the double in their middle and even digits, and so a point between
them that is nearer. -/
theorem IsShortest.digits_le {m n : ℕ} {scale : ℤ} (hm : x.IsShortest ⟨m, scale⟩)
    (hn : x.IsShortest ⟨n, scale⟩) : n ≤ m := by
  by_contra hgt
  have hlt := not_le.1 hgt
  have hpoint := mul_ten_zpow_lt hlt scale
  have hle := (abs_sub_le_iff_of_lt hpoint).1 (hm.nearest hn.covers)
  have hge := (abs_sub_ge_iff_of_lt hpoint).1 (hn.nearest hm.covers)
  have htie := (abs_sub_eq_iff_of_lt hpoint).2 (le_antisymm hle hge)
  have heven : m % 2 = 0 := hm.even hn.covers hlt.ne' htie.symm
  have heven' : n % 2 = 0 := hn.even hm.covers hlt.ne htie
  -- the point next to the smaller one
  have hnext := mul_ten_zpow_lt (Nat.lt_succ_self m) scale
  have hnext' := mul_ten_zpow_lt (show m + 1 < n by omega) scale
  have hcovers := hm.covers.of_le_of_le hn.covers hnext.le hnext'.le
  have hmiddle := (abs_sub_le_iff_of_lt hnext).1 (hm.nearest hcovers)
  linarith

theorem IsShortest.unique {d d' : Decimal} (h : x.IsShortest d) (h' : x.IsShortest d') :
    d = d' := by
  obtain ⟨m, scale⟩ := d
  obtain ⟨n, scale'⟩ := d'
  obtain rfl : scale = scale' := le_antisymm (h'.coarsest h.covers) (h.coarsest h'.covers)
  obtain rfl : m = n := le_antisymm (h'.digits_le h) (h.digits_le h')
  rfl

/-- **The shortest decimal is found**, for every double but zero. -/
theorem isShortest_iff (hx : 0 < x.significand) {d : Decimal} :
    x.IsShortest d ↔ x.shortest = d :=
  ⟨fun h => (isShortest_shortest hx).unique h, fun h => h ▸ isShortest_shortest hx⟩

/-! ### Digits -/

/-- **No covered decimal has fewer digits than the shortest one.** -/
theorem digits_shortest_lt_of_covers {digits k : ℕ} {scale : ℤ}
    (h : x.Covers (digits * 10 ^ scale)) (hk : digits < 10 ^ k) : x.shortest.digits < 10 ^ k := by
  rcases Nat.eq_zero_or_pos x.significand with hx | hx
  · rw [shortest, if_pos hx]
    positivity
  by_contra hge
  -- a power of ten with `k + 1` digits lies between the two decimals
  have hscale := le_scale_shortest hx h
  have hpower : x.Covers ((1 : ℕ) * 10 ^ (x.shortest.scale + k)) := by
    have hpos : (0 : ℚ) < 10 ^ x.shortest.scale := zpow_pos (by norm_num) _
    have hcast : (10 : ℚ) ^ k ≤ x.shortest.digits := by exact_mod_cast not_lt.1 hge
    have hcast' : (digits : ℚ) ≤ 10 ^ k := by exact_mod_cast hk.le
    rw [Nat.cast_one, one_mul, zpow_add₀ (by norm_num), zpow_natCast, mul_comm]
    refine h.of_le_of_le x.covers_value_shortest ?_ ?_
    · exact mul_le_mul hcast' (zpow_le_zpow_right₀ (by norm_num) hscale) (by positivity)
        (by positivity)
    · exact mul_le_mul_of_nonneg_right hcast hpos.le
  have hle := le_scale_shortest hx hpower
  obtain rfl : k = 0 := by omega
  have hzero : digits = 0 := by omega
  have := h.pos hx
  rw [hzero, Nat.cast_zero, zero_mul] at this
  exact lt_irrefl 0 this

/-- A grid that is finer than the interval is wide has a covered point. -/
theorem exists_covers_of_lt {scale : ℤ} (h : 2 * (10 : ℚ) ^ scale < x.gapBelow + x.weight) :
    ∃ n : ℕ, x.Covers (n * 10 ^ scale) := by
  have hstep : (0 : ℚ) < 10 ^ scale := zpow_pos (by norm_num) _
  have hw := x.weight_pos
  have hsize := x.size_nonneg
  -- the last point below the upper end
  have hpos : 0 < (x.size + x.weight / 2) / 10 ^ scale := by positivity
  obtain ⟨n, hn⟩ := Nat.exists_eq_succ_of_ne_zero (Nat.ceil_pos.2 hpos).ne'
  have hup : (n : ℚ) * 10 ^ scale < x.size + x.weight / 2 :=
    (lt_div_iff₀ hstep).1 (Nat.lt_ceil.1 (by omega))
  have hlow : x.size + x.weight / 2 ≤ (n + 1) * 10 ^ scale := by
    have hle := Nat.le_ceil ((x.size + x.weight / 2) / 10 ^ scale)
    rw [hn, Nat.cast_succ] at hle
    exact (div_le_iff₀ hstep).1 hle
  rw [add_mul, one_mul] at hlow
  exact ⟨n, covers_iff.2 ⟨by linarith, by linarith, fun _ => ⟨by linarith, by linarith⟩⟩⟩

/-- The grid of the shortest decimal is about as coarse as the interval is wide, or coarser. -/
theorem gapBelow_add_weight_le (hx : 0 < x.significand) :
    x.gapBelow + x.weight ≤ 20 * (10 : ℚ) ^ x.shortest.scale := by
  by_contra hlt
  have hfine : 2 * (10 : ℚ) ^ (x.shortest.scale + 1) < x.gapBelow + x.weight := by
    rw [zpow_add_one₀ (by norm_num)]
    linarith
  obtain ⟨n, hn⟩ := exists_covers_of_lt hfine
  have := le_scale_shortest hx hn
  omega

/-- **Seventeen digits are enough.** -/
theorem digits_shortest_lt (x : Finite) : x.shortest.digits < 10 ^ 17 := by
  rcases Nat.eq_zero_or_pos x.significand with hx | hx
  · rw [shortest, if_pos hx]
    norm_num
  by_contra hge
  have hcast : (10 : ℚ) ^ 17 ≤ x.shortest.digits := by exact_mod_cast not_lt.1 hge
  have hpos : (0 : ℚ) < 10 ^ x.shortest.scale := zpow_pos (by norm_num) _
  have hw := x.weight_pos
  obtain ⟨-, hup, -⟩ := covers_iff.1 x.covers_value_shortest
  have hgrid := gapBelow_add_weight_le hx
  have hlow : (10 : ℚ) ^ 17 * 10 ^ x.shortest.scale ≤ x.shortest.value :=
    mul_le_mul_of_nonneg_right hcast hpos.le
  rw [size] at hup
  by_cases h : 2 * x.significand = 2 ^ 53 ∧ x.exponent ≠ minExponent
  · have hm : (2 * x.significand : ℚ) = 2 ^ 53 := by exact_mod_cast h.1
    rw [gapBelow_of_power h] at hgrid
    nlinarith
  · have hm : (x.significand : ℚ) + 1 ≤ 2 ^ 53 := by exact_mod_cast x.significand_lt'
    rw [gapBelow_of_not_power h] at hgrid
    nlinarith

end Finite

end Double

end JsonShelf
