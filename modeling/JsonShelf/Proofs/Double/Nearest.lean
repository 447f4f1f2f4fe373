import JsonShelf.Double.Shortest
import Mathlib.Algebra.Order.Field.Power
import Mathlib.Data.Rat.Cast.Order
import Mathlib.Tactic.Linarith
import Mathlib.Tactic.NormNum
import Mathlib.Tactic.Positivity
import Mathlib.Tactic.Ring

/-!
# What a double is nearest to

A number belongs to the double nearest to it. Where two doubles are equally near, it belongs to the
one with the even significand. `Nearest` says this by comparing with every double there is.

What belongs to a double is an interval around it, and `Covers` gives the ends of this interval in
terms of the double alone. The two agree (`covers_iff_nearest`): the doubles next to `x` lie at the
distances `gapBelow` and `weight` from it, and no other double lies between (`size_cases`), so what
`x` covers is nearest to `x`; these neighbours exist, except above the greatest double, so nothing
else is nearest to `x`. No number belongs to two doubles (`Covers.unique`), because of neighbours
one has an odd significand.

## Main definitions

* `Finite.value` — the number that a finite double stands for
* `Finite.Nearest` — no double is nearer, and a tie makes the significand even
* `Finite.Covers` — the interval of a double

## Main results

* `Finite.size_cases` — no double lies between a double and its neighbours
* `Finite.covers_iff_nearest` — what a double covers are the numbers nearest to it
* `Finite.Covers.unique` — only one double covers a number
-/

namespace JsonShelf

namespace Double

/-- A magnitude with a sign. -/
def signed (negative : Bool) (r : ℚ) : ℚ := if negative then -r else r

/-- Magnitudes from this one on are infinite. It lies halfway between the greatest double and the
double that would come next. -/
def overflowBound : ℚ := 2 ^ 1024 - 2 ^ 970

namespace Finite

/-- The weight of the last bit of a double. -/
def weight (x : Finite) : ℚ := 2 ^ x.exponent

/-- The numbers that round to the magnitude of a double, counted in quarters of its weight. The ends
of the interval belong to it if the significand is even. -/
structure Covers (x : Finite) (r : ℚ) : Prop where
  lower : (4 * x.significand - x.quartersBelow) * x.weight ≤ 4 * r
  upper : 4 * r ≤ (4 * x.significand + 2) * x.weight
  lower_of_odd : x.significand % 2 = 1 →
    (4 * x.significand - x.quartersBelow) * x.weight < 4 * r
  upper_of_odd : x.significand % 2 = 1 → 4 * r < (4 * x.significand + 2) * x.weight

/-- The magnitude of a double. -/
def size (x : Finite) : ℚ := x.significand * x.weight

/-- The number that a double stands for. -/
def value (x : Finite) : ℚ := signed x.negative x.size

/-- The distance to the next smaller double. -/
def gapBelow (x : Finite) : ℚ := x.quartersBelow * x.weight / 2

/-- No double is nearer to a number than this one, and if one of another value is equally near, the
significand is even. -/
structure Nearest (x : Finite) (r : ℚ) : Prop where
  le (y : Finite) : |x.value - r| ≤ |y.value - r|
  even {y : Finite} (hne : y.value ≠ x.value) (heq : |y.value - r| = |x.value - r|) :
    x.significand % 2 = 0

end Finite

/-! ### Distances -/

theorem abs_signed_sub (negative : Bool) (a b : ℚ) :
    |signed negative a - signed negative b| = |a - b| := by
  cases negative with
  | false => rfl
  | true =>
    change |-a - -b| = _
    rw [neg_sub_neg, abs_sub_comm]

/-- Numbers of different sign are as far from each other as from zero together. -/
theorem abs_signed_sub_of_ne {b c : Bool} (hne : b ≠ c) {s r : ℚ} (hs : 0 ≤ s) (hr : 0 ≤ r) :
    |signed b s - signed c r| = s + r := by
  cases b <;> cases c
  · exact absurd rfl hne
  · change |s - -r| = _
    rw [sub_neg_eq_add, abs_of_nonneg (by positivity)]
  · change |-s - r| = _
    rw [← neg_add', abs_neg, abs_of_nonneg (by positivity)]
  · exact absurd rfl hne

theorem signed_injective (negative : Bool) : Function.Injective (signed negative) := by
  cases negative with
  | false => exact fun a b h => h
  | true => exact neg_injective

/-- Of two numbers, the smaller one is nearer up to the middle between them. -/
theorem abs_sub_le_iff_of_lt {a b r : ℚ} (h : a < b) : |a - r| ≤ |b - r| ↔ 2 * r ≤ a + b := by
  rw [← sq_le_sq]
  constructor
  · intro hle
    nlinarith
  · intro hle
    nlinarith

/-- Of two numbers, the greater one is nearer from the middle between them on. -/
theorem abs_sub_ge_iff_of_lt {a b r : ℚ} (h : a < b) : |b - r| ≤ |a - r| ↔ a + b ≤ 2 * r := by
  rw [← sq_le_sq]
  constructor
  · intro hle
    nlinarith
  · intro hle
    nlinarith

theorem abs_sub_eq_iff_of_lt {a b r : ℚ} (h : a < b) : |a - r| = |b - r| ↔ 2 * r = a + b := by
  rw [le_antisymm_iff, le_antisymm_iff, abs_sub_le_iff_of_lt h, abs_sub_ge_iff_of_lt h]

/-- The bound in terms of the greatest weight. -/
theorem two_mul_overflowBound : 2 * overflowBound = (2 ^ 54 - 1) * 2 ^ maxExponent := by
  have hmax : (2 : ℚ) ^ maxExponent = 2 ^ 971 := zpow_natCast _ 971
  rw [hmax, overflowBound, mul_sub, sub_mul, one_mul, ← pow_succ', ← pow_succ', ← pow_add]

namespace Finite

variable {x y : Finite} {r : ℚ}

/-! ### Sizes -/

theorem weight_pos (x : Finite) : 0 < x.weight := zpow_pos (by norm_num) _

theorem quartersBelow_le (x : Finite) : x.quartersBelow ≤ 2 := by
  rw [quartersBelow]
  split <;> omega

theorem significandBound_eq : significandBound = 2 ^ 53 := rfl

theorem significand_lt' (x : Finite) : x.significand < 2 ^ 53 := x.significand_lt

/-- The significand of a double fills its bits, or the exponent is the least one. -/
theorem two_pow_le_of_ne (x : Finite) (h : x.exponent ≠ minExponent) :
    2 ^ 53 ≤ 2 * x.significand := by
  have := x.normal.resolve_left h
  rwa [significandBound_eq] at this

theorem size_nonneg (x : Finite) : 0 ≤ x.size := mul_nonneg (Nat.cast_nonneg _) x.weight_pos.le

theorem gapBelow_pos (x : Finite) : 0 < x.gapBelow := by
  have hw := x.weight_pos
  have hq : (0 : ℚ) < x.quartersBelow := by
    rw [quartersBelow]
    split <;> norm_num
  rw [gapBelow]
  positivity

theorem gapBelow_le (x : Finite) : x.gapBelow ≤ x.weight := by
  have hw := x.weight_pos
  have hq : (x.quartersBelow : ℚ) ≤ 2 := by exact_mod_cast x.quartersBelow_le
  rw [gapBelow]
  nlinarith

theorem size_zero (negative : Bool) : (zero negative).size = 0 := by
  rw [size, zero, Nat.cast_zero, zero_mul]

theorem size_of_significand (h : x.significand = 0) : x.size = 0 := by
  rw [size, h, Nat.cast_zero, zero_mul]

/-- What a double covers lies between the middles to its neighbours. -/
theorem covers_iff : x.Covers r ↔ 2 * x.size - x.gapBelow ≤ 2 * r ∧ 2 * r ≤ 2 * x.size + x.weight ∧
    (x.significand % 2 = 1 → 2 * x.size - x.gapBelow < 2 * r ∧ 2 * r < 2 * x.size + x.weight) := by
  have hlow : (4 * x.significand - x.quartersBelow) * x.weight = 2 * (2 * x.size - x.gapBelow) := by
    rw [size, gapBelow]
    ring
  have hup : (4 * x.significand + 2) * x.weight = 2 * (2 * x.size + x.weight) := by
    rw [size]
    ring
  refine ⟨fun h => ?_, fun ⟨h1, h2, h3⟩ => ?_⟩
  · obtain ⟨h1, h2, h3, h4⟩ := h
    rw [hlow] at h1 h3
    rw [hup] at h2 h4
    exact ⟨by linarith, by linarith, fun hodd =>
      ⟨by have := h3 hodd; linarith, by have := h4 hodd; linarith⟩⟩
  · refine ⟨?_, ?_, fun hodd => ?_, fun hodd => ?_⟩
    · rw [hlow]
      linarith
    · rw [hup]
      linarith
    · rw [hlow]
      linarith [(h3 hodd).1]
    · rw [hup]
      linarith [(h3 hodd).2]

/-- What a double other than zero covers is positive. -/
theorem Covers.pos (h : x.Covers r) (hx : 0 < x.significand) : 0 < r := by
  have hw := x.weight_pos
  have hgap := x.gapBelow_le
  have hm : (1 : ℚ) ≤ x.significand := by exact_mod_cast hx
  have hlow := (covers_iff.1 h).1
  rw [size] at hlow
  nlinarith

/-- Zero covers what is no further than half the least double. -/
theorem covers_of_significand_eq_zero (hx : x.significand = 0) (hr : 0 ≤ r)
    (hle : 2 * r ≤ x.weight) : x.Covers r := by
  have hsize := size_of_significand hx
  have hgap := x.gapBelow_pos
  exact covers_iff.2 ⟨by linarith, by linarith, fun hodd => by omega⟩

/-! ### Neighbours -/

theorem weight_eq_mul {k : ℕ} (h : y.exponent = x.exponent + k) :
    y.weight = 2 ^ k * x.weight := by
  rw [weight, weight, h, zpow_add₀ (by norm_num), zpow_natCast, mul_comm]

/-- Below a power of two the next double is at half the distance. -/
theorem gapBelow_of_power (h : 2 * x.significand = 2 ^ 53 ∧ x.exponent ≠ minExponent) :
    x.gapBelow = x.weight / 2 := by
  rw [gapBelow, quartersBelow, significandBound_eq, if_pos h, Nat.cast_one, one_mul]

theorem gapBelow_of_not_power (h : ¬ (2 * x.significand = 2 ^ 53 ∧ x.exponent ≠ minExponent)) :
    x.gapBelow = x.weight := by
  rw [gapBelow, quartersBelow, significandBound_eq, if_neg h, Nat.cast_ofNat,
    mul_div_cancel_left₀ _ two_ne_zero]

/-- A double is smaller than all that have a greater exponent. -/
theorem two_mul_size_le (h : y.exponent < x.exponent) :
    2 * y.size ≤ (2 ^ 53 - 1) * x.weight := by
  obtain ⟨k, hk⟩ := Int.le.dest (Int.add_one_le_of_lt h)
  have hy := y.weight_pos
  have hw : 2 * y.weight ≤ x.weight := by
    have hpow : (1 : ℚ) ≤ 2 ^ k := one_le_pow₀ (by norm_num)
    rw [weight_eq_mul (x := y) (y := x) (k := k + 1) (by push_cast; omega), pow_succ]
    nlinarith
  have hm : (y.significand : ℚ) ≤ 2 ^ 53 - 1 := by
    have : (y.significand : ℚ) + 1 ≤ 2 ^ 53 := by exact_mod_cast y.significand_lt'
    linarith
  rw [size]
  nlinarith

/-- What lies next below a double whose exponent is not the least one is no smaller than the
greatest double of the next lower exponent. -/
theorem le_size_sub_gapBelow (h : x.exponent ≠ minExponent) :
    (2 ^ 53 - 1) * x.weight ≤ 2 * (x.size - x.gapBelow) := by
  have hw := x.weight_pos
  rw [size]
  by_cases hm : 2 * x.significand = 2 ^ 53
  · have hcast : (2 * x.significand : ℚ) = 2 ^ 53 := by exact_mod_cast hm
    rw [gapBelow_of_power ⟨hm, h⟩, ← hcast]
    linarith
  · have hlt : 2 ^ 53 < 2 * x.significand := Nat.lt_of_le_of_ne (x.two_pow_le_of_ne h) (Ne.symm hm)
    have hcast : (2 ^ 53 + 1 : ℚ) ≤ 2 * x.significand := by exact_mod_cast hlt
    have hgap := x.gapBelow_le
    nlinarith

/-- **No double lies between a double and its neighbours.** -/
theorem size_cases (x y : Finite) :
    y.size ≤ x.size - x.gapBelow ∨ y.size = x.size ∨ x.size + x.weight ≤ y.size := by
  have hw := x.weight_pos
  rcases le_or_gt x.exponent y.exponent with hle | hlt
  · -- here `y` is a whole multiple of the weight of `x`
    obtain ⟨k, hk⟩ := Int.le.dest hle
    have hy : y.size = (y.significand * 2 ^ k : ℕ) * x.weight := by
      rw [size, weight_eq_mul hk.symm]
      push_cast
      ring
    rw [hy, size]
    rcases lt_trichotomy (y.significand * 2 ^ k) x.significand with h | h | h
    · have hcast : ((y.significand * 2 ^ k : ℕ) : ℚ) + 1 ≤ x.significand := by exact_mod_cast h
      have := x.gapBelow_le
      exact .inl (by nlinarith)
    · exact .inr (.inl (by rw [h]))
    · have hcast : (x.significand : ℚ) + 1 ≤ (y.significand * 2 ^ k : ℕ) := by exact_mod_cast h
      exact .inr (.inr (by nlinarith))
  · have hne : x.exponent ≠ minExponent := by
      have := y.minExponent_le
      omega
    have h1 := two_mul_size_le hlt
    have h2 := le_size_sub_gapBelow hne
    exact .inl (by linarith)

/-- The next greater double, of the same sign. Only the greatest one has none. Of the two
significands, one is odd. -/
theorem exists_size_above (x : Finite) :
    (∃ y : Finite, y.negative = x.negative ∧ y.size = x.size + x.weight ∧
        (x.significand + y.significand) % 2 = 1) ∨
      x.significand + 1 = 2 ^ 53 ∧ x.exponent = maxExponent := by
  have hlt := x.significand_lt'
  have hmin := x.minExponent_le
  have hmax := x.exponent_le
  have hnormal := x.normal
  rw [significandBound_eq] at hnormal
  rcases Nat.lt_or_ge (x.significand + 1) (2 ^ 53) with hm | hm
  · have hnormal' : x.exponent = minExponent ∨ significandBound ≤ 2 * (x.significand + 1) := by
      rw [significandBound_eq]
      omega
    refine .inl ⟨⟨x.negative, x.significand + 1, x.exponent, hm, hmin, hmax, hnormal'⟩, rfl, ?_, ?_⟩
    · rw [size, size, weight, weight]
      push_cast
      ring
    · change (x.significand + (x.significand + 1)) % 2 = 1
      omega
  rcases lt_or_ge x.exponent maxExponent with he | he
  · -- the significand starts again, one place higher
    refine .inl ⟨⟨x.negative, 2 ^ 52, x.exponent + 1, by decide, by omega, he, .inr (by decide)⟩,
      rfl, ?_, ?_⟩
    · have hcast : (x.significand : ℚ) + 1 = 2 ^ 53 := by
        exact_mod_cast (by omega : x.significand + 1 = 2 ^ 53)
      rw [size, size, weight_eq_mul (x := x) (k := 1) rfl, ← add_one_mul, hcast]
      norm_num
      ring
    · change (x.significand + 2 ^ 52) % 2 = 1
      omega
  · exact .inr ⟨by omega, by omega⟩

/-- The next smaller double, of the same sign. Only zero has none. -/
theorem exists_size_below (hx : 0 < x.significand) :
    ∃ y : Finite, y.negative = x.negative ∧ y.size = x.size - x.gapBelow := by
  have hlt := x.significand_lt'
  have hnormal := x.normal
  have hmin := x.minExponent_le
  have hmax := x.exponent_le
  rw [significandBound_eq] at hnormal
  by_cases h : 2 * x.significand = 2 ^ 53 ∧ x.exponent ≠ minExponent
  · let y : Finite := ⟨x.negative, 2 ^ 53 - 1, x.exponent - 1, by decide, by omega, by omega,
      .inr (by decide)⟩
    have hw : x.weight = 2 * y.weight := weight_eq_mul (k := 1) (by simp [y])
    have hm : (x.significand : ℚ) = 2 ^ 52 := by exact_mod_cast (by omega : x.significand = 2 ^ 52)
    refine ⟨y, rfl, ?_⟩
    rw [size, size, gapBelow_of_power h, hw, hm]
    norm_num [y]
    ring
  · refine ⟨⟨x.negative, x.significand - 1, x.exponent, by rw [significandBound_eq]; omega, hmin,
      hmax, hnormal.elim .inl fun hm => ?_⟩, rfl, ?_⟩
    · by_cases he : x.exponent = minExponent
      · exact .inl he
      · have : 2 * x.significand ≠ 2 ^ 53 := fun hm => h ⟨hm, he⟩
        exact .inr (by rw [significandBound_eq]; omega)
    · rw [gapBelow_of_not_power h, size, size, weight, weight, Nat.cast_sub hx]
      push_cast
      ring

/-! ### What is covered is what is nearest -/

theorem Covers.abs_size_sub_le (h : x.Covers r) (y : Finite) : |x.size - r| ≤ |y.size - r| := by
  obtain ⟨hlow, hup, -⟩ := covers_iff.1 h
  have hw := x.weight_pos
  have hgap := x.gapBelow_pos
  rcases x.size_cases y with hy | hy | hy
  · rw [abs_sub_ge_iff_of_lt (by linarith)]
    linarith
  · rw [hy]
  · rw [abs_sub_le_iff_of_lt (by linarith)]
    linarith

/-- A tie is at one of the ends of what a double covers. -/
theorem Covers.even_of_size (h : x.Covers r) (hne : y.size ≠ x.size)
    (heq : |y.size - r| = |x.size - r|) : x.significand % 2 = 0 := by
  obtain ⟨-, -, hodd⟩ := covers_iff.1 h
  have hw := x.weight_pos
  have hgap := x.gapBelow_pos
  by_contra hne2
  obtain ⟨hlow, hup⟩ := hodd (Nat.mod_two_ne_zero.1 hne2)
  rcases x.size_cases y with hy | hy | hy
  · rw [abs_sub_eq_iff_of_lt (by linarith)] at heq
    linarith
  · exact hne hy
  · rw [eq_comm, abs_sub_eq_iff_of_lt (by linarith)] at heq
    linarith

/-- A double of the other sign is no nearer than zero. -/
theorem abs_sub_le_of_negative_ne {b : Bool} (hy : y.negative ≠ b) (hr : 0 ≤ r) :
    |(zero b).size - r| + y.size = |y.value - signed b r| := by
  rw [value, abs_signed_sub_of_ne hy y.size_nonneg hr, size_zero, zero_sub, abs_neg,
    abs_of_nonneg hr, add_comm]

theorem abs_value_sub {b : Bool} (hx : x.negative = b) (r : ℚ) :
    |x.value - signed b r| = |x.size - r| := by
  rw [value, hx, abs_signed_sub]

theorem Covers.nearest (h : x.Covers r) (hr : 0 ≤ r) : x.Nearest (signed x.negative r) where
  le y := by
    rw [abs_value_sub rfl]
    by_cases hy : y.negative = x.negative
    · rw [abs_value_sub hy]
      exact h.abs_size_sub_le y
    · have := h.abs_size_sub_le (zero x.negative)
      have := y.size_nonneg
      rw [← abs_sub_le_of_negative_ne hy hr]
      linarith
  even {y} hne heq := by
    rw [abs_value_sub rfl] at heq
    by_cases hy : y.negative = x.negative
    · rw [abs_value_sub hy] at heq
      exact h.even_of_size (fun hs => hne (by rw [value, value, hy, hs])) heq
    · -- the tie is one with zero already
      have hle := h.abs_size_sub_le (zero x.negative)
      have hys := y.size_nonneg
      rw [← abs_sub_le_of_negative_ne hy hr] at heq
      refine h.even_of_size (y := zero x.negative) (fun hs => hne ?_) (by linarith)
      have hy0 : y.size = 0 := by linarith
      rw [size_zero] at hs
      rw [value, value, hy0, ← hs]
      cases y.negative <;> cases x.negative <;> simp [signed]

/-- The greatest double covers what is below the bound, and nothing else comes near it. -/
theorem Covers.lt_overflowBound (h : x.Covers r) : r < overflowBound := by
  obtain ⟨-, hup, hodd⟩ := covers_iff.1 h
  have hlt := x.significand_lt'
  have hw := x.weight_pos
  have hmax : x.weight ≤ 2 ^ maxExponent := zpow_le_zpow_right₀ (by norm_num) x.exponent_le
  have hbound := two_mul_overflowBound
  rw [size] at hup hodd
  by_cases hm : x.significand = 2 ^ 53 - 1
  · have hcast : (x.significand : ℚ) = 2 ^ 53 - 1 := by
      rw [hm, Nat.cast_sub (by norm_num)]
      norm_num
    have := (hodd (by rw [hm]; norm_num)).2
    rw [hcast] at this
    linarith
  · have hcast : (x.significand : ℚ) + 2 ≤ 2 ^ 53 := by
      exact_mod_cast (by omega : x.significand + 2 ≤ 2 ^ 53)
    nlinarith

theorem Nearest.abs_size_sub_le (h : x.Nearest (signed x.negative r))
    (hy : y.negative = x.negative) : |x.size - r| ≤ |y.size - r| := by
  have hle := h.le y
  rwa [abs_value_sub rfl, abs_value_sub hy] at hle

theorem Nearest.even_of_size (h : x.Nearest (signed x.negative r)) (hy : y.negative = x.negative)
    (hne : y.size ≠ x.size) (heq : |y.size - r| = |x.size - r|) : x.significand % 2 = 0 := by
  refine h.even (y := y) ?_ ?_
  · rw [value, value, hy]
    exact (signed_injective _).ne hne
  · rwa [abs_value_sub rfl, abs_value_sub hy]

/-- The numbers that a double is nearest to reach up to the middle between it and any greater
double. -/
theorem Nearest.le_middle (h : x.Nearest (signed x.negative r)) (hy : y.negative = x.negative)
    (hlt : x.size < y.size) :
    2 * r ≤ x.size + y.size ∧ (x.significand % 2 = 1 → 2 * r < x.size + y.size) := by
  have hle := (abs_sub_le_iff_of_lt hlt).1 (h.abs_size_sub_le hy)
  refine ⟨hle, fun hodd => lt_of_le_of_ne hle fun heq => ?_⟩
  have heven := h.even_of_size hy hlt.ne' ((abs_sub_eq_iff_of_lt hlt).2 heq).symm
  omega

/-- The numbers that a double is nearest to reach down to the middle between it and any smaller
double. -/
theorem Nearest.middle_le (h : x.Nearest (signed x.negative r)) (hy : y.negative = x.negative)
    (hlt : y.size < x.size) :
    y.size + x.size ≤ 2 * r ∧ (x.significand % 2 = 1 → y.size + x.size < 2 * r) := by
  have hle := (abs_sub_ge_iff_of_lt hlt).1 (h.abs_size_sub_le hy)
  refine ⟨hle, fun hodd => lt_of_le_of_ne hle fun heq => ?_⟩
  have heven := h.even_of_size hy hlt.ne ((abs_sub_eq_iff_of_lt hlt).2 heq.symm)
  omega

theorem Nearest.covers (h : x.Nearest (signed x.negative r)) (hr : 0 ≤ r)
    (hlt : r < overflowBound) : x.Covers r := by
  have hw := x.weight_pos
  have hgap := x.gapBelow_pos
  have hup : 2 * r ≤ 2 * x.size + x.weight ∧
      (x.significand % 2 = 1 → 2 * r < 2 * x.size + x.weight) := by
    rcases x.exists_size_above with ⟨y, hy, hsize, -⟩ | ⟨hm, he⟩
    · have := h.le_middle hy (by linarith)
      rw [hsize, ← add_assoc, ← two_mul] at this
      exact this
    · have hcast : (x.significand : ℚ) + 1 = 2 ^ 53 := by exact_mod_cast hm
      have hbound := two_mul_overflowBound
      have : 2 * r < 2 * x.size + x.weight := by
        rw [← he, ← weight] at hbound
        rw [size, eq_sub_of_add_eq hcast]
        linarith
      exact ⟨this.le, fun _ => this⟩
  have hlow : 2 * x.size - x.gapBelow ≤ 2 * r ∧
      (x.significand % 2 = 1 → 2 * x.size - x.gapBelow < 2 * r) := by
    rcases Nat.eq_zero_or_pos x.significand with hx | hx
    · have hs := size_of_significand hx
      exact ⟨by linarith, fun _ => by linarith⟩
    · obtain ⟨y, hy, hsize⟩ := exists_size_below hx
      have := h.middle_le hy (by linarith)
      rw [hsize, sub_add_eq_add_sub, ← two_mul] at this
      exact this
  exact covers_iff.2 ⟨hlow.1, hup.1, fun hodd => ⟨hlow.2 hodd, hup.2 hodd⟩⟩

/-- **A double covers the numbers that it is nearest to.** -/
theorem covers_iff_nearest (hr : 0 ≤ r) (hlt : r < overflowBound) :
    x.Covers r ↔ x.Nearest (signed x.negative r) :=
  ⟨fun h => h.nearest hr, fun h => h.covers hr hlt⟩

/-! ### Only one double covers a number -/

/-- A double is known by its sign and its magnitude. -/
theorem eq_of_size (hsign : x.negative = y.negative) (h : x.size = y.size) : x = y := by
  have hle : ∀ {x y : Finite}, x.size = y.size → y.exponent ≤ x.exponent := by
    intro x y h
    by_contra hlt
    have hlt := not_le.1 hlt
    have hne : y.exponent ≠ minExponent := by
      have := x.minExponent_le
      omega
    have hx := two_mul_size_le hlt
    have hy := le_size_sub_gapBelow hne
    have hgap := y.gapBelow_pos
    rw [h] at hx
    linarith
  have he : x.exponent = y.exponent := le_antisymm (hle h.symm) (hle h)
  have hm : x.significand = y.significand := by
    rw [size, size, weight, weight, he, mul_left_inj' (zpow_ne_zero _ (by norm_num))] at h
    exact_mod_cast h
  exact Finite.ext hsign hm he

/-- Two doubles would have the number in their middle and even significands, but then they are
neighbours. -/
theorem Covers.size_le (hx : x.Covers r) (hy : y.Covers r) (hsign : y.negative = x.negative) :
    y.size ≤ x.size := by
  by_contra hgt
  have hlt := not_le.1 hgt
  have hle := (abs_sub_le_iff_of_lt hlt).1 (hx.abs_size_sub_le y)
  have hge := (abs_sub_ge_iff_of_lt hlt).1 (hy.abs_size_sub_le x)
  have htie := (abs_sub_eq_iff_of_lt hlt).2 (le_antisymm hle hge)
  have hnext : y.size = x.size + x.weight := by
    have hgap := x.gapBelow_pos
    have hup := (covers_iff.1 hx).2.1
    rcases x.size_cases y with h | h | h
    · linarith
    · linarith
    · linarith
  have heven := hx.even_of_size hlt.ne' htie.symm
  have heven' := hy.even_of_size hlt.ne htie
  rcases x.exists_size_above with ⟨z, hz, hsize, hodd⟩ | ⟨hm, -⟩
  · rw [eq_of_size (hz.trans hsign.symm) (hsize.trans hnext.symm)] at hodd
    omega
  · omega

/-- **Only one double of a sign covers a number.** -/
theorem Covers.unique (hx : x.Covers r) (hy : y.Covers r) (hsign : x.negative = y.negative) :
    x = y :=
  eq_of_size hsign (le_antisymm (hy.size_le hx hsign) (hx.size_le hy hsign.symm))

end Finite

end Double

end JsonShelf
