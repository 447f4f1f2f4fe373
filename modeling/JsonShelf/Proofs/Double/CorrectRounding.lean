import JsonShelf.Double.Rounding
import JsonShelf.Proofs.Double.Nearest

/-!
# Rounding is to nearest, ties to even

A decimal is rounded to the double nearest to it, of two that are equally near to the one with the
even significand, and to an infinity if it is beyond the doubles by half of their last distance.
`RoundsTo` says so by comparing with every double there is. It knows nothing of the places,
remainders and carries that rounding computes with, and it settles the outcome for every decimal.

What is shown of the computation is that a number is covered by the double it is rounded to. Nothing
has to be shown in the other direction, because no number is covered by two doubles.

## Main definitions

* `RoundsTo` — the double that a number of given sign is rounded to

## Main results

* `ofRatio_cases`, `ofDecimal_cases` — what is rounded is covered by the outcome, or out of range
* `ofDecimal_eq_finite_iff` — a decimal is rounded to the double that covers it
* `roundsTo_ofDecimal_iff` — rounding a decimal is correct, and nothing else would be
-/

namespace JsonShelf

namespace Double

/-- What a number, given by sign and magnitude, is rounded to. -/
inductive RoundsTo (negative : Bool) (r : ℚ) : Double → Prop
  | finite {x : Finite} (hsign : x.negative = negative) (hlt : r < overflowBound)
    (hnearest : x.Nearest (signed negative r)) : RoundsTo negative r (.finite x)
  | infinite (hle : overflowBound ≤ r) : RoundsTo negative r (.infinite negative)

/-- A number lies within half a unit of a multiple of the unit, and at the ends of this range only
if the multiple is even. -/
structure WithinHalf (m : ℕ) (unit r : ℚ) : Prop where
  lower : (2 * m - 1) * unit ≤ 2 * r
  upper : 2 * r ≤ (2 * m + 1) * unit
  lower_of_odd : m % 2 = 1 → (2 * m - 1) * unit < 2 * r
  upper_of_odd : m % 2 = 1 → 2 * r < (2 * m + 1) * unit

/-- A ratio, rounded at a place. -/
def significandAt (num den : ℕ) (place : ℤ) : ℕ :=
  roundDiv (num * 2 ^ (-place).toNat) (den * 2 ^ place.toNat)

/-! ### Ratios -/

/-- A power with a whole exponent as the ratio that rounding computes with. -/
theorem zpow_eq_div (b : ℕ) (hb : 0 < b) (k : ℤ) :
    (b : ℚ) ^ k = (b ^ k.toNat : ℕ) / (b ^ (-k).toNat : ℕ) := by
  have hb' : (b : ℚ) ≠ 0 := by exact_mod_cast hb.ne'
  rcases le_or_gt 0 k with h | h
  · obtain ⟨n, rfl⟩ := Int.eq_ofNat_of_zero_le h
    simp
  · obtain ⟨n, hn⟩ := Int.eq_ofNat_of_zero_le (show 0 ≤ -k by omega)
    have hk : k = -(n : ℤ) := by omega
    rw [hk]
    simp

/-- A ratio multiplied by a power of `b`, as the ratio of the natural numbers that rounding computes
with. -/
theorem div_mul_zpow (b : ℕ) (hb : 0 < b) (num den : ℕ) (k : ℤ) :
    (num : ℚ) / den * b ^ k = (num * b ^ k.toNat : ℕ) / (den * b ^ (-k).toNat : ℕ) := by
  rw [zpow_eq_div b hb]
  push_cast
  rw [div_mul_div_comm]

/-- A decimal as the ratio of natural numbers that is rounded. -/
theorem decimal_eq_div (digits : ℕ) (scale : ℤ) :
    (digits * 10 ^ scale : ℚ) = (digits * 10 ^ scale.toNat : ℕ) / (10 ^ (-scale).toNat : ℕ) := by
  have hz := div_mul_zpow 10 (by norm_num) digits 1 scale
  rwa [Nat.cast_one, div_one, Nat.one_mul] at hz

/-- The ratio that is rounded at a place, in terms of the weight of this place. -/
theorem ratio_mul_two_zpow (num den : ℕ) (k : ℤ) :
    ((num * 2 ^ (-k).toNat : ℕ) / (den * 2 ^ k.toNat : ℕ) : ℚ) * 2 ^ k = num / den := by
  have hz := div_mul_zpow 2 (by norm_num) num den (-k)
  rw [neg_neg, Nat.cast_ofNat] at hz
  rw [← hz, mul_assoc, ← zpow_add₀ (by norm_num), neg_add_cancel, zpow_zero, mul_one]

theorem WithinHalf.mul {m : ℕ} {r unit : ℚ} (h : WithinHalf m 1 r) (hunit : 0 < unit) :
    WithinHalf m unit (r * unit) := by
  obtain ⟨hlow, hup, hlow', hup'⟩ := h
  rw [mul_one] at hlow hup hlow' hup'
  refine ⟨?_, ?_, fun hodd => ?_, fun hodd => ?_⟩
  · rw [← mul_assoc, mul_le_mul_iff_left₀ hunit]
    exact hlow
  · rw [← mul_assoc, mul_le_mul_iff_left₀ hunit]
    exact hup
  · rw [← mul_assoc, mul_lt_mul_iff_left₀ hunit]
    exact hlow' hodd
  · rw [← mul_assoc, mul_lt_mul_iff_left₀ hunit]
    exact hup' hodd

/-- A quotient is rounded within half of a whole number. -/
theorem withinHalf_roundDiv (a : ℕ) {b : ℕ} (hb : 0 < b) : WithinHalf (roundDiv a b) 1 (a / b) := by
  have hb' : (0 : ℚ) < b := by exact_mod_cast hb
  have hround : roundDiv a b =
      if 2 * (a % b) < b then a / b else if b < 2 * (a % b) then a / b + 1
      else a / b + a / b % 2 := rfl
  have hquot : (a / b : ℚ) = (a / b : ℕ) + (a % b : ℕ) / b := by
    rw [div_eq_iff hb'.ne', add_mul, div_mul_cancel₀ _ hb'.ne', mul_comm]
    exact_mod_cast (Nat.div_add_mod a b).symm
  have hpart : ((a % b : ℕ) / b : ℚ) < 1 := by
    rw [div_lt_one hb']
    exact_mod_cast Nat.mod_lt a hb
  have hnonneg : (0 : ℚ) ≤ (a % b : ℕ) / b := by positivity
  rw [hquot, hround]
  generalize a / b = low
  split
  · next hlt =>
    have : 2 * ((a % b : ℕ) / b : ℚ) < 1 := by
      rw [mul_div_assoc', div_lt_one hb']
      exact_mod_cast hlt
    exact ⟨by linarith, by linarith, fun _ => by linarith, fun _ => by linarith⟩
  split
  · next hlt =>
    have : 1 < 2 * ((a % b : ℕ) / b : ℚ) := by
      rw [mul_div_assoc', one_lt_div hb']
      exact_mod_cast hlt
    have hcast : ((low + 1 : ℕ) : ℚ) = low + 1 := Nat.cast_succ low
    exact ⟨by linarith, by linarith, fun _ => by linarith, fun _ => by linarith⟩
  · next hle hge =>
    have : 2 * ((a % b : ℕ) / b : ℚ) = 1 := by
      rw [mul_div_assoc', div_eq_one_iff_eq hb'.ne']
      exact_mod_cast (by omega : 2 * (a % b) = b)
    rcases Nat.mod_two_eq_zero_or_one low with h | h
    · rw [h, Nat.add_zero]
      exact ⟨by linarith, by linarith, fun hodd => by omega, fun hodd => by omega⟩
    · have hcast : ((low + 1 : ℕ) : ℚ) = low + 1 := Nat.cast_succ low
      rw [h]
      exact ⟨by linarith, by linarith, fun hodd => by omega, fun hodd => by omega⟩

/-- A ratio is rounded within half of a unit of the place. -/
theorem withinHalf_significandAt (num : ℕ) {den : ℕ} (hden : 0 < den) (place : ℤ) :
    WithinHalf (significandAt num den place) (2 ^ place) (num / den) := by
  rw [← ratio_mul_two_zpow num den place]
  exact (withinHalf_roundDiv _ (by positivity)).mul (zpow_pos (by norm_num) _)

/-! ### The place of the last bit -/

theorem two_zpow_log2_le {n : ℕ} (h : 0 < n) : (2 : ℚ) ^ (n.log2 : ℤ) ≤ n := by
  rw [zpow_natCast]
  exact_mod_cast Nat.log2_self_le h.ne'

theorem lt_two_zpow_log2 (n : ℕ) : (n : ℚ) < 2 ^ ((n.log2 : ℤ) + 1) := by
  rw [zpow_add₀ (by norm_num), zpow_natCast, zpow_one]
  exact_mod_cast (Nat.lt_log2_self (n := n)).trans_eq (pow_succ 2 _)

/-- The binary logarithm of a positive ratio, rounded down. -/
theorem floorLog2_bounds {num den : ℕ} (hnum : 0 < num) (hden : 0 < den) :
    (2 : ℚ) ^ floorLog2 num den ≤ num / den ∧ (num / den : ℚ) < 2 ^ (floorLog2 num den + 1) := by
  have hden' : (0 : ℚ) < den := by exact_mod_cast hden
  set k : ℤ := (num.log2 : ℤ) - (den.log2 : ℤ) with hk
  have hpos : ∀ j : ℤ, (0 : ℚ) < 2 ^ j := fun j => zpow_pos (by norm_num) j
  have hlow : (2 : ℚ) ^ (k - 1) ≤ num / den := by
    rw [le_div_iff₀ hden']
    calc (2 : ℚ) ^ (k - 1) * den ≤ 2 ^ (k - 1) * 2 ^ ((den.log2 : ℤ) + 1) :=
          mul_le_mul_of_nonneg_left (lt_two_zpow_log2 den).le (hpos _).le
      _ = 2 ^ (num.log2 : ℤ) := by rw [← zpow_add₀ (by norm_num)]; congr 1; omega
      _ ≤ num := two_zpow_log2_le hnum
  have hup : (num / den : ℚ) < 2 ^ (k + 1) := by
    rw [div_lt_iff₀ hden']
    calc (num : ℚ) < 2 ^ ((num.log2 : ℤ) + 1) := lt_two_zpow_log2 num
      _ = 2 ^ (k + 1) * 2 ^ (den.log2 : ℤ) := by rw [← zpow_add₀ (by norm_num)]; congr 1; omega
      _ ≤ 2 ^ (k + 1) * den :=
          mul_le_mul_of_nonneg_left (two_zpow_log2_le hden) (hpos _).le
  -- the comparison that the definition makes is the one with `2 ^ k`
  have htest : den * 2 ^ k.toNat ≤ num * 2 ^ (-k).toNat ↔ (2 : ℚ) ^ k ≤ num / den := by
    have h2 : (0 : ℚ) < (2 ^ (-k).toNat : ℕ) := by positivity
    have hz := zpow_eq_div 2 (by norm_num) k
    rw [Nat.cast_ofNat] at hz
    rw [hz, div_le_div_iff₀ h2 hden', mul_comm _ (den : ℚ)]
    exact_mod_cast Iff.rfl
  have hfloor : floorLog2 num den =
      if den * 2 ^ k.toNat ≤ num * 2 ^ (-k).toNat then k else k - 1 := rfl
  rw [hfloor]
  split
  · next h => exact ⟨htest.1 h, hup⟩
  · next h =>
    refine ⟨hlow, ?_⟩
    rw [sub_add_cancel]
    exact not_le.1 fun h' => h (htest.2 h')

/-- At the place of the last bit a ratio has at most 53 bits, and no fewer if there is room for
them. -/
theorem lastPlace_bounds {num den : ℕ} (hnum : 0 < num) (hden : 0 < den) :
    (num / den : ℚ) < 2 ^ 53 * 2 ^ lastPlace num den ∧
      (lastPlace num den ≠ minExponent → (2 ^ 52 : ℚ) * 2 ^ lastPlace num den ≤ num / den) := by
  obtain ⟨hlow, hup⟩ := floorLog2_bounds hnum hden
  have hplace : lastPlace num den = max minExponent (floorLog2 num den - 52) := rfl
  have hpow : ∀ n : ℕ, (2 ^ n : ℚ) * 2 ^ lastPlace num den = 2 ^ (lastPlace num den + n) := by
    intro n
    rw [zpow_add₀ (by norm_num), zpow_natCast, mul_comm]
  rw [hpow, hpow]
  refine ⟨hup.trans_le (zpow_le_zpow_right₀ (by norm_num) (by omega)), fun hne => ?_⟩
  rwa [show lastPlace num den + (52 : ℕ) = floorLog2 num den by omega]

/-- The rounded significand has at most 53 bits, up to a carry, and no fewer if there is room for
them. -/
theorem significandAt_bounds {num den : ℕ} (hnum : 0 < num) (hden : 0 < den) :
    significandAt num den (lastPlace num den) ≤ 2 ^ 53 ∧
      (lastPlace num den ≠ minExponent → 2 ^ 52 ≤ significandAt num den (lastPlace num den)) := by
  have hhalf := withinHalf_significandAt num hden (lastPlace num den)
  obtain ⟨hlt, hge⟩ := lastPlace_bounds hnum hden
  have hw : (0 : ℚ) < 2 ^ lastPlace num den := zpow_pos (by norm_num) _
  generalize significandAt num den (lastPlace num den) = m at *
  constructor
  · have h : (2 * m - 1 : ℚ) < 2 * 2 ^ 53 :=
      lt_of_mul_lt_mul_right (by linarith [hhalf.lower]) hw.le
    have h' : (2 * m : ℚ) < 2 * 2 ^ 53 + 1 := by linarith
    have : 2 * m < 2 * 2 ^ 53 + 1 := by exact_mod_cast h'
    omega
  · intro hne
    have h : (2 * 2 ^ 52 : ℚ) ≤ 2 * m + 1 :=
      le_of_mul_le_mul_right (by linarith [hge hne, hhalf.upper]) hw
    have : 2 * 2 ^ 52 ≤ 2 * m + 1 := by exact_mod_cast h
    omega

/-! ### Rounded significands -/

namespace Finite

variable {x : Finite} {r : ℚ}

/-- What is rounded to the significand at the place of a double is covered, where the place is not
too low for it. -/
theorem covers_of_withinHalf (h : WithinHalf x.significand x.weight r)
    (hfull : x.exponent ≠ minExponent → 2 ^ 52 * x.weight ≤ r) : x.Covers r := by
  obtain ⟨hlow, hup, hlow', hup'⟩ := h
  have hw := x.weight_pos
  have hsize : x.size = x.significand * x.weight := rfl
  rw [covers_iff]
  by_cases hm : 2 * x.significand = 2 ^ 53 ∧ x.exponent ≠ minExponent
  · have hfull := hfull hm.2
    have hcast : (x.significand : ℚ) = 2 ^ 52 := by
      exact_mod_cast (by omega : x.significand = 2 ^ 52)
    rw [hcast] at hsize hup
    rw [gapBelow_of_power hm]
    exact ⟨by linarith, by linarith, fun h => by omega⟩
  · rw [gapBelow_of_not_power hm]
    exact ⟨by linarith, by linarith, fun h => ⟨by linarith [hlow' h], by linarith [hup' h]⟩⟩

/-- What is rounded up to a power of two at the place below that of the double is covered. -/
theorem covers_of_carry (hm : x.significand = 2 ^ 52) (he : x.exponent ≠ minExponent)
    (hlow : (2 ^ 54 - 1) * x.weight ≤ 4 * r) (hlt : r < 2 ^ 52 * x.weight) : x.Covers r := by
  have hw := x.weight_pos
  have hcast : (x.significand : ℚ) = 2 ^ 52 := by exact_mod_cast hm
  have hgap : x.gapBelow = x.weight / 2 := gapBelow_of_power ⟨by rw [hm]; norm_num, he⟩
  have hsize : x.size = 2 ^ 52 * x.weight := by rw [size, hcast]
  rw [covers_iff, hgap, hsize]
  exact ⟨by linarith, by linarith, fun hodd => by rw [hm] at hodd; norm_num at hodd⟩

theorem ofRounded_eq_finite (x : Finite) :
    ofRounded x.negative x.significand x.exponent = finite x := by
  rw [ofRounded, if_neg x.significand_lt.ne, ofParts?_self]

/-- A carry out of the significand brings it back to the power of two that it has reached. -/
theorem ofRounded_carry {k : ℤ} (hm : x.significand = 2 ^ 52) (hk : x.exponent = k + 1) :
    ofRounded x.negative (2 ^ 53) k = finite x := by
  have hself := x.ofParts?_self
  rw [hm, hk] at hself
  rw [ofRounded, if_pos significandBound_eq.symm]
  simp only
  rw [show 2 ^ 53 / 2 = 2 ^ 52 by norm_num, hself]

end Finite

theorem ofParts?_eq_none (negative : Bool) (significand : ℕ) {exponent : ℤ}
    (h : maxExponent < exponent) : Finite.ofParts? negative significand exponent = none :=
  dif_neg fun hparts => absurd hparts.2.2.1 (not_le.2 h)

/-- What has no place among the exponents is infinite, as is what is carried to such a place. -/
theorem ofRounded_eq_infinite (negative : Bool) {significand : ℕ} {exponent : ℤ}
    (h : maxExponent < exponent ∨ significand = significandBound ∧ maxExponent ≤ exponent) :
    ofRounded negative significand exponent = infinite negative := by
  rw [ofRounded]
  by_cases hm : significand = significandBound
  · have hlt : maxExponent < exponent + 1 := by omega
    rw [if_pos hm, ofParts?_eq_none negative _ hlt]
  · have hlt : maxExponent < exponent := h.resolve_right fun h => hm h.1
    rw [if_neg hm, ofParts?_eq_none negative _ hlt]

/-- **A ratio is covered by the double it is rounded to**, or it is out of range. -/
theorem ofRatio_cases (negative : Bool) {num den : ℕ} (hnum : 0 < num) (hden : 0 < den) :
    (∃ x : Finite, ofRatio negative num den = finite x ∧ x.negative = negative ∧
        x.Covers (num / den)) ∨
      ofRatio negative num den = infinite negative ∧ overflowBound ≤ num / den := by
  have hdef : ofRatio negative num den =
      ofRounded negative (significandAt num den (lastPlace num den)) (lastPlace num den) := rfl
  have hhalf := withinHalf_significandAt num hden (lastPlace num den)
  obtain ⟨hm_le, hm_ge⟩ := significandAt_bounds hnum hden
  obtain ⟨hlt, hge⟩ := lastPlace_bounds hnum hden
  have hmin : minExponent ≤ lastPlace num den := le_max_left _ _
  have hmax := two_mul_overflowBound
  rw [hdef]
  generalize significandAt num den (lastPlace num den) = m at *
  generalize lastPlace num den = k at *
  generalize (num / den : ℚ) = r at *
  rcases Nat.lt_or_ge m (2 ^ 53) with hm_lt | hm_eq
  · rcases le_or_gt k maxExponent with hk | hk
    · have hnormal : k = minExponent ∨ significandBound ≤ 2 * m := by
        rw [Finite.significandBound_eq]
        omega
      let x : Finite := ⟨negative, m, k, hm_lt, hmin, hk, hnormal⟩
      exact .inl ⟨x, x.ofRounded_eq_finite, rfl, Finite.covers_of_withinHalf hhalf hge⟩
    · have hpow : (2 : ℚ) ^ (maxExponent + 1) ≤ 2 ^ k := zpow_le_zpow_right₀ (by norm_num) hk
      rw [zpow_add_one₀ (by norm_num)] at hpow
      have := hge (by rintro rfl; exact absurd hk (by decide))
      exact .inr ⟨ofRounded_eq_infinite negative (.inl hk), by linarith⟩
  · -- the significand is carried over to the next place
    obtain rfl : m = 2 ^ 53 := le_antisymm hm_le hm_eq
    have hlow : (2 * 2 ^ 53 - 1) * 2 ^ k ≤ 2 * r := by exact_mod_cast hhalf.lower
    rcases lt_or_ge k maxExponent with hk | hk
    · let x : Finite := ⟨negative, 2 ^ 52, k + 1, by decide, by omega, hk, .inr (by decide)⟩
      have hweight : x.weight = 2 ^ k * 2 := zpow_add_one₀ (by norm_num) k
      have hcovers : x.Covers r := by
        refine Finite.covers_of_carry rfl (by omega : k + 1 ≠ minExponent) ?_ ?_
        · rw [hweight]
          linarith
        · rw [hweight]
          linarith
      exact .inl ⟨x, Finite.ofRounded_carry (x := x) rfl rfl, rfl, hcovers⟩
    · have hpow : (2 : ℚ) ^ maxExponent ≤ 2 ^ k := zpow_le_zpow_right₀ (by norm_num) hk
      exact .inr ⟨ofRounded_eq_infinite negative (.inr ⟨rfl, hk⟩), by linarith⟩

/-! ### Decimals of extreme scale -/

/-- A decimal whose power of ten is out of reach is beyond the finite doubles. -/
theorem two_zpow_lt_of_overflowScale_le {digits : ℕ} {scale : ℤ} (hdigits : 0 < digits)
    (hscale : overflowScale ≤ scale) : (2 : ℚ) ^ (maxExponent + 53) < digits * 10 ^ scale := by
  have hdigits' : (1 : ℚ) ≤ digits := by exact_mod_cast hdigits
  have h : (2 : ℚ) ^ (maxExponent + 53) < 10 ^ overflowScale := by
    rw [show maxExponent + 53 = ((1024 : ℕ) : ℤ) from rfl,
      show overflowScale = ((310 : ℕ) : ℤ) from rfl, zpow_natCast, zpow_natCast]
    exact_mod_cast (by decide +kernel : 2 ^ 1024 < 10 ^ 310)
  calc (2 : ℚ) ^ (maxExponent + 53) < 10 ^ overflowScale := h
    _ ≤ 10 ^ scale := zpow_le_zpow_right₀ (by norm_num) hscale
    _ ≤ digits * 10 ^ scale := le_mul_of_one_le_left (zpow_pos (by norm_num) _).le hdigits'

/-- A decimal that is far below the least double is nearer to zero. -/
theorem lt_two_zpow_of_le_underflowScale {digits : ℕ} {scale : ℤ}
    (hscale : scale + digits.log2 + 1 ≤ underflowScale) :
    2 * (digits * 10 ^ scale : ℚ) < 2 ^ minExponent := by
  have hlog : (digits : ℚ) < 10 ^ ((digits.log2 : ℤ) + 1) := by
    have : digits < 10 ^ (digits.log2 + 1) :=
      (Nat.lt_log2_self (n := digits)).trans_le (Nat.pow_le_pow_left (by norm_num) _)
    exact_mod_cast this
  have hlt : (digits : ℚ) * 10 ^ scale < 10 ^ underflowScale :=
    calc (digits : ℚ) * 10 ^ scale
        < 10 ^ ((digits.log2 : ℤ) + 1) * 10 ^ scale :=
          mul_lt_mul_of_pos_right hlog (zpow_pos (by norm_num) _)
      _ = 10 ^ ((digits.log2 : ℤ) + 1 + scale) := by rw [← zpow_add₀ (by norm_num)]
      _ ≤ 10 ^ underflowScale := zpow_le_zpow_right₀ (by norm_num) (by omega)
  have h : 2 * (10 : ℚ) ^ underflowScale < 2 ^ minExponent := by
    rw [show minExponent = -((1074 : ℕ) : ℤ) from rfl,
      show underflowScale = -((324 : ℕ) : ℤ) from rfl, zpow_neg, zpow_neg, zpow_natCast,
      zpow_natCast, ← div_eq_mul_inv, ← one_div, div_lt_div_iff₀ (by positivity) (by positivity),
      one_mul]
    exact_mod_cast (by decide +kernel : 2 * 2 ^ 1074 < 10 ^ 324)
  linarith

/-- The power of two beyond the doubles is infinite. -/
theorem overflowBound_le : overflowBound ≤ 2 ^ (maxExponent + 53) := by
  have hw : (0 : ℚ) < 2 ^ maxExponent := zpow_pos (by norm_num) _
  have hbound := two_mul_overflowBound
  rw [zpow_add₀ (by norm_num), show (2 : ℚ) ^ (53 : ℤ) = 2 ^ 53 from rfl]
  linarith

/-- **A decimal is covered by the double it is rounded to**, or it is out of range. -/
theorem ofDecimal_cases (negative : Bool) (digits : ℕ) (scale : ℤ) :
    (∃ x : Finite, ofDecimal negative digits scale = finite x ∧ x.negative = negative ∧
        x.Covers (digits * 10 ^ scale)) ∨
      ofDecimal negative digits scale = infinite negative ∧
        overflowBound ≤ digits * 10 ^ scale := by
  have hnonneg : (0 : ℚ) ≤ digits * 10 ^ scale := by positivity
  rw [ofDecimal]
  rcases Nat.eq_zero_or_pos digits with hdigits | hdigits
  · have hw := (Finite.zero negative).weight_pos
    rw [if_pos hdigits, hdigits, Nat.cast_zero, zero_mul]
    exact .inl ⟨_, rfl, rfl, Finite.covers_of_significand_eq_zero rfl le_rfl (by linarith)⟩
  rw [if_neg hdigits.ne']
  split
  · next hscale =>
    have hlt := two_zpow_lt_of_overflowScale_le hdigits hscale
    exact .inr ⟨rfl, overflowBound_le.trans hlt.le⟩
  split
  · next hscale =>
    have hlt := lt_two_zpow_of_le_underflowScale hscale
    exact .inl ⟨_, rfl, rfl, Finite.covers_of_significand_eq_zero rfl hnonneg hlt.le⟩
  · have hpow : ∀ k : ℕ, 0 < 10 ^ k := fun k => Nat.pow_pos (by norm_num)
    rw [decimal_eq_div]
    exact ofRatio_cases negative (Nat.mul_pos hdigits (hpow _)) (hpow _)

variable {negative : Bool} {digits : ℕ} {scale : ℤ}

/-- **A decimal is rounded to the finite double that covers it**, if there is one. -/
theorem ofDecimal_eq_finite_iff {x : Finite} :
    ofDecimal negative digits scale = finite x ↔
      x.negative = negative ∧ x.Covers (digits * 10 ^ scale) := by
  constructor
  · intro h
    rcases ofDecimal_cases negative digits scale with ⟨y, hy, hsign, hcovers⟩ | ⟨hinfinite, -⟩
    · rw [h] at hy
      cases hy
      exact ⟨hsign, hcovers⟩
    · rw [h] at hinfinite
      cases hinfinite
  · rintro ⟨hsign, hcovers⟩
    rcases ofDecimal_cases negative digits scale with ⟨y, hy, hsign', hcovers'⟩ | ⟨-, hle⟩
    · rw [hy, hcovers.unique hcovers' (hsign.trans hsign'.symm)]
    · exact absurd hcovers.lt_overflowBound (not_lt.2 hle)

/-- A decimal is rounded to the double nearest to it. -/
theorem roundsTo_ofDecimal (negative : Bool) (digits : ℕ) (scale : ℤ) :
    RoundsTo negative (digits * 10 ^ scale) (ofDecimal negative digits scale) := by
  have hnonneg : (0 : ℚ) ≤ digits * 10 ^ scale := by positivity
  rcases ofDecimal_cases negative digits scale with ⟨x, hx, rfl, hcovers⟩ | ⟨hx, hle⟩
  · rw [hx]
    exact .finite rfl hcovers.lt_overflowBound (hcovers.nearest hnonneg)
  · rw [hx]
    exact .infinite hle

/-- **Rounding a decimal is correct**, and no other outcome would be. -/
theorem roundsTo_ofDecimal_iff {y : Double} :
    RoundsTo negative (digits * 10 ^ scale) y ↔ ofDecimal negative digits scale = y := by
  have hnonneg : (0 : ℚ) ≤ digits * 10 ^ scale := by positivity
  refine ⟨fun h => ?_, fun h => h ▸ roundsTo_ofDecimal negative digits scale⟩
  cases h with
  | finite hsign hlt hnearest =>
    subst hsign
    exact ofDecimal_eq_finite_iff.2 ⟨rfl, hnearest.covers hnonneg hlt⟩
  | infinite hle =>
    rcases ofDecimal_cases negative digits scale with ⟨x, -, -, hcovers⟩ | ⟨hx, -⟩
    · exact absurd hcovers.lt_overflowBound (not_lt.2 hle)
    · exact hx

end Double

end JsonShelf
