import JsonShelf.Proofs.Double.CorrectRounding
import Mathlib.Tactic.FieldSimp

/-!
# The shortest decimal reads back

The shortest decimal of a finite double is rounded to this very double. The search for it counts on
a decimal grid, in quarters of the distance of neighbouring doubles, and what it accepts is what the
double covers.

## Main definitions

* `Decimal.value` — the number that a decimal stands for

## Main results

* `Finite.reads_iff_covers` — the search accepts what the double covers
* `Finite.onGrid?_cases`, `Finite.exists_coarsest` — what is taken from a grid, and from which one
* `Finite.covers_value_shortest` — a double covers its shortest decimal
* `Finite.ofDecimal_of_value_shortest` — the shortest decimal, however its digits are scaled, reads
  back
-/

namespace JsonShelf

namespace Double

/-- The number that a decimal stands for. -/
def Decimal.value (d : Decimal) : ℚ := d.digits * 10 ^ d.scale

namespace Finite

/-! ### From the finest grid to the rationals -/

/-- The distance of neighbouring doubles, measured on the finest grid, is the weight. -/
theorem unit_mul_finestScale (x : Finite) : (x.unit : ℚ) * 10 ^ x.finestScale = x.weight := by
  rw [unit, finestScale, weight, Nat.pow_eq, Nat.pow_eq]
  push_cast
  rcases le_or_gt 0 x.exponent with h | h
  · obtain ⟨n, hn⟩ := Int.eq_ofNat_of_zero_le h
    rw [min_eq_right h, hn]
    simp
  · obtain ⟨n, hn⟩ := Int.eq_ofNat_of_zero_le (show 0 ≤ -x.exponent by omega)
    have he : x.exponent = -(n : ℤ) := by omega
    rw [min_eq_left h.le, he]
    simp only [neg_neg, Int.toNat_natCast, zpow_neg, zpow_natCast,
      show (-(n : ℤ)).toNat = 0 by omega, pow_zero, one_mul]
    rw [show (10 : ℚ) = 2 * 5 by norm_num, mul_pow]
    field_simp

/-- The counting on the finest grid decides what a double covers. -/
theorem reads_iff_covers {x : Finite} {n : ℕ} :
    x.Reads n ↔ x.Covers (n * 10 ^ x.finestScale) := by
  have hs : (0 : ℚ) < 10 ^ x.finestScale := zpow_pos (by norm_num) _
  -- the four bounds, counted in units of the finest grid
  have hlow : (4 * x.significand - x.quartersBelow) * x.weight ≤ 4 * (n * 10 ^ x.finestScale) ↔
      4 * (x.significand * x.unit) ≤ 4 * n + x.quartersBelow * x.unit := by
    rw [← x.unit_mul_finestScale, ← mul_assoc, ← mul_assoc, mul_le_mul_iff_left₀ hs, sub_mul,
      sub_le_iff_le_add, mul_assoc]
    exact_mod_cast Iff.rfl
  have hlow' : (4 * x.significand - x.quartersBelow) * x.weight < 4 * (n * 10 ^ x.finestScale) ↔
      4 * (x.significand * x.unit) < 4 * n + x.quartersBelow * x.unit := by
    rw [← x.unit_mul_finestScale, ← mul_assoc, ← mul_assoc, mul_lt_mul_iff_left₀ hs, sub_mul,
      sub_lt_iff_lt_add, mul_assoc]
    exact_mod_cast Iff.rfl
  have hup : 4 * (n * 10 ^ x.finestScale) ≤ (4 * x.significand + 2) * x.weight ↔
      4 * n ≤ 4 * (x.significand * x.unit) + 2 * x.unit := by
    rw [← x.unit_mul_finestScale, ← mul_assoc, ← mul_assoc, mul_le_mul_iff_left₀ hs, add_mul,
      mul_assoc]
    exact_mod_cast Iff.rfl
  have hup' : 4 * (n * 10 ^ x.finestScale) < (4 * x.significand + 2) * x.weight ↔
      4 * n < 4 * (x.significand * x.unit) + 2 * x.unit := by
    rw [← x.unit_mul_finestScale, ← mul_assoc, ← mul_assoc, mul_lt_mul_iff_left₀ hs, add_mul,
      mul_assoc]
    exact_mod_cast Iff.rfl
  simp only [Reads, magnitude]
  rcases Nat.mod_two_eq_zero_or_one x.significand with heven | hodd
  · rw [if_pos heven, Nat.lt_succ_iff, Nat.lt_succ_iff, ← hlow, ← hup]
    exact ⟨fun h => ⟨h.1, h.2, fun _ => by omega, fun _ => by omega⟩,
      fun h => ⟨h.lower, h.upper⟩⟩
  · rw [if_neg (by omega), Nat.add_zero, Nat.add_zero, ← hlow', ← hup']
    exact ⟨fun h => ⟨h.1.le, h.2.le, fun _ => h.1, fun _ => h.2⟩,
      fun h => ⟨h.lower_of_odd hodd, h.upper_of_odd hodd⟩⟩

/-- A point of a grid, as a point of the finest grid. -/
theorem mul_zpow_finestScale_add (x : Finite) (n k : ℕ) :
    (n : ℚ) * 10 ^ (x.finestScale + k) = (n * 10 ^ k : ℕ) * 10 ^ x.finestScale := by
  rw [zpow_add₀ (by norm_num), zpow_natCast]
  push_cast
  ring

theorem reads_mul_iff_covers {x : Finite} {n k : ℕ} :
    x.Reads (n * 10 ^ k) ↔ x.Covers (n * 10 ^ (x.finestScale + k)) := by
  rw [mul_zpow_finestScale_add, reads_iff_covers]

/-! ### The search -/

/-- The point taken from a grid is one of the two next to the double, and if the other one reads
back too, it is no nearer, nor is it as near unless the point taken is even. -/
theorem onGrid?_cases {x : Finite} {k digits : ℕ} (h : x.onGrid? k = some digits) :
    (digits = x.magnitude / 10 ^ k ∧ x.Reads (digits * 10 ^ k) ∧
        (x.Reads ((digits + 1) * 10 ^ k) → 2 * (x.magnitude % 10 ^ k) ≤ 10 ^ k ∧
          (digits % 2 = 1 → 2 * (x.magnitude % 10 ^ k) < 10 ^ k))) ∨
      ∃ low, digits = low + 1 ∧ low = x.magnitude / 10 ^ k ∧ x.Reads (digits * 10 ^ k) ∧
        (x.Reads (low * 10 ^ k) → 10 ^ k ≤ 2 * (x.magnitude % 10 ^ k) ∧
          (digits % 2 = 1 → 10 ^ k < 2 * (x.magnitude % 10 ^ k))) := by
  rw [onGrid?] at h
  simp only [Nat.pow_eq] at h
  generalize 10 ^ k = step at *
  generalize x.magnitude / step = low at *
  generalize x.magnitude % step = rem at *
  split at h
  · next hlow =>
    split at h
    · next hhigh =>
      split at h
      · next hlt =>
        cases h
        exact .inl ⟨rfl, hlow, fun _ => ⟨hlt.le, fun _ => hlt⟩⟩
      split at h
      · next hgt =>
        cases h
        exact .inr ⟨low, rfl, rfl, hhigh, fun _ => ⟨hgt.le, fun _ => hgt⟩⟩
      · cases h
        rcases Nat.mod_two_eq_zero_or_one low with heven | hodd
        · rw [heven, Nat.add_zero]
          exact .inl ⟨rfl, hlow, fun _ => ⟨by omega, fun hodd => by omega⟩⟩
        · rw [hodd]
          exact .inr ⟨low, rfl, rfl, hhigh, fun _ => ⟨by omega, fun hodd => by omega⟩⟩
    · next hhigh =>
      cases h
      exact .inl ⟨rfl, hlow, fun hreads => absurd hreads hhigh⟩
  · next hlow =>
    split at h
    · next hhigh =>
      cases h
      exact .inr ⟨low, rfl, rfl, hhigh, fun hreads => absurd hreads hlow⟩
    · cases h

theorem reads_of_onGrid? {x : Finite} {k digits : ℕ} (h : x.onGrid? k = some digits) :
    x.Reads (digits * 10 ^ k) := by
  rcases onGrid?_cases h with ⟨-, hreads, -⟩ | ⟨low, -, -, hreads, -⟩
  · exact hreads
  · exact hreads

theorem onGrid?_zero (x : Finite) : x.onGrid? 0 = some x.magnitude := by
  simp only [onGrid?, Nat.pow_eq, pow_zero, Nat.div_one, Nat.mul_one, Nat.mod_one, Nat.mul_zero]
  rw [if_pos x.reads_magnitude, if_pos Nat.one_pos, ite_self]

/-- The search ends on the first grid with a point that reads back. -/
theorem exists_coarsest (x : Finite) (k : ℕ) :
    ∃ j, (x.coarsest k).scale = x.finestScale + (j : ℕ) ∧
      x.onGrid? j = some (x.coarsest k).digits ∧ ∀ i, j < i → i ≤ k → x.onGrid? i = none := by
  induction k with
  | zero => exact ⟨0, (Int.add_zero _).symm, x.onGrid?_zero, fun i hi hk => by omega⟩
  | succ k ih =>
    rw [coarsest]
    split
    · next digits h => exact ⟨k + 1, rfl, h, fun i hi hk => by omega⟩
    · next h =>
      obtain ⟨j, hscale, hgrid, hnone⟩ := ih
      refine ⟨j, hscale, hgrid, fun i hi hk => ?_⟩
      rcases Nat.lt_or_ge k i with hlt | hge
      · rwa [show i = k + 1 by omega]
      · exact hnone i hi hge

/-- A double covers what is found by a search from any grid on. -/
theorem covers_value_coarsest (x : Finite) (k : ℕ) : x.Covers (x.coarsest k).value := by
  obtain ⟨j, hscale, hgrid, -⟩ := x.exists_coarsest k
  rw [Decimal.value, hscale]
  exact reads_mul_iff_covers.1 (reads_of_onGrid? hgrid)

/-- A double covers its shortest decimal. -/
theorem covers_value_shortest (x : Finite) : x.Covers x.shortest.value := by
  rw [shortest]
  split
  · next hx =>
    rw [Decimal.value, Nat.cast_zero, zero_mul]
    exact covers_of_significand_eq_zero hx le_rfl (by linarith [x.weight_pos])
  · exact x.covers_value_coarsest _

/-- **The shortest decimal reads back**, however its digits are scaled. -/
theorem ofDecimal_of_value_shortest {x : Finite} {digits : ℕ} {scale : ℤ}
    (h : (digits * 10 ^ scale : ℚ) = x.shortest.value) :
    ofDecimal x.negative digits scale = finite x :=
  ofDecimal_eq_finite_iff.2 ⟨rfl, h ▸ x.covers_value_shortest⟩

end Finite

end Double

end JsonShelf
