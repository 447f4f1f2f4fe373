import JsonShelf.Double.Basic
import Mathlib.Tactic.NormNum

/-!
# Patterns of 64 bits

Finite doubles are kept as sign, significand and exponent. As patterns of 64 bits they have a bit
for the sign, eleven bits for the exponent and 52 for the fraction, which is the significand without
its first bit; the first bit is told by the exponent. The two forms are the same: a pattern belongs
to a finite double unless its exponent bits are all ones, and to one only. So what is proved of all
finite doubles leaves out no pattern, be it of a zero, of a double below the normal ones or of the
greatest double.

## Main definitions

* `ofPattern` — the double of a pattern
* `Finite.pattern` — the pattern of a finite double

## Main results

* `ofPattern_eq_finite_iff` — the patterns of finite doubles
* `isFinite_ofPattern_iff` — which patterns these are
-/

namespace JsonShelf

namespace Double

/-! ### The parts of a pattern -/

/-- The sign, which is the first bit. -/
def signBit (b : BitVec 64) : Bool := decide (2 ^ 63 ≤ b.toNat)

/-- The eleven bits of the exponent. -/
def exponentBits (b : BitVec 64) : ℕ := b.toNat / 2 ^ 52 % 2 ^ 11

/-- The last 52 bits. -/
def fractionBits (b : BitVec 64) : ℕ := b.toNat % 2 ^ 52

theorem fractionBits_lt (b : BitVec 64) : fractionBits b < 2 ^ 52 :=
  Nat.mod_lt _ (by norm_num)

theorem exponentBits_lt (b : BitVec 64) : exponentBits b < 2 ^ 11 :=
  Nat.mod_lt _ (by norm_num)

/-- A pattern is made of its parts. -/
theorem toNat_eq_parts (b : BitVec 64) :
    b.toNat = (if signBit b then 2 ^ 63 else 0) + exponentBits b * 2 ^ 52 + fractionBits b := by
  have hlt := b.isLt
  simp only [signBit, exponentBits, fractionBits, decide_eq_true_eq]
  split <;> omega

/-! ### Patterns and doubles -/

theorem minExponent_le_maxExponent : minExponent ≤ maxExponent := by
  decide

/-- The double without the first bit of a significand of 53 bits: its exponent is the least one. -/
def Finite.ofFraction (negative : Bool) (fraction : ℕ) (h : fraction < 2 ^ 52) : Finite where
  negative := negative
  significand := fraction
  exponent := minExponent
  significand_lt := by
    rw [show significandBound = 2 ^ 53 from rfl]
    omega
  minExponent_le := Int.le_refl _
  exponent_le := minExponent_le_maxExponent
  normal := .inl rfl

/-- The double with all 53 bits of a significand, of which the first one is not in the pattern. -/
def Finite.ofNormal (negative : Bool) (fraction bits : ℕ) (h : fraction < 2 ^ 52) (hpos : 0 < bits)
    (hlt : bits < 2047) : Finite where
  negative := negative
  significand := 2 ^ 52 + fraction
  exponent := minExponent + bits - 1
  significand_lt := by
    rw [show significandBound = 2 ^ 53 from rfl]
    omega
  minExponent_le := by omega
  exponent_le := by
    rw [minExponent, maxExponent]
    omega
  normal := .inr (by
    rw [show significandBound = 2 ^ 53 from rfl]
    omega)

/-- The double of a pattern. -/
def ofPattern (b : BitVec 64) : Double :=
  if hmax : exponentBits b = 2047 then
    if fractionBits b = 0 then infinite (signBit b) else nan
  else if hzero : exponentBits b = 0 then
    finite (.ofFraction (signBit b) (fractionBits b) (fractionBits_lt b))
  else
    finite (.ofNormal (signBit b) (fractionBits b) (exponentBits b) (fractionBits_lt b)
      (Nat.pos_of_ne_zero hzero) (by have := exponentBits_lt b; omega))

/-- The pattern of a finite double. A significand of 53 bits adds one to the exponent bits. -/
def Finite.pattern (x : Finite) : BitVec 64 :=
  BitVec.ofNat 64 ((if x.negative then 2 ^ 63 else 0) +
    (x.exponent - minExponent).toNat * 2 ^ 52 + x.significand)

theorem Finite.toNat_pattern (x : Finite) : x.pattern.toNat =
    (if x.negative then 2 ^ 63 else 0) + (x.exponent - minExponent).toNat * 2 ^ 52 +
      x.significand := by
  have hlt : x.significand < 2 ^ 53 := x.significand_lt
  have hmax : x.exponent ≤ 971 := x.exponent_le
  have hmin : minExponent = -1074 := rfl
  rw [pattern, BitVec.toNat_ofNat, Nat.mod_eq_of_lt]
  split <;> omega

theorem Finite.signBit_pattern (x : Finite) : signBit x.pattern = x.negative := by
  have hlt : x.significand < 2 ^ 53 := x.significand_lt
  have hmax : x.exponent ≤ 971 := x.exponent_le
  have hmin : minExponent = -1074 := rfl
  rw [signBit, x.toNat_pattern]
  cases x.negative with
  | false => exact decide_eq_false (by rw [if_neg Bool.false_ne_true]; omega)
  | true => exact decide_eq_true (by rw [if_pos rfl]; omega)

theorem ofPattern_pattern (x : Finite) : ofPattern x.pattern = finite x := by
  have hx := x.toNat_pattern
  have hsign := x.signBit_pattern
  have hlt : x.significand < 2 ^ 53 := x.significand_lt
  have hmax : x.exponent ≤ 971 := x.exponent_le
  have hmin : minExponent = -1074 := rfl
  have hmin_le := x.minExponent_le
  have hnormal : x.exponent = minExponent ∨ 2 ^ 53 ≤ 2 * x.significand := x.normal
  generalize hs : (if x.negative then 2 ^ 63 else 0) = s at hx
  have hs' : s = 0 ∨ s = 2 ^ 63 := by
    rw [← hs]
    split
    · exact .inr rfl
    · exact .inl rfl
  rw [ofPattern]
  rcases Nat.lt_or_ge x.significand (2 ^ 52) with h | h
  · have he : x.exponent = minExponent := by omega
    have hbits : exponentBits x.pattern = 0 := by
      rw [exponentBits, hx, he]
      omega
    have hfraction : fractionBits x.pattern = x.significand := by
      rw [fractionBits, hx, he]
      omega
    rw [dif_neg (by omega), dif_pos hbits]
    exact congrArg finite (Finite.ext hsign hfraction he.symm)
  · have hbits : exponentBits x.pattern = (x.exponent - minExponent).toNat + 1 := by
      rw [exponentBits, hx]
      omega
    have hfraction : 2 ^ 52 + fractionBits x.pattern = x.significand := by
      rw [fractionBits, hx]
      omega
    have hexponent : minExponent + (exponentBits x.pattern : ℕ) - 1 = x.exponent := by omega
    rw [dif_neg (by omega), dif_neg (by omega)]
    exact congrArg finite (Finite.ext hsign hfraction hexponent)

theorem pattern_of_ofPattern {b : BitVec 64} {x : Finite} (h : ofPattern b = finite x) :
    x.pattern = b := by
  apply BitVec.eq_of_toNat_eq
  rw [x.toNat_pattern, toNat_eq_parts b]
  rw [ofPattern] at h
  split at h
  · split at h <;> cases h
  split at h
  · next hzero =>
    cases h
    rw [hzero]
    change _ + (minExponent - minExponent).toNat * 2 ^ 52 + fractionBits b = _
    rw [sub_self]
    rfl
  · next hzero =>
    cases h
    change _ + (minExponent + (exponentBits b : ℕ) - 1 - minExponent).toNat * 2 ^ 52 +
      (2 ^ 52 + fractionBits b) = _
    rw [show (minExponent + (exponentBits b : ℕ) - 1 - minExponent).toNat = exponentBits b - 1 by
      omega]
    change (if signBit b then 2 ^ 63 else 0) + _ + _ = _
    omega

/-- **The patterns of finite doubles**: each one has a pattern, and only one. -/
theorem ofPattern_eq_finite_iff {b : BitVec 64} {x : Finite} :
    ofPattern b = finite x ↔ x.pattern = b :=
  ⟨pattern_of_ofPattern, fun h => h ▸ ofPattern_pattern x⟩

/-- A pattern belongs to a finite double unless its exponent bits are all ones. -/
theorem isFinite_ofPattern_iff {b : BitVec 64} :
    (ofPattern b).isFinite ↔ exponentBits b ≠ 2047 := by
  rw [ofPattern]
  split
  · next hmax => split <;> simp [isFinite, hmax]
  · next hmax => split <;> simp [isFinite, hmax]

end Double

end JsonShelf
