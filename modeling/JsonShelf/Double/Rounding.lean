import JsonShelf.Double.Basic

/-!
# Rounding to a double

A decimal number is rounded to the nearest double, and a tie goes to the even significand. All of it
is done on exact ratios of natural numbers: the place of the last significand bit is found from the
binary logarithm of the ratio, the ratio is divided there, and a carry out of the 53 bits moves the
place up by one.

Decimals of extreme scale are settled by their magnitude alone, so that no power of ten is ever
taken that is much larger than the digits at hand.

## Main definitions

* `Double.roundDiv` — a quotient to the nearest whole number, ties to even
* `Double.ofRatio` — a positive ratio to the nearest double
* `Double.ofDecimal` — `digits * 10 ^ scale` to the nearest double
-/

namespace JsonShelf

namespace Double

/-- The whole number nearest to `num / den`; of two that are equally near, the even one. -/
def roundDiv (num den : Nat) : Nat :=
  let low := num / den
  let twice := 2 * (num % den)
  if twice < den then low
  else if den < twice then low + 1
  else low + low % 2

/-- The greatest `k` with `2 ^ k ≤ num / den`, for positive arguments. -/
def floorLog2 (num den : Nat) : Int :=
  let k : Int := (num.log2 : Int) - (den.log2 : Int)
  if den * Nat.pow 2 k.toNat ≤ num * Nat.pow 2 (-k).toNat then k else k - 1

/-- The exponent at which a ratio has a significand of 53 bits, or the least exponent if that is
greater. -/
def lastPlace (num den : Nat) : Int := max minExponent (floorLog2 num den - 52)

/-- The finite double `significand * 2 ^ exponent`, if the two are in their ranges. -/
def Finite.ofParts? (negative : Bool) (significand : Nat) (exponent : Int) : Option Finite :=
  if h : significand < significandBound ∧ minExponent ≤ exponent ∧ exponent ≤ maxExponent ∧
      (exponent = minExponent ∨ significandBound ≤ 2 * significand) then
    some ⟨negative, significand, exponent, h.1, h.2.1, h.2.2.1, h.2.2.2⟩
  else none

theorem Finite.ofParts?_self (x : Finite) :
    ofParts? x.negative x.significand x.exponent = some x :=
  dif_pos ⟨x.significand_lt, x.minExponent_le, x.exponent_le, x.normal⟩

/-- The double of a rounded significand, which may just have reached `2 ^ 53`. What is too large to
be finite is infinite. -/
def ofRounded (negative : Bool) (significand : Nat) (exponent : Int) : Double :=
  let parts :=
    if significand = significandBound then (significand / 2, exponent + 1)
    else (significand, exponent)
  match Finite.ofParts? negative parts.1 parts.2 with
  | some x => finite x
  | none => infinite negative

/-- The double nearest to the positive ratio `num / den`, with a sign. -/
def ofRatio (negative : Bool) (num den : Nat) : Double :=
  let place := lastPlace num den
  let significand := roundDiv (num * Nat.pow 2 (-place).toNat) (den * Nat.pow 2 place.toNat)
  ofRounded negative significand place

/-- From this scale on every positive decimal is beyond the finite doubles. -/
def overflowScale : Int := 310

/-- Decimals below ten to this power are nearer to zero than to any other double. -/
def underflowScale : Int := -324

/-- The double nearest to `digits * 10 ^ scale`, with a sign. -/
def ofDecimal (negative : Bool) (digits : Nat) (scale : Int) : Double :=
  if digits = 0 then finite (.zero negative)
  else if overflowScale ≤ scale then infinite negative
  else if scale + digits.log2 + 1 ≤ underflowScale then finite (.zero negative)
  else ofRatio negative (digits * Nat.pow 10 scale.toNat) (Nat.pow 10 (-scale).toNat)

end Double

end JsonShelf
