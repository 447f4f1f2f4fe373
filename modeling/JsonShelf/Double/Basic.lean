/-!
# Doubles

Double precision floating-point values as exact data: a sign, a significand below `2 ^ 53` and an
exponent of two. The exponent is the least one at which the value has a significand in range, so
every value has one form only; zero has the least exponent of all, and both signs.

## Main definitions

* `Double.Finite` — sign, significand and exponent of a finite double
* `Double` — a finite double, an infinity, or no number
-/

namespace JsonShelf

namespace Double

/-- Significands are below this bound, which is `2 ^ 53`. -/
def significandBound : Nat := Nat.pow 2 53

/-- The least exponent of a finite double. -/
def minExponent : Int := -1074

/-- The greatest exponent of a finite double. -/
def maxExponent : Int := 971

/-- A finite double, of magnitude `significand * 2 ^ exponent`. -/
@[ext] structure Finite where
  /-- Whether the sign is minus; zero has a sign too. -/
  negative : Bool
  /-- The significand, which is below `2 ^ 53`. -/
  significand : Nat
  /-- The exponent of two. -/
  exponent : Int
  significand_lt : significand < significandBound
  minExponent_le : minExponent ≤ exponent
  exponent_le : exponent ≤ maxExponent
  /-- The significand fills its 53 bits unless the exponent is the least one. -/
  normal : exponent = minExponent ∨ significandBound ≤ 2 * significand
deriving DecidableEq

/-- Zero, of either sign. -/
def Finite.zero (negative : Bool) : Finite where
  negative := negative
  significand := 0
  exponent := minExponent
  significand_lt := by decide
  minExponent_le := by decide
  exponent_le := by decide
  normal := .inl rfl

end Double

/-- A double precision value. -/
inductive Double
  /-- A finite value. -/
  | finite (x : Double.Finite)
  /-- An infinity, of either sign. -/
  | infinite (negative : Bool)
  /-- The value that is no number. -/
  | nan
deriving DecidableEq

/-- Whether a double is neither an infinity nor `nan`. -/
def Double.isFinite : Double → Bool
  | .finite _ => true
  | _ => false

end JsonShelf
