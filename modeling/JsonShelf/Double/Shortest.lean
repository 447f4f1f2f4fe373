import JsonShelf.Double.Basic

/-!
# The shortest decimal of a double

A finite double is written with the fewest digits that still round to it. The reals that round to
a double form an interval around it, whose ends belong to it when the significand is even. Decimal
grids get finer by a factor of ten; the coarsest grid with a point in the interval has the shortest
digits. If it has a point there, then one of the two points next to the double is there as well. Of
two such points the nearer one is taken, and the even one of two that are equally near.

Everything is counted in units that are exact: the finest grid is the one on which the double itself
is a point, and the interval's ends are counted in quarters of its unit.

## Main definitions

* `Double.Decimal` — digits with a scale
* `Double.Finite.Reads` — whether a point of a grid lies in the interval
* `Double.Finite.shortest` — the shortest decimal
-/

namespace JsonShelf

namespace Double

/-- The number `digits * 10 ^ scale`. -/
structure Decimal where
  /-- The digits, as a whole number. -/
  digits : Nat
  /-- The power of ten of the last digit. -/
  scale : Int
deriving DecidableEq

namespace Finite

/-- The scale of a grid on which every double of this exponent is a point. -/
def finestScale (x : Finite) : Int := min x.exponent 0

/-- The distance between neighbouring doubles of this exponent, counted on the finest grid. -/
def unit (x : Finite) : Nat := Nat.pow 2 x.exponent.toNat * Nat.pow 5 (-x.exponent).toNat

/-- The magnitude, counted on the finest grid. -/
def magnitude (x : Finite) : Nat := x.significand * x.unit

/-- How far the interval reaches down from the double, in quarters of `unit`. Below a power of two
the neighbouring double is at half the distance. -/
def quartersBelow (x : Finite) : Nat :=
  if 2 * x.significand = significandBound ∧ x.exponent ≠ minExponent then 1 else 2

/-- Whether `n` on the finest grid rounds to the double: it lies between the ends of the interval,
or is one of them while the significand is even. -/
def Reads (x : Finite) (n : Nat) : Prop :=
  let slack := if x.significand % 2 = 0 then 1 else 0
  4 * x.magnitude < 4 * n + x.quartersBelow * x.unit + slack ∧
    4 * n < 4 * x.magnitude + 2 * x.unit + slack

instance (x : Finite) (n : Nat) : Decidable (x.Reads n) :=
  inferInstanceAs (Decidable (_ ∧ _))

/-- The double itself reads back. -/
theorem reads_magnitude (x : Finite) : x.Reads x.magnitude := by
  have hunit : 0 < x.unit := Nat.mul_pos (Nat.pow_pos (by decide)) (Nat.pow_pos (by decide))
  have hbelow : 0 < x.quartersBelow := by rw [quartersBelow]; split <;> decide
  have := Nat.mul_pos hbelow hunit
  exact ⟨by omega, by omega⟩

/-- The point next to the double on the grid of `10 ^ k` that reads back, if there is one; of two,
the nearer, and of two equally near, the even one. -/
def onGrid? (x : Finite) (k : Nat) : Option Nat :=
  let step := Nat.pow 10 k
  let low := x.magnitude / step
  let twice := 2 * (x.magnitude % step)
  if x.Reads (low * step) then
    if x.Reads ((low + 1) * step) then
      if twice < step then some low
      else if step < twice then some (low + 1)
      else some (low + low % 2)
    else some low
  else if x.Reads ((low + 1) * step) then some (low + 1)
  else none

/-- The decimal on the coarsest of the grids `10 ^ k`, …, `1` that has a point which reads back. -/
def coarsest (x : Finite) : (k : Nat) → Decimal
  | 0 => ⟨x.magnitude, x.finestScale⟩
  | k + 1 =>
    match x.onGrid? (k + 1) with
    | some digits => ⟨digits, x.finestScale + (k + 1 : Nat)⟩
    | none => x.coarsest k

/-- The shortest decimal that rounds to the magnitude of the double. The search starts at a grid
whose first point lies above the interval. -/
def shortest (x : Finite) : Decimal :=
  if x.significand = 0 then ⟨0, 0⟩
  else x.coarsest ((4 * x.magnitude + 2 * x.unit).log2 / 3 + 1)

end Finite

end Double

end JsonShelf
