import JsonShelf.Double.Shortest
import JsonShelf.Text.Numeral

/-!
# The text of a double

The shortest digits of a double are written plainly, always with a fraction, when the first of them
stands for a power of ten from `10 ^ -4` to `10 ^ 15`. Outside of this range one digit comes before
the point and the power of ten follows, with its sign and two digits at least; here the fraction may
be missing.

## Main definitions

* `Double.Decimal.print` — a decimal as text
* `Double.print` — a double as text
-/

namespace JsonShelf

namespace Double

/-- Powers of ten from this one on are written plainly. -/
def plainFrom : Int := -4

/-- Powers of ten from this one on are written with an exponent. -/
def plainUntil : Int := 16

/-- A power of ten: the letter, the sign and at least two digits. -/
def printExponent (e : Int) : Text :=
  let digits := Numeral.ofNat e.natAbs
  let sign : CodePoint := if e < 0 then '-' else '+'
  ('e' : CodePoint) :: sign :: List.replicate (2 - digits.length) (CodePoint.digit 0) ++ digits

/-- A decimal as text. -/
def Decimal.print (d : Decimal) : Text :=
  let digits := Numeral.ofNat d.digits
  let e := d.scale + (digits.length : Int) - 1
  let point : CodePoint := '.'
  let zeros (n : Int) : Text := List.replicate n.toNat (CodePoint.digit 0)
  if plainFrom ≤ e ∧ e < plainUntil then
    if 0 ≤ d.scale then digits ++ zeros d.scale ++ [point, CodePoint.digit 0]
    else if 0 ≤ e then digits.take (e.toNat + 1) ++ point :: digits.drop (e.toNat + 1)
    else CodePoint.digit 0 :: point :: zeros (-e - 1) ++ digits
  else if digits.length = 1 then digits ++ printExponent e
  else digits.take 1 ++ point :: digits.drop 1 ++ printExponent e

/-- A minus sign for the negative. -/
def printSign (negative : Bool) : Text := if negative then ['-'] else []

/-- A double as text. -/
def print : Double → Text
  | finite x => printSign x.negative ++ x.shortest.print
  | infinite negative => printSign negative ++ Text.ofString "Infinity"
  | nan => Text.ofString "NaN"

end Double

end JsonShelf
