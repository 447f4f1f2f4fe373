import JsonShelf.Text.CodePoint

/-!
# Numerals

Decimal digits as text, and the hexadecimal digits of escapes. Digits are ASCII only; digits of
other scripts are ordinary characters. Reading a numeral is bounded: an integer of more than
`Numeral.digitLimit` digits is refused, leading zeros counted, while printing has no bound.

## Main definitions

* `Numeral.ofNat`, `Numeral.toNat` — a number as decimal digits, and back
* `Numeral.ofInt` — a whole number, with a minus sign below zero
* `Numeral.read` — reading within the limit
* `Numeral.hexValue?`, `Numeral.hex` — hexadecimal digits
-/

namespace JsonShelf

namespace CodePoint

/-- The decimal digits `0` to `9`. -/
abbrev IsDigit (c : CodePoint) : Prop := 0x30 ≤ c.val ∧ c.val ≤ 0x39

/-- The number a decimal digit stands for. -/
def digitValue (c : CodePoint) : Nat := c.val - 0x30

/-- The decimal digit for a number below ten. -/
def digit (n : Nat) : CodePoint := ofNat (0x30 + n)

/-- The number a hexadecimal digit of either case stands for. -/
def hexValue? (c : CodePoint) : Option Nat :=
  if 0x30 ≤ c.val ∧ c.val ≤ 0x39 then some (c.val - 0x30)
  else if 0x41 ≤ c.val ∧ c.val ≤ 0x46 then some (c.val - 0x37)
  else if 0x61 ≤ c.val ∧ c.val ≤ 0x66 then some (c.val - 0x57)
  else none

/-- The hexadecimal digit, in lower case, for a number below sixteen. -/
def hexDigit (n : Nat) : CodePoint := ofNat (if n < 10 then 0x30 + n else 0x57 + n)

theorem digitValue_digit {n : Nat} (h : n < 10) : (digit n).digitValue = n := by
  rw [digitValue, digit, val_ofNat (by omega)]; omega

theorem isDigit_digit {n : Nat} (h : n < 10) : (digit n).IsDigit := by
  rw [IsDigit, digit, val_ofNat (by omega)]; omega

theorem hexValue?_hexDigit {n : Nat} (h : n < 16) : (hexDigit n).hexValue? = some n := by
  rcases Nat.lt_or_ge n 10 with hn | hn
  · rw [hexDigit, if_pos hn, hexValue?, val_ofNat (by omega), if_pos (by omega)]
    simp
  · rw [hexDigit, if_neg (by omega), hexValue?, val_ofNat (by omega), if_neg (by omega),
      if_neg (by omega), if_pos (by omega)]
    simp

end CodePoint

namespace Numeral

/-- Integers of more digits than this are not read. -/
def digitLimit : Nat := 4300

/-- The decimal digits of `n`, the lowest first. -/
def lowestFirst (n : Nat) : Text :=
  if n < 10 then [CodePoint.digit n] else CodePoint.digit (n % 10) :: lowestFirst (n / 10)

/-- The decimal digits of `n`, without leading zeros. -/
def ofNat (n : Nat) : Text := (lowestFirst n).reverse

/-- The decimal digits of `n`, after a minus sign if it is negative. -/
def ofInt (n : Int) : Text :=
  if n < 0 then '-' :: ofNat n.natAbs else ofNat n.natAbs

/-- The number that decimal digits stand for, the highest first. -/
def toNat (digits : Text) : Nat := digits.foldl (fun n c => 10 * n + c.digitValue) 0

/-- The number that decimal digits stand for, if there are not too many of them; otherwise
their count. -/
def read (digits : Text) : Except Nat Nat :=
  if digits.length ≤ digitLimit then .ok (toNat digits) else .error digits.length

/-- The number that hexadecimal digits stand for, if all of them are such digits. -/
def ofHex? (digits : Text) : Option Nat :=
  digits.foldlM (fun n c => c.hexValue?.map (16 * n + ·)) 0

/-- The lowest `width` hexadecimal digits of `n`, in lower case. -/
def hex : (width n : Nat) → Text
  | 0, _ => []
  | width + 1, n => hex width (n / 16) ++ [CodePoint.hexDigit (n % 16)]

@[simp] theorem toNat_append_singleton (digits : Text) (c : CodePoint) :
    toNat (digits ++ [c]) = 10 * toNat digits + c.digitValue := by
  simp [toNat]

/-- Reading the digits of a number gives the number back. -/
@[simp] theorem toNat_ofNat (n : Nat) : toNat (ofNat n) = n := by
  rw [ofNat]
  fun_induction lowestFirst n with
  | case1 n h => simp [toNat, CodePoint.digitValue_digit h]
  | case2 n h ih =>
    rw [List.reverse_cons, toNat_append_singleton, ih,
      CodePoint.digitValue_digit (Nat.mod_lt n (by omega))]
    omega

@[simp] theorem length_hex (width n : Nat) : (hex width n).length = width := by
  induction width generalizing n with
  | zero => rfl
  | succ width ih => simp [hex, ih]

end Numeral

end JsonShelf
