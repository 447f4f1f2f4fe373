import JsonShelf.Encoding.Piece

/-!
# Byte order

Units of two or four bytes are stored with the lowest byte first or with the highest one first.

## Main definitions

* `ByteOrder.number`, `ByteOrder.bytes` — the number of a unit, and the bytes of a number
-/

namespace JsonShelf

/-- The order of the bytes of a unit. -/
inductive ByteOrder
  /-- The lowest byte comes first. -/
  | little
  /-- The highest byte comes first. -/
  | big
deriving DecidableEq

namespace ByteOrder

/-- The number whose bytes are given from the lowest to the highest. -/
def lowestFirst : Bytes → Nat
  | [] => 0
  | b :: rest => b.toNat + 256 * lowestFirst rest

/-- The lowest `width` bytes of a number, from the lowest to the highest. -/
def bytesLowestFirst : (width n : Nat) → Bytes
  | 0, _ => []
  | width + 1, n => UInt8.ofNat (n % 256) :: bytesLowestFirst width (n / 256)

/-- The number that the bytes of a unit make. -/
def number : ByteOrder → Bytes → Nat
  | little, unit => lowestFirst unit
  | big, unit => lowestFirst unit.reverse

/-- The unit of `width` bytes for a number. -/
def bytes : ByteOrder → (width n : Nat) → Bytes
  | little, width, n => bytesLowestFirst width n
  | big, width, n => (bytesLowestFirst width n).reverse

theorem lowestFirst_bytesLowestFirst (width n : Nat) (h : n < Nat.pow 256 width) :
    lowestFirst (bytesLowestFirst width n) = n := by
  induction width generalizing n with
  | zero => simp_all [bytesLowestFirst, lowestFirst]
  | succ width ih =>
    have hdiv : n / 256 < Nat.pow 256 width :=
      Nat.div_lt_of_lt_mul (by rw [Nat.mul_comm]; exact h)
    rw [bytesLowestFirst, lowestFirst, ih _ hdiv, UInt8.toNat_ofNat']
    omega

/-- A unit that is wide enough gives the number back. -/
@[simp] theorem number_bytes (order : ByteOrder) {width n : Nat} (h : n < Nat.pow 256 width) :
    order.number (order.bytes width n) = n := by
  cases order <;> simp [number, bytes, lowestFirst_bytesLowestFirst width n h]

end ByteOrder

end JsonShelf
