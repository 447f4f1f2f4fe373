import JsonShelf.Encoding.ByteOrder
import JsonShelf.Encoding.Utf8

/-!
# Encoding schemes

A scheme says how single code points are stored; byte order marks are no part of it. Strict reading
knows no surrogates in any scheme. Lenient reading takes a surrogate that is stored like any other
code point of its size; it differs from strict reading in nothing else.

## Main definitions

* `Scheme` — UTF-8, UTF-16 and UTF-32 of either byte order, ASCII and Latin-1
* `Scheme.next`, `Scheme.nextLenient` — the next piece
* `Scheme.encode?` — the bytes of a code point
-/

namespace JsonShelf

namespace Encoding

/-- How code points are stored. -/
inductive Scheme
  | utf8
  | utf16 (order : ByteOrder)
  | utf32 (order : ByteOrder)
  | ascii
  | latin1
deriving DecidableEq

/-! ### UTF-16 -/

namespace Utf16

/-- The piece of UTF-16 that starts with `b`. -/
def next (order : ByteOrder) (b : UInt8) : Bytes → Piece
  | [] => .bad .truncated 0
  | b' :: rest =>
    let unit := CodePoint.ofNat (order.number [b, b'])
    if unit.IsHigh then
      match rest with
      | d :: d' :: _ =>
        let second := CodePoint.ofNat (order.number [d, d'])
        if second.IsLow then .char (unit.joinPair second) 3 else .bad .illegalSurrogate 1
      | _ => .bad .unexpectedEnd (1 + rest.length)
    else if unit.IsLow then .bad .illegalEncoding 1
    else .char unit 1

/-- The bytes of a code point in UTF-16; surrogates have none. -/
def encode? (order : ByteOrder) (c : CodePoint) : Option Bytes :=
  if c.IsSurrogate then none
  else if c.val < 0x10000 then some (order.bytes 2 c.val)
  else some (order.bytes 2 c.highHalf ++ order.bytes 2 c.lowHalf)

end Utf16

/-! ### UTF-32 -/

namespace Utf32

/-- The piece of UTF-32 that starts with `b`. -/
def next (order : ByteOrder) (b : UInt8) : Bytes → Piece
  | b₁ :: b₂ :: b₃ :: _ =>
    let unit := order.number [b, b₁, b₂, b₃]
    if h : unit < 0x110000 then
      let c : CodePoint := ⟨unit, h⟩
      if c.IsSurrogate then .bad .surrogate 3 else .char c 3
    else .bad .tooLarge 3
  | rest => .bad .truncated rest.length

/-- The bytes of a code point in UTF-32; surrogates have none. -/
def encode? (order : ByteOrder) (c : CodePoint) : Option Bytes :=
  if c.IsSurrogate then none else some (order.bytes 4 c.val)

end Utf32

/-- The surrogate that a unit of `width` bytes at the front is, if it is one. -/
def surrogateUnit? (order : ByteOrder) (width : Nat) (bytes : Bytes) : Option CodePoint :=
  if width ≤ bytes.length then
    let c := CodePoint.ofNat (order.number (bytes.take width))
    if c.IsSurrogate then some c else none
  else none

namespace Scheme

/-- The piece that starts with `b`. -/
def next : Scheme → UInt8 → Bytes → Piece
  | utf8, b, rest => Utf8.next b rest
  | utf16 order, b, rest => Utf16.next order b rest
  | utf32 order, b, rest => Utf32.next order b rest
  | ascii, b, _ => if b.toNat < 128 then .char (.ofNat b.toNat) 0 else .bad .notAscii 0
  | latin1, b, _ => .char (.ofNat b.toNat) 0

/-- The number of bytes that a surrogate would take; none where it has no number at all. -/
def surrogateSize : Scheme → Nat
  | utf8 => 3
  | utf16 _ => 2
  | utf32 _ => 4
  | ascii | latin1 => 0

/-- The surrogate at the front of the bytes, stored like any other code point of its size. -/
def surrogate? : Scheme → Bytes → Option CodePoint
  | utf8, bytes => Utf8.surrogate? bytes
  | utf16 order, bytes => surrogateUnit? order 2 bytes
  | utf32 order, bytes => surrogateUnit? order 4 bytes
  | ascii, _ | latin1, _ => none

/-- The piece that starts with `b`, where surrogates are read as they stand. -/
def nextLenient (s : Scheme) (b : UInt8) (rest : Bytes) : Piece :=
  match s.next b rest with
  | .char c extra => .char c extra
  | .bad reason extra =>
    match s.surrogate? (b :: rest) with
    | some c => .char c (s.surrogateSize - 1)
    | none => .bad reason extra

/-- The bytes of a code point, if the scheme has it. -/
def encode? : Scheme → CodePoint → Option Bytes
  | utf8, c => Utf8.encode? c
  | utf16 order, c => Utf16.encode? order c
  | utf32 order, c => Utf32.encode? order c
  | ascii, c => if c.val < 128 then some [UInt8.ofNat c.val] else none
  | latin1, c => if c.val < 256 then some [UInt8.ofNat c.val] else none

end Scheme

end Encoding

end JsonShelf
