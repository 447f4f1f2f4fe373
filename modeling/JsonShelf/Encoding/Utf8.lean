import JsonShelf.Encoding.Piece

/-!
# UTF-8

A code point takes one byte to four. The first byte tells how many follow and bounds the second
one, which is what excludes overlong forms, surrogates and numbers above `U+10FFFF`; all further
bytes lie between `0x80` and `0xBF`.

A bad sequence ends before the first byte that does not fit, so that this byte can start a piece of
its own.

## Main definitions

* `Utf8.lead?` — what a first byte asks for
* `Utf8.next` — the next piece
* `Utf8.encode?` — the bytes of a code point
-/

namespace JsonShelf

namespace Encoding

namespace Utf8

/-- What a first byte above `0x7F` asks for. -/
structure Lead where
  /-- The bits of the code point that the first byte holds. -/
  bits : Nat
  /-- The number of bytes that follow. -/
  count : Nat
  /-- The least second byte. -/
  low : Nat
  /-- The greatest second byte. -/
  high : Nat
deriving DecidableEq

/-- What a first byte above `0x7F` asks for; bytes that start nothing have no answer. -/
def lead? (b : Nat) : Option Lead :=
  if b < 0xC2 then none
  else if b < 0xE0 then some ⟨b - 0xC0, 1, 0x80, 0xBF⟩
  else if b = 0xE0 then some ⟨0x0, 2, 0xA0, 0xBF⟩
  else if b = 0xED then some ⟨0xD, 2, 0x80, 0x9F⟩
  else if b < 0xF0 then some ⟨b - 0xE0, 2, 0x80, 0xBF⟩
  else if b = 0xF0 then some ⟨0x0, 3, 0x90, 0xBF⟩
  else if b < 0xF4 then some ⟨b - 0xF0, 3, 0x80, 0xBF⟩
  else if b = 0xF4 then some ⟨0x4, 3, 0x80, 0x8F⟩
  else none

/-- Read `count` bytes that go on a sequence of which `taken` bytes beyond the first are read. The
next one lies between `low` and `high`. -/
def follow (bits taken low high : Nat) : (count : Nat) → Bytes → Piece
  | 0, _ => .char (.ofNat bits) taken
  | _ + 1, [] => .bad .unexpectedEnd taken
  | count + 1, b :: rest =>
    if low ≤ b.toNat ∧ b.toNat ≤ high then
      follow (bits * 0x40 + (b.toNat - 0x80)) (taken + 1) 0x80 0xBF count rest
    else .bad .invalidContinuation taken

/-- The piece that starts with `b`. -/
def next (b : UInt8) (rest : Bytes) : Piece :=
  if b.toNat < 0x80 then .char (.ofNat b.toNat) 0
  else
    match lead? b.toNat with
    | none => .bad .invalidStart 0
    | some lead => follow lead.bits 0 lead.low lead.high lead.count rest

/-- The byte that holds six bits of `n`, counted from bit `6 * place`. -/
def tail (n place : Nat) : UInt8 := UInt8.ofNat (0x80 + n / Nat.pow 0x40 place % 0x40)

/-- The number of bytes of a code point. -/
def size (c : CodePoint) : Nat :=
  if c.val < 0x80 then 1 else if c.val < 0x800 then 2 else if c.val < 0x10000 then 3 else 4

/-- The bytes of a code point; surrogates have none. -/
def encode? (c : CodePoint) : Option Bytes :=
  let n := c.val
  if n < 0x80 then some [UInt8.ofNat n]
  else if n < 0x800 then some [UInt8.ofNat (0xC0 + n / 0x40), tail n 0]
  else if c.IsSurrogate then none
  else if n < 0x10000 then some [UInt8.ofNat (0xE0 + n / 0x1000), tail n 1, tail n 0]
  else some [UInt8.ofNat (0xF0 + n / 0x40000), tail n 2, tail n 1, tail n 0]

/-- The surrogate that three bytes would stand for, did UTF-8 encode surrogates. -/
def surrogate? : Bytes → Option CodePoint
  | a :: b :: c :: _ =>
    if a.toNat = 0xED ∧ 0xA0 ≤ b.toNat ∧ b.toNat ≤ 0xBF ∧ 0x80 ≤ c.toNat ∧ c.toNat ≤ 0xBF then
      some (.ofNat (0xD000 + (b.toNat - 0x80) * 0x40 + (c.toNat - 0x80)))
    else none
  | _ => none

end Utf8

end Encoding

end JsonShelf
