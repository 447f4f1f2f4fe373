import JsonShelf.Error
import JsonShelf.Json.Reader

/-!
# Request bodies

A body is JSON in bytes that do not say their encoding. It shows in the first bytes: in a byte order
mark, or else in which of them are zero, since a JSON text starts with an ASCII character.
Surrogates are read as they stand, and a mark is dropped; what starts with a second one is no JSON
text, without any complaint of its own.

## Main definitions

* `Body.encoding` — the encoding of a body
* `Body.read` — the value of a body
-/

namespace JsonShelf

namespace Body

/-- The encoding of a body without a mark. -/
def unmarkedEncoding : Bytes → Encoding.Scheme
  | b₀ :: b₁ :: b₂ :: b₃ :: _ =>
    if b₀ = 0 then if b₁ = 0 then .utf32 .big else .utf16 .big
    else if b₁ = 0 then if b₂ = 0 ∧ b₃ = 0 then .utf32 .little else .utf16 .little
    else .utf8
  | [b₀, b₁] => if b₀ = 0 then .utf16 .big else if b₁ = 0 then .utf16 .little else .utf8
  | _ => .utf8

/-- The encoding of a body. -/
def encoding : Bytes → Encoding
  | 0x00 :: 0x00 :: 0xFE :: 0xFF :: _ => .utf32Marked
  | 0xFF :: 0xFE :: 0x00 :: 0x00 :: _ => .utf32Marked
  | 0xFE :: 0xFF :: _ => .utf16Marked
  | 0xFF :: 0xFE :: _ => .utf16Marked
  | 0xEF :: 0xBB :: 0xBF :: _ => .utf8Signed
  | body => .plain (unmarkedEncoding body)

/-- Why a body has no value. -/
inductive ReadError
  /-- Its bytes are no text in the encoding that they show. -/
  | undecodable (u : Encoding.Undecodable)
  /-- Its text is no JSON text. -/
  | malformed (defect : Defect)
  /-- An integer is written with `count` digits, which are too many to read. -/
  | tooManyDigits (count : Nat)
deriving DecidableEq

/-- The value of a body. -/
def read (body : Bytes) : Except ReadError Json := do
  let t ← ((encoding body).decodeLenient body).mapError .undecodable
  (Json.read t).mapError fun
    | .fault f => .malformed (f.defect t)
    | .tooManyDigits count => .tooManyDigits count

end Body

end JsonShelf
