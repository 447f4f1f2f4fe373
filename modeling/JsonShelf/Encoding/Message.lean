import JsonShelf.Encoding.Basic
import JsonShelf.Text.Numeral

/-!
# Messages about encodings

What is said about bytes that cannot be decoded and about text that cannot be encoded. A single
culprit is shown, of several only the positions are given.

## Main definitions

* `Scheme.name`, `Encoding.name` — the names that messages use
* `Undecodable.message`, `Unencodable.message`
-/

namespace JsonShelf

namespace Encoding

/-- The name of a scheme. -/
def Scheme.name : Scheme → String
  | .utf8 => "utf-8"
  | .utf16 .little => "utf-16-le"
  | .utf16 .big => "utf-16-be"
  | .utf32 .little => "utf-32-le"
  | .utf32 .big => "utf-32-be"
  | .ascii => "ascii"
  | .latin1 => "latin-1"

/-- The name of an encoding; a mark shows only where the byte order depends on it. -/
def name : Encoding → String
  | plain scheme => scheme.name
  | utf8Signed => "utf-8"
  | utf16Marked => "utf-16"
  | utf32Marked => "utf-32"

/-- Why bytes cannot be decoded. -/
def Reason.message : Reason → String
  | .invalidStart => "invalid start byte"
  | .invalidContinuation => "invalid continuation byte"
  | .unexpectedEnd => "unexpected end of data"
  | .illegalEncoding => "illegal encoding"
  | .illegalSurrogate => "illegal UTF-16 surrogate"
  | .truncated => "truncated data"
  | .surrogate => "code point in surrogate code point range(0xd800, 0xe000)"
  | .tooLarge => "code point not in range(0x110000)"
  | .notAscii => "ordinal not in range(128)"

/-- Why a code point cannot be encoded. -/
def Scheme.missing : Scheme → String
  | .ascii => "ordinal not in range(128)"
  | .latin1 => "ordinal not in range(256)"
  | .utf8 | .utf16 _ | .utf32 _ => "surrogates not allowed"

/-- A code point as an escape that is as wide as its number asks for. -/
def escape (c : CodePoint) : Text :=
  if c.val < 0x100 then Text.ofString "\\x" ++ Numeral.hex 2 c.val
  else if c.val < 0x10000 then Text.ofString "\\u" ++ Numeral.hex 4 c.val
  else Text.ofString "\\U" ++ Numeral.hex 8 c.val

/-- The positions from `first` on, `count` of them. -/
def positions (first count : Nat) : Text :=
  Numeral.ofNat first ++ ('-' : CodePoint) :: Numeral.ofNat (first + count - 1)

/-- What is said about bytes that cannot be decoded. -/
def Undecodable.message (u : Undecodable) : Text :=
  let culprit :=
    if u.size = 1 then
      Text.ofString "byte 0x" ++ Numeral.hex 2 u.first.toNat ++ Text.ofString " in position "
        ++ Numeral.ofNat u.position
    else Text.ofString "bytes in position " ++ positions u.position u.size
  Text.ofString ("'" ++ u.scheme.name ++ "' codec can't decode ") ++ culprit
    ++ Text.ofString (": " ++ u.reason.message)

/-- What is said about text that cannot be encoded. -/
def Unencodable.message (u : Unencodable) : Text :=
  let culprit :=
    if u.count = 1 then
      Text.ofString "character '" ++ escape u.first ++ Text.ofString "' in position "
        ++ Numeral.ofNat u.position
    else Text.ofString "characters in position " ++ positions u.position u.count
  Text.ofString ("'" ++ u.encoding.name ++ "' codec can't encode ") ++ culprit
    ++ Text.ofString (": " ++ u.encoding.scheme.missing)

end Encoding

end JsonShelf
