import JsonShelf.Encoding.Scheme

/-!
# Encodings

An encoding is a scheme together with what it does about byte order marks. In a plain encoding a
mark is an ordinary `U+FEFF`. The marked ones write a mark in front of every text and drop one when
they read; `utf16Marked` and `utf32Marked` read either byte order, as the mark tells, and are
little-endian without one.

Positions of bad bytes count the bytes before them. A dropped UTF-8 mark is not counted and a
dropped mark of the other schemes is.

## Main definitions

* `Encoding` — the encodings
* `Encoding.decode`, `Encoding.decodeLenient`, `Encoding.decodeReplacing` — bytes to text
* `Encoding.encode` — text to bytes
* `Encoding.Undecodable`, `Encoding.Unencodable` — where and why these fail
-/

namespace JsonShelf

/-- A way to store texts as bytes. -/
inductive Encoding
  /-- Code points after the scheme, and nothing else. -/
  | plain (scheme : Encoding.Scheme)
  /-- UTF-8 with a mark in front. -/
  | utf8Signed
  /-- UTF-16 with a mark in front. -/
  | utf16Marked
  /-- UTF-32 with a mark in front. -/
  | utf32Marked
deriving DecidableEq

namespace Encoding

/-- How a byte sequence opens. -/
structure Opening where
  /-- The scheme of the bytes behind the mark. -/
  scheme : Scheme
  /-- The bytes of the mark. -/
  markSize : Nat
  /-- The position of the first byte behind the mark. -/
  origin : Nat
deriving DecidableEq

/-- How a byte sequence opens in an encoding. -/
def opening : Encoding → Bytes → Opening
  | plain scheme, _ => ⟨scheme, 0, 0⟩
  | utf8Signed, 0xEF :: 0xBB :: 0xBF :: _ => ⟨.utf8, 3, 0⟩
  | utf8Signed, _ => ⟨.utf8, 0, 0⟩
  | utf16Marked, 0xFF :: 0xFE :: _ => ⟨.utf16 .little, 2, 2⟩
  | utf16Marked, 0xFE :: 0xFF :: _ => ⟨.utf16 .big, 2, 2⟩
  | utf16Marked, _ => ⟨.utf16 .little, 0, 0⟩
  | utf32Marked, 0xFF :: 0xFE :: 0x00 :: 0x00 :: _ => ⟨.utf32 .little, 4, 4⟩
  | utf32Marked, 0x00 :: 0x00 :: 0xFE :: 0xFF :: _ => ⟨.utf32 .big, 4, 4⟩
  | utf32Marked, _ => ⟨.utf32 .little, 0, 0⟩

/-- The scheme in which an encoding writes. -/
def scheme : Encoding → Scheme
  | plain scheme => scheme
  | utf8Signed => .utf8
  | utf16Marked => .utf16 .little
  | utf32Marked => .utf32 .little

/-- The mark that an encoding writes in front of a text. -/
def mark : Encoding → Bytes
  | plain _ => []
  | utf8Signed => [0xEF, 0xBB, 0xBF]
  | utf16Marked => [0xFF, 0xFE]
  | utf32Marked => [0xFF, 0xFE, 0x00, 0x00]

/-! ### Decoding -/

/-- Where and why bytes cannot be decoded. -/
structure Undecodable where
  /-- The scheme that the bytes do not follow. -/
  scheme : Scheme
  /-- The position of the first bad piece. -/
  position : Nat
  /-- The bytes of the piece. -/
  size : Nat
  /-- The first byte of the piece. -/
  first : UInt8
  /-- Why the piece is bad. -/
  reason : Reason
deriving DecidableEq

/-- The text of a byte sequence, where `next` finds the pieces of each scheme. -/
def decodeWith (next : Scheme → UInt8 → Bytes → Piece) (e : Encoding) (bytes : Bytes) :
    Except Undecodable Text :=
  let opening := e.opening bytes
  let body := bytes.drop opening.markSize
  (textOf (pieces (next opening.scheme) body)).mapError fun bad =>
    { scheme := opening.scheme
      position := opening.origin + bad.position
      size := bad.size
      first := (body.drop bad.position).headD 0
      reason := bad.reason }

/-- The text of a byte sequence. -/
def decode (e : Encoding) (bytes : Bytes) : Except Undecodable Text :=
  e.decodeWith Scheme.next bytes

/-- The text of a byte sequence, where surrogates are read as they stand. -/
def decodeLenient (e : Encoding) (bytes : Bytes) : Except Undecodable Text :=
  e.decodeWith Scheme.nextLenient bytes

/-- The text of a byte sequence, with `U+FFFD` for everything that cannot be decoded. -/
def decodeReplacing (e : Encoding) (bytes : Bytes) : Text :=
  let opening := e.opening bytes
  replacedText (pieces opening.scheme.next (bytes.drop opening.markSize))

/-! ### Encoding -/

/-- Where a text cannot be encoded. -/
structure Unencodable where
  /-- The encoding that lacks the code points. -/
  encoding : Encoding
  /-- The code points before the first one that cannot be stored. -/
  position : Nat
  /-- How many in a row cannot be stored, as far as the encoding looks. -/
  count : Nat
  /-- The first one that cannot be stored. -/
  first : CodePoint
deriving DecidableEq

namespace Scheme

/-- Whether the scheme has a code point. -/
def Stores (s : Scheme) (c : CodePoint) : Prop := (s.encode? c).isSome = true

instance (s : Scheme) (c : CodePoint) : Decidable (s.Stores c) :=
  inferInstanceAs (Decidable ((s.encode? c).isSome = true))

/-- Whether all adjacent code points that cannot be stored are found at once; with units of
several bytes only the first one is. -/
def findsRuns : Scheme → Bool
  | utf8 | ascii | latin1 => true
  | utf16 _ | utf32 _ => false

end Scheme

/-- The first code points of a text, from `c` on, that cannot be stored. -/
def unencodable (e : Encoding) (position : Nat) (c : CodePoint) (rest : Text) : Unencodable where
  encoding := e
  position := position
  count :=
    if e.scheme.findsRuns then
      (rest.takeWhile fun d => decide (¬ e.scheme.Stores d)).length + 1
    else 1
  first := c

/-- The bytes of a text behind its mark, where `position` code points are stored already. -/
def encodeBody (e : Encoding) (position : Nat) : Text → Except Unencodable Bytes
  | [] => .ok []
  | c :: rest =>
    match e.scheme.encode? c with
    | some bytes => (encodeBody e (position + 1) rest).map (bytes ++ ·)
    | none => .error (e.unencodable position c rest)

/-- The bytes of a text. -/
def encode (e : Encoding) (t : Text) : Except Unencodable Bytes :=
  (e.encodeBody 0 t).map (e.mark ++ ·)

end Encoding

end JsonShelf
