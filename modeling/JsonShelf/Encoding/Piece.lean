import JsonShelf.Text.CodePoint

/-!
# Cutting bytes into pieces

Every encoding here is read the same way. Its first bytes are either a code point or a bad sequence,
they take a known number of bytes, and reading goes on behind them. A byte sequence is thus cut into
pieces, and the pieces are what the three ways of reading share: strict reading stops at the first
bad piece and says where it is, replacing reading puts `U+FFFD` for every bad piece, and lenient
reading cuts with a rule of its own that knows fewer bad pieces.

## Main definitions

* `Bytes`, `Reason`, `Piece` — bytes, why they cannot be read, and one piece of them
* `pieces` — all pieces of a byte sequence, for a rule that finds the next one
* `textOf`, `replacedText` — strict and replacing reading
-/

namespace JsonShelf

/-- A sequence of bytes. -/
abbrev Bytes := List UInt8

namespace Encoding

/-- Why bytes are no code point. -/
inductive Reason
  /-- No sequence starts with this byte. -/
  | invalidStart
  /-- The sequence that was started does not go on with this byte. -/
  | invalidContinuation
  /-- The sequence that was started is cut by the end. -/
  | unexpectedEnd
  /-- The second half of a surrogate pair comes first. -/
  | illegalEncoding
  /-- The first half of a surrogate pair is not followed by a second one. -/
  | illegalSurrogate
  /-- The end cuts a unit of several bytes. -/
  | truncated
  /-- The unit is a surrogate, which stands for no character. -/
  | surrogate
  /-- The unit is greater than any code point. -/
  | tooLarge
  /-- The byte is not below 128. -/
  | notAscii
deriving DecidableEq

/-- What the next bytes are. Both kinds tell how many bytes they take beyond the first. -/
inductive Piece
  /-- The bytes of a code point. -/
  | char (c : CodePoint) (extra : Nat)
  /-- Bytes that are no code point. -/
  | bad (reason : Reason) (extra : Nat)
deriving DecidableEq

namespace Piece

/-- The bytes a piece takes beyond its first. -/
def extra : Piece → Nat
  | char _ n => n
  | bad _ n => n

/-- The code point of a piece, where `U+FFFD` stands for a bad one. -/
def replaced : Piece → CodePoint
  | char c _ => c
  | bad _ _ => .replacement

end Piece

/-- The pieces of a byte sequence, where `next` finds the piece that starts with a byte and goes on
in the bytes behind it. -/
def pieces (next : UInt8 → Bytes → Piece) : Bytes → List Piece
  | [] => []
  | b :: rest => next b rest :: pieces next (rest.drop (next b rest).extra)
termination_by bytes => bytes.length
decreasing_by simp only [List.length_drop, List.length_cons]; omega

@[simp] theorem pieces_nil (next : UInt8 → Bytes → Piece) : pieces next [] = [] := by
  rw [pieces]

theorem pieces_cons (next : UInt8 → Bytes → Piece) (b : UInt8) (rest : Bytes) :
    pieces next (b :: rest) = next b rest :: pieces next (rest.drop (next b rest).extra) := by
  rw [pieces]

/-- A bad piece, with the number of bytes before it. -/
structure BadPiece where
  /-- The bytes before the piece. -/
  position : Nat
  /-- The bytes of the piece. -/
  size : Nat
  /-- Why it is bad. -/
  reason : Reason
deriving DecidableEq

/-- The same piece with `n` more bytes before it. -/
def BadPiece.after (n : Nat) (p : BadPiece) : BadPiece := { p with position := n + p.position }

/-- The text of pieces that are all good, or the first bad one. -/
def textOf : List Piece → Except BadPiece Text
  | [] => .ok []
  | .char c n :: rest => ((textOf rest).map (c :: ·)).mapError (·.after (n + 1))
  | .bad reason n :: _ => .error ⟨0, n + 1, reason⟩

/-- The text of pieces, with `U+FFFD` for each bad one. -/
def replacedText (ps : List Piece) : Text := ps.map Piece.replaced

end Encoding

end JsonShelf
