import JsonShelf.Text.CodePoint

/-!
# Places in a text

A fault is reported with the line, the column and the number of characters before it. Lines end at
line feeds alone. A position may lie beyond the end of the text: a fault in undecodable content is
placed by bytes, of which there can be more than decoded characters.

## Main definitions

* `Place` — line, column and offset of a position
* `Place.ofPosition` — the place of a position in a text
-/

namespace JsonShelf

/-- Where something is in a text; lines and columns count from one, the offset from zero. -/
structure Place where
  /-- One more than the line feeds before the position. -/
  line : Nat
  /-- One more than the characters between the last line feed and the position. -/
  column : Nat
  /-- The characters before the position. -/
  offset : Nat
deriving DecidableEq

namespace Text

/-- The line feed that ends a line. -/
def lineFeed : CodePoint := '\n'

/-- How many lines end in `t`. -/
def lineCount (t : Text) : Nat := t.count lineFeed

/-- The number of code points up to and including the last line feed of `t`. -/
def lastLineStart (t : Text) : Nat := (t.reverse.dropWhile (· ≠ lineFeed)).length

end Text

/-- The place of position `p` of `t`. Only the part of `t` before `p` matters. -/
def Place.ofPosition (t : Text) (p : Nat) : Place :=
  let before : Text := t.take p
  { line := before.lineCount + 1
    column := p + 1 - before.lastLineStart
    offset := p }

end JsonShelf
