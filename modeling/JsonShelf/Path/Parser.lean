import JsonShelf.Path.Basic
import JsonShelf.Text.Numeral

/-!
# Path expressions

The written form of a path is a list of parts with dots between them. A part is a name, possibly
empty, followed by any number of positions in square brackets:

    expression := part ('.' part)*
    part       := name ('[' digit+ ']')*

An empty name makes no segment, so leading, trailing and doubled dots say nothing. Names are free
of dots and brackets and otherwise arbitrary. Parts are judged from left to right: the first one
that is malformed, or that is well formed but holds an index of too many digits, decides the
fault.

## Main definitions

* `Path.parse` — the path that an expression writes
* `Path.ParseFault` — why a text is no expression
-/

namespace JsonShelf

namespace Path

/-- Why a text is not a path expression. -/
inductive ParseFault
  /-- A part is not a name followed by bracketed positions. -/
  | malformed
  /-- A position is written with `count` digits, which are too many to read. -/
  | tooManyDigits (count : Nat)
deriving DecidableEq

/-- The dot between parts. -/
def separator : CodePoint := '.'

/-- The bracket before a position. -/
def openBracket : CodePoint := '['

/-- The bracket after a position. -/
def closeBracket : CodePoint := ']'

/-- Names hold everything but dots and square brackets. -/
abbrev IsNameChar (c : CodePoint) : Prop :=
  c ≠ separator ∧ c ≠ openBracket ∧ c ≠ closeBracket

/-- The digits of a group, which is what precedes a closing bracket. -/
def groupDigits? : Text → Option Text
  | [] => none
  | c :: digits =>
    if c = openBracket ∧ digits ≠ [] ∧ ∀ d ∈ digits, d.IsDigit then some digits else none

/-- The digits of each bracketed position, or `none` if the text is anything else than bracketed
positions one after the other. -/
def indexDigits? (brackets : Text) : Option (List Text) :=
  let groups := brackets.splitOn closeBracket
  if groups.getLast? = some [] then groups.dropLast.mapM groupDigits? else none

/-- The step to the position that `digits` writes. -/
def indexSegment (digits : Text) : Except ParseFault Segment :=
  match Numeral.read digits with
  | .ok n => .ok (.index n)
  | .error count => .error (.tooManyDigits count)

/-- The step to a key, or no step if the name is empty. -/
def nameSegments (name : Text) : Path :=
  if name = [] then [] else [.key name]

/-- The steps that one part writes. -/
def parsePart (part : Text) : Except ParseFault Path :=
  match indexDigits? (part.dropWhile fun c => decide (IsNameChar c)) with
  | none => .error .malformed
  | some runs => do
    let indexes ← runs.mapM indexSegment
    return nameSegments (part.takeWhile fun c => decide (IsNameChar c)) ++ indexes

/-- The path that an expression writes. -/
def parse (expression : Text) : Except ParseFault Path := do
  let parts ← (expression.splitOn separator).mapM parsePart
  return parts.flatten

end Path

end JsonShelf
