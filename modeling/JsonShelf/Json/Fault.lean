import JsonShelf.Text.Numeral
import JsonShelf.Text.Place

/-!
# Faults in JSON texts

A text is refused at one spot and for one reason. Readers work on what is left of a text, so a spot
is told by the rest that starts there; its place in the whole text follows from the lengths.

## Main definitions

* `Json.Complaint` — what is wrong
* `Json.Fault` — a complaint with its spot
* `Json.ReadError` — why a text has no value
-/

namespace JsonShelf

namespace Json

/-- What is wrong at a spot of a text. -/
inductive Complaint
  /-- A value should start here. -/
  | value
  /-- The name of a member should start here. -/
  | name
  /-- A colon should follow the name. -/
  | colon
  /-- A comma or a closing bracket should follow the value. -/
  | comma
  /-- The text should end here. -/
  | extraData
  /-- The string that starts here does not end. -/
  | unterminatedString
  /-- A string holds a control character. -/
  | controlCharacter
  /-- A backslash is followed by a character that has no meaning after it. -/
  | escape
  /-- The letter for a numbered escape is not followed by four hexadecimal digits and more text. -/
  | numberedEscape
  /-- The text starts with a byte order mark. -/
  | byteOrderMark
deriving DecidableEq

/-- What is said about a complaint. -/
def Complaint.message : Complaint → String
  | value => "Expecting value"
  | name => "Expecting property name enclosed in double quotes"
  | colon => "Expecting ':' delimiter"
  | comma => "Expecting ',' delimiter"
  | extraData => "Extra data"
  | unterminatedString => "Unterminated string starting at"
  | controlCharacter => "Invalid control character at"
  | escape => "Invalid \\escape"
  | numberedEscape => "Invalid \\uXXXX escape"
  | byteOrderMark => "Unexpected UTF-8 BOM (decode using utf-8-sig)"

/-- A complaint with the spot that it is about. -/
structure Fault where
  /-- What is wrong. -/
  complaint : Complaint
  /-- The text from the spot on. -/
  rest : Text
deriving DecidableEq

/-- The number of code points of `t` before the spot. -/
def Fault.position (f : Fault) (t : Text) : Nat := t.length - f.rest.length

/-- Why a text has no value. -/
inductive ReadError
  /-- It is malformed. -/
  | fault (f : Fault)
  /-- An integer is written with `count` digits, which are too many to read. -/
  | tooManyDigits (count : Nat)
deriving DecidableEq

end Json

end JsonShelf
