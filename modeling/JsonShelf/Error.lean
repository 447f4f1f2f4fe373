import JsonShelf.Encoding.Message
import JsonShelf.FileTree.Fault
import JsonShelf.Json.Fault
import JsonShelf.Path.Parser

/-!
# Errors

Everything that can keep a document from being read or written, by cause. An error says what is
wrong and where; the wording is in `Error.message?` alone.

## Main definitions

* `Defect` — what is malformed about the content of a document, and where
* `Error` — the causes
* `Error.message?` — their wording
-/

namespace JsonShelf

/-- What is malformed about a document. -/
inductive Defect.Cause
  /-- The text is no JSON text. -/
  | text (complaint : Json.Complaint)
  /-- The bytes are no text in the encoding of this label. -/
  | bytes (label : Text)
deriving DecidableEq

/-- What is malformed about a document, and where. -/
structure Defect where
  cause : Defect.Cause
  place : Place
deriving DecidableEq

/-- What is said about a malformed document. -/
def Defect.message (d : Defect) : Text :=
  let cause :=
    match d.cause with
    | .text complaint => Text.ofString complaint.message
    | .bytes label => Text.ofString "Invalid " ++ label ++ Text.ofString " bytes"
  cause ++ Text.ofString ": line " ++ Numeral.ofNat d.place.line ++ Text.ofString " column "
    ++ Numeral.ofNat d.place.column ++ Text.ofString " (char " ++ Numeral.ofNat d.place.offset
    ++ Text.ofString ")"

/-- The defect that a fault in a text amounts to. -/
def Json.Fault.defect (f : Json.Fault) (t : Text) : Defect :=
  ⟨.text f.complaint, .ofPosition t (f.position t)⟩

/-- Why a document cannot be read or written. -/
inductive Error
  /-- The file system refuses. -/
  | file (fault : FileFault)
  /-- The content is malformed. -/
  | malformed (defect : Defect)
  /-- An integer in a document or a path has `count` digits, which are too many to read. -/
  | tooManyDigits (count : Nat)
  /-- The path is malformed or leads nowhere in the document. -/
  | invalidPath
  /-- A text cannot be encoded, be it the document or the label of its encoding. -/
  | unencodable (u : Encoding.Unencodable)
  /-- The label of the encoding holds the character NUL. -/
  | nulInLabel
  /-- No encoding has this label. -/
  | unknownEncoding (label : Text)
deriving DecidableEq

namespace Error

/-- What is said about an integer of too many digits. -/
def tooManyDigitsMessage (count : Nat) : Text :=
  Text.ofString "Exceeds the limit (" ++ Numeral.ofNat Numeral.digitLimit
    ++ Text.ofString " digits) for integer string conversion: value has " ++ Numeral.ofNat count
    ++ Text.ofString " digits; use sys.set_int_max_str_digits() to increase the limit"

/-- What is said about an error. File systems speak by numbers, except about names that they are
never asked for. -/
def message? : Error → Option Text
  | file .nulInName => some (Text.ofString "embedded null byte")
  | file _ => none
  | malformed defect => some defect.message
  | tooManyDigits count => some (tooManyDigitsMessage count)
  | invalidPath => some (Text.ofString "Invalid JSON Path")
  | unencodable u => some u.message
  | nulInLabel => some (Text.ofString "embedded null character")
  | unknownEncoding label => some (Text.ofString "unknown encoding: " ++ label)

/-- The error of a text without a value. -/
def ofRead (t : Text) : Json.ReadError → Error
  | .fault f => malformed (f.defect t)
  | .tooManyDigits count => tooManyDigits count

/-- The error of a text that is no path expression. -/
def ofPath : Path.ParseFault → Error
  | .malformed => invalidPath
  | .tooManyDigits count => tooManyDigits count

end Error

end JsonShelf
