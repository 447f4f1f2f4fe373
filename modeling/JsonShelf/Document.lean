import JsonShelf.Encoding.Label
import JsonShelf.Error
import JsonShelf.Json.Access
import JsonShelf.Json.Printer
import JsonShelf.Json.Reader

/-!
# Documents

A document is a JSON value kept as the bytes of one file. Every operation starts from the bytes: it
decodes them, reads the text, and only then looks at the path. A write goes on to print the whole
changed document and to encode it. What is wrong first on this way is the error.

Operations take the content of the file, or none if there is no file. A missing file cannot be read,
while a write to it starts from an empty object.

Content without any bytes is the empty text whatever the encoding, so that the label of the encoding
is only looked up when there is something to decode. That the label can be looked up at all is
checked in any case.

## Main definitions

* `Settings` — indentation and encoding
* `Document.ofText`, `Document.read` — the value that a text or content stands for
* `Document.load`, `Document.write` — read and write at a path
-/

namespace JsonShelf

/-- How documents are stored. -/
structure Settings where
  /-- Spaces per level, or everything on one line. -/
  indent : Option Int := some 2
  /-- The label of the encoding. -/
  encoding : Text := Text.ofString "utf-8"
deriving DecidableEq

namespace Document

/-- Labels are handed on in UTF-8, where a NUL would end them, so that a label holds neither a
surrogate nor a NUL. -/
def checkLabel (label : Text) : Except Error Unit :=
  match (Encoding.plain .utf8).encode label with
  | .error u => .error (.unencodable u)
  | .ok _ => if label.HasNul then .error .nulInLabel else .ok ()

/-- The encoding of a label. -/
def encodingOf (label : Text) : Except Error Encoding :=
  match Encoding.ofLabel? label with
  | some e => .ok e
  | none => .error (.unknownEncoding label)

/-- The defect of bytes that cannot be decoded. Its position counts bytes; the line and the column
are those of that position in the text that is decoded with replacements. -/
def undecodableDefect (label : Text) (e : Encoding) (content : Bytes)
    (u : Encoding.Undecodable) : Defect :=
  ⟨.bytes label, .ofPosition (e.decodeReplacing content) u.position⟩

/-- The text of content that has bytes. -/
def decodeIn (label : Text) (e : Encoding) (content : Bytes) : Except Error Text :=
  (e.decode content).mapError fun u => .malformed (undecodableDefect label e content u)

/-- The text of content. -/
def decode (label : Text) (content : Bytes) : Except Error Text := do
  checkLabel label
  if content = [] then .ok []
  else
    let e ← encodingOf label
    decodeIn label e content

/-- The value that a text stands for. -/
def ofText (t : Text) : Except Error Json :=
  (Json.readDocument t).mapError (Error.ofRead t)

/-- The value that content stands for. -/
def read (s : Settings) (content : Bytes) : Except Error Json := do
  let t ← decode s.encoding content
  ofText t

/-- The content that stands for a value. -/
def print (s : Settings) (document : Json) : Except Error Bytes := do
  checkLabel s.encoding
  let e ← encodingOf s.encoding
  (e.encode (document.print (Json.Style.file s.indent))).mapError .unencodable

/-- The path that an expression writes. -/
def path (expression : Text) : Except Error Path :=
  (Path.parse expression).mapError Error.ofPath

/-- The value of a file at a path. -/
def load (s : Settings) (file : Option Bytes) (expression : Text) : Except Error Json := do
  let document ←
    match file with
    | none => .error (.file .notFound)
    | some content => read s content
  let p ← path expression
  match document.get? p with
  | none => .error .invalidPath
  | some v => .ok v

/-- The content of a file after a value is put at a path. -/
def write (s : Settings) (file : Option Bytes) (expression : Text) (value : Json) :
    Except Error Bytes := do
  let document ←
    match file with
    | none => .ok (.obj [])
    | some content => read s content
  let p ← path expression
  let written := document.write p value
  if written.done then print s written.root else .error .invalidPath

end Document

end JsonShelf
