import JsonShelf.Service.Body
import JsonShelf.Shelf

/-!
# The document service

Documents over HTTP: `GET` answers the value of a document at a path, `PUT` puts the value in the
body there. Documents are addressed inside of the data directory only, so file names that are
absolute, that hold a double dot, or that name nothing are refused before the tree is looked at.

Faults of the client are answered with a detail. Everything else is an internal error, which says
nothing to the client but is told to the caller of `Service.answer`.

## Main definitions

* `Service.Request`, `Service.Response` — what is asked and answered
* `Service.Failure` — what is behind an internal error
* `Service.answer` — the answer to a request, and the tree after it
-/

namespace JsonShelf

namespace Service

/-- What a request asks for. -/
inductive Method
  | get
  | put
  /-- Any other method; the service has none. -/
  | other
deriving DecidableEq

/-- A request for a document. -/
structure Request where
  method : Method
  /-- The name of the document's file, as the address pattern hands it over: the pattern drops a
  line feed at the end, and an address with another line feed in the name does not get here. -/
  file : Text
  /-- The path into the document. -/
  path : Text
  body : Bytes
deriving DecidableEq

/-- What is behind an internal error. -/
inductive Failure
  /-- The value to be answered holds an infinity or no number. -/
  | notFinite
  | error (e : Error)
deriving DecidableEq

/-- The answer to a request. -/
structure Response where
  status : Nat
  body : Text
  /-- The type of the body, if there is one. -/
  contentType : Option String
  /-- What is behind an internal error. -/
  failure : Option Failure
deriving DecidableEq

/-! ### Answers -/

/-- An answer in JSON. -/
def Response.json (status : Nat) (body : Text) : Response :=
  ⟨status, body, some "application/json", none⟩

/-- The refusal of a request, with what is wrong. -/
def Response.refusal (status : Nat) (detail : Text) : Response :=
  .json status ((Json.obj [(Text.ofString "detail", .str detail)]).print Json.Style.compact)

/-- The answer to a write. -/
def Response.noContent : Response := ⟨204, [], none, none⟩

/-- The answer to a method that the service does not have. -/
def Response.noSuchMethod : Response := .refusal 405 (Text.ofString "Method Not Allowed")

/-- The refusal of a file name, or of a name that a directory is in the way of. -/
def Response.badFile : Response := .refusal 400 (Text.ofString "Invalid file path")

/-- The answer when something failed that is not the client's to mend. -/
def Response.internalError (failure : Failure) : Response :=
  ⟨500, Text.ofString "Internal Server Error", some "text/plain; charset=utf-8", some failure⟩

/-- The refusal that an error amounts to, unless it is an internal error. -/
def refusal? (e : Error) : Option Response :=
  match e with
  | .invalidPath => e.message?.map (.refusal 400)
  | .file .isDirectory | .file .notDirectory => some .badFile
  | .malformed defect =>
    some (.refusal 422 (Text.ofString "Malformed document: " ++ defect.message))
  | _ => none

/-- The answer to an error. -/
def Response.ofError (e : Error) : Response :=
  (refusal? e).getD (.internalError (.error e))

/-- The answer to an error in reading a document, which may be missing. -/
def Response.ofLoadError (e : Error) : Response :=
  if e = .file .notFound then .refusal 404 (Text.ofString "Document not found") else .ofError e

/-- The answer to a body that cannot be read. -/
def Response.ofBodyError : Body.ReadError → Response
  | .undecodable u => .refusal 422 (Text.ofString "Malformed body: " ++ u.message)
  | .malformed defect => .refusal 422 (Text.ofString "Malformed body: " ++ defect.message)
  | .tooManyDigits count => .internalError (.error (.tooManyDigits count))

/-- The answer that holds a value. It has to be JSON in the strict sense, and to have an
encoding. -/
def Response.ofValue (v : Json) : Response :=
  if v.allFinite then
    let text := v.print Json.Style.compact
    match (Encoding.plain .utf8).encode text with
    | .ok _ => .json 200 text
    | .error u => .internalError (.error (.unencodable u))
  else .internalError .notFinite

end Service

/-! ### The service -/

/-- A service is a shelf whose files are addressed by requests. -/
structure Service where
  /-- The documents. -/
  shelf : Shelf
deriving DecidableEq

namespace Service

/-- The service for the documents below the directory `data`. -/
def ofSettings (settings : Settings) : Service :=
  ⟨⟨⟨.root, [Text.ofString "data"]⟩, settings⟩⟩

/-- Whether a file name names something inside of the data directory. -/
def Addresses (file : Text) : Prop :=
  (FilePath.ofText file).names ≠ [] ∧ (FilePath.ofText file).anchor = .relative ∧
    FilePath.up ∉ (FilePath.ofText file).names

instance (file : Text) : Decidable (Addresses file) :=
  inferInstanceAs (Decidable (_ ∧ _ ∧ _))

/-- The answer to a request for a value. -/
def get (s : Service) (t : FileTree) (r : Request) : Response :=
  if Addresses r.file then
    match s.shelf.load t r.file r.path with
    | .ok v => .ofValue v
    | .error e => .ofLoadError e
  else .badFile

/-- The answer to a request to put a value, and the tree after it. -/
def put (s : Service) (t : FileTree) (r : Request) : FileTree × Response :=
  match Body.read r.body with
  | .error e => (t, .ofBodyError e)
  | .ok value =>
    if Addresses r.file then
      let change := s.shelf.write t r.file r.path value
      match change.error with
      | none => (change.tree, .noContent)
      | some e => (change.tree, .ofError e)
    else (t, .badFile)

/-- The answer to a request, and the tree after it. -/
def answer (s : Service) (t : FileTree) (r : Request) : FileTree × Response :=
  match r.method with
  | .get => (t, s.get t r)
  | .put => s.put t r
  | .other => (t, .noSuchMethod)

end Service

end JsonShelf
