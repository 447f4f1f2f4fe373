import JsonShelf.Json.Lexeme

/-!
# Reading JSON texts

A text is read lexeme by lexeme, with a stack of the arrays and objects that are still open. What
may come next depends on the state alone, and so does the complaint when something else comes: every
state expects one thing.

A member whose name is already there takes the place of the earlier one, at the earlier one's
position. Integers of too many digits are refused where a value is taken, so a fault that comes
earlier in the text wins over them and a later one does not.

Arrays and objects may be nested to any depth here. Machines that nest calls to a certain depth only
give up on texts that are nested about as deep; such limits are outside of this library.

## Main definitions

* `Frame`, `State` — what is open, and what is expected
* `State.step`, `State.finish` — one lexeme, and the end of the text
* `Json.read` — the value of a text
* `Json.readDocument` — the value of a text that must not start with a byte order mark
-/

namespace JsonShelf

namespace Json

/-- An array or object that is still open. -/
inductive Frame
  /-- An array with the items so far, the latest first. -/
  | array (items : List Json)
  /-- An object with the members so far and the name whose value is being read. -/
  | object (members : Members) (name : Text)

/-- Where reading stands. The open arrays and objects are listed from the innermost out. -/
inductive State
  /-- A value has to come. -/
  | value (frames : List Frame)
  /-- An array was opened: a value or its end has to come. -/
  | firstItem (frames : List Frame)
  /-- An object was opened: a name or its end has to come. -/
  | firstName (frames : List Frame)
  /-- A comma came in an object: a name has to come. -/
  | name (members : Members) (frames : List Frame)
  /-- A name came: a colon has to come. -/
  | colon (members : Members) (name : Text) (frames : List Frame)
  /-- A value was completed: what encloses it goes on or ends. -/
  | complete (v : Json) (frames : List Frame)

/-- The error of a complaint at a spot. -/
def refuse {α : Type} (complaint : Complaint) (rest : Text) : Except ReadError α :=
  .error (.fault ⟨complaint, rest⟩)

namespace State

/-- The complaint when something else comes than what the state expects. -/
def complaint : State → Complaint
  | value _ | firstItem _ => .value
  | firstName _ | name .. => .name
  | colon .. => .colon
  | complete _ [] => .extraData
  | complete _ (_ :: _) => .comma

/-- Start or complete a value. -/
def takeValue (frames : List Frame) (lexeme : Lexeme) : Except ReadError State :=
  match lexeme.token with
  | .openArray => .ok (firstItem frames)
  | .openObject => .ok (firstName frames)
  | .literal v => .ok (complete v frames)
  | .string s => .ok (complete (.str s) frames)
  | .integer negative digits =>
    match Numeral.read digits with
    | .ok n => .ok (complete (.int (if negative then -n else n)) frames)
    | .error count => .error (.tooManyDigits count)
  | .badString fault => .error (.fault fault)
  | _ => refuse .value lexeme.rest

/-- Take the name of a member. -/
def takeName (members : Members) (frames : List Frame) (lexeme : Lexeme) :
    Except ReadError State :=
  match lexeme.token with
  | .string s => .ok (colon members s frames)
  | .badString fault => .error (.fault fault)
  | _ => refuse .name lexeme.rest

/-- Take one lexeme. -/
def step (state : State) (lexeme : Lexeme) : Except ReadError State :=
  match state, lexeme.token with
  | value frames, _ => takeValue frames lexeme
  | firstItem frames, .closeArray => .ok (complete (.arr []) frames)
  | firstItem frames, _ => takeValue (.array [] :: frames) lexeme
  | firstName frames, .closeObject => .ok (complete (.obj []) frames)
  | firstName frames, _ => takeName [] frames lexeme
  | name members frames, _ => takeName members frames lexeme
  | colon members n frames, .colon => .ok (value (.object members n :: frames))
  | complete v (.array items :: frames), .comma => .ok (value (.array (v :: items) :: frames))
  | complete v (.array items :: frames), .closeArray =>
    .ok (complete (.arr (v :: items).reverse) frames)
  | complete v (.object members n :: frames), .comma =>
    .ok (name (KeyedList.insert n v members) frames)
  | complete v (.object members n :: frames), .closeObject =>
    .ok (complete (.obj (KeyedList.insert n v members)) frames)
  | state, _ => refuse state.complaint lexeme.rest

/-- The value that was read, once the text has ended. -/
def finish : State → Except ReadError Json
  | complete v [] => .ok v
  | state => refuse state.complaint []

end State

/-- The value of a text. -/
def read (t : Text) : Except ReadError Json := do
  let state ← (Lexeme.list t).foldlM State.step (.value [])
  state.finish

/-- The value of a text that must not start with a byte order mark. -/
def readDocument (t : Text) : Except ReadError Json :=
  if t.head? = some CodePoint.byteOrderMark then refuse .byteOrderMark t else read t

end Json

end JsonShelf
