import JsonShelf.Double.Basic
import JsonShelf.KeyedList
import JsonShelf.Text.CodePoint

/-!
# JSON values

Documents are ordered trees. Integers and doubles are kept apart, integers have any size, doubles
may be infinite or no number, and strings may hold surrogates. An object is a list of members in
order; the readers and writers of this library only make objects whose names are distinct.
-/

namespace JsonShelf

/-- A JSON value. -/
inductive Json
  | null
  | bool (b : Bool)
  | int (n : Int)
  | double (x : Double)
  | str (s : Text)
  | arr (items : List Json)
  | obj (members : List (Text × Json))

namespace Json

/-- The members of an object, in order. -/
abbrev Members := KeyedList Text Json

instance : Inhabited Json := ⟨null⟩

end Json

end JsonShelf
