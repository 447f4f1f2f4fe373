import JsonShelf.Double.Printer
import JsonShelf.Json.Basic
import JsonShelf.Json.Quoted

/-!
# Printing JSON values

All printed forms of a value differ in four choices only: what stands between items, what stands
between a name and its value, whether items have lines of their own, and whether code points above
ASCII are escaped. `Json.Style` holds these choices. Empty arrays and objects are printed without
anything between the brackets in every style.

Every integer is printed here, while a printer that is as strict as the reader refuses integers of
more than `Numeral.digitLimit` digits. No value that was read holds such an integer, and none gets
into a document by a write of such a value (`Json.WellFormed`). As in reading, values may be nested
to any depth.

## Main definitions

* `Json.Style`, `Json.print` — the choices, and a value printed after them
* `Style.compact`, `Style.ascii`, `Style.file` — the styles in use
* `Json.AllFinite` — no double is infinite or no number
-/

namespace JsonShelf

namespace Json

/-- The choices in printing a value. -/
structure Style where
  /-- What stands behind an item that another one follows. -/
  itemSeparator : Text
  /-- What stands between the name and the value of a member. -/
  nameSeparator : Text
  /-- The spaces per level, if items have lines of their own. -/
  indent : Option Nat
  /-- Whether code points above `U+007E` are escaped. -/
  asciiOnly : Bool

namespace Style

/-- The start of a line at a depth, in styles with lines. -/
def newLine (st : Style) (depth : Nat) : Text :=
  match st.indent with
  | none => []
  | some spaces => ('\n' : CodePoint) :: List.replicate (spaces * depth) ' '

/-- Everything on one line and as close as can be. -/
def compact : Style where
  itemSeparator := [',']
  nameSeparator := [':']
  indent := none
  asciiOnly := false

/-- The compact style in printable ASCII. -/
def ascii : Style := { compact with asciiOnly := true }

/-- The style of files. With an indentation every item has its own line, indented by that many
spaces per level and by none if it is negative; without one, everything is on one line with spaces
behind the separators. -/
def file (indent : Option Int) : Style where
  itemSeparator := if indent.isSome then [','] else [',', ' ']
  nameSeparator := [':', ' ']
  indent := indent.map Int.toNat
  asciiOnly := false

end Style

mutual

/-- A value as text, inside of `depth` arrays and objects. -/
def printAt (st : Style) (depth : Nat) : Json → Text
  | null => Text.ofString "null"
  | bool true => Text.ofString "true"
  | bool false => Text.ofString "false"
  | int n => Numeral.ofInt n
  | double x => x.print
  | str s => Quoted.print st.asciiOnly s
  | arr [] => ['[', ']']
  | arr (item :: items) =>
    ('[' : CodePoint) :: st.newLine (depth + 1) ++ printAt st (depth + 1) item
      ++ printItems st (depth + 1) items ++ st.newLine depth ++ [(']' : CodePoint)]
  | obj [] => ['{', '}']
  | obj ((name, v) :: members) =>
    ('{' : CodePoint) :: st.newLine (depth + 1) ++ Quoted.print st.asciiOnly name
      ++ st.nameSeparator ++ printAt st (depth + 1) v
      ++ printMembers st (depth + 1) members ++ st.newLine depth ++ [('}' : CodePoint)]

/-- The items of an array behind the first one. -/
def printItems (st : Style) (depth : Nat) : List Json → Text
  | [] => []
  | item :: items =>
    st.itemSeparator ++ st.newLine depth ++ printAt st depth item ++ printItems st depth items

/-- The members of an object behind the first one. -/
def printMembers (st : Style) (depth : Nat) : List (Text × Json) → Text
  | [] => []
  | (name, v) :: members =>
    st.itemSeparator ++ st.newLine depth ++ Quoted.print st.asciiOnly name
      ++ st.nameSeparator ++ printAt st depth v ++ printMembers st depth members

end

/-- A value as text. -/
def print (st : Style) (v : Json) : Text := printAt st 0 v

mutual

/-- Whether no double in a value is infinite or no number. -/
def allFinite : Json → Bool
  | double x => x.isFinite
  | arr items => allItemsFinite items
  | obj members => allMembersFinite members
  | _ => true

/-- Whether no double in some items is infinite or no number. -/
def allItemsFinite : List Json → Bool
  | [] => true
  | item :: items => allFinite item && allItemsFinite items

/-- Whether no double in some members is infinite or no number. -/
def allMembersFinite : List (Text × Json) → Bool
  | [] => true
  | (_, v) :: members => allFinite v && allMembersFinite members

end

end Json

end JsonShelf
