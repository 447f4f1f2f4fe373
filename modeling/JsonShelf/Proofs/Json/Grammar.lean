import JsonShelf.Double.Rounding
import JsonShelf.Json.Basic
import JsonShelf.Text.Numeral

/-!
# The grammar of JSON texts

Which texts stand for values, and for which, said without any reader:

    text     := blank* value blank*
    value    := word | number | string | array | object
    word     := 'null' | 'true' | 'false' | 'NaN' | 'Infinity' | '-Infinity'
    number   := '-'? whole fraction? exponent?
    whole    := '0' | [1-9] digit*
    fraction := '.' digit+
    exponent := [eE] [+-]? digit+
    string   := '"' (character | escape)* '"'
    escape   := '\' ["\/bfnrt] | '\u' hex hex hex hex
    array    := '[' blank* ']' | '[' (text ',')* text ']'
    object   := '{' blank* '}' | '{' (member ',')* member '}'
    member   := blank* string blank* ':' text

Each rule is a relation between texts and what they stand for. A number without fraction and
exponent is an integer, of any size; the limit on its digits is not a matter of grammar, but the
digits of all integers in a text are kept beside its value, so that the limit can be spoken of. The
numbers with a fraction or an exponent are doubles.

An escaped high surrogate and an escaped low one behind it are one character. A name that comes more
than once in an object counts where it came first, with the value that came last.

## Main definitions

* `Word`, `Whole`, `Fraction`, `Exponent` — words and the parts of numbers
* `Body`, `Str` — strings
* `lastValues` — the members of an object whose names repeat
* `Denotes` — texts, their values, and the digits of their integers
-/

namespace JsonShelf

namespace Json

namespace Grammar

/-! ### White space and words -/

/-- White space: spaces, tabs, line feeds and carriage returns. -/
def Blank (t : Text) : Prop := ∀ c ∈ t, c ∈ ([' ', '\t', '\n', '\r'] : Text)

/-- The words, with their values. -/
inductive Word : Text → Json → Prop
  | null : Word (Text.ofString "null") .null
  | true : Word (Text.ofString "true") (.bool .true)
  | false : Word (Text.ofString "false") (.bool .false)
  | nan : Word (Text.ofString "NaN") (.double .nan)
  | infinity : Word (Text.ofString "Infinity") (.double (.infinite .false))
  | minusInfinity : Word (Text.ofString "-Infinity") (.double (.infinite .true))

/-! ### Numbers -/

/-- Digits, one at least. -/
def Digits (t : Text) : Prop := t ≠ [] ∧ ∀ c ∈ t, c.IsDigit

/-- A number with a sign. -/
def signed (negative : Bool) (n : Nat) : Int := if negative then -n else n

/-- Nothing, or a minus sign. -/
inductive Minus : Text → Bool → Prop
  | none : Minus [] false
  | minus : Minus ['-'] true

/-- The digits of a whole number: a zero alone, or digits of which the first is another one. -/
inductive Whole : Text → Prop
  | zero : Whole ['0']
  | digits {c : CodePoint} (hc : c.IsDigit) (hzero : c ≠ ('0' : Char)) {rest : Text}
    (hrest : ∀ d ∈ rest, d.IsDigit) : Whole (c :: rest)

/-- Nothing, or a point with digits behind it. -/
inductive Fraction : Text → Option Text → Prop
  | none : Fraction [] none
  | point {digits : Text} (h : Digits digits) : Fraction (('.' : CodePoint) :: digits) (some digits)

/-- The sign of an exponent: nothing, plus or minus. -/
inductive Sign : Text → Bool → Prop
  | none : Sign [] false
  | plus : Sign ['+'] false
  | minus : Sign ['-'] true

/-- Nothing, or a letter with a sign and digits behind it. -/
inductive Exponent : Text → Option (Bool × Text) → Prop
  | none : Exponent [] none
  | letter {c : CodePoint} (hc : c = ('e' : Char) ∨ c = ('E' : Char)) {sign digits : Text}
    {negative : Bool} (hsign : Sign sign negative) (hdigits : Digits digits) :
    Exponent (c :: (sign ++ digits)) (some (negative, digits))

/-- The power of ten that an exponent stands for. -/
def power : Option (Bool × Text) → Int
  | none => 0
  | some (negative, digits) => signed negative (Numeral.toNat digits)

/-! ### Strings -/

/-- A hexadecimal digit, in either case, and its number. -/
inductive HexDigit : CodePoint → Nat → Prop
  | decimal {c : CodePoint} {n : Nat} (hn : n < 10) (hc : c.val = 0x30 + n) : HexDigit c n
  | upper {c : CodePoint} {n : Nat} (hn : n < 6) (hc : c.val = 0x41 + n) : HexDigit c (10 + n)
  | lower {c : CodePoint} {n : Nat} (hn : n < 6) (hc : c.val = 0x61 + n) : HexDigit c (10 + n)

/-- Four hexadecimal digits, and the code point of their number. -/
inductive FourHex : Text → CodePoint → Prop
  | digits {d₃ d₂ d₁ d₀ : CodePoint} {n₃ n₂ n₁ n₀ : Nat} (h₃ : HexDigit d₃ n₃)
    (h₂ : HexDigit d₂ n₂) (h₁ : HexDigit d₁ n₁) (h₀ : HexDigit d₀ n₀) :
    FourHex [d₃, d₂, d₁, d₀] (.ofNat (0x1000 * n₃ + 0x100 * n₂ + 0x10 * n₁ + n₀))

/-- The letters of the short escapes, and what they stand for. -/
inductive Short : CodePoint → CodePoint → Prop
  | quote : Short '"' '"'
  | backslash : Short '\\' '\\'
  | slash : Short '/' '/'
  | backspace : Short 'b' (.ofNat 0x8)
  | formFeed : Short 'f' (.ofNat 0xC)
  | lineFeed : Short 'n' (.ofNat 0xA)
  | carriageReturn : Short 'r' (.ofNat 0xD)
  | tab : Short 't' (.ofNat 0x9)

/-- A numbered escape. -/
def numberedEscape (digits : Text) : Text :=
  ('\\' : CodePoint) :: ('u' : CodePoint) :: digits

/-- The text starts with the escape of a low surrogate. -/
def StartsWithLow (t : Text) : Prop :=
  ∃ digits c rest, t = numberedEscape digits ++ rest ∧ FourHex digits c ∧ c.IsLow

/-- What is between the quotes of a string, and the text that it stands for. -/
inductive Body : Text → Text → Prop
  | nil : Body [] []
  | character {c : CodePoint} (hquote : c ≠ ('"' : Char)) (hbackslash : c ≠ ('\\' : Char))
    (hcontrol : 0x20 ≤ c.val) {t s : Text} (h : Body t s) : Body (c :: t) (c :: s)
  | short {e c : CodePoint} (he : Short e c) {t s : Text} (h : Body t s) :
    Body (('\\' : CodePoint) :: e :: t) (c :: s)
  | pair {digits digits' : Text} {high low : CodePoint} (hhigh : FourHex digits high)
    (hlow : FourHex digits' low) (hpair : high.IsHigh ∧ low.IsLow) {t s : Text} (h : Body t s) :
    Body (numberedEscape digits ++ (numberedEscape digits' ++ t)) (high.joinPair low :: s)
  | numbered {digits : Text} {c : CodePoint} (hc : FourHex digits c) {t s : Text}
    (halone : ¬ (c.IsHigh ∧ StartsWithLow t)) (h : Body t s) :
    Body (numberedEscape digits ++ t) (c :: s)

/-- A string, and the text that it stands for. -/
inductive Str : Text → Text → Prop
  | quoted {t s : Text} (h : Body t s) :
    Str (('"' : CodePoint) :: (t ++ [('"' : CodePoint)])) s

/-! ### Values -/

/-- An item of an array: its text with the white space around it, its value, and the digits of the
integers in it. -/
structure Item where
  text : Text
  value : Json
  integers : List Text

/-- A member of an object: an item, and the name in front of it. -/
structure Member extends Item where
  nameText : Text
  name : Text

/-- A name as it is written, with white space around it. -/
inductive Name : Text → Text → Prop
  | padded {before t s after : Text} (hbefore : Blank before) (h : Str t s) (hafter : Blank after) :
    Name (before ++ (t ++ after)) s

/-- Items with a comma behind each of them. -/
def itemsText (items : List Item) : Text := items.flatMap fun i => i.text ++ [(',' : CodePoint)]

/-- A member as it is written. -/
def memberText (m : Member) : Text := m.nameText ++ (':' : CodePoint) :: m.text

/-- Members with a comma behind each of them. -/
def membersText (members : List Member) : Text :=
  members.flatMap fun m => memberText m ++ [(',' : CodePoint)]

/-- Names and values in a row as an object has them: every name once, where it came first, with the
value that came last. -/
def lastValues : List (Text × Json) → Members
  | [] => []
  | (name, v) :: rest =>
    (name, (KeyedList.find? name (lastValues rest)).getD v) ::
      (lastValues rest).filter fun m => decide (m.1 ≠ name)

/-- What members in a row make as an object. -/
def membersOf (members : List Member) : Members :=
  lastValues (members.map fun m => (m.name, m.value))

/-- A text that denotes a value, and the digits of the integers in it. -/
inductive Denotes : Text → Json → List Text → Prop
  | padded {before after : Text} (hbefore : Blank before) (hafter : Blank after) {t : Text}
    {v : Json} {integers : List Text} (h : Denotes t v integers) :
    Denotes (before ++ (t ++ after)) v integers
  | word {t : Text} {v : Json} (h : Word t v) : Denotes t v []
  | integer {sign digits : Text} {negative : Bool} (hsign : Minus sign negative)
    (hdigits : Whole digits) :
    Denotes (sign ++ digits) (.int (signed negative (Numeral.toNat digits))) [digits]
  | double {sign digits fraction exponent : Text} {negative : Bool} {behind : Option Text}
    {letter : Option (Bool × Text)} (hsign : Minus sign negative) (hdigits : Whole digits)
    (hfraction : Fraction fraction behind) (hexponent : Exponent exponent letter)
    (hdouble : behind.isSome ∨ letter.isSome) :
    Denotes (sign ++ (digits ++ (fraction ++ exponent)))
      (.double (Double.ofDecimal negative (Numeral.toNat (digits ++ behind.getD []))
        (power letter - (behind.getD []).length))) []
  | string {t s : Text} (h : Str t s) : Denotes t (.str s) []
  | emptyArray {blanks : Text} (h : Blank blanks) :
    Denotes (('[' : CodePoint) :: (blanks ++ [(']' : CodePoint)])) (.arr []) []
  | array {items : List Item} {last : Item}
    (hitems : ∀ i ∈ items, Denotes i.text i.value i.integers)
    (hlast : Denotes last.text last.value last.integers) :
    Denotes (('[' : CodePoint) :: (itemsText items ++ (last.text ++ [(']' : CodePoint)])))
      (.arr (items.map Item.value ++ [last.value]))
      (items.flatMap Item.integers ++ last.integers)
  | emptyObject {blanks : Text} (h : Blank blanks) :
    Denotes (('{' : CodePoint) :: (blanks ++ [('}' : CodePoint)])) (.obj []) []
  | object {members : List Member} {last : Member} (hnames : ∀ m ∈ members, Name m.nameText m.name)
    (hname : Name last.nameText last.name)
    (hmembers : ∀ m ∈ members, Denotes m.text m.value m.integers)
    (hlast : Denotes last.text last.value last.integers) :
    Denotes (('{' : CodePoint) :: (membersText members ++ (memberText last ++ [('}' : CodePoint)])))
      (.obj (membersOf (members ++ [last])))
      (members.flatMap (·.integers) ++ last.integers)

end Grammar

end Json

end JsonShelf
