import JsonShelf.Encoding.Basic

/-!
# Labels of encodings

Encodings are chosen by a label. Letter case does not matter in it, and neither does what stands
between its words, so a label is brought into one written form first: small letters, and one hyphen
between words. Dots belong to words.

Every encoding has a name and aliases, and the written form has to be one of them. An alias may be
written with dots in place of hyphens as well, while a name may not.

## Main definitions

* `Encoding.writtenForm` — the form of a label that is looked up
* `Encoding.Entry`, `Encoding.entries` — the name and the aliases of every encoding
* `Encoding.ofLabel?` — the encoding of a label
-/

namespace JsonShelf

namespace Encoding

/-! ### The written form -/

/-- The hyphen between words. -/
def hyphen : CodePoint := '-'

/-- The dot, which may stand where an alias has a hyphen. -/
def dot : CodePoint := '.'

/-- An ASCII capital as a small letter; other code points stay. -/
def lowerCase (c : CodePoint) : CodePoint :=
  if 0x41 ≤ c.val ∧ c.val ≤ 0x5A then .ofNat (c.val + 0x20) else c

/-- Words are made of ASCII letters, ASCII digits and dots. -/
abbrev IsWordChar (c : CodePoint) : Prop :=
  c = dot ∨ 0x30 ≤ c.val ∧ c.val ≤ 0x39 ∨ 0x41 ≤ c.val ∧ c.val ≤ 0x5A ∨
    0x61 ≤ c.val ∧ c.val ≤ 0x7A

/-- The words of a label, in small letters. -/
def labelWords (label : Text) : List Text :=
  ((label.splitOnP fun c => decide (¬ IsWordChar c)).filter fun word => decide (word ≠ [])).map
    (·.map lowerCase)

/-- A label in small letters, with one hyphen between its words. -/
def writtenForm (label : Text) : Text := [hyphen].intercalate (labelWords label)

/-- A text with hyphens in place of its dots. -/
def hyphenated (t : Text) : Text := t.map fun c => if c = dot then hyphen else c

/-! ### Look-up -/

/-- An encoding with its name and its aliases, all in written form. -/
structure Entry where
  encoding : Encoding
  name : String
  aliases : List String
deriving DecidableEq

/-- The name and the aliases of every encoding. -/
def entries : List Entry :=
  [⟨plain .utf8, "utf-8", ["utf8", "u8", "utf", "utf8-ucs2", "utf8-ucs4", "cp65001"]⟩,
   ⟨utf8Signed, "utf-8-sig", []⟩,
   ⟨utf16Marked, "utf-16", ["utf16", "u16"]⟩,
   ⟨plain (.utf16 .little), "utf-16-le", ["utf-16le", "unicodelittleunmarked"]⟩,
   ⟨plain (.utf16 .big), "utf-16-be", ["utf-16be", "unicodebigunmarked"]⟩,
   ⟨utf32Marked, "utf-32", ["utf32", "u32"]⟩,
   ⟨plain (.utf32 .little), "utf-32-le", ["utf-32le"]⟩,
   ⟨plain (.utf32 .big), "utf-32-be", ["utf-32be"]⟩,
   ⟨plain .ascii, "ascii",
    ["us-ascii", "us", "646", "iso646-us", "iso-646.irv-1991", "iso-ir-6", "ansi-x3.4-1968",
     "ansi-x3-4-1968", "ansi-x3.4-1986", "cp367", "ibm367", "csascii"]⟩,
   ⟨plain .latin1, "latin-1",
    ["latin1", "latin", "l1", "iso-8859-1", "iso8859-1", "iso8859", "8859", "iso-8859-1-1987",
     "iso-ir-100", "cp819", "ibm819", "csisolatin1"]⟩]

/-- The encoding with the name `t`. -/
def ofName? (t : Text) : Option Encoding :=
  (entries.find? fun entry => decide (Text.ofString entry.name = t)).map (·.encoding)

/-- The encoding with the alias `t`. -/
def ofAlias? (t : Text) : Option Encoding :=
  (entries.find? fun entry => decide (t ∈ entry.aliases.map Text.ofString)).map (·.encoding)

/-- The encoding of a label, if it is a known one. -/
def ofLabel? (label : Text) : Option Encoding :=
  let t := writtenForm label
  (ofAlias? t).or ((ofAlias? (hyphenated t)).or (ofName? t))

end Encoding

end JsonShelf
