import JsonShelf.Json.Basic
import JsonShelf.Json.Number
import JsonShelf.Json.Quoted

/-!
# Lexemes

A text is cut into lexemes with white space between them. A lexeme is a token together with the rest
of the text that starts with it, which is its spot. Cutting never fails: a string that cannot be
read is a token with the fault in it, and so is a character that no token starts with. Nothing is
cut behind such a token, and which of the complaints counts is for the reader to say.

## Main definitions

* `Token`, `Lexeme` — tokens, and tokens with their spots
* `Lexeme.list` — the lexemes of a text
-/

namespace JsonShelf

namespace Json

/-- The smallest parts of a text that have a meaning. -/
inductive Token
  | openArray
  | closeArray
  | openObject
  | closeObject
  | comma
  | colon
  /-- A keyword or a double. -/
  | literal (value : Json)
  /-- An integer with its digits. -/
  | integer (negative : Bool) (digits : Text)
  | string (s : Text)
  /-- A string that cannot be read. -/
  | badString (fault : Fault)
  /-- A character that starts no token. -/
  | unknown

/-- A token with the text that starts with it. -/
structure Lexeme where
  token : Token
  /-- The text from the token on. -/
  rest : Text

/-- White space between tokens: space, tab, line feed and carriage return. -/
abbrev IsBlank (c : CodePoint) : Prop :=
  c.val = 0x20 ∨ c.val = 0x9 ∨ c.val = 0xA ∨ c.val = 0xD

/-- The text without the white space at its front. -/
def skipBlanks (s : Text) : Text := s.dropWhile fun c => decide (IsBlank c)

namespace Token

/-- The tokens of one character. -/
def punctuation : List (CodePoint × Token) :=
  [('[', openArray), (']', closeArray), ('{', openObject), ('}', closeObject), (',', comma),
   (':', colon)]

/-- The tokens that are words, with their values. -/
def keywords : List (String × Json) :=
  [("null", null), ("true", bool true), ("false", bool false), ("NaN", double .nan),
   ("Infinity", double (.infinite false)), ("-Infinity", double (.infinite true))]

/-- The value of the keyword at the front of a text, and what follows it. -/
def readKeyword (s : Text) : Option (Json × Text) :=
  (keywords.find? fun entry => (Text.ofString entry.1).isPrefixOf s).map fun entry =>
    (entry.2, s.drop (Text.ofString entry.1).length)

/-- The token of a number literal. -/
def ofNumber (n : Number) : Token :=
  if n.isInteger then integer n.negative n.integer else literal (double n.toDouble)

/-- The token at the front of the text `c :: rest`, and what is to be cut further. -/
def scan (c : CodePoint) (rest : Text) : Token × Text :=
  match punctuation.lookup c with
  | some token => (token, rest)
  | none =>
    if c = Quoted.quote then
      match Quoted.read (c :: rest) rest with
      | .ok (s, after) => (string s, after)
      | .error fault => (badString fault, [])
    else
      match readKeyword (c :: rest) with
      | some (value, after) => (literal value, after)
      | none =>
        match Number.read (c :: rest) with
        | some (n, after) => (ofNumber n, after)
        | none => (unknown, [])

theorem length_of_readKeyword {s after : Text} {value : Json}
    (h : readKeyword s = some (value, after)) (hs : 0 < s.length) : after.length < s.length := by
  obtain ⟨entry, hfind, heq⟩ := Option.map_eq_some_iff.1 h
  have hmem := List.mem_of_find?_eq_some hfind
  have hpos : ∀ e ∈ keywords, 0 < (Text.ofString e.1).length := by decide
  have := hpos entry hmem
  cases heq
  rw [List.length_drop]
  omega

/-- Every token takes at least one code point. -/
theorem length_scan_le (c : CodePoint) (rest : Text) : (scan c rest).2.length ≤ rest.length := by
  rw [scan]; split
  · exact Nat.le_refl _
  · split
    · split
      · next h => exact Nat.le_of_lt (Quoted.length_of_read h)
      · exact Nat.zero_le _
    · split
      · next h => exact Nat.le_of_lt_succ (length_of_readKeyword h (by simp))
      · split
        · next h => exact Nat.le_of_lt_succ (Number.length_of_read h)
        · exact Nat.zero_le _

end Token

theorem length_skipBlanks_le (s : Text) : (skipBlanks s).length ≤ s.length :=
  (List.dropWhile_sublist _).length_le

theorem length_scan_lt {s rest : Text} {c : CodePoint} (h : skipBlanks s = c :: rest) :
    (Token.scan c rest).2.length < s.length := by
  have := Token.length_scan_le c rest
  have := length_skipBlanks_le s
  rw [h, List.length_cons] at this
  omega

namespace Lexeme

/-- The lexemes of a text, in order. -/
def list (s : Text) : List Lexeme :=
  match h : skipBlanks s with
  | [] => []
  | c :: rest =>
    have : (Token.scan c rest).2.length < s.length := length_scan_lt h
    ⟨(Token.scan c rest).1, c :: rest⟩ :: list (Token.scan c rest).2
termination_by s.length

/-- White space alone has no lexemes. -/
theorem list_of_blank {s : Text} (h : skipBlanks s = []) : list s = [] := by
  rw [list]; split
  · rfl
  · next h' => rw [h] at h'; cases h'

/-- The first lexeme starts behind the white space, and the others are those of the text that
scanning leaves. -/
theorem list_of_skipBlanks {s rest : Text} {c : CodePoint} (h : skipBlanks s = c :: rest) :
    list s = ⟨(Token.scan c rest).1, c :: rest⟩ :: list (Token.scan c rest).2 := by
  rw [list]; split
  · next h' => rw [h] at h'; cases h'
  · next h' => rw [h] at h'; cases h'; rfl

end Lexeme

end Json

end JsonShelf
