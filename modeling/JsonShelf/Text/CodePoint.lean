/-!
# Code points and texts

Documents are read and printed as lists of code points, surrogates included: an escape such as
`\ud800` and a leniently decoded request body may hold one half of a surrogate pair, and such a half
has to live in memory although no strict encoding can store it. `Char` has no place for it, so the
alphabet here is every number below `0x110000`.

## Main definitions

* `CodePoint`, `Text` — the alphabet and the words over it
* `CodePoint.IsHigh`, `CodePoint.IsLow`, `CodePoint.joinPair` — surrogate halves and their join
* `CodePoint.highHalf`, `CodePoint.lowHalf` — the two halves of a code point above `U+FFFF`
* `Text.HasNul` — whether a text holds the character NUL
-/

namespace JsonShelf

/-- A code point is a number below `0x110000`; the surrogates are among them. -/
@[ext] structure CodePoint where
  /-- The number of the code point. -/
  val : Nat
  /-- Code points end at `U+10FFFF`. -/
  isLt : val < 0x110000
deriving DecidableEq

/-- A text is a list of code points. -/
abbrev Text := List CodePoint

namespace CodePoint

/-- The code point that stands for bytes which cannot be decoded, `U+FFFD`. -/
def replacement : CodePoint := ⟨0xFFFD, by decide⟩

/-- The byte order mark `U+FEFF`. -/
def byteOrderMark : CodePoint := ⟨0xFEFF, by decide⟩

/-- The code point numbered `n`; numbers that are out of range give `replacement`. -/
def ofNat (n : Nat) : CodePoint := if h : n < 0x110000 then ⟨n, h⟩ else replacement

theorem val_ofNat {n : Nat} (h : n < 0x110000) : (ofNat n).val = n := by
  simp [ofNat, h]

@[simp] theorem ofNat_val (c : CodePoint) : ofNat c.val = c := by
  simp [ofNat, c.isLt]

/-- Every character is a code point. -/
def ofChar (c : Char) : CodePoint :=
  ⟨c.toNat, by
    have h : c.toNat < 0xD800 ∨ 0xDFFF < c.toNat ∧ c.toNat < 0x110000 := c.valid
    omega⟩

instance : Coe Char CodePoint := ⟨ofChar⟩

@[simp] theorem val_ofChar (c : Char) : (ofChar c).val = c.toNat := rfl

/-! ### Surrogates -/

/-- The first half of a surrogate pair. -/
abbrev IsHigh (c : CodePoint) : Prop := 0xD800 ≤ c.val ∧ c.val < 0xDC00

/-- The second half of a surrogate pair. -/
abbrev IsLow (c : CodePoint) : Prop := 0xDC00 ≤ c.val ∧ c.val < 0xE000

/-- Either half of a surrogate pair. -/
abbrev IsSurrogate (c : CodePoint) : Prop := 0xD800 ≤ c.val ∧ c.val < 0xE000

/-- The code point that a high half and a low half make together. -/
def joinPair (high low : CodePoint) : CodePoint :=
  ofNat (0x10000 + (high.val - 0xD800) * 0x400 + (low.val - 0xDC00))

/-- The number of the high half of a code point above `U+FFFF`. -/
def highHalf (c : CodePoint) : Nat := 0xD800 + (c.val - 0x10000) / 0x400

/-- The number of the low half of a code point above `U+FFFF`. -/
def lowHalf (c : CodePoint) : Nat := 0xDC00 + (c.val - 0x10000) % 0x400

theorem val_joinPair {high low : CodePoint} (hh : high.IsHigh) (hl : low.IsLow) :
    (joinPair high low).val = 0x10000 + (high.val - 0xD800) * 0x400 + (low.val - 0xDC00) :=
  val_ofNat (by have := hh.1; have := hh.2; have := hl.1; have := hl.2; omega)

end CodePoint

namespace Text

/-- The code points of a string. -/
def ofString (s : String) : Text := s.toList.map CodePoint.ofChar

/-- Whether a text holds the character NUL. -/
def HasNul (t : Text) : Prop := CodePoint.ofNat 0 ∈ t

instance (t : Text) : Decidable (HasNul t) :=
  inferInstanceAs (Decidable (CodePoint.ofNat 0 ∈ t))

end Text

end JsonShelf
