import JsonShelf.Json.Fault

/-!
# Quoted strings

A string is read in two steps. The first turns the text between the quotes into units, each of which
knows whether it was written as a numbered escape. The second joins pairs: an escaped high
surrogate and an escaped low surrogate next to it are one code point, and no other surrogates are
joined, so halves that stand in the text as they are stay halves.

## Main definitions

* `Quoted.units` — the units up to the closing quote, and the text behind it
* `Quoted.joined` — the text of units
* `Quoted.read` — both
* `Quoted.print` — a text between quotes
-/

namespace JsonShelf

namespace Json

namespace Quoted

/-- The quote around a string. -/
def quote : CodePoint := '"'

/-- The backslash of escapes. -/
def backslash : CodePoint := '\\'

/-- The letter of numbered escapes. -/
def numbered : CodePoint := 'u'

/-- Control characters have to be escaped. -/
abbrev IsControl (c : CodePoint) : Prop := c.val < 0x20

/-- The escapes of one letter, with what they stand for. -/
def shortEscapes : List (CodePoint × CodePoint) :=
  [(quote, quote), (backslash, backslash), ('/', '/'), ('b', .ofNat 0x8), ('f', .ofNat 0xC),
   ('n', .ofNat 0xA), ('r', .ofNat 0xD), ('t', .ofNat 0x9)]

/-- One code point of a string as it is written. -/
inductive StringUnit
  /-- A character, or an escape of one letter. -/
  | plain (c : CodePoint)
  /-- An escape with four hexadecimal digits. -/
  | escaped (c : CodePoint)
deriving DecidableEq

/-- The units up to the closing quote, with the text behind it. The text from the opening quote on
is `start`. -/
def units (start : Text) : Text → Except Fault (List StringUnit × Text)
  | [] => .error ⟨.unterminatedString, start⟩
  | c :: rest =>
    if c = quote then .ok ([], rest)
    else if c = backslash then
      match rest with
      | [] => .error ⟨.unterminatedString, start⟩
      | e :: after =>
        if e = numbered then
          match after with
          | d₁ :: d₂ :: d₃ :: d₄ :: next :: more =>
            match Numeral.ofHex? [d₁, d₂, d₃, d₄] with
            | some n => (units start (next :: more)).map fun r => (.escaped (.ofNat n) :: r.1, r.2)
            | none => .error ⟨.numberedEscape, e :: after⟩
          | _ => .error ⟨.numberedEscape, e :: after⟩
        else
          match shortEscapes.lookup e with
          | some d => (units start after).map fun r => (.plain d :: r.1, r.2)
          | none => .error ⟨.escape, c :: rest⟩
    else if IsControl c then .error ⟨.controlCharacter, c :: rest⟩
    else (units start rest).map fun r => (.plain c :: r.1, r.2)

/-- The text of units: adjacent escaped halves of a pair are one code point. -/
def joined : List StringUnit → Text
  | [] => []
  | .plain c :: rest => c :: joined rest
  | .escaped c :: .escaped d :: rest =>
    if c.IsHigh ∧ d.IsLow then c.joinPair d :: joined rest else c :: joined (.escaped d :: rest)
  | .escaped c :: rest => c :: joined rest

/-- The string whose opening quote is at the front of `start` and followed by `rest`, and the text
behind its closing quote. -/
def read (start rest : Text) : Except Fault (Text × Text) :=
  (units start rest).map fun r => (joined r.1, r.2)

theorem length_of_units {start s after : Text} {us : List StringUnit}
    (h : units start s = .ok (us, after)) : after.length < s.length := by
  have key : ∀ {t : Text} {f : List StringUnit × Text → List StringUnit × Text}
      {p : List StringUnit × Text}, (units start t).map f = .ok p →
      ∃ q, units start t = .ok q ∧ f q = p := by
    intro t f p hp
    cases hq : units start t with
    | error e => rw [hq] at hp; cases hp
    | ok q => rw [hq] at hp; cases hp; exact ⟨q, rfl, rfl⟩
  fun_induction units start s generalizing us after with
  | case2 => cases h; simp
  | case4 _ _ _ _ next more _ n hn ih =>
    obtain ⟨q, hq, hqp⟩ := key h
    have := ih hq
    cases hqp
    simp only [List.length_cons] at this ⊢
    omega
  | case7 e after' _ _ d hd ih =>
    obtain ⟨q, hq, hqp⟩ := key h
    have := ih hq
    cases hqp
    simp only [List.length_cons]
    omega
  | case10 c rest _ _ _ ih =>
    obtain ⟨q, hq, hqp⟩ := key h
    have := ih hq
    cases hqp
    simp only [List.length_cons]
    omega
  | _ => cases h

/-- A string ends behind its opening quote. -/
theorem length_of_read {start rest t after : Text} (h : read start rest = .ok (t, after)) :
    after.length < rest.length := by
  cases hu : units start rest with
  | error f => rw [read, hu] at h; cases h
  | ok r => rw [read, hu] at h; cases h; exact length_of_units hu

/-! ### Printing -/

/-- A numbered escape. -/
def numberedEscape (n : Nat) : Text := backslash :: numbered :: Numeral.hex 4 n

/-- The short escape for a code point, if printing uses one; a slash is printed as it is. -/
def shortEscape? (c : CodePoint) : Option CodePoint :=
  (shortEscapes.find? fun entry => decide (entry.2 = c ∧ c ≠ ('/' : Char))).map (·.1)

/-- One code point of a printed string. Where only printable ASCII is wanted, the code points
above `U+007E` are escaped by their numbers, those above `U+FFFF` as surrogate pairs. -/
def printChar (asciiOnly : Bool) (c : CodePoint) : Text :=
  match shortEscape? c with
  | some e => [backslash, e]
  | none =>
    if IsControl c then numberedEscape c.val
    else if asciiOnly ∧ 0x7E < c.val then
      if c.val < 0x10000 then numberedEscape c.val
      else numberedEscape c.highHalf ++ numberedEscape c.lowHalf
    else [c]

/-- A text between quotes. -/
def print (asciiOnly : Bool) (t : Text) : Text :=
  quote :: t.flatMap (printChar asciiOnly) ++ [quote]

end Quoted

end Json

end JsonShelf
