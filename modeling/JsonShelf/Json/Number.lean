import JsonShelf.Double.Rounding
import JsonShelf.Text.Numeral

/-!
# Number literals

A number is written

    number   := '-'? integer fraction? exponent?
    integer  := '0' | [1-9] digit*
    fraction := '.' digit+
    exponent := [eE] [+-]? digit+

and read as far as this goes: what follows is not judged here. A fraction or an exponent makes it a
double; without them it is an integer, whose digits are kept as they are, because only the reader
that asks for a value has to refuse an integer of too many digits.

## Main definitions

* `Number` — the parts of a literal
* `Number.read` — the longest literal at the front of a text
* `Number.toDouble` — the double of a literal with a fraction or an exponent
-/

namespace JsonShelf

namespace Json

/-- The parts of a number literal. -/
structure Number where
  /-- Whether a minus sign comes first. -/
  negative : Bool
  /-- The digits before the point. -/
  integer : Text
  /-- The digits behind the point, if there is one. -/
  fraction : Option Text
  /-- The exponent with its sign, if there is one. -/
  exponent : Option (Bool × Text)
deriving DecidableEq

namespace Number

/-- The digits at the front of a text and what follows them. -/
def digitRun (s : Text) : Text × Text :=
  (s.takeWhile fun c => decide c.IsDigit, s.dropWhile fun c => decide c.IsDigit)

/-- The sign at the front of a text, minus or nothing. -/
def readMinus : Text → Bool × Text
  | [] => (false, [])
  | c :: rest => if c = ('-' : Char) then (true, rest) else (false, c :: rest)

/-- The digits before the point: a zero, or digits that start with another one. -/
def readInteger : Text → Option (Text × Text)
  | [] => none
  | c :: rest =>
    if c = ('0' : Char) then some ([c], rest)
    else if c.IsDigit then some (c :: (digitRun rest).1, (digitRun rest).2)
    else none

/-- A point with digits behind it. -/
def readFraction : Text → Option Text × Text
  | [] => (none, [])
  | c :: rest =>
    if c = ('.' : Char) ∧ (digitRun rest).1 ≠ [] then (some (digitRun rest).1, (digitRun rest).2)
    else (none, c :: rest)

/-- The sign of an exponent, plus or minus or nothing. -/
def readSign : Text → Bool × Text
  | [] => (false, [])
  | c :: rest =>
    if c = ('-' : Char) then (true, rest)
    else if c = ('+' : Char) then (false, rest)
    else (false, c :: rest)

/-- A letter for the exponent with digits behind it, which may have a sign. -/
def readExponent : Text → Option (Bool × Text) × Text
  | [] => (none, [])
  | c :: rest =>
    let run := digitRun (readSign rest).2
    if (c = ('e' : Char) ∨ c = ('E' : Char)) ∧ run.1 ≠ [] then
      (some ((readSign rest).1, run.1), run.2)
    else (none, c :: rest)

/-- The longest number literal at the front of a text, and what follows it. -/
def read (s : Text) : Option (Number × Text) :=
  let sign := readMinus s
  match readInteger sign.2 with
  | none => none
  | some (integer, s) =>
    let fraction := readFraction s
    let exponent := readExponent fraction.2
    some (⟨sign.1, integer, fraction.1, exponent.1⟩, exponent.2)

/-- Whether the literal has neither fraction nor exponent. -/
def isInteger (n : Number) : Bool := n.fraction.isNone && n.exponent.isNone

/-- The exponent as a number; zero if there is none. -/
def exponentValue (n : Number) : Int :=
  match n.exponent with
  | none => 0
  | some (true, digits) => -(Numeral.toNat digits : Int)
  | some (false, digits) => Numeral.toNat digits

/-- The double nearest to the number that the literal writes. -/
def toDouble (n : Number) : Double :=
  let fraction := n.fraction.getD []
  Double.ofDecimal n.negative (Numeral.toNat (n.integer ++ fraction))
    (n.exponentValue - fraction.length)

/-! ### Lengths -/

theorem length_digitRun_le (s : Text) : (digitRun s).2.length ≤ s.length :=
  (List.dropWhile_sublist _).length_le

theorem length_readMinus_le (s : Text) : (readMinus s).2.length ≤ s.length := by
  cases s with
  | nil => simp [readMinus]
  | cons c rest => rw [readMinus]; split <;> simp

theorem length_readSign_le (s : Text) : (readSign s).2.length ≤ s.length := by
  cases s with
  | nil => simp [readSign]
  | cons c rest =>
    rw [readSign]; split
    · simp
    · split <;> simp

theorem length_readInteger_lt {s digits after : Text} (h : readInteger s = some (digits, after)) :
    after.length < s.length := by
  cases s with
  | nil => cases h
  | cons c rest =>
    rw [readInteger] at h
    split at h
    · cases h; simp
    · split at h
      · cases h; exact Nat.lt_succ_of_le (length_digitRun_le rest)
      · cases h

theorem length_readFraction_le (s : Text) : (readFraction s).2.length ≤ s.length := by
  cases s with
  | nil => simp [readFraction]
  | cons c rest =>
    rw [readFraction]; split
    · exact Nat.le_succ_of_le (length_digitRun_le rest)
    · simp

theorem length_readExponent_le (s : Text) : (readExponent s).2.length ≤ s.length := by
  cases s with
  | nil => simp [readExponent]
  | cons c rest =>
    rw [readExponent]; split
    · exact Nat.le_succ_of_le (Nat.le_trans (length_digitRun_le _) (length_readSign_le rest))
    · simp

/-- A literal takes at least one code point. -/
theorem length_of_read {s after : Text} {n : Number} (h : read s = some (n, after)) :
    after.length < s.length := by
  rw [read] at h
  cases hi : readInteger (readMinus s).2 with
  | none => simp [hi] at h
  | some r =>
    obtain ⟨integer, rest⟩ := r
    simp only [hi, Option.some.injEq, Prod.mk.injEq] at h
    have := length_readInteger_lt hi
    have := length_readMinus_le s
    have := length_readFraction_le rest
    have := length_readExponent_le (readFraction rest).2
    have := congrArg List.length h.2
    omega

end Number

end Json

end JsonShelf
