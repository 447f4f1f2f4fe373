import JsonShelf.Double.Printer
import JsonShelf.Json.Number
import JsonShelf.Proofs.Double.ReadBack
import JsonShelf.Proofs.Json.Grammar
import JsonShelf.Proofs.Text.Numeral
import Mathlib.Data.List.TakeWhile

/-!
# Number literals, written and read

The literals of the grammar are read as their parts, as long as nothing follows that would make them
longer, and what is read is such a literal. Integers and finite doubles are both printed as
literals: an integer without fraction and exponent, a double with one of them at least, and with a
value that is the shortest decimal of the double.

## Main definitions

* `Number.Literal` — the literals of the grammar, with their parts
* `Number.Ends` — what may follow a literal without being a part of it
* `Number.text`, `Number.Valid` — a literal as it is printed, and the parts that can be printed
* `Number.ofInt`, `Number.ofDecimal` — the literals of integers and of decimals

## Main results

* `Number.read_literal`, `Number.literal_of_read` — literals are read as their parts
* `Number.literal_ofInt`, `Number.exists_literal_finite` — what is printed are literals
-/

namespace JsonShelf

namespace Json

namespace Number

/-! ### Literals from their parts -/

/-- A minus sign, or nothing. -/
def minusText (negative : Bool) : Text := if negative then ['-'] else []

/-- The point and the digits behind it. -/
def fractionText : Option Text → Text
  | none => []
  | some digits => ('.' : CodePoint) :: digits

/-- The letter of an exponent, its sign and its digits. -/
def exponentText : Option (Bool × Text) → Text
  | none => []
  | some (negative, digits) =>
    ('e' : CodePoint) :: (if negative then ('-' : CodePoint) else ('+' : CodePoint)) :: digits

/-- A literal as it is written. -/
def text (n : Number) : Text :=
  minusText n.negative ++ (n.integer ++ (fractionText n.fraction ++ exponentText n.exponent))

/-- Digits, at least one. -/
def AreDigits (digits : Text) : Prop := digits ≠ [] ∧ ∀ c ∈ digits, c.IsDigit

/-- The parts of a literal that can be written: digits where they belong, and no zero in front of
others. -/
structure Valid (n : Number) : Prop where
  integer : AreDigits n.integer
  leading : n.integer.head? = some (CodePoint.digit 0) → n.integer = [CodePoint.digit 0]
  fraction : ∀ digits, n.fraction = some digits → AreDigits digits
  exponent : ∀ negative digits, n.exponent = some (negative, digits) → AreDigits digits

/-- The literals of the grammar, with their parts. The same parts may be written in several ways. -/
inductive Literal : Text → Number → Prop
  | parts {n : Number} {sign fraction exponent : Text} (hsign : Grammar.Minus sign n.negative)
    (hdigits : Grammar.Whole n.integer) (hfraction : Grammar.Fraction fraction n.fraction)
    (hexponent : Grammar.Exponent exponent n.exponent) :
    Literal (sign ++ (n.integer ++ (fraction ++ exponent))) n

theorem digit_zero_eq : CodePoint.digit 0 = ('0' : Char) := rfl

/-- Parts that can be written make a literal of the grammar. -/
theorem literal_text {n : Number} (h : n.Valid) : Literal n.text n := by
  refine .parts ?_ ?_ ?_ ?_
  · cases n.negative with
    | true => exact .minus
    | false => exact .none
  · obtain ⟨c, tl, hcons⟩ := List.exists_cons_of_ne_nil h.integer.1
    have hdigits := h.integer.2
    rw [hcons] at hdigits ⊢
    by_cases hc : c = ('0' : Char)
    · have htl := h.leading (by rw [hcons, List.head?_cons, hc, digit_zero_eq])
      rw [hcons, List.cons.injEq] at htl
      rw [hc, htl.2]
      exact .zero
    · exact .digits (hdigits c (List.mem_cons_self ..)) hc fun d hd =>
        hdigits d (List.mem_cons_of_mem _ hd)
  · cases hf : n.fraction with
    | none => exact .none
    | some digits => exact .point (h.fraction digits hf)
  · cases he : n.exponent with
    | none => exact .none
    | some e =>
      obtain ⟨negative, digits⟩ := e
      have hdigits := h.exponent negative digits he
      cases negative with
      | true => exact .letter (.inl rfl) .minus hdigits
      | false => exact .letter (.inl rfl) .plus hdigits

/-- What may follow a literal: nothing, or a character that does not go on with it. -/
def Ends (rest : Text) : Prop :=
  ∀ c, rest.head? = some c →
    ¬ c.IsDigit ∧ c ≠ ('.' : Char) ∧ c ≠ ('e' : Char) ∧ c ≠ ('E' : Char)

@[simp] theorem ends_nil : Ends [] := fun c h => by cases h

theorem ends_cons {c : CodePoint} (h : ¬ c.IsDigit ∧ c ≠ ('.' : Char) ∧ c ≠ ('e' : Char) ∧
    c ≠ ('E' : Char)) (rest : Text) : Ends (c :: rest) := by
  intro d hd
  rw [List.head?_cons, Option.some.injEq] at hd
  rwa [← hd]

/-- A literal is an integer unless it has a fraction or an exponent. -/
theorem isInteger_eq_false_iff {n : Number} :
    n.isInteger = false ↔ n.fraction.isSome ∨ n.exponent.isSome := by
  rw [isInteger, Bool.and_eq_false_iff]
  simp

/-! ### Reading the parts -/

theorem digitRun_append {digits rest : Text} (h : ∀ c ∈ digits, c.IsDigit)
    (hrest : ∀ c, rest.head? = some c → ¬ c.IsDigit) :
    digitRun (digits ++ rest) = (digits, rest) := by
  have htake : rest.takeWhile (fun c => decide c.IsDigit) = [] := by
    cases rest with
    | nil => rfl
    | cons c rest => exact List.takeWhile_cons_of_neg (by simpa using hrest c rfl)
  have hdrop : rest.dropWhile (fun c => decide c.IsDigit) = rest := by
    cases rest with
    | nil => rfl
    | cons c rest => exact List.dropWhile_cons_of_neg (by simpa using hrest c rfl)
  rw [digitRun, List.takeWhile_append_of_pos (by simpa using h),
    List.dropWhile_append_of_pos (by simpa using h), htake, hdrop, List.append_nil]

theorem areDigits_of_whole {digits : Text} (h : Grammar.Whole digits) : AreDigits digits := by
  cases h with
  | zero => exact ⟨List.cons_ne_nil _ _, List.forall_mem_singleton.2 (by decide)⟩
  | digits hc hzero hrest => exact ⟨List.cons_ne_nil _ _, List.forall_mem_cons.2 ⟨hc, hrest⟩⟩

theorem exists_cons_of_whole {digits : Text} (h : Grammar.Whole digits) :
    ∃ c tl, digits = c :: tl ∧ c.IsDigit := by
  cases h with
  | zero => exact ⟨_, _, rfl, by decide⟩
  | digits hc _ _ => exact ⟨_, _, rfl, hc⟩

theorem readMinus_append {sign digits : Text} {negative : Bool} (h : Grammar.Minus sign negative)
    (hdigits : Grammar.Whole digits) (rest : Text) :
    readMinus (sign ++ (digits ++ rest)) = (negative, digits ++ rest) := by
  cases h with
  | minus => rfl
  | none =>
    obtain ⟨c, tl, rfl, hdigit⟩ := exists_cons_of_whole hdigits
    have hc : c ≠ ('-' : Char) := by
      rintro rfl
      exact absurd hdigit (by decide)
    rw [List.nil_append, List.cons_append, readMinus, if_neg hc]

theorem readInteger_append {digits rest : Text} (h : Grammar.Whole digits)
    (hrest : ∀ c, rest.head? = some c → ¬ c.IsDigit) :
    readInteger (digits ++ rest) = some (digits, rest) := by
  cases h with
  | zero => rfl
  | digits hc hzero hdigits =>
    rw [List.cons_append, readInteger, if_neg hzero, if_pos hc, digitRun_append hdigits hrest]

theorem readFraction_append {fraction rest : Text} {behind : Option Text}
    (h : Grammar.Fraction fraction behind)
    (hrest : ∀ c, rest.head? = some c → ¬ c.IsDigit ∧ c ≠ ('.' : Char)) :
    readFraction (fraction ++ rest) = (behind, rest) := by
  cases h with
  | none =>
    rw [List.nil_append]
    cases rest with
    | nil => rfl
    | cons c rest => rw [readFraction, if_neg fun hc => (hrest c rfl).2 hc.1]
  | point hdigits =>
    have hrun := digitRun_append hdigits.2 fun c hc => (hrest c hc).1
    rw [List.cons_append, readFraction, hrun, if_pos ⟨rfl, hdigits.1⟩]

theorem readSign_append {sign digits : Text} {negative : Bool} (h : Grammar.Sign sign negative)
    (hdigits : Grammar.Digits digits) (rest : Text) :
    readSign (sign ++ (digits ++ rest)) = (negative, digits ++ rest) := by
  cases h with
  | plus => rfl
  | minus => rfl
  | none =>
    obtain ⟨c, tl, rfl⟩ := List.exists_cons_of_ne_nil hdigits.1
    have hdigit : c.IsDigit := hdigits.2 c (List.mem_cons_self ..)
    have hminus : c ≠ ('-' : Char) := by
      rintro rfl
      exact absurd hdigit (by decide)
    have hplus : c ≠ ('+' : Char) := by
      rintro rfl
      exact absurd hdigit (by decide)
    rw [List.nil_append, List.cons_append, readSign, if_neg hminus, if_neg hplus]

theorem readExponent_append {exponent rest : Text} {letter : Option (Bool × Text)}
    (h : Grammar.Exponent exponent letter)
    (hrest : ∀ c, rest.head? = some c → ¬ c.IsDigit ∧ c ≠ ('e' : Char) ∧ c ≠ ('E' : Char)) :
    readExponent (exponent ++ rest) = (letter, rest) := by
  cases h with
  | none =>
    rw [List.nil_append]
    cases rest with
    | nil => rfl
    | cons c rest =>
      simp only [readExponent]
      rw [if_neg fun hc => hc.1.elim (hrest c rfl).2.1 (hrest c rfl).2.2]
  | letter hc hsign hdigits =>
    have hrun := digitRun_append hdigits.2 fun c hc => (hrest c hc).1
    simp only [List.cons_append, List.append_assoc, readExponent,
      readSign_append hsign hdigits, hrun]
    rw [if_pos ⟨hc, hdigits.1⟩]

theorem head?_exponent {exponent rest : Text} {letter : Option (Bool × Text)}
    (h : Grammar.Exponent exponent letter) (hrest : Ends rest) :
    ∀ c, (exponent ++ rest).head? = some c → ¬ c.IsDigit ∧ c ≠ ('.' : Char) := by
  intro c hc
  cases h with
  | none => exact ⟨(hrest c hc).1, (hrest c hc).2.1⟩
  | letter hletter hsign hdigits =>
    cases hc
    rcases hletter with rfl | rfl <;> decide

theorem head?_fraction {fraction rest : Text} {behind : Option Text}
    (h : Grammar.Fraction fraction behind)
    (hrest : ∀ c, rest.head? = some c → ¬ c.IsDigit) :
    ∀ c, (fraction ++ rest).head? = some c → ¬ c.IsDigit := by
  intro c hc
  cases h with
  | none => exact hrest c hc
  | point hdigits =>
    cases hc
    decide

/-- **A literal is read as its parts.** -/
theorem read_literal {t : Text} {n : Number} (h : Literal t n) {rest : Text} (hrest : Ends rest) :
    read (t ++ rest) = some (n, rest) := by
  obtain ⟨hsign, hdigits, hfraction, hexponent⟩ := h
  have hexp := head?_exponent hexponent hrest
  have hfrac := head?_fraction hfraction fun c hc => (hexp c hc).1
  have hend := readExponent_append hexponent fun c hc =>
    ⟨(hrest c hc).1, (hrest c hc).2.2.1, (hrest c hc).2.2.2⟩
  rw [read]
  simp only [List.append_assoc, readMinus_append hsign hdigits, readInteger_append hdigits hfrac,
    readFraction_append hfraction hexp, hend]

/-! ### What is read -/

theorem isDigit_of_mem_digitRun {s : Text} {c : CodePoint} (h : c ∈ (digitRun s).1) :
    c.IsDigit := by
  rw [digitRun] at h
  simpa using List.mem_takeWhile_imp h

theorem digitRun_fst_append_snd (s : Text) : (digitRun s).1 ++ (digitRun s).2 = s :=
  List.takeWhile_append_dropWhile

theorem minus_readMinus (s : Text) :
    ∃ sign, s = sign ++ (readMinus s).2 ∧ Grammar.Minus sign (readMinus s).1 := by
  cases s with
  | nil => exact ⟨[], rfl, .none⟩
  | cons c rest =>
    rw [readMinus]
    split
    · next hc => exact ⟨['-'], by rw [hc]; rfl, .minus⟩
    · exact ⟨[], rfl, .none⟩

theorem whole_of_readInteger {s digits after : Text} (h : readInteger s = some (digits, after)) :
    s = digits ++ after ∧ Grammar.Whole digits := by
  cases s with
  | nil => cases h
  | cons c rest =>
    rw [readInteger] at h
    split at h
    · next hc =>
      cases h
      exact ⟨rfl, hc ▸ .zero⟩
    · next hzero =>
      split at h
      · next hc =>
        cases h
        exact ⟨by rw [List.cons_append, digitRun_fst_append_snd],
          .digits hc hzero fun _ => isDigit_of_mem_digitRun⟩
      · cases h

theorem fraction_readFraction (s : Text) :
    ∃ t, s = t ++ (readFraction s).2 ∧ Grammar.Fraction t (readFraction s).1 := by
  cases s with
  | nil => exact ⟨[], rfl, .none⟩
  | cons c rest =>
    rw [readFraction]
    split
    · next hc =>
      refine ⟨c :: (digitRun rest).1, by rw [List.cons_append, digitRun_fst_append_snd], ?_⟩
      rw [hc.1]
      exact .point ⟨hc.2, fun _ => isDigit_of_mem_digitRun⟩
    · exact ⟨[], rfl, .none⟩

theorem sign_readSign (s : Text) :
    ∃ sign, s = sign ++ (readSign s).2 ∧ Grammar.Sign sign (readSign s).1 := by
  cases s with
  | nil => exact ⟨[], rfl, .none⟩
  | cons c rest =>
    rw [readSign]
    split
    · next hc => exact ⟨['-'], by rw [hc]; rfl, .minus⟩
    · split
      · next hc => exact ⟨['+'], by rw [hc]; rfl, .plus⟩
      · exact ⟨[], rfl, .none⟩

theorem exponent_readExponent (s : Text) :
    ∃ t, s = t ++ (readExponent s).2 ∧ Grammar.Exponent t (readExponent s).1 := by
  cases s with
  | nil => exact ⟨[], rfl, .none⟩
  | cons c rest =>
    simp only [readExponent]
    split
    · next hc =>
      obtain ⟨sign, hrest, hsign⟩ := sign_readSign rest
      refine ⟨c :: (sign ++ (digitRun (readSign rest).2).1), ?_,
        .letter hc.1 hsign ⟨hc.2, fun _ => isDigit_of_mem_digitRun⟩⟩
      rw [List.cons_append, List.append_assoc, digitRun_fst_append_snd, ← hrest]
    · exact ⟨[], rfl, .none⟩

/-- **What is read is a literal**, with the rest of the text behind it. -/
theorem literal_of_read {s rest : Text} {n : Number} (h : read s = some (n, rest)) :
    ∃ t, s = t ++ rest ∧ Literal t n := by
  obtain ⟨sign, hs, hsign⟩ := minus_readMinus s
  rw [read] at h
  cases hinteger : readInteger (readMinus s).2 with
  | none => simp [hinteger] at h
  | some r =>
    obtain ⟨integer, behind⟩ := r
    simp only [hinteger, Option.some.injEq, Prod.mk.injEq] at h
    obtain ⟨rfl, rfl⟩ := h
    obtain ⟨hdigits, hwhole⟩ := whole_of_readInteger hinteger
    obtain ⟨fraction, hbehind, hfraction⟩ := fraction_readFraction behind
    obtain ⟨exponent, hend, hexponent⟩ := exponent_readExponent (readFraction behind).2
    refine ⟨sign ++ (integer ++ (fraction ++ exponent)), ?_,
      .parts (n := ⟨_, integer, _, _⟩) hsign hwhole hfraction hexponent⟩
    rw [List.append_assoc, List.append_assoc, List.append_assoc, ← hend, ← hbehind, ← hdigits, ← hs]

/-! ### Integers -/

/-- The literal of an integer. -/
def ofInt (n : Int) : Number := ⟨decide (n < 0), Numeral.ofNat n.natAbs, none, none⟩

theorem areDigits_ofNat (n : Nat) : AreDigits (Numeral.ofNat n) :=
  ⟨Numeral.ofNat_ne_nil n, fun _ => Numeral.isDigit_of_mem_ofNat⟩

/-- A number starts with a zero only if it is zero. -/
theorem ofNat_of_head? {n : Nat} (h : (Numeral.ofNat n).head? = some (CodePoint.digit 0)) :
    n = 0 :=
  Classical.byContradiction fun hn => Numeral.head?_ofNat hn h

theorem valid_ofInt (n : Int) : (ofInt n).Valid where
  integer := areDigits_ofNat _
  leading h := by
    change Numeral.ofNat n.natAbs = _
    rw [ofNat_of_head? h]
    exact Numeral.ofNat_of_lt (by decide)
  fraction digits h := by cases h
  exponent negative digits h := by cases h

theorem text_ofInt (n : Int) : (ofInt n).text = Numeral.ofInt n := by
  rw [Numeral.ofInt, text, ofInt, fractionText, exponentText, List.append_nil, List.append_nil,
    minusText]
  by_cases h : n < 0 <;> simp [h]

/-- A printed integer is a literal. -/
theorem literal_ofInt (n : Int) : Literal (Numeral.ofInt n) (ofInt n) := by
  rw [← text_ofInt]
  exact literal_text (valid_ofInt n)

/-! ### Decimals -/

/-- The digits of a power of ten, two at least. -/
def exponentDigits (e : Int) : Text :=
  Numeral.zeros (2 - (Numeral.ofNat e.natAbs).length) ++ Numeral.ofNat e.natAbs

/-- The power of ten that the first digit of a decimal stands for. -/
def leadingPower (d : Double.Decimal) : Int :=
  d.scale + ((Numeral.ofNat d.digits).length : Int) - 1

/-- The literal of a decimal. -/
def ofDecimal (negative : Bool) (d : Double.Decimal) : Number :=
  let digits := Numeral.ofNat d.digits
  let e := leadingPower d
  if Double.plainFrom ≤ e ∧ e < Double.plainUntil then
    if 0 ≤ d.scale then
      ⟨negative, digits ++ Numeral.zeros d.scale.toNat, some (Numeral.zeros 1), none⟩
    else if 0 ≤ e then
      ⟨negative, digits.take (e.toNat + 1), some (digits.drop (e.toNat + 1)), none⟩
    else ⟨negative, Numeral.zeros 1, some (Numeral.zeros (-e - 1).toNat ++ digits), none⟩
  else if digits.length = 1 then ⟨negative, digits, none, some (decide (e < 0), exponentDigits e)⟩
  else ⟨negative, digits.take 1, some (digits.drop 1), some (decide (e < 0), exponentDigits e)⟩

theorem exponentText_exponentDigits (e : Int) :
    exponentText (some (decide (e < 0), exponentDigits e)) = Double.printExponent e := by
  rw [Double.printExponent, exponentText, exponentDigits, Numeral.zeros]
  by_cases h : e < 0 <;> simp [h]

/-- A decimal is printed as its literal. -/
theorem text_ofDecimal (negative : Bool) (d : Double.Decimal) :
    (ofDecimal negative d).text = Double.printSign negative ++ d.print := by
  simp only [ofDecimal, Double.Decimal.print, ← leadingPower.eq_1]
  by_cases hplain : Double.plainFrom ≤ leadingPower d ∧ leadingPower d < Double.plainUntil
  · simp only [if_pos hplain]
    by_cases hscale : 0 ≤ d.scale
    · simp only [if_pos hscale]
      simp [text, minusText, Double.printSign, fractionText, exponentText, Numeral.zeros]
    · simp only [if_neg hscale]
      by_cases he : 0 ≤ leadingPower d
      · simp only [if_pos he]
        simp [text, minusText, Double.printSign, fractionText, exponentText]
      · simp only [if_neg he]
        simp [text, minusText, Double.printSign, fractionText, exponentText, Numeral.zeros]
  · simp only [if_neg hplain]
    by_cases hlen : (Numeral.ofNat d.digits).length = 1
    · simp only [if_pos hlen, text, exponentText_exponentDigits]
      simp [minusText, Double.printSign, fractionText]
    · simp only [if_neg hlen, text, exponentText_exponentDigits]
      simp [minusText, Double.printSign, fractionText]

theorem AreDigits.of_subset {digits part : Text} (h : AreDigits digits) (hne : part ≠ [])
    (hsub : part ⊆ digits) : AreDigits part :=
  ⟨hne, fun c hc => h.2 c (hsub hc)⟩

theorem AreDigits.take {digits : Text} (h : AreDigits digits) (n : Nat) :
    AreDigits (digits.take (n + 1)) := by
  refine h.of_subset ?_ (List.take_subset _ _)
  rw [ne_eq, List.take_eq_nil_iff, not_or]
  exact ⟨Nat.succ_ne_zero n, h.1⟩

theorem AreDigits.drop {digits : Text} (h : AreDigits digits) {n : Nat} (hn : n < digits.length) :
    AreDigits (digits.drop n) := by
  refine h.of_subset ?_ (List.drop_subset _ _)
  rw [ne_eq, List.drop_eq_nil_iff]
  omega

theorem areDigits_zeros_append {digits : Text} (h : AreDigits digits) (n : Nat) :
    AreDigits (Numeral.zeros n ++ digits) := by
  refine ⟨List.append_ne_nil_of_right_ne_nil _ h.1, ?_⟩
  intro c hc
  rcases List.mem_append.1 hc with hc | hc
  · exact Numeral.isDigit_of_mem_zeros hc
  · exact h.2 c hc

theorem areDigits_append_zeros {digits : Text} (h : AreDigits digits) (n : Nat) :
    AreDigits (digits ++ Numeral.zeros n) := by
  refine ⟨List.append_ne_nil_of_left_ne_nil h.1 _, ?_⟩
  intro c hc
  rcases List.mem_append.1 hc with hc | hc
  · exact h.2 c hc
  · exact Numeral.isDigit_of_mem_zeros hc

theorem areDigits_zeros_one : AreDigits (Numeral.zeros 1) :=
  ⟨List.cons_ne_nil _ _, fun _ => Numeral.isDigit_of_mem_zeros⟩

theorem areDigits_exponentDigits (e : Int) : AreDigits (exponentDigits e) :=
  areDigits_zeros_append (areDigits_ofNat _) _

theorem length_ofNat_pos (n : Nat) : 0 < (Numeral.ofNat n).length :=
  List.length_pos_iff.2 (Numeral.ofNat_ne_nil n)

/-- A decimal has a literal that can be written, where zero is to be given by the digit zero
alone. -/
theorem valid_ofDecimal (negative : Bool) {d : Double.Decimal} (hd : d.digits = 0 → d.scale = 0) :
    (ofDecimal negative d).Valid := by
  have hdigits := areDigits_ofNat d.digits
  have hpos := length_ofNat_pos d.digits
  obtain ⟨c, tl, hcons⟩ := List.exists_cons_of_ne_nil hdigits.1
  -- a literal that starts with a zero is the one of the number zero
  have hzero : c = CodePoint.digit 0 → d.digits = 0 := fun h =>
    ofNat_of_head? (by rw [hcons, List.head?_cons, h])
  have hzero' : d.digits = 0 → tl = [] := fun h => by
    rw [h, Numeral.ofNat_of_lt (by decide), List.cons.injEq] at hcons
    exact hcons.2.symm
  simp only [ofDecimal]
  split
  · split
    · next hscale =>
      refine ⟨areDigits_append_zeros hdigits _, fun h => ?_, fun digits h => ?_, fun _ _ h => ?_⟩
      · simp only [hcons, List.cons_append, List.head?_cons, Option.some.injEq] at h ⊢
        rw [h, hzero' (hzero h), hd (hzero h)]
        rfl
      · cases h
        exact areDigits_zeros_one
      · cases h
    · next hscale =>
      have htl : c ≠ CodePoint.digit 0 := fun h => hscale (hd (hzero h)).ge
      split
      · next he =>
        rw [leadingPower] at he ⊢
        refine ⟨hdigits.take _, fun h => ?_, fun digits h => ?_, fun _ _ h => ?_⟩
        · simp only [hcons, List.take_succ_cons, List.head?_cons, Option.some.injEq] at h
          exact absurd h htl
        · cases h
          exact hdigits.drop (by omega)
        · cases h
      · refine ⟨areDigits_zeros_one, fun _ => rfl, fun digits h => ?_, fun _ _ h => ?_⟩
        · cases h
          exact areDigits_zeros_append hdigits _
        · cases h
  · split
    · next hlen =>
      refine ⟨hdigits, fun h => ?_, fun digits h => ?_, fun _ _ h => ?_⟩
      · rw [hcons, List.length_cons] at hlen
        simp only [hcons, List.head?_cons, Option.some.injEq] at h ⊢
        rw [h, List.eq_nil_of_length_eq_zero (by omega : tl.length = 0)]
      · cases h
      · cases h
        exact areDigits_exponentDigits _
    · next hlen =>
      refine ⟨hdigits.take 0, fun h => ?_, fun digits h => ?_, fun _ _ h => ?_⟩
      · simp only [hcons, List.take_succ_cons, List.head?_cons, Option.some.injEq] at h ⊢
        rw [h]
        rfl
      · cases h
        exact hdigits.drop (by omega)
      · cases h
        exact areDigits_exponentDigits _

/-- The literal of a decimal is no integer. -/
theorem isInteger_ofDecimal (negative : Bool) (d : Double.Decimal) :
    (ofDecimal negative d).isInteger = false := by
  simp only [ofDecimal]
  split
  · split
    · rfl
    · split <;> rfl
  · split <;> rfl

theorem negative_ofDecimal (negative : Bool) (d : Double.Decimal) :
    (ofDecimal negative d).negative = negative := by
  simp only [ofDecimal]
  split
  · split
    · rfl
    · split <;> rfl
  · split <;> rfl

/-! ### Values -/

/-- The digits of a literal, without the point. -/
def digits (n : Number) : Text := n.integer ++ n.fraction.getD []

/-- The power of ten of the last digit of a literal. -/
def scale (n : Number) : Int := n.exponentValue - (n.fraction.getD []).length

theorem toDouble_eq (n : Number) :
    n.toDouble = Double.ofDecimal n.negative (Numeral.toNat n.digits) n.scale := rfl

theorem exponentValue_exponentDigits (negative : Bool) (integer : Text) (fraction : Option Text)
    (e : Int) :
    (⟨negative, integer, fraction, some (decide (e < 0), exponentDigits e)⟩ :
      Number).exponentValue = e := by
  by_cases h : e < 0
  · simp only [exponentValue, h, decide_true, exponentDigits, Numeral.toNat_zeros_append,
      Numeral.toNat_ofNat]
    omega
  · simp only [exponentValue, h, decide_false, exponentDigits, Numeral.toNat_zeros_append,
      Numeral.toNat_ofNat]
    omega

/-- The literal of a decimal has the value of the decimal. -/
theorem value_ofDecimal (negative : Bool) (d : Double.Decimal) :
    (Numeral.toNat (ofDecimal negative d).digits * 10 ^ (ofDecimal negative d).scale : ℚ) =
      d.value := by
  have hpos := length_ofNat_pos d.digits
  have hten : (10 : ℚ) ≠ 0 := by norm_num
  have hvalue := Double.Decimal.value.eq_1 d
  simp only [ofDecimal]
  split
  · split
    · next hscale =>
      -- all digits of the fraction are zeros, as are those that fill the scale
      obtain ⟨k, hk⟩ := Int.eq_ofNat_of_zero_le hscale
      simp only [digits, scale, exponentValue, Option.getD_some, Numeral.length_zeros,
        Numeral.toNat_append_zeros, Numeral.toNat_ofNat]
      rw [hvalue, hk]
      push_cast
      rw [mul_assoc, mul_assoc, Int.toNat_natCast, zpow_natCast, zpow_neg_one,
        mul_inv_cancel₀ hten, mul_one]
    · next hscale =>
      split
      · next he =>
        rw [leadingPower] at he ⊢
        simp only [digits, scale, exponentValue, Option.getD_some, List.take_append_drop,
          Numeral.toNat_ofNat, List.length_drop]
        rw [hvalue]
        congr 2
        omega
      · next he =>
        rw [leadingPower] at he ⊢
        simp only [digits, scale, exponentValue, Option.getD_some, Numeral.toNat_zeros_append,
          Numeral.toNat_ofNat, List.length_append, Numeral.length_zeros]
        rw [hvalue]
        congr 2
        omega
  · split
    · next hlen =>
      simp only [digits, scale, exponentValue_exponentDigits, Option.getD_none, List.append_nil,
        Numeral.toNat_ofNat, List.length_nil]
      rw [hvalue, leadingPower, hlen]
      congr 2
      omega
    · simp only [digits, scale, exponentValue_exponentDigits, Option.getD_some,
        List.take_append_drop, Numeral.toNat_ofNat, List.length_drop]
      rw [hvalue, leadingPower]
      congr 2
      omega

/-- The digits of zero have no scale. -/
theorem scale_shortest_of_digits {x : Double.Finite} (h : x.shortest.digits = 0) :
    x.shortest.scale = 0 := by
  rcases Nat.eq_zero_or_pos x.significand with h0 | hpos
  · rw [Double.Finite.shortest, if_pos h0]
  · have := x.covers_value_shortest.pos hpos
    rw [Double.Decimal.value, h] at this
    simp at this

/-- **A printed finite double is a literal of the double**, and of no integer. -/
theorem exists_literal_finite (x : Double.Finite) :
    ∃ n : Number, Literal (Double.finite x).print n ∧ n.isInteger = false ∧
      n.toDouble = .finite x := by
  have hvalid := valid_ofDecimal x.negative (d := x.shortest) scale_shortest_of_digits
  refine ⟨ofDecimal x.negative x.shortest, ?_, isInteger_ofDecimal _ _, ?_⟩
  · rw [Double.print, ← text_ofDecimal]
    exact literal_text hvalid
  · rw [toDouble_eq, negative_ofDecimal]
    exact Double.Finite.ofDecimal_of_value_shortest (value_ofDecimal _ _)

end Number

end Json

end JsonShelf
