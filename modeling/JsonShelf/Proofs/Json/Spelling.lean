import JsonShelf.Json.Lexeme
import JsonShelf.Proofs.Json.Number
import JsonShelf.Proofs.Json.Quoted

/-!
# Tokens as they are written

Every token that has a meaning is written in a way that the grammar knows, and scanning goes both
ways: what is scanned stood in the text as it is written, and what is written so is scanned. Only
number literals depend on what follows them. The tokens that complain have no spelling.

## Main definitions

* `Token.Spells` — tokens, as they are written
* `Token.Refused` — tokens that complain

## Main results

* `Token.spells_scan` — what is scanned is written so
* `Token.exists_str_of_badString` — no fault in a string is told too late
* `Token.scan_word`, `Token.scan_string`, `Token.scan_number` — what is written so is scanned
* `Token.Spells.denotes_literal`, `Token.Spells.denotes_integer`, `Token.Spells.str` — what tokens
  mean in the grammar
-/

namespace JsonShelf

namespace Json

namespace Token

/-- The tokens that have a meaning, as they are written. -/
inductive Spells : Token → Text → Prop
  | openArray : Spells .openArray ['[']
  | closeArray : Spells .closeArray [']']
  | openObject : Spells .openObject ['{']
  | closeObject : Spells .closeObject ['}']
  | comma : Spells .comma [',']
  | colon : Spells .colon [':']
  | word {t : Text} {v : Json} (h : Grammar.Word t v) : Spells (.literal v) t
  | integer {t : Text} {n : Number} (h : Number.Literal t n) (hn : n.isInteger = true) :
    Spells (.integer n.negative n.integer) t
  | double {t : Text} {n : Number} (h : Number.Literal t n) (hn : n.isInteger = false) :
    Spells (.literal (.double n.toDouble)) t
  | string {t s : Text} (h : Grammar.Str t s) : Spells (.string s) t

/-- The tokens that complain. -/
inductive Refused : Token → Prop
  | badString (fault : Fault) : Refused (.badString fault)
  | unknown : Refused .unknown

/-! ### What is scanned -/

theorem spells_of_lookup {c : CodePoint} {token : Token} (h : punctuation.lookup c = some token) :
    token.Spells [c] := by
  obtain ⟨l₁, l₂, hl, -⟩ := List.lookup_eq_some_iff.1 h
  have hmem : (c, token) ∈ punctuation := by rw [hl]; simp
  simp only [punctuation, List.mem_cons, List.not_mem_nil, or_false, Prod.mk.injEq] at hmem
  rcases hmem with ⟨rfl, rfl⟩ | ⟨rfl, rfl⟩ | ⟨rfl, rfl⟩ | ⟨rfl, rfl⟩ | ⟨rfl, rfl⟩ | ⟨rfl, rfl⟩
  · exact .openArray
  · exact .closeArray
  · exact .openObject
  · exact .closeObject
  · exact .comma
  · exact .colon

theorem spells_ofNumber {t : Text} {n : Number} (h : Number.Literal t n) :
    (ofNumber n).Spells t := by
  rw [ofNumber]
  split
  · next hn => exact .integer h hn
  · next hn => exact .double h (Bool.eq_false_iff.2 hn)

theorem word_of_readKeyword {s after : Text} {v : Json} (h : readKeyword s = some (v, after)) :
    ∃ t, s = t ++ after ∧ Grammar.Word t v := by
  obtain ⟨entry, hfind, heq⟩ := Option.map_eq_some_iff.1 h
  have hmem := List.mem_of_find?_eq_some hfind
  have hprefix : Text.ofString entry.1 <+: s := by simpa using List.find?_some hfind
  obtain ⟨tail, rfl⟩ := hprefix
  cases heq
  refine ⟨Text.ofString entry.1, by rw [List.drop_left], ?_⟩
  simp only [keywords, List.mem_cons, List.not_mem_nil, or_false] at hmem
  rcases hmem with rfl | rfl | rfl | rfl | rfl | rfl
  · exact .null
  · exact .true
  · exact .false
  · exact .nan
  · exact .infinity
  · exact .minusInfinity

/-- **What is scanned is written so**, unless it complains, and then nothing is left to be cut. -/
theorem spells_scan (c : CodePoint) (rest : Text) :
    (∃ t, c :: rest = t ++ (scan c rest).2 ∧ (scan c rest).1.Spells t) ∨
      (scan c rest).1.Refused ∧ (scan c rest).2 = [] := by
  rw [scan]
  split
  · next token h => exact .inl ⟨[c], rfl, spells_of_lookup h⟩
  · split
    · next hquote =>
      split
      · next s after h =>
        obtain ⟨body, rfl, hbody⟩ := Quoted.read_eq_ok_iff.1 h
        refine .inl ⟨c :: (body ++ [Quoted.quote]), by simp, ?_⟩
        rw [hquote]
        exact .string (.quoted hbody)
      · exact .inr ⟨.badString _, rfl⟩
    · split
      · next v after h =>
        obtain ⟨t, ht, hword⟩ := word_of_readKeyword h
        exact .inl ⟨t, ht, .word hword⟩
      · split
        · next n after h =>
          obtain ⟨t, ht, hliteral⟩ := Number.literal_of_read h
          exact .inl ⟨t, ht, spells_ofNumber hliteral⟩
        · exact .inr ⟨.unknown, rfl⟩

/-- A string that cannot be read has its fault at the opening quote, or where what was read of it so
far can still be completed. -/
theorem exists_str_of_badString {c : CodePoint} {rest : Text} {fault : Fault}
    (h : (scan c rest).1 = .badString fault) :
    fault.rest = c :: rest ∨
      ∃ t behind s, c :: rest = t ++ fault.rest ∧ Grammar.Str (t ++ behind) s := by
  rw [scan] at h
  split at h
  · next token hlookup =>
    cases h
    cases spells_of_lookup hlookup
  · split at h
    · next hquote =>
      split at h
      · cases h
      · next hread =>
        cases h
        refine (Quoted.exists_body_of_read_eq_error hread).imp_right ?_
        rintro ⟨body, behind, s, hbody, hs⟩
        refine ⟨c :: body, behind ++ [Quoted.quote], s, by rw [hbody]; rfl, ?_⟩
        rw [hquote, List.cons_append, ← List.append_assoc]
        exact .quoted hs
    · split at h
      · cases h
      · split at h
        · rw [ofNumber] at h
          split at h <;> cases h
        · cases h

/-! ### What is written -/

/-- A word is scanned as its value, whatever follows it. -/
theorem scan_word {t : Text} {v : Json} (h : Grammar.Word t v) :
    ∃ c tl, t = c :: tl ∧ ¬ IsBlank c ∧ ∀ rest, scan c (tl ++ rest) = (literal v, rest) := by
  cases h <;> exact ⟨_, _, rfl, by decide, fun rest => rfl⟩

/-- A string is scanned as the text that it stands for, whatever follows it. -/
theorem scan_string {t s : Text} (h : Grammar.Body t s) (rest : Text) :
    scan Quoted.quote (t ++ Quoted.quote :: rest) = (string s, rest) := by
  have hlookup : punctuation.lookup Quoted.quote = none := rfl
  have hread : Quoted.read (Quoted.quote :: (t ++ Quoted.quote :: rest)) (t ++ Quoted.quote :: rest)
      = .ok (s, rest) := Quoted.read_eq_ok_iff.2 ⟨t, rfl, h⟩
  rw [scan, hlookup]
  simp only [if_pos, hread]

/-- No word starts like a number. -/
theorem not_isPrefixOf_of_digit : ∀ entry ∈ keywords, ∀ c : CodePoint, c.IsDigit → ∀ rest,
    (Text.ofString entry.1).isPrefixOf (c :: rest) = false ∧
      (Text.ofString entry.1).isPrefixOf (('-' : CodePoint) :: c :: rest) = false := by
  intro entry h c hc rest
  have hne : ∀ d : CodePoint, ¬ d.IsDigit → (d == c) = false := by
    intro d hd
    exact beq_eq_false_iff_ne.2 fun e => hd (e ▸ hc)
  simp only [keywords, List.mem_cons, List.not_mem_nil, or_false] at h
  rcases h with rfl | rfl | rfl | rfl | rfl | rfl <;>
    simp [Text.ofString, List.isPrefixOf, hne, CodePoint.IsDigit]

theorem readKeyword_eq_none {c : CodePoint} (hc : c.IsDigit) (rest : Text) :
    readKeyword (c :: rest) = none ∧ readKeyword (('-' : CodePoint) :: c :: rest) = none := by
  constructor
  · rw [readKeyword, Option.map_eq_none_iff, List.find?_eq_none]
    intro entry h
    rw [(not_isPrefixOf_of_digit entry h c hc rest).1]
    exact Bool.false_ne_true
  · rw [readKeyword, Option.map_eq_none_iff, List.find?_eq_none]
    intro entry h
    rw [(not_isPrefixOf_of_digit entry h c hc rest).2]
    exact Bool.false_ne_true

theorem lookup_punctuation_of_digit {c : CodePoint} (hc : c.IsDigit) :
    punctuation.lookup c = none := by
  have hvalues : ∀ entry ∈ punctuation, ¬ entry.1.IsDigit := by decide
  rw [List.lookup_eq_none_iff]
  intro entry h
  have hne : c ≠ entry.1 := fun e => hvalues entry h (by rwa [← e])
  simpa using hne

/-- A number literal is scanned as a whole, if nothing follows that goes on with it. -/
theorem scan_number {t : Text} {n : Number} (h : Number.Literal t n) {rest : Text}
    (hrest : Number.Ends rest) :
    ∃ c tl, t ++ rest = c :: tl ∧ ¬ IsBlank c ∧ scan c tl = (ofNumber n, rest) := by
  have hread := Number.read_literal h hrest
  obtain ⟨negative, integer, fraction, exponent⟩ := n
  obtain ⟨hsign, hdigits, hfraction, hexponent⟩ := h
  obtain ⟨d, digits, rfl, hdigit⟩ := Number.exists_cons_of_whole hdigits
  rw [List.append_assoc, List.cons_append, List.cons_append] at hread ⊢
  cases hsign with
  | minus =>
    have hlookup : punctuation.lookup ('-' : CodePoint) = none := rfl
    have hquote : ('-' : CodePoint) ≠ Quoted.quote := by decide
    rw [List.cons_append, List.nil_append] at hread ⊢
    refine ⟨('-' : CodePoint), _, rfl, by decide, ?_⟩
    rw [scan, hlookup]
    simp only [if_neg hquote, (readKeyword_eq_none hdigit _).2, hread]
  | none =>
    have hblank : ¬ IsBlank d := by
      have := hdigit.1
      rintro (h | h | h | h) <;> omega
    have hquote : d ≠ Quoted.quote := by
      rintro rfl
      exact absurd hdigit (by decide)
    rw [List.nil_append] at hread ⊢
    refine ⟨d, _, rfl, hblank, ?_⟩
    rw [scan, lookup_punctuation_of_digit hdigit]
    simp only [if_neg hquote, (readKeyword_eq_none hdigit _).1, hread]

/-! ### What tokens mean in the grammar -/

theorem power_eq (n : Number) : Grammar.power n.exponent = n.exponentValue := by
  rw [Number.exponentValue]
  rcases n.exponent with _ | ⟨_ | _, digits⟩ <;> rfl

theorem denotes_of_isInteger {t : Text} {n : Number} (h : Number.Literal t n)
    (hn : n.isInteger = true) :
    Grammar.Denotes t (.int (Grammar.signed n.negative (Numeral.toNat n.integer))) [n.integer] := by
  obtain ⟨negative, integer, fraction, exponent⟩ := n
  obtain ⟨hsign, hdigits, hfraction, hexponent⟩ := h
  rw [Number.isInteger, Bool.and_eq_true, Option.isNone_iff_eq_none,
    Option.isNone_iff_eq_none] at hn
  obtain ⟨rfl, rfl⟩ := hn
  cases hfraction
  cases hexponent
  rw [List.append_nil, List.append_nil]
  exact .integer hsign hdigits

theorem denotes_of_not_isInteger {t : Text} {n : Number} (h : Number.Literal t n)
    (hn : n.isInteger = false) : Grammar.Denotes t (.double n.toDouble) [] := by
  obtain ⟨hsign, hdigits, hfraction, hexponent⟩ := h
  rw [Number.toDouble, ← power_eq]
  exact .double hsign hdigits hfraction hexponent (Number.isInteger_eq_false_iff.1 hn)

namespace Spells

variable {t : Text}

/-- A word or a double denotes its value. -/
theorem denotes_literal {v : Json} (h : Spells (.literal v) t) : Grammar.Denotes t v [] := by
  cases h with
  | word h => exact .word h
  | double h hn => exact denotes_of_not_isInteger h hn

/-- An integer denotes its number. -/
theorem denotes_integer {negative : Bool} {digits : Text}
    (h : Spells (.integer negative digits) t) :
    Grammar.Denotes t (.int (Grammar.signed negative (Numeral.toNat digits))) [digits] := by
  cases h with
  | integer h hn => exact denotes_of_isInteger h hn

/-- A string stands for its text. -/
theorem str {s : Text} (h : Spells (Token.string s) t) : Grammar.Str t s := by
  cases h with
  | string h => exact h

end Spells

end Token

end Json

end JsonShelf
