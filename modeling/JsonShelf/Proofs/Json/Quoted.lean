import JsonShelf.Json.Quoted
import JsonShelf.Proofs.Except
import JsonShelf.Proofs.Json.Grammar
import JsonShelf.Proofs.Text.Numeral

/-!
# Quoted strings, written and read

The reader takes the text between the quotes unit by unit, and joins the escaped halves of pairs in
a second step. The grammar has a rule for pairs instead. Both come to the same, because a unit that
is an escaped low surrogate is written as such an escape, and only so: what the reader sees in the
next unit, the grammar sees in the text.

A text that is printed between quotes is read back as it is, whatever code points it has. Each of
them is printed as one unit: a short escape, a numbered escape for a control character without a
short one, or itself. Numbered escapes are no surrogates then, so nothing is joined when the units
are put together, and a surrogate in the text stays what it is. This is about the printed form that
keeps code points above ASCII. The other one escapes surrogates by their numbers, and two halves of
a pair that stand next to each other would come back as one code point.

## Main definitions

* `Quoted.Spelled` — the units that are written as a text

## Main results

* `Quoted.units_of_spelled`, `Quoted.spelled_of_units` — units are read as they are written
* `Quoted.body_iff` — strings of the grammar are joined units
* `Quoted.read_eq_ok_iff` — what the reader takes for a string
* `Quoted.exists_body_of_read_eq_error` — no fault in a string is told too late
* `Quoted.body_printed` — a printed text denotes itself
-/

namespace JsonShelf

namespace Json

namespace Quoted

/-! ### Hexadecimal digits -/

/-- The hexadecimal digits of the grammar are those of the reader. -/
theorem hexDigit_iff {c : CodePoint} {n : Nat} : Grammar.HexDigit c n ↔ c.hexValue? = some n := by
  rw [CodePoint.hexValue?]
  constructor
  · intro h
    cases h with
    | decimal hn hc =>
      rw [if_pos (by omega), Option.some.injEq]
      omega
    | upper hn hc =>
      rw [if_neg (by omega), if_pos (by omega), Option.some.injEq]
      omega
    | lower hn hc =>
      rw [if_neg (by omega), if_neg (by omega), if_pos (by omega), Option.some.injEq]
      omega
  · intro h
    split at h
    · rw [Option.some.injEq] at h
      exact .decimal (by omega) (by omega)
    · split at h
      · rw [Option.some.injEq] at h
        obtain ⟨m, rfl⟩ := Nat.exists_eq_add_of_le (by omega : 10 ≤ n)
        exact .upper (by omega) (by omega)
      · split at h
        · rw [Option.some.injEq] at h
          obtain ⟨m, rfl⟩ := Nat.exists_eq_add_of_le (by omega : 10 ≤ n)
          exact .lower (by omega) (by omega)
        · cases h

/-- Four of them are read as their number. -/
theorem fourHex_iff {digits : Text} {c : CodePoint} :
    Grammar.FourHex digits c ↔
      digits.length = 4 ∧ ∃ n, Numeral.ofHex? digits = some n ∧ c = .ofNat n := by
  constructor
  · rintro ⟨h₃, h₂, h₁, h₀⟩
    rw [hexDigit_iff] at h₃ h₂ h₁ h₀
    refine ⟨rfl, _, ?_, rfl⟩
    simp [Numeral.ofHex?, h₃, h₂, h₁, h₀]
    omega
  · rintro ⟨hlength, n, hn, rfl⟩
    obtain ⟨d₃, d₂, d₁, d₀, rfl⟩ := List.length_eq_four.1 hlength
    simp only [Numeral.ofHex?, List.foldlM_cons, List.foldlM_nil, Option.bind_eq_bind,
      Option.bind_eq_some_iff, Option.map_eq_some_iff, ← hexDigit_iff] at hn
    obtain ⟨_, ⟨n₃, h₃, rfl⟩, _, ⟨n₂, h₂, rfl⟩, _, ⟨n₁, h₁, rfl⟩, _, ⟨n₀, h₀, rfl⟩, hn⟩ := hn
    cases hn
    have hsum : 16 * (16 * (16 * (16 * 0 + n₃) + n₂) + n₁) + n₀ =
        0x1000 * n₃ + 0x100 * n₂ + 0x10 * n₁ + n₀ := by omega
    rw [hsum]
    exact .digits h₃ h₂ h₁ h₀

/-- The short escapes of the grammar are those of the reader. -/
theorem short_iff {e c : CodePoint} : Grammar.Short e c ↔ shortEscapes.lookup e = some c := by
  constructor
  · intro h
    cases h <;> rfl
  · intro h
    obtain ⟨l₁, l₂, hl, -⟩ := List.lookup_eq_some_iff.1 h
    have hmem : (e, c) ∈ shortEscapes := by rw [hl]; simp
    simp only [shortEscapes, List.mem_cons, List.not_mem_nil, or_false, Prod.mk.injEq] at hmem
    rcases hmem with ⟨rfl, rfl⟩ | ⟨rfl, rfl⟩ | ⟨rfl, rfl⟩ | ⟨rfl, rfl⟩ | ⟨rfl, rfl⟩ | ⟨rfl, rfl⟩ |
      ⟨rfl, rfl⟩ | ⟨rfl, rfl⟩
    · exact .quote
    · exact .backslash
    · exact .slash
    · exact .backspace
    · exact .formFeed
    · exact .lineFeed
    · exact .carriageReturn
    · exact .tab

/-! ### Units -/

/-- What is between the quotes of a string, and the units that it is written as. -/
inductive Spelled : Text → List StringUnit → Prop
  | nil : Spelled [] []
  | character {c : CodePoint} (hquote : c ≠ quote) (hbackslash : c ≠ backslash)
    (hcontrol : ¬ IsControl c) {t : Text} {us : List StringUnit} (h : Spelled t us) :
    Spelled (c :: t) (.plain c :: us)
  | short {e c : CodePoint} (he : Grammar.Short e c) {t : Text} {us : List StringUnit}
    (h : Spelled t us) : Spelled (backslash :: e :: t) (.plain c :: us)
  | numbered {digits : Text} {c : CodePoint} (hc : Grammar.FourHex digits c) {t : Text}
    {us : List StringUnit} (h : Spelled t us) :
    Spelled (Grammar.numberedEscape digits ++ t) (.escaped c :: us)

theorem backslash_ne_quote : backslash ≠ quote := by decide

theorem units_character {c : CodePoint} (hquote : c ≠ quote) (hbackslash : c ≠ backslash)
    (hcontrol : ¬ IsControl c) (start tail : Text) :
    units start (c :: tail) = (units start tail).map fun r => (.plain c :: r.1, r.2) := by
  rw [units.eq_def]
  simp only [if_neg hquote, if_neg hbackslash, if_neg hcontrol]

theorem units_short {e c : CodePoint} (h : Grammar.Short e c) (start tail : Text) :
    units start (backslash :: e :: tail) =
      (units start tail).map fun r => (.plain c :: r.1, r.2) := by
  have hne : e ≠ numbered := by cases h <;> decide
  rw [units.eq_def]
  simp only [if_neg backslash_ne_quote, if_pos, if_neg hne, short_iff.1 h]

theorem units_numbered {digits : Text} {c : CodePoint} (h : Grammar.FourHex digits c)
    (start : Text) {tail : Text} (htail : tail ≠ []) :
    units start (Grammar.numberedEscape digits ++ tail) =
      (units start tail).map fun r => (.escaped c :: r.1, r.2) := by
  obtain ⟨next, more, rfl⟩ := List.exists_cons_of_ne_nil htail
  obtain ⟨hlength, n, hn, rfl⟩ := fourHex_iff.1 h
  obtain ⟨d₁, d₂, d₃, d₄, rfl⟩ := List.length_eq_four.1 hlength
  simp only [Grammar.numberedEscape, List.cons_append, List.nil_append]
  rw [units.eq_def]
  simp only [backslash, numbered, quote, hn]
  rfl

/-- **Units are read as they are written**, up to the closing quote. -/
theorem units_of_spelled {t : Text} {us : List StringUnit} (h : Spelled t us) (start rest : Text) :
    units start (t ++ quote :: rest) = .ok (us, rest) := by
  induction h with
  | nil =>
    rw [List.nil_append, units.eq_def]
    simp only [if_pos]
  | character hquote hbackslash hcontrol h ih =>
    rw [List.cons_append, units_character hquote hbackslash hcontrol, ih]
    rfl
  | short he h ih =>
    rw [List.cons_append, List.cons_append, units_short he, ih]
    rfl
  | numbered hc h ih =>
    rw [List.append_assoc, units_numbered hc _
      (List.append_ne_nil_of_right_ne_nil _ (List.cons_ne_nil _ _)), ih]
    rfl

/-- What is read as units is written as them, and a closing quote follows it. -/
theorem spelled_of_units {start t after : Text} {us : List StringUnit}
    (h : units start t = .ok (us, after)) :
    ∃ body, t = body ++ quote :: after ∧ Spelled body us := by
  fun_induction units start t generalizing us after with
  | case2 rest =>
    cases h
    exact ⟨[], rfl, .nil⟩
  | case4 d₁ d₂ d₃ d₄ next more n hn hquote ih =>
    obtain ⟨⟨us, after⟩, hus, hr⟩ := map_eq_ok_iff.1 h
    cases hr
    obtain ⟨body, hbody, hspelled⟩ := ih hus
    refine ⟨Grammar.numberedEscape [d₁, d₂, d₃, d₄] ++ body, ?_,
      .numbered (fourHex_iff.2 ⟨rfl, n, hn, rfl⟩) hspelled⟩
    rw [List.append_assoc, ← hbody]
    rfl
  | case7 e rest hne d hd hquote ih =>
    obtain ⟨⟨us, after⟩, hus, hr⟩ := map_eq_ok_iff.1 h
    cases hr
    obtain ⟨body, hbody, hspelled⟩ := ih hus
    exact ⟨backslash :: e :: body, by rw [hbody]; rfl, .short (short_iff.2 hd) hspelled⟩
  | case10 c rest hquote hbackslash hcontrol ih =>
    obtain ⟨⟨us, after⟩, hus, hr⟩ := map_eq_ok_iff.1 h
    cases hr
    obtain ⟨body, hbody, hspelled⟩ := ih hus
    exact ⟨c :: body, by rw [hbody]; rfl, .character hquote hbackslash hcontrol hspelled⟩
  | _ => cases h

/-- A fault is told at the opening quote, or where what was read so far can still be completed. Of a
numbered escape, the backslash is before the fault, and it can go on as a short one. -/
theorem exists_spelled_of_units_eq_error {start t : Text} {fault : Fault}
    (h : units start t = .error fault) :
    fault.rest = start ∨
      ∃ body behind us, t = body ++ fault.rest ∧ Spelled (body ++ behind) us := by
  have hshort : Spelled [backslash, 'n'] [.plain (.ofNat 0xA)] := .short .lineFeed .nil
  fun_induction units start t with
  | case1 =>
    cases h
    exact .inl rfl
  | case2 => cases h
  | case3 =>
    cases h
    exact .inl rfl
  | case4 d₁ d₂ d₃ d₄ next more n hn hquote ih =>
    refine (ih (map_eq_error_iff.1 h)).imp_right ?_
    rintro ⟨body, behind, us, hbody, hspelled⟩
    refine ⟨Grammar.numberedEscape [d₁, d₂, d₃, d₄] ++ body, behind, _, ?_,
      .numbered (fourHex_iff.2 ⟨rfl, n, hn, rfl⟩) hspelled⟩
    rw [List.append_assoc, ← hbody]
    rfl
  | case5 | case6 =>
    cases h
    exact .inr ⟨[backslash], ['n'], _, rfl, hshort⟩
  | case7 e rest hne d hd hquote ih =>
    refine (ih (map_eq_error_iff.1 h)).imp_right ?_
    rintro ⟨body, behind, us, hbody, hspelled⟩
    exact ⟨backslash :: e :: body, behind, _, by rw [hbody]; rfl, .short (short_iff.2 hd) hspelled⟩
  | case8 | case9 =>
    cases h
    exact .inr ⟨[], [], [], rfl, .nil⟩
  | case10 c rest hquote hbackslash hcontrol ih =>
    refine (ih (map_eq_error_iff.1 h)).imp_right ?_
    rintro ⟨body, behind, us, hbody, hspelled⟩
    exact ⟨c :: body, behind, _, by rw [hbody]; rfl,
      .character hquote hbackslash hcontrol hspelled⟩

/-! ### Pairs -/

theorem fourHex_unique {digits digits' rest rest' : Text} {c c' : CodePoint}
    (h : Grammar.FourHex digits c) (h' : Grammar.FourHex digits' c')
    (heq : digits ++ rest = digits' ++ rest') : c = c' := by
  obtain ⟨hlength, n, hn, rfl⟩ := fourHex_iff.1 h
  obtain ⟨hlength', n', hn', rfl⟩ := fourHex_iff.1 h'
  obtain ⟨rfl, -⟩ := List.append_inj heq (hlength.trans hlength'.symm)
  rw [hn, Option.some.injEq] at hn'
  rw [hn']

/-- The next unit tells whether a text starts with the escape of a low surrogate. -/
theorem startsWithLow_iff {t : Text} {us : List StringUnit} (h : Spelled t us) :
    Grammar.StartsWithLow t ↔ ∃ d rest, us = .escaped d :: rest ∧ d.IsLow := by
  constructor
  · rintro ⟨digits, d, rest, ht, hd, hlow⟩
    cases h with
    | nil => cases ht
    | character hquote hbackslash hcontrol h =>
      cases ht
      exact absurd rfl hbackslash
    | short he h =>
      cases ht
      cases he
    | numbered hc h =>
      rw [Grammar.numberedEscape, Grammar.numberedEscape] at ht
      simp only [List.cons_append, List.cons.injEq, true_and] at ht
      exact ⟨_, _, rfl, fourHex_unique hc hd ht ▸ hlow⟩
  · rintro ⟨d, rest, rfl, hlow⟩
    cases h with
    | numbered hc h => exact ⟨_, d, _, rfl, hc, hlow⟩

/-- An escape that makes no pair with the next unit stands for its own code point. -/
theorem joined_escaped_cons {c : CodePoint} {us : List StringUnit}
    (h : ¬ (c.IsHigh ∧ ∃ d rest, us = .escaped d :: rest ∧ d.IsLow)) :
    joined (.escaped c :: us) = c :: joined us := by
  cases us with
  | nil => simp [joined]
  | cons u us =>
    cases u with
    | plain d => simp [joined]
    | escaped d => rw [joined, if_neg fun hpair => h ⟨hpair.1, d, us, rfl, hpair.2⟩]

theorem exists_spelled {t s : Text} (h : Grammar.Body t s) :
    ∃ us, Spelled t us ∧ joined us = s := by
  induction h with
  | nil => exact ⟨[], .nil, rfl⟩
  | character hquote hbackslash hcontrol h ih =>
    obtain ⟨us, hus, rfl⟩ := ih
    exact ⟨_, .character hquote hbackslash (Nat.not_lt.2 hcontrol) hus, by rw [joined]⟩
  | short he h ih =>
    obtain ⟨us, hus, rfl⟩ := ih
    exact ⟨_, .short he hus, by rw [joined]⟩
  | pair hhigh hlow hpair h ih =>
    obtain ⟨us, hus, rfl⟩ := ih
    exact ⟨_, .numbered hhigh (.numbered hlow hus), by rw [joined, if_pos hpair]⟩
  | numbered hc halone h ih =>
    obtain ⟨us, hus, rfl⟩ := ih
    rw [startsWithLow_iff hus] at halone
    exact ⟨_, .numbered hc hus, joined_escaped_cons halone⟩

theorem body_of_spelled {t : Text} {us : List StringUnit} (h : Spelled t us) :
    Grammar.Body t (joined us) := by
  fun_induction joined us generalizing t with
  | case1 =>
    cases h
    exact .nil
  | case2 c us ih =>
    cases h with
    | character hquote hbackslash hcontrol h =>
      exact .character hquote hbackslash (Nat.not_lt.1 hcontrol) (ih h)
    | short he h => exact .short he (ih h)
  | case3 c d us hpair ih =>
    cases h with
    | numbered hc h =>
      cases h with
      | numbered hd h => exact .pair hc hd hpair (ih h)
  | case4 c d us hpair ih =>
    cases h with
    | numbered hc h =>
      refine .numbered hc ?_ (ih h)
      rw [startsWithLow_iff h]
      rintro ⟨hhigh, _, _, ⟨⟩, hlow⟩
      exact hpair ⟨hhigh, hlow⟩
  | case5 c us hnext ih =>
    cases h with
    | numbered hc h =>
      refine .numbered hc ?_ (ih h)
      rw [startsWithLow_iff h]
      rintro ⟨-, d, rest, rfl, -⟩
      exact hnext d rest rfl

/-- **The strings of the grammar are joined units.** -/
theorem body_iff {t s : Text} : Grammar.Body t s ↔ ∃ us, Spelled t us ∧ joined us = s := by
  constructor
  · exact exists_spelled
  · rintro ⟨us, hus, rfl⟩
    exact body_of_spelled hus

/-- What the reader takes for a string, once the opening quote is there. -/
theorem read_eq_ok_iff {start t s after : Text} :
    read start t = .ok (s, after) ↔ ∃ body, t = body ++ quote :: after ∧ Grammar.Body body s := by
  rw [read, map_eq_ok_iff]
  constructor
  · rintro ⟨⟨us, _⟩, hus, ⟨⟩⟩
    obtain ⟨body, hbody, hspelled⟩ := spelled_of_units hus
    exact ⟨body, hbody, body_iff.2 ⟨us, hspelled, rfl⟩⟩
  · rintro ⟨body, rfl, hbody⟩
    obtain ⟨us, hus, rfl⟩ := body_iff.1 hbody
    exact ⟨(us, after), units_of_spelled hus start after, rfl⟩

/-- **No fault in a string is told too late**: it is told at the opening quote, or what was read so
far can still be completed. -/
theorem exists_body_of_read_eq_error {start t : Text} {fault : Fault}
    (h : read start t = .error fault) :
    fault.rest = start ∨
      ∃ body behind s, t = body ++ fault.rest ∧ Grammar.Body (body ++ behind) s := by
  rw [read, map_eq_error_iff] at h
  refine (exists_spelled_of_units_eq_error h).imp_right ?_
  rintro ⟨body, behind, us, hbody, hspelled⟩
  exact ⟨body, behind, joined us, hbody, body_of_spelled hspelled⟩

/-! ### Printed texts -/

theorem short_of_shortEscape? {c e : CodePoint} (h : shortEscape? c = some e) :
    Grammar.Short e c := by
  obtain ⟨entry, hfind, rfl⟩ := Option.map_eq_some_iff.1 h
  have hmem := List.mem_of_find?_eq_some hfind
  have hc : entry.2 = c ∧ c ≠ ('/' : Char) := by simpa using List.find?_some hfind
  have hlookup : ∀ entry ∈ shortEscapes, shortEscapes.lookup entry.1 = some entry.2 := by decide
  rw [short_iff, ← hc.1]
  exact hlookup entry hmem

theorem ne_of_shortEscape?_eq_none {c : CodePoint} (h : shortEscape? c = none) :
    c ≠ quote ∧ c ≠ backslash := by
  constructor
  · rintro rfl
    exact absurd h (by decide)
  · rintro rfl
    exact absurd h (by decide)

theorem fourHex_hex {c : CodePoint} (h : c.val < 0x10000) :
    Grammar.FourHex (Numeral.hex 4 c.val) c := by
  have hhex := Numeral.ofHex?_hex 4 c.val
  rw [Nat.mod_eq_of_lt (by omega)] at hhex
  exact fourHex_iff.2 ⟨Numeral.length_hex 4 _, c.val, hhex, c.ofNat_val.symm⟩

/-- A printed code point denotes itself, in front of anything. -/
theorem body_printChar (c : CodePoint) {t s : Text} (h : Grammar.Body t s) :
    Grammar.Body (printChar false c ++ t) (c :: s) := by
  rw [printChar]
  cases hshort : shortEscape? c with
  | some e => exact .short (short_of_shortEscape? hshort) h
  | none =>
    by_cases hcontrol : IsControl c
    · have hlt : c.val < 0x20 := hcontrol
      simp only [if_pos hcontrol]
      exact .numbered (fourHex_hex (by omega)) (fun hhigh => by have := hhigh.1.1; omega) h
    · obtain ⟨hquote, hbackslash⟩ := ne_of_shortEscape?_eq_none hshort
      simp only [if_neg hcontrol, Bool.false_eq_true, false_and, if_false]
      exact .character hquote hbackslash (Nat.not_lt.1 hcontrol) h

/-- **A printed text denotes itself.** -/
theorem body_printed (t : Text) : Grammar.Body (t.flatMap (printChar false)) t := by
  induction t with
  | nil => exact .nil
  | cons c t ih =>
    rw [List.flatMap_cons]
    exact body_printChar c ih

end Quoted

end Json

end JsonShelf
