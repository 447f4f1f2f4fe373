import JsonShelf.Proofs.Json.Recognition

/-!
# The characters of JSON texts

White space is the only control there is in a JSON text: within a string other control characters
have to be escaped, and outside of strings there are but letters, digits and punctuation. And a text
begins with one of these, with a quote, or with white space, all of which are ASCII. Both hold of
every text of the grammar, so they hold of every text that is read.

## Main definitions

* `Json.IsAllowed` — the characters that JSON texts are made of

## Main results

* `Grammar.Denotes.isAllowed` — a text of the grammar is made of these
* `Grammar.Denotes.exists_cons` — and begins with one that is ASCII
* `begins_of_read` — the characters at the beginning of a text that is read
-/

namespace JsonShelf

namespace Json

variable {c : CodePoint} {t s : Text} {v : Json} {integers : List Text}

/-- What may stand in a text: white space, and what is no control character. -/
abbrev IsAllowed (c : CodePoint) : Prop := IsBlank c ∨ 0x20 ≤ c.val

theorem val_ne_zero_of_isAllowed (h : IsAllowed c) : c.val ≠ 0 := by
  omega

theorem isAllowed_of_isDigit (h : c.IsDigit) : IsAllowed c := .inr (by have := h.1; omega)

namespace Grammar

/-! ### Parts of texts -/

theorem Blank.isAllowed (h : Blank t) : ∀ c ∈ t, IsAllowed c :=
  fun c hc => .inl (blank_iff.1 h c hc)

theorem Word.isAllowed (h : Word t v) : ∀ c ∈ t, IsAllowed c := by
  cases h <;> decide

theorem Minus.isAllowed {negative : Bool} (h : Minus t negative) : ∀ c ∈ t, IsAllowed c := by
  cases h <;> decide

theorem Whole.isAllowed (h : Whole t) : ∀ c ∈ t, IsAllowed c :=
  fun c hc => isAllowed_of_isDigit ((Number.areDigits_of_whole h).2 c hc)

theorem Digits.isAllowed (h : Digits t) : ∀ c ∈ t, IsAllowed c :=
  fun c hc => isAllowed_of_isDigit (h.2 c hc)

theorem Fraction.isAllowed {behind : Option Text} (h : Fraction t behind) :
    ∀ c ∈ t, IsAllowed c := by
  cases h with
  | none => exact nofun
  | point h => exact List.forall_mem_cons.2 ⟨by decide, h.isAllowed⟩

theorem Exponent.isAllowed {letter : Option (Bool × Text)} (h : Exponent t letter) :
    ∀ c ∈ t, IsAllowed c := by
  cases h with
  | none => exact nofun
  | letter hc hsign hdigits =>
    refine List.forall_mem_cons.2 ⟨?_, List.forall_mem_append.2 ⟨?_, hdigits.isAllowed⟩⟩
    · rcases hc with rfl | rfl <;> decide
    · cases hsign <;> decide

theorem HexDigit.isAllowed {n : Nat} (h : HexDigit c n) : IsAllowed c := by
  cases h <;> omega

theorem FourHex.isAllowed (h : FourHex t c) : ∀ c ∈ t, IsAllowed c := by
  obtain ⟨h₃, h₂, h₁, h₀⟩ := h
  simp only [List.forall_mem_cons]
  exact ⟨h₃.isAllowed, h₂.isAllowed, h₁.isAllowed, h₀.isAllowed, nofun⟩

theorem isAllowed_numberedEscape (h : FourHex t c) : ∀ c ∈ numberedEscape t, IsAllowed c :=
  List.forall_mem_cons.2 ⟨by decide, List.forall_mem_cons.2 ⟨by decide, h.isAllowed⟩⟩

theorem Body.isAllowed (h : Body t s) : ∀ c ∈ t, IsAllowed c := by
  induction h with
  | nil => exact nofun
  | character hquote hbackslash hcontrol h ih => exact List.forall_mem_cons.2 ⟨.inr hcontrol, ih⟩
  | short he h ih =>
    refine List.forall_mem_cons.2 ⟨by decide, List.forall_mem_cons.2 ⟨?_, ih⟩⟩
    cases he <;> decide
  | pair hhigh hlow hpair h ih =>
    exact List.forall_mem_append.2 ⟨isAllowed_numberedEscape hhigh,
      List.forall_mem_append.2 ⟨isAllowed_numberedEscape hlow, ih⟩⟩
  | numbered hc halone h ih => exact List.forall_mem_append.2 ⟨isAllowed_numberedEscape hc, ih⟩

theorem Str.isAllowed (h : Str t s) : ∀ c ∈ t, IsAllowed c := by
  obtain ⟨h⟩ := h
  exact List.forall_mem_cons.2
    ⟨by decide, List.forall_mem_append.2 ⟨h.isAllowed, List.forall_mem_singleton.2 (by decide)⟩⟩

theorem Name.isAllowed (h : Name t s) : ∀ c ∈ t, IsAllowed c := by
  obtain ⟨hbefore, h, hafter⟩ := h
  exact List.forall_mem_append.2
    ⟨hbefore.isAllowed, List.forall_mem_append.2 ⟨h.isAllowed, hafter.isAllowed⟩⟩

theorem isAllowed_itemsText {items : List Item} (h : ∀ i ∈ items, ∀ c ∈ i.text, IsAllowed c) :
    ∀ c ∈ itemsText items, IsAllowed c := by
  intro c hc
  obtain ⟨i, hi, hc⟩ := List.mem_flatMap.1 hc
  exact List.forall_mem_append.2 ⟨h i hi, List.forall_mem_singleton.2 (by decide)⟩ c hc

theorem isAllowed_memberText {m : Member} (hname : Name m.nameText m.name)
    (h : ∀ c ∈ m.text, IsAllowed c) : ∀ c ∈ memberText m, IsAllowed c :=
  List.forall_mem_append.2 ⟨hname.isAllowed, List.forall_mem_cons.2 ⟨by decide, h⟩⟩

theorem isAllowed_membersText {members : List Member}
    (hnames : ∀ m ∈ members, Name m.nameText m.name)
    (h : ∀ m ∈ members, ∀ c ∈ m.text, IsAllowed c) : ∀ c ∈ membersText members, IsAllowed c := by
  intro c hc
  obtain ⟨m, hm, hc⟩ := List.mem_flatMap.1 hc
  exact List.forall_mem_append.2
    ⟨isAllowed_memberText (hnames m hm) (h m hm), List.forall_mem_singleton.2 (by decide)⟩ c hc

/-! ### Whole texts -/

/-- **A text of the grammar has no control characters but white space.** -/
theorem Denotes.isAllowed (h : Denotes t v integers) : ∀ c ∈ t, IsAllowed c := by
  induction h with
  | padded hbefore hafter h ih =>
    exact List.forall_mem_append.2
      ⟨hbefore.isAllowed, List.forall_mem_append.2 ⟨ih, hafter.isAllowed⟩⟩
  | word h => exact h.isAllowed
  | integer hsign hdigits =>
    exact List.forall_mem_append.2 ⟨hsign.isAllowed, hdigits.isAllowed⟩
  | double hsign hdigits hfraction hexponent hdouble =>
    exact List.forall_mem_append.2 ⟨hsign.isAllowed, List.forall_mem_append.2
      ⟨hdigits.isAllowed, List.forall_mem_append.2 ⟨hfraction.isAllowed, hexponent.isAllowed⟩⟩⟩
  | string h => exact h.isAllowed
  | emptyArray h | emptyObject h =>
    exact List.forall_mem_cons.2 ⟨by decide,
      List.forall_mem_append.2 ⟨h.isAllowed, List.forall_mem_singleton.2 (by decide)⟩⟩
  | array hitems hlast ihitems ihlast =>
    exact List.forall_mem_cons.2 ⟨by decide, List.forall_mem_append.2
      ⟨isAllowed_itemsText ihitems,
        List.forall_mem_append.2 ⟨ihlast, List.forall_mem_singleton.2 (by decide)⟩⟩⟩
  | object hnames hname hmembers hlast ihmembers ihlast =>
    exact List.forall_mem_cons.2 ⟨by decide, List.forall_mem_append.2
      ⟨isAllowed_membersText hnames ihmembers, List.forall_mem_append.2
        ⟨isAllowed_memberText hname ihlast, List.forall_mem_singleton.2 (by decide)⟩⟩⟩

/-- What a sign and digits begin with. -/
theorem exists_cons_of_minus {sign digits : Text} {negative : Bool} (hsign : Minus sign negative)
    (hdigits : Whole digits) (rest : Text) :
    ∃ c tl, sign ++ (digits ++ rest) = c :: tl ∧ c.val < 0x80 := by
  cases hsign with
  | none =>
    obtain ⟨c, tl, rfl, hc⟩ := Number.exists_cons_of_whole hdigits
    exact ⟨c, tl ++ rest, rfl, by have := hc.2; omega⟩
  | minus => exact ⟨_, _, rfl, by decide⟩

/-- **A text of the grammar begins with an ASCII character.** -/
theorem Denotes.exists_cons (h : Denotes t v integers) :
    ∃ c rest, t = c :: rest ∧ c.val < 0x80 := by
  induction h with
  | @padded before after hbefore hafter t v integers h ih =>
    cases before with
    | nil =>
      obtain ⟨c, rest, rfl, hc⟩ := ih
      exact ⟨c, rest ++ after, rfl, hc⟩
    | cons c before =>
      have hblank : IsBlank c := blank_iff.1 hbefore c List.mem_cons_self
      exact ⟨c, before ++ (t ++ after), rfl, by omega⟩
  | word h => cases h <;> exact ⟨_, _, rfl, by decide⟩
  | integer hsign hdigits =>
    have := exists_cons_of_minus hsign hdigits []
    rwa [List.append_nil] at this
  | double hsign hdigits hfraction hexponent hdouble => exact exists_cons_of_minus hsign hdigits _
  | string h =>
    obtain ⟨h⟩ := h
    exact ⟨_, _, rfl, by decide⟩
  | emptyArray | emptyObject | array | object => exact ⟨_, _, rfl, by decide⟩

end Grammar

/-- **How a text that is read begins**: with an ASCII character. There is no NUL, neither there nor
in the rest. -/
theorem begins_of_read (h : read t = .ok v) :
    ∃ c rest, t = c :: rest ∧ c.val ≠ 0 ∧ c.val < 0x80 ∧ ∀ d ∈ rest, d.val ≠ 0 := by
  obtain ⟨integers, h, -⟩ := read_eq_ok_iff.1 h
  obtain ⟨c, rest, rfl, hc⟩ := h.exists_cons
  obtain ⟨hfirst, hrest⟩ := List.forall_mem_cons.1 h.isAllowed
  exact ⟨c, rest, rfl, val_ne_zero_of_isAllowed hfirst, hc,
    fun d hd => val_ne_zero_of_isAllowed (hrest d hd)⟩

end Json

end JsonShelf
