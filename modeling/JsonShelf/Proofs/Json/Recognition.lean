import JsonShelf.Proofs.Json.Prefix

/-!
# The reader recognizes the grammar

A text is read exactly if it denotes a value and none of its integers has too many digits, and then
its value is what comes out. One half is told by the beginnings of texts. For the other half, a text
that denotes a value is run through in the middle of another text: from a state that waits for a
value, it leads to the state in which the value is complete, and what follows is still to be read.
Only number literals depend on what follows them, and nothing that may follow a value goes on with
one.

This is first done for a reader that has no limit on digits and keeps the digits of all integers
instead. What it comes to is a function of the text, so no text denotes two values, however long its
integers are. As far as the digits that it kept are not too many, the two readers do the same.

## Main definitions

* `State.trace` — reading without a limit, with the digits of the integers
* `State.Traced` — texts that are run through in the middle of other texts

## Main results

* `State.traced_of_denotes` — a text that denotes a value is run through
* `Denotes.unique` — no text denotes two values
* `read_of_denotes` — a text that denotes a value is read, if its integers are short
* `read_decided_by_grammar` — the grammar decides about reading
-/

namespace JsonShelf

namespace Json

open Grammar

/-! ### Reading without a limit -/

/-- An integer counts as the literal of its number, whatever its length. -/
def Token.unlimited : Token → Token
  | .integer negative digits => .literal (.int (signed negative (Numeral.toNat digits)))
  | token => token

namespace Lexeme

/-- The white space in front of a text does not matter. -/
theorem list_congr {s t : Text} (h : skipBlanks s = skipBlanks t) : list s = list t := by
  cases ht : skipBlanks t with
  | nil => rw [list_of_blank (h.trans ht), list_of_blank ht]
  | cons c rest => rw [list_of_skipBlanks (h.trans ht), list_of_skipBlanks ht]

end Lexeme

theorem skipBlanks_append {blanks : Text} (h : Blank blanks) (t : Text) :
    skipBlanks (blanks ++ t) = skipBlanks t := by
  rw [skipBlanks, skipBlanks, List.dropWhile_append_of_pos (by simpa using blank_iff.1 h)]

theorem skipBlanks_cons {c : CodePoint} (h : ¬ IsBlank c) (rest : Text) :
    skipBlanks (c :: rest) = c :: rest :=
  List.dropWhile_cons_of_neg (by simpa using h)

namespace State

variable {state next : State} {frames : List Frame} {members : Members}

/-- One lexeme is taken, whatever the number of its digits, and these are kept. -/
def advance (s : State × List Text) (lexeme : Lexeme) : Except ReadError (State × List Text) :=
  (s.1.step ⟨lexeme.token.unlimited, lexeme.rest⟩).map fun next =>
    (next, s.2 ++ lexeme.token.integers)

/-- The state after a text, and the digits of the integers in it behind those of before. -/
def trace (s : State × List Text) (t : Text) : Except ReadError (State × List Text) :=
  (Lexeme.list t).foldlM advance s

theorem trace_nil (s : State × List Text) : trace s [] = .ok s := by
  rw [trace, Lexeme.list_of_blank rfl]
  rfl

theorem trace_blanks {blanks : Text} (h : Blank blanks) (s : State × List Text) (t : Text) :
    trace s (blanks ++ t) = trace s t := by
  rw [trace, trace, Lexeme.list_congr (skipBlanks_append h t)]

/-- One lexeme is taken, and the rest is read from the state that it leads to. -/
theorem trace_cons {c : CodePoint} {rest after : Text} {token : Token} (hc : ¬ IsBlank c)
    (hscan : Token.scan c rest = (token, after))
    (hstep : state.step ⟨token.unlimited, c :: rest⟩ = .ok next) (log : List Text) :
    trace (state, log) (c :: rest) = trace (next, log ++ token.integers) after := by
  rw [trace, Lexeme.list_of_skipBlanks (skipBlanks_cons hc rest), hscan, List.foldlM_cons]
  simp only [advance, hstep]
  rfl

/-- A token without digits leaves what is kept as it is. -/
theorem trace_cons_of_nil {c : CodePoint} {rest after : Text} {token : Token} (hc : ¬ IsBlank c)
    (hscan : Token.scan c rest = (token, after)) (hnil : token.integers = [])
    (hstep : state.step ⟨token.unlimited, c :: rest⟩ = .ok next) (log : List Text) :
    trace (state, log) (c :: rest) = trace (next, log) after := by
  rw [trace_cons hc hscan hstep, hnil, List.append_nil]

/-- Tokens of one character are no white space, and have no digits. -/
theorem of_lookup_punctuation {c : CodePoint} {token : Token}
    (h : Token.punctuation.lookup c = some token) :
    ¬ IsBlank c ∧ token.integers = [] ∧ token.unlimited = token := by
  obtain ⟨l₁, l₂, hl, -⟩ := List.lookup_eq_some_iff.1 h
  have hmem : (c, token) ∈ Token.punctuation := by rw [hl]; simp
  simp only [Token.punctuation, List.mem_cons, List.not_mem_nil, or_false, Prod.mk.injEq] at hmem
  rcases hmem with ⟨rfl, rfl⟩ | ⟨rfl, rfl⟩ | ⟨rfl, rfl⟩ | ⟨rfl, rfl⟩ | ⟨rfl, rfl⟩ | ⟨rfl, rfl⟩ <;>
    exact ⟨by decide, rfl, rfl⟩

theorem trace_punctuation {c : CodePoint} {rest : Text} {token : Token}
    (hstep : state.step ⟨token, c :: rest⟩ = .ok next)
    (h : Token.punctuation.lookup c = some token) (log : List Text) :
    trace (state, log) (c :: rest) = trace (next, log) rest := by
  obtain ⟨hc, hnil, hunlimited⟩ := of_lookup_punctuation h
  have hscan : Token.scan c rest = (token, rest) := by rw [Token.scan, h]
  exact trace_cons_of_nil hc hscan hnil (hunlimited.symm ▸ hstep) log

theorem trace_string {t s rest : Text} (h : Body t s)
    (hstep : state.step ⟨.string s, ('"' : CodePoint) :: (t ++ ('"' : CodePoint) :: rest)⟩ =
      .ok next) (log : List Text) :
    trace (state, log) (('"' : CodePoint) :: (t ++ ('"' : CodePoint) :: rest)) =
      trace (next, log) rest :=
  trace_cons_of_nil (by decide) (Token.scan_string h rest) rfl hstep log

/-! ### The limit -/

/-- A step is the same with the limit, if the digits are not too many. -/
theorem step_unlimited {token : Token}
    (h : ∀ d ∈ token.integers, d.length ≤ Numeral.digitLimit) (state : State) (rest : Text) :
    state.step ⟨token.unlimited, rest⟩ = state.step ⟨token, rest⟩ := by
  cases token with
  | integer negative digits =>
    have hread : Numeral.read digits = .ok (Numeral.toNat digits) :=
      if_pos (h digits (List.mem_singleton_self _))
    have htake : ∀ frames, takeValue frames ⟨Token.unlimited (.integer negative digits), rest⟩ =
        takeValue frames ⟨.integer negative digits, rest⟩ := by
      intro frames
      simp only [takeValue, Token.unlimited, hread]
      rfl
    rcases state with _ | _ | _ | _ | _ | ⟨v, _ | ⟨_ | _, _⟩⟩
    · exact htake _
    · exact htake _
    all_goals rfl
  | _ => rfl

/-- What was come to without a limit is come to with it, if the digits are not too many. -/
theorem foldlM_step_of_advance {lexemes : List Lexeme} {s s' : State × List Text}
    (h : lexemes.foldlM advance s = .ok s')
    (hshort : ∀ d ∈ s'.2, d.length ≤ Numeral.digitLimit) :
    lexemes.foldlM step s.1 = .ok s'.1 ∧ s.2 ⊆ s'.2 := by
  induction lexemes generalizing s with
  | nil =>
    cases h
    exact ⟨rfl, List.Subset.refl _⟩
  | cons lexeme lexemes ih =>
    rw [List.foldlM_cons, bind_eq_ok_iff] at h
    obtain ⟨middle, hadvance, h⟩ := h
    obtain ⟨hrun, hkept⟩ := ih h
    obtain ⟨next, hstep, rfl⟩ := map_eq_ok_iff.1 hadvance
    obtain ⟨hbefore, hdigits⟩ := List.append_subset.1 hkept
    rw [step_unlimited (fun d hd => hshort d (hdigits hd))] at hstep
    rw [List.foldlM_cons]
    exact ⟨bind_eq_ok_iff.2 ⟨next, hstep, hrun⟩, hbefore⟩

/-! ### Scalars -/

/-- The text is run through as a value with these integers, wherever a value may stand and whatever
follows that does not go on with a number. -/
def Traced (t : Text) (v : Json) (integers : List Text) : Prop :=
  ∀ (state : State) (frames : List Frame) (log : List Text) (rest : Text), state.TakesValue frames →
    Number.Ends rest →
    trace (state, log) (t ++ rest) = trace (complete v frames, log ++ integers) rest

theorem traced_word {t : Text} {v : Json} (h : Word t v) : Traced t v [] := by
  intro state frames log rest hstate _
  obtain ⟨c, tl, rfl, hc, hscan⟩ := Token.scan_word h
  rw [List.append_nil]
  exact trace_cons_of_nil hc (hscan rest) rfl (hstate _ nofun) log

theorem traced_string {t s : Text} (h : Str t s) : Traced t (.str s) [] := by
  intro state frames log rest hstate _
  obtain ⟨hbody⟩ := h
  rw [List.append_nil, List.cons_append, List.append_assoc, List.singleton_append]
  exact trace_string hbody (hstate _ nofun) log

theorem traced_integer {sign digits : Text} {negative : Bool} (hsign : Minus sign negative)
    (hdigits : Whole digits) :
    Traced (sign ++ digits) (.int (signed negative (Numeral.toNat digits))) [digits] := by
  intro state frames log rest hstate hrest
  have hliteral := @Number.Literal.parts ⟨negative, digits, none, none⟩ sign [] [] hsign hdigits
    .none .none
  rw [List.append_nil, List.append_nil] at hliteral
  obtain ⟨c, tl, htext, hc, hscan⟩ := Token.scan_number hliteral hrest
  rw [htext]
  exact trace_cons hc hscan (hstate _ nofun) log

theorem traced_double {sign digits fraction exponent : Text} {negative : Bool}
    {behind : Option Text} {letter : Option (Bool × Text)} (hsign : Minus sign negative)
    (hdigits : Whole digits) (hfraction : Fraction fraction behind)
    (hexponent : Exponent exponent letter) (hdouble : behind.isSome ∨ letter.isSome) :
    Traced (sign ++ (digits ++ (fraction ++ exponent)))
      (.double (Double.ofDecimal negative (Numeral.toNat (digits ++ behind.getD []))
        (power letter - (behind.getD []).length))) [] := by
  intro state frames log rest hstate hrest
  have hliteral := @Number.Literal.parts ⟨negative, digits, behind, letter⟩ sign fraction exponent
    hsign hdigits hfraction hexponent
  have hinteger : (⟨negative, digits, behind, letter⟩ : Number).isInteger = false := by
    rw [Number.isInteger, Bool.and_eq_false_iff]
    simpa using hdouble
  obtain ⟨c, tl, htext, hc, hscan⟩ := Token.scan_number hliteral hrest
  rw [Token.ofNumber, if_neg (Bool.eq_false_iff.1 hinteger)] at hscan
  rw [htext, List.append_nil, Token.power_eq ⟨negative, digits, behind, letter⟩]
  have hstep := hstate ⟨.literal (.double (Number.toDouble ⟨negative, digits, behind, letter⟩)),
    c :: tl⟩ fun h => by cases h
  exact trace_cons_of_nil hc hscan rfl hstep log

/-! ### Arrays -/

theorem traced_padded {before after t : Text} {v : Json} {integers : List Text}
    (hbefore : Blank before) (hafter : Blank after) (h : Traced t v integers) :
    Traced (before ++ (t ++ after)) v integers := by
  intro state frames log rest hstate hrest
  have hends : Number.Ends (after ++ rest) := by
    cases after with
    | nil => exact hrest
    | cons c after =>
      refine Number.ends_cons ?_ _
      have := hafter c (List.mem_cons_self ..)
      simp only [List.mem_cons, List.not_mem_nil, or_false] at this
      rcases this with rfl | rfl | rfl | rfl <;> decide
  rw [List.append_assoc, List.append_assoc, trace_blanks hbefore, h state frames log _ hstate hends,
    trace_blanks hafter]

/-- The items of an array, and its end. -/
theorem trace_items {items : List Item} {last : Item}
    (hitems : ∀ i ∈ items, Traced i.text i.value i.integers)
    (hlast : Traced last.text last.value last.integers) {before : List Json}
    (hstate : state.TakesValue (.array before :: frames)) (log : List Text) (rest : Text) :
    trace (state, log) (itemsText items ++ (last.text ++ (']' : CodePoint) :: rest)) =
      trace (complete (.arr (before.reverse ++ (items.map Item.value ++ [last.value]))) frames,
        log ++ (items.flatMap Item.integers ++ last.integers)) rest := by
  induction items generalizing state before log with
  | nil =>
    rw [itemsText, List.flatMap_nil, List.nil_append,
      hlast state _ log _ hstate (Number.ends_cons (by decide) rest)]
    have hclose : (complete last.value (.array before :: frames)).step
        ⟨.closeArray, (']' : CodePoint) :: rest⟩ =
          .ok (complete (.arr (last.value :: before).reverse) frames) := rfl
    rw [trace_punctuation hclose rfl, List.reverse_cons]
    rfl
  | cons item items ih =>
    obtain ⟨hitem, hitems⟩ := List.forall_mem_cons.1 hitems
    have hcomma : ∀ t, (complete item.value (.array before :: frames)).step
        ⟨.comma, (',' : CodePoint) :: t⟩ =
          .ok (value (.array (item.value :: before) :: frames)) := fun _ => rfl
    have htext : itemsText (item :: items) = item.text ++ (',' : CodePoint) :: itemsText items := by
      simp [itemsText]
    rw [htext, List.append_assoc, List.cons_append,
      hitem state _ log _ hstate (Number.ends_cons (by decide) _),
      trace_punctuation (hcomma _) rfl, ih hitems (takesValue_value _)]
    simp only [List.reverse_cons, List.map_cons, List.flatMap_cons, List.append_assoc,
      List.cons_append, List.nil_append]

theorem trace_open (hstate : state.TakesValue frames) (log : List Text) (rest : Text) :
    trace (state, log) (('[' : CodePoint) :: rest) = trace (firstItem frames, log) rest ∧
      trace (state, log) (('{' : CodePoint) :: rest) = trace (firstName frames, log) rest :=
  ⟨trace_punctuation (hstate ⟨.openArray, _⟩ nofun) rfl log,
    trace_punctuation (hstate ⟨.openObject, _⟩ nofun) rfl log⟩

theorem traced_emptyArray {blanks : Text} (h : Blank blanks) :
    Traced (('[' : CodePoint) :: (blanks ++ [(']' : CodePoint)])) (.arr []) [] := by
  intro state frames log rest hstate _
  rw [List.append_nil, List.cons_append, List.append_assoc, List.singleton_append,
    (trace_open hstate log _).1, trace_blanks h]
  exact trace_punctuation rfl rfl log

theorem traced_array {items : List Item} {last : Item}
    (hitems : ∀ i ∈ items, Traced i.text i.value i.integers)
    (hlast : Traced last.text last.value last.integers) :
    Traced (('[' : CodePoint) :: (itemsText items ++ (last.text ++ [(']' : CodePoint)])))
      (.arr (items.map Item.value ++ [last.value]))
      (items.flatMap Item.integers ++ last.integers) := by
  intro state frames log rest hstate _
  rw [List.cons_append, List.append_assoc, List.append_assoc, List.singleton_append,
    (trace_open hstate log _).1, trace_items hitems hlast (takesValue_firstItem frames)]
  rfl

/-! ### Objects -/

/-- A name, and the colon behind it. -/
theorem trace_name {nameText n : Text} (h : Name nameText n)
    (hstate : state.TakesName members frames) (log : List Text) (rest : Text) :
    trace (state, log) (nameText ++ (':' : CodePoint) :: rest) =
      trace (value (.object members n :: frames), log) rest := by
  obtain ⟨hbefore, ⟨hbody⟩, hafter⟩ := h
  simp only [List.append_assoc, List.cons_append, List.nil_append]
  rw [trace_blanks hbefore, trace_string hbody (hstate ⟨.string n, _⟩ nofun), trace_blanks hafter]
  exact trace_punctuation rfl rfl log

/-- The members of an object, and its end. -/
theorem trace_members {before ms : List Member} {last : Member}
    (hnames : ∀ m ∈ ms, Name m.nameText m.name) (hname : Name last.nameText last.name)
    (hmembers : ∀ m ∈ ms, Traced m.text m.value m.integers)
    (hlast : Traced last.text last.value last.integers)
    (hstate : state.TakesName (membersOf before) frames) (log : List Text) (rest : Text) :
    trace (state, log) (membersText ms ++ (memberText last ++ ('}' : CodePoint) :: rest)) =
      trace (complete (.obj (membersOf (before ++ (ms ++ [last])))) frames,
        log ++ (ms.flatMap (·.integers) ++ last.integers)) rest := by
  induction ms generalizing state before log with
  | nil =>
    have hclose : (complete last.value (.object (membersOf before) last.name :: frames)).step
        ⟨.closeObject, ('}' : CodePoint) :: rest⟩ =
          .ok (complete (.obj (membersOf (before ++ [last]))) frames) := by
      rw [membersOf_append_singleton]
      rfl
    rw [membersText, List.flatMap_nil, List.nil_append, memberText, List.append_assoc,
      List.cons_append, trace_name hname hstate,
      hlast _ _ log _ (takesValue_value _) (Number.ends_cons (by decide) rest),
      trace_punctuation hclose rfl]
    rfl
  | cons m ms ih =>
    obtain ⟨hmname, hnames⟩ := List.forall_mem_cons.1 hnames
    obtain ⟨hmember, hmembers⟩ := List.forall_mem_cons.1 hmembers
    have hcomma : ∀ t, (complete m.value (.object (membersOf before) m.name :: frames)).step
        ⟨.comma, (',' : CodePoint) :: t⟩ =
          .ok (name (membersOf (before ++ [m])) frames) := by
      intro t
      rw [membersOf_append_singleton]
      rfl
    have htext : membersText (m :: ms) =
        m.nameText ++ (':' : CodePoint) :: (m.text ++ (',' : CodePoint) :: membersText ms) := by
      simp [membersText, memberText]
    rw [htext, List.append_assoc, List.cons_append, trace_name hmname hstate, List.append_assoc,
      List.cons_append,
      hmember _ _ log _ (takesValue_value _) (Number.ends_cons (by decide) _),
      trace_punctuation (hcomma _) rfl, ih hnames hmembers (takesName_name _ _)]
    simp only [List.flatMap_cons, List.append_assoc, List.cons_append, List.nil_append]

theorem traced_emptyObject {blanks : Text} (h : Blank blanks) :
    Traced (('{' : CodePoint) :: (blanks ++ [('}' : CodePoint)])) (.obj []) [] := by
  intro state frames log rest hstate _
  rw [List.append_nil, List.cons_append, List.append_assoc, List.singleton_append,
    (trace_open hstate log _).2, trace_blanks h]
  exact trace_punctuation rfl rfl log

theorem traced_object {ms : List Member} {last : Member}
    (hnames : ∀ m ∈ ms, Name m.nameText m.name) (hname : Name last.nameText last.name)
    (hmembers : ∀ m ∈ ms, Traced m.text m.value m.integers)
    (hlast : Traced last.text last.value last.integers) :
    Traced (('{' : CodePoint) :: (membersText ms ++ (memberText last ++ [('}' : CodePoint)])))
      (.obj (membersOf (ms ++ [last]))) (ms.flatMap (·.integers) ++ last.integers) := by
  intro state frames log rest hstate _
  rw [List.cons_append, List.append_assoc, List.append_assoc, List.singleton_append,
    (trace_open hstate log _).2,
    @trace_members _ frames [] ms last hnames hname hmembers hlast (takesName_firstName frames)]
  rfl

/-- **A text that denotes a value is run through**, in the middle of any text. -/
theorem traced_of_denotes {t : Text} {v : Json} {integers : List Text} (h : Denotes t v integers) :
    Traced t v integers := by
  induction h with
  | padded hbefore hafter _ ih => exact traced_padded hbefore hafter ih
  | word h => exact traced_word h
  | integer hsign hdigits => exact traced_integer hsign hdigits
  | double hsign hdigits hfraction hexponent hdouble =>
    exact traced_double hsign hdigits hfraction hexponent hdouble
  | string h => exact traced_string h
  | emptyArray h => exact traced_emptyArray h
  | array _ _ ihitems ihlast => exact traced_array ihitems ihlast
  | emptyObject h => exact traced_emptyObject h
  | object hnames hname _ _ ihmembers ihlast =>
    exact traced_object hnames hname ihmembers ihlast

/-! ### Errors -/

theorem takeValue_eq_error {lexeme : Lexeme} {e : ReadError}
    (h : takeValue frames lexeme = .error e) :
    (∃ fault, e = .fault fault) ∨
      ∃ negative digits, lexeme.token = .integer negative digits ∧
        Numeral.digitLimit < digits.length := by
  rw [takeValue] at h
  split at h
  · cases h
  · cases h
  · cases h
  · cases h
  · next negative digits htoken =>
    split at h
    · cases h
    · next hread =>
      rw [Numeral.read] at hread
      split at hread
      · cases hread
      · next hlong => exact .inr ⟨negative, digits, htoken, Nat.lt_of_not_le hlong⟩
  · cases h
    exact .inl ⟨_, rfl⟩
  · cases h
    exact .inl ⟨_, rfl⟩

/-- A lexeme is refused with a fault, unless it is an integer of too many digits. -/
theorem step_eq_error {lexeme : Lexeme} {e : ReadError} (h : state.step lexeme = .error e) :
    (∃ fault, e = .fault fault) ∨
      ∃ negative digits, lexeme.token = .integer negative digits ∧
        Numeral.digitLimit < digits.length := by
  rw [step.eq_def] at h
  split at h
  · exact takeValue_eq_error h
  · cases h
  · exact takeValue_eq_error h
  · cases h
  · rw [takeName] at h
    split at h <;> cases h <;> exact .inl ⟨_, rfl⟩
  · rw [takeName] at h
    split at h <;> cases h <;> exact .inl ⟨_, rfl⟩
  all_goals cases h
  exact .inl ⟨_, rfl⟩

end State

/-- The lexemes of a text stand in it as they are written, unless they complain. -/
theorem Lexeme.spells_of_mem_list {s : Text} {lexeme : Lexeme} (h : lexeme ∈ list s) :
    (∃ t, t <:+: s ∧ lexeme.token.Spells t) ∨ lexeme.token.Refused := by
  fun_induction list s with
  | case1 => cases h
  | case2 s c rest hs hlt ih =>
    obtain ⟨blanks, hsplit, -⟩ := exists_blank_append_skipBlanks s
    rw [hs] at hsplit
    rcases Token.spells_scan c rest with ⟨t, ht, htoken⟩ | ⟨hrefused, hnil⟩
    · rcases List.mem_cons.1 h with rfl | h
      · exact .inl ⟨t, ⟨blanks, _, by rw [hsplit, ht, List.append_assoc]⟩, htoken⟩
      · refine (ih h).imp_left ?_
        rintro ⟨t', ht', htoken'⟩
        refine ⟨t', ht'.trans ⟨blanks ++ t, [], ?_⟩, htoken'⟩
        rw [List.append_nil, List.append_assoc, ← ht, ← hsplit]
    · rcases List.mem_cons.1 h with rfl | h
      · exact .inr hrefused
      · rw [hnil, list_of_blank rfl] at h
        cases h

/-- The digits of an integer stand in a row. -/
theorem Token.Spells.digits {t digits : Text} {negative : Bool}
    (h : Spells (.integer negative digits) t) : digits <:+: t ∧ ∀ c ∈ digits, c.IsDigit := by
  cases h with
  | integer h hn =>
    obtain ⟨hsign, hdigits, hfraction, hexponent⟩ := h
    exact ⟨⟨_, _, List.append_assoc ..⟩, (Number.areDigits_of_whole hdigits).2⟩

/-! ### Whole texts -/

variable {t : Text} {v : Json} {integers : List Text}

theorem trace_of_denotes (h : Denotes t v integers) :
    State.trace (.value [], []) t = .ok (.complete v [], integers) := by
  have := State.traced_of_denotes h _ [] [] [] (State.takesValue_value []) Number.ends_nil
  rwa [List.append_nil, List.nil_append, State.trace_nil] at this

/-- **No text denotes two values**, and the digits of its integers are those of the text alone. -/
theorem Grammar.Denotes.unique {w : Json} {integers' : List Text} (h : Denotes t v integers)
    (h' : Denotes t w integers') : v = w ∧ integers = integers' := by
  have := (trace_of_denotes h).symm.trans (trace_of_denotes h')
  cases this
  exact ⟨rfl, rfl⟩

/-- **A text that denotes a value is read**, if none of its integers has too many digits. -/
theorem read_of_denotes (h : Denotes t v integers)
    (hshort : ∀ d ∈ integers, d.length ≤ Numeral.digitLimit) : read t = .ok v := by
  obtain ⟨hrun, -⟩ := State.foldlM_step_of_advance (trace_of_denotes h) hshort
  exact bind_eq_ok_iff.2 ⟨_, hrun, rfl⟩

/-- A digit run in a text that is longer than what is read as an integer. -/
def HasLongRun (t : Text) : Prop :=
  ∃ run, run <:+: t ∧ (∀ c ∈ run, c.IsDigit) ∧ Numeral.digitLimit < run.length

/-- The text denotes the value, and none of its integers has too many digits. -/
def Readable (t : Text) (v : Json) : Prop :=
  ∃ integers, Denotes t v integers ∧ ∀ d ∈ integers, d.length ≤ Numeral.digitLimit

theorem read_eq_ok_iff : read t = .ok v ↔ Readable t v := by
  constructor
  · exact denotes_of_read
  · rintro ⟨integers, h, hshort⟩
    exact read_of_denotes h hshort

/-- A text that is not read has a fault, unless it holds a run of too many digits. -/
theorem fault_of_read {e : ReadError} (h : read t = .error e) (hshort : ¬ HasLongRun t) :
    ∃ fault, e = .fault fault := by
  rcases bind_eq_error_iff.1 h with hrun | ⟨state, -, hfinish⟩
  · obtain ⟨lexeme, hmem, state, hstep⟩ := exists_of_foldlM_eq_error hrun
    rcases State.step_eq_error hstep with hfault | ⟨negative, digits, htoken, hlong⟩
    · exact hfault
    · rcases Lexeme.spells_of_mem_list hmem with ⟨part, hpart, hspells⟩ | hrefused
      · rw [htoken] at hspells
        obtain ⟨hdigits, hall⟩ := hspells.digits
        exact absurd ⟨digits, hdigits.trans hpart, hall, hlong⟩ hshort
      · rw [htoken] at hrefused
        cases hrefused
  · rw [State.finish.eq_def] at hfinish
    split at hfinish
    · cases hfinish
    · cases hfinish
      exact ⟨_, rfl⟩

/-- A text with a value does not start with a byte order mark. -/
theorem readDocument_eq_ok_iff : readDocument t = .ok v ↔ read t = .ok v := by
  rw [readDocument]
  split
  · next hhead =>
    constructor
    · intro h
      cases h
    · intro h
      cases t with
      | nil => cases hhead
      | cons c rest =>
        rw [List.head?_cons, Option.some.injEq] at hhead
        have hscan : Token.scan CodePoint.byteOrderMark rest = (.unknown, []) := rfl
        have hblank : ¬ IsBlank CodePoint.byteOrderMark := by decide
        rw [read, hhead, Lexeme.list_of_skipBlanks (skipBlanks_cons hblank rest), hscan] at h
        cases h
  · exact Iff.rfl

theorem fault_of_readDocument {e : ReadError} (h : readDocument t = .error e)
    (hshort : ¬ HasLongRun t) : ∃ fault, e = .fault fault := by
  rw [readDocument] at h
  split at h
  · cases h
    exact ⟨_, rfl⟩
  · exact fault_of_read h hshort

/-- **The grammar decides about reading**, for the texts of bodies and for those of files. No text
denotes two values. A text is read as a value if it denotes the value and none of its integers has
too many digits, and only then; all others are errors, and faults of the text unless there is a run
of too many digits in it. -/
theorem read_decided_by_grammar (t : Text) :
    (∀ v w integers integers', Denotes t v integers → Denotes t w integers' →
      v = w ∧ integers = integers') ∧
    ∀ reader ∈ [read, readDocument],
      (∀ v, reader t = .ok v ↔ Readable t v) ∧
        ((¬ ∃ v, Readable t v) →
          ∃ e, reader t = .error e ∧ (¬ HasLongRun t → ∃ fault, e = .fault fault)) := by
  have hok : ∀ reader ∈ [read, readDocument], ∀ v, reader t = .ok v ↔ Readable t v := by
    simp only [List.forall_mem_cons]
    exact ⟨fun _ => read_eq_ok_iff, fun _ => readDocument_eq_ok_iff.trans read_eq_ok_iff, nofun⟩
  have hfault : ∀ reader ∈ [read, readDocument], ∀ e, reader t = .error e → ¬ HasLongRun t →
      ∃ fault, e = .fault fault := by
    simp only [List.forall_mem_cons]
    exact ⟨fun _ => fault_of_read, fun _ => fault_of_readDocument, nofun⟩
  refine ⟨fun v w integers integers' => Denotes.unique, fun reader hreader =>
    ⟨hok reader hreader, fun hnone => ?_⟩⟩
  cases hread : reader t with
  | ok v => exact absurd ⟨v, (hok reader hreader v).1 hread⟩ hnone
  | error e => exact ⟨e, rfl, hfault reader hreader e hread⟩

/-- A name that comes twice is there once, with the value that came last. -/
theorem read_decided_by_grammar_at_repeated_name :
    read (Text.ofString "\x7b\"a\":1,\"a\": []\x7d") = .ok (.obj [(['a'], .arr [])]) := by
  have hname : Name (Text.ofString "\"a\"") ['a'] :=
    .padded blank_nil (.quoted (.character (by decide) (by decide) (by decide) .nil)) blank_nil
  have hone : Denotes ['1'] (.int 1) [['1']] :=
    .integer .none (.digits (by decide) (by decide) nofun)
  have hempty : Denotes (Text.ofString " []") (.arr []) [] :=
    Denotes.blank_append (.emptyArray blank_nil) (List.forall_mem_singleton.2 (by decide))
  have hobject := @Denotes.object [⟨⟨['1'], .int 1, [['1']]⟩, Text.ofString "\"a\"", ['a']⟩]
    ⟨⟨Text.ofString " []", .arr [], []⟩, Text.ofString "\"a\"", ['a']⟩
    (List.forall_mem_singleton.2 hname) hname (List.forall_mem_singleton.2 hone) hempty
  obtain ⟨-, hread⟩ := read_decided_by_grammar (Text.ofString "\x7b\"a\":1,\"a\": []\x7d")
  exact ((hread read (List.mem_cons_self ..)).1 _).2
    ⟨_, hobject, List.forall_mem_singleton.2 (by decide)⟩

end Json

end JsonShelf
