import JsonShelf.Json.Reader
import JsonShelf.Proofs.Json.Spelling

/-!
# What has been read so far

Reading takes one lexeme after the other, and at any time the text up to there is a beginning of a
text of the grammar. Which one, can be told from the state: the arrays and objects that are open
were opened in this text, with the items and members that are kept in their frames, and what was
completed last is a value that the text ends with. Every lexeme that is taken keeps this, so a text
that was read to its end denotes what was read.

The digits of the integers are carried along. What is taken has been looked at for its digits, so
none of them are too many.

## Main definitions

* `Opened` — the text that opened arrays and objects
* `State.Reads` — the text that led to a state
* `State.TakesValue`, `State.TakesName` — what a state waits for

## Main results

* `lastValues_append_singleton` — a further member goes into an object as into a keyed list
* `State.reads_step`, `State.reads_list` — what one lexeme and what all lexemes of a text keep
* `denotes_of_read` — a text that was read denotes its value
-/

namespace JsonShelf

namespace KeyedList

variable {α β : Type} [DecidableEq α]

/-- Entries of other keys are where they were. -/
theorem filter_insert_self (key : α) (value : β) (entries : KeyedList α β) :
    (insert key value entries).filter (fun e => decide (e.1 ≠ key)) =
      entries.filter fun e => decide (e.1 ≠ key) := by
  induction entries with
  | nil => simp [insert]
  | cons entry rest ih =>
    by_cases h : entry.1 = key
    · simp [insert, h]
    · rw [insert, if_neg h, List.filter_cons, ih, List.filter_cons]

/-- To leave out another key does not matter to an insertion. -/
theorem filter_insert_of_ne {key other : α} (hne : key ≠ other) (value : β)
    (entries : KeyedList α β) :
    (insert key value entries).filter (fun e => decide (e.1 ≠ other)) =
      insert key value (entries.filter fun e => decide (e.1 ≠ other)) := by
  induction entries with
  | nil => simp [insert, hne]
  | cons entry rest ih =>
    by_cases h : entry.1 = key
    · simp [insert, h, hne]
    · rw [insert, if_neg h, List.filter_cons, ih, List.filter_cons]
      split
      · rw [insert, if_neg h]
      · rfl

end KeyedList

namespace Json

open Grammar

/-! ### Names that repeat -/

/-- **A further member goes into an object as into a keyed list.** -/
theorem lastValues_append_singleton (members : List (Text × Json)) (n : Text) (v : Json) :
    lastValues (members ++ [(n, v)]) = KeyedList.insert n v (lastValues members) := by
  induction members with
  | nil => rfl
  | cons m members ih =>
    obtain ⟨n', v'⟩ := m
    rw [List.cons_append, lastValues, ih, lastValues]
    by_cases h : n' = n
    · rw [h, KeyedList.find?_insert_self, KeyedList.filter_insert_self, KeyedList.insert,
        if_pos rfl]
      rfl
    · rw [KeyedList.find?_insert_of_ne h, KeyedList.filter_insert_of_ne (Ne.symm h),
        KeyedList.insert, if_neg h]

theorem membersOf_append_singleton (members : List Member) (m : Member) :
    membersOf (members ++ [m]) = KeyedList.insert m.name m.value (membersOf members) := by
  rw [membersOf, List.map_append, List.map_singleton, lastValues_append_singleton]
  rfl

/-! ### White space -/

theorem isBlank_iff {c : CodePoint} : c ∈ ([' ', '\t', '\n', '\r'] : Text) ↔ IsBlank c := by
  simp only [List.mem_cons, List.not_mem_nil, or_false, CodePoint.ext_iff]
  rfl

theorem blank_iff {blanks : Text} : Blank blanks ↔ ∀ c ∈ blanks, IsBlank c :=
  forall₂_congr fun _ _ => isBlank_iff

theorem blank_nil : Blank [] := nofun

/-- A text is white space with the first lexeme behind it. -/
theorem exists_blank_append_skipBlanks (s : Text) :
    ∃ blanks, s = blanks ++ skipBlanks s ∧ Blank blanks := by
  refine ⟨s.takeWhile fun c => decide (IsBlank c), List.takeWhile_append_dropWhile.symm, ?_⟩
  intro c hc
  exact isBlank_iff.2 (by simpa using List.mem_takeWhile_imp hc)

namespace Grammar

variable {t blanks : Text} {v : Json} {integers : List Text}

theorem Denotes.blank_append (h : Denotes t v integers) (hblanks : Blank blanks) :
    Denotes (blanks ++ t) v integers := by
  have := Denotes.padded hblanks blank_nil h
  rwa [List.append_nil] at this

theorem Denotes.append_blank (h : Denotes t v integers) (hblanks : Blank blanks) :
    Denotes (t ++ blanks) v integers :=
  Denotes.padded blank_nil hblanks h

theorem Name.append_blank {t n blanks : Text} (h : Name t n) (hblanks : Blank blanks) :
    Name (t ++ blanks) n := by
  obtain ⟨hbefore, hstr, hafter⟩ := h
  rw [List.append_assoc, List.append_assoc]
  refine .padded hbefore hstr ?_
  intro c hc
  exact (List.mem_append.1 hc).elim (hafter c) (hblanks c)

end Grammar

/-! ### Beginnings of texts -/

/-- The text that opened arrays and objects, up to where the next value has to come, with the digits
of the integers in it. -/
inductive Opened : Text → List Frame → List Text → Prop
  | top : Opened [] [] []
  | array {p blanks : Text} {frames : List Frame} {integers : List Text}
    (h : Opened p frames integers) (hblanks : Blank blanks) (items : List Item)
    (hitems : ∀ i ∈ items, Denotes i.text i.value i.integers) :
    Opened (p ++ (blanks ++ ('[' : CodePoint) :: itemsText items))
      (.array (items.map Item.value).reverse :: frames) (integers ++ items.flatMap Item.integers)
  | object {p blanks nameText name : Text} {frames : List Frame} {integers : List Text}
    (h : Opened p frames integers) (hblanks : Blank blanks) (members : List Member)
    (hnames : ∀ m ∈ members, Name m.nameText m.name)
    (hmembers : ∀ m ∈ members, Denotes m.text m.value m.integers) (hname : Name nameText name) :
    Opened (p ++ (blanks ++ ('{' : CodePoint) :: (membersText members ++
        (nameText ++ [(':' : CodePoint)]))))
      (.object (membersOf members) name :: frames) (integers ++ members.flatMap (·.integers))

/-- Behind its bracket, an array has no items yet. -/
theorem Opened.bracket {p blanks : Text} {frames : List Frame} {integers : List Text}
    (h : Opened p frames integers) (hblanks : Blank blanks) :
    Opened (p ++ (blanks ++ [('[' : CodePoint)])) (.array [] :: frames) integers := by
  have hopened := h.array hblanks [] nofun
  rw [List.flatMap_nil, List.append_nil] at hopened
  exact hopened

/-- The text that led to a state, with the digits of the integers in it. -/
inductive State.Reads : Text → State → List Text → Prop
  | value {p : Text} {frames : List Frame} {integers : List Text} (h : Opened p frames integers) :
    Reads p (.value frames) integers
  | firstItem {p blanks : Text} {frames : List Frame} {integers : List Text}
    (h : Opened p frames integers) (hblanks : Blank blanks) :
    Reads (p ++ (blanks ++ [('[' : CodePoint)])) (.firstItem frames) integers
  | firstName {p blanks : Text} {frames : List Frame} {integers : List Text}
    (h : Opened p frames integers) (hblanks : Blank blanks) :
    Reads (p ++ (blanks ++ [('{' : CodePoint)])) (.firstName frames) integers
  | name {p blanks : Text} {frames : List Frame} {integers : List Text}
    (h : Opened p frames integers) (hblanks : Blank blanks) (members : List Member)
    (hnames : ∀ m ∈ members, Name m.nameText m.name)
    (hmembers : ∀ m ∈ members, Denotes m.text m.value m.integers) (hne : members ≠ []) :
    Reads (p ++ (blanks ++ ('{' : CodePoint) :: membersText members))
      (.name (membersOf members) frames) (integers ++ members.flatMap (·.integers))
  | colon {p blanks nameText name : Text} {frames : List Frame} {integers : List Text}
    (h : Opened p frames integers) (hblanks : Blank blanks) (members : List Member)
    (hnames : ∀ m ∈ members, Name m.nameText m.name)
    (hmembers : ∀ m ∈ members, Denotes m.text m.value m.integers) (hname : Name nameText name) :
    Reads (p ++ (blanks ++ ('{' : CodePoint) :: (membersText members ++ nameText)))
      (.colon (membersOf members) name frames) (integers ++ members.flatMap (·.integers))
  | complete {p t : Text} {frames : List Frame} {integers integers' : List Text} {v : Json}
    (h : Opened p frames integers) (hv : Denotes t v integers') :
    Reads (p ++ t) (.complete v frames) (integers ++ integers')

/-- The digits of an integer. -/
def Token.integers : Token → List Text
  | .integer _ digits => [digits]
  | _ => []

namespace State

variable {p t blanks rest : Text} {frames : List Frame} {integers : List Text} {token : Token}
  {state next : State}

/-! ### What a state waits for -/

/-- The state waits for a value inside of `frames`. -/
def TakesValue (state : State) (frames : List Frame) : Prop :=
  ∀ lexeme : Lexeme, lexeme.token ≠ .closeArray → state.step lexeme = takeValue frames lexeme

/-- The state waits for the name of a member behind `members`. -/
def TakesName (state : State) (members : Members) (frames : List Frame) : Prop :=
  ∀ lexeme : Lexeme, lexeme.token ≠ .closeObject →
    state.step lexeme = takeName members frames lexeme

theorem takesValue_value (frames : List Frame) : (value frames).TakesValue frames :=
  fun lexeme _ => by cases lexeme; rfl

theorem takesValue_firstItem (frames : List Frame) :
    (firstItem frames).TakesValue (.array [] :: frames) := by
  rintro ⟨token, rest⟩ h
  cases token <;> first | rfl | exact absurd rfl h

theorem takesName_name (members : Members) (frames : List Frame) :
    (name members frames).TakesName members frames :=
  fun lexeme _ => by cases lexeme; rfl

theorem takesName_firstName (frames : List Frame) : (firstName frames).TakesName [] frames := by
  rintro ⟨token, rest⟩ h
  cases token <;> first | rfl | exact absurd rfl h

/-! ### One lexeme -/

/-- Nothing goes on behind a token that complains. -/
theorem step_of_refused (h : token.Refused) (state : State) (rest : Text) :
    ∃ fault, state.step ⟨token, rest⟩ = .error (.fault fault) := by
  cases h <;> rcases state with _ | _ | _ | _ | _ | ⟨v, _ | ⟨_ | _, _⟩⟩ <;> exact ⟨_, rfl⟩

theorem reads_takeValue (h : Opened p frames integers) (hblanks : Blank blanks)
    (htoken : token.Spells t) (hstep : takeValue frames ⟨token, rest⟩ = .ok next) :
    Reads (p ++ (blanks ++ t)) next (integers ++ token.integers) ∧
      ∀ d ∈ token.integers, d.length ≤ Numeral.digitLimit := by
  rw [takeValue] at hstep
  split at hstep
  · next htk =>
    cases htk
    cases hstep
    cases htoken
    exact ⟨by simpa [Token.integers] using Reads.firstItem h hblanks, nofun⟩
  · next htk =>
    cases htk
    cases hstep
    cases htoken
    exact ⟨by simpa [Token.integers] using Reads.firstName h hblanks, nofun⟩
  · next v htk =>
    cases htk
    cases hstep
    exact ⟨.complete h (htoken.denotes_literal.blank_append hblanks), nofun⟩
  · next s htk =>
    cases htk
    cases hstep
    exact ⟨.complete h ((Denotes.string htoken.str).blank_append hblanks), nofun⟩
  · next negative digits htk =>
    cases htk
    rw [Numeral.read] at hstep
    split at hstep
    · next n hn =>
      split at hn
      · next hlength =>
        cases hn
        cases hstep
        exact ⟨.complete h (htoken.denotes_integer.blank_append hblanks),
          List.forall_mem_singleton.2 hlength⟩
      · cases hn
    · cases hstep
  · cases hstep
  · cases hstep

theorem reads_takeName (h : Opened p frames integers) (hblanks : Blank blanks)
    {before : Text} (hbefore : Blank before) (members : List Member)
    (hnames : ∀ m ∈ members, Name m.nameText m.name)
    (hmembers : ∀ m ∈ members, Denotes m.text m.value m.integers) (htoken : token.Spells t)
    (hstep : takeName (membersOf members) frames ⟨token, rest⟩ = .ok next) :
    Reads (p ++ (blanks ++ ('{' : CodePoint) :: membersText members) ++ (before ++ t)) next
        (integers ++ members.flatMap (·.integers) ++ token.integers) ∧
      ∀ d ∈ token.integers, d.length ≤ Numeral.digitLimit := by
  rw [takeName] at hstep
  split at hstep
  · next s htk =>
    cases htk
    cases hstep
    have hname : Name (before ++ (t ++ [])) s := .padded hbefore htoken.str blank_nil
    exact ⟨by simpa [Token.integers] using Reads.colon h hblanks members hnames hmembers hname,
      nofun⟩
  · cases hstep
  · cases hstep

theorem reads_firstItem (h : Opened p frames integers) (hblanks : Blank blanks) {before : Text}
    (hbefore : Blank before) (htoken : token.Spells t)
    (hstep : (firstItem frames).step ⟨token, rest⟩ = .ok next) :
    Reads (p ++ (blanks ++ [('[' : CodePoint)]) ++ (before ++ t)) next
        (integers ++ token.integers) ∧
      ∀ d ∈ token.integers, d.length ≤ Numeral.digitLimit := by
  by_cases hclose : token = .closeArray
  · subst hclose
    cases hstep
    cases htoken
    have := Reads.complete h ((Denotes.emptyArray hbefore).blank_append hblanks)
    exact ⟨by simpa [Token.integers] using this, nofun⟩
  · rw [takesValue_firstItem frames _ hclose] at hstep
    exact reads_takeValue (h.bracket hblanks) hbefore htoken hstep

theorem reads_firstName (h : Opened p frames integers) (hblanks : Blank blanks) {before : Text}
    (hbefore : Blank before) (htoken : token.Spells t)
    (hstep : (firstName frames).step ⟨token, rest⟩ = .ok next) :
    Reads (p ++ (blanks ++ [('{' : CodePoint)]) ++ (before ++ t)) next
        (integers ++ token.integers) ∧
      ∀ d ∈ token.integers, d.length ≤ Numeral.digitLimit := by
  by_cases hclose : token = .closeObject
  · subst hclose
    cases hstep
    cases htoken
    have := Reads.complete h ((Denotes.emptyObject hbefore).blank_append hblanks)
    exact ⟨by simpa [Token.integers] using this, nofun⟩
  · rw [takesName_firstName frames _ hclose] at hstep
    have := reads_takeName h hblanks hbefore [] nofun nofun htoken hstep
    rwa [List.flatMap_nil, List.append_nil] at this

/-- Behind an item, the array goes on or ends. -/
theorem reads_item (h : Opened p frames integers) (hblanks : Blank blanks) (items : List Item)
    (hitems : ∀ i ∈ items, Denotes i.text i.value i.integers) {before text : Text} {v : Json}
    {integers' : List Text} (hv : Denotes text v integers') (hbefore : Blank before)
    (htoken : token.Spells t)
    (hstep : (complete v (.array (items.map Item.value).reverse :: frames)).step ⟨token, rest⟩ =
      .ok next) :
    Reads (p ++ (blanks ++ ('[' : CodePoint) :: itemsText items) ++ text ++ (before ++ t)) next
        (integers ++ items.flatMap Item.integers ++ integers' ++ token.integers) ∧
      ∀ d ∈ token.integers, d.length ≤ Numeral.digitLimit := by
  have hitem := hv.append_blank hbefore
  cases token <;> cases hstep
  case comma =>
    cases htoken
    have hopened := Opened.array h hblanks (items ++ [⟨text ++ before, v, integers'⟩])
      (by simpa [or_imp, forall_and] using ⟨hitems, hitem⟩)
    exact ⟨by simpa [itemsText, Token.integers] using Reads.value hopened, nofun⟩
  case closeArray =>
    cases htoken
    have harray := @Denotes.array items ⟨text ++ before, v, integers'⟩ hitems hitem
    exact ⟨by simpa [Token.integers] using Reads.complete h (harray.blank_append hblanks), nofun⟩

/-- Behind a member, the object goes on or ends. -/
theorem reads_member (h : Opened p frames integers) (hblanks : Blank blanks)
    (members : List Member) (hnames : ∀ m ∈ members, Name m.nameText m.name)
    (hmembers : ∀ m ∈ members, Denotes m.text m.value m.integers) {nameText n : Text}
    (hname : Name nameText n) {before text : Text} {v : Json} {integers' : List Text}
    (hv : Denotes text v integers') (hbefore : Blank before) (htoken : token.Spells t)
    (hstep : (complete v (.object (membersOf members) n :: frames)).step ⟨token, rest⟩ =
      .ok next) :
    Reads (p ++ (blanks ++ ('{' : CodePoint) :: (membersText members ++
          (nameText ++ [(':' : CodePoint)]))) ++ text ++ (before ++ t)) next
        (integers ++ members.flatMap (·.integers) ++ integers' ++ token.integers) ∧
      ∀ d ∈ token.integers, d.length ≤ Numeral.digitLimit := by
  have hitem := hv.append_blank hbefore
  have hinsert := membersOf_append_singleton members ⟨⟨text ++ before, v, integers'⟩, nameText, n⟩
  cases token <;> cases hstep
  case comma =>
    cases htoken
    have hread := Reads.name h hblanks (members ++ [⟨⟨text ++ before, v, integers'⟩, nameText, n⟩])
      (by simpa [or_imp, forall_and] using ⟨hnames, hname⟩)
      (by simpa [or_imp, forall_and] using ⟨hmembers, hitem⟩)
      (List.append_ne_nil_of_right_ne_nil _ (List.cons_ne_nil _ _))
    rw [hinsert] at hread
    exact ⟨by simpa [membersText, memberText, Token.integers] using hread, nofun⟩
  case closeObject =>
    cases htoken
    have hobject := @Denotes.object members ⟨⟨text ++ before, v, integers'⟩, nameText, n⟩ hnames
      hname hmembers hitem
    rw [hinsert] at hobject
    exact ⟨by simpa [memberText, Token.integers] using
      Reads.complete h (hobject.blank_append hblanks), nofun⟩

/-- **One lexeme that is taken leads from a beginning to a longer one**, and its digits are not too
many. -/
theorem reads_step (h : Reads p state integers) (hblanks : Blank blanks) (htoken : token.Spells t)
    (hstep : state.step ⟨token, rest⟩ = .ok next) :
    Reads (p ++ (blanks ++ t)) next (integers ++ token.integers) ∧
      ∀ d ∈ token.integers, d.length ≤ Numeral.digitLimit := by
  cases h with
  | value h => exact reads_takeValue h hblanks htoken hstep
  | firstItem h hbefore => exact reads_firstItem h hbefore hblanks htoken hstep
  | firstName h hbefore => exact reads_firstName h hbefore hblanks htoken hstep
  | name h hbefore members hnames hmembers hne =>
    exact reads_takeName h hbefore hblanks members hnames hmembers htoken hstep
  | colon h hbefore members hnames hmembers hname =>
    cases token <;> cases hstep
    cases htoken
    have hopened := Opened.object h hbefore members hnames hmembers (hname.append_blank hblanks)
    exact ⟨by simpa [Token.integers] using Reads.value hopened, nofun⟩
  | complete h hv =>
    cases h with
    | top => cases token <;> cases hstep
    | array h hbefore items hitems =>
      exact reads_item h hbefore items hitems hv hblanks htoken hstep
    | object h hbefore members hnames hmembers hname =>
      exact reads_member h hbefore members hnames hmembers hname hv hblanks htoken hstep

/-! ### All lexemes -/

/-- The lexemes of a text lead from a beginning to one that ends before the white space at the end,
if all of them are taken. -/
theorem reads_list {s : Text} (h : Reads p state integers)
    (hshort : ∀ d ∈ integers, d.length ≤ Numeral.digitLimit)
    (hrun : (Lexeme.list s).foldlM step state = .ok next) :
    ∃ q blanks integers', p ++ s = q ++ blanks ∧ Blank blanks ∧ Reads q next integers' ∧
      ∀ d ∈ integers', d.length ≤ Numeral.digitLimit := by
  fun_induction Lexeme.list s generalizing p state integers with
  | case1 s hs =>
    cases hrun
    obtain ⟨blanks, hsplit, hblanks⟩ := exists_blank_append_skipBlanks s
    rw [hs, List.append_nil] at hsplit
    exact ⟨p, s, integers, rfl, hsplit ▸ hblanks, h, hshort⟩
  | case2 s c rest hs hlt ih =>
    rw [List.foldlM_cons, bind_eq_ok_iff] at hrun
    obtain ⟨middle, hstep, hrun⟩ := hrun
    rcases Token.spells_scan c rest with ⟨t, ht, htoken⟩ | ⟨hrefused, -⟩
    · obtain ⟨blanks, hsplit, hblanks⟩ := exists_blank_append_skipBlanks s
      obtain ⟨hreads, hdigits⟩ := reads_step h hblanks htoken hstep
      have hshort' := List.forall_mem_append.2 ⟨hshort, hdigits⟩
      obtain ⟨q, after, integers', hq, hrest⟩ := ih hreads hshort' hrun
      refine ⟨q, after, integers', ?_, hrest⟩
      rw [hsplit, hs, ht, ← hq]
      simp only [List.append_assoc]
    · obtain ⟨fault, hfault⟩ := step_of_refused hrefused state (c :: rest)
      rw [hfault] at hstep
      cases hstep

/-- At the end, a value has been completed and nothing is open. -/
theorem eq_complete_of_finish {v : Json} (h : state.finish = .ok v) : state = complete v [] := by
  rw [finish.eq_def] at h
  split at h
  · cases h
    rfl
  · cases h

end State

/-- **A text that was read denotes its value**, and none of its integers has too many digits. -/
theorem denotes_of_read {t : Text} {v : Json} (h : read t = .ok v) :
    ∃ integers, Denotes t v integers ∧ ∀ d ∈ integers, d.length ≤ Numeral.digitLimit := by
  obtain ⟨state, hrun, hfinish⟩ := bind_eq_ok_iff.1 h
  rw [State.eq_complete_of_finish hfinish] at hrun
  obtain ⟨q, blanks, integers, ht, hblanks, hreads, hshort⟩ :=
    State.reads_list (.value .top) nofun hrun
  rw [List.nil_append] at ht
  cases hreads with
  | complete hopened hv =>
    cases hopened
    rw [List.nil_append] at ht hshort
    exact ⟨_, ht ▸ hv.append_blank hblanks, hshort⟩

end Json

end JsonShelf
