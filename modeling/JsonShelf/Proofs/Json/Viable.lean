import JsonShelf.Proofs.Json.RoundTrip

/-!
# Faults are told in time

A text that is refused has its fault at a spot up to which nothing is wrong yet: what is before the
spot can be completed to a text with a value. How, can be told from the state in which reading
stands. A value is put where one is waited for, and then the arrays and objects that are open are
closed one after the other, from the innermost out.

Only a string can have its fault in its inside, and such a fault is told only where a string may
come. The beginning of the string is completed first then. Every other fault is told where a lexeme
starts that is not taken, or at the end of the text.

The digits of the integers are carried along, so that the completed text has no integer of too many
digits either.

## Main definitions

* `Viable` — beginnings of texts with a value
* `State.TakesString` — the states in which a string may come

## Main results

* `Opened.viable` — what is open can be closed behind any value
* `State.Reads.viable`, `State.Reads.viable_string` — what led to a state can be completed
* `State.viable_of_foldlM_step` — no fault of a lexeme is told too late
* `viable_of_readDocument` — no fault of a text is told too late
-/

namespace JsonShelf

namespace Json

open Grammar

/-- The beginning of a text that is read as a value. -/
def Viable (t : Text) : Prop := ∃ rest v, Readable (t ++ rest) v

theorem Viable.of_append {t : Text} (rest : Text) (h : Viable (t ++ rest)) : Viable t := by
  obtain ⟨rest', v, h⟩ := h
  exact ⟨rest ++ rest', v, by rwa [← List.append_assoc]⟩

theorem viable_nil : Viable [] := ⟨_, _, readable_word .null⟩

variable {p t blanks nameText n s : Text} {v : Json} {frames : List Frame} {integers : List Text}
  {fault : Fault}

/-! ### Closing what is open -/

theorem readable_items {items : List Item} (hitems : ∀ i ∈ items, Denotes i.text i.value i.integers)
    (hshort : ∀ d ∈ items.flatMap Item.integers, d.length ≤ Numeral.digitLimit) :
    ∀ i ∈ items, i.Readable :=
  fun i hi => ⟨hitems i hi, fun d hd => hshort d (List.mem_flatMap.2 ⟨i, hi, hd⟩)⟩

theorem readable_members {members : List Member} (hnames : ∀ m ∈ members, Name m.nameText m.name)
    (hmembers : ∀ m ∈ members, Denotes m.text m.value m.integers)
    (hshort : ∀ d ∈ members.flatMap (·.integers), d.length ≤ Numeral.digitLimit) :
    ∀ m ∈ members, m.Readable :=
  fun m hm => ⟨hnames m hm, hmembers m hm, fun d hd => hshort d (List.mem_flatMap.2 ⟨m, hm, hd⟩)⟩

/-- **What is open can be closed behind any value.** -/
theorem Opened.viable (h : Opened p frames integers)
    (hshort : ∀ d ∈ integers, d.length ≤ Numeral.digitLimit) (ht : Readable t v) :
    Viable (p ++ t) := by
  induction h generalizing t v with
  | top => exact ⟨[], v, by rwa [List.nil_append, List.append_nil]⟩
  | array h hblanks items hitems ih =>
    obtain ⟨hbefore, hshort⟩ := List.forall_mem_append.1 hshort
    obtain ⟨last, rfl, rfl, hlast⟩ := ht.exists_item
    have harray := readable_array (readable_items hitems hshort) hlast
    have hviable := ih hbefore (harray.padded hblanks blank_nil)
    refine .of_append [(']' : CodePoint)] ?_
    simpa only [List.append_assoc, List.cons_append, List.append_nil] using hviable
  | @object p blanks nameText n _ _ h hblanks members hnames hmembers hname ih =>
    obtain ⟨hbefore, hshort⟩ := List.forall_mem_append.1 hshort
    obtain ⟨last, rfl, rfl, hlast⟩ := ht.exists_item
    have hobject := @readable_object members ⟨last, nameText, n⟩
      (readable_members hnames hmembers hshort) ⟨hname, hlast⟩
    have hviable := ih hbefore (hobject.padded hblanks blank_nil)
    refine .of_append [('}' : CodePoint)] ?_
    simpa only [memberText, List.append_assoc, List.cons_append, List.append_nil,
      List.nil_append] using hviable

/-- Behind the name of a member, a colon and a value can come. -/
theorem Opened.viable_name (h : Opened p frames integers) (hblanks : Blank blanks)
    (members : List Member) (hnames : ∀ m ∈ members, Name m.nameText m.name)
    (hmembers : ∀ m ∈ members, Denotes m.text m.value m.integers) (hname : Name nameText n)
    (hshort : ∀ d ∈ integers ++ members.flatMap (·.integers), d.length ≤ Numeral.digitLimit) :
    Viable (p ++ (blanks ++ ('{' : CodePoint) :: (membersText members ++ nameText))) := by
  have hopened := h.object hblanks members hnames hmembers hname
  have hviable := (hopened.viable hshort (readable_word .null)).of_append
  refine .of_append [(':' : CodePoint)] ?_
  simpa only [List.append_assoc, List.cons_append] using hviable

/-! ### What led to a state -/

namespace State

variable {state : State}

/-- The states in which a string may come, as a value or as the name of a member. -/
inductive TakesString : State → Prop
  | value (frames : List Frame) : TakesString (.value frames)
  | firstItem (frames : List Frame) : TakesString (.firstItem frames)
  | firstName (frames : List Frame) : TakesString (.firstName frames)
  | name (members : Members) (frames : List Frame) : TakesString (.name members frames)

/-- **What led to a state can be completed behind a string**, if one may come. -/
theorem Reads.viable_string (h : Reads p state integers)
    (hshort : ∀ d ∈ integers, d.length ≤ Numeral.digitLimit) (hstate : state.TakesString)
    (hblanks : Blank blanks) (hs : Str t s) : Viable (p ++ (blanks ++ t)) := by
  have hvalue : Readable (blanks ++ t) (.str s) :=
    ⟨[], (Denotes.string hs).blank_append hblanks, List.forall_mem_nil _⟩
  have hname : Name (blanks ++ t) s := by
    have := Name.padded hblanks hs blank_nil
    rwa [List.append_nil] at this
  cases h with
  | value h => exact h.viable hshort hvalue
  | firstItem h hbefore => exact (h.bracket hbefore).viable hshort hvalue
  | firstName h hbefore =>
    rw [← List.append_nil integers] at hshort
    have hviable := h.viable_name hbefore [] (List.forall_mem_nil _) (List.forall_mem_nil _) hname
      hshort
    simpa [membersText] using hviable
  | name h hbefore members hnames hmembers _ =>
    simpa using h.viable_name hbefore members hnames hmembers hname hshort
  | colon | complete => cases hstate

/-- **What led to a state can be completed**, also behind further white space. -/
theorem Reads.viable (h : Reads p state integers)
    (hshort : ∀ d ∈ integers, d.length ≤ Numeral.digitLimit) (hblanks : Blank blanks) :
    Viable (p ++ blanks) := by
  have hstring : state.TakesString → Viable (p ++ blanks) := by
    intro hstate
    have hviable := h.viable_string hshort hstate hblanks (.quoted .nil)
    rw [← List.append_assoc] at hviable
    exact hviable.of_append
  cases h with
  | value => exact hstring (.value _)
  | firstItem => exact hstring (.firstItem _)
  | firstName => exact hstring (.firstName _)
  | name => exact hstring (.name _ _)
  | colon h hbefore members hnames hmembers hname =>
    simpa using h.viable_name hbefore members hnames hmembers (hname.append_blank hblanks) hshort
  | complete h hv =>
    obtain ⟨hbefore, hvalue⟩ := List.forall_mem_append.1 hshort
    rw [List.append_assoc]
    exact h.viable hbefore ⟨_, hv.append_blank hblanks, hvalue⟩

/-! ### Faults -/

theorem takeValue_eq_fault {lexeme : Lexeme} (h : takeValue frames lexeme = .error (.fault fault)) :
    fault.rest = lexeme.rest ∨ lexeme.token = .badString fault := by
  rw [takeValue] at h
  split at h
  · cases h
  · cases h
  · cases h
  · cases h
  · split at h <;> cases h
  · next htoken =>
    cases h
    exact .inr htoken
  · cases h
    exact .inl rfl

theorem takeName_eq_fault {members : Members} {lexeme : Lexeme}
    (h : takeName members frames lexeme = .error (.fault fault)) :
    fault.rest = lexeme.rest ∨ lexeme.token = .badString fault := by
  rw [takeName] at h
  split at h
  · cases h
  · next htoken =>
    cases h
    exact .inr htoken
  · cases h
    exact .inl rfl

/-- A lexeme is refused where it starts, unless a string may come and the lexeme is one that cannot
be read. -/
theorem step_eq_fault {lexeme : Lexeme} (h : state.step lexeme = .error (.fault fault)) :
    fault.rest = lexeme.rest ∨ state.TakesString ∧ lexeme.token = .badString fault := by
  rw [step.eq_def] at h
  split at h
  · exact (takeValue_eq_fault h).imp_right (⟨.value _, ·⟩)
  · cases h
  · exact (takeValue_eq_fault h).imp_right (⟨.firstItem _, ·⟩)
  · cases h
  · exact (takeName_eq_fault h).imp_right (⟨.firstName _, ·⟩)
  · exact (takeName_eq_fault h).imp_right (⟨.name _ _, ·⟩)
  all_goals cases h
  exact .inl rfl

/-- What is before the fault of the next lexeme can be completed. -/
theorem viable_of_step (h : Reads p state integers)
    (hshort : ∀ d ∈ integers, d.length ≤ Numeral.digitLimit) (hblanks : Blank blanks)
    {c : CodePoint} {rest : Text}
    (hstep : state.step ⟨(Token.scan c rest).1, c :: rest⟩ = .error (.fault fault)) :
    ∃ before, p ++ (blanks ++ c :: rest) = before ++ fault.rest ∧ Viable before := by
  have hstart : fault.rest = c :: rest →
      ∃ before, p ++ (blanks ++ c :: rest) = before ++ fault.rest ∧ Viable before := by
    intro hrest
    exact ⟨p ++ blanks, by rw [hrest, List.append_assoc], h.viable hshort hblanks⟩
  rcases step_eq_fault hstep with hrest | ⟨hstate, htoken⟩
  · exact hstart hrest
  · rcases Token.exists_str_of_badString htoken with hrest | ⟨t, behind, s, ht, hs⟩
    · exact hstart hrest
    · refine ⟨p ++ (blanks ++ t), by rw [ht, List.append_assoc, List.append_assoc], ?_⟩
      have hviable := h.viable_string hshort hstate hblanks hs
      rw [← List.append_assoc, ← List.append_assoc, List.append_assoc p] at hviable
      exact hviable.of_append

/-- **No fault of a lexeme is told too late**: what is before it can be completed. -/
theorem viable_of_foldlM_step (h : Reads p state integers)
    (hshort : ∀ d ∈ integers, d.length ≤ Numeral.digitLimit)
    (hrun : (Lexeme.list s).foldlM step state = .error (.fault fault)) :
    ∃ before, p ++ s = before ++ fault.rest ∧ Viable before := by
  fun_induction Lexeme.list s generalizing p state integers with
  | case1 => cases hrun
  | case2 s c rest hs hlt ih =>
    obtain ⟨blanks, hsplit, hblanks⟩ := exists_blank_append_skipBlanks s
    rw [hs] at hsplit
    rw [List.foldlM_cons, bind_eq_error_iff] at hrun
    rcases hrun with hstep | ⟨middle, hstep, hrun⟩
    · rw [hsplit]
      exact viable_of_step h hshort hblanks hstep
    · rcases Token.spells_scan c rest with ⟨t, ht, htoken⟩ | ⟨hrefused, -⟩
      · obtain ⟨hreads, hdigits⟩ := reads_step h hblanks htoken hstep
        obtain ⟨before, hbefore, hviable⟩ :=
          ih hreads (List.forall_mem_append.2 ⟨hshort, hdigits⟩) hrun
        refine ⟨before, ?_, hviable⟩
        rw [← hbefore, hsplit, ht]
        simp only [List.append_assoc]
      · obtain ⟨fault', hfault⟩ := step_of_refused hrefused state (c :: rest)
        rw [hfault] at hstep
        cases hstep

theorem finish_eq_fault (h : state.finish = .error (.fault fault)) : fault.rest = [] := by
  rw [finish.eq_def] at h
  split at h
  · cases h
  · cases h
    rfl

end State

theorem viable_of_read (h : read t = .error (.fault fault)) :
    ∃ before, t = before ++ fault.rest ∧ Viable before := by
  rcases bind_eq_error_iff.1 h with hrun | ⟨state, hrun, hfinish⟩
  · exact State.viable_of_foldlM_step (.value .top) nofun hrun
  · obtain ⟨q, blanks, integers, ht, hblanks, hreads, hshort⟩ :=
      State.reads_list (.value .top) nofun hrun
    refine ⟨t, by rw [State.finish_eq_fault hfinish, List.append_nil], ?_⟩
    rw [List.nil_append] at ht
    exact ht ▸ hreads.viable hshort hblanks

/-- **No fault of a text is told too late**: what is before it is the beginning of a text that is
read as a value. -/
theorem viable_of_readDocument (h : readDocument t = .error (.fault fault)) :
    ∃ before, t = before ++ fault.rest ∧ Viable before := by
  rw [readDocument] at h
  split at h
  · cases h
    exact ⟨[], rfl, viable_nil⟩
  · exact viable_of_read h

end Json

end JsonShelf
