import JsonShelf.Json.Printer
import JsonShelf.Proofs.Json.Recognition
import JsonShelf.Proofs.Json.WellFormed

/-!
# Reading undoes printing

The text of a well-formed value denotes this value, whatever is between its items: line breaks,
blanks or nothing. So it is read as the value, since the reader recognizes the grammar.

The printer puts a comma in front of every item but the first, and the grammar has one behind every
item but the last. The texts of all items are found together, from the text of the first one and
what is printed for the others.

## Main definitions

* `Style.Plain` — styles that put blanks behind separators and keep code points above ASCII

## Main results

* `readable_printAt` — the text of a value denotes it
* `read_print`, `readDocument_print` — reading undoes printing
* `print_reads_back` — the texts of files and of answers stand for what was printed
-/

namespace JsonShelf

namespace Json

open Grammar

/-! ### Styles -/

/-- Styles in which separators are a comma or a colon with blanks behind them, and code points above
ASCII are printed as they are. -/
structure Style.Plain (st : Style) : Prop where
  asciiOnly : st.asciiOnly = false
  itemSeparator : ∃ blanks, st.itemSeparator = (',' : CodePoint) :: blanks ∧ ∀ c ∈ blanks, IsBlank c
  nameSeparator : ∃ blanks, st.nameSeparator = (':' : CodePoint) :: blanks ∧ ∀ c ∈ blanks, IsBlank c

theorem Style.plain_compact : compact.Plain where
  asciiOnly := rfl
  itemSeparator := ⟨[], rfl, fun _ h => by cases h⟩
  nameSeparator := ⟨[], rfl, fun _ h => by cases h⟩

theorem isBlank_of_mem_space {c : CodePoint} (h : c ∈ ([' '] : Text)) : IsBlank c := by
  rw [List.mem_singleton.1 h]
  exact .inl rfl

theorem Style.plain_file (indent : Option Int) : (file indent).Plain := by
  refine ⟨rfl, ?_, [' '], rfl, fun _ => isBlank_of_mem_space⟩
  cases indent with
  | none => exact ⟨[' '], rfl, fun _ => isBlank_of_mem_space⟩
  | some n => exact ⟨[], rfl, fun _ h => by cases h⟩

/-- Lines start with blanks. -/
theorem Style.isBlank_of_mem_newLine {st : Style} {depth : Nat} {c : CodePoint}
    (h : c ∈ st.newLine depth) : IsBlank c := by
  rw [newLine] at h
  split at h
  · cases h
  · rcases List.mem_cons.1 h with rfl | h
    · exact .inr (.inr (.inl rfl))
    · rw [List.eq_of_mem_replicate h]
      exact .inl rfl

/-! ### Scalars -/

variable {st : Style}

theorem readable_word {t : Text} {v : Json} (h : Word t v) : Readable t v :=
  ⟨[], .word h, nofun⟩

theorem readable_int {n : Int} (h : (Numeral.ofNat n.natAbs).length ≤ Numeral.digitLimit) :
    Readable (Numeral.ofInt n) (.int n) := by
  have hn : signed (decide (n < 0)) (Numeral.toNat (Numeral.ofNat n.natAbs)) = n := by
    rw [signed, Numeral.toNat_ofNat]
    split
    · next hneg =>
      have := of_decide_eq_true hneg
      omega
    · next hneg =>
      have := of_decide_eq_false (Bool.eq_false_iff.2 hneg)
      omega
  have hdenotes := Token.denotes_of_isInteger (Number.literal_ofInt n) rfl
  rw [Number.ofInt, hn] at hdenotes
  exact ⟨_, hdenotes, List.forall_mem_singleton.2 h⟩

theorem readable_double (x : Double) : Readable x.print (.double x) := by
  cases x with
  | nan => exact readable_word .nan
  | infinite negative =>
    cases negative with
    | false => exact readable_word .infinity
    | true => exact readable_word .minusInfinity
  | finite x =>
    obtain ⟨n, hliteral, hinteger, hdouble⟩ := Number.exists_literal_finite x
    have hdenotes := Token.denotes_of_not_isInteger hliteral hinteger
    rw [hdouble] at hdenotes
    exact ⟨[], hdenotes, nofun⟩

theorem str_print (s : Text) : Str (Quoted.print false s) s := by
  rw [Quoted.print, List.cons_append]
  exact .quoted (Quoted.body_printed s)

/-! ### Arrays -/

theorem blank_newLine (st : Style) (depth : Nat) : Blank (st.newLine depth) :=
  blank_iff.2 fun _ => Style.isBlank_of_mem_newLine

/-- The item denotes its value, and none of its integers has too many digits. -/
def Grammar.Item.Readable (item : Item) : Prop :=
  Denotes item.text item.value item.integers ∧
    ∀ d ∈ item.integers, d.length ≤ Numeral.digitLimit

theorem Readable.exists_item {t : Text} {v : Json} (h : Readable t v) :
    ∃ item : Item, item.text = t ∧ item.value = v ∧ item.Readable := by
  obtain ⟨integers, hdenotes, hshort⟩ := h
  exact ⟨⟨t, v, integers⟩, rfl, rfl, hdenotes, hshort⟩

theorem Readable.padded {t before after : Text} {v : Json} (h : Readable t v)
    (hbefore : Blank before) (hafter : Blank after) : Readable (before ++ (t ++ after)) v := by
  obtain ⟨integers, hdenotes, hshort⟩ := h
  exact ⟨integers, .padded hbefore hafter hdenotes, hshort⟩

theorem readable_array {items : List Item} {last : Item} (hitems : ∀ i ∈ items, i.Readable)
    (hlast : last.Readable) :
    Readable (('[' : CodePoint) :: (itemsText items ++ (last.text ++ [(']' : CodePoint)])))
      (.arr (items.map Item.value ++ [last.value])) := by
  refine ⟨_, .array (fun i hi => (hitems i hi).1) hlast.1, ?_⟩
  simp only [List.forall_mem_append, List.mem_flatMap, forall_exists_index, and_imp]
  exact ⟨fun d i hi hd => (hitems i hi).2 d hd, hlast.2⟩

/-- The texts of all items, from the text of the first one and what is printed for the others. The
last one takes the white space before the bracket. -/
theorem exists_items (hst : st.Plain) {depth : Nat} {items : List Json}
    (h : ∀ item ∈ items, Readable (printAt st depth item) item) {t : Text} {v : Json}
    (hv : Readable t v) {after : Text} (hafter : Blank after) :
    ∃ (init : List Item) (last : Item), (∀ i ∈ init, i.Readable) ∧ last.Readable ∧
      t ++ (printItems st depth items ++ after) = itemsText init ++ last.text ∧
      v :: items = init.map Item.value ++ [last.value] := by
  induction items generalizing t v with
  | nil =>
    obtain ⟨last, htext, hvalue, hlast⟩ := (hv.padded blank_nil hafter).exists_item
    refine ⟨[], last, nofun, hlast, ?_, by rw [hvalue]; rfl⟩
    rw [htext, printItems]
    rfl
  | cons item items ih =>
    obtain ⟨hitem, hitems⟩ := List.forall_mem_cons.1 h
    obtain ⟨blanks, hsep, hblanks⟩ := hst.itemSeparator
    obtain ⟨first, rfl, rfl, hfirst⟩ := hv.exists_item
    have hnext := (hitem.padded (blank_newLine st depth) blank_nil).padded (blank_iff.2 hblanks)
      blank_nil
    obtain ⟨init, last, hinit, hlast, htext, hvalues⟩ := ih hitems hnext
    refine ⟨first :: init, last, List.forall_mem_cons.2 ⟨hfirst, hinit⟩, hlast, ?_, ?_⟩
    · simp only [printItems, hsep, itemsText, List.flatMap_cons, List.append_assoc,
        List.cons_append, List.nil_append, List.append_nil] at htext ⊢
      rw [htext]
    · rw [hvalues]
      rfl

theorem readable_printAt_arr (hst : st.Plain) {items : List Json}
    (h : ∀ item ∈ items, ∀ depth, Readable (printAt st depth item) item) (depth : Nat) :
    Readable (printAt st depth (arr items)) (arr items) := by
  cases items with
  | nil => exact ⟨[], .emptyArray blank_nil, nofun⟩
  | cons item items =>
    obtain ⟨hitem, hitems⟩ := List.forall_mem_cons.1 h
    have hfirst := (hitem (depth + 1)).padded (blank_newLine st (depth + 1)) blank_nil
    obtain ⟨init, last, hinit, hlast, htext, hvalues⟩ :=
      exists_items hst (fun i hi => hitems i hi (depth + 1)) hfirst (blank_newLine st depth)
    have harray := readable_array hinit hlast
    rw [← hvalues, ← List.append_assoc, ← htext] at harray
    simpa only [printAt, List.append_assoc, List.cons_append, List.append_nil] using harray

/-! ### Objects -/

theorem lastValues_of_nodup {members : Members} (h : (KeyedList.keys members).Nodup) :
    lastValues members = members := by
  induction members using List.reverseRecOn with
  | nil => rfl
  | append_singleton members m ih =>
    obtain ⟨n, v⟩ := m
    rw [KeyedList.keys, List.map_append, List.nodup_append] at h
    obtain ⟨hmembers, -, hne⟩ := h
    have hn : n ∉ KeyedList.keys members := fun hn => hne n hn n (List.mem_singleton_self _) rfl
    rw [lastValues_append_singleton, ih hmembers, KeyedList.insert_of_not_mem hn]

/-- The member denotes its name and its value, and none of its integers has too many digits. -/
def Grammar.Member.Readable (m : Member) : Prop := Name m.nameText m.name ∧ m.toItem.Readable

theorem name_print {before : Text} (h : Blank before) (n : Text) :
    Name (before ++ Quoted.print false n) n := by
  rw [← List.append_nil (Quoted.print false n)]
  exact .padded h (str_print n) blank_nil

theorem readable_object {members : List Member} {last : Member}
    (hmembers : ∀ m ∈ members, m.Readable) (hlast : last.Readable) :
    Readable (('{' : CodePoint) :: (membersText members ++ (memberText last ++
      [('}' : CodePoint)]))) (.obj (membersOf (members ++ [last]))) := by
  refine ⟨_, .object (fun m hm => (hmembers m hm).1) hlast.1 (fun m hm => (hmembers m hm).2.1)
    hlast.2.1, ?_⟩
  simp only [List.forall_mem_append, List.mem_flatMap, forall_exists_index, and_imp]
  exact ⟨fun d m hm hd => (hmembers m hm).2.2 d hd, hlast.2.2⟩

/-- The texts of all members, from the name and the text of the first one and what is printed for
the others. The last one takes the white space before the bracket. -/
theorem exists_members (hst : st.Plain) {depth : Nat} {members : Members}
    (h : ∀ m ∈ members, Readable (printAt st depth m.2) m.2) {nameText n t : Text} {v : Json}
    (hname : Name nameText n) (hv : Readable t v) {after : Text} (hafter : Blank after) :
    ∃ (init : List Member) (last : Member), (∀ m ∈ init, m.Readable) ∧ last.Readable ∧
      nameText ++ (':' : CodePoint) :: (t ++ (printMembers st depth members ++ after)) =
        membersText init ++ memberText last ∧
      (n, v) :: members = (init ++ [last]).map fun m => (m.name, m.value) := by
  induction members generalizing nameText n t v with
  | nil =>
    obtain ⟨last, htext, rfl, hlast⟩ := (hv.padded blank_nil hafter).exists_item
    refine ⟨[], ⟨last, nameText, n⟩, nofun, ⟨hname, hlast⟩, ?_, rfl⟩
    rw [memberText, htext, printMembers]
    rfl
  | cons m members ih =>
    obtain ⟨hmember, hmembers⟩ := List.forall_mem_cons.1 h
    obtain ⟨blanks, hsep, hblanks⟩ := hst.itemSeparator
    obtain ⟨blanks', hsep', hblanks'⟩ := hst.nameSeparator
    obtain ⟨first, rfl, rfl, hfirst⟩ := hv.exists_item
    have hbefore : Blank (blanks ++ st.newLine depth) :=
      List.forall_mem_append.2 ⟨blank_iff.2 hblanks, blank_newLine st depth⟩
    obtain ⟨init, last, hinit, hlast, htext, hvalues⟩ := ih hmembers (name_print hbefore m.1)
      (hmember.padded (blank_iff.2 hblanks') blank_nil)
    refine ⟨⟨first, nameText, n⟩ :: init, last, List.forall_mem_cons.2 ⟨⟨hname, hfirst⟩, hinit⟩,
      hlast, ?_, ?_⟩
    · simp only [printMembers, hst.asciiOnly, hsep, hsep', membersText, memberText,
        List.flatMap_cons, List.append_assoc, List.cons_append, List.nil_append,
        List.append_nil] at htext ⊢
      rw [htext]
    · rw [List.cons_append, List.map_cons, ← hvalues]

theorem readable_printAt_obj (hst : st.Plain) {members : Members}
    (hkeys : (KeyedList.keys members).Nodup)
    (h : ∀ m ∈ members, ∀ depth, Readable (printAt st depth m.2) m.2) (depth : Nat) :
    Readable (printAt st depth (obj members)) (obj members) := by
  cases members with
  | nil => exact ⟨[], .emptyObject blank_nil, nofun⟩
  | cons m members =>
    obtain ⟨hmember, hmembers⟩ := List.forall_mem_cons.1 h
    obtain ⟨blanks, hsep, hblanks⟩ := hst.nameSeparator
    obtain ⟨init, last, hinit, hlast, htext, hvalues⟩ := exists_members hst
      (fun m hm => hmembers m hm (depth + 1)) (name_print (blank_newLine st (depth + 1)) m.1)
      ((hmember (depth + 1)).padded (blank_iff.2 hblanks) blank_nil) (blank_newLine st depth)
    have hobject := readable_object hinit hlast
    rw [membersOf, ← hvalues, lastValues_of_nodup hkeys, ← List.append_assoc, ← htext] at hobject
    simpa only [printAt, hst.asciiOnly, hsep, List.append_assoc, List.cons_append,
      List.append_nil] using hobject

/-! ### Documents -/

/-- **The text of a well-formed value denotes the value**, at any depth. -/
theorem readable_printAt (hst : st.Plain) {v : Json} (hv : v.WellFormed) (depth : Nat) :
    Readable (printAt st depth v) v := by
  induction hv generalizing depth with
  | null => exact readable_word .null
  | bool b =>
    cases b with
    | false => exact readable_word .false
    | true => exact readable_word .true
  | int hn => exact readable_int hn
  | double x => exact readable_double x
  | str s =>
    rw [printAt, hst.asciiOnly]
    exact ⟨[], .string (str_print s), nofun⟩
  | arr hitems ih => exact readable_printAt_arr hst ih depth
  | obj hkeys hmembers ih => exact readable_printAt_obj hst hkeys ih depth

/-- **Reading undoes printing.** -/
theorem read_print (hst : st.Plain) {v : Json} (hv : v.WellFormed) : read (v.print st) = .ok v :=
  read_eq_ok_iff.2 (readable_printAt hst hv 0)

theorem readDocument_print (hst : st.Plain) {v : Json} (hv : v.WellFormed) :
    readDocument (v.print st) = .ok v :=
  readDocument_eq_ok_iff.2 (read_print hst hv)

/-- **Every printed text is read as the value that was printed.** This holds for the texts of files,
whatever the indentation, and for the texts of answers, which are made for finite values only. -/
theorem print_reads_back {v : Json} (hv : v.WellFormed) :
    (∀ indent : Option Int, readDocument (v.print (Style.file indent)) = .ok v) ∧
      (v.allFinite → readDocument (v.print Style.compact) = .ok v) :=
  ⟨fun indent => readDocument_print (Style.plain_file indent) hv,
    fun _ => readDocument_print Style.plain_compact hv⟩

/-- Names that are not in order, halves of a pair side by side, a byte order mark, a control
character, and the zero below zero. -/
theorem print_reads_back_halves :
    let high : CodePoint := .ofNat 0xD83D
    let low : CodePoint := .ofNat 0xDE00
    let v : Json :=
      .obj [(Text.ofString "b", .arr [.int (-7), .double (.finite (.zero true)), .obj []]),
        ([], .str [high, low, .byteOrderMark, '"', '\\', .ofNat 1]), ([low], .arr [])]
    v.WellFormed ∧ v.allFinite ∧
      readDocument (v.print (Style.file (some (-1)))) = .ok v ∧
      readDocument (v.print Style.compact) = .ok v := by
  intro high low v
  have hv : v.WellFormed := by
    refine .obj (by decide) ?_
    simp only [List.forall_mem_cons]
    refine ⟨.arr ?_, .str _, .arr nofun, nofun⟩
    simp only [List.forall_mem_cons]
    exact ⟨.int (by decide +kernel), .double _, .nil, nofun⟩
  have hfinite : v.allFinite := by decide
  obtain ⟨hfile, hcompact⟩ := print_reads_back hv
  exact ⟨hv, hfinite, hfile (some (-1)), hcompact hfinite⟩

end Json

end JsonShelf
