import JsonShelf.Proofs.Encoding.RoundTrip
import JsonShelf.Proofs.Json.RoundTrip

/-!
# The code points of printed texts

Styles that keep code points above ASCII differ in ASCII characters only, and the text of a value
holds the texts of the values and names inside of it, and ASCII characters besides. So whatever the
text of a part needs an encoding for, the text of the whole needs it as well, and the text of the
whole needs nothing else, even if they are printed in different styles.

What UTF-8 lacks are the halves of surrogate pairs, and no other encoding has them either. So the
parts of a document that is stored somewhere can be stored in UTF-8, and so can a document that is
put together from such parts.

## Main definitions

* `Json.Storable` — values that have a text in UTF-8

## Main results

* `Json.mem_printAt_of_plain` — from one style to another one
* `Json.hereditary_storable` — from the parts of a document to the document, and back
* `Json.storable_iff_exists_encode` — storable values can be encoded
-/

namespace JsonShelf

namespace Json

variable {st st' : Style} {c : CodePoint}

theorem val_lt_of_isBlank (h : IsBlank c) : c.val < 0x80 := by
  rcases h with h | h | h | h <;> omega

theorem Style.Plain.val_lt_of_mem_itemSeparator (hst : st.Plain) (h : c ∈ st.itemSeparator) :
    c.val < 0x80 := by
  obtain ⟨blanks, hsep, hblanks⟩ := hst.itemSeparator
  rw [hsep] at h
  rcases List.mem_cons.1 h with rfl | h
  · decide
  · exact val_lt_of_isBlank (hblanks c h)

theorem Style.Plain.val_lt_of_mem_nameSeparator (hst : st.Plain) (h : c ∈ st.nameSeparator) :
    c.val < 0x80 := by
  obtain ⟨blanks, hsep, hblanks⟩ := hst.nameSeparator
  rw [hsep] at h
  rcases List.mem_cons.1 h with rfl | h
  · decide
  · exact val_lt_of_isBlank (hblanks c h)

theorem Style.val_lt_of_mem_newLine {depth : Nat} (h : c ∈ st.newLine depth) : c.val < 0x80 :=
  val_lt_of_isBlank (Style.isBlank_of_mem_newLine h)

/-! ### Items and members -/

theorem mem_printItems (hst : st.Plain) {depth : Nat} {items : List Json}
    (h : c ∈ printItems st depth items) :
    c.val < 0x80 ∨ ∃ item ∈ items, c ∈ printAt st depth item := by
  induction items with
  | nil => rw [printItems] at h; cases h
  | cons item items ih =>
    simp only [printItems, List.mem_append] at h
    rcases h with ((h | h) | h) | h
    · exact .inl (hst.val_lt_of_mem_itemSeparator h)
    · exact .inl (Style.val_lt_of_mem_newLine h)
    · exact .inr ⟨item, List.mem_cons_self .., h⟩
    · refine (ih h).imp_right ?_
      rintro ⟨item', hitem', h⟩
      exact ⟨item', List.mem_cons_of_mem _ hitem', h⟩

theorem mem_printItems_of_mem {depth : Nat} {items : List Json} {item : Json}
    (hitem : item ∈ items) (h : c ∈ printAt st depth item) : c ∈ printItems st depth items := by
  induction items with
  | nil => cases hitem
  | cons item' items ih =>
    simp only [printItems, List.mem_append]
    rcases List.mem_cons.1 hitem with rfl | hitem
    · exact .inl (.inr h)
    · exact .inr (ih hitem)

theorem mem_printMembers (hst : st.Plain) {depth : Nat} {members : Members}
    (h : c ∈ printMembers st depth members) :
    c.val < 0x80 ∨ ∃ m ∈ members, c ∈ Quoted.print false m.1 ∨ c ∈ printAt st depth m.2 := by
  induction members with
  | nil => rw [printMembers] at h; cases h
  | cons m members ih =>
    simp only [printMembers, hst.asciiOnly, List.mem_append] at h
    rcases h with ((((h | h) | h) | h) | h) | h
    · exact .inl (hst.val_lt_of_mem_itemSeparator h)
    · exact .inl (Style.val_lt_of_mem_newLine h)
    · exact .inr ⟨m, List.mem_cons_self .., .inl h⟩
    · exact .inl (hst.val_lt_of_mem_nameSeparator h)
    · exact .inr ⟨m, List.mem_cons_self .., .inr h⟩
    · refine (ih h).imp_right ?_
      rintro ⟨m', hm', h⟩
      exact ⟨m', List.mem_cons_of_mem _ hm', h⟩

theorem mem_printMembers_of_mem (hst : st.Plain) {depth : Nat} {members : Members}
    {m : Text × Json} (hm : m ∈ members)
    (h : c ∈ Quoted.print false m.1 ∨ c ∈ printAt st depth m.2) :
    c ∈ printMembers st depth members := by
  induction members with
  | nil => cases hm
  | cons m' members ih =>
    simp only [printMembers, hst.asciiOnly, List.mem_append]
    rcases List.mem_cons.1 hm with rfl | hm
    · exact .inl (h.elim (fun h => .inl (.inl (.inr h))) .inr)
    · exact .inr (ih hm)

/-! ### Arrays and objects -/

theorem mem_printAt_arr_cons {depth : Nat} {item : Json} {items : List Json} :
    c ∈ printAt st depth (arr (item :: items)) ↔
      (c ∈ ([('[' : Char), (']' : Char)] : Text) ∨ c ∈ st.newLine (depth + 1) ∨
          c ∈ st.newLine depth) ∨
        c ∈ printAt st (depth + 1) item ∨ c ∈ printItems st (depth + 1) items := by
  simp only [printAt, List.mem_append, List.mem_cons, List.not_mem_nil, or_false]
  tauto

theorem mem_printAt_obj_cons (hst : st.Plain) {depth : Nat} {m : Text × Json} {members : Members} :
    c ∈ printAt st depth (obj (m :: members)) ↔
      (c ∈ ([('{' : Char), ('}' : Char)] : Text) ∨ c ∈ st.newLine (depth + 1) ∨
          c ∈ st.newLine depth ∨ c ∈ st.nameSeparator) ∨
        (c ∈ Quoted.print false m.1 ∨ c ∈ printAt st (depth + 1) m.2) ∨
          c ∈ printMembers st (depth + 1) members := by
  simp only [printAt, hst.asciiOnly, List.mem_append, List.mem_cons, List.not_mem_nil, or_false]
  tauto

/-- The text of an array is ASCII but for the items. -/
theorem mem_printAt_arr (hst : st.Plain) {depth : Nat} {items : List Json}
    (h : c ∈ printAt st depth (arr items)) :
    c.val < 0x80 ∨ ∃ item ∈ items, c ∈ printAt st (depth + 1) item := by
  have hbrackets : ∀ d ∈ ([('[' : Char), (']' : Char)] : Text), d.val < 0x80 := by decide
  cases items with
  | nil =>
    rw [printAt] at h
    exact .inl (hbrackets c h)
  | cons item items =>
    rcases mem_printAt_arr_cons.1 h with (h | h | h) | h | h
    · exact .inl (hbrackets c h)
    · exact .inl (Style.val_lt_of_mem_newLine h)
    · exact .inl (Style.val_lt_of_mem_newLine h)
    · exact .inr ⟨item, List.mem_cons_self .., h⟩
    · refine (mem_printItems hst h).imp_right ?_
      rintro ⟨item', hitem', h⟩
      exact ⟨item', List.mem_cons_of_mem _ hitem', h⟩

theorem mem_printAt_arr_of_mem {depth : Nat} {items : List Json} {item : Json}
    (hitem : item ∈ items) (h : c ∈ printAt st (depth + 1) item) :
    c ∈ printAt st depth (arr items) := by
  cases items with
  | nil => cases hitem
  | cons item' items =>
    refine mem_printAt_arr_cons.2 (.inr ?_)
    rcases List.mem_cons.1 hitem with rfl | hitem
    · exact .inl h
    · exact .inr (mem_printItems_of_mem hitem h)

/-- The text of an object is ASCII but for the names and values of the members. -/
theorem mem_printAt_obj (hst : st.Plain) {depth : Nat} {members : Members}
    (h : c ∈ printAt st depth (obj members)) :
    c.val < 0x80 ∨
      ∃ m ∈ members, c ∈ Quoted.print false m.1 ∨ c ∈ printAt st (depth + 1) m.2 := by
  have hbrackets : ∀ d ∈ ([('{' : Char), ('}' : Char)] : Text), d.val < 0x80 := by decide
  cases members with
  | nil =>
    rw [printAt] at h
    exact .inl (hbrackets c h)
  | cons m members =>
    rcases (mem_printAt_obj_cons hst).1 h with (h | h | h | h) | h | h
    · exact .inl (hbrackets c h)
    · exact .inl (Style.val_lt_of_mem_newLine h)
    · exact .inl (Style.val_lt_of_mem_newLine h)
    · exact .inl (hst.val_lt_of_mem_nameSeparator h)
    · exact .inr ⟨m, List.mem_cons_self .., h⟩
    · refine (mem_printMembers hst h).imp_right ?_
      rintro ⟨m', hm', h⟩
      exact ⟨m', List.mem_cons_of_mem _ hm', h⟩

theorem mem_printAt_obj_of_mem (hst : st.Plain) {depth : Nat} {members : Members}
    {m : Text × Json} (hm : m ∈ members)
    (h : c ∈ Quoted.print false m.1 ∨ c ∈ printAt st (depth + 1) m.2) :
    c ∈ printAt st depth (obj members) := by
  cases members with
  | nil => cases hm
  | cons m' members =>
    refine (mem_printAt_obj_cons hst).2 (.inr ?_)
    rcases List.mem_cons.1 hm with rfl | hm
    · exact .inl h
    · exact .inr (mem_printMembers_of_mem hst hm h)

/-! ### From one style to another one -/

/-- What a style prints of a value above ASCII, every other style prints as well. Scalars have the
same text in all of them. -/
theorem mem_printAt_of_plain (hst : st.Plain) (hst' : st'.Plain) {v : Json} (hv : v.WellFormed)
    {depth depth' : Nat} (h : c ∈ printAt st depth v) :
    c.val < 0x80 ∨ c ∈ printAt st' depth' v := by
  induction hv generalizing depth depth' with
  | null =>
    rw [printAt] at h ⊢
    exact .inr h
  | bool b =>
    cases b with
    | false => rw [printAt] at h ⊢; exact .inr h
    | true => rw [printAt] at h ⊢; exact .inr h
  | int hn =>
    rw [printAt] at h ⊢
    exact .inr h
  | double x =>
    rw [printAt] at h ⊢
    exact .inr h
  | str s =>
    rw [printAt, hst.asciiOnly] at h
    rw [printAt, hst'.asciiOnly]
    exact .inr h
  | arr hitems ih =>
    rcases mem_printAt_arr hst h with h | ⟨item, hitem, h⟩
    · exact .inl h
    · exact (ih item hitem h).imp_right (mem_printAt_arr_of_mem hitem)
  | obj hkeys hmembers ih =>
    rcases mem_printAt_obj hst h with h | ⟨m, hm, h | h⟩
    · exact .inl h
    · exact .inr (mem_printAt_obj_of_mem hst' hm (.inl h))
    · exact (ih m hm h).imp_right fun h => mem_printAt_obj_of_mem hst' hm (.inr h)

/-! ### Strings -/

theorem not_isSurrogate_of_val_lt (h : c.val < 0x80) : ¬ c.IsSurrogate := by
  intro hsurrogate
  have := hsurrogate.1
  omega

theorem val_lt_of_mem_numberedEscape {n : Nat} (hn : n < 0x20) (h : c ∈ Quoted.numberedEscape n) :
    c.val < 0x80 := by
  have hall : ∀ n < 0x20, ∀ c ∈ Quoted.numberedEscape n, c.val < 0x80 := by decide
  exact hall n hn c h

theorem val_lt_of_shortEscape? {d : CodePoint} (h : Quoted.shortEscape? d = some c) :
    c.val < 0x80 := by
  obtain ⟨entry, hfind, rfl⟩ := Option.map_eq_some_iff.1 h
  have hall : ∀ entry ∈ Quoted.shortEscapes, entry.1.val < 0x80 := by decide
  exact hall entry (List.mem_of_find?_eq_some hfind)

/-- A printed string is ASCII but for its own code points. -/
theorem mem_quoted {t : Text} (h : c ∈ Quoted.print false t) : c.val < 0x80 ∨ c ∈ t := by
  have hquote : Quoted.quote.val < 0x80 := by decide
  have hbackslash : Quoted.backslash.val < 0x80 := by decide
  simp only [Quoted.print, List.cons_append, List.mem_cons, List.mem_append, List.mem_flatMap,
    List.not_mem_nil, or_false] at h
  rcases h with rfl | ⟨d, hd, h⟩ | rfl
  · exact .inl hquote
  · rw [Quoted.printChar] at h
    split at h
    · next e hshort =>
      rcases List.mem_pair.1 h with rfl | rfl
      · exact .inl hbackslash
      · exact .inl (val_lt_of_shortEscape? hshort)
    · split at h
      · next hcontrol => exact .inl (val_lt_of_mem_numberedEscape hcontrol h)
      · rw [if_neg (by simp), List.mem_singleton] at h
        exact .inr (h ▸ hd)
  · exact .inl hquote

/-! ### Values that can be stored -/

/-- Well-formed values that have a text in UTF-8, as they hold no half of a surrogate pair. -/
structure Storable (v : Json) : Prop where
  wellFormed : v.WellFormed
  text : ∀ c ∈ v.print Style.compact, ¬ c.IsSurrogate

/-- It does not matter in which style the text is, and at which depth. -/
theorem storable_iff (hst : st.Plain) (depth : Nat) {v : Json} (hv : v.WellFormed) :
    v.Storable ↔ ∀ c ∈ printAt st depth v, ¬ c.IsSurrogate := by
  constructor
  · intro h c hc
    rcases mem_printAt_of_plain hst Style.plain_compact hv hc with hascii | hc
    · exact not_isSurrogate_of_val_lt hascii
    · exact h.text c hc
  · refine fun h => ⟨hv, ?_⟩
    intro c hc
    rcases mem_printAt_of_plain Style.plain_compact hst hv hc with hascii | hc
    · exact not_isSurrogate_of_val_lt hascii
    · exact h c hc

/-- Storable values are those that have a text in UTF-8. -/
theorem storable_iff_exists_encode (hst : st.Plain) {v : Json} (hv : v.WellFormed) :
    v.Storable ↔ ∃ bytes, (Encoding.plain .utf8).encode (v.print st) = .ok bytes := by
  rw [Encoding.exists_encode_iff, storable_iff hst 0 hv]
  exact forall₂_congr fun c _ => (Encoding.stores_utf8_iff c).symm

theorem storable_nil : (Json.obj []).Storable := ⟨.nil, by decide⟩

/-- A part is a level below the whole, so its text is taken from there. -/
theorem storable_arr_iff {items : List Json} :
    (arr items).Storable ↔ ∀ item ∈ items, item.Storable := by
  have hst := Style.plain_compact
  constructor
  · intro h item hitem
    refine (storable_iff hst 1 (hereditary_wellFormed.item h.wellFormed item hitem)).2 ?_
    exact fun c hc => h.text c (mem_printAt_arr_of_mem hitem hc)
  · refine fun h => ⟨.arr fun item hitem => (h item hitem).wellFormed, ?_⟩
    intro c hc
    rcases mem_printAt_arr hst hc with hascii | ⟨item, hitem, hc⟩
    · exact not_isSurrogate_of_val_lt hascii
    · exact (storable_iff hst 1 (h item hitem).wellFormed).1 (h item hitem) c hc

theorem Storable.member {members : Members} (h : (obj members).Storable) :
    ∀ m ∈ members, m.2.Storable := by
  have hst := Style.plain_compact
  intro m hm
  refine (storable_iff hst 1 (hereditary_wellFormed.member h.wellFormed m hm)).2 ?_
  exact fun c hc => h.text c (mem_printAt_obj_of_mem hst hm (.inr hc))

theorem Storable.insert {members : Members} {name : Text} {x : Json} (h : (obj members).Storable)
    (hname : ∀ c ∈ name, ¬ c.IsSurrogate) (hx : x.Storable) :
    (obj (KeyedList.insert name x members)).Storable := by
  have hst := Style.plain_compact
  refine ⟨h.wellFormed.insert name hx.wellFormed, ?_⟩
  intro c hc
  rcases mem_printAt_obj hst hc with hascii | ⟨m, hm, hc⟩
  · exact not_isSurrogate_of_val_lt hascii
  · rcases KeyedList.mem_insert hm with rfl | hm
    · rcases hc with hc | hc
      · exact (mem_quoted hc).elim not_isSurrogate_of_val_lt (hname c)
      · exact (storable_iff hst 1 hx.wellFormed).1 hx c hc
    · exact h.text c (mem_printAt_obj_of_mem hst hm hc)

/-- **A document can be stored in UTF-8 if its values and its names can.** -/
theorem hereditary_storable : Hereditary (fun name => ∀ c ∈ name, ¬ c.IsSurrogate) Storable where
  item h := storable_arr_iff.1 h
  array h := storable_arr_iff.2 h
  member h := h.member
  nil := storable_nil
  insert h hname hx := h.insert hname hx

end Json

end JsonShelf
