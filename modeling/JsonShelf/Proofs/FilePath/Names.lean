import JsonShelf.FilePath

/-!
# Names in the text of a path

What slashes cut a text into, and what is left of it as names: texts that are not empty and hold no
slash, made of characters of the whole text. Names are put together again by slashes, and different
lists of names make different texts.

## Main definitions

* `FilePath.IsName` — texts that a file or directory can be listed under

## Main results

* `FilePath.isName_of_mem_namesOf`, `FilePath.mem_of_mem_namesOf` — what names are made of
* `FilePath.namesOf_append_slash` — names before and behind a slash
* `FilePath.intercalate_inj` — names are told apart by the text that they make
-/

namespace JsonShelf

namespace FilePath

variable {name text : Text} {names others : List Text}

/-- A text that says something and holds no slash. -/
structure IsName (name : Text) : Prop where
  ne_nil : name ≠ []
  slash_not_mem : slash ∉ name

/-- What slashes cut a text into is made of its other characters. -/
theorem mem_of_mem_splitOn (h : name ∈ text.splitOn slash) :
    ∀ c ∈ name, c ∈ text ∧ c ≠ slash := by
  induction text generalizing name with
  | nil =>
    have hnil : name = [] := by simpa using h
    rw [hnil]
    exact nofun
  | cons c rest ih =>
    have hrest : ∀ part ∈ rest.splitOn slash, ∀ d ∈ part, d ∈ c :: rest ∧ d ≠ slash :=
      fun part hpart d hd => (ih hpart d hd).imp_left (List.mem_cons_of_mem c)
    rw [List.splitOn_cons_eq_if_modifyHead] at h
    split at h
    · rcases List.mem_cons.1 h with rfl | h
      · exact nofun
      · exact hrest name h
    · next hc =>
      obtain ⟨first, parts, hparts⟩ := List.exists_cons_of_ne_nil (List.splitOn_ne_nil slash rest)
      rw [hparts] at hrest
      rw [hparts, List.modifyHead_cons] at h
      rcases List.mem_cons.1 h with rfl | h
      · intro d hd
        rcases List.mem_cons.1 hd with rfl | hd
        · exact ⟨List.mem_cons_self, fun he => hc (beq_iff_eq.2 he)⟩
        · exact hrest first List.mem_cons_self d hd
      · exact hrest name (List.mem_cons_of_mem _ h)

/-- The names of a path are names. -/
theorem isName_of_mem_namesOf (h : name ∈ namesOf text) : IsName name := by
  obtain ⟨hpart, hname⟩ := List.mem_filter.1 h
  refine ⟨(of_decide_eq_true hname).1, ?_⟩
  intro hslash
  exact (mem_of_mem_splitOn hpart slash hslash).2 rfl

/-- The names of a path are made of its characters. -/
theorem mem_of_mem_namesOf (h : name ∈ namesOf text) {c : CodePoint} (hc : c ∈ name) :
    c ∈ text :=
  (mem_of_mem_splitOn (List.mem_filter.1 h).1 c hc).1

/-- A slash separates names. -/
theorem namesOf_append_slash (t u : Text) : namesOf (t ++ slash :: u) = namesOf t ++ namesOf u := by
  rw [namesOf, List.splitOn_append_cons_self, List.filter_append]
  rfl

/-- Names are told apart by the text that they make. -/
theorem intercalate_inj (hnames : ∀ name ∈ names, IsName name)
    (hothers : ∀ name ∈ others, IsName name) (hne : names ≠ []) (hne' : others ≠ [])
    (h : [slash].intercalate names = [slash].intercalate others) : names = others := by
  rw [← List.splitOn_intercalate slash (fun name hname => (hnames name hname).slash_not_mem) hne, h,
    List.splitOn_intercalate slash (fun name hname => (hothers name hname).slash_not_mem) hne']

end FilePath

end JsonShelf
