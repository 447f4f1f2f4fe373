import JsonShelf.Path.Parser
import JsonShelf.Proofs.Except
import Mathlib.Data.List.TakeWhile

/-!
# The grammar of path expressions

Expressions are derived by

    expression := part ('.' part)*
    part       := name index*
    name       := any characters but dots and square brackets
    index      := '[' digit+ ']'

A derivation has no choices but where the parts end, what the name of a part is and what the digits
of its indexes are, so the list of parts with their names and digits stands for it. No text has more
than one derivation, because no part holds a dot and no name a bracket.

The parser knows nothing of derivations. It cuts the text at the dots, and a part at its closing
brackets, and looks at what it gets. That this comes to the same, in what is accepted, in what comes
out and in which fault is told, is the main result here.

## Main definitions

* `Part`, `Part.text`, `Part.Valid` — parts, as they are written and as the grammar allows them
* `Derives` — the grammar
* `Part.segments`, `Part.WithinLimit` — what a part means, and whether its indexes can be read
* `Refused` — why a text between dots is not accepted

## Main results

* `Part.ofText?_eq_some_iff` — parts are found from their texts
* `parsePart_eq_ok_iff`, `parsePart_eq_error_iff` — what becomes of a text between dots
* `Derives.splitOn`, `derives_of_splitOn` — derivations are made of the texts between the dots
* `parse_decided_by_grammar` — derivations are unique and decide about parsing
-/

namespace JsonShelf

namespace Path

/-! ### Derivations -/

/-- A part as the grammar has it: a name, which may be empty, and the digits of each index. -/
structure Part where
  name : Text
  indexes : List Text

namespace Part

/-- An index as it is written. -/
def indexText (digits : Text) : Text := openBracket :: (digits ++ [closeBracket])

/-- A part as it is written. -/
def text (part : Part) : Text := part.name ++ part.indexes.flatMap indexText

/-- The digits of an index: one at least. -/
def AreDigits (digits : Text) : Prop := digits ≠ [] ∧ ∀ c ∈ digits, c.IsDigit

instance (digits : Text) : Decidable (AreDigits digits) :=
  inferInstanceAs (Decidable (_ ∧ _))

/-- The parts of the grammar. -/
structure Valid (part : Part) : Prop where
  name : ∀ c ∈ part.name, IsNameChar c
  indexes : ∀ digits ∈ part.indexes, AreDigits digits

instance (part : Part) : Decidable part.Valid :=
  decidable_of_iff
    ((∀ c ∈ part.name, IsNameChar c) ∧ ∀ digits ∈ part.indexes, AreDigits digits)
    ⟨fun ⟨hname, hindexes⟩ => ⟨hname, hindexes⟩, fun h => ⟨h.name, h.indexes⟩⟩

/-- The steps that a part means: to a key unless the name is empty, and to each position. -/
def segments (part : Part) : Path :=
  (if part.name = [] then [] else [.key part.name]) ++
    part.indexes.map fun digits => .index (Numeral.toNat digits)

/-- No index has more digits than are read. -/
def WithinLimit (part : Part) : Prop :=
  ∀ digits ∈ part.indexes, digits.length ≤ Numeral.digitLimit

instance (part : Part) : Decidable part.WithinLimit :=
  inferInstanceAs (Decidable (∀ digits ∈ part.indexes, digits.length ≤ Numeral.digitLimit))

end Part

/-- An expression is one part, or a part and an expression with a dot between them. -/
inductive Derives : Text → List Part → Prop
  | last {part : Part} (h : part.Valid) : Derives part.text [part]
  | more {part : Part} (h : part.Valid) {rest : Text} {parts : List Part}
    (hrest : Derives rest parts) : Derives (part.text ++ separator :: rest) (part :: parts)

/-- Why a text between dots is not accepted: it is no part, or it is one, and the digits of an index
are the first to be too many. -/
inductive Refused : Text → ParseFault → Prop
  | malformed {t : Text} (h : ∀ part : Part, part.Valid → part.text ≠ t) : Refused t .malformed
  | tooManyDigits {part : Part} (h : part.Valid) {before after : List Text} {digits : Text}
    (hindexes : part.indexes = before ++ digits :: after)
    (hbefore : ∀ earlier ∈ before, earlier.length ≤ Numeral.digitLimit)
    (hdigits : Numeral.digitLimit < digits.length) :
    Refused part.text (.tooManyDigits digits.length)

variable {part : Part} {t brackets : Text} {runs : List Text}

/-! ### The text of a part -/

namespace Part

theorem AreDigits.not_mem {digits : Text} (h : AreDigits digits) {c : CodePoint}
    (hc : ¬ c.IsDigit) : c ∉ digits :=
  fun hmem => hc (h.2 c hmem)

theorem closeBracket_not_mem {digits : Text} (h : AreDigits digits) :
    closeBracket ∉ openBracket :: digits := by
  rw [List.mem_cons, not_or]
  exact ⟨by decide, h.not_mem (by decide)⟩

/-- There is no dot in a part. -/
theorem Valid.separator_not_mem (h : part.Valid) : separator ∉ part.text := by
  rw [text, List.mem_append, List.mem_flatMap, not_or]
  refine ⟨fun hname => (h.name _ hname).1 rfl, ?_⟩
  rintro ⟨digits, hdigits, hmem⟩
  rw [indexText, List.mem_cons, List.mem_append, List.mem_singleton] at hmem
  rcases hmem with hmem | hmem | hmem
  · exact absurd hmem (by decide)
  · exact (h.indexes digits hdigits).not_mem (by decide) hmem
  · exact absurd hmem (by decide)

/-- Closing brackets cut indexes apart. -/
theorem splitOn_indexTexts (h : ∀ digits ∈ runs, AreDigits digits) :
    (runs.flatMap indexText).splitOn closeBracket = runs.map (openBracket :: ·) ++ [[]] := by
  induction runs with
  | nil => rfl
  | cons digits runs ih =>
    obtain ⟨hdigits, hruns⟩ := List.forall_mem_cons.1 h
    have htext : (digits :: runs).flatMap indexText =
        (openBracket :: digits) ++ closeBracket :: runs.flatMap indexText := by
      simp [indexText]
    rw [htext, List.splitOn_append_cons_self_of_not_mem (closeBracket_not_mem hdigits), ih hruns]
    rfl

end Part

open JsonShelf.Path.Part (AreDigits indexText)

theorem groupDigits?_eq_some_iff {group digits : Text} :
    groupDigits? group = some digits ↔ group = openBracket :: digits ∧ AreDigits digits := by
  cases group with
  | nil => exact ⟨nofun, fun h => nomatch h.1⟩
  | cons c rest =>
    rw [groupDigits?, List.cons.injEq]
    constructor
    · intro h
      split at h
      · next hgroup =>
        cases h
        exact ⟨⟨hgroup.1, rfl⟩, hgroup.2⟩
      · cases h
    · rintro ⟨⟨rfl, rfl⟩, hdigits⟩
      exact if_pos ⟨rfl, hdigits⟩

theorem mapM_groupDigits?_eq_some_iff {groups : List Text} :
    groups.mapM groupDigits? = some runs ↔
      groups = runs.map (openBracket :: ·) ∧ ∀ digits ∈ runs, AreDigits digits := by
  induction groups generalizing runs with
  | nil =>
    constructor
    · intro h
      cases h
      exact ⟨rfl, nofun⟩
    · rintro ⟨h, -⟩
      rw [List.map_eq_nil_iff.1 h.symm]
      rfl
  | cons group groups ih =>
    simp only [List.mapM_cons, Option.bind_eq_bind, Option.bind_eq_some_iff, Option.pure_def,
      Option.some.injEq]
    constructor
    · rintro ⟨digits, hgroup, runs, hgroups, rfl⟩
      obtain ⟨rfl, hdigits⟩ := groupDigits?_eq_some_iff.1 hgroup
      obtain ⟨rfl, hruns⟩ := ih.1 hgroups
      exact ⟨rfl, List.forall_mem_cons.2 ⟨hdigits, hruns⟩⟩
    · rintro ⟨h, hruns⟩
      obtain ⟨digits, runs, rfl, rfl, rfl⟩ := List.map_eq_cons_iff.1 h.symm
      obtain ⟨hdigits, hruns⟩ := List.forall_mem_cons.1 hruns
      exact ⟨digits, groupDigits?_eq_some_iff.2 ⟨rfl, hdigits⟩, runs, ih.2 ⟨rfl, hruns⟩, rfl⟩

/-- Indexes are found from their text. -/
theorem indexDigits?_eq_some_iff :
    indexDigits? brackets = some runs ↔
      brackets = runs.flatMap indexText ∧ ∀ digits ∈ runs, AreDigits digits := by
  constructor
  · intro h
    simp only [indexDigits?] at h
    split at h
    · next hlast =>
      obtain ⟨hgroups, hruns⟩ := mapM_groupDigits?_eq_some_iff.1 h
      obtain ⟨groups, hsplit⟩ := List.getLast?_eq_some_iff.1 hlast
      refine ⟨?_, hruns⟩
      rw [hsplit, List.dropLast_concat] at hgroups
      rw [hgroups, ← Part.splitOn_indexTexts hruns] at hsplit
      have hjoin : [closeBracket].intercalate (brackets.splitOn closeBracket) = brackets :=
        List.intercalate_splitOn closeBracket
      rw [← hjoin, hsplit, List.intercalate_splitOn]
    · cases h
  · rintro ⟨rfl, hruns⟩
    simp only [indexDigits?, Part.splitOn_indexTexts hruns, List.getLast?_concat,
      List.dropLast_concat, if_pos]
    exact mapM_groupDigits?_eq_some_iff.2 ⟨rfl, hruns⟩

/-- The part that a text is, if it is one. -/
def Part.ofText? (t : Text) : Option Part :=
  (indexDigits? (t.dropWhile fun c => decide (IsNameChar c))).map
    (Part.mk (t.takeWhile fun c => decide (IsNameChar c)))

/-- What follows the name of a part does not go on with it. -/
theorem not_isNameChar_indexTexts (runs : List Text) (h : 0 < (runs.flatMap indexText).length) :
    ¬ decide (IsNameChar (runs.flatMap indexText)[0]) = true := by
  cases runs with
  | nil => exact absurd h (Nat.lt_irrefl 0)
  | cons digits runs =>
    have hfirst : ((digits :: runs).flatMap indexText)[0] = openBracket := rfl
    rw [hfirst]
    decide

/-- **Parts are found from their texts.** -/
theorem Part.ofText?_eq_some_iff : Part.ofText? t = some part ↔ part.Valid ∧ part.text = t := by
  constructor
  · intro h
    obtain ⟨runs, hruns, rfl⟩ := Option.map_eq_some_iff.1 h
    obtain ⟨hbrackets, hdigits⟩ := indexDigits?_eq_some_iff.1 hruns
    have hname : ∀ c ∈ t.takeWhile fun c => decide (IsNameChar c), IsNameChar c := by
      intro c hc
      simpa using List.mem_takeWhile_imp hc
    refine ⟨⟨hname, hdigits⟩, ?_⟩
    rw [text, ← hbrackets, List.takeWhile_append_dropWhile]
  · rintro ⟨hpart, rfl⟩
    have hname : ∀ c ∈ part.name, decide (IsNameChar c) = true := by simpa using hpart.name
    have hstop := not_isNameChar_indexTexts part.indexes
    rw [ofText?, text, List.dropWhile_append_of_pos hname, List.takeWhile_append_of_pos hname,
      List.dropWhile_eq_self_iff.2 hstop, List.takeWhile_eq_nil_iff.2 fun h => hstop h,
      List.append_nil, indexDigits?_eq_some_iff.2 ⟨rfl, hpart.indexes⟩]
    rfl

/-! ### One part -/

theorem indexSegment_eq_ok_iff {digits : Text} {s : Segment} :
    indexSegment digits = .ok s ↔
      digits.length ≤ Numeral.digitLimit ∧ s = .index (Numeral.toNat digits) := by
  rw [indexSegment, Numeral.read]
  by_cases h : digits.length ≤ Numeral.digitLimit
  · simp [h, eq_comm]
  · simp [h]

theorem indexSegment_eq_error_iff {digits : Text} {fault : ParseFault} :
    indexSegment digits = .error fault ↔
      Numeral.digitLimit < digits.length ∧ fault = .tooManyDigits digits.length := by
  rw [indexSegment, Numeral.read]
  by_cases h : digits.length ≤ Numeral.digitLimit
  · simp [if_pos h, Nat.not_lt.2 h]
  · simp [if_neg h, Nat.lt_of_not_le h, eq_comm]

theorem mapM_indexSegment_eq_ok_iff {indexes : Path} :
    runs.mapM indexSegment = .ok indexes ↔
      (∀ digits ∈ runs, digits.length ≤ Numeral.digitLimit) ∧
        indexes = runs.map fun digits => .index (Numeral.toNat digits) := by
  rw [mapM_eq_ok_iff]
  induction runs generalizing indexes with
  | nil => simp
  | cons digits runs ih =>
    rw [List.forall₂_cons_left_iff, List.forall_mem_cons]
    constructor
    · rintro ⟨s, path, hs, hpath, rfl⟩
      obtain ⟨hdigits, rfl⟩ := indexSegment_eq_ok_iff.1 hs
      obtain ⟨hruns, rfl⟩ := ih.1 hpath
      exact ⟨⟨hdigits, hruns⟩, rfl⟩
    · rintro ⟨⟨hdigits, hruns⟩, rfl⟩
      exact ⟨_, _, indexSegment_eq_ok_iff.2 ⟨hdigits, rfl⟩, ih.2 ⟨hruns, rfl⟩, rfl⟩

theorem mapM_indexSegment_eq_error_iff {fault : ParseFault} :
    runs.mapM indexSegment = .error fault ↔
      ∃ before digits after, runs = before ++ digits :: after ∧
        (∀ earlier ∈ before, earlier.length ≤ Numeral.digitLimit) ∧
        Numeral.digitLimit < digits.length ∧ fault = .tooManyDigits digits.length := by
  simp only [mapM_eq_error_iff, indexSegment_eq_ok_iff, indexSegment_eq_error_iff, exists_and_left,
    exists_eq, and_true]

theorem parsePart_of_ofText?_eq_none (h : Part.ofText? t = none) :
    parsePart t = .error .malformed := by
  rw [parsePart, Option.map_eq_none_iff.1 h]

theorem parsePart_of_ofText? (h : Part.ofText? t = some part) :
    parsePart t = part.indexes.mapM indexSegment >>= fun indexes =>
      .ok (nameSegments part.name ++ indexes) := by
  obtain ⟨runs, hruns, rfl⟩ := Option.map_eq_some_iff.1 h
  rw [parsePart, hruns]
  rfl

/-- **What a text between dots means**, if it is a part and its indexes can be read. -/
theorem parsePart_eq_ok_iff {path : Path} :
    parsePart t = .ok path ↔
      ∃ part : Part, part.Valid ∧ part.text = t ∧ part.WithinLimit ∧ path = part.segments := by
  constructor
  · intro h
    cases hpart : Part.ofText? t with
    | none =>
      rw [parsePart_of_ofText?_eq_none hpart] at h
      cases h
    | some part =>
      rw [parsePart_of_ofText? hpart, bind_eq_ok_iff] at h
      obtain ⟨indexes, hindexes, h⟩ := h
      cases h
      obtain ⟨hlimit, rfl⟩ := mapM_indexSegment_eq_ok_iff.1 hindexes
      obtain ⟨hvalid, htext⟩ := Part.ofText?_eq_some_iff.1 hpart
      exact ⟨part, hvalid, htext, hlimit, rfl⟩
  · rintro ⟨part, hvalid, htext, hlimit, rfl⟩
    rw [parsePart_of_ofText? (Part.ofText?_eq_some_iff.2 ⟨hvalid, htext⟩), bind_eq_ok_iff]
    exact ⟨_, mapM_indexSegment_eq_ok_iff.2 ⟨hlimit, rfl⟩, rfl⟩

/-- **Why a text between dots is not accepted.** -/
theorem parsePart_eq_error_iff {fault : ParseFault} :
    parsePart t = .error fault ↔ Refused t fault := by
  constructor
  · intro h
    cases hpart : Part.ofText? t with
    | none =>
      rw [parsePart_of_ofText?_eq_none hpart] at h
      cases h
      refine .malformed fun part hvalid htext => ?_
      rw [Part.ofText?_eq_some_iff.2 ⟨hvalid, htext⟩] at hpart
      cases hpart
    | some part =>
      rw [parsePart_of_ofText? hpart, bind_eq_error_iff] at h
      obtain ⟨hvalid, rfl⟩ := Part.ofText?_eq_some_iff.1 hpart
      rcases h with h | ⟨indexes, -, h⟩
      · obtain ⟨before, digits, after, hindexes, hbefore, hdigits, rfl⟩ :=
          mapM_indexSegment_eq_error_iff.1 h
        exact .tooManyDigits hvalid hindexes hbefore hdigits
      · cases h
  · intro h
    cases h with
    | malformed h =>
      refine parsePart_of_ofText?_eq_none (Option.eq_none_iff_forall_not_mem.2 ?_)
      intro part hpart
      obtain ⟨hvalid, htext⟩ := Part.ofText?_eq_some_iff.1 hpart
      exact h part hvalid htext
    | tooManyDigits hvalid hindexes hbefore hdigits =>
      rw [parsePart_of_ofText? (Part.ofText?_eq_some_iff.2 ⟨hvalid, rfl⟩), bind_eq_error_iff]
      exact .inl (mapM_indexSegment_eq_error_iff.2 ⟨_, _, _, hindexes, hbefore, hdigits, rfl⟩)

/-! ### Expressions -/

variable {s : Text} {parts parts' : List Part}

/-- A derivation is made of the texts between the dots. -/
theorem Derives.splitOn (h : Derives s parts) :
    s.splitOn separator = parts.map Part.text ∧ ∀ part ∈ parts, part.Valid := by
  induction h with
  | last h =>
    exact ⟨List.splitOn_eq_singleton h.separator_not_mem, List.forall_mem_singleton.2 h⟩
  | more h _ ih =>
    rw [List.splitOn_append_cons_self_of_not_mem h.separator_not_mem, ih.1]
    exact ⟨rfl, List.forall_mem_cons.2 ⟨h, ih.2⟩⟩

/-- Parts with dots between them are an expression. -/
theorem derives_intercalate (hne : parts ≠ []) (h : ∀ part ∈ parts, part.Valid) :
    Derives ([separator].intercalate (parts.map Part.text)) parts := by
  induction parts with
  | nil => exact absurd rfl hne
  | cons part parts ih =>
    obtain ⟨hpart, hparts⟩ := List.forall_mem_cons.1 h
    cases parts with
    | nil =>
      rw [List.map_singleton, List.intercalate_singleton]
      exact .last hpart
    | cons next parts =>
      rw [List.map_cons, List.intercalate_cons_of_ne_nil (List.map_cons ▸ List.cons_ne_nil _ _),
        List.append_assoc, List.singleton_append]
      exact .more hpart (ih (List.cons_ne_nil _ _) hparts)

theorem derives_of_splitOn (hsplit : s.splitOn separator = parts.map Part.text)
    (h : ∀ part ∈ parts, part.Valid) : Derives s parts := by
  have hne : parts ≠ [] := by
    rintro rfl
    exact List.splitOn_ne_nil separator s hsplit
  have hjoin : [separator].intercalate (s.splitOn separator) = s :=
    List.intercalate_splitOn separator
  rw [← hjoin, hsplit]
  exact derives_intercalate hne h

/-- A text has at most one derivation. -/
theorem Derives.unique (h : Derives s parts) (h' : Derives s parts') : parts = parts' := by
  obtain ⟨hsplit, hvalid⟩ := h.splitOn
  obtain ⟨hsplit', hvalid'⟩ := h'.splitOn
  -- every list of valid parts is found again from the texts of its parts
  have hfound : ∀ {ps : List Part}, (∀ p ∈ ps, p.Valid) →
      (ps.map Part.text).map Part.ofText? = ps.map some := by
    intro ps hps
    rw [List.map_map]
    exact List.map_congr_left fun p hp => Part.ofText?_eq_some_iff.2 ⟨hps p hp, rfl⟩
  have hsome : parts.map some = parts'.map some := by
    rw [← hfound hvalid, ← hsplit, hsplit', hfound hvalid']
  exact (List.map_inj_right fun _ _ => Option.some.inj).1 hsome

theorem exists_parts_of_forall₂ {texts : List Text} {paths : List Path}
    (h : List.Forall₂ (fun t path => parsePart t = .ok path) texts paths) :
    ∃ parts : List Part, texts = parts.map Part.text ∧ paths = parts.map Part.segments ∧
      ∀ part ∈ parts, part.Valid ∧ part.WithinLimit := by
  induction h with
  | nil => exact ⟨[], rfl, rfl, nofun⟩
  | cons h _ ih =>
    obtain ⟨part, hvalid, rfl, hlimit, rfl⟩ := parsePart_eq_ok_iff.1 h
    obtain ⟨parts, rfl, rfl, hparts⟩ := ih
    exact ⟨part :: parts, rfl, rfl, List.forall_mem_cons.2 ⟨⟨hvalid, hlimit⟩, hparts⟩⟩

theorem forall₂_parsePart (h : ∀ part ∈ parts, part.Valid ∧ part.WithinLimit) :
    List.Forall₂ (fun t path => parsePart t = .ok path) (parts.map Part.text)
      (parts.map Part.segments) := by
  rw [List.forall₂_map_left_iff, List.forall₂_map_right_iff, List.forall₂_same]
  intro part hpart
  exact parsePart_eq_ok_iff.2 ⟨part, (h part hpart).1, rfl, (h part hpart).2, rfl⟩

/-- What an expression means, part by part. -/
theorem parse_eq_ok_iff {path : Path} :
    parse s = .ok path ↔
      ∃ parts, Derives s parts ∧ (∀ part ∈ parts, part.WithinLimit) ∧
        path = parts.flatMap Part.segments := by
  rw [parse, bind_eq_ok_iff]
  constructor
  · rintro ⟨paths, hpaths, h⟩
    cases h
    obtain ⟨parts, hsplit, rfl, hparts⟩ := exists_parts_of_forall₂ (mapM_eq_ok_iff.1 hpaths)
    exact ⟨parts, derives_of_splitOn hsplit fun part hpart => (hparts part hpart).1,
      fun part hpart => (hparts part hpart).2, List.flatMap_def.symm⟩
  · rintro ⟨parts, hderives, hlimit, rfl⟩
    obtain ⟨hsplit, hvalid⟩ := hderives.splitOn
    refine ⟨parts.map Part.segments, ?_, by rw [← List.flatMap_def]; rfl⟩
    rw [hsplit]
    exact mapM_eq_ok_iff.2 (forall₂_parsePart fun part hpart =>
      ⟨hvalid part hpart, hlimit part hpart⟩)

theorem Derives.name_subset (h : Derives s parts) : ∀ part ∈ parts, part.name ⊆ s := by
  induction h with
  | last h => exact List.forall_mem_singleton.2 (List.subset_append_left _ _)
  | @more part h rest parts _ ih =>
    have hname : part.name ⊆ part.text := List.subset_append_left _ _
    have hrest : rest ⊆ part.text ++ separator :: rest :=
      List.Subset.trans (List.subset_cons_self _ _) (List.subset_append_right _ _)
    refine List.forall_mem_cons.2 ⟨List.Subset.trans hname (List.subset_append_left _ _), ?_⟩
    exact fun part' hpart' => List.Subset.trans (ih part' hpart') hrest

/-- The names in a path are taken from its expression. -/
theorem subset_of_key_mem {path : Path} (h : parse s = .ok path) {name : Text}
    (hname : .key name ∈ path) : name ⊆ s := by
  obtain ⟨parts, hderives, -, rfl⟩ := parse_eq_ok_iff.1 h
  obtain ⟨part, hpart, hname⟩ := List.mem_flatMap.1 hname
  rw [Part.segments, List.mem_append] at hname
  rcases hname with hname | hname
  · split at hname
    · cases hname
    · cases List.mem_singleton.1 hname
      exact hderives.name_subset part hpart
  · obtain ⟨digits, -, hname⟩ := List.mem_map.1 hname
    cases hname

/-- Why an expression is not accepted: for the first part that is not. -/
theorem parse_eq_error_iff {fault : ParseFault} :
    parse s = .error fault ↔
      ∃ before t after, s.splitOn separator = before ++ t :: after ∧
        (∀ earlier ∈ before, ∃ part : Part, part.Valid ∧ part.text = earlier ∧ part.WithinLimit) ∧
        Refused t fault := by
  have hread : ∀ t, (∃ path, parsePart t = .ok path) ↔
      ∃ part : Part, part.Valid ∧ part.text = t ∧ part.WithinLimit := by
    intro t
    constructor
    · rintro ⟨path, h⟩
      obtain ⟨part, hvalid, htext, hlimit, -⟩ := parsePart_eq_ok_iff.1 h
      exact ⟨part, hvalid, htext, hlimit⟩
    · rintro ⟨part, hvalid, htext, hlimit⟩
      exact ⟨_, parsePart_eq_ok_iff.2 ⟨part, hvalid, htext, hlimit, rfl⟩⟩
  rw [parse, bind_eq_error_iff, mapM_eq_error_iff]
  simp only [hread, parsePart_eq_error_iff]
  constructor
  · rintro (h | ⟨paths, -, h⟩)
    · exact h
    · cases h
  · exact .inl

/-- Nothing else is wrong with a position that has too many digits. -/
theorem parse_text_of_digitLimit_lt {name digits : Text} (h : Part.Valid ⟨name, [digits]⟩)
    (hdigits : Numeral.digitLimit < digits.length) :
    parse (Part.text ⟨name, [digits]⟩) = .error (.tooManyDigits digits.length) := by
  obtain ⟨hsplit, -⟩ := (Derives.last h).splitOn
  have hrefused : Refused (Part.text ⟨name, [digits]⟩) (.tooManyDigits digits.length) :=
    .tooManyDigits h (List.nil_append _).symm nofun hdigits
  exact parse_eq_error_iff.2 ⟨[], _, [], hsplit, nofun, hrefused⟩

/-- **The grammar decides about parsing.** A text has at most one derivation. It is parsed if it has
one in which all indexes can be read, and into the steps that the parts mean. Otherwise the first of
the texts between its dots that is no part, or a part with too many digits in an index, tells the
fault. -/
theorem parse_decided_by_grammar (s : Text) :
    (∀ parts parts', Derives s parts → Derives s parts' → parts = parts') ∧
      (∀ path, parse s = .ok path ↔
        ∃ parts, Derives s parts ∧ (∀ part ∈ parts, part.WithinLimit) ∧
          path = parts.flatMap Part.segments) ∧
      ∀ fault, parse s = .error fault ↔
        ∃ before t after, s.splitOn separator = before ++ t :: after ∧
          (∀ earlier ∈ before,
            ∃ part : Part, part.Valid ∧ part.text = earlier ∧ part.WithinLimit) ∧
          Refused t fault :=
  ⟨fun _ _ h h' => h.unique h', fun _ => parse_eq_ok_iff, fun _ => parse_eq_error_iff⟩

/-- Two positions behind a name, a part without anything, and a part without a name whose position
has leading zeros. -/
theorem parse_decided_by_grammar_at_empty_names :
    let s := Text.ofString "a[0][12]..[007]"
    let parts : List Part :=
      [⟨Text.ofString "a", [Text.ofString "0", Text.ofString "12"]⟩, ⟨[], []⟩,
        ⟨[], [Text.ofString "007"]⟩]
    Derives s parts ∧ (∀ parts', Derives s parts' → parts' = parts) ∧
      parse s = .ok [.key (Text.ofString "a"), .index 0, .index 12, .index 7] := by
  intro s parts
  have hvalid : ∀ part ∈ parts, part.Valid := by decide +kernel
  have hderives : Derives s parts := derives_intercalate (List.cons_ne_nil _ _) hvalid
  obtain ⟨hunique, hparse, -⟩ := parse_decided_by_grammar s
  exact ⟨hderives, fun parts' h => hunique parts' parts h hderives,
    (hparse _).2 ⟨parts, hderives, by decide +kernel, by decide +kernel⟩⟩

end Path

end JsonShelf
