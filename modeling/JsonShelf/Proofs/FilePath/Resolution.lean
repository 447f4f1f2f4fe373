import JsonShelf.Proofs.FilePath.Names

/-!
# Paths and their texts

A path that was read from a text is in normal form: its names say something and hold no slash, and
it has one of three anchors. Joining keeps normal forms, and so does printing: the text of a path in
normal form is read as the path. So whatever is done with texts by reading them, joining the paths
and printing the result, is done with paths, where joining is associative and the path that leads
nowhere is neutral.

## Main definitions

* `FilePath.resolve` — the text of a path that is seen from another one
* `FilePath.leadingSlashes` — the slashes that a text starts with
* `FilePath.IsNormal` — paths whose names are names

## Main results

* `FilePath.ofText_toText` — the text of a path is read as the path
* `FilePath.ofText_resolve` — what is resolved is joined
* `FilePath.join_assoc` — paths are joined in any grouping
* `FilePath.resolving_composes` — the same for texts, and what is in them
-/

namespace JsonShelf

namespace FilePath

variable {p q : FilePath} {text : Text} {names : List Text}

/-- The text of the path `file` that is seen from `base`. -/
def resolve (base file : Text) : Text := ((ofText base).join (ofText file)).toText

/-- The slashes that a text starts with. -/
def leadingSlashes (t : Text) : Text := t.takeWhile fun c => decide (c = slash)

/-! ### Normal forms -/

/-- The names of a path say something and hold no slash. -/
def IsNormal (p : FilePath) : Prop := ∀ name ∈ p.names, IsName name ∧ name ≠ here

theorem isNormal_ofText (t : Text) : (ofText t).IsNormal := by
  intro name hname
  have hsays := of_decide_eq_true (List.mem_filter.1 hname).2
  exact ⟨isName_of_mem_namesOf hname, hsays.2⟩

theorem IsNormal.join (hp : p.IsNormal) (hq : q.IsNormal) : (p.join q).IsNormal := by
  rw [FilePath.join]
  split
  · exact List.forall_mem_append.2 ⟨hp, hq⟩
  · exact hq

/-! ### Texts of paths -/

/-- Names with slashes between them are found again. -/
theorem namesOf_intercalate (h : ∀ name ∈ names, IsName name ∧ name ≠ here) :
    namesOf ([slash].intercalate names) = names := by
  by_cases hne : names = []
  · rw [hne]
    rfl
  · rw [namesOf, List.splitOn_intercalate slash (fun name hname => (h name hname).1.slash_not_mem)
      hne, List.filter_eq_self]
    intro name hname
    exact decide_eq_true ⟨(h name hname).1.ne_nil, (h name hname).2⟩

/-- The slashes of an anchor are no names. -/
theorem namesOf_anchor_append (a : Anchor) (t : Text) : namesOf (a.toText ++ t) = namesOf t := by
  have hslash : ∀ u, namesOf (slash :: u) = namesOf u := namesOf_append_slash []
  cases a <;> simp [Anchor.toText, hslash]

/-- Names with slashes between them do not start with one. -/
theorem leadingSlashes_intercalate (h : ∀ name ∈ names, IsName name ∧ name ≠ here) :
    leadingSlashes ([slash].intercalate names) = [] := by
  cases names with
  | nil => rfl
  | cons name names =>
    obtain ⟨hname, -⟩ := h name List.mem_cons_self
    obtain ⟨c, tl, rfl⟩ := List.exists_cons_of_ne_nil hname.ne_nil
    have hc : ¬ c = slash := fun hc => hname.slash_not_mem (hc ▸ List.mem_cons_self)
    cases names <;> simp [leadingSlashes, List.intercalate, hc]

theorem leadingSlashes_anchor_append (a : Anchor) {t : Text} (h : leadingSlashes t = []) :
    leadingSlashes (a.toText ++ t) = a.toText := by
  have hall : ∀ c ∈ a.toText, decide (c = slash) = true := by cases a <;> decide
  rw [leadingSlashes, List.takeWhile_append_of_pos hall]
  exact (congrArg _ h).trans (List.append_nil _)

/-- The slashes of an anchor stand for it. -/
theorem ofSlashes_toText (a : Anchor) : .ofSlashes a.toText.length = a := by
  cases a <;> rfl

theorem anchor_ofText (t : Text) : (ofText t).anchor = .ofSlashes (leadingSlashes t).length := rfl

/-- A text without a slash in front is seen from elsewhere. -/
theorem anchor_ofText_eq_relative_iff {t : Text} :
    (ofText t).anchor = .relative ↔ t.head? ≠ some slash := by
  have hsome : ∀ n, Anchor.ofSlashes (n + 1) ≠ .relative := by
    intro n
    rcases n with _ | _ | n <;> exact nofun
  rw [anchor_ofText]
  cases t with
  | nil => exact ⟨nofun, fun _ => rfl⟩
  | cons c rest =>
    rw [List.head?_cons, ne_eq, Option.some.injEq]
    by_cases hc : c = slash
    · simp [leadingSlashes, hc, hsome]
    · simp [leadingSlashes, hc, Anchor.ofSlashes]

/-- The text of a path has its names and starts with the slashes of its anchor. -/
theorem IsNormal.toText (h : p.IsNormal) :
    namesOf p.toText = p.names ∧ leadingSlashes p.toText = p.anchor.toText := by
  have hnames : namesOf (p.anchor.toText ++ [slash].intercalate p.names) = p.names := by
    rw [namesOf_anchor_append, namesOf_intercalate h]
  have hslashes : leadingSlashes (p.anchor.toText ++ [slash].intercalate p.names) =
      p.anchor.toText :=
    leadingSlashes_anchor_append _ (leadingSlashes_intercalate h)
  rw [FilePath.toText]
  split
  · next hnil =>
    rw [hnil] at hnames hslashes
    exact ⟨hnames, hslashes⟩
  · exact ⟨hnames, hslashes⟩

/-- **The text of a path is read as the path.** -/
theorem ofText_toText (h : p.IsNormal) : ofText p.toText = p := by
  obtain ⟨hnames, hslashes⟩ := h.toText
  have hanchor : (ofText p.toText).anchor = p.anchor := by
    rw [anchor_ofText, hslashes, ofSlashes_toText]
  show FilePath.mk (ofText p.toText).anchor (namesOf p.toText) = p
  rw [hanchor, hnames]

/-- **What is resolved is joined.** -/
theorem ofText_resolve (base file : Text) :
    ofText (resolve base file) = (ofText base).join (ofText file) :=
  ofText_toText ((isNormal_ofText base).join (isNormal_ofText file))

/-! ### Joining -/

/-- **Paths are joined in any grouping.** -/
theorem join_assoc (p q r : FilePath) : (p.join q).join r = p.join (q.join r) := by
  by_cases hr : r.anchor = .relative
  · by_cases hq : q.anchor = .relative
    · simp [join, hq, hr]
    · simp [join, hq, hr]
  · simp [join, hr]

theorem join_empty (p : FilePath) : p.join (ofText []) = p := by
  simp [join, ofText, namesOf, here, Anchor.ofSlashes]

theorem empty_join (p : FilePath) : (ofText []).join p = p := by
  obtain ⟨anchor, names⟩ := p
  cases anchor <;> simp [join, ofText, namesOf, here, Anchor.ofSlashes]

/-! ### Resolving -/

theorem resolve_assoc (b f g : Text) : resolve (resolve b f) g = resolve b (resolve f g) := by
  rw [resolve, ofText_resolve, join_assoc, resolve, ofText_resolve]

/-- What was resolved stays as it is when it is resolved again. -/
theorem resolve_empty (b f : Text) :
    resolve [] (resolve b f) = resolve b f ∧ resolve (resolve b f) [] = resolve b f := by
  constructor
  · rw [resolve, ofText_resolve, empty_join, resolve]
  · rw [resolve, ofText_resolve, join_empty, resolve]

/-- A text without a slash in front adds its names. -/
theorem names_resolve (b : Text) {f : Text} (h : f.head? ≠ some slash) :
    namesOf (resolve b f) = namesOf b ++ namesOf f ∧
      leadingSlashes (resolve b f) = (Anchor.ofSlashes (leadingSlashes b).length).toText := by
  have hjoin : (ofText b).join (ofText f) = ⟨(ofText b).anchor, namesOf b ++ namesOf f⟩ :=
    if_pos (anchor_ofText_eq_relative_iff.2 h)
  have htext := ((isNormal_ofText b).join (isNormal_ofText f)).toText
  rw [hjoin] at htext
  rwa [resolve, hjoin, ← anchor_ofText]

/-- A text with a slash in front is not seen from anywhere. -/
theorem resolve_of_head? {f : Text} (h : f.head? = some slash) (b : Text) :
    resolve b f = (ofText f).toText := by
  have hanchor : (ofText f).anchor ≠ .relative :=
    fun hrelative => anchor_ofText_eq_relative_iff.1 hrelative h
  rw [resolve, join, if_neg hanchor]

/-- **Resolving composes.** It does not matter which of three texts are resolved first, and what was
resolved is in normal form: it stays as it is when it is resolved from nowhere, and when nothing is
resolved from it. A text without a slash in front adds its names to those of the text that it is
seen from, and the slashes in front are those of the latter: none, two if there are exactly two, or
one. For a text with a slash in front, it does not matter what it is seen from. -/
theorem resolving_composes (b f g : Text) :
    resolve (resolve b f) g = resolve b (resolve f g) ∧
      (resolve [] (resolve b f) = resolve b f ∧ resolve (resolve b f) [] = resolve b f) ∧
      (f.head? ≠ some slash →
        namesOf (resolve b f) = namesOf b ++ namesOf f ∧
          leadingSlashes (resolve b f) = (Anchor.ofSlashes (leadingSlashes b).length).toText) ∧
      (f.head? = some slash → ∀ b', resolve b' f = resolve b f) := by
  refine ⟨resolve_assoc b f g, resolve_empty b f, names_resolve b, ?_⟩
  intro h b'
  rw [resolve_of_head? h, resolve_of_head? h]

/-- Below `//x/./`, the text `a//..` adds two names behind the two slashes, while `///c/.` is the
same from everywhere. -/
theorem resolving_composes_below_two_slashes :
    let b := Text.ofString "//x/./"
    let f := Text.ofString "a//.."
    let g := Text.ofString "///c/."
    (f.head? ≠ some slash ∧ g.head? = some slash) ∧
      resolve (resolve b f) g = resolve b (resolve f g) ∧
      namesOf (resolve b f) = [Text.ofString "x", Text.ofString "a", up] ∧
      leadingSlashes (resolve b f) = [slash, slash] ∧
      resolve b g = resolve f g := by
  intro b f g
  have hf : f.head? ≠ some slash := by decide
  have hg : g.head? = some slash := by decide
  obtain ⟨hassoc, -, hnames, -⟩ := resolving_composes b f g
  obtain ⟨-, -, -, hsame⟩ := resolving_composes f g f
  exact ⟨⟨hf, hg⟩, hassoc, (hnames hf).1, (hnames hf).2, hsame hg b⟩

end FilePath

end JsonShelf
