import JsonShelf.Proofs.Document.Refinement
import JsonShelf.Proofs.Path.Grammar
import JsonShelf.Proofs.Text.Numeral

/-!
# Paths that can be written

A path is rendered step by step: a position in brackets, and a key as its name with a dot before it,
except for the first step. Read from the left, a rendered path is a part that takes up positions
until the next key begins a part of its own, and this is how its derivation is found.

Not every path comes back. An empty name is no step at all when it is read, a name with a dot or a
bracket is something else, positions below zero are no positions, and those of too many digits are
not read. There are no other obstacles, and no expression gets around them: what is parsed is always
a path that can be rendered. So the places of a document that expressions lead to are the ones whose
keys can be written.

## Main definitions

* `Path.render` — a path as an expression
* `Segment.Writable` — the steps that come back

## Main results

* `Path.parse_render` — rendered paths are parsed as what they were
* `Path.writable_of_parse` — whatever is parsed can be rendered
* `Path.addressable_places` — both, and the places of a document that can be addressed
-/

namespace JsonShelf

/-- A step that can be written: to a key with a name of name characters, or to a position that has
not too many digits to be read. -/
inductive Segment.Writable : Segment → Prop
  | key {name : Text} (hne : name ≠ []) (h : ∀ c ∈ name, Path.IsNameChar c) : Writable (.key name)
  | index {n : Nat} (h : (Numeral.ofNat n).length ≤ Numeral.digitLimit) : Writable (.index n)

namespace Path

/-- A step behind another one, as it is written. -/
def stepText : Segment → Text
  | .key name => separator :: name
  | .index i => Part.indexText (Numeral.ofInt i)

/-- A path as an expression. -/
def render : Path → Text
  | .key name :: path => name ++ path.flatMap stepText
  | path => path.flatMap stepText

theorem stepText_index (n : Nat) : stepText (.index n) = Part.indexText (Numeral.ofNat n) := by
  rw [stepText, Numeral.ofInt, if_neg (by omega), Int.natAbs_natCast]

/-! ### Rendered paths -/

namespace Part

variable {part : Part}

/-- A part with one more index. -/
def addIndex (part : Part) (digits : Text) : Part := ⟨part.name, part.indexes ++ [digits]⟩

theorem text_addIndex (part : Part) (digits : Text) :
    (part.addIndex digits).text = part.text ++ indexText digits := by
  simp [text, addIndex]

theorem segments_addIndex (part : Part) (n : Nat) :
    (part.addIndex (Numeral.ofNat n)).segments = part.segments ++ [.index n] := by
  rw [segments, segments, addIndex, List.map_append, List.map_singleton, Numeral.toNat_ofNat,
    List.append_assoc]

theorem Valid.addIndex (h : part.Valid) (n : Nat) : (part.addIndex (Numeral.ofNat n)).Valid := by
  refine ⟨h.name, List.forall_mem_append.2 ⟨h.indexes, List.forall_mem_singleton.2 ?_⟩⟩
  exact ⟨Numeral.ofNat_ne_nil n, fun _ => Numeral.isDigit_of_mem_ofNat⟩

theorem WithinLimit.addIndex (h : part.WithinLimit) {n : Nat}
    (hn : (Numeral.ofNat n).length ≤ Numeral.digitLimit) :
    (part.addIndex (Numeral.ofNat n)).WithinLimit :=
  List.forall_mem_append.2 ⟨h, List.forall_mem_singleton.2 hn⟩

end Part

/-- A part and the steps behind it are an expression. The part grows with every position, and the
next key begins another one. -/
theorem exists_derives_append_steps {part : Part} (hvalid : part.Valid)
    (hlimit : part.WithinLimit) {path : Path} (h : ∀ s ∈ path, s.Writable) :
    ∃ parts, Derives (part.text ++ path.flatMap stepText) parts ∧
      (∀ part ∈ parts, part.WithinLimit) ∧
      part.segments ++ path = parts.flatMap Part.segments := by
  induction path generalizing part with
  | nil =>
    refine ⟨[part], ?_, List.forall_mem_singleton.2 hlimit, ?_⟩
    · rw [List.flatMap_nil, List.append_nil]
      exact .last hvalid
    · rw [List.flatMap_singleton, List.append_nil]
  | cons s path ih =>
    obtain ⟨hs, hpath⟩ := List.forall_mem_cons.1 h
    cases hs with
    | @key name hne hname =>
      have hvalid' : Part.Valid ⟨name, []⟩ := ⟨hname, nofun⟩
      obtain ⟨parts, hderives, hlimits, hsegments⟩ := ih hvalid' nofun hpath
      refine ⟨part :: parts, ?_, List.forall_mem_cons.2 ⟨hlimit, hlimits⟩, ?_⟩
      · have htext : Part.text ⟨name, []⟩ = name := List.append_nil name
        rw [htext] at hderives
        exact .more hvalid hderives
      · have hname : Part.segments ⟨name, []⟩ = [.key name] := by simp [Part.segments, hne]
        rw [List.flatMap_cons, ← hsegments, hname]
        rfl
    | @index n hn =>
      obtain ⟨parts, hderives, hlimits, hsegments⟩ :=
        ih (hvalid.addIndex n) (hlimit.addIndex hn) hpath
      refine ⟨parts, ?_, hlimits, ?_⟩
      · rwa [List.flatMap_cons, stepText_index, ← List.append_assoc, ← Part.text_addIndex]
      · rw [← hsegments, Part.segments_addIndex, List.append_assoc, List.singleton_append]

/-- A rendered path begins with a part: with a key, or with an empty name. -/
theorem exists_first_part {path : Path} (h : ∀ s ∈ path, s.Writable) :
    ∃ (part : Part) (rest : Path), part.Valid ∧ part.WithinLimit ∧ (∀ s ∈ rest, s.Writable) ∧
      render path = part.text ++ rest.flatMap stepText ∧ path = part.segments ++ rest := by
  have hempty : Part.Valid ⟨[], []⟩ := ⟨nofun, nofun⟩
  cases path with
  | nil => exact ⟨⟨[], []⟩, [], hempty, nofun, h, rfl, rfl⟩
  | cons s rest =>
    obtain ⟨hs, hrest⟩ := List.forall_mem_cons.1 h
    cases hs with
    | index hn => exact ⟨⟨[], []⟩, _, hempty, nofun, h, rfl, rfl⟩
    | @key name hne hname =>
      refine ⟨⟨name, []⟩, rest, ⟨hname, nofun⟩, nofun, hrest, ?_, ?_⟩
      · rw [render, Part.text, List.flatMap_nil, List.append_nil]
      · rw [Part.segments, if_neg hne]
        rfl

/-- **Rendered paths are parsed as what they were.** -/
theorem parse_render {path : Path} (h : ∀ s ∈ path, s.Writable) :
    parse (render path) = .ok path := by
  obtain ⟨part, rest, hvalid, hlimit, hrest, htext, hpath⟩ := exists_first_part h
  obtain ⟨parts, hderives, hlimits, hsegments⟩ :=
    exists_derives_append_steps hvalid hlimit hrest
  rw [← htext] at hderives
  exact parse_eq_ok_iff.2 ⟨parts, hderives, hlimits, hpath.trans hsegments⟩

/-! ### Parsed paths -/

theorem Part.Valid.writable {part : Part} (hvalid : part.Valid) (hlimit : part.WithinLimit) :
    ∀ s ∈ part.segments, s.Writable := by
  rw [Part.segments, List.forall_mem_append]
  constructor
  · split
    · exact List.forall_mem_nil _
    · next hne => exact List.forall_mem_singleton.2 (.key hne hvalid.name)
  · rw [List.forall_mem_map]
    intro digits hdigits
    obtain ⟨hne, hdigit⟩ := hvalid.indexes digits hdigits
    exact .index (Nat.le_trans (Numeral.length_ofNat_toNat_le hne hdigit) (hlimit digits hdigits))

/-- **Whatever is parsed can be rendered.** -/
theorem writable_of_parse {expression : Text} {path : Path} (h : parse expression = .ok path) :
    ∀ s ∈ path, s.Writable := by
  obtain ⟨parts, hderives, hlimits, rfl⟩ := parse_eq_ok_iff.1 h
  intro s hs
  obtain ⟨part, hpart, hs⟩ := List.mem_flatMap.1 hs
  exact (hderives.splitOn.2 part hpart).writable (hlimits part hpart) s hs

/-! ### Places of a document -/

/-- A path that leads somewhere goes to no position below zero. -/
theorem nonneg_of_get? {t v : Json} {path : Path} (h : t.get? path = some v) :
    ∀ i, .index i ∈ path → 0 ≤ i := by
  induction path generalizing t with
  | nil => exact nofun
  | cons s path ih =>
    obtain ⟨c, hc, hpath⟩ := Option.bind_eq_some_iff.1 h
    intro i hi
    rcases List.mem_cons.1 hi with rfl | hi
    · cases t with
      | arr items =>
        rw [Json.child?] at hc
        split at hc
        · next hi => exact hi
        · cases hc
      | _ => cases hc
    · exact ih hpath i hi

/-- The places of a document whose keys can be written are the ones that can be written. -/
theorem writable_iff_of_get? {t v : Json} {path : Path} (h : t.get? path = some v)
    (hdigits : ∀ i, .index i ∈ path → (Numeral.ofNat i.natAbs).length ≤ Numeral.digitLimit) :
    (∀ s ∈ path, s.Writable) ↔
      ∀ name, .key name ∈ path → name ≠ [] ∧ ∀ c ∈ name, IsNameChar c := by
  constructor
  · intro hpath name hname
    cases hpath _ hname with
    | key hne hname => exact ⟨hne, hname⟩
  · intro hnames s hs
    cases s with
    | key name => exact .key (hnames name hs).1 (hnames name hs).2
    | index i =>
      obtain ⟨n, rfl⟩ := Int.eq_ofNat_of_zero_le (nonneg_of_get? h i hs)
      exact .index (hdigits _ hs)

/-- A document is asked for the value at the path that the expression writes. -/
theorem load_of_parse {s : Settings} {content : Bytes} {t v : Json} {expression : Text}
    {path : Path} (ht : Document.read s content = .ok t) (hpath : parse expression = .ok path)
    (hv : t.get? path = some v) : Document.load s (some content) expression = .ok v := by
  have hexpression : Document.path expression = .ok path := by
    rw [Document.path, hpath]
    rfl
  rw [Document.load_of_standsFor (.content ht)]
  simp only [Document.lookUp, hexpression, hv, Option.elim_some]

/-- **The places of a document that can be addressed.** A path of keys with names and of positions
with not too many digits is parsed from its rendering as what it was, and every path that is parsed
is of this kind. Hence an expression leads to a place of a document, step by step, if and only if
the keys on the way there have names that can be written. -/
theorem addressable_places :
    (∀ path, (∀ s ∈ path, s.Writable) → parse (render path) = .ok path) ∧
      (∀ expression path, parse expression = .ok path →
        (∀ s ∈ path, s.Writable) ∧ parse (render path) = .ok path) ∧
      ∀ (s : Settings) content t path v, Document.read s content = .ok t →
        t.get? path = some v →
        (∀ i, .index i ∈ path → (Numeral.ofNat i.natAbs).length ≤ Numeral.digitLimit) →
        ((∃ expression, parse expression = .ok path ∧
            Document.load s (some content) expression = .ok v) ↔
          ∀ name, .key name ∈ path → name ≠ [] ∧ ∀ c ∈ name, IsNameChar c) := by
  refine ⟨fun _ => parse_render, ?_, ?_⟩
  · intro expression path h
    exact ⟨writable_of_parse h, parse_render (writable_of_parse h)⟩
  · intro s content t path v ht hv hdigits
    rw [← writable_iff_of_get? hv hdigits]
    constructor
    · rintro ⟨expression, hpath, -⟩
      exact writable_of_parse hpath
    · intro hpath
      exact ⟨render path, parse_render hpath, load_of_parse ht (parse_render hpath) hv⟩

/-- In the document `{"c":[2],".":3}`, an expression leads to the item under `c` and none to the
value under the dot. -/
theorem addressable_places_beside_dot :
    let s : Settings := {}
    let content : Bytes :=
      [0x7B, 0x22, 0x63, 0x22, 0x3A, 0x5B, 0x32, 0x5D, 0x2C, 0x22, 0x2E, 0x22, 0x3A, 0x33, 0x7D]
    let t := Json.obj [(Text.ofString "c", .arr [.int 2]), (Text.ofString ".", .int 3)]
    let item : Path := [.key (Text.ofString "c"), .index 0]
    let dot : Path := [.key (Text.ofString ".")]
    (Document.read s content = .ok t ∧ t.get? item = some (.int 2) ∧ t.get? dot = some (.int 3)) ∧
      (∃ expression, parse expression = .ok item ∧
        Document.load s (some content) expression = .ok (.int 2)) ∧
      ¬ ∃ expression, parse expression = .ok dot ∧
        Document.load s (some content) expression = .ok (.int 3) := by
  intro s content t item dot
  have hread : Document.read s content = .ok t := by with_unfolding_all rfl
  have hitem : t.get? item = some (.int 2) := rfl
  have hdot : t.get? dot = some (.int 3) := rfl
  have hdigits : ∀ i, .index i ∈ item →
      (Numeral.ofNat i.natAbs).length ≤ Numeral.digitLimit := by
    intro i hi
    have hi : i = 0 := by simpa [item] using hi
    rw [hi]
    decide +kernel
  have hname : ∀ name, .key name ∈ item → name ≠ [] ∧ ∀ c ∈ name, IsNameChar c := by
    intro name hname
    have hname : name = Text.ofString "c" := by simpa [item] using hname
    rw [hname]
    decide
  have hnone : ¬ ∀ name, .key name ∈ dot → name ≠ [] ∧ ∀ c ∈ name, IsNameChar c := by
    intro h
    exact ((h _ List.mem_cons_self).2 _ List.mem_cons_self).1 rfl
  obtain ⟨-, -, hplaces⟩ := addressable_places
  exact ⟨⟨hread, hitem, hdot⟩, (hplaces s content t item _ hread hitem hdigits).2 hname,
    fun h => hnone ((hplaces s content t dot _ hread hdot (by simp [dot])).1 h)⟩

end Path

end JsonShelf
