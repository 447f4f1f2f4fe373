import JsonShelf.Proofs.Document.Refinement
import JsonShelf.Proofs.Json.TwoWrites

/-!
# Content that a write leaves

What a write leaves was printed from a document, and so it stands for this document and is the only
content that is ever printed for it. Everything that is read there, at whatever path, can be put
back where it was without changing a byte: the document is the same then, with its keys in the same
order, and so is its text. Above all, to repeat a write changes nothing.

Content that was written by other hands is no such content. It may have blanks, escapes and names
that repeat, all of which are lost with the first write.

## Main definitions

* `Document.Bears` — content that was printed from a document with a value at a path

## Main results

* `bears_of_write`, `Bears.write` — a write puts its value at its path and spares other places
* `Bears.write_back` — putting back a value changes nothing
* `stored_content_is_fixed` — content that a write leaves is left by every write of what is there
-/

namespace JsonShelf

namespace Document

variable {s : Settings} {p q : Path} {v w : Json} {content : Bytes} {expression : Text}

/-- The content was printed from a document with `v` at `p`. -/
def Bears (s : Settings) (p : Path) (v : Json) (content : Bytes) : Prop :=
  ∃ root : Json, root.WellFormed ∧ print s root = .ok content ∧ root.get? p = some v

/-- A write puts the value at its path. -/
theorem bears_of_write {file : Option Bytes} (hv : v.WellFormed)
    (h : write s file expression v = .ok content) :
    ∃ p, Path.parse expression = .ok p ∧ Bears s p v content := by
  obtain ⟨root, p, hroot, hp, hdone, hprint⟩ := exists_of_write h
  exact ⟨p, hp, _, hroot.wellFormed_getD.write p hv, hprint, Json.get?_write_self hdone⟩

/-- A write to another place of the document leaves the value where it is. -/
theorem Bears.write (h : Bears s p v content) {value : Json} {content' : Bytes}
    (hvalue : value.WellFormed)
    (hwrite : Document.write s (some content) expression value = .ok content')
    (hspares : ∀ q, Path.parse expression = .ok q → ¬ (q <+: p ∨ p <+: q)) :
    Bears s p v content' := by
  obtain ⟨document, hdocument, hprint, hget⟩ := h
  obtain ⟨root, q, hroot, hq, -, hprint'⟩ := exists_of_write hwrite
  obtain _ | hread := hroot
  rw [read_of_print hdocument hprint] at hread
  cases hread
  have hnot := hspares q hq
  rw [not_or] at hnot
  refine ⟨_, hdocument.write q hvalue, hprint', ?_⟩
  rw [← hget]
  exact Json.get?_write_of_not_prefix hnot.1 hnot.2 document value

theorem Bears.load (h : Bears s p v content)
    (hp : Path.parse expression = .ok p) : Document.load s (some content) expression = .ok v := by
  obtain ⟨root, hroot, hprint, hget⟩ := h
  rw [load_of_standsFor (.content (read_of_print hroot hprint)), lookUp_of_parse hp, hget]
  rfl

theorem Bears.wellFormed (h : Bears s p v content) : v.WellFormed := by
  obtain ⟨root, hroot, -, hget⟩ := h
  exact hroot.get? hget

/-- The content bears at other paths what is loaded there. -/
theorem Bears.of_load (h : Bears s p v content)
    (hload : Document.load s (some content) expression = .ok w) :
    ∃ q, Path.parse expression = .ok q ∧ Bears s q w content := by
  obtain ⟨root, hroot, hprint, -⟩ := h
  obtain ⟨root', q, hread, hq, hget⟩ := exists_of_load hload
  rw [read_of_print hroot hprint] at hread
  cases hread
  exact ⟨q, mapError_eq_ok_iff.1 hq, root, hroot, hprint, hget⟩

/-- **Putting back a value changes nothing.** -/
theorem Bears.write_back (h : Bears s p v content) (hp : Path.parse expression = .ok p) :
    Document.write s (some content) expression v = .ok content := by
  obtain ⟨root, hroot, hprint, hget⟩ := h
  have hpath : path expression = .ok p := mapError_eq_ok_iff.2 hp
  rw [write_of_standsFor (.content (read_of_print hroot hprint)) hpath, Option.getD_some,
    Json.write_of_get? hget, if_pos rfl, hprint]

/-- **Stored content is a fixed point.** After a write of a value that texts can stand for, the same
write again leaves the same bytes, and so does a write of any value that is loaded from the content,
to the place where it was found. -/
theorem stored_content_is_fixed {file : Option Bytes} {value : Json} (hvalue : value.WellFormed)
    (h : write s file expression value = .ok content) :
    write s (some content) expression value = .ok content ∧
      ∀ other v, load s (some content) other = .ok v →
        write s (some content) other v = .ok content := by
  obtain ⟨p, hp, hbears⟩ := bears_of_write hvalue h
  refine ⟨hbears.write_back hp, ?_⟩
  intro other v hload
  obtain ⟨q, hq, hother⟩ := hbears.of_load hload
  exact hother.write_back hq

/-- In Latin-1, a write at `a` to a missing file leaves `{"a": {"é": -0.0}}`, and so does a write at
`a.é` of the zero that is found there. -/
theorem stored_content_is_fixed_below_zero :
    let s : Settings := ⟨none, Text.ofString "latin-1"⟩
    let a := Text.ofString "a"
    let inner := Text.ofString "a.é"
    let zero := Json.double (.finite (.zero true))
    let value := Json.obj [(Text.ofString "é", zero)]
    let content : Bytes :=
      [0x7B, 0x22, 0x61, 0x22, 0x3A, 0x20, 0x7B, 0x22, 0xE9, 0x22, 0x3A, 0x20, 0x2D, 0x30, 0x2E,
        0x30, 0x7D, 0x7D]
    value.WellFormed ∧ write s none a value = .ok content ∧
      write s (some content) a value = .ok content ∧
      load s (some content) inner = .ok zero ∧ write s (some content) inner zero = .ok content := by
  intro s a inner zero value content
  have hvalue : value.WellFormed :=
    .obj (by decide) (List.forall_mem_singleton.2 (.double (.finite (.zero true))))
  have hwrite : write s none a value = .ok content := by with_unfolding_all rfl
  have hload : load s (some content) inner = .ok zero := by with_unfolding_all rfl
  obtain ⟨hagain, hback⟩ := stored_content_is_fixed hvalue hwrite
  exact ⟨hvalue, hwrite, hagain, hload, hback inner zero hload⟩

end Document

end JsonShelf
