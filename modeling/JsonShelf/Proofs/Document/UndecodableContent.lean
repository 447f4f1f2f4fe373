import JsonShelf.Proofs.Document.Refinement
import JsonShelf.Proofs.Encoding.Fault
import JsonShelf.Proofs.Text.Place

/-!
# The place of bytes that cannot be decoded

Content that cannot be decoded is malformed, and so its defect has a place in a text, which is the
content decoded with replacements. The place of the fault in this text is behind the characters that
the bytes before the fault are. But the position that is told counts bytes, and the line and the
column are those of this position: it is too far to the right by as much as the bytes are more than
the characters, possibly some lines below the fault or beyond the end of the text.

So the place that is told is the place of the fault if everything before it takes one byte, and it
is not in every other case.

## Main definitions

* `toldPlace` — the place that is told of undecodable content

## Main results

* `load_of_broken`, `write_of_broken` — what is told about undecodable content
* `undecodable_place_counts_bytes` — what this has to do with the place of the fault
* `undecodable_place_is_not_of_fault` — a fault that is told in the wrong place
-/

namespace JsonShelf

namespace Document

variable {s : Settings} {e : Encoding} {content before : Bytes} {text : Text}

/-- The place that is told of undecodable content: the line and the column of the position, in the
text with replacements, that is as many characters from the start as there are bytes before the
fault. -/
def toldPlace (e : Encoding) (content before : Bytes) : Place :=
  .ofPosition (e.decodeReplacing content) ((e.opening content).origin + before.length)

/-! ### What is told -/

theorem read_of_broken (hs : s.Uses e) (h : e.Broken content before text) :
    read s content = .error (.malformed ⟨.bytes s.encoding, toldPlace e content before⟩) := by
  obtain ⟨u, hu, hposition⟩ := h.decode_eq_error
  have hne : content ≠ [] := by
    rintro rfl
    rw [decode_nil] at hu
    cases hu
  rw [read, decode, hs.label]
  simp only [if_neg hne, encodingOf, hs.encoding]
  show (decodeIn s.encoding e content >>= ofText) = _
  rw [decodeIn, hu, toldPlace, ← hposition]
  rfl

theorem load_of_broken (hs : s.Uses e) (h : e.Broken content before text) (expression : Text) :
    load s (some content) expression =
      .error (.malformed ⟨.bytes s.encoding, toldPlace e content before⟩) :=
  load_of_read_error (read_of_broken hs h) expression

theorem write_of_broken (hs : s.Uses e) (h : e.Broken content before text) (expression : Text)
    (value : Json) :
    write s (some content) expression value =
      .error (.malformed ⟨.bytes s.encoding, toldPlace e content before⟩) :=
  write_of_read_error (read_of_broken hs h) expression value

/-! ### The place of the fault -/

/-- The place that is told is the place of the fault if bytes and characters are as many. -/
theorem toldPlace_eq_behind_iff (h : e.Broken content before text) :
    toldPlace e content before = .behind text ↔
      (e.opening content).origin = 0 ∧ ∀ c ∈ text, (e.opening content).scheme.IsSingle c := by
  rw [← h.origin_add_length_eq_iff]
  constructor
  · intro hplace
    exact congrArg Place.offset hplace
  · intro hlength
    obtain ⟨after, hreplacing⟩ := h.decodeReplacing_eq
    rw [toldPlace, hlength, hreplacing, Place.ofPosition_append]

/-- **The place of undecodable content counts bytes.** Content that is not valid in the encoding is
broken in one place. Before it are the bytes of a text, with which the text with replacements begins
too. Every load and every write tells, as the place of the defect, the position in the text with
replacements that has as many characters before it as there are bytes before the fault. It is never
before the fault, and it is the place of the fault if and only if each character before it takes one
byte and no mark is counted. -/
theorem undecodable_place_counts_bytes (hs : s.Uses e) {u : Encoding.Undecodable}
    (hu : e.decode content = .error u) :
    ∃ before text, e.Broken content before text ∧
      (∀ before' text', e.Broken content before' text' → before' = before ∧ text' = text) ∧
      (∃ after, e.decodeReplacing content = text ++ .replacement :: after) ∧
      (∀ expression, load s (some content) expression =
        .error (.malformed ⟨.bytes s.encoding, toldPlace e content before⟩)) ∧
      (∀ expression value, write s (some content) expression value =
        .error (.malformed ⟨.bytes s.encoding, toldPlace e content before⟩)) ∧
      (Place.behind text).offset ≤ (toldPlace e content before).offset ∧
      (toldPlace e content before = .behind text ↔
        (e.opening content).origin = 0 ∧ ∀ c ∈ text, (e.opening content).scheme.IsSingle c) := by
  obtain ⟨before, text, h⟩ := Encoding.exists_broken hu
  refine ⟨before, text, h, fun _ _ => h.unique, h.decodeReplacing_eq, load_of_broken hs h,
    write_of_broken hs h, ?_, toldPlace_eq_behind_iff h⟩
  have hle := (Encoding.length_le_of_encodeBody h.encodeBody).1
  exact Nat.le_trans hle (Nat.le_add_left _ _)

/-- Behind two ASCII characters, the place that is told is the one of the fault. -/
theorem undecodable_place_counts_bytes_behind_ascii :
    let s : Settings := {}
    let e := Encoding.plain .utf8
    let content : Bytes := [0x61, 0x0A, 0xFF]
    s.Uses e ∧ (∃ u, e.decode content = .error u) ∧
      load s (some content) [] = .error (.malformed ⟨.bytes s.encoding, ⟨2, 1, 2⟩⟩) := by
  intro s e content
  have hs : s.Uses e := Settings.uses_name (some 2) _ List.mem_cons_self
  have hbroken : e.Broken content [0x61, 0x0A] (Text.ofString "a\n") :=
    ⟨by with_unfolding_all rfl, 0xFF, [], .invalidStart, 0, rfl, rfl⟩
  obtain ⟨u, hu, -⟩ := hbroken.decode_eq_error
  obtain ⟨before, text, -, hunique, -, hload, -, -, hplace⟩ := undecodable_place_counts_bytes hs hu
  obtain ⟨rfl, rfl⟩ := hunique _ _ hbroken
  have hbehind := hplace.2 ⟨rfl, by decide⟩
  refine ⟨hs, ⟨u, hu⟩, ?_⟩
  rw [hload, hbehind]
  rfl

/-- **The place that is told is not the place of the fault.** Behind a letter of two bytes there is
one character before the fault, on the first line, and two are told. -/
theorem undecodable_place_is_not_of_fault :
    let s : Settings := {}
    let e := Encoding.plain .utf8
    let content : Bytes := [0xC3, 0xA9, 0xFF]
    let text : Text := [.ofNat 0xE9]
    s.Uses e ∧ e.Broken content [0xC3, 0xA9] text ∧ Place.behind text = ⟨1, 2, 1⟩ ∧
      (∀ expression, load s (some content) expression =
        .error (.malformed ⟨.bytes s.encoding, ⟨1, 3, 2⟩⟩)) ∧
      ∀ expression value, write s (some content) expression value =
        .error (.malformed ⟨.bytes s.encoding, ⟨1, 3, 2⟩⟩) := by
  intro s e content text
  have hs : s.Uses e := Settings.uses_name (some 2) _ List.mem_cons_self
  have hbroken : e.Broken content [0xC3, 0xA9] text :=
    ⟨by with_unfolding_all rfl, 0xFF, [], .invalidStart, 0, rfl, rfl⟩
  have htold : toldPlace e content [0xC3, 0xA9] = ⟨1, 3, 2⟩ := by with_unfolding_all rfl
  refine ⟨hs, hbroken, rfl, ?_, ?_⟩
  · intro expression
    rw [load_of_broken hs hbroken, htold]
  · intro expression value
    rw [write_of_broken hs hbroken, htold]

end Document

end JsonShelf
