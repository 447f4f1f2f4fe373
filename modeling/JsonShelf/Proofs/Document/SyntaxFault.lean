import JsonShelf.Proofs.Document.Refinement
import JsonShelf.Proofs.Json.Viable
import JsonShelf.Proofs.Text.Place

/-!
# The place of a fault in the text of a document

Content that is a text in the encoding but no JSON text is malformed, and every load and every write
tells where. Up to this place nothing is wrong: what is before it is the beginning of a text with a
value. So whoever repairs the document finds the fault at the place or behind it.

The place counts characters, unlike that of content that cannot be decoded. Its line is one more
than the line feeds before it, and its column counts from the last of them.

## Main results

* `Json.Fault.place_defect` — the place of a fault is behind what is before it
* `malformed_text_is_told_in_time` — what is told about a malformed text
-/

namespace JsonShelf

/-- The place of a fault is behind what is before it. -/
theorem Json.Fault.place_defect {f : Json.Fault} {t before : Text} (h : t = before ++ f.rest) :
    (f.defect t).place = .behind before := by
  have hposition : f.position t = before.length := by
    rw [Json.Fault.position, h, List.length_append, Nat.add_sub_cancel]
  rw [Json.Fault.defect, hposition, h, Place.ofPosition_append]

namespace Document

variable {s : Settings} {content : Bytes} {t : Text} {d : Defect}

/-- The defect of content that can be decoded is that of a fault in its text. -/
theorem exists_fault_of_read (hdecode : decode s.encoding content = .ok t)
    (h : read s content = .error (.malformed d)) :
    ∃ f, Json.readDocument t = .error (.fault f) ∧ d = f.defect t := by
  simp only [read, hdecode] at h
  obtain ⟨f | count, hread, hd⟩ := mapError_eq_error_iff.1 h
  · cases hd
    exact ⟨f, hread, rfl⟩
  · cases hd

/-- **The fault of a malformed text is told in time.** If content is a text in the encoding and this
text is malformed, every load and every write tells the same defect, with a place in the text. What
is before this place can be completed to a text that is read as a value. The line is one more than
the number of line feeds before the place, and the column is one more than the number of characters
between the last of them, or the start, and the place. -/
theorem malformed_text_is_told_in_time (hdecode : decode s.encoding content = .ok t)
    (h : read s content = .error (.malformed d)) :
    let before := t.take d.place.offset
    (∀ expression, load s (some content) expression = .error (.malformed d)) ∧
      (∀ expression value,
        write s (some content) expression value = .error (.malformed d)) ∧
      d.place.offset ≤ t.length ∧
      Json.Viable before ∧
      d.place.line = before.count Text.lineFeed + 1 ∧
      ∃ line, Text.LastLine before line ∧ d.place.column = line.length + 1 := by
  obtain ⟨f, hread, hd⟩ := exists_fault_of_read hdecode h
  obtain ⟨before, ht, hviable⟩ := Json.viable_of_readDocument hread
  have hplace : d.place = .behind before := by rw [hd, Json.Fault.place_defect ht]
  have htake : t.take d.place.offset = before := by
    rw [hplace, ht]
    exact List.take_left
  obtain ⟨line, hline⟩ := Text.exists_lastLine before
  refine ⟨load_of_read_error h, write_of_read_error h, ?_, ?_, ?_, line, ?_, ?_⟩
  · rw [hplace, ht, List.length_append]
    exact Nat.le_add_right _ _
  · rwa [htake]
  · rw [htake, hplace]
    rfl
  · rwa [htake]
  · rw [hplace, hline.column_behind]

/-- In an array on the second line, a comma is missing. -/
theorem malformed_text_is_told_in_time_on_second_line :
    let s : Settings := {}
    let t := Text.ofString "[null,\n[1 2]]"
    let content := t.map fun c => UInt8.ofNat c.val
    let d : Defect := ⟨.text .comma, ⟨2, 4, 10⟩⟩
    decode s.encoding content = .ok t ∧ read s content = .error (.malformed d) ∧
      (∀ expression, load s (some content) expression = .error (.malformed d)) ∧
      Json.Viable (Text.ofString "[null,\n[1 ") := by
  intro s t content d
  have hdecode : decode s.encoding content = .ok t := by with_unfolding_all rfl
  have hread : read s content = .error (.malformed d) := by with_unfolding_all rfl
  obtain ⟨hload, -, -, hviable, -⟩ := malformed_text_is_told_in_time hdecode hread
  exact ⟨hdecode, hread, hload, hviable⟩

end Document

end JsonShelf
