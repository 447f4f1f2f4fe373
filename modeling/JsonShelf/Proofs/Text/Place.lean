import JsonShelf.Text.Place
import Mathlib.Data.List.Induction

/-!
# Places behind the beginning of a text

A position in a text splits it, and only what is before the position matters for its place. The
place counts the line feeds there, and what is behind the last one of them.

## Main definitions

* `Text.LastLine` — what is behind the last line feed of a text
* `Place.behind` — the place where a text ends

## Main results

* `Place.ofPosition_append` — the place behind the first part of a text
* `Text.LastLine.column_behind` — columns are counted on the last line
-/

namespace JsonShelf

namespace Text

/-- What is behind the last line feed of a text, which is all of it if there is none. -/
inductive LastLine : Text → Text → Prop
  | only {line : Text} (h : lineFeed ∉ line) : LastLine line line
  | below (above : Text) {line : Text} (h : lineFeed ∉ line) :
    LastLine (above ++ lineFeed :: line) line

theorem exists_lastLine (t : Text) : ∃ line, LastLine t line := by
  induction t using List.reverseRecOn with
  | nil => exact ⟨[], .only nofun⟩
  | append_singleton t c ih =>
    by_cases hc : c = lineFeed
    · subst hc
      exact ⟨[], .below t nofun⟩
    · obtain ⟨line, hline⟩ := ih
      have hnot : lineFeed ∉ line → lineFeed ∉ line ++ [c] := by
        simpa using fun h => ⟨h, Ne.symm hc⟩
      cases hline with
      | only h => exact ⟨t ++ [c], .only (hnot h)⟩
      | below above h => exact ⟨line ++ [c], by simpa using LastLine.below above (hnot h)⟩

theorem LastLine.lastLineStart_add {t line : Text} (h : LastLine t line) :
    t.lastLineStart + line.length = t.length := by
  have hdrop : ∀ {line : Text}, lineFeed ∉ line → ∀ above : Text,
      (line.reverse ++ above).dropWhile (· ≠ lineFeed) = above.dropWhile (· ≠ lineFeed) := by
    intro line hline above
    refine List.dropWhile_append_of_pos fun c hc => decide_eq_true ?_
    rintro rfl
    exact hline (List.mem_reverse.1 hc)
  cases h with
  | only h =>
    have hnil := hdrop h []
    rw [List.append_nil, List.dropWhile_nil] at hnil
    rw [lastLineStart, hnil, List.length_nil, Nat.zero_add]
  | below above h =>
    rw [lastLineStart, List.reverse_append, List.reverse_cons, List.append_assoc, hdrop h,
      List.singleton_append, List.dropWhile_cons_of_neg (by simp)]
    simp only [List.length_cons, List.length_reverse, List.length_append]
    omega

end Text

namespace Place

/-- The place where a text ends: behind all of its characters, on its last line. -/
def behind (t : Text) : Place where
  line := t.lineCount + 1
  column := t.length + 1 - t.lastLineStart
  offset := t.length

/-- The place behind the first part of a text. -/
theorem ofPosition_append (t rest : Text) : ofPosition (t ++ rest) t.length = behind t := by
  rw [ofPosition, List.take_left]
  rfl

end Place

/-- **Columns are counted on the last line.** -/
theorem Text.LastLine.column_behind {t line : Text} (h : LastLine t line) :
    (Place.behind t).column = line.length + 1 := by
  have := h.lastLineStart_add
  show t.length + 1 - t.lastLineStart = line.length + 1
  omega

end JsonShelf
