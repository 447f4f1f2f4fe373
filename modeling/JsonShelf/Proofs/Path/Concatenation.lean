import JsonShelf.Proofs.Document.Refinement

/-!
# Expressions one behind the other

A dot between two expressions makes one expression of them. Its parts are those of the first one
with those of the second one behind them, whatever dots there are at the ends: a cut at a dot is a
cut of the whole text, and an expression without characters is one empty part, which writes no
steps. So the parts are judged from left to right in the first expression, and only then in the
second one, and the steps of both come one after the other.

Reading at the longer path goes through the value that is read at the first one.

## Main results

* `parse_append_separator` — parsing two expressions with a dot between them
* `lookUp_append_separator` — reading at two expressions with a dot between them
* `expressions_compose` — both, with the faults
-/

namespace JsonShelf

namespace Path

variable {a b : Text} {p q : Path}

/-- **A dot puts paths together.** -/
theorem parse_append_separator (a b : Text) :
    parse (a ++ separator :: b) = parse a >>= fun p => parse b >>= fun q => .ok (p ++ q) := by
  simp only [parse, List.splitOn_append_cons_self, List.mapM_append, bind_assoc, pure_bind,
    List.flatten_append]
  rfl

/-- **Reading behind a dot** is reading in the value that is there before the dot. -/
theorem lookUp_append_separator (ha : parse a = .ok p) (hb : parse b = .ok q) (t : Json) :
    Document.lookUp (some t) (a ++ separator :: b) =
      Document.lookUp (some t) a >>= fun v => Document.lookUp (some v) b := by
  have hab : parse (a ++ separator :: b) = .ok (p ++ q) := by
    rw [parse_append_separator, ha, hb]
    rfl
  rw [Document.lookUp_of_parse hab, Document.lookUp_of_parse ha, Json.get?_append]
  cases t.get? p with
  | none => rfl
  | some v => exact (Document.lookUp_of_parse hb v).symm

/-- **Expressions compose.** Of two expressions with a dot between them, the first one that has a
fault tells it, and it does not matter then what the other one is. If there is none, the path is the
one of the first expression with the one of the second behind it, and reading at it comes to what
reading at the second comes to in the value that is read at the first, if there is one. -/
theorem expressions_compose (a b : Text) :
    (∀ fault, parse a = .error fault → parse (a ++ separator :: b) = .error fault) ∧
      (∀ p fault, parse a = .ok p → parse b = .error fault →
        parse (a ++ separator :: b) = .error fault) ∧
      ∀ p q, parse a = .ok p → parse b = .ok q →
        parse (a ++ separator :: b) = .ok (p ++ q) ∧
          ∀ t, Document.lookUp (some t) (a ++ separator :: b) =
            Document.lookUp (some t) a >>= fun v => Document.lookUp (some v) b := by
  rw [parse_append_separator]
  refine ⟨?_, ?_, ?_⟩
  · intro fault ha
    rw [ha]
    rfl
  · intro p fault ha hb
    rw [ha, hb]
    rfl
  · intro p q ha hb
    refine ⟨?_, lookUp_append_separator ha hb⟩
    rw [ha, hb]
    rfl

/-- Dots at the ends of `x..` and `[1].` say nothing, neither there nor with a dot between the two,
and an open bracket is a fault on either side of a dot. -/
theorem expressions_compose_at_outer_dots :
    let a := Text.ofString "x.."
    let b := Text.ofString "[1]."
    let c := Text.ofString "y["
    let t := Json.obj [(Text.ofString "x", .arr [.null, .int 7])]
    (parse a = .ok [.key (Text.ofString "x")] ∧ parse b = .ok [.index 1] ∧
        parse c = .error .malformed) ∧
      parse (a ++ separator :: b) = .ok [.key (Text.ofString "x"), .index 1] ∧
      Document.lookUp (some t) (a ++ separator :: b) = .ok (.int 7) ∧
      parse (c ++ separator :: b) = .error .malformed ∧
      parse (a ++ separator :: c) = .error .malformed := by
  intro a b c t
  have ha : parse a = .ok [.key (Text.ofString "x")] := by with_unfolding_all rfl
  have hb : parse b = .ok [.index 1] := by with_unfolding_all rfl
  have hc : parse c = .error .malformed := by with_unfolding_all rfl
  obtain ⟨-, -, hboth⟩ := expressions_compose a b
  obtain ⟨hparse, hread⟩ := hboth _ _ ha hb
  have hx : Document.lookUp (some t) a = .ok (.arr [.null, .int 7]) :=
    Document.lookUp_of_parse ha t
  obtain ⟨hfirst, -⟩ := expressions_compose c b
  obtain ⟨-, hsecond, -⟩ := expressions_compose a c
  refine ⟨⟨ha, hb, hc⟩, hparse, ?_, hfirst _ hc, hsecond _ _ ha hc⟩
  rw [hread, hx]
  exact Document.lookUp_of_parse hb (.arr [.null, .int 7])

end Path

end JsonShelf
