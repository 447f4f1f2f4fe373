import JsonShelf.Proofs.Double.FewestDigits
import JsonShelf.Proofs.Json.RoundTrip

/-!
# Stored doubles survive

A number literal is read as the double nearest to the number that it writes, whatever its digits and
its exponent are. The literal of a finite double is printed with the fewest digits that the double
covers, so nothing else than this double is nearest to it, and reading gives the double back with
its sign, which zero has as well. The literal always has a fraction or an exponent: there is no
double whose text would be taken for an integer.

## Main definitions

* `Number.magnitude` — the number that a literal writes, without its sign

## Main results

* `Number.roundsTo_toDouble_iff` — literals are read as the double nearest to them
* `finite_double_survives` — what is printed for a finite double is read as this double
-/

namespace JsonShelf

namespace Json

namespace Number

/-- The number that a literal writes, without its sign. -/
def magnitude (n : Number) : ℚ := Numeral.toNat n.digits * 10 ^ n.scale

/-- **A literal is read as the double nearest to it**, and no other double would be correct. -/
theorem roundsTo_toDouble_iff {n : Number} {y : Double} :
    Double.RoundsTo n.negative n.magnitude y ↔ n.toDouble = y := by
  rw [toDouble_eq]
  exact Double.roundsTo_ofDecimal_iff

theorem Literal.areDigits {t : Text} {n : Number} (h : Literal t n) : AreDigits n.digits := by
  obtain ⟨negative, integer, fraction, exponent⟩ := n
  obtain ⟨-, hdigits, hfraction, -⟩ := h
  have hinteger := areDigits_of_whole hdigits
  refine ⟨List.append_ne_nil_of_left_ne_nil hinteger.1 _, ?_⟩
  cases hfraction with
  | none =>
    rw [digits, Option.getD_none, List.append_nil]
    exact hinteger.2
  | point hbehind => exact List.forall_mem_append.2 ⟨hinteger.2, hbehind.2⟩

end Number

/-! ### Few digits -/

/-- No literal that is read as a double has fewer digits than the shortest decimal. -/
theorem Number.length_ofNat_shortest_le {t : Text} {n : Number} (h : Literal t n)
    {x : Double.Finite} (hx : n.toDouble = .finite x) :
    (Numeral.ofNat x.shortest.digits).length ≤ n.digits.length := by
  rw [toDouble_eq] at hx
  obtain ⟨-, hcovers⟩ := Double.ofDecimal_eq_finite_iff.1 hx
  have hdigits := h.areDigits
  exact Numeral.length_ofNat_le (List.length_pos_iff.2 hdigits.1)
    (Double.Finite.digits_shortest_lt_of_covers hcovers (Numeral.toNat_lt hdigits.2))

/-- Seventeen digits are enough for every double. -/
theorem length_ofNat_shortest_le_seventeen (x : Double.Finite) :
    (Numeral.ofNat x.shortest.digits).length ≤ 17 :=
  Numeral.length_ofNat_le (by decide) x.digits_shortest_lt

/-- The greatest double needs them all. -/
example : (Double.finite ⟨false, Double.significandBound - 1, Double.maxExponent, by decide,
    by decide, by decide, .inr (by decide)⟩).print = Text.ofString "1.7976931348623157e+308" := by
  decide +kernel

/-! ### There and back -/

theorem print_double (st : Style) (x : Double) : (Json.double x).print st = x.print := rfl

/-- A literal with a fraction or an exponent denotes its double, and nothing else. -/
theorem denotes_iff_of_not_isInteger {t : Text} {n : Number} (h : Number.Literal t n)
    (hn : n.isInteger = false) {v : Json} {integers : List Text} :
    Grammar.Denotes t v integers ↔ v = .double n.toDouble ∧ integers = [] := by
  have hdenotes := Token.denotes_of_not_isInteger h hn
  refine ⟨fun h' => h'.unique hdenotes, ?_⟩
  rintro ⟨rfl, rfl⟩
  exact hdenotes

/-- **Finite doubles survive.** The text that is printed for a finite double is a literal with a
fraction or an exponent, and is taken for one also at the front of a longer text. Of all doubles
only this one is nearest to the number that the literal writes, and it is the one that the literal
is converted to. So the text denotes the double and nothing else, no integer in particular, and as a
document it is read as the double. -/
theorem finite_double_survives (x : Double.Finite) (st : Style) :
    (∃ n : Number, Number.Literal ((Json.double (.finite x)).print st) n ∧
        (n.fraction.isSome ∨ n.exponent.isSome) ∧
        (∀ rest, Number.Ends rest →
          Number.read ((Json.double (.finite x)).print st ++ rest) = some (n, rest)) ∧
        (∀ y, Double.RoundsTo n.negative n.magnitude y ↔ y = .finite x) ∧
        n.toDouble = .finite x) ∧
      (∀ v integers, Grammar.Denotes ((Json.double (.finite x)).print st) v integers ↔
        v = .double (.finite x) ∧ integers = []) ∧
      readDocument ((Json.double (.finite x)).print st) = .ok (.double (.finite x)) := by
  rw [print_double]
  obtain ⟨n, hliteral, hinteger, hdouble⟩ := Number.exists_literal_finite x
  refine ⟨⟨n, hliteral, Number.isInteger_eq_false_iff.1 hinteger, ?_, fun y => ?_, hdouble⟩,
    fun v integers => ?_, ?_⟩
  · exact fun rest hrest => Number.read_literal hliteral hrest
  · rw [Number.roundsTo_toDouble_iff, hdouble, eq_comm]
  · rw [denotes_iff_of_not_isInteger hliteral hinteger, hdouble]
  · exact readDocument_eq_ok_iff.2 (read_eq_ok_iff.2 (readable_double _))

end Json

end JsonShelf
