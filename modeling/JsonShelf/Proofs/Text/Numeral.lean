import JsonShelf.Text.Numeral
import Mathlib.Data.List.Induction
import Mathlib.Tactic.Ring

/-!
# Numerals, written and read

What the decimal digits of a number look like, what digits in a row stand for, and how many there
are. Hexadecimal digits of a fixed width come back as the number that was written, if it fits.

## Main results

* `Numeral.isDigit_of_mem_ofNat`, `Numeral.ofNat_ne_nil`, `Numeral.head?_ofNat` — digits of a number
* `Numeral.toNat_append`, `Numeral.toNat_zeros` — the number of digits in a row
* `Numeral.length_ofNat_toNat_le` — reading and writing makes no numeral longer
* `Numeral.ofHex?_hex` — hexadecimal digits
-/

namespace JsonShelf

namespace CodePoint

theorem digitValue_lt {c : CodePoint} (h : c.IsDigit) : c.digitValue < 10 := by
  rw [digitValue]
  have := h.2
  omega

theorem digit_ne_digit_zero {n : Nat} (hn : n ≠ 0) (h : n < 10) : digit n ≠ digit 0 := by
  intro e
  have := congrArg digitValue e
  rw [digitValue_digit h] at this
  exact hn this

end CodePoint

namespace Numeral

/-! ### The digits of a number -/

theorem isDigit_of_mem_ofNat {n : Nat} {c : CodePoint} (h : c ∈ ofNat n) : c.IsDigit := by
  rw [ofNat, List.mem_reverse] at h
  fun_induction lowestFirst n with
  | case1 n hn =>
    rw [List.mem_singleton] at h
    exact h ▸ CodePoint.isDigit_digit hn
  | case2 n hn ih =>
    rcases List.mem_cons.1 h with rfl | h
    · exact CodePoint.isDigit_digit (Nat.mod_lt n (by omega))
    · exact ih h

theorem ofNat_of_lt {n : Nat} (h : n < 10) : ofNat n = [CodePoint.digit n] := by
  rw [ofNat, lowestFirst, if_pos h]
  rfl

theorem ofNat_of_ge {n : Nat} (h : 10 ≤ n) :
    ofNat n = ofNat (n / 10) ++ [CodePoint.digit (n % 10)] := by
  rw [ofNat, lowestFirst, if_neg (by omega), List.reverse_cons]
  rfl

theorem ofNat_ne_nil (n : Nat) : ofNat n ≠ [] := by
  rcases Nat.lt_or_ge n 10 with h | h
  · rw [ofNat_of_lt h]
    exact List.cons_ne_nil _ _
  · rw [ofNat_of_ge h]
    exact List.append_ne_nil_of_right_ne_nil _ (List.cons_ne_nil _ _)

/-- The first digit of a number other than zero is no zero. -/
theorem head?_ofNat {n : Nat} (hn : n ≠ 0) : (ofNat n).head? ≠ some (CodePoint.digit 0) := by
  induction n using Nat.strongRecOn with
  | ind n ih =>
    rcases Nat.lt_or_ge n 10 with h | h
    · rw [ofNat_of_lt h, List.head?_cons, ne_eq, Option.some.injEq]
      exact CodePoint.digit_ne_digit_zero hn h
    · obtain ⟨c, rest, hc⟩ := List.exists_cons_of_ne_nil (ofNat_ne_nil (n / 10))
      have := ih (n / 10) (by omega) (by omega)
      rw [hc] at this
      rwa [ofNat_of_ge h, hc]

/-! ### Digits in a row -/

theorem toNat_append (a b : Text) : toNat (a ++ b) = toNat a * 10 ^ b.length + toNat b := by
  induction b using List.reverseRecOn with
  | nil => simp [toNat]
  | append_singleton b c ih =>
    rw [← List.append_assoc, toNat_append_singleton, toNat_append_singleton, ih,
      List.length_append, List.length_singleton, pow_succ]
    ring

/-- Some zeros. -/
def zeros (n : Nat) : Text := List.replicate n (CodePoint.digit 0)

@[simp] theorem length_zeros (n : Nat) : (zeros n).length = n := List.length_replicate

theorem isDigit_of_mem_zeros {n : Nat} {c : CodePoint} (h : c ∈ zeros n) : c.IsDigit := by
  rw [List.eq_of_mem_replicate h]
  exact CodePoint.isDigit_digit (by omega)

@[simp] theorem toNat_zeros (n : Nat) : toNat (zeros n) = 0 := by
  induction n with
  | zero => rfl
  | succ n ih =>
    rw [zeros, List.replicate_succ', toNat_append_singleton, ← zeros, ih]
    rfl

/-- Leading zeros say nothing. -/
@[simp] theorem toNat_zeros_append (n : Nat) (digits : Text) :
    toNat (zeros n ++ digits) = toNat digits := by
  rw [toNat_append, toNat_zeros]
  omega

theorem toNat_append_zeros (digits : Text) (n : Nat) :
    toNat (digits ++ zeros n) = toNat digits * 10 ^ n := by
  rw [toNat_append, toNat_zeros, length_zeros]
  rfl

/-! ### Lengths -/

theorem toNat_lt {digits : Text} (h : ∀ c ∈ digits, c.IsDigit) :
    toNat digits < 10 ^ digits.length := by
  induction digits using List.reverseRecOn with
  | nil => simp [toNat]
  | append_singleton digits c ih =>
    have hc := CodePoint.digitValue_lt (h c (by simp))
    have := ih fun d hd => h d (by simp [hd])
    rw [toNat_append_singleton, List.length_append, List.length_singleton, pow_succ]
    omega

theorem length_ofNat_le {n k : Nat} (hk : 0 < k) (h : n < 10 ^ k) : (ofNat n).length ≤ k := by
  induction k generalizing n with
  | zero => omega
  | succ k ih =>
    rcases Nat.lt_or_ge n 10 with hn | hn
    · rw [ofNat_of_lt hn]
      exact hk
    · have hlt : n / 10 < 10 ^ k := Nat.div_lt_of_lt_mul (by rw [pow_succ] at h; omega)
      have hk' : 0 < k := by
        rcases Nat.eq_zero_or_pos k with rfl | hk'
        · simp at hlt
          omega
        · exact hk'
      have := ih hk' hlt
      rw [ofNat_of_ge hn, List.length_append, List.length_singleton]
      omega

/-- The number that digits stand for is written with as many digits at most. -/
theorem length_ofNat_toNat_le {digits : Text} (hne : digits ≠ [])
    (h : ∀ c ∈ digits, c.IsDigit) : (ofNat (toNat digits)).length ≤ digits.length :=
  length_ofNat_le (List.length_pos_iff.2 hne) (toNat_lt h)

/-! ### Hexadecimal digits -/

theorem ofHex?_append_singleton (digits : Text) (c : CodePoint) :
    ofHex? (digits ++ [c]) =
      (ofHex? digits).bind fun n => c.hexValue?.map (16 * n + ·) := by
  simp [ofHex?, List.foldlM_append]

/-- Hexadecimal digits of a width come back as the part of the number that fits. -/
theorem ofHex?_hex (width n : Nat) : ofHex? (hex width n) = some (n % 16 ^ width) := by
  induction width generalizing n with
  | zero => simp [hex, ofHex?, Nat.mod_one]
  | succ width ih =>
    rw [hex, ofHex?_append_singleton, ih, Option.bind_some,
      CodePoint.hexValue?_hexDigit (Nat.mod_lt n (by omega)), Option.map_some, pow_succ,
      Nat.mul_comm (16 ^ width), Nat.mod_mul]
    congr 1
    omega

end Numeral

end JsonShelf
