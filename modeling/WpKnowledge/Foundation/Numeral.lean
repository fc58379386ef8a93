import Mathlib.Data.List.Basic
import Mathlib.Data.List.Induction
import Mathlib.Tactic.Common

/-!
# Decimal numerals

Every number has exactly one numeral: a text of digits whose first digit is no zero, or
zero alone.  So a reader that accepts only numerals can be turned around.

Main results:

- Theorem {lit}`Numeral.toDigits_ofDigitChars`: a numeral is what its number is written as.
- Theorem {lit}`numeral_and_value_iff`: the numeral of a number is the only one.
-/

namespace Foundation

/-- A text of digits without zeros in front. -/
structure Numeral (s : List Char) : Prop where
  ne_nil : s ≠ []
  digits : ∀ c ∈ s, c.isDigit = true
  head : 1 < s.length → s.head? ≠ some '0'

/-- A digit is the one its number is written as. -/
theorem digitChar_of_isDigit {c : Char} (h : c.isDigit = true) : (c.toNat - 48).digitChar = c := by
  have hrange : 48 ≤ c.toNat ∧ c.toNat ≤ 57 := by
    simpa [Char.isDigit, UInt32.le_iff_toNat_le] using h
  apply Char.toNat_inj.mp
  rw [Nat.toNat_digitChar_of_lt_ten (by omega)]
  omega

/-- The number of a text with one more digit. -/
theorem ofDigitChars_concat (s : List Char) (c : Char) :
    Nat.ofDigitChars 10 (s ++ [c]) 0 = 10 * Nat.ofDigitChars 10 s 0 + (c.toNat - 48) := by
  rw [Nat.ofDigitChars_append, Nat.ofDigitChars_cons, Nat.ofDigitChars_nil]
  rfl

/-- A numeral of several digits is one without its last digit. -/
theorem Numeral.of_concat {s : List Char} {c : Char} (h : Numeral (s ++ [c])) (hs : s ≠ []) :
    Numeral s where
  ne_nil := hs
  digits := fun d hd => h.digits d (List.mem_append_left [c] hd)
  head := by
    intro hlen hzero
    apply h.head
    · rw [List.length_append]
      omega
    · rw [List.head?_append, hzero, Option.some_or]

/-- A numeral is what its number is written as. -/
theorem Numeral.toDigits_ofDigitChars {s : List Char} (h : Numeral s) :
    Nat.toDigits 10 (Nat.ofDigitChars 10 s 0) = s := by
  induction s using List.reverseRecOn with
  | nil => exact absurd rfl h.ne_nil
  | append_singleton s c ih =>
      have hdigit : c.isDigit = true := h.digits c (by simp)
      have hc := digitChar_of_isDigit hdigit
      have hlt : c.toNat - 48 < 10 := by
        have hrange : 48 ≤ c.toNat ∧ c.toNat ≤ 57 := by
          simpa [Char.isDigit, UInt32.le_iff_toNat_le] using hdigit
        omega
      rw [ofDigitChars_concat]
      by_cases hs : s = []
      · subst hs
        rw [Nat.ofDigitChars_nil, Nat.mul_zero, Nat.zero_add, Nat.toDigits_of_lt_base hlt, hc]
        rfl
      · have hprev := ih (h.of_concat hs)
        have hpos : 0 < Nat.ofDigitChars 10 s 0 := by
          -- else the text in front of the last digit would be a zero
          rw [Nat.pos_iff_ne_zero]
          intro hzero
          rw [hzero, Nat.toDigits_zero] at hprev
          exact h.head (by simp [← hprev]) (by simp [← hprev])
        rw [← Nat.toDigits_append_toDigits (by decide) hpos hlt, hprev,
          Nat.toDigits_of_lt_base hlt, hc]

/-- What a number other than zero is written as does not start with a zero. -/
theorem head?_toDigits_ne {n : Nat} (h : 0 < n) : (Nat.toDigits 10 n).head? ≠ some '0' := by
  induction n using Nat.strongRecOn with
  | ind n ih =>
      by_cases hlt : n < 10
      · rw [Nat.toDigits_of_lt_base hlt, List.head?_cons, Ne, Option.some.injEq,
          Nat.digitChar_eq_zero]
        omega
      · rw [Nat.toDigits_of_base_le (by decide) (Nat.le_of_not_lt hlt),
          List.head?_append_of_ne_nil _ Nat.toDigits_ne_nil]
        exact ih (n / 10) (by omega) (by omega)

/-- What a number is written as is a numeral. -/
theorem numeral_toDigits (n : Nat) : Numeral (Nat.toDigits 10 n) where
  ne_nil := Nat.toDigits_ne_nil
  digits := fun _ hc => Nat.isDigit_of_mem_toDigits (by decide) (by decide) hc
  head := by
    intro hlen
    apply head?_toDigits_ne
    rw [Nat.pos_iff_ne_zero]
    rintro rfl
    rw [Nat.toDigits_zero] at hlen
    exact absurd hlen (by decide)

/-- The numeral of a number is the only one. -/
theorem numeral_and_value_iff {s : List Char} {n : Nat} :
    Numeral s ∧ Nat.ofDigitChars 10 s 0 = n ↔ s = Nat.toDigits 10 n := by
  constructor
  · rintro ⟨h, rfl⟩
    exact h.toDigits_ofDigitChars.symm
  · rintro rfl
    exact ⟨numeral_toDigits n, Nat.ofDigitChars_ten_toDigits⟩

end Foundation
