import Mathlib.Algebra.Order.Ring.Nat
import Mathlib.Tactic.Ring

/-!
# Widening a binary float

The conversion of a 32-bit float to a 64-bit one on the IEEE-754 bits.  The magnitude of a
finite float is a multiple of the smallest subnormal of its format, so it is a natural
number in that unit: {lit}`2 ^ -149` for the narrow format and {lit}`2 ^ -1074` for the
wide one.

Main results:

- Theorem {lit}`magnitude64_widen`: a finite float keeps its magnitude.
- Theorem {lit}`widen_inj`: floats that are no NaN and widen alike are equal.
-/

namespace Foundation

/-- The bits of a 32-bit float: sign, exponent and fraction. -/
structure Narrow where
  sign : Bool
  exponent : Nat
  fraction : Nat
  exponent_lt : exponent < 2 ^ 8
  fraction_lt : fraction < 2 ^ 23
deriving DecidableEq, Repr

namespace Narrow

/-- Neither an infinity nor a NaN. -/
def Finite (x : Narrow) : Prop := x.exponent < 255

/-- No NaN. -/
def IsNumber (x : Narrow) : Prop := x.exponent < 255 ∨ x.fraction = 0

instance (x : Narrow) : Decidable x.IsNumber := inferInstanceAs (Decidable (_ ∨ _))

/-- The magnitude, in units of the smallest subnormal. -/
def magnitude (x : Narrow) : Nat :=
  if x.exponent = 0 then x.fraction else (2 ^ 23 + x.fraction) * 2 ^ (x.exponent - 1)

/-- The exponent of the widened float. -/
def wideExponent (x : Narrow) : Nat :=
  if x.exponent = 255 then 2047
  else if x.exponent ≠ 0 then x.exponent + 896
  else if x.fraction = 0 then 0
  else 874 + x.fraction.log2

/-- The fraction of the widened float: a subnormal is normalised, a NaN becomes quiet. -/
def wideFraction (x : Narrow) : Nat :=
  if x.exponent = 255 then
    if x.fraction = 0 then 0 else (x.fraction ||| 2 ^ 22) * 2 ^ 29
  else if x.exponent ≠ 0 then x.fraction * 2 ^ 29
  else (x.fraction - 2 ^ x.fraction.log2) * 2 ^ (52 - x.fraction.log2)

/-- The bits of the 64-bit float. -/
def widen (x : Narrow) : Nat :=
  (if x.sign then 2 ^ 63 else 0) + x.wideExponent * 2 ^ 52 + x.wideFraction

end Narrow

/-- The magnitude of a finite 64-bit float, in units of the smallest subnormal. -/
def magnitude64 (exponent fraction : Nat) : Nat :=
  if exponent = 0 then fraction else (2 ^ 52 + fraction) * 2 ^ (exponent - 1)

namespace Narrow

/-- A subnormal has less than 23 bits. -/
theorem log2_fraction_lt {x : Narrow} (h : x.fraction ≠ 0) : x.fraction.log2 < 23 :=
  (Nat.log2_lt h).mpr x.fraction_lt

/-- Normalising a subnormal keeps its magnitude. -/
theorem normalised {m k : Nat} (hk : k ≤ 52) (h : 2 ^ k ≤ m) :
    (2 ^ 52 + (m - 2 ^ k) * 2 ^ (52 - k)) * 2 ^ k = m * 2 ^ 52 := by
  have hpow : 2 ^ (52 - k) * 2 ^ k = 2 ^ 52 := by rw [← Nat.pow_add, Nat.sub_add_cancel hk]
  obtain ⟨d, rfl⟩ := Nat.exists_eq_add_of_le h
  rw [Nat.add_sub_cancel_left, Nat.add_mul, Nat.mul_assoc, hpow]
  ring

/-- A finite float keeps its magnitude. -/
theorem magnitude64_widen {x : Narrow} (h : x.Finite) :
    magnitude64 x.wideExponent x.wideFraction = x.magnitude * 2 ^ (1074 - 149) := by
  have hfinite : x.exponent ≠ 255 := Nat.ne_of_lt h
  unfold magnitude64 wideExponent wideFraction magnitude
  rw [if_neg hfinite, if_neg hfinite]
  by_cases hexp : x.exponent = 0
  · by_cases hzero : x.fraction = 0
    · simp only [hexp, hzero, ne_eq, not_true_eq_false, if_false, if_true, Nat.zero_mul]
      decide
    · have hlog := log2_fraction_lt hzero
      have hle : 2 ^ x.fraction.log2 ≤ x.fraction := Nat.log2_self_le hzero
      rw [if_neg (not_not.mpr hexp), if_neg hzero, if_neg (by omega),
        if_neg (not_not.mpr hexp), if_pos hexp]
      calc
        (2 ^ 52 + (x.fraction - 2 ^ x.fraction.log2) * 2 ^ (52 - x.fraction.log2)) *
              2 ^ (874 + x.fraction.log2 - 1) =
            (2 ^ 52 + (x.fraction - 2 ^ x.fraction.log2) * 2 ^ (52 - x.fraction.log2)) *
              2 ^ x.fraction.log2 * 2 ^ 873 := by
          rw [Nat.mul_assoc, ← Nat.pow_add]
          congr 2
          omega
        _ = x.fraction * 2 ^ (1074 - 149) := by
          have hunit : 1074 - 149 = 52 + 873 := rfl
          rw [normalised (by omega) hle, hunit, Nat.pow_add, Nat.mul_assoc]
  · rw [if_pos hexp, if_neg (by omega), if_pos hexp, if_neg hexp]
    have hshift : x.exponent + 896 - 1 = x.exponent - 1 + 896 := by omega
    have hunit : 1074 - 149 = 29 + 896 := rfl
    rw [hshift, pow_add, hunit, pow_add 2 29]
    generalize 2 ^ 896 = shift
    ring

/-! ## The bits of the widened float -/

theorem wideExponent_lt (x : Narrow) : x.wideExponent < 2 ^ 11 := by
  have hlt := x.exponent_lt
  unfold wideExponent
  split_ifs with h255 hexp hzero
  · omega
  · omega
  · omega
  · have hlog := log2_fraction_lt hzero
    omega

theorem wideFraction_lt (x : Narrow) : x.wideFraction < 2 ^ 52 := by
  have hlt := x.fraction_lt
  unfold wideFraction
  split_ifs with h255 hzero hexp
  · omega
  · have hor : x.fraction ||| 2 ^ 22 < 2 ^ 23 := Nat.or_lt_two_pow hlt (by omega)
    omega
  · omega
  · by_cases hzero : x.fraction = 0
    · simp [hzero]
    · have hlog := log2_fraction_lt hzero
      have hle : 2 ^ x.fraction.log2 ≤ x.fraction := Nat.log2_self_le hzero
      have hself : x.fraction < 2 ^ (x.fraction.log2 + 1) := Nat.lt_log2_self
      have hrest : x.fraction - 2 ^ x.fraction.log2 < 2 ^ x.fraction.log2 := by
        rw [Nat.pow_succ] at hself
        omega
      calc
        (x.fraction - 2 ^ x.fraction.log2) * 2 ^ (52 - x.fraction.log2) <
            2 ^ x.fraction.log2 * 2 ^ (52 - x.fraction.log2) :=
          Nat.mul_lt_mul_of_pos_right hrest (Nat.two_pow_pos _)
        _ = 2 ^ 52 := by rw [← Nat.pow_add, Nat.add_sub_cancel' (by omega)]

theorem widen_lt (x : Narrow) : x.widen < 2 ^ 64 := by
  have hexp := x.wideExponent_lt
  have hfrac := x.wideFraction_lt
  unfold widen
  split <;> omega

/-- The parts of the widened float are read off its bits. -/
theorem parts_of_widen_eq {x y : Narrow} (h : x.widen = y.widen) :
    x.sign = y.sign ∧ x.wideExponent = y.wideExponent ∧ x.wideFraction = y.wideFraction := by
  have hx := x.wideExponent_lt
  have hx' := x.wideFraction_lt
  have hy := y.wideExponent_lt
  have hy' := y.wideFraction_lt
  unfold widen at h
  cases hsx : x.sign <;> cases hsy : y.sign <;> simp only [hsx, hsy] at h ⊢ <;> simp at h ⊢ <;>
    omega

/-- The exponents of subnormals, of normal numbers and of the others are apart. -/
theorem exponent_eq_of_wideExponent_eq {x y : Narrow} (h : x.wideExponent = y.wideExponent) :
    x.exponent = y.exponent := by
  have hclass : ∀ z : Narrow, (z.exponent = 255 ∧ z.wideExponent = 2047) ∨
      (z.exponent = 0 ∧ z.wideExponent < 897) ∨
      (0 < z.exponent ∧ z.exponent < 255 ∧ z.wideExponent = z.exponent + 896) := by
    intro z
    have hlt := z.exponent_lt
    unfold wideExponent
    split_ifs with h255 hexp hzero
    · exact .inl ⟨h255, rfl⟩
    · exact .inr (.inr ⟨by omega, by omega, rfl⟩)
    · exact .inr (.inl ⟨by omega, by omega⟩)
    · have hlog := log2_fraction_lt hzero
      exact .inr (.inl ⟨by omega, by omega⟩)
  have hx := hclass x
  have hy := hclass y
  omega

/-- Of two subnormals that widen to one exponent and one fraction the fractions are equal. -/
theorem fraction_eq_of_subnormal {x y : Narrow} (hx : x.exponent = 0) (hy : y.exponent = 0)
    (hexp : x.wideExponent = y.wideExponent) (hfrac : x.wideFraction = y.wideFraction) :
    x.fraction = y.fraction := by
  have h255x : x.exponent ≠ 255 := by omega
  have h255y : y.exponent ≠ 255 := by omega
  simp only [wideExponent, wideFraction, if_neg h255x, if_neg h255y, if_neg (not_not.mpr hx),
    if_neg (not_not.mpr hy)] at hexp hfrac
  by_cases hzx : x.fraction = 0
  · by_contra hne
    rw [if_pos hzx, if_neg fun hzy => hne (hzx.trans hzy.symm)] at hexp
    omega
  · have hzy : y.fraction ≠ 0 := by
      intro hzy
      rw [if_neg hzx, if_pos hzy] at hexp
      omega
    rw [if_neg hzx, if_neg hzy] at hexp
    have hlog : x.fraction.log2 = y.fraction.log2 := by omega
    have hlex : 2 ^ x.fraction.log2 ≤ x.fraction := Nat.log2_self_le hzx
    have hley : 2 ^ y.fraction.log2 ≤ y.fraction := Nat.log2_self_le hzy
    rw [hlog] at hlex hfrac
    have hrest := Nat.eq_of_mul_eq_mul_right (Nat.two_pow_pos _) hfrac
    omega

/-- Floats that are no NaN and widen alike are equal. -/
theorem widen_inj {x y : Narrow} (hx : x.IsNumber) (hy : y.IsNumber)
    (h : x.widen = y.widen) : x = y := by
  obtain ⟨hsign, hwide, hfrac⟩ := parts_of_widen_eq h
  have hexp : x.exponent = y.exponent := exponent_eq_of_wideExponent_eq hwide
  have hfraction : x.fraction = y.fraction := by
    by_cases h0 : x.exponent = 0
    · exact fraction_eq_of_subnormal h0 (hexp ▸ h0) hwide hfrac
    · unfold wideFraction at hfrac
      unfold IsNumber at hx hy
      by_cases h255 : x.exponent = 255
      · omega
      · have h255y : y.exponent ≠ 255 := hexp ▸ h255
        have h0y : y.exponent ≠ 0 := hexp ▸ h0
        simp only [if_neg h255, if_neg h255y, if_pos h0, if_pos h0y] at hfrac
        omega
  cases x
  cases y
  simp_all

end Narrow

end Foundation
