import Mathlib.Data.Set.Card
import Mathlib.Order.CompletePartialOrder
import Mathlib.Order.Interval.Finset.Nat

/-!
# Blocks of addresses

Addresses of a width that share a prefix: the words that a mask of leading ones cuts to
the same.  The block of an address is a range of as many numbers as the bits behind the
prefix allow.

Main results:

- Theorem {lit}`mem_prefixBlock_iff`: a block lies between the address without the bits
  behind the prefix and the one with all of them.
- Theorem {lit}`ncard_prefixBlock`: how many addresses a block has.
- Theorem {lit}`prefixBlock_nested_or_disjoint`: two blocks do not overlap otherwise.
-/

namespace Foundation

variable {w : Nat}

/-- Ones in front, as many as the prefix has bits. -/
def prefixMask (w k : Nat) : BitVec w :=
  BitVec.allOnes w <<< (w - k)

/-- The first address of a block. -/
theorem toNat_and_prefixMask (a : BitVec w) (k : Nat) :
    (a &&& prefixMask w k).toNat = a.toNat / 2 ^ (w - k) * 2 ^ (w - k) := by
  have hle : a.toNat / 2 ^ (w - k) * 2 ^ (w - k) < 2 ^ w :=
    Nat.lt_of_le_of_lt (Nat.div_mul_le_self _ _) a.isLt
  rw [prefixMask, ← BitVec.shiftLeft_ushiftRight, BitVec.toNat_shiftLeft, BitVec.toNat_ushiftRight,
    Nat.shiftRight_eq_div_pow, Nat.shiftLeft_eq, Nat.mod_eq_of_lt hle]

/-- The bits behind the prefix. -/
theorem toNat_not_prefixMask (w k : Nat) :
    (~~~ prefixMask w k).toNat = 2 ^ (w - k) - 1 := by
  have hmask := toNat_and_prefixMask (BitVec.allOnes w) k
  rw [BitVec.allOnes_and, BitVec.toNat_allOnes] at hmask
  have hpow : 2 ^ w = (2 ^ (w - (w - k)) - 1) * 2 ^ (w - k) + 2 ^ (w - k) := by
    rw [← Nat.succ_mul, Nat.succ_eq_add_one, Nat.sub_add_cancel (Nat.two_pow_pos _), ← Nat.pow_add,
      Nat.sub_add_cancel (Nat.sub_le w k)]
  have hpos : 0 < 2 ^ (w - k) := Nat.two_pow_pos _
  rw [BitVec.toNat_not, hmask, ← Nat.mod_eq_sub_div_mul, hpow, Nat.add_sub_assoc hpos,
    Nat.mul_comm, Nat.mul_add_mod, Nat.mod_eq_of_lt (Nat.sub_one_lt_of_lt hpos)]

/-- The last address of a block. -/
theorem toNat_or_not_prefixMask (a : BitVec w) (k : Nat) :
    ((a &&& prefixMask w k) ||| ~~~ prefixMask w k).toNat =
      a.toNat / 2 ^ (w - k) * 2 ^ (w - k) + (2 ^ (w - k) - 1) := by
  have hlt : 2 ^ (w - k) - 1 < 2 ^ (w - k) := Nat.sub_one_lt_of_lt (Nat.two_pow_pos _)
  rw [BitVec.toNat_or, toNat_and_prefixMask, toNat_not_prefixMask, Nat.mul_comm,
    Nat.two_pow_add_eq_or_of_lt hlt]

/-! ## Blocks -/

/-- The addresses with the prefix of an address. -/
def prefixBlock (a : BitVec w) (k : Nat) : Set (BitVec w) :=
  { b | b &&& prefixMask w k = a &&& prefixMask w k }

/-- An address is in its block. -/
theorem self_mem_prefixBlock (a : BitVec w) (k : Nat) : a ∈ prefixBlock a k :=
  rfl

/-- A block is where the bits in front are those of its address. -/
theorem mem_prefixBlock_iff_div {a b : BitVec w} {k : Nat} :
    b ∈ prefixBlock a k ↔ b.toNat / 2 ^ (w - k) = a.toNat / 2 ^ (w - k) := by
  have hpos : 0 < 2 ^ (w - k) := Nat.two_pow_pos _
  rw [prefixBlock, Set.mem_ofPred_eq, ← BitVec.toNat_inj, toNat_and_prefixMask,
    toNat_and_prefixMask, Nat.mul_right_cancel_iff hpos]

/-- A block is what lies between its first and its last address. -/
theorem mem_prefixBlock_iff {a b : BitVec w} {k : Nat} :
    b ∈ prefixBlock a k ↔
      a &&& prefixMask w k ≤ b ∧ b ≤ (a &&& prefixMask w k) ||| ~~~ prefixMask w k := by
  have hpos : 0 < 2 ^ (w - k) := Nat.two_pow_pos _
  rw [mem_prefixBlock_iff_div, BitVec.le_def, BitVec.le_def, toNat_or_not_prefixMask,
    toNat_and_prefixMask, Nat.div_eq_iff hpos, Nat.add_sub_assoc hpos]

/-- A block has an address for all that the bits behind the prefix can be. -/
theorem ncard_prefixBlock (a : BitVec w) (k : Nat) :
    (prefixBlock a k).ncard = 2 ^ (w - k) := by
  have hpos : 0 < 2 ^ (w - k) := Nat.two_pow_pos _
  let first := (a &&& prefixMask w k).toNat
  let last := ((a &&& prefixMask w k) ||| ~~~ prefixMask w k).toNat
  have himage : BitVec.toNat '' prefixBlock a k = (Finset.Icc first last : Set Nat) := by
    ext n
    rw [Finset.coe_Icc, Set.mem_Icc, Set.mem_image]
    constructor
    · rintro ⟨b, hb, rfl⟩
      exact mem_prefixBlock_iff.mp hb
    · rintro ⟨hfirst, hlast⟩
      have hlt : n < 2 ^ w := Nat.lt_of_le_of_lt hlast (BitVec.isLt _)
      refine ⟨BitVec.ofNatLT n hlt, mem_prefixBlock_iff.mpr ⟨hfirst, hlast⟩, rfl⟩
  have hlast : last = first + (2 ^ (w - k) - 1) := by
    rw [show last = _ from toNat_or_not_prefixMask a k, show first = _ from toNat_and_prefixMask a k]
  rw [← Set.ncard_image_of_injective _ (fun _ _ => BitVec.eq_of_toNat_eq), himage,
    Set.ncard_coe_finset, Nat.card_Icc, hlast]
  omega

/-- With a longer prefix, a block with a common address is the smaller one. -/
theorem prefixBlock_subset {a b c : BitVec w} {k l : Nat} (hkl : k ≤ l)
    (ha : c ∈ prefixBlock a k) (hb : c ∈ prefixBlock b l) :
    prefixBlock b l ⊆ prefixBlock a k := by
  obtain ⟨d, hd⟩ := Nat.pow_dvd_pow 2 (Nat.sub_le_sub_left hkl w)
  have hdiv : ∀ x : BitVec w, x.toNat / 2 ^ (w - k) = x.toNat / 2 ^ (w - l) / d := by
    intro x
    rw [hd, Nat.div_div_eq_div_mul]
  intro x hx
  rw [mem_prefixBlock_iff_div] at ha hb hx ⊢
  rw [hdiv, hx, ← hb, ← hdiv, ha]

/-- Two blocks are nested, or no address is in both. -/
theorem prefixBlock_nested_or_disjoint (a b : BitVec w) (k l : Nat) :
    prefixBlock a k ⊆ prefixBlock b l ∨ prefixBlock b l ⊆ prefixBlock a k ∨
      Disjoint (prefixBlock a k) (prefixBlock b l) := by
  by_cases hcommon : ∃ c, c ∈ prefixBlock a k ∧ c ∈ prefixBlock b l
  · obtain ⟨c, ha, hb⟩ := hcommon
    rcases Nat.le_total k l with hkl | hlk
    · exact Or.inr (Or.inl (prefixBlock_subset hkl ha hb))
    · exact Or.inl (prefixBlock_subset hlk hb ha)
  · refine Or.inr (Or.inr (Set.disjoint_left.mpr ?_))
    exact fun c ha hb => hcommon ⟨c, ha, hb⟩

end Foundation
