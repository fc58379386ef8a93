import Mathlib.Algebra.GroupWithZero.Nat
import Mathlib.Data.List.Basic
import Mathlib.Tactic.Common
import WpKnowledge.Foundation.Text
import WpKnowledge.Foundation.Utf8

/-!
# Slices of a text at byte positions

A text is cut at the number of bytes before the cut.  There is no cut inside a
character and none beyond the end; a program that makes one stops there, which is the
value {lit}`none`.

Main results:

- Theorem {lit}`splitAtByte_eq_some_iff`: where a text can be cut, and into what.
- Theorem {lit}`slice_eq_some_iff`: what lies between two cuts.
- Theorem {lit}`byteIs_append_cons_add`: a byte of an ASCII character is no byte of another
  character.
- Theorem {lit}`findByte_eq_map_cutFirst`: the position of a character is the length of
  what is before it.
-/

namespace Foundation

/-- The number of bytes of a text. -/
def byteLength (s : List Char) : Nat :=
  (s.map Char.utf8Size).sum

@[simp]
theorem byteLength_nil : byteLength [] = 0 :=
  rfl

@[simp]
theorem byteLength_cons (c : Char) (s : List Char) :
    byteLength (c :: s) = c.utf8Size + byteLength s := by
  simp [byteLength]

@[simp]
theorem byteLength_append (s t : List Char) :
    byteLength (s ++ t) = byteLength s + byteLength t := by
  simp [byteLength]

/-! ## One cut -/

/-- The two parts of a text around a byte position. -/
def splitAtByte : Nat → List Char → Option (List Char × List Char)
  | 0, s => some ([], s)
  | _ + 1, [] => none
  | n + 1, c :: s =>
      if c.utf8Size ≤ n + 1 then
        (splitAtByte (n + 1 - c.utf8Size) s).map (Prod.map (c :: ·) id)
      else none

/-- A text is cut at the length of its first part. -/
theorem splitAtByte_append (l r : List Char) :
    splitAtByte (byteLength l) (l ++ r) = some (l, r) := by
  induction l with
  | nil => rw [List.nil_append, byteLength_nil, splitAtByte]
  | cons c l ih =>
      have hpos := c.utf8Size_pos
      obtain ⟨n, hn⟩ : ∃ n, byteLength (c :: l) = n + 1 :=
        ⟨c.utf8Size - 1 + byteLength l, by rw [byteLength_cons]; omega⟩
      have hrest : n + 1 - c.utf8Size = byteLength l := by
        rw [byteLength_cons] at hn
        omega
      have hle : c.utf8Size ≤ n + 1 := by
        rw [byteLength_cons] at hn
        omega
      rw [hn, List.cons_append, splitAtByte, if_pos hle, hrest, ih]
      rfl

/-- A cut leaves two parts of the text, the first one as long as the position says. -/
theorem splitAtByte_eq_some_iff {n : Nat} {s l r : List Char} :
    splitAtByte n s = some (l, r) ↔ s = l ++ r ∧ byteLength l = n := by
  constructor
  · intro h
    induction s generalizing n l with
    | nil =>
        cases n with
        | zero =>
            cases h
            exact ⟨rfl, rfl⟩
        | succ n => cases h
    | cons c s ih =>
        cases n with
        | zero =>
            cases h
            exact ⟨rfl, rfl⟩
        | succ n =>
            rw [splitAtByte] at h
            split_ifs at h with hle
            obtain ⟨⟨l', r'⟩, hcut, hmap⟩ := Option.map_eq_some_iff.mp h
            cases hmap
            obtain ⟨rfl, hlength⟩ := ih hcut
            refine ⟨rfl, ?_⟩
            simp only [byteLength_cons]
            omega
  · rintro ⟨rfl, rfl⟩
    exact splitAtByte_append l r

/-- The text up to a byte position. -/
def sliceTo (s : List Char) (n : Nat) : Option (List Char) :=
  (splitAtByte n s).map Prod.fst

/-- The text from a byte position on. -/
def sliceFrom (s : List Char) (n : Nat) : Option (List Char) :=
  (splitAtByte n s).map Prod.snd

@[simp]
theorem sliceTo_append (l r : List Char) : sliceTo (l ++ r) (byteLength l) = some l := by
  rw [sliceTo, splitAtByte_append]
  rfl

@[simp]
theorem sliceFrom_append (l r : List Char) : sliceFrom (l ++ r) (byteLength l) = some r := by
  rw [sliceFrom, splitAtByte_append]
  rfl

/-- What is left after a cut is no longer than the text. -/
theorem length_le_of_sliceFrom {s r : List Char} {n : Nat} (h : sliceFrom s n = some r) :
    r.length ≤ s.length := by
  obtain ⟨⟨l, r'⟩, hcut, rfl⟩ := Option.map_eq_some_iff.mp h
  obtain ⟨rfl, -⟩ := splitAtByte_eq_some_iff.mp hcut
  simp

/-- What is left after a cut behind the start is shorter than the text. -/
theorem length_lt_of_sliceFrom {s r : List Char} {n : Nat} (h : sliceFrom s (n + 1) = some r) :
    r.length < s.length := by
  obtain ⟨⟨l, r'⟩, hcut, rfl⟩ := Option.map_eq_some_iff.mp h
  obtain ⟨rfl, hlength⟩ := splitAtByte_eq_some_iff.mp hcut
  cases l with
  | nil => cases hlength
  | cons c l =>
      simp only [List.cons_append, List.length_cons, List.length_append]
      omega

/-! ## Two cuts -/

/-- The text between two byte positions. -/
def slice (s : List Char) (start stop : Nat) : Option (List Char) :=
  if start ≤ stop then (sliceTo s stop).bind fun first => sliceFrom first start else none

/-- The text between two cuts is the middle one of three parts. -/
theorem slice_eq_some_iff {s m : List Char} {start stop : Nat} :
    slice s start stop = some m ↔
      ∃ l r, s = l ++ m ++ r ∧ byteLength l = start ∧ byteLength (l ++ m) = stop := by
  constructor
  · intro h
    rw [slice] at h
    split_ifs at h
    obtain ⟨first, hto, hfrom⟩ := Option.bind_eq_some_iff.mp h
    obtain ⟨⟨first', r⟩, hcut, rfl⟩ := Option.map_eq_some_iff.mp hto
    obtain ⟨⟨l, m'⟩, hcut', rfl⟩ := Option.map_eq_some_iff.mp hfrom
    obtain ⟨rfl, hstop⟩ := splitAtByte_eq_some_iff.mp hcut
    simp only at hcut'
    obtain ⟨rfl, hstart⟩ := splitAtByte_eq_some_iff.mp hcut'
    exact ⟨l, r, rfl, hstart, hstop⟩
  · rintro ⟨l, r, rfl, rfl, rfl⟩
    rw [slice, if_pos (by simp), sliceTo_append, Option.bind_some, sliceFrom_append]

/-! ## Bytes -/

/-- Whether the byte at a position is the one of an ASCII character, if there is one. -/
def byteIs (s : List Char) (n : Nat) (c : Char) : Option Bool :=
  (s.flatMap String.utf8EncodeChar)[n]?.map (· == UInt8.ofNat c.toNat)

theorem length_flatMap_utf8EncodeChar_eq (s : List Char) :
    (s.flatMap String.utf8EncodeChar).length = byteLength s := by
  induction s with
  | nil => rfl
  | cons c s ih =>
      rw [List.flatMap_cons, List.length_append, ih, byteLength_cons,
        String.length_utf8EncodeChar]

/-- A byte of a character is the one of an ASCII character if the character is. -/
theorem beq_of_mem_utf8EncodeChar {a c : Char} (ha : a.toNat < 128) {b : UInt8}
    (hb : b ∈ String.utf8EncodeChar c) : (b == UInt8.ofNat a.toNat) = (c == a) := by
  have hsmall : ∀ x : Char, x.toNat < 128 → (UInt8.ofNat x.toNat).toNat = x.toNat := by
    intro x hx
    rw [UInt8.toNat_ofNat']
    omega
  rw [Bool.eq_iff_iff, beq_iff_eq, beq_iff_eq]
  by_cases hc : c.toNat < 128
  · rw [utf8EncodeChar_of_lt hc, List.mem_singleton] at hb
    rw [hb, ← UInt8.toNat_inj, hsmall c hc, hsmall a ha]
    exact Char.toNat_inj
  · have hwide := (wide_of_mem_utf8EncodeChar (Nat.le_of_not_lt hc) hb).1
    rw [UInt8.le_iff_toNat_le] at hwide
    constructor
    · intro heq
      rw [heq, hsmall a ha] at hwide
      exact absurd ha (Nat.not_lt.mpr hwide)
    · rintro rfl
      exact absurd ha hc

/-- Any byte of a character is the one of an ASCII character if the character is. -/
theorem byteIs_append_cons_add {a : Char} (ha : a.toNat < 128) (l : List Char) (c : Char)
    (r : List Char) {i : Nat} (hi : i < c.utf8Size) :
    byteIs (l ++ c :: r) (byteLength l + i) a = some (c == a) := by
  have hbytes : i < (String.utf8EncodeChar c).length := by
    rwa [String.length_utf8EncodeChar]
  have hleft : (l.flatMap String.utf8EncodeChar).length ≤ byteLength l + i := by
    rw [length_flatMap_utf8EncodeChar_eq]
    exact Nat.le_add_right _ i
  rw [byteIs, List.flatMap_append, List.flatMap_cons, List.getElem?_append_right hleft,
    length_flatMap_utf8EncodeChar_eq, Nat.add_sub_cancel_left, List.getElem?_append_left hbytes,
    List.getElem?_eq_getElem hbytes, Option.map_some,
    beq_of_mem_utf8EncodeChar ha (List.getElem_mem hbytes)]

/-- The first byte of a character. -/
theorem byteIs_append_cons {a : Char} (ha : a.toNat < 128) (l : List Char) (c : Char)
    (r : List Char) : byteIs (l ++ c :: r) (byteLength l) a = some (c == a) :=
  byteIs_append_cons_add ha l c r c.utf8Size_pos

/-- The last byte of a character. -/
theorem byteIs_append_cons_pred {a : Char} (ha : a.toNat < 128) (l : List Char) (c : Char)
    (r : List Char) : byteIs (l ++ c :: r) (byteLength (l ++ [c]) - 1) a = some (c == a) := by
  have hpos := c.utf8Size_pos
  have hlast : byteLength (l ++ [c]) - 1 = byteLength l + (c.utf8Size - 1) := by
    rw [byteLength_append, byteLength_cons, byteLength_nil]
    omega
  rw [hlast, byteIs_append_cons_add ha l c r (Nat.sub_one_lt_of_lt hpos)]

/-! ## Finding a character -/

/-- The byte position of the first occurrence of a character. -/
def findByte (sep : Char) : List Char → Option Nat
  | [] => none
  | c :: s => if c = sep then some 0 else (findByte sep s).map (c.utf8Size + ·)

/-- A character is found behind what is before it. -/
theorem findByte_eq_map_cutFirst (sep : Char) (s : List Char) :
    findByte sep s = (cutFirst sep s).map fun cut => byteLength cut.1 := by
  induction s with
  | nil => rfl
  | cons c s ih =>
      rw [findByte, cutFirst]
      split_ifs with hc
      · rfl
      · rw [ih]
        cases cutFirst sep s <;> simp

end Foundation
