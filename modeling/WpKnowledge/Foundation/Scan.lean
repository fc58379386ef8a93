import WpKnowledge.Foundation.Slice

/-!
# Reading a text by index

A program that reads the bytes of a text by index stops if an index is beyond the end, if
a slice is not within the bytes, or if a slice of the text begins or ends inside a
character; that is the value {lit}`none` here.  A loop that moves the index forward is
compared with a function of what stands from the index on.

Main results:

- Theorem {lit}`skipWhile_eq`: where the plainest of such loops ends.
- Theorem {lit}`isCut_of_ascii`: before and after an ASCII byte a text can be cut.
- Theorem {lit}`slice_of_isCut`: the slice between two cuts, in bytes.
- Theorem {lit}`fromUtf8_of_ascii`: ASCII bytes are a text.
-/

namespace Foundation

section Indices

variable {α : Type}

/-! ## Indices -/

/-- What stands at an index, and behind it. -/
theorem of_drop_eq_cons {xs rest : List α} {idx : Nat} {x : α} (h : xs.drop idx = x :: rest) :
    idx < xs.length ∧ xs[idx]? = some x ∧ xs.drop (idx + 1) = rest := by
  have hlt : idx < xs.length := by
    by_contra hle
    rw [List.drop_of_length_le (Nat.le_of_not_lt hle)] at h
    cases h
  rw [List.drop_eq_getElem_cons hlt] at h
  obtain ⟨hget, hrest⟩ := List.cons.inj h
  exact ⟨hlt, by rw [List.getElem?_eq_getElem hlt, hget], hrest⟩

/-- At an index within the list something stands. -/
theorem exists_drop_eq_cons {xs : List α} {idx : Nat} (hlt : idx < xs.length) :
    ∃ x rest, xs.drop idx = x :: rest :=
  ⟨xs[idx], xs.drop (idx + 1), List.drop_eq_getElem_cons hlt⟩

/-- Nothing stands at the end. -/
theorem not_lt_of_drop_eq_nil {xs : List α} {idx : Nat} (h : xs.drop idx = []) :
    ¬ idx < xs.length :=
  Nat.not_lt.mpr (List.drop_eq_nil_iff.mp h)

/-- The elements between two indices. -/
def sliceOf (xs : List α) (start stop : Nat) : Option (List α) :=
  if start ≤ stop ∧ stop ≤ xs.length then some ((xs.take stop).drop start) else none

/-- The slice from an index to the end. -/
theorem sliceOf_length {xs : List α} {idx : Nat} (hle : idx ≤ xs.length) :
    sliceOf xs idx xs.length = some (xs.drop idx) := by
  rw [sliceOf, if_pos ⟨hle, le_rfl⟩, List.take_length]

/-- The slice of a given length from an index on. -/
theorem sliceOf_add {xs rest : List α} {idx n : Nat} (h : xs.drop idx = rest)
    (hlt : idx < xs.length) (hn : n ≤ rest.length) :
    sliceOf xs idx (idx + n) = some (rest.take n) := by
  have hlen : rest.length = xs.length - idx := by
    rw [← h, List.length_drop]
  rw [sliceOf, if_pos ⟨Nat.le_add_right idx n, by omega⟩, List.drop_take, h, Nat.add_sub_cancel_left]

/-- Whether there is room for so many elements more. -/
theorem add_le_length_iff {xs rest : List α} {idx : Nat} (h : xs.drop idx = rest)
    (hlt : idx < xs.length) (n : Nat) : idx + n ≤ xs.length ↔ n ≤ rest.length := by
  have hlen : rest.length = xs.length - idx := by
    rw [← h, List.length_drop]
  omega

/-- `while idx < xs.len() && p(xs[idx]) { idx += 1 }`. -/
def skipWhile (p : α → Bool) (xs : List α) (idx : Nat) : Option Nat :=
  if idx < xs.length then
    match xs[idx]? with
    | none => none
    | some x => if p x then skipWhile p xs (idx + 1) else some idx
  else some idx
termination_by xs.length - idx

/-- The loop passes over the longest part that satisfies the condition. -/
theorem skipWhile_eq (p : α → Bool) {xs rest : List α} {idx : Nat} (h : xs.drop idx = rest) :
    skipWhile p xs idx = some (idx + (rest.takeWhile p).length) := by
  induction rest generalizing idx with
  | nil =>
      rw [skipWhile, if_neg (not_lt_of_drop_eq_nil h)]
      rfl
  | cons x rest ih =>
      obtain ⟨hlt, hget, hrest⟩ := of_drop_eq_cons h
      rw [skipWhile, if_pos hlt, hget]
      by_cases hx : p x = true
      · simp only [hx, if_true, ih hrest, List.takeWhile_cons_of_pos, List.length_cons]
        congr 1
        omega
      · simp [hx]

end Indices

/-! ## Cuts -/

/-- `str::as_bytes`. -/
def asBytes (s : List Char) : List UInt8 :=
  s.flatMap String.utf8EncodeChar

@[simp]
theorem asBytes_nil : asBytes [] = [] := rfl

@[simp]
theorem asBytes_cons (c : Char) (s : List Char) :
    asBytes (c :: s) = String.utf8EncodeChar c ++ asBytes s :=
  List.flatMap_cons

@[simp]
theorem asBytes_append (s t : List Char) : asBytes (s ++ t) = asBytes s ++ asBytes t :=
  List.flatMap_append

@[simp]
theorem length_asBytes (s : List Char) : (asBytes s).length = byteLength s :=
  length_flatMap_utf8EncodeChar_eq s

/-- The bytes of a string are those of its characters. -/
theorem asBytes_toList (text : String) : asBytes text.toList = text.toUTF8.toList :=
  (toList_toUTF8 text).symm

/-- The text can be cut at the byte position. -/
def IsCut (s : List Char) (n : Nat) : Prop :=
  ∃ l r, s = l ++ r ∧ byteLength l = n

theorem isCut_zero (s : List Char) : IsCut s 0 :=
  ⟨[], s, rfl, rfl⟩

theorem isCut_byteLength (s : List Char) : IsCut s (byteLength s) :=
  ⟨s, [], by simp, rfl⟩

theorem IsCut.cons {s : List Char} {n : Nat} (h : IsCut s n) (c : Char) :
    IsCut (c :: s) (c.utf8Size + n) := by
  obtain ⟨l, r, rfl, rfl⟩ := h
  exact ⟨c :: l, r, rfl, byteLength_cons c l⟩

/-- Before and after an ASCII byte the text can be cut. -/
theorem isCut_of_ascii {s : List Char} {n : Nat} {b : UInt8}
    (h : (asBytes s)[n]? = some b) (hb : b < 128) :
    IsCut s n ∧ IsCut s (n + 1) := by
  induction s generalizing n with
  | nil => cases h
  | cons c s ih =>
      rw [asBytes_cons] at h
      have hsize := String.length_utf8EncodeChar c
      by_cases hn : n < c.utf8Size
      · rw [List.getElem?_append_left (by omega)] at h
        have hmem := List.mem_of_getElem? h
        have hascii : c.toNat < 128 := by
          by_contra hwide
          have hle := (wide_of_mem_utf8EncodeChar (Nat.le_of_not_lt hwide) hmem).1
          exact absurd hb (UInt8.not_lt.mpr hle)
        have hone : c.utf8Size = 1 := by
          rw [← hsize, utf8EncodeChar_of_lt hascii, List.length_singleton]
        obtain rfl : n = 0 := by omega
        refine ⟨isCut_zero _, ?_⟩
        have hcut := (isCut_zero s).cons c
        rwa [hone, Nat.add_comm] at hcut
      · rw [List.getElem?_append_right (by omega), hsize] at h
        obtain ⟨hcut, hcut'⟩ := ih h
        have hpos : c.utf8Size + (n - c.utf8Size) = n := by omega
        have hpos' : c.utf8Size + (n - c.utf8Size + 1) = n + 1 := by omega
        exact ⟨hpos ▸ hcut.cons c, hpos' ▸ hcut'.cons c⟩

theorem byteLength_eq_zero_iff {s : List Char} : byteLength s = 0 ↔ s = [] := by
  cases s with
  | nil => simp
  | cons c s =>
      have hpos := c.utf8Size_pos
      rw [byteLength_cons]
      simp only [reduceCtorEq, iff_false]
      omega

/-- The text between two cuts, in bytes. -/
theorem slice_of_isCut {s : List Char} {start stop : Nat} (hstart : IsCut s start)
    (hstop : IsCut s stop) (hle : start ≤ stop) :
    ∃ m, slice s start stop = some m ∧
      asBytes m =
        ((asBytes s).take stop).drop start := by
  obtain ⟨l, r, hs, rfl⟩ := hstart
  obtain ⟨l', r', rfl, rfl⟩ := hstop
  -- the first cut is the earlier one
  have hprefix : ∃ m, l' = l ++ m := by
    rcases List.append_eq_append_iff.mp hs with ⟨m, rfl, -⟩ | ⟨m, rfl, -⟩
    · have hempty : m = [] := by
        rw [byteLength_append] at hle
        rw [← byteLength_eq_zero_iff]
        omega
      exact ⟨[], by simp [hempty]⟩
    · exact ⟨m, rfl⟩
  obtain ⟨m, rfl⟩ := hprefix
  refine ⟨m, slice_eq_some_iff.mpr ⟨l, r', rfl, rfl, rfl⟩, ?_⟩
  have htake : (asBytes (l ++ m ++ r')).take (byteLength (l ++ m)) =
      asBytes (l ++ m) := by
    rw [asBytes_append, ← length_asBytes, List.take_left]
  rw [htake, asBytes_append, ← length_asBytes, List.drop_left]

/-- A slice that ends behind the start of the text, at least, is shorter than the text. -/
theorem length_lt_of_slice {s m : List Char} {start stop : Nat}
    (h : slice s (start + 1) stop = some m) : m.length < s.length := by
  obtain ⟨l, r, rfl, hl, -⟩ := slice_eq_some_iff.mp h
  cases l with
  | nil => cases hl
  | cons c l =>
      simp only [List.cons_append, List.length_cons, List.length_append]
      omega

/-! ## Finding a character -/

/-- `str::find`: the byte position of the first character that satisfies the condition. -/
def findChar (p : Char → Bool) : List Char → Option Nat
  | [] => none
  | c :: s => if p c then some 0 else (findChar p s).map (c.utf8Size + ·)

/-- A condition on bytes that no byte of any other character satisfies: the character is
found at the first such byte, and the text can be cut there. -/
theorem findChar_eq {p : Char → Bool} {q : UInt8 → Bool}
    (hq : ∀ c, ∀ b ∈ String.utf8EncodeChar c, q b = p c) (s : List Char) :
    (findChar p s).getD (byteLength s) =
        ((asBytes s).takeWhile fun b => !q b).length ∧
      IsCut s ((findChar p s).getD (byteLength s)) := by
  induction s with
  | nil => exact ⟨rfl, isCut_zero []⟩
  | cons c s ih =>
      have hsize := String.length_utf8EncodeChar c
      rw [findChar, asBytes_cons]
      by_cases hc : p c = true
      · rw [if_pos hc, Option.getD_some]
        refine ⟨?_, isCut_zero _⟩
        cases hbytes : String.utf8EncodeChar c with
        | nil =>
            have hpos := c.utf8Size_pos
            rw [hbytes, List.length_nil] at hsize
            omega
        | cons b rest =>
            have hb : q b = true := by rw [hq c b (by rw [hbytes]; simp), hc]
            rw [List.cons_append, List.takeWhile_cons_of_neg (by simp [hb]), List.length_nil]
      · have hnone : ∀ b ∈ String.utf8EncodeChar c, (!q b) = true := by
          intro b hb
          rw [hq c b hb]
          simpa using hc
        have hfound : ((findChar p s).map (c.utf8Size + ·)).getD (byteLength (c :: s)) =
            c.utf8Size + (findChar p s).getD (byteLength s) := by
          cases findChar p s <;> simp
        rw [if_neg hc, hfound, List.takeWhile_append_of_pos hnone, List.length_append, hsize, ih.1]
        exact ⟨rfl, ih.1 ▸ ih.2.cons c⟩

/-! ## Bytes as text -/

/-- `str::from_utf8`: the text the bytes encode, if they encode one. -/
def fromUtf8 (bytes : List UInt8) : Option (List Char) :=
  (String.fromUTF8? bytes.toByteArray).map String.toList

/-- The bytes of a text are that text. -/
theorem fromUtf8_asBytes (s : List Char) :
    fromUtf8 (asBytes s) = some s := by
  have hvalid : (asBytes s).toByteArray.IsValidUTF8 := .intro s rfl
  have htext : String.fromUTF8 (asBytes s).toByteArray hvalid =
      String.ofList s := rfl
  rw [fromUtf8, String.fromUTF8?, dif_pos hvalid, htext, Option.map_some, String.toList_ofList]

/-- ASCII bytes are the text of the same characters. -/
theorem fromUtf8_of_ascii {bytes : List UInt8} (h : ∀ b ∈ bytes, b < 128) :
    fromUtf8 bytes = some (bytes.map fun b => Char.ofNat b.toNat) := by
  have htoNat : ∀ b ∈ bytes, (Char.ofNat b.toNat).toNat = b.toNat := by
    intro b hb
    have hsmall : ∀ n < 128, (Char.ofNat n).toNat = n := by decide
    exact hsmall _ (UInt8.lt_iff_toNat_lt.mp (h b hb))
  have hbytes : asBytes (bytes.map fun b => Char.ofNat b.toNat) = bytes := by
    rw [asBytes, flatMap_utf8EncodeChar_of_ascii, List.map_map]
    · refine (List.map_congr_left fun b hb => ?_).trans (List.map_id bytes)
      rw [Function.comp_apply, htoNat b hb, UInt8.ofNat_toNat, id]
    · intro c hc
      obtain ⟨b, hb, rfl⟩ := List.mem_map.mp hc
      rw [htoNat b hb]
      exact UInt8.lt_iff_toNat_lt.mp (h b hb)
  conv_lhs => rw [← hbytes]
  exact fromUtf8_asBytes _

/-- A text with ASCII bytes. -/
theorem eq_map_of_asBytes {s : List Char} (h : ∀ b ∈ asBytes s, b < 128) :
    s = (asBytes s).map fun b => Char.ofNat b.toNat := by
  have htext := fromUtf8_of_ascii h
  rw [fromUtf8_asBytes] at htext
  exact Option.some.inj htext

/-- ASCII bytes can be cut out of a text. -/
theorem slice_of_ascii {s : List Char} {i : Nat} {xs ys : List UInt8}
    (hdrop : (asBytes s).drop i = xs ++ ys) (hne : xs ≠ []) (hascii : ∀ b ∈ xs, b < 128) :
    slice s i (i + xs.length) = some (xs.map fun b => Char.ofNat b.toNat) := by
  obtain ⟨front, last, rfl⟩ := (List.eq_nil_or_concat xs).resolve_left hne
  rw [List.concat_eq_append] at *
  have hget : ∀ k, (asBytes s)[i + k]? = (front ++ [last] ++ ys)[k]? := by
    intro k
    rw [← hdrop, List.getElem?_drop]
  obtain ⟨first, hfirst⟩ : ∃ first, (front ++ [last] ++ ys)[0]? = some first ∧ first < 128 := by
    cases front with
    | nil => exact ⟨last, rfl, hascii last (by simp)⟩
    | cons b front => exact ⟨b, rfl, hascii b (by simp)⟩
  have hstart : IsCut s i := (isCut_of_ascii ((hget 0).trans hfirst.1) hfirst.2).1
  have hlast : (asBytes s)[i + front.length]? = some last := by
    rw [hget]
    simp
  have hstop : IsCut s (i + (front ++ [last]).length) := by
    rw [List.length_append]
    exact (isCut_of_ascii hlast (hascii last (by simp))).2
  obtain ⟨m, hslice, hbytes⟩ := slice_of_isCut hstart hstop (Nat.le_add_right _ _)
  rw [List.drop_take, hdrop, Nat.add_sub_cancel_left, List.take_left] at hbytes
  have hm := eq_map_of_asBytes (s := m) (by rwa [hbytes])
  rw [hslice, hm, hbytes]

end Foundation
