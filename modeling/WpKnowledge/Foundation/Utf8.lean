import Mathlib.Data.List.Basic
import Mathlib.Tactic.SplitIfs

/-!
# The UTF-8 bytes of a text

Lists of bytes of strings, character by character: which bytes an ASCII character
and which any other character is written with.

Main results:

- Theorem {lit}`toList_toUTF8`: the bytes of a string are those of its characters.
- Theorem {lit}`length_toUTF8_eq_iff`: a string has as many bytes as characters
  exactly when all of it is ASCII.
- Theorem {lit}`toUTF8_injective`: strings with the same bytes are equal.
-/

namespace Foundation

/-! ## Byte arrays as lists -/

/-- The loop of the conversion appends the bytes that are left. -/
theorem byteArray_toList_loop (bytes : ByteArray) (i : Nat) (acc : List UInt8) :
    ByteArray.toList.loop bytes i acc = acc.reverse ++ bytes.data.toList.drop i := by
  fun_induction ByteArray.toList.loop bytes i acc with
  | case1 i acc h ih =>
      have hlt : i < bytes.data.toList.length := by simpa using h
      rw [ih, List.drop_eq_getElem_cons hlt]
      simp [ByteArray.get!, h]
  | case2 i acc h =>
      have hle : bytes.data.toList.length ≤ i := by simpa using Nat.le_of_not_lt h
      rw [List.drop_eq_nil_of_le hle, List.append_nil]

/-- The list of a byte array is the list of its array. -/
theorem byteArray_toList (bytes : ByteArray) : bytes.toList = bytes.data.toList := by
  rw [ByteArray.toList, byteArray_toList_loop]
  simp

/-- The bytes of a string are those of its characters. -/
theorem toList_toUTF8 (text : String) :
    text.toUTF8.toList = text.toList.flatMap String.utf8EncodeChar := by
  rw [byteArray_toList, String.toUTF8_eq_toByteArray, ← String.utf8Encode_toList, List.utf8Encode,
    List.toList_data_toByteArray]

/-- Strings with the same bytes are equal. -/
theorem toUTF8_injective {s t : String} (h : s.toUTF8.toList = t.toUTF8.toList) : s = t := by
  have hdata : s.toUTF8.data.toList = t.toUTF8.data.toList := by
    rwa [byteArray_toList, byteArray_toList] at h
  have harray : s.toUTF8 = t.toUTF8 := ByteArray.ext (Array.toList_inj.mp hdata)
  rw [String.toUTF8_eq_toByteArray, String.toUTF8_eq_toByteArray] at harray
  exact String.toByteArray_inj.mp harray

/-! ## The bytes of a character -/

/-- An ASCII character is one byte. -/
theorem utf8EncodeChar_of_lt {c : Char} (h : c.toNat < 128) :
    String.utf8EncodeChar c = [UInt8.ofNat c.toNat] := by
  have hle : c.val.toNat ≤ 0x7f := by
    change c.toNat ≤ 0x7f
    omega
  rw [String.utf8EncodeChar, if_pos hle]
  rfl

/-- A character that is not ASCII is at least two bytes. -/
theorem one_lt_length_utf8EncodeChar {c : Char} (h : 128 ≤ c.toNat) :
    1 < (String.utf8EncodeChar c).length := by
  have hlt : ¬ c.val.toNat ≤ 0x7f := by
    change ¬ c.toNat ≤ 0x7f
    omega
  simp only [String.utf8EncodeChar, if_neg hlt]
  split_ifs <;> simp

/-- The bytes of a character that is not ASCII are neither ASCII nor {lit}`0xFF`. -/
theorem wide_of_mem_utf8EncodeChar {c : Char} (h : 128 ≤ c.toNat) {b : UInt8}
    (hb : b ∈ String.utf8EncodeChar c) : 128 ≤ b ∧ b < 255 := by
  have hlt : ¬ c.val.toNat ≤ 0x7f := by
    change ¬ c.toNat ≤ 0x7f
    omega
  rw [UInt8.le_iff_toNat_le, UInt8.lt_iff_toNat_lt]
  simp only [String.utf8EncodeChar, if_neg hlt] at hb
  split_ifs at hb <;> simp only [List.mem_cons, List.not_mem_nil, or_false] at hb
  · rcases hb with rfl | rfl <;> simp <;> omega
  · rcases hb with rfl | rfl | rfl <;> simp <;> omega
  · rcases hb with rfl | rfl | rfl | rfl <;> simp <;> omega

/-- No character is written with the byte {lit}`0xFF`. -/
theorem lt_of_mem_utf8EncodeChar {c : Char} {b : UInt8} (hb : b ∈ String.utf8EncodeChar c) :
    b < 255 := by
  by_cases h : c.toNat < 128
  · rw [utf8EncodeChar_of_lt h, List.mem_singleton] at hb
    rw [hb, UInt8.lt_iff_toNat_lt]
    simp
    omega
  · exact (wide_of_mem_utf8EncodeChar (Nat.le_of_not_lt h) hb).2

/-- No text has the byte {lit}`0xFF`. -/
theorem lt_of_mem_toUTF8 {text : String} {b : UInt8} (hb : b ∈ text.toUTF8.toList) : b < 255 := by
  rw [toList_toUTF8] at hb
  rcases List.mem_flatMap.mp hb with ⟨c, -, hc⟩
  exact lt_of_mem_utf8EncodeChar hc

/-! ## ASCII text -/

/-- The bytes of ASCII text are its characters. -/
theorem flatMap_utf8EncodeChar_of_ascii {cs : List Char} (h : ∀ c ∈ cs, c.toNat < 128) :
    cs.flatMap String.utf8EncodeChar = cs.map fun c => UInt8.ofNat c.toNat := by
  induction cs with
  | nil => rfl
  | cons c cs ih =>
      have hhead := utf8EncodeChar_of_lt (h c List.mem_cons_self)
      have htail := ih fun d hd => h d (List.mem_cons_of_mem c hd)
      rw [List.flatMap_cons, hhead, htail]
      rfl

/-- Text has at least as many bytes as characters, and more if some are not ASCII. -/
theorem length_flatMap_utf8EncodeChar (cs : List Char) :
    cs.length + cs.countP (fun c => 128 ≤ c.toNat) ≤
      (cs.flatMap String.utf8EncodeChar).length := by
  induction cs with
  | nil => simp
  | cons c cs ih =>
      rw [List.flatMap_cons, List.length_append, List.length_cons, List.countP_cons]
      by_cases hwide : 128 ≤ c.toNat
      · have hlong := one_lt_length_utf8EncodeChar hwide
        simp only [hwide, decide_true, if_true]
        omega
      · have hshort := utf8EncodeChar_of_lt (Nat.lt_of_not_le hwide)
        have hbyte : (String.utf8EncodeChar c).length = 1 := by rw [hshort, List.length_singleton]
        simp only [hwide, decide_false, Bool.false_eq_true, if_false]
        omega

/-- A string has as many bytes as characters exactly when all of it is ASCII. -/
theorem length_toUTF8_eq_iff (text : String) :
    text.toUTF8.toList.length = text.toList.length ↔ ∀ c ∈ text.toList, c.toNat < 128 := by
  rw [toList_toUTF8]
  constructor
  · intro heq c hc
    by_contra hwide
    have hle := length_flatMap_utf8EncodeChar text.toList
    have hcount : 0 < text.toList.countP fun c => 128 ≤ c.toNat :=
      List.countP_pos_iff.mpr ⟨c, hc, by simpa using hwide⟩
    omega
  · intro h
    rw [flatMap_utf8EncodeChar_of_ascii h, List.length_map]

end Foundation
