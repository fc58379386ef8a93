import Mathlib.Data.List.DropRight
import Mathlib.Tactic.Common

/-!
# Cutting up text

Operations of a standard library on text, on lists of characters: trimming, cutting at
the first or the last occurrence of a separator, splitting into lines, and the debug text.
Which characters a debug text holds as they are is a table of Unicode; it is the parameter
{lit}`isPrintable`.

Main results:

- Theorem {lit}`trimBy_append_append`: what is trimmed off around a text that starts
  and ends with what is not trimmed off.
- Theorems {lit}`cutFirst_append_cons` and {lit}`cutLast_append_cons`: a text is cut at
  a separator that occurs on one side of it only.
- Theorem {lit}`lines_append_newline`: the first line of a text.
-/

namespace Foundation

variable {α : Type}

/-! ## Trimming -/

/-- The text without what satisfies the predicate at its two ends. -/
def trimBy (p : α → Bool) (s : List α) : List α :=
  (s.dropWhile p).rdropWhile p

/-- What is trimmed off at the end is trimmed off first. -/
theorem trimBy_append_right {p : α → Bool} {s right : List α} (h : ∀ a ∈ right, p a = true) :
    trimBy p (s ++ right) = trimBy p s := by
  have hright : ∀ t : List α, (t ++ right).rdropWhile p = t.rdropWhile p := by
    intro t
    rw [List.rdropWhile, List.reverse_append, List.dropWhile_append_of_pos, List.rdropWhile]
    intro a ha
    exact h a (List.mem_reverse.mp ha)
  rw [trimBy, trimBy, List.dropWhile_append]
  by_cases hall : s.dropWhile p = []
  · rw [hall, List.isEmpty_nil, if_pos rfl, List.dropWhile_eq_nil_iff.mpr h]
  · rw [if_neg (by simpa using hall), hright]

/-- What is trimmed off at the start is trimmed off first. -/
theorem trimBy_append_left {p : α → Bool} {left s : List α} (h : ∀ a ∈ left, p a = true) :
    trimBy p (left ++ s) = trimBy p s := by
  rw [trimBy, trimBy, List.dropWhile_append_of_pos h]

/-- A text that starts and ends with what is not trimmed off stays as it is. -/
theorem trimBy_eq_self {p : α → Bool} {s : List α} (hhead : ∀ a ∈ s.head?, p a = false)
    (hlast : ∀ a ∈ s.getLast?, p a = false) : trimBy p s = s := by
  have hdrop : s.dropWhile p = s := by
    cases s with
    | nil => rfl
    | cons a s =>
        have ha := hhead a rfl
        rw [List.dropWhile_cons, if_neg (by simp [ha])]
  rw [trimBy, hdrop, List.rdropWhile_eq_self_iff]
  intro hne
  rw [hlast _ (List.getLast?_eq_some_getLast hne)]
  exact Bool.false_ne_true

/-- What is trimmed off around a text that starts and ends with what is not. -/
theorem trimBy_append_append {p : α → Bool} {left s right : List α}
    (hleft : ∀ a ∈ left, p a = true) (hright : ∀ a ∈ right, p a = true)
    (hhead : ∀ a ∈ s.head?, p a = false) (hlast : ∀ a ∈ s.getLast?, p a = false) :
    trimBy p (left ++ (s ++ right)) = s := by
  rw [trimBy_append_left hleft, trimBy_append_right hright, trimBy_eq_self hhead hlast]

/-- Around what is not trimmed off, both sides are trimmed on their own. -/
theorem trimBy_append_cons {p : α → Bool} {a : α} (ha : p a = false) (s w : List α) :
    trimBy p (s ++ a :: w) = s.dropWhile p ++ a :: w.rdropWhile p := by
  have hdrop : (s ++ a :: w).dropWhile p = s.dropWhile p ++ a :: w := by
    rw [List.dropWhile_append]
    by_cases hall : s.dropWhile p = []
    · simp [hall, ha]
    · rw [if_neg (by simpa using hall)]
  rw [trimBy, hdrop]
  conv_lhs => rw [← List.rdropWhile_append_rtakeWhile (p := p) (l := w)]
  have hsplit : s.dropWhile p ++ a :: (w.rdropWhile p ++ w.rtakeWhile p) =
      (s.dropWhile p ++ a :: w.rdropWhile p) ++ w.rtakeWhile p := by simp
  have hright : ∀ b ∈ (w.rtakeWhile p).reverse, p b = true := by
    intro b hb
    exact List.mem_rtakeWhile_imp (List.mem_reverse.mp hb)
  rw [hsplit, List.rdropWhile, List.reverse_append, List.dropWhile_append_of_pos hright,
    ← List.rdropWhile, List.rdropWhile_eq_self_iff]
  intro hne
  -- the last one is not trimmed off: it ends what is left of the right side, or is `a`
  by_cases hw : w.rdropWhile p = []
  · simp [hw, ha]
  · have hlast := List.rdropWhile_last_not p w hw
    rw [List.getLast_append_of_ne_nil _ (List.cons_ne_nil _ _), List.getLast_cons hw]
    exact hlast

/-- What is not trimmed off is counted as often afterwards. -/
theorem count_trimBy [DecidableEq α] {p : α → Bool} {a : α} (ha : p a = false) (s : List α) :
    (trimBy p s).count a = s.count a := by
  have hleft : (s.takeWhile p).count a = 0 :=
    List.count_eq_zero.mpr fun hmem => by simp [List.mem_takeWhile_imp hmem] at ha
  have hright : ((s.dropWhile p).rtakeWhile p).count a = 0 :=
    List.count_eq_zero.mpr fun hmem => by simp [List.mem_rtakeWhile_imp hmem] at ha
  have hsplit := congrArg (List.count a) (List.takeWhile_append_dropWhile (p := p) (l := s))
  have hsplit' := congrArg (List.count a)
    (List.rdropWhile_append_rtakeWhile (p := p) (l := s.dropWhile p))
  rw [List.count_append] at hsplit hsplit'
  rw [trimBy]
  omega

/-- What is left behind the longest run does not go on with it. -/
theorem head?_dropWhile {p : α → Bool} {s : List α} :
    ∀ a ∈ (s.dropWhile p).head?, p a = false := by
  intro a ha
  have hnot := List.head?_dropWhile_not p s
  rw [ha] at hnot
  exact hnot

/-- A text that starts with what is not trimmed off does so when its end is trimmed. -/
theorem head?_rdropWhile {p : α → Bool} {s : List α} (h : ∀ a ∈ s.head?, p a = false) :
    (s.rdropWhile p).head? = s.head? := by
  cases s with
  | nil => rfl
  | cons a s =>
      have ha := h a rfl
      have hsplit := trimBy_append_cons ha [] s
      have hself : (a :: s).dropWhile p = a :: s := by simp [ha]
      rw [List.nil_append, trimBy, hself] at hsplit
      rw [hsplit]
      rfl

/-- The first of what is left is the first that is not trimmed off. -/
theorem head?_trimBy {p : α → Bool} (s : List α) :
    (trimBy p s).head? = (s.dropWhile p).head? :=
  head?_rdropWhile fun a ha => head?_dropWhile a ha

/-- Trimming twice is trimming. -/
theorem trimBy_trimBy (p : α → Bool) (s : List α) : trimBy p (trimBy p s) = trimBy p s := by
  apply trimBy_eq_self
  · rw [head?_trimBy]
    exact head?_dropWhile
  · intro a ha
    have hne : trimBy p s ≠ [] := by
      rintro hempty
      rw [hempty] at ha
      cases ha
    rw [List.getLast?_eq_some_getLast hne, Option.mem_some_iff] at ha
    rw [← ha]
    exact Bool.eq_false_iff.mpr (List.rdropWhile_last_not p _ hne)

/-- The longest run in front of what does not belong to it. -/
theorem takeWhile_append_of_head? {p : α → Bool} {s rest : List α}
    (hs : ∀ a ∈ s, p a = true) (hrest : ∀ a ∈ rest.head?, p a = false) :
    (s ++ rest).takeWhile p = s := by
  rw [List.takeWhile_append_of_pos hs]
  cases rest with
  | nil => simp
  | cons a rest =>
      have ha := hrest a rfl
      simp [ha]

/-- What is left behind the longest run. -/
theorem dropWhile_append_of_head? {p : α → Bool} {s rest : List α}
    (hs : ∀ a ∈ s, p a = true) (hrest : ∀ a ∈ rest.head?, p a = false) :
    (s ++ rest).dropWhile p = rest := by
  rw [List.dropWhile_append_of_pos hs]
  cases rest with
  | nil => rfl
  | cons a rest =>
      have ha := hrest a rfl
      simp [ha]

/-! ## Cutting at a separator -/

variable [DecidableEq α]

/-- What stands before and after the first separator. -/
def cutFirst (sep : α) : List α → Option (List α × List α)
  | [] => none
  | a :: s => if a = sep then some ([], s) else (cutFirst sep s).map (Prod.map (a :: ·) id)

/-- What stands before and after the last separator. -/
def cutLast (sep : α) (s : List α) : Option (List α × List α) :=
  (cutFirst sep s.reverse).map fun cut => (cut.2.reverse, cut.1.reverse)

/-- A text is cut at a separator before which there is none. -/
theorem cutFirst_append_cons {sep : α} {left : List α} (h : sep ∉ left) (right : List α) :
    cutFirst sep (left ++ sep :: right) = some (left, right) := by
  induction left with
  | nil => rw [List.nil_append, cutFirst, if_pos rfl]
  | cons a left ih =>
      have hne : a ≠ sep := fun heq => h (heq ▸ List.mem_cons_self)
      have hleft : sep ∉ left := fun hmem => h (List.mem_cons_of_mem a hmem)
      rw [List.cons_append, cutFirst, if_neg hne, ih hleft]
      rfl

/-- A cut at the first separator leaves what is before and after it. -/
theorem cutFirst_eq_some_iff {sep : α} {s left right : List α} :
    cutFirst sep s = some (left, right) ↔ s = left ++ sep :: right ∧ sep ∉ left := by
  constructor
  · intro h
    induction s generalizing left with
    | nil => cases h
    | cons a s ih =>
        rw [cutFirst] at h
        split_ifs at h with ha
        · cases h
          exact ⟨by rw [ha, List.nil_append], List.not_mem_nil⟩
        · obtain ⟨⟨left', right'⟩, hcut, hmap⟩ := Option.map_eq_some_iff.mp h
          cases hmap
          obtain ⟨rfl, hleft⟩ := ih hcut
          refine ⟨rfl, ?_⟩
          rw [List.mem_cons, not_or]
          exact ⟨fun heq => ha heq.symm, hleft⟩
  · rintro ⟨rfl, hleft⟩
    exact cutFirst_append_cons hleft right

/-- There is no cut without a separator. -/
theorem cutFirst_eq_none_iff {sep : α} {s : List α} : cutFirst sep s = none ↔ sep ∉ s := by
  induction s with
  | nil => simp [cutFirst]
  | cons a s ih =>
      rw [cutFirst, List.mem_cons, not_or]
      split_ifs with ha
      · simp [ha]
      · rw [Option.map_eq_none_iff, ih]
        simp [Ne.symm ha]

/-- A text is cut at a separator after which there is none. -/
theorem cutLast_append_cons {sep : α} {right : List α} (left : List α) (h : sep ∉ right) :
    cutLast sep (left ++ sep :: right) = some (left, right) := by
  have hreverse : (left ++ sep :: right).reverse = right.reverse ++ sep :: left.reverse := by
    simp
  have hright : sep ∉ right.reverse := fun hmem => h (List.mem_reverse.mp hmem)
  rw [cutLast, hreverse, cutFirst_append_cons hright]
  simp

/-- A cut at the last separator leaves what is before and after it. -/
theorem cutLast_eq_some_iff {sep : α} {s left right : List α} :
    cutLast sep s = some (left, right) ↔ s = left ++ sep :: right ∧ sep ∉ right := by
  constructor
  · intro h
    obtain ⟨⟨first, second⟩, hcut, hswap⟩ := Option.map_eq_some_iff.mp h
    cases hswap
    obtain ⟨hs, hfirst⟩ := cutFirst_eq_some_iff.mp hcut
    refine ⟨?_, fun hmem => hfirst (List.mem_reverse.mp hmem)⟩
    rw [← List.reverse_reverse s, hs]
    simp
  · rintro ⟨rfl, hright⟩
    exact cutLast_append_cons left hright

/-! ## Lines -/

/-- A line without the carriage return at its end. -/
def stripCarriageReturn (line : List Char) : List Char :=
  if line.getLast? = some '\r' then line.dropLast else line

/-- The lines of the pieces between newlines: nothing after the last newline is no
line, and before a newline a carriage return belongs to it. -/
def linesOfPieces : List (List Char) → List (List Char)
  | [] => []
  | [last] => if last.isEmpty then [] else [last]
  | piece :: pieces => stripCarriageReturn piece :: linesOfPieces pieces

/-- The lines of a text. -/
def lines (text : List Char) : List (List Char) :=
  linesOfPieces (text.splitOn '\n')

/-- A text without a newline is one line, if it is not empty. -/
theorem lines_of_notMem {line : List Char} (h : '\n' ∉ line) :
    lines line = if line.isEmpty then [] else [line] := by
  rw [lines, List.splitOn_eq_singleton h, linesOfPieces]

/-- The first line ends at the first newline. -/
theorem lines_append_newline {line : List Char} (h : '\n' ∉ line) (rest : List Char) :
    lines (line ++ '\n' :: rest) = stripCarriageReturn line :: lines rest := by
  rw [lines, List.splitOn_append_cons_self_of_not_mem h]
  obtain ⟨piece, pieces, hpieces⟩ := List.exists_cons_of_ne_nil (List.splitOn_ne_nil '\n' rest)
  rw [lines, hpieces, linesOfPieces]
  simp

/-- Where carriage returns are trimmed off, they do not matter. -/
theorem trimBy_stripCarriageReturn {p : Char → Bool} (h : p '\r' = true) (line : List Char) :
    trimBy p (stripCarriageReturn line) = trimBy p line := by
  rw [stripCarriageReturn]
  by_cases hlast : line.getLast? = some '\r'
  · have hright : ∀ a ∈ ['\r'], p a = true := by
      intro a ha
      rw [List.mem_singleton.mp ha, h]
    rw [if_pos hlast, ← trimBy_append_right hright]
    congr 1
    exact List.dropLast_append_getLast? '\r' hlast
  · rw [if_neg hlast]

/-! ## Debug texts -/

section Printing

variable (isPrintable : Char → Bool)

/-- A character in a debug text. -/
def escapeDebug (c : Char) : List Char :=
  if c.toNat = 0 then ['\\', '0']
  else if c = '\t' then ['\\', 't']
  else if c = '\r' then ['\\', 'r']
  else if c = '\n' then ['\\', 'n']
  else if c = '\\' ∨ c = '"' then ['\\', c]
  else if isPrintable c then [c]
  else '\\' :: 'u' :: Char.ofNat 123 :: Nat.toDigits 16 c.toNat ++ [Char.ofNat 125]

/-- The debug text of a text. -/
def debugStr (s : List Char) : String :=
  String.ofList ('"' :: s.flatMap (escapeDebug isPrintable) ++ ['"'])

end Printing

/-! ## Numbers as text -/

/-- A number is told by its decimal text. -/
theorem toString_nat_inj {m n : Nat} (h : toString m = toString n) : m = n := by
  have hdigits : Nat.toDigits 10 m = Nat.toDigits 10 n := by
    rw [← Nat.toList_repr, ← Nat.toList_repr]
    exact congrArg String.toList h
  have hvalue := congrArg (fun digits => Nat.ofDigitChars 10 digits 0) hdigits
  simpa using hvalue

end Foundation
