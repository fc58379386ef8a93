import Mathlib.Data.List.Basic
import Mathlib.Data.List.Infix
import Mathlib.Tactic.Common

/-!
# Trimming a list of words

A text is trimmed by removing, from its start or from its end, words of a given
list as long as there are any.  If no word of the list is the beginning of another,
what remains is the only remainder that has no word in front of it after words
were taken away.

Main results:

- Theorem {lit}`trimStart_eq_iff`: what remains after trimming at the start.
- Theorem {lit}`trimEnd_eq_iff`: what remains after trimming at the end.
-/

namespace Foundation

variable {α : Type} [DecidableEq α]

/-- A text made of words of the list. -/
inductive Words (words : List (List α)) : List α → Prop
  | nil : Words words []
  | cons {word rest : List α} : word ∈ words → Words words rest → Words words (word ++ rest)

namespace Words

variable {words : List (List α)}

omit [DecidableEq α] in
theorem append {u v : List α} (hu : Words words u) (hv : Words words v) : Words words (u ++ v) := by
  induction hu with
  | nil => exact hv
  | cons hword _ ih =>
      rw [List.append_assoc]
      exact .cons hword ih

omit [DecidableEq α] in
/-- Read backwards, the text is made of the words read backwards. -/
theorem reverse {u : List α} (hu : Words words u) :
    Words (words.map List.reverse) u.reverse := by
  induction hu with
  | nil => exact .nil
  | cons hword _ ih =>
      rw [List.reverse_append]
      have hlast : Words (words.map List.reverse) (List.reverse _ ++ []) :=
        .cons (List.mem_map_of_mem hword) .nil
      rw [List.append_nil] at hlast
      exact ih.append hlast

omit [DecidableEq α] in
/-- Every letter of the text is a letter of a word. -/
theorem exists_word_of_mem {u : List α} (hu : Words words u) {a : α} (ha : a ∈ u) :
    ∃ word ∈ words, a ∈ word := by
  induction hu with
  | nil => cases ha
  | cons hword _ ih =>
      rcases List.mem_append.mp ha with ha | ha
      · exact ⟨_, hword, ha⟩
      · exact ih ha

omit [DecidableEq α] in
/-- A text that is not empty starts with a word. -/
theorem exists_word_of_ne_nil {u : List α} (hu : Words words u) (hne : u ≠ []) :
    ∃ word ∈ words, word <+: u := by
  cases hu with
  | nil => exact absurd rfl hne
  | cons hword _ => exact ⟨_, hword, List.prefix_append _ _⟩

end Words

/-- Words are removed at the start; {lit}`skip` letters of the word found last are
still to be removed. -/
def trimStartFrom (words : List (List α)) : Nat → List α → List α
  | _, [] => []
  | skip + 1, _ :: rest => trimStartFrom words skip rest
  | 0, a :: rest =>
      match words.find? (·.isPrefixOf (a :: rest)) with
      | some word => trimStartFrom words (word.length - 1) rest
      | none => a :: rest

/-- The text without the words at its start. -/
def trimStart (words : List (List α)) (text : List α) : List α :=
  trimStartFrom words 0 text

/-- The text without the words at its end. -/
def trimEnd (words : List (List α)) (text : List α) : List α :=
  (trimStart (words.map List.reverse) text.reverse).reverse

section Start

variable {words : List (List α)}

theorem trimStartFrom_eq_trimStart_drop (words : List (List α)) (skip : Nat) (text : List α) :
    trimStartFrom words skip text = trimStart words (text.drop skip) := by
  induction text generalizing skip with
  | nil => cases skip <;> rfl
  | cons a rest ih =>
      cases skip with
      | zero => rfl
      | succ skip => exact ih skip

theorem prefix_of_find {text word : List α}
    (hfind : words.find? (·.isPrefixOf text) = some word) : word <+: text := by
  simpa using List.find?_some hfind

/-- A word at the start is removed. -/
theorem trimStart_of_find {text word : List α} (hne : word ≠ [])
    (hfind : words.find? (·.isPrefixOf text) = some word) :
    trimStart words text = trimStart words (text.drop word.length) := by
  have hpre : word <+: text := prefix_of_find hfind
  cases text with
  | nil => exact absurd (List.prefix_nil.mp hpre) hne
  | cons a rest =>
      obtain ⟨n, hn⟩ : ∃ n, word.length = n + 1 :=
        Nat.exists_eq_succ_of_ne_zero (by simpa using hne)
      rw [trimStart, trimStartFrom, hfind]
      simp only [trimStartFrom_eq_trimStart_drop, hn, Nat.add_sub_cancel, List.drop_succ_cons]

/-- Without a word at the start nothing is removed. -/
theorem trimStart_of_no_start {text : List α} (h : ∀ word ∈ words, ¬ word <+: text) :
    trimStart words text = text := by
  cases text with
  | nil => rfl
  | cons a rest =>
      have hfind : words.find? (·.isPrefixOf (a :: rest)) = none := by
        rw [List.find?_eq_none]
        intro word hword
        rw [List.isPrefixOf_iff_prefix]
        exact h word hword
      rw [trimStart, trimStartFrom, hfind]

variable (hne : [] ∉ words)
  (hfree : ∀ word ∈ words, ∀ other ∈ words, word <+: other → word = other)

include hne in
/-- What is removed at the start is made of words, and no word is left there. -/
theorem trimStart_spec (text : List α) :
    (∃ removed, Words words removed ∧ text = removed ++ trimStart words text) ∧
      ∀ word ∈ words, ¬ word <+: trimStart words text := by
  induction hlen : text.length using Nat.strong_induction_on generalizing text with
  | _ n ih =>
      cases hfind : words.find? (·.isPrefixOf text) with
      | none =>
          have hno : ∀ word ∈ words, ¬ word <+: text := by
            intro word hword hpre
            have hnone := List.find?_eq_none.mp hfind word hword
            exact hnone (List.isPrefixOf_iff_prefix.mpr hpre)
          rw [trimStart_of_no_start hno]
          exact ⟨⟨[], .nil, rfl⟩, hno⟩
      | some word =>
          have hword : word ∈ words := List.mem_of_find?_eq_some hfind
          have hwordne : word ≠ [] := fun h => hne (h ▸ hword)
          have hpre : word <+: text := prefix_of_find hfind
          obtain ⟨rest, rfl⟩ := hpre
          have hshort : rest.length < n := by
            have hpos := List.length_pos_iff.mpr hwordne
            rw [List.length_append] at hlen
            omega
          obtain ⟨⟨removed, hremoved, hrest⟩, hno⟩ := ih _ hshort rest rfl
          rw [trimStart_of_find hwordne hfind, List.drop_left]
          refine ⟨⟨word ++ removed, .cons hword hremoved, ?_⟩, hno⟩
          rw [List.append_assoc, ← hrest]

include hne hfree in
/-- Words in front of a text that starts with none are removed. -/
theorem trimStart_append {removed rest : List α} (hremoved : Words words removed)
    (hrest : ∀ word ∈ words, ¬ word <+: rest) : trimStart words (removed ++ rest) = rest := by
  induction hremoved with
  | nil => exact trimStart_of_no_start hrest
  | @cons word others hword _ ih =>
      have hpre : word <+: word ++ others ++ rest := by
        rw [List.append_assoc]
        exact List.prefix_append _ _
      cases hfind : words.find? (·.isPrefixOf (word ++ others ++ rest)) with
      | none =>
          have hnone := List.find?_eq_none.mp hfind word hword
          exact absurd (List.isPrefixOf_iff_prefix.mpr hpre) hnone
      | some found =>
          have hfound : found ∈ words := List.mem_of_find?_eq_some hfind
          have hfoundPre := prefix_of_find hfind
          have heq : found = word := by
            rcases List.prefix_or_prefix_of_prefix hfoundPre hpre with h | h
            · exact hfree _ hfound _ hword h
            · exact (hfree _ hword _ hfound h).symm
          have hwordne : found ≠ [] := fun h => hne (h ▸ hfound)
          rw [trimStart_of_find hwordne hfind, heq, List.append_assoc, List.drop_left]
          exact ih

include hne hfree in
/-- What remains after trimming at the start. -/
theorem trimStart_eq_iff {text rest : List α} :
    trimStart words text = rest ↔
      (∃ removed, Words words removed ∧ text = removed ++ rest) ∧
        ∀ word ∈ words, ¬ word <+: rest := by
  constructor
  · rintro rfl
    exact trimStart_spec hne text
  · rintro ⟨⟨removed, hremoved, rfl⟩, hrest⟩
    exact trimStart_append hne hfree hremoved hrest

end Start

section End

variable {words : List (List α)} (hne : [] ∉ words)
  (hfree : ∀ word ∈ words, ∀ other ∈ words, word <:+ other → word = other)

include hne hfree in
/-- What remains after trimming at the end. -/
theorem trimEnd_eq_iff {text rest : List α} :
    trimEnd words text = rest ↔
      (∃ removed, Words words removed ∧ text = rest ++ removed) ∧
        ∀ word ∈ words, ¬ word <:+ rest := by
  have hne' : [] ∉ words.map List.reverse := by simpa using hne
  have hfree' : ∀ word ∈ words.map List.reverse, ∀ other ∈ words.map List.reverse,
      word <+: other → word = other := by
    intro word hword other hother hpre
    obtain ⟨word, hmem, rfl⟩ := List.mem_map.mp hword
    obtain ⟨other, hmem', rfl⟩ := List.mem_map.mp hother
    rw [hfree word hmem other hmem' (List.reverse_prefix.mp hpre)]
  have hback : (words.map List.reverse).map List.reverse = words := by simp
  rw [trimEnd, List.reverse_eq_iff, trimStart_eq_iff hne' hfree']
  constructor
  · rintro ⟨⟨removed, hremoved, htext⟩, hrest⟩
    refine ⟨⟨removed.reverse, hback ▸ hremoved.reverse, ?_⟩, ?_⟩
    · rw [← List.reverse_reverse text, htext, List.reverse_append, List.reverse_reverse]
    · intro word hword hsuf
      exact hrest _ (List.mem_map_of_mem hword) (List.reverse_prefix.mpr hsuf)
  · rintro ⟨⟨removed, hremoved, rfl⟩, hrest⟩
    refine ⟨⟨removed.reverse, hremoved.reverse, List.reverse_append⟩, ?_⟩
    intro word hword hpre
    obtain ⟨word, hmem, rfl⟩ := List.mem_map.mp hword
    exact hrest word hmem (List.reverse_prefix.mp hpre)

end End

end Foundation
