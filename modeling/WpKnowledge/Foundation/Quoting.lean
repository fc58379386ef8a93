import Mathlib.Data.List.Basic
import Mathlib.Tactic.Common

/-!
# Quoted text with doubled quotes

A text between two quotes, in which the quote itself stands doubled, and the reader that
takes such a text off the front of another.

Main results:

- Theorem {lit}`readQuoted_doubled`: whatever text is quoted, it is read back, up to its
  closing quote and no further.
-/

namespace Foundation

variable {α : Type} [DecidableEq α]

/-- The text with every quote doubled. -/
def doubled (quote : α) (text : List α) : List α :=
  text.flatMap fun a => if a = quote then [quote, quote] else [a]

/-- Read up to the quote that closes a text, after the one that opens it: the text and what
follows the quote. -/
def readQuoted (quote : α) : List α → Option (List α × List α)
  | [] => none
  | a :: rest =>
      if a = quote then
        match rest with
        | [] => some ([], [])
        | b :: more =>
            if b = quote then (readQuoted quote more).map fun r => (quote :: r.1, r.2)
            else some ([], b :: more)
      else (readQuoted quote rest).map fun r => (a :: r.1, r.2)

/-- A closing quote ends the text if no quote follows. -/
theorem readQuoted_close {quote : α} {rest : List α} (h : rest.head? ≠ some quote) :
    readQuoted quote (quote :: rest) = some ([], rest) := by
  cases rest with
  | nil => simp [readQuoted]
  | cons b more =>
      have hb : b ≠ quote := fun heq => h (congrArg some heq)
      simp [readQuoted, hb]

/-- Another element belongs to the text. -/
theorem readQuoted_cons_of_ne {quote a : α} (h : a ≠ quote) (rest : List α) :
    readQuoted quote (a :: rest) = (readQuoted quote rest).map fun r => (a :: r.1, r.2) := by
  cases rest <;> simp [readQuoted, h]

/-- A quoted text is read back, whatever it is. -/
theorem readQuoted_doubled (quote : α) (text : List α) {rest : List α}
    (h : rest.head? ≠ some quote) :
    readQuoted quote (doubled quote text ++ quote :: rest) = some (text, rest) := by
  induction text with
  | nil => exact readQuoted_close h
  | cons a text ih =>
      rw [doubled, List.flatMap_cons, List.append_assoc]
      change readQuoted quote (_ ++ (doubled quote text ++ quote :: rest)) = _
      by_cases ha : a = quote
      · subst ha
        simp [readQuoted, ih]
      · rw [if_neg ha, List.singleton_append, readQuoted_cons_of_ne ha, ih]
        rfl

end Foundation
