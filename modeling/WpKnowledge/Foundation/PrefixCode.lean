import Mathlib.Data.List.Forall2
import WpKnowledge.Foundation.Tokens

/-!
# Words that tell where they end

Codes that concatenate words without writing their lengths or a separator between
them.  Such a text can be read back when the words tell where they end: when one
function gives the length of any of them in front of any rest.

Main results:

- Theorem {lit}`Delimits.append_inj`: of two such words in front of two rests, equal
  texts are of equal words and equal rests.
- Theorem {lit}`flatMap_eq_flatMap_iff`: two lists written with such words have one
  text exactly when they are written with the same words, element by element.
-/

namespace Foundation

variable {σ : Type}

/-- The function gives the length of the word in front of any rest. -/
def Delimits (width : List σ → Nat) (word : List σ) : Prop :=
  ∀ rest, width (word ++ rest) = word.length

/-- Equal texts start with equal words. -/
theorem Delimits.append_inj {width : List σ → Nat} {v w s t : List σ} (hv : Delimits width v)
    (hw : Delimits width w) (h : v ++ s = w ++ t) : v = w ∧ s = t := by
  have hlength : v.length = w.length := by
    rw [← hv s, h, hw t]
  exact List.append_inj h hlength

/-! ## Making words of words -/

/-- A word of a length known beforehand. -/
theorem delimits_of_length {word : List σ} {n : Nat} (h : word.length = n) :
    Delimits (fun _ => n) word :=
  fun _ => h.symm

/-- A word that ends with the first of a mark. -/
theorem delimits_upTo [DecidableEq σ] {mark : σ} {body : List σ} (h : mark ∉ body) :
    Delimits (upTo [mark]) (body ++ [mark]) := by
  intro rest
  have hcloses : Closes [mark] body := by
    rw [Closes, List.dropLast_concat]
    intro hinfix
    exact h (List.IsInfix.subset hinfix (List.mem_singleton_self mark))
  rw [upTo_closed (List.cons_ne_nil mark []) hcloses, List.length_append]

/-- Two widths one after the other. -/
def andThen (first second : List σ → Nat) (s : List σ) : Nat :=
  first s + second (s.drop (first s))

/-- A word after a word. -/
theorem Delimits.append {first second : List σ → Nat} {v w : List σ} (hv : Delimits first v)
    (hw : Delimits second w) : Delimits (andThen first second) (v ++ w) := by
  intro rest
  rw [andThen, List.append_assoc, hv, List.drop_left, hw, List.length_append]

/-- The width of what starts with a tag and goes on as the tag says. -/
def tagged (width : σ → List σ → Nat) : List σ → Nat
  | [] => 0
  | tag :: s => width tag s + 1

/-- A word after a tag. -/
theorem Delimits.cons {width : σ → List σ → Nat} {tag : σ} {word : List σ}
    (h : Delimits (width tag) word) : Delimits (tagged width) (tag :: word) :=
  fun rest => congrArg (· + 1) (h rest)

/-! ## Lists of words -/

variable {α β : Type}

/-- Two lists, possibly of two kinds, that are written with words that tell where
they end have one text exactly when they are written with the same words, element
by element. -/
theorem flatMap_eq_flatMap_iff {width : List σ → Nat} {f : α → List σ} {g : β → List σ}
    (hf : ∀ a, Delimits width (f a)) (hg : ∀ b, Delimits width (g b))
    (hfne : ∀ a, f a ≠ []) (hgne : ∀ b, g b ≠ []) (as : List α) (bs : List β) :
    as.flatMap f = bs.flatMap g ↔ List.Forall₂ (fun a b => f a = g b) as bs := by
  induction as generalizing bs with
  | nil =>
      cases bs with
      | nil => simp
      | cons b bs => simp [hgne b]
  | cons a as ih =>
      cases bs with
      | nil => simp [hfne a]
      | cons b bs =>
          rw [List.flatMap_cons, List.flatMap_cons, List.forall₂_cons, ← ih]
          constructor
          · intro h
            exact (hf a).append_inj (hg b) h
          · intro h
            rw [h.1, h.2]

end Foundation
