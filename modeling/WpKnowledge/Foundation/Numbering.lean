import Mathlib.Data.List.Basic
import Mathlib.Data.Finset.Card
import Mathlib.Tactic.Common
import WpKnowledge.Foundation.OptionTraverse

/-!
# Numberings

A numbering hands out consecutive positive numbers to keys, one number per key.
It is the abstract content of an index table that grows by one entry at a time
and that is thrown away as a whole.

Main results:

- Theorem {lit}`IsNumbering.allot`: giving the next number to a new key is again
  a numbering.
- Theorem {lit}`IsNumbering.keys_eq_of_mapM_eq`: lists of keys are determined by
  their lists of numbers.
- Theorem {lit}`unnumbered_cons_of_none`: allotting a number to a key uses up
  one of the keys that had none.
-/

namespace Foundation

variable {κ : Type} [DecidableEq κ]

/-- `IsNumbering f n`: the keys that `f` numbers have pairwise different
numbers, all of them in `1..n`. -/
structure IsNumbering (f : κ → Option Nat) (n : Nat) : Prop where
  injective : ∀ {a b : κ} {i : Nat}, f a = some i → f b = some i → a = b
  bounded : ∀ {a : κ} {i : Nat}, f a = some i → 1 ≤ i ∧ i ≤ n

/-- Give the number `i` to the key `k`. -/
def allotNumber (f : κ → Option Nat) (k : κ) (i : Nat) : κ → Option Nat :=
  fun a => if a = k then some i else f a

@[simp]
theorem allotNumber_self (f : κ → Option Nat) (k : κ) (i : Nat) :
    allotNumber f k i k = some i := by
  simp [allotNumber]

theorem allotNumber_of_ne {f : κ → Option Nat} {k a : κ} (i : Nat) (h : a ≠ k) :
    allotNumber f k i a = f a := by
  simp [allotNumber, h]

/-- Allotting a number to a new key keeps every number given before. -/
theorem allotNumber_of_some {f : κ → Option Nat} {k a : κ} {i j : Nat}
    (hk : f k = none) (ha : f a = some j) : allotNumber f k i a = some j := by
  have hne : a ≠ k := by
    rintro rfl
    simp [hk] at ha
  rw [allotNumber_of_ne i hne, ha]

omit [DecidableEq κ] in
/-- Nothing is numbered at first. -/
theorem IsNumbering.none : IsNumbering (fun _ : κ => Option.none) 0 where
  injective h := by simp at h
  bounded h := by simp at h

/-- Giving the next number to a new key is again a numbering. -/
theorem IsNumbering.allot {f : κ → Option Nat} {n : Nat} (h : IsNumbering f n) (k : κ) :
    IsNumbering (allotNumber f k (n + 1)) (n + 1) where
  injective := by
    intro a b i ha hb
    by_cases hak : a = k <;> by_cases hbk : b = k
    · rw [hak, hbk]
    · -- only `k` can have the number `n + 1`, which is above every old number
      rw [hak, allotNumber_self] at ha
      rw [allotNumber_of_ne _ hbk] at hb
      have := (h.bounded hb).2
      simp only [Option.some.injEq] at ha
      omega
    · rw [hbk, allotNumber_self] at hb
      rw [allotNumber_of_ne _ hak] at ha
      have := (h.bounded ha).2
      simp only [Option.some.injEq] at hb
      omega
    · rw [allotNumber_of_ne _ hak] at ha
      rw [allotNumber_of_ne _ hbk] at hb
      exact h.injective ha hb
  bounded := by
    intro a i ha
    by_cases hak : a = k
    · rw [hak, allotNumber_self, Option.some.injEq] at ha
      omega
    · rw [allotNumber_of_ne _ hak] at ha
      have := h.bounded ha
      omega

omit [DecidableEq κ] in
/-- Two lists of keys with the same numbers are the same list. -/
theorem IsNumbering.keys_eq_of_mapM_eq {f : κ → Option Nat} {n : Nat} (h : IsNumbering f n)
    {ks ls : List κ} {is : List Nat} (hk : ks.mapM f = some is) (hl : ls.mapM f = some is) :
    ks = ls := by
  have hsame := forall₂_of_mapM_eq hk hl
  refine List.forall₂_eq_eq_eq ▸ hsame.imp ?_
  rintro a b ⟨i, ha, hb⟩
  exact h.injective ha hb

/-! ## How many keys of a list still need a number -/

/-- The number of different keys of `ks` that `f` does not number. -/
def unnumbered (f : κ → Option Nat) (ks : List κ) : Nat :=
  (ks.toFinset.filter fun k => f k = none).card

@[simp]
theorem unnumbered_nil (f : κ → Option Nat) : unnumbered f [] = 0 := by
  simp [unnumbered]

/-- A numbered key adds nothing to the count. -/
theorem unnumbered_cons_of_some {f : κ → Option Nat} {k : κ} {i : Nat} (hk : f k = some i)
    (ks : List κ) : unnumbered f (k :: ks) = unnumbered f ks := by
  unfold unnumbered
  rw [List.toFinset_cons, Finset.filter_insert]
  simp [hk]

/-- Numbering a new key uses up one key of the count. -/
theorem unnumbered_cons_of_none {f : κ → Option Nat} {k : κ} (hk : f k = none) (i : Nat)
    (ks : List κ) :
    unnumbered f (k :: ks) = unnumbered (allotNumber f k i) ks + 1 := by
  unfold unnumbered
  rw [List.toFinset_cons, Finset.filter_insert, if_pos hk]
  have hset : ks.toFinset.filter (fun a => allotNumber f k i a = none) =
      (ks.toFinset.filter fun a => f a = none).erase k := by
    ext a
    rw [Finset.mem_erase, Finset.mem_filter, Finset.mem_filter]
    by_cases hak : a = k <;> simp [allotNumber, hak]
  rw [hset, ← Finset.card_erase_add_one (Finset.mem_insert_self k _),
    Finset.erase_insert_eq_erase]

/-- No more keys need a number than there are. -/
theorem unnumbered_le_length (f : κ → Option Nat) (ks : List κ) :
    unnumbered f ks ≤ ks.length :=
  (Finset.card_filter_le _ _).trans (List.toFinset_card_le _)

/-! ## Ranks -/

/-- The distinct keys in the order of their first occurrences. -/
def distinct (keys : List κ) : List κ :=
  keys.eraseDups

/-- The rank of a key among the distinct keys, counted from one. -/
def rank (keys : List κ) (k : κ) : Nat :=
  (distinct keys).idxOf k + 1

/-- The distinct keys are the keys. -/
theorem mem_distinct {keys : List κ} {k : κ} : k ∈ distinct keys ↔ k ∈ keys :=
  List.mem_eraseDups

/-- One more key is distinct from the others or one of them. -/
theorem distinct_concat (keys : List κ) (k : κ) :
    distinct (keys ++ [k]) = if k ∈ keys then distinct keys else distinct keys ++ [k] := by
  rw [distinct, List.eraseDups_append]
  by_cases hk : k ∈ keys
  · simp [distinct, List.removeAll, hk]
  · simp [distinct, List.removeAll, hk, List.eraseDups_cons]

/-- One more key leaves the rank of a key met before. -/
theorem rank_concat_of_mem {keys : List κ} {k : κ} (hk : k ∈ keys) (k' : κ) :
    rank (keys ++ [k']) k = rank keys k := by
  rw [rank, rank, distinct_concat]
  by_cases hk' : k' ∈ keys
  · rw [if_pos hk']
  · rw [if_neg hk', List.idxOf_append_of_mem (mem_distinct.mpr hk)]

/-- A key not met before has the next rank. -/
theorem rank_concat_self {keys : List κ} {k : κ} (hk : k ∉ keys) :
    rank (keys ++ [k]) k = (distinct keys).length + 1 := by
  rw [rank, distinct_concat, if_neg hk,
    List.idxOf_append_of_notMem fun hmem => hk (mem_distinct.mp hmem)]
  simp

/-- The key of a rank. -/
theorem getElem?_distinct_rank {keys : List κ} {k : κ} (hk : k ∈ keys) :
    (distinct keys)[rank keys k - 1]? = some k := by
  rw [rank, Nat.add_sub_cancel]
  exact List.getElem?_idxOf (mem_distinct.mpr hk)

end Foundation
