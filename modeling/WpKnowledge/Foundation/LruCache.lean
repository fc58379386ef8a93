import Mathlib.Data.List.Basic
import Mathlib.Data.List.Nodup
import Mathlib.Tactic.Common

/-!
# A bounded map with least-recently-used eviction

The entries are kept most recent first.  A cache carries its own
well-formedness: it has room for at least one entry, no key occurs twice, and
it never holds more entries than its capacity.

Main results:

- Theorem {lit}`peek_put_self`: a key just put is found.
- Theorem {lit}`peek_of_peek_put`: putting a key changes no other key's value;
  it may only evict.
- Theorem {lit}`peek_put_of_lt`: below capacity nothing is evicted.
- Theorem {lit}`peek_foldl_pop`: popping a list of keys removes exactly them.
-/

namespace Foundation

/-- A bounded map from `κ` to `ν`, most recently used entry first. -/
structure LruCache (κ ν : Type) where
  cap : Nat
  entries : List (κ × ν)
  cap_pos : 0 < cap
  nodup : (entries.map Prod.fst).Nodup
  length_le : entries.length ≤ cap

namespace LruCache

variable {κ ν : Type} [DecidableEq κ]

/-- The empty cache of a given positive capacity. -/
def new (cap : Nat) (h : 0 < cap) : LruCache κ ν where
  cap := cap
  entries := []
  cap_pos := h
  nodup := by simp
  length_le := Nat.zero_le _

/-- Number of entries held. -/
def len (c : LruCache κ ν) : Nat := c.entries.length

/-- Read a key without touching the order of use. -/
def peek (c : LruCache κ ν) (k : κ) : Option ν := c.entries.lookup k

/-- The entries of every key but `k`, in order. -/
def without (entries : List (κ × ν)) (k : κ) : List (κ × ν) :=
  entries.filter fun e => e.1 ≠ k

theorem length_without_le (entries : List (κ × ν)) (k : κ) :
    (without entries k).length ≤ entries.length :=
  List.length_filter_le _ _

theorem nodup_without {entries : List (κ × ν)} (k : κ)
    (h : (entries.map Prod.fst).Nodup) : ((without entries k).map Prod.fst).Nodup :=
  h.sublist (List.filter_sublist.map Prod.fst)

theorem not_mem_keys_without (entries : List (κ × ν)) (k : κ) :
    k ∉ (without entries k).map Prod.fst := by
  simp [without]

/-- Insert or overwrite a key and make it the most recent one; when the cache
is full and the key is new, the least recently used entry is evicted. -/
def put (c : LruCache κ ν) (k : κ) (v : ν) : LruCache κ ν where
  cap := c.cap
  entries := (k, v) :: (without c.entries k).take (c.cap - 1)
  cap_pos := c.cap_pos
  nodup := by
    rw [List.map_cons, List.nodup_cons]
    constructor
    · intro hmem
      rw [List.map_take] at hmem
      exact not_mem_keys_without c.entries k (List.mem_of_mem_take hmem)
    · exact (nodup_without k c.nodup).sublist ((List.take_sublist _ _).map _)
  length_le := by
    have htake : ((without c.entries k).take (c.cap - 1)).length ≤ c.cap - 1 :=
      List.length_take_le _ _
    have hpos := c.cap_pos
    rw [List.length_cons]
    omega

/-- Remove a key. -/
def pop (c : LruCache κ ν) (k : κ) : LruCache κ ν where
  cap := c.cap
  entries := without c.entries k
  cap_pos := c.cap_pos
  nodup := nodup_without k c.nodup
  length_le := Nat.le_trans (length_without_le _ _) c.length_le

/-- Remove every entry and keep the capacity. -/
def clear (c : LruCache κ ν) : LruCache κ ν := new c.cap c.cap_pos

/-! ## Lookups after each operation -/

private theorem lookup_pair_cons (k k' : κ) (v : ν) (es : List (κ × ν)) :
    ((k, v) :: es).lookup k' = if k' = k then some v else es.lookup k' := by
  by_cases hk : k' = k
  · simp [hk]
  · have hbeq : (k' == k) = false := by simp [hk]
    simp [List.lookup_cons, hbeq, hk]

/-- Dropping the entries of `k` loses exactly the value of `k`. -/
theorem lookup_without (entries : List (κ × ν)) (k k' : κ) :
    (without entries k).lookup k' = if k' = k then none else entries.lookup k' := by
  induction entries with
  | nil => simp [without]
  | cons e es ih =>
      obtain ⟨ke, ve⟩ := e
      by_cases hke : ke = k
      · have hdrop : without ((ke, ve) :: es) k = without es k := by simp [without, hke]
        rw [hdrop, ih, lookup_pair_cons, hke]
        by_cases hk : k' = k <;> simp [hk]
      · have hkeep : without ((ke, ve) :: es) k = (ke, ve) :: without es k := by
          simp [without, hke]
        rw [hkeep, lookup_pair_cons, lookup_pair_cons, ih]
        by_cases hk : k' = k
        · have hne : k' ≠ ke := fun h => hke (h.symm.trans hk)
          rw [if_pos hk, if_neg hne, if_pos hk]
        · rw [if_neg hk, if_neg hk]

/-- A value found in a prefix of a list is the value found in the list. -/
theorem lookup_of_lookup_take {entries : List (κ × ν)} {n : Nat} {k : κ} {v : ν}
    (h : (entries.take n).lookup k = some v) : entries.lookup k = some v := by
  induction entries generalizing n with
  | nil => simp at h
  | cons e es ih =>
      obtain ⟨ke, ve⟩ := e
      cases n with
      | zero => simp at h
      | succ n =>
          rw [List.take_succ_cons, lookup_pair_cons] at h
          rw [lookup_pair_cons]
          split at h
          · rename_i hk
            rw [if_pos hk]
            exact h
          · rename_i hk
            rw [if_neg hk]
            exact ih h

@[simp]
theorem peek_new (cap : Nat) (h : 0 < cap) (k : κ) :
    (new cap h : LruCache κ ν).peek k = none :=
  rfl

@[simp]
theorem peek_clear (c : LruCache κ ν) (k : κ) : c.clear.peek k = none :=
  rfl

@[simp]
theorem peek_put_self (c : LruCache κ ν) (k : κ) (v : ν) : (c.put k v).peek k = some v := by
  simp [peek, put]

/-- Putting a key never changes the value of another key; at most it evicts. -/
theorem peek_of_peek_put {c : LruCache κ ν} {k k' : κ} {v w : ν}
    (hne : k' ≠ k) (h : (c.put k v).peek k' = some w) : c.peek k' = some w := by
  simp only [peek, put] at h
  rw [lookup_pair_cons, if_neg hne] at h
  have hfull := lookup_of_lookup_take h
  rw [lookup_without, if_neg hne] at hfull
  exact hfull

/-- Below capacity a put evicts nothing. -/
theorem peek_put_of_lt {c : LruCache κ ν} {k k' : κ} {v : ν}
    (hne : k' ≠ k) (hlt : c.len < c.cap) : (c.put k v).peek k' = c.peek k' := by
  have hlen : (without c.entries k).length ≤ c.cap - 1 := by
    have := length_without_le c.entries k
    have hlt' : c.entries.length < c.cap := hlt
    omega
  simp only [peek, put]
  rw [lookup_pair_cons, if_neg hne, List.take_of_length_le hlen, lookup_without, if_neg hne]

theorem peek_pop (c : LruCache κ ν) (k k' : κ) :
    (c.pop k).peek k' = if k' = k then none else c.peek k' :=
  lookup_without c.entries k k'

/-- Popping a list of keys removes exactly the keys of the list. -/
theorem peek_foldl_pop (c : LruCache κ ν) (ks : List κ) (k' : κ) :
    (ks.foldl pop c).peek k' = if k' ∈ ks then none else c.peek k' := by
  induction ks generalizing c with
  | nil => simp
  | cons k ks ih =>
      rw [List.foldl_cons, ih, peek_pop]
      by_cases hmem : k' ∈ ks <;> by_cases hk : k' = k <;> simp [hmem, hk]

/-- A value found belongs to an entry. -/
theorem mem_entries_of_peek {c : LruCache κ ν} {k : κ} {v : ν} (h : c.peek k = some v) :
    (k, v) ∈ c.entries := by
  simp only [peek] at h
  generalize c.entries = es at h
  induction es with
  | nil => simp at h
  | cons e es ih =>
      obtain ⟨ke, ve⟩ := e
      rw [lookup_pair_cons] at h
      split at h
      · rename_i hk
        simp only [Option.some.injEq] at h
        rw [hk, h]
        exact List.mem_cons_self
      · exact List.mem_cons_of_mem _ (ih h)

/-! ## Sizes -/

@[simp]
theorem cap_put (c : LruCache κ ν) (k : κ) (v : ν) : (c.put k v).cap = c.cap :=
  rfl

omit [DecidableEq κ] in
@[simp]
theorem cap_clear (c : LruCache κ ν) : c.clear.cap = c.cap :=
  rfl

omit [DecidableEq κ] in
@[simp]
theorem len_clear (c : LruCache κ ν) : c.clear.len = 0 :=
  rfl

/-- A put adds at most one entry. -/
theorem len_put_le (c : LruCache κ ν) (k : κ) (v : ν) : (c.put k v).len ≤ c.len + 1 := by
  have htake : ((without c.entries k).take (c.cap - 1)).length ≤ (without c.entries k).length :=
    List.length_take_le' _ _
  have hle := length_without_le c.entries k
  simp only [len, put, List.length_cons]
  omega

end LruCache

end Foundation
