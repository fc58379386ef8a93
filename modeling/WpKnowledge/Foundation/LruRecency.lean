import Mathlib.Data.List.Forall2
import Mathlib.Data.Finset.Card
import WpKnowledge.Foundation.LruCache

/-!
# Renaming and recency

Two caches with eviction are alike under a one-to-one relation of their keys if they hold
the same values, in the same order of use, under related keys.  Every operation on related
keys keeps them alike, so that what a cache does depends on its keys only up to renaming.

A key that has been put stays exactly until as many other keys as there is room for have
been put after it, however often each of them.

Main results:

- Theorems {lit}`Renames.put`, {lit}`Renames.foldl_pop` and {lit}`Renames.peek_eq`: the
  operations keep two caches alike and do not tell them apart.
- Theorems {lit}`peek_putAll` and {lit}`peek_changeAll`: how long a key stays, without and
  with removals.
-/

namespace Foundation

namespace LruCache

/-! ## Renaming -/

section Renaming

variable {κ κ' ν : Type} [DecidableEq κ] [DecidableEq κ'] {ρ ρ' : κ → κ' → Prop}

/-- Two entries with one value, under related keys. -/
def SameEntry (ρ : κ → κ' → Prop) (e : κ × ν) (f : κ' × ν) : Prop :=
  ρ e.1 f.1 ∧ e.2 = f.2

/-- Two caches are alike under a relation of their keys. -/
structure Renames (ρ : κ → κ' → Prop) (c : LruCache κ ν) (d : LruCache κ' ν) : Prop where
  cap : c.cap = d.cap
  entries : List.Forall₂ (SameEntry ρ) c.entries d.entries

omit [DecidableEq κ] [DecidableEq κ'] in
/-- Empty caches of one capacity are alike. -/
theorem renames_new (ρ : κ → κ' → Prop) (cap : Nat) (h : 0 < cap) :
    Renames ρ (new cap h : LruCache κ ν) (new cap h) :=
  ⟨rfl, .nil⟩

omit [DecidableEq κ] [DecidableEq κ'] in
/-- A relation of more keys keeps two caches alike. -/
theorem Renames.mono {c : LruCache κ ν} {d : LruCache κ' ν} (h : Renames ρ c d)
    (hρ : ∀ {k l}, ρ k l → ρ' k l) : Renames ρ' c d :=
  ⟨h.cap, h.entries.imp fun _ _ hsame => ⟨hρ hsame.1, hsame.2⟩⟩

omit [DecidableEq κ] [DecidableEq κ'] in
/-- Emptied caches are alike. -/
theorem Renames.clear {c : LruCache κ ν} {d : LruCache κ' ν} (h : Renames ρ c d)
    (ρ' : κ → κ' → Prop) : Renames ρ' c.clear d.clear :=
  ⟨h.cap, .nil⟩

/-- Entries that are alike stay so without related keys. -/
theorem sameEntries_without (hρ : Relator.BiUnique ρ) {k : κ} {l : κ'} (hk : ρ k l)
    {es : List (κ × ν)} {fs : List (κ' × ν)} (h : List.Forall₂ (SameEntry ρ) es fs) :
    List.Forall₂ (SameEntry ρ) (without es k) (without fs l) := by
  refine List.rel_filter (fun e f hsame => ?_) h
  have hkey : e.1 = k ↔ f.1 = l := Relator.rel_eq hρ hsame.1 hk
  simp [hkey]

theorem Renames.put (hρ : Relator.BiUnique ρ) {c : LruCache κ ν} {d : LruCache κ' ν}
    (h : Renames ρ c d) {k : κ} {l : κ'} (hk : ρ k l) (v : ν) :
    Renames ρ (c.put k v) (d.put l v) := by
  refine ⟨h.cap, .cons ⟨hk, rfl⟩ ?_⟩
  rw [h.cap]
  exact List.forall₂_take _ (sameEntries_without hρ hk h.entries)

theorem Renames.pop (hρ : Relator.BiUnique ρ) {c : LruCache κ ν} {d : LruCache κ' ν}
    (h : Renames ρ c d) {k : κ} {l : κ'} (hk : ρ k l) : Renames ρ (c.pop k) (d.pop l) :=
  ⟨h.cap, sameEntries_without hρ hk h.entries⟩

/-- Popping related lists of keys keeps two caches alike. -/
theorem Renames.foldl_pop (hρ : Relator.BiUnique ρ) {c : LruCache κ ν} {d : LruCache κ' ν}
    (h : Renames ρ c d) {ks : List κ} {ls : List κ'} (hks : List.Forall₂ ρ ks ls) :
    Renames ρ (ks.foldl LruCache.pop c) (ls.foldl LruCache.pop d) := by
  induction hks generalizing c d with
  | nil => exact h
  | cons hk _ ih => exact ih (h.pop hρ hk)

/-- Related keys have one value. -/
theorem Renames.peek_eq (hρ : Relator.BiUnique ρ) {c : LruCache κ ν} {d : LruCache κ' ν}
    (h : Renames ρ c d) {k : κ} {l : κ'} (hk : ρ k l) : c.peek k = d.peek l := by
  have hlookup : ∀ {es : List (κ × ν)} {fs : List (κ' × ν)},
      List.Forall₂ (SameEntry ρ) es fs → es.lookup k = fs.lookup l := by
    intro es fs hsame
    induction hsame with
    | nil => rfl
    | @cons e f es fs hef _ ih =>
        obtain ⟨k', v⟩ := e
        obtain ⟨l', w⟩ := f
        have hkey : k = k' ↔ l = l' := Relator.rel_eq hρ hk hef.1
        by_cases hke : k = k'
        · have hv : v = w := hef.2
          rw [hke, hkey.mp hke, hv, List.lookup_cons_self, List.lookup_cons_self]
        · have hlf : l ≠ l' := fun hl => hke (hkey.mpr hl)
          simp only [List.lookup_cons, beq_false_of_ne hke, beq_false_of_ne hlf, ih]
  exact hlookup h.entries

omit [DecidableEq κ] in
/-- A key that no key is related to has no value. -/
theorem Renames.peek_eq_none {c : LruCache κ ν} {d : LruCache κ' ν} (h : Renames ρ c d) {l : κ'}
    (hl : ∀ k, ¬ ρ k l) : d.peek l = none := by
  have hlookup : ∀ {es : List (κ × ν)} {fs : List (κ' × ν)},
      List.Forall₂ (SameEntry ρ) es fs → fs.lookup l = none := by
    intro es fs hsame
    induction hsame with
    | nil => rfl
    | @cons e f es fs hef _ ih =>
        obtain ⟨l', w⟩ := f
        have hlf : l ≠ l' := by
          rintro rfl
          exact hl e.1 hef.1
        simp only [List.lookup_cons, beq_false_of_ne hlf, ih]
  exact hlookup h.entries

end Renaming

/-! ## Recency -/

section Recency

variable {κ ν : Type} [DecidableEq κ]

/-- The cache after entries have been put into it one after the other. -/
def putAll (c : LruCache κ ν) (es : List (κ × ν)) : LruCache κ ν :=
  es.foldl (fun c e => c.put e.1 e.2) c

@[simp]
theorem putAll_nil (c : LruCache κ ν) : c.putAll [] = c := rfl

@[simp]
theorem putAll_cons (c : LruCache κ ν) (e : κ × ν) (es : List (κ × ν)) :
    c.putAll (e :: es) = (c.put e.1 e.2).putAll es := rfl

@[simp]
theorem cap_putAll (c : LruCache κ ν) (es : List (κ × ν)) : (c.putAll es).cap = c.cap := by
  induction es generalizing c with
  | nil => rfl
  | cons e es ih => exact ih _

/-- The keys of some entries. -/
def keys (es : List (κ × ν)) : Finset κ :=
  (es.map Prod.fst).toFinset

@[simp]
theorem keys_cons (e : κ × ν) (es : List (κ × ν)) : keys (e :: es) = insert e.1 (keys es) := by
  simp [keys]

theorem keys_without (es : List (κ × ν)) (k : κ) : keys (without es k) = (keys es).erase k := by
  ext k'
  simp only [keys, without, Finset.mem_erase, List.mem_toFinset, List.mem_map, List.mem_filter]
  constructor
  · rintro ⟨e, ⟨he, hne⟩, rfl⟩
    exact ⟨by simpa using hne, e, he, rfl⟩
  · rintro ⟨hne, e, he, rfl⟩
    exact ⟨e, ⟨he, by simpa using hne⟩, rfl⟩

/-- A key stands in a cache behind some other keys. -/
structure StandsBehind (c : LruCache κ ν) (k : κ) (v : ν) (ks : Finset κ)
    (front back : List (κ × ν)) : Prop where
  entries : c.entries = front ++ (k, v) :: back
  keys : keys front = ks

/-- As many entries stand before it as there are other keys. -/
theorem StandsBehind.length_eq {c : LruCache κ ν} {k : κ} {v : ν} {ks : Finset κ}
    {front back : List (κ × ν)} (h : StandsBehind c k v ks front back) :
    front.length = ks.card := by
  have hnodup : (front.map Prod.fst).Nodup := by
    have hall := c.nodup
    rw [h.entries, List.map_append] at hall
    exact hall.of_append_left
  rw [← h.keys, LruCache.keys, List.toFinset_card_of_nodup hnodup, List.length_map]

theorem StandsBehind.peek {c : LruCache κ ν} {k : κ} {v : ν} {ks : Finset κ}
    {front back : List (κ × ν)} (h : StandsBehind c k v ks front back) : c.peek k = some v := by
  have hnot : k ∉ front.map Prod.fst := by
    have hall := c.nodup
    rw [h.entries, List.map_append, List.nodup_append] at hall
    exact fun hmem => hall.2.2 k hmem k (by simp) rfl
  rw [LruCache.peek, h.entries, List.lookup_append]
  have hfront : front.lookup k = none := by
    rw [List.lookup_eq_none_iff]
    intro e he
    rw [bne_iff_ne]
    rintro rfl
    exact hnot (List.mem_map_of_mem he)
  rw [hfront]
  simp

/-- A key just put is the first one. -/
theorem standsBehind_put (c : LruCache κ ν) (k : κ) (v : ν) :
    StandsBehind (c.put k v) k v ∅ [] ((without c.entries k).take (c.cap - 1)) :=
  ⟨rfl, rfl⟩

/-- Another key that is put moves in front, and the key leaves when there is no more room. -/
theorem StandsBehind.put {c : LruCache κ ν} {k k' : κ} {v : ν} {ks : Finset κ}
    {front back : List (κ × ν)} (h : StandsBehind c k v ks front back) (hne : k' ≠ k) (v' : ν) :
    ((insert k' ks).card < c.cap ∧
        ∃ front' back', StandsBehind (c.put k' v') k v (insert k' ks) front' back') ∨
      (c.cap ≤ (insert k' ks).card ∧ (c.put k' v').peek k = none) := by
  have hkeys : LruCache.keys ((k', v') :: without front k') = insert k' ks := by
    rw [keys_cons, keys_without, h.keys]
    ext a
    by_cases ha : a = k' <;> simp [ha]
  have hsplit : without c.entries k' = without front k' ++ (k, v) :: without back k' := by
    rw [h.entries, without, List.filter_append, List.filter_cons_of_pos (by simpa using hne.symm)]
    rfl
  have hnodup : (((k', v') :: without front k').map Prod.fst).Nodup := by
    have hall := c.nodup
    rw [h.entries, List.map_append] at hall
    rw [List.map_cons, List.nodup_cons]
    exact ⟨not_mem_keys_without front k', nodup_without k' hall.of_append_left⟩
  have hlength : (without front k').length + 1 = (insert k' ks).card := by
    rw [← hkeys, LruCache.keys, List.toFinset_card_of_nodup hnodup, List.length_map,
      List.length_cons]
  have hpos := c.cap_pos
  rcases Nat.lt_or_ge (insert k' ks).card c.cap with hroom | hfull
  · left
    have htake : (without c.entries k').take (c.cap - 1) = without front k' ++ (k, v) ::
        (without back k').take (c.cap - 1 - (without front k').length - 1) := by
      rw [hsplit, List.take_append, List.take_of_length_le (by omega)]
      congr 1
      obtain ⟨n, hn⟩ : ∃ n, c.cap - 1 - (without front k').length = n + 1 :=
        ⟨c.cap - 1 - (without front k').length - 1, by omega⟩
      rw [hn, List.take_succ_cons]
      rfl
    have hentries : (c.put k' v').entries = ((k', v') :: without front k') ++ (k, v) ::
        (without back k').take (c.cap - 1 - (without front k').length - 1) := by
      change (k', v') :: (without c.entries k').take (c.cap - 1) = _
      rw [htake]
      rfl
    exact ⟨hroom, _, _, hentries, hkeys⟩
  · refine .inr ⟨hfull, ?_⟩
    rw [Option.eq_none_iff_forall_ne_some]
    intro w hpeek
    -- what is left are the new key and keys from before
    have hmem := mem_entries_of_peek hpeek
    have hentries : (c.put k' v').entries =
        (k', v') :: (without front k').take (c.cap - 1) := by
      change (k', v') :: (without c.entries k').take (c.cap - 1) = _
      rw [hsplit, List.take_append_of_le_length (by omega)]
    rw [hentries, List.mem_cons] at hmem
    rcases hmem with heq | hmem
    · exact hne (congrArg Prod.fst heq).symm
    · have hall := c.nodup
      rw [h.entries, List.map_append, List.nodup_append] at hall
      have hfront : (k, w) ∈ front := List.mem_of_mem_filter (List.mem_of_mem_take hmem)
      exact hall.2.2 k (List.mem_map_of_mem hfront) k (by simp) rfl

/-- A key that is not there stays away while others are put. -/
theorem peek_putAll_of_none {c : LruCache κ ν} {k : κ} (h : c.peek k = none)
    {es : List (κ × ν)} (hes : ∀ e ∈ es, e.1 ≠ k) : (c.putAll es).peek k = none := by
  induction es generalizing c with
  | nil => exact h
  | cons e es ih =>
      rw [List.forall_mem_cons] at hes
      rw [putAll_cons]
      refine ih ?_ hes.2
      rw [Option.eq_none_iff_forall_ne_some]
      intro w hpeek
      rw [peek_of_peek_put hes.1.symm hpeek] at h
      cases h

theorem StandsBehind.peek_putAll {c : LruCache κ ν} {k : κ} {v : ν} {ks : Finset κ}
    {front back : List (κ × ν)} (h : StandsBehind c k v ks front back) {es : List (κ × ν)}
    (hes : ∀ e ∈ es, e.1 ≠ k) :
    (c.putAll es).peek k = if (ks ∪ LruCache.keys es).card < c.cap then some v else none := by
  induction es generalizing c ks front back with
  | nil =>
      have hroom : ks.card < c.cap := by
        have hlength := c.length_le
        rw [h.entries, List.length_append, List.length_cons, h.length_eq] at hlength
        omega
      rw [putAll_nil, h.peek, if_pos (by simpa [LruCache.keys] using hroom)]
  | cons e es ih =>
      rw [List.forall_mem_cons] at hes
      have hunion : ks ∪ LruCache.keys (e :: es) = insert e.1 ks ∪ LruCache.keys es := by
        rw [keys_cons, Finset.union_insert, Finset.insert_union]
      rw [putAll_cons, hunion]
      rcases h.put hes.1 e.2 with ⟨-, front', back', h'⟩ | ⟨hfull, hnone⟩
      · exact ih h' hes.2
      · have hcard : (insert e.1 ks).card ≤ (insert e.1 ks ∪ LruCache.keys es).card :=
          Finset.card_le_card Finset.subset_union_left
        rw [if_neg (by omega)]
        exact peek_putAll_of_none hnone hes.2

/-- A key stays while fewer other keys are put after it than there is room for. -/
theorem peek_putAll (c : LruCache κ ν) {k : κ} (v : ν) {es : List (κ × ν)}
    (hes : ∀ e ∈ es, e.1 ≠ k) :
    ((c.put k v).putAll es).peek k = if (keys es).card < c.cap then some v else none := by
  have hput := (standsBehind_put c k v).peek_putAll hes
  rwa [Finset.empty_union, cap_put] at hput

end Recency

/-! ## Recency with removals -/

section Changes

variable {κ ν : Type} [DecidableEq κ]

/-- A change of a cache: an entry is put, a key is removed, or an empty cache takes its
place. -/
inductive Change (κ ν : Type) where
  | put (k : κ) (v : ν)
  | pop (k : κ)
  | renew (cap : Nat) (cap_pos : 0 < cap)

/-- The cache after a change. -/
def change (c : LruCache κ ν) : Change κ ν → LruCache κ ν
  | .put k v => c.put k v
  | .pop k => c.pop k
  | .renew cap cap_pos => new cap cap_pos

/-- The cache after some changes, one after the other. -/
def changeAll (c : LruCache κ ν) (changes : List (Change κ ν)) : LruCache κ ν :=
  changes.foldl change c

@[simp]
theorem changeAll_nil (c : LruCache κ ν) : c.changeAll [] = c := rfl

@[simp]
theorem changeAll_cons (c : LruCache κ ν) (ch : Change κ ν) (changes : List (Change κ ν)) :
    c.changeAll (ch :: changes) = (c.change ch).changeAll changes := rfl

theorem changeAll_append (c : LruCache κ ν) (changes changes' : List (Change κ ν)) :
    c.changeAll (changes ++ changes') = (c.changeAll changes).changeAll changes' :=
  List.foldl_append

/-- Whether a change puts a key. -/
def Change.puts (k : κ) : Change κ ν → Bool
  | .put k' _ => k' = k
  | _ => false

/-- Whether a change removes a key, with or without the others. -/
def Change.removes (k : κ) : Change κ ν → Bool
  | .put _ _ => false
  | .pop k' => k' = k
  | .renew _ _ => true

/-- The keys in front of another one after a change. -/
def Change.front (ks : Finset κ) : Change κ ν → Finset κ
  | .put k _ => insert k ks
  | .pop k => ks.erase k
  | .renew _ _ => ∅

/-- The keys in front of another one after some changes: those that have been put and not
removed since. -/
def inFront (ks : Finset κ) (changes : List (Change κ ν)) : Finset κ :=
  changes.foldl Change.front ks

/-- There is never no room left behind the keys in front. -/
def NeverFull (cap : Nat) (ks : Finset κ) (changes : List (Change κ ν)) : Prop :=
  ∀ before ∈ changes.inits, (inFront ks before).card < cap

instance (cap : Nat) (ks : Finset κ) (changes : List (Change κ ν)) :
    Decidable (NeverFull cap ks changes) :=
  inferInstanceAs (Decidable (∀ before ∈ changes.inits, _))

theorem neverFull_cons_iff {cap : Nat} {ks : Finset κ} {ch : Change κ ν}
    {changes : List (Change κ ν)} :
    NeverFull cap ks (ch :: changes) ↔ ks.card < cap ∧ NeverFull cap (ch.front ks) changes := by
  simp only [NeverFull, List.inits_cons, List.forall_mem_cons, List.forall_mem_map]
  rfl

/-- A key that is removed from in front makes room. -/
theorem StandsBehind.pop {c : LruCache κ ν} {k k' : κ} {v : ν} {ks : Finset κ}
    {front back : List (κ × ν)} (h : StandsBehind c k v ks front back) (hne : k' ≠ k) :
    StandsBehind (c.pop k') k v (ks.erase k') (without front k') (without back k') := by
  constructor
  · change without c.entries k' = _
    rw [h.entries, without, List.filter_append, List.filter_cons_of_pos (by simpa using hne.symm)]
    rfl
  · rw [keys_without, h.keys]

/-- A key that is not there stays away until it is put. -/
theorem peek_changeAll_of_none {c : LruCache κ ν} {k : κ} (h : c.peek k = none)
    {changes : List (Change κ ν)} (hputs : ∀ ch ∈ changes, ch.puts k = false) :
    (c.changeAll changes).peek k = none := by
  induction changes generalizing c with
  | nil => exact h
  | cons ch changes ih =>
      rw [List.forall_mem_cons] at hputs
      refine ih ?_ hputs.2
      cases ch with
      | put k' v' =>
          have hne : k' ≠ k := by simpa [Change.puts] using hputs.1
          rw [Option.eq_none_iff_forall_ne_some]
          intro w hpeek
          rw [peek_of_peek_put hne.symm hpeek] at h
          cases h
      | pop k' =>
          rw [change, peek_pop]
          split_ifs
          · rfl
          · exact h
      | renew cap cap_pos => exact peek_new cap cap_pos k

/-- A key stays behind others until it is removed or there is no room left. -/
theorem StandsBehind.peek_changeAll {c : LruCache κ ν} {k : κ} {v : ν} {ks : Finset κ}
    {front back : List (κ × ν)} (h : StandsBehind c k v ks front back)
    {changes : List (Change κ ν)} (hputs : ∀ ch ∈ changes, ch.puts k = false) :
    (c.changeAll changes).peek k =
      if (∀ ch ∈ changes, ch.removes k = false) ∧ NeverFull c.cap ks changes then some v
      else none := by
  have hroom : ks.card < c.cap := by
    have hlength := c.length_le
    rw [h.entries, List.length_append, List.length_cons, h.length_eq] at hlength
    omega
  induction changes generalizing c ks front back with
  | nil =>
      rw [changeAll_nil, h.peek, if_pos]
      exact ⟨nofun, by simpa [NeverFull, inFront] using hroom⟩
  | cons ch changes ih =>
      rw [List.forall_mem_cons] at hputs
      rw [changeAll_cons]
      simp only [List.forall_mem_cons, neverFull_cons_iff, hroom, true_and]
      cases ch with
      | put k' v' =>
          have hne : k' ≠ k := by simpa [Change.puts] using hputs.1
          rcases h.put hne v' with ⟨hnext, front', back', h'⟩ | ⟨hfull, hnone⟩
          · have hremoves : (Change.put k' v').removes k = false := rfl
            simp only [hremoves, true_and]
            exact ih h' hputs.2 hnext
          · -- no room is left, now or later
            have hnot : ¬ NeverFull c.cap (insert k' ks) changes := by
              intro hnever
              have hnow := hnever [] (by simp)
              exact absurd hnow (Nat.not_lt.mpr hfull)
            rw [if_neg fun hall => hnot hall.2]
            exact peek_changeAll_of_none hnone hputs.2
      | pop k' =>
          by_cases hne : k' = k
          · subst hne
            have hnone : (c.pop k').peek k' = none := by rw [peek_pop, if_pos rfl]
            rw [if_neg (by simp [Change.removes])]
            exact peek_changeAll_of_none hnone hputs.2
          · have hcard : (ks.erase k').card < c.cap :=
              Nat.lt_of_le_of_lt (Finset.card_erase_le) hroom
            have hremoves : (Change.pop k' : Change κ ν).removes k = false := decide_eq_false hne
            simp only [hremoves, true_and]
            exact ih (h.pop hne) hputs.2 hcard
      | renew cap cap_pos =>
          rw [if_neg (by simp [Change.removes])]
          exact peek_changeAll_of_none (peek_new cap cap_pos k) hputs.2

/-- How long a key stays that has been put: it is not removed, and the other keys that are
put and not removed again are always fewer than there is room for. -/
theorem peek_changeAll (c : LruCache κ ν) {k : κ} (v : ν) {changes : List (Change κ ν)}
    (hputs : ∀ ch ∈ changes, ch.puts k = false) :
    ((c.put k v).changeAll changes).peek k =
      if (∀ ch ∈ changes, ch.removes k = false) ∧ NeverFull c.cap ∅ changes then some v
      else none :=
  (standsBehind_put c k v).peek_changeAll hputs

end Changes

end LruCache

end Foundation
