import WpKnowledge.Foundation.LruRecency
import WpKnowledge.Cache.SaveFetch

/-!
# The local cache without index tables

What the local cache is for can be said without its numbers: rows are kept by a scope and
the cache identities of the parameters, in the order they were saved in, and all of them
are dropped when too many identities have been met.  The cache with the seven index tables
does the same, row by row and eviction by eviction, as long as no save resets the tables
between two of its parameters.

Main results:

- Theorem {lit}`Simulates.apply`: one call keeps the two caches alike.
- Theorem {lit}`fetch_eq_plain`: the two caches cannot be told apart in any run.
- Theorem {lit}`saved_row_kept_iff`: how long a saved row is served.
-/

namespace WpKnowledge

open Foundation

/-! ## The plain cache -/

/-- What a row is kept under: a scope and the identities of the parameters. -/
abbrev PlainKey := UInt64 × List CacheIdent

/-- The cache without numbers: the rows, the identities met since the last reset and the
generation remembered for each scope. -/
structure PlainCache where
  rows : LruCache PlainKey RowData
  met : List CacheIdent
  generations : HashMap UInt64 Nat

namespace PlainCache

theorem max_one_pos (size : Nat) : 0 < max size 1 :=
  Nat.le_max_right size 1

/-- A new cache for `size` rows, at least one. -/
def withCapacity (size : Nat) : PlainCache where
  rows := LruCache.new (max size 1) (max_one_pos size)
  met := []
  generations := ∅

/-- Throw everything away. -/
def reset (a : PlainCache) : PlainCache where
  rows := a.rows.clear
  met := []
  generations := ∅

/-- Meet an identity. -/
def add (a : PlainCache) (k : CacheIdent) : PlainCache :=
  if k ∈ a.met then a else { a with met := k :: a.met }

/-- Announce the generation of a scope: on a change, drop the rows of the scope. -/
def prepareGeneration (a : PlainCache) (scope : UInt64) (generation : Nat) : PlainCache :=
  if a.generations.lookup scope = some generation then a
  else
    let stale := (a.rows.entries.filter fun e => e.1.1 = scope).map Prod.fst
    { a with
      generations := a.generations.insert scope generation
      rows := stale.foldl LruCache.pop a.rows }

section Calls

variable [ValueText]

/-- Meet a parameter, after a reset if too many identities have been met. -/
def meet (a : PlainCache) (param : DataField) : PlainCache :=
  let a' := if a.met.length ≥ maxLocalIdx then a.reset else a
  match param.cacheIdent with
  | some k => a'.add k
  | none => a'

/-- Save a row, if all parameters have identities. -/
def save (a : PlainCache) (scope : UInt64) (params : List DataField) (row : RowData) :
    PlainCache :=
  let a' := params.foldl meet a
  match params.mapM DataField.cacheIdent with
  | some ks => { a' with rows := a'.rows.put (scope, ks) row }
  | none => a'

/-- Fetch the row saved for parameters with these identities. -/
def fetch (a : PlainCache) (scope : UInt64) (params : List DataField) : Option RowData :=
  (params.mapM DataField.cacheIdent).bind fun ks => a.rows.peek (scope, ks)

/-- The state of the cache after one call. -/
def apply (a : PlainCache) : CacheOp → PlainCache
  | .saveScoped s args row => a.save s args.params row
  | .fetchScoped _ _ => a
  | .prepareGeneration s g => a.prepareGeneration s g

/-- A new cache after some calls. -/
def after (size : Nat) (ops : List CacheOp) : PlainCache :=
  ops.foldl apply (withCapacity size)

theorem after_concat (size : Nat) (ops : List CacheOp) (op : CacheOp) :
    after size (ops ++ [op]) = (after size ops).apply op :=
  List.foldl_concat _ _ _ _

theorem after_append (size : Nat) (ops ops' : List CacheOp) :
    after size (ops ++ ops') = ops'.foldl apply (after size ops) :=
  List.foldl_append

end Calls

end PlainCache

/-- A new cache of any capacity, then any calls. -/
def plainMachine [ValueText] : Machine PlainCache CacheOp where
  init a := ∃ size, a = PlainCache.withCapacity size
  step a op := some (a.apply op)

/-! ## The simulation -/

/-- The numbers of a key are those of the identities. -/
def KeyOf (number : CacheIdent → Option Nat) (key : LocalCacheKey) (k : PlainKey) : Prop :=
  key.scopeHash = k.1 ∧ k.2.mapM number = some key.idxs.toList

/-- An index is determined by its numbers. -/
theorem EnumSizeIndex.toList_inj {e e' : EnumSizeIndex} (h : e.toList = e'.toList) : e = e' := by
  cases e <;> cases e' <;> simp_all [EnumSizeIndex.toList]

/-- Keys with numbers and keys with identities are related one to one. -/
theorem keyOf_biUnique {number : CacheIdent → Option Nat} {n : Nat}
    (h : IsNumbering number n) : Relator.BiUnique (KeyOf number) := by
  constructor
  · rintro ⟨s, e⟩ ⟨s', e'⟩ ⟨t, ks⟩ ⟨hs, hks⟩ ⟨hs', hks'⟩
    obtain rfl : s = s' := hs.trans hs'.symm
    obtain rfl := EnumSizeIndex.toList_inj (Option.some.inj (hks.symm.trans hks'))
    rfl
  · rintro ⟨s, e⟩ ⟨t, ks⟩ ⟨t', ks'⟩ ⟨hs, hks⟩ ⟨hs', hks'⟩
    obtain rfl : t = t' := hs.symm.trans hs'
    obtain rfl := h.keys_eq_of_mapM_eq hks hks'
    rfl

/-- The cache with index tables does what the plain one does. -/
structure Simulates (c : FieldQueryCache) (a : PlainCache) : Prop where
  numbering : IsNumbering c.number c.idxNum
  length : a.met.length = c.idxNum
  met : ∀ k, k ∈ a.met ↔ (c.number k).isSome
  generations : a.generations = c.generations
  rows : LruCache.Renames (KeyOf c.number) c.cacheData a.rows

namespace Simulates

open FieldQueryCache

variable {c : FieldQueryCache} {a : PlainCache}

theorem withCapacity (size : Nat) :
    Simulates (.withCapacity size) (.withCapacity size) where
  numbering := by
    rw [withCapacity_number]
    exact IsNumbering.none
  length := rfl
  met k := by
    rw [withCapacity_number]
    exact ⟨nofun, nofun⟩
  generations := rfl
  rows := LruCache.renames_new _ _ _

theorem reset (h : Simulates c a) : Simulates c.reset a.reset where
  numbering := by
    rw [reset_number]
    exact IsNumbering.none
  length := rfl
  met k := by
    rw [reset_number]
    exact ⟨nofun, nofun⟩
  generations := rfl
  rows := h.rows.clear _

/-- Numbering an identity is meeting it. -/
theorem add (h : Simulates c a) (k : CacheIdent) : Simulates (c.upIdent k).1 (a.add k) := by
  unfold upIdent PlainCache.add
  cases hk : c.number k with
  | some idx =>
      rw [if_pos ((h.met k).mpr (by rw [hk]; rfl))]
      exact h
  | none =>
      have hnew : k ∉ a.met := fun hmem => by simpa [hk] using (h.met k).mp hmem
      rw [if_neg hnew]
      refine ⟨?_, ?_, fun k' => ?_, ?_, ?_⟩
      · rw [allot_number, allot_idxNum]
        exact h.numbering.allot k
      · rw [allot_idxNum, ← h.length]
        rfl
      · rw [allot_number, List.mem_cons, h.met]
        by_cases hkk : k' = k
        · simp [hkk]
        · rw [allotNumber_of_ne _ hkk, or_iff_right hkk]
      · rw [allot_generations]
        exact h.generations
      · rw [allot_number, allot_cacheData]
        refine h.rows.mono fun {key plain} hkey => ⟨hkey.1, ?_⟩
        exact mapM_of_extends (fun _ _ hb => allotNumber_of_some hk hb) hkey.2

/-- An allocation is the meeting of a parameter. -/
theorem meet [ValueText] (h : Simulates c a) (p : DataField) :
    Simulates (c.tryUpIdx p).1 (a.meet p) := by
  have hreset : Simulates c.resetIfFull
      (if a.met.length ≥ maxLocalIdx then a.reset else a) := by
    unfold resetIfFull
    rw [h.length]
    split
    · exact h.reset
    · exact h
  rw [tryUpIdx_eq, PlainCache.meet]
  cases p.cacheIdent with
  | some k => exact hreset.add k
  | none => exact hreset

theorem foldl_meet [ValueText] (h : Simulates c a) (ps : List DataField) :
    Simulates (c.tryUpIdxs ps).1 (ps.foldl PlainCache.meet a) := by
  induction ps generalizing c a with
  | nil => exact h
  | cons p ps ih => exact ih (h.meet p)

theorem save [ValueText] (h : Simulates c a) {args : CacheArgs}
    (hwhole : ¬ ResetsBetweenParams c args.params) (s : UInt64) (row : RowData) :
    Simulates (c.saveScoped s args.params row) (a.save s args.params row) := by
  have hmet := h.foldl_meet args.params
  rw [PlainCache.save]
  cases hks : args.params.mapM DataField.cacheIdent with
  | some ks =>
      have hall : ∀ p ∈ args.params, p.cacheIdent.isSome := by
        intro p hp
        rw [Option.isSome_iff_ne_none]
        intro hnone
        rw [mapM_eq_none_of_mem hp hnone] at hks
        cases hks
      obtain ⟨idxs, hnums, -, hsave⟩ := exists_saveScoped_eq (c := c) hall
      -- the numbers are those the identities have in the end
      have htraverse : args.params.mapM (c.tryUpIdxs args.params).1.getIdx =
          some idxs.toList := by
        have hid := mapM_id_map_some idxs.toList
        rwa [← hnums, tryUpIdxs_of_whole hall hwhole, List.mapM_map] at hid
      rw [funext (getIdx_eq _)] at htraverse
      obtain ⟨ks', hks', hnumbers⟩ := exists_mapM_of_mapM_bind htraverse
      obtain rfl : ks = ks' := Option.some.inj (hks.symm.trans hks')
      rw [hsave]
      have hkey : KeyOf (c.tryUpIdxs args.params).1.number ⟨s, idxs⟩ (s, ks) :=
        ⟨rfl, hnumbers⟩
      exact { hmet with rows := hmet.rows.put (keyOf_biUnique hmet.numbering) hkey row }
  | none =>
      obtain ⟨p, hp, hk⟩ := exists_mem_of_mapM_eq_none hks
      rw [saveScoped_of_uncached hp hk]
      exact hmet

/-- The stale rows of the two caches are the same. -/
theorem stale (h : Simulates c a) (scope : UInt64) :
    List.Forall₂ (KeyOf c.number)
      ((c.cacheData.entries.filter fun e => e.1.scopeHash = scope).map Prod.fst)
      ((a.rows.entries.filter fun e => e.1.1 = scope).map Prod.fst) := by
  refine List.rel_map (R := LruCache.SameEntry (KeyOf c.number)) (fun e f hef => hef.1) ?_
  refine List.rel_filter (fun e f hef => ?_) h.rows.entries
  dsimp only
  rw [hef.1.1]

theorem prepareGeneration (h : Simulates c a) (scope : UInt64) (g : Nat) :
    Simulates (c.prepareGenerationScoped scope g) (a.prepareGeneration scope g) := by
  obtain ⟨hnumber, hidx⟩ := prepareGenerationScoped_number c scope g
  refine ⟨by rw [hnumber, hidx]; exact h.numbering, ?_, fun k => ?_, ?_, ?_⟩
  · rw [hidx, ← h.length, PlainCache.prepareGeneration]
    split <;> rfl
  · rw [hnumber, ← h.met, PlainCache.prepareGeneration]
    split <;> rfl
  · rw [PlainCache.prepareGeneration, prepareGenerationScoped, h.generations]
    split
    · exact h.generations
    · rfl
  · rw [hnumber, PlainCache.prepareGeneration, prepareGenerationScoped, h.generations]
    split
    · exact h.rows
    · exact h.rows.foldl_pop (keyOf_biUnique h.numbering) (h.stale scope)

/-- The two caches fetch the same row. -/
theorem fetch_eq [ValueText] (h : Simulates c a) (scope : UInt64) (args : CacheArgs) :
    c.fetchScoped scope args.params = a.fetch scope args.params := by
  rw [fetchScoped, PlainCache.fetch]
  cases hks : args.params.mapM DataField.cacheIdent with
  | none =>
      obtain ⟨p, hp, hk⟩ := exists_mem_of_mapM_eq_none hks
      have hnone : args.params.mapM c.getIdx = none :=
        mapM_eq_none_of_mem hp (by rw [getIdx_eq, hk]; rfl)
      rw [hnone]
      rfl
  | some ks =>
      have hbind : args.params.mapM c.getIdx = ks.mapM c.number := by
        rw [funext (getIdx_eq c)]
        exact mapM_bind_of_mapM c.number hks
      rw [hbind, Option.bind_some]
      cases hnumbers : ks.mapM c.number with
      | none =>
          refine (h.rows.peek_eq_none ?_).symm
          rintro key ⟨-, hkey⟩
          cases hnumbers.symm.trans hkey
      | some is =>
          have hlength : is.length = args.params.length :=
            (length_of_mapM hnumbers).trans (length_of_mapM hks)
          have hne : is ≠ [] := by
            rintro rfl
            exact args.nonempty (List.length_eq_zero_iff.mp hlength.symm)
          obtain ⟨idxs, hidxs⟩ := EnumSizeIndex.exists_ofList hne (hlength ▸ args.length_le)
          rw [Option.bind_some, hidxs]
          refine h.rows.peek_eq (keyOf_biUnique h.numbering) ⟨rfl, ?_⟩
          rw [hnumbers, EnumSizeIndex.toList_of_ofList hidxs]

/-- One call keeps the two caches alike. -/
theorem apply [ValueText] (h : Simulates c a) {op : CacheOp} (hwhole : SavesWhole c op) :
    Simulates (c.apply op) (a.apply op) := by
  cases op with
  | saveScoped s args row => exact h.save hwhole s row
  | fetchScoped s args => exact h
  | prepareGeneration s g => exact h.prepareGeneration s g

end Simulates

section Runs

variable [ValueText]

/-- A run of the cache in which no save resets the tables between its parameters is one of
the plain cache. -/
theorem exists_simulates {ops : List CacheOp} {c : FieldQueryCache}
    (hrun : cacheMachine.Run SavesWhole ops c) :
    ∃ size, Simulates c (.after size ops) := by
  refine hrun.invariant (P := fun ops c =>
    ∃ size, Simulates c (.after size ops)) ?_ ?_
  · rintro c ⟨size, rfl⟩
    exact ⟨size, .withCapacity size⟩
  · rintro ops c op c' _ ⟨size, hsim⟩ hwhole hstep
    cases hstep
    refine ⟨size, ?_⟩
    rw [PlainCache.after_concat]
    exact hsim.apply hwhole

/-- Any calls are a run of the plain cache. -/
theorem plainRun_after (size : Nat) (ops : List CacheOp) :
    plainMachine.Run Machine.Unguarded ops (.after size ops) := by
  induction ops using List.reverseRecOn with
  | nil => exact .start ⟨size, rfl⟩
  | append_singleton ops op ih =>
      rw [PlainCache.after_concat]
      exact ih.snoc trivial rfl

/-- **The index tables cannot be seen.**  In every run in which no save resets the tables
between two of its parameters, whatever the capacity, the arities, the scopes and the
values, and however often the tables are reset, the local cache fetches exactly what the
cache without index tables fetches: the same rows are found and the same rows have been
evicted.  What the tables still decide is when everything is dropped: the plain cache is
emptied too when it has met as many identities as the tables hold, which is 100000. -/
theorem fetch_eq_plain {ops : List CacheOp} {c : FieldQueryCache}
    (hrun : cacheMachine.Run SavesWhole ops c) :
    ∃ a, plainMachine.Run Machine.Unguarded ops a ∧ a.rows.cap = c.cacheData.cap ∧
      ∀ (scope : UInt64) (args : CacheArgs),
        c.fetchScoped scope args.params = a.fetch scope args.params := by
  obtain ⟨size, hsim⟩ := exists_simulates hrun
  exact ⟨_, plainRun_after size ops, hsim.rows.cap.symm, hsim.fetch_eq⟩

end Runs

/-! ## How long a row is kept -/

section Kept

variable [ValueText]

/-- The identities that the saves of some calls meet. -/
def metIdents (ops : List CacheOp) : Finset CacheIdent :=
  (ops.flatMap fun op =>
    match op with
    | .saveScoped _ args _ => args.params.filterMap DataField.cacheIdent
    | _ => []).toFinset

/-- Too few different identities are met to make a reset necessary. -/
def FewMet (ops : List CacheOp) : Prop :=
  (metIdents ops).card < maxLocalIdx

instance (ops : List CacheOp) : Decidable (FewMet ops) :=
  inferInstanceAs (Decidable (_ < _))

/-- What a call puts into the plain cache. -/
def CacheOp.savedEntry : CacheOp → Option (PlainKey × RowData)
  | saveScoped s args row => (args.params.mapM DataField.cacheIdent).map fun ks => ((s, ks), row)
  | _ => none

theorem metIdents_append (ops ops' : List CacheOp) :
    metIdents (ops ++ ops') = metIdents ops ∪ metIdents ops' := by
  simp [metIdents]

theorem FewMet.of_append {ops ops' : List CacheOp} (h : FewMet (ops ++ ops')) : FewMet ops := by
  refine Nat.lt_of_le_of_lt (Finset.card_le_card ?_) h
  rw [metIdents_append]
  exact Finset.subset_union_left

theorem metIdents_save (s : UInt64) (args : CacheArgs) (row : RowData) :
    metIdents [.saveScoped s args row] =
      (args.params.filterMap DataField.cacheIdent).toFinset := by
  simp [metIdents]

/-- What holds of the plain cache while few identities are met: the tables are never reset,
so that all generations announced are remembered. -/
structure NeverReset (ops : List CacheOp) (a : PlainCache) : Prop where
  nodup : a.met.Nodup
  met : a.met.toFinset = metIdents ops
  generations : ∀ s, a.generations.lookup s = lastAnnounced ops s

namespace NeverReset

variable {ops : List CacheOp} {a : PlainCache}

omit [ValueText] in
/-- Meeting an identity only adds it. -/
theorem add_eq (a : PlainCache) (k : CacheIdent) (hnodup : a.met.Nodup) :
    (a.add k).rows = a.rows ∧ (a.add k).generations = a.generations ∧ (a.add k).met.Nodup ∧
      (a.add k).met.toFinset = insert k a.met.toFinset := by
  unfold PlainCache.add
  split
  · rename_i hk
    refine ⟨rfl, rfl, hnodup, (Finset.insert_eq_self.mpr ?_).symm⟩
    exact List.mem_toFinset.mpr hk
  · rename_i hk
    exact ⟨rfl, rfl, List.nodup_cons.mpr ⟨hk, hnodup⟩, List.toFinset_cons⟩

/-- Meeting parameters only adds their identities, as long as there are few. -/
theorem foldl_meet_eq {a : PlainCache} (hnodup : a.met.Nodup) {ps : List DataField}
    (hfew : (a.met.toFinset ∪ (ps.filterMap DataField.cacheIdent).toFinset).card <
      maxLocalIdx) :
    (ps.foldl PlainCache.meet a).rows = a.rows ∧
      (ps.foldl PlainCache.meet a).generations = a.generations ∧
      (ps.foldl PlainCache.meet a).met.Nodup ∧
      (ps.foldl PlainCache.meet a).met.toFinset =
        a.met.toFinset ∪ (ps.filterMap DataField.cacheIdent).toFinset := by
  induction ps generalizing a with
  | nil => simp [hnodup]
  | cons p ps ih =>
      have hlength : ¬ a.met.length ≥ maxLocalIdx := by
        have hsub : a.met.toFinset.card ≤
            (a.met.toFinset ∪ ((p :: ps).filterMap DataField.cacheIdent).toFinset).card :=
          Finset.card_le_card Finset.subset_union_left
        rw [List.toFinset_card_of_nodup hnodup] at hsub
        omega
      rw [List.foldl_cons, PlainCache.meet]
      simp only [if_neg hlength]
      cases hk : p.cacheIdent with
      | none =>
          rw [List.filterMap_cons_none hk] at hfew ⊢
          exact ih hnodup hfew
      | some k =>
          obtain ⟨hrows, hgenerations, hnodup', hmet⟩ := add_eq a k hnodup
          rw [List.filterMap_cons_some hk, List.toFinset_cons, Finset.union_insert,
            ← Finset.insert_union, ← hmet] at hfew ⊢
          obtain ⟨h₁, h₂, h₃, h₄⟩ := ih hnodup' hfew
          exact ⟨h₁.trans hrows, h₂.trans hgenerations, h₃, h₄⟩

/-- One call while few identities are met: a row is put, or rows of an old generation are
dropped. -/
theorem apply (h : NeverReset ops a) {op : CacheOp} (hfew : FewMet (ops ++ [op])) :
    NeverReset (ops ++ [op]) (a.apply op) ∧
      ((∀ s g, op = .prepareGeneration s g → lastAnnounced ops s = some g) →
        (a.apply op).rows = a.rows.putAll op.savedEntry.toList) := by
  cases op with
  | fetchScoped s args =>
      refine ⟨⟨h.nodup, ?_, fun s => ?_⟩, fun _ => rfl⟩
      · rw [metIdents_append, ← h.met]
        exact (Finset.union_empty _).symm
      · rw [lastAnnounced_snoc]
        exact h.generations s
  | saveScoped s args row =>
      rw [FewMet, metIdents_append, metIdents_save, ← h.met] at hfew
      obtain ⟨hrows, hgenerations, hnodup, hmet⟩ := foldl_meet_eq h.nodup hfew
      rw [h.met, ← metIdents_save s args row, ← metIdents_append] at hmet
      have hlast : ∀ s', (args.params.foldl PlainCache.meet a).generations.lookup s' =
          lastAnnounced (ops ++ [.saveScoped s args row]) s' := by
        intro s'
        rw [lastAnnounced_snoc, hgenerations]
        exact h.generations s'
      rw [PlainCache.apply, PlainCache.save, CacheOp.savedEntry]
      cases args.params.mapM DataField.cacheIdent with
      | none => exact ⟨⟨hnodup, hmet, hlast⟩, fun _ => hrows⟩
      | some ks =>
          refine ⟨⟨hnodup, hmet, hlast⟩, fun _ => ?_⟩
          dsimp only
          rw [hrows]
          rfl
  | prepareGeneration s g =>
      refine ⟨⟨?_, ?_, fun s' => ?_⟩, fun hsame => ?_⟩
      · rw [PlainCache.apply, PlainCache.prepareGeneration]
        split <;> exact h.nodup
      · rw [metIdents_append, ← h.met, PlainCache.apply, PlainCache.prepareGeneration]
        split <;> exact (Finset.union_empty _).symm
      · rw [lastAnnounced_snoc, PlainCache.apply, PlainCache.prepareGeneration]
        dsimp only
        by_cases hs : s = s'
        · subst hs
          rw [if_pos rfl]
          split
          · rename_i hold
            exact hold
          · exact AList.lookup_insert _
        · rw [if_neg hs]
          split
          · exact h.generations s'
          · exact (AList.lookup_insert_ne (Ne.symm hs)).trans (h.generations s')
      · have hold : a.generations.lookup s = some g :=
          (h.generations s).trans (hsame s g rfl)
        rw [PlainCache.apply, PlainCache.prepareGeneration, if_pos hold]
        rfl

/-- Calls that announce no new generation put their rows and drop none. -/
theorem foldl_apply (h : NeverReset ops a) {post : List CacheOp} (hfew : FewMet (ops ++ post))
    (hsame : ∀ s, NoChange ops post s) :
    (post.foldl PlainCache.apply a).rows = a.rows.putAll (post.filterMap CacheOp.savedEntry) := by
  induction post generalizing ops a with
  | nil => rfl
  | cons op post ih =>
      rw [List.append_cons] at hfew
      obtain ⟨hnext, hrows⟩ := h.apply hfew.of_append
      have hgenerations : ∀ s g, op = .prepareGeneration s g → lastAnnounced ops s = some g := by
        rintro s g rfl
        simpa using hsame s [] g post rfl
      have hrest : ∀ s, NoChange (ops ++ [op]) post s := by
        intro s mid g rest hsplit
        rw [List.append_assoc]
        exact hsame s (op :: mid) g rest (by rw [hsplit]; rfl)
      rw [List.foldl_cons, ih hnext hfew hrest, hrows hgenerations]
      cases hsaved : op.savedEntry with
      | none => rw [List.filterMap_cons_none hsaved]; rfl
      | some e => rw [List.filterMap_cons_some hsaved]; rfl

/-- Few identities never reset the plain cache. -/
theorem of_few (size : Nat) {ops : List CacheOp} (hfew : FewMet ops) :
    NeverReset ops (.after size ops) := by
  induction ops using List.reverseRecOn with
  | nil => exact ⟨List.nodup_nil, rfl, fun s => rfl⟩
  | append_singleton ops op ih =>
      rw [PlainCache.after_concat]
      exact ((ih hfew.of_append).apply hfew).1

end NeverReset

/-- A save that meets few identities in all does not reset the tables between its
parameters. -/
theorem Simulates.savesWhole {ops : List CacheOp} {c : FieldQueryCache} {a : PlainCache}
    (h : Simulates c a) (hnever : NeverReset ops a) {op : CacheOp}
    (hfew : FewMet (ops ++ [op])) : SavesWhole c op := by
  cases op with
  | fetchScoped | prepareGeneration => trivial
  | saveScoped s args row =>
      rintro ⟨-, -, hfull⟩
      rw [FewMet, metIdents_append, metIdents_save, ← hnever.met] at hfew
      -- the identities that are met and those that have no number yet are different
      have hcount : c.idxNum + unnumbered c.number
          (args.params.dropLast.filterMap DataField.cacheIdent) ≤
            (a.met.toFinset ∪ (args.params.filterMap DataField.cacheIdent).toFinset).card := by
        rw [← h.length, ← List.toFinset_card_of_nodup hnever.nodup, unnumbered,
          ← Finset.card_union_of_disjoint]
        · refine Finset.card_le_card (Finset.union_subset_union_right ?_)
          intro k hk
          have hk := List.mem_toFinset.mp (Finset.mem_filter.mp hk).1
          exact List.mem_toFinset.mpr (((List.dropLast_sublist _).filterMap _).subset hk)
        · rw [Finset.disjoint_left]
          intro k hmet hk
          have hnumbered := (h.met k).mp (List.mem_toFinset.mp hmet)
          rw [(Finset.mem_filter.mp hk).2] at hnumbered
          cases hnumbered
      omega

/-- A run of few identities resets no tables between the parameters of a save. -/
theorem savesWhole_of_run {ops : List CacheOp} {c : FieldQueryCache}
    (hrun : cacheMachine.Run Machine.Unguarded ops c) (hfew : FewMet ops) :
    cacheMachine.Run SavesWhole ops c := by
  induction hrun with
  | start hinit => exact .start hinit
  | snoc _ _ hstep ih =>
      have hwhole := ih hfew.of_append
      obtain ⟨size, hsim⟩ := exists_simulates hwhole
      exact .snoc hwhole (hsim.savesWhole (.of_few size hfew.of_append) hfew) hstep

/-- **How long a saved row is served.**  In any run of fewer than 100000 different values, a
saved row is served as long as fewer other rows have been saved since than the cache has
room for, each counted once however often it was saved, and is not served from then on;
provided no new generation has been announced and the row itself has not been saved
again.  Fetches do not count. -/
theorem saved_row_kept_iff {pre post : List CacheOp} {scope : UInt64} {args : CacheArgs}
    {ks : List CacheIdent} {row : RowData} {c : FieldQueryCache}
    (hrun : cacheMachine.Run Machine.Unguarded (pre ++ .saveScoped scope args row :: post) c)
    (hfew : FewMet (pre ++ .saveScoped scope args row :: post))
    (hks : args.params.mapM DataField.cacheIdent = some ks)
    (hsame : ∀ s, NoChange (pre ++ [.saveScoped scope args row]) post s)
    (hother : ∀ e ∈ post.filterMap CacheOp.savedEntry, e.1 ≠ (scope, ks)) :
    c.fetchScoped scope args.params =
      if (LruCache.keys (post.filterMap CacheOp.savedEntry)).card < c.cacheData.cap then some row
      else none := by
  obtain ⟨size, hsim⟩ := exists_simulates (savesWhole_of_run hrun hfew)
  have hcap := hsim.rows.cap
  have hfetch := hsim.fetch_eq scope args
  rw [List.append_cons] at hfew hcap hfetch
  have hsave : FewMet (pre ++ [.saveScoped scope args row]) := hfew.of_append
  have hbefore : FewMet pre := hsave.of_append
  -- the row is put by its save, and then the rows of the later saves
  have hput := ((NeverReset.of_few size hbefore).apply hsave).2 nofun
  have hafter := (NeverReset.of_few size hsave).foldl_apply hfew hsame
  rw [← PlainCache.after_append, PlainCache.after_concat, hput, CacheOp.savedEntry, hks] at hafter
  have hcap' : c.cacheData.cap = (PlainCache.after size pre).rows.cap := by
    rw [hcap, hafter, LruCache.cap_putAll]
    rfl
  rw [hfetch, PlainCache.fetch, hks, Option.bind_some, hafter, hcap']
  exact LruCache.peek_putAll _ row hother

end Kept

/-! ## A small cache -/

/-- A row is saved, then another one, twice. -/
def saveOtherTwice : List CacheOp :=
  [.saveScoped 7 (oneBigUint 42) countryRow, .saveScoped 7 (oneBigUint 43) [],
    .saveScoped 7 (oneBigUint 43) []]

theorem saveOtherTwice_few :
    letI := numericText
    FewMet saveOtherTwice := by
  decide

/-- With room for one row, the first one is evicted in both caches. -/
theorem fetch_eq_plain_evicted :
    letI := numericText
    ∃ a, plainMachine.Run Machine.Unguarded saveOtherTwice a ∧
      a.fetch 7 (oneBigUint 42).params = none ∧ a.fetch 7 (oneBigUint 43).params = some [] := by
  let _ := numericText
  have hrun := savesWhole_of_run (run_foldl 1 saveOtherTwice) saveOtherTwice_few
  obtain ⟨a, hplain, -, hfetch⟩ := fetch_eq_plain hrun
  exact ⟨a, hplain, (hfetch 7 (oneBigUint 42)).symm, (hfetch 7 (oneBigUint 43)).symm⟩

/-- With room for two rows, it is served. -/
theorem saved_row_kept_twice :
    letI := numericText
    (saveOtherTwice.foldl FieldQueryCache.apply (.withCapacity 2)).fetchScoped 7
      (oneBigUint 42).params = some countryRow := by
  let _ := numericText
  have hsame : ∀ s, NoChange [.saveScoped 7 (oneBigUint 42) countryRow]
      [.saveScoped 7 (oneBigUint 43) [], .saveScoped 7 (oneBigUint 43) []] s := by
    intro s mid g rest hsplit
    have hmem : CacheOp.prepareGeneration s g ∈
        [.saveScoped 7 (oneBigUint 43) [], .saveScoped 7 (oneBigUint 43) []] := by
      rw [hsplit]
      simp
    simp at hmem
  have hrun : cacheMachine.Run Machine.Unguarded
      ([] ++ .saveScoped 7 (oneBigUint 42) countryRow :: saveOtherTwice.tail)
      (saveOtherTwice.foldl FieldQueryCache.apply (.withCapacity 2)) :=
    run_foldl 2 saveOtherTwice
  exact saved_row_kept_iff hrun saveOtherTwice_few rfl hsame (by decide)

end WpKnowledge
