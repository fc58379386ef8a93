import WpKnowledge.Cache.Isolation

/-!
# Fetching what was just saved

A save numbers its parameters one after the other, and each time it may throw all tables
away first; a fetch afterwards only looks the numbers up.  The two agree unless the tables
are thrown away between two parameters.

Main results:

- Theorem {lit}`tryUpIdxs_mixed`: after such a save a parameter was given the last number
  of the old tables, which no parameter has in the new ones.
- Theorem {lit}`saved_row_fetched_iff`: in every state, a saved row is fetched back
  exactly if the save does not reset the tables between its parameters, and a save that
  stores nothing changes no row.
-/

namespace WpKnowledge

open Foundation

section SaveFetch

variable [ValueText]

namespace FieldQueryCache

/-! ## The numbers of a save -/

/-- A parameter that can be cached gets a number. -/
theorem tryUpIdx_isSome {c : FieldQueryCache} {p : DataField} (hk : p.cacheIdent.isSome) :
    (c.tryUpIdx p).2.isSome := by
  obtain ⟨k, hk⟩ := Option.isSome_iff_exists.mp hk
  rw [tryUpIdx_eq, hk]
  simp only [upIdent]
  split <;> rfl

/-- Parameters that can be cached all get numbers. -/
theorem exists_numbers {c : FieldQueryCache} {ps : List DataField}
    (hall : ∀ p ∈ ps, p.cacheIdent.isSome) :
    ∃ is : List Nat, (c.tryUpIdxs ps).2 = is.map some ∧ is.length = ps.length := by
  induction ps generalizing c with
  | nil => exact ⟨[], rfl, rfl⟩
  | cons p ps ih =>
      rw [List.forall_mem_cons] at hall
      obtain ⟨i, hi⟩ := Option.isSome_iff_exists.mp (tryUpIdx_isSome (c := c) hall.1)
      obtain ⟨is, his, hlen⟩ := ih (c := (c.tryUpIdx p).1) hall.2
      refine ⟨i :: is, ?_, by rw [List.length_cons, List.length_cons, hlen]⟩
      simp only [tryUpIdxs, his, hi, List.map_cons]

/-- A save all of whose parameters can be cached stores the row under their numbers. -/
theorem exists_saveScoped_eq {c : FieldQueryCache} {args : CacheArgs}
    (hall : ∀ p ∈ args.params, p.cacheIdent.isSome) :
    ∃ idxs, (c.tryUpIdxs args.params).2 = idxs.toList.map some ∧
      EnumSizeIndex.ofList idxs.toList = some idxs ∧
      ∀ s row, c.saveScoped s args.params row =
        { (c.tryUpIdxs args.params).1 with
          cacheData := (c.tryUpIdxs args.params).1.cacheData.put ⟨s, idxs⟩ row } := by
  obtain ⟨is, his, hlen⟩ := exists_numbers (c := c) hall
  have hne : is ≠ [] := by
    rintro rfl
    exact args.nonempty (List.length_eq_zero_iff.mp hlen.symm)
  obtain ⟨idxs, hidxs⟩ := EnumSizeIndex.exists_ofList hne (hlen ▸ args.length_le)
  obtain rfl := EnumSizeIndex.toList_of_ofList hidxs
  refine ⟨idxs, his, hidxs, ?_⟩
  intro s row
  simp only [saveScoped, his, mapM_id_map_some, Option.bind_some, hidxs]

/-- An allocation below the bound uses up one number at most. -/
theorem tryUpIdx_idxNum_le {c : FieldQueryCache} (hlt : c.idxNum < maxLocalIdx) (p : DataField) :
    (c.tryUpIdx p).1.idxNum ≤ c.idxNum + 1 := by
  have hone := unnumbered_le_length c.number ([p].filterMap DataField.cacheIdent)
  have hlen := List.length_filterMap_le DataField.cacheIdent [p]
  have hidx := tryUpIdx_idxNum hlt p []
  rw [List.filterMap_nil, unnumbered_nil] at hidx
  rw [List.length_singleton] at hlen
  omega

/-- The allocations of a save far from the bound use up a number for each parameter at
most. -/
theorem tryUpIdxs_idxNum_le {c : FieldQueryCache} {ps : List DataField}
    (hroom : c.idxNum + ps.length ≤ maxLocalIdx) :
    (c.tryUpIdxs ps).1.idxNum ≤ c.idxNum + ps.length := by
  induction ps generalizing c with
  | nil => exact Nat.le_refl _
  | cons p ps ih =>
      rw [List.length_cons] at hroom
      have hstep := tryUpIdx_idxNum_le (c := c) (by omega) p
      have hrest := ih (c := (c.tryUpIdx p).1) (by omega)
      simp only [tryUpIdxs, List.length_cons]
      omega

/-- The allocation that reaches the bound gives out the last number. -/
theorem tryUpIdx_last {c : FieldQueryCache} {p : DataField} (hlt : c.idxNum < maxLocalIdx)
    (hge : maxLocalIdx ≤ (c.tryUpIdx p).1.idxNum) : (c.tryUpIdx p).2 = some maxLocalIdx := by
  rw [tryUpIdx_eq, resetIfFull_of_lt hlt] at hge ⊢
  cases hk : p.cacheIdent with
  | none =>
      simp only [hk] at hge
      omega
  | some k =>
      simp only [hk, upIdent] at hge ⊢
      cases hn : c.number k with
      | some idx =>
          simp only [hn] at hge
          omega
      | none =>
          simp only [hn, allot_idxNum] at hge ⊢
          rw [Option.some_inj]
          omega

/-- A save that resets the tables between its parameters gives the last number of the old
tables to one of them, and leaves new tables without rows in which few are numbered. -/
theorem tryUpIdxs_mixed {c : FieldQueryCache} {ps : List DataField}
    (hlt : c.idxNum < maxLocalIdx) (hsix : ps.length ≤ 6)
    (hfull : maxLocalIdx ≤
      c.idxNum + unnumbered c.number (ps.dropLast.filterMap DataField.cacheIdent)) :
    some maxLocalIdx ∈ (c.tryUpIdxs ps).2 ∧ Blank (c.tryUpIdxs ps).1 ∧
      (c.tryUpIdxs ps).1.idxNum ≤ 6 := by
  induction ps generalizing c with
  | nil =>
      simp at hfull
      omega
  | cons p ps ih =>
      have hne : ps ≠ [] := by
        rintro rfl
        simp at hfull
        omega
      rw [List.length_cons] at hsix
      rcases Nat.lt_or_ge (c.tryUpIdx p).1.idxNum maxLocalIdx with hlt₁ | hge₁
      · have hfull₁ : maxLocalIdx ≤ (c.tryUpIdx p).1.idxNum +
            unnumbered (c.tryUpIdx p).1.number (ps.dropLast.filterMap DataField.cacheIdent) := by
          rw [tryUpIdx_idxNum hlt, ← List.dropLast_cons_of_ne_nil hne]
          exact hfull
        obtain ⟨hmem, hblank, hidx⟩ := ih hlt₁ (by omega) hfull₁
        exact ⟨List.mem_cons_of_mem _ hmem, hblank, hidx⟩
      · -- the next parameter resets the tables
        simp only [tryUpIdxs]
        rw [tryUpIdxs_of_full hge₁ hne]
        have hzero : (c.tryUpIdx p).1.reset.idxNum = 0 := rfl
        have hroom : (c.tryUpIdx p).1.reset.idxNum + ps.length ≤ maxLocalIdx := by
          rw [hzero, maxLocalIdx]
          omega
        have hsix₁ : ps.length ≤ 6 := by omega
        have hext := (tryUpIdxs_reset_spec (c.tryUpIdx p).1 hsix₁).1
        have hidx := tryUpIdxs_idxNum_le hroom
        rw [hzero] at hidx
        refine ⟨?_, (blank_reset _).of_extends hext, by omega⟩
        rw [tryUpIdx_last hlt hge₁]
        exact List.mem_cons_self

/-! ## Fetching after the save -/

/-- A cache with other rows has the same numbers. -/
theorem getIdx_cacheData (c : FieldQueryCache) (rows : LruCache LocalCacheKey RowData) :
    ({ c with cacheData := rows } : FieldQueryCache).getIdx = c.getIdx := by
  funext p
  obtain ⟨name, value⟩ := p
  cases value <;> rfl

/-- The row is fetched back if the parameters have in the end the numbers they were given. -/
theorem fetch_saveScoped_of_whole {c : FieldQueryCache} {args : CacheArgs}
    (hall : ∀ p ∈ args.params, p.cacheIdent.isSome)
    (hwhole : ¬ ResetsBetweenParams c args.params) (s : UInt64) (row : RowData) :
    (c.saveScoped s args.params row).fetchScoped s args.params = some row := by
  obtain ⟨idxs, hnums, hidxs, hsave⟩ := exists_saveScoped_eq (c := c) hall
  have htraverse : args.params.mapM (c.tryUpIdxs args.params).1.getIdx = some idxs.toList := by
    have hid := mapM_id_map_some idxs.toList
    rwa [← hnums, tryUpIdxs_of_whole hall hwhole, List.mapM_map] at hid
  rw [hsave, fetchScoped, getIdx_cacheData, htraverse]
  simp only [Option.bind_some, hidxs]
  exact LruCache.peek_put_self _ _ _

/-- The row is not fetched back if the numbers it is stored under are of two lives of the
tables. -/
theorem fetch_saveScoped_of_mixed {c : FieldQueryCache} {args : CacheArgs}
    (hmixed : ResetsBetweenParams c args.params) (s : UInt64) (row : RowData) :
    (c.saveScoped s args.params row).fetchScoped s args.params = none := by
  obtain ⟨hall, hlt, hfull⟩ := hmixed
  obtain ⟨idxs, hnums, hidxs, hsave⟩ := exists_saveScoped_eq (c := c) hall
  obtain ⟨hmem, hblank, hsmall⟩ := tryUpIdxs_mixed hlt args.length_le hfull
  rw [hnums, List.mem_map] at hmem
  obtain ⟨i, hi, hmax⟩ := hmem
  cases hmax
  rw [hsave, fetchScoped, getIdx_cacheData]
  cases htraverse : args.params.mapM (c.tryUpIdxs args.params).1.getIdx with
  | none => rfl
  | some is =>
      rw [Option.bind_some]
      cases his : EnumSizeIndex.ofList is with
      | none => rfl
      | some e =>
          have htoList := EnumSizeIndex.toList_of_ofList his
          -- in the new tables no parameter has the last number of the old ones
          have hne : e ≠ idxs := by
            rintro rfl
            rw [htoList] at hi
            obtain ⟨p, -, hp⟩ := exists_mem_of_mem_mapM htraverse hi
            rw [getIdx_eq, Option.bind_eq_some_iff] at hp
            obtain ⟨k, -, hk⟩ := hp
            have hle := (hblank.numbering.bounded hk).2
            rw [maxLocalIdx] at hle
            omega
          rw [Option.eq_none_iff_forall_ne_some]
          intro row' hpeek
          have hold := LruCache.peek_of_peek_put (by simpa using hne) hpeek
          rw [hblank.peek] at hold
          cases hold

/-- A save that stores nothing keeps every row that is still fetched. -/
theorem fetch_saveScoped_of_uncached {c : FieldQueryCache} {args : CacheArgs} {p : DataField}
    (hp : p ∈ args.params) (hk : p.cacheIdent = none) (s : UInt64) (row : RowData)
    {s' : UInt64} {ps : List DataField} {row' : RowData}
    (hhit : c.fetchScoped s' ps = some row') :
    (c.saveScoped s args.params row).fetchScoped s' ps = some row' ∨
      (c.saveScoped s args.params row).fetchScoped s' ps = none := by
  rw [saveScoped_of_uncached hp hk]
  rcases tryUpIdxs_evolves c args.params with hext | hblank
  · left
    rw [fetchScoped] at hhit ⊢
    cases hidxs : (ps.mapM c.getIdx).bind EnumSizeIndex.ofList with
    | none => simp [hidxs] at hhit
    | some idxs =>
        obtain ⟨is, his, hlist⟩ := Option.bind_eq_some_iff.mp hidxs
        have his₁ := mapM_of_extends (fun p i hi => getIdx_of_extends hext hi) his
        rw [hidxs] at hhit
        rw [his₁, Option.bind_some, hlist, hext.cacheData]
        exact hhit
  · right
    rw [fetchScoped]
    cases (ps.mapM (c.tryUpIdxs args.params).1.getIdx).bind EnumSizeIndex.ofList with
    | none => rfl
    | some idxs => exact hblank.peek _

/-- A save whose parameters can all be cached is fetched back at once, and another one changes
no row that is fetched, exactly if the save does not reset the tables between its
parameters. -/
theorem saved_row_fetched_iff (c : FieldQueryCache) (s : UInt64) (args : CacheArgs)
    (row : RowData) :
    (((∀ p ∈ args.params, p.cacheIdent.isSome) →
        (c.saveScoped s args.params row).fetchScoped s args.params = some row) ∧
      ((∃ p ∈ args.params, p.cacheIdent = none) →
        ∀ (s' : UInt64) (args' : CacheArgs) (row' : RowData),
          c.fetchScoped s' args'.params = some row' →
            (c.saveScoped s args.params row).fetchScoped s' args'.params = some row' ∨
              (c.saveScoped s args.params row).fetchScoped s' args'.params = none)) ↔
      ¬ ResetsBetweenParams c args.params := by
  constructor
  · rintro ⟨hfetch, -⟩ hmixed
    have hnone := fetch_saveScoped_of_mixed hmixed s row
    rw [hfetch hmixed.1] at hnone
    cases hnone
  · intro hwhole
    refine ⟨fun hall => fetch_saveScoped_of_whole hall hwhole s row, ?_⟩
    rintro ⟨p, hp, hk⟩ s' args' row' hhit
    exact fetch_saveScoped_of_uncached hp hk s row hhit

/-- With one number left, the row saved for two new values is not fetched back. -/
theorem fetch_twoBigUints_of_last {c : FieldQueryCache} (hidx : c.idxNum + 1 = maxLocalIdx)
    (hnew : c.number (.bigUint 0) = none) (s : UInt64) (row : RowData) :
    (c.saveScoped s (twoBigUints 0 1).params row).fetchScoped s (twoBigUints 0 1).params =
      none := by
  have hident : (twoBigUints 0 1).params.dropLast.filterMap DataField.cacheIdent =
      [.bigUint 0] := rfl
  have hcached : ∀ p ∈ (twoBigUints 0 1).params, p.cacheIdent.isSome := by
    intro p hp
    rcases List.mem_cons.mp hp with rfl | hp
    · rfl
    · rw [List.mem_singleton.mp hp]
      rfl
  apply fetch_saveScoped_of_mixed
  refine ⟨hcached, by omega, ?_⟩
  rw [hident, unnumbered_cons_of_none hnew 0, unnumbered_nil]
  omega

end FieldQueryCache

end SaveFetch

/-- After 99999 values are numbered, a row saved for two new ones is lost. -/
theorem saved_row_lost :
    letI := numericText
    ∃ c, cacheMachine.Run Machine.Unguarded (FieldQueryCache.saveEach 0 [] 2 99999) c ∧
      (c.saveScoped 0 (twoBigUints 0 1).params countryRow).fetchScoped 0
        (twoBigUints 0 1).params = none := by
  let _ := numericText
  refine ⟨_, run_foldl 100000 (FieldQueryCache.saveEach 0 [] 2 99999), ?_⟩
  have hnone := FieldQueryCache.withCapacity_number 100000
  obtain ⟨hidx, hbelow, -⟩ := FieldQueryCache.foldl_saveEach
    (c := FieldQueryCache.withCapacity 100000) 0 [] (a := 2) (n := 99999) (by decide)
    (by decide) (fun v _ => by rw [hnone])
  apply FieldQueryCache.fetch_twoBigUints_of_last
  · rw [hidx]
    rfl
  · rw [hbelow 0 (by decide), hnone]

end WpKnowledge
