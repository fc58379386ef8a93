import WpKnowledge.Foundation.Machine
import WpKnowledge.Cache.FieldQueryCache

/-!
# Which rows the local cache serves

A run of the cache is any sequence of saves, fetches and generation
announcements.  A fetched row should have been saved under the same scope for
parameters with the same cache identities, with no change of generation
announced for the scope since then.

The numbers in a key are meaningful only within one life of the index tables.
One save allocates the numbers of its parameters one after the other, and each
allocation makes the reset test, so the tables may be thrown away between two
parameters of one save.  The row is then stored under numbers of two lives.

Main results:

- Theorem {lit}`fetch_served`: in every run without such a save, every fetched
  row was saved for the same identities and in the same generation.
- Theorem {lit}`fetch_of_mixed_save`: a save that resets the tables between its
  two parameters makes a later fetch return a row saved for other parameters.
-/

namespace WpKnowledge

open Foundation

/-- The parameters of one call: the cache is implemented for one to six. -/
structure CacheArgs where
  params : List DataField
  nonempty : params ≠ []
  length_le : params.length ≤ 6

/-- One call on the cache. -/
inductive CacheOp where
  | saveScoped (scope : UInt64) (args : CacheArgs) (row : RowData)
  | fetchScoped (scope : UInt64) (args : CacheArgs)
  | prepareGeneration (scope : UInt64) (generation : Nat)

/-- The generation last announced for a scope. -/
def lastAnnounced (ops : List CacheOp) (scope : UInt64) : Option Nat :=
  ops.foldl
    (fun g op =>
      match op with
      | .prepareGeneration s g' => if s = scope then some g' else g
      | _ => g)
    none

theorem lastAnnounced_snoc (ops : List CacheOp) (op : CacheOp) (scope : UInt64) :
    lastAnnounced (ops ++ [op]) scope =
      match op with
      | .prepareGeneration s g => if s = scope then some g else lastAnnounced ops scope
      | _ => lastAnnounced ops scope := by
  cases op <;> simp [lastAnnounced]

/-- No announcement of `post`, made after the calls `pre`, changes the
generation of the scope. -/
def NoChange (pre post : List CacheOp) (scope : UInt64) : Prop :=
  ∀ mid g rest, post = mid ++ CacheOp.prepareGeneration scope g :: rest →
    lastAnnounced (pre ++ mid) scope = some g

section Served

variable [ValueText]

/-- The state of the cache after one call. -/
def FieldQueryCache.apply (c : FieldQueryCache) : CacheOp → FieldQueryCache
  | .saveScoped s args row => c.saveScoped s args.params row
  | .fetchScoped _ _ => c
  | .prepareGeneration s g => c.prepareGenerationScoped s g

/-- The cache as a machine: a new cache of any capacity, then any calls. -/
def cacheMachine : Machine FieldQueryCache CacheOp where
  init c := ∃ size, c = FieldQueryCache.withCapacity size
  step c op := some (c.apply op)

/-- The parameters of two calls agree: the same arity and, position by position,
the same cache identity. -/
def SameIdentities (qs ps : List DataField) : Prop :=
  List.Forall₂ (fun q p => ∃ k, q.cacheIdent = some k ∧ p.cacheIdent = some k) qs ps

/-- What a fetch for `ps` may return after the calls `ops`: a row saved for the
same identities under the same scope, in the generation still in force. -/
def Served (ops : List CacheOp) (scope : UInt64) (ps : CacheArgs) (row : RowData) : Prop :=
  ∃ pre qs post, ops = pre ++ CacheOp.saveScoped scope qs row :: post ∧
    SameIdentities qs.params ps.params ∧
    NoChange (pre ++ [CacheOp.saveScoped scope qs row]) post scope

/-- A save that stores a row and whose parameters before the last one use up the
index counter, so that the tables are reset between two of its parameters. -/
def ResetsBetweenParams (c : FieldQueryCache) (ps : List DataField) : Prop :=
  (∀ p ∈ ps, p.cacheIdent.isSome) ∧ c.idxNum < maxLocalIdx ∧
    maxLocalIdx ≤ c.idxNum + unnumbered c.number (ps.dropLast.filterMap DataField.cacheIdent)

instance (c : FieldQueryCache) (ps : List DataField) : Decidable (ResetsBetweenParams c ps) :=
  inferInstanceAs (Decidable (_ ∧ _ ∧ _))

/-- The guard of a run in which no save resets the tables between its
parameters. -/
def SavesWhole (c : FieldQueryCache) : CacheOp → Prop
  | .saveScoped _ args _ => ¬ ResetsBetweenParams c args.params
  | _ => True

instance (c : FieldQueryCache) (op : CacheOp) : Decidable (SavesWhole c op) :=
  match op with
  | .saveScoped _ args _ => inferInstanceAs (Decidable (¬ ResetsBetweenParams c args.params))
  | .fetchScoped _ _ => .isTrue trivial
  | .prepareGeneration _ _ => .isTrue trivial

/-! ## What the allocations of one save do -/

namespace FieldQueryCache

/-- `c₁` is `c` with some more identities numbered. -/
structure Extends (c c₁ : FieldQueryCache) : Prop where
  cacheData : c₁.cacheData = c.cacheData
  generations : c₁.generations = c.generations
  keeps : ∀ {k : CacheIdent} {i : Nat}, c.number k = some i → c₁.number k = some i
  numbering : IsNumbering c.number c.idxNum → IsNumbering c₁.number c₁.idxNum

/-- A cache that holds no row and remembers no generation. -/
structure Blank (c : FieldQueryCache) : Prop where
  peek : ∀ key, c.cacheData.peek key = none
  generations : ∀ scope, c.generations.lookup scope = none
  numbering : IsNumbering c.number c.idxNum

omit [ValueText] in
theorem Extends.refl (c : FieldQueryCache) : Extends c c :=
  ⟨rfl, rfl, fun h => h, fun h => h⟩

omit [ValueText] in
theorem Extends.trans {c c₁ c₂ : FieldQueryCache} (h : Extends c c₁) (h' : Extends c₁ c₂) :
    Extends c c₂ where
  cacheData := h'.cacheData.trans h.cacheData
  generations := h'.generations.trans h.generations
  keeps hk := h'.keeps (h.keeps hk)
  numbering hn := h'.numbering (h.numbering hn)

omit [ValueText] in
theorem Blank.of_extends {c c₁ : FieldQueryCache} (hb : Blank c) (h : Extends c c₁) :
    Blank c₁ where
  peek key := by rw [h.cacheData, hb.peek]
  generations scope := by rw [h.generations, hb.generations]
  numbering := h.numbering hb.numbering

omit [ValueText] in
theorem blank_reset (c : FieldQueryCache) : Blank c.reset where
  peek key := by simp [reset]
  generations scope := by simp [reset]
  numbering := by
    rw [reset_number]
    exact IsNumbering.none

omit [ValueText] in
/-- Numbering one identity extends the cache, and returns the identity's number. -/
theorem upIdent_spec (c : FieldQueryCache) (k : CacheIdent) :
    Extends c (c.upIdent k).1 ∧ (c.upIdent k).2 = (c.upIdent k).1.number k := by
  unfold upIdent
  split
  · rename_i idx hk
    exact ⟨Extends.refl c, hk.symm⟩
  · rename_i hk
    refine ⟨⟨by simp, by simp, ?_, ?_⟩, ?_⟩
    · intro a i ha
      rw [allot_number]
      exact allotNumber_of_some hk ha
    · intro hn
      rw [allot_number, allot_idxNum]
      exact hn.allot k
    · rw [allot_number, allotNumber_self]

/-- An allocation below the bound extends the cache, and returns the number the
parameter then has. -/
theorem tryUpIdx_spec {c : FieldQueryCache} (hlt : c.idxNum < maxLocalIdx) (p : DataField) :
    Extends c (c.tryUpIdx p).1 ∧ (c.tryUpIdx p).2 = (c.tryUpIdx p).1.getIdx p := by
  rw [tryUpIdx_eq, resetIfFull_of_lt hlt, getIdx_eq]
  cases hk : p.cacheIdent with
  | none => exact ⟨Extends.refl c, rfl⟩
  | some k => exact upIdent_spec c k

/-- An allocation uses up one of the numbers that a list of parameters still
needs, exactly when it allots one. -/
theorem tryUpIdx_idxNum {c : FieldQueryCache} (hlt : c.idxNum < maxLocalIdx) (p : DataField)
    (ps : List DataField) :
    (c.tryUpIdx p).1.idxNum +
        unnumbered (c.tryUpIdx p).1.number (ps.filterMap DataField.cacheIdent) =
      c.idxNum + unnumbered c.number ((p :: ps).filterMap DataField.cacheIdent) := by
  rw [tryUpIdx_eq, resetIfFull_of_lt hlt]
  cases hk : p.cacheIdent with
  | none => simp [hk]
  | some k =>
      rw [List.filterMap_cons_some hk]
      simp only [upIdent]
      cases hn : c.number k with
      | some idx => rw [unnumbered_cons_of_some hn]
      | none =>
          rw [unnumbered_cons_of_none hn (c.idxNum + 1)]
          simp only [allot_idxNum, allot_number]
          omega

theorem getIdx_of_extends {c c₁ : FieldQueryCache} (h : Extends c c₁) {p : DataField} {i : Nat}
    (hi : c.getIdx p = some i) : c₁.getIdx p = some i := by
  rw [getIdx_eq, Option.bind_eq_some_iff] at hi ⊢
  obtain ⟨k, hk, hki⟩ := hi
  exact ⟨k, hk, h.keeps hki⟩

/-- Once an allocation has numbered a parameter, the parameter's number does not
change while the cache is only extended. -/
theorem tryUpIdx_result_of_extends {c c₂ : FieldQueryCache} (hlt : c.idxNum < maxLocalIdx)
    {p : DataField} (h : Extends (c.tryUpIdx p).1 c₂) : (c.tryUpIdx p).2 = c₂.getIdx p := by
  rw [(tryUpIdx_spec hlt p).2]
  cases hk : p.cacheIdent with
  | none => simp [getIdx_eq, hk]
  | some k =>
      have hsome : ∃ i, (c.tryUpIdx p).1.getIdx p = some i := by
        rw [← (tryUpIdx_spec hlt p).2, tryUpIdx_eq, hk]
        simp only [upIdent]
        split <;> exact ⟨_, rfl⟩
      obtain ⟨i, hi⟩ := hsome
      rw [hi, getIdx_of_extends h hi]

/-- A save that starts below the bound and does not use it up before its last
parameter only extends the cache, and gives every parameter the number it has
in the end. -/
theorem tryUpIdxs_spec {c : FieldQueryCache} {ps : List DataField}
    (hlt : c.idxNum + unnumbered c.number (ps.dropLast.filterMap DataField.cacheIdent) <
      maxLocalIdx) :
    Extends c (c.tryUpIdxs ps).1 ∧
      (c.tryUpIdxs ps).2 = ps.map (c.tryUpIdxs ps).1.getIdx := by
  induction ps generalizing c with
  | nil => exact ⟨Extends.refl c, rfl⟩
  | cons p ps ih =>
      have hc : c.idxNum < maxLocalIdx := by omega
      have hrest : (c.tryUpIdx p).1.idxNum +
          unnumbered (c.tryUpIdx p).1.number (ps.dropLast.filterMap DataField.cacheIdent) <
            maxLocalIdx ∨ ps = [] := by
        cases ps with
        | nil => exact Or.inr rfl
        | cons q qs =>
            left
            rw [tryUpIdx_idxNum hc]
            simpa using hlt
      rcases hrest with hrest | rfl
      · obtain ⟨hext, hnums⟩ := ih hrest
        refine ⟨(tryUpIdx_spec hc p).1.trans hext, ?_⟩
        simp only [tryUpIdxs, List.map_cons]
        rw [hnums, tryUpIdx_result_of_extends hc hext]
      · refine ⟨(tryUpIdx_spec hc p).1, ?_⟩
        simp only [tryUpIdxs, List.map_cons, List.map_nil]
        rw [(tryUpIdx_spec hc p).2]

omit [ValueText] in
theorem blank_resetIfFull_or (c : FieldQueryCache) :
    c.resetIfFull = c ∧ c.idxNum < maxLocalIdx ∨ c.resetIfFull = c.reset := by
  rcases Nat.lt_or_ge c.idxNum maxLocalIdx with hlt | hge
  · exact Or.inl ⟨resetIfFull_of_lt hlt, hlt⟩
  · exact Or.inr (resetIfFull_of_ge hge)

/-- Whatever happens to the counter, an allocation leaves an extension of the
cache or a cache without rows. -/
theorem tryUpIdx_evolves (c : FieldQueryCache) (p : DataField) :
    Extends c (c.tryUpIdx p).1 ∨ Blank (c.tryUpIdx p).1 := by
  have hup : Extends c.resetIfFull (c.tryUpIdx p).1 := by
    rw [tryUpIdx_eq]
    cases p.cacheIdent with
    | none => exact Extends.refl _
    | some k => exact (upIdent_spec _ k).1
  rcases blank_resetIfFull_or c with ⟨hsame, -⟩ | hreset
  · rw [hsame] at hup
    exact Or.inl hup
  · rw [hreset] at hup
    exact Or.inr ((blank_reset c).of_extends hup)

/-- The allocations of a save leave an extension of the cache or a cache without
rows. -/
theorem tryUpIdxs_evolves (c : FieldQueryCache) (ps : List DataField) :
    Extends c (c.tryUpIdxs ps).1 ∨ Blank (c.tryUpIdxs ps).1 := by
  induction ps generalizing c with
  | nil => exact Or.inl (Extends.refl c)
  | cons p ps ih =>
      rcases ih (c.tryUpIdx p).1 with hext | hblank
      · rcases tryUpIdx_evolves c p with hext₁ | hblank₁
        · exact Or.inl (hext₁.trans hext)
        · exact Or.inr (hblank₁.of_extends hext)
      · exact Or.inr hblank

/-- A full counter makes the first allocation start from a reset cache. -/
theorem tryUpIdxs_of_full {c : FieldQueryCache} (hfull : maxLocalIdx ≤ c.idxNum)
    {ps : List DataField} (hne : ps ≠ []) : c.tryUpIdxs ps = c.reset.tryUpIdxs ps := by
  cases ps with
  | nil => exact absurd rfl hne
  | cons p ps =>
      have hreset : c.reset.idxNum < maxLocalIdx := by
        show 0 < maxLocalIdx
        decide
      simp only [tryUpIdxs]
      rw [tryUpIdx_eq, tryUpIdx_eq, resetIfFull_of_ge hfull, resetIfFull_of_lt hreset]

/-- A parameter that cannot be cached gets no number. -/
theorem none_mem_tryUpIdxs {c : FieldQueryCache} {ps : List DataField} {p : DataField}
    (hp : p ∈ ps) (hk : p.cacheIdent = none) : none ∈ (c.tryUpIdxs ps).2 := by
  induction ps generalizing c with
  | nil => simp at hp
  | cons q qs ih =>
      simp only [tryUpIdxs, List.mem_cons]
      rcases List.mem_cons.mp hp with rfl | hp
      · left
        rw [tryUpIdx_eq, hk]
      · exact Or.inr (ih hp)

/-- The parameters of a call need no more numbers than they are. -/
theorem unnumbered_dropLast_le (number : CacheIdent → Option Nat)
    (ps : List DataField) :
    unnumbered number (ps.dropLast.filterMap DataField.cacheIdent) ≤ ps.length :=
  calc unnumbered number (ps.dropLast.filterMap DataField.cacheIdent) ≤
        (ps.dropLast.filterMap DataField.cacheIdent).length := unnumbered_le_length _ _
    _ ≤ ps.dropLast.length := List.length_filterMap_le _ _
    _ ≤ ps.length := by simp

/-- A reset cache has room for the parameters of a call. -/
theorem tryUpIdxs_reset_spec (c : FieldQueryCache) {ps : List DataField} (hsix : ps.length ≤ 6) :
    Extends c.reset (c.reset.tryUpIdxs ps).1 ∧
      (c.reset.tryUpIdxs ps).2 = ps.map (c.reset.tryUpIdxs ps).1.getIdx := by
  have hroom := unnumbered_dropLast_le c.reset.number ps
  have hzero : c.reset.idxNum = 0 := rfl
  exact tryUpIdxs_spec (by rw [hzero, maxLocalIdx]; omega)

/-- A save that does not reset the tables between its parameters gives every parameter the
number it has in the end. -/
theorem tryUpIdxs_of_whole {c : FieldQueryCache} {args : CacheArgs}
    (hall : ∀ p ∈ args.params, p.cacheIdent.isSome)
    (hwhole : ¬ ResetsBetweenParams c args.params) :
    (c.tryUpIdxs args.params).2 = args.params.map (c.tryUpIdxs args.params).1.getIdx := by
  rcases Nat.lt_or_ge c.idxNum maxLocalIdx with hlt | hfull
  · apply (tryUpIdxs_spec _).2
    by_contra hge
    exact hwhole ⟨hall, hlt, by omega⟩
  · rw [tryUpIdxs_of_full hfull args.nonempty]
    exact (tryUpIdxs_reset_spec c args.length_le).2

/-- A save with a parameter that cannot be cached stores no row. -/
theorem saveScoped_of_uncached {c : FieldQueryCache} {ps : List DataField} {p : DataField}
    (hp : p ∈ ps) (hk : p.cacheIdent = none) (s : UInt64) (row : RowData) :
    c.saveScoped s ps row = (c.tryUpIdxs ps).1 := by
  have hnone : (c.tryUpIdxs ps).2.mapM id = none :=
    mapM_eq_none_of_mem (none_mem_tryUpIdxs hp hk) rfl
  simp [saveScoped, hnone]

/-- The outcome of the allocations of a save that does not reset the tables
between its parameters: either no row is stored, or the row is stored under the
numbers that the parameters have afterwards. -/
theorem saveScoped_cases {c : FieldQueryCache} {args : CacheArgs}
    (hwhole : ¬ ResetsBetweenParams c args.params) (s : UInt64) (row : RowData) :
    ∃ c₁, (Extends c c₁ ∨ Blank c₁) ∧
      (c.saveScoped s args.params row = c₁ ∨
        ∃ idxs, (args.params.mapM c₁.getIdx).bind EnumSizeIndex.ofList = some idxs ∧
          c.saveScoped s args.params row =
            { c₁ with cacheData := c₁.cacheData.put ⟨s, idxs⟩ row }) := by
  refine ⟨(c.tryUpIdxs args.params).1, tryUpIdxs_evolves c args.params, ?_⟩
  by_cases hall : ∀ p ∈ args.params, p.cacheIdent.isSome
  · simp only [saveScoped]
    rw [tryUpIdxs_of_whole hall hwhole, List.mapM_map]
    cases hidx : (args.params.mapM (c.tryUpIdxs args.params).1.getIdx).bind
        EnumSizeIndex.ofList with
    | none =>
        left
        simp only [Function.comp_def, id_eq, hidx]
    | some idxs =>
        right
        exact ⟨idxs, rfl, by simp only [Function.comp_def, id_eq, hidx]⟩
  · left
    push Not at hall
    obtain ⟨p, hp, hk⟩ := hall
    exact saveScoped_of_uncached hp (by simpa using hk) s row

omit [ValueText] in
/-- A generation announced again changes nothing; a new one drops exactly the
rows of the scope. -/
theorem peek_prepareGenerationScoped {c : FieldQueryCache} {scope : UInt64} {g : Nat}
    {key : LocalCacheKey} {row : RowData}
    (h : (c.prepareGenerationScoped scope g).cacheData.peek key = some row) :
    c.cacheData.peek key = some row ∧
      (key.scopeHash = scope → c.generations.lookup scope = some g) := by
  unfold prepareGenerationScoped at h
  split at h
  · rename_i hsame
    exact ⟨h, fun _ => hsame⟩
  · rw [LruCache.peek_foldl_pop] at h
    split at h
    · simp at h
    · rename_i hkept
      refine ⟨h, fun hscope => absurd ?_ hkept⟩
      -- a row of the scope is among the stale ones
      have hmem : (key, row) ∈ c.cacheData.entries := LruCache.mem_entries_of_peek h
      rw [List.mem_map]
      exact ⟨(key, row), List.mem_filter.mpr ⟨hmem, by simpa using hscope⟩, rfl⟩

omit [ValueText] in
theorem prepareGenerationScoped_number (c : FieldQueryCache) (scope : UInt64) (g : Nat) :
    (c.prepareGenerationScoped scope g).number = c.number ∧
      (c.prepareGenerationScoped scope g).idxNum = c.idxNum := by
  unfold prepareGenerationScoped
  split
  · exact ⟨rfl, rfl⟩
  · refine ⟨?_, rfl⟩
    funext k
    cases k <;> rfl

omit [ValueText] in
theorem prepareGenerationScoped_generations (c : FieldQueryCache) (scope : UInt64) (g : Nat)
    (s : UInt64) :
    (c.prepareGenerationScoped scope g).generations.lookup s =
      if s = scope then some g else c.generations.lookup s := by
  unfold prepareGenerationScoped
  split
  · rename_i hsame
    by_cases hs : s = scope
    · rw [if_pos hs, hs, hsame]
    · rw [if_neg hs]
  · by_cases hs : s = scope
    · subst hs
      simp
    · rw [if_neg hs]
      exact AList.lookup_insert_ne hs

end FieldQueryCache

/-! ## The invariant of a run -/

/-- `Saved ops scope ks row`: the row was saved for parameters with the
identities `ks`, in the generation of the scope that is still in force. -/
def Saved (ops : List CacheOp) (scope : UInt64) (ks : List CacheIdent) (row : RowData) : Prop :=
  ∃ pre qs post, ops = pre ++ CacheOp.saveScoped scope qs row :: post ∧
    qs.params.mapM DataField.cacheIdent = some ks ∧
    NoChange (pre ++ [CacheOp.saveScoped scope qs row]) post scope

/-- What every state of a run satisfies: the tables are a numbering, remembered
generations are the ones last announced, and each row was saved for the
identities that its key's numbers now stand for. -/
structure CacheInv (ops : List CacheOp) (c : FieldQueryCache) : Prop where
  numbering : IsNumbering c.number c.idxNum
  announced : ∀ {s : UInt64} {g : Nat}, c.generations.lookup s = some g →
    lastAnnounced ops s = some g
  rows : ∀ {key : LocalCacheKey} {row : RowData}, c.cacheData.peek key = some row →
    ∃ ks, ks.mapM c.number = some key.idxs.toList ∧ Saved ops key.scopeHash ks row

/-- A later call that announces no change of the scope keeps a row saved. -/
theorem Saved.snoc {ops : List CacheOp} {scope : UInt64} {ks : List CacheIdent} {row : RowData}
    (h : Saved ops scope ks row) {op : CacheOp}
    (hop : ∀ g, op = CacheOp.prepareGeneration scope g → lastAnnounced ops scope = some g) :
    Saved (ops ++ [op]) scope ks row := by
  obtain ⟨pre, qs, post, rfl, hks, hno⟩ := h
  refine ⟨pre, qs, post ++ [op], by simp, hks, ?_⟩
  intro mid g rest hsplit
  rcases List.eq_nil_or_concat rest with rfl | ⟨rest', last, rfl⟩
  · -- the announcement is the new call
    obtain ⟨rfl, hlast⟩ := List.append_inj' hsplit rfl
    have hg := hop g (by simpa using hlast)
    simpa using hg
  · refine hno mid g rest' ?_
    have hsplit' : post ++ [op] =
        (mid ++ CacheOp.prepareGeneration scope g :: rest') ++ [last] := by
      rw [hsplit]
      simp
    exact (List.append_inj' hsplit' rfl).1

theorem Saved.of_save (ops : List CacheOp) (scope : UInt64) {args : CacheArgs}
    {ks : List CacheIdent} (row : RowData)
    (hks : args.params.mapM DataField.cacheIdent = some ks) :
    Saved (ops ++ [CacheOp.saveScoped scope args row]) scope ks row := by
  refine ⟨ops, args, [], by simp, hks, ?_⟩
  intro mid g rest hsplit
  simp at hsplit

/-- A new cache satisfies the invariant. -/
theorem cacheInv_init (size : Nat) : CacheInv [] (FieldQueryCache.withCapacity size) where
  numbering := by
    rw [FieldQueryCache.withCapacity_number]
    exact IsNumbering.none
  announced h := by simp [FieldQueryCache.withCapacity] at h
  rows h := by simp [FieldQueryCache.withCapacity] at h

open FieldQueryCache in
/-- Allocations alone keep the invariant: rows either stay under numbers that
keep their meaning, or are dropped. -/
theorem CacheInv.evolve {ops : List CacheOp} {c c₁ : FieldQueryCache} {op : CacheOp}
    (hinv : CacheInv ops c) (hop : ∀ s g, op ≠ CacheOp.prepareGeneration s g)
    (hevo : Extends c c₁ ∨ Blank c₁) : CacheInv (ops ++ [op]) c₁ := by
  have hlast : ∀ s, lastAnnounced (ops ++ [op]) s = lastAnnounced ops s := by
    intro s
    rw [lastAnnounced_snoc]
    split
    · exact absurd rfl (hop _ _)
    · rfl
  rcases hevo with hext | hblank
  · refine ⟨hext.numbering hinv.numbering, ?_, ?_⟩
    · intro s g hg
      rw [hlast]
      exact hinv.announced (hext.generations ▸ hg)
    · intro key row hrow
      obtain ⟨ks, hks, hsaved⟩ := hinv.rows (hext.cacheData ▸ hrow)
      exact ⟨ks, mapM_of_extends (fun _ _ h => hext.keeps h) hks,
        hsaved.snoc fun g hg => absurd hg (hop _ _)⟩
  · refine ⟨hblank.numbering, ?_, ?_⟩
    · intro s g hg
      simp [hblank.generations] at hg
    · intro key row hrow
      simp [hblank.peek] at hrow

open FieldQueryCache in
/-- Every call that does not reset the tables between its parameters keeps the
invariant. -/
theorem CacheInv.step {ops : List CacheOp} {c : FieldQueryCache} {op : CacheOp}
    (hinv : CacheInv ops c) (hwhole : SavesWhole c op) : CacheInv (ops ++ [op]) (c.apply op) := by
  cases op with
  | fetchScoped s args =>
      exact hinv.evolve (by simp) (Or.inl (Extends.refl c))
  | saveScoped s args row =>
      obtain ⟨c₁, hevo, hout⟩ := saveScoped_cases hwhole s row
      have h₁ : CacheInv (ops ++ [CacheOp.saveScoped s args row]) c₁ :=
        hinv.evolve (by simp) hevo
      simp only [apply]
      rcases hout with hout | ⟨idxs, hidxs, hout⟩
      · rw [hout]
        exact h₁
      · rw [hout]
        obtain ⟨ns, hns, hof⟩ := Option.bind_eq_some_iff.mp hidxs
        have hbind : args.params.mapM (fun p => p.cacheIdent.bind c₁.number) = some ns := by
          rw [← hns]
          congr 1
          funext p
          rw [getIdx_eq]
        obtain ⟨ks, hks, hnum⟩ := exists_mapM_of_mapM_bind hbind
        refine ⟨h₁.numbering, h₁.announced, ?_⟩
        intro key row' hrow
        by_cases hkey : key = ⟨s, idxs⟩
        · subst hkey
          rw [LruCache.peek_put_self, Option.some.injEq] at hrow
          subst hrow
          refine ⟨ks, ?_, Saved.of_save ops s row hks⟩
          rw [EnumSizeIndex.toList_of_ofList hof]
          exact hnum
        · exact h₁.rows (LruCache.peek_of_peek_put hkey hrow)
  | prepareGeneration scope g =>
      simp only [apply]
      obtain ⟨hnum, hidx⟩ := prepareGenerationScoped_number c scope g
      refine ⟨by rw [hnum, hidx]; exact hinv.numbering, ?_, ?_⟩
      · intro s g' hg'
        rw [prepareGenerationScoped_generations] at hg'
        rw [lastAnnounced_snoc]
        by_cases hs : s = scope
        · subst hs
          simpa using hg'
        · simp only [Ne.symm hs, if_false]
          exact hinv.announced (by simpa [hs] using hg')
      · intro key row hrow
        obtain ⟨hold, hsame⟩ := peek_prepareGenerationScoped hrow
        obtain ⟨ks, hks, hsaved⟩ := hinv.rows hold
        refine ⟨ks, by rw [hnum]; exact hks, hsaved.snoc ?_⟩
        intro g' hop
        obtain ⟨hscope, rfl⟩ : scope = key.scopeHash ∧ g = g' := by simpa using hop
        exact hscope ▸ hinv.announced (hsame hscope.symm)

open FieldQueryCache in
/-- A row found under the current numbers of the parameters was saved for the
same identities. -/
theorem CacheInv.served {ops : List CacheOp} {c : FieldQueryCache} (hinv : CacheInv ops c)
    {scope : UInt64} {ps : CacheArgs} {row : RowData}
    (hfetch : c.fetchScoped scope ps.params = some row) : Served ops scope ps row := by
  unfold fetchScoped at hfetch
  split at hfetch
  · rename_i idxs hidxs
    obtain ⟨ks, hks, pre, qs, post, hops, hqs, hno⟩ := hinv.rows hfetch
    refine ⟨pre, qs, post, hops, ?_, hno⟩
    obtain ⟨ns, hns, hof⟩ := Option.bind_eq_some_iff.mp hidxs
    simp only [funext (getIdx_eq c)] at hns
    obtain ⟨ls, hls, hnum⟩ := exists_mapM_of_mapM_bind hns
    rw [EnumSizeIndex.toList_of_ofList hof] at hks
    have hsame : ks = ls := hinv.numbering.keys_eq_of_mapM_eq hks hnum
    subst hsame
    exact forall₂_of_mapM_eq hqs hls
  · simp at hfetch

/-- In every run in which no save resets the index tables between two of its
parameters, whatever its length, arities, scopes and values, every fetched row
was saved earlier under the same scope for parameters with the same cache
identities, and no change of the scope's generation was announced since. -/
theorem fetch_served {ops : List CacheOp} {c : FieldQueryCache}
    (hrun : cacheMachine.Run SavesWhole ops c) {scope : UInt64} {ps : CacheArgs} {row : RowData}
    (hfetch : c.fetchScoped scope ps.params = some row) : Served ops scope ps row := by
  have hinv : CacheInv ops c := by
    refine hrun.invariant ?_ ?_
    · rintro c ⟨size, rfl⟩
      exact cacheInv_init size
    · intro ops c op c' _ hinv hwhole hstep
      simp only [cacheMachine, Option.some.injEq] at hstep
      subst hstep
      exact hinv.step hwhole
  exact hinv.served hfetch

/-- One arbitrary-precision integer as the parameter of a call. -/
def oneBigUint (v : Nat) : CacheArgs where
  params := [DataField.new "k" (.bigUint v)]
  nonempty := by simp
  length_le := by simp

/-- Two arbitrary-precision integers as the parameters of a call. -/
def twoBigUints (v w : Nat) : CacheArgs where
  params := [DataField.new "k" (.bigUint v), DataField.new "l" (.bigUint w)]
  nonempty := by simp
  length_le := by simp

/-- Any list of calls is a run. -/
theorem run_foldl (size : Nat) (ops : List CacheOp) :
    cacheMachine.Run Machine.Unguarded ops
      (ops.foldl FieldQueryCache.apply (FieldQueryCache.withCapacity size)) := by
  induction ops using List.reverseRecOn with
  | nil => exact .start ⟨size, rfl⟩
  | append_singleton ops op ih =>
      rw [List.foldl_append]
      exact ih.snoc trivial rfl

end Served

/-- A number and a text as the parameters of a call. -/
def numberAndText (n : Int64) (text : String) : CacheArgs where
  params := [.fromInt "id" n, .fromChars "name" text]
  nonempty := by simp
  length_le := by simp

/-- Saves for one and for two parameters, some of them the same in another order or of
another kind, in two scopes; one of the scopes comes into a new generation in between. -/
def severalSaves : List CacheOp :=
  [.saveScoped 7 (oneBigUint 42) [.fromInt "row" 1],
    .saveScoped 7 (twoBigUints 42 43) [.fromInt "row" 2],
    .prepareGeneration 7 2,
    .saveScoped 7 (twoBigUints 43 42) [.fromInt "row" 3],
    .saveScoped 8 (twoBigUints 42 43) [.fromInt "row" 4],
    .fetchScoped 7 (twoBigUints 42 43),
    .saveScoped 7 (numberAndText 42 "43") [.fromInt "row" 5],
    .saveScoped 7 (numberAndText 43 "42") [.fromInt "row" 6]]

/-- Whether the row with the number `n` was found. -/
def foundRow (n : Int64) : Option RowData → Bool
  | some [.new name (.int v)] => decide (name = "row" ∧ v = n)
  | _ => false

theorem eq_of_foundRow {n : Int64} {row : Option RowData} (h : foundRow n row = true) :
    row = some [.fromInt "row" n] := by
  unfold foundRow at h
  split at h
  · obtain ⟨rfl, rfl⟩ := of_decide_eq_true h
    rfl
  · cases h

/-- The rows that are found after them; the row of the former generation is not. -/
def foundAfterSaves [ValueText] (c : FieldQueryCache) : Bool :=
  (c.fetchScoped 7 (twoBigUints 42 43).params).isNone &&
    foundRow 3 (c.fetchScoped 7 (twoBigUints 43 42).params) &&
    foundRow 4 (c.fetchScoped 8 (twoBigUints 42 43).params) &&
    foundRow 5 (c.fetchScoped 7 (numberAndText 42 "43").params)

/-- Each row that is found was saved for its parameters in its scope. -/
theorem fetch_served_several_saves :
    letI := numericText
    ∃ c, cacheMachine.Run SavesWhole severalSaves c ∧ foundAfterSaves c = true ∧
      Served severalSaves 7 (twoBigUints 43 42) [.fromInt "row" 3] ∧
      Served severalSaves 8 (twoBigUints 42 43) [.fromInt "row" 4] ∧
      Served severalSaves 7 (numberAndText 42 "43") [.fromInt "row" 5] := by
  let _ := numericText
  have hinit : cacheMachine.init (FieldQueryCache.withCapacity 100) := ⟨100, rfl⟩
  have hexec : (cacheMachine.exec SavesWhole (FieldQueryCache.withCapacity 100) severalSaves).any
      foundAfterSaves = true := by
    decide +kernel
  obtain ⟨c, hrun, hfound⟩ := Machine.exists_run_of_exec_any hinit hexec
  have hrows := hfound
  simp only [foundAfterSaves, Bool.and_eq_true] at hrows
  obtain ⟨⟨⟨-, hpair⟩, hother⟩, hmixed⟩ := hrows
  exact ⟨c, hrun, hfound, fetch_served hrun (eq_of_foundRow hpair),
    fetch_served hrun (eq_of_foundRow hother), fetch_served hrun (eq_of_foundRow hmixed)⟩

/-! ## A save that resets the tables between its parameters -/

section MixedSave

variable [ValueText]

namespace FieldQueryCache

/-- Saving a row for one new value, below the bound. -/
theorem saveScoped_oneBigUint {c : FieldQueryCache} {v : Nat} (hlt : c.idxNum < maxLocalIdx)
    (hnew : c.number (.bigUint v) = none) (scope : UInt64) (row : RowData) :
    c.saveScoped scope (oneBigUint v).params row =
      { c.allot (.bigUint v) with
        cacheData := c.cacheData.put ⟨scope, .idx1 (c.idxNum + 1)⟩ row } := by
  have hident : (DataField.new "k" (.bigUint v)).cacheIdent = some (.bigUint v) := rfl
  simp only [saveScoped, oneBigUint, tryUpIdxs, tryUpIdx_eq, hident, resetIfFull_of_lt hlt,
    upIdent, hnew]
  rfl

/-- Saving rows for the values `a, …, a + n - 1`, none of them numbered yet. -/
def saveEach (scope : UInt64) (row : RowData) (a n : Nat) : List CacheOp :=
  (List.range' a n).map fun v => CacheOp.saveScoped scope (oneBigUint v) row

/-- New values saved one by one get consecutive numbers, and a cache with room
keeps the rows of every two-parameter key. -/
theorem foldl_saveEach {c : FieldQueryCache} (scope : UInt64) (row : RowData) {a n : Nat}
    (hbound : c.idxNum + n ≤ maxLocalIdx) (hroom : c.cacheData.len + n ≤ c.cacheData.cap)
    (hnew : ∀ v, a ≤ v → c.number (.bigUint v) = none) :
    let c' := (saveEach scope row a n).foldl apply c
    c'.idxNum = c.idxNum + n ∧
      (∀ v, v < a → c'.number (.bigUint v) = c.number (.bigUint v)) ∧
      (∀ i, i < n → c'.number (.bigUint (a + i)) = some (c.idxNum + i + 1)) ∧
      (∀ s i j, c'.cacheData.peek ⟨s, .idx2 i j⟩ = c.cacheData.peek ⟨s, .idx2 i j⟩) ∧
      c'.cacheData.cap = c.cacheData.cap := by
  induction n generalizing c a with
  | zero => simp [saveEach]
  | succ n ih =>
      have hlt : c.idxNum < maxLocalIdx := by omega
      have hstep := saveScoped_oneBigUint hlt (hnew a (Nat.le_refl a)) scope row
      have hnum : (c.saveScoped scope (oneBigUint a).params row).number =
          allotNumber c.number (.bigUint a) (c.idxNum + 1) := by
        rw [hstep, ← allot_number]
        rfl
      have hlen := LruCache.len_put_le c.cacheData
        ⟨scope, .idx1 (c.idxNum + 1)⟩ row
      obtain ⟨hidx, hbelow, hgiven, hpeek, hcap⟩ :=
        ih (c := c.saveScoped scope (oneBigUint a).params row) (a := a + 1)
          (by rw [hstep]; simp only [allot_idxNum]; omega)
          (by rw [hstep]; simp only [LruCache.cap_put]; omega)
          (by
            intro v hv
            rw [hnum, allotNumber_of_ne _ (by simp; omega)]
            exact hnew v (by omega))
      have hcons : saveEach scope row a (n + 1) =
          CacheOp.saveScoped scope (oneBigUint a) row :: saveEach scope row (a + 1) n := by
        simp [saveEach, List.range'_succ]
      simp only [hcons, List.foldl_cons, apply]
      refine ⟨?_, ?_, ?_, ?_, ?_⟩
      · rw [hidx, hstep]
        simp only [allot_idxNum]
        omega
      · intro v hv
        rw [hbelow v (by omega), hnum, allotNumber_of_ne _ (by simp; omega)]
      · intro i hi
        cases i with
        | zero =>
            rw [hbelow (a + 0) (by omega), hnum]
            simp
        | succ i =>
            have := hgiven i (by omega)
            rw [show a + (i + 1) = a + 1 + i by omega, this, hstep]
            simp only [allot_idxNum, Option.some.injEq]
            omega
      · intro s i j
        rw [hpeek, hstep]
        exact LruCache.peek_put_of_lt (by simp) (by omega)
      · rw [hcap, hstep]
        rfl

end FieldQueryCache

/-- A row to tell apart from the empty row of the other saves. -/
def countryRow : RowData := [DataField.fromChars "country_iso_code" "CN"]

/-- Number `n` values, save a row for the values `0` and `1`, and save the first
`n` values again. -/
def mixedSaveOps (n : Nat) : List CacheOp :=
  FieldQueryCache.saveEach 0 [] 2 n ++
    (CacheOp.saveScoped 0 (twoBigUints 0 1) countryRow :: FieldQueryCache.saveEach 0 [] 2 n)

namespace FieldQueryCache

/-- With one number left, the save for `0` and `1` numbers `0` in the old
tables, resets them, and numbers `1` in the new ones. -/
theorem saveScoped_mixed {c : FieldQueryCache} (hidx : c.idxNum + 1 = maxLocalIdx)
    (hnew : c.number (.bigUint 0) = none) :
    c.saveScoped 0 (twoBigUints 0 1).params countryRow =
      { (c.allot (.bigUint 0)).reset.allot (.bigUint 1) with
        cacheData := c.cacheData.clear.put ⟨0, .idx2 maxLocalIdx 1⟩ countryRow } := by
  have hident : ∀ name v, (DataField.new name (.bigUint v)).cacheIdent = some (.bigUint v) :=
    fun _ _ => rfl
  have hlt : c.idxNum < maxLocalIdx := by omega
  have hfull : maxLocalIdx ≤ (c.allot (.bigUint 0)).idxNum := by
    rw [allot_idxNum]
    omega
  simp only [saveScoped, twoBigUints, tryUpIdxs, tryUpIdx_eq, hident, resetIfFull_of_lt hlt,
    upIdent, hnew, resetIfFull_of_ge hfull, reset_number, hidx]
  rfl

/-- After a save whose numbers come from two lives of the tables, the value that
gets the last number of the new life is served the row of another value. -/
theorem fetch_mixedSaveOps {c : FieldQueryCache} {n : Nat} (hn : n + 1 = maxLocalIdx)
    (hidx : c.idxNum = 0) (hnum : c.number = fun _ => none) (hlen : c.cacheData.len = 0)
    (hcap : n + 1 ≤ c.cacheData.cap) :
    ((mixedSaveOps n).foldl apply c).fetchScoped 0 (twoBigUints (n + 1) 1).params =
      some countryRow := by
  rw [mixedSaveOps, List.foldl_append, List.foldl_cons]
  obtain ⟨hidx₁, hbelow₁, -, -, hcap₁⟩ := foldl_saveEach (c := c) 0 [] (a := 2) (n := n)
    (by omega) (by omega) (fun v _ => by rw [hnum])
  generalize (saveEach 0 [] 2 n).foldl apply c = c₁ at hidx₁ hbelow₁ hcap₁
  have hnew₁ : c₁.number (.bigUint 0) = none := by rw [hbelow₁ 0 (by decide), hnum]
  simp only [apply]
  rw [saveScoped_mixed (by omega) hnew₁]
  set c₂ : FieldQueryCache := { (c₁.allot (.bigUint 0)).reset.allot (.bigUint 1) with
    cacheData := c₁.cacheData.clear.put ⟨0, .idx2 maxLocalIdx 1⟩ countryRow } with hc₂
  have hnum₂ : c₂.number = allotNumber (fun _ => none) (.bigUint 1) 1 := by
    rw [← reset_number (c₁.allot (.bigUint 0))]
    exact allot_number (c₁.allot (.bigUint 0)).reset (.bigUint 1)
  have hidx₂ : c₂.idxNum = 1 := rfl
  have hlen₂ : c₂.cacheData.len ≤ 1 :=
    LruCache.len_put_le c₁.cacheData.clear ⟨0, .idx2 maxLocalIdx 1⟩ countryRow
  have hcap₂ : c₂.cacheData.cap = c₁.cacheData.cap := rfl
  have hpeek₂ : c₂.cacheData.peek ⟨0, .idx2 maxLocalIdx 1⟩ = some countryRow :=
    LruCache.peek_put_self _ _ _
  clear_value c₂
  obtain ⟨-, hbelow₃, hgiven₃, hpeek₃, -⟩ := foldl_saveEach (c := c₂) 0 [] (a := 2) (n := n)
    (by omega) (by omega)
    (fun v hv => by rw [hnum₂, allotNumber_of_ne _ (by simp; omega)])
  generalize (saveEach 0 [] 2 n).foldl apply c₂ = c₃ at hbelow₃ hgiven₃ hpeek₃
  have hone : c₃.number (.bigUint 1) = some 1 := by
    rw [hbelow₃ 1 (by decide), hnum₂, allotNumber_self]
  have hlast : c₃.number (.bigUint (n + 1)) = some maxLocalIdx := by
    have hpos : 0 < n := by
      have : maxLocalIdx = 100000 := rfl
      omega
    have hgiven := hgiven₃ (n - 1) (by omega)
    rw [show 2 + (n - 1) = n + 1 by omega] at hgiven
    rw [hgiven, hidx₂, Option.some.injEq]
    omega
  have hidxs : (twoBigUints (n + 1) 1).params.mapM c₃.getIdx = some [maxLocalIdx, 1] := by
    simp [twoBigUints, getIdx_eq, DataField.cacheIdent, hone, hlast]
  simp only [fetchScoped, hidxs, Option.bind_some, EnumSizeIndex.ofList]
  rw [hpeek₃, hpeek₂]

end FieldQueryCache

theorem mixedSaveOps_not_served {n m : Nat} (hm : m ≠ 0) :
    ¬ Served (mixedSaveOps n) 0 (twoBigUints m 1) countryRow := by
  rintro ⟨pre, qs, post, hops, hsame, -⟩
  have hmem : CacheOp.saveScoped 0 qs countryRow ∈ mixedSaveOps n := by
    rw [hops]
    simp
  -- the only save of this row is the one for `0` and `1`
  have hqs : qs = twoBigUints 0 1 := by
    simp only [mixedSaveOps, List.mem_append, List.mem_cons, FieldQueryCache.saveEach,
      List.mem_map] at hmem
    rcases hmem with ⟨v, -, hv⟩ | hv | ⟨v, -, hv⟩
    · simp [countryRow] at hv
    · simpa using hv
    · simp [countryRow] at hv
  subst hqs
  obtain ⟨k, hk, hk'⟩ := (List.forall₂_cons.mp hsame).1
  simp only [DataField.cacheIdent, DataField.getValue_new, Option.some.injEq] at hk hk'
  rw [← hk] at hk'
  simp only [CacheIdent.bigUint.injEq] at hk'
  exact hm hk'

end MixedSave

/-- A concrete run of two hundred thousand saves after which a fetch for the
values `100000` and `1` returns the row saved for `0` and `1`. -/
theorem fetch_of_mixed_save :
    letI := numericText
    ∃ c, cacheMachine.Run Machine.Unguarded (mixedSaveOps 99999) c ∧
      c.fetchScoped 0 (twoBigUints 100000 1).params = some countryRow ∧
      ¬ Served (mixedSaveOps 99999) 0 (twoBigUints 100000 1) countryRow := by
  let _ := numericText
  refine ⟨_, run_foldl 100000 (mixedSaveOps 99999), ?_, mixedSaveOps_not_served (by decide)⟩
  exact FieldQueryCache.fetch_mixedSaveOps rfl rfl
    (FieldQueryCache.withCapacity_number 100000) rfl (Nat.le_refl 100000)

end WpKnowledge
