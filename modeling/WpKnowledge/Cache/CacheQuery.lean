import WpKnowledge.Cache.Isolation
import WpKnowledge.Model.Query

/-!
# Queries through the unscoped local cache

`memdb::cache_query` (`src/mem/memdb.rs`) looks a row up by its cache parameters
alone: `cache_query_impl` fetches and saves under the scope zero, whatever the SQL
text is.  A caller that uses one cache for several statements may therefore be
served the row of another statement.

The database is the parameter {lit}`MemDB`: a function that does not change between
the calls.  A state keeps the calls answered so far beside the cache; no call reads
them.

Main results:

- Theorem {lit}`cache_query_own_row`: in every run in which calls that are alike to
  the cache ask the same query, every call returns its own row.
- Theorem {lit}`cache_query_of_other_sql`: two statements with the same cache
  parameters get one row.
-/

namespace WpKnowledge

open Foundation

/-- The handle on an in-memory database, as far as one row is asked of it.  The
parameters are of whatever type the statement is executed with. -/
structure MemDB (ρ : Type) where
  queryRowParams : String → ρ → KnowledgeResult RowData

/-- A database or its stub. -/
inductive MDBEnum (ρ : Type) where
  | stub
  | use (db : MemDB ρ)

/-- The first row of a statement. -/
def MDBEnum.queryRowParams {ρ : Type} : MDBEnum ρ → String → ρ → KnowledgeResult RowData
  | .stub, _, _ => .ok []
  | .use db, sql, params => db.queryRowParams sql params

/-- One call of `cache_query`, the database and the cache apart. -/
structure CacheQueryCall (ρ : Type) where
  sql : String
  cParams : CacheArgs
  qParams : ρ

section CacheQuery

variable [ValueText]

namespace FieldQueryCache

/-- Save a row without a scope. -/
def save (c : FieldQueryCache) (params : List DataField) (result : RowData) : FieldQueryCache :=
  c.saveScoped 0 params result

/-- Fetch a row without a scope. -/
def fetch (c : FieldQueryCache) (params : List DataField) : Option RowData :=
  c.fetchScoped 0 params

end FieldQueryCache

omit [ValueText] in
/-- What a caller gets of a query: the row, or the empty row for an error. -/
def rowOrEmpty : KnowledgeResult RowData → RowData
  | .ok row => row
  | .error _ => []

/-- Fetch by the cache parameters, otherwise run the query and save its row. -/
def cacheQueryImpl (cParams : List DataField) (cache : FieldQueryCache)
    (queryFn : Unit → KnowledgeResult RowData) : FieldQueryCache × RowData :=
  match cache.fetch cParams with
  | some hit => (cache, hit)
  | none =>
      match queryFn () with
      | .ok row => (cache.save cParams row, row)
      | .error _ => (cache, [])

variable {ρ : Type} (db : MDBEnum ρ)

/-- One call of `memdb::cache_query`. -/
def cacheQuery (call : CacheQueryCall ρ) (cache : FieldQueryCache) : FieldQueryCache × RowData :=
  cacheQueryImpl call.cParams.params cache fun _ => db.queryRowParams call.sql call.qParams

omit [ValueText] in
/-- What a call returns without a cache. -/
def uncachedQuery (call : CacheQueryCall ρ) : RowData :=
  rowOrEmpty (db.queryRowParams call.sql call.qParams)

/-! ## Runs of calls on one cache -/

/-- The shared cache, and the calls made on it with what they returned. -/
structure CacheQueryState (ρ : Type) where
  cache : FieldQueryCache
  answered : List (CacheQueryCall ρ × RowData)

/-- Any calls, one after the other, on one new cache. -/
def cacheQueryMachine : Machine (CacheQueryState ρ) (CacheQueryCall ρ) where
  init s := (∃ size, s.cache = FieldQueryCache.withCapacity size) ∧ s.answered = []
  step s call :=
    let (cache, row) := cacheQuery db call s.cache
    some { cache, answered := s.answered ++ [(call, row)] }

/-- The call asks the same query as every earlier call that is alike to the cache,
and its save does not reset the index tables between two parameters. -/
def AlikeAsksAlike (s : CacheQueryState ρ) (call : CacheQueryCall ρ) : Prop :=
  (∀ earlier ∈ s.answered, SameIdentities earlier.1.cParams.params call.cParams.params →
    earlier.1.sql = call.sql ∧ earlier.1.qParams = call.qParams) ∧
  ¬ ResetsBetweenParams s.cache call.cParams.params

/-- What a run keeps: the cache went through some calls whose saves are the rows of
calls that were answered, and every call was answered with its own row. -/
structure OwnRows (s : CacheQueryState ρ) : Prop where
  cache : ∃ ops, CacheInv ops s.cache ∧
    ∀ {scope : UInt64} {args : CacheArgs} {row : RowData},
      CacheOp.saveScoped scope args row ∈ ops →
        ∃ entry ∈ s.answered, entry.1.cParams = args ∧
          db.queryRowParams entry.1.sql entry.1.qParams = .ok row
  own : ∀ entry ∈ s.answered, entry.2 = uncachedQuery db entry.1

variable {db}

/-- A row in the cache is the own row of every call it may be served to. -/
theorem OwnRows.of_fetch {s : CacheQueryState ρ} (hs : OwnRows db s) {call : CacheQueryCall ρ}
    (halike : AlikeAsksAlike s call) {row : RowData}
    (hfetch : s.cache.fetch call.cParams.params = some row) : row = uncachedQuery db call := by
  obtain ⟨ops, hinv, hsaves⟩ := hs.cache
  obtain ⟨pre, args, post, hops, hsame, -⟩ := hinv.served hfetch
  have hmem : CacheOp.saveScoped 0 args row ∈ ops := by simp [hops]
  obtain ⟨entry, hentry, rfl, hrow⟩ := hsaves hmem
  obtain ⟨hsql, hparams⟩ := halike.1 entry hentry hsame
  rw [hsql, hparams] at hrow
  rw [uncachedQuery, hrow]
  rfl

/-- One call keeps the invariant. -/
theorem OwnRows.step {s : CacheQueryState ρ} (hs : OwnRows db s) {call : CacheQueryCall ρ}
    (halike : AlikeAsksAlike s call) :
    OwnRows db ⟨(cacheQuery db call s.cache).1,
      s.answered ++ [(call, (cacheQuery db call s.cache).2)]⟩ := by
  obtain ⟨ops, hinv, hsaves⟩ := hs.cache
  have hold : ∀ {scope args row}, CacheOp.saveScoped scope args row ∈ ops → ∀ answer : RowData,
      ∃ entry ∈ s.answered ++ [(call, answer)], entry.1.cParams = args ∧
        db.queryRowParams entry.1.sql entry.1.qParams = .ok row := by
    intro scope args row hmem answer
    obtain ⟨entry, hentry, hargs⟩ := hsaves hmem
    exact ⟨entry, List.mem_append_left _ hentry, hargs⟩
  have hown : ∀ answer, answer = uncachedQuery db call →
      ∀ entry ∈ s.answered ++ [(call, answer)], entry.2 = uncachedQuery db entry.1 := by
    intro answer hanswer entry hentry
    rcases List.mem_append.mp hentry with hentry | hentry
    · exact hs.own entry hentry
    · rw [List.mem_singleton.mp hentry]
      exact hanswer
  simp only [cacheQuery, cacheQueryImpl]
  cases hfetch : s.cache.fetch call.cParams.params with
  | some hit =>
      have hhit := hs.of_fetch halike hfetch
      exact ⟨⟨ops, hinv, fun hmem => hold hmem hit⟩, hown hit hhit⟩
  | none =>
      cases hquery : db.queryRowParams call.sql call.qParams with
      | error err =>
          have hempty : ([] : RowData) = uncachedQuery db call := by
            rw [uncachedQuery, hquery]
            rfl
          exact ⟨⟨ops, hinv, fun hmem => hold hmem []⟩, hown [] hempty⟩
      | ok row =>
          have hrow : row = uncachedQuery db call := by
            rw [uncachedQuery, hquery]
            rfl
          have hwhole : SavesWhole s.cache (.saveScoped 0 call.cParams row) := halike.2
          refine ⟨⟨_, hinv.step hwhole, ?_⟩, hown row hrow⟩
          intro scope args row' hmem
          rcases List.mem_append.mp hmem with hmem | hmem
          · exact hold hmem row
          · -- the save of this call
            obtain ⟨-, rfl, rfl⟩ := by simpa using hmem
            exact ⟨(call, row'), by simp, rfl, hquery⟩

/-- In every run in which each call asks the same query as the earlier calls with
the same cache identities, and resets no index table between its parameters, every
call returns the row of its own statement with its own parameters, and the empty
row on an error. -/
theorem cache_query_own_row {calls : List (CacheQueryCall ρ)} {s : CacheQueryState ρ}
    (hrun : (cacheQueryMachine db).Run AlikeAsksAlike calls s) :
    ∀ entry ∈ s.answered, entry.2 = uncachedQuery db entry.1 := by
  have hinv : OwnRows db s := by
    refine hrun.stateInvariant ?_ ?_
    · rintro ⟨cache, answered⟩ ⟨⟨size, hcache⟩, hnone⟩
      simp only at hcache hnone
      subst hcache hnone
      exact ⟨⟨[], cacheInv_init size, by simp⟩, by simp⟩
    · intro s call s' hs halike hstep
      simp only [cacheQueryMachine, Option.some.injEq] at hstep
      subst hstep
      exact hs.step halike
  exact hinv.own

end CacheQuery

/-! ## One cache for two statements -/

/-- A database that answers two statements with different rows. -/
def twoStatements : MDBEnum Unit :=
  .use { queryRowParams := fun sql _ =>
    if sql = "select country" then .ok [DataField.fromChars "country" "CN"]
    else if sql = "select city" then .ok [DataField.fromChars "city" "Beijing"]
    else .error ⟨.ruleError, "source error"⟩ }

/-- A call of a statement for one key. -/
def callFor (sql : String) : CacheQueryCall Unit where
  sql := sql
  cParams := { params := [DataField.fromInt "id" 7], nonempty := by simp, length_le := by simp }
  qParams := ()

/-- Two calls of one statement: the second is served from the cache. -/
theorem cache_query_own_row_repeated :
    letI := numericText
    ∃ s, (cacheQueryMachine twoStatements).Run AlikeAsksAlike
        [callFor "select city", callFor "select city"] s ∧
      ∀ entry ∈ s.answered, entry.2 = uncachedQuery twoStatements entry.1 := by
  let _ := numericText
  let s₀ : CacheQueryState Unit := ⟨FieldQueryCache.withCapacity 8, []⟩
  have h₀ : (cacheQueryMachine twoStatements).Run AlikeAsksAlike [] s₀ := .start ⟨⟨8, rfl⟩, rfl⟩
  have h₁ := h₀.snoc (a := callFor "select city") ⟨by simp [s₀], by decide⟩ rfl
  have h₂ := h₁.snoc (a := callFor "select city")
    ⟨by intro entry hentry _; obtain rfl := List.mem_singleton.mp hentry; exact ⟨rfl, rfl⟩,
      by decide +kernel⟩ rfl
  exact ⟨_, h₂, cache_query_own_row h₂⟩

/-- The call of the second statement returns the row of the first. -/
theorem cache_query_of_other_sql :
    letI := numericText
    ∃ s, (cacheQueryMachine twoStatements).Run Machine.Unguarded
        [callFor "select country", callFor "select city"] s ∧
      ∃ entry ∈ s.answered, entry.1.sql = "select city" ∧
        entry.2 = [DataField.fromChars "country" "CN"] ∧
        entry.2 ≠ uncachedQuery twoStatements entry.1 := by
  let _ := numericText
  let s₀ : CacheQueryState Unit := ⟨FieldQueryCache.withCapacity 8, []⟩
  have h₀ : (cacheQueryMachine twoStatements).Run Machine.Unguarded [] s₀ :=
    .start ⟨⟨8, rfl⟩, rfl⟩
  have h₁ := h₀.snoc (a := callFor "select country") trivial rfl
  have h₂ := h₁.snoc (a := callFor "select city") trivial rfl
  refine ⟨_, h₂, (callFor "select city", [DataField.fromChars "country" "CN"]), by simp, rfl, rfl,
    ?_⟩
  intro hsame
  have hnames := congrArg (List.map DataField.getName) hsame
  revert hnames
  decide +kernel

end WpKnowledge
