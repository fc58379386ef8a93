import WpKnowledge.Runtime.KnowledgeRuntime

/-!
# The cache of column names

A query of an in-memory database needs the column names of its statement.  The
cached queries (`src/mem/query_util.rs`) look them up in one process-wide cache,
keyed by a metadata scope and the hash of the SQL text.  The scope is the data
source and generation of the runtime's default provider, or one that the caller
names; it says nothing about the connection that is asked.  The names found also
decide how many columns of a row are read.

SQLite is the parameter {lit}`Sqlite`: the column names a connection reports for a
statement, and the rows it steps through.  A connection is a value of any type, so
that a changed schema is another value.  A state keeps, beside the cache, which names
were reported under which key and what was answered; no query reads them.

Main results:

- Theorem {lit}`cached_eq_uncached`: in every run in which queries under one key
  report the same names, a cached query returns what the uncached one returns.
- Theorem {lit}`cached_names_of_other_database`: two databases with one statement and
  different columns.
-/

namespace WpKnowledge

open Foundation

/-! ## Values of a row -/

/-- A value as SQLite stores it. -/
inductive ValueRef where
  | null
  | integer (v : Int64)
  | real (v : F64)
  | text (bytes : List UInt8)
  | blob (bytes : List UInt8)
deriving DecidableEq, Repr

/-- A byte that goes on a character. -/
def isContinuation (b : UInt8) : Bool :=
  0x80 ≤ b && b ≤ 0xBF

/-- How many bytes follow a leading byte, and what the first of them may be. -/
def utf8Follow (lead : UInt8) : Option (Nat × UInt8 × UInt8) :=
  if 0xC2 ≤ lead && lead ≤ 0xDF then some (1, 0x80, 0xBF)
  else if lead = 0xE0 then some (2, 0xA0, 0xBF)
  else if lead = 0xED then some (2, 0x80, 0x9F)
  else if 0xE1 ≤ lead && lead ≤ 0xEF then some (2, 0x80, 0xBF)
  else if lead = 0xF0 then some (3, 0x90, 0xBF)
  else if lead = 0xF4 then some (3, 0x80, 0x8F)
  else if 0xF1 ≤ lead && lead ≤ 0xF3 then some (3, 0x80, 0xBF)
  else none

/-- How many of the bytes after a leading byte belong to the character it begins. -/
def utf8Taken (lead : UInt8) (rest : List UInt8) : Nat :=
  match utf8Follow lead, rest with
  | some (n, low, high), b :: more =>
      if low ≤ b && b ≤ high then 1 + ((more.take (n - 1)).takeWhile isContinuation).length else 0
  | _, _ => 0

/-- The character of a complete sequence. -/
def utf8Char (lead : UInt8) (follow : List UInt8) : Char :=
  let leadBits := match follow.length with
    | 1 => lead.toNat % 32
    | 2 => lead.toNat % 16
    | _ => lead.toNat % 8
  Char.ofNat (follow.foldl (fun code b => code * 64 + b.toNat % 64) leadBits)

/-- `String::from_utf8_lossy`: every maximal ill-formed piece becomes one replacement
character. -/
def fromUtf8Lossy (bytes : List UInt8) : List Char :=
  match bytes with
  | [] => []
  | lead :: rest =>
      if lead < 0x80 then Char.ofNat lead.toNat :: fromUtf8Lossy rest
      else
        let taken := utf8Taken lead rest
        let c := if (utf8Follow lead).map Prod.fst = some taken
          then utf8Char lead (rest.take taken) else '\uFFFD'
        c :: fromUtf8Lossy (rest.drop taken)
termination_by bytes.length

/-- Every error of the query functions. -/
def sourceError : KnowledgeError := { reason := .ruleError, detail := "source error" }

/-- A value under a column name. -/
def mapValue (colName : String) : ValueRef → KnowledgeResult DataField
  | .null => .ok (.new colName .null)
  | .integer v => .ok (.fromInt colName v)
  | .real v => .ok (.fromFloat colName v)
  | .text bytes =>
      match String.fromUTF8? ⟨bytes.toArray⟩ with
      | some text => .ok (.fromChars colName text)
      | none => .error sourceError
  | .blob bytes => .ok (.fromChars colName (String.ofList (fromUtf8Lossy bytes)))

/-- A row under column names: one value for each name, an error if there is none. -/
def mapRow (row : List ValueRef) (colNames : List String) : KnowledgeResult RowData :=
  colNames.zipIdx.mapM fun (colName, i) =>
    match row[i]? with
    | some value => mapValue colName value
    | none => .error sourceError

/-! ## SQLite -/

/-- What stepping through a statement yields: its rows, and whether an error follows
them. -/
structure Stepped where
  rows : List (List ValueRef)
  failed : Bool

/-- SQLite, as the queries use it: the columns a connection reports for a prepared
statement, and the rows of the statement for some parameters. -/
structure Sqlite (δ ρ : Type) where
  prepareCached : δ → String → Option (List String)
  query : δ → String → ρ → Option Stepped

variable {δ ρ : Type} (sqlite : Sqlite δ ρ)

/-- The loop over the rows. -/
def collectRows (colNames : List String) (stepped : Stepped) : KnowledgeResult (List RowData) := do
  let rows ← stepped.rows.mapM fun row => mapRow row colNames
  if stepped.failed then .error sourceError else return rows

/-- The first row alone. -/
def firstRow (colNames : List String) (stepped : Stepped) : KnowledgeResult RowData :=
  match stepped.rows with
  | row :: _ => mapRow row colNames
  | [] => if stepped.failed then .error sourceError else .ok []

/-- The end of a query, once the column names are known. -/
def stepWith {α : Type} (conn : δ) (sql : String) (params : ρ)
    (collect : Stepped → KnowledgeResult α) : KnowledgeResult α :=
  match sqlite.query conn sql params with
  | none => .error sourceError
  | some stepped => collect stepped

/-- `query`: the names come from the statement. -/
def queryUncached (conn : δ) (sql : String) (params : ρ) : KnowledgeResult (List RowData) :=
  match sqlite.prepareCached conn sql with
  | none => .error sourceError
  | some colNames => stepWith sqlite conn sql params (collectRows colNames)

/-- `query_first_row`: the names come from the statement. -/
def queryFirstRow (conn : δ) (sql : String) (params : ρ) : KnowledgeResult RowData :=
  match sqlite.prepareCached conn sql with
  | none => .error sourceError
  | some colNames => stepWith sqlite conn sql params (firstRow colNames)

/-! ## The cache -/

/-- The data source and generation that column names belong to. -/
structure MetadataCacheScope where
  datasourceId : DatasourceId
  generation : Nat
deriving DecidableEq, Repr

/-- What column names are cached under. -/
structure MetadataCacheKey where
  datasourceId : DatasourceId
  generation : Nat
  queryHash : UInt64
deriving DecidableEq, Repr

/-- The process-wide cache. -/
abbrev ColnameCache := LruCache MetadataCacheKey (List String)

/-- The cache at the start of the process. -/
def ColnameCache.empty : ColnameCache :=
  LruCache.new 512 (Nat.succ_pos 511)

/-- The scope of the default provider. -/
def KnowledgeRuntime.currentMetadataScope {π : Type} (rt : KnowledgeRuntime π) :
    MetadataCacheScope :=
  match rt.provider with
  | some handle => { datasourceId := handle.datasourceId, generation := handle.generation }
  | none => { datasourceId := ⟨"sqlite:standalone"⟩, generation := 0 }

section Cached

variable [DefaultHasher]

/-- The key of a statement in a scope. -/
def metadataCacheKeyForScope (scope : MetadataCacheScope) (sql : String) : MetadataCacheKey where
  datasourceId := scope.datasourceId
  generation := scope.generation
  queryHash := stableHash sql

/-- The names cached under the key, or the ones loaded, which are then cached. -/
def metadataCacheGetOrTryInitForScope (cache : ColnameCache) (scope : MetadataCacheScope)
    (sql : String) (loaded : List String) : ColnameCache × List String :=
  let cacheKey := metadataCacheKeyForScope scope sql
  match cache.peek cacheKey with
  | some names => (cache, names)
  | none => (cache.put cacheKey loaded, loaded)

/-- `query_cached_with_scope`. -/
def queryCachedWithScope (cache : ColnameCache) (conn : δ) (scope : MetadataCacheScope)
    (sql : String) (params : ρ) : ColnameCache × KnowledgeResult (List RowData) :=
  match sqlite.prepareCached conn sql with
  | none => (cache, .error sourceError)
  | some loaded =>
      let (cache, colNames) := metadataCacheGetOrTryInitForScope cache scope sql loaded
      (cache, stepWith sqlite conn sql params (collectRows colNames))

/-- `query_first_row_cached_with_scope`. -/
def queryFirstRowCachedWithScope (cache : ColnameCache) (conn : δ) (scope : MetadataCacheScope)
    (sql : String) (params : ρ) : ColnameCache × KnowledgeResult RowData :=
  match sqlite.prepareCached conn sql with
  | none => (cache, .error sourceError)
  | some loaded =>
      let (cache, colNames) := metadataCacheGetOrTryInitForScope cache scope sql loaded
      (cache, stepWith sqlite conn sql params (firstRow colNames))

variable {π : Type}

/-- `query_cached`: the scope is the runtime's current one. -/
def queryCached (rt : KnowledgeRuntime π) (cache : ColnameCache) (conn : δ) (sql : String)
    (params : ρ) : ColnameCache × KnowledgeResult (List RowData) :=
  queryCachedWithScope sqlite cache conn rt.currentMetadataScope sql params

/-- `query_first_row_cached`: the scope is the runtime's current one. -/
def queryFirstRowCached (rt : KnowledgeRuntime π) (cache : ColnameCache) (conn : δ) (sql : String)
    (params : ρ) : ColnameCache × KnowledgeResult RowData :=
  queryFirstRowCachedWithScope sqlite cache conn rt.currentMetadataScope sql params

/-! ## Runs of queries on any databases -/

/-- A cached query: on which database, in which scope if not the current one, for all
rows or the first. -/
structure NamesCall (ρ : Type) where
  db : Nat
  scope : Option MetadataCacheScope
  sql : String
  params : ρ
  mode : QueryMode

/-- The result of a query of either mode. -/
inductive NamesAnswer where
  | rows (result : KnowledgeResult (List RowData))
  | row (result : KnowledgeResult RowData)

/-- The query with the cache. -/
def NamesCall.cached (call : NamesCall ρ) (rt : KnowledgeRuntime π) (cache : ColnameCache)
    (conn : δ) : ColnameCache × NamesAnswer :=
  match call.mode, call.scope with
  | .many, none => (queryCached sqlite rt cache conn call.sql call.params).map id .rows
  | .many, some scope =>
      (queryCachedWithScope sqlite cache conn scope call.sql call.params).map id .rows
  | .firstRow, none => (queryFirstRowCached sqlite rt cache conn call.sql call.params).map id .row
  | .firstRow, some scope =>
      (queryFirstRowCachedWithScope sqlite cache conn scope call.sql call.params).map id .row

omit [DefaultHasher] in
/-- The query without the cache. -/
def NamesCall.uncached (call : NamesCall ρ) (conn : δ) : NamesAnswer :=
  match call.mode with
  | .many => .rows (queryUncached sqlite conn call.sql call.params)
  | .firstRow => .row (queryFirstRow sqlite conn call.sql call.params)

/-- The key a query looks its column names up under. -/
def NamesCall.key (call : NamesCall ρ) (rt : KnowledgeRuntime π) : MetadataCacheKey :=
  metadataCacheKeyForScope (call.scope.getD rt.currentMetadataScope) call.sql

/-- The cache, the runtime and the databases; and, for the results, the names
reported so far under each key and the answers given. -/
structure NamesState (π δ ρ : Type) where
  cache : ColnameCache
  runtime : KnowledgeRuntime π
  databases : Nat → δ
  reported : List (MetadataCacheKey × List String)
  answered : List (NamesCall ρ × δ × NamesAnswer)

/-- What may happen: a query, any change of a database, any change of the runtime. -/
inductive NamesAction (π δ ρ : Type) where
  | query (call : NamesCall ρ)
  | alter (db : Nat) (conn : δ)
  | runtime (rt : KnowledgeRuntime π)

/-- The state after a query. -/
def NamesState.query (s : NamesState π δ ρ) (call : NamesCall ρ) : NamesState π δ ρ :=
  let conn := s.databases call.db
  let (cache, answer) := call.cached sqlite s.runtime s.cache conn
  { s with
    cache
    reported := s.reported ++
      (sqlite.prepareCached conn call.sql).toList.map fun names => (call.key s.runtime, names)
    answered := s.answered ++ [(call, conn, answer)] }

/-- Any databases and any runtime, an empty cache, then any actions. -/
def namesMachine : Machine (NamesState π δ ρ) (NamesAction π δ ρ) where
  init s := s.cache = ColnameCache.empty ∧ s.reported = [] ∧ s.answered = []
  step s action :=
    match action with
    | .query call => some (s.query sqlite call)
    | .alter db conn => some { s with databases := Function.update s.databases db conn }
    | .runtime rt => some { s with runtime := rt }

/-- The statement of a query has the columns that were reported under its key
before. -/
def NamesSteady (s : NamesState π δ ρ) : NamesAction π δ ρ → Prop
  | .query call => ∀ names, sqlite.prepareCached (s.databases call.db) call.sql = some names →
      ∀ entry ∈ s.reported, entry.1 = call.key s.runtime → entry.2 = names
  | .alter _ _ => True
  | .runtime _ => True

/-! ## The invariant of a run -/

/-- What every state of a run satisfies: cached names were reported under their key,
and every answer is the one of the uncached query. -/
structure NamesInv (s : NamesState π δ ρ) : Prop where
  cached : ∀ {key : MetadataCacheKey} {names : List String}, s.cache.peek key = some names →
    (key, names) ∈ s.reported
  answered : ∀ entry ∈ s.answered, entry.2.2 = entry.1.uncached sqlite entry.2.1

variable {sqlite}

/-- A lookup returns the loaded names if the cache has no others for the key. -/
theorem metadataCacheGetOrTryInitForScope_snd {cache : ColnameCache} {scope : MetadataCacheScope}
    {sql : String} {loaded : List String}
    (hcached : ∀ names, cache.peek (metadataCacheKeyForScope scope sql) = some names →
      names = loaded) :
    (metadataCacheGetOrTryInitForScope cache scope sql loaded).2 = loaded := by
  cases hpeek : cache.peek (metadataCacheKeyForScope scope sql) with
  | some names =>
      simp only [metadataCacheGetOrTryInitForScope, hpeek]
      exact hcached names hpeek
  | none => simp only [metadataCacheGetOrTryInitForScope, hpeek]

/-- What a lookup leaves in the cache was there before or was loaded. -/
theorem peek_metadataCacheGetOrTryInitForScope {cache : ColnameCache} {scope : MetadataCacheScope}
    {sql : String} {loaded names : List String} {key : MetadataCacheKey}
    (h : (metadataCacheGetOrTryInitForScope cache scope sql loaded).1.peek key = some names) :
    cache.peek key = some names ∨ (key = metadataCacheKeyForScope scope sql ∧ names = loaded) := by
  cases hpeek : cache.peek (metadataCacheKeyForScope scope sql) with
  | some cached =>
      simp only [metadataCacheGetOrTryInitForScope, hpeek] at h
      exact .inl h
  | none =>
      simp only [metadataCacheGetOrTryInitForScope, hpeek] at h
      by_cases hkey : key = metadataCacheKeyForScope scope sql
      · rw [hkey, LruCache.peek_put_self, Option.some.injEq] at h
        exact .inr ⟨hkey, h.symm⟩
      · exact .inl (LruCache.peek_of_peek_put hkey h)

/-- All cached queries: prepare, look the names up, step. -/
theorem NamesCall.cached_eq (call : NamesCall ρ) (rt : KnowledgeRuntime π) (cache : ColnameCache)
    (conn : δ) :
    call.cached sqlite rt cache conn =
      match sqlite.prepareCached conn call.sql with
      | none => (cache, call.uncached sqlite conn)
      | some loaded =>
          let r := metadataCacheGetOrTryInitForScope cache
            (call.scope.getD rt.currentMetadataScope) call.sql loaded
          (r.1, match call.mode with
            | .many => .rows (stepWith sqlite conn call.sql call.params (collectRows r.2))
            | .firstRow => .row (stepWith sqlite conn call.sql call.params (firstRow r.2))) := by
  obtain ⟨db, scope, sql, params, mode⟩ := call
  cases hprepare : sqlite.prepareCached conn sql <;> cases mode <;> cases scope <;>
    simp only [cached, uncached, queryCached, queryCachedWithScope, queryFirstRowCached,
      queryFirstRowCachedWithScope, queryUncached, queryFirstRow, hprepare] <;> rfl

/-- A cached query that finds no other names than its statement's returns what the
uncached query returns. -/
theorem NamesCall.cached_snd (call : NamesCall ρ) (rt : KnowledgeRuntime π) (cache : ColnameCache)
    (conn : δ)
    (hcached : ∀ loaded, sqlite.prepareCached conn call.sql = some loaded →
      ∀ names, cache.peek (call.key rt) = some names → names = loaded) :
    (call.cached sqlite rt cache conn).2 = call.uncached sqlite conn := by
  rw [cached_eq]
  cases hprepare : sqlite.prepareCached conn call.sql with
  | none => rfl
  | some loaded =>
      have hnames := metadataCacheGetOrTryInitForScope_snd (hcached loaded hprepare)
      simp only [hnames, uncached, queryUncached, queryFirstRow, hprepare]

/-- A query keeps the invariant. -/
theorem NamesInv.query {s : NamesState π δ ρ} (hs : NamesInv sqlite s)
    {call : NamesCall ρ} (hsteady : NamesSteady sqlite s (.query call)) :
    NamesInv sqlite (s.query sqlite call) := by
  constructor
  · intro key names hpeek
    simp only [NamesState.query, NamesCall.cached_eq] at hpeek ⊢
    cases hprepare : sqlite.prepareCached (s.databases call.db) call.sql with
    | none =>
        rw [hprepare] at hpeek
        exact List.mem_append_left _ (hs.cached hpeek)
    | some loaded =>
        rw [hprepare] at hpeek
        rcases peek_metadataCacheGetOrTryInitForScope hpeek with hold | ⟨hkey, hloaded⟩
        · exact List.mem_append_left _ (hs.cached hold)
        · apply List.mem_append_right
          simp [hkey, hloaded, NamesCall.key]
  · intro entry hentry
    rcases List.mem_append.mp hentry with hold | hnew
    · exact hs.answered entry hold
    · rw [List.mem_singleton.mp hnew]
      apply NamesCall.cached_snd
      intro loaded hloaded names hpeek
      exact hsteady loaded hloaded _ (hs.cached hpeek) rfl

/-- In every run of queries on any databases, with any changes of the databases and of
the runtime in between, in which every statement has the columns that were reported
under its key before, each cached query returns what the uncached query returns on the
same connection: the same rows under the same names, or the same error. -/
theorem cached_eq_uncached {actions : List (NamesAction π δ ρ)} {s : NamesState π δ ρ}
    (hrun : (namesMachine sqlite).Run (NamesSteady sqlite) actions s) :
    ∀ entry ∈ s.answered, entry.2.2 = entry.1.uncached sqlite entry.2.1 := by
  have hinv : NamesInv sqlite s := by
    refine hrun.stateInvariant ?_ ?_
    · rintro s ⟨hcache, hreported, hanswered⟩
      refine ⟨fun hpeek => ?_, fun entry hentry => ?_⟩
      · rw [hcache] at hpeek
        simp [ColnameCache.empty] at hpeek
      · rw [hanswered] at hentry
        simp at hentry
    · intro s action s' hs hsteady hstep
      cases action with
      | query call =>
          simp only [namesMachine, Option.some.injEq] at hstep
          rw [← hstep]
          exact hs.query hsteady
      | alter db conn =>
          simp only [namesMachine, Option.some.injEq] at hstep
          rw [← hstep]
          exact ⟨hs.cached, hs.answered⟩
      | runtime rt =>
          simp only [namesMachine, Option.some.injEq] at hstep
          rw [← hstep]
          exact ⟨hs.cached, hs.answered⟩
  exact hinv.answered

end Cached

/-! ## One statement on two databases -/

/-- An engine whose connections are the columns of one table, with one row that
numbers them. -/
def oneTableSqlite : Sqlite (List String) Unit where
  prepareCached columns _ := some columns
  query columns _ _ :=
    some { rows := [columns.zipIdx.map fun (_, i) => .integer (Int64.ofNat i)], failed := false }

/-- Two databases, each with a table of its own columns. -/
def twoTables : NamesState Unit (List String) Unit where
  cache := ColnameCache.empty
  runtime := KnowledgeRuntime.new Unit 1024
  databases db := if db = 0 then ["id"] else ["code", "name"]
  reported := []
  answered := []

/-- All rows of the table of a database. -/
def selectAll (db : Nat) : NamesAction Unit (List String) Unit :=
  .query { db, scope := none, sql := "select * from t", params := (), mode := .many }

/-- The column names in an answer, row by row. -/
def NamesAnswer.columns : NamesAnswer → List (List String)
  | .rows (.ok found) => found.map (List.map DataField.getName)
  | .row (.ok found) => [found.map DataField.getName]
  | .rows (.error _) => []
  | .row (.error _) => []

/-- A repeated query of one database is answered with the cached names. -/
theorem cached_eq_uncached_repeated :
    letI := sipHasher
    ∃ s, (namesMachine oneTableSqlite).Run (NamesSteady oneTableSqlite)
        [selectAll 1, selectAll 1] s ∧
      ∀ entry ∈ s.answered, entry.2.2 = entry.1.uncached oneTableSqlite entry.2.1 := by
  let _ := sipHasher
  have h₀ : (namesMachine oneTableSqlite).Run (NamesSteady oneTableSqlite) [] twoTables :=
    .start ⟨rfl, rfl, rfl⟩
  have h₁ := h₀.snoc (a := selectAll 1) (by intro names _ entry hentry; cases hentry) rfl
  have h₂ := h₁.snoc (a := selectAll 1)
    (by
      intro names hnames entry hentry _
      rw [List.mem_singleton.mp hentry]
      exact Option.some.inj hnames)
    rfl
  exact ⟨_, h₂, cached_eq_uncached h₂⟩

/-- After a query of the first database the same statement on the second returns one
column under the name of the first database's column, in place of two. -/
theorem cached_names_of_other_database :
    letI := sipHasher
    ∃ s, (namesMachine oneTableSqlite).Run Machine.Unguarded [selectAll 0, selectAll 1] s ∧
      ∃ entry ∈ s.answered, entry.2.2.columns = [["id"]] ∧
        (entry.1.uncached oneTableSqlite entry.2.1).columns = [["code", "name"]] ∧
        entry.2.2 ≠ entry.1.uncached oneTableSqlite entry.2.1 := by
  let _ := sipHasher
  have hexec : ((namesMachine oneTableSqlite).exec Machine.Unguarded twoTables
      [selectAll 0, selectAll 1]).any (fun s => s.answered.any fun entry =>
        decide (entry.2.2.columns = [["id"]]) &&
          decide ((entry.1.uncached oneTableSqlite entry.2.1).columns = [["code", "name"]])) =
      true := by
    decide +kernel
  have hinit : (namesMachine oneTableSqlite).init twoTables := ⟨rfl, rfl, rfl⟩
  obtain ⟨s, hrun, hany⟩ := Machine.exists_run_of_exec_any hinit hexec
  obtain ⟨entry, hentry, hcolumns⟩ := List.any_eq_true.mp hany
  rw [Bool.and_eq_true, decide_eq_true_eq, decide_eq_true_eq] at hcolumns
  refine ⟨s, hrun, entry, hentry, hcolumns.1, hcolumns.2, ?_⟩
  intro hsame
  rw [← hsame, hcolumns.1] at hcolumns
  simp at hcolumns

end WpKnowledge
