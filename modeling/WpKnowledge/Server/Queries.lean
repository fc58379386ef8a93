import WpKnowledge.Foundation.TaskPool
import WpKnowledge.Mem.ColumnNames
import WpKnowledge.Server.Decode
import WpKnowledge.Sql.Scanners

/-!
# Queries of database servers

The query functions of the PostgreSQL and the MySQL provider ({lit}`execute_query` and its
siblings): a statement is rewritten and sent; the column names of its rows are looked up in
the process-wide cache, and the server is asked to describe the statement if it has sent no
row and no names are cached; then the rows are decoded under the names.

Any number of queries of any providers run at the same time over the one cache.  Reading
the cache, storing names in it and each answer of a server are steps of their own.  What a
server answers comes with the step, so that nothing is assumed of it.

The cache knows a statement by its hash.  The history has the statement itself and its
scope, beside the names that a server reported for it.

Main results:

- Theorem {lit}`ServerCall.decode_eq_rename`: column names only rename a response.
- Theorem {lit}`answered_of_run`: in every run in which no two statements have one hash,
  what a query returns for the rows of the server are all their values, as if nothing were
  cached, under names that were reported for its statement in its scope; and under their
  own names if no others were reported.
-/

namespace WpKnowledge

open Foundation

/-! ## One query -/

/-- The two kinds of servers. -/
inductive ServerKind where
  | postgres
  | mysql
deriving DecidableEq, Repr

namespace ServerKind

/-- `map_row`. -/
def mapRow : ServerKind → ServerRow → List String → KnowledgeResult RowData
  | postgres => Postgres.mapRow
  | mysql => Mysql.mapRow

/-- `rewrite_sql`, whose text is what is sent. -/
def rewriteText (sql : String) (params : List DataField) : ServerKind → KnowledgeResult String
  | postgres => (Postgres.rewriteSql sql params).map Prod.fst
  | mysql => (Mysql.rewriteSql sql params).map Prod.fst

/-- The name of the kind in its errors. -/
def errorName : ServerKind → String
  | postgres => "postgres"
  | mysql => "mysql"

/-- The error of a statement that fails. -/
def queryErr (kind : ServerKind) (action err : String) : KnowledgeError :=
  { reason := .ruleError, detail := kind.errorName ++ " " ++ action ++ " failed: " ++ err }

/-- The error of a description that fails. -/
def describeErr (kind : ServerKind) (err : String) : KnowledgeError :=
  { reason := .ruleError, detail := kind.errorName ++ " describe failed: " ++ err }

end ServerKind

/-- A call of one of the query functions of a provider: with parameters or without, for all
rows or the first. -/
structure ServerCall where
  kind : ServerKind
  scope : MetadataCacheScope
  sql : String
  params : Option (List DataField)
  mode : QueryMode

namespace ServerCall

variable (call : ServerCall)

/-- The name of the function in its errors. -/
def action : String :=
  match call.params, call.mode with
  | none, .many => "query"
  | none, .firstRow => "query_row"
  | some _, .many => "query_fields"
  | some _, .firstRow => "query_named_fields"

/-- The statement that is sent. -/
def execSql : KnowledgeResult String :=
  match call.params with
  | none => .ok call.sql
  | some params => call.kind.rewriteText call.sql params

/-- What the names of the columns are cached under: the statement as it was given. -/
def key [DefaultHasher] : MetadataCacheKey :=
  metadataCacheKeyForScope call.scope call.sql

/-- The rows that are fetched: all of them, or the first. -/
def fetched (rows : List ServerRow) : List ServerRow :=
  match call.mode with
  | .many => rows
  | .firstRow => rows.take 1

/-- The rows decoded, each under the names that a function of the row gives. -/
def decodeWith (names : ServerRow → List String) (rows : List ServerRow) :
    KnowledgeResult QueryResponse :=
  match call.mode with
  | .many => (rows.mapM fun row => call.kind.mapRow row (names row)).map .rows
  | .firstRow =>
      match rows with
      | row :: _ => (call.kind.mapRow row (names row)).map .row
      | [] => .ok (.row [])

/-- The rows decoded under the names of the columns. -/
def decode (rows : List ServerRow) (colNames : List String) : KnowledgeResult QueryResponse :=
  call.decodeWith (fun _ => colNames) rows

end ServerCall

/-- The column names of a row. -/
def ServerRow.colNames (row : ServerRow) : List String :=
  row.map Cell.columnName

/-- Where a query stands. -/
inductive ServerPhase where
  | fetch
  /-- The rows are there, before the cache is read. -/
  | lookup (rows : List ServerRow)
  /-- There are neither rows nor cached names. -/
  | describe
  /-- Names have been loaded, before they are put into the cache. -/
  | store (rows : List ServerRow) (colNames : List String)

/-- A query under way, or one that has returned. -/
inductive ServerTask where
  | running (call : ServerCall) (phase : ServerPhase)
  | done (result : KnowledgeResult QueryResponse)

/-- What a server answers in a step, where it is asked. -/
structure ServerInput where
  rows : Except String (List ServerRow)
  description : Except String (List String)

/-- What happened: names were loaded for a statement in a scope, or a query returned, for
the rows that were fetched if any were. -/
inductive ServerEvent where
  | reported (scope : MetadataCacheScope) (sql : String) (colNames : List String)
  | answered (call : ServerCall) (rows : Option (List ServerRow))
      (result : KnowledgeResult QueryResponse)

section Steps

variable [DefaultHasher]

/-- The end of a query: the rows are decoded under the names. -/
def ServerCall.finish (call : ServerCall) (cache : ColnameCache) (rows : List ServerRow)
    (colNames : List String) : ColnameCache × ServerTask × Option ServerEvent :=
  let result := call.decode rows colNames
  (cache, .done result, some (.answered call (some rows) result))

/-- The end of a query that fails before its rows are decoded. -/
def ServerCall.fail (call : ServerCall) (cache : ColnameCache) (rows : Option (List ServerRow))
    (err : KnowledgeError) : ColnameCache × ServerTask × Option ServerEvent :=
  (cache, .done (.error err), some (.answered call rows (.error err)))

/-- One step of a query. -/
def ServerTask.step (cache : ColnameCache) (task : ServerTask) (input : ServerInput) :
    Option (ColnameCache × ServerTask × Option ServerEvent) :=
  match task with
  | .done _ => none
  | .running call .fetch =>
      match call.execSql, input.rows with
      | .error err, _ => some (call.fail cache none err)
      | .ok _, .error err => some (call.fail cache none (call.kind.queryErr call.action err))
      | .ok _, .ok rows => some (cache, .running call (.lookup (call.fetched rows)), none)
  | .running call (.lookup rows) =>
      match cache.peek call.key, rows with
      | some colNames, _ => some (call.finish cache rows colNames)
      | none, row :: _ =>
          some (cache, .running call (.store rows row.colNames),
            some (.reported call.scope call.sql row.colNames))
      | none, [] => some (cache, .running call .describe, none)
  | .running call .describe =>
      match input.description with
      | .error err => some (call.fail cache (some []) (call.kind.describeErr err))
      | .ok colNames =>
          some (cache, .running call (.store [] colNames),
            some (.reported call.scope call.sql colNames))
  | .running call (.store rows colNames) =>
      some (call.finish (cache.put call.key colNames) rows colNames)

/-- Any number of queries over one cache. -/
def serverTasks : TaskSystem ColnameCache ServerTask ServerEvent ServerCall ServerInput Unit where
  start call := .running call .fetch
  step _ := ServerTask.step
  env cache _ := cache

/-- The cache of a new process, then any queries. -/
def serverMachine : Machine (Pool ColnameCache ServerTask ServerEvent)
    (PoolAction ServerCall ServerInput Unit) :=
  serverTasks.machine fun cache => cache = ColnameCache.empty

end Steps

/-! ## Names only rename -/

/-- A response with other names. -/
def QueryResponse.rename (colNames : List String) : QueryResponse → QueryResponse
  | .rows rs => .rows (rs.map (WpKnowledge.rename colNames))
  | .row r => .row (WpKnowledge.rename colNames r)

/-- Column names only rename a row. -/
theorem ServerKind.mapRow_eq_rename (kind : ServerKind) (row : ServerRow) (colNames : List String) :
    kind.mapRow row colNames = (kind.mapRow row []).map (rename colNames) := by
  cases kind with
  | postgres =>
      have hvalue : Postgres.mapValue = _ := funext₂ Postgres.mapValue_eq
      simp only [mapRow, Postgres.mapRow, hvalue]
      exact mapRowWith_names _ _ _ row colNames
  | mysql =>
      have hvalue : Mysql.mapValue = _ := funext₂ Mysql.mapValue_eq
      simp only [mapRow, Mysql.mapRow, hvalue]
      exact mapRowWith_names _ _ _ row colNames

/-- Column names only rename a response. -/
theorem ServerCall.decode_eq_rename (call : ServerCall) (rows : List ServerRow)
    (colNames : List String) :
    call.decode rows colNames = (call.decode rows []).map (QueryResponse.rename colNames) := by
  unfold decode decodeWith
  cases call.mode with
  | many =>
      dsimp only
      have hrows : rows.mapM (fun row => call.kind.mapRow row colNames) =
          (rows.mapM fun row => call.kind.mapRow row []).map (List.map (rename colNames)) := by
        rw [← mapM_map_eq]
        exact mapM_congr fun row _ => call.kind.mapRow_eq_rename row colNames
      rw [hrows]
      cases rows.mapM fun row => call.kind.mapRow row [] <;> rfl
  | firstRow =>
      cases rows with
      | nil => rfl
      | cons row rows =>
          dsimp only
          rw [call.kind.mapRow_eq_rename row colNames]
          cases call.kind.mapRow row [] <;> rfl

/-- The names of its own columns are the names a row has without any. -/
theorem mapRowWith_colNames (mapValue : Cell → String → KnowledgeResult DataField)
    (row : ServerRow) : mapRowWith mapValue row row.colNames = mapRowWith mapValue row [] := by
  unfold mapRowWith
  refine mapM_congr fun ⟨cell, idx⟩ hmem => ?_
  have hcell : row[idx]? = some cell := List.mem_zipIdx_iff_getElem?.mp hmem
  have hname : row.colNames[idx]? = some cell.columnName := by
    rw [ServerRow.colNames, List.getElem?_map, hcell]
    rfl
  dsimp only
  rw [hname]
  rfl

/-- Under the names of the rows a response is decoded as without any. -/
theorem ServerCall.decode_of_colNames {call : ServerCall} {rows : List ServerRow}
    {colNames : List String} (h : ∀ row ∈ rows, row.colNames = colNames) :
    call.decode rows colNames = call.decode rows [] := by
  have hrow : ∀ row ∈ rows, call.kind.mapRow row colNames = call.kind.mapRow row [] := by
    intro row hrow
    rw [← h row hrow]
    cases call.kind <;> exact mapRowWith_colNames _ row
  unfold decode decodeWith
  cases call.mode with
  | many =>
      dsimp only
      rw [mapM_congr hrow]
  | firstRow =>
      cases rows with
      | nil => rfl
      | cons row rows =>
          dsimp only
          rw [hrow row List.mem_cons_self]

/-! ## Every run -/

section Runs

variable [DefaultHasher]

/-- Names were reported for a statement with the key. -/
def ReportedUnder (log : List ServerEvent) (key : MetadataCacheKey) (colNames : List String) :
    Prop :=
  ∃ scope sql, .reported scope sql colNames ∈ log ∧ metadataCacheKeyForScope scope sql = key

/-- What a query may return for the rows it has fetched: the rows under names that were
reported for a statement with its key, or the error of a description that fails. -/
def Answers (log : List ServerEvent) (call : ServerCall) (rows : List ServerRow)
    (result : KnowledgeResult QueryResponse) : Prop :=
  (∃ colNames, ReportedUnder log call.key colNames ∧ result = call.decode rows colNames) ∨
    (rows = [] ∧ ∃ err, result = .error (call.kind.describeErr err))

/-- What holds of the cache and the history: cached names were reported for their key, and
every answer is one that a query may return. -/
structure ServerSound (cache : ColnameCache) (log : List ServerEvent) : Prop where
  cached : ∀ {key : MetadataCacheKey} {colNames : List String},
    cache.peek key = some colNames → ReportedUnder log key colNames
  answered : ∀ {call : ServerCall} {rows : List ServerRow}
    {result : KnowledgeResult QueryResponse},
    .answered call (some rows) result ∈ log → Answers log call rows result

/-- What holds of a query: the names it is about to store were reported for its key. -/
def StoresReported (log : List ServerEvent) : ServerTask → Prop
  | .running call (.store _ colNames) => ReportedUnder log call.key colNames
  | _ => True

theorem ReportedUnder.append {log : List ServerEvent} {key : MetadataCacheKey}
    {colNames : List String} (h : ReportedUnder log key colNames) (es : List ServerEvent) :
    ReportedUnder (es ++ log) key colNames := by
  obtain ⟨scope, sql, hreported, hkey⟩ := h
  exact ⟨scope, sql, List.mem_append_right es hreported, hkey⟩

theorem ReportedUnder.here (log : List ServerEvent) (call : ServerCall)
    (colNames : List String) :
    ReportedUnder (.reported call.scope call.sql colNames :: log) call.key colNames :=
  ⟨call.scope, call.sql, List.mem_cons_self, rfl⟩

theorem Answers.cons {log : List ServerEvent} {call : ServerCall} {rows : List ServerRow}
    {result : KnowledgeResult QueryResponse} (h : Answers log call rows result)
    (e : ServerEvent) : Answers (e :: log) call rows result := by
  rcases h with ⟨colNames, hreported, hresult⟩ | hfailed
  · exact .inl ⟨colNames, hreported.append [e], hresult⟩
  · exact .inr hfailed

theorem StoresReported.append {log : List ServerEvent} {task : ServerTask}
    (h : StoresReported log task) (es : List ServerEvent) : StoresReported (es ++ log) task := by
  cases task with
  | done result => trivial
  | running call phase =>
      cases phase with
      | store rows colNames => exact ReportedUnder.append h es
      | _ => trivial

/-- An answer that a query may return keeps the history sound. -/
theorem ServerSound.answer {cache : ColnameCache} {log : List ServerEvent}
    (h : ServerSound cache log) {call : ServerCall} {rows : Option (List ServerRow)}
    {result : KnowledgeResult QueryResponse}
    (hanswer : ∀ fetched, rows = some fetched → Answers log call fetched result) :
    ServerSound cache (.answered call rows result :: log) := by
  refine ⟨fun hpeek => (h.cached hpeek).append [_], fun hmem => ?_⟩
  rcases List.mem_cons.mp hmem with heq | hold
  · cases heq
    exact (hanswer _ rfl).cons _
  · exact (h.answered hold).cons _

/-- Loading names keeps it. -/
theorem ServerSound.report {cache : ColnameCache} {log : List ServerEvent}
    (h : ServerSound cache log) (scope : MetadataCacheScope) (sql : String)
    (colNames : List String) : ServerSound cache (.reported scope sql colNames :: log) := by
  refine ⟨fun hpeek => (h.cached hpeek).append [_], fun hmem => ?_⟩
  rcases List.mem_cons.mp hmem with heq | hold
  · cases heq
  · exact (h.answered hold).cons _

/-- Storing names that were reported keeps it. -/
theorem ServerSound.put {cache : ColnameCache} {log : List ServerEvent}
    (h : ServerSound cache log) {key : MetadataCacheKey} {colNames : List String}
    (hreported : ReportedUnder log key colNames) : ServerSound (cache.put key colNames) log := by
  refine ⟨fun {key'} {colNames'} hpeek => ?_, h.answered⟩
  by_cases hkey : key' = key
  · subst hkey
    rw [LruCache.peek_put_self, Option.some.injEq] at hpeek
    exact hpeek ▸ hreported
  · exact h.cached (LruCache.peek_of_peek_put hkey hpeek)

/-- Decoding under reported names keeps it. -/
theorem ServerSound.finish {cache : ColnameCache} {log : List ServerEvent}
    (h : ServerSound cache log) {call : ServerCall} {colNames : List String}
    (hreported : ReportedUnder log call.key colNames) (rows : List ServerRow) :
    ServerSound cache (.answered call (some rows) (call.decode rows colNames) :: log) :=
  h.answer fun _ hfetched => by
    cases hfetched
    exact .inl ⟨colNames, hreported, rfl⟩

/-- One step of one query keeps the cache and the history sound. -/
theorem ServerTask.step_sound {cache cache' : ColnameCache} {log : List ServerEvent}
    {task task' : ServerTask} {input : ServerInput} {e : Option ServerEvent}
    (hsound : ServerSound cache log) (htask : StoresReported log task)
    (h : task.step cache input = some (cache', task', e)) :
    ServerSound cache' (e.toList ++ log) ∧ StoresReported (e.toList ++ log) task' := by
  cases task with
  | done result => cases h
  | running call phase =>
      cases phase with
      | fetch =>
          dsimp only [step] at h
          split at h
          · cases h
            exact ⟨hsound.answer fun _ hnone => (by cases hnone), trivial⟩
          · cases h
            exact ⟨hsound.answer fun _ hnone => (by cases hnone), trivial⟩
          · cases h
            exact ⟨hsound, trivial⟩
      | lookup rows =>
          dsimp only [step] at h
          split at h
          · rename_i colNames hpeek
            cases h
            exact ⟨hsound.finish (hsound.cached hpeek) _, trivial⟩
          · cases h
            exact ⟨hsound.report _ _ _, .here log call _⟩
          · cases h
            exact ⟨hsound, trivial⟩
      | describe =>
          dsimp only [step] at h
          split at h
          · rename_i err hdescription
            cases h
            refine ⟨hsound.answer fun _ hfetched => ?_, trivial⟩
            cases hfetched
            exact .inr ⟨rfl, err, rfl⟩
          · cases h
            exact ⟨hsound.report _ _ _, .here log call _⟩
      | store rows colNames =>
          cases h
          exact ⟨(hsound.put htask).finish htask rows, trivial⟩

/-- The cache and the history are sound in every run. -/
theorem serverSound_of_run {actions : List (PoolAction ServerCall ServerInput Unit)}
    {s : Pool ColnameCache ServerTask ServerEvent}
    (hrun : serverMachine.Run Machine.Unguarded actions s) : ServerSound s.shared s.log := by
  have hholds : s.Holds (fun _ cache log => ServerSound cache log)
      (fun _ task _ log => StoresReported log task) := by
    refine Pool.pool_invariant ?_ ?_ ?_ ?_ hrun
    · rintro cache rfl
      exact ⟨fun {key} {colNames} hpeek => (by cases hpeek),
        fun {call} {rows} {result} hmem => (by cases hmem)⟩
    · intro s call hs _
      exact ⟨hs.global, trivial⟩
    · intro s d hs _
      exact ⟨hs.global, fun j task htask => hs.tasks htask⟩
    · intro s tid input task cache task' e hs _ htask hstep
      obtain ⟨hsound, hstores⟩ := ServerTask.step_sound hs.global (hs.tasks htask) hstep
      exact ⟨hsound, hstores, fun j other _ hother => (hs.tasks hother).append _⟩
  exact hholds.global

/-- The statement an event is about. -/
def ServerEvent.sql : ServerEvent → String
  | .reported _ sql _ => sql
  | .answered call _ _ => call.sql

/-- No two of the statements in the history have one hash. -/
def StatementsApart (log : List ServerEvent) : Prop :=
  ∀ e ∈ log, ∀ e' ∈ log, stableHash e.sql = stableHash e'.sql → e.sql = e'.sql

instance (log : List ServerEvent) : Decidable (StatementsApart log) :=
  inferInstanceAs (Decidable (∀ e ∈ log, ∀ e' ∈ log,
    stableHash e.sql = stableHash e'.sql → e.sql = e'.sql))

/-- Statements that have the same key are the same, in the same scope. -/
theorem StatementsApart.reported {log : List ServerEvent} (hapart : StatementsApart log)
    {call : ServerCall} {rows : Option (List ServerRow)} {result : KnowledgeResult QueryResponse}
    (hcall : .answered call rows result ∈ log) {colNames : List String}
    (h : ReportedUnder log call.key colNames) :
    .reported call.scope call.sql colNames ∈ log := by
  obtain ⟨scope, sql, hreported, hkey⟩ := h
  obtain ⟨hdatasource, hgeneration, hhash⟩ := MetadataCacheKey.mk.inj hkey
  obtain rfl : sql = call.sql := hapart _ hreported _ hcall hhash
  obtain rfl : scope = call.scope := by
    cases scope
    cases hscope : call.scope
    rw [hscope] at hdatasource hgeneration
    exact congrArg₂ MetadataCacheScope.mk hdatasource hgeneration
  exact hreported

/-- **What a query of a server returns.**  In every run of any queries of any providers,
whatever the servers answer, in which no two statements have one hash: a query that has
fetched rows returns what it would return if nothing were cached, all values of all rows or
the error of the first that cannot be decoded, renamed with column names that were reported
for the same statement in the same scope; with no other names if all names reported there
are those of its rows.  Only if there are no rows, the error of the description may take
the place of the empty result. -/
theorem answered_of_run {actions : List (PoolAction ServerCall ServerInput Unit)}
    {s : Pool ColnameCache ServerTask ServerEvent}
    (hrun : serverMachine.Run Machine.Unguarded actions s) (hapart : StatementsApart s.log)
    {call : ServerCall} {rows : List ServerRow} {result : KnowledgeResult QueryResponse}
    (h : .answered call (some rows) result ∈ s.log) :
    (rows = [] ∧ ∃ err, result = .error (call.kind.describeErr err)) ∨
      ((∃ colNames, .reported call.scope call.sql colNames ∈ s.log ∧
          result = (call.decode rows []).map (QueryResponse.rename colNames)) ∧
        ((∀ colNames, .reported call.scope call.sql colNames ∈ s.log →
            ∀ row ∈ rows, row.colNames = colNames) → result = call.decode rows [])) := by
  rcases (serverSound_of_run hrun).answered h with ⟨colNames, hunder, hresult⟩ | hfailed
  · have hreported := hapart.reported h hunder
    refine .inr ⟨⟨colNames, hreported, ?_⟩, fun hnames => ?_⟩
    · rw [hresult, call.decode_eq_rename]
    · rw [hresult, ServerCall.decode_of_colNames (hnames colNames hreported)]
  · exact .inl hfailed

end Runs

/-! ## A table that gets a column -/

/-- A statement for all its rows. -/
def selectRows (sql : String) : ServerCall where
  kind := .postgres
  scope := { datasourceId := ⟨"postgres:demo"⟩, generation := 1 }
  sql := sql
  params := none
  mode := .many

/-- A server that sends the rows given. -/
def sends (rows : List ServerRow) : ServerInput where
  rows := .ok rows
  description := .error "not asked"

/-- A row of a table with one column. -/
def narrowRow : ServerRow := [.holding "id" "INT8" .i64 1]

/-- A row of the table when its column has been renamed and another been added. -/
def wideRow : ServerRow := [.holding "code" "INT8" .i64 1, .holding "name" "TEXT" .string "x"]

/-- The names of the fields in a response, row by row. -/
def responseNames : KnowledgeResult QueryResponse → List (List String)
  | .ok (.rows rs) => rs.map (List.map DataField.getName)
  | .ok (.row r) => [r.map DataField.getName]
  | .error _ => []

/-- A statement has returned rows with the names given. -/
def ServerEvent.hasNames (sql : String) (names : List (List String)) : ServerEvent → Bool
  | .answered call (some _) result => decide (call.sql = sql ∧ responseNames result = names)
  | _ => false

/-- A statement before the table is changed, and after it; in between another one, for the
columns by their names. -/
def queryTwice : List (PoolAction ServerCall ServerInput Unit) :=
  [.spawn (selectRows "SELECT * FROM t"), .run 0 (sends [narrowRow]), .run 0 (sends []),
    .run 0 (sends []),
    .spawn (selectRows "SELECT code, name FROM t"), .run 1 (sends [wideRow]), .run 1 (sends []),
    .run 1 (sends []),
    .spawn (selectRows "SELECT * FROM t"), .run 2 (sends [wideRow]), .run 2 (sends [])]

/-- After the change both values are returned, the first under its former name. -/
theorem answered_of_run_altered :
    letI := sipHasher
    ∃ s, serverMachine.Run Machine.Unguarded queryTwice s ∧ StatementsApart s.log ∧
      ∃ call rows result, .answered call (some rows) result ∈ s.log ∧
        call.sql = "SELECT * FROM t" ∧ responseNames result = [["id", "name"]] ∧
        ∃ colNames, .reported call.scope "SELECT * FROM t" colNames ∈ s.log ∧
          result = (call.decode rows []).map (QueryResponse.rename colNames) := by
  let _ := sipHasher
  have hinit : serverMachine.init ⟨ColnameCache.empty, [], []⟩ := ⟨rfl, rfl, rfl⟩
  have hexec : (serverMachine.exec Machine.Unguarded ⟨ColnameCache.empty, [], []⟩ queryTwice).any
      (fun s => decide (StatementsApart s.log) &&
        s.log.any (ServerEvent.hasNames "SELECT * FROM t" [["id", "name"]])) = true := by
    decide +kernel
  obtain ⟨s, hrun, hend⟩ := Machine.exists_run_of_exec_any hinit hexec
  obtain ⟨hapart, hany⟩ := Bool.and_eq_true_iff.mp hend
  obtain ⟨e, he, hnames⟩ := List.any_eq_true.mp hany
  unfold ServerEvent.hasNames at hnames
  split at hnames
  · rename_i call rows result
    obtain ⟨hsql, hresult⟩ := of_decide_eq_true hnames
    refine ⟨s, hrun, of_decide_eq_true hapart, call, rows, result, he, hsql, hresult, ?_⟩
    rcases answered_of_run hrun (of_decide_eq_true hapart) he with
      ⟨-, err, rfl⟩ | ⟨⟨colNames, hreported, hrenamed⟩, -⟩
    · cases hresult
    · exact ⟨colNames, hsql ▸ hreported, hrenamed⟩
  · cases hnames

end WpKnowledge
