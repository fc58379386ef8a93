import WpKnowledge.Loader.LoadTable
import WpKnowledge.Model.Hash
import WpKnowledge.Redis.Lookup

/-!
# The settings of a process

A KnowDB configuration (`src/loader.rs`) declares tables to load, or SQL databases or a
Redis server to use in their place, the size of the caches and the services of `[fun]`.
The tables are the part of {lit}`Loader.KnowDbConf`; here are the others, the check of the
declared databases, and what a provider is built with (`src/pool_config.rs`,
`src/postgres.rs`, `src/mysql.rs`).

Main results:

- Theorem {lit}`validateSpecs_ok`: databases that pass the check have different names, and
  the check returns them.
-/

namespace WpKnowledge

/-- The name of a database that is declared without one. -/
def defaultSqldbName : String := "default"

namespace Loader

/-! ## The configuration -/

/-- How PostgreSQL plans prepared statements. -/
inductive PlanCacheMode where
  | auto
  | forceGenericPlan
  | forceCustomPlan
deriving DecidableEq, Repr

/-- The value PostgreSQL knows a mode by. -/
def PlanCacheMode.toSqlValue : PlanCacheMode → String
  | .auto => "auto"
  | .forceGenericPlan => "force_generic_plan"
  | .forceCustomPlan => "force_custom_plan"

/-- What to set on every new connection to PostgreSQL. -/
structure PostgresSessionSpec where
  planCacheMode : Option PlanCacheMode := none
  jit : Option Bool := none
  applicationName : Option String := none
deriving DecidableEq, Repr

/-- The databases a provider may be declared for. -/
inductive SqlProviderKind where
  | postgres
  | mysql
deriving DecidableEq, Repr

/-- A `[provider.sqldb]` section. -/
structure SqlProviderSpec where
  name : Option String := none
  kind : SqlProviderKind
  connectionUri : String
  poolSize : Option Nat := none
  minConnections : Option Nat := none
  acquireTimeoutMs : Option Nat := none
  idleTimeoutMs : Option Nat := none
  maxLifetimeMs : Option Nat := none
  postgresSession : Option PostgresSessionSpec := none
deriving DecidableEq, Repr

/-- A `[provider.redis]` section. -/
structure RedisProviderSpec where
  connectionUri : String
  poolSize : Option Nat := none
  connectTimeoutMs : Nat := 3000
  commandTimeoutMs : Nat := 100
deriving DecidableEq, Repr

/-- The `[provider]` sections. -/
structure ProviderConfig where
  sqldb : Option (List SqlProviderSpec) := none
  redis : Option RedisProviderSpec := none
deriving DecidableEq, Repr

/-- The `[cache]` section. -/
structure CacheSpec where
  enabled : Bool := true
  capacity : Nat := 1024
  ttlMs : Nat := 30000
deriving DecidableEq, Repr

/-- A whole configuration. -/
structure Settings extends KnowDbConf where
  cache : CacheSpec := {}
  funMap : HashMap String FunSpec := ∅
  provider : Option ProviderConfig := none

namespace SqlProviderSpec

/-- The name a database is registered under. -/
def effectiveName (spec : SqlProviderSpec) : String :=
  spec.name.getD defaultSqldbName

/-- A control character. -/
def isControl (c : Char) : Bool :=
  c.toNat < 32 || (127 ≤ c.toNat && c.toNat ≤ 159)

/-- The check of the session settings of a database. -/
def validateSession (spec : SqlProviderSpec) : KnowledgeResult Unit :=
  match spec.postgresSession with
  | none => .ok ()
  | some session =>
      if spec.kind ≠ .postgres then
        .error (confError ("provider '" ++ spec.effectiveName ++
          "': postgres_session is only valid for kind = \"postgres\""))
      else if session.applicationName.any fun app =>
          63 < app.utf8ByteSize || app.toList.any isControl then
        .error (confError ("provider '" ++ spec.effectiveName ++
          "': postgres_session.application_name invalid (≤ 63 bytes, no control characters)"))
      else .ok ()

/-- The checks of one database after those of the databases before it, whose names are
given; the names with its own. -/
def validateSpec (seen : List String) (spec : SqlProviderSpec) : KnowledgeResult (List String) :=
  if spec.effectiveName.toList.all fun c => c.isAlphanum || c == '_' then
    if spec.effectiveName ∈ seen then
      .error (confError ("duplicate sqldb provider name '" ++ spec.effectiveName ++ "'"))
    else (spec.validateSession).map fun _ => spec.effectiveName :: seen
  else
    .error (confError ("invalid sqldb provider name '" ++ spec.effectiveName ++
      "' (allowed [A-Za-z0-9_])"))

/-- The check of the declared databases; their names. -/
def validateSpecs (specs : List SqlProviderSpec) : KnowledgeResult (List String) :=
  specs.foldlM validateSpec []

theorem validateSpec_ok {seen seen' : List String} {spec : SqlProviderSpec}
    (h : validateSpec seen spec = .ok seen') :
    spec.effectiveName ∉ seen ∧ seen' = spec.effectiveName :: seen := by
  unfold validateSpec at h
  split at h
  · split at h
    · cases h
    · rename_i hseen
      cases hsession : spec.validateSession with
      | error err =>
          rw [hsession] at h
          cases h
      | ok u =>
          rw [hsession] at h
          exact ⟨hseen, (Except.ok.inj h).symm⟩
  · cases h

/-- Databases that pass the check have different names, and these are returned. -/
theorem validateSpecs_ok {specs : List SqlProviderSpec} {names : List String}
    (h : validateSpecs specs = .ok names) :
    (specs.map effectiveName).Nodup ∧
      ∀ name, name ∈ names ↔ name ∈ specs.map effectiveName := by
  -- the names seen so far are kept apart from those still to come
  have hfold : ∀ (specs : List SqlProviderSpec) (seen names : List String),
      specs.foldlM validateSpec seen = .ok names →
        (specs.map effectiveName).Nodup ∧ (∀ name ∈ seen, name ∉ specs.map effectiveName) ∧
          ∀ name, name ∈ names ↔ name ∈ seen ∨ name ∈ specs.map effectiveName := by
    intro specs
    induction specs with
    | nil =>
        intro seen names h
        cases h
        simp
    | cons spec specs ih =>
        intro seen names h
        rw [List.foldlM_cons] at h
        cases hspec : validateSpec seen spec with
        | error err =>
            rw [hspec] at h
            cases h
        | ok seen' =>
            rw [hspec] at h
            obtain ⟨hnew, rfl⟩ := validateSpec_ok hspec
            obtain ⟨hnodup, hapart, hnames⟩ := ih _ names h
            rw [List.map_cons, List.nodup_cons]
            refine ⟨⟨hapart _ List.mem_cons_self, hnodup⟩, ?_, ?_⟩
            · intro name hseen
              rw [List.mem_cons, not_or]
              refine ⟨?_, hapart name (List.mem_cons_of_mem _ hseen)⟩
              rintro rfl
              exact hnew hseen
            · intro name
              rw [hnames, List.mem_cons, List.mem_cons]
              tauto
  obtain ⟨hnodup, -, hnames⟩ := hfold specs [] names h
  exact ⟨hnodup, by simpa using hnames⟩

end SqlProviderSpec

end Loader

/-! ## What a provider is built with -/

/-- The settings of a connection pool. -/
structure CommonPoolConfig where
  poolSize : Nat := 8
  minConnections : Nat := 0
  acquireTimeout : Duration := Duration.fromMillis 10000
  idleTimeout : Option Duration := some (Duration.fromMillis 60000)
  maxLifetime : Option Duration := none
deriving DecidableEq, Repr

namespace CommonPoolConfig

variable (config : CommonPoolConfig)

/-- Set the size, if it is given and positive. -/
def withPoolSize (poolSize : Option Nat) : CommonPoolConfig :=
  match poolSize.filter (0 < ·) with
  | some size => { config with poolSize := size, minConnections := min config.minConnections size }
  | none => config

/-- Set the least number of connections, at most the size. -/
def withMinConnections (minConnections : Option Nat) : CommonPoolConfig :=
  match minConnections with
  | some n => { config with minConnections := min n config.poolSize }
  | none => config

/-- Set the time to wait for a connection, if it is given and positive. -/
def withAcquireTimeoutMs (timeoutMs : Option Nat) : CommonPoolConfig :=
  match timeoutMs.filter (0 < ·) with
  | some ms => { config with acquireTimeout := Duration.fromMillis ms }
  | none => config

/-- A time limit of zero is none. -/
def timeLimit (timeoutMs : Nat) : Option Duration :=
  if timeoutMs = 0 then none else some (Duration.fromMillis timeoutMs)

/-- Set how long a connection may be idle. -/
def withIdleTimeoutMs (timeoutMs : Option Nat) : CommonPoolConfig :=
  match timeoutMs with
  | some ms => { config with idleTimeout := timeLimit ms }
  | none => config

/-- Set how long a connection may last. -/
def withMaxLifetimeMs (timeoutMs : Option Nat) : CommonPoolConfig :=
  match timeoutMs with
  | some ms => { config with maxLifetime := timeLimit ms }
  | none => config

/-- The pool settings of a database. -/
def ofSpec (spec : Loader.SqlProviderSpec) : CommonPoolConfig :=
  ((((({} : CommonPoolConfig).withPoolSize spec.poolSize).withMinConnections
    spec.minConnections).withAcquireTimeoutMs spec.acquireTimeoutMs).withIdleTimeoutMs
    spec.idleTimeoutMs).withMaxLifetimeMs spec.maxLifetimeMs

end CommonPoolConfig

/-- The parameters of PostgreSQL that are set. -/
inductive PgParam where
  | planCacheMode
  | jit
  | applicationName
deriving DecidableEq, Repr

/-- The statements for a new connection and the values they should lead to. -/
structure PostgresSessionConfig where
  initStatements : List String
  expectations : List (PgParam × String)
deriving DecidableEq, Repr

/-- A statement that sets a parameter, and the value. -/
def PostgresSessionConfig.setting (param : PgParam) (statement : String → String)
    (value : Option String) : PostgresSessionConfig where
  initStatements := (value.map statement).toList
  expectations := (value.map (param, ·)).toList

/-- The session settings, in the order of the source. -/
def PostgresSessionConfig.fromSpec (spec : Loader.PostgresSessionSpec) : PostgresSessionConfig :=
  let parts := [
    setting .planCacheMode ("SET plan_cache_mode = " ++ ·)
      (spec.planCacheMode.map Loader.PlanCacheMode.toSqlValue),
    setting .jit ("SET jit = " ++ ·) (spec.jit.map fun on => if on then "on" else "off"),
    setting .applicationName
      (fun app => "SET application_name = '" ++
        String.ofList (Loader.replaceFrom ['\''] ['\'', '\''] app.toList) ++ "'")
      spec.applicationName]
  { initStatements := parts.flatMap PostgresSessionConfig.initStatements
    expectations := parts.flatMap PostgresSessionConfig.expectations }

/-- What a PostgreSQL provider is built with. -/
structure PostgresProviderConfig where
  connectionUri : String
  pool : CommonPoolConfig
  session : Option PostgresSessionConfig
deriving DecidableEq, Repr

/-- What a MySQL provider is built with. -/
structure MySqlProviderConfig where
  connectionUri : String
  pool : CommonPoolConfig
deriving DecidableEq, Repr

/-- The PostgreSQL provider of a database. -/
def buildPostgresConfig (spec : Loader.SqlProviderSpec) : PostgresProviderConfig where
  connectionUri := spec.connectionUri
  pool := .ofSpec spec
  session := spec.postgresSession.map .fromSpec

/-- The MySQL provider of a database. -/
def buildMysqlConfig (spec : Loader.SqlProviderSpec) : MySqlProviderConfig where
  connectionUri := spec.connectionUri
  pool := .ofSpec spec

/-- The digits of a hash. -/
def hexDigits (hash : UInt64) : String :=
  let digits := Nat.toDigits 16 hash.toNat
  String.ofList (List.replicate (16 - digits.length) '0' ++ digits)

/-- The name of a kind in the identity of a data source. -/
def ProviderKind.seedName : ProviderKind → String
  | .sqliteAuthority => "sqlite"
  | .postgres => "postgres"
  | .mysql => "mysql"
  | .redis => "redis"

/-- The identity of a data source made of its kind and a text. -/
def DatasourceId.fromSeed [DefaultHasher] (kind : ProviderKind) (seed : String) : DatasourceId :=
  ⟨kind.seedName ++ ":" ++ hexDigits (stableHash seed)⟩

end WpKnowledge
