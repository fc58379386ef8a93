import WpKnowledge.Loader.Settings
import WpKnowledge.Mem.ColumnNames
import WpKnowledge.Redis.Registry
import WpKnowledge.Runtime.Handles
import WpKnowledge.Runtime.Sequential

/-!
# Initialisation from a configuration

`init_thread_cloned_from_knowdb` (`src/facade.rs`) reads a configuration and sets the
process up in one of three modes: SQL databases, if the configuration declares some; else a
Redis server, if it declares one; else the SQLite authority file built from its tables.
Each mode changes its own part of the process and returns from there, so what one
configuration declares for another mode is not looked at.

The process has five pieces of state with different rules: the default slot is overwritten,
the registry of names is added to and then pruned, the settings of the two caches are
overwritten, a Redis name is refused when it is taken, and the services of `[fun]` are
registered once and for all.

Main results:

- Theorem {lit}`installSpecs_ok`: what installing the declared databases leaves.
- Theorem {lit}`init_cases`: what a successful initialisation did, mode by mode.
-/

namespace WpKnowledge

open Foundation
open Loader (Settings SqlProviderSpec RedisProviderSpec SqlProviderKind)

/-! ## The process -/

/-- A provider as installed: a pool of connections, the authority file, or any other
implementation. -/
inductive InstalledProvider (κ : Type) where
  | postgres (pool : κ) (scope : MetadataCacheScope)
  | mysql (pool : κ) (scope : MetadataCacheScope)
  | threadCloned (authorityPath : String) (scope : MetadataCacheScope)
  | other (provider : κ)
deriving DecidableEq

/-- The state of a process that initialisation works on.  The number of installs so far is
the identity of the next handle. -/
structure Process (κ ρ : Type) where
  runtime : KnowledgeRuntime (InstalledProvider κ)
  redisCache : RedisCacheState
  redisRegistry : RedisRegistry ρ
  funMap : Option FunMap
  installs : Nat

/-- A process that has just started. -/
def Process.new (κ ρ : Type) : Process κ ρ where
  runtime := KnowledgeRuntime.new (InstalledProvider κ) 1024
  redisCache := RedisCacheState.new 1024
  redisRegistry := RedisRegistry.new
  funMap := none
  installs := 0

/-- The world around a process: files, the parser of the configuration with its environment
variables, the CSV reader, the characters a debug text holds as they are, and the
servers. -/
structure Surroundings (κ ρ : Type) where
  files : String → Loader.FileEntry
  parseToml : String → Option Settings
  readCsv : Loader.CsvReader → ByteArray → Loader.CsvData
  isPrintable : Char → Bool
  connectPostgres : String → PostgresProviderConfig → KnowledgeResult κ
  connectMysql : MySqlProviderConfig → KnowledgeResult κ
  redis : RedisEndpoints ρ

variable {κ ρ δ : Type}

namespace Surroundings

variable (env : Surroundings κ ρ)

/-- What the loader sees. -/
def toEnvironment : Loader.Environment where
  files := env.files
  parseToml text := (env.parseToml text).map Settings.toKnowDbConf
  readCsv := env.readCsv
  isPrintable := env.isPrintable

/-- The whole configuration. -/
def parseKnowdbConf (root confPath : String) : KnowledgeResult Settings := do
  let text ← env.toEnvironment.readToString (Loader.joinRel root confPath)
  match env.parseToml text with
  | none => .error (Loader.confError "parse knowdb config")
  | some conf =>
      if conf.version ≠ 2 then .error (Loader.confError "unsupported knowdb.version")
      else .ok conf

/-- The loader reads the same configuration. -/
theorem parseKnowdbConf_toEnvironment (root confPath : String) :
    (env.toEnvironment.parseKnowdbConf root confPath).map Prod.fst =
      (env.parseKnowdbConf root confPath).map Settings.toKnowDbConf := by
  unfold Loader.Environment.parseKnowdbConf parseKnowdbConf
  cases hread : env.toEnvironment.readToString (Loader.joinRel root confPath) with
  | error err => simp [hread, Except.map, bind, Except.bind]
  | ok text =>
      have hloader : env.toEnvironment.parseToml text =
          (env.parseToml text).map Settings.toKnowDbConf := rfl
      simp only [hread, bind, Except.bind, hloader]
      cases env.parseToml text with
      | none => rfl
      | some conf =>
          by_cases hversion : conf.version = 2
          · simp [hversion, Except.map]
          · simp [hversion, Except.map]

end Surroundings

/-! ## Installing -/

/-- The kind of an installed database. -/
def Loader.SqlProviderKind.toProviderKind : SqlProviderKind → ProviderKind
  | .postgres => .postgres
  | .mysql => .mysql

namespace Loader.SqlProviderSpec

variable [DefaultHasher]

/-- The identity of a declared database; one without a name is known by its address. -/
def datasourceId (spec : SqlProviderSpec) : DatasourceId :=
  DatasourceId.fromSeed spec.kind.toProviderKind
    (match spec.name with
      | some name => name
      | none => spec.connectionUri)

/-- The install of a declared database. -/
def installCall (spec : SqlProviderSpec) (defaultName : String) : InstallCall where
  name := spec.effectiveName
  kind := spec.kind.toProviderKind
  datasourceId := spec.datasourceId
  isDefault := spec.effectiveName == defaultName

omit [DefaultHasher] in
/-- Connecting to a declared database. -/
def connect (env : Surroundings κ ρ) (spec : SqlProviderSpec) : KnowledgeResult κ :=
  match spec.kind with
  | .postgres => env.connectPostgres spec.effectiveName (buildPostgresConfig spec)
  | .mysql => env.connectMysql (buildMysqlConfig spec)

/-- The provider of a declared database in a generation. -/
def provider (spec : SqlProviderSpec) (pool : κ) (generation : Nat) : InstalledProvider κ :=
  match spec.kind with
  | .postgres => .postgres pool ⟨spec.datasourceId, generation⟩
  | .mysql => .mysql pool ⟨spec.datasourceId, generation⟩

end Loader.SqlProviderSpec

namespace Process

/-- `install_provider_named` on the runtime of the process. -/
def install (s : Process κ ρ) (c : InstallCall) (build : Nat → KnowledgeResult (InstalledProvider κ)) :
    KnowledgeResult Unit × Process κ ρ :=
  let (result, runtime) := s.runtime.installProviderNamed s.installs c build
  (result.map fun _ => (), { s with runtime, installs := s.installs + 1 })

variable [DefaultHasher]

/-- The declared databases are installed one after the other, until one fails. -/
def installSpecs (env : Surroundings κ ρ) (defaultName : String) :
    List SqlProviderSpec → Process κ ρ → KnowledgeResult Unit × Process κ ρ
  | [], s => (.ok (), s)
  | spec :: specs, s =>
      match s.install (spec.installCall defaultName)
        (fun generation => (spec.connect env).map (spec.provider · generation)) with
      | (.error err, s) => (.error err, s)
      | (.ok (), s) => installSpecs env defaultName specs s

end Process

/-! ## The three modes -/

/-- What a configuration asks initialisation for. -/
inductive InitMode where
  | sqldb (first : SqlProviderSpec) (rest : List SqlProviderSpec)
  | redis (cfg : RedisProviderSpec)
  | authority

/-- The mode of a configuration: declared databases come first, then a Redis server. -/
def Loader.Settings.mode (conf : Settings) : InitMode :=
  match conf.provider with
  | none => .authority
  | some provider =>
      match provider.sqldb with
      | some (first :: rest) => .sqldb first rest
      | _ =>
          match provider.redis with
          | some cfg => .redis cfg
          | none => .authority

/-- The settings of the result cache. -/
def Loader.Settings.cacheCall (conf : Settings) : ConfigureCall where
  enabled := conf.cache.enabled
  capacity := conf.cache.capacity
  ttl := Duration.fromMillis (max conf.cache.ttlMs 1)

/-- The name of the database that becomes the default one: the one called `default`, or the
first. -/
def defaultNameOf (expected : List String) (first : SqlProviderSpec) : String :=
  if defaultSqldbName ∈ expected then defaultSqldbName else first.effectiveName

/-- The address of the authority file for reading. -/
def readOnlyUri (authorityUri : String) : String :=
  if "file:".toList.isPrefixOf authorityUri.toList then
    "file:" ++ String.ofList ((authorityUri.toList.drop 5).takeWhile (· ≠ '?')) ++
      "?mode=ro&uri=true"
  else authorityUri

namespace Process

/-- The result cache is configured and the registry pruned. -/
def settle (s : Process κ ρ) (conf : Settings) (keep : List String) : Process κ ρ :=
  { s with
    runtime := (s.runtime.configureResultCache conf.cacheCall).pruneNamedProvidersExcept keep }

variable [DefaultHasher] (env : Surroundings κ ρ)

/-- Initialisation with SQL databases. -/
def initSqldb (conf : Settings) (first : SqlProviderSpec) (rest : List SqlProviderSpec)
    (s : Process κ ρ) : KnowledgeResult Unit × Process κ ρ :=
  match SqlProviderSpec.validateSpecs (first :: rest) with
  | .error err => (.error err, s)
  | .ok expected =>
      match installSpecs env (defaultNameOf expected first) (first :: rest) s with
      | (.error err, s) => (.error err, s)
      | (.ok (), s) => (.ok (), s.settle conf expected)

omit [DefaultHasher] in
/-- Initialisation with a Redis server. -/
def initRedis (conf : Settings) (cfg : RedisProviderSpec) (s : Process κ ρ) :
    KnowledgeResult Unit × Process κ ρ :=
  match env.redis.initWithOpts s.redisRegistry Redis.knowdb cfg.connectionUri cfg.poolSize
    cfg.commandTimeoutMs with
  | (.error err, redisRegistry) => (.error err, { s with redisRegistry })
  | (.ok (), redisRegistry) =>
      (.ok (),
        { s with
          redisRegistry
          redisCache := s.redisCache.configure conf.cache.enabled conf.cache.capacity
          funMap := Fun.registerFunMap s.funMap conf.funMap
          runtime := s.runtime.pruneNamedProvidersExcept [] })

/-- `init_thread_cloned_from_authority`: the authority file becomes the default provider. -/
def initThreadClonedFromAuthority (s : Process κ ρ) (authorityUri : String) :
    KnowledgeResult Unit × Process κ ρ :=
  let datasourceId := DatasourceId.fromSeed .sqliteAuthority authorityUri
  s.install (.installProvider .sqliteAuthority datasourceId) fun generation =>
    .ok (.threadCloned authorityUri ⟨datasourceId, generation⟩)

/-- Initialisation with the authority file; what is committed to the file stays also when it
fails. -/
def initAuthority (db : Loader.Engine δ) (root confPath authorityUri : String) (conf : Settings)
    (s : Process κ ρ) (d : δ) : KnowledgeResult Unit × Process κ ρ × δ :=
  match Loader.buildAuthorityFromKnowdb db env.toEnvironment root confPath authorityUri d with
  | (.error err, d) => (.error err, s, d)
  | (.ok _, d) =>
      match s.initThreadClonedFromAuthority (readOnlyUri authorityUri) with
      | (.error err, s) => (.error err, s, d)
      | (.ok (), s) => (.ok (), s.settle conf [defaultSqldbName], d)

/-- `init_thread_cloned_from_knowdb`. -/
def initThreadClonedFromKnowdb (db : Loader.Engine δ) (root confPath authorityUri : String)
    (s : Process κ ρ) (d : δ) : KnowledgeResult Unit × Process κ ρ × δ :=
  match env.parseKnowdbConf root confPath with
  | .error err => (.error err, s, d)
  | .ok conf =>
      match conf.mode with
      | .sqldb first rest =>
          let (result, s) := initSqldb env conf first rest s
          (result, s, d)
      | .redis cfg =>
          let (result, s) := initRedis env conf cfg s
          (result, s, d)
      | .authority => initAuthority env db root confPath authorityUri conf s d

end Process

/-! ## What an install does -/

namespace Process

/-- The handle registered under a name. -/
abbrev registered (s : Process κ ρ) (name : String) :
    Option (ProviderHandle (InstalledProvider κ)) :=
  s.runtime.namedProviders.lookup name

/-- Two processes agree on everything that has to do with Redis. -/
structure SameRedis (s s' : Process κ ρ) : Prop where
  redisCache : s'.redisCache = s.redisCache
  redisRegistry : s'.redisRegistry = s.redisRegistry
  funMap : s'.funMap = s.funMap

theorem SameRedis.refl (s : Process κ ρ) : s.SameRedis s := ⟨rfl, rfl, rfl⟩

theorem SameRedis.trans {s s' s'' : Process κ ρ} (h : s.SameRedis s') (h' : s'.SameRedis s'') :
    s.SameRedis s'' :=
  ⟨h'.redisCache.trans h.redisCache, h'.redisRegistry.trans h.redisRegistry,
    h'.funMap.trans h.funMap⟩

/-- The effect of an install: it fails to build its provider and only its generation is
used up, or its handle is registered and, for the default provider, put into the default
slot. -/
inductive InstallOutcome (s : Process κ ρ) (c : InstallCall)
    (build : Nat → KnowledgeResult (InstalledProvider κ)) :
    KnowledgeResult Unit × Process κ ρ → Prop
  | failed {err : KnowledgeError} {s' : Process κ ρ}
      (hbuild : build (s.runtime.nextGeneration + 1) = .error err)
      (hregistered : ∀ name, s'.registered name = s.registered name)
      (hprovider : s'.runtime.provider = s.runtime.provider)
      (hgeneration : s'.runtime.nextGeneration = s.runtime.nextGeneration + 1)
      (hredis : s.SameRedis s') : InstallOutcome s c build (.error err, s')
  | installed {handle : ProviderHandle (InstalledProvider κ)} {s' : Process κ ρ}
      (hbuild : build (s.runtime.nextGeneration + 1) = .ok handle.provider)
      (hhandle : handle = s.runtime.nextHandle s.installs c handle.provider)
      (hname : s'.registered c.name = some handle)
      (hregistered : ∀ name, name ≠ c.name → s'.registered name = s.registered name)
      (hprovider : s'.runtime.provider = if c.isDefault then some handle else s.runtime.provider)
      (hgeneration : s'.runtime.nextGeneration = s.runtime.nextGeneration + 1)
      (hredis : s.SameRedis s') : InstallOutcome s c build (.ok (), s')

/-- Every install has one of the two effects. -/
theorem install_outcome (s : Process κ ρ) (c : InstallCall)
    (build : Nat → KnowledgeResult (InstalledProvider κ)) :
    InstallOutcome s c build (s.install c build) := by
  cases hbuild : build (s.runtime.nextGeneration + 1) with
  | error err =>
      have hinstall : s.install c build = (.error err,
          { s with
            runtime := { s.runtime with
              nextGeneration := s.runtime.nextGeneration + 1
              reloadFailures := s.runtime.reloadFailures + 1 }
            installs := s.installs + 1 }) := by
        simp [install, KnowledgeRuntime.installProviderNamed, hbuild, Except.map]
      rw [hinstall]
      exact .failed hbuild (fun _ => rfl) rfl rfl ⟨rfl, rfl, rfl⟩
  | ok provider =>
      obtain ⟨hok, hnamed, hslot, hgeneration⟩ :=
        @KnowledgeRuntime.installProviderNamed_ok _ s.runtime s.installs c build provider hbuild
      have hprovider : build (s.runtime.nextGeneration + 1) =
          .ok (s.runtime.nextHandle s.installs c provider).provider := hbuild
      have hinstall : s.install c build = (.ok (), (s.install c build).2) := by
        refine Prod.ext ?_ rfl
        simp only [install]
        rw [hok]
        rfl
      rw [hinstall]
      refine .installed hprovider rfl ?_ ?_ hslot hgeneration ⟨rfl, rfl, rfl⟩
      · simp only [registered, install, hnamed, AList.lookup_insert]
      · intro name hne
        simp only [registered, install, hnamed, AList.lookup_insert_ne hne]

/-! ## Installing the declared databases -/

/-- A handle made for a declared database after the generation given. -/
structure HandleFor [DefaultHasher] (env : Surroundings κ ρ) (spec : SqlProviderSpec)
    (generation : Nat) (handle : ProviderHandle (InstalledProvider κ)) : Prop where
  later : generation < handle.generation
  kind : handle.kind = spec.kind.toProviderKind
  datasourceId : handle.datasourceId = spec.datasourceId
  provider : ∃ pool, spec.connect env = .ok pool ∧
    handle.provider = spec.provider pool handle.generation

variable [DefaultHasher]

/-- The effect of installing one declared database. -/
theorem installSpec_outcome (env : Surroundings κ ρ) (defaultName : String)
    (spec : SqlProviderSpec) (s : Process κ ρ) :
    InstallOutcome s (spec.installCall defaultName)
      (fun generation => (spec.connect env).map (spec.provider · generation))
      (s.install (spec.installCall defaultName)
        fun generation => (spec.connect env).map (spec.provider · generation)) :=
  s.install_outcome _ _

/-- The build of a declared database fails as connecting to it does. -/
theorem connect_of_build_error {env : Surroundings κ ρ} {spec : SqlProviderSpec}
    {generation : Nat} {err : KnowledgeError}
    (hbuild : (spec.connect env).map (spec.provider · generation) = .error err) :
    spec.connect env = .error err := by
  cases hconnect : spec.connect env with
  | error err' =>
      rw [hconnect] at hbuild
      exact congrArg Except.error (Except.error.inj hbuild)
  | ok pool =>
      rw [hconnect] at hbuild
      cases hbuild

/-- The build of a declared database wraps the pool connected to. -/
theorem connect_of_build_ok {env : Surroundings κ ρ} {spec : SqlProviderSpec}
    {generation : Nat} {provider : InstalledProvider κ}
    (hbuild : (spec.connect env).map (spec.provider · generation) = .ok provider) :
    ∃ pool, spec.connect env = .ok pool ∧ provider = spec.provider pool generation := by
  cases hconnect : spec.connect env with
  | error err =>
      rw [hconnect] at hbuild
      cases hbuild
  | ok pool =>
      rw [hconnect] at hbuild
      exact ⟨pool, rfl, (Except.ok.inj hbuild).symm⟩

/-- The handle of an installed database is one made for it. -/
theorem handleFor_of_build {env : Surroundings κ ρ} {spec : SqlProviderSpec}
    {defaultName : String} {s : Process κ ρ} {handle : ProviderHandle (InstalledProvider κ)}
    (hbuild : (spec.connect env).map (spec.provider · (s.runtime.nextGeneration + 1)) =
      .ok handle.provider)
    (hhandle : handle =
      s.runtime.nextHandle s.installs (spec.installCall defaultName) handle.provider) :
    HandleFor env spec s.runtime.nextGeneration handle := by
  obtain ⟨pool, hconnect, hprovider⟩ := connect_of_build_ok hbuild
  have hgeneration : handle.generation = s.runtime.nextGeneration + 1 := by
    rw [hhandle]
    rfl
  refine ⟨by omega, ?_, ?_, pool, hconnect, ?_⟩
  · rw [hhandle]
    rfl
  · rw [hhandle]
    rfl
  · rw [hgeneration]
    exact hprovider

/-- The invariant rule of the loop: what every install keeps, the loop keeps. -/
theorem installSpecs_invariant {env : Surroundings κ ρ} {defaultName : String}
    {P : Process κ ρ → Prop}
    (hinstall : ∀ (spec : SqlProviderSpec) (s : Process κ ρ), P s →
      P (s.install (spec.installCall defaultName)
        fun generation => (spec.connect env).map (spec.provider · generation)).2)
    (specs : List SqlProviderSpec) {s : Process κ ρ} (h : P s) :
    P (installSpecs env defaultName specs s).2 := by
  induction specs generalizing s with
  | nil => exact h
  | cons spec specs ih =>
      have hkept := hinstall spec s h
      rw [installSpecs]
      split
      · rename_i hfailed
        rw [hfailed] at hkept
        exact hkept
      · rename_i hinstalled
        rw [hinstalled] at hkept
        exact ih hkept

/-- What installing databases leaves alone, whether it succeeds or not: other names, the
default slot if none of them is the default one, and all of Redis. -/
theorem installSpecs_frame (env : Surroundings κ ρ) (defaultName : String)
    (specs : List SqlProviderSpec) (s : Process κ ρ) :
    (∀ name, name ∉ specs.map SqlProviderSpec.effectiveName →
      (installSpecs env defaultName specs s).2.registered name = s.registered name) ∧
    (defaultName ∉ specs.map SqlProviderSpec.effectiveName →
      (installSpecs env defaultName specs s).2.runtime.provider = s.runtime.provider) ∧
    s.runtime.nextGeneration ≤ (installSpecs env defaultName specs s).2.runtime.nextGeneration ∧
    s.SameRedis (installSpecs env defaultName specs s).2 := by
  induction specs generalizing s with
  | nil => exact ⟨fun _ _ => rfl, fun _ => rfl, Nat.le_refl _, .refl s⟩
  | cons spec specs ih =>
      have houtcome := installSpec_outcome env defaultName spec s
      rw [installSpecs]
      generalize s.install (spec.installCall defaultName)
        (fun generation => (spec.connect env).map (spec.provider · generation)) = r at houtcome
      simp only [List.map_cons, List.mem_cons, not_or]
      cases houtcome with
      | failed hbuild hregistered hprovider hgeneration hredis =>
          exact ⟨fun name _ => hregistered name, fun _ => hprovider, by simp only; omega, hredis⟩
      | @installed handle s' hbuild hhandle hname hregistered hprovider hgeneration hredis =>
          obtain ⟨hothers, hslot, hlater, hrest⟩ := ih s'
          refine ⟨?_, ?_, by simp only; omega, hredis.trans hrest⟩
          · rintro name ⟨hne, hnot⟩
            exact (hothers name hnot).trans (hregistered name hne)
          · rintro ⟨hne, hnot⟩
            have hdefault : (spec.installCall defaultName).isDefault = false :=
              beq_eq_false_iff_ne.mpr (Ne.symm hne)
            rw [hdefault, if_neg Bool.false_ne_true] at hprovider
            exact (hslot hnot).trans hprovider

/-- What installing the declared databases leaves, if it succeeds: each has a handle of its
own under its name, and the default slot has that of the default one. -/
theorem installSpecs_ok {env : Surroundings κ ρ} {defaultName : String}
    {specs : List SqlProviderSpec} {s s' : Process κ ρ}
    (hnodup : (specs.map SqlProviderSpec.effectiveName).Nodup)
    (h : installSpecs env defaultName specs s = (.ok (), s')) :
    (∀ spec ∈ specs, ∃ handle, s'.registered spec.effectiveName = some handle ∧
      HandleFor env spec s.runtime.nextGeneration handle) ∧
    (defaultName ∈ specs.map SqlProviderSpec.effectiveName →
      s'.runtime.provider = s'.registered defaultName) := by
  induction specs generalizing s with
  | nil => exact ⟨by simp, by simp⟩
  | cons spec specs ih =>
      have houtcome := installSpec_outcome env defaultName spec s
      rw [installSpecs] at h
      generalize s.install (spec.installCall defaultName)
        (fun generation => (spec.connect env).map (spec.provider · generation)) = r at houtcome h
      cases houtcome with
      | failed => cases (Prod.mk.inj h).1
      | @installed handle s₁ hbuild hhandle hname hregistered hprovider hgeneration hredis =>
          have hrest : installSpecs env defaultName specs s₁ = (.ok (), s') := h
          rw [List.map_cons, List.nodup_cons] at hnodup
          obtain ⟨hhandles, hslot⟩ := ih hnodup.2 hrest
          obtain ⟨hothers, hkept, -, -⟩ := installSpecs_frame env defaultName specs s₁
          rw [hrest] at hothers hkept
          have hown : s'.registered spec.effectiveName = some handle :=
            (hothers _ hnodup.1).trans hname
          refine ⟨?_, ?_⟩
          · intro other hother
            rcases List.mem_cons.mp hother with rfl | hother
            · exact ⟨handle, hown, handleFor_of_build hbuild hhandle⟩
            · obtain ⟨found, hfound, hfor⟩ := hhandles other hother
              refine ⟨found, hfound, ?_, hfor.kind, hfor.datasourceId, hfor.provider⟩
              have hlater := hfor.later
              omega
          · intro hdefault
            rcases List.mem_cons.mp hdefault with rfl | hdefault
            · have hisDefault : (spec.installCall spec.effectiveName).isDefault = true :=
                beq_self_eq_true _
              rw [hisDefault, if_pos rfl] at hprovider
              rw [hown, hkept hnodup.1, hprovider]
            · exact hslot hdefault

/-! ## What a successful initialisation did -/

omit [DefaultHasher] in
/-- The registry after the end of an initialisation. -/
theorem registered_settle (s : Process κ ρ) (conf : Settings) (keep : List String)
    (name : String) :
    (s.settle conf keep).registered name = if name ∈ keep then s.registered name else none := by
  simp only [registered, settle, KnowledgeRuntime.pruneNamedProvidersExcept,
    HashMap.lookup_retain, KnowledgeRuntime.configureResultCache, decide_eq_true_eq]

omit [DefaultHasher] in
theorem provider_settle (s : Process κ ρ) (conf : Settings) (keep : List String) :
    (s.settle conf keep).runtime.provider = s.runtime.provider := rfl

/-- Databases are initialised: they pass the check and all of them are installed. -/
theorem initSqldb_ok {env : Surroundings κ ρ} {conf : Settings} {first : SqlProviderSpec}
    {rest : List SqlProviderSpec} {s s' : Process κ ρ}
    (h : initSqldb env conf first rest s = (.ok (), s')) :
    ∃ expected s₁, SqlProviderSpec.validateSpecs (first :: rest) = .ok expected ∧
      installSpecs env (defaultNameOf expected first) (first :: rest) s = (.ok (), s₁) ∧
      s' = s₁.settle conf expected := by
  unfold initSqldb at h
  cases hvalid : SqlProviderSpec.validateSpecs (first :: rest) with
  | error err =>
      rw [hvalid] at h
      cases (Prod.mk.inj h).1
  | ok expected =>
      rw [hvalid] at h
      simp only at h
      split at h
      · cases (Prod.mk.inj h).1
      · rename_i s₁ hinstall
        exact ⟨expected, s₁, rfl, hinstall, (Prod.mk.inj h).2.symm⟩

omit [DefaultHasher] in
/-- A Redis server is initialised: its name was free. -/
theorem initRedis_ok {env : Surroundings κ ρ} {conf : Settings} {cfg : RedisProviderSpec}
    {s s' : Process κ ρ} (h : initRedis env conf cfg s = (.ok (), s')) :
    ∃ redisRegistry, env.redis.initWithOpts s.redisRegistry Redis.knowdb cfg.connectionUri
        cfg.poolSize cfg.commandTimeoutMs = (.ok (), redisRegistry) ∧
      s' = { s with
        redisRegistry
        redisCache := s.redisCache.configure conf.cache.enabled conf.cache.capacity
        funMap := Fun.registerFunMap s.funMap conf.funMap
        runtime := s.runtime.pruneNamedProvidersExcept [] } := by
  unfold initRedis at h
  split at h
  · cases (Prod.mk.inj h).1
  · rename_i redisRegistry hinit
    exact ⟨redisRegistry, hinit, (Prod.mk.inj h).2.symm⟩

/-- The install of the authority file never fails. -/
theorem initThreadClonedFromAuthority_ok (s : Process κ ρ) (authorityUri : String) :
    ∃ handle s₁, s.initThreadClonedFromAuthority authorityUri = (.ok (), s₁) ∧
      s₁.registered defaultSqldbName = some handle ∧ s₁.runtime.provider = some handle ∧
      s.runtime.nextGeneration < handle.generation ∧
      handle.kind = .sqliteAuthority ∧
      handle.datasourceId = DatasourceId.fromSeed .sqliteAuthority authorityUri ∧
      handle.provider = .threadCloned authorityUri
        ⟨DatasourceId.fromSeed .sqliteAuthority authorityUri, handle.generation⟩ ∧
      s.SameRedis s₁ := by
  have houtcome := s.install_outcome
    (.installProvider .sqliteAuthority (DatasourceId.fromSeed .sqliteAuthority authorityUri))
    (fun generation => .ok (.threadCloned authorityUri
      ⟨DatasourceId.fromSeed .sqliteAuthority authorityUri, generation⟩))
  unfold initThreadClonedFromAuthority
  generalize s.install _ _ = r at houtcome
  cases houtcome with
  | failed hbuild => cases hbuild
  | @installed handle s₁ hbuild hhandle hname hregistered hprovider hgeneration hredis =>
      have hnumber : handle.generation = s.runtime.nextGeneration + 1 := by
        rw [hhandle]
        rfl
      refine ⟨handle, s₁, rfl, hname, hprovider, by omega, ?_, ?_, ?_, hredis⟩
      · rw [hhandle]
        rfl
      · rw [hhandle]
        rfl
      · rw [hnumber]
        exact (Except.ok.inj hbuild).symm

/-- The authority file is initialised: it was built. -/
theorem initAuthority_ok {env : Surroundings κ ρ} {db : Loader.Engine δ}
    {root confPath authorityUri : String} {conf : Settings} {s s' : Process κ ρ} {d d' : δ}
    (h : initAuthority env db root confPath authorityUri conf s d = (.ok (), s', d')) :
    ∃ s₁, s.initThreadClonedFromAuthority (readOnlyUri authorityUri) = (.ok (), s₁) ∧
      s' = s₁.settle conf [defaultSqldbName] := by
  unfold initAuthority at h
  split at h
  · cases (Prod.mk.inj h).1
  · split at h
    · cases (Prod.mk.inj h).1
    · rename_i s₁ hinit
      exact ⟨s₁, hinit, (Prod.mk.inj (Prod.mk.inj h).2).1.symm⟩

/-- Initialisation is that of the mode of its configuration. -/
theorem init_eq {env : Surroundings κ ρ} {db : Loader.Engine δ}
    {root confPath authorityUri : String} {conf : Settings}
    (hconf : env.parseKnowdbConf root confPath = .ok conf) (s : Process κ ρ) (d : δ) :
    initThreadClonedFromKnowdb env db root confPath authorityUri s d =
      match conf.mode with
      | .sqldb first rest =>
          ((initSqldb env conf first rest s).1, (initSqldb env conf first rest s).2, d)
      | .redis cfg => ((initRedis env conf cfg s).1, (initRedis env conf cfg s).2, d)
      | .authority => initAuthority env db root confPath authorityUri conf s d := by
  unfold initThreadClonedFromKnowdb
  rw [hconf]

/-- What a successful initialisation did, mode by mode. -/
theorem init_cases {env : Surroundings κ ρ} {db : Loader.Engine δ}
    {root confPath authorityUri : String} {s s' : Process κ ρ} {d d' : δ} {conf : Settings}
    (hconf : env.parseKnowdbConf root confPath = .ok conf)
    (h : initThreadClonedFromKnowdb env db root confPath authorityUri s d = (.ok (), s', d')) :
    (∃ first rest, conf.mode = .sqldb first rest ∧
      initSqldb env conf first rest s = (.ok (), s')) ∨
    (∃ cfg, conf.mode = .redis cfg ∧ initRedis env conf cfg s = (.ok (), s')) ∨
    (conf.mode = .authority ∧
      initAuthority env db root confPath authorityUri conf s d = (.ok (), s', d')) := by
  rw [init_eq hconf] at h
  cases hmode : conf.mode with
  | sqldb first rest =>
      rw [hmode] at h
      obtain ⟨hresult, hrest⟩ := Prod.mk.inj h
      exact .inl ⟨first, rest, rfl, Prod.ext hresult (Prod.mk.inj hrest).1⟩
  | redis cfg =>
      rw [hmode] at h
      obtain ⟨hresult, hrest⟩ := Prod.mk.inj h
      exact .inr (.inl ⟨cfg, rfl, Prod.ext hresult (Prod.mk.inj hrest).1⟩)
  | authority =>
      rw [hmode] at h
      exact .inr (.inr ⟨rfl, h⟩)

end Process

end WpKnowledge
