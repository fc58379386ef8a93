import Mathlib.Data.List.Induction
import WpKnowledge.Facade.Declared
import WpKnowledge.Foundation.FoldExcept

/-!
# Initialising again and again

A process may be initialised from one configuration after another.  Whether this works
depends on the whole sequence.  A Redis configuration is refused once another one was
accepted, and the services of the first one stay.  The flag that gates the Redis cache
belongs to the result cache, which a Redis configuration does not set, and no other
configuration sets the Redis cache back.  The authority file keeps what each load leaves in
it.  Everything else a configuration sets is what a new process would have.

Main results:

- Theorem {lit}`Turn.ok_of_ok`: whether a configuration is accepted depends on the process
  only by its Redis registry, and only for a Redis configuration.
- Theorem {lit}`Turn.sameSetup`: what a configuration sets up when it is accepted does not
  depend on the process before.
- Theorem {lit}`reload_works_iff`: for which sequences of configurations, each of them accepted
  by a new process, all are accepted and the process ends up like a new one.
-/

namespace WpKnowledge

open Foundation
open Loader (Settings SqlProviderSpec RedisProviderSpec)

variable {κ ρ δ : Type}

/-! ## Turns -/

/-- A call of `init_thread_cloned_from_knowdb`: its arguments, and the world as it is at the
time. -/
structure Turn (κ ρ δ : Type) where
  env : Surroundings κ ρ
  db : Loader.Engine δ
  root : String
  confPath : String
  authorityUri : String

namespace Turn

/-- The configuration read. -/
def conf (t : Turn κ ρ δ) : Option Settings :=
  (t.env.parseKnowdbConf t.root t.confPath).toOption

/-- The configuration asks for a Redis server alone. -/
def isRedis (t : Turn κ ρ δ) : Bool :=
  match t.conf.map Settings.mode with
  | some (.redis _) => true
  | _ => false

/-- The load of the authority file, if the configuration asks for one: whether it succeeds,
and the file it leaves. -/
def load (t : Turn κ ρ δ) (d : δ) : Bool × δ :=
  match t.conf.map Settings.mode with
  | some .authority =>
      let r := Loader.buildAuthorityFromKnowdb t.db t.env.toEnvironment t.root t.confPath
        t.authorityUri d
      (r.1.isOk, r.2)
  | _ => (true, d)

variable [DefaultHasher]

/-- The call in a process, with the authority file as it finds it; the last part of the
result is the file as it leaves it. -/
def init (t : Turn κ ρ δ) (s : Process κ ρ) (d : δ) : KnowledgeResult Unit × Process κ ρ × δ :=
  Process.initThreadClonedFromKnowdb t.env t.db t.root t.confPath t.authorityUri s d

end Turn

/-! ## Sequences of turns -/

/-- A process and the files that SQLite opens. -/
structure Site (κ ρ δ : Type) where
  process : Process κ ρ
  files : String → δ

/-- A new process among some files. -/
def Site.new (κ ρ : Type) {δ : Type} (files : String → δ) : Site κ ρ δ where
  process := Process.new κ ρ
  files

section Sequences

variable (opened : String → String)

/-- A call at a site, where SQLite opens a file for the address of the authority. -/
def Turn.initAt [DefaultHasher] (t : Turn κ ρ δ) (site : Site κ ρ δ) :
    KnowledgeResult Unit × Site κ ρ δ :=
  let file := opened t.authorityUri
  let r := t.init site.process (site.files file)
  (r.1, { process := r.2.1, files := Function.update site.files file r.2.2 })

/-- The site after a sequence of calls. -/
def afterTurns [DefaultHasher] (turns : List (Turn κ ρ δ)) (site : Site κ ρ δ) : Site κ ρ δ :=
  turns.foldl (fun site t => (t.initAt opened site).2) site

/-- The files after the loads of a sequence of calls. -/
def filesAfter (turns : List (Turn κ ρ δ)) (files : String → δ) : String → δ :=
  turns.foldl (fun files t =>
    let file := opened t.authorityUri
    Function.update files file (t.load (files file)).2) files

/-- Each load of a sequence succeeds on the file that the loads before it leave. -/
def LoadsAccepted (turns : List (Turn κ ρ δ)) (files : String → δ) : Prop :=
  ∀ before t after, turns = before ++ t :: after →
    (t.load (filesAfter opened before files (opened t.authorityUri))).1 = true

end Sequences

/-! ## What a process is set up with -/

/-- A provider apart from its generation. -/
def InstalledProvider.source : InstalledProvider κ → InstalledProvider κ
  | .postgres pool scope => .postgres pool { scope with generation := 0 }
  | .mysql pool scope => .mysql pool { scope with generation := 0 }
  | .threadCloned path scope => .threadCloned path { scope with generation := 0 }
  | .other provider => .other provider

/-- A handle apart from its generation and its identity. -/
def ProviderHandle.source (handle : ProviderHandle (InstalledProvider κ)) :
    ProviderKind × DatasourceId × InstalledProvider κ :=
  (handle.kind, handle.datasourceId, handle.provider.source)

/-- Two processes agree on what switches their caches on and on the capacity of the Redis
cache.  The first flag is of the Redis cache alone, the second of both caches. -/
structure SameCaches (s s' : Process κ ρ) : Prop where
  redisGlobalEnabled : s'.redisCache.redisGlobalEnabled = s.redisCache.redisGlobalEnabled
  resultCacheEnabled : s'.runtime.resultCacheEnabled = s.runtime.resultCacheEnabled
  redisCapacity : s'.redisCache.redisCache.cap = s.redisCache.redisCache.cap

/-- Two processes agree on the registry of named providers, the settings of the caches, and
the services.  The capacity and the time to live of the result cache are governed by every
configuration but a Redis one. -/
structure SameSetup (conf : Settings) (s s' : Process κ ρ) : Prop where
  registry : ∀ name, (s'.registered name).map ProviderHandle.source =
    (s.registered name).map ProviderHandle.source
  caches : SameCaches s s'
  resultCache : (∀ cfg, conf.mode ≠ .redis cfg) →
    s'.runtime.resultCacheConfig = s.runtime.resultCacheConfig ∧
      s'.runtime.resultCacheTtlMs = s.runtime.resultCacheTtlMs
  funs : ∀ name, Fun.definition s'.funMap name = Fun.definition s.funMap name

/-- All calls succeed, and afterwards the process is set up as a new one would be by the last
call. -/
structure ReloadWorks [DefaultHasher] (opened : String → String) (turns : List (Turn κ ρ δ))
    (files : String → δ) : Prop where
  accepted : ∀ {before t after}, turns = before ++ t :: after →
    (t.initAt opened (afterTurns opened before (Site.new κ ρ files))).1 = .ok ()
  last : ∀ {before t conf}, turns = before ++ [t] → t.conf = some conf →
    SameSetup conf (t.initAt opened (Site.new κ ρ files)).2.process
      (afterTurns opened turns (Site.new κ ρ files)).process

/-- A Redis configuration sets what a new process has: it declares no services, and its cache
is on and of the first capacity. -/
structure SetsDefaults (conf : Settings) : Prop where
  noServices : ∀ name, conf.funMap.lookup name = none
  enabled : conf.cache.enabled = true
  capacity : max conf.cache.capacity 1 = 1024

/-- At most one of the configurations is a Redis one.  If it is not the last, it sets what a
new process has; if it is the last, the one before it leaves the cache on. -/
structure AtMostOneRedis (turns : List (Turn κ ρ δ)) : Prop where
  pairwise : turns.Pairwise fun t u => ¬ (t.isRedis = true ∧ u.isRedis = true)
  before_last : ∀ t ∈ turns.dropLast, t.isRedis = true → ∀ conf, t.conf = some conf →
    SetsDefaults conf
  last : ∀ before t u, turns = before ++ [t, u] → u.isRedis = true →
    ∀ conf, t.conf = some conf → conf.cache.enabled = true

/-! ## When a configuration is accepted -/

/-- Connecting to databases one after the other. -/
def connectAll (env : Surroundings κ ρ) : List SqlProviderSpec → KnowledgeResult Unit
  | [] => .ok ()
  | spec :: specs =>
      match spec.connect env with
      | .error err => .error err
      | .ok _ => connectAll env specs

section Accepted

variable [DefaultHasher]

namespace Process

/-- Databases are installed if they can be connected to. -/
theorem installSpecs_result (env : Surroundings κ ρ) (defaultName : String)
    (specs : List SqlProviderSpec) (s : Process κ ρ) :
    (installSpecs env defaultName specs s).1 = connectAll env specs := by
  induction specs generalizing s with
  | nil => rfl
  | cons spec specs ih =>
      have houtcome := installSpec_outcome env defaultName spec s
      rw [installSpecs, connectAll]
      generalize s.install (spec.installCall defaultName)
        (fun generation => (spec.connect env).map (spec.provider · generation)) = r at houtcome
      cases houtcome with
      | failed hbuild => rw [connect_of_build_error hbuild]
      | @installed handle s₁ hbuild =>
          obtain ⟨pool, hconnect, -⟩ := connect_of_build_ok hbuild
          rw [hconnect]
          exact ih s₁

/-- Whether databases are accepted does not depend on the process. -/
theorem initSqldb_result (env : Surroundings κ ρ) (conf : Settings) (first : SqlProviderSpec)
    (rest : List SqlProviderSpec) (s s' : Process κ ρ) :
    (initSqldb env conf first rest s).1 = (initSqldb env conf first rest s').1 := by
  have hresult : ∀ s : Process κ ρ, (initSqldb env conf first rest s).1 =
      (SqlProviderSpec.validateSpecs (first :: rest)).bind
        fun _ => connectAll env (first :: rest) := by
    intro s
    unfold initSqldb
    cases SqlProviderSpec.validateSpecs (first :: rest) with
    | error err => rfl
    | ok expected =>
        simp only
        rw [← installSpecs_result env (defaultNameOf expected first) (first :: rest) s]
        split
        · rename_i hinstall
          rw [hinstall]
          rfl
        · rename_i hinstall
          rw [hinstall]
          rfl
  rw [hresult, hresult]

omit [DefaultHasher] in
/-- Whether a Redis server is accepted depends on the Redis registry. -/
theorem initRedis_result (env : Surroundings κ ρ) (conf : Settings) (cfg : RedisProviderSpec)
    {s s' : Process κ ρ} (h : s.redisRegistry = s'.redisRegistry) :
    (initRedis env conf cfg s).1 = (initRedis env conf cfg s').1 := by
  unfold initRedis
  rw [h]
  split <;> rfl

/-- With the authority file, initialisation is accepted if the load is, and leaves the file
as the load does. -/
theorem initAuthority_result (env : Surroundings κ ρ) (db : Loader.Engine δ)
    (root confPath authorityUri : String) (conf : Settings) (s : Process κ ρ) (d : δ) :
    (initAuthority env db root confPath authorityUri conf s d).1 =
        (Loader.buildAuthorityFromKnowdb db env.toEnvironment root confPath authorityUri d).1.map
          (fun _ => ()) ∧
      (initAuthority env db root confPath authorityUri conf s d).2.2 =
        (Loader.buildAuthorityFromKnowdb db env.toEnvironment root confPath authorityUri d).2 := by
  obtain ⟨-, s₁, hinit, -⟩ := s.initThreadClonedFromAuthority_ok (readOnlyUri authorityUri)
  unfold initAuthority
  split
  · rename_i hbuild
    rw [hbuild]
    exact ⟨rfl, rfl⟩
  · rename_i hbuild
    rw [hinit, hbuild]
    exact ⟨rfl, rfl⟩

end Process

/-- A call is that of the mode of its configuration, and fails if there is none. -/
theorem Turn.init_cases (t : Turn κ ρ δ) :
    (t.conf = none ∧ t.isRedis = false ∧ ∃ err, ∀ s d, t.init s d = (.error err, s, d)) ∨
    ∃ conf, t.conf = some conf ∧
      ((t.isRedis = false ∧ ∃ first rest, conf.mode = .sqldb first rest ∧
          ∀ s d, t.init s d = ((Process.initSqldb t.env conf first rest s).1,
            (Process.initSqldb t.env conf first rest s).2, d)) ∨
        (t.isRedis = true ∧ ∃ cfg, conf.mode = .redis cfg ∧
          ∀ s d, t.init s d = ((Process.initRedis t.env conf cfg s).1,
            (Process.initRedis t.env conf cfg s).2, d)) ∨
        (t.isRedis = false ∧ conf.mode = .authority ∧
          ∀ s d, t.init s d =
            Process.initAuthority t.env t.db t.root t.confPath t.authorityUri conf s d)) := by
  cases hconf : t.env.parseKnowdbConf t.root t.confPath with
  | error err =>
      have hnone : t.conf = none := by simp [Turn.conf, hconf, Except.toOption]
      refine .inl ⟨hnone, by simp [Turn.isRedis, hnone], err, fun s d => ?_⟩
      simp [Turn.init, Process.initThreadClonedFromKnowdb, hconf]
  | ok conf =>
      refine .inr ⟨conf, by simp [Turn.conf, hconf, Except.toOption], ?_⟩
      cases hmode : conf.mode with
      | sqldb first rest =>
          refine .inl ⟨?_, first, rest, rfl, fun s d => ?_⟩
          · simp [Turn.isRedis, Turn.conf, hconf, hmode, Except.toOption]
          · simp [Turn.init, Process.init_eq hconf, hmode]
      | redis cfg =>
          refine .inr (.inl ⟨?_, cfg, rfl, fun s d => ?_⟩)
          · simp [Turn.isRedis, Turn.conf, hconf, hmode, Except.toOption]
          · simp [Turn.init, Process.init_eq hconf, hmode]
      | authority =>
          refine .inr (.inr ⟨?_, rfl, fun s d => ?_⟩)
          · simp [Turn.isRedis, Turn.conf, hconf, hmode, Except.toOption]
          · simp [Turn.init, Process.init_eq hconf, hmode]

/-- A call leaves the authority file as its load does, whatever the process. -/
theorem Turn.init_file (t : Turn κ ρ δ) (s : Process κ ρ) (d : δ) :
    (t.init s d).2.2 = (t.load d).2 := by
  rcases t.init_cases with ⟨hnone, -, err, hinit⟩ | ⟨conf, hconf, ⟨-, first, rest, hmode, hinit⟩ |
    ⟨-, cfg, hmode, hinit⟩ | ⟨-, hmode, hinit⟩⟩
  · rw [hinit, load, hnone]
    rfl
  · rw [hinit, load, hconf, Option.map_some, hmode]
  · rw [hinit, load, hconf, Option.map_some, hmode]
  · rw [hinit, load, hconf, Option.map_some, hmode]
    exact (Process.initAuthority_result t.env t.db t.root t.confPath t.authorityUri conf s d).2

/-- The load of a call that succeeded did. -/
theorem Turn.load_of_ok {t : Turn κ ρ δ} {s : Process κ ρ} {d : δ} (h : (t.init s d).1 = .ok ()) :
    (t.load d).1 = true := by
  rcases t.init_cases with ⟨-, -, err, hinit⟩ | ⟨conf, hconf, ⟨-, first, rest, hmode, -⟩ |
    ⟨-, cfg, hmode, -⟩ | ⟨-, hmode, hinit⟩⟩
  · rw [hinit] at h
    cases h
  · rw [load, hconf, Option.map_some, hmode]
  · rw [load, hconf, Option.map_some, hmode]
  · rw [load, hconf, Option.map_some, hmode]
    rw [hinit, (Process.initAuthority_result t.env t.db t.root t.confPath t.authorityUri conf s
      d).1] at h
    obtain ⟨names, hnames, -⟩ := map_eq_ok_iff.mp h
    simp only [hnames]
    rfl

/-- Whether a configuration is accepted depends on the process only by its Redis registry,
and only for a Redis configuration, and on the authority file only by its load. -/
theorem Turn.ok_of_ok {t : Turn κ ρ δ} {s s' : Process κ ρ} {d d' : δ}
    (hok : (t.init s d).1 = .ok ())
    (hredis : t.isRedis = true → s.redisRegistry = s'.redisRegistry)
    (hload : (t.load d').1 = true) : (t.init s' d').1 = .ok () := by
  rcases t.init_cases with ⟨-, -, err, hinit⟩ | ⟨conf, hconf, ⟨-, first, rest, -, hinit⟩ |
    ⟨hisRedis, cfg, -, hinit⟩ | ⟨-, hmode, hinit⟩⟩
  · rw [hinit] at hok
    cases hok
  · rw [hinit] at hok ⊢
    exact (Process.initSqldb_result t.env conf first rest s' s).trans hok
  · rw [hinit] at hok ⊢
    exact (Process.initRedis_result t.env conf cfg (hredis hisRedis).symm).trans hok
  · rw [hinit, (Process.initAuthority_result t.env t.db t.root t.confPath t.authorityUri conf s'
      d').1]
    rw [load, hconf, Option.map_some, hmode] at hload
    generalize Loader.buildAuthorityFromKnowdb t.db t.env.toEnvironment t.root t.confPath
      t.authorityUri d' = r at hload
    obtain ⟨_ | names, d₁⟩ := r
    · cases hload
    · rfl

/-- A call that succeeded was an initialisation in the mode of its configuration. -/
theorem Turn.ok_cases {t : Turn κ ρ δ} {conf : Settings} (hconf : t.conf = some conf) :
    (t.isRedis = false ∧ ∃ first rest, conf.mode = .sqldb first rest ∧
      ∀ {s d}, (t.init s d).1 = .ok () →
        Process.initSqldb t.env conf first rest s = (.ok (), (t.init s d).2.1)) ∨
    (t.isRedis = true ∧ ∃ cfg, conf.mode = .redis cfg ∧
      ∀ {s d}, (t.init s d).1 = .ok () →
        Process.initRedis t.env conf cfg s = (.ok (), (t.init s d).2.1)) ∨
    (t.isRedis = false ∧ conf.mode = .authority ∧
      ∀ {s d}, (t.init s d).1 = .ok () →
        ∃ d', Process.initAuthority t.env t.db t.root t.confPath t.authorityUri conf s d =
          (.ok (), (t.init s d).2.1, d')) := by
  rcases t.init_cases with ⟨hnone, -⟩ | ⟨conf', hconf', hmodes⟩
  · rw [hconf] at hnone
    cases hnone
  · obtain rfl : conf = conf' := Option.some.inj (hconf.symm.trans hconf')
    rcases hmodes with ⟨hredis, first, rest, hmode, hinit⟩ | ⟨hredis, cfg, hmode, hinit⟩ |
      ⟨hredis, hmode, hinit⟩
    · refine .inl ⟨hredis, first, rest, hmode, fun {s d} h => ?_⟩
      rw [hinit] at h ⊢
      exact Prod.ext h rfl
    · refine .inr (.inl ⟨hredis, cfg, hmode, fun {s d} h => ?_⟩)
      rw [hinit] at h ⊢
      exact Prod.ext h rfl
    · refine .inr (.inr ⟨hredis, hmode, fun {s d} h => ?_⟩)
      rw [hinit] at h ⊢
      exact ⟨_, Prod.ext h rfl⟩

end Accepted

/-! ## What a call leaves of Redis -/

section Redis

variable [DefaultHasher]

/-- With the authority file, initialisation leaves Redis as it was. -/
theorem Process.initAuthority_sameRedis (env : Surroundings κ ρ) (db : Loader.Engine δ)
    (root confPath authorityUri : String) (conf : Settings) (s : Process κ ρ) (d : δ) :
    s.SameRedis (initAuthority env db root confPath authorityUri conf s d).2.1 := by
  obtain ⟨-, s₁, hinit, -, -, -, -, -, -, hsame⟩ :=
    s.initThreadClonedFromAuthority_ok (readOnlyUri authorityUri)
  unfold initAuthority
  split
  · exact .refl s
  · rw [hinit]
    exact hsame.trans ⟨rfl, rfl, rfl⟩

/-- A configuration that is no Redis one leaves Redis as it was. -/
theorem Turn.sameRedis {t : Turn κ ρ δ} (h : t.isRedis = false) (s : Process κ ρ) (d : δ) :
    s.SameRedis (t.init s d).2.1 := by
  rcases t.init_cases with ⟨-, -, err, hinit⟩ | ⟨conf, -, ⟨-, first, rest, -, hinit⟩ |
    ⟨hredis, -⟩ | ⟨-, -, hinit⟩⟩
  · rw [hinit]
    exact .refl s
  · rw [hinit]
    exact Process.initSqldb_sameRedis t.env conf first rest s
  · rw [h] at hredis
    cases hredis
  · rw [hinit]
    exact Process.initAuthority_sameRedis t.env t.db t.root t.confPath t.authorityUri conf s d

/-- What a Redis configuration sets when it is accepted. -/
structure RedisAccepted (conf : Settings) (s s' : Process κ ρ) : Prop where
  free : s.redisRegistry.names.lookup Redis.knowdb = none
  registered : (s'.redisRegistry.names.lookup Redis.knowdb).isSome
  funs : s'.funMap = Fun.registerFunMap s.funMap conf.funMap
  enabled : s'.redisCache.redisGlobalEnabled = conf.cache.enabled
  capacity : s'.redisCache.redisCache.cap = max conf.cache.capacity 1
  gate : s'.runtime.resultCacheEnabled = s.runtime.resultCacheEnabled

/-- A Redis configuration is only accepted while its name is free; its services are then
registered, unless others are, and the Redis cache is set, but not the flag of both caches. -/
theorem Turn.redis_ok {t : Turn κ ρ δ} (hredis : t.isRedis = true) {conf : Settings}
    (hconf : t.conf = some conf) {s : Process κ ρ} {d : δ} (h : (t.init s d).1 = .ok ()) :
    RedisAccepted conf s (t.init s d).2.1 := by
  rcases Turn.ok_cases hconf with ⟨hnot, -⟩ | ⟨-, cfg, -, hcall⟩ | ⟨hnot, -⟩
  · rw [hredis] at hnot
    cases hnot
  · obtain ⟨registry, hregister, hafter⟩ := Process.initRedis_ok (hcall h)
    obtain ⟨hfree, hnames, -⟩ := t.env.redis.resolve_of_initWithOpts hregister
    rw [hafter]
    exact ⟨hfree, by simp [hnames], rfl, rfl, rfl, rfl⟩
  · rw [hredis] at hnot
    cases hnot

/-- A registered Redis name and registered services stay. -/
theorem Turn.redis_stays (t : Turn κ ρ δ) (s : Process κ ρ) (d : δ) :
    ((s.redisRegistry.names.lookup Redis.knowdb).isSome →
      ((t.init s d).2.1.redisRegistry.names.lookup Redis.knowdb).isSome) ∧
    ∀ map, s.funMap = some map → (t.init s d).2.1.funMap = some map := by
  by_cases hredis : t.isRedis = true
  · rcases t.init_cases with ⟨-, hnot, -⟩ | ⟨conf, hconf, ⟨hnot, -⟩ | ⟨-, cfg, -, hinit⟩ |
      ⟨hnot, -⟩⟩
    · rw [hredis] at hnot
      cases hnot
    · rw [hredis] at hnot
      cases hnot
    · cases hresult : (t.init s d).1 with
      | ok u =>
          have haccepted := t.redis_ok hredis hconf hresult
          refine ⟨fun _ => haccepted.registered, ?_⟩
          intro map hmap
          rw [haccepted.funs, hmap]
          rfl
      | error err =>
          rw [hinit] at hresult ⊢
          unfold Process.initRedis at hresult ⊢
          split
          · rename_i hfailed
            rw [t.env.redis.initWithOpts_error hfailed]
            exact ⟨id, fun _ => id⟩
          · rename_i hok
            rw [hok] at hresult
            cases hresult
    · rw [hredis] at hnot
      cases hnot
  · have hsame := t.sameRedis (Bool.not_eq_true _ ▸ hredis) s d
    rw [hsame.redisRegistry, hsame.funMap]
    exact ⟨id, fun _ => id⟩

/-! ## What a sequence leaves -/

variable (opened : String → String)

theorem afterTurns_append (before after : List (Turn κ ρ δ)) (site : Site κ ρ δ) :
    afterTurns opened (before ++ after) site =
      afterTurns opened after (afterTurns opened before site) :=
  List.foldl_append ..

theorem afterTurns_cons (t : Turn κ ρ δ) (turns : List (Turn κ ρ δ)) (site : Site κ ρ δ) :
    afterTurns opened (t :: turns) site = afterTurns opened turns (t.initAt opened site).2 := rfl

theorem afterTurns_snoc (turns : List (Turn κ ρ δ)) (t : Turn κ ρ δ) (site : Site κ ρ δ) :
    afterTurns opened (turns ++ [t]) site =
      (t.initAt opened (afterTurns opened turns site)).2 :=
  afterTurns_append opened turns [t] site

/-- The files after a sequence are those that its loads leave. -/
theorem files_afterTurns (turns : List (Turn κ ρ δ)) (site : Site κ ρ δ) :
    (afterTurns opened turns site).files = filesAfter opened turns site.files := by
  induction turns generalizing site with
  | nil => rfl
  | cons t turns ih =>
      rw [afterTurns_cons, ih]
      have hfiles : (t.initAt opened site).2.files = Function.update site.files
          (opened t.authorityUri) (t.load (site.files (opened t.authorityUri))).2 := by
        rw [← t.init_file site.process]
        rfl
      rw [hfiles]
      rfl

/-- Without a Redis configuration, Redis is left as it was. -/
theorem sameRedis_afterTurns {turns : List (Turn κ ρ δ)} (h : ∀ t ∈ turns, t.isRedis = false)
    (site : Site κ ρ δ) : site.process.SameRedis (afterTurns opened turns site).process := by
  induction turns generalizing site with
  | nil => exact .refl site.process
  | cons t turns ih =>
      rw [afterTurns_cons]
      have hfirst : site.process.SameRedis (t.initAt opened site).2.process :=
        t.sameRedis (h t List.mem_cons_self) site.process _
      exact hfirst.trans (ih (fun u hu => h u (List.mem_cons_of_mem t hu)) _)

/-- A registered Redis name and registered services stay over any sequence. -/
theorem redis_stays_afterTurns (turns : List (Turn κ ρ δ)) (site : Site κ ρ δ) :
    ((site.process.redisRegistry.names.lookup Redis.knowdb).isSome →
      ((afterTurns opened turns site).process.redisRegistry.names.lookup Redis.knowdb).isSome) ∧
    ∀ map, site.process.funMap = some map →
      (afterTurns opened turns site).process.funMap = some map := by
  induction turns generalizing site with
  | nil => exact ⟨id, fun _ => id⟩
  | cons t turns ih =>
      obtain ⟨hname, hfuns⟩ := t.redis_stays site.process (site.files (opened t.authorityUri))
      obtain ⟨hname', hfuns'⟩ := ih (t.initAt opened site).2
      rw [afterTurns_cons]
      exact ⟨fun h => hname' (hname h), fun map h => hfuns' map (hfuns map h)⟩

end Redis

/-! ## What a call sets up -/

section Setup

variable [DefaultHasher]

/-- Handles made for one database in one world are alike. -/
theorem Process.HandleFor.source_eq {env : Surroundings κ ρ} {spec : SqlProviderSpec}
    {generation generation' : Nat} {handle handle' : ProviderHandle (InstalledProvider κ)}
    (h : HandleFor env spec generation handle) (h' : HandleFor env spec generation' handle') :
    handle.source = handle'.source := by
  obtain ⟨pool, hconnect, hprovider⟩ := h.provider
  obtain ⟨pool', hconnect', hprovider'⟩ := h'.provider
  obtain rfl : pool = pool' := Except.ok.inj (hconnect.symm.trans hconnect')
  unfold ProviderHandle.source
  rw [h.kind, h'.kind, h.datasourceId, h'.datasourceId, hprovider, hprovider']
  unfold SqlProviderSpec.provider
  cases spec.kind <;> rfl

/-- The registry of databases does not depend on the process before. -/
theorem Process.initSqldb_registry {env : Surroundings κ ρ} {conf : Settings}
    {first : SqlProviderSpec} {rest : List SqlProviderSpec} {s₁ s₂ s₁' s₂' : Process κ ρ}
    (h₁ : initSqldb env conf first rest s₁ = (.ok (), s₁'))
    (h₂ : initSqldb env conf first rest s₂ = (.ok (), s₂')) (name : String) :
    (s₂'.registered name).map ProviderHandle.source =
      (s₁'.registered name).map ProviderHandle.source := by
  obtain ⟨expected, t₁, hvalid, hinstall₁, rfl⟩ := initSqldb_ok h₁
  obtain ⟨expected', t₂, hvalid', hinstall₂, rfl⟩ := initSqldb_ok h₂
  obtain rfl : expected = expected' := Except.ok.inj (hvalid.symm.trans hvalid')
  obtain ⟨hnodup, hnames⟩ := SqlProviderSpec.validateSpecs_ok hvalid
  rw [registered_settle, registered_settle]
  by_cases hname : name ∈ expected
  · rw [if_pos hname, if_pos hname]
    obtain ⟨spec, hspec, rfl⟩ := List.mem_map.mp ((hnames name).mp hname)
    obtain ⟨handle₁, hhandle₁, hfor₁⟩ := (installSpecs_ok hnodup hinstall₁).1 spec hspec
    obtain ⟨handle₂, hhandle₂, hfor₂⟩ := (installSpecs_ok hnodup hinstall₂).1 spec hspec
    rw [hhandle₁, hhandle₂, Option.map_some, Option.map_some, hfor₂.source_eq hfor₁]
  · rw [if_neg hname, if_neg hname]

/-- The registry with the authority file does not depend on the process before. -/
theorem Process.initAuthority_registry {env : Surroundings κ ρ} {db : Loader.Engine δ}
    {root confPath authorityUri : String} {conf : Settings} {s₁ s₂ s₁' s₂' : Process κ ρ}
    {d₁ d₂ d₁' d₂' : δ}
    (h₁ : initAuthority env db root confPath authorityUri conf s₁ d₁ = (.ok (), s₁', d₁'))
    (h₂ : initAuthority env db root confPath authorityUri conf s₂ d₂ = (.ok (), s₂', d₂'))
    (name : String) :
    (s₂'.registered name).map ProviderHandle.source =
      (s₁'.registered name).map ProviderHandle.source := by
  obtain ⟨t₁, hinit₁, rfl⟩ := initAuthority_ok h₁
  obtain ⟨t₂, hinit₂, rfl⟩ := initAuthority_ok h₂
  obtain ⟨handle₁, u₁, hu₁, hhandle₁, -, -, hkind₁, hid₁, hprovider₁, -⟩ :=
    s₁.initThreadClonedFromAuthority_ok (readOnlyUri authorityUri)
  obtain ⟨handle₂, u₂, hu₂, hhandle₂, -, -, hkind₂, hid₂, hprovider₂, -⟩ :=
    s₂.initThreadClonedFromAuthority_ok (readOnlyUri authorityUri)
  obtain rfl : u₁ = t₁ := (Prod.mk.inj (hu₁.symm.trans hinit₁)).2
  obtain rfl : u₂ = t₂ := (Prod.mk.inj (hu₂.symm.trans hinit₂)).2
  rw [registered_settle, registered_settle]
  by_cases hname : name ∈ [defaultSqldbName]
  · rw [if_pos hname, if_pos hname, List.mem_singleton.mp hname, hhandle₁, hhandle₂]
    simp [ProviderHandle.source, hkind₁, hkind₂, hid₁, hid₂, hprovider₁, hprovider₂,
      InstalledProvider.source]
  · rw [if_neg hname, if_neg hname]

/-- A configuration that is no Redis one sets the result cache as it asks. -/
theorem Turn.resultCache_ok {t : Turn κ ρ δ} (hredis : t.isRedis = false) {conf : Settings}
    (hconf : t.conf = some conf) {s : Process κ ρ} {d : δ} (h : (t.init s d).1 = .ok ()) :
    (t.init s d).2.1.runtime.resultCacheEnabled = conf.cache.enabled ∧
      (t.init s d).2.1.runtime.resultCacheConfig = conf.cacheCall.newConfig ∧
      (t.init s d).2.1.runtime.resultCacheTtlMs =
        min conf.cacheCall.newConfig.ttl.asMillis u64Max := by
  rcases Turn.ok_cases hconf with ⟨-, first, rest, -, hcall⟩ | ⟨hnot, -⟩ | ⟨-, -, hcall⟩
  · obtain ⟨expected, v, -, -, hafter⟩ := Process.initSqldb_ok (hcall h)
    rw [hafter]
    exact ⟨rfl, rfl, rfl⟩
  · rw [hredis] at hnot
    cases hnot
  · obtain ⟨d', hcalled⟩ := hcall h
    obtain ⟨v, -, hafter⟩ := Process.initAuthority_ok hcalled
    rw [hafter]
    exact ⟨rfl, rfl, rfl⟩

omit [DefaultHasher] in
/-- A configuration is a Redis one by its mode. -/
theorem Turn.isRedis_eq_false {t : Turn κ ρ δ} {conf : Settings} (hconf : t.conf = some conf)
    (hmode : ∀ cfg, conf.mode ≠ .redis cfg) : t.isRedis = false := by
  unfold isRedis
  rw [hconf, Option.map_some]
  split
  · rename_i cfg heq
    exact absurd (Option.some.inj heq) (hmode cfg)
  · rfl

/-- What a configuration sets up when it is accepted does not depend on the process before,
if the services, the Redis cache and the flags of the caches do not. -/
theorem Turn.sameSetup {t : Turn κ ρ δ} {conf : Settings} (hconf : t.conf = some conf)
    {s s' : Process κ ρ} {d d' : δ} (h : (t.init s d).1 = .ok ())
    (h' : (t.init s' d').1 = .ok ()) (hcaches : SameCaches (t.init s d).2.1 (t.init s' d').2.1)
    (hfuns : ∀ name, Fun.definition (t.init s' d').2.1.funMap name =
      Fun.definition (t.init s d).2.1.funMap name) :
    SameSetup conf (t.init s d).2.1 (t.init s' d').2.1 := by
  refine ⟨?_, hcaches, ?_, hfuns⟩
  · rcases Turn.ok_cases hconf with ⟨-, first, rest, hmode, hcall⟩ | ⟨-, cfg, hmode, hcall⟩ |
      ⟨-, hmode, hcall⟩
    · exact Process.initSqldb_registry (hcall h) (hcall h')
    · obtain ⟨registry, -, hafter⟩ := Process.initRedis_ok (hcall h)
      obtain ⟨registry', -, hafter'⟩ := Process.initRedis_ok (hcall h')
      intro name
      rw [hafter, hafter']
      simp [Process.registered, KnowledgeRuntime.pruneNamedProvidersExcept,
        HashMap.lookup_retain]
    · obtain ⟨_, hcalled⟩ := hcall h
      obtain ⟨_, hcalled'⟩ := hcall h'
      exact Process.initAuthority_registry hcalled hcalled'
  · intro hmode
    have hredis := Turn.isRedis_eq_false hconf hmode
    obtain ⟨-, hconfig, httl⟩ := Turn.resultCache_ok hredis hconf h
    obtain ⟨-, hconfig', httl'⟩ := Turn.resultCache_ok hredis hconf h'
    exact ⟨hconfig'.trans hconfig.symm, httl'.trans httl.symm⟩

/-! ## Which sequences work -/

omit [DefaultHasher] in
theorem Turn.exists_conf (t : Turn κ ρ δ) (h : t.isRedis = true) : ∃ conf, t.conf = some conf := by
  cases hconf : t.conf with
  | none =>
      rw [isRedis, hconf] at h
      cases h
  | some conf => exact ⟨conf, rfl⟩

/-- A call that was accepted had a configuration. -/
theorem Turn.exists_conf_of_ok (t : Turn κ ρ δ) {s : Process κ ρ} {d : δ}
    (h : (t.init s d).1 = .ok ()) : ∃ conf, t.conf = some conf := by
  rcases t.init_cases with ⟨-, -, err, hinit⟩ | ⟨conf, hconf, -⟩
  · rw [hinit] at h
    cases h
  · exact ⟨conf, hconf⟩

/-- Two calls for a Redis server in one sequence. -/
abbrev NotBothRedis (t u : Turn κ ρ δ) : Prop :=
  ¬ (t.isRedis = true ∧ u.isRedis = true)

omit [DefaultHasher] in
/-- Around a Redis configuration there is no other. -/
theorem not_isRedis_of_pairwise {before after : List (Turn κ ρ δ)} {t : Turn κ ρ δ}
    (h : (before ++ t :: after).Pairwise NotBothRedis) (ht : t.isRedis = true) :
    (∀ u ∈ before, u.isRedis = false) ∧ ∀ u ∈ after, u.isRedis = false := by
  rw [List.pairwise_append, List.pairwise_cons] at h
  constructor
  · intro u hu
    rw [← Bool.not_eq_true]
    exact fun hredis => h.2.2 u hu t List.mem_cons_self ⟨hredis, ht⟩
  · intro u hu
    rw [← Bool.not_eq_true]
    exact fun hredis => h.2.1.1 u hu ⟨ht, hredis⟩

section Works

variable {opened : String → String} {files : String → δ}

/-- If all calls of a sequence succeed, at most one is for a Redis server. -/
theorem pairwise_of_accepted {turns : List (Turn κ ρ δ)}
    (haccepted : ∀ {before t after}, turns = before ++ t :: after →
      (t.initAt opened (afterTurns opened before (Site.new κ ρ files))).1 = .ok ()) :
    turns.Pairwise NotBothRedis := by
  induction turns using List.reverseRecOn with
  | nil => exact .nil
  | append_singleton turns u ih =>
      rw [List.pairwise_append]
      refine ⟨ih ?_, List.pairwise_singleton _ u, ?_⟩
      · intro before t after heq
        exact @haccepted before t (after ++ [u]) (by rw [heq]; simp)
      · rintro t ht u' hu ⟨htredis, huredis⟩
        obtain rfl := List.mem_singleton.mp hu
        -- the name registered by the first is still there when the second comes
        obtain ⟨before, mid, rfl⟩ := List.append_of_mem ht
        have htok := @haccepted before t (mid ++ [u']) (by simp)
        have huok := @haccepted (before ++ t :: mid) u' [] rfl
        obtain ⟨conf, hconf⟩ := t.exists_conf htredis
        obtain ⟨conf', hconf'⟩ := u'.exists_conf huredis
        have hsome := (t.redis_ok htredis hconf htok).registered
        have hfree := (u'.redis_ok huredis hconf' huok).free
        rw [afterTurns_append, afterTurns_cons] at hfree
        have hstays := (redis_stays_afterTurns opened mid
          (t.initAt opened (afterTurns opened before (Site.new κ ρ files))).2).1 hsome
        rw [hfree] at hstays
        cases hstays

/-- If all calls of a sequence succeed, so do all loads. -/
theorem loadsAccepted_of_accepted {turns : List (Turn κ ρ δ)}
    (haccepted : ∀ {before t after}, turns = before ++ t :: after →
      (t.initAt opened (afterTurns opened before (Site.new κ ρ files))).1 = .ok ()) :
    LoadsAccepted opened turns files := by
  intro before t after hturns
  have hload := Turn.load_of_ok (haccepted hturns)
  rw [files_afterTurns] at hload
  exact hload

/-- If all loads of a sequence succeed and at most one configuration is a Redis one, all
calls succeed, given that each does at the new site. -/
theorem accepted_of_pairwise {turns : List (Turn κ ρ δ)}
    (hfresh : ∀ t ∈ turns, (t.initAt opened (Site.new κ ρ files)).1 = .ok ())
    (hloads : LoadsAccepted opened turns files) (h : turns.Pairwise NotBothRedis)
    {before after : List (Turn κ ρ δ)} {t : Turn κ ρ δ} (hturns : turns = before ++ t :: after) :
    (t.initAt opened (afterTurns opened before (Site.new κ ρ files))).1 = .ok () := by
  have hload := hloads before t after hturns
  have hok := hfresh t (by simp [hturns])
  rw [hturns] at h
  refine Turn.ok_of_ok hok ?_ ?_
  · intro ht
    exact (sameRedis_afterTurns opened (not_isRedis_of_pairwise h ht).1 _).redisRegistry.symm
  · rw [files_afterTurns]
    exact hload

omit [DefaultHasher] in
/-- What belongs to Redis is as in a new process. -/
structure RedisAsNew (s : Process κ ρ) : Prop where
  enabled : s.redisCache.redisGlobalEnabled = true
  capacity : s.redisCache.redisCache.cap = 1024
  noServices : ∀ name, Fun.definition s.funMap name = none

omit [DefaultHasher] in
theorem RedisAsNew.of_sameRedis {s s' : Process κ ρ} (h : RedisAsNew s) (hsame : s.SameRedis s') :
    RedisAsNew s' := by
  constructor
  · rw [hsame.redisCache]
    exact h.enabled
  · rw [hsame.redisCache]
    exact h.capacity
  · rw [hsame.funMap]
    exact h.noServices

omit [DefaultHasher] in
theorem redisAsNew_new : RedisAsNew (Process.new κ ρ) :=
  ⟨rfl, rfl, fun _ => rfl⟩

/-- After the only Redis configuration of a sequence, what belongs to Redis is as in a new
process exactly if the configuration sets what a new process has. -/
theorem redisAsNew_iff_setsDefaults {before after : List (Turn κ ρ δ)} {t : Turn κ ρ δ}
    (hpairwise : (before ++ t :: after).Pairwise NotBothRedis) (ht : t.isRedis = true)
    {conf : Settings} (hconf : t.conf = some conf)
    (hok : (t.initAt opened (afterTurns opened before (Site.new κ ρ files))).1 = .ok ()) :
    RedisAsNew (afterTurns opened (before ++ t :: after) (Site.new κ ρ files)).process ↔
      SetsDefaults conf := by
  obtain ⟨hbefore, hafter⟩ := not_isRedis_of_pairwise hpairwise ht
  have haccepted := t.redis_ok ht hconf hok
  have hnone : (afterTurns opened before (Site.new κ ρ files)).process.funMap = none :=
    (sameRedis_afterTurns opened hbefore _).funMap
  have hstays := sameRedis_afterTurns opened hafter
    (t.initAt opened (afterTurns opened before (Site.new κ ρ files))).2
  have hfuns := haccepted.funs
  rw [hnone] at hfuns
  have hdefinition : ∀ name, Fun.definition (afterTurns opened (before ++ t :: after)
      (Site.new κ ρ files)).process.funMap name = (conf.funMap.lookup name).map FunSpec.cached := by
    intro name
    rw [afterTurns_append, afterTurns_cons, hstays.funMap,
      ← Fun.definition_registerFunMap_none conf.funMap name, ← hfuns]
    rfl
  have hcache : (afterTurns opened (before ++ t :: after) (Site.new κ ρ files)).process.redisCache =
      (t.initAt opened (afterTurns opened before (Site.new κ ρ files))).2.process.redisCache := by
    rw [afterTurns_append, afterTurns_cons, hstays.redisCache]
  constructor
  · intro hnew
    have henabled := hnew.enabled
    have hcapacity := hnew.capacity
    rw [hcache] at henabled hcapacity
    refine ⟨?_, haccepted.enabled.symm.trans henabled, haccepted.capacity.symm.trans hcapacity⟩
    intro name
    exact Option.map_eq_none_iff.mp ((hdefinition name).symm.trans (hnew.noServices name))
  · intro hdefaults
    constructor
    · rw [hcache]
      exact haccepted.enabled.trans hdefaults.enabled
    · rw [hcache]
      exact haccepted.capacity.trans hdefaults.capacity
    · intro name
      rw [hdefinition, hdefaults.noServices]
      rfl

/-- After accepted calls, what belongs to Redis is as in a new process exactly if every Redis
configuration among them sets what a new process has. -/
theorem redisAsNew_afterTurns_iff {turns : List (Turn κ ρ δ)}
    (hpairwise : turns.Pairwise NotBothRedis)
    (haccepted : ∀ {before t after}, turns = before ++ t :: after →
      (t.initAt opened (afterTurns opened before (Site.new κ ρ files))).1 = .ok ()) :
    RedisAsNew (afterTurns opened turns (Site.new κ ρ files)).process ↔
      ∀ t ∈ turns, t.isRedis = true → ∀ conf, t.conf = some conf → SetsDefaults conf := by
  by_cases hredis : ∃ t ∈ turns, t.isRedis = true
  · obtain ⟨t, ht, htredis⟩ := hredis
    obtain ⟨conf, hconf⟩ := t.exists_conf htredis
    obtain ⟨before, after, rfl⟩ := List.append_of_mem ht
    rw [redisAsNew_iff_setsDefaults hpairwise htredis hconf (haccepted rfl)]
    constructor
    · intro hdefaults u hu huredis conf' hconf'
      obtain ⟨hbefore, hafter⟩ := not_isRedis_of_pairwise hpairwise htredis
      rcases List.mem_append.mp hu with hu | hu
      · rw [hbefore u hu] at huredis
        cases huredis
      · rcases List.mem_cons.mp hu with rfl | hu
        · rw [hconf] at hconf'
          exact Option.some.inj hconf' ▸ hdefaults
        · rw [hafter u hu] at huredis
          cases huredis
    · intro hall
      exact hall t ht htredis conf hconf
  · have hnone : ∀ t ∈ turns, t.isRedis = false := by
      intro t ht
      rw [← Bool.not_eq_true]
      exact fun htredis => hredis ⟨t, ht, htredis⟩
    refine iff_of_true (redisAsNew_new.of_sameRedis
      (sameRedis_afterTurns opened hnone (Site.new κ ρ files))) ?_
    intro t ht htredis
    rw [hnone t ht] at htredis
    cases htredis

/-- After accepted calls, none of them for a Redis server, the flag of both caches is the one
of a new process exactly if the last configuration has the cache on. -/
theorem resultCacheEnabled_afterTurns_iff {turns : List (Turn κ ρ δ)}
    (hnone : ∀ t ∈ turns, t.isRedis = false)
    (haccepted : ∀ {before t after}, turns = before ++ t :: after →
      (t.initAt opened (afterTurns opened before (Site.new κ ρ files))).1 = .ok ()) :
    (afterTurns opened turns (Site.new κ ρ files)).process.runtime.resultCacheEnabled = true ↔
      ∀ before t, turns = before ++ [t] → ∀ conf, t.conf = some conf →
        conf.cache.enabled = true := by
  rcases List.eq_nil_or_concat turns with rfl | ⟨before, t, hconcat⟩
  · refine iff_of_true rfl ?_
    intro before t hnil
    cases before <;> cases hnil
  · rw [List.concat_eq_append] at hconcat
    subst hconcat
    have hok := @haccepted before t [] rfl
    obtain ⟨conf, hconf⟩ := t.exists_conf_of_ok hok
    have henabled : (t.initAt opened (afterTurns opened before
        (Site.new κ ρ files))).2.process.runtime.resultCacheEnabled = conf.cache.enabled :=
      (Turn.resultCache_ok (hnone t (by simp)) hconf hok).1
    rw [afterTurns_snoc, henabled]
    constructor
    · intro hon before' t' heq conf' hconf'
      obtain rfl : t = t' := by
        have hlast := congrArg List.getLast? heq
        simpa using hlast
      rw [hconf] at hconf'
      exact Option.some.inj hconf' ▸ hon
    · intro hall
      exact hall before t rfl conf hconf

/-- After a Redis configuration as the last one, the process is set up as a new one would be
exactly if the flag of both caches was the one of a new process before. -/
theorem sameSetup_redis_iff {t : Turn κ ρ δ} (ht : t.isRedis = true) {conf : Settings}
    (hconf : t.conf = some conf) {site : Site κ ρ δ} (hfunMap : site.process.funMap = none)
    (hok : (t.initAt opened site).1 = .ok ())
    (hfresh : (t.initAt opened (Site.new κ ρ files)).1 = .ok ()) :
    SameSetup conf (t.initAt opened (Site.new κ ρ files)).2.process
        (t.initAt opened site).2.process ↔
      site.process.runtime.resultCacheEnabled = true := by
  have hlast := t.redis_ok ht hconf hok
  have hnew := t.redis_ok ht hconf hfresh
  constructor
  · intro hsetup
    exact hlast.gate.symm.trans (hsetup.caches.resultCacheEnabled.trans hnew.gate)
  · intro henabled
    refine Turn.sameSetup hconf hfresh hok ?_ ?_
    · exact ⟨hlast.enabled.trans hnew.enabled.symm,
        hlast.gate.trans (henabled.trans hnew.gate.symm),
        hlast.capacity.trans hnew.capacity.symm⟩
    · intro name
      rw [hlast.funs, hnew.funs, hfunMap]
      rfl

/-- After another configuration as the last one, the process is set up as a new one would be
exactly if what belongs to Redis was as in a new process before. -/
theorem sameSetup_other_iff {t : Turn κ ρ δ} (ht : t.isRedis = false) {conf : Settings}
    (hconf : t.conf = some conf) {site : Site κ ρ δ} (hok : (t.initAt opened site).1 = .ok ())
    (hfresh : (t.initAt opened (Site.new κ ρ files)).1 = .ok ()) :
    SameSetup conf (t.initAt opened (Site.new κ ρ files)).2.process
        (t.initAt opened site).2.process ↔ RedisAsNew site.process := by
  have hlast : site.process.SameRedis (t.initAt opened site).2.process := t.sameRedis ht _ _
  have hnew : (Process.new κ ρ).SameRedis (t.initAt opened (Site.new κ ρ files)).2.process :=
    t.sameRedis ht _ _
  have hnewRedis := redisAsNew_new.of_sameRedis hnew
  constructor
  · intro hsetup
    constructor
    · rw [← hlast.redisCache, hsetup.caches.redisGlobalEnabled]
      exact hnewRedis.enabled
    · rw [← hlast.redisCache, hsetup.caches.redisCapacity]
      exact hnewRedis.capacity
    · intro name
      rw [← hlast.funMap, hsetup.funs]
      exact hnewRedis.noServices name
  · intro hredis
    have hlastRedis := hredis.of_sameRedis hlast
    have henabled := (Turn.resultCache_ok ht hconf hok).1.trans
      (Turn.resultCache_ok ht hconf hfresh).1.symm
    refine Turn.sameSetup hconf hfresh hok ?_ ?_
    · exact ⟨hlastRedis.enabled.trans hnewRedis.enabled.symm, henabled,
        hlastRedis.capacity.trans hnewRedis.capacity.symm⟩
    · intro name
      exact (hlastRedis.noServices name).trans (hnewRedis.noServices name).symm

/-- Which of the last configurations are set up as in a new process, among accepted calls. -/
theorem sameSetup_last_iff {before : List (Turn κ ρ δ)} {t : Turn κ ρ δ} {conf : Settings}
    (hpairwise : (before ++ [t]).Pairwise NotBothRedis)
    (haccepted : ∀ {front u back}, before ++ [t] = front ++ u :: back →
      (u.initAt opened (afterTurns opened front (Site.new κ ρ files))).1 = .ok ())
    (hfresh : (t.initAt opened (Site.new κ ρ files)).1 = .ok ()) (hconf : t.conf = some conf) :
    SameSetup conf (t.initAt opened (Site.new κ ρ files)).2.process
        (afterTurns opened (before ++ [t]) (Site.new κ ρ files)).process ↔
      (∀ u ∈ before, u.isRedis = true → ∀ conf, u.conf = some conf → SetsDefaults conf) ∧
        (t.isRedis = true → ∀ front u, before = front ++ [u] → ∀ conf, u.conf = some conf →
          conf.cache.enabled = true) := by
  have hok := @haccepted before t [] rfl
  have hbeforeAccepted : ∀ {front u back}, before = front ++ u :: back →
      (u.initAt opened (afterTurns opened front (Site.new κ ρ files))).1 = .ok () := by
    intro front u back heq
    exact @haccepted front u (back ++ [t]) (by rw [heq]; simp)
  rw [afterTurns_snoc]
  by_cases ht : t.isRedis = true
  · have hnone := (not_isRedis_of_pairwise hpairwise ht).1
    have hfunMap := (sameRedis_afterTurns opened hnone (Site.new κ ρ files)).funMap
    rw [sameSetup_redis_iff ht hconf hfunMap hok hfresh,
      resultCacheEnabled_afterTurns_iff hnone hbeforeAccepted]
    constructor
    · intro henabled
      refine ⟨fun u hu huredis => ?_, fun _ => henabled⟩
      rw [hnone u hu] at huredis
      cases huredis
    · intro hcond
      exact hcond.2 ht
  · have hpairwise' := (List.pairwise_append.mp hpairwise).1
    rw [sameSetup_other_iff (Bool.not_eq_true _ ▸ ht) hconf hok hfresh,
      redisAsNew_afterTurns_iff hpairwise' hbeforeAccepted]
    exact (and_iff_left fun htredis => absurd htredis ht).symm

/-- For every sequence of configurations, each of which a new process accepts: all of them
are accepted one after the other, and the process ends up as a new one would with the last,
exactly if each load of the authority file succeeds on what the loads before it leave, at most
one of the configurations is a Redis one, and this one, should it not be the last, sets what a
new process has, or else follows one that leaves the cache on. -/
theorem reload_works_iff (turns : List (Turn κ ρ δ))
    (hfresh : ∀ t ∈ turns, (t.initAt opened (Site.new κ ρ files)).1 = .ok ()) :
    ReloadWorks opened turns files ↔ LoadsAccepted opened turns files ∧ AtMostOneRedis turns := by
  constructor
  · intro hworks
    have hpairwise := pairwise_of_accepted hworks.accepted
    refine ⟨loadsAccepted_of_accepted hworks.accepted, hpairwise, ?_, ?_⟩
    · intro t ht htredis conf hconf
      rcases List.eq_nil_or_concat turns with rfl | ⟨before, u, hconcat⟩
      · cases ht
      · rw [List.concat_eq_append] at hconcat
        subst hconcat
        rw [List.dropLast_concat] at ht
        have hufresh := hfresh u (by simp)
        obtain ⟨confU, hconfU⟩ := u.exists_conf_of_ok hufresh
        exact ((sameSetup_last_iff hpairwise hworks.accepted hufresh hconfU).mp
          (hworks.last rfl hconfU)).1 t ht htredis conf hconf
    · intro front t u hturns huredis conf hconf
      have hsplit : turns = (front ++ [t]) ++ [u] := by simp [hturns]
      subst hsplit
      have hufresh := hfresh u (by simp)
      obtain ⟨confU, hconfU⟩ := u.exists_conf_of_ok hufresh
      exact ((sameSetup_last_iff hpairwise hworks.accepted hufresh hconfU).mp
        (hworks.last rfl hconfU)).2 huredis front t rfl conf hconf
  · rintro ⟨hloads, hone⟩
    have haccepted : ∀ {before t after}, turns = before ++ t :: after →
        (t.initAt opened (afterTurns opened before (Site.new κ ρ files))).1 = .ok () :=
      accepted_of_pairwise hfresh hloads hone.pairwise
    refine ⟨haccepted, ?_⟩
    intro before t conf hturns hconf
    subst hturns
    refine (sameSetup_last_iff hone.pairwise haccepted (hfresh t (by simp)) hconf).mpr ⟨?_, ?_⟩
    · intro u hu huredis confU hconfU
      exact hone.before_last u (by rw [List.dropLast_concat]; exact hu) huredis confU hconfU
    · intro htredis front u hbefore confU hconfU
      exact hone.last front u t (by rw [hbefore]; simp) htredis confU hconfU

end Works

end Setup

/-! ## Reloading a Redis configuration -/

/-- A call with a configuration, among servers that accept every connection. -/
def turnWith (conf : Settings) : Turn Unit Unit Unit where
  env := oneFileSurroundings conf
  db := emptyEngine
  root := "/"
  confPath := "knowdb.toml"
  authorityUri := "file:a.db"

/-- A new process and one authority file. -/
def newSite : Site Unit Unit Unit :=
  Site.new Unit Unit fun _ => ()

/-- The second call with the same Redis configuration is refused. -/
theorem not_reload_works_redis_again :
    letI := sipHasher
    ¬ ∀ turns : List (Turn Unit Unit Unit),
      (∀ t ∈ turns, (t.initAt id newSite).1 = .ok ()) → ReloadWorks id turns fun _ => () := by
  let _ := sipHasher
  intro h
  have hfresh : ∀ t ∈ [turnWith redisSettings, turnWith redisSettings],
      (t.initAt id newSite).1 = .ok () := by
    intro t ht
    rw [List.mem_pair, or_self] at ht
    subst ht
    rfl
  have hagain := @ReloadWorks.accepted _ _ _ _ _ _ _ (h _ hfresh) [turnWith redisSettings]
    (turnWith redisSettings) [] rfl
  have hrefused : ((turnWith redisSettings).initAt id
      (afterTurns id [turnWith redisSettings] newSite)).1 =
        .error ⟨.coreConf, "redis provider 'knowdb' already registered"⟩ := by
    rfl
  rw [newSite] at hrefused
  rw [hrefused] at hagain
  cases hagain

/-- Two databases, none of them named `default`. -/
def twoDatabases : Settings where
  version := 2
  provider := some
    { sqldb := some [
        { name := some "geo", kind := .postgres, connectionUri := "postgres://127.0.0.1/geo" },
        { name := some "asset", kind := .mysql, connectionUri := "mysql://127.0.0.1/asset" }] }

theorem reload_works_to_redis :
    letI := sipHasher
    AtMostOneRedis [turnWith { version := 2 }, turnWith twoDatabases, turnWith redisSettings] ∧
      ReloadWorks id
        [turnWith { version := 2 }, turnWith twoDatabases, turnWith redisSettings] fun _ => () := by
  let _ := sipHasher
  have hredis : (turnWith { version := 2 }).isRedis = false ∧
      (turnWith twoDatabases).isRedis = false := ⟨rfl, rfl⟩
  have hone : AtMostOneRedis
      [turnWith { version := 2 }, turnWith twoDatabases, turnWith redisSettings] := by
    refine ⟨?_, ?_, ?_⟩
    · simp [hredis]
    · intro t ht htredis
      rcases List.mem_pair.mp ht with rfl | rfl
      · rw [hredis.1] at htredis
        cases htredis
      · rw [hredis.2] at htredis
        cases htredis
    · -- the configuration before has the cache on
      intro before t u hturns _ conf hconf
      obtain ⟨rfl, rfl⟩ : before = [turnWith { version := 2 }] ∧ t = turnWith twoDatabases := by
        rcases before with _ | ⟨a, _ | ⟨b, before⟩⟩
        · cases hturns
        · cases hturns
          exact ⟨rfl, rfl⟩
        · have hlength := congrArg List.length hturns
          simp at hlength
      cases hconf
      rfl
  have hfresh : ∀ t ∈ [turnWith { version := 2 }, turnWith twoDatabases,
      turnWith redisSettings], (t.initAt id newSite).1 = .ok () := by
    intro t ht
    simp only [List.mem_cons, List.not_mem_nil, or_false] at ht
    rcases ht with rfl | rfl | rfl
    · rfl
    · rfl
    · rfl
  have hloads : LoadsAccepted id
      [turnWith { version := 2 }, turnWith twoDatabases, turnWith redisSettings] fun _ => () := by
    intro before t after hturns
    have ht : t ∈ [turnWith { version := 2 }, turnWith twoDatabases, turnWith redisSettings] := by
      simp [hturns]
    exact Turn.load_of_ok (hfresh t ht)
  exact ⟨hone, (reload_works_iff _ hfresh).mpr ⟨hloads, hone⟩⟩

end WpKnowledge
