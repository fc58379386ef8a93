import Mathlib.Logic.Function.Iterate
import WpKnowledge.Foundation.LruCache
import WpKnowledge.Foundation.TaskPool
import WpKnowledge.Model.Hash

/-!
# The knowledge runtime

`KnowledgeRuntime` (`src/runtime.rs`) holds the default provider, the named
providers, the generation counters and the result cache.  Its calls run on any
number of threads; each lock section and each atomic operation is one step.  A
call is therefore a program counter with the local variables that are live
there, and the runtime is the shared state of a task system.

Building a provider and asking it are done by code outside the runtime, so their
results are inputs of the step.  Time is counted in nanoseconds.  Counters that
the source keeps in 64 bits are natural numbers: results about generations, epochs
and counts are about runs in which none of them wraps, that is with fewer than
2^64 steps of each kind.  Telemetry and debug output are left out.

Each step may add an event to a history.  The history is not part of the
program: it is what the results speak about.
-/

namespace WpKnowledge

open Foundation

/-! ## The shared state -/

/-- The name under which the default provider is registered. -/
def defaultProviderName : String := "default"

/-- A provider as installed.  A handle is shared by reference; `allocation` is
the identity of that reference, the number of the install call that made it. -/
structure ProviderHandle (π : Type) where
  provider : π
  datasourceId : DatasourceId
  generation : Nat
  kind : ProviderKind
  allocation : Nat
deriving DecidableEq

/-- The mode as it stands in a cache key. -/
inductive QueryModeTag where
  | many
  | firstRow
deriving DecidableEq, Repr

/-- The mode of a request as a tag. -/
def queryModeTag : QueryMode → QueryModeTag
  | .many => .many
  | .firstRow => .firstRow

/-- What a result is cached under. -/
structure ResultCacheKey where
  datasourceId : DatasourceId
  generation : Nat
  queryHash : UInt64
  paramsHash : UInt64
  mode : QueryModeTag
deriving DecidableEq, Repr

/-- A cached response with the time it was stored at. -/
structure CachedQueryResponse where
  response : QueryResponse
  cachedAt : Nat

/-- A length of time in nanoseconds. -/
abbrev Duration := Nat

namespace Duration

/-- A number of milliseconds. -/
def fromMillis (ms : Nat) : Duration := ms * 1000000

/-- The whole milliseconds of a duration. -/
def asMillis (d : Duration) : Nat := d / 1000000

end Duration

/-- The largest number an atomic counter of the source holds. -/
def u64Max : Nat := 18446744073709551615

/-- The configuration of the result cache. -/
structure ResultCacheConfig where
  enabled : Bool
  capacity : Nat
  ttl : Duration
deriving DecidableEq, Repr

/-- The configuration a runtime starts with. -/
def ResultCacheConfig.default : ResultCacheConfig where
  enabled := true
  capacity := 1024
  ttl := Duration.fromMillis 30000

/-- The shared state of the runtime. -/
structure KnowledgeRuntime (π : Type) where
  provider : Option (ProviderHandle π)
  namedProviders : HashMap String (ProviderHandle π)
  namedProviderEpoch : Nat
  nextGeneration : Nat
  providerEpoch : Nat
  currentGenerationValue : Nat
  resultCacheConfig : ResultCacheConfig
  resultCacheEnabled : Bool
  resultCacheTtlMs : Nat
  resultCache : LruCache ResultCacheKey CachedQueryResponse
  resultCacheHits : Nat
  resultCacheMisses : Nat
  localCacheHits : Nat
  localCacheMisses : Nat
  reloadSuccesses : Nat
  reloadFailures : Nat

/-- A runtime with nothing installed. -/
def KnowledgeRuntime.new (π : Type) (resultCacheCapacity : Nat) : KnowledgeRuntime π where
  provider := none
  namedProviders := ∅
  namedProviderEpoch := 0
  nextGeneration := 0
  providerEpoch := 0
  currentGenerationValue := 0
  resultCacheConfig := { ResultCacheConfig.default with capacity := max resultCacheCapacity 1 }
  resultCacheEnabled := ResultCacheConfig.default.enabled
  resultCacheTtlMs := ResultCacheConfig.default.ttl.asMillis
  resultCache := LruCache.new (max resultCacheCapacity 1) (Nat.le_max_right resultCacheCapacity 1)
  resultCacheHits := 0
  resultCacheMisses := 0
  localCacheHits := 0
  localCacheMisses := 0
  reloadSuccesses := 0
  reloadFailures := 0

/-- The place a query takes its provider from: the default slot, or the registry
entry of a name. -/
inductive Slot where
  | default
  | named (name : String)
deriving DecidableEq, Repr

namespace KnowledgeRuntime

variable {π : Type}

/-- The handle in a slot. -/
def handleAt (rt : KnowledgeRuntime π) : Slot → Option (ProviderHandle π)
  | .default => rt.provider
  | .named name => rt.namedProviders.lookup name

/-- The default handle, or an error. -/
def currentHandle (rt : KnowledgeRuntime π) : KnowledgeResult (ProviderHandle π) :=
  match rt.provider with
  | some handle => .ok handle
  | none => .error ⟨.logicError, "knowledge provider not initialized"⟩

/-- The handle registered under a name, or an error. -/
def providerByName (rt : KnowledgeRuntime π) (name : String) :
    KnowledgeResult (ProviderHandle π) :=
  match rt.namedProviders.lookup name with
  | some handle => .ok handle
  | none => .error ⟨.logicError, "knowledge provider '" ++ name ++ "' not initialized"⟩

/-- The handle a query of a slot runs on. -/
def resolve (rt : KnowledgeRuntime π) : Slot → KnowledgeResult (ProviderHandle π)
  | .default => rt.currentHandle
  | .named name => rt.providerByName name

/-- The generation of the default handle. -/
def currentGenerationFromProvider (rt : KnowledgeRuntime π) : Option Nat :=
  rt.provider.map ProviderHandle.generation

/-- Resolving a slot succeeds with the handle in it. -/
theorem resolve_eq_ok_iff {rt : KnowledgeRuntime π} {slot : Slot} {h : ProviderHandle π} :
    rt.resolve slot = .ok h ↔ rt.handleAt slot = some h := by
  cases slot with
  | default =>
      simp only [resolve, currentHandle, handleAt]
      cases rt.provider <;> simp
  | named name =>
      simp only [resolve, providerByName, handleAt]
      cases rt.namedProviders.lookup name <;> simp

end KnowledgeRuntime

/-- The entries of a map whose key is kept. -/
def HashMap.retain {κ ν : Type} (m : HashMap κ ν) (keep : κ → Bool) : HashMap κ ν where
  entries := m.entries.filter fun e => keep e.1
  nodupKeys := m.nodupKeys.sublist List.filter_sublist

/-! ## Queries -/

/-- A query on the runtime, by either path: `execute` and `execute_for` take a
request, `execute_first_row_fields` and its named form take fields. -/
inductive Query where
  | request (req : QueryRequest)
  | firstRowFields (sql : String) (params : List DataField) (cachePolicy : CachePolicy)

/-- What a query returns: a request a response, the other path a row. -/
inductive QueryAnswer where
  | response (response : QueryResponse)
  | row (row : RowData)

/-- What a provider returns: a list of rows or one row. -/
inductive ProviderAnswer where
  | rows (result : KnowledgeResult (List RowData))
  | row (result : KnowledgeResult RowData)

namespace Query

/-- The SQL text. -/
def sql : Query → String
  | request req => req.sql
  | firstRowFields sql _ _ => sql

/-- The fields the provider is asked with. -/
def fields : Query → List DataField
  | request req => paramsToFields req.params
  | firstRowFields _ params _ => params

/-- The mode. -/
def mode : Query → QueryModeTag
  | request req => queryModeTag req.mode
  | firstRowFields _ _ _ => .firstRow

/-- The cache policy. -/
def cachePolicy : Query → CachePolicy
  | request req => req.cachePolicy
  | firstRowFields _ _ policy => policy

/-- The response made of what the provider returned; a provider is asked for
rows or for one row according to the mode. -/
def response (q : Query) : ProviderAnswer → Option (KnowledgeResult QueryResponse)
  | .rows result => if q.mode = .many then some (result.map .rows) else none
  | .row result => if q.mode = .firstRow then some (result.map .row) else none

/-- What the caller gets of a response. -/
def answer : Query → QueryResponse → QueryAnswer
  | request _, r => .response r
  | firstRowFields _ _ _, r => .row r.intoRow

section Key

variable [DefaultHasher] [ValueText]

/-- The hash of the parameters. -/
def paramsHash : Query → UInt64
  | request req => stableParamsHash req.params
  | firstRowFields _ params _ => stableFieldParamsHash params

/-- The key under which a result of the query on a handle is cached. -/
def resultCacheKey {π : Type} (q : Query) (handle : ProviderHandle π) : ResultCacheKey where
  datasourceId := handle.datasourceId
  generation := handle.generation
  queryHash := stableHash q.sql
  paramsHash := q.paramsHash
  mode := q.mode

end Key

end Query

/-! ## The history -/

/-- What the history records.  The first argument is the number of the call. -/
inductive Event (π : Type) where
  /-- An install drew a generation. -/
  | drew (task generation : Nat)
  /-- An install built its provider and allocated the handle. -/
  | built (handle : ProviderHandle π)
  /-- A query resolved its handle. -/
  | resolved (task : Nat) (handle : ProviderHandle π)
  /-- A query accepted a cached response after reading the clock at `readAt`. -/
  | hit (task : Nat) (handle : ProviderHandle π) (query : Query) (response : QueryResponse)
      (readAt : Nat)
  /-- The provider of a handle answered a query. -/
  | produced (task : Nat) (handle : ProviderHandle π) (query : Query) (response : QueryResponse)
  /-- A query stored its response in the result cache. -/
  | stored (task : Nat) (handle : ProviderHandle π) (query : Query) (response : QueryResponse)
      (storedAt : Nat)
  /-- A configuration call put its time to live in force. -/
  | ttlConfigured (ttl : Duration)

/-- What a step takes from outside the runtime: nothing, the outcome of building
a provider, or what a provider returned. -/
inductive Input (π : Type) where
  | go
  | built (result : KnowledgeResult π)
  | answered (answer : ProviderAnswer)

/-! ## Installing a provider -/

/-- The arguments of `install_provider_named`, the build function apart. -/
structure InstallCall where
  name : String
  kind : ProviderKind
  datasourceId : DatasourceId
  isDefault : Bool
deriving DecidableEq, Repr

/-- `install_provider`: the default provider under its own name. -/
def InstallCall.installProvider (kind : ProviderKind) (datasourceId : DatasourceId) :
    InstallCall :=
  { name := defaultProviderName, kind, datasourceId, isDefault := true }

/-- Where an install stands: the step it takes next. -/
inductive InstallPc (π : Type) where
  | drawGeneration
  | build (generation : Nat)
  | countFailure (err : KnowledgeError)
  | insertNamed (handle : ProviderHandle π)
  | bumpNamedEpoch (handle : ProviderHandle π)
  | enterEpoch (handle : ProviderHandle π)
  | writeSlot (handle : ProviderHandle π)
  | storeGeneration (handle : ProviderHandle π)
  | leaveEpoch (handle : ProviderHandle π)
  | countSuccess (handle : ProviderHandle π)
  | done (result : KnowledgeResult Nat)

section Steps

variable {π : Type}

/-- One step of `install_provider_named`. -/
def InstallCall.step (c : InstallCall) (tid : Nat) (rt : KnowledgeRuntime π) :
    InstallPc π → Input π → Option (KnowledgeRuntime π × InstallPc π × Option (Event π))
  | .drawGeneration, .go =>
      let generation := rt.nextGeneration + 1
      some ({ rt with nextGeneration := generation }, .build generation,
        some (.drew tid generation))
  | .build generation, .built (.ok provider) =>
      let handle : ProviderHandle π :=
        { provider, datasourceId := c.datasourceId, generation, kind := c.kind,
          allocation := tid }
      some (rt, .insertNamed handle, some (.built handle))
  | .build _, .built (.error err) => some (rt, .countFailure err, none)
  | .countFailure err, .go =>
      some ({ rt with reloadFailures := rt.reloadFailures + 1 }, .done (.error err), none)
  | .insertNamed handle, .go =>
      some ({ rt with namedProviders := rt.namedProviders.insert c.name handle },
        .bumpNamedEpoch handle, none)
  | .bumpNamedEpoch handle, .go =>
      some ({ rt with namedProviderEpoch := rt.namedProviderEpoch + 1 },
        if c.isDefault then .enterEpoch handle else .countSuccess handle, none)
  | .enterEpoch handle, .go =>
      some ({ rt with providerEpoch := rt.providerEpoch + 1 }, .writeSlot handle, none)
  | .writeSlot handle, .go =>
      some ({ rt with provider := some handle }, .storeGeneration handle, none)
  | .storeGeneration handle, .go =>
      some ({ rt with currentGenerationValue := handle.generation }, .leaveEpoch handle, none)
  | .leaveEpoch handle, .go =>
      some ({ rt with providerEpoch := rt.providerEpoch + 1 }, .countSuccess handle, none)
  | .countSuccess handle, .go =>
      some ({ rt with reloadSuccesses := rt.reloadSuccesses + 1 },
        .done (.ok handle.generation), none)
  | _, _ => none

/-! ## Pruning the registry -/

/-- `prune_named_providers_except`: one lock section. -/
def KnowledgeRuntime.pruneNamedProvidersExcept (rt : KnowledgeRuntime π) (keep : List String) :
    KnowledgeRuntime π :=
  let retained := rt.namedProviders.retain fun name => decide (name ∈ keep)
  { rt with
    namedProviders := retained
    namedProviderEpoch :=
      if retained.entries.length ≠ rt.namedProviders.entries.length then
        rt.namedProviderEpoch + 1
      else rt.namedProviderEpoch }

/-! ## Configuring the result cache -/

/-- The arguments of `configure_result_cache`. -/
structure ConfigureCall where
  enabled : Bool
  capacity : Nat
  ttl : Duration
deriving DecidableEq, Repr

/-- The configuration a call asks for: at least one entry and one millisecond. -/
def ConfigureCall.newConfig (c : ConfigureCall) : ResultCacheConfig where
  enabled := c.enabled
  capacity := max c.capacity 1
  ttl := max c.ttl (Duration.fromMillis 1)

theorem ConfigureCall.newConfig_capacity_pos (c : ConfigureCall) : 0 < c.newConfig.capacity := by
  simp only [newConfig]
  omega

/-- Where a configuration call stands. -/
inductive ConfigurePc where
  | writeConfig
  | storeEnabled (shouldResetCache : Bool)
  | storeTtl (shouldResetCache : Bool)
  | resetCache
  | done
deriving DecidableEq, Repr

/-- One step of `configure_result_cache`. -/
def ConfigureCall.step (c : ConfigureCall) (rt : KnowledgeRuntime π) :
    ConfigurePc → Input π → Option (KnowledgeRuntime π × ConfigurePc × Option (Event π))
  | .writeConfig, .go =>
      let shouldResetCache := decide (rt.resultCacheConfig.capacity ≠ c.newConfig.capacity) ||
        (!c.newConfig.enabled && rt.resultCacheConfig.enabled)
      some ({ rt with resultCacheConfig := c.newConfig }, .storeEnabled shouldResetCache, none)
  | .storeEnabled shouldResetCache, .go =>
      some ({ rt with resultCacheEnabled := c.newConfig.enabled }, .storeTtl shouldResetCache,
        none)
  | .storeTtl shouldResetCache, .go =>
      some ({ rt with resultCacheTtlMs := min c.newConfig.ttl.asMillis u64Max },
        if shouldResetCache then .resetCache else .done, some (.ttlConfigured c.newConfig.ttl))
  | .resetCache, .go =>
      some ({ rt with
          resultCache := LruCache.new c.newConfig.capacity c.newConfig_capacity_pos },
        .done, none)
  | _, _ => none

/-! ## Reading the current generation -/

/-- Where a call of `current_generation` stands. -/
inductive GenerationPc where
  | loadEpoch
  | loadValue (epochBefore : Nat)
  | loadEpochAgain (epochBefore generation : Nat)
  | readProvider
  | done (result : Option Nat)
deriving DecidableEq, Repr

/-- The number zero stands for no generation. -/
def generationOfValue : Nat → Option Nat
  | 0 => none
  | generation => some generation

/-- One step of `current_generation`. -/
def GenerationPc.step (rt : KnowledgeRuntime π) : GenerationPc → Option GenerationPc
  | .loadEpoch =>
      some (if rt.providerEpoch % 2 = 1 then .readProvider else .loadValue rt.providerEpoch)
  | .loadValue epochBefore => some (.loadEpochAgain epochBefore rt.currentGenerationValue)
  | .loadEpochAgain epochBefore generation =>
      some (if epochBefore ≠ rt.providerEpoch then .readProvider
        else .done (generationOfValue generation))
  | .readProvider => some (.done rt.currentGenerationFromProvider)
  | .done _ => none

/-- What `current_generation` returns if nothing else runs meanwhile. -/
def KnowledgeRuntime.currentGeneration (rt : KnowledgeRuntime π) : Option Nat :=
  let epochBefore := rt.providerEpoch
  if epochBefore % 2 = 1 then rt.currentGenerationFromProvider
  else
    let generation := rt.currentGenerationValue
    let epochAfter := rt.providerEpoch
    if epochBefore ≠ epochAfter then rt.currentGenerationFromProvider
    else generationOfValue generation

/-- The steps of `current_generation`, taken without interruption, end with that
result. -/
theorem GenerationPc.iterate_step (rt : KnowledgeRuntime π) :
    (fun pc => (GenerationPc.step rt pc).getD pc)^[3] .loadEpoch =
      .done rt.currentGeneration := by
  by_cases hodd : rt.providerEpoch % 2 = 1
  · simp [GenerationPc.step, KnowledgeRuntime.currentGeneration, hodd]
  · simp [GenerationPc.step, KnowledgeRuntime.currentGeneration, hodd]

/-! ## Executing a query -/

/-- A query of a slot: `execute`, `execute_for`, `execute_first_row_fields` or
`execute_first_row_fields_for`. -/
structure ExecuteCall where
  slot : Slot
  query : Query

/-- Where a query stands. -/
inductive ExecutePc (π : Type) where
  | resolve
  | loadEnabled (handle : ProviderHandle π)
  | fetchLoadEnabled (handle : ProviderHandle π)
  | fetchPeek (handle : ProviderHandle π)
  | fetchReadClock (handle : ProviderHandle π) (cached : CachedQueryResponse)
  | fetchLoadTtl (handle : ProviderHandle π) (cached : CachedQueryResponse) (readAt : Nat)
  | fetchPop (handle : ProviderHandle π)
  | countHit (handle : ProviderHandle π) (hit : QueryResponse)
  | countMiss (handle : ProviderHandle π)
  | ask (handle : ProviderHandle π) (useGlobalCache : Bool)
  | save (handle : ProviderHandle π) (response : QueryResponse)
  | done (result : KnowledgeResult QueryAnswer)

variable [DefaultHasher] [ValueText]

/-- One step of `execute_with_handle` or `execute_first_row_fields_with_handle`,
the resolution of the handle included. -/
def ExecuteCall.step (c : ExecuteCall) (tid clock : Nat) (rt : KnowledgeRuntime π) :
    ExecutePc π → Input π → Option (KnowledgeRuntime π × ExecutePc π × Option (Event π))
  | .resolve, .go =>
      match rt.resolve c.slot with
      | .ok handle =>
          some (rt, if c.query.cachePolicy = .useGlobal then .loadEnabled handle
            else .ask handle false, some (.resolved tid handle))
      | .error err => some (rt, .done (.error err), none)
  | .loadEnabled handle, .go =>
      some (rt, if rt.resultCacheEnabled then .fetchLoadEnabled handle else .ask handle false,
        none)
  | .fetchLoadEnabled handle, .go =>
      some (rt, if rt.resultCacheEnabled then .fetchPeek handle else .countMiss handle, none)
  | .fetchPeek handle, .go =>
      match rt.resultCache.peek (c.query.resultCacheKey handle) with
      | some cached => some (rt, .fetchReadClock handle cached, none)
      | none => some (rt, .countMiss handle, none)
  | .fetchReadClock handle cached, .go => some (rt, .fetchLoadTtl handle cached clock, none)
  | .fetchLoadTtl handle cached readAt, .go =>
      if Duration.fromMillis rt.resultCacheTtlMs < readAt - cached.cachedAt then
        some (rt, .fetchPop handle, none)
      else
        some (rt, .countHit handle cached.response,
          some (.hit tid handle c.query cached.response readAt))
  | .fetchPop handle, .go =>
      some ({ rt with resultCache := rt.resultCache.pop (c.query.resultCacheKey handle) },
        .countMiss handle, none)
  | .countHit _ hit, .go =>
      some ({ rt with resultCacheHits := rt.resultCacheHits + 1 },
        .done (.ok (c.query.answer hit)), none)
  | .countMiss handle, .go =>
      some ({ rt with resultCacheMisses := rt.resultCacheMisses + 1 }, .ask handle true, none)
  | .ask handle useGlobalCache, .answered answer =>
      match c.query.response answer with
      | some (.ok response) =>
          some (rt, if useGlobalCache then .save handle response
            else .done (.ok (c.query.answer response)),
            some (.produced tid handle c.query response))
      | some (.error err) => some (rt, .done (.error err), none)
      | none => none
  | .save handle response, .go =>
      some ({ rt with
          resultCache := rt.resultCache.put (c.query.resultCacheKey handle)
            { response, cachedAt := clock } },
        .done (.ok (c.query.answer response)),
        some (.stored tid handle c.query response clock))
  | _, _ => none

/-! ## The task system -/

/-- A call on the runtime. -/
inductive Call where
  | install (call : InstallCall)
  | prune (keep : List String)
  | configure (call : ConfigureCall)
  | execute (call : ExecuteCall)
  | currentGeneration

/-- A call in progress or finished. -/
inductive Task (π : Type) where
  | install (call : InstallCall) (pc : InstallPc π)
  | prune (keep : List String) (returned : Bool)
  | configure (call : ConfigureCall) (pc : ConfigurePc)
  | execute (call : ExecuteCall) (pc : ExecutePc π)
  | currentGeneration (pc : GenerationPc)

/-- A call that has just begun. -/
def Call.start : Call → Task π
  | .install call => .install call .drawGeneration
  | .prune keep => .prune keep false
  | .configure call => .configure call .writeConfig
  | .execute call => .execute call .resolve
  | .currentGeneration => .currentGeneration .loadEpoch

/-- What all calls share: the runtime and the clock. -/
structure Shared (π : Type) where
  runtime : KnowledgeRuntime π
  clock : Nat

/-- What happens by itself: time passes, and other code counts its lookups in
the local caches. -/
inductive Ambient where
  | tick (elapsed : Nat)
  | recordLocalCacheHit
  | recordLocalCacheMiss
deriving DecidableEq, Repr

/-- The shared state after an ambient change. -/
def Shared.ambient (x : Shared π) : Ambient → Shared π
  | .tick elapsed => { x with clock := x.clock + elapsed }
  | .recordLocalCacheHit =>
      { x with runtime := { x.runtime with localCacheHits := x.runtime.localCacheHits + 1 } }
  | .recordLocalCacheMiss =>
      { x with runtime := { x.runtime with localCacheMisses := x.runtime.localCacheMisses + 1 } }

/-- One step of a call. -/
def Task.step (tid : Nat) (x : Shared π) (t : Task π) (input : Input π) :
    Option (Shared π × Task π × Option (Event π)) :=
  match t, input with
  | .install call pc, input =>
      (call.step tid x.runtime pc input).map fun r =>
        ({ x with runtime := r.1 }, .install call r.2.1, r.2.2)
  | .prune keep false, .go =>
      some ({ x with runtime := x.runtime.pruneNamedProvidersExcept keep }, .prune keep true, none)
  | .configure call pc, input =>
      (call.step x.runtime pc input).map fun r =>
        ({ x with runtime := r.1 }, .configure call r.2.1, r.2.2)
  | .execute call pc, input =>
      (call.step tid x.clock x.runtime pc input).map fun r =>
        ({ x with runtime := r.1 }, .execute call r.2.1, r.2.2)
  | .currentGeneration pc, .go =>
      (pc.step x.runtime).map fun pc' => (x, .currentGeneration pc', none)
  | _, _ => none

variable (π)

/-- The calls of the runtime as a task system. -/
def runtimeSystem : TaskSystem (Shared π) (Task π) (Event π) Call (Input π) Ambient where
  start := Call.start
  step := Task.step
  env := Shared.ambient

/-- The runtime as a machine: a new runtime at any time of day, then any calls
and steps in any order. -/
def runtimeMachine : Machine (Pool (Shared π) (Task π) (Event π))
    (PoolAction Call (Input π) Ambient) :=
  (runtimeSystem π).machine fun x =>
    ∃ capacity, x.runtime = KnowledgeRuntime.new π capacity

end Steps

/-! ## Closed runs -/

/-- The pool around a new runtime, at time zero. -/
def newPool (π : Type) (capacity : Nat) : Pool (Shared π) (Task π) (Event π) :=
  ⟨⟨KnowledgeRuntime.new π capacity, 0⟩, [], []⟩

theorem newPool_init [DefaultHasher] [ValueText] (π : Type) (capacity : Nat) :
    (runtimeMachine π).init (newPool π capacity) :=
  ⟨⟨capacity, rfl⟩, rfl, rfl⟩

/-- The actions of runs whose providers carry no data, for closed examples. -/
abbrev PlainAction := PoolAction Call (Input Unit) Ambient

/-- The first steps of a successful install by the call with number `tid`: it
draws its generation, builds its provider and takes `n` more steps. -/
def installSteps (tid n : Nat) : List PlainAction :=
  ([.run tid .go, .run tid (.built (.ok ()))] : List PlainAction) ++
    List.replicate n (.run tid .go : PlainAction)

end WpKnowledge
