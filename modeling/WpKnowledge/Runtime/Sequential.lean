import WpKnowledge.Runtime.KnowledgeRuntime

/-!
# Calls without interruption

Initialisation makes its calls on the runtime one after the other.  Here an install
and a configuration are functions of the runtime; their steps, taken without
interruption, end in what the functions return.

Main results:

- Theorem {lit}`InstallCall.iterate_next`: the steps of an install end in
  {lit}`installProviderNamed`.
- Theorem {lit}`ConfigureCall.iterate_next`: the steps of a configuration end in
  {lit}`configureResultCache`.
-/

namespace WpKnowledge

open Foundation

variable {π : Type}

namespace KnowledgeRuntime

/-- The handle an install makes: its provider under the next generation. -/
def nextHandle (rt : KnowledgeRuntime π) (allocation : Nat) (c : InstallCall) (provider : π) :
    ProviderHandle π where
  provider := provider
  datasourceId := c.datasourceId
  generation := rt.nextGeneration + 1
  kind := c.kind
  allocation := allocation

/-- The handle of an install has the next generation. -/
theorem generation_of_eq_nextHandle {rt : KnowledgeRuntime π} {allocation : Nat}
    {c : InstallCall} {provider : π} {handle : ProviderHandle π}
    (h : handle = rt.nextHandle allocation c provider) :
    handle.generation = rt.nextGeneration + 1 := by
  rw [h]
  rfl

/-- `install_provider_named`: on success the handle is registered under its name and,
for the default provider, put into the default slot. -/
def installProviderNamed (rt : KnowledgeRuntime π) (allocation : Nat) (c : InstallCall)
    (build : Nat → KnowledgeResult π) : KnowledgeResult Nat × KnowledgeRuntime π :=
  let generation := rt.nextGeneration + 1
  match build generation with
  | .error err =>
      (.error err,
        { rt with nextGeneration := generation, reloadFailures := rt.reloadFailures + 1 })
  | .ok provider =>
      let handle := rt.nextHandle allocation c provider
      let registered := { rt with
        nextGeneration := generation
        namedProviders := rt.namedProviders.insert c.name handle
        namedProviderEpoch := rt.namedProviderEpoch + 1
        reloadSuccesses := rt.reloadSuccesses + 1 }
      (.ok generation,
        if c.isDefault then
          { registered with
            providerEpoch := rt.providerEpoch + 1 + 1
            provider := some handle
            currentGenerationValue := generation }
        else registered)

/-- What a successful install leaves of the parts that queries resolve by. -/
theorem installProviderNamed_ok {rt : KnowledgeRuntime π} {allocation : Nat} {c : InstallCall}
    {build : Nat → KnowledgeResult π} {provider : π}
    (hbuild : build (rt.nextGeneration + 1) = .ok provider) :
    (rt.installProviderNamed allocation c build).1 = .ok (rt.nextGeneration + 1) ∧
    (rt.installProviderNamed allocation c build).2.namedProviders =
      rt.namedProviders.insert c.name (rt.nextHandle allocation c provider) ∧
    (rt.installProviderNamed allocation c build).2.provider =
      (if c.isDefault then some (rt.nextHandle allocation c provider) else rt.provider) ∧
    (rt.installProviderNamed allocation c build).2.nextGeneration = rt.nextGeneration + 1 := by
  by_cases hdefault : c.isDefault = true
  · simp [installProviderNamed, hbuild, hdefault]
  · simp [installProviderNamed, hbuild, hdefault]

/-- `configure_result_cache`: the cache is replaced when its capacity changes or when
it is switched off. -/
def configureResultCache (rt : KnowledgeRuntime π) (c : ConfigureCall) : KnowledgeRuntime π :=
  let shouldResetCache := decide (rt.resultCacheConfig.capacity ≠ c.newConfig.capacity) ||
    (!c.newConfig.enabled && rt.resultCacheConfig.enabled)
  { rt with
    resultCacheConfig := c.newConfig
    resultCacheEnabled := c.newConfig.enabled
    resultCacheTtlMs := min c.newConfig.ttl.asMillis u64Max
    resultCache :=
      if shouldResetCache then LruCache.new c.newConfig.capacity c.newConfig_capacity_pos
      else rt.resultCache }

end KnowledgeRuntime

/-- One step of an install that nothing interrupts. -/
def InstallCall.next (c : InstallCall) (tid : Nat) (build : Nat → KnowledgeResult π)
    (x : KnowledgeRuntime π × InstallPc π) : KnowledgeRuntime π × InstallPc π :=
  let input : Input π :=
    match x.2 with
    | .build generation => .built (build generation)
    | _ => .go
  match c.step tid x.1 x.2 input with
  | some (rt, pc, _) => (rt, pc)
  | none => x

/-- The steps of an install, taken without interruption. -/
theorem InstallCall.iterate_next (rt : KnowledgeRuntime π) (tid : Nat) (c : InstallCall)
    (build : Nat → KnowledgeResult π) :
    (c.next tid build)^[9] (rt, .drawGeneration) =
      ((rt.installProviderNamed tid c build).2, .done (rt.installProviderNamed tid c build).1) := by
  cases hbuild : build (rt.nextGeneration + 1) with
  | error err => simp [next, step, KnowledgeRuntime.installProviderNamed, hbuild]
  | ok provider =>
      by_cases hdefault : c.isDefault = true <;>
        simp [next, step, KnowledgeRuntime.installProviderNamed, KnowledgeRuntime.nextHandle,
          hbuild, hdefault]

/-- One step of a configuration that nothing interrupts. -/
def ConfigureCall.next (c : ConfigureCall) (x : KnowledgeRuntime π × ConfigurePc) :
    KnowledgeRuntime π × ConfigurePc :=
  match c.step x.1 x.2 .go with
  | some (rt, pc, _) => (rt, pc)
  | none => x

/-- The steps of a configuration, taken without interruption. -/
theorem ConfigureCall.iterate_next (rt : KnowledgeRuntime π) (c : ConfigureCall) :
    c.next^[4] (rt, .writeConfig) = (rt.configureResultCache c, .done) := by
  cases hreset : (decide (rt.resultCacheConfig.capacity ≠ c.newConfig.capacity) ||
      (!c.newConfig.enabled && rt.resultCacheConfig.enabled)) <;>
    simp only [Function.iterate_succ_apply, Function.iterate_zero, id_eq, next, step,
      KnowledgeRuntime.configureResultCache, hreset, Bool.false_eq_true, if_true, if_false]

end WpKnowledge
