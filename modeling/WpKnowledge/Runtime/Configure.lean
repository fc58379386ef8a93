import WpKnowledge.Foundation.Mirror
import WpKnowledge.Runtime.ResultCache

/-!
# Settings of the result cache

`configure_result_cache` writes the configuration under a lock.  After that, each in a
step of its own, it stores the enabled flag, stores the time to live, and puts a new
cache in place if it found at the beginning that it has to.  The three settings are thus
copies of what is recorded, made later, and calls that overlap may make them in any
order.

Main results:

- Theorem {lit}`Task.step_settings`: the effect of one step on the settings.
- Theorem {lit}`settingsSettled_of_run`: in every run in which calls store in turn, a
  setting is that of the recorded configuration, or some call has yet to make it so.
- Theorem {lit}`settings_apart_of_late_store`: after a store out of turn the settings stay
  apart until a configuration is recorded anew.
-/

namespace WpKnowledge

open Foundation

variable {π : Type}

/-! ## The snapshot -/

/-- What `snapshot` reports, the cache of column names apart. -/
structure RuntimeSnapshot where
  providerKind : Option ProviderKind
  datasourceId : Option DatasourceId
  generation : Option Nat
  resultCacheEnabled : Bool
  resultCacheLen : Nat
  resultCacheCapacity : Nat
  resultCacheTtlMs : Nat
  resultCacheHits : Nat
  resultCacheMisses : Nat
  localCacheHits : Nat
  localCacheMisses : Nat
  reloadSuccesses : Nat
  reloadFailures : Nat
deriving DecidableEq

/-- `snapshot`, if nothing else runs meanwhile.  The number of milliseconds is cut to 64
bits. -/
def KnowledgeRuntime.snapshot (rt : KnowledgeRuntime π) : RuntimeSnapshot where
  providerKind := rt.provider.map ProviderHandle.kind
  datasourceId := rt.provider.map ProviderHandle.datasourceId
  generation := rt.provider.map ProviderHandle.generation
  resultCacheEnabled := rt.resultCacheConfig.enabled
  resultCacheLen := rt.resultCache.len
  resultCacheCapacity := rt.resultCache.cap
  resultCacheTtlMs := rt.resultCacheConfig.ttl.asMillis % (u64Max + 1)
  resultCacheHits := rt.resultCacheHits
  resultCacheMisses := rt.resultCacheMisses
  localCacheHits := rt.localCacheHits
  localCacheMisses := rt.localCacheMisses
  reloadSuccesses := rt.reloadSuccesses
  reloadFailures := rt.reloadFailures

/-! ## What one step does to the settings -/

/-- Two runtimes agree on the settings of the result cache. -/
structure KnowledgeRuntime.SameSettings (rt rt' : KnowledgeRuntime π) : Prop where
  resultCacheConfig : rt'.resultCacheConfig = rt.resultCacheConfig
  resultCacheEnabled : rt'.resultCacheEnabled = rt.resultCacheEnabled
  resultCacheTtlMs : rt'.resultCacheTtlMs = rt.resultCacheTtlMs
  capacity : rt'.resultCache.cap = rt.resultCache.cap

/-- The effect of one step of a configuration call, case by case. -/
inductive ConfigureEffect (c : ConfigureCall) (rt : KnowledgeRuntime π) :
    ConfigurePc → KnowledgeRuntime π → ConfigurePc → Prop
  | writeConfig (shouldResetCache : Bool)
      (hreset : shouldResetCache = false → c.newConfig.capacity = rt.resultCacheConfig.capacity ∧
        (c.newConfig.enabled = false → rt.resultCacheConfig.enabled = false)) :
      ConfigureEffect c rt .writeConfig { rt with resultCacheConfig := c.newConfig }
        (.storeEnabled shouldResetCache)
  | storeEnabled (shouldResetCache : Bool) : ConfigureEffect c rt (.storeEnabled shouldResetCache)
      { rt with resultCacheEnabled := c.newConfig.enabled } (.storeTtl shouldResetCache)
  | storeTtl (shouldResetCache : Bool) : ConfigureEffect c rt (.storeTtl shouldResetCache)
      { rt with resultCacheTtlMs := min c.newConfig.ttl.asMillis u64Max }
      (if shouldResetCache then .resetCache else .done)
  | resetCache : ConfigureEffect c rt .resetCache
      { rt with resultCache := LruCache.new c.newConfig.capacity c.newConfig_capacity_pos } .done

theorem ConfigureCall.step_effect {c : ConfigureCall} {rt rt' : KnowledgeRuntime π}
    {pc pc' : ConfigurePc} {input : Input π} {e : Option (Event π)}
    (h : c.step rt pc input = some (rt', pc', e)) : ConfigureEffect c rt pc rt' pc' := by
  unfold ConfigureCall.step at h
  split at h
  · cases h
    refine .writeConfig _ fun hreset => ?_
    rw [Bool.or_eq_false_iff, decide_eq_false_iff_not, not_not] at hreset
    refine ⟨hreset.1.symm, fun hdisabled => ?_⟩
    simpa [hdisabled] using hreset.2
  · cases h
    exact .storeEnabled _
  · cases h
    exact .storeTtl _
  · cases h
    exact .resetCache
  · cases h

/-- Only the first step of a call writes the configuration. -/
theorem ConfigureEffect.config_eq {c : ConfigureCall} {rt rt' : KnowledgeRuntime π}
    {pc pc' : ConfigurePc} (h : ConfigureEffect c rt pc rt' pc') :
    rt'.resultCacheConfig =
      if pc = .writeConfig then c.newConfig else rt.resultCacheConfig := by
  cases h <;> rfl

theorem ConfigureEffect.ne_writeConfig {c : ConfigureCall} {rt rt' : KnowledgeRuntime π}
    {pc pc' : ConfigurePc} (h : ConfigureEffect c rt pc rt' pc') : pc' ≠ .writeConfig := by
  cases h with
  | writeConfig | storeEnabled | resetCache => nofun
  | storeTtl shouldResetCache => cases shouldResetCache <;> nofun

theorem InstallEffect.sameSettings {c : InstallCall} {tid : Nat} {rt rt' : KnowledgeRuntime π}
    {pc pc' : InstallPc π} {e : Option (Event π)} (h : InstallEffect c tid rt pc rt' pc' e) :
    rt.SameSettings rt' := by
  cases h <;> exact ⟨rfl, rfl, rfl, rfl⟩

/-- The query has resolved its handle and has not returned. -/
def ExecutePc.querying : ExecutePc π → Bool
  | .resolve | .done _ => false
  | _ => true

/-- The query has found the cache enabled and may still put its response there. -/
def ExecutePc.usesCache : ExecutePc π → Bool
  | .fetchLoadEnabled _ | .fetchPeek _ | .fetchReadClock _ _ | .fetchLoadTtl _ _ _
  | .fetchPop _ | .countMiss _ | .save _ _ => true
  | .ask _ useGlobalCache => useGlobalCache
  | .resolve | .loadEnabled _ | .countHit _ _ | .done _ => false

theorem ExecutePc.querying_of_usesCache {pc : ExecutePc π} (h : pc.usesCache = true) :
    pc.querying = true := by
  cases pc with
  | resolve | done => cases h
  | loadEnabled | fetchLoadEnabled | fetchPeek | fetchReadClock | fetchLoadTtl | fetchPop
  | countHit | countMiss | ask | save => rfl

section Steps

variable [DefaultHasher] [ValueText]

/-- A query leaves the settings alone, and the cache too unless it has found it
enabled. -/
theorem ExecuteCall.step_sameSettings {c : ExecuteCall} {tid clock : Nat}
    {rt rt' : KnowledgeRuntime π} {pc pc' : ExecutePc π} {input : Input π}
    {e : Option (Event π)} (h : c.step tid clock rt pc input = some (rt', pc', e)) :
    rt.SameSettings rt' ∧ (pc.usesCache = false → rt'.resultCache = rt.resultCache) := by
  unfold ExecuteCall.step at h
  split at h
  all_goals try split at h
  all_goals cases h
  all_goals refine ⟨⟨rfl, rfl, rfl, rfl⟩, fun hunused => ?_⟩
  all_goals first
    | rfl
    | cases hunused

/-- A query that uses the cache has found it enabled. -/
theorem ExecuteCall.step_usesCache {c : ExecuteCall} {tid clock : Nat}
    {rt rt' : KnowledgeRuntime π} {pc pc' : ExecutePc π} {input : Input π}
    {e : Option (Event π)} (h : c.step tid clock rt pc input = some (rt', pc', e))
    (huses : pc'.usesCache = true) :
    pc.usesCache = true ∨ (pc.querying = true ∧ rt.resultCacheEnabled = true) := by
  unfold ExecuteCall.step at h
  split at h
  case h_1 =>
    split at h
    · cases h
      split at huses <;> cases huses
    · cases h
      cases huses
  case h_2 =>
    cases h
    split at huses
    · rename_i henabled
      exact .inr ⟨rfl, henabled⟩
    · cases huses
  case h_10 useGlobalCache answer =>
    split at h
    · cases h
      split at huses
      · rename_i hglobal
        exact .inl hglobal
      · cases huses
    · cases h
      cases huses
    · cases h
  all_goals try split at h
  all_goals cases h
  all_goals first
    | exact .inl rfl
    | cases huses

/-- A query that has not returned runs on from where it stood, or it has just begun. -/
theorem ExecuteCall.step_querying {c : ExecuteCall} {tid clock : Nat}
    {rt rt' : KnowledgeRuntime π} {pc pc' : ExecutePc π} {input : Input π}
    {e : Option (Event π)} (h : c.step tid clock rt pc input = some (rt', pc', e)) :
    pc.querying = true ∨ pc = .resolve := by
  cases pc with
  | resolve => exact .inr rfl
  | done result => simp [ExecuteCall.step] at h
  | loadEnabled | fetchLoadEnabled | fetchPeek | fetchReadClock | fetchLoadTtl | fetchPop
  | countHit | countMiss | ask | save => exact .inl rfl

end Steps

/-- The configuration call of a task and where it stands. -/
def Task.configure? : Task π → Option (ConfigureCall × ConfigurePc)
  | .configure c pc => some (c, pc)
  | _ => none

/-- The task is a query that has resolved its handle and has not returned. -/
def Task.querying : Task π → Bool
  | .execute _ pc => pc.querying
  | _ => false

/-- The task is a query that may still put a response in the cache. -/
def Task.usesCache : Task π → Bool
  | .execute _ pc => pc.usesCache
  | _ => false

/-- The task is a query that is about to resolve its handle. -/
def Task.startsQuery : Task π → Bool
  | .execute _ .resolve => true
  | _ => false

/-- What a step of any other call does: it keeps the settings, and the cache unless it is
of a query that has found the cache enabled. -/
structure StepApart (x x' : Shared π) (t t' : Task π) : Prop where
  configure? : t.configure? = none ∧ t'.configure? = none
  settings : x.runtime.SameSettings x'.runtime
  cache : t.usesCache = false → x'.runtime.resultCache = x.runtime.resultCache
  querying : t'.querying = true → t.querying = true ∨ t.startsQuery = true
  usesCache : t'.usesCache = true →
    t.usesCache = true ∨ (t.querying = true ∧ x.runtime.resultCacheEnabled = true)

/-- One step of any call: a configuration call has its effect, any other keeps apart. -/
theorem Task.step_settings [DefaultHasher] [ValueText] {tid : Nat} {x x' : Shared π}
    {t t' : Task π} {input : Input π} {e : Option (Event π)}
    (h : Task.step tid x t input = some (x', t', e)) :
    (∃ c pc pc', t = .configure c pc ∧ t' = .configure c pc' ∧
        ConfigureEffect c x.runtime pc x'.runtime pc') ∨
      StepApart x x' t t' := by
  rcases Task.step_cases h with ⟨c, pc, pc', rfl, rfl, -, heff⟩ | ⟨keep, rfl, rfl, -, rfl⟩ |
    ⟨-, -, -, ⟨c, pc, pc', rfl, rfl, hconf⟩ | ⟨c, pc, pc', rfl, rfl, hexec⟩ |
      ⟨pc, pc', rfl, rfl, rfl, -, -⟩⟩
  · exact .inr ⟨⟨rfl, rfl⟩, heff.sameSettings, fun _ => heff.sameResultCache.resultCache,
      nofun, nofun⟩
  · exact .inr ⟨⟨rfl, rfl⟩, ⟨rfl, rfl, rfl, rfl⟩, fun _ => rfl, nofun, nofun⟩
  · exact .inl ⟨c, pc, pc', rfl, rfl, ConfigureCall.step_effect hconf⟩
  · obtain ⟨hsettings, hcache⟩ := ExecuteCall.step_sameSettings hexec
    refine .inr ⟨⟨rfl, rfl⟩, hsettings, hcache, fun _ => ?_, ExecuteCall.step_usesCache hexec⟩
    rcases ExecuteCall.step_querying hexec with hquerying | rfl
    · exact .inl hquerying
    · exact .inr rfl
  · exact .inr ⟨⟨rfl, rfl⟩, ⟨rfl, rfl, rfl, rfl⟩, fun _ => rfl, nofun, nofun⟩

/-! ## The settings as copies of the configuration -/

/-- A setting that configuration calls copy from the configuration they record: what it
is in a configuration, where it stands, the places whose step copies it, and those from
which a step to come copies it. -/
def settingMirror {β : Type} (setting : ResultCacheConfig → β) (inPlace : KnowledgeRuntime π → β)
    (copies pends : ConfigurePc → Bool) : Mirror (Shared π) (Task π) β where
  recorded x := setting x.runtime.resultCacheConfig
  inPlace x := inPlace x.runtime
  records t := t.configure?.any fun call => call.2 == .writeConfig
  copying t := (t.configure?.filter fun call => copies call.2).map fun call =>
    setting call.1.newConfig
  pending t := (t.configure?.filter fun call => pends call.2).map fun call =>
    setting call.1.newConfig

/-- The call is about to store the enabled flag. -/
def ConfigurePc.storesEnabled : ConfigurePc → Bool
  | .storeEnabled _ => true
  | _ => false

/-- The call is about to store the time to live. -/
def ConfigurePc.storesTtl : ConfigurePc → Bool
  | .storeTtl _ => true
  | _ => false

/-- The call has yet to store the time to live. -/
def ConfigurePc.pendsTtl : ConfigurePc → Bool
  | .storeEnabled _ | .storeTtl _ => true
  | _ => false

/-- The call is about to put a new cache in place. -/
def ConfigurePc.resetsCache : ConfigurePc → Bool
  | .resetCache => true
  | _ => false

/-- The call has yet to put a new cache in place. -/
def ConfigurePc.pendsReset : ConfigurePc → Bool
  | .storeEnabled shouldResetCache | .storeTtl shouldResetCache => shouldResetCache
  | .resetCache => true
  | _ => false

/-- The enabled flag. -/
def enabledMirror : Mirror (Shared π) (Task π) Bool :=
  settingMirror ResultCacheConfig.enabled KnowledgeRuntime.resultCacheEnabled
    ConfigurePc.storesEnabled ConfigurePc.storesEnabled

/-- The milliseconds of the time to live, as far as they fit in 64 bits. -/
def ttlMirror : Mirror (Shared π) (Task π) Nat :=
  settingMirror (fun config => min config.ttl.asMillis u64Max)
    KnowledgeRuntime.resultCacheTtlMs ConfigurePc.storesTtl ConfigurePc.pendsTtl

/-- The capacity of the cache. -/
def capacityMirror : Mirror (Shared π) (Task π) Nat :=
  settingMirror ResultCacheConfig.capacity (fun rt => rt.resultCache.cap)
    ConfigurePc.resetsCache ConfigurePc.pendsReset

section Respects

variable [DefaultHasher] [ValueText]

/-- The calls keep to a setting if no step but those of configuration calls changes it,
and those do as they should. -/
theorem settingMirror_respects {β : Type} {setting : ResultCacheConfig → β}
    {inPlace : KnowledgeRuntime π → β} {copies pends : ConfigurePc → Bool}
    (hstart : pends .writeConfig = false)
    (hambient : ∀ (x : Shared π) d, inPlace (x.ambient d).runtime = inPlace x.runtime)
    (hsame : ∀ {rt rt'}, rt.SameSettings rt' → inPlace rt' = inPlace rt)
    (hconfigure : ∀ {c rt pc rt' pc'} clock clock', ConfigureEffect c rt pc rt' pc' →
      (settingMirror setting inPlace copies pends).Effect ⟨rt, clock⟩ ⟨rt', clock'⟩
        (.configure c pc) (.configure c pc')) :
    (settingMirror setting inPlace copies pends).Respects (runtimeSystem π) where
  start call := by
    cases call <;> simp [settingMirror, runtimeSystem, Call.start, Task.configure?, hstart]
  env x d := by
    refine ⟨?_, hambient x d⟩
    cases d <;> rfl
  step {tid x t input x' t' e} h := by
    rcases Task.step_settings h with ⟨c, pc, pc', rfl, rfl, heff⟩ | happart
    · exact hconfigure x.clock x'.clock heff
    · have hconfig := happart.settings.resultCacheConfig
      exact .kept (congrArg setting hconfig) (hsame happart.settings)
        (by simp [settingMirror, happart.configure?.1])
        (by simp [settingMirror, happart.configure?.1, happart.configure?.2])

theorem enabledMirror_respects : (enabledMirror (π := π)).Respects (runtimeSystem π) := by
  refine settingMirror_respects rfl ?_ (fun h => h.resultCacheEnabled) ?_
  · intro x d
    cases d <;> rfl
  · intro c rt pc rt' pc' clock clock' heff
    cases heff with
    | writeConfig => exact .recorded rfl rfl rfl rfl
    | storeEnabled => exact .copied rfl rfl rfl rfl
    | storeTtl shouldResetCache => cases shouldResetCache <;> exact .kept rfl rfl rfl rfl
    | resetCache => exact .kept rfl rfl rfl rfl

theorem ttlMirror_respects : (ttlMirror (π := π)).Respects (runtimeSystem π) := by
  refine settingMirror_respects rfl ?_ (fun h => h.resultCacheTtlMs) ?_
  · intro x d
    cases d <;> rfl
  · intro c rt pc rt' pc' clock clock' heff
    cases heff with
    | writeConfig => exact .recorded rfl rfl rfl rfl
    | storeEnabled => exact .kept rfl rfl rfl rfl
    | storeTtl shouldResetCache => cases shouldResetCache <;> exact .copied rfl rfl rfl rfl
    | resetCache => exact .kept rfl rfl rfl rfl

theorem capacityMirror_respects : (capacityMirror (π := π)).Respects (runtimeSystem π) := by
  refine settingMirror_respects rfl ?_ (fun h => h.capacity) ?_
  · intro x d
    cases d <;> rfl
  · intro c rt pc rt' pc' clock clock' heff
    cases heff with
    | writeConfig shouldResetCache hreset =>
        cases shouldResetCache with
        | true => exact .recorded rfl rfl rfl rfl
        | false => exact .kept (hreset rfl).1 rfl rfl rfl
    | storeEnabled shouldResetCache | storeTtl shouldResetCache =>
        cases shouldResetCache <;> exact .kept rfl rfl rfl rfl
    | resetCache => exact .copied rfl rfl rfl rfl

end Respects

/-! ## Stores in turn -/

/-- The guard of a run in which a configuration call stores its flag, its time to live or
its new cache only if the value is that of the recorded configuration, or another call
has yet to store the value of that. -/
def StoresInTurn (s : Pool (Shared π) (Task π) (Event π))
    (a : PoolAction Call (Input π) Ambient) : Prop :=
  enabledMirror.InTurn s a ∧ ttlMirror.InTurn s a ∧ capacityMirror.InTurn s a

instance (s : Pool (Shared π) (Task π) (Event π)) (a : PoolAction Call (Input π) Ambient) :
    Decidable (StoresInTurn s a) :=
  inferInstanceAs (Decidable (_ ∧ _ ∧ _))

/-- What is in place is recorded, or some call has yet to put it in place. -/
structure SettingsSettled (s : Pool (Shared π) (Task π) (Event π)) : Prop where
  enabled : enabledMirror.Settled s
  ttl : ttlMirror.Settled s
  capacity : capacityMirror.Settled s

/-- All configuration calls have returned. -/
def ConfiguresReturned (s : Pool (Shared π) (Task π) (Event π)) : Prop :=
  ∀ t ∈ s.tasks, ∀ call ∈ t.configure?, call.2 = .done

instance (s : Pool (Shared π) (Task π) (Event π)) : Decidable (ConfiguresReturned s) :=
  inferInstanceAs (Decidable (∀ t ∈ s.tasks, ∀ call ∈ _, _))

/-- A configuration is in force: it is the recorded one, lookups go by its flag and its
time to live, the cache has its capacity, and a snapshot reports it. -/
structure InForce (rt : KnowledgeRuntime π) (config : ResultCacheConfig) : Prop where
  recorded : rt.resultCacheConfig = config
  enabled : rt.resultCacheEnabled = config.enabled ∧
    rt.snapshot.resultCacheEnabled = config.enabled
  capacity : rt.resultCache.cap = config.capacity ∧
    rt.snapshot.resultCacheCapacity = config.capacity
  ttl : rt.resultCacheTtlMs = min config.ttl.asMillis u64Max
  ttlFits : config.ttl.asMillis ≤ u64Max → rt.resultCacheTtlMs = config.ttl.asMillis ∧
    rt.snapshot.resultCacheTtlMs = config.ttl.asMillis

/-- The recorded configuration is in force if and only if the three settings are its own. -/
theorem inForce_iff {rt : KnowledgeRuntime π} {config : ResultCacheConfig} :
    InForce rt config ↔ rt.resultCacheConfig = config ∧
      rt.resultCacheEnabled = config.enabled ∧
      rt.resultCacheTtlMs = min config.ttl.asMillis u64Max ∧
      rt.resultCache.cap = config.capacity := by
  constructor
  · intro h
    exact ⟨h.recorded, h.enabled.1, h.ttl, h.capacity.1⟩
  · rintro ⟨rfl, henabled, httl, hcapacity⟩
    refine ⟨rfl, ⟨henabled, rfl⟩, ⟨hcapacity, hcapacity⟩, httl, fun hfits => ⟨?_, ?_⟩⟩
    · rw [httl, Nat.min_eq_left hfits]
    · exact Nat.mod_eq_of_lt (Nat.lt_succ_of_le hfits)

/-- When all calls have returned, none has anything left to store. -/
theorem ConfiguresReturned.pending_eq_none {s : Pool (Shared π) (Task π) (Event π)}
    (h : ConfiguresReturned s) {β : Type} {setting : ResultCacheConfig → β}
    {inPlace : KnowledgeRuntime π → β} {copies pends : ConfigurePc → Bool}
    (hdone : pends .done = false) {t : Task π} (ht : t ∈ s.tasks) :
    (settingMirror setting inPlace copies pends).pending t = none := by
  cases hcall : t.configure? with
  | none => simp [settingMirror, hcall]
  | some call =>
      have hpc := h t ht call hcall
      simp [settingMirror, hcall, Option.filter, hpc, hdone]

/-- Then the settings are settled if and only if the recorded configuration is in
force. -/
theorem ConfiguresReturned.settled_iff {s : Pool (Shared π) (Task π) (Event π)}
    (h : ConfiguresReturned s) :
    SettingsSettled s ↔ InForce s.shared.runtime s.shared.runtime.resultCacheConfig := by
  have henabled := Mirror.settled_iff_of_pending_eq_none (M := enabledMirror) (s := s)
    fun t ht => h.pending_eq_none rfl ht
  have httl := Mirror.settled_iff_of_pending_eq_none (M := ttlMirror) (s := s)
    fun t ht => h.pending_eq_none rfl ht
  have hcapacity := Mirror.settled_iff_of_pending_eq_none (M := capacityMirror) (s := s)
    fun t ht => h.pending_eq_none rfl ht
  rw [inForce_iff]
  constructor
  · intro hs
    exact ⟨rfl, henabled.mp hs.enabled, httl.mp hs.ttl, hcapacity.mp hs.capacity⟩
  · rintro ⟨-, hflag, hmillis, hcap⟩
    exact ⟨henabled.mpr hflag, httl.mpr hmillis, hcapacity.mpr hcap⟩

/-- A new runtime has its configuration in force. -/
theorem KnowledgeRuntime.inForce_new (capacity : Nat) :
    InForce (KnowledgeRuntime.new π capacity)
      (KnowledgeRuntime.new π capacity).resultCacheConfig :=
  have hfits : ResultCacheConfig.default.ttl.asMillis ≤ u64Max := by decide
  inForce_iff.mpr ⟨rfl, rfl, (Nat.min_eq_left hfits).symm, rfl⟩

section Runs

variable [DefaultHasher] [ValueText]

theorem settingsSettled_of_run {as : List (PoolAction Call (Input π) Ambient)}
    {s : Pool (Shared π) (Task π) (Event π)} (h : (runtimeMachine π).Run StoresInTurn as s) :
    SettingsSettled s := by
  have hnew : ∀ x : Shared π, (∃ capacity, x.runtime = KnowledgeRuntime.new π capacity) →
      InForce x.runtime x.runtime.resultCacheConfig := by
    rintro x ⟨capacity, hx⟩
    rw [hx]
    exact KnowledgeRuntime.inForce_new capacity
  constructor
  · exact Mirror.settled_of_run enabledMirror_respects (fun x hx => (hnew x hx).enabled.1)
      (fun _ _ hok => hok.1) h
  · exact Mirror.settled_of_run ttlMirror_respects (fun x hx => (hnew x hx).ttl)
      (fun _ _ hok => hok.2.1) h
  · exact Mirror.settled_of_run capacityMirror_respects (fun x hx => (hnew x hx).capacity.1)
      (fun _ _ hok => hok.2.2) h

/-- The condition is exact, step by step: from a settled state, a step is in turn if and
only if it leads to a settled state. -/
theorem storesInTurn_iff {s s' : Pool (Shared π) (Task π) (Event π)}
    {a : PoolAction Call (Input π) Ambient} (hs : SettingsSettled s)
    (hstep : (runtimeMachine π).step s a = some s') : StoresInTurn s a ↔ SettingsSettled s' := by
  have henabled := enabledMirror_respects.settled_step_iff hs.enabled hstep
  have httl := ttlMirror_respects.settled_step_iff hs.ttl hstep
  have hcapacity := capacityMirror_respects.settled_step_iff hs.capacity hstep
  constructor
  · rintro ⟨h₁, h₂, h₃⟩
    exact ⟨henabled.mpr h₁, httl.mpr h₂, hcapacity.mpr h₃⟩
  · intro h
    exact ⟨henabled.mp h.enabled, httl.mp h.ttl, hcapacity.mp h.capacity⟩

/-- The step of a configuration call that records its configuration. -/
def RecordsConfig (s : Pool (Shared π) (Task π) (Event π)) :
    PoolAction Call (Input π) Ambient → Prop
  | .run tid _ => ∃ c, s.tasks[tid]? = some (.configure c .writeConfig)
  | _ => False

omit [DefaultHasher] [ValueText] in
theorem recordsConfig_of_records {β : Type} {setting : ResultCacheConfig → β}
    {inPlace : KnowledgeRuntime π → β} {copies pends : ConfigurePc → Bool}
    {s : Pool (Shared π) (Task π) (Event π)} {a : PoolAction Call (Input π) Ambient}
    (h : (settingMirror setting inPlace copies pends).Records s a) : RecordsConfig s a := by
  cases a with
  | spawn | env => exact h
  | run tid input =>
      obtain ⟨t, ht, hrecords⟩ := h
      cases t with
      | configure c pc =>
          obtain rfl : pc = .writeConfig := by simpa [settingMirror, Task.configure?] using hrecords
          exact ⟨c, ht⟩
      | install | prune | execute | currentGeneration => cases hrecords

/-- **A store out of turn.**  After a step out of turn, and any further steps that record
no configuration, no configuration is in force when all calls have returned. -/
theorem settings_apart_of_late_store {as bs : List (PoolAction Call (Input π) Ambient)}
    {a : PoolAction Call (Input π) Ambient} {s s' s'' : Pool (Shared π) (Task π) (Event π)}
    (hrun : (runtimeMachine π).Run StoresInTurn as s) (hlate : ¬ StoresInTurn s a)
    (hstep : (runtimeMachine π).step s a = some s')
    (hsteps : (runtimeMachine π).Steps (fun s a => ¬ RecordsConfig s a) s' bs s'')
    (hreturned : ConfiguresReturned s'') (config : ResultCacheConfig) :
    ¬ InForce s''.shared.runtime config := by
  intro hforce
  obtain rfl := hforce.recorded
  have hsettled := hreturned.settled_iff.mpr hforce
  -- a setting that is not settled after the step is not settled at the end
  refine hlate ((storesInTurn_iff (settingsSettled_of_run hrun) hstep).mpr ⟨?_, ?_, ?_⟩)
  all_goals by_contra hnot
  · exact Mirror.unsettled_of_steps enabledMirror_respects
      (fun _ _ hok hrec => hok (recordsConfig_of_records hrec)) hsteps hnot hsettled.enabled
  · exact Mirror.unsettled_of_steps ttlMirror_respects
      (fun _ _ hok hrec => hok (recordsConfig_of_records hrec)) hsteps hnot hsettled.ttl
  · exact Mirror.unsettled_of_steps capacityMirror_respects
      (fun _ _ hok hrec => hok (recordsConfig_of_records hrec)) hsteps hnot hsettled.capacity

/-! ## Whose configuration is recorded -/

/-- The recorded configuration is the first one and no call has recorded its own, or it
is that of a call. -/
def RecordedByCall (s : Pool (Shared π) (Task π) (Event π)) : Prop :=
  ((∃ capacity, s.shared.runtime.resultCacheConfig =
      (KnowledgeRuntime.new π capacity).resultCacheConfig) ∧
    ∀ t ∈ s.tasks, ∀ call ∈ t.configure?, call.2 = .writeConfig) ∨
  ∃ c pc, Task.configure c pc ∈ s.tasks ∧ pc ≠ .writeConfig ∧
    s.shared.runtime.resultCacheConfig = c.newConfig

omit [DefaultHasher] [ValueText] in
/-- A step of a configuration call. -/
theorem RecordedByCall.configured {s : Pool (Shared π) (Task π) (Event π)} {tid : Nat}
    {c : ConfigureCall} {pc pc' : ConfigurePc} {x' : Shared π} {log' : List (Event π)}
    (hs : RecordedByCall s) (ht : s.tasks[tid]? = some (.configure c pc))
    (h : ConfigureEffect c s.shared.runtime pc x'.runtime pc') :
    RecordedByCall ⟨x', s.tasks.set tid (.configure c pc'), log'⟩ := by
  have hown : Task.configure c pc' ∈ s.tasks.set tid (.configure c pc') :=
    (mem_set_of_getElem? ht).mpr (.inl rfl)
  have hconfig := h.config_eq
  by_cases hwrites : pc = .writeConfig
  · rw [if_pos hwrites] at hconfig
    exact .inr ⟨c, pc', hown, h.ne_writeConfig, hconfig⟩
  · rw [if_neg hwrites] at hconfig
    rcases hs with ⟨-, hnone⟩ | ⟨c₀, pc₀, hmem, hpc₀, hrecorded⟩
    · exact absurd (hnone _ (List.mem_of_getElem? ht) _ rfl) hwrites
    · rcases (mem_iff_of_getElem? ht).mp hmem with heq | hother
      · cases heq
        exact .inr ⟨c, pc', hown, h.ne_writeConfig, hconfig.trans hrecorded⟩
      · exact .inr ⟨c₀, pc₀, (mem_set_of_getElem? ht).mpr (.inr hother), hpc₀,
          hconfig.trans hrecorded⟩

omit [DefaultHasher] [ValueText] in
/-- A step of any other call. -/
theorem RecordedByCall.apart {s : Pool (Shared π) (Task π) (Event π)} {tid : Nat}
    {t t' : Task π} {x' : Shared π} {log' : List (Event π)} (hs : RecordedByCall s)
    (ht : s.tasks[tid]? = some t) (h : StepApart s.shared x' t t') :
    RecordedByCall ⟨x', s.tasks.set tid t', log'⟩ := by
  rcases hs with ⟨⟨capacity, hfirst⟩, hnone⟩ | ⟨c, pc, hmem, hpc, hrecorded⟩
  · refine .inl ⟨⟨capacity, h.settings.resultCacheConfig.trans hfirst⟩, fun u hu call hcall => ?_⟩
    rcases (mem_set_of_getElem? ht).mp hu with rfl | hother
    · rw [h.configure?.2] at hcall
      cases hcall
    · exact hnone u ((mem_iff_of_getElem? ht).mpr (.inr hother)) call hcall
  · refine .inr ⟨c, pc, ?_, hpc, h.settings.resultCacheConfig.trans hrecorded⟩
    rcases (mem_iff_of_getElem? ht).mp hmem with rfl | hother
    · cases h.configure?.1
    · exact (mem_set_of_getElem? ht).mpr (.inr hother)

theorem recordedByCall_of_run
    {ok : Pool (Shared π) (Task π) (Event π) → PoolAction Call (Input π) Ambient → Prop}
    {as : List (PoolAction Call (Input π) Ambient)} {s : Pool (Shared π) (Task π) (Event π)}
    (h : (runtimeMachine π).Run ok as s) : RecordedByCall s := by
  refine Machine.Run.stateInvariant ?_ ?_ h
  · rintro s ⟨⟨capacity, hx⟩, htasks, -⟩
    exact .inl ⟨⟨capacity, by rw [hx]⟩, by simp [htasks]⟩
  · intro s a s' hs _ hstep
    cases a with
    | spawn call =>
        cases hstep
        rcases hs with ⟨hfirst, hnone⟩ | ⟨c, pc, hmem, hpc, hrecorded⟩
        · refine .inl ⟨hfirst, fun t ht cpc hcpc => ?_⟩
          rcases List.mem_append.mp ht with hold | hnew
          · exact hnone t hold cpc hcpc
          · obtain rfl := List.mem_singleton.mp hnew
            cases call with
            | configure c =>
                cases hcpc
                rfl
            | install | prune | execute | currentGeneration => cases hcpc
        · exact .inr ⟨c, pc, List.mem_append_left _ hmem, hpc, hrecorded⟩
    | env d =>
        cases hstep
        cases d <;> exact hs
    | run tid input =>
        rcases TaskSystem.advance_run_iff.mp hstep with ⟨t, x', t', e, ht, hst, rfl⟩
        rcases Task.step_settings hst with ⟨c, pc, pc', rfl, rfl, heff⟩ | happart
        · exact hs.configured ht heff
        · exact hs.apart ht happart

end Runs

end WpKnowledge
