import WpKnowledge.Loader.LoadTable
import WpKnowledge.Redis.Lookup

/-!
# The Redis registry

`src/redis.rs` keeps a name for every Redis provider and one connection for every
endpoint; names of the same endpoint share it.  A name is registered once: registering it
again is an error, whatever the endpoint.  Parsing an endpoint and connecting to it are
outside the repository and stay parameters.

Main results:

- Theorem {lit}`RedisRegistry.register_eq_ok_iff`: when a registration succeeds, and what it
  leaves.
- Theorem {lit}`RedisEndpoints.resolve_of_initWithOpts`: a provider that was initialised
  resolves.
-/

namespace WpKnowledge

open Foundation

/-- A connection with the time a command may take. -/
structure RedisPool (ρ : Type) where
  conn : ρ
  commandTimeout : Duration

/-- The endpoint of every name and the connection of every endpoint. -/
structure RedisRegistry (ρ : Type) where
  names : HashMap String String
  pools : HashMap String (RedisPool ρ)

namespace RedisRegistry

variable {ρ : Type}

/-- The registry of a new process. -/
def new : RedisRegistry ρ := ⟨∅, ∅⟩

/-- Register a name; the connection is kept unless the endpoint has one. -/
def register (reg : RedisRegistry ρ) (name url : String) (pool : RedisPool ρ) :
    KnowledgeResult Unit × RedisRegistry ρ :=
  if (reg.names.lookup name).isSome then
    (.error ⟨.coreConf, "redis provider '" ++ name ++ "' already registered"⟩, reg)
  else
    (.ok (),
      { names := reg.names.insert name url
        pools := if (reg.pools.lookup url).isSome then reg.pools else reg.pools.insert url pool })

/-- The connection of a name. -/
def resolve (reg : RedisRegistry ρ) (name : String) : KnowledgeResult (RedisPool ρ) :=
  match reg.names.lookup name with
  | none => .error ⟨.logicError, "redis provider '" ++ name ++ "' not found"⟩
  | some url =>
      match reg.pools.lookup url with
      | none =>
          .error ⟨.logicError, "redis pool for '" ++ name ++ "' (url=" ++ url ++ ") missing"⟩
      | some pool => .ok pool

/-- A registration succeeds for a name that is not registered; the name resolves then. -/
theorem register_eq_ok_iff {reg reg' : RedisRegistry ρ} {name url : String} {pool : RedisPool ρ} :
    reg.register name url pool = (.ok (), reg') ↔
      reg.names.lookup name = none ∧ (reg.register name url pool).2 = reg' := by
  unfold register
  cases reg.names.lookup name with
  | some other => simp
  | none => simp

theorem names_register {reg : RedisRegistry ρ} {name : String} (h : reg.names.lookup name = none)
    (url : String) (pool : RedisPool ρ) :
    (reg.register name url pool).2.names = reg.names.insert name url := by
  simp [register, h]

theorem resolve_register {reg : RedisRegistry ρ} {name : String}
    (h : reg.names.lookup name = none) (url : String) (pool : RedisPool ρ) :
    ∃ found, (reg.register name url pool).2.resolve name = .ok found := by
  cases hurl : reg.pools.lookup url with
  | some existing => exact ⟨existing, by simp [register, resolve, h, hurl]⟩
  | none => exact ⟨pool, by simp [register, resolve, h, hurl]⟩

end RedisRegistry

/-- The Redis servers a process can reach: whether the client accepts an endpoint, and the
connection to it. -/
structure RedisEndpoints (ρ : Type) where
  clientOpens : String → Except String Unit
  connect : String → Except String ρ

namespace RedisEndpoints

variable {ρ : Type} (endpoints : RedisEndpoints ρ)

/-- The endpoint has one of the two schemes. -/
def isRedisUrl (url : String) : Bool :=
  "redis://".toList.isPrefixOf url.toList || "rediss://".toList.isPrefixOf url.toList

/-- `init_with_opts`: the connection of the endpoint is reused or made, and registered under
the name.  The size of the pool is not used. -/
def initWithOpts (reg : RedisRegistry ρ) (name url : String) (_poolSize : Option Nat)
    (commandTimeoutMs : Nat) : KnowledgeResult Unit × RedisRegistry ρ :=
  if isRedisUrl url then
    match reg.pools.lookup url with
    | some existing => reg.register name url existing
    | none =>
        match endpoints.clientOpens url with
        | .error err =>
            (.error ⟨.coreConf, "redis client create failed for '" ++ url ++ "': " ++ err⟩, reg)
        | .ok () =>
            match endpoints.connect url with
            | .error err =>
                (.error ⟨.coreConf, "redis connect failed for '" ++ url ++ "': " ++ err⟩, reg)
            | .ok conn =>
                reg.register name url
                  { conn, commandTimeout := Duration.fromMillis commandTimeoutMs }
  else (.error ⟨.coreConf, "invalid redis url: '" ++ url ++ "'"⟩, reg)

/-- An initialisation that succeeds is the registration of a name that was not registered. -/
theorem register_of_initWithOpts {reg reg' : RedisRegistry ρ} {name url : String}
    {poolSize : Option Nat} {commandTimeoutMs : Nat}
    (h : endpoints.initWithOpts reg name url poolSize commandTimeoutMs = (.ok (), reg')) :
    reg.names.lookup name = none ∧ ∃ pool, (reg.register name url pool).2 = reg' := by
  unfold initWithOpts at h
  split at h
  · split at h
    · obtain ⟨hname, hreg⟩ := RedisRegistry.register_eq_ok_iff.mp h
      exact ⟨hname, _, hreg⟩
    · split at h
      · cases h
      · split at h
        · cases h
        · obtain ⟨hname, hreg⟩ := RedisRegistry.register_eq_ok_iff.mp h
          exact ⟨hname, _, hreg⟩
  · cases h

/-- After an initialisation that succeeded the name resolves, and all names registered
before still are. -/
theorem resolve_of_initWithOpts {reg reg' : RedisRegistry ρ} {name url : String}
    {poolSize : Option Nat} {commandTimeoutMs : Nat}
    (h : endpoints.initWithOpts reg name url poolSize commandTimeoutMs = (.ok (), reg')) :
    reg.names.lookup name = none ∧ reg'.names = reg.names.insert name url ∧
      ∃ pool, reg'.resolve name = .ok pool := by
  obtain ⟨hname, pool, rfl⟩ := endpoints.register_of_initWithOpts h
  exact ⟨hname, RedisRegistry.names_register hname url pool,
    RedisRegistry.resolve_register hname url pool⟩

/-- A failed initialisation leaves the registry as it was. -/
theorem initWithOpts_error {reg reg' : RedisRegistry ρ} {name url : String}
    {poolSize : Option Nat} {commandTimeoutMs : Nat} {err : KnowledgeError}
    (h : endpoints.initWithOpts reg name url poolSize commandTimeoutMs = (.error err, reg')) :
    reg' = reg := by
  have hregister : ∀ {pool}, reg.register name url pool = (.error err, reg') → reg' = reg := by
    intro pool hreg
    unfold RedisRegistry.register at hreg
    split at hreg
    · exact (Prod.mk.inj hreg).2.symm
    · cases (Prod.mk.inj hreg).1
  unfold initWithOpts at h
  split at h
  · split at h
    · exact hregister h
    · split at h
      · exact (Prod.mk.inj h).2.symm
      · split at h
        · exact (Prod.mk.inj h).2.symm
        · exact hregister h
  · exact (Prod.mk.inj h).2.symm

end RedisEndpoints

end WpKnowledge
