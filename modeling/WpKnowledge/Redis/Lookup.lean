import WpKnowledge.Runtime.KnowledgeRuntime

/-!
# Redis lookups

The facade offers four Redis lookups, and two more under the names a configuration
defines in its `[fun]` sections.  All six share one cache in the runtime.  A key of
that cache has the current generation, a tag for the command, a hash of the Redis key
and a hash of the arguments.  The tag is chosen by the entry point: `external_exists`
always takes the one of `BF.EXISTS` and `external_value` the one of `GET`, also for
services that run `SISMEMBER` or `HGET`.

The Redis server is modelled by its documented behaviour: keys are typed, a command
against a key of another type is an error, and a missing key is an empty one.  Bloom
filters are the parameter {lit}`BloomModule`, with the one law the module promises.
-/

namespace WpKnowledge

open Foundation

/-! ## The server -/

/-- The RedisBloom module: filters that may answer yes for an item never added, but
never answer no for one that was. -/
structure BloomModule (β : Type) where
  /-- The filter `BF.RESERVE` makes for an error rate and a capacity. -/
  reserve : F64 → Int64 → Except String β
  /-- The filter `BF.MADD` makes for a missing key. -/
  fresh : β
  /-- Adding items: the filter afterwards, and for each item whether it was new. -/
  madd : β → List String → β × Except String (List Bool)
  mayContain : β → String → Bool
  madd_keeps : ∀ {f : β} {items : List String} {item : String},
    mayContain f item = true → mayContain (madd f items).1 item = true
  madd_adds : ∀ {f : β} {items : List String} {flags : List Bool} {item : String},
    (madd f items).2 = .ok flags → item ∈ items → mayContain (madd f items).1 item = true

/-- The value of a key. -/
inductive RedisValue (β : Type) where
  | str (value : String)
  | hash (fields : String → Option String)
  | set (members : String → Bool)
  | bloom (filter : β)

/-- The data of a server. -/
abbrev Keyspace (β : Type) := String → Option (RedisValue β)

namespace Redis

/-- The name the Redis provider is registered under. -/
def knowdb : String := "knowdb"

/-- An error the server or the connection reports for a command. -/
def cmdErr (cmd err : String) : KnowledgeError where
  reason := .logicError
  detail := "redis command '" ++ cmd ++ "' on '" ++ knowdb ++ "' failed: " ++ err

/-- The error for a command against a key of another type. -/
def wrongType (cmd : String) : KnowledgeError :=
  cmdErr cmd "WRONGTYPE: Operation against a key holding the wrong kind of value"

section Commands

variable {β : Type} (bloom : BloomModule β) (ks : Keyspace β)

/-- `BF.EXISTS`. -/
def bfExists (key item : String) : KnowledgeResult Bool :=
  match ks key with
  | none => .ok false
  | some (.bloom filter) => .ok (bloom.mayContain filter item)
  | some _ => .error (wrongType "BF.EXISTS")

/-- `HGET`. -/
def hget (key field : String) : KnowledgeResult (Option String) :=
  match ks key with
  | none => .ok none
  | some (.hash fields) => .ok (fields field)
  | some _ => .error (wrongType "HGET")

/-- `GET`. -/
def get (key : String) : KnowledgeResult (Option String) :=
  match ks key with
  | none => .ok none
  | some (.str value) => .ok (some value)
  | some _ => .error (wrongType "GET")

/-- `SISMEMBER`. -/
def setExists (key member : String) : KnowledgeResult Bool :=
  match ks key with
  | none => .ok false
  | some (.set members) => .ok (members member)
  | some _ => .error (wrongType "SISMEMBER")

/-- `BF.MADD`: a missing key becomes a filter. -/
def bfMadd (key : String) (items : List String) : KnowledgeResult (List Bool) × Keyspace β :=
  let add (filter : β) :=
    let (filter', added) := bloom.madd filter items
    (added.mapError (cmdErr "BF.MADD"), Function.update ks key (some (.bloom filter')))
  match ks key with
  | none => add bloom.fresh
  | some (.bloom filter) => add filter
  | some _ => (.error (wrongType "BF.MADD"), ks)

/-- `BF.RESERVE`: the key must be missing. -/
def bfReserve (key : String) (errorRate : F64) (capacity : Int64) :
    KnowledgeResult Unit × Keyspace β :=
  match ks key with
  | none =>
      match bloom.reserve errorRate capacity with
      | .ok filter => (.ok (), Function.update ks key (some (.bloom filter)))
      | .error err => (.error (cmdErr "BF.RESERVE" err), ks)
  | some _ => (.error (cmdErr "BF.RESERVE" "item exists"), ks)

end Commands

end Redis

/-! ## The services of `[fun]` -/

/-- The commands a service may run. -/
inductive FunCall where
  | bfExists
  | sismember
  | hget
  | get
deriving DecidableEq, Repr

/-- The command answers with a truth value. -/
def FunCall.returnsBool : FunCall → Bool
  | .bfExists | .sismember => true
  | .hget | .get => false

/-- A `[fun.<name>]` section. -/
structure FunSpec where
  call : FunCall
  key : Option String := none
  cache : Bool := true
  ttlMs : Option Nat := none
deriving DecidableEq, Repr

/-- A service as registered. -/
structure CachedFunSpec where
  call : FunCall
  key : Option String
  cache : Bool
  ttlMs : Option Nat
deriving DecidableEq, Repr

/-- The services of a process. -/
abbrev FunMap := HashMap String CachedFunSpec

namespace Fun

/-- `register_fun_map`: the first registration stays. -/
def registerFunMap (registered : Option FunMap) (map : HashMap String FunSpec) : Option FunMap :=
  match registered with
  | some cached => some cached
  | none => some (map.entries.foldl
      (fun cached entry => cached.insert entry.1
        { call := entry.2.call, key := entry.2.key, cache := entry.2.cache, ttlMs := entry.2.ttlMs })
      ∅)

/-- The service of a name, if it returns what the caller expects. -/
def resolve (registered : Option FunMap) (service : String) (returnsBool : Bool) :
    KnowledgeResult CachedFunSpec :=
  match registered with
  | none => .error ⟨.logicError, "external: no [fun] definitions registered"⟩
  | some map =>
      match map.lookup service with
      | none => .error ⟨.logicError, "external service '" ++ service ++ "' not found"⟩
      | some spec =>
          let expected := if returnsBool then "bool" else "value"
          let actual := if spec.call.returnsBool then "bool" else "value"
          if expected ≠ actual then
            .error ⟨.logicError, "external service '" ++ service ++ "' returns " ++ actual ++
              ", not " ++ expected⟩
          else .ok spec

section Services

variable {β : Type} (bloom : BloomModule β) (ks : Keyspace β) (registered : Option FunMap)

/-- A service that answers with a truth value. -/
def externalExists (service arg : String) : KnowledgeResult Bool := do
  let spec ← resolve registered service true
  let redisKey := spec.key.getD arg
  match spec.call with
  | .bfExists => Redis.bfExists bloom ks redisKey arg
  -- the only other call with a truth value
  | _ => Redis.setExists ks redisKey arg

/-- A service that answers with a value. -/
def externalValue (service arg : String) : KnowledgeResult (Option String) := do
  let spec ← resolve registered service false
  let redisKey := spec.key.getD arg
  match spec.call with
  | .hget => Redis.hget ks redisKey arg
  -- the only other call with a value
  | _ => Redis.get ks redisKey

end Services

end Fun

/-! ## The cache -/

/-- The command in a cache key. -/
inductive RedisCmdTag where
  | bfExists
  | hGet
  | get
  | setExists
deriving DecidableEq, Repr

/-- What an answer is cached under. -/
structure RedisCacheKey where
  generation : Nat
  cmdTag : RedisCmdTag
  keyHash : UInt64
  argsHash : UInt64
deriving DecidableEq, Repr

/-- A cached answer. -/
inductive CachedRedisValue where
  | bool (v : Bool)
  | optString (v : Option String)
deriving DecidableEq, Repr

namespace CachedRedisValue

/-- The truth value, if it is one. -/
def asBool : CachedRedisValue → Option Bool
  | bool v => some v
  | optString _ => none

/-- The value, if it is one. -/
def asOptString : CachedRedisValue → Option (Option String)
  | bool _ => none
  | optString v => some v

end CachedRedisValue

/-- A cached answer with the time it was stored at and how long it may be used, zero
for as long as its generation lasts. -/
structure CachedRedisEntry where
  value : CachedRedisValue
  cachedAt : Nat
  ttlMs : Nat
deriving DecidableEq, Repr

/-- The entry is too old. -/
def CachedRedisEntry.expired (entry : CachedRedisEntry) (now : Nat) : Bool :=
  0 < entry.ttlMs && Duration.fromMillis entry.ttlMs < now - entry.cachedAt

/-- The part of the runtime that caches Redis answers. -/
structure RedisCacheState where
  redisCache : LruCache RedisCacheKey CachedRedisEntry
  redisCacheHits : Nat
  redisCacheMisses : Nat
  redisGlobalEnabled : Bool

namespace RedisCacheState

theorem max_one_pos (capacity : Nat) : 0 < max capacity 1 :=
  Nat.le_max_right capacity 1

/-- The cache of a new runtime. -/
def new (capacity : Nat) : RedisCacheState where
  redisCache := LruCache.new (max capacity 1) (max_one_pos capacity)
  redisCacheHits := 0
  redisCacheMisses := 0
  redisGlobalEnabled := true

/-- `configure_redis_cache`: an empty cache of the new capacity. -/
def configure (r : RedisCacheState) (globalEnabled : Bool) (capacity : Nat) : RedisCacheState :=
  { r with
    redisCache := LruCache.new (max capacity 1) (max_one_pos capacity)
    redisGlobalEnabled := globalEnabled }

variable {π : Type} (r : RedisCacheState) (rt : KnowledgeRuntime π) (now : Nat)

/-- The entry under a key; one that is too old is removed.  Whether the cache is
enabled is a setting of the result cache. -/
def fetchRedisCache (key : RedisCacheKey) : RedisCacheState × Option CachedRedisEntry :=
  if rt.resultCacheEnabled then
    match r.redisCache.peek key with
    | none => (r, none)
    | some entry =>
        if entry.expired now then ({ r with redisCache := r.redisCache.pop key }, none)
        else (r, some entry)
  else (r, none)

/-- An entry is stored. -/
def saveRedisCache (key : RedisCacheKey) (entry : CachedRedisEntry) : RedisCacheState :=
  if rt.resultCacheEnabled then { r with redisCache := r.redisCache.put key entry } else r

/-- `redis_cache_get`. -/
def redisCacheGet (ck : RedisCacheKey) : RedisCacheState × Option CachedRedisValue :=
  if r.redisGlobalEnabled then
    match r.fetchRedisCache rt now ck with
    | (r, none) => (r, none)
    | (r, some entry) => ({ r with redisCacheHits := r.redisCacheHits + 1 }, some entry.value)
  else (r, none)

/-- `redis_cache_put_with_ttl`. -/
def redisCachePutWithTtl (ck : RedisCacheKey) (value : CachedRedisValue) (ttlMs : Nat) :
    RedisCacheState :=
  if r.redisGlobalEnabled then
    { r with redisCacheMisses := r.redisCacheMisses + 1 }.saveRedisCache rt ck
      { value, cachedAt := now, ttlMs }
  else r

end RedisCacheState

/-! ## The entry points of the facade -/

section Facade

variable [DefaultHasher]

/-- The hash of a list of arguments. -/
def argsHash (args : List String) : UInt64 :=
  DefaultHasher.finish (args.flatMap strBytes)

/-- The cache key of a lookup. -/
def redisCacheKey (cmd : RedisCmdTag) (generation : Nat) (key : String) (args : List String) :
    RedisCacheKey where
  generation := generation
  cmdTag := cmd
  keyHash := stableHash key
  argsHash := argsHash args

variable {π β : Type} (r : RedisCacheState) (rt : KnowledgeRuntime π) (now : Nat)

/-- The protocol of all lookups: without a generation the server is asked; otherwise
the cache is tried first and an answer of the server is cached. -/
def RedisCacheState.lookup {α : Type} (decode : CachedRedisValue → Option α)
    (encode : α → CachedRedisValue) (ttlMs : Nat) (cacheKey : Nat → RedisCacheKey)
    (ask : KnowledgeResult α) : KnowledgeResult α × RedisCacheState :=
  match rt.currentGeneration with
  | none => (ask, r)
  | some generation =>
      let ck := cacheKey generation
      let (r, cached) := r.redisCacheGet rt now ck
      match cached.bind decode with
      | some v => (.ok v, r)
      | none =>
          match ask with
          | .error err => (.error err, r)
          | .ok v => (.ok v, r.redisCachePutWithTtl rt now ck (encode v) ttlMs)

variable (bloom : BloomModule β) (ks : Keyspace β)

/-- `redis_bf_exists`. -/
def redisBfExists (key item : String) : KnowledgeResult Bool × RedisCacheState :=
  r.lookup rt now CachedRedisValue.asBool .bool 0 (redisCacheKey .bfExists · key [item])
    (Redis.bfExists bloom ks key item)

/-- `redis_hget`. -/
def redisHget (key field : String) : KnowledgeResult (Option String) × RedisCacheState :=
  r.lookup rt now CachedRedisValue.asOptString .optString 0 (redisCacheKey .hGet · key [field])
    (Redis.hget ks key field)

/-- `redis_get`. -/
def redisGet (key : String) : KnowledgeResult (Option String) × RedisCacheState :=
  r.lookup rt now CachedRedisValue.asOptString .optString 0 (redisCacheKey .get · key [])
    (Redis.get ks key)

/-- `redis_set_exists`. -/
def redisSetExists (key member : String) : KnowledgeResult Bool × RedisCacheState :=
  r.lookup rt now CachedRedisValue.asBool .bool 0 (redisCacheKey .setExists · key [member])
    (Redis.setExists ks key member)

variable (registered : Option FunMap)

/-- `external_exists`: the tag is the one of `BF.EXISTS` for every service. -/
def externalExists (service arg : String) : KnowledgeResult Bool × RedisCacheState :=
  match Fun.resolve registered service true with
  | .error err => (.error err, r)
  | .ok spec =>
      let redisKey := spec.key.getD arg
      if spec.cache then
        r.lookup rt now CachedRedisValue.asBool .bool (spec.ttlMs.getD 0)
          (redisCacheKey .bfExists · redisKey [arg])
          (Fun.externalExists bloom ks registered service arg)
      else (Fun.externalExists bloom ks registered service arg, r)

/-- `external_value`: the tag is the one of `GET` for every service. -/
def externalValue (service arg : String) : KnowledgeResult (Option String) × RedisCacheState :=
  match Fun.resolve registered service false with
  | .error err => (.error err, r)
  | .ok spec =>
      let redisKey := spec.key.getD arg
      if spec.cache then
        r.lookup rt now CachedRedisValue.asOptString .optString (spec.ttlMs.getD 0)
          (redisCacheKey .get · redisKey [arg])
          (Fun.externalValue ks registered service arg)
      else (Fun.externalValue ks registered service arg, r)

end Facade

end WpKnowledge
