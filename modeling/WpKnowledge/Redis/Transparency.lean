import WpKnowledge.Foundation.Machine
import WpKnowledge.Redis.Lookup

/-!
# Whether the Redis cache can be noticed

On a fixed data set a cached answer should be the answer the server would give.  Two
calls may meet on one cache key although they run different commands: a service on
`SISMEMBER` and a lookup with `BF.EXISTS`, or services on `GET` and on `HGET`.  If both
commands succeed, the key is missing and the answers are the same.  But a Redis key has
one type, and for the command of the other type the server has an error, which the
cached answer hides.

Main results:

- Theorem {lit}`RedisCall.perform_eq`: the six entry points are one lookup.
- Theorem {lit}`Tagged.agree`: commands that share a cache key and succeed give one answer.
- Theorem {lit}`redis_cache_transparent_iff`: after any run, a call returns what it would
  return without the cache unless it runs a command against a key of another type while
  the cache holds an answer under its key.
-/

namespace WpKnowledge

open Foundation

/-! ## Calls and commands -/

/-- A call of one of the six entry points. -/
inductive RedisCall where
  | bfExists (key item : String)
  | hget (key field : String)
  | get (key : String)
  | setExists (key member : String)
  | externalExists (service arg : String)
  | externalValue (service arg : String)
deriving DecidableEq, Repr

/-- A command of the server. -/
inductive RedisCommand where
  | bfExists (key item : String)
  | hget (key field : String)
  | get (key : String)
  | setExists (key member : String)
deriving DecidableEq, Repr

namespace RedisCommand

/-- The Redis key of a command. -/
def key : RedisCommand → String
  | bfExists key _ => key
  | hget key _ => key
  | get key => key
  | setExists key _ => key

/-- What the server answers. -/
def run {β : Type} (bloom : BloomModule β) (ks : Keyspace β) :
    RedisCommand → KnowledgeResult CachedRedisValue
  | bfExists key item => (Redis.bfExists bloom ks key item).map .bool
  | hget key field => (Redis.hget ks key field).map .optString
  | get key => (Redis.get ks key).map .optString
  | setExists key member => (Redis.setExists ks key member).map .bool

/-- The value has the form of the command's answers. -/
def accepts : RedisCommand → CachedRedisValue → Bool
  | bfExists _ _, .bool _ => true
  | setExists _ _, .bool _ => true
  | hget _ _, .optString _ => true
  | get _, .optString _ => true
  | _, _ => false

/-- The value of the key has the type the command is for. -/
def suits {β : Type} : RedisCommand → RedisValue β → Bool
  | bfExists _ _, .bloom _ => true
  | hget _ _, .hash _ => true
  | get _, .str _ => true
  | setExists _ _, .set _ => true
  | _, _ => false

/-- The command is against a key of another type. -/
def Mistyped {β : Type} (c : RedisCommand) (ks : Keyspace β) : Prop :=
  ∃ value, ks c.key = some value ∧ c.suits value = false

variable {β : Type} {bloom : BloomModule β} {ks : Keyspace β}

/-- The answer for a missing key. -/
def emptyAnswer : RedisCommand → CachedRedisValue
  | bfExists _ _ => .bool false
  | hget _ _ => .optString none
  | get _ => .optString none
  | setExists _ _ => .bool false

/-- A missing key is an empty one. -/
theorem run_of_missing {c : RedisCommand} (h : ks c.key = none) :
    c.run bloom ks = .ok c.emptyAnswer := by
  cases c <;> simp only [key] at h <;>
    simp [run, emptyAnswer, Redis.bfExists, Redis.hget, Redis.get, Redis.setExists, h, Except.map]

/-- A command on a key of its type is answered. -/
theorem exists_run_of_suits (bloom : BloomModule β) {c : RedisCommand} {value : RedisValue β}
    (h : ks c.key = some value) (hsuits : c.suits value = true) : ∃ v, c.run bloom ks = .ok v ∧ c.accepts v = true := by
  cases c <;> cases value <;> simp only [suits, reduceCtorEq] at hsuits <;> simp only [key] at h <;>
    simp [run, accepts, Redis.bfExists, Redis.hget, Redis.get, Redis.setExists, h, Except.map]

/-- A command on a key of another type is refused. -/
theorem exists_run_of_not_suits (bloom : BloomModule β) {c : RedisCommand} {value : RedisValue β}
    (h : ks c.key = some value) (hsuits : c.suits value = false) :
    ∃ err, c.run bloom ks = .error err := by
  cases c <;> cases value <;> simp only [suits, reduceCtorEq] at hsuits <;> simp only [key] at h <;>
    simp [run, Redis.bfExists, Redis.hget, Redis.get, Redis.setExists, h, Except.map]

/-- The server answers exactly the commands that are not against a key of another
type. -/
theorem run_eq_ok_iff (bloom : BloomModule β) (c : RedisCommand) :
    (∃ v, c.run bloom ks = .ok v) ↔ ¬ c.Mistyped ks := by
  cases hks : ks c.key with
  | none => simp [run_of_missing hks, Mistyped, hks]
  | some value =>
      cases hsuits : c.suits value with
      | true =>
          obtain ⟨v, hv, -⟩ := exists_run_of_suits bloom hks hsuits
          simp [hv, Mistyped, hks, hsuits]
      | false =>
          obtain ⟨err, herr⟩ := exists_run_of_not_suits bloom hks hsuits
          simp [herr, Mistyped, hks, hsuits]

/-- An answer has the form of the command's answers. -/
theorem accepts_of_run {c : RedisCommand} {v : CachedRedisValue} (h : c.run bloom ks = .ok v) :
    c.accepts v = true := by
  cases hks : ks c.key with
  | none =>
      rw [run_of_missing hks, Except.ok.injEq] at h
      rw [← h]
      cases c <;> rfl
  | some value =>
      cases hsuits : c.suits value with
      | true =>
          obtain ⟨v', hv', haccepts⟩ := exists_run_of_suits bloom hks hsuits
          rw [hv', Except.ok.injEq] at h
          rwa [← h]
      | false =>
          obtain ⟨err, herr⟩ := exists_run_of_not_suits bloom hks hsuits
          rw [herr] at h
          cases h

end RedisCommand

/-! ## Commands that share a cache key -/

/-- The tag and the arguments under which an entry point caches a command. -/
inductive Tagged : RedisCommand → RedisCmdTag → List String → Prop
  | bfExists (key item : String) : Tagged (.bfExists key item) .bfExists [item]
  | hget (key field : String) : Tagged (.hget key field) .hGet [field]
  | get (key : String) : Tagged (.get key) .get []
  | setExists (key member : String) : Tagged (.setExists key member) .setExists [member]
  | existsService (key arg : String) : Tagged (.setExists key arg) .bfExists [arg]
  | hgetService (key arg : String) : Tagged (.hget key arg) .get [arg]
  | getService (key arg : String) : Tagged (.get key) .get [arg]

section Agree

variable {β : Type} {bloom : BloomModule β} {ks : Keyspace β}

/-- Commands cached under one tag, key and arguments accept the same values. -/
theorem Tagged.accepts_eq {c c' : RedisCommand} {tag : RedisCmdTag} {args args' : List String}
    (h : Tagged c tag args) (h' : Tagged c' tag args') : c.accepts = c'.accepts := by
  funext v
  cases h <;> cases h' <;> cases v <;> rfl

/-- Commands cached under one tag, key and arguments that both succeed give one
answer. -/
theorem Tagged.agree {c c' : RedisCommand} {tag : RedisCmdTag} {args : List String}
    (h : Tagged c tag args) (h' : Tagged c' tag args) (hkey : c.key = c'.key)
    {v v' : CachedRedisValue} (hv : c.run bloom ks = .ok v) (hv' : c'.run bloom ks = .ok v') :
    v = v' := by
  cases hks : ks c.key with
  | none =>
      -- both see a missing key
      rw [RedisCommand.run_of_missing hks, Except.ok.injEq] at hv
      rw [RedisCommand.run_of_missing (hkey ▸ hks), Except.ok.injEq] at hv'
      rw [← hv, ← hv']
      cases h <;> cases h' <;> rfl
  | some value =>
      -- both suit the type of the key, so they are the same command
      have hsuits : c.suits value = true := by
        by_contra hne
        have hmis : c.Mistyped ks := ⟨value, hks, by simpa using hne⟩
        exact (RedisCommand.run_eq_ok_iff bloom c).mp ⟨v, hv⟩ hmis
      have hsuits' : c'.suits value = true := by
        by_contra hne
        have hmis : c'.Mistyped ks := ⟨value, hkey ▸ hks, by simpa using hne⟩
        exact (RedisCommand.run_eq_ok_iff bloom c').mp ⟨v', hv'⟩ hmis
      have hsame : c = c' := by
        cases value <;> cases h <;> cases h' <;>
          simp_all [RedisCommand.suits, RedisCommand.key]
      rw [hsame, hv', Except.ok.injEq] at hv
      exact hv.symm

end Agree

/-! ## The six entry points as one lookup -/

/-- What an entry point comes to once its service is resolved: the command, what it is
cached under, and whether and for how long. -/
structure RedisLookup where
  command : RedisCommand
  tag : RedisCmdTag
  args : List String
  cached : Bool
  ttlMs : Nat

/-- The lookup of a call. -/
def RedisCall.lookup (registered : Option FunMap) : RedisCall → KnowledgeResult RedisLookup
  | .bfExists key item => .ok ⟨.bfExists key item, .bfExists, [item], true, 0⟩
  | .hget key field => .ok ⟨.hget key field, .hGet, [field], true, 0⟩
  | .get key => .ok ⟨.get key, .get, [], true, 0⟩
  | .setExists key member => .ok ⟨.setExists key member, .setExists, [member], true, 0⟩
  | .externalExists service arg =>
      (Fun.resolve registered service true).map fun spec =>
        { command := if spec.call = .bfExists then .bfExists (spec.key.getD arg) arg
            else .setExists (spec.key.getD arg) arg
          tag := .bfExists, args := [arg], cached := spec.cache, ttlMs := spec.ttlMs.getD 0 }
  | .externalValue service arg =>
      (Fun.resolve registered service false).map fun spec =>
        { command := if spec.call = .hget then .hget (spec.key.getD arg) arg
            else .get (spec.key.getD arg)
          tag := .get, args := [arg], cached := spec.cache, ttlMs := spec.ttlMs.getD 0 }

/-- The lookup of a call is cached as one of the entry points does it. -/
theorem RedisCall.tagged_of_lookup {registered : Option FunMap} {call : RedisCall}
    {l : RedisLookup} (h : call.lookup registered = .ok l) : Tagged l.command l.tag l.args := by
  cases call with
  | bfExists key item => cases h; exact .bfExists key item
  | hget key field => cases h; exact .hget key field
  | get key => cases h; exact .get key
  | setExists key member => cases h; exact .setExists key member
  | externalExists service arg =>
      simp only [lookup] at h
      cases hspec : Fun.resolve registered service true with
      | error err => simp [hspec, Except.map] at h
      | ok spec =>
          rw [hspec] at h
          cases h
          by_cases hcall : spec.call = .bfExists
          · simp only [hcall, if_true]
            exact .bfExists _ arg
          · simp only [hcall, if_false]
            exact .existsService _ arg
  | externalValue service arg =>
      simp only [lookup] at h
      cases hspec : Fun.resolve registered service false with
      | error err => simp [hspec, Except.map] at h
      | ok spec =>
          rw [hspec] at h
          cases h
          by_cases hcall : spec.call = .hget
          · simp only [hcall, if_true]
            exact .hgetService _ arg
          · simp only [hcall, if_false]
            exact .getService _ arg

section Perform

variable [DefaultHasher] {π β : Type}

/-- The answer of an entry point, with the cache it leaves. -/
def RedisCall.perform (bloom : BloomModule β) (ks : Keyspace β) (registered : Option FunMap)
    (r : RedisCacheState) (rt : KnowledgeRuntime π) (now : Nat) :
    RedisCall → KnowledgeResult CachedRedisValue × RedisCacheState
  | .bfExists key item => (redisBfExists r rt now bloom ks key item).map (Except.map .bool) id
  | .hget key field => (redisHget r rt now ks key field).map (Except.map .optString) id
  | .get key => (redisGet r rt now ks key).map (Except.map .optString) id
  | .setExists key member => (redisSetExists r rt now ks key member).map (Except.map .bool) id
  | .externalExists service arg =>
      (WpKnowledge.externalExists r rt now bloom ks registered service arg).map (Except.map .bool) id
  | .externalValue service arg =>
      (WpKnowledge.externalValue r rt now ks registered service arg).map (Except.map .optString) id

/-- The cache key of a lookup in a generation. -/
def RedisLookup.cacheKey (l : RedisLookup) (generation : Nat) : RedisCacheKey :=
  redisCacheKey l.tag generation l.command.key l.args

/-- A value is used if it has the form of the command's answers. -/
def RedisCommand.decode (c : RedisCommand) (v : CachedRedisValue) : Option CachedRedisValue :=
  if c.accepts v then some v else none

omit [DefaultHasher] in
/-- The lookup of a typed answer is the lookup of its cached form. -/
theorem RedisCacheState.lookup_map {α : Type} (r : RedisCacheState) (rt : KnowledgeRuntime π)
    (now : Nat) (decode : CachedRedisValue → Option α) (encode : α → CachedRedisValue) (ttlMs : Nat)
    (cacheKey : Nat → RedisCacheKey) (ask : KnowledgeResult α) :
    (r.lookup rt now decode encode ttlMs cacheKey ask).map (Except.map encode) id =
      r.lookup rt now (fun v => (decode v).map encode) id ttlMs cacheKey (ask.map encode) := by
  unfold lookup
  cases rt.currentGeneration with
  | none => rfl
  | some generation =>
      simp only
      obtain ⟨r', cached⟩ := r.redisCacheGet rt now (cacheKey generation)
      cases cached with
      | none => cases ask <;> rfl
      | some v => cases hv : decode v <;> cases ask <;> simp [hv, Except.map]

omit [DefaultHasher] in
/-- The command of a resolved service with a truth value. -/
theorem Fun.externalExists_map (bloom : BloomModule β) (ks : Keyspace β)
    {registered : Option FunMap} {service : String} {spec : CachedFunSpec}
    (h : Fun.resolve registered service true = .ok spec) (arg : String) :
    (Fun.externalExists bloom ks registered service arg).map .bool =
      (if spec.call = .bfExists then RedisCommand.bfExists (spec.key.getD arg) arg
        else .setExists (spec.key.getD arg) arg).run bloom ks := by
  unfold Fun.externalExists
  rw [h]
  cases hcall : spec.call <;> simp [hcall, RedisCommand.run, bind, Except.bind]

omit [DefaultHasher] in
/-- The command of a resolved service with a value. -/
theorem Fun.externalValue_map (bloom : BloomModule β) (ks : Keyspace β)
    {registered : Option FunMap} {service : String} {spec : CachedFunSpec}
    (h : Fun.resolve registered service false = .ok spec) (arg : String) :
    (Fun.externalValue ks registered service arg).map .optString =
      (if spec.call = .hget then RedisCommand.hget (spec.key.getD arg) arg
        else .get (spec.key.getD arg)).run bloom ks := by
  unfold Fun.externalValue
  rw [h]
  cases hcall : spec.call <;> simp [hcall, RedisCommand.run, bind, Except.bind]

/-- The six entry points: resolve the service, look the answer up, otherwise run the
command. -/
theorem RedisCall.perform_eq (bloom : BloomModule β) (ks : Keyspace β)
    (registered : Option FunMap) (r : RedisCacheState) (rt : KnowledgeRuntime π) (now : Nat)
    (call : RedisCall) :
    call.perform bloom ks registered r rt now =
      match call.lookup registered with
      | .error err => (.error err, r)
      | .ok l =>
          if l.cached then
            r.lookup rt now l.command.decode id l.ttlMs l.cacheKey (l.command.run bloom ks)
          else (l.command.run bloom ks, r) := by
  have hbool : ∀ c : RedisCommand, (∀ v, c.accepts (.bool v) = true) →
      (∀ v, c.accepts (.optString v) = false) →
      (fun v : CachedRedisValue => v.asBool.map .bool) = c.decode := by
    intro c hb ho
    funext v
    cases v <;> simp [RedisCommand.decode, CachedRedisValue.asBool, hb, ho]
  have hopt : ∀ c : RedisCommand, (∀ v, c.accepts (.bool v) = false) →
      (∀ v, c.accepts (.optString v) = true) →
      (fun v : CachedRedisValue => v.asOptString.map .optString) = c.decode := by
    intro c hb ho
    funext v
    cases v <;> simp [RedisCommand.decode, CachedRedisValue.asOptString, hb, ho]
  cases call with
  | bfExists key item =>
      simp only [perform, redisBfExists, RedisCacheState.lookup_map, lookup, if_true]
      rw [hbool (.bfExists key item) (fun _ => rfl) (fun _ => rfl)]
      rfl
  | hget key field =>
      simp only [perform, redisHget, RedisCacheState.lookup_map, lookup, if_true]
      rw [hopt (.hget key field) (fun _ => rfl) (fun _ => rfl)]
      rfl
  | get key =>
      simp only [perform, redisGet, RedisCacheState.lookup_map, lookup, if_true]
      rw [hopt (.get key) (fun _ => rfl) (fun _ => rfl)]
      rfl
  | setExists key member =>
      simp only [perform, redisSetExists, RedisCacheState.lookup_map, lookup, if_true]
      rw [hbool (.setExists key member) (fun _ => rfl) (fun _ => rfl)]
      rfl
  | externalExists service arg =>
      simp only [perform, WpKnowledge.externalExists, lookup]
      cases hspec : Fun.resolve registered service true with
      | error err => rfl
      | ok spec =>
          have hmap := Fun.externalExists_map bloom ks hspec arg
          by_cases hcache : spec.cache = true
          · simp only [hcache, if_true, RedisCacheState.lookup_map, Except.map]
            congr 1
            · apply hbool <;> intro v <;> split <;> rfl
            · funext generation
              simp only [RedisLookup.cacheKey]
              split <;> rfl
          · simp only [hcache, Bool.false_eq_true, if_false, Except.map]
            exact congrArg (·, r) hmap
  | externalValue service arg =>
      simp only [perform, WpKnowledge.externalValue, lookup]
      cases hspec : Fun.resolve registered service false with
      | error err => rfl
      | ok spec =>
          have hmap := Fun.externalValue_map bloom ks hspec arg
          by_cases hcache : spec.cache = true
          · simp only [hcache, if_true, RedisCacheState.lookup_map, Except.map]
            congr 1
            · apply hopt <;> intro v <;> split <;> rfl
            · funext generation
              simp only [RedisLookup.cacheKey]
              split <;> rfl
          · simp only [hcache, Bool.false_eq_true, if_false, Except.map]
            exact congrArg (·, r) hmap

end Perform

/-! ## What a lookup does to the cache -/

namespace RedisCacheState

variable {π : Type} {r : RedisCacheState} {rt : KnowledgeRuntime π} {now : Nat}

/-- The cache has a value that it may serve for the key. -/
def Serves (r : RedisCacheState) (rt : KnowledgeRuntime π) (now : Nat) (ck : RedisCacheKey)
    (v : CachedRedisValue) : Prop :=
  r.redisGlobalEnabled = true ∧ rt.resultCacheEnabled = true ∧
    ∃ entry, r.redisCache.peek ck = some entry ∧ entry.expired now = false ∧ entry.value = v

theorem redisCacheGet_eq_some_iff {ck : RedisCacheKey} {v : CachedRedisValue} :
    (r.redisCacheGet rt now ck).2 = some v ↔ r.Serves rt now ck v := by
  unfold redisCacheGet fetchRedisCache Serves
  cases r.redisGlobalEnabled <;> cases rt.resultCacheEnabled <;>
    cases hpeek : r.redisCache.peek ck <;> simp
  rename_i entry
  cases entry.expired now <;> simp

/-- Reading the cache puts nothing into it. -/
theorem peek_of_peek_redisCacheGet {ck k : RedisCacheKey} {entry : CachedRedisEntry}
    (h : (r.redisCacheGet rt now ck).1.redisCache.peek k = some entry) :
    r.redisCache.peek k = some entry := by
  unfold redisCacheGet fetchRedisCache at h
  by_cases hglobal : r.redisGlobalEnabled = true <;>
    by_cases henabled : rt.resultCacheEnabled = true <;>
    simp only [hglobal, henabled, Bool.false_eq_true, if_true, if_false] at h
  · cases hpeek : r.redisCache.peek ck with
    | none =>
        rw [hpeek] at h
        exact h
    | some found =>
        rw [hpeek] at h
        by_cases hexpired : found.expired now = true
        · simp only [hexpired, if_true, LruCache.peek_pop] at h
          split at h
          · cases h
          · exact h
        · simp only [hexpired, Bool.false_eq_true, if_false] at h
          exact h
  · exact h
  · exact h
  · exact h

/-- What a put leaves in the cache was there before or was put. -/
theorem peek_redisCachePutWithTtl {ck k : RedisCacheKey} {v : CachedRedisValue} {ttlMs : Nat}
    {entry : CachedRedisEntry}
    (h : (r.redisCachePutWithTtl rt now ck v ttlMs).redisCache.peek k = some entry) :
    r.redisCache.peek k = some entry ∨ (k = ck ∧ entry = ⟨v, now, ttlMs⟩) := by
  unfold redisCachePutWithTtl saveRedisCache at h
  by_cases hglobal : r.redisGlobalEnabled = true <;>
    by_cases henabled : rt.resultCacheEnabled = true <;>
    simp only [hglobal, henabled, Bool.false_eq_true, if_true, if_false] at h
  · by_cases hk : k = ck
    · rw [hk, LruCache.peek_put_self, Option.some.injEq] at h
      exact .inr ⟨hk, h.symm⟩
    · exact .inl (LruCache.peek_of_peek_put hk h)
  · exact .inl h
  · exact .inl h
  · exact .inl h

variable {decode : CachedRedisValue → Option CachedRedisValue} {ttlMs : Nat}
  {cacheKey : Nat → RedisCacheKey} {ask : KnowledgeResult CachedRedisValue}

variable (r rt now decode ttlMs cacheKey ask) in
/-- A lookup returns a value the cache serves, otherwise the answer of the server. -/
theorem lookup_fst :
    (∃ generation v v', rt.currentGeneration = some generation ∧
      r.Serves rt now (cacheKey generation) v ∧ decode v = some v' ∧
      (r.lookup rt now decode id ttlMs cacheKey ask).1 = .ok v') ∨
    (¬ (∃ generation v v', rt.currentGeneration = some generation ∧
      r.Serves rt now (cacheKey generation) v ∧ decode v = some v') ∧
      (r.lookup rt now decode id ttlMs cacheKey ask).1 = ask) := by
  unfold lookup
  cases hgen : rt.currentGeneration with
  | none => exact .inr ⟨by simp, rfl⟩
  | some generation =>
      cases hget : (r.redisCacheGet rt now (cacheKey generation)).2.bind decode with
      | some v' =>
          obtain ⟨v, hv, hdecode⟩ := Option.bind_eq_some_iff.mp hget
          refine .inl ⟨generation, v, v', rfl, redisCacheGet_eq_some_iff.mp hv, hdecode, ?_⟩
          simp [hget]
      | none =>
          refine .inr ⟨?_, ?_⟩
          · rintro ⟨g, v, v', hg, hserves, hdecode⟩
            cases hg
            rw [redisCacheGet_eq_some_iff.mpr hserves, Option.bind_some, hdecode] at hget
            cases hget
          · simp only [hget]
            cases ask <;> rfl

/-- What a lookup leaves in the cache was there before or is the server's answer. -/
theorem peek_lookup {k : RedisCacheKey} {entry : CachedRedisEntry}
    (h : (r.lookup rt now decode id ttlMs cacheKey ask).2.redisCache.peek k = some entry) :
    r.redisCache.peek k = some entry ∨
      ∃ generation, rt.currentGeneration = some generation ∧ k = cacheKey generation ∧
        ask = .ok entry.value ∧ entry.cachedAt = now := by
  unfold lookup at h
  cases hgen : rt.currentGeneration with
  | none =>
      rw [hgen] at h
      exact .inl h
  | some generation =>
      simp only [hgen] at h
      cases hget : (r.redisCacheGet rt now (cacheKey generation)).2.bind decode with
      | some v =>
          simp only [hget] at h
          exact .inl (peek_of_peek_redisCacheGet h)
      | none =>
          simp only [hget] at h
          cases ask with
          | error err => exact .inl (peek_of_peek_redisCacheGet h)
          | ok v =>
              rcases peek_redisCachePutWithTtl h with hold | ⟨hk, rfl⟩
              · exact .inl (peek_of_peek_redisCacheGet hold)
              · exact .inr ⟨generation, rfl, hk, rfl, rfl⟩

end RedisCacheState

/-! ## Runs on a fixed data set -/

/-- What the lookups of a process share. -/
structure RedisState (π : Type) where
  cache : RedisCacheState
  runtime : KnowledgeRuntime π
  clock : Nat

/-- What may happen: a call, a configuration of the cache, any change of the runtime
with its generation and settings, and time passing. -/
inductive RedisAction (π : Type) where
  | call (call : RedisCall)
  | configureRedisCache (globalEnabled : Bool) (capacity : Nat)
  | runtime (rt : KnowledgeRuntime π)
  | tick (elapsed : Nat)

section Machine

variable [DefaultHasher] {π β : Type} (bloom : BloomModule β) (ks : Keyspace β)
  (registered : Option FunMap)

/-- A call in a state. -/
def RedisState.perform (s : RedisState π) (call : RedisCall) :
    KnowledgeResult CachedRedisValue × RedisCacheState :=
  call.perform bloom ks registered s.cache s.runtime s.clock

omit [DefaultHasher] in
/-- The state with the Redis cache switched off. -/
def RedisState.withoutCache (s : RedisState π) : RedisState π :=
  { s with cache := { s.cache with redisGlobalEnabled := false } }

/-- Any calls on a fixed data set and fixed services. -/
def redisMachine : Machine (RedisState π) (RedisAction π) where
  init s := ∃ capacity, s.cache = RedisCacheState.new capacity
  step s action :=
    match action with
    | .call call => some { s with cache := (s.perform bloom ks registered call).2 }
    | .configureRedisCache globalEnabled capacity =>
        some { s with cache := s.cache.configure globalEnabled capacity }
    | .runtime rt => some { s with runtime := rt }
    | .tick elapsed => some { s with clock := s.clock + elapsed }

/-- The hashes of the texts are all different, and different from the hash of no
argument. -/
structure HashesApart (texts : List String) : Prop where
  injective : ∀ a ∈ texts, ∀ b ∈ texts, stableHash a = stableHash b → a = b
  noArgs : ∀ a ∈ texts, argsHash [a] ≠ argsHash []

omit [DefaultHasher] in
/-- The Redis key and the arguments of a call are among the texts. -/
def RedisCall.Uses (texts : List String) (call : RedisCall) : Prop :=
  ∀ l, call.lookup registered = .ok l → l.command.key ∈ texts ∧ ∀ a ∈ l.args, a ∈ texts

/-- The guard of the runs whose calls use only the given texts. -/
def UsesTexts (texts : List String) (_ : RedisState π) : RedisAction π → Prop
  | .call call => call.Uses registered texts
  | _ => True

/-- Every cached answer is the server's answer to a command that is cached under the
entry's key. -/
def CachedAnswers (texts : List String) (s : RedisState π) : Prop :=
  ∀ ck entry, s.cache.redisCache.peek ck = some entry →
    ∃ command tag args generation, Tagged command tag args ∧ command.key ∈ texts ∧
      (∀ a ∈ args, a ∈ texts) ∧ ck = redisCacheKey tag generation command.key args ∧
      command.run bloom ks = .ok entry.value

variable {bloom ks registered} {texts : List String}

/-- A call keeps the invariant. -/
theorem CachedAnswers.call {s : RedisState π} (hs : CachedAnswers bloom ks texts s)
    {call : RedisCall} (huses : call.Uses registered texts) :
    CachedAnswers bloom ks texts { s with cache := (s.perform bloom ks registered call).2 } := by
  intro ck entry hpeek
  simp only [RedisState.perform, RedisCall.perform_eq] at hpeek
  cases hlookup : call.lookup registered with
  | error err =>
      rw [hlookup] at hpeek
      exact hs ck entry hpeek
  | ok l =>
      rw [hlookup] at hpeek
      by_cases hcached : l.cached = true
      · simp only [hcached, if_true] at hpeek
        rcases RedisCacheState.peek_lookup hpeek with hold | ⟨generation, -, hck, hrun, -⟩
        · exact hs ck entry hold
        · obtain ⟨hkey, hargs⟩ := huses l hlookup
          exact ⟨l.command, l.tag, l.args, generation, RedisCall.tagged_of_lookup hlookup, hkey,
            hargs, hck, hrun⟩
      · simp only [hcached, Bool.false_eq_true, if_false] at hpeek
        exact hs ck entry hpeek

/-- Every state of a run holds only answers of the server. -/
theorem cachedAnswers_of_run {actions : List (RedisAction π)} {s : RedisState π}
    (hrun : (redisMachine bloom ks registered).Run (UsesTexts registered texts) actions s) :
    CachedAnswers bloom ks texts s := by
  refine hrun.stateInvariant ?_ ?_
  · rintro s ⟨capacity, hcache⟩ ck entry hpeek
    rw [hcache] at hpeek
    simp [RedisCacheState.new] at hpeek
  · intro s action s' hs huses hstep
    cases action with
    | call call =>
        cases hstep
        exact hs.call huses
    | configureRedisCache globalEnabled capacity =>
        cases hstep
        intro ck entry hpeek
        simp [RedisCacheState.configure] at hpeek
    | runtime rt =>
        cases hstep
        exact hs
    | tick elapsed =>
        cases hstep
        exact hs

/-- Texts with different hashes make different cache keys. -/
theorem HashesApart.of_cacheKey_eq (hapart : HashesApart texts) {tag tag' : RedisCmdTag}
    {g g' : Nat} {key key' : String} {args args' : List String} (hkey : key ∈ texts)
    (hkey' : key' ∈ texts) (hargs : ∀ a ∈ args, a ∈ texts) (hargs' : ∀ a ∈ args', a ∈ texts)
    (hlen : args.length ≤ 1) (hlen' : args'.length ≤ 1)
    (h : redisCacheKey tag g key args = redisCacheKey tag' g' key' args') :
    tag = tag' ∧ key = key' ∧ args = args' := by
  simp only [redisCacheKey, RedisCacheKey.mk.injEq] at h
  obtain ⟨-, htag, hkeys, hhash⟩ := h
  refine ⟨htag, hapart.injective _ hkey _ hkey' hkeys, ?_⟩
  match args, args' with
  | [], [] => rfl
  | [], [a] => exact absurd hhash.symm (hapart.noArgs a (hargs' a (by simp)))
  | [a], [] => exact absurd hhash (hapart.noArgs a (hargs a (by simp)))
  | [a], [b] =>
      have hone : ∀ a, argsHash [a] = stableHash a := fun a => by simp [argsHash, stableHash]
      rw [hone, hone] at hhash
      rw [hapart.injective a (hargs a (by simp)) b (hargs' b (by simp)) hhash]
  | _ :: _ :: _, _ => simp at hlen
  | _, _ :: _ :: _ => simp at hlen'

omit [DefaultHasher] in
theorem Tagged.length_args_le {c : RedisCommand} {tag : RedisCmdTag} {args : List String}
    (h : Tagged c tag args) : args.length ≤ 1 := by
  cases h <;> simp

/-- The answer of the server to the command of a lookup, when it has one, is what the
cache serves. -/
theorem CachedAnswers.serves {s : RedisState π} (hs : CachedAnswers bloom ks texts s)
    (hapart : HashesApart texts) {l : RedisLookup} (htagged : Tagged l.command l.tag l.args)
    (hkey : l.command.key ∈ texts) (hargs : ∀ a ∈ l.args, a ∈ texts) {generation : Nat}
    {v : CachedRedisValue}
    (hserves : s.cache.Serves s.runtime s.clock (l.cacheKey generation) v) :
    l.command.decode v = some v ∧
      ∀ v', l.command.run bloom ks = .ok v' → v = v' := by
  obtain ⟨-, -, entry, hpeek, -, rfl⟩ := hserves
  obtain ⟨command, tag, args, g, htagged', hkey', hargs', hck, hrun⟩ := hs _ _ hpeek
  obtain ⟨rfl, hkeys, rfl⟩ := hapart.of_cacheKey_eq hkey hkey' hargs hargs'
    htagged.length_args_le htagged'.length_args_le hck
  refine ⟨?_, fun v' hv' => htagged'.agree htagged hkeys.symm hrun hv'⟩
  rw [RedisCommand.decode, htagged.accepts_eq htagged', RedisCommand.accepts_of_run hrun]
  rfl

/-- Without the cache a call returns the server's answer. -/
theorem RedisState.withoutCache_perform (s : RedisState π) {call : RedisCall} {l : RedisLookup}
    (hlookup : call.lookup registered = .ok l) :
    (s.withoutCache.perform bloom ks registered call).1 = l.command.run bloom ks := by
  simp only [perform, RedisCall.perform_eq, hlookup]
  split
  · rcases s.withoutCache.cache.lookup_fst s.withoutCache.runtime s.withoutCache.clock
      l.command.decode l.ttlMs l.cacheKey (l.command.run bloom ks) with
      ⟨generation, v, v', -, hserves, -⟩ | ⟨-, hask⟩
    · cases hserves.1
    · exact hask
  · rfl

/-- A call runs, through the cache, a command against a key of another type while the
cache holds an answer it may serve under the call's key. -/
def HidesTypeError (ks : Keyspace β) (registered : Option FunMap) (s : RedisState π)
    (call : RedisCall) : Prop :=
  ∃ l generation v, call.lookup registered = .ok l ∧ l.cached = true ∧
    s.runtime.currentGeneration = some generation ∧
    s.cache.Serves s.runtime s.clock (l.cacheKey generation) v ∧ l.command.Mistyped ks

/-- After any run, with any services, settings, generations and times, a call returns
what it would return with the Redis cache switched off if and only if it does not run a
command against a key of another type while the cache may serve an answer under its
key. -/
theorem redis_cache_transparent_iff (hapart : HashesApart texts)
    {actions : List (RedisAction π)} {s : RedisState π}
    (hrun : (redisMachine bloom ks registered).Run (UsesTexts registered texts) actions s)
    {call : RedisCall} (huses : call.Uses registered texts) :
    (s.perform bloom ks registered call).1 = (s.withoutCache.perform bloom ks registered call).1 ↔
      ¬ HidesTypeError ks registered s call := by
  have hs := cachedAnswers_of_run hrun
  cases hlookup : call.lookup registered with
  | error err =>
      have hclean : ¬ HidesTypeError ks registered s call := by
        rintro ⟨l, _, _, hl, -⟩
        rw [hlookup] at hl
        cases hl
      simp only [RedisState.perform, RedisCall.perform_eq, hlookup, hclean, not_false_eq_true]
  | ok l =>
      obtain ⟨hkey, hargs⟩ := huses l hlookup
      have htagged := RedisCall.tagged_of_lookup hlookup
      rw [s.withoutCache_perform hlookup]
      simp only [RedisState.perform, RedisCall.perform_eq, hlookup]
      by_cases hcached : l.cached = true
      · simp only [hcached, if_true]
        rcases s.cache.lookup_fst s.runtime s.clock l.command.decode l.ttlMs l.cacheKey
          (l.command.run bloom ks) with
          ⟨generation, v, v', hgen, hserves, hdecode, hfst⟩ | ⟨hnone, hfst⟩
        · obtain ⟨haccepted, hagree⟩ := hs.serves hapart htagged hkey hargs hserves
          rw [hfst]
          have hv : v' = v := Option.some.inj (hdecode.symm.trans haccepted)
          constructor
          · rintro hsame ⟨l', g, w, hl', -, -, -, hmis⟩
            rw [hlookup, Except.ok.injEq] at hl'
            subst hl'
            exact (RedisCommand.run_eq_ok_iff bloom l.command).mp ⟨v', hsame.symm⟩ hmis
          · intro hclean
            have hok : ¬ l.command.Mistyped ks := fun hmis =>
              hclean ⟨l, generation, v, hlookup, hcached, hgen, hserves, hmis⟩
            obtain ⟨w, hw⟩ := (RedisCommand.run_eq_ok_iff bloom l.command).mpr hok
            rw [hw, hv, hagree w hw]
        · rw [hfst]
          refine iff_of_true rfl ?_
          rintro ⟨l', g, w, hl', -, hg, hserves, -⟩
          rw [hlookup, Except.ok.injEq] at hl'
          subst hl'
          have haccepted := (hs.serves hapart htagged hkey hargs hserves).1
          exact hnone ⟨g, w, w, hg, hserves, haccepted⟩
      · simp only [hcached, Bool.false_eq_true, if_false, true_iff]
        rintro ⟨l', _, _, hl', hcached', -⟩
        rw [hlookup, Except.ok.injEq] at hl'
        subst hl'
        exact hcached hcached'

end Machine

/-! ## A service that shares its tag -/

/-- Filters that hold exactly the items added. -/
def exactBloom : BloomModule (List String) where
  reserve _ _ := .ok []
  fresh := []
  madd filter items := (items ++ filter, .ok (items.map fun item => decide (item ∉ filter)))
  mayContain filter item := decide (item ∈ filter)
  madd_keeps h := by simp_all
  madd_adds _ h := by simp_all

/-- One filter with one password. -/
def weakPasswords : Keyspace (List String) := fun key =>
  if key = "weak" then some (.bloom ["123456"]) else none

/-- A service that asks for a member of a set, on the key of the filter. -/
def memberService : FunMap :=
  (∅ : FunMap).insert "is_weak"
    { call := .sismember, key := some "weak", cache := true, ttlMs := none }

/-- A runtime in its first generation. -/
def firstGeneration : KnowledgeRuntime Unit :=
  { KnowledgeRuntime.new Unit 1024 with currentGenerationValue := 1 }

/-- A lookup in the filter, in the first generation. -/
def filterLookup : List (RedisAction Unit) :=
  [.runtime firstGeneration, .call (.bfExists "weak" "123456")]

/-- The state before the first call. -/
def freshRedis : RedisState Unit :=
  { cache := RedisCacheState.new 1024, runtime := KnowledgeRuntime.new Unit 1024, clock := 0 }

/-- The texts of the calls below. -/
def weakTexts : List String := ["weak", "123456"]

theorem weakTexts_apart :
    letI := sipHasher
    HashesApart weakTexts := by
  let _ := sipHasher
  constructor <;> decide +kernel

theorem bfExists_uses (registered : Option FunMap) :
    (RedisCall.bfExists "weak" "123456").Uses registered weakTexts := by
  intro l hl
  cases hl
  exact ⟨by decide, by decide⟩

/-- The state after the lookup in the filter. -/
theorem exists_run_filterLookup (registered : Option FunMap) :
    letI := sipHasher
    ∃ s, (redisMachine exactBloom weakPasswords registered).Run
        (UsesTexts registered weakTexts) filterLookup s ∧
      s = { cache := ((RedisCall.bfExists "weak" "123456").perform exactBloom weakPasswords
              registered (RedisCacheState.new 1024) firstGeneration 0).2
            runtime := firstGeneration
            clock := 0 } := by
  let _ := sipHasher
  have h₀ : (redisMachine exactBloom weakPasswords registered).Run
      (UsesTexts registered weakTexts) [] freshRedis := .start ⟨1024, rfl⟩
  have h₁ := h₀.snoc (a := RedisAction.runtime firstGeneration) trivial rfl
  have h₂ := h₁.snoc (a := RedisAction.call (.bfExists "weak" "123456")) (bfExists_uses registered) rfl
  exact ⟨_, h₂, rfl⟩

/-- A repeated lookup in the filter is served from the cache and returns the answer of
the server. -/
theorem redis_cache_transparent_repeated :
    letI := sipHasher
    ∃ s, (redisMachine exactBloom weakPasswords (some memberService)).Run
        (UsesTexts (some memberService) weakTexts) filterLookup s ∧
      (s.perform exactBloom weakPasswords (some memberService) (.bfExists "weak" "123456")).1 =
        (s.withoutCache.perform exactBloom weakPasswords (some memberService)
          (.bfExists "weak" "123456")).1 := by
  let _ := sipHasher
  obtain ⟨s, hrun, -⟩ := exists_run_filterLookup (some memberService)
  refine ⟨s, hrun, ?_⟩
  apply (redis_cache_transparent_iff weakTexts_apart hrun (bfExists_uses _)).mpr
  rintro ⟨l, -, -, hl, -, -, -, value, hvalue, hsuits⟩
  cases hl
  cases hvalue
  cases hsuits

/-- After a lookup in the filter, the service returns the cached answer in place of the
error for a key that is no set. -/
theorem redis_cache_hides_type_error :
    letI := sipHasher
    HashesApart weakTexts ∧
    ∃ s, (redisMachine exactBloom weakPasswords (some memberService)).Run
        (UsesTexts (some memberService) weakTexts) filterLookup s ∧
      (RedisCall.externalExists "is_weak" "123456").Uses (some memberService) weakTexts ∧
      (s.perform exactBloom weakPasswords (some memberService)
        (.externalExists "is_weak" "123456")).1 = .ok (.bool true) ∧
      (s.withoutCache.perform exactBloom weakPasswords (some memberService)
        (.externalExists "is_weak" "123456")).1 = .error (Redis.wrongType "SISMEMBER") := by
  let _ := sipHasher
  obtain ⟨s, hrun, rfl⟩ := exists_run_filterLookup (some memberService)
  refine ⟨weakTexts_apart, _, hrun, ?_, by decide +kernel, by decide +kernel⟩
  intro l hl
  cases hl
  exact ⟨by decide, by decide⟩

end WpKnowledge
