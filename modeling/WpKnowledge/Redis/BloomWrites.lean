import WpKnowledge.Redis.Transparency
import WpKnowledge.Runtime.Sequential

/-!
# Bloom filters that are written and read

A Bloom filter may say yes for an item that was never added; its no is definite.  The
lookup of the facade caches both answers, and adding items does not touch the cache.  A
no that is still cached when the item is added is therefore served afterwards.

A run here has lookups, writes, provider installs and any configuration of the two
caches.  A state keeps the items whose addition has returned; no call reads them.

Main results:

- Theorem {lit}`bloom_no_is_definite`: in every run in which no item is added while a no
  for it is cached for the current generation, the lookup never says no for an item
  that was added.
- Theorem {lit}`bloom_no_after_add`: a lookup, an addition and a lookup.
-/

namespace WpKnowledge

open Foundation

/-! ## Runs with writes -/

/-- What the calls share, the data of the server, and the items added. -/
structure BloomState (π β : Type) where
  cache : RedisCacheState
  runtime : KnowledgeRuntime π
  clock : Nat
  keyspace : Keyspace β
  added : List (String × String)

/-- What may happen. -/
inductive BloomAction (π : Type) where
  | call (call : RedisCall)
  | bfAdd (key : String) (items : List String)
  | bfCreate (key : String) (errorRate : F64) (capacity : Int64)
  | install (call : InstallCall) (built : KnowledgeResult π)
  | prune (keep : List String)
  | configureResultCache (call : ConfigureCall)
  | configureRedisCache (globalEnabled : Bool) (capacity : Nat)
  | tick (elapsed : Nat)

section Machine

variable [DefaultHasher] {π β : Type} (bloom : BloomModule β) (registered : Option FunMap)

/-- The state after `redis_bf_add`. -/
def BloomState.bfAdd (s : BloomState π β) (key : String) (items : List String) :
    BloomState π β :=
  let (result, keyspace) := Redis.bfMadd bloom s.keyspace key items
  { s with
    keyspace
    added := match result with
      | .ok _ => s.added ++ items.map fun item => (key, item)
      | .error _ => s.added }

/-- The state after an action. -/
def BloomState.act (s : BloomState π β) : BloomAction π → BloomState π β
  | .call call =>
      { s with
        cache := (call.perform bloom s.keyspace registered s.cache s.runtime s.clock).2 }
  | .bfAdd key items => s.bfAdd bloom key items
  | .bfCreate key errorRate capacity =>
      { s with keyspace := (Redis.bfReserve bloom s.keyspace key errorRate capacity).2 }
  | .install call built =>
      { s with
        runtime := (s.runtime.installProviderNamed (s.runtime.nextGeneration + 1) call
          fun _ => built).2 }
  | .prune keep => { s with runtime := s.runtime.pruneNamedProvidersExcept keep }
  | .configureResultCache call => { s with runtime := s.runtime.configureResultCache call }
  | .configureRedisCache globalEnabled capacity =>
      { s with cache := s.cache.configure globalEnabled capacity }
  | .tick elapsed => { s with clock := s.clock + elapsed }

/-- A new runtime on any data, then any actions. -/
def bloomMachine : Machine (BloomState π β) (BloomAction π) where
  init s := (∃ capacity, s.runtime = KnowledgeRuntime.new π capacity ∧
    s.cache = RedisCacheState.new capacity) ∧ s.added = []
  step s action := some (s.act bloom registered action)

/-- The cache has an unexpired no for the item, under the current generation. -/
def BloomState.CachedNo (s : BloomState π β) (key item : String) : Prop :=
  ∃ generation entry, s.runtime.currentGeneration = some generation ∧
    s.cache.redisCache.peek (redisCacheKey .bfExists generation key [item]) = some entry ∧
    entry.expired s.clock = false ∧ entry.value = .bool false

/-- No item is added while a no for it is cached, and only the given texts are used. -/
def AddsNothingDenied (texts : List String) (s : BloomState π β) : BloomAction π → Prop
  | .call call => call.Uses registered texts
  | .bfAdd key items => key ∈ texts ∧ ∀ item ∈ items, item ∈ texts ∧ ¬ s.CachedNo key item
  | _ => True

/-! ## The invariant -/

/-- The filter of the key has the item. -/
def InFilter (bloom : BloomModule β) (ks : Keyspace β) (key item : String) : Prop :=
  ∃ filter, ks key = some (.bloom filter) ∧ bloom.mayContain filter item = true

/-- What every state of a guarded run satisfies: generations only grow, cached answers
belong to past or present ones, added items are in their filters, and the present
generation has no cached no for them. -/
structure BloomInv (texts : List String) (s : BloomState π β) : Prop where
  epoch : s.runtime.providerEpoch % 2 = 0
  current : s.runtime.currentGenerationValue ≤ s.runtime.nextGeneration
  cached : ∀ {ck : RedisCacheKey} {entry : CachedRedisEntry},
    s.cache.redisCache.peek ck = some entry →
      0 < ck.generation ∧ ck.generation ≤ s.runtime.currentGenerationValue
  added : ∀ {key item : String}, (key, item) ∈ s.added →
    key ∈ texts ∧ item ∈ texts ∧ InFilter bloom s.keyspace key item
  noNo : ∀ {key item : String}, (key, item) ∈ s.added → ¬ s.CachedNo key item

variable {bloom registered} {texts : List String} {s : BloomState π β}

omit [DefaultHasher] in
/-- Between two installs the current generation is the stored one. -/
theorem KnowledgeRuntime.currentGeneration_of_even {rt : KnowledgeRuntime π}
    (h : rt.providerEpoch % 2 = 0) :
    rt.currentGeneration = generationOfValue rt.currentGenerationValue := by
  have hodd : ¬ rt.providerEpoch % 2 = 1 := by omega
  simp [currentGeneration, hodd]

omit [DefaultHasher] in
theorem generationOfValue_eq_some {n g : Nat} (h : generationOfValue n = some g) :
    n = g ∧ 0 < g := by
  cases n with
  | zero => simp [generationOfValue] at h
  | succ n =>
      simp only [generationOfValue, Option.some.injEq] at h
      exact ⟨h, by omega⟩

omit [DefaultHasher] in
/-- A filter only grows. -/
theorem InFilter.bfMadd {ks : Keyspace β} {key item key' : String} {items : List String}
    (h : InFilter bloom ks key item) :
    InFilter bloom (Redis.bfMadd bloom ks key' items).2 key item := by
  obtain ⟨filter, hfilter, hitem⟩ := h
  by_cases hkey : key = key'
  · subst hkey
    refine ⟨(bloom.madd filter items).1, ?_, bloom.madd_keeps hitem⟩
    simp [Redis.bfMadd, hfilter]
  · have hother : (Redis.bfMadd bloom ks key' items).2 key = ks key := by
      unfold Redis.bfMadd
      split
      · exact Function.update_of_ne hkey _ _
      · exact Function.update_of_ne hkey _ _
      · rfl
    exact ⟨filter, hother.trans hfilter, hitem⟩

omit [DefaultHasher] in
/-- An added item is in the filter. -/
theorem inFilter_of_bfMadd {ks : Keyspace β} {key item : String} {items : List String}
    {flags : List Bool} (h : (Redis.bfMadd bloom ks key items).1 = .ok flags)
    (hitem : item ∈ items) : InFilter bloom (Redis.bfMadd bloom ks key items).2 key item := by
  have hadd : ∀ filter, ((bloom.madd filter items).2.mapError (Redis.cmdErr "BF.MADD")) =
      .ok flags → bloom.mayContain (bloom.madd filter items).1 item = true := by
    intro filter hok
    cases hmadd : (bloom.madd filter items).2 with
    | error err => simp [hmadd, Except.mapError] at hok
    | ok flags' => exact bloom.madd_adds hmadd hitem
  cases hks : ks key with
  | none =>
      simp only [Redis.bfMadd, hks] at h ⊢
      exact ⟨_, Function.update_self .., hadd _ h⟩
  | some value =>
      cases value with
      | bloom filter =>
          simp only [Redis.bfMadd, hks] at h ⊢
          exact ⟨_, Function.update_self .., hadd _ h⟩
      | str v => simp [Redis.bfMadd, hks] at h
      | hash v => simp [Redis.bfMadd, hks] at h
      | set v => simp [Redis.bfMadd, hks] at h

omit [DefaultHasher] in
/-- Reserving a filter leaves the others alone. -/
theorem InFilter.bfReserve {ks : Keyspace β} {key item key' : String} {errorRate : F64}
    {capacity : Int64} (h : InFilter bloom ks key item) :
    InFilter bloom (Redis.bfReserve bloom ks key' errorRate capacity).2 key item := by
  obtain ⟨filter, hfilter, hitem⟩ := h
  refine ⟨filter, ?_, hitem⟩
  unfold Redis.bfReserve
  split
  · rename_i hmissing
    split
    · -- a filter is only reserved for a missing key
      have hkey : key ≠ key' := by
        rintro rfl
        rw [hfilter] at hmissing
        cases hmissing
      exact (Function.update_of_ne hkey _ _).trans hfilter
    · exact hfilter
  · exact hfilter

/-- The runtime may change as long as the current generation stays, or moves on past
every generation drawn so far. -/
theorem BloomInv.runtime (hs : BloomInv bloom texts s) {rt : KnowledgeRuntime π}
    (hepoch : rt.providerEpoch % 2 = 0)
    (hcurrent : rt.currentGenerationValue ≤ rt.nextGeneration)
    (hmoves : rt.currentGenerationValue = s.runtime.currentGenerationValue ∨
      s.runtime.nextGeneration < rt.currentGenerationValue) :
    BloomInv bloom texts { s with runtime := rt } := by
  have hle : s.runtime.currentGenerationValue ≤ rt.currentGenerationValue := by
    have := hs.current
    omega
  refine ⟨hepoch, hcurrent, ?_, hs.added, ?_⟩
  · intro ck entry hpeek
    obtain ⟨hpos, hbound⟩ := hs.cached hpeek
    exact ⟨hpos, Nat.le_trans hbound hle⟩
  · rintro key item hmem ⟨generation, entry, hgen, hpeek, hlive, hno⟩
    simp only [KnowledgeRuntime.currentGeneration_of_even hepoch] at hgen
    obtain ⟨hvalue, -⟩ := generationOfValue_eq_some hgen
    rcases hmoves with hsame | hnew
    · apply hs.noNo hmem
      refine ⟨generation, entry, ?_, hpeek, hlive, hno⟩
      rw [KnowledgeRuntime.currentGeneration_of_even hs.epoch, ← hsame]
      exact hgen
    · -- no answer has been cached for a generation this new
      have hbound : generation ≤ s.runtime.currentGenerationValue := (hs.cached hpeek).2
      have := hs.current
      omega

/-- An install keeps the invariant. -/
theorem BloomInv.install (hs : BloomInv bloom texts s) (call : InstallCall)
    (built : KnowledgeResult π) :
    BloomInv bloom texts (s.act bloom registered (.install call built)) := by
  have hepoch := hs.epoch
  have hcurrent := hs.current
  cases built with
  | error err => exact hs.runtime hepoch (Nat.le_succ_of_le hcurrent) (.inl rfl)
  | ok provider =>
      by_cases hdefault : call.isDefault = true
      · apply hs.runtime
        · simp only [KnowledgeRuntime.installProviderNamed, hdefault, if_true]
          omega
        · simp [KnowledgeRuntime.installProviderNamed, hdefault]
        · right
          simp [KnowledgeRuntime.installProviderNamed, hdefault]
      · apply hs.runtime
        · simp only [KnowledgeRuntime.installProviderNamed, hdefault, Bool.false_eq_true, if_false]
          exact hepoch
        · simp only [KnowledgeRuntime.installProviderNamed, hdefault, Bool.false_eq_true, if_false]
          omega
        · left
          simp [KnowledgeRuntime.installProviderNamed, hdefault]

omit [DefaultHasher] in
/-- The answer to a command cached under the key of an added item is no no. -/
theorem InFilter.not_denied {ks : Keyspace β} {key item : String}
    (h : InFilter bloom ks key item) {command : RedisCommand} {v : CachedRedisValue}
    (htagged : Tagged command .bfExists [item]) (hkey : command.key = key)
    (hrun : command.run bloom ks = .ok v) : v ≠ .bool false := by
  obtain ⟨filter, hfilter, hitem⟩ := h
  cases htagged with
  | bfExists key' =>
      simp only [RedisCommand.key] at hkey
      subst hkey
      simp only [RedisCommand.run, Redis.bfExists, hfilter, Except.map, Except.ok.injEq] at hrun
      rw [← hrun, hitem]
      simp
  | existsService key' =>
      simp only [RedisCommand.key] at hkey
      subst hkey
      simp [RedisCommand.run, Redis.setExists, hfilter, Except.map] at hrun

/-- A lookup keeps the invariant. -/
theorem BloomInv.call (hs : BloomInv bloom texts s) (hapart : HashesApart texts)
    {call : RedisCall} (huses : call.Uses registered texts) :
    BloomInv bloom texts (s.act bloom registered (.call call)) := by
  -- what is cached after the call was cached before, or is the answer to its command
  have hpeeked : ∀ {ck entry},
      (s.act bloom registered (.call call)).cache.redisCache.peek ck = some entry →
      s.cache.redisCache.peek ck = some entry ∨
        ∃ l generation, call.lookup registered = .ok l ∧
          s.runtime.currentGeneration = some generation ∧ ck = l.cacheKey generation ∧
          l.command.run bloom s.keyspace = .ok entry.value := by
    intro ck entry hpeek
    simp only [BloomState.act, RedisCall.perform_eq] at hpeek
    cases hlookup : call.lookup registered with
    | error err =>
        rw [hlookup] at hpeek
        exact .inl hpeek
    | ok l =>
        rw [hlookup] at hpeek
        by_cases hcached : l.cached = true
        · simp only [hcached, if_true] at hpeek
          rcases RedisCacheState.peek_lookup hpeek with hold | ⟨generation, hgen, hck, hrun, -⟩
          · exact .inl hold
          · exact .inr ⟨l, generation, rfl, hgen, hck, hrun⟩
        · simp only [hcached, Bool.false_eq_true, if_false] at hpeek
          exact .inl hpeek
  refine ⟨hs.epoch, hs.current, ?_, hs.added, ?_⟩
  · intro ck entry hpeek
    rcases hpeeked hpeek with hold | ⟨l, generation, -, hgen, rfl, -⟩
    · exact hs.cached hold
    · rw [KnowledgeRuntime.currentGeneration_of_even hs.epoch] at hgen
      obtain ⟨hvalue, hpos⟩ := generationOfValue_eq_some hgen
      exact ⟨hpos, Nat.le_of_eq hvalue.symm⟩
  · rintro key item hmem ⟨generation, entry, hgen, hpeek, hlive, hno⟩
    rcases hpeeked hpeek with hold | ⟨l, generation', hlookup, -, hck, hrun⟩
    · exact hs.noNo hmem ⟨generation, entry, hgen, hold, hlive, hno⟩
    · obtain ⟨hkeyIn, hitemIn, hfilter⟩ := hs.added hmem
      obtain ⟨hlkey, hlargs⟩ := huses l hlookup
      have htagged := RedisCall.tagged_of_lookup hlookup
      obtain ⟨htag, hkey, hargs⟩ := hapart.of_cacheKey_eq hkeyIn hlkey
        (by simpa using hitemIn) hlargs (by simp) htagged.length_args_le hck
      rw [← htag, ← hargs] at htagged
      exact hfilter.not_denied htagged hkey.symm hrun hno

/-- An addition that the guard admits keeps the invariant. -/
theorem BloomInv.bfAdd (hs : BloomInv bloom texts s) {key : String} {items : List String}
    (hkey : key ∈ texts) (hitems : ∀ item ∈ items, item ∈ texts ∧ ¬ s.CachedNo key item) :
    BloomInv bloom texts (s.bfAdd bloom key items) := by
  have hmem : ∀ {key' item}, (key', item) ∈ (s.bfAdd bloom key items).added →
      (key', item) ∈ s.added ∨ (key' = key ∧ item ∈ items ∧
        ∃ flags, (Redis.bfMadd bloom s.keyspace key items).1 = .ok flags) := by
    intro key' item h
    simp only [BloomState.bfAdd] at h
    cases hresult : (Redis.bfMadd bloom s.keyspace key items).1 with
    | error err =>
        rw [hresult] at h
        exact .inl h
    | ok flags =>
        rw [hresult] at h
        rcases List.mem_append.mp h with hold | hnew
        · exact .inl hold
        · obtain ⟨item', hitem', hpair⟩ := List.mem_map.mp hnew
          cases hpair
          exact .inr ⟨rfl, hitem', flags, rfl⟩
  refine ⟨hs.epoch, hs.current, hs.cached, ?_, ?_⟩
  · intro key' item h
    rcases hmem h with hold | ⟨rfl, hitem, flags, hflags⟩
    · obtain ⟨hk, hi, hfilter⟩ := hs.added hold
      exact ⟨hk, hi, hfilter.bfMadd⟩
    · exact ⟨hkey, (hitems item hitem).1, inFilter_of_bfMadd hflags hitem⟩
  · intro key' item h
    rcases hmem h with hold | ⟨rfl, hitem, -⟩
    · exact hs.noNo hold
    · exact (hitems item hitem).2

omit [DefaultHasher] in
/-- An entry that is too old stays too old. -/
theorem CachedRedisEntry.expired_of_le {entry : CachedRedisEntry} {now later : Nat}
    (hle : now ≤ later) (h : entry.expired later = false) : entry.expired now = false := by
  simp only [expired, Bool.and_eq_false_iff, decide_eq_false_iff_not] at h ⊢
  rcases h with h | h
  · exact .inl h
  · right
    intro hold
    apply h
    exact Nat.lt_of_lt_of_le hold (Nat.sub_le_sub_right hle _)

/-- Every guarded run keeps the invariant. -/
theorem bloomInv_of_run (hapart : HashesApart texts) {actions : List (BloomAction π)}
    (hrun : (bloomMachine bloom registered).Run (AddsNothingDenied registered texts) actions s) :
    BloomInv bloom texts s := by
  refine hrun.stateInvariant ?_ ?_
  · rintro s ⟨⟨capacity, hruntime, hcache⟩, hadded⟩
    refine ⟨by simp [hruntime, KnowledgeRuntime.new], by simp [hruntime, KnowledgeRuntime.new],
      ?_, ?_, ?_⟩
    · intro ck entry hpeek
      simp [hcache, RedisCacheState.new] at hpeek
    · intro key item hmem
      simp [hadded] at hmem
    · intro key item hmem
      simp [hadded] at hmem
  · intro s action s' hs hok hstep
    cases hstep
    cases action with
    | call call => exact hs.call hapart hok
    | bfAdd key items => exact hs.bfAdd hok.1 hok.2
    | bfCreate key errorRate capacity =>
        refine ⟨hs.epoch, hs.current, hs.cached, ?_, hs.noNo⟩
        intro key item hmem
        obtain ⟨hk, hi, hfilter⟩ := hs.added hmem
        exact ⟨hk, hi, hfilter.bfReserve⟩
    | install call built => exact hs.install call built
    | prune keep => exact hs.runtime hs.epoch hs.current (.inl rfl)
    | configureResultCache call => exact hs.runtime hs.epoch hs.current (.inl rfl)
    | configureRedisCache globalEnabled capacity =>
        refine ⟨hs.epoch, hs.current, ?_, hs.added, ?_⟩
        · intro ck entry hpeek
          simp [BloomState.act, RedisCacheState.configure] at hpeek
        · rintro key item - ⟨generation, entry, -, hpeek, -⟩
          simp [BloomState.act, RedisCacheState.configure] at hpeek
    | tick elapsed =>
        refine ⟨hs.epoch, hs.current, hs.cached, hs.added, ?_⟩
        rintro key item hmem ⟨generation, entry, hgen, hpeek, hlive, hno⟩
        have hbefore : entry.expired s.clock = false :=
          CachedRedisEntry.expired_of_le (Nat.le_add_right _ elapsed) hlive
        exact hs.noNo hmem ⟨generation, entry, hgen, hpeek, hbefore, hno⟩

/-- In every run in which no item is added while an unexpired no for it is cached under
the current generation, the lookup does not say no for an item whose addition has
returned, whatever was looked up, written, installed and configured before. -/
theorem bloom_no_is_definite (hapart : HashesApart texts) {actions : List (BloomAction π)}
    (hrun : (bloomMachine bloom registered).Run (AddsNothingDenied registered texts) actions s)
    {key item : String} (hadded : (key, item) ∈ s.added) :
    (redisBfExists s.cache s.runtime s.clock bloom s.keyspace key item).1 ≠ .ok false := by
  have hs := bloomInv_of_run hapart hrun
  obtain ⟨-, -, filter, hfilter, hitem⟩ := hs.added hadded
  have hask : Redis.bfExists bloom s.keyspace key item = .ok true := by
    simp [Redis.bfExists, hfilter, hitem]
  intro hno
  simp only [redisBfExists, RedisCacheState.lookup, hask] at hno
  cases hgen : s.runtime.currentGeneration with
  | none => simp [hgen] at hno
  | some generation =>
      simp only [hgen] at hno
      cases hget : (s.cache.redisCacheGet s.runtime s.clock
          (redisCacheKey .bfExists generation key [item])).2.bind CachedRedisValue.asBool with
      | none => simp [hget] at hno
      | some v =>
          simp only [hget, Except.ok.injEq] at hno
          subst hno
          obtain ⟨value, hvalue, hbool⟩ := Option.bind_eq_some_iff.mp hget
          obtain ⟨-, -, entry, hpeek, hlive, rfl⟩ :=
            RedisCacheState.redisCacheGet_eq_some_iff.mp hvalue
          apply hs.noNo hadded
          refine ⟨generation, entry, hgen, hpeek, hlive, ?_⟩
          cases hentry : entry.value with
          | bool v => simpa [hentry, CachedRedisValue.asBool] using hbool
          | optString v => simp [hentry, CachedRedisValue.asBool] at hbool

/-- A cached no is what the lookup returns, also after the item was added: an addition
does not touch the cache. -/
theorem bloom_no_of_cachedNo {key item : String} {items : List String}
    (hno : s.CachedNo key item) (hglobal : s.cache.redisGlobalEnabled = true)
    (henabled : s.runtime.resultCacheEnabled = true) :
    (redisBfExists s.cache s.runtime s.clock bloom (s.bfAdd bloom key items).keyspace key item).1 =
      .ok false := by
  obtain ⟨generation, entry, hgen, hpeek, hlive, hvalue⟩ := hno
  have hserves : s.cache.Serves s.runtime s.clock
      (redisCacheKey .bfExists generation key [item]) (.bool false) :=
    ⟨hglobal, henabled, entry, hpeek, hlive, hvalue⟩
  have hget := RedisCacheState.redisCacheGet_eq_some_iff.mpr hserves
  simp [redisBfExists, RedisCacheState.lookup, hgen, hget, CachedRedisValue.asBool]

end Machine

/-! ## A lookup before the addition -/

/-- The first default provider. -/
def firstInstall : BloomAction Unit :=
  .install (.installProvider .sqliteAuthority ⟨"memdb"⟩) (.ok ())

/-- A new process on an empty server. -/
def freshBloom : BloomState Unit (List String) where
  cache := RedisCacheState.new 1024
  runtime := KnowledgeRuntime.new Unit 1024
  clock := 0
  keyspace _ := none
  added := []

/-- An item is added, and looked up afterwards. -/
theorem bloom_no_is_definite_added :
    letI := sipHasher
    ∃ s, (bloomMachine exactBloom none).Run (AddsNothingDenied none weakTexts)
        [firstInstall, .bfAdd "weak" ["123456"], .call (.bfExists "weak" "123456")] s ∧
      (redisBfExists s.cache s.runtime s.clock exactBloom s.keyspace "weak" "123456").1 ≠
        .ok false := by
  let _ := sipHasher
  have h₀ : (bloomMachine exactBloom none).Run (AddsNothingDenied none weakTexts) [] freshBloom :=
    .start ⟨⟨1024, rfl, rfl⟩, rfl⟩
  have h₁ := h₀.snoc (a := firstInstall) trivial rfl
  have h₂ := h₁.snoc (a := BloomAction.bfAdd "weak" ["123456"])
    ⟨by decide, by
      intro item hitem
      rw [List.mem_singleton.mp hitem]
      refine ⟨by decide, ?_⟩
      rintro ⟨generation, entry, -, hpeek, -⟩
      cases hpeek⟩ rfl
  have h₃ := h₂.snoc (a := BloomAction.call (.bfExists "weak" "123456")) (bfExists_uses none) rfl
  exact ⟨_, h₃, bloom_no_is_definite weakTexts_apart h₃ (List.mem_singleton.mpr rfl)⟩

/-- A lookup caches its no, the item is added, and the next lookup still says no. -/
theorem bloom_no_after_add :
    letI := sipHasher
    ∃ s, (bloomMachine exactBloom none).Run Machine.Unguarded
        [firstInstall, .call (.bfExists "weak" "123456"), .bfAdd "weak" ["123456"]] s ∧
      ("weak", "123456") ∈ s.added ∧
      (redisBfExists s.cache s.runtime s.clock exactBloom s.keyspace "weak" "123456").1 =
        .ok false := by
  let _ := sipHasher
  have h₀ : (bloomMachine exactBloom none).Run Machine.Unguarded [] freshBloom :=
    .start ⟨⟨1024, rfl, rfl⟩, rfl⟩
  have h₁ := h₀.snoc (a := firstInstall) trivial rfl
  have h₂ := h₁.snoc (a := BloomAction.call (.bfExists "weak" "123456")) trivial rfl
  have h₃ := h₂.snoc (a := BloomAction.bfAdd "weak" ["123456"]) trivial rfl
  exact ⟨_, h₃, List.mem_singleton.mpr rfl, by decide +kernel⟩

end WpKnowledge
