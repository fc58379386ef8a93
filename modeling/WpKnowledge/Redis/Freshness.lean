import Mathlib.Logic.Relation
import WpKnowledge.Foundation.TaskPool
import WpKnowledge.Redis.Transparency

/-!
# Lookups that overlap

Any number of Redis lookups run at the same time over one cache.  A lookup reads the current
generation, looks into the cache, asks the server and stores the answer, each in steps of
their own: the two flags, the entry, its age and the counters are read and written one
after the other, and the time an answer is stored with is taken before it is stored.
Meanwhile the settings may change, the cache may be replaced and time passes.  What the
current generation is and what the server answers comes with the step, so that nothing is
assumed of either.

The history has, with the time of each, the reading of a generation, the question to the
server, the taking of the time for an entry, its storing, and the look at the age of an
entry that was found.

Main results:

- Theorem {lit}`RedisTask.step_sound`: what one step of one lookup keeps.
- Theorem {lit}`answer_explained_of_run`: in every run an answer is the server's own, or one
  that the server gave to a lookup of the same tag, Redis key and arguments after the
  generation had been seen by it, and that had not outlived the time to live of that lookup
  when it was found, counted from the time it was stored with.
- Theorem {lit}`RedisTask.Alone.perform`: a lookup that nothing comes between does what the
  entry point does in the sequential model.
-/

namespace WpKnowledge

open Foundation

/-! ## Lookups in steps -/

/-- What the lookups share. -/
structure RedisShared where
  cache : RedisCacheState
  resultCacheEnabled : Bool
  clock : Nat

/-- Where a lookup stands, once its service is resolved. -/
inductive RedisPhase where
  /-- The current generation is to be read. -/
  | generation
  /-- The flag of the Redis cache is to be read. -/
  | getGlobal (generation : Nat)
  /-- The flag of the result cache is to be read. -/
  | getEnabled (generation : Nat)
  | peek (generation : Nat)
  /-- There is an entry, whose age is to be looked at. -/
  | age (generation : Nat) (entry : CachedRedisEntry)
  /-- The entry was too old. -/
  | pop (generation : Nat)
  /-- The entry was not too old at a time. -/
  | hit (generation : Nat) (entry : CachedRedisEntry) (time : Nat)
  | ask (generation : Option Nat)
  /-- There is an answer to store; the flag of the Redis cache is to be read. -/
  | putGlobal (generation : Nat) (value : CachedRedisValue)
  | count (generation : Nat) (value : CachedRedisValue)
  | stamp (generation : Nat) (value : CachedRedisValue)
  /-- There is an entry to store; the flag of the result cache is to be read. -/
  | putEnabled (generation : Nat) (entry : CachedRedisEntry)
  | put (generation : Nat) (entry : CachedRedisEntry)
  /-- The server's answer is to be returned. -/
  | give (answer : KnowledgeResult CachedRedisValue)

/-- A lookup that has been called, is under way, or has returned. -/
inductive RedisTask where
  | start (call : RedisCall)
  | running (call : RedisCall) (l : RedisLookup) (phase : RedisPhase)
  | done

/-- What the runtime and the server answer in a step, where they are asked. -/
structure RedisInput where
  generation : Option Nat
  answer : KnowledgeResult CachedRedisValue

/-- Where an answer comes from. -/
inductive RedisSource where
  /-- There is no such service. -/
  | refused
  | server
  | cache (generation : Nat) (entry : CachedRedisEntry) (time : Nat)
deriving DecidableEq

/-- What happened: a lookup has read the current generation, has asked the server, has taken
the time for an entry, has stored an entry, has found an entry that is not too old, or has
returned. -/
inductive RedisEvent where
  | generation (task : Nat) (generation : Nat)
  | asked (task : Nat) (command : RedisCommand) (answer : KnowledgeResult CachedRedisValue)
      (time : Nat)
  | stamped (task : Nat) (time : Nat)
  | stored (task : Nat) (entry : CachedRedisEntry) (time : Nat)
  | found (task : Nat) (entry : CachedRedisEntry) (time : Nat)
  | returned (task : Nat) (call : RedisCall) (answer : KnowledgeResult CachedRedisValue)
      (source : RedisSource)
deriving DecidableEq

/-- Whether a lookup returns at the event. -/
def RedisEvent.isReturned : RedisEvent → Bool
  | returned .. => true
  | _ => false

/-- What the environment may do: change a flag, replace the cache, let time pass. -/
inductive RedisAmbient where
  | setGlobalEnabled (enabled : Bool)
  | setResultCacheEnabled (enabled : Bool)
  | replaceCache (capacity : Nat)
  | tick (elapsed : Nat)

/-- What the environment does to what is shared. -/
def RedisAmbient.apply (x : RedisShared) : RedisAmbient → RedisShared
  | setGlobalEnabled enabled => { x with cache := { x.cache with redisGlobalEnabled := enabled } }
  | setResultCacheEnabled enabled => { x with resultCacheEnabled := enabled }
  | replaceCache capacity =>
      { x with
        cache := { x.cache with
          redisCache := LruCache.new (max capacity 1) (RedisCacheState.max_one_pos capacity) } }
  | tick elapsed => { x with clock := x.clock + elapsed }

section Steps

variable [DefaultHasher]

/-- One step of a lookup that is under way. -/
def RedisPhase.step (tid : Nat) (x : RedisShared) (call : RedisCall) (l : RedisLookup)
    (input : RedisInput) : RedisPhase → Option (RedisShared × RedisTask × Option RedisEvent)
  | generation =>
      match input.generation with
      | none => some (x, .running call l (ask none), none)
      | some g => some (x, .running call l (getGlobal g), some (.generation tid g))
  | getGlobal g =>
      if x.cache.redisGlobalEnabled then some (x, .running call l (getEnabled g), none)
      else some (x, .running call l (ask (some g)), none)
  | getEnabled g =>
      if x.resultCacheEnabled then some (x, .running call l (peek g), none)
      else some (x, .running call l (ask (some g)), none)
  | peek g =>
      match x.cache.redisCache.peek (l.cacheKey g) with
      | none => some (x, .running call l (ask (some g)), none)
      | some entry => some (x, .running call l (age g entry), none)
  | age g entry =>
      if entry.expired x.clock then some (x, .running call l (pop g), none)
      else some (x, .running call l (hit g entry x.clock), some (.found tid entry x.clock))
  | pop g =>
      let cache := { x.cache with redisCache := x.cache.redisCache.pop (l.cacheKey g) }
      some ({ x with cache }, .running call l (ask (some g)), none)
  | hit g entry time =>
      let cache := { x.cache with redisCacheHits := x.cache.redisCacheHits + 1 }
      match l.command.decode entry.value with
      | some v =>
          some ({ x with cache }, .done, some (.returned tid call (.ok v) (.cache g entry time)))
      | none => some ({ x with cache }, .running call l (ask (some g)), none)
  | ask g =>
      let asked := some (RedisEvent.asked tid l.command input.answer x.clock)
      match input.answer, g with
      | .error err, _ => some (x, .running call l (give (.error err)), asked)
      | .ok v, none =>
          if l.command.accepts v then some (x, .running call l (give (.ok v)), asked) else none
      | .ok v, some g =>
          if l.command.accepts v then some (x, .running call l (putGlobal g v), asked) else none
  | putGlobal g v =>
      if x.cache.redisGlobalEnabled then some (x, .running call l (count g v), none)
      else some (x, .running call l (give (.ok v)), none)
  | count g v =>
      let cache := { x.cache with redisCacheMisses := x.cache.redisCacheMisses + 1 }
      some ({ x with cache }, .running call l (stamp g v), none)
  | stamp g v =>
      let entry := { value := v, cachedAt := x.clock, ttlMs := l.ttlMs }
      some (x, .running call l (putEnabled g entry), some (.stamped tid x.clock))
  | putEnabled g entry =>
      if x.resultCacheEnabled then some (x, .running call l (put g entry), none)
      else some (x, .running call l (give (.ok entry.value)), none)
  | put g entry =>
      let cache := { x.cache with redisCache := x.cache.redisCache.put (l.cacheKey g) entry }
      some ({ x with cache }, .running call l (give (.ok entry.value)),
        some (.stored tid entry x.clock))
  | give answer => some (x, .done, some (.returned tid call answer .server))

variable (registered : Option FunMap) (texts : List String)

/-- One step of a lookup. -/
def RedisTask.step (tid : Nat) (x : RedisShared) (task : RedisTask) (input : RedisInput) :
    Option (RedisShared × RedisTask × Option RedisEvent) :=
  match task with
  | start call =>
      match call.lookup registered with
      | .error err => some (x, done, some (.returned tid call (.error err) .refused))
      | .ok l =>
          if l.cached then some (x, running call l .generation, none)
          else some (x, running call l (.ask none), none)
  | running call l phase => phase.step tid x call l input
  | done => none

/-- Any number of lookups of fixed services. -/
def redisTasks :
    TaskSystem RedisShared RedisTask RedisEvent RedisCall RedisInput RedisAmbient where
  start := .start
  step := RedisTask.step registered
  env := RedisAmbient.apply

/-- A new cache with any settings at any time, then any lookups. -/
def redisPool :
    Machine (Pool RedisShared RedisTask RedisEvent)
      (PoolAction RedisCall RedisInput RedisAmbient) :=
  (redisTasks registered).machine fun x => ∃ capacity, x.cache = .new capacity

/-! ## Where answers come from -/

omit [DefaultHasher] in
/-- A lookup has read a generation and then asked the server, which gave an answer. -/
def AnsweredUnder (log : List RedisEvent) (tid g : Nat) (command : RedisCommand)
    (v : CachedRedisValue) (time : Nat) : Prop :=
  [RedisEvent.asked tid command (.ok v) time, .generation tid g].Sublist log

omit [DefaultHasher] in
/-- A lookup has made an entry: of the answer the server gave it under a generation, with the
time it took after that and with its own time to live.  Then came the events
{lit}`later`, the newest first. -/
structure MadeBy (log later : List RedisEvent) (tid g : Nat) (l : RedisLookup)
    (entry : CachedRedisEntry) (asked : Nat) : Prop where
  ttl : entry.ttlMs = l.ttlMs
  asked_le : asked ≤ entry.cachedAt
  history : (later ++ [RedisEvent.stamped tid entry.cachedAt,
    .asked tid l.command (.ok entry.value) asked, .generation tid g]).Sublist log

/-- A lookup under the key has made an entry and stored it.  Then came the events
{lit}`later`. -/
def Stored (log later : List RedisEvent) (clock : Nat) (ck : RedisCacheKey)
    (entry : CachedRedisEntry) : Prop :=
  ∃ (tid : Nat) (call : RedisCall) (l : RedisLookup) (asked stored : Nat),
    call.lookup registered = .ok l ∧ call.Uses registered texts ∧ l.cacheKey ck.generation = ck ∧
    entry.cachedAt ≤ stored ∧ stored ≤ clock ∧
    MadeBy log (later ++ [.stored tid entry stored]) tid ck.generation l entry asked

omit [DefaultHasher] in
/-- The lookups are of one tag, one Redis key and one list of arguments. -/
def RedisLookup.Same (l l' : RedisLookup) : Prop :=
  l.tag = l'.tag ∧ l.command.key = l'.command.key ∧ l.args = l'.args

omit [DefaultHasher] in
/-- At a time an entry has not outlived its time to live, counted from the time it has. -/
def CachedRedisEntry.LivesAt (entry : CachedRedisEntry) (time : Nat) : Prop :=
  entry.ttlMs = 0 ∨ time ≤ entry.cachedAt + Duration.fromMillis entry.ttlMs

omit [DefaultHasher] in
/-- What an answer says about the past.  One from the cache is an entry that the lookup found
at a time, after some lookup had read the generation, asked the server, taken the time and
stored it. -/
def RedisSource.Explains (log : List RedisEvent) (tid : Nat) (call : RedisCall)
    (answer : KnowledgeResult CachedRedisValue) : RedisSource → Prop
  | refused => ∃ err, call.lookup registered = .error err ∧ answer = .error err
  | server => ∃ l time, call.lookup registered = .ok l ∧ .asked tid l.command answer time ∈ log
  | cache g entry time => ∃ l, call.lookup registered = .ok l ∧ l.cached = true ∧
      answer = .ok entry.value ∧ .generation tid g ∈ log ∧ entry.LivesAt time ∧
      ∃ (tid' : Nat) (call' : RedisCall) (l' : RedisLookup) (asked stored : Nat),
        call'.lookup registered = .ok l' ∧ l'.Same l ∧
        entry.cachedAt ≤ stored ∧ stored ≤ time ∧
        MadeBy log [.found tid entry time, .stored tid' entry stored] tid' g l' entry asked

/-- What holds of a lookup under way. -/
def RedisPhase.Fits (log : List RedisEvent) (clock tid : Nat) (l : RedisLookup) :
    RedisPhase → Prop
  | generation => l.cached = true
  | getGlobal g | getEnabled g | peek g | pop g => l.cached = true ∧ .generation tid g ∈ log
  | age g entry => (l.cached = true ∧ .generation tid g ∈ log) ∧
      Stored registered texts log [] clock (l.cacheKey g) entry
  | hit g entry time => (l.cached = true ∧ .generation tid g ∈ log) ∧
      Stored registered texts log [.found tid entry time] time (l.cacheKey g) entry ∧
      entry.LivesAt time
  | ask none => True
  | ask (some g) => .generation tid g ∈ log
  | putGlobal g v | count g v | stamp g v =>
      ∃ time, time ≤ clock ∧ AnsweredUnder log tid g l.command v time
  | putEnabled g entry | put g entry =>
      entry.cachedAt ≤ clock ∧ ∃ asked, MadeBy log [] tid g l entry asked
  | give answer => ∃ time, .asked tid l.command answer time ∈ log

/-- What holds of a lookup. -/
def RedisTask.Fits (log : List RedisEvent) (clock tid : Nat) : RedisTask → Prop
  | start call => call.Uses registered texts
  | running call l phase => (call.lookup registered = .ok l ∧ call.Uses registered texts) ∧
      phase.Fits registered texts log clock tid l
  | done => True

omit [DefaultHasher] in
/-- The guard of the runs whose lookups use only the given texts. -/
def LooksUpTexts (_ : Pool RedisShared RedisTask RedisEvent) :
    PoolAction RedisCall RedisInput RedisAmbient → Prop
  | .spawn call => call.Uses registered texts
  | _ => True

/-- What holds of what is shared and of the history. -/
structure RedisSound (x : RedisShared) (log : List RedisEvent) : Prop where
  stored : ∀ {ck entry}, x.cache.redisCache.peek ck = some entry →
    Stored registered texts log [] x.clock ck entry
  explained : ∀ {newer older tid call answer} {source : RedisSource},
    log = newer ++ .returned tid call answer source :: older →
    source.Explains registered older tid call answer

variable {registered} {texts}

/-! ### A longer history -/

omit [DefaultHasher] in
theorem AnsweredUnder.append {log : List RedisEvent} {tid g : Nat} {command : RedisCommand}
    {v : CachedRedisValue} {time : Nat} (h : AnsweredUnder log tid g command v time)
    (es : List RedisEvent) : AnsweredUnder (es ++ log) tid g command v time :=
  h.trans (List.sublist_append_right es log)

omit [DefaultHasher] in
theorem MadeBy.append {log later : List RedisEvent} {tid g asked : Nat} {l : RedisLookup}
    {entry : CachedRedisEntry} (h : MadeBy log later tid g l entry asked)
    (es : List RedisEvent) : MadeBy (es ++ log) later tid g l entry asked :=
  ⟨h.ttl, h.asked_le, h.history.trans (List.sublist_append_right es log)⟩

omit [DefaultHasher] in
/-- What happens comes after what has happened. -/
theorem MadeBy.cons {log later : List RedisEvent} {tid g asked : Nat} {l : RedisLookup}
    {entry : CachedRedisEntry} (h : MadeBy log later tid g l entry asked) (e : RedisEvent) :
    MadeBy (e :: log) (e :: later) tid g l entry asked :=
  ⟨h.ttl, h.asked_le, h.history.cons_cons e⟩

omit [DefaultHasher] in
/-- The lookup that made an entry has asked the server for its value. -/
theorem MadeBy.asked_mem {log later : List RedisEvent} {tid g asked : Nat} {l : RedisLookup}
    {entry : CachedRedisEntry} (h : MadeBy log later tid g l entry asked) :
    .asked tid l.command (.ok entry.value) asked ∈ log :=
  h.history.subset (by simp)

theorem Stored.append {log later : List RedisEvent} {clock clock' : Nat} {ck : RedisCacheKey}
    {entry : CachedRedisEntry} (h : Stored registered texts log later clock ck entry)
    (es : List RedisEvent) (hclock : clock ≤ clock') :
    Stored registered texts (es ++ log) later clock' ck entry := by
  obtain ⟨tid, call, l, asked, stored, hlookup, huses, hkey, hcached, hstored, hmade⟩ := h
  exact ⟨tid, call, l, asked, stored, hlookup, huses, hkey, hcached,
    Nat.le_trans hstored hclock, hmade.append es⟩

theorem RedisPhase.Fits.append {log : List RedisEvent} {clock clock' tid : Nat} {l : RedisLookup}
    {phase : RedisPhase} (h : phase.Fits registered texts log clock tid l) (es : List RedisEvent)
    (hclock : clock ≤ clock') : phase.Fits registered texts (es ++ log) clock' tid l := by
  cases phase with
  | generation => exact h
  | getGlobal | getEnabled | peek | pop => exact ⟨h.1, List.mem_append_right es h.2⟩
  | age g entry =>
      exact ⟨⟨h.1.1, List.mem_append_right es h.1.2⟩, h.2.append es hclock⟩
  | hit g entry time =>
      exact ⟨⟨h.1.1, List.mem_append_right es h.1.2⟩, h.2.1.append es (Nat.le_refl _), h.2.2⟩
  | ask g =>
      cases g with
      | none => trivial
      | some g => exact List.mem_append_right es h
  | putGlobal g v | count g v | stamp g v =>
      obtain ⟨time, htime, hanswered⟩ := h
      exact ⟨time, Nat.le_trans htime hclock, hanswered.append es⟩
  | putEnabled g entry | put g entry =>
      obtain ⟨hcached, asked, hmade⟩ := h
      exact ⟨Nat.le_trans hcached hclock, asked, hmade.append es⟩
  | give answer =>
      obtain ⟨time, hasked⟩ := h
      exact ⟨time, List.mem_append_right es hasked⟩

theorem RedisTask.Fits.append {log : List RedisEvent} {clock clock' tid : Nat} {task : RedisTask}
    (h : task.Fits registered texts log clock tid) (es : List RedisEvent)
    (hclock : clock ≤ clock') : task.Fits registered texts (es ++ log) clock' tid := by
  cases task with
  | start call => exact h
  | running call l phase => exact ⟨h.1, h.2.append es hclock⟩
  | done => trivial

/-- Nothing is in the cache that was not stored, and a lookup that returns is explained. -/
theorem RedisSound.append {x x' : RedisShared} {log : List RedisEvent}
    (h : RedisSound registered texts x log) (e : Option RedisEvent) (hclock : x.clock ≤ x'.clock)
    (hcache : ∀ {ck entry}, x'.cache.redisCache.peek ck = some entry →
      x.cache.redisCache.peek ck = some entry ∨
        Stored registered texts (e.toList ++ log) [] x'.clock ck entry)
    (he : ∀ {tid call answer} {source : RedisSource}, e = some (.returned tid call answer source) →
      source.Explains registered log tid call answer) :
    RedisSound registered texts x' (e.toList ++ log) := by
  refine ⟨fun hpeek => ?_, fun {newer} {older} {tid} {call} {answer} {source} hlog => ?_⟩
  · rcases hcache hpeek with hold | hnew
    · exact (h.stored hold).append _ hclock
    · exact hnew
  · cases e with
    | none => exact h.explained hlog
    | some e =>
        cases newer with
        | nil =>
            obtain ⟨rfl, rfl⟩ := List.cons.inj hlog
            exact he rfl
        | cons _ newer => exact h.explained (List.cons.inj hlog).2

/-- Lookups under one cache key are of one tag, one Redis key and one list of arguments. -/
theorem RedisLookup.same_of_cacheKey_eq (hapart : HashesApart texts) {call call' : RedisCall}
    {l l' : RedisLookup} {g g' : Nat}
    (hcall : call.lookup registered = .ok l ∧ call.Uses registered texts)
    (hcall' : call'.lookup registered = .ok l' ∧ call'.Uses registered texts)
    (hkey : l.cacheKey g = l'.cacheKey g') : l.Same l' := by
  obtain ⟨hmem, hargs⟩ := hcall.2 l hcall.1
  obtain ⟨hmem', hargs'⟩ := hcall'.2 l' hcall'.1
  have hlen := (RedisCall.tagged_of_lookup hcall.1).length_args_le
  have hlen' := (RedisCall.tagged_of_lookup hcall'.1).length_args_le
  exact hapart.of_cacheKey_eq hmem hmem' hargs hargs' hlen hlen' hkey

omit [DefaultHasher] in
/-- An entry that is not too old has not outlived its time to live. -/
theorem CachedRedisEntry.livesAt_of_expired {entry : CachedRedisEntry} {time : Nat}
    (h : entry.expired time = false) : entry.LivesAt time := by
  simp only [expired, Bool.and_eq_false_iff, decide_eq_false_iff_not] at h
  rcases h with hzero | hage
  · exact .inl (Nat.eq_zero_of_not_pos hzero)
  · exact .inr (Nat.sub_le_iff_le_add'.mp (Nat.not_lt.mp hage))

/-! ### One lemma for each phase -/

/-- The result of a step keeps what holds of what is shared and of the lookup. -/
def StepSound (registered : Option FunMap) (texts : List String) (log : List RedisEvent)
    (clock tid : Nat) (r : RedisShared × RedisTask × Option RedisEvent) : Prop :=
  RedisSound registered texts r.1 (r.2.2.toList ++ log) ∧
    r.2.1.Fits registered texts (r.2.2.toList ++ log) r.1.clock tid ∧ clock ≤ r.1.clock

section Phases

variable {x : RedisShared} {log : List RedisEvent} {tid g : Nat} {call : RedisCall}
  {l : RedisLookup} {input : RedisInput} {r : RedisShared × RedisTask × Option RedisEvent}

/-- A step that leaves the cache alone and does not return. -/
theorem stepSound_of_same {x' : RedisShared} {phase : RedisPhase}
    (hsound : RedisSound registered texts x log)
    (hcall : call.lookup registered = .ok l ∧ call.Uses registered texts)
    (hcache : x'.cache.redisCache = x.cache.redisCache) (hclock : x'.clock = x.clock)
    {e : Option RedisEvent} (he : e.any RedisEvent.isReturned = false)
    (hfits : phase.Fits registered texts (e.toList ++ log) x.clock tid l) :
    StepSound registered texts log x.clock tid (x', .running call l phase, e) := by
  refine ⟨hsound.append e (Nat.le_of_eq hclock.symm) (fun hpeek => .inl ?_) fun heq => ?_,
    ⟨hcall, ?_⟩, Nat.le_of_eq hclock.symm⟩
  · rwa [hcache] at hpeek
  · rw [heq] at he
    cases he
  · dsimp only
    rw [hclock]
    exact hfits

/-- A lookup returns. -/
theorem stepSound_of_returned {x' : RedisShared} {answer : KnowledgeResult CachedRedisValue}
    {source : RedisSource} (hsound : RedisSound registered texts x log)
    (hcache : x'.cache.redisCache = x.cache.redisCache) (hclock : x'.clock = x.clock)
    (hexplains : source.Explains registered log tid call answer) :
    StepSound registered texts log x.clock tid
      (x', .done, some (.returned tid call answer source)) := by
  refine ⟨hsound.append (some _) (Nat.le_of_eq hclock.symm) (fun hpeek => .inl ?_) fun heq => ?_,
    trivial, Nat.le_of_eq hclock.symm⟩
  · rwa [hcache] at hpeek
  · cases heq
    exact hexplains

theorem stepSound_generation (hsound : RedisSound registered texts x log)
    (hcall : call.lookup registered = .ok l ∧ call.Uses registered texts)
    (hfits : RedisPhase.generation.Fits registered texts log x.clock tid l)
    (h : RedisPhase.generation.step tid x call l input = some r) :
    StepSound registered texts log x.clock tid r := by
  dsimp only [RedisPhase.step] at h
  split at h
  · cases h
    exact stepSound_of_same hsound hcall rfl rfl rfl trivial
  · cases h
    exact stepSound_of_same hsound hcall rfl rfl rfl ⟨hfits, List.mem_cons_self⟩

theorem stepSound_getGlobal (hsound : RedisSound registered texts x log)
    (hcall : call.lookup registered = .ok l ∧ call.Uses registered texts)
    (hfits : (RedisPhase.getGlobal g).Fits registered texts log x.clock tid l)
    (h : (RedisPhase.getGlobal g).step tid x call l input = some r) :
    StepSound registered texts log x.clock tid r := by
  dsimp only [RedisPhase.step] at h
  split at h
  · cases h
    exact stepSound_of_same hsound hcall rfl rfl rfl hfits
  · cases h
    exact stepSound_of_same hsound hcall rfl rfl rfl hfits.2

theorem stepSound_getEnabled (hsound : RedisSound registered texts x log)
    (hcall : call.lookup registered = .ok l ∧ call.Uses registered texts)
    (hfits : (RedisPhase.getEnabled g).Fits registered texts log x.clock tid l)
    (h : (RedisPhase.getEnabled g).step tid x call l input = some r) :
    StepSound registered texts log x.clock tid r := by
  dsimp only [RedisPhase.step] at h
  split at h
  · cases h
    exact stepSound_of_same hsound hcall rfl rfl rfl hfits
  · cases h
    exact stepSound_of_same hsound hcall rfl rfl rfl hfits.2

theorem stepSound_peek (hsound : RedisSound registered texts x log)
    (hcall : call.lookup registered = .ok l ∧ call.Uses registered texts)
    (hfits : (RedisPhase.peek g).Fits registered texts log x.clock tid l)
    (h : (RedisPhase.peek g).step tid x call l input = some r) :
    StepSound registered texts log x.clock tid r := by
  dsimp only [RedisPhase.step] at h
  split at h
  · cases h
    exact stepSound_of_same hsound hcall rfl rfl rfl hfits.2
  · rename_i entry hpeek
    cases h
    exact stepSound_of_same hsound hcall rfl rfl rfl ⟨hfits, hsound.stored hpeek⟩

theorem stepSound_age {entry : CachedRedisEntry} (hsound : RedisSound registered texts x log)
    (hcall : call.lookup registered = .ok l ∧ call.Uses registered texts)
    (hfits : (RedisPhase.age g entry).Fits registered texts log x.clock tid l)
    (h : (RedisPhase.age g entry).step tid x call l input = some r) :
    StepSound registered texts log x.clock tid r := by
  obtain ⟨⟨hcached, hread⟩, tid', call', l', asked, stored, hlookup', huses', hkey, hle, hclock,
    hmade⟩ := hfits
  dsimp only [RedisPhase.step] at h
  split at h
  · cases h
    exact stepSound_of_same hsound hcall rfl rfl rfl ⟨hcached, hread⟩
  · rename_i hfresh
    cases h
    refine stepSound_of_same hsound hcall rfl rfl rfl
      ⟨⟨hcached, List.mem_cons_of_mem _ hread⟩, ?_,
        CachedRedisEntry.livesAt_of_expired (Bool.eq_false_iff.mpr hfresh)⟩
    exact ⟨tid', call', l', asked, stored, hlookup', huses', hkey, hle, hclock, hmade.cons _⟩

theorem stepSound_pop (hsound : RedisSound registered texts x log)
    (hcall : call.lookup registered = .ok l ∧ call.Uses registered texts)
    (hfits : (RedisPhase.pop g).Fits registered texts log x.clock tid l)
    (h : (RedisPhase.pop g).step tid x call l input = some r) :
    StepSound registered texts log x.clock tid r := by
  cases h
  refine ⟨hsound.append none (Nat.le_refl _) (fun hpeek => .inl ?_) nofun, ⟨hcall, hfits.2⟩,
    Nat.le_refl _⟩
  rw [LruCache.peek_pop] at hpeek
  split at hpeek
  · cases hpeek
  · exact hpeek

theorem stepSound_hit {entry : CachedRedisEntry} {time : Nat} (hapart : HashesApart texts)
    (hsound : RedisSound registered texts x log)
    (hcall : call.lookup registered = .ok l ∧ call.Uses registered texts)
    (hfits : (RedisPhase.hit g entry time).Fits registered texts log x.clock tid l)
    (h : (RedisPhase.hit g entry time).step tid x call l input = some r) :
    StepSound registered texts log x.clock tid r := by
  obtain ⟨⟨hcached, hread⟩, ⟨tid', call', l', asked, stored, hlookup', huses', hkey, hle, htime,
    hmade⟩, hlives⟩ := hfits
  dsimp only [RedisPhase.step] at h
  split at h
  · rename_i v hdecode
    cases h
    have hv : entry.value = v := by
      unfold RedisCommand.decode at hdecode
      split at hdecode
      · exact Option.some.inj hdecode
      · cases hdecode
    have hsame : l'.Same l := RedisLookup.same_of_cacheKey_eq hapart ⟨hlookup', huses'⟩ hcall hkey
    exact stepSound_of_returned hsound rfl rfl
      ⟨l, hcall.1, hcached, by rw [hv], hread, hlives, tid', call', l', asked, stored, hlookup',
        hsame, hle, htime, hmade⟩
  · cases h
    refine stepSound_of_same hsound hcall ?_ ?_ ?_ ?_
    · rfl
    · rfl
    · rfl
    · exact hread

theorem stepSound_ask {generation : Option Nat} (hsound : RedisSound registered texts x log)
    (hcall : call.lookup registered = .ok l ∧ call.Uses registered texts)
    (hfits : (RedisPhase.ask generation).Fits registered texts log x.clock tid l)
    (h : (RedisPhase.ask generation).step tid x call l input = some r) :
    StepSound registered texts log x.clock tid r := by
  dsimp only [RedisPhase.step] at h
  split at h
  · rename_i err hanswer
    cases h
    refine stepSound_of_same hsound hcall rfl rfl rfl ⟨x.clock, ?_⟩
    rw [hanswer]
    exact List.mem_cons_self
  · rename_i v hanswer
    split at h
    · cases h
      refine stepSound_of_same hsound hcall rfl rfl rfl ⟨x.clock, ?_⟩
      rw [hanswer]
      exact List.mem_cons_self
    · cases h
  · rename_i v g hanswer
    split at h
    · cases h
      refine stepSound_of_same hsound hcall rfl rfl rfl ⟨x.clock, Nat.le_refl _, ?_⟩
      rw [hanswer]
      exact (List.singleton_sublist.mpr hfits).cons_cons _
    · cases h

theorem stepSound_putGlobal {v : CachedRedisValue} (hsound : RedisSound registered texts x log)
    (hcall : call.lookup registered = .ok l ∧ call.Uses registered texts)
    (hfits : (RedisPhase.putGlobal g v).Fits registered texts log x.clock tid l)
    (h : (RedisPhase.putGlobal g v).step tid x call l input = some r) :
    StepSound registered texts log x.clock tid r := by
  dsimp only [RedisPhase.step] at h
  split at h
  · cases h
    exact stepSound_of_same hsound hcall rfl rfl rfl hfits
  · cases h
    obtain ⟨time, -, hanswered⟩ := hfits
    exact stepSound_of_same hsound hcall rfl rfl rfl
      ⟨time, hanswered.subset List.mem_cons_self⟩

theorem stepSound_stamp {v : CachedRedisValue} (hsound : RedisSound registered texts x log)
    (hcall : call.lookup registered = .ok l ∧ call.Uses registered texts)
    (hfits : (RedisPhase.stamp g v).Fits registered texts log x.clock tid l)
    (h : (RedisPhase.stamp g v).step tid x call l input = some r) :
    StepSound registered texts log x.clock tid r := by
  obtain ⟨time, htime, hanswered⟩ := hfits
  cases h
  exact stepSound_of_same hsound hcall rfl rfl rfl
    ⟨Nat.le_refl _, time, rfl, htime, hanswered.cons_cons _⟩

theorem stepSound_putEnabled {entry : CachedRedisEntry}
    (hsound : RedisSound registered texts x log)
    (hcall : call.lookup registered = .ok l ∧ call.Uses registered texts)
    (hfits : (RedisPhase.putEnabled g entry).Fits registered texts log x.clock tid l)
    (h : (RedisPhase.putEnabled g entry).step tid x call l input = some r) :
    StepSound registered texts log x.clock tid r := by
  dsimp only [RedisPhase.step] at h
  split at h
  · cases h
    exact stepSound_of_same hsound hcall rfl rfl rfl hfits
  · cases h
    obtain ⟨-, asked, hmade⟩ := hfits
    exact stepSound_of_same hsound hcall rfl rfl rfl ⟨asked, hmade.asked_mem⟩

theorem stepSound_put {entry : CachedRedisEntry} (hsound : RedisSound registered texts x log)
    (hcall : call.lookup registered = .ok l ∧ call.Uses registered texts)
    (hfits : (RedisPhase.put g entry).Fits registered texts log x.clock tid l)
    (h : (RedisPhase.put g entry).step tid x call l input = some r) :
    StepSound registered texts log x.clock tid r := by
  obtain ⟨hcached, asked, hmade⟩ := hfits
  cases h
  refine ⟨hsound.append (some _) (Nat.le_refl _) (fun {ck} {entry'} hpeek => ?_) nofun,
    ⟨hcall, asked, (hmade.append [_]).asked_mem⟩, Nat.le_refl _⟩
  by_cases hck : ck = l.cacheKey g
  · subst hck
    rw [LruCache.peek_put_self, Option.some.injEq] at hpeek
    subst hpeek
    exact .inr ⟨tid, call, l, asked, x.clock, hcall.1, hcall.2, rfl, hcached, Nat.le_refl _,
      hmade.cons _⟩
  · exact .inl (LruCache.peek_of_peek_put hck hpeek)

/-- One step of a lookup keeps what holds of what is shared and of the lookup. -/
theorem RedisPhase.step_sound {phase : RedisPhase} (hapart : HashesApart texts)
    (hsound : RedisSound registered texts x log)
    (hcall : call.lookup registered = .ok l ∧ call.Uses registered texts)
    (hfits : phase.Fits registered texts log x.clock tid l)
    (h : phase.step tid x call l input = some r) :
    StepSound registered texts log x.clock tid r := by
  cases phase with
  | generation => exact stepSound_generation hsound hcall hfits h
  | getGlobal g => exact stepSound_getGlobal hsound hcall hfits h
  | getEnabled g => exact stepSound_getEnabled hsound hcall hfits h
  | peek g => exact stepSound_peek hsound hcall hfits h
  | age g entry => exact stepSound_age hsound hcall hfits h
  | pop g => exact stepSound_pop hsound hcall hfits h
  | hit g entry time => exact stepSound_hit hapart hsound hcall hfits h
  | ask generation => exact stepSound_ask hsound hcall hfits h
  | putGlobal g v => exact stepSound_putGlobal hsound hcall hfits h
  | count g v =>
      cases h
      refine stepSound_of_same hsound hcall ?_ ?_ ?_ ?_
      · rfl
      · rfl
      · rfl
      · exact hfits
  | stamp g v => exact stepSound_stamp hsound hcall hfits h
  | putEnabled g entry => exact stepSound_putEnabled hsound hcall hfits h
  | put g entry => exact stepSound_put hsound hcall hfits h
  | give answer =>
      obtain ⟨time, hasked⟩ := hfits
      cases h
      exact stepSound_of_returned hsound rfl rfl ⟨l, time, hcall.1, hasked⟩

theorem RedisTask.step_sound {task : RedisTask} (hapart : HashesApart texts)
    (hsound : RedisSound registered texts x log)
    (hfits : task.Fits registered texts log x.clock tid)
    (h : task.step registered tid x input = some r) :
    StepSound registered texts log x.clock tid r := by
  cases task with
  | start call =>
      dsimp only [step] at h
      split at h
      · rename_i err hlookup
        cases h
        exact stepSound_of_returned hsound rfl rfl ⟨err, hlookup, rfl⟩
      · rename_i l hlookup
        split at h
        · rename_i hcached
          cases h
          exact stepSound_of_same hsound ⟨hlookup, hfits⟩ rfl rfl rfl hcached
        · cases h
          exact stepSound_of_same hsound ⟨hlookup, hfits⟩ rfl rfl rfl trivial
  | running call l phase => exact RedisPhase.step_sound hapart hsound hfits.1 hfits.2 h
  | done => cases h

end Phases

/-! ### Every run -/

/-- Nothing the environment does puts anything into the cache. -/
theorem RedisSound.ambient {x : RedisShared} {log : List RedisEvent}
    (h : RedisSound registered texts x log) (d : RedisAmbient) :
    RedisSound registered texts (d.apply x) log ∧ x.clock ≤ (d.apply x).clock := by
  cases d with
  | setGlobalEnabled | setResultCacheEnabled =>
      exact ⟨h.append none (Nat.le_refl _) .inl nofun, Nat.le_refl _⟩
  | replaceCache capacity =>
      exact ⟨h.append none (Nat.le_refl _) (fun hpeek => by cases hpeek) nofun, Nat.le_refl _⟩
  | tick elapsed =>
      exact ⟨h.append none (Nat.le_add_right _ _) .inl nofun, Nat.le_add_right _ _⟩

/-- What is shared and the history are sound in every run. -/
theorem redisSound_of_run (hapart : HashesApart texts)
    {actions : List (PoolAction RedisCall RedisInput RedisAmbient)}
    {s : Pool RedisShared RedisTask RedisEvent}
    (hrun : (redisPool registered).Run (LooksUpTexts registered texts) actions s) :
    RedisSound registered texts s.shared s.log := by
  have hholds : s.Holds (fun _ x log => RedisSound registered texts x log)
      (fun tid task x log => task.Fits registered texts log x.clock tid) := by
    refine Pool.pool_invariant ?_ ?_ ?_ ?_ hrun
    · rintro x ⟨capacity, hcache⟩
      refine ⟨fun hpeek => ?_, fun hlog => absurd hlog.symm (by simp)⟩
      rw [hcache] at hpeek
      cases hpeek
    · intro s call hs huses
      exact ⟨hs.global, huses⟩
    · intro s d hs _
      obtain ⟨hsound, hclock⟩ := hs.global.ambient d
      exact ⟨hsound, fun j task htask => (hs.tasks htask).append [] hclock⟩
    · intro s tid input task x task' e hs _ htask hstep
      obtain ⟨hsound, hfits, hclock⟩ :=
        RedisTask.step_sound hapart hs.global (hs.tasks htask) hstep
      exact ⟨hsound, hfits, fun j other _ hother => (hs.tasks hother).append _ hclock⟩
  exact hholds.global

/-- **Every answer of overlapping lookups is explained** by what happened before it: by the
lookup's own question; or by an entry it found that had not outlived its time to live,
counted from a time that a lookup of the same tag, Redis key and arguments had taken for it
after the server had answered its question under the generation that the answered lookup
has read. -/
theorem answer_explained_of_run (hapart : HashesApart texts)
    {actions : List (PoolAction RedisCall RedisInput RedisAmbient)}
    {s : Pool RedisShared RedisTask RedisEvent}
    (hrun : (redisPool registered).Run (LooksUpTexts registered texts) actions s)
    {newer older : List RedisEvent} {tid : Nat} {call : RedisCall}
    {answer : KnowledgeResult CachedRedisValue} {source : RedisSource}
    (h : s.log = newer ++ .returned tid call answer source :: older) :
    source.Explains registered older tid call answer :=
  (redisSound_of_run hapart hrun).explained h

/-! ## One lookup alone -/

/-- One step of a lookup that nothing comes between, with what has happened so far. -/
def RedisTask.StepsTo (registered : Option FunMap) (tid : Nat) (input : RedisInput)
    (a b : RedisShared × RedisTask × List RedisEvent) : Prop :=
  ∃ e, a.2.1.step registered tid a.1 input = some (b.1, b.2.1, e) ∧ b.2.2 = e.toList ++ a.2.2

/-- The steps of a lookup that nothing comes between. -/
def RedisTask.Alone (registered : Option FunMap) (tid : Nat) (input : RedisInput) :
    RedisShared × RedisTask × List RedisEvent → RedisShared × RedisTask × List RedisEvent → Prop :=
  Relation.ReflTransGen (RedisTask.StepsTo registered tid input)

namespace RedisTask.Alone

variable {π : Type} {r : RedisCacheState} {rt : KnowledgeRuntime π} {now tid : Nat}
  {call : RedisCall} {l : RedisLookup} {g : Nat} {input : RedisInput} {log : List RedisEvent}

/-- A step, then the rest. -/
theorem step {x x' : RedisShared} {task task' : RedisTask} {e : Option RedisEvent}
    {b : RedisShared × RedisTask × List RedisEvent}
    (h : task.step registered tid x input = some (x', task', e))
    (hrest : Alone registered tid input (x', task', e.toList ++ log) b) :
    Alone registered tid input (x, task, log) b :=
  .head ⟨e, h, rfl⟩ hrest

/-- What is shared, from the sequential model. -/
def shared (r : RedisCacheState) (rt : KnowledgeRuntime π) (now : Nat) : RedisShared :=
  ⟨r, rt.resultCacheEnabled, now⟩

omit [DefaultHasher] in
@[simp]
theorem shared_clock (r : RedisCacheState) (rt : KnowledgeRuntime π) (now : Nat) :
    (shared r rt now).clock = now := rfl

/-- The answer is returned. -/
theorem give (x : RedisShared) (answer : KnowledgeResult CachedRedisValue) :
    Alone registered tid input (x, .running call l (.give answer), log)
      (x, .done, .returned tid call answer .server :: log) :=
  step rfl .refl

/-- The steps of storing an answer do what `redis_cache_put_with_ttl` does. -/
theorem put (v : CachedRedisValue) :
    ∃ events, Alone registered tid input (shared r rt now, .running call l (.putGlobal g v), log)
      (shared (r.redisCachePutWithTtl rt now (l.cacheKey g) v l.ttlMs) rt now, .done,
        .returned tid call (.ok v) .server :: (events ++ log)) := by
  unfold RedisCacheState.redisCachePutWithTtl RedisCacheState.saveRedisCache
  by_cases hglobal : r.redisGlobalEnabled = true
  · rw [if_pos hglobal]
    by_cases henabled : rt.resultCacheEnabled = true
    · rw [if_pos henabled]
      exact ⟨[.stored tid ⟨v, now, l.ttlMs⟩ now, .stamped tid now],
        step (if_pos hglobal) (step rfl (step rfl (step (if_pos henabled) (step rfl (give _ _)))))⟩
    · rw [if_neg henabled]
      exact ⟨[.stamped tid now],
        step (if_pos hglobal) (step rfl (step rfl (step (if_neg henabled) (give _ _))))⟩
  · rw [if_neg hglobal]
    exact ⟨[], step (if_neg hglobal) (give _ _)⟩

/-- Both flags are on, and the entry under the key is looked at. -/
theorem peek (hglobal : r.redisGlobalEnabled = true) (henabled : rt.resultCacheEnabled = true)
    {b : RedisShared × RedisTask × List RedisEvent}
    (h : Alone registered tid input (shared r rt now, .running call l (.peek g), log) b) :
    Alone registered tid input (shared r rt now, .running call l (.getGlobal g), log) b :=
  step (if_pos hglobal) (step (if_pos henabled) h)

/-- There is an entry, whose age is looked at. -/
theorem age {entry : CachedRedisEntry} (hpeek : r.redisCache.peek (l.cacheKey g) = some entry)
    {b : RedisShared × RedisTask × List RedisEvent}
    (h : Alone registered tid input (shared r rt now, .running call l (.age g entry), log) b) :
    Alone registered tid input (shared r rt now, .running call l (.peek g), log) b := by
  have hstep : (running call l (.peek g)).step registered tid (shared r rt now) input =
      some (shared r rt now, running call l (.age g entry), none) := by
    simp [RedisTask.step, RedisPhase.step, shared, hpeek]
  exact step hstep h

/-- An entry that is not too old is counted as a hit. -/
theorem hit {entry : CachedRedisEntry} (hfresh : entry.expired now = false)
    {b : RedisShared × RedisTask × List RedisEvent}
    (h : Alone registered tid input
      ({ shared r rt now with cache := { r with redisCacheHits := r.redisCacheHits + 1 } },
        (l.command.decode entry.value).elim
          (.running call l (.ask (some g)), .found tid entry now :: log)
          (fun v => (.done,
            .returned tid call (.ok v) (.cache g entry now) :: .found tid entry now :: log))) b) :
    Alone registered tid input (shared r rt now, .running call l (.age g entry), log) b := by
  have hstep : (running call l (.age g entry)).step registered tid (shared r rt now) input =
      some (shared r rt now, running call l (.hit g entry now), some (.found tid entry now)) := by
    simp [RedisTask.step, RedisPhase.step, shared, hfresh]
  refine step hstep ?_
  cases hdecode : l.command.decode entry.value with
  | none =>
      rw [hdecode] at h
      refine step (e := none) ?_ h
      simp [RedisTask.step, RedisPhase.step, shared, hdecode]
  | some v =>
      rw [hdecode] at h
      refine step (e := some (.returned tid call (.ok v) (.cache g entry now))) ?_ h
      simp [RedisTask.step, RedisPhase.step, shared, hdecode]

/-- The steps of looking into the cache do what `redis_cache_get` does: a value that it finds
is returned, and otherwise the server is asked. -/
theorem get :
    ∃ source events, Alone registered tid input
      (shared r rt now, .running call l (.getGlobal g), log)
      (shared (r.redisCacheGet rt now (l.cacheKey g)).1 rt now,
        ((r.redisCacheGet rt now (l.cacheKey g)).2.bind l.command.decode).elim
          (.running call l (.ask (some g)), events ++ log)
          (fun v => (.done, .returned tid call (.ok v) source :: (events ++ log)))) := by
  by_cases hglobal : r.redisGlobalEnabled = true
  · by_cases henabled : rt.resultCacheEnabled = true
    · cases hpeek : r.redisCache.peek (l.cacheKey g) with
      | none =>
          have hget : r.redisCacheGet rt now (l.cacheKey g) = (r, none) := by
            simp [RedisCacheState.redisCacheGet, RedisCacheState.fetchRedisCache, henabled, hpeek]
          rw [hget]
          refine ⟨.server, [], peek hglobal henabled (step (e := none) ?_ .refl)⟩
          simp [RedisTask.step, RedisPhase.step, shared, hpeek]
      | some entry =>
          cases hfresh : entry.expired now with
          | true =>
              have hget : r.redisCacheGet rt now (l.cacheKey g) =
                  ({ r with redisCache := r.redisCache.pop (l.cacheKey g) }, none) := by
                simp [RedisCacheState.redisCacheGet, RedisCacheState.fetchRedisCache, hglobal,
                  henabled, hpeek, hfresh]
              rw [hget]
              have hstep : (running call l (.age g entry)).step registered tid (shared r rt now)
                  input = some (shared r rt now, running call l (.pop g), none) := by
                simp [RedisTask.step, RedisPhase.step, shared, hfresh]
              exact ⟨.server, [], peek hglobal henabled (age hpeek (step hstep (step rfl .refl)))⟩
          | false =>
              have hget : r.redisCacheGet rt now (l.cacheKey g) =
                  ({ r with redisCacheHits := r.redisCacheHits + 1 }, some entry.value) := by
                simp [RedisCacheState.redisCacheGet, RedisCacheState.fetchRedisCache, hglobal,
                  henabled, hpeek, hfresh]
              rw [hget]
              exact ⟨.cache g entry now, [.found tid entry now],
                peek hglobal henabled (age hpeek (hit hfresh .refl))⟩
    · have hget : r.redisCacheGet rt now (l.cacheKey g) = (r, none) := by
        simp [RedisCacheState.redisCacheGet, RedisCacheState.fetchRedisCache, henabled]
      rw [hget]
      exact ⟨.server, [], step (if_pos hglobal) (step (if_neg henabled) .refl)⟩
  · have hget : r.redisCacheGet rt now (l.cacheKey g) = (r, none) := by
      simp [RedisCacheState.redisCacheGet, hglobal]
    rw [hget]
    exact ⟨.server, [], step (if_neg hglobal) .refl⟩

/-- Asking the server, without the cache. -/
theorem ask_none {answer : KnowledgeResult CachedRedisValue}
    (haccepts : ∀ v, answer = .ok v → l.command.accepts v = true) (x : RedisShared)
    (generation : Option Nat) :
    Alone registered tid ⟨generation, answer⟩ (x, .running call l (.ask none), log)
      (x, .done, .returned tid call answer .server ::
        .asked tid l.command answer x.clock :: log) := by
  cases answer with
  | error err => exact step rfl (give _ _)
  | ok v => exact step (if_pos (haccepts v rfl)) (give _ _)

/-- The steps from the look into the cache on do what the lookup of the sequential model
does. -/
theorem lookup {answer : KnowledgeResult CachedRedisValue}
    (haccepts : ∀ v, answer = .ok v → l.command.accepts v = true) :
    ∃ source events, Alone registered tid ⟨rt.currentGeneration, answer⟩
      (shared r rt now, .running call l .generation, log)
      (shared (r.lookup rt now l.command.decode id l.ttlMs l.cacheKey answer).2 rt now, .done,
        .returned tid call (r.lookup rt now l.command.decode id l.ttlMs l.cacheKey answer).1
          source :: (events ++ log)) := by
  unfold RedisCacheState.lookup
  cases hgeneration : rt.currentGeneration with
  | none => exact ⟨.server, [_], step rfl (ask_none haccepts _ none)⟩
  | some g =>
      obtain ⟨source, events, hget⟩ : ∃ source events, Alone registered tid ⟨some g, answer⟩
          (shared r rt now, .running call l (.getGlobal g), .generation tid g :: log)
          (_, Option.elim _ (_, events ++ .generation tid g :: log) _) := get
      dsimp only
      cases hfound : (r.redisCacheGet rt now (l.cacheKey g)).2.bind l.command.decode with
      | some v =>
          rw [hfound] at hget
          refine ⟨source, events ++ [.generation tid g], step rfl ?_⟩
          simpa using hget
      | none =>
          rw [hfound] at hget
          cases answer with
          | error err =>
              refine ⟨.server, .asked tid l.command (.error err) now ::
                (events ++ [.generation tid g]), step rfl (hget.trans (step rfl ?_))⟩
              simpa using give _ _
          | ok v =>
              obtain ⟨stored, hput⟩ := put v
              refine ⟨.server, stored ++ .asked tid l.command (.ok v) now ::
                (events ++ [.generation tid g]),
                step rfl (hget.trans (step (if_pos (haccepts v rfl)) ?_))⟩
              simpa using hput

/-- **A lookup that nothing comes between** does what the entry point does in the sequential
model. -/
theorem perform {β : Type} (bloom : BloomModule β) (ks : Keyspace β)
    {answer : KnowledgeResult CachedRedisValue}
    (hanswer : ∀ l, call.lookup registered = .ok l → l.command.run bloom ks = answer) :
    ∃ source events, Alone registered tid ⟨rt.currentGeneration, answer⟩
      (shared r rt now, .start call, log)
      (shared (call.perform bloom ks registered r rt now).2 rt now, .done,
        .returned tid call (call.perform bloom ks registered r rt now).1 source ::
          (events ++ log)) := by
  rw [RedisCall.perform_eq]
  cases hlookup : call.lookup registered with
  | error err =>
      have hstep : (start call).step registered tid (shared r rt now)
          ⟨rt.currentGeneration, answer⟩ =
          some (shared r rt now, done, some (.returned tid call (.error err) .refused)) := by
        simp [RedisTask.step, hlookup]
      exact ⟨.refused, [], step hstep .refl⟩
  | ok l =>
      have hrun := hanswer l hlookup
      have haccepts : ∀ v, answer = .ok v → l.command.accepts v = true :=
        fun v hv => RedisCommand.accepts_of_run (hrun.trans hv)
      have hstep : (start call).step registered tid (shared r rt now)
          ⟨rt.currentGeneration, answer⟩ =
          some (shared r rt now, running call l (if l.cached then .generation else .ask none),
            none) := by
        by_cases hcached : l.cached = true <;> simp [RedisTask.step, hlookup, hcached]
      dsimp only
      rw [hrun]
      by_cases hcached : l.cached = true
      · rw [if_pos hcached] at hstep ⊢
        obtain ⟨source, events, hrest⟩ := lookup haccepts
        exact ⟨source, events, step hstep hrest⟩
      · rw [if_neg hcached] at hstep ⊢
        exact ⟨.server, [_], step hstep (ask_none haccepts _ _)⟩

end RedisTask.Alone

end Steps

/-! ## A service that is answered by a lookup in between -/

/-- A service with a time to live of ten milliseconds, on the key of the filter. -/
def timedService : FunMap :=
  (∅ : FunMap).insert "is_weak"
    { call := .sismember, key := some "weak", cache := true, ttlMs := some 10 }

/-- A lookup in the filter reads the generation; a call of the service comes in between, asks
the server and stores the answer, with the time three nanoseconds later; almost ten
milliseconds pass. -/
def overlapping : List (PoolAction RedisCall RedisInput RedisAmbient) :=
  let input : RedisInput := ⟨some 1, .ok (.bool true)⟩
  [.spawn (.bfExists "weak" "123456"), .run 0 input, .run 0 input,
    .spawn (.externalExists "is_weak" "123456")] ++ List.replicate 6 (.run 1 input) ++
    .env (.tick 3) :: (List.replicate 6 (.run 1 input) ++
    .env (.tick 9999990) :: List.replicate 5 (.run 0 input))

/-- The answer of the filter then. -/
def overlapped : RedisEvent :=
  .returned 0 (.bfExists "weak" "123456") (.ok (.bool true))
    (.cache 1 { value := .bool true, cachedAt := 3, ttlMs := 10 } 9999993)

instance (registered : Option FunMap) (texts : List String) (call : RedisCall) :
    Decidable (call.Uses registered texts) :=
  match hlookup : call.lookup registered with
  | .error _ => .isTrue fun _ hl => nomatch hlookup.symm.trans hl
  | .ok l => decidable_of_iff (l.command.key ∈ texts ∧ ∀ a ∈ l.args, a ∈ texts)
      ⟨fun h _ hl => Except.ok.inj (hlookup.symm.trans hl) ▸ h, fun h => h l hlookup⟩

instance (registered : Option FunMap) (texts : List String)
    (s : Pool RedisShared RedisTask RedisEvent) :
    (a : PoolAction RedisCall RedisInput RedisAmbient) →
      Decidable (LooksUpTexts registered texts s a)
  | .spawn call => inferInstanceAs (Decidable (call.Uses registered texts))
  | .run .. => .isTrue trivial
  | .env _ => .isTrue trivial

/-- The filter, which was asked for first, returns what the server has answered to the call
in between. -/
theorem answer_explained_of_run_overlapping :
    letI := sipHasher
    ∃ s newer older, (redisPool (some timedService)).Run
        (LooksUpTexts (some timedService) weakTexts) overlapping s ∧
      s.log = newer ++ overlapped :: older ∧
      RedisSource.Explains (some timedService) older 0 (.bfExists "weak" "123456")
        (.ok (.bool true))
        (.cache 1 { value := .bool true, cachedAt := 3, ttlMs := 10 } 9999993) := by
  let _ := sipHasher
  have hinit : (redisPool (some timedService)).init ⟨⟨.new 1024, true, 0⟩, [], []⟩ :=
    ⟨⟨1024, rfl⟩, rfl, rfl⟩
  have hexec : ((redisPool (some timedService)).exec
      (LooksUpTexts (some timedService) weakTexts) ⟨⟨.new 1024, true, 0⟩, [], []⟩
      overlapping).any (fun s => decide (overlapped ∈ s.log)) = true := by
    decide +kernel
  obtain ⟨s, hrun, hmem⟩ := Machine.exists_run_of_exec_any hinit hexec
  obtain ⟨newer, older, hlog⟩ := List.append_of_mem (of_decide_eq_true hmem)
  exact ⟨s, newer, older, hrun, hlog, answer_explained_of_run weakTexts_apart hrun hlog⟩

end WpKnowledge
