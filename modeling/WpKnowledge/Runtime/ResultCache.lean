import WpKnowledge.Runtime.Handles

/-!
# Which responses the result cache serves

A query resolves a handle, looks into the result cache, asks the provider and
stores what it got, with no lock held in between.  Responses of an old provider
are therefore stored long after a reload, and the cache holds responses of many
handles at once.  Every entry is nevertheless tied to the handle whose provider
produced it, because the generation is part of the key and belongs to one handle
only.

Main results:

- Theorem {lit}`serving_of_run`: the invariant of the result cache.
- Theorem {lit}`hit_isolated`: a response taken from the cache was produced by
  the very handle the query resolved, for the same text, parameters and mode,
  and is no older than the configured time to live.
-/

namespace WpKnowledge

open Foundation

variable {π : Type}

/-- The time to live put in force last. -/
def configuredTtl : List (Event π) → Duration
  | [] => ResultCacheConfig.default.ttl
  | .ttlConfigured ttl :: _ => ttl
  | _ :: log => configuredTtl log

/-- An event that leaves the time to live as it is. -/
def Event.KeepsTtl : Event π → Prop
  | .ttlConfigured _ => False
  | _ => True

theorem configuredTtl_append {e : Option (Event π)} (log : List (Event π))
    (h : ∀ ev, e = some ev → ev.KeepsTtl) :
    configuredTtl (e.toList ++ log) = configuredTtl log := by
  cases e with
  | none => rfl
  | some ev =>
      cases ev with
      | ttlConfigured ttl => exact (h _ rfl).elim
      | drew | built | resolved | hit | produced | stored => rfl

/-! ## What one step does to the result cache -/

/-- Two runtimes agree on what lookups in the result cache depend on. -/
structure KnowledgeRuntime.SameResultCache (rt rt' : KnowledgeRuntime π) : Prop where
  resultCache : rt'.resultCache = rt.resultCache
  resultCacheTtlMs : rt'.resultCacheTtlMs = rt.resultCacheTtlMs

theorem InstallEffect.sameResultCache {c : InstallCall} {tid : Nat}
    {rt rt' : KnowledgeRuntime π} {pc pc' : InstallPc π} {e : Option (Event π)}
    (h : InstallEffect c tid rt pc rt' pc' e) : rt.SameResultCache rt' := by
  cases h <;> exact ⟨rfl, rfl⟩

/-- The effect of one step of a configuration call on the result cache: it
stores the time to live, empties the cache, or touches neither. -/
theorem ConfigureCall.step_cases {c : ConfigureCall} {rt rt' : KnowledgeRuntime π}
    {pc pc' : ConfigurePc} {input : Input π} {e : Option (Event π)}
    (h : c.step rt pc input = some (rt', pc', e)) :
    (rt.SameResultCache rt' ∧ e = none) ∨
      (rt'.resultCache = rt.resultCache ∧ e = some (.ttlConfigured c.newConfig.ttl) ∧
        rt'.resultCacheTtlMs = min c.newConfig.ttl.asMillis u64Max) ∨
      ((∀ key, rt'.resultCache.peek key = none) ∧ e = none ∧
        rt'.resultCacheTtlMs = rt.resultCacheTtlMs) := by
  unfold ConfigureCall.step at h
  split at h
  · cases h
    exact .inl ⟨⟨rfl, rfl⟩, rfl⟩
  · cases h
    exact .inl ⟨⟨rfl, rfl⟩, rfl⟩
  · cases h
    exact .inr (.inl ⟨rfl, rfl, rfl⟩)
  · cases h
    exact .inr (.inr ⟨fun key => LruCache.peek_new _ _ key, rfl, rfl⟩)
  · cases h

section Steps

variable [DefaultHasher] [ValueText]

/-- A place in an execution that carries nothing taken from the cache or from
the provider, and is not yet the end. -/
def ExecutePc.Plain : ExecutePc π → Prop
  | .fetchReadClock _ _ | .fetchLoadTtl _ _ _ | .countHit _ _ | .save _ _ | .done _ => False
  | _ => True

/-- The effect of one step of an execution on the result cache and the history. -/
inductive ExecuteEffect (c : ExecuteCall) (tid clock : Nat) (rt : KnowledgeRuntime π) :
    ExecutePc π → KnowledgeRuntime π → ExecutePc π → Option (Event π) → Prop
  | peeked (h : ProviderHandle π) (cached : CachedQueryResponse)
      (hpeek : rt.resultCache.peek (c.query.resultCacheKey h) = some cached) :
      ExecuteEffect c tid clock rt (.fetchPeek h) rt (.fetchReadClock h cached) none
  | readClock (h : ProviderHandle π) (cached : CachedQueryResponse) :
      ExecuteEffect c tid clock rt (.fetchReadClock h cached) rt
        (.fetchLoadTtl h cached clock) none
  | hit (h : ProviderHandle π) (cached : CachedQueryResponse) (readAt : Nat)
      (hage : readAt - cached.cachedAt ≤ Duration.fromMillis rt.resultCacheTtlMs) :
      ExecuteEffect c tid clock rt (.fetchLoadTtl h cached readAt) rt
        (.countHit h cached.response) (some (.hit tid h c.query cached.response readAt))
  | returnedHit {rt' : KnowledgeRuntime π} (h : ProviderHandle π) (r : QueryResponse)
      (hsame : rt.SameResultCache rt') :
      ExecuteEffect c tid clock rt (.countHit h r) rt' (.done (.ok (c.query.answer r))) none
  | popped {rt' : KnowledgeRuntime π} {pc' : ExecutePc π} (h : ProviderHandle π)
      (hcache : rt'.resultCache = rt.resultCache.pop (c.query.resultCacheKey h))
      (httl : rt'.resultCacheTtlMs = rt.resultCacheTtlMs) (hplain : pc'.Plain) :
      ExecuteEffect c tid clock rt (.fetchPop h) rt' pc' none
  | produced {pc' : ExecutePc π} (h : ProviderHandle π) (useGlobalCache : Bool)
      (r : QueryResponse) (hpc' : pc' = .save h r ∨ pc' = .done (.ok (c.query.answer r))) :
      ExecuteEffect c tid clock rt (.ask h useGlobalCache) rt pc'
        (some (.produced tid h c.query r))
  | saved {rt' : KnowledgeRuntime π} (h : ProviderHandle π) (r : QueryResponse)
      (hcache : rt'.resultCache =
        rt.resultCache.put (c.query.resultCacheKey h) { response := r, cachedAt := clock })
      (httl : rt'.resultCacheTtlMs = rt.resultCacheTtlMs) :
      ExecuteEffect c tid clock rt (.save h r) rt' (.done (.ok (c.query.answer r)))
        (some (.stored tid h c.query r clock))
  | failed {pc : ExecutePc π} (err : KnowledgeError) (hplain : pc.Plain) :
      ExecuteEffect c tid clock rt pc rt (.done (.error err)) none
  | plain {pc pc' : ExecutePc π} {rt' : KnowledgeRuntime π} {e : Option (Event π)}
      (hsame : rt.SameResultCache rt') (he : e = none ∨ ∃ h, e = some (.resolved tid h))
      (hplain : pc.Plain ∨ ∃ h cached readAt, pc = .fetchLoadTtl h cached readAt)
      (hplain' : pc'.Plain) : ExecuteEffect c tid clock rt pc rt' pc' e

theorem ExecuteCall.step_effect {c : ExecuteCall} {tid clock : Nat}
    {rt rt' : KnowledgeRuntime π} {pc pc' : ExecutePc π} {input : Input π}
    {e : Option (Event π)} (h : c.step tid clock rt pc input = some (rt', pc', e)) :
    ExecuteEffect c tid clock rt pc rt' pc' e := by
  have hplainIf : ∀ {b : Prop} [Decidable b] {pc₁ pc₂ : ExecutePc π}, pc₁.Plain → pc₂.Plain →
      (if b then pc₁ else pc₂).Plain := by
    intro b _ pc₁ pc₂ h₁ h₂
    split <;> assumption
  unfold ExecuteCall.step at h
  split at h
  · split at h
    · cases h
      exact .plain ⟨rfl, rfl⟩ (.inr ⟨_, rfl⟩) (.inl trivial) (hplainIf trivial trivial)
    · cases h
      exact .failed _ trivial
  · cases h
    exact .plain ⟨rfl, rfl⟩ (.inl rfl) (.inl trivial) (hplainIf trivial trivial)
  · cases h
    exact .plain ⟨rfl, rfl⟩ (.inl rfl) (.inl trivial) (hplainIf trivial trivial)
  · split at h
    · rename_i hpeek
      cases h
      exact .peeked _ _ hpeek
    · cases h
      exact .plain ⟨rfl, rfl⟩ (.inl rfl) (.inl trivial) trivial
  · cases h
    exact .readClock _ _
  · split at h
    · cases h
      exact .plain ⟨rfl, rfl⟩ (.inl rfl) (.inr ⟨_, _, _, rfl⟩) trivial
    · rename_i hage
      cases h
      exact .hit _ _ _ (Nat.le_of_not_lt hage)
  · cases h
    exact .popped _ rfl rfl trivial
  · cases h
    exact .returnedHit _ _ ⟨rfl, rfl⟩
  · cases h
    exact .plain ⟨rfl, rfl⟩ (.inl rfl) (.inl trivial) trivial
  · split at h
    · cases h
      refine .produced _ _ _ ?_
      split
      · exact .inl rfl
      · exact .inr rfl
    · cases h
      exact .failed _ trivial
    · cases h
  · cases h
    exact .saved _ _ rfl rfl
  · cases h

/-! ## The invariant -/

/-- A cached response was produced by a built handle for a query with this key,
and stored at a time not after `now`. -/
def StoredFrom (log : List (Event π)) (now : Nat) (key : ResultCacheKey)
    (cached : CachedQueryResponse) : Prop :=
  ∃ task h q, key = q.resultCacheKey h ∧ .built h ∈ log ∧
    .produced task h q cached.response ∈ log ∧
    .stored task h q cached.response cached.cachedAt ∈ log ∧ cached.cachedAt ≤ now

/-- What must have happened before a hit. -/
def HitExplained (before : List (Event π)) (e : Event π) : Prop :=
  ∀ tid h q r readAt, e = .hit tid h q r readAt →
    .built h ∈ before ∧ .resolved tid h ∈ before ∧
      ∃ task h' q' storedAt, q'.resultCacheKey h' = q.resultCacheKey h ∧ .built h' ∈ before ∧
        .produced task h' q' r ∈ before ∧ .stored task h' q' r storedAt ∈ before ∧
        storedAt ≤ readAt ∧ readAt - storedAt ≤ configuredTtl before

/-- The call an event of an execution belongs to. -/
def Event.owner? : Event π → Option (Nat × Query)
  | .hit tid _ q _ _ => some (tid, q)
  | .produced tid _ q _ => some (tid, q)
  | _ => none

/-- What holds of the result cache and the history. -/
structure ServingInv (n : Nat) (x : Shared π) (log : List (Event π)) : Prop where
  handles : HandleInv n x log
  entries : ∀ {key cached}, x.runtime.resultCache.peek key = some cached →
    StoredFrom log x.clock key cached
  ttl : Duration.fromMillis x.runtime.resultCacheTtlMs ≤ configuredTtl log
  explained : Justified HitExplained log
  owned : ∀ {ev tid q}, ev ∈ log → ev.owner? = some (tid, q) → tid < n

/-- What an execution carries from the cache or from the provider. -/
def ExecutePc.Carries (log : List (Event π)) (clock tid : Nat) (q : Query) :
    ExecutePc π → Prop
  | .fetchReadClock h cached => StoredFrom log clock (q.resultCacheKey h) cached
  | .fetchLoadTtl h cached readAt => StoredFrom log readAt (q.resultCacheKey h) cached
  | .save h r => .produced tid h q r ∈ log
  | _ => True

/-- What holds of one call. -/
structure TaskServing (j : Nat) (t : Task π) (x : Shared π) (log : List (Event π)) : Prop where
  handles : TaskHandles j t log
  carries : ∀ {c pc}, t = .execute c pc → pc.Carries log x.clock j c.query
  owns : ∀ {ev q}, ev ∈ log → ev.owner? = some (j, q) → ∃ c pc, t = .execute c pc ∧ c.query = q
  hits : ∀ {h q r readAt}, .hit j h q r readAt ∈ log →
    ∃ c, t = .execute c (.countHit h r) ∨ t = .execute c (.done (.ok (q.answer r)))

theorem StoredFrom.mono {log : List (Event π)} {now now' : Nat} {key : ResultCacheKey}
    {cached : CachedQueryResponse} (h : StoredFrom log now key cached) (e : Option (Event π))
    (hnow : now ≤ now') : StoredFrom (e.toList ++ log) now' key cached := by
  rcases h with ⟨task, handle, q, hkey, hb, hp, hst, hle⟩
  exact ⟨task, handle, q, hkey, List.mem_append_right _ hb, List.mem_append_right _ hp,
    List.mem_append_right _ hst, Nat.le_trans hle hnow⟩

theorem ExecutePc.Carries.mono {log : List (Event π)} {clock clock' tid : Nat} {q : Query}
    {pc : ExecutePc π} (h : pc.Carries log clock tid q) (e : Option (Event π))
    (hclock : clock ≤ clock') : pc.Carries (e.toList ++ log) clock' tid q := by
  cases pc with
  | fetchReadClock => exact StoredFrom.mono h e hclock
  | fetchLoadTtl => exact StoredFrom.mono h e (Nat.le_refl _)
  | save => exact List.mem_append_right _ h
  | resolve | loadEnabled | fetchLoadEnabled | fetchPeek | fetchPop | countHit | countMiss | ask
  | done => trivial

theorem ExecutePc.Plain.carries {pc : ExecutePc π} (h : pc.Plain) (log : List (Event π))
    (clock tid : Nat) (q : Query) : pc.Carries log clock tid q := by
  cases pc <;> trivial

/-- The global part after a step: new entries, the time to live, and the new
event have to be accounted for. -/
theorem ServingInv.append {n : Nat} {x x' : Shared π} {log : List (Event π)}
    {e : Option (Event π)} (hinv : ServingInv n x log)
    (hhandles : HandleInv n x' (e.toList ++ log)) (hclock : x.clock ≤ x'.clock)
    (hentries : ∀ {key cached}, x'.runtime.resultCache.peek key = some cached →
      x.runtime.resultCache.peek key = some cached ∨
        StoredFrom (e.toList ++ log) x'.clock key cached)
    (httl : Duration.fromMillis x'.runtime.resultCacheTtlMs ≤ configuredTtl (e.toList ++ log))
    (hexplained : ∀ ev, e = some ev → HitExplained log ev)
    (howned : ∀ ev tid q, e = some ev → ev.owner? = some (tid, q) → tid < n) :
    ServingInv n x' (e.toList ++ log) where
  handles := hhandles
  entries hpeek := by
    rcases hentries hpeek with hold | hnew
    · exact (hinv.entries hold).mono e hclock
    · exact hnew
  ttl := httl
  explained := hinv.explained.append_toList hexplained
  owned hev howner := by
    rcases mem_toList_append.mp hev with hnew | hold
    · exact howned _ _ _ hnew howner
    · exact hinv.owned hold howner

/-- A step that leaves the result cache alone and records no hit. -/
theorem ServingInv.same {n : Nat} {x x' : Shared π} {log : List (Event π)}
    {e : Option (Event π)} (hinv : ServingInv n x log)
    (hhandles : HandleInv n x' (e.toList ++ log)) (hclock : x.clock ≤ x'.clock)
    (hsame : x.runtime.SameResultCache x'.runtime) (hkeeps : ∀ ev, e = some ev → ev.KeepsTtl)
    (hexplained : ∀ ev, e = some ev → HitExplained log ev)
    (howned : ∀ ev tid q, e = some ev → ev.owner? = some (tid, q) → tid < n) :
    ServingInv n x' (e.toList ++ log) := by
  refine hinv.append hhandles hclock (fun hpeek => .inl ?_) ?_ hexplained howned
  · rwa [hsame.resultCache] at hpeek
  · rw [hsame.resultCacheTtlMs, configuredTtl_append log hkeeps]
    exact hinv.ttl

/-- A call's assertion survives events that are not its own. -/
theorem TaskServing.append {j : Nat} {t : Task π} {x x' : Shared π} {log : List (Event π)}
    {e : Option (Event π)} (h : TaskServing j t x log)
    (hhandles : TaskHandles j t (e.toList ++ log)) (hclock : x.clock ≤ x'.clock)
    (howner : ∀ ev q, e = some ev → ev.owner? ≠ some (j, q)) :
    TaskServing j t x' (e.toList ++ log) where
  handles := hhandles
  carries ht := (h.carries ht).mono e hclock
  owns hev ho := by
    rcases mem_toList_append.mp hev with hnew | hold
    · exact absurd ho (howner _ _ hnew)
    · exact h.owns hold ho
  hits hev := by
    rcases mem_toList_append.mp hev with hnew | hold
    · exact absurd rfl (howner _ _ hnew)
    · exact h.hits hold

/-- A call that is no execution has no events of its own to account for. -/
theorem TaskServing.of_not_execute {j : Nat} {t t' : Task π} {x x' : Shared π}
    {log : List (Event π)} {e : Option (Event π)} (h : TaskServing j t x log)
    (hhandles : TaskHandles j t' (e.toList ++ log)) (ht : ∀ c pc, t ≠ .execute c pc)
    (ht' : ∀ c pc, t' ≠ .execute c pc) (howner : ∀ ev q, e = some ev → ev.owner? ≠ some (j, q)) :
    TaskServing j t' x' (e.toList ++ log) where
  handles := hhandles
  carries heq := absurd heq (ht' _ _)
  owns hev ho := by
    rcases mem_toList_append.mp hev with hnew | hold
    · exact absurd ho (howner _ _ hnew)
    · rcases h.owns hold ho with ⟨c, pc, heq, -⟩
      exact absurd heq (ht c pc)
  hits hev := by
    rcases mem_toList_append.mp hev with hnew | hold
    · exact absurd rfl (howner _ _ hnew)
    · rcases h.hits hold with ⟨c, heq | heq⟩
      · exact absurd heq (ht _ _)
      · exact absurd heq (ht _ _)

/-! ## Steps of an execution -/

/-- The hit a query is about to take is explained by the history. -/
theorem hitExplained_of_carries {n tid readAt : Nat} {x : Shared π} {log : List (Event π)}
    {c : ExecuteCall} {h : ProviderHandle π} {cached : CachedQueryResponse}
    (hinv : ServingInv n x log)
    (hown : TaskServing tid (.execute c (.fetchLoadTtl h cached readAt)) x log)
    (hage : readAt - cached.cachedAt ≤ Duration.fromMillis x.runtime.resultCacheTtlMs) :
    HitExplained log (.hit tid h c.query cached.response readAt) := by
  intro tid' h' q' r' readAt' heq
  cases heq
  rcases hown.carries rfl with ⟨task, h₁, q₁, hkey, hb, hp, hst, hle⟩
  rcases hown.handles h rfl with ⟨hb', hres⟩
  exact ⟨hb', hres, task, h₁, q₁, cached.cachedAt, hkey.symm, hb, hp, hst, hle,
    Nat.le_trans hage hinv.ttl⟩

theorem ExecuteEffect.servingInv {c : ExecuteCall} {n tid clock : Nat}
    {rt rt' : KnowledgeRuntime π} {pc pc' : ExecutePc π} {e : Option (Event π)}
    {log : List (Event π)} (heff : ExecuteEffect c tid clock rt pc rt' pc' e) (htid : tid < n)
    (hinv : ServingInv n ⟨rt, clock⟩ log) (hown : TaskServing tid (.execute c pc) ⟨rt, clock⟩ log)
    (hhandles : HandleInv n ⟨rt', clock⟩ (e.toList ++ log)) :
    ServingInv n ⟨rt', clock⟩ (e.toList ++ log) := by
  have hle : clock ≤ clock := Nat.le_refl _
  cases heff with
  | peeked | readClock =>
      exact hinv.same hhandles hle ⟨rfl, rfl⟩ (by simp) (by simp) (by simp)
  | returnedHit _ _ hsame => exact hinv.same hhandles hle hsame (by simp) (by simp) (by simp)
  | failed => exact hinv.same hhandles hle ⟨rfl, rfl⟩ (by simp) (by simp) (by simp)
  | plain hsame he =>
      rcases he with rfl | ⟨h, rfl⟩
      · exact hinv.same hhandles hle hsame (by simp) (by simp) (by simp)
      · refine hinv.same hhandles hle hsame (by simp [Event.KeepsTtl]) (by simp [HitExplained]) ?_
        rintro ev tid' q heq howner
        cases heq
        cases howner
  | hit h cached readAt hage =>
      refine hinv.same hhandles hle ⟨rfl, rfl⟩ (by simp [Event.KeepsTtl]) ?_ ?_
      · rintro ev heq
        cases heq
        exact hitExplained_of_carries hinv hown hage
      · rintro ev tid' q heq howner
        cases heq
        cases howner
        exact htid
  | popped h hcache httl hplain =>
      refine hinv.append hhandles hle (fun {key cached} hpeek => .inl ?_) ?_ (by simp) (by simp)
      · rw [hcache, LruCache.peek_pop] at hpeek
        split at hpeek
        · cases hpeek
        · exact hpeek
      · rw [httl]
        exact hinv.ttl
  | produced h useGlobalCache r hpc' =>
      refine hinv.same hhandles hle ⟨rfl, rfl⟩ (by simp [Event.KeepsTtl])
        (by simp [HitExplained]) ?_
      rintro ev tid' q heq howner
      cases heq
      cases howner
      exact htid
  | saved h r hcache httl =>
      refine hinv.append hhandles hle (fun {key cached} hpeek => ?_) ?_
        (by simp [HitExplained]) ?_
      · rw [hcache] at hpeek
        by_cases hkey : key = c.query.resultCacheKey h
        · rw [hkey, LruCache.peek_put_self, Option.some.injEq] at hpeek
          have hp : Event.produced tid h c.query r ∈ log := hown.carries rfl
          have hb := (hown.handles h rfl).1
          subst hpeek
          exact .inr ⟨tid, h, c.query, hkey, List.mem_append_right _ hb,
            List.mem_append_right _ hp, by simp, Nat.le_refl _⟩
        · exact .inl (LruCache.peek_of_peek_put hkey hpeek)
      · rw [httl, configuredTtl_append log (by simp [Event.KeepsTtl])]
        exact hinv.ttl
      · rintro ev tid' q heq howner
        cases heq
        cases howner

/-- Only a query that has taken a hit has a hit in the history. -/
theorem TaskServing.pc_of_hit {j : Nat} {c : ExecuteCall} {pc : ExecutePc π} {x : Shared π}
    {log : List (Event π)} (h : TaskServing j (.execute c pc) x log) {handle : ProviderHandle π}
    {q : Query} {r : QueryResponse} {readAt : Nat} (hhit : .hit j handle q r readAt ∈ log) :
    q = c.query ∧ (pc = .countHit handle r ∨ ∃ a, pc = .done a) := by
  have hq : q = c.query := by
    rcases h.owns hhit rfl with ⟨c', pc', heq, hq⟩
    cases heq
    exact hq.symm
  rcases h.hits hhit with ⟨c', heq | heq⟩
  · cases heq
    exact ⟨hq, .inl rfl⟩
  · cases heq
    exact ⟨hq, .inr ⟨_, rfl⟩⟩

theorem ExecuteEffect.taskServing {c : ExecuteCall} {n tid clock : Nat}
    {rt rt' : KnowledgeRuntime π} {pc pc' : ExecutePc π} {e : Option (Event π)}
    {log : List (Event π)} (heff : ExecuteEffect c tid clock rt pc rt' pc' e)
    (hinv : ServingInv n ⟨rt, clock⟩ log) (hown : TaskServing tid (.execute c pc) ⟨rt, clock⟩ log)
    (hhandles : TaskHandles tid (.execute c pc') (e.toList ++ log)) :
    TaskServing tid (.execute c pc') ⟨rt', clock⟩ (e.toList ++ log) where
  handles := hhandles
  carries := by
    rintro c₁ pc₁ heq
    cases heq
    cases heff with
    | peeked h cached hpeek => exact hinv.entries hpeek
    | readClock h cached =>
        have hcarries : StoredFrom log clock (c.query.resultCacheKey h) cached := hown.carries rfl
        exact hcarries
    | hit | returnedHit | saved | failed => trivial
    | popped _ _ _ hplain => exact hplain.carries _ _ _ _
    | plain _ _ _ hplain' => exact hplain'.carries _ _ _ _
    | produced h useGlobalCache r hpc' =>
        rcases hpc' with rfl | rfl
        · exact List.mem_append_left _ (by simp)
        · trivial
  owns := by
    intro ev q hev howner
    refine ⟨c, pc', rfl, ?_⟩
    rcases mem_toList_append.mp hev with rfl | hold
    · cases heff with
      | hit | produced =>
          cases howner
          rfl
      | saved => cases howner
      | plain _ he =>
          rcases he with he | ⟨h, he⟩
          · cases he
          · cases he
            cases howner
    · rcases hown.owns hold howner with ⟨c', pc₁, heq, hq⟩
      cases heq
      exact hq
  hits := by
    intro h q r readAt hev
    rcases mem_toList_append.mp hev with rfl | hold
    · cases heff with
      | hit => exact ⟨c, .inl rfl⟩
      | plain _ he =>
          rcases he with he | ⟨h, he⟩
          · cases he
          · cases he
    · rcases hown.pc_of_hit hold with ⟨rfl, rfl | ⟨a, rfl⟩⟩
      · cases heff with
        | returnedHit => exact ⟨c, .inr rfl⟩
        | failed _ hplain => exact hplain.elim
        | plain _ _ hplain =>
            rcases hplain with hplain | ⟨_, _, _, heq⟩
            · exact hplain.elim
            · cases heq
      · cases heff with
        | failed _ hplain => exact hplain.elim
        | plain _ _ hplain =>
            rcases hplain with hplain | ⟨_, _, _, heq⟩
            · exact hplain.elim
            · cases heq

/-- The events of an execution carry its number. -/
theorem ExecuteEffect.event_owner {c : ExecuteCall} {tid clock : Nat}
    {rt rt' : KnowledgeRuntime π} {pc pc' : ExecutePc π} {ev : Event π} {j : Nat} {q : Query}
    (heff : ExecuteEffect c tid clock rt pc rt' pc' (some ev)) (howner : ev.owner? = some (j, q)) :
    j = tid := by
  cases heff with
  | hit | produced =>
      cases howner
      rfl
  | saved => cases howner
  | plain _ he =>
      rcases he with he | ⟨h, he⟩
      · cases he
      · cases he
        cases howner

/-! ## Steps of a configuration call -/

omit [DefaultHasher] [ValueText] in
/-- The time to live is stored in whole milliseconds, rounded down. -/
theorem fromMillis_min_asMillis_le (ttl : Duration) :
    Duration.fromMillis (min ttl.asMillis u64Max) ≤ ttl := by
  have hmin : min ttl.asMillis u64Max ≤ ttl / 1000000 := Nat.min_le_left _ _
  calc Duration.fromMillis (min ttl.asMillis u64Max)
      = min ttl.asMillis u64Max * 1000000 := rfl
    _ ≤ ttl / 1000000 * 1000000 := Nat.mul_le_mul_right _ hmin
    _ ≤ ttl := Nat.div_mul_le_self ttl 1000000

theorem ConfigureCall.servingInv {c : ConfigureCall} {n clock : Nat}
    {rt rt' : KnowledgeRuntime π} {pc pc' : ConfigurePc} {input : Input π}
    {e : Option (Event π)} {log : List (Event π)}
    (hstep : c.step rt pc input = some (rt', pc', e)) (hinv : ServingInv n ⟨rt, clock⟩ log)
    (hhandles : HandleInv n ⟨rt', clock⟩ (e.toList ++ log)) :
    ServingInv n ⟨rt', clock⟩ (e.toList ++ log) ∧ ∀ ev, e = some ev → ev.owner? = none := by
  rcases c.step_cases hstep with ⟨hsame, rfl⟩ | ⟨hcache, rfl, httl⟩ | ⟨hempty, rfl, httl⟩
  · exact ⟨hinv.same hhandles (Nat.le_refl _) hsame (by simp) (by simp) (by simp), by simp⟩
  · have hnone : ∀ ev : Event π, some (Event.ttlConfigured c.newConfig.ttl) = some ev →
        ev.owner? = none := by
      rintro ev heq
      cases heq
      rfl
    refine ⟨hinv.append hhandles (Nat.le_refl _) (fun hpeek => .inl (hcache ▸ hpeek)) ?_
      (by simp [HitExplained]) (fun ev tid q hev ho => by simp [hnone ev hev] at ho), hnone⟩
    rw [httl]
    exact fromMillis_min_asMillis_le c.newConfig.ttl
  · refine ⟨hinv.append hhandles (Nat.le_refl _) (fun {key cached} hpeek => ?_) ?_ (by simp)
      (by simp), by simp⟩
    · rw [hempty key] at hpeek
      cases hpeek
    · rw [httl]
      exact hinv.ttl

/-! ## Whole runs -/

/-- One step of any call. -/
theorem serving_step {s : Pool (Shared π) (Task π) (Event π)} {tid : Nat} {input : Input π}
    {t t' : Task π} {x' : Shared π} {e : Option (Event π)}
    (hs : Pool.Holds ServingInv TaskServing s) (ht : s.tasks[tid]? = some t)
    (hstep : Task.step tid s.shared t input = some (x', t', e)) :
    ServingInv s.tasks.length x' (e.toList ++ s.log) ∧
      TaskServing tid t' x' (e.toList ++ s.log) ∧
      ∀ j u, j ≠ tid → s.tasks[j]? = some u → TaskServing j u x' (e.toList ++ s.log) := by
  have htid : tid < s.tasks.length := (List.getElem?_eq_some_iff.mp ht).1
  have hown := hs.tasks ht
  rcases handles_step ⟨hs.global.handles, fun hj => (hs.tasks hj).handles⟩ ht hstep
    with ⟨hG, hL, hothers⟩
  rcases s with ⟨⟨rt, clock⟩, tasks, log⟩
  rcases x' with ⟨rt', clock'⟩
  rcases Task.step_cases hstep with ⟨c, pc, pc', rfl, rfl, hclock, heff⟩ |
    ⟨keep, rfl, rfl, rfl, heq⟩ | ⟨hclock, -, -, hkind⟩
  · obtain rfl : clock' = clock := hclock
    -- an install's events belong to no execution
    have howner : ∀ ev, e = some ev → ev.owner? = none ∧ ev.KeepsTtl ∧ HitExplained log ev := by
      rintro ev rfl
      rcases heff.event_owner with ⟨g, rfl⟩ | ⟨h, rfl, -⟩
      · exact ⟨rfl, trivial, by simp [HitExplained]⟩
      · exact ⟨rfl, trivial, by simp [HitExplained]⟩
    refine ⟨hs.global.same hG (Nat.le_refl _) heff.sameResultCache
        (fun ev hev => (howner ev hev).2.1) (fun ev hev => (howner ev hev).2.2)
        (fun ev tid' q hev ho => by simp [(howner ev hev).1] at ho),
      hown.of_not_execute hL (by simp) (by simp)
        (fun ev q hev => by simp [(howner ev hev).1]),
      fun j u hj hu => (hs.tasks hu).append (hothers j u hj hu) (Nat.le_refl _)
        (fun ev q hev => by simp [(howner ev hev).1])⟩
  · cases heq
    exact ⟨hs.global.same hG (Nat.le_refl _) ⟨rfl, rfl⟩ (by simp) (by simp) (by simp),
      hown.of_not_execute hL (by simp) (by simp) (by simp),
      fun j u hj hu => (hs.tasks hu).append (hothers j u hj hu) (Nat.le_refl _) (by simp)⟩
  · obtain rfl : clock' = clock := hclock
    rcases hkind with ⟨c, pc, pc', rfl, rfl, hconf⟩ | ⟨c, pc, pc', rfl, rfl, hexec⟩ |
      ⟨pc, pc', rfl, rfl, heq, rfl, -⟩
    · rcases c.servingInv hconf hs.global hG with ⟨hserving, hnone⟩
      refine ⟨hserving, hown.of_not_execute hL (by simp) (by simp)
        (fun ev q hev => by simp [hnone ev hev]), fun j u hj hu =>
        (hs.tasks hu).append (hothers j u hj hu) (Nat.le_refl _)
          (fun ev q hev => by simp [hnone ev hev])⟩
    · have heff := ExecuteCall.step_effect hexec
      refine ⟨heff.servingInv htid hs.global hown hG, heff.taskServing hs.global hown hL,
        fun j u hj hu => (hs.tasks hu).append (hothers j u hj hu) (Nat.le_refl _) ?_⟩
      rintro ev q rfl howner
      exact hj (heff.event_owner howner)
    · cases heq
      exact ⟨hs.global.same hG (Nat.le_refl _) ⟨rfl, rfl⟩ (by simp) (by simp) (by simp),
        hown.of_not_execute hL (by simp) (by simp) (by simp),
        fun j u hj hu => (hs.tasks hu).append (hothers j u hj hu) (Nat.le_refl _) (by simp)⟩

/-- The invariant of the result cache holds in every run, whatever guard the run
meets. -/
theorem serving_of_run
    {ok : Pool (Shared π) (Task π) (Event π) → PoolAction Call (Input π) Ambient → Prop}
    {as : List (PoolAction Call (Input π) Ambient)} {s : Pool (Shared π) (Task π) (Event π)}
    (h : (runtimeMachine π).Run ok as s) : Pool.Holds ServingInv TaskServing s := by
  refine Pool.pool_invariant ?_ ?_ ?_ ?_ h
  · rintro x ⟨capacity, hx⟩
    refine ⟨handleInv_init hx, fun {key cached} hpeek => ?_, ?_, .nil, by simp⟩
    · rw [hx] at hpeek
      cases (LruCache.peek_new _ _ key).symm.trans hpeek
    · rw [hx]
      exact Nat.le_refl _
  · intro s call hs _
    rcases handles_spawn call ⟨hs.global.handles, fun hj => (hs.tasks hj).handles⟩ with ⟨hG, hL⟩
    refine ⟨⟨hG, hs.global.entries, hs.global.ttl, hs.global.explained,
      fun hev ho => Nat.lt_succ_of_lt (hs.global.owned hev ho)⟩, ⟨hL, ?_, ?_, ?_⟩⟩
    · intro c pc heq
      cases call <;> cases heq
      trivial
    · intro ev q hev ho
      exact absurd (hs.global.owned hev ho) (Nat.lt_irrefl _)
    · intro h q r readAt hev
      exact absurd (hs.global.owned hev rfl) (Nat.lt_irrefl _)
  · intro s d hs _
    rcases handles_ambient d ⟨hs.global.handles, fun hj => (hs.tasks hj).handles⟩ with ⟨hG, hL⟩
    have hclock : s.shared.clock ≤ (s.shared.ambient d).clock := by
      cases d <;> simp [Shared.ambient]
    have hsame : s.shared.runtime.SameResultCache (s.shared.ambient d).runtime := by
      cases d <;> exact ⟨rfl, rfl⟩
    exact ⟨hs.global.same (e := none) hG hclock hsame (by simp) (by simp) (by simp),
      fun j t ht => (hs.tasks ht).append (e := none) (hL j t ht) hclock (by simp)⟩
  · intro s tid input t x t' e hs _ ht hstep
    exact serving_step hs ht hstep

/-! ## Isolation -/

/-- A query some execution of the run asks. -/
def Asked (s : Pool (Shared π) (Task π) (Event π)) (q : Query) : Prop :=
  ∃ (j : Nat) (c : ExecuteCall) (pc : ExecutePc π),
    s.tasks[j]? = some (.execute c pc) ∧ c.query = q

/-- The hashes have no collision on the queries of a run: two queries of one text
hash have one text, and two queries of one parameter hash ask the provider with
the same fields. -/
structure CollisionFree (s : Pool (Shared π) (Task π) (Event π)) : Prop where
  sql : ∀ q q', Asked s q → Asked s q' → stableHash q.sql = stableHash q'.sql → q.sql = q'.sql
  params : ∀ q q', Asked s q → Asked s q' → q.paramsHash = q'.paramsHash → q.fields = q'.fields

/-- The query of an event of an execution is asked in the run. -/
theorem asked_of_event {s : Pool (Shared π) (Task π) (Event π)}
    (hs : Pool.Holds ServingInv TaskServing s) {ev : Event π} {tid : Nat} {q : Query}
    (hev : ev ∈ s.log) (howner : ev.owner? = some (tid, q)) :
    ∃ (c : ExecuteCall) (pc : ExecutePc π),
      s.tasks[tid]? = some (.execute c pc) ∧ c.query = q := by
  have hlt := hs.global.owned hev howner
  have ht : s.tasks[tid]? = some s.tasks[tid] := List.getElem?_eq_getElem hlt
  rcases (hs.tasks ht).owns hev howner with ⟨c, pc, heq, hq⟩
  exact ⟨c, pc, heq ▸ ht, hq⟩

/-- **Isolation of the result cache.**  In every run, a response taken from the
result cache was produced before by the handle the query had resolved, for the
same SQL text, the same parameters and the same mode.  When the query read the
clock, the response had been stored for at most the time to live in force when
the query compared the two.  The response is what the query returns. -/
theorem hit_isolated {as : List (PoolAction Call (Input π) Ambient)}
    {s : Pool (Shared π) (Task π) (Event π)}
    (hrun : (runtimeMachine π).Run Machine.Unguarded as s) (hfree : CollisionFree s)
    {tid readAt : Nat} {h : ProviderHandle π} {q : Query} {r : QueryResponse}
    {pre post : List (Event π)} (hlog : s.log = post ++ .hit tid h q r readAt :: pre) :
    .resolved tid h ∈ pre ∧
      (∃ task q' storedAt, .produced task h q' r ∈ pre ∧ .stored task h q' r storedAt ∈ pre ∧
        q'.sql = q.sql ∧ q'.fields = q.fields ∧ q'.mode = q.mode ∧
        storedAt ≤ readAt ∧ readAt - storedAt ≤ configuredTtl pre) ∧
      ∃ c, c.query = q ∧ (s.tasks[tid]? = some (.execute c (.countHit h r)) ∨
        s.tasks[tid]? = some (.execute c (.done (.ok (q.answer r))))) := by
  have hs := serving_of_run hrun
  have hpre : ∀ {ev}, ev ∈ pre → ev ∈ s.log := fun hev => by
    rw [hlog]
    exact List.mem_append_right _ (List.mem_cons_of_mem _ hev)
  have hhit : .hit tid h q r readAt ∈ s.log := by
    rw [hlog]
    exact List.mem_append_right _ List.mem_cons_self
  rcases hs.global.explained.split hlog tid h q r readAt rfl with
    ⟨hb, hres, task, h', q', storedAt, hkey, hb', hp, hst, hle, hage⟩
  rcases asked_of_event hs hhit rfl with ⟨c, pc, ht, rfl⟩
  rcases asked_of_event hs (hpre hp) rfl with ⟨c', pc', ht', rfl⟩
  -- the generation in the key makes the two handles one
  obtain rfl : h' = h := hs.global.handles.unique (hpre hb') (hpre hb)
    (congrArg ResultCacheKey.generation hkey)
  have hasked : Asked s c.query := ⟨tid, c, pc, ht, rfl⟩
  have hasked' : Asked s c'.query := ⟨task, c', pc', ht', rfl⟩
  refine ⟨hres, ⟨task, c'.query, storedAt, hp, hst,
    hfree.sql _ _ hasked' hasked (congrArg ResultCacheKey.queryHash hkey),
    hfree.params _ _ hasked' hasked (congrArg ResultCacheKey.paramsHash hkey),
    congrArg ResultCacheKey.mode hkey, hle, hage⟩, c, rfl, ?_⟩
  rcases (hs.tasks ht).hits hhit with ⟨c₁, heq | heq⟩
  · cases heq
    exact .inl ht
  · cases heq
    exact .inr ht

end Steps

/-! ## A run with a hit -/

/-- The steps of a query that misses and is answered with the empty row. -/
def missSteps (tid : Nat) : List PlainAction :=
  List.replicate 5 (.run tid .go : PlainAction) ++
    ([.run tid (.answered (.row (.ok []))), .run tid .go] : List PlainAction)

/-- A first-row query without parameters. -/
def plainQuery (sql : String) : Query := .firstRowFields sql [] .useGlobal

/-- A first-row query with one parameter. -/
def idQuery (id : Int64) : Query :=
  .firstRowFields "SELECT name FROM users WHERE id = :id" [.fromInt ":id" id] .useGlobal

/-- Install a provider and ask a query without a parameter and one query with two
values of its parameter; install another provider in its place, ask the last two
again, and ask the first of them once more a millisecond later, by the provider's
name. -/
def repeatedQueryRun : List PlainAction :=
  ([.spawn (.install (.installProvider .sqliteAuthority ⟨"sqlite:users"⟩))] :
    List PlainAction) ++ installSteps 0 7 ++
  ([.spawn (.execute ⟨.default, plainQuery "SELECT name FROM users"⟩)] : List PlainAction) ++
  missSteps 1 ++
  ([.spawn (.execute ⟨.default, idQuery 42⟩)] : List PlainAction) ++ missSteps 2 ++
  ([.spawn (.execute ⟨.default, idQuery 43⟩)] : List PlainAction) ++ missSteps 3 ++
  ([.spawn (.install (.installProvider .sqliteAuthority ⟨"sqlite:users"⟩))] :
    List PlainAction) ++ installSteps 4 7 ++
  ([.spawn (.execute ⟨.default, idQuery 42⟩)] : List PlainAction) ++ missSteps 5 ++
  ([.spawn (.execute ⟨.default, idQuery 43⟩)] : List PlainAction) ++ missSteps 6 ++
  ([.env (.tick 1000000), .spawn (.execute ⟨.named "default", idQuery 42⟩)] :
    List PlainAction) ++
  List.replicate 6 (.run 7 .go : PlainAction)

/-- Whether a query is one of the run. -/
def isRepeatedQuery : Query → Bool
  | .firstRowFields sql [] .useGlobal => decide (sql = "SELECT name FROM users")
  | .firstRowFields sql [.new name (.int id)] .useGlobal =>
      decide (sql = "SELECT name FROM users WHERE id = :id" ∧ name = ":id" ∧
        (id = 42 ∨ id = 43))
  | _ => false

theorem eq_of_isRepeatedQuery {q : Query} (h : isRepeatedQuery q = true) :
    q = plainQuery "SELECT name FROM users" ∨ q = idQuery 42 ∨ q = idQuery 43 := by
  unfold isRepeatedQuery at h
  split at h
  · obtain rfl := of_decide_eq_true h
    exact .inl rfl
  · obtain ⟨rfl, rfl, rfl | rfl⟩ := of_decide_eq_true h
    · exact .inr (.inl rfl)
    · exact .inr (.inr rfl)
  · cases h

/-- The last event is a hit on the second provider, and all queries are of the run. -/
def endsWithHit (s : Pool (Shared Unit) (Task Unit) (Event Unit)) : Bool :=
  (match s.log with
    | .hit 7 h _ _ 1000000 :: _ => decide (h.generation = 2)
    | _ => false) &&
  s.tasks.all fun t =>
    match t with
    | .execute c _ => isRepeatedQuery c.query
    | _ => true

theorem exists_of_endsWithHit {s : Pool (Shared Unit) (Task Unit) (Event Unit)}
    (h : endsWithHit s = true) :
    (∃ hd q r pre, s.log = .hit 7 hd q r 1000000 :: pre ∧ hd.generation = 2) ∧
      ∀ q, Asked s q →
        q = plainQuery "SELECT name FROM users" ∨ q = idQuery 42 ∨ q = idQuery 43 := by
  rw [endsWithHit, Bool.and_eq_true] at h
  constructor
  · have hlog := h.1
    split at hlog
    · exact ⟨_, _, _, _, by assumption, of_decide_eq_true hlog⟩
    · cases hlog
  · rintro q ⟨j, c, pc, ht, rfl⟩
    have hall := List.all_eq_true.mp h.2 _ (List.mem_of_getElem? ht)
    exact eq_of_isRepeatedQuery hall

/-- The hashes tell the queries of the run apart. -/
theorem collisionFree_of_repeatedQueries {s : Pool (Shared Unit) (Task Unit) (Event Unit)}
    (hasked : ∀ q, Asked s q → q = plainQuery "SELECT name FROM users" ∨
      q = idQuery 42 ∨ q = idQuery 43) :
    letI := sipHasher
    letI := numericText
    CollisionFree s := by
  let _ := sipHasher
  let _ := numericText
  have htext : stableHash "SELECT name FROM users" ≠
      stableHash "SELECT name FROM users WHERE id = :id" := by
    decide +kernel
  have hnone : (plainQuery "SELECT name FROM users").paramsHash ≠ (idQuery 42).paramsHash ∧
      (plainQuery "SELECT name FROM users").paramsHash ≠ (idQuery 43).paramsHash := by
    decide +kernel
  have hid : (idQuery 42).paramsHash ≠ (idQuery 43).paramsHash := by
    decide +kernel
  constructor <;> intro q q' hq hq' hsame <;>
    rcases hasked q hq with rfl | rfl | rfl <;> rcases hasked q' hq' with rfl | rfl | rfl
  -- the texts
  · rfl
  · exact absurd hsame htext
  · exact absurd hsame htext
  · exact absurd hsame.symm htext
  · rfl
  · rfl
  · exact absurd hsame.symm htext
  · rfl
  · rfl
  -- the parameters
  · rfl
  · exact absurd hsame hnone.1
  · exact absurd hsame hnone.2
  · exact absurd hsame.symm hnone.1
  · rfl
  · exact absurd hsame hid
  · exact absurd hsame.symm hnone.2
  · exact absurd hsame.symm hid
  · rfl

/-- The hit after the reload is on what the second provider answered for the same value of
the parameter. -/
theorem hit_isolated_repeated_query :
    letI := sipHasher
    letI := numericText
    ∃ s h q r pre, (runtimeMachine Unit).Run Machine.Unguarded repeatedQueryRun s ∧
      s.log = .hit 7 h q r 1000000 :: pre ∧ h.generation = 2 ∧
      ∃ task q' storedAt, .produced task h q' r ∈ pre ∧ .stored task h q' r storedAt ∈ pre ∧
        q'.sql = q.sql ∧ q'.fields = q.fields ∧ q'.mode = q.mode ∧
        storedAt ≤ 1000000 ∧ 1000000 - storedAt ≤ configuredTtl pre := by
  let _ := sipHasher
  let _ := numericText
  have hexec : ((runtimeMachine Unit).exec Machine.Unguarded (newPool Unit 4)
      repeatedQueryRun).any endsWithHit = true := by decide +kernel
  rcases Machine.exists_run_of_exec_any (newPool_init Unit 4) hexec with ⟨s, hrun, hend⟩
  rcases exists_of_endsWithHit hend with ⟨⟨h, q, r, pre, hlog, hgeneration⟩, hasked⟩
  have hsplit : s.log = [] ++ .hit 7 h q r 1000000 :: pre := hlog
  exact ⟨s, h, q, r, pre, hrun, hlog, hgeneration,
    (hit_isolated hrun (collisionFree_of_repeatedQueries hasked) hsplit).2.1⟩

end WpKnowledge
