import WpKnowledge.Foundation.LruRecency
import WpKnowledge.Runtime.Async
import WpKnowledge.Runtime.ResultCache

/-!
# How long a result is cached

Queries on any number of threads save their results, each at its own moment, remove what
they find too old, and a configuration call may put an empty cache in the place of the old
one.  A query that removes an entry may have found an older one than it removes, since
another query may have saved in between.

What a run does to the cache is read off the calls: the next step of each says what it will
change.

Main results:

- Theorem {lit}`resultCache_of_steps`: the cache after any steps of any calls.
- Theorem {lit}`result_kept_iff`: when a saved result is still found.
-/

namespace WpKnowledge

open Foundation

variable {π : Type}

section Steps

variable [DefaultHasher] [ValueText]

/-! ## What steps do to the result cache -/

/-- A change of the result cache. -/
abbrev ResultCacheChange : Type :=
  LruCache.Change ResultCacheKey CachedQueryResponse

/-- What the next step of a call does to the result cache. -/
def Task.cacheChange (x : Shared π) : Task π → Option ResultCacheChange
  | .execute c (.fetchPop handle) => some (.pop (c.query.resultCacheKey handle))
  | .execute c (.save handle response) =>
      some (.put (c.query.resultCacheKey handle) { response, cachedAt := x.clock })
  | .configure c .resetCache => some (.renew c.newConfig.capacity c.newConfig_capacity_pos)
  | _ => none

/-- What one action does to the result cache. -/
def cacheChange (s : Pool (Shared π) (Task π) (Event π)) :
    PoolAction Call (Input π) Ambient → Option ResultCacheChange
  | .run tid _ => s.tasks[tid]?.bind (Task.cacheChange s.shared)
  | .spawn _ | .env _ => none

/-- What some actions do to the result cache, in order. -/
def cacheChanges (s : Pool (Shared π) (Task π) (Event π)) :
    List (PoolAction Call (Input π) Ambient) → List ResultCacheChange
  | [] => []
  | a :: as => (cacheChange s a).toList ++
      (((runtimeMachine π).step s a).map fun s' => cacheChanges s' as).getD []

omit [DefaultHasher] [ValueText] in
/-- A step of an install leaves the result cache alone. -/
theorem InstallCall.resultCache_eq {c : InstallCall} {tid : Nat} {rt rt' : KnowledgeRuntime π}
    {pc pc' : InstallPc π} {input : Input π} {e : Option (Event π)}
    (h : c.step tid rt pc input = some (rt', pc', e)) : rt'.resultCache = rt.resultCache :=
  (InstallCall.step_effect h).sameResultCache.resultCache

/-- A step of a configuration call replaces the result cache or leaves it alone. -/
theorem ConfigureCall.resultCache_eq {c : ConfigureCall} {x : Shared π}
    {rt' : KnowledgeRuntime π} {pc pc' : ConfigurePc} {input : Input π} {e : Option (Event π)}
    (h : c.step x.runtime pc input = some (rt', pc', e)) :
    rt'.resultCache =
      x.runtime.resultCache.changeAll ((Task.configure c pc).cacheChange x).toList := by
  unfold ConfigureCall.step at h
  split at h <;> cases h <;> rfl

/-- A step of a query puts a result, removes one, or leaves the result cache alone. -/
theorem ExecuteCall.resultCache_eq {c : ExecuteCall} {tid : Nat} {x : Shared π}
    {rt' : KnowledgeRuntime π} {pc pc' : ExecutePc π} {input : Input π} {e : Option (Event π)}
    (h : c.step tid x.clock x.runtime pc input = some (rt', pc', e)) :
    rt'.resultCache =
      x.runtime.resultCache.changeAll ((Task.execute c pc).cacheChange x).toList := by
  unfold ExecuteCall.step at h
  split at h
  -- a few steps go one way or the other
  all_goals try split at h
  all_goals cases h
  all_goals rfl

/-- A step of any call changes the result cache as it is said to. -/
theorem Task.resultCache_eq {tid : Nat} {x x' : Shared π} {t t' : Task π} {input : Input π}
    {e : Option (Event π)} (h : t.step tid x input = some (x', t', e)) :
    x'.runtime.resultCache = x.runtime.resultCache.changeAll (t.cacheChange x).toList := by
  unfold Task.step at h
  split at h
  · obtain ⟨⟨rt', pc', e'⟩, hstep, heq⟩ := Option.map_eq_some_iff.mp h
    cases heq
    exact InstallCall.resultCache_eq hstep
  · cases h
    rfl
  · obtain ⟨⟨rt', pc', e'⟩, hstep, heq⟩ := Option.map_eq_some_iff.mp h
    cases heq
    exact ConfigureCall.resultCache_eq hstep
  · obtain ⟨⟨rt', pc', e'⟩, hstep, heq⟩ := Option.map_eq_some_iff.mp h
    cases heq
    exact ExecuteCall.resultCache_eq hstep
  · obtain ⟨pc', -, heq⟩ := Option.map_eq_some_iff.mp h
    cases heq
    rfl
  · cases h

/-- One action changes the result cache as it is said to. -/
theorem resultCache_of_step {s s' : Pool (Shared π) (Task π) (Event π)}
    {a : PoolAction Call (Input π) Ambient} (h : (runtimeMachine π).step s a = some s') :
    s'.shared.runtime.resultCache =
      s.shared.runtime.resultCache.changeAll (cacheChange s a).toList := by
  cases a with
  | spawn call =>
      cases h
      rfl
  | env d =>
      cases h
      cases d <;> rfl
  | run tid input =>
      obtain ⟨t, x, t', e, ht, hstep, rfl⟩ := TaskSystem.advance_run_iff.mp h
      rw [cacheChange, ht]
      exact Task.resultCache_eq hstep

/-- The changes of some actions and of others after them. -/
theorem cacheChanges_append {ok : Pool (Shared π) (Task π) (Event π) →
      PoolAction Call (Input π) Ambient → Prop}
    {as : List (PoolAction Call (Input π) Ambient)} {s s' : Pool (Shared π) (Task π) (Event π)}
    (h : (runtimeMachine π).Steps ok s as s') (bs : List (PoolAction Call (Input π) Ambient)) :
    cacheChanges s (as ++ bs) = cacheChanges s as ++ cacheChanges s' bs := by
  induction h generalizing bs with
  | refl => rfl
  | @snoc s' s'' as a hsteps hok hstep ih =>
      have hnext : cacheChanges s' (a :: bs) = (cacheChange s' a).toList ++ cacheChanges s'' bs := by
        rw [cacheChanges, hstep]
        rfl
      have hlast : cacheChanges s' [a] = (cacheChange s' a).toList := by
        rw [cacheChanges, hstep]
        exact List.append_nil _
      rw [List.append_assoc, List.singleton_append, ih, ih, hnext, hlast, List.append_assoc]

/-- **The result cache after any steps** of any calls. -/
theorem resultCache_of_steps {ok : Pool (Shared π) (Task π) (Event π) →
      PoolAction Call (Input π) Ambient → Prop}
    {as : List (PoolAction Call (Input π) Ambient)} {s s' : Pool (Shared π) (Task π) (Event π)}
    (h : (runtimeMachine π).Steps ok s as s') :
    s'.shared.runtime.resultCache = s.shared.runtime.resultCache.changeAll (cacheChanges s as) := by
  induction h with
  | refl => rfl
  | @snoc s' s'' as a hsteps hok hstep ih =>
      have hlast : cacheChanges s' [a] = (cacheChange s' a).toList := by
        rw [cacheChanges, hstep]
        exact List.append_nil _
      rw [cacheChanges_append hsteps, LruCache.changeAll_append, ← ih, hlast]
      exact resultCache_of_step hstep

/-! ## How long a result stays -/

/-- A result that has been saved is not removed, and the other results that are saved and not
removed again are always fewer than there is room for. -/
def StaysCached (key : ResultCacheKey) (cap : Nat) (changes : List ResultCacheChange) : Prop :=
  (∀ ch ∈ changes, ch.removes key = false) ∧ LruCache.NeverFull cap ∅ changes

instance (key : ResultCacheKey) (cap : Nat) (changes : List ResultCacheChange) :
    Decidable (StaysCached key cap changes) :=
  inferInstanceAs (Decidable (_ ∧ _))

omit [DefaultHasher] [ValueText] in
/-- A lookup returns what is found, if the cache is enabled and it is not too old. -/
theorem fetch_of_peek {rt : KnowledgeRuntime π} {key : ResultCacheKey} {P : Prop} [Decidable P]
    {cached : CachedQueryResponse} (now : Nat)
    (h : rt.resultCache.peek key = if P then some cached else none) :
    (rt.fetchResultCacheByKey now key).2 =
      if rt.resultCacheEnabled = true ∧ P ∧
          now - cached.cachedAt ≤ Duration.fromMillis rt.resultCacheTtlMs then
        some cached.response
      else none := by
  unfold KnowledgeRuntime.fetchResultCacheByKey
  rw [h]
  by_cases henabled : rt.resultCacheEnabled = true
  · by_cases hP : P
    · by_cases hfresh : now - cached.cachedAt ≤ Duration.fromMillis rt.resultCacheTtlMs
      · simp [henabled, hP, hfresh, Nat.not_lt.mpr hfresh]
      · simp [henabled, hP, hfresh, Nat.lt_of_not_le hfresh]
    · simp [hP]
  · simp [henabled]

/-- **How long a result is cached.**  In every run of any calls on any threads, a result that
a query has saved is found, with the time of its saving, exactly if since then no call has
removed it or emptied the cache and always fewer other results were saved, and not removed
again, than the cache has room for; provided no query has saved again under its key.  A
lookup returns it exactly if moreover the cache is enabled and the result is not older than
the time to live. -/
theorem result_kept_iff {s s₁ s₂ : Pool (Shared π) (Task π) (Event π)} {tid : Nat}
    {c : ExecuteCall} {handle : ProviderHandle π} {response : QueryResponse}
    {as : List (PoolAction Call (Input π) Ambient)}
    (hsaves : s.tasks[tid]? = some (.execute c (.save handle response)))
    (hsave : (runtimeMachine π).step s (.run tid .go) = some s₁)
    (hsteps : (runtimeMachine π).Steps Machine.Unguarded s₁ as s₂)
    (hagain : ∀ ch ∈ cacheChanges s₁ as, ch.puts (c.query.resultCacheKey handle) = false) :
    (s₂.shared.runtime.resultCache.peek (c.query.resultCacheKey handle) =
        if StaysCached (c.query.resultCacheKey handle) s.shared.runtime.resultCache.cap
            (cacheChanges s₁ as) then
          some { response, cachedAt := s.shared.clock }
        else none) ∧
      ∀ now, (s₂.shared.runtime.fetchResultCacheByKey now (c.query.resultCacheKey handle)).2 =
        if s₂.shared.runtime.resultCacheEnabled = true ∧
            StaysCached (c.query.resultCacheKey handle) s.shared.runtime.resultCache.cap
              (cacheChanges s₁ as) ∧
            now - s.shared.clock ≤ Duration.fromMillis s₂.shared.runtime.resultCacheTtlMs then
          some response
        else none := by
  have hfirst : cacheChange s (.run tid .go) =
      some (.put (c.query.resultCacheKey handle) { response, cachedAt := s.shared.clock }) := by
    rw [cacheChange, hsaves]
    rfl
  have hpeek : s₂.shared.runtime.resultCache.peek (c.query.resultCacheKey handle) =
      if StaysCached (c.query.resultCacheKey handle) s.shared.runtime.resultCache.cap
          (cacheChanges s₁ as) then
        some { response, cachedAt := s.shared.clock }
      else none := by
    rw [resultCache_of_steps hsteps, resultCache_of_step hsave, hfirst]
    exact LruCache.peek_changeAll s.shared.runtime.resultCache _ hagain
  exact ⟨hpeek, fun now => fetch_of_peek now hpeek⟩

end Steps

/-! ## A result that is removed -/

/-- The handle of a provider without data. -/
def plainHandle : ProviderHandle Unit where
  provider := ()
  datasourceId := ⟨"sqlite:users"⟩
  generation := 1
  kind := .sqliteAuthority
  allocation := 0

/-- Two calls of one query: the first is about to save its result, and the second has found
one that was too old and is about to remove it. -/
def removingPool : Pool (Shared Unit) (Task Unit) (Event Unit) where
  shared := ⟨KnowledgeRuntime.new Unit 8, 0⟩
  tasks :=
    [.execute ⟨.default, plainQuery "SELECT name FROM users"⟩ (.save plainHandle (.row [])),
      .execute ⟨.default, plainQuery "SELECT name FROM users"⟩ (.fetchPop plainHandle)]
  log := []

/-- The new result is gone. -/
theorem result_kept_iff_removed :
    letI := sipHasher
    letI := numericText
    ∃ s₁ s₂, (runtimeMachine Unit).step removingPool (.run 0 .go) = some s₁ ∧
      (runtimeMachine Unit).step s₁ (.run 1 .go) = some s₂ ∧
      (s₂.shared.runtime.fetchResultCacheByKey 0
        ((plainQuery "SELECT name FROM users").resultCacheKey plainHandle)).2 = none := by
  let _ := sipHasher
  let _ := numericText
  refine ⟨_, _, rfl, rfl, ?_⟩
  have hkept := @result_kept_iff Unit _ _ removingPool _ _ 0 _ _ _ [.run 1 .go] rfl rfl
    (Machine.steps_of_exec rfl) (by decide +kernel)
  refine (hkept.2 0).trans (if_neg ?_)
  rintro ⟨-, ⟨hremoved, -⟩, -⟩
  revert hremoved
  decide +kernel

end WpKnowledge
