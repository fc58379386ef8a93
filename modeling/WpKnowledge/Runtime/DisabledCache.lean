import WpKnowledge.Runtime.Configure

/-!
# Overlapping configurations of the result cache

When all configuration calls have returned, flag, time to live and capacity are those of
one call, provided the calls store in turn.  A cache that is disabled then is empty: the
call that disables it puts an empty one in place, and a query puts a response there only
if it has found the cache enabled.

Main results:

- Theorem {lit}`disabledInv_of_run`: no query uses a disabled cache if none is in flight
  while a configuration call is in progress.
- Theorem {lit}`settings_of_one_call`: the settings are those of one call, and a disabled
  cache is empty.
- Theorem {lit}`settings_of_crossed_calls`: two calls that leave the cache enabled while
  a snapshot reports it disabled, and a third one that does not repair the capacity.
-/

namespace WpKnowledge

open Foundation

variable {π : Type}

/-! ## The disabled cache -/

theorem Task.querying_of_usesCache {t : Task π} (h : t.usesCache = true) : t.querying = true := by
  cases t with
  | execute c pc => exact ExecutePc.querying_of_usesCache h
  | install | prune | configure | currentGeneration => cases h

/-- The task is a configuration call that has recorded its configuration and has not
returned. -/
def Task.configuring (t : Task π) : Bool :=
  t.configure?.any fun call => call.2 != .writeConfig && call.2 != .done

/-- The task is a configuration call that has yet to put a new cache in place. -/
def Task.pendsReset (t : Task π) : Bool :=
  t.configure?.any fun call => call.2.pendsReset

/-- The guard of a run in which no query is in flight while a configuration call is in
progress: a call records its configuration when no query is between its first step and
its return, and a query takes its first step when no call is between the two. -/
def QueriesApart (s : Pool (Shared π) (Task π) (Event π)) :
    PoolAction Call (Input π) Ambient → Prop
  | .run tid _ => ∀ t ∈ s.tasks[tid]?,
      ((t.configure?.any fun call => call.2 == .writeConfig) = true →
        ∀ u ∈ s.tasks, u.querying = false) ∧
      (t.startsQuery = true → ∀ u ∈ s.tasks, u.configuring = false)
  | _ => True

instance (s : Pool (Shared π) (Task π) (Event π)) (a : PoolAction Call (Input π) Ambient) :
    Decidable (QueriesApart s a) :=
  match a with
  | .run _ _ => inferInstanceAs (Decidable (∀ t ∈ _, (_ → ∀ u ∈ _, _) ∧ (_ → ∀ u ∈ _, _)))
  | .spawn _ => .isTrue trivial
  | .env _ => .isTrue trivial

/-- What holds of queries and the cache then: no query is in flight while a call is in
progress, a query that uses the cache has the recorded configuration allow it, and the
cache of a disabling configuration is empty or about to be. -/
structure DisabledInv (s : Pool (Shared π) (Task π) (Event π)) : Prop where
  apart : ∀ {t u}, t ∈ s.tasks → u ∈ s.tasks → t.configuring = true → u.querying = false
  allowed : ∀ {t}, t ∈ s.tasks → t.usesCache = true →
    s.shared.runtime.resultCacheConfig.enabled = true
  emptied : s.shared.runtime.resultCacheConfig.enabled = false →
    s.shared.runtime.resultCache.entries = [] ∨ ∃ t ∈ s.tasks, t.pendsReset = true

/-- A call that is in progress after a step was so before, or has just recorded its
configuration. -/
theorem ConfigureEffect.configuring {c : ConfigureCall} {rt rt' : KnowledgeRuntime π}
    {pc pc' : ConfigurePc} (h : ConfigureEffect c rt pc rt' pc') :
    pc = .writeConfig ∨ (Task.configure (π := π) c pc).configuring = true := by
  cases h with
  | writeConfig => exact .inl rfl
  | storeEnabled | storeTtl | resetCache => exact .inr rfl

/-- A call that starts. -/
theorem DisabledInv.spawn {s : Pool (Shared π) (Task π) (Event π)} (hs : DisabledInv s)
    (call : Call) : DisabledInv { s with tasks := s.tasks ++ [call.start] } := by
  have hfresh : (call.start : Task π).configuring = false ∧
      (call.start : Task π).querying = false ∧ (call.start : Task π).usesCache = false := by
    cases call <;> exact ⟨rfl, rfl, rfl⟩
  have hmem : ∀ {t : Task π}, t ∈ s.tasks ++ [call.start] → t ∈ s.tasks ∨ t = call.start := by
    intro t ht
    simpa using ht
  refine ⟨fun {t u} ht hu hconf => ?_, fun {t} ht huses => ?_, fun hdisabled => ?_⟩
  · rcases hmem hu with huold | rfl
    · rcases hmem ht with htold | rfl
      · exact hs.apart htold huold hconf
      · rw [hfresh.1] at hconf
        cases hconf
    · exact hfresh.2.1
  · rcases hmem ht with htold | rfl
    · exact hs.allowed htold huses
    · rw [hfresh.2.2] at huses
      cases huses
  · rcases hs.emptied hdisabled with hempty | ⟨t, ht, hreset⟩
    · exact .inl hempty
    · exact .inr ⟨t, List.mem_append_left _ ht, hreset⟩

/-- A call that records a disabling configuration has yet to empty the cache, or another
one had been recorded before. -/
theorem ConfigureEffect.pendsReset {c : ConfigureCall} {rt rt' : KnowledgeRuntime π}
    {pc pc' : ConfigurePc} (h : ConfigureEffect c rt pc rt' pc')
    (hdisabled : rt'.resultCacheConfig.enabled = false) :
    pc'.pendsReset = true ∨ rt'.resultCache.entries = [] ∨
      (rt.resultCacheConfig.enabled = false ∧ rt'.resultCache = rt.resultCache ∧
        pc.pendsReset = false) := by
  cases h with
  | writeConfig shouldResetCache hreset =>
      cases shouldResetCache with
      | true => exact .inl rfl
      | false => exact .inr (.inr ⟨(hreset rfl).2 hdisabled, rfl, rfl⟩)
  | storeEnabled shouldResetCache | storeTtl shouldResetCache =>
      cases shouldResetCache with
      | true => exact .inl rfl
      | false => exact .inr (.inr ⟨hdisabled, rfl, rfl⟩)
  | resetCache => exact .inr (.inl rfl)

/-- A step of a configuration call. -/
theorem DisabledInv.configured {s : Pool (Shared π) (Task π) (Event π)} {tid : Nat}
    {c : ConfigureCall} {pc pc' : ConfigurePc} {x' : Shared π} {log' : List (Event π)}
    (hs : DisabledInv s) (ht : s.tasks[tid]? = some (.configure c pc))
    (hguard : pc = .writeConfig → ∀ u ∈ s.tasks, u.querying = false)
    (h : ConfigureEffect c s.shared.runtime pc x'.runtime pc') :
    DisabledInv ⟨x', s.tasks.set tid (.configure c pc'), log'⟩ := by
  have hmem : Task.configure c pc ∈ s.tasks := List.mem_of_getElem? ht
  have hold : ∀ {u}, u ∈ s.tasks.eraseIdx tid → u ∈ s.tasks := fun hu =>
    (mem_iff_of_getElem? ht).mpr (.inr hu)
  refine ⟨fun {t u} htask hu hconf => ?_, fun {t} htask huses => ?_, fun hdisabled => ?_⟩
  · rcases (mem_set_of_getElem? ht).mp hu with rfl | huother
    · rfl
    · rcases (mem_set_of_getElem? ht).mp htask with rfl | htother
      · rcases h.configuring with hwrites | hprogress
        · exact hguard hwrites u (hold huother)
        · exact hs.apart hmem (hold huother) hprogress
      · exact hs.apart (hold htother) (hold huother) hconf
  · rcases (mem_set_of_getElem? ht).mp htask with rfl | htother
    · cases huses
    · have hquerying := Task.querying_of_usesCache huses
      by_cases hwrites : pc = .writeConfig
      · rw [hguard hwrites t (hold htother)] at hquerying
        cases hquerying
      · have hconfig := h.config_eq
        rw [if_neg hwrites] at hconfig
        rw [hconfig]
        exact hs.allowed (hold htother) huses
  · rcases h.pendsReset hdisabled with hreset | hempty | ⟨hbefore, hcache, hpends⟩
    · exact .inr ⟨_, (mem_set_of_getElem? ht).mpr (.inl rfl), hreset⟩
    · exact .inl hempty
    · rcases hs.emptied hbefore with hempty | ⟨u, hu, hreset⟩
      · exact .inl (hcache ▸ hempty)
      · rcases (mem_iff_of_getElem? ht).mp hu with rfl | huother
        · simp [Task.pendsReset, Task.configure?, hpends] at hreset
        · exact .inr ⟨u, (mem_set_of_getElem? ht).mpr (.inr huother), hreset⟩

theorem enabledMirror_pending_eq_none {t : Task π} (h : t.configuring = false) :
    enabledMirror.pending t = none := by
  cases t with
  | configure c pc =>
      cases pc with
      | storeEnabled => cases h
      | writeConfig | storeTtl | resetCache | done => rfl
  | install | prune | execute | currentGeneration => rfl

/-- A step of any call but configuration calls.  With no call in progress the flag is
that of the recorded configuration, so a query that finds it set may use the cache. -/
theorem DisabledInv.stepApart {s : Pool (Shared π) (Task π) (Event π)} {tid : Nat}
    {t t' : Task π} {x' : Shared π} {log' : List (Event π)} (hs : DisabledInv s)
    (henabled : enabledMirror.Settled s) (ht : s.tasks[tid]? = some t)
    (hguard : t.startsQuery = true → ∀ u ∈ s.tasks, u.configuring = false)
    (h : StepApart s.shared x' t t') :
    DisabledInv ⟨x', s.tasks.set tid t', log'⟩ := by
  have hmem : t ∈ s.tasks := List.mem_of_getElem? ht
  have hold : ∀ {u}, u ∈ s.tasks.eraseIdx tid → u ∈ s.tasks := fun hu =>
    (mem_iff_of_getElem? ht).mpr (.inr hu)
  have hconfig := h.settings.resultCacheConfig
  refine ⟨fun {v u} hv hu hconf => ?_, fun {u} hu huses => ?_, fun hdisabled => ?_⟩
  · have hvold : v ∈ s.tasks := by
      rcases (mem_set_of_getElem? ht).mp hv with rfl | hvother
      · simp [Task.configuring, h.configure?.2] at hconf
      · exact hold hvother
    rcases (mem_set_of_getElem? ht).mp hu with rfl | huother
    · rw [← Bool.not_eq_true]
      intro hquerying
      rcases h.querying hquerying with hbefore | hstarts
      · exact Bool.false_ne_true ((hs.apart hvold hmem hconf).symm.trans hbefore)
      · exact Bool.false_ne_true ((hguard hstarts v hvold).symm.trans hconf)
    · exact hs.apart hvold (hold huother) hconf
  · show x'.runtime.resultCacheConfig.enabled = true
    rw [hconfig]
    rcases (mem_set_of_getElem? ht).mp hu with rfl | huother
    · rcases h.usesCache huses with hbefore | ⟨hquerying, hflag⟩
      · exact hs.allowed hmem hbefore
      · have hnone : ∀ v ∈ s.tasks, enabledMirror.pending v = none := by
          intro v hv
          refine enabledMirror_pending_eq_none ?_
          rw [← Bool.not_eq_true]
          intro hconf
          exact Bool.false_ne_true ((hs.apart hv hmem hconf).symm.trans hquerying)
        exact ((Mirror.settled_iff_of_pending_eq_none hnone).mp henabled).symm.trans hflag
    · exact hs.allowed (hold huother) huses
  · have hbefore : s.shared.runtime.resultCacheConfig.enabled = false := hconfig ▸ hdisabled
    rcases hs.emptied hbefore with hempty | ⟨u, hu, hreset⟩
    · have hunused : t.usesCache = false := by
        rw [← Bool.not_eq_true]
        intro huses
        exact Bool.false_ne_true (hbefore.symm.trans (hs.allowed hmem huses))
      exact .inl ((congrArg LruCache.entries (h.cache hunused)).trans hempty)
    · rcases (mem_iff_of_getElem? ht).mp hu with rfl | huother
      · simp [Task.pendsReset, h.configure?.1] at hreset
      · exact .inr ⟨u, (mem_set_of_getElem? ht).mpr (.inr huother), hreset⟩

section Runs

variable [DefaultHasher] [ValueText]

theorem disabledInv_of_run {as : List (PoolAction Call (Input π) Ambient)}
    {s : Pool (Shared π) (Task π) (Event π)}
    (h : (runtimeMachine π).Run (fun s a => StoresInTurn s a ∧ QueriesApart s a) as s) :
    DisabledInv s := by
  refine (Machine.Run.invariant (P := fun _ s => DisabledInv s) ?_ ?_ h)
  · rintro s ⟨⟨capacity, hx⟩, htasks, -⟩
    refine ⟨?_, ?_, ?_⟩
    · simp [htasks]
    · simp [htasks]
    · intro _
      rw [hx]
      exact .inl rfl
  · intro as s a s' hrun hs hok hstep
    cases a with
    | spawn call =>
        cases hstep
        exact hs.spawn call
    | env d =>
        cases hstep
        cases d <;> exact ⟨hs.apart, hs.allowed, hs.emptied⟩
    | run tid input =>
        have hsettled := settingsSettled_of_run (hrun.mono fun _ _ hok => hok.1)
        rcases TaskSystem.advance_run_iff.mp hstep with ⟨t, x', t', e, ht, hst, rfl⟩
        rcases Task.step_settings hst with ⟨c, pc, pc', rfl, rfl, heff⟩ | happart
        · refine hs.configured ht (fun hwrites => (hok.2 _ ht).1 ?_) heff
          simp [Task.configure?, hwrites]
        · exact hs.stepApart hsettled.enabled ht (hok.2 _ ht).2 happart

/-! ## The settings of one call -/

/-- The configuration a runtime starts with, if no call was made, or that of a call that
has returned. -/
def ConfiguredBy (s : Pool (Shared π) (Task π) (Event π)) (config : ResultCacheConfig) : Prop :=
  ((∃ capacity, config = (KnowledgeRuntime.new π capacity).resultCacheConfig) ∧
    ∀ t ∈ s.tasks, t.configure? = none) ∨
  ∃ c, Task.configure c .done ∈ s.tasks ∧ config = c.newConfig

omit [DefaultHasher] [ValueText] in
theorem ConfiguresReturned.configuredBy {s : Pool (Shared π) (Task π) (Event π)}
    (h : ConfiguresReturned s) (hrecorded : RecordedByCall s) :
    ConfiguredBy s s.shared.runtime.resultCacheConfig := by
  rcases hrecorded with ⟨hfirst, hnone⟩ | ⟨c, pc, hmem, -, hconfig⟩
  · refine .inl ⟨hfirst, fun t ht => ?_⟩
    rw [Option.eq_none_iff_forall_not_mem]
    intro call hcall
    have hpc := hnone t ht call hcall
    rw [h t ht call hcall] at hpc
    cases hpc
  · obtain rfl : pc = .done := h _ hmem _ rfl
    exact .inr ⟨c, hmem, hconfig⟩

/-- **Settings of one call.**  In every run in which no configuration call stores its
flag, its time to live or its new cache unless the value is that of the recorded
configuration or another call has yet to store that, when all calls have returned, the
configuration of one of them is in force.  If it disables the cache, and no query was in
flight while a configuration call was in progress, the cache is empty. -/
theorem settings_of_one_call {as : List (PoolAction Call (Input π) Ambient)}
    {s : Pool (Shared π) (Task π) (Event π)} (hrun : (runtimeMachine π).Run StoresInTurn as s)
    (hreturned : ConfiguresReturned s) :
    ∃ config, ConfiguredBy s config ∧ InForce s.shared.runtime config ∧
      ((runtimeMachine π).Run (fun s a => StoresInTurn s a ∧ QueriesApart s a) as s →
        config.enabled = false → s.shared.runtime.resultCache.entries = []) := by
  refine ⟨_, hreturned.configuredBy (recordedByCall_of_run hrun),
    hreturned.settled_iff.mp (settingsSettled_of_run hrun), fun happart hdisabled => ?_⟩
  rcases (disabledInv_of_run happart).emptied hdisabled with hempty | ⟨t, ht, hreset⟩
  · exact hempty
  · obtain ⟨call, hcall, hpends⟩ := (Option.any_eq_true _ _).mp hreset
    rw [hreturned t ht call hcall] at hpends
    cases hpends

end Runs

/-! ## Two overlapping calls -/

/-- A call that enlarges the cache and keeps it enabled. -/
def enablingCall : ConfigureCall := ⟨true, 8, Duration.fromMillis 60000⟩

/-- A call that disables it, with another capacity and another time to live. -/
def disablingCall : ConfigureCall := ⟨false, 16, Duration.fromMillis 1000⟩

/-- A query fills the cache.  Then the two calls overlap, each step of the first one
before that of the second one, except that the second one records its configuration
when the first one has only stored its flag. -/
def overlappingCalls : List PlainAction :=
  ([.spawn (.install (.installProvider .sqliteAuthority ⟨"sqlite:users"⟩))] :
    List PlainAction) ++ installSteps 0 7 ++
  ([.spawn (.execute ⟨.default, plainQuery "SELECT name FROM users"⟩)] : List PlainAction) ++
  missSteps 1 ++
  ([.spawn (.configure enablingCall), .spawn (.configure disablingCall), .run 2 .go,
    .run 2 .go, .run 3 .go, .run 2 .go, .run 3 .go, .run 2 .go, .run 3 .go, .run 3 .go] :
    List PlainAction)

theorem settings_of_one_call_overlapping :
    letI := sipHasher
    letI := numericText
    ∃ s, (runtimeMachine Unit).Run StoresInTurn overlappingCalls s ∧ ConfiguresReturned s ∧
      ∃ config, ConfiguredBy s config ∧ InForce s.shared.runtime config ∧
        config = disablingCall.newConfig ∧ s.shared.runtime.resultCache.entries = [] := by
  let _ := sipHasher
  let _ := numericText
  have hexec : ((runtimeMachine Unit).exec (fun s a => StoresInTurn s a ∧ QueriesApart s a)
      (newPool Unit 4) overlappingCalls).any (fun s => decide (ConfiguresReturned s ∧
        s.shared.runtime.resultCacheConfig = disablingCall.newConfig)) = true := by
    decide +kernel
  rcases Machine.exists_run_of_exec_any (newPool_init Unit 4) hexec with ⟨s, happart, hend⟩
  rcases of_decide_eq_true hend with ⟨hreturned, hrecorded⟩
  have hrun := happart.mono fun _ _ hok => hok.1
  rcases settings_of_one_call hrun hreturned with ⟨config, hby, hforce, hempty⟩
  have hconfig : config = disablingCall.newConfig := hforce.recorded.symm.trans hrecorded
  exact ⟨s, hrun, hreturned, config, hby, hforce, hconfig, hempty happart (hconfig ▸ rfl)⟩

/-- The first call records its configuration, the second one runs from its beginning to
its end, and then the first one goes on to its end. -/
def crossedCalls : List PlainAction :=
  ([.spawn (.configure enablingCall), .spawn (.configure disablingCall), .run 0 .go] :
    List PlainAction) ++
  List.replicate 4 (.run 1 .go : PlainAction) ++ List.replicate 3 (.run 0 .go : PlainAction)

/-- A third call with the arguments of the second one. -/
def repeatedCall : List PlainAction :=
  ([.spawn (.configure disablingCall)] : List PlainAction) ++
  List.replicate 3 (.run 2 .go : PlainAction)

/-- After crossed calls lookups find the cache enabled and a snapshot reports it disabled,
so no configuration is in force.  Configuring the cache once more as the snapshot reports
it sets the flag right, but the cache keeps the wrong capacity. -/
theorem settings_of_crossed_calls :
    letI := sipHasher
    letI := numericText
    ∃ s s', (runtimeMachine Unit).Run Machine.Unguarded crossedCalls s ∧ ConfiguresReturned s ∧
      s.shared.runtime.resultCacheEnabled = true ∧
      s.shared.runtime.snapshot.resultCacheEnabled = false ∧
      (¬ ∃ config, ConfiguredBy s config ∧ InForce s.shared.runtime config) ∧
      (runtimeMachine Unit).Steps Machine.Unguarded s repeatedCall s' ∧ ConfiguresReturned s' ∧
      s'.shared.runtime.resultCacheEnabled = false ∧ s'.shared.runtime.resultCache.cap = 8 ∧
      s'.shared.runtime.resultCacheConfig = disablingCall.newConfig := by
  let _ := sipHasher
  let _ := numericText
  have hexec : ((runtimeMachine Unit).exec Machine.Unguarded (newPool Unit 4) crossedCalls).any
      (fun s => decide (ConfiguresReturned s ∧ s.shared.runtime.resultCacheEnabled = true ∧
          s.shared.runtime.snapshot.resultCacheEnabled = false) &&
        ((runtimeMachine Unit).exec Machine.Unguarded s repeatedCall).any fun s' =>
          decide (ConfiguresReturned s' ∧ s'.shared.runtime.resultCacheEnabled = false ∧
            s'.shared.runtime.resultCache.cap = 8 ∧
            s'.shared.runtime.resultCacheConfig = disablingCall.newConfig)) = true := by
    decide +kernel
  rcases Machine.exists_run_of_exec_any (newPool_init Unit 4) hexec with ⟨s, hrun, hend⟩
  rw [Bool.and_eq_true] at hend
  rcases of_decide_eq_true hend.1 with ⟨hreturned, hflag, hreported⟩
  rcases (Option.any_eq_true _ _).mp hend.2 with ⟨s', hs', hlast⟩
  refine ⟨s, s', hrun, hreturned, hflag, hreported, ?_, Machine.steps_of_exec hs',
    of_decide_eq_true hlast⟩
  rintro ⟨config, -, hforce⟩
  have hsame := hforce.enabled.1.trans hforce.enabled.2.symm
  rw [hflag, hreported] at hsame
  cases hsame

end WpKnowledge
