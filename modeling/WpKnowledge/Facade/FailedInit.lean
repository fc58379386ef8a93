import WpKnowledge.Facade.DefaultSlot

/-!
# A failed initialisation with databases

The databases of a configuration are installed one after the other, and what was installed
before a failure stays: the databases connected to can be queried, the others cannot.  The
settings of the result cache and the prune come only after the last install.  So a failed
initialisation changes the names of the databases before the failing one, the default slot
if its database is among them, and nothing else that queries depend on.

Main results:

- Theorem {lit}`Process.installSpecs_error`: where the installs of the databases stop.
- Theorem {lit}`failed_sqldb_init`: what a failed initialisation leaves.
-/

namespace WpKnowledge

open Foundation
open Loader (Settings SqlProviderSpec RedisProviderSpec)

variable {κ ρ δ : Type}

/-! ## What an install leaves of the caches -/

/-- Two processes agree on the result cache: its settings, its capacity and its contents. -/
structure SameResultCache (s s' : Process κ ρ) : Prop where
  config : s'.runtime.resultCacheConfig = s.runtime.resultCacheConfig
  enabled : s'.runtime.resultCacheEnabled = s.runtime.resultCacheEnabled
  ttlMs : s'.runtime.resultCacheTtlMs = s.runtime.resultCacheTtlMs
  contents : s'.runtime.resultCache = s.runtime.resultCache

theorem SameResultCache.refl (s : Process κ ρ) : SameResultCache s s := ⟨rfl, rfl, rfl, rfl⟩

theorem SameResultCache.trans {s s' s'' : Process κ ρ} (h : SameResultCache s s')
    (h' : SameResultCache s' s'') : SameResultCache s s'' :=
  ⟨h'.config.trans h.config, h'.enabled.trans h.enabled, h'.ttlMs.trans h.ttlMs,
    h'.contents.trans h.contents⟩

/-- The default handle, if there is one, is of a generation drawn before. -/
def SlotDrawn (s : Process κ ρ) : Prop :=
  ∀ handle, s.runtime.provider = some handle → handle.generation ≤ s.runtime.nextGeneration

namespace Process

/-- An install does not touch the result cache. -/
theorem install_sameResultCache (s : Process κ ρ) (c : InstallCall)
    (build : Nat → KnowledgeResult (InstalledProvider κ)) :
    SameResultCache s (s.install c build).2 := by
  cases hbuild : build (s.runtime.nextGeneration + 1) with
  | error err => constructor <;> simp [install, KnowledgeRuntime.installProviderNamed, hbuild]
  | ok provider =>
      by_cases hdefault : c.isDefault = true
      · constructor <;> simp [install, KnowledgeRuntime.installProviderNamed, hbuild, hdefault]
      · constructor <;> simp [install, KnowledgeRuntime.installProviderNamed, hbuild, hdefault]

/-- An install puts a handle just drawn into the default slot, or leaves it. -/
theorem slotDrawn_install {s : Process κ ρ} (h : SlotDrawn s) (c : InstallCall)
    (build : Nat → KnowledgeResult (InstalledProvider κ)) : SlotDrawn (s.install c build).2 := by
  have houtcome := s.install_outcome c build
  generalize s.install c build = r at houtcome
  intro handle hhandle
  cases houtcome with
  | failed hbuild hregistered hprovider hgeneration hredis =>
      have hle := h handle (hprovider ▸ hhandle)
      simp only [hgeneration]
      omega
  | @installed made s' hbuild hmade hown hregistered hprovider hgeneration hredis =>
      have hnumber := KnowledgeRuntime.generation_of_eq_nextHandle hmade
      simp only [hgeneration]
      by_cases hdefault : c.isDefault = true
      · rw [hdefault, if_pos rfl] at hprovider
        have hmine : made = handle := Option.some.inj (hprovider.symm.trans hhandle)
        rw [← hmine, hnumber]
      · rw [if_neg hdefault] at hprovider
        have hle := h handle (hprovider ▸ hhandle)
        omega

variable [DefaultHasher]

theorem installSpecs_sameResultCache (env : Surroundings κ ρ) (defaultName : String)
    (specs : List SqlProviderSpec) (s : Process κ ρ) :
    SameResultCache s (installSpecs env defaultName specs s).2 :=
  installSpecs_invariant (P := SameResultCache s)
    (fun _ s' h => h.trans (s'.install_sameResultCache _ _)) specs (.refl s)

/-! ## Where the installs stop -/

/-- The installs of databases stop at the first one that cannot be connected to: those
before it are installed, and it leaves names, default slot and Redis as they are then. -/
theorem installSpecs_error {env : Surroundings κ ρ} {defaultName : String}
    {specs : List SqlProviderSpec} {s s' : Process κ ρ} {err : KnowledgeError}
    (h : installSpecs env defaultName specs s = (.error err, s')) :
    ∃ before spec after s₁, specs = before ++ spec :: after ∧ spec.connect env = .error err ∧
      installSpecs env defaultName before s = (.ok (), s₁) ∧
      (∀ name, s'.registered name = s₁.registered name) ∧
      s'.runtime.provider = s₁.runtime.provider := by
  induction specs generalizing s with
  | nil => cases (Prod.mk.inj h).1
  | cons spec specs ih =>
      have houtcome := installSpec_outcome env defaultName spec s
      rw [installSpecs] at h
      cases hinstall : s.install (spec.installCall defaultName)
          (fun generation => (spec.connect env).map (spec.provider · generation)) with
      | mk result s₁ =>
          rw [hinstall] at houtcome h
          cases houtcome with
          | failed hbuild hregistered hprovider hgeneration hredis =>
              obtain ⟨herr, rfl⟩ := Prod.mk.inj h
              obtain rfl := Except.error.inj herr
              exact ⟨[], spec, specs, s, rfl, connect_of_build_error hbuild, rfl, hregistered,
                hprovider⟩
          | @installed handle _ hbuild =>
              obtain ⟨before, failing, after, s₂, hspecs, hconnect, hbefore, hregistered,
                hprovider⟩ := ih h
              refine ⟨spec :: before, failing, after, s₂, by rw [hspecs, List.cons_append],
                hconnect, ?_, hregistered, hprovider⟩
              rw [installSpecs, hinstall]
              exact hbefore

end Process

/-! ## Failed initialisations -/

/-- The process after some databases were installed, one after the other, and nothing
else. -/
structure Installed [DefaultHasher] (env : Surroundings κ ρ) (defaultName : String)
    (specs : List SqlProviderSpec) (s s' : Process κ ρ) : Prop where
  installed : ∀ spec ∈ specs, ∃ handle, s'.registered spec.effectiveName = some handle ∧
    Process.HandleFor env spec s.runtime.nextGeneration handle
  others : ∀ name, name ∉ specs.map SqlProviderSpec.effectiveName →
    s'.registered name = s.registered name
  slot_installed : defaultName ∈ specs.map SqlProviderSpec.effectiveName →
    s'.runtime.provider = s'.registered defaultName
  slot_kept : defaultName ∉ specs.map SqlProviderSpec.effectiveName →
    s'.runtime.provider = s.runtime.provider
  resultCache : SameResultCache s s'
  redis : s.SameRedis s'

section FailedInit

variable [DefaultHasher]

/-- A failed install of databases installs those before the failing one. -/
theorem Process.installed_of_error {env : Surroundings κ ρ} {defaultName : String}
    {specs : List SqlProviderSpec} {s s' : Process κ ρ} {err : KnowledgeError}
    (hnodup : (specs.map SqlProviderSpec.effectiveName).Nodup)
    (h : installSpecs env defaultName specs s = (.error err, s')) :
    ∃ before spec after, specs = before ++ spec :: after ∧ spec.connect env = .error err ∧
      Installed env defaultName before s s' := by
  obtain ⟨before, spec, after, s₁, hspecs, hconnect, hbefore, hregistered, hprovider⟩ :=
    installSpecs_error h
  have hcaches := installSpecs_sameResultCache env defaultName specs s
  have hredis := (installSpecs_frame env defaultName specs s).2.2.2
  rw [h] at hcaches hredis
  have hnodup' : (before.map SqlProviderSpec.effectiveName).Nodup := by
    rw [hspecs, List.map_append] at hnodup
    exact hnodup.of_append_left
  obtain ⟨hhandles, hslot⟩ := installSpecs_ok hnodup' hbefore
  obtain ⟨hothers, hkept, -, -⟩ := installSpecs_frame env defaultName before s
  rw [hbefore] at hothers hkept
  refine ⟨before, spec, after, hspecs, hconnect, ?_, ?_, ?_, ?_, hcaches, hredis⟩
  · intro other hother
    obtain ⟨handle, hhandle, hfor⟩ := hhandles other hother
    exact ⟨handle, (hregistered _).trans hhandle, hfor⟩
  · intro name hname
    exact (hregistered name).trans (hothers name hname)
  · intro hdefault
    rw [hprovider, hregistered]
    exact hslot hdefault
  · intro hdefault
    exact hprovider.trans (hkept hdefault)

/-- The default slot changes exactly if the default database was installed. -/
theorem Installed.slot_changed_iff {env : Surroundings κ ρ} {defaultName : String}
    {specs : List SqlProviderSpec} {s s' : Process κ ρ} (h : Installed env defaultName specs s s')
    (hdrawn : SlotDrawn s) :
    s'.runtime.provider ≠ s.runtime.provider ↔
      defaultName ∈ specs.map SqlProviderSpec.effectiveName := by
  constructor
  · intro hchanged
    by_contra hdefault
    exact hchanged (h.slot_kept hdefault)
  · intro hdefault hsame
    obtain ⟨spec, hspec, hname⟩ := List.mem_map.mp hdefault
    obtain ⟨handle, hhandle, hfor⟩ := h.installed spec hspec
    have hslot := h.slot_installed hdefault
    rw [← hname, hhandle] at hslot
    have hle := hdrawn handle (hsame.symm.trans hslot)
    have hlater := hfor.later
    omega

/-- A failed initialisation with databases.  If the check refuses the list, nothing
changes.  Otherwise some database cannot be connected to, and afterwards exactly the
databases before it are installed: their names have new handles, the other names and all of
the result cache and of Redis are as they were, and the default slot changed exactly if the
default database is among them. -/
theorem failed_sqldb_init (env : Surroundings κ ρ) (db : Loader.Engine δ)
    (root confPath authorityUri : String) (s : Process κ ρ) (d : δ) {conf : Settings}
    {first : SqlProviderSpec} {rest : List SqlProviderSpec}
    (hconf : env.parseKnowdbConf root confPath = .ok conf)
    (hmode : conf.mode = .sqldb first rest) :
    (∀ err, SqlProviderSpec.validateSpecs (first :: rest) = .error err →
      Process.initThreadClonedFromKnowdb env db root confPath authorityUri s d =
        (.error err, s, d)) ∧
    ∀ expected err s' d', SqlProviderSpec.validateSpecs (first :: rest) = .ok expected →
      Process.initThreadClonedFromKnowdb env db root confPath authorityUri s d =
        (.error err, s', d') →
      d' = d ∧ ∃ before spec after, first :: rest = before ++ spec :: after ∧
        spec.connect env = .error err ∧
        Installed env (defaultNameOf expected first) before s s' ∧
        (SlotDrawn s → (s'.runtime.provider ≠ s.runtime.provider ↔
          defaultNameOf expected first ∈ before.map SqlProviderSpec.effectiveName)) := by
  rw [Process.init_eq hconf, hmode]
  simp only [Process.initSqldb]
  constructor
  · intro err hvalid
    rw [hvalid]
  · intro expected err s' d' hvalid hinit
    obtain ⟨hnodup, -⟩ := SqlProviderSpec.validateSpecs_ok hvalid
    rw [hvalid] at hinit
    simp only at hinit
    cases hinstall : Process.installSpecs env (defaultNameOf expected first) (first :: rest) s with
    | mk result s₁ =>
        rw [hinstall] at hinit
        cases result with
        | ok u => cases (Prod.mk.inj hinit).1
        | error err' =>
            obtain ⟨herr, hrest⟩ := Prod.mk.inj hinit
            obtain ⟨rfl, rfl⟩ := Prod.mk.inj hrest
            obtain rfl := Except.error.inj herr
            obtain ⟨before, spec, after, hspecs, hconnect, hinstalled⟩ :=
              Process.installed_of_error hnodup hinstall
            exact ⟨rfl, before, spec, after, hspecs, hconnect, hinstalled,
              hinstalled.slot_changed_iff⟩

/-- An initialisation puts handles just drawn into the default slot, or leaves it. -/
theorem Turn.slotDrawn_init (t : Turn κ ρ δ) {s : Process κ ρ} (h : SlotDrawn s) (d : δ) :
    SlotDrawn (t.init s d).2.1 := by
  have hsettle : ∀ {s : Process κ ρ} {conf : Settings} {keep : List String}, SlotDrawn s →
      SlotDrawn (s.settle conf keep) := fun h => h
  rcases t.init_cases with ⟨-, -, err, hinit⟩ | ⟨conf, -, ⟨-, first, rest, -, hinit⟩ |
    ⟨-, cfg, -, hinit⟩ | ⟨-, -, hinit⟩⟩
  · rw [hinit]
    exact h
  · rw [hinit, Process.initSqldb]
    split
    · exact h
    · rename_i expected _
      have hinstalled : SlotDrawn (Process.installSpecs t.env (defaultNameOf expected first)
          (first :: rest) s).2 :=
        Process.installSpecs_invariant (P := SlotDrawn)
          (fun _ _ h => Process.slotDrawn_install h _ _) _ h
      split
      · rename_i hinstall
        rw [hinstall] at hinstalled
        exact hinstalled
      · rename_i hinstall
        rw [hinstall] at hinstalled
        exact hsettle hinstalled
  · rw [hinit, Process.initRedis]
    split
    · exact h
    · exact h
  · have hinstalled : SlotDrawn
        (s.initThreadClonedFromAuthority (readOnlyUri t.authorityUri)).2 :=
      Process.slotDrawn_install h _ _
    rw [hinit, Process.initAuthority]
    split
    · exact h
    · split
      · rename_i hinstall
        rw [hinstall] at hinstalled
        exact hinstalled
      · rename_i hinstall
        rw [hinstall] at hinstalled
        exact hsettle hinstalled

/-- In every state that installs, prunes and initialisations lead to, the default handle is
of a generation drawn before. -/
theorem slotDrawn_of_run {actions : List (SetupAction κ ρ δ)} {s : Process κ ρ}
    (hrun : (setupMachine κ ρ δ).Run Machine.Unguarded actions s) : SlotDrawn s := by
  refine hrun.stateInvariant (P := SlotDrawn) ?_ ?_
  · intro s hinit handle hhandle
    have hnew : s = Process.new κ ρ := hinit
    rw [hnew] at hhandle
    cases hhandle
  · intro s action s' h _ hstep
    obtain rfl : s.setup action = s' := Option.some.inj hstep
    cases action with
    | installProvider kind datasourceId build => exact Process.slotDrawn_install h _ build
    | installProviderNamed call build => exact Process.slotDrawn_install h call build
    | pruneNamedProvidersExcept keep => exact h
    | initThreadClonedFromKnowdb turn contents => exact turn.slotDrawn_init h contents

end FailedInit

/-! ## One database that refuses connections -/

/-- The first of the two databases. -/
def geoDatabase : SqlProviderSpec :=
  { name := some "geo", kind := .postgres, connectionUri := "postgres://127.0.0.1/geo" }

/-- The second of the two databases. -/
def assetDatabase : SqlProviderSpec :=
  { name := some "asset", kind := .mysql, connectionUri := "mysql://127.0.0.1/asset" }

/-- A world in which the MySQL servers refuse connections. -/
def refusingMysql : Surroundings Unit Unit :=
  { oneFileSurroundings twoDatabases with
    connectMysql := fun _ => .error ⟨.coreConf, "mysql startup validation failed"⟩ }

/-- A process in use: it was initialised with the authority file, another database was
installed, and a result is cached. -/
def usedProcess [DefaultHasher] : Process Unit Unit :=
  let s := ((turnWith { version := 2 }).init (Process.new Unit Unit) ()).2.1
  let s := (s.install
    { name := "old", kind := .postgres, datasourceId := ⟨"postgres:old"⟩, isDefault := false }
    (fun _ => .ok (.other ()))).2
  { s with
    runtime := { s.runtime with
      resultCache := s.runtime.resultCache.put ⟨⟨"postgres:old"⟩, 2, 0, 0, .many⟩
        { response := .rows [], cachedAt := 0 } } }

/-- In a process in use the first of the two databases is installed, the second is not. -/
theorem failed_sqldb_init_second :
    letI := sipHasher
    ∃ s' before spec after,
      Process.initThreadClonedFromKnowdb refusingMysql emptyEngine "/" "knowdb.toml"
        "file:a.db" usedProcess () =
          (.error ⟨.coreConf, "mysql startup validation failed"⟩, s', ()) ∧
      geoDatabase :: [assetDatabase] = before ++ spec :: after ∧
      Installed refusingMysql "geo" before usedProcess s' ∧
      (usedProcess.registered "old").isSome ∧ usedProcess.runtime.provider.isSome ∧
      usedProcess.runtime.resultCache.len = 1 := by
  let _ := sipHasher
  have hfailed := (@failed_sqldb_init Unit Unit Unit _ refusingMysql emptyEngine "/"
    "knowdb.toml" "file:a.db" usedProcess () twoDatabases geoDatabase
    [assetDatabase] rfl rfl).2 ["asset", "geo"] _ _ _ rfl rfl
  obtain ⟨-, before, spec, after, hspecs, -, hinstalled, -⟩ := hfailed
  exact ⟨_, before, spec, after, rfl, hspecs, hinstalled, rfl, rfl, rfl⟩

end WpKnowledge
