import WpKnowledge.Facade.ReloadSequence

/-!
# The default slot and the name of the default provider

The registry is documented to hold the default provider under the name `default` as well, so
that a query of the default provider and one of the provider `default` go to the same place.
The slot and the registry are written by different steps, and the link between them is not
restored by all of them: a default provider may be installed under another name, another
provider under the name `default`, a prune may drop the name, and of the three modes of
initialisation one makes the first database the default one under its own name and another
prunes all names.

Main results:

- Theorem {lit}`Process.linked_install_iff`: which installs keep the link.
- Theorem {lit}`linked_setup_iff`: which steps keep the link.
- Theorem {lit}`default_slot_linked`: the link holds in every state of a run whose steps all
  keep it, and only these steps do.
-/

namespace WpKnowledge

open Foundation
open Loader (Settings SqlProviderSpec RedisProviderSpec)

variable {κ ρ δ : Type}

/-! ## The link -/

/-- The default provider, if there is one, is registered under its fixed name. -/
def Linked (s : Process κ ρ) : Prop :=
  ∀ handle, s.runtime.provider = some handle →
    s.runtime.providerByName defaultProviderName = .ok handle

/-- Registered handles are of generations drawn before. -/
def DrawnBefore (s : Process κ ρ) : Prop :=
  ∀ name handle, s.registered name = some handle → handle.generation ≤ s.runtime.nextGeneration

theorem linked_iff {s : Process κ ρ} :
    Linked s ↔ ∀ handle, s.runtime.provider = some handle →
      s.registered defaultProviderName = some handle := by
  have hname : ∀ handle, s.runtime.providerByName defaultProviderName = .ok handle ↔
      s.registered defaultProviderName = some handle := fun handle =>
    @KnowledgeRuntime.resolve_eq_ok_iff _ s.runtime (.named defaultProviderName) handle
  simp only [Linked, hname]

/-- Nothing is linked without a default provider. -/
theorem linked_of_none {s : Process κ ρ} (h : s.runtime.provider = none) : Linked s := by
  intro handle hhandle
  rw [h] at hhandle
  cases hhandle

/-- The link does not see anything but the slot and the registered name. -/
theorem Linked.of_eq {s s' : Process κ ρ} (h : Linked s)
    (hprovider : s'.runtime.provider = s.runtime.provider)
    (hregistered : s'.registered defaultProviderName = s.registered defaultProviderName) :
    Linked s' := by
  rw [linked_iff] at h ⊢
  rwa [hprovider, hregistered]

/-! ## Installs -/

/-- An install keeps the link: it fails, or it is a default one under the fixed name, or it is
another one and does not take the name of a default provider. -/
def InstallKeepsLink (s : Process κ ρ) (c : InstallCall)
    (build : Nat → KnowledgeResult (InstalledProvider κ)) : Prop :=
  (build (s.runtime.nextGeneration + 1)).isOk = true →
    if c.isDefault then c.name = defaultProviderName
    else c.name = defaultProviderName → s.runtime.provider = none

namespace Process

theorem drawnBefore_install {s : Process κ ρ} (h : DrawnBefore s) (c : InstallCall)
    (build : Nat → KnowledgeResult (InstalledProvider κ)) :
    DrawnBefore (s.install c build).2 := by
  have houtcome := s.install_outcome c build
  generalize s.install c build = r at houtcome
  intro name handle hname
  cases houtcome with
  | failed hbuild hregistered hprovider hgeneration hredis =>
      rw [hregistered] at hname
      have hle := h name handle hname
      simp only [hgeneration]
      omega
  | @installed made s' hbuild hmade hown hregistered hprovider hgeneration hredis =>
      have hnumber := KnowledgeRuntime.generation_of_eq_nextHandle hmade
      by_cases hsame : name = c.name
      · rw [hsame, hown] at hname
        rw [← Option.some.inj hname]
        simp only [hgeneration, hnumber]
        exact Nat.le_refl _
      · rw [hregistered name hsame] at hname
        have hle := h name handle hname
        simp only [hgeneration]
        omega

/-- Which installs keep the link. -/
theorem linked_install_iff {s : Process κ ρ} (hlinked : Linked s) (hdrawn : DrawnBefore s)
    (c : InstallCall) (build : Nat → KnowledgeResult (InstalledProvider κ)) :
    Linked (s.install c build).2 ↔ InstallKeepsLink s c build := by
  have houtcome := s.install_outcome c build
  unfold InstallKeepsLink
  generalize s.install c build = r at houtcome
  cases houtcome with
  | failed hbuild hregistered hprovider hgeneration hredis =>
      have hkept := hlinked.of_eq hprovider (hregistered _)
      simp [hkept, hbuild, Except.isOk, Except.toBool]
  | @installed made s' hbuild hmade hown hregistered hprovider hgeneration hredis =>
      have hnumber := KnowledgeRuntime.generation_of_eq_nextHandle hmade
      have hok : (build (s.runtime.nextGeneration + 1)).isOk = true := by
        rw [hbuild]
        rfl
      rw [linked_iff] at hlinked ⊢
      simp only [hok, true_imp_iff]
      cases hdefault : c.isDefault with
      | true =>
          rw [hdefault, if_pos rfl] at hprovider
          rw [if_pos rfl]
          constructor
          · intro hlinked'
            by_contra hne
            -- the handle just made would have been registered before
            have hold := hlinked' made hprovider
            rw [hregistered _ (Ne.symm hne)] at hold
            have hle := hdrawn _ _ hold
            omega
          · intro hname handle hhandle
            rw [hprovider] at hhandle
            rw [← hname, hown, hhandle]
      | false =>
          rw [hdefault, if_neg Bool.false_ne_true] at hprovider
          rw [if_neg Bool.false_ne_true]
          constructor
          · intro hlinked' hname
            cases hslot : s.runtime.provider with
            | none => rfl
            | some handle =>
                have hle := hdrawn _ _ (hlinked handle hslot)
                have hnew := hlinked' handle (hprovider.trans hslot)
                rw [← hname, hown] at hnew
                rw [Option.some.inj hnew] at hnumber
                omega
          · intro hfree handle hhandle
            rw [hprovider] at hhandle
            by_cases hname : c.name = defaultProviderName
            · rw [hfree hname] at hhandle
              cases hhandle
            · rw [hregistered _ (Ne.symm hname)]
              exact hlinked handle hhandle

/-! ## Pruning -/

theorem registered_prune (s : Process κ ρ) (keep : List String) (name : String) :
    ({ s with runtime := s.runtime.pruneNamedProvidersExcept keep } : Process κ ρ).registered name =
      if name ∈ keep then s.registered name else none := by
  simp only [registered, KnowledgeRuntime.pruneNamedProvidersExcept, HashMap.lookup_retain,
    decide_eq_true_eq]

/-- Which prunes keep the link: those without a default provider, and those that keep its
name. -/
theorem linked_prune_iff {s : Process κ ρ} (hlinked : Linked s) (keep : List String) :
    Linked { s with runtime := s.runtime.pruneNamedProvidersExcept keep } ↔
      s.runtime.provider = none ∨ defaultProviderName ∈ keep := by
  rw [linked_iff] at hlinked ⊢
  rw [registered_prune]
  cases hslot : s.runtime.provider with
  | none => simp [KnowledgeRuntime.pruneNamedProvidersExcept, hslot]
  | some handle =>
      by_cases hkeep : defaultProviderName ∈ keep
      · simp [KnowledgeRuntime.pruneNamedProvidersExcept, hslot, hkeep, hlinked handle hslot]
      · simp [KnowledgeRuntime.pruneNamedProvidersExcept, hslot, hkeep]

theorem drawnBefore_prune {s : Process κ ρ} (h : DrawnBefore s) (keep : List String) :
    DrawnBefore { s with runtime := s.runtime.pruneNamedProvidersExcept keep } := by
  intro name handle hname
  rw [registered_prune] at hname
  split at hname
  · exact h name handle hname
  · cases hname

/-- The end of an initialisation keeps the link if it keeps the name. -/
theorem linked_settle {s : Process κ ρ} (h : Linked s) (conf : Settings) {keep : List String}
    (hkeep : defaultSqldbName ∈ keep) : Linked (s.settle conf keep) := by
  refine h.of_eq rfl ?_
  rw [registered_settle, if_pos]
  exact hkeep

/-- The end of an initialisation does not make the link. -/
theorem linked_of_settle {s : Process κ ρ} {conf : Settings} {keep : List String}
    (h : Linked (s.settle conf keep)) : Linked s := by
  rw [linked_iff] at h ⊢
  intro handle hhandle
  have hsettled := h handle hhandle
  rw [registered_settle] at hsettled
  split at hsettled
  · exact hsettled
  · cases hsettled

theorem drawnBefore_settle {s : Process κ ρ} (h : DrawnBefore s) (conf : Settings)
    (keep : List String) : DrawnBefore (s.settle conf keep) := by
  intro name handle hname
  rw [registered_settle] at hname
  split at hname
  · exact h name handle hname
  · cases hname

end Process

/-! ## Initialisation -/

/-- An initialisation keeps the link: with databases, unless the first one is installed and
none of them is named `default`; with a Redis server, unless it is accepted while there is a
default provider; with the authority file always. -/
def Turn.KeepsLink (t : Turn κ ρ δ) (s : Process κ ρ) : Prop :=
  match t.conf with
  | none => True
  | some conf =>
      match conf.mode with
      | .sqldb first rest =>
          (SqlProviderSpec.validateSpecs (first :: rest)).isOk = true →
            (first.connect t.env).isOk = true →
            defaultSqldbName ∈ (first :: rest).map SqlProviderSpec.effectiveName
      | .redis cfg =>
          (t.env.redis.initWithOpts s.redisRegistry Redis.knowdb cfg.connectionUri cfg.poolSize
            cfg.commandTimeoutMs).1.isOk = true → s.runtime.provider = none
      | .authority => True

namespace Process

variable [DefaultHasher]

theorem drawnBefore_installSpecs (env : Surroundings κ ρ) (defaultName : String)
    (specs : List SqlProviderSpec) {s : Process κ ρ} (h : DrawnBefore s) :
    DrawnBefore (installSpecs env defaultName specs s).2 :=
  installSpecs_invariant (P := DrawnBefore) (fun _ _ h => drawnBefore_install h _ _) specs h

/-- Installing databases, the default one under the fixed name, keeps the link. -/
theorem linked_installSpecs (env : Surroundings κ ρ) (specs : List SqlProviderSpec)
    {s : Process κ ρ} (hlinked : Linked s) (hdrawn : DrawnBefore s) :
    Linked (installSpecs env defaultSqldbName specs s).2 := by
  have hinv : Linked (installSpecs env defaultSqldbName specs s).2 ∧
      DrawnBefore (installSpecs env defaultSqldbName specs s).2 := by
    refine installSpecs_invariant (P := fun s => Linked s ∧ DrawnBefore s) ?_ specs
      ⟨hlinked, hdrawn⟩
    intro spec s hs
    have hkeeps : InstallKeepsLink s (spec.installCall defaultSqldbName)
        (fun generation => (spec.connect env).map (spec.provider · generation)) := by
      intro _
      by_cases hname : spec.effectiveName = defaultSqldbName
      · have hdefault : (spec.installCall defaultSqldbName).isDefault = true :=
          beq_iff_eq.mpr hname
        rw [if_pos hdefault]
        exact hname
      · have hdefault : (spec.installCall defaultSqldbName).isDefault = false :=
          beq_eq_false_iff_ne.mpr hname
        rw [hdefault, if_neg Bool.false_ne_true]
        exact fun h => absurd h hname
    exact ⟨(linked_install_iff hs.1 hs.2 _ _).mpr hkeeps, drawnBefore_install hs.2 _ _⟩
  exact hinv.1

/-- Installing databases, the first one as the default under a name that is not the fixed
one, breaks the link as soon as that one is connected to. -/
theorem linked_installSpecs_first (env : Surroundings κ ρ) {first : SqlProviderSpec}
    {rest : List SqlProviderSpec} {s : Process κ ρ} (hlinked : Linked s) (hdrawn : DrawnBefore s)
    (hnodup : ((first :: rest).map SqlProviderSpec.effectiveName).Nodup)
    (hnot : defaultSqldbName ∉ (first :: rest).map SqlProviderSpec.effectiveName) :
    Linked (installSpecs env first.effectiveName (first :: rest) s).2 ↔
      (first.connect env).isOk = false := by
  have houtcome := installSpec_outcome env first.effectiveName first s
  rw [installSpecs]
  generalize s.install (first.installCall first.effectiveName)
    (fun generation => (first.connect env).map (first.provider · generation)) = r at houtcome
  cases houtcome with
  | failed hbuild hsame hslot hgeneration hredis =>
      have hconnect : (first.connect env).isOk = false := by
        rw [connect_of_build_error hbuild]
        rfl
      exact ⟨fun _ => hconnect, fun _ => hlinked.of_eq hslot (hsame _)⟩
  | @installed made s₁ hbuild hmade hown hothers hslot hgeneration hredis =>
      have hconnect : (first.connect env).isOk = true := by
        obtain ⟨pool, hpool, -⟩ := connect_of_build_ok hbuild
        rw [hpool]
        rfl
      have hdefault : (first.installCall first.effectiveName).isDefault = true :=
        beq_self_eq_true _
      rw [hdefault, if_pos rfl] at hslot
      rw [List.map_cons, List.nodup_cons] at hnodup
      rw [List.map_cons, List.mem_cons, not_or] at hnot
      obtain ⟨hnames, hkept, -, -⟩ := installSpecs_frame env first.effectiveName rest s₁
      constructor
      · intro hlinked'
        -- the handle just made would have been registered before
        have hold := linked_iff.mp hlinked' made ((hkept hnodup.1).trans hslot)
        have hbefore : s.registered defaultProviderName = some made :=
          ((hothers _ hnot.1).symm.trans (hnames _ hnot.2).symm).trans hold
        have hle := hdrawn _ _ hbefore
        have hnumber := KnowledgeRuntime.generation_of_eq_nextHandle hmade
        omega
      · intro hno
        rw [hconnect] at hno
        cases hno

/-- Which initialisations with databases keep the link. -/
theorem linked_initSqldb_iff (env : Surroundings κ ρ) (conf : Settings)
    (first : SqlProviderSpec) (rest : List SqlProviderSpec) {s : Process κ ρ}
    (hlinked : Linked s) (hdrawn : DrawnBefore s) :
    Linked (initSqldb env conf first rest s).2 ↔
      ((SqlProviderSpec.validateSpecs (first :: rest)).isOk = true →
        (first.connect env).isOk = true →
        defaultSqldbName ∈ (first :: rest).map SqlProviderSpec.effectiveName) := by
  unfold initSqldb
  cases hvalid : SqlProviderSpec.validateSpecs (first :: rest) with
  | error err => simp [hlinked, Except.isOk, Except.toBool]
  | ok expected =>
      obtain ⟨hnodup, hnames⟩ := SqlProviderSpec.validateSpecs_ok hvalid
      have hisOk : (Except.ok expected : KnowledgeResult (List String)).isOk = true := rfl
      have hresult := installSpecs_result env (defaultNameOf expected first) (first :: rest) s
      simp only [hisOk, true_imp_iff]
      by_cases hdefault : defaultSqldbName ∈ expected
      · have hname : defaultNameOf expected first = defaultSqldbName := if_pos hdefault
        have hinstalled := linked_installSpecs env (first :: rest) hlinked hdrawn
        rw [hname]
        refine ⟨fun _ _ => (hnames _).mp hdefault, fun _ => ?_⟩
        split
        · rename_i hinstall
          rw [hinstall] at hinstalled
          exact hinstalled
        · rename_i hinstall
          rw [hinstall] at hinstalled
          exact linked_settle hinstalled conf hdefault
      · have hname : defaultNameOf expected first = first.effectiveName := if_neg hdefault
        have hnot := mt (hnames _).mpr hdefault
        have hinstalled := linked_installSpecs_first env hlinked hdrawn hnodup hnot
        rw [hname] at hresult ⊢
        have hconnect : (first.connect env).isOk = false ↔
            ((first.connect env).isOk = true →
              defaultSqldbName ∈ (first :: rest).map SqlProviderSpec.effectiveName) := by
          rw [← Bool.not_eq_true]
          exact ⟨fun h h' => absurd h' h, fun h h' => hnot (h h')⟩
        rw [← hconnect, ← hinstalled]
        split
        · rename_i hinstall
          rw [hinstall]
        · rename_i s₁ hinstall
          rw [hinstall] at hinstalled ⊢
          refine ⟨linked_of_settle, fun h => ?_⟩
          -- all databases were connected to, the first one among them
          rw [hinstall, connectAll] at hresult
          have hfailed := hinstalled.mp h
          cases hfirst : first.connect env with
          | error err =>
              rw [hfirst] at hresult
              cases hresult
          | ok pool =>
              rw [hfirst] at hfailed
              cases hfailed

/-- With databases, initialisation draws generations and registers none of others. -/
theorem drawnBefore_initSqldb (env : Surroundings κ ρ) (conf : Settings)
    (first : SqlProviderSpec) (rest : List SqlProviderSpec) {s : Process κ ρ}
    (h : DrawnBefore s) : DrawnBefore (initSqldb env conf first rest s).2 := by
  unfold initSqldb
  split
  · exact h
  · rename_i expected _
    have hinstalled := drawnBefore_installSpecs env (defaultNameOf expected first)
      (first :: rest) h
    split
    · rename_i hinstall
      rw [hinstall] at hinstalled
      exact hinstalled
    · rename_i hinstall
      rw [hinstall] at hinstalled
      exact drawnBefore_settle hinstalled conf expected

omit [DefaultHasher] in
/-- Which initialisations with a Redis server keep the link. -/
theorem linked_initRedis_iff (env : Surroundings κ ρ) (conf : Settings)
    (cfg : RedisProviderSpec) {s : Process κ ρ} (hlinked : Linked s) :
    Linked (initRedis env conf cfg s).2 ↔
      ((env.redis.initWithOpts s.redisRegistry Redis.knowdb cfg.connectionUri cfg.poolSize
        cfg.commandTimeoutMs).1.isOk = true → s.runtime.provider = none) := by
  unfold initRedis
  split
  · rename_i hinit
    rw [hinit]
    refine ⟨fun _ h => ?_, fun _ => hlinked.of_eq rfl rfl⟩
    cases h
  · rename_i registry hinit
    rw [hinit]
    have hpruned := linked_prune_iff hlinked []
    simp only [List.not_mem_nil, or_false] at hpruned
    simp only [Except.isOk, Except.toBool, true_imp_iff]
    rw [← hpruned]
    exact ⟨fun h => h.of_eq rfl rfl, fun h => h.of_eq rfl rfl⟩

omit [DefaultHasher] in
theorem drawnBefore_initRedis (env : Surroundings κ ρ) (conf : Settings)
    (cfg : RedisProviderSpec) {s : Process κ ρ} (h : DrawnBefore s) :
    DrawnBefore (initRedis env conf cfg s).2 := by
  unfold initRedis
  split
  · exact h
  · exact drawnBefore_prune h []

/-- Initialisation with the authority file keeps the link. -/
theorem linked_initAuthority (env : Surroundings κ ρ) (db : Loader.Engine δ)
    (root confPath authorityUri : String) (conf : Settings) {s : Process κ ρ}
    (hlinked : Linked s) (d : δ) :
    Linked (initAuthority env db root confPath authorityUri conf s d).2.1 := by
  obtain ⟨handle, s₁, hinit, hregistered, hprovider, -⟩ :=
    s.initThreadClonedFromAuthority_ok (readOnlyUri authorityUri)
  unfold initAuthority
  split
  · exact hlinked
  · rw [hinit]
    refine linked_settle ?_ conf (List.mem_singleton.mpr rfl)
    rw [linked_iff]
    intro other hother
    rw [hprovider] at hother
    exact hregistered.trans hother

theorem drawnBefore_initAuthority (env : Surroundings κ ρ) (db : Loader.Engine δ)
    (root confPath authorityUri : String) (conf : Settings) {s : Process κ ρ}
    (h : DrawnBefore s) (d : δ) :
    DrawnBefore (initAuthority env db root confPath authorityUri conf s d).2.1 := by
  obtain ⟨handle, s₁, hinit, -⟩ := s.initThreadClonedFromAuthority_ok (readOnlyUri authorityUri)
  have hinstalled := drawnBefore_install h
    (.installProvider .sqliteAuthority
      (DatasourceId.fromSeed .sqliteAuthority (readOnlyUri authorityUri)))
    (fun generation => .ok (.threadCloned (readOnlyUri authorityUri)
      ⟨DatasourceId.fromSeed .sqliteAuthority (readOnlyUri authorityUri), generation⟩))
  unfold initAuthority
  split
  · exact h
  · rw [hinit]
    rw [initThreadClonedFromAuthority] at hinit
    rw [hinit] at hinstalled
    exact drawnBefore_settle hinstalled conf _

end Process

/-! ## Runs -/

section Runs

variable [DefaultHasher]

/-- Which initialisations keep the link. -/
theorem Turn.linked_init_iff (t : Turn κ ρ δ) {s : Process κ ρ} (hlinked : Linked s)
    (hdrawn : DrawnBefore s) (d : δ) : Linked (t.init s d).2.1 ↔ t.KeepsLink s := by
  unfold Turn.KeepsLink
  rcases t.init_cases with ⟨hnone, -, err, hinit⟩ | ⟨conf, hconf, ⟨-, first, rest, hmode, hinit⟩ |
    ⟨-, cfg, hmode, hinit⟩ | ⟨-, hmode, hinit⟩⟩
  · rw [hinit, hnone]
    exact iff_of_true hlinked trivial
  · rw [hinit, hconf]
    simp only [hmode]
    exact Process.linked_initSqldb_iff t.env conf first rest hlinked hdrawn
  · rw [hinit, hconf]
    simp only [hmode]
    exact Process.linked_initRedis_iff t.env conf cfg hlinked
  · rw [hinit, hconf]
    simp only [hmode, iff_true]
    exact Process.linked_initAuthority t.env t.db t.root t.confPath t.authorityUri conf hlinked d

theorem Turn.drawnBefore_init (t : Turn κ ρ δ) {s : Process κ ρ} (h : DrawnBefore s) (d : δ) :
    DrawnBefore (t.init s d).2.1 := by
  rcases t.init_cases with ⟨-, -, err, hinit⟩ | ⟨conf, -, ⟨-, first, rest, -, hinit⟩ |
    ⟨-, cfg, -, hinit⟩ | ⟨-, -, hinit⟩⟩
  · rw [hinit]
    exact h
  · rw [hinit]
    exact Process.drawnBefore_initSqldb t.env conf first rest h
  · rw [hinit]
    exact Process.drawnBefore_initRedis t.env conf cfg h
  · rw [hinit]
    exact Process.drawnBefore_initAuthority t.env t.db t.root t.confPath t.authorityUri conf h d

/-- A step that writes the default slot or the registry of names.  An initialisation finds
the authority file with whatever contents. -/
inductive SetupAction (κ ρ δ : Type) where
  | installProvider (kind : ProviderKind) (datasourceId : DatasourceId)
      (build : Nat → KnowledgeResult (InstalledProvider κ))
  | installProviderNamed (call : InstallCall)
      (build : Nat → KnowledgeResult (InstalledProvider κ))
  | pruneNamedProvidersExcept (keep : List String)
  | initThreadClonedFromKnowdb (turn : Turn κ ρ δ) (contents : δ)

/-- The process after a step, whether the step succeeds or not. -/
def Process.setup (s : Process κ ρ) : SetupAction κ ρ δ → Process κ ρ
  | .installProvider kind datasourceId build =>
      (s.install (.installProvider kind datasourceId) build).2
  | .installProviderNamed call build => (s.install call build).2
  | .pruneNamedProvidersExcept keep =>
      { s with runtime := s.runtime.pruneNamedProvidersExcept keep }
  | .initThreadClonedFromKnowdb turn contents => (turn.init s contents).2.1

/-- A new process, then any of the steps. -/
def setupMachine (κ ρ δ : Type) : Machine (Process κ ρ) (SetupAction κ ρ δ) where
  init s := s = Process.new κ ρ
  step s action := some (s.setup action)

omit [DefaultHasher] in
/-- A step keeps the link. -/
def KeepsLink (s : Process κ ρ) : SetupAction κ ρ δ → Prop
  | .installProvider _ _ _ => True
  | .installProviderNamed call build => InstallKeepsLink s call build
  | .pruneNamedProvidersExcept keep =>
      s.runtime.provider = none ∨ defaultProviderName ∈ keep
  | .initThreadClonedFromKnowdb turn _ => turn.KeepsLink s

/-- The steps that keep the link. -/
theorem linked_setup_iff {s : Process κ ρ} (hlinked : Linked s) (hdrawn : DrawnBefore s)
    (action : SetupAction κ ρ δ) : Linked (s.setup action) ↔ KeepsLink s action := by
  cases action with
  | installProvider kind datasourceId build =>
      have hkeeps : InstallKeepsLink s (.installProvider kind datasourceId) build :=
        fun _ => rfl
      exact iff_of_true ((Process.linked_install_iff hlinked hdrawn _ build).mpr hkeeps) trivial
  | installProviderNamed call build =>
      exact Process.linked_install_iff hlinked hdrawn call build
  | pruneNamedProvidersExcept keep => exact Process.linked_prune_iff hlinked keep
  | initThreadClonedFromKnowdb turn contents =>
      exact turn.linked_init_iff hlinked hdrawn contents

theorem drawnBefore_setup {s : Process κ ρ} (h : DrawnBefore s) (action : SetupAction κ ρ δ) :
    DrawnBefore (s.setup action) := by
  cases action with
  | installProvider kind datasourceId build => exact Process.drawnBefore_install h _ build
  | installProviderNamed call build => exact Process.drawnBefore_install h call build
  | pruneNamedProvidersExcept keep => exact Process.drawnBefore_prune h keep
  | initThreadClonedFromKnowdb turn contents => exact turn.drawnBefore_init h contents

/-- In every run of installs, prunes and initialisations whose steps all keep the link, a
default provider is the one registered under the fixed name, so that a query of the default
provider and one of the provider `default` go to the same handle; and no other step would
keep it so. -/
theorem default_slot_linked {actions : List (SetupAction κ ρ δ)} {s : Process κ ρ}
    (hrun : (setupMachine κ ρ δ).Run KeepsLink actions s) :
    (∀ handle, s.runtime.provider = some handle →
      s.runtime.providerByName defaultProviderName = .ok handle ∧
        s.runtime.resolve (.named defaultProviderName) = s.runtime.resolve .default) ∧
    ∀ action s', (setupMachine κ ρ δ).step s action = some s' →
      (Linked s' ↔ KeepsLink s action) := by
  have hinv : Linked s ∧ DrawnBefore s := by
    refine hrun.stateInvariant (P := fun s => Linked s ∧ DrawnBefore s) ?_ ?_
    · rintro s rfl
      refine ⟨linked_of_none rfl, ?_⟩
      intro name handle hname
      cases hname
    · rintro s action s' ⟨hlinked, hdrawn⟩ hkeeps hstep
      obtain rfl : s.setup action = s' := Option.some.inj hstep
      exact ⟨(linked_setup_iff hlinked hdrawn action).mpr hkeeps, drawnBefore_setup hdrawn action⟩
  refine ⟨?_, ?_⟩
  · intro handle hhandle
    have hnamed := hinv.1 handle hhandle
    refine ⟨hnamed, ?_⟩
    rw [KnowledgeRuntime.resolve, KnowledgeRuntime.resolve, hnamed,
      KnowledgeRuntime.currentHandle, hhandle]
  · intro action s' hstep
    obtain rfl : s.setup action = s' := Option.some.inj hstep
    exact linked_setup_iff hinv.1 hinv.2 action

end Runs

/-- Another provider beside the default one. -/
def installGeo : SetupAction Unit Unit Unit :=
  .installProviderNamed
    { name := "geo", kind := .postgres, datasourceId := ⟨"postgres:geo"⟩, isDefault := false }
    (fun _ => .ok (.other ()))

/-- The link holds after an initialisation with the authority file, the install of another
provider and a prune that keeps the name. -/
theorem default_slot_linked_authority :
    letI := sipHasher
    ∃ s, (setupMachine Unit Unit Unit).Run KeepsLink
        [.initThreadClonedFromKnowdb (turnWith { version := 2 }) (), installGeo,
          .pruneNamedProvidersExcept [defaultProviderName]] s ∧
      s.runtime.provider.isSome = true ∧
      ∀ handle, s.runtime.provider = some handle →
        s.runtime.providerByName defaultProviderName = .ok handle ∧
          s.runtime.resolve (.named defaultProviderName) = s.runtime.resolve .default := by
  let _ := sipHasher
  have hauthority : KeepsLink (Process.new Unit Unit)
      (.initThreadClonedFromKnowdb (turnWith { version := 2 }) ()) := trivial
  have hgeo : ∀ s, KeepsLink s installGeo := fun s _ hname => absurd hname (by decide)
  have hprune : ∀ s : Process Unit Unit, KeepsLink s
      (.pruneNamedProvidersExcept [defaultProviderName] : SetupAction Unit Unit Unit) :=
    fun s => .inr List.mem_cons_self
  have h₀ : (setupMachine Unit Unit Unit).Run KeepsLink [] (Process.new Unit Unit) := .start rfl
  have h₁ := h₀.snoc hauthority rfl
  have h₂ := h₁.snoc (hgeo _) rfl
  have h₃ := h₂.snoc (hprune _) rfl
  exact ⟨_, h₃, rfl, (default_slot_linked h₃).1⟩

/-- Of two databases the first becomes the default provider under its own name, and nothing
is registered under the fixed one. -/
theorem not_default_slot_linked_two_databases :
    letI := sipHasher
    ¬ ∀ (actions : List (SetupAction Unit Unit Unit)) (s : Process Unit Unit),
      (setupMachine Unit Unit Unit).Run Machine.Unguarded actions s →
      ∀ handle, s.runtime.provider = some handle →
        s.runtime.providerByName defaultProviderName = .ok handle ∧
          s.runtime.resolve (.named defaultProviderName) = s.runtime.resolve .default := by
  let _ := sipHasher
  intro h
  have h₀ : (setupMachine Unit Unit Unit).Run Machine.Unguarded [] (Process.new Unit Unit) :=
    .start rfl
  have h₁ := h₀.snoc (a := .initThreadClonedFromKnowdb (turnWith twoDatabases) ()) trivial rfl
  obtain ⟨handle, hhandle⟩ : ∃ handle,
      ((turnWith twoDatabases).init (Process.new Unit Unit) ()).2.1.runtime.provider =
        some handle :=
    Option.isSome_iff_exists.mp rfl
  have hnone : ((turnWith twoDatabases).init (Process.new Unit Unit)
      ()).2.1.runtime.providerByName defaultProviderName =
        .error ⟨.logicError, "knowledge provider 'default' not initialized"⟩ := by
    rfl
  have hnamed := (h _ _ h₁ handle hhandle).1
  cases hnone.symm.trans hnamed

end WpKnowledge
