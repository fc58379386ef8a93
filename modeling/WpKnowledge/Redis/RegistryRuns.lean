import WpKnowledge.Foundation.TaskPool
import WpKnowledge.Redis.Registry

/-!
# The Redis registry under concurrent calls

The registry is behind a lock, and `init_with_opts` gives the lock up while it connects, and
also between finding a connection to share and registering it.  Other calls may register
the same endpoint meanwhile, or remove the last name of it.  Here every section under the
lock is one step of one call, and so are opening a client and connecting; what the endpoint
answers comes with the step.

Main results:

- Theorem {lit}`RegistryTask.step_effect`: what one step of one call does to the registry.
- Theorem {lit}`runAlone_initWithOpts`: the steps of a call, if no other call runs meanwhile,
  are `initWithOpts`.
- Theorem {lit}`inStep_of_run`: an endpoint has a connection exactly if a name refers to it,
  whatever the order of the steps.
- Theorem {lit}`shared_eq_of_returns_error`: no step of a call that returns an error changes
  the registry.
-/

namespace WpKnowledge

open Foundation

namespace RedisRegistry

variable {ρ : Type}

/-! ## Removal -/

/-- Remove a name, and the connection of its endpoint unless another name refers to it. -/
def remove (reg : RedisRegistry ρ) (name : String) : RedisRegistry ρ :=
  match reg.names.lookup name with
  | none => reg
  | some url =>
      let names := reg.names.erase name
      { names
        pools := if names.entries.any fun entry => entry.2 == url then reg.pools
          else reg.pools.erase url }

/-- Remove all names and connections. -/
def removeAll (_ : RedisRegistry ρ) : RedisRegistry ρ := ⟨∅, ∅⟩

/-- `close`. -/
def close (reg : RedisRegistry ρ) : Option String → RedisRegistry ρ
  | some name => reg.remove name
  | none => reg.removeAll

/-! ## Names and connections -/

/-- An endpoint has a connection exactly if a name refers to it. -/
def InStep (reg : RedisRegistry ρ) : Prop :=
  ∀ url, (reg.pools.lookup url).isSome ↔ ∃ name, reg.names.lookup name = some url

theorem inStep_new : (new : RedisRegistry ρ).InStep := by
  intro url
  simp [new]

theorem inStep_removeAll (reg : RedisRegistry ρ) : reg.removeAll.InStep := by
  intro url
  simp [removeAll]

/-- The endpoint of a name is among the values of the map of names. -/
theorem any_entries_iff {names : HashMap String String} {url : String} :
    (names.entries.any fun entry => entry.2 == url) = true ↔
      ∃ name, names.lookup name = some url := by
  simp only [List.any_eq_true, beq_iff_eq]
  constructor
  · rintro ⟨⟨name, _⟩, hmem, rfl⟩
    exact ⟨name, AList.mem_lookup_iff.mpr hmem⟩
  · rintro ⟨name, hname⟩
    exact ⟨⟨name, url⟩, AList.mem_lookup_iff.mp hname, rfl⟩

/-- The names that are registered after a registration. -/
theorem lookup_names_register {reg : RedisRegistry ρ} {name : String}
    (h : reg.names.lookup name = none) (url : String) (pool : RedisPool ρ) (url' : String) :
    (∃ name', (reg.register name url pool).2.names.lookup name' = some url') ↔
      url' = url ∨ ∃ name', reg.names.lookup name' = some url' := by
  rw [names_register h]
  constructor
  · rintro ⟨name', hname'⟩
    by_cases heq : name' = name
    · subst heq
      rw [AList.lookup_insert] at hname'
      exact .inl (Option.some.inj hname').symm
    · rw [AList.lookup_insert_ne heq] at hname'
      exact .inr ⟨name', hname'⟩
  · rintro (rfl | ⟨name', hname'⟩)
    · exact ⟨name, AList.lookup_insert _⟩
    · have hne : name' ≠ name := by
        rintro rfl
        rw [h] at hname'
        cases hname'
      exact ⟨name', by rw [AList.lookup_insert_ne hne, hname']⟩

/-- The endpoints that have a connection after a registration. -/
theorem isSome_pools_register {reg : RedisRegistry ρ} {name : String}
    (h : reg.names.lookup name = none) (url : String) (pool : RedisPool ρ) (url' : String) :
    ((reg.register name url pool).2.pools.lookup url').isSome ↔
      url' = url ∨ (reg.pools.lookup url').isSome := by
  by_cases hurl : (reg.pools.lookup url).isSome
  · have hkept : (reg.register name url pool).2.pools = reg.pools := by
      simp [register, h, hurl]
    rw [hkept]
    constructor
    · exact .inr
    · rintro (rfl | hsome)
      · exact hurl
      · exact hsome
  · have hadded : (reg.register name url pool).2.pools = reg.pools.insert url pool := by
      simp [register, h, hurl]
    rw [hadded]
    by_cases heq : url' = url
    · subst heq
      simp
    · simp [heq, AList.lookup_insert_ne heq]

/-- A registration keeps names and connections in step. -/
theorem InStep.register {reg : RedisRegistry ρ} (hreg : reg.InStep) {name : String}
    (h : reg.names.lookup name = none) (url : String) (pool : RedisPool ρ) :
    (reg.register name url pool).2.InStep := by
  intro url'
  rw [isSome_pools_register h, lookup_names_register h, hreg url']

/-- A removal keeps names and connections in step. -/
theorem InStep.remove {reg : RedisRegistry ρ} (hreg : reg.InStep) (name : String) :
    (reg.remove name).InStep := by
  unfold RedisRegistry.remove
  cases hname : reg.names.lookup name with
  | none => exact hreg
  | some url =>
      intro url'
      dsimp only
      -- the names of any other endpoint are the same as before
      have hothers : url' ≠ url → ((∃ name', (reg.names.erase name).lookup name' = some url') ↔
          ∃ name', reg.names.lookup name' = some url') := by
        intro hne
        refine exists_congr fun name' => ?_
        by_cases heq : name' = name
        · subst heq
          simp [hname, Ne.symm hne]
        · rw [AList.lookup_erase_ne heq]
      split
      · rename_i hany
        by_cases heq : url' = url
        · subst heq
          exact iff_of_true ((hreg _).mpr ⟨name, hname⟩) (any_entries_iff.mp hany)
        · rw [hreg url', hothers heq]
      · rename_i hnone
        by_cases heq : url' = url
        · subst heq
          refine iff_of_false (by simp) fun hsome => hnone (any_entries_iff.mpr hsome)
        · rw [AList.lookup_erase_ne heq, hreg url', hothers heq]

theorem InStep.close {reg : RedisRegistry ρ} (hreg : reg.InStep) (name? : Option String) :
    (reg.close name?).InStep := by
  cases name? with
  | some name => exact hreg.remove name
  | none => exact inStep_removeAll reg

/-- Names and connections in step, every registered name resolves to the connection of its
endpoint. -/
theorem InStep.resolve {reg : RedisRegistry ρ} (hreg : reg.InStep) {name url : String}
    (h : reg.names.lookup name = some url) :
    ∃ pool, reg.pools.lookup url = some pool ∧ reg.resolve name = .ok pool := by
  obtain ⟨pool, hpool⟩ := Option.isSome_iff_exists.mp ((hreg url).mpr ⟨name, h⟩)
  exact ⟨pool, hpool, by simp [RedisRegistry.resolve, h, hpool]⟩

end RedisRegistry

/-! ## Calls -/

/-- A call that changes the registry. -/
inductive RegistryCall where
  | initWithOpts (name url : String) (poolSize : Option Nat) (commandTimeoutMs : Nat)
  | close (name? : Option String)
deriving DecidableEq

/-- Where an initialisation stands. -/
inductive InitPhase (ρ : Type) where
  /-- Before the scheme is checked and a connection to share is looked up. -/
  | lookup
  /-- A connection to share was found, and the lock given up. -/
  | reuse (existing : RedisPool ρ)
  | openClient
  | connect
  /-- Connected, before the lock is taken again. -/
  | add (pool : RedisPool ρ)

/-- A call that is under way, or what it has returned. -/
inductive RegistryTask (ρ : Type) where
  | init (name url : String) (poolSize : Option Nat) (commandTimeoutMs : Nat)
      (phase : InitPhase ρ)
  | close (name? : Option String)
  | done (result : KnowledgeResult Unit)

/-- What the endpoint answers in a step, where it is asked. -/
inductive RegistryInput (ρ : Type) where
  | none
  | opened (answer : Except String Unit)
  | connected (answer : Except String ρ)

variable {ρ : Type}

/-- The call at its start. -/
def RegistryCall.start : RegistryCall → RegistryTask ρ
  | .initWithOpts name url poolSize commandTimeoutMs =>
      .init name url poolSize commandTimeoutMs .lookup
  | .close name? => .close name?

/-- `register` in its section under the lock, which the call returns from. -/
def RedisRegistry.registerAndReturn (reg : RedisRegistry ρ) (name url : String)
    (pool : RedisPool ρ) : RedisRegistry ρ × RegistryTask ρ :=
  ((reg.register name url pool).2, .done (reg.register name url pool).1)

/-- One step of a call. -/
def RegistryTask.step (reg : RedisRegistry ρ) :
    RegistryTask ρ → RegistryInput ρ → Option (RedisRegistry ρ × RegistryTask ρ)
  | .init name url poolSize commandTimeoutMs .lookup, .none =>
      if RedisEndpoints.isRedisUrl url then
        match reg.pools.lookup url with
        | some existing =>
            some (reg, .init name url poolSize commandTimeoutMs (.reuse existing))
        | none => some (reg, .init name url poolSize commandTimeoutMs .openClient)
      else some (reg, .done (.error ⟨.coreConf, "invalid redis url: '" ++ url ++ "'"⟩))
  | .init name url _ _ (.reuse existing), .none =>
      some (reg.registerAndReturn name url existing)
  | .init name url poolSize commandTimeoutMs .openClient, .opened answer =>
      match answer with
      | .error err => some (reg, .done (.error
          ⟨.coreConf, "redis client create failed for '" ++ url ++ "': " ++ err⟩))
      | .ok () => some (reg, .init name url poolSize commandTimeoutMs .connect)
  | .init name url poolSize commandTimeoutMs .connect, .connected answer =>
      match answer with
      | .error err => some (reg, .done (.error
          ⟨.coreConf, "redis connect failed for '" ++ url ++ "': " ++ err⟩))
      | .ok conn => some (reg, .init name url poolSize commandTimeoutMs
          (.add { conn, commandTimeout := Duration.fromMillis commandTimeoutMs }))
  | .init name url _ _ (.add pool), .none =>
      -- another call may have connected to the endpoint meanwhile
      match reg.pools.lookup url with
      | some existing => some (reg.registerAndReturn name url existing)
      | none => some (reg.registerAndReturn name url pool)
  | .close name?, .none => some (reg.close name?, .done (.ok ()))
  | _, _ => none

/-- Any number of calls over one registry. -/
def registrySystem (ρ : Type) :
    TaskSystem (RedisRegistry ρ) (RegistryTask ρ) Unit RegistryCall (RegistryInput ρ) Empty where
  start := RegistryCall.start
  step _ reg task input := (task.step reg input).map fun r => (r.1, r.2, none)
  env reg _ := reg

/-- The calls of a process, from its start. -/
def registryMachine (ρ : Type) :=
  (registrySystem ρ).machine fun reg => reg = .new

/-! ## One step -/

/-- What one step of a call does to the registry, and what becomes of the call. -/
inductive RegistryEffect (reg : RedisRegistry ρ) : RedisRegistry ρ → RegistryTask ρ → Prop
  | kept (task' : RegistryTask ρ) : RegistryEffect reg reg task'
  | registered (name url : String) (pool : RedisPool ρ)
      (hname : reg.names.lookup name = none) :
      RegistryEffect reg (reg.register name url pool).2 (.done (.ok ()))
  | closed (name? : Option String) : RegistryEffect reg (reg.close name?) (.done (.ok ()))

/-- A registration either registers the name or fails and changes nothing. -/
theorem RedisRegistry.registerAndReturn_effect (reg : RedisRegistry ρ) (name url : String)
    (pool : RedisPool ρ) :
    RegistryEffect reg (reg.registerAndReturn name url pool).1
      (reg.registerAndReturn name url pool).2 := by
  cases hname : reg.names.lookup name with
  | none =>
      have hok : (reg.register name url pool).1 = .ok () := by
        simp [register, hname]
      simpa [registerAndReturn, hok] using RegistryEffect.registered name url pool hname
  | some other =>
      have hkept : (reg.register name url pool).2 = reg := by
        simp [register, hname]
      simpa [registerAndReturn, hkept] using (RegistryEffect.kept _ : RegistryEffect reg reg _)

theorem RegistryTask.step_effect {reg reg' : RedisRegistry ρ} {task task' : RegistryTask ρ}
    {input : RegistryInput ρ} (h : task.step reg input = some (reg', task')) :
    RegistryEffect reg reg' task' := by
  have hregister : ∀ {name url : String} {pool : RedisPool ρ},
      some (reg.registerAndReturn name url pool) = some (reg', task') →
        RegistryEffect reg reg' task' := by
    intro name url pool heq
    have heffect := reg.registerAndReturn_effect name url pool
    rwa [Option.some.inj heq] at heffect
  unfold RegistryTask.step at h
  split at h
  case h_1 =>
    split at h
    · split at h
      · cases h
        exact .kept _
      · cases h
        exact .kept _
    · cases h
      exact .kept _
  case h_2 => exact hregister h
  case h_3 =>
    split at h
    · cases h
      exact .kept _
    · cases h
      exact .kept _
  case h_4 =>
    split at h
    · cases h
      exact .kept _
    · cases h
      exact .kept _
  case h_5 =>
    split at h
    · exact hregister h
    · exact hregister h
  case h_6 =>
    cases h
    exact .closed _
  case h_7 => cases h

/-- A step keeps names and connections in step. -/
theorem RegistryEffect.inStep {reg reg' : RedisRegistry ρ} {task' : RegistryTask ρ}
    (h : RegistryEffect reg reg' task') (hreg : reg.InStep) : reg'.InStep := by
  cases h with
  | kept => exact hreg
  | registered name url pool hname => exact hreg.register hname url pool
  | closed name? => exact hreg.close name?

/-- A step after which the call has not returned, or has returned an error, changes
nothing. -/
theorem RegistryEffect.eq_of_ne_ok {reg reg' : RedisRegistry ρ} {task' : RegistryTask ρ}
    (h : RegistryEffect reg reg' task') (hne : task' ≠ .done (.ok ())) : reg' = reg := by
  cases h with
  | kept => rfl
  | registered => exact absurd rfl hne
  | closed => exact absurd rfl hne

/-- A call that has returned takes no step. -/
theorem RegistryTask.step_done (reg : RedisRegistry ρ) (result : KnowledgeResult Unit)
    (input : RegistryInput ρ) : (RegistryTask.done result).step reg input = none := by
  cases input <;> rfl

/-- The steps of one call when no other call runs between them. -/
def RegistryTask.runAlone (reg : RedisRegistry ρ) (task : RegistryTask ρ)
    (inputs : List (RegistryInput ρ)) : Option (RedisRegistry ρ × RegistryTask ρ) :=
  inputs.foldlM (fun r input => r.2.step r.1 input) (reg, task)

/-- Alone, the steps of an initialisation do what `initWithOpts` does. -/
theorem runAlone_initWithOpts (endpoints : RedisEndpoints ρ) (reg : RedisRegistry ρ)
    (name url : String) (poolSize : Option Nat) (commandTimeoutMs : Nat) :
    ∃ inputs, (∀ input ∈ inputs, input = .none ∨ input = .opened (endpoints.clientOpens url) ∨
        input = .connected (endpoints.connect url)) ∧
      (RegistryCall.start (.initWithOpts name url poolSize commandTimeoutMs)).runAlone reg inputs =
        some ((endpoints.initWithOpts reg name url poolSize commandTimeoutMs).2,
          .done (endpoints.initWithOpts reg name url poolSize commandTimeoutMs).1) := by
  unfold RedisEndpoints.initWithOpts
  by_cases hscheme : RedisEndpoints.isRedisUrl url = true
  · cases hpool : reg.pools.lookup url with
    | some existing =>
        refine ⟨[.none, .none], by simp, ?_⟩
        simp [RegistryTask.runAlone, RegistryCall.start, RegistryTask.step, hscheme, hpool,
          RedisRegistry.registerAndReturn]
    | none =>
        cases hopened : endpoints.clientOpens url with
        | error err =>
            refine ⟨[.none, .opened (.error err)], by simp, ?_⟩
            simp [RegistryTask.runAlone, RegistryCall.start, RegistryTask.step, hscheme, hpool]
        | ok =>
            cases hconnected : endpoints.connect url with
            | error err =>
                refine ⟨[.none, .opened (.ok ()), .connected (.error err)], by simp, ?_⟩
                simp [RegistryTask.runAlone, RegistryCall.start, RegistryTask.step, hscheme, hpool]
            | ok conn =>
                refine ⟨[.none, .opened (.ok ()), .connected (.ok conn), .none], by simp, ?_⟩
                simp [RegistryTask.runAlone, RegistryCall.start, RegistryTask.step, hscheme, hpool,
                  RedisRegistry.registerAndReturn]
  · refine ⟨[.none], by simp, ?_⟩
    simp [RegistryTask.runAlone, RegistryCall.start, RegistryTask.step, hscheme]

/-! ## Whole runs -/

/-- A step of the machine that a call takes. -/
theorem registry_run_step {s s' : Pool (RedisRegistry ρ) (RegistryTask ρ) Unit} {tid : Nat}
    {input : RegistryInput ρ} (h : (registryMachine ρ).step s (.run tid input) = some s') :
    ∃ task reg' task', s.tasks[tid]? = some task ∧
      task.step s.shared input = some (reg', task') ∧
      s'.shared = reg' ∧ s'.tasks = s.tasks.set tid task' := by
  obtain ⟨task, reg', task', e, htask, hstep, rfl⟩ := TaskSystem.advance_run_iff.mp h
  obtain ⟨⟨reg'', task''⟩, htaken, heq⟩ := Option.map_eq_some_iff.mp hstep
  cases heq
  exact ⟨task, reg'', task'', htask, htaken, rfl, rfl⟩

theorem inStep_of_run {as : List (PoolAction RegistryCall (RegistryInput ρ) Empty)}
    {s : Pool (RedisRegistry ρ) (RegistryTask ρ) Unit}
    (h : (registryMachine ρ).Run Machine.Unguarded as s) : s.shared.InStep := by
  refine Machine.Run.stateInvariant (P := fun s => s.shared.InStep) ?_ ?_ h
  · rintro s ⟨hnew, -, -⟩
    rw [hnew]
    exact RedisRegistry.inStep_new
  · intro s a s' hs _ hstep
    cases a with
    | spawn call =>
        cases hstep
        exact hs
    | env d => cases d
    | run tid input =>
        obtain ⟨task, reg', task', -, htaken, rfl, -⟩ := registry_run_step hstep
        exact (RegistryTask.step_effect htaken).inStep hs

/-- A call that has returned keeps its result. -/
theorem done_of_steps {bs : List (PoolAction RegistryCall (RegistryInput ρ) Empty)}
    {s s' : Pool (RedisRegistry ρ) (RegistryTask ρ) Unit} {tid : Nat}
    {result : KnowledgeResult Unit} (h : (registryMachine ρ).Steps Machine.Unguarded s bs s')
    (hdone : s.tasks[tid]? = some (.done result)) : s'.tasks[tid]? = some (.done result) := by
  induction h with
  | refl => exact hdone
  | @snoc _ _ _ a _ _ hstep hdone₁ =>
      cases a with
      | spawn call =>
          cases hstep
          rw [List.getElem?_append_left (List.getElem?_eq_some_iff.mp hdone₁).1]
          exact hdone₁
      | env d => cases d
      | run other input =>
          obtain ⟨task, reg', task', htask, htaken, -, htasks⟩ := registry_run_step hstep
          rw [htasks, getElem?_set_of_getElem? htask]
          split
          · rename_i heq
            subst heq
            rw [hdone₁] at htask
            cases htask
            rw [RegistryTask.step_done] at htaken
            cases htaken
          · exact hdone₁

/-- A call that returns an error in the end changes nothing in any of its steps. -/
theorem shared_eq_of_returns_error
    {bs : List (PoolAction RegistryCall (RegistryInput ρ) Empty)}
    {s s' s'' : Pool (RedisRegistry ρ) (RegistryTask ρ) Unit} {tid : Nat}
    {input : RegistryInput ρ} {err : KnowledgeError}
    (hstep : (registryMachine ρ).step s (.run tid input) = some s')
    (hsteps : (registryMachine ρ).Steps Machine.Unguarded s' bs s'')
    (herr : s''.tasks[tid]? = some (.done (.error err))) : s'.shared = s.shared := by
  obtain ⟨task, reg', task', htask, htaken, rfl, htasks⟩ := registry_run_step hstep
  refine (RegistryTask.step_effect htaken).eq_of_ne_ok ?_
  rintro rfl
  have hdone : s'.tasks[tid]? = some (.done (.ok ())) := by
    rw [htasks, getElem?_set_of_getElem? htask, if_pos rfl]
  rw [done_of_steps hsteps hdone] at herr
  cases herr

/-- **The registry stays well formed**, whatever calls run and in whatever order their
sections under the lock take place: a registered name resolves, a connection is that of a
registered name, the names of one endpoint resolve to the same connection, and no step of a
call that returns an error in the end changes the registry. -/
theorem registry_wellFormed_of_run
    {as : List (PoolAction RegistryCall (RegistryInput ρ) Empty)}
    {s : Pool (RedisRegistry ρ) (RegistryTask ρ) Unit}
    (h : (registryMachine ρ).Run Machine.Unguarded as s) :
    (∀ name url, s.shared.names.lookup name = some url →
      ∃ pool, s.shared.resolve name = .ok pool) ∧
    (∀ url pool, s.shared.pools.lookup url = some pool →
      ∃ name, s.shared.names.lookup name = some url ∧ s.shared.resolve name = .ok pool) ∧
    (∀ name name' url, s.shared.names.lookup name = some url →
      s.shared.names.lookup name' = some url →
      s.shared.resolve name = s.shared.resolve name') ∧
    ∀ tid input s' bs s'' err, (registryMachine ρ).step s (.run tid input) = some s' →
      (registryMachine ρ).Steps Machine.Unguarded s' bs s'' →
      s''.tasks[tid]? = some (.done (.error err)) → s'.shared = s.shared := by
  have hinStep := inStep_of_run h
  refine ⟨fun name url hname => ?_, fun url pool hpool => ?_, fun name name' url hname hname' => ?_,
    fun tid input s' bs s'' err hstep hsteps herr => ?_⟩
  · obtain ⟨pool, -, hresolve⟩ := hinStep.resolve hname
    exact ⟨pool, hresolve⟩
  · obtain ⟨name, hname⟩ := (hinStep url).mp (by simp [hpool])
    obtain ⟨found, hfound, hresolve⟩ := hinStep.resolve hname
    rw [hpool] at hfound
    cases hfound
    exact ⟨name, hname, hresolve⟩
  · obtain ⟨pool, hpool, hresolve⟩ := hinStep.resolve hname
    obtain ⟨pool', hpool', hresolve'⟩ := hinStep.resolve hname'
    rw [hpool] at hpool'
    cases hpool'
    rw [hresolve, hresolve']
  · exact shared_eq_of_returns_error hstep hsteps herr

/-- The call has returned an error. -/
def RegistryTask.failed : RegistryTask ρ → Bool
  | .done (.error _) => true
  | _ => false

/-- Two calls connect to one endpoint at the same time, and a third finds their connection;
before it registers the name both names are removed, and a fourth takes the name first. -/
def sharedEndpointRun : List (PoolAction RegistryCall (RegistryInput Nat) Empty) :=
  [.spawn (.initWithOpts "a" "redis://one" none 100),
    .spawn (.initWithOpts "b" "redis://one" none 100),
    .run 0 .none, .run 1 .none, .run 0 (.opened (.ok ())), .run 1 (.opened (.ok ())),
    .run 0 (.connected (.ok 7)), .run 1 (.connected (.ok 8)), .run 1 .none, .run 0 .none,
    .spawn (.initWithOpts "c" "redis://one" (some 4) 100), .run 2 .none,
    .spawn (.close (some "a")), .run 3 .none, .spawn (.close (some "b")), .run 4 .none,
    .spawn (.initWithOpts "c" "rediss://two" none 100), .run 5 .none,
    .run 5 (.opened (.ok ())), .run 5 (.connected (.ok 9)), .run 5 .none]

/-- The third call finds the name taken, and has changed nothing. -/
theorem registry_wellFormed_of_sharedEndpointRun :
    ∃ s, (registryMachine Nat).Run Machine.Unguarded sharedEndpointRun s ∧
      (∃ pool, s.shared.resolve "c" = .ok pool) ∧
      ∃ s' task, (registryMachine Nat).step s (.run 2 .none) = some s' ∧
        s'.tasks[2]? = some task ∧ task.failed = true ∧ s'.shared = s.shared := by
  have hinit : (registryMachine Nat).init ⟨.new, [], []⟩ := ⟨rfl, rfl, rfl⟩
  have hexec : ((registryMachine Nat).exec Machine.Unguarded ⟨.new, [], []⟩
      sharedEndpointRun).any (fun s => s.shared.names.lookup "c" == some "rediss://two" &&
        ((registryMachine Nat).step s (.run 2 .none)).any fun s' =>
          s'.tasks[2]?.any RegistryTask.failed) = true := by
    decide +kernel
  obtain ⟨s, hrun, hcheck⟩ := Machine.exists_run_of_exec_any hinit hexec
  obtain ⟨hname, hlast⟩ := (Bool.and_eq_true _ _).mp hcheck
  obtain ⟨s', hstep, htask⟩ := (Option.any_eq_true _ _).mp hlast
  obtain ⟨task, htask, hfailed⟩ := (Option.any_eq_true _ _).mp htask
  obtain ⟨hresolves, -, -, herror⟩ := registry_wellFormed_of_run hrun
  refine ⟨s, hrun, hresolves "c" "rediss://two" (beq_iff_eq.mp hname), s', task, hstep, htask,
    hfailed, ?_⟩
  match task, hfailed with
  | .done (.error err), _ => exact herror 2 .none s' [] s' err hstep (.refl s') htask

end WpKnowledge
