import WpKnowledge.Foundation.Machine
import WpKnowledge.Model.Query

/-!
# The refresh service

Each refreshed table has a task of its own.  On every tick it reloads the table, puts the
new generation into a shared store and sends a signal without data through a channel of
limited capacity.  The host receives the signals, and for each of them asks the store for
the present generation of the table.

The tasks, the channel and the host are one machine: every action is one step of one of
them between two points where another may run.  What a reload returns comes with the
action, so that a run may have any pattern of successes and failures.

Main results:

- Theorem {lit}`nodup_keptSpecs`: the service starts one task for each name.
- Theorem {lit}`effect_of_runTask`: what a step of a task does.
- Theorem {lit}`failed_reload_changes_nothing`: a failed reload leaves everything but the
  task as it is.
-/

namespace WpKnowledge

/-! ## The store -/

/-- The rows of a table. -/
structure TableData where
  name : String
  rows : List RowData

/-- A generation, as it is shared: which task made it, in which of its successful
reloads, tells it from every other; a seeded one is made by none. -/
structure Generation where
  data : TableData
  reload : Option (Nat × Nat)

/-- The number of the reload that made a generation; a seeded one is older than all. -/
def Generation.serial (g : Generation) : Nat :=
  (g.reload.map Prod.snd).getD 0

/-- The present generation of each table. -/
structure TableStore where
  current : HashMap String Generation

namespace TableStore

/-- A store without tables. -/
def empty : TableStore := ⟨∅⟩

/-- The present generation of a table. -/
def snapshot (store : TableStore) (name : String) : Option Generation :=
  store.current.lookup name

/-- Put a generation in the place of the present one. -/
def insert (store : TableStore) (g : Generation) : TableStore :=
  ⟨store.current.insert g.data.name g⟩

theorem snapshot_insert (store : TableStore) (g : Generation) (name : String) :
    (store.insert g).snapshot name =
      if name = g.data.name then some g else store.snapshot name := by
  by_cases h : name = g.data.name
  · subst h
    rw [if_pos rfl]
    exact AList.lookup_insert store.current
  · rw [if_neg h]
    exact AList.lookup_insert_ne h

/-- The store the host has filled before. -/
def seeded (seeds : List TableData) : TableStore :=
  seeds.foldl (fun store data => store.insert ⟨data, none⟩) empty

/-- Seeding puts nothing into a store but seeded generations. -/
theorem reload_of_foldl_insert {store : TableStore}
    (hstore : ∀ name g, store.snapshot name = some g → g.reload = none) (seeds : List TableData)
    {name : String} {g : Generation}
    (h : (seeds.foldl (fun store data => store.insert ⟨data, none⟩) store).snapshot name =
      some g) : g.reload = none := by
  induction seeds generalizing store with
  | nil => exact hstore name g h
  | cons data seeds ih =>
      refine ih ?_ h
      intro name g hg
      rw [snapshot_insert] at hg
      by_cases hname : name = data.name
      · rw [if_pos hname] at hg
        rw [← Option.some.inj hg]
      · rw [if_neg hname] at hg
        exact hstore name g hg

/-- A seeded generation was made by no task. -/
theorem reload_of_seeded {seeds : List TableData} {name : String} {g : Generation}
    (h : (seeded seeds).snapshot name = some g) : g.reload = none :=
  reload_of_foldl_insert (fun _ _ hg => by cases hg) seeds h

end TableStore

/-! ## Tasks -/

/-- How many signals wait at most. -/
def defaultSignalCapacity : Nat := 1024

/-- What a task refreshes, and how often, in nanoseconds. -/
structure RefreshSpec where
  name : String
  interval : Nat
deriving DecidableEq, Repr

/-- Where a task stands. -/
inductive RefreshPhase where
  /-- Not polled yet. -/
  | spawned
  /-- Before the tick that fires at once and is skipped. -/
  | firstTick
  | waiting
  | reloading
  /-- Reloaded, and not yet in the store. -/
  | inserting (rows : List RowData)
  /-- In the store, and no signal sent yet. -/
  | sending
  | finished

/-- A task: what it refreshes, where it stands, and how often it has reloaded. -/
structure RefreshTask where
  spec : RefreshSpec
  phase : RefreshPhase
  reloads : Nat

/-- The generation of the last successful reload, if it returned these rows. -/
def RefreshTask.generation (t : RefreshTask) (k : Nat) (rows : List RowData) : Generation :=
  { data := { name := t.spec.name, rows }, reload := some (k, t.reloads) }

/-- What happened to generations and signals; no step reads it. -/
inductive RefreshEvent where
  | reloaded (g : Generation)
  | inserted (g : Generation)
  /-- A signal went into the channel, or was lost. -/
  | signal (name : String) (delivered : Bool)

/-- The service and its host. -/
structure RefreshService where
  tasks : List RefreshTask
  store : TableStore
  /-- The signals that wait in the channel. -/
  signals : List String
  receiverOpen : Bool
  /-- The table of a signal that was received, until its generation is pulled. -/
  received : Option String
  /-- What the host keeps of each table. -/
  mirror : String → Option Generation
  log : List RefreshEvent

/-- What a task may do. -/
inductive TaskAction where
  | poll
  | tick
  | reload (result : KnowledgeResult (List RowData))
  | insert
  | send
  /-- The task is aborted where it waits for something. -/
  | abort

/-- What may happen. -/
inductive RefreshAction where
  | task (k : Nat) (action : TaskAction)
  | receive
  | pull
  /-- The host takes no further signals, but those that wait. -/
  | close
  /-- The host drops the receiver, with the signals that wait. -/
  | hangUp

namespace RefreshService

/-- The first specification of each name. -/
def keptSpecs : List String → List RefreshSpec → List RefreshSpec
  | _, [] => []
  | seen, spec :: specs =>
      if spec.name ∈ seen then keptSpecs seen specs
      else spec :: keptSpecs (spec.name :: seen) specs

/-- The service as it is started on a store. -/
def spawnWithStore (specs : List RefreshSpec) (store : TableStore)
    (mirror : String → Option Generation) : RefreshService where
  tasks := (keptSpecs [] specs).map fun spec => { spec, phase := .spawned, reloads := 0 }
  store
  signals := []
  receiverOpen := true
  received := none
  mirror
  log := []

/-- A task in the place of one. -/
def setTask (s : RefreshService) (k : Nat) (t : RefreshTask) : RefreshService :=
  { s with tasks := s.tasks.set k t }

/-- A signal is sent without waiting: it is lost if the channel is full, and the task
ends if nobody receives any more. -/
def trySend (s : RefreshService) (k : Nat) (t : RefreshTask) : RefreshService :=
  if s.receiverOpen = false then
    { s.setTask k { t with phase := .finished } with log := s.log ++ [.signal t.spec.name false] }
  else if s.signals.length < defaultSignalCapacity then
    { s.setTask k { t with phase := .waiting } with
      signals := s.signals ++ [t.spec.name]
      log := s.log ++ [.signal t.spec.name true] }
  else
    { s.setTask k { t with phase := .waiting } with log := s.log ++ [.signal t.spec.name false] }

/-- One step of a task. -/
def runTask (s : RefreshService) (k : Nat) (t : RefreshTask) :
    TaskAction → Option RefreshService
  | .poll =>
      match t.phase with
      | .spawned =>
          -- an interval of zero is refused by the task itself
          some (s.setTask k
            { t with phase := if t.spec.interval = 0 then .finished else .firstTick })
      | _ => none
  | .tick =>
      match t.phase with
      | .firstTick => some (s.setTask k { t with phase := .waiting })
      | .waiting => some (s.setTask k { t with phase := .reloading })
      | _ => none
  | .reload result =>
      match t.phase with
      | .reloading =>
          match result with
          | .error _ => some (s.setTask k { t with phase := .waiting })
          | .ok rows =>
              let reloaded := { t with phase := .inserting rows, reloads := t.reloads + 1 }
              some { s.setTask k reloaded with
                log := s.log ++ [.reloaded (reloaded.generation k rows)] }
      | _ => none
  | .insert =>
      match t.phase with
      | .inserting rows =>
          some { s.setTask k { t with phase := .sending } with
            store := s.store.insert (t.generation k rows)
            log := s.log ++ [.inserted (t.generation k rows)] }
      | _ => none
  | .send =>
      match t.phase with
      | .sending => some (s.trySend k t)
      | _ => none
  | .abort =>
      match t.phase with
      | .spawned | .firstTick | .waiting | .reloading =>
          some (s.setTask k { t with phase := .finished })
      | _ => none

/-- One step. -/
def step (s : RefreshService) : RefreshAction → Option RefreshService
  | .task k action => (s.tasks[k]?).bind fun t => s.runTask k t action
  | .receive =>
      match s.received, s.signals with
      | none, name :: signals => some { s with received := some name, signals }
      | _, _ => none
  | .pull =>
      s.received.map fun name =>
        { s with
          received := none
          mirror := Function.update s.mirror name (s.store.snapshot name) }
  | .close => some { s with receiverOpen := false }
  | .hangUp =>
      some { s with
        receiverOpen := false
        signals := []
        log := s.log ++ s.signals.map fun name => .signal name false }

/-- The service, started with specifications on a seeded store. -/
def machine (specs : List RefreshSpec) (seeds : List TableData)
    (mirror : String → Option Generation) :
    Foundation.Machine RefreshService RefreshAction where
  init s := s = spawnWithStore specs (.seeded seeds) mirror
  step := step

/-! ## What a step does -/

/-- Each kept name is new, and there is no other of it. -/
theorem nodup_keptSpecs (seen : List String) (specs : List RefreshSpec) :
    ((keptSpecs seen specs).map RefreshSpec.name).Nodup ∧
      ∀ name ∈ (keptSpecs seen specs).map RefreshSpec.name, name ∉ seen := by
  induction specs generalizing seen with
  | nil => exact ⟨List.nodup_nil, by simp [keptSpecs]⟩
  | cons spec specs ih =>
      rw [keptSpecs]
      by_cases hseen : spec.name ∈ seen
      · rw [if_pos hseen]
        exact ih seen
      · rw [if_neg hseen, List.map_cons, List.nodup_cons, List.forall_mem_cons]
        obtain ⟨hnodup, hnew⟩ := ih (spec.name :: seen)
        refine ⟨⟨?_, hnodup⟩, hseen, ?_⟩
        · intro hmem
          exact hnew spec.name hmem List.mem_cons_self
        · intro name hmem hold
          exact hnew name hmem (List.mem_cons_of_mem spec.name hold)

end RefreshService

/-- A task has nothing on its way: no generation for the store and no signal. -/
def RefreshPhase.Quiet : RefreshPhase → Prop
  | .inserting _ | .sending => False
  | _ => True

instance (phase : RefreshPhase) : Decidable phase.Quiet :=
  match phase with
  | .inserting _ | .sending => .isFalse id
  | .spawned | .firstTick | .waiting | .reloading | .finished => .isTrue trivial

namespace RefreshService

/-- What a step of a task makes of the service. -/
inductive TaskEffect (s : RefreshService) (k : Nat) (t : RefreshTask) : RefreshService → Prop
  | quiet {phase : RefreshPhase} (hbefore : t.phase.Quiet) (hafter : phase.Quiet) :
      TaskEffect s k t (s.setTask k { t with phase })
  | reloaded {rows : List RowData} {t' : RefreshTask} (hbefore : t.phase.Quiet)
      (ht' : t' = { t with phase := .inserting rows, reloads := t.reloads + 1 }) :
      TaskEffect s k t
        { s.setTask k t' with log := s.log ++ [.reloaded (t'.generation k rows)] }
  | inserted {rows : List RowData} (hbefore : t.phase = .inserting rows) :
      TaskEffect s k t { s.setTask k { t with phase := .sending } with
        store := s.store.insert (t.generation k rows)
        log := s.log ++ [.inserted (t.generation k rows)] }
  | delivered (hbefore : t.phase = .sending) :
      TaskEffect s k t { s.setTask k { t with phase := .waiting } with
        signals := s.signals ++ [t.spec.name]
        log := s.log ++ [.signal t.spec.name true] }
  | dropped {phase : RefreshPhase} (hbefore : t.phase = .sending) (hafter : phase.Quiet) :
      TaskEffect s k t { s.setTask k { t with phase } with
        log := s.log ++ [.signal t.spec.name false] }

/-- What sending a signal does. -/
theorem effect_of_trySend (s : RefreshService) (k : Nat) {t : RefreshTask}
    (h : t.phase = .sending) : TaskEffect s k t (s.trySend k t) := by
  rw [trySend]
  by_cases hopen : s.receiverOpen = false
  · rw [if_pos hopen]
    exact .dropped h trivial
  · rw [if_neg hopen]
    by_cases hroom : s.signals.length < defaultSignalCapacity
    · rw [if_pos hroom]
      exact .delivered h
    · rw [if_neg hroom]
      exact .dropped h trivial

/-- What a step of a task does. -/
theorem effect_of_runTask {s s' : RefreshService} {k : Nat} {t : RefreshTask}
    {action : TaskAction} (h : s.runTask k t action = some s') : TaskEffect s k t s' := by
  cases action with
  | poll =>
      cases hphase : t.phase <;> simp only [runTask, hphase, reduceCtorEq] at h
      rw [← Option.some.inj h]
      refine .quiet (hphase ▸ trivial) ?_
      split_ifs <;> trivial
  | tick =>
      cases hphase : t.phase <;> simp only [runTask, hphase, reduceCtorEq] at h
      all_goals
        rw [← Option.some.inj h]
        exact .quiet (hphase ▸ trivial) trivial
  | reload result =>
      cases hphase : t.phase <;> simp only [runTask, hphase, reduceCtorEq] at h
      cases result with
      | error e =>
          rw [← Option.some.inj h]
          exact .quiet (hphase ▸ trivial) trivial
      | ok rows =>
          rw [← Option.some.inj h]
          exact .reloaded (hphase ▸ trivial) rfl
  | insert =>
      cases hphase : t.phase <;> simp only [runTask, hphase, reduceCtorEq] at h
      rw [← Option.some.inj h]
      exact .inserted hphase
  | send =>
      cases hphase : t.phase <;> simp only [runTask, hphase, reduceCtorEq] at h
      rw [← Option.some.inj h]
      exact effect_of_trySend s k hphase
  | abort =>
      cases hphase : t.phase <;> simp only [runTask, hphase, reduceCtorEq] at h
      all_goals
        rw [← Option.some.inj h]
        exact .quiet (hphase ▸ trivial) trivial

/-- A step of a task is one of a task there is. -/
theorem step_task_eq_some_iff {s s' : RefreshService} {k : Nat} {action : TaskAction} :
    s.step (.task k action) = some s' ↔
      ∃ t, s.tasks[k]? = some t ∧ s.runTask k t action = some s' :=
  Option.bind_eq_some_iff

/-- A failed reload leaves everything but the task as it is. -/
theorem failed_reload_changes_nothing {s s' : RefreshService} {k : Nat} {e : KnowledgeError}
    (h : s.step (.task k (.reload (.error e))) = some s') :
    ∃ t, s.tasks[k]? = some t ∧ s' = s.setTask k { t with phase := .waiting } := by
  obtain ⟨t, ht, hrun⟩ := step_task_eq_some_iff.mp h
  refine ⟨t, ht, ?_⟩
  cases hphase : t.phase <;> simp only [runTask, hphase, reduceCtorEq] at hrun
  exact (Option.some.inj hrun).symm

/-- What the host and the channel do. -/
inductive HostEffect (s : RefreshService) : RefreshService → Prop
  | received {name : String} {signals : List String} (hidle : s.received = none)
      (hsignals : s.signals = name :: signals) :
      HostEffect s { s with received := some name, signals }
  | pulled {name : String} (hreceived : s.received = some name) :
      HostEffect s { s with
        received := none
        mirror := Function.update s.mirror name (s.store.snapshot name) }
  | closed : HostEffect s { s with receiverOpen := false }
  | hungUp : HostEffect s { s with
      receiverOpen := false
      signals := []
      log := s.log ++ s.signals.map fun name => .signal name false }

/-- What a step does: it is one of a task, or one of the host. -/
theorem effect_of_step {s s' : RefreshService} {action : RefreshAction}
    (h : s.step action = some s') :
    (∃ k t, s.tasks[k]? = some t ∧ TaskEffect s k t s') ∨ HostEffect s s' := by
  cases action with
  | task k action =>
      obtain ⟨t, ht, hrun⟩ := step_task_eq_some_iff.mp h
      exact .inl ⟨k, t, ht, effect_of_runTask hrun⟩
  | receive =>
      right
      cases hreceived : s.received with
      | some name => simp [step, hreceived] at h
      | none =>
          cases hsignals : s.signals with
          | nil => simp [step, hreceived, hsignals] at h
          | cons name signals =>
              simp only [step, hreceived, hsignals] at h
              rw [← Option.some.inj h]
              exact .received hreceived hsignals
  | pull =>
      right
      obtain ⟨name, hname, hs'⟩ := Option.map_eq_some_iff.mp h
      rw [← hs']
      exact .pulled hname
  | close =>
      right
      rw [← Option.some.inj h]
      exact .closed
  | hangUp =>
      right
      rw [← Option.some.inj h]
      exact .hungUp

end RefreshService

end WpKnowledge
