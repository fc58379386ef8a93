import Mathlib.Data.List.Range
import WpKnowledge.Foundation.TaskPool
import WpKnowledge.Refresh.Service

/-!
# No refreshed generation is lost

A signal carries no data, may be lost when the channel is full, and is pulled for after
any number of further reloads.  The store is always right all the same, as one task only
writes a table; and the host has what the store has as soon as the last signal has been
delivered, received and pulled for.

Main results:

- Theorem {lit}`OrderInv.run`: in every run the store has had the generations of each
  table in the order one task reloaded them.
- Theorem {lit}`MirrorInv.run`: in every run a delivered last signal waits, or is being
  pulled for, or the mirror is up to date, unless the task is about to send the next.
- Theorem {lit}`snapshot_le`: later snapshots are of no older reload.
- Theorem {lit}`refresh_loses_no_generation`: the three together, with what a failed
  reload does.
-/

namespace WpKnowledge

/-! ## Reading the history -/

/-- The generation of the table that was reloaded. -/
def RefreshEvent.reloadOf (table : String) : RefreshEvent → Option Generation
  | reloaded g => if g.data.name = table then some g else none
  | _ => none

/-- The generation of the table that was put into the store. -/
def RefreshEvent.insertOf (table : String) : RefreshEvent → Option Generation
  | inserted g => if g.data.name = table then some g else none
  | _ => none

/-- What became of a signal for the table. -/
def RefreshEvent.signalOf (table : String) : RefreshEvent → Option Bool
  | signal name delivered => if name = table then some delivered else none
  | _ => none

/-- The generations of a table that were reloaded, in order. -/
def reloadsOf (table : String) (log : List RefreshEvent) : List Generation :=
  log.filterMap (RefreshEvent.reloadOf table)

/-- The generations of a table the store has had after the seeded one, in order. -/
def insertsOf (table : String) (log : List RefreshEvent) : List Generation :=
  log.filterMap (RefreshEvent.insertOf table)

/-- What became of the last signal for a table. -/
def lastSignal (table : String) (log : List RefreshEvent) : Option Bool :=
  (log.filterMap (RefreshEvent.signalOf table)).getLast?

/-- Reading a longer history. -/
theorem reloadsOf_append (table : String) (log more : List RefreshEvent) :
    reloadsOf table (log ++ more) = reloadsOf table log ++ reloadsOf table more :=
  List.filterMap_append

/-- Reading a longer history. -/
theorem insertsOf_append (table : String) (log more : List RefreshEvent) :
    insertsOf table (log ++ more) = insertsOf table log ++ insertsOf table more :=
  List.filterMap_append

/-- The last signal of a longer history. -/
theorem lastSignal_append (table : String) (log more : List RefreshEvent) :
    lastSignal table (log ++ more) = (lastSignal table more).or (lastSignal table log) := by
  rw [lastSignal, List.filterMap_append, List.getLast?_append]
  rfl

/-! ## The order of generations -/

/-- What is on its way from a task to the store. -/
def RefreshTask.onItsWay (t : RefreshTask) (k : Nat) : List Generation :=
  match t.phase with
  | .inserting rows => [t.generation k rows]
  | _ => []

/-- Nothing is on its way from a quiet task. -/
theorem RefreshTask.onItsWay_of_quiet {t : RefreshTask} (h : t.phase.Quiet) (k : Nat) :
    t.onItsWay k = [] := by
  rw [onItsWay]
  cases hphase : t.phase with
  | inserting rows =>
      rw [hphase] at h
      exact h.elim
  | _ => rfl

namespace RefreshService

/-- The history of a task: its generations are numbered in the order it reloaded them,
and all are in the store but the one on its way. -/
structure TaskOrder (s : RefreshService) (k : Nat) (t : RefreshTask) : Prop where
  reloads : (reloadsOf t.spec.name s.log).map Generation.reload =
    (List.range t.reloads).map fun i => some (k, i + 1)
  inserts : reloadsOf t.spec.name s.log = insertsOf t.spec.name s.log ++ t.onItsWay k

/-- The history of all tables: each has one task at most, and the store has the last
generation put there. -/
structure OrderInv (seed : TableStore) (s : RefreshService) : Prop where
  names : (s.tasks.map fun t => t.spec.name).Nodup
  tasks : ∀ {k t}, s.tasks[k]? = some t → s.TaskOrder k t
  others : ∀ {table}, (∀ t ∈ s.tasks, t.spec.name ≠ table) →
    reloadsOf table s.log = [] ∧ insertsOf table s.log = []
  store : ∀ table, s.store.snapshot table =
    (insertsOf table s.log).getLast?.or (seed.snapshot table)

variable {seed : TableStore} {s s' : RefreshService} {k : Nat} {t t' : RefreshTask}

/-- Names of tasks do not change. -/
theorem map_name_set (ht : s.tasks[k]? = some t) (hspec : t'.spec = t.spec) :
    (s.tasks.set k t').map (fun t => t.spec.name) = s.tasks.map fun t => t.spec.name := by
  apply List.ext_getElem?
  intro j
  rw [List.getElem?_map, List.getElem?_map, Foundation.getElem?_set_of_getElem? ht]
  by_cases hj : j = k
  · rw [if_pos hj, hj, ht, Option.map_some, Option.map_some, hspec]
  · rw [if_neg hj]

/-- Two tasks of one name are one. -/
theorem OrderInv.eq_of_name (h : OrderInv seed s) {j : Nat} {u : RefreshTask}
    (ht : s.tasks[k]? = some t) (hu : s.tasks[j]? = some u) (hname : t.spec.name = u.spec.name) :
    k = j := by
  have hk := (List.getElem?_eq_some_iff.mp ht).1
  apply (List.getElem?_inj (by simpa using hk) h.names).mp
  rw [List.getElem?_map, List.getElem?_map, ht, hu, Option.map_some, Option.map_some, hname]

/-- A step of one task keeps the order if it keeps that of the task, writes about its table
only, and keeps the store in step with the history. -/
theorem OrderInv.of_task (h : OrderInv seed s) (ht : s.tasks[k]? = some t)
    (hspec : t'.spec = t.spec) (htasks : s'.tasks = s.tasks.set k t')
    {more : List RefreshEvent} (hlog : s'.log = s.log ++ more)
    (hmore : ∀ table, table ≠ t.spec.name → reloadsOf table more = [] ∧ insertsOf table more = [])
    (horder : s'.TaskOrder k t')
    (hstore : ∀ table, s'.store.snapshot table =
      (insertsOf table more).getLast?.or (s.store.snapshot table)) :
    OrderInv seed s' := by
  have hnames : s'.tasks.map (fun t => t.spec.name) = s.tasks.map fun t => t.spec.name := by
    rw [htasks, map_name_set ht hspec]
  have hother : ∀ table, table ≠ t.spec.name →
      reloadsOf table s'.log = reloadsOf table s.log ∧
        insertsOf table s'.log = insertsOf table s.log := by
    intro table hne
    rw [hlog, reloadsOf_append, insertsOf_append, (hmore table hne).1, (hmore table hne).2,
      List.append_nil, List.append_nil]
    exact ⟨rfl, rfl⟩
  refine ⟨hnames ▸ h.names, ?_, ?_, ?_⟩
  · intro j u hu
    rw [htasks, Foundation.getElem?_set_of_getElem? ht] at hu
    by_cases hj : j = k
    · rw [if_pos hj] at hu
      rw [hj, ← Option.some.inj hu]
      exact horder
    · rw [if_neg hj] at hu
      have hne : u.spec.name ≠ t.spec.name := fun heq => hj (h.eq_of_name hu ht heq)
      have hsame := hother u.spec.name hne
      exact ⟨hsame.1 ▸ (h.tasks hu).reloads, hsame.1 ▸ hsame.2 ▸ (h.tasks hu).inserts⟩
  · intro table hnone
    have hbefore : ∀ u ∈ s.tasks, u.spec.name ≠ table := by
      intro u hu heq
      have hmem : table ∈ s'.tasks.map fun t => t.spec.name :=
        hnames ▸ heq ▸ List.mem_map_of_mem hu
      obtain ⟨u', hu', heq'⟩ := List.mem_map.mp hmem
      exact hnone u' hu' heq'
    have hne : table ≠ t.spec.name := (hbefore t (List.mem_of_getElem? ht)).symm
    rw [(hother table hne).1, (hother table hne).2]
    exact h.others hbefore
  · intro table
    rw [hstore, h.store, hlog, insertsOf_append, List.getLast?_append, Option.or_assoc]

/-- A step that leaves tasks and store and writes of signals only keeps the order. -/
theorem OrderInv.of_host (h : OrderInv seed s) (htasks : s'.tasks = s.tasks)
    (hstore : s'.store = s.store) (hreloads : ∀ table, reloadsOf table s'.log =
      reloadsOf table s.log) (hinserts : ∀ table, insertsOf table s'.log =
        insertsOf table s.log) : OrderInv seed s' := by
  refine ⟨htasks ▸ h.names, ?_, ?_, ?_⟩
  · intro k t ht
    rw [htasks] at ht
    refine ⟨?_, ?_⟩
    · rw [hreloads]
      exact (h.tasks ht).reloads
    · rw [hreloads, hinserts]
      exact (h.tasks ht).inserts
  · intro table hnone
    rw [hreloads, hinserts]
    exact h.others (htasks ▸ hnone)
  · intro table
    rw [hstore, hinserts, h.store]

/-- A task that neither reloads nor inserts keeps its order. -/
theorem TaskOrder.of_eq (h : s.TaskOrder k t) (hspec : t'.spec = t.spec)
    (hcount : t'.reloads = t.reloads) (hway : t'.onItsWay k = t.onItsWay k)
    (hreloads : reloadsOf t.spec.name s'.log = reloadsOf t.spec.name s.log)
    (hinserts : insertsOf t.spec.name s'.log = insertsOf t.spec.name s.log) :
    s'.TaskOrder k t' := by
  refine ⟨?_, ?_⟩
  · rw [hspec, hreloads, hcount]
    exact h.reloads
  · rw [hspec, hreloads, hinserts, hway]
    exact h.inserts

/-- Signals are not about generations. -/
theorem reloadsOf_append_signals (table : String) (log : List RefreshEvent) (names : List String)
    (delivered : Bool) :
    reloadsOf table (log ++ names.map fun name => .signal name delivered) =
      reloadsOf table log := by
  rw [reloadsOf_append]
  simp [reloadsOf, RefreshEvent.reloadOf]

/-- Signals are not about generations. -/
theorem insertsOf_append_signals (table : String) (log : List RefreshEvent) (names : List String)
    (delivered : Bool) :
    insertsOf table (log ++ names.map fun name => .signal name delivered) =
      insertsOf table log := by
  rw [insertsOf_append]
  simp [insertsOf, RefreshEvent.insertOf]

/-- A step of a task keeps the order. -/
theorem OrderInv.taskEffect (h : OrderInv seed s) (ht : s.tasks[k]? = some t)
    (heffect : TaskEffect s k t s') : OrderInv seed s' := by
  have horder := h.tasks ht
  cases heffect with
  | quiet hbefore hafter =>
      refine h.of_task ht (by rfl) rfl (List.append_nil _).symm (fun _ _ => ⟨rfl, rfl⟩) ?_
        fun _ => rfl
      refine horder.of_eq rfl rfl ?_ rfl rfl
      rw [RefreshTask.onItsWay_of_quiet hbefore k, RefreshTask.onItsWay_of_quiet hafter k]
  | @reloaded rows t' hbefore ht' =>
      have hspec : t'.spec = t.spec := by rw [ht']
      have hname : (t'.generation k rows).data.name = t.spec.name := by
        rw [RefreshTask.generation, hspec]
      refine h.of_task ht hspec rfl rfl ?_ ?_ fun _ => rfl
      · intro table hne
        have hother : ¬ (t'.generation k rows).data.name = table := fun heq =>
          hne (heq.symm.trans hname)
        simp [reloadsOf, insertsOf, RefreshEvent.reloadOf, RefreshEvent.insertOf, hother]
      · have hreload : reloadsOf t'.spec.name [.reloaded (t'.generation k rows)] =
            [t'.generation k rows] := by
          simp [reloadsOf, RefreshEvent.reloadOf, hname, hspec]
        have hinsert : insertsOf t'.spec.name [.reloaded (t'.generation k rows)] = [] := rfl
        have hcount : t'.reloads = t.reloads + 1 := by rw [ht']
        have hway : t'.onItsWay k = [t'.generation k rows] := by
          rw [RefreshTask.onItsWay, ht']
        refine ⟨?_, ?_⟩
        · rw [reloadsOf_append, hreload, List.map_append, hspec, horder.reloads, hcount,
            List.range_succ, List.map_append, List.map_singleton, List.map_singleton,
            RefreshTask.generation, hcount]
        · have hinserts := horder.inserts
          rw [RefreshTask.onItsWay_of_quiet hbefore k, List.append_nil] at hinserts
          rw [reloadsOf_append, insertsOf_append, hreload, hinsert, hway, hspec, hinserts,
            List.append_nil]
  | @inserted rows hbefore =>
      have hway : t.onItsWay k = [t.generation k rows] := by
        rw [RefreshTask.onItsWay, hbefore]
      refine h.of_task ht (by rfl) rfl rfl ?_ ?_ ?_
      · intro table hne
        have hother : ¬ (t.generation k rows).data.name = table := fun heq => hne heq.symm
        simp [reloadsOf, insertsOf, RefreshEvent.reloadOf, RefreshEvent.insertOf, hother]
      · have hreload : reloadsOf t.spec.name [.inserted (t.generation k rows)] = [] := rfl
        have hinsert : insertsOf t.spec.name [.inserted (t.generation k rows)] =
            [t.generation k rows] := by
          simp [insertsOf, RefreshEvent.insertOf, RefreshTask.generation]
        refine ⟨?_, ?_⟩
        · rw [reloadsOf_append, hreload, List.append_nil]
          exact horder.reloads
        · rw [reloadsOf_append, insertsOf_append, hreload, hinsert, List.append_nil,
            horder.inserts, hway]
          exact (List.append_nil _).symm
      · intro table
        rw [TableStore.snapshot_insert]
        by_cases hname : table = (t.generation k rows).data.name
        · simp [hname, insertsOf, RefreshEvent.insertOf]
        · simp [hname, insertsOf, RefreshEvent.insertOf, Ne.symm hname]
  | delivered hbefore =>
      refine h.of_task ht (by rfl) rfl rfl (fun _ _ => ⟨rfl, rfl⟩) ?_ fun _ => rfl
      refine horder.of_eq rfl rfl ?_ (reloadsOf_append_signals _ _ [t.spec.name] true)
        (insertsOf_append_signals _ _ [t.spec.name] true)
      rw [RefreshTask.onItsWay, RefreshTask.onItsWay, hbefore]
  | dropped hbefore hafter =>
      refine h.of_task ht (by rfl) rfl rfl (fun _ _ => ⟨rfl, rfl⟩) ?_ fun _ => rfl
      refine horder.of_eq rfl rfl ?_ (reloadsOf_append_signals _ _ [t.spec.name] false)
        (insertsOf_append_signals _ _ [t.spec.name] false)
      rw [RefreshTask.onItsWay_of_quiet hafter k, RefreshTask.onItsWay, hbefore]

/-- Every step keeps the order. -/
theorem OrderInv.step (h : OrderInv seed s) {action : RefreshAction}
    (hstep : s.step action = some s') : OrderInv seed s' := by
  rcases effect_of_step hstep with ⟨k, t, ht, heffect⟩ | heffect
  · exact h.taskEffect ht heffect
  · cases heffect with
    | received hidle hsignals => exact h.of_host rfl rfl (fun _ => rfl) fun _ => rfl
    | pulled hreceived => exact h.of_host rfl rfl (fun _ => rfl) fun _ => rfl
    | closed => exact h.of_host rfl rfl (fun _ => rfl) fun _ => rfl
    | hungUp =>
        exact h.of_host rfl rfl (fun _ => reloadsOf_append_signals _ _ _ _)
          fun _ => insertsOf_append_signals _ _ _ _

/-- The service is started in order. -/
theorem orderInv_spawnWithStore (specs : List RefreshSpec) (store : TableStore)
    (mirror : String → Option Generation) :
    OrderInv store (spawnWithStore specs store mirror) where
  names := by
    have hnames := (nodup_keptSpecs [] specs).1
    rw [spawnWithStore, List.map_map]
    exact hnames
  tasks := by
    intro k t ht
    obtain ⟨spec, -, rfl⟩ := List.mem_map.mp (List.mem_of_getElem? ht)
    exact ⟨rfl, rfl⟩
  others := fun _ => ⟨rfl, rfl⟩
  store := fun _ => rfl

variable {specs : List RefreshSpec} {seeds : List TableData} {mirror : String → Option Generation}
  {as : List RefreshAction}

/-- In every run the store has had the generations of each table in order. -/
theorem OrderInv.run
    (h : (machine specs seeds mirror).Run Foundation.Machine.Unguarded as s) :
    OrderInv (.seeded seeds) s := by
  apply h.stateInvariant
  · rintro s rfl
    exact orderInv_spawnWithStore specs (.seeded seeds) mirror
  · intro s a s' hs _ hstep
    exact hs.step hstep

/-! ## Snapshots -/

/-- The generations of a table are those of one task, numbered. -/
theorem OrderInv.exists_task (h : OrderInv seed s) (table : String) :
    ∃ k, (reloadsOf table s.log ≠ [] →
        (s.tasks[k]?).map (fun t => t.spec.name) = some table) ∧
      (reloadsOf table s.log).map Generation.reload =
        (List.range (reloadsOf table s.log).length).map (fun i => some (k, i + 1)) ∧
      insertsOf table s.log <+: reloadsOf table s.log ∧
      (reloadsOf table s.log).length ≤ (insertsOf table s.log).length + 1 := by
  by_cases hnamed : ∃ t ∈ s.tasks, t.spec.name = table
  · obtain ⟨t, hmem, rfl⟩ := hnamed
    obtain ⟨k, ht⟩ := List.mem_iff_getElem?.mp hmem
    have horder := h.tasks ht
    have hcount : (reloadsOf t.spec.name s.log).length = t.reloads := by
      have hlength := congrArg List.length horder.reloads
      simpa using hlength
    refine ⟨k, fun _ => by rw [ht, Option.map_some], ?_, ⟨_, horder.inserts.symm⟩, ?_⟩
    · rw [hcount]
      exact horder.reloads
    · rw [horder.inserts, List.length_append]
      have hway : (t.onItsWay k).length ≤ 1 := by
        rw [RefreshTask.onItsWay]
        split <;> simp
      omega
  · have hnone : ∀ t ∈ s.tasks, t.spec.name ≠ table := fun t hmem heq => hnamed ⟨t, hmem, heq⟩
    obtain ⟨hreloads, hinserts⟩ := h.others hnone
    rw [hreloads, hinserts]
    exact ⟨0, fun hne => absurd rfl hne, rfl, List.prefix_rfl, Nat.zero_le _⟩

/-- The number of the present generation is how many the store has had. -/
theorem OrderInv.serial_snapshot (h : OrderInv (.seeded seeds) s) {table : String}
    {g : Generation} (hg : s.store.snapshot table = some g) :
    g.serial = (insertsOf table s.log).length := by
  rw [h.store] at hg
  cases hinserts : insertsOf table s.log using List.reverseRecOn with
  | nil =>
      rw [hinserts] at hg
      rw [Generation.serial, TableStore.reload_of_seeded hg]
      rfl
  | append_singleton before last =>
      obtain ⟨k, -, hreloads, ⟨rest, hrest⟩, -⟩ := h.exists_task table
      rw [hinserts, List.getLast?_concat, Option.some_or, Option.some_inj] at hg
      have hlast : ((reloadsOf table s.log).map Generation.reload)[before.length]? =
          some last.reload := by
        rw [← hrest, hinserts]
        simp
      have hlt : before.length < (reloadsOf table s.log).length := by
        rw [← hrest, hinserts]
        simp
      rw [hreloads, List.getElem?_map, List.getElem?_range hlt, Option.map_some,
        Option.some_inj] at hlast
      rw [← hg, Generation.serial, ← hlast, List.length_append]
      rfl

/-- A history only grows. -/
theorem log_prefix_of_step {action : RefreshAction} (h : s.step action = some s') :
    s.log <+: s'.log := by
  rcases effect_of_step h with ⟨k, t, ht, heffect⟩ | heffect
  · cases heffect with
    | quiet hbefore hafter => exact List.prefix_rfl
    | reloaded hbefore ht' => exact List.prefix_append _ _
    | inserted hbefore => exact List.prefix_append _ _
    | delivered hbefore => exact List.prefix_append _ _
    | dropped hbefore hafter => exact List.prefix_append _ _
  · cases heffect with
    | received hidle hsignals => exact List.prefix_rfl
    | pulled hreceived => exact List.prefix_rfl
    | closed => exact List.prefix_rfl
    | hungUp => exact List.prefix_append _ _

/-- Over any steps a history only grows. -/
theorem log_prefix_of_steps
    (h : (machine specs seeds mirror).Steps Foundation.Machine.Unguarded s as s') :
    s.log <+: s'.log := by
  induction h with
  | refl => exact List.prefix_rfl
  | snoc _ _ hstep ih => exact ih.trans (log_prefix_of_step hstep)

/-- Later snapshots are of no older reload. -/
theorem snapshot_le {bs : List RefreshAction}
    (hrun : (machine specs seeds mirror).Run Foundation.Machine.Unguarded as s)
    (hsteps : (machine specs seeds mirror).Steps Foundation.Machine.Unguarded s bs s')
    {table : String} {g : Generation} (hg : s.store.snapshot table = some g) :
    ∃ g', s'.store.snapshot table = some g' ∧ g.serial ≤ g'.serial := by
  have horder := OrderInv.run hrun
  have horder' := OrderInv.run (hrun.append_steps (fun _ _ hok => hok) hsteps)
  have hlonger : insertsOf table s.log <+: insertsOf table s'.log :=
    (log_prefix_of_steps hsteps).filterMap _
  have hsome : (s'.store.snapshot table).isSome = true := by
    rw [horder.store] at hg
    rw [horder'.store]
    cases hlast : (insertsOf table s'.log).getLast? with
    | some last => rfl
    | none =>
        rw [List.getLast?_eq_none_iff.mp hlast, List.prefix_nil] at hlonger
        rw [hlonger] at hg
        rw [show (TableStore.seeded seeds).snapshot table = some g from hg]
        rfl
  obtain ⟨g', hg'⟩ := Option.isSome_iff_exists.mp hsome
  refine ⟨g', hg', ?_⟩
  rw [horder.serial_snapshot hg, horder'.serial_snapshot hg']
  exact hlonger.length_le

/-! ## The mirror -/

/-- The task of the table is between putting a generation into the store and sending the
signal for it. -/
def Sending (s : RefreshService) (table : String) : Prop :=
  ∃ t ∈ s.tasks, t.spec.name = table ∧ t.phase = .sending

/-- What signals have brought about for a table: before the first one nothing has
changed, and the last one, if delivered, waits, or is being pulled for, or has brought
the mirror up to date. -/
structure MirrorInv (seed : TableStore) (mirror : String → Option Generation)
    (s : RefreshService) (table : String) : Prop where
  unsent : lastSignal table s.log = none →
    s.mirror table = mirror table ∧ table ∉ s.signals ∧ s.received ≠ some table ∧
      (¬ s.Sending table → s.store.snapshot table = seed.snapshot table)
  delivered : lastSignal table s.log = some true → ¬ s.Sending table →
    table ∈ s.signals ∨ s.received = some table ∨ s.mirror table = s.store.snapshot table

/-- A task in the place of one that was not sending, if it is not sending either, changes
nothing for any table. -/
theorem sending_setTask_iff (ht : s.tasks[k]? = some t) (htasks : s'.tasks = s.tasks.set k t')
    (hspec : t'.spec = t.spec) {table : String}
    (h : t.spec.name = table → (t'.phase = .sending ↔ t.phase = .sending)) :
    s'.Sending table ↔ s.Sending table := by
  simp only [Sending, htasks, Foundation.mem_set_of_getElem? ht,
    Foundation.mem_iff_of_getElem? ht]
  constructor
  · rintro ⟨u, heq | hother, hname, hphase⟩
    · subst heq
      rw [hspec] at hname
      exact ⟨t, .inl rfl, hname, (h hname).mp hphase⟩
    · exact ⟨u, .inr hother, hname, hphase⟩
  · rintro ⟨u, heq | hother, hname, hphase⟩
    · subst heq
      exact ⟨t', .inl rfl, hspec ▸ hname, (h hname).mpr hphase⟩
    · exact ⟨u, .inr hother, hname, hphase⟩

/-- A step that changes nothing for the table keeps its invariant. -/
theorem MirrorInv.of_frame {table : String} (h : MirrorInv seed mirror s table)
    (hlast : lastSignal table s'.log = lastSignal table s.log)
    (hsignals : table ∈ s'.signals ↔ table ∈ s.signals)
    (hreceived : s'.received = some table ↔ s.received = some table)
    (hmirror : s'.mirror table = s.mirror table)
    (hstore : s'.store.snapshot table = s.store.snapshot table)
    (hsending : s'.Sending table ↔ s.Sending table) : MirrorInv seed mirror s' table := by
  refine ⟨?_, ?_⟩
  · rw [hlast, hsignals, hmirror, hstore, hsending, ne_eq, hreceived]
    exact h.unsent
  · rw [hlast, hsignals, hmirror, hstore, hsending, hreceived]
    exact h.delivered

/-- Where the last signal was lost nothing is promised. -/
theorem MirrorInv.of_lost {table : String} (hlast : lastSignal table s'.log = some false) :
    MirrorInv seed mirror s' table := by
  refine ⟨?_, ?_⟩
  · intro hnone
    rw [hlast] at hnone
    cases hnone
  · intro hdelivered
    rw [hlast] at hdelivered
    cases hdelivered

/-- The last signal after one more. -/
theorem lastSignal_append_signal (table : String) (log : List RefreshEvent) (name : String)
    (delivered : Bool) :
    lastSignal table (log ++ [.signal name delivered]) =
      if name = table then some delivered else lastSignal table log := by
  rw [lastSignal_append]
  by_cases hname : name = table
  · simp [lastSignal, RefreshEvent.signalOf, hname]
  · simp [lastSignal, RefreshEvent.signalOf, hname]

/-- The last signal after several were lost. -/
theorem lastSignal_append_lost (table : String) (log : List RefreshEvent) (names : List String) :
    lastSignal table (log ++ names.map fun name => .signal name false) =
      if table ∈ names then some false else lastSignal table log := by
  induction names generalizing log with
  | nil => rw [List.map_nil, List.append_nil, if_neg List.not_mem_nil]
  | cons name names ih =>
      have hsplit : log ++ (name :: names).map (fun name => RefreshEvent.signal name false) =
          (log ++ [.signal name false]) ++ names.map fun name => .signal name false := by
        simp
      rw [hsplit, ih, lastSignal_append_signal]
      by_cases hmem : table ∈ names
      · rw [if_pos hmem, if_pos (List.mem_cons_of_mem name hmem)]
      · rw [if_neg hmem]
        by_cases hname : name = table
        · rw [if_pos hname, if_pos (hname ▸ List.mem_cons_self)]
        · have hne : table ≠ name := fun heq => hname heq.symm
          rw [if_neg hname, if_neg (by simp [hne, hmem])]

/-- A quiet task does not send. -/
theorem ne_sending_of_quiet {phase : RefreshPhase} (h : phase.Quiet) : phase ≠ .sending := by
  rintro rfl
  exact h

/-- A step of a task keeps the invariant of every table. -/
theorem MirrorInv.taskEffect {table : String} (h : MirrorInv seed mirror s table)
    (ht : s.tasks[k]? = some t) (heffect : TaskEffect s k t s') :
    MirrorInv seed mirror s' table := by
  cases heffect with
  | quiet hbefore hafter =>
      refine h.of_frame rfl Iff.rfl Iff.rfl rfl rfl ?_
      exact sending_setTask_iff ht rfl (by rfl) fun _ =>
        iff_of_false (ne_sending_of_quiet hafter) (ne_sending_of_quiet hbefore)
  | @reloaded rows t' hbefore ht' =>
      refine h.of_frame ?_ Iff.rfl Iff.rfl rfl rfl ?_
      · rw [lastSignal_append]
        rfl
      · refine sending_setTask_iff ht rfl (by rw [ht']) fun _ =>
          iff_of_false ?_ (ne_sending_of_quiet hbefore)
        rw [ht']
        nofun
  | @inserted rows hbefore =>
      have hlast : lastSignal table (s.log ++ [.inserted (t.generation k rows)]) =
          lastSignal table s.log := by
        rw [lastSignal_append]
        rfl
      by_cases hname : t.spec.name = table
      · -- from now on the task is sending
        have hsending : ∃ u ∈ s.tasks.set k { t with phase := .sending },
            u.spec.name = table ∧ u.phase = .sending := by
          have hlt := (List.getElem?_eq_some_iff.mp ht).1
          exact ⟨_, List.mem_set hlt _, hname, rfl⟩
        refine ⟨?_, fun _ hquiet => absurd hsending hquiet⟩
        intro hnone
        obtain ⟨hmirror, hsignals, hreceived, -⟩ := h.unsent (hlast ▸ hnone)
        exact ⟨hmirror, hsignals, hreceived, fun hquiet => absurd hsending hquiet⟩
      · refine h.of_frame hlast Iff.rfl Iff.rfl rfl ?_ ?_
        · rw [TableStore.snapshot_insert, if_neg]
          exact fun heq => hname heq.symm
        · exact sending_setTask_iff ht rfl (by rfl) fun heq => absurd heq hname
  | delivered hbefore =>
      have hlast := lastSignal_append_signal table s.log t.spec.name true
      by_cases hname : t.spec.name = table
      · rw [if_pos hname] at hlast
        refine ⟨?_, ?_⟩
        · intro hnone
          rw [show lastSignal table _ = some true from hlast] at hnone
          cases hnone
        · intro _ _
          exact .inl (List.mem_append_right _ (List.mem_singleton.mpr hname.symm))
      · rw [if_neg hname] at hlast
        refine h.of_frame hlast ?_ Iff.rfl rfl rfl ?_
        · have hne : table ≠ t.spec.name := fun heq => hname heq.symm
          simp [hne]
        · exact sending_setTask_iff ht rfl (by rfl) fun heq => absurd heq hname
  | dropped hbefore hafter =>
      have hlast := lastSignal_append_signal table s.log t.spec.name false
      by_cases hname : t.spec.name = table
      · rw [if_pos hname] at hlast
        exact .of_lost hlast
      · rw [if_neg hname] at hlast
        refine h.of_frame hlast Iff.rfl Iff.rfl rfl rfl ?_
        exact sending_setTask_iff ht rfl (by rfl) fun heq => absurd heq hname

/-- A step of the host keeps the invariant of every table. -/
theorem MirrorInv.hostEffect {table : String} (h : MirrorInv seed mirror s table)
    (heffect : HostEffect s s') : MirrorInv seed mirror s' table := by
  cases heffect with
  | @received name signals hidle hsignals =>
      refine ⟨?_, ?_⟩
      · intro hnone
        obtain ⟨hmirror, hnotin, -, hstore⟩ := h.unsent hnone
        rw [hsignals, List.mem_cons, not_or] at hnotin
        refine ⟨hmirror, hnotin.2, ?_, hstore⟩
        intro heq
        exact hnotin.1 (Option.some.inj heq).symm
      · intro hdelivered hquiet
        rcases h.delivered hdelivered hquiet with hmem | hreceived | hmirror
        · rw [hsignals, List.mem_cons] at hmem
          rcases hmem with rfl | hmem
          · exact .inr (.inl rfl)
          · exact .inl hmem
        · rw [hidle] at hreceived
          cases hreceived
        · exact .inr (.inr hmirror)
  | @pulled name hreceived =>
      by_cases hname : table = name
      · subst hname
        refine ⟨fun hnone => absurd hreceived (h.unsent hnone).2.2.1, ?_⟩
        intro _ _
        exact .inr (.inr (Function.update_self ..))
      · have hmirror : Function.update s.mirror name (s.store.snapshot name) table =
            s.mirror table := Function.update_of_ne hname ..
        refine h.of_frame rfl Iff.rfl ?_ hmirror rfl Iff.rfl
        rw [hreceived, Option.some_inj]
        exact iff_of_false nofun fun heq => hname heq.symm
  | closed => exact h.of_frame rfl Iff.rfl Iff.rfl rfl rfl Iff.rfl
  | hungUp =>
      have hlast := lastSignal_append_lost table s.log s.signals
      by_cases hmem : table ∈ s.signals
      · rw [if_pos hmem] at hlast
        exact .of_lost hlast
      · rw [if_neg hmem] at hlast
        refine h.of_frame hlast ?_ Iff.rfl rfl rfl Iff.rfl
        exact iff_of_false List.not_mem_nil hmem

/-- Every step keeps the invariant of every table. -/
theorem MirrorInv.step {table : String} (h : MirrorInv seed mirror s table)
    {action : RefreshAction} (hstep : s.step action = some s') :
    MirrorInv seed mirror s' table := by
  rcases effect_of_step hstep with ⟨k, t, ht, heffect⟩ | heffect
  · exact h.taskEffect ht heffect
  · exact h.hostEffect heffect

/-- In every run the invariant of every table holds. -/
theorem MirrorInv.run
    (h : (machine specs seeds mirror).Run Foundation.Machine.Unguarded as s) (table : String) :
    MirrorInv (.seeded seeds) mirror s table := by
  apply h.stateInvariant
  · rintro s rfl
    exact ⟨fun _ => ⟨rfl, List.not_mem_nil, nofun, fun _ => rfl⟩, nofun⟩
  · intro s a s' hs _ hstep
    exact hs.step hstep

/-- What holds of a table in a state: the store has had generations of one task, numbered
in the order their reloads completed, all of them but one that may be on its way, and has
the last of them; and once the last signal was delivered, received and pulled for, and no
other is about to be sent, the mirror is what the store has.  Before the first signal
neither the store nor the mirror has changed. -/
structure Delivers (seed : TableStore) (mirror : String → Option Generation)
    (s : RefreshService) (table : String) : Prop where
  oneTask : ∃ k,
    (reloadsOf table s.log ≠ [] → (s.tasks[k]?).map (fun t => t.spec.name) = some table) ∧
      (reloadsOf table s.log).map Generation.reload =
        (List.range (reloadsOf table s.log).length).map fun i => some (k, i + 1)
  inOrder : insertsOf table s.log <+: reloadsOf table s.log
  noneLost : (reloadsOf table s.log).length ≤ (insertsOf table s.log).length + 1
  current : s.store.snapshot table = (insertsOf table s.log).getLast?.or (seed.snapshot table)
  upToDate : table ∉ s.signals → lastSignal table s.log = some true → s.received = none →
    ¬ s.Sending table → s.mirror table = s.store.snapshot table
  untouched : lastSignal table s.log = none → ¬ s.Sending table →
    s.store.snapshot table = seed.snapshot table ∧ s.mirror table = mirror table

/-- **Refreshing.**  The service is started with any specifications on a seeded store, and
its tasks, the channel and the host take any steps in any order.  Every table is delivered;
snapshots taken later are of no older reload; and a failed reload changes neither the store
nor the channel. -/
theorem refresh_loses_no_generation (specs : List RefreshSpec) (seeds : List TableData)
    (mirror : String → Option Generation) :
    (∀ as s, (machine specs seeds mirror).Run Foundation.Machine.Unguarded as s →
      ∀ table, Delivers (.seeded seeds) mirror s table) ∧
    (∀ as s bs s', (machine specs seeds mirror).Run Foundation.Machine.Unguarded as s →
      (machine specs seeds mirror).Steps Foundation.Machine.Unguarded s bs s' →
        ∀ table g, s.store.snapshot table = some g →
          ∃ g', s'.store.snapshot table = some g' ∧ g.serial ≤ g'.serial) ∧
    ∀ s k e s', (machine specs seeds mirror).step s (.task k (.reload (.error e))) = some s' →
      s'.store = s.store ∧ s'.signals = s.signals ∧ s'.receiverOpen = s.receiverOpen ∧
        s'.log = s.log := by
  refine ⟨?_, ?_, ?_⟩
  · intro as s hrun table
    have horder := OrderInv.run hrun
    have hmirror := MirrorInv.run hrun table
    obtain ⟨k, hname, hreloads, hbefore, hlength⟩ := horder.exists_task table
    refine ⟨⟨k, hname, hreloads⟩, hbefore, hlength, horder.store table, ?_, ?_⟩
    · intro hempty hlast hidle hquiet
      rcases hmirror.delivered hlast hquiet with hmem | hreceived | hmirror
      · exact absurd hmem hempty
      · rw [hidle] at hreceived
        cases hreceived
      · exact hmirror
    · intro hnone hquiet
      have hunsent := hmirror.unsent hnone
      exact ⟨hunsent.2.2.2 hquiet, hunsent.1⟩
  · intro as s bs s' hrun hsteps table g hg
    exact snapshot_le hrun hsteps hg
  · intro s k e s' hstep
    obtain ⟨t, -, rfl⟩ := failed_reload_changes_nothing hstep
    exact ⟨rfl, rfl, rfl, rfl⟩

/-- Of two specifications of one table the first is started; its first reload reaches the
mirror. -/
theorem refresh_loses_no_generation_first :
    ∃ as s, (machine [⟨"a", 5⟩, ⟨"b", 7⟩, ⟨"a", 9⟩] [⟨"a", []⟩] fun _ => none).Run
        Foundation.Machine.Unguarded as s ∧
      s.tasks.length = 2 ∧ (s.store.snapshot "a").map Generation.serial = some 1 ∧
      s.mirror "a" = s.store.snapshot "a" := by
  have hexec : ((machine [⟨"a", 5⟩, ⟨"b", 7⟩, ⟨"a", 9⟩] [⟨"a", []⟩] fun _ => none).exec
      Foundation.Machine.Unguarded
      (spawnWithStore [⟨"a", 5⟩, ⟨"b", 7⟩, ⟨"a", 9⟩] (.seeded [⟨"a", []⟩]) fun _ => none)
      [.task 0 .poll, .task 0 .tick, .task 1 .poll, .task 0 .tick, .task 0 (.reload (.ok [[]])),
        .task 0 .insert, .task 1 .tick, .task 0 .send, .receive, .pull]).any
      (fun s => s.tasks.length == 2 && (s.store.snapshot "a").map Generation.serial == some 1 &&
        s.signals == [] && lastSignal "a" s.log == some true && s.received == none &&
        s.tasks.all fun t => decide t.phase.Quiet) = true := by
    decide
  obtain ⟨s, hrun, hs⟩ := Foundation.Machine.exists_run_of_exec_any rfl hexec
  simp only [Bool.and_eq_true, beq_iff_eq, List.all_eq_true, decide_eq_true_eq] at hs
  obtain ⟨⟨⟨⟨⟨htasks, hserial⟩, hsignals⟩, hlast⟩, hreceived⟩, hquiet⟩ := hs
  have hsending : ¬ s.Sending "a" := by
    rintro ⟨t, ht, -, hphase⟩
    exact ne_sending_of_quiet (hquiet t ht) hphase
  have hdelivers := (refresh_loses_no_generation _ _ _).1 _ s hrun "a"
  exact ⟨_, s, hrun, htasks, hserial,
    hdelivers.upToDate (by rw [hsignals]; exact List.not_mem_nil) hlast hreceived hsending⟩

end RefreshService

end WpKnowledge
