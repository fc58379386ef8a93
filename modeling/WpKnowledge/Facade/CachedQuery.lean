import WpKnowledge.Cache.Isolation
import WpKnowledge.Runtime.Answers
import WpKnowledge.Runtime.SlotOrder

/-!
# Cached queries of the facade

`cache_query_fields_with_scope`, `cache_query_fields_route` and their
asynchronous forms (`src/facade.rs`) put a local cache in front of the runtime.
A call reads the generation of the slot it queries, announces it to the local
cache, looks the row up there, and on a miss executes the query and saves the
row.  The cache is borrowed for the whole call, so the calls on one cache follow
each other; everything else in the process goes on between their steps.

The generation is read, the handle resolved and the row saved at three different
times.  A row in the local cache is nevertheless never older than the generation
last announced for its scope, because a handle is resolved after the generation
was read.

Main results:

- Theorem {lit}`pool_run_of_run`: below the facade, a run of the facade is a run
  of the runtime.
- Theorem {lit}`facade_of_run`: the invariant of the local cache and of the call
  in progress.
- Theorem {lit}`cached_query_coherent`: no call returns a row older than the
  generation its slot held when the call began.
-/

namespace WpKnowledge

open Foundation

variable {π : Type}

/-! ## Calls -/

/-- A cached query: `cache_query_fields_route`, which for no provider is
`cache_query_fields_with_scope`, or the asynchronous form of either. -/
structure FacadeCall where
  provider : Option String
  sql : String
  localCacheScope : UInt64
  cParams : CacheArgs
  queryParams : List DataField
  isAsync : Bool

namespace FacadeCall

/-- The slot the call queries. -/
def slot (call : FacadeCall) : Slot :=
  match call.provider with
  | none => .default
  | some name => .named name

/-- The scope the call uses in the local cache; a named provider has a scope of
its own. -/
def scope [DefaultHasher] (call : FacadeCall) : UInt64 :=
  match call.provider with
  | none => call.localCacheScope
  | some name => call.localCacheScope ^^^ stableHash name

/-- The query the call executes on a miss. -/
def query (call : FacadeCall) : Query :=
  .firstRowFields call.sql call.queryParams .useGlobal

end FacadeCall

/-- Where a cached query stands.  A call into the runtime is a task there; the
facade waits for it. -/
inductive FacadePc where
  | awaitGeneration (task : Nat)
  | readHandle
  | lookup (generation : Option Nat)
  | countHit (hit : RowData)
  | countMiss
  | execute
  | awaitRow (task : Nat)

/-- The call in progress, with the generation its slot held when it began. -/
structure ActiveCall where
  call : FacadeCall
  startGeneration : Option Nat
  pc : FacadePc

/-- A call that has returned: its row, or nothing if it failed and returned the
empty row, and the history up to then. -/
structure ReturnedCall (π : Type) where
  call : FacadeCall
  startGeneration : Option Nat
  outcome : Option RowData
  history : List (Event π)

/-- The facade over the runtime, for one local cache. -/
structure Facade (π : Type) where
  pool : Pool (Shared π) (Task π) (Event π)
  cache : FieldQueryCache
  active : Option ActiveCall
  begun : List FacadeCall
  returned : List (ReturnedCall π)

/-- What may happen: anything in the runtime, the beginning or the next step of a
call, and for an asynchronous call, while it waits for its row, that the blocking
task is lost or that the caller drops the call. -/
inductive FacadeAction (π : Type) where
  | pool (a : PoolAction Call (Input π) Ambient)
  | begin (call : FacadeCall)
  | step
  | joinFailed
  | dropped

namespace Facade

/-- The facade after the active call has returned. -/
def finish (f : Facade π) (active : ActiveCall) (outcome : Option RowData) : Facade π :=
  { f with
    active := none
    returned := ⟨active.call, active.startGeneration, outcome, f.pool.log⟩ :: f.returned }

/-- The facade with the active call at another place. -/
def goto (f : Facade π) (active : ActiveCall) (pc : FacadePc) : Facade π :=
  { f with active := some { active with pc } }

section Steps

variable [DefaultHasher] [ValueText]

/-- Begin a call: the default provider's generation is read by
`current_generation`, a named provider's from its handle. -/
def start (f : Facade π) (call : FacadeCall) : Option (Facade π) :=
  match f.active with
  | some _ => none
  | none =>
      let startGeneration :=
        (f.pool.shared.runtime.handleAt call.slot).map ProviderHandle.generation
      match call.provider with
      | none =>
          ((runtimeMachine π).step f.pool (.spawn .currentGeneration)).map fun pool =>
            { f with
              pool
              active := some ⟨call, startGeneration, .awaitGeneration f.pool.tasks.length⟩
              begun := call :: f.begun }
      | some _ =>
          some { f with
            active := some ⟨call, startGeneration, .readHandle⟩
            begun := call :: f.begun }

/-- Announce the generation, if there is one, and look the row up. -/
def lookupLocal (f : Facade π) (call : FacadeCall) (generation : Option Nat) :
    FieldQueryCache × Option RowData :=
  let cache := match generation with
    | some generation => f.cache.prepareGenerationScoped call.scope generation
    | none => f.cache
  (cache, cache.fetchScoped call.scope call.cParams.params)

/-- The next step of the active call. -/
def advance (f : Facade π) (active : ActiveCall) : Option (Facade π) :=
  match active.pc with
  | .awaitGeneration task =>
      match f.pool.tasks[task]? with
      | some (.currentGeneration (.done generation)) =>
          some (f.goto active (.lookup generation))
      | _ => none
  | .readHandle =>
      match f.pool.shared.runtime.resolve active.call.slot with
      | .ok handle => some (f.goto active (.lookup (some handle.generation)))
      | .error _ => some (f.finish active none)
  | .lookup generation =>
      match f.lookupLocal active.call generation with
      | (cache, some hit) => some ({ f with cache }.goto active (.countHit hit))
      | (cache, none) => some ({ f with cache }.goto active .countMiss)
  | .countHit hit =>
      ((runtimeMachine π).step f.pool (.env .recordLocalCacheHit)).map fun pool =>
        { f with pool }.finish active (some hit)
  | .countMiss =>
      ((runtimeMachine π).step f.pool (.env .recordLocalCacheMiss)).map fun pool =>
        { f with pool }.goto active .execute
  | .execute =>
      ((runtimeMachine π).step f.pool
        (.spawn (.execute ⟨active.call.slot, active.call.query⟩))).map fun pool =>
          { f with pool }.goto active (.awaitRow f.pool.tasks.length)
  | .awaitRow task =>
      match f.pool.tasks[task]? with
      | some (.execute _ (.done (.ok (.row row)))) =>
          let cache := f.cache.saveScoped active.call.scope active.call.cParams.params row
          some ({ f with cache }.finish active (some row))
      | some (.execute _ (.done (.error _))) => some (f.finish active none)
      | _ => none

/-- Whether a call waits for its row and may be given up. -/
def ActiveCall.awaitsAsync (active : ActiveCall) : Bool :=
  match active.pc with
  | .awaitRow _ => active.call.isAsync
  | _ => false

/-- One step of the facade. -/
def next (f : Facade π) : FacadeAction π → Option (Facade π)
  | .pool a => ((runtimeMachine π).step f.pool a).map fun pool => { f with pool }
  | .begin call => f.start call
  | .step => f.active.bind f.advance
  | .joinFailed => f.active.bind fun active =>
      if ActiveCall.awaitsAsync active then some (f.finish active none) else none
  | .dropped => f.active.bind fun active =>
      if ActiveCall.awaitsAsync active then some { f with active := none } else none

end Steps

end Facade

section Machine

variable [DefaultHasher] [ValueText]

variable (π) in
/-- The facade as a machine: a new runtime and a new local cache. -/
def facadeMachine : Machine (Facade π) (FacadeAction π) where
  init f := (runtimeMachine π).init f.pool ∧
    (∃ size, f.cache = FieldQueryCache.withCapacity size) ∧ f.active = none ∧ f.begun = [] ∧
    f.returned = []
  step := Facade.next

/-- The guard of a run in which the installs of one slot do not overlap and
different queries use different scopes of the local cache. -/
def FacadeGuard (f : Facade π) : FacadeAction π → Prop
  | .pool a => InstallsApart f.pool a
  | .begin call => ∀ call' ∈ f.begun, call'.scope = call.scope →
      call'.provider = call.provider ∧ call'.sql = call.sql
  | _ => True

instance (f : Facade π) (a : FacadeAction π) : Decidable (FacadeGuard f a) :=
  match a with
  | .pool a => inferInstanceAs (Decidable (InstallsApart f.pool a))
  | .begin _ => inferInstanceAs (Decidable (∀ call' ∈ f.begun, _))
  | .step | .joinFailed | .dropped => .isTrue trivial

/-! ## The runtime below -/

/-- What a step of the facade does to the runtime: nothing, or one step that is
no install. -/
theorem Facade.advance_pool {f f' : Facade π} {active : ActiveCall}
    (h : f.advance active = some f') :
    f'.pool = f.pool ∨ ∃ a, (runtimeMachine π).step f.pool a = some f'.pool ∧
      InstallsApart f.pool a := by
  unfold Facade.advance at h
  split at h
  · split at h
    · cases h
      exact .inl rfl
    · cases h
  · split at h
    all_goals cases h
    all_goals exact .inl rfl
  · split at h
    all_goals cases h
    all_goals exact .inl rfl
  · rcases Option.map_eq_some_iff.mp h with ⟨pool, hpool, rfl⟩
    exact .inr ⟨.env .recordLocalCacheHit, hpool, trivial⟩
  · rcases Option.map_eq_some_iff.mp h with ⟨pool, hpool, rfl⟩
    exact .inr ⟨.env .recordLocalCacheMiss, hpool, trivial⟩
  · rcases Option.map_eq_some_iff.mp h with ⟨pool, hpool, rfl⟩
    exact .inr ⟨.spawn (.execute ⟨active.call.slot, active.call.query⟩), hpool, trivial⟩
  · split at h
    · cases h
      exact .inl rfl
    · cases h
      exact .inl rfl
    · cases h

theorem Facade.start_pool {f f' : Facade π} {call : FacadeCall} (h : f.start call = some f') :
    f'.pool = f.pool ∨ ∃ a, (runtimeMachine π).step f.pool a = some f'.pool ∧
      InstallsApart f.pool a := by
  unfold Facade.start at h
  split at h
  · cases h
  · simp only at h
    split at h
    · rcases Option.map_eq_some_iff.mp h with ⟨pool, hpool, rfl⟩
      exact .inr ⟨.spawn .currentGeneration, hpool, trivial⟩
    · cases h
      exact .inl rfl

/-- A guarded step of the facade is at most one guarded step of the runtime. -/
theorem Facade.next_pool {f f' : Facade π} {a : FacadeAction π} (hok : FacadeGuard f a)
    (h : f.next a = some f') :
    f'.pool = f.pool ∨ ∃ a, (runtimeMachine π).step f.pool a = some f'.pool ∧
      InstallsApart f.pool a := by
  cases a with
  | pool a =>
      rcases Option.map_eq_some_iff.mp h with ⟨pool, hpool, rfl⟩
      exact .inr ⟨a, hpool, hok⟩
  | begin call => exact Facade.start_pool h
  | step =>
      rcases Option.bind_eq_some_iff.mp h with ⟨active, -, hadv⟩
      exact Facade.advance_pool hadv
  | joinFailed | dropped =>
      rcases Option.bind_eq_some_iff.mp h with ⟨active, -, hadv⟩
      split at hadv
      · cases hadv
        exact .inl rfl
      · cases hadv

/-- Below the facade, a run of the facade is a run of the runtime whose installs
do not overlap. -/
theorem pool_run_of_run {as : List (FacadeAction π)} {f : Facade π}
    (h : (facadeMachine π).Run FacadeGuard as f) :
    ∃ bs, (runtimeMachine π).Run InstallsApart bs f.pool := by
  refine Machine.Run.stateInvariant
    (P := fun f : Facade π => ∃ bs, (runtimeMachine π).Run InstallsApart bs f.pool) ?_ ?_ h
  · rintro f ⟨hpool, -⟩
    exact ⟨[], .start hpool⟩
  · rintro f a f' ⟨bs, hbs⟩ hok hstep
    rcases Facade.next_pool hok hstep with hsame | ⟨b, hb, hokb⟩
    · exact ⟨bs, hsame ▸ hbs⟩
    · exact ⟨bs ++ [b], hbs.snoc hokb hb⟩

/-! ## What a step of the runtime keeps -/

/-- The history only grows. -/
theorem log_of_step {s s' : Pool (Shared π) (Task π) (Event π)}
    {a : PoolAction Call (Input π) Ambient} (hstep : (runtimeMachine π).step s a = some s') :
    ∃ e : Option (Event π), s'.log = e.toList ++ s.log := by
  cases a with
  | spawn call =>
      cases hstep
      exact ⟨none, rfl⟩
  | env d =>
      cases hstep
      exact ⟨none, rfl⟩
  | run tid input =>
      rcases TaskSystem.advance_run_iff.mp hstep with ⟨t, x, t', e, -, -, rfl⟩
      exact ⟨e, rfl⟩

/-- A task stays as it is, or it is the one that moves. -/
theorem task_of_step {s s' : Pool (Shared π) (Task π) (Event π)}
    {a : PoolAction Call (Input π) Ambient} (hstep : (runtimeMachine π).step s a = some s')
    {j : Nat} {t : Task π} (ht : s.tasks[j]? = some t) :
    s'.tasks[j]? = some t ∨ ∃ input x t' e, a = .run j input ∧
      Task.step j s.shared t input = some (x, t', e) ∧
      s' = ⟨x, s.tasks.set j t', e.toList ++ s.log⟩ ∧ s'.tasks[j]? = some t' := by
  cases a with
  | spawn call =>
      cases hstep
      left
      rw [List.getElem?_append_left (List.getElem?_eq_some_iff.mp ht).1]
      exact ht
  | env d =>
      cases hstep
      exact .inl ht
  | run tid input =>
      rcases TaskSystem.advance_run_iff.mp hstep with ⟨t₀, x, t', e, ht₀, hst, rfl⟩
      by_cases hj : j = tid
      · subst hj
        obtain rfl : t₀ = t := by simpa [ht] using ht₀.symm
        exact .inr ⟨input, x, t', e, rfl, hst, rfl, by
          rw [getElem?_set_of_getElem? ht, if_pos rfl]⟩
      · left
        rw [getElem?_set_of_getElem? ht₀, if_neg hj]
        exact ht

/-- A handle resolved in a step was in the slot of the query. -/
theorem resolved_in_step {s s' : Pool (Shared π) (Task π) (Event π)}
    {a : PoolAction Call (Input π) Ambient} (hstep : (runtimeMachine π).step s a = some s')
    {j : Nat} {h : ProviderHandle π} (hres : .resolved j h ∈ s'.log) :
    .resolved j h ∈ s.log ∨ ∃ c, s.tasks[j]? = some (.execute c .resolve) ∧
      s.shared.runtime.handleAt c.slot = some h := by
  cases a with
  | spawn call =>
      cases hstep
      exact .inl hres
  | env d =>
      cases hstep
      exact .inl hres
  | run tid input =>
      rcases TaskSystem.advance_run_iff.mp hstep with ⟨t, x, t', e, ht, hst, rfl⟩
      rcases mem_toList_append.mp hres with rfl | hold
      · rcases resolved_of_step hst with ⟨rfl, c, rfl, hslot⟩
        exact .inr ⟨c, ht, hslot⟩
      · exact .inl hold

/-- The default slot, once filled, stays filled. -/
theorem provider_of_step {s s' : Pool (Shared π) (Task π) (Event π)}
    {a : PoolAction Call (Input π) Ambient} (hstep : (runtimeMachine π).step s a = some s')
    (hnone : s'.shared.runtime.provider = none) : s.shared.runtime.provider = none := by
  cases a with
  | spawn call =>
      cases hstep
      exact hnone
  | env d =>
      cases hstep
      cases d <;> exact hnone
  | run tid input =>
      rcases TaskSystem.advance_run_iff.mp hstep with ⟨t, x, t', e, -, hst, rfl⟩
      rcases Task.step_cases hst with ⟨c, pc, pc', rfl, rfl, -, heff⟩ |
        ⟨keep, rfl, rfl, -, rfl⟩ | ⟨-, hsame, -, -⟩
      · rcases heff.slot_cases with ⟨h, -, -, hprov⟩ | ⟨-, -, -, hprov, -⟩ | ⟨hprov, -⟩
        · simp only [hprov] at hnone
          cases hnone
        · exact hprov ▸ hnone
        · exact hprov ▸ hnone
      · exact hnone
      · exact hsame.provider ▸ hnone

/-- The generation in the default slot stays at or above a floor it has reached. -/
theorem slotGeneration_of_step {s s' : Pool (Shared π) (Task π) (Event π)}
    {a : PoolAction Call (Input π) Ambient} (hstep : (runtimeMachine π).step s a = some s')
    {g : Nat} (hle : g ≤ s.shared.runtime.slotGeneration) (hfloor : Floor .default g s') :
    g ≤ s'.shared.runtime.slotGeneration := by
  unfold KnowledgeRuntime.slotGeneration at hle ⊢
  cases hprov : s'.shared.runtime.provider with
  | none =>
      rw [provider_of_step hstep hprov] at hle
      exact hle
  | some h => exact hfloor.held hprov

/-- The stored generation stays, or becomes the generation in the slot. -/
theorem value_of_step {s s' : Pool (Shared π) (Task π) (Event π)}
    {a : PoolAction Call (Input π) Ambient} (hstep : (runtimeMachine π).step s a = some s')
    (hepoch : EpochInv s) :
    s'.shared.runtime.currentGenerationValue = s.shared.runtime.currentGenerationValue ∨
      s'.shared.runtime.currentGenerationValue = s.shared.runtime.slotGeneration := by
  cases a with
  | spawn call =>
      cases hstep
      exact .inl rfl
  | env d =>
      cases hstep
      cases d <;> exact .inl rfl
  | run tid input =>
      rcases TaskSystem.advance_run_iff.mp hstep with ⟨t, x, t', e, ht, hst, rfl⟩
      rcases Task.step_cases hst with ⟨c, pc, pc', rfl, rfl, -, heff⟩ |
        ⟨keep, rfl, rfl, -, rfl⟩ | ⟨-, hsame, -, -⟩
      · rcases x with ⟨rt', clock'⟩
        rcases heff.epoch_cases with ⟨-, ⟨h, rfl, rfl, rfl⟩ | ⟨h, rfl, rfl, rfl⟩ | ⟨h, rfl, rfl, rfl⟩ |
          ⟨h, rfl, rfl, rfl⟩⟩ | ⟨-, -, hvalue, -⟩
        · exact .inl rfl
        · exact .inl rfl
        · right
          simp [KnowledgeRuntime.slotGeneration, (hepoch.inside ht).2]
        · exact .inl rfl
        · exact .inl hvalue
      · exact .inl rfl
      · exact .inl hsame.currentGenerationValue

/-! ## Reading the generation -/

/-- What a call knows of the generation it has read, when its slot held `g₀` as
it began: it is no older than `g₀`, and it is a floor of the slot. -/
def GenerationRead (slot : Slot) (g₀ : Nat) (s : Pool (Shared π) (Task π) (Event π)) :
    Option Nat → Prop
  | some g => g₀ ≤ g ∧ Floor slot g s
  | none => g₀ = 0

/-- The same along the steps of `current_generation`. -/
def GenerationPc.Reads (g₀ : Nat) (s : Pool (Shared π) (Task π) (Event π)) :
    GenerationPc → Prop
  | .loadEpoch | .readProvider => True
  | .loadValue _ => g₀ ≤ s.shared.runtime.currentGenerationValue
  | .loadEpochAgain _ g => g₀ ≤ g ∧ Floor .default g s
  | .done result => GenerationRead .default g₀ s result

omit [DefaultHasher] [ValueText] in
/-- Whatever is at most the generation in the default slot is a floor of it. -/
theorem OrderInv.floor_of_le {s : Pool (Shared π) (Task π) (Event π)} (hinv : OrderInv s)
    {g : Nat} (hle : g ≤ s.shared.runtime.slotGeneration) : Floor .default g s := by
  unfold KnowledgeRuntime.slotGeneration at hle
  cases hprov : s.shared.runtime.provider with
  | none =>
      rw [hprov] at hle
      obtain rfl : g = 0 := Nat.le_zero.mp hle
      exact Floor.zero _ _
  | some h =>
      rw [hprov] at hle
      exact (hinv.floors .default hprov).mono hle

theorem GenerationRead.step {s s' : Pool (Shared π) (Task π) (Event π)}
    {a : PoolAction Call (Input π) Ambient} (hstep : (runtimeMachine π).step s a = some s')
    (hdef : DefaultsOnly s) {slot : Slot} {g₀ : Nat} {result : Option Nat}
    (h : GenerationRead slot g₀ s result) : GenerationRead slot g₀ s' result := by
  cases result with
  | none => exact h
  | some g => exact ⟨h.1, h.2.step hdef hstep⟩

/-- A step of another task. -/
theorem GenerationPc.Reads.step {s s' : Pool (Shared π) (Task π) (Event π)}
    {a : PoolAction Call (Input π) Ambient} (hstep : (runtimeMachine π).step s a = some s')
    (hinv : OrderInv s) {g₀ : Nat} (hle : g₀ ≤ s.shared.runtime.slotGeneration)
    {pc : GenerationPc} (h : pc.Reads g₀ s) : pc.Reads g₀ s' := by
  cases pc with
  | loadEpoch | readProvider => trivial
  | loadValue epochBefore =>
      have hvalue : g₀ ≤ s.shared.runtime.currentGenerationValue := h
      rcases value_of_step hstep hinv.epoch with hsame | hslot
      · exact Nat.le_trans hvalue (Nat.le_of_eq hsame.symm)
      · exact Nat.le_trans hle (Nat.le_of_eq hslot.symm)
  | loadEpochAgain epochBefore g => exact ⟨h.1, h.2.step hinv.defaults hstep⟩
  | done result => exact GenerationRead.step hstep hinv.defaults h

omit [DefaultHasher] [ValueText] in
/-- A step of `current_generation` itself: an even epoch means that the stored
generation is the one in the slot. -/
theorem GenerationPc.Reads.advance {s : Pool (Shared π) (Task π) (Event π)}
    (hinv : OrderInv s) {g₀ : Nat} (hle : g₀ ≤ s.shared.runtime.slotGeneration)
    {pc pc' : GenerationPc} (h : pc.Reads g₀ s) (hpc : pc.step s.shared.runtime = some pc') :
    pc'.Reads g₀ s := by
  cases pc with
  | loadEpoch =>
      cases hpc
      by_cases hodd : s.shared.runtime.providerEpoch % 2 = 1
      · rw [if_pos hodd]
        trivial
      · rw [if_neg hodd]
        have hvalue := hinv.epoch.even (by omega)
        exact Nat.le_trans hle (Nat.le_of_eq hvalue.symm)
  | loadValue epochBefore =>
      cases hpc
      exact ⟨h, hinv.floor_of_le hinv.epoch.value_le⟩
  | loadEpochAgain epochBefore g =>
      cases hpc
      split
      · trivial
      · cases g with
        | zero => exact Nat.le_zero.mp h.1
        | succ g => exact h
  | readProvider =>
      cases hpc
      unfold KnowledgeRuntime.slotGeneration at hle
      cases hprov : s.shared.runtime.provider with
      | none =>
          rw [hprov] at hle
          simp only [Reads, KnowledgeRuntime.currentGenerationFromProvider, hprov]
          exact Nat.le_zero.mp hle
      | some handle =>
          rw [hprov] at hle
          simp only [Reads, KnowledgeRuntime.currentGenerationFromProvider, hprov]
          exact ⟨hle, hinv.floors .default hprov⟩
  | done result => cases hpc

/-! ## The invariant of the facade -/

/-- The row was produced for a query of the text's hash by a handle whose
generation satisfies `P`. -/
def RowFrom (log : List (Event π)) (sql : String) (P : Nat → Prop) (row : RowData) : Prop :=
  ∃ (h : ProviderHandle π) (task : Nat) (q : Query) (r : QueryResponse),
    .produced task h q r ∈ log ∧ stableHash q.sql = stableHash sql ∧ r.intoRow = row ∧
      P h.generation

omit [ValueText] in
theorem RowFrom.mono {log log' : List (Event π)} {sql : String} {P P' : Nat → Prop}
    {row : RowData} (h : RowFrom log sql P row) (hlog : ∀ ev ∈ log, ev ∈ log')
    (hP : ∀ g, P g → P' g) : RowFrom log' sql P' row := by
  rcases h with ⟨handle, task, q, r, hp, hsql, hrow, hg⟩
  exact ⟨handle, task, q, r, hlog _ hp, hsql, hrow, hP _ hg⟩

/-- The generation the slot held when the call began, zero for none. -/
def ActiveCall.floor (active : ActiveCall) : Nat :=
  active.startGeneration.getD 0

/-- The generation is not below any announced for the scope. -/
def FieldQueryCache.NotBelow (c : FieldQueryCache) (scope : UInt64) (g : Nat) : Prop :=
  ∀ G, c.generations.lookup scope = some G → G ≤ g

/-- What the call in progress has established. -/
def ActiveCall.Ok (s : Pool (Shared π) (Task π) (Event π)) (c : FieldQueryCache)
    (active : ActiveCall) : Prop :=
  match active.pc with
  | .awaitGeneration task => active.call.slot = .default ∧
      ∃ pc, s.tasks[task]? = some (.currentGeneration pc) ∧ pc.Reads active.floor s
  | .readHandle | .countMiss | .execute => True
  | .lookup generation => GenerationRead active.call.slot active.floor s generation
  | .countHit hit => RowFrom s.log active.call.sql (active.floor ≤ ·) hit
  | .awaitRow task =>
      (∃ pc, s.tasks[task]? = some (.execute ⟨active.call.slot, active.call.query⟩ pc)) ∧
      ∀ h, .resolved task h ∈ s.log →
        active.floor ≤ h.generation ∧ c.NotBelow active.call.scope h.generation

/-- The invariant. -/
structure FacadeInv (f : Facade π) : Prop where
  scopes : ∀ call ∈ f.begun, ∀ call' ∈ f.begun, call.scope = call'.scope →
    call.provider = call'.provider ∧ call.sql = call'.sql
  rows : ∀ {key row}, f.cache.cacheData.peek key = some row →
    ∃ call ∈ f.begun, call.scope = key.scopeHash ∧
      RowFrom f.pool.log call.sql (f.cache.NotBelow key.scopeHash) row
  generations : ∀ {scope G}, f.cache.generations.lookup scope = some G →
    ∃ call ∈ f.begun, call.scope = scope ∧ Floor call.slot G f.pool
  begun : ∀ {active}, f.active = some active → active.call ∈ f.begun
  floor : ∀ {active}, f.active = some active → Floor active.call.slot active.floor f.pool
  slotGeneration : ∀ {active}, f.active = some active → active.call.slot = .default →
    active.floor ≤ f.pool.shared.runtime.slotGeneration
  active : ∀ {active}, f.active = some active → active.Ok f.pool f.cache
  returned : ∀ ret ∈ f.returned, ∀ row, ret.outcome = some row →
    RowFrom ret.history ret.call.sql (ret.startGeneration.getD 0 ≤ ·) row

omit [ValueText] in
/-- Two calls of one scope query one slot. -/
theorem FacadeInv.slot_eq {f : Facade π} (hinv : FacadeInv f) {call call' : FacadeCall}
    (h : call ∈ f.begun) (h' : call' ∈ f.begun) (hscope : call.scope = call'.scope) :
    call.slot = call'.slot := by
  simp only [FacadeCall.slot, (hinv.scopes _ h _ h' hscope).1]

omit [ValueText] in
/-- Whatever the slot of the active call holds is not below what was announced
for its scope. -/
theorem FacadeInv.notBelow_of_held {f : Facade π} (hinv : FacadeInv f) {active : ActiveCall}
    (ha : f.active = some active) {h : ProviderHandle π}
    (hh : f.pool.shared.runtime.handleAt active.call.slot = some h) :
    active.floor ≤ h.generation ∧ f.cache.NotBelow active.call.scope h.generation := by
  refine ⟨(hinv.floor ha).held hh, fun G hG => ?_⟩
  rcases hinv.generations hG with ⟨call, hcall, hscope, hfloor⟩
  rw [hinv.slot_eq hcall (hinv.begun ha) hscope] at hfloor
  exact hfloor.held hh

/-- A step of the runtime keeps what the active call has established. -/
theorem FacadeInv.ok_of_step {f : Facade π} (hinv : FacadeInv f) (horder : OrderInv f.pool)
    {s' : Pool (Shared π) (Task π) (Event π)} {a : PoolAction Call (Input π) Ambient}
    (hstep : (runtimeMachine π).step f.pool a = some s') {active : ActiveCall}
    (ha : f.active = some active) : active.Ok s' f.cache := by
  have hok := hinv.active ha
  rcases log_of_step hstep with ⟨e, hlog⟩
  unfold ActiveCall.Ok at hok ⊢
  split at hok
  · rename_i task hpc
    rcases hok with ⟨hslot, pc, ht, hreads⟩
    have hle := hinv.slotGeneration ha hslot
    have hreads' := GenerationPc.Reads.step hstep horder hle hreads
    refine ⟨hslot, ?_⟩
    rcases task_of_step hstep ht with hsame | ⟨input, x, t', e', -, hst, hs', ht'⟩
    · exact ⟨pc, hsame, hreads'⟩
    · rcases Task.step_cases hst with ⟨_, _, _, heq, -⟩ | ⟨_, heq, -⟩ |
        ⟨-, -, -, ⟨_, _, _, heq, -⟩ | ⟨_, _, _, heq, -⟩ | ⟨pc₀, pc', heq, rfl, rfl, -, hgen⟩⟩
      · cases heq
      · cases heq
      · cases heq
      · cases heq
      · cases heq
        exact ⟨pc', ht', GenerationPc.Reads.step hstep horder hle
          (GenerationPc.Reads.advance horder hle hreads hgen)⟩
  · trivial
  · trivial
  · trivial
  · exact GenerationRead.step hstep horder.defaults hok
  · exact hok.mono (fun ev hev => hlog ▸ List.mem_append_right _ hev) (fun _ h => h)
  · rename_i task hpc
    rcases hok with ⟨⟨pc, ht⟩, hresolved⟩
    constructor
    · rcases task_of_step hstep ht with hsame | ⟨input, x, t', e', -, hst, -, ht'⟩
      · exact ⟨pc, hsame⟩
      · rcases Task.step_cases hst with ⟨_, _, _, heq, -⟩ | ⟨_, heq, -⟩ |
          ⟨-, -, -, ⟨_, _, _, heq, -⟩ | ⟨c, pc₀, pc', heq, rfl, -⟩ | ⟨_, _, heq, -⟩⟩
        · cases heq
        · cases heq
        · cases heq
        · cases heq
          exact ⟨pc', ht'⟩
        · cases heq
    · intro h hres
      rcases resolved_in_step hstep hres with hold | ⟨c, hc, hslot⟩
      · exact hresolved h hold
      · rw [ht, Option.some.injEq] at hc
        cases hc
        exact hinv.notBelow_of_held ha hslot

/-- A step of the runtime keeps the invariant. -/
theorem FacadeInv.pool_step {f : Facade π} (hinv : FacadeInv f) (horder : OrderInv f.pool)
    {s' : Pool (Shared π) (Task π) (Event π)} {a : PoolAction Call (Input π) Ambient}
    (hstep : (runtimeMachine π).step f.pool a = some s') : FacadeInv { f with pool := s' } where
  scopes := hinv.scopes
  rows hpeek := by
    rcases hinv.rows hpeek with ⟨call, hcall, hscope, hrow⟩
    rcases log_of_step hstep with ⟨e, hlog⟩
    exact ⟨call, hcall, hscope, hrow.mono
      (fun ev hev => hlog ▸ List.mem_append_right _ hev) (fun _ h => h)⟩
  generations hG := by
    rcases hinv.generations hG with ⟨call, hcall, hscope, hfloor⟩
    exact ⟨call, hcall, hscope, hfloor.step horder.defaults hstep⟩
  begun := hinv.begun
  floor ha := (hinv.floor ha).step horder.defaults hstep
  slotGeneration ha hslot := by
    have hfloor := (hinv.floor ha).step horder.defaults hstep
    rw [hslot] at hfloor
    exact slotGeneration_of_step hstep (hinv.slotGeneration ha hslot) hfloor
  active ha := hinv.ok_of_step horder hstep ha
  returned := hinv.returned

/-! ## Steps of a cached query -/

omit [ValueText] in
/-- Moving the active call to a place whose claim holds there. -/
theorem FacadeInv.goto {f : Facade π} (hinv : FacadeInv f) {active : ActiveCall} {pc : FacadePc}
    (ha : f.active = some active) (hok : ActiveCall.Ok f.pool f.cache { active with pc }) :
    FacadeInv (f.goto active pc) where
  scopes := hinv.scopes
  rows := hinv.rows
  generations := hinv.generations
  begun heq := by
    have hbegun := hinv.begun ha
    cases heq
    exact hbegun
  floor heq := by
    have hfloor := hinv.floor ha
    cases heq
    exact hfloor
  slotGeneration heq hslot := by
    have hle := hinv.slotGeneration ha
    cases heq
    exact hle hslot
  active heq := by
    cases heq
    exact hok
  returned := hinv.returned

omit [ValueText] in
/-- The active call returns. -/
theorem FacadeInv.finish {f : Facade π} (hinv : FacadeInv f) {active : ActiveCall}
    {outcome : Option RowData}
    (hrow : ∀ row, outcome = some row →
      RowFrom f.pool.log active.call.sql (active.floor ≤ ·) row) :
    FacadeInv (f.finish active outcome) where
  scopes := hinv.scopes
  rows := hinv.rows
  generations := hinv.generations
  begun heq := nomatch heq
  floor heq := nomatch heq
  slotGeneration heq := nomatch heq
  active heq := nomatch heq
  returned := by
    intro ret hret
    rcases List.mem_cons.mp hret with rfl | hold
    · exact hrow
    · exact hinv.returned ret hold

omit [ValueText] in
/-- Announcing a generation that is a floor of the slot. -/
theorem FacadeInv.prepare {f : Facade π} (hinv : FacadeInv f) {call : FacadeCall}
    (hcall : call ∈ f.begun) (hawait : ∀ active, f.active = some active → ∀ task,
      active.pc ≠ .awaitRow task) {g : Nat} (hfloor : Floor call.slot g f.pool) :
    FacadeInv { f with cache := f.cache.prepareGenerationScoped call.scope g } where
  scopes := hinv.scopes
  rows {key row} hpeek := by
    rcases FieldQueryCache.peek_prepareGenerationScoped hpeek with ⟨hold, hsame⟩
    rcases hinv.rows hold with ⟨call', hcall', hscope, hrow⟩
    refine ⟨call', hcall', hscope, hrow.mono (fun ev hev => hev) fun n hn G hG => hn G ?_⟩
    rw [FieldQueryCache.prepareGenerationScoped_generations] at hG
    split at hG
    · rename_i hkey
      rw [hkey, hsame hkey]
      exact hG
    · exact hG
  generations {scope G} hG := by
    rw [FieldQueryCache.prepareGenerationScoped_generations] at hG
    split at hG
    · rename_i hscope
      cases hG
      exact ⟨call, hcall, hscope.symm, hfloor⟩
    · exact hinv.generations hG
  begun := hinv.begun
  floor := hinv.floor
  slotGeneration := hinv.slotGeneration
  active {active} ha := by
    have hok := hinv.active ha
    unfold ActiveCall.Ok at hok ⊢
    split at hok
    · exact hok
    · trivial
    · trivial
    · trivial
    · exact hok
    · exact hok
    · rename_i task hpc
      exact absurd hpc (hawait active ha task)
  returned := hinv.returned

omit [DefaultHasher] in
/-- A save leaves the rows there were, at most one row more, and no generation
that was not announced. -/
theorem FieldQueryCache.saveScoped_weakens (c : FieldQueryCache) (scope : UInt64)
    (params : List DataField) (row : RowData) :
    (∀ {key row'}, (c.saveScoped scope params row).cacheData.peek key = some row' →
      (key.scopeHash = scope ∧ row' = row) ∨ c.cacheData.peek key = some row') ∧
    ∀ {s G}, (c.saveScoped scope params row).generations.lookup s = some G →
      c.generations.lookup s = some G := by
  have hrows : ∀ {key row'}, (c.tryUpIdxs params).1.cacheData.peek key = some row' →
      c.cacheData.peek key = some row' := by
    intro key row' hpeek
    rcases tryUpIdxs_evolves c params with hext | hblank
    · rwa [hext.cacheData] at hpeek
    · rw [hblank.peek] at hpeek
      cases hpeek
  have hgens : ∀ {s G}, (c.tryUpIdxs params).1.generations.lookup s = some G →
      c.generations.lookup s = some G := by
    intro s G hG
    rcases tryUpIdxs_evolves c params with hext | hblank
    · rwa [hext.generations] at hG
    · rw [hblank.generations] at hG
      cases hG
  unfold saveScoped
  simp only
  split
  · rename_i idxs _
    refine ⟨fun {key row'} hpeek => ?_, hgens⟩
    by_cases hkey : key = ⟨scope, idxs⟩
    · subst hkey
      rw [LruCache.peek_put_self, Option.some.injEq] at hpeek
      exact .inl ⟨rfl, hpeek.symm⟩
    · exact .inr (hrows (LruCache.peek_of_peek_put hkey hpeek))
  · exact ⟨fun hpeek => .inr (hrows hpeek), hgens⟩

omit [DefaultHasher] in
/-- A fetched row is in the cache under a key of the scope. -/
theorem FieldQueryCache.peek_of_fetchScoped {c : FieldQueryCache} {scope : UInt64}
    {params : List DataField} {row : RowData} (h : c.fetchScoped scope params = some row) :
    ∃ idxs, c.cacheData.peek ⟨scope, idxs⟩ = some row := by
  unfold fetchScoped at h
  split at h
  · exact ⟨_, h⟩
  · cases h

/-- Saving the row of the active call, which then returns. -/
theorem FacadeInv.save {f : Facade π} (hinv : FacadeInv f) {active : ActiveCall} {row : RowData}
    (ha : f.active = some active)
    (hrow : RowFrom f.pool.log active.call.sql
      (fun g => active.floor ≤ g ∧ f.cache.NotBelow active.call.scope g) row) :
    FacadeInv ({ f with
      cache := f.cache.saveScoped active.call.scope active.call.cParams.params row }.finish active
        (some row)) where
  scopes := hinv.scopes
  rows {key row'} hpeek := by
    rcases FieldQueryCache.saveScoped_weakens f.cache active.call.scope
      active.call.cParams.params row with ⟨hrows, hgens⟩
    rcases hrows hpeek with ⟨hscope, rfl⟩ | hold
    · refine ⟨active.call, hinv.begun ha, hscope.symm, hrow.mono (fun ev hev => hev) ?_⟩
      intro n hn G hG
      rw [hscope] at hG
      exact hn.2 G (hgens hG)
    · rcases hinv.rows hold with ⟨call, hcall, hscope, hfrom⟩
      exact ⟨call, hcall, hscope, hfrom.mono (fun ev hev => hev) fun n hn G hG =>
        hn G (hgens hG)⟩
  generations hG := hinv.generations
    ((FieldQueryCache.saveScoped_weakens f.cache active.call.scope
      active.call.cParams.params row).2 hG)
  begun heq := nomatch heq
  floor heq := nomatch heq
  slotGeneration heq := nomatch heq
  active heq := nomatch heq
  returned := by
    intro ret hret row' heq
    rcases List.mem_cons.mp hret with rfl | hold
    · cases heq
      exact hrow.mono (fun ev hev => hev) fun n hn => hn.1
    · exact hinv.returned ret hold row' heq

/-- The lookup in the local cache. -/
theorem FacadeInv.lookup {f : Facade π} (hinv : FacadeInv f) {active : ActiveCall}
    (ha : f.active = some active) {generation : Option Nat}
    (hpc : active.pc = .lookup generation) :
    FacadeInv { f with cache := (f.lookupLocal active.call generation).1 } ∧
      ∀ hit, (f.lookupLocal active.call generation).2 = some hit →
        RowFrom f.pool.log active.call.sql (active.floor ≤ ·) hit := by
  have hread : GenerationRead active.call.slot active.floor f.pool generation := by
    have hok := hinv.active ha
    simpa only [ActiveCall.Ok, hpc] using hok
  have hprepared : FacadeInv { f with cache := (f.lookupLocal active.call generation).1 } := by
    cases generation with
    | none => exact hinv
    | some g =>
        refine hinv.prepare (hinv.begun ha) ?_ hread.2
        intro active' ha' task hpc'
        rw [ha, Option.some.injEq] at ha'
        rw [← ha', hpc] at hpc'
        cases hpc'
  refine ⟨hprepared, fun hit hhit => ?_⟩
  rcases FieldQueryCache.peek_of_fetchScoped hhit with ⟨idxs, hpeek⟩
  rcases hprepared.rows hpeek with ⟨call, hcall, hscope, hrow⟩
  rw [(hinv.scopes _ hcall _ (hinv.begun ha) hscope).2] at hrow
  refine hrow.mono (fun ev hev => hev) fun n hn => ?_
  cases generation with
  | none =>
      have hzero : active.floor = 0 := hread
      exact hzero ▸ Nat.zero_le n
  | some g =>
      have hannounced : (f.cache.prepareGenerationScoped active.call.scope g).generations.lookup
          active.call.scope = some g := by
        rw [FieldQueryCache.prepareGenerationScoped_generations, if_pos rfl]
      exact Nat.le_trans hread.1 (hn g hannounced)

/-- The next step of the active call. -/
theorem FacadeInv.advance {f f' : Facade π} (hinv : FacadeInv f) (horder : OrderInv f.pool)
    (hanswers : Pool.Holds AnswerInv TaskAnswers f.pool) {active : ActiveCall}
    (ha : f.active = some active) (hstep : f.advance active = some f') : FacadeInv f' := by
  have hok := hinv.active ha
  unfold Facade.advance at hstep
  split at hstep
  · rename_i task hpc
    split at hstep
    · rename_i generation htask
      cases hstep
      simp only [ActiveCall.Ok, hpc] at hok
      rcases hok with ⟨hslot, pc, ht, hreads⟩
      rw [htask] at ht
      cases ht
      refine hinv.goto ha ?_
      simp only [ActiveCall.Ok, hslot]
      exact hreads
    · cases hstep
  · rename_i hpc
    split at hstep
    · rename_i handle hres
      cases hstep
      have hslot := KnowledgeRuntime.resolve_eq_ok_iff.mp hres
      exact hinv.goto ha ⟨(hinv.floor ha).held hslot, horder.floors _ hslot⟩
    · cases hstep
      exact hinv.finish (by simp)
  · rename_i generation hpc
    rcases hinv.lookup ha hpc with ⟨hprepared, hhit⟩
    split at hstep
    · rename_i cache hit heq
      cases hstep
      rw [heq] at hprepared hhit
      exact hprepared.goto ha (hhit hit rfl)
    · rename_i cache heq
      cases hstep
      rw [heq] at hprepared
      exact hprepared.goto ha trivial
  · rename_i hit hpc
    rcases Option.map_eq_some_iff.mp hstep with ⟨pool, hpool, rfl⟩
    have hinv' := hinv.pool_step horder hpool
    refine hinv'.finish fun row heq => ?_
    cases heq
    have hok' := hinv'.active ha
    simpa only [ActiveCall.Ok, hpc] using hok'
  · rcases Option.map_eq_some_iff.mp hstep with ⟨pool, hpool, rfl⟩
    exact (hinv.pool_step horder hpool).goto ha trivial
  · rcases Option.map_eq_some_iff.mp hstep with ⟨pool, hpool, rfl⟩
    refine (hinv.pool_step horder hpool).goto ha ?_
    cases hpool
    refine ⟨⟨.resolve, by simp [runtimeSystem, Call.start]⟩, fun h hres => ?_⟩
    -- a task that has just been spawned has resolved nothing
    exact absurd (hanswers.global.resolved hres) (Nat.lt_irrefl _)
  · rename_i task hpc
    simp only [ActiveCall.Ok, hpc] at hok
    rcases hok with ⟨⟨pc, ht⟩, hresolved⟩
    split at hstep
    · rename_i c row htask
      cases hstep
      rw [ht] at htask
      cases htask
      rcases (hanswers.tasks ht).answered rfl with ⟨h, r, hres, ⟨task', q, hp, hsql⟩, hanswer⟩
      cases hanswer
      exact hinv.save ha ⟨h, task', q, r, hp, hsql, rfl, hresolved h hres⟩
    · cases hstep
      exact hinv.finish (by simp)
    · cases hstep

omit [ValueText] in
/-- A call that is guarded agrees with the calls before it. -/
theorem FacadeInv.scopes_cons {f : Facade π} (hinv : FacadeInv f) {call : FacadeCall}
    (hok : FacadeGuard f (.begin call)) :
    ∀ c ∈ call :: f.begun, ∀ c' ∈ call :: f.begun, c.scope = c'.scope →
      c.provider = c'.provider ∧ c.sql = c'.sql := by
  intro c hc c' hc' hscope
  rcases List.mem_cons.mp hc with rfl | hold
  · rcases List.mem_cons.mp hc' with rfl | hold'
    · exact ⟨rfl, rfl⟩
    · rcases hok c' hold' hscope.symm with ⟨h1, h2⟩
      exact ⟨h1.symm, h2.symm⟩
  · rcases List.mem_cons.mp hc' with rfl | hold'
    · exact hok c hold hscope
    · exact hinv.scopes c hold c' hold' hscope

omit [ValueText] in
/-- A call begins where what it claims holds. -/
theorem FacadeInv.begins {f : Facade π} (hinv : FacadeInv f) {active : ActiveCall}
    (hscopes : ∀ c ∈ active.call :: f.begun, ∀ c' ∈ active.call :: f.begun, c.scope = c'.scope →
      c.provider = c'.provider ∧ c.sql = c'.sql)
    (hfloor : Floor active.call.slot active.floor f.pool)
    (hdefault : active.call.slot = .default →
      active.floor ≤ f.pool.shared.runtime.slotGeneration)
    (hactive : active.Ok f.pool f.cache) :
    FacadeInv { f with active := some active, begun := active.call :: f.begun } where
  scopes := hscopes
  rows hpeek := by
    rcases hinv.rows hpeek with ⟨c, hc, hrest⟩
    exact ⟨c, List.mem_cons_of_mem _ hc, hrest⟩
  generations hG := by
    rcases hinv.generations hG with ⟨c, hc, hrest⟩
    exact ⟨c, List.mem_cons_of_mem _ hc, hrest⟩
  begun heq := by
    cases heq
    exact List.mem_cons_self
  floor heq := by
    cases heq
    exact hfloor
  slotGeneration heq hslot := by
    cases heq
    exact hdefault hslot
  active heq := by
    cases heq
    exact hactive
  returned := hinv.returned

/-- The beginning of a call. -/
theorem FacadeInv.start {f f' : Facade π} (hinv : FacadeInv f) (horder : OrderInv f.pool)
    {call : FacadeCall} (hok : FacadeGuard f (.begin call)) (hstep : f.start call = some f') :
    FacadeInv f' := by
  -- what the slot holds at the beginning
  have hfloor : Floor call.slot
      (((f.pool.shared.runtime.handleAt call.slot).map ProviderHandle.generation).getD 0)
      f.pool := by
    cases hslot : f.pool.shared.runtime.handleAt call.slot with
    | none => exact Floor.zero _ _
    | some h => exact horder.floors _ hslot
  have hscopes := hinv.scopes_cons hok
  unfold Facade.start at hstep
  split at hstep
  · cases hstep
  · simp only at hstep
    split at hstep
    · rename_i hprovider
      rcases Option.map_eq_some_iff.mp hstep with ⟨pool, hpool, rfl⟩
      have hslot : call.slot = .default := by simp [FacadeCall.slot, hprovider]
      refine (hinv.pool_step horder hpool).begins hscopes
        (hfloor.step horder.defaults hpool) (fun _ => ?_) ?_
      · cases hpool
        rw [ActiveCall.floor, hslot]
        exact Nat.le_refl _
      · cases hpool
        exact ⟨hslot, .loadEpoch, by simp [runtimeSystem, Call.start], trivial⟩
    · rename_i name hprovider
      cases hstep
      refine hinv.begins hscopes hfloor (fun hdefault => ?_) trivial
      simp [FacadeCall.slot, hprovider] at hdefault

/-! ## Whole runs -/

/-- The invariant of the facade in every guarded run. -/
theorem facade_of_run {as : List (FacadeAction π)} {f : Facade π}
    (h : (facadeMachine π).Run FacadeGuard as f) : FacadeInv f := by
  refine Machine.Run.invariant (P := fun _ f => FacadeInv f) ?_ ?_ h
  · rintro ⟨pool, cache, active, begun, returned⟩ ⟨-, ⟨size, hcache⟩, hactive, hbegun, hreturned⟩
    simp only at hcache hactive hbegun hreturned
    subst hcache hactive hbegun hreturned
    constructor <;> simp [FieldQueryCache.withCapacity]
  · intro as f a f' hrun hinv hok hstep
    rcases pool_run_of_run hrun with ⟨bs, hpool⟩
    have horder := order_of_run hpool
    have hanswers := answers_of_run hpool
    cases a with
    | pool a =>
        rcases Option.map_eq_some_iff.mp hstep with ⟨pool, hp, rfl⟩
        exact hinv.pool_step horder hp
    | begin call => exact hinv.start horder hok hstep
    | step =>
        rcases Option.bind_eq_some_iff.mp hstep with ⟨active, ha, hadv⟩
        exact hinv.advance horder hanswers ha hadv
    | joinFailed =>
        rcases Option.bind_eq_some_iff.mp hstep with ⟨active, ha, hadv⟩
        split at hadv
        · cases hadv
          exact hinv.finish (by simp)
        · cases hadv
    | dropped =>
        rcases Option.bind_eq_some_iff.mp hstep with ⟨active, ha, hadv⟩
        split at hadv
        · cases hadv
          refine ⟨hinv.scopes, hinv.rows, hinv.generations, ?_, ?_, ?_, ?_, hinv.returned⟩ <;>
            simp
        · cases hadv

/-- **Coherence of the cached queries.**  In every run in which the installs of
one slot do not overlap and different queries use different scopes, every row a
cached query returns was produced, before it returned and for a query of the same
text hash, by a handle no older than the one its slot held when the call began:
from the local cache, from the result cache or from the provider alike. -/
theorem cached_query_coherent {as : List (FacadeAction π)} {f : Facade π}
    (hrun : (facadeMachine π).Run FacadeGuard as f) {ret : ReturnedCall π}
    (hret : ret ∈ f.returned) {row : RowData} (hrow : ret.outcome = some row) :
    ∃ (h : ProviderHandle π) (task : Nat) (q : Query) (r : QueryResponse),
      .produced task h q r ∈ ret.history ∧ stableHash q.sql = stableHash ret.call.sql ∧
        r.intoRow = row ∧ ∀ g, ret.startGeneration = some g → g ≤ h.generation := by
  rcases (facade_of_run hrun).returned ret hret row hrow with ⟨h, task, q, r, hp, hsql, hrow, hg⟩
  refine ⟨h, task, q, r, hp, hsql, hrow, fun g hstart => ?_⟩
  simpa [hstart] using hg

end Machine

/-! ## A run with a reload -/

/-- A cached query of the default provider with one cache parameter. -/
def nameOfSeven : FacadeCall where
  provider := none
  sql := "SELECT name FROM users WHERE id = :id"
  localCacheScope := 7
  cParams := oneBigUint 7
  queryParams := [.fromChars ":id" "7"]
  isAsync := false

/-- A default install by the call with number `tid`. -/
def installActions (tid : Nat) : List (FacadeAction Unit) :=
  .pool (.spawn (.install (.installProvider .postgres ⟨"postgres:a"⟩))) ::
    (installSteps tid 7).map .pool

/-- A cached query that misses; reading the generation is the call with number
`tid` and executing the query the next one. -/
def missActions (tid : Nat) (row : RowData) : List (FacadeAction Unit) :=
  ([.begin nameOfSeven] : List (FacadeAction Unit)) ++
  List.replicate 3 (.pool (.run tid .go) : FacadeAction Unit) ++
  List.replicate 4 (.step : FacadeAction Unit) ++
  List.replicate 5 (.pool (.run (tid + 1) .go) : FacadeAction Unit) ++
  ([.pool (.run (tid + 1) (.answered (.row (.ok row)))), .pool (.run (tid + 1) .go), .step] :
    List (FacadeAction Unit))

/-- A cached query that finds its row in the local cache. -/
def hitActions (tid : Nat) : List (FacadeAction Unit) :=
  ([.begin nameOfSeven] : List (FacadeAction Unit)) ++
  List.replicate 3 (.pool (.run tid .go) : FacadeAction Unit) ++
  List.replicate 3 (.step : FacadeAction Unit)

/-- The same query before a reload, after it, and once more. -/
def reloadedQueries : List (FacadeAction Unit) :=
  installActions 0 ++ missActions 1 [.fromChars "name" "old"] ++ installActions 3 ++
  missActions 4 [.fromChars "name" "new"] ++ hitActions 6

theorem cached_query_coherent_after_reload :
    letI := sipHasher
    letI := numericText
    ∃ f ret row, (facadeMachine Unit).Run FacadeGuard reloadedQueries f ∧ ret ∈ f.returned ∧
      ret.outcome = some row ∧ ret.startGeneration = some 2 ∧
      ∃ (h : ProviderHandle Unit) (task : Nat) (q : Query) (r : QueryResponse),
        .produced task h q r ∈ ret.history ∧ stableHash q.sql = stableHash ret.call.sql ∧
          r.intoRow = row ∧ ∀ g, ret.startGeneration = some g → g ≤ h.generation := by
  let _ := sipHasher
  let _ := numericText
  have hinit : (facadeMachine Unit).init
      ⟨newPool Unit 4, FieldQueryCache.withCapacity 4, none, [], []⟩ :=
    ⟨newPool_init Unit 4, ⟨4, rfl⟩, rfl, rfl, rfl⟩
  have hexec : ((facadeMachine Unit).exec FacadeGuard
      ⟨newPool Unit 4, FieldQueryCache.withCapacity 4, none, [], []⟩ reloadedQueries).any
        (fun f => f.returned.length == 3 && f.returned.head?.any fun ret =>
          ret.outcome.isSome && decide (ret.startGeneration = some 2)) = true := by
    decide +kernel
  rcases Machine.exists_run_of_exec_any hinit hexec with ⟨f, hrun, hend⟩
  rw [Bool.and_eq_true] at hend
  rcases (Option.any_eq_true _ _).mp hend.2 with ⟨ret, hhead, hret⟩
  rw [Bool.and_eq_true] at hret
  rcases Option.isSome_iff_exists.mp hret.1 with ⟨row, hrow⟩
  have hmem : ret ∈ f.returned := List.mem_of_mem_head? hhead
  exact ⟨f, ret, row, hrun, hmem, hrow, of_decide_eq_true hret.2,
    cached_query_coherent hrun hmem hrow⟩

end WpKnowledge
