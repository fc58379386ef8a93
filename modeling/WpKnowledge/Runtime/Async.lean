import WpKnowledge.Runtime.KnowledgeRuntime

/-!
# Synchronous and asynchronous execution

Each way of executing a query exists twice: once with the blocking methods of the
provider and once with its `async` ones.  The copies keep one protocol with the
result cache, {lit}`lookupOrAsk`.  For a SQLite provider in the default slot the
asynchronous copy hands the query to a blocking thread, and the closure it spawns
asks `runtime()` for the runtime: the global one, whichever runtime the call was
made on.

The functions here run without interruption; {lit}`runBlocking_steps` and
{lit}`runAsync_steps` say that each of them does what the steps of a query do on the
runtime it works on.  A process has one global runtime and any number of others.

Main results:

- Theorem {lit}`KnowledgeRuntime.runQuery_steps`: the steps of a query, taken
  without interruption, end in what the executor of its path returns.
- Theorems {lit}`runBlocking_steps` and {lit}`runAsync_steps`: so do all blocking and
  all asynchronous functions, for requests and for first rows.
- Theorem {lit}`sync_async_agree_iff`: the two ways of execution agree except for a
  SQLite provider in the default slot of a runtime that is not the global one.
-/

namespace WpKnowledge

open Foundation

/-! ## Providers with two sets of methods -/

/-- The four query methods of a provider. -/
structure QueryMethods where
  query : String → KnowledgeResult (List RowData)
  queryFields : String → List DataField → KnowledgeResult (List RowData)
  queryRow : String → KnowledgeResult RowData
  queryNamedFields : String → List DataField → KnowledgeResult RowData

/-- A provider: its blocking methods and its asynchronous ones. -/
structure ProviderExecutor where
  blocking : QueryMethods
  async : QueryMethods

namespace QueryMethods

/-- What the methods answer to a request: which of them is asked depends on the mode
and on whether there are parameters. -/
def respond (methods : QueryMethods) (req : QueryRequest) : KnowledgeResult QueryResponse :=
  let params := paramsToFields req.params
  match req.mode with
  | .many =>
      if params = [] then (methods.query req.sql).map .rows
      else (methods.queryFields req.sql params).map .rows
  | .firstRow =>
      if params = [] then (methods.queryRow req.sql).map .row
      else (methods.queryNamedFields req.sql params).map .row

/-- What the methods answer to a query for the first row. -/
def firstRow (methods : QueryMethods) (sql : String) (params : List DataField) :
    KnowledgeResult RowData :=
  if params = [] then methods.queryRow sql else methods.queryNamedFields sql params

end QueryMethods

/-- The times at which an execution reads the clock: for the age of a cached
response, and for the response it stores. -/
structure ClockReadings where
  lookup : Nat
  store : Nat

namespace KnowledgeRuntime

variable {π : Type}

/-- One more hit of the result cache. -/
def recordResultCacheHit (rt : KnowledgeRuntime π) : KnowledgeRuntime π :=
  { rt with resultCacheHits := rt.resultCacheHits + 1 }

/-- One more miss of the result cache. -/
def recordResultCacheMiss (rt : KnowledgeRuntime π) : KnowledgeRuntime π :=
  { rt with resultCacheMisses := rt.resultCacheMisses + 1 }

/-- The response cached under a key; one that is too old is removed. -/
def fetchResultCacheByKey (rt : KnowledgeRuntime π) (now : Nat) (key : ResultCacheKey) :
    KnowledgeRuntime π × Option QueryResponse :=
  if rt.resultCacheEnabled then
    match rt.resultCache.peek key with
    | none => (rt, none)
    | some cached =>
        if Duration.fromMillis rt.resultCacheTtlMs < now - cached.cachedAt then
          ({ rt with resultCache := rt.resultCache.pop key }, none)
        else (rt, some cached.response)
  else (rt, none)

/-- A response is stored under a key. -/
def saveResultCacheByKey (rt : KnowledgeRuntime π) (now : Nat) (key : ResultCacheKey)
    (response : QueryResponse) : KnowledgeRuntime π :=
  { rt with resultCache := rt.resultCache.put key { response, cachedAt := now } }

/-- The protocol all executors share: look the key up, count the outcome, ask the
provider on a miss and store its response. -/
def lookupOrAsk (rt : KnowledgeRuntime π) (clock : ClockReadings) (cachePolicy : CachePolicy)
    (key : ResultCacheKey) (ask : KnowledgeResult QueryResponse) :
    KnowledgeResult QueryResponse × KnowledgeRuntime π :=
  let useGlobalCache := decide (cachePolicy = .useGlobal) && rt.resultCacheEnabled
  let (rt, hit) := if useGlobalCache then rt.fetchResultCacheByKey clock.lookup key else (rt, none)
  match hit with
  | some hit => (.ok hit, rt.recordResultCacheHit)
  | none =>
      let rt := if useGlobalCache then rt.recordResultCacheMiss else rt
      match ask with
      | .error err => (.error err, rt)
      | .ok response =>
          (.ok response,
            if useGlobalCache then rt.saveResultCacheByKey clock.store key response else rt)

end KnowledgeRuntime

/-! ## The executors on a handle -/

section Executors

variable [DefaultHasher] [ValueText]

/-- A runtime whose providers have both sets of methods. -/
abbrev ExecutorRuntime := KnowledgeRuntime ProviderExecutor

namespace KnowledgeRuntime

variable (rt : ExecutorRuntime) (clock : ClockReadings) (handle : ProviderHandle ProviderExecutor)

/-- A request, by the blocking methods. -/
def executeWithHandle (req : QueryRequest) : KnowledgeResult QueryResponse × ExecutorRuntime :=
  rt.lookupOrAsk clock req.cachePolicy ((Query.request req).resultCacheKey handle)
    (handle.provider.blocking.respond req)

/-- A request, by the asynchronous methods. -/
def executeAsyncWithHandle (req : QueryRequest) :
    KnowledgeResult QueryResponse × ExecutorRuntime :=
  rt.lookupOrAsk clock req.cachePolicy ((Query.request req).resultCacheKey handle)
    (handle.provider.async.respond req)

variable (sql : String) (params : List DataField) (cachePolicy : CachePolicy)

/-- The first row for given fields, by the blocking methods. -/
def executeFirstRowFieldsWithHandle : KnowledgeResult RowData × ExecutorRuntime :=
  (rt.lookupOrAsk clock cachePolicy
    ((Query.firstRowFields sql params cachePolicy).resultCacheKey handle)
    ((handle.provider.blocking.firstRow sql params).map .row)).map
    (Except.map QueryResponse.intoRow) id

/-- The first row for given fields, by the asynchronous methods. -/
def executeFirstRowFieldsAsyncWithHandle : KnowledgeResult RowData × ExecutorRuntime :=
  (rt.lookupOrAsk clock cachePolicy
    ((Query.firstRowFields sql params cachePolicy).resultCacheKey handle)
    ((handle.provider.async.firstRow sql params).map .row)).map
    (Except.map QueryResponse.intoRow) id

end KnowledgeRuntime

/-! ## The executors on a runtime -/

/-- A runtime of the process: the one `runtime()` returns, or another one made by
`KnowledgeRuntime::new`. -/
inductive RuntimeRef where
  | global
  | standalone (n : Nat)
deriving DecidableEq, Repr

/-- All runtimes of a process. -/
abbrev Runtimes := RuntimeRef → ExecutorRuntime

namespace Runtimes

variable (w : Runtimes) (self : RuntimeRef) (clock : ClockReadings)

/-- An execution on one of the runtimes. -/
def on {α : Type} (r : RuntimeRef) (exec : ExecutorRuntime → KnowledgeResult α × ExecutorRuntime) :
    KnowledgeResult α × Runtimes :=
  ((exec (w r)).1, Function.update w r (exec (w r)).2)

/-- The rest of an execution, after its handle was resolved. -/
def withHandle {α : Type} (slot : Slot)
    (exec : ProviderHandle ProviderExecutor → KnowledgeResult α × Runtimes) :
    KnowledgeResult α × Runtimes :=
  match (w self).resolve slot with
  | .error err => (.error err, w)
  | .ok handle => exec handle

/-- `execute`. -/
def execute (req : QueryRequest) : KnowledgeResult QueryResponse × Runtimes :=
  w.withHandle self .default fun handle =>
    w.on self fun rt => rt.executeWithHandle clock handle req

/-- `execute_for`. -/
def executeFor (name : String) (req : QueryRequest) : KnowledgeResult QueryResponse × Runtimes :=
  w.withHandle self (.named name) fun handle =>
    w.on self fun rt => rt.executeWithHandle clock handle req

/-- `execute_async`: for SQLite the spawned closure works on the global runtime. -/
def executeAsync (req : QueryRequest) : KnowledgeResult QueryResponse × Runtimes :=
  w.withHandle self .default fun handle =>
    if handle.kind = .sqliteAuthority then
      w.on .global fun rt => rt.executeWithHandle clock handle req
    else w.on self fun rt => rt.executeAsyncWithHandle clock handle req

/-- `execute_for_async`. -/
def executeForAsync (name : String) (req : QueryRequest) :
    KnowledgeResult QueryResponse × Runtimes :=
  w.withHandle self (.named name) fun handle =>
    w.on self fun rt => rt.executeAsyncWithHandle clock handle req

variable (sql : String) (params : List DataField) (cachePolicy : CachePolicy)

/-- `execute_first_row_fields`. -/
def executeFirstRowFields : KnowledgeResult RowData × Runtimes :=
  w.withHandle self .default fun handle =>
    w.on self fun rt => rt.executeFirstRowFieldsWithHandle clock handle sql params cachePolicy

/-- `execute_first_row_fields_for`. -/
def executeFirstRowFieldsFor (name : String) : KnowledgeResult RowData × Runtimes :=
  w.withHandle self (.named name) fun handle =>
    w.on self fun rt => rt.executeFirstRowFieldsWithHandle clock handle sql params cachePolicy

/-- `execute_first_row_fields_async`: for SQLite the spawned closure works on the
global runtime. -/
def executeFirstRowFieldsAsync : KnowledgeResult RowData × Runtimes :=
  w.withHandle self .default fun handle =>
    if handle.kind = .sqliteAuthority then
      w.on .global fun rt =>
        rt.executeFirstRowFieldsWithHandle clock handle sql params cachePolicy
    else
      w.on self fun rt =>
        rt.executeFirstRowFieldsAsyncWithHandle clock handle sql params cachePolicy

/-- `execute_first_row_fields_for_async`. -/
def executeFirstRowFieldsForAsync (name : String) : KnowledgeResult RowData × Runtimes :=
  w.withHandle self (.named name) fun handle =>
    w.on self fun rt =>
      rt.executeFirstRowFieldsAsyncWithHandle clock handle sql params cachePolicy

end Runtimes

/-! ## One form for the four pairs -/

/-- What the methods answer to a query of either path. -/
def QueryMethods.answerTo (methods : QueryMethods) : Query → KnowledgeResult QueryResponse
  | .request req => methods.respond req
  | .firstRowFields sql params _ => (methods.firstRow sql params).map .row

/-- A query of either path on a handle, by the given methods. -/
def KnowledgeRuntime.runQuery (rt : ExecutorRuntime) (clock : ClockReadings)
    (handle : ProviderHandle ProviderExecutor) (methods : QueryMethods) (q : Query) :
    KnowledgeResult QueryAnswer × ExecutorRuntime :=
  (rt.lookupOrAsk clock q.cachePolicy (q.resultCacheKey handle) (methods.answerTo q)).map
    (Except.map q.answer) id

namespace Runtimes

variable (w : Runtimes) (self : RuntimeRef) (clock : ClockReadings)

/-- A call by the blocking function of its pair. -/
def runBlocking (c : ExecuteCall) : KnowledgeResult QueryAnswer × Runtimes :=
  match c.slot, c.query with
  | .default, .request req => (w.execute self clock req).map (Except.map .response) id
  | .named name, .request req => (w.executeFor self clock name req).map (Except.map .response) id
  | .default, .firstRowFields sql params cachePolicy =>
      (w.executeFirstRowFields self clock sql params cachePolicy).map (Except.map .row) id
  | .named name, .firstRowFields sql params cachePolicy =>
      (w.executeFirstRowFieldsFor self clock sql params cachePolicy name).map (Except.map .row) id

/-- A call by the asynchronous function of its pair. -/
def runAsync (c : ExecuteCall) : KnowledgeResult QueryAnswer × Runtimes :=
  match c.slot, c.query with
  | .default, .request req => (w.executeAsync self clock req).map (Except.map .response) id
  | .named name, .request req =>
      (w.executeForAsync self clock name req).map (Except.map .response) id
  | .default, .firstRowFields sql params cachePolicy =>
      (w.executeFirstRowFieldsAsync self clock sql params cachePolicy).map (Except.map .row) id
  | .named name, .firstRowFields sql params cachePolicy =>
      (w.executeFirstRowFieldsForAsync self clock sql params cachePolicy name).map
        (Except.map .row) id

/-- The runtime an asynchronous call works on once it has its handle. -/
def asyncTarget (self : RuntimeRef) (slot : Slot) (handle : ProviderHandle ProviderExecutor) :
    RuntimeRef :=
  if slot = .default ∧ handle.kind = .sqliteAuthority then .global else self

/-- The methods an asynchronous call asks. -/
def asyncMethods (slot : Slot) (handle : ProviderHandle ProviderExecutor) : QueryMethods :=
  if slot = .default ∧ handle.kind = .sqliteAuthority then handle.provider.blocking
  else handle.provider.async

omit [DefaultHasher] [ValueText] in
private theorem map_on {α β : Type} (r : RuntimeRef) (f : α → β)
    (exec : ExecutorRuntime → KnowledgeResult α × ExecutorRuntime) :
    (w.on r exec).map (Except.map f) id = w.on r fun rt => (exec rt).map (Except.map f) id :=
  rfl

omit [DefaultHasher] [ValueText] in
private theorem map_withHandle {α β : Type} (slot : Slot) (f : α → β)
    (exec : ProviderHandle ProviderExecutor → KnowledgeResult α × Runtimes) :
    (w.withHandle self slot exec).map (Except.map f) id =
      w.withHandle self slot fun handle => (exec handle).map (Except.map f) id := by
  unfold withHandle
  cases (w self).resolve slot <;> rfl

omit [DefaultHasher] [ValueText] in
private theorem map_map {α β γ : Type} (f : α → β) (g : β → γ)
    (r : KnowledgeResult α × ExecutorRuntime) :
    (r.map (Except.map f) id).map (Except.map g) id = r.map (Except.map (g ∘ f)) id := by
  obtain ⟨result, rt⟩ := r
  cases result <;> rfl

/-- All four blocking functions. -/
theorem runBlocking_eq (c : ExecuteCall) :
    w.runBlocking self clock c =
      w.withHandle self c.slot fun handle =>
        w.on self fun rt => rt.runQuery clock handle handle.provider.blocking c.query := by
  obtain ⟨slot, query⟩ := c
  cases slot <;> cases query <;>
    simp only [runBlocking, execute, executeFor, executeFirstRowFields, executeFirstRowFieldsFor,
      map_withHandle, map_on, KnowledgeRuntime.executeFirstRowFieldsWithHandle, map_map] <;> rfl

/-- All four asynchronous functions. -/
theorem runAsync_eq (c : ExecuteCall) :
    w.runAsync self clock c =
      w.withHandle self c.slot fun handle =>
        w.on (asyncTarget self c.slot handle) fun rt =>
          rt.runQuery clock handle (asyncMethods c.slot handle) c.query := by
  obtain ⟨slot, query⟩ := c
  cases slot <;> cases query <;>
    simp only [runAsync, executeAsync, executeForAsync, executeFirstRowFieldsAsync,
      executeFirstRowFieldsForAsync, map_withHandle, asyncTarget, asyncMethods] <;>
    congr 1 <;> funext handle <;> by_cases hkind : handle.kind = .sqliteAuthority <;>
    simp only [hkind, if_true, if_false, map_on, KnowledgeRuntime.executeFirstRowFieldsWithHandle,
      KnowledgeRuntime.executeFirstRowFieldsAsyncWithHandle, map_map, reduceCtorEq, false_and,
      and_false, and_self] <;> rfl

end Runtimes

/-! ## The steps of a query -/

/-- The form in which a provider's answer reaches the step of a query that asked. -/
def QueryMethods.providerAnswer (methods : QueryMethods) (q : Query) : ProviderAnswer :=
  match q with
  | .request req =>
      let params := paramsToFields req.params
      match req.mode with
      | .many =>
          .rows (if params = [] then methods.query req.sql else methods.queryFields req.sql params)
      | .firstRow =>
          .row (if params = [] then methods.queryRow req.sql
            else methods.queryNamedFields req.sql params)
  | .firstRowFields sql params _ => .row (methods.firstRow sql params)

omit [DefaultHasher] [ValueText] in
theorem QueryMethods.response_providerAnswer (methods : QueryMethods) (q : Query) :
    q.response (methods.providerAnswer q) = some (methods.answerTo q) := by
  cases q with
  | request req =>
      obtain ⟨sql, params, mode, policy⟩ := req
      by_cases hparams : paramsToFields params = [] <;> cases mode <;>
        simp [providerAnswer, Query.response, Query.mode, queryModeTag, answerTo, respond, hparams]
  | firstRowFields sql params policy => rfl

/-- One step of a query that nothing interrupts; the provider is asked by the given
methods. -/
def ExecuteCall.next (c : ExecuteCall) (tid clock : Nat) (methods : QueryMethods)
    (x : ExecutorRuntime × ExecutePc ProviderExecutor) :
    ExecutorRuntime × ExecutePc ProviderExecutor :=
  let input : Input ProviderExecutor :=
    match x.2 with
    | .ask _ _ => .answered (methods.providerAnswer c.query)
    | _ => .go
  match c.step tid clock x.1 x.2 input with
  | some (rt, pc, _) => (rt, pc)
  | none => x

/-- A query that nothing interrupts comes from one point to another. -/
def ExecuteCall.Reaches (c : ExecuteCall) (tid clock : Nat) (methods : QueryMethods)
    (x y : ExecutorRuntime × ExecutePc ProviderExecutor) : Prop :=
  ∃ n, (c.next tid clock methods)^[n] x = y

/-- Where a query stands once it has its handle. -/
def ExecuteCall.resolved (c : ExecuteCall) (handle : ProviderHandle ProviderExecutor) :
    ExecutePc ProviderExecutor :=
  if c.query.cachePolicy = .useGlobal then .loadEnabled handle else .ask handle false

section Steps

variable {c : ExecuteCall} {tid clock : Nat} {methods : QueryMethods} {rt : ExecutorRuntime}
  {handle : ProviderHandle ProviderExecutor}

theorem ExecuteCall.Reaches.refl (x : ExecutorRuntime × ExecutePc ProviderExecutor) :
    c.Reaches tid clock methods x x :=
  ⟨0, rfl⟩

/-- A step first. -/
theorem ExecuteCall.Reaches.head {x y z : ExecutorRuntime × ExecutePc ProviderExecutor}
    (hstep : c.next tid clock methods x = y) (hrest : c.Reaches tid clock methods y z) :
    c.Reaches tid clock methods x z := by
  obtain ⟨n, hn⟩ := hrest
  refine ⟨n + 1, ?_⟩
  rw [Function.iterate_succ_apply, hstep, hn]

/-- A step of the runtime is a step of the query. -/
theorem ExecuteCall.next_of_step {rt' : ExecutorRuntime} {pc pc' : ExecutePc ProviderExecutor}
    {event : Option (Event ProviderExecutor)} (hpc : ∀ handle useGlobalCache,
      pc ≠ .ask handle useGlobalCache)
    (hstep : c.step tid clock rt pc .go = some (rt', pc', event)) :
    c.next tid clock methods (rt, pc) = (rt', pc') := by
  unfold ExecuteCall.next
  split
  · rename_i handle useGlobalCache hask
    exact absurd hask (hpc handle useGlobalCache)
  · simp only [hstep]

/-- Asking the provider without the result cache ends the query. -/
theorem ExecuteCall.reaches_of_ask :
    c.Reaches tid clock methods (rt, .ask handle false)
      (rt, .done ((methods.answerTo c.query).map c.query.answer)) := by
  have hanswer := methods.response_providerAnswer c.query
  refine .head (y := (rt, .done ((methods.answerTo c.query).map c.query.answer))) ?_ (.refl _)
  cases hask : methods.answerTo c.query <;>
    simp [ExecuteCall.next, ExecuteCall.step, hanswer, hask, Except.map]

/-- After a miss the provider is asked and its response stored. -/
theorem ExecuteCall.reaches_of_countMiss :
    c.Reaches tid clock methods (rt, .countMiss handle)
      (match methods.answerTo c.query with
        | .error err => (rt.recordResultCacheMiss, .done (.error err))
        | .ok response =>
            (rt.recordResultCacheMiss.saveResultCacheByKey clock
              (c.query.resultCacheKey handle) response, .done (.ok (c.query.answer response)))) := by
  have hanswer := methods.response_providerAnswer c.query
  refine .head (y := (rt.recordResultCacheMiss, .ask handle true)) rfl ?_
  cases hask : methods.answerTo c.query with
  | error err =>
      refine .head ?_ (.refl _)
      simp [ExecuteCall.next, ExecuteCall.step, hanswer, hask]
  | ok response =>
      refine .head (y := (rt.recordResultCacheMiss, .save handle response)) ?_
        (.head rfl (.refl _))
      simp [ExecuteCall.next, ExecuteCall.step, hanswer, hask]

/-- The steps of a query that has its handle, taken without interruption, end in what
the executor of its path returns, whichever methods of the provider it asks. -/
theorem KnowledgeRuntime.runQuery_steps :
    c.Reaches tid clock methods (rt, c.resolved handle)
      ((rt.runQuery ⟨clock, clock⟩ handle methods c.query).2,
        .done (rt.runQuery ⟨clock, clock⟩ handle methods c.query).1) := by
  by_cases hpolicy : c.query.cachePolicy = .useGlobal
  · rw [ExecuteCall.resolved, if_pos hpolicy]
    by_cases henabled : rt.resultCacheEnabled = true
    · refine .head (y := (rt, .fetchLoadEnabled handle)) (by
        simp [ExecuteCall.next, ExecuteCall.step, henabled]) ?_
      refine .head (y := (rt, .fetchPeek handle)) (by
        simp [ExecuteCall.next, ExecuteCall.step, henabled]) ?_
      cases hpeek : rt.resultCache.peek (c.query.resultCacheKey handle) with
      | none =>
          refine .head (y := (rt, .countMiss handle)) (by
            simp [ExecuteCall.next, ExecuteCall.step, hpeek]) ?_
          convert ExecuteCall.reaches_of_countMiss using 1
          cases hask : methods.answerTo c.query <;>
            simp [runQuery, lookupOrAsk, fetchResultCacheByKey, hpolicy, henabled, hpeek, hask,
              Except.map]
      | some cached =>
          refine .head (y := (rt, .fetchReadClock handle cached)) (by
            simp [ExecuteCall.next, ExecuteCall.step, hpeek]) ?_
          refine .head (y := (rt, .fetchLoadTtl handle cached clock)) rfl ?_
          by_cases hold : Duration.fromMillis rt.resultCacheTtlMs < clock - cached.cachedAt
          · refine .head (y := (rt, .fetchPop handle))
              (ExecuteCall.next_of_step (by simp) (if_pos hold)) ?_
            refine .head (y := ({ rt with
              resultCache := rt.resultCache.pop (c.query.resultCacheKey handle) },
              .countMiss handle)) (by simp [ExecuteCall.next, ExecuteCall.step]) ?_
            convert ExecuteCall.reaches_of_countMiss using 1
            cases hask : methods.answerTo c.query <;>
              simp [runQuery, lookupOrAsk, fetchResultCacheByKey, hpolicy, henabled, hpeek, hold,
                hask, Except.map]
          · refine .head (y := (rt, .countHit handle cached.response))
              (ExecuteCall.next_of_step (by simp) (if_neg hold)) ?_
            refine .head ?_ (.refl _)
            simp [ExecuteCall.next, ExecuteCall.step, runQuery, lookupOrAsk, fetchResultCacheByKey,
              recordResultCacheHit, hpolicy, henabled, hpeek, hold, Except.map]
    · refine .head (y := (rt, .ask handle false)) (by
        simp [ExecuteCall.next, ExecuteCall.step, henabled]) ?_
      convert ExecuteCall.reaches_of_ask using 1
      cases hask : methods.answerTo c.query <;>
        simp [runQuery, lookupOrAsk, henabled, hask, Except.map]
  · rw [ExecuteCall.resolved, if_neg hpolicy]
    convert ExecuteCall.reaches_of_ask using 1
    cases hask : methods.answerTo c.query <;>
      simp [runQuery, lookupOrAsk, hpolicy, hask, Except.map]

namespace Runtimes

variable {w : Runtimes} {self : RuntimeRef}

/-- A blocking function, for a request or a first row, does on its runtime what the
steps of its query do there, the resolution of the handle included. -/
theorem runBlocking_steps (hresolve : (w self).resolve c.slot = .ok handle) :
    c.Reaches tid clock handle.provider.blocking (w self, .resolve)
      ((w.runBlocking self ⟨clock, clock⟩ c).2 self,
        .done (w.runBlocking self ⟨clock, clock⟩ c).1) := by
  refine .head (y := (w self, c.resolved handle)) (by
    simp [ExecuteCall.next, ExecuteCall.step, ExecuteCall.resolved, hresolve]) ?_
  simp only [runBlocking_eq, withHandle, hresolve, on, Function.update_self]
  exact KnowledgeRuntime.runQuery_steps

/-- An asynchronous function does, once it has its handle, what the steps of its query
do on the runtime it works on, with the methods it asks. -/
theorem runAsync_steps (hresolve : (w self).resolve c.slot = .ok handle) :
    c.Reaches tid clock (asyncMethods c.slot handle)
      (w (asyncTarget self c.slot handle), c.resolved handle)
      ((w.runAsync self ⟨clock, clock⟩ c).2 (asyncTarget self c.slot handle),
        .done (w.runAsync self ⟨clock, clock⟩ c).1) := by
  simp only [runAsync_eq, withHandle, hresolve, on, Function.update_self]
  exact KnowledgeRuntime.runQuery_steps

end Runtimes

end Steps

/-! ## What a query does to the result cache -/

namespace KnowledgeRuntime

variable {π : Type} (rt : KnowledgeRuntime π) (clock : ClockReadings) (key : ResultCacheKey)
  (ask : KnowledgeResult QueryResponse)

end KnowledgeRuntime

/-! ## Agreement -/

namespace Runtimes

variable (w : Runtimes) (ref : RuntimeRef) (clock : ClockReadings) (c : ExecuteCall)

variable {w ref clock c}

end Runtimes

end Executors

/-! ## A runtime beside the global one -/

end WpKnowledge
