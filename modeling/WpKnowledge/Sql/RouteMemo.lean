import WpKnowledge.Model.Hash
import WpKnowledge.Runtime.Handles
import WpKnowledge.Sql.Route

/-!
# The memo of routes

`route_provider_sql` (`src/sql_route.rs`) remembers the routes it computed.  The memo is
for one number of the provider registry at a time: a call reads the number, looks its
statement up in the memo if the memo is for that number, and otherwise computes the route
and stores it under the number it read.  These are separate steps; between them providers
are installed and pruned and other calls read and write the memo, so a slow call may put
the memo back to an older number and store a route of a registry that is long gone, or a
route of a newer registry under an older number.

A route may be wrong for its number, but not for the present one: an install changes the
registry before it raises the number, so while no install stands between the two, what is
stored under the present number was computed from the present registry.

Main results:

- Theorem {lit}`registry_step`: what one step of the runtime does to the registry and its
  number.
- Theorem {lit}`routeInv_of_run`: the invariant of the memo and of the calls in progress.
- Theorem {lit}`route_memo_transparent`: a call without an install or prune in progress
  returns the route of the current registry, and the memo stays within its bound.
-/

open Foundation

namespace WpKnowledge.SqlRoute

variable {π : Type}

/-! ## The memo -/

/-- The name of a provider and the statement it is sent. -/
abbrev Route := List UInt8 × List UInt8

/-- The number of statements the memo holds at most. -/
def routeMemoCap : Nat := 1024

/-- The routes computed for one number of the registry; a statement without a route is
remembered as well. -/
structure RouteMemo where
  epoch : Nat
  map : HashMap UInt64 (Option Route)

/-- The memo of a new process. -/
def RouteMemo.new : RouteMemo := ⟨0, ∅⟩

/-- The key of a statement. -/
def sqlRouteKey [DefaultHasher] (sql : String) : UInt64 :=
  DefaultHasher.finish (strBytes sql)

/-- What the memo has for a statement, if it is for this number. -/
def RouteMemo.get [DefaultHasher] (memo : RouteMemo) (epoch : Nat) (sql : String) :
    Option (Option Route) :=
  if memo.epoch = epoch then memo.map.lookup (sqlRouteKey sql) else none

/-- What is kept of the memo before a store under a number: routes for another number are
forgotten, and so are all when the memo is full. -/
def RouteMemo.kept (memo : RouteMemo) (epoch : Nat) : HashMap UInt64 (Option Route) :=
  let map := if memo.epoch ≠ epoch then ∅ else memo.map
  if map.entries.length ≥ routeMemoCap then ∅ else map

/-- Store a route under a number. -/
def RouteMemo.store [DefaultHasher] (memo : RouteMemo) (epoch : Nat) (sql : String)
    (routed : Option Route) : RouteMemo :=
  ⟨epoch, (memo.kept epoch).insert (sqlRouteKey sql) routed⟩

/-- Whether a provider is registered under a name. -/
def providerExists (rt : KnowledgeRuntime π) (name : List UInt8) : Bool :=
  rt.namedProviders.keys.any fun key => key.toUTF8.toList == name

/-- The route of a statement by the present registry. -/
def routeBy (rt : KnowledgeRuntime π) (sql : String) : Option Route :=
  computeRoute (providerExists rt) sql.toUTF8.toList

/-! ## Calls -/

/-- Where a call of `route_provider_sql` stands. -/
inductive RoutePc where
  | loadEpoch
  | readMemo (epoch : Nat)
  | compute (epoch : Nat)
  | store (epoch : Nat) (routed : Option Route)
  | done (routed : Option Route)
deriving DecidableEq

/-- A call, in progress or returned. -/
structure RouteCall where
  sql : String
  pc : RoutePc
deriving DecidableEq

/-- The router over the runtime: the memo and all calls made so far. -/
structure Router (π : Type) where
  pool : Pool (Shared π) (Task π) (Event π)
  memo : RouteMemo
  calls : List RouteCall

/-- What may happen: anything in the runtime, the beginning of a call, and the next step of
one. -/
inductive RouteAction (π : Type) where
  | pool (a : PoolAction Call (Input π) Ambient)
  | begin (sql : String)
  | step (call : Nat)

/-- The number of steps a call takes at most before it returns. -/
def RoutePc.remaining : RoutePc → Nat
  | .loadEpoch => 4
  | .readMemo _ => 3
  | .compute _ => 2
  | .store _ _ => 1
  | .done _ => 0

namespace Router

section Steps

variable [DefaultHasher]

/-- The runtime the router asks. -/
abbrev runtime (s : Router π) : KnowledgeRuntime π :=
  s.pool.shared.runtime

/-- Begin a call. -/
def begin (s : Router π) (sql : String) : Router π :=
  { s with calls := s.calls ++ [⟨sql, .loadEpoch⟩] }

/-- One step of a call: what it leaves of the memo, and where it stands then. -/
def advance (s : Router π) (call : RouteCall) : Option (RouteMemo × RoutePc) :=
  match call.pc with
  | .loadEpoch => some (s.memo, .readMemo s.runtime.namedProviderEpoch)
  | .readMemo epoch =>
      match s.memo.get epoch call.sql with
      | some routed => some (s.memo, .done routed)
      | none => some (s.memo, .compute epoch)
  | .compute epoch => some (s.memo, .store epoch (routeBy s.runtime call.sql))
  | .store epoch routed => some (s.memo.store epoch call.sql routed, .done routed)
  | .done _ => none

variable [ValueText]

/-- One step of the router. -/
def next (s : Router π) : RouteAction π → Option (Router π)
  | .pool a => ((runtimeMachine π).step s.pool a).map fun pool => { s with pool }
  | .begin sql => some (s.begin sql)
  | .step j =>
      (s.calls[j]?).bind fun call =>
        (s.advance call).map fun r =>
          { s with memo := r.1, calls := s.calls.set j { call with pc := r.2 } }

end Steps

end Router

variable (π) in
/-- The router as a machine: a new runtime, an empty memo and no calls. -/
def routeMachine [DefaultHasher] [ValueText] : Machine (Router π) (RouteAction π) where
  init s := (runtimeMachine π).init s.pool ∧ s.memo = RouteMemo.new ∧ s.calls = []
  step := Router.next

/-! ## The registry and its number -/

/-- Whether an install has changed the registry and not yet raised its number. -/
def ahead : Task π → Bool
  | .install _ (.bumpNamedEpoch _) => true
  | _ => false

/-- No install stands between changing the registry and raising its number. -/
def Settled (s : Pool (Shared π) (Task π) (Event π)) : Prop :=
  ∀ t ∈ s.tasks, ahead t = false

/-- Whether an install or a prune is in progress. -/
def updating : Task π → Bool
  | .install _ (.done _) => false
  | .install _ _ => true
  | .prune _ returned => !returned
  | _ => false

/-- No install and no prune is in progress. -/
def NoUpdate (s : Pool (Shared π) (Task π) (Event π)) : Prop :=
  ∀ t ∈ s.tasks, updating t = false

instance (s : Pool (Shared π) (Task π) (Event π)) : Decidable (NoUpdate s) :=
  inferInstanceAs (Decidable (∀ t ∈ s.tasks, updating t = false))

theorem NoUpdate.settled {s : Pool (Shared π) (Task π) (Event π)} (h : NoUpdate s) :
    Settled s := by
  intro t ht
  have hquiet := h t ht
  unfold ahead
  split
  · exact hquiet
  · rfl

/-- Two runtimes agree on the registry and its number. -/
def SameRegistry (rt rt' : KnowledgeRuntime π) : Prop :=
  rt'.namedProviders = rt.namedProviders ∧ rt'.namedProviderEpoch = rt.namedProviderEpoch

theorem SameRegistry.routeBy {rt rt' : KnowledgeRuntime π} (h : SameRegistry rt rt')
    (sql : String) : routeBy rt' sql = routeBy rt sql := by
  unfold SqlRoute.routeBy providerExists
  rw [h.1]

/-- A prune that keeps the number keeps the registry. -/
theorem prune_registry (rt : KnowledgeRuntime π) (keep : List String) :
    SameRegistry rt (rt.pruneNamedProvidersExcept keep) ∨
      rt.namedProviderEpoch < (rt.pruneNamedProvidersExcept keep).namedProviderEpoch := by
  unfold KnowledgeRuntime.pruneNamedProvidersExcept
  by_cases hlen : (rt.namedProviders.retain fun name => decide (name ∈ keep)).entries.length ≠
      rt.namedProviders.entries.length
  · right
    simp only [if_pos hlen]
    omega
  · left
    refine ⟨?_, if_neg hlen⟩
    have hsub : (rt.namedProviders.retain fun name => decide (name ∈ keep)).entries.Sublist
        rt.namedProviders.entries := List.filter_sublist
    exact AList.ext (hsub.eq_of_length (not_not.mp hlen))

theorem configure_registry {c : ConfigureCall} {rt rt' : KnowledgeRuntime π}
    {pc pc' : ConfigurePc} {input : Input π} {e : Option (Event π)}
    (h : c.step rt pc input = some (rt', pc', e)) : SameRegistry rt rt' := by
  unfold ConfigureCall.step at h
  split at h
  all_goals cases h
  all_goals exact ⟨rfl, rfl⟩

/-- What one step of an install does to the registry. -/
theorem install_registry {c : InstallCall} {tid : Nat} {rt rt' : KnowledgeRuntime π}
    {pc pc' : InstallPc π} {e : Option (Event π)} (h : InstallEffect c tid rt pc rt' pc' e) :
    updating (.install c pc) = true ∧
    ((SameRegistry rt rt' ∧ ahead (.install c pc) = false) ∨
      rt.namedProviderEpoch < rt'.namedProviderEpoch ∨
      (rt'.namedProviderEpoch = rt.namedProviderEpoch ∧ ahead (.install c pc') = true)) := by
  cases h with
  | insertNamed handle => exact ⟨rfl, .inr (.inr ⟨rfl, rfl⟩)⟩
  | bumpNamedEpoch handle => exact ⟨rfl, .inr (.inl (Nat.lt_succ_self _))⟩
  | _ => exact ⟨rfl, .inl ⟨⟨rfl, rfl⟩, rfl⟩⟩

section Registry

variable [DefaultHasher] [ValueText]

theorem execute_registry {c : ExecuteCall} {tid clock : Nat} {rt rt' : KnowledgeRuntime π}
    {pc pc' : ExecutePc π} {input : Input π} {e : Option (Event π)}
    (h : c.step tid clock rt pc input = some (rt', pc', e)) : SameRegistry rt rt' := by
  unfold ExecuteCall.step at h
  split at h
  all_goals try split at h
  all_goals cases h
  all_goals exact ⟨rfl, rfl⟩

/-- What one step of a call of the runtime does to the registry: nothing, or the call
raises its number, or it changes it and has yet to raise its number. -/
theorem task_registry {tid : Nat} {x x' : Shared π} {t t' : Task π} {input : Input π}
    {e : Option (Event π)} (h : Task.step tid x t input = some (x', t', e)) :
    (SameRegistry x.runtime x'.runtime ∧ ahead t = false) ∨
    (updating t = true ∧
      (x.runtime.namedProviderEpoch < x'.runtime.namedProviderEpoch ∨
        (x'.runtime.namedProviderEpoch = x.runtime.namedProviderEpoch ∧ ahead t' = true))) := by
  rcases Task.step_cases h with
    ⟨c, pc, pc', rfl, rfl, -, heffect⟩ | ⟨keep, rfl, rfl, -, rfl⟩ | ⟨-, -, -, hquiet⟩
  · rcases install_registry heffect with ⟨hupdating, hsame | hraised | hahead⟩
    · exact .inl hsame
    · exact .inr ⟨hupdating, .inl hraised⟩
    · exact .inr ⟨hupdating, .inr hahead⟩
  · rcases prune_registry x.runtime keep with hsame | hraised
    · exact .inl ⟨hsame, rfl⟩
    · exact .inr ⟨rfl, .inl hraised⟩
  · left
    rcases hquiet with ⟨c, pc, pc', rfl, rfl, hstep⟩ | ⟨c, pc, pc', rfl, rfl, hstep⟩ |
      ⟨pc, pc', rfl, rfl, rfl, -, -⟩
    · exact ⟨configure_registry hstep, rfl⟩
    · exact ⟨execute_registry hstep, rfl⟩
    · exact ⟨⟨rfl, rfl⟩, rfl⟩

/-- What one step of the runtime does to the registry and its number: nothing, or it
raises the number, or an install is left that has yet to raise it. -/
theorem registry_step {s s' : Pool (Shared π) (Task π) (Event π)}
    {a : PoolAction Call (Input π) Ambient} (h : (runtimeMachine π).step s a = some s') :
    (SameRegistry s.shared.runtime s'.shared.runtime ∧ (Settled s' → Settled s)) ∨
    (¬ NoUpdate s ∧
      (s.shared.runtime.namedProviderEpoch < s'.shared.runtime.namedProviderEpoch ∨
        (s'.shared.runtime.namedProviderEpoch = s.shared.runtime.namedProviderEpoch ∧
          ¬ Settled s'))) := by
  cases a with
  | spawn call =>
      cases h
      exact .inl ⟨⟨rfl, rfl⟩, fun hsettled t ht => hsettled t (List.mem_append_left _ ht)⟩
  | env d =>
      cases h
      refine .inl ⟨?_, id⟩
      cases d <;> exact ⟨rfl, rfl⟩
  | run tid input =>
      rcases TaskSystem.advance_run_iff.mp h with ⟨t, x, t', e, ht, hstep, rfl⟩
      have hmem : t ∈ s.tasks := List.mem_of_getElem? ht
      have hset : t' ∈ s.tasks.set tid t' := by
        refine List.mem_of_getElem? (i := tid) ?_
        rw [getElem?_set_of_getElem? ht, if_pos rfl]
      rcases task_registry hstep with ⟨hsame, hahead⟩ | ⟨hupdating, hchange⟩
      · refine .inl ⟨hsame, ?_⟩
        intro hsettled u hu
        obtain ⟨j, hj⟩ := List.mem_iff_getElem?.mp hu
        by_cases htid : j = tid
        · rw [htid, ht] at hj
          rw [← Option.some.inj hj]
          exact hahead
        · refine hsettled u (List.mem_of_getElem? (i := j) ?_)
          rw [getElem?_set_of_getElem? ht, if_neg htid]
          exact hj
      · right
        refine ⟨fun hquiet => ?_, ?_⟩
        · rw [hquiet t hmem] at hupdating
          cases hupdating
        · rcases hchange with hraised | ⟨hepoch, hahead⟩
          · exact .inl hraised
          · refine .inr ⟨hepoch, fun hsettled => ?_⟩
            rw [hsettled t' hset] at hahead
            cases hahead

end Registry

/-! ## The memo as a map -/

theorem RouteMemo.lookup_kept {memo : RouteMemo} {epoch : Nat} {key : UInt64}
    {found : Option Route} (h : (memo.kept epoch).lookup key = some found) :
    memo.epoch = epoch ∧ memo.map.lookup key = some found := by
  by_cases hepoch : memo.epoch = epoch
  · simp only [kept, hepoch, ne_eq, not_true, if_false] at h
    split at h
    · simp at h
    · exact ⟨hepoch, h⟩
  · simp only [kept, hepoch, ne_eq, not_false_eq_true, if_true, ite_self] at h
    simp at h

theorem RouteMemo.length_kept (memo : RouteMemo) (epoch : Nat) :
    (memo.kept epoch).entries.length < routeMemoCap := by
  simp only [kept]
  generalize (if memo.epoch ≠ epoch then ∅ else memo.map) = map
  by_cases hfull : map.entries.length ≥ routeMemoCap
  · rw [if_pos hfull]
    exact Nat.zero_lt_succ 1023
  · rw [if_neg hfull]
    exact Nat.lt_of_not_le hfull

section Memo

variable [DefaultHasher]

/-- What the memo has after a store: the route stored, or, under the same number, what it
had before. -/
theorem RouteMemo.lookup_store {memo : RouteMemo} {epoch : Nat} {sql : String}
    {routed found : Option Route} {key : UInt64}
    (h : (memo.store epoch sql routed).map.lookup key = some found) :
    (key = sqlRouteKey sql ∧ found = routed) ∨
      (memo.epoch = epoch ∧ memo.map.lookup key = some found) := by
  simp only [store] at h
  by_cases hkey : key = sqlRouteKey sql
  · rw [hkey, AList.lookup_insert] at h
    exact .inl ⟨hkey, (Option.some.inj h).symm⟩
  · rw [AList.lookup_insert_ne hkey] at h
    exact .inr (lookup_kept h)

/-- The memo never grows over its bound. -/
theorem RouteMemo.length_store (memo : RouteMemo) (epoch : Nat) (sql : String)
    (routed : Option Route) :
    (memo.store epoch sql routed).map.entries.length ≤ routeMemoCap := by
  have hkept := memo.length_kept epoch
  have herase := (List.kerase_sublist (sqlRouteKey sql) (memo.kept epoch).entries).length_le
  simp only [store, AList.entries_insert, List.length_cons]
  omega

theorem RouteMemo.get_eq_some_iff {memo : RouteMemo} {epoch : Nat} {sql : String}
    {routed : Option Route} :
    memo.get epoch sql = some routed ↔
      memo.epoch = epoch ∧ memo.map.lookup (sqlRouteKey sql) = some routed := by
  rw [get]
  split
  · rename_i hepoch
    simp [hepoch]
  · rename_i hepoch
    simp [hepoch]

end Memo

/-! ## The invariant -/

/-- A route under a number of the registry: if that is the present number, and no install
has yet to raise it, the route is that of the present registry. -/
def Fresh (s : Pool (Shared π) (Task π) (Event π)) (epoch : Nat) (sql : String)
    (routed : Option Route) : Prop :=
  epoch = s.shared.runtime.namedProviderEpoch → Settled s → routed = routeBy s.shared.runtime sql

/-- What a call in progress has read and computed. -/
def RoutePc.Sound (s : Pool (Shared π) (Task π) (Event π)) (sql : String) : RoutePc → Prop
  | .loadEpoch | .done _ => True
  | .readMemo epoch | .compute epoch => epoch ≤ s.shared.runtime.namedProviderEpoch
  | .store epoch routed =>
      epoch ≤ s.shared.runtime.namedProviderEpoch ∧ Fresh s epoch sql routed

/-- The statements of all calls so far. -/
def Router.texts (s : Router π) : List String :=
  s.calls.map RouteCall.sql

/-- The invariant: no number read is ahead of the registry's, every entry of the memo is
the route of a statement some call asked for, and routes are fresh. -/
structure RouteInv [DefaultHasher] (s : Router π) : Prop where
  epoch : s.memo.epoch ≤ s.runtime.namedProviderEpoch
  entries : ∀ {key routed}, s.memo.map.lookup key = some routed →
    ∃ sql ∈ s.texts, sqlRouteKey sql = key ∧ Fresh s.pool s.memo.epoch sql routed
  calls : ∀ call ∈ s.calls, call.pc.Sound s.pool call.sql
  size : s.memo.map.entries.length ≤ routeMemoCap

section Runs

variable [DefaultHasher] [ValueText]

/-- The number of the registry only rises. -/
theorem epoch_le_of_step {s s' : Pool (Shared π) (Task π) (Event π)}
    {a : PoolAction Call (Input π) Ambient} (h : (runtimeMachine π).step s a = some s') :
    s.shared.runtime.namedProviderEpoch ≤ s'.shared.runtime.namedProviderEpoch := by
  rcases registry_step h with ⟨hsame, -⟩ | ⟨-, hraised | ⟨hepoch, -⟩⟩
  · exact hsame.2.ge
  · exact hraised.le
  · exact hepoch.ge

/-- A step of the runtime keeps routes fresh. -/
theorem Fresh.step {s s' : Pool (Shared π) (Task π) (Event π)}
    {a : PoolAction Call (Input π) Ambient} (h : (runtimeMachine π).step s a = some s')
    {epoch : Nat} {sql : String} {routed : Option Route}
    (hle : epoch ≤ s.shared.runtime.namedProviderEpoch) (hfresh : Fresh s epoch sql routed) :
    Fresh s' epoch sql routed := by
  intro hepoch hsettled
  rcases registry_step h with ⟨hsame, hback⟩ | ⟨-, hraised | ⟨-, hahead⟩⟩
  · rw [hsame.routeBy]
    exact hfresh (hepoch.trans hsame.2) (hback hsettled)
  · omega
  · exact absurd hsettled hahead

/-- A step of the runtime keeps what calls have read and computed. -/
theorem RoutePc.Sound.step {s s' : Pool (Shared π) (Task π) (Event π)}
    {a : PoolAction Call (Input π) Ambient} (h : (runtimeMachine π).step s a = some s')
    {sql : String} {pc : RoutePc} (hsound : pc.Sound s sql) : pc.Sound s' sql := by
  have hle := epoch_le_of_step h
  cases pc with
  | loadEpoch => trivial
  | readMemo epoch => exact Nat.le_trans hsound hle
  | compute epoch => exact Nat.le_trans hsound hle
  | store epoch routed => exact ⟨Nat.le_trans hsound.1 hle, hsound.2.step h hsound.1⟩
  | done routed => trivial

theorem RouteInv.pool {s : Router π} (hinv : RouteInv s)
    {pool : Pool (Shared π) (Task π) (Event π)} {a : PoolAction Call (Input π) Ambient}
    (h : (runtimeMachine π).step s.pool a = some pool) : RouteInv { s with pool } where
  epoch := hinv.epoch.trans (epoch_le_of_step h)
  entries := by
    intro key routed hfound
    obtain ⟨sql, hsql, hkey, hfresh⟩ := hinv.entries hfound
    exact ⟨sql, hsql, hkey, hfresh.step h hinv.epoch⟩
  calls := fun call hcall => (hinv.calls call hcall).step h
  size := hinv.size

omit [ValueText] in
theorem RouteInv.begin {s : Router π} (hinv : RouteInv s) (sql : String) :
    RouteInv (s.begin sql) where
  epoch := hinv.epoch
  entries := by
    intro key routed hfound
    obtain ⟨sql', hsql', hkey, hfresh⟩ := hinv.entries hfound
    refine ⟨sql', ?_, hkey, hfresh⟩
    simp only [Router.texts, Router.begin, List.map_append]
    exact List.mem_append_left _ hsql'
  calls := by
    intro call hcall
    rcases List.mem_append.mp hcall with hcall | hcall
    · exact hinv.calls call hcall
    · rw [List.mem_singleton.mp hcall]
      trivial
  size := hinv.size

omit [DefaultHasher] [ValueText] in
/-- A step of a call does not change what it was asked. -/
theorem texts_set {calls : List RouteCall} {j : Nat} {call : RouteCall}
    (hj : calls[j]? = some call) (pc : RoutePc) :
    (calls.set j { call with pc }).map RouteCall.sql = calls.map RouteCall.sql := by
  apply List.ext_getElem?
  intro i
  rw [List.getElem?_map, List.getElem?_map, getElem?_set_of_getElem? hj]
  by_cases hi : i = j
  · rw [if_pos hi, hi, hj]
    rfl
  · rw [if_neg hi]

/-- The effect of one step of a call, case by case. -/
inductive RouteEffect (s : Router π) (sql : String) : RoutePc → RouteMemo → RoutePc → Prop
  | loadEpoch : RouteEffect s sql .loadEpoch s.memo (.readMemo s.runtime.namedProviderEpoch)
  | hit {epoch : Nat} {routed : Option Route} (hfound : s.memo.get epoch sql = some routed) :
      RouteEffect s sql (.readMemo epoch) s.memo (.done routed)
  | miss {epoch : Nat} : RouteEffect s sql (.readMemo epoch) s.memo (.compute epoch)
  | compute {epoch : Nat} :
      RouteEffect s sql (.compute epoch) s.memo (.store epoch (routeBy s.runtime sql))
  | store {epoch : Nat} {routed : Option Route} :
      RouteEffect s sql (.store epoch routed) (s.memo.store epoch sql routed) (.done routed)

omit [ValueText] in
theorem Router.advance_effect {s : Router π} {call : RouteCall} {memo : RouteMemo} {pc : RoutePc}
    (h : s.advance call = some (memo, pc)) : RouteEffect s call.sql call.pc memo pc := by
  obtain ⟨sql, before⟩ := call
  cases before with
  | loadEpoch =>
      cases h
      exact .loadEpoch
  | readMemo epoch =>
      simp only [advance] at h
      split at h
      · rename_i hfound
        cases h
        exact .hit hfound
      · cases h
        exact .miss
  | compute epoch =>
      cases h
      exact .compute
  | store epoch routed =>
      cases h
      exact .store
  | done routed => cases h

omit [ValueText] in
/-- A step of a call keeps the invariant. -/
theorem RouteInv.call {s : Router π} (hinv : RouteInv s) {j : Nat} {call : RouteCall}
    (hj : s.calls[j]? = some call) {memo : RouteMemo} {pc : RoutePc}
    (h : RouteEffect s call.sql call.pc memo pc) :
    RouteInv { s with memo, calls := s.calls.set j { call with pc } } := by
  have hsound := hinv.calls call (List.mem_of_getElem? hj)
  have htexts : ∀ {sql}, sql ∈ s.texts →
      sql ∈ (s.calls.set j { call with pc }).map RouteCall.sql := by
    intro sql hsql
    rw [texts_set hj]
    exact hsql
  have hcalls : pc.Sound s.pool call.sql →
      ∀ other ∈ s.calls.set j { call with pc }, other.pc.Sound s.pool other.sql := by
    intro hpc other hother
    rcases List.mem_or_eq_of_mem_set hother with hold | rfl
    · exact hinv.calls other hold
    · exact hpc
  -- a step that leaves the memo alone
  have hkeep : pc.Sound s.pool call.sql →
      RouteInv { s with calls := s.calls.set j { call with pc } } := by
    intro hpc
    refine ⟨hinv.epoch, ?_, hcalls hpc, hinv.size⟩
    intro key routed hfound
    obtain ⟨sql, hsql, hrest⟩ := hinv.entries hfound
    exact ⟨sql, htexts hsql, hrest⟩
  generalize hbefore : call.pc = before at h hsound
  cases h with
  | loadEpoch => exact hkeep (Nat.le_refl _)
  | hit => exact hkeep trivial
  | miss => exact hkeep hsound
  | compute => exact hkeep ⟨hsound, fun _ _ => rfl⟩
  | @store epoch routed =>
      refine ⟨hsound.1, ?_, hcalls trivial, RouteMemo.length_store _ _ _ _⟩
      intro key found hfound
      rcases RouteMemo.lookup_store hfound with ⟨rfl, rfl⟩ | ⟨hepoch, hold⟩
      · exact ⟨call.sql, htexts (List.mem_map_of_mem (List.mem_of_getElem? hj)), rfl, hsound.2⟩
      · obtain ⟨sql, hsql, hkey, hfresh⟩ := hinv.entries hold
        exact ⟨sql, htexts hsql, hkey, hepoch ▸ hfresh⟩

/-- What one step of the router does. -/
theorem Router.next_cases {s s' : Router π} {a : RouteAction π} (h : s.next a = some s') :
    (∃ b pool, (runtimeMachine π).step s.pool b = some pool ∧ s' = { s with pool }) ∨
    (∃ sql, s' = s.begin sql) ∨
    (∃ j call memo pc, s.calls[j]? = some call ∧ RouteEffect s call.sql call.pc memo pc ∧
      s' = { s with memo, calls := s.calls.set j { call with pc } }) := by
  cases a with
  | pool b =>
      obtain ⟨pool, hpool, rfl⟩ := Option.map_eq_some_iff.mp h
      exact .inl ⟨b, pool, hpool, rfl⟩
  | begin sql =>
      cases h
      exact .inr (.inl ⟨sql, rfl⟩)
  | step j =>
      obtain ⟨call, hj, hcall⟩ := Option.bind_eq_some_iff.mp h
      obtain ⟨⟨memo, pc⟩, hadvance, rfl⟩ := Option.map_eq_some_iff.mp hcall
      exact .inr (.inr ⟨j, call, memo, pc, hj, advance_effect hadvance, rfl⟩)

/-- The invariant holds in every reachable state. -/
theorem routeInv_of_run {as : List (RouteAction π)} {s : Router π}
    (h : (routeMachine π).Run Machine.Unguarded as s) : RouteInv s := by
  refine Machine.Run.stateInvariant (P := RouteInv) ?_ ?_ h
  · rintro ⟨pool, memo, calls⟩ ⟨-, rfl, rfl⟩
    refine ⟨Nat.zero_le _, ?_, by simp, Nat.zero_le _⟩
    intro key routed hfound
    simp [RouteMemo.new] at hfound
  · intro s a s' hinv _ hstep
    rcases Router.next_cases hstep with ⟨b, pool, hpool, rfl⟩ | ⟨sql, rfl⟩ |
      ⟨j, call, memo, pc, hj, heffect, rfl⟩
    · exact hinv.pool hpool
    · exact hinv.begin sql
    · exact hinv.call hj heffect

/-! ## A call without updates -/

omit [ValueText] in
/-- A call that has not returned can take its next step, which brings it nearer to its
end. -/
theorem Router.advance_of_remaining (s : Router π) (call : RouteCall)
    (h : call.pc.remaining ≠ 0) :
    ∃ memo pc, s.advance call = some (memo, pc) ∧ pc.remaining < call.pc.remaining := by
  obtain ⟨sql, before⟩ := call
  cases before with
  | loadEpoch => exact ⟨_, _, rfl, Nat.lt_succ_self 3⟩
  | readMemo epoch =>
      cases hfound : s.memo.get epoch sql with
      | some routed => exact ⟨s.memo, .done routed, by simp [advance, hfound], Nat.zero_lt_succ 2⟩
      | none => exact ⟨s.memo, .compute epoch, by simp [advance, hfound], Nat.lt_succ_self 2⟩
  | compute epoch => exact ⟨_, _, rfl, Nat.lt_succ_self 1⟩
  | store epoch routed => exact ⟨_, _, rfl, Nat.lt_succ_self 0⟩
  | done routed => exact absurd rfl h

/-- What a call has read and computed is up to date. -/
def RoutePc.Current (rt : KnowledgeRuntime π) (sql : String) : RoutePc → Prop
  | .loadEpoch => True
  | .readMemo epoch | .compute epoch => epoch = rt.namedProviderEpoch
  | .store _ routed | .done routed => routed = routeBy rt sql

omit [DefaultHasher] [ValueText] in
theorem RoutePc.Current.of_same {rt rt' : KnowledgeRuntime π} (h : SameRegistry rt rt')
    {sql : String} {pc : RoutePc} (hpc : pc.Current rt sql) : pc.Current rt' sql := by
  cases pc with
  | loadEpoch => trivial
  | readMemo epoch => exact hpc.trans h.2.symm
  | compute epoch => exact hpc.trans h.2.symm
  | store epoch routed => exact hpc.trans (h.routeBy sql).symm
  | done routed => exact hpc.trans (h.routeBy sql).symm

/-- Different statements have different keys. -/
def CollisionFree (texts : List String) : Prop :=
  ∀ sql ∈ texts, ∀ sql' ∈ texts, sqlRouteKey sql = sqlRouteKey sql' → sql = sql'

omit [ValueText] in
instance (texts : List String) : Decidable (CollisionFree texts) :=
  inferInstanceAs (Decidable (∀ sql ∈ texts, ∀ sql' ∈ texts,
    sqlRouteKey sql = sqlRouteKey sql' → sql = sql'))

omit [ValueText] in
/-- A step of a call keeps it up to date, if the registry is settled. -/
theorem RouteEffect.current {s : Router π} (hinv : RouteInv s) (hsettled : Settled s.pool)
    (hfree : CollisionFree s.texts) {sql : String} (hsql : sql ∈ s.texts) {before pc : RoutePc}
    {memo : RouteMemo} (h : RouteEffect s sql before memo pc)
    (hcurrent : before.Current s.runtime sql) : pc.Current s.runtime sql := by
  cases h with
  | loadEpoch => exact rfl
  | @hit epoch routed hfound =>
      obtain ⟨hepoch, hlookup⟩ := RouteMemo.get_eq_some_iff.mp hfound
      obtain ⟨sql', hsql', hkey, hfresh⟩ := hinv.entries hlookup
      obtain rfl := hfree sql' hsql' sql hsql hkey
      exact hfresh (hepoch.trans hcurrent) hsettled
  | miss => exact hcurrent
  | compute => exact rfl
  | store => exact hcurrent

omit [DefaultHasher] [ValueText] in
/-- A call in the list after a step of a call. -/
theorem getElem?_calls_set (pc : RoutePc) {calls : List RouteCall} {i j : Nat}
    {call other : RouteCall} (hi : calls[i]? = some call) (hj : calls[j]? = some other) :
    (calls.set i { call with pc })[j]? = some (if j = i then { call with pc } else other) := by
  rw [getElem?_set_of_getElem? hi]
  by_cases hji : j = i
  · rw [if_pos hji, if_pos hji]
  · rw [if_neg hji, if_neg hji, hj]

/-- The statements only become more. -/
theorem texts_of_next {s s' : Router π} {a : RouteAction π} (h : s.next a = some s') :
    ∀ sql ∈ s.texts, sql ∈ s'.texts := by
  intro sql hsql
  rcases Router.next_cases h with ⟨b, pool, -, rfl⟩ | ⟨sql', rfl⟩ |
    ⟨j, call, memo, pc, hj, -, rfl⟩
  · exact hsql
  · simp only [Router.texts, Router.begin, List.map_append]
    exact List.mem_append_left _ hsql
  · simp only [Router.texts, texts_set hj]
    exact hsql

/-- A step without an update in progress keeps a call up to date. -/
theorem current_of_next {s s' : Router π} (hinv : RouteInv s) (hquiet : NoUpdate s.pool)
    {a : RouteAction π} (h : s.next a = some s') (hfree : CollisionFree s.texts) {j : Nat}
    {sql : String} {pc : RoutePc} (hj : s.calls[j]? = some ⟨sql, pc⟩)
    (hcurrent : pc.Current s.runtime sql) :
    ∃ pc', s'.calls[j]? = some ⟨sql, pc'⟩ ∧ pc'.Current s'.runtime sql := by
  rcases Router.next_cases h with ⟨b, pool, hpool, rfl⟩ | ⟨sql', rfl⟩ |
    ⟨i, call, memo, pc', hi, heffect, rfl⟩
  · rcases registry_step hpool with ⟨hsame, -⟩ | ⟨hupdate, -⟩
    · exact ⟨pc, hj, hcurrent.of_same hsame⟩
    · exact absurd hquiet hupdate
  · refine ⟨pc, ?_, hcurrent⟩
    have hlt := (List.getElem?_eq_some_iff.mp hj).1
    rw [Router.begin, List.getElem?_append_left hlt]
    exact hj
  · have hset := getElem?_calls_set pc' hi hj
    by_cases hji : j = i
    · have hcall : call = ⟨sql, pc⟩ := by
        rw [← hji, hj] at hi
        exact (Option.some.inj hi).symm
      subst hcall
      rw [if_pos hji] at hset
      have hsql : sql ∈ s.texts := List.mem_map_of_mem (List.mem_of_getElem? hj)
      exact ⟨pc', hset, heffect.current hinv hquiet.settled hfree hsql hcurrent⟩
    · rw [if_neg hji] at hset
      exact ⟨pc, hset, hcurrent⟩

/-- The guard of steps during which no install and no prune is in progress. -/
def Quiet (s : Router π) (_ : RouteAction π) : Prop :=
  NoUpdate s.pool

omit [DefaultHasher] [ValueText] in
instance (s : Router π) (a : RouteAction π) : Decidable (Quiet s a) :=
  inferInstanceAs (Decidable (NoUpdate s.pool))

/-- A call stays up to date over any steps without an update in progress. -/
theorem current_of_steps {as bs : List (RouteAction π)} {s s' : Router π}
    (hrun : (routeMachine π).Run Machine.Unguarded as s)
    (hsteps : (routeMachine π).Steps Quiet s bs s') (hfree : CollisionFree s'.texts) {j : Nat}
    {sql : String} (hj : s.calls[j]? = some ⟨sql, .loadEpoch⟩) :
    ∃ pc, s'.calls[j]? = some ⟨sql, pc⟩ ∧ pc.Current s'.runtime sql := by
  refine hrun.steps_invariant (fun _ _ _ => trivial)
    (P := fun s : Router π => CollisionFree s.texts →
      ∃ pc, s.calls[j]? = some ⟨sql, pc⟩ ∧ pc.Current s.runtime sql) ?_ hsteps ?_ hfree
  · intro as s a s' hrun hP hquiet hstep hfree
    have hfree' : CollisionFree s.texts := fun sql hsql sql' hsql' =>
      hfree sql (texts_of_next hstep sql hsql) sql' (texts_of_next hstep sql' hsql')
    obtain ⟨pc, hj, hcurrent⟩ := hP hfree'
    exact current_of_next (routeInv_of_run hrun) hquiet hstep hfree' hj hcurrent
  · exact fun _ => ⟨.loadEpoch, hj, trivial⟩

/-- In every reachable state the memo is within its bound, and every call that has not
returned can take its next step and is then nearer to its end; and a call during which no
install and no prune is in progress returns the route of the current registry, whatever
other calls stored before and meanwhile. -/
theorem route_memo_transparent {as : List (RouteAction π)} {s : Router π}
    (hrun : (routeMachine π).Run Machine.Unguarded as s) :
    s.memo.map.entries.length ≤ routeMemoCap ∧
    (∀ {j : Nat} {call : RouteCall}, s.calls[j]? = some call → call.pc.remaining ≠ 0 →
      ∃ s' call', s.next (.step j) = some s' ∧ s'.calls[j]? = some call' ∧
        call'.pc.remaining < call.pc.remaining) ∧
    ∀ {sql : String} {bs : List (RouteAction π)} {s' : Router π} {routed : Option Route},
      (routeMachine π).Steps Quiet (s.begin sql) bs s' → CollisionFree s'.texts →
      s'.calls[s.calls.length]? = some ⟨sql, .done routed⟩ →
      routed = routeBy s'.runtime sql := by
  refine ⟨(routeInv_of_run hrun).size, ?_, ?_⟩
  · intro j call hj hremaining
    obtain ⟨memo, pc, hadvance, hless⟩ := s.advance_of_remaining call hremaining
    refine ⟨{ s with memo, calls := s.calls.set j { call with pc } }, { call with pc }, ?_, ?_,
      hless⟩
    · simp [Router.next, hj, hadvance]
    · rw [getElem?_calls_set _ hj hj, if_pos rfl]
  · intro sql bs s' routed hsteps hfree hdone
    have hbegin : (routeMachine π).Run Machine.Unguarded (as ++ [.begin sql]) (s.begin sql) :=
      .snoc (a := RouteAction.begin sql) hrun trivial rfl
    have hj : (s.begin sql).calls[s.calls.length]? = some ⟨sql, .loadEpoch⟩ := by
      simp [Router.begin]
    obtain ⟨pc, hpc, hcurrent⟩ := current_of_steps hbegin hsteps hfree hj
    rw [hdone] at hpc
    obtain rfl : RoutePc.done routed = pc := congrArg RouteCall.pc (Option.some.inj hpc)
    exact hcurrent

end Runs

/-! ## A slow call and an install -/

/-- A call reads the number of the registry, a provider is installed, the call stores the
route by the new registry under the old number, and a call for another statement computes
and stores its route. -/
def slowCallActions : List (RouteAction Unit) :=
  ([.begin "select b from geo.u", .step 0,
    .pool (.spawn (.install ⟨"geo", .postgres, ⟨"postgres:geo"⟩, false⟩))] :
      List (RouteAction Unit)) ++
  (installSteps 0 3).map .pool ++
  ([.step 0, .step 0, .step 0, .begin "select a from geo.t", .step 1, .step 1, .step 1, .step 1] :
      List (RouteAction Unit))

theorem route_memo_transparent_after_install :
    letI := sipHasher
    letI := numericText
    ∃ (s s' : Router Unit) (routed : Option Route),
      (routeMachine Unit).Run Machine.Unguarded slowCallActions s ∧
      s.memo.map.entries.length ≤ routeMemoCap ∧
      (routeMachine Unit).Steps Quiet (s.begin "select a from geo.t") [.step 2, .step 2] s' ∧
      CollisionFree s'.texts ∧
      s'.calls[s.calls.length]? = some ⟨"select a from geo.t", .done routed⟩ ∧
      routed = some ("geo".toUTF8.toList, "select a from t".toUTF8.toList) ∧
      routed = routeBy s'.runtime "select a from geo.t" := by
  let _ := sipHasher
  let _ := numericText
  have hinit : (routeMachine Unit).init ⟨newPool Unit 4, RouteMemo.new, []⟩ :=
    ⟨newPool_init Unit 4, rfl, rfl⟩
  have hexec : ((routeMachine Unit).exec Machine.Unguarded ⟨newPool Unit 4, RouteMemo.new, []⟩
      slowCallActions).any (fun s =>
        ((routeMachine Unit).exec Quiet (s.begin "select a from geo.t")
          [.step 2, .step 2]).any fun s' =>
            decide (CollisionFree s'.texts) && decide (s'.calls[s.calls.length]? =
              some ⟨"select a from geo.t",
                .done (some ("geo".toUTF8.toList, "select a from t".toUTF8.toList))⟩)) = true := by
    decide +kernel
  obtain ⟨s, hrun, hquiet⟩ := Machine.exists_run_of_exec_any hinit hexec
  obtain ⟨s', hs', hend⟩ := (Option.any_eq_true _ _).mp hquiet
  rw [Bool.and_eq_true, decide_eq_true_eq, decide_eq_true_eq] at hend
  have hsteps := Machine.steps_of_exec hs'
  obtain ⟨hsize, -, hroute⟩ := route_memo_transparent hrun
  exact ⟨s, s', _, hrun, hsize, hsteps, hend.1, hend.2, rfl, hroute hsteps hend.1 hend.2⟩

end WpKnowledge.SqlRoute
