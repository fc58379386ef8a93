import WpKnowledge.Cache.Isolation
import WpKnowledge.Sql.Binding

/-!
# The index tables of the local cache

The seven index tables are filled by one call, `try_up_idx`, which may throw all of them
away first.  Here every such call is a step of its own, and a state carries along what
happened to its tables: the resets, and what the calls returned.

Main results:

- Theorem {lit}`TableInv.tryUpIdx`: an allocation keeps the invariant that ties the tables
  to what was returned since the last reset.
- Theorem {lit}`exists_tracedRun`: every run of the cache is a run of these steps.
- Theorem {lit}`indexTables_sound`: in every state of a run, the tables number
  different keys differently and within the bound, as was last returned, and parameters
  with one number are bound as one value.
-/

namespace WpKnowledge

open Foundation

/-! ## What happened to the tables -/

/-- What happens to the index tables: they are thrown away, or a call of `try_up_idx`
returns. -/
inductive IndexEvent where
  | reset
  | returned (param : DataField) (idx : Option Nat)

/-- What was returned since the last reset, newest first. -/
def sinceReset : List IndexEvent → List (DataField × Option Nat)
  | [] => []
  | .reset :: _ => []
  | .returned param idx :: log => (param, idx) :: sinceReset log

/-- Of the calls since the last reset that are the same in the given sense, the last one
returned the number. -/
def LastReturned (log : List IndexEvent) (same : DataField → Prop) (idx : Option Nat) : Prop :=
  ∃ newer param older, sinceReset log = newer ++ (param, idx) :: older ∧ same param ∧
    ∀ r ∈ newer, ¬ same r.1

/-- A cache with what happened to its index tables, newest first. -/
structure TracedCache where
  cache : FieldQueryCache
  log : List IndexEvent

/-- What changes a cache: a call of `try_up_idx`, the `put` a save may end with, and the
announcement of a generation. -/
inductive CacheStep where
  | tryUpIdx (param : DataField)
  | put (key : LocalCacheKey) (row : RowData)
  | prepareGeneration (scope : UInt64) (generation : Nat)

section Traced

variable [ValueText]

/-- The events of a call of `try_up_idx`, newest first. -/
def FieldQueryCache.indexEvents (c : FieldQueryCache) (param : DataField) : List IndexEvent :=
  .returned param (c.tryUpIdx param).2 :: if c.idxNum ≥ maxLocalIdx then [.reset] else []

/-- One step. -/
def TracedCache.take (t : TracedCache) : CacheStep → TracedCache
  | .tryUpIdx param =>
      { cache := (t.cache.tryUpIdx param).1
        log := t.cache.indexEvents param ++ t.log }
  | .put key row =>
      { t with cache := { t.cache with cacheData := t.cache.cacheData.put key row } }
  | .prepareGeneration scope generation =>
      { t with cache := t.cache.prepareGenerationScoped scope generation }

/-- The cache as a machine of these steps. -/
def tracedMachine : Machine TracedCache CacheStep where
  init t := ∃ size, t = { cache := .withCapacity size, log := [] }
  step t a := some (t.take a)

/-! ### The calls as steps -/

/-- The allocations of a save are steps. -/
theorem exists_tracedRun_tryUpIdxs {as : List CacheStep} {c : FieldQueryCache}
    {log : List IndexEvent} (hrun : tracedMachine.Run Machine.Unguarded as ⟨c, log⟩)
    (ps : List DataField) :
    ∃ bs log', tracedMachine.Run Machine.Unguarded bs ⟨(c.tryUpIdxs ps).1, log'⟩ := by
  induction ps generalizing as c log with
  | nil => exact ⟨as, log, hrun⟩
  | cons p ps ih => exact ih (hrun.snoc (a := .tryUpIdx p) trivial rfl)

/-- A call on the cache is a number of steps. -/
theorem exists_tracedRun_apply {as : List CacheStep} {c : FieldQueryCache}
    {log : List IndexEvent} (hrun : tracedMachine.Run Machine.Unguarded as ⟨c, log⟩)
    (op : CacheOp) :
    ∃ bs log', tracedMachine.Run Machine.Unguarded bs ⟨c.apply op, log'⟩ := by
  cases op with
  | fetchScoped scope args => exact ⟨as, log, hrun⟩
  | prepareGeneration scope generation =>
      exact ⟨_, _, hrun.snoc (a := .prepareGeneration scope generation) trivial rfl⟩
  | saveScoped scope args row =>
      obtain ⟨bs, log', hsteps⟩ := exists_tracedRun_tryUpIdxs hrun args.params
      simp only [FieldQueryCache.apply, FieldQueryCache.saveScoped]
      split
      · rename_i idxs _
        exact ⟨_, _, hsteps.snoc (a := .put ⟨scope, idxs⟩ row) trivial rfl⟩
      · exact ⟨bs, log', hsteps⟩

/-- Every run of the cache is a run of these steps. -/
theorem exists_tracedRun {ok : FieldQueryCache → CacheOp → Prop} {ops : List CacheOp}
    {c : FieldQueryCache} (hrun : cacheMachine.Run ok ops c) :
    ∃ as log, tracedMachine.Run Machine.Unguarded as ⟨c, log⟩ := by
  refine hrun.stateInvariant
    (P := fun c => ∃ as log, tracedMachine.Run Machine.Unguarded as ⟨c, log⟩) ?_ ?_
  · rintro c ⟨size, rfl⟩
    exact ⟨[], [], .start ⟨size, rfl⟩⟩
  · rintro c op c' ⟨as, log, hsteps⟩ - hstep
    cases hstep
    exact exists_tracedRun_apply hsteps op

/-! ## The invariant -/

/-- What ties the tables to the events: they are a numbering within the bound, every call
since the last reset returned the number its parameter still has, and every number was
returned by such a call. -/
structure TableInv (t : TracedCache) : Prop where
  numbering : IsNumbering t.cache.number t.cache.idxNum
  bounded : t.cache.idxNum ≤ maxLocalIdx
  kept : ∀ {p : DataField} {i : Option Nat}, (p, i) ∈ sinceReset t.log → t.cache.getIdx p = i
  cached : ∀ {p : DataField}, (p, none) ∈ sinceReset t.log → p.cacheIdent = none
  allotted : ∀ {k : CacheIdent} {n : Nat}, t.cache.number k = some n →
    ∃ p, (p, some n) ∈ sinceReset t.log ∧ p.cacheIdent = some k

/-- Tables without a number satisfy the invariant if nothing was returned. -/
theorem tableInv_of_empty {t : TracedCache} (hnumber : t.cache.number = fun _ => none)
    (hidx : t.cache.idxNum = 0) (hlog : sinceReset t.log = []) : TableInv t where
  numbering := by
    rw [hnumber, hidx]
    exact .none
  bounded := by
    rw [hidx]
    exact Nat.zero_le _
  kept h := by simp [hlog] at h
  cached h := by simp [hlog] at h
  allotted h := by simp [hnumber] at h

/-- The invariant speaks of the tables, the counter and the events only. -/
theorem TableInv.congr {t t' : TracedCache} (h : TableInv t)
    (hnumber : t'.cache.number = t.cache.number) (hidx : t'.cache.idxNum = t.cache.idxNum)
    (hlog : t'.log = t.log) : TableInv t' where
  numbering := by
    rw [hnumber, hidx]
    exact h.numbering
  bounded := hidx ▸ h.bounded
  kept hp := by
    rw [FieldQueryCache.getIdx_eq, hnumber, ← FieldQueryCache.getIdx_eq]
    exact h.kept (hlog ▸ hp)
  cached hp := h.cached (hlog ▸ hp)
  allotted hk := by
    rw [hnumber] at hk
    exact hlog ▸ h.allotted hk

/-! ### What an allocation does -/

namespace FieldQueryCache

omit [ValueText] in
theorem idxNum_resetIfFull_lt (c : FieldQueryCache) : c.resetIfFull.idxNum < maxLocalIdx := by
  rcases blank_resetIfFull_or c with ⟨hsame, hlt⟩ | hreset
  · rwa [hsame]
  · rw [hreset]
    exact Nat.zero_lt_succ _

/-- An allocation goes on from the tables the reset test leaves. -/
theorem tryUpIdx_resetIfFull (c : FieldQueryCache) (p : DataField) :
    c.resetIfFull.tryUpIdx p = c.tryUpIdx p := by
  rw [tryUpIdx_eq, tryUpIdx_eq, resetIfFull_of_lt (idxNum_resetIfFull_lt c)]

/-- Below the bound, an allocation finds nothing to number, or a number, or gives out the
next one. -/
theorem tryUpIdx_cases {c : FieldQueryCache} (hlt : c.idxNum < maxLocalIdx) (p : DataField) :
    (p.cacheIdent = none ∧ c.tryUpIdx p = (c, none)) ∨
      (∃ k n, p.cacheIdent = some k ∧ c.number k = some n ∧ c.tryUpIdx p = (c, some n)) ∨
      ∃ k, p.cacheIdent = some k ∧ c.number k = none ∧
        c.tryUpIdx p = (c.allot k, some (c.idxNum + 1)) := by
  rw [tryUpIdx_eq, resetIfFull_of_lt hlt]
  cases p.cacheIdent with
  | none => exact .inl ⟨rfl, rfl⟩
  | some k =>
      right
      simp only [upIdent]
      cases hk : c.number k with
      | some n => exact .inl ⟨k, n, rfl, hk, rfl⟩
      | none => exact .inr ⟨k, rfl, hk, rfl⟩

end FieldQueryCache

open FieldQueryCache in
/-- A call that returns the number its parameter has keeps the invariant. -/
theorem TableInv.record {c : FieldQueryCache} {log : List IndexEvent} (h : TableInv ⟨c, log⟩)
    {p : DataField} {i : Option Nat} (hi : c.getIdx p = i)
    (hcached : i = none → p.cacheIdent = none) : TableInv ⟨c, .returned p i :: log⟩ where
  numbering := h.numbering
  bounded := h.bounded
  kept := by
    intro q j hq
    rcases List.mem_cons.mp hq with heq | hq
    · cases heq
      exact hi
    · exact h.kept hq
  cached := by
    intro q hq
    rcases List.mem_cons.mp hq with heq | hq
    · cases heq
      exact hcached rfl
    · exact h.cached hq
  allotted := by
    intro k n hk
    obtain ⟨q, hq, hident⟩ := h.allotted hk
    exact ⟨q, List.mem_cons_of_mem _ hq, hident⟩

open FieldQueryCache in
/-- A call that gives out the next number keeps the invariant. -/
theorem TableInv.allot {c : FieldQueryCache} {log : List IndexEvent} (h : TableInv ⟨c, log⟩)
    (hlt : c.idxNum < maxLocalIdx) {p : DataField} {k : CacheIdent}
    (hident : p.cacheIdent = some k) (hnew : c.number k = none) :
    TableInv ⟨c.allot k, .returned p (some (c.idxNum + 1)) :: log⟩ where
  numbering := by
    rw [allot_number, allot_idxNum]
    exact h.numbering.allot k
  bounded := by
    rw [allot_idxNum]
    exact hlt
  kept := by
    intro q j hq
    rw [getIdx_eq, allot_number]
    rcases List.mem_cons.mp hq with heq | hq
    · cases heq
      rw [hident, Option.bind_some, allotNumber_self]
    · have hold := h.kept hq
      rw [getIdx_eq] at hold
      cases hq' : q.cacheIdent with
      | none =>
          rw [hq'] at hold
          exact hold
      | some k' =>
          rw [hq', Option.bind_some] at hold
          cases j with
          | none =>
              rw [h.cached hq] at hq'
              cases hq'
          | some n => exact allotNumber_of_some hnew hold
  cached := by
    intro q hq
    rcases List.mem_cons.mp hq with heq | hq
    · cases heq
    · exact h.cached hq
  allotted := by
    intro k' n hk'
    rw [allot_number] at hk'
    by_cases hkk : k' = k
    · rw [hkk, allotNumber_self] at hk'
      obtain rfl := Option.some.inj hk'
      exact ⟨p, List.mem_cons_self, hkk ▸ hident⟩
    · rw [allotNumber_of_ne _ hkk] at hk'
      obtain ⟨q, hq, hident'⟩ := h.allotted hk'
      exact ⟨q, List.mem_cons_of_mem _ hq, hident'⟩

open FieldQueryCache in
/-- The reset test keeps the invariant. -/
theorem TableInv.resetIfFull {c : FieldQueryCache} {log : List IndexEvent}
    (h : TableInv ⟨c, log⟩) :
    TableInv ⟨c.resetIfFull, (if c.idxNum ≥ maxLocalIdx then [.reset] else []) ++ log⟩ := by
  rcases Nat.lt_or_ge c.idxNum maxLocalIdx with hlt | hge
  · rw [resetIfFull_of_lt hlt, if_neg (Nat.not_le.mpr hlt)]
    exact h
  · rw [resetIfFull_of_ge hge, if_pos hge]
    exact tableInv_of_empty (reset_number c) rfl rfl

open FieldQueryCache in
/-- An allocation keeps the invariant. -/
theorem TableInv.tryUpIdx {t : TracedCache} (h : TableInv t) (p : DataField) :
    TableInv (t.take (.tryUpIdx p)) := by
  have hlt := idxNum_resetIfFull_lt t.cache
  have hreset := TableInv.resetIfFull h
  rw [TracedCache.take, indexEvents, ← tryUpIdx_resetIfFull, List.cons_append]
  rcases tryUpIdx_cases hlt p with ⟨hident, hup⟩ | ⟨k, n, hident, hk, hup⟩ | ⟨k, hident, hk, hup⟩
  · rw [hup]
    exact hreset.record (by rw [getIdx_eq, hident]; rfl) fun _ => hident
  · rw [hup]
    refine hreset.record (by rw [getIdx_eq, hident, Option.bind_some, hk]) ?_
    intro hnone
    cases hnone
  · rw [hup]
    exact hreset.allot hlt hident hk

/-- Every step keeps the invariant. -/
theorem TableInv.take {t : TracedCache} (h : TableInv t) (a : CacheStep) : TableInv (t.take a) := by
  cases a with
  | tryUpIdx param => exact h.tryUpIdx param
  | put key row => exact h.congr rfl rfl rfl
  | prepareGeneration scope generation =>
      obtain ⟨hnumber, hidx⟩ :=
        FieldQueryCache.prepareGenerationScoped_number t.cache scope generation
      exact h.congr hnumber hidx rfl

/-- The invariant holds in every state of a run. -/
theorem tableInv_of_run {as : List CacheStep} {t : TracedCache}
    (hrun : tracedMachine.Run Machine.Unguarded as t) : TableInv t := by
  refine hrun.stateInvariant ?_ ?_
  · rintro t ⟨size, rfl⟩
    exact tableInv_of_empty (FieldQueryCache.withCapacity_number size) rfl rfl
  · rintro t a t' hinv - hstep
    cases hstep
    exact hinv.take a

/-! ## What was last returned -/

/-- What was last returned for the value of a parameter is its number. -/
theorem TableInv.getIdx_of_lastReturned {t : TracedCache} (h : TableInv t) {p : DataField}
    {i : Option Nat} (hlast : LastReturned t.log (fun q => q.getValue = p.getValue) i) :
    t.cache.getIdx p = i := by
  obtain ⟨newer, q, older, hlog, hsame, -⟩ := hlast
  rw [← h.kept (p := q) (i := i) (by rw [hlog]; simp)]
  unfold FieldQueryCache.getIdx
  rw [hsame]

/-- The number of a parameter is what was last returned for a parameter with its identity. -/
theorem TableInv.getIdx_eq_some_iff {t : TracedCache} (h : TableInv t) (p : DataField) (n : Nat) :
    t.cache.getIdx p = some n ↔
      LastReturned t.log (fun q => q.cacheIdent = p.cacheIdent) (some n) := by
  constructor
  · intro hn
    obtain ⟨k, hk, hnumber⟩ := Option.bind_eq_some_iff.mp (FieldQueryCache.getIdx_eq _ p ▸ hn)
    obtain ⟨q, hq, hident⟩ := h.allotted hnumber
    -- the last call for the identity need not be the one that gave out the number
    have hfound : ((sinceReset t.log).find? fun r => r.1.cacheIdent = p.cacheIdent).isSome := by
      rw [List.find?_isSome]
      exact ⟨_, hq, by simp [hident, hk]⟩
    obtain ⟨⟨r, j⟩, hr⟩ := Option.isSome_iff_exists.mp hfound
    obtain ⟨hsame, newer, older, hlog, hnewer⟩ := List.find?_eq_some_iff_append.mp hr
    have hsame : r.cacheIdent = p.cacheIdent := of_decide_eq_true hsame
    have hj : j = some n := by
      rw [← h.kept (p := r) (i := j) (by rw [hlog]; simp), FieldQueryCache.getIdx_eq, hsame,
        ← FieldQueryCache.getIdx_eq, hn]
    refine ⟨newer, r, older, hj ▸ hlog, hsame, ?_⟩
    intro x hx
    simpa using hnewer x hx
  · rintro ⟨newer, q, older, hlog, hsame, -⟩
    rw [FieldQueryCache.getIdx_eq, ← hsame, ← FieldQueryCache.getIdx_eq]
    exact h.kept (by rw [hlog]; simp)

/-! ## What a number is bound as -/

/-- Two parameters are bound as the same value by every provider. -/
def BoundAlike (p q : DataField) : Prop :=
  bindPostgresField p = bindPostgresField q ∧ bindMysqlField p = bindMysqlField q ∧
    SqlNamedParam.toSql p = SqlNamedParam.toSql q

/-- What `sqlx` binds for a key of a table. -/
def CacheIdent.sqlxValue : CacheIdent → SqlxValue
  | .chars v => .text (some v)
  | .int v => .int8 v
  | .ipAddr v => .text (some (ValueText.ipAddr v))
  | .bigUint v => .numeric v
  | .bool v => .bool v
  | .float bits => .float8 ⟨bits⟩
  | .text v => .text (some v)

/-- What SQLite binds for a key of a table. -/
def CacheIdent.sqliteValue : CacheIdent → SqliteValue
  | .chars v => .text v
  | .int v => .integer v
  | .ipAddr v => .text (ValueText.ipAddr v)
  | .bigUint v => .text (toString v)
  | .bool v => .integer (if v then 1 else 0)
  | .float bits => .real ⟨bits⟩
  | .text v => .text v

theorem bindSqlxField_of_cacheIdent {p : DataField} {k : CacheIdent}
    (h : p.cacheIdent = some k) : bindSqlxField p = k.sqlxValue := by
  obtain ⟨name, value⟩ := p
  cases value <;> cases h <;> rfl

theorem toSql_of_cacheIdent {p : DataField} {k : CacheIdent} (h : p.cacheIdent = some k) :
    SqlNamedParam.toSql p = k.sqliteValue := by
  obtain ⟨name, value⟩ := p
  cases value <;> cases h <;> rfl

/-- The key of a table decides what a parameter is bound as. -/
theorem boundAlike_of_cacheIdent {p q : DataField} {k : CacheIdent} (hp : p.cacheIdent = some k)
    (hq : q.cacheIdent = some k) : BoundAlike p q := by
  have hsqlx : bindSqlxField p = bindSqlxField q := by
    rw [bindSqlxField_of_cacheIdent hp, bindSqlxField_of_cacheIdent hq]
  exact ⟨hsqlx, hsqlx, by rw [toSql_of_cacheIdent hp, toSql_of_cacheIdent hq]⟩

/-- The key under which a parameter would be numbered after the way through a request. -/
def CacheIdent.viaRequest : CacheIdent → CacheIdent
  | .chars v => .chars v
  | .int v => .int v
  | .ipAddr v => .chars (ValueText.ipAddr v)
  | .bigUint v => .chars (toString v)
  | .bool v => .bool v
  | .float bits => .float bits
  | .text v => .chars v

theorem cacheIdent_viaParam {p : DataField} {k : CacheIdent} (h : p.cacheIdent = some k) :
    (viaParam p).cacheIdent = some k.viaRequest := by
  obtain ⟨name, value⟩ := p
  cases value <;> cases h <;> rfl

/-! ## The tables of a run -/

/-- What the index tables are good for, after all that happened to them: different keys of
the seven tables have different numbers, each within the counter and the counter within the
bound; a parameter has the number that was last returned for its value, and none that was
not returned for its identity; and parameters with one number are bound as one value, be it
directly or by way of a request. -/
structure IndexTablesSound (t : TracedCache) : Prop where
  injective : ∀ {k k' : CacheIdent} {n : Nat}, t.cache.number k = some n →
    t.cache.number k' = some n → k = k'
  inRange : ∀ {k : CacheIdent} {n : Nat}, t.cache.number k = some n → 1 ≤ n ∧ n ≤ t.cache.idxNum
  bounded : t.cache.idxNum ≤ maxLocalIdx
  agrees : ∀ {p : DataField} {i : Option Nat},
    LastReturned t.log (fun q => q.getValue = p.getValue) i → t.cache.getIdx p = i
  returned : ∀ (p : DataField) (n : Nat), t.cache.getIdx p = some n ↔
    LastReturned t.log (fun q => q.cacheIdent = p.cacheIdent) (some n)
  alike : ∀ {p q : DataField} {n : Nat}, t.cache.getIdx p = some n → t.cache.getIdx q = some n →
    BoundAlike p q ∧ BoundAlike (viaParam p) (viaParam q)

/-- Parameters with one number have one key. -/
theorem TableInv.exists_cacheIdent {t : TracedCache} (h : TableInv t) {p q : DataField} {n : Nat}
    (hp : t.cache.getIdx p = some n) (hq : t.cache.getIdx q = some n) :
    ∃ k, p.cacheIdent = some k ∧ q.cacheIdent = some k := by
  rw [FieldQueryCache.getIdx_eq, Option.bind_eq_some_iff] at hp hq
  obtain ⟨k, hk, hn⟩ := hp
  obtain ⟨k', hk', hn'⟩ := hq
  obtain rfl := h.numbering.injective hn hn'
  exact ⟨k, hk, hk'⟩

/-- **The index tables.**  In every state of a run, also in the midst of a save, the tables
are sound. -/
theorem indexTables_sound {as : List CacheStep} {t : TracedCache}
    (hrun : tracedMachine.Run Machine.Unguarded as t) : IndexTablesSound t := by
  have hinv := tableInv_of_run hrun
  refine
    { injective := hinv.numbering.injective
      inRange := hinv.numbering.bounded
      bounded := hinv.bounded
      agrees := hinv.getIdx_of_lastReturned
      returned := hinv.getIdx_eq_some_iff
      alike := ?_ }
  intro p q n hp hq
  obtain ⟨k, hk, hk'⟩ := hinv.exists_cacheIdent hp hq
  exact ⟨boundAlike_of_cacheIdent hk hk',
    boundAlike_of_cacheIdent (cacheIdent_viaParam hk) (cacheIdent_viaParam hk')⟩

end Traced

/-- A domain and a URL of one text get one number, and a text of the same letters gets
another. -/
theorem indexTables_sound_of_oneText :
    letI := numericText
    ∃ t : TracedCache, IndexTablesSound t ∧
      t.cache.getIdx (.new "d" (.domain "example")) = some 1 ∧
      t.cache.getIdx (.new "u" (.url "example")) = some 1 ∧
      t.cache.getIdx (.new "c" (.chars "example")) = some 2 := by
  let _ := numericText
  have hrun : tracedMachine.Run Machine.Unguarded
      ([.tryUpIdx (.new "d" (.domain "example")), .tryUpIdx (.new "c" (.chars "example"))])
      ((({ cache := .withCapacity 100, log := [] } : TracedCache).take
        (.tryUpIdx (.new "d" (.domain "example")))).take
          (.tryUpIdx (.new "c" (.chars "example")))) := by
    have hstart : tracedMachine.Run Machine.Unguarded []
        { cache := .withCapacity 100, log := [] } := .start ⟨100, rfl⟩
    have hfirst := hstart.snoc (a := .tryUpIdx (.new "d" (.domain "example"))) trivial rfl
    exact hfirst.snoc (a := .tryUpIdx (.new "c" (.chars "example"))) trivial rfl
  exact ⟨_, indexTables_sound hrun, by decide, by decide, by decide⟩

end WpKnowledge
