import WpKnowledge.Runtime.ResultCache

/-!
# Where the answer of a query comes from

Whether a query answers from the result cache or from the provider, its answer
was produced by the handle it resolved, for a query of the same text hash.  This
needs no assumption on the hashes: the generation alone ties a cached response to
its handle.

Main results:

- Theorem {lit}`answers_of_run`: the origin of every answer.
- Theorem {lit}`resolved_of_step`: a query resolves the handle its slot holds.
-/

namespace WpKnowledge

open Foundation

variable {π : Type} [DefaultHasher] [ValueText]

/-- The response was produced by the handle, for a query of the same text hash. -/
def Origin (log : List (Event π)) (h : ProviderHandle π) (q : Query) (r : QueryResponse) :
    Prop :=
  ∃ task q', .produced task h q' r ∈ log ∧ stableHash q'.sql = stableHash q.sql

omit [ValueText] in
theorem Origin.append {log : List (Event π)} {h : ProviderHandle π} {q : Query}
    {r : QueryResponse} (ho : Origin log h q r) (e : Option (Event π)) :
    Origin (e.toList ++ log) h q r := by
  rcases ho with ⟨task, q', hp, hsql⟩
  exact ⟨task, q', List.mem_append_right _ hp, hsql⟩

/-- What is known of the answer of a query. -/
def ExecutePc.Answered (log : List (Event π)) (tid : Nat) (q : Query) : ExecutePc π → Prop
  | .countHit h r => .resolved tid h ∈ log ∧ Origin log h q r
  | .done (.ok a) => ∃ h r, .resolved tid h ∈ log ∧ Origin log h q r ∧ a = q.answer r
  | _ => True

omit [ValueText] in
theorem ExecutePc.Answered.append {log : List (Event π)} {tid : Nat} {q : Query}
    {pc : ExecutePc π} (h : pc.Answered log tid q) (e : Option (Event π)) :
    pc.Answered (e.toList ++ log) tid q := by
  unfold ExecutePc.Answered at h ⊢
  split at h
  · exact ⟨List.mem_append_right _ h.1, h.2.append e⟩
  · rcases h with ⟨h, r, hres, ho, ha⟩
    exact ⟨h, r, List.mem_append_right _ hres, ho.append e, ha⟩
  · trivial

omit [ValueText] in
theorem ExecutePc.Plain.answered {pc : ExecutePc π} (h : pc.Plain) (log : List (Event π))
    (tid : Nat) (q : Query) : pc.Answered log tid q := by
  cases pc <;> trivial

/-- What the cache holds under the key of a query on a handle was produced by
that handle. -/
theorem origin_of_storedFrom {n now : Nat} {x : Shared π} {log : List (Event π)} {q : Query}
    {h : ProviderHandle π} {cached : CachedQueryResponse} (hinv : ServingInv n x log)
    (hb : .built h ∈ log) (hstored : StoredFrom log now (q.resultCacheKey h) cached) :
    Origin log h q cached.response := by
  rcases hstored with ⟨task, h', q', hkey, hb', hp, -, -⟩
  obtain rfl : h = h' :=
    hinv.handles.unique hb hb' (congrArg ResultCacheKey.generation hkey)
  exact ⟨task, q', hp, (congrArg ResultCacheKey.queryHash hkey).symm⟩

/-- One step of a query. -/
theorem ExecuteEffect.answered {c : ExecuteCall} {n tid clock : Nat}
    {rt rt' : KnowledgeRuntime π} {pc pc' : ExecutePc π} {e : Option (Event π)}
    {log : List (Event π)} (heff : ExecuteEffect c tid clock rt pc rt' pc' e)
    (hinv : ServingInv n ⟨rt, clock⟩ log) (hown : TaskServing tid (.execute c pc) ⟨rt, clock⟩ log)
    (hanswered : pc.Answered log tid c.query) : pc'.Answered (e.toList ++ log) tid c.query := by
  cases heff with
  | peeked | readClock | failed => trivial
  | popped _ _ _ hplain => exact hplain.answered _ _ _
  | plain _ _ _ hplain' => exact hplain'.answered _ _ _
  | hit h cached readAt =>
      rcases hown.handles h rfl with ⟨hb, hres⟩
      have ho := origin_of_storedFrom hinv hb (hown.carries rfl)
      exact ⟨List.mem_append_right _ hres, ho.append _⟩
  | returnedHit h r => exact ⟨h, r, hanswered.1, hanswered.2, rfl⟩
  | produced h useGlobalCache r hpc' =>
      have hres := (hown.handles h rfl).2
      rcases hpc' with rfl | rfl
      · trivial
      · exact ⟨h, r, List.mem_append_right _ hres, ⟨tid, c.query, by simp, rfl⟩, rfl⟩
  | saved h r =>
      have hres := (hown.handles h rfl).2
      have hp : Event.produced tid h c.query r ∈ log := hown.carries rfl
      exact ⟨h, r, List.mem_append_right _ hres,
        ⟨tid, c.query, List.mem_append_right _ hp, rfl⟩, rfl⟩

theorem ExecuteCall.step_resolved {c : ExecuteCall} {tid clock j : Nat}
    {rt rt' : KnowledgeRuntime π} {pc pc' : ExecutePc π} {input : Input π}
    {h : ProviderHandle π}
    (hstep : c.step tid clock rt pc input = some (rt', pc', some (.resolved j h))) :
    j = tid ∧ pc = .resolve ∧ rt.handleAt c.slot = some h := by
  unfold ExecuteCall.step at hstep
  split at hstep
  case h_1 =>
    split at hstep
    · rename_i handle hres
      cases hstep
      exact ⟨rfl, rfl, KnowledgeRuntime.resolve_eq_ok_iff.mp hres⟩
    · cases hstep
  all_goals try split at hstep
  all_goals cases hstep

/-- A query resolves the handle its slot holds. -/
theorem resolved_of_step {tid j : Nat} {x x' : Shared π} {t t' : Task π} {input : Input π}
    {h : ProviderHandle π}
    (hstep : Task.step tid x t input = some (x', t', some (.resolved j h))) :
    j = tid ∧ ∃ c, t = .execute c .resolve ∧ x.runtime.handleAt c.slot = some h := by
  rcases Task.step_cases hstep with ⟨c, pc, pc', rfl, rfl, -, heff⟩ | ⟨keep, -, -, he, -⟩ |
    ⟨-, -, -, ⟨c, pc, pc', rfl, rfl, hconf⟩ | ⟨c, pc, pc', rfl, rfl, hexec⟩ | ⟨pc, pc', -, -, -, he, -⟩⟩
  · rcases heff.event_owner with ⟨g, he⟩ | ⟨h', he, -⟩ <;> cases he
  · cases he
  · rcases c.step_cases hconf with ⟨-, he⟩ | ⟨-, he, -⟩ | ⟨-, he, -⟩ <;> cases he
  · rcases c.step_resolved hexec with ⟨rfl, rfl, hslot⟩
    exact ⟨rfl, c, rfl, hslot⟩
  · cases he

/-- What holds of the history besides the invariant of the result cache. -/
structure AnswerInv (n : Nat) (x : Shared π) (log : List (Event π)) : Prop where
  serving : ServingInv n x log
  resolved : ∀ {j h}, .resolved j h ∈ log → j < n

/-- What holds of one call. -/
structure TaskAnswers (j : Nat) (t : Task π) (x : Shared π) (log : List (Event π)) : Prop where
  serving : TaskServing j t x log
  answered : ∀ {c pc}, t = .execute c pc → pc.Answered log j c.query

/-- In every run, whatever guard it meets, the answer of a query was produced by
the handle the query resolved. -/
theorem answers_of_run
    {ok : Pool (Shared π) (Task π) (Event π) → PoolAction Call (Input π) Ambient → Prop}
    {as : List (PoolAction Call (Input π) Ambient)} {s : Pool (Shared π) (Task π) (Event π)}
    (h : (runtimeMachine π).Run ok as s) : Pool.Holds AnswerInv TaskAnswers s := by
  have hserving : ∀ {as s}, (runtimeMachine π).Run ok as s →
      Pool.Holds ServingInv TaskServing s := serving_of_run
  refine Machine.Run.invariant (P := fun _ s => Pool.Holds AnswerInv TaskAnswers s) ?_ ?_ h
  · intro s h0
    have hs := hserving (.start h0)
    rcases s with ⟨x, tasks, log⟩
    rcases h0 with ⟨-, rfl, rfl⟩
    exact ⟨⟨hs.global, by simp⟩, by simp⟩
  · intro as s a s' hrun hinv hok hstep
    have hs' := hserving (hrun.snoc hok hstep)
    cases a with
    | spawn call =>
        cases hstep
        refine ⟨⟨hs'.global, fun hres => ?_⟩, fun {j t} hj => ⟨hs'.tasks hj, fun {c pc} heq => ?_⟩⟩
        · simpa using Nat.lt_succ_of_lt (hinv.global.resolved hres)
        · rcases getElem?_append_singleton hj with ⟨-, hstart⟩ | hold
          · rw [hstart] at heq
            cases call <;> cases heq
            trivial
          · exact (hinv.tasks hold).answered heq
    | env d =>
        cases hstep
        exact ⟨⟨hs'.global, hinv.global.resolved⟩, fun hj =>
          ⟨hs'.tasks hj, (hinv.tasks hj).answered⟩⟩
    | run tid input =>
        rcases TaskSystem.advance_run_iff.mp hstep with ⟨t, x, t', e, ht, hst, rfl⟩
        refine ⟨⟨hs'.global, fun {j h} hres => ?_⟩,
          fun {j u} hj => ⟨hs'.tasks hj, fun {c pc} heq => ?_⟩⟩
        · rw [List.length_set]
          rcases mem_toList_append.mp hres with rfl | hold
          · rw [(resolved_of_step hst).1]
            exact (List.getElem?_eq_some_iff.mp ht).1
          · exact hinv.global.resolved hold
        · rw [getElem?_set_of_getElem? ht] at hj
          split at hj
          · rename_i hjt
            subst hjt
            cases hj
            rcases Task.step_cases hst with ⟨_, _, _, -, heq', -⟩ | ⟨_, -, heq', -⟩ |
              ⟨hclock, -, -, ⟨_, _, _, -, heq', -⟩ | ⟨c', pc₀, pc', rfl, rfl, hexec⟩ | ⟨_, _, -, heq', -⟩⟩
            · rw [heq] at heq'
              cases heq'
            · rw [heq] at heq'
              cases heq'
            · rw [heq] at heq'
              cases heq'
            · cases heq
              exact (ExecuteCall.step_effect hexec).answered hinv.global.serving
                (hinv.tasks ht).serving ((hinv.tasks ht).answered rfl)
            · rw [heq] at heq'
              cases heq'
          · exact ((hinv.tasks hj).answered heq).append e

end WpKnowledge
