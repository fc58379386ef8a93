import Mathlib.Data.List.Perm.Basic
import WpKnowledge.Foundation.Machine

/-!
# Tasks over a shared state

A task system runs any number of tasks over one shared state.  A task takes one
atomic step at a time; a step may read and change the shared state and may
append one event to a history that no step reads.  New tasks may be spawned at
any moment, and the environment may change the shared state by itself (a clock).

An invariant is given in two parts: a global assertion on the shared state and
the history, and a local assertion for each task, which the steps of all other
tasks must keep.

Main results:

- Theorem {lit}`advance_run_iff`: what one step of one task does to the pool.
- Theorem {lit}`pool_invariant`: the proof rule for guarded runs.
-/

namespace Foundation

/-- A task system: how a call becomes a task, one step of a task, and what the
environment may do. -/
structure TaskSystem (σ τ ε κ ι δ : Type) where
  start : κ → τ
  step : Nat → σ → τ → ι → Option (σ × τ × Option ε)
  env : σ → δ → σ

/-- A pool: the shared state, the tasks spawned so far, finished ones included,
and the history, newest event first. -/
structure Pool (σ τ ε : Type) where
  shared : σ
  tasks : List τ
  log : List ε

/-- What may happen next in a pool. -/
inductive PoolAction (κ ι δ : Type) where
  | spawn (call : κ)
  | run (task : Nat) (input : ι)
  | env (d : δ)

namespace TaskSystem

variable {σ τ ε κ ι δ : Type} (T : TaskSystem σ τ ε κ ι δ)

/-- The pool after one action, if the action is possible. -/
def advance (s : Pool σ τ ε) : PoolAction κ ι δ → Option (Pool σ τ ε)
  | .spawn call => some { s with tasks := s.tasks ++ [T.start call] }
  | .run tid input =>
      (s.tasks[tid]?).bind fun t =>
        (T.step tid s.shared t input).map fun r =>
          { shared := r.1, tasks := s.tasks.set tid r.2.1, log := r.2.2.toList ++ s.log }
  | .env d => some { s with shared := T.env s.shared d }

/-- The pool as a machine, started without tasks. -/
def machine (start : σ → Prop) : Machine (Pool σ τ ε) (PoolAction κ ι δ) where
  init s := start s.shared ∧ s.tasks = [] ∧ s.log = []
  step := T.advance

variable {T}

/-- One step of one task. -/
theorem advance_run_iff {s s' : Pool σ τ ε} {tid : Nat} {input : ι} :
    T.advance s (.run tid input) = some s' ↔
      ∃ t x t' e, s.tasks[tid]? = some t ∧ T.step tid s.shared t input = some (x, t', e) ∧
        s' = ⟨x, s.tasks.set tid t', e.toList ++ s.log⟩ := by
  constructor
  · intro h
    simp only [advance, Option.bind_eq_some_iff, Option.map_eq_some_iff] at h
    rcases h with ⟨t, ht, ⟨x, t', e⟩, hstep, rfl⟩
    exact ⟨t, x, t', e, ht, hstep, rfl⟩
  · rintro ⟨t, x, t', e, ht, hstep, rfl⟩
    simp [advance, ht, hstep]

end TaskSystem

/-- The tasks after one of them has taken a step. -/
theorem getElem?_set_of_getElem? {τ : Type} {tasks : List τ} {tid : Nat} {t t' : τ}
    (ht : tasks[tid]? = some t) (j : Nat) :
    (tasks.set tid t')[j]? = if j = tid then some t' else tasks[j]? := by
  have hlt : tid < tasks.length := (List.getElem?_eq_some_iff.mp ht).1
  rw [List.getElem?_set]
  by_cases hj : j = tid
  · simp [hj, hlt]
  · simp [hj, Ne.symm hj]

/-- The tasks are the one that takes a step and the others. -/
theorem mem_iff_of_getElem? {τ : Type} {tasks : List τ} {tid : Nat} {t u : τ}
    (ht : tasks[tid]? = some t) : u ∈ tasks ↔ u = t ∨ u ∈ tasks.eraseIdx tid := by
  obtain ⟨hlt, rfl⟩ := List.getElem?_eq_some_iff.mp ht
  rw [← (List.getElem_cons_eraseIdx_perm hlt).mem_iff, List.mem_cons]

/-- After the step they are what it has become and the others. -/
theorem mem_set_of_getElem? {τ : Type} {tasks : List τ} {tid : Nat} {t t' u : τ}
    (ht : tasks[tid]? = some t) : u ∈ tasks.set tid t' ↔ u = t' ∨ u ∈ tasks.eraseIdx tid := by
  have hlt : tid < tasks.length := (List.getElem?_eq_some_iff.mp ht).1
  rw [(List.set_perm_cons_eraseIdx hlt t').mem_iff, List.mem_cons]

/-- The tasks after one more has been spawned. -/
theorem getElem?_append_singleton {τ : Type} {tasks : List τ} {t t' : τ} {j : Nat}
    (h : (tasks ++ [t'])[j]? = some t) :
    (j = tasks.length ∧ t = t') ∨ tasks[j]? = some t := by
  rcases Nat.lt_trichotomy j tasks.length with hlt | rfl | hgt
  · exact .inr (by rwa [List.getElem?_append_left hlt] at h)
  · exact .inl ⟨rfl, by simpa using h.symm⟩
  · have hlen : (tasks ++ [t']).length ≤ j := by
      simp only [List.length_append, List.length_singleton]
      omega
    rw [List.getElem?_eq_none hlen] at h
    cases h

namespace Pool

variable {σ τ ε κ ι δ : Type} {T : TaskSystem σ τ ε κ ι δ}

/-- The pool satisfies the global assertion `G` and each task its own `L`.  The
global assertion may speak of the number of tasks, which is the next task's
number. -/
structure Holds (G : Nat → σ → List ε → Prop) (L : Nat → τ → σ → List ε → Prop)
    (s : Pool σ τ ε) : Prop where
  global : G s.tasks.length s.shared s.log
  tasks : ∀ {j : Nat} {t : τ}, s.tasks[j]? = some t → L j t s.shared s.log

variable {G : Nat → σ → List ε → Prop} {L : Nat → τ → σ → List ε → Prop}
  {start : σ → Prop} {ok : Pool σ τ ε → PoolAction κ ι δ → Prop}

/-- The proof rule: the assertions hold at the start and for a fresh task, the
environment keeps them, and a step of one task keeps the global assertion,
establishes its own and does not disturb the others'. -/
theorem pool_invariant
    (hinit : ∀ x, start x → G 0 x [])
    (hspawn : ∀ s call, Holds G L s → ok s (.spawn call) →
      G (s.tasks.length + 1) s.shared s.log ∧
        L s.tasks.length (T.start call) s.shared s.log)
    (henv : ∀ s d, Holds G L s → ok s (.env d) →
      G s.tasks.length (T.env s.shared d) s.log ∧
        ∀ j t, s.tasks[j]? = some t → L j t (T.env s.shared d) s.log)
    (hrun : ∀ s tid input t x t' e, Holds G L s → ok s (.run tid input) →
      s.tasks[tid]? = some t → T.step tid s.shared t input = some (x, t', e) →
      G s.tasks.length x (e.toList ++ s.log) ∧ L tid t' x (e.toList ++ s.log) ∧
        ∀ j u, j ≠ tid → s.tasks[j]? = some u → L j u x (e.toList ++ s.log))
    {as : List (PoolAction κ ι δ)} {s : Pool σ τ ε} (h : (T.machine start).Run ok as s) :
    Holds G L s := by
  refine Machine.Run.stateInvariant (P := Holds G L) ?_ ?_ h
  · rintro ⟨x, tasks, log⟩ ⟨hx, rfl, rfl⟩
    exact ⟨hinit x hx, by simp⟩
  · intro s a s' hs hok hstep
    cases a with
    | spawn call =>
        rcases hspawn s call hs hok with ⟨hG, hL⟩
        cases hstep
        refine ⟨by simpa using hG, fun {j t} hj => ?_⟩
        rcases getElem?_append_singleton hj with ⟨rfl, rfl⟩ | hold
        · exact hL
        · exact hs.tasks hold
    | env d =>
        rcases henv s d hs hok with ⟨hG, hL⟩
        cases hstep
        exact ⟨hG, fun hj => hL _ _ hj⟩
    | run tid input =>
        rcases TaskSystem.advance_run_iff.mp hstep with ⟨t, x, t', e, ht, hst, rfl⟩
        rcases hrun s tid input t x t' e hs hok ht hst with ⟨hG, hL, hothers⟩
        refine ⟨by simpa using hG, fun {j u} hj => ?_⟩
        rw [getElem?_set_of_getElem? ht] at hj
        split at hj
        · rename_i hjt
          cases hj
          exact hjt ▸ hL
        · rename_i hjt
          exact hothers j u hjt hj

end Pool

end Foundation
