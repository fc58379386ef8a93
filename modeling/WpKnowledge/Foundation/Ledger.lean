import Mathlib.Algebra.GroupWithZero.Nat
import Mathlib.Algebra.BigOperators.Group.List.Basic
import WpKnowledge.Foundation.TaskPool

/-!
# Counters that add up over the tasks

Two counters, kept in the shared state or read off the history, and a weight for
each task are in balance when no step changes one side by more than the other.
The counters then differ by the total weight of the tasks in every state a run
can reach, whatever the order of the steps.

Main results:

- Theorem {lit}`total_set_add`: the total after one task has been replaced.
- Theorem {lit}`credit_eq_debit_add_total`: the rule for runs.
-/

namespace Foundation

/-- The total weight of a list of tasks. -/
def total {τ : Type} (w : τ → Nat) (tasks : List τ) : Nat :=
  (tasks.map w).sum

section Total

variable {τ : Type} (w : τ → Nat)

@[simp]
theorem total_nil : total w [] = 0 := rfl

@[simp]
theorem total_append_singleton (tasks : List τ) (t : τ) :
    total w (tasks ++ [t]) = total w tasks + w t := by
  simp [total]

theorem total_set_add {tasks : List τ} {tid : Nat} {t : τ} (t' : τ) (ht : tasks[tid]? = some t) :
    total w (tasks.set tid t') + w t = total w tasks + w t' := by
  obtain ⟨hlt, rfl⟩ := List.getElem?_eq_some_iff.mp ht
  have hset := ((List.set_perm_cons_eraseIdx hlt t').map w).sum_eq
  have hall := ((List.getElem_cons_eraseIdx_perm hlt).map w).sum_eq
  simp only [List.map_cons, List.sum_cons] at hset hall
  simp only [total, hset, ← hall]
  omega

theorem total_eq_countP (p : τ → Bool) (tasks : List τ) :
    total (fun t => if p t then 1 else 0) tasks = tasks.countP p := by
  induction tasks with
  | nil => rfl
  | cons t tasks ih =>
      rw [List.countP_cons, ← ih]
      simp [total, Nat.add_comm]

theorem total_add (v : τ → Nat) (tasks : List τ) :
    total (fun t => w t + v t) tasks = total w tasks + total v tasks := by
  induction tasks with
  | nil => rfl
  | cons t tasks ih =>
      simp only [total, List.map_cons, List.sum_cons] at ih ⊢
      omega

variable {w} in
theorem total_congr {v : τ → Nat} {tasks : List τ} (h : ∀ t ∈ tasks, w t = v t) :
    total w tasks = total v tasks := by
  simp only [total, List.map_congr_left h]

end Total

namespace Pool

variable {σ τ ε κ ι δ : Type} {T : TaskSystem σ τ ε κ ι δ} {start : σ → Prop}
  {ok : Pool σ τ ε → PoolAction κ ι δ → Prop}

/-- The rule: two counters that start level and drift apart only by what the task
that takes a step gains in weight differ by the total weight of the tasks.  The
step may be taken to start in a state some run reaches. -/
theorem credit_eq_debit_add_total (credit debit : σ → List ε → Nat) (w : τ → Nat)
    (hinit : ∀ x, start x → credit x [] = debit x [])
    (hspawn : ∀ call, w (T.start call) = 0)
    (henv : ∀ x log d, credit (T.env x d) log + debit x log = credit x log + debit (T.env x d) log)
    (hrun : ∀ as s tid t input x e t', (T.machine start).Run ok as s →
      s.tasks[tid]? = some t → T.step tid s.shared t input = some (x, t', e) →
      credit x (e.toList ++ s.log) + debit s.shared s.log + w t =
        credit s.shared s.log + debit x (e.toList ++ s.log) + w t')
    {as : List (PoolAction κ ι δ)} {s : Pool σ τ ε} (h : (T.machine start).Run ok as s) :
    credit s.shared s.log = debit s.shared s.log + total w s.tasks := by
  refine Machine.Run.invariant
    (P := fun _ s => credit s.shared s.log = debit s.shared s.log + total w s.tasks) ?_ ?_ h
  · rintro ⟨x, tasks, log⟩ ⟨hx, rfl, rfl⟩
    simpa using hinit x hx
  · intro as s a s' hreach hs _ hstep
    cases a with
    | spawn call =>
        cases hstep
        simpa [hspawn call] using hs
    | env d =>
        cases hstep
        have hmove := henv s.shared s.log d
        simp only
        omega
    | run tid input =>
        rcases TaskSystem.advance_run_iff.mp hstep with ⟨t, x, t', e, ht, hst, rfl⟩
        have hmove := hrun as s tid t input x e t' hreach ht hst
        have hset := total_set_add w t' ht
        simp only
        omega

end Pool

end Foundation
