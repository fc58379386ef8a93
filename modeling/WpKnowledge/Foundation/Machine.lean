import Mathlib.Data.List.Basic
import Mathlib.Tactic.Common

/-!
# Step machines and guarded runs

A machine has a set of initial states and a partial step function: an action
that is not enabled in a state has no successor.  A run is a list of actions
taken in order from an initial state.  A run may be asked to meet a guard at
every step, which is how a result speaks about the runs whose steps all satisfy
some condition.

Main results:

- Theorem {lit}`Run.invariant`: a predicate on histories and states that holds
  initially and is kept by every guarded step holds after every guarded run.
- Theorem {lit}`run_of_exec`: executing a list of actions gives a run, so a
  concrete run can be evaluated.
-/

namespace Foundation

/-- A machine over states `σ` and actions `α`. -/
structure Machine (σ α : Type) where
  init : σ → Prop
  step : σ → α → Option σ

namespace Machine

variable {σ α : Type} {M : Machine σ α} {ok : σ → α → Prop}

/-- `M.Run ok as s`: the actions `as` lead in order from an initial state to
`s`, and each of them meets the guard `ok` in the state it is taken from. -/
inductive Run (M : Machine σ α) (ok : σ → α → Prop) : List α → σ → Prop
  | start {s : σ} : M.init s → Run M ok [] s
  | snoc {as : List α} {s s' : σ} {a : α} :
      Run M ok as s → ok s a → M.step s a = some s' → Run M ok (as ++ [a]) s'

/-- The guard that admits every step. -/
def Unguarded (_ : σ) (_ : α) : Prop := True

instance (s : σ) (a : α) : Decidable (Unguarded s a) := .isTrue trivial

/-- The invariant rule for predicates on the history and the state. -/
theorem Run.invariant {P : List α → σ → Prop}
    (hinit : ∀ s, M.init s → P [] s)
    (hstep : ∀ as s a s', M.Run ok as s → P as s → ok s a → M.step s a = some s' →
      P (as ++ [a]) s')
    {as : List α} {s : σ} (h : M.Run ok as s) : P as s := by
  induction h with
  | start h0 => exact hinit _ h0
  | snoc hrun hok hs ih => exact hstep _ _ _ _ hrun ih hok hs

/-- The invariant rule for predicates on the state alone. -/
theorem Run.stateInvariant {P : σ → Prop}
    (hinit : ∀ s, M.init s → P s)
    (hstep : ∀ s a s', P s → ok s a → M.step s a = some s' → P s')
    {as : List α} {s : σ} (h : M.Run ok as s) : P s :=
  Run.invariant (P := fun _ s => P s) hinit
    (fun _ s a s' _ hP hok hs => hstep s a s' hP hok hs) h

/-- A run that meets a guard meets every weaker guard. -/
theorem Run.mono {ok' : σ → α → Prop} (hweak : ∀ s a, ok s a → ok' s a)
    {as : List α} {s : σ} (h : M.Run ok as s) : M.Run ok' as s := by
  induction h with
  | start h0 => exact .start h0
  | snoc _ hok hs ih => exact .snoc ih (hweak _ _ hok) hs

/-- `M.Steps ok s as s'`: the actions `as`, each meeting the guard, lead from `s`
to `s'`. -/
inductive Steps (M : Machine σ α) (ok : σ → α → Prop) : σ → List α → σ → Prop
  | refl (s : σ) : Steps M ok s [] s
  | snoc {s s' s'' : σ} {as : List α} {a : α} :
      Steps M ok s as s' → ok s' a → M.step s' a = some s'' → Steps M ok s (as ++ [a]) s''

/-- Steps that meet a guard meet every weaker guard. -/
theorem Steps.mono {ok' : σ → α → Prop} (hweak : ∀ s a, ok s a → ok' s a)
    {as : List α} {s s' : σ} (h : M.Steps ok s as s') : M.Steps ok' s as s' := by
  induction h with
  | refl => exact .refl _
  | snoc _ hok hs ih => exact .snoc ih (hweak _ _ hok) hs

/-- Steps taken after a run prolong it. -/
theorem Run.append_steps {ok' : σ → α → Prop} (hweak : ∀ s a, ok' s a → ok s a)
    {as bs : List α} {s s' : σ} (h : M.Run ok as s) (hsteps : M.Steps ok' s bs s') :
    M.Run ok (as ++ bs) s' := by
  induction hsteps with
  | refl => simpa using h
  | snoc _ hok hs ih =>
      rw [← List.append_assoc]
      exact .snoc ih (hweak _ _ hok) hs

/-- A predicate kept by every guarded step from a reached state is kept by any
number of them. -/
theorem Run.steps_invariant {ok' : σ → α → Prop} (hweak : ∀ s a, ok' s a → ok s a)
    {P : σ → Prop} {as bs : List α} {s s' : σ} (h : M.Run ok as s)
    (hstep : ∀ as s a s', M.Run ok as s → P s → ok' s a → M.step s a = some s' → P s')
    (hsteps : M.Steps ok' s bs s') (hP : P s) : P s' := by
  induction hsteps with
  | refl => exact hP
  | snoc hprev hok hs ih => exact hstep _ _ _ _ (h.append_steps hweak hprev) ih hok hs

/-- Execute a list of actions, checking a decidable guard before each one. -/
def exec (M : Machine σ α) (ok : σ → α → Prop) [∀ s a, Decidable (ok s a)] :
    σ → List α → Option σ
  | s, [] => some s
  | s, a :: as => if ok s a then (M.step s a).bind fun s' => exec M ok s' as else none

/-- Executing the actions `bs` after some steps prolongs them. -/
theorem Steps.append_exec [∀ s a, Decidable (ok s a)] {as bs : List α} {s s' s'' : σ}
    (h : M.Steps ok s as s') (hexec : M.exec ok s' bs = some s'') :
    M.Steps ok s (as ++ bs) s'' := by
  induction bs generalizing as s' with
  | nil =>
      simp only [exec, Option.some.injEq] at hexec
      simpa [hexec] using h
  | cons a bs ih =>
      simp only [exec] at hexec
      split at hexec
      · rename_i hok
        obtain ⟨s₁, hs₁, hrest⟩ := Option.bind_eq_some_iff.mp hexec
        have hsteps := ih (Steps.snoc h hok hs₁) hrest
        simpa using hsteps
      · simp at hexec

/-- A list of actions that executes is a list of steps. -/
theorem steps_of_exec [∀ s a, Decidable (ok s a)] {as : List α} {s s' : σ}
    (hexec : M.exec ok s as = some s') : M.Steps ok s as s' := by
  simpa using Steps.append_exec (Steps.refl s) hexec

/-- A list of actions that executes from an initial state is a run. -/
theorem run_of_exec [∀ s a, Decidable (ok s a)] {as : List α} {s s' : σ}
    (h0 : M.init s) (hexec : M.exec ok s as = some s') : M.Run ok as s' := by
  simpa using (Run.start h0).append_steps (fun _ _ hok => hok) (steps_of_exec hexec)

/-- A check that succeeds on the state an execution ends in. -/
theorem exists_run_of_exec_any [∀ s a, Decidable (ok s a)] {as : List α} {s : σ} {p : σ → Bool}
    (h0 : M.init s) (hexec : (M.exec ok s as).any p = true) :
    ∃ s', M.Run ok as s' ∧ p s' = true := by
  rcases (Option.any_eq_true _ _).mp hexec with ⟨s', hs, hp⟩
  exact ⟨s', run_of_exec h0 hs, hp⟩

end Machine

end Foundation
