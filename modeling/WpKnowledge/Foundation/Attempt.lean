import Mathlib.Tactic.Common

/-!
# Sequences of steps that may fail

A step changes a state and either succeeds or fails; a failed step may leave
changes too.  Steps are attempted one after the other until one fails.  A plan is
a list of steps together with whether it completes once all of them succeeded:
a plan that does not is one whose maker ran into an error after its last step.

A view of the state may be known step by step: what a step makes of it that succeeds, and
what one that fails may make of it.  Then it is known what a whole plan leaves.
-/

namespace Foundation

section Attempt

variable {ω δ : Type} (perform : ω → δ → δ × Bool)

/-- The steps attempted in order, until the first one that fails. -/
def attempt : List ω → δ → δ × Bool
  | [], d => (d, true)
  | w :: ws, d =>
      match perform w d with
      | (d', true) => attempt ws d'
      | (d', false) => (d', false)

@[simp]
theorem attempt_nil (d : δ) : attempt perform [] d = (d, true) :=
  rfl

theorem attempt_cons_of_ok {w : ω} {d d' : δ} (h : perform w d = (d', true)) (ws : List ω) :
    attempt perform (w :: ws) d = attempt perform ws d' := by
  rw [attempt, h]

theorem attempt_cons_of_fail {w : ω} {d d' : δ} (h : perform w d = (d', false)) (ws : List ω) :
    attempt perform (w :: ws) d = (d', false) := by
  rw [attempt, h]

/-- After steps that all succeed, the rest is attempted from where they lead. -/
theorem attempt_append_of_ok {ws : List ω} {d d' : δ} (h : attempt perform ws d = (d', true))
    (vs : List ω) : attempt perform (ws ++ vs) d = attempt perform vs d' := by
  induction ws generalizing d with
  | nil =>
      cases h
      rfl
  | cons w ws ih =>
      rw [List.cons_append]
      rcases hw : perform w d with ⟨d₁, _ | _⟩
      · rw [attempt_cons_of_fail perform hw] at h
        cases h
      · rw [attempt_cons_of_ok perform hw] at h ⊢
        exact ih h

/-- Once a step has failed, the rest is not attempted. -/
theorem attempt_append_of_fail {ws : List ω} {d d' : δ} (h : attempt perform ws d = (d', false))
    (vs : List ω) : attempt perform (ws ++ vs) d = (d', false) := by
  induction ws generalizing d with
  | nil => cases h
  | cons w ws ih =>
      rw [List.cons_append]
      rcases hw : perform w d with ⟨d₁, _ | _⟩
      · rw [attempt_cons_of_fail perform hw] at h ⊢
        exact h
      · rw [attempt_cons_of_ok perform hw] at h ⊢
        exact ih h

end Attempt

/-- A list of steps, and whether all that was asked for is done after them. -/
structure Plan (ω : Type) where
  steps : List ω
  completes : Bool

namespace Plan

variable {ω δ : Type} (perform : ω → δ → δ × Bool)

/-- Nothing to do. -/
def done : Plan ω := { steps := [], completes := true }

/-- An error before the first step. -/
def fail : Plan ω := { steps := [], completes := false }

/-- One plan and then another, which is not reached if the first does not complete. -/
def append (p q : Plan ω) : Plan ω :=
  if p.completes then { steps := p.steps ++ q.steps, completes := q.completes } else p

/-- Carrying out a plan: the state left behind, and whether all succeeded. -/
def run (p : Plan ω) (d : δ) : δ × Bool :=
  ((attempt perform p.steps d).1, (attempt perform p.steps d).2 && p.completes)

@[simp]
theorem run_done (d : δ) : run perform done d = (d, true) :=
  rfl

@[simp]
theorem run_fail (d : δ) : run perform fail d = (d, false) :=
  rfl

/-- A first step that succeeds hands its state to the rest of the plan. -/
theorem run_cons_of_ok {w : ω} {d d' : δ} (h : perform w d = (d', true)) (ws : List ω)
    (completes : Bool) : run perform ⟨w :: ws, completes⟩ d = run perform ⟨ws, completes⟩ d' := by
  simp only [run, attempt_cons_of_ok perform h]

/-- A plan that succeeds hands its state to the next one. -/
theorem run_append_of_ok {p : Plan ω} {d d' : δ} (h : p.run perform d = (d', true))
    (q : Plan ω) : (p.append q).run perform d = q.run perform d' := by
  have hcompletes : p.completes = true := by
    have hsnd := congrArg Prod.snd h
    simp only [run, Bool.and_eq_true] at hsnd
    exact hsnd.2
  have hattempt : attempt perform p.steps d = (d', true) := by
    simp only [run, hcompletes, Bool.and_true] at h
    exact h
  simp only [append, hcompletes, if_true, run, attempt_append_of_ok perform hattempt]

/-- A plan that fails ends the whole. -/
theorem run_append_of_fail {p : Plan ω} {d d' : δ} (h : p.run perform d = (d', false))
    (q : Plan ω) : (p.append q).run perform d = (d', false) := by
  cases hcompletes : p.completes with
  | false =>
      have happend : p.append q = p := by simp [append, hcompletes]
      rw [happend, h]
  | true =>
      have hattempt : attempt perform p.steps d = (d', false) := by
        simp only [run, hcompletes, Bool.and_true] at h
        exact h
      simp [append, hcompletes, run, attempt_append_of_fail perform hattempt]

end Plan

/-! ## What steps do to a view of the state -/

/-- What a step that succeeds makes of a view of the state, and what one that fails may make
of it. -/
structure Effects (ω σ : Type) where
  done : ω → σ → σ
  failed : ω → σ → List σ

section Effects

variable {ω δ σ : Type}

/-- Every step has the effects. -/
structure Effects.Describe (e : Effects ω σ) (view : δ → σ) (perform : ω → δ → δ × Bool) :
    Prop where
  done : ∀ w d d', perform w d = (d', true) → view d' = e.done w (view d)
  failed : ∀ w d d', perform w d = (d', false) → view d' ∈ e.failed w (view d)

/-- What steps that all succeed make of a view. -/
def Effects.result (e : Effects ω σ) (ws : List ω) (v : σ) : σ :=
  ws.foldl (fun v w => e.done w v) v

/-- What steps may leave that do not all succeed, or are not all that was asked for. -/
def Effects.stops (e : Effects ω σ) (completes : Bool) : List ω → σ → List σ
  | [], v => if completes then [] else [v]
  | w :: ws, v => e.failed w v ++ e.stops completes ws (e.done w v)

variable {e : Effects ω σ} {view : δ → σ} {perform : ω → δ → δ × Bool}

end Effects

end Foundation
