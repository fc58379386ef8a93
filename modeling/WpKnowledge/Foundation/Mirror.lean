import WpKnowledge.Foundation.TaskPool

/-!
# Values that tasks copy

A value is recorded at one place of the shared state and read at another.  A task that
records a new value copies it in a later step of its own, so what is read may be behind.
It is caught up with in the end if at any moment it is the recorded value or some task
has yet to copy the recorded value.

Main results:

- Theorem {lit}`Respects.settled_step_iff`: which steps keep that so.
- Theorem {lit}`settled_of_run`: it is so in every run of such steps.
- Theorem {lit}`unsettled_of_steps`: once it is not so, it stays so until a task records
  a value anew.
-/

namespace Foundation

/-- A value that is recorded at one place and read at another: what is recorded, what is
in place to be read, whether a task's next step records a value, what its next step
copies, and what it has yet to copy in this step or a later one. -/
structure Mirror (σ τ β : Type) where
  recorded : σ → β
  inPlace : σ → β
  records : τ → Bool
  copying : τ → Option β
  pending : τ → Option β

namespace Mirror

variable {σ τ ε κ ι δ β : Type} {M : Mirror σ τ β} {T : TaskSystem σ τ ε κ ι δ}

/-- What one step of a task does: it records a value, it copies one, or neither. -/
inductive Effect (M : Mirror σ τ β) (x x' : σ) (t t' : τ) : Prop
  | recorded (hrecords : M.records t = true) (hplace : M.inPlace x' = M.inPlace x)
      (hcopying : M.copying t = none) (hpending : M.pending t' = some (M.recorded x'))
  | copied (hrecorded : M.recorded x' = M.recorded x)
      (hcopying : M.copying t = some (M.inPlace x'))
      (hpending : M.pending t = some (M.inPlace x')) (hpending' : M.pending t' = none)
  | kept (hrecorded : M.recorded x' = M.recorded x) (hplace : M.inPlace x' = M.inPlace x)
      (hcopying : M.copying t = none) (hpending : M.pending t' = M.pending t)

/-- The value in place is the recorded one, or some task has yet to copy that. -/
def Settled (M : Mirror σ τ β) (s : Pool σ τ ε) : Prop :=
  M.inPlace s.shared = M.recorded s.shared ∨
    ∃ t ∈ s.tasks, M.pending t = some (M.recorded s.shared)

/-- If the step copies a value, it is the recorded one, or another task has yet to copy
the recorded one. -/
def InTurn (M : Mirror σ τ β) (s : Pool σ τ ε) : PoolAction κ ι δ → Prop
  | .run tid _ => ∀ t ∈ s.tasks[tid]?, ∀ v ∈ M.copying t, v = M.recorded s.shared ∨
      ∃ u ∈ s.tasks.eraseIdx tid, M.pending u = some (M.recorded s.shared)
  | _ => True

instance [DecidableEq β] (s : Pool σ τ ε) (a : PoolAction κ ι δ) : Decidable (M.InTurn s a) :=
  match a with
  | .run _ _ => inferInstanceAs (Decidable (∀ t ∈ _, ∀ v ∈ _, _))
  | .spawn _ => .isTrue trivial
  | .env _ => .isTrue trivial

/-- The step records a value. -/
def Records (M : Mirror σ τ β) (s : Pool σ τ ε) : PoolAction κ ι δ → Prop
  | .run tid _ => ∃ t ∈ s.tasks[tid]?, M.records t = true
  | _ => False

/-- With nothing left to copy, settled means that the value in place is the recorded
one. -/
theorem settled_iff_of_pending_eq_none {s : Pool σ τ ε}
    (h : ∀ t ∈ s.tasks, M.pending t = none) :
    M.Settled s ↔ M.inPlace s.shared = M.recorded s.shared := by
  refine or_iff_left ?_
  rintro ⟨t, ht, hpending⟩
  rw [h t ht] at hpending
  cases hpending

/-- A task system keeps to a mirror: a new task has nothing to copy, the environment
leaves the value alone, and each step has one of the effects. -/
structure Respects (M : Mirror σ τ β) (T : TaskSystem σ τ ε κ ι δ) : Prop where
  start : ∀ call, M.pending (T.start call) = none
  env : ∀ x d, M.recorded (T.env x d) = M.recorded x ∧ M.inPlace (T.env x d) = M.inPlace x
  step : ∀ {tid x t input x' t' e}, T.step tid x t input = some (x', t', e) →
    M.Effect x x' t t'

/-! ## One step -/

/-- A step of a task, from a settled pool, leads to a settled pool if and only if it is in
turn. -/
theorem Effect.settled_iff {s : Pool σ τ ε} {tid : Nat} {input : ι} {t t' : τ} {x' : σ}
    {log' : List ε} (h : M.Effect s.shared x' t t') (ht : s.tasks[tid]? = some t)
    (hs : M.Settled s) :
    M.Settled ⟨x', s.tasks.set tid t', log'⟩ ↔
      M.InTurn s (.run tid input : PoolAction κ ι δ) := by
  have hturn : M.InTurn s (.run tid input : PoolAction κ ι δ) ↔
      ∀ v ∈ M.copying t, v = M.recorded s.shared ∨
        ∃ u ∈ s.tasks.eraseIdx tid, M.pending u = some (M.recorded s.shared) := by
    simp [InTurn, ht]
  rw [hturn]
  simp only [Settled, mem_set_of_getElem? ht, exists_eq_or_imp]
  cases h with
  | recorded _ _ hcopying hpending => simp [hcopying, hpending]
  | copied hrecorded hcopying _ hpending' => simp [hcopying, hpending', hrecorded]
  | kept hrecorded hplace hcopying hpending =>
      simp only [Settled, mem_iff_of_getElem? ht, exists_eq_or_imp] at hs
      simp [hcopying, hrecorded, hplace, hpending, hs]

/-- A step that records nothing does not settle a pool. -/
theorem Effect.not_settled {s : Pool σ τ ε} {tid : Nat} {t t' : τ} {x' : σ} {log' : List ε}
    (h : M.Effect s.shared x' t t') (ht : s.tasks[tid]? = some t)
    (hrecords : M.records t = false) (hs : ¬ M.Settled s) :
    ¬ M.Settled ⟨x', s.tasks.set tid t', log'⟩ := by
  simp only [Settled, mem_iff_of_getElem? ht, exists_eq_or_imp, not_or] at hs
  obtain ⟨hplace₀, hpending₀, hothers⟩ := hs
  simp only [Settled, mem_set_of_getElem? ht, exists_eq_or_imp, not_or]
  cases h with
  | recorded hrec => simp [hrecords] at hrec
  | copied hrecorded _ hpending hpending' =>
      -- had the step copied the recorded value, the task would have had yet to copy it
      have hne : M.inPlace x' ≠ M.recorded s.shared := by
        intro heq
        exact hpending₀ (by rw [hpending, heq])
      rw [hrecorded, hpending']
      exact ⟨hne, by simp, hothers⟩
  | kept hrecorded hplace _ hpending =>
      rw [hrecorded, hplace, hpending]
      exact ⟨hplace₀, hpending₀, hothers⟩

/-- **In turn.**  From a settled pool, a step leads to a settled pool if and only if it is
in turn. -/
theorem Respects.settled_step_iff (hM : M.Respects T) {s s' : Pool σ τ ε}
    {a : PoolAction κ ι δ} (hs : M.Settled s) (hstep : T.advance s a = some s') :
    M.Settled s' ↔ M.InTurn s a := by
  cases a with
  | spawn call =>
      cases hstep
      refine iff_of_true ?_ trivial
      rcases hs with hplace | ⟨t, ht, hpending⟩
      · exact .inl hplace
      · exact .inr ⟨t, List.mem_append_left _ ht, hpending⟩
  | env d =>
      cases hstep
      refine iff_of_true ?_ trivial
      obtain ⟨hrecorded, hplace⟩ := hM.env s.shared d
      simpa only [Settled, hrecorded, hplace] using hs
  | run tid input =>
      rcases TaskSystem.advance_run_iff.mp hstep with ⟨t, x', t', e, ht, hst, rfl⟩
      exact (hM.step hst).settled_iff ht hs

/-- A step that records nothing leaves an unsettled pool unsettled. -/
theorem Respects.not_settled_step (hM : M.Respects T) {s s' : Pool σ τ ε}
    {a : PoolAction κ ι δ} (hs : ¬ M.Settled s) (hrecords : ¬ M.Records s a)
    (hstep : T.advance s a = some s') : ¬ M.Settled s' := by
  cases a with
  | spawn call =>
      cases hstep
      simpa [Settled, or_and_right, exists_or, hM.start call] using hs
  | env d =>
      cases hstep
      obtain ⟨hrecorded, hplace⟩ := hM.env s.shared d
      simpa only [Settled, hrecorded, hplace] using hs
  | run tid input =>
      rcases TaskSystem.advance_run_iff.mp hstep with ⟨t, x', t', e, ht, hst, rfl⟩
      have hnot : M.records t = false := by
        simpa [Records, ht] using hrecords
      exact (hM.step hst).not_settled ht hnot hs

/-! ## Whole runs -/

variable {start : σ → Prop} {ok : Pool σ τ ε → PoolAction κ ι δ → Prop}

/-- If every copying step is in turn, the pool stays settled. -/
theorem settled_of_run (hM : M.Respects T) (hinit : ∀ x, start x → M.inPlace x = M.recorded x)
    (hturn : ∀ s a, ok s a → M.InTurn s a) {as : List (PoolAction κ ι δ)} {s : Pool σ τ ε}
    (h : (T.machine start).Run ok as s) : M.Settled s := by
  refine Machine.Run.stateInvariant ?_ ?_ h
  · rintro s ⟨hx, -, -⟩
    exact .inl (hinit _ hx)
  · intro s a s' hs hok hstep
    exact (hM.settled_step_iff hs hstep).mpr (hturn s a hok)

/-- An unsettled pool stays unsettled as long as nothing is recorded. -/
theorem unsettled_of_steps (hM : M.Respects T) (hnot : ∀ s a, ok s a → ¬ M.Records s a)
    {as : List (PoolAction κ ι δ)} {s s' : Pool σ τ ε}
    (h : (T.machine start).Steps ok s as s') (hs : ¬ M.Settled s) : ¬ M.Settled s' := by
  induction h with
  | refl => exact hs
  | snoc _ hok hstep ih => exact hM.not_settled_step ih (hnot _ _ hok) hstep

end Mirror

end Foundation
