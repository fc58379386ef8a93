import Mathlib.Data.List.Forall2
import Mathlib.Tactic.Common

/-!
# Folding a list with a step that may fail

Facts about `List.foldlM` in `Except`: when the fold succeeds, where it fails, and the
rule that an invariant over the elements folded so far holds of its result.  The same for
`List.mapM`.
-/

namespace Foundation

variable {ε α β : Type} {f : β → α → Except ε β}

/-- Mapping the result does not change whether there is one. -/
theorem exists_map_eq_ok_iff {γ : Type} {g : β → γ} {x : Except ε β} :
    (∃ c, x.map g = .ok c) ↔ ∃ b, x = .ok b := by
  cases x with
  | error e => simp [Except.map]
  | ok b => simp [Except.map]

/-- A mapped result is a result, mapped. -/
theorem map_eq_ok_iff {g : α → β} {x : Except ε α} {b : β} :
    x.map g = .ok b ↔ ∃ a, x = .ok a ∧ g a = b := by
  cases x with
  | error e => simp [Except.map]
  | ok a => simp [Except.map]

/-- A computation succeeds if its first part does and the rest of it. -/
theorem bind_eq_ok_iff {γ : Type} {g : α → Except ε γ} {x : Except ε α} {c : γ} :
    x.bind g = .ok c ↔ ∃ a, x = .ok a ∧ g a = .ok c := by
  cases x with
  | error e => simp [Except.bind]
  | ok a => simp [Except.bind]

/-- A computation fails in its first part or in the rest of it. -/
theorem bind_eq_error_iff {γ : Type} {g : α → Except ε γ} {x : Except ε α} {e : ε} :
    x.bind g = .error e ↔ x = .error e ∨ ∃ a, x = .ok a ∧ g a = .error e := by
  cases x with
  | error e => simp [Except.bind]
  | ok a => simp [Except.bind]

/-- What is left of a result when its error is forgotten. -/
theorem toOption_eq_some_iff {x : Except ε α} {a : α} : x.toOption = some a ↔ x = .ok a := by
  cases x with
  | error e => simp [Except.toOption]
  | ok a => simp [Except.toOption]

/-- A fold over a longer list succeeds when its first step and the rest do. -/
theorem foldlM_cons_eq_ok_iff {x : α} {xs : List α} {b b'' : β} :
    (x :: xs).foldlM f b = .ok b'' ↔ ∃ b', f b x = .ok b' ∧ xs.foldlM f b' = .ok b'' := by
  rw [List.foldlM_cons]
  cases hstep : f b x with
  | error e => simp [bind, Except.bind]
  | ok b' => simp [bind, Except.bind]

/-- A fold fails at the first step that fails, with its error. -/
theorem foldlM_eq_error_iff {xs : List α} {b : β} {e : ε} :
    xs.foldlM f b = .error e ↔
      ∃ before x after b', xs = before ++ x :: after ∧ before.foldlM f b = .ok b' ∧
        f b' x = .error e := by
  constructor
  · intro h
    induction xs generalizing b with
    | nil => cases h
    | cons x xs ih =>
        cases hstep : f b x with
        | error e' =>
            rw [List.foldlM_cons, hstep] at h
            cases h
            exact ⟨[], x, xs, b, rfl, rfl, hstep⟩
        | ok b₁ =>
            rw [List.foldlM_cons, hstep] at h
            obtain ⟨before, y, after, b', rfl, hbefore, hy⟩ := ih h
            exact ⟨x :: before, y, after, b', rfl,
              foldlM_cons_eq_ok_iff.mpr ⟨b₁, hstep, hbefore⟩, hy⟩
  · rintro ⟨before, x, after, b', rfl, hbefore, hx⟩
    rw [List.foldlM_append, hbefore]
    change (x :: after).foldlM f b' = .error e
    rw [List.foldlM_cons, hx]
    rfl

/-- If the success of a step depends on the element only, then so does that of
the fold. -/
theorem exists_foldlM_eq_ok_iff {P : α → Prop} (hstep : ∀ b x, (∃ b', f b x = .ok b') ↔ P x)
    (xs : List α) (b : β) : (∃ b', xs.foldlM f b = .ok b') ↔ ∀ x ∈ xs, P x := by
  induction xs generalizing b with
  | nil => simp [pure, Except.pure]
  | cons x xs ih =>
      simp only [foldlM_cons_eq_ok_iff, List.forall_mem_cons]
      constructor
      · intro ⟨b'', b', hb', hrest⟩
        have hx : P x := (hstep b x).mp ⟨b', hb'⟩
        exact ⟨hx, (ih b').mp ⟨b'', hrest⟩⟩
      · intro ⟨hx, hxs⟩
        obtain ⟨b', hb'⟩ := (hstep b x).mpr hx
        obtain ⟨b'', hrest⟩ := (ih b').mpr hxs
        exact ⟨b'', b', hb', hrest⟩

/-- The results of a map that may fail stand at the places of what they were made from. -/
theorem getElem?_of_mapM_eq_ok {γ : Type} {g : α → Except ε γ} {xs : List α} {ys : List γ}
    (h : xs.mapM g = .ok ys) {n : Nat} {x : α} (hx : xs[n]? = some x) :
    ∃ y, ys[n]? = some y ∧ g x = .ok y := by
  induction xs generalizing ys n with
  | nil => simp at hx
  | cons x' xs ih =>
      rw [List.mapM_cons] at h
      cases hhead : g x' with
      | error e => simp [hhead, bind, Except.bind] at h
      | ok y' =>
          cases htail : xs.mapM g with
          | error e => simp [hhead, htail, bind, Except.bind] at h
          | ok ys' =>
              simp only [hhead, htail, bind, Except.bind, pure, Except.pure, Except.ok.injEq] at h
              subst h
              cases n with
              | zero =>
                  cases hx
                  exact ⟨y', rfl, hhead⟩
              | succ n => exact ih htail hx

/-- A map that may fail depends on the elements only. -/
theorem mapM_congr {γ : Type} {g h : α → Except ε γ} {xs : List α} (hgh : ∀ x ∈ xs, g x = h x) :
    xs.mapM g = xs.mapM h := by
  induction xs with
  | nil => rfl
  | cons x xs ih =>
      have hx : g x = h x := hgh x List.mem_cons_self
      have hxs : xs.mapM g = xs.mapM h := ih fun y hy => hgh y (List.mem_cons_of_mem x hy)
      rw [List.mapM_cons, List.mapM_cons, hx, hxs]

/-- If every result is mapped, then so is the list of the results. -/
theorem mapM_map_eq {γ δ : Type} {g : α → Except ε γ} (k : γ → δ) (xs : List α) :
    xs.mapM (fun x => (g x).map k) = (xs.mapM g).map (List.map k) := by
  induction xs with
  | nil => rfl
  | cons x xs ih =>
      rw [List.mapM_cons, List.mapM_cons, ih]
      cases g x with
      | error e => rfl
      | ok y => cases xs.mapM g <;> rfl

/-- A map that may fail succeeds when it does for every element. -/
theorem mapM_eq_ok_iff {γ : Type} {g : α → Except ε γ} {xs : List α} {ys : List γ} :
    xs.mapM g = .ok ys ↔ List.Forall₂ (fun x y => g x = .ok y) xs ys := by
  induction xs generalizing ys with
  | nil =>
      rw [List.mapM_nil, List.forall₂_nil_left_iff]
      simp [pure, Except.pure, eq_comm]
  | cons x xs ih =>
      rw [List.mapM_cons, List.forall₂_cons_left_iff]
      constructor
      · intro h
        cases hx : g x with
        | error e => simp [hx, bind, Except.bind] at h
        | ok y =>
            cases hxs : xs.mapM g with
            | error e => simp [hx, hxs, bind, Except.bind] at h
            | ok ys' =>
                simp only [hx, hxs, bind, Except.bind, pure, Except.pure, Except.ok.injEq] at h
                exact ⟨y, ys', rfl, ih.mp hxs, h.symm⟩
      · rintro ⟨y, ys', hx, hxs, rfl⟩
        rw [hx, ih.mpr hxs]
        rfl

/-- It fails at the first element it fails for, with its error. -/
theorem mapM_eq_error_iff {γ : Type} {g : α → Except ε γ} {xs : List α} {e : ε} :
    xs.mapM g = .error e ↔
      ∃ before x after, xs = before ++ x :: after ∧ (∀ y ∈ before, ∃ z, g y = .ok z) ∧
        g x = .error e := by
  induction xs with
  | nil => simp [pure, Except.pure]
  | cons x xs ih =>
      rw [List.mapM_cons]
      cases hx : g x with
      | error e' =>
          constructor
          · intro h
            cases h
            exact ⟨[], x, xs, rfl, by simp, hx⟩
          · rintro ⟨before, y, after, hsplit, hbefore, hy⟩
            cases before with
            | nil =>
                cases hsplit
                rw [hx] at hy
                cases hy
                rfl
            | cons z before =>
                cases hsplit
                obtain ⟨z', hz'⟩ := hbefore x List.mem_cons_self
                rw [hx] at hz'
                cases hz'
      | ok y =>
          have htail : ((Except.ok y : Except ε γ) >>= fun y => xs.mapM g >>= fun ys =>
              pure (y :: ys)) = .error e ↔ xs.mapM g = .error e := by
            cases xs.mapM g <;> simp [bind, Except.bind, pure, Except.pure]
          rw [htail, ih]
          constructor
          · rintro ⟨before, z, after, rfl, hbefore, hz⟩
            refine ⟨x :: before, z, after, rfl, ?_, hz⟩
            exact List.forall_mem_cons.mpr ⟨⟨y, hx⟩, hbefore⟩
          · rintro ⟨before, z, after, hsplit, hbefore, hz⟩
            cases before with
            | nil =>
                cases hsplit
                rw [hx] at hz
                cases hz
            | cons w before =>
                cases hsplit
                exact ⟨before, z, after, rfl, (List.forall_mem_cons.mp hbefore).2, hz⟩

/-- What holds before a fold and is kept by every successful step holds of its
result. -/
theorem foldlM_invariant {P : List α → β → Prop} {xs : List α} {b b' : β} (hinit : P [] b)
    (hstep : ∀ ys b x b', P ys b → f b x = .ok b' → P (ys ++ [x]) b')
    (h : xs.foldlM f b = .ok b') : P xs b' := by
  -- the induction carries the elements already folded
  suffices hgen : ∀ (xs ys : List α) (b : β), P ys b → xs.foldlM f b = .ok b' →
      P (ys ++ xs) b' by
    simpa using hgen xs [] b hinit h
  intro xs
  induction xs with
  | nil =>
      intro ys b hb hfold
      cases hfold
      simpa using hb
  | cons x xs ih =>
      intro ys b hb hfold
      obtain ⟨b₁, hb₁, hrest⟩ := foldlM_cons_eq_ok_iff.mp hfold
      have hnext : P (ys ++ [x]) b₁ := hstep ys b x b₁ hb hb₁
      simpa using ih (ys ++ [x]) b₁ hnext hrest

end Foundation
