import Mathlib.Data.List.Nodup
import Mathlib.Logic.Function.Basic

/-!
# Values that are assigned in order

Each name has a value, and assignments give names new ones, one after the other.  In the
end a name has the value of its last assignment, or the value it had if there is none.

Main results:

- Theorem {lit}`assignAll_append_cons`: the last assignment of a name decides.
- Theorem {lit}`assignAll_cases`: where a value comes from.
- Theorem {lit}`assignAll_eq_of_mem`: what was there before does not matter to a name that
  is assigned.
-/

namespace Foundation

variable {κ α : Type} [DecidableEq κ]

/-- The values after some assignments, in order. -/
def assignAll (f : κ → α) (assignments : List (κ × α)) : κ → α :=
  assignments.foldl (fun f a => Function.update f a.1 a.2) f

@[simp]
theorem assignAll_nil (f : κ → α) : assignAll f [] = f :=
  rfl

@[simp]
theorem assignAll_cons (f : κ → α) (a : κ × α) (assignments : List (κ × α)) :
    assignAll f (a :: assignments) = assignAll (Function.update f a.1 a.2) assignments :=
  rfl

theorem assignAll_append (f : κ → α) (before after : List (κ × α)) :
    assignAll f (before ++ after) = assignAll (assignAll f before) after :=
  List.foldl_append

/-- A name that is not assigned keeps its value. -/
theorem assignAll_of_not_mem {assignments : List (κ × α)} {k : κ}
    (h : k ∉ assignments.map Prod.fst) (f : κ → α) : assignAll f assignments k = f k := by
  induction assignments generalizing f with
  | nil => rfl
  | cons a assignments ih =>
      rw [List.map_cons, List.mem_cons, not_or] at h
      rw [assignAll_cons, ih h.2, Function.update_of_ne h.1]

/-- The last assignment of a name decides. -/
theorem assignAll_append_cons {after : List (κ × α)} {k : κ} (h : k ∉ after.map Prod.fst)
    (f : κ → α) (before : List (κ × α)) (v : α) :
    assignAll f (before ++ (k, v) :: after) k = v := by
  rw [assignAll_append, assignAll_cons, assignAll_of_not_mem h, Function.update_self]

/-- Either a name is not assigned, or one of its assignments is the last one. -/
theorem exists_last_assignment {assignments : List (κ × α)} {k : κ}
    (h : k ∈ assignments.map Prod.fst) :
    ∃ before v after, assignments = before ++ (k, v) :: after ∧ k ∉ after.map Prod.fst := by
  induction assignments with
  | nil => cases h
  | cons a assignments ih =>
      by_cases hlater : k ∈ assignments.map Prod.fst
      · obtain ⟨before, v, after, rfl, hafter⟩ := ih hlater
        exact ⟨a :: before, v, after, rfl, hafter⟩
      · rw [List.map_cons, List.mem_cons] at h
        obtain rfl := h.resolve_right hlater
        exact ⟨[], a.2, assignments, rfl, hlater⟩

/-- A value is the old one, or it has been assigned. -/
theorem assignAll_cases (f : κ → α) (assignments : List (κ × α)) (k : κ) :
    assignAll f assignments k = f k ∨ (k, assignAll f assignments k) ∈ assignments := by
  by_cases h : k ∈ assignments.map Prod.fst
  · obtain ⟨before, v, after, rfl, hafter⟩ := exists_last_assignment h
    right
    rw [assignAll_append_cons hafter]
    exact List.mem_append_right before List.mem_cons_self
  · exact .inl (assignAll_of_not_mem h f)

/-- What was there before does not matter to a name that is assigned. -/
theorem assignAll_eq_of_mem {assignments : List (κ × α)} {k : κ}
    (h : k ∈ assignments.map Prod.fst) (f g : κ → α) :
    assignAll f assignments k = assignAll g assignments k := by
  obtain ⟨before, v, after, rfl, hafter⟩ := exists_last_assignment h
  rw [assignAll_append_cons hafter, assignAll_append_cons hafter]

/-- A name that is assigned once has that value. -/
theorem assignAll_of_mem {assignments : List (κ × α)} (hnodup : (assignments.map Prod.fst).Nodup)
    {a : κ × α} (ha : a ∈ assignments) (f : κ → α) : assignAll f assignments a.1 = a.2 := by
  obtain ⟨before, after, rfl⟩ := List.append_of_mem ha
  rw [List.map_append, List.map_cons, List.nodup_append] at hnodup
  have hafter : a.1 ∉ after.map Prod.fst := (List.nodup_cons.mp hnodup.2.1).1
  exact assignAll_append_cons hafter f before a.2

end Foundation
