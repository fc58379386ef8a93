import Mathlib.Data.List.Forall2
import Mathlib.Tactic.Common

/-!
# Traversing a list with a partial function

Facts about `List.mapM` in `Option`: when the traversal fails, how it composes,
and what two traversals with the same result say about their lists.
-/

namespace Foundation

variable {α β γ : Type}

theorem mapM_cons_eq_some_iff {f : α → Option β} {a : α} {as : List α} {bs : List β} :
    (a :: as).mapM f = some bs ↔
      ∃ b cs, f a = some b ∧ as.mapM f = some cs ∧ bs = b :: cs := by
  simp only [List.mapM_cons, Option.pure_def, Option.bind_eq_bind, Option.bind_eq_some_iff,
    Option.some.injEq]
  constructor
  · rintro ⟨b, hb, cs, hcs, rfl⟩
    exact ⟨b, cs, hb, hcs, rfl⟩
  · rintro ⟨b, cs, hb, hcs, rfl⟩
    exact ⟨b, hb, cs, hcs, rfl⟩

theorem mapM_nil_eq_some_iff {f : α → Option β} {bs : List β} :
    ([] : List α).mapM f = some bs ↔ bs = [] := by
  simp [eq_comm]

/-- One element without a value makes the traversal fail. -/
theorem mapM_eq_none_of_mem {f : α → Option β} {a : α} {as : List α} (ha : a ∈ as)
    (hf : f a = none) : as.mapM f = none := by
  induction as with
  | nil => simp at ha
  | cons b as ih =>
      rcases List.mem_cons.mp ha with rfl | ha
      · simp [List.mapM_cons, hf]
      · simp [List.mapM_cons, ih ha]

/-- A traversal that fails does so at one element. -/
theorem exists_mem_of_mapM_eq_none {f : α → Option β} {as : List α} (h : as.mapM f = none) :
    ∃ a ∈ as, f a = none := by
  induction as with
  | nil => simp at h
  | cons a as ih =>
      cases ha : f a with
      | none => exact ⟨a, List.mem_cons_self, ha⟩
      | some b =>
          cases has : as.mapM f with
          | none =>
              obtain ⟨a', hmem, ha'⟩ := ih has
              exact ⟨a', List.mem_cons_of_mem a hmem, ha'⟩
          | some bs => simp [List.mapM_cons, ha, has] at h

/-- What a traversal returns are values of its elements. -/
theorem exists_mem_of_mem_mapM {f : α → Option β} {as : List α} {bs : List β}
    (h : as.mapM f = some bs) {b : β} (hb : b ∈ bs) : ∃ a ∈ as, f a = some b := by
  induction as generalizing bs with
  | nil =>
      rw [mapM_nil_eq_some_iff.mp h] at hb
      cases hb
  | cons a as ih =>
      obtain ⟨b', bs', hb', hbs', rfl⟩ := mapM_cons_eq_some_iff.mp h
      rcases List.mem_cons.mp hb with rfl | hb
      · exact ⟨a, List.mem_cons_self, hb'⟩
      · obtain ⟨a', ha', hfa⟩ := ih hbs' hb
        exact ⟨a', List.mem_cons_of_mem a ha', hfa⟩

/-- A traversal that succeeds has a value for each element. -/
theorem length_of_mapM {f : α → Option β} {as : List α} {bs : List β}
    (h : as.mapM f = some bs) : bs.length = as.length := by
  induction as generalizing bs with
  | nil => rw [mapM_nil_eq_some_iff.mp h]; rfl
  | cons a as ih =>
      obtain ⟨b, bs', -, hbs, rfl⟩ := mapM_cons_eq_some_iff.mp h
      rw [List.length_cons, List.length_cons, ih hbs]

/-- Traversing with two functions is traversing the values of the first. -/
theorem mapM_bind_of_mapM {f : α → Option β} (g : β → Option γ) {as : List α} {bs : List β}
    (h : as.mapM f = some bs) : as.mapM (fun a => (f a).bind g) = bs.mapM g := by
  induction as generalizing bs with
  | nil => rw [mapM_nil_eq_some_iff.mp h]; rfl
  | cons a as ih =>
      obtain ⟨b, bs', hb, hbs, rfl⟩ := mapM_cons_eq_some_iff.mp h
      rw [List.mapM_cons, List.mapM_cons, ih hbs, hb]
      rfl

/-- A traversal of values is their list. -/
theorem mapM_id_map_some (as : List α) : (as.map some).mapM id = some as := by
  induction as with
  | nil => rfl
  | cons a as ih =>
      rw [List.map_cons, mapM_cons_eq_some_iff]
      exact ⟨a, as, rfl, ih, rfl⟩

/-- Traversing with a composition is composing the traversals. -/
theorem exists_mapM_of_mapM_bind {f : α → Option β} {g : β → Option γ} {as : List α}
    {cs : List γ} (h : as.mapM (fun a => (f a).bind g) = some cs) :
    ∃ bs, as.mapM f = some bs ∧ bs.mapM g = some cs := by
  induction as generalizing cs with
  | nil => exact ⟨[], by simp, by simpa using h⟩
  | cons a as ih =>
      obtain ⟨c, cs', hc, hcs', rfl⟩ := mapM_cons_eq_some_iff.mp h
      obtain ⟨b, hb, hbc⟩ := Option.bind_eq_some_iff.mp hc
      obtain ⟨bs, hbs, hbcs⟩ := ih hcs'
      exact ⟨b :: bs, mapM_cons_eq_some_iff.mpr ⟨b, bs, hb, hbs, rfl⟩,
        mapM_cons_eq_some_iff.mpr ⟨c, cs', hbc, hbcs, rfl⟩⟩

/-- A traversal keeps its result when the function is only extended. -/
theorem mapM_of_extends {f g : α → Option β} (hfg : ∀ a b, f a = some b → g a = some b)
    {as : List α} {bs : List β} (h : as.mapM f = some bs) : as.mapM g = some bs := by
  induction as generalizing bs with
  | nil => simpa using h
  | cons a as ih =>
      obtain ⟨b, cs, hb, hcs, rfl⟩ := mapM_cons_eq_some_iff.mp h
      exact mapM_cons_eq_some_iff.mpr ⟨b, cs, hfg a b hb, ih hcs, rfl⟩

/-- Lists with the same traversal agree position by position. -/
theorem forall₂_of_mapM_eq {f : α → Option β} {as as' : List α} {bs : List β}
    (h : as.mapM f = some bs) (h' : as'.mapM f = some bs) :
    List.Forall₂ (fun a a' => ∃ b, f a = some b ∧ f a' = some b) as as' := by
  induction as generalizing as' bs with
  | nil =>
      obtain rfl := mapM_nil_eq_some_iff.mp h
      cases as' with
      | nil => exact .nil
      | cons a' as' =>
          obtain ⟨_, _, _, _, hnil⟩ := mapM_cons_eq_some_iff.mp h'
          simp at hnil
  | cons a as ih =>
      obtain ⟨b, cs, hb, hcs, rfl⟩ := mapM_cons_eq_some_iff.mp h
      cases as' with
      | nil => simp [eq_comm] at h'
      | cons a' as' =>
          obtain ⟨b', cs', hb', hcs', heq⟩ := mapM_cons_eq_some_iff.mp h'
          obtain ⟨rfl, rfl⟩ := List.cons.inj heq
          exact .cons ⟨b, hb, hb'⟩ (ih hcs hcs')

end Foundation
