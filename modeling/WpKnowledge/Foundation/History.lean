import Mathlib.Data.List.Basic

/-!
# Justified histories

A history is a list of events, newest first.  It is justified when each event
stands in a given relation to the events before it.

Main results:

- Theorem {lit}`Justified.split`: any event of a justified history is justified
  by the part of the history before it.
-/

namespace Foundation

variable {ε : Type} {J : List ε → ε → Prop}

/-- `Justified J log`: each event `e` of `log` satisfies `J before e`, where
`before` are the events older than `e`. -/
inductive Justified (J : List ε → ε → Prop) : List ε → Prop
  | nil : Justified J []
  | cons {e : ε} {log : List ε} : J log e → Justified J log → Justified J (e :: log)

/-- Adding the events of one step, at most one of them. -/
theorem Justified.append_toList {log : List ε} {o : Option ε} (h : Justified J log)
    (ho : ∀ e, o = some e → J log e) : Justified J (o.toList ++ log) := by
  cases o with
  | none => exact h
  | some e => exact .cons (ho e rfl) h

/-- An event of a justified history is justified by what came before it. -/
theorem Justified.split {log post pre : List ε} {e : ε} (h : Justified J log)
    (hlog : log = post ++ e :: pre) : J pre e := by
  induction h generalizing post with
  | nil => simp at hlog
  | cons hJ _ ih =>
      cases post with
      | nil =>
          rw [List.nil_append, List.cons.injEq] at hlog
          rw [← hlog.1, ← hlog.2]
          exact hJ
      | cons e' post =>
          rw [List.cons_append, List.cons.injEq] at hlog
          exact ih hlog.2

end Foundation
