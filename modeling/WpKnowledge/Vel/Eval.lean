import WpKnowledge.Foundation.Slice
import WpKnowledge.Vel.Parse

/-!
# Evaluating definitions and filling in a template

The code block of a refreshed statement is evaluated at a time: a string has its own
value, a call the label of a slot of its period.  The values then replace the variables
of the template.  The loop over the template moves a window over its bytes; a window that
started or ended inside a character would stop the program, which is the value
{lit}`none`.
-/

namespace WpKnowledge.Vel

/-! ## Arithmetic that stops at the ends -/

/-- The largest number of 64 bits. -/
def maxU64 : UInt64 := UInt64.ofNat (UInt64.size - 1)

/-- A sum, or the largest number (`u64::saturating_add`). -/
def saturatingAdd (a b : UInt64) : UInt64 :=
  if a.toNat + b.toNat < UInt64.size then a + b else maxU64

/-- A difference, or zero (`u64::saturating_sub`). -/
def saturatingSub (a b : UInt64) : UInt64 :=
  if b ≤ a then a - b else 0

/-- A product, or the largest number (`u64::saturating_mul`). -/
def saturatingMul (a b : UInt64) : UInt64 :=
  if a.toNat * b.toNat < UInt64.size then a * b else maxU64

/-! ## Values -/

/-- The name and the value of a definition at a time. -/
def evalDef (nowNs : UInt64) : VarDef → KnowledgeResult (String × String)
  | .literal name value => .ok (name, value)
  | .phaseBucket name periodS bucketS offsetSlots prefixText =>
      let periodNs := saturatingMul periodS 1000000000
      let bucketNs := saturatingMul bucketS 1000000000
      if periodNs = 0 ∨ bucketNs = 0 ∨ periodNs < bucketNs then
        .error (velErr
          s!"${name}: 相位参数非法（须 0<桶≤周期）: period={periodS} bucket={bucketS}")
      else
        let t :=
          if 0 ≤ offsetSlots then
            saturatingAdd nowNs (saturatingMul offsetSlots.toUInt64 bucketNs)
          else saturatingSub nowNs (saturatingMul (-offsetSlots).toUInt64 bucketNs)
        let idx := t % periodNs / bucketNs
        .ok (name, s!"{prefixText}{idx}")

section Parser

variable (isPrintable : Char → Bool)

/-- The variables of a code block with their values, in order. -/
def eval (code : String) (nowNs : UInt64) : KnowledgeResult (List (String × String)) := do
  let defs ← parse isPrintable code
  defs.mapM (evalDef nowNs)

end Parser

/-! ## Templates -/

/-- Where the name at the start of a text ends. -/
def nameEnd : List Char → Nat
  | [] => 0
  | c :: s => if isNameChar c then c.utf8Size + nameEnd s else 0

open Foundation in
/-- The loop over a template: what it writes for the text that is left. -/
def resolveFrom (map : HashMap String String) (rest : List Char) : Option (List Char) :=
  match findByte '$' rest with
  | none => some rest
  | some pos =>
      match sliceTo rest pos, hfrom : sliceFrom rest (pos + 1) with
      | some before, some rest₁ =>
          have := length_lt_of_sliceFrom hfrom
          match rest₁ with
          | [] => some (before ++ ['$'])
          | first :: rest₂ =>
              if isNameStart first then
                let stop := nameEnd (first :: rest₂)
                match sliceTo (first :: rest₂) stop, hstop : sliceFrom (first :: rest₂) stop with
                | some ident, some rest₃ =>
                    have := length_le_of_sliceFrom hstop
                    match map.lookup (String.ofList ident) with
                    | some value =>
                        (resolveFrom map rest₃).map fun out => before ++ value.toList ++ out
                    | none => (resolveFrom map rest₃).map fun out => before ++ '$' :: ident ++ out
                | _, _ => none
              else
                -- a dollar sign that starts no variable
                (resolveFrom map (first :: rest₂)).map fun out => before ++ '$' :: out
      | _, _ => none
termination_by rest.length

/-- The map of the variables; of two with one name the later one counts. -/
def varMap (vars : List (String × String)) : HashMap String String :=
  vars.foldl (fun map v => map.insert v.1 v.2) ∅

/-- A template with the values of the variables put in. -/
def resolveVars (sql : String) (vars : List (String × String)) : Option String :=
  if vars.isEmpty then some sql
  else (resolveFrom (varMap vars) sql.toList).map String.ofList

/-- A statement rendered at a time. -/
def render (isPrintable : Char → Bool) (sql code : String) (nowNs : UInt64) :
    KnowledgeResult (Option String) :=
  if (trim code.toList).isEmpty then .ok (some sql)
  else (eval isPrintable code nowNs).map (resolveVars sql)

end WpKnowledge.Vel
