import WpKnowledge.Vel.Eval
import WpKnowledge.Vel.RoundTrip

/-!
# Comments

Comments are not removed before a code block is parsed.  A string ends at its closing
quote, whatever follows; a call ends at the last right parenthesis of its line, which may
be one of the comment behind it.

Main results:

- Theorems {lit}`parseExpr_append_comment` and {lit}`parseExpr_append_comment_ne`: what an
  expression comes to with a comment behind it.
- Theorem {lit}`comments_inert_iff`: comments and blank lines put into a code block leave
  everything as it was exactly if no comment behind a call has a right parenthesis.
-/

namespace WpKnowledge.Vel

open Foundation

/-! ## Comments behind an expression -/

/-- White space, and then a comment up to the end. -/
def IsComment (s : List Char) : Prop :=
  ∃ blank text, s = blank ++ '#' :: text ∧ ∀ c ∈ blank, isWhitespace c = true

/-- Trimming leaves every right parenthesis. -/
theorem count_trim (s : List Char) : (trim s).count ')' = s.count ')' :=
  count_trimBy (by decide) s

/-- Trimming a text with a comment behind it trims the text and the comment. -/
theorem exists_trim_append_comment (s : List Char) {comment : List Char}
    (hcomment : IsComment comment) :
    ∃ comment', IsComment comment' ∧ comment'.count ')' = comment.count ')' ∧
      trim (s ++ comment) = trim s ++ comment' := by
  obtain ⟨blank, text, rfl, hblank⟩ := hcomment
  have hhash : isWhitespace '#' = false := by decide
  -- what is between the trimmed text and the comment is white space
  obtain ⟨gap, hgap, hdrop⟩ : ∃ gap, (∀ c ∈ gap, isWhitespace c = true) ∧
      (s ++ blank).dropWhile isWhitespace = trim s ++ gap := by
    by_cases hall : s.dropWhile isWhitespace = []
    · refine ⟨[], by simp, ?_⟩
      rw [List.dropWhile_append, hall, List.isEmpty_nil, if_pos rfl,
        List.dropWhile_eq_nil_iff.mpr hblank, trim, trimBy, hall]
      rfl
    · refine ⟨(s.dropWhile isWhitespace).rtakeWhile isWhitespace ++ blank, ?_, ?_⟩
      · intro c hc
        rcases List.mem_append.mp hc with hc | hc
        · exact List.mem_rtakeWhile_imp hc
        · exact hblank c hc
      · rw [List.dropWhile_append, if_neg (by simpa using hall), trim, trimBy,
          ← List.append_assoc, List.rdropWhile_append_rtakeWhile]
  have htrim : trim (s ++ (blank ++ '#' :: text)) =
      trim s ++ (gap ++ '#' :: text.rdropWhile isWhitespace) := by
    rw [← List.append_assoc, trim, trimBy_append_cons hhash, hdrop, List.append_assoc]
  refine ⟨gap ++ '#' :: text.rdropWhile isWhitespace, ⟨_, _, rfl, hgap⟩, ?_, htrim⟩
  have hcount := congrArg (List.count ')') htrim
  have hleft : ∀ t, (s ++ t).count ')' = s.count ')' + t.count ')' := fun t => List.count_append
  have hright : ∀ t, (trim s ++ t).count ')' = s.count ')' + t.count ')' := by
    intro t
    rw [List.count_append, count_trim]
  rw [count_trim, hleft, hright] at hcount
  omega

/-- After an expression there is a comment or nothing. -/
def TailOk (tail : List Char) : Prop :=
  ∀ c ∈ (tail.dropWhile isWhitespace).head?, c = '#'

/-- A comment may follow where one may already be. -/
theorem TailOk.append_comment {tail comment : List Char} (h : TailOk tail)
    (hcomment : IsComment comment) : TailOk (tail ++ comment) := by
  obtain ⟨blank, text, rfl, hblank⟩ := hcomment
  have hhash : isWhitespace '#' = false := by decide
  unfold TailOk at h ⊢
  rw [List.dropWhile_append]
  by_cases hall : tail.dropWhile isWhitespace = []
  · simp [hall, List.dropWhile_append_of_pos hblank, hhash]
  · obtain ⟨c, rest, hrest⟩ := List.exists_cons_of_ne_nil hall
    rw [hrest] at h ⊢
    simpa using h

section Expressions

variable (isPrintable : Char → Bool)

theorem validateTail_eq_ok_iff {tail whole : List Char} :
    validateTail isPrintable tail whole = .ok () ↔ TailOk tail := by
  rw [validateTail, TailOk, ← head?_trimBy, ← trim]
  cases htrim : trim tail with
  | nil => simp
  | cons c rest => simp [eq_comm]

/-- The call of a callee, with what is between its parentheses. -/
def parseCall (name : String) (callee inner : List Char) : Except String VarDef :=
  let fname := String.ofList (trim callee)
  if fname = "phase_now" then phaseCall isPrintable name fname 0 (splitArgs inner)
  else if fname = "phase_next" then phaseCall isPrintable name fname 1 (splitArgs inner)
  else .error s!"未知 VEL 函数: {fname}"

/-- Which texts are strings, and what they come to. -/
theorem parseExpr_eq_ok_iff_of_string {name : String} {rhs s : List Char} {var : VarDef}
    (hexpr : trim rhs = '"' :: s) :
    parseExpr isPrintable name rhs = .ok var ↔
      ∃ value tail, cutFirst '"' s = some (value, tail) ∧ TailOk tail ∧
        var = .literal name (String.ofList value) := by
  rw [parseExpr, hexpr]
  simp only [List.head?_cons, if_true, List.tail_cons]
  cases cutFirst '"' s with
  | none => simp
  | some cut =>
      obtain ⟨value, tail⟩ := cut
      have htail := @validateTail_eq_ok_iff isPrintable tail ('"' :: s)
      cases hvalid : validateTail isPrintable tail ('"' :: s) with
      | error e =>
          rw [hvalid] at htail
          simp only [reduceCtorEq, false_iff] at htail
          simp [hvalid, bind, Except.bind, htail]
      | ok u =>
          have hok : TailOk tail := htail.mp hvalid
          simp [hvalid, bind, Except.bind, pure, Except.pure, hok, eq_comm]

/-- Which texts are calls, and what they come to. -/
theorem parseExpr_eq_ok_iff_of_call {name : String} {rhs : List Char} {var : VarDef}
    (hexpr : (trim rhs).head? ≠ some '"') :
    parseExpr isPrintable name rhs = .ok var ↔
      ∃ callee call inner tail, cutFirst '(' (trim rhs) = some (callee, call) ∧
        cutLast ')' call = some (inner, tail) ∧ TailOk tail ∧
        parseCall isPrintable name callee inner = .ok var := by
  rw [parseExpr]
  simp only [if_neg hexpr]
  cases cutFirst '(' (trim rhs) with
  | none => simp
  | some cut =>
      obtain ⟨callee, call⟩ := cut
      cases hlast : cutLast ')' call with
      | none => simp [hlast]
      | some cut =>
          obtain ⟨inner, tail⟩ := cut
          have htail := @validateTail_eq_ok_iff isPrintable tail (trim rhs)
          cases hvalid : validateTail isPrintable tail (trim rhs) with
          | error e =>
              rw [hvalid] at htail
              simp only [reduceCtorEq, false_iff] at htail
              simp [hlast, hvalid, bind, Except.bind, htail]
          | ok u =>
              have hok : TailOk tail := htail.mp hvalid
              simp [hlast, hvalid, bind, Except.bind, hok, parseCall]

/-! ## Right parentheses of a call -/

/-- Joining with commas adds no right parenthesis. -/
theorem count_intercalate (pieces : List (List Char)) :
    ([','].intercalate pieces).count ')' = (pieces.map (List.count ')')).sum := by
  induction pieces with
  | nil => rfl
  | cons piece pieces ih =>
      cases pieces with
      | nil => simp
      | cons piece' pieces =>
          rw [List.intercalate_cons_cons, List.count_append, List.count_append, ih]
          simp

/-- The arguments have the right parentheses of what is between those of the call. -/
theorem count_splitArgs (inner : List Char) :
    ((splitArgs inner).map (List.count ')')).sum = inner.count ')' := by
  rw [splitArgs]
  split_ifs with hempty
  · rw [← count_trim inner, List.isEmpty_iff.mp hempty]
    rfl
  · rw [List.map_map, Function.comp_def]
    simp only [count_trim]
    rw [← count_intercalate, List.intercalate_splitOn, count_trim]

/-- A number has no right parenthesis. -/
theorem count_of_num {fname : String} {a : List Char} {n : UInt64}
    (h : num isPrintable fname a = .ok n) : a.count ')' = 0 := by
  rw [List.count_eq_zero]
  intro hmem
  have hsome : (parseU64 a).isSome := by
    cases hparse : parseU64 a with
    | none => simp [num, hparse] at h
    | some n => rfl
  -- a parenthesis is neither the sign nor a digit
  have hdigits : ')' ∈ if a.head? = some '+' then a.tail else a := by
    split_ifs with hplus
    · obtain ⟨rest, rfl⟩ := List.head?_eq_some_iff.mp hplus
      simpa using hmem
    · exact hmem
  simp only [parseU64] at hsome
  generalize (if a.head? = some '+' then a.tail else a) = digits at hdigits hsome
  have hall : digits.all Char.isDigit = true := by
    by_contra hall
    rw [Bool.not_eq_true] at hall
    rw [hall, Bool.not_false, Bool.or_true, if_pos rfl] at hsome
    cases hsome
  have hdigit := List.all_eq_true.mp hall ')' hdigits
  revert hdigit
  decide

/-- A label has the right parentheses of its argument. -/
theorem count_of_prefixArg {a : List Char} {label : String}
    (h : prefixArg isPrintable (some a) = .ok label) :
    label.toList.count ')' = a.count ')' := by
  rw [prefixArg] at h
  split_ifs at h with hquoted
  cases h
  obtain ⟨hhead, hlast, hlength⟩ := hquoted
  obtain ⟨s, rfl⟩ := List.head?_eq_some_iff.mp hhead
  have hne : s ≠ [] := by
    rintro rfl
    simp at hlength
  have hs : s = s.dropLast ++ ['"'] := by
    rw [List.getLast?_cons_of_ne_nil hne] at hlast
    exact (List.dropLast_append_getLast? '"' hlast).symm
  rw [String.toList_ofList, List.tail_cons]
  conv_rhs => rw [hs]
  simp

/-- The label of a slot has the right parentheses of its argument, and without one none. -/
theorem count_of_phaseOf {name fname : String} {offsetSlots : Int64} {period bucket : List Char}
    {label : Option (List Char)} {var : VarDef}
    (h : phaseCall.phaseOf isPrintable name fname offsetSlots period bucket label = .ok var) :
    ∃ periodS bucketS prefixText,
      var = .phaseBucket name periodS bucketS offsetSlots prefixText ∧
        period.count ')' = 0 ∧ bucket.count ')' = 0 ∧
        prefixText.toList.count ')' = (label.getD []).count ')' := by
  rw [phaseCall.phaseOf] at h
  cases hperiod : num isPrintable fname period with
  | error e => simp [hperiod, bind, Except.bind] at h
  | ok periodS =>
      cases hbucket : num isPrintable fname bucket with
      | error e => simp [hperiod, hbucket, bind, Except.bind] at h
      | ok bucketS =>
          cases hlabel : prefixArg isPrintable label with
          | error e => simp [hperiod, hbucket, hlabel, bind, Except.bind] at h
          | ok prefixText =>
              simp only [hperiod, hbucket, hlabel, bind, Except.bind, pure, Except.pure,
                Except.ok.injEq] at h
              refine ⟨periodS, bucketS, prefixText, h.symm, count_of_num isPrintable hperiod,
                count_of_num isPrintable hbucket, ?_⟩
              cases label with
              | none =>
                  cases hlabel
                  rfl
              | some a => exact count_of_prefixArg isPrintable hlabel

/-- The right parentheses between those of a call are those of its label. -/
theorem count_of_parseCall {name : String} {callee inner : List Char} {var : VarDef}
    (h : parseCall isPrintable name callee inner = .ok var) :
    ∃ periodS bucketS offsetSlots prefixText,
      var = .phaseBucket name periodS bucketS offsetSlots prefixText ∧
        prefixText.toList.count ')' = inner.count ')' := by
  have hcall : ∀ fname offsetSlots,
      phaseCall isPrintable name fname offsetSlots (splitArgs inner) = .ok var →
        ∃ periodS bucketS offsetSlots prefixText,
          var = .phaseBucket name periodS bucketS offsetSlots prefixText ∧
            prefixText.toList.count ')' = inner.count ')' := by
    intro fname offsetSlots hphase
    have hcount := count_splitArgs inner
    unfold phaseCall at hphase
    split at hphase
    · rename_i period bucket hargs
      obtain ⟨periodS, bucketS, prefixText, rfl, hperiod, hbucket, hlabel⟩ :=
        count_of_phaseOf isPrintable hphase
      refine ⟨periodS, bucketS, offsetSlots, prefixText, rfl, ?_⟩
      rw [hlabel, ← hcount, hargs]
      simp [hperiod, hbucket]
    · rename_i period bucket label hargs
      obtain ⟨periodS, bucketS, prefixText, rfl, hperiod, hbucket, hlabel⟩ :=
        count_of_phaseOf isPrintable hphase
      refine ⟨periodS, bucketS, offsetSlots, prefixText, rfl, ?_⟩
      rw [hlabel, ← hcount, hargs]
      simp [hperiod, hbucket]
    · cases hphase
  rw [parseCall] at h
  split_ifs at h
  · exact hcall _ _ h
  · exact hcall _ _ h

/-! ## Expressions with a comment behind them -/

/-- A string keeps its value with any comment behind it, and a call with one without a
right parenthesis. -/
theorem parseExpr_append_comment {name : String} {rhs comment : List Char} {var : VarDef}
    (hcomment : IsComment comment) (h : parseExpr isPrintable name rhs = .ok var)
    (hinert : (trim rhs).head? = some '"' ∨ ')' ∉ comment) :
    parseExpr isPrintable name (rhs ++ comment) = .ok var := by
  obtain ⟨comment', hcomment', hcount, htrim⟩ := exists_trim_append_comment rhs hcomment
  by_cases hstring : (trim rhs).head? = some '"'
  · obtain ⟨s, hs⟩ := List.head?_eq_some_iff.mp hstring
    rw [parseExpr_eq_ok_iff_of_string isPrintable hs] at h
    obtain ⟨value, tail, hcut, htail, rfl⟩ := h
    rw [hs, List.cons_append] at htrim
    rw [parseExpr_eq_ok_iff_of_string isPrintable htrim]
    obtain ⟨rfl, hvalue⟩ := cutFirst_eq_some_iff.mp hcut
    refine ⟨value, tail ++ comment', ?_, htail.append_comment hcomment', rfl⟩
    rw [List.append_assoc, List.cons_append]
    exact cutFirst_append_cons hvalue _
  · have hnone : ')' ∉ comment' := by
      rw [← List.count_eq_zero, hcount, List.count_eq_zero]
      exact hinert.resolve_left hstring
    rw [parseExpr_eq_ok_iff_of_call isPrintable hstring] at h
    obtain ⟨callee, call, inner, tail, hopen, hclose, htail, hcall⟩ := h
    obtain ⟨hexpr, hcallee⟩ := cutFirst_eq_some_iff.mp hopen
    obtain ⟨rfl, hright⟩ := cutLast_eq_some_iff.mp hclose
    have hcall' : (trim (rhs ++ comment)).head? ≠ some '"' := by
      rw [htrim, hexpr]
      rw [hexpr] at hstring
      cases callee with
      | nil => exact hstring
      | cons c callee => exact hstring
    rw [parseExpr_eq_ok_iff_of_call isPrintable hcall']
    refine ⟨callee, inner ++ ')' :: (tail ++ comment'), inner, tail ++ comment', ?_, ?_,
      htail.append_comment hcomment', hcall⟩
    · rw [htrim, hexpr]
      simpa using cutFirst_append_cons hcallee (inner ++ ')' :: (tail ++ comment'))
    · apply cutLast_append_cons
      rw [List.mem_append, not_or]
      exact ⟨hright, hnone⟩

/-- With a right parenthesis in the comment behind it, a call is an error or has another
label. -/
theorem parseExpr_append_comment_ne {name : String} {rhs comment : List Char} {var : VarDef}
    (hcomment : IsComment comment) (h : parseExpr isPrintable name rhs = .ok var)
    (hcall : (trim rhs).head? ≠ some '"') (hparen : ')' ∈ comment) :
    parseExpr isPrintable name (rhs ++ comment) ≠ .ok var := by
  intro hsame
  obtain ⟨comment', hcomment', hcount, htrim⟩ := exists_trim_append_comment rhs hcomment
  rw [parseExpr_eq_ok_iff_of_call isPrintable hcall] at h
  obtain ⟨callee, call, inner, tail, hopen, hclose, -, hvar⟩ := h
  obtain ⟨hexpr, hcallee⟩ := cutFirst_eq_some_iff.mp hopen
  have hcall' : (trim (rhs ++ comment)).head? ≠ some '"' := by
    rw [htrim, hexpr]
    rw [hexpr] at hcall
    cases callee with
    | nil => exact hcall
    | cons c callee => exact hcall
  rw [parseExpr_eq_ok_iff_of_call isPrintable hcall'] at hsame
  obtain ⟨callee', call', inner', tail', hopen', hclose', -, hvar'⟩ := hsame
  -- the call starts at the same parenthesis, and more right ones lie before its end
  have hcut : cutFirst '(' (trim (rhs ++ comment)) = some (callee, call ++ comment') := by
    rw [htrim, hexpr]
    simpa using cutFirst_append_cons hcallee (call ++ comment')
  rw [hcut] at hopen'
  cases hopen'
  obtain ⟨rfl, hright⟩ := cutLast_eq_some_iff.mp hclose
  obtain ⟨hsplit, hright'⟩ := cutLast_eq_some_iff.mp hclose'
  obtain ⟨periodS, bucketS, offsetSlots, label, rfl, hlabel⟩ := count_of_parseCall isPrintable hvar
  obtain ⟨periodS', bucketS', offsetSlots', label', heq, hlabel'⟩ :=
    count_of_parseCall isPrintable hvar'
  cases heq
  have hcounts := congrArg (List.count ')') hsplit
  have hpos : 0 < comment.count ')' := List.count_pos_iff.mpr hparen
  rw [← List.count_eq_zero] at hright hright'
  simp only [List.count_append, List.count_cons_self, hright, hright'] at hcounts
  omega

/-- What a comment does to an expression. -/
theorem parseExpr_append_comment_iff {name : String} {rhs comment : List Char} {var : VarDef}
    (hcomment : IsComment comment) (h : parseExpr isPrintable name rhs = .ok var) :
    parseExpr isPrintable name (rhs ++ comment) = .ok var ↔
      (trim rhs).head? = some '"' ∨ ')' ∉ comment := by
  constructor
  · intro hsame
    by_contra hbad
    rw [not_or, not_not] at hbad
    exact parseExpr_append_comment_ne isPrintable hcomment h hbad.1 hbad.2 hsame
  · exact parseExpr_append_comment isPrintable hcomment h

/-! ## Assignments with a comment behind them -/

/-- An expression is trimmed before it is read. -/
theorem parseExpr_trim (name : String) (rhs : List Char) :
    parseExpr isPrintable name (trim rhs) = parseExpr isPrintable name rhs := by
  have htrim : trim (trim rhs) = trim rhs := trimBy_trimBy isWhitespace rhs
  rw [parseExpr, parseExpr, htrim]

/-- Which lines are assignments, and what they define. -/
theorem parseAssignment_eq_ok_iff {idx : Nat} {seen : List String} {line : List Char}
    {key : String} {var : VarDef} :
    parseAssignment isPrintable idx seen line = .ok (key, var) ↔
      ∃ lhs rhs, cutFirst '=' line = some (lhs, rhs) ∧ isVariable (trim lhs) = true ∧
        key = String.ofList (trim lhs).tail ∧ key ∉ seen ∧
          parseExpr isPrintable key rhs = .ok var := by
  rw [parseAssignment]
  cases cutFirst '=' line with
  | none => simp
  | some cut =>
      obtain ⟨lhs, rhs⟩ := cut
      by_cases hname : isVariable (trim lhs) = true
      · by_cases hseen : String.ofList (trim lhs).tail ∈ seen
        · simp +contextual [hname, hseen]
        · simp only [hname, hseen, Bool.not_true, Bool.false_eq_true, if_false, parseExpr_trim]
          cases hexpr : parseExpr isPrintable (String.ofList (trim lhs).tail) rhs with
          | error e => simp +contextual [Except.map, Except.mapError, hexpr]
          | ok var' =>
              constructor
              · intro h
                cases h
                exact ⟨lhs, rhs, rfl, hname, rfl, hseen, hexpr⟩
              · rintro ⟨lhs', rhs', hcut, -, rfl, -, hexpr'⟩
                cases hcut
                rw [hexpr] at hexpr'
                cases hexpr'
                rfl
      · simp [hname]

/-- The line assigns a string. -/
def assignsString (line : List Char) : Bool :=
  match cutFirst '=' (trim line) with
  | none => false
  | some (_, rhs) => (trim rhs).head? == some '"'

/-- What a comment does to an assignment; the variable is the same in any case. -/
theorem parseAssignment_append_comment {idx : Nat} {seen : List String} {line comment : List Char}
    {key : String} {var : VarDef} (hcomment : IsComment comment)
    (h : parseAssignment isPrintable idx seen (trim line) = .ok (key, var)) (idx' : Nat)
    (key' : String) :
    parseAssignment isPrintable idx' seen (trim line ++ comment) = .ok (key', var) ↔
      key' = key ∧ (assignsString line = true ∨ ')' ∉ comment) := by
  obtain ⟨lhs, rhs, hcut, hname, hkey, hseen, hexpr⟩ :=
    (parseAssignment_eq_ok_iff isPrintable).mp h
  have hstring : assignsString line = true ↔ (trim rhs).head? = some '"' := by
    rw [assignsString, hcut]
    simp
  obtain ⟨hline, hlhs⟩ := cutFirst_eq_some_iff.mp hcut
  have hcut' : cutFirst '=' (trim line ++ comment) = some (lhs, rhs ++ comment) := by
    rw [hline, List.append_assoc, List.cons_append]
    exact cutFirst_append_cons hlhs (rhs ++ comment)
  rw [parseAssignment_eq_ok_iff, hstring, ← parseExpr_append_comment_iff isPrintable hcomment hexpr]
  constructor
  · rintro ⟨lhs', rhs', hcut'', -, rfl, -, hexpr'⟩
    rw [hcut'] at hcut''
    cases hcut''
    rw [← hkey] at hexpr' ⊢
    exact ⟨rfl, hexpr'⟩
  · rintro ⟨rfl, hexpr'⟩
    exact ⟨lhs, rhs ++ comment, hcut', hname, hkey, hseen, hexpr'⟩

/-! ## Lines -/

/-- An empty line or a comment. -/
def isIgnored (line : List Char) : Bool :=
  (trim line).isEmpty || (trim line).head? = some '#'

/-- Empty lines and comments are left out. -/
theorem parseLines_of_isIgnored {line : List Char} (h : isIgnored line = true) (idx : Nat)
    (seen : List String) (ls : List (List Char)) :
    parseLines isPrintable idx seen (line :: ls) = parseLines isPrintable (idx + 1) seen ls := by
  rw [isIgnored] at h
  rw [parseLines, if_pos h]

/-- The other lines are assignments, of variables that are new each time. -/
theorem parseLines_eq_ok_iff {line : List Char} (h : isIgnored line = false) {idx : Nat}
    {seen : List String} {ls : List (List Char)} {defs : List VarDef} :
    parseLines isPrintable idx seen (line :: ls) = .ok defs ↔
      ∃ key var rest, parseAssignment isPrintable idx seen (trim line) = .ok (key, var) ∧
        parseLines isPrintable (idx + 1) (key :: seen) ls = .ok rest ∧ defs = var :: rest := by
  rw [isIgnored] at h
  rw [parseLines]
  simp only [h, Bool.false_eq_true, if_false]
  cases parseAssignment isPrintable idx seen (trim line) with
  | error e => simp [bind, Except.bind]
  | ok assigned =>
      obtain ⟨key, var⟩ := assigned
      cases hrest : parseLines isPrintable (idx + 1) (key :: seen) ls with
      | error e => simp +contextual [bind, Except.bind, hrest]
      | ok rest =>
          constructor
          · intro hdefs
            refine ⟨key, var, rest, rfl, hrest, ?_⟩
            simpa [bind, Except.bind, pure, Except.pure, hrest, eq_comm] using hdefs
          · rintro ⟨key', var', rest', hassigned, hrest', rfl⟩
            cases hassigned
            rw [hrest] at hrest'
            cases hrest'
            simp [bind, Except.bind, pure, Except.pure, hrest]

end Expressions

/-! ## Edits -/

/-- A line: a text without a newline. -/
abbrev Line := { line : List Char // '\n' ∉ line }

/-- What is done to a line of a code block.  A line that gets a comment may end with a
carriage return, which stays behind the comment. -/
inductive LineEdit where
  /-- The line stays as it is. -/
  | keep (line : Line)
  /-- A comment line or an empty one is put in. -/
  | insert (line : Line) (h : isIgnored line.val = true)
  /-- An assignment gets a comment. -/
  | comment (line : Line) (h : isIgnored line.val = false) (blank : Blank) (text : Line)
      (carriageReturn : Bool)

namespace LineEdit

/-- The end of a line before its newline. -/
def lineEnd (carriageReturn : Bool) : List Char :=
  if carriageReturn then ['\r'] else []

theorem newline_notMem_lineEnd (carriageReturn : Bool) : '\n' ∉ lineEnd carriageReturn := by
  cases carriageReturn <;> decide

/-- The lines before the edit. -/
def before : LineEdit → List (List Char)
  | keep line => [line.val]
  | insert _ _ => []
  | comment line _ _ _ carriageReturn => [line.val ++ lineEnd carriageReturn]

/-- The lines after the edit. -/
def after : LineEdit → List (List Char)
  | keep line => [line.val]
  | insert line _ => [line.val]
  | comment line _ blank text carriageReturn =>
      [line.val ++ (blank.val ++ '#' :: (text.val ++ lineEnd carriageReturn))]

/-- No right parenthesis comes into a line with a call. -/
def Harmless : LineEdit → Prop
  | comment line _ _ text _ => assignsString line.val = true ∨ ')' ∉ text.val
  | _ => True

/-- The edited lines are lines. -/
theorem newline_notMem_before (edits : List LineEdit) :
    ∀ line ∈ edits.flatMap before, '\n' ∉ line := by
  intro line hline
  obtain ⟨e, -, he⟩ := List.mem_flatMap.mp hline
  cases e with
  | keep line => exact List.mem_singleton.mp he ▸ line.property
  | insert line h => cases he
  | comment line h blank text carriageReturn =>
      rw [List.mem_singleton.mp he, List.mem_append, not_or]
      exact ⟨line.property, newline_notMem_lineEnd carriageReturn⟩

/-- The lines that come of the edits are lines. -/
theorem newline_notMem_after (edits : List LineEdit) :
    ∀ line ∈ edits.flatMap after, '\n' ∉ line := by
  intro line hline
  obtain ⟨e, -, he⟩ := List.mem_flatMap.mp hline
  cases e with
  | keep line => exact List.mem_singleton.mp he ▸ line.property
  | insert line h => exact List.mem_singleton.mp he ▸ line.property
  | comment line h blank text carriageReturn =>
      have hblank : '\n' ∉ blank.val := fun hmem => (blank.property _ hmem).2 rfl
      rw [List.mem_singleton.mp he]
      simp [line.property, hblank, text.property, newline_notMem_lineEnd]

end LineEdit

/-- Every text consists of lines. -/
theorem exists_codeOf (code : List Char) :
    ∃ lines : List Line, codeOf false (lines.map Subtype.val) = code := by
  -- there is a first line, also of an empty text
  have hlines : ∃ (first : Line) (lines : List Line),
      codeOf false ((first :: lines).map Subtype.val) = code := by
    induction code with
    | nil => exact ⟨⟨[], List.not_mem_nil⟩, [], rfl⟩
    | cons c code ih =>
        obtain ⟨first, lines, rfl⟩ := ih
        by_cases hc : c = '\n'
        · subst hc
          exact ⟨⟨[], List.not_mem_nil⟩, first :: lines, rfl⟩
        · have hfirst : '\n' ∉ c :: first.val := by
            rw [List.mem_cons, not_or]
            exact ⟨Ne.symm hc, first.property⟩
          refine ⟨⟨c :: first.val, hfirst⟩, lines, ?_⟩
          cases lines <;> rfl
  obtain ⟨first, lines, hcode⟩ := hlines
  exact ⟨first :: lines, hcode⟩

/-- Around a line with an end, the end is trimmed off. -/
theorem trim_append_lineEnd (line : List Char) (carriageReturn : Bool) :
    trim (line ++ LineEdit.lineEnd carriageReturn) = trim line := by
  apply trimBy_append_right
  intro c hc
  cases carriageReturn with
  | false => cases hc
  | true =>
      rw [List.mem_singleton.mp hc]
      decide

/-- A line that gets a comment, trimmed. -/
theorem exists_trim_comment (line : List Char) (blank : Blank) (text : Line)
    (carriageReturn : Bool) :
    ∃ comment, IsComment comment ∧ (')' ∈ comment ↔ ')' ∈ text.val) ∧
      trim (line ++ (blank.val ++ '#' :: (text.val ++ LineEdit.lineEnd carriageReturn))) =
        trim line ++ comment := by
  have hblank : ∀ c ∈ blank.val, isWhitespace c = true := fun c hc => (blank.property c hc).1
  have hparen : ')' ∉ blank.val := by
    intro hmem
    have hspace := hblank ')' hmem
    revert hspace
    decide
  have hend : ')' ∉ LineEdit.lineEnd carriageReturn := by
    cases carriageReturn <;> decide
  obtain ⟨comment, hcomment, hcount, htrim⟩ :=
    exists_trim_append_comment line ⟨blank.val, text.val ++ LineEdit.lineEnd carriageReturn, rfl,
      hblank⟩
  refine ⟨comment, hcomment, ?_, htrim⟩
  rw [← List.count_pos_iff, hcount, List.count_pos_iff]
  simp [hparen, hend]

section Blocks

variable (isPrintable : Char → Bool)

/-- Two blocks whose first lines assign the same and whose other lines define the same. -/
theorem parseLines_cons_iff {line line' : List Char} (hline : isIgnored line = false)
    (hline' : isIgnored line' = false) {idx idx' : Nat} {seen : List String}
    {ls ls' : List (List Char)} {defs : List VarDef} {SameFirst SameRest : Prop}
    (h : parseLines isPrintable idx seen (line :: ls) = .ok defs)
    (hfirst : ∀ key var, parseAssignment isPrintable idx seen (trim line) = .ok (key, var) →
      ∀ key', parseAssignment isPrintable idx' seen (trim line') = .ok (key', var) ↔
        key' = key ∧ SameFirst)
    (hrest : ∀ seen defs, parseLines isPrintable (idx + 1) seen ls = .ok defs →
      (parseLines isPrintable (idx' + 1) seen ls' = .ok defs ↔ SameRest)) :
    parseLines isPrintable idx' seen (line' :: ls') = .ok defs ↔ SameFirst ∧ SameRest := by
  obtain ⟨key, var, rest, hassigned, hdefs, rfl⟩ := (parseLines_eq_ok_iff isPrintable hline).mp h
  rw [parseLines_eq_ok_iff isPrintable hline']
  constructor
  · rintro ⟨key', var', rest', hassigned', hdefs', heq⟩
    cases heq
    obtain ⟨rfl, hsame⟩ := (hfirst key var hassigned key').mp hassigned'
    exact ⟨hsame, (hrest _ _ hdefs).mp hdefs'⟩
  · rintro ⟨hsame, hsameRest⟩
    exact ⟨key, var, rest, (hfirst key var hassigned key).mpr ⟨rfl, hsame⟩,
      (hrest _ _ hdefs).mpr hsameRest, rfl⟩

/-- Edited lines define the same exactly if every edit is harmless. -/
theorem parseLines_edits_iff (edits : List LineEdit) {idx : Nat} {seen : List String}
    {defs : List VarDef}
    (h : parseLines isPrintable idx seen (edits.flatMap LineEdit.before) = .ok defs) (idx' : Nat) :
    parseLines isPrintable idx' seen (edits.flatMap LineEdit.after) = .ok defs ↔
      ∀ e ∈ edits, e.Harmless := by
  induction edits generalizing idx idx' seen defs with
  | nil => simpa [parseLines] using h
  | cons e edits ih =>
      rw [List.flatMap_cons] at h ⊢
      rw [List.forall_mem_cons]
      cases e with
      | insert line hignored =>
          rw [LineEdit.before, List.nil_append] at h
          rw [LineEdit.after, List.singleton_append,
            parseLines_of_isIgnored isPrintable hignored, ih h (idx' + 1)]
          exact (true_and _).symm.to_iff
      | keep line =>
          rw [LineEdit.before, List.singleton_append] at h
          rw [LineEdit.after, List.singleton_append]
          cases hignored : isIgnored line.val with
          | true =>
              rw [parseLines_of_isIgnored isPrintable hignored] at h ⊢
              rw [ih h (idx' + 1)]
              exact (true_and _).symm.to_iff
          | false =>
              apply parseLines_cons_iff isPrintable hignored hignored h
              · intro key var hassigned key'
                -- the number of the line is in errors only
                have hsame : ∀ key', parseAssignment isPrintable idx' seen (trim line.val) =
                    .ok (key', var) ↔
                    parseAssignment isPrintable idx seen (trim line.val) = .ok (key', var) := by
                  intro key'
                  rw [parseAssignment_eq_ok_iff, parseAssignment_eq_ok_iff]
                rw [hsame, hassigned]
                simp [LineEdit.Harmless, eq_comm]
              · exact fun seen defs hdefs => ih hdefs (idx' + 1)
      | comment line hignored blank text carriageReturn =>
          rw [LineEdit.before, List.singleton_append] at h
          rw [LineEdit.after, List.singleton_append]
          obtain ⟨comment, hcomment, hparen, htrim⟩ :=
            exists_trim_comment line.val blank text carriageReturn
          have hbefore := trim_append_lineEnd line.val carriageReturn
          apply parseLines_cons_iff isPrintable _ _ h
          · intro key var hassigned key'
            rw [hbefore] at hassigned
            rw [htrim, parseAssignment_append_comment isPrintable hcomment hassigned, hparen]
            rfl
          · exact fun seen defs hdefs => ih hdefs (idx' + 1)
          · rw [isIgnored, hbefore, ← isIgnored, hignored]
          · rw [isIgnored] at hignored ⊢
            rw [htrim]
            cases hcode : trim line.val with
            | nil => simp [hcode] at hignored
            | cons c code => simpa [hcode] using hignored

/-- The text of a line is part of the code block. -/
theorem mem_codeOf {newline : Bool} {line : List Char} {lines : List (List Char)}
    (h : line ∈ lines) {c : Char} (hc : c ∈ line) : c ∈ codeOf newline lines := by
  induction lines with
  | nil => cases h
  | cons line' lines ih =>
      have hmem : c ∈ line' ∨ c ∈ codeOf newline lines := by
        rcases List.mem_cons.mp h with rfl | h
        · exact Or.inl hc
        · exact Or.inr (ih h)
      cases lines with
      | nil => exact List.mem_append_left _ (hmem.resolve_right List.not_mem_nil)
      | cons line'' lines =>
          rw [codeOf, List.mem_append, List.mem_cons]
          · exact hmem.imp id Or.inr
          · rintro ⟨⟩

/-- Empty lines and comments define nothing. -/
theorem parseLines_eq_nil {lines : List (List Char)} (h : ∀ line ∈ lines, isIgnored line = true)
    (idx : Nat) (seen : List String) : parseLines isPrintable idx seen lines = .ok [] := by
  induction lines generalizing idx with
  | nil => rfl
  | cons line lines ih =>
      rw [List.forall_mem_cons] at h
      rw [parseLines_of_isIgnored isPrintable h.1, ih h.2]

/-- A code block of white space defines nothing. -/
theorem parse_of_blank {code : String} (h : (trim code.toList).isEmpty = true) :
    parse isPrintable code = .ok [] := by
  obtain ⟨lines, hcode⟩ := exists_codeOf code.toList
  have hnew : ∀ line ∈ lines.map Subtype.val, '\n' ∉ line := by
    intro line hline
    obtain ⟨line, -, rfl⟩ := List.mem_map.mp hline
    exact line.property
  have hblank : ∀ c ∈ code.toList, isWhitespace c = true := by
    rw [← List.dropWhile_eq_nil_iff, ← List.head?_eq_none_iff, ← head?_trimBy, ← trim,
      List.isEmpty_iff.mp h, List.head?_nil]
  rw [← String.ofList_toList (s := code), ← hcode, parse_codeOf isPrintable false hnew]
  apply parseLines_eq_nil
  intro line hline
  have hall : line.dropWhile isWhitespace = [] := by
    rw [List.dropWhile_eq_nil_iff]
    intro c hc
    exact hblank c (hcode ▸ mem_codeOf hline hc)
  rw [isIgnored, trim, trimBy, hall]
  rfl

/-- A statement is rendered with the values of its code block, also of an empty one. -/
theorem render_eq_map_eval (sql code : String) (nowNs : UInt64) :
    render isPrintable sql code nowNs =
      (eval isPrintable code nowNs).map (resolveVars sql) := by
  rw [render]
  split_ifs with hblank
  · rw [eval, parse_of_blank isPrintable hblank]
    rfl
  · rfl

/-- Comments and empty lines leave what a code block defines, what it evaluates to and what
it renders to exactly if no right parenthesis comes behind a call. -/
theorem comments_inert_iff (edits : List LineEdit) (newline newline' : Bool) {defs : List VarDef}
    (h : parse isPrintable (String.ofList (codeOf newline (edits.flatMap LineEdit.before))) =
      .ok defs) :
    let code := String.ofList (codeOf newline (edits.flatMap LineEdit.before))
    let code' := String.ofList (codeOf newline' (edits.flatMap LineEdit.after))
    (parse isPrintable code' = parse isPrintable code ∧
      (∀ nowNs, eval isPrintable code' nowNs = eval isPrintable code nowNs) ∧
      ∀ sql nowNs, render isPrintable sql code' nowNs = render isPrintable sql code nowNs) ↔
      ∀ e ∈ edits, e.Harmless := by
  intro code code'
  have hparse : parse isPrintable code' = .ok defs ↔ ∀ e ∈ edits, e.Harmless := by
    rw [parse_codeOf isPrintable newline (LineEdit.newline_notMem_before edits)] at h
    rw [parse_codeOf isPrintable newline' (LineEdit.newline_notMem_after edits)]
    exact parseLines_edits_iff isPrintable edits h 0
  rw [← hparse]
  constructor
  · rintro ⟨hsame, -⟩
    rw [hsame, h]
  · intro hsame
    have heval : ∀ nowNs, eval isPrintable code' nowNs = eval isPrintable code nowNs := by
      intro nowNs
      rw [eval, eval, hsame, h]
    refine ⟨hsame.trans h.symm, heval, ?_⟩
    intro sql nowNs
    rw [render_eq_map_eval, render_eq_map_eval, heval]

end Blocks

theorem comments_inert_slot :
    let code := "$cur = phase_now(240, 15)"
    let code' := "# slots\n$cur = phase_now(240, 15)  # current slot\n"
    parse (fun _ => true) code' = parse (fun _ => true) code ∧
      (∀ nowNs, eval (fun _ => true) code' nowNs = eval (fun _ => true) code nowNs) ∧
      ∀ sql nowNs, render (fun _ => true) sql code' nowNs =
        render (fun _ => true) sql code nowNs := by
  let title : LineEdit := .insert ⟨"# slots".toList, by decide⟩ (by decide)
  let slot : LineEdit := .comment ⟨"$cur = phase_now(240, 15)".toList, by decide⟩ (by decide)
    ⟨"  ".toList, by simp [isWhitespace]⟩ ⟨" current slot".toList, by decide⟩ false
  have hcode : String.ofList (codeOf false ([title, slot].flatMap LineEdit.before)) =
      "$cur = phase_now(240, 15)" := by decide
  have hcode' : String.ofList (codeOf true ([title, slot].flatMap LineEdit.after)) =
      "# slots\n$cur = phase_now(240, 15)  # current slot\n" := by decide
  have hparse : parse (fun _ => true) "$cur = phase_now(240, 15)" =
      .ok [.phaseBucket "cur" 240 15 0 "p"] := rfl
  have hharmless : ∀ e ∈ [title, slot], e.Harmless := by
    rw [List.forall_mem_cons, List.forall_mem_singleton]
    exact ⟨trivial, Or.inr (by decide)⟩
  rw [← hcode] at hparse
  have hinert := (comments_inert_iff (fun _ => true) [title, slot] false true hparse).mpr hharmless
  rw [hcode, hcode'] at hinert
  exact hinert

/-- The parenthesis of a comment ends the call: it is an error, or its label changes. -/
theorem comment_ends_call :
    parse (fun _ => true) "$cur = phase_now(240, 15)" = .ok [.phaseBucket "cur" 240 15 0 "p"] ∧
      parse (fun _ => true) "$cur = phase_now(240, 15) # (current slot)" =
        .error (errAt 0 "phase_now() 参数应为正整数秒，实际 \"15) # (current slot\"") ∧
      parse (fun _ => true) "$cur = phase_now(240, 15, \"p\")" =
        .ok [.phaseBucket "cur" 240 15 0 "p"] ∧
      parse (fun _ => true) "$cur = phase_now(240, 15, \"p\") # \")" =
        .ok [.phaseBucket "cur" 240 15 0 "p\") # "] :=
  ⟨rfl, rfl, rfl, rfl⟩

end WpKnowledge.Vel
