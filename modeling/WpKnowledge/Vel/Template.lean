import WpKnowledge.Vel.Eval

/-!
# What a template is filled in with

A template is text, bare dollar signs, and variables: a dollar sign with the longest
identifier after it.  There is one way to split it so.  Filling in replaces each variable
that has a value and keeps everything else; values are not looked at.

Main results:

- Theorems {lit}`exists_splits` and {lit}`Splits.unique`: a template is split in exactly
  one way.
- Theorem {lit}`resolveVars_eq`: the loop over the template writes its pieces one after
  the other, the variables replaced.
-/

namespace WpKnowledge.Vel

open Foundation

/-! ## Pieces -/

/-- A piece of a template. -/
inductive Piece where
  /-- A dollar sign and an identifier. -/
  | var (ident : List Char)
  /-- A dollar sign that no identifier follows. -/
  | dollar
  /-- Text without a dollar sign. -/
  | text (s : List Char)
deriving DecidableEq, Repr

/-- A letter or an underscore, and then these and digits. -/
structure IsIdentifier (s : List Char) : Prop where
  start : ∃ c ∈ s.head?, isNameStart c = true
  chars : ∀ c ∈ s, isNameChar c = true

/-- `Splits s ps`: the text consists of the pieces; identifiers and texts are as long as
possible. -/
inductive Splits : List Char → List Piece → Prop
  | nil : Splits [] []
  | var {ident rest : List Char} {ps : List Piece} (hident : IsIdentifier ident)
      (hlongest : ∀ c ∈ rest.head?, isNameChar c = false) (hrest : Splits rest ps) :
      Splits ('$' :: (ident ++ rest)) (.var ident :: ps)
  | dollar {rest : List Char} {ps : List Piece}
      (hbare : ∀ c ∈ rest.head?, isNameStart c = false) (hrest : Splits rest ps) :
      Splits ('$' :: rest) (.dollar :: ps)
  | text {s rest : List Char} {ps : List Piece} (hne : s ≠ []) (hplain : '$' ∉ s)
      (hlongest : ∀ c ∈ rest.head?, c = '$') (hrest : Splits rest ps) :
      Splits (s ++ rest) (.text s :: ps)

/-- What a piece becomes: a variable that has a value becomes the value. -/
def substitute (vars : List (String × String)) : Piece → List Char
  | .var ident =>
      match vars.lookup (String.ofList ident) with
      | some value => value.toList
      | none => '$' :: ident
  | .dollar => ['$']
  | .text s => s

/-! ## One way to split -/

theorem isNameChar_of_isNameStart {c : Char} (h : isNameStart c = true) : isNameChar c = true := by
  simp only [isNameStart, isNameChar, Char.isAlphanum, Bool.or_eq_true] at h ⊢
  rcases h with h | h
  · exact .inl (.inl h)
  · exact .inr h

/-- A text that is followed by a dollar sign or by nothing is the longest one. -/
theorem takeWhile_ne_dollar {s rest : List Char} (hplain : '$' ∉ s)
    (hlongest : ∀ c ∈ rest.head?, c = '$') : (s ++ rest).takeWhile (· != '$') = s := by
  apply takeWhile_append_of_head?
  · intro c hc
    exact bne_iff_ne.mpr fun heq => hplain (heq ▸ hc)
  · intro c hc
    simpa using hlongest c hc

/-- A text is not empty and does not start with a dollar sign. -/
theorem text_ne_dollar {s rest u : List Char} (hne : s ≠ []) (hplain : '$' ∉ s) :
    s ++ rest ≠ '$' :: u := by
  intro heq
  cases s with
  | nil => exact hne rfl
  | cons c s =>
      cases heq
      exact hplain List.mem_cons_self

/-- A dollar sign in front of an identifier is not bare. -/
theorem IsIdentifier.not_bare {ident rest : List Char} (h : IsIdentifier ident) :
    ¬ ∀ c ∈ (ident ++ rest).head?, isNameStart c = false := by
  intro hbare
  obtain ⟨c, hc, hstart⟩ := h.start
  cases ident with
  | nil => cases hc
  | cons d ident =>
      cases hc
      rw [hbare c rfl] at hstart
      cases hstart

/-- A template is split in one way only. -/
theorem Splits.unique {s : List Char} {ps qs : List Piece} (hps : Splits s ps)
    (hqs : Splits s qs) : ps = qs := by
  induction hps generalizing qs with
  | nil =>
      generalize hs : ([] : List Char) = s at hqs
      cases hqs with
      | nil => rfl
      | var => cases hs
      | dollar => cases hs
      | text hne => exact absurd (List.append_eq_nil_iff.mp hs.symm).1 hne
  | @var ident rest ps hident hlongest hrest ih =>
      generalize hs : '$' :: (ident ++ rest) = s at hqs
      cases hqs with
      | nil => cases hs
      | @var ident' rest' qs' hident' hlongest' hrest' =>
          have htail := (List.cons.inj hs).2
          have hsame : ident = ident' := by
            rw [← takeWhile_append_of_head? hident.chars hlongest, htail,
              takeWhile_append_of_head? hident'.chars hlongest']
          subst hsame
          rw [List.append_cancel_left htail] at ih
          rw [ih hrest']
      | dollar hbare =>
          rw [← (List.cons.inj hs).2] at hbare
          exact absurd hbare hident.not_bare
      | text hne hplain => exact absurd hs.symm (text_ne_dollar hne hplain)
  | @dollar rest ps hbare hrest ih =>
      generalize hs : '$' :: rest = s at hqs
      cases hqs with
      | nil => cases hs
      | var hident' =>
          rw [(List.cons.inj hs).2] at hbare
          exact absurd hbare hident'.not_bare
      | dollar _ hrest' =>
          rw [(List.cons.inj hs).2] at ih
          rw [ih hrest']
      | text hne hplain => exact absurd hs.symm (text_ne_dollar hne hplain)
  | @text t rest ps hne hplain hlongest hrest ih =>
      generalize hs : t ++ rest = s at hqs
      cases hqs with
      | nil => exact absurd (List.append_eq_nil_iff.mp hs).1 hne
      | var => exact absurd hs (text_ne_dollar hne hplain)
      | dollar => exact absurd hs (text_ne_dollar hne hplain)
      | @text t' rest' qs' hne' hplain' hlongest' hrest' =>
          have hsame : t = t' := by
            rw [← takeWhile_ne_dollar hplain hlongest, hs, takeWhile_ne_dollar hplain' hlongest']
          subst hsame
          rw [List.append_cancel_left hs] at ih
          rw [ih hrest']

/-- A template that is not empty starts with a piece. -/
theorem exists_first_piece {s : List Char} (hne : s ≠ []) :
    ∃ p rest, rest.length < s.length ∧ ∀ ps, Splits rest ps → Splits s (p :: ps) := by
  obtain ⟨c, t, rfl⟩ := List.exists_cons_of_ne_nil hne
  by_cases hc : c = '$'
  · subst hc
    by_cases hstart : ∃ d ∈ t.head?, isNameStart d = true
    · -- a dollar sign and the longest identifier
      have hsplit : t.takeWhile isNameChar ++ t.dropWhile isNameChar = t :=
        List.takeWhile_append_dropWhile
      have hident : IsIdentifier (t.takeWhile isNameChar) := by
        obtain ⟨d, hd, hd'⟩ := hstart
        refine ⟨⟨d, ?_, hd'⟩, fun e he => List.mem_takeWhile_imp he⟩
        obtain ⟨u, rfl⟩ := List.head?_eq_some_iff.mp hd
        rw [List.takeWhile_cons_of_pos (isNameChar_of_isNameStart hd')]
        rfl
      refine ⟨.var (t.takeWhile isNameChar), t.dropWhile isNameChar, ?_, ?_⟩
      · rw [List.length_cons]
        exact Nat.lt_succ_of_le (List.length_dropWhile_le _ _)
      · intro ps hps
        have hvar := Splits.var hident head?_dropWhile hps
        rwa [hsplit] at hvar
    · refine ⟨.dollar, t, Nat.lt_succ_self _, fun ps hps => .dollar ?_ hps⟩
      intro d hd
      by_contra hd'
      exact hstart ⟨d, hd, by simpa using hd'⟩
  · have hsplit : (c :: t).takeWhile (· != '$') ++ (c :: t).dropWhile (· != '$') = c :: t :=
      List.takeWhile_append_dropWhile
    have hc' : (c != '$') = true := bne_iff_ne.mpr hc
    refine ⟨.text ((c :: t).takeWhile (· != '$')), (c :: t).dropWhile (· != '$'), ?_, ?_⟩
    · rw [List.dropWhile_cons, if_pos hc', List.length_cons]
      exact Nat.lt_succ_of_le (List.length_dropWhile_le _ _)
    · intro ps hps
      have htext := Splits.text (s := (c :: t).takeWhile (· != '$')) ?_ ?_ ?_ hps
      · rwa [hsplit] at htext
      · rw [List.takeWhile_cons, if_pos hc']
        exact List.cons_ne_nil _ _
      · intro hmem
        simpa using List.mem_takeWhile_imp hmem
      · intro d hd
        simpa using head?_dropWhile d hd

/-- Every template can be split. -/
theorem exists_splits (s : List Char) : ∃ ps, Splits s ps := by
  by_cases hne : s = []
  · exact ⟨[], hne ▸ .nil⟩
  · obtain ⟨p, rest, hshort, hpiece⟩ := exists_first_piece hne
    obtain ⟨ps, hps⟩ := exists_splits rest
    exact ⟨p :: ps, hpiece ps hps⟩
termination_by s.length

/-! ## What the loop writes -/

section Loop

variable (map : HashMap String String)

/-- The longest name is cut off where it ends. -/
theorem nameEnd_eq (s : List Char) : nameEnd s = byteLength (s.takeWhile isNameChar) := by
  induction s with
  | nil => rfl
  | cons c s ih =>
      rw [nameEnd, List.takeWhile_cons]
      split_ifs with hc
      · rw [byteLength_cons, ih]
      · rfl

/-- Without a dollar sign all that is left is written. -/
theorem resolveFrom_of_notMem {s : List Char} (h : '$' ∉ s) : resolveFrom map s = some s := by
  have hfind : findByte '$' s = none := by
    rw [findByte_eq_map_cutFirst, cutFirst_eq_none_iff.mpr h, Option.map_none]
  rw [resolveFrom, hfind]

/-- The window behind the next dollar sign. -/
theorem window {before : List Char} (h : '$' ∉ before) (rest : List Char) :
    findByte '$' (before ++ '$' :: rest) = some (byteLength before) ∧
      sliceTo (before ++ '$' :: rest) (byteLength before) = some before ∧
      sliceFrom (before ++ '$' :: rest) (byteLength before + 1) = some rest := by
  refine ⟨?_, sliceTo_append before _, ?_⟩
  · rw [findByte_eq_map_cutFirst, cutFirst_append_cons h, Option.map_some]
  · have hsplit : before ++ '$' :: rest = (before ++ ['$']) ++ rest := by simp
    have hlength : byteLength before + 1 = byteLength (before ++ ['$']) := by
      rw [byteLength_append, byteLength_cons, byteLength_nil]
      rfl
    rw [hsplit, hlength, sliceFrom_append]

/-- What the loop writes for a dollar sign and the text behind it. -/
def resolveDollar (rest : List Char) : Option (List Char) :=
  match rest with
  | [] => some ['$']
  | first :: _ =>
      if isNameStart first then
        match map.lookup (String.ofList (rest.takeWhile isNameChar)) with
        | some value =>
            (resolveFrom map (rest.dropWhile isNameChar)).map fun out => value.toList ++ out
        | none =>
            (resolveFrom map (rest.dropWhile isNameChar)).map fun out =>
              '$' :: rest.takeWhile isNameChar ++ out
      else (resolveFrom map rest).map fun out => '$' :: out

/-- The loop writes the text before a dollar sign and goes on behind it. -/
theorem resolveFrom_append {before : List Char} (h : '$' ∉ before) (rest : List Char) :
    resolveFrom map (before ++ '$' :: rest) = (resolveDollar map rest).map (before ++ ·) := by
  obtain ⟨hfind, hto, hfrom⟩ := window h rest
  have hcuts : ∀ s : List Char,
      sliceTo s (nameEnd s) = some (s.takeWhile isNameChar) ∧
        sliceFrom s (nameEnd s) = some (s.dropWhile isNameChar) := by
    intro s
    have hto := sliceTo_append (s.takeWhile isNameChar) (s.dropWhile isNameChar)
    have hfrom := sliceFrom_append (s.takeWhile isNameChar) (s.dropWhile isNameChar)
    rw [List.takeWhile_append_dropWhile, ← nameEnd_eq] at hto hfrom
    exact ⟨hto, hfrom⟩
  rw [resolveFrom, hfind]
  simp only
  split
  · rename_i before' rest' hto' hfrom'
    rw [hto] at hto'
    rw [hfrom] at hfrom'
    cases hto'
    cases hfrom'
    cases rest with
    | nil => rfl
    | cons first rest =>
        simp only [resolveDollar]
        split_ifs with hstart
        · split
          · rename_i ident rest₃ hident hrest₃
            rw [(hcuts _).1] at hident
            rw [(hcuts _).2] at hrest₃
            cases hident
            cases hrest₃
            split <;> simp [Function.comp_def, *]
          · rename_i hnone
            exact absurd (hcuts (first :: rest)).2 (hnone _ _ (hcuts (first :: rest)).1)
        · simp [Function.comp_def]
  · rename_i hnone
    exact absurd hfrom (hnone _ _ hto)

/-- At a dollar sign the loop goes on behind it. -/
theorem resolveFrom_dollar (rest : List Char) :
    resolveFrom map ('$' :: rest) = resolveDollar map rest := by
  have happend := resolveFrom_append map List.not_mem_nil rest
  simpa using happend

/-- Behind a bare dollar sign the loop goes on. -/
theorem resolveDollar_of_bare {rest : List Char}
    (hbare : ∀ c ∈ rest.head?, isNameStart c = false) :
    resolveDollar map rest = (resolveFrom map rest).map ('$' :: ·) := by
  cases rest with
  | nil =>
      rw [resolveFrom_of_notMem map List.not_mem_nil]
      rfl
  | cons c rest =>
      have hc : ¬ isNameStart c = true := by simp [hbare c rfl]
      rw [resolveDollar, if_neg hc]

/-- Behind a variable the loop goes on behind its identifier. -/
theorem resolveDollar_of_identifier {ident rest : List Char} (hident : IsIdentifier ident)
    (hlongest : ∀ c ∈ rest.head?, isNameChar c = false) :
    resolveDollar map (ident ++ rest) =
      (resolveFrom map rest).map fun out =>
        (match map.lookup (String.ofList ident) with
          | some value => value.toList
          | none => '$' :: ident) ++ out := by
  have htake := takeWhile_append_of_head? hident.chars hlongest
  have hdrop : (ident ++ rest).dropWhile isNameChar = rest := by
    have hsplit := List.takeWhile_append_dropWhile (p := isNameChar) (l := ident ++ rest)
    rw [htake] at hsplit
    exact List.append_cancel_left hsplit
  obtain ⟨c, hc, hstart⟩ := hident.start
  obtain ⟨tail, rfl⟩ := List.head?_eq_some_iff.mp hc
  rw [List.cons_append] at htake hdrop ⊢
  rw [resolveDollar, if_pos hstart, htake, hdrop]
  cases map.lookup (String.ofList (c :: tail)) <;> rfl

/-- Text without a dollar sign is written as it is. -/
theorem resolveFrom_text {s rest : List Char} (hplain : '$' ∉ s)
    (hlongest : ∀ c ∈ rest.head?, c = '$') :
    resolveFrom map (s ++ rest) = (resolveFrom map rest).map (s ++ ·) := by
  cases rest with
  | nil =>
      rw [List.append_nil, resolveFrom_of_notMem map hplain,
        resolveFrom_of_notMem map List.not_mem_nil, Option.map_some, List.append_nil]
  | cons c rest =>
      have hc : c = '$' := hlongest c rfl
      rw [hc, resolveFrom_append map hplain, resolveFrom_dollar]

end Loop

/-- The loop writes the pieces of what is left one after the other. -/
theorem resolveFrom_of_splits {map : HashMap String String} {vars : List (String × String)}
    (hmap : ∀ name, map.lookup name = vars.lookup name) {s : List Char} {ps : List Piece}
    (h : Splits s ps) : resolveFrom map s = some (ps.flatMap (substitute vars)) := by
  induction h with
  | nil => exact resolveFrom_of_notMem map List.not_mem_nil
  | var hident hlongest hrest ih =>
      rw [resolveFrom_dollar, resolveDollar_of_identifier map hident hlongest, ih, hmap]
      rfl
  | dollar hbare hrest ih =>
      rw [resolveFrom_dollar, resolveDollar_of_bare map hbare, ih]
      rfl
  | text hne hplain hlongest hrest ih =>
      rw [resolveFrom_text map hplain hlongest, ih]
      rfl

/-! ## Templates -/

/-- Variables with different names have the values they are listed with. -/
theorem lookup_varMap {vars : List (String × String)} (hdistinct : (vars.map Prod.fst).Nodup)
    (name : String) : (varMap vars).lookup name = vars.lookup name := by
  induction vars using List.reverseRecOn with
  | nil => rfl
  | append_singleton vars v ih =>
      obtain ⟨last, value⟩ := v
      rw [List.map_append, List.map_singleton, List.nodup_append] at hdistinct
      obtain ⟨hvars, -, hnew⟩ := hdistinct
      have hmap : varMap (vars ++ [(last, value)]) = (varMap vars).insert last value := by
        simp [varMap, List.foldl_append]
      rw [hmap, List.lookup_append]
      by_cases hname : name = last
      · subst hname
        have hnone : vars.lookup name = none := by
          rw [List.lookup_eq_none_iff]
          intro w hw
          have hne := hnew w.1 (List.mem_map_of_mem hw) name (List.mem_singleton.mpr rfl)
          simpa using hne.symm
        rw [hnone, AList.lookup_insert]
        simp
      · have hbeq : (name == last) = false := by simpa using hname
        rw [AList.lookup_insert_ne hname, ih hvars]
        simp [List.lookup_cons, hbeq]

/-- Where no variable has a value, the pieces are written as they are. -/
theorem flatMap_substitute_nil {s : List Char} {ps : List Piece} (h : Splits s ps) :
    ps.flatMap (substitute []) = s := by
  induction h with
  | nil => rfl
  | var _ _ _ ih => rw [List.flatMap_cons, ih]; rfl
  | dollar _ _ ih => rw [List.flatMap_cons, ih]; rfl
  | text _ _ _ _ ih => rw [List.flatMap_cons, ih]; rfl

/-- **Filling in a template.**  Every template is split in exactly one way into variables
with the longest identifiers, bare dollar signs and text.  For variables with different
names, whatever their values, filling in comes to its end and gives the pieces one after
the other, each variable that has a value replaced by it and everything else kept; with no
variables it gives the template. -/
theorem resolveVars_eq (sql : String) (vars : List (String × String))
    (hdistinct : (vars.map Prod.fst).Nodup) :
    (∃! ps, Splits sql.toList ps) ∧
      (∀ ps, Splits sql.toList ps →
        resolveVars sql vars = some (String.ofList (ps.flatMap (substitute vars)))) ∧
      resolveVars sql [] = some sql := by
  refine ⟨?_, ?_, rfl⟩
  · obtain ⟨ps, hps⟩ := exists_splits sql.toList
    exact ⟨ps, hps, fun qs hqs => hqs.unique hps⟩
  · intro ps hps
    cases vars with
    | nil =>
        rw [flatMap_substitute_nil hps, String.ofList_toList]
        rfl
    | cons v vars =>
        have hloop := resolveFrom_of_splits (lookup_varMap hdistinct) hps
        rw [resolveVars, List.isEmpty_cons, if_neg Bool.false_ne_true, hloop]
        rfl

/-- A variable, a longer name that has no value, a value with a dollar sign in it and a
bare dollar sign. -/
theorem resolveVars_eq_cur :
    resolveVars "$cur$cur2$$" [("cur", "$cur2")] = some "$cur2$cur2$$" := by
  have hcur : IsIdentifier "cur".toList := ⟨⟨'c', rfl, rfl⟩, by simp [isNameChar]⟩
  have hcur2 : IsIdentifier "cur2".toList := ⟨⟨'c', rfl, rfl⟩, by simp [isNameChar]⟩
  have hsplits : Splits ('$' :: ("cur".toList ++ '$' :: ("cur2".toList ++ ['$', '$'])))
      [.var "cur".toList, .var "cur2".toList, .dollar, .dollar] :=
    .var hcur (by simp [isNameChar]) (.var hcur2 (by simp [isNameChar])
      (.dollar (by simp [isNameStart]) (.dollar (by simp) .nil)))
  exact (resolveVars_eq "$cur$cur2$$" [("cur", "$cur2")] (by decide)).2.1 _ hsplits

end WpKnowledge.Vel
