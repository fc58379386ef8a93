import WpKnowledge.Foundation.Slice
import WpKnowledge.Vel.Parse

/-!
# Quotes around a text in SQL functions

The function that every value of a zone table goes through: it takes off quotes around a
text, with a backslash in front of each of them or without.  It looks at the bytes of the
text and cuts it at byte positions; an index out of range or a cut inside a character
would stop the program, which is the value {lit}`none`.

Main results:

- Theorems {lit}`trimTrimmed_quoted` and {lit}`trimTrimmed_escaped`: what is left between
  quotes.
- Theorem {lit}`trimTrimmed_of_not_enclosed`: without quotes around it a text stays.
- Theorem {lit}`trimQuotes_removes_pair_iff`: exactly one pair is taken off every text but
  a single quote behind a backslash.
-/

namespace WpKnowledge.SqliteExt

open Vel Foundation

/-- The text between quotes, and without a backslash in front of the second one. -/
def betweenQuotes (t : List Char) (start tidx : Nat) : Option (List Char) := do
  let escaped ← if 1 ≤ tidx then byteIs t (tidx - 1) '\\' else some false
  let endExcl := if escaped then tidx - 1 else tidx
  if start ≤ endExcl then slice t start endExcl else some []

/-- A text without white space around it, and then without quotes around it. -/
def trimTrimmed (t : List Char) : Option (List Char) :=
  if byteLength t ≥ 2 then do
    -- both bytes are there: whether the second one is looked at does not matter
    let backslash ← byteIs t 0 '\\'
    let double ← byteIs t 1 '"'
    let single ← byteIs t 1 '\''
    let hidx := if backslash && (double || single) then 1 else 0
    let tidx := byteLength t - 1
    let headDouble ← byteIs t hidx '"'
    let tailDouble ← byteIs t tidx '"'
    let headSingle ← byteIs t hidx '\''
    let tailSingle ← byteIs t tidx '\''
    if (headDouble && tailDouble) || (headSingle && tailSingle) then
      betweenQuotes t (hidx + 1) tidx
    else some t
  else some t

/-- A text without quotes around it. -/
def trimQuotes (s : String) : Option String :=
  (trimTrimmed (trim s.toList)).map String.ofList

/-! ## Texts between quotes -/

/-- One of the two quotes. -/
def IsQuote (q : Char) : Prop :=
  q = '"' ∨ q = '\''

/-- Without a backslash at its end. -/
def dropBackslash (m : List Char) : List Char :=
  if m.getLast? = some '\\' then m.dropLast else m

theorem IsQuote.toNat_lt {q : Char} (h : IsQuote q) : q.toNat < 128 := by
  rcases h with rfl | rfl <;> decide

theorem IsQuote.ne_backslash {q : Char} (h : IsQuote q) : q ≠ '\\' := by
  rcases h with rfl | rfl <;> decide

theorem IsQuote.byteLength_singleton {q : Char} (h : IsQuote q) : byteLength [q] = 1 := by
  rcases h with rfl | rfl <;> rfl

/-- What is between two quotes is left without a backslash at its end. -/
theorem betweenQuotes_eq {front m : List Char} {q : Char} (hq : IsQuote q) :
    betweenQuotes (front ++ [q] ++ (m ++ [q])) (byteLength (front ++ [q]))
      (byteLength (front ++ [q] ++ m)) = some (dropBackslash m) := by
  have hbackslash : ('\\' : Char).toNat < 128 := by decide
  have hcut : ∀ l n r, slice (l ++ (n ++ r)) (byteLength l) (byteLength (l ++ n)) = some n :=
    fun l n r => slice_eq_some_iff.mpr ⟨l, r, (List.append_assoc l n r).symm, rfl, rfl⟩
  have hone : 1 ≤ byteLength (front ++ [q] ++ m) := by
    rw [byteLength_append, byteLength_append, hq.byteLength_singleton]
    omega
  have hle : ∀ n, byteLength (front ++ [q]) ≤ byteLength (front ++ [q] ++ n) := by
    intro n
    rw [byteLength_append (front ++ [q])]
    exact Nat.le_add_right _ _
  -- the byte in front of the second quote is the end of the first one if nothing is between
  have hescaped : byteIs (front ++ [q] ++ (m ++ [q])) (byteLength (front ++ [q] ++ m) - 1) '\\' =
      some (m.getLast? == some '\\') := by
    rcases m.eq_nil_or_concat with rfl | ⟨n, c, rfl⟩
    · have hlast := byteIs_append_cons_pred hbackslash front q [q]
      rw [beq_false_of_ne hq.ne_backslash] at hlast
      simpa using hlast
    · have hlast := byteIs_append_cons_pred hbackslash (front ++ [q] ++ n) c [q]
      simpa [List.concat_eq_append] using hlast
  rw [betweenQuotes, if_pos hone, hescaped]
  by_cases hm : m.getLast? = some '\\'
  · obtain ⟨n, rfl⟩ := List.getLast?_eq_some_iff.mp hm
    have hend : byteLength (front ++ [q] ++ (n ++ ['\\'])) - 1 = byteLength (front ++ [q] ++ n) := by
      rw [← List.append_assoc, byteLength_append]
      rfl
    have hslice := hcut (front ++ [q]) n ['\\', q]
    simp only [hm, beq_self_eq_true, Option.bind_eq_bind, Option.bind_some, if_true, hend,
      if_pos (hle n), dropBackslash, List.dropLast_concat]
    simpa using hslice
  · have hkeep : (m.getLast? == some '\\') = false := beq_false_of_ne hm
    simp only [hkeep, Option.bind_eq_bind, Option.bind_some, Bool.false_eq_true, if_false,
      if_pos (hle m), dropBackslash, if_neg hm]
    exact hcut (front ++ [q]) m [q]

/-! ## Where the quotes are looked for -/

/-- The first quote is looked for behind a backslash that a quote follows, and else at the
start. -/
def HeadAt (front : List Char) (head : Char) (tail : List Char) : Prop :=
  (front = ['\\'] ∧ IsQuote head) ∨
    (front = [] ∧ (head = '\\' → ∀ c ∈ tail.head?, ¬ IsQuote c))

/-- Every text starts one way or the other. -/
theorem exists_headAt {t : List Char} (h : t ≠ []) :
    ∃ front head tail, t = front ++ head :: tail ∧ HeadAt front head tail := by
  obtain ⟨c, r, rfl⟩ := List.exists_cons_of_ne_nil h
  by_cases hescaped : c = '\\' ∧ ∃ q ∈ r.head?, IsQuote q
  · obtain ⟨rfl, q, hq, hquote⟩ := hescaped
    obtain ⟨tail, rfl⟩ := List.head?_eq_some_iff.mp hq
    exact ⟨['\\'], q, tail, rfl, Or.inl ⟨rfl, hquote⟩⟩
  · refine ⟨[], c, r, rfl, Or.inr ⟨rfl, ?_⟩⟩
    intro hc d hd hquote
    exact hescaped ⟨hc, d, hd, hquote⟩

/-- Whether the second byte is a quote. -/
theorem byteIs_one_eq_isSome {t : List Char} (h : byteLength t ≥ 2) (a : Char) :
    ∃ b, byteIs t 1 a = some b := by
  have hlt : 1 < (t.flatMap String.utf8EncodeChar).length := by
    rw [length_flatMap_utf8EncodeChar_eq]
    omega
  rw [byteIs, List.getElem?_eq_getElem hlt]
  exact ⟨_, rfl⟩

/-- The index at which the first quote is looked for. -/
theorem hidx_eq {front tail : List Char} {head : Char} (h : HeadAt front head tail)
    (htwo : byteLength (front ++ head :: tail) ≥ 2) :
    ∃ backslash double single, byteIs (front ++ head :: tail) 0 '\\' = some backslash ∧
      byteIs (front ++ head :: tail) 1 '"' = some double ∧
      byteIs (front ++ head :: tail) 1 '\'' = some single ∧
      (if backslash && (double || single) then 1 else 0) = byteLength front := by
  have hbackslash : ('\\' : Char).toNat < 128 := by decide
  have hdouble : ('"' : Char).toNat < 128 := by decide
  have hsingle : ('\'' : Char).toNat < 128 := by decide
  rcases h with ⟨rfl, hquote⟩ | ⟨rfl, hnot⟩
  · refine ⟨true, head == '"', head == '\'', byteIs_append_cons hbackslash [] '\\' _,
      byteIs_append_cons hdouble ['\\'] head tail, byteIs_append_cons hsingle ['\\'] head tail, ?_⟩
    rcases hquote with rfl | rfl <;> rfl
  · have hfirst := byteIs_append_cons hbackslash [] head tail
    obtain ⟨double, hd⟩ := byteIs_one_eq_isSome htwo '"'
    obtain ⟨single, hs⟩ := byteIs_one_eq_isSome htwo '\''
    refine ⟨_, double, single, hfirst, hd, hs, ?_⟩
    rw [byteLength_nil]
    by_cases hhead : head = '\\'
    · -- the second byte is one of the next character, which is no quote
      subst hhead
      cases tail with
      | nil => exact absurd htwo (by decide)
      | cons c r =>
          have hc := hnot rfl c rfl
          rw [IsQuote, not_or] at hc
          have hd' := byteIs_append_cons hdouble ['\\'] c r
          have hs' := byteIs_append_cons hsingle ['\\'] c r
          rw [beq_false_of_ne hc.1] at hd'
          rw [beq_false_of_ne hc.2] at hs'
          cases hd.symm.trans hd'
          cases hs.symm.trans hs'
          rfl
    · rw [beq_false_of_ne hhead]
      rfl

/-- Two quotes are taken off if they are the same. -/
theorem trimTrimmed_eq {t front tail init : List Char} {head last : Char}
    (ht : t = front ++ head :: tail) (hhead : HeadAt front head tail) (hlast : t = init ++ [last])
    (htwo : byteLength t ≥ 2) :
    trimTrimmed t =
      if (head == '"' && last == '"') || (head == '\'' && last == '\'') then
        betweenQuotes t (byteLength front + 1) (byteLength t - 1)
      else some t := by
  have hdouble : ('"' : Char).toNat < 128 := by decide
  have hsingle : ('\'' : Char).toNat < 128 := by decide
  have hfirst : ∀ a : Char, a.toNat < 128 → byteIs t (byteLength front) a = some (head == a) := by
    intro a ha
    rw [ht]
    exact byteIs_append_cons ha front head tail
  have hend : ∀ a : Char, a.toNat < 128 → byteIs t (byteLength t - 1) a = some (last == a) := by
    intro a ha
    rw [hlast]
    exact byteIs_append_cons_pred ha init last []
  subst ht
  obtain ⟨backslash, double, single, hb, hd, hs, hidx⟩ := hidx_eq hhead htwo
  rw [trimTrimmed, if_pos htwo, hb, hd, hs]
  simp only [Option.bind_eq_bind, Option.bind_some, hidx, hfirst _ hdouble, hend _ hdouble,
    hfirst _ hsingle, hend _ hsingle]

theorem IsQuote.paired {q : Char} (h : IsQuote q) :
    (q == '"' && q == '"' || q == '\'' && q == '\'') = true := by
  rcases h with rfl | rfl <;> decide

/-- Between two quotes, the text without a backslash at its end is left. -/
theorem trimTrimmed_enclosed {front m : List Char} {q : Char} (hq : IsQuote q)
    (hhead : HeadAt front q (m ++ [q])) :
    trimTrimmed (front ++ q :: (m ++ [q])) = some (dropBackslash m) := by
  have hstart : byteLength (front ++ [q]) = byteLength front + 1 := by
    rw [byteLength_append, hq.byteLength_singleton]
  have hstop : byteLength (front ++ q :: (m ++ [q])) = byteLength (front ++ [q] ++ m) + 1 := by
    have htext : front ++ q :: (m ++ [q]) = front ++ [q] ++ m ++ [q] := by simp
    rw [htext, byteLength_append _ [q], hq.byteLength_singleton]
  have htwo : byteLength (front ++ q :: (m ++ [q])) ≥ 2 := by
    rw [hstop, byteLength_append, hstart]
    omega
  have hlast : front ++ q :: (m ++ [q]) = front ++ q :: m ++ [q] := by simp
  have hbetween := @betweenQuotes_eq front m q hq
  have htext : front ++ [q] ++ (m ++ [q]) = front ++ q :: (m ++ [q]) := by simp
  rw [trimTrimmed_eq rfl hhead hlast htwo, if_pos hq.paired, hstop, Nat.add_sub_cancel, ← hstart,
    ← hbetween, htext]

theorem trimTrimmed_quoted {m : List Char} {q : Char} (hq : IsQuote q) :
    trimTrimmed (q :: (m ++ [q])) = some (dropBackslash m) :=
  trimTrimmed_enclosed hq (Or.inr ⟨rfl, fun h => absurd h hq.ne_backslash⟩)

theorem trimTrimmed_escaped {m : List Char} {q : Char} (hq : IsQuote q) :
    trimTrimmed ('\\' :: q :: (m ++ [q])) = some (dropBackslash m) :=
  trimTrimmed_enclosed hq (Or.inl ⟨rfl, hq⟩)

theorem trimTrimmed_single {q : Char} (hq : IsQuote q) : trimTrimmed ['\\', q] = some [] := by
  rcases hq with rfl | rfl <;> decide

/-- The text is between two quotes, the first one with a backslash in front of it or without. -/
def IsEnclosed (t : List Char) : Prop :=
  ∃ q m, IsQuote q ∧ (t = q :: (m ++ [q]) ∨ t = '\\' :: q :: (m ++ [q]))

/-- A quote behind a backslash is not between two quotes. -/
theorem not_isEnclosed_single (q : Char) : ¬ IsEnclosed ['\\', q] := by
  rintro ⟨q', m, hq', heq | heq⟩
  · exact hq'.ne_backslash (List.cons.inj heq).1.symm
  · simp at heq

/-- Without quotes around it, a text stays. -/
theorem trimTrimmed_of_not_enclosed {t : List Char} (h : ¬ IsEnclosed t)
    (hsingle : ∀ q, IsQuote q → t ≠ ['\\', q]) : trimTrimmed t = some t := by
  by_cases htwo : byteLength t ≥ 2
  · have hne : t ≠ [] := by
      rintro rfl
      exact absurd htwo (by decide)
    obtain ⟨front, head, tail, ht, hhead⟩ := exists_headAt hne
    obtain ⟨init, last, hlast⟩ := (List.eq_nil_or_concat t).resolve_left hne
    rw [List.concat_eq_append] at hlast
    rw [trimTrimmed_eq ht hhead hlast htwo, if_neg]
    intro hpaired
    have hquote : IsQuote head ∧ last = head := by
      simp only [Bool.or_eq_true, Bool.and_eq_true, beq_iff_eq] at hpaired
      rcases hpaired with ⟨rfl, rfl⟩ | ⟨rfl, rfl⟩
      · exact ⟨Or.inl rfl, rfl⟩
      · exact ⟨Or.inr rfl, rfl⟩
    obtain ⟨hq, rfl⟩ := hquote
    rcases tail.eq_nil_or_concat with rfl | ⟨m, c, rfl⟩
    · -- the two quotes are one
      rcases hhead with ⟨rfl, -⟩ | ⟨rfl, -⟩
      · exact hsingle last hq ht
      · rw [ht, List.nil_append, hq.byteLength_singleton] at htwo
        omega
    · rw [List.concat_eq_append] at ht
      have hc : c = last := by
        have hsplit : front ++ last :: (m ++ [c]) = front ++ last :: m ++ [c] := by simp
        have hends := congrArg List.getLast? (ht.symm.trans hlast)
        rw [hsplit, List.getLast?_concat, List.getLast?_concat] at hends
        exact Option.some.inj hends
      rw [hc] at ht
      rcases hhead with ⟨rfl, -⟩ | ⟨rfl, -⟩
      · exact h ⟨last, m, hq, Or.inr ht⟩
      · exact h ⟨last, m, hq, Or.inl ht⟩
  · rw [trimTrimmed, if_neg htwo]

/-! ## One pair -/

/-- Exactly one enclosing pair of quotes is taken off the trimmed text, and no cut fails. -/
def RemovesPair (s : String) : Prop :=
  ∃ out, trimQuotes s = some out ∧
    (∀ q b, IsQuote q → trim s.toList = q :: (b ++ [q]) → b.getLast? ≠ some '\\' →
      out.toList = b) ∧
    (∀ q b, IsQuote q → trim s.toList = '\\' :: q :: (b ++ ['\\', q]) → out.toList = b) ∧
    (¬ IsEnclosed (trim s.toList) → out.toList = trim s.toList)

/-- The function cuts only where it can. -/
theorem exists_trimTrimmed (t : List Char) : ∃ out, trimTrimmed t = some out := by
  by_cases h : IsEnclosed t
  · obtain ⟨q, m, hq, rfl | rfl⟩ := h
    · exact ⟨_, trimTrimmed_quoted hq⟩
    · exact ⟨_, trimTrimmed_escaped hq⟩
  · by_cases hsingle : ∃ q, IsQuote q ∧ t = ['\\', q]
    · obtain ⟨q, hq, rfl⟩ := hsingle
      exact ⟨_, trimTrimmed_single hq⟩
    · exact ⟨t, trimTrimmed_of_not_enclosed h fun q hq ht => hsingle ⟨q, hq, ht⟩⟩

/-- Exactly one pair is taken off every text but a single quote behind a backslash, which is
taken for both ends. -/
theorem trimQuotes_removes_pair_iff (s : String) :
    RemovesPair s ↔ ∀ q, IsQuote q → trim s.toList ≠ ['\\', q] := by
  constructor
  · rintro ⟨out, hout, -, -, hkeep⟩ q hq ht
    rw [trimQuotes, ht, trimTrimmed_single hq] at hout
    rw [ht] at hkeep
    have hempty := hkeep (not_isEnclosed_single q)
    cases hout
    cases hempty
  · intro hsingle
    obtain ⟨out, hout⟩ := exists_trimTrimmed (trim s.toList)
    refine ⟨String.ofList out, by rw [trimQuotes, hout]; rfl, ?_, ?_, ?_⟩
    · intro q b hq ht hlast
      rw [ht, trimTrimmed_quoted hq, dropBackslash, if_neg hlast] at hout
      cases hout
      exact String.toList_ofList
    · intro q b hq ht
      have hsplit : b ++ ['\\', q] = b ++ ['\\'] ++ [q] := by simp
      rw [ht, hsplit, trimTrimmed_escaped hq, dropBackslash, if_pos List.getLast?_concat,
        List.dropLast_concat] at hout
      cases hout
      exact String.toList_ofList
    · intro hnot
      rw [trimTrimmed_of_not_enclosed hnot hsingle] at hout
      cases hout
      exact String.toList_ofList

/-- A quote behind a backslash is taken for both ends; two quotes are taken off. -/
theorem trimQuotes_single_quote :
    trimQuotes "  \\\"  " = some "" ∧ ¬ RemovesPair "  \\\"  " ∧
      trimQuotes "  \\\"zone\\\"  " = some "zone" := by
  refine ⟨by decide, ?_, by decide⟩
  rintro ⟨out, hout, -, -, hkeep⟩
  have htrim : trim "  \\\"  ".toList = ['\\', '"'] := by decide
  have hempty : trimQuotes "  \\\"  " = some "" := by decide
  rw [htrim] at hkeep
  have hsame := hkeep (not_isEnclosed_single '"')
  rw [hempty] at hout
  cases hout
  cases hsame

end WpKnowledge.SqliteExt
