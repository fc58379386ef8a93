import Mathlib.Data.List.Infix
import Mathlib.Data.List.TakeWhile

/-!
# Token rules

A set of token rules says which pieces may be cut off the front of a text: the
rule {lit}`cut m k t rest` cuts the piece {lit}`t`, of kind {lit}`k`, in front of {lit}`rest`, in the
mode {lit}`m`.  {lit}`ModalTokens` says that a text is cut up into tokens; {lit}`Tokens` says so
of rules without modes.

The second part has what the rules of many languages are made of: regions that
reach to the first occurrence of a closing word, and quoted bodies in which the
quote is doubled or escaped.

Main results:

- Theorem {lit}`exists_modalTokens`: rules that always cut something cut up every text.
- Theorem {lit}`ModalTokens.scan_eq`: a scanner that reads the next token as the rules say,
  as long as anything is left to be found, finds what the tokens have.
- Theorems {lit}`exists_closed_or_open` and {lit}`exists_quoted_or_open`: a region that was
  opened is closed or reaches to the end.
-/

namespace Foundation

section Rules

variable {σ κ α : Type} {cut : σ → κ → List α → List α → Prop} {next : σ → κ → List α → σ}

/-- The text is cut up into the tokens, each with its kind, from a mode on.  The
rules depend on the mode, and a token leads from one mode to the next. -/
inductive ModalTokens (cut : σ → κ → List α → List α → Prop) (next : σ → κ → List α → σ) :
    σ → List α → List (κ × List α) → Prop where
  | nil {m : σ} : ModalTokens cut next m [] []
  | cons {m : σ} {k : κ} {t rest : List α} {ts : List (κ × List α)} (hne : t ≠ [])
      (hcut : cut m k t rest) (hrest : ModalTokens cut next (next m k t) rest ts) :
      ModalTokens cut next m (t ++ rest) ((k, t) :: ts)

/-- Rules that always cut something cut up every text. -/
theorem exists_modalTokens
    (htotal : ∀ m s, s ≠ [] → ∃ k t rest, s = t ++ rest ∧ t ≠ [] ∧ cut m k t rest) (m : σ)
    (s : List α) : ∃ ts, ModalTokens cut next m s ts := by
  -- induction on the length, as a token may have any
  induction hlength : s.length using Nat.strong_induction_on generalizing m s with
  | h n ih =>
      by_cases hs : s = []
      · exact ⟨[], hs ▸ ModalTokens.nil⟩
      · obtain ⟨k, t, rest, rfl, hne, hcut⟩ := htotal m s hs
        have hpos : 0 < t.length := List.length_pos_iff.mpr hne
        have hlt : rest.length < n := by
          rw [← hlength, List.length_append]
          omega
        obtain ⟨ts, hts⟩ := ih rest.length hlt (next m k t) rest rfl
        exact ⟨(k, t) :: ts, .cons hne hcut hts⟩

/-- The tokens are the text. -/
theorem ModalTokens.flatten_eq {m : σ} {s : List α} {ts : List (κ × List α)}
    (h : ModalTokens cut next m s ts) : (ts.map Prod.snd).flatten = s := by
  induction h with
  | nil => rfl
  | cons hne hcut hrest ih => rw [List.map_cons, List.flatten_cons, ih]

/-! ## Scanners -/

variable {β : Type}

/-- What is read from tokens, each at its position. -/
def readFrom (read : Nat → κ → List α → List β) : Nat → List (κ × List α) → List β
  | _, [] => []
  | i, (k, t) :: ts => read i k t ++ readFrom read (i + t.length) ts

/-- As long as the text from a token on is live, the token is one a scanner takes
for what it is. -/
def AllAlike (live : List α → Prop) (alike : κ → List α → List α → Prop) :
    List (κ × List α) → Prop
  | [] => True
  | (k, t) :: ts =>
      (live (t ++ (ts.map Prod.snd).flatten) → alike k t (ts.map Prod.snd).flatten) ∧
        AllAlike live alike ts

/-- A scanner that is never wrong about a token. -/
theorem allAlike_of_forall {live : List α → Prop} {alike : κ → List α → List α → Prop}
    (h : ∀ k t rest, alike k t rest) (ts : List (κ × List α)) : AllAlike live alike ts := by
  induction ts with
  | nil => trivial
  | cons token ts ih => exact ⟨fun _ => h _ _ _, ih⟩

/-- A scanner that reads the next token as the rules say, as long as the text is
live, finds in a text what is read from its tokens.  Of a text that is not live
neither finds anything. -/
theorem ModalTokens.scan_eq (scan : Nat → List α → List β) (read : Nat → κ → List α → List β)
    (live : List α → Prop) (alike : κ → List α → List α → Prop)
    (hnil : ∀ i, scan i [] = [])
    (hstep : ∀ m i k t rest, cut m k t rest → alike k t rest →
      scan i (t ++ rest) = read i k t ++ scan (i + t.length) rest)
    (hdead : ∀ i s, ¬ live s → scan i s = [])
    (hread : ∀ m i k t rest, cut m k t rest → ¬ live (t ++ rest) → read i k t = [])
    (hlive : ∀ t rest, live rest → live (t ++ rest))
    {m : σ} {s : List α} {ts : List (κ × List α)} (h : ModalTokens cut next m s ts)
    (halike : AllAlike live alike ts) (i : Nat) : scan i s = readFrom read i ts := by
  induction h generalizing i with
  | nil => exact hnil i
  | @cons m k t rest ts hne hcut hrest ih =>
      rw [readFrom, ← ih halike.2]
      by_cases hl : live (t ++ rest)
      · have ha := halike.1 (hrest.flatten_eq.symm ▸ hl)
        rw [hrest.flatten_eq] at ha
        exact hstep m i k t rest hcut ha
      · have hrestDead : ¬ live rest := fun hr => hl (hlive t rest hr)
        rw [hdead i _ hl, hread m i k t rest hcut hl, hdead _ _ hrestDead, List.append_nil]

/-- The text is cut up into the tokens by rules without modes. -/
abbrev Tokens (cut : κ → List α → List α → Prop) (s : List α) (ts : List (κ × List α)) : Prop :=
  ModalTokens (fun _ : Unit => cut) (fun _ _ _ => ()) () s ts

/-- Rules that always cut something cut up every text. -/
theorem exists_tokens {cut : κ → List α → List α → Prop}
    (htotal : ∀ s, s ≠ [] → ∃ k t rest, s = t ++ rest ∧ t ≠ [] ∧ cut k t rest) (s : List α) :
    ∃ ts, Tokens cut s ts :=
  exists_modalTokens (fun _ => htotal) () s

end Rules

/-! ## Closed regions -/

section Regions

variable {α : Type} [DecidableEq α]

/-- How far a search for a word goes: up to its end, or to the end of the text. -/
def upTo (word : List α) : List α → Nat
  | [] => 0
  | a :: s => if word.isPrefixOf (a :: s) then word.length else 1 + upTo word s

/-- The word closes the region with this body: it does not occur before. -/
def Closes (word body : List α) : Prop :=
  ¬ word <:+: (body ++ word).dropLast

/-- A region that was opened is closed or reaches to the end. -/
theorem exists_closed_or_open {word : List α} (hword : word ≠ []) (s : List α) :
    (∃ body rest, s = body ++ word ++ rest ∧ Closes word body) ∨ ¬ word <:+: s := by
  induction s with
  | nil =>
      right
      rwa [List.infix_nil]
  | cons a s ih =>
      by_cases hstart : word <+: a :: s
      · left
        obtain ⟨rest, hrest⟩ := hstart
        refine ⟨[], rest, hrest.symm, ?_⟩
        intro hinfix
        have hle := hinfix.length_le
        have hpos := List.length_pos_iff.mpr hword
        rw [List.nil_append, List.length_dropLast] at hle
        omega
      · rcases ih with ⟨body, rest, rfl, hcloses⟩ | hnone
        · left
          refine ⟨a :: body, rest, rfl, ?_⟩
          have hne : body ++ word ≠ [] := by simp [hword]
          rw [Closes, List.cons_append, List.dropLast_cons_of_ne_nil hne]
          intro hinfix
          rcases List.infix_cons_iff.mp hinfix with hpre | hinner
          · apply hstart
            have hlong : a :: (body ++ word).dropLast <+: a :: (body ++ word ++ rest) :=
              List.cons_prefix_cons.mpr
                ⟨rfl, (List.dropLast_prefix _).trans (List.prefix_append _ _)⟩
            exact hpre.trans hlong
          · exact hcloses hinner
        · right
          intro hinfix
          rcases List.infix_cons_iff.mp hinfix with hpre | hinner
          · exact hstart hpre
          · exact hnone hinner

/-- The search for the word stops at the end of a closed region. -/
theorem upTo_closed {word body : List α} (hword : word ≠ []) (h : Closes word body)
    (rest : List α) : upTo word (body ++ word ++ rest) = body.length + word.length := by
  induction body with
  | nil =>
      obtain ⟨a, word, rfl⟩ := List.exists_cons_of_ne_nil hword
      have hstart : (a :: word).isPrefixOf (a :: (word ++ rest)) = true :=
        List.isPrefixOf_iff_prefix.mpr (List.prefix_append (a :: word) rest)
      rw [List.nil_append, List.cons_append, upTo, if_pos hstart]
      simp
  | cons a body ih =>
      have hne : body ++ word ≠ [] := by simp [hword]
      rw [Closes, List.cons_append, List.dropLast_cons_of_ne_nil hne] at h
      have hinner : Closes word body := fun hinfix => h (List.infix_cons hinfix)
      have hstart : ¬ word.isPrefixOf (a :: (body ++ word ++ rest)) = true := by
        intro hpre
        have hlong : a :: (body ++ word).dropLast <+: a :: (body ++ word ++ rest) :=
          List.cons_prefix_cons.mpr
            ⟨rfl, (List.dropLast_prefix _).trans (List.prefix_append _ _)⟩
        have hle : word.length ≤ (a :: (body ++ word).dropLast).length := by
          simp
          omega
        have hshort := List.prefix_of_prefix_length_le (List.isPrefixOf_iff_prefix.mp hpre)
          hlong hle
        exact h hshort.isInfix
      rw [List.cons_append, List.cons_append, upTo, if_neg hstart, ih hinner, List.length_cons]
      omega

/-- The search for a word that does not occur goes to the end. -/
theorem upTo_open {word s : List α} (h : ¬ word <:+: s) : upTo word s = s.length := by
  induction s with
  | nil => rfl
  | cons a s ih =>
      have hstart : ¬ word.isPrefixOf (a :: s) = true := fun hpre =>
        h (List.isPrefixOf_iff_prefix.mp hpre).isInfix
      rw [upTo, if_neg hstart, ih fun hinfix => h (List.infix_cons hinfix), List.length_cons]
      omega

end Regions

/-! ## Runs -/

/-- Every text starts with a longest run of elements of a class. -/
theorem exists_longest_run {α : Type} (p : α → Bool) (s : List α) :
    ∃ run rest, s = run ++ rest ∧ (∀ a ∈ run, p a = true) ∧ ∀ a ∈ rest.head?, p a = false := by
  have hsplit := List.takeWhile_append_dropWhile (p := p) (l := s)
  refine ⟨s.takeWhile p, s.dropWhile p, hsplit.symm, fun a ha => List.mem_takeWhile_imp ha, ?_⟩
  intro a ha
  have hhead := List.head?_dropWhile_not p s
  rw [Option.mem_def.mp ha] at hhead
  simpa using hhead

/-! ## Quoted bodies -/

section Quoted

variable {α : Type}

/-- What may stand between two quotes: the quote only doubled or escaped. -/
inductive QuotedBody (quote : α) (escapes : α → Prop) : List α → Prop where
  | nil : QuotedBody quote escapes []
  | plain {a : α} {s : List α} (hquote : a ≠ quote) (hescape : ¬ escapes a)
      (hs : QuotedBody quote escapes s) : QuotedBody quote escapes (a :: s)
  | doubled {s : List α} (hs : QuotedBody quote escapes s) :
      QuotedBody quote escapes (quote :: quote :: s)
  | escaped {a b : α} {s : List α} (hquote : a ≠ quote) (hescape : escapes a)
      (hs : QuotedBody quote escapes s) : QuotedBody quote escapes (a :: b :: s)

/-- What stands after a quote that is never closed: a body, and at its end maybe an
escape of nothing. -/
def OpenBody (quote : α) (escapes : α → Prop) (s : List α) : Prop :=
  QuotedBody quote escapes s ∨
    ∃ body a, s = body ++ [a] ∧ a ≠ quote ∧ escapes a ∧ QuotedBody quote escapes body

/-- Without escapes what stands after a quote that is never closed is a body. -/
theorem OpenBody.quotedBody {quote : α} {s : List α} (h : OpenBody quote (fun _ => False) s) :
    QuotedBody quote (fun _ => False) s := by
  rcases h with hbody | ⟨body, a, -, -, hescape, -⟩
  · exact hbody
  · exact hescape.elim

/-- A quote that was opened is closed or reaches to the end. -/
theorem exists_quoted_or_open [DecidableEq α] (quote : α) (escapes : α → Prop) (s : List α) :
    (∃ body rest, s = body ++ quote :: rest ∧ QuotedBody quote escapes body ∧
        rest.head? ≠ some quote) ∨ OpenBody quote escapes s := by
  -- what may be put in front of the rest of the text
  have hpush : ∀ (pre s : List α),
      (∀ body, QuotedBody quote escapes body → QuotedBody quote escapes (pre ++ body)) →
      ((∃ body rest, s = body ++ quote :: rest ∧ QuotedBody quote escapes body ∧
        rest.head? ≠ some quote) ∨ OpenBody quote escapes s) →
      (∃ body rest, pre ++ s = body ++ quote :: rest ∧ QuotedBody quote escapes body ∧
        rest.head? ≠ some quote) ∨ OpenBody quote escapes (pre ++ s) := by
    intro pre s hpre h
    rcases h with ⟨body, rest, rfl, hbody, hrest⟩ | hbody | ⟨body, a, rfl, ha, hescape, hbody⟩
    · exact .inl ⟨pre ++ body, rest, by rw [List.append_assoc], hpre body hbody, hrest⟩
    · exact .inr (.inl (hpre s hbody))
    · exact .inr (.inr ⟨pre ++ body, a, by rw [List.append_assoc], ha, hescape, hpre body hbody⟩)
  induction hlength : s.length using Nat.strong_induction_on generalizing s with
  | h n ih =>
      match s with
      | [] => exact .inr (.inl .nil)
      | a :: s =>
          have hone := ih s.length (by simp [← hlength]) s rfl
          by_cases hquote : a = quote
          · subst hquote
            match s with
            | [] => exact .inl ⟨[], [], rfl, .nil, by simp⟩
            | b :: s =>
                by_cases hdouble : b = a
                · subst hdouble
                  have htwo := ih s.length (by grind) s rfl
                  exact hpush [b, b] s (fun body hbody => .doubled hbody) htwo
                · exact .inl ⟨[], b :: s, rfl, .nil, by simpa using hdouble⟩
          · by_cases hescape : escapes a
            · match s with
              | [] => exact .inr (.inr ⟨[], a, rfl, hquote, hescape, .nil⟩)
              | b :: s =>
                  have htwo := ih s.length (by grind) s rfl
                  exact hpush [a, b] s (fun body hbody => .escaped hquote hescape hbody) htwo
            · exact hpush [a] s (fun body hbody => .plain hquote hescape hbody) hone

end Quoted

end Foundation
