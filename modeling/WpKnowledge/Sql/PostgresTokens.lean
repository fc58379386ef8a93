import WpKnowledge.Foundation.Utf8
import WpKnowledge.Sql.Binding
import WpKnowledge.Sql.Lexical

/-!
# The tokens of PostgreSQL

What the tokens of a statement are for PostgreSQL itself, with standard conforming
strings: block comments nest, a `$` inside an identifier belongs to it, the quote
of a plain string is only doubled and that of an `E` string also escaped by a
backslash.  An `E` string goes on in the next quoted piece when only white space
with a line end, and line comments, stand between the two, so that the rules have
a {lit}`Mode`.

Main results:

- Theorem {lit}`Postgres.Token.read`: the scanner reads a token as PostgreSQL does if
  it is {lit}`ReadAlike`.
- Theorem {lit}`postgres_replaces_code_placeholders`: if all tokens up to the last colon
  before a name are, the placeholders in code are replaced and no others.
-/

namespace WpKnowledge

open Foundation (Closes QuotedBody OpenBody ModalTokens)

namespace Postgres

/-! ## The rules of the engine -/

/-- The bytes an identifier starts with. -/
def isIdentStart (byte : UInt8) : Bool :=
  (65 ≤ byte && byte ≤ 90) || (97 ≤ byte && byte ≤ 122) || byte == 95 || 128 ≤ byte

/-- The bytes the tag of a dollar quote goes on with. -/
def isTagContinue (byte : UInt8) : Bool :=
  isIdentStart byte || (48 ≤ byte && byte ≤ 57)

/-- The bytes an identifier goes on with. -/
def isIdentContinue (byte : UInt8) : Bool :=
  isTagContinue byte || byte == '$'.toUInt8

/-- The bytes of white space. -/
def isSpace (byte : UInt8) : Bool :=
  byte == 32 || (9 ≤ byte && byte ≤ 13)

/-- The bytes a line ends with. -/
def isLineEnd (byte : UInt8) : Bool :=
  byte == '\n'.toUInt8 || byte == '\r'.toUInt8

/-- The letter of a string with escapes. -/
def isEscapeLetter (byte : UInt8) : Bool :=
  byte == 'E'.toUInt8 || byte == 'e'.toUInt8

/-- The byte that escapes the next one in such a string. -/
def IsEscape (byte : UInt8) : Prop :=
  byte = '\\'.toUInt8

/-- The tag of a dollar quote. -/
inductive IsTag : List UInt8 → Prop where
  | anonymous : IsTag ['$'.toUInt8, '$'.toUInt8]
  | named {a : UInt8} {s : List UInt8} (ha : isIdentStart a = true)
      (hs : ∀ b ∈ s, isTagContinue b = true) : IsTag ('$'.toUInt8 :: a :: s ++ ['$'.toUInt8])

/-- The text up to the end of {lit}`depth` comments that are open, in front of the rest;
where they do not end, all text there is. -/
inductive Nests : Nat → List UInt8 → List UInt8 → Prop where
  | done {rest : List UInt8} : Nests 0 [] rest
  | unclosed {depth : Nat} : Nests (depth + 1) [] []
  | opening {depth : Nat} {t rest : List UInt8} (h : Nests (depth + 2) t rest) :
      Nests (depth + 1) ('/'.toUInt8 :: '*'.toUInt8 :: t) rest
  | closing {depth : Nat} {t rest : List UInt8} (h : Nests depth t rest) :
      Nests (depth + 1) ('*'.toUInt8 :: '/'.toUInt8 :: t) rest
  | other {depth : Nat} {b : UInt8} {t rest : List UInt8}
      (hopening : ¬ (b = '/'.toUInt8 ∧ (t ++ rest).head? = some '*'.toUInt8))
      (hclosing : ¬ (b = '*'.toUInt8 ∧ (t ++ rest).head? = some '/'.toUInt8))
      (h : Nests (depth + 1) t rest) : Nests (depth + 1) (b :: t) rest

/-- Whether the text stands where a string with escapes may go on: after a piece
of one, with only white space and line comments since, and whether a line ended
there. -/
inductive Mode where
  | normal
  | escaped (lineEnded : Bool)
deriving DecidableEq, Repr

/-- The mode after a token. -/
def nextMode (m : Mode) (k : TokenKind) (t : List UInt8) : Mode :=
  match k with
  | .quoted =>
      if (t.head?.map isEscapeLetter).getD false ||
          (m == .escaped true && t.head? == some '\''.toUInt8) then .escaped false
      else .normal
  | .comment =>
      if t.head? = some '-'.toUInt8 then m else .normal
  | .code =>
      match m with
      | .normal => .normal
      | .escaped lineEnded =>
          if t.all isSpace then .escaped (lineEnded || t.any isLineEnd) else .normal
  | _ => .normal

/-- What escapes in a quoted piece that starts in the mode. -/
def Mode.Escapes (m : Mode) (byte : UInt8) : Prop :=
  m = .escaped true ∧ IsEscape byte

/-- At the front of the text there is more than a byte of code. -/
inductive Opens : List UInt8 → Prop where
  | quote {q : UInt8} {rest : List UInt8} (hq : q = '\''.toUInt8 ∨ q = '"'.toUInt8) :
      Opens (q :: rest)
  | identifier {a : UInt8} {rest : List UInt8} (ha : isIdentStart a = true) : Opens (a :: rest)
  | lineComment {rest : List UInt8} : Opens ('-'.toUInt8 :: '-'.toUInt8 :: rest)
  | blockComment {rest : List UInt8} : Opens ('/'.toUInt8 :: '*'.toUInt8 :: rest)
  | dollarQuote {tag rest : List UInt8} (htag : IsTag tag) : Opens (tag ++ rest)
  | cast {rest : List UInt8} : Opens (':'.toUInt8 :: ':'.toUInt8 :: rest)
  | param {a : UInt8} {rest : List UInt8} (ha : isParamStart a = true) :
      Opens (':'.toUInt8 :: a :: rest)

/-- A piece of a statement in front of the rest of it is a token of PostgreSQL.  A
colon before a name is a token with the identifier after it. -/
inductive Token : Mode → TokenKind → List UInt8 → List UInt8 → Prop where
  | quoted {m : Mode} {body rest : List UInt8} (hbody : QuotedBody '\''.toUInt8 m.Escapes body)
      (hrest : rest.head? ≠ some '\''.toUInt8) :
      Token m .quoted ('\''.toUInt8 :: body ++ ['\''.toUInt8]) rest
  | openQuoted {m : Mode} {body : List UInt8} (hbody : OpenBody '\''.toUInt8 m.Escapes body) :
      Token m .quoted ('\''.toUInt8 :: body) []
  | escapeString {m : Mode} {e : UInt8} {body rest : List UInt8} (he : isEscapeLetter e = true)
      (hbody : QuotedBody '\''.toUInt8 IsEscape body) (hrest : rest.head? ≠ some '\''.toUInt8) :
      Token m .quoted (e :: '\''.toUInt8 :: body ++ ['\''.toUInt8]) rest
  | openEscapeString {m : Mode} {e : UInt8} {body : List UInt8} (he : isEscapeLetter e = true)
      (hbody : OpenBody '\''.toUInt8 IsEscape body) :
      Token m .quoted (e :: '\''.toUInt8 :: body) []
  | quotedIdentifier {m : Mode} {body rest : List UInt8}
      (hbody : QuotedBody '"'.toUInt8 (fun _ => False) body)
      (hrest : rest.head? ≠ some '"'.toUInt8) :
      Token m .quoted ('"'.toUInt8 :: body ++ ['"'.toUInt8]) rest
  | openQuotedIdentifier {m : Mode} {body : List UInt8}
      (hbody : QuotedBody '"'.toUInt8 (fun _ => False) body) :
      Token m .quoted ('"'.toUInt8 :: body) []
  | identifier {m : Mode} {a : UInt8} {s rest : List UInt8} (ha : isIdentStart a = true)
      (hs : ∀ b ∈ s, isIdentContinue b = true)
      (hrest : ∀ b ∈ rest.head?, isIdentContinue b = false)
      (hescape : ¬ (isEscapeLetter a = true ∧ s = [] ∧ rest.head? = some '\''.toUInt8)) :
      Token m .identifier (a :: s) rest
  | lineComment {m : Mode} {body rest : List UInt8} (hbody : ∀ b ∈ body, isLineEnd b = false)
      (hrest : ∀ b ∈ rest.head?, isLineEnd b = true) :
      Token m .comment ('-'.toUInt8 :: '-'.toUInt8 :: body) rest
  | blockComment {m : Mode} {t rest : List UInt8} (h : Nests 1 t rest) :
      Token m .comment ('/'.toUInt8 :: '*'.toUInt8 :: t) rest
  | dollarQuoted {m : Mode} {tag body rest : List UInt8} (htag : IsTag tag)
      (hbody : Closes tag body) : Token m .dollarQuoted (tag ++ (body ++ tag)) rest
  | openDollarQuoted {m : Mode} {tag body : List UInt8} (htag : IsTag tag)
      (hbody : ¬ tag <:+: body) : Token m .dollarQuoted (tag ++ body) []
  | cast {m : Mode} {rest : List UInt8} : Token m .cast [':'.toUInt8, ':'.toUInt8] rest
  | param {m : Mode} {a : UInt8} {s rest : List UInt8} (ha : isParamStart a = true)
      (hs : ∀ b ∈ s, isIdentContinue b = true)
      (hrest : ∀ b ∈ rest.head?, isIdentContinue b = false) :
      Token m .param (':'.toUInt8 :: a :: s) rest
  | code {m : Mode} {b : UInt8} {rest : List UInt8} (h : ¬ Opens (b :: rest)) :
      Token m .code [b] rest

/-- A tag is not empty. -/
theorem IsTag.ne_nil {tag : List UInt8} (h : IsTag tag) : tag ≠ [] := by
  cases h <;> simp

/-- Open comments end somewhere. -/
theorem exists_nests (depth : Nat) (s : List UInt8) :
    ∃ t rest, s = t ++ rest ∧ Nests depth t rest := by
  induction hlength : s.length using Nat.strong_induction_on generalizing depth s with
  | h n ih =>
      cases depth with
      | zero => exact ⟨[], s, rfl, .done⟩
      | succ depth =>
          match s with
          | [] => exact ⟨[], [], rfl, .unclosed⟩
          | b :: s =>
              by_cases hopening : b = '/'.toUInt8 ∧ s.head? = some '*'.toUInt8
              · obtain ⟨s, rfl⟩ := List.head?_eq_some_iff.mp hopening.2
                have hlt : s.length < n := by
                  rw [← hlength, List.length_cons, List.length_cons]
                  omega
                obtain ⟨t, rest, rfl, h⟩ := ih s.length hlt (depth + 2) s rfl
                exact ⟨_, rest, by rw [hopening.1]; rfl, .opening h⟩
              · by_cases hclosing : b = '*'.toUInt8 ∧ s.head? = some '/'.toUInt8
                · obtain ⟨s, rfl⟩ := List.head?_eq_some_iff.mp hclosing.2
                  have hlt : s.length < n := by
                    rw [← hlength, List.length_cons, List.length_cons]
                    omega
                  obtain ⟨t, rest, rfl, h⟩ := ih s.length hlt depth s rfl
                  exact ⟨_, rest, by rw [hclosing.1]; rfl, .closing h⟩
                · have hlt : s.length < n := by
                    rw [← hlength]
                    simp
                  obtain ⟨t, rest, rfl, h⟩ := ih s.length hlt (depth + 1) s rfl
                  exact ⟨b :: t, rest, rfl, .other hopening hclosing h⟩

/-- Every text starts with a token of PostgreSQL. -/
theorem exists_token (m : Mode) (s : List UInt8) (hs : s ≠ []) :
    ∃ k t rest, s = t ++ rest ∧ t ≠ [] ∧ Token m k t rest := by
  by_cases hopens : Opens s
  · cases hopens with
    | @quote q rest hq =>
        rcases hq with rfl | rfl
        · rcases Foundation.exists_quoted_or_open '\''.toUInt8 m.Escapes rest with
            ⟨body, rest, rfl, hbody, hrest⟩ | hopen
          · exact ⟨_, _, _, by simp, by simp, .quoted hbody hrest⟩
          · exact ⟨_, _, _, by simp, by simp, .openQuoted hopen⟩
        · rcases Foundation.exists_quoted_or_open '"'.toUInt8 (fun _ => False) rest with
            ⟨body, rest, rfl, hbody, hrest⟩ | hopen
          · exact ⟨_, _, _, by simp, by simp, .quotedIdentifier hbody hrest⟩
          · exact ⟨_, _, _, by simp, by simp, .openQuotedIdentifier hopen.quotedBody⟩
    | @identifier a rest ha =>
        obtain ⟨s, rest, rfl, hs, hrest⟩ := Foundation.exists_longest_run isIdentContinue rest
        by_cases hescape : isEscapeLetter a = true ∧ s = [] ∧ rest.head? = some '\''.toUInt8
        · obtain ⟨he, rfl, hquote⟩ := hescape
          obtain ⟨rest, rfl⟩ := List.head?_eq_some_iff.mp hquote
          rcases Foundation.exists_quoted_or_open '\''.toUInt8 IsEscape rest with
            ⟨body, rest, rfl, hbody, hrest⟩ | hopen
          · exact ⟨_, _, _, by simp, by simp, .escapeString he hbody hrest⟩
          · exact ⟨_, _, _, by simp, by simp, .openEscapeString he hopen⟩
        · exact ⟨_, _, rest, by simp, by simp, .identifier ha hs hrest hescape⟩
    | @lineComment rest =>
        obtain ⟨body, rest, rfl, hbody, hrest⟩ :=
          Foundation.exists_longest_run (fun b => !isLineEnd b) rest
        refine ⟨_, '-'.toUInt8 :: '-'.toUInt8 :: body, rest, by simp, by simp, .lineComment ?_ ?_⟩
        · intro b hb
          simpa using hbody b hb
        · intro b hb
          simpa using hrest b hb
    | @blockComment rest =>
        obtain ⟨t, rest, rfl, h⟩ := exists_nests 1 rest
        exact ⟨_, _, rest, by simp, by simp, .blockComment h⟩
    | @dollarQuote tag rest htag =>
        rcases Foundation.exists_closed_or_open htag.ne_nil rest with
          ⟨body, rest, rfl, hbody⟩ | hnone
        · exact ⟨_, _, rest, by simp, by simp [htag.ne_nil], .dollarQuoted htag hbody⟩
        · exact ⟨_, _, [], by simp, by simp [htag.ne_nil], .openDollarQuoted htag hnone⟩
    | @cast rest => exact ⟨_, _, rest, by simp, by simp, .cast⟩
    | @param a rest ha =>
        obtain ⟨s, rest, rfl, hs, hrest⟩ := Foundation.exists_longest_run isIdentContinue rest
        exact ⟨_, _, rest, by simp, by simp, .param ha hs hrest⟩
  · obtain ⟨b, rest, rfl⟩ := List.exists_cons_of_ne_nil hs
    exact ⟨_, [b], rest, rfl, by simp, .code hopens⟩

/-! ## What the scanner reads alike -/

/-- The scanner takes the token for what it is to PostgreSQL.  A string has no
escaped quote, a line comment ends with a newline, a block comment at its first
closing, a dollar quote has an ASCII tag or nothing opens in it, and neither does
anything in an identifier or after the name of a placeholder. -/
inductive ReadAlike : TokenKind → List UInt8 → List UInt8 → Prop where
  | quoted {q : UInt8} {body rest : List UInt8} (hq : q = '\''.toUInt8 ∨ q = '"'.toUInt8)
      (hbody : QuotedBody q (fun _ => False) body) : ReadAlike .quoted (q :: body ++ [q]) rest
  | openQuoted {q : UInt8} {body : List UInt8} (hq : q = '\''.toUInt8 ∨ q = '"'.toUInt8)
      (hbody : QuotedBody q (fun _ => False) body) : ReadAlike .quoted (q :: body) []
  | escapeString {e : UInt8} {t rest : List UInt8} (he : isEscapeLetter e = true)
      (h : ReadAlike .quoted t rest) : ReadAlike .quoted (e :: t) rest
  | identifier {t rest : List UInt8} (hinert : Inert t rest) : ReadAlike .identifier t rest
  | lineComment {t rest : List UInt8}
      (hend : rest = [] ∨ ∃ s, rest = '\n'.toUInt8 :: s ∨ rest = '\r'.toUInt8 :: '\n'.toUInt8 :: s) :
      ReadAlike .comment ('-'.toUInt8 :: t) rest
  | blockComment {body rest : List UInt8} (hbody : Closes ['*'.toUInt8, '/'.toUInt8] body) :
      ReadAlike .comment
        ('/'.toUInt8 :: '*'.toUInt8 :: (body ++ ['*'.toUInt8, '/'.toUInt8])) rest
  | openBlockComment {body : List UInt8} (hbody : ¬ ['*'.toUInt8, '/'.toUInt8] <:+: body) :
      ReadAlike .comment ('/'.toUInt8 :: '*'.toUInt8 :: body) []
  | dollarQuoted {tag body rest : List UInt8} (htag : IsDollarTag tag) (hbody : Closes tag body) :
      ReadAlike .dollarQuoted (tag ++ (body ++ tag)) rest
  | openDollarQuoted {tag body : List UInt8} (htag : IsDollarTag tag) (hbody : ¬ tag <:+: body) :
      ReadAlike .dollarQuoted (tag ++ body) []
  | inertDollarQuoted {t rest : List UInt8} (hinert : Inert t rest) :
      ReadAlike .dollarQuoted t rest
  | cast {t rest : List UInt8} : ReadAlike .cast t rest
  | param {t rest : List UInt8} (hinert : Inert (t.tail.dropWhile isParamContinue) rest) :
      ReadAlike .param t rest
  | code {t rest : List UInt8} : ReadAlike .code t rest

/-- As long as a colon before a name is still to come, the scanner takes every token
for what it is to PostgreSQL. -/
def AllReadAlike (ts : List (TokenKind × List UInt8)) : Prop :=
  Foundation.AllAlike MayName ReadAlike ts

/-- A letter of a string with escapes opens nothing for the scanner. -/
theorem not_opens_of_isEscapeLetter {e : UInt8} (he : isEscapeLetter e = true)
    (rest : List UInt8) : ¬ WpKnowledge.Opens (e :: rest) := by
  intro h
  obtain ⟨b, rest', heq, hb⟩ := h.head
  obtain ⟨rfl, -⟩ := List.cons.inj heq
  rcases hb with rfl | rfl | rfl | rfl | rfl | rfl <;> exact absurd he (by decide)

/-- A quoted piece that is read alike is copied. -/
theorem ReadAlike.copies_quoted {q : UInt8} {s rest : List UInt8}
    (h : ReadAlike .quoted (q :: s) rest) (hq : q = '\''.toUInt8 ∨ q = '"'.toUInt8)
    (hrest : rest.head? ≠ some q) : Copies (q :: s) rest := by
  generalize ht : q :: s = t at h
  cases h with
  | quoted _ hbody =>
      cases ht
      exact WpKnowledge.copies_quoted hq hbody hrest
  | openQuoted _ hbody =>
      cases ht
      exact copies_openQuoted hq hbody
  | escapeString he _ =>
      cases ht
      rcases hq with rfl | rfl <;> exact absurd he (by decide)

/-- A string with escapes that is read alike is copied. -/
theorem ReadAlike.copies_escapeString {e : UInt8} {s rest : List UInt8}
    (h : ReadAlike .quoted (e :: '\''.toUInt8 :: s) rest) (he : isEscapeLetter e = true)
    (hrest : rest.head? ≠ some '\''.toUInt8) : Copies (e :: '\''.toUInt8 :: s) rest := by
  generalize ht : e :: '\''.toUInt8 :: s = t at h
  cases h with
  | quoted hq _ =>
      obtain ⟨rfl, -⟩ := List.cons.inj ht
      rcases hq with rfl | rfl <;> exact absurd he (by decide)
  | openQuoted hq _ =>
      obtain ⟨rfl, -⟩ := List.cons.inj ht
      rcases hq with rfl | rfl <;> exact absurd he (by decide)
  | escapeString _ h =>
      cases ht
      have hletter : Copies [e] ('\''.toUInt8 :: s ++ rest) :=
        copies_byte (not_opens_of_isEscapeLetter he _)
      exact hletter.append (h.copies_quoted (.inl rfl) hrest)

/-- A byte that ends a line opens nothing for the scanner. -/
theorem not_opens_of_isLineEnd {b : UInt8} (hb : isLineEnd b = true) (rest : List UInt8) :
    ¬ WpKnowledge.Opens (b :: rest) := by
  intro h
  obtain ⟨c, rest', heq, hc⟩ := h.head
  obtain ⟨rfl, -⟩ := List.cons.inj heq
  rcases hc with rfl | rfl | rfl | rfl | rfl | rfl <;> exact absurd hb (by decide)

/-- The newline closes a text that has none. -/
theorem closes_newline {body : List UInt8} (h : '\n'.toUInt8 ∉ body) :
    Closes ['\n'.toUInt8] body := by
  rwa [Closes, List.dropLast_concat, List.singleton_infix_iff]

/-- A line comment that is read alike is copied. -/
theorem ReadAlike.copies_lineComment {body rest : List UInt8}
    (h : ReadAlike .comment ('-'.toUInt8 :: '-'.toUInt8 :: body) rest)
    (hbody : ∀ b ∈ body, isLineEnd b = false) :
    Copies ('-'.toUInt8 :: '-'.toUInt8 :: body) rest := by
  have hnone : '\n'.toUInt8 ∉ body := fun hmem => absurd (hbody _ hmem) (by decide)
  generalize ht : '-'.toUInt8 :: '-'.toUInt8 :: body = t at h
  cases h with
  | lineComment hend =>
      rw [← ht]
      rcases hend with rfl | ⟨s, rfl | rfl⟩
      · exact copies_openLineComment (by rwa [List.singleton_infix_iff])
      · exact (WpKnowledge.copies_lineComment (closes_newline hnone) s).of_append
          (u := ['\n'.toUInt8]) (copies_byte (not_opens_of_isLineEnd (by decide) s))
      · -- the scanner takes the carriage return into the comment
        have hreturn : '\n'.toUInt8 ∉ body ++ ['\r'.toUInt8] := by
          rw [List.mem_append, List.mem_singleton]
          rintro (hmem | heq)
          · exact hnone hmem
          · exact absurd heq (by decide)
        have hline := WpKnowledge.copies_lineComment (closes_newline hreturn) s
        rw [List.append_assoc] at hline
        have hfirst : Copies ['\r'.toUInt8] ('\n'.toUInt8 :: s) :=
          copies_byte (not_opens_of_isLineEnd (by decide) _)
        have hsecond : Copies ['\n'.toUInt8] s :=
          copies_byte (not_opens_of_isLineEnd (by decide) _)
        exact hline.of_append (t := '-'.toUInt8 :: '-'.toUInt8 :: body)
          (hfirst.append (u := ['\n'.toUInt8]) hsecond)
  | blockComment => exact absurd (List.cons.inj ht).1 (by decide)
  | openBlockComment => exact absurd (List.cons.inj ht).1 (by decide)

/-- A block comment that is read alike is copied. -/
theorem ReadAlike.copies_blockComment {s rest : List UInt8}
    (h : ReadAlike .comment ('/'.toUInt8 :: s) rest) : Copies ('/'.toUInt8 :: s) rest := by
  generalize ht : '/'.toUInt8 :: s = t at h
  cases h with
  | lineComment => exact absurd (List.cons.inj ht).1 (by decide)
  | blockComment hbody => exact WpKnowledge.copies_blockComment hbody rest
  | openBlockComment hbody => exact copies_openBlockComment hbody

/-- A dollar quote that is read alike is copied. -/
theorem ReadAlike.copies_dollarQuoted {t rest : List UInt8}
    (h : ReadAlike .dollarQuoted t rest) : Copies t rest := by
  cases h with
  | dollarQuoted htag hbody => exact WpKnowledge.copies_dollarQuoted htag hbody rest
  | openDollarQuoted htag hbody => exact copies_openDollarQuoted htag hbody
  | inertDollarQuoted hinert => exact copies_of_inert hinert

/-- An identifier that is read alike is copied. -/
theorem ReadAlike.copies_identifier {t rest : List UInt8} (h : ReadAlike .identifier t rest) :
    Copies t rest := by
  cases h with
  | identifier hinert => exact copies_of_inert hinert

/-- A tag for the scanner is one for PostgreSQL. -/
theorem isTag_of_isDollarTag {tag : List UInt8} (h : IsDollarTag tag) : IsTag tag := by
  have hstart : ∀ b, isDollarTagStart b = true → isIdentStart b = true := by
    intro b hb
    rw [isDollarTagStart] at hb
    rw [isIdentStart, hb, Bool.true_or]
  cases h with
  | anonymous => exact .anonymous
  | named ha hs =>
      refine .named (hstart _ ha) ?_
      intro b hb
      have hcontinue := hs b hb
      rw [isDollarTagContinue, Bool.or_eq_true] at hcontinue
      rw [isTagContinue, Bool.or_eq_true]
      exact hcontinue.imp_left (hstart b)

/-- What opens for the scanner opens for PostgreSQL. -/
theorem opens_of_opens {s : List UInt8} (h : WpKnowledge.Opens s) : Opens s := by
  cases h with
  | quote hq => exact .quote hq
  | lineComment => exact .lineComment
  | blockComment => exact .blockComment
  | dollarQuote htag => exact .dollarQuote (isTag_of_isDollarTag htag)
  | cast => exact .cast
  | param ha => exact .param ha

/-- A byte of a name is one of an identifier. -/
theorem isIdentContinue_of_isParamContinue {b : UInt8} (h : isParamContinue b = true) :
    isIdentContinue b = true := by
  rw [isParamContinue, isParamStart] at h
  rw [isIdentContinue, isTagContinue, isIdentStart]
  grind

/-- The scanner finds the placeholder of a colon before a name. -/
theorem ReadAlike.read_param {a : UInt8} {s rest : List UInt8}
    (h : ReadAlike .param (':'.toUInt8 :: a :: s) rest) (ha : isParamStart a = true)
    (hrest : ∀ b ∈ rest.head?, isIdentContinue b = false) (i : Nat) :
    (lexemesFrom i (':'.toUInt8 :: a :: s ++ rest) none).filterMap Lexeme.occurrence? =
      tokenPlaceholder i .param (':'.toUInt8 :: a :: s) ++
        (lexemesFrom (i + (':'.toUInt8 :: a :: s).length) rest none).filterMap
          Lexeme.occurrence? := by
  have hcontinue : isParamContinue a = true := by rw [isParamContinue, ha, Bool.true_or]
  obtain ⟨name, tail, rfl, hname, htail⟩ := Foundation.exists_longest_run isParamContinue s
  have hafter : ∀ b ∈ (tail ++ rest).head?, isParamContinue b = false := by
    intro b hb
    cases tail with
    | nil =>
        by_contra hcon
        have hident := isIdentContinue_of_isParamContinue (Bool.not_eq_false _ ▸ hcon)
        rw [hrest b hb] at hident
        cases hident
    | cons c tail => exact htail b hb
  have htake : (a :: (name ++ tail)).takeWhile isParamContinue = a :: name := by
    rw [List.takeWhile_cons_of_pos hcontinue, Foundation.takeWhile_append_of_head? hname htail]
  have hdrop : (a :: (name ++ tail)).dropWhile isParamContinue = tail := by
    have hsplit := List.takeWhile_append_dropWhile (p := isParamContinue) (l := a :: (name ++ tail))
    rw [htake, ← List.cons_append] at hsplit
    exact List.append_cancel_left hsplit
  have hinert : Inert tail rest := by
    cases h with
    | param hinert => rwa [List.tail_cons, hdrop] at hinert
  have hstep := occurrences_param ha hname hafter i
  rw [(copies_of_inert hinert).occurrences_eq] at hstep
  have hsame : tokenPlaceholder i .param (':'.toUInt8 :: a :: (name ++ tail)) =
      tokenPlaceholder i .param (':'.toUInt8 :: a :: name) := by
    have hself : (a :: name).takeWhile isParamContinue = a :: name := by
      rw [← htake, List.takeWhile_takeWhile]
      simp
    rw [tokenPlaceholder, tokenPlaceholder, List.tail_cons, List.tail_cons, htake, hself]
  rw [hsame, List.cons_append, List.cons_append, List.append_assoc]
  rw [List.cons_append, List.cons_append] at hstep
  rw [hstep]
  simp [Nat.add_assoc, Nat.add_comm, Nat.add_left_comm]

/-- The scanner reads the next token as PostgreSQL does. -/
theorem Token.read {m : Mode} {k : TokenKind} {t rest : List UInt8} (h : Token m k t rest)
    (halike : ReadAlike k t rest) (i : Nat) :
    (lexemesFrom i (t ++ rest) none).filterMap Lexeme.occurrence? = tokenPlaceholder i k t ++
      (lexemesFrom (i + t.length) rest none).filterMap Lexeme.occurrence? := by
  cases h with
  | quoted hbody hrest => exact (halike.copies_quoted (.inl rfl) hrest).occurrences_eq i
  | openQuoted hbody => exact (halike.copies_quoted (.inl rfl) (by simp)).occurrences_eq i
  | escapeString he hbody hrest => exact (halike.copies_escapeString he hrest).occurrences_eq i
  | openEscapeString he hbody =>
      exact (halike.copies_escapeString he (by simp)).occurrences_eq i
  | quotedIdentifier hbody hrest =>
      exact (WpKnowledge.copies_quoted (.inr rfl) hbody hrest).occurrences_eq i
  | openQuotedIdentifier hbody => exact (copies_openQuoted (.inr rfl) hbody).occurrences_eq i
  | identifier ha hs hrest hescape => exact halike.copies_identifier.occurrences_eq i
  | lineComment hbody hrest => exact (halike.copies_lineComment hbody).occurrences_eq i
  | blockComment h => exact halike.copies_blockComment.occurrences_eq i
  | dollarQuoted htag hbody => exact halike.copies_dollarQuoted.occurrences_eq i
  | openDollarQuoted htag hbody => exact halike.copies_dollarQuoted.occurrences_eq i
  | cast => exact (copies_cast rest).occurrences_eq i
  | param ha hs hrest => exact halike.read_param ha hrest i
  | code h => exact (copies_byte fun hopens => h (opens_of_opens hopens)).occurrences_eq i

/-- A placeholder of PostgreSQL has a colon before its name. -/
theorem Token.mayName {m : Mode} {t rest : List UInt8} (h : Token m .param t rest) :
    MayName (t ++ rest) := by
  cases h with
  | @param a s _ ha hs hrest =>
      have hpre : [':'.toUInt8, a] <+: ':'.toUInt8 :: a :: s ++ rest := by simp
      exact ⟨a, ha, hpre.isInfix⟩

/-- The scanner finds the placeholders in code. -/
theorem occurrences_eq {sql : String} {ts : List (TokenKind × List UInt8)}
    (h : ModalTokens Token nextMode .normal sql.toUTF8.toList ts) (halike : AllReadAlike ts) :
    occurrences sql = tokenPlaceholders ts :=
  occurrences_eq_of_tokens h halike
    (fun _ i _ _ _ hcut halike => hcut.read halike i) fun _ _ _ hcut => hcut.mayName

end Postgres

/-! ## What the rewriting for PostgreSQL replaces -/

/-- **The lexical rules of PostgreSQL.**  Every statement is cut up into tokens of
PostgreSQL.  If the scanner takes them for what they are, up to the last colon
before a name, then the rewriting asks for a parameter for each of the
placeholders in code, and replaces these and no others. -/
theorem postgres_replaces_code_placeholders (sql : String) :
    (∃ ts, ModalTokens Postgres.Token Postgres.nextMode .normal sql.toUTF8.toList ts) ∧
      ∀ ts, ModalTokens Postgres.Token Postgres.nextMode .normal sql.toUTF8.toList ts →
        Postgres.AllReadAlike ts →
        ∀ params,
          ((∃ r, Postgres.rewriteSql sql params = .ok r) ↔
            ∀ o ∈ tokenPlaceholders ts, ∃ p ∈ params, normalizeParamName p.getName = o.2) ∧
          ∀ out ordered, Postgres.rewriteSql sql params = .ok (out, ordered) →
            ∃ r, Postgres.dialect.rewrite sql params = .ok r ∧ r.text = out ∧
              r.ordered = ordered ∧ r.occurrences = tokenPlaceholders ts := by
  refine ⟨Foundation.exists_modalTokens Postgres.exists_token _ _, ?_⟩
  intro ts hts halike params
  rw [← Postgres.occurrences_eq hts halike]
  constructor
  · simp only [Postgres.exists_rewriteSql_eq_ok_iff, isSome_lookup_paramsByName]
  · intro out ordered h
    obtain ⟨r, hr, htext, hordered⟩ := Postgres.exists_rewritten_of_rewriteSql h
    exact ⟨r, hr, htext, hordered, Dialect.occurrences_eq hr⟩

/-- A string with escapes that has none and a placeholder after it are read alike. -/
theorem postgres_replaces_code_placeholders_after_string :
    ∃ ts r, ModalTokens Postgres.Token Postgres.nextMode .normal "E':b':id".toUTF8.toList ts ∧
      Postgres.dialect.rewrite "E':b':id" [.fromInt "id" 7] = .ok r ∧
      r.text = "E':b'$1" ∧ r.occurrences = tokenPlaceholders ts := by
  have hbytes : "E':b':id".toUTF8.toList = [69, 39, 58, 98, 39] ++ ([58, 105, 100] ++ []) := by
    rw [Foundation.toList_toUTF8]
    decide
  -- the body of the string, for PostgreSQL and for the scanner
  have hbody : ∀ escapes : UInt8 → Prop, (∀ b, escapes b → b = 92) →
      QuotedBody 39 escapes [58, 98] := by
    intro escapes hescapes
    have hplain : ∀ b, b ≠ 92 → ¬ escapes b := fun b hb h => hb (hescapes b h)
    exact .plain (by decide) (hplain _ (by decide))
      (.plain (by decide) (hplain _ (by decide)) .nil)
  have hts : ModalTokens Postgres.Token Postgres.nextMode .normal "E':b':id".toUTF8.toList
      [(.quoted, [69, 39, 58, 98, 39]), (.param, [58, 105, 100])] := by
    rw [hbytes]
    have he : Postgres.isEscapeLetter 69 = true := by decide
    refine .cons (by simp) (.escapeString he
      (hbody Postgres.IsEscape fun b hb => hb) (by decide)) ?_
    exact .cons (by simp) (.param (by decide) (List.forall_mem_singleton.mpr (by decide)) (by simp)) .nil
  have halike : Postgres.AllReadAlike
      [(.quoted, [69, 39, 58, 98, 39]), (.param, [58, 105, 100])] := by
    refine ⟨fun _ => ?_, fun _ => .param ?_, trivial⟩
    · exact .escapeString (by decide) (.quoted (.inl rfl) (hbody _ fun b hb => hb.elim))
    · intro s hs hsuffix
      exact absurd (List.suffix_nil.mp hsuffix) hs
  have hok : (Postgres.rewriteSql "E':b':id" [.fromInt "id" 7]).toOption.map Prod.fst =
      some "E':b'$1" := by
    decide +kernel
  obtain ⟨⟨out, ordered⟩, hok, hout⟩ := Option.map_eq_some_iff.mp hok
  have hout : out = "E':b'$1" := hout
  obtain ⟨r, hr, htext, -, hocc⟩ :=
    ((postgres_replaces_code_placeholders "E':b':id").2 _ hts halike
      [.fromInt "id" 7]).2 out ordered (Foundation.toOption_eq_some_iff.mp hok)
  exact ⟨_, r, hts, hr, htext.trans hout, hocc⟩

/-- In a comment a placeholder after a nested comment is replaced. -/
theorem postgres_nested_comment :
    ∃ ts r, ModalTokens Postgres.Token Postgres.nextMode .normal "/*/**/:a*/".toUTF8.toList ts ∧
      Postgres.dialect.rewrite "/*/**/:a*/" [.fromInt "a" 7] = .ok r ∧
      r.occurrences = [(6, ":a")] ∧ tokenPlaceholders ts = [] := by
  have hbytes : "/*/**/:a*/".toUTF8.toList = [47, 42, 47, 42, 42, 47, 58, 97, 42, 47] ++ [] := by
    rw [Foundation.toList_toUTF8]
    decide
  have hnests : Postgres.Nests 1 [47, 42, 42, 47, 58, 97, 42, 47] [] :=
    .opening (.closing (.other (by decide) (by decide)
      (.other (by decide) (by decide) (.closing .done))))
  have hts : ModalTokens Postgres.Token Postgres.nextMode .normal "/*/**/:a*/".toUTF8.toList
      [(.comment, [47, 42, 47, 42, 42, 47, 58, 97, 42, 47])] := by
    rw [hbytes]
    exact .cons (by simp) (.blockComment hnests) .nil
  have hone : occurrences "/*/**/:a*/" = [(6, ":a")] := by
    decide +kernel
  have hparam : ∀ o ∈ occurrences "/*/**/:a*/",
      ((paramsByName [.fromInt "a" 7]).lookup o.2).isSome := by
    intro o ho
    rw [hone, List.mem_singleton] at ho
    rw [ho, isSome_lookup_paramsByName]
    exact ⟨_, List.mem_singleton_self _, by decide⟩
  have hok : ∃ r, Postgres.dialect.rewrite "/*/**/:a*/" [.fromInt "a" 7] = .ok r :=
    Dialect.exists_rewrite_eq_ok_iff.mpr hparam
  obtain ⟨r, hr⟩ := hok
  refine ⟨_, r, hts, hr, (Dialect.occurrences_eq hr).trans hone, ?_⟩
  decide

end WpKnowledge
