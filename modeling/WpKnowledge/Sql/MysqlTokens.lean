import WpKnowledge.Foundation.Utf8
import WpKnowledge.Sql.Binding
import WpKnowledge.Sql.Lexical

/-!
# The tokens of MySQL

The MySQL rewriting uses the scanner of the PostgreSQL rewriting.  This file says
what the tokens of a statement are for MySQL itself: strings in single or double
quotes in which a quote is doubled or escaped by a backslash, identifiers in
backticks, comments after a hash, after two dashes that a space or control
character follows, and between `/*` and `*/`.  A `$` is a byte like any other.

Main results:

- Theorem {lit}`Mysql.Token.read`: the scanner reads a token as MySQL does if it is
  {lit}`ReadAlike`.
- Theorem {lit}`mysql_replaces_code_placeholders`: if all tokens up to the last colon
  before a name are, the placeholders in code are replaced and no others.
-/

namespace WpKnowledge

open Foundation (Closes QuotedBody OpenBody Tokens)

namespace Mysql

/-! ## The rules of the engine -/

/-- The byte identifiers are quoted with. -/
def backtick : UInt8 := 96

/-- The bytes that make two dashes before them a comment. -/
def isSpaceOrControl (byte : UInt8) : Bool :=
  byte ≤ 32 || byte == 127

/-- The byte that escapes the next one in a string. -/
def IsEscape (byte : UInt8) : Prop :=
  byte = '\\'.toUInt8

/-- At the front of the text there is more than a byte of code. -/
inductive Opens : List UInt8 → Prop where
  | quote {q : UInt8} {rest : List UInt8} (hq : q = '\''.toUInt8 ∨ q = '"'.toUInt8) :
      Opens (q :: rest)
  | backtick {rest : List UInt8} : Opens (backtick :: rest)
  | hash {rest : List UInt8} : Opens ('#'.toUInt8 :: rest)
  | dashes {rest : List UInt8} (hspace : ∀ b ∈ rest.head?, isSpaceOrControl b = true) :
      Opens ('-'.toUInt8 :: '-'.toUInt8 :: rest)
  | blockComment {rest : List UInt8} : Opens ('/'.toUInt8 :: '*'.toUInt8 :: rest)
  | param {a : UInt8} {rest : List UInt8} (ha : isParamStart a = true) :
      Opens (':'.toUInt8 :: a :: rest)

/-- A piece of a statement in front of the rest of it is a token of MySQL. -/
inductive Token : TokenKind → List UInt8 → List UInt8 → Prop where
  | quoted {q : UInt8} {body rest : List UInt8} (hq : q = '\''.toUInt8 ∨ q = '"'.toUInt8)
      (hbody : QuotedBody q IsEscape body) (hrest : rest.head? ≠ some q) :
      Token .quoted (q :: body ++ [q]) rest
  | openQuoted {q : UInt8} {body : List UInt8} (hq : q = '\''.toUInt8 ∨ q = '"'.toUInt8)
      (hbody : OpenBody q IsEscape body) : Token .quoted (q :: body) []
  | identifier {body rest : List UInt8} (hbody : QuotedBody backtick (fun _ => False) body)
      (hrest : rest.head? ≠ some backtick) :
      Token .identifier (backtick :: body ++ [backtick]) rest
  | openIdentifier {body : List UInt8} (hbody : QuotedBody backtick (fun _ => False) body) :
      Token .identifier (backtick :: body) []
  | hash {body rest : List UInt8} (hbody : Closes ['\n'.toUInt8] body) :
      Token .comment ('#'.toUInt8 :: (body ++ ['\n'.toUInt8])) rest
  | openHash {body : List UInt8} (hbody : ¬ ['\n'.toUInt8] <:+: body) :
      Token .comment ('#'.toUInt8 :: body) []
  | dashes {body rest : List UInt8} (hspace : ∀ b ∈ body.head?, isSpaceOrControl b = true)
      (hbody : Closes ['\n'.toUInt8] body) :
      Token .comment ('-'.toUInt8 :: '-'.toUInt8 :: (body ++ ['\n'.toUInt8])) rest
  | openDashes {body : List UInt8} (hspace : ∀ b ∈ body.head?, isSpaceOrControl b = true)
      (hbody : ¬ ['\n'.toUInt8] <:+: body) :
      Token .comment ('-'.toUInt8 :: '-'.toUInt8 :: body) []
  | blockComment {body rest : List UInt8} (hbody : Closes ['*'.toUInt8, '/'.toUInt8] body) :
      Token .comment ('/'.toUInt8 :: '*'.toUInt8 :: (body ++ ['*'.toUInt8, '/'.toUInt8])) rest
  | openBlockComment {body : List UInt8} (hbody : ¬ ['*'.toUInt8, '/'.toUInt8] <:+: body) :
      Token .comment ('/'.toUInt8 :: '*'.toUInt8 :: body) []
  | param {a : UInt8} {s rest : List UInt8} (ha : isParamStart a = true)
      (hs : ∀ b ∈ s, isParamContinue b = true)
      (hrest : ∀ b ∈ rest.head?, isParamContinue b = false) :
      Token .param (':'.toUInt8 :: a :: s) rest
  | code {b : UInt8} {rest : List UInt8} (h : ¬ Opens (b :: rest)) : Token .code [b] rest

/-- Every text starts with a token of MySQL. -/
theorem exists_token (s : List UInt8) (hs : s ≠ []) :
    ∃ k t rest, s = t ++ rest ∧ t ≠ [] ∧ Token k t rest := by
  by_cases hopens : Opens s
  · cases hopens with
    | @quote q rest hq =>
        rcases Foundation.exists_quoted_or_open q IsEscape rest with
          ⟨body, rest, rfl, hbody, hrest⟩ | hopen
        · exact ⟨_, _, _, by simp, by simp, .quoted hq hbody hrest⟩
        · exact ⟨_, _, _, by simp, by simp, .openQuoted hq hopen⟩
    | @backtick rest =>
        rcases Foundation.exists_quoted_or_open backtick (fun _ => False) rest with
          ⟨body, rest, rfl, hbody, hrest⟩ | hopen
        · exact ⟨_, _, _, by simp, by simp, .identifier hbody hrest⟩
        · exact ⟨_, _, _, by simp, by simp, .openIdentifier hopen.quotedBody⟩
    | @hash rest =>
        rcases Foundation.exists_closed_or_open (List.cons_ne_nil '\n'.toUInt8 []) rest with
          ⟨body, rest, rfl, hbody⟩ | hnone
        · exact ⟨_, _, rest, by simp, by simp, .hash hbody⟩
        · exact ⟨_, _, _, by simp, by simp, .openHash hnone⟩
    | @dashes rest hspace =>
        rcases Foundation.exists_closed_or_open (List.cons_ne_nil '\n'.toUInt8 []) rest with
          ⟨body, rest, rfl, hbody⟩ | hnone
        · have hhead : ∀ b ∈ body.head?, isSpaceOrControl b = true := by
            intro b hb
            obtain ⟨body, rfl⟩ := List.head?_eq_some_iff.mp hb
            exact hspace b rfl
          exact ⟨_, _, rest, by simp, by simp, .dashes hhead hbody⟩
        · exact ⟨_, _, _, by simp, by simp, .openDashes hspace hnone⟩
    | @blockComment rest =>
        rcases Foundation.exists_closed_or_open (List.cons_ne_nil '*'.toUInt8 ['/'.toUInt8])
          rest with ⟨body, rest, rfl, hbody⟩ | hnone
        · exact ⟨_, _, rest, by simp, by simp, .blockComment hbody⟩
        · exact ⟨_, _, _, by simp, by simp, .openBlockComment hnone⟩
    | @param a rest ha =>
        obtain ⟨s, rest, rfl, hs, hrest⟩ := Foundation.exists_longest_run isParamContinue rest
        exact ⟨_, _, rest, by simp, by simp, .param ha hs hrest⟩
  · obtain ⟨b, rest, rfl⟩ := List.exists_cons_of_ne_nil hs
    exact ⟨_, [b], rest, rfl, by simp, .code hopens⟩

/-! ## What the scanner reads alike -/

/-- The scanner takes the token for what it is to MySQL: a string has no escaped
quote of its own kind, nothing opens for the scanner in an identifier, in a
comment after a hash and in code. -/
inductive ReadAlike : TokenKind → List UInt8 → List UInt8 → Prop where
  | quoted {q : UInt8} {body rest : List UInt8} (hbody : QuotedBody q (fun _ => False) body) :
      ReadAlike .quoted (q :: body ++ [q]) rest
  | openQuoted {q : UInt8} {body : List UInt8} (hbody : QuotedBody q (fun _ => False) body) :
      ReadAlike .quoted (q :: body) []
  | identifier {t rest : List UInt8} (hinert : Inert t rest) : ReadAlike .identifier t rest
  | hash {t rest : List UInt8} (hinert : Inert ('#'.toUInt8 :: t) rest) :
      ReadAlike .comment ('#'.toUInt8 :: t) rest
  | dashes {t rest : List UInt8} : ReadAlike .comment ('-'.toUInt8 :: t) rest
  | blockComment {t rest : List UInt8} : ReadAlike .comment ('/'.toUInt8 :: t) rest
  | param {t rest : List UInt8} : ReadAlike .param t rest
  | code {t rest : List UInt8} (hinert : Inert t rest) : ReadAlike .code t rest

/-- As long as a colon before a name is still to come, the scanner takes every token
for what it is to MySQL. -/
def AllReadAlike (ts : List (TokenKind × List UInt8)) : Prop :=
  Foundation.AllAlike MayName ReadAlike ts

/-- The first byte of a string read alike is that of the token. -/
theorem ReadAlike.copies_quoted {q : UInt8} {s rest : List UInt8}
    (h : ReadAlike .quoted (q :: s) rest) (hq : q = '\''.toUInt8 ∨ q = '"'.toUInt8)
    (hrest : rest.head? ≠ some q) : Copies (q :: s) rest := by
  generalize ht : q :: s = t at h
  cases h with
  | quoted hbody =>
      cases ht
      exact WpKnowledge.copies_quoted hq hbody hrest
  | openQuoted hbody =>
      cases ht
      exact copies_openQuoted hq hbody

/-- A comment after a hash that is read alike is copied. -/
theorem ReadAlike.copies_hash {s rest : List UInt8}
    (h : ReadAlike .comment ('#'.toUInt8 :: s) rest) : Copies ('#'.toUInt8 :: s) rest := by
  generalize ht : '#'.toUInt8 :: s = t at h
  cases h with
  | hash hinert => exact copies_of_inert hinert
  | dashes => exact absurd (List.cons.inj ht).1 (by decide)
  | blockComment => exact absurd (List.cons.inj ht).1 (by decide)

/-- What is read alike elsewhere is copied byte for byte. -/
theorem ReadAlike.inert {k : TokenKind} {t rest : List UInt8} (h : ReadAlike k t rest)
    (hk : k = .identifier ∨ k = .code) : Inert t rest := by
  cases h with
  | identifier hinert => exact hinert
  | code hinert => exact hinert
  | _ => simp at hk

/-- The scanner reads the next token as MySQL does. -/
theorem Token.read {k : TokenKind} {t rest : List UInt8} (h : Token k t rest)
    (halike : ReadAlike k t rest) (i : Nat) :
    (lexemesFrom i (t ++ rest) none).filterMap Lexeme.occurrence? = tokenPlaceholder i k t ++
      (lexemesFrom (i + t.length) rest none).filterMap Lexeme.occurrence? := by
  cases h with
  | quoted hq hbody hrest => exact (halike.copies_quoted hq hrest).occurrences_eq i
  | openQuoted hq hbody => exact (halike.copies_quoted hq (by simp)).occurrences_eq i
  | identifier hbody hrest => exact (copies_of_inert (halike.inert (.inl rfl))).occurrences_eq i
  | openIdentifier hbody => exact (copies_of_inert (halike.inert (.inl rfl))).occurrences_eq i
  | hash hbody => exact halike.copies_hash.occurrences_eq i
  | openHash hbody => exact halike.copies_hash.occurrences_eq i
  | dashes hspace hbody => exact (copies_lineComment hbody rest).occurrences_eq i
  | openDashes hspace hbody => exact (copies_openLineComment hbody).occurrences_eq i
  | blockComment hbody => exact (copies_blockComment hbody rest).occurrences_eq i
  | openBlockComment hbody => exact (copies_openBlockComment hbody).occurrences_eq i
  | param ha hs hrest => exact occurrences_param ha hs hrest i
  | code h => exact (copies_of_inert (halike.inert (.inr rfl))).occurrences_eq i

/-- A placeholder of MySQL has a colon before its name. -/
theorem Token.mayName {t rest : List UInt8} (h : Token .param t rest) : MayName (t ++ rest) := by
  cases h with
  | @param a s rest ha hs hrest =>
      have hpre : [':'.toUInt8, a] <+: ':'.toUInt8 :: a :: s ++ rest := by simp
      exact ⟨a, ha, hpre.isInfix⟩

/-- The scanner finds the placeholders in code. -/
theorem occurrences_eq {sql : String} {ts : List (TokenKind × List UInt8)}
    (h : Tokens Token sql.toUTF8.toList ts) (halike : AllReadAlike ts) :
    occurrences sql = tokenPlaceholders ts :=
  occurrences_eq_of_tokens h halike
    (fun _ i _ _ _ hcut halike => hcut.read halike i) fun _ _ _ hcut => hcut.mayName

end Mysql

/-! ## What the rewriting for MySQL replaces -/

/-- **The lexical rules of MySQL.**  Every statement is cut up into tokens of MySQL.
If the scanner takes them for what they are, up to the last colon before a name,
then the rewriting asks for a parameter for each of the placeholders in code, and
replaces these and no others. -/
theorem mysql_replaces_code_placeholders (sql : String) :
    (∃ ts, Tokens Mysql.Token sql.toUTF8.toList ts) ∧
      ∀ ts, Tokens Mysql.Token sql.toUTF8.toList ts → Mysql.AllReadAlike ts →
        ∀ params,
          ((∃ r, Mysql.rewriteSql sql params = .ok r) ↔
            ∀ o ∈ tokenPlaceholders ts, ∃ p ∈ params, normalizeParamName p.getName = o.2) ∧
          ∀ out ordered, Mysql.rewriteSql sql params = .ok (out, ordered) →
            ∃ r, Mysql.dialect.rewrite sql params = .ok r ∧ r.text = out ∧
              r.ordered = ordered ∧ r.occurrences = tokenPlaceholders ts := by
  refine ⟨Foundation.exists_tokens Mysql.exists_token _, ?_⟩
  intro ts hts halike params
  rw [← Mysql.occurrences_eq hts halike]
  constructor
  · simp only [Mysql.exists_rewriteSql_eq_ok_iff, isSome_lookup_paramsByName]
  · intro out ordered h
    obtain ⟨r, hr, htext, hordered⟩ := Mysql.exists_rewritten_of_rewriteSql h
    exact ⟨r, hr, htext, hordered, Dialect.occurrences_eq hr⟩

/-- A string with a doubled quote and a placeholder after it are read alike. -/
theorem mysql_replaces_code_placeholders_after_string :
    ∃ ts r, Tokens Mysql.Token "'a'':b':id".toUTF8.toList ts ∧
      Mysql.dialect.rewrite "'a'':b':id" [.fromInt "id" 7] = .ok r ∧
      r.text = "'a'':b'?" ∧ r.occurrences = tokenPlaceholders ts := by
  have hbytes : "'a'':b':id".toUTF8.toList =
      [39, 97, 39, 39, 58, 98, 39] ++ ([58, 105, 100] ++ []) := by
    rw [Foundation.toList_toUTF8]
    decide
  -- the body of the string, for MySQL and for the scanner
  have hbody : ∀ escapes : UInt8 → Prop, (∀ b, escapes b → b = 92) →
      QuotedBody 39 escapes [97, 39, 39, 58, 98] := by
    intro escapes hescapes
    have hplain : ∀ b, b ≠ 92 → ¬ escapes b := fun b hb h => hb (hescapes b h)
    exact .plain (by decide) (hplain _ (by decide)) (.doubled (.plain (by decide)
      (hplain _ (by decide)) (.plain (by decide) (hplain _ (by decide)) .nil)))
  have hts : Tokens Mysql.Token "'a'':b':id".toUTF8.toList
      [(.quoted, [39, 97, 39, 39, 58, 98, 39]), (.param, [58, 105, 100])] := by
    rw [hbytes]
    refine .cons (by simp) (.quoted (.inl rfl) (hbody Mysql.IsEscape fun b hb => hb) (by decide)) ?_
    exact .cons (by simp) (.param (by decide) (List.forall_mem_singleton.mpr (by decide)) (by simp)) .nil
  have halike : Mysql.AllReadAlike
      [(.quoted, [39, 97, 39, 39, 58, 98, 39]), (.param, [58, 105, 100])] := by
    refine ⟨fun _ => ?_, fun _ => .param, trivial⟩
    exact .quoted (hbody _ fun b hb => hb.elim)
  have hok : (Mysql.rewriteSql "'a'':b':id" [.fromInt "id" 7]).toOption.map Prod.fst =
      some "'a'':b'?" := by
    decide +kernel
  obtain ⟨⟨out, ordered⟩, hok, hout⟩ := Option.map_eq_some_iff.mp hok
  have hout : out = "'a'':b'?" := hout
  obtain ⟨r, hr, htext, -, hocc⟩ := ((mysql_replaces_code_placeholders "'a'':b':id").2 _ hts halike
    [.fromInt "id" 7]).2 out ordered (Foundation.toOption_eq_some_iff.mp hok)
  exact ⟨_, r, hts, hr, htext.trans hout, hocc⟩

/-- The apostrophe in a comment hides the placeholder after it. -/
theorem mysql_hash_comment_apostrophe :
    ∃ ts r, Tokens Mysql.Token "#'\n:id".toUTF8.toList ts ∧
      Mysql.dialect.rewrite "#'\n:id" [.fromInt "id" 7] = .ok r ∧
      r.occurrences = [] ∧ tokenPlaceholders ts = [(3, ":id")] := by
  have hbytes : "#'\n:id".toUTF8.toList = [35, 39, 10] ++ ([58, 105, 100] ++ []) := by
    rw [Foundation.toList_toUTF8]
    decide
  have hts : Tokens Mysql.Token "#'\n:id".toUTF8.toList
      [(.comment, [35, 39, 10]), (.param, [58, 105, 100])] := by
    rw [hbytes]
    have hcloses : Closes ['\n'.toUInt8] [39] := by
      rw [Closes]
      decide
    refine .cons (by simp) (.hash hcloses) ?_
    exact .cons (by simp) (.param (by decide) (List.forall_mem_singleton.mpr (by decide)) (by simp)) .nil
  have hnone : occurrences "#'\n:id" = [] := by
    decide +kernel
  have hok : ∃ r, Mysql.dialect.rewrite "#'\n:id" [.fromInt "id" 7] = .ok r :=
    Dialect.exists_rewrite_eq_ok_iff.mpr fun o ho => absurd (hnone ▸ ho) List.not_mem_nil
  obtain ⟨r, hr⟩ := hok
  refine ⟨_, r, hts, hr, (Dialect.occurrences_eq hr).trans hnone, ?_⟩
  decide

end WpKnowledge
