import WpKnowledge.Foundation.Numbering
import WpKnowledge.Sql.Binding
import WpKnowledge.Sql.Lexical

/-!
# Binding by rank

Which placeholders of a statement the PostgreSQL rewriting replaces, and what each
is bound to, for any statement, malformed ones included.

{lit}`PlaceholderToken` says what the tokens of a statement are by their form:
quoted text, comments, dollar quotes, casts, placeholders, and single bytes of
code.  A region that is not closed reaches to the end.

Main results:

- Theorem {lit}`occurrences_eq_tokenPlaceholders`: the scanner finds the placeholders
  of the tokens.
- Theorem {lit}`postgres_binds_by_rank`: each is emitted with the rank of its name, and
  bound to the last parameter of that name.
-/

namespace WpKnowledge

open Foundation (Closes QuotedBody Tokens distinct rank)

/-! ## The tokens -/

/-- A piece of a statement in front of the rest of it is a token. -/
inductive PlaceholderToken : TokenKind → List UInt8 → List UInt8 → Prop where
  | quoted {q : UInt8} {body rest : List UInt8} (hq : q = '\''.toUInt8 ∨ q = '"'.toUInt8)
      (hbody : QuotedBody q (fun _ => False) body) (hrest : rest.head? ≠ some q) :
      PlaceholderToken .quoted (q :: body ++ [q]) rest
  | openQuoted {q : UInt8} {body : List UInt8} (hq : q = '\''.toUInt8 ∨ q = '"'.toUInt8)
      (hbody : QuotedBody q (fun _ => False) body) : PlaceholderToken .quoted (q :: body) []
  | lineComment {body rest : List UInt8} (hbody : Closes ['\n'.toUInt8] body) :
      PlaceholderToken .comment ('-'.toUInt8 :: '-'.toUInt8 :: (body ++ ['\n'.toUInt8])) rest
  | openLineComment {body : List UInt8} (hbody : ¬ ['\n'.toUInt8] <:+: body) :
      PlaceholderToken .comment ('-'.toUInt8 :: '-'.toUInt8 :: body) []
  | blockComment {body rest : List UInt8} (hbody : Closes ['*'.toUInt8, '/'.toUInt8] body) :
      PlaceholderToken .comment
        ('/'.toUInt8 :: '*'.toUInt8 :: (body ++ ['*'.toUInt8, '/'.toUInt8])) rest
  | openBlockComment {body : List UInt8} (hbody : ¬ ['*'.toUInt8, '/'.toUInt8] <:+: body) :
      PlaceholderToken .comment ('/'.toUInt8 :: '*'.toUInt8 :: body) []
  | dollarQuoted {tag body rest : List UInt8} (htag : IsDollarTag tag) (hbody : Closes tag body) :
      PlaceholderToken .dollarQuoted (tag ++ (body ++ tag)) rest
  | openDollarQuoted {tag body : List UInt8} (htag : IsDollarTag tag) (hbody : ¬ tag <:+: body) :
      PlaceholderToken .dollarQuoted (tag ++ body) []
  | cast {rest : List UInt8} : PlaceholderToken .cast [':'.toUInt8, ':'.toUInt8] rest
  | param {a : UInt8} {s rest : List UInt8} (ha : isParamStart a = true)
      (hs : ∀ b ∈ s, isParamContinue b = true)
      (hrest : ∀ b ∈ rest.head?, isParamContinue b = false) :
      PlaceholderToken .param (':'.toUInt8 :: a :: s) rest
  | code {b : UInt8} {rest : List UInt8} (h : ¬ Opens (b :: rest)) : PlaceholderToken .code [b] rest

/-- Every text starts with a token. -/
theorem exists_placeholderToken (s : List UInt8) (hs : s ≠ []) :
    ∃ k t rest, s = t ++ rest ∧ t ≠ [] ∧ PlaceholderToken k t rest := by
  by_cases hopens : Opens s
  · cases hopens with
    | @quote q rest hq =>
        rcases Foundation.exists_quoted_or_open q (fun _ => False) rest with
          ⟨body, rest, rfl, hbody, hrest⟩ | hopen
        · exact ⟨_, _, _, by simp, by simp, .quoted hq hbody hrest⟩
        · exact ⟨_, _, _, by simp, by simp, .openQuoted hq hopen.quotedBody⟩
    | @lineComment rest =>
        rcases Foundation.exists_closed_or_open (List.cons_ne_nil '\n'.toUInt8 []) rest with
          ⟨body, rest, rfl, hbody⟩ | hnone
        · exact ⟨_, _, rest, by simp, by simp, .lineComment hbody⟩
        · exact ⟨_, _, _, by simp, by simp, .openLineComment hnone⟩
    | @blockComment rest =>
        rcases Foundation.exists_closed_or_open (List.cons_ne_nil '*'.toUInt8 ['/'.toUInt8])
          rest with ⟨body, rest, rfl, hbody⟩ | hnone
        · exact ⟨_, _, rest, by simp, by simp, .blockComment hbody⟩
        · exact ⟨_, _, _, by simp, by simp, .openBlockComment hnone⟩
    | @dollarQuote tag rest htag =>
        rcases Foundation.exists_closed_or_open htag.ne_nil rest with
          ⟨body, rest, rfl, hbody⟩ | hnone
        · exact ⟨_, _, rest, by simp, by simp [htag.ne_nil], .dollarQuoted htag hbody⟩
        · exact ⟨_, _, [], by simp, by simp [htag.ne_nil], .openDollarQuoted htag hnone⟩
    | @cast rest => exact ⟨_, _, rest, by simp, by simp, .cast⟩
    | @param a rest ha =>
        obtain ⟨s, rest, rfl, hs, hrest⟩ := Foundation.exists_longest_run isParamContinue rest
        exact ⟨_, _, rest, by simp, by simp, .param ha hs hrest⟩
  · obtain ⟨b, rest, rfl⟩ := List.exists_cons_of_ne_nil hs
    exact ⟨_, [b], rest, rfl, by simp, .code hopens⟩

/-- The scanner reads the next token. -/
theorem PlaceholderToken.read {k : TokenKind} {t rest : List UInt8}
    (h : PlaceholderToken k t rest) (i : Nat) :
    (lexemesFrom i (t ++ rest) none).filterMap Lexeme.occurrence? = tokenPlaceholder i k t ++
      (lexemesFrom (i + t.length) rest none).filterMap Lexeme.occurrence? := by
  cases h with
  | quoted hq hbody hrest => exact (copies_quoted hq hbody hrest).occurrences_eq i
  | openQuoted hq hbody => exact (copies_openQuoted hq hbody).occurrences_eq i
  | lineComment hbody => exact (copies_lineComment hbody rest).occurrences_eq i
  | openLineComment hbody => exact (copies_openLineComment hbody).occurrences_eq i
  | blockComment hbody => exact (copies_blockComment hbody rest).occurrences_eq i
  | openBlockComment hbody => exact (copies_openBlockComment hbody).occurrences_eq i
  | dollarQuoted htag hbody => exact (copies_dollarQuoted htag hbody rest).occurrences_eq i
  | openDollarQuoted htag hbody => exact (copies_openDollarQuoted htag hbody).occurrences_eq i
  | cast => exact (copies_cast rest).occurrences_eq i
  | param ha hs hrest => exact occurrences_param ha hs hrest i
  | code h => exact (copies_byte h).occurrences_eq i

/-- The scanner finds the placeholders of the tokens. -/
theorem occurrences_eq_tokenPlaceholders {sql : String} {ts : List (TokenKind × List UInt8)}
    (h : Tokens PlaceholderToken sql.toUTF8.toList ts) :
    occurrences sql = tokenPlaceholders ts := by
  have hscan := h.scan_eq (fun i s => (lexemesFrom i s none).filterMap Lexeme.occurrence?)
    tokenPlaceholder (fun _ => True) (fun _ _ _ => True) (by simp [lexemesFrom])
    (fun _ i k t rest hcut _ => hcut.read i) (fun i s hdead => absurd trivial hdead)
    (fun _ i k t rest _ hdead => absurd trivial hdead) (fun _ _ _ => trivial)
    (Foundation.allAlike_of_forall (fun _ _ _ => trivial) ts)
  exact hscan 0

/-! ## The ranks of names -/

/-- The names of placeholders, in order. -/
def namesOf (os : List (Nat × String)) : List String :=
  os.map Prod.snd

/-- What the PostgreSQL scanner has done after some lexemes: a name has its rank as
its number, the fields are those of the distinct names, and the markers are the
ranks. -/
structure Postgres.RankInv (byName : HashMap String DataField) (ls : List Lexeme)
    (s : List Piece × Binds) : Prop where
  numbered : ∀ name, s.2.assignedNumbers.lookup name =
    if name ∈ namesOf (ls.filterMap Lexeme.occurrence?) then
      some (rank (namesOf (ls.filterMap Lexeme.occurrence?)) name) else none
  ordered : s.2.ordered.map some =
    (distinct (namesOf (ls.filterMap Lexeme.occurrence?))).map fun name => byName.lookup name
  marked : s.1.filterMap Piece.marker? = (namesOf (ls.filterMap Lexeme.occurrence?)).map fun name =>
    .dollar (rank (namesOf (ls.filterMap Lexeme.occurrence?)) name)

/-- A step of the PostgreSQL scanner keeps the invariant. -/
theorem Postgres.RankInv.step {byName : HashMap String DataField} {ls : List Lexeme}
    {s s' : List Piece × Binds} {l : Lexeme} (h : RankInv byName ls s)
    (hstep : emit dialect byName s l = .ok s') : RankInv byName (ls ++ [l]) s' := by
  obtain ⟨b, rfl, rfl⟩ | ⟨start, rawName, field, rfl, hfield, rfl⟩ := emit_cases hstep
  · have hnames : (ls ++ [Lexeme.byte b]).filterMap Lexeme.occurrence? =
        ls.filterMap Lexeme.occurrence? := by
      simp [List.filterMap_cons, Lexeme.occurrence?]
    refine ⟨by simpa only [hnames] using h.numbered, by simpa only [hnames] using h.ordered, ?_⟩
    simpa [hnames, List.filterMap_cons, Piece.marker?] using h.marked
  · obtain ⟨out, binds⟩ := s
    have hnames : namesOf ((ls ++ [Lexeme.param start rawName]).filterMap Lexeme.occurrence?) =
        namesOf (ls.filterMap Lexeme.occurrence?) ++ [rawName] := by
      simp [namesOf, Lexeme.occurrence?]
    have hlookup := h.numbered rawName
    -- the markers of the names met before stay as they are
    have hmarked : out.filterMap Piece.marker? =
        (namesOf (ls.filterMap Lexeme.occurrence?)).map fun name =>
          .dollar (rank (namesOf (ls.filterMap Lexeme.occurrence?) ++ [rawName]) name) := by
      rw [h.marked]
      apply List.map_congr_left
      intro name hname
      rw [Foundation.rank_concat_of_mem hname]
    by_cases hmet : rawName ∈ namesOf (ls.filterMap Lexeme.occurrence?)
    · rw [if_pos hmet] at hlookup
      have hbind : dialect.bind binds rawName field =
          (binds, .dollar (rank (namesOf (ls.filterMap Lexeme.occurrence?)) rawName)) := by
        simp [dialect, Binds.bind, hlookup]
      simp only [hbind]
      constructor
      · intro name
        rw [hnames, h.numbered name]
        by_cases hname : name ∈ namesOf (ls.filterMap Lexeme.occurrence?)
        · rw [if_pos hname, if_pos (List.mem_append_left _ hname),
            Foundation.rank_concat_of_mem hname]
        · have hother : name ∉ namesOf (ls.filterMap Lexeme.occurrence?) ++ [rawName] := by
            intro hmem
            rcases List.mem_append.mp hmem with hmem | hmem
            · exact hname hmem
            · exact hname (List.mem_singleton.mp hmem ▸ hmet)
          rw [if_neg hname, if_neg hother]
      · rw [hnames, Foundation.distinct_concat, if_pos hmet]
        exact h.ordered
      · rw [hnames, List.map_append, ← hmarked, List.filterMap_append, List.map_singleton,
          Foundation.rank_concat_of_mem hmet]
        rfl
    · rw [if_neg hmet] at hlookup
      have hlength : binds.ordered.length =
          (distinct (namesOf (ls.filterMap Lexeme.occurrence?))).length := by
        simpa using congrArg List.length h.ordered
      have hbind : dialect.bind binds rawName field =
          ({ assignedNumbers := binds.assignedNumbers.insert rawName (binds.ordered.length + 1)
             ordered := binds.ordered ++ [field] }, .dollar (binds.ordered.length + 1)) := by
        simp [dialect, Binds.bind, hlookup]
      have hrank := Foundation.rank_concat_self hmet
      simp only [hbind]
      constructor
      · intro name
        rw [hnames]
        by_cases hname : name = rawName
        · subst hname
          rw [AList.lookup_insert, if_pos (by simp), hrank, hlength]
        · rw [AList.lookup_insert_ne hname, h.numbered name]
          by_cases hmem : name ∈ namesOf (ls.filterMap Lexeme.occurrence?)
          · rw [if_pos hmem, if_pos (List.mem_append_left _ hmem),
              Foundation.rank_concat_of_mem hmem]
          · rw [if_neg hmem, if_neg (by simp [hmem, hname])]
      · rw [hnames, Foundation.distinct_concat, if_neg hmet, List.map_append, List.map_append,
          h.ordered, List.map_singleton, List.map_singleton, hfield]
      · rw [hnames, List.map_append, ← hmarked, List.filterMap_append, List.map_singleton, hrank,
          hlength]
        rfl

/-- A rewriting for PostgreSQL gives every name its rank. -/
theorem Postgres.rankInv_of_rewrite {sql : String} {params : List DataField} {r : Rewritten}
    (h : dialect.rewrite sql params = .ok r) :
    r.markers = (namesOf (occurrences sql)).map (fun name =>
        .dollar (rank (namesOf (occurrences sql)) name)) ∧
      r.ordered.map some = (distinct (namesOf (occurrences sql))).map fun name =>
        (paramsByName params).lookup name := by
  obtain ⟨binds, hfold, hordered⟩ := Dialect.rewrite_eq_ok_iff.mp h
  have hinit : RankInv (paramsByName params) [] ([], dialect.init) := by
    constructor
    · intro name
      rfl
    · rfl
    · rfl
  have hinv := Foundation.foldlM_invariant hinit (fun _ _ _ _ => RankInv.step) hfold
  have hfields : r.ordered = binds.ordered := hordered
  exact ⟨hinv.marked, hfields ▸ hinv.ordered⟩

/-! ## What is bound -/

/-- The last parameter with a normalised name. -/
def lastParam (params : List DataField) (name : String) : Option DataField :=
  params.reverse.find? fun p => normalizeParamName p.getName = name

/-- The placeholders {lit}`os` of a statement are bound by the ranks of their names. -/
structure Postgres.BindsByRank (params : List DataField) (os : List (Nat × String))
    (r : Rewritten) : Prop where
  replaced : r.occurrences = os
  numbered : r.markers = (namesOf os).map fun name => .dollar (rank (namesOf os) name)
  oneEach : r.ordered.length = (distinct (namesOf os)).length
  inRange : ∀ name ∈ namesOf os, 1 ≤ rank (namesOf os) name ∧
    rank (namesOf os) name ≤ r.ordered.length
  bound : ∀ name ∈ namesOf os, ∃ field, lastParam params name = some field ∧
    r.ordered[rank (namesOf os) name - 1]? = some field
  referenced : ∀ field ∈ r.ordered, normalizeParamName field.getName ∈ namesOf os

/-- A rewriting for PostgreSQL binds the placeholders of the statement by rank. -/
theorem Postgres.bindsByRank_of_rewrite {sql : String} {params : List DataField} {r : Rewritten}
    (h : dialect.rewrite sql params = .ok r) : BindsByRank params (occurrences sql) r := by
  obtain ⟨hmarkers, hordered⟩ := rankInv_of_rewrite h
  have hlength : r.ordered.length = (distinct (namesOf (occurrences sql))).length := by
    simpa using congrArg List.length hordered
  have hlast : ∀ name, (paramsByName params).lookup name = lastParam params name :=
    lookup_paramsByName params
  have hget : ∀ name ∈ namesOf (occurrences sql), ∃ field, lastParam params name = some field ∧
      r.ordered[rank (namesOf (occurrences sql)) name - 1]? = some field := by
    intro name hname
    have hkey := Foundation.getElem?_distinct_rank hname
    have hmap := congrArg
      (fun l => l[rank (namesOf (occurrences sql)) name - 1]?) hordered
    simp only [List.getElem?_map, hkey, Option.map_some, hlast] at hmap
    obtain ⟨field, hfield, hsome⟩ := Option.map_eq_some_iff.mp hmap
    exact ⟨field, hsome.symm, hfield⟩
  refine ⟨Dialect.occurrences_eq h, hmarkers, hlength, ?_, hget, ?_⟩
  · intro name hname
    obtain ⟨field, -, hfield⟩ := hget name hname
    have hlt := (List.getElem?_eq_some_iff.mp hfield).1
    have hpos : 1 ≤ rank (namesOf (occurrences sql)) name := Nat.succ_pos _
    omega
  · intro field hfield
    have hmem : some field ∈ r.ordered.map some := List.mem_map_of_mem hfield
    rw [hordered] at hmem
    obtain ⟨name, hname, heq⟩ := List.mem_map.mp hmem
    rw [hlast] at heq
    have hnorm := List.find?_some heq
    rw [of_decide_eq_true hnorm]
    exact Foundation.mem_distinct.mp hname

/-- The rewriting for PostgreSQL fails exactly when a placeholder has no parameter. -/
theorem Postgres.exists_rewriteSql_error_iff (sql : String) (params : List DataField) :
    (∃ e, rewriteSql sql params = .error e) ↔
      ∃ name ∈ namesOf (occurrences sql), ∀ p ∈ params, normalizeParamName p.getName ≠ name := by
  have hok : (∃ r, rewriteSql sql params = .ok r) ↔
      ∀ name ∈ namesOf (occurrences sql), ∃ p ∈ params, normalizeParamName p.getName = name := by
    rw [exists_rewriteSql_eq_ok_iff]
    simp only [namesOf, List.mem_map, isSome_lookup_paramsByName]
    constructor
    · intro h name hname
      obtain ⟨o, ho, hname⟩ := hname
      exact hname ▸ h o ho
    · intro h o ho
      exact h o.2 ⟨o, ho, rfl⟩
  have herror : (∃ e, rewriteSql sql params = .error e) ↔
      ¬ ∃ r, rewriteSql sql params = .ok r := by
    cases rewriteSql sql params with
    | error e => simp
    | ok r => simp
  rw [herror, hok]
  simp only [not_forall, not_exists, not_and, exists_prop, ne_eq]

/-- **Binding by rank.**  Every statement is cut up into tokens, and for whatever
tokens it is cut up into: the rewriting for PostgreSQL fails exactly when the name
of one of their placeholders is the normalised name of no parameter; otherwise it
replaces these placeholders, each by the rank of its name, and binds to every rank
the last parameter of that name, and no other parameters. -/
theorem postgres_binds_by_rank (sql : String) (params : List DataField) :
    (∃ ts, Tokens PlaceholderToken sql.toUTF8.toList ts) ∧
      ∀ ts, Tokens PlaceholderToken sql.toUTF8.toList ts →
        ((∃ e, Postgres.rewriteSql sql params = .error e) ↔
          ∃ name ∈ namesOf (tokenPlaceholders ts),
            ∀ p ∈ params, normalizeParamName p.getName ≠ name) ∧
        ∀ out ordered, Postgres.rewriteSql sql params = .ok (out, ordered) →
          ∃ r, Postgres.dialect.rewrite sql params = .ok r ∧ r.text = out ∧ r.ordered = ordered ∧
            Postgres.BindsByRank params (tokenPlaceholders ts) r := by
  refine ⟨Foundation.exists_tokens exists_placeholderToken _, ?_⟩
  intro ts hts
  rw [← occurrences_eq_tokenPlaceholders hts]
  refine ⟨Postgres.exists_rewriteSql_error_iff sql params, ?_⟩
  intro out ordered h
  obtain ⟨r, hr, htext, hordered⟩ := Postgres.exists_rewritten_of_rewriteSql h
  exact ⟨r, hr, htext, hordered, Postgres.bindsByRank_of_rewrite hr⟩

/-- Of two parameters for the name that occurs twice, the last is bound, once; the
parameter no placeholder refers to is not bound. -/
theorem postgres_binds_by_rank_twice :
    ∃ ts r, Tokens PlaceholderToken ":a, :b, ':c', :a".toUTF8.toList ts ∧
      Postgres.dialect.rewrite ":a, :b, ':c', :a"
        [.fromInt "a" 1, .fromInt "b" 2, .fromInt "c" 3, .fromInt ":a" 4] = .ok r ∧
      r.text = "$1, $2, ':c', $1" ∧
      Postgres.BindsByRank [.fromInt "a" 1, .fromInt "b" 2, .fromInt "c" 3, .fromInt ":a" 4]
        (tokenPlaceholders ts) r := by
  have hpg : (Postgres.rewriteSql ":a, :b, ':c', :a"
      [.fromInt "a" 1, .fromInt "b" 2, .fromInt "c" 3, .fromInt ":a" 4]).toOption.map Prod.fst =
        some "$1, $2, ':c', $1" := by
    decide +kernel
  obtain ⟨⟨out, ordered⟩, hok, hout⟩ := Option.map_eq_some_iff.mp hpg
  have hout : out = "$1, $2, ':c', $1" := hout
  have hall := postgres_binds_by_rank ":a, :b, ':c', :a"
    [.fromInt "a" 1, .fromInt "b" 2, .fromInt "c" 3, .fromInt ":a" 4]
  obtain ⟨ts, hts⟩ := hall.1
  obtain ⟨r, hr, htext, -, hbinds⟩ :=
    (hall.2 ts hts).2 out ordered (Foundation.toOption_eq_some_iff.mp hok)
  exact ⟨ts, r, hts, hr, htext.trans hout, hbinds⟩

end WpKnowledge
