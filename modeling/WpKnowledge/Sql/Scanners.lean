import WpKnowledge.Sql.Rewrite

/-!
# The two copies of the scanner

`rewrite_sql` as PostgreSQL's and as MySQL's provider have it, each with its own
byte classes, its own search for the tag of a dollar quote and its own loops for
the regions it copies.  The output is a text that grows byte by byte.

{lit}`Dialect.Follows` says what such a copy has in common with the loop over a
{lit}`Dialect`, iteration by iteration; a copy that follows its dialect returns what
the dialect does, with the pieces of the output joined.

Main results:

- Theorem {lit}`Dialect.Follows.eq_rewriteLoop`: a copy that follows a dialect does what
  its loop does.
- Theorems {lit}`Postgres.rewriteSql_eq` and {lit}`Mysql.rewriteSql_eq`: both copies follow
  theirs.
- Theorem {lit}`rewriteSql_agree`: the PostgreSQL and the MySQL rewriting agree.
-/

namespace WpKnowledge

/-! ## The text of an output -/

@[simp]
theorem bytesAsString_nil : bytesAsString [] = "" :=
  rfl

theorem bytesAsString_append (xs ys : List UInt8) :
    bytesAsString (xs ++ ys) = bytesAsString xs ++ bytesAsString ys := by
  simp [bytesAsString]

/-- Pushing a byte appends its text. -/
theorem push_byteAsChar (out : String) (b : UInt8) :
    out.push (byteAsChar b) = out ++ bytesAsString [b] := by
  apply String.toList_inj.mp
  simp [bytesAsString]

theorem push_append_bytesAsString (out : String) (b : UInt8) (bytes : List UInt8) :
    out.push (byteAsChar b) ++ bytesAsString bytes = out ++ bytesAsString (b :: bytes) := by
  rw [push_byteAsChar, String.append_assoc, ← bytesAsString_append, List.singleton_append]

/-- The characters the scanner pushes are those of the bytes it has read. -/
theorem push_eq (out : String) (c : Char) (h : byteAsChar c.toUInt8 = c) :
    out.push c = out ++ bytesAsString [c.toUInt8] := by
  rw [← push_byteAsChar, h]

/-- The text of the pieces of an output. -/
def outText (out : List Piece) : String :=
  String.join (out.map (Piece.textWith Marker.text))

theorem outText_append_copied (out : List Piece) (bytes : List UInt8) :
    outText (out ++ copied bytes) = outText out ++ bytesAsString bytes := by
  apply String.toList_inj.mp
  simp [outText, copied, bytesAsString, Piece.textWith, String.join_append, List.flatMap_map]
  exact List.map_eq_flatMap.symm

theorem outText_append_placeholder (out : List Piece) (start : Nat) (rawName : String)
    (marker : Marker) :
    outText (out ++ [.placeholder start rawName marker]) = outText out ++ marker.text := by
  simp [outText, Piece.textWith, String.join_append]

/-! ## Following a dialect -/

/-- What comes after an iteration, by the region it has met. -/
def Region.elim {α : Type} (copy dollarQuote param : Nat → α) : Region → α
  | .copy n => copy n
  | .dollarQuote n => dollarQuote n
  | .param n => param n

/-- A loop with a text for its output goes on, iteration by iteration, as the
dialect says. -/
structure Dialect.Follows {σ : Type} (dialect : Dialect σ) (byName : HashMap String DataField)
    (loop : List UInt8 → Option (List UInt8) → σ → String →
      KnowledgeResult (String × List DataField)) : Prop where
  done : ∀ dollarTag binds out, loop [] dollarTag binds out = .ok (out, dialect.ordered binds)
  tagged : ∀ b rest tag binds out, loop (b :: rest) (some tag) binds out =
    if tag.isPrefixOf (b :: rest) then
      loop (rest.drop (tag.length - 1)) none binds (out ++ bytesAsString tag)
    else loop rest (some tag) binds (out ++ bytesAsString [b])
  code : ∀ b rest binds out, loop (b :: rest) none binds out =
    (regionAt b rest).elim
      (fun n => loop (rest.drop (n - 1)) none binds (out ++ bytesAsString ((b :: rest).take n)))
      (fun n => loop (rest.drop (n - 1)) (some ((b :: rest).take n)) binds
        (out ++ bytesAsString ((b :: rest).take n)))
      fun n => (byName.lookup (bytesAsString ((b :: rest).take n))).elim
        (.error (dialect.missingParam (bytesAsString ((b :: rest).take n)))) fun field =>
          loop (rest.drop (n - 1)) none
            (dialect.bind binds (bytesAsString ((b :: rest).take n)) field).1
            (out ++ (dialect.bind binds (bytesAsString ((b :: rest).take n)) field).2.text)

/-- A loop that follows a dialect does what the loop over the dialect does. -/
theorem Dialect.Follows.eq_rewriteLoop {σ : Type} {dialect : Dialect σ}
    {byName : HashMap String DataField}
    {loop : List UInt8 → Option (List UInt8) → σ → String →
      KnowledgeResult (String × List DataField)} (h : dialect.Follows byName loop)
    (i : Nat) (bytes : List UInt8) (dollarTag : Option (List UInt8)) (out : List Piece)
    (binds : σ) :
    loop bytes dollarTag binds (outText out) =
      (rewriteLoop dialect byName i bytes dollarTag out binds).map
        fun s => (outText s.1, dialect.ordered s.2) := by
  fun_induction rewriteLoop dialect byName i bytes dollarTag out binds with
  | case1 i dollarTag out binds => exact h.done _ _ _
  | case2 i out binds b rest tag hstart ih =>
      rw [h.tagged, if_pos hstart, ← outText_append_copied, ih]
  | case3 i out binds b rest tag hstart ih =>
      rw [h.tagged, if_neg hstart, ← outText_append_copied, ih]
  | case4 i out binds b rest n hregion ih =>
      rw [h.code, hregion, Region.elim, ← outText_append_copied, ih]
  | case5 i out binds b rest n hregion ih =>
      rw [h.code, hregion, Region.elim, ← outText_append_copied, ih]
  | case6 i out binds b rest n hregion rawName hlookup =>
      rw [h.code, hregion, Region.elim, hlookup]
      rfl
  | case7 i out binds b rest n hregion rawName field hlookup binds' marker hbind ih =>
      rw [h.code, hregion, Region.elim, hlookup, Option.elim_some, hbind,
        ← outText_append_placeholder out i, ih]

/-- A copy that follows a dialect returns what the dialect does. -/
theorem Dialect.Follows.eq_rewrite {σ : Type} {dialect : Dialect σ}
    {loop : List UInt8 → Option (List UInt8) → σ → String →
      KnowledgeResult (String × List DataField)} {params : List DataField}
    (h : dialect.Follows (paramsByName params) loop) (sql : String) :
    loop sql.toUTF8.toList none dialect.init "" =
      (dialect.rewrite sql params).map fun r => (r.text, r.ordered) := by
  have heq := h.eq_rewriteLoop 0 sql.toUTF8.toList none [] dialect.init
  rw [Dialect.rewrite]
  refine Eq.trans heq ?_
  cases rewriteLoop dialect (paramsByName params) 0 sql.toUTF8.toList none [] dialect.init <;> rfl

/-! ## The copy of the PostgreSQL provider -/

namespace Postgres.Scanner

/-- `normalize_param_name`. -/
def normalizeParamName (name : String) : String :=
  if name.toList.head? = some ':' then name else ":" ++ name

/-- `is_param_start`. -/
def isParamStart (byte : UInt8) : Bool :=
  (65 ≤ byte && byte ≤ 90) || (97 ≤ byte && byte ≤ 122) || byte == 95

/-- `is_param_continue`. -/
def isParamContinue (byte : UInt8) : Bool :=
  (65 ≤ byte && byte ≤ 90) || (97 ≤ byte && byte ≤ 122) || (48 ≤ byte && byte ≤ 57) ||
    byte == 95

/-- `is_dollar_tag_start`. -/
def isDollarTagStart (byte : UInt8) : Bool :=
  (65 ≤ byte && byte ≤ 90) || (97 ≤ byte && byte ≤ 122) || byte == 95

/-- `is_dollar_tag_continue`. -/
def isDollarTagContinue (byte : UInt8) : Bool :=
  (65 ≤ byte && byte ≤ 90) || (97 ≤ byte && byte ≤ 122) || (48 ≤ byte && byte ≤ 57) ||
    byte == 95

/-- The loop of `parse_dollar_quote_tag` from the byte at {lit}`idx` on. -/
def dollarTagLoop (idx : Nat) : List UInt8 → Option Nat
  | [] => none
  | b :: rest =>
      if b = '$'.toUInt8 then some (idx + 1)
      else if idx = 1 then
        if isDollarTagStart b then dollarTagLoop (idx + 1) rest else none
      else if isDollarTagContinue b then dollarTagLoop (idx + 1) rest
      else none

/-- `parse_dollar_quote_tag`. -/
def parseDollarQuoteTag : List UInt8 → Option Nat
  | [] => none
  | b :: rest => if b = '$'.toUInt8 then dollarTagLoop 1 rest else none

/-- The loop inside a quoted text: what it pushes to {lit}`out`, and the bytes it leaves. -/
def quotedLoop (quote : UInt8) (out : String) : List UInt8 → String × List UInt8
  | [] => (out, [])
  | b :: rest =>
      if b = quote then
        match rest with
        | [] => (out.push (byteAsChar b), [])
        | c :: rest' =>
            if c = quote then
              quotedLoop quote ((out.push (byteAsChar b)).push (byteAsChar quote)) rest'
            else (out.push (byteAsChar b), c :: rest')
      else quotedLoop quote (out.push (byteAsChar b)) rest

/-- The loop inside a line comment. -/
def lineCommentLoop (out : String) : List UInt8 → String × List UInt8
  | [] => (out, [])
  | b :: rest =>
      if b = '\n'.toUInt8 then (out.push (byteAsChar b), rest)
      else lineCommentLoop (out.push (byteAsChar b)) rest

/-- The loop inside a block comment. -/
def blockCommentLoop (out : String) : List UInt8 → String × List UInt8
  | [] => (out, [])
  | b :: rest =>
      if b = '*'.toUInt8 ∧ rest.head? = some '/'.toUInt8 then
        ((out.push (byteAsChar b)).push '/', rest.tail)
      else blockCommentLoop (out.push (byteAsChar b)) rest

theorem quotedLoop_eq (quote : UInt8) (out : String) (bytes : List UInt8) :
    quotedLoop quote out bytes =
      (out ++ bytesAsString (bytes.take (quotedLength quote bytes)),
        bytes.drop (quotedLength quote bytes)) := by
  fun_induction quotedLoop quote out bytes with
  | case1 out => simp [quotedLength]
  | case2 out => simp [quotedLength, push_byteAsChar]
  | case3 out rest ih =>
      rw [ih]
      simp [quotedLength, Nat.add_comm 2, push_append_bytesAsString]
  | case4 out c rest hc => simp [quotedLength, hc, push_byteAsChar]
  | case5 out b rest hb ih =>
      have hlength : quotedLength quote (b :: rest) = quotedLength quote rest + 1 := by
        rw [quotedLength.eq_def]
        simp [hb, Nat.add_comm]
      rw [ih, hlength]
      simp [push_append_bytesAsString]

theorem lineCommentLoop_eq (out : String) (bytes : List UInt8) :
    lineCommentLoop out bytes =
      (out ++ bytesAsString (bytes.take (lineCommentLength bytes)),
        bytes.drop (lineCommentLength bytes)) := by
  fun_induction lineCommentLoop out bytes with
  | case1 out => simp [lineCommentLength]
  | case2 out rest => simp [lineCommentLength, push_byteAsChar]
  | case3 out b rest hb ih =>
      rw [ih]
      simp [lineCommentLength, hb, Nat.add_comm 1, push_append_bytesAsString]

theorem blockCommentLoop_eq (out : String) (bytes : List UInt8) :
    blockCommentLoop out bytes =
      (out ++ bytesAsString (bytes.take (blockCommentLength bytes)),
        bytes.drop (blockCommentLength bytes)) := by
  fun_induction blockCommentLoop out bytes with
  | case1 out => simp [blockCommentLength]
  | case2 out b rest hb =>
      obtain ⟨rfl, hslash⟩ := hb
      obtain ⟨rest', rfl⟩ := List.head?_eq_some_iff.mp hslash
      have hend : (out.push (byteAsChar '*'.toUInt8)).push '/' =
          out ++ bytesAsString ['*'.toUInt8, '/'.toUInt8] :=
        String.toList_inj.mp (by simp [bytesAsString]; rfl)
      simp [blockCommentLength, hend]
  | case3 out b rest hb ih =>
      rw [ih]
      simp [blockCommentLength, hb, Nat.add_comm 1, push_append_bytesAsString]

/-- `rewrite_sql` from the bytes it has not yet read on. -/
def rewriteLoop (byName : HashMap String DataField) (bytes : List UInt8)
    (dollarTag : Option (List UInt8)) (assignedNumbers : HashMap String Nat)
    (ordered : List DataField) (out : String) : KnowledgeResult (String × List DataField) :=
  match bytes with
  | [] => .ok (out, ordered)
  | b :: rest =>
      match dollarTag with
      | some tag =>
          if tag.isPrefixOf (b :: rest) then
            rewriteLoop byName (rest.drop (tag.length - 1)) none assignedNumbers ordered
              (out ++ bytesAsString tag)
          else
            rewriteLoop byName rest (some tag) assignedNumbers ordered (out.push (byteAsChar b))
      | none =>
          if b = '\''.toUInt8 then
            let past := quotedLoop '\''.toUInt8 (out.push '\'') rest
            rewriteLoop byName past.2 none assignedNumbers ordered past.1
          else if b = '"'.toUInt8 then
            let past := quotedLoop '"'.toUInt8 (out.push '"') rest
            rewriteLoop byName past.2 none assignedNumbers ordered past.1
          else if b = '-'.toUInt8 ∧ rest.head? = some '-'.toUInt8 then
            let past := lineCommentLoop ((out.push '-').push '-') rest.tail
            rewriteLoop byName past.2 none assignedNumbers ordered past.1
          else if b = '/'.toUInt8 ∧ rest.head? = some '*'.toUInt8 then
            let past := blockCommentLoop ((out.push '/').push '*') rest.tail
            rewriteLoop byName past.2 none assignedNumbers ordered past.1
          else if b = '$'.toUInt8 then
            match parseDollarQuoteTag (b :: rest) with
            | some tagLen =>
                let tag := (b :: rest).take tagLen
                rewriteLoop byName (rest.drop (tagLen - 1)) (some tag) assignedNumbers ordered
                  (out ++ bytesAsString tag)
            | none => rewriteLoop byName rest none assignedNumbers ordered (out.push '$')
          else if b = ':'.toUInt8 then
            if rest.head? = some ':'.toUInt8 then
              rewriteLoop byName rest.tail none assignedNumbers ordered ((out.push ':').push ':')
            else if (rest.head?.map isParamStart).getD false then
              let nameLen := 2 + (rest.tail.takeWhile isParamContinue).length
              let rawName := bytesAsString ((b :: rest).take nameLen)
              match byName.lookup rawName with
              | none =>
                  .error { reason := .ruleError
                           detail := "postgres query missing param: " ++ rawName }
              | some field =>
                  match assignedNumbers.lookup rawName with
                  | some idx =>
                      rewriteLoop byName (rest.drop (nameLen - 1)) none assignedNumbers ordered
                        (out.push '$' ++ toString idx)
                  | none =>
                      let idx := ordered.length + 1
                      rewriteLoop byName (rest.drop (nameLen - 1)) none
                        (assignedNumbers.insert rawName idx) (ordered ++ [field])
                        (out.push '$' ++ toString idx)
            else rewriteLoop byName rest none assignedNumbers ordered (out.push ':')
          else rewriteLoop byName rest none assignedNumbers ordered (out.push (byteAsChar b))
termination_by bytes.length
decreasing_by all_goals
  simp only [quotedLoop_eq, lineCommentLoop_eq, blockCommentLoop_eq, List.length_drop,
    List.length_tail, List.length_cons]
  omega

theorem isParamStart_eq : isParamStart = WpKnowledge.isParamStart :=
  rfl

theorem isParamContinue_eq : isParamContinue = WpKnowledge.isParamContinue := by
  ext byte
  simp only [isParamContinue, WpKnowledge.isParamContinue, WpKnowledge.isParamStart]
  grind

theorem isDollarTagStart_eq : isDollarTagStart = WpKnowledge.isDollarTagStart :=
  rfl

theorem isDollarTagContinue_eq : isDollarTagContinue = WpKnowledge.isDollarTagContinue := by
  ext byte
  simp only [isDollarTagContinue, WpKnowledge.isDollarTagContinue, WpKnowledge.isDollarTagStart]
  grind

theorem dollarTagLoop_eq (idx : Nat) (bytes : List UInt8) :
    dollarTagLoop idx bytes = dollarTagLength idx bytes := by
  induction bytes generalizing idx with
  | nil => rfl
  | cons b rest ih =>
      rw [dollarTagLoop, dollarTagLength, ih, isDollarTagStart_eq, isDollarTagContinue_eq]

theorem parseDollarQuoteTag_eq (bytes : List UInt8) :
    parseDollarQuoteTag bytes = WpKnowledge.parseDollarQuoteTag bytes := by
  cases bytes with
  | nil => rfl
  | cons b rest => rw [parseDollarQuoteTag, WpKnowledge.parseDollarQuoteTag, dollarTagLoop_eq]

theorem push_append_toString (out : String) (idx : Nat) :
    out.push '$' ++ toString idx = out ++ ("$" ++ toString idx) := by
  apply String.toList_inj.mp
  simp

/-- The loop follows the PostgreSQL dialect. -/
theorem follows (byName : HashMap String DataField) :
    dialect.Follows byName fun bytes dollarTag binds out =>
      rewriteLoop byName bytes dollarTag binds.assignedNumbers binds.ordered out where
  done dollarTag binds out := by
    rw [rewriteLoop]
    rfl
  tagged b rest tag binds out := by
    rw [rewriteLoop, push_byteAsChar]
  code b rest binds out := by
    rw [rewriteLoop, regionAt]
    by_cases hquote : b = '\''.toUInt8
    · subst hquote
      simp only [if_true, quotedLoop_eq, Region.elim, Nat.add_comm 1, Nat.add_sub_cancel,
        List.take_succ_cons, push_eq out '\'' (by decide), String.append_assoc,
        ← bytesAsString_append, List.singleton_append]
    rw [if_neg hquote, if_neg hquote]
    by_cases hdouble : b = '"'.toUInt8
    · subst hdouble
      simp only [if_true, quotedLoop_eq, Region.elim, Nat.add_comm 1, Nat.add_sub_cancel,
        List.take_succ_cons, push_eq out '"' (by decide), String.append_assoc,
        ← bytesAsString_append, List.singleton_append]
    rw [if_neg hdouble, if_neg hdouble]
    by_cases hline : b = '-'.toUInt8 ∧ rest.head? = some '-'.toUInt8
    · rw [if_pos hline, if_pos hline]
      obtain ⟨rfl, hnext⟩ := hline
      obtain ⟨rest, rfl⟩ := List.head?_eq_some_iff.mp hnext
      simp [lineCommentLoop_eq, Region.elim, Nat.add_comm 2, push_eq _ '-' (by decide),
        String.append_assoc, ← bytesAsString_append]
    rw [if_neg hline, if_neg hline]
    by_cases hblock : b = '/'.toUInt8 ∧ rest.head? = some '*'.toUInt8
    · rw [if_pos hblock, if_pos hblock]
      obtain ⟨rfl, hnext⟩ := hblock
      obtain ⟨rest, rfl⟩ := List.head?_eq_some_iff.mp hnext
      simp [blockCommentLoop_eq, Region.elim, Nat.add_comm 2, push_eq _ '/' (by decide),
        push_eq _ '*' (by decide), String.append_assoc, ← bytesAsString_append]
    rw [if_neg hblock, if_neg hblock]
    by_cases hdollar : b = '$'.toUInt8
    · rw [if_pos hdollar, if_pos hdollar, parseDollarQuoteTag_eq]
      cases WpKnowledge.parseDollarQuoteTag (b :: rest) with
      | some tagLen => rfl
      | none =>
          subst hdollar
          simp [Region.elim, push_eq _ '$' (by decide)]
    rw [if_neg hdollar, if_neg hdollar]
    by_cases hcolon : b = ':'.toUInt8
    · rw [if_pos hcolon, if_pos hcolon, isParamStart_eq, isParamContinue_eq]
      by_cases hcast : rest.head? = some ':'.toUInt8
      · rw [if_pos hcast, if_pos hcast]
        subst hcolon
        obtain ⟨rest, rfl⟩ := List.head?_eq_some_iff.mp hcast
        simp [Region.elim, push_eq _ ':' (by decide), String.append_assoc, ← bytesAsString_append]
      rw [if_neg hcast, if_neg hcast]
      by_cases hstart : (rest.head?.map WpKnowledge.isParamStart).getD false
      · rw [if_pos hstart, if_pos hstart]
        simp only [Region.elim]
        cases byName.lookup (bytesAsString ((b :: rest).take
            (2 + (rest.tail.takeWhile WpKnowledge.isParamContinue).length))) with
        | none => rfl
        | some field =>
            simp only [Option.elim_some, dialect, Binds.bind]
            cases binds.assignedNumbers.lookup (bytesAsString ((b :: rest).take
                (2 + (rest.tail.takeWhile WpKnowledge.isParamContinue).length))) with
            | some idx => simp only [push_append_toString, Marker.text]
            | none => simp only [push_append_toString, Marker.text]
      rw [if_neg hstart, if_neg hstart]
      subst hcolon
      simp [Region.elim, push_eq _ ':' (by decide)]
    rw [if_neg hcolon, if_neg hcolon]
    simp [Region.elim, push_byteAsChar]

end Postgres.Scanner

/-- `rewrite_sql`: the statement for PostgreSQL, and the fields to bind to `$1`, `$2` and so on. -/
def Postgres.rewriteSql (sql : String) (params : List DataField) :
    KnowledgeResult (String × List DataField) :=
  let byName := params.foldl
    (fun byName field => byName.insert (Scanner.normalizeParamName field.getName) field) ∅
  Scanner.rewriteLoop byName sql.toUTF8.toList none ∅ [] ""

/-- The rewriting returns the text and the fields the dialect gives. -/
theorem Postgres.rewriteSql_eq (sql : String) (params : List DataField) :
    rewriteSql sql params = (dialect.rewrite sql params).map fun r => (r.text, r.ordered) :=
  (Scanner.follows (paramsByName params)).eq_rewrite sql

/-- Whether a statement is accepted depends on the names in it only. -/
theorem Postgres.exists_rewriteSql_eq_ok_iff (sql : String) (params : List DataField) :
    (∃ r, rewriteSql sql params = .ok r) ↔
      ∀ o ∈ occurrences sql, ((paramsByName params).lookup o.2).isSome := by
  rw [rewriteSql_eq, Foundation.exists_map_eq_ok_iff, Dialect.exists_rewrite_eq_ok_iff]

/-- What is returned, as pieces. -/
theorem Postgres.exists_rewritten_of_rewriteSql {sql out : String} {params ordered : List DataField}
    (h : rewriteSql sql params = .ok (out, ordered)) :
    ∃ r, dialect.rewrite sql params = .ok r ∧ r.text = out ∧ r.ordered = ordered := by
  rw [rewriteSql_eq] at h
  obtain ⟨r, hr, heq⟩ := Foundation.map_eq_ok_iff.mp h
  cases heq
  exact ⟨r, hr, rfl, rfl⟩

/-! ## The copy of the MySQL provider -/

namespace Mysql.Scanner

/-- `normalize_param_name`. -/
def normalizeParamName (name : String) : String :=
  if name.toList.head? = some ':' then name else ":" ++ name

/-- `is_param_start`. -/
def isParamStart (byte : UInt8) : Bool :=
  (65 ≤ byte && byte ≤ 90) || (97 ≤ byte && byte ≤ 122) || byte == 95

/-- `is_param_continue`. -/
def isParamContinue (byte : UInt8) : Bool :=
  (65 ≤ byte && byte ≤ 90) || (97 ≤ byte && byte ≤ 122) || (48 ≤ byte && byte ≤ 57) ||
    byte == 95

/-- `is_dollar_tag_start`. -/
def isDollarTagStart (byte : UInt8) : Bool :=
  (65 ≤ byte && byte ≤ 90) || (97 ≤ byte && byte ≤ 122) || byte == 95

/-- `is_dollar_tag_continue`. -/
def isDollarTagContinue (byte : UInt8) : Bool :=
  (65 ≤ byte && byte ≤ 90) || (97 ≤ byte && byte ≤ 122) || (48 ≤ byte && byte ≤ 57) ||
    byte == 95

/-- The loop of `parse_dollar_quote_tag` from the byte at {lit}`idx` on. -/
def dollarTagLoop (idx : Nat) : List UInt8 → Option Nat
  | [] => none
  | b :: rest =>
      if b = '$'.toUInt8 then some (idx + 1)
      else if idx = 1 then
        if isDollarTagStart b then dollarTagLoop (idx + 1) rest else none
      else if isDollarTagContinue b then dollarTagLoop (idx + 1) rest
      else none

/-- `parse_dollar_quote_tag`. -/
def parseDollarQuoteTag : List UInt8 → Option Nat
  | [] => none
  | b :: rest => if b = '$'.toUInt8 then dollarTagLoop 1 rest else none

/-- The loop inside a quoted text: what it pushes to {lit}`out`, and the bytes it leaves. -/
def quotedLoop (quote : UInt8) (out : String) : List UInt8 → String × List UInt8
  | [] => (out, [])
  | b :: rest =>
      if b = quote then
        match rest with
        | [] => (out.push (byteAsChar b), [])
        | c :: rest' =>
            if c = quote then
              quotedLoop quote ((out.push (byteAsChar b)).push (byteAsChar quote)) rest'
            else (out.push (byteAsChar b), c :: rest')
      else quotedLoop quote (out.push (byteAsChar b)) rest

/-- The loop inside a line comment. -/
def lineCommentLoop (out : String) : List UInt8 → String × List UInt8
  | [] => (out, [])
  | b :: rest =>
      if b = '\n'.toUInt8 then (out.push (byteAsChar b), rest)
      else lineCommentLoop (out.push (byteAsChar b)) rest

/-- The loop inside a block comment. -/
def blockCommentLoop (out : String) : List UInt8 → String × List UInt8
  | [] => (out, [])
  | b :: rest =>
      if b = '*'.toUInt8 ∧ rest.head? = some '/'.toUInt8 then
        ((out.push (byteAsChar b)).push '/', rest.tail)
      else blockCommentLoop (out.push (byteAsChar b)) rest

theorem quotedLoop_eq (quote : UInt8) (out : String) (bytes : List UInt8) :
    quotedLoop quote out bytes =
      (out ++ bytesAsString (bytes.take (quotedLength quote bytes)),
        bytes.drop (quotedLength quote bytes)) := by
  fun_induction quotedLoop quote out bytes with
  | case1 out => simp [quotedLength]
  | case2 out => simp [quotedLength, push_byteAsChar]
  | case3 out rest ih =>
      rw [ih]
      simp [quotedLength, Nat.add_comm 2, push_append_bytesAsString]
  | case4 out c rest hc => simp [quotedLength, hc, push_byteAsChar]
  | case5 out b rest hb ih =>
      have hlength : quotedLength quote (b :: rest) = quotedLength quote rest + 1 := by
        rw [quotedLength.eq_def]
        simp [hb, Nat.add_comm]
      rw [ih, hlength]
      simp [push_append_bytesAsString]

theorem lineCommentLoop_eq (out : String) (bytes : List UInt8) :
    lineCommentLoop out bytes =
      (out ++ bytesAsString (bytes.take (lineCommentLength bytes)),
        bytes.drop (lineCommentLength bytes)) := by
  fun_induction lineCommentLoop out bytes with
  | case1 out => simp [lineCommentLength]
  | case2 out rest => simp [lineCommentLength, push_byteAsChar]
  | case3 out b rest hb ih =>
      rw [ih]
      simp [lineCommentLength, hb, Nat.add_comm 1, push_append_bytesAsString]

theorem blockCommentLoop_eq (out : String) (bytes : List UInt8) :
    blockCommentLoop out bytes =
      (out ++ bytesAsString (bytes.take (blockCommentLength bytes)),
        bytes.drop (blockCommentLength bytes)) := by
  fun_induction blockCommentLoop out bytes with
  | case1 out => simp [blockCommentLength]
  | case2 out b rest hb =>
      obtain ⟨rfl, hslash⟩ := hb
      obtain ⟨rest', rfl⟩ := List.head?_eq_some_iff.mp hslash
      have hend : (out.push (byteAsChar '*'.toUInt8)).push '/' =
          out ++ bytesAsString ['*'.toUInt8, '/'.toUInt8] :=
        String.toList_inj.mp (by simp [bytesAsString]; rfl)
      simp [blockCommentLength, hend]
  | case3 out b rest hb ih =>
      rw [ih]
      simp [blockCommentLength, hb, Nat.add_comm 1, push_append_bytesAsString]

/-- `rewrite_sql` from the bytes it has not yet read on. -/
def rewriteLoop (byName : HashMap String DataField) (bytes : List UInt8)
    (dollarTag : Option (List UInt8)) (ordered : List DataField) (out : String) :
    KnowledgeResult (String × List DataField) :=
  match bytes with
  | [] => .ok (out, ordered)
  | b :: rest =>
      match dollarTag with
      | some tag =>
          if tag.isPrefixOf (b :: rest) then
            rewriteLoop byName (rest.drop (tag.length - 1)) none ordered
              (out ++ bytesAsString tag)
          else rewriteLoop byName rest (some tag) ordered (out.push (byteAsChar b))
      | none =>
          if b = '\''.toUInt8 then
            let past := quotedLoop '\''.toUInt8 (out.push '\'') rest
            rewriteLoop byName past.2 none ordered past.1
          else if b = '"'.toUInt8 then
            let past := quotedLoop '"'.toUInt8 (out.push '"') rest
            rewriteLoop byName past.2 none ordered past.1
          else if b = '-'.toUInt8 ∧ rest.head? = some '-'.toUInt8 then
            let past := lineCommentLoop ((out.push '-').push '-') rest.tail
            rewriteLoop byName past.2 none ordered past.1
          else if b = '/'.toUInt8 ∧ rest.head? = some '*'.toUInt8 then
            let past := blockCommentLoop ((out.push '/').push '*') rest.tail
            rewriteLoop byName past.2 none ordered past.1
          else if b = '$'.toUInt8 then
            match parseDollarQuoteTag (b :: rest) with
            | some tagLen =>
                let tag := (b :: rest).take tagLen
                rewriteLoop byName (rest.drop (tagLen - 1)) (some tag) ordered
                  (out ++ bytesAsString tag)
            | none => rewriteLoop byName rest none ordered (out.push '$')
          else if b = ':'.toUInt8 then
            if rest.head? = some ':'.toUInt8 then
              rewriteLoop byName rest.tail none ordered ((out.push ':').push ':')
            else if (rest.head?.map isParamStart).getD false then
              let nameLen := 2 + (rest.tail.takeWhile isParamContinue).length
              let rawName := bytesAsString ((b :: rest).take nameLen)
              match byName.lookup rawName with
              | none =>
                  .error { reason := .ruleError
                           detail := "mysql query missing param: " ++ rawName }
              | some field =>
                  rewriteLoop byName (rest.drop (nameLen - 1)) none (ordered ++ [field])
                    (out.push '?')
            else rewriteLoop byName rest none ordered (out.push ':')
          else rewriteLoop byName rest none ordered (out.push (byteAsChar b))
termination_by bytes.length
decreasing_by all_goals
  simp only [quotedLoop_eq, lineCommentLoop_eq, blockCommentLoop_eq, List.length_drop,
    List.length_tail, List.length_cons]
  omega

theorem isParamStart_eq : isParamStart = WpKnowledge.isParamStart :=
  rfl

theorem isParamContinue_eq : isParamContinue = WpKnowledge.isParamContinue := by
  ext byte
  simp only [isParamContinue, WpKnowledge.isParamContinue, WpKnowledge.isParamStart]
  grind

theorem isDollarTagStart_eq : isDollarTagStart = WpKnowledge.isDollarTagStart :=
  rfl

theorem isDollarTagContinue_eq : isDollarTagContinue = WpKnowledge.isDollarTagContinue := by
  ext byte
  simp only [isDollarTagContinue, WpKnowledge.isDollarTagContinue, WpKnowledge.isDollarTagStart]
  grind

theorem dollarTagLoop_eq (idx : Nat) (bytes : List UInt8) :
    dollarTagLoop idx bytes = dollarTagLength idx bytes := by
  induction bytes generalizing idx with
  | nil => rfl
  | cons b rest ih =>
      rw [dollarTagLoop, dollarTagLength, ih, isDollarTagStart_eq, isDollarTagContinue_eq]

theorem parseDollarQuoteTag_eq (bytes : List UInt8) :
    parseDollarQuoteTag bytes = WpKnowledge.parseDollarQuoteTag bytes := by
  cases bytes with
  | nil => rfl
  | cons b rest => rw [parseDollarQuoteTag, WpKnowledge.parseDollarQuoteTag, dollarTagLoop_eq]

theorem push_question (out : String) : out.push '?' = out ++ "?" := by
  apply String.toList_inj.mp
  simp

/-- The loop follows the MySQL dialect. -/
theorem follows (byName : HashMap String DataField) :
    dialect.Follows byName (rewriteLoop byName) where
  done dollarTag binds out := by
    rw [rewriteLoop]
    rfl
  tagged b rest tag binds out := by
    rw [rewriteLoop, push_byteAsChar]
  code b rest binds out := by
    rw [rewriteLoop, regionAt]
    by_cases hquote : b = '\''.toUInt8
    · subst hquote
      simp only [if_true, quotedLoop_eq, Region.elim, Nat.add_comm 1, Nat.add_sub_cancel,
        List.take_succ_cons, push_eq out '\'' (by decide), String.append_assoc,
        ← bytesAsString_append, List.singleton_append]
    rw [if_neg hquote, if_neg hquote]
    by_cases hdouble : b = '"'.toUInt8
    · subst hdouble
      simp only [if_true, quotedLoop_eq, Region.elim, Nat.add_comm 1, Nat.add_sub_cancel,
        List.take_succ_cons, push_eq out '"' (by decide), String.append_assoc,
        ← bytesAsString_append, List.singleton_append]
    rw [if_neg hdouble, if_neg hdouble]
    by_cases hline : b = '-'.toUInt8 ∧ rest.head? = some '-'.toUInt8
    · rw [if_pos hline, if_pos hline]
      obtain ⟨rfl, hnext⟩ := hline
      obtain ⟨rest, rfl⟩ := List.head?_eq_some_iff.mp hnext
      simp [lineCommentLoop_eq, Region.elim, Nat.add_comm 2, push_eq _ '-' (by decide),
        String.append_assoc, ← bytesAsString_append]
    rw [if_neg hline, if_neg hline]
    by_cases hblock : b = '/'.toUInt8 ∧ rest.head? = some '*'.toUInt8
    · rw [if_pos hblock, if_pos hblock]
      obtain ⟨rfl, hnext⟩ := hblock
      obtain ⟨rest, rfl⟩ := List.head?_eq_some_iff.mp hnext
      simp [blockCommentLoop_eq, Region.elim, Nat.add_comm 2, push_eq _ '/' (by decide),
        push_eq _ '*' (by decide), String.append_assoc, ← bytesAsString_append]
    rw [if_neg hblock, if_neg hblock]
    by_cases hdollar : b = '$'.toUInt8
    · rw [if_pos hdollar, if_pos hdollar, parseDollarQuoteTag_eq]
      cases WpKnowledge.parseDollarQuoteTag (b :: rest) with
      | some tagLen => rfl
      | none =>
          subst hdollar
          simp [Region.elim, push_eq _ '$' (by decide)]
    rw [if_neg hdollar, if_neg hdollar]
    by_cases hcolon : b = ':'.toUInt8
    · rw [if_pos hcolon, if_pos hcolon, isParamStart_eq, isParamContinue_eq]
      by_cases hcast : rest.head? = some ':'.toUInt8
      · rw [if_pos hcast, if_pos hcast]
        subst hcolon
        obtain ⟨rest, rfl⟩ := List.head?_eq_some_iff.mp hcast
        simp [Region.elim, push_eq _ ':' (by decide), String.append_assoc, ← bytesAsString_append]
      rw [if_neg hcast, if_neg hcast]
      by_cases hstart : (rest.head?.map WpKnowledge.isParamStart).getD false
      · rw [if_pos hstart, if_pos hstart]
        simp only [Region.elim]
        cases byName.lookup (bytesAsString ((b :: rest).take
            (2 + (rest.tail.takeWhile WpKnowledge.isParamContinue).length))) with
        | none => rfl
        | some field => simp only [Option.elim_some, dialect, Marker.text, push_question]
      rw [if_neg hstart, if_neg hstart]
      subst hcolon
      simp [Region.elim, push_eq _ ':' (by decide)]
    rw [if_neg hcolon, if_neg hcolon]
    simp [Region.elim, push_byteAsChar]

end Mysql.Scanner

/-- `rewrite_sql`: the statement for MySQL, and the fields to bind to its `?` in order. -/
def Mysql.rewriteSql (sql : String) (params : List DataField) :
    KnowledgeResult (String × List DataField) :=
  let byName := params.foldl
    (fun byName field => byName.insert (Scanner.normalizeParamName field.getName) field) ∅
  Scanner.rewriteLoop byName sql.toUTF8.toList none [] ""

/-- The rewriting returns the text and the fields the dialect gives. -/
theorem Mysql.rewriteSql_eq (sql : String) (params : List DataField) :
    rewriteSql sql params = (dialect.rewrite sql params).map fun r => (r.text, r.ordered) :=
  (Scanner.follows (paramsByName params)).eq_rewrite sql

/-- Whether a statement is accepted depends on the names in it only. -/
theorem Mysql.exists_rewriteSql_eq_ok_iff (sql : String) (params : List DataField) :
    (∃ r, rewriteSql sql params = .ok r) ↔
      ∀ o ∈ occurrences sql, ((paramsByName params).lookup o.2).isSome := by
  rw [rewriteSql_eq, Foundation.exists_map_eq_ok_iff, Dialect.exists_rewrite_eq_ok_iff]

/-- What is returned, as pieces. -/
theorem Mysql.exists_rewritten_of_rewriteSql {sql out : String} {params ordered : List DataField}
    (h : rewriteSql sql params = .ok (out, ordered)) :
    ∃ r, dialect.rewrite sql params = .ok r ∧ r.text = out ∧ r.ordered = ordered := by
  rw [rewriteSql_eq] at h
  obtain ⟨r, hr, heq⟩ := Foundation.map_eq_ok_iff.mp h
  cases heq
  exact ⟨r, hr, rfl, rfl⟩

/-! ## The two rewriters agree -/

/-- **Agreement of the rewriters.**  On every statement and parameter list the
PostgreSQL and the MySQL rewriting succeed or fail together.  If they succeed, both
outputs are the statement with markers for the same occurrences in the same order;
they are equal when every emitted `$k` and `?` is written as one marker; and the
field MySQL binds to an occurrence is field number `k` of PostgreSQL, where `$k` is
what PostgreSQL emits there. -/
theorem rewriteSql_agree (sql : String) (params : List DataField) :
    ((∃ r, Postgres.rewriteSql sql params = .ok r) ↔ ∃ r, Mysql.rewriteSql sql params = .ok r) ∧
      ∀ outP orderedP outM orderedM, Postgres.rewriteSql sql params = .ok (outP, orderedP) →
        Mysql.rewriteSql sql params = .ok (outM, orderedM) →
        ∃ pg my : List Piece, outText pg = outP ∧ outText my = outM ∧
          pg.filterMap Piece.occurrence? = occurrences sql ∧
          my.filterMap Piece.occurrence? = occurrences sql ∧
          (∀ mark, String.join (pg.map (Piece.textWith fun _ => mark)) =
            String.join (my.map (Piece.textWith fun _ => mark))) ∧
          (∀ marker ∈ my.filterMap Piece.marker?, marker = .question) ∧
          List.Forall₂ (fun marker field => ∃ k, marker = .dollar (k + 1) ∧
            orderedP[k]? = some field) (pg.filterMap Piece.marker?) orderedM := by
  constructor
  · rw [Postgres.exists_rewriteSql_eq_ok_iff, Mysql.exists_rewriteSql_eq_ok_iff]
  · intro outP orderedP outM orderedM hpgSql hmySql
    obtain ⟨pg, hpg, rfl, rfl⟩ := Postgres.exists_rewritten_of_rewriteSql hpgSql
    obtain ⟨my, hmy, rfl, rfl⟩ := Mysql.exists_rewritten_of_rewriteSql hmySql
    refine ⟨pg.out, my.out, rfl, rfl, Dialect.occurrences_eq hpg, Dialect.occurrences_eq hmy,
      ?_, Mysql.markers_eq hmy, ?_⟩
    · intro mark
      exact (Dialect.textWith_eq hpg mark).trans (Dialect.textWith_eq hmy mark).symm
    · -- both lists run along the occurrences, so that they meet at each of them
      have hrefer : List.Forall₂ (fun marker field => ∃ k, marker = .dollar (k + 1) ∧
          pg.ordered[k]? = field) pg.markers (my.ordered.map some) := by
        rw [Mysql.map_ordered hmy, List.forall₂_map_right_iff]
        refine (Postgres.markers_refer hpg).imp ?_
        intro marker o ⟨k, field, hmarker, hlookup, hk⟩
        exact ⟨k, hmarker, hk.trans hlookup.symm⟩
      exact List.forall₂_map_right_iff.mp hrefer

/-- A statement that names one parameter twice, once more inside a string, and
casts another. -/
def repeatedNameSql : String := "a = :id AND b = ':id' AND c = :n::text OR d = :id"

/-- The rewritings agree on it, with the number of the repeated name given out
once. -/
theorem rewriteSql_agree_repeated_name :
    ∃ orderedP orderedM pg,
      Postgres.rewriteSql repeatedNameSql [.fromInt "id" 7, .fromChars ":n" "x"] =
          .ok ("a = $1 AND b = ':id' AND c = $2::text OR d = $1", orderedP) ∧
        Mysql.rewriteSql repeatedNameSql [.fromInt "id" 7, .fromChars ":n" "x"] =
          .ok ("a = ? AND b = ':id' AND c = ?::text OR d = ?", orderedM) ∧
        orderedP.map DataField.getName = ["id", ":n"] ∧
        orderedM.map DataField.getName = ["id", ":n", "id"] ∧
        outText pg = "a = $1 AND b = ':id' AND c = $2::text OR d = $1" ∧
        pg.filterMap Piece.occurrence? = [(4, ":id"), (30, ":n"), (46, ":id")] ∧
        List.Forall₂ (fun marker field => ∃ k, marker = .dollar (k + 1) ∧
          orderedP[k]? = some field) (pg.filterMap Piece.marker?) orderedM := by
  have hpg : ((Postgres.rewriteSql repeatedNameSql
      [.fromInt "id" 7, .fromChars ":n" "x"]).toOption.map fun r =>
        (r.1, r.2.map DataField.getName)) =
      some ("a = $1 AND b = ':id' AND c = $2::text OR d = $1", ["id", ":n"]) := by
    decide +kernel
  have hmy : ((Mysql.rewriteSql repeatedNameSql
      [.fromInt "id" 7, .fromChars ":n" "x"]).toOption.map fun r =>
        (r.1, r.2.map DataField.getName)) =
      some ("a = ? AND b = ':id' AND c = ?::text OR d = ?", ["id", ":n", "id"]) := by
    decide +kernel
  have hocc : occurrences repeatedNameSql = [(4, ":id"), (30, ":n"), (46, ":id")] := by
    decide +kernel
  obtain ⟨⟨outP, orderedP⟩, hpgOk, hpgEq⟩ := Option.map_eq_some_iff.mp hpg
  obtain ⟨⟨outM, orderedM⟩, hmyOk, hmyEq⟩ := Option.map_eq_some_iff.mp hmy
  obtain ⟨rfl, hpgNames⟩ := Prod.mk.inj hpgEq
  obtain ⟨rfl, hmyNames⟩ := Prod.mk.inj hmyEq
  have hpgOk := Foundation.toOption_eq_some_iff.mp hpgOk
  have hmyOk := Foundation.toOption_eq_some_iff.mp hmyOk
  obtain ⟨pg, my, htext, -, hocc', -, -, -, hfields⟩ :=
    (rewriteSql_agree repeatedNameSql [.fromInt "id" 7, .fromChars ":n" "x"]).2
      _ _ _ _ hpgOk hmyOk
  exact ⟨orderedP, orderedM, pg, hpgOk, hmyOk, hpgNames, hmyNames, htext, hocc'.trans hocc,
    hfields⟩

end WpKnowledge
