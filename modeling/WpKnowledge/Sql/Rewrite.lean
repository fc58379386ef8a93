import WpKnowledge.Foundation.FoldExcept
import WpKnowledge.Model.Query

/-!
# Rewriting named parameters

The PostgreSQL and the MySQL provider accept SQL with `:name` placeholders and
rewrite it to the placeholders of their engine before they bind the fields: to
`$k`, one number for each name, or to `?`, one for each occurrence.  Each file has
its own copy of the scanner.  The copies differ in what they emit for a
placeholder and in the text of one error: what they have in common is here one
loop, {lit}`rewriteLoop`, over a {lit}`Dialect`.

The loop works on the bytes of the statement.  Its output is kept as a list of
pieces, so that an emitted placeholder is not confused with a `$1` or a `?` of
the statement itself.

Main results:

- Theorem {lit}`rewriteLoop_eq_foldlM`: the loop emits, one after the other, the
  lexemes of the statement, which depend on neither the parameters nor the dialect.
- Theorems {lit}`Dialect.exists_rewrite_eq_ok_iff` and {lit}`Dialect.occurrences_eq`: a
  rewriting fails only for a missing parameter, and replaces the placeholders of
  the statement.
- Theorems {lit}`Postgres.markers_refer` and {lit}`Mysql.map_ordered`: the fields bound are
  those the names of the placeholders stand for.
-/

namespace WpKnowledge

/-! ## Names and byte classes -/

/-- The name of a parameter with its leading colon. -/
def normalizeParamName (name : String) : String :=
  if name.toList.head? = some ':' then name else ":" ++ name

/-- The bytes a placeholder name starts with. -/
def isParamStart (byte : UInt8) : Bool :=
  (65 ≤ byte && byte ≤ 90) || (97 ≤ byte && byte ≤ 122) || byte == 95

/-- The bytes a placeholder name goes on with. -/
def isParamContinue (byte : UInt8) : Bool :=
  isParamStart byte || (48 ≤ byte && byte ≤ 57)

/-- The bytes the tag of a dollar quote starts with. -/
def isDollarTagStart (byte : UInt8) : Bool :=
  (65 ≤ byte && byte ≤ 90) || (97 ≤ byte && byte ≤ 122) || byte == 95

/-- The bytes the tag of a dollar quote goes on with. -/
def isDollarTagContinue (byte : UInt8) : Bool :=
  isDollarTagStart byte || (48 ≤ byte && byte ≤ 57)

/-- The search for the closing `$` of a tag, from the byte at {lit}`idx` on. -/
def dollarTagLength (idx : Nat) : List UInt8 → Option Nat
  | [] => none
  | b :: rest =>
      if b = '$'.toUInt8 then some (idx + 1)
      else if idx = 1 then
        if isDollarTagStart b then dollarTagLength (idx + 1) rest else none
      else if isDollarTagContinue b then dollarTagLength (idx + 1) rest else none

/-- The length of the opening tag of a dollar quote, if the input starts with one. -/
def parseDollarQuoteTag : List UInt8 → Option Nat
  | [] => none
  | b :: rest => if b = '$'.toUInt8 then dollarTagLength 1 rest else none

/-! ## The regions the scanner copies -/

/-- How many bytes the loop of a quoted region copies after the opening quote:
up to the first quote that is not doubled, or to the end. -/
def quotedLength (quote : UInt8) : List UInt8 → Nat
  | [] => 0
  | b :: rest =>
      if b = quote then
        match rest with
        | [] => 1
        | c :: rest' => if c = quote then 2 + quotedLength quote rest' else 1
      else 1 + quotedLength quote rest

/-- How many bytes the loop of a line comment copies after the two dashes. -/
def lineCommentLength : List UInt8 → Nat
  | [] => 0
  | b :: rest => if b = '\n'.toUInt8 then 1 else 1 + lineCommentLength rest

/-- How many bytes the loop of a block comment copies after its opening. -/
def blockCommentLength : List UInt8 → Nat
  | [] => 0
  | b :: rest =>
      if b = '*'.toUInt8 ∧ rest.head? = some '/'.toUInt8 then 2
      else 1 + blockCommentLength rest

/-- What one iteration outside a dollar quote does with the bytes it looks at. -/
inductive Region where
  /-- {lit}`n` bytes are copied. -/
  | copy (n : Nat)
  /-- {lit}`n` bytes are copied and a dollar quote with them as its tag begins. -/
  | dollarQuote (n : Nat)
  /-- {lit}`n` bytes are a placeholder with its colon. -/
  | param (n : Nat)
deriving DecidableEq, Repr

/-- The match of the loop on the byte {lit}`b` it has reached and the bytes after it. -/
def regionAt (b : UInt8) (rest : List UInt8) : Region :=
  if b = '\''.toUInt8 then .copy (1 + quotedLength '\''.toUInt8 rest)
  else if b = '"'.toUInt8 then .copy (1 + quotedLength '"'.toUInt8 rest)
  else if b = '-'.toUInt8 ∧ rest.head? = some '-'.toUInt8 then
    .copy (2 + lineCommentLength rest.tail)
  else if b = '/'.toUInt8 ∧ rest.head? = some '*'.toUInt8 then
    .copy (2 + blockCommentLength rest.tail)
  else if b = '$'.toUInt8 then
    match parseDollarQuoteTag (b :: rest) with
    | some tagLen => .dollarQuote tagLen
    | none => .copy 1
  else if b = ':'.toUInt8 then
    -- a cast
    if rest.head? = some ':'.toUInt8 then .copy 2
    else if (rest.head?.map isParamStart).getD false then
      .param (2 + (rest.tail.takeWhile isParamContinue).length)
    else .copy 1
  else .copy 1

/-! ## The loop -/

/-- What a dialect writes for a placeholder. -/
inductive Marker where
  | dollar (number : Nat)
  | question
deriving DecidableEq, Repr

/-- The text of a marker. -/
def Marker.text : Marker → String
  | dollar number => "$" ++ toString number
  | question => "?"

/-- A piece of the rewritten statement: a character of it, or the marker emitted
for the placeholder that starts at byte {lit}`start`. -/
inductive Piece where
  | text (c : Char)
  | placeholder (start : Nat) (rawName : String) (marker : Marker)
deriving DecidableEq, Repr

namespace Piece

/-- The piece with the marker every dialect has in common. -/
def unmarked : Piece → Piece
  | text c => .text c
  | placeholder start rawName _ => .placeholder start rawName .question

/-- The placeholder a piece was emitted for. -/
def occurrence? : Piece → Option (Nat × String)
  | text _ => none
  | placeholder start rawName _ => some (start, rawName)

/-- The marker of an emitted piece. -/
def marker? : Piece → Option Marker
  | text _ => none
  | placeholder _ _ marker => some marker

/-- The text of a piece, with the given text for every marker. -/
def textWith (mark : Marker → String) : Piece → String
  | text c => c.toString
  | placeholder _ _ marker => mark marker

@[simp]
theorem occurrence?_unmarked (p : Piece) : p.unmarked.occurrence? = p.occurrence? := by
  cases p <;> rfl

@[simp]
theorem textWith_unmarked (mark : String) (p : Piece) :
    p.unmarked.textWith (fun _ => mark) = p.textWith fun _ => mark := by
  cases p <;> rfl

end Piece

/-- A byte taken for a character (`byte as char`). -/
def byteAsChar (byte : UInt8) : Char :=
  Char.ofNat byte.toNat

/-- Bytes taken for characters.  For the slices of names and tags, whose bytes
are ASCII, this is their text. -/
def bytesAsString (bytes : List UInt8) : String :=
  String.ofList (bytes.map byteAsChar)

/-- Bytes copied to the output. -/
def copied (bytes : List UInt8) : List Piece :=
  bytes.map fun b => .text (byteAsChar b)

/-- What the two copies of the scanner do differently: the name in the error for
a missing parameter, what they keep about the placeholders met, and what they
emit for one. -/
structure Dialect (σ : Type) where
  provider : String
  init : σ
  bind : σ → String → DataField → σ × Marker
  ordered : σ → List DataField

section Loop

variable {σ : Type} (dialect : Dialect σ) (byName : HashMap String DataField)

/-- The error for a placeholder without a parameter. -/
def Dialect.missingParam (rawName : String) : KnowledgeError :=
  { reason := .ruleError, detail := dialect.provider ++ " query missing param: " ++ rawName }

/-- The loop of the scanner over the bytes from position {lit}`i` on. -/
def rewriteLoop (i : Nat) (bytes : List UInt8) (dollarTag : Option (List UInt8))
    (out : List Piece) (binds : σ) : KnowledgeResult (List Piece × σ) :=
  match bytes with
  | [] => .ok (out, binds)
  | b :: rest =>
      match dollarTag with
      | some tag =>
          if tag.isPrefixOf (b :: rest) then
            rewriteLoop (i + tag.length) (rest.drop (tag.length - 1)) none (out ++ copied tag) binds
          else rewriteLoop (i + 1) rest (some tag) (out ++ copied [b]) binds
      | none =>
          match regionAt b rest with
          | .copy n =>
              rewriteLoop (i + n) (rest.drop (n - 1)) none
                (out ++ copied ((b :: rest).take n)) binds
          | .dollarQuote n =>
              rewriteLoop (i + n) (rest.drop (n - 1)) (some ((b :: rest).take n))
                (out ++ copied ((b :: rest).take n)) binds
          | .param n =>
              let rawName := bytesAsString ((b :: rest).take n)
              match byName.lookup rawName with
              | none => .error (dialect.missingParam rawName)
              | some field =>
                  let (binds, marker) := dialect.bind binds rawName field
                  rewriteLoop (i + n) (rest.drop (n - 1)) none
                    (out ++ [.placeholder i rawName marker]) binds
termination_by bytes.length

/-- The parameters by their normalised names; of two with one name the later stays. -/
def paramsByName (params : List DataField) : HashMap String DataField :=
  params.foldl (fun byName field => byName.insert (normalizeParamName field.getName) field) ∅

/-- A rewritten statement and the fields to bind, with the pieces of the
statement still apart. -/
structure Rewritten where
  out : List Piece
  ordered : List DataField

namespace Rewritten

/-- The text of a rewritten statement, with the given text for every marker. -/
def textWith (mark : Marker → String) (r : Rewritten) : String :=
  String.join (r.out.map (Piece.textWith mark))

/-- The text of a rewritten statement. -/
def text (r : Rewritten) : String :=
  r.textWith Marker.text

/-- The placeholders that were replaced. -/
def occurrences (r : Rewritten) : List (Nat × String) :=
  r.out.filterMap Piece.occurrence?

/-- The markers that were emitted. -/
def markers (r : Rewritten) : List Marker :=
  r.out.filterMap Piece.marker?

end Rewritten

/-- The rewriting of a statement for a list of parameters. -/
def Dialect.rewrite (sql : String) (params : List DataField) : KnowledgeResult Rewritten :=
  (rewriteLoop dialect (paramsByName params) 0 sql.toUTF8.toList none [] dialect.init).map
    fun (out, binds) => { out, ordered := dialect.ordered binds }

end Loop

namespace Postgres

/-- What the PostgreSQL scanner keeps: the numbers given out and the fields in
the order of their numbers. -/
structure Binds where
  assignedNumbers : HashMap String Nat
  ordered : List DataField

/-- A name keeps the number it was given at its first occurrence. -/
def Binds.bind (binds : Binds) (rawName : String) (field : DataField) : Binds × Marker :=
  match binds.assignedNumbers.lookup rawName with
  | some idx => (binds, .dollar idx)
  | none =>
      let idx := binds.ordered.length + 1
      ({ assignedNumbers := binds.assignedNumbers.insert rawName idx
         ordered := binds.ordered ++ [field] }, .dollar idx)

/-- The PostgreSQL dialect. -/
def dialect : Dialect Binds where
  provider := "postgres"
  init := { assignedNumbers := ∅, ordered := [] }
  bind := Binds.bind
  ordered := Binds.ordered

end Postgres

namespace Mysql

/-- The MySQL dialect: every occurrence is bound anew. -/
def dialect : Dialect (List DataField) where
  provider := "mysql"
  init := []
  bind ordered _ field := (ordered ++ [field], .question)
  ordered := id

end Mysql

/-! ## The lexemes of a statement -/

/-- What the scanner tells apart in a statement. -/
inductive Lexeme where
  | byte (b : UInt8)
  | param (start : Nat) (rawName : String)
deriving DecidableEq, Repr

/-- The placeholder a lexeme is, if it is one. -/
def Lexeme.occurrence? : Lexeme → Option (Nat × String)
  | .byte _ => none
  | .param start rawName => some (start, rawName)

/-- The piece of a lexeme, with the same marker for every placeholder. -/
def Lexeme.piece : Lexeme → Piece
  | .byte b => .text (byteAsChar b)
  | .param start rawName => .placeholder start rawName .question

/-- The lexemes of the bytes from position {lit}`i` on. -/
def lexemesFrom (i : Nat) (bytes : List UInt8) (dollarTag : Option (List UInt8)) : List Lexeme :=
  match bytes with
  | [] => []
  | b :: rest =>
      match dollarTag with
      | some tag =>
          if tag.isPrefixOf (b :: rest) then
            tag.map .byte ++ lexemesFrom (i + tag.length) (rest.drop (tag.length - 1)) none
          else .byte b :: lexemesFrom (i + 1) rest (some tag)
      | none =>
          match regionAt b rest with
          | .copy n =>
              ((b :: rest).take n).map .byte ++ lexemesFrom (i + n) (rest.drop (n - 1)) none
          | .dollarQuote n =>
              ((b :: rest).take n).map .byte ++
                lexemesFrom (i + n) (rest.drop (n - 1)) (some ((b :: rest).take n))
          | .param n =>
              .param i (bytesAsString ((b :: rest).take n)) ::
                lexemesFrom (i + n) (rest.drop (n - 1)) none
termination_by bytes.length

/-- The lexemes of a statement. -/
def lexemes (sql : String) : List Lexeme :=
  lexemesFrom 0 sql.toUTF8.toList none

/-- The placeholders of a statement: where each starts, and its name. -/
def occurrences (sql : String) : List (Nat × String) :=
  (lexemes sql).filterMap Lexeme.occurrence?

section Emission

variable {σ : Type} (dialect : Dialect σ) (byName : HashMap String DataField)

/-- What the loop does for one lexeme. -/
def emit (s : List Piece × σ) : Lexeme → KnowledgeResult (List Piece × σ)
  | .byte b => .ok (s.1 ++ [.text (byteAsChar b)], s.2)
  | .param start rawName =>
      match byName.lookup rawName with
      | none => .error (dialect.missingParam rawName)
      | some field =>
          let (binds, marker) := dialect.bind s.2 rawName field
          .ok (s.1 ++ [.placeholder start rawName marker], binds)

/-- Emitting copied bytes only appends them. -/
theorem foldlM_emit_bytes (bytes : List UInt8) (out : List Piece) (binds : σ) :
    (bytes.map Lexeme.byte).foldlM (emit dialect byName) (out, binds) =
      .ok (out ++ copied bytes, binds) := by
  induction bytes generalizing out with
  | nil => simp [copied, pure, Except.pure]
  | cons b bytes ih =>
      rw [List.map_cons, List.foldlM_cons]
      have hstep : emit dialect byName (out, binds) (.byte b) =
          .ok (out ++ [.text (byteAsChar b)], binds) := rfl
      rw [hstep]
      change (bytes.map Lexeme.byte).foldlM (emit dialect byName)
        (out ++ [.text (byteAsChar b)], binds) = _
      rw [ih]
      simp [copied]

/-- The loop emits the lexemes of the statement one after the other. -/
theorem rewriteLoop_eq_foldlM (i : Nat) (bytes : List UInt8) (dollarTag : Option (List UInt8))
    (out : List Piece) (binds : σ) :
    rewriteLoop dialect byName i bytes dollarTag out binds =
      (lexemesFrom i bytes dollarTag).foldlM (emit dialect byName) (out, binds) := by
  fun_induction lexemesFrom i bytes dollarTag generalizing out binds with
  | case1 i dollarTag =>
      rw [rewriteLoop]
      rfl
  | case2 i b rest tag hstart ih =>
      rw [rewriteLoop, if_pos hstart, ih, List.foldlM_append, foldlM_emit_bytes]
      rfl
  | case3 i b rest tag hstart ih =>
      rw [rewriteLoop, if_neg hstart, ih]
      rfl
  | case4 i b rest n hregion ih =>
      rw [rewriteLoop, hregion, List.foldlM_append, foldlM_emit_bytes]
      exact ih _ _
  | case5 i b rest n hregion ih =>
      rw [rewriteLoop, hregion, List.foldlM_append, foldlM_emit_bytes]
      exact ih _ _
  | case6 i b rest n hregion ih =>
      rw [rewriteLoop, hregion, List.foldlM_cons]
      simp only [emit]
      cases hlookup : byName.lookup (bytesAsString ((b :: rest).take n)) with
      | none => rfl
      | some field => exact ih _ _

/-- A step succeeds unless it meets a placeholder without a parameter. -/
theorem exists_emit_eq_ok_iff (s : List Piece × σ) (l : Lexeme) :
    (∃ s', emit dialect byName s l = .ok s') ↔
      ∀ start rawName, l = .param start rawName → (byName.lookup rawName).isSome := by
  cases l with
  | byte b => simp [emit]
  | param start rawName =>
      cases hlookup : byName.lookup rawName with
      | none => simp [emit, hlookup]
      | some field => simp [emit, hlookup]

variable {dialect byName} in
/-- What a successful step does. -/
theorem emit_cases {s s' : List Piece × σ} {l : Lexeme} (h : emit dialect byName s l = .ok s') :
    (∃ b, l = .byte b ∧ s' = (s.1 ++ [.text (byteAsChar b)], s.2)) ∨
      ∃ start rawName field, l = .param start rawName ∧ byName.lookup rawName = some field ∧
        s' = (s.1 ++ [.placeholder start rawName (dialect.bind s.2 rawName field).2],
          (dialect.bind s.2 rawName field).1) := by
  cases l with
  | byte b =>
      left
      cases h
      exact ⟨b, rfl, rfl⟩
  | param start rawName =>
      right
      simp only [emit] at h
      cases hlookup : byName.lookup rawName with
      | none => simp [hlookup] at h
      | some field =>
          simp only [hlookup, Except.ok.injEq] at h
          exact ⟨start, rawName, field, rfl, hlookup, h.symm⟩

end Emission

/-! ## What a rewriting keeps of the statement -/

section Rewriting

variable {σ : Type} {dialect : Dialect σ} {sql : String} {params : List DataField}

/-- A rewriting is a fold over the lexemes of the statement. -/
theorem Dialect.rewrite_eq_ok_iff {r : Rewritten} :
    dialect.rewrite sql params = .ok r ↔
      ∃ binds, (lexemes sql).foldlM (emit dialect (paramsByName params)) ([], dialect.init) =
          .ok (r.out, binds) ∧ r.ordered = dialect.ordered binds := by
  rw [Dialect.rewrite, rewriteLoop_eq_foldlM]
  change Except.map _ ((lexemes sql).foldlM _ _) = _ ↔ _
  cases hfold : (lexemes sql).foldlM (emit dialect (paramsByName params)) ([], dialect.init) with
  | error e => simp [Except.map]
  | ok s =>
      obtain ⟨out, binds⟩ := s
      obtain ⟨out', ordered⟩ := r
      simp only [Except.map, Except.ok.injEq, Rewritten.mk.injEq, Prod.mk.injEq]
      constructor
      · rintro ⟨rfl, rfl⟩
        exact ⟨binds, ⟨rfl, rfl⟩, rfl⟩
      · rintro ⟨binds', ⟨rfl, rfl⟩, rfl⟩
        exact ⟨rfl, rfl⟩

/-- Whether a statement is accepted depends on the names in it only. -/
theorem Dialect.exists_rewrite_eq_ok_iff :
    (∃ r, dialect.rewrite sql params = .ok r) ↔
      ∀ o ∈ occurrences sql, ((paramsByName params).lookup o.2).isSome := by
  have hfold := Foundation.exists_foldlM_eq_ok_iff
    (exists_emit_eq_ok_iff dialect (paramsByName params)) (lexemes sql) ([], dialect.init)
  have hleft : (∃ r, dialect.rewrite sql params = .ok r) ↔
      ∃ s, (lexemes sql).foldlM (emit dialect (paramsByName params)) ([], dialect.init) =
        .ok s := by
    simp only [Dialect.rewrite_eq_ok_iff]
    constructor
    · intro ⟨r, binds, h, _⟩
      exact ⟨_, h⟩
    · intro ⟨⟨out, binds⟩, h⟩
      exact ⟨⟨out, dialect.ordered binds⟩, binds, h, rfl⟩
  rw [hleft, hfold]
  constructor
  · intro h o ho
    obtain ⟨l, hl, hlo⟩ := List.mem_filterMap.mp ho
    cases l with
    | byte b => cases hlo
    | param start rawName =>
        cases hlo
        exact h _ hl start rawName rfl
  · intro h l hl start rawName hlo
    refine h (start, rawName) (List.mem_filterMap.mpr ⟨l, hl, ?_⟩)
    rw [hlo]
    rfl

/-- Up to the markers, the output is the statement. -/
theorem Dialect.map_unmarked_out {r : Rewritten} (h : dialect.rewrite sql params = .ok r) :
    r.out.map Piece.unmarked = (lexemes sql).map Lexeme.piece := by
  obtain ⟨binds, hfold, -⟩ := Dialect.rewrite_eq_ok_iff.mp h
  refine Foundation.foldlM_invariant
    (P := fun ls s => s.1.map Piece.unmarked = ls.map Lexeme.piece) (by simp) ?_ hfold
  intro ls s l s' hs hstep
  obtain ⟨b, rfl, rfl⟩ | ⟨start, rawName, field, rfl, hlookup, rfl⟩ := emit_cases hstep
  · simp [hs, Piece.unmarked, Lexeme.piece]
  · simp [hs, Piece.unmarked, Lexeme.piece]

/-- The placeholders replaced are those of the statement. -/
theorem Dialect.occurrences_eq {r : Rewritten} (h : dialect.rewrite sql params = .ok r) :
    r.occurrences = occurrences sql := by
  have hmap := congrArg (List.filterMap Piece.occurrence?) (Dialect.map_unmarked_out h)
  rw [List.filterMap_map, List.filterMap_map] at hmap
  have hpiece : Piece.occurrence? ∘ Lexeme.piece = Lexeme.occurrence? := by
    ext l : 1
    cases l <;> rfl
  have hunmarked : Piece.occurrence? ∘ Piece.unmarked = Piece.occurrence? := by
    ext p : 1
    simp
  rwa [hpiece, hunmarked] at hmap

/-- With one text for all markers, the output depends on the statement only. -/
theorem Dialect.textWith_eq {r : Rewritten} (h : dialect.rewrite sql params = .ok r)
    (mark : String) :
    r.textWith (fun _ => mark) =
      String.join ((lexemes sql).map fun l => l.piece.textWith fun _ => mark) := by
  have hmap := congrArg (List.map (Piece.textWith fun _ => mark)) (Dialect.map_unmarked_out h)
  simp only [List.map_map, Function.comp_def, Piece.textWith_unmarked] at hmap
  rw [Rewritten.textWith, hmap]

end Rewriting

/-! ## The fields bound to the placeholders -/

/-- The marker of an occurrence refers to the field its name stands for. -/
def Postgres.Refers (byName : HashMap String DataField) (ordered : List DataField)
    (marker : Marker) (o : Nat × String) : Prop :=
  ∃ k field, marker = .dollar (k + 1) ∧ byName.lookup o.2 = some field ∧ ordered[k]? = some field

/-- More fields at the end leave what a marker refers to. -/
theorem Postgres.Refers.append {byName : HashMap String DataField} {ordered : List DataField}
    {marker : Marker} {o : Nat × String} (h : Refers byName ordered marker o)
    (fields : List DataField) : Refers byName (ordered ++ fields) marker o := by
  obtain ⟨k, field, hmarker, hlookup, hk⟩ := h
  have hlt : k < ordered.length := (List.getElem?_eq_some_iff.mp hk).1
  refine ⟨k, field, hmarker, hlookup, ?_⟩
  rwa [List.getElem?_append_left hlt]

/-- What the PostgreSQL scanner has done after some lexemes: the numbers given out
and the markers emitted refer to the fields of their names. -/
structure Postgres.NumberingInv (byName : HashMap String DataField) (ls : List Lexeme)
    (s : List Piece × Binds) : Prop where
  numbered : ∀ name number, s.2.assignedNumbers.lookup name = some number →
    ∀ start, Refers byName s.2.ordered (.dollar number) (start, name)
  marked : List.Forall₂ (Refers byName s.2.ordered) (s.1.filterMap Piece.marker?)
    (ls.filterMap Lexeme.occurrence?)

/-- A step of the PostgreSQL scanner keeps the invariant. -/
theorem Postgres.NumberingInv.step {byName : HashMap String DataField} {ls : List Lexeme}
    {s s' : List Piece × Binds} {l : Lexeme} (h : NumberingInv byName ls s)
    (hstep : emit dialect byName s l = .ok s') : NumberingInv byName (ls ++ [l]) s' := by
  obtain ⟨b, rfl, rfl⟩ | ⟨start, rawName, field, rfl, hfield, rfl⟩ := emit_cases hstep
  · refine ⟨h.numbered, ?_⟩
    simpa [List.filterMap_cons, Piece.marker?, Lexeme.occurrence?] using h.marked
  · obtain ⟨out, binds⟩ := s
    have hocc : (ls ++ [Lexeme.param start rawName]).filterMap Lexeme.occurrence? =
        ls.filterMap Lexeme.occurrence? ++ [(start, rawName)] := by
      simp [Lexeme.occurrence?]
    cases hassigned : binds.assignedNumbers.lookup rawName with
    | some idx =>
        -- the name keeps its number
        have hbind : dialect.bind binds rawName field = (binds, .dollar idx) := by
          simp [dialect, Binds.bind, hassigned]
        simp only [hbind]
        refine ⟨h.numbered, ?_⟩
        rw [hocc, List.filterMap_append]
        have hrefers := h.numbered rawName idx hassigned start
        exact List.rel_append h.marked (.cons hrefers .nil)
    | none =>
        have hbind : dialect.bind binds rawName field =
            ({ assignedNumbers := binds.assignedNumbers.insert rawName (binds.ordered.length + 1)
               ordered := binds.ordered ++ [field] }, .dollar (binds.ordered.length + 1)) := by
          simp [dialect, Binds.bind, hassigned]
        simp only [hbind]
        have hnew : ∀ start, Refers byName (binds.ordered ++ [field])
            (.dollar (binds.ordered.length + 1)) (start, rawName) := by
          intro start
          exact ⟨binds.ordered.length, field, rfl, hfield, by simp⟩
        constructor
        · intro name number hnumber start
          by_cases hname : name = rawName
          · subst hname
            rw [AList.lookup_insert] at hnumber
            cases hnumber
            exact hnew start
          · rw [AList.lookup_insert_ne hname] at hnumber
            exact (h.numbered name number hnumber start).append [field]
        · rw [hocc, List.filterMap_append]
          have hmarked := h.marked.imp fun _ _ hrefers => hrefers.append [field]
          exact List.rel_append hmarked (.cons (hnew start) .nil)

/-- Every marker the PostgreSQL scanner emits refers to the field of its name. -/
theorem Postgres.markers_refer {sql : String} {params : List DataField} {r : Rewritten}
    (h : dialect.rewrite sql params = .ok r) :
    List.Forall₂ (Refers (paramsByName params) r.ordered) r.markers (occurrences sql) := by
  obtain ⟨binds, hfold, hordered⟩ := Dialect.rewrite_eq_ok_iff.mp h
  have hinit : NumberingInv (paramsByName params) [] ([], dialect.init) := by
    constructor
    · intro name number hnumber
      cases hnumber
    · exact .nil
  have hinv := Foundation.foldlM_invariant hinit (fun _ _ _ _ => NumberingInv.step) hfold
  rw [hordered]
  exact hinv.marked

/-- The MySQL scanner binds, in order, the field of every occurrence. -/
theorem Mysql.map_ordered {sql : String} {params : List DataField} {r : Rewritten}
    (h : dialect.rewrite sql params = .ok r) :
    r.ordered.map some = (occurrences sql).map fun o => (paramsByName params).lookup o.2 := by
  obtain ⟨binds, hfold, hordered⟩ := Dialect.rewrite_eq_ok_iff.mp h
  rw [hordered]
  refine Foundation.foldlM_invariant
    (P := fun ls s => s.2.map some =
      (ls.filterMap Lexeme.occurrence?).map fun o => (paramsByName params).lookup o.2) rfl ?_ hfold
  intro ls s l s' hs hstep
  obtain ⟨b, rfl, rfl⟩ | ⟨start, rawName, field, rfl, hlookup, rfl⟩ := emit_cases hstep
  · simpa [List.filterMap_cons, Lexeme.occurrence?] using hs
  · simp [Lexeme.occurrence?, dialect, hs, hlookup]

/-- Every marker the MySQL scanner emits is a question mark. -/
theorem Mysql.markers_eq {sql : String} {params : List DataField} {r : Rewritten}
    (h : dialect.rewrite sql params = .ok r) : ∀ marker ∈ r.markers, marker = .question := by
  obtain ⟨binds, hfold, -⟩ := Dialect.rewrite_eq_ok_iff.mp h
  refine Foundation.foldlM_invariant
    (P := fun _ s => ∀ marker ∈ s.1.filterMap Piece.marker?, marker = .question)
    (by simp) ?_ hfold
  intro ls s l s' hs hstep
  obtain ⟨b, rfl, rfl⟩ | ⟨start, rawName, field, rfl, hlookup, rfl⟩ := emit_cases hstep
  · simpa [Piece.marker?] using hs
  · intro marker hmarker
    rw [List.filterMap_append, List.mem_append] at hmarker
    rcases hmarker with hmarker | hmarker
    · exact hs marker hmarker
    · simpa [Piece.marker?, dialect] using hmarker

end WpKnowledge
