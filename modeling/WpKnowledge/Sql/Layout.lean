import Mathlib.Data.List.Chain
import WpKnowledge.Foundation.Tokens
import WpKnowledge.Sql.RoutedReference

/-!
# Layouts of a statement

The tokens of a statement are words, quoted texts and symbols.  Between quotes a quote
is doubled, and a comment between `/*` and `*/` has no other one inside.  A layout
writes the tokens down in their order, with any whitespace and any comments between
them, so that no two neighbours read as something else.  What the scanners of
{lit}`Sql/Route` take for code in the text of a layout is what its pieces say.

Main results:

- Theorem {lit}`tags_textOf`: which bytes of the text of a layout are code.
- Theorem {lit}`splitKeyword_layout`: the scanner finds the first `from` of a layout.
- Theorem {lit}`splitParen_layout`: the scanner finds the end of a nested layout.
-/

open Foundation (QuotedBody Closes)

namespace WpKnowledge.SqlRoute

/-! ## Tokens -/

/-- The bytes of words: those of identifiers, a dollar sign, and the bytes of the
characters outside ASCII. -/
def isNameByte (byte : UInt8) : Bool :=
  isIdentByte byte || byte == '$'.toUInt8 || 128 ≤ byte

/-- The bytes that open a quoted text. -/
def isQuoteByte (byte : UInt8) : Bool :=
  byte == '\''.toUInt8 || byte == '"'.toUInt8 || byte == 96 || byte == '['.toUInt8

/-- The bytes of punctuation and operators. -/
def isSymbolByte (byte : UInt8) : Bool :=
  !isNameByte byte && !isBlankLead byte && !isQuoteByte byte

/-- A keyword, a bare identifier or a number. -/
structure Word where
  bytes : List UInt8
  ne_nil : bytes ≠ []
  isName : ∀ b ∈ bytes, isNameByte b = true
  no_blank : ∀ char ∈ whitespaceChars, ¬ char <:+: bytes
deriving DecidableEq

/-- How a text is quoted: as a string, or as an identifier in one of three ways. -/
inductive Mark where
  | string
  | double
  | backtick
  | bracket
deriving DecidableEq, Repr

/-- The byte in front of a quoted text. -/
def Mark.opening : Mark → UInt8
  | .string => '\''.toUInt8
  | .double => '"'.toUInt8
  | .backtick => 96
  | .bracket => '['.toUInt8

/-- The byte behind a quoted text. -/
def Mark.closing : Mark → UInt8
  | .bracket => ']'.toUInt8
  | m => m.opening

/-- What may be quoted: any bytes, the quote itself doubled; no closing bracket
between brackets. -/
def Mark.Quotes (m : Mark) (body : List UInt8) : Prop :=
  if m = .bracket then ']'.toUInt8 ∉ body else QuotedBody m.closing (fun _ => False) body

/-- A string or a quoted identifier. -/
structure Quoted where
  mark : Mark
  body : List UInt8
  isQuoted : mark.Quotes body
deriving DecidableEq

/-- The bytes of a quoted text with its quotes. -/
def Quoted.bytes (q : Quoted) : List UInt8 :=
  q.mark.opening :: q.body ++ [q.mark.closing]

/-- A byte of punctuation or of an operator. -/
structure Symbol where
  byte : UInt8
  isSymbol : isSymbolByte byte = true
deriving DecidableEq

/-- A token of a statement. -/
inductive Token where
  | word (w : Word)
  | quoted (q : Quoted)
  | symbol (s : Symbol)
deriving DecidableEq

/-- The bytes of a token. -/
def Token.bytes : Token → List UInt8
  | .word w => w.bytes
  | .quoted q => q.bytes
  | .symbol s => [s.byte]

/-- The opening parenthesis. -/
def openParen : Token :=
  .symbol ⟨'('.toUInt8, by decide⟩

/-- The closing parenthesis. -/
def closeParen : Token :=
  .symbol ⟨')'.toUInt8, by decide⟩

/-- The dot in a path. -/
def dot : Token :=
  .symbol ⟨'.'.toUInt8, by decide⟩

/-- The keyword `from`, in upper or lower case. -/
def IsFrom (bytes : List UInt8) : Prop :=
  eqIgnoreAsciiCase bytes fromKeyword = true

/-- A `from` stands in a word, between bytes that are not those of identifiers. -/
def HasFrom (bytes : List UInt8) : Prop :=
  ∃ left kw right, bytes = left ++ kw ++ right ∧ IsFrom kw ∧
    (∀ b ∈ left.getLast?, isIdentByte b = false) ∧ ∀ b ∈ right.head?, isIdentByte b = false

/-- No word of the tokens is a `from` or has one in it. -/
def NoFrom (ts : List Token) : Prop :=
  ∀ w, Token.word w ∈ ts → ¬ HasFrom w.bytes

/-! ## Layouts -/

/-- A comment.  One that starts with two dashes reaches to the end of the line, or, if
it is the last one, to the end of the statement. -/
inductive Comment where
  | line (body : List UInt8) (h : '\n'.toUInt8 ∉ body)
  | block (body : List UInt8) (h : Closes ['*'.toUInt8, '/'.toUInt8] body)
  | last (body : List UInt8) (h : '\n'.toUInt8 ∉ body)

/-- The bytes of a comment without the end of the line. -/
def Comment.inside : Comment → List UInt8
  | .line body _ => '-'.toUInt8 :: '-'.toUInt8 :: body
  | .block body _ => '/'.toUInt8 :: '*'.toUInt8 :: (body ++ ['*'.toUInt8, '/'.toUInt8])
  | .last body _ => '-'.toUInt8 :: '-'.toUInt8 :: body

/-- The end of the line that ends a comment. -/
def Comment.lineEnd : Comment → List UInt8
  | .line _ _ => ['\n'.toUInt8]
  | _ => []

/-- A piece of a layout: a whitespace character, a comment or a token. -/
inductive Piece where
  | blank (char : List UInt8) (h : char ∈ whitespaceChars)
  | comment (c : Comment)
  | token (t : Token)

/-- The bytes of a piece. -/
def Piece.bytes : Piece → List UInt8
  | .blank char _ => char
  | .comment c => c.inside ++ c.lineEnd
  | .token t => t.bytes

/-- The token of a piece that is one. -/
def Piece.token? : Piece → Option Token
  | .token t => some t
  | _ => none

/-- The text of a layout. -/
def textOf (l : List Piece) : List UInt8 :=
  l.flatMap Piece.bytes

/-- The tokens of a layout. -/
def tokensOf (l : List Piece) : List Token :=
  l.filterMap Piece.token?

/-- A piece does not read as itself with the other one behind it: two words or two
texts in the same quotes are one, a symbol opens a comment, a last comment goes on. -/
def Piece.Joins : Piece → Piece → Prop
  | .token (.word _), .token (.word _) => True
  | .token (.quoted q), .token (.quoted q') => q.mark = q'.mark ∧ q.mark ≠ .bracket
  | .token (.symbol s), p =>
      (s.byte = '-'.toUInt8 ∧ p.bytes.head? = some '-'.toUInt8) ∨
        (s.byte = '/'.toUInt8 ∧ p.bytes.head? = some '*'.toUInt8)
  | .comment (.last _ _), _ => True
  | _, _ => False

/-- No two neighbours of a layout read as something else. -/
def WellLaid (l : List Piece) : Prop :=
  l.IsChain fun p q => ¬ p.Joins q

@[simp]
theorem textOf_nil : textOf [] = [] := rfl

@[simp]
theorem textOf_cons (p : Piece) (l : List Piece) : textOf (p :: l) = p.bytes ++ textOf l := rfl

@[simp]
theorem textOf_append (l m : List Piece) : textOf (l ++ m) = textOf l ++ textOf m :=
  List.flatMap_append

@[simp]
theorem tokensOf_nil : tokensOf [] = [] := rfl

@[simp]
theorem tokensOf_token (t : Token) (l : List Piece) :
    tokensOf (.token t :: l) = t :: tokensOf l := rfl

@[simp]
theorem tokensOf_blank (char : List UInt8) (h : char ∈ whitespaceChars) (l : List Piece) :
    tokensOf (.blank char h :: l) = tokensOf l := rfl

@[simp]
theorem tokensOf_comment (c : Comment) (l : List Piece) :
    tokensOf (.comment c :: l) = tokensOf l := rfl

@[simp]
theorem tokensOf_append (l m : List Piece) : tokensOf (l ++ m) = tokensOf l ++ tokensOf m :=
  List.filterMap_append

/-- Parts of a layout are layouts. -/
theorem WellLaid.of_append {l m : List Piece} (h : WellLaid (l ++ m)) :
    WellLaid l ∧ WellLaid m :=
  ⟨h.left_of_append, h.right_of_append⟩

theorem WellLaid.tail {p : Piece} {l : List Piece} (h : WellLaid (p :: l)) : WellLaid l :=
  List.IsChain.of_cons h

/-- What stands behind a piece does not join it. -/
theorem WellLaid.not_joins {p q : Piece} {l : List Piece} (h : WellLaid (p :: q :: l)) :
    ¬ p.Joins q :=
  (List.isChain_cons_cons.mp h).1

/-! ## The first bytes of pieces -/

theorem isIdentByte_of_isNameByte {b : UInt8} (h : isNameByte b = false) :
    isIdentByte b = false := by
  simp only [isNameByte, Bool.or_eq_false_iff] at h
  exact h.1.1

/-- The bytes of words open nothing. -/
theorem isOpener_of_isNameByte {b : UInt8} (h : isNameByte b = true) : isOpener b = false := by
  simp only [isNameByte, Bool.or_eq_true, beq_iff_eq, decide_eq_true_eq] at h
  rcases h with (hident | rfl) | hwide
  · exact isOpener_of_isIdentByte hident
  · decide
  · grind [isOpener_iff]

/-- The bytes of whitespace characters open nothing and are no identifier bytes. -/
theorem of_mem_whitespaceChars :
    ∀ char ∈ whitespaceChars, ∀ b ∈ char, isOpener b = false ∧ isIdentByte b = false := by
  have hall : whitespaceChars.all (fun char => char.all fun b =>
      !isOpener b && !isIdentByte b) = true := by decide
  intro char hchar b hb
  have hboth := List.all_eq_true.mp (List.all_eq_true.mp hall char hchar) b hb
  simpa using hboth

theorem ne_nil_of_mem_whitespaceChars {char : List UInt8} (h : char ∈ whitespaceChars) :
    char ≠ [] := by
  rintro rfl
  exact nil_notMem_whitespaceChars h

/-- A piece is not empty. -/
theorem Piece.bytes_ne_nil (p : Piece) : p.bytes ≠ [] := by
  cases p with
  | blank char h => exact ne_nil_of_mem_whitespaceChars h
  | comment c => cases c <;> exact List.cons_ne_nil _ _
  | token t =>
      cases t with
      | word w => exact w.ne_nil
      | quoted q => exact List.cons_ne_nil _ _
      | symbol s => exact List.cons_ne_nil _ _

/-- The text of a layout starts as its first piece does. -/
theorem head?_textOf {l : List Piece} {b : UInt8} (h : (textOf l).head? = some b) :
    ∃ p ∈ l.head?, p.bytes.head? = some b := by
  cases l with
  | nil => cases h
  | cons p l =>
      refine ⟨p, rfl, ?_⟩
      rwa [textOf_cons, List.head?_append_of_ne_nil _ p.bytes_ne_nil] at h

/-! ## Which bytes are code -/

/-- Bytes that are not code. -/
def masked (bytes : List UInt8) : List Tagged :=
  bytes.map fun b => ⟨b, false⟩

/-- The bytes of a piece with what they are. -/
def Piece.tags : Piece → List Tagged
  | .blank char _ => codes char
  | .comment c => masked c.inside ++ codes c.lineEnd
  | .token (.quoted q) => masked q.bytes
  | .token (.word w) => codes w.bytes
  | .token (.symbol s) => codes [s.byte]

/-- The bytes of a layout with what they are. -/
def tagsOf (l : List Piece) : List Tagged :=
  l.flatMap Piece.tags

@[simp]
theorem tagsOf_nil : tagsOf [] = [] := rfl

@[simp]
theorem tagsOf_cons (p : Piece) (l : List Piece) : tagsOf (p :: l) = p.tags ++ tagsOf l := rfl

@[simp]
theorem tagsOf_append (l m : List Piece) : tagsOf (l ++ m) = tagsOf l ++ tagsOf m :=
  List.flatMap_append

@[simp]
theorem bytesOf_masked (bytes : List UInt8) : bytesOf (masked bytes) = bytes := by
  simp [bytesOf, masked, Function.comp_def]

@[simp]
theorem Piece.bytesOf_tags (p : Piece) : bytesOf p.tags = p.bytes := by
  cases p with
  | blank char h => exact bytesOf_codes char
  | comment c => rw [Piece.tags, bytesOf_append, bytesOf_masked, bytesOf_codes, Piece.bytes]
  | token t =>
      cases t with
      | word w => exact bytesOf_codes w.bytes
      | quoted q => exact bytesOf_masked q.bytes
      | symbol s => exact bytesOf_codes [s.byte]

@[simp]
theorem bytesOf_tagsOf (l : List Piece) : bytesOf (tagsOf l) = textOf l := by
  induction l with
  | nil => rfl
  | cons p l ih => rw [tagsOf_cons, bytesOf_append, ih, Piece.bytesOf_tags, textOf_cons]

/-- A body in doubled quotes is read to its closing quote. -/
theorem tags_quotedBody {quote : UInt8}
    (hquote : quote = '\''.toUInt8 ∨ quote = '"'.toUInt8 ∨ quote = 96) {body : List UInt8}
    (hbody : QuotedBody quote (fun _ => False) body) (rest : List UInt8) :
    tags (.closing quote) (body ++ quote :: rest) =
      masked (body ++ [quote]) ++ tags .code rest := by
  induction hbody with
  | nil => rw [List.nil_append, tags_closing_cons, if_pos rfl]; rfl
  | @plain a s hne hescape hs ih =>
      rw [List.cons_append, tags_closing_cons, if_neg hne, ih]
      rfl
  | @doubled s hs ih =>
      -- the first quote closes the region, the second one opens the next
      have hopen : tags .code (quote :: (s ++ quote :: rest)) =
          ⟨quote, false⟩ :: tags (.closing quote) (s ++ quote :: rest) := by
        rw [tags, ScanState.next, if_pos hquote]
      rw [List.cons_append, List.cons_append, tags_closing_cons, if_pos rfl, hopen, ih]
      rfl
  | escaped hne hescape hs ih => exact hescape.elim

/-- A body without the closing byte is read to it. -/
theorem tags_closedBody {close : UInt8} {body : List UInt8} (hbody : close ∉ body)
    (rest : List UInt8) :
    tags (.closing close) (body ++ close :: rest) =
      masked (body ++ [close]) ++ tags .code rest := by
  induction body with
  | nil => rw [List.nil_append, tags_closing_cons, if_pos rfl]; rfl
  | cons b body ih =>
      have hne : b ≠ close := fun h => hbody (h ▸ List.mem_cons_self)
      have hlater := ih fun h => hbody (List.mem_cons_of_mem b h)
      rw [List.cons_append, tags_closing_cons, if_neg hne, hlater]
      rfl

/-- A quoted text is not code, and behind it the reading stands in code. -/
theorem Quoted.tags_bytes (q : Quoted) (rest : List UInt8) :
    tags .code (q.bytes ++ rest) = masked q.bytes ++ tags .code rest := by
  obtain ⟨mark, body, hbody⟩ := q
  have hregion : ∀ {close : UInt8}, tags (.closing close) (body ++ close :: rest) =
        masked (body ++ [close]) ++ tags .code rest →
      ScanState.code.next mark.opening (body ++ close :: rest).head? = (false, .closing close) →
      tags .code (mark.opening :: (body ++ close :: rest)) =
        masked (mark.opening :: (body ++ [close])) ++ tags .code rest := by
    intro close hread hnext
    rw [tags, hnext, hread]
    rfl
  have hparts : (Quoted.mk mark body hbody).bytes ++ rest =
      mark.opening :: (body ++ mark.closing :: rest) := by
    simp [Quoted.bytes]
  rw [hparts]
  cases mark with
  | string => exact hregion (tags_quotedBody (by decide) hbody rest) rfl
  | double => exact hregion (tags_quotedBody (by decide) hbody rest) rfl
  | backtick => exact hregion (tags_quotedBody (by decide) hbody rest) rfl
  | bracket => exact hregion (tags_closedBody hbody rest) rfl

/-- A line without its end is not code. -/
theorem tags_lineBody {body : List UInt8} (hbody : '\n'.toUInt8 ∉ body) (rest : List UInt8) :
    tags .line (body ++ rest) = masked body ++ tags .line rest := by
  induction body with
  | nil => rfl
  | cons b body ih =>
      have hne : b ≠ '\n'.toUInt8 := fun h => hbody (h ▸ List.mem_cons_self)
      have hlater := ih fun h => hbody (List.mem_cons_of_mem b h)
      rw [List.cons_append, tags, ScanState.next, if_neg hne]
      simp only [hlater]
      rfl

/-- The body of a block comment is read to the bytes that close it. -/
theorem tags_blockBody {body : List UInt8} (hbody : Closes ['*'.toUInt8, '/'.toUInt8] body)
    {star : Bool} (hstar : star = true → body.head? ≠ some '/'.toUInt8) (rest : List UInt8) :
    tags (.block star) (body ++ '*'.toUInt8 :: '/'.toUInt8 :: rest) =
      masked (body ++ ['*'.toUInt8, '/'.toUInt8]) ++ tags .code rest := by
  induction body generalizing star with
  | nil => cases star <;> rfl
  | cons b body ih =>
      have hwhole : ¬ ['*'.toUInt8, '/'.toUInt8] <:+: b :: body ++ ['*'.toUInt8] := by
        intro h
        refine hbody ?_
        rw [List.dropLast_append_of_ne_nil (List.cons_ne_nil _ _)]
        exact h
      have hlater : Closes ['*'.toUInt8, '/'.toUInt8] body := by
        rw [Closes, List.dropLast_append_of_ne_nil (List.cons_ne_nil _ _)]
        exact fun h => hwhole (h.trans (List.suffix_cons b _).isInfix)
      have hnext : decide (b = '*'.toUInt8) = true → body.head? ≠ some '/'.toUInt8 := by
        intro hb hhead
        obtain ⟨body', rfl⟩ := List.head?_eq_some_iff.mp hhead
        rw [of_decide_eq_true hb] at hwhole
        exact hwhole ⟨[], body' ++ ['*'.toUInt8], rfl⟩
      have hopen : ¬ (star = true ∧ b = '/'.toUInt8) := by
        rintro ⟨hs, rfl⟩
        exact hstar hs rfl
      rw [List.cons_append, tags, ScanState.next, if_neg hopen]
      simp only [ih hlater hnext]
      rfl

/-- A comment is not code up to the end of its line. -/
theorem Comment.tags_bytes (c : Comment) {rest : List UInt8}
    (hrest : ∀ body h, c = .last body h → rest = []) :
    tags .code (c.inside ++ c.lineEnd ++ rest) =
      masked c.inside ++ codes c.lineEnd ++ tags .code rest := by
  have hdashes : ∀ s : List UInt8, tags .code ('-'.toUInt8 :: '-'.toUInt8 :: s) =
      masked ['-'.toUInt8, '-'.toUInt8] ++ tags .line s := fun s => rfl
  cases c with
  | line body h =>
      have hend : tags .line ('\n'.toUInt8 :: rest) =
          codes ['\n'.toUInt8] ++ tags .code rest := rfl
      simp only [Comment.inside, Comment.lineEnd, List.cons_append, List.append_assoc,
        List.nil_append]
      rw [hdashes, tags_lineBody h, hend]
      rfl
  | block body h =>
      have hopen : ∀ s : List UInt8, tags .code ('/'.toUInt8 :: '*'.toUInt8 :: s) =
          masked ['/'.toUInt8, '*'.toUInt8] ++ tags (.block false) s := fun s => rfl
      simp only [Comment.inside, Comment.lineEnd, List.cons_append, List.append_assoc,
        List.nil_append]
      rw [hopen, tags_blockBody h (fun h => by cases h)]
      simp [masked, codes]
  | last body h =>
      have hnil := hrest body h rfl
      subst hnil
      have hline := tags_lineBody h []
      simp only [Comment.inside, Comment.lineEnd, List.append_nil] at hline ⊢
      rw [hdashes, hline]
      simp [masked, codes, tags]

/-- A symbol that joins nothing is code. -/
theorem Symbol.tags_byte (s : Symbol) {rest : List UInt8}
    (hdash : ¬ (s.byte = '-'.toUInt8 ∧ rest.head? = some '-'.toUInt8))
    (hslash : ¬ (s.byte = '/'.toUInt8 ∧ rest.head? = some '*'.toUInt8)) :
    tags .code (s.byte :: rest) = ⟨s.byte, true⟩ :: tags .code rest := by
  obtain ⟨byte, hsymbol⟩ := s
  simp only [isSymbolByte, isQuoteByte, Bool.and_eq_true, Bool.not_eq_true', Bool.or_eq_false_iff,
    beq_eq_false_iff_ne] at hsymbol
  obtain ⟨-, ⟨⟨hsingle, hdouble⟩, hbacktick⟩, hbracket⟩ := hsymbol
  have hquote : ¬ (byte = '\''.toUInt8 ∨ byte = '"'.toUInt8 ∨ byte = 96) := by tauto
  rw [tags, ScanState.next, if_neg hquote, if_neg hbracket, if_neg hdash, if_neg hslash]

/-- A piece that what stands behind it does not join is what it says. -/
theorem Piece.tags_bytes (p : Piece) {l : List Piece} (hp : ∀ q ∈ l.head?, ¬ p.Joins q) :
    SqlRoute.tags .code (p.bytes ++ textOf l) = p.tags ++ SqlRoute.tags .code (textOf l) := by
  cases p with
  | blank char h => exact tags_codes (fun b hb => (of_mem_whitespaceChars char h b hb).1) _
  | comment c =>
      refine c.tags_bytes ?_
      rintro body h rfl
      cases l with
      | nil => rfl
      | cons q l => exact absurd trivial (hp q rfl)
  | token t =>
      cases t with
      | word w => exact tags_codes (fun b hb => isOpener_of_isNameByte (w.isName b hb)) _
      | quoted q => exact q.tags_bytes _
      | symbol s =>
          refine s.tags_byte ?_ ?_
          · rintro ⟨hs, hb⟩
            obtain ⟨q, hq, hqb⟩ := head?_textOf hb
            exact hp q hq (.inl ⟨hs, hqb⟩)
          · rintro ⟨hs, hb⟩
            obtain ⟨q, hq, hqb⟩ := head?_textOf hb
            exact hp q hq (.inr ⟨hs, hqb⟩)

/-- The scanners read a layout as what its pieces say. -/
theorem tags_textOf {l : List Piece} (hl : WellLaid l) : tags .code (textOf l) = tagsOf l := by
  induction l with
  | nil => rfl
  | cons p l ih =>
      have hp : ∀ q ∈ l.head?, ¬ p.Joins q := by
        intro q hq
        obtain ⟨l, rfl⟩ := List.head?_eq_some_iff.mp hq
        exact hl.not_joins
      rw [textOf_cons, p.tags_bytes hp, ih hl.tail, tagsOf_cons]

/-! ## The first `from` of a layout -/

/-- No keyword starts with a byte that is not one of identifiers. -/
theorem keywordAt_fromKeyword_of_not_ident {b : UInt8} (hb : isIdentByte b = false)
    (prev : Option UInt8) (rest : List UInt8) : keywordAt fromKeyword prev (b :: rest) = false := by
  rw [Bool.eq_false_iff]
  intro h
  have hlower := (keywordAt_iff.mp h).2.1
  have hident := isIdentByte_of_toAsciiLowercase_eq (by decide) hlower
  rw [hb] at hident
  cases hident

/-- Bytes that are not code or not of identifiers are passed over. -/
theorem splitKeyword_quiet {xs : List Tagged}
    (h : ∀ x ∈ xs, x.code = false ∨ isIdentByte x.byte = false) (prev : Option UInt8)
    (ts : List Tagged) :
    splitKeyword fromKeyword prev (xs ++ ts) =
      (splitKeyword fromKeyword (lastByte prev xs) ts).map
        fun split => (xs ++ split.1, split.2) := by
  induction xs generalizing prev with
  | nil => simp
  | cons x xs ih =>
      have hx : (x.code && keywordAt fromKeyword prev (bytesOf (x :: (xs ++ ts)))) = false := by
        rcases h x List.mem_cons_self with hcode | hident
        · rw [hcode, Bool.false_and]
        · rw [bytesOf_cons, keywordAt_fromKeyword_of_not_ident hident, Bool.and_false]
      have hlater := ih (fun y hy => h y (List.mem_cons_of_mem x hy)) (some x.byte)
      rw [List.cons_append, splitKeyword_cons_of_not hx, hlater, Option.map_map, lastByte_cons]
      rfl

/-- A keyword that starts in a text ends in it, if no identifier byte follows. -/
theorem exists_of_wordAt {keyword text rest : List UInt8}
    (hkeyword : ∀ b ∈ keyword, isIdentByte b = true)
    (hrest : ∀ b ∈ rest.head?, isIdentByte b = false) (h : WordAt keyword (text ++ rest)) :
    ∃ kw right, text = kw ++ right ∧ eqIgnoreAsciiCase kw keyword = true ∧
      ∀ b ∈ right.head?, isIdentByte b = false := by
  induction keyword generalizing text with
  | nil =>
      refine ⟨[], text, rfl, rfl, ?_⟩
      intro b hb
      obtain ⟨text, rfl⟩ := List.head?_eq_some_iff.mp hb
      simpa [WordAt] using h
  | cons k keyword ih =>
      have hk := hkeyword k List.mem_cons_self
      cases text with
      | nil =>
          cases rest with
          | nil => exact h.elim
          | cons b rest =>
              have hident := isIdentByte_of_toAsciiLowercase_eq hk h.1
              rw [hrest b rfl] at hident
              cases hident
      | cons b text =>
          obtain ⟨kw, right, rfl, hkw, hright⟩ :=
            ih (fun c hc => hkeyword c (List.mem_cons_of_mem k hc)) h.2
          refine ⟨b :: kw, right, rfl, ?_, hright⟩
          simpa [eqIgnoreAsciiCase, h.1] using hkw

/-- The bytes of a word without a `from` are passed over. -/
theorem splitKeyword_word {bytes : List UInt8} {prev : Option UInt8} {ts : List Tagged}
    (hnone : ∀ left kw right, bytes = left ++ kw ++ right → IsFrom kw →
      (∀ b ∈ left.getLast?.or prev, isIdentByte b = false) →
      ¬ ∀ b ∈ right.head?, isIdentByte b = false)
    (hrest : ∀ b ∈ (bytesOf ts).head?, isIdentByte b = false) :
    splitKeyword fromKeyword prev (codes bytes ++ ts) =
      (splitKeyword fromKeyword (lastByte prev (codes bytes)) ts).map
        fun split => (codes bytes ++ split.1, split.2) := by
  induction bytes generalizing prev with
  | nil => simp [codes]
  | cons b bytes ih =>
      have hb : keywordAt fromKeyword prev (bytesOf (⟨b, true⟩ :: (codes bytes ++ ts))) = false := by
        rw [Bool.eq_false_iff]
        intro h
        rw [bytesOf_cons, bytesOf_append, bytesOf_codes, ← List.cons_append] at h
        obtain ⟨hprev, hword⟩ := keywordAt_iff.mp h
        obtain ⟨kw, right, hparts, hkw, hright⟩ :=
          exists_of_wordAt isIdentByte_fromKeyword hrest hword
        refine hnone [] kw right hparts hkw ?_ hright
        rintro c rfl
        simpa using hprev
      have hlater : ∀ left kw right, bytes = left ++ kw ++ right → IsFrom kw →
          (∀ c ∈ left.getLast?.or (some b), isIdentByte c = false) →
          ¬ ∀ c ∈ right.head?, isIdentByte c = false := by
        intro left kw right hparts hkw hleft
        refine hnone (b :: left) kw right (by rw [hparts]; rfl) hkw ?_
        intro c hc
        refine hleft c ?_
        rw [List.getLast?_cons] at hc
        cases hlast : left.getLast? <;> simp_all
      have hcons : codes (b :: bytes) = ⟨b, true⟩ :: codes bytes := rfl
      rw [hcons, List.cons_append, splitKeyword_cons_of_not (by rw [hb, Bool.and_false]),
        ih hlater, Option.map_map, lastByte_cons]
      rfl

/-- A piece is no word. -/
def Piece.NoWord (p : Piece) : Prop :=
  ∀ w, p ≠ .token (.word w)

/-- What is no word starts with no identifier byte, and ends with none unless it is the
last comment. -/
theorem Piece.NoWord.ends {p : Piece} (h : p.NoWord) :
    (∀ b ∈ p.bytes.head?, isIdentByte b = false) ∧
      ((∀ body hbody, p ≠ .comment (.last body hbody)) →
        ∀ b ∈ p.bytes.getLast?, isIdentByte b = false) := by
  cases p with
  | blank char hchar =>
      have hall : ∀ b ∈ char, isIdentByte b = false :=
        fun b hb => (of_mem_whitespaceChars char hchar b hb).2
      exact ⟨fun b hb => hall b (List.mem_of_mem_head? hb),
        fun _ b hb => hall b (List.mem_of_getLast? hb)⟩
  | comment c =>
      cases c with
      | line body hbody =>
          refine ⟨fun b hb => by cases hb; rfl, fun _ b hb => ?_⟩
          rw [Piece.bytes, Comment.lineEnd, List.getLast?_concat] at hb
          cases hb
          rfl
      | block body hbody =>
          refine ⟨fun b hb => by cases hb; rfl, fun _ b hb => ?_⟩
          have hend : (Piece.comment (.block body hbody)).bytes =
              '/'.toUInt8 :: '*'.toUInt8 :: (body ++ ['*'.toUInt8]) ++ ['/'.toUInt8] := by
            simp [Piece.bytes, Comment.inside, Comment.lineEnd]
          rw [hend, List.getLast?_concat] at hb
          cases hb
          rfl
      | last body hbody =>
          exact ⟨fun b hb => by cases hb; rfl, fun hne => absurd rfl (hne body hbody)⟩
  | token t =>
      cases t with
      | word w => exact absurd rfl (h w)
      | quoted q =>
          refine ⟨fun b hb => ?_, fun _ b hb => ?_⟩
          · cases hb
            cases q.mark <;> rfl
          · rw [Piece.bytes, Token.bytes, Quoted.bytes, List.getLast?_concat] at hb
            cases hb
            cases q.mark <;> rfl
      | symbol s =>
          have hs : isIdentByte s.byte = false := by
            have hsymbol := s.isSymbol
            simp only [isSymbolByte, Bool.and_eq_true, Bool.not_eq_true'] at hsymbol
            exact isIdentByte_of_isNameByte hsymbol.1.1
          exact ⟨fun b hb => by cases hb; exact hs, fun _ b hb => by cases hb; exact hs⟩

/-- A word ends where the layout says. -/
theorem head?_after_word {w : Word} {l : List Piece}
    (hl : ∀ q ∈ l.head?, ¬ Piece.Joins (.token (.word w)) q) :
    ∀ b ∈ (bytesOf (tagsOf l)).head?, isIdentByte b = false := by
  intro b hb
  rw [bytesOf_tagsOf] at hb
  obtain ⟨q, hq, hqb⟩ := head?_textOf hb
  have hword : q.NoWord := by
    rintro w' rfl
    exact hl _ hq trivial
  exact hword.ends.1 b hqb

/-- A piece without a `from` is passed over. -/
theorem Piece.splitKeyword_tags {p : Piece} {l : List Piece} (hl : WellLaid (p :: l))
    (hnone : ∀ w, p = .token (.word w) → ¬ HasFrom w.bytes) (prev : Option UInt8) :
    splitKeyword fromKeyword prev (p.tags ++ tagsOf l) =
      (splitKeyword fromKeyword (lastByte prev p.tags) (tagsOf l)).map
        fun split => (p.tags ++ split.1, split.2) := by
  have hjoins : ∀ q ∈ l.head?, ¬ p.Joins q := by
    intro q hq
    obtain ⟨l, rfl⟩ := List.head?_eq_some_iff.mp hq
    exact hl.not_joins
  cases p with
  | blank char h =>
      refine splitKeyword_quiet ?_ prev _
      intro x hx
      obtain ⟨b, hb, rfl⟩ := List.mem_map.mp hx
      exact .inr (of_mem_whitespaceChars char h b hb).2
  | comment c =>
      refine splitKeyword_quiet ?_ prev _
      intro x hx
      rcases List.mem_append.mp hx with hx | hx
      · obtain ⟨b, -, rfl⟩ := List.mem_map.mp hx
        exact .inl rfl
      · obtain ⟨b, hb, rfl⟩ := List.mem_map.mp hx
        cases c with
        | line body hbody => exact .inr (by rw [List.mem_singleton.mp hb]; rfl)
        | block body hbody => cases hb
        | last body hbody => cases hb
  | token t =>
      cases t with
      | word w =>
          refine splitKeyword_word ?_ (head?_after_word hjoins)
          intro left kw right hparts hkw hleft hright
          refine hnone w rfl ⟨left, kw, right, hparts, hkw, ?_, hright⟩
          intro b hb
          refine hleft b ?_
          rw [Option.mem_def.mp hb]
          rfl
      | quoted q =>
          refine splitKeyword_quiet ?_ prev _
          intro x hx
          obtain ⟨b, -, rfl⟩ := List.mem_map.mp hx
          exact .inl rfl
      | symbol s =>
          refine splitKeyword_quiet ?_ prev _
          intro x hx
          obtain ⟨b, hb, rfl⟩ := List.mem_map.mp hx
          have hword : (Piece.token (.symbol s)).NoWord := fun w h => by cases h
          exact .inr (hword.ends.1 b (by rw [List.mem_singleton.mp hb]; rfl))

/-- The keyword stands where its word stands. -/
theorem keywordAt_of_isFrom {bytes rest : List UInt8} (h : IsFrom bytes)
    (hrest : ∀ b ∈ rest.head?, isIdentByte b = false) {prev : Option UInt8}
    (hprev : ∀ b ∈ prev, isIdentByte b = false) :
    keywordAt fromKeyword prev (bytes ++ rest) = true := by
  have hlen : bytes.length = fromKeyword.length := by
    have hmap : bytes.map toAsciiLowercase = fromKeyword.map toAsciiLowercase := eq_of_beq h
    simpa using congrArg List.length hmap
  have hafter : (rest.head?).all (!isIdentByte ·) = true := by
    cases hhead : rest.head? with
    | none => rfl
    | some b => simpa using hrest b hhead
  have hbefore : prev.all (!isIdentByte ·) = true := by
    cases prev with
    | none => rfl
    | some b => simpa using hprev b rfl
  rw [keywordAt, ← hlen, List.take_left, List.drop_left, hafter, hbefore]
  have heq : eqIgnoreAsciiCase bytes fromKeyword = true := h
  simp [heq]

/-- The scanner finds the first `from` of a layout. -/
theorem splitKeyword_layout {before rest : List Piece} {w : Word}
    (hl : WellLaid (before ++ .token (.word w) :: rest)) (hbefore : NoFrom (tokensOf before))
    (hw : IsFrom w.bytes) {prev : Option UInt8}
    (hprev : before = [] → ∀ b ∈ prev, isIdentByte b = false) :
    splitKeyword fromKeyword prev (tagsOf (before ++ .token (.word w) :: rest)) =
      some (tagsOf before, tagsOf (.token (.word w) :: rest)) := by
  induction before generalizing prev with
  | nil =>
      have hrest : ∀ b ∈ (bytesOf (tagsOf rest)).head?, isIdentByte b = false := by
        refine head?_after_word (w := w) ?_
        intro q hq
        obtain ⟨rest, rfl⟩ := List.head?_eq_some_iff.mp hq
        exact hl.not_joins
      have hat := keywordAt_of_isFrom hw hrest (hprev rfl)
      obtain ⟨b, bytes, hbytes⟩ := List.exists_cons_of_ne_nil w.ne_nil
      have htags : tagsOf (.token (.word w) :: rest) =
          ⟨b, true⟩ :: (codes bytes ++ tagsOf rest) := by
        rw [tagsOf_cons, Piece.tags, hbytes]
        rfl
      rw [List.nil_append, htags]
      refine splitKeyword_cons_of_keywordAt ?_
      rw [bytesOf_cons, bytesOf_append, bytesOf_codes, ← List.cons_append, ← hbytes]
      exact hat
  | cons p before ih =>
      have hnone : ∀ w, p = .token (.word w) → ¬ HasFrom w.bytes := by
        rintro w' rfl
        exact hbefore w' List.mem_cons_self
      have hlater : NoFrom (tokensOf before) := by
        intro w' hw'
        refine hbefore w' ?_
        cases p <;> simp [hw']
      have hnext : before = [] → ∀ b ∈ lastByte prev p.tags, isIdentByte b = false := by
        rintro rfl b hb
        have hjoins := hl.not_joins
        have hword : p.NoWord := by
          rintro w' rfl
          exact hjoins trivial
        refine hword.ends.2 ?_ b ?_
        · rintro body hbody rfl
          exact hjoins trivial
        · rw [lastByte, Piece.bytesOf_tags, List.getLast?_eq_some_getLast p.bytes_ne_nil] at hb
          rw [List.getLast?_eq_some_getLast p.bytes_ne_nil]
          exact hb
      have hsplit := ih hl.tail hlater hnext
      have hpass := Piece.splitKeyword_tags (l := before ++ .token (.word w) :: rest) hl hnone prev
      rw [List.cons_append, tagsOf_cons, hpass, hsplit]
      rfl

/-- The first `from` of a layout that is a whole statement. -/
theorem splitKeyword_first {before rest : List Piece} {w : Word}
    (hl : WellLaid (before ++ .token (.word w) :: rest)) (hbefore : NoFrom (tokensOf before))
    (hw : IsFrom w.bytes) :
    splitKeyword fromKeyword none (tagsOf (before ++ .token (.word w) :: rest)) =
      some (tagsOf before, tagsOf (.token (.word w) :: rest)) :=
  splitKeyword_layout hl hbefore hw fun _ b hb => by cases hb

/-! ## Nested layouts -/

/-- How many parentheses are open behind the tokens, if none is closed that was not
opened. -/
def depthAfter : Nat → List Token → Option Nat
  | depth, [] => some depth
  | depth, t :: ts =>
      if t = openParen then depthAfter (depth + 1) ts
      else if t = closeParen then
        if depth = 0 then none else depthAfter (depth - 1) ts
      else depthAfter depth ts

/-- Every parenthesis among the tokens has its counterpart. -/
def Balanced (ts : List Token) : Prop :=
  depthAfter 0 ts = some 0

/-- Bytes that are not code or no parentheses are passed over. -/
theorem splitParen_quiet {xs : List Tagged}
    (h : ∀ x ∈ xs, x.code = false ∨ (x.byte ≠ '('.toUInt8 ∧ x.byte ≠ ')'.toUInt8)) (depth : Nat)
    (ts : List Tagged) :
    splitParen depth (xs ++ ts) =
      (splitParen depth ts).map fun split => (xs ++ split.1, split.2) := by
  induction xs with
  | nil => simp
  | cons x xs ih =>
      have hlater := ih fun y hy => h y (List.mem_cons_of_mem x hy)
      have hopen : ¬ (x.code = true ∧ x.byte = '('.toUInt8) := by
        have hx := h x List.mem_cons_self
        grind
      have hclose : ¬ (x.code = true ∧ x.byte = ')'.toUInt8) := by
        have hx := h x List.mem_cons_self
        grind
      rw [List.cons_append, splitParen, if_neg hopen, if_neg hclose, hlater, Option.map_map]
      rfl

/-- A piece that is no parenthesis has none in code. -/
theorem Piece.no_paren {p : Piece} (hopen : p ≠ .token openParen)
    (hclose : p ≠ .token closeParen) :
    ∀ x ∈ p.tags, x.code = false ∨ (x.byte ≠ '('.toUInt8 ∧ x.byte ≠ ')'.toUInt8) := by
  intro x hx
  cases p with
  | blank char h =>
      obtain ⟨b, hb, rfl⟩ := List.mem_map.mp hx
      have hall : whitespaceChars.all (fun char => char.all fun b =>
          b != '('.toUInt8 && b != ')'.toUInt8) = true := by decide
      have hboth := List.all_eq_true.mp (List.all_eq_true.mp hall char h) b hb
      exact .inr (by simpa using hboth)
  | comment c =>
      rcases List.mem_append.mp hx with hx | hx
      · obtain ⟨b, -, rfl⟩ := List.mem_map.mp hx
        exact .inl rfl
      · obtain ⟨b, hb, rfl⟩ := List.mem_map.mp hx
        cases c with
        | line body hbody => exact .inr (by rw [List.mem_singleton.mp hb]; decide)
        | block body hbody => cases hb
        | last body hbody => cases hb
  | token t =>
      cases t with
      | word w =>
          obtain ⟨b, hb, rfl⟩ := List.mem_map.mp hx
          have hname := w.isName b hb
          refine .inr ⟨?_, ?_⟩
          · rintro heq
            rw [show b = '('.toUInt8 from heq] at hname
            cases hname
          · rintro heq
            rw [show b = ')'.toUInt8 from heq] at hname
            cases hname
      | quoted q =>
          obtain ⟨b, -, rfl⟩ := List.mem_map.mp hx
          exact .inl rfl
      | symbol s =>
          obtain ⟨b, hb, rfl⟩ := List.mem_map.mp hx
          obtain ⟨byte, hsymbol⟩ := s
          rw [List.mem_singleton.mp hb]
          refine .inr ⟨?_, ?_⟩
          · rintro rfl
            exact hopen rfl
          · rintro rfl
            exact hclose rfl

theorem tags_openParen : (Piece.token openParen).tags = [⟨'('.toUInt8, true⟩] := rfl

theorem tags_closeParen : (Piece.token closeParen).tags = [⟨')'.toUInt8, true⟩] := rfl

/-- The scanner finds the parenthesis behind a nested layout. -/
theorem splitParen_layout {inner : List Piece} {depth : Nat}
    (hinner : depthAfter depth (tokensOf inner) = some 0) (ts : List Tagged) :
    splitParen (depth + 1) (tagsOf inner ++ ⟨')'.toUInt8, true⟩ :: ts) =
      some (tagsOf inner, ⟨')'.toUInt8, true⟩ :: ts) := by
  induction inner generalizing depth with
  | nil =>
      have hzero : depth = 0 := by simpa [depthAfter] using hinner
      subst hzero
      rfl
  | cons p inner ih =>
      rw [tagsOf_cons, List.append_assoc]
      by_cases hopen : p = .token openParen
      · subst hopen
        rw [tokensOf_token, depthAfter, if_pos rfl] at hinner
        rw [tags_openParen, List.singleton_append, splitParen, if_pos ⟨rfl, rfl⟩, ih hinner]
        rfl
      · by_cases hclose : p = .token closeParen
        · subst hclose
          rw [tokensOf_token, depthAfter, if_neg (by decide), if_pos rfl] at hinner
          split_ifs at hinner with hzero
          have hdepth : depth + 1 - 1 = depth - 1 + 1 := by omega
          rw [tags_closeParen, List.singleton_append, splitParen, if_neg (by decide),
            if_pos ⟨rfl, rfl⟩, if_neg (by omega), if_neg (by omega), hdepth, ih hinner]
          rfl
        · have hpass : depthAfter depth (tokensOf inner) = some 0 := by
            cases p with
            | blank char h => exact hinner
            | comment c => exact hinner
            | token t =>
                rw [tokensOf_token, depthAfter, if_neg fun h => hopen (by rw [h]),
                  if_neg fun h => hclose (by rw [h])] at hinner
                exact hinner
          rw [splitParen_quiet (Piece.no_paren hopen hclose), ih hpass]
          rfl

end WpKnowledge.SqlRoute
