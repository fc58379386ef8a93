import WpKnowledge.Foundation.Text
import WpKnowledge.Foundation.Trim
import WpKnowledge.Sql.Rewrite

/-!
# Routing a statement to a named provider

A statement whose first table reference starts with the name of an installed provider
goes to that provider, with the prefix stripped.  Four scanners read the bytes of the
statement: {lit}`findKeyword` and {lit}`matchingParen` locate the reference,
{lit}`firstTableName` cuts it out, {lit}`stripProviderPrefix` rewrites the statement.
Each skips literals, quoted identifiers and comments by its own loop; a jump of the
index of such a loop is here a number of bytes still to be passed over.

What a scanner skips does not depend on the scanner: {lit}`tags` says for every byte
whether it is code, reading byte by byte, and each scanner is shown to read the tags.

Main results:

- Theorem {lit}`tagsFrom_eq_tags`: the regions skipped by a scanner, with doubled
  backticks as an escape or without, are the bytes that are not tagged as code.
- Theorems {lit}`findKeyword_eq`, {lit}`matchingParen_eq` and
  {lit}`firstTableName_eq_some_iff`: the scanners in terms of the tags.
-/

open Foundation

namespace WpKnowledge.SqlRoute

/-! ## Byte classes -/

/-- A letter or a digit. -/
def isAsciiAlphanumeric (byte : UInt8) : Bool :=
  (48 ≤ byte && byte ≤ 57) || (65 ≤ byte && byte ≤ 90) || (97 ≤ byte && byte ≤ 122)

/-- The bytes of identifiers. -/
def isIdentByte (byte : UInt8) : Bool :=
  byte == '_'.toUInt8 || isAsciiAlphanumeric byte

/-- Tab, line feed, form feed, carriage return and space. -/
def isAsciiWhitespace (byte : UInt8) : Bool :=
  byte == 9 || byte == 10 || byte == 12 || byte == 13 || byte == 32

/-- The lower case of an ASCII letter; other bytes stay. -/
def toAsciiLowercase (byte : UInt8) : UInt8 :=
  if 65 ≤ byte && byte ≤ 90 then byte + 32 else byte

/-- Equality up to the case of ASCII letters. -/
def eqIgnoreAsciiCase (a b : List UInt8) : Bool :=
  a.map toAsciiLowercase == b.map toAsciiLowercase

/-- The UTF-8 encodings of the characters that `str::trim` removes. -/
def whitespaceChars : List (List UInt8) :=
  [[0x09], [0x0A], [0x0B], [0x0C], [0x0D], [0x20], [0xC2, 0x85], [0xC2, 0xA0], [0xE1, 0x9A, 0x80],
    [0xE2, 0x80, 0x80], [0xE2, 0x80, 0x81], [0xE2, 0x80, 0x82], [0xE2, 0x80, 0x83],
    [0xE2, 0x80, 0x84], [0xE2, 0x80, 0x85], [0xE2, 0x80, 0x86], [0xE2, 0x80, 0x87],
    [0xE2, 0x80, 0x88], [0xE2, 0x80, 0x89], [0xE2, 0x80, 0x8A], [0xE2, 0x80, 0xA8],
    [0xE2, 0x80, 0xA9], [0xE2, 0x80, 0xAF], [0xE2, 0x81, 0x9F], [0xE3, 0x80, 0x80]]

/-- `str::trim`. -/
def trim (text : List UInt8) : List UInt8 :=
  trimEnd whitespaceChars (trimStart whitespaceChars text)

/-- The UTF-8 bytes of a byte taken for a character (`byte as char`). -/
def charBytes (byte : UInt8) : List UInt8 :=
  if byte < 128 then [byte] else [(byte >>> 6) ||| 192, (byte &&& 63) ||| 128]

theorem isIdentByte_iff {b : UInt8} : isIdentByte b = true ↔
    b = 95 ∨ (48 ≤ b ∧ b ≤ 57) ∨ (65 ≤ b ∧ b ≤ 90) ∨ (97 ≤ b ∧ b ≤ 122) := by
  simp only [isIdentByte, isAsciiAlphanumeric, Bool.or_eq_true, Bool.and_eq_true, beq_iff_eq,
    decide_eq_true_eq, or_assoc]
  exact Iff.rfl

theorem isAsciiWhitespace_iff {b : UInt8} :
    isAsciiWhitespace b = true ↔ b = 9 ∨ b = 10 ∨ b = 12 ∨ b = 13 ∨ b = 32 := by
  simp only [isAsciiWhitespace, Bool.or_eq_true, beq_iff_eq, or_assoc]

/-! ## The regions the scanners skip -/

/-- How many bytes a scanner skips after the opening of a region that ends with the
first closing byte. -/
def closedLength (close : UInt8) : List UInt8 → Nat
  | [] => 0
  | b :: rest => if b = close then 1 else 1 + closedLength close rest

/-- How many bytes after the byte {lit}`b` belong to the literal, the quoted identifier
or the comment it opens, if it opens one.  The scanners differ in how they read an
identifier in backticks. -/
def skipLength (backtickLength : List UInt8 → Nat) (b : UInt8) (rest : List UInt8) : Option Nat :=
  if b = '\''.toUInt8 ∨ b = '"'.toUInt8 then some (quotedLength b rest)
  else if b = 96 then some (backtickLength rest)
  else if b = '['.toUInt8 then some (closedLength ']'.toUInt8 rest)
  else if b = '-'.toUInt8 ∧ rest.head? = some '-'.toUInt8 then
    some (rest.takeWhile (· ≠ '\n'.toUInt8)).length
  else if b = '/'.toUInt8 ∧ rest.head? = some '*'.toUInt8 then
    some (1 + blockCommentLength rest.tail)
  else none

/-- The skipping of `find_keyword` and `matching_paren`: a backtick ends at the next. -/
def plainSkip : UInt8 → List UInt8 → Option Nat :=
  skipLength (closedLength 96)

/-- The skipping of `strip_provider_prefix`: a doubled backtick is an escape. -/
def stripSkip : UInt8 → List UInt8 → Option Nat :=
  skipLength (quotedLength 96)

/-! ## Locating the table reference -/

/-- The keyword stands at the start of the bytes, as a word of its own. -/
def keywordAt (keyword : List UInt8) (prev : Option UInt8) (bytes : List UInt8) : Bool :=
  decide (keyword.length ≤ bytes.length) &&
    eqIgnoreAsciiCase (bytes.take keyword.length) keyword &&
    prev.all (!isIdentByte ·) && ((bytes.drop keyword.length).head?).all (!isIdentByte ·)

/-- The loop of `find_keyword` at position {lit}`idx`, with {lit}`skip` bytes of a
region still to be passed over and {lit}`prev` the byte before. -/
def findKeywordFrom (keyword : List UInt8) :
    Nat → Nat → Option UInt8 → List UInt8 → Option Nat
  | _, _, _, [] => none
  | skip + 1, idx, _, b :: rest => findKeywordFrom keyword skip (idx + 1) (some b) rest
  | 0, idx, prev, b :: rest =>
      match plainSkip b rest with
      | some n => findKeywordFrom keyword n (idx + 1) (some b) rest
      | none =>
          if keywordAt keyword prev (b :: rest) then some idx
          else findKeywordFrom keyword 0 (idx + 1) (some b) rest

/-- The position of the first keyword outside literals, quoted identifiers and
comments. -/
def findKeyword (sql keyword : List UInt8) : Option Nat :=
  findKeywordFrom keyword 0 0 none sql

/-- The loop of `matching_paren` at position {lit}`idx`. -/
def matchingParenFrom : Nat → Nat → Nat → List UInt8 → Option Nat
  | _, _, _, [] => none
  | skip + 1, depth, idx, _ :: rest => matchingParenFrom skip depth (idx + 1) rest
  | 0, depth, idx, b :: rest =>
      match plainSkip b rest with
      | some n => matchingParenFrom n depth (idx + 1) rest
      | none =>
          if b = '('.toUInt8 then matchingParenFrom 0 (depth + 1) (idx + 1) rest
          else if b = ')'.toUInt8 then
            if depth = 0 then none
            else if depth = 1 then some idx
            else matchingParenFrom 0 (depth - 1) (idx + 1) rest
          else matchingParenFrom 0 depth (idx + 1) rest

/-- The position of the parenthesis that matches the one at {lit}`openPos`. -/
def matchingParen (sql : List UInt8) (openPos : Nat) : Option Nat :=
  matchingParenFrom 0 0 openPos (sql.drop openPos)

/-- The bytes that end a table reference. -/
def endsTable (byte : UInt8) : Bool :=
  isAsciiWhitespace byte || byte == ';'.toUInt8 || byte == ','.toUInt8 || byte == ')'.toUInt8

/-- The keyword in front of a table reference. -/
def fromKeyword : List UInt8 :=
  ['f'.toUInt8, 'r'.toUInt8, 'o'.toUInt8, 'm'.toUInt8]

/-- The first table reference of a statement; in a subquery, its first one. -/
def firstTableName (sql : List UInt8) : Option (List UInt8) :=
  match findKeyword sql fromKeyword with
  | none => none
  | some fromPos =>
      let afterFrom := fromPos + fromKeyword.length
      let tableStart := afterFrom + ((sql.drop afterFrom).takeWhile isAsciiWhitespace).length
      if _hopen : (sql.drop tableStart).head? = some '('.toUInt8 then
        match matchingParen sql tableStart with
        | none => none
        | some closePos => firstTableName ((sql.take closePos).drop (tableStart + 1))
      else
        let table := trim ((sql.drop tableStart).takeWhile fun b => !endsTable b)
        if table = [] then none else some table
termination_by sql.length
decreasing_by
  have hpos : tableStart < sql.length := by
    by_contra hle
    rw [List.drop_of_length_le (Nat.le_of_not_lt hle)] at _hopen
    cases _hopen
  simp only [List.length_drop, List.length_take]
  omega

/-! ## Stripping the prefix -/

/-- A prefix may start after this byte. -/
def isBoundary (prev : Option UInt8) : Bool :=
  prev.all fun p => !isIdentByte p && p != '.'.toUInt8

/-- A prefix may end before this byte. -/
def isFollow (next : UInt8) : Bool :=
  isIdentByte next || next == '"'.toUInt8 || next == 96 || next == '['.toUInt8

/-- The name and a dot stand at the start of the bytes, and something they qualify
after them. -/
def prefixAt (name bytes : List UInt8) : Bool :=
  decide (name.length < bytes.length) && bytes.take name.length == name &&
    (bytes.drop name.length).head? == some '.'.toUInt8 &&
    ((bytes.drop (name.length + 1)).head?).any isFollow

/-- The loop of `strip_provider_prefix`: {lit}`copy` bytes of a region are still to be
copied, then {lit}`drop` bytes of a prefix to be left out. -/
def stripFrom (name : List UInt8) : Nat → Nat → Option UInt8 → List UInt8 → List UInt8
  | _, _, _, [] => []
  | copy + 1, drop, _, b :: rest => b :: stripFrom name copy drop (some b) rest
  | 0, drop + 1, _, b :: rest => stripFrom name 0 drop (some b) rest
  | 0, 0, prev, b :: rest =>
      match stripSkip b rest with
      | some n => b :: stripFrom name n 0 (some b) rest
      | none =>
          if isBoundary prev && prefixAt name (b :: rest) then
            stripFrom name 0 name.length (some b) rest
          else charBytes b ++ stripFrom name 0 0 (some b) rest

/-- The statement without the prefixes that qualify something by the name. -/
def stripProviderPrefix (sql name : List UInt8) : List UInt8 :=
  if name = [] then sql else stripFrom name 0 0 none sql

/-- The provider a statement goes to and what it is sent; the registry is asked whether
it has a provider. -/
def computeRoute (providerExists : List UInt8 → Bool) (sql : List UInt8) :
    Option (List UInt8 × List UInt8) :=
  match firstTableName sql with
  | none => none
  | some table =>
      let name := table.takeWhile (· ≠ '.'.toUInt8)
      if name = [] ∨ providerExists name = false then none
      else some (name, stripProviderPrefix sql name)

/-! ## What is code -/

/-- Where a reading of the statement byte by byte stands: in code, in a region that a
given byte closes, in a line comment, before the star of the opening of a block
comment, or in a block comment, after a star or not. -/
inductive ScanState where
  | code
  | closing (close : UInt8)
  | line
  | blockOpen
  | block (star : Bool)
deriving DecidableEq, Repr

/-- Whether the next byte is code, and where the reading stands after it. -/
def ScanState.next (s : ScanState) (b : UInt8) (peek : Option UInt8) : Bool × ScanState :=
  match s with
  | .code =>
      if b = '\''.toUInt8 ∨ b = '"'.toUInt8 ∨ b = 96 then (false, .closing b)
      else if b = '['.toUInt8 then (false, .closing ']'.toUInt8)
      else if b = '-'.toUInt8 ∧ peek = some '-'.toUInt8 then (false, .line)
      else if b = '/'.toUInt8 ∧ peek = some '*'.toUInt8 then (false, .blockOpen)
      else (true, .code)
  | .closing close => (false, if b = close then .code else .closing close)
  | .line => if b = '\n'.toUInt8 then (true, .code) else (false, .line)
  | .blockOpen => (false, .block false)
  | .block star => (false, if star ∧ b = '/'.toUInt8 then .code else .block (b = '*'.toUInt8))

/-- A byte and whether it is code. -/
structure Tagged where
  byte : UInt8
  code : Bool
deriving DecidableEq, Repr

/-- The bytes of tagged bytes. -/
def bytesOf (ts : List Tagged) : List UInt8 :=
  ts.map Tagged.byte

/-- The bytes of a statement with what they are, reading byte by byte. -/
def tags : ScanState → List UInt8 → List Tagged
  | _, [] => []
  | s, b :: rest => ⟨b, (s.next b rest.head?).1⟩ :: tags (s.next b rest.head?).2 rest

/-- The bytes of a statement with what they are to a scanner, {lit}`skip` bytes of a
region being still to be passed over. -/
def tagsFrom (skipAt : UInt8 → List UInt8 → Option Nat) : Nat → List UInt8 → List Tagged
  | _, [] => []
  | skip + 1, b :: rest => ⟨b, false⟩ :: tagsFrom skipAt skip rest
  | 0, b :: rest =>
      match skipAt b rest with
      | some n => ⟨b, false⟩ :: tagsFrom skipAt n rest
      | none => ⟨b, true⟩ :: tagsFrom skipAt 0 rest

@[simp]
theorem bytesOf_nil : bytesOf [] = [] := rfl

@[simp]
theorem bytesOf_cons (x : Tagged) (ts : List Tagged) : bytesOf (x :: ts) = x.byte :: bytesOf ts :=
  rfl

@[simp]
theorem bytesOf_append (ts us : List Tagged) : bytesOf (ts ++ us) = bytesOf ts ++ bytesOf us :=
  List.map_append

@[simp]
theorem length_bytesOf (ts : List Tagged) : (bytesOf ts).length = ts.length :=
  List.length_map _

@[simp]
theorem bytesOf_tags (s : ScanState) (bytes : List UInt8) : bytesOf (tags s bytes) = bytes := by
  induction bytes generalizing s with
  | nil => rfl
  | cons b rest ih => simp [tags, ih]

@[simp]
theorem bytesOf_tagsFrom (skipAt : UInt8 → List UInt8 → Option Nat) (skip : Nat)
    (bytes : List UInt8) : bytesOf (tagsFrom skipAt skip bytes) = bytes := by
  induction bytes generalizing skip with
  | nil => cases skip <;> rfl
  | cons b rest ih =>
      cases skip with
      | succ skip => simp [tagsFrom, ih]
      | zero =>
          rw [tagsFrom]
          split <;> simp [ih]

/-- The bytes that open a region, or do so before a certain byte. -/
def isOpener (byte : UInt8) : Bool :=
  byte == '\''.toUInt8 || byte == '"'.toUInt8 || byte == 96 || byte == '['.toUInt8 ||
    byte == '-'.toUInt8 || byte == '/'.toUInt8

theorem isOpener_iff {b : UInt8} :
    isOpener b = true ↔ b = 39 ∨ b = 34 ∨ b = 96 ∨ b = 91 ∨ b = 45 ∨ b = 47 := by
  simp only [isOpener, Bool.or_eq_true, beq_iff_eq, or_assoc]
  exact Iff.rfl

theorem isOpener_of_isIdentByte {b : UInt8} (h : isIdentByte b = true) : isOpener b = false := by
  grind [isIdentByte_iff, isOpener_iff]

theorem isOpener_of_isAsciiWhitespace {b : UInt8} (h : isAsciiWhitespace b = true) :
    isOpener b = false := by
  grind [isAsciiWhitespace_iff, isOpener_iff]

/-- In code, a byte that opens nothing is code. -/
theorem ScanState.next_code {b : UInt8} (h : isOpener b = false) (peek : Option UInt8) :
    ScanState.code.next b peek = (true, .code) := by
  simp only [isOpener, Bool.or_eq_false_iff, beq_eq_false_iff_ne] at h
  obtain ⟨⟨⟨⟨⟨h₁, h₂⟩, h₃⟩, h₄⟩, h₅⟩, h₆⟩ := h
  simp [ScanState.next, h₁, h₂, h₃, h₄, h₅, h₆]

theorem tags_code_cons {b : UInt8} (h : isOpener b = false) (rest : List UInt8) :
    tags .code (b :: rest) = ⟨b, true⟩ :: tags .code rest := by
  rw [tags, ScanState.next_code h]

theorem tags_closing_cons (close b : UInt8) (rest : List UInt8) :
    tags (.closing close) (b :: rest) =
      ⟨b, false⟩ :: tags (if b = close then .code else .closing close) rest := rfl

/-! ## The regions of the scanners -/

section Regions

variable {skipAt : UInt8 → List UInt8 → Option Nat} {n : Nat}
  (hcode : ∀ bytes : List UInt8, bytes.length ≤ n → tagsFrom skipAt 0 bytes = tags .code bytes)

include hcode

/-- A region with doubled closing bytes as an escape: to the reading byte by byte it is
several regions next to each other. -/
theorem tagsFrom_quotedLength {quote : UInt8}
    (hquote : quote = '\''.toUInt8 ∨ quote = '"'.toUInt8 ∨ quote = 96) (bytes : List UInt8)
    (hn : bytes.length ≤ n) :
    tagsFrom skipAt (quotedLength quote bytes) bytes = tags (.closing quote) bytes := by
  induction bytes using quotedLength.induct quote with
  | case1 => rfl
  | case2 =>
      simp [quotedLength, tagsFrom, tags, ScanState.next]
  | case3 rest ih =>
      have hrest : rest.length ≤ n := by simp at hn; omega
      have hnext : ScanState.code.next quote rest.head? = (false, .closing quote) := by
        rw [ScanState.next, if_pos hquote]
      simp [quotedLength, Nat.add_comm 2, tagsFrom, tags, ScanState.next, if_pos hquote, ih hrest]
  | case4 c rest hne =>
      have hrest : (c :: rest).length ≤ n := by simp at hn ⊢; omega
      have hlen : quotedLength quote (quote :: c :: rest) = 0 + 1 := by simp [quotedLength, hne]
      rw [hlen, tagsFrom, hcode _ hrest, tags_closing_cons, if_pos rfl]
  | case5 b rest hne ih =>
      have hrest : rest.length ≤ n := by simp at hn; omega
      have hlen : quotedLength quote (b :: rest) = quotedLength quote rest + 1 := by
        cases rest <;> simp [quotedLength, hne, Nat.add_comm]
      rw [hlen, tagsFrom, ih hrest, tags_closing_cons, if_neg hne]

/-- A region that ends with its first closing byte. -/
theorem tagsFrom_closedLength (close : UInt8) (bytes : List UInt8) (hn : bytes.length ≤ n) :
    tagsFrom skipAt (closedLength close bytes) bytes = tags (.closing close) bytes := by
  induction bytes with
  | nil => rfl
  | cons b rest ih =>
      have hrest : rest.length ≤ n := by simp at hn; omega
      by_cases hb : b = close
      · simp [closedLength, hb, tagsFrom, tags, ScanState.next, hcode _ hrest]
      · simp [closedLength, hb, Nat.add_comm 1, tagsFrom, tags, ScanState.next, ih hrest]

/-- A line comment. -/
theorem tagsFrom_line (bytes : List UInt8) (hn : bytes.length ≤ n) :
    tagsFrom skipAt (bytes.takeWhile (· ≠ '\n'.toUInt8)).length bytes = tags .line bytes := by
  induction bytes with
  | nil => rfl
  | cons b rest ih =>
      have hrest : rest.length ≤ n := by simp at hn; omega
      by_cases hb : b = '\n'.toUInt8
      · subst hb
        rw [List.takeWhile_cons_of_neg (by simp), List.length_nil, hcode _ hn,
          tags_code_cons (by decide)]
        simp [tags, ScanState.next]
      · rw [List.takeWhile_cons_of_pos (by simpa using hb), List.length_cons]
        simp only [tagsFrom, tags, ScanState.next, if_neg hb, ih hrest]

omit hcode in
/-- After a star that no slash follows a block comment goes on as before. -/
theorem tags_block_true {bytes : List UInt8} (hhead : bytes.head? ≠ some '/'.toUInt8) :
    tags (.block true) bytes = tags (.block false) bytes := by
  cases bytes with
  | nil => rfl
  | cons b rest =>
      have hb : b ≠ '/'.toUInt8 := fun h => hhead (by rw [h]; rfl)
      simp [tags, ScanState.next, hb]

/-- A block comment after its opening. -/
theorem tagsFrom_block (bytes : List UInt8) (hn : bytes.length ≤ n) :
    tagsFrom skipAt (blockCommentLength bytes) bytes = tags (.block false) bytes := by
  induction bytes with
  | nil => rfl
  | cons b rest ih =>
      have hrest : rest.length ≤ n := by simp at hn; omega
      by_cases hend : b = '*'.toUInt8 ∧ rest.head? = some '/'.toUInt8
      · obtain ⟨rfl, hhead⟩ := hend
        obtain ⟨rest', rfl⟩ := List.head?_eq_some_iff.mp hhead
        have hrest' : rest'.length ≤ n := by simp at hn; omega
        simp [blockCommentLength, tagsFrom, tags, ScanState.next, hcode _ hrest']
      · rw [blockCommentLength, if_neg hend, Nat.add_comm]
        simp only [tagsFrom, tags, ScanState.next, ih hrest]
        by_cases hb : b = '*'.toUInt8
        · simp [hb, tags_block_true fun h => hend ⟨hb, h⟩]
        · simp [hb]

end Regions

/-- A scanner passes over the bytes that are not code, whether it takes doubled
backticks for an escape or not. -/
theorem tagsFrom_eq_tags {backtickLength : List UInt8 → Nat}
    (hbacktick : backtickLength = closedLength 96 ∨ backtickLength = quotedLength 96)
    (bytes : List UInt8) : tagsFrom (skipLength backtickLength) 0 bytes = tags .code bytes := by
  induction hlen : bytes.length using Nat.strong_induction_on generalizing bytes with
  | _ n ih =>
      cases bytes with
      | nil => rfl
      | cons b rest =>
          have hn : rest.length + 1 = n := hlen
          have hcode : ∀ bytes : List UInt8, bytes.length ≤ rest.length →
              tagsFrom (skipLength backtickLength) 0 bytes = tags .code bytes :=
            fun bytes hle => ih _ (by omega) bytes rfl
          rw [tagsFrom, skipLength, tags, ScanState.next]
          by_cases hquote : b = '\''.toUInt8 ∨ b = '"'.toUInt8
          · have hany : b = '\''.toUInt8 ∨ b = '"'.toUInt8 ∨ b = 96 := by tauto
            simp only [if_pos hquote, if_pos hany, tagsFrom_quotedLength hcode hany rest le_rfl]
          · by_cases htick : b = 96
            · have hany : b = '\''.toUInt8 ∨ b = '"'.toUInt8 ∨ b = 96 := by tauto
              simp only [if_neg hquote, if_pos htick, if_pos hany]
              rcases hbacktick with rfl | rfl
              · rw [tagsFrom_closedLength hcode 96 rest le_rfl, htick]
              · rw [tagsFrom_quotedLength hcode (by decide) rest le_rfl, htick]
            · have hnone : ¬ (b = '\''.toUInt8 ∨ b = '"'.toUInt8 ∨ b = 96) := by tauto
              simp only [if_neg hquote, if_neg htick, if_neg hnone]
              by_cases hbracket : b = '['.toUInt8
              · simp only [if_pos hbracket, tagsFrom_closedLength hcode _ rest le_rfl]
              · by_cases hline : b = '-'.toUInt8 ∧ rest.head? = some '-'.toUInt8
                · simp only [if_neg hbracket, if_pos hline, tagsFrom_line hcode rest le_rfl]
                · by_cases hblock : b = '/'.toUInt8 ∧ rest.head? = some '*'.toUInt8
                  · obtain ⟨rest', rfl⟩ := List.head?_eq_some_iff.mp hblock.2
                    have hrest' := tagsFrom_block hcode rest' (by simp)
                    simp only [if_neg hbracket, if_neg hline, if_pos hblock, List.tail_cons,
                      Nat.add_comm 1, tagsFrom, hrest', tags, ScanState.next]
                  · simp only [if_neg hbracket, if_neg hline, if_neg hblock, hcode rest le_rfl]

theorem tagsFrom_plainSkip (bytes : List UInt8) : tagsFrom plainSkip 0 bytes = tags .code bytes :=
  tagsFrom_eq_tags (.inl rfl) bytes

theorem tagsFrom_stripSkip (bytes : List UInt8) : tagsFrom stripSkip 0 bytes = tags .code bytes :=
  tagsFrom_eq_tags (.inr rfl) bytes

/-! ## The scanners on tagged bytes -/

/-- The bytes before the first keyword in code, and those from it on. -/
def splitKeyword (keyword : List UInt8) :
    Option UInt8 → List Tagged → Option (List Tagged × List Tagged)
  | _, [] => none
  | prev, x :: rest =>
      if x.code && keywordAt keyword prev (bytesOf (x :: rest)) then some ([], x :: rest)
      else (splitKeyword keyword (some x.byte) rest).map fun split => (x :: split.1, split.2)

/-- The bytes before the parenthesis in code that brings the depth to zero, and those
from it on. -/
def splitParen : Nat → List Tagged → Option (List Tagged × List Tagged)
  | _, [] => none
  | depth, x :: rest =>
      if x.code ∧ x.byte = '('.toUInt8 then
        (splitParen (depth + 1) rest).map fun split => (x :: split.1, split.2)
      else if x.code ∧ x.byte = ')'.toUInt8 then
        if depth = 0 then none
        else if depth = 1 then some ([], x :: rest)
        else (splitParen (depth - 1) rest).map fun split => (x :: split.1, split.2)
      else (splitParen depth rest).map fun split => (x :: split.1, split.2)

/-- A byte more before the split is a position more. -/
theorem map_length_cons (split : Option (List Tagged × List Tagged)) (x : Tagged) (idx : Nat) :
    split.map (fun split => idx + 1 + split.1.length) =
      (split.map fun split => (x :: split.1, split.2)).map fun split => idx + split.1.length := by
  cases split with
  | none => rfl
  | some split =>
      simp only [Option.map_some, List.length_cons, Option.some.injEq]
      omega

/-- A split that more bytes were put in front of. -/
theorem exists_of_map_split {split : Option (List Tagged × List Tagged)}
    {xs pre post : List Tagged}
    (h : (split.map fun split => (xs ++ split.1, split.2)) = some (pre, post)) :
    ∃ pre', split = some (pre', post) ∧ pre = xs ++ pre' := by
  obtain ⟨⟨pre', post'⟩, hsplit, heq⟩ := Option.map_eq_some_iff.mp h
  obtain ⟨rfl, rfl⟩ := Prod.mk.inj heq
  exact ⟨pre', hsplit, rfl⟩

theorem findKeywordFrom_eq (keyword : List UInt8) (skip idx : Nat) (prev : Option UInt8)
    (bytes : List UInt8) :
    findKeywordFrom keyword skip idx prev bytes =
      (splitKeyword keyword prev (tagsFrom plainSkip skip bytes)).map
        fun split => idx + split.1.length := by
  induction bytes generalizing skip idx prev with
  | nil => cases skip <;> rfl
  | cons b rest ih =>
      cases skip with
      | succ skip =>
          rw [findKeywordFrom, ih, tagsFrom, splitKeyword]
          simpa using map_length_cons _ _ _
      | zero =>
          rw [findKeywordFrom, tagsFrom]
          cases hskip : plainSkip b rest with
          | some n =>
              simp only [splitKeyword, ih]
              simpa using map_length_cons _ _ _
          | none =>
              simp only [splitKeyword, bytesOf_cons, bytesOf_tagsFrom, Bool.true_and, ih]
              split
              · simp
              · exact map_length_cons _ _ _

/-- The keyword is found at the end of the bytes before it. -/
theorem findKeyword_eq (sql keyword : List UInt8) :
    findKeyword sql keyword =
      (splitKeyword keyword none (tags .code sql)).map fun split => split.1.length := by
  simp [findKeyword, findKeywordFrom_eq, tagsFrom_plainSkip]

theorem matchingParenFrom_eq (skip depth idx : Nat) (bytes : List UInt8) :
    matchingParenFrom skip depth idx bytes =
      (splitParen depth (tagsFrom plainSkip skip bytes)).map
        fun split => idx + split.1.length := by
  induction bytes generalizing skip depth idx with
  | nil => cases skip <;> rfl
  | cons b rest ih =>
      cases skip with
      | succ skip =>
          rw [matchingParenFrom, ih, tagsFrom, splitParen]
          simpa using map_length_cons _ _ _
      | zero =>
          rw [matchingParenFrom, tagsFrom]
          cases hskip : plainSkip b rest with
          | some n =>
              simp only [splitParen, ih]
              simpa using map_length_cons _ _ _
          | none =>
              simp only [splitParen, true_and, ih]
              split
              · exact map_length_cons _ _ _
              · split
                · split
                  · rfl
                  · split
                    · simp
                    · exact map_length_cons _ _ _
                · exact map_length_cons _ _ _

/-- The matching parenthesis is found at the end of the bytes before it. -/
theorem matchingParen_eq (sql : List UInt8) (openPos : Nat) :
    matchingParen sql openPos =
      (splitParen 0 (tags .code (sql.drop openPos))).map
        fun split => openPos + split.1.length := by
  rw [matchingParen, matchingParenFrom_eq, tagsFrom_plainSkip]

theorem append_of_splitKeyword {keyword : List UInt8} {prev : Option UInt8}
    {ts pre post : List Tagged} (h : splitKeyword keyword prev ts = some (pre, post)) :
    ts = pre ++ post := by
  induction ts generalizing prev pre with
  | nil => cases h
  | cons x rest ih =>
      rw [splitKeyword] at h
      split at h
      · obtain ⟨rfl, rfl⟩ := Prod.mk.inj (Option.some.inj h)
        rfl
      · obtain ⟨pre', hsplit, rfl⟩ := @exists_of_map_split _ [x] _ _ h
        rw [List.append_assoc, ← ih hsplit]
        rfl

theorem append_of_splitParen {depth : Nat} {ts pre post : List Tagged}
    (h : splitParen depth ts = some (pre, post)) :
    ts = pre ++ post ∧ ∃ rest, post = ⟨')'.toUInt8, true⟩ :: rest := by
  induction ts generalizing depth pre with
  | nil => cases h
  | cons x rest ih =>
      have hlater : ∀ {depth}, (splitParen depth rest).map
            (fun split => (x :: split.1, split.2)) = some (pre, post) →
          x :: rest = pre ++ post ∧ ∃ rest, post = ⟨')'.toUInt8, true⟩ :: rest := by
        intro depth h
        obtain ⟨pre', hsplit, rfl⟩ := @exists_of_map_split _ [x] _ _ h
        rw [List.append_assoc, ← (ih hsplit).1]
        exact ⟨rfl, (ih hsplit).2⟩
      rw [splitParen] at h
      split at h
      · exact hlater h
      · split at h
        · rename_i hclose
          split at h
          · cases h
          · split at h
            · obtain ⟨rfl, rfl⟩ := Prod.mk.inj (Option.some.inj h)
              obtain ⟨byte, code⟩ := x
              obtain ⟨rfl, rfl⟩ := hclose
              exact ⟨rfl, rest, rfl⟩
            · exact hlater h
        · exact hlater h

/-! ## Parts of a tagged statement -/

/-- The tags are those of a reading that starts in code. -/
def Lexed (ts : List Tagged) : Prop :=
  tags .code (bytesOf ts) = ts

theorem lexed_tags (bytes : List UInt8) : Lexed (tags .code bytes) := by
  rw [Lexed, bytesOf_tags]

/-- After a byte of code the reading stands in code. -/
theorem ScanState.next_of_code {s : ScanState} {b : UInt8} {peek : Option UInt8}
    (h : (s.next b peek).1 = true) : (s.next b peek).2 = .code := by
  cases s with
  | code =>
      simp only [next] at h ⊢
      split_ifs at h ⊢
      rfl
  | line =>
      simp only [next] at h ⊢
      split_ifs at h ⊢
      rfl
  | closing close => cases h
  | blockOpen => cases h
  | block star => cases h

theorem exists_tags_of_append {s : ScanState} {bytes : List UInt8} {pre post : List Tagged}
    (h : tags s bytes = pre ++ post) : ∃ s', tags s' (bytesOf post) = post := by
  induction pre generalizing s bytes with
  | nil =>
      refine ⟨s, ?_⟩
      rw [List.nil_append] at h
      rw [← h, bytesOf_tags]
  | cons x pre ih =>
      cases bytes with
      | nil => cases h
      | cons b rest =>
          rw [tags, List.cons_append] at h
          exact ih (List.cons.inj h).2

/-- What follows a byte of code is read as if it stood alone. -/
theorem Lexed.of_append {pre post : List Tagged} {x : Tagged} (h : Lexed (pre ++ x :: post))
    (hx : x.code = true) : Lexed post := by
  obtain ⟨s, hs⟩ := exists_tags_of_append h
  rw [bytesOf_cons, tags] at hs
  obtain ⟨hhead, htail⟩ := List.cons.inj hs
  have hcode : (s.next x.byte (bytesOf post).head?).1 = true := by
    rw [← hhead] at hx
    exact hx
  rwa [ScanState.next_of_code hcode] at htail

/-- What stands before a byte that completes no opening is read as if it stood alone. -/
theorem tags_of_append {s : ScanState} {bytes : List UInt8} {pre post : List Tagged} {x : Tagged}
    (h : tags s bytes = pre ++ x :: post) (hdash : x.byte ≠ '-'.toUInt8)
    (hstar : x.byte ≠ '*'.toUInt8) : tags s (bytesOf pre) = pre := by
  induction pre generalizing s bytes with
  | nil => rfl
  | cons y pre ih =>
      cases bytes with
      | nil => cases h
      | cons b rest =>
          rw [tags, List.cons_append] at h
          obtain ⟨hhead, htail⟩ := List.cons.inj h
          have hrest : rest = bytesOf (pre ++ x :: post) := by
            rw [← htail, bytesOf_tags]
          have hpeek : s.next b rest.head? = s.next b (bytesOf pre).head? := by
            cases pre with
            | cons z pre =>
                rw [hrest]
                rfl
            | nil =>
                rw [hrest]
                cases s <;> simp [ScanState.next, hdash, hstar]
          rw [hpeek] at hhead htail
          rw [bytesOf_cons, ← hhead, tags, ih htail]

/-- A slice that ends before a closing parenthesis is read as if it stood alone. -/
theorem Lexed.of_append_left {pre post : List Tagged} {x : Tagged} (h : Lexed (pre ++ x :: post))
    (hdash : x.byte ≠ '-'.toUInt8) (hstar : x.byte ≠ '*'.toUInt8) : Lexed pre :=
  tags_of_append h hdash hstar

/-- Bytes of code. -/
def codes (bytes : List UInt8) : List Tagged :=
  bytes.map fun b => ⟨b, true⟩

@[simp]
theorem bytesOf_codes (bytes : List UInt8) : bytesOf (codes bytes) = bytes := by
  simp [bytesOf, codes, Function.comp_def]

/-- In code, a byte that opens nothing is code, and the reading goes on in code. -/
theorem Lexed.of_cons {x : Tagged} {ts : List Tagged} (h : Lexed (x :: ts))
    (hx : isOpener x.byte = false) : x = ⟨x.byte, true⟩ ∧ Lexed ts := by
  rw [Lexed, bytesOf_cons, tags_code_cons hx] at h
  obtain ⟨hhead, htail⟩ := List.cons.inj h
  exact ⟨hhead.symm, htail⟩

theorem Lexed.cons_code {b : UInt8} (hb : isOpener b = false) {ts : List Tagged} (h : Lexed ts) :
    Lexed (⟨b, true⟩ :: ts) := by
  rw [Lexed, bytesOf_cons, tags_code_cons hb, h]

/-- Bytes at the start that open nothing are code. -/
theorem Lexed.exists_codes {bytes rest : List UInt8} (hbytes : ∀ b ∈ bytes, isOpener b = false)
    {ts : List Tagged} (h : Lexed ts) (hts : bytesOf ts = bytes ++ rest) :
    ∃ us, ts = codes bytes ++ us ∧ Lexed us ∧ bytesOf us = rest := by
  induction bytes generalizing ts with
  | nil => exact ⟨ts, rfl, h, hts⟩
  | cons b bytes ih =>
      cases ts with
      | nil => cases hts
      | cons x ts =>
          obtain ⟨hb, htail⟩ := List.cons.inj hts
          have hx : x.byte = b := hb
          obtain ⟨hcode, hlexed⟩ := h.of_cons (hx ▸ hbytes b List.mem_cons_self)
          obtain ⟨us, rfl, hus, hrest⟩ :=
            ih (fun b hb => hbytes b (List.mem_cons_of_mem _ hb)) hlexed htail
          rw [hx] at hcode
          exact ⟨us, by rw [hcode]; rfl, hus, hrest⟩

/-! ## The table reference in a tagged statement -/

/-- The bytes after a `from` and the whitespace that follows it. -/
def afterFrom (post : List Tagged) : List Tagged :=
  (post.drop fromKeyword.length).dropWhile fun x => isAsciiWhitespace x.byte

/-- The text of the statement from its first table reference on, to the end of the
subquery the reference stands in. -/
inductive TableAt : List Tagged → List Tagged → Prop
  | here {ts pre post : List Tagged} (hfrom : splitKeyword fromKeyword none ts = some (pre, post))
      (htable : (bytesOf (afterFrom post)).head? ≠ some '('.toUInt8) : TableAt ts (afterFrom post)
  | subquery {ts pre post inner rest tail : List Tagged}
      (hfrom : splitKeyword fromKeyword none ts = some (pre, post))
      (hclose : splitParen 0 (afterFrom post) = some (⟨'('.toUInt8, true⟩ :: inner, rest))
      (hinner : TableAt inner tail) : TableAt ts tail

/-- The bytes up to the end of a table reference. -/
def tableToken (tail : List Tagged) : List UInt8 :=
  (bytesOf tail).takeWhile fun b => !endsTable b

theorem isIdentByte_toAsciiLowercase (b : UInt8) :
    isIdentByte (toAsciiLowercase b) = isIdentByte b := by
  unfold isIdentByte isAsciiAlphanumeric toAsciiLowercase
  grind

/-- A text that equals a word up to case is made of identifier bytes as the word is. -/
theorem isIdentByte_of_eqIgnoreAsciiCase {bytes word : List UInt8}
    (h : eqIgnoreAsciiCase bytes word = true) (hword : ∀ b ∈ word, isIdentByte b = true) :
    ∀ b ∈ bytes, isIdentByte b = true := by
  intro b hb
  have hmap : bytes.map toAsciiLowercase = word.map toAsciiLowercase := by
    simpa [eqIgnoreAsciiCase] using h
  have hmem : toAsciiLowercase b ∈ word.map toAsciiLowercase :=
    hmap ▸ List.mem_map_of_mem hb
  obtain ⟨c, hc, heq⟩ := List.mem_map.mp hmem
  rw [← isIdentByte_toAsciiLowercase, ← heq, isIdentByte_toAsciiLowercase]
  exact hword c hc

theorem isIdentByte_fromKeyword : ∀ b ∈ fromKeyword, isIdentByte b = true :=
  List.all_eq_true.mp (by decide)

/-- The last byte of a text, or the one before it if it is empty. -/
def lastByte (prev : Option UInt8) (ts : List Tagged) : Option UInt8 :=
  ((bytesOf ts).getLast?).or prev

@[simp]
theorem lastByte_nil (prev : Option UInt8) : lastByte prev [] = prev := rfl

@[simp]
theorem lastByte_cons (prev : Option UInt8) (x : Tagged) (ts : List Tagged) :
    lastByte prev (x :: ts) = lastByte (some x.byte) ts := by
  rw [lastByte, lastByte, bytesOf_cons, List.getLast?_cons]
  cases (bytesOf ts).getLast? <;> rfl

theorem lastByte_append (prev : Option UInt8) (ts us : List Tagged) :
    lastByte prev (ts ++ us) = lastByte (lastByte prev ts) us := by
  rw [lastByte, lastByte, lastByte, bytesOf_append, List.getLast?_append, Option.or_assoc]

/-- The keyword stands in code where the statement is split. -/
theorem keywordAt_of_splitKeyword {keyword : List UInt8} {prev : Option UInt8}
    {ts pre post : List Tagged} (h : splitKeyword keyword prev ts = some (pre, post)) :
    (∃ x rest, post = x :: rest ∧ x.code = true) ∧
      keywordAt keyword (lastByte prev pre) (bytesOf post) = true := by
  induction ts generalizing prev pre with
  | nil => cases h
  | cons x rest ih =>
      rw [splitKeyword] at h
      split at h
      · rename_i hkeyword
        obtain ⟨rfl, rfl⟩ := Prod.mk.inj (Option.some.inj h)
        obtain ⟨hcode, hat⟩ := Bool.and_eq_true_iff.mp hkeyword
        exact ⟨⟨x, rest, rfl, hcode⟩, hat⟩
      · obtain ⟨pre', hsplit, rfl⟩ := @exists_of_map_split _ [x] _ _ h
        rw [List.singleton_append, lastByte_cons]
        exact ih hsplit

/-- The keyword, and what follows it, of a statement split at a `from`. -/
theorem Lexed.of_splitFrom {prev : Option UInt8} {ts pre post : List Tagged} (hts : Lexed ts)
    (h : splitKeyword fromKeyword prev ts = some (pre, post)) :
    ∃ word rest, post = codes word ++ rest ∧ eqIgnoreAsciiCase word fromKeyword = true ∧
      word.length = fromKeyword.length ∧ ((bytesOf rest).head?).all (!isIdentByte ·) = true ∧
      Lexed rest := by
  obtain ⟨⟨x, tail, hpost, hx⟩, hat⟩ := keywordAt_of_splitKeyword h
  simp only [keywordAt, Bool.and_eq_true, decide_eq_true_eq] at hat
  obtain ⟨⟨⟨hlen, hword⟩, -⟩, hnext⟩ := hat
  have hident := isIdentByte_of_eqIgnoreAsciiCase hword isIdentByte_fromKeyword
  have hopener : ∀ b ∈ (bytesOf post).take fromKeyword.length, isOpener b = false :=
    fun b hb => isOpener_of_isIdentByte (hident b hb)
  have hlexed : Lexed post := by
    have hxbyte : isOpener x.byte = false := by
      apply hopener
      rw [hpost]
      exact List.mem_cons_self
    rw [append_of_splitKeyword h, hpost] at hts
    obtain ⟨byte, code⟩ := x
    subst hx
    rw [hpost]
    exact (hts.of_append rfl).cons_code hxbyte
  obtain ⟨rest, heq, hrest, hbytes⟩ := hlexed.exists_codes hopener
    (List.take_append_drop fromKeyword.length (bytesOf post)).symm
  refine ⟨_, rest, heq, hword, ?_, ?_, hrest⟩
  · exact List.length_take_of_le hlen
  · rwa [hbytes]

/-- The whitespace after a `from` is code. -/
theorem Lexed.exists_afterFrom {ts pre post : List Tagged} {prev : Option UInt8} (hts : Lexed ts)
    (h : splitKeyword fromKeyword prev ts = some (pre, post)) :
    ∃ word blank, post = codes (word ++ blank) ++ afterFrom post ∧
      eqIgnoreAsciiCase word fromKeyword = true ∧ word.length = fromKeyword.length ∧
      (∀ b ∈ blank, isAsciiWhitespace b = true) ∧
      ((blank ++ bytesOf (afterFrom post)).head?).all (!isIdentByte ·) = true ∧
      ((bytesOf (afterFrom post)).head?).all (!isAsciiWhitespace ·) = true ∧
      Lexed (afterFrom post) := by
  obtain ⟨word, rest, hpost, hword, hlen, hnext, hrest⟩ := hts.of_splitFrom h
  have hdrop : post.drop fromKeyword.length = rest := by
    rw [hpost, ← hlen]
    simp [codes]
  have hafter : afterFrom post = rest.dropWhile fun x => isAsciiWhitespace x.byte := by
    rw [afterFrom, hdrop]
  have hsplit : (rest.takeWhile fun x => isAsciiWhitespace x.byte) ++ afterFrom post = rest := by
    rw [hafter]
    exact List.takeWhile_append_dropWhile
  have hblank : ∀ b ∈ bytesOf (rest.takeWhile fun x => isAsciiWhitespace x.byte),
      isAsciiWhitespace b = true := by
    intro b hb
    obtain ⟨x, hx, rfl⟩ := List.mem_map.mp hb
    exact List.all_eq_true.mp List.all_takeWhile x hx
  obtain ⟨tail, heq, htail, -⟩ := hrest.exists_codes
    (fun b hb => isOpener_of_isAsciiWhitespace (hblank b hb))
    (by rw [← bytesOf_append, hsplit])
  have htaileq : codes (bytesOf (rest.takeWhile fun x => isAsciiWhitespace x.byte)) =
      (rest.takeWhile fun x => isAsciiWhitespace x.byte) ∧ tail = afterFrom post :=
    List.append_inj (heq.symm.trans hsplit.symm) (by simp [codes])
  refine ⟨word, _, ?_, hword, hlen, hblank, ?_, ?_, htaileq.2 ▸ htail⟩
  · rw [← htaileq.2, codes, List.map_append, ← codes, ← codes, List.append_assoc, ← heq, hpost]
  · rwa [← bytesOf_append, hsplit]
  · have hhead := List.head?_dropWhile_not (fun x : Tagged => isAsciiWhitespace x.byte) rest
    rw [hafter]
    cases hdropped : rest.dropWhile fun x => isAsciiWhitespace x.byte with
    | nil => rfl
    | cons x tail =>
        rw [hdropped] at hhead
        simpa using hhead

/-- A slice of a text that is put together from four parts. -/
theorem take_drop_parts {α : Type} (u v w z : List α) (k : Nat) :
    ((u ++ v ++ w ++ z).take (u.length + v.length + w.length + k)).drop
        (u.length + v.length + w.length + 1) = (z.take k).drop 1 := by
  have hlen : u.length + v.length + w.length = (u ++ v ++ w).length := by simp [Nat.add_assoc]
  rw [hlen, List.take_length_add_append, ← List.drop_drop, List.drop_left]

/-- What is in front of the matching parenthesis starts with the one that is matched. -/
theorem exists_inner_of_splitParen {tail pre post : List Tagged}
    (h : splitParen 0 (⟨'('.toUInt8, true⟩ :: tail) = some (pre, post)) :
    ∃ inner, pre = ⟨'('.toUInt8, true⟩ :: inner := by
  simp only [splitParen, true_and, if_true] at h
  obtain ⟨inner, -, heq⟩ := @exists_of_map_split _ [⟨'('.toUInt8, true⟩] _ _ h
  exact ⟨inner, heq⟩

/-- The inside of a parenthesis is read as if it stood alone. -/
theorem Lexed.inner {tail inner rest : List Tagged} (h : Lexed tail)
    (hclose : splitParen 0 tail = some (⟨'('.toUInt8, true⟩ :: inner, rest)) : Lexed inner := by
  obtain ⟨htail, post, rfl⟩ := append_of_splitParen hclose
  rw [htail] at h
  have hpre : Lexed ([] ++ ⟨'('.toUInt8, true⟩ :: inner) :=
    h.of_append_left (by decide) (by decide)
  exact hpre.of_append rfl

/-- The two forms of a table reference after the first `from`. -/
theorem tableAt_iff {ts pre post tail : List Tagged}
    (hfrom : splitKeyword fromKeyword none ts = some (pre, post)) :
    TableAt ts tail ↔
      ((bytesOf (afterFrom post)).head? ≠ some '('.toUInt8 ∧ tail = afterFrom post) ∨
      ∃ inner rest, splitParen 0 (afterFrom post) = some (⟨'('.toUInt8, true⟩ :: inner, rest) ∧
        TableAt inner tail := by
  constructor
  · intro h
    cases h with
    | here hfrom' htable =>
        obtain ⟨rfl, rfl⟩ := Prod.mk.inj (Option.some.inj (hfrom.symm.trans hfrom'))
        exact .inl ⟨htable, rfl⟩
    | subquery hfrom' hclose hinner =>
        obtain ⟨rfl, rfl⟩ := Prod.mk.inj (Option.some.inj (hfrom.symm.trans hfrom'))
        exact .inr ⟨_, _, hclose, hinner⟩
  · rintro (⟨htable, rfl⟩ | ⟨inner, rest, hclose, hinner⟩)
    · exact .here hfrom htable
    · exact .subquery hfrom hclose hinner

/-- A statement is what stands before the first `from`, the keyword, whitespace, and what
follows. -/
theorem exists_parts_of_splitFrom {sql : List UInt8} {pre post : List Tagged}
    (hfrom : splitKeyword fromKeyword none (tags .code sql) = some (pre, post)) :
    ∃ word blank, sql = bytesOf pre ++ word ++ blank ++ bytesOf (afterFrom post) ∧
      word.length = fromKeyword.length ∧ (∀ b ∈ blank, isAsciiWhitespace b = true) ∧
      ((bytesOf (afterFrom post)).head?).all (!isAsciiWhitespace ·) = true ∧
      Lexed (afterFrom post) := by
  obtain ⟨word, blank, hpost, -, hword, hblank, -, hhead, htail⟩ :=
    (lexed_tags sql).exists_afterFrom hfrom
  have hbytes : bytesOf post = word ++ blank ++ bytesOf (afterFrom post) := by
    conv_lhs => rw [hpost]
    simp
  have hparts : sql = bytesOf (pre ++ post) := by
    rw [← append_of_splitKeyword hfrom, bytesOf_tags]
  refine ⟨word, blank, ?_, hword, hblank, hhead, htail⟩
  rw [hparts, bytesOf_append, hbytes]
  simp only [List.append_assoc]

/-- An opening parenthesis at the start of tagged bytes is code. -/
theorem Lexed.eq_paren_cons {ts : List Tagged} (h : Lexed ts)
    (hopen : (bytesOf ts).head? = some '('.toUInt8) : ∃ tail, ts = ⟨'('.toUInt8, true⟩ :: tail := by
  cases ts with
  | nil => cases hopen
  | cons x tail =>
      have hbyte : x.byte = '('.toUInt8 := Option.some.inj hopen
      refine ⟨tail, ?_⟩
      rw [(h.of_cons (by rw [hbyte]; decide)).1, hbyte]

/-- Behind the keyword stands the whitespace, and that is what the search steps over. -/
theorem drop_from_of_parts {sql before word blank rest : List UInt8} {n : Nat}
    (hsql : sql = before ++ word ++ blank ++ rest) (hn : n = before.length + word.length)
    (hblank : ∀ b ∈ blank, isAsciiWhitespace b = true)
    (hhead : (rest.head?).all (!isAsciiWhitespace ·) = true) :
    sql.drop n = blank ++ rest ∧ (blank ++ rest).takeWhile isAsciiWhitespace = blank := by
  constructor
  · rw [hn, hsql, List.append_assoc _ blank, ← List.length_append, List.drop_left]
  · refine Foundation.takeWhile_append_of_head? hblank fun b hb => ?_
    rw [Option.mem_def.mp hb] at hhead
    simpa using hhead

/-- One step of the search for the first table, in terms of the tagged bytes. -/
theorem firstTableName_of_splitFrom {sql : List UInt8} {pre post : List Tagged}
    (hfrom : splitKeyword fromKeyword none (tags .code sql) = some (pre, post)) :
    firstTableName sql =
      if (bytesOf (afterFrom post)).head? = some '('.toUInt8 then
        (splitParen 0 (afterFrom post)).bind fun split => firstTableName (bytesOf split.1.tail)
      else if trim (tableToken (afterFrom post)) = [] then none
      else some (trim (tableToken (afterFrom post))) := by
  obtain ⟨word, blank, hsql, hword, hblank, hhead, htail⟩ := exists_parts_of_splitFrom hfrom
  obtain ⟨hdropFrom, htake⟩ := drop_from_of_parts (n := pre.length + fromKeyword.length) hsql
    (by rw [length_bytesOf, hword]) hblank hhead
  have hdrop : sql.drop (pre.length + fromKeyword.length + blank.length) =
      bytesOf (afterFrom post) := by
    rw [← List.drop_drop, hdropFrom, List.drop_left]
  rw [firstTableName, findKeyword_eq, hfrom]
  simp only [Option.map_some, hdropFrom, htake, hdrop]
  by_cases hopen : (bytesOf (afterFrom post)).head? = some '('.toUInt8
  · rw [dif_pos hopen, if_pos hopen, matchingParen_eq, hdrop, htail]
    cases hclose : splitParen 0 (afterFrom post) with
    | none => rfl
    | some split =>
        obtain ⟨closed, rest⟩ := split
        obtain ⟨tail, hparen⟩ := htail.eq_paren_cons hopen
        obtain ⟨inner, rfl⟩ := exists_inner_of_splitParen (hparen ▸ hclose)
        have hslice : (sql.take (pre.length + fromKeyword.length + blank.length +
            (inner.length + 1))).drop
              (pre.length + fromKeyword.length + blank.length + 1) = bytesOf inner := by
          have hparts := take_drop_parts (bytesOf pre) word blank
            (bytesOf (afterFrom post)) (inner.length + 1)
          rw [← hsql, length_bytesOf, hword] at hparts
          rw [hparts, (append_of_splitParen hclose).1, bytesOf_append]
          simp
        simp only [Option.map_some, List.length_cons, hslice]
        rfl
  · rw [dif_neg hopen, if_neg hopen, tableToken]

/-- The inside of a parenthesis behind a `from` is shorter than the statement. -/
theorem length_inner_lt {sql : List UInt8} {pre post inner rest : List Tagged}
    (hfrom : splitKeyword fromKeyword none (tags .code sql) = some (pre, post))
    (hclose : splitParen 0 (afterFrom post) = some (⟨'('.toUInt8, true⟩ :: inner, rest)) :
    (bytesOf inner).length < sql.length := by
  obtain ⟨word, blank, hsql, -, -, -, -⟩ := exists_parts_of_splitFrom hfrom
  have hlonger := congrArg List.length (append_of_splitParen hclose).1
  rw [hsql]
  simp only [List.length_append, List.length_cons, length_bytesOf] at hlonger ⊢
  omega

/-- The table reference of a statement in terms of its tagged bytes. -/
theorem firstTableName_eq_some_iff {sql table : List UInt8} :
    firstTableName sql = some table ↔
      ∃ tail, TableAt (tags .code sql) tail ∧ trim (tableToken tail) = table ∧ table ≠ [] := by
  induction hlen : sql.length using Nat.strong_induction_on generalizing sql with
  | _ n ih =>
      cases hfrom : splitKeyword fromKeyword none (tags .code sql) with
      | none =>
          rw [firstTableName, findKeyword_eq, hfrom]
          simp only [Option.map_none, reduceCtorEq, false_iff]
          rintro ⟨tail, htable, -⟩
          cases htable with
          | here h => rw [hfrom] at h; cases h
          | subquery h => rw [hfrom] at h; cases h
      | some split =>
          obtain ⟨pre, post⟩ := split
          obtain ⟨_, _, -, -, -, -, htail⟩ := exists_parts_of_splitFrom hfrom
          rw [firstTableName_of_splitFrom hfrom]
          by_cases hopen : (bytesOf (afterFrom post)).head? = some '('.toUInt8
          · rw [if_pos hopen]
            cases hclose : splitParen 0 (afterFrom post) with
            | none => simp [tableAt_iff hfrom, hopen, hclose]
            | some split =>
                obtain ⟨closed, rest⟩ := split
                obtain ⟨tail, hparen⟩ := htail.eq_paren_cons hopen
                obtain ⟨inner, rfl⟩ := exists_inner_of_splitParen (hparen ▸ hclose)
                have hinner : tags .code (bytesOf inner) = inner := htail.inner hclose
                have hshort := length_inner_lt hfrom hclose
                rw [Option.bind_some, List.tail_cons, ih _ (hlen ▸ hshort) rfl, hinner]
                simp [tableAt_iff hfrom, hopen, hclose]
          · rw [if_neg hopen]
            have hone : ∀ tail, TableAt (tags .code sql) tail ↔ tail = afterFrom post := by
              intro tail
              rw [tableAt_iff hfrom]
              constructor
              · rintro (⟨-, rfl⟩ | ⟨inner, rest, hclose, -⟩)
                · rfl
                · have happend := (append_of_splitParen hclose).1
                  rw [happend] at hopen
                  exact absurd rfl hopen
              · rintro rfl
                exact .inl ⟨hopen, rfl⟩
            simp only [hone, exists_eq_left]
            by_cases hempty : trim (tableToken (afterFrom post)) = []
            · rw [if_pos hempty, hempty]
              simp only [reduceCtorEq, false_iff, not_and, not_not]
              exact fun h => h.symm
            · rw [if_neg hempty, Option.some.injEq]
              constructor
              · rintro rfl
                exact ⟨rfl, hempty⟩
              · exact fun h => h.1

/-- A statement has one first table reference. -/
theorem TableAt.unique {ts tail tail' : List Tagged} (h : TableAt ts tail) (h' : TableAt ts tail') :
    tail = tail' := by
  induction h with
  | here hfrom htable =>
      rcases (tableAt_iff hfrom).mp h' with ⟨-, rfl⟩ | ⟨inner, rest, hclose, -⟩
      · rfl
      · rw [(append_of_splitParen hclose).1] at htable
        exact absurd rfl htable
  | subquery hfrom hclose _ ih =>
      rcases (tableAt_iff hfrom).mp h' with ⟨htable, -⟩ | ⟨inner, rest, hclose', hinner⟩
      · rw [(append_of_splitParen hclose).1] at htable
        exact absurd rfl htable
      · obtain ⟨heq, -⟩ := Prod.mk.inj (Option.some.inj (hclose.symm.trans hclose'))
        apply ih
        rw [(List.cons.inj heq).2]
        exact hinner

/-- The table reference is read as if it stood alone. -/
theorem TableAt.lexed {ts tail : List Tagged} (h : TableAt ts tail) (hts : Lexed ts) :
    Lexed tail := by
  induction h with
  | here hfrom =>
      obtain ⟨_, _, -, -, -, -, -, -, hafter⟩ := hts.exists_afterFrom hfrom
      exact hafter
  | subquery hfrom hclose _ ih =>
      obtain ⟨_, _, -, -, -, -, -, -, hafter⟩ := hts.exists_afterFrom hfrom
      exact ih (hafter.inner hclose)

end WpKnowledge.SqlRoute
