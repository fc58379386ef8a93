import WpKnowledge.Foundation.Text
import WpKnowledge.Foundation.Tokens
import WpKnowledge.Sql.Rewrite

/-!
# How the scanner reads what engines call tokens

Facts on the scanner of {lit}`Sql/Rewrite` that name a piece of a statement by its
form and not by how the scanner comes to its end: quoted text, comments, dollar
quotes, casts, placeholders, and bytes at which nothing of that kind starts.

Main results:

- Theorems {lit}`copies_quoted`, {lit}`copies_lineComment`, {lit}`copies_blockComment` and
  {lit}`copies_dollarQuoted`: a closed or open region is copied as a whole.
- Theorem {lit}`copies_of_inert`: text in which nothing opens is copied.
- Theorem {lit}`occurrences_of_not_mayName`: without a colon before a name there is no
  placeholder.
-/

namespace WpKnowledge

open Foundation (Closes QuotedBody OpenBody upTo)

/-! ## Dollar tags -/

/-- The tag of a dollar quote: nothing or a name between two dollar signs. -/
inductive IsDollarTag : List UInt8 → Prop where
  | anonymous : IsDollarTag ['$'.toUInt8, '$'.toUInt8]
  | named {a : UInt8} {s : List UInt8} (ha : isDollarTagStart a = true)
      (hs : ∀ b ∈ s, isDollarTagContinue b = true) :
      IsDollarTag ('$'.toUInt8 :: a :: s ++ ['$'.toUInt8])

/-- A tag is not empty. -/
theorem IsDollarTag.ne_nil {tag : List UInt8} (h : IsDollarTag tag) : tag ≠ [] := by
  cases h <;> simp

/-- A tag starts with a dollar sign. -/
theorem IsDollarTag.eq_cons {tag : List UInt8} (h : IsDollarTag tag) :
    ∃ s, tag = '$'.toUInt8 :: s := by
  cases h with
  | anonymous => exact ⟨_, rfl⟩
  | named ha hs => exact ⟨_, rfl⟩

/-- A byte of a name is not a dollar sign. -/
theorem ne_dollar_of_isDollarTagContinue {b : UInt8} (h : isDollarTagContinue b = true) :
    b ≠ '$'.toUInt8 := by
  rintro rfl
  revert h
  decide

/-- The bytes a name starts with are bytes it goes on with. -/
theorem isDollarTagContinue_of_isDollarTagStart {b : UInt8} (h : isDollarTagStart b = true) :
    isDollarTagContinue b = true := by
  rw [isDollarTagContinue, h, Bool.true_or]

/-- The search for the end of a tag goes over the rest of a name. -/
theorem dollarTagLength_append {idx : Nat} (hidx : 1 < idx) {s : List UInt8}
    (hs : ∀ b ∈ s, isDollarTagContinue b = true) (rest : List UInt8) :
    dollarTagLength idx (s ++ '$'.toUInt8 :: rest) = some (idx + s.length + 1) := by
  induction s generalizing idx with
  | nil => rw [List.nil_append, dollarTagLength, if_pos rfl, List.length_nil, Nat.add_zero]
  | cons b s ih =>
      have hb := hs b List.mem_cons_self
      have htail := ih (Nat.lt_succ_of_lt hidx) fun c hc => hs c (List.mem_cons_of_mem b hc)
      rw [List.cons_append, dollarTagLength, if_neg (ne_dollar_of_isDollarTagContinue hb),
        if_neg (by omega), if_pos hb, htail, List.length_cons]
      congr 1
      omega

/-- A tag in front of a text is found. -/
theorem parseDollarQuoteTag_append {tag : List UInt8} (h : IsDollarTag tag) (rest : List UInt8) :
    parseDollarQuoteTag (tag ++ rest) = some tag.length := by
  cases h with
  | anonymous => rfl
  | @named a s ha hs =>
      have hne := ne_dollar_of_isDollarTagContinue (isDollarTagContinue_of_isDollarTagStart ha)
      have htail := dollarTagLength_append (Nat.lt_succ_self 1) hs rest
      simp only [List.cons_append, List.append_assoc, List.nil_append]
      rw [parseDollarQuoteTag, if_pos rfl, dollarTagLength, if_neg hne, if_pos rfl, if_pos ha,
        htail]
      simp
      omega

/-- The bytes up to the end the search finds are the rest of a name. -/
theorem eq_of_dollarTagLength {idx n : Nat} (hidx : 1 < idx) {bytes : List UInt8}
    (h : dollarTagLength idx bytes = some n) :
    ∃ s rest, bytes = s ++ '$'.toUInt8 :: rest ∧ ∀ b ∈ s, isDollarTagContinue b = true := by
  induction bytes generalizing idx with
  | nil => cases h
  | cons b bytes ih =>
      rw [dollarTagLength] at h
      split_ifs at h with hb hone hcont hcont
      · exact ⟨[], bytes, by rw [hb, List.nil_append], by simp⟩
      · omega
      · obtain ⟨s, rest, rfl, hs⟩ := ih (Nat.lt_succ_of_lt hidx) h
        refine ⟨b :: s, rest, rfl, ?_⟩
        intro c hc
        rcases List.mem_cons.mp hc with rfl | hmem
        · exact hcont
        · exact hs c hmem

/-- A tag that is found stands in front of the text. -/
theorem exists_tag_of_parse {bytes : List UInt8} {n : Nat}
    (h : parseDollarQuoteTag bytes = some n) :
    ∃ tag rest, bytes = tag ++ rest ∧ IsDollarTag tag := by
  cases bytes with
  | nil => cases h
  | cons b bytes =>
      rw [parseDollarQuoteTag] at h
      split_ifs at h with hb
      subst hb
      cases bytes with
      | nil => cases h
      | cons a bytes =>
          rw [dollarTagLength] at h
          split_ifs at h with ha hone hstart
          · exact ⟨['$'.toUInt8, '$'.toUInt8], bytes, by rw [ha]; rfl, .anonymous⟩
          · obtain ⟨s, rest, rfl, hs⟩ := eq_of_dollarTagLength (by omega) h
            exact ⟨'$'.toUInt8 :: a :: s ++ ['$'.toUInt8], rest, by simp, .named hstart hs⟩
          · omega

/-! ## Where a region opens -/

/-- At the front of the text the scanner finds more than a byte to copy. -/
inductive Opens : List UInt8 → Prop where
  | quote {q : UInt8} {rest : List UInt8} (hq : q = '\''.toUInt8 ∨ q = '"'.toUInt8) :
      Opens (q :: rest)
  | lineComment {rest : List UInt8} : Opens ('-'.toUInt8 :: '-'.toUInt8 :: rest)
  | blockComment {rest : List UInt8} : Opens ('/'.toUInt8 :: '*'.toUInt8 :: rest)
  | dollarQuote {tag rest : List UInt8} (htag : IsDollarTag tag) : Opens (tag ++ rest)
  | cast {rest : List UInt8} : Opens (':'.toUInt8 :: ':'.toUInt8 :: rest)
  | param {a : UInt8} {rest : List UInt8} (ha : isParamStart a = true) :
      Opens (':'.toUInt8 :: a :: rest)

/-- Nothing opens at any byte of the text {lit}`t` in front of {lit}`rest`. -/
def Inert (t rest : List UInt8) : Prop :=
  ∀ s, s ≠ [] → s <:+ t → ¬ Opens (s ++ rest)

/-- The head of a list that has one. -/
theorem eq_cons_tail_of_head? {α : Type} {a : α} {s : List α} (h : s.head? = some a) :
    s = a :: s.tail := by
  cases s with
  | nil => cases h
  | cons b s =>
      cases h
      rfl

/-- Where nothing opens, one byte is copied. -/
theorem regionAt_of_not_opens {b : UInt8} {rest : List UInt8} (h : ¬ Opens (b :: rest)) :
    regionAt b rest = .copy 1 := by
  have hsingle : b ≠ '\''.toUInt8 := fun heq => h (.quote (.inl heq))
  have hdouble : b ≠ '"'.toUInt8 := fun heq => h (.quote (.inr heq))
  have hline : ¬ (b = '-'.toUInt8 ∧ rest.head? = some '-'.toUInt8) := by
    rintro ⟨rfl, hhead⟩
    rw [eq_cons_tail_of_head? hhead] at h
    exact h .lineComment
  have hblock : ¬ (b = '/'.toUInt8 ∧ rest.head? = some '*'.toUInt8) := by
    rintro ⟨rfl, hhead⟩
    rw [eq_cons_tail_of_head? hhead] at h
    exact h .blockComment
  rw [regionAt, if_neg hsingle, if_neg hdouble, if_neg hline, if_neg hblock]
  split_ifs with hdollar hcolon hcast hname
  · cases htag : parseDollarQuoteTag (b :: rest) with
    | none => rfl
    | some n =>
        obtain ⟨tag, rest', heq, htag⟩ := exists_tag_of_parse htag
        exact absurd (.dollarQuote htag) (heq ▸ h)
  · subst hcolon
    rw [eq_cons_tail_of_head? hcast] at h
    exact absurd .cast h
  · subst hcolon
    cases rest with
    | nil => cases hname
    | cons a rest => exact absurd (.param (by simpa using hname)) h
  · rfl
  · rfl

/-- Where something opens there is a byte that can open it. -/
theorem Opens.head {s : List UInt8} (h : Opens s) :
    ∃ b rest, s = b :: rest ∧ (b = '\''.toUInt8 ∨ b = '"'.toUInt8 ∨ b = '-'.toUInt8 ∨
      b = '/'.toUInt8 ∨ b = '$'.toUInt8 ∨ b = ':'.toUInt8) := by
  cases h with
  | quote hq => exact ⟨_, _, rfl, by tauto⟩
  | lineComment => exact ⟨_, _, rfl, by tauto⟩
  | blockComment => exact ⟨_, _, rfl, by tauto⟩
  | dollarQuote htag =>
      obtain ⟨s, rfl⟩ := htag.eq_cons
      exact ⟨_, _, rfl, by tauto⟩
  | cast => exact ⟨_, _, rfl, by tauto⟩
  | param ha => exact ⟨_, _, rfl, by tauto⟩

/-! ## Copied text -/

/-- The scanner copies the text in front of the rest and goes on after it. -/
def Copies (t rest : List UInt8) : Prop :=
  ∀ i, lexemesFrom i (t ++ rest) none =
    t.map .byte ++ lexemesFrom (i + t.length) rest none

/-- Text after text that is copied. -/
theorem Copies.append {t u rest : List UInt8} (ht : Copies t (u ++ rest)) (hu : Copies u rest) :
    Copies (t ++ u) rest := by
  intro i
  rw [List.append_assoc, ht, hu, List.map_append, List.append_assoc, List.length_append,
    Nat.add_assoc]

/-- Text before text that is copied. -/
theorem Copies.of_append {t u rest : List UInt8} (htu : Copies (t ++ u) rest)
    (hu : Copies u rest) : Copies t (u ++ rest) := by
  intro i
  rw [← List.append_assoc, htu, hu, List.map_append, List.append_assoc, List.length_append,
    Nat.add_assoc]

/-- A region that is copied. -/
theorem copies_of_regionAt {b : UInt8} {s rest : List UInt8}
    (h : regionAt b (s ++ rest) = .copy (s.length + 1)) : Copies (b :: s) rest := by
  intro i
  rw [List.cons_append, lexemesFrom]
  simp only [h]
  have htake : (b :: (s ++ rest)).take (s.length + 1) = b :: s := by simp
  have hdrop : (s ++ rest).drop (s.length + 1 - 1) = rest := by simp
  rw [htake, hdrop, List.length_cons]

/-- A byte at which nothing opens is copied. -/
theorem copies_byte {b : UInt8} {rest : List UInt8} (h : ¬ Opens (b :: rest)) :
    Copies [b] rest :=
  copies_of_regionAt (s := []) (regionAt_of_not_opens h)

/-- Text in which nothing opens is copied. -/
theorem copies_of_inert {t rest : List UInt8} (h : Inert t rest) : Copies t rest := by
  induction t with
  | nil =>
      intro i
      rfl
  | cons b t ih =>
      have hbyte : Copies [b] (t ++ rest) := copies_byte (h (b :: t) (by simp) List.suffix_rfl)
      have htail := ih fun s hs hsuffix => h s hs (hsuffix.trans (List.suffix_cons b t))
      exact hbyte.append htail

/-! ## Quoted text -/

/-- Another byte in quoted text is copied. -/
theorem quotedLength_plain {q b : UInt8} (hb : b ≠ q) (rest : List UInt8) :
    quotedLength q (b :: rest) = 1 + quotedLength q rest := by
  rw [quotedLength.eq_def]
  simp only [if_neg hb]

/-- A doubled quote in quoted text is copied. -/
theorem quotedLength_doubled (q : UInt8) (rest : List UInt8) :
    quotedLength q (q :: q :: rest) = 2 + quotedLength q rest := by
  rw [quotedLength.eq_def]
  simp only [if_true]

/-- The copying of quoted text stops at the quote that closes it. -/
theorem quotedLength_closed {q : UInt8} {body rest : List UInt8}
    (hbody : QuotedBody q (fun _ => False) body) (hrest : rest.head? ≠ some q) :
    quotedLength q (body ++ q :: rest) = body.length + 1 := by
  induction hbody with
  | nil =>
      cases rest with
      | nil => simp [quotedLength]
      | cons c rest =>
          have hc : c ≠ q := by simpa using hrest
          simp [quotedLength, hc]
  | plain hquote hescape hs ih =>
      rw [List.cons_append, quotedLength_plain hquote, ih, List.length_cons]
      omega
  | doubled hs ih =>
      rw [List.cons_append, List.cons_append, quotedLength_doubled, ih, List.length_cons,
        List.length_cons]
      omega
  | escaped hquote hescape hs ih => exact hescape.elim

/-- The copying of quoted text that is not closed goes to the end. -/
theorem quotedLength_open {q : UInt8} {body : List UInt8}
    (hbody : QuotedBody q (fun _ => False) body) : quotedLength q body = body.length := by
  induction hbody with
  | nil => rfl
  | plain hquote hescape hs ih =>
      rw [quotedLength_plain hquote, ih, List.length_cons]
      omega
  | doubled hs ih =>
      rw [quotedLength_doubled, ih, List.length_cons, List.length_cons]
      omega
  | escaped hquote hescape hs ih => exact hescape.elim

/-- The region at a quote. -/
theorem regionAt_quote {q : UInt8} (hq : q = '\''.toUInt8 ∨ q = '"'.toUInt8)
    (rest : List UInt8) : regionAt q rest = .copy (1 + quotedLength q rest) := by
  rcases hq with rfl | rfl
  · rw [regionAt, if_pos rfl]
  · rw [regionAt, if_neg (by decide), if_pos rfl]

/-- Quoted text is copied as a whole. -/
theorem copies_quoted {q : UInt8} (hq : q = '\''.toUInt8 ∨ q = '"'.toUInt8)
    {body rest : List UInt8} (hbody : QuotedBody q (fun _ => False) body)
    (hrest : rest.head? ≠ some q) : Copies (q :: body ++ [q]) rest := by
  apply copies_of_regionAt
  have hsplit : body ++ [q] ++ rest = body ++ q :: rest := by
    rw [List.append_assoc, List.singleton_append]
  change regionAt q (body ++ [q] ++ rest) = .copy ((body ++ [q]).length + 1)
  rw [hsplit, regionAt_quote hq, quotedLength_closed hbody hrest, List.length_append,
    List.length_singleton, Nat.add_comm]

/-- Quoted text that is not closed is copied to the end. -/
theorem copies_openQuoted {q : UInt8} (hq : q = '\''.toUInt8 ∨ q = '"'.toUInt8)
    {body : List UInt8} (hbody : QuotedBody q (fun _ => False) body) : Copies (q :: body) [] := by
  apply copies_of_regionAt
  rw [regionAt_quote hq, List.append_nil, quotedLength_open hbody, Nat.add_comm]

/-! ## Comments -/

/-- The loop of a line comment searches the next newline. -/
theorem lineCommentLength_eq_upTo (bytes : List UInt8) :
    lineCommentLength bytes = upTo ['\n'.toUInt8] bytes := by
  induction bytes with
  | nil => rfl
  | cons b bytes ih =>
      by_cases hb : b = '\n'.toUInt8
      · rw [lineCommentLength, if_pos hb, upTo, if_pos (by simp [hb, List.isPrefixOf]),
          List.length_singleton]
      · have hstart : ¬ ['\n'.toUInt8].isPrefixOf (b :: bytes) = true := by
          intro h
          rw [List.isPrefixOf_cons_cons, Bool.and_eq_true, beq_iff_eq] at h
          exact hb h.1.symm
        rw [lineCommentLength, if_neg hb, upTo, if_neg hstart, ih]

/-- When two given elements are in front. -/
theorem pair_isPrefixOf_cons_iff {α : Type} [DecidableEq α] (x y a : α) (s : List α) :
    [x, y].isPrefixOf (a :: s) = true ↔ a = x ∧ s.head? = some y := by
  rw [List.isPrefixOf_iff_prefix, List.cons_prefix_cons]
  cases s with
  | nil => simp
  | cons c s => simp [eq_comm]

/-- The loop of a block comment searches the next closing. -/
theorem blockCommentLength_eq_upTo (bytes : List UInt8) :
    blockCommentLength bytes = upTo ['*'.toUInt8, '/'.toUInt8] bytes := by
  induction bytes with
  | nil => rfl
  | cons b bytes ih =>
      have hiff := pair_isPrefixOf_cons_iff '*'.toUInt8 '/'.toUInt8 b bytes
      by_cases hb : b = '*'.toUInt8 ∧ bytes.head? = some '/'.toUInt8
      · rw [blockCommentLength, if_pos hb, upTo, if_pos (hiff.mpr hb)]
        rfl
      · rw [blockCommentLength, if_neg hb, upTo, if_neg (fun h => hb (hiff.mp h)), ih]

/-- The region at two dashes. -/
theorem regionAt_dashes (rest : List UInt8) :
    regionAt '-'.toUInt8 ('-'.toUInt8 :: rest) = .copy (2 + lineCommentLength rest) := by
  rw [regionAt, if_neg (by decide), if_neg (by decide), if_pos (by simp), List.tail_cons]

/-- The region at the opening of a block comment. -/
theorem regionAt_slashStar (rest : List UInt8) :
    regionAt '/'.toUInt8 ('*'.toUInt8 :: rest) = .copy (2 + blockCommentLength rest) := by
  have hdashes : ¬ ('/'.toUInt8 = '-'.toUInt8 ∧
      ('*'.toUInt8 :: rest).head? = some '-'.toUInt8) := fun h => absurd h.1 (by decide)
  rw [regionAt, if_neg (by decide), if_neg (by decide), if_neg hdashes, if_pos (by simp),
    List.tail_cons]

/-- A line comment is copied as a whole. -/
theorem copies_lineComment {body : List UInt8} (h : Closes ['\n'.toUInt8] body)
    (rest : List UInt8) :
    Copies ('-'.toUInt8 :: '-'.toUInt8 :: (body ++ ['\n'.toUInt8])) rest := by
  apply copies_of_regionAt
  have hlength := Foundation.upTo_closed (by simp) h rest
  rw [List.cons_append, regionAt_dashes, lineCommentLength_eq_upTo, hlength]
  simp
  omega

/-- A line comment that is not closed is copied to the end. -/
theorem copies_openLineComment {body : List UInt8} (h : ¬ ['\n'.toUInt8] <:+: body) :
    Copies ('-'.toUInt8 :: '-'.toUInt8 :: body) [] := by
  apply copies_of_regionAt
  rw [List.append_nil, regionAt_dashes, lineCommentLength_eq_upTo, Foundation.upTo_open h,
    List.length_cons]
  congr 1
  omega

/-- A block comment is copied as a whole. -/
theorem copies_blockComment {body : List UInt8} (h : Closes ['*'.toUInt8, '/'.toUInt8] body)
    (rest : List UInt8) :
    Copies ('/'.toUInt8 :: '*'.toUInt8 :: (body ++ ['*'.toUInt8, '/'.toUInt8])) rest := by
  apply copies_of_regionAt
  have hlength := Foundation.upTo_closed (by simp) h rest
  rw [List.cons_append, regionAt_slashStar, blockCommentLength_eq_upTo, hlength]
  simp
  omega

/-- A block comment that is not closed is copied to the end. -/
theorem copies_openBlockComment {body : List UInt8}
    (h : ¬ ['*'.toUInt8, '/'.toUInt8] <:+: body) :
    Copies ('/'.toUInt8 :: '*'.toUInt8 :: body) [] := by
  apply copies_of_regionAt
  rw [List.append_nil, regionAt_slashStar, blockCommentLength_eq_upTo, Foundation.upTo_open h,
    List.length_cons]
  congr 1
  omega

/-! ## Dollar quotes -/

/-- Inside a dollar quote the scanner copies up to the next occurrence of its tag. -/
theorem lexemesFrom_dollarTag {tag : List UInt8} (htag : tag ≠ []) (i : Nat)
    (bytes : List UInt8) :
    lexemesFrom i bytes (some tag) = (bytes.take (upTo tag bytes)).map .byte ++
      lexemesFrom (i + upTo tag bytes) (bytes.drop (upTo tag bytes)) none := by
  induction bytes generalizing i with
  | nil => simp [lexemesFrom]
  | cons b bytes ih =>
      by_cases hstart : tag.isPrefixOf (b :: bytes) = true
      · obtain ⟨a, s, rfl⟩ := List.exists_cons_of_ne_nil htag
        have htake : a :: s = (b :: bytes).take (a :: s).length :=
          List.prefix_iff_eq_take.mp (List.isPrefixOf_iff_prefix.mp hstart)
        rw [lexemesFrom, upTo, if_pos hstart]
        simp only [hstart, if_true]
        rw [← htake]
        simp
      · rw [lexemesFrom, upTo, if_neg hstart]
        simp only [hstart, Bool.false_eq_true, if_false]
        rw [ih, Nat.add_comm 1, List.take_succ_cons, List.drop_succ_cons, List.map_cons,
          List.cons_append, Nat.add_assoc, Nat.add_comm 1]

/-- The region at a tag. -/
theorem lexemesFrom_tag {tag : List UInt8} (htag : IsDollarTag tag) (i : Nat)
    (rest : List UInt8) :
    lexemesFrom i (tag ++ rest) none =
      tag.map .byte ++ lexemesFrom (i + tag.length) rest (some tag) := by
  obtain ⟨s, rfl⟩ := htag.eq_cons
  have hparse := parseDollarQuoteTag_append htag rest
  have hregion : regionAt '$'.toUInt8 (s ++ rest) = .dollarQuote ('$'.toUInt8 :: s).length := by
    rw [regionAt, if_neg (by decide), if_neg (by decide),
      if_neg (fun h => absurd h.1 (by decide)), if_neg (fun h => absurd h.1 (by decide)),
      if_pos rfl, ← List.cons_append, hparse]
  rw [List.cons_append, lexemesFrom]
  simp only [hregion]
  have htake : ('$'.toUInt8 :: (s ++ rest)).take ('$'.toUInt8 :: s).length = '$'.toUInt8 :: s := by
    simp
  have hdrop : (s ++ rest).drop (('$'.toUInt8 :: s).length - 1) = rest := by simp
  rw [htake, hdrop]

/-- A dollar quote is copied as a whole. -/
theorem copies_dollarQuoted {tag body : List UInt8} (htag : IsDollarTag tag)
    (h : Closes tag body) (rest : List UInt8) : Copies (tag ++ (body ++ tag)) rest := by
  intro i
  have hlength := Foundation.upTo_closed htag.ne_nil h rest
  have htake : (body ++ tag ++ rest).take (body.length + tag.length) = body ++ tag := by
    rw [← List.length_append, List.take_left]
  have hdrop : (body ++ tag ++ rest).drop (body.length + tag.length) = rest := by
    rw [← List.length_append, List.drop_left]
  rw [List.append_assoc, lexemesFrom_tag htag, lexemesFrom_dollarTag htag.ne_nil, hlength,
    htake, hdrop, ← List.append_assoc, ← List.map_append, List.length_append,
    List.length_append, Nat.add_assoc]

/-- A dollar quote that is not closed is copied to the end. -/
theorem copies_openDollarQuoted {tag body : List UInt8} (htag : IsDollarTag tag)
    (h : ¬ tag <:+: body) : Copies (tag ++ body) [] := by
  intro i
  rw [List.append_nil, lexemesFrom_tag htag, lexemesFrom_dollarTag htag.ne_nil,
    Foundation.upTo_open h]
  simp [Nat.add_assoc]

/-! ## Casts and placeholders -/

/-- Two colons are copied. -/
theorem copies_cast (rest : List UInt8) : Copies [':'.toUInt8, ':'.toUInt8] rest := by
  apply copies_of_regionAt
  rw [regionAt, if_neg (by decide), if_neg (by decide),
    if_neg (fun h => absurd h.1 (by decide)), if_neg (fun h => absurd h.1 (by decide)),
    if_neg (by decide), if_pos rfl, if_pos (by simp)]
  rfl

/-- A byte a name starts with is no colon. -/
theorem ne_colon_of_isParamStart {a : UInt8} (h : isParamStart a = true) : a ≠ ':'.toUInt8 := by
  rintro rfl
  revert h
  decide

/-- A colon and the longest name after it are a placeholder. -/
theorem lexemesFrom_param {a : UInt8} {s rest : List UInt8} (ha : isParamStart a = true)
    (hs : ∀ b ∈ s, isParamContinue b = true) (hrest : ∀ b ∈ rest.head?, isParamContinue b = false)
    (i : Nat) :
    lexemesFrom i (':'.toUInt8 :: a :: s ++ rest) none =
      .param i (bytesAsString (':'.toUInt8 :: a :: s)) ::
        lexemesFrom (i + (':'.toUInt8 :: a :: s).length) rest none := by
  have hcast : ¬ (a :: (s ++ rest)).head? = some ':'.toUInt8 := by
    simpa using ne_colon_of_isParamStart ha
  have hname : (((a :: (s ++ rest)).head?.map isParamStart).getD false) = true := by
    simpa using ha
  have hregion : regionAt ':'.toUInt8 (a :: (s ++ rest)) = .param (s.length + 2) := by
    rw [regionAt, if_neg (by decide), if_neg (by decide),
      if_neg (fun h => absurd h.1 (by decide)), if_neg (fun h => absurd h.1 (by decide)),
      if_neg (by decide), if_pos rfl, if_neg hcast, if_pos hname, List.tail_cons,
      Foundation.takeWhile_append_of_head? hs hrest, Nat.add_comm]
  rw [List.cons_append, List.cons_append, lexemesFrom]
  simp only [hregion]
  have htake : (':'.toUInt8 :: a :: (s ++ rest)).take (s.length + 2) = ':'.toUInt8 :: a :: s := by
    simp
  have hdrop : (a :: (s ++ rest)).drop (s.length + 2 - 1) = rest := by simp
  rw [htake, hdrop]
  rfl

/-- A colon stands before the first byte of a name. -/
def MayName (s : List UInt8) : Prop :=
  ∃ a, isParamStart a = true ∧ [':'.toUInt8, a] <:+: s

/-- More text in front keeps what may be a name. -/
theorem MayName.append_left {s : List UInt8} (h : MayName s) (t : List UInt8) :
    MayName (t ++ s) := by
  obtain ⟨a, ha, hinfix⟩ := h
  exact ⟨a, ha, List.infix_append_of_infix_right hinfix⟩

/-- A placeholder has a colon before the first byte of its name. -/
theorem mayName_of_regionAt {b : UInt8} {rest : List UInt8} {n : Nat}
    (h : regionAt b rest = .param n) : MayName (b :: rest) := by
  unfold regionAt at h
  split_ifs at h with h1 h2 h3 h4 h5 h6 h7 h8
  · split at h <;> cases h
  · cases rest with
    | nil => cases h8
    | cons a rest =>
        subst h6
        have hpre : [':'.toUInt8, a] <+: ':'.toUInt8 :: a :: rest := by simp
        exact ⟨a, by simpa using h8, hpre.isInfix⟩

/-- Bytes are no placeholders. -/
@[simp]
theorem filterMap_occurrence?_bytes (bytes : List UInt8) :
    (bytes.map Lexeme.byte).filterMap Lexeme.occurrence? = [] := by
  simp [List.filterMap_map, Function.comp_def, Lexeme.occurrence?]

/-- What cannot be a name in a text cannot be one in the end of it. -/
theorem not_mayName_drop {b : UInt8} {rest : List UInt8} (h : ¬ MayName (b :: rest)) (n : Nat) :
    ¬ MayName (rest.drop n) := by
  intro ⟨a, ha, hinfix⟩
  exact h ⟨a, ha, List.infix_cons (List.IsInfix.trans hinfix (List.drop_suffix n rest).isInfix)⟩

/-- Without a colon before a name there is no placeholder. -/
theorem occurrences_of_not_mayName (i : Nat) (bytes : List UInt8)
    (dollarTag : Option (List UInt8)) (h : ¬ MayName bytes) :
    (lexemesFrom i bytes dollarTag).filterMap Lexeme.occurrence? = [] := by
  fun_induction lexemesFrom i bytes dollarTag with
  | case1 => rfl
  | case2 i b rest tag hstart ih =>
      rw [List.filterMap_append, filterMap_occurrence?_bytes, ih (not_mayName_drop h _)]
      rfl
  | case3 i b rest tag hstart ih =>
      have hrest := not_mayName_drop h 0
      rw [List.drop_zero] at hrest
      rw [List.filterMap_cons, ih hrest]
      rfl
  | case4 i b rest n hregion ih =>
      rw [List.filterMap_append, filterMap_occurrence?_bytes, ih (not_mayName_drop h _)]
      rfl
  | case5 i b rest n hregion ih =>
      rw [List.filterMap_append, filterMap_occurrence?_bytes, ih (not_mayName_drop h _)]
      rfl
  | case6 i b rest n hregion ih => exact absurd (mayName_of_regionAt hregion) h

/-! ## Tokens and their placeholders -/

/-- What the rules of a language tell apart in a statement. -/
inductive TokenKind where
  | quoted
  | identifier
  | comment
  | dollarQuoted
  | cast
  | param
  | code
deriving DecidableEq, Repr

/-- The placeholder of a token at byte {lit}`i`, if it has one.  Its name goes on as
long as the bytes of names do. -/
def tokenPlaceholder (i : Nat) (k : TokenKind) (t : List UInt8) : List (Nat × String) :=
  if k = .param then
    [(i, bytesAsString (':'.toUInt8 :: t.tail.takeWhile isParamContinue))]
  else []

/-- The placeholders of tokens: where each starts, and its name. -/
def tokenPlaceholders (ts : List (TokenKind × List UInt8)) : List (Nat × String) :=
  Foundation.readFrom tokenPlaceholder 0 ts

/-- The placeholders the scanner finds in text it copies. -/
theorem Copies.occurrences_eq {t rest : List UInt8} (h : Copies t rest) (i : Nat) :
    (lexemesFrom i (t ++ rest) none).filterMap Lexeme.occurrence? =
      (lexemesFrom (i + t.length) rest none).filterMap Lexeme.occurrence? := by
  rw [h, List.filterMap_append, filterMap_occurrence?_bytes, List.nil_append]

/-- The scanner finds the placeholder of a colon and the longest name after it. -/
theorem occurrences_param {a : UInt8} {s rest : List UInt8} (ha : isParamStart a = true)
    (hs : ∀ b ∈ s, isParamContinue b = true) (hrest : ∀ b ∈ rest.head?, isParamContinue b = false)
    (i : Nat) :
    (lexemesFrom i (':'.toUInt8 :: a :: s ++ rest) none).filterMap Lexeme.occurrence? =
      tokenPlaceholder i .param (':'.toUInt8 :: a :: s) ++
        (lexemesFrom (i + (':'.toUInt8 :: a :: s).length) rest none).filterMap
          Lexeme.occurrence? := by
  have hall : ∀ b ∈ a :: s, isParamContinue b = true := by
    intro b hb
    rcases List.mem_cons.mp hb with rfl | hmem
    · rw [isParamContinue, ha, Bool.true_or]
    · exact hs b hmem
  have hname : (a :: s).takeWhile isParamContinue = a :: s := by
    rw [List.takeWhile_eq_self_iff]
    exact hall
  rw [lexemesFrom_param ha hs hrest, tokenPlaceholder, if_pos rfl, List.tail_cons, hname]
  rfl

/-- The scanner finds the placeholders of the tokens, if it reads every token as the rules
say as long as a colon before a name is still to come. -/
theorem occurrences_eq_of_tokens {σ : Type}
    {cut : σ → TokenKind → List UInt8 → List UInt8 → Prop} {next : σ → TokenKind → List UInt8 → σ}
    {alike : TokenKind → List UInt8 → List UInt8 → Prop} {m : σ} {sql : String}
    {ts : List (TokenKind × List UInt8)}
    (h : Foundation.ModalTokens cut next m sql.toUTF8.toList ts)
    (halike : Foundation.AllAlike MayName alike ts)
    (hread : ∀ m i k t rest, cut m k t rest → alike k t rest →
      (lexemesFrom i (t ++ rest) none).filterMap Lexeme.occurrence? = tokenPlaceholder i k t ++
        (lexemesFrom (i + t.length) rest none).filterMap Lexeme.occurrence?)
    (hname : ∀ m t rest, cut m .param t rest → MayName (t ++ rest)) :
    occurrences sql = tokenPlaceholders ts := by
  have hparam : ∀ m i k t rest, cut m k t rest → ¬ MayName (t ++ rest) →
      tokenPlaceholder i k t = [] := by
    intro m i k t rest hcut hdead
    rw [tokenPlaceholder, if_neg]
    rintro rfl
    exact hdead (hname m t rest hcut)
  have hscan := h.scan_eq (fun i s => (lexemesFrom i s none).filterMap Lexeme.occurrence?)
    tokenPlaceholder MayName alike (by simp [lexemesFrom]) hread
    (fun i s hdead => occurrences_of_not_mayName i s none hdead) hparam
    (fun t rest hlive => hlive.append_left t) halike
  exact hscan 0

end WpKnowledge
