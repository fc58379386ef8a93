import WpKnowledge.Foundation.Utf8
import WpKnowledge.Sql.Layout

/-!
# The first table of a layout

Which table a statement reads first is a matter of its tokens: the path behind the
first `from`, or the first table of the subquery that stands there.  This file says
in which layouts {lit}`firstTableName` reads that path.

Main results:

- Theorem {lit}`firstTableName_eq_path_iff`: of a layout the first table is read, as a
  whole and as nothing else, if the layout is {lit}`Plain` and only then.
-/

open Foundation

namespace WpKnowledge.SqlRoute

/-! ## The first table among the tokens -/

/-- The tokens that are names: words and quoted identifiers. -/
def Token.IsName : Token → Prop
  | .word _ => True
  | .quoted q => q.mark ≠ .string
  | .symbol _ => False

/-- A path of names with dots between them. -/
inductive IsPath : List Token → Prop
  | name {t : Token} (ht : t.IsName) : IsPath [t]
  | dotted {t : Token} {path : List Token} (ht : t.IsName) (hpath : IsPath path) :
      IsPath (t :: dot :: path)

/-- The path of the first table of a statement: it stands behind the first `from`, or it
is that of the subquery that stands there. -/
inductive FirstTable : List Token → List Token → Prop
  | path {before path after : List Token} {w : Word} (hbefore : NoFrom before)
      (hw : IsFrom w.bytes) (hpath : IsPath path) (hafter : after.head? ≠ some dot) :
      FirstTable (before ++ .word w :: (path ++ after)) path
  | subquery {before inner after path : List Token} {w : Word} (hbefore : NoFrom before)
      (hw : IsFrom w.bytes) (hbalanced : Balanced inner) (hinner : FirstTable inner path) :
      FirstTable (before ++ .word w :: openParen :: (inner ++ closeParen :: after)) path

/-- The text of tokens without anything between them. -/
def spelled (ts : List Token) : List UInt8 :=
  ts.flatMap Token.bytes

/-! ## Plain layouts -/

/-- Whitespace as `is_ascii_whitespace` knows it. -/
def Piece.isAsciiBlank : Piece → Bool
  | .blank char _ => char.any isAsciiWhitespace
  | _ => false

/-- Whitespace that only `trim` removes. -/
def Piece.isWideBlank : Piece → Bool
  | .blank char _ => !char.any isAsciiWhitespace
  | _ => false

/-- Behind a table there is, maybe after whitespace, a byte that ends it, or nothing. -/
def stops : List Piece → Bool
  | [] => true
  | .blank char _ :: rest => char.any isAsciiWhitespace || stops rest
  | .token (.symbol s) :: _ => endsTable s.byte
  | _ => false

/-- The first table of the layout has this path and is laid out plainly: behind every
`from` on the way to it there is no comment, the path is written without a gap and has
no byte that ends it, and behind it there is one. -/
inductive Plain : List Piece → List Token → Prop
  | path {before gap gap' after : List Piece} {path : List Token} {w : Word}
      (hbefore : NoFrom (tokensOf before)) (hw : IsFrom w.bytes)
      (hgap : ∀ p ∈ gap, p.isAsciiBlank = true) (hgap' : ∀ p ∈ gap', p.isWideBlank = true)
      (hpath : IsPath path) (hspelled : ∀ b ∈ spelled path, endsTable b = false)
      (hafter : stops after = true) :
      Plain (before ++ .token (.word w) :: (gap ++ (gap' ++ (path.map .token ++ after)))) path
  | subquery {before gap inner after : List Piece} {path : List Token} {w : Word}
      (hbefore : NoFrom (tokensOf before)) (hw : IsFrom w.bytes)
      (hgap : ∀ p ∈ gap, p.isAsciiBlank = true) (hbalanced : Balanced (tokensOf inner))
      (hinner : Plain inner path) :
      Plain (before ++ .token (.word w) ::
        (gap ++ .token openParen :: (inner ++ .token closeParen :: after))) path

@[simp]
theorem spelled_cons (t : Token) (ts : List Token) : spelled (t :: ts) = t.bytes ++ spelled ts :=
  rfl

@[simp]
theorem textOf_map_token (ts : List Token) : textOf (ts.map .token) = spelled ts := by
  induction ts with
  | nil => rfl
  | cons t ts ih => rw [List.map_cons, textOf_cons, ih, spelled_cons, Piece.bytes]

/-- The pieces of a layout up to a token, and those behind it. -/
theorem exists_of_tokensOf {l : List Piece} {ts us : List Token} {t : Token}
    (h : tokensOf l = ts ++ t :: us) :
    ∃ m n, l = m ++ .token t :: n ∧ tokensOf m = ts ∧ tokensOf n = us := by
  induction l generalizing ts with
  | nil => simp at h
  | cons p l ih =>
      cases p with
      | blank char hchar =>
          obtain ⟨m, n, rfl, hm, hn⟩ := ih h
          exact ⟨.blank char hchar :: m, n, rfl, hm, hn⟩
      | comment c =>
          obtain ⟨m, n, rfl, hm, hn⟩ := ih h
          exact ⟨.comment c :: m, n, rfl, hm, hn⟩
      | token t' =>
          rw [tokensOf_token] at h
          cases ts with
          | nil =>
              obtain ⟨rfl, htail⟩ := List.cons.inj h
              exact ⟨[], l, rfl, rfl, htail⟩
          | cons u ts =>
              obtain ⟨rfl, htail⟩ := List.cons.inj h
              obtain ⟨m, n, rfl, hm, hn⟩ := ih htail
              exact ⟨.token t' :: m, n, rfl, by rw [tokensOf_token, hm], hn⟩

/-! ## Whitespace and tokens -/

/-- A whitespace character is one byte of ASCII whitespace or has no byte that ends a
table. -/
theorem whitespaceChars_cases {char : List UInt8} (h : char ∈ whitespaceChars) :
    (∃ b, char = [b] ∧ isAsciiWhitespace b = true) ∨
      (char.any isAsciiWhitespace = false ∧ ∀ b ∈ char, endsTable b = false) := by
  have hall : whitespaceChars.all (fun char => (char.length == 1 && char.all isAsciiWhitespace) ||
      (!char.any isAsciiWhitespace && char.all (!endsTable ·))) = true := by decide
  have hchar := List.all_eq_true.mp hall char h
  rcases Bool.or_eq_true_iff.mp hchar with hone | hwide
  · obtain ⟨hlen, hws⟩ := Bool.and_eq_true_iff.mp hone
    obtain ⟨b, rfl⟩ := List.length_eq_one_iff.mp (eq_of_beq hlen)
    exact .inl ⟨b, rfl, by simpa using hws⟩
  · obtain ⟨hws, hends⟩ := Bool.and_eq_true_iff.mp hwide
    exact .inr ⟨by simpa using hws, by simpa using hends⟩

/-- The bytes inside a character outside ASCII. -/
def isContinuation (byte : UInt8) : Bool :=
  128 ≤ byte && byte < 192

/-- A whitespace character starts with no such byte and goes on with nothing else. -/
theorem isContinuation_of_mem_whitespaceChars {char : List UInt8} (h : char ∈ whitespaceChars) :
    (∀ b ∈ char.head?, isContinuation b = false) ∧ ∀ b ∈ char.tail, isContinuation b = true := by
  have hall : whitespaceChars.all (fun char => char.head?.all (!isContinuation ·) &&
      char.tail.all isContinuation) = true := by decide
  obtain ⟨hhead, htail⟩ := Bool.and_eq_true_iff.mp (List.all_eq_true.mp hall char h)
  refine ⟨?_, List.all_eq_true.mp htail⟩
  intro b hb
  rw [Option.mem_def.mp hb] at hhead
  simpa using hhead

/-- A blank text starts with no byte inside a character. -/
theorem Blank.head {text : List UInt8} (h : Blank text) :
    ∀ b ∈ text.head?, isContinuation b = false := by
  intro b hb
  cases h with
  | nil => cases hb
  | @cons char rest hchar hrest =>
      rw [List.head?_append_of_ne_nil _ (ne_nil_of_mem_whitespaceChars hchar)] at hb
      exact (isContinuation_of_mem_whitespaceChars hchar).1 b hb

/-- Behind a whitespace character a blank text is blank. -/
theorem blank_char_append_iff {char text : List UInt8} (hchar : char ∈ whitespaceChars) :
    Blank (char ++ text) ↔ Blank text := by
  constructor
  · intro h
    generalize hwhole : char ++ text = whole at h
    cases h with
    | nil =>
        exact absurd (List.append_eq_nil_iff.mp hwhole).1 (ne_nil_of_mem_whitespaceChars hchar)
    | @cons word rest hword hrest =>
        have hpre : char <+: word ++ rest := hwhole ▸ List.prefix_append _ _
        have heq : char = word := by
          rcases List.prefix_or_prefix_of_prefix hpre (List.prefix_append word rest) with h | h
          · exact whitespaceChars_prefix_free _ hchar _ hword h
          · exact (whitespaceChars_prefix_free _ hword _ hchar h).symm
        subst heq
        rwa [List.append_cancel_left hwhole]
  · exact Words.cons hchar

/-- Trimming removes a whitespace character at the start. -/
theorem trim_char_append {char : List UInt8} (hchar : char ∈ whitespaceChars)
    (text : List UInt8) : trim (char ++ text) = trim text := by
  obtain ⟨⟨removed, hremoved, htext⟩, hno⟩ := trimStart_spec nil_notMem_whitespaceChars text
  have hstart : trimStart whitespaceChars (char ++ text) = trimStart whitespaceChars text := by
    refine (trimStart_eq_iff nil_notMem_whitespaceChars whitespaceChars_prefix_free).mpr
      ⟨⟨char ++ removed, .cons hchar hremoved, ?_⟩, hno⟩
    rw [List.append_assoc, ← htext]
  rw [trim, hstart, trim]

/-- What trimming leaves of a text that starts with no whitespace is the start of it. -/
theorem exists_of_trim_start {text rest : List UInt8}
    (hno : ∀ char ∈ whitespaceChars, ¬ char <+: text) (h : trim text = rest) :
    ∃ right, text = rest ++ right ∧ Blank right := by
  rw [trim, trimStart_of_no_start hno] at h
  obtain ⟨⟨right, hright, htext⟩, -⟩ :=
    (trimEnd_eq_iff nil_notMem_whitespaceChars whitespaceChars_suffix_free).mp h
  exact ⟨right, htext, hright⟩

/-- Trimming keeps a first byte with which no whitespace starts. -/
theorem head?_trim {b : UInt8} (hb : isBlankLead b = false) (text : List UInt8) :
    (trim (b :: text)).head? = some b := by
  obtain ⟨right, htext, hright⟩ := exists_of_trim_start (not_prefix_of_isBlankLead hb text) rfl
  cases htrim : trim (b :: text) with
  | nil =>
      rw [htrim, List.nil_append] at htext
      rw [← htext] at hright
      exact absurd (isBlankLead_of_blank hright) (by simp [hb])
  | cons c rest =>
      rw [htrim, List.cons_append] at htext
      rw [(List.cons.inj htext).1]
      rfl

/-- The bytes of words do not end a table. -/
theorem endsTable_of_isNameByte {b : UInt8} (h : isNameByte b = true) : endsTable b = false := by
  simp only [isNameByte, Bool.or_eq_true, beq_iff_eq, decide_eq_true_eq] at h
  rcases h with (hident | rfl) | hwide
  · exact endsTable_of_isIdentByte hident
  · decide
  · exact endsTable_of_not_lt (by grind)

/-- No whitespace starts where a word starts. -/
theorem Word.not_prefix (w : Word) {rest : List UInt8}
    (hrest : ∀ b ∈ rest.head?, isContinuation b = false) :
    ∀ char ∈ whitespaceChars, ¬ char <+: w.bytes ++ rest := by
  intro char hchar hpre
  rcases List.prefix_or_prefix_of_prefix hpre (List.prefix_append w.bytes rest) with h | h
  · exact w.no_blank char hchar h.isInfix
  · -- the character would go on behind the word
    obtain ⟨more, rfl⟩ := h
    have hmore : more <+: rest := (List.prefix_append_right_inj _).mp hpre
    cases more with
    | nil => exact w.no_blank _ hchar (by rw [List.append_nil])
    | cons b more =>
        obtain ⟨rest, rfl⟩ := hmore
        obtain ⟨a, bytes, hbytes⟩ := List.exists_cons_of_ne_nil w.ne_nil
        have hinside := (isContinuation_of_mem_whitespaceChars hchar).2 b
          (by rw [hbytes]; simp)
        have houtside : isContinuation b = false := hrest b rfl
        rw [hinside] at houtside
        cases houtside

/-! ## What is cut out of a layout -/

/-- The bytes of a layout up to the first one that ends a table. -/
def cut (l : List Piece) : List UInt8 :=
  (textOf l).takeWhile fun b => !endsTable b

theorem tableToken_tagsOf (l : List Piece) : tableToken (tagsOf l) = cut l := by
  rw [tableToken, bytesOf_tagsOf, cut]

/-- Pieces without a byte that ends a table are cut out as a whole. -/
theorem cut_append {l : List Piece} (hl : ∀ b ∈ textOf l, endsTable b = false) (m : List Piece) :
    cut (l ++ m) = textOf l ++ cut m := by
  rw [cut, textOf_append, List.takeWhile_append_of_pos (by simpa using hl), ← cut]

theorem cut_cons {p : Piece} (hp : ∀ b ∈ p.bytes, endsTable b = false) (l : List Piece) :
    cut (p :: l) = p.bytes ++ cut l := by
  have htext : textOf [p] = p.bytes := by rw [textOf_cons, textOf_nil, List.append_nil]
  have hsplit := cut_append (l := [p]) (by rwa [htext]) l
  rwa [htext] at hsplit

/-- What is cut out starts as the layout does. -/
theorem exists_cut_cons {p : Piece} {b : UInt8} {bytes : List UInt8} (hp : p.bytes = b :: bytes)
    (hb : endsTable b = false) (l : List Piece) : ∃ more, cut (p :: l) = b :: more := by
  rw [cut, textOf_cons, hp, List.cons_append, List.takeWhile_cons_of_pos (by simp [hb])]
  exact ⟨_, rfl⟩

/-- Nothing is cut out where a byte ends it. -/
theorem cut_eq_nil {p : Piece} {b : UInt8} {bytes : List UInt8} (hp : p.bytes = b :: bytes)
    (hb : endsTable b = true) (l : List Piece) : cut (p :: l) = [] := by
  rw [cut, textOf_cons, hp, List.cons_append, List.takeWhile_cons_of_neg (by simp [hb])]

/-- A comment starts with a dash or a slash. -/
theorem Comment.bytes_eq (c : Comment) :
    ∃ b bytes, (Piece.comment c).bytes = b :: bytes ∧
      (b = '-'.toUInt8 ∨ b = '/'.toUInt8) := by
  cases c with
  | line body h => exact ⟨_, _, rfl, .inl rfl⟩
  | block body h => exact ⟨_, _, rfl, .inr rfl⟩
  | last body h => exact ⟨_, _, rfl, .inl rfl⟩

/-- A comment starts a text that is cut out and is not blank. -/
theorem cut_comment (c : Comment) (l : List Piece) :
    ∃ b more, cut (.comment c :: l) = b :: more ∧ (b = '-'.toUInt8 ∨ b = '/'.toUInt8) ∧
      isBlankLead b = false := by
  obtain ⟨b, bytes, hbytes, hb⟩ := c.bytes_eq
  have hplain : endsTable b = false ∧ isBlankLead b = false := by
    rcases hb with rfl | rfl <;> decide
  obtain ⟨more, hmore⟩ := exists_cut_cons hbytes hplain.1 l
  exact ⟨b, more, hmore, hb, hplain.2⟩

theorem Mark.opening_plain (m : Mark) :
    endsTable m.opening = false ∧ isBlankLead m.opening = false := by
  cases m <;> decide

theorem Symbol.not_lead (s : Symbol) : isBlankLead s.byte = false := by
  have hs := s.isSymbol
  simp only [isSymbolByte, Bool.and_eq_true, Bool.not_eq_true'] at hs
  exact hs.1.2

theorem Symbol.lt (s : Symbol) : s.byte < 128 := by
  have hs := s.isSymbol
  simp only [isSymbolByte, isNameByte, Bool.and_eq_true, Bool.not_eq_true', Bool.or_eq_false_iff,
    decide_eq_false_iff_not] at hs
  exact UInt8.not_le.mp hs.1.1.2

/-- What is no word does not start inside a character. -/
theorem Piece.NoWord.head {p : Piece} (h : p.NoWord) :
    ∀ b ∈ p.bytes.head?, isContinuation b = false := by
  cases p with
  | blank char hchar => exact (isContinuation_of_mem_whitespaceChars hchar).1
  | comment c =>
      intro b hb
      obtain ⟨b', bytes, hbytes, hb'⟩ := c.bytes_eq
      rw [hbytes] at hb
      cases hb
      rcases hb' with rfl | rfl <;> decide
  | token t =>
      cases t with
      | word w => exact absurd rfl (h w)
      | quoted q =>
          intro b hb
          cases hb
          cases q.mark <;> rfl
      | symbol s =>
          intro b hb
          cases hb
          have hlt := s.lt
          simp only [isContinuation, Bool.and_eq_false_iff, decide_eq_false_iff_not]
          exact .inl (UInt8.not_le.mpr hlt)

/-- What is cut out behind a word does not start inside a character. -/
theorem WellLaid.cut_head {w : Word} {l : List Piece} (hl : WellLaid (.token (.word w) :: l)) :
    ∀ b ∈ (cut l).head?, isContinuation b = false := by
  intro b hb
  have htext : (textOf l).head? = some b := by
    cases hbytes : textOf l with
    | nil => rw [cut, hbytes] at hb; cases hb
    | cons c text =>
        rw [cut, hbytes, List.takeWhile_cons] at hb
        split at hb
        · exact hb
        · cases hb
  obtain ⟨p, hp, hhead⟩ := head?_textOf htext
  obtain ⟨l, rfl⟩ := List.head?_eq_some_iff.mp hp
  have hword : p.NoWord := by
    rintro w' rfl
    exact hl.not_joins trivial
  exact hword.head b hhead

/-- What is cut out behind a table is blank where the layout stops, and only there. -/
theorem blank_cut_iff {l : List Piece} (hl : WellLaid l) : Blank (cut l) ↔ stops l = true := by
  induction l with
  | nil => exact ⟨fun _ => rfl, fun _ => .nil⟩
  | cons p l ih =>
      have hnot : ∀ {b more}, cut (p :: l) = b :: more → isBlankLead b = false →
          ¬ Blank (cut (p :: l)) := by
        intro b more hcut hb hblank
        rw [hcut] at hblank
        exact absurd (isBlankLead_of_blank hblank) (by simp [hb])
      cases p with
      | blank char h =>
          rw [stops, Bool.or_eq_true, ← ih hl.tail]
          rcases whitespaceChars_cases h with ⟨b, rfl, hb⟩ | ⟨hwide, hends⟩
          · have hnil := cut_eq_nil (p := .blank [b] h) rfl (endsTable_iff.mpr (.inl hb)) l
            rw [hnil]
            simp [hb, Words.nil]
          · rw [cut_cons (p := .blank char h) hends, hwide, Bool.false_eq_true, false_or]
            exact blank_char_append_iff h
      | comment c =>
          obtain ⟨b, more, hcut, -, hb⟩ := cut_comment c l
          exact ⟨fun h => absurd h (hnot hcut hb), fun h => by cases h⟩
      | token t =>
          cases t with
          | word w =>
              refine ⟨fun h => ?_, fun h => by cases h⟩
              have hbytes : ∀ b ∈ w.bytes, endsTable b = false :=
                fun b hb => endsTable_of_isNameByte (w.isName b hb)
              have hcut : cut (.token (.word w) :: l) = w.bytes ++ cut l :=
                cut_cons (p := .token (.word w)) hbytes l
              rw [hcut] at h
              obtain ⟨char, hchar, hpre⟩ := Words.exists_word_of_ne_nil h
                fun hnil => w.ne_nil (List.append_eq_nil_iff.mp hnil).1
              exact absurd hpre (w.not_prefix hl.cut_head char hchar)
          | quoted q =>
              obtain ⟨more, hcut⟩ := exists_cut_cons (p := .token (.quoted q)) rfl
                q.mark.opening_plain.1 l
              exact ⟨fun h => absurd h (hnot hcut q.mark.opening_plain.2), fun h => by cases h⟩
          | symbol s =>
              rw [stops]
              cases hends : endsTable s.byte with
              | true =>
                  have hnil := cut_eq_nil (p := .token (.symbol s)) rfl hends l
                  rw [hnil]
                  exact ⟨fun _ => rfl, fun _ => .nil⟩
              | false =>
                  obtain ⟨more, hcut⟩ := exists_cut_cons (p := .token (.symbol s)) rfl hends l
                  exact ⟨fun h => absurd h (hnot hcut s.not_lead), fun h => by cases h⟩

/-! ## The path in what is cut out -/

/-- A name starts with a byte of words or a quote. -/
theorem Token.IsName.head {t : Token} (h : t.IsName) :
    ∃ b bytes, t.bytes = b :: bytes ∧ (isNameByte b = true ∨ isQuoteByte b = true) := by
  cases t with
  | word w =>
      obtain ⟨b, bytes, hbytes⟩ := List.exists_cons_of_ne_nil w.ne_nil
      exact ⟨b, bytes, hbytes, .inl (w.isName b (by rw [hbytes]; exact List.mem_cons_self))⟩
  | quoted q => exact ⟨_, _, rfl, .inr (by cases q.mark <;> rfl)⟩
  | symbol s => exact h.elim

/-- A path starts as its first name does. -/
theorem IsPath.head {path : List Token} (h : IsPath path) :
    ∃ b bytes, spelled path = b :: bytes ∧ (isNameByte b = true ∨ isQuoteByte b = true) := by
  cases h with
  | name ht =>
      obtain ⟨b, bytes, hbytes, hb⟩ := ht.head
      exact ⟨b, _, by rw [spelled_cons, hbytes]; rfl, hb⟩
  | dotted ht hpath =>
      obtain ⟨b, bytes, hbytes, hb⟩ := ht.head
      exact ⟨b, _, by rw [spelled_cons, hbytes]; rfl, hb⟩

/-- Where a name starts neither a comment nor a parenthesis does. -/
theorem ne_of_name_head {b : UInt8} (h : isNameByte b = true ∨ isQuoteByte b = true) :
    b ≠ '-'.toUInt8 ∧ b ≠ '/'.toUInt8 ∧ b ≠ '('.toUInt8 := by
  refine ⟨?_, ?_, ?_⟩ <;> rintro rfl <;> revert h <;> decide

/-- No whitespace starts where a token of a path starts. -/
theorem not_prefix_token {t : Token} (ht : t.IsName ∨ t = dot) {rest : List UInt8}
    (hrest : ∀ w, t = .word w → ∀ b ∈ rest.head?, isContinuation b = false) :
    ∀ char ∈ whitespaceChars, ¬ char <+: t.bytes ++ rest := by
  cases t with
  | word w => exact w.not_prefix (hrest w rfl)
  | quoted q => exact not_prefix_of_isBlankLead q.mark.opening_plain.2 _
  | symbol s => exact not_prefix_of_isBlankLead s.not_lead _

/-- A text that is a part of what was taken was taken byte by byte. -/
theorem takeWhile_append_eq {p : UInt8 → Bool} {u v rest : List UInt8}
    (h : (u ++ v).takeWhile p = u ++ rest) : (∀ b ∈ u, p b = true) ∧ v.takeWhile p = rest := by
  have hu : ∀ b ∈ u, p b = true := by
    intro b hb
    have hmem : b ∈ (u ++ v).takeWhile p := by
      rw [h]
      exact List.mem_append_left _ hb
    exact List.all_eq_true.mp List.all_takeWhile b hmem
  rw [List.takeWhile_append_of_pos hu] at h
  exact ⟨hu, List.append_cancel_left h⟩

/-- If the bytes of a token of a path are cut out first, the token is the first piece. -/
theorem exists_of_cut_eq {l : List Piece} {t : Token} {ts : List Token}
    (ht : t.IsName ∨ t = dot) (htokens : tokensOf l = t :: ts) {rest : List UInt8}
    (hrest : ∀ w, t = .word w → ∀ b ∈ rest.head?, isContinuation b = false)
    (hcut : cut l = t.bytes ++ rest) :
    ∃ m, l = .token t :: m ∧ (∀ b ∈ t.bytes, endsTable b = false) ∧ cut m = rest := by
  obtain ⟨b, bytes, hbytes⟩ := List.exists_cons_of_ne_nil (Piece.bytes_ne_nil (.token t))
  have htoken : t.bytes = b :: bytes := hbytes
  cases l with
  | nil => cases htokens
  | cons p l =>
      cases p with
      | blank char h =>
          rcases whitespaceChars_cases h with ⟨c, rfl, hc⟩ | ⟨-, hends⟩
          · rw [cut_eq_nil (p := .blank [c] h) rfl (endsTable_iff.mpr (.inl hc)), htoken] at hcut
            cases hcut
          · rw [cut_cons (p := .blank char h) hends] at hcut
            have hpre : char <+: t.bytes ++ rest := hcut ▸ List.prefix_append _ _
            exact absurd hpre (not_prefix_token ht hrest char h)
      | comment c =>
          obtain ⟨c', more, hcomment, hc', -⟩ := cut_comment c l
          rw [hcomment, htoken] at hcut
          have hhead : c' = b := (List.cons.inj hcut).1
          subst hhead
          rcases ht with hname | rfl
          · obtain ⟨d, more', hd, hclass⟩ := hname.head
            rw [htoken] at hd
            rw [← (List.cons.inj hd).1] at hclass
            have hne := ne_of_name_head hclass
            rcases hc' with rfl | rfl
            · exact absurd rfl hne.1
            · exact absurd rfl hne.2.1
          · have hdot : c' = '.'.toUInt8 := (List.cons.inj htoken).1.symm
            rcases hc' with rfl | rfl <;> cases hdot
      | token t' =>
          rw [tokensOf_token] at htokens
          obtain ⟨rfl, -⟩ := List.cons.inj htokens
          rw [cut, textOf_cons] at hcut
          obtain ⟨hends, hlater⟩ := takeWhile_append_eq hcut
          exact ⟨l, rfl, fun c hc => by simpa using hends c hc, hlater⟩

/-- If a path and a blank text behind it are cut out, the path is written without a gap. -/
theorem IsPath.exists_of_cut {path : List Token} (hpath : IsPath path) {l : List Piece}
    {ts : List Token} (htokens : tokensOf l = path ++ ts) {right : List UInt8}
    (hright : Blank right) (hcut : cut l = spelled path ++ right) :
    ∃ after, l = path.map .token ++ after ∧ (∀ b ∈ spelled path, endsTable b = false) ∧
      cut after = right := by
  induction hpath generalizing l with
  | @name t ht =>
      have hbytes : spelled [t] = t.bytes := List.append_nil _
      rw [hbytes] at hcut ⊢
      obtain ⟨after, rfl, hends, hafter⟩ :=
        exists_of_cut_eq (.inl ht) htokens (fun _ _ => Blank.head hright) hcut
      exact ⟨after, rfl, hends, hafter⟩
  | @dotted t path ht hpath ih =>
      have hbytes : spelled (t :: dot :: path) ++ right =
          t.bytes ++ (dot.bytes ++ (spelled path ++ right)) := by
        simp only [spelled_cons, List.append_assoc]
      rw [hbytes] at hcut
      have hdot : ∀ b ∈ (dot.bytes ++ (spelled path ++ right)).head?, isContinuation b = false := by
        intro b hb
        cases hb
        rfl
      obtain ⟨l, rfl, hname, hlater⟩ :=
        exists_of_cut_eq (.inl ht) htokens (fun _ _ => hdot) hcut
      obtain ⟨l, rfl, hdots, hlast⟩ :=
        exists_of_cut_eq (.inr rfl) (List.cons.inj htokens).2 (fun _ h => by cases h) hlater
      obtain ⟨after, rfl, hpathEnds, hafter⟩ :=
        ih (List.cons.inj (List.cons.inj htokens).2).2 hlast
      refine ⟨after, rfl, ?_, hafter⟩
      intro b hb
      rw [spelled_cons, spelled_cons] at hb
      rcases List.mem_append.mp hb with hb | hb
      · exact hname b hb
      · rcases List.mem_append.mp hb with hb | hb
        · exact hdots b hb
        · exact hpathEnds b hb

/-- No whitespace ends where a path ends. -/
theorem IsPath.not_suffix {path : List Token} (h : IsPath path) :
    ∀ char ∈ whitespaceChars, ¬ char <:+ spelled path := by
  intro char hchar
  induction h with
  | @name t ht =>
      have hbytes : spelled [t] = t.bytes := List.append_nil _
      rw [hbytes]
      cases t with
      | word w => exact fun hsuf => w.no_blank char hchar hsuf.isInfix
      | quoted q =>
          intro hsuf
          have hlast : q.bytes.getLast? = some q.mark.closing := by
            rw [Quoted.bytes, List.getLast?_concat]
          have hmem : q.mark.closing ∈ char := by
            obtain ⟨front, hfront⟩ := hsuf
            have hend : (front ++ char).getLast? = some q.mark.closing := by
              rw [hfront]
              exact hlast
            rw [List.getLast?_append_of_ne_nil _ (ne_nil_of_mem_whitespaceChars hchar)] at hend
            exact List.mem_of_getLast? hend
          have hblank : isBlankByte q.mark.closing = true :=
            List.any_eq_true.mpr ⟨char, hchar, by simpa using hmem⟩
          cases hmark : q.mark <;> rw [hmark] at hblank <;> revert hblank <;> decide
      | symbol s => exact ht.elim
  | @dotted t path ht hpath ih =>
      intro hsuf
      have hparts : spelled (t :: dot :: path) = (t.bytes ++ ['.'.toUInt8]) ++ spelled path := by
        rw [spelled_cons, spelled_cons, List.append_assoc]
        rfl
      rw [hparts] at hsuf
      rcases List.suffix_or_suffix_of_suffix hsuf (List.suffix_append _ _) with h | h
      · exact ih h
      · -- the character would reach to the dot
        obtain ⟨front, rfl⟩ := h
        have hfront : front <:+ t.bytes ++ ['.'.toUInt8] := by
          obtain ⟨more, hmore⟩ := hsuf
          rw [← List.append_assoc] at hmore
          exact ⟨more, List.append_cancel_right hmore⟩
        rcases List.eq_nil_or_concat front with rfl | ⟨front, c, rfl⟩
        · exact ih List.suffix_rfl
        · rw [List.concat_eq_append] at hfront hchar
          obtain ⟨more, hmore⟩ := hfront
          rw [← List.append_assoc] at hmore
          have hc : c = '.'.toUInt8 := (List.cons.inj (List.append_inj' hmore rfl).2).1
          have hmem : '.'.toUInt8 ∈ (front ++ [c]) ++ spelled path := by simp [hc]
          exact isBlankByte_dot (List.any_eq_true.mpr ⟨_, hchar, by simpa using hmem⟩)

/-- What is cut out at a name starts with no whitespace. -/
theorem not_prefix_cut {t : Token} (ht : t.IsName) {l : List Piece}
    (hl : WellLaid (.token t :: l)) : ∀ char ∈ whitespaceChars, ¬ char <+: cut (.token t :: l) := by
  cases t with
  | word w =>
      have hbytes : ∀ b ∈ w.bytes, endsTable b = false :=
        fun b hb => endsTable_of_isNameByte (w.isName b hb)
      rw [cut_cons (p := .token (.word w)) hbytes]
      exact w.not_prefix hl.cut_head
  | quoted q =>
      obtain ⟨more, hmore⟩ := exists_cut_cons (p := .token (.quoted q)) rfl q.mark.opening_plain.1 l
      rw [hmore]
      exact not_prefix_of_isBlankLead q.mark.opening_plain.2 more
  | symbol s => exact ht.elim

/-- Trimming what is cut out leaves the start of the first token only if nothing but
whitespace stands before it. -/
theorem exists_of_trim_cut {l : List Piece} {t : Token} {ts : List Token}
    (htokens : tokensOf l = t :: ts) {b : UInt8} {text : List UInt8}
    (hb : isNameByte b = true ∨ isQuoteByte b = true) (htrim : trim (cut l) = b :: text) :
    ∃ gap m, l = gap ++ .token t :: m ∧ (∀ p ∈ gap, p.isWideBlank = true) ∧
      trim (cut (.token t :: m)) = b :: text := by
  induction l with
  | nil => cases htokens
  | cons p l ih =>
      cases p with
      | blank char h =>
          rcases whitespaceChars_cases h with ⟨c, rfl, hc⟩ | ⟨hwide, hends⟩
          · rw [cut_eq_nil (p := .blank [c] h) rfl (endsTable_iff.mpr (.inl hc))] at htrim
            cases htrim
          · have hcut : cut (.blank char h :: l) = char ++ cut l :=
              cut_cons (p := .blank char h) hends l
            rw [hcut, trim_char_append h] at htrim
            obtain ⟨gap, m, rfl, hgap, hm⟩ := ih htokens htrim
            refine ⟨.blank char h :: gap, m, rfl, ?_, hm⟩
            intro p hp
            rcases List.mem_cons.mp hp with rfl | hp
            · rw [Piece.isWideBlank, hwide]
              rfl
            · exact hgap p hp
      | comment c =>
          obtain ⟨c', more, hcut, hc', hlead⟩ := cut_comment c l
          have hhead := head?_trim hlead more
          rw [← hcut, htrim] at hhead
          have heq : b = c' := Option.some.inj hhead
          subst heq
          have hne := ne_of_name_head hb
          rcases hc' with rfl | rfl
          · exact absurd rfl hne.1
          · exact absurd rfl hne.2.1
      | token t' =>
          rw [tokensOf_token] at htokens
          obtain ⟨rfl, -⟩ := List.cons.inj htokens
          exact ⟨[], l, rfl, by simp, htrim⟩

/-- A path is what trimming leaves of what is cut out only where it is laid out plainly. -/
theorem IsPath.exists_of_trim_cut {path : List Token} (hpath : IsPath path) {l : List Piece}
    (hl : WellLaid l) {ts : List Token} (htokens : tokensOf l = path ++ ts)
    (htrim : trim (cut l) = spelled path) :
    ∃ gap after, l = gap ++ (path.map .token ++ after) ∧ (∀ p ∈ gap, p.isWideBlank = true) ∧
      (∀ b ∈ spelled path, endsTable b = false) ∧ stops after = true := by
  obtain ⟨b, text, htext, hb⟩ := hpath.head
  obtain ⟨t, path', hfirst, ht⟩ : ∃ t path', path = t :: path' ∧ t.IsName := by
    cases hpath with
    | name ht => exact ⟨_, _, rfl, ht⟩
    | dotted ht _ => exact ⟨_, _, rfl, ht⟩
  have htokens' : tokensOf l = t :: (path' ++ ts) := by rw [htokens, hfirst]; rfl
  obtain ⟨gap, m, rfl, hgap, hm⟩ := SqlRoute.exists_of_trim_cut htokens' hb (htext ▸ htrim)
  have hlater := hl.of_append.2
  rw [← htext] at hm
  obtain ⟨right, hcut, hright⟩ := exists_of_trim_start (not_prefix_cut ht hlater) hm
  have hgapTokens : tokensOf gap = [] := by
    rw [tokensOf, List.filterMap_eq_nil_iff]
    intro p hp
    have hwide := hgap p hp
    cases p with
    | blank char h => rfl
    | comment c => rfl
    | token t => cases hwide
  rw [tokensOf_append, hgapTokens, List.nil_append] at htokens
  obtain ⟨after, hafter, hends, hstop⟩ := hpath.exists_of_cut htokens hright hcut
  refine ⟨gap, after, by rw [hafter], hgap, hends, ?_⟩
  rw [hafter] at hlater
  exact (blank_cut_iff hlater.of_append.2).mp (hstop ▸ hright)

/-- Of a path that is laid out plainly trimming leaves the path. -/
theorem IsPath.trim_cut {path : List Token} (hpath : IsPath path) {gap after : List Piece}
    (hl : WellLaid (gap ++ (path.map .token ++ after))) (hgap : ∀ p ∈ gap, p.isWideBlank = true)
    (hspelled : ∀ b ∈ spelled path, endsTable b = false) (hafter : stops after = true) :
    trim (cut (gap ++ (path.map .token ++ after))) = spelled path := by
  induction gap with
  | nil =>
      have hright : Blank (cut after) := (blank_cut_iff hl.of_append.2.of_append.2).mpr hafter
      have hcut : cut (path.map .token ++ after) = spelled path ++ cut after := by
        rw [cut_append (by rwa [textOf_map_token]), textOf_map_token]
      have hstart : ∀ char ∈ whitespaceChars, ¬ char <+: spelled path ++ cut after := by
        rw [← hcut]
        cases hpath with
        | name ht => exact not_prefix_cut ht hl
        | dotted ht _ => exact not_prefix_cut ht hl
      rw [List.nil_append, hcut]
      exact trim_eq .nil hright hstart hpath.not_suffix
  | cons p gap ih =>
      have hlater := ih hl.tail fun q hq => hgap q (List.mem_cons_of_mem p hq)
      have hp := hgap p List.mem_cons_self
      cases p with
      | blank char h =>
          rcases whitespaceChars_cases h with ⟨b, rfl, hb⟩ | ⟨-, hends⟩
          · simp [Piece.isWideBlank, hb] at hp
          · have hcut := cut_cons (p := .blank char h) hends (gap ++ (path.map .token ++ after))
            rw [List.cons_append, hcut]
            exact (trim_char_append h _).trans hlater
      | comment c => cases hp
      | token t => cases hp

/-! ## What is read of a layout -/

/-- What is no ASCII whitespace does not start as such. -/
theorem Piece.head_not_whitespace {p : Piece} (hp : p.isAsciiBlank = false) :
    ∀ b ∈ p.bytes.head?, isAsciiWhitespace b = false := by
  intro b hb
  have hlead : isBlankLead b = false → isAsciiWhitespace b = false := by
    intro hlead
    rw [Bool.eq_false_iff]
    intro hws
    rcases isAsciiWhitespace_iff.mp hws with rfl | rfl | rfl | rfl | rfl <;> cases hlead
  cases p with
  | blank char h =>
      rw [Piece.isAsciiBlank, List.any_eq_false] at hp
      simpa using hp b (List.mem_of_mem_head? hb)
  | comment c =>
      obtain ⟨c', bytes, hbytes, hc'⟩ := c.bytes_eq
      rw [hbytes] at hb
      cases hb
      rcases hc' with rfl | rfl <;> rfl
  | token t =>
      cases t with
      | word w =>
          have hends := endsTable_of_isNameByte (w.isName b (List.mem_of_mem_head? hb))
          rw [Bool.eq_false_iff]
          intro hws
          rw [endsTable_iff.mpr (.inl hws)] at hends
          cases hends
      | quoted q =>
          cases hb
          exact hlead q.mark.opening_plain.2
      | symbol s =>
          cases hb
          exact hlead s.not_lead

/-- Behind a `from` the scanner passes over ASCII whitespace. -/
theorem afterFrom_layout {w : Word} (hw : IsFrom w.bytes) {gap : List Piece}
    (hgap : ∀ p ∈ gap, p.isAsciiBlank = true) (rest : List Piece)
    (hrest : ∀ p ∈ rest.head?, p.isAsciiBlank = false) :
    afterFrom (tagsOf (.token (.word w) :: (gap ++ rest))) = tagsOf rest := by
  have hlen : fromKeyword.length = (codes w.bytes).length := by
    have hmap : w.bytes.map toAsciiLowercase = fromKeyword.map toAsciiLowercase := eq_of_beq hw
    have hlength := congrArg List.length hmap
    simpa [codes] using hlength.symm
  have hdrop : (tagsOf (.token (.word w) :: (gap ++ rest))).drop fromKeyword.length =
      tagsOf gap ++ tagsOf rest := by
    rw [hlen, tagsOf_cons, Piece.tags, List.drop_left, tagsOf_append]
  have hblank : ∀ x ∈ tagsOf gap, isAsciiWhitespace x.byte = true := by
    intro x hx
    obtain ⟨p, hp, hxp⟩ := List.mem_flatMap.mp hx
    have hascii := hgap p hp
    cases p with
    | blank char h =>
        rcases whitespaceChars_cases h with ⟨b, rfl, hb⟩ | ⟨hwide, -⟩
        · obtain ⟨c, hc, rfl⟩ := List.mem_map.mp hxp
          rwa [List.mem_singleton.mp hc]
        · rw [Piece.isAsciiBlank, hwide] at hascii
          cases hascii
    | comment c => cases hascii
    | token t => cases hascii
  have hhead : ∀ b ∈ (textOf rest).head?, isAsciiWhitespace b = false := by
    intro b hb
    obtain ⟨p, hp, hpb⟩ := head?_textOf hb
    exact Piece.head_not_whitespace (hrest p hp) b hpb
  rw [afterFrom, hdrop]
  refine Foundation.dropWhile_append_of_head? hblank fun x hx => hhead x.byte ?_
  rw [← bytesOf_tagsOf, bytesOf, List.head?_map, Option.mem_def.mp hx]
  rfl

/-- The whitespace behind a `from` that the scanner passes over, and the rest. -/
theorem exists_gap (l : List Piece) :
    ∃ gap rest, l = gap ++ rest ∧ (∀ p ∈ gap, p.isAsciiBlank = true) ∧
      ∀ p ∈ rest.head?, p.isAsciiBlank = false := by
  refine ⟨l.takeWhile Piece.isAsciiBlank, l.dropWhile Piece.isAsciiBlank,
    List.takeWhile_append_dropWhile.symm, List.all_eq_true.mp List.all_takeWhile, ?_⟩
  intro p hp
  have hhead := List.head?_dropWhile_not Piece.isAsciiBlank l
  rw [Option.mem_def.mp hp] at hhead
  simpa using hhead

/-- Whitespace is no token. -/
theorem tokensOf_gap {gap : List Piece} (hgap : ∀ p ∈ gap, p.isAsciiBlank = true) :
    tokensOf gap = [] := by
  rw [tokensOf, List.filterMap_eq_nil_iff]
  intro p hp
  have hascii := hgap p hp
  cases p with
  | blank char h => rfl
  | comment c => rfl
  | token t => cases hascii

/-- The matching parenthesis of a subquery. -/
theorem splitParen_subquery {inner : List Piece} (hbalanced : Balanced (tokensOf inner))
    (after : List Piece) :
    ∃ rest, splitParen 0 (tagsOf (.token openParen :: (inner ++ .token closeParen :: after))) =
      some (⟨'('.toUInt8, true⟩ :: tagsOf inner, rest) := by
  have hinner := splitParen_layout hbalanced (tagsOf after)
  refine ⟨⟨')'.toUInt8, true⟩ :: tagsOf after, ?_⟩
  have hclose : tagsOf (.token closeParen :: after) = ⟨')'.toUInt8, true⟩ :: tagsOf after := rfl
  rw [tagsOf_cons, tags_openParen, List.singleton_append, splitParen, if_pos ⟨rfl, rfl⟩,
    tagsOf_append, hclose, hinner]
  rfl

/-- Only an opening parenthesis starts as one. -/
theorem Piece.eq_openParen {p : Piece} (h : p.bytes.head? = some '('.toUInt8) :
    p = .token openParen := by
  cases p with
  | blank char hchar =>
      have hmem : '('.toUInt8 ∈ char := List.mem_of_mem_head? (Option.mem_def.mpr h)
      have hblank : isBlankByte '('.toUInt8 = true :=
        List.any_eq_true.mpr ⟨char, hchar, by simpa using hmem⟩
      have hplain : isBlankByte '('.toUInt8 = false := by decide
      rw [hplain] at hblank
      cases hblank
  | comment c =>
      obtain ⟨b, bytes, hbytes, hb⟩ := c.bytes_eq
      rw [hbytes] at h
      cases h
      rcases hb with hb | hb <;> cases hb
  | token t =>
      cases t with
      | word w =>
          have hname := w.isName _ (List.mem_of_mem_head? (Option.mem_def.mpr h))
          cases hname
      | quoted q =>
          have hopening : q.mark.opening = '('.toUInt8 := Option.some.inj h
          cases hmark : q.mark <;> rw [hmark] at hopening <;> cases hopening
      | symbol s =>
          obtain ⟨byte, hsymbol⟩ := s
          cases h
          rfl

/-- Where a plain path starts, maybe after whitespace, no parenthesis does. -/
theorem IsPath.piece_head {path : List Token} (hpath : IsPath path) {gap after : List Piece}
    (hgap : ∀ p ∈ gap, p.isWideBlank = true) {p : Piece}
    (hp : p ∈ (gap ++ (path.map Piece.token ++ after)).head?) :
    p.isAsciiBlank = false ∧ p.bytes.head? ≠ some '('.toUInt8 := by
  have hcases : p.isWideBlank = true ∨ ∃ t : Token, t.IsName ∧ p = .token t := by
    cases gap with
    | nil =>
        cases hpath with
        | name ht => cases hp; exact .inr ⟨_, ht, rfl⟩
        | dotted ht _ => cases hp; exact .inr ⟨_, ht, rfl⟩
    | cons q gap => cases hp; exact .inl (hgap p List.mem_cons_self)
  constructor
  · rcases hcases with hwide | ⟨t, ht, rfl⟩
    · cases p with
      | blank char h =>
          rw [Piece.isWideBlank, Bool.not_eq_true'] at hwide
          exact hwide
      | comment c => rfl
      | token t => rfl
    · rfl
  · intro hhead
    have hopen := Piece.eq_openParen hhead
    subst hopen
    rcases hcases with hwide | ⟨t, ht, heq⟩
    · cases hwide
    · cases heq
      exact ht

/-- Of a plain layout the path is read. -/
theorem Plain.tableAt {l : List Piece} {path : List Token} (h : Plain l path) (hl : WellLaid l) :
    ∃ tail, TableAt (tagsOf l) tail ∧ trim (tableToken tail) = spelled path := by
  induction h with
  | @path before gap gap' after path w hbefore hw hgap hgap' hpath hspelled hafter =>
      have hfrom := splitKeyword_first hl hbefore hw
      have hrest : WellLaid (gap' ++ (path.map .token ++ after)) :=
        hl.of_append.2.tail.of_append.2
      have hafterFrom := afterFrom_layout hw hgap (gap' ++ (path.map .token ++ after))
        fun p hp => (hpath.piece_head hgap' hp).1
      refine ⟨_, .here hfrom ?_, ?_⟩
      · rw [hafterFrom, bytesOf_tagsOf]
        intro hparen
        obtain ⟨p, hp, hpb⟩ := head?_textOf hparen
        exact (hpath.piece_head hgap' hp).2 hpb
      · rw [hafterFrom, tableToken_tagsOf]
        exact hpath.trim_cut hrest hgap' hspelled hafter
  | @subquery before gap inner after path w hbefore hw hgap hbalanced hinner ih =>
      have hfrom := splitKeyword_first hl hbefore hw
      have hrest : WellLaid inner := hl.of_append.2.tail.of_append.2.tail.of_append.1
      obtain ⟨tail, htable, htrim⟩ := ih hrest
      have hafterFrom := afterFrom_layout hw hgap
        (.token openParen :: (inner ++ .token closeParen :: after)) fun p hp => by cases hp; rfl
      obtain ⟨rest, hclose⟩ := splitParen_subquery hbalanced after
      exact ⟨tail, .subquery hfrom (by rw [hafterFrom, hclose]) htable, htrim⟩

/-- The path of the first table is a path. -/
theorem FirstTable.isPath {ts path : List Token} (h : FirstTable ts path) : IsPath path := by
  induction h with
  | path hbefore hw hpath hafter => exact hpath
  | subquery hbefore hw hbalanced hinner ih => exact ih

/-- A layout that starts with a matched parenthesis starts with its token. -/
theorem exists_of_splitParen {l : List Piece} {inner close : List Tagged}
    (h : splitParen 0 (tagsOf l) = some (⟨'('.toUInt8, true⟩ :: inner, close)) :
    ∃ m, l = .token openParen :: m := by
  have hhead : (textOf l).head? = some '('.toUInt8 := by
    rw [← bytesOf_tagsOf, (append_of_splitParen h).1]
    rfl
  obtain ⟨p, hp, hpb⟩ := head?_textOf hhead
  obtain ⟨m, rfl⟩ := List.head?_eq_some_iff.mp hp
  exact ⟨m, by rw [Piece.eq_openParen hpb]⟩

/-- The path of the first table is read of no other layout. -/
theorem FirstTable.plain {ts path : List Token} (h : FirstTable ts path) {l : List Piece}
    (hl : WellLaid l) (htokens : tokensOf l = ts) {tail : List Tagged}
    (htable : TableAt (tagsOf l) tail) (htrim : trim (tableToken tail) = spelled path) :
    Plain l path := by
  induction h generalizing l with
  | @path before path after w hbefore hw hpath hafter =>
      obtain ⟨before, rest, rfl, rfl, hrest⟩ := exists_of_tokensOf htokens
      obtain ⟨gap, rest, rfl, hgap, hnext⟩ := exists_gap rest
      rw [tokensOf_append, tokensOf_gap hgap, List.nil_append] at hrest
      have hfrom := splitKeyword_first hl hbefore hw
      have hafterFrom := afterFrom_layout hw hgap rest hnext
      rcases (tableAt_iff hfrom).mp htable with ⟨-, rfl⟩ | ⟨inner, close, hclose, -⟩
      · rw [hafterFrom, tableToken_tagsOf] at htrim
        obtain ⟨gap', after, rfl, hgap', hspelled, hstop⟩ :=
          hpath.exists_of_trim_cut hl.of_append.2.tail.of_append.2 hrest htrim
        exact .path hbefore hw hgap hgap' hpath hspelled hstop
      · -- a parenthesis would be the first token behind the `from`
        rw [hafterFrom] at hclose
        obtain ⟨rest, rfl⟩ := exists_of_splitParen hclose
        rw [tokensOf_token] at hrest
        cases hpath with
        | name ht =>
            rw [← (List.cons.inj hrest).1] at ht
            exact ht.elim
        | dotted ht _ =>
            rw [← (List.cons.inj hrest).1] at ht
            exact ht.elim
  | @subquery before inner after path w hbefore hw hbalanced hinner ih =>
      obtain ⟨before, rest, rfl, rfl, hrest⟩ := exists_of_tokensOf htokens
      obtain ⟨gap, rest, rfl, hgap, hnext⟩ := exists_gap rest
      rw [tokensOf_append, tokensOf_gap hgap, List.nil_append] at hrest
      have hfrom := splitKeyword_first hl hbefore hw
      have hafterFrom := afterFrom_layout hw hgap rest hnext
      rcases (tableAt_iff hfrom).mp htable with ⟨-, rfl⟩ | ⟨inner', close, hclose, htable'⟩
      · -- something stands before the parenthesis, and what is cut out starts with neither name
        rw [hafterFrom, tableToken_tagsOf] at htrim
        obtain ⟨b, text, htext, hb⟩ := hinner.isPath.head
        rw [htext] at htrim
        obtain ⟨gap', m, rfl, -, hm⟩ := exists_of_trim_cut hrest hb htrim
        obtain ⟨more, hmore⟩ := exists_cut_cons (p := .token openParen) rfl (by decide) m
        have hhead := head?_trim (b := '('.toUInt8) (by decide) more
        rw [← hmore, hm] at hhead
        exact absurd (Option.some.inj hhead) (ne_of_name_head hb).2.2
      · rw [hafterFrom] at hclose
        obtain ⟨rest, rfl⟩ := exists_of_splitParen hclose
        obtain ⟨inner, after, rfl, rfl, -⟩ := exists_of_tokensOf (List.cons.inj hrest).2
        obtain ⟨close', hclose'⟩ := splitParen_subquery hbalanced after
        rw [hclose'] at hclose
        have hsame : tagsOf inner = inner' :=
          (List.cons.inj (Prod.mk.inj (Option.some.inj hclose)).1).2
        rw [← hsame] at htable'
        exact .subquery hbefore hw hgap hbalanced
          (ih hl.of_append.2.tail.of_append.2.tail.of_append.1 rfl htable' htrim)

/-! ## Two layouts and the main result -/

/-- A word of identifier bytes. -/
def Word.ofIdent (bytes : List UInt8) (ne_nil : bytes ≠ []) (h : bytes.all isIdentByte = true) :
    Word where
  bytes := bytes
  ne_nil := ne_nil
  isName := fun b hb => by rw [isNameByte, List.all_eq_true.mp h b hb]; rfl
  no_blank := by
    intro char hchar hin
    obtain ⟨b, rest, rfl⟩ := List.exists_cons_of_ne_nil (ne_nil_of_mem_whitespaceChars hchar)
    have hb : b ∈ bytes := List.IsInfix.subset hin List.mem_cons_self
    have hident := List.all_eq_true.mp h b hb
    rw [(of_mem_whitespaceChars _ hchar b List.mem_cons_self).2] at hident
    cases hident

/-- In a word of identifier bytes no `from` stands unless it is one. -/
theorem isFrom_of_hasFrom {bytes : List UInt8} (hbytes : bytes.all isIdentByte = true)
    (h : HasFrom bytes) : IsFrom bytes := by
  obtain ⟨left, kw, right, rfl, hkw, hleft, hright⟩ := h
  have hident : ∀ b ∈ left ++ kw ++ right, isIdentByte b = true := List.all_eq_true.mp hbytes
  have hnoLeft : left = [] := by
    by_contra hne
    have hlast := hleft _ (List.getLast?_eq_some_getLast hne)
    rw [hident _ (by simp)] at hlast
    cases hlast
  have hnoRight : right = [] := by
    cases right with
    | nil => rfl
    | cons b right =>
        have hhead := hright b rfl
        rw [hident b (by simp)] at hhead
        cases hhead
  rwa [hnoLeft, hnoRight, List.nil_append, List.append_nil]

/-- The word `select`. -/
def selectWord : Word :=
  .ofIdent ['s'.toUInt8, 'e'.toUInt8, 'l'.toUInt8, 'e'.toUInt8, 'c'.toUInt8, 't'.toUInt8]
    (List.cons_ne_nil _ _) (by decide)

/-- The word `from`. -/
def fromWord : Word :=
  .ofIdent fromKeyword (List.cons_ne_nil _ _) (by decide)

/-- A name of one letter. -/
def letter (b : UInt8) (h : isIdentByte b = true) : Token :=
  .word (.ofIdent [b] (List.cons_ne_nil _ _) (by rw [List.all_cons, h]; rfl))

/-- The table `t`. -/
def tableT : Token :=
  letter 't'.toUInt8 (by decide)

/-- A space. -/
def space : Piece :=
  .blank [0x20] (by decide)

/-- `select a `. -/
def selectA : List Piece :=
  [.token (.word selectWord), space, .token (letter 'a'.toUInt8 (by decide)), space]

/-- `select a from /*x*/ t`. -/
def commented : List Piece :=
  selectA ++ .token (.word fromWord) ::
    [space, .comment (.block ['x'.toUInt8] (by rw [Closes]; decide)), space, .token tableT]

/-- `select a from (select a from t)`. -/
def nested : List Piece :=
  selectA ++ .token (.word fromWord) ::
    ([space] ++ .token openParen ::
      ((selectA ++ .token (.word fromWord) :: ([space] ++ ([] ++ ([tableT].map .token ++ [])))) ++
        .token closeParen :: []))

theorem isFrom_fromWord : IsFrom fromWord.bytes := by
  rw [IsFrom]
  decide

/-- Neither `select` nor a letter is a `from`. -/
theorem noFrom_selectA : NoFrom (tokensOf selectA) := by
  intro w hw hfrom
  rcases List.mem_pair.mp hw with hselect | hletter
  · cases hselect
    have hword := isFrom_of_hasFrom (by decide) hfrom
    rw [IsFrom] at hword
    revert hword
    decide
  · cases hletter
    have hword := isFrom_of_hasFrom (by decide) hfrom
    rw [IsFrom] at hword
    revert hword
    decide

theorem isPath_tableT : IsPath [tableT] :=
  .name (show Token.IsName (.word _) from trivial)

/-- However the tokens of a statement are laid out, its first table is read as the path
that stands there if and only if the layout is plain. -/
theorem firstTableName_eq_path_iff {ts path : List Token} (h : FirstTable ts path)
    {l : List Piece} (hl : WellLaid l) (htokens : tokensOf l = ts) :
    firstTableName (textOf l) = some (spelled path) ↔ Plain l path := by
  rw [firstTableName_eq_some_iff, tags_textOf hl]
  constructor
  · rintro ⟨tail, htable, htrim, -⟩
    exact h.plain hl htokens htable htrim
  · intro hplain
    obtain ⟨tail, htable, htrim⟩ := hplain.tableAt hl
    obtain ⟨b, bytes, hspelled, -⟩ := h.isPath.head
    refine ⟨tail, htable, htrim, ?_⟩
    rw [hspelled]
    exact List.cons_ne_nil b bytes

/-- The first table of the tokens of `select a from (select a from t)` is read. -/
theorem firstTableName_nested :
    firstTableName "select a from (select a from t)".toUTF8.toList = some "t".toUTF8.toList := by
  have hinner : FirstTable (tokensOf selectA ++ .word fromWord :: ([tableT] ++ [])) [tableT] :=
    .path noFrom_selectA isFrom_fromWord isPath_tableT (by simp)
  have htable : FirstTable (tokensOf nested) [tableT] :=
    .subquery noFrom_selectA isFrom_fromWord (by rw [Balanced]; decide) hinner
  have hlaid : WellLaid nested := by
    simp only [WellLaid, nested, selectA, space, tableT, letter, openParen, closeParen, Piece.Joins,
      List.cons_append, List.nil_append, List.map_cons, List.map_nil, List.isChain_cons_cons,
      List.isChain_singleton, not_false_eq_true, and_true, true_and]
    decide
  have hspace : ∀ p ∈ [space], p.isAsciiBlank = true := List.forall_mem_singleton.mpr rfl
  have hplain : Plain nested [tableT] :=
    .subquery noFrom_selectA isFrom_fromWord hspace (by rw [Balanced]; decide)
      (.path noFrom_selectA isFrom_fromWord hspace (by simp) isPath_tableT
        (List.forall_mem_singleton.mpr (by decide)) rfl)
  have hread := (firstTableName_eq_path_iff htable hlaid rfl).mpr hplain
  have htext : textOf nested = "select a from (select a from t)".toUTF8.toList := by
    rw [Foundation.toList_toUTF8]
    decide
  have hspelled : spelled [tableT] = "t".toUTF8.toList := by
    rw [Foundation.toList_toUTF8]
    decide
  rwa [htext, hspelled] at hread

/-- The first table of `select a from /*x*/ t` is `t`, and what is read is the comment. -/
theorem comment_read_as_table :
    FirstTable (tokensOf commented) [tableT] ∧ WellLaid commented ∧
      textOf commented = "select a from /*x*/ t".toUTF8.toList ∧
      spelled [tableT] = "t".toUTF8.toList ∧
      firstTableName (textOf commented) = some "/*x*/".toUTF8.toList := by
  have hlaid : WellLaid commented := by
    simp [WellLaid, commented, selectA, space, tableT, letter, Piece.Joins]
  have hread := splitKeyword_first hlaid noFrom_selectA isFrom_fromWord
  have htable : FirstTable (tokensOf selectA ++ .word fromWord :: ([tableT] ++ [])) [tableT] :=
    .path noFrom_selectA isFrom_fromWord isPath_tableT (by simp)
  refine ⟨htable, hlaid, ?_, ?_, ?_⟩
  · rw [Foundation.toList_toUTF8]
    decide
  · rw [Foundation.toList_toUTF8]
    decide
  · rw [firstTableName_eq_some_iff, tags_textOf hlaid, Foundation.toList_toUTF8]
    exact ⟨_, .here hread (by decide), by decide, by decide⟩

end WpKnowledge.SqlRoute
