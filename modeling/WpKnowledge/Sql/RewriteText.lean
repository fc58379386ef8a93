import WpKnowledge.Foundation.Utf8
import WpKnowledge.Sql.Scanners

/-!
# The text of a rewritten statement

The scanners of the providers walk the bytes of a statement and push every byte
they copy as a character of its own (`out.push(bytes[i] as char)`).  A byte of an
ASCII character is that character.  A byte of any other character is not, so that
the character comes out as two to four others.

{lit}`Rewritten.restored` is a rewritten statement with every placeholder written
back as the name it stands for.

Main results:

- Theorem {lit}`flatMap_source_lexemesFrom`: the lexemes of a statement are its bytes.
- Theorem {lit}`restored_eq_iff_ascii`: the rewriting preserves exactly the
  statements that are ASCII.
-/

namespace WpKnowledge

/-! ## The lengths of regions -/

/-- How many bytes a region has. -/
def Region.length : Region → Nat
  | copy n => n
  | dollarQuote n => n
  | param n => n

/-- An opening tag has at least two bytes. -/
theorem lt_of_dollarTagLength {idx n : Nat} {bytes : List UInt8}
    (h : dollarTagLength idx bytes = some n) : idx < n := by
  induction bytes generalizing idx with
  | nil => cases h
  | cons b rest ih =>
      rw [dollarTagLength] at h
      split_ifs at h
      · cases h
        omega
      · have hlt := ih h
        omega
      · have hlt := ih h
        omega

/-- The opening tag of a dollar quote is not empty. -/
theorem pos_of_parseDollarQuoteTag {bytes : List UInt8} {n : Nat}
    (h : parseDollarQuoteTag bytes = some n) : 0 < n := by
  cases bytes with
  | nil => cases h
  | cons b rest =>
      rw [parseDollarQuoteTag] at h
      split_ifs at h
      have hlt := lt_of_dollarTagLength h
      omega

/-- A region has at least the byte it starts at. -/
theorem regionAt_length_pos (b : UInt8) (rest : List UInt8) : 0 < (regionAt b rest).length := by
  unfold regionAt
  split_ifs with h1 h2 h3 h4 h5
  all_goals try (simp only [Region.length]; omega)
  cases htag : parseDollarQuoteTag (b :: rest) with
  | none => simp [Region.length]
  | some n => exact pos_of_parseDollarQuoteTag htag

/-- The bytes of a region and those after it are the bytes it was found in. -/
theorem take_append_drop_pred {α : Type} {b : α} {rest : List α} {n : Nat} (hn : 0 < n) :
    (b :: rest).take n ++ rest.drop (n - 1) = b :: rest := by
  obtain ⟨m, rfl⟩ := Nat.exists_eq_add_of_lt hn
  simp

/-! ## The lexemes are the bytes of the statement -/

/-- The characters a lexeme is read from. -/
def Lexeme.source : Lexeme → List Char
  | .byte b => [byteAsChar b]
  | .param _ rawName => rawName.toList

/-- Copied bytes are read from themselves. -/
theorem flatMap_source_bytes (bytes : List UInt8) :
    (bytes.map Lexeme.byte).flatMap Lexeme.source = bytes.map byteAsChar := by
  induction bytes with
  | nil => rfl
  | cons b bytes ih =>
      rw [List.map_cons, List.flatMap_cons, ih]
      rfl

/-- The lexemes of a statement are its bytes, each taken for a character. -/
theorem flatMap_source_lexemesFrom (i : Nat) (bytes : List UInt8)
    (dollarTag : Option (List UInt8)) (htag : ∀ tag ∈ dollarTag, tag ≠ []) :
    (lexemesFrom i bytes dollarTag).flatMap Lexeme.source = bytes.map byteAsChar := by
  fun_induction lexemesFrom i bytes dollarTag with
  | case1 => rfl
  | case2 i b rest tag hstart ih =>
      have hpos : 0 < tag.length := List.length_pos_iff.mpr (htag tag rfl)
      have htake : tag = (b :: rest).take tag.length :=
        List.prefix_iff_eq_take.mp (List.isPrefixOf_iff_prefix.mp hstart)
      rw [List.flatMap_append, flatMap_source_bytes, ih (by simp), ← List.map_append]
      nth_rewrite 1 [htake]
      rw [take_append_drop_pred hpos]
  | case3 i b rest tag hstart ih =>
      rw [List.flatMap_cons, ih htag]
      rfl
  | case4 i b rest n hregion ih =>
      have hpos : 0 < n := by simpa [hregion, Region.length] using regionAt_length_pos b rest
      rw [List.flatMap_append, flatMap_source_bytes, ih htag, ← List.map_append,
        take_append_drop_pred hpos]
  | case5 i b rest n hregion ih =>
      have hpos : 0 < n := by simpa [hregion, Region.length] using regionAt_length_pos b rest
      have hnil : ∀ tag ∈ some ((b :: rest).take n), tag ≠ [] := by
        intro tag heq
        rw [← Option.some.inj heq]
        simp [Nat.pos_iff_ne_zero.mp hpos]
      rw [List.flatMap_append, flatMap_source_bytes, ih hnil, ← List.map_append,
        take_append_drop_pred hpos]
  | case6 i b rest n hregion ih =>
      have hpos : 0 < n := by simpa [hregion, Region.length] using regionAt_length_pos b rest
      have hname : Lexeme.source (.param i (bytesAsString ((b :: rest).take n))) =
          ((b :: rest).take n).map byteAsChar := by
        simp [Lexeme.source, bytesAsString]
      rw [List.flatMap_cons, hname, ih htag, ← List.map_append, take_append_drop_pred hpos]

/-! ## Writing the names back -/

/-- A piece with the name written back for a placeholder. -/
def Piece.restored : Piece → String
  | text c => c.toString
  | placeholder _ rawName _ => rawName

/-- A rewritten statement with every placeholder written back as its name. -/
def Rewritten.restored (r : Rewritten) : String :=
  String.join (r.out.map Piece.restored)

/-- The marker of a piece does not matter for its name. -/
@[simp]
theorem Piece.restored_unmarked (p : Piece) : p.unmarked.restored = p.restored := by
  cases p <;> rfl

/-- The piece of a lexeme, with its name back, is what the lexeme was read from. -/
theorem Piece.toList_restored_piece (l : Lexeme) : l.piece.restored.toList = l.source := by
  cases l with
  | byte b => simp [Lexeme.piece, Piece.restored, Lexeme.source]
  | param start rawName => rfl

/-- With the names back, the output is the bytes of the statement, each taken for
a character. -/
theorem Dialect.toList_restored {σ : Type} {dialect : Dialect σ} {sql : String}
    {params : List DataField} {r : Rewritten} (h : dialect.rewrite sql params = .ok r) :
    r.restored.toList = sql.toUTF8.toList.map byteAsChar := by
  have hout : r.out.flatMap (fun p => p.restored.toList) =
      (lexemes sql).flatMap Lexeme.source := by
    have hmap := congrArg (List.flatMap fun p => p.restored.toList) (Dialect.map_unmarked_out h)
    simpa only [List.flatMap_map, Piece.restored_unmarked, Piece.toList_restored_piece] using hmap
  have hsource := flatMap_source_lexemesFrom 0 sql.toUTF8.toList none (by simp)
  rw [Rewritten.restored, String.toList_join, List.flatMap_map, hout, lexemes, hsource]

/-- Every character is below 128. -/
def IsAscii (text : String) : Prop :=
  ∀ c ∈ text.toList, c.toNat < 128

/-- A text is its bytes, each taken for a character, exactly when it is ASCII. -/
theorem map_byteAsChar_toUTF8_eq_iff (text : String) :
    text.toUTF8.toList.map byteAsChar = text.toList ↔ IsAscii text := by
  constructor
  · intro heq
    have hlength := congrArg List.length heq
    rw [List.length_map] at hlength
    exact (Foundation.length_toUTF8_eq_iff text).mp hlength
  · intro hascii
    rw [Foundation.toList_toUTF8, Foundation.flatMap_utf8EncodeChar_of_ascii hascii, List.map_map]
    have hid : ∀ c ∈ text.toList, (byteAsChar ∘ fun c => UInt8.ofNat c.toNat) c = id c := by
      intro c hc
      have hlt := hascii c hc
      have hbyte : (UInt8.ofNat c.toNat).toNat = c.toNat := by
        rw [UInt8.toNat_ofNat']
        omega
      rw [Function.comp_apply, byteAsChar, hbyte, Char.ofNat_toNat, id]
    rw [List.map_congr_left hid, List.map_id]

/-- The output with the names back is the statement exactly when that is ASCII. -/
theorem Dialect.restored_eq_iff {σ : Type} {dialect : Dialect σ} {sql : String}
    {params : List DataField} {r : Rewritten} (h : dialect.rewrite sql params = .ok r) :
    r.restored = sql ↔ IsAscii sql := by
  rw [← map_byteAsChar_toUTF8_eq_iff, ← Dialect.toList_restored h]
  exact String.toList_inj.symm

/-! ## What the rewriting preserves -/

/-- **The text preserved.**  Where a rewriting succeeds, its output with every
placeholder written back as the name it stands for is the statement if and only
if all characters of the statement are ASCII. -/
theorem restored_eq_iff_ascii (sql : String) (params : List DataField) :
    (∀ out ordered, Postgres.rewriteSql sql params = .ok (out, ordered) →
      ∃ r, Postgres.dialect.rewrite sql params = .ok r ∧ r.text = out ∧ r.ordered = ordered ∧
        (r.restored = sql ↔ IsAscii sql)) ∧
      ∀ out ordered, Mysql.rewriteSql sql params = .ok (out, ordered) →
        ∃ r, Mysql.dialect.rewrite sql params = .ok r ∧ r.text = out ∧ r.ordered = ordered ∧
          (r.restored = sql ↔ IsAscii sql) := by
  constructor
  · intro out ordered h
    obtain ⟨r, hr, htext, hordered⟩ := Postgres.exists_rewritten_of_rewriteSql h
    exact ⟨r, hr, htext, hordered, Dialect.restored_eq_iff hr⟩
  · intro out ordered h
    obtain ⟨r, hr, htext, hordered⟩ := Mysql.exists_rewritten_of_rewriteSql h
    exact ⟨r, hr, htext, hordered, Dialect.restored_eq_iff hr⟩

/-- An ASCII statement with a placeholder comes back from both rewritings. -/
theorem restored_ascii_statement :
    (∃ r, Postgres.dialect.rewrite "a = :id" [.fromInt "id" 7] = .ok r ∧ r.text = "a = $1" ∧
        r.restored = "a = :id") ∧
      ∃ r, Mysql.dialect.rewrite "a = :id" [.fromInt "id" 7] = .ok r ∧ r.text = "a = ?" ∧
        r.restored = "a = :id" := by
  have hascii : IsAscii "a = :id" := by
    rw [IsAscii]
    simp
  have hpg : (Postgres.rewriteSql "a = :id" [.fromInt "id" 7]).toOption.map Prod.fst =
      some "a = $1" := by
    decide +kernel
  have hmy : (Mysql.rewriteSql "a = :id" [.fromInt "id" 7]).toOption.map Prod.fst =
      some "a = ?" := by
    decide +kernel
  have hall := restored_eq_iff_ascii "a = :id" [.fromInt "id" 7]
  constructor
  · obtain ⟨⟨out, ordered⟩, hok, hout⟩ := Option.map_eq_some_iff.mp hpg
    have hout : out = "a = $1" := hout
    obtain ⟨r, hr, htext, -, hrestored⟩ :=
      hall.1 out ordered (Foundation.toOption_eq_some_iff.mp hok)
    exact ⟨r, hr, htext.trans hout, hrestored.mpr hascii⟩
  · obtain ⟨⟨out, ordered⟩, hok, hout⟩ := Option.map_eq_some_iff.mp hmy
    have hout : out = "a = ?" := hout
    obtain ⟨r, hr, htext, -, hrestored⟩ :=
      hall.2 out ordered (Foundation.toOption_eq_some_iff.mp hok)
    exact ⟨r, hr, htext.trans hout, hrestored.mpr hascii⟩

/-- The one character of a string comes out as three from both rewritings. -/
theorem restored_chinese_string :
    (∃ r, Postgres.dialect.rewrite "select '中'" [] = .ok r ∧
        r.restored = "select 'ä¸\u00ad'" ∧ r.restored ≠ "select '中'") ∧
      ∃ r, Mysql.dialect.rewrite "select '中'" [] = .ok r ∧
        r.restored = "select 'ä¸\u00ad'" ∧ r.restored ≠ "select '中'" := by
  have hnone : occurrences "select '中'" = [] := by
    decide +kernel
  have hbytes : "select '中'".toUTF8.toList.map byteAsChar = "select 'ä¸\u00ad'".toList := by
    decide +kernel
  have hne : "select 'ä¸\u00ad'" ≠ "select '中'" := by
    decide
  have hok : ∀ {σ : Type} (dialect : Dialect σ), ∃ r, dialect.rewrite "select '中'" [] = .ok r ∧
      r.restored = "select 'ä¸\u00ad'" ∧ r.restored ≠ "select '中'" := by
    intro σ dialect
    have hok : ∃ r, dialect.rewrite "select '中'" [] = .ok r :=
      Dialect.exists_rewrite_eq_ok_iff.mpr fun o ho => absurd (hnone ▸ ho) List.not_mem_nil
    obtain ⟨r, hr⟩ := hok
    have hrestored : r.restored = "select 'ä¸\u00ad'" :=
      String.toList_inj.mp ((Dialect.toList_restored hr).trans hbytes)
    exact ⟨r, hr, hrestored, hrestored ▸ hne⟩
  exact ⟨hok Postgres.dialect, hok Mysql.dialect⟩

end WpKnowledge
