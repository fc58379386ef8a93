import WpKnowledge.Foundation.Scan
import WpKnowledge.Sql.CodeRegions

/-!
# The routing scanners by index

Here the scanners of `src/sql_route.rs` move an index through the bytes of the statement,
loop by loop as in the source, and cut slices out of it.  An index beyond the end and a
slice that is none are {lit}`none`, where the program stops.  Each loop is a recursion
whose index grows; an index is a number without bound, as the lengths of two texts add up
without overflow.

Main results:

- Theorem {lit}`regionEnd_eq`: the loops over a literal, a quoted identifier or a comment
  end where the region does.
- Theorems {lit}`Indexed.findKeyword_eq_some`, {lit}`Indexed.matchingParen_eq_some`,
  {lit}`Indexed.firstTableName_eq_some` and {lit}`Indexed.stripProviderPrefix_eq_some`: no
  scanner stops, and each returns what it does on lists of bytes.
-/

namespace WpKnowledge.SqlRoute.Indexed

open Foundation

/-! ## The loops over a region -/

/-- The loop over a quoted region, from behind the opening quote. -/
def quotedEnd (quote : UInt8) (bytes : List UInt8) (idx : Nat) : Option Nat :=
  if idx < bytes.length then
    match bytes[idx]? with
    | none => none
    | some b =>
        if b = quote then
          if idx + 1 < bytes.length then
            match bytes[idx + 1]? with
            | none => none
            | some c => if c = quote then quotedEnd quote bytes (idx + 2) else some (idx + 1)
          else some (idx + 1)
        else quotedEnd quote bytes (idx + 1)
  else some idx
termination_by bytes.length - idx

/-- The loop up to a closing byte, which is passed over too unless the text ends. -/
def closedEnd (close : UInt8) (bytes : List UInt8) (idx : Nat) : Option Nat :=
  (skipWhile (· != close) bytes idx).map fun idx =>
    idx + if idx < bytes.length then 1 else 0

/-- The loop up to the end of a block comment, from behind its opening. -/
def blockLoop (bytes : List UInt8) (idx : Nat) : Option Nat :=
  if idx + 1 < bytes.length then
    match bytes[idx]? with
    | none => none
    | some b =>
        if b = '*'.toUInt8 then
          match bytes[idx + 1]? with
          | none => none
          | some c => if c = '/'.toUInt8 then some idx else blockLoop bytes (idx + 1)
        else blockLoop bytes (idx + 1)
  else some idx
termination_by bytes.length - idx

/-- The end of a block comment, or of the text. -/
def blockEnd (bytes : List UInt8) (idx : Nat) : Option Nat :=
  (blockLoop bytes idx).map fun idx => if idx + 1 < bytes.length then idx + 2 else bytes.length

/-- How a scanner skips: `strip_provider_prefix` takes a doubled backtick for an escape, and
copies a line comment from its first dash on. -/
inductive SkipStyle where
  | plain
  | strip
deriving DecidableEq, Repr

/-- How many dashes of a line comment are stepped over before the loop. -/
def SkipStyle.dashes : SkipStyle → Nat
  | plain => 2
  | strip => 0

/-- How an identifier in backticks is read. -/
def SkipStyle.backtickLength : SkipStyle → List UInt8 → Nat
  | plain => closedLength 96
  | strip => quotedLength 96

/-- The skipping on lists of bytes. -/
def SkipStyle.skipAt (style : SkipStyle) : UInt8 → List UInt8 → Option Nat :=
  skipLength style.backtickLength

/-- The arms of the loop that skip: the index behind the region that begins at the index,
if one begins there. -/
def regionEnd (style : SkipStyle) (bytes : List UInt8) (idx : Nat) : Option (Option Nat) :=
  match bytes[idx]? with
  | none => none
  | some b =>
      if b = '\''.toUInt8 ∨ b = '"'.toUInt8 then (quotedEnd b bytes (idx + 1)).map some
      else if b = 96 then
        match style with
        | .plain => (closedEnd 96 bytes (idx + 1)).map some
        | .strip => (quotedEnd b bytes (idx + 1)).map some
      else if b = '['.toUInt8 then (closedEnd ']'.toUInt8 bytes (idx + 1)).map some
      else if b = '-'.toUInt8 ∧ bytes[idx + 1]? = some '-'.toUInt8 then
        (skipWhile (· ≠ '\n'.toUInt8) bytes (idx + style.dashes)).map some
      else if b = '/'.toUInt8 ∧ bytes[idx + 1]? = some '*'.toUInt8 then
        (blockEnd bytes (idx + 2)).map some
      else some none

/-! ### Where they end -/

section Ends

variable {bytes rest : List UInt8} {idx : Nat}

theorem quotedEnd_eq (quote : UInt8) (h : bytes.drop idx = rest) :
    quotedEnd quote bytes idx = some (idx + quotedLength quote rest) := by
  induction rest using quotedLength.induct quote generalizing idx with
  | case1 =>
      rw [quotedEnd, if_neg (not_lt_of_drop_eq_nil h)]
      rfl
  | case2 =>
      obtain ⟨hlt, hget, hrest⟩ := of_drop_eq_cons h
      rw [quotedEnd, if_pos hlt, hget]
      simp [not_lt_of_drop_eq_nil hrest, quotedLength]
  | case3 rest ih =>
      obtain ⟨hlt, hget, hrest⟩ := of_drop_eq_cons h
      obtain ⟨hlt', hget', hrest'⟩ := of_drop_eq_cons hrest
      rw [quotedEnd, if_pos hlt, hget]
      simp only [if_true, hlt', hget', ih hrest', quotedLength, Option.some.injEq]
      omega
  | case4 c rest hne =>
      obtain ⟨hlt, hget, hrest⟩ := of_drop_eq_cons h
      obtain ⟨hlt', hget', -⟩ := of_drop_eq_cons hrest
      rw [quotedEnd, if_pos hlt, hget]
      simp only [if_true, if_pos hlt', hget', if_neg hne, quotedLength]
  | case5 b rest hne ih =>
      obtain ⟨hlt, hget, hrest⟩ := of_drop_eq_cons h
      have hlen : quotedLength quote (b :: rest) = 1 + quotedLength quote rest := by
        cases rest <;> simp [quotedLength, hne]
      rw [quotedEnd, if_pos hlt, hget]
      simp only [if_neg hne, ih hrest, hlen, Option.some.injEq]
      omega

/-- The closing byte is one more, if there is one. -/
theorem closedLength_eq (close : UInt8) (rest : List UInt8) :
    closedLength close rest = (rest.takeWhile (· != close)).length +
      if (rest.takeWhile (· != close)).length < rest.length then 1 else 0 := by
  induction rest with
  | nil => rfl
  | cons b rest ih =>
      by_cases hb : b = close
      · simp [closedLength, hb]
      · rw [closedLength, if_neg hb, ih, List.takeWhile_cons_of_pos (by simpa using hb)]
        simp only [List.length_cons, Nat.add_lt_add_iff_right]
        omega

theorem closedEnd_eq (close : UInt8) (h : bytes.drop idx = rest) (hle : idx ≤ bytes.length) :
    closedEnd close bytes idx = some (idx + closedLength close rest) := by
  have hlen : rest.length = bytes.length - idx := by
    rw [← h, List.length_drop]
  have hroom : idx + (rest.takeWhile (· != close)).length < bytes.length ↔
      (rest.takeWhile (· != close)).length < rest.length := by
    omega
  rw [closedEnd, skipWhile_eq _ h, closedLength_eq]
  simp only [Option.map_some, hroom, Option.some.injEq]
  omega

/-- Where the comment does not end, its end is that from the next byte on. -/
theorem blockEnd_cons {b : UInt8} (h : bytes.drop idx = b :: rest)
    (hopen : ¬ (b = '*'.toUInt8 ∧ rest.head? = some '/'.toUInt8)) :
    blockEnd bytes idx = blockEnd bytes (idx + 1) := by
  obtain ⟨hlt, hget, hrest⟩ := of_drop_eq_cons h
  cases rest with
  | nil =>
      have hend := not_lt_of_drop_eq_nil hrest
      have hend' : ¬ idx + 1 + 1 < bytes.length := fun h' => hend (by omega)
      rw [blockEnd, blockEnd, blockLoop, blockLoop, if_neg hend, if_neg hend']
      simp [hend, hend']
  | cons c rest =>
      obtain ⟨hlt', hget', -⟩ := of_drop_eq_cons hrest
      rw [blockEnd, blockEnd, blockLoop, if_pos hlt', hget]
      by_cases hb : b = '*'.toUInt8
      · have hc : c ≠ '/'.toUInt8 := fun hc => hopen ⟨hb, by rw [hc]; rfl⟩
        simp only [if_pos hb, hget', if_neg hc]
      · simp only [if_neg hb]

theorem blockEnd_eq (h : bytes.drop idx = rest) (hle : idx ≤ bytes.length) :
    blockEnd bytes idx = some (idx + blockCommentLength rest) := by
  induction rest generalizing idx with
  | nil =>
      have hend := not_lt_of_drop_eq_nil h
      have hend' : ¬ idx + 1 < bytes.length := fun h' => hend (by omega)
      have hlen : bytes.length = idx := by omega
      rw [blockEnd, blockLoop, if_neg hend']
      simp [blockCommentLength, hlen]
  | cons b rest ih =>
      obtain ⟨hlt, hget, hrest⟩ := of_drop_eq_cons h
      by_cases hclose : b = '*'.toUInt8 ∧ rest.head? = some '/'.toUInt8
      · obtain ⟨rfl, hhead⟩ := hclose
        obtain ⟨rest', rfl⟩ := List.head?_eq_some_iff.mp hhead
        obtain ⟨hlt', hget', -⟩ := of_drop_eq_cons hrest
        rw [blockEnd, blockLoop, if_pos hlt', hget]
        simp only [if_true, hget', Option.map_some, if_pos hlt', blockCommentLength,
          List.head?_cons, and_self]
      · rw [blockEnd_cons h hclose, ih hrest hlt, blockCommentLength, if_neg hclose,
          Option.some.injEq]
        omega

/-- The byte behind. -/
theorem getElem?_succ_of_drop {b : UInt8} (h : bytes.drop idx = b :: rest) :
    bytes[idx + 1]? = rest.head? := by
  obtain ⟨-, -, hrest⟩ := of_drop_eq_cons h
  rw [← hrest, List.head?_drop]

/-- The loops over a region end where the region does. -/
theorem regionEnd_eq (style : SkipStyle) {b : UInt8} (h : bytes.drop idx = b :: rest) :
    regionEnd style bytes idx = some ((style.skipAt b rest).map (idx + 1 + ·)) := by
  obtain ⟨hlt, hget, hrest⟩ := of_drop_eq_cons h
  rw [regionEnd, hget, SkipStyle.skipAt, skipLength]
  simp only [getElem?_succ_of_drop h]
  by_cases hquote : b = '\''.toUInt8 ∨ b = '"'.toUInt8
  · simp only [if_pos hquote, quotedEnd_eq b hrest, Option.map_some]
  · rw [if_neg hquote, if_neg hquote]
    by_cases htick : b = 96
    · rw [if_pos htick, if_pos htick, htick]
      cases style with
      | plain => simp only [closedEnd_eq 96 hrest hlt, SkipStyle.backtickLength, Option.map_some]
      | strip => simp only [quotedEnd_eq 96 hrest, SkipStyle.backtickLength, Option.map_some]
    · rw [if_neg htick, if_neg htick]
      by_cases hbracket : b = '['.toUInt8
      · simp only [if_pos hbracket, closedEnd_eq _ hrest hlt, Option.map_some]
      · rw [if_neg hbracket, if_neg hbracket]
        by_cases hline : b = '-'.toUInt8 ∧ rest.head? = some '-'.toUInt8
        · rw [if_pos hline, if_pos hline]
          obtain ⟨rfl, hhead⟩ := hline
          obtain ⟨rest', rfl⟩ := List.head?_eq_some_iff.mp hhead
          obtain ⟨-, -, hrest'⟩ := of_drop_eq_cons hrest
          -- the dashes end no line
          have hdash : ∀ tail, (('-'.toUInt8 :: tail).takeWhile (· ≠ '\n'.toUInt8)).length =
              (tail.takeWhile (· ≠ '\n'.toUInt8)).length + 1 := by
            intro tail
            rw [List.takeWhile_cons_of_pos (by decide), List.length_cons]
          cases style with
          | plain =>
              rw [SkipStyle.dashes, skipWhile_eq _ hrest', hdash]
              simp only [Option.map_some, Option.some.injEq]
              omega
          | strip =>
              rw [SkipStyle.dashes, Nat.add_zero, skipWhile_eq _ h, hdash, hdash]
              simp only [Option.map_some, Option.some.injEq]
              omega
        · rw [if_neg hline, if_neg hline]
          by_cases hblock : b = '/'.toUInt8 ∧ rest.head? = some '*'.toUInt8
          · rw [if_pos hblock, if_pos hblock]
            obtain ⟨-, hhead⟩ := hblock
            obtain ⟨rest', rfl⟩ := List.head?_eq_some_iff.mp hhead
            obtain ⟨hlt', -, hrest'⟩ := of_drop_eq_cons hrest
            rw [blockEnd_eq hrest' hlt', List.tail_cons]
            simp only [Option.map_some, Option.some.injEq]
            omega
          · rw [if_neg hblock, if_neg hblock, Option.map_none]

/-- The loops over a region do not stop. -/
theorem regionEnd_ne_none (style : SkipStyle) (hlt : idx < bytes.length) :
    regionEnd style bytes idx ≠ none := by
  rw [regionEnd_eq style (List.drop_eq_getElem_cons hlt)]
  exact Option.some_ne_none _

/-- A region that is passed over is one the scanner skips. -/
theorem of_regionEnd_region {style : SkipStyle} {idx' : Nat} (hlt : idx < bytes.length)
    (h : regionEnd style bytes idx = some (some idx')) :
    ∃ b rest n, bytes.drop idx = b :: rest ∧ style.skipAt b rest = some n ∧
      idx' = idx + 1 + n := by
  have hdrop := List.drop_eq_getElem_cons hlt
  rw [regionEnd_eq style hdrop] at h
  obtain ⟨n, hskip, hidx⟩ := Option.map_eq_some_iff.mp (Option.some.inj h)
  exact ⟨_, _, n, hdrop, hskip, hidx.symm⟩

/-- Where no region begins the byte is read as code. -/
theorem of_regionEnd_code {style : SkipStyle} (hlt : idx < bytes.length)
    (h : regionEnd style bytes idx = some none) :
    ∃ b rest, bytes.drop idx = b :: rest ∧ style.skipAt b rest = none := by
  have hdrop := List.drop_eq_getElem_cons hlt
  rw [regionEnd_eq style hdrop] at h
  exact ⟨_, _, hdrop, Option.map_eq_none_iff.mp (Option.some.inj h)⟩

/-- The same for a byte that was read there. -/
theorem of_regionEnd_read {style : SkipStyle} {b : UInt8} (hlt : idx < bytes.length)
    (h : regionEnd style bytes idx = some none) (hget : bytes[idx]? = some b) :
    ∃ rest, bytes.drop idx = b :: rest ∧ style.skipAt b rest = none := by
  obtain ⟨b', rest, hdrop, hskip⟩ := of_regionEnd_code hlt h
  obtain rfl : b' = b := Option.some.inj ((of_drop_eq_cons hdrop).2.1.symm.trans hget)
  exact ⟨rest, hdrop, hskip⟩

/-- Behind a region the index is greater. -/
theorem lt_of_regionEnd {style : SkipStyle} {idx' : Nat} (hlt : idx < bytes.length)
    (h : regionEnd style bytes idx = some (some idx')) : idx < idx' := by
  obtain ⟨b, rest, n, -, -, rfl⟩ := of_regionEnd_region hlt h
  omega

end Ends

/-! ### Regions are whole characters -/

/-- So many bytes end with the text, before an ASCII byte, or behind one. -/
def EndsAtAscii (rest : List UInt8) (n : Nat) : Prop :=
  n = rest.length ∨ (∃ c, rest[n]? = some c ∧ c < 128) ∨
    ∃ k c, n = k + 1 ∧ rest[k]? = some c ∧ c < 128

theorem EndsAtAscii.cons {rest : List UInt8} {n : Nat} (h : EndsAtAscii rest n) (b : UInt8) :
    EndsAtAscii (b :: rest) (n + 1) := by
  rcases h with rfl | ⟨c, hc, hascii⟩ | ⟨k, c, rfl, hc, hascii⟩
  · exact .inl rfl
  · exact .inr (.inl ⟨c, hc, hascii⟩)
  · exact .inr (.inr ⟨k + 1, c, rfl, hc, hascii⟩)

theorem endsAtAscii_quotedLength {quote : UInt8} (hquote : quote < 128) (rest : List UInt8) :
    EndsAtAscii rest (quotedLength quote rest) := by
  induction rest using quotedLength.induct quote with
  | case1 => exact .inl rfl
  | case2 => exact .inl (by simp [quotedLength])
  | case3 rest ih =>
      have hlen : quotedLength quote (quote :: quote :: rest) = quotedLength quote rest + 1 + 1 := by
        simp only [quotedLength, if_true]
        omega
      rw [hlen]
      exact (ih.cons quote).cons quote
  | case4 c rest hne => exact .inr (.inr ⟨0, quote, by simp [quotedLength, hne], rfl, hquote⟩)
  | case5 b rest hne ih =>
      have hlen : quotedLength quote (b :: rest) = quotedLength quote rest + 1 := by
        cases rest <;> simp [quotedLength, hne, Nat.add_comm]
      rw [hlen]
      exact ih.cons b

theorem endsAtAscii_closedLength {close : UInt8} (hclose : close < 128) (rest : List UInt8) :
    EndsAtAscii rest (closedLength close rest) := by
  induction rest with
  | nil => exact .inl rfl
  | cons b rest ih =>
      rw [closedLength]
      split
      · rename_i hb
        exact .inr (.inr ⟨0, b, rfl, rfl, hb ▸ hclose⟩)
      · rw [Nat.add_comm]
        exact ih.cons b

theorem endsAtAscii_line (rest : List UInt8) :
    EndsAtAscii rest (rest.takeWhile (· ≠ '\n'.toUInt8)).length := by
  induction rest with
  | nil => exact .inl rfl
  | cons b rest ih =>
      by_cases hb : b = '\n'.toUInt8
      · rw [List.takeWhile_cons_of_neg (by simpa using hb)]
        exact .inr (.inl ⟨b, rfl, by rw [hb]; decide⟩)
      · rw [List.takeWhile_cons_of_pos (by simpa using hb), List.length_cons]
        exact ih.cons b

theorem endsAtAscii_blockCommentLength (rest : List UInt8) :
    EndsAtAscii rest (blockCommentLength rest) := by
  induction rest with
  | nil => exact .inl rfl
  | cons b rest ih =>
      rw [blockCommentLength]
      split
      · rename_i hclose
        obtain ⟨rest', rfl⟩ := List.head?_eq_some_iff.mp hclose.2
        exact .inr (.inr ⟨1, '/'.toUInt8, rfl, rfl, by decide⟩)
      · rw [Nat.add_comm]
        exact ih.cons b

/-- A region begins with an ASCII byte, and ends at one or with the text. -/
theorem endsAtAscii_of_skipAt {style : SkipStyle} {b : UInt8} {rest : List UInt8} {n : Nat}
    (h : style.skipAt b rest = some n) : b < 128 ∧ EndsAtAscii rest n := by
  rw [SkipStyle.skipAt, skipLength] at h
  split_ifs at h with hquote htick hbracket hline hblock
  · have hb : b < 128 := by
      rcases hquote with rfl | rfl <;> decide
    cases h
    exact ⟨hb, endsAtAscii_quotedLength hb rest⟩
  · refine ⟨by rw [htick]; decide, ?_⟩
    cases style with
    | plain =>
        cases h
        exact endsAtAscii_closedLength (by decide) rest
    | strip =>
        cases h
        exact endsAtAscii_quotedLength (by decide) rest
  · cases h
    exact ⟨by rw [hbracket]; decide, endsAtAscii_closedLength (by decide) rest⟩
  · cases h
    exact ⟨by rw [hline.1]; decide, endsAtAscii_line rest⟩
  · cases h
    obtain ⟨rest', rfl⟩ := List.head?_eq_some_iff.mp hblock.2
    rw [Nat.add_comm, List.tail_cons]
    exact ⟨by rw [hblock.1]; decide, (endsAtAscii_blockCommentLength rest').cons _⟩

/-- The text can be cut where so many bytes end. -/
theorem EndsAtAscii.isCut {sql : List Char} {rest : List UInt8} {idx n : Nat}
    (h : EndsAtAscii rest n) (hdrop : (asBytes sql).drop idx = rest)
    (hle : idx ≤ (asBytes sql).length) : IsCut sql (idx + n) := by
  have hget : ∀ k, (asBytes sql)[idx + k]? = rest[k]? := by
    intro k
    rw [← hdrop, List.getElem?_drop]
  rcases h with rfl | ⟨c, hc, hascii⟩ | ⟨k, c, rfl, hc, hascii⟩
  · have hlen : idx + rest.length = byteLength sql := by
      rw [← hdrop, List.length_drop, Nat.add_sub_cancel' hle, length_asBytes]
    rw [hlen]
    exact isCut_byteLength sql
  · rw [← hget] at hc
    exact (isCut_of_ascii hc hascii).1
  · rw [← hget] at hc
    exact (isCut_of_ascii hc hascii).2

/-- A region can be cut out of the text. -/
theorem slice_region {sql : List Char} {style : SkipStyle} {b : UInt8} {rest : List UInt8}
    {idx n : Nat} (hdrop : (asBytes sql).drop idx = b :: rest)
    (h : style.skipAt b rest = some n) :
    ∃ region, slice sql idx (idx + 1 + n) = some region ∧
      asBytes region = b :: rest.take n := by
  obtain ⟨hb, hends⟩ := endsAtAscii_of_skipAt h
  obtain ⟨hlt, hget, hrest⟩ := of_drop_eq_cons hdrop
  have hstop := hends.isCut hrest hlt
  obtain ⟨region, hregion, hbytes⟩ :=
    slice_of_isCut (isCut_of_ascii hget hb).1 hstop (by omega)
  refine ⟨region, hregion, ?_⟩
  have hlen : idx + 1 + n - idx = n + 1 := by omega
  rw [hbytes, List.drop_take, hdrop, hlen, List.take_succ_cons]

/-! ## Locating the table reference -/

/-- The byte before an index. -/
def byteBefore (bytes : List UInt8) : Nat → Option UInt8
  | 0 => none
  | prev + 1 => bytes[prev]?

/-- The comparison of `find_keyword`: the slice that may be the keyword, the byte before it
and the byte behind it. -/
def keywordHere (bytes keyword : List UInt8) (idx : Nat) : Option Bool :=
  let stop := idx + keyword.length
  if stop ≤ bytes.length then
    match sliceOf bytes idx stop with
    | none => none
    | some word =>
        if eqIgnoreAsciiCase word keyword then
          match idx with
          | 0 => some ((bytes[stop]?).all (!isIdentByte ·))
          | prev + 1 =>
              match bytes[prev]? with
              | none => none
              | some p => some (!isIdentByte p && (bytes[stop]?).all (!isIdentByte ·))
        else some false
  else some false

/-- The loop of `find_keyword`. -/
def findKeywordLoop (bytes keyword : List UInt8) (idx : Nat) : Option (Option Nat) :=
  if _hidx : idx < bytes.length then
    match _hregion : regionEnd .plain bytes idx with
    | none => none
    | some (some idx') => findKeywordLoop bytes keyword idx'
    | some none =>
        match keywordHere bytes keyword idx with
        | none => none
        | some true => some (some idx)
        | some false => findKeywordLoop bytes keyword (idx + 1)
  else some none
termination_by bytes.length - idx
decreasing_by
  · have hlt := lt_of_regionEnd _hidx _hregion
    omega
  · omega

/-- `find_keyword`. -/
def findKeyword (bytes keyword : List UInt8) : Option (Option Nat) :=
  findKeywordLoop bytes keyword 0

/-- The loop of `matching_paren`. -/
def matchingParenLoop (bytes : List UInt8) (depth idx : Nat) : Option (Option Nat) :=
  if _hidx : idx < bytes.length then
    match _hregion : regionEnd .plain bytes idx with
    | none => none
    | some (some idx') => matchingParenLoop bytes depth idx'
    | some none =>
        match bytes[idx]? with
        | none => none
        | some b =>
            if b = '('.toUInt8 then matchingParenLoop bytes (depth + 1) (idx + 1)
            else if b = ')'.toUInt8 then
              if depth = 0 then some none
              else if depth = 1 then some (some idx)
              else matchingParenLoop bytes (depth - 1) (idx + 1)
            else matchingParenLoop bytes depth (idx + 1)
  else some none
termination_by bytes.length - idx
decreasing_by
  · have hlt := lt_of_regionEnd _hidx _hregion
    omega
  all_goals omega

/-- `matching_paren`. -/
def matchingParen (bytes : List UInt8) (openPos : Nat) : Option (Option Nat) :=
  matchingParenLoop bytes 0 openPos

/-- A character that ends a table reference. -/
def endsTableChar (c : Char) : Bool :=
  decide (c.toNat < 128) && endsTable (UInt8.ofNat c.toNat)

/-- `first_table_name`: the bytes of the table. -/
def firstTableName (sql : List Char) : Option (Option (List UInt8)) :=
  let bytes := asBytes sql
  match findKeyword bytes fromKeyword with
  | none => none
  | some none => some none
  | some (some fromPos) =>
      match skipWhile isAsciiWhitespace bytes (fromPos + fromKeyword.length) with
      | none => none
      | some tableStart =>
          if bytes[tableStart]? = some '('.toUInt8 then
            match matchingParen bytes tableStart with
            | none => none
            | some none => some none
            | some (some closePos) =>
                match _hslice : slice sql (tableStart + 1) closePos with
                | none => none
                | some inner => firstTableName inner
          else
            match sliceFrom sql tableStart with
            | none => none
            | some tail =>
                let tableEnd := ((findChar endsTableChar tail).map (tableStart + ·)).getD
                  (byteLength sql)
                match slice sql tableStart tableEnd with
                | none => none
                | some table =>
                    let table := trim (asBytes table)
                    some (if table = [] then none else some table)
termination_by sql.length
decreasing_by exact length_lt_of_slice _hslice

/-! ### Nothing stops them -/

section Locating

variable {bytes rest : List UInt8} {idx : Nat} {b : UInt8}

theorem byteBefore_succ (h : bytes.drop idx = b :: rest) : byteBefore bytes (idx + 1) = some b :=
  (of_drop_eq_cons h).2.1

theorem keywordHere_eq (keyword : List UInt8) (h : bytes.drop idx = b :: rest) :
    keywordHere bytes keyword idx = some (keywordAt keyword (byteBefore bytes idx) (b :: rest)) := by
  obtain ⟨hlt, -, -⟩ := of_drop_eq_cons h
  have hstop : bytes[idx + keyword.length]? = ((b :: rest).drop keyword.length).head? := by
    rw [← h, List.drop_drop, List.head?_drop]
  simp only [keywordHere, add_le_length_iff h hlt, hstop]
  by_cases hroom : keyword.length ≤ (b :: rest).length
  · rw [if_pos hroom, sliceOf_add h hlt hroom]
    simp only [keywordAt, hroom, decide_true, Bool.true_and]
    by_cases hword : eqIgnoreAsciiCase ((b :: rest).take keyword.length) keyword = true
    · simp only [hword, if_true, Bool.true_and]
      cases idx with
      | zero => rfl
      | succ prev =>
          have hprev : prev < bytes.length := by omega
          simp only [byteBefore, List.getElem?_eq_getElem hprev, Option.all_some]
    · simp [hword]
  · rw [if_neg hroom, keywordAt, decide_eq_false hroom]
    rfl

/-- Bytes to be skipped are an index further on. -/
theorem findKeywordFrom_skip (keyword : List UInt8) (skip idx : Nat) :
    findKeywordFrom keyword skip idx (byteBefore bytes idx) (bytes.drop idx) =
      findKeywordFrom keyword 0 (idx + skip) (byteBefore bytes (idx + skip))
        (bytes.drop (idx + skip)) := by
  induction skip generalizing idx with
  | zero => rfl
  | succ skip ih =>
      cases hdrop : bytes.drop idx with
      | nil =>
          have hnil : bytes.drop (idx + (skip + 1)) = [] := by
            rw [← List.drop_drop, hdrop, List.drop_nil]
          rw [hnil, findKeywordFrom, findKeywordFrom]
      | cons b rest =>
          have hrest := (of_drop_eq_cons hdrop).2.2
          have hstep := ih (idx + 1)
          rw [byteBefore_succ hdrop, hrest] at hstep
          have hpos : idx + (skip + 1) = idx + 1 + skip := by omega
          rw [findKeywordFrom, hstep, hpos]

theorem findKeywordLoop_eq (bytes keyword : List UInt8) (idx : Nat) :
    findKeywordLoop bytes keyword idx =
      some (findKeywordFrom keyword 0 idx (byteBefore bytes idx) (bytes.drop idx)) := by
  fun_induction findKeywordLoop bytes keyword idx with
  | case1 idx hidx hregion =>
      exact absurd hregion (regionEnd_ne_none _ hidx)
  | case2 idx hidx idx' hregion ih =>
      obtain ⟨b, rest, n, hdrop, hskip, rfl⟩ := of_regionEnd_region hidx hregion
      have hrest := (of_drop_eq_cons hdrop).2.2
      have hskip' : plainSkip b rest = some n := hskip
      rw [ih, ← findKeywordFrom_skip, byteBefore_succ hdrop, hrest, hdrop, findKeywordFrom, hskip']
  | case3 idx hidx hregion hword =>
      obtain ⟨b, rest, hdrop, -⟩ := of_regionEnd_code hidx hregion
      rw [keywordHere_eq keyword hdrop] at hword
      cases hword
  | case4 idx hidx hregion hword =>
      obtain ⟨b, rest, hdrop, hskip⟩ := of_regionEnd_code hidx hregion
      have hskip' : plainSkip b rest = none := hskip
      rw [keywordHere_eq keyword hdrop] at hword
      rw [hdrop, findKeywordFrom, hskip']
      simp only [if_pos (Option.some.inj hword)]
  | case5 idx hidx hregion hword ih =>
      obtain ⟨b, rest, hdrop, hskip⟩ := of_regionEnd_code hidx hregion
      have hskip' : plainSkip b rest = none := hskip
      have hrest := (of_drop_eq_cons hdrop).2.2
      rw [keywordHere_eq keyword hdrop] at hword
      rw [ih, byteBefore_succ hdrop, hrest, hdrop, findKeywordFrom, hskip']
      simp [Option.some.inj hword]
  | case6 idx hidx =>
      rw [List.drop_of_length_le (Nat.le_of_not_lt hidx), findKeywordFrom]

theorem findKeyword_eq_some (bytes keyword : List UInt8) :
    findKeyword bytes keyword = some (SqlRoute.findKeyword bytes keyword) :=
  findKeywordLoop_eq bytes keyword 0

theorem matchingParenFrom_skip (skip depth idx : Nat) :
    matchingParenFrom skip depth idx (bytes.drop idx) =
      matchingParenFrom 0 depth (idx + skip) (bytes.drop (idx + skip)) := by
  induction skip generalizing idx with
  | zero => rfl
  | succ skip ih =>
      cases hdrop : bytes.drop idx with
      | nil =>
          have hnil : bytes.drop (idx + (skip + 1)) = [] := by
            rw [← List.drop_drop, hdrop, List.drop_nil]
          rw [hnil, matchingParenFrom, matchingParenFrom]
      | cons b rest =>
          have hstep := ih (idx + 1)
          rw [(of_drop_eq_cons hdrop).2.2] at hstep
          have hpos : idx + (skip + 1) = idx + 1 + skip := by omega
          rw [matchingParenFrom, hstep, hpos]

theorem matchingParenLoop_eq (bytes : List UInt8) (depth idx : Nat) :
    matchingParenLoop bytes depth idx =
      some (matchingParenFrom 0 depth idx (bytes.drop idx)) := by
  fun_induction matchingParenLoop bytes depth idx with
  | case1 depth idx hidx hregion =>
      exact absurd hregion (regionEnd_ne_none _ hidx)
  | case2 depth idx hidx idx' hregion ih =>
      obtain ⟨b, rest, n, hdrop, hskip, rfl⟩ := of_regionEnd_region hidx hregion
      have hrest := (of_drop_eq_cons hdrop).2.2
      have hskip' : plainSkip b rest = some n := hskip
      rw [ih, ← matchingParenFrom_skip, hrest, hdrop, matchingParenFrom, hskip']
  | case3 depth idx hidx hregion hget =>
      rw [List.getElem?_eq_getElem hidx] at hget
      cases hget
  | case4 depth idx hidx hregion hget ih =>
      obtain ⟨rest, hdrop, hskip⟩ := of_regionEnd_read hidx hregion hget
      have hskip' : plainSkip '('.toUInt8 rest = none := hskip
      rw [ih, (of_drop_eq_cons hdrop).2.2, hdrop, matchingParenFrom, hskip']
      simp only [if_true]
  | case5 idx hidx hregion hget hopen =>
      obtain ⟨rest, hdrop, hskip⟩ := of_regionEnd_read hidx hregion hget
      have hskip' : plainSkip ')'.toUInt8 rest = none := hskip
      rw [hdrop, matchingParenFrom, hskip']
      simp only [if_neg hopen, if_true]
  | case6 idx hidx hregion hzero hget hopen =>
      obtain ⟨rest, hdrop, hskip⟩ := of_regionEnd_read hidx hregion hget
      have hskip' : plainSkip ')'.toUInt8 rest = none := hskip
      rw [hdrop, matchingParenFrom, hskip']
      simp only [if_neg hopen, if_neg hzero, if_true]
  | case7 depth idx hidx hregion hzero hone hget hopen ih =>
      obtain ⟨rest, hdrop, hskip⟩ := of_regionEnd_read hidx hregion hget
      have hskip' : plainSkip ')'.toUInt8 rest = none := hskip
      rw [ih, (of_drop_eq_cons hdrop).2.2, hdrop, matchingParenFrom, hskip']
      simp only [if_neg hopen, if_neg hzero, if_neg hone, if_true]
  | case8 depth idx hidx hregion b hget hopen hclose ih =>
      obtain ⟨rest, hdrop, hskip⟩ := of_regionEnd_read hidx hregion hget
      have hskip' : plainSkip b rest = none := hskip
      rw [ih, (of_drop_eq_cons hdrop).2.2, hdrop, matchingParenFrom, hskip']
      simp only [if_neg hopen, if_neg hclose]
  | case9 depth idx hidx =>
      rw [List.drop_of_length_le (Nat.le_of_not_lt hidx), matchingParenFrom]

theorem matchingParen_eq_some (bytes : List UInt8) (openPos : Nat) :
    matchingParen bytes openPos = some (SqlRoute.matchingParen bytes openPos) :=
  matchingParenLoop_eq bytes 0 openPos

end Locating

/-! ### The first table -/

theorem endsTable_eq_endsTableChar (c : Char) {b : UInt8} (hb : b ∈ String.utf8EncodeChar c) :
    endsTable b = endsTableChar c := by
  by_cases hc : c.toNat < 128
  · rw [utf8EncodeChar_of_lt hc, List.mem_singleton] at hb
    rw [endsTableChar, decide_eq_true hc, Bool.true_and, hb]
  · have hwide := (wide_of_mem_utf8EncodeChar (Nat.le_of_not_lt hc) hb).1
    have hnot : endsTable b = false := by
      have hspace : isAsciiWhitespace b = false := by grind [isAsciiWhitespace_iff]
      simp only [endsTable, hspace, Bool.false_or, Bool.or_eq_false_iff, beq_eq_false_iff_ne]
      refine ⟨⟨?_, ?_⟩, ?_⟩ <;> rintro rfl <;> exact absurd hwide (by decide)
    rw [hnot, endsTableChar, decide_eq_false hc, Bool.false_and]

/-- A table reference can be cut out of the text. -/
theorem slice_table {sql : List Char} {start : Nat} (h : IsCut sql start) :
    ∃ tail table, sliceFrom sql start = some tail ∧
      slice sql start (((findChar endsTableChar tail).map (start + ·)).getD (byteLength sql)) =
        some table ∧
      asBytes table =
        ((asBytes sql).drop start).takeWhile fun b => !endsTable b := by
  obtain ⟨l, tail, rfl, rfl⟩ := h
  obtain ⟨hlen, front, back, rfl, hfront⟩ :=
    findChar_eq (fun c b hb => endsTable_eq_endsTableChar c hb) tail
  have hend : ((findChar endsTableChar (front ++ back)).map (byteLength l + ·)).getD
      (byteLength (l ++ (front ++ back))) = byteLength (l ++ front) := by
    rw [byteLength_append l front, hfront]
    cases findChar endsTableChar (front ++ back) <;> simp
  refine ⟨front ++ back, front, sliceFrom_append _ _, ?_, ?_⟩
  · rw [hend, slice_eq_some_iff]
    exact ⟨l, back, by simp, rfl, rfl⟩
  · rw [asBytes_append, ← length_asBytes, List.drop_left]
    rw [← hfront, ← length_asBytes] at hlen
    rw [List.prefix_iff_eq_take.mp (List.takeWhile_prefix fun b => !endsTable b), ← hlen,
      asBytes_append, List.take_left]

/-- The matching parenthesis is a closing one, behind the position asked about. -/
theorem getElem?_of_matchingParen {bytes : List UInt8} {openPos closePos : Nat}
    (h : SqlRoute.matchingParen bytes openPos = some closePos) :
    openPos ≤ closePos ∧ bytes[closePos]? = some ')'.toUInt8 := by
  rw [matchingParen_eq] at h
  obtain ⟨⟨pre, post⟩, hsplit, rfl⟩ := Option.map_eq_some_iff.mp h
  obtain ⟨htags, rest, rfl⟩ := append_of_splitParen hsplit
  have hdrop : bytes.drop openPos = bytesOf pre ++ ')'.toUInt8 :: bytesOf rest := by
    have hbytes := congrArg bytesOf htags
    rwa [bytesOf_tags, bytesOf_append, bytesOf_cons] at hbytes
  refine ⟨Nat.le_add_right _ _, ?_⟩
  rw [← List.getElem?_drop, hdrop, List.getElem?_append_right (by simp), length_bytesOf,
    Nat.sub_self, List.getElem?_cons_zero]

/-- The text can be cut in front of a table reference. -/
theorem isCut_tableStart {sql : List Char} {fromPos tableStart : Nat}
    (hfrom : SqlRoute.findKeyword (asBytes sql) fromKeyword = some fromPos)
    (hstart : tableStart = fromPos + fromKeyword.length +
      (((asBytes sql).drop (fromPos + fromKeyword.length)).takeWhile
        isAsciiWhitespace).length) : IsCut sql tableStart := by
  obtain ⟨pre, passed, tail, htags, hne, hascii, hlen, -⟩ := exists_tableStart hfrom hstart
  obtain ⟨front, last, rfl⟩ := List.eq_nil_or_concat passed |>.resolve_left hne
  have hbytes : asBytes sql =
      (bytesOf pre ++ front) ++ last :: bytesOf tail := by
    have htext := congrArg bytesOf htags
    simpa using htext
  have hlast : (asBytes sql)[(bytesOf pre ++ front).length]? = some last := by
    rw [hbytes, List.getElem?_append_right le_rfl, Nat.sub_self, List.getElem?_cons_zero]
  have hcut := (isCut_of_ascii hlast (hascii last (by simp))).2
  have hpos : (bytesOf pre ++ front).length + 1 = tableStart := by
    simp only [List.length_append, length_bytesOf, List.length_concat] at hlen ⊢
    omega
  rwa [hpos] at hcut

/-- The search on lists of bytes, from the table reference on. -/
theorem firstTableName_of_findKeyword {bytes : List UInt8} {fromPos tableStart : Nat}
    (hfrom : SqlRoute.findKeyword bytes fromKeyword = some fromPos)
    (hstart : tableStart = fromPos + fromKeyword.length +
      ((bytes.drop (fromPos + fromKeyword.length)).takeWhile isAsciiWhitespace).length) :
    SqlRoute.firstTableName bytes =
      if bytes[tableStart]? = some '('.toUInt8 then
        (SqlRoute.matchingParen bytes tableStart).bind fun closePos =>
          SqlRoute.firstTableName ((bytes.take closePos).drop (tableStart + 1))
      else
        let table := trim ((bytes.drop tableStart).takeWhile fun b => !endsTable b)
        if table = [] then none else some table := by
  subst hstart
  rw [SqlRoute.firstTableName, hfrom]
  simp only [List.head?_drop]
  split_ifs
  · cases SqlRoute.matchingParen bytes _ <;> rfl
  · rfl
  · rfl

/-- Where the loop over whitespace ends. -/
theorem eq_of_skipWhile {α : Type} {p : α → Bool} {xs : List α} {idx stop : Nat}
    (h : skipWhile p xs idx = some stop) : stop = idx + ((xs.drop idx).takeWhile p).length := by
  rw [skipWhile_eq p rfl] at h
  exact (Option.some.inj h).symm

theorem findKeyword_of_some {bytes keyword : List UInt8} {r : Option Nat}
    (h : findKeyword bytes keyword = some r) : SqlRoute.findKeyword bytes keyword = r := by
  rw [findKeyword_eq_some] at h
  exact Option.some.inj h

theorem matchingParen_of_some {bytes : List UInt8} {openPos : Nat} {r : Option Nat}
    (h : matchingParen bytes openPos = some r) : SqlRoute.matchingParen bytes openPos = r := by
  rw [matchingParen_eq_some] at h
  exact Option.some.inj h

/-- The inside of a subquery can be cut out of the text. -/
theorem slice_subquery {sql : List Char} {tableStart closePos : Nat}
    (hopen : (asBytes sql)[tableStart]? = some '('.toUInt8)
    (hclose : SqlRoute.matchingParen (asBytes sql) tableStart = some closePos) :
    ∃ inner, slice sql (tableStart + 1) closePos = some inner ∧
      asBytes inner = ((asBytes sql).take closePos).drop (tableStart + 1) := by
  obtain ⟨hle, hget⟩ := getElem?_of_matchingParen hclose
  have hne : tableStart ≠ closePos := by
    rintro rfl
    rw [hopen] at hget
    cases hget
  exact slice_of_isCut (isCut_of_ascii hopen (by decide)).2 (isCut_of_ascii hget (by decide)).1
    (by omega)

theorem firstTableName_eq_some (sql : List Char) :
    firstTableName sql = some (SqlRoute.firstTableName (asBytes sql)) := by
  fun_induction firstTableName sql with
  | case1 sql bytes hfrom =>
      rw [findKeyword_eq_some] at hfrom
      cases hfrom
  | case2 sql bytes hfrom =>
      have hnone : SqlRoute.findKeyword (asBytes sql) fromKeyword = none :=
        findKeyword_of_some hfrom
      rw [SqlRoute.firstTableName, hnone]
  | case3 sql bytes fromPos hfrom hstart =>
      rw [skipWhile_eq _ rfl] at hstart
      cases hstart
  | case4 sql bytes fromPos hfrom tableStart hstart hopen hclose =>
      rw [matchingParen_eq_some] at hclose
      cases hclose
  | case5 sql bytes fromPos hfrom tableStart hstart hopen hclose =>
      rw [firstTableName_of_findKeyword (findKeyword_of_some hfrom) (eq_of_skipWhile hstart),
        if_pos hopen, matchingParen_of_some hclose]
      rfl
  | case6 sql bytes fromPos hfrom tableStart hstart hopen closePos hclose hslice =>
      obtain ⟨inner, hinner, -⟩ := slice_subquery hopen (matchingParen_of_some hclose)
      rw [hinner] at hslice
      cases hslice
  | case7 sql bytes fromPos hfrom tableStart hstart hopen closePos hclose inner hslice ih =>
      obtain ⟨inner', hinner, hbytes⟩ := slice_subquery hopen (matchingParen_of_some hclose)
      rw [hslice] at hinner
      cases hinner
      rw [ih, hbytes, firstTableName_of_findKeyword (findKeyword_of_some hfrom)
        (eq_of_skipWhile hstart), if_pos hopen, matchingParen_of_some hclose, Option.bind_some]
  | case8 sql bytes fromPos hfrom tableStart hstart hopen hslice =>
      obtain ⟨tail, table, htail, -, -⟩ :=
        slice_table (isCut_tableStart (findKeyword_of_some hfrom) (eq_of_skipWhile hstart))
      rw [htail] at hslice
      cases hslice
  | case9 sql bytes fromPos hfrom tableStart hstart hopen tail hslice tableEnd hslice' =>
      obtain ⟨tail', table, htail, htable, -⟩ :=
        slice_table (isCut_tableStart (findKeyword_of_some hfrom) (eq_of_skipWhile hstart))
      rw [hslice] at htail
      cases htail
      rw [htable] at hslice'
      cases hslice'
  | case10 sql bytes fromPos hfrom tableStart hstart hopen tail hslice tableEnd table hslice'
      trimmed =>
      obtain ⟨tail', table', htail, htable, hbytes⟩ :=
        slice_table (isCut_tableStart (findKeyword_of_some hfrom) (eq_of_skipWhile hstart))
      rw [hslice] at htail
      cases htail
      rw [htable] at hslice'
      cases hslice'
      rw [firstTableName_of_findKeyword (findKeyword_of_some hfrom) (eq_of_skipWhile hstart),
        if_neg hopen]
      simp only [trimmed, hbytes, bytes]

/-! ## Stripping the prefix -/

/-- `i.checked_sub(1).map(|p| bytes[p])`. -/
def readBefore (bytes : List UInt8) : Nat → Option (Option UInt8)
  | 0 => some none
  | p + 1 => (bytes[p]?).map some

/-- The test for a prefix at an index: the byte before, the slice that may be the name, the
byte behind it, and the one behind that. -/
def prefixHere (bytes name : List UInt8) (i : Nat) : Option Bool :=
  match readBefore bytes i with
  | none => none
  | some prev =>
      if isBoundary prev ∧ i + name.length < bytes.length then
        match sliceOf bytes i (i + name.length) with
        | none => none
        | some word =>
            if word = name then
              match bytes[i + name.length]? with
              | none => none
              | some dot =>
                  some (dot == '.'.toUInt8 && (bytes[i + name.length + 1]?).any isFollow)
            else some false
      else some false

/-- The loop of `strip_provider_prefix`. -/
def stripLoop (sql : List Char) (name : List UInt8) (i : Nat) (out : List Char) :
    Option (List Char) :=
  if _hi : i < (asBytes sql).length then
    match _hregion : regionEnd .strip (asBytes sql) i with
    | none => none
    | some (some i') =>
        match slice sql i i' with
        | none => none
        | some region => stripLoop sql name i' (out ++ region)
    | some none =>
        match prefixHere (asBytes sql) name i with
        | none => none
        | some true => stripLoop sql name (i + name.length + 1) out
        | some false =>
            match (asBytes sql)[i]? with
            | none => none
            | some b => stripLoop sql name (i + 1) (out ++ [byteAsChar b])
  else some out
termination_by (asBytes sql).length - i
decreasing_by
  · have hlt := lt_of_regionEnd _hi _hregion
    omega
  all_goals omega

/-- `strip_provider_prefix`. -/
def stripProviderPrefix (sql name : List Char) : Option (List Char) :=
  if name = [] then some sql else stripLoop sql (asBytes name) 0 []

/-! ### Nothing stops it -/

section Stripping

variable {bytes rest : List UInt8} {i : Nat} {b : UInt8}

theorem readBefore_eq (hle : i ≤ bytes.length) : readBefore bytes i = some (byteBefore bytes i) := by
  cases i with
  | zero => rfl
  | succ p => simp only [readBefore, byteBefore, List.getElem?_eq_getElem hle, Option.map_some]

theorem prefixHere_eq (name : List UInt8) (h : bytes.drop i = b :: rest) :
    prefixHere bytes name i =
      some (isBoundary (byteBefore bytes i) && prefixAt name (b :: rest)) := by
  obtain ⟨hlt, -, -⟩ := of_drop_eq_cons h
  have hroom : i + name.length < bytes.length ↔ name.length < (b :: rest).length :=
    add_le_length_iff h hlt (name.length + 1)
  have hbehind : ∀ k, bytes[i + k]? = ((b :: rest).drop k).head? := by
    intro k
    rw [← h, List.drop_drop, List.head?_drop]
  have hbehind' : bytes[i + name.length + 1]? = ((b :: rest).drop (name.length + 1)).head? :=
    hbehind (name.length + 1)
  simp only [prefixHere, readBefore_eq hlt.le, hroom, hbehind, hbehind']
  cases hboundary : isBoundary (byteBefore bytes i) with
  | false => simp
  | true =>
      by_cases hlen : name.length < (b :: rest).length
      · rw [if_pos ⟨rfl, hlen⟩, sliceOf_add h hlt hlen.le]
        simp only [prefixAt, hlen, decide_true, Bool.true_and]
        by_cases hword : (b :: rest).take name.length = name
        · simp only [if_pos hword, beq_iff_eq.mpr hword, Bool.true_and]
          rw [List.head?_drop, List.getElem?_eq_getElem hlen]
          simp
        · simp [hword]
      · rw [if_neg fun h => hlen h.2, prefixAt, decide_eq_false hlen]
        rfl

/-- Bytes to be copied are copied, and the index is further on. -/
theorem stripFrom_copy (bytes name : List UInt8) (copy i : Nat) :
    stripFrom name copy 0 (byteBefore bytes i) (bytes.drop i) =
      (bytes.drop i).take copy ++
        stripFrom name 0 0 (byteBefore bytes (i + copy)) (bytes.drop (i + copy)) := by
  induction copy generalizing i with
  | zero => simp
  | succ copy ih =>
      cases hdrop : bytes.drop i with
      | nil =>
          have hnil : bytes.drop (i + (copy + 1)) = [] := by
            rw [← List.drop_drop, hdrop, List.drop_nil]
          rw [hnil, stripFrom, stripFrom]
          rfl
      | cons b rest =>
          have hrest := (of_drop_eq_cons hdrop).2.2
          have hstep := ih (i + 1)
          rw [byteBefore_succ hdrop, hrest] at hstep
          have hpos : i + (copy + 1) = i + 1 + copy := by omega
          rw [stripFrom, hstep, hpos, List.take_succ_cons, List.cons_append]

/-- Bytes to be left out are an index further on. -/
theorem stripFrom_leave (bytes name : List UInt8) (drop i : Nat) :
    stripFrom name 0 drop (byteBefore bytes i) (bytes.drop i) =
      stripFrom name 0 0 (byteBefore bytes (i + drop)) (bytes.drop (i + drop)) := by
  induction drop generalizing i with
  | zero => rfl
  | succ drop ih =>
      cases hdrop : bytes.drop i with
      | nil =>
          have hnil : bytes.drop (i + (drop + 1)) = [] := by
            rw [← List.drop_drop, hdrop, List.drop_nil]
          rw [hnil, stripFrom, stripFrom]
      | cons b rest =>
          have hrest := (of_drop_eq_cons hdrop).2.2
          have hstep := ih (i + 1)
          rw [byteBefore_succ hdrop, hrest] at hstep
          have hpos : i + (drop + 1) = i + 1 + drop := by omega
          rw [stripFrom, hstep, hpos]

/-- The bytes of a byte taken for a character. -/
theorem asBytes_byteAsChar (b : UInt8) : asBytes [byteAsChar b] = charBytes b :=
  forall_byte (P := fun b => asBytes [byteAsChar b] = charBytes b) (by decide +kernel) b

end Stripping

theorem stripLoop_eq (sql : List Char) (name : List UInt8) (i : Nat) (out : List Char) :
    ∃ stripped, stripLoop sql name i out = some (out ++ stripped) ∧
      asBytes stripped =
        stripFrom name 0 0 (byteBefore (asBytes sql) i) ((asBytes sql).drop i) := by
  fun_induction stripLoop sql name i out with
  | case1 i out hi hregion =>
      exact absurd hregion (regionEnd_ne_none _ hi)
  | case2 i out hi i' hregion hslice =>
      obtain ⟨b, rest, n, hdrop, hskip, rfl⟩ := of_regionEnd_region hi hregion
      obtain ⟨region, hregion', -⟩ := slice_region hdrop hskip
      rw [hregion'] at hslice
      cases hslice
  | case3 i out hi i' hregion region hslice ih =>
      obtain ⟨b, rest, n, hdrop, hskip, rfl⟩ := of_regionEnd_region hi hregion
      obtain ⟨region', hregion', hbytes⟩ := slice_region hdrop hskip
      rw [hslice] at hregion'
      cases hregion'
      obtain ⟨stripped, hstripped, htail⟩ := ih
      refine ⟨region ++ stripped, by rw [hstripped, List.append_assoc], ?_⟩
      have hskip' : stripSkip b rest = some n := hskip
      have hcopy := stripFrom_copy (asBytes sql) name n (i + 1)
      rw [byteBefore_succ hdrop, (of_drop_eq_cons hdrop).2.2] at hcopy
      rw [asBytes_append, hbytes, htail, hdrop, stripFrom, hskip']
      simp only [hcopy, List.cons_append]
  | case4 i out hi hregion hprefix =>
      obtain ⟨b, rest, hdrop, -⟩ := of_regionEnd_code hi hregion
      rw [prefixHere_eq name hdrop] at hprefix
      cases hprefix
  | case5 i out hi hregion hprefix ih =>
      obtain ⟨b, rest, hdrop, hskip⟩ := of_regionEnd_code hi hregion
      have hskip' : stripSkip b rest = none := hskip
      rw [prefixHere_eq name hdrop] at hprefix
      obtain ⟨stripped, hstripped, htail⟩ := ih
      refine ⟨stripped, hstripped, ?_⟩
      have hleave := stripFrom_leave (asBytes sql) name name.length (i + 1)
      rw [byteBefore_succ hdrop, (of_drop_eq_cons hdrop).2.2] at hleave
      have hpos : i + name.length + 1 = i + 1 + name.length := by omega
      rw [htail, hdrop, stripFrom, hskip', hpos]
      simp only [if_pos (Option.some.inj hprefix), hleave]
  | case6 i out hi hregion hprefix hget =>
      rw [List.getElem?_eq_getElem hi] at hget
      cases hget
  | case7 i out hi hregion hprefix b hget ih =>
      obtain ⟨rest, hdrop, hskip⟩ := of_regionEnd_read hi hregion hget
      have hskip' : stripSkip b rest = none := hskip
      rw [prefixHere_eq name hdrop] at hprefix
      obtain ⟨stripped, hstripped, htail⟩ := ih
      refine ⟨byteAsChar b :: stripped, by rw [hstripped, List.append_assoc]; rfl, ?_⟩
      have hfirst : asBytes (byteAsChar b :: stripped) =
          asBytes [byteAsChar b] ++ asBytes stripped := by
        rw [← asBytes_append]
        rfl
      rw [hfirst, asBytes_byteAsChar, htail, byteBefore_succ hdrop, (of_drop_eq_cons hdrop).2.2,
        hdrop, stripFrom, hskip']
      simp [Option.some.inj hprefix]
  | case8 i out hi =>
      refine ⟨[], by simp, ?_⟩
      rw [List.drop_of_length_le (Nat.le_of_not_lt hi), stripFrom]
      rfl

theorem stripProviderPrefix_eq_some (sql name : List Char) :
    ∃ stripped, stripProviderPrefix sql name = some stripped ∧
      asBytes stripped = SqlRoute.stripProviderPrefix (asBytes sql) (asBytes name) := by
  rw [stripProviderPrefix, SqlRoute.stripProviderPrefix]
  have hempty : asBytes name = [] ↔ name = [] := by
    rw [← List.length_eq_zero_iff, length_asBytes, byteLength_eq_zero_iff]
  by_cases hname : name = []
  · rw [if_pos hname, if_pos (hempty.mpr hname)]
    exact ⟨sql, rfl, rfl⟩
  · rw [if_neg hname, if_neg fun h => hname (hempty.mp h)]
    exact stripLoop_eq sql (asBytes name) 0 []

end WpKnowledge.SqlRoute.Indexed
