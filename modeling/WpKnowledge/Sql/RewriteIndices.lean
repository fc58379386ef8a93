import WpKnowledge.Sql.Lexical
import WpKnowledge.Sql.RewriteText
import WpKnowledge.Sql.RouteIndices

/-!
# Rewriting by index

The two copies of `rewrite_sql` as they move an index through the bytes of the statement,
with the loops that copy a region byte by byte, the search for the tag of a dollar quote,
and the slices they cut out.  As for the routing scanners, {lit}`none` is where the program
stops; that may also be at a tag that is no text.

Main results:

- Theorem {lit}`Indexed.armAt_eq`: what one iteration outside a dollar quote does.
- Theorem {lit}`Indexed.rewriteSql_eq_some`: neither copy stops, and each returns what it
  does on lists of bytes.
- Theorem {lit}`sql_scanners_total`: the same for all scanners.
-/

namespace WpKnowledge.Indexed

open Foundation

/-! ## The tag of a dollar quote -/

/-- The loop of `parse_dollar_quote_tag`: the index it ends at, unless it meets a byte that
is no part of a tag. -/
def dollarTagLoop (input : List UInt8) (idx : Nat) : Option (Option Nat) :=
  if idx < input.length then
    match input[idx]? with
    | none => none
    | some b =>
        if b = '$'.toUInt8 then some (some idx)
        else if idx = 1 then
          if isDollarTagStart b then dollarTagLoop input (idx + 1) else some none
        else if isDollarTagContinue b then dollarTagLoop input (idx + 1)
        else some none
  else some (some idx)
termination_by input.length - idx

/-- The check after the loop. -/
def dollarTagEnd (input : List UInt8) (idx : Nat) : Option (Option Nat) :=
  if input.length ≤ idx then some none
  else
    match input[idx]? with
    | none => none
    | some b => if b = '$'.toUInt8 then some (some (idx + 1)) else some none

/-- `parse_dollar_quote_tag`. -/
def parseDollarQuoteTag (input : List UInt8) : Option (Option Nat) :=
  if input.head? = some '$'.toUInt8 then
    match dollarTagLoop input 1 with
    | none => none
    | some none => some none
    | some (some idx) => dollarTagEnd input idx
  else some none

theorem dollarTagLoop_bind_eq {input rest : List UInt8} {idx : Nat} (h : input.drop idx = rest) :
    ((dollarTagLoop input idx).bind fun found =>
        found.elim (some none) (dollarTagEnd input)) = some (dollarTagLength idx rest) := by
  induction rest generalizing idx with
  | nil =>
      have hend := not_lt_of_drop_eq_nil h
      rw [dollarTagLoop, if_neg hend, Option.bind_some, Option.elim_some, dollarTagEnd,
        if_pos (Nat.le_of_not_lt hend)]
      rfl
  | cons b rest ih =>
      obtain ⟨hlt, hget, hrest⟩ := of_drop_eq_cons h
      rw [dollarTagLoop, if_pos hlt, hget, dollarTagLength]
      by_cases hdollar : b = '$'.toUInt8
      · simp only [if_pos hdollar, Option.bind_some, Option.elim_some, dollarTagEnd,
          if_neg (Nat.not_le.mpr hlt), hget]
      · by_cases hone : idx = 1
        · by_cases hstart : isDollarTagStart b = true
          · simp only [if_neg hdollar, if_pos hone, if_pos hstart, ih hrest]
          · simp [hdollar, hone, hstart]
        · by_cases hcontinue : isDollarTagContinue b = true
          · simp only [if_neg hdollar, if_neg hone, if_pos hcontinue, ih hrest]
          · simp [hdollar, hone, hcontinue]

theorem parseDollarQuoteTag_eq_some (input : List UInt8) :
    parseDollarQuoteTag input = some (WpKnowledge.parseDollarQuoteTag input) := by
  cases input with
  | nil => rfl
  | cons b rest =>
      rw [parseDollarQuoteTag, WpKnowledge.parseDollarQuoteTag]
      by_cases hdollar : b = '$'.toUInt8
      · have htag := dollarTagLoop_bind_eq (rfl : (b :: rest).drop 1 = (b :: rest).drop 1)
        rw [List.drop_succ_cons, List.drop_zero] at htag
        rw [if_pos (by rw [hdollar]; rfl), if_pos hdollar, ← htag]
        cases dollarTagLoop (b :: rest) 1 with
        | none => rfl
        | some found => cases found <;> rfl
      · rw [if_neg (by simpa using hdollar), if_neg hdollar]

/-! ## The loops that copy a region -/

/-- The loop over a quoted region, from behind the opening quote. -/
def copyQuoted (quote : UInt8) (bytes : List UInt8) (i : Nat) (out : List Piece) :
    Option (Nat × List Piece) :=
  if i < bytes.length then
    match bytes[i]? with
    | none => none
    | some b =>
        if b = quote then
          if i + 1 < bytes.length then
            match bytes[i + 1]? with
            | none => none
            | some c =>
                if c = quote then
                  copyQuoted quote bytes (i + 2) (out ++ copied [b] ++ copied [quote])
                else some (i + 1, out ++ copied [b])
          else some (i + 1, out ++ copied [b])
        else copyQuoted quote bytes (i + 1) (out ++ copied [b])
  else some (i, out)
termination_by bytes.length - i

/-- The loop over a line comment, from behind its dashes. -/
def copyLine (bytes : List UInt8) (i : Nat) (out : List Piece) : Option (Nat × List Piece) :=
  if i < bytes.length then
    match bytes[i]? with
    | none => none
    | some b =>
        if b = '\n'.toUInt8 then some (i + 1, out ++ copied [b])
        else copyLine bytes (i + 1) (out ++ copied [b])
  else some (i, out)
termination_by bytes.length - i

/-- Whether there is a next byte and it satisfies the condition. -/
def nextIs (p : UInt8 → Bool) (bytes : List UInt8) (i : Nat) : Option Bool :=
  if i + 1 < bytes.length then (bytes[i + 1]?).map p else some false

/-- The loop over a block comment, from behind its opening. -/
def copyBlock (bytes : List UInt8) (i : Nat) (out : List Piece) : Option (Nat × List Piece) :=
  if i < bytes.length then
    match bytes[i]? with
    | none => none
    | some b =>
        if b = '*'.toUInt8 then
          match nextIs (· == '/'.toUInt8) bytes i with
          | none => none
          | some true => some (i + 2, out ++ copied [b] ++ copied ['/'.toUInt8])
          | some false => copyBlock bytes (i + 1) (out ++ copied [b])
        else copyBlock bytes (i + 1) (out ++ copied [b])
  else some (i, out)
termination_by bytes.length - i

section Copies

variable {bytes rest : List UInt8} {i : Nat}

@[simp]
theorem copied_append (xs ys : List UInt8) : copied (xs ++ ys) = copied xs ++ copied ys :=
  List.map_append

/-- Bytes copied after a byte are copied with it. -/
theorem append_copied_cons (out : List Piece) (b : UInt8) (xs : List UInt8) :
    out ++ copied [b] ++ copied xs = out ++ copied (b :: xs) := by
  rw [List.append_assoc, ← copied_append]
  rfl

theorem nextIs_eq (p : UInt8 → Bool) {b : UInt8} (h : bytes.drop i = b :: rest) :
    nextIs p bytes i = some (rest.head?.any p) := by
  obtain ⟨-, -, hrest⟩ := of_drop_eq_cons h
  rw [nextIs]
  cases rest with
  | nil => rw [if_neg (not_lt_of_drop_eq_nil hrest)]; rfl
  | cons c rest =>
      obtain ⟨hlt, hget, -⟩ := of_drop_eq_cons hrest
      rw [if_pos hlt, hget]
      rfl

theorem copyQuoted_eq (quote : UInt8) (h : bytes.drop i = rest) (out : List Piece) :
    copyQuoted quote bytes i out =
      some (i + quotedLength quote rest, out ++ copied (rest.take (quotedLength quote rest))) := by
  induction rest using quotedLength.induct quote generalizing i out with
  | case1 =>
      rw [copyQuoted, if_neg (not_lt_of_drop_eq_nil h)]
      simp [quotedLength, copied]
  | case2 =>
      obtain ⟨hlt, hget, hrest⟩ := of_drop_eq_cons h
      rw [copyQuoted, if_pos hlt, hget]
      simp [not_lt_of_drop_eq_nil hrest, quotedLength]
  | case3 rest ih =>
      obtain ⟨hlt, hget, hrest⟩ := of_drop_eq_cons h
      obtain ⟨hlt', hget', hrest'⟩ := of_drop_eq_cons hrest
      have hlen : quotedLength quote (quote :: quote :: rest) = quotedLength quote rest + 1 + 1 := by
        simp only [quotedLength, if_true]
        omega
      rw [copyQuoted, if_pos hlt, hget]
      simp only [if_true, hlt', hget', ih hrest', hlen, Option.some.injEq, Prod.mk.injEq]
      refine ⟨by omega, ?_⟩
      rw [append_copied_cons, append_copied_cons, List.take_succ_cons, List.take_succ_cons]
  | case4 c rest hne =>
      obtain ⟨hlt, hget, hrest⟩ := of_drop_eq_cons h
      obtain ⟨hlt', hget', -⟩ := of_drop_eq_cons hrest
      rw [copyQuoted, if_pos hlt, hget]
      simp only [if_true, if_pos hlt', hget', if_neg hne, quotedLength, List.take_succ_cons,
        List.take_zero]
  | case5 b rest hne ih =>
      obtain ⟨hlt, hget, hrest⟩ := of_drop_eq_cons h
      have hlen : quotedLength quote (b :: rest) = quotedLength quote rest + 1 := by
        cases rest <;> simp [quotedLength, hne, Nat.add_comm]
      rw [copyQuoted, if_pos hlt, hget]
      simp only [if_neg hne, ih hrest, hlen, List.take_succ_cons, append_copied_cons,
        Option.some.injEq, Prod.mk.injEq, and_true]
      omega

theorem copyLine_eq (h : bytes.drop i = rest) (out : List Piece) :
    copyLine bytes i out =
      some (i + lineCommentLength rest, out ++ copied (rest.take (lineCommentLength rest))) := by
  induction rest generalizing i out with
  | nil =>
      rw [copyLine, if_neg (not_lt_of_drop_eq_nil h)]
      simp [lineCommentLength, copied]
  | cons b rest ih =>
      obtain ⟨hlt, hget, hrest⟩ := of_drop_eq_cons h
      rw [copyLine, if_pos hlt, hget, lineCommentLength]
      by_cases hb : b = '\n'.toUInt8
      · simp only [if_pos hb, List.take_succ_cons, List.take_zero]
      · simp only [if_neg hb, ih hrest, Nat.add_comm 1, List.take_succ_cons, append_copied_cons,
          Option.some.injEq, Prod.mk.injEq, and_true]
        omega

theorem copyBlock_eq (h : bytes.drop i = rest) (out : List Piece) :
    copyBlock bytes i out =
      some (i + blockCommentLength rest, out ++ copied (rest.take (blockCommentLength rest))) := by
  induction rest generalizing i out with
  | nil =>
      rw [copyBlock, if_neg (not_lt_of_drop_eq_nil h)]
      simp [blockCommentLength, copied]
  | cons b rest ih =>
      obtain ⟨hlt, hget, hrest⟩ := of_drop_eq_cons h
      have hlater : ∀ {r}, r = copyBlock bytes (i + 1) (out ++ copied [b]) →
          ¬ (b = '*'.toUInt8 ∧ rest.head? = some '/'.toUInt8) →
          r = some (i + blockCommentLength (b :: rest),
            out ++ copied ((b :: rest).take (blockCommentLength (b :: rest)))) := by
        rintro r rfl hopen
        rw [ih hrest, blockCommentLength, if_neg hopen]
        simp only [Nat.add_comm 1, List.take_succ_cons, append_copied_cons, Option.some.injEq,
          Prod.mk.injEq, and_true]
        omega
      rw [copyBlock, if_pos hlt, hget]
      by_cases hb : b = '*'.toUInt8
      · simp only [if_pos hb, nextIs_eq _ h]
        by_cases hnext : rest.head? = some '/'.toUInt8
        · obtain ⟨rest', rfl⟩ := List.head?_eq_some_iff.mp hnext
          simp [blockCommentLength, hb, copied]
        · cases hany : rest.head?.any (· == '/'.toUInt8) with
          | true =>
              obtain ⟨c, hc, hslash⟩ := (Option.any_eq_true _ _).mp hany
              exact absurd (by rw [hc, beq_iff_eq.mp hslash]) hnext
          | false => exact hlater rfl fun h => hnext h.2
      · simp only [if_neg hb]
        exact hlater rfl fun h => hb h.1

end Copies

/-! ## The loop -/

/-- What one iteration outside a dollar quote comes to: the index it leaves and what it has
written, with the tag if a dollar quote begins, or the name of a placeholder. -/
inductive Arm where
  | copied (i : Nat) (out : List Piece)
  | dollarQuote (i : Nat) (tag : List UInt8) (out : List Piece)
  | param (i : Nat) (rawName : List Char)

/-- The arms of the `match` on the byte at the index. -/
def armAt (sql : List Char) (i : Nat) (out : List Piece) : Option Arm :=
  let bytes := asBytes sql
  match bytes[i]? with
  | none => none
  | some b =>
      let other := some (Arm.copied (i + 1) (out ++ copied [b]))
      if b = '\''.toUInt8 ∨ b = '"'.toUInt8 then
        (copyQuoted b bytes (i + 1) (out ++ copied [b])).map fun r => .copied r.1 r.2
      else if b = '-'.toUInt8 then
        match nextIs (· == '-'.toUInt8) bytes i with
        | none => none
        | some true =>
            (copyLine bytes (i + 2) (out ++ copied [b, '-'.toUInt8])).map fun r => .copied r.1 r.2
        | some false => other
      else if b = '/'.toUInt8 then
        match nextIs (· == '*'.toUInt8) bytes i with
        | none => none
        | some true =>
            (copyBlock bytes (i + 2) (out ++ copied [b, '*'.toUInt8])).map fun r => .copied r.1 r.2
        | some false => other
      else if b = '$'.toUInt8 then
        match (sliceOf bytes i bytes.length).bind parseDollarQuoteTag with
        | none => none
        | some none => other
        | some (some tagLen) =>
            match sliceOf bytes i (i + tagLen) with
            | none => none
            | some tag =>
                (fromUtf8 tag).map fun text => .dollarQuote (i + tagLen) tag (out ++ text.map .text)
      else if b = ':'.toUInt8 then
        match nextIs (· == ':'.toUInt8) bytes i with
        | none => none
        | some true => some (.copied (i + 2) (out ++ copied [b, ':'.toUInt8]))
        | some false =>
            match nextIs isParamStart bytes i with
            | none => none
            | some false => other
            | some true =>
                match skipWhile isParamContinue bytes (i + 2) with
                | none => none
                | some stop => (slice sql i stop).map fun rawName => .param stop rawName
      else other

/-! ### Tags and names are text -/

theorem lt_of_isDollarTagContinue {b : UInt8} (h : isDollarTagContinue b = true) : b < 128 := by
  simp only [isDollarTagContinue, isDollarTagStart, Bool.or_eq_true, Bool.and_eq_true,
    decide_eq_true_eq, beq_iff_eq] at h
  grind

theorem lt_of_isParamContinue {b : UInt8} (h : isParamContinue b = true) : b < 128 := by
  simp only [isParamContinue, isParamStart, Bool.or_eq_true, Bool.and_eq_true,
    decide_eq_true_eq, beq_iff_eq] at h
  grind

/-- The tag of a dollar quote is ASCII. -/
theorem lt_of_mem_isDollarTag {tag : List UInt8} (h : IsDollarTag tag) : ∀ b ∈ tag, b < 128 := by
  cases h with
  | anonymous =>
      rw [List.forall_mem_cons, List.forall_mem_singleton]
      decide
  | @named a s ha hs =>
      intro b hb
      simp only [List.cons_append, List.mem_cons, List.mem_append, List.not_mem_nil, or_false] at hb
      rcases hb with rfl | rfl | hb | rfl
      · decide
      · exact lt_of_isDollarTagContinue (isDollarTagContinue_of_isDollarTagStart ha)
      · exact lt_of_isDollarTagContinue (hs b hb)
      · decide

/-- ASCII bytes written as a text are the bytes copied. -/
theorem map_text_eq_copied (bytes : List UInt8) :
    (bytes.map fun b => Char.ofNat b.toNat).map Piece.text = copied bytes := by
  rw [List.map_map]
  rfl

/-! ### One iteration -/

/-- What an iteration comes to on lists of bytes. -/
def Arm.ofRegion (i : Nat) (out : List Piece) (bytes : List UInt8) : Region → Arm
  | .copy n => .copied (i + n) (out ++ WpKnowledge.copied (bytes.take n))
  | .dollarQuote n => .dollarQuote (i + n) (bytes.take n) (out ++ WpKnowledge.copied (bytes.take n))
  | .param n => .param (i + n) ((bytes.take n).map byteAsChar)

/-- The byte behind is the given one. -/
theorem any_beq_iff {b : UInt8} {next : Option UInt8} :
    next.any (· == b) = true ↔ next = some b := by
  cases next <;> simp

/-- The bytes of a region are copied together with its opening. -/
theorem ofRegion_copy (i : Nat) (out : List Piece) (opening rest : List UInt8) (n : Nat) :
    Arm.ofRegion i out (opening ++ rest) (.copy (opening.length + n)) =
      .copied (i + opening.length + n) (out ++ copied opening ++ copied (rest.take n)) := by
  rw [Arm.ofRegion, List.take_length_add_append, copied_append, List.append_assoc, Nat.add_assoc]

section Iteration

variable {sql : List Char} {i : Nat} {rest : List UInt8}

/-- A quoted region is copied. -/
theorem armAt_quote {b : UInt8} (hb : b = '\''.toUInt8 ∨ b = '"'.toUInt8)
    (h : (asBytes sql).drop i = b :: rest) (out : List Piece) :
    armAt sql i out = some (Arm.ofRegion i out (b :: rest) (regionAt b rest)) := by
  obtain ⟨-, hget, hrest⟩ := of_drop_eq_cons h
  have hregion : regionAt b rest = .copy ([b].length + quotedLength b rest) := by
    rcases hb with rfl | rfl <;> rfl
  have hcopied := ofRegion_copy i out [b] rest (quotedLength b rest)
  rw [List.singleton_append, List.length_singleton] at hcopied
  rw [armAt, hget, hregion, List.length_singleton, hcopied]
  simp only [if_pos hb, copyQuoted_eq b hrest, Option.map_some]

/-- Two dashes open a comment that is copied, and one is copied alone. -/
theorem armAt_dash (h : (asBytes sql).drop i = '-'.toUInt8 :: rest) (out : List Piece) :
    armAt sql i out =
      some (Arm.ofRegion i out ('-'.toUInt8 :: rest) (regionAt '-'.toUInt8 rest)) := by
  obtain ⟨-, hget, hrest⟩ := of_drop_eq_cons h
  rw [armAt, hget]
  simp only [nextIs_eq _ h]
  rw [if_neg (by decide), if_pos trivial]
  by_cases hnext : rest.head? = some '-'.toUInt8
  · obtain ⟨rest', rfl⟩ := List.head?_eq_some_iff.mp hnext
    obtain ⟨-, -, hrest'⟩ := of_drop_eq_cons hrest
    rw [any_beq_iff.mpr hnext, copyLine_eq hrest']
    exact congrArg some (ofRegion_copy i out ['-'.toUInt8, '-'.toUInt8] rest' _).symm
  · have hregion : regionAt '-'.toUInt8 rest = .copy 1 := by
      rw [regionAt, if_neg (by decide), if_neg (by decide), if_neg fun hboth => hnext hboth.2]
      rfl
    rw [hregion, Bool.eq_false_iff.mpr (mt any_beq_iff.mp hnext)]
    rfl

/-- A slash and a star open a comment that is copied, and a slash is copied alone. -/
theorem armAt_slash (h : (asBytes sql).drop i = '/'.toUInt8 :: rest) (out : List Piece) :
    armAt sql i out =
      some (Arm.ofRegion i out ('/'.toUInt8 :: rest) (regionAt '/'.toUInt8 rest)) := by
  obtain ⟨-, hget, hrest⟩ := of_drop_eq_cons h
  rw [armAt, hget]
  simp only [nextIs_eq _ h]
  rw [if_neg (by decide), if_neg (by decide), if_pos trivial]
  by_cases hnext : rest.head? = some '*'.toUInt8
  · obtain ⟨rest', rfl⟩ := List.head?_eq_some_iff.mp hnext
    obtain ⟨-, -, hrest'⟩ := of_drop_eq_cons hrest
    rw [any_beq_iff.mpr hnext, copyBlock_eq hrest']
    exact congrArg some (ofRegion_copy i out ['/'.toUInt8, '*'.toUInt8] rest' _).symm
  · have hregion : regionAt '/'.toUInt8 rest = .copy 1 := by
      rw [regionAt, if_neg (by decide), if_neg (by decide),
        if_neg fun hboth => absurd hboth.1 (by decide), if_neg fun hboth => hnext hboth.2]
      rfl
    rw [hregion, Bool.eq_false_iff.mpr (mt any_beq_iff.mp hnext)]
    rfl

/-- A dollar sign opens a dollar quote if a tag is found, and is copied otherwise. -/
theorem armAt_dollar (h : (asBytes sql).drop i = '$'.toUInt8 :: rest) (out : List Piece) :
    armAt sql i out =
      some (Arm.ofRegion i out ('$'.toUInt8 :: rest) (regionAt '$'.toUInt8 rest)) := by
  obtain ⟨hlt, hget, -⟩ := of_drop_eq_cons h
  have hregion : regionAt '$'.toUInt8 rest =
      (WpKnowledge.parseDollarQuoteTag ('$'.toUInt8 :: rest)).elim (.copy 1) .dollarQuote := by
    rw [regionAt, if_neg (by decide), if_neg (by decide),
      if_neg fun hboth => absurd hboth.1 (by decide), if_neg fun hboth => absurd hboth.1 (by decide),
      if_pos rfl]
    cases WpKnowledge.parseDollarQuoteTag ('$'.toUInt8 :: rest) <;> rfl
  rw [armAt, hget, hregion]
  simp only
  rw [if_neg (by decide), if_neg (by decide), if_neg (by decide), if_pos trivial,
    sliceOf_length hlt.le, h, Option.bind_some, parseDollarQuoteTag_eq_some]
  cases hparse : WpKnowledge.parseDollarQuoteTag ('$'.toUInt8 :: rest) with
  | none => rfl
  | some n =>
      obtain ⟨tag, rest', hsplit, htag⟩ := exists_tag_of_parse hparse
      have hn : n = tag.length := by
        rw [hsplit, parseDollarQuoteTag_append htag] at hparse
        exact (Option.some.inj hparse).symm
      have htake : ('$'.toUInt8 :: rest).take n = tag := by
        rw [hsplit, hn, List.take_left]
      have hslice : sliceOf (asBytes sql) i (i + n) = some tag := by
        rw [sliceOf_add h hlt (by rw [hsplit, hn, List.length_append]; omega), htake]
      simp only [hslice, fromUtf8_of_ascii (lt_of_mem_isDollarTag htag), Option.map_some,
        map_text_eq_copied, Option.elim_some, Arm.ofRegion, htake]

/-- The name of a placeholder, with its colon, is cut out of the text. -/
theorem slice_param {c : UInt8} (hstart : isParamStart c = true)
    (h : (asBytes sql).drop i = ':'.toUInt8 :: c :: rest) :
    let n := 2 + (rest.takeWhile isParamContinue).length
    skipWhile isParamContinue (asBytes sql) (i + 2) = some (i + n) ∧
      slice sql i (i + n) = some (((':'.toUInt8 :: c :: rest).take n).map byteAsChar) := by
  intro n
  obtain ⟨-, -, hrest⟩ := of_drop_eq_cons h
  obtain ⟨-, -, hrest'⟩ := of_drop_eq_cons hrest
  have hlen : (':'.toUInt8 :: c :: rest.takeWhile isParamContinue).length = n := by
    rw [List.length_cons, List.length_cons]
    omega
  have hname : (':'.toUInt8 :: c :: rest).take n =
      ':'.toUInt8 :: c :: rest.takeWhile isParamContinue := by
    rw [← hlen, List.length_cons, List.length_cons, List.take_succ_cons, List.take_succ_cons,
      ← List.prefix_iff_eq_take.mp (List.takeWhile_prefix isParamContinue)]
  have hascii : ∀ b ∈ ':'.toUInt8 :: c :: rest.takeWhile isParamContinue, b < 128 := by
    intro b hb
    simp only [List.mem_cons] at hb
    rcases hb with rfl | rfl | hb
    · decide
    · exact lt_of_isParamContinue (by rw [isParamContinue, hstart, Bool.true_or])
    · exact lt_of_isParamContinue (List.all_eq_true.mp List.all_takeWhile b hb)
  have hdrop : (asBytes sql).drop i =
      (':'.toUInt8 :: c :: rest.takeWhile isParamContinue) ++
        rest.dropWhile isParamContinue := by
    rw [h, List.cons_append, List.cons_append, List.takeWhile_append_dropWhile]
  have hslice := slice_of_ascii hdrop (by simp) hascii
  rw [hlen] at hslice
  rw [skipWhile_eq isParamContinue hrest', hname, hslice]
  exact ⟨congrArg some (Nat.add_assoc i 2 _), rfl⟩

/-- A colon opens a cast or a placeholder, and is copied otherwise. -/
theorem armAt_colon (h : (asBytes sql).drop i = ':'.toUInt8 :: rest) (out : List Piece) :
    armAt sql i out =
      some (Arm.ofRegion i out (':'.toUInt8 :: rest) (regionAt ':'.toUInt8 rest)) := by
  obtain ⟨-, hget, -⟩ := of_drop_eq_cons h
  have hregion : regionAt ':'.toUInt8 rest =
      if rest.head? = some ':'.toUInt8 then .copy 2
      else if (rest.head?.map isParamStart).getD false then
        .param (2 + (rest.tail.takeWhile isParamContinue).length)
      else .copy 1 := by
    rw [regionAt, if_neg (by decide), if_neg (by decide),
      if_neg fun hboth => absurd hboth.1 (by decide), if_neg fun hboth => absurd hboth.1 (by decide),
      if_neg (by decide), if_pos rfl]
  rw [armAt, hget, hregion]
  simp only [nextIs_eq _ h]
  rw [if_neg (by decide), if_neg (by decide), if_neg (by decide), if_neg (by decide),
    if_pos trivial]
  by_cases hcast : rest.head? = some ':'.toUInt8
  · obtain ⟨rest', rfl⟩ := List.head?_eq_some_iff.mp hcast
    rw [any_beq_iff.mpr hcast, if_pos hcast]
    rfl
  · rw [Bool.eq_false_iff.mpr (mt any_beq_iff.mp hcast), if_neg hcast]
    cases rest with
    | nil => rfl
    | cons c rest =>
        simp only [List.head?_cons, Option.any_some, Option.map_some, Option.getD_some,
          List.tail_cons]
        by_cases hstart : isParamStart c = true
        · obtain ⟨hloop, hslice⟩ := slice_param hstart h
          simp only [hstart, hloop, hslice, Option.map_some, if_true, Arm.ofRegion]
        · simp only [hstart]
          rfl

/-- An iteration comes to what the region at the index says. -/
theorem armAt_eq {b : UInt8} (h : (asBytes sql).drop i = b :: rest) (out : List Piece) :
    armAt sql i out = some (Arm.ofRegion i out (b :: rest) (regionAt b rest)) := by
  by_cases hquote : b = '\''.toUInt8 ∨ b = '"'.toUInt8
  · exact armAt_quote hquote h out
  by_cases hdash : b = '-'.toUInt8
  · subst hdash
    exact armAt_dash h out
  by_cases hslash : b = '/'.toUInt8
  · subst hslash
    exact armAt_slash h out
  by_cases hdollar : b = '$'.toUInt8
  · subst hdollar
    exact armAt_dollar h out
  by_cases hcolon : b = ':'.toUInt8
  · subst hcolon
    exact armAt_colon h out
  have hregion : regionAt b rest = .copy 1 := by
    rw [regionAt, if_neg fun hb => hquote (.inl hb), if_neg fun hb => hquote (.inr hb),
      if_neg fun hboth => hdash hboth.1, if_neg fun hboth => hslash hboth.1, if_neg hdollar,
      if_neg hcolon]
  rw [armAt, (of_drop_eq_cons h).2.1, hregion]
  simp only [if_neg hquote, if_neg hdash, if_neg hslash, if_neg hdollar, if_neg hcolon]
  rfl

end Iteration

/-! ### All iterations -/

/-- The index an iteration leaves. -/
def Arm.next : Arm → Nat
  | copied i _ => i
  | dollarQuote i _ _ => i
  | param i _ => i

theorem Arm.next_ofRegion (i : Nat) (out : List Piece) (bytes : List UInt8) (region : Region) :
    (Arm.ofRegion i out bytes region).next = i + region.length := by
  cases region <;> rfl

/-- Every iteration moves the index forward. -/
theorem lt_of_armAt {sql : List Char} {i : Nat} {out : List Piece} {arm : Arm}
    (hi : i < (asBytes sql).length) (h : armAt sql i out = some arm) : i < arm.next := by
  obtain ⟨b, rest, hdrop⟩ := exists_drop_eq_cons hi
  have hpos := regionAt_length_pos b rest
  rw [armAt_eq hdrop] at h
  rw [← Option.some.inj h, Arm.next_ofRegion]
  omega

/-- The bytes behind a region. -/
theorem drop_pred_eq {bytes rest : List UInt8} {i n : Nat} {b : UInt8}
    (h : bytes.drop i = b :: rest) (hn : 0 < n) : rest.drop (n - 1) = bytes.drop (i + n) := by
  obtain ⟨-, -, hrest⟩ := of_drop_eq_cons h
  rw [← hrest, List.drop_drop]
  congr 1
  omega

/-- The opening tag of a dollar quote has the form of one. -/
theorem isDollarTag_of_regionAt {b : UInt8} {rest : List UInt8} {n : Nat}
    (h : regionAt b rest = .dollarQuote n) : IsDollarTag ((b :: rest).take n) := by
  have hparse : WpKnowledge.parseDollarQuoteTag (b :: rest) = some n := by
    unfold regionAt at h
    split_ifs at h
    all_goals grind
  obtain ⟨tag, rest', hsplit, htag⟩ := exists_tag_of_parse hparse
  rw [hsplit, parseDollarQuoteTag_append htag, Option.some.injEq] at hparse
  rwa [hsplit, ← hparse, List.take_left]

section Steps

variable {sql : List Char} {i i' : Nat} {b : UInt8} {rest : List UInt8} {out : List Piece}

/-- What an iteration comes to is what its region says. -/
theorem eq_of_armAt {arm : Arm} (hdrop : (asBytes sql).drop i = b :: rest)
    (h : armAt sql i out = some arm) : Arm.ofRegion i out (b :: rest) (regionAt b rest) = arm := by
  rw [armAt_eq hdrop] at h
  exact Option.some.inj h

theorem of_armAt_copied {out' : List Piece} (hdrop : (asBytes sql).drop i = b :: rest)
    (h : armAt sql i out = some (.copied i' out')) :
    ∃ n, regionAt b rest = .copy n ∧ 0 < n ∧ i' = i + n ∧
      out' = out ++ copied ((b :: rest).take n) := by
  have heq := eq_of_armAt hdrop h
  have hpos := regionAt_length_pos b rest
  cases hregion : regionAt b rest <;> rw [hregion] at heq hpos <;> cases heq
  exact ⟨_, rfl, hpos, rfl, rfl⟩

theorem of_armAt_dollarQuote {tag : List UInt8} {out' : List Piece}
    (hdrop : (asBytes sql).drop i = b :: rest)
    (h : armAt sql i out = some (.dollarQuote i' tag out')) :
    ∃ n, regionAt b rest = .dollarQuote n ∧ 0 < n ∧ i' = i + n ∧ tag = (b :: rest).take n ∧
      out' = out ++ copied ((b :: rest).take n) := by
  have heq := eq_of_armAt hdrop h
  have hpos := regionAt_length_pos b rest
  cases hregion : regionAt b rest <;> rw [hregion] at heq hpos <;> cases heq
  exact ⟨_, rfl, hpos, rfl, rfl, rfl⟩

theorem of_armAt_param {rawName : List Char} (hdrop : (asBytes sql).drop i = b :: rest)
    (h : armAt sql i out = some (.param i' rawName)) :
    ∃ n, regionAt b rest = .param n ∧ 0 < n ∧ i' = i + n ∧
      rawName = ((b :: rest).take n).map byteAsChar := by
  have heq := eq_of_armAt hdrop h
  have hpos := regionAt_length_pos b rest
  cases hregion : regionAt b rest <;> rw [hregion] at heq hpos <;> cases heq
  exact ⟨_, rfl, hpos, rfl, rfl⟩

end Steps

section Loop

variable {σ : Type} (dialect : Dialect σ) (byName : HashMap String DataField)

/-- The loop of `rewrite_sql`. -/
def rewriteLoop (sql : List Char) (i : Nat) (dollarTag : Option (List UInt8))
    (out : List Piece) (binds : σ) : Option (KnowledgeResult (List Piece × σ)) :=
  if _hi : i < (asBytes sql).length then
    match dollarTag with
    | some tag =>
        match sliceOf (asBytes sql) i (asBytes sql).length with
        | none => none
        | some rest =>
            if tag.isPrefixOf rest then
              match fromUtf8 tag with
              | none => none
              | some text => rewriteLoop sql (i + tag.length) none (out ++ text.map .text) binds
            else
              match (asBytes sql)[i]? with
              | none => none
              | some b => rewriteLoop sql (i + 1) (some tag) (out ++ copied [b]) binds
    | none =>
        match _harm : armAt sql i out with
        | none => none
        | some (.copied i' out') => rewriteLoop sql i' none out' binds
        | some (.dollarQuote i' tag out') => rewriteLoop sql i' (some tag) out' binds
        | some (.param i' name) =>
            let rawName := String.ofList name
            match byName.lookup rawName with
            | none => some (.error (dialect.missingParam rawName))
            | some field =>
                let (binds, marker) := dialect.bind binds rawName field
                rewriteLoop sql i' none (out ++ [.placeholder i rawName marker]) binds
  else some (.ok (out, binds))
-- a closing tag may be empty as far as the types go, but the loop leaves its mode then
termination_by 2 * ((asBytes sql).length - i) + dollarTag.isSome.toNat
decreasing_by
  · simp only [Option.isSome_some, Option.isSome_none, Bool.toNat_true, Bool.toNat_false]
    omega
  · simp only [Option.isSome_some, Bool.toNat_true]
    omega
  all_goals
    have hlt := lt_of_armAt _hi _harm
    simp only [Arm.next] at hlt
    simp only [Option.isSome_some, Option.isSome_none, Bool.toNat_true, Bool.toNat_false]
    omega

/-- The loop does not stop, and comes to what the one on lists of bytes does. -/
theorem rewriteLoop_eq (sql : List Char) (i : Nat) (dollarTag : Option (List UInt8))
    (out : List Piece) (binds : σ) (htag : ∀ tag ∈ dollarTag, IsDollarTag tag) :
    rewriteLoop dialect byName sql i dollarTag out binds =
      some (WpKnowledge.rewriteLoop dialect byName i ((asBytes sql).drop i) dollarTag out
        binds) := by
  fun_induction rewriteLoop dialect byName sql i dollarTag out binds with
  | case1 i out binds hi tag hslice =>
      rw [sliceOf_length hi.le] at hslice
      cases hslice
  | case2 i out binds hi tag rest hslice hprefix htext =>
      rw [fromUtf8_of_ascii (lt_of_mem_isDollarTag (htag tag rfl))] at htext
      cases htext
  | case3 i out binds hi tag rest hslice hprefix text htext ih =>
      obtain ⟨b, rest', hdrop⟩ := exists_drop_eq_cons hi
      have hrest : b :: rest' = rest := by
        rw [sliceOf_length hi.le, hdrop] at hslice
        exact Option.some.inj hslice
      have htag' := htag tag rfl
      rw [fromUtf8_of_ascii (lt_of_mem_isDollarTag htag')] at htext
      rw [ih (by simp), hdrop, WpKnowledge.rewriteLoop, ← Option.some.inj htext,
        map_text_eq_copied,
        drop_pred_eq hdrop (List.length_pos_iff.mpr htag'.ne_nil)]
      simp only [hrest, if_pos hprefix]
  | case4 i out binds hi tag rest hslice hprefix hget =>
      rw [List.getElem?_eq_getElem hi] at hget
      cases hget
  | case5 i out binds hi tag rest hslice hprefix b hget ih =>
      obtain ⟨b', rest', hdrop⟩ := exists_drop_eq_cons hi
      obtain ⟨-, hget', hrest'⟩ := of_drop_eq_cons hdrop
      obtain rfl : b = b' := Option.some.inj (hget.symm.trans hget')
      have hrest : b :: rest' = rest := by
        rw [sliceOf_length hi.le, hdrop] at hslice
        exact Option.some.inj hslice
      rw [ih htag, hdrop, WpKnowledge.rewriteLoop, hrest']
      simp only [hrest, if_neg hprefix]
  | case6 i out binds hi harm =>
      obtain ⟨b, rest, hdrop⟩ := exists_drop_eq_cons hi
      rw [armAt_eq hdrop] at harm
      cases harm
  | case7 i out binds hi i' out' harm ih =>
      obtain ⟨b, rest, hdrop⟩ := exists_drop_eq_cons hi
      obtain ⟨n, hregion, hn, rfl, rfl⟩ := of_armAt_copied hdrop harm
      rw [ih (by simp), hdrop, WpKnowledge.rewriteLoop]
      simp only [hregion, drop_pred_eq hdrop hn]
  | case8 i out binds hi i' tag out' harm ih =>
      obtain ⟨b, rest, hdrop⟩ := exists_drop_eq_cons hi
      obtain ⟨n, hregion, hn, rfl, rfl, rfl⟩ := of_armAt_dollarQuote hdrop harm
      have htag' : ∀ tag ∈ some ((b :: rest).take n), IsDollarTag tag := by
        intro tag heq
        rw [← Option.some.inj heq]
        exact isDollarTag_of_regionAt hregion
      rw [ih htag', hdrop, WpKnowledge.rewriteLoop]
      simp only [hregion, drop_pred_eq hdrop hn]
  | case9 i out binds hi i' name harm rawName hmissing =>
      obtain ⟨b, rest, hdrop⟩ := exists_drop_eq_cons hi
      obtain ⟨n, hregion, hn, rfl, rfl⟩ := of_armAt_param hdrop harm
      have hmissing' : byName.lookup (bytesAsString ((b :: rest).take n)) = none := hmissing
      rw [hdrop, WpKnowledge.rewriteLoop]
      simp only [hregion, hmissing']
      rfl
  | case10 i out binds hi i' name harm rawName field hfield binds' marker hbind ih =>
      obtain ⟨b, rest, hdrop⟩ := exists_drop_eq_cons hi
      obtain ⟨n, hregion, hn, rfl, rfl⟩ := of_armAt_param hdrop harm
      have hname : bytesAsString ((b :: rest).take n) = rawName := rfl
      have hfield' : byName.lookup (bytesAsString ((b :: rest).take n)) = some field := hfield
      rw [ih (by simp), hdrop, WpKnowledge.rewriteLoop]
      simp only [hregion, hfield', hname, hbind, drop_pred_eq hdrop hn]
  | case11 i dollarTag out binds hi =>
      rw [List.drop_of_length_le (Nat.le_of_not_lt hi), WpKnowledge.rewriteLoop]

end Loop

/-! ## The two copies -/

section Rewrite

variable {σ : Type} (dialect : Dialect σ)

/-- `rewrite_sql`, for either dialect. -/
def rewriteSql (sql : List Char) (params : List DataField) :
    Option (KnowledgeResult (String × List DataField)) :=
  (rewriteLoop dialect (paramsByName params) sql 0 none [] dialect.init).map fun result =>
    result.map fun (out, binds) =>
      (Rewritten.text { out, ordered := dialect.ordered binds }, dialect.ordered binds)

theorem rewriteSql_eq (sql : String) (params : List DataField) :
    rewriteSql dialect sql.toList params =
      some ((dialect.rewrite sql params).map fun r => (r.text, r.ordered)) := by
  rw [rewriteSql, rewriteLoop_eq dialect _ _ 0 none [] _ (by simp), List.drop_zero,
    asBytes_toList, Dialect.rewrite, Option.map_some]
  cases WpKnowledge.rewriteLoop dialect (paramsByName params) 0 sql.toUTF8.toList none []
    dialect.init <;> rfl

end Rewrite

/-- `postgres::rewrite_sql`. -/
def postgresRewriteSql (sql : List Char) (params : List DataField) :
    Option (KnowledgeResult (String × List DataField)) :=
  rewriteSql Postgres.dialect sql params

/-- `mysql::rewrite_sql`. -/
def mysqlRewriteSql (sql : List Char) (params : List DataField) :
    Option (KnowledgeResult (String × List DataField)) :=
  rewriteSql Mysql.dialect sql params

/-- Neither copy stops, and each returns what it does on lists of bytes. -/
theorem rewriteSql_eq_some (sql : String) (params : List DataField) :
    postgresRewriteSql sql.toList params = some (Postgres.rewriteSql sql params) ∧
      mysqlRewriteSql sql.toList params = some (Mysql.rewriteSql sql params) := by
  rw [Postgres.rewriteSql_eq, Mysql.rewriteSql_eq]
  exact ⟨rewriteSql_eq Postgres.dialect sql params, rewriteSql_eq Mysql.dialect sql params⟩

end WpKnowledge.Indexed

namespace WpKnowledge

open Foundation (asBytes asBytes_toList)

/-- **The scanners are total.**  Whatever the statement, the name and the parameters, every
scanner comes to an end, and where it reads a byte, cuts out a slice or takes bytes for a
text there is nothing it stops at; it returns what it does on lists of bytes. -/
theorem sql_scanners_total (sql name : String) (keyword : List UInt8) (openPos : Nat)
    (params : List DataField) :
    SqlRoute.Indexed.findKeyword sql.toUTF8.toList keyword =
        some (SqlRoute.findKeyword sql.toUTF8.toList keyword) ∧
      SqlRoute.Indexed.matchingParen sql.toUTF8.toList openPos =
        some (SqlRoute.matchingParen sql.toUTF8.toList openPos) ∧
      SqlRoute.Indexed.firstTableName sql.toList =
        some (SqlRoute.firstTableName sql.toUTF8.toList) ∧
      (∃ stripped, SqlRoute.Indexed.stripProviderPrefix sql.toList name.toList = some stripped ∧
        asBytes stripped =
          SqlRoute.stripProviderPrefix sql.toUTF8.toList name.toUTF8.toList) ∧
      Indexed.postgresRewriteSql sql.toList params = some (Postgres.rewriteSql sql params) ∧
      Indexed.mysqlRewriteSql sql.toList params = some (Mysql.rewriteSql sql params) := by
  have htable := SqlRoute.Indexed.firstTableName_eq_some sql.toList
  have hstrip := SqlRoute.Indexed.stripProviderPrefix_eq_some sql.toList name.toList
  rw [asBytes_toList] at htable
  rw [asBytes_toList, asBytes_toList] at hstrip
  exact ⟨SqlRoute.Indexed.findKeyword_eq_some _ _, SqlRoute.Indexed.matchingParen_eq_some _ _,
    htable, hstrip, Indexed.rewriteSql_eq_some sql params⟩

end WpKnowledge
