import WpKnowledge.Sql.RouteStrip

/-!
# What stripping a prefix does to a table reference

The relation {lit}`Writes` says, byte by byte, what the stripping loop writes: a byte of a
region as it is, a byte of code as a character of its own, and nothing for a prefix.  It
holds for every name, also for one whose bytes open a region.  A reference is cut at the
first byte that ends it, and trimmed.

Main results:

- Theorem {lit}`writes_stripFrom`: the loop writes what the relation describes.
- Theorem {lit}`untouched_of_sameName`: if stripping changes a reference behind its prefix,
  what it leaves is another name, even after trimming.
- Theorem {lit}`Writes.not_sameName_kept`: a prefix that is kept is not what stands behind it.
-/

open Foundation

namespace WpKnowledge.SqlRoute

/-! ## Whitespace -/

/-- A text made of characters that are trimmed. -/
abbrev Blank (text : List UInt8) : Prop :=
  Words whitespaceChars text

theorem nil_notMem_whitespaceChars : [] ∉ whitespaceChars := by decide

theorem whitespaceChars_prefix_free :
    ∀ word ∈ whitespaceChars, ∀ other ∈ whitespaceChars, word <+: other → word = other := by
  decide

theorem whitespaceChars_suffix_free :
    ∀ word ∈ whitespaceChars, ∀ other ∈ whitespaceChars, word <:+ other → word = other := by
  decide

/-- The bytes of the characters that are trimmed. -/
def isBlankByte (byte : UInt8) : Bool :=
  whitespaceChars.any (·.contains byte)

/-- The first bytes of the characters that are trimmed. -/
def isBlankLead (byte : UInt8) : Bool :=
  whitespaceChars.any fun char => char.head? == some byte

theorem isBlankByte_of_blank {text : List UInt8} (h : Blank text) {b : UInt8} (hb : b ∈ text) :
    isBlankByte b = true := by
  obtain ⟨char, hchar, hmem⟩ := Words.exists_word_of_mem h hb
  exact List.any_eq_true.mpr ⟨char, hchar, by simpa using hmem⟩

theorem isBlankLead_of_blank {b : UInt8} {text : List UInt8} (h : Blank (b :: text)) :
    isBlankLead b = true := by
  obtain ⟨char, hchar, hpre⟩ := Words.exists_word_of_ne_nil h (by simp)
  refine List.any_eq_true.mpr ⟨char, hchar, ?_⟩
  cases char with
  | nil => exact absurd hchar nil_notMem_whitespaceChars
  | cons c char =>
      rw [(List.cons_prefix_cons.mp hpre).1]
      simp

/-- A text whose first byte begins no trimmed character has nothing to trim there. -/
theorem not_prefix_of_isBlankLead {b : UInt8} (hb : isBlankLead b = false) (text : List UInt8) :
    ∀ char ∈ whitespaceChars, ¬ char <+: b :: text := by
  intro char hchar hpre
  rw [← Bool.not_eq_true] at hb
  refine hb (List.any_eq_true.mpr ⟨char, hchar, ?_⟩)
  cases char with
  | nil => exact absurd hchar nil_notMem_whitespaceChars
  | cons c char =>
      rw [(List.cons_prefix_cons.mp hpre).1]
      simp

/-- The ASCII bytes among them. -/
theorem isBlankByte_ascii {b : UInt8} (h : isBlankByte b = true) (hlt : b < 128) :
    (9 ≤ b ∧ b ≤ 13) ∨ b = 32 := by
  have hchars : ∀ char ∈ whitespaceChars, ∀ b ∈ char, b < 128 → (9 ≤ b ∧ b ≤ 13) ∨ b = 32 := by
    simp [whitespaceChars]
  obtain ⟨char, hchar, hmem⟩ := List.any_eq_true.mp h
  exact hchars char hchar b (by simpa using hmem) hlt

/-- The first bytes of characters that are not ASCII. -/
theorem le_of_isBlankLead {b : UInt8} (h : isBlankLead b = true) (hwide : ¬ b < 128) :
    192 ≤ b := by
  have hchars : ∀ char ∈ whitespaceChars, ∀ b ∈ char.head?, b < 128 ∨ 192 ≤ b := by
    simp [whitespaceChars]
  obtain ⟨char, hchar, hhead⟩ := List.any_eq_true.mp h
  exact (hchars char hchar b (by simpa using hhead)).resolve_left hwide

theorem isBlankByte_of_isBlankLead {b : UInt8} (h : isBlankLead b = true) :
    isBlankByte b = true := by
  obtain ⟨char, hchar, hhead⟩ := List.any_eq_true.mp h
  refine List.any_eq_true.mpr ⟨char, hchar, ?_⟩
  simpa using List.mem_of_head? (eq_of_beq hhead)

theorem isBlankByte_of_isFollow {b : UInt8} (h : isFollow b = true) : isBlankByte b = false := by
  have hlt := lt_of_isFollow h
  rw [← Bool.not_eq_true]
  intro hblank
  have hascii := isBlankByte_ascii hblank hlt
  grind [isFollow_iff, isIdentByte_iff]

theorem isBlankLead_of_isFollow {b : UInt8} (h : isFollow b = true) : isBlankLead b = false := by
  rw [← Bool.not_eq_true]
  intro hlead
  exact Bool.false_ne_true ((isBlankByte_of_isFollow h).symm.trans
    (isBlankByte_of_isBlankLead hlead))

theorem isBlankByte_dot : isBlankByte '.'.toUInt8 ≠ true := by decide

/-- The characters of more than one byte have no ASCII byte. -/
theorem not_lt_of_mem_whitespaceChars :
    ∀ char ∈ whitespaceChars, 2 ≤ char.length → ∀ b ∈ char, ¬ b < 128 := by
  simp [whitespaceChars]

/-- What follows an ASCII byte in a blank text is blank. -/
theorem Blank.of_append {left text : List UInt8} (h : Blank (left ++ text))
    (hleft : ∀ b, left.getLast? = some b → b < 128) : Blank text := by
  generalize hwhole : left ++ text = whole at h
  induction h generalizing left with
  | nil =>
      rw [(List.append_eq_nil_iff.mp hwhole).2]
      exact .nil
  | @cons char rest hchar hrest ih =>
      rcases List.append_eq_append_iff.mp hwhole with ⟨d, rfl, rfl⟩ | ⟨d, rfl, hrest'⟩
      · cases hlast : left.getLast? with
        | none =>
            rw [List.getLast?_eq_none_iff.mp hlast] at hchar
            exact .cons hchar hrest
        | some b =>
            cases d with
            | nil => exact hrest
            | cons c d =>
                have hmem := List.mem_of_getLast? hlast
                have hlen : 2 ≤ (left ++ c :: d).length := by
                  have hpos := List.length_pos_of_mem hmem
                  simp only [List.length_append, List.length_cons]
                  omega
                exact absurd (hleft b hlast)
                  (not_lt_of_mem_whitespaceChars _ hchar hlen b (List.mem_append_left _ hmem))
      · refine ih ?_ hrest'.symm
        intro b hb
        refine hleft b ?_
        rw [List.getLast?_append, hb]
        rfl

/-- What trimming leaves of a text. -/
theorem exists_of_trim {text rest : List UInt8} (h : trim text = rest) :
    (∃ left right, Blank left ∧ Blank right ∧ text = left ++ (rest ++ right)) ∧
      ∀ char ∈ whitespaceChars, ¬ char <+: rest := by
  obtain ⟨⟨right, hright, hend⟩, -⟩ :=
    (trimEnd_eq_iff nil_notMem_whitespaceChars whitespaceChars_suffix_free).mp h
  obtain ⟨⟨left, hleft, hstart⟩, hno⟩ := trimStart_spec nil_notMem_whitespaceChars text
  rw [hend] at hstart hno
  refine ⟨⟨left, right, hleft, hright, hstart⟩, ?_⟩
  intro char hchar hpre
  exact hno char hchar (hpre.trans (List.prefix_append _ _))

/-- A text between blanks is what trimming leaves. -/
theorem trim_eq {left rest right : List UInt8} (hleft : Blank left) (hright : Blank right)
    (hstart : ∀ char ∈ whitespaceChars, ¬ char <+: rest ++ right)
    (hend : ∀ char ∈ whitespaceChars, ¬ char <:+ rest) : trim (left ++ (rest ++ right)) = rest := by
  rw [trim, trimStart_append nil_notMem_whitespaceChars whitespaceChars_prefix_free hleft hstart]
  exact (trimEnd_eq_iff nil_notMem_whitespaceChars whitespaceChars_suffix_free).mpr
    ⟨⟨right, hright, rfl⟩, hend⟩

/-! ## The bytes of a reference -/

/-- The bytes of a text up to the end of a table reference. -/
def tableBytes (bytes : List UInt8) : List UInt8 :=
  bytes.takeWhile fun b => !endsTable b

theorem tableToken_eq (tail : List Tagged) : tableToken tail = tableBytes (bytesOf tail) := rfl

theorem tableBytes_cons_of_ends {b : UInt8} (hb : endsTable b = true) (rest : List UInt8) :
    tableBytes (b :: rest) = [] :=
  List.takeWhile_cons_of_neg (by simpa using hb)

theorem tableBytes_cons {b : UInt8} (hb : endsTable b = false) (rest : List UInt8) :
    tableBytes (b :: rest) = b :: tableBytes rest :=
  List.takeWhile_cons_of_pos (by simpa using hb)

theorem tableBytes_append {left : List UInt8} (hleft : ∀ b ∈ left, endsTable b = false)
    (rest : List UInt8) : tableBytes (left ++ rest) = left ++ tableBytes rest := by
  induction left with
  | nil => rfl
  | cons b left ih =>
      rw [List.cons_append, tableBytes_cons (hleft b List.mem_cons_self),
        ih fun b hb => hleft b (List.mem_cons_of_mem _ hb)]
      rfl

/-- The bytes of a prefix do not end a reference. -/
theorem tableBytes_segment {name : List UInt8} (hends : ∀ b ∈ name, endsTable b = false)
    (rest : List UInt8) :
    tableBytes (name ++ '.'.toUInt8 :: rest) = name ++ '.'.toUInt8 :: tableBytes rest := by
  rw [tableBytes_append hends, tableBytes_cons (by decide)]

theorem endsTable_of_mem_tableBytes {bytes : List UInt8} {b : UInt8} (hb : b ∈ tableBytes bytes) :
    endsTable b = false := by
  simpa using List.all_eq_true.mp List.all_takeWhile b hb

/-- A text is its first reference and what ends it. -/
theorem exists_eq_tableBytes_append (bytes : List UInt8) :
    ∃ rest, bytes = tableBytes bytes ++ rest :=
  ⟨_, List.takeWhile_append_dropWhile.symm⟩

theorem exists_of_tableBytes_cons {bytes : List UInt8} {c : UInt8} {text : List UInt8}
    (h : tableBytes bytes = c :: text) : ∃ rest, bytes = c :: rest ∧ tableBytes rest = text := by
  cases bytes with
  | nil => cases h
  | cons b rest =>
      by_cases hb : endsTable b = true
      · rw [tableBytes_cons_of_ends hb] at h
        cases h
      · rw [tableBytes_cons (by simpa using hb)] at h
        exact ⟨rest, by rw [(List.cons.inj h).1], (List.cons.inj h).2⟩

theorem head?_of_tableBytes {bytes : List UInt8} {r : UInt8} {text : List UInt8}
    (h : tableBytes bytes = r :: text) : bytes.head? = some r := by
  obtain ⟨rest, rfl, -⟩ := exists_of_tableBytes_cons h
  rfl

theorem endsTable_of_isFollow {b : UInt8} (h : isFollow b = true) : endsTable b = false := by
  rcases isFollow_iff.mp h with hident | rfl | rfl | rfl
  · exact endsTable_of_isIdentByte hident
  · decide
  · decide
  · decide

theorem lt_of_endsTable {b : UInt8} (h : endsTable b = true) : b < 128 := by
  grind [endsTable_iff, isAsciiWhitespace_iff]

theorem endsTable_of_not_lt {b : UInt8} (h : ¬ b < 128) : endsTable b = false :=
  Bool.eq_false_iff.mpr fun hends => h (lt_of_endsTable hends)

/-- The characters written for bytes that do not end a reference do not end it. -/
theorem endsTable_of_mem_charBytes {b : UInt8} (hb : endsTable b = false) :
    ∀ c ∈ charBytes b, endsTable c = false := by
  intro c hc
  by_cases hlt : b < 128
  · rw [charBytes_of_lt hlt, List.mem_singleton] at hc
    rwa [hc]
  · obtain ⟨lead, tail, heq, hlead, htail⟩ := charBytes_of_not_lt hlt
    rw [heq] at hc
    rcases List.mem_pair.mp hc with rfl | rfl
    · exact endsTable_of_not_lt hlead
    · exact endsTable_of_not_lt htail

/-- A reference that goes on behind a prefix is not empty there. -/
theorem exists_tableBytes_of_follow {bytes : List UInt8} (h : (bytes.head?).any isFollow = true) :
    ∃ next rest, tableBytes bytes = next :: rest ∧ isFollow next = true := by
  cases bytes with
  | nil => cases h
  | cons b rest =>
      have hb : isFollow b = true := by simpa using h
      exact ⟨b, tableBytes rest, tableBytes_cons (endsTable_of_isFollow hb) rest, hb⟩

/-- Two ways to cut a text. -/
theorem append_cons_cases {α : Type} {left left' : List α} {a a' : α} {right right' : List α}
    (h : left ++ a :: right = left' ++ a' :: right') :
    (∃ mid, left' = left ++ a :: mid) ∨ (left = left' ∧ a = a' ∧ right = right') ∨
      ∃ mid, left = left' ++ a' :: mid := by
  rcases List.append_eq_append_iff.mp h with ⟨d, rfl, hd⟩ | ⟨d, rfl, hd⟩
  · cases d with
    | nil =>
        obtain ⟨rfl, rfl⟩ := List.cons.inj hd
        exact .inr (.inl ⟨by simp, rfl, rfl⟩)
    | cons b d =>
        rw [List.cons_append] at hd
        rw [(List.cons.inj hd).1]
        exact .inl ⟨d, rfl⟩
  · cases d with
    | nil =>
        obtain ⟨rfl, rfl⟩ := List.cons.inj hd
        exact .inr (.inl ⟨by simp, rfl, rfl⟩)
    | cons b d =>
        rw [List.cons_append] at hd
        rw [(List.cons.inj hd).1]
        exact .inr (.inr ⟨d, rfl⟩)

/-- A prefix in front of a text that ends in a blank is in front of the blank. -/
theorem exists_of_prefix_append {name : List UInt8} {text rest right : List UInt8}
    (hright : Blank right) (h : name ++ '.'.toUInt8 :: text = rest ++ right) :
    ∃ rest', rest = name ++ '.'.toUInt8 :: rest' ∧ text = rest' ++ right := by
  have h' : (name ++ ['.'.toUInt8]) ++ text = rest ++ right := by simpa using h
  rcases List.append_eq_append_iff.mp h' with ⟨d, rfl, rfl⟩ | ⟨d, hd, rfl⟩
  · exact ⟨d, by simp, rfl⟩
  · rcases List.eq_nil_or_concat d with rfl | ⟨d, c, rfl⟩
    · refine ⟨[], ?_, rfl⟩
      rw [List.append_nil] at hd
      exact hd.symm
    · rw [List.concat_eq_append, ← List.append_assoc] at hd
      have hc : c = '.'.toUInt8 := by
        have hlast := (List.append_inj' hd rfl).2
        exact (List.cons.inj hlast).1.symm
      have hmem : '.'.toUInt8 ∈ d.concat c ++ text := by simp [hc]
      exact absurd (isBlankByte_of_blank hright hmem) isBlankByte_dot

/-! ## What the loop writes -/

/-- What is written for a text that stands after the byte {lit}`prev`: {lit}`code` says that
the reading stands in code there. -/
inductive Writes (name : List UInt8) :
    Bool → Option UInt8 → List UInt8 → List UInt8 → Prop
  | nil (code : Bool) (prev : Option UInt8) : Writes name code prev [] []
  | region {code : Bool} {prev : Option UInt8} {b : UInt8} {rest out : List UInt8}
      (hopen : code = true → isOpener b = true) (hrest : Writes name false (some b) rest out) :
      Writes name code prev (b :: rest) (b :: out)
  | copy {code : Bool} {prev : Option UInt8} {b : UInt8} {rest out : List UInt8}
      (hrest : Writes name true (some b) rest out) :
      Writes name code prev (b :: rest) (charBytes b ++ out)
  | delete {code : Bool} {prev : Option UInt8} {rest out : List UInt8}
      (hprev : isBoundary prev = true) (hfollow : (rest.head?).any isFollow = true)
      (hrest : Writes name true (some '.'.toUInt8) rest out) :
      Writes name code prev (name ++ '.'.toUInt8 :: rest) out

/-- In a region there may be code. -/
theorem Writes.weaken {name : List UInt8} {code : Bool} {prev : Option UInt8}
    {bytes out : List UInt8} (h : Writes name code prev bytes out) :
    Writes name false prev bytes out := by
  cases h with
  | nil => exact .nil false prev
  | region _ hrest => exact .region (fun h => by cases h) hrest
  | copy hrest => exact .copy hrest
  | delete hprev hfollow hrest => exact .delete hprev hfollow hrest

theorem isOpener_of_stripSkip {b : UInt8} {rest : List UInt8} {n : Nat}
    (h : stripSkip b rest = some n) : isOpener b = true := by
  by_contra hopener
  rw [Bool.not_eq_true] at hopener
  rw [stripSkip_of_not_opener hopener] at h
  cases h

/-- The loop writes what the relation says. -/
theorem writes_stripFrom (name : List UInt8) (copy : Nat) (prev : Option UInt8)
    (bytes : List UInt8) :
    Writes name (copy == 0) prev bytes (stripFrom name copy 0 prev bytes) := by
  induction hlen : bytes.length using Nat.strong_induction_on generalizing copy prev bytes with
  | _ n ih =>
      cases bytes with
      | nil =>
          cases copy <;> exact .nil _ prev
      | cons b rest =>
          have hrest : rest.length < n := by
            rw [← hlen]
            exact Nat.lt_succ_self _
          cases copy with
          | succ copy => exact .region (fun h => by cases h) (ih _ hrest copy _ rest rfl).weaken
          | zero =>
              cases hskip : stripSkip b rest with
              | some m =>
                  rw [stripFrom, hskip]
                  exact .region (fun _ => isOpener_of_stripSkip hskip)
                    (ih _ hrest m _ rest rfl).weaken
              | none =>
                  by_cases hdelete : (isBoundary prev && prefixAt name (b :: rest)) = true
                  · obtain ⟨tail, heq, hfollow, hout⟩ := stripFrom_delete hskip hdelete
                    have hshort : tail.length < n := hlen ▸ length_lt_of_prefix heq
                    rw [hout, heq]
                    exact .delete (Bool.and_eq_true_iff.mp hdelete).1 hfollow
                      (ih _ hshort 0 _ tail rfl)
                  · rw [stripFrom, hskip]
                    simp only [if_neg hdelete]
                    exact .copy (ih _ hrest 0 _ rest rfl)

/-- Where no prefix can start the first byte is written, as it is or as two bytes. -/
theorem Writes.cases_of_not_boundary {name : List UInt8} {code : Bool} {prev : Option UInt8}
    {bytes out : List UInt8} (h : Writes name code prev bytes out)
    (hprev : isBoundary prev = false) :
    (bytes = [] ∧ out = []) ∨
    (∃ b rest out' code', bytes = b :: rest ∧ out = b :: out' ∧
      Writes name code' (some b) rest out') ∨
    (∃ b rest out', ¬ b < 128 ∧ bytes = b :: rest ∧ out = charBytes b ++ out' ∧
      Writes name true (some b) rest out') := by
  cases h with
  | nil => exact .inl ⟨rfl, rfl⟩
  | region _ hrest => exact .inr (.inl ⟨_, _, _, _, rfl, rfl, hrest⟩)
  | @copy _ _ b rest out hrest =>
      by_cases hb : b < 128
      · exact .inr (.inl ⟨b, rest, out, true, rfl, by rw [charBytes_of_lt hb]; rfl, hrest⟩)
      · exact .inr (.inr ⟨b, rest, out, hb, rfl, rfl, hrest⟩)
  | delete hboundary =>
      rw [hprev] at hboundary
      cases hboundary

/-! ## Texts that stripping changes -/

/-- Two texts are the same name: they agree up to blanks at their ends. -/
def SameName (text text' : List UInt8) : Prop :=
  ∃ rest right right', text = rest ++ right ∧ text' = rest ++ right' ∧ Blank right ∧ Blank right'

theorem SameName.symm {text text' : List UInt8} (h : SameName text text') :
    SameName text' text := by
  obtain ⟨rest, right, right', htext, htext', hright, hright'⟩ := h
  exact ⟨rest, right', right, htext', htext, hright', hright⟩

/-- The same names start with the same byte, unless they are blank. -/
theorem SameName.exists_cons {b : UInt8} {text text' : List UInt8} (h : SameName (b :: text) text')
    (hblank : ¬ Blank (b :: text)) : ∃ tail, text' = b :: tail ∧ SameName text tail := by
  obtain ⟨rest, right, right', htext, rfl, hright, hright'⟩ := h
  cases rest with
  | nil =>
      rw [List.nil_append] at htext
      exact absurd (htext ▸ hright) hblank
  | cons c rest =>
      obtain ⟨rfl, rfl⟩ := List.cons.inj htext
      exact ⟨rest ++ right', rfl, rest, right, right', rfl, rfl, hright, hright'⟩

theorem count_dot_of_blank {text : List UInt8} (h : Blank text) :
    text.count '.'.toUInt8 = 0 :=
  List.count_eq_zero.mpr fun hmem => isBlankByte_dot (isBlankByte_of_blank h hmem)

/-- The same names have the same dots. -/
theorem SameName.count_dot {text text' : List UInt8} (h : SameName text text') :
    text.count '.'.toUInt8 = text'.count '.'.toUInt8 := by
  obtain ⟨rest, right, right', rfl, rfl, hright, hright'⟩ := h
  rw [List.count_append, List.count_append, count_dot_of_blank hright, count_dot_of_blank hright']

/-! ### A prefix left out -/

theorem count_charBytes_of_not_lt {b c : UInt8} (hb : ¬ b < 128) (hc : c < 128) :
    (charBytes b).count c = 0 := by
  obtain ⟨lead, tail, heq, hlead, htail⟩ := charBytes_of_not_lt hb
  rw [heq]
  refine List.count_eq_zero.mpr fun hmem => ?_
  rcases List.mem_pair.mp hmem with rfl | rfl
  · exact hlead hc
  · exact htail hc

/-- The loop writes a dot less for every prefix, and all the ASCII bytes it reads where it
leaves no prefix out. -/
theorem Writes.count_dot_lt_or {name : List UInt8} (hends : ∀ b ∈ name, endsTable b = false)
    {code : Bool} {prev : Option UInt8} {bytes out : List UInt8}
    (h : Writes name code prev bytes out) :
    (tableBytes out).count '.'.toUInt8 < (tableBytes bytes).count '.'.toUInt8 ∨
      ∀ c < 128, (tableBytes out).count c = (tableBytes bytes).count c := by
  -- a byte that is written as it is
  have hkeep : ∀ {b : UInt8} {rest out : List UInt8},
      ((tableBytes out).count '.'.toUInt8 < (tableBytes rest).count '.'.toUInt8 ∨
        ∀ c < 128, (tableBytes out).count c = (tableBytes rest).count c) →
      (tableBytes (b :: out)).count '.'.toUInt8 < (tableBytes (b :: rest)).count '.'.toUInt8 ∨
        ∀ c < 128, (tableBytes (b :: out)).count c = (tableBytes (b :: rest)).count c := by
    intro b rest out ih
    by_cases hb : endsTable b = true
    · rw [tableBytes_cons_of_ends hb, tableBytes_cons_of_ends hb]
      exact .inr fun _ _ => rfl
    · rw [Bool.not_eq_true] at hb
      simp only [tableBytes_cons hb, List.count_cons]
      exact ih.imp (fun h => Nat.add_lt_add_right h _) fun h c hc => by rw [h c hc]
  induction h with
  | nil => exact .inr fun _ _ => rfl
  | region _ _ ih => exact hkeep ih
  | @copy code prev b rest out hrest ih =>
      by_cases hb : b < 128
      · rw [charBytes_of_lt hb]
        exact hkeep ih
      · have hends := endsTable_of_not_lt hb
        have hcount : ∀ c < 128, (tableBytes (charBytes b ++ out)).count c =
            (tableBytes out).count c ∧
              (tableBytes (b :: rest)).count c = (tableBytes rest).count c := by
          intro c hc
          have hne : b ≠ c := fun h => hb (h ▸ hc)
          rw [tableBytes_append (endsTable_of_mem_charBytes hends), List.count_append,
            count_charBytes_of_not_lt hb hc, Nat.zero_add, tableBytes_cons hends,
            List.count_cons_of_ne hne]
          exact ⟨rfl, rfl⟩
        rw [(hcount _ (by decide)).1, (hcount _ (by decide)).2]
        exact ih.imp_right fun h c hc => by rw [(hcount c hc).1, (hcount c hc).2, h c hc]
  | @delete code prev rest out _ _ _ ih =>
      left
      have hle : (tableBytes out).count '.'.toUInt8 ≤ (tableBytes rest).count '.'.toUInt8 :=
        ih.elim Nat.le_of_lt fun h => Nat.le_of_eq (h _ (by decide))
      rw [tableBytes_segment hends, List.count_append, List.count_cons_self]
      omega

theorem Writes.count_dot_le {name : List UInt8} (hends : ∀ b ∈ name, endsTable b = false)
    {code : Bool} {prev : Option UInt8} {bytes out : List UInt8}
    (h : Writes name code prev bytes out) :
    (tableBytes out).count '.'.toUInt8 ≤ (tableBytes bytes).count '.'.toUInt8 :=
  (h.count_dot_lt_or hends).elim Nat.le_of_lt fun h => Nat.le_of_eq (h _ (by decide))

/-- The text behind a prefix that is left out is another name than the prefix with it. -/
theorem Writes.not_sameName_prefix {name : List UInt8} (hends : ∀ b ∈ name, endsTable b = false)
    {code : Bool} {prev : Option UInt8} {bytes out queue : List UInt8}
    (h : Writes name code prev bytes out) (hqueue : '.'.toUInt8 ∉ queue) :
    ¬ SameName (tableBytes (name ++ '.'.toUInt8 :: bytes)) (queue ++ tableBytes out) := by
  intro hsame
  have hcount := hsame.count_dot
  rw [tableBytes_segment hends, List.count_append, List.count_cons_self, List.count_append,
    List.count_eq_zero.mpr hqueue] at hcount
  have hle := h.count_dot_le hends
  omega

/-! ### A byte written as two -/

/-- Bytes that two bytes are written for again and again, and that start no blank. -/
def isEchoByte (byte : UInt8) : Bool :=
  byte == 0xC2 || byte == 0xC3 || byte == 0x82 || byte == 0x83

theorem isEchoByte_iff {b : UInt8} :
    isEchoByte b = true ↔ b = 0xC2 ∨ b = 0xC3 ∨ b = 0x82 ∨ b = 0x83 := by
  simp only [isEchoByte, Bool.or_eq_true, beq_iff_eq, or_assoc]

theorem isEchoByte_charBytes {b : UInt8} (h : isEchoByte b = true) :
    (charBytes b).all isEchoByte = true ∧ charBytes b ≠ [] := by
  rcases isEchoByte_iff.mp h with rfl | rfl | rfl | rfl <;> decide

theorem lt_of_isEchoByte {b : UInt8} (h : isEchoByte b = true) : ¬ b < 128 := by
  grind [isEchoByte_iff]

theorem isOpener_of_isEchoByte {b : UInt8} (h : isEchoByte b = true) : isOpener b = false :=
  isOpener_of_not_lt (lt_of_isEchoByte h)

/-- A character that is trimmed and starts with such a byte goes on with one that starts
no character. -/
theorem exists_of_echo_lead :
    ∀ char ∈ whitespaceChars, ∀ b ∈ char.head?, isEchoByte b = true →
      ∃ c ∈ char.tail.head?, isEchoByte c = false ∧ ¬ c < 128 ∧ c < 192 := by
  simp [whitespaceChars, isEchoByte]

/-- The first byte written for a byte starts a character. -/
theorem charBytes_head {b c : UInt8} (h : (charBytes b).head? = some c) : c < 128 ∨ 192 ≤ c := by
  by_cases hlt : b < 128
  · rw [charBytes_of_lt hlt] at h
    exact .inl (Option.some.inj h ▸ hlt)
  · rw [charBytes_wide hlt] at h
    split at h
    · exact .inr (Option.some.inj h ▸ by decide)
    · exact .inr (Option.some.inj h ▸ by decide)

theorem charBytes_ne_nil (b : UInt8) : charBytes b ≠ [] := by
  rw [charBytes]
  split <;> simp

/-- Where the reading stands in code, what is written starts with a character. -/
theorem Writes.head_starts {name : List UInt8} {prev : Option UInt8} {bytes out : List UInt8}
    (h : Writes name true prev bytes out) {c : UInt8} (hc : out.head? = some c) :
    c < 128 ∨ 192 ≤ c := by
  cases h with
  | nil => cases hc
  | region hopen _ =>
      left
      by_contra hlt
      have hopen := hopen rfl
      rw [Option.some.inj hc, isOpener_of_not_lt hlt] at hopen
      cases hopen
  | @copy _ _ b rest out _ =>
      refine charBytes_head (b := b) ?_
      rwa [List.head?_append_of_ne_nil _ (charBytes_ne_nil b)] at hc
  | delete _ hfollow hrest =>
      rcases hrest.cases_of_not_boundary (by decide) with
        ⟨rfl, rfl⟩ | ⟨b, rest, out', -, rfl, rfl, -⟩ | ⟨b, rest, out', hb, rfl, rfl, -⟩
      · cases hc
      · rw [← Option.some.inj hc]
        exact .inl (lt_of_isFollow (by simpa using hfollow))
      · exact absurd (lt_of_isFollow (by simpa using hfollow)) hb

/-- A queue of such bytes in front of what is written is not blank. -/
theorem Writes.not_blank_echo {name : List UInt8} {prev : Option UInt8} {bytes out : List UInt8}
    (h : Writes name true prev bytes out) {queue : List UInt8} (hne : queue ≠ [])
    (hqueue : ∀ b ∈ queue, isEchoByte b = true) : ¬ Blank (queue ++ tableBytes out) := by
  intro hblank
  obtain ⟨b, left, rfl⟩ := List.exists_cons_of_ne_nil hne
  obtain ⟨char, hchar, hpre⟩ := Words.exists_word_of_ne_nil hblank (by simp)
  cases char with
  | nil => exact absurd hchar nil_notMem_whitespaceChars
  | cons d char =>
      rw [List.cons_append, List.cons_prefix_cons] at hpre
      obtain ⟨rfl, hpre⟩ := hpre
      obtain ⟨c, hc, hecho, hlt, hlt'⟩ :=
        exists_of_echo_lead _ hchar d rfl (hqueue d List.mem_cons_self)
      obtain ⟨char, rfl⟩ := List.head?_eq_some_iff.mp hc
      -- the second byte of the character is in the queue, or the first that is written
      cases left with
      | cons e left =>
          rw [List.cons_append, List.cons_prefix_cons] at hpre
          rw [hpre.1, hqueue e (by simp)] at hecho
          cases hecho
      | nil =>
          obtain ⟨tail, htail⟩ := hpre
          have hhead := head?_of_tableBytes (by simpa using htail.symm)
          rcases h.head_starts hhead with hstart | hstart
          · exact hlt hstart
          · exact absurd hlt' (UInt8.not_lt.mpr hstart)

/-- If what is written with such bytes in front of it is the same name as the text, the text
starts with the first of them. -/
theorem Writes.exists_of_echo {name : List UInt8} {prev : Option UInt8} {bytes out : List UInt8}
    (h : Writes name true prev bytes out) {queue : List UInt8} (hne : queue ≠ [])
    (hqueue : ∀ b ∈ queue, isEchoByte b = true)
    (hsame : SameName (tableBytes bytes) (queue ++ tableBytes out)) :
    ∃ b left rest, queue = b :: left ∧ bytes = b :: rest ∧
      SameName (tableBytes rest) (left ++ tableBytes out) := by
  obtain ⟨b, left, rfl⟩ := List.exists_cons_of_ne_nil hne
  obtain ⟨tail, htext, htail⟩ := hsame.symm.exists_cons (h.not_blank_echo hne hqueue)
  obtain ⟨rest, rfl, rfl⟩ := exists_of_tableBytes_cons htext
  exact ⟨b, left, rest, rfl, rfl, htail.symm⟩

/-- What is written with such bytes in front of it is not the same name as the text: to agree,
the text would have to start with these bytes, and what it starts with is put behind them, as
long or longer. -/
theorem Writes.not_sameName_echo {name : List UInt8} (hends : ∀ b ∈ name, endsTable b = false)
    {prev : Option UInt8} {bytes out : List UInt8} (h : Writes name true prev bytes out)
    {queue : List UInt8} (hne : queue ≠ []) (hqueue : ∀ b ∈ queue, isEchoByte b = true) :
    ¬ SameName (tableBytes bytes) (queue ++ tableBytes out) := by
  generalize hcode : true = code at h
  induction h generalizing queue with
  | nil code prev =>
      intro hsame
      have hnil : Writes name true prev [] [] := .nil true prev
      obtain ⟨b, left, rest, -, hcons, -⟩ := hnil.exists_of_echo hne hqueue hsame
      cases hcons
  | @region code prev b rest out hopen hrest ih =>
      intro hsame
      subst hcode
      obtain ⟨c, left, rest', rfl, hcons, -⟩ :=
        (Writes.region hopen hrest : Writes name true prev _ _).exists_of_echo hne hqueue hsame
      -- the byte opens a region, which none of these bytes does
      have hopen := hopen rfl
      rw [(List.cons.inj hcons).1, isOpener_of_isEchoByte (hqueue c List.mem_cons_self)] at hopen
      cases hopen
  | @copy code prev b rest out hrest ih =>
      intro hsame
      obtain ⟨c, left, rest', rfl, hcons, htail⟩ :=
        (Writes.copy hrest : Writes name true prev _ _).exists_of_echo hne hqueue hsame
      obtain ⟨rfl, rfl⟩ := List.cons.inj hcons
      have hb := hqueue b List.mem_cons_self
      obtain ⟨hall, hnil⟩ := isEchoByte_charBytes hb
      have hplain := endsTable_of_not_lt (lt_of_isEchoByte hb)
      rw [tableBytes_append (endsTable_of_mem_charBytes hplain), ← List.append_assoc] at htail
      refine ih (by simp [hnil]) ?_ rfl htail
      intro c hc
      rcases List.mem_append.mp hc with hc | hc
      · exact hqueue c (List.mem_cons_of_mem _ hc)
      · exact List.all_eq_true.mp hall c hc
  | @delete code prev rest out hprev hfollow hrest ih =>
      refine hrest.not_sameName_prefix hends fun hdot => ?_
      exact lt_of_isEchoByte (hqueue _ hdot) (by decide)

theorem eq_of_charBytes_head {b : UInt8} (hb : ¬ b < 128) (h : (charBytes b).head? = some b) :
    charBytes b = [0xC3, 0x83] := by
  rw [charBytes_wide hb] at h ⊢
  split at h
  · rename_i hlow
    rw [← Option.some.inj h] at hlow
    exact absurd hlow (by decide)
  · rw [← Option.some.inj h]
    decide

/-- The first byte written for the first byte of a character that is trimmed. -/
theorem charBytes_of_isBlankLead {b : UInt8} (hb : ¬ b < 128) (hlead : isBlankLead b = true) :
    charBytes b = [0xC3, b - 64] := by
  have hle := le_of_isBlankLead hlead hb
  rw [charBytes_wide hb, if_neg (UInt8.not_lt.mpr hle)]

/-- A byte of code that is not ASCII makes another name. -/
theorem Writes.not_sameName_wide {name : List UInt8} (hends : ∀ b ∈ name, endsTable b = false)
    {b : UInt8} (hb : ¬ b < 128) {bytes out : List UInt8}
    (h : Writes name true (some b) bytes out) :
    ¬ SameName (b :: tableBytes bytes) (charBytes b ++ tableBytes out) := by
  rintro ⟨rest, right, right', htext, htext', hright, hright'⟩
  obtain ⟨lead, tail, hchar, -, -⟩ := charBytes_of_not_lt hb
  rw [hchar] at htext'
  cases rest with
  | nil =>
      rw [List.nil_append] at htext htext'
      rw [List.cons_append] at htext'
      have hpair := charBytes_of_isBlankLead hb (isBlankLead_of_blank (htext ▸ hright))
      have hlead : lead = 0xC3 := (List.cons.inj (hchar.symm.trans hpair)).1
      have hblank := isBlankLead_of_blank (htext' ▸ hright')
      rw [hlead] at hblank
      cases hblank
  | cons c rest =>
      rw [List.cons_append] at htext htext'
      obtain ⟨hbc, hafter⟩ := List.cons.inj htext
      obtain ⟨hleadc, hafter'⟩ := List.cons.inj htext'
      have hhead : (charBytes b).head? = some b := by
        rw [hchar, hbc, ← hleadc]
        rfl
      have hpair := (hchar.symm.trans (eq_of_charBytes_head hb hhead))
      have htail : tail = 0x83 := (List.cons.inj (List.cons.inj hpair).2).1
      have hecho : ∀ b ∈ [tail], isEchoByte b = true := by
        rw [htail]
        simp [isEchoByte]
      exact h.not_sameName_echo hends (by simp) hecho
        ⟨rest, right, right', hafter, hafter', hright, hright'⟩

/-! ### A prefix that is kept -/

/-- A prefix in front of a dot, behind bytes that are no dots, ends at that dot. -/
theorem eq_append_of_dots {name left text rest tail : List UInt8} (hname : '.'.toUInt8 ∉ name)
    (htext : '.'.toUInt8 ∉ text)
    (h : text ++ '.'.toUInt8 :: rest = left ++ (name ++ '.'.toUInt8 :: tail))
    (hleft : '.'.toUInt8 ∉ left) : text = left ++ name ∧ rest = tail := by
  rw [← List.append_assoc] at h
  rcases append_cons_cases h with ⟨mid, hmid⟩ | ⟨hsame, -, hrest⟩ | ⟨mid, rfl⟩
  · have hdot : '.'.toUInt8 ∈ left ++ name := hmid ▸ by simp
    exact absurd hdot (by simp [hleft, hname])
  · exact ⟨hsame, hrest⟩
  · exact absurd htext (by simp)

/-- What is written for a text up to its first dot: all its bytes and the dot, or what is in
front of the prefix that ends there. -/
inductive WritesToDot (name text : List UInt8) (prev : Option UInt8) (rest out : List UInt8) :
    Prop
  | kept {code : Bool} {text' out' : List UInt8} (hout : out = text' ++ '.'.toUInt8 :: out')
      (hdot : '.'.toUInt8 ∉ text') (hends : ∀ b ∈ text', endsTable b = false)
      (hrest : Writes name code (some '.'.toUInt8) rest out') : WritesToDot name text prev rest out
  | leftOut {left left' out' : List UInt8} (htext : text = left ++ name)
      (hprev : left = [] → isBoundary prev = true) (hne : left ≠ [] → left' ≠ [])
      (hdot : '.'.toUInt8 ∉ left') (hends : ∀ b ∈ left', endsTable b = false)
      (hfollow : (rest.head?).any isFollow = true) (hout : out = left' ++ out')
      (hrest : Writes name true (some '.'.toUInt8) rest out') : WritesToDot name text prev rest out

/-- A byte in front is written, as it is or as two. -/
theorem WritesToDot.cons {name text rest out bytes : List UInt8} {b : UInt8}
    (h : WritesToDot name text (some b) rest out) (hne : bytes ≠ []) (hdot : '.'.toUInt8 ∉ bytes)
    (hends : ∀ c ∈ bytes, endsTable c = false) (prev : Option UInt8) :
    WritesToDot name (b :: text) prev rest (bytes ++ out) := by
  cases h with
  | kept hout htextDot htextEnds hrest =>
      refine .kept (by rw [hout, List.append_assoc]) ?_ ?_ hrest
      · exact fun hmem => (List.mem_append.mp hmem).elim hdot htextDot
      · exact fun c hc => (List.mem_append.mp hc).elim (hends c) (htextEnds c)
  | @leftOut left _ _ htext _ _ hleftDot hleftEnds hfollow hout hrest =>
      have htext' : b :: text = (b :: left) ++ name := congrArg (b :: ·) htext
      refine .leftOut htext' (fun hnil => absurd hnil (by simp)) ?_ ?_ ?_ hfollow
        (by rw [hout, List.append_assoc]) hrest
      · exact fun _ hnil => hne (List.append_eq_nil_iff.mp hnil).1
      · exact fun hmem => (List.mem_append.mp hmem).elim hdot hleftDot
      · exact fun c hc => (List.mem_append.mp hc).elim (hends c) (hleftEnds c)

theorem dot_notMem_charBytes {b : UInt8} (hb : b ≠ '.'.toUInt8) :
    '.'.toUInt8 ∉ charBytes b := by
  intro hmem
  by_cases hlt : b < 128
  · rw [charBytes_of_lt hlt, List.mem_singleton] at hmem
    exact hb hmem.symm
  · exact List.count_eq_zero.mp (count_charBytes_of_not_lt hlt (by decide)) hmem

theorem Writes.to_dot {name : List UInt8} (hname : SegmentName name) {text rest : List UInt8}
    (hdot : '.'.toUInt8 ∉ text) (hends : ∀ b ∈ text, endsTable b = false) {code : Bool}
    {prev : Option UInt8} {out : List UInt8}
    (h : Writes name code prev (text ++ '.'.toUInt8 :: rest) out) :
    WritesToDot name text prev rest out := by
  induction text generalizing code prev out with
  | nil =>
      rw [List.nil_append] at h
      generalize hbytes : '.'.toUInt8 :: rest = bytes at h
      cases h with
      | nil => cases hbytes
      | region _ hrest =>
          obtain ⟨rfl, rfl⟩ := List.cons.inj hbytes
          exact .kept (List.nil_append _).symm (by simp) (by simp) hrest
      | copy hrest =>
          obtain ⟨rfl, rfl⟩ := List.cons.inj hbytes
          exact .kept (List.nil_append _).symm (by simp) (by simp) hrest
      | delete _ _ _ => exact absurd (hname.mem_head hbytes) hname.dot
  | cons b text ih =>
      have hb : b ≠ '.'.toUInt8 := fun h => hdot (h ▸ List.mem_cons_self)
      have hbEnds := hends b List.mem_cons_self
      have hlater := fun {code : Bool} {out : List UInt8} =>
        @ih (fun hmem => hdot (List.mem_cons_of_mem _ hmem))
          (fun b hb => hends b (List.mem_cons_of_mem _ hb)) code (some b) out
      generalize hbytes : b :: text ++ '.'.toUInt8 :: rest = bytes at h
      cases h with
      | nil => cases hbytes
      | region _ hrest =>
          obtain ⟨rfl, rfl⟩ := List.cons.inj hbytes
          exact (hlater hrest).cons (List.cons_ne_nil b []) (by simpa using hb.symm)
            (by simpa using hbEnds) prev
      | copy hrest =>
          obtain ⟨rfl, rfl⟩ := List.cons.inj hbytes
          exact (hlater hrest).cons (charBytes_ne_nil b) (dot_notMem_charBytes hb)
            (endsTable_of_mem_charBytes hbEnds) prev
      | delete hprev hfollow hrest =>
          obtain ⟨htext, rfl⟩ :=
            @eq_append_of_dots name [] _ _ _ hname.dot hdot (by simpa using hbytes) (by simp)
          exact .leftOut htext (fun _ => hprev) (fun hnil => absurd rfl hnil) (by simp) (by simp)
            hfollow (List.nil_append _).symm hrest

/-- A text behind a dot is not the same name as what is written for it with a text and a dot
in front of that: the text would start with these, again and again. -/
theorem Writes.not_sameName_kept {name : List UInt8} (hname : SegmentName name) {code : Bool}
    {bytes out : List UInt8} (h : Writes name code (some '.'.toUInt8) bytes out)
    {text : List UInt8} (hdot : '.'.toUInt8 ∉ text) :
    ¬ SameName (tableBytes bytes) (text ++ '.'.toUInt8 :: tableBytes out) := by
  induction hlen : bytes.length using Nat.strong_induction_on generalizing code bytes out text with
  | _ n ih =>
      rintro ⟨rest, right, right', htext, htext', hright, hright'⟩
      obtain ⟨rest, rfl, hafter⟩ := exists_of_prefix_append hright' htext'
      -- the text starts with these
      obtain ⟨more, hbytes⟩ := exists_eq_tableBytes_append bytes
      have hends : ∀ b ∈ text, endsTable b = false := fun b hb =>
        @endsTable_of_mem_tableBytes bytes b (htext ▸ by simp [hb])
      generalize hrest : rest ++ right ++ more = later at *
      have hparts : bytes = text ++ '.'.toUInt8 :: later := by
        rw [hbytes, htext, ← hrest]
        simp
      subst hparts
      rw [tableBytes_segment hends] at htext
      have htail : tableBytes later = rest ++ right := by simpa using htext
      have hshort : later.length < n := by
        rw [← hlen]
        simp only [List.length_append, List.length_cons]
        omega
      rcases h.to_dot hname hdot hends with
        ⟨rfl, hdot', hends', hlater⟩ |
        @⟨left, left', out', rfl, hleft, hne, hleftDot, hleftEnds, hfollow, rfl, hlater⟩
      · refine ih _ hshort hlater hdot' rfl ⟨rest, right, right', htail, ?_, hright, hright'⟩
        rw [← hafter, tableBytes_segment hends']
      · -- a prefix is left out: then what follows it occurs once more in what is written
        have hne : left' ≠ [] := hne fun hnil => by cases hleft hnil
        rw [tableBytes_append hleftEnds] at hafter
        have hsame : SameName (tableBytes later) (left' ++ tableBytes out') :=
          ⟨rest, right, right', htail, hafter, hright, hright'⟩
        obtain ⟨next, tail, hnext, hisFollow⟩ := exists_tableBytes_of_follow hfollow
        have hblank : ∀ {text : List UInt8}, Blank text → text.count next = 0 := fun hblank =>
          List.count_eq_zero.mpr fun hmem => by
            have hbyte := isBlankByte_of_blank hblank hmem
            rw [isBlankByte_of_isFollow hisFollow] at hbyte
            cases hbyte
        have hhead : ∃ tail', left' = next :: tail' := by
          obtain ⟨b, tail', rfl⟩ := List.exists_cons_of_ne_nil hne
          cases rest with
          | nil =>
              rw [List.nil_append, hnext] at htail
              have hlead := isBlankLead_of_blank (htail ▸ hright)
              rw [isBlankLead_of_isFollow hisFollow] at hlead
              cases hlead
          | cons c rest =>
              rw [hnext] at htail
              have hc : next = c := (List.cons.inj htail).1
              have hb : b = c := (List.cons.inj hafter).1
              exact ⟨tail', by rw [hb, hc]⟩
        obtain ⟨tail', rfl⟩ := hhead
        have hcount : (rest ++ right).count next = (rest ++ right').count next := by
          rw [List.count_append, List.count_append, hblank hright, hblank hright']
        rw [← htail, ← hafter, List.count_append, List.count_cons_self] at hcount
        rcases hlater.count_dot_lt_or hname.ends with hlt | hsameCount
        · have hdots := hsame.count_dot
          rw [List.count_append, List.count_eq_zero.mpr hleftDot] at hdots
          omega
        · rw [hsameCount next (lt_of_isFollow hisFollow)] at hcount
          omega

/-! ### The first change -/

/-- Up to the end of the reference, stripping changes no byte: every byte of code is ASCII
and no prefix starts there. -/
def Untouched (name : List UInt8) : Option UInt8 → List Tagged → Prop
  | _, [] => True
  | prev, x :: rest =>
      endsTable x.byte = true ∨
      ((x.code = true → x.byte < 128 ∧
          (isBoundary prev && prefixAt name (x.byte :: bytesOf rest)) = false) ∧
        Untouched name (some x.byte) rest)

/-- Stripping changes the first byte: it writes two bytes for it, or leaves a prefix out. -/
inductive Change (name : List UInt8) : List UInt8 → List UInt8 → Prop
  | wide {b : UInt8} {rest out : List UInt8} (hb : ¬ b < 128)
      (h : Writes name true (some b) rest out) : Change name (b :: rest) (charBytes b ++ out)
  | leftOut {rest out : List UInt8} (h : Writes name true (some '.'.toUInt8) rest out) :
      Change name (name ++ '.'.toUInt8 :: rest) out

/-- A change makes another name. -/
theorem Change.not_sameName {name : List UInt8} (hends : ∀ b ∈ name, endsTable b = false)
    {bytes out : List UInt8} (h : Change name bytes out) :
    ¬ SameName (tableBytes bytes) (tableBytes out) := by
  cases h with
  | @wide b rest out hb h =>
      have hplain := endsTable_of_not_lt hb
      rw [tableBytes_cons hplain, tableBytes_append (endsTable_of_mem_charBytes hplain)]
      exact h.not_sameName_wide hends hb
  | @leftOut rest out h => exact h.not_sameName_prefix hends (List.not_mem_nil)

/-- Regions are closed by ASCII bytes. -/
def ScanState.ClosedByAscii (s : ScanState) : Prop :=
  ∀ close, s = .closing close → close < 128

theorem ScanState.ClosedByAscii.next {s : ScanState} (h : s.ClosedByAscii) (b : UInt8)
    (peek : Option UInt8) : (s.next b peek).2.ClosedByAscii := by
  intro close hclose
  cases s with
  | code =>
      simp only [ScanState.next] at hclose
      split_ifs at hclose with hquote hbracket
      · obtain rfl := ScanState.closing.inj hclose
        rcases hquote with rfl | rfl | rfl <;> decide
      · obtain rfl := ScanState.closing.inj hclose
        decide
  | closing c =>
      simp only [ScanState.next] at hclose
      split_ifs at hclose
      exact h close hclose
  | line =>
      simp only [ScanState.next] at hclose
      split_ifs at hclose
  | blockOpen => cases hclose
  | block star =>
      simp only [ScanState.next] at hclose
      split_ifs at hclose

/-- A byte that ends a region is ASCII. -/
theorem ScanState.ClosedByAscii.lt {s : ScanState} (h : s.ClosedByAscii) {b : UInt8}
    {peek : Option UInt8} (hregion : (s.next b peek).1 = false)
    (hend : (s.next b peek).2 = .code) : b < 128 := by
  cases s with
  | code =>
      simp only [ScanState.next] at hregion hend
      split_ifs at hregion hend
  | closing c =>
      simp only [ScanState.next] at hend
      split_ifs at hend with hb
      exact hb ▸ h c rfl
  | line =>
      simp only [ScanState.next] at hregion hend
      split_ifs at hregion hend
  | blockOpen => cases hend
  | block star =>
      simp only [ScanState.next] at hend
      split_ifs at hend with hb
      rw [hb.2]
      decide

/-- The first change: what is in front of it is written as it is, does not end the reference
and ends in an ASCII byte; a change at the first byte is one in code. -/
def FirstChange (name : List UInt8) (s : ScanState) (bytes out : List UInt8) : Prop :=
  ∃ left rest out', bytes = left ++ rest ∧ out = left ++ out' ∧
    (∀ b ∈ left, endsTable b = false) ∧ (∀ b, left.getLast? = some b → b < 128) ∧
    (left = [] → s = .code) ∧ Change name rest out'

/-- A byte that is written as it is stands in front of the first change. -/
theorem FirstChange.cons {name : List UInt8} {s s' : ScanState} {bytes out : List UInt8}
    (h : FirstChange name s' bytes out) {b : UInt8} (hends : endsTable b = false)
    (hlast : s' = .code → b < 128) : FirstChange name s (b :: bytes) (b :: out) := by
  obtain ⟨left, rest, out', rfl, rfl, hleft, hascii, hcode, hchange⟩ := h
  refine ⟨b :: left, rest, out', rfl, rfl, ?_, ?_, fun hnil => absurd hnil (by simp), hchange⟩
  · intro c hc
    exact (List.mem_cons.mp hc).elim (fun h => h ▸ hends) (hleft c)
  · intro c hc
    rw [List.getLast?_cons] at hc
    cases hnil : left.getLast? with
    | some d =>
        rw [hnil] at hc
        exact hascii c (hnil.trans hc)
    | none =>
        -- the change is the next byte
        rw [hnil] at hc
        rw [← Option.some.inj hc]
        exact hlast (hcode (List.getLast?_eq_none_iff.mp hnil))

/-- If stripping changes the reference there is a first change. -/
theorem firstChange_of_not_untouched {name : List UInt8} (hname : SegmentName name)
    {s : ScanState} {copy : Nat} {prev : Option UInt8} {bytes : List UInt8}
    (hcopy : tagsFrom stripSkip copy bytes = tags s bytes) (hclosed : s.ClosedByAscii)
    (hchange : ¬ Untouched name prev (tags s bytes)) :
    FirstChange name s bytes (stripFrom name copy 0 prev bytes) := by
  induction bytes generalizing s copy prev with
  | nil => exact absurd trivial hchange
  | cons b rest ih =>
      rw [tags] at hchange
      obtain ⟨hends, hlater⟩ := not_or.mp hchange
      rw [Bool.not_eq_true] at hends
      rcases stripFrom_cons_cases name prev hcopy with
        ⟨hregion, copy', hcopy', hout⟩ | ⟨hcode, rfl, hskip, hnext⟩
      · rw [hout]
        refine (ih hcopy' (hclosed.next _ _) fun huntouched => ?_).cons hends (hclosed.lt hregion)
        refine hlater ⟨fun hcode => ?_, huntouched⟩
        rw [hregion] at hcode
        cases hcode
      · by_cases hdelete : (isBoundary prev && prefixAt name (b :: rest)) = true
        · obtain ⟨tail, heq, -, hout⟩ := stripFrom_delete hskip hdelete
          have hs := ScanState.eq_code_of_next hcode (hname.ne_newline (hname.mem_head heq))
          refine ⟨[], b :: rest, _, rfl, hout, by simp, by simp, fun _ => hs, ?_⟩
          rw [heq]
          exact .leftOut (writes_stripFrom name 0 _ tail)
        · rw [Bool.not_eq_true] at hdelete
          have hout := stripFrom_code hskip hdelete
          by_cases hb : b < 128
          · rw [hout, charBytes_of_lt hb]
            have hcopy' : tagsFrom stripSkip 0 rest = tags (s.next b rest.head?).2 rest := by
              rw [tagsFrom_stripSkip, hnext]
            refine (ih hcopy' (hclosed.next _ _) fun huntouched => ?_).cons hends fun _ => hb
            refine hlater ⟨fun _ => ⟨hb, ?_⟩, huntouched⟩
            rwa [bytesOf_tags]
          · have hs := ScanState.eq_code_of_next hcode fun h => hb (by rw [h]; decide)
            exact ⟨[], b :: rest, _, rfl, hout, by simp, by simp, fun _ => hs,
              .wide hb (writes_stripFrom name 0 _ rest)⟩

/-- If what is written for a reference is the same name, stripping does not change it. -/
theorem untouched_of_sameName {name : List UInt8} (hname : SegmentName name)
    {prev : Option UInt8} {bytes : List UInt8}
    (hsame : SameName (tableBytes bytes) (tableBytes (stripFrom name 0 0 prev bytes))) :
    Untouched name prev (tags .code bytes) := by
  by_contra hchange
  have hclosed : ScanState.code.ClosedByAscii := fun _ hclose => by cases hclose
  obtain ⟨left, text, text', hparts, hout, hleft, hlast, -, hfirst⟩ :=
    firstChange_of_not_untouched hname (tagsFrom_stripSkip bytes) hclosed hchange
  obtain ⟨rest, right, right', htext, htext', hright, hright'⟩ := hsame
  rw [hparts, tableBytes_append hleft] at htext
  rw [hout, tableBytes_append hleft] at htext'
  refine hfirst.not_sameName hname.ends ?_
  rcases List.append_eq_append_iff.mp htext with ⟨d, rfl, hd⟩ | ⟨d, hd, rfl⟩
  · rw [List.append_assoc, List.append_cancel_left_eq] at htext'
    exact ⟨d, right, right', hd, htext', hright, hright'⟩
  · -- the blank reaches back before the change, to an ASCII byte
    rw [hd, List.append_assoc, List.append_cancel_left_eq] at htext'
    have hd' : ∀ b, d.getLast? = some b → b < 128 := by
      intro b hb
      refine hlast b ?_
      rw [hd, List.getLast?_append, hb]
      rfl
    exact ⟨[], _, _, rfl, rfl, Blank.of_append hright hd',
      Blank.of_append (htext' ▸ hright') hd'⟩

/-- What is written for a reference that stripping does not change is the reference. -/
theorem tableBytes_stripFrom {name : List UInt8} (hname : SegmentName name) {s : ScanState}
    {copy : Nat} {prev : Option UInt8} {bytes : List UInt8}
    (hcopy : tagsFrom stripSkip copy bytes = tags s bytes)
    (huntouched : Untouched name prev (tags s bytes)) :
    tableBytes (stripFrom name copy 0 prev bytes) = tableBytes bytes := by
  induction bytes generalizing s copy prev with
  | nil => cases copy <;> rfl
  | cons b rest ih =>
      rw [tags] at huntouched
      have hcons : ∀ {copy' : Nat}, tagsFrom stripSkip copy' rest =
            tags (s.next b rest.head?).2 rest →
          (endsTable b = false → Untouched name (some b) (tags (s.next b rest.head?).2 rest)) →
          tableBytes (b :: stripFrom name copy' 0 (some b) rest) = tableBytes (b :: rest) := by
        intro copy' hcopy' hlater
        by_cases hends : endsTable b = true
        · rw [tableBytes_cons_of_ends hends, tableBytes_cons_of_ends hends]
        · rw [Bool.not_eq_true] at hends
          rw [tableBytes_cons hends, tableBytes_cons hends, ih hcopy' (hlater hends)]
      have hlater : endsTable b = false →
          Untouched name (some b) (tags (s.next b rest.head?).2 rest) := by
        intro hends
        rcases huntouched with hends' | ⟨-, hlater⟩
        · exact absurd (hends.symm.trans hends') Bool.false_ne_true
        · exact hlater
      rcases stripFrom_cons_cases name prev hcopy with
        ⟨-, copy', hcopy', hout⟩ | ⟨hcode, rfl, hskip, hnext⟩
      · rw [hout]
        exact hcons hcopy' hlater
      · have hplain : b < 128 ∧ (isBoundary prev && prefixAt name (b :: rest)) = false := by
          rcases huntouched with hends | ⟨hbyte, -⟩
          · refine ⟨lt_of_endsTable hends, ?_⟩
            rw [Bool.eq_false_iff]
            intro hdelete
            obtain ⟨tail, heq, -, -⟩ := stripFrom_delete hskip hdelete
            have hb := hname.ends b (hname.mem_head heq)
            exact absurd (hb.symm.trans hends) Bool.false_ne_true
          · rw [bytesOf_tags] at hbyte
            exact hbyte hcode
        rw [stripFrom_code hskip hplain.2, charBytes_of_lt hplain.1]
        refine hcons ?_ hlater
        rw [tagsFrom_stripSkip, hnext]

end WpKnowledge.SqlRoute
