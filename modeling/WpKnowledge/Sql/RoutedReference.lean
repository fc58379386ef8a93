import WpKnowledge.Sql.ReferenceText

/-!
# The table a routed statement names

A statement is routed by the first segment of its first table reference.  For the
provider to find the table, the stripped statement has to name what stands after the
prefix.  Two scanners have to agree for that: one cuts the reference at its first dot,
the other leaves the prefix out only before an identifier or a quoted one, writes every
byte of code as a character of its own, and leaves further prefixes out as well.  Where the
name opens a region or a parenthesis, the one that locates the reference must not pass a
prefix before it.

Main results:

- Theorem {lit}`ReadAlike.exists_tableAt`: where the scanners read alike, the first table
  reference is stripped to that of the stripped statement.
- Theorem {lit}`routes_qualified_iff`: the stripped statement names the table behind the
  prefix exactly for references that are qualified and that stripping does not change
  behind the prefix.

Current gaps:

- Where the scanner that locates the reference passes a prefix whose name opens a region, or a
  parenthesis that a subquery counts, the stripped statement may or may not name the table;
  the theorem leaves these statements out of the references it calls clean.
-/

open Foundation

namespace WpKnowledge.SqlRoute

/-! ## Where no prefix starts -/

/-- In the code of a text that stands after the byte {lit}`prev`, and in front of other
bytes, no prefix starts. -/
def NoPrefix (name : List UInt8) : Option UInt8 → List Tagged → List UInt8 → Prop
  | _, [], _ => True
  | prev, x :: ts, rest =>
      (x.code = true →
        (isBoundary prev && prefixAt name (x.byte :: (bytesOf ts ++ rest))) = false) ∧
      NoPrefix name (some x.byte) ts rest

theorem noPrefix_codes_cons {name : List UInt8} {prev : Option UInt8} {b : UInt8}
    {bytes rest : List UInt8} :
    NoPrefix name prev (codes (b :: bytes)) rest ↔
      (isBoundary prev && prefixAt name (b :: (bytes ++ rest))) = false ∧
        NoPrefix name (some b) (codes bytes) rest := by
  have hcons : codes (b :: bytes) = ⟨b, true⟩ :: codes bytes := rfl
  simp [hcons, NoPrefix]

theorem noPrefix_append {name : List UInt8} {prev : Option UInt8} {ts us : List Tagged}
    {rest : List UInt8} (hts : NoPrefix name prev ts (bytesOf us ++ rest))
    (hus : NoPrefix name (lastByte prev ts) us rest) : NoPrefix name prev (ts ++ us) rest := by
  induction ts generalizing prev with
  | nil => exact hus
  | cons x ts ih =>
      obtain ⟨hkeep, hlater⟩ := hts
      rw [lastByte_cons] at hus
      refine ⟨fun hx => ?_, ih hlater hus⟩
      have hbytes : bytesOf (ts ++ us) ++ rest = bytesOf ts ++ (bytesOf us ++ rest) := by simp
      exact hbytes ▸ hkeep hx

/-- No prefix starts with a byte that its name does not start with. -/
theorem noPrefix_of_head? {name : List UInt8} (hname : name ≠ []) {bytes : List UInt8}
    (hbytes : ∀ b ∈ bytes, name.head? ≠ some b) (prev : Option UInt8) (rest : List UInt8) :
    NoPrefix name prev (codes bytes) rest := by
  induction bytes generalizing prev with
  | nil => exact trivial
  | cons b bytes ih =>
      refine noPrefix_codes_cons.mpr
        ⟨?_, ih (fun b hb => hbytes b (List.mem_cons_of_mem _ hb)) _⟩
      rw [prefixAt_of_head? hname (hbytes b List.mem_cons_self), Bool.and_false]

/-- Inside an identifier no prefix starts. -/
theorem noPrefix_of_ident {name bytes : List UInt8} (hbytes : ∀ b ∈ bytes, isIdentByte b = true)
    {prev : Option UInt8} (hprev : isBoundary prev = false) (rest : List UInt8) :
    NoPrefix name prev (codes bytes) rest := by
  induction bytes generalizing prev with
  | nil => exact trivial
  | cons b bytes ih =>
      refine noPrefix_codes_cons.mpr ⟨by rw [hprev]; rfl, ?_⟩
      exact ih (fun b hb => hbytes b (List.mem_cons_of_mem _ hb))
        (isBoundary_of_isIdentByte (hbytes b List.mem_cons_self))

/-- In a word no prefix starts where what follows it is no end of one. -/
theorem noPrefix_word {name word : List UInt8} (hword : ∀ b ∈ word, isIdentByte b = true)
    {rest : List UInt8} (hrest : ¬ EndsPrefix name rest) (prev : Option UInt8) :
    NoPrefix name prev (codes word) rest := by
  cases word with
  | nil => exact trivial
  | cons b word =>
      refine noPrefix_codes_cons.mpr
        ⟨?_, noPrefix_of_ident (fun b hb => hword b (List.mem_cons_of_mem _ hb))
          (isBoundary_of_isIdentByte (hword b List.mem_cons_self)) rest⟩
      have hat := prefixAt_of_word (by simp) hword hrest
      rw [← List.cons_append, hat, Bool.and_false]

/-- In front of a name and a dot no prefix starts. -/
theorem noPrefix_pad {name pad : List UInt8} (hname : '.'.toUInt8 ∉ name)
    (hpad : '.'.toUInt8 ∉ pad) (prev : Option UInt8) (rest : List UInt8) :
    NoPrefix name prev (codes pad) (name ++ '.'.toUInt8 :: rest) := by
  induction pad generalizing prev with
  | nil => exact trivial
  | cons b pad ih =>
      refine noPrefix_codes_cons.mpr
        ⟨?_, ih (fun hmem => hpad (List.mem_cons_of_mem _ hmem)) _⟩
      rw [Bool.and_eq_false_iff]
      right
      rw [Bool.eq_false_iff]
      intro hat
      obtain ⟨next, tail, heq, -⟩ := prefixAt_iff.mp hat
      have htext : (b :: pad ++ name) ++ '.'.toUInt8 :: rest =
          [] ++ (name ++ '.'.toUInt8 :: (next :: tail)) := by
        rw [List.nil_append, ← heq]
        simp
      have hdot : '.'.toUInt8 ∉ b :: pad ++ name := by
        intro hmem
        exact (List.mem_append.mp hmem).elim hpad hname
      have hlen := congrArg List.length (eq_append_of_dots hname hdot htext (by simp)).1
      simp only [List.length_append, List.length_cons, List.length_nil] at hlen
      omega

/-- Code in which no prefix starts is written byte by byte. -/
theorem stripFrom_codes {name bytes rest : List UInt8} {prev : Option UInt8}
    (hopener : ∀ b ∈ bytes, isOpener b = false) (hno : NoPrefix name prev (codes bytes) rest) :
    stripFrom name 0 0 prev (bytes ++ rest) = bytes.flatMap charBytes ++
      stripFrom name 0 0 (lastByte prev (codes bytes)) rest := by
  induction bytes generalizing prev with
  | nil => rfl
  | cons b bytes ih =>
      obtain ⟨hkeep, hlater⟩ := noPrefix_codes_cons.mp hno
      have hskip := stripSkip_of_not_opener (hopener b List.mem_cons_self) (bytes ++ rest)
      have hlast : lastByte prev (codes (b :: bytes)) = lastByte (some b) (codes bytes) :=
        lastByte_cons prev ⟨b, true⟩ (codes bytes)
      rw [List.cons_append, stripFrom_code hskip hkeep,
        ih (fun b hb => hopener b (List.mem_cons_of_mem _ hb)) hlater, List.flatMap_cons,
        List.append_assoc, hlast]

/-! ## What is written in front of a reference -/

/-- A text with a character for every byte of code. -/
def written (ts : List Tagged) : List Tagged :=
  ts.flatMap fun x => if x.code then codes (charBytes x.byte) else [x]

theorem written_cons_region {x : Tagged} (hx : x.code = false) (ts : List Tagged) :
    written (x :: ts) = x :: written ts := by
  simp [written, hx]

theorem written_cons_code (b : UInt8) (ts : List Tagged) :
    written (⟨b, true⟩ :: ts) = codes (charBytes b) ++ written ts := by
  simp [written]

/-- The ASCII byte a text starts with is the one that is written first. -/
theorem head?_written {ts : List Tagged} {rest rest' : List UInt8} (h : rest.head? = rest'.head?)
    {c : UInt8} (hc : c < 128) :
    (bytesOf (written ts) ++ rest').head? = some c ↔ (bytesOf ts ++ rest).head? = some c := by
  cases ts with
  | nil => exact h ▸ Iff.rfl
  | cons x ts =>
      obtain ⟨b, code⟩ := x
      cases code with
      | false =>
          rw [written_cons_region rfl]
          rfl
      | true =>
          rw [written_cons_code]
          by_cases hb : b < 128
          · rw [charBytes_of_lt hb]
            rfl
          · obtain ⟨lead, tail, heq, hlead, -⟩ := charBytes_of_not_lt hb
            rw [heq]
            refine iff_of_false (fun h => hlead ?_) fun h => hb ?_
            · rwa [show lead = c from Option.some.inj h]
            · rwa [show b = c from Option.some.inj h]

/-- What is written for a text in front of code is read as the text is. -/
theorem tags_written {s : ScanState} {bytes : List UInt8} {pre rest : List Tagged} {c : UInt8}
    (hc : c ≠ '\n'.toUInt8) (hparts : tags s bytes = pre ++ ⟨c, true⟩ :: rest)
    (text : List UInt8) :
    tags s (bytesOf (written pre) ++ c :: text) = written pre ++ tags .code (c :: text) := by
  induction pre generalizing s bytes with
  | nil =>
      cases bytes with
      | nil => cases hparts
      | cons b bytes =>
          obtain ⟨rfl, hcode⟩ := Tagged.mk.inj (List.cons.inj hparts).1
          rw [ScanState.eq_code_of_next hcode hc]
          rfl
  | cons x pre ih =>
      cases bytes with
      | nil => cases hparts
      | cons b bytes =>
          rw [tags, List.cons_append] at hparts
          obtain ⟨hhead, htail⟩ := List.cons.inj hparts
          have hbytes : bytes = bytesOf pre ++ c :: bytesOf rest := by
            rw [← bytesOf_tags (s.next b bytes.head?).2 bytes, htail]
            simp
          -- the reading looks ahead at the same ASCII byte
          have hpeek : s.next b (bytesOf (written pre) ++ c :: text).head? =
              s.next b bytes.head? := by
            have hhead' := fun {d : UInt8} (hd : d < 128) =>
              @head?_written pre (c :: bytesOf rest) (c :: text) rfl d hd
            refine s.next_congr b ?_ ?_
            · rw [hhead' (by decide), hbytes]
            · rw [hhead' (by decide), hbytes]
          have hlater := ih htail
          subst hhead
          cases hcode : (s.next b bytes.head?).1 with
          | false =>
              rw [written_cons_region rfl, bytesOf_cons, List.cons_append, tags, hpeek, hlater,
                hcode]
              rfl
          | true =>
              rw [written_cons_code, bytesOf_append, bytesOf_codes, List.append_assoc]
              by_cases hb : b < 128
              · rw [charBytes_of_lt hb, List.singleton_append, tags, hpeek, hlater, hcode]
                rfl
              · have hs : s = .code := ScanState.eq_code_of_next hcode fun h =>
                  hb (by rw [h]; decide)
                rw [ScanState.next_of_code hcode] at hlater
                rw [hs, tags_charBytes hb, hlater, List.append_assoc]

/-- A text in which no prefix starts, in front of code, is written byte by byte. -/
theorem stripFrom_front {name : List UInt8} {s : ScanState} {copy : Nat} {prev : Option UInt8}
    {bytes : List UInt8} {pre rest : List Tagged} {c : UInt8}
    (hcopy : tagsFrom stripSkip copy bytes = tags s bytes)
    (hparts : tags s bytes = pre ++ ⟨c, true⟩ :: rest)
    (hno : NoPrefix name prev pre (c :: bytesOf rest)) :
    stripFrom name copy 0 prev bytes = bytesOf (written pre) ++
      stripFrom name 0 0 (lastByte prev pre) (c :: bytesOf rest) := by
  induction pre generalizing s copy prev bytes with
  | nil =>
      cases bytes with
      | nil => cases hparts
      | cons b bytes =>
          have hbytes := congrArg bytesOf hparts
          rw [bytesOf_tags] at hbytes
          have hcode := (Tagged.mk.inj (List.cons.inj hparts).1).2
          rcases stripFrom_cons_cases name prev hcopy with ⟨hregion, -⟩ | ⟨-, rfl, -, -⟩
          · rw [hregion] at hcode
            cases hcode
          · rw [hbytes]
            rfl
  | cons x pre ih =>
      cases bytes with
      | nil => cases hparts
      | cons b bytes =>
          rw [tags, List.cons_append] at hparts
          obtain ⟨rfl, htail⟩ := List.cons.inj hparts
          obtain ⟨hkeep, hlater⟩ := hno
          have hbytes : bytes = bytesOf pre ++ c :: bytesOf rest := by
            rw [← bytesOf_tags (s.next b bytes.head?).2 bytes, htail]
            simp
          rw [lastByte_cons]
          rcases stripFrom_cons_cases name prev hcopy with
            ⟨hregion, copy', hcopy', hout⟩ | ⟨hcode, rfl, hskip, hnext⟩
          · rw [hout, ih hcopy' htail hlater, written_cons_region hregion]
            rfl
          · have hplain := hkeep hcode
            rw [← hbytes] at hplain
            rw [hnext] at htail
            rw [hcode, written_cons_code, stripFrom_code hskip hplain,
              ih (tagsFrom_stripSkip bytes) htail hlater]
            simp

/-! ## The first `from` behind a front without prefixes -/

/-- What stands behind a word does not matter to it, if it is no identifier byte. -/
theorem wordAt_append {keyword bytes rest : List UInt8} (hlen : keyword.length ≤ bytes.length)
    (hrest : (rest.head?).any isIdentByte = false) :
    WordAt keyword (bytes ++ rest) ↔ WordAt keyword bytes := by
  induction keyword generalizing bytes with
  | nil =>
      cases bytes with
      | nil => simpa [WordAt] using hrest
      | cons b bytes => rfl
  | cons k keyword ih =>
      cases bytes with
      | nil => simp at hlen
      | cons b bytes => exact and_congr_right fun _ => ih (Nat.le_of_succ_le_succ hlen)

/-- A text is split at a keyword in it as it is with other text behind the keyword. -/
theorem splitKeyword_append {keyword word : List UInt8} (hkeyword : keyword ≠ [])
    (hlen : word.length = keyword.length) {us : List Tagged}
    (hus : ((bytesOf us).head?).any isIdentByte = false) {prev : Option UInt8}
    {pre : List Tagged} :
    splitKeyword keyword prev (pre ++ (codes word ++ us)) = some (pre, codes word ++ us) ↔
      splitKeyword keyword prev (pre ++ codes word) = some (pre, codes word) := by
  -- the keyword stands in both texts or in none
  have hat : ∀ {prev : Option UInt8} {ts : List Tagged}, keyword.length ≤ ts.length →
      keywordAt keyword prev (bytesOf (ts ++ us)) = keywordAt keyword prev (bytesOf ts) := by
    intro prev ts hts
    rw [Bool.eq_iff_iff, keywordAt_iff, keywordAt_iff, bytesOf_append]
    exact and_congr_right fun _ => wordAt_append (by simpa using hts) hus
  induction pre generalizing prev with
  | nil =>
      obtain ⟨k, keyword', rfl⟩ := List.exists_cons_of_ne_nil hkeyword
      cases word with
      | nil => cases hlen
      | cons b word =>
          have hhere := @hat prev (codes (b :: word)) (by simp [codes, ← hlen])
          have hlater : ∀ {ts : List Tagged} {split : Option (List Tagged × List Tagged)},
              split.map (fun split => (⟨b, true⟩ :: split.1, split.2)) ≠ some ([], ts) := by
            intro ts split
            cases split <;> simp
          have hcons : codes (b :: word) = ⟨b, true⟩ :: codes word := rfl
          rw [List.nil_append, List.nil_append]
          simp only [hcons, List.cons_append] at hhere ⊢
          rw [splitKeyword, splitKeyword, hhere]
          split
          · simp
          · exact iff_of_false hlater hlater
  | cons x pre ih =>
      have hhere := @hat prev (x :: (pre ++ codes word)) (by simp [codes, hlen]; omega)
      have hparts : x :: (pre ++ (codes word ++ us)) = x :: (pre ++ codes word) ++ us := by simp
      have hlater : ∀ {split : Option (List Tagged × List Tagged)} {ts : List Tagged},
          split.map (fun split => (x :: split.1, split.2)) = some (x :: pre, ts) ↔
            split = some (pre, ts) := by
        intro split ts
        cases split <;> simp [Prod.ext_iff]
      rw [List.cons_append, List.cons_append, splitKeyword, splitKeyword, hparts, hhere]
      split
      · simp
      · rw [hlater, hlater]
        exact ih

/-- A text in which no prefix starts is stripped to what is written byte by byte. -/
theorem strips_written {name : List UInt8} {prev : Option UInt8} {pre ts ts' : List Tagged}
    {rest : List UInt8} (hno : NoPrefix name prev pre (bytesOf ts ++ rest))
    (hts : Strips name (lastByte prev pre) ts ts') :
    Strips name prev (pre ++ ts) (written pre ++ ts') := by
  induction pre generalizing prev with
  | nil => exact hts
  | cons x pre ih =>
      obtain ⟨hkeep, hlater⟩ := hno
      rw [lastByte_cons] at hts
      have hrest := ih hlater hts
      obtain ⟨b, code⟩ := x
      cases code with
      | false =>
          rw [written_cons_region rfl]
          exact .region rfl hrest
      | true =>
          rw [written_cons_code, List.append_assoc]
          refine .copy ?_ hrest
          rw [Bool.eq_false_iff]
          intro hdelete
          obtain ⟨hprev, hat⟩ := Bool.and_eq_true_iff.mp hdelete
          have hlonger : prefixAt name (b :: bytesOf (pre ++ ts) ++ rest) = true :=
            prefixAt_append hat rest
          have hbytes : b :: bytesOf (pre ++ ts) ++ rest =
              b :: (bytesOf pre ++ (bytesOf ts ++ rest)) := by simp
          have hnot := hkeep rfl
          rw [hprev, ← hbytes, hlonger] at hnot
          cases hnot

/-- In a word no prefix ends. -/
theorem prefixAt_of_not_dot {name bytes : List UInt8} (h : '.'.toUInt8 ∉ bytes) :
    prefixAt name bytes = false := by
  rw [Bool.eq_false_iff]
  intro hat
  obtain ⟨next, rest, rfl, -⟩ := prefixAt_iff.mp hat
  exact h (by simp)

/-- A word is stripped to itself, and to nothing else. -/
theorem strips_word_iff {name word : List UInt8} (hword : ∀ b ∈ word, isIdentByte b = true)
    {prev : Option UInt8} {ts : List Tagged} :
    Strips name prev (codes word) ts ↔ ts = codes word := by
  induction word generalizing prev ts with
  | nil =>
      constructor
      · intro h
        generalize htext : codes [] = text at h
        cases h with
        | nil => rfl
        | region => cases htext
        | copy => cases htext
        | delete => exact absurd htext (by simp [codes])
      · rintro rfl
        exact .nil prev
  | cons b word ih =>
      have hb := lt_of_isIdentByte (hword b List.mem_cons_self)
      have hlater := fun b hb => hword b (List.mem_cons_of_mem _ hb)
      have hkeep : (isBoundary prev && prefixAt name (b :: bytesOf (codes word))) = false := by
        rw [prefixAt_of_not_dot, Bool.and_false]
        rw [bytesOf_codes]
        exact fun hmem => absurd (hword _ hmem) (by decide)
      have hcons : codes (b :: word) = ⟨b, true⟩ :: codes word := rfl
      rw [hcons]
      constructor
      · intro h
        obtain ⟨us, rfl, hus⟩ := h.cons_code hkeep
        rw [charBytes_of_lt hb, (ih hlater).mp hus]
        rfl
      · rintro rfl
        have hrest : Strips name (some b) (codes word) (codes word) := (ih hlater).mpr rfl
        have hcopy := Strips.copy hkeep hrest
        rwa [charBytes_of_lt hb] at hcopy

/-- The first keyword behind a front without prefixes is the first of the text that is written
for the front. -/
theorem splitKeyword_written {name keyword word : List UInt8} (hkeyword : IsName keyword)
    (hword : ∀ b ∈ word, isIdentByte b = true) (hlen : word.length = keyword.length)
    {pre us us' : List Tagged} (hus : ((bytesOf us).head?).any isIdentByte = false)
    (hus' : ((bytesOf us').head?).any isIdentByte = false)
    (hsplit : splitKeyword keyword none (pre ++ (codes word ++ us)) = some (pre, codes word ++ us))
    (hno : NoPrefix name none pre (word ++ bytesOf us)) :
    splitKeyword keyword none (written pre ++ (codes word ++ us')) =
      some (written pre, codes word ++ us') := by
  have hstrips : Strips name none (pre ++ codes word) (written pre ++ codes word) :=
    strips_written (by rwa [bytesOf_codes]) ((strips_word_iff hword).mpr rfl)
  have halike : SplitAlike name none keyword (splitKeyword keyword none (pre ++ codes word))
      (splitKeyword keyword none (written pre ++ codes word)) :=
    hstrips.splitAlike hkeyword rfl rfl
  rw [(splitKeyword_append hkeyword.1 hlen hus).mp hsplit] at halike
  obtain ⟨pre', post', hsplit', hpost⟩ := halike (by
    rintro ⟨left, right, rest, -, -, hends⟩
    rw [bytesOf, List.map_drop, ← bytesOf, bytesOf_codes, List.drop_of_length_le hlen.le] at hends
    exact absurd hends (by simp))
  obtain rfl := (strips_word_iff hword).mp hpost
  obtain rfl := List.append_cancel_right (append_of_splitKeyword hsplit')
  exact (splitKeyword_append hkeyword.1 hlen hus').mpr hsplit'

/-! ## Where the two scanners read alike -/

/-- The first table reference stands in no subquery. -/
def OutsideSubqueries (sql : List UInt8) : Prop :=
  ∀ {depth text}, BehindFrom (tags .code sql) depth text → depth = 0

/-- No prefix starts in the code in front of the first `from`. -/
def FrontClear (name sql : List UInt8) : Prop :=
  ∀ {pre post}, splitKeyword fromKeyword none (tags .code sql) = some (pre, post) →
    NoPrefix name none pre (bytesOf post)

/-- The scanner that locates the reference reads the prefixes it passes as code without
parentheses, or it passes none: the name is read as code up to the dot behind it, and has no
parenthesis where the reference stands in a subquery; or the reference stands in no subquery
and no prefix in front of it. -/
def ReadAlike (name sql : List UInt8) : Prop :=
  (tags .code (name ++ ['.'.toUInt8]) = codes (name ++ ['.'.toUInt8]) ∧
    ('('.toUInt8 ∈ name → OutsideSubqueries sql)) ∨
  (OutsideSubqueries sql ∧ FrontClear name sql)

/-- The scanners read every statement alike where the name opens no region and has no
parenthesis, as no identifier does. -/
theorem readAlike_of_codes {name : List UInt8}
    (hreads : tags .code (name ++ ['.'.toUInt8]) = codes (name ++ ['.'.toUInt8]))
    (hparen : '('.toUInt8 ∉ name) (sql : List UInt8) : ReadAlike name sql :=
  .inl ⟨hreads, fun hmem => absurd hmem hparen⟩

theorem IsName.readAlike {name : List UInt8} (hname : IsName name) (sql : List UInt8) :
    ReadAlike name sql :=
  readAlike_of_codes hname.plain.reads (fun hmem => absurd (hname.2 _ hmem) (by decide)) sql

/-- What a tagged text is stripped to is determined by the text. -/
theorem Strips.unique {name : List UInt8} (hname : name ≠ []) {prev : Option UInt8}
    {ts us us' : List Tagged} (h : Strips name prev ts us) (h' : Strips name prev ts us') :
    us = us' := by
  induction h generalizing us' with
  | nil =>
      generalize htext : ([] : List Tagged) = text at h'
      cases h' with
      | nil => rfl
      | region => cases htext
      | copy => cases htext
      | delete => exact absurd htext (by simp)
  | @region prev x ts ts' hx hrest ih =>
      generalize htext : x :: ts = text at h'
      cases h' with
      | nil => cases htext
      | region _ hrest' =>
          obtain ⟨rfl, rfl⟩ := List.cons.inj htext
          rw [ih hrest']
      | copy =>
          rw [(List.cons.inj htext).1] at hx
          cases hx
      | delete =>
          obtain ⟨b, left, rfl⟩ := List.exists_cons_of_ne_nil hname
          rw [(List.cons.inj htext).1] at hx
          cases hx
  | copy hkeep hrest ih =>
      obtain ⟨vs, rfl, hvs⟩ := h'.cons_code hkeep
      rw [ih hvs]
  | delete hprev hfollow hrest ih => exact ih (Strips.of_prefix hprev hfollow hname h')

/-- The bytes a read text is stripped to are those that the loop writes. -/
theorem Strips.bytesOf_eq {name : List UInt8} (hname : PlainName name) {prev : Option UInt8}
    {ts us : List Tagged} (h : Strips name prev ts us) (hts : Lexed ts) :
    bytesOf us = stripFrom name 0 0 prev (bytesOf ts) := by
  have hloop := strips_stripFrom hname .code 0 prev (bytesOf ts) (tagsFrom_stripSkip _)
  rw [hts] at hloop
  rw [h.unique hname.ne_nil hloop, bytesOf_tags]

/-- A byte that cannot follow a prefix is written first only if it stands first. -/
theorem head?_of_head?_stripFrom {name : List UInt8} {prev : Option UInt8} {bytes : List UInt8}
    {c : UInt8} (hc : c < 128) (hfollow : isFollow c = false)
    (hhead : (stripFrom name 0 0 prev bytes).head? = some c) : bytes.head? = some c := by
  cases bytes with
  | nil => cases hhead
  | cons b rest =>
      rcases head?_stripFrom name 0 prev b rest with hkeep | ⟨-, -, -, next, hnext, hisFollow⟩
      · exact congrArg some ((hkeep c hc).mp hhead)
      · rw [Option.some.inj (hhead.symm.trans hnext), hisFollow] at hfollow
        cases hfollow

/-- Inside an identifier the loop writes an identifier byte first if one stands first. -/
theorem isIdentByte_head?_stripFrom {name : List UInt8} {prev : Option UInt8}
    (hprev : isBoundary prev = false) {bytes : List UInt8}
    (h : (bytes.head?).any isIdentByte = false) :
    ((stripFrom name 0 0 prev bytes).head?).any isIdentByte = false := by
  rcases (writes_stripFrom name 0 prev bytes).cases_of_not_boundary hprev with
    ⟨rfl, hout⟩ | ⟨b, rest, out', -, rfl, hout, -⟩ | ⟨b, rest, out', hb, rfl, hout, -⟩
  · rw [hout]
    rfl
  · rw [hout]
    exact h
  · obtain ⟨lead, tail, heq, hlead, -⟩ := charBytes_of_not_lt hb
    rw [hout, heq]
    exact isIdentByte_of_not_lt hlead

/-- A prefix may start behind whitespace, but not right behind the keyword. -/
theorem startsWell_lastByte {word blank : List UInt8} (hword : ∀ b ∈ word, isIdentByte b = true)
    (hne : word ≠ []) (hblank : ∀ b ∈ blank, isAsciiWhitespace b = true) (prev : Option UInt8)
    (tail : List Tagged) :
    StartsWell (lastByte prev (codes (word ++ blank))) (codes blank ++ tail) tail := by
  rw [StartsWell, lastByte, bytesOf_codes, List.getLast?_append]
  cases hlast : blank.getLast? with
  | none =>
      obtain rfl := List.getLast?_eq_none_iff.mp hlast
      cases hwordLast : word.getLast? with
      | none => exact absurd (List.getLast?_eq_none_iff.mp hwordLast) hne
      | some b =>
          have hb := isBoundary_of_isIdentByte (hword b (List.mem_of_getLast? hwordLast))
          simp [hb, codes]
  | some b =>
      have hb := isBoundary_of_isAsciiWhitespace (hblank b (List.mem_of_getLast? hlast))
      have hne : codes blank ++ tail ≠ tail := by
        intro heq
        have hlength := congrArg List.length heq
        have hpos := List.length_pos_of_mem (List.mem_of_getLast? hlast)
        simp only [codes, List.length_append, List.length_map] at hlength
        omega
      simp [hne, hb]

/-- Behind the keyword and whitespace stands what follows them. -/
theorem afterFrom_codes {word blank : List UInt8} (hlen : word.length = fromKeyword.length)
    (hblank : ∀ b ∈ blank, isAsciiWhitespace b = true) {tail : List Tagged}
    (hspace : ∀ b, (bytesOf tail).head? = some b → isAsciiWhitespace b = false) :
    afterFrom (codes word ++ (codes blank ++ tail)) = tail := by
  have hparts : codes word ++ (codes blank ++ tail) = codes (word ++ blank) ++ tail := by
    simp [codes]
  rw [afterFrom, drop_fromKeyword hlen hparts]
  refine Foundation.dropWhile_append_of_head? (by simpa [codes] using hblank) fun x hx => ?_
  have hhead : (bytesOf tail).head? = some x.byte := by
    rw [bytesOf, List.head?_map, Option.mem_def.mp hx]
    rfl
  simpa using hspace x.byte hhead

/-- A statement whose front has no prefixes, stripped: the front byte by byte, the keyword, the
whitespace, and what is written for the reference. -/
theorem tags_stripProviderPrefix {name sql : List UInt8} (hname : SegmentName name)
    {pre tail : List Tagged} {word blank : List UInt8}
    (hword : ∀ b ∈ word, isIdentByte b = true) (hne : word ≠ [])
    (hblank : ∀ b ∈ blank, isAsciiWhitespace b = true)
    (htags : tags .code sql = pre ++ (codes word ++ (codes blank ++ tail)))
    (hno : NoPrefix name none pre (word ++ (blank ++ bytesOf tail)))
    (hnext : ¬ EndsPrefix name (blank ++ bytesOf tail)) :
    tags .code (stripProviderPrefix sql name) = written pre ++ (codes word ++ (codes blank ++
      tags .code (stripFrom name 0 0 (lastByte (lastByte none pre) (codes (word ++ blank)))
        (bytesOf tail)))) := by
  have hblankHead : ∀ b ∈ blank, name.head? ≠ some b := by
    intro b hb hhead
    have hends := hname.ends b (List.mem_of_head? hhead)
    rw [endsTable_iff.mpr (.inl (hblank b hb))] at hends
    cases hends
  have hplain : NoPrefix name (lastByte none pre) (codes (word ++ blank)) (bytesOf tail) := by
    have hparts : codes (word ++ blank) = codes word ++ codes blank := List.map_append
    rw [hparts]
    refine noPrefix_append ?_ (noPrefix_of_head? hname.ne_nil hblankHead _ _)
    rw [bytesOf_codes]
    exact noPrefix_word hword hnext _
  have hcodes : ∀ b ∈ word ++ blank, isOpener b = false ∧ b < 128 := by
    intro b hb
    rcases List.mem_append.mp hb with hb | hb
    · exact ⟨isOpener_of_isIdentByte (hword b hb), lt_of_isIdentByte (hword b hb)⟩
    · exact ⟨isOpener_of_isAsciiWhitespace (hblank b hb), lt_of_isAsciiWhitespace (hblank b hb)⟩
  have hout := stripFrom_codes (fun b hb => (hcodes b hb).1) hplain
  rw [flatMap_charBytes fun b hb => (hcodes b hb).2] at hout
  generalize stripFrom name 0 0 (lastByte (lastByte none pre) (codes (word ++ blank)))
    (bytesOf tail) = out at *
  obtain ⟨c, left, rfl⟩ := List.exists_cons_of_ne_nil hne
  have hc : c ≠ '\n'.toUInt8 := by
    rintro rfl
    exact absurd (hword _ List.mem_cons_self) (by decide)
  have hparts : tags .code sql = pre ++ ⟨c, true⟩ :: (codes left ++ (codes blank ++ tail)) := htags
  have hbytes : c :: bytesOf (codes left ++ (codes blank ++ tail)) =
      c :: left ++ blank ++ bytesOf tail := by simp
  have hfront := stripFrom_front (tagsFrom_stripSkip sql) hparts
    (by rw [hbytes]; simpa using hno)
  rw [stripProviderPrefix, if_neg hname.ne_nil, hfront, hbytes, hout, List.cons_append,
    List.cons_append, tags_written hc hparts, ← List.cons_append, ← List.cons_append,
    tags_codes fun b hb => (hcodes b hb).1]
  simp [codes]

/-- Behind a front without prefixes the reference is stripped where it stands. -/
theorem exists_tableAt_of_frontClear {name sql : List UInt8} (hname : SegmentName name)
    (hclear : FrontClear name sql) {pre post : List Tagged}
    (hfrom : splitKeyword fromKeyword none (tags .code sql) = some (pre, post))
    (htable : (bytesOf (afterFrom post)).head? ≠ some '('.toUInt8)
    (hnext : ¬ EndsPrefix name (bytesOf (post.drop fromKeyword.length))) :
    ∃ q tail, TableAt (tags .code (stripProviderPrefix sql name)) tail ∧
      bytesOf tail = stripFrom name 0 0 q (bytesOf (afterFrom post)) ∧
      StartsWell q (post.drop fromKeyword.length) (afterFrom post) := by
  have hno := hclear hfrom
  have htags := append_of_splitKeyword hfrom
  obtain ⟨word, blank, hpost, hword, hlen, hblank, hident, hspace, -⟩ :=
    (lexed_tags sql).exists_afterFrom hfrom
  have hwordIdent := isIdentByte_of_eqIgnoreAsciiCase hword isIdentByte_fromKeyword
  have hne : word ≠ [] := by
    rintro rfl
    cases hlen
  have hdrop := drop_fromKeyword hlen hpost
  generalize afterFrom post = tail at *
  have hparts : post = codes word ++ (codes blank ++ tail) := by
    rw [hpost]
    simp [codes]
  rw [hdrop] at hnext ⊢
  rw [bytesOf_append, bytesOf_codes] at hnext
  rw [hparts] at hfrom htags hno
  have hno : NoPrefix name none pre (word ++ (blank ++ bytesOf tail)) := by simpa using hno
  have hstripped := tags_stripProviderPrefix hname hwordIdent hne hblank htags hno hnext
  have hwell := startsWell_lastByte hwordIdent hne hblank (lastByte none pre) tail
  generalize lastByte (lastByte none pre) (codes (word ++ blank)) = q at hstripped hwell
  -- what is written for the reference starts as it does
  have hhead : ∀ {d : UInt8}, d < 128 → isFollow d = false →
      (stripFrom name 0 0 q (bytesOf tail)).head? = some d → (bytesOf tail).head? = some d :=
    fun hd hfollow hhead => head?_of_head?_stripFrom hd hfollow hhead
  rw [all_not_eq, Bool.not_eq_true'] at hident
  have hident' : ((blank ++ stripFrom name 0 0 q (bytesOf tail)).head?).any isIdentByte =
      false := by
    cases blank with
    | cons b blank => exact isIdentByte_of_isAsciiWhitespace (hblank b List.mem_cons_self)
    | nil =>
        refine isIdentByte_head?_stripFrom ?_ hident
        rw [Bool.eq_false_iff]
        exact fun hboundary => hwell.mp hboundary rfl
  refine ⟨q, tags .code (stripFrom name 0 0 q (bytesOf tail)), ?_, by rw [bytesOf_tags], hwell⟩
  generalize stripFrom name 0 0 q (bytesOf tail) = out at hstripped hhead hident' ⊢
  have hafter : afterFrom (codes word ++ (codes blank ++ tags .code out)) = tags .code out := by
    refine afterFrom_codes hlen hblank fun b hb => ?_
    rw [bytesOf_tags] at hb
    rw [Bool.eq_false_iff]
    intro hblankHead
    rw [hhead (lt_of_isAsciiWhitespace hblankHead) (isFollow_of_isAsciiWhitespace hblankHead) hb]
      at hspace
    simp [hblankHead] at hspace
  have hidentTags : ((bytesOf (codes blank ++ tags .code out)).head?).any isIdentByte = false := by
    rw [bytesOf_append, bytesOf_codes, bytesOf_tags]
    exact hident'
  rw [htags] at hfrom
  have hsplit := splitKeyword_written isName_fromKeyword hwordIdent hlen
    (by rwa [bytesOf_append, bytesOf_codes]) hidentTags hfrom
    (by rwa [bytesOf_append, bytesOf_codes])
  rw [← hstripped] at hsplit
  have hopen : (bytesOf (afterFrom (codes word ++ (codes blank ++ tags .code out)))).head? ≠
      some '('.toUInt8 := by
    rw [hafter, bytesOf_tags]
    exact fun hopen => htable (hhead (by decide) (by decide) hopen)
  exact hafter ▸ TableAt.here hsplit hopen

/-- Where the scanners read alike, the first table reference of the statement is stripped to
that of the stripped statement. -/
theorem ReadAlike.exists_tableAt {name sql : List UInt8} (hread : ReadAlike name sql)
    (hname : SegmentName name) {depth : Nat} {text : List Tagged}
    (hbehind : BehindFrom (tags .code sql) depth text) (hnext : ¬ EndsPrefix name (bytesOf text)) :
    ∃ q tail, TableAt (tags .code (stripProviderPrefix sql name)) tail ∧
      bytesOf tail = stripFrom name 0 0 q (bytesOf (behindBlank text)) ∧
      StartsWell q text (behindBlank text) := by
  rcases hread with ⟨hreads, hparen⟩ | ⟨houtside, hclear⟩
  · have hplain : PlainName name := ⟨hname, hreads⟩
    obtain ⟨q, tail, htable, hstrips, hwell⟩ := Strips.tableAt hplain hbehind
      (fun hmem => hparen hmem hbehind) hnext (lexed_tags sql)
      (strips_stripProviderPrefix hplain sql) rfl
    exact ⟨q, tail, htable, hstrips.bytesOf_eq hplain (hbehind.tableAt.lexed (lexed_tags sql)),
      hwell⟩
  · obtain rfl := houtside hbehind
    cases hbehind with
    | here hfrom htable => exact exists_tableAt_of_frontClear hname hclear hfrom htable hnext

/-! ## Routed references -/

/-- Whatever the statement is routed to, its first table reference is qualified by that
name, and the stripped statement names what the name qualifies. -/
def RoutesQualified (providerExists : List UInt8 → Bool) (sql : List UInt8) : Prop :=
  ∀ {name stripped}, computeRoute providerExists sql = some (name, stripped) →
    ∃ rest, rest ≠ [] ∧ firstTableName sql = some (name ++ '.'.toUInt8 :: rest) ∧
      firstTableName stripped = some rest

/-- The first byte of a name, with a dot behind the name, opens no region. -/
def StartsInCode (name : List UInt8) : Prop :=
  ∃ b ts, tags .code (name ++ ['.'.toUInt8]) = ⟨b, true⟩ :: ts

/-- The first table reference is the name, whose first byte opens no region, a dot, and
something that a prefix can stand before; the two scanners read alike.  Between the `from` and
the name there is whitespace, or a vertical tab, and nothing else.  Behind the dot stripping
changes nothing. -/
def CleanReference (name sql : List UInt8) : Prop :=
  ReadAlike name sql ∧ StartsInCode name ∧ ∃ depth text blank pad rest,
    BehindFrom (tags .code sql) depth text ∧
    bytesOf text = blank ++ (pad ++ (name ++ '.'.toUInt8 :: rest)) ∧
    (∀ b ∈ blank, isAsciiWhitespace b = true) ∧ (∀ b ∈ pad, b = 0x0B) ∧ blank ++ pad ≠ [] ∧
    (rest.head?).any isFollow = true ∧ Untouched name (some '.'.toUInt8) (tags .code rest)

/-- If the first segment of the first table reference is a provider, the reference is
clean. -/
def RoutesCleanly (providerExists : List UInt8 → Bool) (sql : List UInt8) : Prop :=
  ∀ {table}, firstTableName sql = some table →
    table.takeWhile (· ≠ '.'.toUInt8) ≠ [] →
    providerExists (table.takeWhile (· ≠ '.'.toUInt8)) = true →
    CleanReference (table.takeWhile (· ≠ '.'.toUInt8)) sql

theorem computeRoute_eq_some_iff {providerExists : List UInt8 → Bool}
    {sql name stripped : List UInt8} :
    computeRoute providerExists sql = some (name, stripped) ↔
      ∃ table, firstTableName sql = some table ∧ table.takeWhile (· ≠ '.'.toUInt8) = name ∧
        name ≠ [] ∧ providerExists name = true ∧ stripProviderPrefix sql name = stripped := by
  rw [computeRoute]
  cases firstTableName sql with
  | none => simp
  | some table =>
      simp only [Option.some.injEq, exists_eq_left']
      by_cases hnone : table.takeWhile (· ≠ '.'.toUInt8) = [] ∨
          providerExists (table.takeWhile (· ≠ '.'.toUInt8)) = false
      · rw [if_pos hnone]
        simp only [reduceCtorEq, false_iff]
        rintro ⟨rfl, hne, hexists, -⟩
        rcases hnone with hnil | hfalse
        · exact hne hnil
        · rw [hexists] at hfalse
          cases hfalse
      · rw [if_neg hnone]
        rw [not_or, Bool.not_eq_false] at hnone
        simp only [Option.some.injEq, Prod.mk.injEq]
        constructor
        · rintro ⟨rfl, rfl⟩
          exact ⟨rfl, hnone.1, hnone.2, rfl⟩
        · rintro ⟨rfl, -, -, rfl⟩
          exact ⟨rfl, rfl⟩

/-- The bytes of the first table reference do not end it, and it does not start with a
blank. -/
theorem bytes_of_firstTableName {sql table : List UInt8} (h : firstTableName sql = some table) :
    (∀ b ∈ table, endsTable b = false) ∧ ∀ char ∈ whitespaceChars, ¬ char <+: table := by
  obtain ⟨tail, -, htrim, -⟩ := firstTableName_eq_some_iff.mp h
  obtain ⟨⟨left, right, -, -, htext⟩, hstart⟩ := exists_of_trim htrim
  rw [tableToken_eq] at htext
  refine ⟨fun b hb => @endsTable_of_mem_tableBytes (bytesOf tail) b ?_, hstart⟩
  rw [htext]
  exact List.mem_append_right _ (List.mem_append_left _ hb)

/-- The first segment of the first table reference. -/
theorem segmentName_of_firstTableName {sql table : List UInt8}
    (h : firstTableName sql = some table) (hne : table.takeWhile (· ≠ '.'.toUInt8) ≠ []) :
    SegmentName (table.takeWhile (· ≠ '.'.toUInt8)) where
  ne_nil := hne
  dot hmem := by simpa using List.mem_takeWhile_imp hmem
  ends b hb := (bytes_of_firstTableName h).1 b (List.IsPrefix.mem hb (List.takeWhile_prefix _))

/-- Vertical tabs are blank. -/
theorem blank_of_tabs {pad : List UInt8} (hpad : ∀ b ∈ pad, b = 0x0B) : Blank pad := by
  induction pad with
  | nil => exact .nil
  | cons b pad ih =>
      rw [hpad b List.mem_cons_self]
      have htab : ([0x0B] : List UInt8) ∈ whitespaceChars := by decide
      exact Words.cons htab (ih fun b hb => hpad b (List.mem_cons_of_mem _ hb))

/-- A prefix in front of a text without a blank at its end has none either. -/
theorem prefix_not_suffix {name rest : List UInt8}
    (hend : ∀ char ∈ whitespaceChars, ¬ char <:+ rest) :
    ∀ char ∈ whitespaceChars, ¬ char <:+ name ++ '.'.toUInt8 :: rest := by
  rintro char hchar ⟨left, heq⟩
  have hdot : '.'.toUInt8 ∉ char := by
    intro hmem
    have hbyte : isBlankByte '.'.toUInt8 = true :=
      List.any_eq_true.mpr ⟨char, hchar, by simpa using hmem⟩
    exact absurd hbyte isBlankByte_dot
  rcases List.append_eq_append_iff.mp heq with ⟨d, -, rfl⟩ | ⟨d, -, hd⟩
  · exact hdot (List.mem_append_right _ List.mem_cons_self)
  · cases d with
    | nil =>
        rw [List.nil_append] at hd
        exact hdot (hd ▸ List.mem_cons_self)
    | cons e d =>
        rw [List.cons_append] at hd
        exact hend char hchar ⟨d, (List.cons.inj hd).2.symm⟩

/-- What does not start with a blank does not start with one in front of a dot. -/
theorem not_prefix_append_dot {name : List UInt8}
    (hname : ∀ char ∈ whitespaceChars, ¬ char <+: name) (rest : List UInt8) :
    ∀ char ∈ whitespaceChars, ¬ char <+: name ++ '.'.toUInt8 :: rest := by
  rintro char hchar ⟨tail, heq⟩
  rcases List.append_eq_append_iff.mp heq with ⟨d, hd, -⟩ | ⟨d, rfl, hd⟩
  · exact hname char hchar ⟨d, hd.symm⟩
  · cases d with
    | nil => exact hname _ hchar (by simp)
    | cons c d =>
        have hbyte : isBlankByte '.'.toUInt8 = true :=
          List.any_eq_true.mpr ⟨_, hchar, by simp [(List.cons.inj hd).1]⟩
        exact absurd hbyte isBlankByte_dot

/-- No prefix ends in front of a whole one. -/
theorem not_endsPrefix {name gap after : List UInt8} (hname : '.'.toUInt8 ∉ name)
    (hgap : '.'.toUInt8 ∉ gap) : ¬ EndsPrefix name (gap ++ name ++ '.'.toUInt8 :: after) := by
  rintro ⟨left, right, rest, hleft, rfl, heq⟩
  have hright : '.'.toUInt8 ∉ right := fun h => hname (List.mem_append_right _ h)
  rcases append_cons_cases heq with ⟨mid, hmid⟩ | ⟨hsame, -, -⟩ | ⟨mid, hmid⟩
  · exact hright (hmid ▸ by simp)
  · have hlen := congrArg List.length hsame
    have hpos := List.length_pos_of_ne_nil hleft
    simp only [List.length_append] at hlen
    omega
  · have hdot : '.'.toUInt8 ∈ gap ++ (left ++ right) := hmid ▸ by simp
    exact (List.mem_append.mp hdot).elim hgap hname

/-- The loop sees code at the first byte of a name that starts in code. -/
theorem startsInCode_cons_iff {b : UInt8} {left rest : List UInt8} :
    StartsInCode (b :: left) ↔ stripSkip b (left ++ '.'.toUInt8 :: rest) = none := by
  have hpeek : (left ++ ['.'.toUInt8]).head? = (left ++ '.'.toUInt8 :: rest).head? := by
    cases left <;> rfl
  rw [StartsInCode, List.cons_append, tags, hpeek, stripSkip_eq_none_iff]
  constructor
  · rintro ⟨c, ts, htags⟩
    exact (Tagged.mk.inj (List.cons.inj htags).1).2
  · intro hcode
    rw [hcode]
    exact ⟨b, _, rfl⟩

/-- Behind the whitespace the bytes of a text start with the first that is none. -/
theorem bytesOf_behindBlank {text : List Tagged} {blank bytes : List UInt8}
    (htext : bytesOf text = blank ++ bytes) (hblank : ∀ b ∈ blank, isAsciiWhitespace b = true)
    (hbytes : ∀ b, bytes.head? = some b → isAsciiWhitespace b = false) :
    bytesOf (behindBlank text) = bytes := by
  have hdrop : bytesOf (behindBlank text) = (bytesOf text).dropWhile isAsciiWhitespace := by
    rw [behindBlank, bytesOf, bytesOf, List.dropWhile_map]
    rfl
  rw [hdrop, htext]
  exact Foundation.dropWhile_append_of_head? hblank fun b hb => by
    simpa using hbytes b (Option.mem_def.mp hb)

/-- A prefix may start at the name of the first table reference where something stands between
the `from` and the name. -/
theorem StartsWell.isBoundary_iff {text : List Tagged} {blank pad bytes : List UInt8}
    {q : Option UInt8} (h : StartsWell q text (behindBlank text))
    (htext : bytesOf text = blank ++ bytes) (hbytes : bytesOf (behindBlank text) = bytes)
    (hpad : ∀ b ∈ pad, isBoundary (some b) = true) :
    isBoundary (lastByte q (codes pad)) = true ↔ blank ++ pad ≠ [] := by
  rw [lastByte, bytesOf_codes]
  cases hlast : pad.getLast? with
  | none =>
      obtain rfl := List.getLast?_eq_none_iff.mp hlast
      refine h.trans (not_congr ?_)
      rw [List.append_nil]
      constructor
      · intro heq
        rw [← heq, htext] at hbytes
        simpa using hbytes
      · rintro rfl
        have hlen := congrArg List.length (htext.trans hbytes.symm)
        rw [length_bytesOf, length_bytesOf] at hlen
        have hsuffix : behindBlank text <:+ text := List.dropWhile_suffix _
        exact (List.IsSuffix.eq_of_length hsuffix hlen.symm).symm
  | some b =>
      have hmem := List.mem_of_getLast? hlast
      refine iff_of_true (hpad b hmem) fun hnil => ?_
      rw [(List.append_eq_nil_iff.mp hnil).2] at hmem
      cases hmem

theorem mem_of_head?_reference {name pad rest : List UInt8} (hname : name ≠ []) {b : UInt8}
    (h : (pad ++ (name ++ rest)).head? = some b) : b ∈ pad ∨ b ∈ name := by
  rw [← List.append_assoc, List.head?_append_of_ne_nil _ (by simp [hname])] at h
  exact List.mem_append.mp (List.mem_of_head? h)

/-- What stands in front of the name of the first table reference is written byte by byte. -/
theorem stripFrom_reference {name pad : List UInt8} (hname : SegmentName name)
    (hpad : ∀ b ∈ pad, b = 0x0B ∨ ¬ b < 128) (q : Option UInt8) (rest : List UInt8) :
    stripFrom name 0 0 q (pad ++ (name ++ '.'.toUInt8 :: rest)) = pad.flatMap charBytes ++
      stripFrom name 0 0 (lastByte q (codes pad)) (name ++ '.'.toUInt8 :: rest) := by
  have hplain : ∀ b ∈ pad, isOpener b = false ∧ b ≠ '.'.toUInt8 := by
    intro b hb
    rcases hpad b hb with rfl | hwide
    · decide
    · exact ⟨isOpener_of_not_lt hwide, fun h => hwide (by rw [h]; decide)⟩
  exact stripFrom_codes (fun b hb => (hplain b hb).1)
    (noPrefix_pad hname.dot (fun hmem => (hplain _ hmem).2 rfl) q rest)

/-- A name in code, behind a boundary and in front of something that can follow a prefix, is
left out. -/
theorem stripFrom_segment {name : List UInt8} (hname : SegmentName name)
    (hcode : StartsInCode name) {prev : Option UInt8} (hprev : isBoundary prev = true)
    {rest : List UInt8} (hfollow : (rest.head?).any isFollow = true) :
    stripFrom name 0 0 prev (name ++ '.'.toUInt8 :: rest) =
      stripFrom name 0 0 (some '.'.toUInt8) rest := by
  obtain ⟨b, left, rfl⟩ := List.exists_cons_of_ne_nil hname.ne_nil
  have hat := @prefixAt_of_follow (b :: left) rest hfollow
  have hskip : stripSkip b (left ++ '.'.toUInt8 :: rest) = none := startsInCode_cons_iff.mp hcode
  obtain ⟨tail, heq, -, hout⟩ := stripFrom_delete hskip (by rw [hprev]; exact hat)
  have hdot : (b :: left) ++ '.'.toUInt8 :: rest = (b :: left) ++ '.'.toUInt8 :: tail := heq
  rw [List.cons_append, hout, (List.cons.inj (List.append_cancel_left hdot)).2]

/-- The first byte of a name that is not left out is written. -/
theorem exists_of_first_kept {name : List UInt8} {prev : Option UInt8} {b : UInt8}
    {left rest : List UInt8} (hname : name = b :: left)
    (hkeep : ¬ (StartsInCode name ∧ isBoundary prev = true ∧
      (rest.head?).any isFollow = true)) :
    ∃ bytes code out, stripFrom name 0 0 prev (name ++ '.'.toUInt8 :: rest) = bytes ++ out ∧
      (bytes = [b] ∨ bytes = charBytes b) ∧
      Writes name code (some b) (left ++ '.'.toUInt8 :: rest) out := by
  subst hname
  cases hskip : stripSkip b (left ++ '.'.toUInt8 :: rest) with
  | some n =>
      refine ⟨[b], false, _, ?_, .inl rfl, (writes_stripFrom _ n _ _).weaken⟩
      rw [List.cons_append, stripFrom, hskip]
      rfl
  | none =>
      have hnot : (isBoundary prev &&
          prefixAt (b :: left) (b :: (left ++ '.'.toUInt8 :: rest))) = false := by
        rw [Bool.eq_false_iff]
        intro hdelete
        obtain ⟨tail, heq, hfollow, -⟩ := stripFrom_delete hskip hdelete
        have hparts : (b :: left) ++ '.'.toUInt8 :: rest = (b :: left) ++ '.'.toUInt8 :: tail := heq
        rw [← (List.cons.inj (List.append_cancel_left hparts)).2] at hfollow
        exact hkeep ⟨startsInCode_cons_iff.mpr hskip, (Bool.and_eq_true_iff.mp hdelete).1, hfollow⟩
      exact ⟨charBytes b, true, _, stripFrom_code hskip hnot, .inr rfl, writes_stripFrom _ 0 _ _⟩

/-- A name before a dot that is not left out is written, and the dot behind it. -/
theorem exists_of_kept {name : List UInt8} (hname : SegmentName name) {prev : Option UInt8}
    {rest : List UInt8} (hkeep : ¬ (StartsInCode name ∧ isBoundary prev = true ∧
      (rest.head?).any isFollow = true)) :
    ∃ code text out, stripFrom name 0 0 prev (name ++ '.'.toUInt8 :: rest) =
        text ++ '.'.toUInt8 :: out ∧ '.'.toUInt8 ∉ text ∧ (∀ b ∈ text, endsTable b = false) ∧
      Writes name code (some '.'.toUInt8) rest out := by
  obtain ⟨b, left, hparts⟩ := List.exists_cons_of_ne_nil hname.ne_nil
  have hmem : b ∈ name := hparts ▸ List.mem_cons_self
  have hleft : ∀ c ∈ left, c ∈ name := fun c hc => hparts ▸ List.mem_cons_of_mem _ hc
  obtain ⟨bytes, code, out, hout, hbytes, hwrites⟩ := exists_of_first_kept hparts hkeep
  have hbytesDot : '.'.toUInt8 ∉ bytes := by
    have hb : b ≠ '.'.toUInt8 := fun h => hname.dot (h ▸ hmem)
    rcases hbytes with rfl | rfl
    · simpa using hb.symm
    · exact dot_notMem_charBytes hb
  have hbytesEnds : ∀ c ∈ bytes, endsTable c = false := by
    rcases hbytes with rfl | rfl
    · simpa using hname.ends b hmem
    · exact endsTable_of_mem_charBytes (hname.ends b hmem)
  rcases hwrites.to_dot hname (fun hdot => hname.dot (hleft _ hdot))
    (fun c hc => hname.ends c (hleft c hc)) with
    @⟨code', text, out', rfl, hdot, hends, hrest⟩ | ⟨htext, -⟩
  · refine ⟨code', bytes ++ text, out', by rw [hout, List.append_assoc], ?_, ?_, hrest⟩
    · exact fun hmem => (List.mem_append.mp hmem).elim hbytesDot hdot
    · exact fun c hc => (List.mem_append.mp hc).elim (hbytesEnds c) (hends c)
  · -- the rest of the name is shorter than the name
    have hlen := congrArg List.length htext
    rw [hparts] at hlen
    simp only [List.length_append, List.length_cons] at hlen
    omega

theorem isBoundary_of_pad {b : UInt8} (hb : b = 0x0B ∨ ¬ b < 128) :
    isBoundary (some b) = true := by
  rcases hb with rfl | hwide
  · decide
  · have hdot : b ≠ '.'.toUInt8 := fun h => hwide (by rw [h]; decide)
    simp [isBoundary, isIdentByte_of_not_lt hwide, hdot]

/-- The characters written for bytes that do not end a reference do not end it. -/
theorem endsTable_of_mem_written {bytes : List UInt8} (h : ∀ b ∈ bytes, endsTable b = false) :
    ∀ b ∈ bytes.flatMap charBytes, endsTable b = false := by
  intro b hb
  obtain ⟨c, hc, hb⟩ := List.mem_flatMap.mp hb
  exact endsTable_of_mem_charBytes (h c hc) b hb

theorem dot_notMem_written {pad : List UInt8} (hpad : ∀ b ∈ pad, b = 0x0B ∨ ¬ b < 128) :
    '.'.toUInt8 ∉ pad.flatMap charBytes := by
  intro hmem
  obtain ⟨c, hc, hmem⟩ := List.mem_flatMap.mp hmem
  rcases hpad c hc with rfl | hwide
  · exact absurd hmem (by decide)
  · exact List.count_eq_zero.mp (count_charBytes_of_not_lt hwide (by decide)) hmem

/-- The `from` of a qualified reference stands in no prefix. -/
theorem not_endsPrefix_reference {name blank pad after : List UInt8} (hname : '.'.toUInt8 ∉ name)
    (hblank : ∀ b ∈ blank, isAsciiWhitespace b = true) (hpad : '.'.toUInt8 ∉ pad) :
    ¬ EndsPrefix name (blank ++ (pad ++ (name ++ '.'.toUInt8 :: after))) := by
  rw [← List.append_assoc, ← List.append_assoc]
  refine not_endsPrefix hname fun hdot => ?_
  rcases List.mem_append.mp hdot with hdot | hdot
  · exact absurd (hblank _ hdot) (by decide)
  · exact hpad hdot

/-- A clean reference is qualified, and the stripped statement names what it qualifies. -/
theorem CleanReference.names {name sql : List UInt8} (h : CleanReference name sql)
    (hname : SegmentName name) (hblankFree : ∀ char ∈ whitespaceChars, ¬ char <+: name) :
    ∃ rest, rest ≠ [] ∧ firstTableName sql = some (name ++ '.'.toUInt8 :: rest) ∧
      firstTableName (stripProviderPrefix sql name) = some rest := by
  obtain ⟨hread, hcode, depth, text, blank, pad, after, hbehind, htext, hblank, hpad, hgap,
    hfollow, huntouched⟩ := h
  have hpadPlain : ∀ b ∈ pad, endsTable b = false ∧ isAsciiWhitespace b = false ∧
      isBoundary (some b) = true ∧ b < 128 := by
    intro b hb
    rw [hpad b hb]
    decide
  have hpadEnds : ∀ b ∈ pad, endsTable b = false := fun b hb => (hpadPlain b hb).1
  have hpadBlank := blank_of_tabs hpad
  have htail : bytesOf (behindBlank text) = pad ++ (name ++ '.'.toUInt8 :: after) := by
    refine bytesOf_behindBlank htext hblank fun b hb => ?_
    rcases mem_of_head?_reference hname.ne_nil hb with hmem | hmem
    · exact (hpadPlain b hmem).2.1
    · rw [Bool.eq_false_iff]
      intro hspace
      have hends := hname.ends b hmem
      rw [endsTable_iff.mpr (.inl hspace)] at hends
      cases hends
  obtain ⟨next, more, htoken, hnext⟩ := exists_tableBytes_of_follow hfollow
  obtain ⟨⟨right, hright, hparts⟩, hend⟩ := (trimEnd_eq_iff nil_notMem_whitespaceChars
    whitespaceChars_suffix_free).mp (rfl : trimEnd whitespaceChars (tableBytes after) = _)
  generalize trimEnd whitespaceChars (tableBytes after) = rest at hparts hend
  have hlead := isBlankLead_of_isFollow hnext
  have hrest : rest ≠ [] := by
    rintro rfl
    rw [List.nil_append] at hparts
    rw [isBlankLead_of_blank (htoken ▸ hparts ▸ hright)] at hlead
    cases hlead
  have hstart : ∀ char ∈ whitespaceChars, ¬ char <+: rest ++ right := by
    rw [← hparts, htoken]
    exact not_prefix_of_isBlankLead hlead more
  refine ⟨rest, hrest, ?_, ?_⟩
  · refine firstTableName_eq_some_iff.mpr ⟨_, hbehind.tableAt, ?_, by simp⟩
    have hreference : tableToken (behindBlank text) =
        pad ++ ((name ++ '.'.toUInt8 :: rest) ++ right) := by
      rw [tableToken_eq, htail, tableBytes_append hpadEnds, tableBytes_segment hname.ends, hparts]
      simp
    rw [hreference]
    refine trim_eq hpadBlank hright ?_ (prefix_not_suffix hend)
    rw [List.append_assoc, List.cons_append]
    exact not_prefix_append_dot hblankFree _
  · have hprefix : ¬ EndsPrefix name (bytesOf text) :=
      htext ▸ not_endsPrefix_reference hname.dot hblank fun hdot => absurd (hpad _ hdot) (by decide)
    obtain ⟨q, tail, htable, hwritten, hwell⟩ := hread.exists_tableAt hname hbehind hprefix
    have hboundary := (hwell.isBoundary_iff htext htail fun b hb =>
      (hpadPlain b hb).2.2.1).mpr hgap
    refine firstTableName_eq_some_iff.mpr ⟨tail, htable, ?_, hrest⟩
    rw [tableToken_eq, hwritten, htail, stripFrom_reference hname (fun b hb => .inl (hpad b hb)),
      stripFrom_segment hname hcode hboundary hfollow,
      flatMap_charBytes (fun b hb => (hpadPlain b hb).2.2.2), tableBytes_append hpadEnds,
      tableBytes_stripFrom hname (tagsFrom_stripSkip after) huntouched, hparts]
    exact trim_eq hpadBlank hright hstart hend

/-! ### The other direction -/

/-- The bytes of blanks that do not end a reference: the vertical tab, and bytes that are
not ASCII. -/
theorem isBlankByte_cases {b : UInt8} (hblank : isBlankByte b = true)
    (hends : endsTable b = false) : b = 0x0B ∨ ¬ b < 128 := by
  by_cases hlt : b < 128
  · have hascii := isBlankByte_ascii hblank hlt
    grind [endsTable_iff, isAsciiWhitespace_iff]
  · exact .inr hlt

theorem eq_tab_of_head : ∀ char ∈ whitespaceChars, char.head? = some 0x0B → char = [0x0B] := by
  decide

/-- A blank is vertical tabs, or has a character of several bytes after some. -/
theorem Blank.cases {pad : List UInt8} (h : Blank pad) (hends : ∀ b ∈ pad, endsTable b = false) :
    (∀ b ∈ pad, b = 0x0B) ∨
    ∃ tabs c rest, pad = tabs ++ c :: rest ∧ (∀ b ∈ tabs, b = 0x0B) ∧ ¬ c < 128 ∧
      isBlankLead c = true := by
  induction h with
  | nil => exact .inl (by simp)
  | @cons char rest hchar hrest ih =>
      cases char with
      | nil => exact absurd hchar nil_notMem_whitespaceChars
      | cons c char =>
          have hblank : Blank (c :: char ++ rest) := .cons hchar hrest
          have hc : c ∈ c :: char ++ rest := List.mem_cons_self
          rcases isBlankByte_cases (isBlankByte_of_blank hblank hc) (hends c hc) with rfl | hwide
          · obtain rfl : char = [] := (List.cons.inj (eq_tab_of_head _ hchar rfl)).2
            rcases ih fun b hb => hends b (List.mem_cons_of_mem _ hb) with
              htabs | ⟨tabs, c, rest', rfl, htabs, hc, hlead⟩
            · exact .inl (by simpa using htabs)
            · refine .inr ⟨0x0B :: tabs, c, rest', rfl, ?_, hc, hlead⟩
              simpa using htabs
          · exact .inr ⟨[], c, char ++ rest, rfl, by simp, hwide, isBlankLead_of_blank hblank⟩

/-- The first byte written for a character that is trimmed is no byte of one. -/
theorem isBlankByte_charBytes {c : UInt8} (hc : ¬ c < 128) (hlead : isBlankLead c = true) :
    ∃ lead tail, charBytes c = [lead, tail] ∧ ¬ lead < 128 ∧ ¬ tail < 128 ∧
      isBlankByte lead = false := by
  obtain ⟨lead, tail, heq, hlead', htail⟩ := charBytes_of_not_lt hc
  refine ⟨lead, tail, heq, hlead', htail, ?_⟩
  have hpair := charBytes_of_isBlankLead hc hlead
  rw [(List.cons.inj (heq.symm.trans hpair)).1]
  decide

/-- A blank in front of what is cut out of a text: the first byte that is no tab. -/
theorem cut_after_tabs {tabs left rest right : List UInt8} {a r : UInt8}
    (htabs : ∀ b ∈ tabs, b = 0x0B) (ha : isBlankByte a = false) (hleft : Blank left)
    (hr : r ≠ 0x0B) (h : tabs ++ a :: right = left ++ r :: rest) :
    tabs = left ∧ a = r ∧ right = rest := by
  rcases append_cons_cases h with ⟨mid, rfl⟩ | hcut | ⟨mid, rfl⟩
  · rw [isBlankByte_of_blank hleft (by simp)] at ha
    cases ha
  · exact hcut
  · exact absurd (htabs r (by simp)) hr

/-- What stands behind a blank whose characters are written byte by byte: the blank is
vertical tabs, or what is cut out starts inside it, at a byte that is not ASCII. -/
theorem cut_after_blank {pad text left rest : List UInt8} {r : UInt8} (hpad : Blank pad)
    (hends : ∀ b ∈ pad, endsTable b = false) (hleft : Blank left) (hr : r ≠ 0x0B)
    (h : pad.flatMap charBytes ++ text = left ++ r :: rest) :
    (∀ b ∈ pad, b = 0x0B) ∨ ¬ r < 128 := by
  rcases hpad.cases hends with htabs | ⟨tabs, c, prest, rfl, htabs, hc, hlead⟩
  · exact .inl htabs
  · right
    obtain ⟨lead, tail, heq, hlead', -, hbyte⟩ := isBlankByte_charBytes hc hlead
    rw [List.flatMap_append, flatMap_charBytes (fun b hb => by rw [htabs b hb]; decide),
      List.flatMap_cons, heq, List.append_assoc] at h
    obtain ⟨-, rfl, -⟩ := cut_after_tabs htabs hbyte hleft hr h
    exact hlead'

/-- If the first prefix is left out and what is left names what stands behind it, nothing
but vertical tabs stood in front of it, and stripping changes nothing behind it. -/
theorem untouched_of_follow {name pad left rest right right' after : List UInt8}
    (hname : SegmentName name) (hpad : Blank pad) (hends : ∀ b ∈ pad, endsTable b = false)
    {r : UInt8} (hr : r ≠ 0x0B) (hfollow : isFollow r = true)
    (htoken : tableBytes after = r :: rest ++ right) (hright : Blank right)
    (htext : pad.flatMap charBytes ++ tableBytes (stripFrom name 0 0 (some '.'.toUInt8) after) =
      left ++ (r :: rest ++ right'))
    (hleft : Blank left) (hright' : Blank right') :
    (∀ b ∈ pad, b = 0x0B) ∧ Untouched name (some '.'.toUInt8) (tags .code after) := by
  rcases cut_after_blank hpad hends hleft hr htext with htabs | hwide
  · refine ⟨htabs, untouched_of_sameName hname ?_⟩
    -- the byte behind the dot is written as it is
    obtain ⟨tail, rfl, -⟩ := exists_of_tableBytes_cons htoken
    obtain ⟨out, hout⟩ : ∃ out,
        tableBytes (stripFrom name 0 0 (some '.'.toUInt8) (r :: tail)) = r :: out := by
      obtain ⟨copy, hcopy⟩ := stripFrom_cons_of_not_boundary name
        (show isBoundary (some '.'.toUInt8) = false by decide) (lt_of_isFollow hfollow) tail
      exact ⟨_, by rw [hcopy, tableBytes_cons (endsTable_of_isFollow hfollow)]⟩
    rw [flatMap_charBytes (fun b hb => by rw [htabs b hb]; decide), hout] at htext
    obtain ⟨-, -, hrest⟩ := cut_after_tabs htabs (isBlankByte_of_isFollow hfollow) hleft hr htext
    exact ⟨r :: rest, right, right', htoken, by rw [hout, hrest]; rfl, hright, hright'⟩
  · exact absurd (lt_of_isFollow hfollow) hwide

/-- If the first prefix is kept, what is left does not name what stands behind it. -/
theorem Writes.not_names_of_kept {name pad text left rest right right' after out : List UInt8}
    (hname : SegmentName name) {code : Bool}
    (h : Writes name code (some '.'.toUInt8) after out) (htextDot : '.'.toUInt8 ∉ text)
    (hpadDot : '.'.toUInt8 ∉ pad) (htoken : tableBytes after = rest ++ right)
    (hright : Blank right)
    (htext : pad ++ (text ++ '.'.toUInt8 :: tableBytes out) = left ++ (rest ++ right'))
    (hleft : Blank left) (hright' : Blank right') : False := by
  -- what is trimmed at the left ends in front of the dot
  have hleftDot : '.'.toUInt8 ∉ left := fun hmem =>
    isBlankByte_dot (isBlankByte_of_blank hleft hmem)
  obtain ⟨queue, hqueue, hafter⟩ : ∃ queue, '.'.toUInt8 ∉ queue ∧
      rest ++ right' = queue ++ '.'.toUInt8 :: tableBytes out := by
    rw [← List.append_assoc] at htext
    rcases List.append_eq_append_iff.mp htext with ⟨d, rfl, hd⟩ | ⟨d, hd, hafter⟩
    · cases d with
      | nil => exact ⟨[], by simp, hd.symm⟩
      | cons c d => exact absurd ((List.cons.inj hd).1 ▸ by simp) hleftDot
    · refine ⟨d, fun hmem => ?_, hafter⟩
      have hdot : '.'.toUInt8 ∈ pad ++ text := hd ▸ List.mem_append_right _ hmem
      exact (List.mem_append.mp hdot).elim hpadDot htextDot
  exact h.not_sameName_kept hname hqueue ⟨rest, right, right', htoken, hafter.symm, hright, hright'⟩

/-- Where the first table reference of a statement stands, if it is qualified: behind the
`from`, whitespace and what is trimmed. -/
theorem exists_reference {name sql rest : List UInt8} (hname : SegmentName name)
    (hsql : firstTableName sql = some (name ++ '.'.toUInt8 :: rest)) :
    ∃ depth text blank pad after right, BehindFrom (tags .code sql) depth text ∧
      bytesOf text = blank ++ (pad ++ (name ++ '.'.toUInt8 :: after)) ∧
      bytesOf (behindBlank text) = pad ++ (name ++ '.'.toUInt8 :: after) ∧
      (∀ b ∈ blank, isAsciiWhitespace b = true) ∧ Blank pad ∧
      (∀ b ∈ pad, endsTable b = false) ∧ tableBytes after = rest ++ right ∧ Blank right := by
  obtain ⟨tail, htable, htrim, -⟩ := firstTableName_eq_some_iff.mp hsql
  obtain ⟨⟨pad, right, hpad, hright, htext⟩, -⟩ := exists_of_trim htrim
  rw [tableToken_eq] at htext
  have hpadEnds : ∀ b ∈ pad, endsTable b = false := fun b hb =>
    endsTable_of_mem_tableBytes (htext ▸ List.mem_append_left _ hb)
  obtain ⟨depth, text, hbehind, rfl⟩ := htable.exists_behindFrom
  obtain ⟨blank, hblankText, hblank⟩ := hbehind.exists_blank (lexed_tags sql)
  obtain ⟨more, hbytes⟩ := exists_eq_tableBytes_append (bytesOf (behindBlank text))
  have htail : bytesOf (behindBlank text) =
      pad ++ (name ++ '.'.toUInt8 :: (rest ++ right ++ more)) := by
    rw [hbytes, htext]
    simp
  refine ⟨depth, text, blank, pad, rest ++ right ++ more, right, hbehind, ?_, htail, hblank, hpad,
    hpadEnds, ?_, hright⟩
  · rw [hblankText, bytesOf_append, bytesOf_codes, htail]
  · rw [htail, tableBytes_append hpadEnds, tableBytes_segment hname.ends] at htext
    simpa using htext

/-- If the stripped statement names what stands behind the prefix, the reference is clean
where the scanners read alike. -/
theorem cleanReference_of_names {name sql rest : List UInt8} (hname : SegmentName name)
    (hread : ReadAlike name sql) (hrest : rest ≠ [])
    (hsql : firstTableName sql = some (name ++ '.'.toUInt8 :: rest))
    (hstripped : firstTableName (stripProviderPrefix sql name) = some rest) :
    CleanReference name sql := by
  obtain ⟨depth, text, blank, pad, after, right, hbehind, hparts, htail, hblank, hpad, hpadEnds,
    htoken, hright⟩ := exists_reference hname hsql
  have hpadBytes : ∀ b ∈ pad, b = 0x0B ∨ ¬ b < 128 := fun b hb =>
    isBlankByte_cases (isBlankByte_of_blank hpad hb) (hpadEnds b hb)
  have hpadDot : '.'.toUInt8 ∉ pad := fun hmem =>
    isBlankByte_dot (isBlankByte_of_blank hpad hmem)
  have hprefix : ¬ EndsPrefix name (bytesOf text) :=
    hparts ▸ not_endsPrefix_reference hname.dot hblank hpadDot
  obtain ⟨q, tail, htable, hwritten, hwell⟩ := hread.exists_tableAt hname hbehind hprefix
  rw [htail, stripFrom_reference hname hpadBytes] at hwritten
  have hboundary := hwell.isBoundary_iff hparts htail fun b hb => isBoundary_of_pad (hpadBytes b hb)
  -- the reference of the stripped statement
  obtain ⟨tail', htable', htrim, -⟩ := firstTableName_eq_some_iff.mp hstripped
  obtain rfl := htable'.unique htable
  obtain ⟨⟨left, right', hleft, hright', htext⟩, hstart⟩ := exists_of_trim htrim
  rw [tableToken_eq, hwritten, tableBytes_append (endsTable_of_mem_written hpadEnds)] at htext
  by_cases hleave : StartsInCode name ∧ isBoundary (lastByte q (codes pad)) = true ∧
      (after.head?).any isFollow = true
  · obtain ⟨hcode, hprev, hfollow⟩ := hleave
    rw [stripFrom_segment hname hcode hprev hfollow] at htext
    obtain ⟨r, rest, rfl⟩ := List.exists_cons_of_ne_nil hrest
    have hr : r ≠ 0x0B := by
      rintro rfl
      exact hstart [0x0B] (by decide) ⟨rest, rfl⟩
    have hisFollow : isFollow r = true := by
      rw [head?_of_tableBytes htoken] at hfollow
      exact hfollow
    obtain ⟨htabs, huntouched⟩ := untouched_of_follow hname hpad hpadEnds hr hisFollow htoken
      hright htext hleft hright'
    exact ⟨hread, hcode, depth, text, blank, pad, after, hbehind, hparts, hblank, htabs,
      hboundary.mp hprev, hfollow, huntouched⟩
  · obtain ⟨code, text', out, hout, hdot, hends, hwrites⟩ := exists_of_kept hname hleave
    rw [hout, tableBytes_segment hends] at htext
    exact (hwrites.not_names_of_kept hname hdot (dot_notMem_written hpadBytes) htoken hright htext
      hleft hright').elim

/-- Whenever the first segment of the first table reference is a provider, the scanners read
alike. -/
def ReadsAlike (providerExists : List UInt8 → Bool) (sql : List UInt8) : Prop :=
  ∀ {table}, firstTableName sql = some table →
    table.takeWhile (· ≠ '.'.toUInt8) ≠ [] →
    providerExists (table.takeWhile (· ≠ '.'.toUInt8)) = true →
    ReadAlike (table.takeWhile (· ≠ '.'.toUInt8)) sql

/-- For every statement and every registry: the statement goes to a provider only by a
reference that the provider's name qualifies, and what it is sent names the table behind
the name, if whenever the first segment of the first table reference is a provider's name
the reference is clean; and only if, where the scanners read the statement alike. -/
theorem routes_qualified_iff (providerExists : List UInt8 → Bool) (sql : List UInt8) :
    (RoutesCleanly providerExists sql → RoutesQualified providerExists sql) ∧
    (ReadsAlike providerExists sql → RoutesQualified providerExists sql →
      RoutesCleanly providerExists sql) := by
  constructor
  · intro hclean name stripped hroute
    obtain ⟨table, htable, rfl, hne, hexists, rfl⟩ := computeRoute_eq_some_iff.mp hroute
    refine (hclean htable hne hexists).names (segmentName_of_firstTableName htable hne)
      fun char hchar hpre => ?_
    exact (bytes_of_firstTableName htable).2 char hchar (hpre.trans (List.takeWhile_prefix _))
  · intro hread hqualified table htable hne hexists
    obtain ⟨rest, hrest, hsql, hstripped⟩ := hqualified
      (computeRoute_eq_some_iff.mpr ⟨table, htable, rfl, hne, hexists, rfl⟩)
    exact cleanReference_of_names (segmentName_of_firstTableName htable hne)
      (hread htable hne hexists) hrest hsql hstripped

/-- A table that only has the name of a provider is routed to the provider. -/
theorem not_routes_qualified_unqualified :
    ¬ ∀ (providerExists : List UInt8 → Bool) (sql : List UInt8),
      RoutesQualified providerExists sql := by
  intro h
  have hroute : computeRoute (· == "geo".toUTF8.toList) "select a from geo".toUTF8.toList =
      some ("geo".toUTF8.toList, "select a from geo".toUTF8.toList) := by
    decide +kernel
  have htable : firstTableName "select a from geo".toUTF8.toList =
      some "geo".toUTF8.toList := by
    decide +kernel
  obtain ⟨rest, -, hqualified, -⟩ := h _ _ hroute
  rw [htable] at hqualified
  have hlen := congrArg (fun table => table.map List.length) hqualified
  simp at hlen

end WpKnowledge.SqlRoute
