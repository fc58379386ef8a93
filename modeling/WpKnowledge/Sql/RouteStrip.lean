import WpKnowledge.Sql.Route

/-!
# What stripping a prefix does to a statement

The relation {lit}`Strips` says, on tagged bytes, what `strip_provider_prefix` does: it
copies regions, writes each byte of code as a character, and leaves out the prefixes.
The scanners that locate the table reference read the stripped statement as they read
the original one.

Main results:

- Theorem {lit}`strips_stripProviderPrefix`: the stripped statement is read as the tagged
  bytes that the relation describes.
- Theorem {lit}`Strips.tableAt`: the stripped statement has its first table reference
  where the original one has it.
-/

namespace WpKnowledge.SqlRoute

/-! ## Stripping tagged bytes -/

/-- What stripping does to tagged bytes that stand after the byte {lit}`prev`. -/
inductive Strips (name : List UInt8) : Option UInt8 → List Tagged → List Tagged → Prop
  | nil (prev : Option UInt8) : Strips name prev [] []
  | region {prev : Option UInt8} {x : Tagged} {ts ts' : List Tagged} (hx : x.code = false)
      (hrest : Strips name (some x.byte) ts ts') : Strips name prev (x :: ts) (x :: ts')
  | copy {prev : Option UInt8} {b : UInt8} {ts ts' : List Tagged}
      (hkeep : (isBoundary prev && prefixAt name (b :: bytesOf ts)) = false)
      (hrest : Strips name (some b) ts ts') :
      Strips name prev (⟨b, true⟩ :: ts) (codes (charBytes b) ++ ts')
  | delete {prev : Option UInt8} {us us' : List Tagged} (hprev : isBoundary prev = true)
      (hfollow : ((bytesOf us).head?).any isFollow = true)
      (hrest : Strips name (some '.'.toUInt8) us us') :
      Strips name prev (codes name ++ ⟨'.'.toUInt8, true⟩ :: us) us'

/-- A name, or a keyword: a word of identifier bytes. -/
def IsName (name : List UInt8) : Prop :=
  name ≠ [] ∧ ∀ b ∈ name, isIdentByte b = true

theorem isName_fromKeyword : IsName fromKeyword :=
  ⟨by decide, isIdentByte_fromKeyword⟩

/-- What starts with a name starts with an identifier byte. -/
theorem IsName.head {name : List UInt8} (hname : IsName name) {b : UInt8} {rest tail : List UInt8}
    (h : b :: rest = name ++ tail) : isIdentByte b = true := by
  obtain ⟨hne, hident⟩ := hname
  cases name with
  | nil => exact absurd rfl hne
  | cons c left =>
      rw [(List.cons.inj h).1]
      exact hident c List.mem_cons_self

/-- The first segment of a reference: it has no dot, and no byte of it ends the reference. -/
structure SegmentName (name : List UInt8) : Prop where
  ne_nil : name ≠ []
  dot : '.'.toUInt8 ∉ name
  ends : ∀ b ∈ name, endsTable b = false

/-- A name that is read as code: up to the dot behind it no byte opens a region. -/
structure PlainName (name : List UInt8) : Prop extends SegmentName name where
  reads : tags .code (name ++ ['.'.toUInt8]) = codes (name ++ ['.'.toUInt8])

theorem endsTable_iff {b : UInt8} :
    endsTable b = true ↔ isAsciiWhitespace b = true ∨ b = 59 ∨ b = 44 ∨ b = 41 := by
  simp only [endsTable, Bool.or_eq_true, beq_iff_eq, or_assoc]
  exact Iff.rfl

theorem endsTable_of_isIdentByte {b : UInt8} (h : isIdentByte b = true) :
    endsTable b = false := by
  grind [isIdentByte_iff, endsTable_iff, isAsciiWhitespace_iff]

theorem SegmentName.not_isAsciiWhitespace {name : List UInt8} (hname : SegmentName name) {b : UInt8}
    (hb : b ∈ name) : isAsciiWhitespace b = false := by
  rw [Bool.eq_false_iff]
  intro hblank
  have hends := endsTable_iff.mpr (.inl hblank)
  rw [hname.ends b hb] at hends
  cases hends

theorem SegmentName.ne_newline {name : List UInt8} (hname : SegmentName name) {b : UInt8}
    (hb : b ∈ name) : b ≠ '\n'.toUInt8 := by
  rintro rfl
  exact absurd (hname.not_isAsciiWhitespace hb) (by decide)

/-- What starts with a name and a dot starts with a byte of the name. -/
theorem SegmentName.mem_head {name : List UInt8} (hname : SegmentName name) {b : UInt8}
    {rest tail : List UInt8} (h : b :: rest = name ++ tail) : b ∈ name := by
  obtain ⟨c, left, rfl⟩ := List.exists_cons_of_ne_nil hname.ne_nil
  rw [(List.cons.inj h).1]
  exact List.mem_cons_self

/-! ### Byte facts -/

theorem charBytes_of_lt {b : UInt8} (h : b < 128) : charBytes b = [b] :=
  if_pos h

/-- A property of the 256 bytes. -/
theorem forall_byte {P : UInt8 → Prop} (h : ∀ n < 256, P (UInt8.ofNat n)) (b : UInt8) : P b := by
  simpa using h b.toNat b.toNat_lt

/-- A byte that is not ASCII, as two bytes. -/
theorem charBytes_wide {b : UInt8} (h : ¬ b < 128) :
    charBytes b = if b < 192 then [0xC2, b] else [0xC3, b - 64] := by
  revert h
  exact forall_byte (P := fun b => ¬ b < 128 →
    charBytes b = if b < 192 then [0xC2, b] else [0xC3, b - 64]) (by decide +kernel) b

/-- A byte that is not ASCII is written as two bytes that are not ASCII either. -/
theorem charBytes_of_not_lt {b : UInt8} (h : ¬ b < 128) :
    ∃ lead tail, charBytes b = [lead, tail] ∧ ¬ lead < 128 ∧ ¬ tail < 128 := by
  rw [charBytes_wide h]
  by_cases hlow : b < 192
  · exact ⟨0xC2, b, if_pos hlow, by decide, h⟩
  · exact ⟨0xC3, b - 64, if_neg hlow, by decide, by grind⟩

theorem isFollow_iff {b : UInt8} :
    isFollow b = true ↔ isIdentByte b = true ∨ b = 34 ∨ b = 96 ∨ b = 91 := by
  simp only [isFollow, Bool.or_eq_true, beq_iff_eq, or_assoc]
  exact Iff.rfl

theorem lt_of_isFollow {b : UInt8} (h : isFollow b = true) : b < 128 := by
  grind [isFollow_iff, isIdentByte_iff]

theorem lt_of_isIdentByte {b : UInt8} (h : isIdentByte b = true) : b < 128 := by
  grind [isIdentByte_iff]

theorem isOpener_of_not_lt {b : UInt8} (h : ¬ b < 128) : isOpener b = false := by
  grind [isOpener_iff]

theorem isBoundary_of_isIdentByte {b : UInt8} (h : isIdentByte b = true) :
    isBoundary (some b) = false := by
  simp [isBoundary, h]

theorem any_isIdentByte_of_isBoundary {prev : Option UInt8} (h : isBoundary prev = true) :
    prev.any isIdentByte = false := by
  cases prev with
  | none => rfl
  | some p =>
      simp only [isBoundary, Option.all_some, Bool.and_eq_true, Bool.not_eq_true'] at h
      exact h.1

/-! ### The prefix at a position -/

/-- Where a prefix stands the bytes are the name, a dot and something that follows. -/
theorem prefixAt_iff {name bytes : List UInt8} :
    prefixAt name bytes = true ↔
      ∃ next rest, bytes = name ++ '.'.toUInt8 :: next :: rest ∧ isFollow next = true := by
  constructor
  · intro h
    simp only [prefixAt, Bool.and_eq_true, decide_eq_true_eq, beq_iff_eq] at h
    obtain ⟨⟨⟨-, hname⟩, hdot⟩, hfollow⟩ := h
    obtain ⟨rest, hrest⟩ := List.head?_eq_some_iff.mp hdot
    have htail : bytes.drop (name.length + 1) = rest := by
      rw [← List.drop_drop, hrest]
      rfl
    have hbytes : bytes = name ++ '.'.toUInt8 :: rest := by
      calc
        bytes = bytes.take name.length ++ bytes.drop name.length :=
          (List.take_append_drop _ _).symm
        _ = name ++ '.'.toUInt8 :: rest := by rw [hname, hrest]
    rw [htail] at hfollow
    cases rest with
    | nil => cases hfollow
    | cons next rest => exact ⟨next, rest, hbytes, hfollow⟩
  · rintro ⟨next, rest, rfl, hfollow⟩
    simp [prefixAt, hfollow, ← List.drop_drop]

theorem prefixAt_of_follow {name bytes : List UInt8}
    (h : (bytes.head?).any isFollow = true) :
    prefixAt name (name ++ '.'.toUInt8 :: bytes) = true := by
  cases bytes with
  | nil => cases h
  | cons next rest => exact prefixAt_iff.mpr ⟨next, rest, rfl, h⟩

/-- Leaving out bytes is going on behind them. -/
theorem stripFrom_drop (name : List UInt8) (left : List UInt8) (prev : Option UInt8)
    (b : UInt8) (rest : List UInt8) :
    stripFrom name 0 (left.length + 1) prev (left ++ b :: rest) =
      stripFrom name 0 0 (some b) rest := by
  induction left generalizing prev with
  | nil => rfl
  | cons c left ih => exact ih (some c)

/-- The stripping loop goes on in code where the reading does. -/
theorem stripSkip_eq_none_iff {b : UInt8} {rest : List UInt8} :
    stripSkip b rest = none ↔ (ScanState.code.next b rest.head?).1 = true := by
  have htags := tagsFrom_stripSkip (b :: rest)
  rw [tagsFrom, tags] at htags
  cases hskip : stripSkip b rest with
  | none =>
      rw [hskip] at htags
      exact iff_of_true rfl (Tagged.mk.inj (List.cons.inj htags).1).2.symm
  | some n =>
      rw [hskip] at htags
      have hregion := (Tagged.mk.inj (List.cons.inj htags).1).2.symm
      exact iff_of_false (by simp) (by simp [hregion])

theorem stripSkip_of_not_opener {b : UInt8} (h : isOpener b = false) (rest : List UInt8) :
    stripSkip b rest = none :=
  stripSkip_eq_none_iff.mpr (by rw [ScanState.next_code h])

/-- What is read as code in front of a byte is code in front of any text with it. -/
theorem tags_append_of_codes {left : List UInt8} {c : UInt8}
    (h : tags .code (left ++ [c]) = codes (left ++ [c])) (rest : List UInt8) :
    tags .code (left ++ c :: rest) = codes left ++ tags .code (c :: rest) := by
  induction left with
  | nil => rfl
  | cons b left ih =>
      have hpeek : (left ++ [c]).head? = (left ++ c :: rest).head? := by
        cases left <;> rfl
      rw [List.cons_append, tags, codes, List.map_cons] at h
      obtain ⟨hhead, htail⟩ := List.cons.inj h
      have hcode : (ScanState.code.next b (left ++ [c]).head?).1 = true :=
        congrArg Tagged.code hhead
      have hnext := ScanState.next_of_code hcode
      rw [hnext] at htail
      rw [hpeek] at hcode hnext
      rw [List.cons_append, tags, hcode, hnext, ih htail]
      rfl

/-- A prefix is code. -/
theorem PlainName.tags {name : List UInt8} (hname : PlainName name) (rest : List UInt8) :
    tags .code (name ++ '.'.toUInt8 :: rest) =
      codes name ++ ⟨'.'.toUInt8, true⟩ :: tags .code rest := by
  rw [tags_append_of_codes hname.reads, tags_code_cons (by decide)]

/-- What the loop does at a byte: in a region it copies the byte, in code it leaves a prefix
out or writes a character. -/
theorem stripFrom_cons_cases (name : List UInt8) {s : ScanState} {copy : Nat}
    (prev : Option UInt8) {b : UInt8} {rest : List UInt8}
    (hcopy : tagsFrom stripSkip copy (b :: rest) = tags s (b :: rest)) :
    ((s.next b rest.head?).1 = false ∧ ∃ copy',
      tagsFrom stripSkip copy' rest = tags (s.next b rest.head?).2 rest ∧
      stripFrom name copy 0 prev (b :: rest) = b :: stripFrom name copy' 0 (some b) rest) ∨
    ((s.next b rest.head?).1 = true ∧ copy = 0 ∧ stripSkip b rest = none ∧
      (s.next b rest.head?).2 = .code) := by
  cases copy with
  | succ copy =>
      rw [tagsFrom, tags] at hcopy
      obtain ⟨hhead, htail⟩ := List.cons.inj hcopy
      exact .inl ⟨(Tagged.mk.inj hhead).2.symm, copy, htail, rfl⟩
  | zero =>
      cases hskip : stripSkip b rest with
      | some n =>
          rw [tagsFrom, hskip, tags] at hcopy
          obtain ⟨hhead, htail⟩ := List.cons.inj hcopy
          exact .inl ⟨(Tagged.mk.inj hhead).2.symm, n, htail, by rw [stripFrom, hskip]⟩
      | none =>
          rw [tagsFrom, hskip, tags] at hcopy
          have hcode := (Tagged.mk.inj (List.cons.inj hcopy).1).2.symm
          exact .inr ⟨hcode, rfl, rfl, ScanState.next_of_code hcode⟩

/-- A byte of code that starts no prefix is written as a character. -/
theorem stripFrom_code {name : List UInt8} {prev : Option UInt8} {b : UInt8} {rest : List UInt8}
    (hskip : stripSkip b rest = none)
    (hkeep : (isBoundary prev && prefixAt name (b :: rest)) = false) :
    stripFrom name 0 0 prev (b :: rest) = charBytes b ++ stripFrom name 0 0 (some b) rest := by
  rw [stripFrom, hskip]
  simp only [hkeep, Bool.false_eq_true, if_false]

/-- A prefix that is left out: the loop goes on behind its dot. -/
theorem stripFrom_delete {name : List UInt8} {prev : Option UInt8} {b : UInt8} {rest : List UInt8}
    (hskip : stripSkip b rest = none)
    (hdelete : (isBoundary prev && prefixAt name (b :: rest)) = true) :
    ∃ tail, b :: rest = name ++ '.'.toUInt8 :: tail ∧ (tail.head?).any isFollow = true ∧
      stripFrom name 0 0 prev (b :: rest) = stripFrom name 0 0 (some '.'.toUInt8) tail := by
  obtain ⟨-, hat⟩ := Bool.and_eq_true_iff.mp hdelete
  obtain ⟨next, tail, heq, hnext⟩ := prefixAt_iff.mp hat
  refine ⟨next :: tail, heq, by simpa using hnext, ?_⟩
  rw [stripFrom, hskip]
  simp only [hdelete, if_true]
  cases name with
  | nil =>
      obtain ⟨rfl, rfl⟩ := List.cons.inj heq
      rfl
  | cons c left =>
      obtain ⟨rfl, rfl⟩ := List.cons.inj heq
      exact stripFrom_drop _ left _ _ _

theorem length_lt_of_prefix {name : List UInt8} {b : UInt8} {rest tail : List UInt8}
    (h : b :: rest = name ++ '.'.toUInt8 :: tail) : tail.length < (b :: rest).length := by
  rw [h]
  simp only [List.length_append, List.length_cons]
  omega

/-- After a dot, or inside an identifier, the first byte is kept. -/
theorem stripFrom_cons_of_not_boundary (name : List UInt8) {prev : Option UInt8}
    (hprev : isBoundary prev = false) {b : UInt8} (hb : b < 128) (rest : List UInt8) :
    ∃ copy, stripFrom name 0 0 prev (b :: rest) = b :: stripFrom name copy 0 (some b) rest := by
  rw [stripFrom]
  cases stripSkip b rest with
  | some n => exact ⟨n, rfl⟩
  | none => exact ⟨0, by simp [hprev, charBytes_of_lt hb]⟩

/-- What the stripping loop writes first: it keeps the byte, or two bytes are written for
it, or a prefix is left out. -/
theorem head?_stripFrom (name : List UInt8) (copy : Nat) (prev : Option UInt8) (b : UInt8)
    (rest : List UInt8) :
    (∀ c < 128, (stripFrom name copy 0 prev (b :: rest)).head? = some c ↔ b = c) ∨
    copy = 0 ∧ stripSkip b rest = none ∧ (isBoundary prev && prefixAt name (b :: rest)) = true ∧
      ∃ next, (stripFrom name copy 0 prev (b :: rest)).head? = some next ∧
        isFollow next = true := by
  cases copy with
  | succ copy => exact .inl fun c _ => by simp [stripFrom]
  | zero =>
      cases hskip : stripSkip b rest with
      | some n => exact .inl fun c _ => by simp [stripFrom, hskip]
      | none =>
          by_cases hdelete : (isBoundary prev && prefixAt name (b :: rest)) = true
          · obtain ⟨tail, -, hfollow, hout⟩ := stripFrom_delete hskip hdelete
            cases tail with
            | nil => cases hfollow
            | cons next tail =>
                obtain ⟨copy, hstrip⟩ := stripFrom_cons_of_not_boundary name
                  (show isBoundary (some '.'.toUInt8) = false by decide) (lt_of_isFollow hfollow)
                  tail
                refine .inr ⟨rfl, rfl, hdelete, next, ?_, hfollow⟩
                rw [hout, hstrip]
                rfl
          · left
            intro c hc
            rw [Bool.not_eq_true] at hdelete
            rw [stripFrom_code hskip hdelete]
            by_cases hb : b < 128
            · simp [charBytes_of_lt hb]
            · obtain ⟨lead, tail, heq, hlead, -⟩ := charBytes_of_not_lt hb
              have hne : b ≠ c := fun h => hb (h ▸ hc)
              have hne' : lead ≠ c := fun h => hlead (h ▸ hc)
              simp [heq, hne, hne']

/-! ### The stripped statement, tagged -/

/-- The reading looks ahead for a dash and a star only. -/
theorem ScanState.next_congr (s : ScanState) (b : UInt8) {peek peek' : Option UInt8}
    (hdash : peek = some '-'.toUInt8 ↔ peek' = some '-'.toUInt8)
    (hstar : peek = some '*'.toUInt8 ↔ peek' = some '*'.toUInt8) :
    s.next b peek = s.next b peek' := by
  cases s <;> simp [next, hdash, hstar]

/-- Where the reading goes on in code, it looked ahead at no second byte of an opening. -/
theorem ScanState.next_eq_of_code {s : ScanState} {b c : UInt8} {peek : Option UInt8}
    (h : (s.next b (some c)).2 = .code) (hdash : peek ≠ some '-'.toUInt8)
    (hstar : peek ≠ some '*'.toUInt8) : s.next b peek = s.next b (some c) := by
  cases s with
  | code =>
      simp only [next] at h ⊢
      split_ifs at h ⊢ <;> simp_all
  | line => rfl
  | closing close => rfl
  | blockOpen => rfl
  | block star => rfl

theorem ScanState.eq_code_of_next {s : ScanState} {b : UInt8} {peek : Option UInt8}
    (h : (s.next b peek).1 = true) (hb : b ≠ '\n'.toUInt8) : s = .code := by
  cases s with
  | code => rfl
  | line =>
      rw [next, if_neg hb] at h
      cases h
  | closing close => cases h
  | blockOpen => cases h
  | block star => cases h

/-- Bytes that open nothing are code. -/
theorem tags_codes {bytes : List UInt8} (h : ∀ b ∈ bytes, isOpener b = false)
    (rest : List UInt8) : tags .code (bytes ++ rest) = codes bytes ++ tags .code rest := by
  induction bytes with
  | nil => rfl
  | cons b bytes ih =>
      rw [List.cons_append, tags_code_cons (h b List.mem_cons_self),
        ih fun b hb => h b (List.mem_cons_of_mem _ hb)]
      rfl

/-- A name of identifier bytes is read as code. -/
theorem IsName.plain {name : List UInt8} (hname : IsName name) : PlainName name where
  ne_nil := hname.1
  dot hmem := absurd (hname.2 _ hmem) (by decide)
  ends b hb := endsTable_of_isIdentByte (hname.2 b hb)
  reads := by
    have hopener : ∀ c ∈ name ++ ['.'.toUInt8], isOpener c = false := by
      intro c hc
      rcases List.mem_append.mp hc with hc | hc
      · exact isOpener_of_isIdentByte (hname.2 c hc)
      · rw [List.mem_singleton.mp hc]
        decide
    have htags := tags_codes hopener []
    rwa [List.append_nil, tags, List.append_nil] at htags

/-- The character written for a byte outside ASCII is code. -/
theorem tags_charBytes {b : UInt8} (hb : ¬ b < 128) (rest : List UInt8) :
    tags .code (charBytes b ++ rest) = codes (charBytes b) ++ tags .code rest := by
  obtain ⟨lead, tail, heq, hlead, htail⟩ := charBytes_of_not_lt hb
  rw [heq]
  apply tags_codes
  intro c hc
  rcases List.mem_pair.mp hc with rfl | rfl
  · exact isOpener_of_not_lt hlead
  · exact isOpener_of_not_lt htail

/-- The reading looks ahead in the stripped text as it does in the text. -/
theorem next_head?_stripFrom {name : List UInt8} (hname : PlainName name) {s : ScanState}
    {b : UInt8} {rest : List UInt8} {copy : Nat} (prev : Option UInt8)
    (hcopy : tagsFrom stripSkip copy rest = tags (s.next b rest.head?).2 rest) :
    s.next b (stripFrom name copy 0 prev rest).head? = s.next b rest.head? := by
  cases rest with
  | nil => cases copy <;> rfl
  | cons c rest =>
      rcases head?_stripFrom name copy prev c rest with
        hkeep | ⟨rfl, hskip, hdelete, next, hhead, hnext⟩
      · refine s.next_congr b ?_ ?_
        · rw [hkeep _ (by decide), List.head?_cons, Option.some.injEq]
        · rw [hkeep _ (by decide), List.head?_cons, Option.some.injEq]
      · -- a prefix is left out: it is code, so that no region opens in front of it
        rw [tagsFrom, hskip, tags] at hcopy
        have hcode := (congrArg Tagged.code (List.cons.inj hcopy).1).symm
        obtain ⟨-, hat⟩ := Bool.and_eq_true_iff.mp hdelete
        obtain ⟨follow, tail, heq, -⟩ := prefixAt_iff.mp hat
        have hs := ScanState.eq_code_of_next hcode (hname.ne_newline (hname.mem_head heq))
        have hne : ∀ {d}, isFollow d = false → some next ≠ some d := by
          rintro d hd heq
          rw [Option.some.inj heq, hd] at hnext
          cases hnext
        rw [hhead]
        exact ScanState.next_eq_of_code hs (hne (by decide)) (hne (by decide))

/-- The stripping loop does to the tagged bytes what the relation says, and what it
writes is read as these tagged bytes. -/
theorem strips_stripFrom {name : List UInt8} (hname : PlainName name) (s : ScanState) (copy : Nat)
    (prev : Option UInt8) (bytes : List UInt8)
    (hcopy : tagsFrom stripSkip copy bytes = tags s bytes) :
    Strips name prev (tags s bytes) (tags s (stripFrom name copy 0 prev bytes)) := by
  induction hlen : bytes.length using Nat.strong_induction_on
    generalizing s copy prev bytes with
  | _ n ih =>
      cases bytes with
      | nil =>
          cases copy <;> exact .nil prev
      | cons b rest =>
          have hrest : rest.length < n := by
            rw [← hlen]
            exact Nat.lt_succ_self _
          rcases stripFrom_cons_cases name prev hcopy with
            ⟨hregion, copy', hcopy', hout⟩ | ⟨hcode, rfl, hskip, hnext⟩
          · rw [hout, tags, tags, next_head?_stripFrom hname _ hcopy', hregion]
            exact .region rfl (ih _ hrest _ _ _ rest hcopy' rfl)
          · by_cases hdelete : (isBoundary prev && prefixAt name (b :: rest)) = true
            · obtain ⟨tail, heq, hfollow, hout⟩ := stripFrom_delete hskip hdelete
              have hs := ScanState.eq_code_of_next hcode (hname.ne_newline (hname.mem_head heq))
              have hshort : tail.length < n := hlen ▸ length_lt_of_prefix heq
              rw [hout, heq, hs, hname.tags]
              refine .delete (Bool.and_eq_true_iff.mp hdelete).1 ?_
                (ih _ hshort .code 0 _ tail (tagsFrom_stripSkip _) rfl)
              rwa [bytesOf_tags]
            · rw [Bool.not_eq_true] at hdelete
              have hkeep : Strips name prev (⟨b, true⟩ :: tags .code rest)
                  (codes (charBytes b) ++ tags .code (stripFrom name 0 0 (some b) rest)) := by
                refine .copy ?_ (ih _ hrest .code 0 _ rest (tagsFrom_stripSkip _) rfl)
                rwa [bytesOf_tags]
              have hout : tags s (charBytes b ++ stripFrom name 0 0 (some b) rest) =
                  codes (charBytes b) ++ tags .code (stripFrom name 0 0 (some b) rest) := by
                by_cases hb : b < 128
                · have htail : tagsFrom stripSkip 0 rest = tags (s.next b rest.head?).2 rest := by
                    rw [tagsFrom_stripSkip, hnext]
                  rw [charBytes_of_lt hb, List.singleton_append, tags,
                    next_head?_stripFrom hname _ htail, hcode, hnext]
                  rfl
                · have hs : s = .code := ScanState.eq_code_of_next hcode fun h =>
                    hb (by rw [h]; decide)
                  rw [hs, tags_charBytes hb]
              rw [stripFrom_code hskip hdelete, hout, tags, hcode, hnext]
              exact hkeep

/-- The stripped statement, tagged. -/
theorem strips_stripProviderPrefix {name : List UInt8} (hname : PlainName name)
    (sql : List UInt8) :
    Strips name none (tags .code sql) (tags .code (stripProviderPrefix sql name)) := by
  rw [stripProviderPrefix, if_neg hname.ne_nil]
  exact strips_stripFrom hname .code 0 none sql (tagsFrom_stripSkip sql)

/-! ## The keyword in the stripped statement -/

/-- The bytes start with the word, up to case, and no identifier byte follows. -/
def WordAt : List UInt8 → List UInt8 → Prop
  | [], bytes => ((bytes.head?).any isIdentByte) = false
  | _ :: _, [] => False
  | k :: keyword, b :: bytes => toAsciiLowercase b = toAsciiLowercase k ∧ WordAt keyword bytes

theorem all_not_eq (prev : Option UInt8) :
    prev.all (!isIdentByte ·) = !prev.any isIdentByte := by
  cases prev <;> rfl

theorem keywordAt_iff {keyword bytes : List UInt8} {prev : Option UInt8} :
    keywordAt keyword prev bytes = true ↔
      prev.any isIdentByte = false ∧ WordAt keyword bytes := by
  have hword : (keyword.length ≤ bytes.length ∧
      eqIgnoreAsciiCase (bytes.take keyword.length) keyword = true) ∧
      ((bytes.drop keyword.length).head?).any isIdentByte = false ↔ WordAt keyword bytes := by
    induction keyword generalizing bytes with
    | nil => simp [WordAt, eqIgnoreAsciiCase]
    | cons k keyword ih =>
        cases bytes with
        | nil => simp [WordAt]
        | cons b bytes =>
            rw [WordAt, ← ih]
            simp [eqIgnoreAsciiCase]
            tauto
  rw [← hword]
  simp only [keywordAt, all_not_eq, Bool.and_eq_true, decide_eq_true_eq, Bool.not_eq_true']
  tauto

theorem isIdentByte_of_toAsciiLowercase_eq {b k : UInt8} (hk : isIdentByte k = true)
    (h : toAsciiLowercase b = toAsciiLowercase k) : isIdentByte b = true := by
  rw [← isIdentByte_toAsciiLowercase, h, isIdentByte_toAsciiLowercase, hk]

theorem isIdentByte_of_not_lt {b : UInt8} (h : ¬ b < 128) : isIdentByte b = false :=
  Bool.eq_false_iff.mpr fun hb => h (lt_of_isIdentByte hb)

/-- Where no prefix can start the first byte is kept, as it is or as two bytes. -/
theorem Strips.cases_of_not_boundary {name : List UInt8} {prev : Option UInt8}
    {ts ts' : List Tagged} (h : Strips name prev ts ts') (hprev : isBoundary prev = false) :
    (ts = [] ∧ ts' = []) ∨
    (∃ x us us', ts = x :: us ∧ ts' = x :: us' ∧ Strips name (some x.byte) us us') ∨
    (∃ b us us', ¬ b < 128 ∧ ts = ⟨b, true⟩ :: us ∧ ts' = codes (charBytes b) ++ us' ∧
      Strips name (some b) us us') := by
  cases h with
  | nil => exact .inl ⟨rfl, rfl⟩
  | region _ hrest => exact .inr (.inl ⟨_, _, _, rfl, rfl, hrest⟩)
  | @copy _ b us us' _ hrest =>
      by_cases hb : b < 128
      · refine .inr (.inl ⟨⟨b, true⟩, us, us', rfl, ?_, hrest⟩)
        rw [charBytes_of_lt hb]
        rfl
      · exact .inr (.inr ⟨b, us, us', hb, rfl, rfl, hrest⟩)
  | delete hboundary =>
      rw [hprev] at hboundary
      cases hboundary

/-- After an identifier byte or a dot a word is in the stripped text exactly if it is in
the text. -/
theorem Strips.wordAt_iff {name : List UInt8} {prev : Option UInt8} {ts ts' : List Tagged}
    (h : Strips name prev ts ts') (hprev : isBoundary prev = false) {keyword : List UInt8}
    (hkeyword : ∀ b ∈ keyword, isIdentByte b = true) :
    WordAt keyword (bytesOf ts) ↔ WordAt keyword (bytesOf ts') := by
  induction keyword generalizing prev ts ts' with
  | nil =>
      rcases h.cases_of_not_boundary hprev with
        ⟨rfl, rfl⟩ | ⟨x, us, us', rfl, rfl, -⟩ | ⟨b, us, us', hb, rfl, rfl, -⟩
      · rfl
      · rfl
      · obtain ⟨lead, tail, heq, hlead, -⟩ := charBytes_of_not_lt hb
        simp [WordAt, heq, isIdentByte_of_not_lt hb, isIdentByte_of_not_lt hlead]
  | cons k keyword ih =>
      have hk := hkeyword k List.mem_cons_self
      rcases h.cases_of_not_boundary hprev with
        ⟨rfl, rfl⟩ | ⟨x, us, us', rfl, rfl, hrest⟩ | ⟨b, us, us', hb, rfl, rfl, -⟩
      · rfl
      · simp only [bytesOf_cons, WordAt]
        refine and_congr_right fun heq => ?_
        have hx := isIdentByte_of_toAsciiLowercase_eq hk heq
        exact ih hrest (isBoundary_of_isIdentByte hx)
          fun b hb => hkeyword b (List.mem_cons_of_mem _ hb)
      · obtain ⟨lead, tail, heq, hlead, -⟩ := charBytes_of_not_lt hb
        have hne : ∀ {c}, ¬ c < 128 → toAsciiLowercase c ≠ toAsciiLowercase k := by
          intro c hc hlower
          exact hc (lt_of_isIdentByte (isIdentByte_of_toAsciiLowercase_eq hk hlower))
        simp [WordAt, heq, hne hb, hne hlead]

/-- A word that starts with a kept byte is in the stripped text exactly if it is in the
text. -/
theorem Strips.wordAt_cons_iff {name : List UInt8} {b : UInt8} {ts ts' : List Tagged}
    (h : Strips name (some b) ts ts') {keyword : List UInt8} (hkeyword : IsName keyword) :
    WordAt keyword (b :: bytesOf ts) ↔ WordAt keyword (b :: bytesOf ts') := by
  obtain ⟨k, keyword, rfl⟩ := List.exists_cons_of_ne_nil hkeyword.1
  refine and_congr_right fun heq => ?_
  have hb := isIdentByte_of_toAsciiLowercase_eq (hkeyword.2 k List.mem_cons_self) heq
  exact h.wordAt_iff (isBoundary_of_isIdentByte hb)
    fun c hc => hkeyword.2 c (List.mem_cons_of_mem _ hc)

/-- A byte that is not ASCII starts no keyword. -/
theorem keywordAt_of_not_lt {keyword : List UInt8} (hkeyword : IsName keyword) {b : UInt8}
    (hb : ¬ b < 128) (prev : Option UInt8) (rest : List UInt8) :
    keywordAt keyword prev (b :: rest) = false := by
  rw [Bool.eq_false_iff]
  intro h
  obtain ⟨k, keyword, rfl⟩ := List.exists_cons_of_ne_nil hkeyword.1
  have heq := (keywordAt_iff.mp h).2.1
  exact hb (lt_of_isIdentByte
    (isIdentByte_of_toAsciiLowercase_eq (hkeyword.2 k List.mem_cons_self) heq))

/-- A word of identifier bytes reaches no further than to a dot. -/
theorem length_le_of_wordAt {keyword name rest : List UInt8}
    (hkeyword : ∀ b ∈ keyword, isIdentByte b = true)
    (h : WordAt keyword (name ++ '.'.toUInt8 :: rest)) : keyword.length ≤ name.length := by
  induction keyword generalizing name with
  | nil => exact Nat.zero_le _
  | cons k keyword ih =>
      cases name with
      | nil =>
          have hdot := isIdentByte_of_toAsciiLowercase_eq (hkeyword k List.mem_cons_self) h.1
          cases hdot
      | cons b name =>
          exact Nat.succ_le_succ (ih (fun b hb => hkeyword b (List.mem_cons_of_mem _ hb)) h.2)

/-- No keyword stands here. -/
theorem splitKeyword_cons_of_not {keyword : List UInt8} {prev : Option UInt8} {x : Tagged}
    {ts : List Tagged} (h : (x.code && keywordAt keyword prev (bytesOf (x :: ts))) = false) :
    splitKeyword keyword prev (x :: ts) =
      (splitKeyword keyword (some x.byte) ts).map fun split => (x :: split.1, split.2) := by
  rw [splitKeyword, h]
  rfl

/-- A keyword stands here. -/
theorem splitKeyword_cons_of_keywordAt {keyword : List UInt8} {prev : Option UInt8} {b : UInt8}
    {ts : List Tagged} (h : keywordAt keyword prev (bytesOf (⟨b, true⟩ :: ts)) = true) :
    splitKeyword keyword prev (⟨b, true⟩ :: ts) = some ([], ⟨b, true⟩ :: ts) := by
  rw [splitKeyword, h]
  rfl

/-- Bytes that go on as a prefix does behind some bytes of its name. -/
def EndsPrefix (name bytes : List UInt8) : Prop :=
  ∃ left right rest, left ≠ [] ∧ name = left ++ right ∧ bytes = right ++ '.'.toUInt8 :: rest

/-- In a prefix the keyword is found inside the name, or not before the dot. -/
theorem splitKeyword_prefix {keyword : List UInt8} (hkeyword : IsName keyword)
    (prev : Option UInt8) (name : List UInt8) (us : List Tagged) :
    (∃ pre post, splitKeyword keyword prev (codes name ++ ⟨'.'.toUInt8, true⟩ :: us) =
        some (pre, post) ∧ EndsPrefix name (bytesOf (post.drop keyword.length))) ∨
      splitKeyword keyword prev (codes name ++ ⟨'.'.toUInt8, true⟩ :: us) =
        (splitKeyword keyword (some '.'.toUInt8) us).map
          fun split => (codes name ++ ⟨'.'.toUInt8, true⟩ :: split.1, split.2) := by
  induction name generalizing prev with
  | nil =>
      right
      refine splitKeyword_cons_of_not ?_
      rw [Bool.true_and, Bool.eq_false_iff]
      intro hat
      have hlen := @length_le_of_wordAt _ [] _ hkeyword.2 (keywordAt_iff.mp hat).2
      exact hkeyword.1 (List.length_eq_zero_iff.mp (Nat.le_zero.mp hlen))
  | cons b name ih =>
      have hcons : codes (b :: name) ++ ⟨'.'.toUInt8, true⟩ :: us =
          ⟨b, true⟩ :: (codes name ++ ⟨'.'.toUInt8, true⟩ :: us) := rfl
      rw [hcons]
      by_cases hat : keywordAt keyword prev
          (bytesOf (⟨b, true⟩ :: (codes name ++ ⟨'.'.toUInt8, true⟩ :: us))) = true
      · left
        have hbytes : bytesOf (⟨b, true⟩ :: (codes name ++ ⟨'.'.toUInt8, true⟩ :: us)) =
            (b :: name) ++ '.'.toUInt8 :: bytesOf us := by simp
        have hword := (keywordAt_iff.mp hat).2
        rw [hbytes] at hword
        have hlen := length_le_of_wordAt hkeyword.2 hword
        refine ⟨[], _, splitKeyword_cons_of_keywordAt hat, (b :: name).take keyword.length,
          (b :: name).drop keyword.length, bytesOf us, ?_, (List.take_append_drop _ _).symm, ?_⟩
        · obtain ⟨k, keyword, rfl⟩ := List.exists_cons_of_ne_nil hkeyword.1
          simp
        · rw [bytesOf, List.map_drop, ← bytesOf, hbytes, List.drop_append_of_le_length hlen]
      · rw [Bool.not_eq_true] at hat
        have hskip := splitKeyword_cons_of_not (x := ⟨b, true⟩) (by rw [hat]; rfl)
        rw [hskip]
        rcases ih (some b) with ⟨pre, post, hsplit, left, right, rest, hleft, rfl, hpost⟩ | hsplit
        · left
          exact ⟨_, post, by rw [hsplit]; rfl, b :: left, right, rest, by simp, rfl, hpost⟩
        · right
          rw [hsplit, Option.map_map]
          rfl

/-- Where the text is not split, the stripped text is not; where it is, so is the
stripped text, unless the keyword stands in a prefix. -/
def SplitAlike (name : List UInt8) (prev : Option UInt8) (keyword : List UInt8)
    (split split' : Option (List Tagged × List Tagged)) : Prop :=
  match split with
  | none => split' = none
  | some (pre, post) =>
      ¬ EndsPrefix name (bytesOf (post.drop keyword.length)) →
        ∃ pre' post', split' = some (pre', post') ∧ Strips name (lastByte prev pre) post post'

theorem SplitAlike.map {name keyword : List UInt8} {prev : Option UInt8}
    {split split' : Option (List Tagged × List Tagged)} (left left' : List Tagged)
    (h : SplitAlike name (lastByte prev left) keyword split split') :
    SplitAlike name prev keyword (split.map fun split => (left ++ split.1, split.2))
      (split'.map fun split => (left' ++ split.1, split.2)) := by
  cases split with
  | none =>
      rw [show split' = none from h]
      rfl
  | some split =>
      intro hnext
      obtain ⟨pre', post', rfl, hstrips⟩ := h hnext
      refine ⟨left' ++ pre', post', rfl, ?_⟩
      rw [lastByte_append]
      exact hstrips

/-- The keyword is found in the stripped text where it is found in the text. -/
theorem Strips.splitAlike {name keyword : List UInt8} (hkeyword : IsName keyword)
    {q : Option UInt8} {ts ts' : List Tagged} (h : Strips name q ts ts') {p p' : Option UInt8}
    (hp : p.any isIdentByte = q.any isIdentByte) (hp' : p'.any isIdentByte = q.any isIdentByte) :
    SplitAlike name q keyword (splitKeyword keyword p ts) (splitKeyword keyword p' ts') := by
  induction h generalizing p p' with
  | nil => exact rfl
  | @region q x ts ts' hx hrest ih =>
      rw [splitKeyword_cons_of_not (by rw [hx]; rfl), splitKeyword_cons_of_not (by rw [hx]; rfl)]
      refine SplitAlike.map [x] [x] ?_
      exact ih rfl rfl
  | @copy q b ts ts' hkeep hrest ih =>
      by_cases hb : b < 128
      · have hout : codes (charBytes b) ++ ts' = ⟨b, true⟩ :: ts' := by
          rw [charBytes_of_lt hb]
          rfl
        have hsame : keywordAt keyword p (bytesOf (⟨b, true⟩ :: ts)) =
            keywordAt keyword p' (bytesOf (⟨b, true⟩ :: ts')) := by
          rw [Bool.eq_iff_iff, keywordAt_iff, keywordAt_iff, hp, hp']
          exact and_congr_right fun _ => hrest.wordAt_cons_iff hkeyword
        by_cases hat : keywordAt keyword p (bytesOf (⟨b, true⟩ :: ts)) = true
        · rw [hout, splitKeyword_cons_of_keywordAt hat,
            splitKeyword_cons_of_keywordAt (hsame ▸ hat)]
          refine fun _ => ⟨[], _, rfl, ?_⟩
          rw [← hout]
          exact .copy hkeep hrest
        · rw [Bool.not_eq_true] at hat
          rw [hout, splitKeyword_cons_of_not (by rw [hat]; rfl),
            splitKeyword_cons_of_not (by rw [← hsame, hat]; rfl)]
          refine SplitAlike.map [⟨b, true⟩] [⟨b, true⟩] ?_
          exact ih rfl rfl
      · obtain ⟨lead, tail, heq, hlead, htail⟩ := charBytes_of_not_lt hb
        have hnot : ∀ {c}, ¬ c < 128 → ∀ p rest, keywordAt keyword p (c :: rest) = false :=
          fun hc p rest => keywordAt_of_not_lt hkeyword hc p rest
        have hout : codes (charBytes b) ++ ts' = ⟨lead, true⟩ :: ⟨tail, true⟩ :: ts' := by
          rw [heq]
          rfl
        rw [hout, splitKeyword_cons_of_not (by rw [bytesOf_cons, hnot hb, Bool.and_false]),
          splitKeyword_cons_of_not (by rw [bytesOf_cons, hnot hlead, Bool.and_false]),
          splitKeyword_cons_of_not (by rw [bytesOf_cons, hnot htail, Bool.and_false]),
          Option.map_map]
        refine SplitAlike.map [⟨b, true⟩] [⟨lead, true⟩, ⟨tail, true⟩] ?_
        refine ih rfl ?_
        simp [isIdentByte_of_not_lt hb, isIdentByte_of_not_lt htail]
  | @delete q us us' hq hfollow hrest ih =>
      rcases splitKeyword_prefix hkeyword p name us with ⟨pre, post, hsplit, hends⟩ | hsplit
      · rw [hsplit]
        exact fun hnext => absurd hends hnext
      · have hq' : q.any isIdentByte = false := any_isIdentByte_of_isBoundary hq
        have hus := @ih (some '.'.toUInt8) p' rfl (by rw [hp', hq']; decide)
        have hlast : lastByte q (codes name ++ [⟨'.'.toUInt8, true⟩]) = some '.'.toUInt8 := by
          rw [lastByte_append, lastByte_cons, lastByte_nil]
        have hfound : SplitAlike name (lastByte q (codes name ++ [⟨'.'.toUInt8, true⟩])) keyword
            (splitKeyword keyword (some '.'.toUInt8) us) (splitKeyword keyword p' us') := by
          rw [hlast]
          exact hus
        have hlater := SplitAlike.map (codes name ++ [⟨'.'.toUInt8, true⟩]) [] hfound
        rw [hsplit]
        simpa [Function.comp_def] using hlater

/-! ## The parenthesis in the stripped statement -/

/-- Bytes of code that are no parentheses change no depth. -/
theorem splitParen_codes {bytes : List UInt8}
    (h : ∀ b ∈ bytes, b ≠ '('.toUInt8 ∧ b ≠ ')'.toUInt8) (depth : Nat) (ts : List Tagged) :
    splitParen depth (codes bytes ++ ts) =
      (splitParen depth ts).map fun split => (codes bytes ++ split.1, split.2) := by
  induction bytes with
  | nil => simp [codes]
  | cons b bytes ih =>
      have hb := h b List.mem_cons_self
      have hlater := ih fun b hb => h b (List.mem_cons_of_mem _ hb)
      have hcons : codes (b :: bytes) ++ ts = ⟨b, true⟩ :: (codes bytes ++ ts) := rfl
      rw [hcons, splitParen]
      simp only [hb.1, hb.2, and_false, if_false, hlater, Option.map_map]
      rfl

theorem not_paren_of_not_lt {b : UInt8} (h : ¬ b < 128) :
    b ≠ '('.toUInt8 ∧ b ≠ ')'.toUInt8 := by
  constructor
  · rintro rfl
    exact h (by decide)
  · rintro rfl
    exact h (by decide)

/-- A prefix in a part of the text is one in the text. -/
theorem prefixAt_append {name bytes : List UInt8} (h : prefixAt name bytes = true)
    (rest : List UInt8) : prefixAt name (bytes ++ rest) = true := by
  obtain ⟨next, tail, rfl, hnext⟩ := prefixAt_iff.mp h
  refine prefixAt_iff.mpr ⟨next, tail ++ rest, ?_, hnext⟩
  simp

/-- What a byte does to the search for the parenthesis depends on the byte and the
depth alone. -/
theorem splitParen_cons_cases (depth : Nat) (x : Tagged) :
    (∀ ts, splitParen depth (x :: ts) = none) ∨
    (∀ ts, splitParen depth (x :: ts) = some ([], x :: ts)) ∨
    ∃ depth', ∀ ts, splitParen depth (x :: ts) =
      (splitParen depth' ts).map fun split => (x :: split.1, split.2) := by
  by_cases hopen : x.code ∧ x.byte = '('.toUInt8
  · exact .inr (.inr ⟨depth + 1, fun ts => by rw [splitParen, if_pos hopen]⟩)
  · by_cases hclose : x.code ∧ x.byte = ')'.toUInt8
    · by_cases hzero : depth = 0
      · exact .inl fun ts => by rw [splitParen, if_neg hopen, if_pos hclose, if_pos hzero]
      · by_cases hone : depth = 1
        · exact .inr (.inl fun ts => by
            rw [splitParen, if_neg hopen, if_pos hclose, if_neg hzero, if_pos hone])
        · exact .inr (.inr ⟨depth - 1, fun ts => by
            rw [splitParen, if_neg hopen, if_pos hclose, if_neg hzero, if_neg hone]⟩)
    · exact .inr (.inr ⟨depth, fun ts => by rw [splitParen, if_neg hopen, if_neg hclose]⟩)

/-- A parenthesis that is found stands at the first byte, or behind it: then the byte does
the same to the search in front of any bytes. -/
theorem splitParen_cons_inv {depth : Nat} {x : Tagged} {ts pre post : List Tagged}
    (h : splitParen depth (x :: ts) = some (pre, post)) :
    (pre = [] ∧ ∀ ts', splitParen depth (x :: ts') = some ([], x :: ts')) ∨
      ∃ depth' pre₁, splitParen depth' ts = some (pre₁, post) ∧ pre = x :: pre₁ ∧
        ∀ {ts' pre' post'}, splitParen depth' ts' = some (pre', post') →
          splitParen depth (x :: ts') = some (x :: pre', post') := by
  rcases splitParen_cons_cases depth x with hnone | hhere | ⟨depth', hlater⟩
  · rw [hnone] at h
    cases h
  · rw [hhere] at h
    exact .inl ⟨(Prod.mk.inj (Option.some.inj h)).1.symm, hhere⟩
  · rw [hlater] at h
    obtain ⟨pre₁, hsplit, rfl⟩ := @exists_of_map_split _ [x] _ _ h
    refine .inr ⟨depth', pre₁, hsplit, rfl, ?_⟩
    intro ts' pre' post' hsplit'
    rw [hlater, hsplit']
    rfl

/-- The parenthesis is found in the stripped text where it is found in the text, and
what is before it is stripped as if it stood alone. -/
theorem Strips.splitParen {name : List UInt8} (hname : PlainName name)
    (hparen : '('.toUInt8 ∉ name) {prev : Option UInt8} {ts ts' : List Tagged}
    (h : Strips name prev ts ts') {depth : Nat} {pre post : List Tagged}
    (hsplit : splitParen depth ts = some (pre, post)) :
    ∃ pre' post', SqlRoute.splitParen depth ts' = some (pre', post') ∧
      Strips name prev pre pre' := by
  induction h generalizing depth pre with
  | nil => cases hsplit
  | @region prev x ts ts' hx hrest ih =>
      rcases splitParen_cons_inv hsplit with ⟨rfl, hhere⟩ | ⟨depth', pre₁, hsplit₁, rfl, hlater⟩
      · exact ⟨[], _, hhere ts', .nil prev⟩
      · obtain ⟨pre', post', hsplit', hstrips⟩ := ih hsplit₁
        exact ⟨x :: pre', post', hlater hsplit', .region hx hstrips⟩
  | @copy prev b ts ts' hkeep hrest ih =>
      have hcopy : ∀ {pre₁ post₁ pre'}, ts = pre₁ ++ post₁ → Strips name (some b) pre₁ pre' →
          Strips name prev (⟨b, true⟩ :: pre₁) (codes (charBytes b) ++ pre') := by
        intro pre₁ post₁ pre' hts hstrips
        refine .copy ?_ hstrips
        rw [Bool.eq_false_iff]
        intro hdelete
        obtain ⟨hprev, hat⟩ := Bool.and_eq_true_iff.mp hdelete
        have hlonger := prefixAt_append hat (bytesOf post₁)
        rw [List.cons_append, ← bytesOf_append, ← hts] at hlonger
        rw [hprev, hlonger] at hkeep
        cases hkeep
      by_cases hb : b < 128
      · have hout : codes (charBytes b) ++ ts' = ⟨b, true⟩ :: ts' := by
          rw [charBytes_of_lt hb]
          rfl
        rw [hout]
        rcases splitParen_cons_inv hsplit with ⟨rfl, hhere⟩ | ⟨depth', pre₁, hsplit₁, rfl, hlater⟩
        · exact ⟨[], _, hhere ts', .nil prev⟩
        · obtain ⟨pre', post', hsplit', hstrips⟩ := ih hsplit₁
          refine ⟨_, post', ?_, hcopy (append_of_splitParen hsplit₁).1 hstrips⟩
          rw [hlater hsplit', charBytes_of_lt hb]
          rfl
      · obtain ⟨lead, tail, heq, hlead, htail⟩ := charBytes_of_not_lt hb
        have hcodes : ∀ c ∈ [lead, tail], c ≠ '('.toUInt8 ∧ c ≠ ')'.toUInt8 := by
          intro c hc
          rcases List.mem_pair.mp hc with rfl | rfl
          · exact not_paren_of_not_lt hlead
          · exact not_paren_of_not_lt htail
        have hone := @splitParen_codes [b] (by simpa using not_paren_of_not_lt hb) depth ts
        change SqlRoute.splitParen depth (⟨b, true⟩ :: ts) = _ at hone
        rw [hone] at hsplit
        obtain ⟨pre₁, hsplit₁, rfl⟩ := exists_of_map_split hsplit
        obtain ⟨pre', post', hsplit', hstrips⟩ := ih hsplit₁
        refine ⟨_, post', ?_, hcopy (append_of_splitParen hsplit₁).1 hstrips⟩
        rw [heq, splitParen_codes hcodes, hsplit']
        rfl
  | @delete prev us us' hprev hfollow hrest ih =>
      have hcodes : ∀ c ∈ name ++ ['.'.toUInt8], c ≠ '('.toUInt8 ∧ c ≠ ')'.toUInt8 := by
        intro c hc
        rcases List.mem_append.mp hc with hc | hc
        · refine ⟨fun h => hparen (h ▸ hc), ?_⟩
          rintro rfl
          exact absurd (hname.ends _ hc) (by decide)
        · rw [List.mem_singleton.mp hc]
          decide
      have hskip := splitParen_codes hcodes depth us
      rw [show codes (name ++ ['.'.toUInt8]) ++ us =
        codes name ++ ⟨'.'.toUInt8, true⟩ :: us by simp [codes]] at hskip
      rw [hskip] at hsplit
      obtain ⟨pre₁, hsplit₁, rfl⟩ := exists_of_map_split hsplit
      obtain ⟨pre', post', hsplit', hstrips⟩ := ih hsplit₁
      refine ⟨pre', post', hsplit', ?_⟩
      have hhead : ((bytesOf pre₁).head?).any isFollow = true := by
        obtain ⟨hus, rest, rfl⟩ := append_of_splitParen hsplit₁
        rw [hus] at hfollow
        cases pre₁ with
        | nil => cases hfollow
        | cons x pre₁ => exact hfollow
      have hdelete := Strips.delete hprev hhead hstrips
      simpa [codes] using hdelete

/-! ## The table reference in the stripped statement -/

/-- A byte of code that no prefix starts with is kept. -/
theorem Strips.cons_code {name : List UInt8} {prev : Option UInt8} {b : UInt8}
    {ts ts' : List Tagged} (h : Strips name prev (⟨b, true⟩ :: ts) ts')
    (hkeep : (isBoundary prev && prefixAt name (b :: bytesOf ts)) = false) :
    ∃ us', ts' = codes (charBytes b) ++ us' ∧ Strips name (some b) ts us' := by
  generalize htext : (⟨b, true⟩ :: ts : List Tagged) = text at h
  cases h with
  | nil => cases htext
  | region hx =>
      rw [← (List.cons.inj htext).1] at hx
      cases hx
  | copy _ hrest =>
      obtain ⟨hhead, rfl⟩ := List.cons.inj htext
      obtain ⟨rfl, -⟩ := Tagged.mk.inj hhead
      exact ⟨_, rfl, hrest⟩
  | @delete _ us us' hprev hfollow _ =>
      have hbytes : b :: bytesOf ts = name ++ '.'.toUInt8 :: bytesOf us := by
        have h := congrArg bytesOf htext
        simpa using h
      rw [hprev, hbytes, prefixAt_of_follow hfollow] at hkeep
      cases hkeep

/-- A prefix at the start of a text, after a boundary, is left out. -/
theorem Strips.of_prefix {name : List UInt8} {prev : Option UInt8} (hprev : isBoundary prev = true)
    {us ts' : List Tagged} (hfollow : ((bytesOf us).head?).any isFollow = true)
    (hname : name ≠ [])
    (h : Strips name prev (codes name ++ ⟨'.'.toUInt8, true⟩ :: us) ts') :
    Strips name (some '.'.toUInt8) us ts' := by
  generalize htext : codes name ++ ⟨'.'.toUInt8, true⟩ :: us = text at h
  have hbytes : bytesOf text = name ++ '.'.toUInt8 :: bytesOf us := by
    rw [← htext]
    simp
  cases h with
  | nil => simp at hbytes
  | @region _ x ts _ hx _ =>
      obtain ⟨b, left, rfl⟩ := List.exists_cons_of_ne_nil hname
      rw [← (List.cons.inj htext).1] at hx
      cases hx
  | @copy _ b ts _ hkeep _ =>
      have hat : prefixAt name (b :: bytesOf ts) = true := by
        rw [bytesOf_cons] at hbytes
        rw [hbytes]
        exact prefixAt_of_follow hfollow
      rw [hprev, hat] at hkeep
      cases hkeep
  | delete _ _ hrest =>
      have hus := (List.cons.inj (List.append_cancel_left htext)).2
      rwa [hus]

/-- No prefix starts with a byte that its name does not start with. -/
theorem prefixAt_of_head? {name : List UInt8} (hname : name ≠ []) {b : UInt8}
    (hb : name.head? ≠ some b) (rest : List UInt8) : prefixAt name (b :: rest) = false := by
  rw [Bool.eq_false_iff]
  intro h
  obtain ⟨next, tail, heq, -⟩ := prefixAt_iff.mp h
  obtain ⟨c, left, rfl⟩ := List.exists_cons_of_ne_nil hname
  exact hb (congrArg some (List.cons.inj heq).1.symm)

/-- Bytes of code that no prefix starts with are all kept. -/
theorem Strips.codes_of_head? {name : List UInt8} (hname : name ≠ []) {bytes : List UInt8}
    (hbytes : ∀ b ∈ bytes, name.head? ≠ some b) {prev : Option UInt8} {ts ts' : List Tagged}
    (h : Strips name prev (codes bytes ++ ts) ts') :
    ∃ us', ts' = codes (bytes.flatMap charBytes) ++ us' ∧
      Strips name (lastByte prev (codes bytes)) ts us' := by
  induction bytes generalizing prev ts' with
  | nil => exact ⟨ts', rfl, h⟩
  | cons b bytes ih =>
      have hb := hbytes b List.mem_cons_self
      have hcons : Strips name prev (⟨b, true⟩ :: (codes bytes ++ ts)) ts' := h
      obtain ⟨vs, rfl, hvs⟩ := hcons.cons_code
        (by rw [prefixAt_of_head? hname hb, Bool.and_false])
      obtain ⟨us', rfl, hus⟩ := ih (fun b hb => hbytes b (List.mem_cons_of_mem _ hb)) hvs
      refine ⟨us', ?_, ?_⟩
      · simp [codes]
      · exact (lastByte_cons prev ⟨b, true⟩ (codes bytes)).symm ▸ hus

/-- The rest of an identifier is kept. -/
theorem Strips.codes_of_ident {name bytes : List UInt8}
    (hbytes : ∀ b ∈ bytes, isIdentByte b = true) {prev : Option UInt8}
    (hprev : isBoundary prev = false) {ts ts' : List Tagged}
    (h : Strips name prev (codes bytes ++ ts) ts') :
    ∃ us', ts' = codes bytes ++ us' ∧ Strips name (lastByte prev (codes bytes)) ts us' := by
  induction bytes generalizing prev ts' with
  | nil => exact ⟨ts', rfl, h⟩
  | cons b bytes ih =>
      have hb := hbytes b List.mem_cons_self
      have hcons : Strips name prev (⟨b, true⟩ :: (codes bytes ++ ts)) ts' := h
      obtain ⟨vs, rfl, hvs⟩ := hcons.cons_code (by rw [hprev]; rfl)
      obtain ⟨us', rfl, hus⟩ := ih (fun b hb => hbytes b (List.mem_cons_of_mem _ hb))
        (isBoundary_of_isIdentByte hb) hvs
      refine ⟨us', ?_, ?_⟩
      · rw [charBytes_of_lt (lt_of_isIdentByte hb)]
        rfl
      · exact (lastByte_cons prev ⟨b, true⟩ (codes bytes)).symm ▸ hus

/-- A word is no prefix where what follows it is no end of one. -/
theorem prefixAt_of_word {name word rest : List UInt8} (hne : word ≠ [])
    (hword : ∀ b ∈ word, isIdentByte b = true) (hrest : ¬ EndsPrefix name rest) :
    prefixAt name (word ++ rest) = false := by
  rw [Bool.eq_false_iff]
  intro h
  obtain ⟨next, tail, heq, -⟩ := prefixAt_iff.mp h
  rcases List.append_eq_append_iff.mp heq with ⟨right, rfl, hright⟩ | ⟨d, rfl, hd⟩
  · exact hrest ⟨word, right, next :: tail, hne, rfl, hright⟩
  · cases d with
    | nil => exact hrest ⟨name, [], next :: tail, by simpa using hne, by simp, hd.symm⟩
    | cons c d =>
        have hc := hword c (by simp)
        rw [← (List.cons.inj hd).1] at hc
        cases hc

/-- A byte that cannot follow a prefix stands at the start of the stripped text only if it
stands at the start of the text. -/
theorem Strips.head?_of_head? {name : List UInt8} {prev : Option UInt8} {ts ts' : List Tagged}
    (h : Strips name prev ts ts') {c : UInt8} (hc : c < 128) (hfollow : isFollow c = false)
    (hhead : (bytesOf ts').head? = some c) : (bytesOf ts).head? = some c := by
  cases h with
  | nil => exact hhead
  | region => exact hhead
  | @copy _ b _ _ _ _ =>
      by_cases hb : b < 128
      · rwa [charBytes_of_lt hb] at hhead
      · obtain ⟨lead, tail, heq, hlead, -⟩ := charBytes_of_not_lt hb
        rw [heq] at hhead
        exact absurd hc (Option.some.inj hhead ▸ hlead)
  | @delete _ us us' hprev hus hrest =>
      have hne : ∀ {d}, isFollow d = true → d ≠ c := by
        rintro d hd rfl
        rw [hfollow] at hd
        cases hd
      rcases hrest.cases_of_not_boundary (by decide) with
        ⟨rfl, rfl⟩ | ⟨x, vs, vs', rfl, rfl, -⟩ | ⟨d, vs, vs', hd, rfl, rfl, -⟩
      · cases hus
      · exact absurd (Option.some.inj hhead) (hne (by simpa using hus))
      · exact absurd (lt_of_isFollow (by simpa using hus)) hd

theorem isIdentByte_of_isAsciiWhitespace {b : UInt8} (h : isAsciiWhitespace b = true) :
    isIdentByte b = false := by
  grind [isAsciiWhitespace_iff, isIdentByte_iff]

theorem lt_of_isAsciiWhitespace {b : UInt8} (h : isAsciiWhitespace b = true) : b < 128 := by
  grind [isAsciiWhitespace_iff]

theorem isFollow_of_isAsciiWhitespace {b : UInt8} (h : isAsciiWhitespace b = true) :
    isFollow b = false := by
  grind [isAsciiWhitespace_iff, isFollow_iff, isIdentByte_iff]

theorem isBoundary_of_isAsciiWhitespace {b : UInt8} (h : isAsciiWhitespace b = true) :
    isBoundary (some b) = true := by
  have hdot : b ≠ '.'.toUInt8 := by
    rintro rfl
    cases h
  simp [isBoundary, isIdentByte_of_isAsciiWhitespace h, hdot]

/-- ASCII bytes are written as they are. -/
theorem flatMap_charBytes {bytes : List UInt8} (h : ∀ b ∈ bytes, b < 128) :
    bytes.flatMap charBytes = bytes := by
  induction bytes with
  | nil => rfl
  | cons b bytes ih =>
      rw [List.flatMap_cons, charBytes_of_lt (h b List.mem_cons_self),
        ih fun b hb => h b (List.mem_cons_of_mem _ hb)]
      rfl

/-- Inside an identifier no prefix may start. -/
theorem isBoundary_lastByte {bytes : List UInt8} {prev : Option UInt8}
    (hprev : isBoundary prev = false) (hbytes : ∀ b ∈ bytes, isIdentByte b = true) :
    isBoundary (lastByte prev (codes bytes)) = false := by
  rw [lastByte, bytesOf_codes]
  cases hlast : bytes.getLast? with
  | none => exact hprev
  | some b => exact isBoundary_of_isIdentByte (hbytes b (List.mem_of_getLast? hlast))

/-- A prefix may start behind whitespace, but not right behind the keyword. -/
def StartsWell (prev : Option UInt8) (text tail : List Tagged) : Prop :=
  isBoundary prev = true ↔ text ≠ tail

/-- Behind a keyword with whitespace the whitespace is left. -/
theorem drop_fromKeyword {post tail : List Tagged} {word blank : List UInt8}
    (hlen : word.length = fromKeyword.length) (hpost : post = codes (word ++ blank) ++ tail) :
    post.drop fromKeyword.length = codes blank ++ tail := by
  rw [hpost, ← hlen]
  simp [codes]

/-- The text after the first `from` is stripped to the text after the first `from` of the
stripped statement. -/
theorem Strips.afterFrom {name : List UInt8} (hname : PlainName name) {q : Option UInt8}
    {ts ts' pre post : List Tagged} (h : Strips name q ts ts') (hq : q.any isIdentByte = false)
    (hlexed : Lexed ts) (hfrom : splitKeyword fromKeyword none ts = some (pre, post))
    (hnext : ¬ EndsPrefix name (bytesOf (post.drop fromKeyword.length))) :
    ∃ pre' post' q', splitKeyword fromKeyword none ts' = some (pre', post') ∧
      Strips name q' (SqlRoute.afterFrom post) (SqlRoute.afterFrom post') ∧
      StartsWell q' (post.drop fromKeyword.length) (SqlRoute.afterFrom post) := by
  obtain ⟨word, blank, hpost, hword, hlen, hblank, hident, hspace, -⟩ :=
    hlexed.exists_afterFrom hfrom
  generalize hafter : SqlRoute.afterFrom post = tail at *
  have hwordIdent := isIdentByte_of_eqIgnoreAsciiCase hword isIdentByte_fromKeyword
  have hnone : (none : Option UInt8).any isIdentByte = q.any isIdentByte := by
    rw [hq]
    rfl
  have halike := h.splitAlike isName_fromKeyword hnone hnone
  rw [hfrom] at halike
  have hdrop := drop_fromKeyword hlen hpost
  obtain ⟨pre', post', hfrom', hstrips⟩ := halike hnext
  rw [hdrop, bytesOf_append, bytesOf_codes] at hnext
  rw [hpost] at hstrips
  obtain ⟨tail', hpost', q', hstrips', hwell⟩ : ∃ tail', post' = codes (word ++ blank) ++ tail' ∧
      ∃ q', Strips name q' tail tail' ∧ StartsWell q' (post.drop fromKeyword.length) tail := by
    obtain ⟨c, left, rfl⟩ := List.exists_cons_of_ne_nil
      (show word ≠ [] by rintro rfl; cases hlen)
    have hcons : Strips name (lastByte q pre)
        (⟨c, true⟩ :: (codes left ++ (codes blank ++ tail))) post' := by
      simpa [codes] using hstrips
    have hkeep : prefixAt name (c :: bytesOf (codes left ++ (codes blank ++ tail))) = false := by
      have hat : prefixAt name ((c :: left) ++ (blank ++ bytesOf tail)) = false :=
        prefixAt_of_word (by simp) hwordIdent hnext
      simpa using hat
    obtain ⟨us, rfl, hus⟩ := hcons.cons_code (by rw [hkeep, Bool.and_false])
    obtain ⟨vs, rfl, hvs⟩ := hus.codes_of_ident
      (fun b hb => hwordIdent b (List.mem_cons_of_mem _ hb))
      (isBoundary_of_isIdentByte (hwordIdent c List.mem_cons_self))
    obtain ⟨tail', rfl, htail⟩ := hvs.codes_of_head? hname.ne_nil (by
      intro b hb hhead
      have hname' := hname.not_isAsciiWhitespace (List.mem_of_head? hhead)
      rw [hblank b hb] at hname'
      cases hname')
    refine ⟨tail', ?_, _, htail, ?_⟩
    · rw [flatMap_charBytes fun b hb => lt_of_isAsciiWhitespace (hblank b hb),
        charBytes_of_lt (lt_of_isIdentByte (hwordIdent c List.mem_cons_self))]
      simp [codes]
    · rw [StartsWell, hdrop]
      cases hlast : blank.getLast? with
      | none =>
          obtain rfl := List.getLast?_eq_none_iff.mp hlast
          have hinside : isBoundary (lastByte (some c) (codes left)) = false :=
            isBoundary_lastByte (isBoundary_of_isIdentByte (hwordIdent c List.mem_cons_self))
              fun b hb => hwordIdent b (List.mem_cons_of_mem _ hb)
          simpa [codes] using hinside
      | some b =>
          have hb := isBoundary_of_isAsciiWhitespace (hblank b (List.mem_of_getLast? hlast))
          rw [lastByte, bytesOf_codes, hlast]
          have hne : codes blank ++ tail ≠ tail := by
            intro heq
            have hlength := congrArg List.length heq
            have hpos := List.length_pos_of_mem (List.mem_of_getLast? hlast)
            simp only [codes, List.length_append, List.length_map] at hlength
            omega
          simp [hne, hb]
  refine ⟨pre', post', q', hfrom', ?_, hwell⟩
  have hafter' : SqlRoute.afterFrom post' = tail' := by
    rw [SqlRoute.afterFrom, drop_fromKeyword hlen hpost']
    refine Foundation.dropWhile_append_of_head? (by simpa [codes] using hblank) fun x hx => ?_
    by_contra hne
    have hblankHead : isAsciiWhitespace x.byte = true := by simpa using hne
    have hbyte : (bytesOf tail').head? = some x.byte := by
      rw [bytesOf, List.head?_map, Option.mem_def.mp hx]
      rfl
    have hhead := hstrips'.head?_of_head? (lt_of_isAsciiWhitespace hblankHead)
      (isFollow_of_isAsciiWhitespace hblankHead) hbyte
    rw [hhead] at hspace
    simp [hblankHead] at hspace
  rw [hafter']
  exact hstrips'

/-- The text right behind the `from` of the first table reference, which stands in
{lit}`depth` subqueries. -/
inductive BehindFrom : List Tagged → Nat → List Tagged → Prop
  | here {ts pre post : List Tagged} (hfrom : splitKeyword fromKeyword none ts = some (pre, post))
      (htable : (bytesOf (afterFrom post)).head? ≠ some '('.toUInt8) :
      BehindFrom ts 0 (post.drop fromKeyword.length)
  | subquery {ts pre post inner rest text : List Tagged} {depth : Nat}
      (hfrom : splitKeyword fromKeyword none ts = some (pre, post))
      (hclose : splitParen 0 (afterFrom post) = some (⟨'('.toUInt8, true⟩ :: inner, rest))
      (hinner : BehindFrom inner depth text) : BehindFrom ts (depth + 1) text

/-- A text from its first byte on that is no whitespace. -/
def behindBlank (text : List Tagged) : List Tagged :=
  text.dropWhile fun x => isAsciiWhitespace x.byte

theorem BehindFrom.tableAt {ts text : List Tagged} {depth : Nat} (h : BehindFrom ts depth text) :
    TableAt ts (behindBlank text) := by
  induction h with
  | here hfrom htable => exact .here hfrom htable
  | subquery hfrom hclose hinner ih => exact .subquery hfrom hclose ih

theorem TableAt.exists_behindFrom {ts tail : List Tagged} (h : TableAt ts tail) :
    ∃ depth text, BehindFrom ts depth text ∧ behindBlank text = tail := by
  induction h with
  | here hfrom htable => exact ⟨_, _, .here hfrom htable, rfl⟩
  | subquery hfrom hclose hinner ih =>
      obtain ⟨depth, text, hbehind, htail⟩ := ih
      exact ⟨_, _, .subquery hfrom hclose hbehind, htail⟩

/-- Behind a `from` comes whitespace, in code. -/
theorem BehindFrom.exists_blank {ts text : List Tagged} {depth : Nat}
    (h : BehindFrom ts depth text) (hts : Lexed ts) :
    ∃ blank, text = codes blank ++ behindBlank text ∧ ∀ b ∈ blank, isAsciiWhitespace b = true := by
  induction h with
  | @here ts pre post hfrom htable =>
      obtain ⟨word, blank, hpost, -, hlen, hblank, -, -, -⟩ := hts.exists_afterFrom hfrom
      exact ⟨blank, drop_fromKeyword hlen hpost, hblank⟩
  | @subquery ts pre post inner rest text depth hfrom hclose hinner ih =>
      obtain ⟨word, blank, -, -, -, -, -, -, hafter⟩ := hts.exists_afterFrom hfrom
      exact ih (hafter.inner hclose)

/-- The first table reference of the statement is stripped to that of the stripped
statement, where it does not stand in a prefix, nor in a subquery if the name has a
parenthesis. -/
theorem Strips.tableAt {name : List UInt8} (hname : PlainName name) {ts text : List Tagged}
    {depth : Nat} (hbehind : BehindFrom ts depth text)
    (hparen : '('.toUInt8 ∈ name → depth = 0) (hnext : ¬ EndsPrefix name (bytesOf text))
    (hlexed : Lexed ts) {q : Option UInt8} {ts' : List Tagged} (h : Strips name q ts ts')
    (hq : q.any isIdentByte = false) :
    ∃ q' tail', TableAt ts' tail' ∧ Strips name q' (behindBlank text) tail' ∧
      StartsWell q' text (behindBlank text) := by
  induction hbehind generalizing q ts' with
  | @here ts pre post hfrom hopen =>
      obtain ⟨pre', post', q', hfrom', hstrips, hwell⟩ := h.afterFrom hname hq hlexed hfrom hnext
      refine ⟨q', _, .here hfrom' ?_, hstrips, hwell⟩
      intro hopen'
      exact hopen (hstrips.head?_of_head? (by decide) (by decide) hopen')
  | @subquery ts pre post inner rest text depth hfrom hclose hinner ih =>
      have hnot : '('.toUInt8 ∉ name := fun hmem => absurd (hparen hmem) (Nat.succ_ne_zero _)
      obtain ⟨word, blank, hpost, -, hlen, hblank, -, -, hafter⟩ := hlexed.exists_afterFrom hfrom
      -- the parenthesis stands in no prefix
      have houter : ¬ EndsPrefix name (bytesOf (post.drop fromKeyword.length)) := by
        rintro ⟨left, right, text', -, rfl, htext⟩
        rw [drop_fromKeyword hlen hpost, bytesOf_append, bytesOf_codes,
          (append_of_splitParen hclose).1, List.cons_append, bytesOf_cons] at htext
        cases right with
        | nil =>
            cases blank with
            | nil => exact absurd (List.cons.inj htext).1 (by decide)
            | cons b blank =>
                have hb := hblank b List.mem_cons_self
                rw [(List.cons.inj htext).1] at hb
                cases hb
        | cons c right =>
            have hc : c ∈ left ++ c :: right := by simp
            cases blank with
            | nil => exact hnot ((List.cons.inj htext).1 ▸ hc)
            | cons b blank =>
                have hb := hblank b List.mem_cons_self
                rw [(List.cons.inj htext).1, hname.not_isAsciiWhitespace hc] at hb
                cases hb
      obtain ⟨pre', post', q', hfrom', hstrips, -⟩ := h.afterFrom hname hq hlexed hfrom houter
      obtain ⟨closed, rest', hclose', hclosed⟩ := hstrips.splitParen hname hnot hclose
      have hhead : name.head? ≠ some '('.toUInt8 := fun h => hnot (List.mem_of_head? h)
      obtain ⟨inner', rfl, hinner'⟩ := hclosed.cons_code
        (by rw [prefixAt_of_head? hname.ne_nil hhead, Bool.and_false])
      obtain ⟨q'', tail', htable', hrest⟩ :=
        ih (fun hmem => absurd hmem hnot) hnext (hafter.inner hclose) hinner' (by decide)
      exact ⟨q'', tail', .subquery hfrom' hclose' htable', hrest⟩

end WpKnowledge.SqlRoute
