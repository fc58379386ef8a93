import WpKnowledge.Foundation.Utf8
import WpKnowledge.Sql.RouteStrip

/-!
# Deleting the prefix and nothing else

{lit}`deletePrefixes` is what stripping a prefix is meant to do to the characters of a
statement: delete the name and the dot where they are code, start an identifier
path and qualify something, and keep every other character.  Which characters
that are not ASCII are letters is a parameter.

The code copies each byte of code as a character of its own, so that one that is
not ASCII becomes two bytes.

Main results:

- Theorem {lit}`Strips.countP_wide`: the stripped statement has one more byte that is not
  ASCII for each of them in code.
- Theorem {lit}`strip_deletes_prefixes_iff`: the code deletes the prefixes and nothing
  else exactly when all code is ASCII.
-/

namespace WpKnowledge.SqlRoute

/-! ## The characters of a statement -/

/-- A character and whether it is code. -/
structure TaggedChar where
  char : Char
  code : Bool
deriving DecidableEq, Repr

/-- The byte of an ASCII character; for every other one a byte that is not ASCII. -/
def asciiByte (c : Char) : UInt8 :=
  if c.toNat < 128 then UInt8.ofNat c.toNat else 128

/-- The characters of a statement with what they are, reading one by one. -/
def charTags : ScanState → List Char → List TaggedChar
  | _, [] => []
  | s, c :: rest =>
      ⟨c, (s.next (asciiByte c) (rest.head?.map asciiByte)).1⟩ ::
        charTags (s.next (asciiByte c) (rest.head?.map asciiByte)).2 rest

section Reference

variable (isLetter : Char → Bool)

/-- The characters of identifiers. -/
def isIdentChar (c : Char) : Bool :=
  if c.toNat < 128 then isIdentByte (asciiByte c) else isLetter c

/-- An identifier path may start after this character. -/
def startsPath (prev : Option Char) : Bool :=
  prev.all fun p => !isIdentChar isLetter p && p != '.'

/-- An identifier or a quoted identifier starts with this character. -/
def startsIdent (c : Char) : Bool :=
  isIdentChar isLetter c || c == '"' || c == Char.ofNat 96 || c == '['

/-- At the start of the characters stand the name and a dot, as code at the start of an
identifier path, and an identifier after them. -/
def isPrefixHere (name : List Char) (prev : Option Char) (ts : List TaggedChar) : Bool :=
  !name.isEmpty && startsPath isLetter prev &&
    ts.take (name.length + 1) == (name ++ ['.']).map (⟨·, true⟩) &&
    ((ts.drop (name.length + 1)).head?).any fun x => startsIdent isLetter x.char

/-- The characters without the prefixes, {lit}`drop` characters of a prefix being still to
be deleted. -/
def deletePrefixes (name : List Char) : Nat → Option Char → List TaggedChar → List Char
  | _, _, [] => []
  | drop + 1, _, x :: rest => deletePrefixes name drop (some x.char) rest
  | 0, prev, x :: rest =>
      if isPrefixHere isLetter name prev (x :: rest) then
        deletePrefixes name name.length (some x.char) rest
      else x.char :: deletePrefixes name 0 (some x.char) rest

/-- The text of a statement without the prefixes. -/
def withoutPrefixes (sql name : String) : String :=
  String.ofList (deletePrefixes isLetter name.toList 0 none (charTags .code sql.toList))

end Reference

/-! ## Characters and their bytes -/

/-- The bytes of a tagged character. -/
def TaggedChar.bytes (x : TaggedChar) : List Tagged :=
  (String.utf8EncodeChar x.char).map fun b => ⟨b, x.code⟩

/-- The reading is in a region that an ASCII byte closes, if a byte closes it. -/
def ScanState.ClosesAscii : ScanState → Prop
  | .closing close => close < 128
  | _ => True

/-- Where the reading stands after a byte that is not ASCII. -/
def ScanState.afterWide : ScanState → ScanState
  | .blockOpen => .block false
  | .block _ => .block false
  | s => s

/-- A byte that is not ASCII changes little. -/
theorem ScanState.next_wide {s : ScanState} (hs : s.ClosesAscii) {b : UInt8} (hb : ¬ b < 128)
    (peek : Option UInt8) : s.next b peek = (decide (s = .code), s.afterWide) := by
  have hne : ∀ c : UInt8, c < 128 → b ≠ c := fun c hc heq => hb (heq ▸ hc)
  cases s with
  | code => exact ScanState.next_code (isOpener_of_not_lt hb) peek
  | closing close => simp [next, afterWide, hne close hs]
  | line => simp [next, afterWide, hne '\n'.toUInt8 (by decide)]
  | blockOpen => simp [next, afterWide]
  | block star =>
      simp [next, afterWide, hne '/'.toUInt8 (by decide), hne '*'.toUInt8 (by decide)]

/-- The reading stays where it is when more such bytes come. -/
theorem ScanState.afterWide_afterWide (s : ScanState) :
    s.afterWide.afterWide = s.afterWide ∧ (s.afterWide = .code ↔ s = .code) ∧
      (s.ClosesAscii → s.afterWide.ClosesAscii) := by
  cases s <;> simp [afterWide, ClosesAscii]

/-- Regions are closed by ASCII bytes. -/
theorem ScanState.closesAscii_next {s : ScanState} (hs : s.ClosesAscii) (b : UInt8)
    (peek : Option UInt8) : (s.next b peek).2.ClosesAscii := by
  cases s with
  | code =>
      rw [next]
      split_ifs with hquote
      · have hlt : b < 128 := by rcases hquote with rfl | rfl | rfl <;> decide
        exact hlt
      · have hlt : ']'.toUInt8 < 128 := by decide
        exact hlt
      all_goals trivial
  | closing close =>
      rw [next]
      split_ifs
      · trivial
      · exact hs
  | line =>
      rw [next]
      split_ifs <;> trivial
  | blockOpen => trivial
  | block star =>
      rw [next]
      split_ifs <;> trivial

/-- Bytes that are not ASCII are tagged alike. -/
theorem tags_wide {s : ScanState} (hs : s.ClosesAscii) {wide : List UInt8}
    (hwide : ∀ b ∈ wide, ¬ b < 128) (hne : wide ≠ []) (rest : List UInt8) :
    tags s (wide ++ rest) =
      wide.map (fun b => ⟨b, decide (s = .code)⟩) ++ tags s.afterWide rest := by
  induction wide generalizing s with
  | nil => exact absurd rfl hne
  | cons b wide ih =>
      have hb := hwide b List.mem_cons_self
      obtain ⟨hafter, hcode, hcloses⟩ := s.afterWide_afterWide
      rw [List.cons_append, tags, ScanState.next_wide hs hb]
      by_cases hwideNe : wide = []
      · rw [hwideNe]
        rfl
      · have htail := ih (hcloses hs) (fun c hc => hwide c (List.mem_cons_of_mem b hc)) hwideNe
        have hsame : decide (s.afterWide = .code) = decide (s = .code) := by
          rw [decide_eq_decide, hcode]
        rw [htail, hafter, hsame]
        rfl

/-- The first byte of the characters, as far as the reading looks ahead. -/
theorem head?_flatMap_utf8EncodeChar (cs : List Char) {a : UInt8} (ha : a < 128) :
    (cs.flatMap String.utf8EncodeChar).head? = some a ↔ cs.head?.map asciiByte = some a := by
  cases cs with
  | nil => simp
  | cons c cs =>
      by_cases hc : c.toNat < 128
      · rw [List.flatMap_cons, Foundation.utf8EncodeChar_of_lt hc]
        simp [asciiByte, hc]
      · have hle := Nat.le_of_not_lt hc
        have hne := List.length_pos_iff.mp
          (Nat.lt_of_succ_lt (Foundation.one_lt_length_utf8EncodeChar hle))
        obtain ⟨b, bytes, hbytes⟩ := List.exists_cons_of_ne_nil hne
        have hb := (Foundation.wide_of_mem_utf8EncodeChar hle (hbytes ▸ List.mem_cons_self)).1
        have hwide : b ≠ a := by
          rintro rfl
          exact absurd ha (UInt8.not_lt.mpr hb)
        have hwide' : (128 : UInt8) ≠ a := by
          rintro rfl
          exact absurd ha (by decide)
        rw [List.flatMap_cons, hbytes]
        simp [asciiByte, hc, hwide, hwide']

/-- The tagged bytes of characters are those of the tagged characters. -/
theorem tags_flatMap_utf8EncodeChar {s : ScanState} (hs : s.ClosesAscii) (cs : List Char) :
    tags s (cs.flatMap String.utf8EncodeChar) = (charTags s cs).flatMap TaggedChar.bytes := by
  induction cs generalizing s with
  | nil => rfl
  | cons c cs ih =>
      rw [List.flatMap_cons, charTags, List.flatMap_cons]
      by_cases hc : c.toNat < 128
      · have hbyte := Foundation.utf8EncodeChar_of_lt hc
        have hascii : asciiByte c = UInt8.ofNat c.toNat := if_pos hc
        have hpeek := s.next_congr (UInt8.ofNat c.toNat)
          (head?_flatMap_utf8EncodeChar cs (by decide))
          (head?_flatMap_utf8EncodeChar cs (by decide))
        rw [hbyte, List.singleton_append, tags, hpeek, ih (ScanState.closesAscii_next hs _ _),
          TaggedChar.bytes, hbyte, hascii]
        rfl
      · have hle := Nat.le_of_not_lt hc
        have hne := List.length_pos_iff.mp
          (Nat.lt_of_succ_lt (Foundation.one_lt_length_utf8EncodeChar hle))
        have hwide : ∀ b ∈ String.utf8EncodeChar c, ¬ b < 128 := fun b hb =>
          UInt8.not_lt.mpr (Foundation.wide_of_mem_utf8EncodeChar hle hb).1
        have hascii : ¬ asciiByte c < 128 := by
          rw [asciiByte, if_neg hc]
          decide
        rw [tags_wide hs hwide hne, ScanState.next_wide hs hascii,
          ih (s.afterWide_afterWide.2.2 hs), TaggedChar.bytes]

/-! ## What deleting does -/

/-- Characters of code. -/
def codeChars (cs : List Char) : List TaggedChar :=
  cs.map (⟨·, true⟩)

section Deleting

variable {isLetter : Char → Bool} {name : List Char}

/-- Where a prefix stands the characters are the name, a dot and an identifier. -/
theorem isPrefixHere_iff {prev : Option Char} {ts : List TaggedChar} :
    isPrefixHere isLetter name prev ts = true ↔
      name ≠ [] ∧ startsPath isLetter prev = true ∧ ∃ us, ts = codeChars (name ++ ['.']) ++ us ∧
        (us.head?.any fun x => startsIdent isLetter x.char) = true := by
  have hlength : (codeChars (name ++ ['.'])).length = name.length + 1 := by simp [codeChars]
  simp only [isPrefixHere, Bool.and_eq_true, Bool.not_eq_true', List.isEmpty_eq_false_iff,
    beq_iff_eq, and_assoc]
  refine and_congr_right fun _ => and_congr_right fun _ => ?_
  constructor
  · intro ⟨htake, hfollow⟩
    refine ⟨ts.drop (name.length + 1), ?_, hfollow⟩
    have hsplit := (List.take_append_drop (name.length + 1) ts).symm
    rwa [htake] at hsplit
  · rintro ⟨us, rfl, hfollow⟩
    have htake : (codeChars (name ++ ['.']) ++ us).take (name.length + 1) =
        codeChars (name ++ ['.']) := by
      rw [← hlength, List.take_left]
    have hdrop : (codeChars (name ++ ['.']) ++ us).drop (name.length + 1) = us := by
      rw [← hlength, List.drop_left]
    rw [htake, hdrop]
    exact ⟨rfl, hfollow⟩

/-- Deleting characters is going on behind them. -/
theorem deletePrefixes_drop (left : List TaggedChar) (prev : Option Char) (x : TaggedChar)
    (rest : List TaggedChar) :
    deletePrefixes isLetter name (left.length + 1) prev (left ++ x :: rest) =
      deletePrefixes isLetter name 0 (some x.char) rest := by
  induction left generalizing prev with
  | nil => rfl
  | cons y left ih => exact ih (some y.char)

/-- A character that starts no prefix is kept. -/
theorem deletePrefixes_keep {prev : Option Char} {x : TaggedChar} {rest : List TaggedChar}
    (h : isPrefixHere isLetter name prev (x :: rest) = false) :
    deletePrefixes isLetter name 0 prev (x :: rest) =
      x.char :: deletePrefixes isLetter name 0 (some x.char) rest := by
  rw [deletePrefixes, h]
  rfl

/-- A prefix is deleted. -/
theorem deletePrefixes_here {prev : Option Char} {us : List TaggedChar}
    (h : isPrefixHere isLetter name prev (codeChars (name ++ ['.']) ++ us) = true) :
    deletePrefixes isLetter name 0 prev (codeChars (name ++ ['.']) ++ us) =
      deletePrefixes isLetter name 0 (some '.') us := by
  obtain ⟨hname, -⟩ := isPrefixHere_iff.mp h
  obtain ⟨c, left, rfl⟩ := List.exists_cons_of_ne_nil hname
  have hshape : codeChars (c :: left ++ ['.']) ++ us =
      ⟨c, true⟩ :: (codeChars left ++ ⟨'.', true⟩ :: us) := by
    simp [codeChars]
  have hdrop := @deletePrefixes_drop isLetter (c :: left) (codeChars left) (some c) ⟨'.', true⟩ us
  have hlength : (codeChars left).length = left.length := by simp [codeChars]
  rw [hlength] at hdrop
  rw [hshape] at h ⊢
  rw [deletePrefixes, if_pos h]
  exact hdrop

/-- The rule of induction for deleting: a character is kept, or a prefix deleted. -/
theorem deletePrefixes_induction {P : Option Char → List TaggedChar → Prop}
    (hnil : ∀ prev, P prev [])
    (hkeep : ∀ prev x rest, isPrefixHere isLetter name prev (x :: rest) = false →
      P (some x.char) rest → P prev (x :: rest))
    (hhere : ∀ prev us,
      isPrefixHere isLetter name prev (codeChars (name ++ ['.']) ++ us) = true →
        P (some '.') us → P prev (codeChars (name ++ ['.']) ++ us))
    (prev : Option Char) (ts : List TaggedChar) : P prev ts := by
  -- induction on the length, as a prefix has any
  induction hlength : ts.length using Nat.strong_induction_on generalizing prev ts with
  | h n ih =>
      cases hfound : isPrefixHere isLetter name prev ts with
      | true =>
          obtain ⟨-, -, us, rfl, -⟩ := isPrefixHere_iff.mp hfound
          have hlt : us.length < n := by
            rw [← hlength, List.length_append]
            simp [codeChars]
          exact hhere prev us hfound (ih us.length hlt _ us rfl)
      | false =>
          cases ts with
          | nil => exact hnil prev
          | cons x rest =>
              have hlt : rest.length < n := by simp [← hlength]
              exact hkeep prev x rest hfound (ih rest.length hlt _ rest rfl)

end Deleting

/-! ## Counting the bytes that are not ASCII -/

/-- A byte that is not ASCII. -/
def isWide (byte : UInt8) : Bool :=
  !decide (byte < 128)

/-- Stripping adds one byte that is not ASCII for each of them in code. -/
theorem Strips.countP_wide {name : List UInt8} (hname : ∀ b ∈ name, isIdentByte b = true)
    {prev : Option UInt8} {ts ts' : List Tagged} (h : Strips name prev ts ts') :
    (bytesOf ts').countP isWide =
      (bytesOf ts).countP isWide + ts.countP fun x => x.code && isWide x.byte := by
  induction h with
  | nil => rfl
  | @region prev x ts ts' hx hrest ih =>
      simp only [bytesOf_cons, List.countP_cons, ih, hx, Bool.false_and]
      simp
      omega
  | @copy prev b ts ts' hkeep hrest ih =>
      rw [bytesOf_append, bytesOf_codes, List.countP_append, ih, bytesOf_cons, List.countP_cons,
        List.countP_cons]
      by_cases hb : b < 128
      · have hnarrow : isWide b = false := by simp [isWide, hb]
        simp [charBytes_of_lt hb, hnarrow]
      · obtain ⟨lead, tail, heq, hlead, htail⟩ := charBytes_of_not_lt hb
        have hwide : isWide b = true ∧ isWide lead = true ∧ isWide tail = true := by
          simp [isWide, hb, hlead, htail]
        simp [heq, hwide]
        omega
  | @delete prev us us' hprev hfollow hrest ih =>
      have hnarrow : ∀ b ∈ name, isWide b = false := by
        intro b hb
        simp [isWide, lt_of_isIdentByte (hname b hb)]
      have hbytes : name.countP isWide = 0 := List.countP_eq_zero.mpr fun b hb => by
        simp [hnarrow b hb]
      have hcodes : (codes name).countP (fun x => x.code && isWide x.byte) = 0 :=
        List.countP_eq_zero.mpr fun x hx => by
          obtain ⟨b, hb, rfl⟩ := List.mem_map.mp hx
          simp [hnarrow b hb]
      have hdot : isWide '.'.toUInt8 = false := by decide
      rw [bytesOf_append, bytesOf_codes, List.countP_append, bytesOf_cons, List.countP_cons,
        List.countP_append, List.countP_cons, hbytes, hcodes, ih]
      simp [hdot]

/-- ASCII characters have no bytes that are not ASCII. -/
theorem countP_wide_ascii {cs : List Char} (h : ∀ c ∈ cs, c.toNat < 128) :
    (cs.flatMap String.utf8EncodeChar).countP isWide = 0 := by
  rw [Foundation.flatMap_utf8EncodeChar_of_ascii h, List.countP_eq_zero]
  intro b hb
  obtain ⟨c, hc, rfl⟩ := List.mem_map.mp hb
  have hlt := h c hc
  have hbyte : UInt8.ofNat c.toNat < 128 := by
    rw [UInt8.lt_iff_toNat_lt]
    simp
    omega
  simp [isWide, hbyte]

/-- Deleting prefixes keeps the bytes that are not ASCII. -/
theorem countP_wide_deletePrefixes {isLetter : Char → Bool} {name : List Char}
    (hname : ∀ c ∈ name, c.toNat < 128) (prev : Option Char) (ts : List TaggedChar) :
    ((deletePrefixes isLetter name 0 prev ts).flatMap String.utf8EncodeChar).countP isWide =
      ((ts.map TaggedChar.char).flatMap String.utf8EncodeChar).countP isWide := by
  refine @deletePrefixes_induction isLetter name
    (fun prev ts =>
      ((deletePrefixes isLetter name 0 prev ts).flatMap String.utf8EncodeChar).countP isWide =
        ((ts.map TaggedChar.char).flatMap String.utf8EncodeChar).countP isWide)
    (fun prev => rfl) ?_ ?_ prev ts
  · intro prev x rest hhere ih
    rw [deletePrefixes_keep hhere, List.flatMap_cons, List.map_cons, List.flatMap_cons,
      List.countP_append, List.countP_append, ih]
  · intro prev us hhere ih
    have hascii : ∀ c ∈ name ++ ['.'], c.toNat < 128 := by
      intro c hc
      rcases List.mem_append.mp hc with hc | hc
      · exact hname c hc
      · rw [List.mem_singleton.mp hc]
        decide
    have hchars : (codeChars (name ++ ['.'])).map TaggedChar.char = name ++ ['.'] := by
      rw [codeChars, List.map_map]
      exact List.map_id' _
    rw [deletePrefixes_here hhere, ih, List.map_append, List.flatMap_append, List.countP_append,
      hchars, countP_wide_ascii hascii, Nat.zero_add]

/-! ## Statements whose code is ASCII -/

/-- The bytes of an ASCII character. -/
theorem utf8EncodeChar_eq_asciiByte {c : Char} (h : c.toNat < 128) :
    String.utf8EncodeChar c = [asciiByte c] := by
  rw [Foundation.utf8EncodeChar_of_lt h, asciiByte, if_pos h]

/-- ASCII characters with the same byte are equal. -/
theorem asciiByte_inj {c d : Char} (hc : c.toNat < 128) (hd : d.toNat < 128) :
    asciiByte c = asciiByte d ↔ c = d := by
  constructor
  · intro h
    have hnat := congrArg UInt8.toNat h
    rw [asciiByte, if_pos hc, asciiByte, if_pos hd, UInt8.toNat_ofNat', UInt8.toNat_ofNat'] at hnat
    have heq : c.toNat = d.toNat := by omega
    rw [← Char.ofNat_toNat c, heq, Char.ofNat_toNat]
  · rintro rfl
    rfl

/-- The byte of an ASCII character is ASCII. -/
theorem asciiByte_lt {c : Char} (h : c.toNat < 128) : asciiByte c < 128 := by
  rw [asciiByte, if_pos h, UInt8.lt_iff_toNat_lt]
  simp
  omega

/-- An ASCII character is the one of a byte exactly when its byte is that byte. -/
theorem beq_asciiByte {c d : Char} (hc : c.toNat < 128) (hd : d.toNat < 128) :
    (asciiByte c == asciiByte d) = (c == d) := by
  rw [Bool.eq_iff_iff, beq_iff_eq, beq_iff_eq, asciiByte_inj hc hd]

/-- An ASCII character starts an identifier when its byte does. -/
theorem startsIdent_eq_isFollow (isLetter : Char → Bool) {c : Char} (hc : c.toNat < 128) :
    startsIdent isLetter c = isFollow (asciiByte c) := by
  have hdouble := beq_asciiByte (d := '"') hc (by decide)
  have htick := beq_asciiByte (d := Char.ofNat 96) hc (by decide)
  have hbracket := beq_asciiByte (d := '[') hc (by decide)
  rw [startsIdent, isIdentChar, if_pos hc, isFollow, ← hdouble, ← htick, ← hbracket]
  rfl

/-- The last byte of the character before. -/
def lastByteOf (prev : Option TaggedChar) : Option UInt8 :=
  prev.bind fun x => (String.utf8EncodeChar x.char).getLast?

/-- The last byte of a tagged character, whatever stood before it. -/
theorem lastByte_bytes (prev : Option UInt8) (x : TaggedChar) :
    lastByte prev x.bytes = lastByteOf (some x) := by
  have hbytes : bytesOf x.bytes = String.utf8EncodeChar x.char := by
    simp [bytesOf, TaggedChar.bytes, Function.comp_def]
  obtain ⟨b, hb⟩ : ∃ b, (String.utf8EncodeChar x.char).getLast? = some b :=
    Option.ne_none_iff_exists'.mp fun hnone =>
      String.utf8EncodeChar_ne_nil (List.getLast?_eq_none_iff.mp hnone)
  rw [lastByte, hbytes, lastByteOf, Option.bind_some, hb]
  rfl

/-- After an ASCII character a path starts when it does after its byte. -/
theorem startsPath_eq_isBoundary (isLetter : Char → Bool) {prev : Option TaggedChar}
    (hprev : ∀ p ∈ prev, p.char.toNat < 128) :
    startsPath isLetter (prev.map TaggedChar.char) = isBoundary (lastByteOf prev) := by
  cases prev with
  | none => rfl
  | some p =>
      have hp := hprev p rfl
      have hdot := beq_asciiByte (d := '.') hp (by decide)
      rw [lastByteOf, Option.bind_some, utf8EncodeChar_eq_asciiByte hp]
      simp only [startsPath, Option.map_some, Option.all_some, isIdentChar, if_pos hp, isBoundary,
        List.getLast?_singleton, bne, ← hdot]
      rfl

/-- Where a path starts, a prefix may start for the bytes. -/
theorem isBoundary_of_startsPath {isLetter : Char → Bool} {prev : Option TaggedChar}
    (h : startsPath isLetter (prev.map TaggedChar.char) = true) :
    isBoundary (lastByteOf prev) = true := by
  by_cases hprev : ∀ p ∈ prev, p.char.toNat < 128
  · rwa [← startsPath_eq_isBoundary isLetter hprev]
  · cases prev with
    | none => rfl
    | some p =>
        have hp : 128 ≤ p.char.toNat := by simpa using hprev
        rw [lastByteOf, Option.bind_some]
        cases hlast : (String.utf8EncodeChar p.char).getLast? with
        | none => rfl
        | some b =>
            have hmem := List.mem_of_getLast? hlast
            have hwide := (Foundation.wide_of_mem_utf8EncodeChar hp hmem).1
            have hb : ¬ b < 128 := UInt8.not_lt.mpr hwide
            have hdot : b ≠ '.'.toUInt8 := by
              rintro rfl
              exact hb (by decide)
            simp [isBoundary, isIdentByte_of_not_lt hb, hdot]

/-- What characters next to each other are like in a text whose code is ASCII: after
code comes an ASCII character, which is code or opens a region, and before code
one, unless a newline ends a comment. -/
structure Next (p x : TaggedChar) : Prop where
  after : p.code = true → x.char.toNat < 128
  opens : p.code = true → x.code = true ∨ isOpener (asciiByte x.char) = true
  before : x.code = true → x.char ≠ '\n' → p.char.toNat < 128

/-- Characters next to each other in a text whose code is ASCII. -/
def AsciiAround : Option TaggedChar → List TaggedChar → Prop
  | _, [] => True
  | prev, x :: rest => (∀ p ∈ prev, Next p x) ∧ AsciiAround (some x) rest

/-- What comes after a character of such a text is such a text. -/
theorem AsciiAround.of_append {prev : Option TaggedChar} {left : List TaggedChar} {x : TaggedChar}
    {rest : List TaggedChar} (h : AsciiAround prev (left ++ x :: rest)) :
    AsciiAround (some x) rest := by
  induction left generalizing prev with
  | nil => exact h.2
  | cons y left ih => exact ih h.2

/-- The characters of a statement whose code is ASCII are such a text. -/
theorem asciiAround_charTags {s : ScanState} (hs : s.ClosesAscii) {cs : List Char}
    {prev : Option TaggedChar} (hprevCode : ∀ p ∈ prev, p.code = true → s = .code)
    (hprevAscii : ∀ p ∈ prev, s = .code → p.char.toNat < 128)
    (hcode : ∀ x ∈ charTags s cs, x.code = true → x.char.toNat < 128) :
    AsciiAround prev (charTags s cs) := by
  induction cs generalizing s prev with
  | nil => trivial
  | cons c cs ih =>
      rw [charTags] at hcode ⊢
      have hhead := hcode _ List.mem_cons_self
      have htail := fun x hx => hcode x (List.mem_cons_of_mem _ hx)
      -- a character that is not ASCII leaves the reading in code only from code
      have hwide : ¬ c.toNat < 128 → s = .code →
          (s.next (asciiByte c) (cs.head?.map asciiByte)).1 = true := by
        rintro hc rfl
        have hopen : isOpener (asciiByte c) = false := by
          rw [asciiByte, if_neg hc]
          decide
        rw [ScanState.next_code hopen]
      refine ⟨fun p hp => ⟨?_, ?_, ?_⟩, ih (ScanState.closesAscii_next hs _ _) ?_ ?_ htail⟩
      · intro hpcode
        by_contra hc
        exact hc (hhead (hwide hc (hprevCode p hp hpcode)))
      · intro hpcode
        cases hopen : isOpener (asciiByte c) with
        | true => exact .inr rfl
        | false =>
            left
            rw [hprevCode p hp hpcode, ScanState.next_code hopen]
      · intro hxcode hnewline
        refine hprevAscii p hp (ScanState.eq_code_of_next hxcode ?_)
        intro heq
        exact hnewline ((asciiByte_inj (hhead hxcode) (by decide)).mp heq)
      · intro p hp hpcode
        cases hp
        exact ScanState.next_of_code hpcode
      · intro p hp hnext
        cases hp
        by_contra hc
        have hbyte : ¬ asciiByte c < 128 := by
          rw [asciiByte, if_neg hc]
          decide
        rw [ScanState.next_wide hs hbyte] at hnext
        exact hc (hhead (hwide hc (s.afterWide_afterWide.2.1.mp hnext)))

/-- Characters of regions are kept. -/
theorem Strips.of_region {name : List UInt8} {us : List Tagged} (hus : ∀ x ∈ us, x.code = false)
    {prev : Option UInt8} {ts out : List Tagged} (h : Strips name prev (us ++ ts) out) :
    ∃ out', out = us ++ out' ∧ Strips name (lastByte prev us) ts out' := by
  induction us generalizing prev out with
  | nil => exact ⟨out, rfl, h⟩
  | cons x us ih =>
      have hx := hus x List.mem_cons_self
      generalize htext : x :: us ++ ts = text at h
      cases h with
      | nil => cases htext
      | region _ hrest =>
          cases htext
          obtain ⟨out', rfl, hout'⟩ := ih (fun y hy => hus y (List.mem_cons_of_mem x hy)) hrest
          exact ⟨out', rfl, (lastByte_cons prev x us).symm ▸ hout'⟩
      | copy _ hrest =>
          cases htext
          cases hx
      | @delete _ vs vs' _ _ _ =>
          cases name with
          | nil =>
              rw [(List.cons.inj htext).1] at hx
              cases hx
          | cons b name =>
              rw [(List.cons.inj htext).1] at hx
              cases hx

/-- A text whose bytes start with those of ASCII characters starts with these, and
they are code if they open nothing. -/
theorem exists_codeChars_of_bytes {cs : List Char}
    (hcs : ∀ c ∈ cs, c.toNat < 128 ∧ isOpener (asciiByte c) = false) {prev : Option TaggedChar}
    {ts : List TaggedChar} (haround : AsciiAround prev ts)
    (hhead : ∀ x ∈ ts.head?, x.code = true ∨ isOpener (asciiByte x.char) = true)
    {bytes : List UInt8}
    (h : bytesOf (ts.flatMap TaggedChar.bytes) = cs.flatMap String.utf8EncodeChar ++ bytes) :
    ∃ us, ts = codeChars cs ++ us ∧ bytes = bytesOf (us.flatMap TaggedChar.bytes) := by
  induction cs generalizing prev ts with
  | nil => exact ⟨ts, rfl, h.symm⟩
  | cons c cs ih =>
      obtain ⟨hc, hopen⟩ := hcs c List.mem_cons_self
      rw [List.flatMap_cons, utf8EncodeChar_eq_asciiByte hc] at h
      cases ts with
      | nil => cases h
      | cons x ts =>
          have hbytes : bytesOf x.bytes = String.utf8EncodeChar x.char := by
            simp [bytesOf, TaggedChar.bytes, Function.comp_def]
          rw [List.flatMap_cons, bytesOf_append, hbytes] at h
          by_cases hx : x.char.toNat < 128
          · rw [utf8EncodeChar_eq_asciiByte hx] at h
            obtain ⟨hbyte, htail⟩ := List.cons.inj h
            have hchar := (asciiByte_inj hx hc).mp hbyte
            have hcode : x.code = true := by
              rcases hhead x rfl with hcode | hopens
              · exact hcode
              · rw [hchar, hopen] at hopens
                cases hopens
            have hnext : ∀ y ∈ ts.head?, y.code = true ∨ isOpener (asciiByte y.char) = true := by
              intro y hy
              cases ts with
              | nil => cases hy
              | cons z ts =>
                  cases hy
                  exact (haround.2.1 x rfl).opens hcode
            obtain ⟨us, rfl, hus⟩ :=
              ih (fun d hd => hcs d (List.mem_cons_of_mem c hd)) haround.2 hnext htail
            have hxc : x = ⟨c, true⟩ := by
              rw [TaggedChar.mk.injEq]
              exact ⟨hchar, hcode⟩
            exact ⟨us, by rw [hxc]; rfl, hus⟩
          · have hle := Nat.le_of_not_lt hx
            obtain ⟨b, left, hleft⟩ :=
              List.exists_cons_of_ne_nil (String.utf8EncodeChar_ne_nil (c := x.char))
            have hb := (Foundation.wide_of_mem_utf8EncodeChar hle (hleft ▸ List.mem_cons_self)).1
            rw [hleft] at h
            have heq : b = asciiByte c := (List.cons.inj h).1
            exact absurd (heq ▸ asciiByte_lt hc) (UInt8.not_lt.mpr hb)

/-- Nothing is made of nothing. -/
theorem Strips.of_nil {name : List UInt8} {prev : Option UInt8} {out : List Tagged}
    (h : Strips name prev [] out) : out = [] := by
  generalize htext : ([] : List Tagged) = text at h
  cases h with
  | nil => rfl
  | region => cases htext
  | copy => cases htext
  | delete => simp at htext

/-- What follows a dot of code follows it for the bytes. -/
theorem head_startsIdent_eq (isLetter : Char → Bool) {prev : Option TaggedChar}
    {left us : List TaggedChar} (haround : AsciiAround prev (left ++ ⟨'.', true⟩ :: us)) :
    (us.head?.any fun x => startsIdent isLetter x.char) =
      ((bytesOf (us.flatMap TaggedChar.bytes)).head?).any isFollow := by
  cases us with
  | nil => rfl
  | cons y us =>
      have hy : y.char.toNat < 128 := (haround.of_append.1 _ rfl).after rfl
      have hbytes : bytesOf ((y :: us).flatMap TaggedChar.bytes) =
          asciiByte y.char :: bytesOf (us.flatMap TaggedChar.bytes) := by
        rw [List.flatMap_cons, TaggedChar.bytes, utf8EncodeChar_eq_asciiByte hy]
        rfl
      rw [hbytes]
      exact startsIdent_eq_isFollow isLetter hy

section Ascii

variable (isLetter : Char → Bool) {name : List Char}

/-- The characters of a name. -/
def IsNameChars (name : List Char) : Prop :=
  name ≠ [] ∧ ∀ c ∈ name, c.toNat < 128 ∧ isIdentByte (asciiByte c) = true

/-- The bytes of a name are one. -/
theorem IsNameChars.isName (hname : IsNameChars name) :
    IsName (name.flatMap String.utf8EncodeChar) := by
  rw [Foundation.flatMap_utf8EncodeChar_of_ascii fun c hc => (hname.2 c hc).1]
  refine ⟨by simpa using hname.1, ?_⟩
  intro b hb
  obtain ⟨c, hc, rfl⟩ := List.mem_map.mp hb
  obtain ⟨hlt, hbyte⟩ := hname.2 c hc
  rwa [asciiByte, if_pos hlt] at hbyte

/-- The characters of a name and the dot after it are ASCII. -/
theorem IsNameChars.lt_of_mem (hname : IsNameChars name) :
    ∀ c ∈ name ++ ['.'], c.toNat < 128 := by
  intro c hc
  rcases List.mem_append.mp hc with hc | hc
  · exact (hname.2 c hc).1
  · rw [List.mem_singleton.mp hc]
    decide

/-- The name and the dot in code, as characters. -/
theorem codeChars_append_dot (name : List Char) (us : List TaggedChar) :
    codeChars (name ++ ['.']) ++ us = codeChars name ++ (⟨'.', true⟩ : TaggedChar) :: us := by
  simp [codeChars]

/-- The name and the dot in code, as bytes. -/
theorem flatMap_bytes_codeChars (name : List Char) (us : List TaggedChar) :
    (codeChars (name ++ ['.']) ++ us).flatMap TaggedChar.bytes =
      codes (name.flatMap String.utf8EncodeChar) ++
        ⟨'.'.toUInt8, true⟩ :: us.flatMap TaggedChar.bytes := by
  rw [codeChars_append_dot, List.flatMap_append, List.flatMap_cons]
  have hname : (codeChars name).flatMap TaggedChar.bytes =
      codes (name.flatMap String.utf8EncodeChar) := by
    simp [codeChars, codes, List.flatMap_map, List.map_flatMap, TaggedChar.bytes]
  rw [hname]
  rfl

/-- A prefix for the bytes is one for the characters. -/
theorem isPrefixHere_of_bytes (hname : IsNameChars name) {prev : Option TaggedChar}
    {x : TaggedChar} {rest : List TaggedChar} (hcode : x.code = true)
    (haround : AsciiAround prev (x :: rest)) (hhere : (isBoundary (lastByteOf prev) &&
      prefixAt (name.flatMap String.utf8EncodeChar)
        (bytesOf ((x :: rest).flatMap TaggedChar.bytes))) = true) :
    isPrefixHere isLetter name (prev.map TaggedChar.char) (x :: rest) = true := by
  obtain ⟨hboundary, hat⟩ := Bool.and_eq_true_iff.mp hhere
  obtain ⟨next, tail, hbytes, hfollow⟩ := prefixAt_iff.mp hat
  have hdot : name.flatMap String.utf8EncodeChar ++ '.'.toUInt8 :: next :: tail =
      (name ++ ['.']).flatMap String.utf8EncodeChar ++ next :: tail := by
    rw [List.flatMap_append, List.append_assoc]
    rfl
  rw [hdot] at hbytes
  have hopen : ∀ c ∈ name ++ ['.'], c.toNat < 128 ∧ isOpener (asciiByte c) = false := by
    intro c hc
    refine ⟨hname.lt_of_mem c hc, ?_⟩
    rcases List.mem_append.mp hc with hc | hc
    · exact isOpener_of_isIdentByte (hname.2 c hc).2
    · rw [List.mem_singleton.mp hc]
      decide
  have hhead : ∀ y ∈ (x :: rest).head?, y.code = true ∨ isOpener (asciiByte y.char) = true := by
    intro y hy
    cases hy
    exact .inl hcode
  obtain ⟨us, hus, htail⟩ := exists_codeChars_of_bytes hopen haround hhead hbytes
  have hfirst : ∃ c ∈ name, x.char = c := by
    obtain ⟨c, left, rfl⟩ := List.exists_cons_of_ne_nil hname.1
    exact ⟨c, List.mem_cons_self, by rw [(List.cons.inj hus).1]⟩
  obtain ⟨c, hc, hxc⟩ := hfirst
  have hnewline : x.char ≠ '\n' := by
    intro heq
    have hident := (hname.2 c hc).2
    rw [← hxc, heq] at hident
    revert hident
    decide
  have hbefore : ∀ p ∈ prev, p.char.toNat < 128 := fun p hp =>
    (haround.1 p hp).before hcode hnewline
  refine isPrefixHere_iff.mpr ⟨hname.1, ?_, us, hus, ?_⟩
  · rwa [startsPath_eq_isBoundary isLetter hbefore]
  · rw [hus, codeChars_append_dot] at haround
    rw [head_startsIdent_eq isLetter haround, ← htail]
    exact hfollow

/-- Where the code is ASCII, stripping is deleting the prefixes. -/
theorem Strips.eq_deletePrefixes (hname : IsNameChars name) {prev : Option TaggedChar}
    {ts : List TaggedChar} (hascii : ∀ x ∈ ts, x.code = true → x.char.toNat < 128)
    (haround : AsciiAround prev ts) {out : List Tagged}
    (h : Strips (name.flatMap String.utf8EncodeChar) (lastByteOf prev)
      (ts.flatMap TaggedChar.bytes) out) :
    bytesOf out =
      (deletePrefixes isLetter name 0 (prev.map TaggedChar.char) ts).flatMap
        String.utf8EncodeChar := by
  -- induction on the length, as a prefix has any
  induction hlength : ts.length using Nat.strong_induction_on generalizing prev ts out with
  | h n ih =>
      match ts with
      | [] =>
          rw [h.of_nil]
          rfl
      | x :: rest =>
          have hlt : rest.length < n := by simp [← hlength]
          have hrestAscii := fun y hy => hascii y (List.mem_cons_of_mem x hy)
          cases hhere : isPrefixHere isLetter name (prev.map TaggedChar.char) (x :: rest) with
          | true =>
              obtain ⟨-, hpath, us, hus, hfollow⟩ := isPrefixHere_iff.mp hhere
              have hshort : us.length < n := by
                rw [← hlength, hus, List.length_append]
                simp [codeChars]
              rw [hus] at h hascii haround hhere ⊢
              rw [deletePrefixes_here hhere]
              rw [codeChars_append_dot] at haround
              rw [flatMap_bytes_codeChars] at h
              rw [head_startsIdent_eq isLetter haround] at hfollow
              have hrest := h.of_prefix (isBoundary_of_startsPath hpath) hfollow hname.isName.1
              exact @ih us.length hshort (some ⟨'.', true⟩) _
                (fun y hy => hascii y (List.mem_append_right _ hy)) haround.of_append _ hrest rfl
          | false =>
              rw [deletePrefixes_keep hhere, List.flatMap_cons]
              by_cases hcode : x.code = true
              · have hx := hascii x List.mem_cons_self hcode
                have hbytes : x.bytes = [⟨asciiByte x.char, true⟩] := by
                  rw [TaggedChar.bytes, utf8EncodeChar_eq_asciiByte hx, hcode]
                  rfl
                have hkeep : (isBoundary (lastByteOf prev) &&
                    prefixAt (name.flatMap String.utf8EncodeChar)
                      (bytesOf ((x :: rest).flatMap TaggedChar.bytes))) = false := by
                  by_contra hnot
                  rw [isPrefixHere_of_bytes isLetter hname hcode haround
                    (Bool.not_eq_false _ ▸ hnot)] at hhere
                  cases hhere
                rw [List.flatMap_cons, hbytes] at h hkeep
                obtain ⟨out', rfl, hout'⟩ := h.cons_code hkeep
                have hlast : some (asciiByte x.char) = lastByteOf (some x) := by
                  rw [lastByteOf, Option.bind_some, utf8EncodeChar_eq_asciiByte hx]
                  rfl
                rw [hlast] at hout'
                have hrest := ih rest.length hlt hrestAscii haround.2 hout' rfl
                rw [bytesOf_append, bytesOf_codes, charBytes_of_lt (asciiByte_lt hx), hrest,
                  utf8EncodeChar_eq_asciiByte hx]
                rfl
              · have hregion : ∀ y ∈ x.bytes, y.code = false := by
                  intro y hy
                  obtain ⟨b, -, rfl⟩ := List.mem_map.mp hy
                  exact Bool.eq_false_iff.mpr hcode
                rw [List.flatMap_cons] at h
                obtain ⟨out', rfl, hout'⟩ := h.of_region hregion
                rw [lastByte_bytes] at hout'
                have hrest := ih rest.length hlt hrestAscii haround.2 hout' rfl
                rw [bytesOf_append, hrest]
                simp [bytesOf, TaggedChar.bytes, Function.comp_def]

end Ascii

/-! ## When nothing else changes -/

/-- The bytes of tagged characters. -/
theorem bytesOf_flatMap_bytes (ts : List TaggedChar) :
    bytesOf (ts.flatMap TaggedChar.bytes) =
      (ts.map TaggedChar.char).flatMap String.utf8EncodeChar := by
  simp [bytesOf, List.map_flatMap, List.flatMap_map, TaggedChar.bytes, Function.comp_def]

/-- The characters of a tagged statement. -/
theorem map_char_charTags (s : ScanState) (cs : List Char) :
    (charTags s cs).map TaggedChar.char = cs := by
  induction cs generalizing s with
  | nil => rfl
  | cons c cs ih => rw [charTags, List.map_cons, ih]

/-- All code of a statement is ASCII. -/
def CodeIsAscii (sql : String) : Prop :=
  ∀ x ∈ charTags .code sql.toList, x.code = true → x.char.toNat < 128

/-- A character of code that is not ASCII has bytes of code that are not. -/
theorem codeIsAscii_of_countP {sql : String}
    (h : ((charTags .code sql.toList).flatMap TaggedChar.bytes).countP
      (fun x => x.code && isWide x.byte) = 0) : CodeIsAscii sql := by
  intro x hx hcode
  by_contra hwide
  have hle := Nat.le_of_not_lt hwide
  obtain ⟨b, left, hleft⟩ :=
    List.exists_cons_of_ne_nil (String.utf8EncodeChar_ne_nil (c := x.char))
  have hb := (Foundation.wide_of_mem_utf8EncodeChar hle (hleft ▸ List.mem_cons_self)).1
  have hmem : (⟨b, true⟩ : Tagged) ∈ (charTags .code sql.toList).flatMap TaggedChar.bytes := by
    refine List.mem_flatMap.mpr ⟨x, hx, ?_⟩
    rw [TaggedChar.bytes, hleft, hcode]
    exact List.mem_cons_self
  have hzero := List.countP_eq_zero.mp h ⟨b, true⟩ hmem
  simp [isWide, UInt8.not_lt.mpr hb] at hzero

/-- The bytes of a name are those of the characters of a name. -/
theorem isNameChars_of_bytes {name : String} (hne : name ≠ "")
    (hname : ∀ b ∈ name.toUTF8.toList, isIdentByte b = true) : IsNameChars name.toList := by
  refine ⟨fun hnil => hne (String.toList_eq_nil_iff.mp hnil), ?_⟩
  intro c hc
  rw [Foundation.toList_toUTF8] at hname
  have hbytes := fun b hb => hname b (List.mem_flatMap.mpr ⟨c, hc, hb⟩)
  by_cases hlt : c.toNat < 128
  · rw [utf8EncodeChar_eq_asciiByte hlt] at hbytes
    exact ⟨hlt, hbytes _ List.mem_cons_self⟩
  · have hle := Nat.le_of_not_lt hlt
    obtain ⟨b, left, hleft⟩ := List.exists_cons_of_ne_nil (String.utf8EncodeChar_ne_nil (c := c))
    have hb := (Foundation.wide_of_mem_utf8EncodeChar hle (hleft ▸ List.mem_cons_self)).1
    have hident := hbytes b (hleft ▸ List.mem_cons_self)
    exact absurd (lt_of_isIdentByte hident) (UInt8.not_lt.mpr hb)

/-- Stripping a name deletes the prefixes and nothing else if and only if all code is
ASCII. -/
theorem stripProviderPrefix_eq_iff (isLetter : Char → Bool) (sql : String) {name : String}
    (hname : IsNameChars name.toList) :
    stripProviderPrefix sql.toUTF8.toList name.toUTF8.toList =
        (withoutPrefixes isLetter sql name).toUTF8.toList ↔ CodeIsAscii sql := by
  have hisName := hname.isName
  have hcode : ScanState.ClosesAscii .code := trivial
  have htags : tags .code sql.toUTF8.toList =
      (charTags .code sql.toList).flatMap TaggedChar.bytes := by
    rw [Foundation.toList_toUTF8]
    exact tags_flatMap_utf8EncodeChar hcode _
  have hstrips := strips_stripProviderPrefix hisName.plain sql.toUTF8.toList
  rw [htags] at hstrips
  rw [Foundation.toList_toUTF8 name, Foundation.toList_toUTF8 (withoutPrefixes isLetter sql name),
    withoutPrefixes, String.toList_ofList]
  constructor
  · intro heq
    -- the deleted bytes are ASCII, so that the count of the others tells
    have hcount := hstrips.countP_wide hisName.2
    rw [bytesOf_tags, heq, countP_wide_deletePrefixes (fun c hc => (hname.2 c hc).1),
      bytesOf_flatMap_bytes] at hcount
    exact codeIsAscii_of_countP (by omega)
  · intro hascii
    have haround : AsciiAround none (charTags .code sql.toList) :=
      asciiAround_charTags hcode (by simp) (by simp) hascii
    have hout := Strips.eq_deletePrefixes isLetter hname hascii haround hstrips
    rwa [bytesOf_tags] at hout

/-- **Deleting the prefix and nothing else.**  Stripping a provider name, made of ASCII
letters, digits and underscores, from a statement deletes the occurrences of the
name with its dot that are code, start an identifier path and qualify something,
and nothing else, if and only if the name is empty or all code of the statement is
ASCII; whichever of the other characters count as letters. -/
theorem strip_deletes_prefixes_iff (isLetter : Char → Bool) (sql name : String)
    (hname : ∀ b ∈ name.toUTF8.toList, isIdentByte b = true) :
    stripProviderPrefix sql.toUTF8.toList name.toUTF8.toList =
        (withoutPrefixes isLetter sql name).toUTF8.toList ↔ name = "" ∨ CodeIsAscii sql := by
  by_cases hne : name = ""
  · subst hne
    have hkeep : ∀ prev ts, deletePrefixes isLetter [] 0 prev ts = ts.map TaggedChar.char := by
      intro prev ts
      induction ts generalizing prev with
      | nil => rfl
      | cons x ts ih =>
          have hhere : isPrefixHere isLetter [] prev (x :: ts) = false := by
            simp [isPrefixHere]
          rw [deletePrefixes_keep hhere, ih, List.map_cons]
    have hempty : "".toUTF8.toList = [] := by
      rw [Foundation.toList_toUTF8]
      rfl
    have hsame : withoutPrefixes isLetter sql "" = sql := by
      rw [withoutPrefixes, String.toList_empty, hkeep, map_char_charTags, String.ofList_toList]
    rw [hsame, hempty, stripProviderPrefix, if_pos rfl]
    simp
  · rw [stripProviderPrefix_eq_iff isLetter sql (isNameChars_of_bytes hne hname)]
    simp [hne]

/-- The prefix is deleted before a table and kept in a string that is not ASCII. -/
theorem strip_deletes_prefixes_string :
    stripProviderPrefix "from geo.t 'geo.城'".toUTF8.toList "geo".toUTF8.toList =
      "from t 'geo.城'".toUTF8.toList := by
  have hname : ∀ b ∈ "geo".toUTF8.toList, isIdentByte b = true := by
    rw [Foundation.toList_toUTF8]
    exact List.all_eq_true.mp (by decide)
  have hascii : CodeIsAscii "from geo.t 'geo.城'" := by
    rw [CodeIsAscii]
    decide
  have hdelete : withoutPrefixes (fun _ => false) "from geo.t 'geo.城'" "geo" =
      "from t 'geo.城'" := by
    decide
  have hstrip := (strip_deletes_prefixes_iff (fun _ => false) "from geo.t 'geo.城'" "geo" hname).mpr
    (.inr hascii)
  rwa [hdelete] at hstrip

/-- The name of a column that is not ASCII does not come out as it is. -/
theorem strip_changes_chinese_column :
    withoutPrefixes (fun _ => true) "select 城 from geo.t" "geo" = "select 城 from t" ∧
      stripProviderPrefix "select 城 from geo.t".toUTF8.toList "geo".toUTF8.toList ≠
        "select 城 from t".toUTF8.toList := by
  have hdelete : withoutPrefixes (fun _ => true) "select 城 from geo.t" "geo" =
      "select 城 from t" := by
    decide
  have hname : IsNameChars "geo".toList := by
    have hall : ("geo".toList.all fun c =>
        decide (c.toNat < 128) && isIdentByte (asciiByte c)) = true := by
      decide
    exact ⟨by simp, fun c hc => by simpa using List.all_eq_true.mp hall c hc⟩
  have hwide : ¬ CodeIsAscii "select 城 from geo.t" := by
    rw [CodeIsAscii]
    decide
  refine ⟨hdelete, ?_⟩
  rw [← hdelete]
  exact fun heq => hwide ((stripProviderPrefix_eq_iff _ _ hname).mp heq)

end WpKnowledge.SqlRoute
