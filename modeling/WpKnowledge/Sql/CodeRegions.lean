import Mathlib.Order.Nat
import WpKnowledge.Sql.RouteStrip

/-!
# What the routing scanners take for code

Here the three scanners of a statement also record which bytes they read, what they take
each of them for, and where they recognise a keyword, a parenthesis or a prefix.  The
records agree with the reading byte by byte, and therefore with each other.  For
`matching_paren` it follows what the parenthesis is that it returns.

Main results:

- Theorem {lit}`scanners_agree_on_code`: the records are parts of one tagged statement.
- Theorem {lit}`matchingParen_isLeast`: the position returned is the least one at which the
  parentheses in code are even.
-/

open Foundation

namespace WpKnowledge.SqlRoute

/-! ## Records -/

/-- What a scanner returns, the bytes it has read, tagged as code where it has not skipped
them, and the positions at which it has recognised something. -/
structure Recorded (α : Type) where
  result : α
  visited : List Tagged
  recognised : List Nat

namespace Recorded

variable {α : Type}

/-- A byte is read before. -/
def pass (x : Tagged) (r : Recorded α) : Recorded α := { r with visited := x :: r.visited }

/-- Something is recognised before. -/
def recognise (p : Nat) (r : Recorded α) : Recorded α := { r with recognised := p :: r.recognised }

/-- Bytes are written before. -/
def write (bytes : List UInt8) (r : Recorded (List UInt8)) : Recorded (List UInt8) :=
  { r with result := bytes ++ r.result }

@[simp]
theorem result_pass (x : Tagged) (r : Recorded α) : (r.pass x).result = r.result := rfl

@[simp]
theorem visited_pass (x : Tagged) (r : Recorded α) : (r.pass x).visited = x :: r.visited := rfl

@[simp]
theorem recognised_pass (x : Tagged) (r : Recorded α) : (r.pass x).recognised = r.recognised := rfl

@[simp]
theorem result_recognise (p : Nat) (r : Recorded α) : (r.recognise p).result = r.result := rfl

@[simp]
theorem visited_recognise (p : Nat) (r : Recorded α) : (r.recognise p).visited = r.visited := rfl

@[simp]
theorem recognised_recognise (p : Nat) (r : Recorded α) :
    (r.recognise p).recognised = p :: r.recognised := rfl

@[simp]
theorem result_write (bytes : List UInt8) (r : Recorded (List UInt8)) :
    (r.write bytes).result = bytes ++ r.result := rfl

@[simp]
theorem visited_write (bytes : List UInt8) (r : Recorded (List UInt8)) :
    (r.write bytes).visited = r.visited := rfl

@[simp]
theorem recognised_write (bytes : List UInt8) (r : Recorded (List UInt8)) :
    (r.write bytes).recognised = r.recognised := rfl

/-- The record agrees with the tagged bytes {lit}`ts` that stand at position {lit}`idx`: it
is a first part of them, and what was recognised is code. -/
structure Follows (idx : Nat) (ts : List Tagged) (r : Recorded α) : Prop where
  visited : r.visited <+: ts
  recognised : ∀ p ∈ r.recognised, idx ≤ p ∧ ∃ b, ts[p - idx]? = some ⟨b, true⟩

theorem follows_nil (idx : Nat) (ts : List Tagged) (result : α) :
    Follows idx ts ⟨result, [], []⟩ :=
  ⟨List.nil_prefix, by simp⟩

theorem Follows.pass {idx : Nat} {ts : List Tagged} {r : Recorded α} (h : r.Follows (idx + 1) ts)
    (x : Tagged) : (r.pass x).Follows idx (x :: ts) := by
  refine ⟨List.cons_prefix_cons.mpr ⟨rfl, h.visited⟩, fun p hp => ?_⟩
  obtain ⟨hle, b, hb⟩ := h.recognised p hp
  refine ⟨Nat.le_of_succ_le hle, b, ?_⟩
  have hpos : p - idx = p - (idx + 1) + 1 := by omega
  rw [hpos, List.getElem?_cons_succ, hb]

theorem Follows.recognise {idx : Nat} {b : UInt8} {ts : List Tagged} {r : Recorded α}
    (h : r.Follows idx (⟨b, true⟩ :: ts)) : (r.recognise idx).Follows idx (⟨b, true⟩ :: ts) := by
  refine ⟨h.visited, fun p hp => ?_⟩
  rcases List.mem_cons.mp hp with rfl | hp
  · exact ⟨le_rfl, b, by simp⟩
  · exact h.recognised p hp

theorem Follows.write {idx : Nat} {ts : List Tagged} {r : Recorded (List UInt8)}
    (h : r.Follows idx ts) (bytes : List UInt8) : (r.write bytes).Follows idx ts :=
  ⟨h.visited, h.recognised⟩

/-- A record that agrees with the tagged bytes and is as long is all of them. -/
theorem Follows.visited_eq {idx : Nat} {ts : List Tagged} {r : Recorded α} (h : r.Follows idx ts)
    (hlen : r.visited.length = ts.length) : r.visited = ts :=
  h.visited.eq_of_length hlen

end Recorded

open Recorded

/-! ## The scanners with their records -/

/-- `find_keyword`, recorded. -/
def recordKeyword (keyword : List UInt8) :
    Nat → Nat → Option UInt8 → List UInt8 → Recorded (Option Nat)
  | _, _, _, [] => ⟨none, [], []⟩
  | skip + 1, idx, _, b :: rest =>
      (recordKeyword keyword skip (idx + 1) (some b) rest).pass ⟨b, false⟩
  | 0, idx, prev, b :: rest =>
      match plainSkip b rest with
      | some n => (recordKeyword keyword n (idx + 1) (some b) rest).pass ⟨b, false⟩
      | none =>
          if keywordAt keyword prev (b :: rest) then
            (Recorded.mk (some idx) [⟨b, true⟩] []).recognise idx
          else (recordKeyword keyword 0 (idx + 1) (some b) rest).pass ⟨b, true⟩

/-- How `matching_paren` ends. -/
inductive ParenOutcome where
  | found (pos : Nat)
  /-- The depth is zero at a closing parenthesis, and `checked_sub` fails. -/
  | underflow
  | unclosed
deriving DecidableEq, Repr

/-- What `matching_paren` returns. -/
def ParenOutcome.position? : ParenOutcome → Option Nat
  | .found pos => some pos
  | .underflow | .unclosed => none

theorem ParenOutcome.eq_found_of_position? {outcome : ParenOutcome} {pos : Nat}
    (h : outcome.position? = some pos) : outcome = .found pos := by
  cases outcome with
  | found found => rw [Option.some.inj h]
  | underflow => cases h
  | unclosed => cases h

/-- `matching_paren`, recorded. -/
def recordParen : Nat → Nat → Nat → List UInt8 → Recorded ParenOutcome
  | _, _, _, [] => ⟨.unclosed, [], []⟩
  | skip + 1, depth, idx, b :: rest => (recordParen skip depth (idx + 1) rest).pass ⟨b, false⟩
  | 0, depth, idx, b :: rest =>
      match plainSkip b rest with
      | some n => (recordParen n depth (idx + 1) rest).pass ⟨b, false⟩
      | none =>
          if b = '('.toUInt8 then
            ((recordParen 0 (depth + 1) (idx + 1) rest).pass ⟨b, true⟩).recognise idx
          else if b = ')'.toUInt8 then
            if depth = 0 then (Recorded.mk .underflow [⟨b, true⟩] []).recognise idx
            else if depth = 1 then (Recorded.mk (.found idx) [⟨b, true⟩] []).recognise idx
            else ((recordParen 0 (depth - 1) (idx + 1) rest).pass ⟨b, true⟩).recognise idx
          else (recordParen 0 depth (idx + 1) rest).pass ⟨b, true⟩

/-- `strip_provider_prefix`, recorded; a prefix is left out, but not skipped. -/
def recordStrip (name : List UInt8) :
    Nat → Nat → Nat → Option UInt8 → List UInt8 → Recorded (List UInt8)
  | _, _, _, _, [] => ⟨[], [], []⟩
  | copy + 1, drop, idx, _, b :: rest =>
      ((recordStrip name copy drop (idx + 1) (some b) rest).pass ⟨b, false⟩).write [b]
  | 0, drop + 1, idx, _, b :: rest =>
      (recordStrip name 0 drop (idx + 1) (some b) rest).pass ⟨b, true⟩
  | 0, 0, idx, prev, b :: rest =>
      match stripSkip b rest with
      | some n => ((recordStrip name n 0 (idx + 1) (some b) rest).pass ⟨b, false⟩).write [b]
      | none =>
          if isBoundary prev && prefixAt name (b :: rest) then
            ((recordStrip name 0 name.length (idx + 1) (some b) rest).pass ⟨b, true⟩).recognise idx
          else ((recordStrip name 0 0 (idx + 1) (some b) rest).pass ⟨b, true⟩).write (charBytes b)

/-! ### Without their records they are the scanners -/

theorem result_recordKeyword (keyword : List UInt8) (skip idx : Nat) (prev : Option UInt8)
    (bytes : List UInt8) : (recordKeyword keyword skip idx prev bytes).result =
      findKeywordFrom keyword skip idx prev bytes := by
  induction bytes generalizing skip idx prev with
  | nil => cases skip <;> rfl
  | cons b rest ih =>
      cases skip with
      | succ skip => simpa [recordKeyword, findKeywordFrom] using ih _ _ _
      | zero =>
          rw [recordKeyword, findKeywordFrom]
          cases plainSkip b rest with
          | some n => simpa using ih _ _ _
          | none =>
              simp only
              split
              · rfl
              · simpa using ih _ _ _

theorem result_recordKeyword_start (keyword sql : List UInt8) :
    (recordKeyword keyword 0 0 none sql).result = findKeyword sql keyword :=
  result_recordKeyword keyword 0 0 none sql

theorem result_recordParen (skip depth idx : Nat) (bytes : List UInt8) :
    (recordParen skip depth idx bytes).result.position? =
      matchingParenFrom skip depth idx bytes := by
  induction bytes generalizing skip depth idx with
  | nil => cases skip <;> rfl
  | cons b rest ih =>
      cases skip with
      | succ skip => simpa [recordParen, matchingParenFrom] using ih _ _ _
      | zero =>
          rw [recordParen, matchingParenFrom]
          cases plainSkip b rest with
          | some n => simpa using ih _ _ _
          | none =>
              simp only
              split
              · simpa using ih _ _ _
              · split
                · split
                  · rfl
                  · split
                    · rfl
                    · simpa using ih _ _ _
                · simpa using ih _ _ _

theorem result_recordStrip (name : List UInt8) (copy drop idx : Nat) (prev : Option UInt8)
    (bytes : List UInt8) : (recordStrip name copy drop idx prev bytes).result =
      stripFrom name copy drop prev bytes := by
  induction bytes generalizing copy drop idx prev with
  | nil => cases copy <;> rfl
  | cons b rest ih =>
      cases copy with
      | succ copy => simp [recordStrip, stripFrom, ih]
      | zero =>
          cases drop with
          | succ drop => simp [recordStrip, stripFrom, ih]
          | zero =>
              rw [recordStrip, stripFrom]
              cases stripSkip b rest with
              | some n => simp [ih]
              | none =>
                  simp only
                  split <;> simp [ih]

/-! ### The records follow the tags -/

theorem follows_recordKeyword (keyword : List UInt8) (skip idx : Nat) (prev : Option UInt8)
    (bytes : List UInt8) :
    (recordKeyword keyword skip idx prev bytes).Follows idx (tagsFrom plainSkip skip bytes) := by
  induction bytes generalizing skip idx prev with
  | nil => cases skip <;> exact follows_nil _ _ _
  | cons b rest ih =>
      cases skip with
      | succ skip => exact (ih _ _ _).pass _
      | zero =>
          rw [recordKeyword, tagsFrom]
          cases plainSkip b rest with
          | some n => exact (ih _ _ _).pass _
          | none =>
              simp only
              split
              · exact Follows.recognise ⟨by simp, by simp⟩
              · exact (ih _ _ _).pass _

/-- Without a keyword the whole statement is read. -/
theorem length_visited_recordKeyword {keyword : List UInt8} {skip idx : Nat}
    {prev : Option UInt8} {bytes : List UInt8}
    (h : (recordKeyword keyword skip idx prev bytes).result = none) :
    (recordKeyword keyword skip idx prev bytes).visited.length = bytes.length := by
  induction bytes generalizing skip idx prev with
  | nil => cases skip <;> rfl
  | cons b rest ih =>
      cases skip with
      | succ skip => exact congrArg (· + 1) (ih h)
      | zero =>
          rw [recordKeyword] at h ⊢
          cases hskip : plainSkip b rest with
          | some n =>
              rw [hskip] at h
              exact congrArg (· + 1) (ih h)
          | none =>
              rw [hskip] at h
              simp only at h ⊢
              split at h
              · cases h
              · rename_i hkeyword
                rw [if_neg hkeyword]
                exact congrArg (· + 1) (ih h)

/-- Where the keyword is found it was recognised. -/
theorem mem_recognised_recordKeyword {keyword : List UInt8} {skip idx p : Nat}
    {prev : Option UInt8} {bytes : List UInt8}
    (h : (recordKeyword keyword skip idx prev bytes).result = some p) :
    p ∈ (recordKeyword keyword skip idx prev bytes).recognised := by
  induction bytes generalizing skip idx prev with
  | nil => cases skip <;> cases h
  | cons b rest ih =>
      cases skip with
      | succ skip => exact ih h
      | zero =>
          rw [recordKeyword] at h ⊢
          cases hskip : plainSkip b rest with
          | some n =>
              rw [hskip] at h
              exact ih h
          | none =>
              rw [hskip] at h
              simp only at h ⊢
              split at h
              · rename_i hkeyword
                rw [if_pos hkeyword, Option.some.inj h]
                exact List.mem_cons_self
              · rename_i hkeyword
                rw [if_neg hkeyword]
                exact ih h

theorem follows_recordParen (skip depth idx : Nat) (bytes : List UInt8) :
    (recordParen skip depth idx bytes).Follows idx (tagsFrom plainSkip skip bytes) := by
  induction bytes generalizing skip depth idx with
  | nil => cases skip <;> exact follows_nil _ _ _
  | cons b rest ih =>
      cases skip with
      | succ skip => exact (ih _ _ _).pass _
      | zero =>
          rw [recordParen, tagsFrom]
          cases plainSkip b rest with
          | some n => exact (ih _ _ _).pass _
          | none =>
              simp only
              split
              · exact ((ih _ _ _).pass _).recognise
              · split
                · split
                  · exact Follows.recognise ⟨by simp, by simp⟩
                  · split
                    · exact Follows.recognise ⟨by simp, by simp⟩
                    · exact ((ih _ _ _).pass _).recognise
                · exact (ih _ _ _).pass _

/-- Where the parenthesis is found it was recognised. -/
theorem mem_recognised_recordParen {skip depth idx p : Nat} {bytes : List UInt8}
    (h : (recordParen skip depth idx bytes).result = .found p) :
    p ∈ (recordParen skip depth idx bytes).recognised := by
  induction bytes generalizing skip depth idx with
  | nil => cases skip <;> cases h
  | cons b rest ih =>
      cases skip with
      | succ skip => exact ih h
      | zero =>
          rw [recordParen] at h ⊢
          cases hskip : plainSkip b rest with
          | some n =>
              rw [hskip] at h
              exact ih h
          | none =>
              rw [hskip] at h
              simp only at h ⊢
              split_ifs at h ⊢
              · exact List.mem_cons_of_mem _ (ih h)
              · cases h
              · cases h
                exact List.mem_cons_self
              · exact List.mem_cons_of_mem _ (ih h)
              · exact ih h

/-- Stripping reads the whole statement. -/
theorem length_visited_recordStrip (name : List UInt8) (copy drop idx : Nat)
    (prev : Option UInt8) (bytes : List UInt8) :
    (recordStrip name copy drop idx prev bytes).visited.length = bytes.length := by
  induction bytes generalizing copy drop idx prev with
  | nil => cases copy <;> cases drop <;> rfl
  | cons b rest ih =>
      cases copy with
      | succ copy => simp [recordStrip, ih]
      | zero =>
          cases drop with
          | succ drop => simp [recordStrip, ih]
          | zero =>
              rw [recordStrip]
              cases stripSkip b rest with
              | some n => simp [ih]
              | none =>
                  simp only
                  split <;> simp [ih]

/-- The bytes of a prefix are read as code. -/
theorem follows_recordStrip_drop {name : List UInt8} {left : List UInt8} {idx : Nat}
    {prev : Option UInt8} {b : UInt8} {rest : List UInt8} {ts : List Tagged}
    (h : (recordStrip name 0 0 (idx + left.length + 1) (some b) rest).Follows
      (idx + left.length + 1) ts) :
    (recordStrip name 0 (left.length + 1) idx prev (left ++ b :: rest)).Follows idx
      (codes left ++ ⟨b, true⟩ :: ts) := by
  induction left generalizing idx prev with
  | nil => exact h.pass _
  | cons c left ih =>
      have hpos : idx + (c :: left).length + 1 = idx + 1 + left.length + 1 := by
        rw [List.length_cons]
        omega
      rw [hpos] at h
      exact (@ih (idx + 1) (some c) h).pass _

/-- The record of the stripping loop, for a name of identifier bytes. -/
theorem follows_recordStrip {name : List UInt8} (hname : IsName name) (copy idx : Nat)
    (prev : Option UInt8) (bytes : List UInt8) :
    (recordStrip name copy 0 idx prev bytes).Follows idx (tagsFrom stripSkip copy bytes) := by
  induction hlen : bytes.length using Nat.strong_induction_on
    generalizing copy idx prev bytes with
  | _ n ih =>
      cases bytes with
      | nil => cases copy <;> exact follows_nil _ _ _
      | cons b rest =>
          have hrest : rest.length < n := by
            rw [← hlen]
            exact Nat.lt_succ_self _
          cases copy with
          | succ copy => exact ((ih _ hrest _ _ _ rest rfl).pass _).write _
          | zero =>
              rw [recordStrip, tagsFrom]
              cases hskip : stripSkip b rest with
              | some n => exact ((ih _ hrest _ _ _ rest rfl).pass _).write _
              | none =>
                  simp only
                  split
                  · rename_i hdelete
                    obtain ⟨-, hat⟩ := Bool.and_eq_true_iff.mp hdelete
                    obtain ⟨follow, tail, heq, -⟩ := prefixAt_iff.mp hat
                    obtain ⟨c, left, rfl⟩ := List.exists_cons_of_ne_nil hname.1
                    rw [List.cons_append] at heq
                    obtain ⟨rfl, rfl⟩ := List.cons.inj heq
                    -- the rest of the name, the dot, and what the prefix qualifies
                    have htags : tagsFrom stripSkip 0 (left ++ '.'.toUInt8 :: follow :: tail) =
                        codes left ++ ⟨'.'.toUInt8, true⟩ ::
                          tagsFrom stripSkip 0 (follow :: tail) := by
                      have hopener : ∀ d ∈ left ++ ['.'.toUInt8], isOpener d = false := by
                        intro d hd
                        rcases List.mem_append.mp hd with hd | hd
                        · exact isOpener_of_isIdentByte (hname.2 d (List.mem_cons_of_mem _ hd))
                        · rw [List.mem_singleton.mp hd]
                          decide
                      have hcodes := tags_codes hopener (follow :: tail)
                      rw [tagsFrom_stripSkip, tagsFrom_stripSkip]
                      simpa [codes] using hcodes
                    rw [htags]
                    have hshort : (follow :: tail).length < n := by
                      simp only [List.length_append, List.length_cons] at hrest ⊢
                      omega
                    exact ((follows_recordStrip_drop
                      (ih _ hshort 0 _ _ (follow :: tail) rfl)).pass _).recognise
                  · exact ((ih _ hrest _ _ _ rest rfl).pass _).write _

/-! ## One reading of the statement -/

/-- The position is code, reading the statement byte by byte. -/
def IsCode (sql : List UInt8) (p : Nat) : Prop :=
  ∃ b, (tags .code sql)[p]? = some ⟨b, true⟩

/-- From a byte of code on the statement is read as if it began there. -/
theorem Lexed.from_code {pre post : List Tagged} {x : Tagged} (h : Lexed (pre ++ x :: post))
    (hx : x.code = true) : Lexed (x :: post) := by
  obtain ⟨s, hs⟩ := exists_tags_of_append h
  by_cases hline : x.byte = '\n'.toUInt8
  · obtain ⟨byte, code⟩ := x
    obtain rfl : byte = '\n'.toUInt8 := hline
    obtain rfl : code = true := hx
    exact (h.of_append rfl).cons_code (by decide)
  · have hcode : (s.next x.byte (bytesOf post).head?).1 = true := by
      rw [bytesOf_cons, tags] at hs
      obtain ⟨hhead, -⟩ := List.cons.inj hs
      rw [← hhead] at hx
      exact hx
    rw [ScanState.eq_code_of_next hcode hline] at hs
    exact hs

/-- The tags of what stands from a position of code on. -/
theorem IsCode.tags_drop {sql : List UInt8} {p : Nat} (h : IsCode sql p) :
    tags .code (sql.drop p) = (tags .code sql).drop p := by
  obtain ⟨b, hb⟩ := h
  obtain ⟨hlt, hget⟩ := List.getElem?_eq_some_iff.mp hb
  have hdrop : (tags .code sql).drop p = ⟨b, true⟩ :: (tags .code sql).drop (p + 1) := by
    rw [List.drop_eq_getElem_cons hlt, hget]
  have hlexed : Lexed ((tags .code sql).take p ++ (tags .code sql).drop p) := by
    rw [List.take_append_drop]
    exact lexed_tags sql
  have hbytes : sql.drop p = bytesOf ((tags .code sql).drop p) := by
    rw [bytesOf, List.map_drop, ← bytesOf, bytesOf_tags]
  rw [hbytes, hdrop]
  rw [hdrop] at hlexed
  exact hlexed.from_code rfl

/-- What `first_table_name` steps over in front of a table reference is the keyword and
whitespace, and behind them the statement is read as if it began there. -/
theorem exists_tableStart {sql : List UInt8} {fromPos : Nat}
    (hfrom : findKeyword sql fromKeyword = some fromPos) {tableStart : Nat}
    (hstart : tableStart = fromPos + fromKeyword.length +
      ((sql.drop (fromPos + fromKeyword.length)).takeWhile isAsciiWhitespace).length) :
    ∃ pre passed tail, tags .code sql = pre ++ codes passed ++ tail ∧ passed ≠ [] ∧
      (∀ b ∈ passed, b < 128) ∧ pre.length + passed.length = tableStart ∧ Lexed tail := by
  rw [findKeyword_eq] at hfrom
  obtain ⟨⟨pre, post⟩, hsplit, rfl⟩ := Option.map_eq_some_iff.mp hfrom
  obtain ⟨word, blank, hpost, hword, hlen, hblank, -, hhead, htail⟩ :=
    (lexed_tags sql).exists_afterFrom hsplit
  have htags : tags .code sql = pre ++ codes (word ++ blank) ++ afterFrom post := by
    rw [List.append_assoc, ← hpost, ← append_of_splitKeyword hsplit]
  have hsql : sql = bytesOf pre ++ word ++ blank ++ bytesOf (afterFrom post) := by
    have hbytes := congrArg bytesOf htags
    simpa using hbytes
  obtain ⟨hdropFrom, htake⟩ := drop_from_of_parts (n := pre.length + fromKeyword.length) hsql
    (by rw [length_bytesOf, hlen]) hblank hhead
  refine ⟨pre, word ++ blank, afterFrom post, htags, ?_, fun b hb => ?_, ?_, htail⟩
  · intro hempty
    rw [(List.append_eq_nil_iff.mp hempty).1] at hlen
    cases hlen
  · rcases List.mem_append.mp hb with hb | hb
    · exact lt_of_isIdentByte
        (isIdentByte_of_eqIgnoreAsciiCase hword isIdentByte_fromKeyword b hb)
    · exact lt_of_isAsciiWhitespace (hblank b hb)
  · rw [hstart]
    simp only [hdropFrom, htake, List.length_append, hlen]
    omega

/-- The parenthesis that `first_table_name` asks for the matching one of is code. -/
theorem isCode_of_subquery {sql : List UInt8} {fromPos : Nat}
    (hfrom : findKeyword sql fromKeyword = some fromPos) {tableStart : Nat}
    (hstart : tableStart = fromPos + fromKeyword.length +
      ((sql.drop (fromPos + fromKeyword.length)).takeWhile isAsciiWhitespace).length)
    (hopen : (sql.drop tableStart).head? = some '('.toUInt8) :
    (tags .code sql)[tableStart]? = some ⟨'('.toUInt8, true⟩ := by
  obtain ⟨pre, passed, tail, htags, -, -, hlen, htail⟩ := exists_tableStart hfrom hstart
  have hpos : tableStart = (pre ++ codes passed).length := by
    simp [codes, hlen]
  have hafter : sql.drop tableStart = bytesOf tail := by
    have hsql : sql = bytesOf (pre ++ codes passed) ++ bytesOf tail := by
      have hbytes := congrArg bytesOf htags
      rwa [bytesOf_tags, bytesOf_append] at hbytes
    rw [hpos, hsql, ← length_bytesOf, List.drop_left]
  rw [hafter] at hopen
  obtain ⟨tail, rfl⟩ := htail.eq_paren_cons hopen
  rw [htags, hpos, List.getElem?_append_right le_rfl, Nat.sub_self, List.getElem?_cons_zero]

/-- The record is a part of the tagged statement, from position {lit}`start` on, and what
was recognised is code. -/
def Recorded.Agrees {α : Type} (sql : List UInt8) (start : Nat) (r : Recorded α) : Prop :=
  r.visited <+: (tags .code sql).drop start ∧ ∀ p ∈ r.recognised, IsCode sql p

theorem Recorded.Follows.agrees {α : Type} {sql : List UInt8} {start : Nat} {r : Recorded α}
    (h : r.Follows start ((tags .code sql).drop start)) : r.Agrees sql start := by
  refine ⟨h.visited, fun p hp => ?_⟩
  obtain ⟨hle, b, hb⟩ := h.recognised p hp
  rw [List.getElem?_drop, Nat.add_sub_cancel' hle] at hb
  exact ⟨b, hb⟩

/-- **The scanners agree on what is code.**  Each record is a part of the one tagged
statement, that of `matching_paren` from the code position it is asked about on; a keyword,
a parenthesis or a prefix is recognised in code only; and `first_table_name` asks about a
position in code.  With an empty name nothing is read and nothing stripped. -/
theorem scanners_agree_on_code (sql keyword : List UInt8) {name : List UInt8}
    (hname : ∀ b ∈ name, isIdentByte b = true) :
    ((recordKeyword keyword 0 0 none sql).result = findKeyword sql keyword ∧
      (recordKeyword keyword 0 0 none sql).Agrees sql 0 ∧
      (∀ p, findKeyword sql keyword = some p →
        p ∈ (recordKeyword keyword 0 0 none sql).recognised) ∧
      (findKeyword sql keyword = none →
        (recordKeyword keyword 0 0 none sql).visited = tags .code sql)) ∧
    (∀ openPos, IsCode sql openPos →
      (recordParen 0 0 openPos (sql.drop openPos)).result.position? = matchingParen sql openPos ∧
      (recordParen 0 0 openPos (sql.drop openPos)).Agrees sql openPos ∧
      ∀ p, matchingParen sql openPos = some p →
        p ∈ (recordParen 0 0 openPos (sql.drop openPos)).recognised) ∧
    (if name = [] then stripProviderPrefix sql name = sql else
      (recordStrip name 0 0 0 none sql).result = stripProviderPrefix sql name ∧
      (recordStrip name 0 0 0 none sql).Agrees sql 0 ∧
      (recordStrip name 0 0 0 none sql).visited = tags .code sql) ∧
    ∀ fromPos tableStart, findKeyword sql fromKeyword = some fromPos →
      tableStart = fromPos + fromKeyword.length +
        ((sql.drop (fromPos + fromKeyword.length)).takeWhile isAsciiWhitespace).length →
      (sql.drop tableStart).head? = some '('.toUInt8 → IsCode sql tableStart := by
  have hkeyword := follows_recordKeyword keyword 0 0 none sql
  rw [tagsFrom_plainSkip] at hkeyword
  have hlen : (tags .code sql).length = sql.length := by
    rw [← length_bytesOf, bytesOf_tags]
  refine ⟨⟨result_recordKeyword_start keyword sql, hkeyword.agrees, fun p hfound => ?_,
    fun hnone => ?_⟩, fun openPos hopen => ⟨result_recordParen 0 0 openPos (sql.drop openPos), ?_,
    fun p hfound => ?_⟩, ?_, fun fromPos tableStart hfrom hstart hparen => ?_⟩
  · rw [← result_recordKeyword_start] at hfound
    exact mem_recognised_recordKeyword hfound
  · refine hkeyword.visited_eq ?_
    rw [← result_recordKeyword_start] at hnone
    rw [length_visited_recordKeyword hnone, hlen]
  · have hparen := follows_recordParen 0 0 openPos (sql.drop openPos)
    rw [tagsFrom_plainSkip, hopen.tags_drop] at hparen
    exact hparen.agrees
  · rw [matchingParen, ← result_recordParen] at hfound
    exact mem_recognised_recordParen (ParenOutcome.eq_found_of_position? hfound)
  · split
    · rename_i hempty
      rw [stripProviderPrefix, if_pos hempty]
    · rename_i hne
      have hstrip := follows_recordStrip ⟨hne, hname⟩ 0 0 none sql
      rw [tagsFrom_stripSkip] at hstrip
      refine ⟨?_, hstrip.agrees, hstrip.visited_eq (by rw [length_visited_recordStrip, hlen])⟩
      rw [result_recordStrip, stripProviderPrefix, if_neg hne]
  · exact ⟨_, isCode_of_subquery hfrom hstart hparen⟩

/-- A doubled backtick, then a comment that does not end. -/
theorem scanners_agree_on_doubled_backticks :
    let sql := "select `g``x` from geo.t where geo.a /* geo.b".toUTF8.toList
    let name := "geo".toUTF8.toList
    (recordStrip name 0 0 0 none sql).Agrees sql 0 ∧
      (recordStrip name 0 0 0 none sql).recognised = [19, 31] ∧
      (recordKeyword fromKeyword 0 0 none sql).recognised = [14] := by
  intro sql name
  have hident : ∀ b ∈ name, isIdentByte b = true := by decide +kernel
  obtain ⟨-, -, hstrip, -⟩ := scanners_agree_on_code sql fromKeyword hident
  rw [if_neg (by decide +kernel)] at hstrip
  exact ⟨hstrip.2.1, by decide +kernel, by decide +kernel⟩

/-! ## The matching parenthesis -/

/-- How many bytes of code are the given one. -/
def codeCount (byte : UInt8) (ts : List Tagged) : Nat :=
  ts.countP fun x => x.code && x.byte == byte

@[simp]
theorem codeCount_nil (byte : UInt8) : codeCount byte [] = 0 := rfl

theorem codeCount_cons (byte : UInt8) (x : Tagged) (ts : List Tagged) :
    codeCount byte (x :: ts) = (if x.code ∧ x.byte = byte then 1 else 0) + codeCount byte ts := by
  simp only [codeCount, List.countP_cons, Bool.and_eq_true, beq_iff_eq]
  omega

/-- The byte at the index is code, and up to it, it included, as many parentheses of code
are closed as were open before and are opened. -/
def ClosesAll (depth : Nat) (ts : List Tagged) (k : Nat) : Prop :=
  (∃ b, ts[k]? = some ⟨b, true⟩) ∧
    depth + codeCount '('.toUInt8 (ts.take (k + 1)) = codeCount ')'.toUInt8 (ts.take (k + 1))

theorem closesAll_zero_iff {depth : Nat} {x : Tagged} {ts : List Tagged} (hdepth : 0 < depth) :
    ClosesAll depth (x :: ts) 0 ↔ depth = 1 ∧ x = ⟨')'.toUInt8, true⟩ := by
  obtain ⟨b, code⟩ := x
  simp only [ClosesAll, List.getElem?_cons_zero, Nat.zero_add, List.take_succ_cons, List.take_zero,
    codeCount_cons, codeCount_nil, Nat.add_zero, Option.some.injEq, Tagged.mk.injEq,
    exists_eq_left']
  constructor
  · rintro ⟨rfl, hcount⟩
    by_cases hclose : b = ')'.toUInt8
    · subst hclose
      rw [if_neg (by decide), if_pos (by decide)] at hcount
      exact ⟨by omega, rfl, rfl⟩
    · simp only [hclose, and_false, if_false] at hcount
      omega
  · rintro ⟨rfl, rfl, rfl⟩
    exact ⟨rfl, by decide⟩

/-- One byte further the depth is what the byte has made of it. -/
theorem closesAll_succ_iff {depth depth' : Nat} {x : Tagged} {ts : List Tagged} {k : Nat}
    (hdepth : depth + (if x.code ∧ x.byte = '('.toUInt8 then 1 else 0) =
      depth' + if x.code ∧ x.byte = ')'.toUInt8 then 1 else 0) :
    ClosesAll depth (x :: ts) (k + 1) ↔ ClosesAll depth' ts k := by
  simp only [ClosesAll, List.getElem?_cons_succ, List.take_succ_cons, codeCount_cons]
  refine and_congr_right fun _ => ?_
  omega

/-- The least index is the first, or the least behind it. -/
theorem isLeast_succ_iff {P : Nat → Prop} (hzero : ¬ P 0) (k : Nat) :
    IsLeast {k | P k} (k + 1) ↔ IsLeast {k | P (k + 1)} k := by
  constructor
  · rintro ⟨hk, hleast⟩
    exact ⟨hk, fun j hj => Nat.le_of_succ_le_succ (hleast hj)⟩
  · rintro ⟨hk, hleast⟩
    refine ⟨hk, fun j hj => ?_⟩
    cases j with
    | zero => exact absurd hj hzero
    | succ j => exact Nat.succ_le_succ (hleast hj)

/-- The split is at the least index at which all parentheses are closed. -/
theorem splitParen_isLeast {depth : Nat} (hdepth : 0 < depth) (ts : List Tagged) (k : Nat) :
    (splitParen depth ts).map (fun split => split.1.length) = some k ↔
      IsLeast {k | ClosesAll depth ts k} k := by
  induction ts generalizing depth k with
  | nil =>
      simp only [splitParen, Option.map_none, reduceCtorEq, false_iff]
      rintro ⟨⟨⟨b, hb⟩, -⟩, -⟩
      cases hb
  | cons x rest ih =>
      -- the search goes on behind the byte, with the depth the byte has made
      have hlater : ∀ {depth'}, 0 < depth' → ¬ ClosesAll depth (x :: rest) 0 →
          depth + (if x.code ∧ x.byte = '('.toUInt8 then 1 else 0) =
            (depth' + if x.code ∧ x.byte = ')'.toUInt8 then 1 else 0) →
          (((splitParen depth' rest).map fun split => (x :: split.1, split.2)).map
              (fun split => split.1.length) = some k ↔
            IsLeast {k | ClosesAll depth (x :: rest) k} k) := by
        intro depth' hdepth' hzero hcount
        have hmap : ((splitParen depth' rest).map fun split => (x :: split.1, split.2)).map
              (fun split => split.1.length) =
            ((splitParen depth' rest).map fun split => split.1.length).map (· + 1) := by
          simp [Function.comp_def]
        rw [hmap]
        cases k with
        | zero =>
            exact iff_of_false (by simp) fun h => hzero h.1
        | succ k =>
            rw [isLeast_succ_iff hzero]
            simp only [closesAll_succ_iff hcount, ← ih hdepth']
            simp
      rw [splitParen]
      split
      · rename_i hopen
        have hnot : ¬ (x.code ∧ x.byte = ')'.toUInt8) := by
          rintro ⟨-, hclose⟩
          rw [hclose] at hopen
          exact absurd hopen.2 (by decide)
        refine hlater (Nat.succ_pos depth) ?_ (by rw [if_pos hopen, if_neg hnot])
        rw [closesAll_zero_iff hdepth]
        rintro ⟨-, rfl⟩
        exact hnot ⟨rfl, rfl⟩
      · rename_i hopen
        split
        · rename_i hclose
          rw [if_neg hdepth.ne']
          split
          · rename_i hone
            have hzero : ClosesAll depth (x :: rest) 0 := by
              obtain ⟨byte, code⟩ := x
              obtain ⟨rfl, rfl⟩ := hclose
              exact (closesAll_zero_iff hdepth).mpr ⟨hone, rfl⟩
            simp only [Option.map_some, List.length_nil, Option.some.injEq]
            constructor
            · rintro rfl
              exact ⟨hzero, fun j _ => Nat.zero_le j⟩
            · intro h
              exact (Nat.le_zero.mp (h.2 hzero)).symm
          · rename_i hone
            refine hlater (by omega) ?_ (by rw [if_neg hopen, if_pos hclose]; omega)
            rw [closesAll_zero_iff hdepth]
            exact fun h => hone h.1
        · rename_i hclose
          refine hlater hdepth ?_ (by rw [if_neg hopen, if_neg hclose])
          rw [closesAll_zero_iff hdepth]
          rintro ⟨-, rfl⟩
          exact hclose ⟨rfl, rfl⟩

/-- A depth that is not zero never falls to zero before the parenthesis is found. -/
theorem result_recordParen_ne_underflow {depth : Nat} (hdepth : 0 < depth) (skip idx : Nat)
    (bytes : List UInt8) : (recordParen skip depth idx bytes).result ≠ .underflow := by
  induction bytes generalizing depth skip idx with
  | nil => cases skip <;> nofun
  | cons b rest ih =>
      cases skip with
      | succ skip => exact ih hdepth _ _
      | zero =>
          rw [recordParen]
          cases plainSkip b rest with
          | some n => exact ih hdepth _ _
          | none =>
              simp only
              split
              · exact ih (Nat.succ_pos depth) _ _
              · split
                · rw [if_neg hdepth.ne']
                  split
                  · nofun
                  · rename_i hone
                    exact ih (by omega) _ _
                · exact ih hdepth _ _

/-- The position is code, and the parentheses in code from the open one to it, both
included, are even. -/
def IsEvenAt (sql : List UInt8) (openPos p : Nat) : Prop :=
  IsCode sql p ∧
    codeCount '('.toUInt8 (((tags .code sql).take (p + 1)).drop openPos) =
      codeCount ')'.toUInt8 (((tags .code sql).take (p + 1)).drop openPos)

theorem isEvenAt_add_iff {sql : List UInt8} {openPos k : Nat} {tail : List Tagged}
    (h : (tags .code sql).drop openPos = ⟨'('.toUInt8, true⟩ :: tail) :
    IsEvenAt sql openPos (openPos + (k + 1)) ↔ ClosesAll 1 tail k := by
  have htake : ((tags .code sql).take (openPos + (k + 1) + 1)).drop openPos =
      ⟨'('.toUInt8, true⟩ :: tail.take (k + 1) := by
    rw [List.drop_take, h, Nat.add_assoc, Nat.add_sub_cancel_left, List.take_succ_cons]
  have hcode : IsCode sql (openPos + (k + 1)) ↔ ∃ b, tail[k]? = some ⟨b, true⟩ := by
    have hget : (tags .code sql)[openPos + (k + 1)]? = tail[k]? := by
      rw [← List.getElem?_drop, h, List.getElem?_cons_succ]
    rw [IsCode, hget]
  simp only [IsEvenAt, ClosesAll, hcode, htake, codeCount_cons]
  refine and_congr_right fun _ => ?_
  rw [if_pos (by decide), if_neg (by decide), Nat.zero_add]

/-- The position behind the open parenthesis. -/
theorem isLeast_add_iff {P : Nat → Prop} {start k : Nat} :
    IsLeast {p | start < p ∧ P p} (start + (k + 1)) ↔
      IsLeast {k | P (start + (k + 1))} k := by
  constructor
  · rintro ⟨⟨-, hk⟩, hleast⟩
    refine ⟨hk, fun j hj => ?_⟩
    have hle := hleast (a := start + (j + 1)) ⟨by omega, hj⟩
    omega
  · rintro ⟨hk, hleast⟩
    refine ⟨⟨by omega, hk⟩, fun p hp => ?_⟩
    obtain ⟨j, rfl⟩ : ∃ j, p = start + (j + 1) := ⟨p - start - 1, by have := hp.1; omega⟩
    have hle := hleast (a := j) hp.2
    omega

/-- **The matching parenthesis.**  For an open parenthesis in code, the position returned is
the least code position behind it at which the parentheses in code are even; without such a
position none is returned; and the depth is never lowered below zero. -/
theorem matchingParen_isLeast {sql : List UInt8} {openPos : Nat}
    (hopen : (tags .code sql)[openPos]? = some ⟨'('.toUInt8, true⟩) :
    (∀ p, matchingParen sql openPos = some p ↔
      IsLeast {p | openPos < p ∧ IsEvenAt sql openPos p} p) ∧
    (matchingParen sql openPos = none ↔ ∀ p, openPos < p → ¬ IsEvenAt sql openPos p) ∧
    (recordParen 0 0 openPos (sql.drop openPos)).result.position? = matchingParen sql openPos ∧
    (recordParen 0 0 openPos (sql.drop openPos)).result ≠ .underflow := by
  have hcode : IsCode sql openPos := ⟨_, hopen⟩
  obtain ⟨hlt, hget⟩ := List.getElem?_eq_some_iff.mp hopen
  have hdrop : (tags .code sql).drop openPos =
      ⟨'('.toUInt8, true⟩ :: (tags .code sql).drop (openPos + 1) := by
    rw [List.drop_eq_getElem_cons hlt, hget]
  have hfound : matchingParen sql openPos =
      ((splitParen 1 ((tags .code sql).drop (openPos + 1))).map fun split => split.1.length).map
        fun k => openPos + (k + 1) := by
    rw [matchingParen_eq, hcode.tags_drop, hdrop, splitParen, if_pos ⟨rfl, rfl⟩]
    simp [Function.comp_def]
  have hiff : ∀ p, matchingParen sql openPos = some p ↔
      IsLeast {p | openPos < p ∧ IsEvenAt sql openPos p} p := by
    intro p
    rw [hfound, Option.map_eq_some_iff]
    simp only [splitParen_isLeast Nat.zero_lt_one, ← isEvenAt_add_iff hdrop]
    constructor
    · rintro ⟨k, hk, rfl⟩
      exact isLeast_add_iff.mpr hk
    · intro hp
      obtain ⟨k, rfl⟩ : ∃ k, p = openPos + (k + 1) :=
        ⟨p - openPos - 1, by have := hp.1.1; omega⟩
      exact ⟨k, isLeast_add_iff.mp hp, rfl⟩
  refine ⟨hiff, ?_, result_recordParen 0 0 openPos (sql.drop openPos), ?_⟩
  · constructor
    · intro hnone p hp heven
      -- a least such position would have been returned
      classical
      have hex : ∃ p, openPos < p ∧ IsEvenAt sql openPos p := ⟨p, hp, heven⟩
      rw [(hiff _).mpr (Nat.isLeast_find hex)] at hnone
      cases hnone
    · intro hnever
      cases hsome : matchingParen sql openPos with
      | none => rfl
      | some p =>
          obtain ⟨⟨hp, heven⟩, -⟩ := (hiff p).mp hsome
          exact absurd heven (hnever p hp)
  · have hbytes : sql.drop openPos = '('.toUInt8 :: sql.drop (openPos + 1) := by
      have hsql := congrArg bytesOf hdrop
      rwa [bytesOf_cons, bytesOf, bytesOf, List.map_drop, List.map_drop, ← bytesOf,
        bytesOf_tags] at hsql
    rw [hbytes]
    exact result_recordParen_ne_underflow Nat.zero_lt_one 0 (openPos + 1) _

/-- Parentheses in a literal and in a comment do not count. -/
theorem matchingParen_isLeast_subquery :
    let sql := "from (select ')' /* ) */ from (t) x) y".toUTF8.toList
    matchingParen sql 5 = some 35 ∧ IsLeast {p | 5 < p ∧ IsEvenAt sql 5 p} 35 := by
  intro sql
  have hfound : matchingParen sql 5 = some 35 := by decide +kernel
  have hopen : (tags .code sql)[5]? = some ⟨'('.toUInt8, true⟩ := by decide +kernel
  exact ⟨hfound, ((matchingParen_isLeast hopen).1 35).mp hfound⟩

end WpKnowledge.SqlRoute
