import WpKnowledge.Vel.Parse

/-!
# Addresses in SQL functions

The functions on IPv4 addresses that every connection gets.  An address is its number of
32 bits; the parser of the standard library is the parameter {lit}`parseIpv4`.
{lit}`ip4Between` has no error: an argument that is no address takes a number that is
meant to be in no range.

Main results:

- Theorem {lit}`ip4Between_eq_one_iff`: which arguments match.
- Theorem {lit}`ip4Between_spec_iff`: for which arguments only an address in the range
  matches.
-/

namespace WpKnowledge.SqliteExt

open Vel Foundation

/-- The largest number of 32 bits. -/
def maxU32 : UInt32 := 0xffffffff

theorem le_maxU32 (a : UInt32) : a ≤ maxU32 :=
  UInt32.le_iff_toNat_le.mpr (Nat.le_of_lt_succ a.toNat_lt)

theorem maxU32_le_iff {a : UInt32} : maxU32 ≤ a ↔ a = maxU32 := by
  constructor
  · exact fun h => UInt32.le_antisymm (le_maxU32 a) h
  · rintro rfl
    exact UInt32.le_refl maxU32

theorem le_zero_iff {a : UInt32} : a ≤ 0 ↔ a = 0 := by
  rw [UInt32.le_iff_toNat_le, ← UInt32.toNat_inj]
  exact Nat.le_zero

/-- A text without the white space around it and then without quotes around it. -/
def unquoted (s : List Char) : List Char :=
  trimBy (· == '"') (trim s)

/-- An argument of an SQL function. -/
inductive SqlArg where
  | integer (i : Int64)
  | text (s : String)
  /-- Null, a real or a blob: neither an integer nor a text. -/
  | other
deriving DecidableEq, Repr

section Parser

variable (parseIpv4 : List Char → Option UInt32)

/-- The number of an address in dotted form. -/
def parseIpv4ToU32 (s : String) : Option UInt32 :=
  parseIpv4 (unquoted s.toList)

/-- A bound of a range: an integer is cut to 32 bits, a text is read as an address. -/
def readBound : SqlArg → Option UInt32
  | .integer i => some i.toUInt64.toUInt32
  | .text s => parseIpv4ToU32 parseIpv4 s
  | .other => none

/-- Whether an address lies in a range, as one or zero. -/
def ip4Between (ip : String) (start stop : SqlArg) : Int64 :=
  let s := (readBound parseIpv4 start).getD maxU32
  let e := (readBound parseIpv4 stop).getD 0
  let v := (parseIpv4ToU32 parseIpv4 ip).getD maxU32
  if v ≥ s ∧ v ≤ e then 1 else 0

/-! ## Addresses in a range -/

/-- The address a bound denotes, if it denotes one. -/
def boundAddress : SqlArg → Option UInt32
  | .integer i => if 0 ≤ i ∧ i ≤ 0xffffffff then some i.toUInt64.toUInt32 else none
  | .text s => parseIpv4ToU32 parseIpv4 s
  | .other => none

/-- The address lies between two bounds that denote addresses. -/
def InRange (ip : String) (start stop : SqlArg) : Prop :=
  ∃ v s e, parseIpv4ToU32 parseIpv4 ip = some v ∧ boundAddress parseIpv4 start = some s ∧
    boundAddress parseIpv4 stop = some e ∧ s ≤ v ∧ v ≤ e

/-- What stands for no address is in no range. -/
def SentinelsOutside (ip : String) (start stop : SqlArg) : Prop :=
  match parseIpv4ToU32 parseIpv4 ip, readBound parseIpv4 start, readBound parseIpv4 stop with
  | none, _, e => e ≠ some maxU32
  | some v, none, e => v = maxU32 → e ≠ some maxU32
  | some v, some s, none => v = 0 → s ≠ 0
  | some v, some s, some e =>
      boundAddress parseIpv4 start = none ∨ boundAddress parseIpv4 stop = none → v < s ∨ e < v

/-- A bound that denotes an address is read as this address. -/
theorem readBound_of_boundAddress {arg : SqlArg} {a : UInt32}
    (h : boundAddress parseIpv4 arg = some a) : readBound parseIpv4 arg = some a := by
  cases arg with
  | integer i =>
      rw [boundAddress] at h
      split_ifs at h
      exact h
  | text s => exact h
  | other => cases h

theorem ip4Between_eq_one_iff (ip : String) (start stop : SqlArg) :
    ip4Between parseIpv4 ip start stop = 1 ↔
      (readBound parseIpv4 start).getD maxU32 ≤ (parseIpv4ToU32 parseIpv4 ip).getD maxU32 ∧
        (parseIpv4ToU32 parseIpv4 ip).getD maxU32 ≤ (readBound parseIpv4 stop).getD 0 := by
  rw [ip4Between]
  simp

theorem ip4Between_of_inRange {ip : String} {start stop : SqlArg}
    (h : InRange parseIpv4 ip start stop) : ip4Between parseIpv4 ip start stop = 1 := by
  obtain ⟨v, s, e, hv, hs, he, hsv, hve⟩ := h
  rw [ip4Between_eq_one_iff, hv, readBound_of_boundAddress parseIpv4 hs,
    readBound_of_boundAddress parseIpv4 he]
  exact ⟨hsv, hve⟩

/-- What cannot be read denotes no address. -/
theorem boundAddress_of_readBound_eq_none {arg : SqlArg} (h : readBound parseIpv4 arg = none) :
    boundAddress parseIpv4 arg = none := by
  rw [Option.eq_none_iff_forall_ne_some]
  intro a ha
  rw [readBound_of_boundAddress parseIpv4 ha] at h
  cases h

/-- Without an address and two bounds there is no range to lie in. -/
theorem not_inRange {ip : String} {start stop : SqlArg}
    (h : parseIpv4ToU32 parseIpv4 ip = none ∨ boundAddress parseIpv4 start = none ∨
      boundAddress parseIpv4 stop = none) : ¬ InRange parseIpv4 ip start stop := by
  rintro ⟨v, s, e, hv, hs, he, -⟩
  simp [hv, hs, he] at h

/-- An address and two bounds that denote addresses are compared as numbers. -/
theorem inRange_iff {ip : String} {start stop : SqlArg} {v s e : UInt32}
    (hv : parseIpv4ToU32 parseIpv4 ip = some v) (hs : boundAddress parseIpv4 start = some s)
    (he : boundAddress parseIpv4 stop = some e) :
    InRange parseIpv4 ip start stop ↔ s ≤ v ∧ v ≤ e := by
  constructor
  · rintro ⟨v', s', e', hv', hs', he', hle⟩
    rw [hv] at hv'
    rw [hs] at hs'
    rw [he] at he'
    cases hv'
    cases hs'
    cases he'
    exact hle
  · exact fun hle => ⟨v, s, e, hv, hs, he, hle⟩

/-- Only an address in the range matches exactly if what stands for no address is in none. -/
theorem ip4Between_imp_inRange_iff (ip : String) (start stop : SqlArg) :
    (ip4Between parseIpv4 ip start stop = 1 → InRange parseIpv4 ip start stop) ↔
      SentinelsOutside parseIpv4 ip start stop := by
  have hzero : (0 : UInt32) ≠ maxU32 := by decide
  rw [ip4Between_eq_one_iff, SentinelsOutside]
  cases hv : parseIpv4ToU32 parseIpv4 ip with
  | none =>
      rw [imp_iff_not (not_inRange parseIpv4 (Or.inl hv)), Option.getD_none,
        and_iff_right (le_maxU32 _), maxU32_le_iff]
      cases readBound parseIpv4 stop with
      | none => simp [hzero]
      | some e => simp
  | some v =>
      cases hs : readBound parseIpv4 start with
      | none =>
          have hstart := boundAddress_of_readBound_eq_none parseIpv4 hs
          rw [imp_iff_not (not_inRange parseIpv4 (Or.inr (Or.inl hstart))), Option.getD_none,
            Option.getD_some, maxU32_le_iff, not_and]
          apply imp_congr_right
          rintro rfl
          rw [maxU32_le_iff]
          cases readBound parseIpv4 stop with
          | none => simp [hzero]
          | some e => simp
      | some s =>
          cases he : readBound parseIpv4 stop with
          | none =>
              have hstop := boundAddress_of_readBound_eq_none parseIpv4 he
              rw [imp_iff_not (not_inRange parseIpv4 (Or.inr (Or.inr hstop))), Option.getD_none,
                Option.getD_some, le_zero_iff, and_comm, not_and]
              apply imp_congr_right
              rintro rfl
              rw [Option.getD_some, le_zero_iff]
          | some e =>
              by_cases hbounds : boundAddress parseIpv4 start = none ∨
                  boundAddress parseIpv4 stop = none
              · rw [imp_iff_not (not_inRange parseIpv4 (Or.inr hbounds)), not_and_or,
                  UInt32.not_le, UInt32.not_le]
                simp [hbounds]
              · -- both bounds denote the addresses they are read as
                rw [not_or] at hbounds
                obtain ⟨s', hs'⟩ := Option.ne_none_iff_exists'.mp hbounds.1
                obtain ⟨e', he'⟩ := Option.ne_none_iff_exists'.mp hbounds.2
                have hss := readBound_of_boundAddress parseIpv4 hs'
                have hee := readBound_of_boundAddress parseIpv4 he'
                rw [hs] at hss
                rw [he] at hee
                cases hss
                cases hee
                rw [inRange_iff parseIpv4 hv hs' he']
                simp [hs', he']

/-- Only an address in the range matches, and nothing else, exactly if what stands for no
address is in no range. -/
theorem ip4Between_spec_iff (ip : String) (start stop : SqlArg) :
    ((ip4Between parseIpv4 ip start stop = 1 ↔ InRange parseIpv4 ip start stop) ∧
      (ip4Between parseIpv4 ip start stop = 0 ↔ ¬ InRange parseIpv4 ip start stop)) ↔
      SentinelsOutside parseIpv4 ip start stop := by
  have hzero : ip4Between parseIpv4 ip start stop = 0 ↔
      ¬ ip4Between parseIpv4 ip start stop = 1 := by
    rw [ip4Between]
    split_ifs <;> simp
  rw [← ip4Between_imp_inRange_iff, hzero, not_iff_not, and_self]
  constructor
  · exact fun h => h.mp
  · exact fun h => ⟨h, ip4Between_of_inRange parseIpv4⟩

end Parser

/-! ## Dotted addresses -/

/-- One of the four numbers of an address: at most three digits, without leading zeros. -/
def parseOctet (s : List Char) : Option Nat :=
  if s.isEmpty || 3 < s.length || !s.all Char.isDigit then none
  else if 1 < s.length ∧ s.head? = some '0' then none
  else if Nat.ofDigitChars 10 s 0 < 256 then some (Nat.ofDigitChars 10 s 0)
  else none

/-- The number of an address in dotted form (`str::parse::<Ipv4Addr>`). -/
def parseDotted (s : List Char) : Option UInt32 :=
  match (s.splitOn '.').map parseOctet with
  | [some a, some b, some c, some d] =>
      some (UInt32.ofNat (((a * 256 + b) * 256 + c) * 256 + d))
  | _ => none

/-- What is no address lies in every range up to the last address, and bounds beyond 32
bits are cut. -/
theorem ip4Between_matches_garbage :
    ip4Between parseDotted "10.0.0.7" (.text "10.0.0.1") (.text "\"10.0.0.9\"") = 1 ∧
      (ip4Between parseDotted "garbage" (.text "0.0.0.0") (.text "255.255.255.255") = 1 ∧
        ¬ InRange parseDotted "garbage" (.text "0.0.0.0") (.text "255.255.255.255")) ∧
      (ip4Between parseDotted "0.0.0.7" (.integer 4294967296) (.text "0.0.0.9") = 1 ∧
        ¬ InRange parseDotted "0.0.0.7" (.integer 4294967296) (.text "0.0.0.9")) := by
  refine ⟨by decide, ⟨by decide, ?_⟩, by decide, ?_⟩
  · exact not_inRange parseDotted (Or.inl rfl)
  · exact not_inRange parseDotted (Or.inr (Or.inl rfl))

end WpKnowledge.SqliteExt
