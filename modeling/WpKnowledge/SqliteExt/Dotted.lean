import WpKnowledge.Foundation.Numeral
import WpKnowledge.SqliteExt.Cidr
import WpKnowledge.SqliteExt.TrimQuotes
import WpKnowledge.Vel.RoundTrip

/-!
# Addresses as texts and as numbers

A table keeps addresses as numbers: one SQL function reads a text of four decimal numbers,
another writes such a text.  Neither has an error for a text that it cannot read: it has
the number of the first address.  The zone table is filled through the first function, and
is searched in two ways.

Main results:

- Theorem {lit}`parseDotted_eq_some_iff`: an address is read from one text only, the one
  that is written for it.
- Theorem {lit}`ip4_text_int_inverse`: each of the two functions turns the other around.
- Theorem {lit}`zone_row_found_iff`: which rows of the zone table the two ways find.
-/

namespace WpKnowledge.SqliteExt

open Vel Foundation

/-! ## Dotted texts -/

/-- The four numbers of an address. -/
def octets (v : UInt32) : List Nat :=
  [v.toNat / 16777216, v.toNat / 65536 % 256, v.toNat / 256 % 256, v.toNat % 256]

/-- What an address is written as (`Ipv4Addr::to_string`). -/
def dotted (v : UInt32) : List Char :=
  ['.'].intercalate ((octets v).map (Nat.toDigits 10))

/-- One of the four numbers is read from its numeral only. -/
theorem parseOctet_eq_some_iff {s : List Char} {n : Nat} :
    parseOctet s = some n ↔ n < 256 ∧ s = Nat.toDigits 10 n := by
  rw [← numeral_and_value_iff, parseOctet]
  constructor
  · intro h
    split_ifs at h with hform hzero hlt
    cases h
    simp only [Bool.or_eq_true, List.isEmpty_iff, decide_eq_true_eq, Bool.not_eq_true',
      not_or, Bool.not_eq_false] at hform
    refine ⟨hlt, ⟨hform.1.1, List.all_eq_true.mp hform.2, fun hlen hhead => hzero ⟨hlen, hhead⟩⟩, rfl⟩
  · rintro ⟨hlt, hnumeral, rfl⟩
    have hlen : s.length ≤ 3 := by
      rw [← hnumeral.toDigits_ofDigitChars, Nat.length_toDigits_le_iff (by decide) (by decide)]
      omega
    have hform : ¬ ((s.isEmpty || decide (3 < s.length) || !s.all Char.isDigit) = true) := by
      simp only [Bool.or_eq_true, List.isEmpty_iff, decide_eq_true_eq, Bool.not_eq_true', not_or,
        Bool.not_eq_false]
      exact ⟨⟨hnumeral.ne_nil, Nat.not_lt.mpr hlen⟩, List.all_eq_true.mpr hnumeral.digits⟩
    rw [if_neg hform, if_neg fun hzero => hnumeral.head hzero.1 hzero.2, if_pos hlt]

/-- Numbers are read from their numerals only. -/
theorem map_parseOctet_eq_iff {ss : List (List Char)} {ns : List Nat} :
    ss.map parseOctet = ns.map some ↔ (∀ n ∈ ns, n < 256) ∧ ss = ns.map (Nat.toDigits 10) := by
  induction ns generalizing ss with
  | nil => simp
  | cons n ns ih =>
      rw [List.map_cons, List.map_cons, List.map_eq_cons_iff]
      constructor
      · rintro ⟨s, rest, rfl, hs, hrest⟩
        obtain ⟨hlt, rfl⟩ := parseOctet_eq_some_iff.mp hs
        obtain ⟨hall, rfl⟩ := ih.mp hrest
        exact ⟨List.forall_mem_cons.mpr ⟨hlt, hall⟩, rfl⟩
      · rintro ⟨hall, rfl⟩
        obtain ⟨hlt, hrest⟩ := List.forall_mem_cons.mp hall
        exact ⟨_, _, rfl, parseOctet_eq_some_iff.mpr ⟨hlt, rfl⟩, ih.mpr ⟨hrest, rfl⟩⟩

/-- The four numbers of an address are numbers of eight bits. -/
theorem lt_of_mem_octets {v : UInt32} {n : Nat} (h : n ∈ octets v) : n < 256 := by
  have hv := v.toNat_lt
  simp only [octets, List.mem_cons, List.not_mem_nil, or_false] at h
  omega

/-- The address of four numbers has these four. -/
theorem octets_ofNat {a b c d : Nat} (ha : a < 256) (hb : b < 256) (hc : c < 256) (hd : d < 256) :
    octets (UInt32.ofNat (((a * 256 + b) * 256 + c) * 256 + d)) = [a, b, c, d] := by
  have hv : (UInt32.ofNat (((a * 256 + b) * 256 + c) * 256 + d)).toNat =
      ((a * 256 + b) * 256 + c) * 256 + d := by
    rw [UInt32.toNat_ofNat']
    exact Nat.mod_eq_of_lt (by omega)
  have hfirst : (((a * 256 + b) * 256 + c) * 256 + d) / 16777216 = a := by omega
  have hsecond : (((a * 256 + b) * 256 + c) * 256 + d) / 65536 % 256 = b := by omega
  have hthird : (((a * 256 + b) * 256 + c) * 256 + d) / 256 % 256 = c := by omega
  have hfourth : (((a * 256 + b) * 256 + c) * 256 + d) % 256 = d := by omega
  rw [octets, hv, hfirst, hsecond, hthird, hfourth]

/-- An address is the one of its four numbers. -/
theorem ofNat_octets (v : UInt32) :
    UInt32.ofNat (((v.toNat / 16777216 * 256 + v.toNat / 65536 % 256) * 256 +
      v.toNat / 256 % 256) * 256 + v.toNat % 256) = v := by
  have hv : ((v.toNat / 16777216 * 256 + v.toNat / 65536 % 256) * 256 + v.toNat / 256 % 256) * 256 +
      v.toNat % 256 = v.toNat := by
    omega
  rw [hv, UInt32.ofNat_toNat]

/-- No numeral has a dot in it. -/
theorem dot_notMem_toDigits (n : Nat) : '.' ∉ Nat.toDigits 10 n := by
  intro hmem
  have hdigit := Nat.isDigit_of_mem_toDigits (by decide) (by decide) hmem
  exact absurd hdigit (by decide)

/-- An address is read from one text only, the one that is written for it. -/
theorem parseDotted_eq_some_iff {s : List Char} {v : UInt32} :
    parseDotted s = some v ↔ s = dotted v := by
  constructor
  · intro h
    unfold parseDotted at h
    split at h
    · rename_i a b c d hsplit
      cases h
      have hnumerals : (s.splitOn '.').map parseOctet = [a, b, c, d].map some := hsplit
      obtain ⟨hlt, hpieces⟩ := map_parseOctet_eq_iff.mp hnumerals
      simp only [List.forall_mem_cons] at hlt
      rw [dotted, octets_ofNat hlt.1 hlt.2.1 hlt.2.2.1 hlt.2.2.2.1, ← hpieces,
        List.intercalate_splitOn]
    · cases h
  · rintro rfl
    have hpieces : (dotted v).splitOn '.' = (octets v).map (Nat.toDigits 10) := by
      refine List.splitOn_intercalate '.' ?_ (by simp [octets])
      intro piece hpiece
      obtain ⟨n, -, rfl⟩ := List.mem_map.mp hpiece
      exact dot_notMem_toDigits n
    have hread : ((octets v).map (Nat.toDigits 10)).map parseOctet = (octets v).map some :=
      map_parseOctet_eq_iff.mpr ⟨fun n hn => lt_of_mem_octets hn, rfl⟩
    rw [parseDotted, hpieces, hread]
    exact congrArg some (ofNat_octets v)

/-- A written address has only digits and dots. -/
theorem isDigit_or_eq_dot {v : UInt32} {c : Char} (h : c ∈ dotted v) :
    c.isDigit = true ∨ c = '.' := by
  have hdigit : ∀ n, c ∈ Nat.toDigits 10 n → c.isDigit = true :=
    fun n hc => Nat.isDigit_of_mem_toDigits (by decide) (by decide) hc
  simp only [dotted, octets, List.map_cons, List.map_nil, List.intercalate,
    List.intersperse, List.flatten_cons, List.flatten_nil, List.mem_append, List.mem_singleton,
    List.not_mem_nil, or_false] at h
  rcases h with h | h | h | h | h | h | h
  · exact .inl (hdigit _ h)
  · exact .inr h
  · exact .inl (hdigit _ h)
  · exact .inr h
  · exact .inl (hdigit _ h)
  · exact .inr h
  · exact .inl (hdigit _ h)

/-- Nothing is taken off a written address. -/
theorem unquoted_dotted (v : UInt32) : unquoted (dotted v) = dotted v := by
  have hrange : ∀ c ∈ dotted v, 46 ≤ c.toNat ∧ c.toNat < 58 := by
    intro c hc
    rcases isDigit_or_eq_dot hc with hdigit | rfl
    · have hdigits := toNat_of_isDigit hdigit
      omega
    · decide
  have hspace : ∀ c ∈ dotted v, isWhitespace c = false := by
    intro c hc
    have hc' := hrange c hc
    exact isWhitespace_eq_false (by omega) (by omega)
  have hquote : ∀ c ∈ dotted v, (c == '"') = false := by
    intro c hc
    rw [beq_eq_false_iff_ne]
    rintro rfl
    exact absurd (hrange _ hc) (by decide)
  rw [unquoted, trim,
    trimBy_eq_self (fun c hc => hspace c (List.mem_of_mem_head? hc))
      (fun c hc => hspace c (List.mem_of_mem_getLast? hc)),
    trimBy_eq_self (fun c hc => hquote c (List.mem_of_mem_head? hc))
      (fun c hc => hquote c (List.mem_of_mem_getLast? hc))]

/-! ## The two functions -/

/-- The SQL function from a text to a number: an argument that is no text is an error. -/
def ip4Int : SqlArg → Option Int64
  | .text s => some (((parseIpv4ToU32 parseDotted s).map toSql).getD 0)
  | .integer _ => none
  | .other => none

/-- The SQL function from a number to a text; the number may be written in a text. -/
def ip4Text : SqlArg → Option String
  | .integer i => some (String.ofList (dotted i.toUInt64.toUInt32))
  | .text s => some (String.ofList (dotted (((parseU64 (trim s.toList)).map (·.toUInt32)).getD 0)))
  | .other => none

/-- A text is read as an address if it is the written address, up to white space and
quotes. -/
theorem parseIpv4ToU32_eq_some_iff {s : String} {v : UInt32} :
    parseIpv4ToU32 parseDotted s = some v ↔ unquoted s.toList = dotted v :=
  parseDotted_eq_some_iff

/-- A written address is read as this address. -/
theorem ip4Int_dotted (v : UInt32) : ip4Int (.text (String.ofList (dotted v))) = some (toSql v) := by
  have hread : parseIpv4ToU32 parseDotted (String.ofList (dotted v)) = some v := by
    rw [parseIpv4ToU32_eq_some_iff, String.toList_ofList, unquoted_dotted]
  rw [ip4Int, hread]
  rfl

/-- The number of an address is not negative. -/
theorem toInt_toSql (v : UInt32) : (toSql v).toInt = v.toNat := by
  have hv := v.toNat_lt
  have hsmall : 2 * v.toUInt64.toBitVec.toNat < 2 ^ 64 := by
    rw [UInt64.toNat_toBitVec, UInt32.toNat_toUInt64]
    omega
  change v.toUInt64.toBitVec.toInt = _
  rw [BitVec.toInt_eq_toNat_of_lt hsmall, UInt64.toNat_toBitVec, UInt32.toNat_toUInt64]

/-- The number of an address is cut to this address. -/
theorem toUInt32_toSql (v : UInt32) : (toSql v).toUInt64.toUInt32 = v := by
  change v.toUInt64.toUInt32 = v
  exact UInt32.toUInt32_toUInt64 v

/-- What is cut off is a multiple of 2 ^ 32. -/
theorem toInt_toSql_toUInt32 (i : Int64) :
    (toSql i.toUInt64.toUInt32).toInt = i.toInt % 4294967296 := by
  rw [toInt_toSql, UInt64.toNat_toUInt32]
  change ((i.toBitVec.toNat % 2 ^ 32 : Nat) : Int) = i.toBitVec.toInt % 4294967296
  rw [BitVec.toInt_eq_toNat_cond]
  split_ifs <;> omega

/-- Exactly the numbers of addresses are not changed by the cut. -/
theorem toSql_toUInt32_eq_iff {i : Int64} :
    toSql i.toUInt64.toUInt32 = i ↔ 0 ≤ i ∧ i ≤ 0xffffffff := by
  have hcut := toInt_toSql_toUInt32 i
  have hzero : (0 : Int64).toInt = 0 := rfl
  have hmax : (0xffffffff : Int64).toInt = 4294967295 := rfl
  rw [Int64.le_iff_toInt_le, Int64.le_iff_toInt_le, hzero, hmax]
  constructor
  · intro h
    rw [h] at hcut
    omega
  · intro h
    apply Int64.toInt_inj.mp
    omega

/-- **The two functions turn each other around**: a number comes back up to a multiple of
2 ^ 32, exactly if it is the number of an address; a text that is read as an address comes
back without white space and quotes, and any other one as the first address. -/
theorem ip4_text_int_inverse :
    (∀ i : Int64, ∃ j, (ip4Text (.integer i)).bind (fun s => ip4Int (.text s)) = some j ∧
      j.toInt = i.toInt % 4294967296 ∧ (j = i ↔ 0 ≤ i ∧ i ≤ 0xffffffff)) ∧
    ∀ s : String, ∃ t : String, (ip4Int (.text s)).bind (fun i => ip4Text (.integer i)) = some t ∧
      ((∃ v, parseIpv4ToU32 parseDotted s = some v) ∧ t.toList = unquoted s.toList ∨
        t = "0.0.0.0" ∧ parseIpv4ToU32 parseDotted s = none) := by
  refine ⟨fun i => ⟨toSql i.toUInt64.toUInt32, ?_, toInt_toSql_toUInt32 i, toSql_toUInt32_eq_iff⟩,
    fun s => ?_⟩
  · rw [ip4Text, Option.bind_some, ip4Int_dotted]
  · cases hread : parseIpv4ToU32 parseDotted s with
    | none =>
        refine ⟨"0.0.0.0", ?_, .inr ⟨rfl, rfl⟩⟩
        rw [ip4Int, hread, Option.bind_some]
        decide
    | some v =>
        refine ⟨String.ofList (dotted v), ?_, .inl ⟨⟨v, rfl⟩, ?_⟩⟩
        · rw [ip4Int, hread, Option.bind_some, Option.map_some, Option.getD_some, ip4Text,
            toUInt32_toSql]
        · rw [String.toList_ofList, parseIpv4ToU32_eq_some_iff.mp hread]

/-! ## The zone table -/

/-- A row of the zone table. -/
structure ZoneRow where
  startIpInt : Int64
  endIpInt : Int64
  zone : String
deriving DecidableEq, Repr

/-- The row that three cells of a record are inserted as. -/
def zoneRow (start stop zone : String) : Option ZoneRow := do
  let startIpInt ← ip4Int (.text (← trimQuotes start))
  let endIpInt ← ip4Int (.text (← trimQuotes stop))
  return { startIpInt, endIpInt, zone := ← trimQuotes zone }

/-- A row is found by the function on ranges. -/
def ZoneRow.FoundBetween (row : ZoneRow) (ip : String) : Prop :=
  ip4Between parseDotted ip (.integer row.startIpInt) (.integer row.endIpInt) = 1

/-- A row is found by comparing the numbers. -/
def ZoneRow.FoundByOrder (row : ZoneRow) (ip : String) : Prop :=
  ∃ i, ip4Int (.text ip) = some i ∧ row.startIpInt ≤ i ∧ i ≤ row.endIpInt

/-- The address that a cell stands for; one that cannot be read stands for the first one. -/
def cellAddress (cell : String) : UInt32 :=
  ((trimQuotes cell).bind (parseIpv4ToU32 parseDotted)).getD 0

/-- The number that a cell is inserted as. -/
theorem exists_ip4Int_trimQuotes (cell : String) :
    ∃ s, trimQuotes cell = some s ∧ ip4Int (.text s) = some (toSql (cellAddress cell)) := by
  obtain ⟨out, hout⟩ := exists_trimTrimmed (trim cell.toList)
  have hs : trimQuotes cell = some (String.ofList out) := by
    rw [trimQuotes, hout, Option.map_some]
  refine ⟨String.ofList out, hs, ?_⟩
  rw [ip4Int, cellAddress, hs, Option.bind_some]
  cases parseIpv4ToU32 parseDotted (String.ofList out) with
  | none => rfl
  | some v => rfl

/-- The numbers of addresses are compared as the addresses, and cut to them. -/
theorem ZoneRow.foundBetween_iff {row : ZoneRow} {first last : UInt32}
    (hfirst : row.startIpInt = toSql first) (hlast : row.endIpInt = toSql last) (ip : String) :
    row.FoundBetween ip ↔ first ≤ (parseIpv4ToU32 parseDotted ip).getD maxU32 ∧
      (parseIpv4ToU32 parseDotted ip).getD maxU32 ≤ last := by
  rw [FoundBetween, ip4Between_eq_one_iff, hfirst, hlast, readBound, readBound, toUInt32_toSql,
    toUInt32_toSql, Option.getD_some, Option.getD_some]

theorem ZoneRow.foundByOrder_iff {row : ZoneRow} {first last : UInt32}
    (hfirst : row.startIpInt = toSql first) (hlast : row.endIpInt = toSql last) (ip : String) :
    row.FoundByOrder ip ↔ first ≤ (parseIpv4ToU32 parseDotted ip).getD 0 ∧
      (parseIpv4ToU32 parseDotted ip).getD 0 ≤ last := by
  have hnumber : ip4Int (.text ip) = some (toSql ((parseIpv4ToU32 parseDotted ip).getD 0)) := by
    rw [ip4Int]
    cases parseIpv4ToU32 parseDotted ip with
    | none => rfl
    | some v => rfl
  rw [FoundByOrder, hnumber, hfirst, hlast]
  simp only [Option.some.injEq, exists_eq_left', toSql_le_iff]

/-- **A zone is found** by both queries exactly for the addresses between the ones its cells
stand for.  The two queries differ only on a text that is no address: one takes it for the
last address and the other for the first. -/
theorem zone_row_found_iff (start stop zone : String) :
    ∃ row, zoneRow start stop zone = some row ∧
      (∀ ip v, parseIpv4ToU32 parseDotted ip = some v →
        (row.FoundBetween ip ↔ cellAddress start ≤ v ∧ v ≤ cellAddress stop) ∧
        (row.FoundByOrder ip ↔ cellAddress start ≤ v ∧ v ≤ cellAddress stop)) ∧
      ∀ ip, parseIpv4ToU32 parseDotted ip = none →
        (row.FoundBetween ip ↔ cellAddress stop = maxU32) ∧
        (row.FoundByOrder ip ↔ cellAddress start = 0) := by
  obtain ⟨startText, hstart, hstartInt⟩ := exists_ip4Int_trimQuotes start
  obtain ⟨stopText, hstop, hstopInt⟩ := exists_ip4Int_trimQuotes stop
  obtain ⟨zoneText, hzone, -⟩ := exists_ip4Int_trimQuotes zone
  refine ⟨⟨toSql (cellAddress start), toSql (cellAddress stop), zoneText⟩, ?_, ?_, ?_⟩
  · simp [zoneRow, hstart, hstartInt, hstop, hstopInt, hzone]
  · intro ip v hv
    constructor
    · rw [ZoneRow.foundBetween_iff rfl rfl, hv, Option.getD_some]
    · rw [ZoneRow.foundByOrder_iff rfl rfl, hv, Option.getD_some]
  · intro ip hnone
    constructor
    · rw [ZoneRow.foundBetween_iff rfl rfl, hnone, Option.getD_none, maxU32_le_iff,
        and_iff_right (le_maxU32 _)]
    · rw [ZoneRow.foundByOrder_iff rfl rfl, hnone, Option.getD_none, le_zero_iff,
        and_iff_left (UInt32.zero_le)]

end WpKnowledge.SqliteExt
