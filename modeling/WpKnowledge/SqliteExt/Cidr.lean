import WpKnowledge.Foundation.AddressBlock
import WpKnowledge.SqliteExt.Address

/-!
# Networks in SQL functions

A network in an SQL function is a text of an address and the length of a prefix.  One
function compares the bits in front, two others give the first and the last address; a
text that is no network has zero for both.

Main results:

- Theorem {lit}`mem_sqlRange_iff`: what lies between the two addresses is the block of the
  written address.
- Theorem {lit}`cidr4_intervals`: a network contains what lies between its two addresses,
  and how these intervals lie to each other.
-/

namespace WpKnowledge.SqliteExt

open Foundation

/-! ## Networks -/

/-- A decimal number of 32 bits (`str::parse::<u32>`). -/
def parseU32 (s : List Char) : Option UInt32 :=
  let digits := if s.head? = some '+' then s.tail else s
  if digits.isEmpty || !digits.all Char.isDigit then none
  else if Nat.ofDigitChars 10 digits 0 < UInt32.size then
    some (UInt32.ofNat (Nat.ofDigitChars 10 digits 0))
  else none

/-- A number of 32 bits as an integer of SQL. -/
def toSql (a : UInt32) : Int64 :=
  a.toUInt64.toInt64

section Parser

variable (parseIpv4 : List Char → Option UInt32)

/-- The written address of a network, and its mask. -/
def parseCidr4 (s : String) : Option (UInt32 × UInt32) :=
  match (unquoted s.toList).splitOn '/' with
  | [ipS, pfxS] =>
      match parseIpv4 ipS, parseU32 pfxS with
      | some ip, some pfx =>
          if pfx > 32 then none
          -- a shift by all of the 32 bits is no shift
          else some (ip, if pfx = 0 then 0 else maxU32 <<< (32 - pfx))
      | _, _ => none
  | _ => none

/-- The first address of a network. -/
def cidr4Min (s : String) : Option UInt32 :=
  (parseCidr4 parseIpv4 s).map fun cidr => cidr.1 &&& cidr.2

/-- The last address of a network. -/
def cidr4Max (s : String) : Option UInt32 :=
  (parseCidr4 parseIpv4 s).map fun cidr => (cidr.1 &&& cidr.2) ||| ~~~cidr.2

/-- The SQL function of the first address. -/
def sqlCidr4Min (s : String) : Int64 :=
  ((cidr4Min parseIpv4 s).map toSql).getD 0

/-- The SQL function of the last address. -/
def sqlCidr4Max (s : String) : Int64 :=
  ((cidr4Max parseIpv4 s).map toSql).getD 0

/-- Whether an address lies in a network, as one or zero. -/
def cidr4Contains (ip cidr : String) : Int64 :=
  match parseIpv4ToU32 parseIpv4 ip with
  | none => 0
  | some ip =>
      match parseCidr4 parseIpv4 cidr with
      | none => 0
      | some (netIp, mask) =>
          let net := netIp &&& mask
          if ip &&& mask = net then 1 else 0

/-! ## Intervals -/

/-- The text is an address and the length of a prefix. -/
def IsCidr (s : String) (a : UInt32) (k : Nat) : Prop :=
  ∃ ipS pfxS pfx, (unquoted s.toList).splitOn '/' = [ipS, pfxS] ∧ parseIpv4 ipS = some a ∧
    parseU32 pfxS = some pfx ∧ pfx.toNat = k ∧ k ≤ 32

/-- The addresses that SQL finds between the first and the last one of a network. -/
def sqlRange (cidr : String) : Set UInt32 :=
  { v | sqlCidr4Min parseIpv4 cidr ≤ toSql v ∧ toSql v ≤ sqlCidr4Max parseIpv4 cidr }

end Parser

/-- Addresses are in the same order in SQL. -/
theorem toSql_le_iff {a b : UInt32} : toSql a ≤ toSql b ↔ a ≤ b := by
  have htoInt : ∀ x : UInt32, (toSql x).toInt = x.toNat := by
    intro x
    have hx := x.toNat_lt
    have hsmall : 2 * x.toUInt64.toBitVec.toNat < 2 ^ 64 := by
      rw [UInt64.toNat_toBitVec, UInt32.toNat_toUInt64]
      omega
    change x.toUInt64.toBitVec.toInt = _
    rw [BitVec.toInt_eq_toNat_of_lt hsmall, UInt64.toNat_toBitVec, UInt32.toNat_toUInt64]
  rw [Int64.le_iff_toInt_le, htoInt, htoInt, UInt32.le_iff_toNat_le]
  exact Int.ofNat_le

/-- The mask of a prefix. -/
theorem toBitVec_mask {pfx : UInt32} (h : pfx.toNat ≤ 32) :
    (if pfx = 0 then 0 else maxU32 <<< (32 - pfx) : UInt32).toBitVec = prefixMask 32 pfx.toNat := by
  have hall : maxU32.toBitVec = BitVec.allOnes 32 := by decide
  rw [prefixMask]
  by_cases hzero : pfx = 0
  · rw [if_pos hzero, hzero]
    decide
  · have hpos : 0 < pfx.toNat := by
      rw [Nat.pos_iff_ne_zero]
      exact fun hn => hzero (UInt32.toNat_inj.mp hn)
    have hle : pfx ≤ 32 := UInt32.le_iff_toNat_le.mpr h
    have hshift : (32 - pfx : UInt32).toNat % 32 = 32 - pfx.toNat := by
      rw [UInt32.toNat_sub_of_le _ _ hle]
      exact Nat.mod_eq_of_lt (by change 32 - pfx.toNat < 32; omega)
    rw [if_neg hzero, UInt32.toBitVec_shiftLeft, hall, ← hshift, BitVec.shiftLeft_eq',
      BitVec.toNat_umod]
    rfl

section Parser

variable (parseIpv4 : List Char → Option UInt32)

/-- A network is read as its address and the mask of its prefix. -/
theorem IsCidr.exists_parseCidr4 {s : String} {a : UInt32} {k : Nat}
    (h : IsCidr parseIpv4 s a k) :
    ∃ mask, parseCidr4 parseIpv4 s = some (a, mask) ∧ mask.toBitVec = prefixMask 32 k := by
  obtain ⟨ipS, pfxS, pfx, hsplit, hip, hpfx, rfl, hle⟩ := h
  have hnot : ¬ pfx > 32 := by
    rw [gt_iff_lt, UInt32.lt_iff_toNat_lt]
    exact Nat.not_lt.mpr hle
  refine ⟨_, ?_, toBitVec_mask hle⟩
  rw [parseCidr4, hsplit]
  simp only [hip, hpfx, if_neg hnot]

/-- Only networks are read. -/
theorem exists_isCidr_of_parseCidr4 {s : String} {cidr : UInt32 × UInt32}
    (h : parseCidr4 parseIpv4 s = some cidr) : ∃ a k, IsCidr parseIpv4 s a k := by
  rw [parseCidr4] at h
  split at h
  · rename_i ipS pfxS hsplit
    split at h
    · rename_i ip pfx hip hpfx
      have hpfx32 : pfx.toNat ≤ 32 := by
        by_contra hgt
        have hlt : pfx > 32 := UInt32.lt_iff_toNat_lt.mpr (Nat.not_le.mp hgt)
        rw [if_pos hlt] at h
        cases h
      exact ⟨ip, pfx.toNat, ipS, pfxS, pfx, hsplit, hip, hpfx, rfl, hpfx32⟩
    · cases h
  · cases h

/-- Between the first and the last address of a network is the block of its address. -/
theorem mem_sqlRange_iff {cidr : String} {a : UInt32} {k : Nat} (h : IsCidr parseIpv4 cidr a k)
    {v : UInt32} : v ∈ sqlRange parseIpv4 cidr ↔ v.toBitVec ∈ prefixBlock a.toBitVec k := by
  obtain ⟨mask, hcidr, hmask⟩ := h.exists_parseCidr4
  have hmin : sqlCidr4Min parseIpv4 cidr = toSql (a &&& mask) := by
    rw [sqlCidr4Min, cidr4Min, hcidr]
    rfl
  have hmax : sqlCidr4Max parseIpv4 cidr = toSql ((a &&& mask) ||| ~~~mask) := by
    rw [sqlCidr4Max, cidr4Max, hcidr]
    rfl
  rw [mem_prefixBlock_iff, sqlRange, Set.mem_ofPred_eq, hmin, hmax, toSql_le_iff, toSql_le_iff,
    ← hmask]
  exact Iff.rfl

/-- A network contains an address if it lies between its first and its last address. -/
theorem cidr4Contains_eq_one_iff (ip cidr : String) :
    cidr4Contains parseIpv4 ip cidr = 1 ↔
      ∃ v a k, parseIpv4ToU32 parseIpv4 ip = some v ∧ IsCidr parseIpv4 cidr a k ∧
        v ∈ sqlRange parseIpv4 cidr := by
  rw [cidr4Contains]
  cases hv : parseIpv4ToU32 parseIpv4 ip with
  | none => simp
  | some v =>
      cases hcidr : parseCidr4 parseIpv4 cidr with
      | none =>
          have hnot : ∀ a k, ¬ IsCidr parseIpv4 cidr a k := by
            intro a k h
            obtain ⟨mask, hsome, -⟩ := h.exists_parseCidr4
            rw [hcidr] at hsome
            cases hsome
          simp [hnot]
      | some read =>
          obtain ⟨a, k, h⟩ := exists_isCidr_of_parseCidr4 parseIpv4 hcidr
          obtain ⟨mask, hsome, hmask⟩ := h.exists_parseCidr4
          rw [hcidr] at hsome
          cases hsome
          have hsame : v &&& mask = a &&& mask ↔ v ∈ sqlRange parseIpv4 cidr := by
            rw [mem_sqlRange_iff parseIpv4 h, prefixBlock, Set.mem_ofPred_eq, ← hmask,
              ← UInt32.toBitVec_inj]
            rfl
          have hone : (if v &&& mask = a &&& mask then (1 : Int64) else 0) = 1 ↔
              v ∈ sqlRange parseIpv4 cidr := by
            rw [← hsame]
            simp
          refine hone.trans ⟨fun hmem => ⟨v, a, k, rfl, h, hmem⟩, ?_⟩
          rintro ⟨v', a', k', hv', -, hmem⟩
          cases hv'
          exact hmem

/-- A network contains the addresses between its first and its last one; there are as many
as the bits behind the prefix allow, the written one is among them, and two such intervals
are nested or disjoint. -/
theorem cidr4_intervals :
    (∀ ip cidr, cidr4Contains parseIpv4 ip cidr = 1 ↔
      ∃ v a k, parseIpv4ToU32 parseIpv4 ip = some v ∧ IsCidr parseIpv4 cidr a k ∧
        sqlCidr4Min parseIpv4 cidr ≤ toSql v ∧ toSql v ≤ sqlCidr4Max parseIpv4 cidr) ∧
    (∀ cidr a k, IsCidr parseIpv4 cidr a k →
      (sqlRange parseIpv4 cidr).ncard = 2 ^ (32 - k) ∧ a ∈ sqlRange parseIpv4 cidr) ∧
    ∀ cidr cidr' a a' k k', IsCidr parseIpv4 cidr a k → IsCidr parseIpv4 cidr' a' k' →
      sqlRange parseIpv4 cidr ⊆ sqlRange parseIpv4 cidr' ∨
        sqlRange parseIpv4 cidr' ⊆ sqlRange parseIpv4 cidr ∨
        Disjoint (sqlRange parseIpv4 cidr) (sqlRange parseIpv4 cidr') := by
  have hrange : ∀ {cidr a k}, IsCidr parseIpv4 cidr a k →
      sqlRange parseIpv4 cidr = Set.preimage UInt32.toBitVec (prefixBlock a.toBitVec k) :=
    fun h => Set.ext fun v => mem_sqlRange_iff parseIpv4 h
  refine ⟨fun ip cidr => cidr4Contains_eq_one_iff parseIpv4 ip cidr, ?_, ?_⟩
  · intro cidr a k h
    have hinjective : Function.Injective UInt32.toBitVec := fun _ _ => UInt32.toBitVec_inj.mp
    have honto : prefixBlock a.toBitVec k ⊆ Set.range UInt32.toBitVec :=
      fun b _ => ⟨UInt32.ofBitVec b, rfl⟩
    refine ⟨?_, (mem_sqlRange_iff parseIpv4 h).mpr (self_mem_prefixBlock _ _)⟩
    rw [hrange h, Set.ncard_preimage_of_injective_subset_range hinjective honto,
      ncard_prefixBlock]
  · intro cidr cidr' a a' k k' h h'
    rw [hrange h, hrange h']
    rcases prefixBlock_nested_or_disjoint a.toBitVec a'.toBitVec k k' with hsub | hsub | hdisjoint
    · exact Or.inl (Set.preimage_mono hsub)
    · exact Or.inr (Or.inl (Set.preimage_mono hsub))
    · exact Or.inr (Or.inr (hdisjoint.preimage UInt32.toBitVec))

end Parser

theorem cidr4_intervals_private :
    (sqlRange parseDotted "10.9.0.0/8").ncard = 2 ^ 24 ∧
      0x0a090000 ∈ sqlRange parseDotted "10.9.0.0/8" ∧
      cidr4Contains parseDotted "10.255.0.1" " \"10.9.0.0/8\"" = 1 := by
  have hcidr : IsCidr parseDotted "10.9.0.0/8" 0x0a090000 8 :=
    ⟨"10.9.0.0".toList, "8".toList, 8, by decide, by decide, by decide, rfl, by decide⟩
  have hcidr' : IsCidr parseDotted " \"10.9.0.0/8\"" 0x0a090000 8 :=
    ⟨"10.9.0.0".toList, "8".toList, 8, by decide, by decide, by decide, rfl, by decide⟩
  obtain ⟨hcontains, hblock, -⟩ := cidr4_intervals parseDotted
  obtain ⟨hcard, hmem⟩ := hblock _ _ _ hcidr
  refine ⟨hcard, hmem, (hcontains _ _).mpr ?_⟩
  exact ⟨0x0aff0001, _, _, by decide, hcidr', by decide, by decide⟩

end WpKnowledge.SqliteExt
