import WpKnowledge.Foundation.AddressBlock
import WpKnowledge.Model.DataField
import WpKnowledge.Vel.Parse

/-!
# Intranet networks

Which addresses belong to the intranet: networks that are built in, and networks of a
configuration, kept apart by the family they are written in.  An IPv4 address that comes
mapped into IPv6 is taken back to IPv4 before it is looked for.  Networks are those of a
library; what it reads and what they contain are parameters.

Main results:

- Theorem {lit}`contains_iff`: what a set of networks finds.
- Theorem {lit}`isIntranet_spec_iff`: the decision is the one of the networks but for an
  IPv4 address that only an IPv6 network covers.
-/

namespace WpKnowledge.Intranet

/-! ## Networks -/

/-- A network of one of the two families. -/
inductive IpNet (N4 N6 : Type) where
  | v4 (net : N4)
  | v6 (net : N6)
deriving DecidableEq, Repr

/-- How the networks of a configuration are merged with the ones that are built in. -/
inductive IntranetMergeMode where
  | add
  | replace
deriving DecidableEq, Repr

/-- The configuration of the intranet. -/
structure IntranetNetsConf where
  enabled : Bool
  mode : IntranetMergeMode
  nets : List String
deriving DecidableEq, Repr

/-- The networks that are built in. -/
def defaultIntranetNets : List String :=
  ["10.0.0.0/8", "172.16.0.0/12", "192.168.0.0/16", "127.0.0.0/8", "::1/128", "fc00::/7"]

/-- The networks, by family. -/
structure IntranetNetsSet (N4 N6 : Type) where
  v4Nets : List N4
  v6Nets : List N6

/-- The IPv4 address that an IPv6 address is the mapped form of. -/
def toIpv4Mapped (a : BitVec 128) : Option (BitVec 32) :=
  if a >>> 32 = 0xffff then some (a.setWidth 32) else none

section Library

variable {N4 N6 : Type} (fromStr : String → Option (IpNet N4 N6))
  (contains4 : N4 → BitVec 32 → Bool) (contains6 : N6 → BitVec 128 → Bool)

/-- The networks of both families, apart. -/
def splitNets : List (IpNet N4 N6) → List N4 × List N6
  | [] => ([], [])
  | .v4 net :: nets => (net :: (splitNets nets).1, (splitNets nets).2)
  | .v6 net :: nets => ((splitNets nets).1, net :: (splitNets nets).2)

namespace IntranetNetsSet

/-- The set of the networks that are built in. -/
def builtin : IntranetNetsSet N4 N6 :=
  let nets := splitNets (defaultIntranetNets.filterMap fromStr)
  { v4Nets := nets.1, v6Nets := nets.2 }

/-- The set with the networks of a configuration; texts that are no networks are left out. -/
def merge (set : IntranetNetsSet N4 N6) (conf : IntranetNetsConf) : IntranetNetsSet N4 N6 :=
  let nets := splitNets
    (conf.nets.filterMap fun c => fromStr (String.ofList (Vel.trim c.toList)))
  match conf.mode with
  | .add => { v4Nets := set.v4Nets ++ nets.1, v6Nets := set.v6Nets ++ nets.2 }
  | .replace => { v4Nets := nets.1, v6Nets := nets.2 }

/-- Whether a network of the family of the address contains it. -/
def contains (set : IntranetNetsSet N4 N6) : IpAddr → Bool
  | .v4 a => set.v4Nets.any fun net => contains4 net a
  | .v6 a => set.v6Nets.any fun net => contains6 net a

end IntranetNetsSet

/-- The set that decisions are made with. -/
def intranetNetsSet (conf : Option IntranetNetsConf) : IntranetNetsSet N4 N6 :=
  match conf with
  | some conf =>
      if conf.enabled then (IntranetNetsSet.builtin fromStr).merge fromStr conf
      else IntranetNetsSet.builtin fromStr
  | none => IntranetNetsSet.builtin fromStr

/-- An address, with a mapped one taken back to IPv4. -/
def unmapped : IpAddr → IpAddr
  | .v4 a => .v4 a
  | .v6 a => ((toIpv4Mapped a).map IpAddr.v4).getD (.v6 a)

/-- Whether an address belongs to the intranet. -/
def isIntranet (conf : Option IntranetNetsConf) (ip : IpAddr) : Bool :=
  (intranetNetsSet fromStr conf).contains contains4 contains6 (unmapped ip)

/-! ## The networks that count -/

/-- The networks of the built-in list and of a configuration that count. -/
def effectiveNets (conf : Option IntranetNetsConf) : List (IpNet N4 N6) :=
  let builtin := defaultIntranetNets.filterMap fromStr
  match conf with
  | some conf =>
      let nets := conf.nets.filterMap fun c => fromStr (String.ofList (Vel.trim c.toList))
      if conf.enabled then
        match conf.mode with
        | .add => builtin ++ nets
        | .replace => nets
      else builtin
  | none => builtin

/-- Whether a network contains an address, which is one of its family. -/
def IpNet.contains : IpNet N4 N6 → IpAddr → Bool
  | .v4 net, .v4 a => contains4 net a
  | .v6 net, .v6 a => contains6 net a
  | _, _ => false

/-- Some network that counts contains the address, in IPv4 or mapped into IPv6. -/
def InNets (conf : Option IntranetNetsConf) (ip : IpAddr) : Prop :=
  ∃ net ∈ effectiveNets fromStr conf, ∃ ip', unmapped ip' = unmapped ip ∧
    net.contains contains4 contains6 ip' = true

/-- The form of an IPv4 address in IPv6. -/
def mappedForm (a : BitVec 32) : BitVec 128 :=
  (0xffff : BitVec 96) ++ a

/-- The address is one of IPv4, and only the mapped form is in the networks. -/
def OnlyMappedInNets (conf : Option IntranetNetsConf) (ip : IpAddr) : Prop :=
  ∃ a, unmapped ip = .v4 a ∧
    (∀ net, .v4 net ∈ effectiveNets fromStr conf → contains4 net a = false) ∧
    ∃ net, .v6 net ∈ effectiveNets fromStr conf ∧ contains6 net (mappedForm a) = true

/-! ## Mapped addresses -/

theorem toIpv4Mapped_eq_some_iff {b : BitVec 128} {a : BitVec 32} :
    toIpv4Mapped b = some a ↔ b = mappedForm a := by
  have happend : (mappedForm a).toNat = 0xffff * 2 ^ 32 + a.toNat := by
    rw [mappedForm, BitVec.toNat_append, ← Nat.shiftLeft_add_eq_or_of_lt a.isLt, Nat.shiftLeft_eq]
    rfl
  have hhigh : b >>> 32 = 0xffff ↔ b.toNat / 2 ^ 32 = 0xffff := by
    rw [← BitVec.toNat_inj, BitVec.toNat_ushiftRight, Nat.shiftRight_eq_div_pow]
    rfl
  have hlow : b.setWidth 32 = a ↔ b.toNat % 2 ^ 32 = a.toNat := by
    rw [← BitVec.toNat_inj, BitVec.toNat_setWidth]
  have hsame : b = mappedForm a ↔ b.toNat = 0xffff * 2 ^ 32 + a.toNat := by
    rw [← BitVec.toNat_inj, happend]
  have ha := a.isLt
  rw [toIpv4Mapped, hsame]
  by_cases h : b >>> 32 = 0xffff
  · rw [if_pos h, Option.some_inj, hlow]
    rw [hhigh] at h
    omega
  · rw [if_neg h]
    rw [hhigh] at h
    constructor
    · rintro ⟨⟩
    · omega

/-- The addresses that are an IPv4 address. -/
theorem unmapped_eq_v4_iff {ip : IpAddr} {a : BitVec 32} :
    unmapped ip = .v4 a ↔ ip = .v4 a ∨ ip = .v6 (mappedForm a) := by
  cases ip with
  | v4 a' => simp [unmapped]
  | v6 b =>
      have hb := @toIpv4Mapped_eq_some_iff b a
      rw [unmapped]
      cases hmapped : toIpv4Mapped b with
      | none => simp [← hb, hmapped]
      | some a' => simp [← hb, hmapped]

/-- An IPv6 address that is not mapped is only itself. -/
theorem unmapped_eq_v6_iff {ip : IpAddr} {b : BitVec 128} :
    unmapped ip = .v6 b ↔ ip = .v6 b ∧ toIpv4Mapped b = none := by
  cases ip with
  | v4 a => simp [unmapped]
  | v6 b' =>
      rw [unmapped]
      cases hmapped : toIpv4Mapped b' with
      | none =>
          constructor
          · intro h
            cases h
            exact ⟨rfl, hmapped⟩
          · rintro ⟨h, -⟩
            cases h
            rfl
      | some a =>
          simp only [Option.map_some, Option.getD_some, reduceCtorEq, false_iff, not_and]
          rintro h
          cases h
          simp [hmapped]

/-! ## Sets of networks -/

theorem mem_splitNets_fst {net : N4} {nets : List (IpNet N4 N6)} :
    net ∈ (splitNets nets).1 ↔ .v4 net ∈ nets := by
  induction nets with
  | nil => simp [splitNets]
  | cons n nets ih => cases n <;> simp [splitNets, ih]

theorem mem_splitNets_snd {net : N6} {nets : List (IpNet N4 N6)} :
    net ∈ (splitNets nets).2 ↔ .v6 net ∈ nets := by
  induction nets with
  | nil => simp [splitNets]
  | cons n nets ih => cases n <;> simp [splitNets, ih]

/-- The set consists of the networks that count. -/
theorem intranetNetsSet_eq (conf : Option IntranetNetsConf) :
    (intranetNetsSet fromStr conf).v4Nets = (splitNets (effectiveNets fromStr conf)).1 ∧
      (intranetNetsSet fromStr conf).v6Nets = (splitNets (effectiveNets fromStr conf)).2 := by
  have happend : ∀ nets nets' : List (IpNet N4 N6),
      splitNets (nets ++ nets') =
        ((splitNets nets).1 ++ (splitNets nets').1, (splitNets nets).2 ++ (splitNets nets').2) := by
    intro nets nets'
    induction nets with
    | nil => rfl
    | cons net nets ih => cases net <;> simp [splitNets, ih]
  cases conf with
  | none => exact ⟨rfl, rfl⟩
  | some conf =>
      rw [intranetNetsSet, effectiveNets]
      cases conf.enabled with
      | false => exact ⟨rfl, rfl⟩
      | true =>
          rw [if_pos rfl, IntranetNetsSet.merge]
          cases conf.mode with
          | add =>
              simp only [if_true, happend]
              exact ⟨rfl, rfl⟩
          | replace => exact ⟨rfl, rfl⟩

/-- Only networks of IPv4 contain an IPv4 address. -/
theorem exists_contains_v4_iff {nets : List (IpNet N4 N6)} {a : BitVec 32} :
    (∃ net ∈ nets, net.contains contains4 contains6 (.v4 a) = true) ↔
      ∃ net, .v4 net ∈ nets ∧ contains4 net a = true := by
  constructor
  · rintro ⟨net | net, hnet, hcontains⟩
    · exact ⟨net, hnet, hcontains⟩
    · cases hcontains
  · rintro ⟨net, hnet, hcontains⟩
    exact ⟨.v4 net, hnet, hcontains⟩

/-- Only networks of IPv6 contain an IPv6 address. -/
theorem exists_contains_v6_iff {nets : List (IpNet N4 N6)} {b : BitVec 128} :
    (∃ net ∈ nets, net.contains contains4 contains6 (.v6 b) = true) ↔
      ∃ net, .v6 net ∈ nets ∧ contains6 net b = true := by
  constructor
  · rintro ⟨net | net, hnet, hcontains⟩
    · cases hcontains
    · exact ⟨net, hnet, hcontains⟩
  · rintro ⟨net, hnet, hcontains⟩
    exact ⟨.v6 net, hnet, hcontains⟩

/-- A set of networks finds an address if a network that counts contains it. -/
theorem contains_iff (conf : Option IntranetNetsConf) (ip : IpAddr) :
    (intranetNetsSet fromStr conf).contains contains4 contains6 ip = true ↔
      ∃ net ∈ effectiveNets fromStr conf, net.contains contains4 contains6 ip = true := by
  obtain ⟨hv4, hv6⟩ := intranetNetsSet_eq fromStr conf
  cases ip with
  | v4 a =>
      rw [exists_contains_v4_iff, IntranetNetsSet.contains, hv4, List.any_eq_true]
      simp only [mem_splitNets_fst]
  | v6 b =>
      rw [exists_contains_v6_iff, IntranetNetsSet.contains, hv6, List.any_eq_true]
      simp only [mem_splitNets_snd]

/-- The decision is the one of the networks exactly if the address is not one of IPv4 that
only a network of IPv6 covers. -/
theorem isIntranet_spec_iff (conf : Option IntranetNetsConf) (ip : IpAddr) :
    (isIntranet fromStr contains4 contains6 conf ip = true ↔
      InNets fromStr contains4 contains6 conf ip) ↔
      ¬ OnlyMappedInNets fromStr contains4 contains6 conf ip := by
  rw [isIntranet, contains_iff, InNets, OnlyMappedInNets]
  cases hip : unmapped ip with
  | v6 b =>
      have hself : ∀ ip', unmapped ip' = .v6 b ↔ ip' = .v6 b := by
        intro ip'
        rw [unmapped_eq_v6_iff, and_iff_left (unmapped_eq_v6_iff.mp hip).2]
      simp [hself]
  | v4 a =>
      -- in IPv4, and mapped into IPv6
      have hforms : (∃ net ∈ effectiveNets fromStr conf, ∃ ip', unmapped ip' = .v4 a ∧
          net.contains contains4 contains6 ip' = true) ↔
          (∃ net ∈ effectiveNets fromStr conf,
            net.contains contains4 contains6 (.v4 a) = true) ∨
          ∃ net ∈ effectiveNets fromStr conf,
            net.contains contains4 contains6 (.v6 (mappedForm a)) = true := by
        simp only [unmapped_eq_v4_iff, or_and_right, exists_or, exists_eq_left, and_or_left]
      have honly : (∃ a', IpAddr.v4 a = .v4 a' ∧
          (∀ net, .v4 net ∈ effectiveNets fromStr conf → contains4 net a' = false) ∧
          ∃ net, .v6 net ∈ effectiveNets fromStr conf ∧ contains6 net (mappedForm a') = true) ↔
          (¬ ∃ net, .v4 net ∈ effectiveNets fromStr conf ∧ contains4 net a = true) ∧
          ∃ net, .v6 net ∈ effectiveNets fromStr conf ∧ contains6 net (mappedForm a) = true := by
        constructor
        · rintro ⟨a', ha, hnone, hsome⟩
          cases ha
          refine ⟨?_, hsome⟩
          rintro ⟨net, hnet, hcontains⟩
          rw [hnone net hnet] at hcontains
          cases hcontains
        · rintro ⟨hnone, hsome⟩
          refine ⟨a, rfl, fun net hnet => ?_, hsome⟩
          rw [Bool.eq_false_iff]
          exact fun hcontains => hnone ⟨net, hnet, hcontains⟩
      rw [hforms, honly, exists_contains_v4_iff, exists_contains_v6_iff, iff_self_or,
        not_and', not_not]

end Library

/-! ## Networks of a prefix -/

/-- A network of addresses of a width: an address and the length of a prefix. -/
structure PrefixNet (w : Nat) where
  addr : BitVec w
  prefixLen : Nat
deriving DecidableEq, Repr

/-- Whether an address has the prefix of a network. -/
def PrefixNet.contains {w : Nat} (net : PrefixNet w) (a : BitVec w) : Bool :=
  a &&& Foundation.prefixMask w net.prefixLen = net.addr &&& Foundation.prefixMask w net.prefixLen

/-- Some texts of networks. -/
def readNet (text : String) : Option (IpNet (PrefixNet 32) (PrefixNet 128)) :=
  [("10.0.0.0/8", .v4 ⟨0x0a000000, 8⟩), ("172.16.0.0/12", .v4 ⟨0xac100000, 12⟩),
    ("192.168.0.0/16", .v4 ⟨0xc0a80000, 16⟩), ("127.0.0.0/8", .v4 ⟨0x7f000000, 8⟩),
    ("::1/128", .v6 ⟨1, 128⟩), ("fc00::/7", .v6 ⟨0xfc00 <<< 112, 7⟩),
    ("::ffff:172.32.0.0/112", .v6 ⟨0xffffac200000, 112⟩)].lookup text

/-- A mapped address is not found in the network that it is written in. -/
theorem isIntranet_mapped_net :
    let conf : IntranetNetsConf := ⟨true, .add, ["::ffff:172.32.0.0/112"]⟩
    isIntranet readNet PrefixNet.contains PrefixNet.contains (some conf)
        (.v6 0xffffac200001) = false ∧
      InNets readNet PrefixNet.contains PrefixNet.contains (some conf) (.v6 0xffffac200001) := by
  refine ⟨by decide, .v6 ⟨0xffffac200000, 112⟩, by decide, .v6 0xffffac200001, rfl, by decide⟩

end WpKnowledge.Intranet
