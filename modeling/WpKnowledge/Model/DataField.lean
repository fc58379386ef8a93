import Mathlib.Data.List.AList

/-!
# Field values

The value types of `wp_model_core` as this crate uses them: a field has a name
and a value of one of nineteen kinds.  Only what the modelled functions read is
kept; the data type tag of a field, which nothing here inspects, is left out.

How a time, a number in hexadecimal, a network or an address is printed, and the
debug text of an object or an array, belongs to code outside the crate.  It is
the parameter {lit}`ValueText`.
-/

namespace WpKnowledge

/-- A hash map, as an association list without duplicate keys. -/
abbrev HashMap (κ ν : Type) := AList fun _ : κ => ν

/-- An IPv4 or IPv6 address. -/
inductive IpAddr where
  | v4 (octets : BitVec 32)
  | v6 (octets : BitVec 128)
deriving DecidableEq, Repr

/-- A network: an address and a prefix length. -/
structure IpNet where
  addr : IpAddr
  prefixLen : Nat
deriving DecidableEq, Repr

/-- A date and time without a zone, as its three machine words. -/
structure NaiveDateTime where
  ymdf : UInt32
  secs : UInt32
  frac : UInt32
deriving DecidableEq, Repr

/-- A number written in hexadecimal. -/
structure Hex where
  value : BitVec 128
deriving DecidableEq, Repr

/-- A 64-bit float, as its IEEE-754 bits. -/
structure F64 where
  bits : UInt64
deriving DecidableEq, Repr

/-- The bits of a float (`f64::to_bits`). -/
def F64.toBits (v : F64) : UInt64 := v.bits

mutual

/-- The value of a field. -/
inductive Value where
  | null
  | bool (v : Bool)
  | chars (v : String)
  | symbol (v : String)
  | time (v : NaiveDateTime)
  | int (v : Int64)
  | bigUint (v : Nat)
  | hex (v : Hex)
  | float (v : F64)
  | ipNet (v : IpNet)
  | ipAddr (v : IpAddr)
  | ignore
  | obj (v : List (String × DataField))
  | array (v : List DataField)
  | domain (v : String)
  | url (v : String)
  | email (v : String)
  | idCard (v : String)
  | mobilePhone (v : String)

/-- A named value. -/
inductive DataField where
  | new (name : String) (value : Value)

end

instance : Inhabited Value := ⟨.null⟩

namespace DataField

/-- The name of a field. -/
def getName : DataField → String
  | new name _ => name

/-- The value of a field. -/
def getValue : DataField → Value
  | new _ value => value

@[simp]
theorem getName_new (name : String) (value : Value) : (new name value).getName = name :=
  rfl

@[simp]
theorem getValue_new (name : String) (value : Value) : (new name value).getValue = value :=
  rfl

/-- A text field. -/
def fromChars (name text : String) : DataField := new name (.chars text)

/-- An integer field. -/
def fromInt (name : String) (v : Int64) : DataField := new name (.int v)

/-- A float field. -/
def fromFloat (name : String) (v : F64) : DataField := new name (.float v)

end DataField

/-- One row of a result. -/
abbrev RowData := List DataField

/-- The texts that code outside the crate prints for a value: `Display` of
times, hexadecimal numbers, networks and addresses, and `Debug` of objects and
arrays. -/
class ValueText where
  time : NaiveDateTime → String
  hex : Hex → String
  ipNet : IpNet → String
  ipAddr : IpAddr → String
  objDebug : List (String × DataField) → String
  arrayDebug : List DataField → String

/-- A rendering for closed examples: every text is made of the value's numbers. -/
abbrev numericText : ValueText where
  time v := toString v.ymdf ++ " " ++ toString v.secs ++ "." ++ toString v.frac
  hex v := toString v.value.toNat
  ipNet v := match v.addr with
    | .v4 a => toString a.toNat ++ "/" ++ toString v.prefixLen
    | .v6 a => toString a.toNat ++ "/" ++ toString v.prefixLen
  ipAddr v := match v with
    | .v4 a => toString a.toNat
    | .v6 a => toString a.toNat
  objDebug v := toString (v.map Prod.fst)
  arrayDebug v := toString (v.map DataField.getName)

end WpKnowledge
