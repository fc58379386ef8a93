import WpKnowledge.Model.Query

/-!
# Hashes of queries

A hash of this crate is what `DefaultHasher` makes of the bytes it is fed, in
order: a string contributes its UTF-8 bytes and `0xFF`, a fixed-width value its
bytes, least significant first, and an address its octets as they stand.  The hasher
itself belongs to the standard library, which leaves its algorithm open; it is the
parameter {lit}`DefaultHasher`.
-/

namespace WpKnowledge

/-- The standard hasher: the number it finishes with after a stream of bytes. -/
class DefaultHasher where
  finish : List UInt8 → UInt64

/-- The `n` low bytes of a number, least significant first. -/
def leBytes : Nat → Nat → List UInt8
  | 0, _ => []
  | n + 1, x => UInt8.ofNat (x % 256) :: leBytes n (x / 256)

/-- What hashing a string feeds to the hasher. -/
def strBytes (s : String) : List UInt8 :=
  s.toUTF8.toList ++ [0xFF]

/-- What hashing a truth value feeds to the hasher. -/
def boolBytes (b : Bool) : List UInt8 :=
  [if b then 1 else 0]

/-- The `n` octets of an address, the first of which is the most significant. -/
def octetBytes (n x : Nat) : List UInt8 :=
  (leBytes n x).reverse

/-- What hashing an address feeds to the hasher: the variant, then the octets in their
order. -/
def ipAddrBytes : IpAddr → List UInt8
  | .v4 octets => leBytes 8 0 ++ octetBytes 4 octets.toNat
  | .v6 octets => leBytes 8 1 ++ octetBytes 16 octets.toNat

example : ipAddrBytes (.v4 0x0A000001) = [0, 0, 0, 0, 0, 0, 0, 0, 10, 0, 0, 1] := by
  decide

/-- What hashing a date and time feeds to the hasher. -/
def timeBytes (v : NaiveDateTime) : List UInt8 :=
  leBytes 4 v.ymdf.toNat ++ leBytes 4 v.secs.toNat ++ leBytes 4 v.frac.toNat

/-- What hashing the value of a request parameter feeds to the hasher. -/
def QueryValue.hashBytes : QueryValue → List UInt8
  | .null => [0]
  | .bool v => 1 :: boolBytes v
  | .int v => 2 :: leBytes 8 v.toUInt64.toNat
  | .float v => 3 :: leBytes 8 v.toBits.toNat
  | .text v => 4 :: strBytes v

/-- What hashing a field value feeds to the hasher. -/
def Value.hashBytes [ValueText] : Value → List UInt8
  | .null | .ignore => [0]
  | .bool v => 1 :: boolBytes v
  | .int v => 2 :: leBytes 8 v.toUInt64.toNat
  | .float v => 3 :: leBytes 8 v.toBits.toNat
  | .chars v => 4 :: strBytes v
  | .symbol v => 5 :: strBytes v
  | .time v => 6 :: timeBytes v
  | .hex v => 7 :: strBytes (ValueText.hex v)
  | .ipNet v => 8 :: strBytes (ValueText.ipNet v)
  | .ipAddr v => 9 :: ipAddrBytes v
  | .obj v => 10 :: strBytes (ValueText.objDebug v)
  | .array v => 11 :: strBytes (ValueText.arrayDebug v)
  | .domain v => 12 :: strBytes v
  | .url v => 13 :: strBytes v
  | .email v => 14 :: strBytes v
  | .idCard v => 15 :: strBytes v
  | .mobilePhone v => 16 :: strBytes v
  | .bigUint v => 17 :: strBytes (toString v)

/-- The stream of a list of request parameters. -/
def paramsBytes (params : List QueryParam) : List UInt8 :=
  params.flatMap fun param => strBytes param.name ++ param.value.hashBytes

/-- The stream of a list of fields. -/
def fieldParamsBytes [ValueText] (params : List DataField) : List UInt8 :=
  params.flatMap fun field => strBytes field.getName ++ field.getValue.hashBytes

section Hashes

variable [DefaultHasher]

/-- The hash of a text. -/
def stableHash (value : String) : UInt64 :=
  DefaultHasher.finish (strBytes value)

/-- The hash of a list of request parameters. -/
def stableParamsHash (params : List QueryParam) : UInt64 :=
  DefaultHasher.finish (paramsBytes params)

/-- The hash of a list of fields. -/
def stableFieldParamsHash [ValueText] (params : List DataField) : UInt64 :=
  DefaultHasher.finish (fieldParamsBytes params)

end Hashes

/-! ## A hasher for closed examples -/

namespace SipHash

/-- The four words of the state. -/
structure State where
  v0 : UInt64
  v1 : UInt64
  v2 : UInt64
  v3 : UInt64

/-- Rotate a word to the left. -/
def rotl (x : UInt64) (k : UInt64) : UInt64 := (x <<< k) ||| (x >>> (64 - k))

/-- One round. -/
def round (s : State) : State :=
  let v0 := s.v0 + s.v1
  let v2 := s.v2 + s.v3
  let v1 := rotl s.v1 13 ^^^ v0
  let v3 := rotl s.v3 16 ^^^ v2
  let v0 := rotl v0 32
  let v2 := v2 + v1
  let v0 := v0 + v3
  let v1 := rotl v1 17 ^^^ v2
  let v3 := rotl v3 21 ^^^ v0
  { v0, v1, v2 := rotl v2 32, v3 }

/-- Absorb one word with one round. -/
def absorb (s : State) (m : UInt64) : State :=
  let s := round { s with v3 := s.v3 ^^^ m }
  { s with v0 := s.v0 ^^^ m }

/-- A word from bytes, least significant first. -/
def word : List UInt8 → UInt64
  | [] => 0
  | b :: bs => b.toUInt64 ||| (word bs <<< 8)

/-- Absorb the stream eight bytes at a time; the last word has the stream's
length in its top byte. -/
def absorbAll (len : Nat) : State → List UInt8 → State
  | s, a :: b :: c :: d :: e :: f :: g :: h :: rest =>
      absorbAll len (absorb s (word [a, b, c, d, e, f, g, h])) rest
  | s, rest => absorb s (word rest ||| (UInt64.ofNat (len % 256) <<< 56))

/-- SipHash with one round a word, three final rounds and the key zero, which is
what the standard library's hasher computes at present. -/
def hash13 (bytes : List UInt8) : UInt64 :=
  let s := absorbAll bytes.length
    { v0 := 0x736f6d6570736575, v1 := 0x646f72616e646f6d,
      v2 := 0x6c7967656e657261, v3 := 0x7465646279746573 } bytes
  let s := round (round (round { s with v2 := s.v2 ^^^ 0xff }))
  s.v0 ^^^ s.v1 ^^^ s.v2 ^^^ s.v3

end SipHash

/-- The hasher of closed examples. -/
abbrev sipHasher : DefaultHasher where
  finish := SipHash.hash13

end WpKnowledge
