import WpKnowledge.Foundation.FoldExcept
import WpKnowledge.Foundation.PrefixCode
import WpKnowledge.Foundation.Text
import WpKnowledge.Foundation.Widening
import WpKnowledge.Model.Query

/-!
# Decoding the rows of a database server

How the PostgreSQL and the MySQL provider make fields of the cells of a row.  The name of
a cell's database type decides which Rust type it is read as; the value read becomes a
boolean, an integer, a float or a text.

`sqlx` is outside the crate: a {lit}`Cell` holds what it answers when the cell is read as each
of the types the providers ask for.  Values that are only printed are the text they print as.

Main results:

- Theorems {lit}`Postgres.mapValue_eq` and {lit}`Mysql.mapValue_eq`: which single reading
  of the cell decides its field.
- Theorem {lit}`Postgres.decode_lossless`: cells of one type get equal values exactly if
  equal values were read.
- Theorem {lit}`Mysql.decode_lossless_iff`: the same, up to the two readings that look like another.
- Theorem {lit}`mapRowWith_names`: column names only rename the fields of a row.
-/

namespace WpKnowledge

open Foundation

/-! ## Hexadecimal text -/

/-- The digit of half a byte. -/
def nibbleToHex (nibble : UInt8) : Char :=
  if nibble ≤ 9 then Char.ofNat (48 + nibble.toNat) else Char.ofNat (97 + (nibble.toNat - 10))

/-- The two digits of a byte. -/
def byteToHex (byte : UInt8) : List Char :=
  [nibbleToHex (byte >>> 4), nibbleToHex (byte &&& 0x0f)]

/-- Bytes as hexadecimal digits. -/
def bytesToHex (bytes : List UInt8) : String :=
  String.ofList (bytes.flatMap byteToHex)

/-- Bytes as hexadecimal digits after `0x`. -/
def bytesToPrefixedHex (bytes : List UInt8) : String :=
  "0x" ++ bytesToHex bytes

/-- The value of a digit. -/
def hexDigitValue (c : Char) : Nat :=
  if c.toNat < 97 then c.toNat - 48 else c.toNat - 87

/-- The byte of two digits. -/
def byteOfHex (digits : List Char) : UInt8 :=
  UInt8.ofNat (digits.foldl (fun value c => 16 * value + hexDigitValue c) 0)

/-- The digits of a byte tell the byte. -/
theorem byteOfHex_byteToHex (byte : UInt8) : byteOfHex (byteToHex byte) = byte := by
  have hall : ∀ n < 256, byteOfHex (byteToHex (UInt8.ofNat n)) = UInt8.ofNat n := by
    decide +kernel
  simpa using hall byte.toNat byte.toNat_lt

/-- Bytes with the same digits are the same. -/
theorem bytesToPrefixedHex_inj {as bs : List UInt8}
    (h : bytesToPrefixedHex as = bytesToPrefixedHex bs) : as = bs := by
  have hdigits : as.flatMap byteToHex = bs.flatMap byteToHex := by
    apply String.ofList_injective
    simpa [bytesToPrefixedHex, bytesToHex] using h
  have hlength : ∀ byte, Delimits (fun _ => 2) (byteToHex byte) := fun _ => delimits_of_length rfl
  have hne : ∀ byte, byteToHex byte ≠ [] := fun _ => List.cons_ne_nil _ _
  have hbytes := (flatMap_eq_flatMap_iff hlength hlength hne hne as bs).mp hdigits
  refine List.forall₂_eq_eq_eq ▸ hbytes.imp ?_
  intro a b hab
  rw [← byteOfHex_byteToHex a, hab, byteOfHex_byteToHex]

/-! ## Cells -/

/-- A 32-bit float, as its IEEE-754 bits. -/
structure F32 where
  bits : UInt32
deriving DecidableEq, Repr

/-- The parts of a 32-bit float. -/
def F32.parts (v : F32) : Narrow where
  sign := 2 ^ 31 ≤ v.bits.toNat
  exponent := v.bits.toNat / 2 ^ 23 % 2 ^ 8
  fraction := v.bits.toNat % 2 ^ 23
  exponent_lt := Nat.mod_lt _ (Nat.two_pow_pos 8)
  fraction_lt := Nat.mod_lt _ (Nat.two_pow_pos 23)

/-- `f64::from` on a 32-bit float. -/
def F64.ofF32 (v : F32) : F64 :=
  ⟨UInt64.ofNat v.parts.widen⟩

/-- The Rust types the providers read a cell as. -/
inductive SqlxType where
  | bool
  | i8
  | i16
  | i32
  | i64
  | u64
  | oid
  | f32
  | f64
  | bigDecimal
  | uuid
  | ipNet
  | bytes
  | string
  | naiveDateTime
  | dateTimeUtc
  | naiveDate
  | naiveTime
  | json
deriving DecidableEq, Repr

/-- The values of a type; of those that are only printed, the text they print as. -/
abbrev SqlxType.Content : SqlxType → Type
  | bool => Bool
  | i8 => Int8
  | i16 => Int16
  | i32 => Int32
  | i64 => Int64
  | u64 => UInt64
  | oid => UInt32
  | f32 => F32
  | f64 => F64
  | bytes => List UInt8
  | bigDecimal | uuid | ipNet | string | naiveDateTime | dateTimeUtc | naiveDate | naiveTime
  | json => String

/-- A cell of a row: its column, the name of its database type, and what `sqlx` answers
when it is read. -/
structure Cell where
  columnName : String
  typeName : String
  isNull : Bool
  tryGet : (t : SqlxType) → Except String t.Content

/-- A row with its columns. -/
abbrev ServerRow := List Cell

/-- Read a cell as a type and make a field of the value. -/
def Cell.decode (cell : Cell) (decodeErr : String → KnowledgeError) (t : SqlxType)
    (field : t.Content → DataField) : KnowledgeResult DataField :=
  match cell.tryGet t with
  | .ok value => .ok (field value)
  | .error err => .error (decodeErr err)

/-- Read a cell as a type, or else as another. -/
def Cell.decodeOr (cell : Cell) (decodeErr : String → KnowledgeError) (first second : SqlxType)
    (field : first.Content → DataField) (fieldElse : second.Content → DataField) :
    KnowledgeResult DataField :=
  match cell.tryGet first with
  | .ok value => .ok (field value)
  | .error _ => cell.decode decodeErr second fieldElse

/-- The field if a decoder has found one, else what comes after it. -/
def orContinue (found : KnowledgeResult (Option DataField)) (rest : KnowledgeResult DataField) :
    KnowledgeResult DataField :=
  match found with
  | .ok (some field) => .ok field
  | .ok none => rest
  | .error err => .error err

@[simp]
theorem orContinue_none (rest : KnowledgeResult DataField) : orContinue (.ok none) rest = rest :=
  rfl

@[simp]
theorem orContinue_some (found rest : KnowledgeResult DataField) :
    orContinue (found.map some) rest = found := by
  cases found <;> rfl

/-- A cell that can be read as one type alone, for closed examples. -/
def Cell.holding (columnName typeName : String) (t : SqlxType) (v : t.Content) : Cell where
  columnName
  typeName
  isNull := false
  tryGet t' := if h : t = t' then .ok (h ▸ v) else .error "mismatched types"

/-! ## PostgreSQL -/

namespace Postgres

/-- `pg_decode_err`. -/
def pgDecodeErr (err : String) : KnowledgeError :=
  { reason := .ruleError, detail := "postgres row decode failed: " ++ err }

section Decoders

variable (cell : Cell) (name ty : String)

/-- A cell whose field is the text it is read as. -/
def charsOf (t : SqlxType) (text : t.Content → String) : KnowledgeResult (Option DataField) :=
  (cell.decode pgDecodeErr t fun value => .fromChars name (text value)).map some

/-- `decode_postgres_boolean`. -/
def decodePostgresBoolean : KnowledgeResult (Option DataField) :=
  if ty ≠ "BOOL" then .ok none
  else (cell.decode pgDecodeErr .bool fun value => .new name (.bool value)).map some

/-- `decode_postgres_integer`. -/
def decodePostgresInteger : KnowledgeResult (Option DataField) :=
  match ty with
  | "INT2" => (cell.decode pgDecodeErr .i16 fun value => .fromInt name value.toInt64).map some
  | "INT4" => (cell.decode pgDecodeErr .i32 fun value => .fromInt name value.toInt64).map some
  | "INT8" => (cell.decode pgDecodeErr .i64 fun value => .fromInt name value).map some
  | "OID" =>
      (cell.decode pgDecodeErr .oid fun value => .fromInt name (Int64.ofNat value.toNat)).map some
  | _ => .ok none

/-- `decode_postgres_float`. -/
def decodePostgresFloat : KnowledgeResult (Option DataField) :=
  match ty with
  | "FLOAT4" => (cell.decode pgDecodeErr .f32 fun value => .fromFloat name (.ofF32 value)).map some
  | "FLOAT8" => (cell.decode pgDecodeErr .f64 fun value => .fromFloat name value).map some
  | _ => .ok none

/-- `decode_postgres_decimal`. -/
def decodePostgresDecimal : KnowledgeResult (Option DataField) :=
  if ty ≠ "NUMERIC" then .ok none else charsOf cell name .bigDecimal id

/-- `decode_postgres_network`. -/
def decodePostgresNetwork : KnowledgeResult (Option DataField) :=
  match ty with
  | "UUID" => charsOf cell name .uuid id
  | "INET" | "CIDR" => charsOf cell name .ipNet id
  | _ => .ok none

/-- `decode_postgres_binary`. -/
def decodePostgresBinary : KnowledgeResult (Option DataField) :=
  if ty ≠ "BYTEA" then .ok none else charsOf cell name .bytes bytesToPrefixedHex

/-- `decode_postgres_text`. -/
def decodePostgresText : KnowledgeResult (Option DataField) :=
  if ty ∉ ["VARCHAR", "TEXT", "BPCHAR", "NAME", "UNKNOWN"] then .ok none
  else charsOf cell name .string id

/-- `decode_postgres_temporal`. -/
def decodePostgresTemporal : KnowledgeResult (Option DataField) :=
  match ty with
  | "TIMESTAMP" => charsOf cell name .naiveDateTime id
  | "TIMESTAMPTZ" => charsOf cell name .dateTimeUtc id
  | "DATE" => charsOf cell name .naiveDate id
  | "TIME" => charsOf cell name .naiveTime id
  | _ => .ok none

/-- `decode_postgres_json`. -/
def decodePostgresJson : KnowledgeResult (Option DataField) :=
  if ty ∉ ["JSON", "JSONB"] then .ok none else charsOf cell name .json id

/-- The decoders of `map_value` in order, and the text that is left. -/
def decodeTyped : KnowledgeResult DataField :=
  orContinue (decodePostgresBoolean cell name ty) <|
  orContinue (decodePostgresInteger cell name ty) <|
  orContinue (decodePostgresFloat cell name ty) <|
  orContinue (decodePostgresDecimal cell name ty) <|
  orContinue (decodePostgresNetwork cell name ty) <|
  orContinue (decodePostgresBinary cell name ty) <|
  orContinue (decodePostgresText cell name ty) <|
  orContinue (decodePostgresTemporal cell name ty) <|
  orContinue (decodePostgresJson cell name ty) <|
  cell.decode pgDecodeErr .string fun value => .fromChars name value

end Decoders

/-- `map_value`. -/
def mapValue (cell : Cell) (name : String) : KnowledgeResult DataField :=
  if cell.isNull then .ok (.new name .null)
  else decodeTyped cell name (cell.typeName.map Char.toUpper)

end Postgres

/-! ## MySQL -/

namespace Mysql

/-- `mysql_decode_err`. -/
def mysqlDecodeErr (err : String) : KnowledgeError :=
  { reason := .ruleError, detail := "mysql row decode failed: " ++ err }

/-- `mysql_type_base_name`: the type without the mark of the unsigned ones, and whether it
was there. -/
def mysqlTypeBaseName (ty : String) : String × Bool :=
  let suffix := " UNSIGNED".toList
  if suffix <:+ ty.toList then
    (String.ofList (ty.toList.take (ty.toList.length - suffix.length)), true)
  else (ty, false)

/-- An unsigned number: an integer if it is small enough, else its digits. -/
def mysqlBitU64ToField (name : String) (value : UInt64) : DataField :=
  if value ≤ Int64.maxValue.toUInt64 then .fromInt name value.toInt64
  else .fromChars name (toString value.toNat)

section Decoders

variable (cell : Cell) (name baseTy : String)

/-- A cell whose field is the text it is read as. -/
def charsOf (t : SqlxType) (text : t.Content → String) : KnowledgeResult (Option DataField) :=
  (cell.decode mysqlDecodeErr t fun value => .fromChars name (text value)).map some

/-- `decode_mysql_boolean`: a small integer, or else a boolean. -/
def decodeMysqlBoolean : KnowledgeResult (Option DataField) :=
  if baseTy ∉ ["BOOL", "BOOLEAN"] then .ok none
  else (cell.decodeOr mysqlDecodeErr .i8 .bool (fun value => .fromInt name value.toInt64)
    fun value => .fromInt name (if value then 1 else 0)).map some

/-- `decode_mysql_integer`. -/
def decodeMysqlInteger (isUnsigned : Bool) : KnowledgeResult (Option DataField) :=
  if baseTy ∉ ["TINYINT", "SMALLINT", "MEDIUMINT", "INT", "INTEGER", "BIGINT", "YEAR", "BIT"] then
    .ok none
  else if baseTy = "BIT" then
    (cell.decode mysqlDecodeErr .u64 (mysqlBitU64ToField name)).map some
  else if isUnsigned then
    (cell.decode mysqlDecodeErr .u64 fun value =>
      if value ≤ Int64.maxValue.toUInt64 then .fromInt name value.toInt64
      else .fromChars name (toString value.toNat)).map some
  else (cell.decode mysqlDecodeErr .i64 fun value => .fromInt name value).map some

/-- `decode_mysql_binary`. -/
def decodeMysqlBinary : KnowledgeResult (Option DataField) :=
  if baseTy ∈ ["ENUM", "SET"] then charsOf cell name .string id
  else if baseTy ∉ ["BINARY", "VARBINARY", "BLOB", "TINYBLOB", "MEDIUMBLOB", "LONGBLOB"] then
    .ok none
  else charsOf cell name .bytes bytesToPrefixedHex

/-- `decode_mysql_float`. -/
def decodeMysqlFloat : KnowledgeResult (Option DataField) :=
  if baseTy ∉ ["FLOAT", "DOUBLE", "REAL"] then .ok none
  else (cell.decode mysqlDecodeErr .f64 fun value => .fromFloat name value).map some

/-- `decode_mysql_decimal`. -/
def decodeMysqlDecimal : KnowledgeResult (Option DataField) :=
  if baseTy ≠ "DECIMAL" then .ok none else charsOf cell name .bigDecimal id

/-- `decode_mysql_temporal`. -/
def decodeMysqlTemporal : KnowledgeResult (Option DataField) :=
  match baseTy with
  | "DATE" => charsOf cell name .naiveDate id
  | "TIME" => charsOf cell name .naiveTime id
  | "DATETIME" | "TIMESTAMP" => charsOf cell name .naiveDateTime id
  | _ => .ok none

/-- `decode_mysql_json`. -/
def decodeMysqlJson : KnowledgeResult (Option DataField) :=
  if baseTy ≠ "JSON" then .ok none else charsOf cell name .json id

/-- `decode_mysql_text_like`: a text, or else bytes. -/
def decodeMysqlTextLike : KnowledgeResult DataField :=
  cell.decodeOr mysqlDecodeErr .string .bytes (fun value => .fromChars name value)
    fun value => .fromChars name (bytesToPrefixedHex value)

/-- The decoders of `map_value` in order. -/
def decodeTyped (isUnsigned : Bool) : KnowledgeResult DataField :=
  orContinue (decodeMysqlBoolean cell name baseTy) <|
  orContinue (decodeMysqlInteger cell name baseTy isUnsigned) <|
  orContinue (decodeMysqlBinary cell name baseTy) <|
  orContinue (decodeMysqlFloat cell name baseTy) <|
  orContinue (decodeMysqlDecimal cell name baseTy) <|
  orContinue (decodeMysqlTemporal cell name baseTy) <|
  orContinue (decodeMysqlJson cell name baseTy) <|
  decodeMysqlTextLike cell name

end Decoders

/-- `map_value`. -/
def mapValue (cell : Cell) (name : String) : KnowledgeResult DataField :=
  if cell.isNull then .ok (.new name .null)
  else
    let (baseTy, isUnsigned) := mysqlTypeBaseName (cell.typeName.map Char.toUpper)
    decodeTyped cell name baseTy isUnsigned

end Mysql

/-! ## What decides a field -/

/-- What was read of a cell: nothing, if it is NULL, or a value of one type. -/
inductive Reading where
  | null
  | content (t : SqlxType) (value : t.Content)

/-- The value a number without a sign becomes. -/
def unsignedValue (value : UInt64) : Value :=
  if value ≤ Int64.maxValue.toUInt64 then .int value.toInt64 else .chars (toString value.toNat)

/-- The value a content becomes. -/
def SqlxType.toValue : (t : SqlxType) → t.Content → Value
  | .bool, value => .bool value
  | .i8, value => .int value.toInt64
  | .i16, value => .int value.toInt64
  | .i32, value => .int value.toInt64
  | .i64, value => .int value
  | .u64, value => unsignedValue value
  | .oid, value => .int (Int64.ofNat value.toNat)
  | .f32, value => .float (.ofF32 value)
  | .f64, value => .float value
  | .bytes, value => .chars (bytesToPrefixedHex value)
  | .bigDecimal, value | .uuid, value | .ipNet, value | .string, value | .naiveDateTime, value
  | .dateTimeUtc, value | .naiveDate, value | .naiveTime, value | .json, value => .chars value

/-- The value a reading becomes. -/
def Reading.toValue : Reading → Value
  | null => .null
  | content t value => t.toValue value

/-- Read a cell as one type. -/
def Cell.read (cell : Cell) (t : SqlxType) : Except String Reading :=
  (cell.tryGet t).map (.content t)

/-- Read a cell as one type, or else as another. -/
def Cell.readOr (cell : Cell) (first second : SqlxType) : Except String Reading :=
  match cell.tryGet first with
  | .ok value => .ok (.content first value)
  | .error _ => cell.read second

/-- The field of a reading. -/
def fieldOf (decodeErr : String → KnowledgeError) (toValue : Reading → Value) (name : String)
    (r : Except String Reading) : KnowledgeResult DataField :=
  match r with
  | .ok found => .ok (.new name (toValue found))
  | .error err => .error (decodeErr err)

/-- A decoder that makes of a content what is made of its reading. -/
theorem Cell.decode_eq_fieldOf (cell : Cell) (decodeErr : String → KnowledgeError)
    (toValue : Reading → Value) (name : String) (t : SqlxType) :
    cell.decode decodeErr t (fun value => .new name (toValue (.content t value))) =
      fieldOf decodeErr toValue name (cell.read t) := by
  unfold Cell.decode Cell.read
  cases cell.tryGet t <;> rfl

/-- The same for two types. -/
theorem Cell.decodeOr_eq_fieldOf (cell : Cell) (decodeErr : String → KnowledgeError)
    (toValue : Reading → Value) (name : String) (first second : SqlxType) :
    cell.decodeOr decodeErr first second
        (fun value => .new name (toValue (.content first value)))
        (fun value => .new name (toValue (.content second value))) =
      fieldOf decodeErr toValue name (cell.readOr first second) := by
  unfold Cell.decodeOr Cell.readOr
  cases cell.tryGet first with
  | ok value => rfl
  | error err => exact cell.decode_eq_fieldOf decodeErr toValue name second

/-- The decoder decides about the types it names, and gives the target for them. -/
def Decides (ty : String) (target : KnowledgeResult DataField) (names : List String)
    (decoder : KnowledgeResult (Option DataField)) : Prop :=
  decoder = if ty ∈ names then target.map some else .ok none

/-- A decoder that compares the type with the names. -/
theorem decides_of_not_mem {ty : String} {target decoded : KnowledgeResult DataField}
    {names : List String} (h : ty ∈ names → decoded = target) :
    Decides ty target names (if ty ∉ names then .ok none else decoded.map some) := by
  unfold Decides
  by_cases hty : ty ∈ names
  · rw [if_neg (not_not.mpr hty), if_pos hty, h hty]
  · rw [if_pos hty, if_neg hty]

/-- A decoder that compares the type with one name. -/
theorem decides_of_ne {ty known : String} {target decoded : KnowledgeResult DataField}
    (h : ty = known → decoded = target) :
    Decides ty target [known] (if ty ≠ known then .ok none else decoded.map some) := by
  have hmem : ty ∈ [known] → decoded = target := fun hty => h (List.mem_singleton.mp hty)
  simpa only [List.mem_singleton, ne_eq] using decides_of_not_mem hmem

/-- What follows a decoder has to do with the other types only. -/
theorem Decides.orContinue {ty : String} {names : List String}
    {target rest : KnowledgeResult DataField} {decoder : KnowledgeResult (Option DataField)}
    (h : Decides ty target names decoder) (hrest : ty ∉ names → rest = target) :
    orContinue decoder rest = target := by
  rw [h]
  by_cases hty : ty ∈ names
  · rw [if_pos hty, orContinue_some]
  · rw [if_neg hty, orContinue_none, hrest hty]

namespace Postgres

/-- The type a cell is read as. -/
def readAs (ty : String) : SqlxType :=
  match ty with
  | "BOOL" => .bool
  | "INT2" => .i16
  | "INT4" => .i32
  | "INT8" => .i64
  | "OID" => .oid
  | "FLOAT4" => .f32
  | "FLOAT8" => .f64
  | "NUMERIC" => .bigDecimal
  | "UUID" => .uuid
  | "INET" | "CIDR" => .ipNet
  | "BYTEA" => .bytes
  | "TIMESTAMP" => .naiveDateTime
  | "TIMESTAMPTZ" => .dateTimeUtc
  | "DATE" => .naiveDate
  | "TIME" => .naiveTime
  | "JSON" | "JSONB" => .json
  | _ => .string

/-- What is read of a cell. -/
def reading (cell : Cell) : Except String Reading :=
  if cell.isNull then .ok .null else cell.read (readAs (cell.typeName.map Char.toUpper))

section Decoders

variable (cell : Cell) (name ty : String)

/-- The field a cell gets. -/
def target : KnowledgeResult DataField :=
  fieldOf pgDecodeErr Reading.toValue name (cell.read (readAs ty))

variable {cell name ty}

/-- A content read as the type that the name asks for gives the field. -/
theorem decode_eq_target {t : SqlxType} (hread : readAs ty = t) :
    cell.decode pgDecodeErr t (fun value => .new name (t.toValue value)) = target cell name ty := by
  rw [target, hread, ← cell.decode_eq_fieldOf]
  rfl

theorem decides_boolean :
    Decides ty (target cell name ty) ["BOOL"] (decodePostgresBoolean cell name ty) :=
  decides_of_ne fun h => decode_eq_target (t := .bool) (by rw [h]; rfl)

theorem decides_integer : Decides ty (target cell name ty) ["INT2", "INT4", "INT8", "OID"]
    (decodePostgresInteger cell name ty) := by
  unfold Decides decodePostgresInteger
  split
  · exact congrArg _ (decode_eq_target (t := .i16) rfl)
  · exact congrArg _ (decode_eq_target (t := .i32) rfl)
  · exact congrArg _ (decode_eq_target (t := .i64) rfl)
  · exact congrArg _ (decode_eq_target (t := .oid) rfl)
  · exact (if_neg (by simp_all)).symm

theorem decides_float : Decides ty (target cell name ty) ["FLOAT4", "FLOAT8"]
    (decodePostgresFloat cell name ty) := by
  unfold Decides decodePostgresFloat
  split
  · exact congrArg _ (decode_eq_target (t := .f32) rfl)
  · exact congrArg _ (decode_eq_target (t := .f64) rfl)
  · exact (if_neg (by simp_all)).symm

theorem decides_decimal :
    Decides ty (target cell name ty) ["NUMERIC"] (decodePostgresDecimal cell name ty) :=
  decides_of_ne fun h => decode_eq_target (t := .bigDecimal) (by rw [h]; rfl)

theorem decides_network : Decides ty (target cell name ty) ["UUID", "INET", "CIDR"]
    (decodePostgresNetwork cell name ty) := by
  unfold Decides decodePostgresNetwork
  split
  · exact congrArg _ (decode_eq_target (t := .uuid) rfl)
  · exact congrArg _ (decode_eq_target (t := .ipNet) rfl)
  · exact congrArg _ (decode_eq_target (t := .ipNet) rfl)
  · exact (if_neg (by simp_all)).symm

theorem decides_binary :
    Decides ty (target cell name ty) ["BYTEA"] (decodePostgresBinary cell name ty) :=
  decides_of_ne fun h => decode_eq_target (t := .bytes) (by rw [h]; rfl)

theorem decides_text :
    Decides ty (target cell name ty) ["VARCHAR", "TEXT", "BPCHAR", "NAME", "UNKNOWN"]
      (decodePostgresText cell name ty) := by
  have hread : ∀ known ∈ ["VARCHAR", "TEXT", "BPCHAR", "NAME", "UNKNOWN"],
      readAs known = .string := by decide
  exact decides_of_not_mem fun h => decode_eq_target (t := .string) (hread ty h)

theorem decides_temporal :
    Decides ty (target cell name ty) ["TIMESTAMP", "TIMESTAMPTZ", "DATE", "TIME"]
      (decodePostgresTemporal cell name ty) := by
  unfold Decides decodePostgresTemporal
  split
  · exact congrArg _ (decode_eq_target (t := .naiveDateTime) rfl)
  · exact congrArg _ (decode_eq_target (t := .dateTimeUtc) rfl)
  · exact congrArg _ (decode_eq_target (t := .naiveDate) rfl)
  · exact congrArg _ (decode_eq_target (t := .naiveTime) rfl)
  · exact (if_neg (by simp_all)).symm

theorem decides_json :
    Decides ty (target cell name ty) ["JSON", "JSONB"] (decodePostgresJson cell name ty) := by
  have hread : ∀ known ∈ ["JSON", "JSONB"], readAs known = .json := by decide
  exact decides_of_not_mem fun h => decode_eq_target (t := .json) (hread ty h)

variable (cell name ty)

/-- The decoders together read a cell as the one type that the name of its type asks for. -/
theorem decodeTyped_eq : decodeTyped cell name ty = target cell name ty := by
  refine decides_boolean.orContinue fun hboolean => ?_
  refine decides_integer.orContinue fun hinteger => ?_
  refine decides_float.orContinue fun hfloat => ?_
  refine decides_decimal.orContinue fun hdecimal => ?_
  refine decides_network.orContinue fun hnetwork => ?_
  refine decides_binary.orContinue fun hbinary => ?_
  refine decides_text.orContinue fun htext => ?_
  refine decides_temporal.orContinue fun htemporal => ?_
  refine decides_json.orContinue fun hjson => ?_
  -- no decoder knows the type
  refine decode_eq_target (t := .string) ?_
  unfold readAs
  split <;> simp_all

end Decoders

/-- What is read of a cell decides its field. -/
theorem mapValue_eq (cell : Cell) (name : String) :
    mapValue cell name = fieldOf pgDecodeErr Reading.toValue name (reading cell) := by
  unfold mapValue reading
  cases cell.isNull with
  | true => rfl
  | false => exact decodeTyped_eq cell name _

end Postgres

namespace Mysql

/-- The type a cell is read as, and the one it is read as if that fails. -/
def readAs (baseTy : String) (isUnsigned : Bool) : SqlxType × Option SqlxType :=
  match baseTy with
  | "BOOL" | "BOOLEAN" => (.i8, some .bool)
  | "BIT" => (.u64, none)
  | "TINYINT" | "SMALLINT" | "MEDIUMINT" | "INT" | "INTEGER" | "BIGINT" | "YEAR" =>
      (if isUnsigned then .u64 else .i64, none)
  | "ENUM" | "SET" => (.string, none)
  | "BINARY" | "VARBINARY" | "BLOB" | "TINYBLOB" | "MEDIUMBLOB" | "LONGBLOB" => (.bytes, none)
  | "FLOAT" | "DOUBLE" | "REAL" => (.f64, none)
  | "DECIMAL" => (.bigDecimal, none)
  | "DATE" => (.naiveDate, none)
  | "TIME" => (.naiveTime, none)
  | "DATETIME" | "TIMESTAMP" => (.naiveDateTime, none)
  | "JSON" => (.json, none)
  | _ => (.string, some .bytes)

/-- Read a cell as the one type, or else as the other. -/
def readTyped (cell : Cell) (types : SqlxType × Option SqlxType) : Except String Reading :=
  match types.2 with
  | none => cell.read types.1
  | some second => cell.readOr types.1 second

/-- The type of a cell without the mark of the unsigned ones, and whether it was there. -/
def typeOf (cell : Cell) : String × Bool :=
  mysqlTypeBaseName (cell.typeName.map Char.toUpper)

/-- What is read of a cell. -/
def reading (cell : Cell) : Except String Reading :=
  if cell.isNull then .ok .null
  else readTyped cell (readAs (typeOf cell).1 (typeOf cell).2)

/-- The value a reading becomes: of booleans the numbers 1 and 0. -/
def toValue : Reading → Value
  | .content .bool value => .int (if value then 1 else 0)
  | r => r.toValue

section Decoders

variable (cell : Cell) (name baseTy : String) (isUnsigned : Bool)

/-- The field a cell gets. -/
def target : KnowledgeResult DataField :=
  fieldOf mysqlDecodeErr toValue name (readTyped cell (readAs baseTy isUnsigned))

variable {cell name baseTy isUnsigned}

/-- A content read as the type that the name asks for gives the field. -/
theorem decode_eq_target {t : SqlxType} (hread : readAs baseTy isUnsigned = (t, none)) :
    cell.decode mysqlDecodeErr t (fun value => .new name (toValue (.content t value))) =
      target cell name baseTy isUnsigned := by
  rw [target, hread, cell.decode_eq_fieldOf]
  rfl

/-- The same for a cell that may be read as two types. -/
theorem decodeOr_eq_target {first second : SqlxType}
    (hread : readAs baseTy isUnsigned = (first, some second)) :
    cell.decodeOr mysqlDecodeErr first second
        (fun value => .new name (toValue (.content first value)))
        (fun value => .new name (toValue (.content second value))) =
      target cell name baseTy isUnsigned := by
  rw [target, hread, cell.decodeOr_eq_fieldOf]
  rfl

theorem decides_boolean : Decides baseTy (target cell name baseTy isUnsigned)
    ["BOOL", "BOOLEAN"] (decodeMysqlBoolean cell name baseTy) := by
  have hread : ∀ known ∈ ["BOOL", "BOOLEAN"],
      readAs known isUnsigned = (.i8, some .bool) := by
    cases isUnsigned <;> decide
  exact decides_of_not_mem fun h => decodeOr_eq_target (hread baseTy h)

/-- The field of a number without a sign. -/
theorem mysqlBitU64ToField_eq (name : String) :
    mysqlBitU64ToField name = fun value => .new name (toValue (.content .u64 value)) := by
  funext value
  unfold mysqlBitU64ToField
  change _ = DataField.new name (unsignedValue value)
  unfold unsignedValue
  split <;> rfl

theorem decides_integer : Decides baseTy (target cell name baseTy isUnsigned)
    ["TINYINT", "SMALLINT", "MEDIUMINT", "INT", "INTEGER", "BIGINT", "YEAR", "BIT"]
    (decodeMysqlInteger cell name baseTy isUnsigned) := by
  have hread : ∀ known ∈ ["TINYINT", "SMALLINT", "MEDIUMINT", "INT", "INTEGER", "BIGINT", "YEAR"],
      readAs known isUnsigned = (if isUnsigned then .u64 else .i64, none) := by
    cases isUnsigned <;> decide
  unfold Decides decodeMysqlInteger
  by_cases hty : baseTy ∈ ["TINYINT", "SMALLINT", "MEDIUMINT", "INT", "INTEGER", "BIGINT", "YEAR",
      "BIT"]
  · rw [if_neg (not_not.mpr hty), if_pos hty]
    change (if baseTy = "BIT" then _ else if isUnsigned then
      (cell.decode mysqlDecodeErr .u64 (mysqlBitU64ToField name)).map some else _) = _
    rw [mysqlBitU64ToField_eq]
    by_cases hbit : baseTy = "BIT"
    · rw [if_pos hbit]
      exact congrArg _ (decode_eq_target (by rw [hbit]; rfl))
    · rw [if_neg hbit]
      have hnumber := hread baseTy (by simp_all)
      cases isUnsigned with
      | true =>
          rw [if_pos rfl]
          exact congrArg _ (decode_eq_target (t := .u64) hnumber)
      | false =>
          rw [if_neg Bool.false_ne_true]
          exact congrArg _ (decode_eq_target (t := .i64) hnumber)
  · rw [if_pos hty, if_neg hty]

theorem decides_binary : Decides baseTy (target cell name baseTy isUnsigned)
    ["ENUM", "SET", "BINARY", "VARBINARY", "BLOB", "TINYBLOB", "MEDIUMBLOB", "LONGBLOB"]
    (decodeMysqlBinary cell name baseTy) := by
  have htext : ∀ known ∈ ["ENUM", "SET"], readAs known isUnsigned = (.string, none) := by
    cases isUnsigned <;> decide
  have hbytes : ∀ known ∈ ["BINARY", "VARBINARY", "BLOB", "TINYBLOB", "MEDIUMBLOB", "LONGBLOB"],
      readAs known isUnsigned = (.bytes, none) := by
    cases isUnsigned <;> decide
  have hnames : baseTy ∈ ["ENUM", "SET", "BINARY", "VARBINARY", "BLOB", "TINYBLOB", "MEDIUMBLOB",
      "LONGBLOB"] ↔ baseTy ∈ ["ENUM", "SET"] ∨
        baseTy ∈ ["BINARY", "VARBINARY", "BLOB", "TINYBLOB", "MEDIUMBLOB", "LONGBLOB"] :=
    List.mem_append (s := ["ENUM", "SET"])
  unfold decodeMysqlBinary
  by_cases henum : baseTy ∈ ["ENUM", "SET"]
  · rw [if_pos henum, Decides, if_pos (hnames.mpr (.inl henum))]
    exact congrArg _ (decode_eq_target (t := .string) (htext baseTy henum))
  · rw [if_neg henum]
    have hdecode : baseTy ∈ ["BINARY", "VARBINARY", "BLOB", "TINYBLOB", "MEDIUMBLOB", "LONGBLOB"] →
        (cell.decode mysqlDecodeErr .bytes fun value =>
          .new name (toValue (.content .bytes value))) = target cell name baseTy isUnsigned :=
      fun h => decode_eq_target (hbytes baseTy h)
    have hrest := decides_of_not_mem hdecode
    exact hrest.trans (if_congr (hnames.trans (or_iff_right henum)).symm rfl rfl)

theorem decides_float : Decides baseTy (target cell name baseTy isUnsigned)
    ["FLOAT", "DOUBLE", "REAL"] (decodeMysqlFloat cell name baseTy) := by
  have hread : ∀ known ∈ ["FLOAT", "DOUBLE", "REAL"],
      readAs known isUnsigned = (.f64, none) := by
    cases isUnsigned <;> decide
  exact decides_of_not_mem fun h => decode_eq_target (t := .f64) (hread baseTy h)

theorem decides_decimal : Decides baseTy (target cell name baseTy isUnsigned) ["DECIMAL"]
    (decodeMysqlDecimal cell name baseTy) :=
  decides_of_ne fun h => decode_eq_target (t := .bigDecimal) (by rw [h]; rfl)

theorem decides_temporal : Decides baseTy (target cell name baseTy isUnsigned)
    ["DATE", "TIME", "DATETIME", "TIMESTAMP"] (decodeMysqlTemporal cell name baseTy) := by
  unfold Decides decodeMysqlTemporal
  split
  · exact congrArg _ (decode_eq_target (t := .naiveDate) rfl)
  · exact congrArg _ (decode_eq_target (t := .naiveTime) rfl)
  · exact congrArg _ (decode_eq_target (t := .naiveDateTime) rfl)
  · exact congrArg _ (decode_eq_target (t := .naiveDateTime) rfl)
  · exact (if_neg (by simp_all)).symm

theorem decides_json : Decides baseTy (target cell name baseTy isUnsigned) ["JSON"]
    (decodeMysqlJson cell name baseTy) :=
  decides_of_ne fun h => decode_eq_target (t := .json) (by rw [h]; rfl)

variable (cell name baseTy isUnsigned)

/-- The decoders together read a cell as the name of its type asks for. -/
theorem decodeTyped_eq :
    decodeTyped cell name baseTy isUnsigned = target cell name baseTy isUnsigned := by
  refine decides_boolean.orContinue fun hboolean => ?_
  refine decides_integer.orContinue fun hinteger => ?_
  refine decides_binary.orContinue fun hbinary => ?_
  refine decides_float.orContinue fun hfloat => ?_
  refine decides_decimal.orContinue fun hdecimal => ?_
  refine decides_temporal.orContinue fun htemporal => ?_
  refine decides_json.orContinue fun hjson => ?_
  -- no decoder knows the type
  have hread : readAs baseTy isUnsigned = (.string, some .bytes) := by
    unfold readAs
    split <;> simp_all
  exact decodeOr_eq_target hread

end Decoders

/-- What is read of a cell decides its field. -/
theorem mapValue_eq (cell : Cell) (name : String) :
    mapValue cell name = fieldOf mysqlDecodeErr toValue name (reading cell) := by
  unfold mapValue reading
  cases cell.isNull with
  | true => rfl
  | false => exact decodeTyped_eq cell name _ _

end Mysql

/-! ## Nothing is lost -/

/-- The bits of a float are those of its parts. -/
theorem F32.eq_of_parts_eq {v w : F32} (h : v.parts = w.parts) : v = w := by
  have hv := v.bits.toNat_lt
  have hw := w.bits.toNat_lt
  have hsign : (2 ^ 31 ≤ v.bits.toNat) = (2 ^ 31 ≤ w.bits.toNat) := by
    simpa [F32.parts] using congrArg Narrow.sign h
  have hexp : v.bits.toNat / 2 ^ 23 % 2 ^ 8 = w.bits.toNat / 2 ^ 23 % 2 ^ 8 :=
    congrArg Narrow.exponent h
  have hfrac : v.bits.toNat % 2 ^ 23 = w.bits.toNat % 2 ^ 23 := congrArg Narrow.fraction h
  have hbits : v.bits.toNat = w.bits.toNat := by
    simp only [eq_iff_iff] at hsign
    omega
  obtain ⟨vbits⟩ := v
  obtain ⟨wbits⟩ := w
  exact congrArg F32.mk (UInt32.toNat_inj.mp hbits)

/-- Floats that are no NaN and widen alike are equal. -/
theorem F64.ofF32_inj {v w : F32} (hv : v.parts.IsNumber) (hw : w.parts.IsNumber)
    (h : F64.ofF32 v = F64.ofF32 w) : v = w := by
  have hbits : UInt64.ofNat v.parts.widen = UInt64.ofNat w.parts.widen := congrArg F64.bits h
  have hwiden : v.parts.widen = w.parts.widen := by
    have hnat := congrArg UInt64.toNat hbits
    rwa [UInt64.toNat_ofNat', UInt64.toNat_ofNat', Nat.mod_eq_of_lt v.parts.widen_lt,
      Nat.mod_eq_of_lt w.parts.widen_lt] at hnat
  exact F32.eq_of_parts_eq (Narrow.widen_inj hv hw hwiden)

/-- A number without a sign can be told from its value. -/
theorem unsignedValue_inj {v w : UInt64} (h : unsignedValue v = unsignedValue w) : v = w := by
  unfold unsignedValue at h
  split at h <;> split at h
  · have hint := Value.int.inj h
    rw [← UInt64.toUInt64_toInt64 v, hint, UInt64.toUInt64_toInt64]
  · cases h
  · cases h
  · exact UInt64.toNat_inj.mp (toString_nat_inj (Value.chars.inj h))

/-- The reading is not a NaN of 32 bits, which widening does not keep. -/
def Reading.Keeps : Reading → Prop
  | .content .f32 value => value.parts.IsNumber
  | _ => True

/-- A content can be told from its value. -/
theorem SqlxType.toValue_inj {t : SqlxType} {v w : t.Content} (hv : (Reading.content t v).Keeps)
    (hw : (Reading.content t w).Keeps) (h : t.toValue v = t.toValue w) : v = w := by
  cases t with
  | bool => exact Value.bool.inj h
  | i8 => exact Int8.toInt_inj.mp (by simpa using congrArg Int64.toInt (Value.int.inj h))
  | i16 => exact Int16.toInt_inj.mp (by simpa using congrArg Int64.toInt (Value.int.inj h))
  | i32 => exact Int32.toInt_inj.mp (by simpa using congrArg Int64.toInt (Value.int.inj h))
  | i64 => exact Value.int.inj h
  | u64 => exact unsignedValue_inj h
  | oid =>
      have hint := congrArg Int64.toInt (Value.int.inj h)
      have hlt : ∀ u : UInt32, u.toNat < 2 ^ 63 := fun u => by
        have hu := u.toNat_lt
        omega
      rw [Int64.toInt_ofNat_of_lt (hlt v), Int64.toInt_ofNat_of_lt (hlt w)] at hint
      exact UInt32.toNat_inj.mp (Int.ofNat_inj.mp hint)
  | f32 => exact F64.ofF32_inj hv hw (Value.float.inj h)
  | f64 => exact Value.float.inj h
  | bytes => exact bytesToPrefixedHex_inj (Value.chars.inj h)
  | bigDecimal | uuid | ipNet | string | naiveDateTime | dateTimeUtc | naiveDate | naiveTime
  | json => exact Value.chars.inj h

/-- Readings of one type have one value only if they are the same. -/
theorem Reading.eq_of_toValue_eq {t : SqlxType} {v w : t.Content}
    (hv : (Reading.content t v).Keeps) (hw : (Reading.content t w).Keeps)
    (h : (Reading.content t v).toValue = (Reading.content t w).toValue) :
    Reading.content t v = Reading.content t w :=
  congrArg _ (SqlxType.toValue_inj hv hw h)

/-- Only of NULL nothing is read. -/
theorem SqlxType.toValue_ne_null (t : SqlxType) (v : t.Content) : t.toValue v ≠ .null := by
  cases t with
  | u64 =>
      change unsignedValue v ≠ .null
      unfold unsignedValue
      split <;> exact Value.noConfusion
  | _ => exact Value.noConfusion

/-- A field comes from a reading. -/
theorem fieldOf_eq_ok_iff {decodeErr : String → KnowledgeError} {toValue : Reading → Value}
    {name : String} {r : Except String Reading} {field : DataField} :
    fieldOf decodeErr toValue name r = .ok field ↔
      ∃ found, r = .ok found ∧ field = .new name (toValue found) := by
  cases r with
  | ok found => simp [fieldOf, eq_comm]
  | error err => simp [fieldOf]

namespace Postgres

/-- What can be read of a cell of a type. -/
theorem reading_eq_ok {cell : Cell} {r : Reading} (h : reading cell = .ok r) :
    r = .null ∨ ∃ t v, t = readAs (cell.typeName.map Char.toUpper) ∧ r = .content t v := by
  unfold reading at h
  split at h
  · exact .inl (Except.ok.inj h).symm
  · obtain ⟨v, -, hv⟩ := map_eq_ok_iff.mp h
    exact .inr ⟨_, v, rfl, hv.symm⟩

/-- **Decoding for PostgreSQL loses nothing.**  Two cells of columns of one database type,
decoded under any names, get equal values exactly if the same was read of both: NULL of
both, or equal values of the one Rust type that the database type is read as, where two
decimals, networks, times, JSON texts or UUIDs are equal if they print the same.  The only
values that are not kept apart are NaNs of 32 bits. -/
theorem decode_lossless {cell cell' : Cell} {name name' : String} {field field' : DataField}
    (hty : cell.typeName.map Char.toUpper = cell'.typeName.map Char.toUpper)
    (hkeeps : ∀ r, reading cell = .ok r → r.Keeps) (hkeeps' : ∀ r, reading cell' = .ok r → r.Keeps)
    (h : mapValue cell name = .ok field) (h' : mapValue cell' name' = .ok field') :
    field.getValue = field'.getValue ↔ reading cell = reading cell' := by
  rw [mapValue_eq] at h h'
  obtain ⟨r, hr, rfl⟩ := fieldOf_eq_ok_iff.mp h
  obtain ⟨r', hr', rfl⟩ := fieldOf_eq_ok_iff.mp h'
  have hk := hkeeps r hr
  have hk' := hkeeps' r' hr'
  rw [hr, hr', Except.ok.injEq]
  constructor
  · intro hvalue
    rcases reading_eq_ok hr with rfl | ⟨t, v, ht, rfl⟩ <;>
      rcases reading_eq_ok hr' with rfl | ⟨t', v', ht', rfl⟩
    · rfl
    · exact absurd hvalue.symm (SqlxType.toValue_ne_null _ v')
    · exact absurd hvalue (SqlxType.toValue_ne_null _ v)
    · obtain rfl : t = t' := by rw [ht, ht', hty]
      exact Reading.eq_of_toValue_eq hk hk' hvalue
  · rintro rfl
    rfl

/-- Of a cell that holds a value of the type it is read as, the value is read. -/
theorem reading_holding {columnName typeName ty : String} {t : SqlxType} {v : t.Content}
    (hty : typeName.map Char.toUpper = ty) (hread : readAs ty = t) :
    reading (.holding columnName typeName t v) = .ok (.content t v) := by
  subst hread
  subst hty
  simp [reading, Cell.holding, Cell.read, Except.map]

/-- Two floats of 32 bits that are neighbours get different fields. -/
theorem decode_lossless_neighbours :
    ∃ field field', mapValue (.holding "a" "FLOAT4" .f32 ⟨0x3FC00000⟩) "x" = .ok field ∧
      mapValue (.holding "b" "float4" .f32 ⟨0x3FC00001⟩) "y" = .ok field' ∧
      field.getValue ≠ field'.getValue := by
  have hupper : "FLOAT4".map Char.toUpper = "FLOAT4" := by decide +kernel
  have hupper' : "float4".map Char.toUpper = "FLOAT4" := by decide +kernel
  have hread : reading (.holding "a" "FLOAT4" .f32 ⟨0x3FC00000⟩) =
      .ok (.content .f32 ⟨0x3FC00000⟩) := reading_holding hupper rfl
  have hread' : reading (.holding "b" "float4" .f32 ⟨0x3FC00001⟩) =
      .ok (.content .f32 ⟨0x3FC00001⟩) := reading_holding hupper' rfl
  have hmap := mapValue_eq (.holding "a" "FLOAT4" .f32 ⟨0x3FC00000⟩) "x"
  have hmap' := mapValue_eq (.holding "b" "float4" .f32 ⟨0x3FC00001⟩) "y"
  rw [hread] at hmap
  rw [hread'] at hmap'
  have hkeeps : ∀ {v : F32}, v.parts.IsNumber → ∀ r,
      Except.ok (.content .f32 v) = (.ok r : Except String Reading) → r.Keeps := by
    rintro v hv r ⟨⟩
    exact hv
  refine ⟨_, _, hmap, hmap', fun heq => ?_⟩
  have hsame := (decode_lossless (hupper.trans hupper'.symm) (hread ▸ hkeeps (by decide))
    (hread' ▸ hkeeps (by decide)) hmap hmap').mp heq
  rw [hread, hread'] at hsame
  cases hsame

end Postgres

namespace Mysql

/-- Two readings of one cell type with one value: a small integer that looks like a
boolean, and a text that looks like bytes. -/
inductive LooksLike : Reading → Reading → Prop
  | flag (v : Bool) : LooksLike (.content .i8 (if v then 1 else 0)) (.content .bool v)
  | hex (v : List UInt8) : LooksLike (.content .string (bytesToPrefixedHex v)) (.content .bytes v)

theorem LooksLike.toValue_eq {r r' : Reading} (h : LooksLike r r') : toValue r = toValue r' := by
  cases h with
  | flag v => cases v <;> rfl
  | hex v => rfl

/-- The types a cell may be read as: one that is not the narrow float and no boolean, or
one of two pairs. -/
theorem readAs_cases (baseTy : String) (isUnsigned : Bool) :
    (∃ t, readAs baseTy isUnsigned = (t, none) ∧ t ≠ .f32 ∧ t ≠ .bool) ∨
      readAs baseTy isUnsigned = (.i8, some .bool) ∨
      readAs baseTy isUnsigned = (.string, some .bytes) := by
  unfold readAs
  split <;> cases isUnsigned <;> simp

/-- A content that is read has one of the types. -/
theorem type_of_reading_eq_ok {cell : Cell} {t : SqlxType} {v : t.Content}
    (h : reading cell = .ok (.content t v)) :
    t = (readAs (typeOf cell).1 (typeOf cell).2).1 ∨
      some t = (readAs (typeOf cell).1 (typeOf cell).2).2 := by
  unfold reading at h
  split at h
  · cases h
  · unfold readTyped at h
    cases hsecond : (readAs (typeOf cell).1 (typeOf cell).2).2 with
    | none =>
        rw [hsecond] at h
        obtain ⟨w, -, hw⟩ := map_eq_ok_iff.mp h
        exact .inl (Reading.content.inj hw).1.symm
    | some second =>
        rw [hsecond] at h
        dsimp only [Cell.readOr] at h
        split at h
        · exact .inl (Reading.content.inj (Except.ok.inj h)).1.symm
        · obtain ⟨w, -, hw⟩ := map_eq_ok_iff.mp h
          exact .inr (congrArg some (Reading.content.inj hw).1.symm)

theorem toValue_content_ne_null {t : SqlxType} (v : t.Content) :
    toValue (.content t v) ≠ .null := by
  cases t with
  | bool => exact Value.noConfusion
  | _ => exact SqlxType.toValue_ne_null _ v

theorem toValue_content {t : SqlxType} (h : t ≠ .bool) (v : t.Content) :
    toValue (.content t v) = t.toValue v := by
  cases t with
  | bool => exact absurd rfl h
  | _ => rfl

theorem keeps_content {t : SqlxType} (h : t ≠ .f32) (v : t.Content) :
    (Reading.content t v).Keeps := by
  cases t with
  | f32 => exact absurd rfl h
  | _ => trivial

/-- A number of one byte that has the value of a boolean looks like it. -/
theorem looksLike_of_flag {v : Int8} {w : Bool}
    (h : toValue (.content .i8 v) = toValue (.content .bool w)) :
    LooksLike (.content .i8 v) (.content .bool w) := by
  have hv : v = if w then 1 else 0 := by
    refine SqlxType.toValue_inj (t := .i8) trivial trivial (Eq.trans h ?_)
    cases w <;> rfl
  exact hv ▸ .flag w

/-- A text that has the value of bytes looks like them. -/
theorem looksLike_of_hex {v : String} {w : List UInt8}
    (h : toValue (.content .string v) = toValue (.content .bytes w)) :
    LooksLike (.content .string v) (.content .bytes w) := by
  have hv : v = bytesToPrefixedHex w := Value.chars.inj h
  exact hv ▸ .hex w

/-- Of contents of one cell type with one value one looks like the other. -/
theorem looksLike_of_toValue_eq {types : SqlxType × Option SqlxType}
    (htypes : (∃ t, types = (t, none) ∧ t ≠ .f32 ∧ t ≠ .bool) ∨ types = (.i8, some .bool) ∨
      types = (.string, some .bytes))
    {t t' : SqlxType} {v : t.Content} {v' : t'.Content} (ht : t = types.1 ∨ some t = types.2)
    (ht' : t' = types.1 ∨ some t' = types.2)
    (h : toValue (.content t v) = toValue (.content t' v')) :
    Reading.content t v = .content t' v' ∨ LooksLike (.content t v) (.content t' v') ∨
      LooksLike (.content t' v') (.content t v) := by
  rcases htypes with ⟨t₀, rfl, h32, hbool⟩ | rfl | rfl
  · simp only [reduceCtorEq, or_false] at ht ht'
    subst ht ht'
    rw [toValue_content hbool, toValue_content hbool] at h
    exact .inl (congrArg _ (SqlxType.toValue_inj (keeps_content h32 v) (keeps_content h32 v') h))
  · simp only [Option.some.injEq] at ht ht'
    rcases ht with rfl | rfl <;> rcases ht' with rfl | rfl
    · exact .inl (congrArg _ (SqlxType.toValue_inj (t := .i8) trivial trivial h))
    · exact .inr (.inl (looksLike_of_flag h))
    · exact .inr (.inr (looksLike_of_flag h.symm))
    · left
      cases v <;> cases v' <;> first | rfl | cases h
  · simp only [Option.some.injEq] at ht ht'
    rcases ht with rfl | rfl <;> rcases ht' with rfl | rfl
    · exact .inl (congrArg _ (Value.chars.inj h))
    · exact .inr (.inl (looksLike_of_hex h))
    · exact .inr (.inr (looksLike_of_hex h.symm))
    · exact .inl (congrArg _ (bytesToPrefixedHex_inj (Value.chars.inj h)))

/-- **What decoding for MySQL loses.**  Two cells of columns of one database type, decoded
under any names, get equal values exactly if the same was read of both, or one of the two
readings looks like the other: a boolean like the numbers 1 and 0, bytes like the text of
their digits.  Two decimals, times or JSON texts are the same here if they print the same. -/
theorem decode_lossless_iff {cell cell' : Cell} {name name' : String} {field field' : DataField}
    (hty : typeOf cell = typeOf cell')
    (h : mapValue cell name = .ok field) (h' : mapValue cell' name' = .ok field') :
    field.getValue = field'.getValue ↔
      ∃ r r', reading cell = .ok r ∧ reading cell' = .ok r' ∧
        (r = r' ∨ LooksLike r r' ∨ LooksLike r' r) := by
  rw [mapValue_eq] at h h'
  obtain ⟨r, hr, rfl⟩ := fieldOf_eq_ok_iff.mp h
  obtain ⟨r', hr', rfl⟩ := fieldOf_eq_ok_iff.mp h'
  constructor
  · intro hvalue
    refine ⟨r, r', hr, hr', ?_⟩
    cases r with
    | null =>
        cases r' with
        | null => exact .inl rfl
        | content t' v' => exact absurd hvalue.symm (toValue_content_ne_null v')
    | content t v =>
        cases r' with
        | null => exact absurd hvalue (toValue_content_ne_null v)
        | content t' v' =>
            have ht := type_of_reading_eq_ok hr
            rw [hty] at ht
            exact looksLike_of_toValue_eq (readAs_cases _ _) ht (type_of_reading_eq_ok hr') hvalue
  · rintro ⟨s, s', hs, hs', hlike⟩
    obtain rfl : s = r := Except.ok.inj (hs.symm.trans hr)
    obtain rfl : s' = r' := Except.ok.inj (hs'.symm.trans hr')
    rcases hlike with rfl | hlike | hlike
    · rfl
    · exact hlike.toValue_eq
    · exact hlike.toValue_eq.symm

/-- A text and bytes in columns of one type that get one value. -/
theorem decode_lossless_iff_hex :
    ∃ field field', mapValue (.holding "a" "CHAR" .string "0xff") "x" = .ok field ∧
      mapValue (.holding "b" "char" .bytes [255]) "y" = .ok field' ∧
      field.getValue = field'.getValue := by
  have hty : typeOf (.holding "a" "CHAR" .string "0xff") = ("CHAR", false) := by decide +kernel
  have hty' : typeOf (.holding "b" "char" .bytes [255]) = ("CHAR", false) := by decide +kernel
  have hread : reading (.holding "a" "CHAR" .string "0xff") =
      .ok (.content .string (bytesToPrefixedHex [255])) := by
    have htext : bytesToPrefixedHex [255] = "0xff" := by decide +kernel
    simp only [reading, hty, htext]
    rfl
  have hread' : reading (.holding "b" "char" .bytes [255]) = .ok (.content .bytes [255]) := by
    simp only [reading, hty']
    rfl
  have hmap := mapValue_eq (.holding "a" "CHAR" .string "0xff") "x"
  have hmap' := mapValue_eq (.holding "b" "char" .bytes [255]) "y"
  rw [hread] at hmap
  rw [hread'] at hmap'
  exact ⟨_, _, hmap, hmap', (decode_lossless_iff (hty.trans hty'.symm) hmap hmap').mpr
    ⟨_, _, hread, hread', .inr (.inl (.hex [255]))⟩⟩

end Mysql

/-! ## Rows -/

/-- `map_row`: the fields of the cells under the names given, and under the names of the
columns where there are no more. -/
def mapRowWith (mapValue : Cell → String → KnowledgeResult DataField) (row : ServerRow)
    (colNames : List String) : KnowledgeResult RowData :=
  row.zipIdx.mapM fun (cell, idx) => mapValue cell (colNames[idx]?.getD cell.columnName)

/-- `map_row` of the PostgreSQL provider. -/
def Postgres.mapRow (row : ServerRow) (colNames : List String) : KnowledgeResult RowData :=
  mapRowWith Postgres.mapValue row colNames

/-- `map_row` of the MySQL provider. -/
def Mysql.mapRow (row : ServerRow) (colNames : List String) : KnowledgeResult RowData :=
  mapRowWith Mysql.mapValue row colNames

/-- The fields under other names, as far as there are any. -/
def rename (names : List String) (row : RowData) : RowData :=
  row.zipIdx.map fun (field, idx) => .new (names[idx]?.getD field.getName) field.getValue

@[simp]
theorem length_rename (names : List String) (row : RowData) :
    (rename names row).length = row.length := by
  simp [rename]

/-- Column names only rename the fields of a row. -/
theorem mapRowWith_names (decodeErr : String → KnowledgeError) (toValue : Reading → Value)
    (reading : Cell → Except String Reading) (row : ServerRow) (names : List String) :
    mapRowWith (fun cell name => fieldOf decodeErr toValue name (reading cell)) row names =
      (mapRowWith (fun cell name => fieldOf decodeErr toValue name (reading cell)) row []).map
        (rename names) := by
  unfold mapRowWith rename
  -- the induction carries the number of the first cell
  generalize 0 = start
  induction row generalizing start with
  | nil => rfl
  | cons cell row ih =>
      rw [List.zipIdx_cons, List.mapM_cons, List.mapM_cons, ih]
      dsimp only
      cases reading cell with
      | error err => rfl
      | ok r =>
          cases (row.zipIdx (start + 1)).mapM fun (cell, idx) =>
            fieldOf decodeErr toValue (([] : List String)[idx]?.getD cell.columnName)
              (reading cell) with
          | error err => rfl
          | ok fields => rfl

end WpKnowledge
