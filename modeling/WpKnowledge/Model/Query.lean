import WpKnowledge.Model.DataField

/-!
# Requests and responses

What a caller asks of the runtime and what it gets back: the two request paths
({lit}`QueryRequest` with its five kinds of parameter values, and a list of
fields handed through as it is), the conversions between them, and errors.
-/

namespace WpKnowledge

/-- Why a call failed. -/
inductive KnowReason where
  | notData
  | coreConf
  | logicError
  | systemError
  | ruleError
deriving DecidableEq, Repr

/-- An error: its reason and its detail text. -/
structure KnowledgeError where
  reason : KnowReason
  detail : String
deriving DecidableEq, Repr

/-- The result of a fallible call. -/
abbrev KnowledgeResult (α : Type) := Except KnowledgeError α

/-- The kinds of provider. -/
inductive ProviderKind where
  | sqliteAuthority
  | postgres
  | mysql
  | redis
deriving DecidableEq, Repr

/-- The identity of a data source. -/
structure DatasourceId where
  text : String
deriving DecidableEq, Repr

/-- All rows, or the first one. -/
inductive QueryMode where
  | many
  | firstRow
deriving DecidableEq, Repr

/-- Which caches a request may use. -/
inductive CachePolicy where
  | bypass
  | useGlobal
  | useCallScope
deriving DecidableEq, Repr

/-- The value of a request parameter. -/
inductive QueryValue where
  | null
  | bool (v : Bool)
  | int (v : Int64)
  | float (v : F64)
  | text (v : String)
deriving DecidableEq, Repr

/-- A named request parameter. -/
structure QueryParam where
  name : String
  value : QueryValue
deriving DecidableEq, Repr

/-- A request. -/
structure QueryRequest where
  sql : String
  params : List QueryParam
  mode : QueryMode
  cachePolicy : CachePolicy
deriving DecidableEq, Repr

namespace QueryRequest

/-- A request for all rows. -/
def many (sql : String) (params : List QueryParam) (cachePolicy : CachePolicy) : QueryRequest :=
  { sql, params, mode := .many, cachePolicy }

/-- A request for the first row. -/
def firstRow (sql : String) (params : List QueryParam) (cachePolicy : CachePolicy) :
    QueryRequest :=
  { sql, params, mode := .firstRow, cachePolicy }

end QueryRequest

/-- A response. -/
inductive QueryResponse where
  | rows (rows : List RowData)
  | row (row : RowData)

namespace QueryResponse

/-- The response as one row, empty if there is none. -/
def intoRow : QueryResponse → RowData
  | rows rs => rs.head?.getD []
  | row r => r

end QueryResponse

/-- The request parameter value a field value is passed as. -/
def Value.toQueryValue [ValueText] : Value → QueryValue
  | .null | .ignore => .null
  | .bool v => .bool v
  | .int v => .int v
  | .float v => .float v
  | .chars v => .text v
  | .symbol v => .text v
  | .time v => .text (ValueText.time v)
  | .hex v => .text (ValueText.hex v)
  | .ipNet v => .text (ValueText.ipNet v)
  | .ipAddr v => .text (ValueText.ipAddr v)
  | .obj v => .text (ValueText.objDebug v)
  | .array v => .text (ValueText.arrayDebug v)
  | .domain v => .text v
  | .url v => .text v
  | .email v => .text v
  | .idCard v => .text v
  | .mobilePhone v => .text v
  -- an integer of any size is passed as its decimal text
  | .bigUint v => .text (toString v)

/-- Fields as request parameters. -/
def fieldsToParams [ValueText] (params : List DataField) : List QueryParam :=
  params.map fun field => { name := field.getName, value := field.getValue.toQueryValue }

/-- A request parameter as a field. -/
def QueryParam.toField (param : QueryParam) : DataField :=
  match param.value with
  | .null => .new param.name .null
  | .bool v => .new param.name (.bool v)
  | .int v => .fromInt param.name v
  | .float v => .fromFloat param.name v
  | .text v => .fromChars param.name v

/-- Request parameters as fields. -/
def paramsToFields (params : List QueryParam) : List DataField :=
  params.map QueryParam.toField

end WpKnowledge
