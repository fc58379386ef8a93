import WpKnowledge.Foundation.Utf8
import WpKnowledge.Mem.ColumnNames
import WpKnowledge.Sql.Binding

/-!
# Values of a caller as parameters

A caller that works with `rusqlite` hands over named values that can be turned into values
of SQLite.  They do not go to SQLite as they are: each is made a field first, and a field is
what every provider binds.  A blob becomes a text on the way and what is neither a value nor
a reference to one becomes NULL; all other values arrive as they were.

Main results:

- Theorem {lit}`namedParamsToFields_eq_error_iff`: the first value that cannot be turned
  into a field decides the error.
- Theorem {lit}`query_named_bound_iff`: which values a statement gets, and when they are the
  ones the caller has handed over.
-/

namespace WpKnowledge

open Foundation

/-! ## Values of a caller -/

/-- A value of SQLite that its holder owns (`rusqlite::types::Value`). -/
inductive SqlValue where
  | null
  | integer (v : Int64)
  | real (v : F64)
  | text (v : String)
  | blob (bytes : List UInt8)
deriving DecidableEq, Repr

/-- What a value of a caller is turned into (`rusqlite::types::ToSqlOutput`). -/
inductive ToSqlOutput where
  | borrowed (v : ValueRef)
  | owned (v : SqlValue)
  /-- A blob of zeros, an array or another argument. -/
  | other
deriving DecidableEq, Repr

/-- A named value of a caller: what it is turned into, or the text of the error. -/
abbrev NamedValue := String × Except String ToSqlOutput

section Fields

variable (utf8Error : List UInt8 → String)

/-- A referenced value as a field. -/
def dataFieldFromValueRef (name : String) : ValueRef → KnowledgeResult DataField
  | .null => .ok (.new name .null)
  | .integer v => .ok (.fromInt name v)
  | .real v => .ok (.fromFloat name v)
  | .text bytes =>
      match String.fromUTF8? ⟨bytes.toArray⟩ with
      | some text => .ok (.fromChars name text)
      | none => .error
          { reason := .ruleError
            detail := "sql text param utf8 decode failed: " ++ utf8Error bytes }
  | .blob bytes => .ok (.fromChars name (String.ofList (fromUtf8Lossy bytes)))

/-- An owned value as a field. -/
def dataFieldFromValue (name : String) : SqlValue → DataField
  | .null => .new name .null
  | .integer v => .fromInt name v
  | .real v => .fromFloat name v
  | .text v => .fromChars name v
  | .blob bytes => .fromChars name (String.ofList (fromUtf8Lossy bytes))

/-- What a value is turned into, as a field. -/
def dataFieldFromSqlOutput (name : String) : ToSqlOutput → KnowledgeResult DataField
  | .borrowed v => dataFieldFromValueRef utf8Error name v
  | .owned v => .ok (dataFieldFromValue name v)
  | .other => .ok (.new name .null)

/-- One named value as a field. -/
def namedParamToField (param : NamedValue) : KnowledgeResult DataField :=
  match param.2 with
  | .error err => .error { reason := .ruleError, detail := "sql param encode failed: " ++ err }
  | .ok output => dataFieldFromSqlOutput utf8Error (normalizeParamName param.1) output

/-- Named values as fields. -/
def namedParamsToFields (params : List NamedValue) : KnowledgeResult (List DataField) :=
  params.mapM (namedParamToField utf8Error)

/-- The first value that cannot be turned into a field decides the error. -/
theorem namedParamsToFields_eq_error_iff {params : List NamedValue} {e : KnowledgeError} :
    namedParamsToFields utf8Error params = .error e ↔
      ∃ before param after, params = before ++ param :: after ∧
        (∀ p ∈ before, ∃ field, namedParamToField utf8Error p = .ok field) ∧
        namedParamToField utf8Error param = .error e :=
  mapM_eq_error_iff

end Fields

/-! ## What arrives -/

/-- The value that SQLite gets, unless there is an error. -/
def ToSqlOutput.bound : ToSqlOutput → Option SqliteValue
  | .borrowed .null => some .null
  | .borrowed (.integer v) => some (.integer v)
  | .borrowed (.real v) => some (.real v)
  | .borrowed (.text bytes) => (String.fromUTF8? ⟨bytes.toArray⟩).map .text
  | .borrowed (.blob bytes) => some (.text (String.ofList (fromUtf8Lossy bytes)))
  | .owned .null => some .null
  | .owned (.integer v) => some (.integer v)
  | .owned (.real v) => some (.real v)
  | .owned (.text v) => some (.text v)
  | .owned (.blob bytes) => some (.text (String.ofList (fromUtf8Lossy bytes)))
  | .other => some .null

/-- A value as SQLite stores it. -/
def SqliteValue.stored : SqliteValue → ValueRef
  | .null => .null
  | .integer v => .integer v
  | .real v => .real v
  | .text v => .text v.toUTF8.toList

/-- The value the caller has handed over, if it is one. -/
def ToSqlOutput.stored : ToSqlOutput → Option ValueRef
  | .borrowed v => some v
  | .owned .null => some .null
  | .owned (.integer v) => some (.integer v)
  | .owned (.real v) => some (.real v)
  | .owned (.text v) => some (.text v.toUTF8.toList)
  | .owned (.blob bytes) => some (.blob bytes)
  | .other => none

/-- The value does not arrive as it was. -/
def ToSqlOutput.altered : ToSqlOutput → Bool
  | .borrowed (.blob _) => true
  | .owned (.blob _) => true
  | .other => true
  | _ => false

/-- The value that SQLite gets for a named value. -/
def NamedValue.bound (param : NamedValue) : Option SqliteValue :=
  param.2.toOption.bind ToSqlOutput.bound

/-- The value a named value is. -/
def NamedValue.stored (param : NamedValue) : Option ValueRef :=
  param.2.toOption.bind ToSqlOutput.stored

/-- The named value does not arrive as it was. -/
def NamedValue.altered (param : NamedValue) : Bool :=
  param.2.toOption.any ToSqlOutput.altered

/-- A text that is read from bytes has these bytes. -/
theorem toUTF8_of_fromUTF8 {bytes : List UInt8} {text : String}
    (h : String.fromUTF8? ⟨bytes.toArray⟩ = some text) : text.toUTF8.toList = bytes := by
  unfold String.fromUTF8? at h
  split at h
  · cases h
    rw [byteArray_toList]
    rfl
  · cases h

/-- A value arrives as it was unless it is a blob or no value at all. -/
theorem ToSqlOutput.stored_bound_iff {output : ToSqlOutput} {v : SqliteValue}
    (h : output.bound = some v) : some v.stored = output.stored ↔ output.altered = false := by
  cases output with
  | borrowed r =>
      cases r with
      | text bytes =>
          obtain ⟨text, htext, rfl⟩ := Option.map_eq_some_iff.mp h
          have hstored : (SqliteValue.text text).stored = .text bytes :=
            congrArg ValueRef.text (toUTF8_of_fromUTF8 htext)
          rw [hstored]
          simp [ToSqlOutput.stored, altered]
      | null | integer v | real v | blob bytes =>
          cases h
          simp [SqliteValue.stored, ToSqlOutput.stored, altered]
  | owned r =>
      cases r <;> cases h <;> simp [SqliteValue.stored, ToSqlOutput.stored, altered]
  | other =>
      cases h
      simp [ToSqlOutput.stored, altered]

/-- A value that SQLite gets is the one handed over unless it was altered. -/
theorem map_stored_bound_iff {param : NamedValue} (h : param.bound.isSome) :
    param.bound.map SqliteValue.stored = param.stored ↔ param.altered = false := by
  obtain ⟨name, value⟩ := param
  cases value with
  | error err => cases h
  | ok output =>
      obtain ⟨v, hv⟩ := Option.isSome_iff_exists.mp h
      have hv' : output.bound = some v := hv
      rw [hv, Option.map_some]
      exact ToSqlOutput.stored_bound_iff hv'

section Binding

variable [ValueText] {utf8Error : List UInt8 → String}

/-- A named value that is made a field is bound as the field. -/
theorem namedParamToField_eq_ok {param : NamedValue} {field : DataField}
    (h : namedParamToField utf8Error param = .ok field) :
    field.getName = normalizeParamName param.1 ∧
      param.bound = some (SqlNamedParam.toSql field) := by
  obtain ⟨name, value⟩ := param
  cases value with
  | error err => cases h
  | ok output =>
      cases output with
      | borrowed r =>
          cases r with
          | text bytes =>
              change dataFieldFromValueRef utf8Error (normalizeParamName name) (.text bytes) =
                .ok field at h
              unfold dataFieldFromValueRef at h
              dsimp only at h
              split at h
              · rename_i text htext
                cases h
                exact ⟨rfl, congrArg (Option.map SqliteValue.text) htext⟩
              · cases h
          | null | integer v | real v | blob bytes =>
              cases h
              exact ⟨rfl, rfl⟩
      | owned r =>
          cases r <;> cases h <;> exact ⟨rfl, rfl⟩
      | other =>
          cases h
          exact ⟨rfl, rfl⟩

omit [ValueText] in
/-- A named value is made a field if SQLite gets a value for it. -/
theorem exists_namedParamToField_iff {param : NamedValue} :
    (∃ field, namedParamToField utf8Error param = .ok field) ↔ param.bound.isSome := by
  obtain ⟨name, value⟩ := param
  cases value with
  | error err => simp [namedParamToField, NamedValue.bound, Except.toOption]
  | ok output =>
      cases output with
      | borrowed r =>
          cases r with
          | text bytes =>
              simp only [namedParamToField, dataFieldFromSqlOutput, dataFieldFromValueRef,
                NamedValue.bound, Except.toOption, Option.bind_some, ToSqlOutput.bound,
                Option.isSome_map]
              cases String.fromUTF8? ⟨bytes.toArray⟩ <;> simp
          | null | integer v | real v | blob bytes => exact iff_of_true ⟨_, rfl⟩ rfl
      | owned r => exact iff_of_true ⟨_, rfl⟩ (by cases r <;> rfl)
      | other => exact iff_of_true ⟨_, rfl⟩ rfl

/-- The field is what a named value was made. -/
def MadeField (param : NamedValue) (field : DataField) : Prop :=
  field.getName = normalizeParamName param.1 ∧ param.bound = some (SqlNamedParam.toSql field)

/-- Of the values with one name, the first one is found as its field. -/
theorem find?_of_made {params : List NamedValue} {fields : List DataField}
    (h : List.Forall₂ MadeField params fields) (name : String) :
    (fields.find? fun f => f.getName = name).map SqlNamedParam.toSql =
      (params.find? fun p => normalizeParamName p.1 = name).bind NamedValue.bound := by
  induction h with
  | nil => rfl
  | @cons param field params fields hmade _ ih =>
      obtain ⟨hname, hbound⟩ := hmade
      by_cases hfound : normalizeParamName param.1 = name
      · rw [List.find?_cons_of_pos (by simpa [hname] using hfound),
          List.find?_cons_of_pos (by simpa using hfound), Option.map_some, Option.bind_some, hbound]
      · rw [List.find?_cons_of_neg (by simpa [hname] using hfound),
          List.find?_cons_of_neg (by simpa using hfound), ih]

/-! ## The statement -/

/-- The last value with the name of a placeholder. -/
def lastNamed (params : List NamedValue) (name : String) : Option NamedValue :=
  params.reverse.find? fun p => normalizeParamName p.1 = name

variable [SqliteEngine]

/-- Every value can be turned into one of SQLite, and has the name of a placeholder. -/
def Accepted (sql : String) (params : List NamedValue) : Prop :=
  ∀ p ∈ params, p.bound.isSome ∧
    normalizeParamName p.1 ∈ (SqliteEngine.parameters sql).map Prod.snd

/-- The values of the placeholders of a statement that `query_named` runs on SQLite, by their
positions. -/
def queryNamedBindings (utf8Error : List UInt8 → String) (sql : String)
    (params : List NamedValue) : KnowledgeResult (List (Nat × Option SqliteValue)) := do
  let fields ← namedParamsToFields utf8Error params
  let bindings ← MemDB.queryFieldsBindings sql fields
  return bindings.map fun o => (o.1, o.2.map SqlNamedParam.toSql)

/-- The values of the placeholders. -/
def boundValues (sql : String) (params : List NamedValue) : List (Nat × Option SqliteValue) :=
  (SqliteEngine.parameters sql).map fun o => (o.1, (lastNamed params o.2).bind NamedValue.bound)

/-- Values that can be made fields are accepted if the fields have the names of
placeholders. -/
theorem accepted_iff_of_made {sql : String} {params : List NamedValue} {fields : List DataField}
    (h : List.Forall₂ MadeField params fields) :
    Accepted sql params ↔
      ∀ f ∈ fields, f.getName ∈ (SqliteEngine.parameters sql).map Prod.snd := by
  unfold Accepted
  induction h with
  | nil => simp
  | cons hmade _ ih =>
      rw [List.forall_mem_cons, List.forall_mem_cons, ih, hmade.1, hmade.2, Option.isSome_some,
        and_iff_right rfl]

variable {sql : String} {params : List NamedValue}

/-- The bindings of a statement, from its values. -/
theorem queryNamedBindings_iff {b : List (Nat × Option SqliteValue)} :
    (queryNamedBindings utf8Error sql params).toOption = some b ↔
      Accepted sql params ∧ b = boundValues sql params := by
  rw [toOption_eq_some_iff]
  cases hfields : namedParamsToFields utf8Error params with
  | error err =>
      obtain ⟨before, param, after, rfl, -, herr⟩ :=
        (namedParamsToFields_eq_error_iff utf8Error).mp hfields
      have hnone : ¬ ∃ field, namedParamToField utf8Error param = .ok field := by
        rintro ⟨field, hfield⟩
        rw [herr] at hfield
        cases hfield
      constructor
      · intro h
        simp [queryNamedBindings, hfields, bind, Except.bind] at h
      · rintro ⟨haccepted, -⟩
        exact absurd (exists_namedParamToField_iff.mpr (haccepted param (by simp)).1) hnone
  | ok fields =>
      have hmade : List.Forall₂ MadeField params fields :=
        (mapM_eq_ok_iff.mp hfields).imp fun _ _ h => namedParamToField_eq_ok h
      have hbindings : queryNamedBindings utf8Error sql params =
          (MemDB.queryFieldsBindings sql fields).map
            (List.map fun o => (o.1, o.2.map SqlNamedParam.toSql)) := by
        rw [queryNamedBindings, hfields]
        dsimp only [bind, Except.bind]
        cases MemDB.queryFieldsBindings sql fields <;> rfl
      have hvalues : ((SqliteEngine.parameters sql).map fun o =>
          (o.1, fields.reverse.find? fun f => f.getName = o.2)).map
            (fun o => (o.1, o.2.map SqlNamedParam.toSql)) = boundValues sql params := by
        rw [List.map_map, boundValues]
        refine List.map_congr_left fun o _ => ?_
        have hfind := find?_of_made (List.forall₂_reverse_iff.mpr hmade) o.2
        rw [Function.comp_apply, hfind]
        rfl
      rw [hbindings, map_eq_ok_iff]
      constructor
      · rintro ⟨bs, hbs, rfl⟩
        obtain ⟨hnames, rfl⟩ :=
          Sqlite.bindings_eq_some_iff.mp (toOption_eq_some_iff.mpr hbs)
        exact ⟨(accepted_iff_of_made hmade).mpr hnames, hvalues⟩
      · rintro ⟨haccepted, rfl⟩
        have hnames := (accepted_iff_of_made hmade).mp haccepted
        exact ⟨_, toOption_eq_some_iff.mp (Sqlite.bindings_eq_some_iff.mpr ⟨hnames, rfl⟩),
          hvalues⟩

/-- The values that the caller has handed over for the placeholders. -/
def handedOver (sql : String) (params : List NamedValue) : List (Nat × Option ValueRef) :=
  (SqliteEngine.parameters sql).map fun o => (o.1, (lastNamed params o.2).bind NamedValue.stored)

/-- **What a statement gets for the values of a caller.**  A call of `query_named` is
accepted exactly if every value can be turned into one of SQLite and is named like a
placeholder, with its colon or without; then each placeholder gets the last value with its
name.  These are the values the caller has handed over exactly if none of them is a blob or
something that is no value. -/
theorem query_named_bound_iff (sql : String) (params : List NamedValue)
    (utf8Error : List UInt8 → String) :
    (∀ b, (queryNamedBindings utf8Error sql params).toOption = some b ↔
      Accepted sql params ∧ b = boundValues sql params) ∧
    (Accepted sql params →
      ((boundValues sql params).map (fun o => (o.1, o.2.map SqliteValue.stored)) =
          handedOver sql params ↔
        ∀ o ∈ SqliteEngine.parameters sql, ∀ p, lastNamed params o.2 = some p →
          p.altered = false)) := by
  refine ⟨fun b => queryNamedBindings_iff, fun haccepted => ?_⟩
  rw [boundValues, handedOver, List.map_map, List.map_inj_left]
  refine forall₂_congr fun o _ => ?_
  rw [Function.comp_apply, Prod.mk.injEq, eq_self, true_and]
  cases hlast : lastNamed params o.2 with
  | none => simp
  | some param =>
      have hmem : param ∈ params := List.mem_reverse.mp (List.mem_of_find?_eq_some hlast)
      rw [Option.bind_some, Option.bind_some, map_stored_bound_iff (haccepted param hmem).1]
      simp

end Binding

/-! ## A blob -/

/-- A blob of one byte, under a name without its colon. -/
def blobParams : List NamedValue := [("id", .ok (.owned (.blob [0x61])))]

/-- A blob is accepted and arrives as a text. -/
theorem query_named_bound_iff_blob :
    letI := scanningEngine
    letI := numericText
    (queryNamedBindings (fun _ => "") lookupSql blobParams).toOption =
        some (boundValues lookupSql blobParams) ∧
      (boundValues lookupSql blobParams).map (fun o => (o.1, o.2.map SqliteValue.stored)) ≠
        handedOver lookupSql blobParams := by
  let _ := scanningEngine
  let _ := numericText
  have hiff := query_named_bound_iff lookupSql blobParams (fun _ => "")
  have haccepted : Accepted lookupSql blobParams := by
    rw [Accepted, blobParams, List.forall_mem_singleton]
    decide +kernel
  refine ⟨(hiff.1 _).mpr ⟨haccepted, rfl⟩, fun heq => ?_⟩
  have hplaceholder : (27, ":id") ∈ occurrences lookupSql := by decide +kernel
  exact absurd ((hiff.2 haccepted).mp heq _ hplaceholder ("id", .ok (.owned (.blob [0x61])))
    (by decide +kernel)) (by decide)

end WpKnowledge
