import Mathlib.Data.List.Find
import WpKnowledge.Sql.Scanners

/-!
# Binding parameters

What each provider does with the fields a caller passes to a statement with
`:name` placeholders, and which value of the database a field becomes.

The SQLite providers hand the fields to `rusqlite` under the names they are
written with: it looks each name up among the placeholders of the statement, and
a placeholder that gets no field stays NULL.  The PostgreSQL and the MySQL
provider put a colon in front of a name that has none, look each placeholder up
among the names, and bind the fields the rewriting returns.

Main results:

- Theorem {lit}`bindings_agree_iff`: exactly when all providers accept the same
  parameters and bind the same fields.
- Theorem {lit}`bind_alike_iff`: exactly when a field and the request parameter made
  of it are bound as the same value.
-/

namespace WpKnowledge

/-! ## Maps filled by insertion -/

/-- After insertions a key has the last value inserted under it. -/
theorem lookup_foldl_insert {κ ν : Type} [DecidableEq κ] (key : ν → κ) (xs : List ν)
    (m : HashMap κ ν) (k : κ) :
    (xs.foldl (fun m x => m.insert (key x) x) m).lookup k =
      (xs.reverse.find? fun x => key x = k).or (m.lookup k) := by
  induction xs generalizing m with
  | nil => simp
  | cons x xs ih =>
      rw [List.foldl_cons, ih, List.reverse_cons, List.find?_append, Option.or_assoc]
      by_cases hkey : key x = k
      · subst hkey
        simp [AList.lookup_insert]
      · have hne : k ≠ key x := fun h => hkey h.symm
        simp [AList.lookup_insert_ne hne, hkey]

/-- A normalised name stands for the last parameter with it. -/
theorem lookup_paramsByName (params : List DataField) (name : String) :
    (paramsByName params).lookup name =
      params.reverse.find? fun p => normalizeParamName p.getName = name := by
  unfold paramsByName
  rw [lookup_foldl_insert (fun p : DataField => normalizeParamName p.getName)]
  simp

/-- A name has a parameter when one has it as its normalised name. -/
theorem isSome_lookup_paramsByName (params : List DataField) (name : String) :
    ((paramsByName params).lookup name).isSome ↔
      ∃ p ∈ params, normalizeParamName p.getName = name := by
  rw [lookup_paramsByName, List.find?_isSome]
  simp

/-! ## The names of placeholders -/

/-- A placeholder starts with its colon. -/
theorem regionAt_param {b : UInt8} {rest : List UInt8} {n : Nat}
    (h : regionAt b rest = .param n) : b = ':'.toUInt8 ∧ 0 < n := by
  unfold regionAt at h
  split_ifs at h with h1 h2 h3 h4 h5 h6 h7 h8
  · split at h <;> cases h
  · cases h
    exact ⟨h6, by omega⟩

/-- Among copied bytes there is no placeholder. -/
theorem mem_of_mem_bytes_append {bytes : List UInt8} {ls : List Lexeme} {start : Nat}
    {rawName : String} (h : Lexeme.param start rawName ∈ bytes.map .byte ++ ls) :
    Lexeme.param start rawName ∈ ls := by
  rcases List.mem_append.mp h with hbyte | hmem
  · rcases List.mem_map.mp hbyte with ⟨b, -, hb⟩
    cases hb
  · exact hmem

/-- The name of a placeholder starts with its colon. -/
theorem head_of_mem_lexemesFrom (i : Nat) (bytes : List UInt8) (dollarTag : Option (List UInt8))
    {start : Nat} {rawName : String}
    (h : Lexeme.param start rawName ∈ lexemesFrom i bytes dollarTag) :
    rawName.toList.head? = some ':' := by
  fun_induction lexemesFrom i bytes dollarTag with
  | case1 => simp at h
  | case2 i b rest tag hstart ih => exact ih (mem_of_mem_bytes_append h)
  | case3 i b rest tag hstart ih => exact ih (by simpa using h)
  | case4 i b rest n hregion ih => exact ih (mem_of_mem_bytes_append h)
  | case5 i b rest n hregion ih => exact ih (mem_of_mem_bytes_append h)
  | case6 i b rest n hregion ih =>
      rcases List.mem_cons.mp h with heq | hmem
      · obtain ⟨hb, hn⟩ := regionAt_param hregion
        cases heq
        cases n with
        | zero => omega
        | succ n =>
            subst hb
            have hcolon : byteAsChar ':'.toUInt8 = ':' := by decide
            simp [bytesAsString, hcolon]
      · exact ih hmem

/-- Normalising leaves the name of a placeholder as it is. -/
theorem normalizeParamName_of_mem_occurrences {sql : String} {o : Nat × String}
    (h : o ∈ occurrences sql) : normalizeParamName o.2 = o.2 := by
  rcases List.mem_filterMap.mp h with ⟨l, hl, hlo⟩
  cases l with
  | byte b => cases hlo
  | param start rawName =>
      cases hlo
      rw [normalizeParamName, if_pos (head_of_mem_lexemesFrom 0 _ none hl)]

/-! ## What each provider binds -/

/-- What the SQLite engine makes of a statement: its placeholders, where each
starts and its name with the leading character. -/
class SqliteEngine where
  parameters : String → List (Nat × String)

/-- The fields of the placeholders of a statement, by their positions; a
placeholder without one is NULL. -/
abbrev Bindings := List (Nat × Option DataField)

namespace Sqlite

/-- The named parameters a list of fields is handed over as. -/
def namedParams (params : List DataField) : List (String × DataField) :=
  params.map fun param => (param.getName, param)

/-- Binding one named parameter (`rusqlite`): the statement has to contain the name. -/
def bindParameterNamed (names : List String) (bound : HashMap String DataField)
    (param : String × DataField) : KnowledgeResult (HashMap String DataField) :=
  if param.1 ∈ names then .ok (bound.insert param.1 param.2)
  else .error { reason := .ruleError, detail := "source error" }

/-- Binding named parameters one after the other (`rusqlite`). -/
def bindParametersNamed (names : List String) (params : List (String × DataField)) :
    KnowledgeResult (HashMap String DataField) :=
  params.foldlM (bindParameterNamed names) ∅

/-- The bindings of a statement for a list of fields. -/
def queryFieldsBindings [SqliteEngine] (sql : String) (params : List DataField) :
    KnowledgeResult Bindings :=
  let parameters := SqliteEngine.parameters sql
  (bindParametersNamed (parameters.map Prod.snd) (namedParams params)).map fun bound =>
    parameters.map fun o => (o.1, bound.lookup o.2)

end Sqlite

/-- The bindings {lit}`query_fields_with_scope` of the in-memory database makes. -/
def MemDB.queryFieldsBindings [SqliteEngine] (sql : String) (params : List DataField) :
    KnowledgeResult Bindings :=
  Sqlite.queryFieldsBindings sql params

/-- The bindings {lit}`query_fields_with_scope` of the thread-cloned database makes. -/
def ThreadClonedMDB.queryFieldsBindings [SqliteEngine] (sql : String)
    (params : List DataField) : KnowledgeResult Bindings :=
  Sqlite.queryFieldsBindings sql params

/-- The bindings the PostgreSQL provider makes: the marker `$k` stands for the
field bound as number `k`. -/
def Postgres.queryFieldsBindings (sql : String) (params : List DataField) :
    KnowledgeResult Bindings :=
  (dialect.rewrite sql params).map fun r =>
    (r.occurrences.zip r.markers).map fun (o, marker) =>
      (o.1, match marker with
        | .dollar k => r.ordered[k - 1]?
        | .question => none)

/-- The bindings the MySQL provider makes: the fields are bound to the `?` in order. -/
def Mysql.queryFieldsBindings (sql : String) (params : List DataField) :
    KnowledgeResult Bindings :=
  (dialect.rewrite sql params).map fun r =>
    (r.occurrences.zip r.ordered).map fun (o, field) => (o.1, some field)

/-- The bindings a placeholder gets when it is looked up among the names of the
parameters. -/
def namedBindings (sql : String) (params : List DataField) : Bindings :=
  (occurrences sql).map fun o => (o.1, (paramsByName params).lookup o.2)

section Providers

variable {sql : String} {params : List DataField} {b : Bindings}

/-- A provider that rewrites the statement accepts the parameters when every
placeholder has one, and binds it. -/
theorem Dialect.bindings_eq_some_iff {σ : Type} {dialect : Dialect σ} {f : Rewritten → Bindings}
    (hf : ∀ r, dialect.rewrite sql params = .ok r → f r = namedBindings sql params) :
    ((dialect.rewrite sql params).map f).toOption = some b ↔
      (∀ o ∈ occurrences sql, ((paramsByName params).lookup o.2).isSome) ∧
        b = namedBindings sql params := by
  have haccept := @Dialect.exists_rewrite_eq_ok_iff σ dialect sql params
  rw [← haccept]
  cases hrewrite : dialect.rewrite sql params with
  | error e => simp [Except.map, Except.toOption]
  | ok r =>
      have hr : f r = namedBindings sql params := hf r hrewrite
      simp [Except.map, Except.toOption, hr, eq_comm]

/-- What the PostgreSQL provider binds. -/
theorem Postgres.bindings_eq_some_iff :
    (Postgres.queryFieldsBindings sql params).toOption = some b ↔
      (∀ o ∈ occurrences sql, ((paramsByName params).lookup o.2).isSome) ∧
        b = namedBindings sql params := by
  apply Dialect.bindings_eq_some_iff
  intro r hr
  have hrefers := Postgres.markers_refer hr
  rw [Dialect.occurrences_eq hr, namedBindings]
  -- occurrences and markers run in step
  generalize r.markers = markers, occurrences sql = os at hrefers ⊢
  induction hrefers with
  | nil => rfl
  | @cons marker o markers os hmarker hrest ih =>
      obtain ⟨k, field, rfl, hlookup, hk⟩ := hmarker
      rw [List.zip_cons_cons, List.map_cons, List.map_cons, ih]
      simp [hlookup, hk]

/-- What the MySQL provider binds. -/
theorem Mysql.bindings_eq_some_iff :
    (Mysql.queryFieldsBindings sql params).toOption = some b ↔
      (∀ o ∈ occurrences sql, ((paramsByName params).lookup o.2).isSome) ∧
        b = namedBindings sql params := by
  apply Dialect.bindings_eq_some_iff
  intro r hr
  have hordered := Mysql.map_ordered hr
  rw [Dialect.occurrences_eq hr, namedBindings]
  calc
    ((occurrences sql).zip r.ordered).map (fun (o, field) => (o.1, some field)) =
        ((occurrences sql).zip (r.ordered.map some)).map (fun (o, field) => (o.1, field)) := by
      rw [List.zip_map_right, List.map_map]
      rfl
    _ = (occurrences sql).map fun o => (o.1, (paramsByName params).lookup o.2) := by
      rw [hordered]
      induction occurrences sql with
      | nil => rfl
      | cons o os ih => simpa using ih

variable [SqliteEngine]

omit [SqliteEngine] in
/-- Named parameters are accepted when the statement contains their names. -/
theorem Sqlite.exists_bindParametersNamed_iff (names : List String) (params : List DataField) :
    (∃ bound, Sqlite.bindParametersNamed names (Sqlite.namedParams params) = .ok bound) ↔
      ∀ p ∈ params, p.getName ∈ names := by
  have hstep : ∀ (bound : HashMap String DataField) (param : String × DataField),
      (∃ bound', Sqlite.bindParameterNamed names bound param = .ok bound') ↔ param.1 ∈ names := by
    intro bound param
    unfold Sqlite.bindParameterNamed
    split_ifs with hmem <;> simp [hmem]
  have hfold := Foundation.exists_foldlM_eq_ok_iff hstep (Sqlite.namedParams params) ∅
  rw [Sqlite.bindParametersNamed, hfold]
  simp [Sqlite.namedParams]

omit [SqliteEngine] in
/-- Of two parameters with one name the later is bound. -/
theorem Sqlite.lookup_of_bindParametersNamed {names : List String} {params : List DataField}
    {bound : HashMap String DataField}
    (h : Sqlite.bindParametersNamed names (Sqlite.namedParams params) = .ok bound)
    (name : String) : bound.lookup name = params.reverse.find? fun p => p.getName = name := by
  have hbound : bound =
      (Sqlite.namedParams params).foldl (fun bound param => bound.insert param.1 param.2) ∅ := by
    refine Foundation.foldlM_invariant
      (P := fun ps bound => bound = ps.foldl (fun bound param => bound.insert param.1 param.2) ∅)
      rfl ?_ h
    intro ps bound param bound' hps hstep
    unfold Sqlite.bindParameterNamed at hstep
    split_ifs at hstep with hmem
    cases hstep
    rw [List.foldl_append, ← hps]
    rfl
  rw [hbound, Sqlite.namedParams, List.foldl_map, lookup_foldl_insert DataField.getName]
  simp

/-- What the SQLite providers bind: every name has to be a placeholder as it is
written. -/
theorem Sqlite.bindings_eq_some_iff :
    (Sqlite.queryFieldsBindings sql params).toOption = some b ↔
      (∀ p ∈ params, p.getName ∈ (SqliteEngine.parameters sql).map Prod.snd) ∧
        b = (SqliteEngine.parameters sql).map fun o =>
          (o.1, params.reverse.find? fun p => p.getName = o.2) := by
  unfold Sqlite.queryFieldsBindings
  dsimp only
  have haccept :=
    Sqlite.exists_bindParametersNamed_iff ((SqliteEngine.parameters sql).map Prod.snd) params
  cases hbind : Sqlite.bindParametersNamed ((SqliteEngine.parameters sql).map Prod.snd)
      (Sqlite.namedParams params) with
  | error e =>
      rw [hbind] at haccept
      simp only [Except.map, Except.toOption, reduceCtorEq, false_iff, not_and]
      intro hall
      obtain ⟨bound, hbound⟩ := haccept.mpr hall
      cases hbound
  | ok bound =>
      have hall := haccept.mp ⟨bound, hbind⟩
      have hlookup := Sqlite.lookup_of_bindParametersNamed hbind
      simp only [Except.map, Except.toOption, Option.some.injEq, hlookup]
      constructor
      · rintro rfl
        exact ⟨hall, rfl⟩
      · rintro ⟨-, rfl⟩
        rfl

end Providers

/-! ## When the providers agree -/

section Agreement

variable [SqliteEngine]

/-- Every provider accepts the parameters or none does, and they bind the same
field to every placeholder. -/
def SameBindings (sql : String) (params : List DataField) : Prop :=
  (MemDB.queryFieldsBindings sql params).toOption =
      (Postgres.queryFieldsBindings sql params).toOption ∧
    (ThreadClonedMDB.queryFieldsBindings sql params).toOption =
      (Postgres.queryFieldsBindings sql params).toOption ∧
    (Mysql.queryFieldsBindings sql params).toOption =
      (Postgres.queryFieldsBindings sql params).toOption

/-- Every parameter has the name of a placeholder, written with its colon. -/
def NamesPlaceholders (sql : String) (params : List DataField) : Prop :=
  ∀ p ∈ params, p.getName ∈ (occurrences sql).map Prod.snd

/-- Every placeholder has a parameter, written with the colon or without. -/
def CoversPlaceholders (sql : String) (params : List DataField) : Prop :=
  ∀ name ∈ (occurrences sql).map Prod.snd, ∃ p ∈ params, normalizeParamName p.getName = name

omit [SqliteEngine] in
theorem coversPlaceholders_iff {sql : String} {params : List DataField} :
    CoversPlaceholders sql params ↔
      ∀ o ∈ occurrences sql, ((paramsByName params).lookup o.2).isSome := by
  simp only [CoversPlaceholders, isSome_lookup_paramsByName, List.forall_mem_map]

omit [SqliteEngine] in
/-- If every name is written as a placeholder, then the name as it is written and
the normalised name find the same field. -/
theorem NamesPlaceholders.bindings_eq {sql : String} {params : List DataField}
    (h : NamesPlaceholders sql params) :
    ((occurrences sql).map fun o => (o.1, params.reverse.find? fun p => p.getName = o.2)) =
      namedBindings sql params := by
  have hnorm : ∀ p ∈ params.reverse, normalizeParamName p.getName = p.getName := by
    intro p hp
    rcases List.mem_map.mp (h p (List.mem_reverse.mp hp)) with ⟨o, ho, hname⟩
    rw [← hname]
    exact normalizeParamName_of_mem_occurrences ho
  have hfind : ∀ name, params.reverse.find? (fun p => p.getName = name) =
      params.reverse.find? fun p => normalizeParamName p.getName = name := by
    intro name
    apply List.find?_congr
    intro p hp
    rw [hnorm p hp]
  simp only [namedBindings, lookup_paramsByName, hfind]

/-- **When the providers agree.**  For every statement whose placeholders have the
form `:name` and every list of fields, the four providers agree exactly if
the two conditions they check agree: that every parameter is written with the name
of a placeholder, which only SQLite asks for, and that every placeholder has a
parameter, which only PostgreSQL and MySQL ask for. -/
theorem bindings_agree_iff {sql : String} (hsql : SqliteEngine.parameters sql = occurrences sql)
    (params : List DataField) :
    SameBindings sql params ↔ (NamesPlaceholders sql params ↔ CoversPlaceholders sql params) := by
  have hsqlite := fun b => @Sqlite.bindings_eq_some_iff sql params b _
  simp only [hsql] at hsqlite
  have hpg := fun b => @Postgres.bindings_eq_some_iff sql params b
  have hmy : (Mysql.queryFieldsBindings sql params).toOption =
      (Postgres.queryFieldsBindings sql params).toOption := by
    ext b
    exact Mysql.bindings_eq_some_iff.trans (hpg b).symm
  simp only [← coversPlaceholders_iff] at hpg
  constructor
  · intro hsame
    have heq : (Sqlite.queryFieldsBindings sql params).toOption =
        (Postgres.queryFieldsBindings sql params).toOption := hsame.1
    constructor
    · intro hnames
      have hsome := (hsqlite _).mpr ⟨hnames, rfl⟩
      exact ((hpg _).mp (heq ▸ hsome)).1
    · intro hcovers
      have hsome := (hpg _).mpr ⟨hcovers, rfl⟩
      exact ((hsqlite _).mp (heq ▸ hsome)).1
  · intro hiff
    have heq : (Sqlite.queryFieldsBindings sql params).toOption =
        (Postgres.queryFieldsBindings sql params).toOption := by
      ext b
      rw [hsqlite b, hpg b]
      constructor
      · rintro ⟨hnames, rfl⟩
        exact ⟨hiff.mp hnames, NamesPlaceholders.bindings_eq hnames⟩
      · rintro ⟨hcovers, rfl⟩
        have hnames := hiff.mpr hcovers
        exact ⟨hnames, (NamesPlaceholders.bindings_eq hnames).symm⟩
    exact ⟨heq, heq, hmy⟩

end Agreement

/-- An engine that finds the placeholders the scanner finds, for closed examples. -/
abbrev scanningEngine : SqliteEngine where
  parameters := occurrences

/-- A statement with a placeholder for examples. -/
def lookupSql : String := "SELECT v FROM t WHERE id = :id"

/-- With the name written as the placeholder is, the providers agree. -/
theorem bindings_agree_iff_colon_name :
    letI := scanningEngine
    NamesPlaceholders lookupSql [.fromInt ":id" 7] ∧ SameBindings lookupSql [.fromInt ":id" 7] := by
  let _ := scanningEngine
  have hnames : NamesPlaceholders lookupSql [.fromInt ":id" 7] := by
    simp only [NamesPlaceholders, List.forall_mem_singleton]
    decide +kernel
  have hcovers : CoversPlaceholders lookupSql [.fromInt ":id" 7] := by
    simp only [coversPlaceholders_iff]
    decide +kernel
  exact ⟨hnames, (bindings_agree_iff rfl _).mpr ⟨fun _ => hcovers, fun _ => hnames⟩⟩

/-- With the name written without the colon, PostgreSQL and MySQL accept the
parameter and SQLite does not. -/
theorem bindings_differ_plain_name :
    letI := scanningEngine
    SqliteEngine.parameters lookupSql = occurrences lookupSql ∧
      ¬ SameBindings lookupSql [.fromInt "id" 7] := by
  let _ := scanningEngine
  refine ⟨rfl, ?_⟩
  intro hsame
  have hpg : (Postgres.queryFieldsBindings lookupSql [.fromInt "id" 7]).toOption.isSome = true := by
    decide +kernel
  have hmem : (MemDB.queryFieldsBindings lookupSql [.fromInt "id" 7]).toOption.isSome = false := by
    decide +kernel
  rw [hsame.1, hpg] at hmem
  cases hmem

/-! ## The values of the database -/

/-- A value `sqlx` binds: its type and its content. -/
inductive SqlxValue where
  | bool (v : Bool)
  | int8 (v : Int64)
  | float8 (v : F64)
  | numeric (v : Nat)
  | text (v : Option String)
deriving DecidableEq, Repr

/-- A value of SQLite. -/
inductive SqliteValue where
  | null
  | integer (v : Int64)
  | real (v : F64)
  | text (v : String)
deriving DecidableEq, Repr

section Values

variable [ValueText]

/-- The match both providers on `sqlx` bind a field with. -/
def bindSqlxField (field : DataField) : SqlxValue :=
  match field.getValue with
  | .bool v => .bool v
  | .int v => .int8 v
  -- an integer of any size is bound as a decimal, without loss
  | .bigUint v => .numeric v
  | .float v => .float8 v
  | .null | .ignore => .text none
  | .chars v => .text (some v)
  | .symbol v => .text (some v)
  | .time v => .text (some (ValueText.time v))
  | .hex v => .text (some (ValueText.hex v))
  | .ipNet v => .text (some (ValueText.ipNet v))
  | .ipAddr v => .text (some (ValueText.ipAddr v))
  | .obj v => .text (some (ValueText.objDebug v))
  | .array v => .text (some (ValueText.arrayDebug v))
  | .domain v => .text (some v)
  | .url v => .text (some v)
  | .email v => .text (some v)
  | .idCard v => .text (some v)
  | .mobilePhone v => .text (some v)

/-- The value the PostgreSQL provider binds for a field. -/
def bindPostgresField (field : DataField) : SqlxValue := bindSqlxField field

/-- The value the MySQL provider binds for a field. -/
def bindMysqlField (field : DataField) : SqlxValue := bindSqlxField field

/-- The value the SQLite providers bind for a field ({lit}`ToSql for SqlNamedParam`). -/
def SqlNamedParam.toSql (field : DataField) : SqliteValue :=
  match field.getValue with
  | .bool v => .integer (if v then 1 else 0)
  | .null => .null
  | .chars v => .text v
  | .symbol v => .text v
  | .time v => .text (ValueText.time v)
  | .int v => .integer v
  -- an integer of any size is bound as its decimal text
  | .bigUint v => .text (toString v)
  | .hex v => .text (ValueText.hex v)
  | .float v => .real v
  | .ipNet v => .text (ValueText.ipNet v)
  | .ipAddr v => .text (ValueText.ipAddr v)
  | .ignore => .null
  | .obj v => .text (ValueText.objDebug v)
  | .array v => .text (ValueText.arrayDebug v)
  | .domain v => .text v
  | .url v => .text v
  | .email v => .text v
  | .idCard v => .text v
  | .mobilePhone v => .text v

/-- A field after the way through a request parameter. -/
def viaParam (field : DataField) : DataField :=
  QueryParam.toField { name := field.getName, value := field.getValue.toQueryValue }

/-- The way through a request is the way of each field. -/
theorem paramsToFields_fieldsToParams (fields : List DataField) :
    paramsToFields (fieldsToParams fields) = fields.map viaParam := by
  simp [paramsToFields, fieldsToParams, viaParam, Function.comp_def]

/-- The field holds an integer of any size. -/
def DataField.isBigUint (field : DataField) : Bool :=
  match field.getValue with
  | .bigUint _ => true
  | _ => false

/-- A binder of `sqlx` sees the way through a request on the integers of any size. -/
theorem bindSqlxField_viaParam_iff (field : DataField) :
    bindSqlxField (viaParam field) = bindSqlxField field ↔ field.isBigUint = false := by
  obtain ⟨name, value⟩ := field
  cases value <;> simp [bindSqlxField, viaParam, Value.toQueryValue, QueryParam.toField,
    DataField.isBigUint, DataField.fromInt, DataField.fromFloat, DataField.fromChars]

/-- SQLite does not see the way through a request. -/
theorem toSql_viaParam (field : DataField) :
    SqlNamedParam.toSql (viaParam field) = SqlNamedParam.toSql field := by
  obtain ⟨name, value⟩ := field
  cases value <;> simp [SqlNamedParam.toSql, viaParam, Value.toQueryValue, QueryParam.toField,
    DataField.fromInt, DataField.fromFloat, DataField.fromChars]

/-- A binder gives the same values, position by position, for a list of fields and
for the fields the runtime makes of the request parameters of the list. -/
def BindsAlike {ω : Type} (binder : DataField → ω) (fields : List DataField) : Prop :=
  (paramsToFields (fieldsToParams fields)).map binder = fields.map binder

/-- Lists are bound alike when each of their fields is. -/
theorem bindsAlike_iff {ω : Type} (binder : DataField → ω) (fields : List DataField) :
    BindsAlike binder fields ↔ ∀ f ∈ fields, binder (viaParam f) = binder f := by
  rw [BindsAlike, paramsToFields_fieldsToParams, List.map_map]
  exact List.map_inj_left

/-- **When a request binds what the fields bind.**  The three binders give the
same values on both paths exactly if no field holds an integer of any size; those
become texts on the way through a request, where PostgreSQL and MySQL otherwise
bind a decimal. -/
theorem bind_alike_iff (fields : List DataField) :
    (BindsAlike bindPostgresField fields ∧ BindsAlike bindMysqlField fields ∧
        BindsAlike SqlNamedParam.toSql fields) ↔ ∀ f ∈ fields, f.isBigUint = false := by
  have hsqlx : ∀ f, bindSqlxField (viaParam f) = bindSqlxField f ↔ f.isBigUint = false :=
    bindSqlxField_viaParam_iff
  constructor
  · intro ⟨hpg, _, _⟩ f hf
    exact (hsqlx f).mp ((bindsAlike_iff _ _).mp hpg f hf)
  · intro hnone
    have halike : BindsAlike bindSqlxField fields :=
      (bindsAlike_iff _ _).mpr fun f hf => (hsqlx f).mpr (hnone f hf)
    exact ⟨halike, halike, (bindsAlike_iff _ _).mpr fun f _ => toSql_viaParam f⟩

end Values

/-- An integer of any size is bound as a decimal on one path and as a text on the
other. -/
theorem bindPostgresField_of_bigUint :
    letI := numericText
    ¬ (BindsAlike bindPostgresField [.new "n" (.bigUint 18446744073709551616)] ∧
      BindsAlike bindMysqlField [.new "n" (.bigUint 18446744073709551616)] ∧
      BindsAlike SqlNamedParam.toSql [.new "n" (.bigUint 18446744073709551616)]) := by
  let _ := numericText
  intro ⟨hpg, _, _⟩
  have hvalue : (paramsToFields (fieldsToParams [.new "n" (.bigUint 18446744073709551616)])).map
      bindPostgresField = [.text (some "18446744073709551616")] := by
    decide +kernel
  rw [BindsAlike, hvalue] at hpg
  cases hpg

end WpKnowledge
