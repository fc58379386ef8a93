import Mathlib.Data.List.Find
import WpKnowledge.Foundation.Overwrite
import WpKnowledge.Foundation.Quoting
import WpKnowledge.Foundation.Text
import WpKnowledge.Foundation.Utf8
import WpKnowledge.Loader.Settings

/-!
# The session settings of PostgreSQL connections

A database may be declared with settings for its sessions.  They become `SET` statements,
which run on every connection the pool opens, and the values that `validate_startup` wants
to find in them.

How PostgreSQL reads such a statement is stated here: a name, and a word or a string in
which the quote is doubled.  It is assumed that {lit}`standard_conforming_strings` is on, as
it is unless somebody turns it off: with it off a backslash in a string is an escape.  What a
server keeps of a value is the parameter {lit}`PgServer`, with what is documented of the
three settings: the name of an application is kept if all of it is printable ASCII, and else
altered.

Main results:

- Theorem {lit}`statements_read`: PostgreSQL reads each statement as the setting it is made
  for, whatever the name of the application is.
- Theorem {lit}`declaredSession_applied`: what the statements leave in a session are the
  declared settings.
- Theorem {lit}`startup_of_validated`: a declaration that passes the check of the
  configuration starts exactly if the name of its application is printable ASCII.
-/

namespace WpKnowledge

open Foundation

/-! ## The statements as PostgreSQL reads them -/

/-- The characters of words in the statements. -/
def isWordChar (c : Char) : Bool :=
  c.isAlphanum || c == '_'

/-- The value of a setting: a word, or a string up to the end of the statement, with
{lit}`standard_conforming_strings` on. -/
def readValue : List Char → Option String
  | '\'' :: rest =>
      match readQuoted '\'' rest with
      | some (text, []) => some (String.ofList text)
      | _ => none
  | word => if word ≠ [] && word.all isWordChar then some (String.ofList word) else none

/-- Read a name and the value it is set to. -/
def readAssignment (text : List Char) : Option (String × String) :=
  match text.dropWhile isWordChar with
  | ' ' :: '=' :: ' ' :: value =>
      (readValue value).map fun v => (String.ofList (text.takeWhile isWordChar), v)
  | _ => none

/-- Read a statement that sets a parameter: its name and its value. -/
def readSet (statement : String) : Option (String × String) :=
  match statement.toList with
  | 'S' :: 'E' :: 'T' :: ' ' :: text => readAssignment text
  | _ => none

/-- The name of a parameter. -/
def PgParam.settingName : PgParam → String
  | .planCacheMode => "plan_cache_mode"
  | .jit => "jit"
  | .applicationName => "application_name"

theorem PgParam.settingName_injective {param other : PgParam}
    (h : param.settingName = other.settingName) : param = other := by
  cases param <;> cases other <;> first | rfl | exact absurd h (by decide)

/-- Printable ASCII. -/
def isPrintableAscii (c : Char) : Bool :=
  32 ≤ c.toNat && c.toNat ≤ 126

/-- What PostgreSQL calls a mode. -/
def planCacheModeWord : Loader.PlanCacheMode → String
  | .auto => "auto"
  | .forceGenericPlan => "force_generic_plan"
  | .forceCustomPlan => "force_custom_plan"

/-- What PostgreSQL calls a switch that is on or off. -/
def switchWord (on : Bool) : String :=
  if on then "on" else "off"

/-- A server: what it keeps of the value a parameter is set to. -/
structure PgServer where
  keep : String → String → String
  keep_planCacheMode : ∀ mode : Loader.PlanCacheMode,
    keep "plan_cache_mode" (planCacheModeWord mode) = planCacheModeWord mode
  keep_jit : ∀ on : Bool, keep "jit" (switchWord on) = switchWord on
  keep_applicationName : ∀ app : String, app.toList.all isPrintableAscii = true →
    app.utf8ByteSize ≤ 63 → keep "application_name" app = app
  keep_applicationName_ne : ∀ app : String, app.toList.all isPrintableAscii = false →
    keep "application_name" app ≠ app

/-- The settings of a session, by their names (`current_setting`). -/
abbrev PgSession := String → String

/-- A session opened as declared: each setting that is declared has its value, the name of
the application as the server keeps it; the others are those of a fresh session. -/
structure DeclaredSession (server : PgServer) (spec : Loader.PostgresSessionSpec)
    (fresh opened : PgSession) : Prop where
  planCacheMode : opened "plan_cache_mode" =
    (spec.planCacheMode.map planCacheModeWord).getD (fresh "plan_cache_mode")
  jit : opened "jit" = (spec.jit.map switchWord).getD (fresh "jit")
  applicationName : opened "application_name" =
    (spec.applicationName.map (server.keep "application_name")).getD (fresh "application_name")
  others : ∀ name, name ∉ ["plan_cache_mode", "jit", "application_name"] →
    opened name = fresh name

/-- Run a statement in a session, if it is one that sets a parameter. -/
def PgServer.execute (server : PgServer) (session : PgSession) (statement : String) :
    Option PgSession :=
  (readSet statement).map fun (name, value) =>
    Function.update session name (server.keep name value)

/-- Run the statements on a new connection (`after_connect`). -/
def PgServer.afterConnect (server : PgServer) (config : PostgresSessionConfig)
    (session : PgSession) : Option PgSession :=
  config.initStatements.foldlM server.execute session

section Startup

variable (isPrintable : Char → Bool) (providerName : String) (session : PgSession)

/-- The error of a value that is not as expected. -/
def sessionMismatch (param : PgParam) (expected : String) : KnowledgeError :=
  { reason := .coreConf
    detail := "postgres provider '" ++ providerName ++ "': session parameter '" ++
      param.settingName ++ "' mismatch: expected " ++ debugStr isPrintable expected.toList ++
      ", actual " ++ debugStr isPrintable (session param.settingName).toList }

/-- The loop over the expectations. -/
def checkExpectations : List (PgParam × String) → KnowledgeResult Unit
  | [] => .ok ()
  | (param, expected) :: rest =>
      if session param.settingName ≠ expected then
        .error (sessionMismatch isPrintable providerName session param expected)
      else checkExpectations rest

/-- `validate_startup` on a connection that answers. -/
def validateStartup (config : Option PostgresSessionConfig) : KnowledgeResult Unit :=
  match config with
  | some config => checkExpectations isPrintable providerName session config.expectations
  | none => .ok ()

end Startup

/-! ## Every statement is read as it is meant -/

/-- Replacing one quote by two doubles the quotes. -/
theorem replaceFrom_quote (text : List Char) :
    Loader.replaceFrom ['\''] ['\'', '\''] text = doubled '\'' text := by
  induction text with
  | nil => simp [Loader.replaceFrom, doubled]
  | cons c text ih =>
      rw [Loader.replaceFrom, doubled, List.flatMap_cons, ← doubled, ← ih]
      by_cases hc : c = '\''
      · simp [hc]
      · simp [List.isPrefixOf, hc, Ne.symm hc]

/-- A statement of a name and a value. -/
theorem readSet_of_parts {statement : String} {name value : List Char}
    (hname : ∀ c ∈ name, isWordChar c = true)
    (htext : statement.toList =
      'S' :: 'E' :: 'T' :: ' ' :: (name ++ ' ' :: '=' :: ' ' :: value)) :
    readSet statement = (readValue value).map fun v => (String.ofList name, v) := by
  have hrest : (name ++ ' ' :: '=' :: ' ' :: value).dropWhile isWordChar =
      ' ' :: '=' :: ' ' :: value := by
    rw [List.dropWhile_append_of_pos hname]
    rfl
  have htaken : (name ++ ' ' :: '=' :: ' ' :: value).takeWhile isWordChar = name := by
    rw [List.takeWhile_append_of_pos hname]
    exact List.append_nil name
  unfold readSet
  rw [htext]
  change readAssignment (name ++ ' ' :: '=' :: ' ' :: value) = _
  unfold readAssignment
  rw [hrest, htaken]
  rfl

/-- A quoted text is read as the text, whatever it is. -/
theorem readValue_quoted (text : List Char) :
    readValue ('\'' :: (doubled '\'' text ++ ['\''])) = some (String.ofList text) := by
  have hread : readQuoted '\'' (doubled '\'' text ++ ['\'']) = some (text, []) :=
    readQuoted_doubled '\'' text (by simp)
  change (match readQuoted '\'' (doubled '\'' text ++ ['\'']) with
    | some (text, []) => some (String.ofList text)
    | _ => none) = _
  rw [hread]

/-- PostgreSQL reads a statement as the expectation that goes with it. -/
def ReadsAs (statement : String) (expectation : PgParam × String) : Prop :=
  readSet statement = some (expectation.1.settingName, expectation.2)

theorem readsAs_planCacheMode (mode : Loader.PlanCacheMode) :
    ReadsAs ("SET plan_cache_mode = " ++ mode.toSqlValue) (.planCacheMode, mode.toSqlValue) := by
  unfold ReadsAs
  cases mode <;> decide +kernel

theorem readsAs_jit (on : Bool) :
    ReadsAs ("SET jit = " ++ if on then "on" else "off") (.jit, if on then "on" else "off") := by
  unfold ReadsAs
  cases on <;> decide +kernel

/-- The name of the application cannot break out of its quotes. -/
theorem readsAs_applicationName (app : String) :
    ReadsAs ("SET application_name = '" ++
      String.ofList (Loader.replaceFrom ['\''] ['\'', '\''] app.toList) ++ "'")
      (.applicationName, app) := by
  have hname : ∀ c ∈ "application_name".toList, isWordChar c = true :=
    List.all_eq_true.mp (by decide +kernel)
  have htext : ("SET application_name = '" ++
      String.ofList (Loader.replaceFrom ['\''] ['\'', '\''] app.toList) ++ "'").toList =
      'S' :: 'E' :: 'T' :: ' ' :: ("application_name".toList ++
        ' ' :: '=' :: ' ' :: ('\'' :: (doubled '\'' app.toList ++ ['\'']))) := by
    simp only [replaceFrom_quote, String.toList_append, String.toList_ofList, List.append_assoc]
    rfl
  rw [ReadsAs, readSet_of_parts hname htext, readValue_quoted]
  simp [PgParam.settingName]

/-- A statement for a setting that is given, and none for one that is not. -/
theorem forall₂_setting {param : PgParam} {statement : String → String} {value : Option String}
    (h : ∀ v ∈ value, ReadsAs (statement v) (param, v)) :
    List.Forall₂ ReadsAs (PostgresSessionConfig.setting param statement value).initStatements
      (PostgresSessionConfig.setting param statement value).expectations := by
  cases value with
  | none => exact .nil
  | some v => exact .cons (h v rfl) .nil

/-- PostgreSQL reads each statement as the setting it is made for. -/
theorem statements_read (spec : Loader.PostgresSessionSpec) :
    List.Forall₂ ReadsAs (PostgresSessionConfig.fromSpec spec).initStatements
      (PostgresSessionConfig.fromSpec spec).expectations := by
  simp only [PostgresSessionConfig.fromSpec, List.flatMap_cons, List.flatMap_nil, List.append_nil]
  refine List.rel_append (forall₂_setting ?_) (List.rel_append (forall₂_setting ?_)
    (forall₂_setting ?_))
  · intro v hv
    obtain ⟨mode, -, rfl⟩ := Option.map_eq_some_iff.mp hv
    exact readsAs_planCacheMode mode
  · intro v hv
    obtain ⟨on, -, rfl⟩ := Option.map_eq_some_iff.mp hv
    exact readsAs_jit on
  · exact fun app _ => readsAs_applicationName app

/-! ## What the statements leave in a session -/

/-- The session after its parameters have been set. -/
def PgServer.applied (server : PgServer) (expectations : List (PgParam × String))
    (session : PgSession) : PgSession :=
  expectations.foldl (fun session e =>
    Function.update session e.1.settingName (server.keep e.1.settingName e.2)) session

/-- All statements run, and each sets what it is made for. -/
theorem PgServer.afterConnect_eq (server : PgServer) (spec : Loader.PostgresSessionSpec)
    (session : PgSession) :
    server.afterConnect (.fromSpec spec) session =
      some (server.applied (PostgresSessionConfig.fromSpec spec).expectations session) := by
  have hread := statements_read spec
  unfold afterConnect
  generalize (PostgresSessionConfig.fromSpec spec).initStatements = statements,
    (PostgresSessionConfig.fromSpec spec).expectations = expectations at hread ⊢
  induction hread generalizing session with
  | nil => rfl
  | @cons statement e statements expectations hstatement hrest ih =>
      have hexecute : server.execute session statement =
          some (Function.update session e.1.settingName (server.keep e.1.settingName e.2)) := by
        rw [execute, hstatement]
        rfl
      rw [List.foldlM_cons, hexecute]
      exact ih _

/-- The session is assigned what the server keeps of each value. -/
theorem PgServer.applied_eq_assignAll (server : PgServer) (expectations : List (PgParam × String))
    (session : PgSession) :
    server.applied expectations session =
      assignAll session (expectations.map fun e =>
        (e.1.settingName, server.keep e.1.settingName e.2)) := by
  rw [applied, assignAll, List.foldl_map]

/-- Other parameters are left alone. -/
theorem PgServer.applied_of_not_mem (server : PgServer) {expectations : List (PgParam × String)}
    {name : String} (h : name ∉ expectations.map fun e => e.1.settingName)
    (session : PgSession) : server.applied expectations session name = session name := by
  rw [applied_eq_assignAll]
  apply assignAll_of_not_mem
  rwa [List.map_map]

/-- A parameter that is set once has what the server keeps of its value. -/
theorem PgServer.applied_of_mem (server : PgServer) {expectations : List (PgParam × String)}
    (hnodup : (expectations.map fun e => e.1.settingName).Nodup) {e : PgParam × String}
    (he : e ∈ expectations) (session : PgSession) :
    server.applied expectations session e.1.settingName = server.keep e.1.settingName e.2 := by
  rw [applied_eq_assignAll]
  refine assignAll_of_mem ?_ (List.mem_map_of_mem he) session
  rwa [List.map_map]

/-- The value that is declared for a parameter. -/
def PgParam.declared (spec : Loader.PostgresSessionSpec) : PgParam → Option String
  | .planCacheMode => spec.planCacheMode.map planCacheModeWord
  | .jit => spec.jit.map switchWord
  | .applicationName => spec.applicationName

theorem toSqlValue_eq (mode : Loader.PlanCacheMode) : mode.toSqlValue = planCacheModeWord mode := by
  cases mode <;> rfl

/-- The expectations are the declared values. -/
theorem mem_expectations_iff {spec : Loader.PostgresSessionSpec} {param : PgParam}
    {value : String} : (param, value) ∈ (PostgresSessionConfig.fromSpec spec).expectations ↔
      param.declared spec = some value := by
  cases param <;>
    simp [PostgresSessionConfig.fromSpec, PostgresSessionConfig.setting, PgParam.declared,
      toSqlValue_eq, switchWord]

/-- No parameter is set twice. -/
theorem nodup_expectations (spec : Loader.PostgresSessionSpec) :
    ((PostgresSessionConfig.fromSpec spec).expectations.map fun e => e.1.settingName).Nodup := by
  obtain ⟨mode, on, app⟩ := spec
  cases mode <;> cases on <;> cases app <;>
    simp [PostgresSessionConfig.fromSpec, PostgresSessionConfig.setting, PgParam.settingName]

/-- A parameter has what the server keeps of its declared value, or what it had. -/
theorem PgServer.applied_settingName (server : PgServer) (spec : Loader.PostgresSessionSpec)
    (fresh : PgSession) (param : PgParam) :
    server.applied (PostgresSessionConfig.fromSpec spec).expectations fresh param.settingName =
      ((param.declared spec).map (server.keep param.settingName)).getD
        (fresh param.settingName) := by
  cases hdeclared : param.declared spec with
  | some value =>
      exact server.applied_of_mem (nodup_expectations spec) (mem_expectations_iff.mpr hdeclared)
        fresh
  | none =>
      refine server.applied_of_not_mem (fun hmem => ?_) fresh
      obtain ⟨⟨other, value⟩, he, hname⟩ := List.mem_map.mp hmem
      obtain rfl := PgParam.settingName_injective hname
      rw [mem_expectations_iff.mp he] at hdeclared
      cases hdeclared

/-- What the statements leave in a session are the declared settings. -/
theorem declaredSession_applied (server : PgServer) (spec : Loader.PostgresSessionSpec)
    (fresh : PgSession) :
    DeclaredSession server spec fresh
      (server.applied (PostgresSessionConfig.fromSpec spec).expectations fresh) where
  planCacheMode := by
    have hkept := server.applied_settingName spec fresh .planCacheMode
    have hword : server.keep "plan_cache_mode" ∘ planCacheModeWord = planCacheModeWord :=
      funext server.keep_planCacheMode
    simpa only [PgParam.declared, Option.map_map, PgParam.settingName, hword] using hkept
  jit := by
    have hkept := server.applied_settingName spec fresh .jit
    have hword : server.keep "jit" ∘ switchWord = switchWord := funext server.keep_jit
    simpa only [PgParam.declared, Option.map_map, PgParam.settingName, hword] using hkept
  applicationName := server.applied_settingName spec fresh .applicationName
  others name hname := by
    refine server.applied_of_not_mem (fun hmem => hname ?_) fresh
    obtain ⟨⟨param, value⟩, -, rfl⟩ := List.mem_map.mp hmem
    cases param <;> simp [PgParam.settingName]

/-! ## Startup -/

/-- The first value that is not as expected decides. -/
theorem checkExpectations_eq (isPrintable : Char → Bool) (providerName : String)
    (session : PgSession) (expectations : List (PgParam × String)) :
    checkExpectations isPrintable providerName session expectations =
      match expectations.find? fun e => session e.1.settingName ≠ e.2 with
      | some e => .error (sessionMismatch isPrintable providerName session e.1 e.2)
      | none => .ok () := by
  induction expectations with
  | nil => rfl
  | cons e expectations ih =>
      obtain ⟨param, expected⟩ := e
      rw [checkExpectations, List.find?_cons]
      by_cases h : session param.settingName = expected
      · simp [h, ih]
      · simp [h]

/-- The one value of a setting, if a server alters it. -/
theorem find?_setting (server : PgServer) (param : PgParam) (statement : String → String)
    (value : Option String) :
    ((PostgresSessionConfig.setting param statement value).expectations.find? fun e =>
        server.keep e.1.settingName e.2 ≠ e.2) =
      (value.filter fun v => server.keep param.settingName v ≠ v).map (param, ·) := by
  cases value with
  | none => rfl
  | some v =>
      by_cases h : server.keep param.settingName v = v <;>
        simp [PostgresSessionConfig.setting, Option.filter, h]

/-- A server that keeps a value alters nothing. -/
theorem filter_kept (server : PgServer) {param : PgParam} {value : Option String}
    (h : ∀ v ∈ value, server.keep param.settingName v = v) :
    (value.filter fun v => server.keep param.settingName v ≠ v) = none := by
  rw [Option.filter_eq_none_iff]
  intro v hv
  simp [h v hv]

/-- Of an accepted declaration a server keeps all settings but maybe the application's name. -/
theorem find?_not_kept (server : PgServer) {session : Loader.PostgresSessionSpec}
    (hshort : ∀ app ∈ session.applicationName, app.utf8ByteSize ≤ 63) :
    ((PostgresSessionConfig.fromSpec session).expectations.find? fun e =>
        server.keep e.1.settingName e.2 ≠ e.2) =
      (session.applicationName.filter fun app => !app.toList.all isPrintableAscii).map
        (PgParam.applicationName, ·) := by
  have hmode : ∀ v ∈ session.planCacheMode.map Loader.PlanCacheMode.toSqlValue,
      server.keep PgParam.planCacheMode.settingName v = v := by
    intro v hv
    obtain ⟨mode, -, rfl⟩ := Option.map_eq_some_iff.mp hv
    rw [toSqlValue_eq]
    exact server.keep_planCacheMode mode
  have hjit : ∀ v ∈ session.jit.map fun on => if on then "on" else "off",
      server.keep PgParam.jit.settingName v = v := by
    intro v hv
    obtain ⟨on, -, rfl⟩ := Option.map_eq_some_iff.mp hv
    exact server.keep_jit on
  have happ : (session.applicationName.filter fun v => server.keep "application_name" v ≠ v) =
        session.applicationName.filter fun app => !app.toList.all isPrintableAscii := by
    cases hname : session.applicationName with
    | none => rfl
    | some app =>
        cases hascii : app.toList.all isPrintableAscii with
        | true =>
            have hkept := server.keep_applicationName app hascii (hshort app hname)
            simp [Option.filter, hkept, hascii]
        | false =>
            have haltered := server.keep_applicationName_ne app hascii
            simp [Option.filter, haltered, hascii]
  simp only [PostgresSessionConfig.fromSpec, List.flatMap_cons, List.flatMap_nil, List.append_nil,
    List.find?_append, find?_setting, filter_kept server hmode, filter_kept server hjit,
    Option.map_none, Option.none_or]
  exact congrArg (Option.map _) happ

/-- **Startup of a PostgreSQL provider with session settings.**  For every declaration that
passes the check of the configuration, whatever the name of its application contains, the
statements run on every new connection: the plan cache mode, the switch and the name of the
application are then the declared ones, where they are declared, and everything else is as
it was.  A startup on such a connection is accepted exactly if all of the name is printable
ASCII.  Any other name is refused with an error that names the parameter, although the check
of the configuration has let it pass. -/
theorem startup_of_validated (server : PgServer) (isPrintable : Char → Bool)
    (providerName : String) {spec : Loader.SqlProviderSpec} {session : Loader.PostgresSessionSpec}
    (hsession : spec.postgresSession = some session) (hvalid : spec.validateSession = .ok ())
    (fresh : PgSession) :
    ∃ config opened, (buildPostgresConfig spec).session = some config ∧
      server.afterConnect config fresh = some opened ∧
      DeclaredSession server session fresh opened ∧
      validateStartup isPrintable providerName opened (some config) =
        match session.applicationName.filter fun app => !app.toList.all isPrintableAscii with
        | some app =>
            .error (sessionMismatch isPrintable providerName opened .applicationName app)
        | none => .ok () := by
  have hshort : ∀ app ∈ session.applicationName, app.utf8ByteSize ≤ 63 := by
    intro app happ
    unfold Loader.SqlProviderSpec.validateSession at hvalid
    rw [hsession] at hvalid
    dsimp only at hvalid
    split at hvalid
    · cases hvalid
    · split at hvalid
      · cases hvalid
      · rename_i hany
        rw [Option.mem_def.mp happ] at hany
        simp only [Option.any_some, Bool.or_eq_true, decide_eq_true_eq, not_or] at hany
        omega
  have hset := fun e he => @PgServer.applied_of_mem server _ (nodup_expectations session) e he fresh
  have hconfig : (buildPostgresConfig spec).session = some (.fromSpec session) := by
    rw [buildPostgresConfig, hsession]
    rfl
  refine ⟨_, _, hconfig, server.afterConnect_eq session fresh,
    declaredSession_applied server session fresh, ?_⟩
  have hfind : ((PostgresSessionConfig.fromSpec session).expectations.find? fun e =>
      server.applied (PostgresSessionConfig.fromSpec session).expectations fresh
        e.1.settingName ≠ e.2) =
      (PostgresSessionConfig.fromSpec session).expectations.find? fun e =>
        server.keep e.1.settingName e.2 ≠ e.2 :=
    List.find?_congr fun e he => by rw [hset e he]
  rw [validateStartup, checkExpectations_eq, hfind, find?_not_kept server hshort]
  cases session.applicationName.filter fun app => !app.toList.all isPrintableAscii <;> rfl

/-! ## A server that puts question marks -/

/-- A name in printable ASCII and of 63 bytes at most. -/
def questionMarked (app : String) : String :=
  String.ofList ((app.toUTF8.toList.map fun b =>
    if 32 ≤ b && b ≤ 126 then Char.ofNat b.toNat else '?').take 63)

/-- What is left of a name is printable. -/
theorem questionMarked_printable (app : String) :
    (questionMarked app).toList.all isPrintableAscii = true := by
  have hall : ∀ n < 256, isPrintableAscii (if 32 ≤ UInt8.ofNat n && UInt8.ofNat n ≤ 126 then
      Char.ofNat (UInt8.ofNat n).toNat else '?') = true := by
    decide +kernel
  rw [questionMarked, String.toList_ofList, List.all_eq_true]
  intro c hc
  obtain ⟨b, -, rfl⟩ := List.mem_map.mp (List.mem_of_mem_take hc)
  simpa using hall b.toNat b.toNat_lt

/-- A name that is printable ASCII is left as it is. -/
theorem questionMarked_of_printable {app : String} (happ : app.toList.all isPrintableAscii = true)
    (hshort : app.utf8ByteSize ≤ 63) : questionMarked app = app := by
  have hprintable : ∀ c ∈ app.toList, 32 ≤ c.toNat ∧ c.toNat ≤ 126 := by
    simpa [isPrintableAscii] using happ
  have hascii : ∀ c ∈ app.toList, c.toNat < 128 := fun c hc => by
    have hc' := hprintable c hc
    omega
  have hlength : app.toList.length ≤ 63 := by
    rw [← (length_toUTF8_eq_iff app).mpr hascii, byteArray_toList]
    exact hshort
  have hbytes : (app.toUTF8.toList.map fun b =>
      if 32 ≤ b && b ≤ 126 then Char.ofNat b.toNat else '?') = app.toList := by
    rw [toList_toUTF8, flatMap_utf8EncodeChar_of_ascii hascii, List.map_map]
    have hchar : ∀ n < 128, 32 ≤ n → n ≤ 126 → (if 32 ≤ UInt8.ofNat n && UInt8.ofNat n ≤ 126 then
        Char.ofNat (UInt8.ofNat n).toNat else '?') = Char.ofNat n := by
      decide +kernel
    refine (List.map_congr_left fun c hc => ?_).trans (List.map_id _)
    have hc' := hprintable c hc
    exact (hchar c.toNat (hascii c hc) hc'.1 hc'.2).trans (Char.ofNat_toNat c)
  rw [questionMarked, hbytes, List.take_of_length_le hlength, String.ofList_toList]

/-- A server that keeps what it is given, but for the names of applications. -/
def questionMarkServer : PgServer where
  keep name value :=
    if name = "application_name" then questionMarked value else value
  keep_planCacheMode _ := rfl
  keep_jit _ := rfl
  keep_applicationName _ happ hshort := questionMarked_of_printable happ hshort
  keep_applicationName_ne app happ heq := by
    have hprintable := questionMarked_printable app
    rw [if_pos rfl] at heq
    rw [heq, happ] at hprintable
    cases hprintable

/-- A declaration with settings for its sessions. -/
def namedProvider (app : String) : Loader.SqlProviderSpec where
  kind := .postgres
  connectionUri := "postgres://demo@127.0.0.1/db"
  postgresSession := some { jit := some false, applicationName := some app }

/-- A name with a quote starts, and a name in Greek passes the check and does not. -/
theorem startup_of_validated_names :
    (∃ config opened, (buildPostgresConfig (namedProvider "ip_geo's")).session = some config ∧
      questionMarkServer.afterConnect config (fun _ => "fresh") = some opened ∧
      opened "jit" = "off" ∧ opened "application_name" = "ip_geo's" ∧
      opened "plan_cache_mode" = "fresh" ∧
      validateStartup (fun _ => true) "geo" opened (some config) = .ok ()) ∧
    ∃ config opened, (buildPostgresConfig (namedProvider "γεω")).session = some config ∧
      questionMarkServer.afterConnect config (fun _ => "fresh") = some opened ∧
      validateStartup (fun _ => true) "geo" opened (some config) =
        .error (sessionMismatch (fun _ => true) "geo" opened .applicationName "γεω") := by
  have hquote : (namedProvider "ip_geo's").validateSession = .ok () := by decide +kernel
  have hgreek : (namedProvider "γεω").validateSession = .ok () := by decide +kernel
  obtain ⟨config, opened, hconfig, hopened, hdeclared, hstartup⟩ :=
    startup_of_validated questionMarkServer (fun _ => true) "geo" rfl hquote fun _ => "fresh"
  obtain ⟨config', opened', hconfig', hopened', -, hstartup'⟩ :=
    startup_of_validated questionMarkServer (fun _ => true) "geo" rfl hgreek fun _ => "fresh"
  have hkept : (some "ip_geo's").filter (fun app => !app.toList.all isPrintableAscii) = none := by
    decide +kernel
  have haltered : (some "γεω").filter (fun app => !app.toList.all isPrintableAscii) =
      some "γεω" := by
    decide +kernel
  have hname : questionMarkServer.keep "application_name" "ip_geo's" = "ip_geo's" :=
    questionMarkServer.keep_applicationName _ (by decide +kernel) (by decide +kernel)
  refine ⟨⟨config, opened, hconfig, hopened, hdeclared.jit, ?_, hdeclared.planCacheMode, ?_⟩,
    config', opened', hconfig', hopened', ?_⟩
  · exact hdeclared.applicationName.trans hname
  · dsimp only at hstartup
    rwa [hkept] at hstartup
  · dsimp only at hstartup'
    rwa [haltered] at hstartup'

end WpKnowledge
