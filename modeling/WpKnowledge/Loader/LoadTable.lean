import WpKnowledge.Foundation.Text
import WpKnowledge.Model.Query

/-!
# Loading the authority database

A KnowDB configuration names tables; each has a directory with the scripts
`create.sql`, `insert.sql` and possibly `clean.sql` and a CSV file.  Loading a
table runs the create and the clean script and then inserts the records of the
file, in transactions of {lit}`batch_size` rows.

The file system, the TOML parser, the CSV reader and SQLite belong to code outside
the crate; they are the parameters {lit}`Environment` and {lit}`Engine`.  A database
is a value of an arbitrary type {lit}`δ`: the file as other connections read it,
without the writes of an open transaction.  Every function that touches it
returns it along with its result, since an error does not undo what is committed.
The scripts are taken to leave no transaction open.
-/

namespace WpKnowledge

namespace Loader

/-! ## Configuration -/

/-- What to do with a bad record. -/
inductive OnError where
  | fail
  | skip
deriving DecidableEq, Repr

/-- How records are inserted. -/
structure OptLoadSpec where
  transaction : Bool := true
  batchSize : Nat := 2000
  onError : OnError := .fail
deriving DecidableEq, Repr

/-- How CSV files are read. -/
structure CsvSpec where
  hasHeader : Bool := true
  delimiter : String := ","
  encoding : String := "utf-8"
  trim : Bool := true
deriving DecidableEq, Repr

/-- Which columns of a record are inserted. -/
structure ColumnsSpec where
  byHeader : List String := []
  byIndex : List Nat := []
deriving DecidableEq, Repr

/-- How many rows a table should have. -/
structure RowExpect where
  min : Option Nat := none
  max : Option Nat := none
deriving DecidableEq, Repr

/-- A table of the configuration. -/
structure TableSpec where
  name : String
  dir : Option String := none
  dataFile : Option String := none
  columns : ColumnsSpec
  expectedRows : RowExpect := {}
  enabled : Bool := true
deriving DecidableEq, Repr

/-- The part of a KnowDB configuration the loader reads. -/
structure KnowDbConf where
  version : Nat
  baseDir : String := "."
  default : OptLoadSpec := {}
  csv : CsvSpec := {}
  tables : List TableSpec := []
deriving DecidableEq, Repr

/-! ## Files -/

/-- What there is at a path. -/
inductive FileEntry where
  | missing
  | unreadable
  | contents (bytes : ByteArray)

/-- A record the CSV reader yields. -/
inductive CsvRecord where
  | fields (record : List String)
  | malformed
deriving DecidableEq, Repr

/-- What the CSV reader makes of a file: the header, unless it is malformed, and
the records. -/
structure CsvData where
  headers : Option (List String)
  records : List CsvRecord

/-- The options the CSV reader is built with. -/
structure CsvReader where
  hasHeaders : Bool
  delimiter : Option UInt8
  trim : Bool

/-- The world around the loader: files, the parser of the configuration with its
environment variables, the CSV reader, and the characters a debug text holds as they
are. -/
structure Environment where
  files : String → FileEntry
  parseToml : String → Option KnowDbConf
  readCsv : CsvReader → ByteArray → CsvData
  isPrintable : Char → Bool

/-- A path relative to a directory; an absolute one stands for itself. -/
def joinRel (base rel : String) : String :=
  if rel.toList.head? = some '/' then rel
  else if base.toList.getLast?.getD '/' = '/' then base ++ rel
  else base ++ "/" ++ rel

/-- The directory of a file. -/
def parentDir (path : String) : String :=
  match (path.toList.reverse.dropWhile (· ≠ '/')).reverse with
  | [] => ""
  | ['/'] => "/"
  | dir => String.ofList dir.dropLast

/-- An occurrence of the pattern at the head of the text is replaced, then the
rest. -/
def replaceFrom (pattern replacement : List Char) (text : List Char) : List Char :=
  match text with
  | [] => []
  | c :: rest =>
      if pattern.isPrefixOf (c :: rest) then
        replacement ++ replaceFrom pattern replacement (rest.drop (pattern.length - 1))
      else c :: replaceFrom pattern replacement rest
termination_by text.length

/-- A script with the name of its table put in. -/
def replaceTable (sql table : String) : String :=
  String.ofList (replaceFrom "\x7btable\x7d".toList table.toList sql.toList)

/-- An error of the configuration. -/
def confError (detail : String) : KnowledgeError := { reason := .coreConf, detail }

/-- An error of the system. -/
def resError (detail : String) : KnowledgeError := { reason := .systemError, detail }

namespace Environment

variable (env : Environment)

/-- There is something at the path. -/
def pathExists (path : String) : Bool :=
  match env.files path with
  | .missing => false
  | .unreadable | .contents _ => true

/-- The text of a file. -/
def readToString (path : String) : KnowledgeResult String :=
  match env.files path with
  | .missing | .unreadable => .error (resError "source error")
  | .contents bytes =>
      match String.fromUTF8? bytes with
      | some text => .ok text
      | none => .error (resError "source error")

/-- The configuration and the directory its tables are in. -/
def parseKnowdbConf (root confPath : String) : KnowledgeResult (KnowDbConf × String) := do
  let confAbs := joinRel root confPath
  let text ← env.readToString confAbs
  match env.parseToml text with
  | none => .error (confError "parse knowdb config")
  | some conf =>
      if conf.version ≠ 2 then .error (confError "unsupported knowdb.version")
      else .ok (conf, joinRel (parentDir confAbs) conf.baseDir)

/-- The CSV reader on a file. -/
def buildCsvReader (csvd : CsvSpec) (dataPath : String) : KnowledgeResult CsvData :=
  if csvd.encoding.toLower ≠ "utf-8" then .error (confError "only utf-8 csv is supported")
  else
    let reader : CsvReader :=
      { hasHeaders := csvd.hasHeader
        delimiter :=
          match csvd.delimiter.toUTF8.toList with
          | [byte] => some byte
          | _ => none
        trim := csvd.trim }
    match env.files dataPath with
    | .missing | .unreadable => .error (resError "source error")
    | .contents bytes => .ok (env.readCsv reader bytes)

end Environment

/-- The positions of the wanted columns. -/
def selectIndicesByHeader (headers wanted : List String) : KnowledgeResult (List Nat) :=
  wanted.mapM fun name =>
    match headers.findIdx? (· == name) with
    | some pos => .ok pos
    | none => .error (confError "header not found")

/-- What a record comes to: the values of the wanted columns, nothing if it is
skipped for a missing one, or an error. -/
def extractRowRefs (onError : OnError) (record : List String) :
    List Nat → Except String (Option (List String))
  | [] => .ok (some [])
  | idx :: indices =>
      match record[idx]? with
      | none =>
          match onError with
          | .skip => .ok none
          | .fail => .error ("missing column at index " ++ toString idx)
      | some value => (extractRowRefs onError record indices).map (Option.map (value :: ·))

/-! ## Scripts and data of a table -/

/-- The scripts of a table. -/
structure Scripts where
  createSql : String
  insertSql : String
  cleanSql : String

section Table

variable (env : Environment) (baseDir : String) (t : TableSpec) (csvd : CsvSpec)

/-- The directory of a table. -/
def tableDir : String :=
  joinRel baseDir (t.dir.getD t.name)

/-- The scripts of a table; without a `clean.sql` the table is emptied. -/
def readScripts : KnowledgeResult Scripts := do
  let createSql ← env.readToString (joinRel (tableDir baseDir t) "create.sql")
  let insertSql ← env.readToString (joinRel (tableDir baseDir t) "insert.sql")
  let cleanPath := joinRel (tableDir baseDir t) "clean.sql"
  let cleanSql ←
    if env.pathExists cleanPath then
      (env.readToString cleanPath).map fun sql => replaceTable sql t.name
    else .ok ("DELETE FROM " ++ t.name)
  return { createSql := replaceTable createSql t.name
           insertSql := replaceTable insertSql t.name
           cleanSql }

/-- The data file of a table. -/
def dataPath : String :=
  joinRel (tableDir baseDir t) (t.dataFile.getD "data.csv")

/-- The records of a table and the columns to insert of each. -/
def readData : KnowledgeResult (List CsvRecord × List Nat) := do
  if env.pathExists (dataPath baseDir t) then
    let data ← env.buildCsvReader csvd (dataPath baseDir t)
    if t.columns.byHeader ≠ [] then
      match data.headers with
      | none => .error (resError "source error")
      | some headers =>
          let indices ← selectIndicesByHeader headers t.columns.byHeader
          return (data.records, indices)
    else if t.columns.byIndex ≠ [] then return (data.records, t.columns.byIndex)
    else .error (confError "columns mapping required")
  else .error (confError "data.csv not found")

end Table

/-! ## The database -/

/-- SQLite on the authority database.  A script is run statement by statement and
stops at the first that fails; a failed `INSERT` changes nothing. -/
structure Engine (δ : Type) where
  opens : String → Bool
  connects : δ → Bool
  executeBatch : String → δ → δ × Bool
  begins : δ → Bool
  prepares : String → δ → Bool
  execute : String → List String → δ → Option δ
  commits : δ → Bool
  query : String → δ → KnowledgeResult (List RowData)
  /-- The rows a table holds. -/
  rows : δ → String → List RowData

section Import

variable {δ : Type} (db : Engine δ) (load : OptLoadSpec) (insertSql : String)

/-- The variables of the import loop: the database as it is committed, with the
rows of the open transaction added, and the counters. -/
structure ImportState (δ : Type) where
  committed : δ
  working : δ
  inserted : Nat
  bad : Nat
  batchLeft : Nat

/-- The number of rows of a batch. -/
def OptLoadSpec.batch : Nat :=
  max load.batchSize 1

theorem OptLoadSpec.batch_pos : 0 < load.batch := by
  unfold OptLoadSpec.batch
  omega

/-- The row is inserted; when its batch is full, the transaction is committed and
the next begins.  An error carries what is committed. -/
def insertRow (s : ImportState δ) (refs : List String) : Except δ (ImportState δ) :=
  match db.execute insertSql refs s.working with
  | none => .error s.committed
  | some working =>
      if load.transaction then
        if s.batchLeft - 1 = 0 then
          if db.commits working then
            if db.begins working then
              .ok { committed := working, working, inserted := s.inserted + 1, bad := s.bad
                    batchLeft := load.batch }
            else .error working
          else .error s.committed
        else .ok { s with working, inserted := s.inserted + 1, batchLeft := s.batchLeft - 1 }
      else
        -- without a transaction the row is committed at once
        .ok { s with committed := working, working, inserted := s.inserted + 1 }

/-- One round of the import loop. -/
def importRecord (colIndices : List Nat) (s : ImportState δ) :
    CsvRecord → Except δ (ImportState δ)
  | .fields record =>
      match extractRowRefs load.onError record colIndices with
      | .error _ => .error s.committed
      | .ok none => .ok { s with bad := s.bad + 1 }
      | .ok (some refs) => insertRow db load insertSql s refs
  | .malformed =>
      match load.onError with
      | .skip => .ok { s with bad := s.bad + 1 }
      | .fail => .error s.committed

/-- The commit after the last record. -/
def finishImport (s : ImportState δ) : Except δ (ImportState δ) :=
  if load.transaction then
    if db.commits s.working then .ok { s with committed := s.working } else .error s.committed
  else .ok s

/-- The import of the records: the first transaction, the loop and the last commit. -/
def importRecords (colIndices : List Nat) (records : List CsvRecord) (d : δ) :
    Except δ (ImportState δ) :=
  if db.connects d && (!load.transaction || db.begins d) && db.prepares insertSql d then
    (records.foldlM (importRecord db load insertSql colIndices)
      { committed := d, working := d, inserted := 0, bad := 0, batchLeft := load.batch }).bind
      (finishImport db load)
  else .error d

end Import

/-! ## Loading -/

section Load

variable {δ : Type}

/-- The rest of a function after a fallible call (the `?` operator), on the
database the call leaves. -/
def andThen {α β : Type} (r : KnowledgeResult α × δ) (rest : α → δ → KnowledgeResult β × δ) :
    KnowledgeResult β × δ :=
  match r with
  | (.error e, d) => (.error e, d)
  | (.ok a, d) => rest a d

variable (db : Engine δ) (env : Environment)

/-- The create and the clean script, on one connection. -/
def prepareTable (scripts : Scripts) (d : δ) : KnowledgeResult Unit × δ :=
  if db.connects d then
    match db.executeBatch scripts.createSql d with
    | (d, false) => (.error (resError "prepare authority table"), d)
    | (d, true) =>
        match db.executeBatch scripts.cleanSql d with
        | (d, false) => (.error (resError "prepare authority table"), d)
        | (d, true) => (.ok (), d)
  else (.error (resError "prepare authority table"), d)

/-- The records of a table are inserted; the number of rows. -/
def importTable (load : OptLoadSpec) (insertSql : String) (colIndices : List Nat)
    (records : List CsvRecord) (d : δ) : KnowledgeResult Nat × δ :=
  match importRecords db load insertSql colIndices records d with
  | .error d => (.error (resError "load authority table data"), d)
  | .ok s => (.ok s.inserted, s.committed)

/-- The table has as many rows as it is expected to have at least; too many are
only logged. -/
def checkRows (t : TableSpec) (inserted : Nat) : KnowledgeResult Unit :=
  match t.expectedRows.min with
  | some min => if inserted < min then .error (confError "table data less") else .ok ()
  | none => .ok ()

/-- The table is created, cleaned and filled with the records of its file. -/
def loadOneTable (baseDir : String) (t : TableSpec) (csvd : CsvSpec) (load : OptLoadSpec)
    (d : δ) : KnowledgeResult Unit × δ :=
  andThen (readScripts env baseDir t, d) fun scripts d =>
    andThen (prepareTable db scripts d) fun _ d =>
      andThen (readData env baseDir t csvd, d) fun data d =>
        andThen (importTable db load scripts.insertSql data.2 data.1 d) fun inserted d =>
          (checkRows t inserted, d)

/-- The enabled tables, one after the other; the names of the loaded ones. -/
def loadTables (baseDir : String) (csvd : CsvSpec) (load : OptLoadSpec) :
    List TableSpec → δ → KnowledgeResult (List String) × δ
  | [], d => (.ok [], d)
  | t :: ts, d =>
      if t.enabled then
        andThen (loadOneTable db env baseDir t csvd load d) fun _ d =>
          andThen (loadTables baseDir csvd load ts d) fun names d => (.ok (t.name :: names), d)
      else loadTables baseDir csvd load ts d

/-- The authority file is opened, or created. -/
def openAuthority (authorityUri : String) : KnowledgeResult Unit :=
  if db.opens authorityUri then .ok () else .error (resError "source error")

/-- All tables of a configuration are loaded. -/
def buildAuthorityFromKnowdb (root confPath authorityUri : String) (d : δ) :
    KnowledgeResult (List String) × δ :=
  andThen (env.parseKnowdbConf root confPath, d) fun conf d =>
    andThen (openAuthority db authorityUri, d) fun _ d =>
      loadTables db env conf.2 conf.1.csv conf.1.default conf.1.tables d

/-- The statement that reads a table back. -/
def selectSql (t : TableSpec) : String :=
  "SELECT " ++ ", ".intercalate t.columns.byHeader ++ " FROM " ++ t.name

/-- The table of a configuration that a reload asks for; the name in an error is
printed as its debug text. -/
def findTable (conf : KnowDbConf) (table : String) : KnowledgeResult TableSpec :=
  let printed := Foundation.debugStr env.isPrintable table.toList
  match conf.tables.find? fun t => t.enabled && t.name == table with
  | none => .error (confError ("refresh table " ++ printed ++ " not found or disabled"))
  | some t =>
      if t.columns.byHeader = [] then
        .error (confError
          ("refresh table " ++ printed ++ " requires columns.by_header for row projection"))
      else .ok t

/-- The rows of a statement. -/
def queryRows (sql : String) (d : δ) : KnowledgeResult (List RowData) :=
  if db.connects d then db.query sql d else .error (resError "source error")

/-- One table is loaded again and its rows are read back. -/
def reloadTableRows (root confPath authorityUri table : String) (d : δ) :
    KnowledgeResult (List RowData) × δ :=
  andThen (env.parseKnowdbConf root confPath, d) fun conf d =>
    andThen (findTable env conf.1 table, d) fun t d =>
      andThen (openAuthority db authorityUri, d) fun _ d =>
        andThen (loadOneTable db env conf.2 t conf.1.csv conf.1.default d) fun _ d =>
          (queryRows db (selectSql t) d, d)

end Load

end Loader

end WpKnowledge
