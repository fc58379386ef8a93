import WpKnowledge.Foundation.OptionTraverse
import WpKnowledge.Loader.Batching
import WpKnowledge.Mem.ColumnNames

/-!
# Filling a table of an in-memory database

Beside the loader of the authority database there is a simpler one, which fills one table of
an in-memory database with the records of a file, up to a number of rows.  It has no
transaction, checks the number of columns first, and names the line of a bad record.

Main results:

- Theorem {lit}`tableLoadLoop_agrees`: the loop does what the import loop of the other
  loader does.
- Theorem {lit}`table_load_imports`: it fills the table as the import of the first records
  does, without a transaction and up to the first bad record, which it names.
-/

namespace WpKnowledge

open Foundation Loader

/-! ## The loop -/

section Loop

variable {δ : Type} (db : Engine δ) (csvError : Nat → String) (sql : String) (cols : List Nat)
  (max : Nat)

/-- An error that names the line of a record. -/
def lineError (detail : String) : KnowledgeError := { reason := .ruleError, detail }

/-- The wanted columns of a record in line `line`. -/
def bindColumns (line : Nat) (record : List String) : KnowledgeResult (List String) :=
  cols.mapM fun ci =>
    match record[ci]? with
    | some v => .ok v
    | none => .error (lineError ("line " ++ toString line ++ " col " ++ toString ci ++ " missing"))

/-- The check of the number of columns. -/
def checkColumns (line : Nat) (record : List String) : KnowledgeResult Unit :=
  match cols.max? with
  | some maxCol =>
      if record.length ≤ maxCol then
        .error (lineError ("csv has insufficient columns at line " ++ toString line ++
          ": need index " ++ toString maxCol ++ ", got " ++ toString record.length ++ " columns"))
      else .ok ()
  | none => .ok ()

/-- One record, on the database it leaves. -/
def loadRecord (idx : Nat) (d : δ) : CsvRecord → KnowledgeResult δ
  | .malformed => .error (lineError ("read csv record failed at line " ++ toString (idx + 1) ++
      ": " ++ csvError idx))
  | .fields record => do
      checkColumns cols (idx + 1) record
      let refs ← bindColumns cols (idx + 1) record
      match db.execute sql refs d with
      | some d => .ok d
      | none => .error sourceError

/-- The records from the one with the number `idx` on. -/
def tableLoadLoop (idx loadCnt : Nat) : List CsvRecord → δ → KnowledgeResult Nat × δ
  | [], d => (.ok loadCnt, d)
  | record :: records, d =>
      if max ≤ loadCnt then (.ok loadCnt, d)
      else
        match loadRecord db csvError sql cols idx d record with
        | .error err => (.error err, d)
        | .ok d => tableLoadLoop (idx + 1) (loadCnt + 1) records d

/-- A table is filled with the records of a file, up to a number of rows. -/
def tableLoad (env : Environment) (csvPath : String) (d : δ) : KnowledgeResult Nat × δ :=
  match env.files csvPath with
  | .missing => (.ok 0, d)
  | .unreadable => (.error (resError "source error"), d)
  | .contents bytes =>
      if db.connects d then
        if db.prepares sql d then
          tableLoadLoop db csvError sql cols max 0 0
            (env.readCsv { hasHeaders := true, delimiter := none, trim := false } bytes).records d
        else (.error sourceError, d)
      else (.error (resError "source error"), d)

end Loop

/-! ## The import loop -/

section Agrees

variable {δ : Type} {db : Engine δ} {csvError : Nat → String} {sql : String} {cols : List Nat}

/-- The settings of an import that is no transaction and stops at a bad record. -/
def plainLoad : OptLoadSpec := { transaction := false, onError := .fail }

/-- The error of a record that is malformed or too short. -/
def recordError (csvError : Nat → String) (cols : List Nat) (idx : Nat) :
    CsvRecord → KnowledgeError
  | .malformed => lineError ("read csv record failed at line " ++ toString (idx + 1) ++ ": " ++
      csvError idx)
  | .fields record => lineError ("csv has insufficient columns at line " ++ toString (idx + 1) ++
      ": need index " ++ toString (cols.max?.getD 0) ++ ", got " ++ toString record.length ++
      " columns")

/-- A record has the wanted columns if it is long enough for each of them. -/
theorem isSome_project_iff {record : List String} :
    (project cols (.fields record)).isSome ↔ ∀ ci ∈ cols, ci < record.length := by
  constructor
  · intro h ci hci
    by_contra hlt
    have hnone : record[ci]? = none := List.getElem?_eq_none (Nat.le_of_not_lt hlt)
    have hproject : project cols (.fields record) = none := mapM_eq_none_of_mem hci hnone
    rw [hproject] at h
    cases h
  · intro h
    rw [Option.isSome_iff_ne_none]
    intro hnone
    obtain ⟨ci, hci, hmissing⟩ := exists_mem_of_mapM_eq_none hnone
    exact absurd (h ci hci) (Nat.not_lt.mpr (List.getElem?_eq_none_iff.mp hmissing))

/-- A record without one of the wanted columns does not pass the check. -/
theorem checkColumns_of_project_eq_none {idx : Nat} {record : List String}
    (h : project cols (.fields record) = none) :
    checkColumns cols (idx + 1) record = .error (recordError csvError cols idx (.fields record)) := by
  obtain ⟨ci, hci, hmissing⟩ := exists_mem_of_mapM_eq_none h
  have hlen : record.length ≤ ci := List.getElem?_eq_none_iff.mp hmissing
  unfold checkColumns recordError
  cases hmax : cols.max? with
  | none =>
      rw [List.max?_eq_none_iff.mp hmax] at hci
      cases hci
  | some maxCol =>
      have hle : ci ≤ maxCol := (List.max?_eq_some_iff.mp hmax).2 ci hci
      exact if_pos (Nat.le_trans hlen hle)

/-- A record with the wanted columns passes the check, and its columns are bound. -/
theorem checkColumns_of_project_eq_some {idx : Nat} {record refs : List String}
    (h : project cols (.fields record) = some refs) :
    checkColumns cols (idx + 1) record = .ok () ∧
      bindColumns cols (idx + 1) record = .ok refs := by
  have hall : ∀ ci ∈ cols, ci < record.length :=
    isSome_project_iff.mp (by rw [h, Option.isSome_some])
  constructor
  · unfold checkColumns
    cases hmax : cols.max? with
    | none => rfl
    | some maxCol =>
        exact if_neg (Nat.not_le.mpr (hall maxCol (List.max?_mem hmax)))
  · have hbind : ∀ {cols : List Nat} {refs : List String},
        cols.mapM (fun ci => record[ci]?) = some refs →
        bindColumns cols (idx + 1) record = .ok refs := by
      intro cols
      induction cols with
      | nil => rintro refs hrefs; cases hrefs; rfl
      | cons ci cols ih =>
          intro refs hrefs
          obtain ⟨v, vs, hv, hvs, rfl⟩ := mapM_cons_eq_some_iff.mp hrefs
          have hrest := ih hvs
          rw [bindColumns] at hrest ⊢
          rw [List.mapM_cons, hrest, hv]
          rfl
    exact hbind h

/-- One record: its columns are inserted if it has them. -/
theorem loadRecord_eq (idx : Nat) (d : δ) (record : CsvRecord) :
    loadRecord db csvError sql cols idx d record =
      match project cols record with
      | none => .error (recordError csvError cols idx record)
      | some refs =>
          match db.execute sql refs d with
          | some d => .ok d
          | none => .error sourceError := by
  cases record with
  | malformed => rfl
  | fields record =>
      rw [loadRecord]
      cases hproject : project cols (.fields record) with
      | none => rw [checkColumns_of_project_eq_none hproject]; rfl
      | some refs =>
          obtain ⟨hcheck, hbind⟩ := checkColumns_of_project_eq_some hproject
          rw [hcheck, hbind]
          rfl

/-- The error at a record at which the loading stops: it is bad, or its row is refused. -/
def stopError (csvError : Nat → String) (cols : List Nat) (idx : Nat) (record : CsvRecord) :
    KnowledgeError :=
  if (project cols record).isSome then sourceError else recordError csvError cols idx record

/-- The import loop after a row, without a transaction. -/
def withRow (s : ImportState δ) (d : δ) : ImportState δ :=
  { s with committed := d, working := d, inserted := s.inserted + 1 }

/-- One record: both loaders insert its row, or both stop and leave the database as it is. -/
theorem loadRecord_step {s : ImportState δ} (hs : s.committed = s.working) (idx : Nat)
    (record : CsvRecord) :
    (∃ d, loadRecord db csvError sql cols idx s.working record = .ok d ∧
      importRecord db plainLoad sql cols s record = .ok (withRow s d)) ∨
    (loadRecord db csvError sql cols idx s.working record =
        .error (stopError csvError cols idx record) ∧
      importRecord db plainLoad sql cols s record = .error s.working) := by
  rw [loadRecord_eq, importRecord_eq, recordKind_eq, stopError]
  cases project cols record with
  | none => exact .inr ⟨rfl, congrArg Except.error hs⟩
  | some refs =>
      unfold insertRow
      cases hexecute : db.execute sql refs s.working with
      | none =>
          right
          simp [hexecute, hs]
      | some d =>
          left
          simp [hexecute, withRow, plainLoad]

variable {max : Nat}

/-- The loop inserts what the import loop inserts of the records up to the number of rows. -/
theorem tableLoadLoop_of_ok {records : List CsvRecord} {idx : Nat} {s s' : ImportState δ}
    (hs : s.committed = s.working)
    (h : (records.take (max - s.inserted)).foldlM (importRecord db plainLoad sql cols) s =
      .ok s') :
    tableLoadLoop db csvError sql cols max idx s.inserted records s.working =
      (.ok s'.inserted, s'.committed) := by
  induction records generalizing idx s with
  | nil =>
      rw [List.take_nil] at h
      cases h
      rw [tableLoadLoop, hs]
  | cons record records ih =>
      rw [tableLoadLoop]
      by_cases hfull : max ≤ s.inserted
      · rw [Nat.sub_eq_zero_of_le hfull, List.take_zero] at h
        cases h
        rw [if_pos hfull, hs]
      · obtain ⟨n, hn⟩ : ∃ n, max - s.inserted = n + 1 := ⟨max - s.inserted - 1, by omega⟩
        rw [hn, List.take_succ_cons, foldlM_cons_eq_ok_iff] at h
        obtain ⟨s₁, hstep, hrest⟩ := h
        rw [if_neg hfull]
        rcases loadRecord_step hs idx record with ⟨d, hload, himport⟩ | ⟨-, himport⟩
        · rw [himport] at hstep
          cases hstep
          have hn' : max - (withRow s d).inserted = n := by
            change max - (s.inserted + 1) = n
            omega
          rw [← hn'] at hrest
          have hws : (withRow s d).committed = (withRow s d).working := rfl
          rw [hload]
          exact ih hws hrest
        · rw [himport] at hstep
          cases hstep

/-- It stops where the import loop stops, and names the record. -/
theorem tableLoadLoop_of_error {records : List CsvRecord} {idx : Nat} {s : ImportState δ} {d : δ}
    (hs : s.committed = s.working)
    (h : (records.take (max - s.inserted)).foldlM (importRecord db plainLoad sql cols) s =
      .error d) :
    ∃ before record after s', records.take (max - s.inserted) = before ++ record :: after ∧
      before.foldlM (importRecord db plainLoad sql cols) s = .ok s' ∧
      importRecord db plainLoad sql cols s' record = .error d ∧ d = s'.committed ∧
      tableLoadLoop db csvError sql cols max idx s.inserted records s.working =
        (.error (stopError csvError cols (idx + before.length) record), d) := by
  induction records generalizing idx s with
  | nil =>
      rw [List.take_nil] at h
      cases h
  | cons record records ih =>
      rw [tableLoadLoop]
      by_cases hfull : max ≤ s.inserted
      · rw [Nat.sub_eq_zero_of_le hfull, List.take_zero] at h
        cases h
      · obtain ⟨n, hn⟩ : ∃ n, max - s.inserted = n + 1 := ⟨max - s.inserted - 1, by omega⟩
        rw [hn, List.take_succ_cons] at h ⊢
        rw [if_neg hfull]
        rcases loadRecord_step hs idx record with ⟨d₁, hload, himport⟩ | ⟨hload, himport⟩
        · have hn' : max - (withRow s d₁).inserted = n := by
            change max - (s.inserted + 1) = n
            omega
          have hrest : (records.take (max - (withRow s d₁).inserted)).foldlM
              (importRecord db plainLoad sql cols) (withRow s d₁) = .error d := by
            rw [List.foldlM_cons, himport] at h
            rw [hn']
            exact h
          have hws : (withRow s d₁).committed = (withRow s d₁).working := rfl
          obtain ⟨before, bad, after, s', htake, hbefore, hbad, hd, hloop⟩ :=
            @ih (idx + 1) (withRow s d₁) hws hrest
          rw [hn'] at htake
          refine ⟨record :: before, bad, after, s', congrArg (record :: ·) htake,
            foldlM_cons_eq_ok_iff.mpr ⟨_, himport, hbefore⟩, hbad, hd, ?_⟩
          rw [hload, List.length_cons, Nat.add_comm before.length, ← Nat.add_assoc]
          exact hloop
        · rw [List.foldlM_cons, himport] at h
          cases h
          exact ⟨[], record, records.take n, s, rfl, rfl, himport, hs.symm, by rw [hload]; rfl⟩

/-- An import that has not stopped has inserted every record. -/
theorem inserted_of_plain {records : List CsvRecord} {s s' : ImportState δ}
    (hs : s.committed = s.working)
    (h : records.foldlM (importRecord db plainLoad sql cols) s = .ok s') :
    s'.inserted = s.inserted + records.length := by
  induction records generalizing s with
  | nil => cases h; rfl
  | cons record records ih =>
      obtain ⟨s₁, hstep, hrest⟩ := foldlM_cons_eq_ok_iff.mp h
      have hone : (∃ d, loadRecord db (fun _ => "") sql cols 0 s.working record = .ok d ∧
          importRecord db plainLoad sql cols s record = .ok (withRow s d)) ∨ _ :=
        loadRecord_step hs 0 record
      rcases hone with ⟨d, -, himport⟩ | ⟨-, himport⟩
      · rw [himport] at hstep
        cases hstep
        have hws : (withRow s d).committed = (withRow s d).working := rfl
        rw [ih hws hrest, List.length_cons]
        change s.inserted + 1 + records.length = s.inserted + (records.length + 1)
        omega
      · rw [himport] at hstep
        cases hstep

/-- Without a transaction the import is its loop. -/
theorem importRecords_plain {d : δ} (hconnects : db.connects d = true)
    (hprepares : db.prepares sql d = true) (records : List CsvRecord) :
    importRecords db plainLoad sql cols records d =
      records.foldlM (importRecord db plainLoad sql cols) (importStart plainLoad d) := by
  have hstart : (db.connects d && (!plainLoad.transaction || db.begins d) &&
      db.prepares sql d) = true := by
    rw [hconnects, hprepares]
    rfl
  rw [importRecords, if_pos hstart]
  change (records.foldlM (importRecord db plainLoad sql cols) (importStart plainLoad d)).bind _ = _
  cases records.foldlM (importRecord db plainLoad sql cols) (importStart plainLoad d) <;> rfl

/-- **The simple loader imports the first records**: on a database that can be used it does
what the import without a transaction does with as many records as it may insert.  Either all
of them are inserted, or the rows in front of the first bad record stay and the error names
the line of that record. -/
theorem table_load_imports {env : Environment} {csvPath : String} {bytes : ByteArray} {d : δ}
    (hfile : env.files csvPath = .contents bytes) (hconnects : db.connects d = true)
    (hprepares : db.prepares sql d = true) {records : List CsvRecord}
    (hrecords : records =
      (env.readCsv { hasHeaders := true, delimiter := none, trim := false } bytes).records.take max) :
    (∀ s, importRecords db plainLoad sql cols records d = .ok s →
      tableLoad db csvError sql cols max env csvPath d = (.ok s.inserted, s.committed) ∧
        s.inserted = records.length) ∧
    ∀ d', importRecords db plainLoad sql cols records d = .error d' →
      ∃ before record after s, records = before ++ record :: after ∧
        importRecords db plainLoad sql cols before d = .ok s ∧ s.committed = d' ∧
        s.inserted = before.length ∧
        tableLoad db csvError sql cols max env csvPath d =
          (.error (stopError csvError cols before.length record), d') := by
  subst hrecords
  have hload : tableLoad db csvError sql cols max env csvPath d =
      tableLoadLoop db csvError sql cols max 0 (importStart plainLoad d).inserted
        (env.readCsv { hasHeaders := true, delimiter := none, trim := false } bytes).records
        (importStart plainLoad d).working := by
    rw [tableLoad, hfile]
    dsimp only
    rw [if_pos hconnects, if_pos hprepares]
    rfl
  have hs : (importStart plainLoad d).committed = (importStart plainLoad d).working := rfl
  rw [hload]
  simp only [importRecords_plain hconnects hprepares]
  constructor
  · intro s h
    refine ⟨tableLoadLoop_of_ok hs h, ?_⟩
    rw [inserted_of_plain hs h]
    exact Nat.zero_add _
  · intro d' h
    obtain ⟨before, record, after, s, htake, hbefore, -, hd, hloop⟩ :=
      @tableLoadLoop_of_error δ db csvError sql cols max _ 0 _ _ hs h
    refine ⟨before, record, after, s, htake, hbefore, hd.symm, ?_, ?_⟩
    · rw [inserted_of_plain hs hbefore]
      exact Nat.zero_add _
    · rw [Nat.zero_add] at hloop
      exact hloop

end Agrees

/-! ## A row that is refused -/

/-- A file with three records. -/
def threeRecordsEnv : Environment where
  files path := if path = "/t.csv" then .contents "c\na\nx\nb\n".toUTF8 else .missing
  parseToml _ := none
  readCsv _ _ := { headers := some ["c"], records := [.fields ["a"], .fields ["x"], .fields ["b"]] }
  isPrintable c := c.isAlphanum

/-- Of three records one is inserted, since the second one is refused. -/
theorem table_load_imports_refused :
    ∃ before record after s, [CsvRecord.fields ["a"], .fields ["x"], .fields ["b"]] =
        before ++ record :: after ∧
      importRecords refusingEngine plainLoad "INSERT INTO t VALUES (?1)" [0] before [] = .ok s ∧
      s.committed = [["a"]] ∧ s.inserted = before.length ∧
      tableLoad refusingEngine (fun _ => "") "INSERT INTO t VALUES (?1)" [0] 10 threeRecordsEnv
          "/t.csv" [] =
        (.error (stopError (fun _ => "") [0] before.length record), [["a"]]) := by
  have hrecords : [CsvRecord.fields ["a"], .fields ["x"], .fields ["b"]] =
      (threeRecordsEnv.readCsv { hasHeaders := true, delimiter := none, trim := false }
        "c\na\nx\nb\n".toUTF8).records.take 10 := rfl
  exact (table_load_imports rfl rfl rfl hrecords).2 _ rfl

end WpKnowledge
