import WpKnowledge.Foundation.Attempt
import WpKnowledge.Foundation.FoldExcept
import WpKnowledge.Loader.LoadTable

/-!
# What a load commits

The configuration and the files decide, before the database is looked at, which
writes a load asks for: the create script, the clean script and the rows of the
file in batches, table after table, until an error of the configuration or of a file
ends the list.  Each write of the list is committed on its own.  A load carries
out the list until a write fails.

Main results:

- Theorem {lit}`importRecords_eq_run`: the import loop, with its open transaction and
  its countdown, commits batch after batch.
- Theorems {lit}`buildAuthorityFromKnowdb_eq_run` and {lit}`reloadTableRows_eq_run`: a
  load leaves behind what its list of writes leaves behind, and fails when a write
  fails or the list ends in an error.
-/

namespace WpKnowledge

namespace Loader

open Foundation

/-! ## Writes -/

/-- What is committed as one: a script, up to its first failing statement; a row or
a batch of rows.  The checks before the first row and the reading back at the end
change nothing, but may fail. -/
inductive Write where
  | connect
  | script (sql : String)
  | prepare (transaction : Bool) (insertSql : String)
  | row (insertSql : String) (refs : List String)
  | batch (insertSql : String) (rows : List (List String))
  | select (sql : String)
deriving DecidableEq, Repr

section Perform

variable {δ : Type} (db : Engine δ)

/-- Rows inserted one after the other. -/
def insertRows (insertSql : String) (rows : List (List String)) (d : δ) : Option δ :=
  rows.foldlM (fun d refs => db.execute insertSql refs d) d

/-- The effect of a write, and whether it succeeds. -/
def perform : Write → δ → δ × Bool
  | .connect, d => (d, db.connects d)
  | .script sql, d => db.executeBatch sql d
  | .prepare transaction insertSql, d =>
      (d, db.connects d && (!transaction || db.begins d) && db.prepares insertSql d)
  | .row insertSql refs, d =>
      match db.execute insertSql refs d with
      | some d' => (d', true)
      | none => (d, false)
  | .batch insertSql rows, d =>
      match insertRows db insertSql rows d with
      | some d' => if db.begins d && db.commits d' then (d', true) else (d, false)
      | none => (d, false)
  | .select sql, d => (d, db.connects d && (db.query sql d).isOk)

end Perform

/-! ## The writes of an import -/

/-- What the loop makes of a record. -/
inductive RecordKind where
  | row (refs : List String)
  | bad
  | fatal
deriving DecidableEq, Repr

/-- A record is a row, or it is skipped, or it ends the import. -/
def recordKind (onError : OnError) (colIndices : List Nat) : CsvRecord → RecordKind
  | .fields record =>
      match extractRowRefs onError record colIndices with
      | .error _ => .fatal
      | .ok none => .bad
      | .ok (some refs) => .row refs
  | .malformed =>
      match onError with
      | .skip => .bad
      | .fail => .fatal

/-- The rows of the records before the first one that ends the import. -/
def importRows (onError : OnError) (colIndices : List Nat) : List CsvRecord → List (List String)
  | [] => []
  | record :: records =>
      match recordKind onError colIndices record with
      | .row refs => refs :: importRows onError colIndices records
      | .bad => importRows onError colIndices records
      | .fatal => []

/-- No record ends the import. -/
def importCompletes (onError : OnError) (colIndices : List Nat) (records : List CsvRecord) : Bool :=
  records.all fun record => recordKind onError colIndices record ≠ .fatal

/-- Rows in batches of `n`, the first of them begun with the pending rows; the
last one, which is not full, is committed only if the import gets to its end. -/
def batches (n : Nat) (completes : Bool) (pending : List (List String)) :
    List (List String) → List (List (List String))
  | [] => if completes then [pending] else []
  | refs :: rows =>
      if pending.length + 1 = n then (pending ++ [refs]) :: batches n completes [] rows
      else batches n completes (pending ++ [refs]) rows

/-- The writes of an import. -/
def importPlan (load : OptLoadSpec) (insertSql : String) (colIndices : List Nat)
    (records : List CsvRecord) : Plan Write :=
  let rows := importRows load.onError colIndices records
  let completes := importCompletes load.onError colIndices records
  { steps := .prepare load.transaction insertSql ::
      if load.transaction then (batches load.batch completes [] rows).map (.batch insertSql)
      else rows.map (.row insertSql)
    completes }

/-! ## The import loop carries out its plan -/

section Refinement

variable {δ : Type} (db : Engine δ) (load : OptLoadSpec) (insertSql : String)

/-- What an import leaves behind, and whether it succeeds. -/
def importOutcome : Except δ (ImportState δ) → δ × Bool
  | .error d => (d, false)
  | .ok s => (s.committed, true)

theorem insertRows_append (rows rows' : List (List String)) (d : δ) :
    insertRows db insertSql (rows ++ rows') d =
      (insertRows db insertSql rows d).bind (insertRows db insertSql rows') := by
  simp only [insertRows, List.foldlM_append]
  rfl

theorem insertRows_snoc (rows : List (List String)) (refs : List String) (d : δ) :
    insertRows db insertSql (rows ++ [refs]) d =
      (insertRows db insertSql rows d).bind (db.execute insertSql refs) := by
  rw [insertRows_append]
  congr 1
  ext d' : 1
  simp [insertRows]

/-- The round of a record by its kind. -/
theorem importRecord_eq (colIndices : List Nat) (s : ImportState δ) (record : CsvRecord) :
    importRecord db load insertSql colIndices s record =
      match recordKind load.onError colIndices record with
      | .row refs => insertRow db load insertSql s refs
      | .bad => .ok { s with bad := s.bad + 1 }
      | .fatal => .error s.committed := by
  cases record with
  | fields record =>
      simp only [importRecord, recordKind]
      rcases extractRowRefs load.onError record colIndices with e | _ | refs <;> rfl
  | malformed =>
      simp only [importRecord, recordKind]
      cases load.onError <;> rfl

theorem importCompletes_cons (onError : OnError) (colIndices : List Nat) (record : CsvRecord)
    (records : List CsvRecord) :
    importCompletes onError colIndices (record :: records) =
      (decide (recordKind onError colIndices record ≠ .fatal) &&
        importCompletes onError colIndices records) :=
  rfl

/-- When no batch that begins with the pending rows can be committed, the import
leaves the database and fails. -/
theorem run_batches_of_fail (n : Nat) (completes : Bool) (rows : List (List String))
    {pending : List (List String)} {d : δ}
    (hfail : ∀ more, perform db (.batch insertSql (pending ++ more)) d = (d, false)) :
    Plan.run (perform db)
      ⟨(batches n completes pending rows).map (.batch insertSql), completes⟩ d = (d, false) := by
  induction rows generalizing pending with
  | nil =>
      cases completes with
      | false => rfl
      | true =>
          have hpending := hfail []
          rw [List.append_nil] at hpending
          simp [batches, Plan.run, attempt_cons_of_fail _ hpending]
  | cons refs rows ih =>
      rw [batches]
      split_ifs with hfull
      · simp [Plan.run, attempt_cons_of_fail _ (hfail [refs])]
      · apply ih
        intro more
        rw [List.append_assoc]
        exact hfail ([refs] ++ more)

/-- The same when no batch that goes on with the next row can be committed. -/
theorem run_batches_cons_of_fail (n : Nat) (completes : Bool) (refs : List String)
    (rows : List (List String)) {pending : List (List String)} {d : δ}
    (hfail : ∀ more, perform db (.batch insertSql (pending ++ [refs] ++ more)) d = (d, false)) :
    Plan.run (perform db)
      ⟨(batches n completes pending (refs :: rows)).map (.batch insertSql), completes⟩ d =
        (d, false) := by
  rw [batches]
  split_ifs with hfull
  · have hbatch := hfail []
    rw [List.append_nil] at hbatch
    simp [Plan.run, attempt_cons_of_fail _ hbatch]
  · exact run_batches_of_fail db insertSql n completes rows hfail

/-- A batch with a row that cannot be inserted changes nothing. -/
theorem perform_batch_of_none {rows : List (List String)} {d : δ}
    (h : insertRows db insertSql rows d = none) :
    perform db (.batch insertSql rows) d = (d, false) := by
  simp [perform, h]

/-- A batch whose transaction cannot begin changes nothing. -/
theorem perform_batch_of_not_begins {d : δ} (h : db.begins d = false)
    (rows : List (List String)) : perform db (.batch insertSql rows) d = (d, false) := by
  simp only [perform, h, Bool.false_and, Bool.false_eq_true, if_false]
  cases insertRows db insertSql rows d <;> rfl

/-- A batch whose rows can be inserted is committed or not. -/
theorem perform_batch_of_some {rows : List (List String)} {d working : δ}
    (h : insertRows db insertSql rows d = some working) (hbegins : db.begins d = true) :
    perform db (.batch insertSql rows) d =
      if db.commits working then (working, true) else (d, false) := by
  simp [perform, h, hbegins]

/-- Where the loop of an import in transactions stands: the pending rows are inserted
and not yet committed. -/
structure InBatch (s : ImportState δ) (pending : List (List String)) : Prop where
  short : pending.length < load.batch
  left : s.batchLeft = load.batch - pending.length
  working : insertRows db insertSql pending s.committed = some s.working
  begins : db.begins s.committed = true

variable {db load insertSql} in
/-- A row that goes on with a batch that is not full yet. -/
theorem InBatch.goes_on (htransaction : load.transaction = true) {s : ImportState δ}
    {pending : List (List String)} (h : InBatch db load insertSql s pending) {refs : List String}
    {working : δ} (hexec : db.execute insertSql refs s.working = some working)
    (hmore : pending.length + 1 ≠ load.batch) :
    ∃ s', insertRow db load insertSql s refs = .ok s' ∧ s'.committed = s.committed ∧
      InBatch db load insertSql s' (pending ++ [refs]) := by
  have hshort := h.short
  have hleft := h.left
  have hpos : s.batchLeft - 1 ≠ 0 := by omega
  refine ⟨{ s with working, inserted := s.inserted + 1, batchLeft := s.batchLeft - 1 }, ?_, rfl, ?_⟩
  · simp [insertRow, hexec, htransaction, hpos]
  · refine ⟨?_, ?_, ?_, h.begins⟩
    · simp only [List.length_append, List.length_singleton]
      omega
    · simp only [List.length_append, List.length_singleton]
      omega
    · rw [insertRows_snoc, h.working]
      exact hexec

variable {db load insertSql} in
/-- A row that fills its batch: either the batch is committed and the next one begun, or the
whole import fails. -/
theorem InBatch.fills (htransaction : load.transaction = true) {s : ImportState δ}
    {pending : List (List String)} (h : InBatch db load insertSql s pending) {refs : List String}
    {working : δ} (hexec : db.execute insertSql refs s.working = some working)
    (hfull : pending.length + 1 = load.batch) :
    (insertRow db load insertSql s refs = .error s.committed ∧
        perform db (.batch insertSql (pending ++ [refs])) s.committed = (s.committed, false)) ∨
      (perform db (.batch insertSql (pending ++ [refs])) s.committed = (working, true) ∧
        ((insertRow db load insertSql s refs = .error working ∧ db.begins working = false) ∨
          ∃ s', insertRow db load insertSql s refs = .ok s' ∧ s'.committed = working ∧
            InBatch db load insertSql s' [])) := by
  have hleft := h.left
  have hzero : s.batchLeft - 1 = 0 := by omega
  have hrows : insertRows db insertSql (pending ++ [refs]) s.committed = some working := by
    rw [insertRows_snoc, h.working]
    exact hexec
  have hbatch := perform_batch_of_some db insertSql hrows h.begins
  cases hcommits : db.commits working with
  | false =>
      left
      rw [hcommits] at hbatch
      exact ⟨by simp [insertRow, hexec, htransaction, hzero, hcommits], hbatch⟩
  | true =>
      right
      rw [hcommits] at hbatch
      refine ⟨hbatch, ?_⟩
      cases hnext : db.begins working with
      | false => exact .inl ⟨by simp [insertRow, hexec, htransaction, hzero, hcommits, hnext], rfl⟩
      | true =>
          refine .inr ⟨{ committed := working, working, inserted := s.inserted + 1, bad := s.bad
                         batchLeft := load.batch }, ?_, rfl, ?_⟩
          · simp [insertRow, hexec, htransaction, hzero, hcommits, hnext]
          · exact ⟨load.batch_pos, by simp, rfl, hnext⟩

/-- The loop of an import in transactions, from a state in which some rows are
pending, commits what the batches begun with these rows commit. -/
theorem foldlM_importRecord_transaction (htransaction : load.transaction = true)
    (colIndices : List Nat) (records : List CsvRecord) (s : ImportState δ)
    (pending : List (List String)) (h : InBatch db load insertSql s pending) :
    importOutcome ((records.foldlM (importRecord db load insertSql colIndices) s).bind
        (finishImport db load)) =
      Plan.run (perform db)
        ⟨(batches load.batch (importCompletes load.onError colIndices records) pending
            (importRows load.onError colIndices records)).map (.batch insertSql),
          importCompletes load.onError colIndices records⟩ s.committed := by
  induction records generalizing s pending with
  | nil =>
      simp only [List.foldlM_nil, pure, Except.pure, Except.bind, finishImport, htransaction,
        if_true, importRows, importCompletes, List.all_nil, batches, List.map_cons, List.map_nil]
      have hbatch := perform_batch_of_some db insertSql h.working h.begins
      split_ifs at hbatch ⊢ with hcommits
      · simp [importOutcome, Plan.run, attempt_cons_of_ok _ hbatch]
      · simp [importOutcome, Plan.run, attempt_cons_of_fail _ hbatch]
  | cons record records ih =>
      rw [List.foldlM_cons, importRecord_eq, importRows, importCompletes_cons]
      cases hkind : recordKind load.onError colIndices record with
      | bad =>
          have hih := ih { s with bad := s.bad + 1 } pending
            ⟨h.short, h.left, h.working, h.begins⟩
          simp only [ne_eq, reduceCtorEq, not_false_eq_true, decide_true, Bool.true_and]
          exact hih
      | fatal =>
          simp [bind, Except.bind, importOutcome, batches, Plan.run]
      | row refs =>
          simp only [ne_eq, reduceCtorEq, not_false_eq_true, decide_true, Bool.true_and]
          cases hexec : db.execute insertSql refs s.working with
          | none =>
              -- the row cannot be inserted, nor any batch with it
              have hrow : insertRow db load insertSql s refs = .error s.committed := by
                simp [insertRow, hexec]
              rw [hrow, run_batches_cons_of_fail db insertSql]
              · rfl
              · intro more
                apply perform_batch_of_none
                rw [insertRows_append, insertRows_snoc, h.working, Option.bind_some, hexec]
                rfl
          | some working =>
              by_cases hfull : pending.length + 1 = load.batch
              · rw [batches, if_pos hfull, List.map_cons]
                rcases h.fills htransaction hexec hfull with
                  ⟨hrow, hbatch⟩ | ⟨hbatch, ⟨hrow, hnext⟩ | ⟨s', hrow, rfl, hs'⟩⟩
                · rw [hrow, Plan.run, attempt_cons_of_fail _ hbatch]
                  rfl
                · rw [hrow, Plan.run_cons_of_ok _ hbatch, run_batches_of_fail db insertSql]
                  · rfl
                  · intro more
                    exact perform_batch_of_not_begins db insertSql hnext _
                · rw [hrow, Plan.run_cons_of_ok _ hbatch]
                  exact ih s' [] hs'
              · obtain ⟨s', hrow, hcommitted, hs'⟩ := h.goes_on htransaction hexec hfull
                rw [hrow, batches, if_neg hfull, ← hcommitted]
                exact ih s' (pending ++ [refs]) hs'

/-- The loop of an import without transactions commits row after row. -/
theorem foldlM_importRecord_plain (htransaction : load.transaction = false)
    (colIndices : List Nat) (records : List CsvRecord) (s : ImportState δ)
    (hworking : s.working = s.committed) :
    importOutcome ((records.foldlM (importRecord db load insertSql colIndices) s).bind
        (finishImport db load)) =
      Plan.run (perform db)
        ⟨(importRows load.onError colIndices records).map (.row insertSql),
          importCompletes load.onError colIndices records⟩ s.committed := by
  induction records generalizing s with
  | nil =>
      simp [pure, Except.pure, Except.bind, finishImport, htransaction, importOutcome, importRows,
        importCompletes, Plan.run]
  | cons record records ih =>
      rw [List.foldlM_cons, importRecord_eq, importRows, importCompletes_cons]
      cases hkind : recordKind load.onError colIndices record with
      | bad =>
          have hih := ih { s with bad := s.bad + 1 } hworking
          simp only [ne_eq, reduceCtorEq, not_false_eq_true, decide_true, Bool.true_and]
          exact hih
      | fatal =>
          simp [bind, Except.bind, importOutcome, Plan.run]
      | row refs =>
          simp only [ne_eq, reduceCtorEq, not_false_eq_true, decide_true, Bool.true_and,
            List.map_cons]
          cases hexec : db.execute insertSql refs s.working with
          | none =>
              have hrow : insertRow db load insertSql s refs = .error s.committed := by
                simp [insertRow, hexec]
              have hwrite : perform db (.row insertSql refs) s.committed = (s.committed, false) := by
                simp [perform, ← hworking, hexec]
              rw [hrow, Plan.run, attempt_cons_of_fail _ hwrite]
              rfl
          | some working =>
              have hrow : insertRow db load insertSql s refs =
                  .ok { s with committed := working, working
                               inserted := s.inserted + 1 } := by
                simp [insertRow, hexec, htransaction]
              have hwrite : perform db (.row insertSql refs) s.committed = (working, true) := by
                simp [perform, ← hworking, hexec]
              have hih := ih { s with committed := working, working
                                      inserted := s.inserted + 1 } rfl
              rw [hrow, Plan.run, attempt_cons_of_ok _ hwrite]
              exact hih

/-- The import carries out its plan. -/
theorem importRecords_eq_run (colIndices : List Nat) (records : List CsvRecord) (d : δ) :
    importOutcome (importRecords db load insertSql colIndices records d) =
      (importPlan load insertSql colIndices records).run (perform db) d := by
  unfold importRecords importPlan
  by_cases hstart : (db.connects d && (!load.transaction || db.begins d) &&
      db.prepares insertSql d) = true
  · have hprepare : perform db (.prepare load.transaction insertSql) d = (d, true) := by
      rw [perform, hstart]
    rw [if_pos hstart]
    simp only [Plan.run, attempt_cons_of_ok _ hprepare]
    cases htransaction : load.transaction with
    | true =>
        have hbegins : db.begins d = true := by
          simp only [htransaction, Bool.not_true, Bool.false_or, Bool.and_eq_true] at hstart
          exact hstart.1.2
        exact foldlM_importRecord_transaction db load insertSql htransaction colIndices records
          _ [] ⟨load.batch_pos, by simp, rfl, hbegins⟩
    | false =>
        exact foldlM_importRecord_plain db load insertSql htransaction colIndices records _ rfl
  · have hprepare : perform db (.prepare load.transaction insertSql) d = (d, false) := by
      rw [perform, Bool.eq_false_iff.mpr hstart]
    rw [if_neg hstart]
    simp only [Plan.run, attempt_cons_of_fail _ hprepare]
    rfl

variable {db load insertSql}

theorem inserted_of_insertRow {s s' : ImportState δ} {refs : List String}
    (h : insertRow db load insertSql s refs = .ok s') : s'.inserted = s.inserted + 1 := by
  unfold insertRow at h
  split at h
  · cases h
  · split_ifs at h <;> cases h <;> rfl

/-- The loop counts the rows it inserts. -/
theorem inserted_of_foldlM {colIndices : List Nat} {records : List CsvRecord}
    {s s' : ImportState δ}
    (h : records.foldlM (importRecord db load insertSql colIndices) s = .ok s') :
    s'.inserted = s.inserted + (importRows load.onError colIndices records).length := by
  induction records generalizing s with
  | nil =>
      cases h
      simp [importRows]
  | cons record records ih =>
      rcases foldlM_cons_eq_ok_iff.mp h with ⟨s₁, hstep, hrest⟩
      have hcount := ih hrest
      rw [importRecord_eq] at hstep
      rw [importRows, hcount]
      cases hkind : recordKind load.onError colIndices record with
      | bad =>
          rw [hkind] at hstep
          cases hstep
          rfl
      | fatal =>
          rw [hkind] at hstep
          cases hstep
      | row refs =>
          rw [hkind] at hstep
          rw [inserted_of_insertRow hstep, List.length_cons]
          omega

/-- A successful import counts its rows. -/
theorem inserted_of_importRecords {colIndices : List Nat} {records : List CsvRecord} {d : δ}
    {s : ImportState δ} (h : importRecords db load insertSql colIndices records d = .ok s) :
    s.inserted = (importRows load.onError colIndices records).length := by
  unfold importRecords at h
  split_ifs at h
  rcases hfold : records.foldlM (importRecord db load insertSql colIndices)
      { committed := d, working := d, inserted := 0, bad := 0, batchLeft := load.batch } with e | s₁
  · rw [hfold] at h
    cases h
  · have hcount := inserted_of_foldlM hfold
    rw [hfold] at h
    simp only [Except.bind, finishImport] at h
    split_ifs at h <;> cases h <;> simpa using hcount

end Refinement

/-! ## The writes of a load -/

section Plans

variable (env : Environment)

/-- A check that may end a load. -/
def checkPlan {α : Type} (r : KnowledgeResult α) : Plan Write :=
  if r.isOk then .done else .fail

/-- What a plan goes on with after a check that gives a value. -/
def thenPlan {α : Type} (r : KnowledgeResult α) (rest : α → Plan Write) : Plan Write :=
  match r with
  | .error _ => .fail
  | .ok a => rest a

/-- The writes of the load of a table. -/
def tablePlan (baseDir : String) (t : TableSpec) (csvd : CsvSpec) (load : OptLoadSpec) :
    Plan Write :=
  thenPlan (readScripts env baseDir t) fun scripts =>
    Plan.append
      { steps := [.connect, .script scripts.createSql, .script scripts.cleanSql]
        completes := true }
      (thenPlan (readData env baseDir t csvd) fun data =>
        (importPlan load scripts.insertSql data.2 data.1).append
          (checkPlan (checkRows t (importRows load.onError data.2 data.1).length)))

/-- The writes of the load of tables. -/
def tablesPlan (baseDir : String) (csvd : CsvSpec) (load : OptLoadSpec) :
    List TableSpec → Plan Write
  | [] => .done
  | t :: ts =>
      if t.enabled then (tablePlan env baseDir t csvd load).append (tablesPlan baseDir csvd load ts)
      else tablesPlan baseDir csvd load ts

variable {δ : Type} (db : Engine δ)

/-- The writes of the load of a configuration. -/
def buildPlan (root confPath authorityUri : String) : Plan Write :=
  thenPlan (env.parseKnowdbConf root confPath) fun conf =>
    thenPlan (openAuthority db authorityUri) fun _ =>
      tablesPlan env conf.2 conf.1.csv conf.1.default conf.1.tables

/-- The writes of the reload of a table. -/
def reloadPlan (root confPath authorityUri table : String) : Plan Write :=
  thenPlan (env.parseKnowdbConf root confPath) fun conf =>
    thenPlan (findTable env conf.1 table) fun t =>
      thenPlan (openAuthority db authorityUri) fun _ =>
        (tablePlan env conf.2 t conf.1.csv conf.1.default).append
          { steps := [.select (selectSql t)], completes := true }

/-! ## A load carries out its plan -/

/-- What a load leaves behind, and whether it succeeds. -/
def loadOutcome {α : Type} (r : KnowledgeResult α × δ) : δ × Bool :=
  (r.2, r.1.isOk)

variable {db}

/-- A call and the rest of its function carry out one plan after the other. -/
theorem loadOutcome_andThen {α β : Type} {r : KnowledgeResult α × δ}
    {rest : α → δ → KnowledgeResult β × δ} {p q : Plan Write} {d : δ}
    (hr : loadOutcome r = p.run (perform db) d)
    (hrest : ∀ a d', r = (.ok a, d') → loadOutcome (rest a d') = q.run (perform db) d') :
    loadOutcome (andThen r rest) = (p.append q).run (perform db) d := by
  obtain ⟨result, d'⟩ := r
  cases result with
  | error e =>
      rw [Plan.run_append_of_fail _ hr.symm]
      rfl
  | ok a =>
      rw [Plan.run_append_of_ok _ hr.symm]
      exact hrest a d' rfl

/-- A check and the rest of its function. -/
theorem loadOutcome_andThen_check {α β : Type} {r : KnowledgeResult α}
    {rest : α → δ → KnowledgeResult β × δ} {plan : α → Plan Write} {d : δ}
    (hrest : ∀ a, r = .ok a → loadOutcome (rest a d) = (plan a).run (perform db) d) :
    loadOutcome (andThen (r, d) rest) = (thenPlan r plan).run (perform db) d := by
  cases r with
  | error e => rfl
  | ok a => exact hrest a rfl

/-- A last check. -/
theorem loadOutcome_check {α : Type} (r : KnowledgeResult α) (d : δ) :
    loadOutcome (r, d) = (checkPlan r).run (perform db) d := by
  cases r <;> rfl

/-- The scripts of a table are its first writes. -/
theorem prepareTable_eq_run (scripts : Scripts) (d : δ) :
    loadOutcome (prepareTable db scripts d) =
      Plan.run (perform db)
        { steps := [.connect, .script scripts.createSql, .script scripts.cleanSql]
          completes := true } d := by
  unfold prepareTable
  cases hconnects : db.connects d with
  | false =>
      have hconnect : perform db .connect d = (d, false) := by simp [perform, hconnects]
      simp only [Plan.run, attempt_cons_of_fail _ hconnect]
      rfl
  | true =>
      have hconnect : perform db .connect d = (d, true) := by simp [perform, hconnects]
      simp only [Plan.run, attempt_cons_of_ok _ hconnect, if_true]
      rcases hcreate : db.executeBatch scripts.createSql d with ⟨d₁, _ | _⟩
      · simp only [attempt, perform, hcreate]
        rfl
      · rcases hclean : db.executeBatch scripts.cleanSql d₁ with ⟨d₂, _ | _⟩
        · simp only [attempt, perform, hcreate, hclean]
          rfl
        · simp only [attempt, perform, hcreate, hclean]
          rfl

/-- The import of a table carries out its plan. -/
theorem importTable_eq_run (load : OptLoadSpec) (insertSql : String) (colIndices : List Nat)
    (records : List CsvRecord) (d : δ) :
    loadOutcome (importTable db load insertSql colIndices records d) =
      (importPlan load insertSql colIndices records).run (perform db) d := by
  rw [← importRecords_eq_run]
  unfold importTable
  cases importRecords db load insertSql colIndices records d <;> rfl

/-- A successful import returns the number of its rows. -/
theorem inserted_of_importTable {load : OptLoadSpec} {insertSql : String} {colIndices : List Nat}
    {records : List CsvRecord} {d d' : δ} {inserted : Nat}
    (h : importTable db load insertSql colIndices records d = (.ok inserted, d')) :
    inserted = (importRows load.onError colIndices records).length := by
  unfold importTable at h
  split at h
  · cases h
  · rename_i s hs
    cases h
    exact inserted_of_importRecords hs

/-- The load of a table carries out its plan. -/
theorem loadOneTable_eq_run (baseDir : String) (t : TableSpec) (csvd : CsvSpec)
    (load : OptLoadSpec) (d : δ) :
    loadOutcome (loadOneTable db env baseDir t csvd load d) =
      (tablePlan env baseDir t csvd load).run (perform db) d := by
  apply loadOutcome_andThen_check
  intro scripts _
  apply loadOutcome_andThen (prepareTable_eq_run scripts d)
  intro _ d₁ _
  apply loadOutcome_andThen_check
  intro data _
  apply loadOutcome_andThen (importTable_eq_run load scripts.insertSql data.2 data.1 d₁)
  intro inserted d₂ himport
  rw [← inserted_of_importTable himport]
  exact loadOutcome_check _ d₂

/-- Reloading a table carries out its plan. -/
theorem reloadTableRows_eq_run (root confPath authorityUri table : String) (d : δ) :
    loadOutcome (reloadTableRows db env root confPath authorityUri table d) =
      (reloadPlan env db root confPath authorityUri table).run (perform db) d := by
  apply loadOutcome_andThen_check
  intro conf _
  apply loadOutcome_andThen_check
  intro t _
  apply loadOutcome_andThen_check
  intro _ _
  apply loadOutcome_andThen (loadOneTable_eq_run env conf.2 t conf.1.csv conf.1.default d)
  intro _ d₁ _
  simp only [loadOutcome, queryRows, Plan.run, attempt, perform]
  cases hconnects : db.connects d₁ with
  | false => rfl
  | true =>
      cases hquery : db.query (selectSql t) d₁ <;> rfl

end Plans

/-- A database of one table `t` of texts, for closed examples. -/
def oneTableEngine : Engine (List (List String)) where
  opens _ := true
  connects _ := true
  executeBatch sql d := (if sql = "DELETE FROM t" then [] else d, true)
  begins _ := true
  prepares _ _ := true
  execute _ refs d := some (d ++ [refs])
  commits _ := true
  query _ d := .ok (d.map fun row => row.map (DataField.fromChars "c"))
  rows d table := if table = "t" then d.map fun row => row.map (DataField.fromChars "c") else []

end Loader

end WpKnowledge
