import WpKnowledge.Foundation.Overwrite
import WpKnowledge.Loader.Batching

/-!
# What the tables of the authority hold

A load empties each table it is to fill and inserts the rows of the file.  What the
table held before does not matter then, and the other tables are left alone.  A load that
fails has filled some tables in front, has left alone those behind, and of the one between it
may have inserted the first rows.

A table is filled as its scripts say.  What is assumed of them is in {lit}`FillsTable`: they
create the table if there is none, empty it, and insert in it, and do nothing else.

Main results:

- Theorem {lit}`LoadCall.overwrites`: what one load leaves in the tables.
- Theorem {lit}`load_overwrites`: the same, and its answer does not depend on the database.
- Theorem {lit}`tables_of_run`: after any loads, of files that may change between them, a
  table holds the first rows of one file, and all of the last one if that load succeeded.
-/

namespace WpKnowledge

namespace Loader

open Foundation

/-! ## Calls that may fail -/

section AndThen

variable {δ α β : Type} {r : KnowledgeResult α × δ} {rest : α → δ → KnowledgeResult β × δ} {d' : δ}

/-- A function succeeds if its first call does and the rest of it. -/
theorem andThen_eq_ok {b : β} (h : andThen r rest = (.ok b, d')) :
    ∃ a d, r = (.ok a, d) ∧ rest a d = (.ok b, d') := by
  obtain ⟨_ | a, d⟩ := r
  · cases h
  · exact ⟨a, d, rfl, h⟩

/-- A function fails at its first call or in the rest of it. -/
theorem andThen_eq_error {e : KnowledgeError} (h : andThen r rest = (.error e, d')) :
    r = (.error e, d') ∨ ∃ a d, r = (.ok a, d) ∧ rest a d = (.error e, d') := by
  obtain ⟨_ | a, d⟩ := r
  · cases h
    exact .inl rfl
  · exact .inr ⟨a, d, rfl, h⟩

end AndThen

/-! ## The rows an import leaves -/

section Import

variable {δ : Type} (db : Engine δ) (load : OptLoadSpec) (insertSql : String)

/-- Where an import stands: all rows are in the open transaction, the first of them are
committed. -/
structure Inserting (colIndices : List Nat) (d : δ) (done : List CsvRecord) (s : ImportState δ) :
    Prop where
  working : insertRows db insertSql (goodRows colIndices done) d = some s.working
  committed : ∃ n, insertRows db insertSql ((goodRows colIndices done).take n) d = some s.committed
  plain : load.transaction = false → s.committed = s.working

variable {db load insertSql}

/-- A row that is inserted is in the open transaction, and committed or not. -/
theorem working_of_insertRow {s s' : ImportState δ} {refs : List String}
    (h : insertRow db load insertSql s refs = .ok s') :
    db.execute insertSql refs s.working = some s'.working ∧
      (s'.committed = s'.working ∨ (load.transaction = true ∧ s'.committed = s.committed)) := by
  unfold insertRow at h
  cases hexecute : db.execute insertSql refs s.working with
  | none =>
      rw [hexecute] at h
      cases h
  | some working =>
      simp only [hexecute] at h
      split_ifs at h with htransaction hfull hcommits hbegins
      · cases h
        exact ⟨rfl, .inl rfl⟩
      · cases h
        exact ⟨rfl, .inr ⟨htransaction, rfl⟩⟩
      · cases h
        exact ⟨rfl, .inl rfl⟩

/-- A row at which the import stops leaves what is committed, with or without the row. -/
theorem committed_of_insertRow_error {s : ImportState δ} {refs : List String} {d' : δ}
    (h : insertRow db load insertSql s refs = .error d') :
    d' = s.committed ∨ db.execute insertSql refs s.working = some d' := by
  unfold insertRow at h
  cases hexecute : db.execute insertSql refs s.working with
  | none =>
      rw [hexecute] at h
      cases h
      exact .inl rfl
  | some working =>
      simp only [hexecute] at h
      split_ifs at h
      · cases h
        exact .inr rfl
      · cases h
        exact .inl rfl

variable {colIndices : List Nat} {d : δ} {done : List CsvRecord} {s : ImportState δ}

/-- The rows with those of one more record. -/
theorem Inserting.snoc (h : Inserting db load insertSql colIndices d done s) {record : CsvRecord}
    {refs : List String} (hgood : project colIndices record = some refs) {d' : δ}
    (hexecute : db.execute insertSql refs s.working = some d') :
    insertRows db insertSql (goodRows colIndices (done ++ [record])) d = some d' := by
  have hrows : goodRows colIndices (done ++ [record]) = goodRows colIndices done ++ [refs] := by
    rw [goodRows_append, goodRows_cons, hgood]
    rfl
  rw [hrows, insertRows_snoc, h.working]
  exact hexecute

/-- What is committed is also the first rows of more records. -/
theorem Inserting.committed_append (h : Inserting db load insertSql colIndices d done s)
    (records : List CsvRecord) :
    ∃ n, insertRows db insertSql ((goodRows colIndices (done ++ records)).take n) d =
      some s.committed := by
  obtain ⟨n, hn⟩ := h.committed
  refine ⟨min n (goodRows colIndices done).length, ?_⟩
  rwa [goodRows_append, List.take_append_of_le_length (Nat.min_le_right n _),
    List.take_eq_take_min.symm]

/-- What a record is to the import: a row, one that is skipped, or one that stops it. -/
theorem recordKind_cases (onError : OnError) (colIndices : List Nat) (record : CsvRecord) :
    (∃ refs, project colIndices record = some refs ∧
        recordKind onError colIndices record = .row refs) ∨
      (project colIndices record = none ∧
        (recordKind onError colIndices record = .bad ∨
          recordKind onError colIndices record = .fatal)) := by
  rw [recordKind_eq]
  cases project colIndices record with
  | some refs => exact .inl ⟨refs, rfl, rfl⟩
  | none => cases onError <;> simp

/-- A round of the loop that does not stop it. -/
theorem Inserting.step (h : Inserting db load insertSql colIndices d done s)
    {s' : ImportState δ} {record : CsvRecord}
    (hstep : importRecord db load insertSql colIndices s record = .ok s') :
    Inserting db load insertSql colIndices d (done ++ [record]) s' := by
  rw [importRecord_eq] at hstep
  rcases recordKind_cases load.onError colIndices record with
    ⟨refs, hgood, hkind⟩ | ⟨hbad, hkind | hkind⟩
  · rw [hkind] at hstep
    obtain ⟨hexecute, hcommitted⟩ := working_of_insertRow hstep
    have hworking := h.snoc hgood hexecute
    refine ⟨hworking, ?_, ?_⟩
    · rcases hcommitted with hcommitted | ⟨-, hcommitted⟩
      · exact ⟨_, by rw [List.take_length, hcommitted]; exact hworking⟩
      · rw [hcommitted]
        exact h.committed_append [record]
    · intro hplain
      rcases hcommitted with hcommitted | ⟨htransaction, -⟩
      · exact hcommitted
      · rw [hplain] at htransaction
        cases htransaction
  · rw [hkind] at hstep
    cases hstep
    have hrows : goodRows colIndices (done ++ [record]) = goodRows colIndices done := by
      rw [goodRows_append, goodRows_cons, hbad]
      exact List.append_nil _
    exact ⟨by rw [hrows]; exact h.working, by rw [hrows]; exact h.committed, h.plain⟩
  · rw [hkind] at hstep
    cases hstep

/-- The round that stops the loop. -/
theorem Inserting.stop (h : Inserting db load insertSql colIndices d done s) {d' : δ}
    {record : CsvRecord}
    (hstop : importRecord db load insertSql colIndices s record = .error d')
    (after : List CsvRecord) :
    ∃ n, insertRows db insertSql ((goodRows colIndices (done ++ record :: after)).take n) d =
      some d' := by
  rw [importRecord_eq] at hstop
  rcases recordKind_cases load.onError colIndices record with
    ⟨refs, hgood, hkind⟩ | ⟨-, hkind | hkind⟩
  · rw [hkind] at hstop
    rcases committed_of_insertRow_error hstop with rfl | hexecute
    · exact h.committed_append (record :: after)
    · refine ⟨(goodRows colIndices (done ++ [record])).length, ?_⟩
      have hrows : goodRows colIndices (done ++ record :: after) =
          goodRows colIndices (done ++ [record]) ++ goodRows colIndices after := by
        rw [← goodRows_append, List.append_assoc]
        rfl
      rw [hrows, List.take_left]
      exact h.snoc hgood hexecute
  · rw [hkind] at hstop
    cases hstop
  · rw [hkind] at hstop
    cases hstop
    exact h.committed_append (record :: after)

/-- What holds of the loop after some records. -/
theorem inserting_of_foldlM
    (h : done.foldlM (importRecord db load insertSql colIndices) (importStart load d) = .ok s) :
    Inserting db load insertSql colIndices d done s := by
  refine foldlM_invariant (P := Inserting db load insertSql colIndices d) ?_ ?_ h
  · exact ⟨rfl, ⟨0, rfl⟩, fun _ => rfl⟩
  · intro done s record s' hdone hstep
    exact hdone.step hstep

/-- A successful import has committed the rows of all good records. -/
theorem insertRows_of_importRecords {records : List CsvRecord}
    (h : importRecords db load insertSql colIndices records d = .ok s) :
    insertRows db insertSql (goodRows colIndices records) d = some s.committed := by
  unfold importRecords at h
  split_ifs at h
  obtain ⟨s₁, hfold, hfinish⟩ := bind_eq_ok_iff.mp h
  have hdone := inserting_of_foldlM hfold
  unfold finishImport at hfinish
  split_ifs at hfinish with htransaction hcommits
  · cases hfinish
    exact hdone.working
  · cases hfinish
    rw [hdone.plain (by simpa using htransaction)]
    exact hdone.working

/-- An import that fails has committed the first rows. -/
theorem insertRows_of_importRecords_error {records : List CsvRecord} {d' : δ}
    (h : importRecords db load insertSql colIndices records d = .error d') :
    ∃ n, insertRows db insertSql ((goodRows colIndices records).take n) d = some d' := by
  unfold importRecords at h
  split_ifs at h
  · rcases bind_eq_error_iff.mp h with hloop | ⟨s, hfold, hfinish⟩
    · obtain ⟨before, record, after, s, rfl, hfold, hstop⟩ := foldlM_eq_error_iff.mp hloop
      exact (inserting_of_foldlM hfold).stop hstop after
    · have hdone := inserting_of_foldlM hfold
      unfold finishImport at hfinish
      split_ifs at hfinish
      cases hfinish
      exact hdone.committed
  · cases h
    exact ⟨0, rfl⟩

end Import

/-! ## Tables that are filled -/

section Fill

/-- What an {lit}`INSERT` statement makes of the rows of its table, for some values. -/
abbrev Inserts : Type :=
  String → List String → List RowData → List RowData

/-- A table that is to be filled: the statement, and the values of the good records of its
file. -/
structure TableFill where
  table : String
  insertSql : String
  rows : List (List String)
deriving DecidableEq, Repr

/-- The table of a specification, as its files have it. -/
def tableFill (env : Environment) (baseDir : String) (csvd : CsvSpec) (t : TableSpec) :
    TableFill where
  table := t.name
  insertSql :=
    match readScripts env baseDir t with
    | .ok scripts => scripts.insertSql
    | .error _ => ""
  rows :=
    match readData env baseDir t csvd with
    | .ok data => goodRows data.2 data.1
    | .error _ => []

/-- The statement that fills a table is in its scripts. -/
theorem tableFill_insertSql {env : Environment} {baseDir : String} (csvd : CsvSpec)
    {t : TableSpec} {scripts : Scripts} (h : readScripts env baseDir t = .ok scripts) :
    scripts.insertSql = (tableFill env baseDir csvd t).insertSql := by
  rw [tableFill, h]

/-- A table is filled with the good records of its file. -/
theorem tableFill_rows {env : Environment} {baseDir : String} {csvd : CsvSpec} {t : TableSpec}
    {data : List CsvRecord × List Nat} (h : readData env baseDir t csvd = .ok data) :
    (tableFill env baseDir csvd t).rows = goodRows data.2 data.1 := by
  rw [tableFill, h]

variable (put : Inserts)

/-- What a table holds when the first rows have been inserted, from empty. -/
def TableFill.held (fill : TableFill) (n : Nat) : List RowData :=
  (fill.rows.take n).foldl (fun held refs => put fill.insertSql refs held) []

/-- What a table holds when it is filled. -/
def TableFill.filled (fill : TableFill) : String × List RowData :=
  (fill.table, fill.held put fill.rows.length)

/-- How far a load has come that fails: the tables in front are filled, and the next one is
as it was or holds the first rows. -/
inductive Reached : List TableFill → List (String × List RowData) → Prop
  | between (before after : List TableFill) :
      Reached (before ++ after) (before.map (·.filled put))
  | within (before : List TableFill) (fill : TableFill) (after : List TableFill) (n : Nat) :
      Reached (before ++ fill :: after)
        (before.map (·.filled put) ++ [(fill.table, fill.held put n)])

variable {δ : Type} (db : Engine δ)

/-- The scripts of a table create it if there is none, empty it and insert in it, and do
nothing else.  A script that fails changes no rows. -/
structure FillsTable (table : String) (scripts : Scripts) : Prop where
  create : ∀ d, db.rows (db.executeBatch scripts.createSql d).1 = db.rows d
  clean : ∀ d, db.rows (db.executeBatch scripts.cleanSql d).1 =
    if (db.executeBatch scripts.cleanSql d).2 then Function.update (db.rows d) table []
    else db.rows d
  insert : ∀ refs d d', db.execute scripts.insertSql refs d = some d' →
    db.rows d' = Function.update (db.rows d) table (put scripts.insertSql refs (db.rows d table))

variable {put db} {table : String} {scripts : Scripts}

/-- Some rows are inserted. -/
theorem FillsTable.insertRows (h : FillsTable put db table scripts) {rows : List (List String)}
    {d d' : δ} (hrows : insertRows db scripts.insertSql rows d = some d') :
    db.rows d' = Function.update (db.rows d) table
      (rows.foldl (fun held refs => put scripts.insertSql refs held) (db.rows d table)) := by
  induction rows generalizing d with
  | nil =>
      cases hrows
      exact (Function.update_eq_self table _).symm
  | cons refs rows ih =>
      unfold Loader.insertRows at hrows
      rw [List.foldlM_cons] at hrows
      obtain ⟨d₁, hfirst, hrest⟩ := Option.bind_eq_some_iff.mp hrows
      rw [ih hrest, h.insert refs d d₁ hfirst, Function.update_self, Function.update_idem,
        List.foldl_cons]

/-- The create and the clean script empty the table, unless one of them fails. -/
theorem FillsTable.prepareTable (h : FillsTable put db table scripts) (d : δ) :
    db.rows (prepareTable db scripts d).2 =
      match (prepareTable db scripts d).1 with
      | .ok () => Function.update (db.rows d) table []
      | .error _ => db.rows d := by
  unfold Loader.prepareTable
  split_ifs with hconnects
  · have hcreate := h.create d
    rcases hscript : db.executeBatch scripts.createSql d with ⟨d₁, _ | _⟩
    · rw [hscript] at hcreate
      exact hcreate
    · rw [hscript] at hcreate
      have hclean := h.clean d₁
      dsimp only at hcreate ⊢
      rw [hcreate] at hclean
      rcases hscript' : db.executeBatch scripts.cleanSql d₁ with ⟨d₂, _ | _⟩
      · rw [hscript'] at hclean
        exact hclean
      · rw [hscript'] at hclean
        exact hclean
  · rfl

/-- The table is emptied and some rows are inserted. -/
theorem FillsTable.refilled (h : FillsTable put db table scripts) {fill : TableFill}
    (hinsert : scripts.insertSql = fill.insertSql) {n : Nat} {d d₁ d' : δ}
    (hprepare : Loader.prepareTable db scripts d = (.ok (), d₁))
    (hrows : Loader.insertRows db scripts.insertSql (fill.rows.take n) d₁ = some d') :
    db.rows d' = Function.update (db.rows d) table (fill.held put n) := by
  have hempty := h.prepareTable d
  rw [hprepare] at hempty
  dsimp only at hempty
  rw [h.insertRows hrows, hempty, Function.update_self, Function.update_idem, TableFill.held,
    hinsert]

end Fill

/-! ## Loads -/

section Loads

variable {δ : Type} (put : Inserts) (db : Engine δ) (env : Environment) (baseDir : String)
  (csvd : CsvSpec)

/-- The scripts of a specification, where they can be read, fill its table. -/
def SpecFills (t : TableSpec) : Prop :=
  ∀ scripts, readScripts env baseDir t = .ok scripts → FillsTable put db t.name scripts

variable {put db env baseDir csvd}

/-- The rows that an import of a table leaves. -/
theorem insertRows_of_importTable {load : OptLoadSpec} {insertSql : String} {colIndices : List Nat}
    {records : List CsvRecord} {d d' : δ} {r : KnowledgeResult Nat}
    (h : importTable db load insertSql colIndices records d = (r, d')) :
    ∃ n, insertRows db insertSql ((goodRows colIndices records).take n) d = some d' ∧
      (r.isOk = true → n = (goodRows colIndices records).length) := by
  unfold importTable at h
  split at h
  · rename_i d₁ himport
    obtain ⟨rfl, rfl⟩ := Prod.mk.inj h
    obtain ⟨n, hn⟩ := insertRows_of_importRecords_error himport
    exact ⟨n, hn, fun hok => by cases hok⟩
  · rename_i s himport
    obtain ⟨rfl, rfl⟩ := Prod.mk.inj h
    refine ⟨(goodRows colIndices records).length, ?_, fun _ => rfl⟩
    rw [List.take_length]
    exact insertRows_of_importRecords himport

/-- A table that is loaded is filled. -/
theorem rows_of_loadOneTable {t : TableSpec} (ht : SpecFills put db env baseDir t)
    {load : OptLoadSpec} {d d' : δ}
    (h : loadOneTable db env baseDir t csvd load d = (.ok (), d')) :
    db.rows d' = assignAll (db.rows d) [(tableFill env baseDir csvd t).filled put] := by
  obtain ⟨scripts, d₁, hcall, h⟩ := andThen_eq_ok h
  obtain ⟨hscripts, rfl⟩ := Prod.mk.inj hcall
  obtain ⟨⟨⟩, d₂, hprepare, h⟩ := andThen_eq_ok h
  obtain ⟨data, d₃, hcall, h⟩ := andThen_eq_ok h
  obtain ⟨hdata, rfl⟩ := Prod.mk.inj hcall
  obtain ⟨inserted, d₄, himport, h⟩ := andThen_eq_ok h
  obtain ⟨-, rfl⟩ := Prod.mk.inj h
  obtain ⟨n, hn, hall⟩ := insertRows_of_importTable himport
  have hinsert := tableFill_insertSql csvd hscripts
  have hrows := tableFill_rows hdata
  rw [← hrows, hall rfl, ← hrows] at hn
  exact (ht scripts hscripts).refilled hinsert hprepare hn

/-- A table whose load fails is as it was, or holds the first rows. -/
theorem rows_of_loadOneTable_error {t : TableSpec} (ht : SpecFills put db env baseDir t)
    {load : OptLoadSpec} {e : KnowledgeError} {d d' : δ}
    (h : loadOneTable db env baseDir t csvd load d = (.error e, d')) :
    db.rows d' = db.rows d ∨ ∃ n, db.rows d' =
      assignAll (db.rows d) [(t.name, (tableFill env baseDir csvd t).held put n)] := by
  rcases andThen_eq_error h with hcall | ⟨scripts, d₁, hcall, h⟩
  · obtain ⟨-, rfl⟩ := Prod.mk.inj hcall
    exact .inl rfl
  obtain ⟨hscripts, rfl⟩ := Prod.mk.inj hcall
  have hfills := ht scripts hscripts
  rcases andThen_eq_error h with hprepare | ⟨⟨⟩, d₂, hprepare, h⟩
  · have hkept := hfills.prepareTable d
    rw [hprepare] at hkept
    exact .inl hkept
  right
  rcases andThen_eq_error h with hcall | ⟨data, d₃, hcall, h⟩
  · -- the data cannot be read, and the table stays empty
    obtain ⟨-, rfl⟩ := Prod.mk.inj hcall
    exact ⟨0, hfills.refilled (tableFill_insertSql csvd hscripts) hprepare rfl⟩
  obtain ⟨hdata, rfl⟩ := Prod.mk.inj hcall
  have hinsert := tableFill_insertSql csvd hscripts
  have hrows := tableFill_rows hdata
  have hfilled : ∀ r, importTable db load scripts.insertSql data.2 data.1 d₂ = (r, d') →
      ∃ n, db.rows d' =
        assignAll (db.rows d) [(t.name, (tableFill env baseDir csvd t).held put n)] := by
    intro r himport
    obtain ⟨n, hn, -⟩ := insertRows_of_importTable himport
    rw [← hrows] at hn
    exact ⟨n, hfills.refilled hinsert hprepare hn⟩
  rcases andThen_eq_error h with himport | ⟨inserted, d₄, himport, h⟩
  · exact hfilled _ himport
  · obtain ⟨-, rfl⟩ := Prod.mk.inj h
    exact hfilled _ himport

/-- How far the load of tables has come, with one more table in front. -/
theorem Reached.cons {fills : List TableFill} {assigned : List (String × List RowData)}
    (h : Reached put fills assigned) (fill : TableFill) :
    Reached put (fill :: fills) (fill.filled put :: assigned) := by
  cases h with
  | between before after => exact .between (fill :: before) after
  | within before next after n => exact .within (fill :: before) next after n

variable (put db) in
/-- What a load leaves in the tables: all are filled, or as many as it reached. -/
def Leaves (fills : List TableFill) (d : δ) (succeeds : Bool) (d' : δ) : Prop :=
  ∃ assigned, db.rows d' = assignAll (db.rows d) assigned ∧
    if succeeds then assigned = fills.map (·.filled put) else Reached put fills assigned

/-- A load that does nothing before it fails. -/
theorem leaves_of_fail (fills : List TableFill) (d : δ) : Leaves put db fills d false d :=
  ⟨[], rfl, .between [] fills⟩

/-- The load of one table leaves it filled, or as far as it came. -/
theorem leaves_of_loadOneTable {t : TableSpec} (ht : SpecFills put db env baseDir t)
    {load : OptLoadSpec} {d d' : δ} {r : KnowledgeResult Unit}
    (h : loadOneTable db env baseDir t csvd load d = (r, d')) :
    Leaves put db [tableFill env baseDir csvd t] d r.isOk d' := by
  cases r with
  | ok _ => exact ⟨_, rows_of_loadOneTable ht h, rfl⟩
  | error e =>
      rcases rows_of_loadOneTable_error ht h with hkept | ⟨n, hn⟩
      · exact ⟨[], hkept, .between [] [tableFill env baseDir csvd t]⟩
      · exact ⟨_, hn, .within [] (tableFill env baseDir csvd t) [] n⟩

/-- More tables behind one whose load fails. -/
theorem Reached.append {fills : List TableFill} {assigned : List (String × List RowData)}
    (h : Reached put fills assigned) (more : List TableFill) :
    Reached put (fills ++ more) assigned := by
  cases h with
  | between before after =>
      rw [List.append_assoc]
      exact .between before (after ++ more)
  | within before fill after n =>
      rw [List.append_assoc, List.cons_append]
      exact .within before fill (after ++ more) n

/-- The load of a table, and then that of the others. -/
theorem Leaves.cons {fill : TableFill} {fills : List TableFill} {d d₁ d' : δ} {succeeds : Bool}
    (hfirst : Leaves put db [fill] d true d₁) (hrest : Leaves put db fills d₁ succeeds d') :
    Leaves put db (fill :: fills) d succeeds d' := by
  obtain ⟨assigned, hrows, rfl⟩ := hfirst
  obtain ⟨assigned', hrows', hreached⟩ := hrest
  refine ⟨fill.filled put :: assigned', by rw [hrows', hrows]; rfl, ?_⟩
  cases succeeds with
  | true => exact congrArg (fill.filled put :: ·) hreached
  | false => exact hreached.cons fill

/-- What the load of tables leaves in them. -/
theorem leaves_of_loadTables {tables : List TableSpec} {load : OptLoadSpec}
    (hspecs : ∀ t ∈ tables, t.enabled = true → SpecFills put db env baseDir t) {d d' : δ}
    {r : KnowledgeResult (List String)}
    (h : loadTables db env baseDir csvd load tables d = (r, d')) :
    Leaves put db ((tables.filter (·.enabled)).map (tableFill env baseDir csvd)) d r.isOk d' := by
  induction tables generalizing d r with
  | nil =>
      cases h
      exact ⟨[], rfl, rfl⟩
  | cons t tables ih =>
      obtain ⟨hfirst, hspecs⟩ := List.forall_mem_cons.mp hspecs
      unfold loadTables at h
      split_ifs at h with henabled
      · have ht := hfirst henabled
        rw [List.filter_cons_of_pos henabled, List.map_cons]
        cases r with
        | ok names =>
            obtain ⟨⟨⟩, d₁, hload, h⟩ := andThen_eq_ok h
            obtain ⟨names', d₂, hrest, h⟩ := andThen_eq_ok h
            cases h
            have hafter := ih hspecs hrest
            exact (leaves_of_loadOneTable ht hload).cons hafter
        | error e =>
            rcases andThen_eq_error h with hload | ⟨⟨⟩, d₁, hload, h⟩
            · obtain ⟨assigned, hrows, hreached⟩ := leaves_of_loadOneTable ht hload
              exact ⟨assigned, hrows, hreached.append _⟩
            · rcases andThen_eq_error h with hrest | ⟨names, d₂, -, h⟩
              · exact (leaves_of_loadOneTable ht hload).cons (ih hspecs hrest)
              · cases h
      · rw [List.filter_cons_of_neg henabled]
        exact ih hspecs h

/-- The names of the tables that are loaded. -/
theorem names_of_loadTables {tables : List TableSpec} {load : OptLoadSpec} {d d' : δ}
    {names : List String}
    (h : loadTables db env baseDir csvd load tables d = (.ok names, d')) :
    names = (tables.filter (·.enabled)).map (·.name) := by
  induction tables generalizing d names with
  | nil =>
      cases h
      rfl
  | cons t tables ih =>
      unfold loadTables at h
      split_ifs at h with henabled
      · obtain ⟨⟨⟩, d₁, -, h⟩ := andThen_eq_ok h
        obtain ⟨names', d₂, hrest, h⟩ := andThen_eq_ok h
        cases h
        rw [List.filter_cons_of_pos henabled, List.map_cons, ih hrest]
      · rw [List.filter_cons_of_neg henabled]
        exact ih h

end Loads

/-! ## Calls -/

/-- A call that loads tables of the authority: all of a configuration, or one of them
again. -/
structure LoadCall where
  env : Environment
  root : String
  confPath : String
  authorityUri : String
  table : Option String

/-- What such a call returns. -/
inductive LoadReply where
  | names (loaded : List String)
  | rows (rows : List RowData)

namespace LoadCall

variable {δ : Type} (put : Inserts) (db : Engine δ) (c : LoadCall)

/-- The call on a database. -/
def perform (d : δ) : KnowledgeResult LoadReply × δ :=
  match c.table with
  | none =>
      let r := buildAuthorityFromKnowdb db c.env c.root c.confPath c.authorityUri d
      (r.1.map .names, r.2)
  | some table =>
      let r := reloadTableRows db c.env c.root c.confPath c.authorityUri table d
      (r.1.map .rows, r.2)

/-- The tables of its configuration that a call loads, in order. -/
def specs (conf : KnowDbConf) : List TableSpec :=
  match c.table with
  | none => conf.tables.filter (·.enabled)
  | some table => (conf.tables.find? fun t => t.enabled && t.name == table).toList

/-- What a call fills its tables with. -/
def fills : List TableFill :=
  match c.env.parseKnowdbConf c.root c.confPath with
  | .ok conf => (c.specs conf.1).map (tableFill c.env conf.2 conf.1.csv)
  | .error _ => []

/-- The scripts of all tables of a call fill them. -/
def ScriptsFill : Prop :=
  ∀ conf, c.env.parseKnowdbConf c.root c.confPath = .ok conf →
    ∀ t ∈ conf.1.tables, t.enabled = true → SpecFills put db c.env conf.2 t

/-- What is read back of a table of a call depends on the rows the table holds. -/
def SelectsRows : Prop :=
  ∀ conf, c.env.parseKnowdbConf c.root c.confPath = .ok conf →
    ∀ t ∈ conf.1.tables, ∀ d d', db.rows d t.name = db.rows d' t.name →
      db.query (selectSql t) d = db.query (selectSql t) d'

variable {put db} {c}

/-- What building the authority leaves. -/
theorem leaves_of_build (hfills : c.ScriptsFill put db) (htable : c.table = none) {d d' : δ}
    {r : KnowledgeResult (List String)}
    (h : buildAuthorityFromKnowdb db c.env c.root c.confPath c.authorityUri d = (r, d')) :
    Leaves put db c.fills d r.isOk d' := by
  unfold buildAuthorityFromKnowdb at h
  unfold fills
  cases hconf : c.env.parseKnowdbConf c.root c.confPath with
  | error e =>
      rw [hconf] at h
      cases h
      exact leaves_of_fail [] d
  | ok conf =>
      rw [hconf] at h
      cases hopen : openAuthority db c.authorityUri with
      | error e =>
          simp only [andThen, hopen] at h
          cases h
          exact leaves_of_fail _ d
      | ok _ =>
          simp only [andThen, hopen] at h
          have hleaves := leaves_of_loadTables (hfills conf hconf) h
          simp only [specs, htable]
          exact hleaves

/-- The table that a reload finds. -/
theorem find?_of_findTable {env : Environment} {conf : KnowDbConf} {table : String}
    {t : TableSpec} (h : findTable env conf table = .ok t) :
    (conf.tables.find? fun t => t.enabled && t.name == table) = some t := by
  unfold findTable at h
  split at h
  · cases h
  · rename_i t' hfind
    split_ifs at h
    cases h
    exact hfind

/-- What a reload leaves. -/
theorem leaves_of_reload (hfills : c.ScriptsFill put db) {table : String}
    (htable : c.table = some table) {d d' : δ} {r : KnowledgeResult (List RowData)}
    (h : reloadTableRows db c.env c.root c.confPath c.authorityUri table d = (r, d')) :
    Leaves put db c.fills d r.isOk d' := by
  unfold reloadTableRows at h
  unfold fills
  cases hconf : c.env.parseKnowdbConf c.root c.confPath with
  | error e =>
      rw [hconf] at h
      cases h
      exact leaves_of_fail [] d
  | ok conf =>
      rw [hconf] at h
      cases hfind : findTable c.env conf.1 table with
      | error e =>
          simp only [andThen, hfind] at h
          cases h
          exact leaves_of_fail _ d
      | ok t =>
          cases hopen : openAuthority db c.authorityUri with
          | error e =>
              simp only [andThen, hfind, hopen] at h
              cases h
              exact leaves_of_fail _ d
          | ok _ =>
              simp only [andThen, hfind, hopen] at h
              have hspec := find?_of_findTable hfind
              have henabled : t.enabled = true := by
                have hfound := List.find?_some hspec
                rw [Bool.and_eq_true] at hfound
                exact hfound.1
              have ht := hfills conf hconf t (List.mem_of_find?_eq_some hspec) henabled
              simp only [specs, htable, hspec, Option.toList_some, List.map_cons, List.map_nil]
              rcases hload : loadOneTable db c.env conf.2 t conf.1.csv conf.1.default d with
                ⟨e | ⟨⟩, d₁⟩
              · rw [hload] at h
                cases h
                exact leaves_of_loadOneTable ht hload
              · rw [hload] at h
                cases h
                obtain ⟨assigned, hrows, rfl⟩ := leaves_of_loadOneTable ht hload
                refine ⟨_, hrows, ?_⟩
                split_ifs with hok
                · rfl
                · exact .between [tableFill c.env conf.2 conf.1.csv t] []

/-- **What a load leaves**: all tables of the call filled, or as many as it reached. -/
theorem overwrites (hfills : c.ScriptsFill put db) {d d' : δ} {r : KnowledgeResult LoadReply}
    (h : c.perform db d = (r, d')) : Leaves put db c.fills d r.isOk d' := by
  have hmap : ∀ {α : Type} (r : KnowledgeResult α) (f : α → LoadReply),
      (r.map f).isOk = r.isOk := by
    intro α r f
    cases r <;> rfl
  unfold perform at h
  split at h
  · rename_i htable
    cases h
    rw [hmap]
    exact leaves_of_build hfills htable rfl
  · rename_i table htable
    cases h
    rw [hmap]
    exact leaves_of_reload hfills htable rfl

/-- The names that building the authority returns. -/
theorem names_of_build (htable : c.table = none) {d d' : δ} {names : List String}
    (h : buildAuthorityFromKnowdb db c.env c.root c.confPath c.authorityUri d = (.ok names, d')) :
    names = c.fills.map (·.table) := by
  obtain ⟨conf, d₁, hcall, h⟩ := andThen_eq_ok h
  obtain ⟨hconf, rfl⟩ := Prod.mk.inj hcall
  obtain ⟨⟨⟩, d₂, hcall, h⟩ := andThen_eq_ok h
  rw [names_of_loadTables h, fills, hconf]
  dsimp only
  rw [specs, htable, List.map_map]
  rfl

/-- The rows that a reload returns are read from the database it leaves. -/
theorem query_of_reload {table : String} {d d' : δ} {rows : List RowData}
    (h : reloadTableRows db c.env c.root c.confPath c.authorityUri table d = (.ok rows, d')) :
    ∃ conf t, c.env.parseKnowdbConf c.root c.confPath = .ok conf ∧
      findTable c.env conf.1 table = .ok t ∧ db.query (selectSql t) d' = .ok rows := by
  obtain ⟨conf, d₁, hcall, h⟩ := andThen_eq_ok h
  obtain ⟨hconf, rfl⟩ := Prod.mk.inj hcall
  obtain ⟨t, d₂, hcall, h⟩ := andThen_eq_ok h
  obtain ⟨ht, rfl⟩ := Prod.mk.inj hcall
  obtain ⟨⟨⟩, d₃, hcall, h⟩ := andThen_eq_ok h
  obtain ⟨⟨⟩, d₄, hload, h⟩ := andThen_eq_ok h
  obtain ⟨hquery, rfl⟩ := Prod.mk.inj h
  unfold queryRows at hquery
  split_ifs at hquery
  exact ⟨conf, t, hconf, ht, hquery⟩

/-- After a successful call its tables hold the same, whatever they held before. -/
theorem rows_eq (hfills : c.ScriptsFill put db) {d d' d₀ d₀' : δ} {reply reply₀ : LoadReply}
    (h : c.perform db d = (.ok reply, d')) (h₀ : c.perform db d₀ = (.ok reply₀, d₀'))
    {table : String} (htable : table ∈ c.fills.map (·.table)) :
    db.rows d₀' table = db.rows d' table := by
  obtain ⟨assigned, hrows, rfl⟩ := overwrites hfills h
  obtain ⟨assigned₀, hrows₀, rfl⟩ := overwrites hfills h₀
  rw [hrows, hrows₀]
  apply assignAll_eq_of_mem
  rw [List.map_map]
  exact htable

/-- A successful call returns the same, whatever the tables held before. -/
theorem reply_eq (hfills : c.ScriptsFill put db) (hselect : c.SelectsRows db) {d d' d₀ d₀' : δ}
    {reply reply₀ : LoadReply} (h : c.perform db d = (.ok reply, d'))
    (h₀ : c.perform db d₀ = (.ok reply₀, d₀')) : reply₀ = reply := by
  have hrows := @rows_eq δ put db c hfills _ _ _ _ _ _ h h₀
  unfold perform at h h₀
  cases htable : c.table with
  | none =>
      simp only [htable] at h h₀
      obtain ⟨hreply, hd⟩ := Prod.mk.inj h
      obtain ⟨hreply₀, hd₀⟩ := Prod.mk.inj h₀
      obtain ⟨names, hnames, rfl⟩ := map_eq_ok_iff.mp hreply
      obtain ⟨names₀, hnames₀, rfl⟩ := map_eq_ok_iff.mp hreply₀
      rw [names_of_build htable (Prod.ext hnames hd), names_of_build htable (Prod.ext hnames₀ hd₀)]
  | some table =>
      simp only [htable] at h h₀
      obtain ⟨hreply, hd⟩ := Prod.mk.inj h
      obtain ⟨hreply₀, hd₀⟩ := Prod.mk.inj h₀
      obtain ⟨rows, hok, rfl⟩ := map_eq_ok_iff.mp hreply
      obtain ⟨rows₀, hok₀, rfl⟩ := map_eq_ok_iff.mp hreply₀
      obtain ⟨conf, t, hconf, ht, hquery⟩ := query_of_reload (Prod.ext hok hd)
      obtain ⟨conf₀, t₀, hconf₀, ht₀, hquery₀⟩ := query_of_reload (Prod.ext hok₀ hd₀)
      obtain rfl := Except.ok.inj (hconf.symm.trans hconf₀)
      obtain rfl := Except.ok.inj (ht.symm.trans ht₀)
      have hmem : t.name ∈ c.fills.map (·.table) := by
        simp [fills, hconf, specs, htable, find?_of_findTable ht, tableFill]
      have hspec := List.mem_of_find?_eq_some (find?_of_findTable ht)
      have hsame := hselect conf hconf t hspec d₀' d' (hrows hmem)
      rw [hquery, hquery₀] at hsame
      rw [Except.ok.inj hsame]

end LoadCall

/-! ## Two rows -/

/-- Files of the table `t` with two records. -/
def twoRowsEnv : Environment where
  files path :=
    if path = "/kdb/knowdb.toml" then .contents "version = 2".toUTF8
    else if path = "/kdb/tables/t/create.sql" then .contents "CREATE TABLE IF NOT EXISTS t (c)".toUTF8
    else if path = "/kdb/tables/t/insert.sql" then .contents "INSERT INTO t VALUES (?1)".toUTF8
    else if path = "/kdb/tables/t/data.csv" then .contents "c\na\nb\n".toUTF8
    else .missing
  parseToml _ :=
    some { version := 2, baseDir := "tables"
           tables := [{ name := "t", columns := { byHeader := ["c"] } }] }
  readCsv _ _ := { headers := some ["c"], records := [.fields ["a"], .fields ["b"]] }
  isPrintable c := c.isAlphanum

/-- The load of all tables of these files, or of one. -/
def twoRowsCall (table : Option String) : LoadCall where
  env := twoRowsEnv
  root := "/"
  confPath := "/kdb/knowdb.toml"
  authorityUri := "/a.db"
  table := table

/-- A row of texts goes to the end. -/
def putTexts : Inserts :=
  fun _ refs held => held ++ [refs.map (DataField.fromChars "c")]

/-- The configuration and the scripts of these files. -/
theorem twoRowsEnv_eq :
    twoRowsEnv.parseKnowdbConf "/" "/kdb/knowdb.toml" =
        .ok ({ version := 2, baseDir := "tables"
               tables := [{ name := "t", columns := { byHeader := ["c"] } }] }, "/kdb/tables") ∧
      (readScripts twoRowsEnv "/kdb/tables"
        { name := "t", columns := { byHeader := ["c"] } }).map
          (fun s => (s.createSql, s.cleanSql)) =
        .ok ("CREATE TABLE IF NOT EXISTS t (c)", "DELETE FROM t") := by
  decide +kernel

/-- The scripts of these files fill the table `t`. -/
theorem scriptsFill_twoRowsCall (table : Option String) :
    (twoRowsCall table).ScriptsFill putTexts oneTableEngine := by
  intro conf hconf t ht _ scripts hscripts
  obtain ⟨hparse, htexts⟩ := twoRowsEnv_eq
  obtain rfl := Except.ok.inj (hparse.symm.trans hconf)
  obtain rfl := List.mem_singleton.mp ht
  have hread : readScripts twoRowsEnv "/kdb/tables"
      { name := "t", columns := { byHeader := ["c"] } } = .ok scripts := hscripts
  rw [hread] at htexts
  obtain ⟨hcreate, hclean⟩ := Prod.mk.inj (Except.ok.inj htexts)
  refine ⟨?_, ?_, ?_⟩
  · intro d
    rw [hcreate]
    rfl
  · intro d
    rw [hclean]
    funext name
    by_cases hname : name = "t"
    · subst hname
      rfl
    · simp [oneTableEngine, Function.update, hname]
  · intro refs d d' hexecute
    obtain rfl := Option.some.inj hexecute
    funext name
    by_cases hname : name = "t"
    · subst hname
      simp [oneTableEngine, putTexts]
    · simp [oneTableEngine, Function.update, hname]

theorem selectsRows_twoRowsCall (table : Option String) :
    (twoRowsCall table).SelectsRows oneTableEngine := by
  intro conf hconf t ht d d' hrows
  obtain rfl := Except.ok.inj (twoRowsEnv_eq.1.symm.trans hconf)
  obtain rfl := List.mem_singleton.mp ht
  exact congrArg Except.ok hrows

/-- Either load succeeds, on any rows, and leaves two. -/
theorem perform_twoRowsCall (table : Option String) (htable : table ∈ [none, some "t"]) :
    ∃ reply, (twoRowsCall table).perform oneTableEngine [["old"]] =
      (.ok reply, [["a"], ["b"]]) := by
  have hall : ∀ table ∈ [none, some "t"],
      ((twoRowsCall table).perform oneTableEngine [["old"]]).2 = [["a"], ["b"]] ∧
        ((twoRowsCall table).perform oneTableEngine [["old"]]).1.isOk = true := by
    decide +kernel
  obtain ⟨hd, hok⟩ := hall table htable
  rcases hperform : (twoRowsCall table).perform oneTableEngine [["old"]] with ⟨e | reply, d'⟩
  · rw [hperform] at hok
    cases hok
  · rw [hperform] at hd
    exact ⟨reply, by rw [← hd]⟩

/-! ## What loads leave -/

section Main

variable {δ : Type} {put : Inserts} {db : Engine δ} {c : LoadCall}

/-- **A load overwrites its tables.**  A load that succeeds leaves in each of its tables what
the files say, in the others what they held, and returns what does not depend on the
database it found.  One that fails has filled some tables in front and left alone those
behind, and the one between it has left alone or filled with the first rows. -/
theorem load_overwrites (hfills : c.ScriptsFill put db) (hselect : c.SelectsRows db) (d : δ) :
    (∀ reply d', c.perform db d = (.ok reply, d') →
      db.rows d' = assignAll (db.rows d) (c.fills.map (·.filled put)) ∧
        ∀ d₀ reply₀ d₀', c.perform db d₀ = (.ok reply₀, d₀') →
          reply₀ = reply ∧ ∀ fill ∈ c.fills, db.rows d₀' fill.table = db.rows d' fill.table) ∧
      ∀ e d', c.perform db d = (.error e, d') →
        ∃ assigned, Reached put c.fills assigned ∧
          db.rows d' = assignAll (db.rows d) assigned := by
  constructor
  · intro reply d' h
    obtain ⟨assigned, hrows, rfl⟩ := LoadCall.overwrites hfills h
    refine ⟨hrows, ?_⟩
    intro d₀ reply₀ d₀' h₀
    refine ⟨LoadCall.reply_eq hfills hselect h h₀, ?_⟩
    intro fill hfill
    exact LoadCall.rows_eq hfills h h₀ (List.mem_map_of_mem hfill)
  · intro e d' h
    obtain ⟨assigned, hrows, hreached⟩ := LoadCall.overwrites hfills h
    exact ⟨assigned, hreached, hrows⟩

/-- The old row is gone after a load. -/
theorem load_overwrites_twoRows :
    oneTableEngine.rows [["a"], ["b"]] =
      assignAll (oneTableEngine.rows [["old"]])
        ((twoRowsCall none).fills.map (·.filled putTexts)) := by
  obtain ⟨reply, hperform⟩ := perform_twoRowsCall none (by decide)
  exact ((load_overwrites (scriptsFill_twoRowsCall none) (selectsRows_twoRowsCall none)
    [["old"]]).1 reply _ hperform).1

/-- What a load that fails assigns to a table are the first rows of its file. -/
theorem Reached.mem {fills : List TableFill} {assigned : List (String × List RowData)}
    (h : Reached put fills assigned) {a : String × List RowData} (ha : a ∈ assigned) :
    ∃ fill ∈ fills, fill.table = a.1 ∧ ∃ n, a.2 = fill.held put n := by
  cases h with
  | between before after =>
      obtain ⟨fill, hfill, rfl⟩ := List.mem_map.mp ha
      exact ⟨fill, List.mem_append_left after hfill, rfl, fill.rows.length, rfl⟩
  | within before fill after n =>
      rcases List.mem_append.mp ha with ha | ha
      · obtain ⟨fill', hfill, rfl⟩ := List.mem_map.mp ha
        exact ⟨fill', List.mem_append_left _ hfill, rfl, fill'.rows.length, rfl⟩
      · obtain rfl := List.mem_singleton.mp ha
        exact ⟨fill, List.mem_append_right before List.mem_cons_self, rfl, n, rfl⟩

/-- After a load a table holds what it held, or the first rows of its file. -/
theorem Leaves.rows_cases {fills : List TableFill} {d d' : δ} {succeeds : Bool}
    (h : Leaves put db fills d succeeds d') (table : String) :
    db.rows d' table = db.rows d table ∨
      ∃ fill ∈ fills, fill.table = table ∧ ∃ n, db.rows d' table = fill.held put n := by
  obtain ⟨assigned, hrows, hassigned⟩ := h
  rw [hrows]
  refine (assignAll_cases (db.rows d) assigned table).imp_right ?_
  intro hmem
  cases succeeds with
  | false => exact hassigned.mem hmem
  | true =>
      obtain rfl := hassigned
      obtain ⟨fill, hfill, heq⟩ := List.mem_map.mp hmem
      obtain ⟨htable, hheld⟩ := Prod.mk.inj heq
      exact ⟨fill, hfill, htable, fill.rows.length, hheld.symm⟩

/-- A load leaves alone the tables that are not its own. -/
theorem Leaves.rows_of_not_mem {fills : List TableFill} {d d' : δ} {succeeds : Bool}
    (h : Leaves put db fills d succeeds d') {table : String}
    (htable : table ∉ fills.map (·.table)) : db.rows d' table = db.rows d table := by
  refine (h.rows_cases table).resolve_right ?_
  rintro ⟨fill, hfill, rfl, -⟩
  exact htable (List.mem_map_of_mem hfill)

variable (db) in
/-- Loads, one after the other, each with the files as it finds them. -/
def runLoads (calls : List LoadCall) (d : δ) : δ :=
  calls.foldl (fun d c => (c.perform db d).2) d

theorem runLoads_append (calls calls' : List LoadCall) (d : δ) :
    runLoads db (calls ++ calls') d = runLoads db calls' (runLoads db calls d) :=
  List.foldl_append

/-- Loads leave alone the tables that are not their own. -/
theorem rows_of_runLoads {calls : List LoadCall} (hfills : ∀ c ∈ calls, c.ScriptsFill put db)
    {table : String} (htable : ∀ c ∈ calls, table ∉ c.fills.map (·.table)) (d : δ) :
    db.rows (runLoads db calls d) table = db.rows d table := by
  induction calls generalizing d with
  | nil => rfl
  | cons c calls ih =>
      obtain ⟨hfirst, hfills⟩ := List.forall_mem_cons.mp hfills
      obtain ⟨hc, htable⟩ := List.forall_mem_cons.mp htable
      have hstep : Leaves put db c.fills d _ (c.perform db d).2 := LoadCall.overwrites hfirst rfl
      rw [← hstep.rows_of_not_mem hc]
      exact ih hfills htable (c.perform db d).2

/-- **The tables after any loads**, successful or not, of all tables or one, with files that
may change between them.  Each table holds what it held at first, or the first rows of its
file as one of the loads found it; rows of two versions are never mixed.  When a load has
succeeded and no later one is of the table, it holds all rows of that file; of several
specifications of one name the last one counts. -/
theorem tables_of_run {calls : List LoadCall} (hfills : ∀ c ∈ calls, c.ScriptsFill put db) (d : δ)
    (table : String) :
    (db.rows (runLoads db calls d) table = db.rows d table ∨
        ∃ c ∈ calls, ∃ fill ∈ c.fills, fill.table = table ∧
          ∃ n, db.rows (runLoads db calls d) table = fill.held put n) ∧
      ∀ before c after reply d', calls = before ++ c :: after →
        c.perform db (runLoads db before d) = (.ok reply, d') →
        (∀ c' ∈ after, table ∉ c'.fills.map (·.table)) →
        ∀ front fill back, c.fills = front ++ fill :: back → fill.table = table →
          table ∉ back.map (·.table) →
          db.rows (runLoads db calls d) table = fill.held put fill.rows.length := by
  constructor
  · induction calls generalizing d with
    | nil => exact .inl rfl
    | cons c calls ih =>
        obtain ⟨hfirst, hfills⟩ := List.forall_mem_cons.mp hfills
        have hstep : Leaves put db c.fills d _ (c.perform db d).2 := LoadCall.overwrites hfirst rfl
        rcases ih hfills (c.perform db d).2 with hkept | ⟨c', hc', hfound⟩
        · rcases hstep.rows_cases table with hsame | ⟨fill, hfill, htable, n, hn⟩
          · exact .inl (hkept.trans hsame)
          · exact .inr ⟨c, List.mem_cons_self, fill, hfill, htable, n, hkept.trans hn⟩
        · exact .inr ⟨c', List.mem_cons_of_mem c hc', hfound⟩
  · rintro before c after reply d' rfl hperform hafter front fill back hfill rfl hback
    have hc : c.ScriptsFill put db := hfills c (by simp)
    have hlater : ∀ c' ∈ after, c'.ScriptsFill put db := fun c' hc' => hfills c' (by simp [hc'])
    have hrun : runLoads db (before ++ c :: after) d = runLoads db after d' := by
      rw [runLoads_append]
      change runLoads db after (c.perform db (runLoads db before d)).2 = _
      rw [hperform]
    obtain ⟨assigned, hrows, rfl⟩ := LoadCall.overwrites hc hperform
    rw [hrun, rows_of_runLoads hlater hafter, hrows, hfill, List.map_append, List.map_cons]
    apply assignAll_append_cons
    rw [List.map_map]
    exact hback

/-- After a reload the table holds the two rows of its file. -/
theorem tables_of_run_twoRows :
    oneTableEngine.rows (runLoads oneTableEngine [twoRowsCall (some "t")] [["old"]]) "t" =
      (TableFill.mk "t" "INSERT INTO t VALUES (?1)" [["a"], ["b"]]).held putTexts 2 := by
  have hfills : (twoRowsCall (some "t")).fills =
      [] ++ TableFill.mk "t" "INSERT INTO t VALUES (?1)" [["a"], ["b"]] :: [] := by
    decide +kernel
  obtain ⟨reply, hperform⟩ := perform_twoRowsCall (some "t") (by decide)
  have hscripts : ∀ c ∈ [twoRowsCall (some "t")], c.ScriptsFill putTexts oneTableEngine := by
    intro c hc
    obtain rfl := List.mem_singleton.mp hc
    exact scriptsFill_twoRowsCall (some "t")
  exact (tables_of_run hscripts [["old"]] "t").2 [] _ [] reply _ rfl hperform (by simp) [] _ []
    hfills rfl (by simp)

end Main

end Loader

end WpKnowledge
