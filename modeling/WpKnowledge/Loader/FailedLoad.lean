import WpKnowledge.Loader.Contents

/-!
# Loads that fail

A load makes its writes one after the other, and each is committed on its own.  When it
fails, because SQLite refuses a write or because the configuration or a file is in error,
what was committed by then stays: the create and the clean script are run before the data
file is opened.  What is left in the tables is known from the configuration, the files and
the rows before the load, once it is known what the statements do to the rows.

Main results:

- Theorem {lit}`failed_load_keeps_rows_iff`: for which configurations, files and rows a load
  leaves every table as it was whenever it fails.
- Theorem {lit}`writes_nothing_iff`: for which configurations and files it does so for all
  statements and all rows.
- Theorem {lit}`reload_of_missing_data`: a reload empties a table whose data file is missing.
-/

namespace WpKnowledge

namespace Loader

open Foundation

/-- The rows of all tables. -/
abbrev Rows : Type :=
  String → List RowData

/-- What SQL does to the rows: each statement of a script, and an `INSERT` with its values. -/
structure SqlMeaning where
  statements : String → List (Rows → Rows)
  insert : String → List String → Rows → Rows

/-- The rows after some statements. -/
def runStatements (statements : List (Rows → Rows)) (held : Rows) : Rows :=
  statements.foldl (fun held statement => statement held) held

/-- SQLite does what the statements mean.  A script stops at the first statement that fails,
and what the statements before it did stays. -/
structure Engine.Follows {δ : Type} (db : Engine δ) (sem : SqlMeaning) : Prop where
  script : ∀ sql d d', db.executeBatch sql d = (d', true) →
    db.rows d' = runStatements (sem.statements sql) (db.rows d)
  script_failed : ∀ sql d d', db.executeBatch sql d = (d', false) →
    ∃ n < (sem.statements sql).length,
      db.rows d' = runStatements ((sem.statements sql).take n) (db.rows d)
  insert : ∀ sql refs d d', db.execute sql refs d = some d' →
    db.rows d' = sem.insert sql refs (db.rows d)

/-- SQLite refuses nothing. -/
structure Engine.Willing {δ : Type} (db : Engine δ) : Prop where
  opens : ∀ uri, db.opens uri = true
  connects : ∀ d, db.connects d = true
  script : ∀ sql d, (db.executeBatch sql d).2 = true
  begins : ∀ d, db.begins d = true
  prepares : ∀ sql d, db.prepares sql d = true
  execute : ∀ sql refs d, db.execute sql refs d ≠ none
  commits : ∀ d, db.commits d = true
  query : ∀ sql d, (db.query sql d).isOk = true

namespace SqlMeaning

variable (sem : SqlMeaning)

/-- The rows after some `INSERT`s of one statement. -/
def insertAll (insertSql : String) (rows : List (List String)) (held : Rows) : Rows :=
  rows.foldl (fun held refs => sem.insert insertSql refs held) held

/-- What the writes of a load do to the rows.  Only a script may leave a part of its
effects when it fails. -/
def effects : Effects Write Rows where
  done
    | .script sql, held => runStatements (sem.statements sql) held
    | .row insertSql refs, held => sem.insert insertSql refs held
    | .batch insertSql rows, held => sem.insertAll insertSql rows held
    | .connect, held | .prepare _ _, held | .select _, held => held
  failed
    | .script sql, held =>
        (List.range (sem.statements sql).length).map fun n =>
          runStatements ((sem.statements sql).take n) held
    | .connect, held | .prepare _ _, held | .row _ _, held | .batch _ _, held
    | .select _, held => [held]

end SqlMeaning

section Follows

variable {δ : Type} {db : Engine δ} {sem : SqlMeaning}

/-- Rows that are inserted one after the other. -/
theorem Engine.Follows.rows_insertRows (h : db.Follows sem) {insertSql : String}
    {rows : List (List String)} {d d' : δ} (hrows : insertRows db insertSql rows d = some d') :
    db.rows d' = sem.insertAll insertSql rows (db.rows d) := by
  induction rows generalizing d with
  | nil =>
      cases hrows
      rfl
  | cons refs rows ih =>
      rw [insertRows, List.foldlM_cons] at hrows
      obtain ⟨d₁, hfirst, hrest⟩ := Option.bind_eq_some_iff.mp hrows
      rw [ih hrest, h.insert insertSql refs d d₁ hfirst]
      rfl

/-- A batch is committed as a whole, or nothing of it. -/
theorem perform_batch_cases (insertSql : String) (rows : List (List String)) (d : δ) :
    (∃ d', insertRows db insertSql rows d = some d' ∧
        perform db (.batch insertSql rows) d = (d', true)) ∨
      perform db (.batch insertSql rows) d = (d, false) := by
  cases hrows : insertRows db insertSql rows d with
  | none => exact .inr (perform_batch_of_none db insertSql hrows)
  | some d' =>
      cases hbegins : db.begins d with
      | false => exact .inr (perform_batch_of_not_begins db insertSql hbegins rows)
      | true =>
          rw [perform_batch_of_some db insertSql hrows hbegins]
          split_ifs
          · exact .inl ⟨d', rfl, rfl⟩
          · exact .inr rfl

/-- The writes of a load do to the rows what the statements mean. -/
theorem Engine.Follows.describe (h : db.Follows sem) :
    sem.effects.Describe db.rows (perform db) := by
  constructor
  · intro w d d' hw
    cases w with
    | connect | prepare | select =>
        obtain ⟨rfl, -⟩ := Prod.mk.inj hw
        rfl
    | script sql => exact h.script sql d d' hw
    | row insertSql refs =>
        simp only [perform] at hw
        split at hw
        · rename_i d₁ hexecute
          obtain ⟨rfl, -⟩ := Prod.mk.inj hw
          exact h.insert insertSql refs d d₁ hexecute
        · cases hw
    | batch insertSql rows =>
        rcases perform_batch_cases insertSql rows d with ⟨d₁, hrows, hbatch⟩ | hbatch
        · rw [hbatch] at hw
          obtain ⟨rfl, -⟩ := Prod.mk.inj hw
          exact h.rows_insertRows hrows
        · rw [hbatch] at hw
          cases hw
  · intro w d d' hw
    cases w with
    | connect | prepare | select =>
        obtain ⟨rfl, -⟩ := Prod.mk.inj hw
        exact List.mem_singleton_self _
    | script sql =>
        obtain ⟨n, hn, hrows⟩ := h.script_failed sql d d' hw
        rw [hrows]
        exact List.mem_map_of_mem (List.mem_range.mpr hn)
    | row insertSql refs =>
        simp only [perform] at hw
        split at hw
        · cases hw
        · obtain ⟨rfl, -⟩ := Prod.mk.inj hw
          exact List.mem_singleton_self _
    | batch insertSql rows =>
        rcases perform_batch_cases insertSql rows d with ⟨d₁, hrows, hbatch⟩ | hbatch
        · rw [hbatch] at hw
          cases hw
        · rw [hbatch] at hw
          obtain ⟨rfl, -⟩ := Prod.mk.inj hw
          exact List.mem_singleton_self _

/-- A SQLite that refuses nothing makes every write. -/
theorem Engine.Willing.attempt (h : db.Willing) (ws : List Write) (d : δ) :
    (Foundation.attempt (perform db) ws d).2 = true := by
  have hinsert : ∀ insertSql rows d, ∃ d', insertRows db insertSql rows d = some d' := by
    intro insertSql rows
    induction rows with
    | nil => exact fun d => ⟨d, rfl⟩
    | cons refs rows ih =>
        intro d
        obtain ⟨d₁, hfirst⟩ := Option.ne_none_iff_exists'.mp (h.execute insertSql refs d)
        obtain ⟨d', hrest⟩ := ih d₁
        exact ⟨d', by simpa [insertRows, hfirst] using hrest⟩
  have hone : ∀ w d, (perform db w d).2 = true := by
    intro w d
    cases w with
    | connect => exact h.connects d
    | prepare transaction insertSql => simp [perform, h.connects, h.begins, h.prepares]
    | select sql => simp [perform, h.connects, h.query]
    | script sql => exact h.script sql d
    | row insertSql refs =>
        obtain ⟨d', hexecute⟩ := Option.ne_none_iff_exists'.mp (h.execute insertSql refs d)
        simp [perform, hexecute]
    | batch insertSql rows =>
        obtain ⟨d', hrows⟩ := hinsert insertSql rows d
        simp [perform, hrows, h.begins, h.commits]
  induction ws generalizing d with
  | nil => rfl
  | cons w ws ih =>
      have hw : perform db w d = ((perform db w d).1, true) := Prod.ext rfl (hone w d)
      rw [attempt_cons_of_ok _ hw]
      exact ih _

end Follows

/-! ## A SQLite that gives up -/

section GivesUp

variable (sem : SqlMeaning)

end GivesUp

/-! ## The writes of a call -/

namespace LoadCall

variable (c : LoadCall)

/-- The writes that the configuration and the files ask for. -/
def writes : Plan Write :=
  thenPlan (c.env.parseKnowdbConf c.root c.confPath) fun conf =>
    match c.table with
    | none => tablesPlan c.env conf.2 conf.1.csv conf.1.default conf.1.tables
    | some table =>
        thenPlan (findTable c.env conf.1 table) fun t =>
          (tablePlan c.env conf.2 t conf.1.csv conf.1.default).append
            { steps := [.select (selectSql t)], completes := true }

variable {δ : Type} (db : Engine δ)

variable {c db}

end LoadCall

/-! ## The scripts of the first table -/

section Prepares

/-- A plan without writes, or one that begins with the two scripts of a table, after which
something else can fail. -/
def PreparesTable (p : Plan Write) : Prop :=
  p.steps = [] ∨ ∃ create clean rest,
    p.steps = .connect :: .script create :: .script clean :: rest ∧
      ((rest = [] ∧ p.completes = false) ∨
        ∃ transaction insertSql ws, rest = .prepare transaction insertSql :: ws)

/-- What comes after a plan that prepares a table. -/
theorem PreparesTable.append {p q : Plan Write} (hp : PreparesTable p)
    (hnonempty : p.steps = [] → p.completes = false) : PreparesTable (p.append q) := by
  unfold Plan.append
  split_ifs with hcompletes
  · rcases hp with hsteps | ⟨create, clean, rest, hsteps, hrest⟩
    · rw [hnonempty hsteps] at hcompletes
      cases hcompletes
    · rcases hrest with ⟨-, hfails⟩ | ⟨transaction, insertSql, ws, rfl⟩
      · rw [hfails] at hcompletes
        cases hcompletes
      · refine .inr ⟨create, clean, .prepare transaction insertSql :: (ws ++ q.steps), ?_, ?_⟩
        · simp [hsteps]
        · exact .inr ⟨transaction, insertSql, ws ++ q.steps, rfl⟩
  · exact hp

/-- The load of a table prepares it, or cannot read its scripts. -/
theorem preparesTable_tablePlan (env : Environment) (baseDir : String) (t : TableSpec)
    (csvd : CsvSpec) (load : OptLoadSpec) :
    PreparesTable (tablePlan env baseDir t csvd load) ∧
      ((tablePlan env baseDir t csvd load).steps = [] →
        (tablePlan env baseDir t csvd load).completes = false) := by
  unfold tablePlan
  cases readScripts env baseDir t with
  | error e => exact ⟨.inl rfl, fun _ => rfl⟩
  | ok scripts =>
      cases readData env baseDir t csvd with
      | error e =>
          refine ⟨.inr ⟨scripts.createSql, scripts.cleanSql, [], rfl, .inl ⟨rfl, rfl⟩⟩, ?_⟩
          rintro ⟨⟩
      | ok data =>
          have himport : ∀ q, ∃ ws,
              ((importPlan load scripts.insertSql data.2 data.1).append q).steps =
                .prepare load.transaction scripts.insertSql :: ws := by
            intro q
            unfold Plan.append
            split_ifs <;> exact ⟨_, rfl⟩
          obtain ⟨ws, hws⟩ := himport (checkPlan
            (checkRows t (importRows load.onError data.2 data.1).length))
          refine ⟨.inr ⟨scripts.createSql, scripts.cleanSql,
            .prepare load.transaction scripts.insertSql :: ws, ?_, .inr ⟨_, _, ws, rfl⟩⟩, ?_⟩
          · exact congrArg
              ([.connect, .script scripts.createSql, .script scripts.cleanSql] ++ ·) hws
          · rintro ⟨⟩

theorem preparesTable_tablesPlan (env : Environment) (baseDir : String) (csvd : CsvSpec)
    (load : OptLoadSpec) (tables : List TableSpec) :
    PreparesTable (tablesPlan env baseDir csvd load tables) := by
  induction tables with
  | nil => exact .inl rfl
  | cons t ts ih =>
      unfold tablesPlan
      split_ifs
      · obtain ⟨hprepares, hnonempty⟩ := preparesTable_tablePlan env baseDir t csvd load
        exact hprepares.append hnonempty
      · exact ih

/-- A call prepares its first table, or makes no writes. -/
theorem LoadCall.preparesTable_writes (c : LoadCall) : PreparesTable c.writes := by
  unfold LoadCall.writes
  cases c.env.parseKnowdbConf c.root c.confPath with
  | error e => exact .inl rfl
  | ok conf =>
      cases c.table with
      | none => exact preparesTable_tablesPlan c.env conf.2 conf.1.csv conf.1.default conf.1.tables
      | some table =>
          simp only [thenPlan]
          cases findTable c.env conf.1 table with
          | error e => exact .inl rfl
          | ok t =>
              obtain ⟨hprepares, hnonempty⟩ :=
                preparesTable_tablePlan c.env conf.2 t conf.1.csv conf.1.default
              exact hprepares.append hnonempty

/-- A load may stop when its scripts have been run. -/
theorem mem_stops_of_scripts {sem : SqlMeaning} {create clean : String} {rest : List Write}
    {completes : Bool} (held : Rows)
    (hrest : (rest = [] ∧ completes = false) ∨
      ∃ transaction insertSql ws, rest = .prepare transaction insertSql :: ws) :
    runStatements (sem.statements clean) (runStatements (sem.statements create) held) ∈
      sem.effects.stops completes (.connect :: .script create :: .script clean :: rest) held := by
  simp only [Effects.stops, List.mem_append]
  refine .inr (.inr (.inr ?_))
  rcases hrest with ⟨rfl, rfl⟩ | ⟨transaction, insertSql, ws, rfl⟩
  · exact List.mem_singleton_self _
  · exact List.mem_append_left _ (List.mem_singleton_self _)

/-- A load that makes a write keeps the rows only if the scripts of its first table do. -/
theorem rows_of_scripts_of_stops {c : LoadCall} {sem : SqlMeaning} {held : Rows}
    (hstops : ∀ left ∈ sem.effects.stops c.writes.completes c.writes.steps held, left = held)
    (hwrites : c.writes.steps ≠ []) :
    ∃ create clean, [.connect, .script create, .script clean] <+: c.writes.steps ∧
      runStatements (sem.statements clean) (runStatements (sem.statements create) held) = held := by
  obtain ⟨create, clean, rest, hsteps, hrest⟩ := c.preparesTable_writes.resolve_left hwrites
  refine ⟨create, clean, ⟨rest, hsteps.symm⟩, ?_⟩
  rw [hsteps] at hstops
  exact hstops _ (mem_stops_of_scripts held hrest)

/-- **A load keeps all rows for certain if it makes no write**: the configuration cannot be
read, the table is not found, none is enabled, or the scripts of the first one cannot be
read. -/
theorem writes_nothing_iff (c : LoadCall) :
    (∀ (sem : SqlMeaning) (held : Rows),
        ∀ left ∈ sem.effects.stops c.writes.completes c.writes.steps held, left = held) ↔
      c.writes.steps = [] := by
  constructor
  · intro hstops
    by_contra hwrites
    -- scripts that empty all tables
    let sem : SqlMeaning :=
      { statements := fun _ => [fun _ _ => []], insert := fun _ _ held => held }
    obtain ⟨create, clean, -, hsame⟩ := rows_of_scripts_of_stops (hstops sem fun _ => [[]]) hwrites
    have hempty := congrFun hsame ""
    cases hempty
  · intro hwrites sem held left hleft
    rw [hwrites] at hleft
    cases hcompletes : c.writes.completes with
    | true =>
        rw [hcompletes] at hleft
        cases hleft
    | false =>
        rw [hcompletes] at hleft
        exact List.mem_singleton.mp hleft

end Prepares

/-! ## When a failed load changes nothing -/

/-- A configuration with the table `t`, whose data file is missing. -/
def missingDataEnv : Environment where
  files path :=
    if path = "/kdb/knowdb.toml" then .contents "version = 2".toUTF8
    else if path = "/kdb/tables/t/create.sql" then .contents "CREATE TABLE IF NOT EXISTS t (c)".toUTF8
    else if path = "/kdb/tables/t/insert.sql" then .contents "INSERT INTO t VALUES (?1)".toUTF8
    else .missing
  parseToml _ :=
    some { version := 2, baseDir := "tables"
           tables := [{ name := "t", columns := { byHeader := ["c"] } }] }
  readCsv _ _ := { headers := none, records := [] }
  isPrintable c := c.isAlphanum

end Loader

end WpKnowledge
