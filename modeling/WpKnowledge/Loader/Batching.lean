import WpKnowledge.Loader.Plan

/-!
# Batches of an import

The import loop puts the rows of a file in transactions of {lit}`batch_size` rows.  Where
only an `INSERT` can fail, be it for its row or for what the table holds already, the
batches of an import that gets to its end do not show: the table has the rows of all
good records, in order.  One that stops leaves behind the batches that were full.

Main results:

- Theorem {lit}`Imported.step`: what one round of the loop keeps.
- Theorem {lit}`import_batching`: when the loop gets to its end, what the table has then,
  and what it has when the loop stops.
-/

namespace WpKnowledge

namespace Loader

open Foundation

/-! ## Good records -/

/-- The values of the mapped columns of a record that has all of them. -/
def project (colIndices : List Nat) : CsvRecord → Option (List String)
  | .fields record => colIndices.mapM fun idx => record[idx]?
  | .malformed => none

/-- The rows of the good records, in the order of the file. -/
def goodRows (colIndices : List Nat) (records : List CsvRecord) : List (List String) :=
  records.filterMap (project colIndices)

/-- No record is malformed or too short. -/
def AllGood (colIndices : List Nat) (records : List CsvRecord) : Prop :=
  ∀ record ∈ records, (project colIndices record).isSome

/-- A record with all mapped columns comes to its projection; another one is skipped
or an error. -/
theorem extractRowRefs_eq (onError : OnError) (record : List String) (colIndices : List Nat) :
    (∀ refs, project colIndices (.fields record) = some refs →
        extractRowRefs onError record colIndices = .ok (some refs)) ∧
      (project colIndices (.fields record) = none →
        match onError with
        | .skip => extractRowRefs onError record colIndices = .ok none
        | .fail => ∃ e, extractRowRefs onError record colIndices = .error e) := by
  induction colIndices with
  | nil =>
      constructor
      · intro refs hrefs
        cases hrefs
        rfl
      · intro hnone
        cases hnone
  | cons idx colIndices ih =>
      simp only [project] at ih ⊢
      rw [List.mapM_cons]
      cases hvalue : record[idx]? with
      | none =>
          simp only [extractRowRefs, hvalue]
          cases onError <;> simp
      | some value =>
          simp only [extractRowRefs, hvalue, Option.bind_eq_bind, Option.bind_some]
          cases hrest : colIndices.mapM fun idx => record[idx]? with
          | none =>
              have hbad := ih.2 hrest
              cases onError with
              | skip => simp [hbad, Except.map]
              | fail =>
                  obtain ⟨e, he⟩ := hbad
                  simp [he, Except.map]
          | some refs =>
              simp [ih.1 refs hrest, Except.map]

/-- What the loop makes of a record depends on its projection. -/
theorem recordKind_eq (onError : OnError) (colIndices : List Nat) (record : CsvRecord) :
    recordKind onError colIndices record =
      match project colIndices record with
      | some refs => .row refs
      | none =>
          match onError with
          | .skip => .bad
          | .fail => .fatal := by
  cases record with
  | malformed => rfl
  | fields record =>
      have hextract := extractRowRefs_eq onError record colIndices
      cases hproject : project colIndices (.fields record) with
      | some refs => simp [recordKind, hextract.1 refs hproject]
      | none =>
          have hbad := hextract.2 hproject
          cases onError with
          | skip => simp [recordKind, hbad]
          | fail =>
              obtain ⟨e, he⟩ := hbad
              simp [recordKind, he]

theorem goodRows_cons (colIndices : List Nat) (record : CsvRecord) (records : List CsvRecord) :
    goodRows colIndices (record :: records) =
      (project colIndices record).toList ++ goodRows colIndices records := by
  cases hproject : project colIndices record <;> simp [goodRows, hproject]

theorem goodRows_append (colIndices : List Nat) (records records' : List CsvRecord) :
    goodRows colIndices (records ++ records') =
      goodRows colIndices records ++ goodRows colIndices records' :=
  List.filterMap_append

theorem allGood_cons_iff {colIndices : List Nat} {record : CsvRecord} {records : List CsvRecord} :
    AllGood colIndices (record :: records) ↔
      (project colIndices record).isSome ∧ AllGood colIndices records :=
  List.forall_mem_cons

/-! ## What the loop keeps -/

section Loop

variable {δ : Type} (db : Engine δ) (load : OptLoadSpec) (insertSql : String)

/-- Connections, transactions and the statement itself are in order; whether an `INSERT`
fails is left open, for every row and every state of the table. -/
structure OnlyInsertsFail : Prop where
  connects : ∀ d, db.connects d = true
  begins : ∀ d, db.begins d = true
  prepares : ∀ d, db.prepares insertSql d = true
  commits : ∀ d, db.commits d = true

/-- The variables of the loop before its first round. -/
def importStart (d : δ) : ImportState δ :=
  { committed := d, working := d, inserted := 0, bad := 0, batchLeft := load.batch }

/-- Of so many rows inserted, those that are committed before the loop ends. -/
def persisted (inserted : Nat) : Nat :=
  if load.transaction then inserted / load.batch * load.batch else inserted

theorem persisted_le (inserted : Nat) : persisted load inserted ≤ inserted := by
  unfold persisted
  split_ifs
  · exact Nat.div_mul_le_self inserted load.batch
  · exact Nat.le_refl inserted

/-- Where the loop stands after some records. -/
structure Imported (colIndices : List Nat) (d : δ) (done : List CsvRecord) (s : ImportState δ) :
    Prop where
  working : insertRows db insertSql (goodRows colIndices done) d = some s.working
  committed : insertRows db insertSql
    ((goodRows colIndices done).take (persisted load s.inserted)) d = some s.committed
  inserted : s.inserted = (goodRows colIndices done).length
  counted : s.inserted + s.bad = done.length
  batchLeft : load.transaction = true → s.batchLeft + s.inserted % load.batch = load.batch

/-- The variables after a row that was inserted, where nothing but an `INSERT` fails. -/
def afterRow (s : ImportState δ) (working : δ) : ImportState δ :=
  if load.transaction then
    if s.batchLeft - 1 = 0 then
      { committed := working, working, inserted := s.inserted + 1, bad := s.bad
        batchLeft := load.batch }
    else { s with working, inserted := s.inserted + 1, batchLeft := s.batchLeft - 1 }
  else { s with committed := working, working, inserted := s.inserted + 1 }

variable {db load insertSql}

theorem insertRow_eq (honly : OnlyInsertsFail db insertSql) (s : ImportState δ)
    (refs : List String) :
    insertRow db load insertSql s refs =
      match db.execute insertSql refs s.working with
      | none => .error s.committed
      | some working => .ok (afterRow load s working) := by
  unfold insertRow afterRow
  cases db.execute insertSql refs s.working with
  | none => rfl
  | some working =>
      simp only [honly.commits, honly.begins, if_true]
      split_ifs <;> rfl

/-- One more row does not fill the batch. -/
theorem succ_div_of_lt {m b : Nat} (h : m % b + 1 < b) :
    (m + 1) / b = m / b ∧ (m + 1) % b = m % b + 1 := by
  have hdiv := Nat.mod_add_div m b
  exact (Nat.div_mod_unique (by omega)).mpr ⟨by omega, h⟩

/-- One more row fills the batch. -/
theorem succ_div_of_eq {m b : Nat} (h : m % b + 1 = b) :
    (m + 1) / b = m / b + 1 ∧ (m + 1) % b = 0 := by
  have hdiv := Nat.mod_add_div m b
  have hnext : b * (m / b + 1) = b * (m / b) + b := Nat.mul_succ b (m / b)
  exact (Nat.div_mod_unique (by omega)).mpr ⟨by omega, by omega⟩

@[simp]
theorem afterRow_working (s : ImportState δ) (working : δ) :
    (afterRow load s working).working = working := by
  unfold afterRow
  split_ifs <;> rfl

/-- A row that is inserted is counted. -/
theorem afterRow_counts (s : ImportState δ) (working : δ) :
    (afterRow load s working).inserted = s.inserted + 1 ∧
      (afterRow load s working).bad = s.bad := by
  unfold afterRow
  split_ifs <;> exact ⟨rfl, rfl⟩

section Row

variable {colIndices : List Nat} {d : δ} {done : List CsvRecord} {s : ImportState δ}

/-- After a row the batch is full and is committed, or nothing is. -/
theorem Imported.committed_cases (h : Imported db load insertSql colIndices d done s)
    (working : δ) :
    (persisted load (s.inserted + 1) = s.inserted + 1 ∧
        (afterRow load s working).committed = working) ∨
      (persisted load (s.inserted + 1) = persisted load s.inserted ∧
        (afterRow load s working).committed = s.committed) := by
  unfold afterRow persisted
  split_ifs with htransaction hfull
  · have hleft := h.batchLeft htransaction
    have hpos := Nat.mod_lt s.inserted load.batch_pos
    have hnext := succ_div_of_eq (m := s.inserted) (b := load.batch) (by omega)
    exact .inl ⟨Nat.div_mul_cancel (Nat.dvd_of_mod_eq_zero hnext.2), rfl⟩
  · have hleft := h.batchLeft htransaction
    have hpos := Nat.mod_lt s.inserted load.batch_pos
    have hnext := succ_div_of_lt (m := s.inserted) (b := load.batch) (by omega)
    exact .inr ⟨by rw [hnext.1], rfl⟩
  · exact .inl ⟨rfl, rfl⟩

/-- What is left of the batch after a row. -/
theorem Imported.batchLeft_afterRow (h : Imported db load insertSql colIndices d done s)
    (working : δ) (htransaction : load.transaction = true) :
    (afterRow load s working).batchLeft + (s.inserted + 1) % load.batch = load.batch := by
  have hleft := h.batchLeft htransaction
  have hpos := Nat.mod_lt s.inserted load.batch_pos
  rw [afterRow, if_pos htransaction]
  split_ifs with hfull
  · rw [(succ_div_of_eq (m := s.inserted) (b := load.batch) (by omega)).2]
    rfl
  · rw [(succ_div_of_lt (m := s.inserted) (b := load.batch) (by omega)).2]
    show s.batchLeft - 1 + (s.inserted % load.batch + 1) = load.batch
    omega

/-- A row that is inserted. -/
theorem Imported.row (h : Imported db load insertSql colIndices d done s) {working : δ}
    {record : CsvRecord} {refs : List String} (hgood : project colIndices record = some refs)
    (hexec : db.execute insertSql refs s.working = some working) :
    Imported db load insertSql colIndices d (done ++ [record]) (afterRow load s working) := by
  have hrows : goodRows colIndices (done ++ [record]) = goodRows colIndices done ++ [refs] := by
    rw [goodRows_append, goodRows_cons, hgood]
    rfl
  have hworking : insertRows db insertSql (goodRows colIndices done ++ [refs]) d = some working := by
    rw [insertRows_snoc, h.working]
    exact hexec
  have hlen := h.inserted
  have hcounted := h.counted
  obtain ⟨hinserted, hbad⟩ := @afterRow_counts _ load s working
  refine ⟨?_, ?_, ?_, ?_, ?_⟩
  · rw [hrows, afterRow_working]
    exact hworking
  · rw [hrows, hinserted]
    rcases h.committed_cases working with ⟨hpersisted, hcommitted⟩ | ⟨hpersisted, hcommitted⟩
    · rw [hpersisted, hcommitted, List.take_of_length_le (by simp [hlen])]
      exact hworking
    · have hle := persisted_le load s.inserted
      rw [hpersisted, hcommitted, List.take_append_of_le_length (by omega)]
      exact h.committed
  · rw [hrows, hinserted, List.length_append, ← hlen]
    rfl
  · rw [hinserted, hbad, List.length_append, ← hcounted, List.length_singleton]
    omega
  · rw [hinserted]
    exact h.batchLeft_afterRow working

end Row

/-- A record that is skipped. -/
theorem Imported.skipped {colIndices : List Nat} {d : δ} {done : List CsvRecord}
    {s : ImportState δ} (h : Imported db load insertSql colIndices d done s) {record : CsvRecord}
    (hbad : project colIndices record = none) :
    Imported db load insertSql colIndices d (done ++ [record]) { s with bad := s.bad + 1 } := by
  have hrows : goodRows colIndices (done ++ [record]) = goodRows colIndices done := by
    rw [goodRows_append, goodRows_cons, hbad]
    simp [goodRows]
  have hcounted := h.counted
  refine ⟨by rw [hrows]; exact h.working, by rw [hrows]; exact h.committed,
    by rw [hrows]; exact h.inserted, ?_, h.batchLeft⟩
  simp only [List.length_append, List.length_singleton]
  omega

/-- A round of the loop, by the projection of its record. -/
theorem importRecord_eq_project (honly : OnlyInsertsFail db insertSql) (colIndices : List Nat)
    (s : ImportState δ) (record : CsvRecord) :
    importRecord db load insertSql colIndices s record =
      match project colIndices record with
      | none =>
          match load.onError with
          | .skip => .ok { s with bad := s.bad + 1 }
          | .fail => .error s.committed
      | some refs =>
          match db.execute insertSql refs s.working with
          | none => .error s.committed
          | some working => .ok (afterRow load s working) := by
  rw [importRecord_eq, recordKind_eq]
  cases project colIndices record with
  | none => cases load.onError <;> rfl
  | some refs => exact insertRow_eq honly s refs

/-- Every round that does not stop the loop keeps what holds of it. -/
theorem Imported.step (honly : OnlyInsertsFail db insertSql) {colIndices : List Nat} {d : δ}
    {done : List CsvRecord} {s s' : ImportState δ}
    (h : Imported db load insertSql colIndices d done s) {record : CsvRecord}
    (hstep : importRecord db load insertSql colIndices s record = .ok s') :
    Imported db load insertSql colIndices d (done ++ [record]) s' := by
  rw [importRecord_eq_project honly] at hstep
  cases hproject : project colIndices record with
  | none =>
      cases hmode : load.onError with
      | fail => simp [hproject, hmode] at hstep
      | skip =>
          simp only [hproject, hmode, Except.ok.injEq] at hstep
          exact hstep ▸ h.skipped hproject
  | some refs =>
      cases hexec : db.execute insertSql refs s.working with
      | none => simp [hproject, hexec] at hstep
      | some working =>
          simp only [hproject, hexec, Except.ok.injEq] at hstep
          exact hstep ▸ h.row hproject hexec

/-- What holds of the loop after any number of rounds. -/
theorem imported_of_foldlM (honly : OnlyInsertsFail db insertSql) {colIndices : List Nat} {d : δ}
    {done : List CsvRecord} {s : ImportState δ}
    (h : done.foldlM (importRecord db load insertSql colIndices) (importStart load d) = .ok s) :
    Imported db load insertSql colIndices d done s := by
  refine foldlM_invariant (P := Imported db load insertSql colIndices d) ?_ ?_ h
  · refine ⟨rfl, by simp [goodRows, importStart, insertRows, pure], rfl, rfl, ?_⟩
    intro _
    simp [importStart]
  · intro done s record s' hdone hstep
    exact hdone.step honly hstep

/-- The loop gets through records whose rows can all be inserted, if none of them is bad or
bad ones are skipped. -/
theorem exists_foldlM_importRecord_iff (honly : OnlyInsertsFail db insertSql)
    (colIndices : List Nat) (records : List CsvRecord) (s : ImportState δ) :
    (∃ s', records.foldlM (importRecord db load insertSql colIndices) s = .ok s') ↔
      (insertRows db insertSql (goodRows colIndices records) s.working).isSome ∧
        (load.onError = .skip ∨ AllGood colIndices records) := by
  induction records generalizing s with
  | nil => simp [goodRows, insertRows, AllGood, pure, Except.pure]
  | cons record records ih =>
      simp only [foldlM_cons_eq_ok_iff, importRecord_eq_project honly, goodRows_cons,
        allGood_cons_iff]
      cases hproject : project colIndices record with
      | none =>
          cases hmode : load.onError with
          | fail => simp
          | skip =>
              have hrest := ih { s with bad := s.bad + 1 }
              rw [hmode] at hrest
              simpa using hrest
      | some refs =>
          have hrows : ∀ rows, insertRows db insertSql (refs :: rows) s.working =
              (db.execute insertSql refs s.working).bind (insertRows db insertSql rows) := by
            intro rows
            simp only [insertRows, List.foldlM_cons]
            rfl
          cases hexec : db.execute insertSql refs s.working with
          | none => simp [hrows, hexec]
          | some working =>
              have hrest := ih (afterRow load s working)
              rw [afterRow_working] at hrest
              simpa [hrows, hexec] using hrest

/-- The import is its loop and the commit of the last batch. -/
theorem importRecords_eq (honly : OnlyInsertsFail db insertSql) (colIndices : List Nat)
    (records : List CsvRecord) (d : δ) :
    importRecords db load insertSql colIndices records d =
      (records.foldlM (importRecord db load insertSql colIndices) (importStart load d)).map
        fun s => { s with committed := if load.transaction then s.working else s.committed } := by
  unfold importRecords
  simp only [honly.connects, honly.begins, honly.prepares, Bool.or_true, Bool.and_true, if_true]
  change (records.foldlM (importRecord db load insertSql colIndices) (importStart load d)).bind
    (finishImport db load) = _
  cases records.foldlM (importRecord db load insertSql colIndices) (importStart load d) with
  | error e => rfl
  | ok s =>
      simp only [Except.bind, Except.map, finishImport, honly.commits, if_true]
      split_ifs <;> rfl

/-- What a successful import has done: it has gone through all records and committed
all rows. -/
theorem imported_of_importRecords (honly : OnlyInsertsFail db insertSql) {colIndices : List Nat}
    {records : List CsvRecord} {d : δ} {s : ImportState δ}
    (h : importRecords db load insertSql colIndices records d = .ok s) :
    insertRows db insertSql (goodRows colIndices records) d = some s.committed ∧
      s.inserted = (goodRows colIndices records).length ∧
      s.inserted + s.bad = records.length := by
  rw [importRecords_eq honly, map_eq_ok_iff] at h
  obtain ⟨s₁, hfold, rfl⟩ := h
  have hdone := imported_of_foldlM honly hfold
  refine ⟨?_, hdone.inserted, hdone.counted⟩
  simp only
  split_ifs with htransaction
  · exact hdone.working
  · have hcommitted := hdone.committed
    rw [persisted, if_neg htransaction, List.take_of_length_le (Nat.le_of_eq hdone.inserted.symm)]
      at hcommitted
    exact hcommitted

/-- An import gets to its end exactly when no `INSERT` fails and no bad record is an
error. -/
theorem exists_importRecords_iff (honly : OnlyInsertsFail db insertSql) (colIndices : List Nat)
    (records : List CsvRecord) (d : δ) :
    (∃ s, importRecords db load insertSql colIndices records d = .ok s) ↔
      (insertRows db insertSql (goodRows colIndices records) d).isSome ∧
        (load.onError = .skip ∨ AllGood colIndices records) := by
  rw [importRecords_eq honly, exists_map_eq_ok_iff]
  exact exists_foldlM_importRecord_iff honly colIndices records (importStart load d)

variable (db load insertSql) in
/-- The loop goes through some records, inserts {lit}`inserted` rows, and stops with an error
at the next record. -/
def StopsAfter (colIndices : List Nat) (records : List CsvRecord) (d : δ) (inserted : Nat)
    (d' : δ) : Prop :=
  ∃ before record after s, records = before ++ record :: after ∧
    before.foldlM (importRecord db load insertSql colIndices) (importStart load d) = .ok s ∧
    importRecord db load insertSql colIndices s record = .error d' ∧ s.inserted = inserted

/-- An import fails exactly where its loop stops. -/
theorem importRecords_eq_error_iff (honly : OnlyInsertsFail db insertSql) {colIndices : List Nat}
    {records : List CsvRecord} {d d' : δ} :
    importRecords db load insertSql colIndices records d = .error d' ↔
      ∃ inserted, StopsAfter db load insertSql colIndices records d inserted d' := by
  have hmap : ∀ (x : Except δ (ImportState δ)) (f : ImportState δ → ImportState δ),
      x.map f = .error d' ↔ x = .error d' := by
    intro x f
    cases x <;> simp [Except.map]
  rw [importRecords_eq honly, hmap, foldlM_eq_error_iff]
  constructor
  · rintro ⟨before, record, after, s, hrecords, hfold, hrecord⟩
    exact ⟨s.inserted, before, record, after, s, hrecords, hfold, hrecord, rfl⟩
  · rintro ⟨inserted, before, record, after, s, hrecords, hfold, hrecord, -⟩
    exact ⟨before, record, after, s, hrecords, hfold, hrecord⟩

/-- A round that stops the loop gives back what is committed. -/
theorem committed_of_importRecord_error (honly : OnlyInsertsFail db insertSql)
    {colIndices : List Nat} {s : ImportState δ} {record : CsvRecord} {d' : δ}
    (h : importRecord db load insertSql colIndices s record = .error d') : d' = s.committed := by
  rw [importRecord_eq_project honly] at h
  cases hproject : project colIndices record with
  | none =>
      cases hmode : load.onError with
      | fail => simpa [hproject, hmode, eq_comm] using h
      | skip => simp [hproject, hmode] at h
  | some refs =>
      cases hexec : db.execute insertSql refs s.working with
      | none => simpa [hproject, hexec, eq_comm] using h
      | some working => simp [hproject, hexec] at h

/-- What is left behind when the loop stops. -/
theorem persisted_of_stopsAfter (honly : OnlyInsertsFail db insertSql) {colIndices : List Nat}
    {records : List CsvRecord} {d d' : δ} {inserted : Nat}
    (h : StopsAfter db load insertSql colIndices records d inserted d') :
    insertRows db insertSql ((goodRows colIndices records).take (persisted load inserted)) d =
      some d' := by
  obtain ⟨before, record, after, s, rfl, hfold, hrecord, rfl⟩ := h
  have hdone := imported_of_foldlM honly hfold
  have hle := persisted_le load s.inserted
  have hlen := hdone.inserted
  rw [committed_of_importRecord_error honly hrecord, goodRows_append,
    List.take_append_of_le_length (by omega)]
  exact hdone.committed

/-- **Batches of an import.**  Connections, transactions and the prepared statement are in
order, and an `INSERT` may fail for any row in any state of the table.  For all records,
every column mapping, mode, batch size and use of transactions, the import gets to its end
exactly when no `INSERT` of a good record fails and bad records are skipped or there are
none.  Then the table has received the rows of exactly the good records, in the order of
the file, every record is counted once, and another batch size or the other use of
transactions gives the same.  Otherwise the loop stops with an error after some number
{lit}`m` of inserted rows, and what is left is the rows of the full batches: the first
{lit}`m / b * b` with {lit}`b = max(batch_size, 1)` in transactions, all {lit}`m`
without. -/
theorem import_batching (honly : OnlyInsertsFail db insertSql) (load : OptLoadSpec)
    (colIndices : List Nat) (records : List CsvRecord) (d : δ) :
    ((∃ s, importRecords db load insertSql colIndices records d = .ok s) ↔
        (insertRows db insertSql (goodRows colIndices records) d).isSome ∧
          (load.onError = .skip ∨ AllGood colIndices records)) ∧
      (∀ s, importRecords db load insertSql colIndices records d = .ok s →
        insertRows db insertSql (goodRows colIndices records) d = some s.committed ∧
          s.inserted = (goodRows colIndices records).length ∧
          s.inserted + s.bad = records.length ∧
          ∀ batchSize transaction, ∃ s',
            importRecords db { load with batchSize, transaction } insertSql colIndices records d =
                .ok s' ∧
              s'.committed = s.committed ∧ s'.inserted = s.inserted ∧ s'.bad = s.bad) ∧
      (∀ d', importRecords db load insertSql colIndices records d = .error d' ↔
        ∃ m, StopsAfter db load insertSql colIndices records d m d') ∧
      ∀ m d', StopsAfter db load insertSql colIndices records d m d' →
        insertRows db insertSql
            ((goodRows colIndices records).take
              (if load.transaction then m / max load.batchSize 1 * max load.batchSize 1 else m))
            d = some d' := by
  refine ⟨exists_importRecords_iff honly colIndices records d, ?_,
    fun d' => importRecords_eq_error_iff honly, fun m d' => persisted_of_stopsAfter honly⟩
  intro s hs
  obtain ⟨hcommitted, hinserted, hcounted⟩ := imported_of_importRecords honly hs
  refine ⟨hcommitted, hinserted, hcounted, ?_⟩
  intro batchSize transaction
  -- neither the batch size nor the transactions decide whether the end is reached
  have hends := (exists_importRecords_iff honly colIndices records d).mp ⟨s, hs⟩
  obtain ⟨s', hs'⟩ :=
    (@exists_importRecords_iff δ db { load with batchSize, transaction } insertSql honly colIndices
      records d).mpr hends
  obtain ⟨hcommitted', hinserted', hcounted'⟩ := imported_of_importRecords honly hs'
  refine ⟨s', hs', ?_, ?_, ?_⟩
  · exact Option.some.inj (hcommitted'.symm.trans hcommitted)
  · rw [hinserted', hinserted]
  · omega

end Loop

/-- A table of texts that refuses the row `x`, for closed examples. -/
def refusingEngine : Engine (List (List String)) :=
  { oneTableEngine with execute := fun _ refs d => if refs = ["x"] then none else some (d ++ [refs]) }

theorem refusingEngine_onlyInsertsFail :
    OnlyInsertsFail refusingEngine "INSERT INTO t VALUES (?1)" :=
  ⟨fun _ => rfl, fun _ => rfl, fun _ => rfl, fun _ => rfl⟩

/-- The fourth row of an import in batches of two is refused, and so the third one is lost. -/
theorem import_batching_refused :
    ∃ m, StopsAfter refusingEngine { batchSize := 2, onError := .skip }
      "INSERT INTO t VALUES (?1)" [0]
      [.fields ["a"], .fields ["b"], .malformed, .fields ["c"], .fields ["x"]] [] m
      [["a"], ["b"]] := by
  refine ((import_batching refusingEngine_onlyInsertsFail
    { batchSize := 2, onError := .skip } [0]
    [.fields ["a"], .fields ["b"], .malformed, .fields ["c"], .fields ["x"]] []).2.2.1
      [["a"], ["b"]]).mp ?_
  rfl

end Loader

end WpKnowledge
