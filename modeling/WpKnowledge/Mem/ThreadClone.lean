import WpKnowledge.Facade.Init
import WpKnowledge.Foundation.Machine
import WpKnowledge.Loader.FailedLoad

/-!
# Snapshots of the authority database

The SQLite authority provider answers from a copy of the authority file that each
thread makes for itself, in memory, at its first query of a provider's path and
generation.  The copy can be written, and a statement is not looked at before it is
run, so a query may change it.  The file itself is written by the loader, under an
address of its own: a provider is installed under {lit}`file:<path>?mode=ro&uri=true`
and a reload is called with {lit}`file:<path>`, and SQLite opens one file for both.  The
machine of this module interleaves the queries of any number of threads, provider
installs, and loads, of which every write is a step of its own.

Main results:

- Theorem {lit}`one_data_set_per_generation`: all queries of one path and generation
  see the same contents, provided no thread copies the file under a path and
  generation after the file has changed since they were first copied, and no
  statement changes what the copy it is run on holds.
- Theorem {lit}`data_sets_of_reloaded_file`: a reload does not advance the generation,
  so that two threads see different contents under one generation.
- Theorem {lit}`data_sets_of_deleting_query`: nor do they see the same after a query has
  deleted the rows of the copy of one thread.
-/

namespace WpKnowledge

open Foundation Loader

/-! ## The provider -/

/-- What a thread keeps: the copy, and what it is a copy of. -/
structure ThreadLocalState (κ : Type) where
  authorityPath : String
  generation : Nat
  conn : κ

/-- The SQLite authority provider. -/
structure ThreadClonedMDB where
  authorityPath : String
  generation : Nat
deriving DecidableEq, Repr

/-- What SQLite does: which file it opens for an address, what a copy in memory is, what a
copy holds, and what a statement returns and makes of the copy it is run on and, as it may
attach them, of the files. -/
structure CopyEngine (δ κ : Type) where
  opened : String → String
  backup : δ → κ
  contents : κ → δ
  query : String → List DataField → κ → (String → δ) →
    KnowledgeResult (List RowData) × κ × (String → δ)
  contents_backup : ∀ d, contents (backup d) = d

namespace ThreadClonedMDB

variable {κ : Type}

/-- The provider of an authority file for a generation. -/
def fromAuthorityWithGeneration (path : String) (generation : Nat) : ThreadClonedMDB :=
  { authorityPath := path, generation }

/-- The provider of an authority file outside the runtime. -/
def fromAuthority (path : String) : ThreadClonedMDB :=
  fromAuthorityWithGeneration path 0

/-- The thread has no copy for this provider. -/
def shouldRebuild (mdb : ThreadClonedMDB) (tls : Option (ThreadLocalState κ)) : Bool :=
  (tls.map fun state => state.authorityPath ≠ mdb.authorityPath ||
    state.generation ≠ mdb.generation).getD true

/-- The copy a thread queries, made anew if it has none for this provider, and what
the thread keeps.  Opening or copying the file may fail. -/
def withTlsConn (mdb : ThreadClonedMDB) (copy : κ) (cloneOk : Bool)
    (tls : Option (ThreadLocalState κ)) : Option κ × Option (ThreadLocalState κ) :=
  if mdb.shouldRebuild tls then
    if cloneOk then
      (some copy, some { authorityPath := mdb.authorityPath, generation := mdb.generation
                         conn := copy })
    else (none, tls)
  else (tls.map ThreadLocalState.conn, tls)

end ThreadClonedMDB

/-! ## Threads, installs and loads -/

/-- A load in progress: the file and the writes still to be made. -/
structure LoadCall where
  file : String
  writes : List Write

/-- A copy that was made: the path and generation it was made under, the file, the number
of changes of the file before it and what it holds. -/
structure Clone (δ : Type) where
  path : String
  generation : Nat
  file : String
  version : Nat
  contents : δ

/-- What a successful query saw when it began. -/
structure Observation (δ : Type) where
  thread : Nat
  path : String
  generation : Nat
  contents : δ

/-- The files, the runtime's counter of generations, the providers, what
the threads keep and the loads in progress.  The last three fields are history:
how often each file changed, the copies made and what the queries saw. -/
structure Authority (δ κ : Type) where
  files : String → δ
  nextGeneration : Nat
  providers : List ThreadClonedMDB
  tls : Nat → Option (ThreadLocalState κ)
  calls : List LoadCall
  versions : String → Nat
  clones : List (Clone δ)
  log : List (Observation δ)

/-- The steps. -/
inductive AuthorityAction where
  /-- A provider of the file is installed under a new generation. -/
  | install (path : String)
  /-- A provider is made without the runtime. -/
  | standalone (path : String)
  /-- A thread runs a statement on a provider; opening and copying the file may fail. -/
  | query (thread provider : Nat) (cloneOk : Bool) (sql : String) (params : List DataField)
  /-- A build is called. -/
  | build (env : Environment) (root confPath authorityUri : String)
  /-- A reload is called. -/
  | reload (env : Environment) (root confPath authorityUri table : String)
  /-- A load makes its next write. -/
  | write (call : Nat)
  /-- A load ends between two writes. -/
  | abort (call : Nat)

namespace Authority

variable {δ κ : Type} [DecidableEq δ] (db : Engine δ) (mem : CopyEngine δ κ)

/-- The files are written; those with other contents than before have changed. -/
def setFiles (s : Authority δ κ) (files : String → δ) : Authority δ κ :=
  { s with
    files
    versions := fun file =>
      if files file = s.files file then s.versions file else s.versions file + 1 }

/-- A thread gets at its copy for a provider. -/
def withTlsConn (s : Authority δ κ) (thread : Nat) (mdb : ThreadClonedMDB) (cloneOk : Bool) :
    Option κ × Authority δ κ :=
  let file := mem.opened mdb.authorityPath
  let (conn, tls) := mdb.withTlsConn (mem.backup (s.files file)) cloneOk (s.tls thread)
  (conn,
    { s with
      tls := Function.update s.tls thread tls
      clones :=
        if mdb.shouldRebuild (s.tls thread) && cloneOk then
          s.clones ++ [{ path := mdb.authorityPath, generation := mdb.generation, file
                         version := s.versions file, contents := s.files file }]
        else s.clones })

/-- A statement is run on the copy of a thread. -/
def runQuery (s : Authority δ κ) (thread : Nat) (mdb : ThreadClonedMDB) (conn : κ) (sql : String)
    (params : List DataField) : Authority δ κ :=
  let (result, conn', files) := mem.query sql params conn s.files
  { s.setFiles files with
    tls := Function.update s.tls thread
      (some { authorityPath := mdb.authorityPath, generation := mdb.generation, conn := conn' })
    log :=
      if result.isOk then
        s.log ++ [{ thread, path := mdb.authorityPath, generation := mdb.generation
                    contents := mem.contents conn }]
      else s.log }

/-- A query of a thread. -/
def query (s : Authority δ κ) (thread : Nat) (mdb : ThreadClonedMDB) (cloneOk : Bool)
    (sql : String) (params : List DataField) : Authority δ κ :=
  match s.withTlsConn mem thread mdb cloneOk with
  | (some conn, s') => s'.runQuery mem thread mdb conn sql params
  | (none, s') => s'

/-- The next write of a load, on the file as it is now. -/
def write (s : Authority δ κ) (i : Nat) (file : String) (w : Write) (ws : List Write) :
    Authority δ κ :=
  let (d, ok) := perform db w (s.files file)
  { s.setFiles (Function.update s.files file d) with
    calls := s.calls.set i { file, writes := if ok then ws else [] } }

/-- One step. -/
def step (s : Authority δ κ) : AuthorityAction → Option (Authority δ κ)
  | .install path =>
      let generation := s.nextGeneration + 1
      some { s with
        nextGeneration := generation
        providers := s.providers ++ [.fromAuthorityWithGeneration path generation] }
  | .standalone path => some { s with providers := s.providers ++ [.fromAuthority path] }
  | .query thread i cloneOk sql params =>
      (s.providers[i]?).map fun mdb => s.query mem thread mdb cloneOk sql params
  | .build env root confPath authorityUri =>
      let plan := buildPlan env db root confPath authorityUri
      some { s with
        calls := s.calls ++ [{ file := mem.opened authorityUri, writes := plan.steps }] }
  | .reload env root confPath authorityUri table =>
      let plan := reloadPlan env db root confPath authorityUri table
      some { s with
        calls := s.calls ++ [{ file := mem.opened authorityUri, writes := plan.steps }] }
  | .write i =>
      match s.calls[i]? with
      | some ⟨file, w :: ws⟩ => some (s.write db i file w ws)
      | _ => none
  | .abort i =>
      (s.calls[i]?).map fun call => { s with calls := s.calls.set i { call with writes := [] } }

/-- A process that has installed and loaded nothing yet. -/
def new (files : String → δ) : Authority δ κ where
  files
  nextGeneration := 0
  providers := []
  tls _ := none
  calls := []
  versions _ := 0
  clones := []
  log := []

@[simp]
theorem setFiles_self (s : Authority δ κ) : s.setFiles s.files = s := by
  simp [setFiles]

/-- A file changes or is as it was. -/
theorem versions_le_setFiles (s : Authority δ κ) (files : String → δ) (file : String) :
    s.versions file ≤ (s.setFiles files).versions file := by
  simp only [setFiles]
  split_ifs
  · exact Nat.le_refl _
  · exact Nat.le_succ _

/-- A file that has not changed is as it was. -/
theorem files_eq_of_versions {s : Authority δ κ} {files : String → δ} {file : String}
    (h : (s.setFiles files).versions file = s.versions file) : files file = s.files file := by
  by_contra hchanged
  simp [setFiles, hchanged] at h

end Authority

/-- The machine of threads, installs and loads. -/
def authorityMachine {δ κ : Type} [DecidableEq δ] (db : Engine δ) (mem : CopyEngine δ κ) :
    Machine (Authority δ κ) AuthorityAction where
  init s := ∃ files, s = .new files
  step := Authority.step db mem

/-! ## A load that is not interrupted -/

section Alone

variable {δ κ : Type} [DecidableEq δ] (db : Engine δ) (mem : CopyEngine δ κ)

/-- The writes of a load that nothing comes between leave the file as carrying
them out in one go does. -/
theorem exec_writes_of_attempt (ws : List Write) (s : Authority δ κ) {i : Nat}
    {file : String} (hcall : s.calls[i]? = some ⟨file, ws⟩) :
    ∃ n s', (authorityMachine db mem).exec Machine.Unguarded s (List.replicate n (.write i)) =
        some s' ∧ s'.calls[i]? = some ⟨file, []⟩ ∧
      s'.files file = (attempt (perform db) ws (s.files file)).1 := by
  induction ws generalizing s with
  | nil => exact ⟨0, s, rfl, hcall, rfl⟩
  | cons w ws ih =>
      have hi : i < s.calls.length := (List.getElem?_eq_some_iff.mp hcall).1
      have hstep : (authorityMachine db mem).step s (.write i) =
          some (s.write db i file w ws) := by
        simp [authorityMachine, Authority.step, hcall]
      rcases hw : perform db w (s.files file) with ⟨d, ok⟩
      have hfile : (s.write db i file w ws).files file = d := by
        simp [Authority.write, Authority.setFiles, hw]
      have hcalls : (s.write db i file w ws).calls[i]? =
          some ⟨file, if ok then ws else []⟩ := by
        simp [Authority.write, hw, hi]
      cases ok with
      | false =>
          refine ⟨1, s.write db i file w ws, ?_, hcalls, ?_⟩
          · simp [Machine.exec, Machine.Unguarded, hstep]
          · rw [hfile, attempt_cons_of_fail _ hw]
      | true =>
          rcases ih (s.write db i file w ws) hcalls with ⟨n, s', hexec, hdone, hfiles⟩
          refine ⟨n + 1, s', ?_, hdone, ?_⟩
          · simpa [List.replicate_succ, Machine.exec, Machine.Unguarded, hstep] using hexec
          · rw [hfiles, hfile, attempt_cons_of_ok _ hw]

/-- A reload that nothing comes between leaves the file that its address opens as the
loader's function does. -/
theorem exec_reload (s : Authority δ κ) (env : Environment)
    (root confPath authorityUri table : String) :
    ∃ n s', (authorityMachine db mem).exec Machine.Unguarded s
        (.reload env root confPath authorityUri table ::
          List.replicate n (.write s.calls.length)) = some s' ∧
      s'.files (mem.opened authorityUri) =
        (reloadTableRows db env root confPath authorityUri table
          (s.files (mem.opened authorityUri))).2 := by
  let file := mem.opened authorityUri
  let s₁ : Authority δ κ :=
    { s with calls := s.calls ++ [⟨file,
        (reloadPlan env db root confPath authorityUri table).steps⟩] }
  have hstep : (authorityMachine db mem).step s
      (.reload env root confPath authorityUri table) = some s₁ := rfl
  have hcall : s₁.calls[s.calls.length]? =
      some ⟨file, (reloadPlan env db root confPath authorityUri table).steps⟩ := by
    simp [s₁]
  rcases exec_writes_of_attempt db mem _ s₁ hcall with ⟨n, s', hexec, -, hfile⟩
  have hplan : loadOutcome (reloadTableRows db env root confPath authorityUri table
      (s.files file)) = _ :=
    reloadTableRows_eq_run env root confPath authorityUri table (s.files file)
  refine ⟨n, s', ?_, ?_⟩
  · simpa [Machine.exec, Machine.Unguarded, hstep] using hexec
  · rw [hfile]
    exact (congrArg Prod.fst hplan).symm

end Alone

/-! ## One data set for each generation -/

section Coherence

variable {δ κ : Type}

/-- A thread that has to copy the file for a provider finds it as it was when it was first
copied under the path and generation of the provider. -/
def CopiesUnchanged (mem : CopyEngine δ κ) (s : Authority δ κ) (thread : Nat)
    (mdb : ThreadClonedMDB) : Bool :=
  !mdb.shouldRebuild (s.tls thread) ||
    s.clones.all fun c => c.path ≠ mdb.authorityPath || c.generation ≠ mdb.generation ||
      c.version = s.versions (mem.opened mdb.authorityPath)

/-- A statement leaves what the copy it is run on holds. -/
def KeepsCopy [DecidableEq δ] (mem : CopyEngine δ κ) (s : Authority δ κ) (thread : Nat)
    (mdb : ThreadClonedMDB) (cloneOk : Bool) (sql : String) (params : List DataField) : Bool :=
  (s.withTlsConn mem thread mdb cloneOk).1.all fun conn =>
    mem.contents (mem.query sql params conn s.files).2.1 = mem.contents conn

/-- The guard of a run in which files do not change between the copies of one path and
generation, and statements do not change copies. -/
def DataSetsKept [DecidableEq δ] (mem : CopyEngine δ κ) (s : Authority δ κ) :
    AuthorityAction → Prop
  | .query thread i cloneOk sql params =>
      (s.providers[i]?).all (fun mdb => CopiesUnchanged mem s thread mdb &&
        KeepsCopy mem s thread mdb cloneOk sql params) = true
  | _ => True

instance [DecidableEq δ] (mem : CopyEngine δ κ) (s : Authority δ κ) (a : AuthorityAction) :
    Decidable (DataSetsKept mem s a) :=
  match a with
  | .query _ _ _ _ _ => inferInstanceAs (Decidable (_ = true))
  | .install _ | .standalone _ | .build _ _ _ _ | .reload _ _ _ _ _ | .write _ | .abort _ =>
      inferInstanceAs (Decidable True)

/-- A copy is of a path and generation and holds the contents. -/
def Clone.Shows (c : Clone δ) (path : String) (generation : Nat) (contents : δ) : Prop :=
  c.path = path ∧ c.generation = generation ∧ c.contents = contents

/-- What holds in every reachable state: threads and queries see copies that were
made, a copy newer than the last change of its file has the contents of the
file, and the copies of one path and generation have the same contents. -/
structure CloneInv (mem : CopyEngine δ κ) (s : Authority δ κ) : Prop where
  tls : ∀ thread state, s.tls thread = some state →
    ∃ c ∈ s.clones, c.Shows state.authorityPath state.generation (mem.contents state.conn)
  log : ∀ o ∈ s.log, ∃ c ∈ s.clones, c.Shows o.path o.generation o.contents
  file : ∀ c ∈ s.clones, c.file = mem.opened c.path
  version : ∀ c ∈ s.clones, c.version ≤ s.versions c.file
  current : ∀ c ∈ s.clones, c.version = s.versions c.file → c.contents = s.files c.file
  agree : ∀ c ∈ s.clones, ∀ c' ∈ s.clones, c.path = c'.path → c.generation = c'.generation →
    c.contents = c'.contents

variable {mem : CopyEngine δ κ}

/-- A step that leaves the files, the copies and what threads and queries saw keeps
the invariant. -/
theorem CloneInv.frame {s s' : Authority δ κ} (h : CloneInv mem s) (hfiles : s'.files = s.files)
    (htls : s'.tls = s.tls) (hversions : s'.versions = s.versions)
    (hclones : s'.clones = s.clones) (hlog : s'.log = s.log) : CloneInv mem s' := by
  obtain ⟨files, nextGeneration, providers, tls, calls, versions, clones, log⟩ := s'
  simp only at hfiles htls hversions hclones hlog
  subst hfiles htls hversions hclones hlog
  exact ⟨h.tls, h.log, h.file, h.version, h.current, h.agree⟩

/-- A new copy keeps the invariant if the file has not changed since the copies
made under the same path and generation. -/
theorem CloneInv.clone {s : Authority δ κ} (h : CloneInv mem s) (path : String)
    (generation : Nat)
    (hok : ∀ c ∈ s.clones, c.path = path → c.generation = generation →
      c.version = s.versions (mem.opened path)) :
    CloneInv mem { s with clones := s.clones ++ [⟨path, generation, mem.opened path,
      s.versions (mem.opened path), s.files (mem.opened path)⟩] } := by
  have hsame : ∀ c ∈ s.clones, c.path = path → c.generation = generation →
      c.contents = s.files (mem.opened path) := by
    intro c hc hpath hgeneration
    have hversion := hok c hc hpath hgeneration
    have hfile := h.file c hc
    rw [← hpath, ← hfile] at hversion ⊢
    exact h.current c hc hversion
  constructor
  · intro thread state hstate
    rcases h.tls thread state hstate with ⟨c, hc, hshows⟩
    exact ⟨c, List.mem_append_left _ hc, hshows⟩
  · intro o ho
    rcases h.log o ho with ⟨c, hc, hshows⟩
    exact ⟨c, List.mem_append_left _ hc, hshows⟩
  · intro c hc
    rcases List.mem_append.mp hc with hc | hc
    · exact h.file c hc
    · rw [List.mem_singleton.mp hc]
  · intro c hc
    rcases List.mem_append.mp hc with hc | hc
    · exact h.version c hc
    · rw [List.mem_singleton.mp hc]
  · intro c hc hversion
    rcases List.mem_append.mp hc with hc | hc
    · exact h.current c hc hversion
    · rw [List.mem_singleton.mp hc]
  · intro c hc c' hc' hpath hgeneration
    rcases List.mem_append.mp hc with hc | hc <;> rcases List.mem_append.mp hc' with hc' | hc'
    · exact h.agree c hc c' hc' hpath hgeneration
    · rw [List.mem_singleton.mp hc'] at hpath hgeneration ⊢
      exact hsame c hc hpath hgeneration
    · rw [List.mem_singleton.mp hc] at hpath hgeneration ⊢
      exact (hsame c' hc' hpath.symm hgeneration.symm).symm
    · rw [List.mem_singleton.mp hc, List.mem_singleton.mp hc']

/-- A thread that keeps a copy that was made keeps the invariant. -/
theorem CloneInv.setTls {s : Authority δ κ} (h : CloneInv mem s) {c : Clone δ}
    (hc : c ∈ s.clones) (thread : Nat) (state : ThreadLocalState κ)
    (hstate : c.Shows state.authorityPath state.generation (mem.contents state.conn)) :
    CloneInv mem { s with tls := Function.update s.tls thread (some state) } := by
  refine ⟨?_, h.log, h.file, h.version, h.current, h.agree⟩
  intro thread' state' hstate'
  simp only at hstate'
  by_cases hthread : thread' = thread
  · subst hthread
    rw [Function.update_self] at hstate'
    cases hstate'
    exact ⟨c, hc, hstate⟩
  · rw [Function.update_of_ne hthread] at hstate'
    exact h.tls thread' state' hstate'

/-- A query that saw a copy that was made keeps the invariant. -/
theorem CloneInv.observe {s : Authority δ κ} (h : CloneInv mem s) {c : Clone δ}
    (hc : c ∈ s.clones) {o : Observation δ} (ho : c.Shows o.path o.generation o.contents) :
    CloneInv mem { s with log := s.log ++ [o] } := by
  refine ⟨h.tls, ?_, h.file, h.version, h.current, h.agree⟩
  intro o' ho'
  rcases List.mem_append.mp ho' with ho' | ho'
  · exact h.log o' ho'
  · rw [List.mem_singleton.mp ho']
    exact ⟨c, hc, ho⟩

/-- A thread without a copy for the provider has to make one, a thread with one has
it under the provider's path and generation. -/
theorem ThreadClonedMDB.shouldRebuild_eq_false_iff {mdb : ThreadClonedMDB}
    {tls : Option (ThreadLocalState κ)} :
    mdb.shouldRebuild tls = false ↔
      ∃ conn, tls = some ⟨mdb.authorityPath, mdb.generation, conn⟩ := by
  cases tls with
  | none => simp [shouldRebuild]
  | some state =>
      obtain ⟨path, generation, conn⟩ := state
      simp [shouldRebuild]

/-- A thread that gets at its copy keeps the invariant, and the copy was made under the
path and generation of the provider. -/
theorem CloneInv.withTlsConn {s s' : Authority δ κ} (h : CloneInv mem s) {thread : Nat}
    {mdb : ThreadClonedMDB} {cloneOk : Bool} {conn : Option κ}
    (hok : CopiesUnchanged mem s thread mdb = true)
    (hconn : s.withTlsConn mem thread mdb cloneOk = (conn, s')) :
    CloneInv mem s' ∧ s'.files = s.files ∧
      ∀ copy, conn = some copy →
        ∃ c ∈ s'.clones, c.Shows mdb.authorityPath mdb.generation (mem.contents copy) := by
  cases hrebuild : mdb.shouldRebuild (s.tls thread) with
  | false =>
      rcases ThreadClonedMDB.shouldRebuild_eq_false_iff.mp hrebuild with ⟨copy, htls⟩
      simp only [Authority.withTlsConn, ThreadClonedMDB.withTlsConn, hrebuild, Bool.false_eq_true,
        if_false, Bool.false_and, Function.update_eq_self, Prod.mk.injEq] at hconn
      obtain ⟨rfl, rfl⟩ := hconn
      refine ⟨h, rfl, ?_⟩
      intro copy' hcopy
      rw [htls] at hcopy
      cases hcopy
      exact h.tls thread _ htls
  | true =>
      cases cloneOk with
      | false =>
          simp only [Authority.withTlsConn, ThreadClonedMDB.withTlsConn, hrebuild, if_true,
            Bool.false_eq_true, if_false, Bool.and_false, Function.update_eq_self,
            Prod.mk.injEq] at hconn
          obtain ⟨rfl, rfl⟩ := hconn
          refine ⟨h, rfl, ?_⟩
          rintro copy ⟨⟩
      | true =>
          -- the thread makes a copy and keeps it
          simp only [Authority.withTlsConn, ThreadClonedMDB.withTlsConn, hrebuild, if_true,
            Bool.and_true, Prod.mk.injEq] at hconn
          obtain ⟨rfl, rfl⟩ := hconn
          have hversions : ∀ c ∈ s.clones, c.path = mdb.authorityPath →
              c.generation = mdb.generation →
                c.version = s.versions (mem.opened mdb.authorityPath) := by
            intro c hc hpath hgeneration
            simp only [CopiesUnchanged, hrebuild, Bool.not_true, Bool.false_or,
              List.all_eq_true] at hok
            have hversion := hok c hc
            simpa [hpath, hgeneration] using hversion
          have hclone := h.clone mdb.authorityPath mdb.generation hversions
          have hmem := List.mem_append_right s.clones (List.mem_singleton.mpr (rfl :
            (⟨mdb.authorityPath, mdb.generation, mem.opened mdb.authorityPath,
              s.versions (mem.opened mdb.authorityPath),
              s.files (mem.opened mdb.authorityPath)⟩ : Clone δ) = _))
          have hshows := (mem.contents_backup (s.files (mem.opened mdb.authorityPath))).symm
          refine ⟨hclone.setTls hmem thread _ ⟨rfl, rfl, hshows⟩, rfl, ?_⟩
          rintro copy ⟨⟩
          exact ⟨_, hmem, rfl, rfl, hshows⟩

variable [DecidableEq δ]

/-- Written files keep the invariant: copies made before a change are older than it. -/
theorem CloneInv.setFiles {s : Authority δ κ} (h : CloneInv mem s) (files : String → δ) :
    CloneInv mem (s.setFiles files) := by
  refine ⟨h.tls, h.log, h.file, ?_, ?_, h.agree⟩
  · intro c hc
    exact Nat.le_trans (h.version c hc) (s.versions_le_setFiles files c.file)
  · intro c hc hcurrent
    have hold := h.version c hc
    have hgrows := s.versions_le_setFiles files c.file
    have hsame : (s.setFiles files).versions c.file = s.versions c.file := by omega
    rw [h.current c hc (by omega)]
    exact (Authority.files_eq_of_versions hsame).symm

/-- A write keeps the invariant. -/
theorem CloneInv.write {db : Engine δ} {s : Authority δ κ} (h : CloneInv mem s) (i : Nat)
    (file : String) (w : Write) (ws : List Write) : CloneInv mem (s.write db i file w ws) :=
  (h.setFiles _).frame rfl rfl rfl rfl rfl

/-- A statement that leaves what its copy holds keeps the invariant. -/
theorem CloneInv.runQuery {s : Authority δ κ} (h : CloneInv mem s) (thread : Nat)
    {mdb : ThreadClonedMDB} {conn : κ} {sql : String} {params : List DataField} {c : Clone δ}
    (hc : c ∈ s.clones) (hshows : c.Shows mdb.authorityPath mdb.generation (mem.contents conn))
    (hok : mem.contents (mem.query sql params conn s.files).2.1 = mem.contents conn) :
    CloneInv mem (s.runQuery mem thread mdb conn sql params) := by
  rcases hquery : mem.query sql params conn s.files with ⟨result, conn', files⟩
  rw [hquery] at hok
  have hstate : c.Shows mdb.authorityPath mdb.generation (mem.contents conn') := by
    rwa [hok]
  have hinv := (h.setFiles files).setTls hc thread
    ⟨mdb.authorityPath, mdb.generation, conn'⟩ hstate
  simp only [Authority.runQuery, hquery]
  split_ifs
  · exact hinv.observe hc hshows
  · exact hinv

/-- A query keeps the invariant. -/
theorem CloneInv.query {s : Authority δ κ} (h : CloneInv mem s) {thread : Nat}
    {mdb : ThreadClonedMDB} {cloneOk : Bool} {sql : String} {params : List DataField}
    (hcopies : CopiesUnchanged mem s thread mdb = true)
    (hkeeps : KeepsCopy mem s thread mdb cloneOk sql params = true) :
    CloneInv mem (s.query mem thread mdb cloneOk sql params) := by
  rcases hconn : s.withTlsConn mem thread mdb cloneOk with ⟨conn, s'⟩
  obtain ⟨hinv, hfiles, hcopy⟩ := h.withTlsConn hcopies hconn
  simp only [Authority.query, hconn]
  cases conn with
  | none => exact hinv
  | some conn =>
      rcases hcopy conn rfl with ⟨c, hc, hshows⟩
      apply hinv.runQuery thread hc hshows
      rw [KeepsCopy, hconn] at hkeeps
      rw [hfiles]
      exact of_decide_eq_true hkeeps

/-- A step that meets the guard keeps the invariant. -/
theorem CloneInv.step {db : Engine δ} {s s' : Authority δ κ} {a : AuthorityAction}
    (h : CloneInv mem s) (hok : DataSetsKept mem s a) (hstep : s.step db mem a = some s') :
    CloneInv mem s' := by
  cases a with
  | install path =>
      cases hstep
      exact h.frame rfl rfl rfl rfl rfl
  | standalone path =>
      cases hstep
      exact h.frame rfl rfl rfl rfl rfl
  | build env root confPath authorityUri =>
      cases hstep
      exact h.frame rfl rfl rfl rfl rfl
  | reload env root confPath authorityUri table =>
      cases hstep
      exact h.frame rfl rfl rfl rfl rfl
  | abort i =>
      rcases Option.map_eq_some_iff.mp hstep with ⟨call, -, rfl⟩
      exact h.frame rfl rfl rfl rfl rfl
  | write i =>
      simp only [Authority.step] at hstep
      split at hstep
      · cases hstep
        exact h.write i _ _ _
      · cases hstep
  | query thread i cloneOk sql params =>
      rcases Option.map_eq_some_iff.mp hstep with ⟨mdb, hmdb, rfl⟩
      simp only [DataSetsKept, hmdb, Option.all_some, Bool.and_eq_true] at hok
      exact h.query hok.1 hok.2

/-- **One data set for each generation.**  In every run in which no thread copies
an authority file under a path and generation after the file has changed since it
was first copied under them, and no statement changes what the copy it is run on holds, any
two successful queries of one path and generation
see the same contents, whatever threads make them and whatever is installed and
loaded in between. -/
theorem one_data_set_per_generation {db : Engine δ} {as : List AuthorityAction}
    {s : Authority δ κ}
    (hrun : (authorityMachine db mem).Run (DataSetsKept mem) as s) {o o' : Observation δ}
    (ho : o ∈ s.log) (ho' : o' ∈ s.log) (hpath : o.path = o'.path)
    (hgeneration : o.generation = o'.generation) : o.contents = o'.contents := by
  have hinv : CloneInv mem s := by
    refine Machine.Run.stateInvariant ?_ ?_ hrun
    · rintro s ⟨files, rfl⟩
      constructor <;> simp [Authority.new]
    · intro s a s' h hok hstep
      exact h.step hok hstep
  rcases hinv.log o ho with ⟨c, hc, hcpath, hcgeneration, hcontents⟩
  rcases hinv.log o' ho' with ⟨c', hc', hcpath', hcgeneration', hcontents'⟩
  rw [← hcontents, ← hcontents']
  apply hinv.agree c hc c' hc'
  · rw [hcpath, hcpath', hpath]
  · rw [hcgeneration, hcgeneration', hgeneration]

end Coherence

/-! ## Runs with a reload -/

/-- A configuration with the table `t` and a data file of one record. -/
def refreshedEnv : Environment where
  files path :=
    if path = "/kdb/tables/t/data.csv" then .contents "c\ny".toUTF8 else missingDataEnv.files path
  parseToml := missingDataEnv.parseToml
  readCsv _ _ := { headers := some ["c"], records := [.fields ["y"]] }
  isPrintable := missingDataEnv.isPrintable

/-- The file of an address, which may be a path, and `file:` and options beside it. -/
def fileOfAddress (address : String) : String :=
  if "file:".toList.isPrefixOf address.toList then
    String.ofList ((address.toList.drop 5).takeWhile (· ≠ '?'))
  else address

/-- Copies of the table `t`, which a statement reads or empties. -/
def oneTableCopies : CopyEngine (List (List String)) (List (List String)) where
  opened := fileOfAddress
  backup d := d
  contents d := d
  query sql _ d files :=
    (.ok (d.map fun row => row.map (DataField.fromChars "c")),
      if sql = "DELETE FROM t" then [] else d, files)
  contents_backup _ := rfl

/-- A file with the old record. -/
def staleFiles : Authority (List (List String)) (List (List String)) :=
  .new fun _ => [["x"]]

theorem staleFiles_init : (authorityMachine oneTableEngine oneTableCopies).init staleFiles :=
  ⟨_, rfl⟩

/-- A provider is installed as the initialisation does it, under the address for reading. -/
def installAuthority : AuthorityAction :=
  .install (readOnlyUri "file:/a.db")

/-- All rows are selected on a provider. -/
def selectOn (thread provider : Nat) : AuthorityAction :=
  .query thread provider true "SELECT * FROM t" []

/-- A thread queries the first generation, and the table is reloaded. -/
def queryAndReload : List AuthorityAction :=
  [installAuthority, selectOn 0 0,
    .reload refreshedEnv "/" "/kdb/knowdb.toml" "file:/a.db" "t"] ++
  List.replicate 6 (.write 0)

/-- Two queries of one path and generation that differ in what they see. -/
def differingQueries (s : Authority (List (List String)) (List (List String))) : Bool :=
  s.log.any fun o => s.log.any fun o' =>
    decide (o.path = o'.path ∧ o.generation = o'.generation ∧ o.contents ≠ o'.contents)

/-- After the reload a second thread queries the same generation and sees other
contents than the first. -/
theorem data_sets_of_reloaded_file :
    ∃ s, (authorityMachine oneTableEngine oneTableCopies).Run Machine.Unguarded
        (queryAndReload ++ [selectOn 1 0]) s ∧
      ∃ o ∈ s.log, ∃ o' ∈ s.log, o.path = o'.path ∧ o.generation = o'.generation ∧
        o.contents ≠ o'.contents := by
  have hexec : ((authorityMachine oneTableEngine oneTableCopies).exec Machine.Unguarded staleFiles
      (queryAndReload ++ [selectOn 1 0])).any differingQueries = true := by
    decide +kernel
  rcases Machine.exists_run_of_exec_any staleFiles_init hexec with ⟨s, hrun, hdiffer⟩
  simp only [differingQueries, List.any_eq_true, decide_eq_true_eq] at hdiffer
  exact ⟨s, hrun, hdiffer⟩

/-- A query that deletes the rows is run on the copy of one thread; that thread sees no
rows any more, another one the rows of the file. -/
theorem data_sets_of_deleting_query :
    ∃ s, (authorityMachine oneTableEngine oneTableCopies).Run Machine.Unguarded
        [installAuthority, .query 0 0 true "DELETE FROM t" [], selectOn 0 0, selectOn 1 0] s ∧
      ∃ o ∈ s.log, ∃ o' ∈ s.log, o.path = o'.path ∧ o.generation = o'.generation ∧
        o.contents ≠ o'.contents := by
  have hexec : ((authorityMachine oneTableEngine oneTableCopies).exec Machine.Unguarded staleFiles
      [installAuthority, .query 0 0 true "DELETE FROM t" [], selectOn 0 0, selectOn 1 0]).any
        differingQueries = true := by
    decide +kernel
  rcases Machine.exists_run_of_exec_any staleFiles_init hexec with ⟨s, hrun, hdiffer⟩
  simp only [differingQueries, List.any_eq_true, decide_eq_true_eq] at hdiffer
  exact ⟨s, hrun, hdiffer⟩

/-- A provider of a new generation is installed after the reload; all threads that
query it see the new contents. -/
theorem one_data_set_per_generation_after_install :
    ∃ s, (authorityMachine oneTableEngine oneTableCopies).Run (DataSetsKept oneTableCopies)
        (queryAndReload ++ [installAuthority, selectOn 1 1, selectOn 0 1]) s ∧
      ∃ o ∈ s.log, ∃ o' ∈ s.log, o.thread ≠ o'.thread ∧ o.contents = [["y"]] ∧
        o.contents = o'.contents := by
  have hexec : ((authorityMachine oneTableEngine oneTableCopies).exec
      (DataSetsKept oneTableCopies) staleFiles
      (queryAndReload ++ [installAuthority, selectOn 1 1, selectOn 0 1])).any
        (fun s => s.log.any fun o => s.log.any fun o' => decide (o.thread ≠ o'.thread ∧
          o.contents = [["y"]] ∧ o.path = o'.path ∧ o.generation = o'.generation)) = true := by
    decide +kernel
  rcases Machine.exists_run_of_exec_any staleFiles_init hexec with ⟨s, hrun, hend⟩
  simp only [List.any_eq_true, decide_eq_true_eq] at hend
  rcases hend with ⟨o, ho, o', ho', hthread, hcontents, hpath, hgeneration⟩
  exact ⟨s, hrun, o, ho, o', ho', hthread, hcontents,
    one_data_set_per_generation hrun ho ho' hpath hgeneration⟩

end WpKnowledge
