import WpKnowledge.Foundation.Ledger

/-!
# Tasks that report to a replaceable sink

The steps of a task system may issue reports.  A report goes to whatever sink is
in a shared slot when the task gets to it; the slot can be exchanged at any time,
under a lock, and a flag beside the slot, which is read without the lock, says
whether reporting is worth the trouble.  The task that issued a report carries it
out, in steps of its own, before it goes on with its work.

Main results:

- Theorem {lit}`Hub.Sound.act`: what the slot, the flag and the exchanged sinks
  keep to one another.
- Theorem {lit}`segment_of_steps`: while one sink stays in the slot it receives
  every report.
-/

namespace Foundation

/-! ## The slot -/

/-- An exchange of the sink in progress: it holds the lock from {lit}`acquired`
on, and {lit}`previous` is the sink it has taken out. -/
inductive Exchange (S : Type) where
  | idle
  | acquired (sink : S)
  | replaced (previous : S)
  | stored (previous : S)

/-- The slot of the sink, the flag, the exchange in progress, and the sinks put
in and handed back so far, newest first. -/
structure Hub (S : Type) where
  sink : S
  enabled : Bool
  exchange : Exchange S
  installed : List S
  returned : List S

/-- One step of an exchange. -/
inductive HubAction (S : Type) where
  | acquire (sink : S)
  | replace
  | storeFlag
  | release

namespace Hub

variable {S : Type} (silent : S → Bool)

/-- A slot with its first sink. -/
def new (sink : S) : Hub S where
  sink := sink
  enabled := !silent sink
  exchange := .idle
  installed := []
  returned := []

/-- The slot after a step of an exchange; a step that is not its turn does
nothing. -/
def act (hub : Hub S) : HubAction S → Hub S
  | .acquire sink =>
      match hub.exchange with
      | .idle => { hub with exchange := .acquired sink }
      | _ => hub
  | .replace =>
      match hub.exchange with
      | .acquired sink =>
          { hub with
            sink := sink
            exchange := .replaced hub.sink
            installed := sink :: hub.installed }
      | _ => hub
  | .storeFlag =>
      match hub.exchange with
      | .replaced previous =>
          { hub with enabled := !silent hub.sink, exchange := .stored previous }
      | _ => hub
  | .release =>
      match hub.exchange with
      | .stored previous =>
          { hub with exchange := .idle, returned := previous :: hub.returned }
      | _ => hub

/-- The sink an exchange has taken out and not yet handed back. -/
def taken (hub : Hub S) : List S :=
  match hub.exchange with
  | .replaced previous | .stored previous => [previous]
  | _ => []

/-- The flag speaks of the sink in the slot, or of the one just taken out. -/
def FlagSound (hub : Hub S) : Prop :=
  match hub.exchange with
  | .replaced previous => hub.enabled = !silent previous
  | _ => hub.enabled = !silent hub.sink

/-- What holds of the slot after any number of exchanges: the flag is right, and
the sinks handed back, the one taken out and the one in the slot are those put
in, in the same order, after the first. -/
structure Sound (first : S) (hub : Hub S) : Prop where
  flag : hub.FlagSound silent
  chain : hub.sink :: (hub.taken ++ hub.returned) = hub.installed ++ [first]

theorem Sound.new (first : S) : Sound silent first (Hub.new silent first) :=
  ⟨rfl, rfl⟩

variable {silent}

theorem Sound.act {first : S} {hub : Hub S} (h : Sound silent first hub) (a : HubAction S) :
    Sound silent first (hub.act silent a) := by
  obtain ⟨sink, enabled, exchange, installed, returned⟩ := hub
  obtain ⟨hflag, hchain⟩ := h
  cases a with
  | acquire new =>
      cases exchange with
      | idle => exact ⟨hflag, hchain⟩
      | acquired | replaced | stored => exact ⟨hflag, hchain⟩
  | replace =>
      cases exchange with
      | acquired new =>
          refine ⟨hflag, ?_⟩
          simp only [taken, List.nil_append] at hchain
          simp [Hub.act, taken, ← hchain]
      | idle | replaced | stored => exact ⟨hflag, hchain⟩
  | storeFlag =>
      cases exchange with
      | replaced previous => exact ⟨rfl, hchain⟩
      | idle | acquired | stored => exact ⟨hflag, hchain⟩
  | release =>
      cases exchange with
      | stored previous => exact ⟨hflag, hchain⟩
      | idle | acquired | replaced => exact ⟨hflag, hchain⟩

/-- With no exchange in progress the flag is that of the sink. -/
theorem Sound.enabled_of_idle {first : S} {hub : Hub S} (h : Sound silent first hub)
    (hidle : hub.exchange = .idle) : hub.enabled = !silent hub.sink := by
  have hflag := h.flag
  simpa only [FlagSound, hidle] using hflag

end Hub

/-! ## Reporting tasks -/

/-- Where a report stands: none to make, or about to read the flag, to read the
slot, or to deliver. -/
inductive ReportPc (S ρ : Type) where
  | idle
  | loadFlag (report : ρ)
  | readSlot (report : ρ)
  | deliver (sink : S) (report : ρ)

/-- The report a step issued, about to be made. -/
def ReportPc.start {S ρ : Type} : Option ρ → ReportPc S ρ
  | some report => .loadFlag report
  | none => .idle

/-- A task with the report it is making. -/
structure Reporter (τ S ρ : Type) where
  task : τ
  report : ReportPc S ρ

/-- The history: the steps of the tasks with what they issued, and what became of
the reports. -/
inductive ReportEvent (S ρ ε : Type) where
  | worked (task : Nat) (event : Option ε) (report : Option ρ)
  | skipped (task : Nat) (report : ρ)
  | delivered (task : Nat) (sink : S) (report : ρ)

/-- A task takes a step of its work or one of its report. -/
inductive ReportInput (ι : Type) where
  | work (input : ι)
  | report

/-- The environment does what it did, or takes a step of an exchange. -/
inductive ReportEnv (S δ : Type) where
  | env (d : δ)
  | hub (a : HubAction S)

namespace TaskSystem

variable {σ τ ε κ ι δ S ρ : Type} (T : TaskSystem σ τ ε κ ι δ) (silent : S → Bool)
  (reports : τ → τ → Option ρ)

/-- One step of a reporting task.  Reading the slot waits for the lock. -/
def reportStep (tid : Nat) (x : σ × Hub S) (t : Reporter τ S ρ) :
    ReportInput ι → Option ((σ × Hub S) × Reporter τ S ρ × Option (ReportEvent S ρ ε))
  | .work input =>
      match t.report with
      | .idle =>
          (T.step tid x.1 t.task input).map fun r =>
            ((r.1, x.2), ⟨r.2.1, .start (reports t.task r.2.1)⟩,
              some (.worked tid r.2.2 (reports t.task r.2.1)))
      | _ => none
  | .report =>
      match t.report with
      | .idle => none
      | .loadFlag report =>
          if x.2.enabled then some (x, { t with report := .readSlot report }, none)
          else some (x, { t with report := .idle }, some (.skipped tid report))
      | .readSlot report =>
          match x.2.exchange with
          | .idle => some (x, { t with report := .deliver x.2.sink report }, none)
          | _ => none
      | .deliver sink report =>
          some (x, { t with report := .idle }, some (.delivered tid sink report))

/-- The shared state after the environment has acted. -/
def reportEnv (x : σ × Hub S) : ReportEnv S δ → σ × Hub S
  | .env d => (T.env x.1 d, x.2)
  | .hub a => (x.1, x.2.act silent a)

/-- The task system whose tasks report. -/
def reporting : TaskSystem (σ × Hub S) (Reporter τ S ρ) (ReportEvent S ρ ε) κ (ReportInput ι)
    (ReportEnv S δ) where
  start call := ⟨T.start call, .idle⟩
  step := T.reportStep reports
  env := T.reportEnv silent

/-- It as a machine, with its first sink in the slot. -/
def reportingMachine (start : σ → Prop) (first : S) :
    Machine (Pool (σ × Hub S) (Reporter τ S ρ) (ReportEvent S ρ ε))
      (PoolAction κ (ReportInput ι) (ReportEnv S δ)) :=
  (T.reporting silent reports).machine fun x => start x.1 ∧ x.2 = Hub.new silent first

end TaskSystem

/-! ## The steps of a reporting task -/

section Steps

variable {σ τ ε κ ι δ S ρ : Type} {T : TaskSystem σ τ ε κ ι δ} {reports : τ → τ → Option ρ}

/-- A step of a task's work. -/
theorem reportStep_work_iff {tid : Nat} {x x' : σ × Hub S} {t t' : Reporter τ S ρ} {input : ι}
    {e : Option (ReportEvent S ρ ε)} :
    T.reportStep reports tid x t (.work input) = some (x', t', e) ↔
      ∃ y u event, t.report = .idle ∧ T.step tid x.1 t.task input = some (y, u, event) ∧
        x' = (y, x.2) ∧ t' = ⟨u, .start (reports t.task u)⟩ ∧
        e = some (.worked tid event (reports t.task u)) := by
  unfold TaskSystem.reportStep
  cases ht : t.report with
  | idle =>
      simp only [Option.map_eq_some_iff, true_and]
      constructor
      · rintro ⟨⟨y, u, event⟩, hstep, heq⟩
        cases heq
        exact ⟨y, u, event, hstep, rfl, rfl, rfl⟩
      · rintro ⟨y, u, event, hstep, rfl, rfl, rfl⟩
        exact ⟨(y, u, event), hstep, rfl⟩
  | loadFlag | readSlot | deliver => simp

/-- A step of a report leaves the shared state and the task's work alone. -/
theorem reportStep_report {tid : Nat} {x x' : σ × Hub S} {t t' : Reporter τ S ρ}
    {e : Option (ReportEvent S ρ ε)}
    (h : T.reportStep reports tid x t .report = some (x', t', e)) :
    x' = x ∧ t'.task = t.task ∧
      ((∃ r, t.report = .loadFlag r ∧ x.2.enabled = true ∧ t'.report = .readSlot r ∧ e = none) ∨
        (∃ r, t.report = .loadFlag r ∧ x.2.enabled = false ∧ t'.report = .idle ∧
          e = some (.skipped tid r)) ∨
        (∃ r, t.report = .readSlot r ∧ x.2.exchange = .idle ∧
          t'.report = .deliver x.2.sink r ∧ e = none) ∨
        ∃ sink r, t.report = .deliver sink r ∧ t'.report = .idle ∧
          e = some (.delivered tid sink r)) := by
  unfold TaskSystem.reportStep at h
  cases ht : t.report with
  | idle => simp [ht] at h
  | loadFlag r =>
      by_cases hflag : x.2.enabled = true
      · simp only [ht, hflag, if_true] at h
        cases h
        exact ⟨rfl, rfl, .inl ⟨r, rfl, hflag, rfl, rfl⟩⟩
      · simp only [ht, hflag] at h
        cases h
        exact ⟨rfl, rfl, .inr (.inl ⟨r, rfl, by simpa using hflag, rfl, rfl⟩)⟩
  | readSlot r =>
      simp only [ht] at h
      split at h
      · rename_i hidle
        cases h
        exact ⟨rfl, rfl, .inr (.inr (.inl ⟨r, rfl, hidle, rfl, rfl⟩))⟩
      · cases h
  | deliver sink r =>
      simp only [ht] at h
      cases h
      exact ⟨rfl, rfl, .inr (.inr (.inr ⟨sink, r, rfl, rfl, rfl⟩))⟩

end Steps

/-! ## Where the reports go -/

section Segment

variable {σ τ ε κ ι δ S ρ : Type} {T : TaskSystem σ τ ε κ ι δ} {silent : S → Bool}
  {reports : τ → τ → Option ρ} {start : σ → Prop} {first : S}

/-- The slot is sound after every run. -/
theorem hubSound_of_run {ok : Pool (σ × Hub S) (Reporter τ S ρ) (ReportEvent S ρ ε) →
      PoolAction κ (ReportInput ι) (ReportEnv S δ) → Prop}
    {as : List (PoolAction κ (ReportInput ι) (ReportEnv S δ))}
    {s : Pool (σ × Hub S) (Reporter τ S ρ) (ReportEvent S ρ ε)}
    (h : (T.reportingMachine silent reports start first).Run ok as s) :
    s.shared.2.Sound silent first := by
  refine Machine.Run.stateInvariant (P := fun s => s.shared.2.Sound silent first) ?_ ?_ h
  · rintro s ⟨⟨-, hhub⟩, -, -⟩
    exact hhub ▸ .new silent first
  · intro s a s' hs _ hstep
    cases a with
    | spawn call =>
        cases hstep
        exact hs
    | env d =>
        cases hstep
        cases d with
        | env d => exact hs
        | hub a => exact hs.act a
    | run tid input =>
        rcases TaskSystem.advance_run_iff.mp hstep with ⟨t, x, t', e, ht, hst, rfl⟩
        cases input with
        | work input =>
            rcases reportStep_work_iff.mp hst with ⟨y, u, event, -, -, rfl, rfl, rfl⟩
            exact hs
        | report =>
            have hst' : T.reportStep reports tid s.shared t .report = some (x, t', e) := hst
            obtain ⟨rfl, -, -⟩ := reportStep_report hst'
            exact hs

/-- No exchange of the sink takes a step. -/
def Undisturbed (_ : Pool (σ × Hub S) (Reporter τ S ρ) (ReportEvent S ρ ε)) :
    PoolAction κ (ReportInput ι) (ReportEnv S δ) → Prop
  | .env (.hub _) => False
  | _ => True

instance (s : Pool (σ × Hub S) (Reporter τ S ρ) (ReportEvent S ρ ε))
    (a : PoolAction κ (ReportInput ι) (ReportEnv S δ)) : Decidable (Undisturbed s a) := by
  unfold Undisturbed
  split <;> infer_instance

/-- One if the report is there and of the kind. -/
def ofKind (p : ρ → Bool) : Option ρ → Nat
  | some r => if p r then 1 else 0
  | none => 0

@[simp]
theorem ofKind_none (p : ρ → Bool) : ofKind p none = 0 := rfl

/-- The number of reports of a kind the tasks have issued. -/
def issued (p : ρ → Bool) : List (ReportEvent S ρ ε) → Nat
  | [] => 0
  | .worked _ _ report :: log => ofKind p report + issued p log
  | _ :: log => issued p log

/-- The number of reports of a kind a sink has received. -/
def received [DecidableEq S] (sink : S) (p : ρ → Bool) : List (ReportEvent S ρ ε) → Nat
  | [] => 0
  | .delivered _ k r :: log => (if k = sink then ofKind p (some r) else 0) + received sink p log
  | _ :: log => received sink p log

/-- The report a task has to make. -/
def ReportPc.report? : ReportPc S ρ → Option ρ
  | .idle => none
  | .loadFlag r | .readSlot r | .deliver _ r => some r

@[simp]
theorem ReportPc.report?_start (report : Option ρ) :
    (ReportPc.start report : ReportPc S ρ).report? = report := by
  cases report <;> rfl

/-- One if the task has a report of a kind to make. -/
def pending (p : ρ → Bool) (t : Reporter τ S ρ) : Nat :=
  ofKind p t.report.report?

/-- A report read from the slot is to go to the sink. -/
def Towards (sink : S) (t : Reporter τ S ρ) : Prop :=
  match t.report with
  | .deliver k _ => k = sink
  | _ => True

/-- What holds between two states with the sink in the slot all the while. -/
structure Segment [DecidableEq S] (sink : S)
    (s s' : Pool (σ × Hub S) (Reporter τ S ρ) (ReportEvent S ρ ε)) : Prop where
  hub : s'.shared.2 = s.shared.2
  towards : ∀ t ∈ s'.tasks, Towards sink t
  counts : ∀ p, issued p s'.log + received sink p s.log =
    issued p s.log + received sink p s'.log + total (pending p) s'.tasks

variable [DecidableEq S]

theorem Segment.step {s₀ s s' : Pool (σ × Hub S) (Reporter τ S ρ) (ReportEvent S ρ ε)}
    {a : PoolAction κ (ReportInput ι) (ReportEnv S δ)} (h : Segment s₀.shared.2.sink s₀ s)
    (henabled : s₀.shared.2.enabled = true) (hok : Undisturbed s a)
    (hstep : (T.reporting silent reports).advance s a = some s') :
    Segment s₀.shared.2.sink s₀ s' := by
  obtain ⟨hhub, htowards, hcounts⟩ := h
  cases a with
  | spawn call =>
      cases hstep
      refine ⟨hhub, fun t ht => ?_, fun p => ?_⟩
      · rcases List.mem_append.mp ht with hold | hnew
        · exact htowards t hold
        · rw [List.mem_singleton.mp hnew]
          trivial
      · simpa [TaskSystem.reporting, pending, ReportPc.report?] using hcounts p
  | env d =>
      cases hstep
      cases d with
      | env d => exact ⟨hhub, htowards, hcounts⟩
      | hub a => exact hok.elim
  | run tid input =>
      rcases TaskSystem.advance_run_iff.mp hstep with ⟨t, x, t', e, ht, hst, rfl⟩
      have hmem : ∀ u ∈ s.tasks.set tid t', u = t' ∨ u ∈ s.tasks := fun u hu =>
        ((mem_set_of_getElem? ht).mp hu).imp_right List.mem_of_mem_eraseIdx
      cases input with
      | work input =>
          rcases reportStep_work_iff.mp hst with ⟨y, u, event, hidle, -, rfl, rfl, rfl⟩
          refine ⟨hhub, fun v hv => ?_, fun p => ?_⟩
          · rcases hmem v hv with rfl | hold
            · cases reports t.task u <;> simp [Towards, ReportPc.start]
            · exact htowards v hold
          · have hset := total_set_add (pending p) ⟨u, .start (reports t.task u)⟩ ht
            have hbefore := hcounts p
            simp only [pending, hidle, ReportPc.report?_start] at hset
            simp only [Option.toList_some, List.singleton_append, issued, received]
            simp only [ReportPc.report?, ofKind_none] at hset
            omega
      | report =>
          have hst' : T.reportStep reports tid s.shared t .report = some (x, t', e) := hst
          obtain ⟨rfl, -, hcases⟩ := reportStep_report hst'
          have hto : Towards s₀.shared.2.sink t' → ∀ u ∈ s.tasks.set tid t',
              Towards s₀.shared.2.sink u := fun ht' u hu => by
            rcases hmem u hu with rfl | hold
            · exact ht'
            · exact htowards u hold
          have hset : ∀ p, total (pending p) (s.tasks.set tid t') + pending p t =
              total (pending p) s.tasks + pending p t' := fun p => total_set_add _ _ ht
          have hflag : s.shared.2.enabled = true := hhub ▸ henabled
          rcases hcases with ⟨r, hr, -, hr', rfl⟩ | ⟨r, -, hoff, -, -⟩ | ⟨r, hr, -, hr', rfl⟩ |
            ⟨sink, r, hr, hr', rfl⟩
          · refine ⟨hhub, hto (by simp [Towards, hr']), fun p => ?_⟩
            have hmove := hset p
            have hbefore := hcounts p
            simp only [pending, hr, hr', ReportPc.report?] at hmove
            simp only [Option.toList_none, List.nil_append]
            omega
          · exact absurd (hflag.symm.trans hoff) (by simp)
          · refine ⟨hhub, hto (by simp [Towards, hr', hhub]), fun p => ?_⟩
            have hmove := hset p
            have hbefore := hcounts p
            simp only [pending, hr, hr', ReportPc.report?] at hmove
            simp only [Option.toList_none, List.nil_append]
            omega
          · have hsink : sink = s₀.shared.2.sink := by
              have := htowards t (List.mem_of_getElem? ht)
              simpa only [Towards, hr] using this
            refine ⟨hhub, hto (by simp [Towards, hr']), fun p => ?_⟩
            have hmove := hset p
            have hbefore := hcounts p
            simp only [pending, hr, hr', ReportPc.report?, ofKind_none] at hmove
            simp only [Option.toList_some, List.singleton_append, issued, received, hsink, if_true]
            omega

/-- While no exchange takes a step, a sink that wants reports and is in the slot
receives every report issued, sooner or later. -/
theorem segment_of_steps {s s' : Pool (σ × Hub S) (Reporter τ S ρ) (ReportEvent S ρ ε)}
    {as : List (PoolAction κ (ReportInput ι) (ReportEnv S δ))}
    (henabled : s.shared.2.enabled = true) (hidle : ∀ t ∈ s.tasks, t.report = .idle)
    (h : (T.reportingMachine silent reports start first).Steps Undisturbed s as s') :
    Segment s.shared.2.sink s s' := by
  induction h with
  | refl =>
      have hzero : ∀ p, total (pending p) s.tasks = 0 := by
        intro p
        have : ∀ t ∈ s.tasks, pending p t = 0 := fun t ht => by
          simp [pending, hidle t ht, ReportPc.report?]
        simpa [total] using List.sum_eq_zero (by simpa using this)
      refine ⟨rfl, fun t ht => by simp [Towards, hidle t ht], fun p => ?_⟩
      rw [hzero p]
      omega
  | snoc _ hok hstep ih => exact ih.step henabled hok hstep

end Segment

end Foundation
