import WpKnowledge.Foundation.Reporting
import WpKnowledge.Runtime.Handles

/-!
# Telemetry

`src/telemetry.rs` keeps one telemetry sink in a slot, with a flag beside it that
says whether the sink is a real one.  The calls of the runtime report to it: a
lookup in the result cache, the end of an install, the answer of a provider.
Each report first reads the flag, then, if it is set, reads the slot and calls
the sink it found there.  The sink can be replaced at any time.

The time a query took, which a report also carries, is left out.

Main results:

- Theorem {lit}`telemetry_slot_sound`: the flag, the slot and the sinks handed
  back agree with what was installed.
- Theorem {lit}`telemetry_counts_agree`: a sink that stays installed counts the
  lookups in the result cache and the installs as the runtime counts them.
-/

namespace WpKnowledge

open Foundation

/-! ## The events -/

/-- The cache a lookup is made in. -/
inductive CacheLayer where
  | localLayer
  | resultLayer
  | metadataLayer
deriving DecidableEq, Repr

/-- What a lookup found. -/
inductive CacheOutcome where
  | hit
  | miss
deriving DecidableEq, Repr

/-- A lookup in a cache. -/
structure CacheTelemetryEvent where
  layer : CacheLayer
  outcome : CacheOutcome
  providerKind : Option ProviderKind
deriving DecidableEq, Repr

/-- How an install ended. -/
inductive ReloadOutcome where
  | success
  | failure
deriving DecidableEq, Repr

/-- The end of an install. -/
structure ReloadTelemetryEvent where
  outcome : ReloadOutcome
  providerKind : ProviderKind
deriving DecidableEq, Repr

/-- The answer of a provider. -/
structure QueryTelemetryEvent where
  providerKind : ProviderKind
  mode : QueryModeTag
  success : Bool
deriving DecidableEq, Repr

/-- A call of one of the methods of a telemetry sink. -/
inductive TelemetryEvent where
  | onCache (event : CacheTelemetryEvent)
  | onReload (event : ReloadTelemetryEvent)
  | onQuery (event : QueryTelemetryEvent)
deriving DecidableEq, Repr

/-! ## What the calls report -/

variable {π : Type}

/-- Whether a query that asked its provider goes on or ends with an error. -/
def ExecutePc.succeeds : ExecutePc π → Bool
  | .done (.error _) => false
  | _ => true

/-- The report of a step of a call, given the call before and after it. -/
def Task.reports : Task π → Task π → Option TelemetryEvent
  | .install call (.countFailure _), _ => some (.onReload ⟨.failure, call.kind⟩)
  | .install call (.countSuccess _), _ => some (.onReload ⟨.success, call.kind⟩)
  | .execute _ (.countHit handle _), _ =>
      some (.onCache ⟨.resultLayer, .hit, some handle.kind⟩)
  | .execute _ (.countMiss handle), _ =>
      some (.onCache ⟨.resultLayer, .miss, some handle.kind⟩)
  | .execute call (.ask handle _), .execute _ pc' =>
      some (.onQuery ⟨handle.kind, call.query.mode, pc'.succeeds⟩)
  | _, _ => none

section Machine

variable [DefaultHasher] [ValueText] {S : Type}

/-- The states of the runtime with telemetry. -/
abbrev TelemetryPool (π S : Type) :=
  Pool (Shared π × Hub S) (Reporter (Task π) S TelemetryEvent)
    (ReportEvent S TelemetryEvent (Event π))

/-- Its actions. -/
abbrev TelemetryAction (π S : Type) :=
  PoolAction Call (ReportInput (Input π)) (ReportEnv S Ambient)

variable (π) in
/-- The runtime with telemetry.  Telemetry sinks are shared by reference and told
apart as such; {lit}`isNoop` is what a sink says of itself, and the slot starts
with a sink that does nothing. -/
def telemetryMachine (isNoop : S → Bool) (noop : S) :
    Machine (TelemetryPool π S) (TelemetryAction π S) :=
  (runtimeSystem π).reportingMachine isNoop Task.reports
    (fun x => ∃ capacity, x.runtime = KnowledgeRuntime.new π capacity) noop

end Machine

/-- The actions of closed runs with telemetry; the sink {lit}`false` does nothing. -/
abbrev PlainTelemetryAction := TelemetryAction Unit Bool

/-- A real sink is installed. -/
def telemetryInstalled : List PlainTelemetryAction :=
  [.env (.hub (.acquire true)), .env (.hub .replace), .env (.hub .storeFlag),
    .env (.hub .release)]

/-- A provider is installed, and the call reports that it has succeeded. -/
def reportedInstall : List PlainTelemetryAction :=
  ([.spawn (.install (.installProvider .postgres ⟨"postgres:1"⟩)), .run 0 (.work .go),
    .run 0 (.work (.built (.ok ())))] : List PlainTelemetryAction) ++
    List.replicate 7 (.run 0 (.work .go)) ++ List.replicate 3 (.run 0 .report)

/-- A new runtime with telemetry. -/
def newTelemetryPool : TelemetryPool Unit Bool :=
  ⟨(⟨KnowledgeRuntime.new Unit 4, 0⟩, Hub.new not false), [], []⟩

theorem newTelemetryPool_init [DefaultHasher] [ValueText] :
    (telemetryMachine Unit not false).init newTelemetryPool :=
  ⟨⟨⟨4, rfl⟩, rfl⟩, rfl, rfl⟩

section Machine

variable [DefaultHasher] [ValueText] {S : Type}

/-! ## The slot and the flag -/

/-- However exchanges of the sink and reports interleave: with no exchange in
progress the flag says whether the sink in the slot is a real one, and the sinks
handed back by `install_telemetry` are, oldest first, the first sink and all
those installed before the present one, each once. -/
theorem telemetry_slot_sound {isNoop : S → Bool} {noop : S}
    {ok : TelemetryPool π S → TelemetryAction π S → Prop} {as : List (TelemetryAction π S)}
    {s : TelemetryPool π S}
    (h : (telemetryMachine π isNoop noop).Run ok as s) :
    (s.shared.2.exchange = .idle →
        s.shared.2.enabled = !isNoop s.shared.2.sink ∧
          s.shared.2.sink :: s.shared.2.returned = s.shared.2.installed ++ [noop]) ∧
      s.shared.2.sink :: (s.shared.2.taken ++ s.shared.2.returned) =
        s.shared.2.installed ++ [noop] := by
  have hsound := hubSound_of_run h
  refine ⟨fun hidle => ⟨hsound.enabled_of_idle hidle, ?_⟩, hsound.chain⟩
  have hchain := hsound.chain
  simpa only [Hub.taken, hidle, List.nil_append] using hchain

end Machine

/-- A real sink is in the slot and no exchange is in progress. -/
def isInstalled (s : TelemetryPool Unit Bool) : Bool :=
  (match s.shared.2.exchange with
    | .idle => true
    | _ => false) && s.shared.2.sink

theorem telemetry_slot_sound_telemetryInstalled :
    let _ := sipHasher
    let _ := numericText
    ∃ s, (telemetryMachine Unit not false).Run Machine.Unguarded telemetryInstalled s ∧
      s.shared.2.enabled = !(!s.shared.2.sink) ∧
      s.shared.2.sink :: s.shared.2.returned = s.shared.2.installed ++ [false] ∧
      s.shared.2.sink = true := by
  let _ := sipHasher
  let _ := numericText
  have hexec : ((telemetryMachine Unit not false).exec Machine.Unguarded newTelemetryPool
      telemetryInstalled).any isInstalled = true := by
    decide +kernel
  rcases Machine.exists_run_of_exec_any newTelemetryPool_init hexec with ⟨s, hrun, hend⟩
  obtain ⟨hexchange, hsink⟩ := Bool.and_eq_true_iff.mp hend
  have hidle : s.shared.2.exchange = .idle := by
    cases h : s.shared.2.exchange <;> simp_all
  obtain ⟨henabled, hchain⟩ := (telemetry_slot_sound hrun).1 hidle
  exact ⟨s, hrun, henabled, hchain, hsink⟩

section Machine

variable [DefaultHasher] [ValueText] {S : Type}

/-! ## The counts -/

/-- The four counters of the runtime whose every step telemetry is told of: those of the
result cache and those of the installs.  The lookups in the local and the metadata cache are
reported by their callers, and nothing is reported of the Redis cache. -/
inductive Tally where
  | resultCacheHits
  | resultCacheMisses
  | reloadSuccesses
  | reloadFailures
deriving DecidableEq, Repr

/-- The counter in the runtime. -/
def KnowledgeRuntime.tally (rt : KnowledgeRuntime π) : Tally → Nat
  | .resultCacheHits => rt.resultCacheHits
  | .resultCacheMisses => rt.resultCacheMisses
  | .reloadSuccesses => rt.reloadSuccesses
  | .reloadFailures => rt.reloadFailures

/-- The event that belongs to a counter. -/
def TelemetryEvent.counts : Tally → TelemetryEvent → Bool
  | .resultCacheHits, .onCache ⟨.resultLayer, .hit, _⟩ => true
  | .resultCacheMisses, .onCache ⟨.resultLayer, .miss, _⟩ => true
  | .reloadSuccesses, .onReload ⟨.success, _⟩ => true
  | .reloadFailures, .onReload ⟨.failure, _⟩ => true
  | _, _ => false

omit [DefaultHasher] [ValueText] in
theorem InstallEffect.tally_eq {c : InstallCall} {tid : Nat} {rt rt' : KnowledgeRuntime π}
    {pc pc' : InstallPc π} {e : Option (Event π)} (h : InstallEffect c tid rt pc rt' pc' e)
    (tally : Tally) :
    rt'.tally tally = rt.tally tally + ofKind (TelemetryEvent.counts tally)
      (Task.reports (.install c pc) (.install c pc')) := by
  cases h <;> cases tally <;> rfl

omit [DefaultHasher] [ValueText] in
theorem ConfigureCall.tally_eq {c : ConfigureCall} {rt rt' : KnowledgeRuntime π}
    {pc pc' : ConfigurePc} {input : Input π} {e : Option (Event π)}
    (h : c.step rt pc input = some (rt', pc', e)) (tally : Tally) :
    rt'.tally tally = rt.tally tally + ofKind (TelemetryEvent.counts tally)
      (Task.reports (.configure c pc : Task π) (.configure c pc')) := by
  unfold ConfigureCall.step at h
  split at h
  all_goals cases h
  all_goals cases tally <;> rfl

theorem ExecuteCall.tally_eq {c : ExecuteCall} {tid clock : Nat} {rt rt' : KnowledgeRuntime π}
    {pc pc' : ExecutePc π} {input : Input π} {e : Option (Event π)}
    (h : c.step tid clock rt pc input = some (rt', pc', e)) (tally : Tally) :
    rt'.tally tally = rt.tally tally + ofKind (TelemetryEvent.counts tally)
      (Task.reports (.execute c pc) (.execute c pc')) := by
  unfold ExecuteCall.step at h
  split at h
  all_goals try split at h
  all_goals cases h
  all_goals cases tally <;> rfl

/-- A step moves a counter exactly when it reports an event of that counter. -/
theorem Task.tally_eq {tid : Nat} {x x' : Shared π} {t t' : Task π} {input : Input π}
    {e : Option (Event π)} (h : Task.step tid x t input = some (x', t', e)) (tally : Tally) :
    x'.runtime.tally tally = x.runtime.tally tally +
      ofKind (TelemetryEvent.counts tally) (Task.reports t t') := by
  rcases Task.step_cases h with ⟨c, pc, pc', rfl, rfl, -, heff⟩ | ⟨keep, rfl, rfl, -, rfl⟩ |
    ⟨-, -, -, ⟨c, pc, pc', rfl, rfl, hstep⟩ | ⟨c, pc, pc', rfl, rfl, hstep⟩ |
      ⟨pc, pc', rfl, rfl, rfl, -, -⟩⟩
  · exact heff.tally_eq tally
  · cases tally <;> rfl
  · exact ConfigureCall.tally_eq hstep tally
  · exact ExecuteCall.tally_eq hstep tally
  · cases tally <;> rfl

/-- In every run a counter is the number of reports issued that belong to it. -/
theorem tally_eq_issued {isNoop : S → Bool} {noop : S}
    {ok : TelemetryPool π S → TelemetryAction π S → Prop} {as : List (TelemetryAction π S)}
    {s : TelemetryPool π S} (h : (telemetryMachine π isNoop noop).Run ok as s) (tally : Tally) :
    s.shared.1.runtime.tally tally = issued (TelemetryEvent.counts tally) s.log := by
  have hrun : (((runtimeSystem π).reporting isNoop Task.reports).machine fun x =>
      (∃ capacity, x.1.runtime = KnowledgeRuntime.new π capacity) ∧
        x.2 = Hub.new isNoop noop).Run ok as s := h
  have hbalance := Pool.credit_eq_debit_add_total (fun x _ => x.1.runtime.tally tally)
    (fun _ log => issued (TelemetryEvent.counts tally) log) (fun _ => 0) ?_ (fun _ => rfl) ?_ ?_
    hrun
  · simpa [total] using hbalance
  · rintro ⟨x, hub⟩ ⟨⟨capacity, hx⟩, -⟩
    rw [hx]
    cases tally <;> rfl
  · rintro ⟨x, hub⟩ log d
    cases d with
    | env d => cases d <;> cases tally <;> rfl
    | hub a => rfl
  · intro as s tid t input x e t' _ _ hstep
    cases input with
    | work input =>
        rcases reportStep_work_iff.mp hstep with ⟨y, u, event, -, hwork, rfl, rfl, rfl⟩
        have hmove := Task.tally_eq hwork tally
        simp only [Option.toList_some, List.singleton_append, issued]
        omega
    | report =>
        have hstep' : (runtimeSystem π).reportStep Task.reports tid s.shared t .report =
          some (x, t', e) := hstep
        obtain ⟨rfl, -, hcases⟩ := reportStep_report hstep'
        have hlog : issued (TelemetryEvent.counts tally) (e.toList ++ s.log) =
            issued (TelemetryEvent.counts tally) s.log := by
          rcases hcases with ⟨r, -, -, -, rfl⟩ | ⟨r, -, -, -, rfl⟩ | ⟨r, -, -, -, rfl⟩ |
            ⟨sink, r, -, -, rfl⟩ <;> rfl
        simp only [hlog]

/-- While a real sink stays in the slot it counts what the runtime counts: from a
state with no exchange in progress and no report being made, through any
interleaving of calls in which no exchange takes a step, each of the four counters
grows by the events of that counter the sink receives, those still on their way
apart. -/
theorem telemetry_counts_agree [DecidableEq S] {isNoop : S → Bool} {noop : S}
    {ok : TelemetryPool π S → TelemetryAction π S → Prop} {as bs : List (TelemetryAction π S)}
    {s s' : TelemetryPool π S} (h : (telemetryMachine π isNoop noop).Run ok as s)
    (hidle : s.shared.2.exchange = .idle) (hreal : isNoop s.shared.2.sink = false)
    (hquiet : ∀ t ∈ s.tasks, t.report = .idle)
    (hsteps : (telemetryMachine π isNoop noop).Steps Undisturbed s bs s') (tally : Tally) :
    s'.shared.1.runtime.tally tally +
        received s.shared.2.sink (TelemetryEvent.counts tally) s.log =
      s.shared.1.runtime.tally tally +
        received s.shared.2.sink (TelemetryEvent.counts tally) s'.log +
          total (pending (TelemetryEvent.counts tally)) s'.tasks := by
  have henabled : s.shared.2.enabled = true := by
    rw [(hubSound_of_run h).enabled_of_idle hidle, hreal]
    rfl
  have hseg := segment_of_steps henabled hquiet hsteps
  have hrun : (telemetryMachine π isNoop noop).Run Machine.Unguarded as s :=
    h.mono fun _ _ _ => trivial
  have hafter := tally_eq_issued (hrun.append_steps (fun _ _ _ => trivial) hsteps) tally
  rw [tally_eq_issued h tally, hafter]
  exact hseg.counts _

end Machine

/-- The real sink is in the slot and no report is being made. -/
def isReporting (s : TelemetryPool Unit Bool) : Bool :=
  isInstalled s && s.tasks.isEmpty

theorem telemetry_counts_agree_reportedInstall :
    let _ := sipHasher
    let _ := numericText
    ∃ s s', (telemetryMachine Unit not false).Run Machine.Unguarded telemetryInstalled s ∧
      (telemetryMachine Unit not false).Steps Undisturbed s reportedInstall s' ∧
      s'.shared.1.runtime.tally .reloadSuccesses +
          received s.shared.2.sink (TelemetryEvent.counts .reloadSuccesses) s.log =
        s.shared.1.runtime.tally .reloadSuccesses +
          received s.shared.2.sink (TelemetryEvent.counts .reloadSuccesses) s'.log +
            total (pending (TelemetryEvent.counts .reloadSuccesses)) s'.tasks ∧
      s'.shared.1.runtime.tally .reloadSuccesses = 1 := by
  let _ := sipHasher
  let _ := numericText
  have hfirst : ((telemetryMachine Unit not false).exec Machine.Unguarded newTelemetryPool
      telemetryInstalled).any (fun s => isReporting s &&
        ((telemetryMachine Unit not false).exec Undisturbed s reportedInstall).any
          fun s' => decide (s'.shared.1.runtime.tally .reloadSuccesses = 1)) = true := by
    decide +kernel
  rcases Machine.exists_run_of_exec_any newTelemetryPool_init hfirst with ⟨s, hrun, hend⟩
  obtain ⟨hstate, hsecond⟩ := Bool.and_eq_true_iff.mp hend
  obtain ⟨⟨hexchange, hsink⟩, htasks⟩ :
      (_ ∧ s.shared.2.sink = true) ∧ s.tasks.isEmpty = true := by
    simpa only [isReporting, isInstalled, Bool.and_eq_true_iff] using hstate
  have hidle : s.shared.2.exchange = .idle := by
    cases h : s.shared.2.exchange <;> simp_all
  rcases (Option.any_eq_true _ _).mp hsecond with ⟨s', hexec, hcount⟩
  have hsteps := Machine.steps_of_exec hexec
  refine ⟨s, s', hrun, hsteps, ?_, of_decide_eq_true hcount⟩
  exact telemetry_counts_agree hrun hidle (by rw [hsink]; rfl)
    (by simp [List.isEmpty_iff.mp htasks]) hsteps _

end WpKnowledge
