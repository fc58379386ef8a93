import WpKnowledge.Foundation.TaskPool
import WpKnowledge.Intranet.Nets

/-!
# Decisions on the intranet

The configuration of the intranet is a process-wide variable that the loader sets, and the
set of networks a process-wide value that the first use builds ({lit}`INTRANET_NETS_SET`).
Any number of tasks set the configuration, ask for an address and ask for the message of
the start at the same time: one of them builds the set, and the others wait for it.

Main results:

- Theorem {lit}`Consistent.split`: a consistent history has one configuration in use.
- Theorem {lit}`one_set_of_run`: in every run all decisions follow the configuration that
  was set last when the set was built, whatever is set later.
-/

namespace WpKnowledge.Intranet

open Foundation

/-! ## Tasks -/

/-- The networks in a set. -/
def IntranetNetsSet.netCount {N4 N6 : Type} (set : IntranetNetsSet N4 N6) : Nat :=
  set.v4Nets.length + set.v6Nets.length

/-- The set that is built at its first use. -/
inductive LazySet (N4 N6 : Type) where
  | empty
  | building (task : Nat)
  | ready (set : IntranetNetsSet N4 N6)

/-- The variables of the process: the configuration and the set. -/
structure NetsState (N4 N6 : Type) where
  conf : Option IntranetNetsConf
  set : LazySet N4 N6

/-- A use of the set: `is_intranet` or `init_intranet_nets`. -/
inductive NetsUse where
  | isIntranet (ip : IpAddr)
  | initIntranetNets
deriving DecidableEq

/-- A call of the module. -/
inductive NetsCall where
  | setIntranetNetsConf (conf : Option IntranetNetsConf)
  | use (u : NetsUse)

/-- Where a task stands. -/
inductive NetsTask (N4 N6 : Type) where
  | setting (conf : Option IntranetNetsConf)
  /-- The set is needed. -/
  | forcing (u : NetsUse)
  /-- The set is to be built by this task, before the configuration is read. -/
  | building (u : NetsUse)
  /-- The set has been built, before the others may see it. -/
  | publishing (u : NetsUse) (set : IntranetNetsSet N4 N6)
  /-- The set is there. -/
  | holding (u : NetsUse) (set : IntranetNetsSet N4 N6)
  | done

/-- What happened: a configuration was set, the set was built of one, or a use returned. -/
inductive NetsEvent where
  | configured (conf : Option IntranetNetsConf)
  | built (conf : Option IntranetNetsConf)
  | decided (ip : IpAddr) (intranet : Bool)
  | loaded (message : Except String String)
deriving DecidableEq

/-- The message of the start, by whether a configuration has been set. -/
def loadedMessage (external : Bool) (netCount : Nat) : Except String String :=
  if external then .ok ("内网 Nets 已加载 | 外部配置生效 | 网段数: " ++ toString netCount)
  else .ok ("内网 Nets 已加载 | 使用内置网段 | 网段数: " ++ toString netCount)

section Library

variable {N4 N6 : Type} (fromStr : String → Option (IpNet N4 N6))
  (contains4 : N4 → BitVec 32 → Bool) (contains6 : N6 → BitVec 128 → Bool)

/-- What a use returns once it holds the set. -/
def NetsUse.answer (conf : Option IntranetNetsConf) (set : IntranetNetsSet N4 N6) :
    NetsUse → NetsEvent
  | isIntranet ip => .decided ip (set.contains contains4 contains6 (unmapped ip))
  | initIntranetNets => .loaded (loadedMessage conf.isSome set.netCount)

/-- One step of a task; a task that needs a set which another one builds has none. -/
def NetsTask.step (tid : Nat) (x : NetsState N4 N6) :
    NetsTask N4 N6 → Option (NetsState N4 N6 × NetsTask N4 N6 × Option NetsEvent)
  | setting conf => some ({ x with conf := conf }, done, some (.configured conf))
  | forcing u =>
      match x.set with
      | .empty => some ({ x with set := .building tid }, building u, none)
      | .building _ => none
      | .ready set => some (x, holding u set, none)
  | building u =>
      some (x, publishing u (intranetNetsSet fromStr x.conf), some (.built x.conf))
  | publishing u set => some ({ x with set := .ready set }, holding u set, none)
  | holding u set => some (x, done, some (u.answer contains4 contains6 x.conf set))
  | done => none

/-- The task of a call. -/
def NetsCall.start : NetsCall → NetsTask N4 N6
  | setIntranetNetsConf conf => .setting conf
  | use u => .forcing u

/-- Any number of calls. -/
def netsTasks :
    TaskSystem (NetsState N4 N6) (NetsTask N4 N6) NetsEvent NetsCall Unit Unit where
  start := NetsCall.start
  step tid x t _ := t.step fromStr contains4 contains6 tid x
  env x _ := x

/-- A new process, then any calls. -/
def netsMachine :
    Machine (Pool (NetsState N4 N6) (NetsTask N4 N6) NetsEvent) (PoolAction NetsCall Unit Unit) :=
  (netsTasks fromStr contains4 contains6).machine fun x => x = ⟨none, .empty⟩

/-! ## Consistent histories -/

/-- The configuration that was set last. -/
def lastConfigured : List NetsEvent → Option IntranetNetsConf
  | [] => none
  | .configured conf :: _ => conf
  | _ :: log => lastConfigured log

/-- The configuration that the set was built of, if it was. -/
def usedConf : List NetsEvent → Option (Option IntranetNetsConf)
  | [] => none
  | .built conf :: _ => some conf
  | _ :: log => usedConf log

/-- An event is one that sets a configuration. -/
def NetsEvent.isConfigured : NetsEvent → Bool
  | configured _ => true
  | _ => false

/-- An event after the set has been built of a configuration; `latest` is the one that was
set last before it. -/
def NetsEvent.Follows (conf latest : Option IntranetNetsConf) : NetsEvent → Prop
  | configured _ => True
  | built _ => False
  | decided ip intranet => intranet = isIntranet fromStr contains4 contains6 conf ip
  | loaded message =>
      message = loadedMessage latest.isSome (intranetNetsSet fromStr conf).netCount

/-- A history in which the set is built once, of the configuration set last, and in which
every use comes after that and follows it. -/
inductive Consistent : List NetsEvent → Prop
  | nil : Consistent []
  | configured {log : List NetsEvent} (conf : Option IntranetNetsConf) :
      Consistent log → Consistent (.configured conf :: log)
  | built {log : List NetsEvent} : Consistent log → usedConf log = none →
      Consistent (.built (lastConfigured log) :: log)
  | follow {log : List NetsEvent} {conf : Option IntranetNetsConf} {e : NetsEvent} :
      Consistent log → usedConf log = some conf →
      e.Follows fromStr contains4 contains6 conf (lastConfigured log) → Consistent (e :: log)

variable {fromStr contains4 contains6}

/-- Once the set has been built, no event builds it again. -/
theorem NetsEvent.Follows.usedConf_cons {conf latest : Option IntranetNetsConf} {e : NetsEvent}
    (h : e.Follows fromStr contains4 contains6 conf latest) (log : List NetsEvent) :
    usedConf (e :: log) = usedConf log := by
  cases e with
  | built conf' => exact h.elim
  | _ => rfl

/-- Before the set is built, configurations are set and nothing else happens. -/
theorem Consistent.all_configured {log : List NetsEvent}
    (h : Consistent fromStr contains4 contains6 log) (hunused : usedConf log = none) :
    ∀ e ∈ log, e.isConfigured = true := by
  induction h with
  | nil => simp
  | configured conf _ ih =>
      intro e he
      rcases List.mem_cons.mp he with rfl | hold
      · rfl
      · exact ih hunused e hold
  | built => cases hunused
  | @follow log conf e _ hused hfollows ih =>
      rw [hfollows.usedConf_cons log, hused] at hunused
      cases hunused

/-- A consistent history after the set has been built: what was set before, and what
follows the configuration in use. -/
theorem Consistent.split {log : List NetsEvent}
    (h : Consistent fromStr contains4 contains6 log) {conf : Option IntranetNetsConf}
    (hused : usedConf log = some conf) :
    ∃ later earlier, log = later ++ .built conf :: earlier ∧
      (∀ e ∈ earlier, e.isConfigured = true) ∧ conf = lastConfigured earlier ∧
      ∀ after e before, later = after ++ e :: before →
        e.Follows fromStr contains4 contains6 conf
          (lastConfigured (before ++ .built conf :: earlier)) := by
  induction h with
  | nil => cases hused
  | configured conf' _ ih =>
      obtain ⟨later, earlier, rfl, hearlier, hconf, hlater⟩ := ih hused
      refine ⟨.configured conf' :: later, earlier, rfl, hearlier, hconf, ?_⟩
      intro after e before heq
      cases after with
      | nil =>
          cases heq
          trivial
      | cons e' after => exact hlater after e before (List.cons.inj heq).2
  | @built log hlog hunused _ =>
      cases hused
      refine ⟨[], log, rfl, hlog.all_configured hunused, rfl, ?_⟩
      intro after e before heq
      cases after <;> cases heq
  | @follow log conf' e _ hused' hfollows ih =>
      rw [hfollows.usedConf_cons log] at hused
      cases hused.symm.trans hused'
      obtain ⟨later, earlier, rfl, hearlier, hconf, hlater⟩ := ih hused
      refine ⟨e :: later, earlier, rfl, hearlier, hconf, ?_⟩
      intro after e' before heq
      cases after with
      | nil =>
          cases heq
          exact hfollows
      | cons e'' after => exact hlater after e' before (List.cons.inj heq).2

/-! ## Every run -/

/-- The set is the one of the configuration in use. -/
def Uses (fromStr : String → Option (IpNet N4 N6)) (log : List NetsEvent)
    (set : IntranetNetsSet N4 N6) : Prop :=
  ∃ conf, usedConf log = some conf ∧ set = intranetNetsSet fromStr conf

/-- What holds of the variables and the history. -/
structure NetsSound (fromStr : String → Option (IpNet N4 N6))
    (contains4 : N4 → BitVec 32 → Bool) (contains6 : N6 → BitVec 128 → Bool)
    (x : NetsState N4 N6) (log : List NetsEvent) : Prop where
  consistent : Consistent fromStr contains4 contains6 log
  conf : x.conf = lastConfigured log
  empty : x.set = .empty → usedConf log = none
  ready : ∀ {set}, x.set = .ready set → Uses fromStr log set

/-- What holds of a task: the one that builds the set is alone, and a set in the hands of a
task is the one in use. -/
def NetsTask.Fits (fromStr : String → Option (IpNet N4 N6)) (tid : Nat) (x : NetsState N4 N6)
    (log : List NetsEvent) : NetsTask N4 N6 → Prop
  | building _ => x.set = .building tid ∧ usedConf log = none
  | publishing _ set => x.set = .building tid ∧ Uses fromStr log set
  | holding _ set => Uses fromStr log set
  | _ => True

/-- A task does not see what changes neither the set nor the configuration in use. -/
theorem NetsTask.Fits.frame {tid : Nat} {x x' : NetsState N4 N6} {log log' : List NetsEvent}
    {task : NetsTask N4 N6} (h : task.Fits fromStr tid x log) (hset : x'.set = x.set)
    (hused : usedConf log' = usedConf log) : task.Fits fromStr tid x' log' := by
  cases task with
  | building u => exact ⟨hset.trans h.1, hused.trans h.2⟩
  | publishing u set =>
      obtain ⟨conf, hconf, heq⟩ := h.2
      exact ⟨hset.trans h.1, conf, hused.trans hconf, heq⟩
  | holding u set =>
      obtain ⟨conf, hconf, heq⟩ := h
      exact ⟨conf, hused.trans hconf, heq⟩
  | _ => trivial

/-- A task that does not build the set has it from one that has. -/
theorem NetsTask.Fits.of_ne_building {tid : Nat} {x x' : NetsState N4 N6}
    {log log' : List NetsEvent} {task : NetsTask N4 N6} (h : task.Fits fromStr tid x log)
    (hset : x.set ≠ .building tid)
    (huses : ∀ set, Uses fromStr log set → Uses fromStr log' set) :
    task.Fits fromStr tid x' log' := by
  cases task with
  | building u => exact absurd h.1 hset
  | publishing u set => exact absurd h.1 hset
  | holding u set => exact huses set h
  | _ => trivial

/-- An event that follows the configuration in use keeps what holds of the variables. -/
theorem NetsSound.follow {x : NetsState N4 N6} {log : List NetsEvent} {e : NetsEvent}
    {conf : Option IntranetNetsConf} (h : NetsSound fromStr contains4 contains6 x log)
    (hused : usedConf log = some conf)
    (hfollows : e.Follows fromStr contains4 contains6 conf (lastConfigured log))
    (hlast : lastConfigured (e :: log) = lastConfigured log) :
    NetsSound fromStr contains4 contains6 x (e :: log) := by
  have hsame := hfollows.usedConf_cons log
  refine ⟨.follow h.consistent hused hfollows, h.conf.trans hlast.symm, ?_, fun hready => ?_⟩
  · exact fun hempty => hsame.trans (h.empty hempty)
  · obtain ⟨conf', hused', heq⟩ := h.ready hready
    exact ⟨conf', hsame.trans hused', heq⟩

variable (fromStr contains4 contains6) in
/-- What a use returns follows the configuration in use. -/
theorem NetsUse.answer_follows (u : NetsUse) (conf latest : Option IntranetNetsConf) :
    (u.answer contains4 contains6 latest (intranetNetsSet fromStr conf)).Follows fromStr contains4
      contains6 conf latest := by
  cases u <;> rfl

theorem NetsUse.lastConfigured_answer (u : NetsUse) (conf : Option IntranetNetsConf)
    (set : IntranetNetsSet N4 N6) (log : List NetsEvent) :
    lastConfigured (u.answer contains4 contains6 conf set :: log) = lastConfigured log := by
  cases u <;> rfl

/-- A step of one task keeps what holds of the variables, of itself and of the others. -/
theorem NetsTask.step_sound {x x' : NetsState N4 N6} {log : List NetsEvent}
    {task task' : NetsTask N4 N6} {tid : Nat} {e : Option NetsEvent}
    (hsound : NetsSound fromStr contains4 contains6 x log) (htask : task.Fits fromStr tid x log)
    (h : task.step fromStr contains4 contains6 tid x = some (x', task', e)) :
    NetsSound fromStr contains4 contains6 x' (e.toList ++ log) ∧
      task'.Fits fromStr tid x' (e.toList ++ log) ∧
      ∀ j (other : NetsTask N4 N6), j ≠ tid → other.Fits fromStr j x log →
        other.Fits fromStr j x' (e.toList ++ log) := by
  cases task with
  | setting conf =>
      cases h
      exact ⟨⟨.configured conf hsound.consistent, rfl, hsound.empty, hsound.ready⟩, trivial,
        fun j other _ hother => hother.frame rfl rfl⟩
  | forcing u =>
      dsimp only [step] at h
      split at h
      · rename_i hempty
        cases h
        refine ⟨⟨hsound.consistent, hsound.conf, nofun, nofun⟩, ⟨rfl, hsound.empty hempty⟩, ?_⟩
        intro j other _ hother
        exact hother.of_ne_building (by rw [hempty]; exact nofun) fun _ huses => huses
      · cases h
      · rename_i set hready
        cases h
        exact ⟨hsound, hsound.ready hready, fun j other _ hother => hother⟩
  | building u =>
      obtain ⟨hbuilding, hunused⟩ := htask
      cases h
      have hconsistent : Consistent fromStr contains4 contains6 (.built x.conf :: log) := by
        rw [hsound.conf]
        exact .built hsound.consistent hunused
      refine ⟨⟨hconsistent, hsound.conf, ?_, ?_⟩, ⟨hbuilding, x.conf, rfl, rfl⟩, ?_⟩
      · exact fun hempty => by cases hbuilding.symm.trans hempty
      · exact fun hready => by cases hbuilding.symm.trans hready
      · intro j other hj hother
        refine hother.of_ne_building ?_ ?_
        · rw [hbuilding]
          exact fun heq => hj (LazySet.building.inj heq).symm
        · rintro set ⟨conf, hused, -⟩
          cases hunused.symm.trans hused
  | publishing u set =>
      obtain ⟨hbuilding, huses⟩ := htask
      cases h
      refine ⟨⟨hsound.consistent, hsound.conf, nofun, ?_⟩, huses, ?_⟩
      · rintro set' ⟨⟩
        exact huses
      · intro j other hj hother
        refine hother.of_ne_building ?_ fun _ huses => huses
        rw [hbuilding]
        exact fun heq => hj (LazySet.building.inj heq).symm
  | holding u set =>
      obtain ⟨conf, hused, rfl⟩ := htask
      cases h
      have hfollows := u.answer_follows fromStr contains4 contains6 conf x.conf
      have hsame := hfollows.usedConf_cons log
      rw [hsound.conf] at hfollows hsame ⊢
      exact ⟨hsound.follow hused hfollows (u.lastConfigured_answer _ _ log), trivial,
        fun j other _ hother => hother.frame rfl hsame⟩
  | done => cases h

/-- The variables and the history are sound in every run. -/
theorem netsSound_of_run {actions : List (PoolAction NetsCall Unit Unit)}
    {s : Pool (NetsState N4 N6) (NetsTask N4 N6) NetsEvent}
    (hrun : (netsMachine fromStr contains4 contains6).Run Machine.Unguarded actions s) :
    NetsSound fromStr contains4 contains6 s.shared s.log := by
  have hholds : s.Holds (fun _ x log => NetsSound fromStr contains4 contains6 x log)
      (fun tid task x log => task.Fits fromStr tid x log) := by
    refine Pool.pool_invariant ?_ ?_ ?_ ?_ hrun
    · rintro x rfl
      exact ⟨.nil, rfl, fun _ => rfl, nofun⟩
    · intro s call hs _
      refine ⟨hs.global, ?_⟩
      cases call <;> trivial
    · intro s d hs _
      exact ⟨hs.global, fun j task htask => hs.tasks htask⟩
    · intro s tid input task x task' e hs _ htask hstep
      obtain ⟨hsound, hfits, hothers⟩ := NetsTask.step_sound hs.global (hs.tasks htask) hstep
      exact ⟨hsound, hfits, fun j other hj hother => hothers j other hj (hs.tasks hother)⟩
  exact hholds.global

/-- **One set of networks.**  In every run of any tasks, either configurations have been set
and nothing else has happened, or the set has been built once, of the configuration that
was set last at that moment.  Then only configurations were set before, every address is
decided by that configuration, however often others are set later, and the message of the
start tells the number of its networks, but tells of a configuration in effect whenever one
is set at the time of the message. -/
theorem one_set_of_run {actions : List (PoolAction NetsCall Unit Unit)}
    {s : Pool (NetsState N4 N6) (NetsTask N4 N6) NetsEvent}
    (hrun : (netsMachine fromStr contains4 contains6).Run Machine.Unguarded actions s) :
    (∀ e ∈ s.log, e.isConfigured = true) ∨
      ∃ later conf earlier, s.log = later ++ .built conf :: earlier ∧
        (∀ e ∈ earlier, e.isConfigured = true) ∧ conf = lastConfigured earlier ∧
        ∀ after e before, later = after ++ e :: before →
          e.Follows fromStr contains4 contains6 conf
            (lastConfigured (before ++ .built conf :: earlier)) := by
  have hconsistent := (netsSound_of_run hrun).consistent
  cases hused : usedConf s.log with
  | none => exact .inl (hconsistent.all_configured hused)
  | some conf =>
      obtain ⟨later, earlier, hsplit⟩ := hconsistent.split hused
      exact .inr ⟨later, conf, earlier, hsplit⟩

end Library

/-! ## A configuration that comes late -/

/-- A configuration without networks, in place of the ones that are built in. -/
def noNets : IntranetNetsConf := ⟨true, .replace, []⟩

/-- An address is asked for, and while its task builds the set a configuration is set; then
the message of the start is asked for. -/
def configureLate : List (PoolAction NetsCall Unit Unit) :=
  [.spawn (.use (.isIntranet (.v4 0x0a000001))), .run 0 (), .run 0 (),
    .spawn (.setIntranetNetsConf (some noNets)), .run 1 (), .run 0 (), .run 0 (),
    .spawn (.use .initIntranetNets), .run 2 (), .run 2 ()]

/-- What has happened then, newest first: the message tells of the configuration, which has
no effect. -/
def lateEvents : List NetsEvent :=
  [.loaded (loadedMessage true 6), .decided (.v4 0x0a000001) true, .configured (some noNets),
    .built none]

/-- All that happens after the set is built follows the configuration that there was not. -/
theorem one_set_of_run_late :
    ∃ s, (netsMachine readNet PrefixNet.contains PrefixNet.contains).Run Machine.Unguarded
        configureLate s ∧ s.log = lateEvents ∧
      ∃ later conf earlier, lateEvents = later ++ .built conf :: earlier ∧
        conf = lastConfigured earlier ∧
        ∀ after e before, later = after ++ e :: before →
          e.Follows readNet PrefixNet.contains PrefixNet.contains conf
            (lastConfigured (before ++ .built conf :: earlier)) := by
  have hinit : (netsMachine readNet PrefixNet.contains PrefixNet.contains).init
      ⟨⟨none, .empty⟩, [], []⟩ := ⟨rfl, rfl, rfl⟩
  have hexec : ((netsMachine readNet PrefixNet.contains PrefixNet.contains).exec
      Machine.Unguarded ⟨⟨none, .empty⟩, [], []⟩ configureLate).any
      (fun s => decide (s.log = lateEvents)) = true := by
    decide +kernel
  obtain ⟨s, hrun, hlog⟩ := Machine.exists_run_of_exec_any hinit hexec
  have hlog := of_decide_eq_true hlog
  refine ⟨s, hrun, hlog, ?_⟩
  rcases one_set_of_run hrun with hconfigured | ⟨later, conf, earlier, hsplit, -, hconf, hlater⟩
  · rw [hlog] at hconfigured
    cases hconfigured (.built none) (by decide)
  · exact ⟨later, conf, earlier, hlog.symm.trans hsplit, hconf, hlater⟩

end WpKnowledge.Intranet
