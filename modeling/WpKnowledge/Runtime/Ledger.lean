import WpKnowledge.Foundation.Ledger
import WpKnowledge.Runtime.Reload
import WpKnowledge.Runtime.SlotOrder

/-!
# What the counters of installs add up to

An install draws a generation when it begins and counts one success or one
failure when it ends; a default install also moves the epoch of the provider slot
twice, before and after it writes.  However the calls interleave, the counters
are the numbers of the calls that have got so far.

Main results:

- Theorem {lit}`reloads_counted`: each counter is a number of calls.
- Theorem {lit}`reload_ledger`: the generations drawn are the successes, the
  failures and the installs under way, and the epoch is even when no install is
  inside it.
-/

namespace WpKnowledge

open Foundation

variable {π : Type}

/-! ## How far an install has got -/

/-- The install has drawn its generation. -/
def Task.hasDrawn : Task π → Bool
  | .install _ .drawGeneration => false
  | .install _ _ => true
  | _ => false

/-- The install has returned a generation. -/
def Task.succeeded : Task π → Bool
  | .install _ (.done (.ok _)) => true
  | _ => false

/-- The install has returned an error. -/
def Task.failed : Task π → Bool
  | .install _ (.done (.error _)) => true
  | _ => false

/-- The install has drawn its generation and not returned yet. -/
def Task.underWay : Task π → Bool
  | .install _ .drawGeneration | .install _ (.done _) => false
  | .install _ _ => true
  | _ => false

/-- The default install is between its two moves of the epoch. -/
def Task.insideEpoch : Task π → Bool
  | .install _ (.writeSlot _) | .install _ (.storeGeneration _) | .install _ (.leaveEpoch _) => true
  | _ => false

/-- The default install has moved the epoch for the second time. -/
def Task.leftEpoch : Task π → Bool
  | .install c (.countSuccess _) | .install c (.done (.ok _)) => c.isDefault
  | _ => false

/-- How often a call has moved the epoch. -/
def Task.epochMoves (t : Task π) : Nat :=
  (if t.insideEpoch then 1 else 0) +
    ((if t.leftEpoch then 1 else 0) + if t.leftEpoch then 1 else 0)

/-- An install has drawn its generation if it has returned or is under way. -/
theorem Task.hasDrawn_eq (t : Task π) :
    (if t.hasDrawn then 1 else 0) = (if t.succeeded then 1 else 0) +
      ((if t.failed then 1 else 0) + (if t.underWay then 1 else 0)) := by
  cases t with
  | install c pc =>
      cases pc with
      | done result => cases result <;> rfl
      | drawGeneration | build | countFailure | insertNamed | bumpNamedEpoch | enterEpoch
      | writeSlot | storeGeneration | leaveEpoch | countSuccess => rfl
  | prune | configure | execute | currentGeneration => rfl

/-! ## One step -/

/-- Two runtimes agree on the counters of the installs. -/
structure KnowledgeRuntime.SameTallies (rt rt' : KnowledgeRuntime π) : Prop where
  nextGeneration : rt'.nextGeneration = rt.nextGeneration
  providerEpoch : rt'.providerEpoch = rt.providerEpoch
  reloadSuccesses : rt'.reloadSuccesses = rt.reloadSuccesses
  reloadFailures : rt'.reloadFailures = rt.reloadFailures

theorem ConfigureCall.sameTallies {c : ConfigureCall} {rt rt' : KnowledgeRuntime π}
    {pc pc' : ConfigurePc} {input : Input π} {e : Option (Event π)}
    (h : c.step rt pc input = some (rt', pc', e)) : rt.SameTallies rt' := by
  unfold ConfigureCall.step at h
  split at h
  all_goals cases h
  all_goals constructor <;> rfl

section Steps

variable [DefaultHasher] [ValueText]

theorem ExecuteCall.sameTallies {c : ExecuteCall} {tid clock : Nat}
    {rt rt' : KnowledgeRuntime π} {pc pc' : ExecutePc π} {input : Input π} {e : Option (Event π)}
    (h : c.step tid clock rt pc input = some (rt', pc', e)) : rt.SameTallies rt' := by
  unfold ExecuteCall.step at h
  split at h
  all_goals try split at h
  all_goals cases h
  all_goals constructor <;> rfl

/-- A step is one of an install, or it leaves the counters of the installs alone
and is not of an install. -/
theorem Task.step_tallies {tid : Nat} {x x' : Shared π} {t t' : Task π} {input : Input π}
    {e : Option (Event π)} (h : Task.step tid x t input = some (x', t', e)) :
    (∃ c pc pc', t = .install c pc ∧ t' = .install c pc' ∧
        InstallEffect c tid x.runtime pc x'.runtime pc' e) ∨
      (x.runtime.SameTallies x'.runtime ∧ (∀ c pc, t ≠ .install c pc) ∧
        ∀ c pc, t' ≠ .install c pc) := by
  rcases Task.step_cases h with ⟨c, pc, pc', rfl, rfl, -, heff⟩ | ⟨keep, rfl, rfl, -, rfl⟩ |
    ⟨-, -, -, ⟨c, pc, pc', rfl, rfl, hstep⟩ | ⟨c, pc, pc', rfl, rfl, hstep⟩ |
      ⟨pc, pc', rfl, rfl, rfl, -, -⟩⟩
  · exact .inl ⟨c, pc, pc', rfl, rfl, heff⟩
  · exact .inr ⟨⟨rfl, rfl, rfl, rfl⟩, by simp, by simp⟩
  · exact .inr ⟨ConfigureCall.sameTallies hstep, by simp, by simp⟩
  · exact .inr ⟨ExecuteCall.sameTallies hstep, by simp, by simp⟩
  · exact .inr ⟨⟨rfl, rfl, rfl, rfl⟩, by simp, by simp⟩

/-! ## Every run -/

theorem defaultsOnly_of_run
    {ok : Pool (Shared π) (Task π) (Event π) → PoolAction Call (Input π) Ambient → Prop}
    {as : List (PoolAction Call (Input π) Ambient)} {s : Pool (Shared π) (Task π) (Event π)}
    (h : (runtimeMachine π).Run ok as s) : DefaultsOnly s := by
  refine Machine.Run.stateInvariant (P := fun s => DefaultsOnly s) ?_ ?_ h
  · rintro ⟨x, tasks, log⟩ ⟨-, rfl, -⟩
    simp [DefaultsOnly]
  · intro s a s' hs _ hstep
    exact hs.step hstep

/-- A counter that only installs move, each by what it gains in weight, is the
total weight of the calls. -/
theorem tally_eq_total {counter : KnowledgeRuntime π → Nat} {w : Task π → Nat}
    (hnew : ∀ capacity, counter (.new π capacity) = 0)
    (hsame : ∀ rt rt', rt.SameTallies rt' → counter rt' = counter rt)
    (hothers : ∀ t : Task π, (∀ c pc, t ≠ .install c pc) → w t = 0)
    (hfresh : ∀ c, w (.install c .drawGeneration) = 0)
    (heffect : ∀ c tid rt pc rt' pc' e, (pc.DefaultOnly → c.isDefault = true) →
      InstallEffect c tid rt pc rt' pc' e →
      counter rt' + w (.install c pc) = counter rt + w (.install c pc'))
    {ok : Pool (Shared π) (Task π) (Event π) → PoolAction Call (Input π) Ambient → Prop}
    {as : List (PoolAction Call (Input π) Ambient)} {s : Pool (Shared π) (Task π) (Event π)}
    (h : (runtimeMachine π).Run ok as s) :
    counter s.shared.runtime = total w s.tasks := by
  have hbalance := Pool.credit_eq_debit_add_total (T := runtimeSystem π)
    (fun x _ => counter x.runtime) (fun _ _ => 0) w ?_ ?_ ?_ ?_ h
  · simpa using hbalance
  · rintro x ⟨capacity, hx⟩
    rw [hx, hnew]
  · intro call
    cases call with
    | install c => exact hfresh c
    | prune | configure | execute | currentGeneration =>
        exact hothers _ (by simp [runtimeSystem, Call.start])
  · intro x log d
    have : x.runtime.SameTallies ((runtimeSystem π).env x d).runtime := by
      cases d <;> exact ⟨rfl, rfl, rfl, rfl⟩
    rw [hsame _ _ this]
  · intro as s tid t input x e t' hrun ht hstep
    rcases Task.step_tallies hstep with ⟨c, pc, pc', rfl, rfl, heff⟩ | ⟨hsame', hne, hne'⟩
    · have := heffect c tid _ pc _ pc' e (fun hpc => defaultsOnly_of_run hrun ht hpc) heff
      simpa using this
    · simp [hsame _ _ hsame', hothers t hne, hothers t' hne']

/-- What the counters of the installs are in a state. -/
structure ReloadsCounted (s : Pool (Shared π) (Task π) (Event π)) : Prop where
  drawn : s.shared.runtime.nextGeneration = s.tasks.countP Task.hasDrawn
  succeeded : s.shared.runtime.reloadSuccesses = s.tasks.countP Task.succeeded
  failed : s.shared.runtime.reloadFailures = s.tasks.countP Task.failed
  epoch : s.shared.runtime.providerEpoch =
    s.tasks.countP Task.insideEpoch + 2 * s.tasks.countP Task.leftEpoch

theorem reloads_counted
    {ok : Pool (Shared π) (Task π) (Event π) → PoolAction Call (Input π) Ambient → Prop}
    {as : List (PoolAction Call (Input π) Ambient)} {s : Pool (Shared π) (Task π) (Event π)}
    (h : (runtimeMachine π).Run ok as s) : ReloadsCounted s where
  drawn := by
    rw [← total_eq_countP]
    refine tally_eq_total (fun _ => rfl) (fun _ _ hs => hs.nextGeneration) ?_ (fun _ => rfl) ?_ h
    · intro t hne
      cases t <;> first | rfl | exact absurd rfl (hne _ _)
    · intro c tid rt pc rt' pc' e _ heff
      cases heff with
      | bumpNamedEpoch handle => cases c.isDefault <;> rfl
      | _ => rfl
  succeeded := by
    rw [← total_eq_countP]
    refine tally_eq_total (fun _ => rfl) (fun _ _ hs => hs.reloadSuccesses) ?_ (fun _ => rfl) ?_ h
    · intro t hne
      cases t <;> first | rfl | exact absurd rfl (hne _ _)
    · intro c tid rt pc rt' pc' e _ heff
      cases heff with
      | bumpNamedEpoch handle => cases c.isDefault <;> rfl
      | _ => rfl
  failed := by
    rw [← total_eq_countP]
    refine tally_eq_total (fun _ => rfl) (fun _ _ hs => hs.reloadFailures) ?_ (fun _ => rfl) ?_ h
    · intro t hne
      cases t <;> first | rfl | exact absurd rfl (hne _ _)
    · intro c tid rt pc rt' pc' e _ heff
      cases heff with
      | bumpNamedEpoch handle => cases c.isDefault <;> rfl
      | _ => rfl
  epoch := by
    rw [← total_eq_countP, ← total_eq_countP, Nat.two_mul, ← total_add, ← total_add]
    refine tally_eq_total (w := Task.epochMoves) (fun _ => rfl) (fun _ _ hs => hs.providerEpoch)
      ?_ (fun _ => rfl) ?_ h
    · intro t hne
      cases t <;> first | rfl | exact absurd rfl (hne _ _)
    · intro c tid rt pc rt' pc' e hdef heff
      cases heff with
      | bumpNamedEpoch handle =>
          cases hc : c.isDefault <;> simp [Task.epochMoves, Task.insideEpoch, Task.leftEpoch, hc]
      | leaveEpoch handle =>
          simp [Task.epochMoves, Task.insideEpoch, Task.leftEpoch, hdef trivial]
      | countSuccess handle => rfl
      | _ => simp [Task.epochMoves, Task.insideEpoch, Task.leftEpoch]

/-- In every state any interleaving can reach, the generations drawn are the
installs that succeeded, those that failed and those under way, and the epoch is
twice the default installs that left it and one for each inside; so once all
installs have returned every generation is accounted for and the epoch is even. -/
theorem reload_ledger
    {ok : Pool (Shared π) (Task π) (Event π) → PoolAction Call (Input π) Ambient → Prop}
    {as : List (PoolAction Call (Input π) Ambient)} {s : Pool (Shared π) (Task π) (Event π)}
    (h : (runtimeMachine π).Run ok as s) :
    s.shared.runtime.nextGeneration = s.shared.runtime.reloadSuccesses +
        s.shared.runtime.reloadFailures + s.tasks.countP Task.underWay ∧
      s.shared.runtime.reloadSuccesses = s.tasks.countP Task.succeeded ∧
      s.shared.runtime.reloadFailures = s.tasks.countP Task.failed ∧
      s.shared.runtime.providerEpoch =
        s.tasks.countP Task.insideEpoch + 2 * s.tasks.countP Task.leftEpoch ∧
      (InstallsReturned s →
        s.shared.runtime.nextGeneration =
            s.shared.runtime.reloadSuccesses + s.shared.runtime.reloadFailures ∧
          s.shared.runtime.providerEpoch % 2 = 0) := by
  have hcounted := reloads_counted h
  have hdrawn : s.tasks.countP Task.hasDrawn = s.tasks.countP Task.succeeded +
      (s.tasks.countP Task.failed + s.tasks.countP Task.underWay) := by
    rw [← total_eq_countP, ← total_eq_countP, ← total_eq_countP, ← total_eq_countP, ← total_add,
      ← total_add]
    exact total_congr fun t _ => t.hasDrawn_eq
  have hbalance : s.shared.runtime.nextGeneration = s.shared.runtime.reloadSuccesses +
      s.shared.runtime.reloadFailures + s.tasks.countP Task.underWay := by
    rw [hcounted.drawn, hcounted.succeeded, hcounted.failed, hdrawn]
    omega
  refine ⟨hbalance, hcounted.succeeded, hcounted.failed, hcounted.epoch, fun hreturned => ?_⟩
  have hnone : ∀ p : Task π → Bool, (∀ t, p t = true → t.installing = true) →
      s.tasks.countP p = 0 := by
    intro p hp
    rw [List.countP_eq_zero]
    intro t ht hpt
    exact absurd (hp t hpt) (by simp [hreturned t ht])
  have hunder := hnone Task.underWay (fun t ht => by cases t with
    | install c pc => cases pc <;> first | rfl | cases ht
    | _ => cases ht)
  have hinside := hnone Task.insideEpoch (fun t ht => by cases t with
    | install c pc => cases pc <;> first | rfl | cases ht
    | _ => cases ht)
  rw [hbalance, hunder, hcounted.epoch, hinside]
  omega

end Steps

/-- A named install that fails and a default install that succeeds, one after
the other. -/
def failedThenInstalled : List PlainAction :=
  ([.spawn (.install ⟨"geo", .mysql, ⟨"mysql:1"⟩, false⟩), .run 0 .go,
    .run 0 (.built (.error ⟨.coreConf, "no route"⟩)), .run 0 .go,
    .spawn (.install (.installProvider .postgres ⟨"postgres:1"⟩))] : List PlainAction) ++
    installSteps 1 7

theorem reload_ledger_failedThenInstalled :
    let _ := sipHasher
    let _ := numericText
    ∃ s, (runtimeMachine Unit).Run Machine.Unguarded failedThenInstalled s ∧ InstallsReturned s ∧
      s.shared.runtime.nextGeneration =
        s.shared.runtime.reloadSuccesses + s.shared.runtime.reloadFailures ∧
      s.shared.runtime.providerEpoch % 2 = 0 ∧ s.shared.runtime.nextGeneration = 2 := by
  let _ := sipHasher
  let _ := numericText
  have hexec : ((runtimeMachine Unit).exec Machine.Unguarded (newPool Unit 4)
      failedThenInstalled).any (fun s => decide (InstallsReturned s ∧
        s.shared.runtime.nextGeneration = 2)) = true := by
    decide +kernel
  rcases Machine.exists_run_of_exec_any (newPool_init Unit 4) hexec with ⟨s, hrun, hend⟩
  rcases of_decide_eq_true hend with ⟨hreturned, hdrawn⟩
  obtain ⟨-, -, -, -, hall⟩ := reload_ledger hrun
  exact ⟨s, hrun, hreturned, (hall hreturned).1, (hall hreturned).2, hdrawn⟩

end WpKnowledge
