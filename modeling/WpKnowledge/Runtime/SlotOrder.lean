import WpKnowledge.Runtime.Reload

/-!
# Slots when installs do not overlap

A number is a floor of a slot when no handle found there, now or later, has a
smaller generation.  A floor stays a floor whatever happens.  When the installs
of one slot do not overlap, the generation a slot holds is a floor of it, and the
value read on the fast path of `current_generation` lags behind the slot only
while an install is between its two epoch steps.  Neither the counter of generations
nor the epoch, of 64 bits in the source, is taken to wrap.

Main results:

- Theorem {lit}`Floor.step`: floors are kept by every step.
- Theorem {lit}`order_of_run`: what a slot holds is a floor of it, and the stored
  generation agrees with the slot while the epoch is even.
-/

namespace WpKnowledge

open Foundation

variable {π : Type}

/-! ## Floors -/

/-- The install writes the slot when it commits. -/
def InstallCall.writes (c : InstallCall) : Slot → Bool
  | .default => c.isDefault
  | .named name => decide (name = c.name)

/-- The generation an install will write to a slot it writes, once drawn and as
long as it has not written it. -/
def InstallPc.pending (slot : Slot) : InstallPc π → Option Nat
  | .build generation => some generation
  | .insertNamed h => some h.generation
  | .bumpNamedEpoch h | .enterEpoch h | .writeSlot h =>
      if slot = .default then some h.generation else none
  | _ => none

/-- No handle found in the slot, now or later, is older than `g`. -/
structure Floor (slot : Slot) (g : Nat) (s : Pool (Shared π) (Task π) (Event π)) : Prop where
  next : g ≤ s.shared.runtime.nextGeneration
  held : ∀ {h : ProviderHandle π}, s.shared.runtime.handleAt slot = some h → g ≤ h.generation
  pending : ∀ {j : Nat} {c : InstallCall} {pc : InstallPc π} {g' : Nat},
    s.tasks[j]? = some (.install c pc) → c.writes slot = true → pc.pending slot = some g' → g ≤ g'

theorem Floor.zero (slot : Slot) (s : Pool (Shared π) (Task π) (Event π)) : Floor slot 0 s :=
  ⟨Nat.zero_le _, fun _ => Nat.zero_le _, fun _ _ _ => Nat.zero_le _⟩

theorem Floor.mono {slot : Slot} {g g' : Nat} {s : Pool (Shared π) (Task π) (Event π)}
    (h : Floor slot g s) (hle : g' ≤ g) : Floor slot g' s :=
  ⟨Nat.le_trans hle h.next, fun hh => Nat.le_trans hle (h.held hh),
    fun ht hw hp => Nat.le_trans hle (h.pending ht hw hp)⟩

/-- What an install is going to write comes from the counter. -/
theorem InstallEffect.pending_cases {c : InstallCall} {tid : Nat} {rt rt' : KnowledgeRuntime π}
    {pc pc' : InstallPc π} {e : Option (Event π)} (h : InstallEffect c tid rt pc rt' pc' e)
    (slot : Slot) :
    rt.nextGeneration ≤ rt'.nextGeneration ∧
      ∀ g, pc'.pending slot = some g → pc.pending slot = some g ∨ g = rt.nextGeneration + 1 := by
  cases h with
  | drawGeneration =>
      refine ⟨Nat.le_succ _, fun g hg => .inr ?_⟩
      simpa [InstallPc.pending, eq_comm] using hg
  | build generation handle hgen =>
      refine ⟨Nat.le_refl _, fun g hg => .inl ?_⟩
      simpa [InstallPc.pending, hgen] using hg
  | insertNamed handle =>
      refine ⟨Nat.le_refl _, fun g hg => .inl ?_⟩
      simp only [InstallPc.pending] at hg ⊢
      split at hg
      · exact hg
      · cases hg
  | bumpNamedEpoch handle =>
      refine ⟨Nat.le_refl _, fun g hg => .inl ?_⟩
      split at hg
      · exact hg
      · cases hg
  | enterEpoch => exact ⟨Nat.le_refl _, fun g hg => .inl hg⟩
  | buildFailed | countFailure | writeSlot | storeGeneration | leaveEpoch | countSuccess =>
      exact ⟨Nat.le_refl _, fun g hg => nomatch hg⟩

/-- A commit writes the pending generation. -/
theorem InstallPc.pending_of_commit {c : InstallCall} {pc : InstallPc π} {slot : Slot}
    {h : ProviderHandle π} (hc : (Task.install c pc).commit? = some (slot, h))
    (hdefault : ∀ h', pc = .writeSlot h' → c.isDefault = true) :
    c.writes slot = true ∧ pc.pending slot = some h.generation := by
  cases pc with
  | insertNamed handle =>
      cases hc
      exact ⟨by simp [InstallCall.writes], rfl⟩
  | writeSlot handle =>
      cases hc
      exact ⟨hdefault _ rfl, rfl⟩
  | drawGeneration | build | countFailure | bumpNamedEpoch | enterEpoch | storeGeneration
  | leaveEpoch | countSuccess | done => cases hc

/-- The places only a default install reaches. -/
def InstallPc.DefaultOnly : InstallPc π → Prop
  | .enterEpoch _ | .writeSlot _ | .storeGeneration _ | .leaveEpoch _ => True
  | _ => False

/-- Only default installs reach those places. -/
def DefaultsOnly (s : Pool (Shared π) (Task π) (Event π)) : Prop :=
  ∀ {j : Nat} {c : InstallCall} {pc : InstallPc π},
    s.tasks[j]? = some (.install c pc) → pc.DefaultOnly → c.isDefault = true

theorem InstallEffect.defaultOnly {c : InstallCall} {tid : Nat} {rt rt' : KnowledgeRuntime π}
    {pc pc' : InstallPc π} {e : Option (Event π)} (h : InstallEffect c tid rt pc rt' pc' e)
    (hpc : pc.DefaultOnly → c.isDefault = true) (hpc' : pc'.DefaultOnly) :
    c.isDefault = true := by
  cases h with
  | bumpNamedEpoch handle =>
      by_cases hdef : c.isDefault = true
      · exact hdef
      · rw [if_neg hdef] at hpc'
        exact hpc'.elim
  | enterEpoch | writeSlot | storeGeneration => exact hpc trivial
  | drawGeneration | build | buildFailed | countFailure | insertNamed | leaveEpoch
  | countSuccess => exact hpc'.elim

section Steps

variable [DefaultHasher] [ValueText]

theorem DefaultsOnly.step {s s' : Pool (Shared π) (Task π) (Event π)}
    {a : PoolAction Call (Input π) Ambient} (hinv : DefaultsOnly s)
    (hstep : (runtimeMachine π).step s a = some s') : DefaultsOnly s' := by
  intro j c pc hj hpc
  cases a with
  | spawn call =>
      cases hstep
      rcases getElem?_append_singleton hj with ⟨-, hstart⟩ | hold
      · cases call <;> cases hstart
        exact hpc.elim
      · exact hinv hold hpc
  | env d =>
      cases hstep
      exact hinv hj hpc
  | run tid input =>
      rcases TaskSystem.advance_run_iff.mp hstep with ⟨t, x, t', e, ht, hst, rfl⟩
      rw [getElem?_set_of_getElem? ht] at hj
      split at hj
      · cases hj
        rcases Task.step_cases hst with ⟨c₁, pc₁, pc₁', rfl, heq, -, heff⟩ |
          ⟨keep, -, heq, -⟩ | ⟨-, -, -, ⟨_, _, _, -, heq, -⟩ | ⟨_, _, _, -, heq, -⟩ | ⟨_, _, -, heq, -⟩⟩
        · cases heq
          exact heff.defaultOnly (hinv ht) hpc
        all_goals cases heq
      · exact hinv hj hpc

/-- A floor stays a floor. -/
theorem Floor.step {slot : Slot} {g : Nat} {s s' : Pool (Shared π) (Task π) (Event π)}
    {a : PoolAction Call (Input π) Ambient} (hfloor : Floor slot g s) (hdef : DefaultsOnly s)
    (hstep : (runtimeMachine π).step s a = some s') : Floor slot g s' := by
  cases a with
  | spawn call =>
      cases hstep
      refine ⟨hfloor.next, hfloor.held, fun {j c pc g'} hj hw hp => ?_⟩
      rcases getElem?_append_singleton hj with ⟨-, hstart⟩ | hold
      · cases call <;> cases hstart
        cases hp
      · exact hfloor.pending hold hw hp
  | env d =>
      cases hstep
      have hsame : s.shared.runtime.SameProviders (s.shared.ambient d).runtime := by
        cases d <;> exact ⟨rfl, rfl, rfl, rfl, rfl⟩
      exact ⟨hsame.nextGeneration ▸ hfloor.next,
        fun hh => hfloor.held (hsame.handleAt slot ▸ hh), hfloor.pending⟩
  | run tid input =>
      rcases TaskSystem.advance_run_iff.mp hstep with ⟨t, x, t', e, ht, hst, rfl⟩
      -- what other installs are going to write is as before
      have hothers : ∀ {j : Nat} {c : InstallCall} {pc : InstallPc π} {g' : Nat}, j ≠ tid →
          (s.tasks.set tid t')[j]? = some (.install c pc) → c.writes slot = true →
          pc.pending slot = some g' → g ≤ g' := by
        intro j c pc g' hne hj hw hp
        rw [getElem?_set_of_getElem? ht, if_neg hne] at hj
        exact hfloor.pending hj hw hp
      have hself : (s.tasks.set tid t')[tid]? = some t' := by
        rw [getElem?_set_of_getElem? ht, if_pos rfl]
      rcases Task.step_cases hst with ⟨c, pc, pc', rfl, rfl, -, heff⟩ |
        ⟨keep, rfl, rfl, -, rfl⟩ | ⟨-, hsame, -, hkind⟩
      · rcases heff.pending_cases slot with ⟨hnext, hpending⟩
        refine ⟨Nat.le_trans hfloor.next hnext, fun {h} hh => ?_, fun {j c' pc₁ g'} hj hw hp => ?_⟩
        · rcases heff.handleAt_cases with ⟨slot₀, h₀, hc, hwritten, hrest⟩ | ⟨-, hall⟩
          · by_cases hslot : slot = slot₀
            · subst hslot
              obtain rfl : h₀ = h := by simpa [hwritten] using hh
              rcases InstallPc.pending_of_commit hc
                (fun h' hpc => hdef ht (hpc ▸ trivial)) with ⟨hw, hp⟩
              exact hfloor.pending ht hw hp
            · exact hfloor.held ((hrest slot hslot) ▸ hh)
          · exact hfloor.held (hall slot ▸ hh)
        · by_cases hjt : j = tid
          · rw [hjt, hself, Option.some.injEq] at hj
            cases hj
            rcases hpending g' hp with hold | rfl
            · exact hfloor.pending ht hw hold
            · exact Nat.le_succ_of_le hfloor.next
          · exact hothers hjt hj hw hp
      · refine ⟨hfloor.next, fun hh => hfloor.held (KnowledgeRuntime.handleAt_prune hh),
          fun {j c' pc₁ g'} hj hw hp => ?_⟩
        by_cases hjt : j = tid
        · rw [hjt, hself] at hj
          cases hj
        · exact hothers hjt hj hw hp
      · refine ⟨hsame.nextGeneration ▸ hfloor.next,
          fun hh => hfloor.held (hsame.handleAt slot ▸ hh), fun {j c' pc₁ g'} hj hw hp => ?_⟩
        by_cases hjt : j = tid
        · rw [hjt, hself, Option.some.injEq] at hj
          rcases hkind with ⟨_, _, _, -, rfl, -⟩ | ⟨_, _, _, -, rfl, -⟩ | ⟨_, _, -, rfl, -⟩ <;> cases hj
        · exact hothers hjt hj hw hp

end Steps

/-! ## Installs that do not overlap -/

/-- Two installs have a slot in common. -/
def InstallCall.SharesSlot (c c' : InstallCall) : Prop :=
  c.name = c'.name ∨ (c.isDefault = true ∧ c'.isDefault = true)

instance (c c' : InstallCall) : Decidable (c.SharesSlot c') :=
  inferInstanceAs (Decidable (_ ∨ _))

theorem InstallCall.sharesSlot_of_writes {c c' : InstallCall} {slot : Slot}
    (h : c.writes slot = true) (h' : c'.writes slot = true) : c.SharesSlot c' := by
  cases slot with
  | default => exact .inr ⟨h, h'⟩
  | named name =>
      left
      rw [← of_decide_eq_true h, ← of_decide_eq_true h']

/-- The call is an install in progress that has a slot in common with `c`. -/
def Task.blocks (c : InstallCall) : Task π → Bool
  | .install c' pc => (Task.install c' pc).installing && decide (c.SharesSlot c')
  | _ => false

/-- The guard of a run in which the installs of one slot do not overlap. -/
def InstallsApart (s : Pool (Shared π) (Task π) (Event π)) :
    PoolAction Call (Input π) Ambient → Prop
  | .spawn (.install c) => s.tasks.all (fun t => !t.blocks c) = true
  | _ => True

instance (s : Pool (Shared π) (Task π) (Event π)) (a : PoolAction Call (Input π) Ambient) :
    Decidable (InstallsApart s a) :=
  match a with
  | .spawn (.install _) => inferInstanceAs (Decidable (_ = true))
  | .spawn (.prune _) | .spawn (.configure _) | .spawn (.execute _) | .spawn .currentGeneration
  | .run _ _ | .env _ => .isTrue trivial

/-- Two installs in progress have no slot in common. -/
def Apart (s : Pool (Shared π) (Task π) (Event π)) : Prop :=
  ∀ {j j' : Nat} {c c' : InstallCall} {pc pc' : InstallPc π}, j ≠ j' →
    s.tasks[j]? = some (.install c pc) → s.tasks[j']? = some (.install c' pc') →
    (Task.install c pc).installing = true → (Task.install c' pc').installing = true →
    ¬ c.SharesSlot c'

theorem InstallEffect.installing {c : InstallCall} {tid : Nat} {rt rt' : KnowledgeRuntime π}
    {pc pc' : InstallPc π} {e : Option (Event π)} (h : InstallEffect c tid rt pc rt' pc' e) :
    (Task.install c pc).installing = true := by
  cases h <;> rfl

theorem InstallCall.SharesSlot.symm {c c' : InstallCall} (h : c.SharesSlot c') :
    c'.SharesSlot c := by
  rcases h with hname | ⟨hdef, hdef'⟩
  · exact .inl hname.symm
  · exact .inr ⟨hdef', hdef⟩

/-- The part of a step that concerns one install: it is the one that moves, or it
stays where it is. -/
theorem install_of_step [DefaultHasher] [ValueText] {s : Pool (Shared π) (Task π) (Event π)}
    {tid : Nat} {input : Input π} {t t' : Task π} {x : Shared π} {e : Option (Event π)}
    (ht : s.tasks[tid]? = some t) (hst : Task.step tid s.shared t input = some (x, t', e))
    {j : Nat} {c : InstallCall} {pc : InstallPc π}
    (hj : (s.tasks.set tid t')[j]? = some (.install c pc)) :
    (j ≠ tid ∧ s.tasks[j]? = some (.install c pc)) ∨
      (j = tid ∧ ∃ pc₀, t = .install c pc₀ ∧ t' = .install c pc ∧
        InstallEffect c tid s.shared.runtime pc₀ x.runtime pc e) := by
  rw [getElem?_set_of_getElem? ht] at hj
  split at hj
  · rename_i hjt
    cases hj
    rcases Task.step_cases hst with ⟨c₁, pc₁, pc₁', rfl, heq, -, heff⟩ | ⟨keep, -, heq, -⟩ |
      ⟨-, -, -, ⟨_, _, _, -, heq, -⟩ | ⟨_, _, _, -, heq, -⟩ | ⟨_, _, -, heq, -⟩⟩
    · cases heq
      exact .inr ⟨hjt, pc₁, rfl, rfl, heff⟩
    all_goals cases heq
  · exact .inl ⟨by assumption, hj⟩

section Steps

variable [DefaultHasher] [ValueText]

theorem Apart.step {s s' : Pool (Shared π) (Task π) (Event π)}
    {a : PoolAction Call (Input π) Ambient} (hinv : Apart s) (hok : InstallsApart s a)
    (hstep : (runtimeMachine π).step s a = some s') : Apart s' := by
  intro j j' c c' pc pc' hne hj hj' hpc hpc'
  cases a with
  | spawn call =>
      cases hstep
      -- a fresh install shares no slot with one in progress
      have hfresh : ∀ {i : Nat} {c₁ c₂ : InstallCall} {pc₁ : InstallPc π},
          call = .install c₂ → s.tasks[i]? = some (.install c₁ pc₁) →
          (Task.install c₁ pc₁).installing = true → ¬ c₂.SharesSlot c₁ := by
        rintro i c₁ c₂ pc₁ rfl hi hinst hshares
        have hblocks := List.all_eq_true.mp hok _ (List.mem_of_getElem? hi)
        simp [Task.blocks, hinst, hshares] at hblocks
      have hcall : ∀ {c₂ : InstallCall} {pc₂ : InstallPc π},
          Task.install c₂ pc₂ = call.start → call = .install c₂ := by
        intro c₂ pc₂ heq
        cases call <;> cases heq
        rfl
      rcases getElem?_append_singleton hj with ⟨hlen, hstart⟩ | hold
      · rcases getElem?_append_singleton hj' with ⟨hlen', -⟩ | hold'
        · exact absurd (hlen.trans hlen'.symm) hne
        · exact hfresh (hcall hstart) hold' hpc'
      · rcases getElem?_append_singleton hj' with ⟨-, hstart'⟩ | hold'
        · exact fun hshares => hfresh (hcall hstart') hold hpc hshares.symm
        · exact hinv hne hold hold' hpc hpc'
  | env d =>
      cases hstep
      exact hinv hne hj hj' hpc hpc'
  | run tid input =>
      rcases TaskSystem.advance_run_iff.mp hstep with ⟨t, x, t', e, ht, hst, rfl⟩
      rcases install_of_step ht hst hj with ⟨-, hold⟩ | ⟨rfl, pc₀, rfl, -, heff⟩
      · rcases install_of_step ht hst hj' with ⟨-, hold'⟩ | ⟨rfl, pc₀', rfl, -, heff'⟩
        · exact hinv hne hold hold' hpc hpc'
        · exact hinv hne hold ht hpc heff'.installing
      · rcases install_of_step ht hst hj' with ⟨-, hold'⟩ | ⟨heq, -⟩
        · exact hinv hne ht hold' heff.installing hpc'
        · exact absurd heq.symm hne

/-- What a slot holds is a floor of it. -/
def HeldFloors (s : Pool (Shared π) (Task π) (Event π)) : Prop :=
  ∀ slot {h : ProviderHandle π}, s.shared.runtime.handleAt slot = some h →
    Floor slot h.generation s

omit [DefaultHasher] [ValueText] in
theorem InstallPc.installing_of_pending {c : InstallCall} {pc : InstallPc π} {slot : Slot}
    {g : Nat} (h : pc.pending slot = some g) : (Task.install c pc).installing = true := by
  cases pc <;> first | rfl | cases h

omit [DefaultHasher] [ValueText] in
/-- After a commit the install has nothing left to write to the slot. -/
theorem InstallEffect.pending_of_commit {c : InstallCall} {tid : Nat}
    {rt rt' : KnowledgeRuntime π} {pc pc' : InstallPc π} {e : Option (Event π)} {slot : Slot}
    {h : ProviderHandle π} (heff : InstallEffect c tid rt pc rt' pc' e)
    (hc : (Task.install c pc).commit? = some (slot, h)) : pc'.pending slot = none := by
  cases heff with
  | insertNamed handle =>
      cases hc
      rfl
  | writeSlot handle => rfl
  | drawGeneration | build | buildFailed | countFailure | bumpNamedEpoch | enterEpoch
  | storeGeneration | leaveEpoch | countSuccess => cases hc

theorem HeldFloors.step {s s' : Pool (Shared π) (Task π) (Event π)}
    {a : PoolAction Call (Input π) Ambient} (hinv : HeldFloors s) (hdef : DefaultsOnly s)
    (hapart : Apart s)
    (hhandles : Pool.Holds HandleInv (fun j t _ log => TaskHandles j t log) s)
    (hstep : (runtimeMachine π).step s a = some s') : HeldFloors s' := by
  intro slot h hh
  by_cases hold : s.shared.runtime.handleAt slot = some h
  · exact (hinv slot hold).step hdef hstep
  · -- the handle is new in the slot, so the step was its commit
    cases a with
    | spawn call =>
        cases hstep
        exact absurd hh hold
    | env d =>
        cases hstep
        refine absurd ?_ hold
        cases d <;> cases slot <;> exact hh
    | run tid input =>
        rcases TaskSystem.advance_run_iff.mp hstep with ⟨t, x, t', e, ht, hst, rfl⟩
        rcases Task.step_cases hst with ⟨c, pc, pc', rfl, rfl, -, heff⟩ |
          ⟨keep, rfl, rfl, -, rfl⟩ | ⟨-, hsame, -, -⟩
        · rcases heff.handleAt_cases with ⟨slot₀, h₀, hc, hwritten, hrest⟩ | ⟨-, hall⟩
          · by_cases hslot : slot = slot₀
            · subst hslot
              obtain rfl : h₀ = h := by simpa [hwritten] using hh
              have hb := (drew_of_commit (hhandles.tasks ht) hc).1
              have hbound := (hhandles.global.drew_bound (hhandles.global.built_drew hb)).2.1
              have hw := (InstallPc.pending_of_commit hc
                (fun h' hpc => hdef ht (hpc ▸ trivial))).1
              refine ⟨Nat.le_trans hbound (heff.pending_cases slot).1, fun {h'} hh' => ?_,
                fun {j c' pc₁ g'} hj hw' hp => ?_⟩
              · obtain rfl : h₀ = h' := by simpa [hwritten] using hh'
                exact Nat.le_refl _
              · rcases install_of_step ht hst hj with ⟨hne, hold'⟩ | ⟨-, pc₀, -, heq, -⟩
                · exact absurd (InstallCall.sharesSlot_of_writes hw' hw)
                    (hapart hne hold' ht (InstallPc.installing_of_pending hp) heff.installing)
                · cases heq
                  rw [heff.pending_of_commit hc] at hp
                  cases hp
            · exact absurd ((hrest slot hslot) ▸ hh) hold
          · exact absurd (hall slot ▸ hh) hold
        · exact absurd (KnowledgeRuntime.handleAt_prune hh) hold
        · exact absurd (hsame.handleAt slot ▸ hh) hold

/-! ## The stored generation -/

omit [DefaultHasher] [ValueText] in
/-- The generation in the slot is at least any floor, unless the slot is empty. -/
theorem HeldFloors.slotGeneration_le {s : Pool (Shared π) (Task π) (Event π)} {g : Nat}
    (hinv : HeldFloors s) {j : Nat} {c : InstallCall} {pc : InstallPc π}
    (ht : s.tasks[j]? = some (.install c pc)) (hdef : c.isDefault = true)
    (hp : pc.pending .default = some g) : s.shared.runtime.slotGeneration ≤ g := by
  unfold KnowledgeRuntime.slotGeneration
  cases hprov : s.shared.runtime.provider with
  | none => exact Nat.zero_le _
  | some h => exact (hinv .default hprov).pending ht hdef hp

/-- The install is between its two epoch steps. -/
def InstallPc.InEpoch : InstallPc π → Prop
  | .writeSlot _ | .storeGeneration _ | .leaveEpoch _ => True
  | _ => False

/-- What an install between its two epoch steps knows. -/
def InstallPc.EpochOk (rt : KnowledgeRuntime π) : InstallPc π → Prop
  | .writeSlot _ | .leaveEpoch _ =>
      rt.providerEpoch % 2 = 1 ∧ rt.currentGenerationValue = rt.slotGeneration
  | .storeGeneration h => rt.providerEpoch % 2 = 1 ∧ rt.provider = some h
  | _ => True

/-- How the stored generation follows the slot. -/
structure EpochInv (s : Pool (Shared π) (Task π) (Event π)) : Prop where
  value_le : s.shared.runtime.currentGenerationValue ≤ s.shared.runtime.slotGeneration
  even : s.shared.runtime.providerEpoch % 2 = 0 →
    s.shared.runtime.currentGenerationValue = s.shared.runtime.slotGeneration
  odd : s.shared.runtime.providerEpoch % 2 = 1 →
    ∃ (j : Nat) (c : InstallCall) (pc : InstallPc π),
      s.tasks[j]? = some (.install c pc) ∧ pc.InEpoch
  inside : ∀ {j : Nat} {c : InstallCall} {pc : InstallPc π},
    s.tasks[j]? = some (.install c pc) → pc.EpochOk s.shared.runtime

omit [DefaultHasher] [ValueText] in
theorem InstallPc.EpochOk.of_not_inEpoch {rt : KnowledgeRuntime π} {pc : InstallPc π}
    (h : ¬ pc.InEpoch) : pc.EpochOk rt := by
  cases pc <;> first | trivial | exact absurd trivial h

omit [DefaultHasher] [ValueText] in
theorem InstallPc.EpochOk.of_eq {rt rt' : KnowledgeRuntime π} {pc : InstallPc π}
    (h : pc.EpochOk rt) (hprovider : rt'.provider = rt.provider)
    (hepoch : rt'.providerEpoch = rt.providerEpoch)
    (hvalue : rt'.currentGenerationValue = rt.currentGenerationValue) : pc.EpochOk rt' := by
  cases pc <;> simp_all [EpochOk, KnowledgeRuntime.slotGeneration]

omit [DefaultHasher] [ValueText] in
/-- What one step of an install does to the slot, the stored generation and the
epoch. -/
theorem InstallEffect.epoch_cases {c : InstallCall} {tid : Nat} {rt rt' : KnowledgeRuntime π}
    {pc pc' : InstallPc π} {e : Option (Event π)} (h : InstallEffect c tid rt pc rt' pc' e) :
    (pc.DefaultOnly ∧
        ((∃ handle, pc = .enterEpoch handle ∧ pc' = .writeSlot handle ∧
            rt' = { rt with providerEpoch := rt.providerEpoch + 1 }) ∨
          (∃ handle, pc = .writeSlot handle ∧ pc' = .storeGeneration handle ∧
            rt' = { rt with provider := some handle }) ∨
          (∃ handle, pc = .storeGeneration handle ∧ pc' = .leaveEpoch handle ∧
            rt' = { rt with currentGenerationValue := handle.generation }) ∨
          (∃ handle, pc = .leaveEpoch handle ∧ pc' = .countSuccess handle ∧
            rt' = { rt with providerEpoch := rt.providerEpoch + 1 }))) ∨
      (rt'.provider = rt.provider ∧ rt'.providerEpoch = rt.providerEpoch ∧
        rt'.currentGenerationValue = rt.currentGenerationValue ∧ ¬ pc.InEpoch ∧
        ¬ pc'.InEpoch) := by
  cases h with
  | enterEpoch handle => exact .inl ⟨trivial, .inl ⟨handle, rfl, rfl, rfl⟩⟩
  | writeSlot handle => exact .inl ⟨trivial, .inr (.inl ⟨handle, rfl, rfl, rfl⟩)⟩
  | storeGeneration handle =>
      exact .inl ⟨trivial, .inr (.inr (.inl ⟨handle, rfl, rfl, rfl⟩))⟩
  | leaveEpoch handle => exact .inl ⟨trivial, .inr (.inr (.inr ⟨handle, rfl, rfl, rfl⟩))⟩
  | bumpNamedEpoch handle =>
      refine .inr ⟨rfl, rfl, rfl, fun h => h, ?_⟩
      split <;> exact fun h => h
  | drawGeneration | build | buildFailed | countFailure | insertNamed | countSuccess =>
      exact .inr ⟨rfl, rfl, rfl, fun h => h, fun h => h⟩

/-- A step that leaves the slot, the stored generation and the epoch alone, of a
call that is not between its epoch steps. -/
theorem EpochInv.quiet {s : Pool (Shared π) (Task π) (Event π)} (hinv : EpochInv s) {tid : Nat}
    {input : Input π} {t t' : Task π} {x : Shared π} {e : Option (Event π)}
    (ht : s.tasks[tid]? = some t) (hst : Task.step tid s.shared t input = some (x, t', e))
    (hprovider : x.runtime.provider = s.shared.runtime.provider)
    (hepoch : x.runtime.providerEpoch = s.shared.runtime.providerEpoch)
    (hvalue : x.runtime.currentGenerationValue = s.shared.runtime.currentGenerationValue)
    (hold : ∀ c pc, t = .install c pc → ¬ pc.InEpoch)
    (hnew : ∀ c pc, t' = .install c pc → ¬ pc.InEpoch) :
    EpochInv ⟨x, s.tasks.set tid t', e.toList ++ s.log⟩ where
  value_le := by
    simp only [KnowledgeRuntime.slotGeneration, hprovider, hvalue]
    exact hinv.value_le
  even heven := by
    simp only [KnowledgeRuntime.slotGeneration, hprovider, hvalue, hepoch] at heven ⊢
    exact hinv.even heven
  odd hodd := by
    simp only [hepoch] at hodd
    rcases hinv.odd hodd with ⟨j, c, pc, hj, hin⟩
    refine ⟨j, c, pc, ?_, hin⟩
    rw [getElem?_set_of_getElem? ht]
    split
    · rename_i hjt
      rw [hjt, ht, Option.some.injEq] at hj
      exact absurd hin (hold c pc hj)
    · exact hj
  inside {j c pc} hj := by
    rcases install_of_step ht hst hj with ⟨-, hsame⟩ | ⟨-, pc₀, -, heq, -⟩
    · exact (hinv.inside hsame).of_eq hprovider hepoch hvalue
    · exact .of_not_inEpoch (hnew c pc heq)

omit [DefaultHasher] [ValueText] in
theorem InstallPc.InEpoch.defaultOnly {pc : InstallPc π} (h : pc.InEpoch) : pc.DefaultOnly := by
  cases pc <;> trivial

omit [DefaultHasher] [ValueText] in
theorem InstallPc.InEpoch.installing {c : InstallCall} {pc : InstallPc π} (h : pc.InEpoch) :
    (Task.install c pc).installing = true := by
  cases pc <;> first | rfl | exact h.elim

/-- A call that starts is not between its epoch steps. -/
theorem EpochInv.spawn {s s' : Pool (Shared π) (Task π) (Event π)} (hinv : EpochInv s) {call : Call}
    (hstep : (runtimeMachine π).step s (.spawn call) = some s') : EpochInv s' := by
  cases hstep
  refine ⟨hinv.value_le, hinv.even, fun hodd => ?_, fun {j c pc} hj => ?_⟩
  · rcases hinv.odd hodd with ⟨j, c, pc, hj, hin⟩
    refine ⟨j, c, pc, ?_, hin⟩
    rw [List.getElem?_append_left (List.getElem?_eq_some_iff.mp hj).1]
    exact hj
  · rcases getElem?_append_singleton hj with ⟨-, hstart⟩ | hold
    · cases call <;> cases hstart
      trivial
    · exact hinv.inside hold

/-- A step of an install that changes the slot, the stored generation or the epoch: no
other install is between its epoch steps. -/
theorem EpochInv.moves {s : Pool (Shared π) (Task π) (Event π)} (hinv : EpochInv s)
    (hdef : DefaultsOnly s) (hapart : Apart s) (hfloors : HeldFloors s) {tid : Nat}
    {input : Input π} {c : InstallCall} {pc pc' : InstallPc π} {rt' : KnowledgeRuntime π}
    {clock' : Nat} {e : Option (Event π)} (ht : s.tasks[tid]? = some (.install c pc))
    (hst : Task.step tid s.shared (.install c pc) input = some (⟨rt', clock'⟩, .install c pc', e))
    (heff : InstallEffect c tid s.shared.runtime pc rt' pc' e) (honly : pc.DefaultOnly)
    (hcases : (∃ handle, pc = .enterEpoch handle ∧ pc' = .writeSlot handle ∧
        rt' = { s.shared.runtime with providerEpoch := s.shared.runtime.providerEpoch + 1 }) ∨
      (∃ handle, pc = .writeSlot handle ∧ pc' = .storeGeneration handle ∧
        rt' = { s.shared.runtime with provider := some handle }) ∨
      (∃ handle, pc = .storeGeneration handle ∧ pc' = .leaveEpoch handle ∧
        rt' = { s.shared.runtime with currentGenerationValue := handle.generation }) ∨
      (∃ handle, pc = .leaveEpoch handle ∧ pc' = .countSuccess handle ∧
        rt' = { s.shared.runtime with providerEpoch := s.shared.runtime.providerEpoch + 1 })) :
    EpochInv ⟨⟨rt', clock'⟩, s.tasks.set tid (.install c pc'), e.toList ++ s.log⟩ := by
  have hself : (s.tasks.set tid (Task.install c pc'))[tid]? = some (.install c pc') := by
    rw [getElem?_set_of_getElem? ht, if_pos rfl]
  have halone : ∀ {j : Nat} {c' : InstallCall} {pc₁ : InstallPc π}, j ≠ tid →
      s.tasks[j]? = some (.install c' pc₁) → ¬ pc₁.InEpoch := by
    intro j c' pc₁ hne hj hin
    exact hapart hne hj ht hin.installing heff.installing
      (.inr ⟨hdef hj hin.defaultOnly, hdef ht honly⟩)
  -- of the installs only the moving one can be between its epoch steps
  have hinside : pc'.EpochOk rt' →
      ∀ {j : Nat} {c' : InstallCall} {pc₁ : InstallPc π},
        (s.tasks.set tid (Task.install c pc'))[j]? = some (.install c' pc₁) →
        pc₁.EpochOk rt' := by
    intro hown j c' pc₁ hj
    rcases install_of_step ht hst hj with ⟨hne, hold⟩ | ⟨-, pc₀, -, heq, -⟩
    · exact .of_not_inEpoch (halone hne hold)
    · cases heq
      exact hown
  rcases hcases with ⟨h, rfl, rfl, rfl⟩ | ⟨h, rfl, rfl, rfl⟩ | ⟨h, rfl, rfl, rfl⟩ |
    ⟨h, rfl, rfl, rfl⟩
  · have heven : s.shared.runtime.providerEpoch % 2 = 0 := by
      by_contra hodd
      rcases hinv.odd (by omega) with ⟨j, c', pc₁, hj, hin⟩
      by_cases hjt : j = tid
      · rw [hjt, ht, Option.some.injEq] at hj
        cases hj
        exact hin
      · exact halone hjt hj hin
    have hodd : (s.shared.runtime.providerEpoch + 1) % 2 = 1 := by omega
    refine ⟨hinv.value_le, fun heven' => ?_, fun _ => ⟨tid, c, _, hself, trivial⟩,
      hinside ⟨hodd, hinv.even heven⟩⟩
    simp only at heven'
    omega
  · rcases hinv.inside ht with ⟨hodd, hvalue⟩
    refine ⟨?_, fun heven => ?_, fun _ => ⟨tid, c, _, hself, trivial⟩,
      hinside ⟨hodd, rfl⟩⟩
    · have hle := hfloors.slotGeneration_le ht (hdef ht honly) rfl
      exact hvalue ▸ hle
    · simp only at heven
      omega
  · rcases hinv.inside ht with ⟨hodd, hprovider⟩
    have hagree : h.generation = s.shared.runtime.slotGeneration := by
      simp [KnowledgeRuntime.slotGeneration, hprovider]
    refine ⟨Nat.le_of_eq hagree, fun _ => hagree, fun _ => ⟨tid, c, _, hself, trivial⟩,
      hinside ⟨hodd, hagree⟩⟩
  · rcases hinv.inside ht with ⟨hodd, hvalue⟩
    refine ⟨hinv.value_le, fun _ => hvalue, fun hodd' => ?_, hinside trivial⟩
    simp only at hodd'
    omega

/-- One guarded step keeps the relation between the stored generation and the
slot: a default install between its epoch steps is alone there. -/
theorem EpochInv.step {s s' : Pool (Shared π) (Task π) (Event π)}
    {a : PoolAction Call (Input π) Ambient} (hinv : EpochInv s) (hdef : DefaultsOnly s)
    (hapart : Apart s) (hfloors : HeldFloors s)
    (hstep : (runtimeMachine π).step s a = some s') : EpochInv s' := by
  cases a with
  | spawn call => exact hinv.spawn hstep
  | env d =>
      cases hstep
      cases d <;> exact ⟨hinv.value_le, hinv.even, hinv.odd, fun hj =>
        (hinv.inside hj).of_eq rfl rfl rfl⟩
  | run tid input =>
      rcases TaskSystem.advance_run_iff.mp hstep with ⟨t, x, t', e, ht, hst, rfl⟩
      rcases Task.step_cases hst with ⟨c, pc, pc', rfl, rfl, -, heff⟩ |
        ⟨keep, rfl, rfl, -, rfl⟩ | ⟨-, hsame, -, hkind⟩
      · rcases x with ⟨rt', clock'⟩
        rcases heff.epoch_cases with ⟨honly, hcases⟩ | ⟨hprovider, hepoch, hvalue, hpc, hpc'⟩
        · exact hinv.moves hdef hapart hfloors ht hst heff honly hcases
        · refine hinv.quiet ht hst hprovider hepoch hvalue ?_ ?_
          · rintro c' pc₁ heq
            cases heq
            exact hpc
          · rintro c' pc₁ heq
            cases heq
            exact hpc'
      · exact hinv.quiet ht hst rfl rfl rfl (by simp) (by simp)
      · refine hinv.quiet ht hst hsame.provider hsame.providerEpoch hsame.currentGenerationValue
          ?_ ?_
        · rcases hkind with ⟨_, _, _, rfl, -⟩ | ⟨_, _, _, rfl, -⟩ | ⟨_, _, rfl, -⟩ <;> simp
        · rcases hkind with ⟨_, _, _, -, rfl, -⟩ | ⟨_, _, _, -, rfl, -⟩ | ⟨_, _, -, rfl, -⟩ <;> simp

/-! ## Whole runs -/

/-- What holds of the slots in a run whose installs do not overlap. -/
structure OrderInv (s : Pool (Shared π) (Task π) (Event π)) : Prop where
  defaults : DefaultsOnly s
  apart : Apart s
  floors : HeldFloors s
  epoch : EpochInv s

/-- In a run in which the installs of one slot do not overlap, what a slot holds
is a floor of it, and the stored generation follows the slot. -/
theorem order_of_run {as : List (PoolAction Call (Input π) Ambient)}
    {s : Pool (Shared π) (Task π) (Event π)}
    (h : (runtimeMachine π).Run InstallsApart as s) : OrderInv s := by
  refine Machine.Run.invariant (P := fun _ s => OrderInv s) ?_ ?_ h
  · rintro ⟨⟨rt, clock⟩, tasks, log⟩ ⟨⟨capacity, hx⟩, rfl, rfl⟩
    obtain rfl : rt = KnowledgeRuntime.new π capacity := hx
    refine ⟨by simp [DefaultsOnly], by simp [Apart], fun slot h hh => ?_,
      ⟨Nat.le_refl _, fun _ => rfl, fun hodd => ?_, by simp⟩⟩
    · cases slot <;> simp [KnowledgeRuntime.handleAt, KnowledgeRuntime.new] at hh
    · simp [KnowledgeRuntime.new] at hodd
  · intro as s a s' hrun hinv hok hstep
    exact ⟨DefaultsOnly.step hinv.defaults hstep, Apart.step hinv.apart hok hstep,
      HeldFloors.step hinv.floors hinv.defaults hinv.apart (handles_of_run hrun) hstep,
      hinv.epoch.step hinv.defaults hinv.apart hinv.floors hstep⟩

end Steps

end WpKnowledge
