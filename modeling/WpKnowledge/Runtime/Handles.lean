import WpKnowledge.Foundation.History
import WpKnowledge.Runtime.KnowledgeRuntime

/-!
# Handles and generations over whole runs

What one step of each call does to the provider state, and what follows for
every run: generations are drawn in increasing order, each by one install only,
and every handle found anywhere in the runtime was built by an install from the
generation that install drew.  Two handles of one generation are therefore one
handle.  The counter of generations has 64 bits in the source; it is taken not to wrap.

Main results:

- Theorem {lit}`Task.step_cases`: the effect of one step on the provider state.
- Theorem {lit}`handles_of_run`: the invariant of handles and generations.
- Theorem {lit}`HandleInv.unique`: a generation belongs to one handle.
-/

namespace WpKnowledge

open Foundation

variable {π : Type}

/-! ## What one step does to the provider state -/

/-- Two runtimes agree on everything an install writes. -/
structure KnowledgeRuntime.SameProviders (rt rt' : KnowledgeRuntime π) : Prop where
  provider : rt'.provider = rt.provider
  namedProviders : rt'.namedProviders = rt.namedProviders
  nextGeneration : rt'.nextGeneration = rt.nextGeneration
  providerEpoch : rt'.providerEpoch = rt.providerEpoch
  currentGenerationValue : rt'.currentGenerationValue = rt.currentGenerationValue

theorem KnowledgeRuntime.SameProviders.handleAt {rt rt' : KnowledgeRuntime π}
    (h : rt.SameProviders rt') (slot : Slot) : rt'.handleAt slot = rt.handleAt slot := by
  cases slot with
  | default => exact h.provider
  | named name => simp only [KnowledgeRuntime.handleAt, h.namedProviders]

/-- The effect of one step of an install, case by case. -/
inductive InstallEffect (c : InstallCall) (tid : Nat) (rt : KnowledgeRuntime π) :
    InstallPc π → KnowledgeRuntime π → InstallPc π → Option (Event π) → Prop
  | drawGeneration : InstallEffect c tid rt .drawGeneration
      { rt with nextGeneration := rt.nextGeneration + 1 } (.build (rt.nextGeneration + 1))
      (some (.drew tid (rt.nextGeneration + 1)))
  | build (generation : Nat) (handle : ProviderHandle π)
      (hgeneration : handle.generation = generation) (hallocation : handle.allocation = tid) :
      InstallEffect c tid rt (.build generation) rt (.insertNamed handle) (some (.built handle))
  | buildFailed (generation : Nat) (err : KnowledgeError) :
      InstallEffect c tid rt (.build generation) rt (.countFailure err) none
  | countFailure (err : KnowledgeError) : InstallEffect c tid rt (.countFailure err)
      { rt with reloadFailures := rt.reloadFailures + 1 } (.done (.error err)) none
  | insertNamed (handle : ProviderHandle π) : InstallEffect c tid rt (.insertNamed handle)
      { rt with namedProviders := rt.namedProviders.insert c.name handle }
      (.bumpNamedEpoch handle) none
  | bumpNamedEpoch (handle : ProviderHandle π) : InstallEffect c tid rt (.bumpNamedEpoch handle)
      { rt with namedProviderEpoch := rt.namedProviderEpoch + 1 }
      (if c.isDefault then .enterEpoch handle else .countSuccess handle) none
  | enterEpoch (handle : ProviderHandle π) : InstallEffect c tid rt (.enterEpoch handle)
      { rt with providerEpoch := rt.providerEpoch + 1 } (.writeSlot handle) none
  | writeSlot (handle : ProviderHandle π) : InstallEffect c tid rt (.writeSlot handle)
      { rt with provider := some handle } (.storeGeneration handle) none
  | storeGeneration (handle : ProviderHandle π) :
      InstallEffect c tid rt (.storeGeneration handle)
      { rt with currentGenerationValue := handle.generation } (.leaveEpoch handle) none
  | leaveEpoch (handle : ProviderHandle π) : InstallEffect c tid rt (.leaveEpoch handle)
      { rt with providerEpoch := rt.providerEpoch + 1 } (.countSuccess handle) none
  | countSuccess (handle : ProviderHandle π) : InstallEffect c tid rt (.countSuccess handle)
      { rt with reloadSuccesses := rt.reloadSuccesses + 1 } (.done (.ok handle.generation)) none

theorem InstallCall.step_effect {c : InstallCall} {tid : Nat} {rt rt' : KnowledgeRuntime π}
    {pc pc' : InstallPc π} {input : Input π} {e : Option (Event π)}
    (h : c.step tid rt pc input = some (rt', pc', e)) : InstallEffect c tid rt pc rt' pc' e := by
  unfold InstallCall.step at h
  split at h
  case h_2 generation provider => cases h; exact .build generation _ rfl rfl
  all_goals cases h
  all_goals constructor

/-- An event of an install. -/
def Event.OfInstall : Event π → Prop
  | .drew _ _ | .built _ => True
  | _ => False

theorem ConfigureCall.step_quiet {c : ConfigureCall} {rt rt' : KnowledgeRuntime π}
    {pc pc' : ConfigurePc} {input : Input π} {e : Option (Event π)}
    (h : c.step rt pc input = some (rt', pc', e)) :
    rt.SameProviders rt' ∧ ∀ ev, e = some ev → ¬ ev.OfInstall := by
  unfold ConfigureCall.step at h
  split at h
  all_goals cases h
  all_goals exact ⟨by constructor <;> rfl, by simp [Event.OfInstall]⟩

/-- The handle an execution works with, once resolved. -/
def ExecutePc.handle? : ExecutePc π → Option (ProviderHandle π)
  | .resolve | .done _ => none
  | .loadEnabled handle | .fetchLoadEnabled handle | .fetchPeek handle
  | .fetchReadClock handle _ | .fetchLoadTtl handle _ _ | .fetchPop handle
  | .countHit handle _ | .countMiss handle | .ask handle _ | .save handle _ => some handle

section Steps

variable [DefaultHasher] [ValueText]

theorem ExecuteCall.step_quiet {c : ExecuteCall} {tid clock : Nat} {rt rt' : KnowledgeRuntime π}
    {pc pc' : ExecutePc π} {input : Input π} {e : Option (Event π)}
    (h : c.step tid clock rt pc input = some (rt', pc', e)) :
    rt.SameProviders rt' ∧ ∀ ev, e = some ev → ¬ ev.OfInstall := by
  unfold ExecuteCall.step at h
  split at h
  all_goals try split at h
  all_goals cases h
  all_goals exact ⟨by constructor <;> rfl, by simp [Event.OfInstall]⟩

/-- An execution keeps its handle; it takes it from the slot it queries. -/
theorem ExecuteCall.step_handle? {c : ExecuteCall} {tid clock : Nat}
    {rt rt' : KnowledgeRuntime π} {pc pc' : ExecutePc π} {input : Input π} {e : Option (Event π)}
    {handle : ProviderHandle π} (h : c.step tid clock rt pc input = some (rt', pc', e))
    (hpc : pc'.handle? = some handle) :
    pc.handle? = some handle ∨
      (rt.handleAt c.slot = some handle ∧ e = some (.resolved tid handle)) := by
  unfold ExecuteCall.step at h
  split at h
  case h_1 =>
    split at h
    · rename_i handle' hres
      cases h
      right
      rw [KnowledgeRuntime.resolve_eq_ok_iff] at hres
      have hsame : handle' = handle := by
        split at hpc <;> simpa [ExecutePc.handle?] using hpc
      exact hsame ▸ ⟨hres, rfl⟩
    · cases h
      cases hpc
  all_goals try split at h
  all_goals cases h
  all_goals left
  all_goals try split at hpc
  all_goals first | exact hpc | cases hpc

/-- The effect of one step of any call on the provider state. -/
theorem Task.step_cases {tid : Nat} {x x' : Shared π} {t t' : Task π} {input : Input π}
    {e : Option (Event π)} (h : Task.step tid x t input = some (x', t', e)) :
    (∃ c pc pc', t = .install c pc ∧ t' = .install c pc' ∧ x'.clock = x.clock ∧
        InstallEffect c tid x.runtime pc x'.runtime pc' e) ∨
      (∃ keep, t = .prune keep false ∧ t' = .prune keep true ∧ e = none ∧
        x' = { x with runtime := x.runtime.pruneNamedProvidersExcept keep }) ∨
      (x'.clock = x.clock ∧ x.runtime.SameProviders x'.runtime ∧
        (∀ ev, e = some ev → ¬ ev.OfInstall) ∧
        ((∃ c pc pc', t = .configure c pc ∧ t' = .configure c pc' ∧
            c.step x.runtime pc input = some (x'.runtime, pc', e)) ∨
          (∃ c pc pc', t = .execute c pc ∧ t' = .execute c pc' ∧
            c.step tid x.clock x.runtime pc input = some (x'.runtime, pc', e)) ∨
          (∃ pc pc', t = .currentGeneration pc ∧ t' = .currentGeneration pc' ∧ x' = x ∧
            e = none ∧ pc.step x.runtime = some pc'))) := by
  unfold Task.step at h
  split at h
  · rename_i c pc
    rw [Option.map_eq_some_iff] at h
    rcases h with ⟨⟨rt', pc', e'⟩, hstep, heq⟩
    cases heq
    exact .inl ⟨c, pc, pc', rfl, rfl, rfl, InstallCall.step_effect hstep⟩
  · rename_i keep
    cases h
    exact .inr (.inl ⟨keep, rfl, rfl, rfl, rfl⟩)
  · rename_i c pc
    rw [Option.map_eq_some_iff] at h
    rcases h with ⟨⟨rt', pc', e'⟩, hstep, heq⟩
    cases heq
    rcases ConfigureCall.step_quiet hstep with ⟨hsame, hev⟩
    exact .inr (.inr ⟨rfl, hsame, hev, .inl ⟨c, pc, pc', rfl, rfl, hstep⟩⟩)
  · rename_i c pc
    rw [Option.map_eq_some_iff] at h
    rcases h with ⟨⟨rt', pc', e'⟩, hstep, heq⟩
    cases heq
    rcases ExecuteCall.step_quiet hstep with ⟨hsame, hev⟩
    exact .inr (.inr ⟨rfl, hsame, hev, .inr (.inl ⟨c, pc, pc', rfl, rfl, hstep⟩)⟩)
  · rename_i pc
    rw [Option.map_eq_some_iff] at h
    rcases h with ⟨pc', hstep, heq⟩
    cases heq
    exact .inr (.inr ⟨rfl, ⟨rfl, rfl, rfl, rfl, rfl⟩, by simp,
      .inr (.inr ⟨pc, pc', rfl, rfl, rfl, rfl, hstep⟩)⟩)
  · cases h

end Steps

/-! ## The invariant -/

/-- The handle an install has built, while it still works with it. -/
def InstallPc.handle? : InstallPc π → Option (ProviderHandle π)
  | .drawGeneration | .build _ | .countFailure _ | .done _ => none
  | .insertNamed handle | .bumpNamedEpoch handle | .enterEpoch handle | .writeSlot handle
  | .storeGeneration handle | .leaveEpoch handle | .countSuccess handle => some handle

/-- A newly drawn generation is above those drawn before it. -/
def DrawnInOrder (before : List (Event π)) (e : Event π) : Prop :=
  ∀ t g, e = .drew t g → ∀ t' g', .drew t' g' ∈ before → g' < g

/-- What holds of the shared state and the history. -/
structure HandleInv (n : Nat) (x : Shared π) (log : List (Event π)) : Prop where
  ordered : Justified DrawnInOrder log
  drew_bound : ∀ {t g}, .drew t g ∈ log → 1 ≤ g ∧ g ≤ x.runtime.nextGeneration ∧ t < n
  drew_once : ∀ {t g g'}, .drew t g ∈ log → .drew t g' ∈ log → g = g'
  built_drew : ∀ {h}, .built h ∈ log → .drew h.allocation h.generation ∈ log
  built_once : ∀ {h h'}, .built h ∈ log → .built h' ∈ log → h.allocation = h'.allocation → h = h'
  slot_built : ∀ slot {h}, x.runtime.handleAt slot = some h → .built h ∈ log

/-- What holds of one call. -/
def TaskHandles (j : Nat) (t : Task π) (log : List (Event π)) : Prop :=
  match t with
  | .install _ .drawGeneration => ∀ g, .drew j g ∉ log
  | .install _ (.build g) => .drew j g ∈ log ∧ ∀ h, .built h ∈ log → h.allocation ≠ j
  | .install _ pc => ∀ h, pc.handle? = some h → .built h ∈ log ∧ h.allocation = j
  | .execute _ pc => ∀ h, pc.handle? = some h → .built h ∈ log ∧ .resolved j h ∈ log
  | _ => True

theorem mem_toList_append {e : Option (Event π)} {ev : Event π} {log : List (Event π)} :
    ev ∈ e.toList ++ log ↔ e = some ev ∨ ev ∈ log := by
  rw [List.mem_append, Option.mem_toList]

theorem mem_toList_append_of_ofInstall {e : Option (Event π)} {ev : Event π}
    {log : List (Event π)} (he : ∀ ev, e = some ev → ¬ ev.OfInstall) (hev : ev.OfInstall)
    (h : ev ∈ e.toList ++ log) : ev ∈ log :=
  (mem_toList_append.mp h).resolve_left fun heq => he ev heq hev

/-- Drawing the same generation twice is drawing it once. -/
theorem drew_inj_of_ordered {log : List (Event π)} (h : Justified DrawnInOrder log)
    {t t' g : Nat} (ht : .drew t g ∈ log) (ht' : .drew t' g ∈ log) : t = t' := by
  induction h with
  | nil => cases ht
  | cons hJ _ ih =>
      rcases List.mem_cons.mp ht with rfl | hold
      · rcases List.mem_cons.mp ht' with heq | hold'
        · cases heq
          rfl
        · exact absurd (hJ t g rfl t' g hold') (Nat.lt_irrefl g)
      · rcases List.mem_cons.mp ht' with rfl | hold'
        · exact absurd (hJ t' g rfl t g hold) (Nat.lt_irrefl g)
        · exact ih hold hold'

/-- A generation belongs to one handle. -/
theorem HandleInv.unique {n : Nat} {x : Shared π} {log : List (Event π)}
    (hinv : HandleInv n x log) {h h' : ProviderHandle π} (hb : .built h ∈ log)
    (hb' : .built h' ∈ log) (hg : h.generation = h'.generation) : h = h' := by
  have hdrew := hinv.built_drew hb
  have hdrew' := hinv.built_drew hb'
  rw [← hg] at hdrew'
  exact hinv.built_once hb hb' (drew_inj_of_ordered hinv.ordered hdrew hdrew')

/-- A step that draws no generation and builds no handle keeps the invariant if
it fills the slots with handles already built. -/
theorem HandleInv.quiet {n : Nat} {x x' : Shared π} {log : List (Event π)}
    {e : Option (Event π)} (hinv : HandleInv n x log)
    (hnext : x'.runtime.nextGeneration = x.runtime.nextGeneration)
    (hslots : ∀ slot {h}, x'.runtime.handleAt slot = some h → .built h ∈ log)
    (he : ∀ ev, e = some ev → ¬ ev.OfInstall) : HandleInv n x' (e.toList ++ log) where
  ordered := by
    refine hinv.ordered.append_toList fun ev hev t g hdrew => ?_
    exact absurd (hdrew ▸ trivial) (he ev hev)
  drew_bound h := by
    rw [hnext]
    exact hinv.drew_bound (mem_toList_append_of_ofInstall he trivial h)
  drew_once h h' := hinv.drew_once (mem_toList_append_of_ofInstall he trivial h)
    (mem_toList_append_of_ofInstall he trivial h')
  built_drew h := List.mem_append_right _
    (hinv.built_drew (mem_toList_append_of_ofInstall he trivial h))
  built_once h h' := hinv.built_once (mem_toList_append_of_ofInstall he trivial h)
    (mem_toList_append_of_ofInstall he trivial h')
  slot_built slot _ h := List.mem_append_right _ (hslots slot h)

/-- The invariant after an install has drawn its generation. -/
theorem HandleInv.drew {n tid : Nat} {x : Shared π} {log : List (Event π)}
    (hinv : HandleInv n x log) (htid : tid < n) (hfresh : ∀ g, .drew tid g ∉ log) :
    HandleInv n
      { x with runtime := { x.runtime with nextGeneration := x.runtime.nextGeneration + 1 } }
      (.drew tid (x.runtime.nextGeneration + 1) :: log) where
  ordered := by
    refine .cons (fun t g hdrew t' g' hold => ?_) hinv.ordered
    cases hdrew
    have := (hinv.drew_bound hold).2.1
    omega
  drew_bound {t g} h := by
    rcases List.mem_cons.mp h with heq | hold
    · cases heq
      exact ⟨by omega, Nat.le_refl _, htid⟩
    · rcases hinv.drew_bound hold with ⟨h1, h2, h3⟩
      exact ⟨h1, Nat.le_succ_of_le h2, h3⟩
  drew_once {t g g'} h h' := by
    rcases List.mem_cons.mp h with heq | hold
    · rcases List.mem_cons.mp h' with heq' | hold'
      · cases heq
        cases heq'
        rfl
      · cases heq
        exact absurd hold' (hfresh g')
    · rcases List.mem_cons.mp h' with heq' | hold'
      · cases heq'
        exact absurd hold (hfresh g)
      · exact hinv.drew_once hold hold'
  built_drew h := by
    rcases List.mem_cons.mp h with heq | hold
    · cases heq
    · exact List.mem_cons_of_mem _ (hinv.built_drew hold)
  built_once h h' := hinv.built_once (List.mem_of_ne_of_mem (by simp) h)
    (List.mem_of_ne_of_mem (by simp) h')
  slot_built slot _ h := List.mem_cons_of_mem _ (hinv.slot_built slot h)

/-- The invariant after an install has built its handle. -/
theorem HandleInv.built {n : Nat} {x : Shared π} {log : List (Event π)}
    {handle : ProviderHandle π} (hinv : HandleInv n x log)
    (hdrew : .drew handle.allocation handle.generation ∈ log)
    (hfresh : ∀ h, .built h ∈ log → h.allocation ≠ handle.allocation) :
    HandleInv n x (.built handle :: log) where
  ordered := .cons (fun _ _ heq => by cases heq) hinv.ordered
  drew_bound h := hinv.drew_bound (List.mem_of_ne_of_mem (by simp) h)
  drew_once h h' := hinv.drew_once (List.mem_of_ne_of_mem (by simp) h)
    (List.mem_of_ne_of_mem (by simp) h')
  built_drew h := by
    rcases List.mem_cons.mp h with heq | hold
    · cases heq
      exact List.mem_cons_of_mem _ hdrew
    · exact List.mem_cons_of_mem _ (hinv.built_drew hold)
  built_once {h₁ h₂} h h' halloc := by
    rcases List.mem_cons.mp h with heq | hold
    · rcases List.mem_cons.mp h' with heq' | hold'
      · cases heq
        cases heq'
        rfl
      · cases heq
        exact absurd halloc.symm (hfresh h₂ hold')
    · rcases List.mem_cons.mp h' with heq' | hold'
      · cases heq'
        exact absurd halloc (hfresh h₁ hold)
      · exact hinv.built_once hold hold' halloc
  slot_built slot _ h := List.mem_cons_of_mem _ (hinv.slot_built slot h)

/-- An event of an install carries the number of that install. -/
theorem InstallEffect.event_owner {c : InstallCall} {tid : Nat} {rt rt' : KnowledgeRuntime π}
    {pc pc' : InstallPc π} {ev : Event π} (h : InstallEffect c tid rt pc rt' pc' (some ev)) :
    (∃ g, ev = .drew tid g) ∨ ∃ handle, ev = .built handle ∧ handle.allocation = tid := by
  cases h with
  | drawGeneration => exact .inl ⟨_, rfl⟩
  | build _ handle _ halloc => exact .inr ⟨handle, rfl, halloc⟩

/-- A call's assertion survives an event that is not of an install of its own
number. -/
theorem TaskHandles.append {j : Nat} {t : Task π} {log : List (Event π)} {e : Option (Event π)}
    (h : TaskHandles j t log) (hdrew : ∀ g, e ≠ some (.drew j g))
    (hbuilt : ∀ handle, e = some (.built handle) → handle.allocation ≠ j) :
    TaskHandles j t (e.toList ++ log) := by
  unfold TaskHandles at h ⊢
  split at h
  · intro g hg
    rcases mem_toList_append.mp hg with heq | hold
    · exact hdrew g heq
    · exact h g hold
  · refine ⟨List.mem_append_right _ h.1, fun handle hb => ?_⟩
    rcases mem_toList_append.mp hb with heq | hold
    · exact hbuilt handle heq
    · exact h.2 handle hold
  · exact fun handle hpc =>
      ⟨List.mem_append_right _ (h handle hpc).1, (h handle hpc).2⟩
  · exact fun handle hpc =>
      ⟨List.mem_append_right _ (h handle hpc).1, List.mem_append_right _ (h handle hpc).2⟩
  · trivial

/-- The handle an install works with stays the same. -/
theorem InstallEffect.taskHandles {c : InstallCall} {tid : Nat} {rt rt' : KnowledgeRuntime π}
    {pc pc' : InstallPc π} {e : Option (Event π)} {log : List (Event π)}
    (h : InstallEffect c tid rt pc rt' pc' e)
    (hinv : ∀ {handle}, .built handle ∈ log → .drew handle.allocation handle.generation ∈ log)
    (ht : TaskHandles tid (.install c pc) log) :
    TaskHandles tid (.install c pc') (e.toList ++ log) := by
  cases h with
  | drawGeneration =>
      refine ⟨by simp, fun handle hb halloc => ?_⟩
      have hold : Event.built handle ∈ log := by simpa using hb
      exact ht _ (halloc ▸ hinv hold)
  | build generation handle hgen halloc =>
      intro handle' hpc
      cases hpc
      exact ⟨by simp, halloc⟩
  | bumpNamedEpoch handle =>
      split
      · exact ht
      · exact ht
  | buildFailed => exact fun _ hpc => nomatch hpc
  | countFailure => exact fun _ hpc => nomatch hpc
  | countSuccess => exact fun _ hpc => nomatch hpc
  | insertNamed | enterEpoch | writeSlot | storeGeneration | leaveEpoch => exact ht

/-- What an install's step does to the invariant. -/
theorem InstallEffect.handleInv {c : InstallCall} {n tid : Nat} {x x' : Shared π}
    {pc pc' : InstallPc π} {e : Option (Event π)} {log : List (Event π)}
    (h : InstallEffect c tid x.runtime pc x'.runtime pc' e) (hclock : x'.clock = x.clock)
    (htid : tid < n) (hinv : HandleInv n x log) (ht : TaskHandles tid (.install c pc) log) :
    HandleInv n x' (e.toList ++ log) := by
  rcases x with ⟨rt, clock⟩
  rcases x' with ⟨rt', clock'⟩
  obtain rfl : clock' = clock := hclock
  -- the two steps that write a slot write the handle the install carries
  have hcarried : ∀ handle, pc.handle? = some handle → .built handle ∈ log := by
    intro handle hpc
    cases pc with
    | drawGeneration | build | countFailure | done => cases hpc
    | insertNamed | bumpNamedEpoch | enterEpoch | writeSlot | storeGeneration | leaveEpoch
    | countSuccess => exact (ht handle hpc).1
  cases h with
  | drawGeneration => exact hinv.drew htid ht
  | build generation handle hgen halloc =>
      refine hinv.built ?_ fun handle' hb => ?_
      · rw [hgen, halloc]
        exact ht.1
      · rw [halloc]
        exact ht.2 handle' hb
  | insertNamed handle =>
      refine hinv.quiet rfl (fun slot h hslot => ?_) (by simp)
      cases slot with
      | default => exact hinv.slot_built .default hslot
      | named name =>
          simp only [KnowledgeRuntime.handleAt] at hslot
          by_cases hname : name = c.name
          · rw [hname, AList.lookup_insert, Option.some.injEq] at hslot
            exact hslot ▸ hcarried handle rfl
          · rw [AList.lookup_insert_ne hname] at hslot
            exact hinv.slot_built (.named name) hslot
  | writeSlot handle =>
      refine hinv.quiet rfl (fun slot h hslot => ?_) (by simp)
      cases slot with
      | default =>
          simp only [KnowledgeRuntime.handleAt, Option.some.injEq] at hslot
          exact hslot ▸ hcarried handle rfl
      | named name => exact hinv.slot_built (.named name) hslot
  | buildFailed | countFailure | bumpNamedEpoch | enterEpoch | storeGeneration | leaveEpoch
  | countSuccess =>
      refine hinv.quiet rfl (fun slot h hslot => hinv.slot_built slot ?_) (by simp)
      cases slot <;> exact hslot

/-! ## Pruning -/

/-- Looking up a retained map. -/
theorem HashMap.lookup_retain {κ ν : Type} [DecidableEq κ] (m : HashMap κ ν) (keep : κ → Bool)
    (k : κ) : (m.retain keep).lookup k = if keep k then m.lookup k else none := by
  rcases m with ⟨entries, hnodup⟩
  simp only [HashMap.retain, AList.lookup]
  clear hnodup
  induction entries with
  | nil => simp
  | cons e es ih =>
      rcases e with ⟨k', v⟩
      by_cases hk : k = k'
      · subst hk
        cases hkeep : keep k <;> simp [hkeep, ih]
      · cases hkeep : keep k' <;> simp [hkeep, ih, List.dlookup_cons_ne (l := es) ⟨k', v⟩ hk,
          List.dlookup_cons_ne (l := es.filter fun e => keep e.1) ⟨k', v⟩ hk]

/-- Pruning only removes handles. -/
theorem KnowledgeRuntime.handleAt_prune {rt : KnowledgeRuntime π} {keep : List String}
    {slot : Slot} {h : ProviderHandle π}
    (hslot : (rt.pruneNamedProvidersExcept keep).handleAt slot = some h) :
    rt.handleAt slot = some h := by
  cases slot with
  | default => exact hslot
  | named name =>
      simp only [handleAt, pruneNamedProvidersExcept, HashMap.lookup_retain] at hslot
      split at hslot
      · exact hslot
      · cases hslot

/-! ## Whole runs -/

variable [DefaultHasher] [ValueText]

/-- One step of any call. -/
theorem handles_step {s : Pool (Shared π) (Task π) (Event π)} {tid : Nat} {input : Input π}
    {t t' : Task π} {x' : Shared π} {e : Option (Event π)}
    (hs : Pool.Holds HandleInv (fun j t _ log => TaskHandles j t log) s)
    (ht : s.tasks[tid]? = some t) (hstep : Task.step tid s.shared t input = some (x', t', e)) :
    HandleInv s.tasks.length x' (e.toList ++ s.log) ∧ TaskHandles tid t' (e.toList ++ s.log) ∧
      ∀ j u, j ≠ tid → s.tasks[j]? = some u → TaskHandles j u (e.toList ++ s.log) := by
  have htid : tid < s.tasks.length := (List.getElem?_eq_some_iff.mp ht).1
  have hown := hs.tasks ht
  rcases Task.step_cases hstep with ⟨c, pc, pc', rfl, rfl, hclock, heff⟩ | hprune | hquiet
  · refine ⟨heff.handleInv hclock htid hs.global hown,
      heff.taskHandles hs.global.built_drew hown, fun j u hj hu => (hs.tasks hu).append ?_ ?_⟩
    · rintro g rfl
      rcases heff.event_owner with ⟨g', heq⟩ | ⟨_, heq, _⟩
      · cases heq
        exact hj rfl
      · cases heq
    · rintro handle rfl
      rcases heff.event_owner with ⟨_, heq⟩ | ⟨_, heq, halloc⟩
      · cases heq
      · cases heq
        exact halloc ▸ hj.symm
  · rcases hprune with ⟨keep, rfl, rfl, rfl, rfl⟩
    exact ⟨hs.global.quiet rfl
      (fun slot _ hslot => hs.global.slot_built slot (KnowledgeRuntime.handleAt_prune hslot))
      (by simp),
      trivial, fun j u _ hu => hs.tasks hu⟩
  · rcases hquiet with ⟨-, hsame, hev, hkind⟩
    have hothers : ∀ j u, TaskHandles j u s.log → TaskHandles j u (e.toList ++ s.log) :=
      fun j u hu => hu.append (fun g heq => hev _ heq trivial)
        (fun handle heq => absurd trivial (hev _ heq))
    refine ⟨hs.global.quiet hsame.nextGeneration
      (fun slot h hslot => hs.global.slot_built slot (hsame.handleAt slot ▸ hslot)) hev, ?_,
      fun j u _ hu => hothers j u (hs.tasks hu)⟩
    rcases hkind with ⟨c, pc, pc', rfl, rfl, -⟩ | ⟨c, pc, pc', rfl, rfl, hexec⟩ |
      ⟨pc, pc', rfl, rfl, -⟩
    · trivial
    · intro handle hpc
      rcases ExecuteCall.step_handle? hexec hpc with hold | ⟨hslot, rfl⟩
      · exact hothers tid _ hown handle hold
      · exact ⟨List.mem_append_right _ (hs.global.slot_built _ hslot), by simp⟩
    · trivial

omit [DefaultHasher] [ValueText] in
theorem handleInv_init {x : Shared π} {capacity : Nat}
    (hx : x.runtime = KnowledgeRuntime.new π capacity) : HandleInv 0 x [] := by
  refine ⟨.nil, by simp, by simp, by simp, by simp, fun slot h hslot => ?_⟩
  cases slot <;> simp [KnowledgeRuntime.handleAt, hx, KnowledgeRuntime.new] at hslot

omit [DefaultHasher] [ValueText] in
/-- A call that begins. -/
theorem handles_spawn {s : Pool (Shared π) (Task π) (Event π)} (call : Call)
    (hs : Pool.Holds HandleInv (fun j t _ log => TaskHandles j t log) s) :
    HandleInv (s.tasks.length + 1) s.shared s.log ∧
      TaskHandles s.tasks.length (call.start : Task π) s.log := by
  refine ⟨⟨hs.global.ordered, fun hd => ?_, hs.global.drew_once, hs.global.built_drew,
    hs.global.built_once, hs.global.slot_built⟩, ?_⟩
  · rcases hs.global.drew_bound hd with ⟨h1, h2, h3⟩
    exact ⟨h1, h2, Nat.lt_succ_of_lt h3⟩
  · cases call with
    | install c =>
        intro g hd
        exact absurd (hs.global.drew_bound hd).2.2 (Nat.lt_irrefl _)
    | execute c => exact fun _ hpc => nomatch hpc
    | prune | configure | currentGeneration => trivial

omit [DefaultHasher] [ValueText] in
/-- An ambient change. -/
theorem handles_ambient {s : Pool (Shared π) (Task π) (Event π)} (d : Ambient)
    (hs : Pool.Holds HandleInv (fun j t _ log => TaskHandles j t log) s) :
    HandleInv s.tasks.length (s.shared.ambient d) s.log ∧
      ∀ j t, s.tasks[j]? = some t → TaskHandles j t s.log := by
  refine ⟨?_, fun j t ht => hs.tasks ht⟩
  cases d <;> exact ⟨hs.global.ordered, hs.global.drew_bound, hs.global.drew_once,
    hs.global.built_drew, hs.global.built_once, hs.global.slot_built⟩

/-- The invariant of handles and generations holds in every run, whatever guard
the run meets. -/
theorem handles_of_run
    {ok : Pool (Shared π) (Task π) (Event π) → PoolAction Call (Input π) Ambient → Prop}
    {as : List (PoolAction Call (Input π) Ambient)} {s : Pool (Shared π) (Task π) (Event π)}
    (h : (runtimeMachine π).Run ok as s) :
    Pool.Holds HandleInv (fun j t _ log => TaskHandles j t log) s := by
  refine Pool.pool_invariant ?_ ?_ ?_ ?_ h
  · rintro x ⟨capacity, hx⟩
    exact handleInv_init hx
  · intro s call hs _
    exact handles_spawn call hs
  · intro s d hs _
    exact handles_ambient d hs
  · intro s tid input t x t' e hs _ ht hstep
    exact handles_step hs ht hstep

end WpKnowledge
