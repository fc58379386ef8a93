import WpKnowledge.Runtime.Handles

/-!
# Overlapping reloads

An install draws its generation, builds its provider, and then commits: it
registers the handle under its name and, for a default install, writes the
provider slot and stores the generation for the fast path of
`current_generation`.  Each of these is a step of its own and no lock spans two
of them, so overlapping installs may commit in any order.  The counter of
generations and the epoch have 64 bits in the source; neither is taken to wrap.

Main results:

- Theorem {lit}`currentGeneration_agrees`: the fast path agrees with the slot
  whenever all installs have returned, provided no install writes the slot
  between another's slot write and its store of the generation.
- Theorem {lit}`currentGeneration_of_crossed_installs`: without that, two
  overlapping installs leave the fast path one generation behind for good.
- Theorem {lit}`generation_never_decreases`: no slot goes back to an older
  generation, provided installs commit in the order in which they drew.
- Theorem {lit}`generation_of_late_commit`: without that, a slow install
  replaces a newer provider by its older one.
-/

namespace WpKnowledge

open Foundation

variable {π : Type}

/-! ## The fast path and the slot -/

/-- The install is about to write the provider slot. -/
def Task.writesSlot : Task π → Bool
  | .install _ (.writeSlot _) => true
  | _ => false

/-- The install has written the provider slot and is about to store its
generation. -/
def Task.storesGeneration : Task π → Bool
  | .install _ (.storeGeneration _) => true
  | _ => false

/-- The install has not returned yet. -/
def Task.installing : Task π → Bool
  | .install _ (.done _) => false
  | .install _ _ => true
  | _ => false

/-- The guard of a run in which a default install writes the provider slot only
when no other one stands between its slot write and its store of the
generation. -/
def SlotWritesApart (s : Pool (Shared π) (Task π) (Event π)) :
    PoolAction Call (Input π) Ambient → Prop
  | .run tid _ => (s.tasks[tid]?).any Task.writesSlot = true →
      s.tasks.all (fun t => !t.storesGeneration) = true
  | _ => True

instance (s : Pool (Shared π) (Task π) (Event π)) (a : PoolAction Call (Input π) Ambient) :
    Decidable (SlotWritesApart s a) :=
  match a with
  | .run _ _ => inferInstanceAs (Decidable (_ → _))
  | .spawn _ => .isTrue trivial
  | .env _ => .isTrue trivial

/-- All installs have returned. -/
def InstallsReturned (s : Pool (Shared π) (Task π) (Event π)) : Prop :=
  ∀ t ∈ s.tasks, t.installing = false

instance (s : Pool (Shared π) (Task π) (Event π)) : Decidable (InstallsReturned s) :=
  inferInstanceAs (Decidable (∀ t ∈ s.tasks, _))

/-- The generation in the provider slot, zero for none. -/
def KnowledgeRuntime.slotGeneration (rt : KnowledgeRuntime π) : Nat :=
  (rt.provider.map ProviderHandle.generation).getD 0

/-- What relates the slot to the stored generation: an install that is about to
store has its handle in the slot, and if there is none the two agree. -/
structure SlotInv (s : Pool (Shared π) (Task π) (Event π)) : Prop where
  storing : ∀ {j : Nat} {c : InstallCall} {h : ProviderHandle π},
    s.tasks[j]? = some (.install c (.storeGeneration h)) → s.shared.runtime.provider = some h
  settled : (∀ t ∈ s.tasks, t.storesGeneration = false) →
    s.shared.runtime.currentGenerationValue = s.shared.runtime.slotGeneration

/-- A step of an install that neither writes the slot nor stores the generation
leaves both as they are. -/
theorem InstallEffect.slot_cases {c : InstallCall} {tid : Nat} {rt rt' : KnowledgeRuntime π}
    {pc pc' : InstallPc π} {e : Option (Event π)} (h : InstallEffect c tid rt pc rt' pc' e) :
    (∃ handle, pc = .writeSlot handle ∧ pc' = .storeGeneration handle ∧
        rt'.provider = some handle) ∨
      (∃ handle, pc = .storeGeneration handle ∧ pc' = .leaveEpoch handle ∧
        rt'.provider = rt.provider ∧ rt'.currentGenerationValue = handle.generation) ∨
      (rt'.provider = rt.provider ∧ rt'.currentGenerationValue = rt.currentGenerationValue ∧
        (∀ handle, pc ≠ .storeGeneration handle) ∧ ∀ handle, pc' ≠ .storeGeneration handle) := by
  cases h with
  | writeSlot handle => exact .inl ⟨handle, rfl, rfl, rfl⟩
  | storeGeneration handle => exact .inr (.inl ⟨handle, rfl, rfl, rfl, rfl⟩)
  | bumpNamedEpoch handle =>
      refine .inr (.inr ⟨rfl, rfl, by simp, fun h' => ?_⟩)
      split <;> simp
  | drawGeneration | build | buildFailed | countFailure | insertNamed | enterEpoch | leaveEpoch
  | countSuccess => exact .inr (.inr ⟨rfl, rfl, by simp, by simp⟩)

theorem Task.storesGeneration_eq_false {t : Task π}
    (h : ∀ c handle, t ≠ .install c (.storeGeneration handle)) : t.storesGeneration = false := by
  unfold Task.storesGeneration
  split
  · exact absurd rfl (h _ _)
  · rfl

/-- A step that touches neither the slot nor the stored generation, of a call
that is not about to store and will not be. -/
theorem SlotInv.quiet {s : Pool (Shared π) (Task π) (Event π)} (hinv : SlotInv s) {tid : Nat}
    {t t' : Task π} {x' : Shared π} {log' : List (Event π)} (ht : s.tasks[tid]? = some t)
    (hprovider : x'.runtime.provider = s.shared.runtime.provider)
    (hvalue : x'.runtime.currentGenerationValue = s.shared.runtime.currentGenerationValue)
    (hold : t.storesGeneration = false) (hnew : t'.storesGeneration = false) :
    SlotInv ⟨x', s.tasks.set tid t', log'⟩ where
  storing {j c h} hj := by
    rw [getElem?_set_of_getElem? ht] at hj
    split at hj
    · cases hj
      cases hnew
    · exact hprovider.trans (hinv.storing hj)
  settled hnone := by
    have hnone' : ∀ u ∈ s.tasks, u.storesGeneration = false := by
      intro u hu
      rcases (mem_iff_of_getElem? ht).mp hu with rfl | hother
      · exact hold
      · exact hnone u ((mem_set_of_getElem? ht).mpr (.inr hother))
    simp only [KnowledgeRuntime.slotGeneration, hprovider, hvalue]
    exact hinv.settled hnone'

section Runs

variable [DefaultHasher] [ValueText]

/-- One guarded step keeps the relation between the slot and the stored
generation. -/
theorem SlotInv.step {s s' : Pool (Shared π) (Task π) (Event π)}
    {a : PoolAction Call (Input π) Ambient} (hinv : SlotInv s) (hok : SlotWritesApart s a)
    (hstep : (runtimeMachine π).step s a = some s') : SlotInv s' := by
  cases a with
  | spawn call =>
      cases hstep
      refine ⟨fun {j c h} hj => ?_, fun hnone => hinv.settled fun t ht => hnone t (by simp [ht])⟩
      rcases getElem?_append_singleton hj with ⟨-, hstart⟩ | hold
      · cases call <;> cases hstart
      · exact hinv.storing hold
  | env d =>
      cases hstep
      cases d <;> exact ⟨hinv.storing, hinv.settled⟩
  | run tid input =>
      rcases TaskSystem.advance_run_iff.mp hstep with ⟨t, x, t', e, ht, hst, rfl⟩
      rcases Task.step_cases hst with ⟨c, pc, pc', rfl, rfl, -, heff⟩ |
        ⟨keep, rfl, rfl, -, rfl⟩ | ⟨-, hsame, -, hkind⟩
      · rcases heff.slot_cases with ⟨h, rfl, rfl, hprov⟩ | ⟨h, rfl, rfl, hprov, hval⟩ |
          ⟨hprov, hval, hpc, hpc'⟩
        · -- the guard: nobody else is about to store
          have hnone : s.tasks.all (fun t => !t.storesGeneration) = true := by
            refine hok ?_
            simp [ht, Task.writesSlot]
          refine ⟨fun {j c' h'} hj => ?_, fun hsettled => ?_⟩
          · rw [getElem?_set_of_getElem? ht] at hj
            split at hj
            · cases hj
              exact hprov
            · have hstoring := List.all_eq_true.mp hnone _ (List.mem_of_getElem? hj)
              simp [Task.storesGeneration] at hstoring
          · have hmem : Task.install c (.storeGeneration h) ∈
                s.tasks.set tid (.install c (.storeGeneration h)) :=
              (mem_set_of_getElem? ht).mpr (.inl rfl)
            cases hsettled _ hmem
        · have hslot := hinv.storing ht
          refine ⟨fun {j c' h'} hj => ?_, fun _ => ?_⟩
          · rw [getElem?_set_of_getElem? ht] at hj
            split at hj
            · cases hj
            · exact hprov.trans (hinv.storing hj)
          · simp [hval, KnowledgeRuntime.slotGeneration, hprov, hslot]
        · exact hinv.quiet ht hprov hval
            (Task.storesGeneration_eq_false fun c' h' heq => by cases heq; exact hpc _ rfl)
            (Task.storesGeneration_eq_false fun c' h' heq => by cases heq; exact hpc' _ rfl)
      · exact hinv.quiet ht rfl rfl rfl rfl
      · refine hinv.quiet ht hsame.provider hsame.currentGenerationValue ?_ ?_
        · rcases hkind with ⟨_, _, _, rfl, -⟩ | ⟨_, _, _, rfl, -⟩ | ⟨_, _, rfl, -⟩ <;> rfl
        · rcases hkind with ⟨_, _, _, -, rfl, -⟩ | ⟨_, _, _, -, rfl, -⟩ | ⟨_, _, -, rfl, -⟩ <;> rfl

theorem slotInv_of_run {as : List (PoolAction Call (Input π) Ambient)}
    {s : Pool (Shared π) (Task π) (Event π)}
    (h : (runtimeMachine π).Run SlotWritesApart as s) : SlotInv s := by
  refine Machine.Run.stateInvariant ?_ (fun s a s' hinv hok hs => hinv.step hok hs) h
  rintro ⟨x, tasks, log⟩ ⟨⟨capacity, hx⟩, rfl, rfl⟩
  obtain ⟨rt, clock⟩ := x
  obtain rfl : rt = KnowledgeRuntime.new π capacity := hx
  exact ⟨by simp, fun _ => rfl⟩

/-- **The fast path agrees with the slot.**  In every run in which no default
install writes the provider slot while another one stands between its slot write
and its store of the generation, `current_generation` returns the generation of
the default handle, or nothing if there is none, in every state in which all
installs have returned. -/
theorem currentGeneration_agrees {as : List (PoolAction Call (Input π) Ambient)}
    {s : Pool (Shared π) (Task π) (Event π)}
    (hrun : (runtimeMachine π).Run SlotWritesApart as s) (hreturned : InstallsReturned s) :
    s.shared.runtime.currentGeneration =
      s.shared.runtime.provider.map ProviderHandle.generation := by
  have hnone : ∀ t ∈ s.tasks, t.storesGeneration = false := by
    intro t ht
    have hdone := hreturned t ht
    unfold Task.storesGeneration
    split
    · cases hdone
    · rfl
  have hvalue := (slotInv_of_run hrun).settled hnone
  have hhandles := (handles_of_run hrun).global
  have hfast : generationOfValue s.shared.runtime.currentGenerationValue =
      s.shared.runtime.provider.map ProviderHandle.generation := by
    rw [hvalue, KnowledgeRuntime.slotGeneration]
    cases hprov : s.shared.runtime.provider with
    | none => rfl
    | some h =>
        have hb := hhandles.slot_built .default hprov
        have hpos := (hhandles.drew_bound (hhandles.built_drew hb)).1
        obtain ⟨g, hg⟩ : ∃ g, h.generation = g + 1 := ⟨h.generation - 1, by omega⟩
        simp [hg, generationOfValue]
  by_cases hodd : s.shared.runtime.providerEpoch % 2 = 1
  · simp [KnowledgeRuntime.currentGeneration, hodd,
      KnowledgeRuntime.currentGenerationFromProvider]
  · simpa [KnowledgeRuntime.currentGeneration, hodd] using hfast

end Runs

/-- Two default installs, one after the other. -/
def separateInstalls : List PlainAction :=
  ([.spawn (.install (.installProvider .postgres ⟨"postgres:a"⟩))] : List PlainAction) ++
  installSteps 0 7 ++
  ([.spawn (.install (.installProvider .postgres ⟨"postgres:a"⟩))] : List PlainAction) ++
  installSteps 1 7

theorem currentGeneration_agrees_separate_installs :
    letI := sipHasher
    letI := numericText
    ∃ s, (runtimeMachine Unit).Run SlotWritesApart separateInstalls s ∧ InstallsReturned s ∧
      s.shared.runtime.currentGeneration =
        s.shared.runtime.provider.map ProviderHandle.generation ∧
      s.shared.runtime.currentGeneration = some 2 := by
  let _ := sipHasher
  let _ := numericText
  have hexec : ((runtimeMachine Unit).exec SlotWritesApart (newPool Unit 4) separateInstalls).any
      (fun s => decide (InstallsReturned s ∧ s.shared.runtime.currentGeneration = some 2)) =
        true := by decide +kernel
  rcases Machine.exists_run_of_exec_any (newPool_init Unit 4) hexec with ⟨s, hrun, hend⟩
  rcases of_decide_eq_true hend with ⟨hreturned, hgeneration⟩
  exact ⟨s, hrun, hreturned, currentGeneration_agrees hrun hreturned, hgeneration⟩

/-- Two default installs.  The first writes the slot, then the second writes the
slot and stores its generation, then the first stores its own. -/
def crossedInstalls : List PlainAction :=
  ([.spawn (.install (.installProvider .postgres ⟨"postgres:a"⟩)),
    .spawn (.install (.installProvider .postgres ⟨"postgres:a"⟩))] : List PlainAction) ++
  installSteps 0 4 ++ installSteps 1 7 ++ List.replicate 3 (.run 0 .go : PlainAction)

/-- After crossed installs `current_generation` reports the first generation
while queries run on the second. -/
theorem currentGeneration_of_crossed_installs :
    letI := sipHasher
    letI := numericText
    ∃ s, (runtimeMachine Unit).Run Machine.Unguarded crossedInstalls s ∧ InstallsReturned s ∧
      s.shared.runtime.currentGeneration = some 1 ∧
      s.shared.runtime.provider.map ProviderHandle.generation = some 2 := by
  let _ := sipHasher
  let _ := numericText
  have hexec : ((runtimeMachine Unit).exec Machine.Unguarded (newPool Unit 4)
      crossedInstalls).any (fun s => decide (InstallsReturned s ∧
        s.shared.runtime.currentGeneration = some 1 ∧
        s.shared.runtime.provider.map ProviderHandle.generation = some 2)) = true := by
    decide +kernel
  rcases Machine.exists_run_of_exec_any (newPool_init Unit 4) hexec with ⟨s, hrun, hend⟩
  exact ⟨s, hrun, of_decide_eq_true hend⟩

/-! ## The order of commits -/

/-- The installs in the order in which they drew their generations, the latest
first. -/
def drawOrder : List (Event π) → List Nat
  | [] => []
  | .drew tid _ :: log => tid :: drawOrder log
  | _ :: log => drawOrder log

/-- The install `tid` drew its generation before `tid'` drew its own. -/
def DrewBefore (log : List (Event π)) (tid tid' : Nat) : Prop :=
  tid ∈ ((drawOrder log).dropWhile (· != tid')).tail

instance (log : List (Event π)) (tid tid' : Nat) : Decidable (DrewBefore log tid tid') :=
  inferInstanceAs (Decidable (_ ∈ _))

/-- The slot a call is about to write, with the handle it writes. -/
def Task.commit? : Task π → Option (Slot × ProviderHandle π)
  | .install c (.insertNamed handle) => some (.named c.name, handle)
  | .install _ (.writeSlot handle) => some (.default, handle)
  | _ => none

/-- The guard of a run in which an install writes a slot only if the install
whose handle is there did not draw its generation after it. -/
def CommitsInDrawOrder (s : Pool (Shared π) (Task π) (Event π)) :
    PoolAction Call (Input π) Ambient → Prop
  | .run tid _ => ∀ commit ∈ (s.tasks[tid]?).bind Task.commit?,
      ∀ h ∈ s.shared.runtime.handleAt commit.1, ¬ DrewBefore s.log tid h.allocation
  | _ => True

instance (s : Pool (Shared π) (Task π) (Event π)) (a : PoolAction Call (Input π) Ambient) :
    Decidable (CommitsInDrawOrder s a) :=
  match a with
  | .run _ _ => inferInstanceAs (Decidable (∀ commit ∈ _, ∀ h ∈ _, _))
  | .spawn _ => .isTrue trivial
  | .env _ => .isTrue trivial

/-- A step of `prune_named_providers_except` that removes the name of a slot. -/
def Prunes (slot : Slot) (s : Pool (Shared π) (Task π) (Event π)) :
    PoolAction Call (Input π) Ambient → Prop
  | .run tid _ => ∃ name keep, slot = .named name ∧ name ∉ keep ∧
      s.tasks[tid]? = some (.prune keep false)
  | _ => False

theorem mem_drawOrder {log : List (Event π)} {tid : Nat} :
    tid ∈ drawOrder log ↔ ∃ g, .drew tid g ∈ log := by
  induction log with
  | nil => simp [drawOrder]
  | cons e log ih =>
      cases e with
      | drew t g =>
          rw [drawOrder, List.mem_cons, ih]
          constructor
          · rintro (rfl | ⟨g', hg'⟩)
            · exact ⟨g, List.mem_cons_self⟩
            · exact ⟨g', List.mem_cons_of_mem _ hg'⟩
          · rintro ⟨g', hg'⟩
            rcases List.mem_cons.mp hg' with heq | hold
            · cases heq
              exact .inl rfl
            · exact .inr ⟨g', hold⟩
      | built | resolved | hit | produced | stored | ttlConfigured => simp [drawOrder, ih]

/-- The order of drawing is the order of the generations drawn. -/
theorem drewBefore_iff {log : List (Event π)} (hordered : Justified DrawnInOrder log)
    {t t' g g' : Nat} (ht : .drew t g ∈ log) (ht' : .drew t' g' ∈ log)
    (honce : ∀ {t g g'}, .drew t g ∈ log → .drew t g' ∈ log → g = g') :
    DrewBefore log t t' ↔ g < g' := by
  induction hordered with
  | nil => cases ht
  | @cons e log hJ hrest ih =>
      have honce' : ∀ {t g g'}, .drew t g ∈ log → .drew t g' ∈ log → g = g' := fun h h' =>
        honce (List.mem_cons_of_mem _ h) (List.mem_cons_of_mem _ h')
      -- an install that draws now has not drawn before
      have hfresh : ∀ {t g}, e = .drew t g → t ∉ drawOrder log := by
        intro t₁ g₁ he hmem
        rcases mem_drawOrder.mp hmem with ⟨g₂, hg₂⟩
        have hlt := hJ t₁ g₁ he t₁ g₂ hg₂
        have hnew : Event.drew t₁ g₁ ∈ e :: log := by
          rw [he]
          exact List.mem_cons_self
        have heq := honce (List.mem_cons_of_mem _ hg₂) hnew
        omega
      rcases List.mem_cons.mp ht with he | hold
      · -- `t` draws last, so it drew before nobody
        subst he
        have hnot : ¬ DrewBefore (.drew t g :: log) t t' := by
          intro hbefore
          unfold DrewBefore at hbefore
          rw [drawOrder, List.dropWhile_cons] at hbefore
          split at hbefore
          · exact hfresh rfl (List.dropWhile_subset _ (List.mem_of_mem_tail hbefore))
          · exact hfresh rfl hbefore
        rcases List.mem_cons.mp ht' with he' | hold'
        · cases he'
          exact iff_of_false hnot (Nat.lt_irrefl _)
        · have hlt := hJ t g rfl t' g' hold'
          exact iff_of_false hnot (by omega)
      · rcases List.mem_cons.mp ht' with he' | hold'
        · subst he'
          refine iff_of_true ?_ (hJ t' g' rfl t g hold)
          simp only [DrewBefore, drawOrder, List.dropWhile_cons, bne_self_eq_false]
          exact mem_drawOrder.mpr ⟨g, hold⟩
        · rw [← ih hold hold' honce']
          cases e with
          | drew t₁ g₁ =>
              have hne : t₁ ≠ t' := by
                rintro rfl
                exact hfresh rfl (mem_drawOrder.mpr ⟨g', hold'⟩)
              simp [DrewBefore, drawOrder, hne]
          | built | resolved | hit | produced | stored | ttlConfigured => rfl

/-- An install writes one slot in a step, or none. -/
theorem InstallEffect.handleAt_cases {c : InstallCall} {tid : Nat}
    {rt rt' : KnowledgeRuntime π} {pc pc' : InstallPc π} {e : Option (Event π)}
    (h : InstallEffect c tid rt pc rt' pc' e) :
    (∃ slot handle, (Task.install c pc).commit? = some (slot, handle) ∧
        rt'.handleAt slot = some handle ∧
        ∀ slot', slot' ≠ slot → rt'.handleAt slot' = rt.handleAt slot') ∨
      ((Task.install c pc).commit? = none ∧ ∀ slot, rt'.handleAt slot = rt.handleAt slot) := by
  cases h with
  | insertNamed handle =>
      refine .inl ⟨.named c.name, handle, rfl, AList.lookup_insert _, fun slot' hne => ?_⟩
      cases slot' with
      | default => rfl
      | named name => exact AList.lookup_insert_ne fun heq => hne (heq ▸ rfl)
  | writeSlot handle =>
      refine .inl ⟨.default, handle, rfl, rfl, fun slot' hne => ?_⟩
      cases slot' with
      | default => exact absurd rfl hne
      | named name => rfl
  | drawGeneration | build | buildFailed | countFailure | bumpNamedEpoch | enterEpoch
  | storeGeneration | leaveEpoch | countSuccess =>
      exact .inr ⟨rfl, fun slot => by cases slot <;> rfl⟩

/-- What an install writes, it has built from the generation it drew. -/
theorem drew_of_commit {tid : Nat} {t : Task π} {log : List (Event π)} {slot : Slot}
    {h : ProviderHandle π} (hown : TaskHandles tid t log) (hcommit : t.commit? = some (slot, h)) :
    .built h ∈ log ∧ h.allocation = tid := by
  unfold Task.commit? at hcommit
  split at hcommit
  · cases hcommit
    exact hown _ rfl
  · cases hcommit
    exact hown _ rfl
  · cases hcommit

section Runs

variable [DefaultHasher] [ValueText]

/-- The condition is exact: from a reached state, a step is in the order of
drawing if and only if it takes no slot back to an older generation, removals of
a name by pruning apart. -/
theorem commitsInDrawOrder_iff {s s' : Pool (Shared π) (Task π) (Event π)}
    {a : PoolAction Call (Input π) Ambient}
    (hs : Pool.Holds HandleInv (fun j t _ log => TaskHandles j t log) s)
    (hstep : (runtimeMachine π).step s a = some s') :
    CommitsInDrawOrder s a ↔
      ∀ slot h, ¬ Prunes slot s a → s.shared.runtime.handleAt slot = some h →
        ∃ h', s'.shared.runtime.handleAt slot = some h' ∧ h.generation ≤ h'.generation := by
  cases a with
  | spawn call =>
      cases hstep
      exact iff_of_true trivial fun slot h _ hh => ⟨h, hh, Nat.le_refl _⟩
  | env d =>
      cases hstep
      refine iff_of_true trivial fun slot h _ hh => ⟨h, ?_, Nat.le_refl _⟩
      cases d <;> cases slot <;> exact hh
  | run tid input =>
      rcases TaskSystem.advance_run_iff.mp hstep with ⟨t, x, t', e, ht, hst, rfl⟩
      -- the condition speaks of nothing if the call writes no slot
      have hnone : t.commit? = none → CommitsInDrawOrder s (.run tid input) := by
        intro hc commit hmem
        simp [ht, hc] at hmem
      rcases Task.step_cases hst with ⟨c, pc, pc', rfl, rfl, -, heff⟩ |
        ⟨keep, rfl, rfl, -, rfl⟩ | ⟨-, hsame, -, hkind⟩
      · rcases heff.handleAt_cases with ⟨slot₀, h₀, hc, hwritten, hothers⟩ | ⟨hc, hsame⟩
        · rcases drew_of_commit (hs.tasks ht) hc with ⟨hb₀, halloc⟩
          have hbefore : ∀ h, s.shared.runtime.handleAt slot₀ = some h →
              (DrewBefore s.log tid h.allocation ↔ h₀.generation < h.generation) := by
            intro h hh
            have hdrew := hs.global.built_drew hb₀
            rw [halloc] at hdrew
            exact drewBefore_iff hs.global.ordered hdrew
              (hs.global.built_drew (hs.global.slot_built slot₀ hh)) hs.global.drew_once
          constructor
          · intro hok slot h _ hh
            by_cases hslot : slot = slot₀
            · subst hslot
              have hnot := hok (slot, h₀) (by simp [ht, hc]) h hh
              rw [hbefore h hh] at hnot
              exact ⟨h₀, hwritten, Nat.le_of_not_lt hnot⟩
            · exact ⟨h, (hothers slot hslot).trans hh, Nat.le_refl _⟩
          · intro hkept commit hmem h hh hdrew
            obtain rfl : commit = (slot₀, h₀) := by
              simpa [ht, hc, eq_comm] using hmem
            have hprunes : ¬ Prunes slot₀ s (.run tid input) := by
              rintro ⟨name, keep, -, -, hprune⟩
              rw [ht] at hprune
              cases hprune
            rcases hkept slot₀ h hprunes hh with ⟨h', hh', hle⟩
            rw [hwritten, Option.some.injEq] at hh'
            subst hh'
            exact absurd ((hbefore h hh).mp hdrew) (Nat.not_lt.mpr hle)
        · exact iff_of_true (hnone hc) fun slot h _ hh =>
            ⟨h, (hsame slot).trans hh, Nat.le_refl _⟩
      · refine iff_of_true (hnone rfl) fun slot h hprunes hh => ⟨h, ?_, Nat.le_refl _⟩
        cases slot with
        | default => exact hh
        | named name =>
            have hkeep : name ∈ keep := by
              by_contra hnot
              exact hprunes ⟨name, keep, rfl, hnot, ht⟩
            simp only [KnowledgeRuntime.handleAt, KnowledgeRuntime.pruneNamedProvidersExcept,
              HashMap.lookup_retain, hkeep, decide_true, if_true]
            exact hh
      · have hc : t.commit? = none := by
          rcases hkind with ⟨_, _, _, rfl, -⟩ | ⟨_, _, _, rfl, -⟩ | ⟨_, _, rfl, -⟩ <;> rfl
        exact iff_of_true (hnone hc) fun slot h _ hh =>
          ⟨h, (hsame.handleAt slot).trans hh, Nat.le_refl _⟩

/-- **No reload is lost to an older one.**  In every run in which an install
writes a slot only if the install whose handle is there did not draw its
generation after it, the generation in the default slot never decreases, and
neither does the generation registered under a name as long as the name is not
pruned. -/
theorem generation_never_decreases {as bs : List (PoolAction Call (Input π) Ambient)}
    {s s' : Pool (Shared π) (Task π) (Event π)} {slot : Slot} {h : ProviderHandle π}
    (hrun : (runtimeMachine π).Run CommitsInDrawOrder as s)
    (hsteps : (runtimeMachine π).Steps
      (fun s a => CommitsInDrawOrder s a ∧ ¬ Prunes slot s a) s bs s')
    (hh : s.shared.runtime.handleAt slot = some h) :
    ∃ h', s'.shared.runtime.handleAt slot = some h' ∧ h.generation ≤ h'.generation := by
  refine Machine.Run.steps_invariant
    (P := fun s' => ∃ h', s'.shared.runtime.handleAt slot = some h' ∧ h.generation ≤ h'.generation)
    (fun _ _ hok => hok.1) hrun ?_ hsteps ⟨h, hh, Nat.le_refl _⟩
  rintro as s₁ a s₂ hrun₁ ⟨h₁, hh₁, hle₁⟩ ⟨hok, hprunes⟩ hstep
  rcases (commitsInDrawOrder_iff (handles_of_run hrun₁) hstep).mp hok slot h₁ hprunes hh₁ with
    ⟨h₂, hh₂, hle₂⟩
  exact ⟨h₂, hh₂, Nat.le_trans hle₁ hle₂⟩

end Runs

/-- Pruning never touches the default slot. -/
theorem not_prunes_default (s : Pool (Shared π) (Task π) (Event π))
    (a : PoolAction Call (Input π) Ambient) : ¬ Prunes .default s a := by
  cases a with
  | run tid input =>
      rintro ⟨name, keep, heq, -⟩
      cases heq
  | spawn | env => exact fun h => h

/-- Two overlapping default installs; the first draws first and commits. -/
def firstCommit : List PlainAction :=
  ([.spawn (.install (.installProvider .postgres ⟨"postgres:a"⟩)),
    .spawn (.install (.installProvider .postgres ⟨"postgres:a"⟩)), .run 0 .go, .run 1 .go,
    .run 0 (.built (.ok ()))] : List PlainAction) ++ List.replicate 7 (.run 0 .go : PlainAction)

/-- The second one commits after it. -/
def secondCommit : List PlainAction :=
  ([.run 1 (.built (.ok ()))] : List PlainAction) ++ List.replicate 7 (.run 1 .go : PlainAction)

theorem generation_never_decreases_two_commits :
    letI := sipHasher
    letI := numericText
    ∃ s s' h, (runtimeMachine Unit).Run CommitsInDrawOrder firstCommit s ∧
      (runtimeMachine Unit).Steps
        (fun s a => CommitsInDrawOrder s a ∧ ¬ Prunes .default s a) s secondCommit s' ∧
      s.shared.runtime.handleAt .default = some h ∧
      s'.shared.runtime.slotGeneration = 2 ∧
      ∃ h', s'.shared.runtime.handleAt .default = some h' ∧ h.generation ≤ h'.generation := by
  let _ := sipHasher
  let _ := numericText
  have hexec : ((runtimeMachine Unit).exec CommitsInDrawOrder (newPool Unit 4) firstCommit).any
      (fun s => s.shared.runtime.provider.isSome &&
        ((runtimeMachine Unit).exec CommitsInDrawOrder s secondCommit).any
          fun s' => decide (s'.shared.runtime.slotGeneration = 2)) = true := by
    decide +kernel
  rcases Machine.exists_run_of_exec_any (newPool_init Unit 4) hexec with ⟨s, hrun, hend⟩
  rw [Bool.and_eq_true] at hend
  rcases Option.isSome_iff_exists.mp hend.1 with ⟨h, hh⟩
  rcases (Option.any_eq_true _ _).mp hend.2 with ⟨s', hs', hgeneration⟩
  have hsteps : (runtimeMachine Unit).Steps
      (fun s a => CommitsInDrawOrder s a ∧ ¬ Prunes .default s a) s secondCommit s' :=
    (Machine.steps_of_exec hs').mono fun s a hok => ⟨hok, not_prunes_default s a⟩
  exact ⟨s, s', h, hrun, hsteps, hh, of_decide_eq_true hgeneration,
    generation_never_decreases hrun hsteps hh⟩

/-- Two overlapping default installs.  The first draws its generation and builds
slowly; the second draws later and commits; then the first goes on until it
writes the slot. -/
def lateCommit : List PlainAction :=
  ([.spawn (.install (.installProvider .postgres ⟨"postgres:a"⟩)),
    .spawn (.install (.installProvider .postgres ⟨"postgres:a"⟩)), .run 0 .go] :
    List PlainAction) ++ installSteps 1 7 ++
  ([.run 0 (.built (.ok ()))] : List PlainAction) ++ List.replicate 3 (.run 0 .go : PlainAction)

/-- The slow install puts generation 1 in the slot that held generation 2. -/
theorem generation_of_late_commit :
    letI := sipHasher
    letI := numericText
    ∃ s s', (runtimeMachine Unit).Run Machine.Unguarded lateCommit s ∧
      (runtimeMachine Unit).step s (.run 0 .go) = some s' ∧
      s.shared.runtime.provider.map ProviderHandle.generation = some 2 ∧
      s'.shared.runtime.provider.map ProviderHandle.generation = some 1 := by
  let _ := sipHasher
  let _ := numericText
  have hexec : ((runtimeMachine Unit).exec Machine.Unguarded (newPool Unit 4) lateCommit).any
      (fun s => decide (s.shared.runtime.provider.map ProviderHandle.generation = some 2) &&
        ((runtimeMachine Unit).step s (.run 0 .go)).any
          fun s' => decide (s'.shared.runtime.provider.map ProviderHandle.generation = some 1)) =
        true := by decide +kernel
  rcases Machine.exists_run_of_exec_any (newPool_init Unit 4) hexec with ⟨s, hrun, hend⟩
  rw [Bool.and_eq_true] at hend
  rcases (Option.any_eq_true _ _).mp hend.2 with ⟨s', hs', hgeneration⟩
  exact ⟨s, s', hrun, hs', of_decide_eq_true hend.1, of_decide_eq_true hgeneration⟩

end WpKnowledge
