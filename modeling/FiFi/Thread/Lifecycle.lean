import FiFi.Thread.Reap

/-!
# What the thread functions keep

Each thread function keeps the invariant, and leaves to the threads it is not
about what they own. `Keeps σ σ' j` says the latter for the thread in slot `j`;
it composes over the parts of a function.
-/

namespace FiFi.Thread

open Pmm Vmm Fork Syscall

/-- The thread in slot `j` has what it had: the page map with all its contents
and the kernel stack. -/
structure Keeps (σ σ' : Sys) (j : Fin 32) : Prop where
  owns : ∀ r, Owns (σ.threads j) r → Owns (σ'.threads j) r
  maps : ∀ r, Owns (σ.threads j) r → Kept σ.vmm σ'.vmm r
  base : (σ'.threads j).stackBase = (σ.threads j).stackBase
  kstack : (σ.threads j).stackBase ≠ 0 →
    stackFrames σ'.vmm (σ.threads j).stackBase = stackFrames σ.vmm (σ.threads j).stackBase

theorem Keeps.refl (σ : Sys) (j : Fin 32) : Keeps σ σ j :=
  ⟨fun _ h => h, fun r _ => Kept.refl _ r, rfl, fun _ => rfl⟩

theorem Keeps.trans {σ σ' σ'' : Sys} {j : Fin 32} (h : Keeps σ σ' j) (h' : Keeps σ' σ'' j) :
    Keeps σ σ'' j := by
  refine ⟨fun r hr => h'.owns r (h.owns r hr),
    fun r hr => (h.maps r hr).trans (h'.maps r (h.owns r hr)), h'.base.trans h.base, fun hb => ?_⟩
  have hstep := h'.kstack
  rw [h.base] at hstep
  rw [hstep hb, h.kstack hb]

theorem Keeps.owned {σ σ' : Sys} {j : Fin 32} (h : Keeps σ σ' j) : Owned σ j ⊆ Owned σ' j := by
  rintro p (⟨r, hr, hp⟩ | ⟨hb, hp⟩)
  · rw [← mapPages_kept (h.maps r hr)] at hp
    exact Or.inl ⟨r, h.owns r hr, hp⟩
  · rw [← h.kstack hb] at hp
    refine Or.inr ⟨?_, ?_⟩
    · rwa [h.base]
    · rwa [h.base]

/-- Loading another page map changes nothing in memory. -/
theorem Keeps.switch {σ σ' : Sys} {j : Fin 32} (h : Keeps σ σ' j) (root : Nat) (cur : Fin 32) :
    Keeps σ { σ' with vmm := vmmSwitchTo σ'.vmm root, cur := cur } j :=
  ⟨h.owns, fun r hr => ⟨(h.maps r hr).entries, (h.maps r hr).pages⟩, h.base, h.kstack⟩

theorem Reaped.keeps {S : Set (Fin 32)} {X : Set Nat} {σ σ' : Sys} (h : Reaped S X σ σ')
    {j : Fin 32} (hj : j ∉ S) : Keeps σ σ' j := by
  refine ⟨fun r hr => ?_, h.roots j hj, ?_, h.kstacks j hj⟩
  · rwa [h.others j hj]
  · rw [h.others j hj]

section

variable {D : Domain} {L : List Nat} {X : Set Nat} {σ : Sys}

/-- Changing a thread keeps what the others own. -/
theorem keeps_other {i j : Fin 32} {t : Task} (hj : j ≠ i) : Keeps σ (σ.setTask i t) j := by
  have heq : (σ.setTask i t).threads j = σ.threads j := Function.update_of_ne hj _ _
  exact ⟨fun r hr => by rwa [heq], fun r _ => Kept.refl _ r, by rw [heq], fun _ => rfl⟩

/-- Changing a thread without changing what it owns. -/
theorem keeps_setTask {i : Fin 32} {t : Task} (howns : ∀ r, Owns (σ.threads i) r → Owns t r)
    (hbase : t.stackBase = (σ.threads i).stackBase) (j : Fin 32) : Keeps σ (σ.setTask i t) j := by
  by_cases hj : j = i
  · subst hj
    refine ⟨fun r hr => ?_, fun r _ => Kept.refl _ r, ?_, fun _ => rfl⟩
    · change Owns (Function.update σ.threads j t j) r
      rw [Function.update_self]
      exact howns r hr
    · change (Function.update σ.threads j t j).stackBase = _
      rw [Function.update_self, hbase]
  · exact keeps_other hj

/-- The memory changes where the thread in slot `j` has nothing. -/
theorem SysInv.keeps (h : SysInv D L X σ) {D' : Domain} {L' : List Nat} {next : Nat}
    {s' : VmmState} {U : Set Nat} {V : Set (List Nat)} (hmem : MemInv D' L' next s')
    (hker : D'.kernel = D.kernel) (hunt : Untouched D U V σ.vmm s') {j : Fin 32}
    (hU : ∀ r, Owns (σ.threads j) r → r ∈ U)
    (hV : (σ.threads j).stackBase ≠ 0 → ∀ k < stackPages,
      vaPath (alignDown (σ.threads j).stackBase + k * pageSize) ∉ V) :
    Keeps σ { σ with vmm := s', nextPageVirt := next } j := by
  refine ⟨fun _ hr => hr, fun r hr => hunt.roots r (hU r hr), rfl, fun hb => ?_⟩
  refine stackFrames_congr ?_ fun k hk => ?_
  · change s'.kernelCr3 = _
    rw [hmem.kernelCr3, h.mem.kernelCr3, hker]
  · rw [h.mem.kernelCr3]
    exact hunt.leaves _ (h.stack_pos hb hk) rfl (hV hb k hk)

theorem MemInv.switch {next : Nat} {s : VmmState} (h : MemInv D L next s) (root : Nat) :
    MemInv D L next (vmmSwitchTo s root) :=
  ⟨⟨h.forest.pmm, h.forest.stop_le, h.forest.apart, h.forest.root, h.forest.tables, h.forest.used,
    h.forest.kernel, h.forest.held, h.forest.held_apart⟩, h.kernelCr3, h.kernel_ne,
    ⟨h.shared.upper, h.shared.lt, h.shared.mem_slots, h.shared.entries, h.shared.first_slot,
      h.shared.mapped⟩, h.next_mod, h.next_lo, h.next_hi, h.above⟩

/-- Page maps do not start at the address zero. -/
theorem SysInv.user_ne_zero (h : SysInv D L X σ) {r : Nat} (hr : r ∈ D.user) : r ≠ 0 := by
  have hroot := h.mem.forest.root r (Or.inl hr)
  obtain ⟨-, hmin, -⟩ := h.mem.forest.used r [] r (pos_nil (Or.inl hr)) (Or.inl hr) rfl
  rintro rfl
  rw [hroot] at hmin
  exact absurd hmin (by decide)

/-! ### States of threads -/

theorem TaskOk.setState {next : Nat} {t : Task} (h : TaskOk next t) {st : TState}
    (hst : st ≠ .unused) (hchild : t.arg = none ∨ st = .ready ∨ st = .running) :
    TaskOk next { t with state := st } where
  child := fun root harg => by
    refine ⟨(h.child root harg).1, hchild.resolve_left ?_⟩
    rw [show t.arg = some root from harg]
    simp
  noMaps := h.noMaps
  unused := fun hu => absurd hu hst
  stack := h.stack

theorem setTask_current_cr3 {i : Fin 32} {t : Task} (h : t.cr3 = (σ.threads i).cr3) :
    (σ.setTask i t).current.cr3 = σ.current.cr3 := by
  change (Function.update σ.threads i t σ.cur).cr3 = (σ.threads σ.cur).cr3
  by_cases hi : σ.cur = i
  · rw [hi, Function.update_self, h]
  · rw [Function.update_of_ne hi]

/-- A thread gets another state. -/
theorem SysInv.setState (h : SysInv D L X σ) (i : Fin 32) (st : TState) (hst : st ≠ .unused)
    (hchild : (σ.threads i).arg = none ∨ st = .ready ∨ st = .running)
    (hmain : i = 0 → st = .dead ∨ st = .zombie → (σ.threads i).cr3 = 0) :
    SysInv D L X (σ.setTask i { σ.threads i with state := st }) := by
  refine ⟨h.mem, h.tasks.setSame ((h.tasks.each i).setState hst hchild) (fun _ => Iff.rfl) rfl
    hmain, ?_⟩
  rw [setTask_current_cr3 (i := i) (t := { σ.threads i with state := st }) rfl]
  exact h.loaded

/-- The thread in slot `next` runs, with its page map loaded. -/
theorem SysInv.runNext (h : SysInv D L X σ) (next : Fin 32) {σ' : Sys}
    (heq : σ' = { σ.setTask next { σ.threads next with state := .running } with
      cur := next
      vmm := vmmSwitchTo σ.vmm
        (if (σ.threads next).cr3 ≠ 0 then (σ.threads next).cr3 else σ.vmm.kernelCr3) }) :
    SysInv D L X σ' ∧ ∀ j, Keeps σ σ' j := by
  subst heq
  have h1 := h.setState next .running (by simp) (Or.inr (Or.inr rfl)) (by simp)
  have hk : ∀ j, Keeps σ (σ.setTask next { σ.threads next with state := .running }) j :=
    keeps_setTask (fun _ hr => hr) rfl
  refine ⟨⟨h1.mem.switch _, h1.tasks, ?_⟩, fun j => (hk j).switch _ next⟩
  simp only [Sys.current, Sys.setTask, vmmSwitchTo, Function.update_self]
  by_cases hne : (σ.threads next).cr3 = 0
  · simp [hne, h.mem.kernelCr3, h.mem.kernel_ne]
  · simp [hne]

/-- The switch at the end of `thread_yield`. -/
theorem SysInv.switchTo (h : SysInv D L X σ) (next : Fin 32) :
    SysInv D L X (switchTo σ next) ∧ ∀ j, Keeps σ (switchTo σ next) j := by
  unfold Thread.switchTo
  by_cases hrun : σ.current.state = .running
  · -- the thread that ran becomes ready
    have h1 := h.setState σ.cur .ready (by simp) (Or.inr (Or.inl rfl)) (by simp)
    have hk : ∀ j, Keeps σ (σ.setTask σ.cur { σ.current with state := .ready }) j :=
      keeps_setTask (fun _ hr => hr) rfl
    obtain ⟨h2, hk2⟩ := h1.runNext next rfl
    simp only [if_pos hrun]
    exact ⟨h2, fun j => (hk j).trans (hk2 j)⟩
  · simp only [if_neg hrun]
    exact h.runNext next rfl

theorem switchTo_pmm (σ : Sys) (next : Fin 32) : (switchTo σ next).vmm.pmm = σ.vmm.pmm := by
  unfold switchTo
  by_cases hrun : σ.current.state = .running
  · simp only [if_pos hrun]
    rfl
  · simp only [if_neg hrun]
    rfl

/-- `thread_yield`. -/
theorem SysInv.threadYield (h : SysInv D L X σ) {pick : Option (Fin 32)} {σ' : Sys}
    (heq : threadYield σ pick = some σ') :
    ∃ D' L', SysInv D' L' X σ' ∧ (∀ j, j ∉ deadSlots σ → Keeps σ σ' j) ∧
      freePhys σ.vmm.pmm ⊆ freePhys σ'.vmm.pmm := by
  obtain ⟨D', L', h', -, hr⟩ := h.threadReapDead
  unfold Thread.threadYield at heq
  cases pick with
  | none =>
      simp only [Option.ite_none_right_eq_some, Option.some.injEq] at heq
      obtain ⟨-, rfl⟩ := heq
      exact ⟨D', L', h', fun j hj => hr.keeps hj, hr.mono⟩
  | some i =>
      simp only [Option.ite_none_right_eq_some, Option.some.injEq] at heq
      obtain ⟨-, rfl⟩ := heq
      obtain ⟨h2, hk⟩ := h'.switchTo i
      refine ⟨D', L', h2, fun j hj => (hr.keeps hj).trans (hk j), ?_⟩
      rw [switchTo_pmm]
      exact hr.mono

/-- A dead thread in slot 0 owns nothing. -/
theorem SysInv.main_dead (h : SysInv D L X σ) (hdead : (σ.threads 0).state = .dead) :
    Owned σ 0 = ∅ := by
  have harg : (σ.threads 0).arg = none :=
    (h.tasks.each 0).arg_none (by rw [hdead]; simp) (by rw [hdead]; simp)
  obtain ⟨hbase, hcr3⟩ := h.tasks.main
  ext p
  simp only [Owned, Owns, harg, hbase, hcr3 (Or.inl hdead), Set.mem_ofPred_eq,
    Set.mem_empty_iff_false, iff_false]
  rintro (⟨r, ⟨h0, hne⟩ | hr, -⟩ | ⟨hne, -⟩)
  · exact hne h0.symm
  · simp at hr
  · exact hne rfl

/-- The start function of a child of `fork`. -/
theorem SysInv.forkChildFn (h : SysInv D L X σ) {σ' : Sys} (heq : forkChildFn σ = some σ') :
    SysInv D L X σ' ∧ ∀ j, Keeps σ σ' j := by
  unfold Thread.forkChildFn at heq
  cases harg : σ.current.arg with
  | none => simp [harg] at heq
  | some root =>
      simp only [harg, Option.some.injEq] at heq
      subst heq
      obtain ⟨hcr3, hstate⟩ := (h.tasks.each σ.cur).child root harg
      have hown : Owns σ.current root := Or.inr harg
      have hne := h.user_ne_zero (h.mem_user hown)
      have howns : ∀ r, Owns { σ.current with cr3 := root, arg := none } r ↔ Owns σ.current r := by
        intro r
        simp only [Owns, harg, show σ.current.cr3 = 0 from hcr3]
        constructor
        · rintro (⟨rfl, -⟩ | hbad)
          · exact Or.inr rfl
          · simp at hbad
        · rintro (⟨h0, hr⟩ | hr)
          · exact absurd h0.symm hr
          · obtain rfl : root = r := Option.some.inj hr
            exact Or.inl ⟨rfl, hne⟩
      have hnot : ∀ st, st ≠ .ready → st ≠ .running → σ.current.state ≠ st := by
        rintro st h1 h2 rfl
        exact hstate.elim h1 h2
      refine ⟨⟨h.mem.switch root, h.tasks.setSame ⟨?_, ?_, ?_, (h.tasks.each σ.cur).stack⟩ howns rfl
        ?_, ?_⟩, fun j => (keeps_setTask (fun r hr => (howns r).2 hr) rfl j).switch root σ.cur⟩
      · intro root' hbad
        simp at hbad
      · exact fun h0 => absurd h0 hne
      · exact fun hu => absurd hu (hnot .unused (by simp) (by simp))
      · rintro - (hd | hz)
        · exact absurd hd (hnot .dead (by simp) (by simp))
        · exact absurd hz (hnot .zombie (by simp) (by simp))
      · simp [Sys.current, Sys.setTask, vmmSwitchTo, hne]

/-! ### Termination -/

/-- The frames of a thread's page map. -/
def mapOf (σ : Sys) (i : Fin 32) : Set Nat :=
  {p | ∃ r, Owns (σ.threads i) r ∧ p ∈ mapPages σ.vmm.mem r}

/-- The recorded ranges are forgotten. -/
theorem userCleanup_maps (s : VmmState) (u : UserVm) : ∀ m ∈ (userCleanup s u).2.maps,
    m.inUse = false := by
  intro m hm
  obtain ⟨m', -, rfl⟩ := List.mem_map.1 hm
  split
  · rfl
  · next hnot => simpa using hnot

/-- What `thread_exit` does to the memory. -/
theorem SysInv.exitMemory (h : SysInv D L X σ) (harg : σ.current.arg = none) :
    ∃ D' L' s' vm, (if σ.current.cr3 ≠ 0 then
          (vmmDestroyUserPagemap (vmmSwitchTo σ.vmm σ.vmm.kernelCr3) σ.current.cr3,
            userMapsZero σ.current.vm)
        else userCleanup σ.vmm σ.current.vm) = (s', vm) ∧
      (∀ m ∈ vm.maps, m.inUse = false) ∧
      (∀ r, r ∈ D'.user ↔ r ∈ D.user ∧ ¬ Owns (σ.threads σ.cur) r) ∧ D'.kernel = D.kernel ∧
      MemInv D' L' σ.nextPageVirt s' ∧ s'.cr3 = D.kernel ∧
      freePhys s'.pmm = freePhys σ.vmm.pmm ∪ mapOf σ σ.cur ∧
      (∀ j, (σ.threads j).stackBase ≠ 0 → stackFrames s' (σ.threads j).stackBase =
        stackFrames σ.vmm (σ.threads j).stackBase) ∧
      ∀ j, j ≠ σ.cur → Keeps σ { σ with vmm := s' } j := by
  by_cases h0 : σ.current.cr3 = 0
  · have hno : ∀ r, ¬ Owns (σ.threads σ.cur) r := by
      rintro r (⟨hc, hne⟩ | hr)
      · exact hne (hc.symm.trans h0)
      · exact absurd (harg.symm.trans hr) (by simp)
    have hclean : (userCleanup σ.vmm σ.current.vm).1 = σ.vmm :=
      userCleanup_none ((h.tasks.each σ.cur).noMaps h0 harg)
    have hloaded := h.loaded
    rw [if_neg (not_not_intro h0)] at hloaded
    refine ⟨D, L, σ.vmm, (userCleanup σ.vmm σ.current.vm).2, ?_, userCleanup_maps _ _,
      fun r => by simp [hno r], rfl, h.mem, hloaded, ?_, fun _ _ => rfl, fun j _ => Keeps.refl σ j⟩
    · rw [if_neg (not_not_intro h0)]
      exact Prod.ext hclean rfl
    · simp [mapOf, hno]
  · have howns : ∀ r, Owns (σ.threads σ.cur) r ↔ r = σ.current.cr3 := by
      intro r
      constructor
      · rintro (⟨hc, -⟩ | hr)
        · exact hc.symm
        · exact absurd (harg.symm.trans hr) (by simp)
      · rintro rfl
        exact Or.inl ⟨rfl, h0⟩
    have hu := h.mem_user ((howns _).2 rfl)
    obtain ⟨L', hmem, hfree, hunt⟩ := (h.mem.switch σ.vmm.kernelCr3).destroy hu
    have hstack : ∀ j, (σ.threads j).stackBase ≠ 0 →
        stackFrames (vmmDestroyUserPagemap (vmmSwitchTo σ.vmm σ.vmm.kernelCr3) σ.current.cr3)
            (σ.threads j).stackBase = stackFrames σ.vmm (σ.threads j).stackBase := by
      intro j hb
      refine stackFrames_congr (hmem.kernelCr3.trans h.mem.kernelCr3.symm) fun k hk => ?_
      have hleaf := hunt.leaves _ (h.stack_pos hb hk) rfl (Set.notMem_empty _)
      rw [← h.mem.kernelCr3] at hleaf
      exact hleaf
    refine ⟨D.erase σ.current.cr3, L', _, userMapsZero σ.current.vm, if_pos h0, ?_, fun r => ?_,
      rfl, hmem, ?_, ?_, hstack, fun j hj => ?_⟩
    · intro m hm
      rw [List.eq_of_mem_replicate hm]
      rfl
    · rw [howns]
      rfl
    · rw [hunt.cr3]
      simp [vmmSwitchTo, h.mem.kernelCr3]
    · rw [hfree]
      congr 1
      ext p
      constructor
      · exact fun hp => ⟨_, (howns _).2 rfl, hp⟩
      · rintro ⟨r, hr, hp⟩
        rw [howns] at hr
        rwa [← hr]
    · refine ⟨fun _ hr => hr, fun r hr => ?_, rfl, hstack j⟩
      have hkept := hunt.roots r ⟨h.mem_user hr,
        fun hc => hj (h.tasks.unique j σ.cur r hr ((howns r).2 hc))⟩
      exact ⟨hkept.entries, hkept.pages⟩

/-- `thread_exit` up to its loop gives back the page map of the thread that
runs. -/
theorem SysInv.exitCurrent (h : SysInv D L X σ) (harg : σ.current.arg = none) :
    ∃ D' L', SysInv D' L' X (exitCurrent σ) ∧ (∀ j, j ≠ σ.cur → Keeps σ (exitCurrent σ) j) ∧
      freePhys (exitCurrent σ).vmm.pmm = freePhys σ.vmm.pmm ∪ mapOf σ σ.cur ∧
      ∀ j, (σ.threads j).stackBase ≠ 0 →
        stackFrames (exitCurrent σ).vmm (σ.threads j).stackBase =
          stackFrames σ.vmm (σ.threads j).stackBase := by
  have hok := h.tasks.each σ.cur
  obtain ⟨D', L', s', vm, heq, hvm, hU, hker, hmem, hcr3, hfree, hstack, hk⟩ := h.exitMemory harg
  have hst : ∀ b : Bool, (if b then TState.zombie else .dead) ≠ .unused := by decide
  unfold Thread.exitCurrent
  simp only [heq]
  refine ⟨D', L', ⟨hmem, h.tasks.release ⟨?_, fun _ _ => hvm, fun hu => absurd hu (hst _),
    hok.stack⟩ ?_ hU (Or.inr rfl) (fun _ _ => rfl), ?_⟩, fun j hj => ?_, hfree, hstack⟩
  · exact fun root hr => absurd (harg.symm.trans hr) (by simp)
  · rintro r (⟨h0, hne⟩ | hr)
    · exact hne h0.symm
    · exact absurd (harg.symm.trans hr) (by simp)
  · simp [Sys.current, Sys.setTask, hcr3, hker]
  · exact (hk j hj).trans (keeps_other hj)

end

end FiFi.Thread
