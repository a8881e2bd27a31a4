import FiFi.Library.StateMachine
import FiFi.Thread.Boot
import FiFi.Thread.Children

/-!
# Dying threads

What the end of a thread may do to memory. `ReapSafe` is about one call of
`thread_reap_dead`, and `StepSafe` about one step of the machine: the page maps
of the other threads stay as they are, no page of theirs becomes free, and the
pages of the thread that ends are given back, each once.

Two kinds of steps break this. A child of `fork` that is killed before its start
function has run has no `cr3` yet, but already the ranges of its parent: its own
page map is never given back, and the ranges are unmapped in whichever page map
is loaded. And a thread that has killed itself and still runs, because no other
thread was ready, may find its own slot when it forks. Without such steps every
run is safe.
-/

namespace FiFi.Thread

open Pmm Vmm Fork Syscall LinkedList RadixForest StateMachine

/-- The memory and the thread table are in order. -/
def Consistent (σ : Sys) : Prop := ∃ D L, SysInv D L ∅ σ

/-- Every page is free at most once: it is on the free list once, or above the
cursor. -/
def FreeOnce (s : PmmState) : Prop :=
  ∃ L, Chain s.mem 0 s.freeList L ∧ L.Nodup ∧ ∀ p ∈ L, p < s.cursor

/-- Nothing of the thread in slot `j` is changed or given back. -/
structure Spared (σ σ' : Sys) (j : Fin 32) : Prop where
  maps : ∀ r, Owns (σ.threads j) r → Kept σ.vmm σ'.vmm r
  pages : ∀ p ∈ Owned σ j, p ∉ freePhys σ'.vmm.pmm

/-- What `thread_reap_dead` has to do. -/
structure ReapSafe (ρ : Sys) : Prop where
  alone : ∀ i j p, p ∈ Owned ρ i → p ∈ Owned ρ j → i = j
  spared : ∀ j, (ρ.threads j).state ≠ .dead ∨ j = ρ.cur → Spared ρ (threadReapDead ρ) j
  freed : ∀ j, (ρ.threads j).state = .dead → j ≠ ρ.cur → ∀ p ∈ Owned ρ j,
    p ∉ freePhys ρ.vmm.pmm ∧ p ∈ freePhys (threadReapDead ρ).vmm.pmm
  once : FreeOnce (threadReapDead ρ).vmm.pmm

/-- Whether `thread_kill` does something. -/
def Killable (σ : Sys) (slot : Fin 32) : Prop :=
  slot ≠ 0 ∧ (σ.threads slot).state ≠ .unused ∧ (σ.threads slot).state ≠ .dead

instance (σ : Sys) (slot : Fin 32) : Decidable (Killable σ slot) :=
  inferInstanceAs (Decidable (_ ∧ _ ∧ _))

def markDead (σ : Sys) (slot : Fin 32) : Sys :=
  σ.setTask slot { σ.threads slot with state := .dead }

/-- The state in which a step calls `thread_reap_dead`, if it does. -/
def reapPoint (σ : Sys) : Act → Option Sys
  | .yield _ => some σ
  | .reap => some σ
  | .exit _ => some (exitCurrent σ)
  | .kill slot _ =>
      if Killable σ slot ∧ slot = σ.cur then some (markDead σ slot) else none
  | .fork m =>
      match forkPrepare σ m with
      | some (child, σ) => if child = 0 then none else some σ
      | none => none
  | .start => none
  | .collect _ => none

def Act.isExit : Act → Prop
  | .exit _ => True
  | _ => False

/-- What a step has to do. -/
structure StepSafe (σ : Sys) (a : Act) : Prop where
  spared : ∀ j, (σ.threads j).state ≠ .unused → (σ.threads j).state ≠ .dead ∨ j = σ.cur →
    ¬ (a.isExit ∧ j = σ.cur) → Spared σ (threadStep σ a) j
  exited : a.isExit → (act σ a).isSome → ∀ p ∈ mapOf σ σ.cur,
    p ∉ freePhys σ.vmm.pmm ∧ p ∈ freePhys (threadStep σ a).vmm.pmm
  reaped : ∀ ρ, (act σ a).isSome → reapPoint σ a = some ρ → ReapSafe ρ
  once : FreeOnce (threadStep σ a).vmm.pmm

/-- Which steps are safe: no child of `fork` is killed before it has started, and
a thread does not fork into its own slot. -/
def Allowed (σ : Sys) : Act → Prop
  | .kill slot _ => (σ.threads slot).arg = none
  | .fork _ => findFreeSlot σ ≠ some σ.cur
  | _ => True

section

variable {D : Domain} {L : List Nat} {X : Set Nat} {σ σ' : Sys}

theorem SysInv.freeOnce (h : SysInv D L X σ) : FreeOnce σ.vmm.pmm :=
  ⟨L, h.mem.forest.pmm.chain, h.mem.forest.pmm.nodup,
    fun p hp => (h.mem.forest.pmm.listed p hp).2.2⟩

theorem Keeps.spared {j : Fin 32} (hk : Keeps σ σ' j) (h' : SysInv D L X σ') : Spared σ σ' j :=
  ⟨hk.maps, fun _ hp => h'.owned_not_free (hk.owned hp)⟩

/-- No page belongs to two threads. -/
theorem SysInv.owned_alone (h : SysInv D L X σ) {i j : Fin 32} {p : Nat} (hi : p ∈ Owned σ i)
    (hj : p ∈ Owned σ j) : i = j := by
  have hroot : ∀ {k r} {π : List Nat}, Owns (σ.threads k) r → LowerPath π → Pos D r π :=
    fun hr hπ => (pos_iff_lowerPath (h.mem_user hr)).2 hπ
  rcases hi with ⟨r, hr, π, e, hπ, he, rfl⟩ | ⟨hb, k, hk, e, he, rfl⟩
  · rcases hj with ⟨r', hr', π', e', hπ', he', hp⟩ | ⟨hb, k, hk, e', he', hp⟩
    · obtain ⟨rfl, -⟩ := h.mem.forest.apart r π r' π' e e' (hroot hr hπ) (hroot hr' hπ') he he' hp
      exact h.tasks.unique i j r hr hr'
    · rw [h.mem.kernelCr3] at he'
      obtain ⟨rfl, -⟩ := h.mem.forest.apart r π D.kernel _ e e' (hroot hr hπ)
        (h.stack_pos hb hk) he he' hp
      exact absurd (h.mem_user hr) D.kernel_not_user
  · rw [h.mem.kernelCr3] at he
    rcases hj with ⟨r', hr', π', e', hπ', he', hp⟩ | ⟨hb', k', hk', e', he', hp⟩
    · obtain ⟨rfl, -⟩ := h.mem.forest.apart D.kernel _ r' π' e e' (h.stack_pos hb hk)
        (hroot hr' hπ') he he' hp
      exact absurd (h.mem_user hr') D.kernel_not_user
    · rw [h.mem.kernelCr3] at he'
      obtain ⟨-, hpath⟩ := h.mem.forest.apart D.kernel _ D.kernel _ e e' (h.stack_pos hb hk)
        (h.stack_pos hb' hk') he he' hp
      by_contra hij
      exact h.stack_not_mem hij hb' hb hk ⟨k', hk', hpath⟩

theorem mem_slots : ∀ j : Fin 32, j ≠ 0 → j ∈ slots := by decide

/-- `thread_reap_dead` is safe. -/
theorem SysInv.reapSafe (h : SysInv D L X σ) : ReapSafe σ := by
  obtain ⟨D', L', h', -, hr⟩ := h.threadReapDead
  refine ⟨fun i j p => h.owned_alone, fun j hj => ?_, fun j hd hc p hp => ⟨h.owned_not_free hp, ?_⟩,
    h'.freeOnce⟩
  · exact (hr.keeps fun hin => hj.elim (fun hs => hs hin.2.1) hin.2.2).spared h'
  · by_cases h0 : j = 0
    · subst h0
      rw [h.main_dead hd] at hp
      exact absurd hp (Set.notMem_empty p)
    · exact hr.freed j ⟨mem_slots j h0, hd, hc⟩ hp

/-! ### One step -/

theorem threadStep_of_act {a : Act} (h : act σ a = some σ') : threadStep σ a = σ' := by
  simp [threadStep, h]

/-- Assembling `StepSafe` for a step that is not an exit. -/
theorem SysInv.stepSafe {a : Act} (h' : SysInv D L ∅ σ') (hexit : ¬ a.isExit)
    (hact : act σ a = some σ')
    (hk : ∀ j, j ∉ deadSlots σ → (σ.threads j).state ≠ .unused → Keeps σ σ' j)
    (hreap : ∀ ρ, reapPoint σ a = some ρ → ReapSafe ρ) :
    Consistent (threadStep σ a) ∧ StepSafe σ a := by
  have hstep := threadStep_of_act hact
  refine ⟨⟨D, L, by rwa [hstep]⟩, ⟨fun j hlive hj _ => ?_, fun he => absurd he hexit,
    fun ρ _ hρ => hreap ρ hρ, ?_⟩⟩
  · rw [hstep]
    refine (hk j (fun hin => ?_) hlive).spared h'
    exact hj.elim (fun hs => hs hin.2.1) hin.2.2
  · rw [hstep]
    exact h'.freeOnce

/-- A step that cannot happen. -/
theorem SysInv.stepSafe_none (h : SysInv D L ∅ σ) {a : Act} (hact : act σ a = none) :
    Consistent (threadStep σ a) ∧ StepSafe σ a := by
  have hstep : threadStep σ a = σ := by simp [threadStep, hact]
  refine ⟨⟨D, L, by rwa [hstep]⟩, ⟨fun j _ _ _ => ?_, fun _ hs => ?_, fun ρ hs => ?_, ?_⟩⟩
  · rw [hstep]
    exact (Keeps.refl σ j).spared h
  · simp [hact] at hs
  · simp [hact] at hs
  · rw [hstep]
    exact h.freeOnce

theorem arg_of_act {a : Act} (hact : act σ a = some σ')
    (ha : a ≠ .start) (hy : ∀ pick, a ≠ .yield pick) : σ.current.arg = none := by
  cases harg : σ.current.arg with
  | none => rfl
  | some root =>
      cases a <;> simp [act, harg] at hact ha hy

/-- `thread_exit`. -/
theorem SysInv.exitStep (h : SysInv D L ∅ σ) {pick : Option (Fin 32)}
    (hact : act σ (.exit pick) = some σ') :
    Consistent (threadStep σ (.exit pick)) ∧ StepSafe σ (.exit pick) := by
  have harg := arg_of_act hact (by simp) (by simp)
  have hyield : Thread.threadYield (Thread.exitCurrent σ) pick = some σ' := by
    simpa [act, harg, threadExit] using hact
  obtain ⟨D1, L1, h1, hk1, hfree, -⟩ := h.exitCurrent harg
  obtain ⟨D2, L2, h2, hk2, hmono⟩ := h1.threadYield hyield
  have hstep := threadStep_of_act hact
  refine ⟨⟨D2, L2, by rwa [hstep]⟩, ⟨fun j _ hj hne => ?_, fun _ _ p hp => ?_, fun ρ _ hρ => ?_, ?_⟩⟩
  · rw [hstep]
    have hjc : j ≠ σ.cur := fun hc => hne ⟨trivial, hc⟩
    refine ((hk1 j hjc).trans (hk2 j fun hin => ?_)).spared h2
    have hsame : (Thread.exitCurrent σ).threads j = σ.threads j := Function.update_of_ne hjc _ _
    have hd := hin.2.1
    rw [hsame] at hd
    exact hj.elim (fun hs => hs hd) hjc
  · rw [hstep]
    refine ⟨h.owned_not_free (Or.inl hp), hmono ?_⟩
    rw [hfree]
    exact Or.inr hp
  · obtain rfl : Thread.exitCurrent σ = ρ := Option.some.inj hρ
    exact h1.reapSafe
  · rw [hstep]
    exact h2.freeOnce

theorem threadKill_killable {slot : Fin 32} {pick : Option (Fin 32)} (h : Killable σ slot) :
    threadKill σ slot pick =
      if slot = σ.cur then threadYield (markDead σ slot) pick else some (markDead σ slot) := by
  obtain ⟨h0, hu, hd⟩ := h
  simp only [threadKill, if_neg h0, if_neg hu, if_neg hd]
  rfl

theorem threadKill_not_killable {slot : Fin 32} {pick : Option (Fin 32)}
    (h : ¬ Killable σ slot) : threadKill σ slot pick = some σ := by
  unfold threadKill
  by_cases h0 : slot = 0
  · exact if_pos h0
  by_cases hu : (σ.threads slot).state = .unused
  · simp only [if_neg h0, if_pos hu]
  by_cases hd : (σ.threads slot).state = .dead
  · simp only [if_neg h0, if_neg hu, if_pos hd]
  exact absurd ⟨h0, hu, hd⟩ h

/-- `thread_kill` of a thread that has started. -/
theorem SysInv.killStep (h : SysInv D L ∅ σ) {slot : Fin 32} {pick : Option (Fin 32)}
    (hslot : (σ.threads slot).arg = none) (hact : act σ (.kill slot pick) = some σ') :
    Consistent (threadStep σ (.kill slot pick)) ∧ StepSafe σ (.kill slot pick) := by
  have harg := arg_of_act hact (by simp) (by simp)
  have hkill : threadKill σ slot pick = some σ' := by simpa [act, harg] using hact
  by_cases hcond : Killable σ slot
  · rw [threadKill_killable hcond] at hkill
    have h1 : SysInv D L ∅ (markDead σ slot) :=
      h.setState slot .dead (by simp) (Or.inl hslot) fun hz => absurd hz hcond.1
    have hk1 : ∀ j, Keeps σ (markDead σ slot) j := keeps_setTask (fun _ hr => hr) rfl
    by_cases hcur : slot = σ.cur
    · rw [if_pos hcur] at hkill
      obtain ⟨D2, L2, h2, hk2, -⟩ := h1.threadYield hkill
      refine h2.stepSafe id hact (fun j hj _ => (hk1 j).trans (hk2 j fun hin => hj ?_))
        fun ρ hρ => ?_
      · have hjc : j ≠ slot := by
          rw [hcur]
          exact hin.2.2
        have hsame : (markDead σ slot).threads j = σ.threads j := Function.update_of_ne hjc _ _
        exact ⟨hin.1, by rw [← hsame]; exact hin.2.1, hin.2.2⟩
      · simp only [reapPoint, if_pos (And.intro hcond hcur), Option.some.injEq] at hρ
        subst hρ
        exact h1.reapSafe
    · rw [if_neg hcur] at hkill
      obtain rfl := Option.some.inj hkill
      refine h1.stepSafe id hact (fun j _ _ => hk1 j) fun ρ hρ => ?_
      simp [reapPoint, hcur] at hρ
  · rw [threadKill_not_killable hcond] at hkill
    obtain rfl := Option.some.inj hkill
    refine h.stepSafe id hact (fun j _ _ => Keeps.refl σ j) fun ρ hρ => ?_
    simp [reapPoint, hcond] at hρ

/-- `thread_reap_zombie_child` only changes a state. -/
theorem SysInv.reapZombieChild (h : SysInv D L X σ) (slot : Fin 32) :
    SysInv D L X (reapZombieChild σ slot) ∧ ∀ j, Keeps σ (reapZombieChild σ slot) j := by
  unfold Thread.reapZombieChild
  by_cases hz : (σ.threads slot).parentTid = σ.current.tid ∧ (σ.threads slot).state = .zombie
  · simp only [if_pos hz]
    refine ⟨h.setState slot .dead (by simp) (Or.inl ?_) ?_, keeps_setTask (fun _ hr => hr) rfl⟩
    · exact (h.tasks.each slot).arg_none (by rw [hz.2]; simp) (by rw [hz.2]; simp)
    · rintro rfl -
      exact h.tasks.main.2 (Or.inr hz.2)
  · simp only [if_neg hz]
    exact ⟨h, Keeps.refl σ⟩

/-- Every allowed step keeps the machine consistent and is safe. -/
theorem Consistent.step {a : Act} (h : Consistent σ) (hok : Allowed σ a) :
    Consistent (threadStep σ a) ∧ StepSafe σ a := by
  obtain ⟨D, L, h⟩ := h
  cases hact : act σ a with
  | none => exact h.stepSafe_none hact
  | some σ' =>
      cases a with
      | fork m =>
          have harg := arg_of_act hact (by simp) (by simp)
          have hfork : doFork σ m = some σ' := by simpa [act, harg] using hact
          obtain ⟨D', L', h', hk⟩ := h.doFork hok hfork
          refine h'.stepSafe id hact hk fun ρ hρ => ?_
          unfold reapPoint at hρ
          cases hprep : forkPrepare σ m with
          | none => simp [hprep] at hρ
          | some r =>
              obtain ⟨child, σ1⟩ := r
              obtain ⟨D1, L1, hcase, -⟩ := h.forkPrepare hprep
              simp only [hprep] at hρ
              rcases hcase with ⟨rfl, -⟩ | ⟨hne, h1⟩
              · simp at hρ
              · rw [if_neg hne] at hρ
                obtain rfl := Option.some.inj hρ
                exact h1.reapSafe
      | start =>
          obtain ⟨h', hk⟩ := h.forkChildFn hact
          exact h'.stepSafe id hact (fun j _ _ => hk j) fun ρ hρ => by simp [reapPoint] at hρ
      | yield pick =>
          obtain ⟨D', L', h', hk, -⟩ := h.threadYield hact
          refine h'.stepSafe id hact (fun j hj _ => hk j hj) fun ρ hρ => ?_
          obtain rfl : σ = ρ := Option.some.inj hρ
          exact h.reapSafe
      | kill slot pick => exact h.killStep hok hact
      | exit pick => exact h.exitStep hact
      | collect slot =>
          have harg := arg_of_act hact (by simp) (by simp)
          obtain rfl : reapZombieChild σ slot = σ' := by simpa [act, harg] using hact
          obtain ⟨h', hk⟩ := h.reapZombieChild slot
          exact h'.stepSafe id hact (fun j _ _ => hk j) fun ρ hρ => by simp [reapPoint] at hρ
      | reap =>
          have harg := arg_of_act hact (by simp) (by simp)
          obtain rfl : threadReapDead σ = σ' := by simpa [act, harg] using hact
          obtain ⟨D', L', h', -, hr⟩ := h.threadReapDead
          refine h'.stepSafe id hact (fun j hj _ => hr.keeps hj) fun ρ hρ => ?_
          obtain rfl : σ = ρ := Option.some.inj hρ
          exact h.reapSafe

/-! ### Runs -/

theorem consistent_run {acts : List Act} (h : Consistent σ)
    (hall : AllSteps threadStep Allowed σ acts) : Consistent (run threadStep σ acts) :=
  inv_run Consistent (fun _ _ hs hok => (hs.step hok).1) h hall

/-- In a run from a consistent state whose steps are all allowed, every step is
safe. -/
theorem stepSafe_run {σ : Sys} (h : Consistent σ) (acts : List Act) (a : Act)
    (hall : AllSteps threadStep Allowed σ (acts ++ [a])) :
    StepSafe (run threadStep σ acts) a := by
  obtain ⟨hpre, hlast⟩ := (allSteps_append threadStep Allowed σ acts [a]).1 hall
  exact ((consistent_run h hpre).step hlast.1).2

end

/-! ### A machine with one process -/

/-- Memory after `heap_init`, with the page map of a process in which one page is
mapped. -/
def processState : VmmState :=
  let s := ((heapMapFreshPage (bootSys bootedState)).getD (bootSys bootedState)).vmm
  let s := (vmmCreateUserPagemap s).2
  let r := allocPage s
  vmmSwitchTo (vmmMapPageInto r.2 0x1004000 0x600000000000 r.1 (vmmUser ||| vmmWrite)).2 0x1004000

/-- The process has recorded the range of its page. -/
def processVm : UserVm :=
  { newVm with maps := ⟨0x600000000000, 0x1000, true⟩ :: List.replicate 7 noMap }

def processSys : Sys :=
  oneProcess processState (heapUsableBase + pageSize) 0x1004000 processVm

theorem processSys_consistent : Consistent processSys := by
  have hmm : EndsBelow (2 ^ 52) memmap64M := by
    rintro entries ⟨rfl⟩ e he -
    obtain rfl : e = ⟨0, 0x4000000, 0⟩ := by simpa using he
    decide
  have hfree : 0x1000 ∉ freePhys (pmmInit memmap64M 1 (.boot fun _ => 0)) := by
    obtain ⟨hinv, -⟩ := pmmInit_stop_le hmm (show 1 ≠ 0 by decide) (fun _ => 0) (by decide)
    rw [freePhys_eq hinv]
    exact fun hin => absurd (hinv.minPhys_le_of_mem hin) (by decide)
  have h0 : VmmInv (.noUser 0x1000 {heapSlot}) bootedState [] ∅ :=
    vmmInv_start 0x1000 {heapSlot} hmm (by decide) (by decide) (by decide) hfree
      fun i hi => by rw [hi]; decide
  obtain ⟨σ, hσ⟩ := Option.isSome_iff_exists.1
    (show (heapMapFreshPage (bootSys bootedState)).isSome by decide)
  obtain ⟨s1, L1, rfl, h1, -⟩ := MemInv.boot (by decide) h0 rfl rfl (by decide) hσ
  have hs1 : s1 = ((heapMapFreshPage (bootSys bootedState)).getD (bootSys bootedState)).vmm := by
    rw [hσ]
    rfl
  have hroot : (vmmCreateUserPagemap s1).1 = 0x1004000 := by
    rw [hs1]
    decide
  obtain ⟨hk, L2, h2⟩ := h1.create (by rw [hroot]; decide)
  have huser : (Domain.insert (.noUser 0x1000 {heapSlot}) (vmmCreateUserPagemap s1).1 hk).user =
      {0x1004000} := by
    change insert (vmmCreateUserPagemap s1).1 ∅ = _
    rw [hroot]
    exact insert_empty_eq 0x1004000
  obtain ⟨L3, h3⟩ := h2.mapUser (vmmUser ||| vmmWrite)
    (show 0x1004000 ∈ _ by rw [huser]; rfl) (show idxPml4 0x600000000000 < 256 by decide)
    (by rw [hs1]; decide) (by rw [hs1]; decide) (by rw [hs1]; decide)
  have h4 : Consistent _ :=
    ⟨_, L3, sysInv_oneProcess (h3.switch 0x1004000) huser rfl (by decide) processVm⟩
  rw [hs1] at h4
  exact h4

/-- The process is killed by the main thread and reaped. -/
theorem stepSafe_run_process :
    StepSafe (run threadStep processSys [.yield (some 0), .kill 1 none]) .reap := by
  refine stepSafe_run processSys_consistent [.yield (some 0), .kill 1 none] .reap ?_
  exact ⟨trivial, by change Task.arg _ = none; decide +kernel, trivial, trivial⟩

/-- The process has forked and killed its child before the child has started. -/
def killedChild : Sys := run threadStep processSys [.fork .reuse, .kill 2 none]

theorem killedChild_eval :
    (killedChild.threads 1).state = .running ∧ (killedChild.threads 1).cr3 = 0x1004000 ∧
      (look killedChild.vmm.mem 0x1004000 (vaPath 0x600000000000)).isSome ∧
      look (threadStep killedChild .reap).vmm.mem 0x1004000 (vaPath 0x600000000000) = none := by
  decide +kernel

/-- Reaping the child unmaps the page of the process. -/
theorem not_stepSafe_killedChild :
    Consistent processSys ∧
      ¬ StepSafe (run threadStep processSys [.fork .reuse, .kill 2 none]) .reap := by
  refine ⟨processSys_consistent, fun h => ?_⟩
  change StepSafe killedChild .reap at h
  obtain ⟨hstate, hcr3, hsome, hnone⟩ := killedChild_eval
  have hspared := h.spared 1 (by rw [hstate]; simp) (Or.inl (by rw [hstate]; simp)) fun hx => hx.1
  have hkept := hspared.maps 0x1004000 (Or.inl ⟨hcr3, by decide⟩)
  rw [hkept.entries _ (lowerPath_vaPath (by decide))] at hnone
  rw [hnone] at hsome
  simp at hsome

end FiFi.Thread
