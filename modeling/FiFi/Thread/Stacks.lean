import FiFi.Thread.Safety

/-!
# Kernel stacks over many threads

`thread_create` takes the kernel stack of a thread from the heap, which moves
`next_page_virt` forward by the pages of the stack. `thread_reap_dead` unmaps
the stack and gives its pages back, but `next_page_virt` stays where it is. So
the stacks of all threads there ever were lie one behind the other, and the
heap's arena holds only so many of them: the next `thread_create` panics, however
few threads there are then and however many pages are free.
-/

namespace FiFi.Thread

open Pmm Vmm Fork Syscall RadixForest StateMachine Loop

/-- `thread_create` with a start function of the kernel. No page map belongs to
its argument. -/
def threadSpawn (σ : Sys) : Option (Option (Fin 32) × Sys) :=
  let σ := threadReapDead σ
  match findFreeSlot σ with
  | none => some (none, σ)
  | some i =>
      match kmallocStack σ with
      | none => none
      | some (stack, σ) =>
          if stack = 0 then some (none, σ)
          else
            let σ := σ.setTask i
              { σ.threads i with
                state := .ready, tid := σ.nextTid, parentTid := 0, arg := none,
                stackBase := stack, vm := newVm }
            some (some i, { σ with nextTid := σ.nextTid + 1 })

/-- What happens next, in the thread that runs. -/
inductive StackAct
  | create
  | yield (pick : Option (Fin 32))
  | exit (pick : Option (Fin 32))
  | collect (slot : Fin 32)
  | reap
  deriving DecidableEq, Repr

/-- The steps that do not create threads. -/
def StackAct.act : StackAct → Option Act
  | .create => none
  | .yield pick => some (.yield pick)
  | .exit pick => some (.exit pick)
  | .collect slot => some (.collect slot)
  | .reap => some .reap

/-- One step. A panic changes nothing. -/
def stackStep (σ : Sys) (a : StackAct) : Sys :=
  match a.act with
  | none => ((threadSpawn σ).map Prod.snd).getD σ
  | some b => threadStep σ b

/-- The pages a new kernel stack needs are not there: the run of pages for the
stack itself, or, while the stack is being mapped, a page for a table. -/
def PagesLack (σ : Sys) : Prop :=
  let r := pmmAllocPages σ.vmm.pmm stackPages
  let m := vmmMapRange { σ.vmm with pmm := r.2 } (alignDown σ.nextPageVirt) r.1
    (stackPages * pageSize) vmmWrite
  r.1 = 0 ∨ (m.1 = false ∧ (pmmAllocPage m.2.pmm).1 = 0)

/-- A thread that has been created and has not ended. -/
def Live (t : Task) : Prop := t.state ≠ .unused ∧ t.state ≠ .dead ∧ t.state ≠ .zombie

/-- When a step may be taken. A thread that has ended, or has not come to its
start function, creates no thread; not all slots are taken then, and the pages
for the stack are there. -/
def Fits (σ : Sys) : StackAct → Prop
  | .create => Live σ.current ∧ σ.current.arg = none ∧ findFreeSlot σ ≠ none ∧
      ¬ PagesLack (threadReapDead σ)
  | _ => True

/-- The state in which a step calls `thread_reap_dead`, if it does. -/
def StackAct.reapPoint (σ : Sys) (a : StackAct) : Option Sys :=
  match a.act with
  | none => some σ
  | some b => if (Thread.act σ b).isSome then Thread.reapPoint σ b else none

/-- The kernel stacks are mapped, and no two have a page in common. -/
structure StacksSound (σ : Sys) : Prop where
  mapped : ∀ j, (σ.threads j).stackBase ≠ 0 → StackMapped σ.vmm (σ.threads j).stackBase
  apart : ∀ i j, i ≠ j → (σ.threads i).stackBase ≠ 0 → (σ.threads j).stackBase ≠ 0 →
    StacksApart (σ.threads i).stackBase (σ.threads j).stackBase

/-- What a step has to do: a thread is created, without a panic, reaping gives
back the pages of the dead threads once, and the kernel stacks are sound. -/
structure Sustained (σ : Sys) (a : StackAct) : Prop where
  created : a = .create → ∃ i σ', threadSpawn σ = some (some i, σ')
  reaped : ∀ ρ, a.reapPoint σ = some ρ → ReapSafe ρ
  sound : StacksSound (stackStep σ a)

/-- How many threads a run creates. -/
def creates (acts : List StackAct) : Nat := acts.countP (· = .create)

theorem creates_cons (a : StackAct) (acts : List StackAct) :
    creates (a :: acts) = creates [a] + creates acts := by
  simp [creates, List.countP_cons, Nat.add_comm]

theorem creates_create : creates [.create] = 1 := rfl

theorem creates_act {a : StackAct} {b : Act} (h : a.act = some b) : creates [a] = 0 := by
  cases a with
  | create => simp [StackAct.act] at h
  | yield pick => rfl
  | exit pick => rfl
  | collect slot => rfl
  | reap => rfl

/-! ### Mapping fails for lack of pages only -/

theorem pmmAllocPage_refused {s : PmmState} (h : (pmmAllocPage s).1 = 0) :
    (pmmAllocPage s).2 = s := by
  unfold pmmAllocPage at h ⊢
  split_ifs at h ⊢ with h1 h2 h3
  · exact absurd h h1
  · rfl
  · rfl
  · exact absurd h h2

theorem ensureTable_refused {s : VmmState} {parent index : Nat} {user : Bool}
    (h : (ensureTable s parent index user).1 = none) :
    (pmmAllocPage (ensureTable s parent index user).2.pmm).1 = 0 := by
  unfold ensureTable at h ⊢
  dsimp only at h ⊢
  split_ifs at h ⊢ with h1 h2
  have hno : (pmmAllocPage s.pmm).1 = 0 := h2
  change (pmmAllocPage (pmmAllocPage s.pmm).2).1 = 0
  rw [pmmAllocPage_refused hno, hno]

theorem vmmMapPageInto_refused {s : VmmState} {root virt phys flags : Nat}
    (h : (vmmMapPageInto s root virt phys flags).1 = false) :
    (pmmAllocPage (vmmMapPageInto s root virt phys flags).2.pmm).1 = 0 := by
  unfold vmmMapPageInto at h ⊢
  dsimp only at h ⊢
  split at h <;> rename_i s1 heq1
  · have := ensureTable_refused (congrArg Prod.fst heq1)
    rw [heq1] at this
    exact this
  split at h <;> rename_i s2 heq2
  · have := ensureTable_refused (congrArg Prod.fst heq2)
    rw [heq2] at this
    exact this
  split at h <;> rename_i s3 heq3
  · have := ensureTable_refused (congrArg Prod.fst heq3)
    rw [heq3] at this
    exact this
  · simp at h

theorem vmmMapRange_refused {s : VmmState} {virt phys size flags : Nat}
    (h : (vmmMapRange s virt phys size flags).1 = false) :
    (pmmAllocPage (vmmMapRange s virt phys size flags).2.pmm).1 = 0 := by
  unfold vmmMapRange at h ⊢
  have hstep : ∀ k s', k < rangePages virt size → True →
      ((vmmMapPage s' (u64 (alignDown virt + k * pageSize))
          (u64 (alignDown phys + k * pageSize)) flags).1 = true ∧ True) ∨
        ((vmmMapPage s' (u64 (alignDown virt + k * pageSize))
          (u64 (alignDown phys + k * pageSize)) flags).1 = false ∧
        (pmmAllocPage (vmmMapPage s' (u64 (alignDown virt + k * pageSize))
          (u64 (alignDown phys + k * pageSize)) flags).2.pmm).1 = 0) := by
    intro k s' _ _
    cases hm : (vmmMapPage s' (u64 (alignDown virt + k * pageSize))
      (u64 (alignDown phys + k * pageSize)) flags).1 with
    | true => exact Or.inl ⟨rfl, trivial⟩
    | false => exact Or.inr ⟨rfl, vmmMapPageInto_refused hm⟩
  rcases forUpTo_inv
    (fun k s => vmmMapPage s (u64 (alignDown virt + k * pageSize))
      (u64 (alignDown phys + k * pageSize)) flags) (rangePages virt size) s (fun _ _ => True)
    (fun _ s' => (pmmAllocPage s'.pmm).1 = 0) trivial hstep with ⟨hnone, -⟩ | ⟨k, -, -, hout⟩
  · simp [hnone] at h
  · exact hout

/-! ### Kernel stacks stay mapped -/

/-- Every kernel stack is mapped. -/
def AllMapped (σ : Sys) : Prop :=
  ∀ j, (σ.threads j).stackBase ≠ 0 → StackMapped σ.vmm (σ.threads j).stackBase

section

variable {D D' : Domain} {L L' : List Nat} {X X' : Set Nat} {σ σ' : Sys}

/-- A kernel stack is mapped if it has as many frames as pages: no two of its
pages share a frame. -/
theorem SysInv.stackMapped_iff (h : SysInv D L X σ) {j : Fin 32}
    (hb : (σ.threads j).stackBase ≠ 0) :
    StackMapped σ.vmm (σ.threads j).stackBase ↔
      (stackFrames σ.vmm (σ.threads j).stackBase).ncard = stackPages := by
  set base := (σ.threads j).stackBase with hbase
  set page : Nat → Option Nat := fun k =>
    look σ.vmm.mem σ.vmm.kernelCr3 (vaPath (alignDown base + k * pageSize)) with hpage
  have himage : stackFrames σ.vmm base = (fun k => ptePage ((page k).getD 0)) ''
      ((Finset.range stackPages).filter fun k => (page k).isSome : Finset Nat) := by
    ext p
    simp only [stackFrames, Set.mem_image, Finset.coe_filter, Finset.mem_range, Set.mem_ofPred_eq]
    constructor
    · rintro ⟨k, hk, e, he, rfl⟩
      exact ⟨k, ⟨hk, by simp [hpage, he]⟩, by simp [hpage, he]⟩
    · rintro ⟨k, ⟨hk, hsome⟩, rfl⟩
      obtain ⟨e, he⟩ := Option.isSome_iff_exists.1 hsome
      exact ⟨k, hk, e, he, by simp [he]⟩
  have hinj : Set.InjOn (fun k => ptePage ((page k).getD 0))
      ((Finset.range stackPages).filter fun k => (page k).isSome : Finset Nat) := by
    intro k hk k' hk' heq
    obtain ⟨hk, hsome⟩ := Finset.mem_filter.1 hk
    obtain ⟨hk', hsome'⟩ := Finset.mem_filter.1 hk'
    rw [Finset.mem_range] at hk hk'
    obtain ⟨e, he⟩ := Option.isSome_iff_exists.1 hsome
    obtain ⟨e', he'⟩ := Option.isSome_iff_exists.1 hsome'
    simp only [he, he', Option.getD_some] at heq
    simp only [hpage, h.mem.kernelCr3] at he he'
    obtain ⟨-, hpath⟩ := h.mem.forest.apart _ _ _ _ e e' (h.stack_pos hb hk) (h.stack_pos hb hk')
      he he' heq
    have hat := (h.tasks.each j).stack hb
    obtain ⟨h1, h2, -⟩ := hat.range h.mem.next_hi hk
    obtain ⟨h1', h2', -⟩ := hat.range h.mem.next_hi hk'
    have hend := h.mem.next_hi
    have hdiv := heap_path_inj (by omega) (by simp only [Pmm.pageSize] at *; omega) (by omega)
      (by simp only [Pmm.pageSize] at *; omega) hpath
    simp only [alignDown, Pmm.pageSize] at hdiv
    omega
  rw [himage, Set.ncard_image_of_injOn hinj, Set.ncard_coe_finset]
  have hcard := Finset.card_filter_eq_iff (s := Finset.range stackPages)
    (p := fun k => (page k).isSome)
  rw [Finset.card_range] at hcard
  rw [hcard]
  simp only [StackMapped, Finset.mem_range, Option.isSome_iff_exists, hpage]

theorem SysInv.stackMapped_kept (h : SysInv D L X σ) (h' : SysInv D' L' X' σ') {j : Fin 32}
    (hbase : (σ'.threads j).stackBase = (σ.threads j).stackBase)
    (hframes : (σ.threads j).stackBase ≠ 0 → stackFrames σ'.vmm (σ.threads j).stackBase =
      stackFrames σ.vmm (σ.threads j).stackBase)
    (hb : (σ'.threads j).stackBase ≠ 0) (hm : StackMapped σ.vmm (σ.threads j).stackBase) :
    StackMapped σ'.vmm (σ'.threads j).stackBase := by
  have hb0 : (σ.threads j).stackBase ≠ 0 := by rwa [hbase] at hb
  rw [h'.stackMapped_iff hb, hbase, hframes hb0]
  exact (h.stackMapped_iff hb0).1 hm

theorem AllMapped.of_keeps (hm : AllMapped σ) (h : SysInv D L X σ) (h' : SysInv D' L' X' σ')
    (hk : ∀ j, Keeps σ σ' j) : AllMapped σ' := by
  intro j hb
  have hb0 : (σ.threads j).stackBase ≠ 0 := by rwa [(hk j).base] at hb
  exact h.stackMapped_kept h' (hk j).base (hk j).kstack hb (hm j hb0)

/-- Reaping unmaps the stacks of dead threads only, and these have none then. -/
theorem AllMapped.threadReapDead (hm : AllMapped σ) (h : SysInv D L X σ) :
    AllMapped (Thread.threadReapDead σ) := by
  obtain ⟨D', L', h', -, hr⟩ := h.threadReapDead
  intro j hb
  by_cases hd : j ∈ deadSlots σ
  · exact absurd ((h'.tasks.each j).unused (hr.gone j hd)).2 hb
  · have hk := hr.keeps hd
    have hb0 : (σ.threads j).stackBase ≠ 0 := by rwa [hk.base] at hb
    exact h.stackMapped_kept h' hk.base hk.kstack hb (hm j hb0)

theorem AllMapped.threadYield (hm : AllMapped σ) (h : SysInv D L X σ) {pick : Option (Fin 32)}
    (heq : threadYield σ pick = some σ') : AllMapped σ' := by
  obtain ⟨D', L', h', -, -⟩ := h.threadReapDead
  have hm' := hm.threadReapDead h
  unfold Thread.threadYield at heq
  cases pick with
  | none =>
      simp only [Option.ite_none_right_eq_some, Option.some.injEq] at heq
      obtain ⟨-, rfl⟩ := heq
      exact hm'
  | some i =>
      simp only [Option.ite_none_right_eq_some, Option.some.injEq] at heq
      obtain ⟨-, rfl⟩ := heq
      obtain ⟨h2, hk⟩ := h'.switchTo i
      exact hm'.of_keeps h' h2 hk

theorem exitCurrent_stackBase (σ : Sys) (j : Fin 32) :
    ((exitCurrent σ).threads j).stackBase = (σ.threads j).stackBase := by
  unfold exitCurrent
  by_cases hj : j = σ.cur
  · simp [Sys.setTask, Sys.current, hj]
  · simp [Sys.setTask, hj]

/-- A step that creates no thread keeps the stacks mapped. -/
theorem AllMapped.act (hm : AllMapped σ) (h : SysInv D L ∅ σ) {a : StackAct} {b : Act}
    (ha : a.act = some b) (heq : Thread.act σ b = some σ') : AllMapped σ' := by
  cases a with
  | create => simp [StackAct.act] at ha
  | yield pick =>
      obtain rfl : Act.yield pick = b := Option.some.inj ha
      exact hm.threadYield h heq
  | exit pick =>
      obtain rfl : Act.exit pick = b := Option.some.inj ha
      have harg := arg_of_act heq (by simp) (by simp)
      have hyield : Thread.threadYield (Thread.exitCurrent σ) pick = some σ' := by
        simpa [Thread.act, harg, threadExit] using heq
      obtain ⟨D1, L1, h1, -, -, hframes⟩ := h.exitCurrent harg
      refine AllMapped.threadYield (fun j hb => ?_) h1 hyield
      have hbase := exitCurrent_stackBase σ j
      exact h.stackMapped_kept h1 hbase (hframes j) hb (hm j (by rwa [hbase] at hb))
  | collect slot =>
      obtain rfl : Act.collect slot = b := Option.some.inj ha
      have harg := arg_of_act heq (by simp) (by simp)
      obtain rfl : Thread.reapZombieChild σ slot = σ' := by simpa [Thread.act, harg] using heq
      obtain ⟨h', hk⟩ := h.reapZombieChild slot
      exact hm.of_keeps h h' hk
  | reap =>
      obtain rfl : Act.reap = b := Option.some.inj ha
      have harg := arg_of_act heq (by simp) (by simp)
      obtain rfl : Thread.threadReapDead σ = σ' := by simpa [Thread.act, harg] using heq
      exact hm.threadReapDead h

/-! ### The end of the heap -/

theorem switchTo_next (σ : Sys) (next : Fin 32) :
    (switchTo σ next).nextPageVirt = σ.nextPageVirt := by
  unfold switchTo
  by_cases hrun : σ.current.state = .running
  · simp only [if_pos hrun]
    rfl
  · simp only [if_neg hrun]
    rfl

theorem SysInv.threadYield_next (h : SysInv D L X σ) {pick : Option (Fin 32)}
    (heq : Thread.threadYield σ pick = some σ') : σ'.nextPageVirt = σ.nextPageVirt := by
  obtain ⟨-, -, -, -, hr⟩ := h.threadReapDead
  unfold Thread.threadYield at heq
  cases pick with
  | none =>
      simp only [Option.ite_none_right_eq_some, Option.some.injEq] at heq
      obtain ⟨-, rfl⟩ := heq
      exact hr.nextPageVirt
  | some i =>
      simp only [Option.ite_none_right_eq_some, Option.some.injEq] at heq
      obtain ⟨-, rfl⟩ := heq
      exact (switchTo_next _ i).trans hr.nextPageVirt

/-- Only `thread_create` moves the end of the heap. -/
theorem SysInv.act_next (h : SysInv D L ∅ σ) {a : StackAct} {b : Act} (ha : a.act = some b)
    (heq : Thread.act σ b = some σ') : σ'.nextPageVirt = σ.nextPageVirt := by
  cases a with
  | create => simp [StackAct.act] at ha
  | yield pick =>
      obtain rfl : Act.yield pick = b := Option.some.inj ha
      exact h.threadYield_next heq
  | exit pick =>
      obtain rfl : Act.exit pick = b := Option.some.inj ha
      have harg := arg_of_act heq (by simp) (by simp)
      have hyield : Thread.threadYield (Thread.exitCurrent σ) pick = some σ' := by
        simpa [Thread.act, harg, threadExit] using heq
      obtain ⟨D1, L1, h1, -⟩ := h.exitCurrent harg
      exact h1.threadYield_next hyield
  | collect slot =>
      obtain rfl : Act.collect slot = b := Option.some.inj ha
      have harg := arg_of_act heq (by simp) (by simp)
      obtain rfl : Thread.reapZombieChild σ slot = σ' := by simpa [Thread.act, harg] using heq
      unfold Thread.reapZombieChild
      dsimp only
      split_ifs <;> rfl
  | reap =>
      obtain rfl : Act.reap = b := Option.some.inj ha
      have harg := arg_of_act heq (by simp) (by simp)
      obtain rfl : Thread.threadReapDead σ = σ' := by simpa [Thread.act, harg] using heq
      obtain ⟨-, -, -, -, hr⟩ := h.threadReapDead
      exact hr.nextPageVirt

/-! ### New stacks -/

theorem MemInv.stackEnd {next : Nat} {s : VmmState} (h : MemInv D L next s) :
    alignDown next = next ∧ u64 (next + stackPages * pageSize) = next + stackPages * pageSize := by
  have hhi := h.next_hi
  refine ⟨alignDown_of_mod h.next_mod, ?_⟩
  simp only [u64, heapUsableEnd_eq, stackPages_eq, Pmm.pageSize] at *
  omega

/-- With room in the arena and the pages there is a stack. -/
theorem SysInv.kmallocStack_some (h : SysInv D L X σ) (hpages : ¬ PagesLack σ)
    (hroom : σ.nextPageVirt + stackPages * pageSize ≤ heapUsableEnd) :
    ∃ stack σ', Thread.kmallocStack σ = some (stack, σ') ∧ stack ≠ 0 := by
  obtain ⟨hal, hend⟩ := h.mem.stackEnd
  unfold PagesLack at hpages
  unfold Thread.kmallocStack
  simp only [hal, hend, if_neg (Nat.not_lt.2 hroom)] at hpages ⊢
  obtain ⟨hne, hmap⟩ := not_or.1 hpages
  rw [if_neg hne]
  generalize hm : vmmMapRange _ _ _ _ _ = m at hmap ⊢
  cases hok : m.1 with
  | true => exact ⟨_, _, rfl, by omega⟩
  | false =>
      refine absurd ⟨hok, ?_⟩ hmap
      rw [← hm] at hok ⊢
      exact vmmMapRange_refused hok

/-- Without room in the arena the kernel panics. -/
theorem SysInv.kmallocStack_none (h : SysInv D L X σ)
    (hroom : heapUsableEnd < σ.nextPageVirt + stackPages * pageSize) :
    Thread.kmallocStack σ = none := by
  obtain ⟨hal, hend⟩ := h.mem.stackEnd
  unfold Thread.kmallocStack
  simp only [hal, hend]
  rw [if_pos hroom]

theorem Live.slot (h : Live σ.current) : findFreeSlot σ ≠ some σ.cur := by
  intro heq
  rcases (findFreeSlot_spec heq).2 with hu | hd
  · exact h.1 hu
  · exact h.2.1 hd

theorem threadSpawn_panic {i : Fin 32} (hfree : findFreeSlot (Thread.threadReapDead σ) = some i)
    (hks : Thread.kmallocStack (Thread.threadReapDead σ) = none) : threadSpawn σ = none := by
  unfold threadSpawn
  generalize Thread.threadReapDead σ = ρ at *
  simp only [hfree, hks]

theorem threadSpawn_stack {i : Fin 32} {stack : Nat}
    (hfree : findFreeSlot (Thread.threadReapDead σ) = some i)
    (hks : Thread.kmallocStack (Thread.threadReapDead σ) = some (stack, σ')) (hne : stack ≠ 0) :
    threadSpawn σ = some (some i,
      { σ'.setTask i { σ'.threads i with
          state := .ready, tid := σ'.nextTid, parentTid := 0, arg := none, stackBase := stack,
          vm := newVm } with nextTid := σ'.nextTid + 1 }) := by
  unfold threadSpawn
  generalize Thread.threadReapDead σ = ρ at *
  simp only [hfree, hks, if_neg hne]
  rfl

/-- `thread_create` when there is room for the stack. -/
theorem SysInv.threadSpawn_some (h : SysInv D L ∅ σ) (hm : AllMapped σ) (hfit : Fits σ .create)
    (hroom : σ.nextPageVirt + stackPages * pageSize ≤ heapUsableEnd) :
    ∃ i σ', threadSpawn σ = some (some i, σ') ∧ Consistent σ' ∧ AllMapped σ' ∧
      σ'.nextPageVirt = σ.nextPageVirt + stackPages * pageSize := by
  obtain ⟨hlive, -, hslot, hpages⟩ := hfit
  obtain ⟨D1, L1, h1, -, hr⟩ := h.threadReapDead
  obtain ⟨i, hfree⟩ := Option.ne_none_iff_exists'.1 hslot
  rw [← h.findFreeSlot_reap] at hfree
  obtain ⟨stack, σ2, hks, hs0⟩ := h1.kmallocStack_some hpages
    (by rw [hr.nextPageVirt]; exact hroom)
  obtain ⟨D2, L2, h2, hi0, hi, hcur, -, -, hstack⟩ := h.newSlot hlive.slot hfree hks
  obtain ⟨hat, hmapped, hnext, hapart⟩ := hstack hs0
  obtain ⟨L3, h3, -, hk, -⟩ := h1.kmallocStack hks
  have hm2 : AllMapped σ2 := (hm.threadReapDead h).of_keeps h1 h3 hk
  set t : Task := { σ2.threads i with
    state := .ready, tid := σ2.nextTid, parentTid := 0, arg := none, stackBase := stack,
    vm := newVm } with ht
  obtain ⟨h4, hk4⟩ := h2.enter hi0 hi hcur hat hapart (t := t)
    ((h2.tasks.each i).unused hi).1 (fun r => by simp [ht]) rfl rfl rfl
  refine ⟨i, { σ2.setTask i t with nextTid := σ2.nextTid + 1 }, ?_,
    ⟨D2, L2, h4.mem, h4.tasks, h4.loaded⟩, fun j hb => ?_, hnext⟩
  · exact threadSpawn_stack hfree hks hs0
  · change ((σ2.setTask i t).threads j).stackBase ≠ 0 at hb
    change StackMapped σ2.vmm ((σ2.setTask i t).threads j).stackBase
    by_cases hj : j = i
    · subst hj
      simpa [Sys.setTask, ht] using hmapped
    · have hother : (σ2.setTask i t).threads j = σ2.threads j := Function.update_of_ne hj _ _
      rw [hother] at hb ⊢
      exact hm2 j hb

/-- `thread_create` when there is no room for the stack. -/
theorem SysInv.threadSpawn_none (h : SysInv D L ∅ σ) (hslot : findFreeSlot σ ≠ none)
    (hroom : heapUsableEnd < σ.nextPageVirt + stackPages * pageSize) : threadSpawn σ = none := by
  obtain ⟨D1, L1, h1, -, hr⟩ := h.threadReapDead
  obtain ⟨i, hfree⟩ := Option.ne_none_iff_exists'.1 hslot
  rw [← h.findFreeSlot_reap] at hfree
  have hks := h1.kmallocStack_none (by rw [hr.nextPageVirt]; exact hroom)
  exact threadSpawn_panic hfree hks

/-! ### Runs -/

theorem SysInv.stacksSound (h : SysInv D L X σ) (hm : AllMapped σ) : StacksSound σ :=
  ⟨hm, h.tasks.apart⟩

/-- A step that creates no thread. -/
theorem SysInv.sustained_act (h : SysInv D L ∅ σ) (hm : AllMapped σ) {a : StackAct} {b : Act}
    (ha : a.act = some b) :
    Sustained σ a ∧ Consistent (stackStep σ a) ∧ AllMapped (stackStep σ a) ∧
      (stackStep σ a).nextPageVirt = σ.nextPageVirt := by
  have hstep : stackStep σ a = threadStep σ b := by simp only [stackStep, ha]
  have hok : Allowed σ b := by
    cases a <;> simp only [StackAct.act, Option.some.injEq, reduceCtorEq] at ha <;> subst ha <;>
      trivial
  have hnot : a ≠ .create := by
    rintro rfl
    simp [StackAct.act] at ha
  obtain ⟨⟨D', L', h'⟩, hsafe⟩ := Consistent.step ⟨D, L, h⟩ hok
  have hm' : AllMapped (threadStep σ b) ∧
      (threadStep σ b).nextPageVirt = σ.nextPageVirt := by
    cases hact : Thread.act σ b with
    | none => simpa [threadStep, hact] using hm
    | some σ' =>
        rw [threadStep_of_act hact]
        exact ⟨hm.act h ha hact, h.act_next ha hact⟩
  rw [hstep]
  refine ⟨⟨fun hc => absurd hc hnot, fun ρ hρ => ?_, ?_⟩, ⟨D', L', h'⟩, hm'⟩
  · simp only [StackAct.reapPoint, ha, Option.ite_none_right_eq_some] at hρ
    exact hsafe.reaped ρ hρ.1 hρ.2
  · rw [hstep]
    exact h'.stacksSound hm'.1

/-- A step of a run, when the arena has room for what it creates. -/
theorem SysInv.sustained_step (h : SysInv D L ∅ σ) (hm : AllMapped σ) {a : StackAct}
    (hfit : Fits σ a)
    (hroom : σ.nextPageVirt + creates [a] * (stackPages * pageSize) ≤ heapUsableEnd) :
    Sustained σ a ∧ Consistent (stackStep σ a) ∧ AllMapped (stackStep σ a) ∧
      (stackStep σ a).nextPageVirt = σ.nextPageVirt + creates [a] * (stackPages * pageSize) := by
  cases ha : a.act with
  | none =>
      obtain rfl : a = .create := by
        cases a <;> first | rfl | simp [StackAct.act] at ha
      rw [creates_create, Nat.one_mul] at hroom ⊢
      obtain ⟨i, σ', heq, ⟨D', L', h'⟩, hm', hnext⟩ := h.threadSpawn_some hm hfit hroom
      have hstep : stackStep σ .create = σ' := by simp [stackStep, StackAct.act, heq]
      rw [hstep]
      refine ⟨⟨fun _ => ⟨i, σ', heq⟩, fun ρ hρ => ?_, ?_⟩, ⟨D', L', h'⟩, hm', hnext⟩
      · obtain rfl : σ = ρ := Option.some.inj hρ
        exact h.reapSafe
      · rw [hstep]
        exact h'.stacksSound hm'
  | some b =>
      rw [creates_act ha, Nat.zero_mul]
      exact h.sustained_act hm ha

/-- A step of a run, when the arena has no room for what it creates. -/
theorem SysInv.not_sustained_step (h : SysInv D L ∅ σ) {a : StackAct} (hfit : Fits σ a)
    (hroom : heapUsableEnd < σ.nextPageVirt + creates [a] * (stackPages * pageSize)) :
    ¬ Sustained σ a := by
  intro hs
  cases ha : a.act with
  | none =>
      obtain rfl : a = .create := by
        cases a <;> first | rfl | simp [StackAct.act] at ha
      rw [creates_create, Nat.one_mul] at hroom
      obtain ⟨i, σ', heq⟩ := hs.created rfl
      rw [h.threadSpawn_none hfit.2.2.1 hroom] at heq
      exact absurd heq (by simp)
  | some b =>
      rw [creates_act ha, Nat.zero_mul] at hroom
      exact absurd h.mem.next_hi (Nat.not_le.2 hroom)

end

theorem allSteps_sustained_iff {σ : Sys} (h : Consistent σ) (hm : AllMapped σ) (acts : List StackAct)
    (hfits : AllSteps stackStep Fits σ acts) :
    AllSteps stackStep Sustained σ acts ↔
      σ.nextPageVirt + creates acts * (stackPages * pageSize) ≤ heapUsableEnd := by
  induction acts generalizing σ with
  | nil =>
      obtain ⟨D, L, h⟩ := h
      simpa [creates] using h.mem.next_hi
  | cons a acts ih =>
      obtain ⟨D, L, h⟩ := h
      obtain ⟨hfit, hrest⟩ := hfits
      rw [creates_cons, Nat.add_mul, ← Nat.add_assoc, allSteps_cons]
      by_cases hroom : σ.nextPageVirt + creates [a] * (stackPages * pageSize) ≤ heapUsableEnd
      · obtain ⟨hs, hcons, hm', hnext⟩ := h.sustained_step hm hfit hroom
        rw [ih hcons hm' hrest, hnext]
        exact and_iff_right hs
      · have hnot := h.not_sustained_step hfit (Nat.lt_of_not_le hroom)
        refine iff_of_false (fun hs => hnot hs.1) fun hle => hroom ?_
        exact (Nat.le_add_right _ _).trans hle

/-- How many more stacks the arena holds. -/
def stacksLeft (σ : Sys) : Nat := (heapUsableEnd - σ.nextPageVirt) / (stackPages * pageSize)

/-- In a run whose steps may be taken, every step does what it has to do if and
only if the arena holds the stacks of all threads the run creates, whether or not
they are still there. -/
theorem sustained_run_iff {σ : Sys} (h : Consistent σ) (hm : AllMapped σ) (acts : List StackAct)
    (hfits : AllSteps stackStep Fits σ acts) :
    AllSteps stackStep Sustained σ acts ↔ creates acts ≤ stacksLeft σ := by
  rw [allSteps_sustained_iff h hm acts hfits]
  obtain ⟨D, L, h⟩ := h
  have hpos : 0 < stackPages * pageSize := by decide
  rw [stacksLeft, Nat.le_div_iff_mul_le hpos, Nat.le_sub_iff_add_le h.mem.next_hi, Nat.add_comm]

end FiFi.Thread
