import FiFi.Thread.Stacks

/-!
# One thread after the other

The main thread creates a thread, which ends at once and is reaped, over and over
again. There are never more than two threads, and every turn leaves the machine
as it was but for two numbers: `next_page_virt`, and the cursor of the page
allocator, from which runs of pages come. `Within n s s'` bounds the second one.
-/

namespace FiFi.Thread

open Pmm Vmm Fork Syscall StateMachine Loop

/-! ### The cursor of the page allocator -/

/-- The pages that have never been handed out: the cursor, and where they end. -/
def zone (s : PmmState) : Nat × Nat := (s.cursor, s.stop)

/-- The cursor moves by `n` pages at most. -/
structure Within (n : Nat) (z z' : Nat × Nat) : Prop where
  stop : z'.2 = z.2
  cursor : z.1 + n * pageSize < 2 ^ 64 → z.1 ≤ z'.1 ∧ z'.1 ≤ z.1 + n * pageSize

theorem Within.refl (n : Nat) (z : Nat × Nat) : Within n z z :=
  ⟨rfl, fun _ => ⟨le_rfl, Nat.le_add_right _ _⟩⟩

theorem Within.trans {n m : Nat} {z z' z'' : Nat × Nat} (h : Within n z z')
    (h' : Within m z' z'') : Within (n + m) z z'' := by
  refine ⟨h'.stop.trans h.stop, fun hlt => ?_⟩
  rw [Nat.add_mul] at hlt ⊢
  obtain ⟨h1, h2⟩ := h.cursor (by omega)
  obtain ⟨h3, h4⟩ := h'.cursor (by omega)
  exact ⟨by omega, by omega⟩

theorem Within.mono {n m : Nat} {z z' : Nat × Nat} (h : Within n z z') (hle : n ≤ m) :
    Within m z z' := by
  have hmul := Nat.mul_le_mul_right pageSize hle
  refine ⟨h.stop, fun hlt => ?_⟩
  obtain ⟨h1, h2⟩ := h.cursor (by omega)
  exact ⟨h1, by omega⟩

theorem within_allocPage (s : PmmState) : Within 1 (zone s) (zone (pmmAllocPage s).2) := by
  unfold pmmAllocPage
  split_ifs with h1 h2 h3
  · exact Within.refl 1 _
  · exact Within.refl 1 _
  · exact Within.refl 1 _
  · refine ⟨by simp only [zone], fun hlt => ?_⟩
    simp only [zone, u64, Nat.one_mul] at hlt ⊢
    rw [Nat.mod_eq_of_lt (by exact hlt)]
    exact ⟨Nat.le_add_right _ _, le_rfl⟩

theorem within_allocPages (s : PmmState) (count : Nat) :
    Within count (zone s) (zone (pmmAllocPages s count).2) := by
  unfold pmmAllocPages
  dsimp only
  by_cases h1 : count = 0
  · rw [if_pos h1]
    exact Within.refl count _
  by_cases h2 : s.cursor = 0
  · rw [if_neg h1, if_pos h2]
    exact Within.refl count _
  by_cases h3 : s.stop < u64 (s.cursor + u64 (count * pageSize))
  · rw [if_neg h1, if_neg h2, if_pos h3]
    exact Within.refl count _
  · rw [if_neg h1, if_neg h2, if_neg h3]
    refine ⟨rfl, fun hlt => ?_⟩
    simp only [zone, u64] at hlt ⊢
    rw [Nat.mod_eq_of_lt (show count * pageSize < 2 ^ 64 by omega), Nat.mod_eq_of_lt hlt]
    exact ⟨Nat.le_add_right _ _, le_rfl⟩

@[simp] theorem zone_setEntry (s : VmmState) (t i e : Nat) :
    zone (s.setEntry t i e).pmm = zone s.pmm := rfl

@[simp] theorem zone_freePage (s : VmmState) (phys : Nat) :
    zone (freePage s phys).pmm = zone s.pmm := by
  unfold freePage pmmFreePage
  dsimp only
  split_ifs <;> rfl

theorem within_ensureTable (s : VmmState) (parent index : Nat) (user : Bool) :
    Within 1 (zone s.pmm) (zone (ensureTable s parent index user).2.pmm) := by
  unfold ensureTable
  dsimp only
  split_ifs with h1 hu h2
  · exact Within.refl 1 _
  · exact Within.refl 1 _
  · exact within_allocPage s.pmm
  · exact within_allocPage s.pmm

theorem within_mapPageInto (s : VmmState) (root virt phys flags : Nat) :
    Within 3 (zone s.pmm) (zone (vmmMapPageInto s root virt phys flags).2.pmm) := by
  unfold vmmMapPageInto
  dsimp only
  have h1 := within_ensureTable s root (idxPml4 virt) (flags &&& vmmUser ≠ 0)
  split <;> rename_i heq1 <;> rw [heq1] at h1
  · exact h1.mono (by omega)
  rename_i pdpt s1
  have h2 := within_ensureTable s1 pdpt (idxPdpt virt) (flags &&& vmmUser ≠ 0)
  split <;> rename_i heq2 <;> rw [heq2] at h2
  · exact (h1.trans h2).mono (by omega)
  rename_i pd s2
  have h3 := within_ensureTable s2 pd (idxPd virt) (flags &&& vmmUser ≠ 0)
  split <;> rename_i heq3 <;> rw [heq3] at h3
  · exact (h1.trans h2).trans h3
  · exact (h1.trans h2).trans h3

theorem within_forUpTo {n : Nat} {body : Nat → VmmState → Bool × VmmState}
    (hbody : ∀ k s, Within n (zone s.pmm) (zone (body k s).2.pmm)) (m : Nat) (s : VmmState) :
    Within (m * n) (zone s.pmm) (zone (forUpTo body m s).2.pmm) := by
  induction m with
  | zero => exact Within.refl _ _
  | succ m ih =>
      rw [Nat.succ_mul]
      unfold forUpTo
      split <;> rename_i heq <;> rw [heq] at ih
      · exact ih.mono (Nat.le_add_right _ _)
      · exact ih.trans (hbody m _)

theorem within_mapRange (s : VmmState) (virt phys size flags : Nat) :
    Within (rangePages virt size * 3) (zone s.pmm) (zone (vmmMapRange s virt phys size flags).2.pmm) :=
  within_forUpTo (fun _ s => within_mapPageInto s _ _ _ flags) _ s

@[simp] theorem zone_unmapPageIn (s : VmmState) (root virt : Nat) :
    zone (unmapPageIn s root virt).2.pmm = zone s.pmm := by
  unfold unmapPageIn
  dsimp only
  split_ifs <;> simp

theorem zone_unmapPageAndFreeIn (s : VmmState) (root virt : Nat) :
    zone (unmapPageAndFreeIn s root virt).2.pmm = zone s.pmm := by
  unfold unmapPageAndFreeIn
  dsimp only
  split_ifs <;> simp

theorem zone_unmapRange (s : VmmState) (virt size : Nat) :
    zone (vmmUnmapRangeAndFree s virt size).2.pmm = zone s.pmm := by
  have hloop : ∀ n, zone (forUpTo (fun k s => vmmUnmapPageAndFree s
      (u64 (alignDown virt + k * pageSize))) n s).2.pmm = zone s.pmm := by
    intro n
    induction n with
    | zero => rfl
    | succ n ih =>
        unfold forUpTo
        split <;> rename_i heq <;> rw [heq] at ih
        · exact ih
        · exact (zone_unmapPageAndFreeIn _ _ _).trans ih
  unfold vmmUnmapRangeAndFree
  split_ifs
  · rfl
  · exact hloop _

/-! ### The phases of a turn -/

/-- The main thread, perhaps one in slot 1, and no others. All are threads of the
kernel without a parent. -/
structure Pair (σ : Sys) (cur : Fin 32) (main one : TState) : Prop where
  cur : σ.cur = cur
  main : (σ.threads 0).state = main
  one : (σ.threads 1).state = one
  others : ∀ i, i ≠ 0 → i ≠ 1 → (σ.threads i).state = .unused
  plain : ∀ i, (σ.threads i).cr3 = 0 ∧ (σ.threads i).arg = none ∧ (σ.threads i).parentTid = 0

/-- Changing one of the two threads. -/
theorem Pair.set {σ : Sys} {cur cur' i : Fin 32} {main one main' one' : TState}
    (h : Pair σ cur main one) {t : Task} {σ' : Sys}
    (hth : σ'.threads = Function.update σ.threads i t) (hcur : σ'.cur = cur')
    (ht : t.cr3 = 0 ∧ t.arg = none ∧ t.parentTid = 0)
    (hi : i = 0 ∧ t.state = main' ∧ one' = one ∨ i = 1 ∧ t.state = one' ∧ main' = main) :
    Pair σ' cur' main' one' := by
  have hplain : ∀ j, (σ'.threads j).cr3 = 0 ∧ (σ'.threads j).arg = none ∧
      (σ'.threads j).parentTid = 0 := by
    intro j
    rw [hth]
    by_cases hj : j = i
    · rw [hj, Function.update_self]
      exact ht
    · rw [Function.update_of_ne hj]
      exact h.plain j
  rcases hi with ⟨rfl, rfl, rfl⟩ | ⟨rfl, rfl, rfl⟩
  · refine ⟨hcur, by rw [hth, Function.update_self], ?_, fun j h0 h1 => ?_, hplain⟩
    · rw [hth, Function.update_of_ne (by decide)]
      exact h.one
    · rw [hth, Function.update_of_ne h0]
      exact h.others j h0 h1
  · refine ⟨hcur, ?_, by rw [hth, Function.update_self], fun j h0 h1 => ?_, hplain⟩
    · rw [hth, Function.update_of_ne (by decide)]
      exact h.main
    · rw [hth, Function.update_of_ne h1]
      exact h.others j h0 h1

/-- Nothing is reaped when no thread but the one that runs is dead. -/
theorem threadReapDead_none {σ : Sys} (h : ∀ i, (σ.threads i).state = .dead → i = σ.cur) :
    threadReapDead σ = σ := by
  refine List.foldl_fixed' (fun i => ?_) slots
  unfold reapSlot
  by_cases hd : (σ.threads i).state = .dead
  · simp [hd, h i hd]
  · simp [hd]

theorem Pair.reap_none {σ : Sys} {cur : Fin 32} {main one : TState} (h : Pair σ cur main one)
    (hmain : main ≠ .dead) (hone : one = .dead → cur = 1) : threadReapDead σ = σ := by
  refine threadReapDead_none fun i hd => ?_
  by_cases h0 : i = 0
  · rw [h0, h.main] at hd
    exact absurd hd hmain
  by_cases h1 : i = 1
  · rw [h1, h.one] at hd
    rw [h1, h.cur, hone hd]
  · rw [h.others i h0 h1] at hd
    exact absurd hd (by simp)

section

variable {D : Domain} {L : List Nat} {X : Set Nat} {σ σ' : Sys}

theorem SysInv.kmallocStack_within (h : SysInv D L X σ) {stack : Nat}
    (heq : Thread.kmallocStack σ = some (stack, σ')) :
    Within (stackPages * 4) (zone σ.vmm.pmm) (zone σ'.vmm.pmm) := by
  obtain ⟨hal, hend⟩ := h.mem.stackEnd
  have hrun := within_allocPages σ.vmm.pmm stackPages
  unfold Thread.kmallocStack at heq
  simp only [hal, hend] at heq
  split_ifs at heq with h1 h2 h3
  · obtain ⟨-, rfl⟩ := Prod.mk.inj (Option.some.inj heq)
    exact hrun.mono (Nat.le_mul_of_pos_right _ (by decide))
  · obtain ⟨-, rfl⟩ := Prod.mk.inj (Option.some.inj heq)
    have hmap := within_mapRange { σ.vmm with pmm := (pmmAllocPages σ.vmm.pmm stackPages).2 }
      σ.nextPageVirt (pmmAllocPages σ.vmm.pmm stackPages).1 (stackPages * Pmm.pageSize) vmmWrite
    rw [rangePages_stack h.mem.next_mod] at hmap
    exact hrun.trans hmap

theorem slots_cons : slots = 1 :: slots.tail := by decide

theorem Pair.freeSlot {cur : Fin 32} {main : TState} (h : Pair σ cur main .unused) :
    findFreeSlot σ = some 1 := by
  rw [findFreeSlot, slots_cons]
  exact List.find?_cons_of_pos (by simp [h.one])

/-- The main thread creates a thread. -/
theorem Pair.create (h : Pair σ 0 .running .unused) (hinv : SysInv D L ∅ σ)
    (hpages : ¬ PagesLack σ)
    (hroom : σ.nextPageVirt + stackPages * Pmm.pageSize ≤ heapUsableEnd) :
    Pair (stackStep σ .create) 0 .running .ready ∧
      Within (stackPages * 4) (zone σ.vmm.pmm) (zone (stackStep σ .create).vmm.pmm) := by
  have hreap : threadReapDead σ = σ := h.reap_none (by simp) (by simp)
  have hfree := h.freeSlot
  obtain ⟨stack, σ', hks, hne⟩ := hinv.kmallocStack_some hpages hroom
  obtain ⟨-, -, ⟨hth, hcur⟩, -, -⟩ := hinv.kmallocStack hks
  have hfree' : findFreeSlot (threadReapDead σ) = some 1 := by rw [hreap]; exact hfree
  have hspawn := threadSpawn_stack hfree' (by rw [hreap]; exact hks) hne
  have hstep : stackStep σ .create = { σ'.setTask 1 { σ'.threads 1 with
      state := .ready, tid := σ'.nextTid, parentTid := 0, arg := none, stackBase := stack,
      vm := newVm } with nextTid := σ'.nextTid + 1 } := by
    simp [stackStep, StackAct.act, hspawn]
  have hwithin := hinv.kmallocStack_within hks
  have hthreads : (stackStep σ .create).threads = Function.update σ.threads 1
      { σ.threads 1 with
        state := .ready, tid := σ'.nextTid, parentTid := 0, arg := none, stackBase := stack,
        vm := newVm } := by
    rw [hstep, ← hth]
    rfl
  refine ⟨h.set hthreads ?_ ⟨(h.plain 1).1, rfl, rfl⟩ (Or.inr ⟨rfl, rfl, rfl⟩), ?_⟩
  · rw [hstep]
    exact hcur.trans h.cur
  · rw [hstep]
    exact hwithin

theorem switchTo_zone (σ : Sys) (next : Fin 32) :
    zone (switchTo σ next).vmm.pmm = zone σ.vmm.pmm := by rw [switchTo_pmm]

/-- The new thread runs. -/
theorem Pair.yield (h : Pair σ 0 .running .ready) :
    Pair (stackStep σ (.yield (some 1))) 1 .ready .running ∧
      zone (stackStep σ (.yield (some 1))).vmm.pmm = zone σ.vmm.pmm := by
  have hreap : threadReapDead σ = σ := h.reap_none (by simp) (by simp)
  have hstep : stackStep σ (.yield (some 1)) = switchTo σ 1 := by
    simp [stackStep, StackAct.act, threadStep, act, threadYield, hreap, h.one]
  rw [hstep, switchTo_zone]
  refine ⟨?_, rfl⟩
  have hrun : σ.current.state = .running := by
    rw [Sys.current, h.cur]
    exact h.main
  have hplain := h.plain σ.cur
  -- the main thread is ready first, then the new thread runs
  have h1 : Pair (σ.setTask 0 { σ.current with state := .ready }) 0 .ready .ready :=
    h.set rfl h.cur hplain (Or.inl ⟨rfl, rfl, rfl⟩)
  have hthreads : (switchTo σ 1).threads = Function.update
      (σ.setTask 0 { σ.current with state := .ready }).threads 1
      { (σ.setTask 0 { σ.current with state := .ready }).threads 1 with state := .running } := by
    unfold switchTo
    simp only [if_pos hrun, h.cur]
    rfl
  exact h1.set hthreads rfl (h1.plain 1) (Or.inr ⟨rfl, rfl, rfl⟩)

/-- The new thread ends, and the main thread runs again. -/
theorem Pair.exit (h : Pair σ 1 .ready .running) (hinv : SysInv D L ∅ σ) :
    Pair (stackStep σ (.exit (some 0))) 0 .running .dead ∧
      zone (stackStep σ (.exit (some 0))).vmm.pmm = zone σ.vmm.pmm := by
  obtain ⟨hcr3, harg, hparent⟩ : σ.current.cr3 = 0 ∧ σ.current.arg = none ∧
      σ.current.parentTid = 0 := h.plain σ.cur
  have hclean : (userCleanup σ.vmm σ.current.vm).1 = σ.vmm :=
    userCleanup_none ((hinv.tasks.each σ.cur).noMaps hcr3 harg)
  have hzombie : goZombie σ σ.current = false := by simp [goZombie, hparent]
  have hexit : exitCurrent σ = σ.setTask 1 { σ.current with
      cr3 := 0, vm := (userCleanup σ.vmm σ.current.vm).2, state := .dead } := by
    simp [exitCurrent, hcr3, hclean, hzombie, h.cur, Sys.setTask]
  have h1 : Pair (exitCurrent σ) 1 .ready .dead := by
    rw [hexit]
    exact h.set rfl h.cur ⟨rfl, harg, hparent⟩ (Or.inr ⟨rfl, rfl, rfl⟩)
  have hreap : threadReapDead (exitCurrent σ) = exitCurrent σ :=
    h1.reap_none (by simp) fun _ => rfl
  have hstep : stackStep σ (.exit (some 0)) = switchTo (exitCurrent σ) 0 := by
    simp [stackStep, StackAct.act, threadStep, act, harg, threadExit, threadYield, hreap, h1.main]
  have hdead : (exitCurrent σ).current.state ≠ .running := by
    rw [Sys.current, h1.cur, h1.one]
    simp
  have hthreads : (switchTo (exitCurrent σ) 0).threads = Function.update (exitCurrent σ).threads 0
      { (exitCurrent σ).threads 0 with state := .running } := by
    unfold switchTo
    simp only [if_neg hdead]
    rfl
  rw [hstep, switchTo_zone]
  refine ⟨h1.set hthreads rfl (h1.plain 0) (Or.inl ⟨rfl, rfl, rfl⟩), ?_⟩
  rw [hexit]
  rfl

/-- The thread that has ended is reaped. -/
theorem Pair.reap (h : Pair σ 0 .running .dead) (hinv : SysInv D L ∅ σ) :
    Pair (stackStep σ .reap) 0 .running .unused ∧
      zone (stackStep σ .reap).vmm.pmm = zone σ.vmm.pmm := by
  obtain ⟨hcr3, harg, -⟩ := h.plain 1
  have hclean : (userCleanup σ.vmm (σ.threads 1).vm).1 = σ.vmm :=
    userCleanup_none ((hinv.tasks.each 1).noMaps hcr3 harg)
  have hcur : ¬ (1 : Fin 32) = σ.cur := by
    rw [h.cur]
    decide
  have hslot : reapSlot σ 1 = { σ with vmm := reapMemory σ.vmm (σ.threads 1) }.setTask 1
      { state := .unused, tid := 0, parentTid := 0, cr3 := 0, arg := none, stackBase := 0,
        vm := userMapsZero (σ.threads 1).vm } := by
    simp [reapSlot, h.one, hcur]
  have h1 : Pair (reapSlot σ 1) 0 .running .unused := by
    rw [hslot]
    exact h.set rfl h.cur ⟨rfl, rfl, rfl⟩ (Or.inr ⟨rfl, rfl, rfl⟩)
  have hrest : threadReapDead (reapSlot σ 1) = threadReapDead σ := by
    have hagain : reapSlot (reapSlot σ 1) 1 = reapSlot σ 1 := if_pos (by rw [h1.one]; simp)
    rw [threadReapDead, threadReapDead, slots_cons, List.foldl_cons, List.foldl_cons, hagain]
  have hreap : threadReapDead σ = reapSlot σ 1 := hrest.symm.trans (h1.reap_none (by simp) (by simp))
  have hstep : stackStep σ .reap = reapSlot σ 1 := by
    have hnone : σ.current.arg = none := (h.plain σ.cur).2.1
    simp [stackStep, StackAct.act, threadStep, act, hnone, hreap]
  rw [hstep]
  refine ⟨h1, ?_⟩
  rw [hslot]
  change zone (reapMemory σ.vmm (σ.threads 1)).pmm = _
  simp only [reapMemory, hcr3, ne_eq, not_true_eq_false, if_false, hclean]
  split_ifs
  · rfl
  · exact zone_unmapRange _ _ _

end

/-! ### Turns -/

/-- A thread is created, runs, ends and is reaped. -/
def turn : List StackAct := [.create, .yield (some 1), .exit (some 0), .reap]

def turns (n : Nat) : List StackAct := (List.replicate n turn).flatten

theorem turns_succ (n : Nat) : turns (n + 1) = turn ++ turns n := by
  simp [turns, List.replicate_succ]

theorem creates_append (as bs : List StackAct) :
    creates (as ++ bs) = creates as + creates bs := List.countP_append

theorem creates_turns (n : Nat) : creates (turns n) = n := by
  induction n with
  | zero => rfl
  | succ n ih =>
      rw [turns_succ, creates_append, ih, show creates turn = 1 by decide, Nat.add_comm]

section

variable {D : Domain} {L : List Nat} {σ : Sys}

theorem pmmAllocPage_ne_zero {s : PmmState} (h0 : s.cursor ≠ 0)
    (hle : s.cursor + Pmm.pageSize ≤ s.stop) (hstop : s.stop < 2 ^ 64) :
    (pmmAllocPage s).1 ≠ 0 := by
  have hlt : u64 (s.cursor + Pmm.pageSize) = s.cursor + Pmm.pageSize :=
    Nat.mod_eq_of_lt (hle.trans_lt hstop)
  unfold pmmAllocPage
  by_cases hf : s.freeList = 0
  · rw [if_neg (not_not_intro hf), if_neg h0, hlt, if_neg (Nat.not_lt.2 hle)]
    exact h0
  · rw [if_pos hf]
    exact hf

/-- Enough pages from the cursor on are enough for a stack. -/
theorem SysInv.pages_suffice (h : SysInv D L ∅ σ)
    (hmem : σ.vmm.pmm.cursor + (stackPages * 4 + 1) * Pmm.pageSize ≤ σ.vmm.pmm.stop) :
    ¬ PagesLack σ := by
  have hstop := h.mem.forest.pmm.stop_le
  have hmin := h.mem.forest.pmm.minPhys_le
  obtain ⟨hal, -⟩ := h.mem.stackEnd
  have hrun := within_allocPages σ.vmm.pmm stackPages
  have hmap := within_mapRange { σ.vmm with pmm := (pmmAllocPages σ.vmm.pmm stackPages).2 }
      σ.nextPageVirt (pmmAllocPages σ.vmm.pmm stackPages).1 (stackPages * Pmm.pageSize) vmmWrite
  rw [rangePages_stack h.mem.next_mod] at hmap
  have hall := hrun.trans hmap
  unfold PagesLack
  simp only [hal]
  rintro (hno | ⟨-, hno⟩)
  · unfold pmmAllocPages at hno
    simp only [stackPages_eq, u64, Pmm.pageSize, minPhys] at *
    split_ifs at hno <;> omega
  · generalize (vmmMapRange _ _ _ _ _).2.pmm = s' at *
    obtain ⟨hs, hc⟩ := hall
    simp only [zone] at hs hc
    refine pmmAllocPage_ne_zero ?_ ?_ ?_ hno
    · simp only [stackPages_eq, Pmm.pageSize, minPhys] at *
      omega
    · simp only [stackPages_eq, Pmm.pageSize, minPhys] at *
      omega
    · omega

/-- The main thread may create a thread. -/
theorem Pair.fits (h : Pair σ 0 .running .unused) (hpages : ¬ PagesLack σ) : Fits σ .create := by
  have hreap : threadReapDead σ = σ := h.reap_none (by simp) (by simp)
  have hrun : σ.current.state = .running := by
    rw [Sys.current, h.cur]
    exact h.main
  refine ⟨⟨by simp [hrun], by simp [hrun], by simp [hrun]⟩, (h.plain σ.cur).2.1, ?_, ?_⟩
  · rw [h.freeSlot]
    simp
  · rwa [hreap]

/-- A turn on a machine with enough room. -/
theorem Pair.turn (h : Pair σ 0 .running .unused) (hinv : SysInv D L ∅ σ) (hm : AllMapped σ)
    (hmem : σ.vmm.pmm.cursor + (stackPages * 4 + 1) * Pmm.pageSize ≤ σ.vmm.pmm.stop)
    (hroom : σ.nextPageVirt + stackPages * Pmm.pageSize ≤ heapUsableEnd) :
    AllSteps stackStep Fits σ Thread.turn ∧
      Pair (run stackStep σ Thread.turn) 0 .running .unused ∧
      Consistent (run stackStep σ Thread.turn) ∧ AllMapped (run stackStep σ Thread.turn) ∧
      (run stackStep σ Thread.turn).nextPageVirt =
        σ.nextPageVirt + stackPages * Pmm.pageSize ∧
      Within (stackPages * 4) (zone σ.vmm.pmm) (zone (run stackStep σ Thread.turn).vmm.pmm) := by
  have hpages := hinv.pages_suffice hmem
  have hfit : Fits σ .create := h.fits hpages
  obtain ⟨-, ⟨D1, L1, h1⟩, hm1, hn1⟩ := hinv.sustained_step hm hfit
    (by rw [creates_create, Nat.one_mul]; exact hroom)
  rw [creates_create, Nat.one_mul] at hn1
  obtain ⟨hp1, hw⟩ := h.create hinv hpages hroom
  obtain ⟨-, ⟨D2, L2, h2⟩, hm2, hn2⟩ := h1.sustained_act hm1 (a := .yield (some 1)) rfl
  obtain ⟨hp2, hz2⟩ := hp1.yield
  obtain ⟨-, ⟨D3, L3, h3⟩, hm3, hn3⟩ := h2.sustained_act hm2 (a := .exit (some 0)) rfl
  obtain ⟨hp3, hz3⟩ := hp2.exit h2
  obtain ⟨-, hc4, hm4, hn4⟩ := h3.sustained_act hm3 (a := .reap) rfl
  obtain ⟨hp4, hz4⟩ := hp3.reap h3
  have hrun : run stackStep σ Thread.turn = stackStep (stackStep (stackStep
      (stackStep σ .create) (.yield (some 1))) (.exit (some 0))) .reap := by
    simp only [Thread.turn, run_cons, run_nil]
  rw [hrun]
  refine ⟨⟨hfit, trivial, trivial, trivial, trivial⟩, hp4, hc4, hm4, ?_, ?_⟩
  · exact hn4.trans (hn3.trans (hn2.trans hn1))
  · have hz := hz4.trans (hz3.trans hz2)
    rw [← hz] at hw
    exact hw

/-- The turns may be taken as long as there is room in the arena and there are
pages, and one more thread may be created then. -/
theorem Pair.turns (n : Nat) (h : Pair σ 0 .running .unused) (hc : Consistent σ)
    (hm : AllMapped σ)
    (hmem : σ.vmm.pmm.cursor + (n + 1) * (stackPages * 4 + 1) * Pmm.pageSize ≤ σ.vmm.pmm.stop)
    (hroom : σ.nextPageVirt + n * (stackPages * Pmm.pageSize) ≤ heapUsableEnd) :
    AllSteps stackStep Fits σ (Thread.turns n ++ [.create]) := by
  induction n generalizing σ with
  | zero =>
      obtain ⟨D, L, hinv⟩ := hc
      rw [Nat.zero_add, Nat.one_mul] at hmem
      exact ⟨h.fits (hinv.pages_suffice hmem), trivial⟩
  | succ n ih =>
      obtain ⟨D, L, hinv⟩ := hc
      have hstop := hinv.mem.forest.pmm.stop_le
      have hbytes : (n + 1) * (stackPages * Pmm.pageSize) =
          stackPages * Pmm.pageSize + n * (stackPages * Pmm.pageSize) := by
        rw [Nat.succ_mul, Nat.add_comm]
      have hpages : (n + 1 + 1) * (stackPages * 4 + 1) * Pmm.pageSize =
          (stackPages * 4 + 1) * Pmm.pageSize +
            (n + 1) * (stackPages * 4 + 1) * Pmm.pageSize := by
        rw [Nat.succ_mul (n + 1), Nat.add_mul, Nat.add_comm]
      obtain ⟨hfits, hp, hc', hm', hnext, hw⟩ := h.turn hinv hm (by omega) (by omega)
      rw [turns_succ, List.append_assoc]
      refine (allSteps_append stackStep Fits σ _ _).2 ⟨hfits, ih hp hc' hm' ?_ ?_⟩
      · obtain ⟨hs, hcur⟩ := hw
        simp only [zone] at hs hcur
        have hle : stackPages * 4 * Pmm.pageSize ≤ (stackPages * 4 + 1) * Pmm.pageSize :=
          Nat.mul_le_mul_right _ (Nat.le_add_right _ _)
        obtain ⟨-, hcur⟩ := hcur (by omega)
        rw [hs]
        omega
      · rw [hnext]
        omega

end

/-! ### A machine with 512 MiB -/

def memmap512M : Memmap := some [some ⟨0, 0x20000000, 0⟩]

/-- The machine after `heap_init` and `thread_init`. -/
def idleSys : Sys :=
  let σ := bootSys ⟨pmmInit memmap512M 1 (.boot fun _ => 0), 0x1000, 0x1000⟩
  (heapMapFreshPage σ).getD σ

theorem idleSys_consistent : Consistent idleSys := by
  have hmm : EndsBelow (2 ^ 52) memmap512M := by
    rintro entries ⟨rfl⟩ e he -
    obtain rfl : e = ⟨0, 0x20000000, 0⟩ := by simpa using he
    decide
  have hfree : 0x1000 ∉ freePhys (pmmInit memmap512M 1 (.boot fun _ => 0)) := by
    obtain ⟨hinv, -⟩ := pmmInit_stop_le hmm (show 1 ≠ 0 by decide) (fun _ => 0) (by decide)
    rw [freePhys_eq hinv]
    exact fun hin => absurd (hinv.minPhys_le_of_mem hin) (by decide)
  have h0 : VmmInv (.noUser 0x1000 {heapSlot})
      ⟨pmmInit memmap512M 1 (.boot fun _ => 0), 0x1000, 0x1000⟩ [] ∅ :=
    vmmInv_start 0x1000 {heapSlot} hmm (by decide) (by decide) (by decide) hfree
      fun i hi => by rw [hi]; decide
  obtain ⟨σ, hσ⟩ := Option.isSome_iff_exists.1 (show (heapMapFreshPage (bootSys
    ⟨pmmInit memmap512M 1 (.boot fun _ => 0), 0x1000, 0x1000⟩)).isSome by decide)
  obtain ⟨L, h⟩ := sysInv_boot (by decide) h0 rfl rfl (by decide) hσ
  have heq : idleSys = σ := by simp [idleSys, hσ]
  rw [heq]
  exact ⟨_, L, h⟩

theorem idleSys_threads : ∀ i : Fin 32, (idleSys.threads i).stackBase = 0 ∧
    (idleSys.threads i).cr3 = 0 ∧ (idleSys.threads i).arg = none ∧
    (idleSys.threads i).parentTid = 0 ∧
    (idleSys.threads i).state = if i = 0 then .running else .unused := by
  decide

theorem idleSys_allMapped : AllMapped idleSys :=
  fun j hb => absurd (idleSys_threads j).1 hb

theorem idleSys_pair : Pair idleSys 0 .running .unused where
  cur := by decide
  main := (idleSys_threads 0).2.2.2.2
  one := (idleSys_threads 1).2.2.2.2
  others := fun i h0 _ => by rw [(idleSys_threads i).2.2.2.2, if_neg h0]
  plain := fun i => ⟨(idleSys_threads i).2.1, (idleSys_threads i).2.2.1, (idleSys_threads i).2.2.2.1⟩

theorem idleSys_next : idleSys.nextPageVirt = heapUsableBase + Pmm.pageSize := by decide

theorem idleSys_memory : idleSys.vmm.pmm.cursor = 0x1004000 ∧ idleSys.vmm.pmm.stop = 0x20000000 := by
  decide

/-- The arena has room for 3276 turns, and the memory for more. -/
theorem idleSys_fits {n : Nat} (hn : n ≤ 3276) :
    AllSteps stackStep Fits idleSys (turns n ++ [.create]) := by
  refine idleSys_pair.turns n idleSys_consistent idleSys_allMapped ?_ ?_
  · obtain ⟨hc, hs⟩ := idleSys_memory
    rw [hc, hs, stackPages_eq, Pmm.pageSize]
    omega
  · rw [idleSys_next, heapUsableBase_eq, heapUsableEnd_eq, stackPages_eq, Pmm.pageSize]
    omega

/-- Ten turns are fine. -/
theorem sustained_run_idleSys :
    AllSteps stackStep Fits idleSys (turns 10 ++ [.create]) ∧
      AllSteps stackStep Sustained idleSys (turns 10 ++ [.create]) := by
  have hfits := idleSys_fits (show 10 ≤ 3276 by decide)
  refine ⟨hfits, (sustained_run_iff idleSys_consistent idleSys_allMapped _ hfits).2 ?_⟩
  rw [creates_append, creates_turns, creates_create, stacksLeft, idleSys_next]
  decide

/-- After 3276 threads, of which none is left, the next `thread_create` panics. -/
theorem not_sustained_idleSys :
    Consistent idleSys ∧ AllMapped idleSys ∧
      AllSteps stackStep Fits idleSys (turns 3276 ++ [.create]) ∧
      ¬ AllSteps stackStep Sustained idleSys (turns 3276 ++ [.create]) := by
  have hfits := idleSys_fits (le_refl 3276)
  refine ⟨idleSys_consistent, idleSys_allMapped, hfits, ?_⟩
  rw [allSteps_sustained_iff idleSys_consistent idleSys_allMapped _ hfits, creates_append,
    creates_turns, idleSys_next, creates_create, heapUsableBase_eq, heapUsableEnd_eq,
    stackPages_eq, Pmm.pageSize]
  omega

end FiFi.Thread
