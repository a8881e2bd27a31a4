import FiFi.Thread.Lifecycle

/-!
# New threads

`do_fork` adds a page map, which belongs to no thread until `thread_create` puts
it into the context of the new thread. When that fails the page map is given
back. The new kernel stack lies behind everything the heap had.
-/

namespace FiFi.Thread

open Pmm Vmm Fork Syscall

section

variable {U X : Set Nat} {next : Nat} {th : Fin 32 → Task} {dst : Nat}

theorem TaskInv.add (h : TaskInv U ∅ next th) (hd : dst ∉ U) :
    TaskInv (insert dst U) {dst} next th := by
  refine ⟨fun r => ?_, h.unique, fun i r hr hx => ?_, h.each, h.main, h.apart⟩
  · rw [Set.mem_insert_iff, h.owners r, Set.mem_singleton_iff]
    simp only [Set.mem_empty_iff_false, or_false]
    exact or_comm
  · rw [Set.mem_singleton_iff] at hx
    subst hx
    exact hd ((h.owners r).2 (Or.inl ⟨i, hr⟩))

theorem TaskInv.drop (h : TaskInv U {dst} next th) : TaskInv (U \ {dst}) ∅ next th := by
  refine ⟨fun r => ?_, h.unique, fun i r _ => Set.notMem_empty r, h.each, h.main, h.apart⟩
  rw [Set.mem_sdiff, h.owners r]
  simp only [Set.mem_empty_iff_false, or_false]
  constructor
  · rintro ⟨hr, hne⟩
    exact hr.resolve_right hne
  · rintro ⟨i, hr⟩
    exact ⟨Or.inl ⟨i, hr⟩, h.extra i r hr⟩

end

section

variable {D : Domain} {L : List Nat} {X : Set Nat} {σ σ' : Sys}

/-- Nothing but the memory and the end of the heap changes. -/
def SameTable (σ σ' : Sys) : Prop := σ'.threads = σ.threads ∧ σ'.cur = σ.cur

theorem SameTable.deadSlots (h : SameTable σ σ') : deadSlots σ' = deadSlots σ := by
  unfold Thread.deadSlots
  rw [h.1, h.2]

/-- The kernel stacks lie below the end of the heap. -/
theorem SysInv.stack_below (h : SysInv D L X σ) {j : Fin 32} (hb : (σ.threads j).stackBase ≠ 0)
    {k v : Nat} (hk : k < stackPages) (hlo : σ.nextPageVirt ≤ v) (hhi : v < heapUsableEnd) :
    vaPath (alignDown (σ.threads j).stackBase + k * pageSize) ≠ vaPath v := by
  intro hpath
  have hnl := h.mem.next_lo
  obtain ⟨h1, h2, -⟩ := ((h.tasks.each j).stack hb).range h.mem.next_hi hk
  have hmod : (alignDown (σ.threads j).stackBase + k * pageSize) % pageSize = 0 := by
    simp [alignDown]
  have hpage := heap_path_inj (by omega) (by simp only [pageSize] at *; omega) (by omega) hhi hpath
  simp only [pageSize] at *
  omega

/-! ### The heap -/

theorem SysInv.kmalloc (h : SysInv D L X σ) {m : Kmalloc} {b : Bool}
    (heq : kmalloc σ m = some (b, σ')) :
    ∃ L', SysInv D L' X σ' ∧ SameTable σ σ' ∧ ∀ j, Keeps σ σ' j := by
  have hnl := h.mem.next_lo
  cases m with
  | null =>
      obtain ⟨rfl, rfl⟩ : false = b ∧ σ = σ' := by simpa [Thread.kmalloc] using heq
      exact ⟨L, h, ⟨rfl, rfl⟩, Keeps.refl σ⟩
  | reuse =>
      obtain ⟨rfl, rfl⟩ : true = b ∧ σ = σ' := by simpa [Thread.kmalloc] using heq
      exact ⟨L, h, ⟨rfl, rfl⟩, Keeps.refl σ⟩
  | fresh =>
      obtain ⟨hfresh, -⟩ : heapMapFreshPage σ = some σ' ∧ true = b := by
        simpa [Thread.kmalloc] using heq
      obtain ⟨s', L', rfl, hmem, hunt⟩ := h.mem.freshPage h.loaded_root hfresh
      have hroom : σ.nextPageVirt < heapUsableEnd := by
        have := hmem.next_hi
        simp only [pageSize] at this
        omega
      refine ⟨L', ⟨hmem, h.tasks.mono (Nat.le_add_right _ _), ?_⟩, ⟨rfl, rfl⟩, fun j => ?_⟩
      · change s'.cr3 = _
        rw [hunt.cr3]
        exact h.loaded
      · refine h.keeps hmem rfl hunt (fun r hr => h.mem_user hr) fun hb k hk => ?_
        exact h.stack_below hb hk le_rfl hroom

/-- A new kernel stack. -/
theorem SysInv.kmallocStack (h : SysInv D L X σ) {stack : Nat}
    (heq : kmallocStack σ = some (stack, σ')) :
    ∃ L', SysInv D L' X σ' ∧ SameTable σ σ' ∧ (∀ j, Keeps σ σ' j) ∧
      (stack ≠ 0 → StackAt σ'.nextPageVirt stack ∧ StackMapped σ'.vmm stack ∧
        σ'.nextPageVirt = σ.nextPageVirt + stackPages * pageSize ∧
        ∀ j, (σ.threads j).stackBase ≠ 0 → StacksApart stack (σ.threads j).stackBase) := by
  obtain ⟨s', L', ⟨h0, rfl, hmem, hunt⟩ | ⟨hne, rfl, hmem, hat, hal, hunt, hmapped⟩⟩ :=
    h.mem.newStack h.loaded_root heq
  · refine ⟨L', ⟨hmem, h.tasks, ?_⟩, ⟨rfl, rfl⟩, fun j => ?_, fun hne => absurd h0 hne⟩
    · change s'.cr3 = _
      rw [hunt.cr3]
      exact h.loaded
    · exact h.keeps hmem rfl hunt (fun r hr => h.mem_user hr) fun _ _ _ => Set.notMem_empty _
  · refine ⟨L', ⟨hmem, h.tasks.mono (Nat.le_add_right _ _), ?_⟩, ⟨rfl, rfl⟩, fun j => ?_,
      fun _ => ⟨hat, hmapped, rfl, ?_⟩⟩
    · change s'.cr3 = _
      rw [hunt.cr3]
      exact h.loaded
    · refine h.keeps hmem rfl hunt (fun r hr => h.mem_user hr) fun hb k hk => ?_
      rintro ⟨k', hk', hpath⟩
      obtain ⟨-, h2, -⟩ := hat.range hmem.next_hi hk'
      refine h.stack_below hb hk (v := alignDown stack + k' * pageSize) (by omega) ?_ hpath
      have hhi := hmem.next_hi
      have hpage : 0 < pageSize := by decide
      omega
    · intro j hb
      obtain ⟨hoff, -, hend⟩ := (h.tasks.each j).stack hb
      have hoff' := hat.1
      right
      simp only [alignDown, stackPages_eq, pageSize] at *
      omega

/-! ### The new page map -/

/-- The clone belongs to no thread yet. -/
theorem SysInv.clone (h : SysInv D L ∅ σ) (hparent : σ.current.cr3 ≠ 0) {child : Nat}
    {s' : VmmState} (heq : clonePagemap σ.vmm σ.current.cr3 = (child, s')) :
    ∃ D' L', (child = 0 ∧ SysInv D' L' ∅ { σ with vmm := s' } ∨
        child ≠ 0 ∧ SysInv D' L' {child} { σ with vmm := s' }) ∧
      ∀ j, Keeps σ { σ with vmm := s' } j := by
  have hsrc : σ.current.cr3 ∈ D.user := h.mem_user (i := σ.cur) (Or.inl ⟨rfl, hparent⟩)
  rcases h.mem.clone hsrc with ⟨s, L', hc, hmem, hunt⟩ | ⟨dst, hk, s, L', hc, hne, hnew, hmem, hunt⟩
  · obtain ⟨rfl, rfl⟩ : 0 = child ∧ s = s' := by simpa [hc] using heq
    refine ⟨D, L', Or.inl ⟨rfl, hmem, h.tasks, hunt.cr3.trans h.loaded⟩, fun j => ?_⟩
    exact h.keeps hmem rfl hunt (fun r hr => h.mem_user hr) fun _ _ _ => Set.notMem_empty _
  · obtain ⟨rfl, rfl⟩ : dst = child ∧ s = s' := by simpa [hc] using heq
    refine ⟨D.insert dst hk, L', Or.inr ⟨hne, hmem, h.tasks.add hnew, hunt.cr3.trans h.loaded⟩,
      fun j => ?_⟩
    exact h.keeps hmem rfl hunt (fun r hr => h.mem_user hr) fun _ _ _ => Set.notMem_empty _

/-- The clone is given back. -/
theorem SysInv.destroyChild {child : Nat} (h : SysInv D L {child} σ) :
    ∃ D' L', SysInv D' L' ∅ { σ with vmm := vmmDestroyUserPagemap σ.vmm child } ∧
      ∀ j, Keeps σ { σ with vmm := vmmDestroyUserPagemap σ.vmm child } j := by
  have hu : child ∈ D.user := (h.tasks.owners child).2 (Or.inr rfl)
  obtain ⟨L', hmem, -, hunt⟩ := h.mem.destroy hu
  refine ⟨D.erase child, L', ⟨hmem, h.tasks.drop, hunt.cr3.trans h.loaded⟩, fun j => ?_⟩
  refine h.keeps hmem rfl hunt (fun r hr => ⟨h.mem_user hr, h.tasks.extra j r hr⟩) ?_
  exact fun _ _ _ => Set.notMem_empty _

/-- `do_fork` up to `thread_create`. -/
theorem SysInv.forkPrepare (h : SysInv D L ∅ σ) {m : Kmalloc} {child : Nat}
    (heq : forkPrepare σ m = some (child, σ')) :
    ∃ D' L', (child = 0 ∧ SysInv D' L' ∅ σ' ∨ child ≠ 0 ∧ SysInv D' L' {child} σ') ∧
      SameTable σ σ' ∧ ∀ j, Keeps σ σ' j := by
  unfold Thread.forkPrepare at heq
  by_cases hp : σ.current.cr3 = 0
  · obtain ⟨rfl, rfl⟩ : 0 = child ∧ σ = σ' := by simpa [hp] using heq
    exact ⟨D, L, Or.inl ⟨rfl, h⟩, ⟨rfl, rfl⟩, Keeps.refl σ⟩
  · simp only [if_neg hp] at heq
    obtain ⟨D1, L1, hcase, hk1⟩ := h.clone hp (Prod.mk.eta (p := clonePagemap σ.vmm _)).symm
    generalize (clonePagemap σ.vmm σ.current.cr3).1 = c at *
    generalize (clonePagemap σ.vmm σ.current.cr3).2 = s1 at *
    rcases hcase with ⟨rfl, h1⟩ | ⟨hne, h1⟩
    · obtain ⟨rfl, rfl⟩ : 0 = child ∧ { σ with vmm := s1 } = σ' := by simpa using heq
      exact ⟨D1, L1, Or.inl ⟨rfl, h1⟩, ⟨rfl, rfl⟩, hk1⟩
    · rw [if_neg hne] at heq
      cases hkm : Thread.kmalloc { σ with vmm := s1 } m with
      | none => simp [hkm] at heq
      | some r =>
          obtain ⟨b, σ2⟩ := r
          obtain ⟨L2, h2, hst, hk2⟩ := h1.kmalloc hkm
          cases b with
          | true =>
              obtain ⟨rfl, rfl⟩ : c = child ∧ σ2 = σ' := by simpa [hkm] using heq
              exact ⟨D1, L2, Or.inr ⟨hne, h2⟩, ⟨hst.1, hst.2⟩, fun j => (hk1 j).trans (hk2 j)⟩
          | false =>
              obtain ⟨rfl, rfl⟩ : 0 = child ∧
                  { σ2 with vmm := vmmDestroyUserPagemap σ2.vmm c } = σ' := by
                simpa [hkm] using heq
              obtain ⟨D3, L3, h3, hk3⟩ := h2.destroyChild
              exact ⟨D3, L3, Or.inl ⟨rfl, h3⟩, ⟨hst.1, hst.2⟩,
                fun j => ((hk1 j).trans (hk2 j)).trans (hk3 j)⟩

/-! ### The new thread -/

theorem findFreeSlot_spec {i : Fin 32} (h : findFreeSlot σ = some i) :
    i ≠ 0 ∧ ((σ.threads i).state = .unused ∨ (σ.threads i).state = .dead) := by
  have hmem := List.mem_of_find?_eq_some h
  have hprop := List.find?_some h
  refine ⟨?_, by simpa using hprop⟩
  rintro rfl
  exact absurd hmem (by decide)

/-- An unused slot owns nothing. -/
theorem SysInv.unused_none (h : SysInv D L X σ) {i : Fin 32} (hi : (σ.threads i).state = .unused)
    (r : Nat) : ¬ Owns (σ.threads i) r := by
  have hok := h.tasks.each i
  rintro (⟨hc, hne⟩ | harg)
  · exact hne (hc.symm.trans (hok.unused hi).1)
  · have hnone := hok.arg_none (by rw [hi]; simp) (by rw [hi]; simp)
    exact absurd (hnone.symm.trans harg) (by simp)

theorem newVm_unused : ∀ m ∈ newVm.maps, m.inUse = false := by
  intro m hm
  rw [List.eq_of_mem_replicate hm]
  rfl

/-- The new thread gets the kernel stack, and the page map that belongs to no
thread yet if there is one. -/
theorem SysInv.enter {stack : Nat} (h : SysInv D L X σ) {i : Fin 32} (h0 : i ≠ 0)
    (hi : (σ.threads i).state = .unused) (hcur : i ≠ σ.cur) (hat : StackAt σ.nextPageVirt stack)
    (hapart : ∀ j, (σ.threads j).stackBase ≠ 0 → StacksApart stack (σ.threads j).stackBase)
    {t : Task} (hcr3 : t.cr3 = 0) (harg : ∀ r, t.arg = some r ↔ r ∈ X) (hst : t.state = .ready)
    (hbase : t.stackBase = stack) (hvm : t.vm = newVm) :
    SysInv D L ∅ (σ.setTask i t) ∧ ∀ j, j ≠ i → Keeps σ (σ.setTask i t) j := by
  have howns : ∀ r, Owns t r ↔ r ∈ X := by
    intro r
    simp only [Owns, hcr3, harg]
    constructor
    · rintro (⟨hz, hne⟩ | hr)
      · exact absurd hz.symm hne
      · exact hr
    · exact Or.inr
  refine ⟨⟨h.mem, h.tasks.set ⟨?_, ?_, ?_, ?_⟩ (fun r => ?_) (fun r hr => ?_)
    (fun r _ => Set.notMem_empty r) (fun hz => absurd hz h0) (fun _ j _ hj => ?_), ?_⟩,
    fun j hj => keeps_other hj⟩
  · exact fun _ _ => ⟨hcr3, Or.inl hst⟩
  · intro _ _
    rw [hvm]
    exact newVm_unused
  · intro hu
    rw [hst] at hu
    exact absurd hu (by simp)
  · exact fun _ => hbase ▸ hat
  · rw [howns, h.tasks.owners r]
    constructor
    · rintro (⟨j, hj⟩ | hx)
      · exact Or.inl ⟨Or.inl ⟨j, hj⟩, h.unused_none hi r, h.tasks.extra j r hj⟩
      · exact Or.inr (Or.inl hx)
    · rintro (⟨hr, -⟩ | hx | hbad)
      · exact hr
      · exact Or.inr hx
      · exact absurd hbad (Set.notMem_empty r)
  · rcases hr with hr | hbad
    · exact Or.inr ((howns r).1 hr)
    · exact absurd hbad (Set.notMem_empty r)
  · rw [hbase]
    exact hapart j hj
  · have heq : (σ.setTask i t).current = σ.current := Function.update_of_ne (Ne.symm hcur) _ _
    rw [heq]
    exact h.loaded

/-- Reaping leaves the same slots free. -/
theorem SysInv.findFreeSlot_reap (h : SysInv D L X σ) :
    findFreeSlot (Thread.threadReapDead σ) = findFreeSlot σ := by
  obtain ⟨-, -, -, -, hr⟩ := h.threadReapDead
  refine List.find?_congr fun j _ => ?_
  by_cases hd : j ∈ deadSlots σ
  · simp [hr.gone j hd, hd.2.1]
  · rw [hr.others j hd]

/-- After the dead threads are reaped, the free slot is unused, unless it is the
slot of the thread that runs. -/
theorem SysInv.freeSlot_unused (h : SysInv D L X σ) {i : Fin 32}
    (hi : findFreeSlot (Thread.threadReapDead σ) = some i) (hcur : i ≠ σ.cur) :
    ((Thread.threadReapDead σ).threads i).state = .unused := by
  obtain ⟨-, -, -, -, hr⟩ := h.threadReapDead
  have hmem := List.mem_of_find?_eq_some hi
  by_cases hd : i ∈ deadSlots σ
  · exact hr.gone i hd
  · have hs := (findFreeSlot_spec hi).2
    rw [hr.others i hd] at hs ⊢
    exact hs.resolve_right fun hdead => hd ⟨hmem, hdead, hcur⟩

/-- `thread_create` up to where it fills in the slot, when this is not the slot of
the thread that runs. -/
theorem SysInv.newSlot (h : SysInv D L X σ) (hslot : findFreeSlot σ ≠ some σ.cur) {i : Fin 32}
    (hfree : findFreeSlot (Thread.threadReapDead σ) = some i) {stack : Nat}
    (hks : Thread.kmallocStack (Thread.threadReapDead σ) = some (stack, σ')) :
    ∃ D' L', SysInv D' L' X σ' ∧ i ≠ 0 ∧ (σ'.threads i).state = .unused ∧ i ≠ σ'.cur ∧
      (∀ j, j ∉ deadSlots σ → Keeps σ σ' j) ∧
      (∀ j, j ∉ deadSlots σ → (σ.threads j).state ≠ .unused → j ≠ i) ∧
      (stack ≠ 0 → StackAt σ'.nextPageVirt stack ∧ StackMapped σ'.vmm stack ∧
        σ'.nextPageVirt = σ.nextPageVirt + stackPages * pageSize ∧
        ∀ j, (σ'.threads j).stackBase ≠ 0 → StacksApart stack (σ'.threads j).stackBase) := by
  obtain ⟨D1, L1, h1, -, hr⟩ := h.threadReapDead
  have hcur : i ≠ σ.cur := by
    rintro rfl
    exact hslot (h.findFreeSlot_reap.symm.trans hfree)
  have hi := h.freeSlot_unused hfree hcur
  obtain ⟨L2, h2, ⟨hth, hc⟩, hk2, hstack⟩ := h1.kmallocStack hks
  refine ⟨D1, L2, h2, (findFreeSlot_spec hfree).1, by rw [hth, hi], by rwa [hc, hr.cur],
    fun j hj => (hr.keeps hj).trans (hk2 j), ?_, fun hs0 => ?_⟩
  · rintro j hj hlive rfl
    rw [hr.others j hj] at hi
    exact hlive hi
  · obtain ⟨hat, hmapped, hnext, hapart⟩ := hstack hs0
    exact ⟨hat, hmapped, by rw [hnext, hr.nextPageVirt], by rwa [hth]⟩

/-- `thread_create`, when it does not take the slot of the thread that runs. -/
theorem SysInv.threadCreate {child : Nat} (h : SysInv D L {child} σ)
    (hslot : findFreeSlot σ ≠ some σ.cur) {slot : Option (Fin 32)}
    (heq : threadCreate σ child = some (slot, σ')) :
    ∃ D' L', (∀ j, j ∉ deadSlots σ → (σ.threads j).state ≠ .unused → Keeps σ σ' j) ∧
      (slot = none ∧ SysInv D' L' {child} σ' ∨
        ∃ i, slot = some i ∧ SysInv D' L' ∅ σ' ∧ (σ'.threads i).arg = some child) := by
  unfold Thread.threadCreate at heq
  cases hfree : findFreeSlot (Thread.threadReapDead σ) with
  | none =>
      obtain ⟨rfl, rfl⟩ : none = slot ∧ Thread.threadReapDead σ = σ' := by
        simpa [hfree] using heq
      obtain ⟨D1, L1, h1, -, hr⟩ := h.threadReapDead
      exact ⟨D1, L1, fun j hj _ => hr.keeps hj, Or.inl ⟨rfl, h1⟩⟩
  | some i =>
      cases hks : Thread.kmallocStack (Thread.threadReapDead σ) with
      | none => simp [hfree, hks] at heq
      | some q =>
          obtain ⟨stack, σ2⟩ := q
          obtain ⟨D2, L2, h2, hi0, hi, hcur, hkeep, hne, hstack⟩ := h.newSlot hslot hfree hks
          by_cases hs0 : stack = 0
          · obtain ⟨rfl, rfl⟩ : none = slot ∧ σ2 = σ' := by simpa [hfree, hks, hs0] using heq
            exact ⟨D2, L2, fun j hj _ => hkeep j hj, Or.inl ⟨rfl, h2⟩⟩
          · simp only [hfree, hks, if_neg hs0, Option.some.injEq, Prod.mk.injEq] at heq
            obtain ⟨rfl, rfl⟩ := heq
            obtain ⟨hat, -, -, hapart⟩ := hstack hs0
            obtain ⟨h3, hk3⟩ := h2.enter hi0 hi hcur hat hapart
              (t := { σ2.threads i with
                state := .ready, tid := σ2.nextTid, parentTid := 0, arg := some child,
                stackBase := stack, vm := newVm })
              ((h2.tasks.each i).unused hi).1 (fun r => by simp [eq_comm]) rfl rfl rfl
            refine ⟨D2, L2, fun j hj hlive => ?_, Or.inr ⟨i, rfl, ⟨h3.mem, h3.tasks, h3.loaded⟩, ?_⟩⟩
            · have hk := (hkeep j hj).trans (hk3 j (hne j hj hlive))
              exact ⟨hk.owns, hk.maps, hk.base, hk.kstack⟩
            · simp [Sys.setTask]

/-- `do_fork`, when it does not take the slot of the thread that runs. -/
theorem SysInv.doFork (h : SysInv D L ∅ σ) (hslot : findFreeSlot σ ≠ some σ.cur) {m : Kmalloc}
    (heq : doFork σ m = some σ') :
    ∃ D' L', SysInv D' L' ∅ σ' ∧
      ∀ j, j ∉ deadSlots σ → (σ.threads j).state ≠ .unused → Keeps σ σ' j := by
  unfold Thread.doFork at heq
  cases hprep : Thread.forkPrepare σ m with
  | none => simp [hprep] at heq
  | some r =>
      obtain ⟨child, σ1⟩ := r
      obtain ⟨D1, L1, hcase, hsame, hk1⟩ := h.forkPrepare hprep
      rcases hcase with ⟨rfl, h1⟩ | ⟨hne, h1⟩
      · obtain rfl : σ1 = σ' := by simpa [hprep] using heq
        exact ⟨D1, L1, h1, fun j _ _ => hk1 j⟩
      simp only [hprep, if_neg hne] at heq
      have hslot1 : findFreeSlot σ1 ≠ some σ1.cur := by
        unfold findFreeSlot at hslot ⊢
        rwa [hsame.1, hsame.2]
      cases hcreate : Thread.threadCreate σ1 child with
      | none => simp [hcreate] at heq
      | some q =>
          obtain ⟨slot, σ2⟩ := q
          obtain ⟨D2, L2, hk2, hcase⟩ := h1.threadCreate hslot1 hcreate
          have hkeep : ∀ j, j ∉ deadSlots σ → (σ.threads j).state ≠ .unused → Keeps σ σ2 j :=
            fun j hj hlive => (hk1 j).trans (hk2 j (by rwa [hsame.deadSlots]) (by rwa [hsame.1]))
          rcases hcase with ⟨rfl, h2⟩ | ⟨i, rfl, h2, harg⟩
          · obtain rfl : { σ2 with vmm := vmmDestroyUserPagemap σ2.vmm child } = σ' := by
              simpa [hcreate] using heq
            obtain ⟨D3, L3, h3, hk3⟩ := h2.destroyChild
            exact ⟨D3, L3, h3, fun j hj hlive => (hkeep j hj hlive).trans (hk3 j)⟩
          · obtain rfl : σ2.setTask i { σ2.threads i with
                parentTid := σ2.current.tid, vm := σ2.current.vm } = σ' := by
              simpa [hcreate] using heq
            have hok := h2.tasks.each i
            refine ⟨D2, L2, ⟨h2.mem, h2.tasks.setSame ⟨hok.child, ?_, hok.unused, hok.stack⟩
              (fun _ => Iff.rfl) rfl ?_, ?_⟩, fun j hj hlive => ?_⟩
            · intro _ hnone
              exact absurd (harg.symm.trans hnone) (by simp)
            · rintro rfl hs
              exact h2.tasks.main.2 hs
            · rw [setTask_current_cr3 (by rfl)]
              exact h2.loaded
            · refine (hkeep j hj hlive).trans (keeps_setTask ?_ ?_ j)
              · exact fun _ hr => hr
              · rfl

end

end FiFi.Thread
