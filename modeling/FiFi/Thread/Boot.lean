import FiFi.Thread.Invariant

/-!
# The first threads

After `heap_init` and `thread_init` there is the main thread and one page of the
heap, and the invariant holds. It goes on to hold when a page map is made for a
process and when pages are mapped in it.
-/

namespace FiFi.Thread

open Pmm Vmm Fork Syscall RadixForest

def unusedTask : Task := ⟨.unused, 0, 0, 0, none, 0, newVm⟩

/-- The main thread, the way `thread_init` makes it. -/
def mainTask : Task := ⟨.running, 0, 0, 0, none, 0, newVm⟩

/-- The thread table after `thread_init`. -/
def bootSys (s : VmmState) : Sys where
  vmm := s
  threads := fun i => if i = 0 then mainTask else unusedTask
  cur := 0
  nextTid := 1
  nextPageVirt := heapUsableBase

theorem heapSlot_eq : heapSlot = 290 := by decide

/-- The first page of the heap. -/
theorem MemInv.boot {kernel : Nat} {s : VmmState} {σ : Sys} (hk0 : kernel ≠ 0)
    (h : VmmInv (.noUser kernel {heapSlot}) s [] ∅) (hker : s.kernelCr3 = kernel)
    (hcr3 : s.cr3 = kernel) (hempty : ¬ present (entry s.mem kernel heapSlot))
    (heq : heapMapFreshPage (bootSys s) = some σ) :
    ∃ s' L, σ = { bootSys s with vmm := s', nextPageVirt := heapUsableBase + pageSize } ∧
      MemInv (.noUser kernel {heapSlot}) L (heapUsableBase + pageSize) s' ∧ s'.cr3 = kernel := by
  set D : Domain := .noUser kernel {heapSlot} with hD
  have hslot : heapSlot ∈ D.slotsOf D.kernel := ⟨by decide, Or.inr ⟨rfl, rfl⟩⟩
  -- nothing is mapped in the slot of the heap
  have hnone : ∀ v, idxPml4 v = heapSlot → look s.mem D.kernel (vaPath v) = none := by
    intro v hv
    have hlink : link s.mem D.kernel heapSlot = none := link_none.2 hempty
    cases hlook : look s.mem D.kernel (vaPath v) with
    | none => rfl
    | some e =>
        obtain ⟨e1, he1, -, hp⟩ := look_slot_of_mapped h hv ⟨e, hlook⟩
        rw [look_root h (Or.inr rfl), hlink] at he1
        simp at he1
  unfold heapMapFreshPage at heq
  have hroom : ¬ heapUsableEnd ≤ heapUsableBase := by decide
  rcases h.alloc D.kernel with ⟨ha, -⟩ | ⟨hne, -, hmem, L1, hc1, -⟩
  · simp [bootSys, hroom, ha] at heq
  · have hcr1 : (allocPage s).2.cr3 = kernel := hc1.cr3.trans hcr3
    simp only [bootSys, if_neg hroom, if_neg hne, vmmMapPage, hcr1] at heq
    rw [show alignDown heapUsableBase = heapUsableBase by decide] at heq
    generalize (allocPage s).1 = p at *
    generalize (allocPage s).2 = s1 at *
    rcases hc1.inv.mapPageInto (r := D.kernel) (Or.inr rfl) hslot (Set.mem_insert p ∅) vmmWrite with
      ⟨s2, L2, hmap, -⟩ | ⟨s2, L2, hmap, hc2, hlaw⟩
    · simp [show vmmMapPageInto s1 kernel heapUsableBase p vmmWrite = (false, s2) from hmap] at heq
    · rw [show vmmMapPageInto s1 kernel heapUsableBase p vmmWrite = (true, s2) from hmap] at heq
      obtain rfl := Option.some.inj heq
      have hfirst : frameAt s1.mem D.kernel (vaPath heapUsableBase) = ∅ := by
        rw [hmem]
        exact frameAt_none (hnone _ rfl)
      rw [hfirst, Set.union_empty, Set.insert_sdiff_self_of_notMem (Set.notMem_empty p)] at hc2
      have hc := hc1.trans hc2
      have hpos : ∀ v, heapUsableBase ≤ v → v < heapUsableEnd → Pos D D.kernel (vaPath v) :=
        fun v hlo hhi => pos_vaPath (Or.inr rfl) (by rw [heap_slot hlo hhi]; exact hslot)
      refine ⟨s2, L2, rfl, ⟨hc.inv, hc.kernelCr3.trans hker, hk0, ⟨by decide, by decide, rfl,
        fun r hr => absurd hr (Set.notMem_empty r), rfl, ?_⟩, by decide, le_rfl, by decide, ?_⟩,
        hc.cr3.trans hcr3⟩
      · rw [hlaw _ _ (hpos _ le_rfl (by decide)) rfl, if_pos ⟨rfl, rfl⟩]
        exact ⟨_, rfl⟩
      · intro v hv hlo hhi
        rw [hlaw _ _ (hpos v (by omega) hhi) rfl, if_neg, hmem]
        · exact hnone v (heap_slot (by omega) hhi)
        · rintro ⟨-, hpath⟩
          have hpage := heap_path_inj (by omega) hhi le_rfl (by decide) hpath
          rw [heapUsableBase_eq] at hlo hpage
          simp only [pageSize] at hlo hpage
          omega

/-- The invariant holds after `heap_init` and `thread_init`. -/
theorem sysInv_boot {kernel : Nat} {s : VmmState} {σ : Sys} (hk0 : kernel ≠ 0)
    (h : VmmInv (.noUser kernel {heapSlot}) s [] ∅) (hker : s.kernelCr3 = kernel)
    (hcr3 : s.cr3 = kernel) (hempty : ¬ present (entry s.mem kernel heapSlot))
    (heq : heapMapFreshPage (bootSys s) = some σ) :
    ∃ L, SysInv (.noUser kernel {heapSlot}) L ∅ σ := by
  obtain ⟨s', L, rfl, hmem, hcr3'⟩ := MemInv.boot hk0 h hker hcr3 hempty heq
  have hcases : ∀ i : Fin 32, (bootSys s).threads i = mainTask ∨
      (bootSys s).threads i = unusedTask := by
    intro i
    by_cases hi : i = 0
    · exact Or.inl (if_pos hi)
    · exact Or.inr (if_neg hi)
  have hnone : ∀ i r, ¬ Owns ((bootSys s).threads i) r := by
    rintro i r (⟨hz, hne⟩ | harg)
    · rcases hcases i with hi | hi <;> exact hne (by rw [← hz, hi]; rfl)
    · rcases hcases i with hi | hi <;> simp [hi, mainTask, unusedTask] at harg
  have hbase : ∀ i, ((bootSys s).threads i).stackBase = 0 := by
    intro i
    rcases hcases i with hi | hi <;> rw [hi] <;> rfl
  refine ⟨L, hmem, ⟨fun r => ?_, fun i j r hr => absurd hr (hnone i r), fun i r hr =>
    absurd hr (hnone i r), fun i => ?_, ⟨rfl, fun _ => rfl⟩, fun i j _ hi => absurd (hbase i) hi⟩,
    hcr3'⟩
  · constructor
    · exact fun hr => absurd hr (Set.notMem_empty r)
    · rintro (⟨i, hr⟩ | hr)
      · exact absurd hr (hnone i r)
      · exact absurd hr (Set.notMem_empty r)
  · refine ⟨fun root harg => absurd (Or.inr harg) (hnone i root), fun _ _ m hm => ?_, fun _ => ?_,
      fun hne => absurd (hbase i) hne⟩
    · have hvm : ((bootSys s).threads i).vm = newVm := by
        rcases hcases i with hi | hi <;> rw [hi] <;> rfl
      change m ∈ ((bootSys s).threads i).vm.maps at hm
      rw [hvm] at hm
      rw [List.eq_of_mem_replicate hm]
      rfl
    · refine ⟨?_, hbase i⟩
      change ((bootSys s).threads i).cr3 = 0
      rcases hcases i with hi | hi <;> rw [hi] <;> rfl

section

variable {D : Domain} {L : List Nat} {next : Nat} {s : VmmState}

/-- A new page map for a process. -/
theorem MemInv.create (h : MemInv D L next s) (hne : (vmmCreateUserPagemap s).1 ≠ 0) :
    ∃ hk L', MemInv (D.insert (vmmCreateUserPagemap s).1 hk) L' next (vmmCreateUserPagemap s).2 := by
  rcases createUserPagemap_fresh h.forest h.kernelCr3 h.kernel_ne with
    heq | ⟨dst, hk, s₀, L₀, heq, -, hfresh⟩
  · rw [heq] at hne
    exact absurd rfl hne
  · rw [heq]
    exact ⟨hk, L₀, (h.fresh hfresh (Change.refl hfresh.inv)).1⟩

/-- Changes in the page map of one process. -/
theorem MemInv.userChange (h : MemInv D L next s) {r : Nat} (hr : r ∈ D.user) {s' : VmmState}
    {L' : List Nat} (hc : Change D r s L ∅ s' L' ∅) : MemInv D L' next s' := by
  have hne := ne_kernel hr
  have hker := hc.entry_other h.forest (Or.inr rfl) hne h.shared.lt
  have hfirst := h.heap_pos (v := heapUsableBase) le_rfl (by decide)
  refine ⟨hc.inv, hc.kernelCr3.trans h.kernelCr3, h.kernel_ne, ⟨h.shared.upper, h.shared.lt,
    h.shared.mem_slots, fun r' hr' => ?_, h.shared.first_slot, ?_⟩, h.next_mod, h.next_lo,
    h.next_hi, fun v hv hlo hhi => ?_⟩
  · rw [hker, ← h.shared.entries r' hr']
    by_cases hrr : r' = r
    · subst hrr
      exact hc.entry_upper h.forest hr' h.shared.upper h.shared.lt
    · exact hc.entry_other h.forest (Or.inl hr') hrr h.shared.lt
  · rw [hc.look_other h.forest hne hfirst]
    exact h.shared.mapped
  · have hnl := h.next_lo
    rw [hc.look_other h.forest hne (h.heap_pos (by omega) hhi)]
    exact h.above v hv hlo hhi

/-- A page is mapped where nothing was mapped. -/
theorem MemInv.mapUser (h : MemInv D L next s) {r virt : Nat} (flags : Nat) (hr : r ∈ D.user)
    (hv : idxPml4 virt < 256) (hnone : look s.mem r (vaPath virt) = none)
    (hne : (allocPage s).1 ≠ 0)
    (hok : (vmmMapPageInto (allocPage s).2 r virt (allocPage s).1 flags).1 = true) :
    ∃ L', MemInv D L' next (vmmMapPageInto (allocPage s).2 r virt (allocPage s).1 flags).2 := by
  rcases h.forest.alloc r with ⟨ha, -⟩ | ⟨-, -, hmem, L1, hc1, -⟩
  · rw [ha] at hne
    exact absurd rfl hne
  · generalize (allocPage s).1 = p at *
    generalize (allocPage s).2 = s1 at *
    rcases hc1.inv.mapPageInto (Or.inl hr) (user_slot hr hv) (Set.mem_insert p ∅) flags with
      ⟨s2, L2, hmap, -⟩ | ⟨s2, L2, hmap, hc2, -⟩
    · rw [hmap] at hok
      exact absurd hok (by simp)
    · rw [frameAt_none (by rw [hmem, hnone]), Set.union_empty,
        Set.insert_sdiff_self_of_notMem (Set.notMem_empty p)] at hc2
      rw [hmap]
      exact ⟨L2, h.userChange hr (hc1.trans hc2)⟩

/-- The main thread and one process, which runs. -/
def oneProcess (s : VmmState) (next root : Nat) (vm : UserVm) : Sys where
  vmm := s
  threads := fun i =>
    if i = 0 then { mainTask with state := .ready }
    else if i = 1 then ⟨.running, 1, 0, root, none, 0, vm⟩
    else unusedTask
  cur := 1
  nextTid := 2
  nextPageVirt := next

theorem sysInv_oneProcess {root : Nat} (h : MemInv D L next s) (huser : D.user = {root})
    (hcr3 : s.cr3 = root) (hne : root ≠ 0) (vm : UserVm) :
    SysInv D L ∅ (oneProcess s next root vm) := by
  have howns : ∀ i r, Owns ((oneProcess s next root vm).threads i) r ↔ i = 1 ∧ r = root := by
    intro i r
    by_cases h0 : i = 0
    · subst h0
      simp [Owns, oneProcess, mainTask, eq_comm]
    · by_cases h1 : i = 1
      · subst h1
        simp only [Owns, oneProcess, h0, if_false, if_true, true_and]
        constructor
        · rintro (⟨rfl, -⟩ | hbad)
          · rfl
          · simp at hbad
        · rintro rfl
          exact Or.inl ⟨rfl, hne⟩
      · simp [Owns, oneProcess, h0, h1, unusedTask, eq_comm]
  have hbase : ∀ i, ((oneProcess s next root vm).threads i).stackBase = 0 := by
    intro i
    simp only [oneProcess]
    split_ifs <;> rfl
  refine ⟨h, ⟨fun r => ?_, fun i j r hi hj => ?_, fun i r _ => Set.notMem_empty r, fun i => ?_,
    ⟨rfl, fun _ => rfl⟩, fun i j _ hi => absurd (hbase i) hi⟩, ?_⟩
  · rw [huser]
    simp [howns]
  · rw [howns] at hi hj
    rw [hi.1, hj.1]
  · refine ⟨fun r harg => ?_, fun hz harg m hm => ?_, fun hu => ?_, fun hne => absurd (hbase i) hne⟩
    · simp only [oneProcess] at harg
      split_ifs at harg <;> simp [mainTask, unusedTask] at harg
    · have hvm : ((oneProcess s next root vm).threads i).vm = newVm := by
        simp only [oneProcess] at hz ⊢
        split_ifs at hz ⊢
        · rfl
        · exact absurd hz hne
        · rfl
      rw [hvm] at hm
      rw [List.eq_of_mem_replicate hm]
      rfl
    · refine ⟨?_, hbase i⟩
      simp only [oneProcess] at hu ⊢
      split_ifs at hu ⊢
      rfl
  · change s.cr3 = if root ≠ 0 then root else D.kernel
    rw [if_pos hne, hcr3]

end

end FiFi.Thread
