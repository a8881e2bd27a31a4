import FiFi.Fork.Exact
import FiFi.Thread.Table
import FiFi.Vmm.Shared

/-!
# The memory of the threads

`MemInv` is what the thread functions need of memory: the forest of page maps,
the shared slot of the heap, and that the heap has mapped nothing from
`next_page_virt` on. Each of the five ways in which the thread functions change
memory keeps it, and `Untouched` says what it leaves alone.
-/

namespace FiFi.Thread

open Pmm Vmm Fork Syscall LinkedList RadixForest Loop

/-- The slot of the root in which the heap lies. -/
def heapSlot : Nat := idxPml4 heapUsableBase

structure MemInv (D : Domain) (L : List Nat) (next : Nat) (s : VmmState) : Prop where
  forest : VmmInv D s L ∅
  kernelCr3 : s.kernelCr3 = D.kernel
  kernel_ne : D.kernel ≠ 0
  shared : SharedSlot D heapSlot heapUsableBase s
  next_mod : next % pageSize = 0
  next_lo : heapUsableBase + pageSize ≤ next
  next_hi : next ≤ heapUsableEnd
  above : ∀ v, v % pageSize = 0 → next ≤ v → v < heapUsableEnd →
    look s.mem D.kernel (vaPath v) = none

/-- The page maps at `U` keep what they have, and so do the pages of the kernel's
slots except those at `V`. -/
structure Untouched (D : Domain) (U : Set Nat) (V : Set (List Nat)) (s s' : VmmState) :
    Prop where
  roots : ∀ r ∈ U, Kept s s' r
  leaves : ∀ σ, Pos D D.kernel σ → σ.length = 4 → σ ∉ V →
    look s'.mem D.kernel σ = look s.mem D.kernel σ
  cr3 : s'.cr3 = s.cr3

/-! ### Pages of the heap -/

theorem heapUsableBase_eq : heapUsableBase = 0xffff910000001000 := rfl

theorem heapUsableEnd_eq : heapUsableEnd = 0xffff910004001000 := by decide

theorem stackPages_eq : stackPages = 5 := by decide

theorem heap_slot {v : Nat} (hlo : heapUsableBase ≤ v) (hhi : v < heapUsableEnd) :
    idxPml4 v = heapSlot := by
  simp only [heapSlot, heapUsableBase_eq, heapUsableEnd_eq, idxPml4] at *
  omega

/-- Different pages of the heap have different paths. -/
theorem heap_path_inj {v v' : Nat} (hlo : heapUsableBase ≤ v) (hhi : v < heapUsableEnd)
    (hlo' : heapUsableBase ≤ v') (hhi' : v' < heapUsableEnd) (h : vaPath v = vaPath v') :
    v / pageSize = v' / pageSize := by
  have := vaPath_inj h
  simp only [heapUsableBase_eq, heapUsableEnd_eq, pageSize] at *
  omega

theorem MemInv.heap_pos {D : Domain} {L : List Nat} {next : Nat} {s : VmmState}
    (h : MemInv D L next s) {v : Nat} (hlo : heapUsableBase ≤ v) (hhi : v < heapUsableEnd) :
    Pos D D.kernel (vaPath v) :=
  pos_vaPath (Or.inr rfl) (by rw [heap_slot hlo hhi]; exact h.shared.kernel_slot)

theorem rangePage_eq {virt k : Nat} (hlt : alignDown virt + k * pageSize < 2 ^ 64) :
    rangePage virt k = alignDown virt + k * pageSize := by
  simp only [rangePage, u64]
  omega

/-! ### Page maps -/

/-- All pages of the lower half of a page map, its root included. -/
def mapPages (mem : Nat → Nat) (r : Nat) : Set Nat :=
  {p | ∃ π e, LowerPath π ∧ look mem r π = some e ∧ p = ptePage e}

theorem tree_eq_mapPages {D : Domain} {mem : Nat → Nat} {r : Nat} (hr : r ∈ D.user) :
    tree D mem r = mapPages mem r := by
  ext p
  constructor
  · rintro ⟨π, e, hπ, he, rfl⟩
    exact ⟨π, e, (pos_iff_lowerPath hr).1 hπ, he, rfl⟩
  · rintro ⟨π, e, hπ, he, rfl⟩
    exact ⟨π, e, (pos_iff_lowerPath hr).2 hπ, he, rfl⟩

theorem mapPages_kept {s s' : VmmState} {r : Nat} (h : Kept s s' r) :
    mapPages s'.mem r = mapPages s.mem r := by
  ext p
  constructor
  · rintro ⟨π, e, hπ, he, rfl⟩
    exact ⟨π, e, hπ, (h.entries π hπ).symm.trans he, rfl⟩
  · rintro ⟨π, e, hπ, he, rfl⟩
    exact ⟨π, e, hπ, (h.entries π hπ).trans he, rfl⟩

theorem MemInv.mapPages_not_free {D : Domain} {L : List Nat} {next : Nat} {s : VmmState}
    (h : MemInv D L next s) {r p : Nat} (hr : r ∈ D.user) (hp : p ∈ mapPages s.mem r) :
    p ∉ freePhys s.pmm := by
  obtain ⟨π, e, hπ, he, rfl⟩ := hp
  rw [freePhys_eq h.forest.pmm]
  exact h.forest.not_free ((pos_iff_lowerPath hr).2 hπ) he

theorem ne_kernel {D : Domain} {r : Nat} (hr : r ∈ D.user) : D.kernel ≠ r := by
  rintro rfl
  exact D.kernel_not_user hr

section

variable {D : Domain} {L : List Nat} {next : Nat} {s : VmmState}

/-- `vmm_destroy_user_pagemap` gives back the pages of one page map. -/
theorem MemInv.destroy (h : MemInv D L next s) {r : Nat} (hr : r ∈ D.user) :
    ∃ L', MemInv (D.erase r) L' next (vmmDestroyUserPagemap s r) ∧
      freePhys (vmmDestroyUserPagemap s r).pmm = freePhys s.pmm ∪ mapPages s.mem r ∧
      Untouched D (D.user \ {r}) ∅ s (vmmDestroyUserPagemap s r) := by
  obtain ⟨_, hinv, hfree, hcr3, hker, -, hmem⟩ := h.forest.destroyUserPagemap hr h.kernelCr3
  have hlook : ∀ σ, Pos D D.kernel σ → look (vmmDestroyUserPagemap s r).mem D.kernel σ =
      look s.mem D.kernel σ :=
    fun σ hσ => h.forest.look_of_frame hmem (ne_kernel hr) hσ
  have hfirst := h.heap_pos (v := heapUsableBase) le_rfl (by decide)
  refine ⟨_, ⟨hinv, hker.trans h.kernelCr3, h.kernel_ne, ?_, h.next_mod, h.next_lo, h.next_hi,
    ?_⟩, ?_, ?_, fun σ hσ _ _ => hlook σ hσ, hcr3⟩
  · refine ⟨h.shared.upper, h.shared.lt, h.shared.mem_slots, fun r' hr' => ?_,
      h.shared.first_slot, ?_⟩
    · rw [h.forest.entry_of_frame hmem hr'.2 (Or.inl hr'.1) h.shared.lt,
        h.shared.entries r' hr'.1]
      exact (h.forest.entry_of_frame hmem (ne_kernel hr) (Or.inr rfl) h.shared.lt).symm
    · obtain ⟨e, he⟩ := h.shared.mapped
      exact ⟨e, (hlook _ hfirst).trans he⟩
  · intro v hv hlo hhi
    have hb := h.next_lo
    exact (hlook _ (h.heap_pos (by omega) hhi)).trans (h.above v hv hlo hhi)
  · rw [freePhys_eq hinv.pmm, freePhys_eq h.forest.pmm, hfree, tree_eq_mapPages hr]
  · rintro r' ⟨hr', hne⟩
    exact kept_of_pages hr' fun π e hπ he k hk => h.forest.pages_of_frame hmem hne hπ he hk

/-- Changes in the kernel's slots do not touch the page maps. -/
theorem kept_of_kernel_change (h : VmmInv D s L ∅) {s' : VmmState} {L' : List Nat} {H' : Set Nat}
    (hc : Change D D.kernel s L ∅ s' L' H') {r : Nat} (hr : r ∈ D.user) : Kept s s' r :=
  kept_of_pages hr fun _ _ hπ he _ hk =>
    h.pages_of_frame (fun w hw => hc.frame w fun hwr => hw hwr.1) (ne_kernel hr).symm hπ he hk

/-! ### Kernel stacks -/

/-- The frames of a kernel stack. -/
def stackFrames (s : VmmState) (base : Nat) : Set Nat :=
  {p | ∃ k < stackPages, ∃ e,
    look s.mem s.kernelCr3 (vaPath (alignDown base + k * pageSize)) = some e ∧ p = ptePage e}

/-- Every page of a kernel stack is mapped. -/
def StackMapped (s : VmmState) (base : Nat) : Prop :=
  ∀ k < stackPages, ∃ e, look s.mem s.kernelCr3 (vaPath (alignDown base + k * pageSize)) = some e

/-- Where a kernel stack is: behind a header, in pages of the heap that are not
the first. -/
def StackAt (next base : Nat) : Prop :=
  base % pageSize = 16 ∧ heapUsableBase + pageSize ≤ alignDown base ∧
    alignDown base + stackPages * pageSize ≤ next

theorem StackAt.range {next base : Nat} (h : StackAt next base) (hn : next ≤ heapUsableEnd)
    {k : Nat} (hk : k < stackPages) :
    heapUsableBase + pageSize ≤ alignDown base + k * pageSize ∧
      alignDown base + k * pageSize + pageSize ≤ next ∧
      rangePage base k = alignDown base + k * pageSize := by
  obtain ⟨-, hlo, hhi⟩ := h
  simp only [heapUsableBase_eq, heapUsableEnd_eq, stackPages_eq, pageSize] at hlo hhi hn hk ⊢
  refine ⟨by omega, by omega, rangePage_eq ?_⟩
  simp only [pageSize]
  omega

theorem StackAt.pages {next base : Nat} (h : StackAt next base) :
    rangePages base threadStackSize = stackPages := by
  obtain ⟨hoff, -⟩ := h
  have hd : base - alignDown base = 16 := by
    simp only [alignDown, pageSize] at *
    omega
  rw [rangePages, hd]
  decide

/-- The paths of the pages of a kernel stack. -/
def stackPaths (base : Nat) : Set (List Nat) :=
  {σ | ∃ k < stackPages, σ = vaPath (alignDown base + k * pageSize)}

/-- Unmapping a kernel stack gives back its frames, whichever page map is
loaded. -/
theorem MemInv.unmapStack (h : MemInv D L next s) (hr : s.cr3 ∈ D.user ∨ s.cr3 = D.kernel)
    {base : Nat} (hb : StackAt next base) :
    ∃ L', MemInv D L' next (vmmUnmapRangeAndFree s base threadStackSize).2 ∧
      freePhys s.pmm ⊆ freePhys (vmmUnmapRangeAndFree s base threadStackSize).2.pmm ∧
      stackFrames s base ⊆ freePhys (vmmUnmapRangeAndFree s base threadStackSize).2.pmm ∧
      Untouched D D.user (stackPaths base) s (vmmUnmapRangeAndFree s base threadStackSize).2 := by
  have hn := h.next_hi
  have hpages := hb.pages
  have hpage : ∀ k < stackPages, heapUsableBase + pageSize ≤ rangePage base k ∧
      rangePage base k + pageSize ≤ next ∧ rangePage base k = alignDown base + k * pageSize := by
    intro k hk
    obtain ⟨h1, h2, h3⟩ := hb.range hn hk
    exact ⟨by rw [h3]; exact h1, by rw [h3]; exact h2, h3⟩
  have hpos : ∀ k < stackPages, Pos D D.kernel (vaPath (rangePage base k)) := by
    intro k hk
    obtain ⟨h1, h2, -⟩ := hpage k hk
    exact h.heap_pos (by omega) (by simp only [pageSize] at *; omega)
  obtain ⟨s', L', heq, hc, hcl, hsh, hshared⟩ := h.shared.unmapRange h.forest hr
    (show threadStackSize ≠ 0 by decide)
    (by
      rw [hpages]
      intro k hk
      obtain ⟨h1, h2, -⟩ := hpage k hk
      exact heap_slot (by omega) (by simp only [pageSize] at *; omega))
    (by
      rw [hpages]
      intro k hk hpath
      obtain ⟨h1, h2, -⟩ := hpage k hk
      have := heap_path_inj (by omega) (by simp only [pageSize] at *; omega) le_rfl (by decide) hpath
      simp only [pageSize, heapUsableBase_eq] at *
      omega)
  rw [hpages] at hcl
  rw [heq]
  refine ⟨L', ⟨hc.inv, hc.kernelCr3.trans h.kernelCr3, h.kernel_ne, hshared, h.next_mod,
    h.next_lo, h.next_hi, fun v hv hlo hhi => ?_⟩, ?_, ?_,
    fun r hr => kept_of_kernel_change h.forest hc hr, ?_, hc.cr3⟩
  · have hnl := h.next_lo
    cases hlk : look s'.mem D.kernel (vaPath v) with
    | none => rfl
    | some e =>
        have hold := hsh D.kernel _ e (h.heap_pos (by omega) hhi) hlk
        rw [h.above v hv hlo hhi] at hold
        exact absurd hold (by simp)
  · rw [freePhys_eq h.forest.pmm, freePhys_eq hc.inv.pmm]
    exact hc.freeSet_mono h.forest hsh
  · rintro p ⟨k, hk, e, he, rfl⟩
    rw [freePhys_eq hc.inv.pmm]
    rw [h.kernelCr3, ← (hpage k hk).2.2] at he
    exact hc.freed h.forest hsh (hpos k hk) he (hcl.none k hk)
  · intro σ hσ hlen hnot
    refine hcl.same D.kernel σ hσ hlen fun _ k hk heq => hnot ⟨k, hk, ?_⟩
    rw [heq, (hpage k hk).2.2]

/-! ### Cloning -/

/-- Writing free pages only touches nothing. -/
theorem MemInv.untouched (h : MemInv D L next s) {s' : VmmState} (hcr3 : s'.cr3 = s.cr3)
    (hframe : ∀ w, alignDown w ∉ freeSet s.pmm L → s'.mem w = s.mem w) :
    Untouched D D.user ∅ s s' := by
  refine ⟨fun r hr => kept_of_frame h.forest hr hframe, fun σ hσ _ _ => ?_, hcr3⟩
  refine walk_congr (P := fun a π => a = D.kernel ∧ Pos D a π) ?_ ?_ ⟨rfl, hσ⟩
  · rintro a π i ⟨rfl, hπ⟩
    exact ⟨rfl, hπ.init⟩
  · rintro a π i e ⟨rfl, hπ⟩ he
    refine link_congr (hframe _ ?_)
    rw [alignDown_entry (ptePage_mod e) hπ.index_lt]
    exact h.forest.not_free hπ.init he

theorem MemInv.entry_of_untouched (h : MemInv D L next s) {s' : VmmState} {r i : Nat}
    (hframe : ∀ w, alignDown w ∉ freeSet s.pmm L → s'.mem w = s.mem w)
    (hr : r ∈ D.user ∨ r = D.kernel) (hi : i < 512) : entry s'.mem r i = entry s.mem r i := by
  have hroot := h.forest.root r hr
  have hnot := h.forest.not_free (pos_nil hr) (look_nil s.mem r)
  refine hframe _ ?_
  rw [← hroot, alignDown_entry (ptePage_mod r) hi]
  exact hnot

/-- What is mapped in the heap stays so when nothing is touched. -/
theorem MemInv.heap_kept (h : MemInv D L next s) {s' : VmmState}
    (hu : Untouched D D.user ∅ s s') :
    (∃ e, look s'.mem D.kernel (vaPath heapUsableBase) = some e) ∧
      ∀ v, v % pageSize = 0 → next ≤ v → v < heapUsableEnd →
        look s'.mem D.kernel (vaPath v) = none := by
  have hfirst := h.heap_pos (v := heapUsableBase) le_rfl (by decide)
  refine ⟨?_, fun v hv hlo hhi => ?_⟩
  · rw [hu.leaves _ hfirst rfl (Set.notMem_empty _)]
    exact h.shared.mapped
  · have hnl := h.next_lo
    rw [hu.leaves _ (h.heap_pos (by omega) hhi) rfl (Set.notMem_empty _)]
    exact h.above v hv hlo hhi

/-- A new page map, possibly with something mapped in it. -/
theorem MemInv.fresh (h : MemInv D L next s) {dst : Nat} {hk : dst ≠ D.kernel}
    {s₀ s' : VmmState} {L₀ L' : List Nat} (hfresh : Fresh D s L dst hk s₀ L₀)
    (hc : Change (D.insert dst hk) dst s₀ L₀ ∅ s' L' ∅) :
    MemInv (D.insert dst hk) L' next s' ∧ Untouched D D.user ∅ s s' := by
  have hmem : ∀ w, alignDown w ∉ freeSet s.pmm L → s'.mem w = s.mem w :=
    fun w hw => hfresh.frame hc hw
  have hu := h.untouched (hc.cr3.trans hfresh.cr3) hmem
  obtain ⟨hmapped, habove⟩ := h.heap_kept hu
  refine ⟨⟨hc.inv, hc.kernelCr3.trans hfresh.kernelCr3, h.kernel_ne, ?_, h.next_mod, h.next_lo,
    h.next_hi, habove⟩, hu⟩
  have hker := h.entry_of_untouched hmem (Or.inr rfl) h.shared.lt
  refine ⟨h.shared.upper, h.shared.lt, h.shared.mem_slots, fun r hr => ?_, h.shared.first_slot,
    hmapped⟩
  rcases hr with rfl | hr
  · exact (hfresh.upper_kept hc h.shared.upper h.shared.lt).trans hker.symm
  · rw [h.entry_of_untouched hmem (Or.inl hr) h.shared.lt, h.shared.entries r hr]
    exact hker.symm

/-- `clone_pagemap` adds a page map or changes nothing that is in use. -/
theorem MemInv.clone (h : MemInv D L next s) {src : Nat} (hsrc : src ∈ D.user) :
    (∃ s' L', clonePagemap s src = (0, s') ∧ MemInv D L' next s' ∧
        Untouched D D.user ∅ s s') ∨
      ∃ dst hk s' L', clonePagemap s src = (dst, s') ∧ dst ≠ 0 ∧ dst ∉ D.user ∧
        MemInv (D.insert dst hk) L' next s' ∧ Untouched D D.user ∅ s s' := by
  rcases clonePagemap_cases h.forest h.kernelCr3 h.kernel_ne hsrc with
    ⟨s', L', heq, hinv, -, hcr3, hker, hmem⟩ |
    ⟨dst, hk, s₀, L₀, s', L', heq, hd0, hold, hfresh, hc, -⟩
  · have hu := h.untouched hcr3 hmem
    obtain ⟨hmapped, habove⟩ := h.heap_kept hu
    refine Or.inl ⟨s', L', heq, ⟨hinv, hker, h.kernel_ne, ?_, h.next_mod, h.next_lo, h.next_hi,
      habove⟩, hu⟩
    refine ⟨h.shared.upper, h.shared.lt, h.shared.mem_slots, fun r hr => ?_, h.shared.first_slot,
      hmapped⟩
    rw [h.entry_of_untouched hmem (Or.inl hr) h.shared.lt,
      h.entry_of_untouched hmem (Or.inr rfl) h.shared.lt, h.shared.entries r hr]
  · obtain ⟨hinv, hu⟩ := h.fresh hfresh hc
    exact Or.inr ⟨dst, hk, s', L', heq, hd0, hold, hinv, hu⟩

end

/-! ### The heap grows -/

section

variable {D : Domain} {L : List Nat} {σ σ' : Sys}

theorem write_not_user : vmmWrite &&& vmmUser = 0 := by decide

theorem MemInv.freshPage (h : MemInv D L σ.nextPageVirt σ.vmm)
    (hr : σ.vmm.cr3 ∈ D.user ∨ σ.vmm.cr3 = D.kernel) (heq : heapMapFreshPage σ = some σ') :
    ∃ s' L', σ' = { σ with vmm := s', nextPageVirt := σ.nextPageVirt + pageSize } ∧
      MemInv D L' (σ.nextPageVirt + pageSize) s' ∧
      Untouched D D.user {vaPath σ.nextPageVirt} σ.vmm s' := by
  have hlo := h.next_lo
  have hmod := h.next_mod
  unfold heapMapFreshPage at heq
  by_cases hend : heapUsableEnd ≤ σ.nextPageVirt
  · rw [if_pos hend] at heq
    simp at heq
  · rw [if_neg hend] at heq
    rcases h.forest.alloc D.kernel with ⟨ha, -⟩ | ⟨hne, -, hmem, L1, hc1, -⟩
    · simp [ha] at heq
    · simp only [if_neg hne, vmmMapPage, alignDown_of_mod hmod] at heq
      generalize (allocPage σ.vmm).1 = p at *
      generalize (allocPage σ.vmm).2 = s1 at *
      have hpos := h.heap_pos (v := σ.nextPageVirt) (by omega) (by omega)
      have hnone : look s1.mem D.kernel (vaPath σ.nextPageVirt) = none := by
        rw [hmem]
        exact h.above _ hmod le_rfl (by omega)
      have hs1 : SharedSlot D heapSlot heapUsableBase s1 := by
        refine h.shared.of_change h.forest hc1 ?_ ?_
        · rw [hmem]
          exact h.shared.mapped
        · rw [hmem]
      rcases hs1.mapPage hc1.inv (r := s1.cr3) (by rwa [hc1.cr3])
        (heap_slot (by omega) (by omega)) (Set.mem_insert p ∅) write_not_user hnone with
        hfail | ⟨s2, L2, hm, hc2, hlaw, hg, hs2⟩
      · simp [hfail] at heq
      · rw [hm] at heq
        rw [Set.insert_sdiff_self_of_notMem (Set.notMem_empty p)] at hc2
        have hc := hc1.trans hc2
        refine ⟨s2, L2, by simpa using heq.symm, ⟨hc.inv, hc.kernelCr3.trans h.kernelCr3,
          h.kernel_ne, hs2, ?_, by omega, ?_, ?_⟩,
          fun r hr => kept_of_kernel_change h.forest hc hr, ?_, hc.cr3⟩
        · simp only [pageSize] at *
          omega
        · simp only [heapUsableBase_eq, heapUsableEnd_eq, pageSize] at *
          omega
        · intro v hv hlo' hhi
          rw [hlaw D.kernel _ (h.heap_pos (by omega) hhi) rfl, if_neg, hmem]
          · exact h.above v hv (by omega) hhi
          · rintro ⟨-, hpath⟩
            have := heap_path_inj (by omega) hhi (by omega) (by omega) hpath
            simp only [pageSize] at *
            omega
        · intro τ hτ hlen hnot
          rw [hlaw D.kernel τ hτ hlen, if_neg fun hcc => hnot hcc.2, hmem]

theorem rangePages_stack {next : Nat} (hmod : next % pageSize = 0) :
    rangePages next (stackPages * pageSize) = stackPages := by
  rw [rangePages, alignDown_of_mod hmod, Nat.sub_self]
  decide

/-- The pages of a new kernel stack. -/
theorem newStack_pages {next : Nat} (hmod : next % pageSize = 0)
    (hlo : heapUsableBase + pageSize ≤ next)
    (hend : next + stackPages * pageSize ≤ heapUsableEnd) :
    ∀ k < stackPages, rangePage next k = next + k * pageSize ∧
      heapUsableBase + pageSize ≤ next + k * pageSize ∧ next + k * pageSize < heapUsableEnd := by
  have hal := alignDown_of_mod hmod
  intro k hk
  simp only [heapUsableBase_eq, heapUsableEnd_eq, stackPages_eq, pageSize] at *
  refine ⟨?_, by omega, by omega⟩
  simp only [rangePage, u64, hal, pageSize]
  omega

/-- A new kernel stack lies behind all pages the heap had. -/
theorem MemInv.newStack (h : MemInv D L σ.nextPageVirt σ.vmm)
    (hr : σ.vmm.cr3 ∈ D.user ∨ σ.vmm.cr3 = D.kernel) {stack : Nat}
    (heq : kmallocStack σ = some (stack, σ')) :
    ∃ s' L', (stack = 0 ∧ σ' = { σ with vmm := s' } ∧ MemInv D L' σ.nextPageVirt s' ∧
        Untouched D D.user ∅ σ.vmm s') ∨
      (stack ≠ 0 ∧
        σ' = { σ with vmm := s', nextPageVirt := σ.nextPageVirt + stackPages * pageSize } ∧
        MemInv D L' (σ.nextPageVirt + stackPages * pageSize) s' ∧
        StackAt (σ.nextPageVirt + stackPages * pageSize) stack ∧
        alignDown stack = σ.nextPageVirt ∧ Untouched D D.user (stackPaths stack) σ.vmm s' ∧
        StackMapped s' stack) := by
  have hlo := h.next_lo
  have hhi := h.next_hi
  have hmod := h.next_mod
  have hvend : u64 (σ.nextPageVirt + stackPages * pageSize) =
      σ.nextPageVirt + stackPages * pageSize := by
    simp only [u64, heapUsableEnd_eq, stackPages_eq, pageSize] at *
    omega
  unfold kmallocStack at heq
  simp only [alignDown_of_mod hmod, hvend] at heq
  by_cases hend : heapUsableEnd < σ.nextPageVirt + stackPages * pageSize
  · rw [if_pos hend] at heq
    simp at heq
  rw [if_neg hend] at heq
  have hbytes : stackPages * pageSize < 2 ^ 63 := by decide
  by_cases hne : (pmmAllocPages σ.vmm.pmm stackPages).1 = 0
  · rw [if_pos hne] at heq
    rcases h.forest.pmm.allocPages hbytes with ha | ⟨-, hp, -⟩
    · simp only [ha, Option.some.injEq, Prod.mk.injEq] at heq
      refine ⟨σ.vmm, L, Or.inl ⟨heq.1.symm, heq.2.symm, h, ?_⟩⟩
      exact ⟨fun r _ => Kept.refl _ r, fun _ _ _ _ => rfl, rfl⟩
    · have hmin := h.forest.pmm.minPhys_le
      rw [hp] at hne
      simp only [minPhys] at hmin
      omega
  · rw [if_neg hne] at heq
    have hc1 := h.forest.allocRun hbytes hne D.kernel
    rw [Set.union_empty] at hc1
    have hmem : VmmState.mem { σ.vmm with pmm := (pmmAllocPages σ.vmm.pmm stackPages).2 } =
        σ.vmm.mem := by
      funext w
      by_cases hw : Writable D D.kernel (Vmm.region D σ.vmm L ∅ D.kernel) w
      · change (pmmAllocPages σ.vmm.pmm stackPages).2.mem w = σ.vmm.pmm.mem w
        unfold pmmAllocPages
        dsimp only
        split_ifs <;> rfl
      · exact hc1.frame w hw
    generalize (pmmAllocPages σ.vmm.pmm stackPages).1 = phys at *
    generalize ({ σ.vmm with pmm := (pmmAllocPages σ.vmm.pmm stackPages).2 } : VmmState) = s1 at *
    have hs1 : SharedSlot D heapSlot heapUsableBase s1 := by
      refine h.shared.of_change h.forest hc1 ?_ ?_
      · rw [hmem]
        exact h.shared.mapped
      · rw [hmem]
    have hpages := rangePages_stack hmod
    have hpage := newStack_pages hmod hlo (Nat.le_of_not_lt hend)
    have hpos : ∀ k < stackPages, Pos D D.kernel (vaPath (rangePage σ.nextPageVirt k)) := by
      intro k hk
      obtain ⟨hk1, hk2, hk3⟩ := hpage k hk
      rw [hk1]
      exact h.heap_pos (by omega) hk3
    have hslot : ∀ k < rangePages σ.nextPageVirt (stackPages * pageSize),
        idxPml4 (rangePage σ.nextPageVirt k) = heapSlot := by
      rw [hpages]
      intro k hk
      obtain ⟨hk1, hk2, hk3⟩ := hpage k hk
      rw [hk1]
      exact heap_slot (by omega) hk3
    have hinj : ∀ j < rangePages σ.nextPageVirt (stackPages * pageSize),
        ∀ k < rangePages σ.nextPageVirt (stackPages * pageSize),
        vaPath (rangePage σ.nextPageVirt j) = vaPath (rangePage σ.nextPageVirt k) → j = k := by
      rw [hpages]
      intro j hj k hk hpath
      obtain ⟨hj1, hj2, hj3⟩ := hpage j hj
      obtain ⟨hk1, hk2, hk3⟩ := hpage k hk
      rw [hj1, hk1] at hpath
      have := heap_path_inj (by omega) hj3 (by omega) hk3 hpath
      simp only [pageSize] at this hmod
      omega
    have hnone : ∀ k < rangePages σ.nextPageVirt (stackPages * pageSize),
        look s1.mem D.kernel (vaPath (rangePage σ.nextPageVirt k)) = none := by
      rw [hpages]
      intro k hk
      obtain ⟨hk1, -, hk3⟩ := hpage k hk
      rw [hmem, hk1]
      refine h.above _ ?_ (by omega) hk3
      simp only [pageSize] at hmod ⊢
      omega
    rcases hs1.mapRange hc1.inv (by rwa [hc1.cr3]) write_not_user hslot hinj
      (show runPages phys _ ⊆ _ by rw [hpages]) hnone with
      hfail | ⟨s2, L2, hm, hc2, honly, -, hs2, hmapped⟩
    · simp [hfail] at heq
    · rw [hpages, Set.sdiff_self] at hc2
      rw [hpages] at honly hmapped
      have hc := hc1.trans hc2
      simp only [hm, if_true, Option.some.injEq, Prod.mk.injEq] at heq
      obtain ⟨rfl, hσ'⟩ := heq
      have hbase : alignDown (σ.nextPageVirt + 16) = σ.nextPageVirt := by
        simp only [alignDown, pageSize] at *
        omega
      refine ⟨s2, L2, Or.inr ⟨by omega, hσ'.symm, ⟨hc.inv, hc.kernelCr3.trans h.kernelCr3,
        h.kernel_ne, hs2, ?_, by omega, by omega, ?_⟩, ⟨?_, ?_, ?_⟩, hbase,
        ⟨fun r hr => kept_of_kernel_change h.forest hc hr, ?_, hc.cr3⟩, fun k hk => ?_⟩⟩
      · simp only [stackPages_eq, pageSize] at *
        omega
      · intro v hv hlo' hhi'
        rw [honly D.kernel _ (h.heap_pos (by omega) hhi') rfl, hmem]
        · exact h.above v hv (by omega) hhi'
        · rintro - ⟨k, hk, hpath⟩
          obtain ⟨hk1, hk2, hk3⟩ := hpage k hk
          rw [hk1] at hpath
          have := heap_path_inj (by omega) hhi' (by omega) hk3 hpath
          simp only [stackPages_eq, pageSize] at *
          omega
      · simp only [pageSize] at *
        omega
      · rw [hbase]
        exact hlo
      · rw [hbase]
      · intro τ hτ hlen hnot
        rw [honly D.kernel τ hτ hlen, hmem]
        rintro - ⟨k, hk, hpath⟩
        refine hnot ⟨k, hk, ?_⟩
        rw [hbase, ← (hpage k hk).1]
        exact hpath
      · rw [hbase, ← (hpage k hk).1, hc.kernelCr3, h.kernelCr3]
        exact hmapped k hk

end

end FiFi.Thread
