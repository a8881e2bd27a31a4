import FiFi.Pmm.Partition
import FiFi.Vmm.Frames

/-!
# The states the kernel builds

After the start there are no page maps of processes. From then on page maps are
created and destroyed, pages are taken from the allocator and given back, and
pages are mapped and unmapped, always through the functions of `vmm.c`. A page
is mapped after it was taken from the allocator and before it is mapped
anywhere else. Everything else the kernel and the processes do to memory is a
store to a word that belongs neither to a free page nor to the lower half of a
page map.

Every state that is built so satisfies the invariant of the forest.
-/

namespace FiFi.Vmm

open Pmm LinkedList RadixForest

/-- The word is in no free page and in no table of a page map, except in the
upper half of a root. -/
def Plain (D : Domain) (s : VmmState) (w : Nat) : Prop :=
  alignDown w ∉ freePhys s.pmm ∧
    ∀ r ∈ D.user, ∀ π e, LowerPath π → π.length < 4 → look s.mem r π = some e →
      alignDown w = ptePage e → π = [] ∧ 256 ≤ w % pageSize / 8

/-- A domain without page maps of processes. -/
def Domain.noUser (kernel : Nat) (slots : Set Nat) : Domain where
  user := ∅
  kernel := kernel
  slots := slots
  kernel_not_user := Set.notMem_empty kernel

/-- The domain right after the start. -/
def Domain.start (kernel : Nat) : Domain := .noUser kernel ∅

/-- The states the kernel builds, with the page maps there are and the pages
that are in use elsewhere. -/
inductive Built : Domain → Set Nat → VmmState → Prop
  | start (mm : Memmap) (hhdm : Nat) (mem : Nat → Nat) (kernel cr3 : Nat)
      (hmm : EndsBelow (2 ^ 52) mm) (hh : hhdm ≠ 0)
      (hfound : (pmmInit mm hhdm (.boot mem)).cursor ≠ 0) (hk0 : kernel ≠ 0)
      (hpage : ptePage kernel = kernel) (hk : kernel ∉ freePhys (pmmInit mm hhdm (.boot mem))) :
      Built (.start kernel) ∅ ⟨pmmInit mm hhdm (.boot mem), cr3, kernel⟩
  | alloc {D H s} (hs : Built D H s) (hne : (allocPage s).1 ≠ 0) :
      Built D (insert (allocPage s).1 H) (allocPage s).2
  | allocRun {D H s} (hs : Built D H s) {count : Nat} (hbytes : count * pageSize < 2 ^ 63)
      (hne : (pmmAllocPages s.pmm count).1 ≠ 0) :
      Built D (runPages (pmmAllocPages s.pmm count).1 count ∪ H)
        { s with pmm := (pmmAllocPages s.pmm count).2 }
  | free {D H s} (hs : Built D H s) {p : Nat} (hp : p ∈ H) : Built D (H \ {p}) (freePage s p)
  | store {D H s} (hs : Built D H s) {w : Nat} (value : Nat) (hw : Plain D s w) :
      Built D H (s.withMem (Function.update s.mem w value))
  | switch {D H s} (hs : Built D H s) (root : Nat) : Built D H (vmmSwitchTo s root)
  | create {D H s} (hs : Built D H s) (hne : (vmmCreateUserPagemap s).1 ≠ 0)
      (hk : (vmmCreateUserPagemap s).1 ≠ D.kernel) :
      Built (D.insert (vmmCreateUserPagemap s).1 hk) H (vmmCreateUserPagemap s).2
  | destroy {D H s} (hs : Built D H s) {r : Nat} (hr : r ∈ D.user) :
      Built (D.erase r) H (vmmDestroyUserPagemap s r)
  | map {D H s} (hs : Built D H s) {r virt phys : Nat} (flags : Nat) (hr : r ∈ D.user)
      (hv : idxPml4 virt < 256) (hp : phys ∈ H)
      (hok : (vmmMapPageInto s r virt phys flags).1 = true) :
      Built D (H \ {phys} ∪ frameAt s.mem r (vaPath virt)) (vmmMapPageInto s r virt phys flags).2
  | mapFailed {D H s} (hs : Built D H s) {r virt phys : Nat} (flags : Nat) (hr : r ∈ D.user)
      (hv : idxPml4 virt < 256) (hp : phys ∈ H)
      (hfail : (vmmMapPageInto s r virt phys flags).1 = false) :
      Built D H (vmmMapPageInto s r virt phys flags).2
  | unmap {D H s} (hs : Built D H s) {r virt : Nat} (hr : r ∈ D.user)
      (hv : idxPml4 (alignDown virt) < 256) :
      Built D (H ∪ frameAt s.mem r (vaPath (alignDown virt))) (unmapPageIn s r virt).2

/-- What holds in every state that is built. -/
structure BuiltInv (D : Domain) (H : Set Nat) (s : VmmState) : Prop where
  kernelCr3 : s.kernelCr3 = D.kernel
  kernel_ne : D.kernel ≠ 0
  slots : D.slots = ∅
  forest : ∃ L, VmmInv D s L H

/-- A plain word can be written. -/
theorem VmmInv.store {D : Domain} {s : VmmState} {L : List Nat} {H : Set Nat}
    (h : VmmInv D s L H) (hslots : D.slots = ∅) {w : Nat} (value : Nat) (hw : Plain D s w) :
    VmmInv D (s.withMem (Function.update s.mem w value)) L H := by
  obtain ⟨hfree, htable⟩ := hw
  rw [freePhys_eq h.pmm] at hfree
  refine h.congr (fun p hp => Function.update_of_ne ?_ _ _) fun r π hπ => ?_
  · rintro rfl
    exact h.link_of_not_free hfree hp
  · refine walk_congr (pos_prefixClosed D) ?_ hπ
    intro r π i t hπ ht
    refine link_congr (Function.update_of_ne ?_ _ _)
    rintro rfl
    rw [alignDown_entry (ptePage_mod t) hπ.index_lt, index_entry (ptePage_mod t) hπ.index_lt]
      at htable
    rcases hπ.1 with hr | rfl
    · obtain ⟨rfl, hi⟩ := htable r hr π t ((pos_iff_lowerPath hr).1 hπ.init) hπ.length_lt ht rfl
      have hlow := ((pos_iff_lowerPath hr).1 hπ).2.2 i (by simp)
      omega
    · -- the kernel's root has no slots in the forest
      have hhead : ∀ j ∈ (π ++ [i]).head?, j ∈ D.slotsOf D.kernel := hπ.2.2.2
      cases π with
      | nil =>
          obtain ⟨-, ⟨hbad, -⟩ | ⟨-, hbad⟩⟩ := hhead i (by simp)
          · exact D.kernel_not_user hbad
          · rw [hslots] at hbad
            exact hbad
      | cons j π =>
          obtain ⟨-, ⟨hbad, -⟩ | ⟨-, hbad⟩⟩ := hhead j (by simp)
          · exact D.kernel_not_user hbad
          · rw [hslots] at hbad
            exact hbad

/-- A run of pages comes from the cursor. -/
theorem VmmInv.allocRun {D : Domain} {s : VmmState} {L : List Nat} {H : Set Nat}
    (h : VmmInv D s L H) {count : Nat} (hbytes : count * pageSize < 2 ^ 63)
    (hne : (pmmAllocPages s.pmm count).1 ≠ 0) (r : Nat) :
    Change D r s L H { s with pmm := (pmmAllocPages s.pmm count).2 } L
      (runPages (pmmAllocPages s.pmm count).1 count ∪ H) := by
  rcases h.pmm.allocPages hbytes with heq | ⟨-, hp, hroom, hinv, hcur, hstop⟩
  · rw [heq] at hne
    exact absurd rfl hne
  · have hmem : (pmmAllocPages s.pmm count).2.mem = s.pmm.mem := by
      unfold pmmAllocPages
      split
      · rfl
      · split
        · rfl
        · dsimp only
          split <;> rfl
    have hmod := h.pmm.cursor_mod
    have hfree : freeSet (pmmAllocPages s.pmm count).2 L =
        freeSet s.pmm L \ runPages s.pmm.cursor count := by
      ext a
      simp only [freeSet, Set.mem_union, Set.mem_sdiff, Set.mem_ofPred_eq, pages, hcur, hstop,
        runPages]
      constructor
      · rintro (hL | ⟨ham, hca, hend⟩)
        · refine ⟨Or.inl hL, ?_⟩
          rintro ⟨k, -, rfl⟩
          have := (h.pmm.listed _ hL).2.2
          omega
        · refine ⟨Or.inr ⟨ham, by omega, hend⟩, ?_⟩
          rintro ⟨k, hk, rfl⟩
          have hkb : (k + 1) * pageSize ≤ count * pageSize := Nat.mul_le_mul_right _ hk
          simp only [pageSize] at *
          omega
      · rintro ⟨hL | ⟨ham, hca, hend⟩, hnot⟩
        · exact Or.inl hL
        · refine Or.inr ⟨ham, ?_, hend⟩
          by_contra hlt
          refine hnot ⟨(a - s.pmm.cursor) / pageSize, ?_, ?_⟩
          · simp only [pageSize] at *
            omega
          · simp only [pageSize] at *
            omega
    have hsub : runPages s.pmm.cursor count ⊆ freeSet s.pmm L := by
      rintro a ⟨k, hk, rfl⟩
      have hkb : (k + 1) * pageSize ≤ count * pageSize := Nat.mul_le_mul_right _ hk
      refine Or.inr ⟨?_, by omega, ?_⟩
      · simp only [pageSize] at *
        omega
      · simp only [pageSize] at *
        omega
    rw [hp]
    exact h.take hinv hmem hstop hsub hfree r

/-- The allocator has its pages below the end of the memory map. -/
theorem pmmInit_stop_le {mm : Memmap} (hmm : EndsBelow (2 ^ 52) mm) {hhdm : Nat} (hh : hhdm ≠ 0)
    (mem : Nat → Nat) (hfound : (pmmInit mm hhdm (.boot mem)).cursor ≠ 0) :
    PmmInv (pmmInit mm hhdm (.boot mem)) [] ∧ (pmmInit mm hhdm (.boot mem)).stop ≤ 2 ^ 52 := by
  have hmm' : EndsBelow (2 ^ 63) mm := fun entries he e hin ht =>
    (hmm entries he e hin ht).trans (by decide)
  rcases pmmInit_spec hmm' hh mem with ⟨hfail, -⟩ | ⟨entries, m, hent, hok⟩
  · exact absurd hfail.cursor hfound
  · refine ⟨hok.inv, ?_⟩
    obtain ⟨e, hin, hpart⟩ := hok.main.exists_part
    obtain ⟨-, -, -, hsum, ht⟩ := mainPart_pos hpart
    rw [hok.stop, hsum]
    exact hmm entries hent e hin ht

/-- The invariant right after the start. The slots of the kernel's root that are
tracked are empty then. -/
theorem vmmInv_start {mm : Memmap} {hhdm : Nat} {mem : Nat → Nat} {kernel : Nat} (cr3 : Nat)
    (slots : Set Nat) (hmm : EndsBelow (2 ^ 52) mm) (hh : hhdm ≠ 0)
    (hfound : (pmmInit mm hhdm (.boot mem)).cursor ≠ 0) (hpage : ptePage kernel = kernel)
    (hk : kernel ∉ freePhys (pmmInit mm hhdm (.boot mem)))
    (hempty : ∀ i ∈ slots, ¬ present (entry (pmmInit mm hhdm (.boot mem)).mem kernel i)) :
    VmmInv (.noUser kernel slots) ⟨pmmInit mm hhdm (.boot mem), cr3, kernel⟩ [] ∅ := by
  obtain ⟨hinv, hstop⟩ := pmmInit_stop_le hmm hh mem hfound
  have hroot : ∀ r π e, Pos (Domain.noUser kernel slots) r π →
      look (pmmInit mm hhdm (.boot mem)).mem r π = some e → r = kernel ∧ π = [] := by
    rintro r π e ⟨hr | hr, -, -, hhead⟩ he
    · exact absurd hr (Set.notMem_empty r)
    · obtain rfl : r = kernel := hr
      refine ⟨rfl, ?_⟩
      cases π with
      | nil => rfl
      | cons i π =>
          obtain ⟨-, ⟨hbad, -⟩ | ⟨-, hi⟩⟩ := hhead i (by simp)
          · exact absurd hbad (Set.notMem_empty r)
          · obtain ⟨e1, he1, -⟩ := walk_of_append (show walk ptePage _ r ([i] ++ π) = some e from he)
            rw [show walk ptePage _ r [i] = _ from walk_snoc r [] i] at he1
            simp only [walk_nil, Option.bind_some, hpage] at he1
            exact absurd (link_some.1 he1).1 ((link_some.1 he1).2 ▸ hempty i hi)
  refine ⟨hinv, hstop, ?_, ?_, ?_, ?_, ?_, ?_, ?_⟩
  · intro r π r' π' a b h h' ha hb _
    obtain ⟨rfl, rfl⟩ := hroot r π a h ha
    obtain ⟨rfl, rfl⟩ := hroot r' π' b h' hb
    exact ⟨rfl, rfl⟩
  · rintro r (hr | rfl)
    · exact absurd hr (Set.notMem_empty r)
    · exact hpage
  · intro r π e hπ hne _ he
    exact absurd (hroot r π e hπ he).2 hne
  · rintro r π e hπ (hr | hne) he
    · exact absurd hr (Set.notMem_empty r)
    · exact absurd (hroot r π e hπ he).2 hne
  · rwa [freePhys_eq hinv] at hk
  · exact fun p hp => absurd hp (Set.notMem_empty p)
  · exact fun r π e _ _ => Set.notMem_empty _

/-- Every state that is built satisfies the invariant. -/
theorem Built.inv {D : Domain} {H : Set Nat} {s : VmmState} (hb : Built D H s) :
    BuiltInv D H s := by
  induction hb with
  | start mm hhdm mem kernel cr3 hmm hh hfound hk0 hpage hk =>
      exact ⟨rfl, hk0, rfl, [], vmmInv_start cr3 ∅ hmm hh hfound hpage hk
        fun i hi => absurd hi (Set.notMem_empty i)⟩
  | alloc hs hne ih =>
      obtain ⟨hk, hk0, hslots, L, h⟩ := ih
      rcases h.alloc 0 with ⟨heq, -⟩ | ⟨-, -, -, L', hc, -⟩
      · rw [heq] at hne
        exact absurd rfl hne
      · exact ⟨hc.kernelCr3.trans hk, hk0, hslots, L', hc.inv⟩
  | allocRun hs hbytes hne ih =>
      obtain ⟨hk, hk0, hslots, L, h⟩ := ih
      exact ⟨hk, hk0, hslots, L, (h.allocRun hbytes hne 0).inv⟩
  | @free D H s hs p hp ih =>
      obtain ⟨hk, hk0, hslots, L, h⟩ := ih
      obtain ⟨hc, -⟩ := h.free D.kernel (Or.inr rfl) hp
      exact ⟨hc.kernelCr3.trans hk, hk0, hslots, _, hc.inv⟩
  | store hs value hw ih =>
      obtain ⟨hk, hk0, hslots, L, h⟩ := ih
      exact ⟨hk, hk0, hslots, L, h.store hslots value hw⟩
  | switch hs root ih =>
      obtain ⟨hk, hk0, hslots, L, h⟩ := ih
      exact ⟨hk, hk0, hslots, L, h.pmm, h.stop_le, h.apart, h.root, h.tables, h.used, h.kernel,
        h.held, h.held_apart⟩
  | create hs hne hdk ih =>
      obtain ⟨hk, hk0, hslots, L, h⟩ := ih
      rcases h.createUserPagemap hk hk0 with ⟨heq, -⟩ |
        ⟨dst, s', L', hne', heq, -, -, hinv, -, -, -, hk', -⟩
      · rw [heq] at hne
        exact absurd rfl hne
      · simp only [heq] at hdk ⊢
        exact ⟨hk'.trans hk, hk0, hslots, L', hinv⟩
  | destroy hs hr ih =>
      obtain ⟨hk, hk0, hslots, L, h⟩ := ih
      obtain ⟨_, hinv, -, -, hk', -⟩ := h.destroyUserPagemap hr hk
      exact ⟨hk'.trans hk, hk0, hslots, _, hinv⟩
  | map hs flags hr hv hp hok ih =>
      obtain ⟨hk, hk0, hslots, L, h⟩ := ih
      rcases h.mapPageInto (Or.inl hr) (user_slot hr hv) hp flags with
        ⟨s', L', heq, -⟩ | ⟨s', L', heq, hc, -⟩
      · rw [heq] at hok
        exact absurd hok (by simp)
      · rw [heq]
        exact ⟨hc.kernelCr3.trans hk, hk0, hslots, L', hc.inv⟩
  | mapFailed hs flags hr hv hp hfail ih =>
      obtain ⟨hk, hk0, hslots, L, h⟩ := ih
      rcases h.mapPageInto (Or.inl hr) (user_slot hr hv) hp flags with
        ⟨s', L', heq, hc, -⟩ | ⟨s', L', heq, -⟩
      · rw [heq]
        exact ⟨hc.kernelCr3.trans hk, hk0, hslots, L', hc.inv⟩
      · rw [heq] at hfail
        exact absurd hfail (by simp)
  | @unmap D H s hs r virt hr hv ih =>
      obtain ⟨hk, hk0, hslots, L, h⟩ := ih
      cases he : look s.mem r (vaPath (alignDown virt)) with
      | none =>
          rw [h.unmapPageIn_none (Or.inl hr) virt he, frameAt_none he, Set.union_empty]
          exact ⟨hk, hk0, hslots, L, h⟩
      | some e =>
          obtain ⟨s', L', heq, hc, -⟩ :=
            h.unmapPageIn_some (Or.inl hr) virt (user_slot hr hv) he
          rw [heq, frameAt_some he, Set.union_singleton]
          exact ⟨hc.kernelCr3.trans hk, hk0, hslots, L', hc.inv⟩

end FiFi.Vmm
