import FiFi.Pmm.Partition
import FiFi.Vmm.Frames
import FiFi.Vmm.Range

/-!
# The shared half

All page maps have the kernel's entries in their upper half, so the tables below
such an entry are shared. An operation on an address of the shared half does the
same whichever page map is loaded, as long as it does not write the root. It
does not, because the entry of the heap is present from the start and the first
page of the heap is never unmapped.
-/

namespace FiFi.Vmm

open Pmm LinkedList RadixForest Loop

/-! ### Reading and writing through any root -/

theorem translateIn_shared {mem : Nat → Nat} {r k v : Nat}
    (he : entry mem r (idxPml4 v) = entry mem k (idxPml4 v)) :
    translateIn mem r v = translateIn mem k v := by
  unfold translateIn
  rw [he]

theorem mapPageInto_shared {s : VmmState} {r k virt : Nat} (phys : Nat) {flags : Nat}
    (he : entry s.mem r (idxPml4 virt) = entry s.mem k (idxPml4 virt))
    (hp : present (entry s.mem k (idxPml4 virt))) (hflags : flags &&& vmmUser = 0) :
    vmmMapPageInto s r virt phys flags = vmmMapPageInto s k virt phys flags := by
  have htable : ∀ t, entry s.mem t (idxPml4 virt) = entry s.mem k (idxPml4 virt) →
      ensureTable s t (idxPml4 virt) false = (some (alignDown (entry s.mem k (idxPml4 virt))), s) := by
    intro t ht
    unfold ensureTable
    simp [ht, hp]
  unfold vmmMapPageInto
  simp only [hflags, ne_eq, not_true_eq_false, decide_false, htable r he, htable k rfl]

/-- Giving back a page writes no word but the first one of the page. -/
theorem freePage_mem_of_mod {s : VmmState} {p w : Nat} (hw : w % pageSize ≠ 0) :
    (freePage s p).mem w = s.mem w := by
  change (pmmFreePage s.pmm p).mem w = s.pmm.mem w
  unfold pmmFreePage
  dsimp only
  split_ifs
  · rfl
  · rfl
  · rfl
  · rfl
  · rfl
  · refine Function.update_of_ne ?_ _ _
    rintro rfl
    exact hw (alignDown_mod p)

/-- If the entry of the root is still there afterwards, it was not written. -/
theorem unmapPageIn_shared {s : VmmState} {r k virt : Nat} (hk : k % pageSize = 0)
    (hi : idxPml4 (alignDown virt) ≠ 0)
    (he : entry s.mem r (idxPml4 (alignDown virt)) = entry s.mem k (idxPml4 (alignDown virt)))
    (hp : present (entry (unmapPageIn s k virt).2.mem k (idxPml4 (alignDown virt)))) :
    unmapPageIn s r virt = unmapPageIn s k virt := by
  have hw : (k + 8 * idxPml4 (alignDown virt)) % pageSize ≠ 0 := by
    have hlt : idxPml4 (alignDown virt) < 512 := Nat.mod_lt _ (by decide)
    simp only [pageSize] at *
    omega
  unfold unmapPageIn at hp ⊢
  dsimp only at hp ⊢
  simp only [he]
  split_ifs with h1 h2 h3 h4 h5 h6 h7
  all_goals try rfl
  -- the last branch clears the entry of the root
  rw [if_neg h1, if_neg h2, if_neg h3, if_neg h4, if_neg h5, if_neg h6, if_neg h7, entry,
    freePage_mem_of_mod hw, setEntry_mem, Function.update_self] at hp
  exact absurd hp (by decide)

theorem unmapPageAndFreeIn_shared {s : VmmState} {r k virt : Nat} (hk : k % pageSize = 0)
    (hi : idxPml4 (alignDown virt) ≠ 0)
    (he : entry s.mem r (idxPml4 (alignDown virt)) = entry s.mem k (idxPml4 (alignDown virt)))
    (hp : present (entry (unmapPageAndFreeIn s k virt).2.mem k (idxPml4 (alignDown virt)))) :
    unmapPageAndFreeIn s r virt = unmapPageAndFreeIn s k virt := by
  have haa : alignDown (alignDown virt) = alignDown virt := alignDown_of_mod (alignDown_mod virt)
  have hw : (k + 8 * idxPml4 (alignDown virt)) % pageSize ≠ 0 := by
    have hlt : idxPml4 (alignDown virt) < 512 := Nat.mod_lt _ (by decide)
    simp only [pageSize] at *
    omega
  unfold unmapPageAndFreeIn at hp ⊢
  simp only [translateIn_shared he] at hp ⊢
  by_cases h0 : translateIn s.mem k (alignDown virt) = 0
  · rw [if_pos h0, if_pos h0]
  · rw [if_neg h0] at hp ⊢
    rw [if_neg h0]
    have hp' : present (entry (unmapPageIn s k (alignDown virt)).2.mem k
        (idxPml4 (alignDown (alignDown virt)))) := by
      rw [haa]
      split at hp
      · exact hp
      · rwa [entry, freePage_mem_of_mod hw] at hp
    rw [unmapPageIn_shared hk (by rwa [haa]) (by rwa [haa]) hp']

/-! ### Mapping only adds entries -/

/-- Every entry of `s` is there in `s'`. -/
def Grows (D : Domain) (s s' : VmmState) : Prop :=
  ∀ r' σ e, Pos D r' σ → look s.mem r' σ = some e → look s'.mem r' σ = some e

theorem Grows.refl (D : Domain) (s : VmmState) : Grows D s s := fun _ _ _ _ he => he

theorem Grows.trans {D : Domain} {s s' s'' : VmmState} (h : Grows D s s') (h' : Grows D s' s'') :
    Grows D s s'' :=
  fun r' σ e hσ he => h' r' σ e hσ (h r' σ e hσ he)

theorem grows_of_fill {D : Domain} {r v : Nat} {π : List Nat} {s s' : VmmState}
    (hnone : look s.mem r π = none)
    (hlook : ∀ r' σ, Pos D r' σ → look s'.mem r' σ =
      if r' = r ∧ σ = π then some v else look s.mem r' σ) : Grows D s s' := by
  intro r' σ e hσ he
  rw [hlook r' σ hσ, if_neg, he]
  rintro ⟨rfl, rfl⟩
  rw [hnone] at he
  simp at he

namespace VmmInv

variable {D : Domain} {s : VmmState} {L : List Nat} {H : Set Nat} {r : Nat}

theorem ensureTable_grows (h : VmmInv D s L H) {t i : Nat} {π : List Nat}
    (hπ : Pos D r (π ++ [i])) (ht : look s.mem r π = some t) :
    Grows D s (Vmm.ensureTable s (ptePage t) i false).2 := by
  have hslot : look s.mem r (π ++ [i]) = link s.mem (ptePage t) i := by
    rw [look_snoc, ht]
    rfl
  unfold Vmm.ensureTable
  dsimp only
  split
  · exact Grows.refl D s
  · next hp =>
      have hnone : look s.mem r (π ++ [i]) = none := by
        rw [hslot]
        exact link_none.2 hp
      split
      · next h0 =>
          rcases h.alloc r with ⟨heq, -⟩ | ⟨hne, -⟩
          · rw [heq]
            exact Grows.refl D s
          · exact absurd h0 hne
      · next hne =>
          obtain ⟨L', -, hlook⟩ := h.newTable hπ ht hnone false hne
          exact grows_of_fill hnone hlook

/-- Mapping a kernel page where nothing is mapped. -/
theorem mapPageInto_grows (h : VmmInv D s L H) (hr : r ∈ D.user ∨ r = D.kernel) {virt : Nat}
    (hv : idxPml4 virt ∈ D.slotsOf r) {phys : Nat} (hp : phys ∈ H) {flags : Nat}
    (hflags : flags &&& vmmUser = 0) (hnone : look s.mem r (vaPath virt) = none) :
    Grows D s (vmmMapPageInto s r virt phys flags).2 := by
  have hpos := pos_vaPath hr hv
  have hphys : ptePage phys = phys := by
    obtain ⟨hmod, -, hend, -⟩ := h.held phys hp
    have hstop := h.stop_le
    refine ptePage_of_page hmod ?_
    simp only [pageSize] at *
    omega
  refine h.mapPageInto_induct hr hv phys flags (Grows.refl D s) ?_ ?_
  · intro s' L' t i π h' hπ _ ht _ hg
    simp only [hflags, ne_eq, not_true_eq_false, decide_false]
    exact hg.trans (h'.ensureTable_grows hπ ht)
  · intro s' L' t h' hleaf ht hsame hg
    obtain ⟨hpres, hpage⟩ := leaf_spec phys flags
    rw [hphys] at hpres hpage ⊢
    obtain ⟨-, hlook⟩ := h'.setLeaf hleaf (by simp) ht hpres (by rwa [hpage])
    refine hg.trans (grows_of_fill ?_ hlook)
    exact (hsame r _ hpos rfl).trans hnone

end VmmInv

/-! ### The slot of the heap -/

/-- The slot is one of the shared half, all page maps have the kernel's entry in
it, and the page at `first` is mapped there. -/
structure SharedSlot (D : Domain) (slot first : Nat) (s : VmmState) : Prop where
  upper : 256 ≤ slot
  lt : slot < 512
  mem_slots : slot ∈ D.slots
  entries : ∀ r ∈ D.user, entry s.mem r slot = entry s.mem D.kernel slot
  first_slot : idxPml4 first = slot
  mapped : ∃ e, look s.mem D.kernel (vaPath first) = some e

/-- Changes of another page map do not touch a root. -/
theorem Change.entry_other {D : Domain} {r r' i : Nat} {s s' : VmmState} {L L' : List Nat}
    {H H' : Set Nat} (h : VmmInv D s L H) (hc : Change D r s L H s' L' H')
    (hr' : r' ∈ D.user ∨ r' = D.kernel) (hne : r' ≠ r) (hi : i < 512) :
    entry s'.mem r' i = entry s.mem r' i :=
  h.entry_of_frame (fun w hw => hc.frame w fun hwr => hw hwr.1) hne hr' hi

theorem look_root {D : Domain} {s : VmmState} {L : List Nat} {H : Set Nat} (h : VmmInv D s L H)
    {r : Nat} (hr : r ∈ D.user ∨ r = D.kernel) (i : Nat) :
    look s.mem r [i] = link s.mem r i := by
  have := look_snoc s.mem r [] i
  rwa [look_nil, Option.bind_some, h.root r hr] at this

/-- A page that is mapped in a slot keeps the entry of the root present. -/
theorem look_slot_of_mapped {D : Domain} {s : VmmState} {L : List Nat} {H : Set Nat}
    (h : VmmInv D s L H) {slot first : Nat} (hfirst : idxPml4 first = slot)
    (hmapped : ∃ e, look s.mem D.kernel (vaPath first) = some e) :
    ∃ e, look s.mem D.kernel [slot] = some e ∧ entry s.mem D.kernel slot = e ∧ present e := by
  obtain ⟨e, he⟩ := hmapped
  have hpath : vaPath first = [slot] ++ [idxPdpt first, idxPd first, idxPt first] := by
    rw [vaPath, hfirst]
    rfl
  rw [hpath] at he
  obtain ⟨e1, he1, -⟩ := walk_of_append he
  have hlink : link s.mem D.kernel slot = some e1 := (look_root h (Or.inr rfl) slot).symm.trans he1
  obtain ⟨hp, hval⟩ := link_some.1 hlink
  exact ⟨e1, he1, hval, hp⟩

namespace SharedSlot

variable {D : Domain} {slot first : Nat} {s s' : VmmState} {L L' : List Nat} {H H' : Set Nat}

theorem kernel_slot (hs : SharedSlot D slot first s) : slot ∈ D.slotsOf D.kernel :=
  ⟨hs.lt, Or.inr ⟨rfl, hs.mem_slots⟩⟩

theorem entry_eq (hs : SharedSlot D slot first s) {r : Nat} (hr : r ∈ D.user ∨ r = D.kernel) :
    entry s.mem r slot = entry s.mem D.kernel slot := by
  rcases hr with hr | rfl
  · exact hs.entries r hr
  · rfl

/-- The slot stays shared when the kernel's entry stays the same. -/
theorem of_change (hs : SharedSlot D slot first s) (h : VmmInv D s L H)
    (hc : Change D D.kernel s L H s' L' H')
    (hmapped : ∃ e, look s'.mem D.kernel (vaPath first) = some e)
    (hentry : entry s'.mem D.kernel slot = entry s.mem D.kernel slot) :
    SharedSlot D slot first s' where
  upper := hs.upper
  lt := hs.lt
  mem_slots := hs.mem_slots
  entries := by
    intro r hr
    have hne : r ≠ D.kernel := by
      rintro rfl
      exact D.kernel_not_user hr
    rw [hc.entry_other h (Or.inl hr) hne hs.lt, hs.entries r hr, hentry]
  first_slot := hs.first_slot
  mapped := hmapped

/-- `vmm_unmap_page_and_free` on a page of the slot, whichever page map is
loaded. -/
theorem unmapPage (hs : SharedSlot D slot first s) (h : VmmInv D s L H) {r virt : Nat}
    (hr : r ∈ D.user ∨ r = D.kernel) (hv : idxPml4 (alignDown virt) = slot)
    (hne : vaPath (alignDown virt) ≠ vaPath first) :
    ∃ s' L', unmapPageAndFreeIn s r virt = (true, s') ∧ Change D D.kernel s L H s' L' H ∧
      LeafLaw D D.kernel (vaPath (alignDown virt)) none s s' ∧ Shrinks D s s' ∧
      SharedSlot D slot first s' := by
  obtain ⟨s', L', heq, hc, hlaw, hsh⟩ :=
    h.unmapPageAndFreeIn (Or.inr rfl) virt (by rw [hv]; exact hs.kernel_slot)
  have hfirst : Pos D D.kernel (vaPath first) :=
    pos_vaPath (Or.inr rfl) (by rw [hs.first_slot]; exact hs.kernel_slot)
  have hmapped : ∃ e, look s'.mem D.kernel (vaPath first) = some e := by
    rw [hlaw D.kernel _ hfirst rfl, if_neg fun hc => hne hc.2.symm]
    exact hs.mapped
  obtain ⟨e1, he1, hv1, hp1⟩ := look_slot_of_mapped hc.inv hs.first_slot hmapped
  have hold : link s.mem D.kernel slot = some e1 := by
    rw [← look_root h (Or.inr rfl)]
    exact hsh D.kernel [slot] e1 (pos_singleton (Or.inr rfl) hs.kernel_slot) he1
  have hkmod : D.kernel % pageSize = 0 := by
    rw [← h.root D.kernel (Or.inr rfl)]
    exact ptePage_mod _
  have hshared := unmapPageAndFreeIn_shared (r := r) (k := D.kernel) hkmod
    (by rw [hv]; have := hs.upper; omega) (by rw [hv]; exact hs.entry_eq hr)
    (by rw [heq, hv, hv1]; exact hp1)
  exact ⟨s', L', hshared.trans heq, hc, hlaw, hsh,
    hs.of_change h hc hmapped (hv1.trans (link_some.1 hold).2.symm)⟩

/-- `vmm_unmap_range_and_free` on pages of the slot. -/
theorem unmapRange (hs : SharedSlot D slot first s) (h : VmmInv D s L H)
    (hr : s.cr3 ∈ D.user ∨ s.cr3 = D.kernel) {virt size : Nat} (hsize : size ≠ 0)
    (hv : ∀ k < rangePages virt size, idxPml4 (rangePage virt k) = slot)
    (hne : ∀ k < rangePages virt size, vaPath (rangePage virt k) ≠ vaPath first) :
    ∃ s' L', vmmUnmapRangeAndFree s virt size = (true, s') ∧ Change D D.kernel s L H s' L' H ∧
      Cleared D D.kernel virt (rangePages virt size) s s' ∧ Shrinks D s s' ∧
      SharedSlot D slot first s' := by
  have hpos : ∀ k < rangePages virt size, Pos D D.kernel (vaPath (rangePage virt k)) :=
    fun k hk => pos_vaPath (Or.inr rfl) (by rw [hv k hk]; exact hs.kernel_slot)
  unfold vmmUnmapRangeAndFree
  rw [if_neg hsize]
  have hloop := forUpTo_inv
    (fun k s => vmmUnmapPageAndFree s (u64 (alignDown virt + k * pageSize)))
    (rangePages virt size) s
    (fun k s' => ∃ L', Change D D.kernel s L H s' L' H ∧ Cleared D D.kernel virt k s s' ∧
      Shrinks D s s' ∧ SharedSlot D slot first s')
    (fun _ _ => False)
    ⟨L, Change.refl h, ⟨fun k hk => absurd hk (by omega), fun _ _ _ _ _ => rfl⟩, Shrinks.refl D s,
      hs⟩ ?_
  · rcases hloop with ⟨hnone, L', hc, hcl, hsh, hs'⟩ | ⟨k, -, -, hfalse⟩
    · exact ⟨_, L', by simp [hnone], hc, hcl, hsh, hs'⟩
    · exact hfalse.elim
  · rintro k s1 hk ⟨L1, hc1, hcl, hsh, hs1⟩
    have hal := alignDown_rangePage virt k
    obtain ⟨s2, L2, heq, hc2, hlaw, hsh2, hs2⟩ :=
      hs1.unmapPage hc1.inv (r := s1.cr3) (by rwa [hc1.cr3])
        (show idxPml4 (alignDown (rangePage virt k)) = slot by rw [hal]; exact hv k hk)
        (by rw [hal]; exact hne k hk)
    rw [hal] at hlaw
    have heq' : vmmUnmapPageAndFree s1 (u64 (alignDown virt + k * pageSize)) = (true, s2) := heq
    rw [heq']
    exact Or.inl ⟨rfl, L2, hc1.trans hc2,
      hcl.succ (fun j hj => hpos j (by omega)) hlaw, hsh.trans hsh2, hs2⟩

/-- `vmm_map_page_into` on a page of the slot where nothing is mapped. -/
theorem mapPage (hs : SharedSlot D slot first s) (h : VmmInv D s L H) {r virt phys flags : Nat}
    (hr : r ∈ D.user ∨ r = D.kernel) (hv : idxPml4 virt = slot) (hp : phys ∈ H)
    (hflags : flags &&& vmmUser = 0) (hnone : look s.mem D.kernel (vaPath virt) = none) :
    (vmmMapPageInto s r virt phys flags).1 = false ∨
      ∃ s' L', vmmMapPageInto s r virt phys flags = (true, s') ∧
        Change D D.kernel s L H s' L' (H \ {phys}) ∧
        LeafLaw D D.kernel (vaPath virt) (some (phys ||| makePteFlags flags)) s s' ∧
        Grows D s s' ∧ SharedSlot D slot first s' := by
  obtain ⟨e1, he1, hv1, hp1⟩ := look_slot_of_mapped h hs.first_slot hs.mapped
  have hslot : idxPml4 virt ∈ D.slotsOf D.kernel := by
    rw [hv]
    exact hs.kernel_slot
  rw [mapPageInto_shared (k := D.kernel) phys (by rw [hv]; exact hs.entry_eq hr)
    (by rw [hv, hv1]; exact hp1) hflags]
  have hg := h.mapPageInto_grows (Or.inr rfl) hslot hp hflags hnone
  rcases h.mapPageInto (Or.inr rfl) hslot hp flags with ⟨s', L', heq, -⟩ | ⟨s', L', heq, hc, hlaw⟩
  · exact Or.inl (congrArg Prod.fst heq)
  · rw [heq] at hg
    rw [frameAt_none hnone, Set.union_empty] at hc
    refine Or.inr ⟨s', L', heq, hc, hlaw, hg, hs.of_change h hc ?_ ?_⟩
    · obtain ⟨e, he⟩ := hs.mapped
      exact ⟨e, hg _ _ e (pos_vaPath (Or.inr rfl) (by rw [hs.first_slot]; exact hs.kernel_slot)) he⟩
    · have hnew := hg _ _ e1 (pos_singleton (Or.inr rfl) hs.kernel_slot) he1
      rw [look_root hc.inv (Or.inr rfl)] at hnew
      rw [hv1]
      exact (link_some.1 hnew).2

/-- `vmm_map_range` on pages of the slot where nothing is mapped. -/
theorem mapRange (hs : SharedSlot D slot first s) (h : VmmInv D s L H)
    (hr : s.cr3 ∈ D.user ∨ s.cr3 = D.kernel) {virt phys size flags : Nat}
    (hflags : flags &&& vmmUser = 0)
    (hv : ∀ k < rangePages virt size, idxPml4 (rangePage virt k) = slot)
    (hpaths : ∀ j < rangePages virt size, ∀ k < rangePages virt size,
      vaPath (rangePage virt j) = vaPath (rangePage virt k) → j = k)
    (hp : runPages phys (rangePages virt size) ⊆ H)
    (hnone : ∀ k < rangePages virt size, look s.mem D.kernel (vaPath (rangePage virt k)) = none) :
    (vmmMapRange s virt phys size flags).1 = false ∨
      ∃ s' L', vmmMapRange s virt phys size flags = (true, s') ∧
        Change D D.kernel s L H s' L' (H \ runPages phys (rangePages virt size)) ∧
        OnlyPages D D.kernel {σ | ∃ k < rangePages virt size, σ = vaPath (rangePage virt k)} s s' ∧
        Grows D s s' ∧ SharedSlot D slot first s' ∧
        ∀ k < rangePages virt size, ∃ e, look s'.mem D.kernel (vaPath (rangePage virt k)) = some e := by
  have hpos : ∀ k < rangePages virt size, Pos D D.kernel (vaPath (rangePage virt k)) :=
    fun k hk => pos_vaPath (Or.inr rfl) (by rw [hv k hk]; exact hs.kernel_slot)
  have hrun : ∀ k, runPages phys (k + 1) = runPages phys k ∪ {phys + k * pageSize} := by
    intro k
    ext a
    simp only [runPages, Set.mem_union, Set.mem_ofPred_eq, Set.mem_singleton_iff]
    constructor
    · rintro ⟨j, hj, rfl⟩
      by_cases hjk : j = k
      · exact Or.inr (hjk ▸ rfl)
      · exact Or.inl ⟨j, by omega, rfl⟩
    · rintro (⟨j, hj, rfl⟩ | rfl)
      · exact ⟨j, by omega, rfl⟩
      · exact ⟨k, by omega, rfl⟩
  unfold vmmMapRange
  have hloop := forUpTo_inv
    (fun k s => vmmMapPage s (u64 (alignDown virt + k * pageSize))
      (u64 (alignDown phys + k * pageSize)) flags) (rangePages virt size) s
    (fun k s' => ∃ L', Change D D.kernel s L H s' L' (H \ runPages phys k) ∧
      OnlyPages D D.kernel {σ | ∃ j < k, σ = vaPath (rangePage virt j)} s s' ∧
      Grows D s s' ∧ SharedSlot D slot first s' ∧
      ∀ j < k, ∃ e, look s'.mem D.kernel (vaPath (rangePage virt j)) = some e)
    (fun _ _ => True)
    ⟨L, by
      have hempty : runPages phys 0 = ∅ := by
        ext a
        simp [runPages]
      rw [hempty, Set.sdiff_empty]
      exact Change.refl h, fun _ _ _ _ _ => rfl, Grows.refl D s, hs, fun j hj => by omega⟩ ?_
  · rcases hloop with ⟨hsome, L', hc, honly, hg, hs', hmapped⟩ | ⟨k, -, hsome, -⟩
    · exact Or.inr ⟨_, L', by simp [hsome], hc, honly, hg, hs', hmapped⟩
    · exact Or.inl (by simp [hsome])
  · rintro k s1 hk ⟨L1, hc1, honly, hg, hs1, hmapped⟩
    have hin : phys + k * pageSize ∈ H := hp ⟨k, hk, rfl⟩
    obtain ⟨hmod, -, hend, -⟩ := h.held _ hin
    have hphys : u64 (alignDown phys + k * pageSize) = phys + k * pageSize := by
      have hstop := h.stop_le
      simp only [u64, alignDown, pageSize] at *
      omega
    have hin1 : phys + k * pageSize ∈ H \ runPages phys k := by
      refine ⟨hin, ?_⟩
      rintro ⟨j, hj, heq⟩
      simp only [pageSize] at heq
      omega
    have hnone1 : look s1.mem D.kernel (vaPath (rangePage virt k)) = none := by
      rw [honly D.kernel _ (hpos k hk) rfl, hnone k hk]
      rintro - ⟨j, hj, heq⟩
      have := hpaths k hk j (by omega) heq
      omega
    have hal := alignDown_rangePage virt k
    have hmap := hs1.mapPage hc1.inv (r := s1.cr3) (by rwa [hc1.cr3]) (hv k hk) hin1 hflags hnone1
    have heq' : vmmMapPage s1 (u64 (alignDown virt + k * pageSize))
        (u64 (alignDown phys + k * pageSize)) flags =
        vmmMapPageInto s1 s1.cr3 (rangePage virt k) (phys + k * pageSize) flags := by
      rw [vmmMapPage, hphys]
      exact congrArg (fun v => vmmMapPageInto s1 s1.cr3 v (phys + k * pageSize) flags) hal
    rw [heq']
    rcases hmap with hfail | ⟨s2, L2, heq, hc2, hlaw, hg2, hs2⟩
    · exact Or.inr ⟨hfail, trivial⟩
    · rw [heq]
      refine Or.inl ⟨rfl, L2, ?_, ?_, hg.trans hg2, hs2, fun j hj => ?_⟩
      · rw [hrun, ← Set.sdiff_sdiff]
        exact hc1.trans hc2
      · intro r' σ hσ hlen hnot
        have hone := hlaw.only (V := {σ | ∃ j < k + 1, σ = vaPath (rangePage virt j)})
          ⟨k, by omega, rfl⟩
        rw [hone r' σ hσ hlen hnot]
        refine honly r' σ hσ hlen fun hrk hin => hnot hrk ?_
        obtain ⟨j, hj, rfl⟩ := hin
        exact ⟨j, by omega, rfl⟩
      · by_cases hjk : j = k
        · subst hjk
          rw [hlaw _ _ (hpos j hk) rfl, if_pos ⟨rfl, rfl⟩]
          exact ⟨_, rfl⟩
        · obtain ⟨e, he⟩ := hmapped j (by omega)
          exact ⟨e, hg2 _ _ e (hpos j (by omega)) he⟩

end SharedSlot

/-! ### What unmapping frees -/

section

variable {D : Domain} {r : Nat} {s s' : VmmState} {L L' : List Nat}

/-- An operation that only removes entries takes no free page. -/
theorem Change.freeSet_mono (h : VmmInv D s L ∅) (hc : Change D r s L ∅ s' L' ∅)
    (hsh : Shrinks D s s') : freeSet s.pmm L ⊆ freeSet s'.pmm L' := by
  intro p hp
  have hin : p ∈ Vmm.region D s' L' ∅ r := by
    rw [hc.region]
    exact Or.inl (Or.inl hp)
  rcases hin with (hin | ⟨σ, e, hσ, he, rfl⟩) | hin
  · exact hin
  · exact absurd hp (h.not_free hσ (hsh r σ e hσ he))
  · exact absurd hin (Set.notMem_empty p)

/-- The page of an entry that was removed is free. -/
theorem Change.freed (h : VmmInv D s L ∅) (hc : Change D r s L ∅ s' L' ∅)
    (hsh : Shrinks D s s') {π : List Nat} {e : Nat} (hπ : Pos D r π)
    (he : look s.mem r π = some e) (hgone : look s'.mem r π = none) :
    ptePage e ∈ freeSet s'.pmm L' := by
  have hin : ptePage e ∈ Vmm.region D s' L' ∅ r := by
    rw [hc.region]
    exact Or.inl (Or.inr ⟨π, e, hπ, he, rfl⟩)
  rcases hin with (hin | ⟨σ, e', hσ, he', heq⟩) | hin
  · exact hin
  · obtain ⟨-, rfl⟩ := h.apart r π r σ e e' hπ hσ he (hsh r σ e' hσ he') heq
    rw [hgone] at he'
    simp at he'
  · exact absurd hin (Set.notMem_empty _)

end

end FiFi.Vmm
