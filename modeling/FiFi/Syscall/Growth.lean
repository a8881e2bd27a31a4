import FiFi.Syscall.Memory
import FiFi.Vmm.Access
import FiFi.Vmm.Range

/-!
# Mapping fresh pages

The loop that `SYS_BRK` and `SYS_MMAP` share. A turn maps one fresh, cleared
page, or fails and leaves the entries of all pages as they were. The whole loop,
its clean-up after a failure included, touches only the pages of its range.
-/

namespace FiFi.Syscall

open Pmm Vmm RadixForest Loop

section Growth

variable {D : Domain} {s : VmmState} {L : List Nat} {H : Set Nat}

/-- What one turn does: no page is free, or a page is taken. A page that is taken
is given back when there is no room for tables, and mapped and cleared otherwise. -/
theorem mapZeroed_cases (h : VmmInv D s L H) (hr : s.cr3 ∈ D.user ∨ s.cr3 = D.kernel) {v : Nat}
    (hmod : v % pageSize = 0) (hv : idxPml4 v ∈ D.slotsOf s.cr3) (flags : Nat) :
    (mapZeroed s v flags = (false, s) ∧ freeSet s.pmm L = ∅) ∨
      ∃ p s1 L1, p ∈ freeSet s.pmm L ∧ s1.mem = s.mem ∧
        Change D s.cr3 s L H s1 L1 (insert p H) ∧
        ((∃ s2 L2, vmmMapPageInto s1 s.cr3 v p flags = (false, s2) ∧
            mapZeroed s v flags = (false, freePage s2 p) ∧
            Change D s.cr3 s1 L1 (insert p H) s2 L2 (insert p H) ∧ SameLeaves D s1 s2 ∧
            freeSet s2.pmm L2 = ∅) ∨
          ∃ s2 L2, vmmMapPageInto s1 s.cr3 v p flags = (true, s2) ∧
            mapZeroed s v flags = (true, s2.withMem (zeroPage s2.mem p)) ∧
            Change D s.cr3 s1 L1 (insert p H) s2 L2 (H ∪ frameAt s.mem s.cr3 (vaPath v)) ∧
            LeafLaw D s.cr3 (vaPath v) (some (p ||| makePteFlags flags)) s1 s2 ∧
            ptePage (p ||| makePteFlags flags) = p) := by
  unfold mapZeroed
  rcases h.alloc s.cr3 with ⟨heq, hempty⟩ | ⟨hne, hin, hmem, L1, hc1, -⟩
  · exact Or.inl ⟨by simp [heq], hempty⟩
  · simp only [if_neg hne]
    generalize hp : (allocPage s).1 = p at *
    generalize hs1 : (allocPage s).2 = s1 at *
    refine Or.inr ⟨p, s1, L1, hin, hmem, hc1, ?_⟩
    have hpH : p ∉ H := fun hin' => (h.held p hin').2.2.2 hin
    have hpmod : p % pageSize = 0 := h.pmm.mod_of_mem_freeSet hin
    have hcr : s1.cr3 = s.cr3 := hc1.cr3
    have hmap : vmmMapPage s1 v p flags = vmmMapPageInto s1 s.cr3 v p flags := by
      rw [vmmMapPage, hcr, alignDown_of_mod hmod]
    rw [hmap]
    rcases hc1.inv.mapPageInto hr hv (Set.mem_insert p H) flags with
      ⟨s2, L2, heq, hc2, hsame, hempty⟩ | ⟨s2, L2, heq, hc2, hlaw⟩
    · exact Or.inl ⟨s2, L2, heq, by simp [heq], hc2, hsame, hempty⟩
    · rw [Set.insert_sdiff_self_of_notMem hpH] at hc2
      have hpage : ptePage (p ||| makePteFlags flags) = p := by
        have hspec := (leaf_spec p flags).2
        rwa [ptePage_of_page hpmod (h.lt_of_free hin)] at hspec
      have htr : vmmTranslate s2 v = p := by
        have hcr2 : s2.cr3 = s.cr3 := hc2.cr3.trans hcr
        rw [vmmTranslate, hcr2, hc2.inv.translateIn hr hv, hlaw _ _ (pos_vaPath hr hv) rfl,
          if_pos ⟨rfl, rfl⟩]
        simp [hpage, hmod]
      have hframe : frameAt s1.mem s.cr3 (vaPath v) = frameAt s.mem s.cr3 (vaPath v) := by
        rw [hmem]
      rw [hframe] at hc2
      exact Or.inr ⟨s2, L2, heq, by simp [heq, zeroUserPage, htr], hc2, hlaw, hpage⟩

/-- Clearing the frame that was just mapped. -/
theorem zeroMapped {s2 : VmmState} {L2 : List Nat} {H2 : Set Nat} {r : Nat}
    (h : VmmInv D s2 L2 H2) {ρ : List Nat} (hρ : Pos D r ρ) (hfour : ρ.length = 4) {e : Nat}
    (he : look s2.mem r ρ = some e) :
    Change D r s2 L2 H2 (s2.withMem (zeroPage s2.mem (ptePage e))) L2 H2 ∧
      ∀ r' σ, Pos D r' σ → look (zeroPage s2.mem (ptePage e)) r' σ = look s2.mem r' σ :=
  h.writeFrame hρ hfour he fun _ hw => VmmInv.alignDown_zeroPage s2.mem (ptePage_mod e) hw

/-- One turn. A page that was mapped at `v` before is held afterwards: nobody
gives it back. -/
theorem mapZeroed_spec (h : VmmInv D s L H) (hr : s.cr3 ∈ D.user ∨ s.cr3 = D.kernel) {v : Nat}
    (hmod : v % pageSize = 0) (hv : idxPml4 v ∈ D.slotsOf s.cr3) (flags : Nat) :
    (∃ s' L', mapZeroed s v flags = (false, s') ∧ Change D s.cr3 s L H s' L' H ∧
        SameLeaves D s s') ∨
      ∃ s' L' p, mapZeroed s v flags = (true, s') ∧ p ∈ freeSet s.pmm L ∧
        Change D s.cr3 s L H s' L' (H ∪ frameAt s.mem s.cr3 (vaPath v)) ∧
        LeafLaw D s.cr3 (vaPath v) (some (p ||| makePteFlags flags)) s s' ∧
        ∀ i < 512, entry s'.mem p i = 0 := by
  rcases mapZeroed_cases h hr hmod hv flags with
    ⟨heq, -⟩ | ⟨p, s1, L1, hin, hmem, hc1, ⟨s2, L2, -, heq, hc2, hsame, -⟩ |
      ⟨s2, L2, -, heq, hc2, hlaw, hpage⟩⟩
  · exact Or.inl ⟨s, L, heq, Change.refl h, fun _ _ _ _ => rfl⟩
  · have hpH : p ∉ H := fun hin' => (h.held p hin').2.2.2 hin
    obtain ⟨hc3, -, -, hlook3⟩ := hc2.inv.free s.cr3 hr (Set.mem_insert p H)
    rw [Set.insert_sdiff_self_of_notMem hpH] at hc3
    refine Or.inl ⟨freePage s2 p, p :: L2, heq, hc1.trans (hc2.trans hc3), ?_⟩
    intro r' σ hσ hlen
    rw [hlook3 r' σ hσ, hsame r' σ hσ hlen, hmem]
  · have hlaw' : LeafLaw D s.cr3 (vaPath v) (some (p ||| makePteFlags flags)) s s2 := by
      intro r' σ hσ hlen
      rw [hlaw r' σ hσ hlen, hmem]
    have hpos := pos_vaPath hr hv
    have hleaf := hlaw' _ _ hpos rfl
    rw [if_pos ⟨rfl, rfl⟩] at hleaf
    obtain ⟨hc3, hlook3⟩ := zeroMapped hc2.inv hpos rfl hleaf
    rw [hpage] at hc3 hlook3
    refine Or.inr ⟨_, L2, p, heq, hin, hc1.trans (hc2.trans hc3), ?_, ?_⟩
    · intro r' σ hσ hlen
      rw [withMem_mem, hlook3 r' σ hσ, hlaw' r' σ hσ hlen]
    · exact fun i hi => VmmInv.entry_zeroPage hi

/-- A turn writes neither a mapped frame nor a page that is held. -/
theorem mapZeroed_dataKept (h : VmmInv D s L H) (hr : s.cr3 ∈ D.user ∨ s.cr3 = D.kernel) {v : Nat}
    (hmod : v % pageSize = 0) (hv : idxPml4 v ∈ D.slotsOf s.cr3) (flags : Nat) :
    DataKept D H s (mapZeroed s v flags).2 := by
  intro w hw
  -- the page that is taken was free, so it is none of these
  have hkept : ∀ p s1 L1, s1.mem = s.mem → Change D s.cr3 s L H s1 L1 (insert p H) →
      (vmmMapPageInto s1 s.cr3 v p flags).2.mem w = s.mem w := by
    intro p s1 L1 hmem hc1
    rw [← hmem]
    refine hc1.inv.mapPageInto_dataKept hr hv p flags w ?_
    rw [hmem]
    exact hw.imp (Set.mem_insert_of_mem p) id
  rcases mapZeroed_cases h hr hmod hv flags with
    ⟨heq, -⟩ | ⟨p, s1, L1, hin, hmem, hc1, ⟨s2, L2, hmap, heq, -⟩ | ⟨s2, L2, hmap, heq, -⟩⟩
  · rw [heq]
  · have hk := hkept p s1 L1 hmem hc1
    rw [hmap] at hk
    rw [heq, freePage_mem_of_ne, hk]
    rw [alignDown_of_mod (h.pmm.mod_of_mem_freeSet hin)]
    exact fun hwp => h.data_not_free hw (hwp ▸ hin)
  · have hk := hkept p s1 L1 hmem hc1
    rw [hmap] at hk
    rw [heq, withMem_mem, VmmInv.alignDown_zeroPage _ (h.pmm.mod_of_mem_freeSet hin), hk]
    exact fun hwp => h.data_not_free hw (hwp ▸ hin)

/-- A turn with the user flag leaves all rights on the tables. -/
theorem mapZeroed_userTables (h : VmmInv D s L H) (hr : s.cr3 ∈ D.user ∨ s.cr3 = D.kernel)
    {v : Nat} (hmod : v % pageSize = 0) (hv : idxPml4 v ∈ D.slotsOf s.cr3) {flags : Nat}
    (hflags : flags &&& vmmUser ≠ 0) (hu : UserTables D s s.cr3) :
    UserTables D (mapZeroed s v flags).2 s.cr3 := by
  have hmapped : ∀ p s1 L1, s1.mem = s.mem → Change D s.cr3 s L H s1 L1 (insert p H) →
      UserTables D (vmmMapPageInto s1 s.cr3 v p flags).2 s.cr3 := by
    intro p s1 L1 hmem hc1
    refine hc1.inv.mapPageInto_userTables hr hv p hflags (hu.congr fun π _ => ?_)
    rw [hmem]
  rcases mapZeroed_cases h hr hmod hv flags with
    ⟨heq, -⟩ | ⟨p, s1, L1, hin, hmem, hc1, ⟨s2, L2, hmap, heq, hc2, -⟩ |
      ⟨s2, L2, hmap, heq, hc2, hlaw, hpage⟩⟩
  · rw [heq]
    exact hu
  · have hu2 := hmapped p s1 L1 hmem hc1
    rw [hmap] at hu2
    rw [heq]
    obtain ⟨-, -, -, hlook⟩ := hc2.inv.free s.cr3 hr (Set.mem_insert p H)
    exact hu2.congr fun π hπ => hlook _ π hπ
  · have hu2 := hmapped p s1 L1 hmem hc1
    rw [hmap] at hu2
    have hpos := pos_vaPath hr hv
    have hleaf := hlaw _ _ hpos rfl
    rw [if_pos ⟨rfl, rfl⟩] at hleaf
    obtain ⟨-, hlook⟩ := zeroMapped hc2.inv hpos rfl hleaf
    rw [hpage] at hlook
    rw [heq]
    exact hu2.congr fun π hπ => hlook _ π hπ

/-- The whole loop touches only pages of its range, which lies in the slots of
the page map. -/
theorem mapZeroedRange_spec (h : VmmInv D s L H) (hr : s.cr3 ∈ D.user ∨ s.cr3 = D.kernel)
    {start stop : Nat} (hmod : start % pageSize = 0) (hstop : stop < 2 ^ 64)
    (hv : ∀ v, start ≤ v → v < stop → idxPml4 v ∈ D.slotsOf s.cr3) (flags : Nat) :
    ∃ s' L' H', (mapZeroedRange s start stop flags).2 = s' ∧ Change D s.cr3 s L H s' L' H' ∧
      OnlyPages D s.cr3 {σ | ∃ v, start ≤ v ∧ v < stop ∧ σ = vaPath v} s s' := by
  set V : Set (List Nat) := {σ | ∃ v, start ≤ v ∧ v < stop ∧ σ = vaPath v} with hV
  have hloop := forUpTo_inv (fun k s => mapZeroed s (start + k * pageSize) flags)
    ((stop - start + (pageSize - 1)) / pageSize) s
    (fun _ s' => ∃ L' H', Change D s.cr3 s L H s' L' H' ∧ OnlyPages D s.cr3 V s s')
    (fun _ s' => ∃ L' H', Change D s.cr3 s L H s' L' H' ∧ OnlyPages D s.cr3 V s s')
    ⟨L, H, Change.refl h, fun _ _ _ _ _ => rfl⟩
    (by
      rintro k s1 hk ⟨L1, H1, hc1, ho1⟩
      have hcr : s1.cr3 = s.cr3 := hc1.cr3
      have hlt : start + k * pageSize < stop := by
        simp only [pageSize] at *
        omega
      have hkmod : (start + k * pageSize) % pageSize = 0 := by
        simp only [pageSize] at *
        omega
      have hslot : idxPml4 (start + k * pageSize) ∈ D.slotsOf s1.cr3 := by
        rw [hcr]
        exact hv _ (by omega) hlt
      have hin : vaPath (start + k * pageSize) ∈ V := ⟨_, by omega, hlt, rfl⟩
      rcases mapZeroed_spec hc1.inv (by rwa [hcr]) hkmod hslot flags with
        ⟨s2, L2, heq, hc2, hsame⟩ | ⟨s2, L2, p, heq, -, hc2, hlaw, -⟩
      · rw [hcr] at hc2
        exact Or.inr ⟨congrArg Prod.fst heq, L2, H1, by rw [heq]; exact hc1.trans hc2,
          by rw [heq]; exact ho1.trans (hsame.only _ _)⟩
      · rw [hcr] at hc2 hlaw
        exact Or.inl ⟨congrArg Prod.fst heq, L2, _, by rw [heq]; exact hc1.trans hc2,
          by rw [heq]; exact ho1.trans (hlaw.only hin)⟩)
  unfold mapZeroedRange
  rcases hf : forUpTo (fun k s => mapZeroed s (start + k * pageSize) flags)
    ((stop - start + (pageSize - 1)) / pageSize) s with ⟨o, s1⟩
  rw [hf] at hloop
  rcases hloop with ⟨ho, L1, H1, hc1, honly⟩ | ⟨k, hk, ho, L1, H1, hc1, honly⟩
  · obtain rfl : o = none := ho
    exact ⟨s1, L1, H1, rfl, hc1, honly⟩
  · obtain rfl : o = some k := ho
    have hcr : s1.cr3 = s.cr3 := hc1.cr3
    have hpages : rangePages start (k * pageSize) = k := by
      simp only [rangePages, alignUp, alignDown, u64, pageSize] at *
      omega
    have haddr : ∀ j < k, rangePage start j = start + j * pageSize := by
      intro j hj
      simp only [rangePage, u64, alignDown, pageSize] at *
      omega
    have hrange : ∀ j < k, start + j * pageSize < stop := by
      intro j hj
      simp only [pageSize] at *
      omega
    obtain ⟨s2, L2, heq, hc2, hcl, hzero⟩ := hc1.inv.unmapRange (by rwa [hcr]) start
      (k * pageSize) (by
        rw [hpages, hcr]
        intro j hj
        rw [haddr j hj]
        exact hv _ (by omega) (hrange j hj))
    rw [hcr] at hc2 hcl
    refine ⟨s2, L2, H1, by simp [heq], hc1.trans hc2, ?_⟩
    by_cases hk0 : k * pageSize = 0
    · rw [hzero hk0]
      exact honly
    · refine honly.trans ((hcl hk0).only fun j hj => ?_)
      rw [hpages] at hj
      rw [haddr j hj]
      exact ⟨_, by omega, hrange j hj, rfl⟩

end Growth

end FiFi.Syscall
