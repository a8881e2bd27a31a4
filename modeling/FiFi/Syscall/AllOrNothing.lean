import FiFi.Syscall.Isolation

/-!
# Growing is all or nothing

`SYS_BRK` and `SYS_MMAP` map their range page by page. A turn of the loop can
fail before it has a page, or in the middle of creating tables; then the pages
of the earlier turns are unmapped again. When nothing was mapped in the range
before the call, the effect is all or nothing: either every page of the range is
mapped to a page of its own that was free, or every address is translated as
before and every page that was free is free again, except for new tables.
-/

namespace FiFi.Syscall

open Pmm Vmm RadixForest Loop

/-! ### The loop on an unmapped range -/

/-- The first `n` pages from `start` have been mapped, with pages that were free in
`s`. -/
structure Grown (D : Domain) (r start n flags : Nat) (s : VmmState) (L : List Nat)
    (s' : VmmState) : Prop where
  leaf : ∀ k < n, ∃ p ∈ freeSet s.pmm L,
    look s'.mem r (vaPath (start + k * pageSize)) = some (p ||| makePteFlags flags)
  only : OnlyPages D r {σ | ∃ k < n, σ = vaPath (start + k * pageSize)} s s'
  pages : PagesKept D r s s'
  kept : DataKept D ∅ s s'

section Loop

variable {D : Domain} {s : VmmState} {L : List Nat} {r start stop flags : Nat}

/-- The pages of a range in the lower half are different. -/
theorem vaPath_range_inj {j k : Nat} (hj : start + j * pageSize < 2 ^ 47)
    (hk : start + k * pageSize < 2 ^ 47)
    (h : vaPath (start + j * pageSize) = vaPath (start + k * pageSize)) : j = k := by
  have hvpn := vaPath_inj h
  simp only [pageSize] at *
  omega

theorem Grown.zero : Grown D r start 0 flags s L s where
  leaf := fun k hk => absurd hk (by omega)
  only := fun _ _ _ _ _ => rfl
  pages := PagesKept.refl D r s
  kept := DataKept.refl s

/-- The data pages of `s` are data pages of what grew from it. -/
theorem Grown.data_subset {n : Nat} {s' : VmmState} (h : Grown D r start n flags s L s')
    (hfree : ∀ k < n, look s.mem r (vaPath (start + k * pageSize)) = none) {p : Nat}
    (hp : p ∈ data D s.mem ∅) : p ∈ data D s'.mem ∅ := by
  rcases hp with hp | ⟨r', σ, e, hσ, hfour, he, rfl⟩
  · exact hp.elim
  · refine Or.inr ⟨r', σ, e, hσ, hfour, ?_, rfl⟩
    rw [h.only r' σ hσ hfour, he]
    rintro rfl ⟨k, hk, rfl⟩
    rw [hfree k hk] at he
    cases he

/-- One more turn. -/
theorem Grown.succ {n : Nat} {s' s'' : VmmState} {p : Nat}
    (hpos : ∀ k ≤ n, Pos D r (vaPath (start + k * pageSize)))
    (hlt : start + n * pageSize < 2 ^ 47) (h : Grown D r start n flags s L s')
    (hfree : ∀ k < n, look s.mem r (vaPath (start + k * pageSize)) = none)
    (hp : p ∈ freeSet s.pmm L)
    (hlaw : LeafLaw D r (vaPath (start + n * pageSize)) (some (p ||| makePteFlags flags)) s' s'')
    (hpages : PagesKept D r s' s'') (hdata : DataKept D ∅ s' s'') :
    Grown D r start (n + 1) flags s L s'' where
  leaf := by
    intro k hk
    rw [hlaw r _ (hpos k (by omega)) rfl]
    by_cases hkn : k = n
    · subst hkn
      exact ⟨p, hp, if_pos ⟨rfl, rfl⟩⟩
    · have hklt : start + k * pageSize < 2 ^ 47 :=
        lt_of_le_of_lt (Nat.add_le_add_left (Nat.mul_le_mul_right _ (by omega)) _) hlt
      obtain ⟨q, hq, hleaf⟩ := h.leaf k (by omega)
      refine ⟨q, hq, ?_⟩
      rw [if_neg, hleaf]
      rintro ⟨-, heq⟩
      exact hkn (vaPath_range_inj hklt hlt heq)
  only := by
    intro r' σ hσ hlen hnot
    rw [hlaw r' σ hσ hlen, if_neg]
    · exact h.only r' σ hσ hlen fun hr ⟨k, hk, heq⟩ => hnot hr ⟨k, by omega, heq⟩
    · rintro ⟨hr, heq⟩
      exact hnot hr ⟨n, by omega, heq⟩
  pages := h.pages.trans hpages
  kept := fun w hw => by
    rw [hdata w (h.data_subset hfree hw), h.kept w hw]

/-- The page a turn takes was free when the loop began. -/
theorem Grown.mem_freeSet {n : Nat} {s' : VmmState} {L' : List Nat} (hinv : VmmInv D s' L' ∅)
    (h : Grown D r start n flags s L s') (hregion : region D s' L' ∅ r = region D s L ∅ r)
    {p : Nat} (hp : p ∈ freeSet s'.pmm L') : p ∈ freeSet s.pmm L := by
  have hin : p ∈ region D s L ∅ r := by
    rw [← hregion]
    exact Or.inl (Or.inl hp)
  rcases hin with (hfree | htree) | hheld
  · exact hfree
  · obtain ⟨π, e, hπ, he, rfl⟩ := h.pages.tree htree
    exact absurd hp (hinv.not_free hπ he)
  · exact hheld.elim

theorem mapZeroed_pagesKept (h : VmmInv D s L ∅) (hr : s.cr3 ∈ D.user ∨ s.cr3 = D.kernel) {v : Nat}
    (hmod : v % pageSize = 0) (hv : idxPml4 v ∈ D.slotsOf s.cr3)
    (hnone : look s.mem s.cr3 (vaPath v) = none) {s' : VmmState}
    (heq : mapZeroed s v flags = (true, s')) : PagesKept D s.cr3 s s' := by
  rcases mapZeroed_cases h hr hmod hv flags with
    ⟨hbad, -⟩ | ⟨p, s1, L1, hin, hmem, hc1, ⟨s2, L2, -, hbad, -⟩ |
      ⟨s2, L2, hmap, heq', hc2, hlaw, hpage⟩⟩
  · rw [heq] at hbad
    cases hbad
  · rw [heq] at hbad
    cases hbad
  · rw [heq] at heq'
    cases heq'
    have hnone1 : look s1.mem s.cr3 (vaPath v) = none := by
      rw [hmem]
      exact hnone
    have hk := hc1.inv.mapPageInto_pagesKept hr hv (Set.mem_insert p ∅) flags hnone1
    rw [hmap] at hk
    have hpos := pos_vaPath hr hv
    have hleaf := hlaw _ _ hpos rfl
    rw [if_pos ⟨rfl, rfl⟩] at hleaf
    obtain ⟨-, hlook⟩ := zeroMapped hc2.inv hpos rfl hleaf
    rw [hpage] at hlook
    intro π e hπ he
    obtain ⟨e', he', hpe⟩ := hk π e hπ (by rw [hmem]; exact he)
    exact ⟨e', (hlook _ π hπ).trans he', hpe⟩

/-- The loop on a range of the lower half where nothing is mapped. -/
theorem mapZeroedRange_fresh (flags : Nat) (h : VmmInv D s L ∅) (hr : s.cr3 ∈ D.user)
    (hmod : start % pageSize = 0) (hstop : stop ≤ 2 ^ 47)
    (hfree : ∀ v, start ≤ v → v < stop → look s.mem s.cr3 (vaPath v) = none) :
    (∃ s' L', mapZeroedRange s start stop flags = (false, s') ∧
        Change D s.cr3 s L ∅ s' L' ∅ ∧ SameLeaves D s s') ∨
      ∃ s' L', mapZeroedRange s start stop flags = (true, s') ∧
        Change D s.cr3 s L ∅ s' L' ∅ ∧
        Grown D s.cr3 start ((stop - start + (pageSize - 1)) / pageSize) flags s L s' := by
  set n := (stop - start + (pageSize - 1)) / pageSize with hn
  have hin : ∀ k < n, start + k * pageSize < stop := by
    intro k hk
    simp only [hn, pageSize] at *
    omega
  have hpos : ∀ k < n, Pos D s.cr3 (vaPath (start + k * pageSize)) := by
    intro k hk
    have hlt := hin k hk
    refine pos_vaPath (Or.inl hr) (user_slot hr ?_)
    simp only [idxPml4]
    omega
  have hunmapped : ∀ k < n, look s.mem s.cr3 (vaPath (start + k * pageSize)) = none :=
    fun k hk => hfree _ (by omega) (hin k hk)
  -- on exit after turn `k` the pages of the turns before it are still mapped
  have hloop := forUpTo_inv (fun k s => mapZeroed s (start + k * pageSize) flags) n s
    (fun k s' => ∃ L', Change D s.cr3 s L ∅ s' L' ∅ ∧ Grown D s.cr3 start k flags s L s')
    (fun k s' => ∃ L', Change D s.cr3 s L ∅ s' L' ∅ ∧
      OnlyPages D s.cr3 {σ | ∃ j < k, σ = vaPath (start + j * pageSize)} s s')
    ⟨L, Change.refl h, Grown.zero⟩
    (by
      rintro k s1 hk ⟨L1, hc1, hg⟩
      have hcr : s1.cr3 = s.cr3 := hc1.cr3
      have hkmod : (start + k * pageSize) % pageSize = 0 := by
        simp only [pageSize] at *
        omega
      have hslot : idxPml4 (start + k * pageSize) ∈ D.slotsOf s1.cr3 := by
        rw [hcr]
        exact (hpos k hk).2.2.2 _ (by simp [vaPath])
      have hr1 : s1.cr3 ∈ D.user ∨ s1.cr3 = D.kernel := by
        rw [hcr]
        exact Or.inl hr
      have hnone : look s1.mem s1.cr3 (vaPath (start + k * pageSize)) = none := by
        rw [hcr, hg.only _ _ (hpos k hk) rfl, hunmapped k hk]
        rintro - ⟨j, hj, heq⟩
        have hjk := vaPath_range_inj (by have := hin k hk; omega)
          (by have := hin j (by omega); omega) heq
        omega
      have hkept := mapZeroed_dataKept hc1.inv hr1 hkmod hslot flags
      rcases mapZeroed_spec hc1.inv hr1 hkmod hslot flags with
        ⟨s2, L2, heq, hc2, hsame⟩ | ⟨s2, L2, p, heq, hp, hc2, hlaw, -⟩
      · rw [hcr] at hc2
        refine Or.inr ⟨congrArg Prod.fst heq, L2, ?_, ?_⟩
        · rw [heq]
          exact hc1.trans hc2
        · rw [heq]
          exact hg.only.trans (hsame.only _ _)
      · have hpages := mapZeroed_pagesKept hc1.inv hr1 hkmod hslot hnone heq
        rw [frameAt_none hnone, Set.union_empty] at hc2
        rw [hcr] at hc2 hlaw hpages
        rw [heq] at hkept
        have hlt : start + k * pageSize < 2 ^ 47 := by
          have := hin k hk
          omega
        refine Or.inl ⟨congrArg Prod.fst heq, L2, ?_, ?_⟩
        · rw [heq]
          exact hc1.trans hc2
        · rw [heq]
          exact hg.succ (fun j hj => hpos j (by omega)) hlt (fun j hj => hunmapped j (by omega))
            (hg.mem_freeSet hc1.inv hc1.region hp) hlaw hpages hkept)
  unfold mapZeroedRange
  rw [← hn]
  rcases hf : forUpTo (fun k s => mapZeroed s (start + k * pageSize) flags) n s with ⟨o, s1⟩
  rw [hf] at hloop
  rcases hloop with ⟨ho, L1, hc1, hg⟩ | ⟨k, hk, ho, L1, hc1, honly⟩
  · obtain rfl : o = none := ho
    exact Or.inr ⟨s1, L1, rfl, hc1, hg⟩
  · obtain rfl : o = some k := ho
    left
    have hcr : s1.cr3 = s.cr3 := hc1.cr3
    have hpages : rangePages start (k * pageSize) = k := by
      have hkn := hin k hk
      simp only [rangePages, alignUp, alignDown, u64, pageSize] at *
      omega
    have haddr : ∀ j < k, rangePage start j = start + j * pageSize := by
      intro j hj
      have hjn := hin j (by omega)
      simp only [rangePage, u64, alignDown, pageSize] at *
      omega
    obtain ⟨s2, L2, heq, hc2, hcl, hzero⟩ := hc1.inv.unmapRange (by rw [hcr]; exact Or.inl hr)
      start (k * pageSize) (by
        rw [hpages, hcr]
        intro j hj
        rw [haddr j hj]
        exact (hpos j (by omega)).2.2.2 _ (by simp [vaPath]))
    rw [hcr] at hc2 hcl
    refine ⟨s2, L2, by simp [heq], hc1.trans hc2, fun r' σ hσ hlen => ?_⟩
    by_cases hk0 : k = 0
    · subst hk0
      rw [hzero (Nat.zero_mul _)]
      refine honly r' σ hσ hlen ?_
      rintro - ⟨j, hj, -⟩
      omega
    · have hcl := hcl (by simp only [pageSize]; omega)
      rw [hpages] at hcl
      by_cases hmem : r' = s.cr3 ∧ ∃ j < k, σ = vaPath (start + j * pageSize)
      · obtain ⟨rfl, j, hj, rfl⟩ := hmem
        rw [← haddr j hj, hcl.none j hj, haddr j hj, hunmapped j (by omega)]
      · rw [hcl.same r' σ hσ hlen, honly r' σ hσ hlen]
        · exact fun hrr hin' => hmem ⟨hrr, hin'⟩
        · rintro hrr j hj rfl
          exact hmem ⟨hrr, j, hj, by rw [haddr j hj]⟩

end Loop

/-! ### The system calls -/

/-- The pages a call wants to add, with their flags. -/
structure Request where
  start : Nat
  stop : Nat
  flags : Nat
  deriving DecidableEq

/-- What a call asks for, if its arguments are those of a growing call. -/
def MemCall.request (u : UserVm) : MemCall → Option Request
  | .brk newBrk =>
      if newBrk.toNat ≠ 0 ∧ alignUp newBrk.toNat < userTop ∧ pageSize ≤ alignUp newBrk.toNat ∧
          u.brk < alignUp newBrk.toNat then
        some ⟨u.brk, alignUp newBrk.toNat, vmmUser ||| vmmWrite ||| vmmNx⟩
      else none
  | .mmap hint length prot =>
      if alignUp length.toNat ≠ 0 ∧ alignUp length.toNat ≤ 256 * 1024 * 1024 ∧
          u64 (mmapVa u hint.toNat + alignUp length.toNat) < userStackBase then
        some ⟨mmapVa u hint.toNat, mmapVa u hint.toNat + alignUp length.toNat,
          mmapFlags prot.toNat⟩
      else none
  | .munmap _ _ => none

/-- The value with which a growing call reports failure. -/
def MemCall.refusal (u : UserVm) : MemCall → Nat
  | .brk _ => u.brk
  | _ => minusOne

/-- Every page map translates every address as before. -/
def SameTranslation (D : Domain) (s s' : VmmState) : Prop :=
  ∀ r, r ∈ D.user ∨ r = D.kernel → ∀ v, Canonical v →
    hwTranslate s'.mem r v = hwTranslate s.mem r v

/-- A page that was free is free, or it has become a table. -/
def FramesBack (D : Domain) (s s' : VmmState) : Prop :=
  ∀ p ∈ freePhys s.pmm, p ∈ freePhys s'.pmm ∨
    ∃ r π e, Pos D r π ∧ π.length < 4 ∧ look s'.mem r π = some e ∧ p = ptePage e

/-- Every page of the range is mapped to a free page of its own with the flags that
were asked for, and everything else is translated as before. -/
structure AllMapped (D : Domain) (s s' : VmmState) (q : Request) : Prop where
  mapped : ∀ v, q.start ≤ v → v < q.stop → ∃ p ∈ freePhys s.pmm,
    hwTranslate s'.mem s.cr3 v = some (1, p ||| makePteFlags q.flags) ∧
      ptePage (p ||| makePteFlags q.flags) = p
  distinct : ∀ v v' e e', q.start ≤ v → v < q.stop → q.start ≤ v' → v' < q.stop →
    v / pageSize ≠ v' / pageSize → hwTranslate s'.mem s.cr3 v = some (1, e) →
    hwTranslate s'.mem s.cr3 v' = some (1, e') → ptePage e ≠ ptePage e'
  others : ∀ r, r ∈ D.user ∨ r = D.kernel → ∀ v, Canonical v →
    (r = s.cr3 → ¬ (q.start ≤ v ∧ v < q.stop)) →
    hwTranslate s'.mem r v = hwTranslate s.mem r v

section Calls

variable {D : Domain} {s s' : VmmState} {L L' : List Nat}

/-- A change that touches only pages below `FIFI_USER_TOP` of the running process
leaves all other translations alone. -/
theorem translation_of_only (hrun : s.cr3 ∈ D.user) (h : VmmInv D s L ∅) (hk : KernelApart D s L)
    {H' : Set Nat} (hc : Change D s.cr3 s L ∅ s' L' H') {V : Set (List Nat)}
    (honly : OnlyPages D s.cr3 V s s') (hV : vaPath userTop ∉ V) {r : Nat}
    (hr : r ∈ D.user ∨ r = D.kernel) {v : Nat} (hv : Canonical v)
    (hout : r = s.cr3 → v < userTop → vaPath v ∉ V) :
    hwTranslate s'.mem r v = hwTranslate s.mem r v := by
  obtain ⟨hupper, hother⟩ := isolated_of_only hrun h hk hc honly hV
  by_cases hrr : r = s.cr3
  · subst hrr
    by_cases hlow : v < userTop
    · have hslot : idxPml4 v ∈ D.slotsOf s.cr3 := by
        refine user_slot hrun ?_
        simp only [userTop, idxPml4] at *
        omega
      rw [hc.inv.hwTranslate (Or.inl hrun) hslot, h.hwTranslate (Or.inl hrun) hslot,
        honly _ _ (pos_vaPath (Or.inl hrun) hslot) rfl fun _ => hout rfl hlow]
    · exact hupper v (by omega) hv
  · exact hother r hr hrr v

/-- Pages that were free are free or tables when no leaf has changed. -/
theorem framesBack_of_change (h : VmmInv D s L ∅) (hc : Change D s.cr3 s L ∅ s' L' ∅)
    (hsame : SameLeaves D s s') : FramesBack D s s' := by
  intro p hp
  rw [freePhys_eq h.pmm] at hp
  rw [freePhys_eq hc.inv.pmm]
  have hin : p ∈ region D s' L' ∅ s.cr3 := by
    rw [hc.region]
    exact Or.inl (Or.inl hp)
  rcases hin with (hfree | ⟨π, e, hπ, he, rfl⟩) | hheld
  · exact Or.inl hfree
  · refine Or.inr ⟨s.cr3, π, e, hπ, ?_, he, rfl⟩
    by_contra hlen
    have hfour : π.length = 4 := le_antisymm hπ.2.1 (by omega)
    exact h.not_free hπ ((hsame _ π hπ hfour).symm.trans he) hp
  · exact hheld.elim

/-- The whole loop, as the process and the allocator see it. -/
theorem mapZeroedRange_allOrNothing (hwf : WellFormed D s) (flags : Nat) {start stop : Nat}
    (hmod : start % pageSize = 0) (hmod' : stop % pageSize = 0) (hstop : stop < userTop)
    (hfree : ∀ v, start ≤ v → v < stop → hwTranslate s.mem s.cr3 v = none) :
    ((mapZeroedRange s start stop flags).1 = false ∧
        SameTranslation D s (mapZeroedRange s start stop flags).2 ∧
        FramesBack D s (mapZeroedRange s start stop flags).2) ∨
      ((mapZeroedRange s start stop flags).1 = true ∧
        AllMapped D s (mapZeroedRange s start stop flags).2 ⟨start, stop, flags⟩) := by
  obtain ⟨hrun, L, h, hk⟩ := hwf
  have hslot : ∀ v, v < stop → idxPml4 v ∈ D.slotsOf s.cr3 := by
    intro v hv
    refine user_slot hrun ?_
    simp only [userTop, idxPml4] at *
    omega
  have hnone : ∀ v, start ≤ v → v < stop → look s.mem s.cr3 (vaPath v) = none := by
    intro v hlo hhi
    have htr := hfree v hlo hhi
    rwa [h.hwTranslate (Or.inl hrun) (hslot v hhi), Option.map_eq_none_iff] at htr
  have htop : userTop ≤ 2 ^ 47 := by decide
  rcases mapZeroedRange_fresh flags h hrun hmod (by omega) hnone with
    ⟨s', L', heq, hc, hsame⟩ | ⟨s', L', heq, hc, hg⟩
  · rw [heq]
    refine Or.inl ⟨rfl, fun r hr v hv => ?_, framesBack_of_change h hc hsame⟩
    exact translation_of_only hrun h hk hc (hsame.only _ ∅) (Set.notMem_empty _) hr hv
      fun _ _ => Set.notMem_empty _
  · rw [heq]
    -- the page of an address of the range is one of those the loop visits
    have hpage : ∀ v, start ≤ v → v < stop → ∃ k < (stop - start + (pageSize - 1)) / pageSize,
        vaPath v = vaPath (start + k * pageSize) := by
      intro v hlo hhi
      refine ⟨(v - start) / pageSize, ?_, vaPath_congr ?_⟩
      · simp only [pageSize] at *
        omega
      · simp only [pageSize] at *
        omega
    refine Or.inr ⟨rfl, ?_, ?_, ?_⟩
    · intro v hlo hhi
      obtain ⟨k, hkn, hpath⟩ := hpage v hlo hhi
      obtain ⟨p, hp, hleaf⟩ := hg.leaf k hkn
      rw [freePhys_eq h.pmm]
      refine ⟨p, hp, ?_, ?_⟩
      · rw [hc.inv.hwTranslate (Or.inl hrun) (hslot v hhi), hpath, hleaf]
        rfl
      · have hspec := (leaf_spec p flags).2
        rwa [ptePage_of_page (h.pmm.mod_of_mem_freeSet hp) (h.lt_of_free hp)] at hspec
    · intro v v' e e' _ hhi _ hhi' hne he he' hpp
      rw [hc.inv.hwTranslate (Or.inl hrun) (hslot v hhi), Option.map_eq_some_iff] at he
      rw [hc.inv.hwTranslate (Or.inl hrun) (hslot v' hhi'), Option.map_eq_some_iff] at he'
      obtain ⟨a, ha, hae⟩ := he
      obtain ⟨b, hb, hbe⟩ := he'
      cases hae
      cases hbe
      have hsame := (hc.inv.apart _ _ _ _ _ _ (pos_vaPath (Or.inl hrun) (hslot v hhi))
        (pos_vaPath (Or.inl hrun) (hslot v' hhi')) ha hb hpp).2
      have hvpn := vaPath_inj hsame
      simp only [userTop, pageSize] at *
      omega
    · intro r hr v hv hout
      refine translation_of_only hrun h hk hc hg.only ?_ hr hv ?_
      · rintro ⟨k, hkn, hbad⟩
        have hvpn := vaPath_inj hbad
        simp only [userTop, pageSize] at *
        omega
      · rintro hrr hlow ⟨k, hkn, hbad⟩
        have hvpn := vaPath_inj hbad
        refine hout hrr ?_
        simp only [userTop, pageSize] at *
        omega

end Calls

theorem mmapVa_le {u : UserVm} (hu : u.mmapNext ≤ userStackBase) (hint : Nat) :
    mmapVa u hint ≤ userStackBase := by
  unfold mmapVa
  split
  · next h => exact h.2.2.2.le
  · split
    · decide
    · exact hu

/-- The cursor for anonymous mappings stays below the stack. -/
theorem memCall_mmapNext_le (s : VmmState) {u : UserVm} (hu : u.mmapNext ≤ userStackBase)
    (call : MemCall) : (memCall s u call).2.2.mmapNext ≤ userStackBase := by
  cases call with
  | brk newBrk =>
      simp only [memCall, sysBrk]
      split_ifs
      · exact hu
      · exact hu
      · split <;> exact hu
      · exact hu
      · exact hu
  | mmap hint length prot =>
      simp only [memCall, sysMmap]
      split_ifs with hlen hfit
      · exact hu
      · exact hu
      · split
        · exact (Nat.lt_of_not_le hfit).le
        · exact hu
  | munmap addr length => exact hu

/-- A growing call on a range where nothing is mapped does all of its work or none
of it, however many pages are free. -/
theorem memCall_allOrNothing {D : Domain} {s : VmmState} (hwf : WellFormed D s) {u : UserVm}
    (hu : u.mmapNext ≤ userStackBase) (call : MemCall) {q : Request}
    (hreq : call.request u = some q)
    (hfree : ∀ v, q.start ≤ v → v < q.stop → hwTranslate s.mem s.cr3 v = none) :
    ((memCall s u call).1 = call.refusal u →
        (memCall s u call).2.2.brk = u.brk ∧ (memCall s u call).2.2.mmapNext = u.mmapNext ∧
        SameTranslation D s (memCall s u call).2.1 ∧ FramesBack D s (memCall s u call).2.1) ∧
      ((memCall s u call).1 ≠ call.refusal u → AllMapped D s (memCall s u call).2.1 q) := by
  cases call with
  | brk newBrk =>
      simp only [MemCall.request] at hreq
      split at hreq
      · next hok =>
          obtain ⟨hne, htop, hpage, hgrow⟩ := hok
          cases hreq
          have hall := mapZeroedRange_allOrNothing hwf (vmmUser ||| vmmWrite ||| vmmNx)
            u.brk_page (alignUp_mod newBrk.toNat) htop hfree
          simp only [memCall, sysBrk, MemCall.refusal]
          rw [if_neg hne, if_neg (by omega), if_pos hgrow]
          rcases hm : mapZeroedRange s u.brk (alignUp newBrk.toNat)
            (vmmUser ||| vmmWrite ||| vmmNx) with ⟨b, s'⟩
          rw [hm] at hall
          rcases hall with ⟨hb, hsame, hback⟩ | ⟨hb, hall⟩
          · obtain rfl : b = false := hb
            exact ⟨fun _ => ⟨rfl, rfl, hsame, hback⟩, fun hbad => absurd rfl hbad⟩
          · obtain rfl : b = true := hb
            refine ⟨fun heq => ?_, fun _ => hall⟩
            simp only at heq
            omega
      · cases hreq
  | mmap hint length prot =>
      simp only [MemCall.request] at hreq
      split at hreq
      · next hok =>
          obtain ⟨hlen, hmax, hfit⟩ := hok
          cases hreq
          have hstack : userStackBase < userTop ∧ userStackBase + 256 * 1024 * 1024 < 2 ^ 64 - 1 :=
            by decide
          have hva := mmapVa_le hu hint.toNat
          have hsum : u64 (mmapVa u hint.toNat + alignUp length.toNat) =
              mmapVa u hint.toNat + alignUp length.toNat := Nat.mod_eq_of_lt (by omega)
          have hmod := u64_add_mod (mmapVa_mod u hint.toNat) (alignUp_mod length.toNat)
          have hall := mapZeroedRange_allOrNothing hwf (mmapFlags prot.toNat)
            (mmapVa_mod u hint.toNat) hmod (by omega) (by rwa [hsum])
          have hrefuse : ¬ (alignUp length.toNat = 0 ∨ alignUp length.toNat > 256 * 1024 * 1024) := by
            omega
          simp only [memCall, sysMmap, MemCall.refusal]
          rw [if_neg hrefuse, if_neg (Nat.not_le.2 hfit)]
          rcases hm : mapZeroedRange s (mmapVa u hint.toNat)
            (u64 (mmapVa u hint.toNat + alignUp length.toNat)) (mmapFlags prot.toNat) with ⟨b, s'⟩
          rw [hm] at hall
          rcases hall with ⟨hb, hsame, hback⟩ | ⟨hb, hall⟩
          · obtain rfl : b = false := hb
            exact ⟨fun _ => ⟨rfl, rfl, hsame, hback⟩, fun hbad => absurd rfl hbad⟩
          · obtain rfl : b = true := hb
            have hne : mmapVa u hint.toNat ≠ minusOne := by
              unfold minusOne
              omega
            rw [hsum] at hall
            exact ⟨fun heq => absurd heq hne, fun _ => hall⟩
      · cases hreq
  | munmap addr length => cases hreq

/-- Nothing is mapped outside the page of `v` in the machine with one page. -/
theorem hwTranslate_oneState {v v' : Nat} (hv' : v' < 2 ^ 47) (hne : vaPath v' ≠ vaPath v) :
    hwTranslate (oneState v).mem (pageAt 1) v' = none := by
  have hslot : idxPml4 v' ∈ oneDomain.slotsOf (pageAt 1) := by
    refine user_slot rfl ?_
    simp only [idxPml4]
    omega
  have hpos := pos_vaPath (Or.inl rfl) hslot
  rw [(oneDomain_inv v).hwTranslate (Or.inl rfl) hslot, Option.map_eq_none_iff]
  refine Option.eq_none_iff_forall_ne_some.2 fun e he => hne ?_
  exact ((look_oneMem hpos.2.1 hpos.2.2.1).1 he).1

/-- With no free page `SYS_MMAP` reports failure and changes no translation. -/
theorem mmap_no_memory :
    (memCall (oneState 0x400000) freshVm (.mmap 0 4096 3)).1 = minusOne ∧
      SameTranslation oneDomain (oneState 0x400000)
        (memCall (oneState 0x400000) freshVm (.mmap 0 4096 3)).2.1 := by
  have hval : (memCall (oneState 0x400000) freshVm (.mmap 0 4096 3)).1 = minusOne := by
    decide
  refine ⟨hval, ?_⟩
  have hfree : ∀ v, 0x600000000000 ≤ v → v < 0x600000001000 →
      hwTranslate (oneState 0x400000).mem (oneState 0x400000).cr3 v = none := by
    intro v hlo hhi
    refine hwTranslate_oneState (by omega) fun heq => ?_
    have hvpn := vaPath_inj heq
    simp only [pageSize] at hvpn
    omega
  have hreq : (MemCall.mmap 0 4096 3).request freshVm =
      some ⟨0x600000000000, 0x600000001000, mmapFlags 3⟩ := by decide
  exact ((memCall_allOrNothing (oneState_wellFormed 0x400000) (u := freshVm) (by decide)
    (.mmap 0 4096 3) hreq hfree).1 hval).2.2.1

end FiFi.Syscall
