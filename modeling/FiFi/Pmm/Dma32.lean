import FiFi.Pmm.Partition

/-!
# Pages for 32-bit DMA

`pmm_alloc_dma32_page` answers from the main zone when that zone lies below
4 GiB, and from a cursor of its own otherwise. The second case is sound only if
the two zones have no page in common. They are chosen by independent scans, and
a usable region that straddles 4 GiB can win both of them.

`ZonesApart` is the condition on the memory map, and it is exact: with it every
run keeps DMA pages apart from the main allocator, and without it some run
hands one page out twice.
-/

namespace FiFi.Pmm

open StateMachine LinkedList

/-- The main zone ends at or below 4 GiB, or it shares no page with the DMA
zone. -/
def ZonesApart (mm : Memmap) : Prop :=
  ∀ entries, mm = some entries → ∀ m d, FirstLongest mainPart entries m →
    FirstLongest dmaPart entries d →
    m.start + m.len ≤ dma32Limit ∨
      Disjoint (pages m.start (m.start + m.len)) (pages d.start (d.start + d.len))

/-- Every page held for DMA lies below 4 GiB, is not held through the main
allocator, and is not what the main allocator would hand out next. -/
def DmaSafe (σ : PmmRun) : Prop :=
  ∀ a ∈ σ.dmaHeld, a + pageSize ≤ dma32Limit ∧ a ∉ σ.held ∧ a ≠ (pmmAllocPage σ.pmm).1 ∧
    ∀ count, count * pageSize < 2 ^ 63 → (pmmAllocPages σ.pmm count).1 ≠ 0 →
      a ∉ runPages (pmmAllocPages σ.pmm count).1 count

/-- The inductive invariant. Either DMA requests are answered by the main
allocator, or what is left of the DMA zone is apart from all other pages. -/
structure DmaInv (σ : PmmRun) (L : List Nat) : Prop where
  inv : PmmInv σ.pmm L
  held : ∀ a ∈ σ.held, a % pageSize = 0 ∧ minPhys ≤ a ∧ a < σ.pmm.cursor ∧ a ∉ L
  dma : ∀ a ∈ σ.dmaHeld, a % pageSize = 0 ∧ minPhys ≤ a ∧ a + pageSize ≤ dma32Limit ∧
    a ∉ freeSet σ.pmm L ∧ a ∉ σ.held
  zone : σ.pmm.stop ≤ dma32Limit ∨
    ((σ.pmm.dma32Cursor ≠ 0 → minPhys ≤ σ.pmm.dma32Cursor ∧
        σ.pmm.dma32Cursor % pageSize = 0 ∧ σ.pmm.dma32Cursor ≤ σ.pmm.dma32Stop ∧
        σ.pmm.dma32Stop ≤ dma32Limit) ∧
      ∀ a ∈ pages σ.pmm.dma32Cursor σ.pmm.dma32Stop, σ.pmm.dma32Cursor ≠ 0 →
        a ∉ freeSet σ.pmm L ∧ a ∉ σ.held ∧ a ∉ σ.dmaHeld)

theorem DmaInv.safe {σ : PmmRun} {L : List Nat} (h : DmaInv σ L) : DmaSafe σ := by
  intro a ha
  obtain ⟨hmod, hmin, hlim, hfree, hheld⟩ := h.dma a ha
  refine ⟨hlim, hheld, ?_, ?_⟩
  · rintro rfl
    rcases h.inv.alloc with ⟨heq, -⟩ | ⟨-, hmem, -⟩
    · simp [heq, minPhys] at hmin
    · exact hfree hmem
  · intro count hbytes hne
    rcases h.inv.allocPages hbytes with heq | ⟨-, hp, hroom, -⟩
    · rw [heq] at hne
      exact absurd rfl hne
    · rw [hp]
      rintro ⟨k, hk, rfl⟩
      have hkb : (k + 1) * pageSize ≤ count * pageSize := Nat.mul_le_mul_right _ hk
      refine hfree (Or.inr ⟨hmod, by omega, ?_⟩)
      simp only [pageSize] at *
      omega

/-! ### Steps -/

theorem pmmAllocPage_dma32 (s : PmmState) :
    (pmmAllocPage s).2.dma32Cursor = s.dma32Cursor ∧
      (pmmAllocPage s).2.dma32Stop = s.dma32Stop ∧ s.cursor ≤ (pmmAllocPage s).2.cursor ∨
      2 ^ 64 ≤ s.cursor + pageSize := by
  by_cases hbig : 2 ^ 64 ≤ s.cursor + pageSize
  · exact Or.inr hbig
  · left
    have hu : u64 (s.cursor + pageSize) = s.cursor + pageSize := by
      simp only [u64]
      omega
    unfold pmmAllocPage
    rw [hu]
    split
    · exact ⟨rfl, rfl, le_rfl⟩
    · split
      · exact ⟨rfl, rfl, le_rfl⟩
      · split
        · exact ⟨rfl, rfl, le_rfl⟩
        · exact ⟨rfl, rfl, by simp⟩

/-- What one allocation from the main zone does to the pages the invariant
speaks of. -/
theorem DmaInv.alloc {σ : PmmRun} {L : List Nat} (h : DmaInv σ L) :
    pmmAllocPage σ.pmm = (0, σ.pmm) ∨
      ∃ p L', (pmmAllocPage σ.pmm).1 = p ∧ p ≠ 0 ∧ p ∈ freeSet σ.pmm L ∧
        PmmInv (pmmAllocPage σ.pmm).2 L' ∧
        freeSet (pmmAllocPage σ.pmm).2 L' = freeSet σ.pmm L \ {p} ∧
        σ.pmm.cursor ≤ (pmmAllocPage σ.pmm).2.cursor ∧ p < (pmmAllocPage σ.pmm).2.cursor ∧
        (pmmAllocPage σ.pmm).2.dma32Cursor = σ.pmm.dma32Cursor ∧
        (pmmAllocPage σ.pmm).2.dma32Stop = σ.pmm.dma32Stop := by
  have hle := h.inv.cursor_le
  have hstop := h.inv.stop_le
  rcases h.inv.alloc with ⟨heq, -⟩ | ⟨hne, hmem, L', hinv, hfree⟩
  · exact Or.inl heq
  · rcases pmmAllocPage_dma32 σ.pmm with ⟨hc, hs, hcur⟩ | hbig
    · refine Or.inr ⟨_, L', rfl, hne, hmem, hinv, hfree, hcur, ?_, hc, hs⟩
      -- a page at or above the new cursor would still be free
      by_contra hge
      have hmod := h.inv.mod_of_mem_freeSet hmem
      have hend := h.inv.lt_of_mem_freeSet hmem
      have hstill : (pmmAllocPage σ.pmm).1 ∈ freeSet (pmmAllocPage σ.pmm).2 L' :=
        Or.inr ⟨hmod, by omega, by rw [pmmAllocPage_stop]; exact hend⟩
      rw [hfree] at hstill
      exact hstill.2 rfl
    · simp only [pageSize] at *
      omega

theorem not_mem_of_mem_freeSet {σ : PmmRun} {L : List Nat} (h : DmaInv σ L) {a : Nat}
    (ha : a ∈ freeSet σ.pmm L) : a ∉ σ.held := by
  intro hheld
  obtain ⟨-, -, hlt, hnot⟩ := h.held a hheld
  rcases ha with hL | hp
  · exact hnot hL
  · have := hp.2.1
    omega

theorem DmaInv.allocPage {σ : PmmRun} {L : List Nat} (h : DmaInv σ L) :
    ∃ L', DmaInv (pmmStep σ .allocPage) L' := by
  rcases h.alloc with heq | ⟨p, L', hp, hne, hmem, hinv, hfree, hcur, hlt, hc, hs⟩
  · exact ⟨L, by simpa [pmmStep, heq] using h⟩
  · have hpz : p ∉ freeSet (pmmAllocPage σ.pmm).2 L' := by simp [hfree]
    have hsub : ∀ a, a ∉ freeSet σ.pmm L → a ∉ freeSet (pmmAllocPage σ.pmm).2 L' := by
      intro a ha hin
      rw [hfree] at hin
      exact ha hin.1
    refine ⟨L', hinv, ?_, ?_, ?_⟩
    · intro a ha
      simp only [pmmStep, hp, if_pos hne, Set.mem_insert_iff] at ha ⊢
      rcases ha with rfl | ha
      · exact ⟨h.inv.mod_of_mem_freeSet hmem, h.inv.minPhys_le_of_mem hmem, hlt,
          fun hL => hpz (Or.inl hL)⟩
      · obtain ⟨hmod, hmin, halt, -⟩ := h.held a ha
        refine ⟨hmod, hmin, by omega, fun hL => ?_⟩
        have hin : a ∈ freeSet σ.pmm L := by
          have : a ∈ freeSet (pmmAllocPage σ.pmm).2 L' := Or.inl hL
          rw [hfree] at this
          exact this.1
        exact not_mem_of_mem_freeSet h hin ha
    · intro a ha
      obtain ⟨hmod, hmin, hlim, hnf, hnh⟩ := h.dma a ha
      simp only [pmmStep, hp, if_pos hne, Set.mem_insert_iff, not_or]
      exact ⟨hmod, hmin, hlim, hsub a hnf, fun hap => hnf (hap ▸ hmem), hnh⟩
    · simp only [pmmStep, hp, if_pos hne, Set.mem_insert_iff, not_or, pmmAllocPage_stop, hc, hs]
      refine h.zone.imp_right fun hz => ⟨hz.1, fun a ha h0 => ?_⟩
      obtain ⟨hnf, hnh, hnd⟩ := hz.2 a ha h0
      exact ⟨hsub a hnf, ⟨fun hap => hnf (hap ▸ hmem), hnh⟩, hnd⟩

theorem DmaInv.allocPages {σ : PmmRun} {L : List Nat} (h : DmaInv σ L) {count : Nat}
    (hbytes : count * pageSize < 2 ^ 63) : DmaInv (pmmStep σ (.allocPages count)) L := by
  rcases h.inv.allocPages hbytes with heq | ⟨hpos, hp, hroom, hinv, hcur, hst⟩
  · simpa [pmmStep, heq] using h
  · have hmin := h.inv.minPhys_le
    have hcm := h.inv.cursor_mod
    have hne : σ.pmm.cursor ≠ 0 := by
      simp only [minPhys] at hmin
      omega
    have hd : (pmmAllocPages σ.pmm count).2.dma32Cursor = σ.pmm.dma32Cursor ∧
        (pmmAllocPages σ.pmm count).2.dma32Stop = σ.pmm.dma32Stop := by
      unfold pmmAllocPages
      dsimp only
      split_ifs <;> exact ⟨rfl, rfl⟩
    have hrun : ∀ a ∈ runPages σ.pmm.cursor count, a % pageSize = 0 ∧ σ.pmm.cursor ≤ a ∧
        a + pageSize ≤ σ.pmm.cursor + count * pageSize := by
      rintro a ⟨k, hk, rfl⟩
      have hkb : (k + 1) * pageSize ≤ count * pageSize := Nat.mul_le_mul_right _ hk
      simp only [pageSize] at *
      omega
    have hrunfree : ∀ a ∈ runPages σ.pmm.cursor count, a ∈ freeSet σ.pmm L := by
      intro a ha
      obtain ⟨hmod, hle, hend⟩ := hrun a ha
      exact Or.inr ⟨hmod, hle, by omega⟩
    have hsub : ∀ a, a ∉ freeSet σ.pmm L → a ∉ freeSet (pmmAllocPages σ.pmm count).2 L := by
      rintro a ha (hL | ⟨hmod, hle, hend⟩)
      · exact ha (Or.inl hL)
      · rw [hcur] at hle
        rw [hst] at hend
        exact ha (Or.inr ⟨hmod, by omega, hend⟩)
    refine ⟨hinv, ?_, ?_, ?_⟩
    · intro a ha
      simp only [pmmStep, hp, if_pos hne, hcur] at ha ⊢
      rcases ha with ha | ha
      · obtain ⟨hmod, hmina, halt, hnot⟩ := h.held a ha
        exact ⟨hmod, hmina, by omega, hnot⟩
      · obtain ⟨hmod, hle, hend⟩ := hrun a ha
        refine ⟨hmod, by omega, by simp only [pageSize] at *; omega, fun hL => ?_⟩
        have := (h.inv.listed a hL).2.2
        omega
    · intro a ha
      obtain ⟨hmod, hmina, hlim, hnf, hnh⟩ := h.dma a ha
      simp only [pmmStep, hp, if_pos hne]
      refine ⟨hmod, hmina, hlim, hsub a hnf, ?_⟩
      rintro (hin | hin)
      · exact hnh hin
      · exact hnf (hrunfree a hin)
    · simp only [pmmStep, hp, if_pos hne, hst, hd.1, hd.2]
      refine h.zone.imp_right fun hz => ⟨hz.1, fun a ha h0 => ?_⟩
      obtain ⟨hnf, hnh, hnd⟩ := hz.2 a ha h0
      refine ⟨hsub a hnf, ?_, hnd⟩
      rintro (hin | hin)
      · exact hnh hin
      · exact hnf (hrunfree a hin)

/-- Freeing a held page of either kind. A page below the cursor goes to the free
list, any other page is dropped. -/
theorem DmaInv.freePage {σ : PmmRun} {L : List Nat} (h : DmaInv σ L) {p : Nat}
    (hp : p ∈ σ.held ∪ σ.dmaHeld) : ∃ L', DmaInv (pmmStep σ (.freePage p)) L' := by
  have hpage : p % pageSize = 0 ∧ minPhys ≤ p ∧ p ∉ L := by
    rcases hp with hp | hp
    · obtain ⟨hmod, hmin, -, hnot⟩ := h.held p hp
      exact ⟨hmod, hmin, hnot⟩
    · obtain ⟨hmod, hmin, -, hnf, -⟩ := h.dma p hp
      exact ⟨hmod, hmin, fun hL => hnf (Or.inl hL)⟩
  obtain ⟨hmod, hmin, hnot⟩ := hpage
  by_cases hlt : p < σ.pmm.cursor
  · obtain ⟨hinv, heq⟩ := h.inv.free hmod hmin hlt hnot
    have hfs : freeSet (pmmFreePage σ.pmm p) (p :: L) = insert p (freeSet σ.pmm L) :=
      freeSet_free L (by rw [heq]) (by rw [heq])
    refine ⟨p :: L, hinv, ?_, ?_, ?_⟩
    · rintro a ⟨ha, hap⟩
      obtain ⟨hm, hmi, hl, hn⟩ := h.held a ha
      simp only [pmmStep, heq]
      exact ⟨hm, hmi, hl, by simpa [hn] using hap⟩
    · rintro a ⟨ha, hap⟩
      obtain ⟨hm, hmi, hlim, hnf, hnh⟩ := h.dma a ha
      refine ⟨hm, hmi, hlim, ?_, fun hin => hnh hin.1⟩
      simp only [pmmStep, hfs]
      rintro (rfl | hin)
      · exact hap rfl
      · exact hnf hin
    · simp only [pmmStep, hfs]
      rw [heq]
      refine h.zone.imp_right fun hz => ⟨hz.1, fun a ha h0 => ?_⟩
      obtain ⟨hnf, hnh, hnd⟩ := hz.2 a ha h0
      refine ⟨?_, fun hin => hnh hin.1, fun hin => hnd hin.1⟩
      rintro (rfl | hin)
      · exact hp.elim hnh hnd
      · exact hnf hin
  · have heq : pmmFreePage σ.pmm p = σ.pmm := by
      simp only [minPhys] at hmin
      unfold pmmFreePage
      rw [if_neg (by omega), if_neg h.inv.hhdm_ne]
      simp only [alignDown_of_mod hmod, minPhys]
      rw [if_neg (by omega), if_neg (by have := h.inv.minPhys_le; simp only [minPhys] at this; omega),
        if_pos (by omega)]
    refine ⟨L, ?_, ?_, ?_, ?_⟩
    · simpa only [pmmStep, heq] using h.inv
    · rintro a ⟨ha, -⟩
      simpa only [pmmStep, heq] using h.held a ha
    · rintro a ⟨ha, -⟩
      obtain ⟨hm, hmi, hlim, hnf, hnh⟩ := h.dma a ha
      simp only [pmmStep, heq]
      exact ⟨hm, hmi, hlim, hnf, fun hin => hnh hin.1⟩
    · simp only [pmmStep, heq]
      refine h.zone.imp_right fun hz => ⟨hz.1, fun a ha h0 => ?_⟩
      obtain ⟨hnf, hnh, hnd⟩ := hz.2 a ha h0
      exact ⟨hnf, fun hin => hnh hin.1, fun hin => hnd hin.1⟩

theorem DmaInv.allocDma32Page {σ : PmmRun} {L : List Nat} (h : DmaInv σ L) :
    ∃ L', DmaInv (pmmStep σ .allocDma32Page) L' := by
  by_cases hlow : σ.pmm.stop ≤ dma32Limit
  · have hdma : pmmAllocDma32Page σ.pmm = pmmAllocPage σ.pmm := if_pos hlow
    rcases h.alloc with heq | ⟨p, L', hp, hne, hmem, hinv, hfree, hcur, -, -, -⟩
    · exact ⟨L, by simpa [pmmStep, hdma, heq] using h⟩
    · refine ⟨L', by simpa only [pmmStep, hdma] using hinv, ?_, ?_, ?_⟩
      · intro a ha
        obtain ⟨hmod, hmin, halt, -⟩ := h.held a ha
        simp only [pmmStep, hdma]
        refine ⟨hmod, hmin, by omega, fun hL => ?_⟩
        have hin : a ∈ freeSet (pmmAllocPage σ.pmm).2 L' := Or.inl hL
        rw [hfree] at hin
        exact not_mem_of_mem_freeSet h hin.1 ha
      · intro a ha
        simp only [pmmStep, hdma, hp, if_pos hne, Set.mem_insert_iff] at ha ⊢
        rw [hfree]
        rcases ha with rfl | ha
        · have hend := h.inv.lt_of_mem_freeSet hmem
          exact ⟨h.inv.mod_of_mem_freeSet hmem, h.inv.minPhys_le_of_mem hmem, by omega,
            fun hin => hin.2 rfl, not_mem_of_mem_freeSet h hmem⟩
        · obtain ⟨hmod, hmin, hlim, hnf, hnh⟩ := h.dma a ha
          exact ⟨hmod, hmin, hlim, fun hin => hnf hin.1, hnh⟩
      · simp only [pmmStep, hdma, pmmAllocPage_stop]
        exact Or.inl hlow
  · obtain ⟨hz, hapart⟩ := h.zone.resolve_left hlow
    by_cases h0 : σ.pmm.dma32Cursor = 0
    · have heq : pmmAllocDma32Page σ.pmm = (0, σ.pmm) := by
        simp [pmmAllocDma32Page, hlow, h0]
      exact ⟨L, by simpa [pmmStep, heq] using h⟩
    · obtain ⟨hcmin, hcmod, hcle, hstop⟩ := hz h0
      by_cases hroom : σ.pmm.dma32Cursor + pageSize ≤ σ.pmm.dma32Stop
      · have hu : u64 (σ.pmm.dma32Cursor + pageSize) = σ.pmm.dma32Cursor + pageSize := by
          simp only [u64, dma32Limit] at *
          omega
        have heq : pmmAllocDma32Page σ.pmm =
            (σ.pmm.dma32Cursor,
              { σ.pmm with dma32Cursor := σ.pmm.dma32Cursor + pageSize }) := by
          unfold pmmAllocDma32Page
          rw [if_neg hlow, if_neg h0, hu, if_neg (by omega)]
        have hin : σ.pmm.dma32Cursor ∈ pages σ.pmm.dma32Cursor σ.pmm.dma32Stop :=
          ⟨hcmod, le_rfl, hroom⟩
        obtain ⟨hnf, hnh, hnd⟩ := hapart _ hin h0
        refine ⟨L, ?_, ?_, ?_, Or.inr ⟨?_, ?_⟩⟩
        · simp only [pmmStep, heq]
          exact ⟨h.inv.chain, h.inv.nodup, h.inv.listed, h.inv.cursor_mod, h.inv.minPhys_le,
            h.inv.cursor_le, h.inv.stop_le, h.inv.hhdm_ne, h.inv.count⟩
        · intro a ha
          simpa only [pmmStep, heq] using h.held a ha
        · intro a ha
          simp only [pmmStep, heq, if_pos (show σ.pmm.dma32Cursor ≠ 0 from h0),
            Set.mem_insert_iff] at ha ⊢
          rcases ha with rfl | ha
          · exact ⟨hcmod, hcmin, by omega, hnf, hnh⟩
          · exact h.dma a ha
        · simp only [pmmStep, heq]
          intro _
          refine ⟨by omega, ?_, hroom, hstop⟩
          simp only [pageSize] at *
          omega
        · simp only [pmmStep, heq, if_pos (show σ.pmm.dma32Cursor ≠ 0 from h0)]
          rintro a ⟨hmod, hge, hend⟩ -
          have hold : a ∈ pages σ.pmm.dma32Cursor σ.pmm.dma32Stop := ⟨hmod, by omega, hend⟩
          obtain ⟨hnf', hnh', hnd'⟩ := hapart a hold h0
          refine ⟨hnf', hnh', ?_⟩
          rintro (rfl | hin')
          · simp only [pageSize] at hge
            omega
          · exact hnd' hin'
      · have hu : u64 (σ.pmm.dma32Cursor + pageSize) = σ.pmm.dma32Cursor + pageSize := by
          simp only [u64, pageSize, dma32Limit] at *
          omega
        have heq : pmmAllocDma32Page σ.pmm = (0, σ.pmm) := by
          unfold pmmAllocDma32Page
          rw [if_neg hlow, if_neg h0, if_pos (by omega)]
        exact ⟨L, by simpa [pmmStep, heq] using h⟩

theorem DmaInv.store {σ : PmmRun} {L : List Nat} (h : DmaInv σ L) {addr value : Nat}
    (hL : alignDown addr ∉ L) : DmaInv (pmmStep σ (.store addr value)) L := by
  have hlinks : ∀ p ∈ L, Function.update σ.pmm.mem addr value p = σ.pmm.mem p := by
    intro p hp
    refine Function.update_of_ne ?_ _ _
    rintro rfl
    rw [alignDown_of_mod (h.inv.listed p hp).1] at hL
    exact hL hp
  exact ⟨h.inv.congr_mem hlinks, h.held, h.dma, h.zone⟩

theorem DmaInv.step {σ : PmmRun} {L : List Nat} (h : DmaInv σ L) {op : PmmOp}
    (hop : Admissible σ op) : ∃ L', DmaInv (pmmStep σ op) L' := by
  cases op with
  | allocPage => exact h.allocPage
  | allocPages count => exact ⟨L, h.allocPages hop⟩
  | freePage p => exact h.freePage hop
  | allocDma32Page => exact h.allocDma32Page
  | store addr value => exact ⟨L, h.store (hop L h.inv.chain)⟩

/-! ### Runs -/

theorem InitOk.dmaInv {entries : List (Option MemmapEntry)} {m : Zone} {s : PmmState}
    (h : InitOk entries m s) (hapart : ZonesApart (some entries)) :
    DmaInv ⟨s, ∅, ∅⟩ [] := by
  refine ⟨h.inv, by simp, by simp, ?_⟩
  rcases h.dma with ⟨-, h0⟩ | ⟨d, hd, hc, hs⟩
  · exact Or.inr ⟨fun hne => absurd h0 hne, fun a _ hne => absurd h0 hne⟩
  · rcases hapart entries rfl m d h.main hd with hlow | hdisj
    · exact Or.inl (by simpa only [h.stop] using hlow)
    · obtain ⟨e, -, hz⟩ := hd.exists_part
      obtain ⟨hmod, hmin, hlen, hlim⟩ := dmaPart_pos hz
      refine Or.inr ⟨fun _ => ?_, fun a ha _ => ?_⟩
      · rw [hc, hs]
        exact ⟨hmin, hmod, by omega, hlim⟩
      · rw [hc, hs] at ha
        refine ⟨?_, by simp, by simp⟩
        rintro (hL | hin)
        · simp at hL
        · rw [h.cursor, h.stop] at hin
          exact Set.disjoint_left.1 hdisj hin ha

/-- Taking `n` DMA pages one after the other, while the zone lasts. -/
theorem run_allocDma32 {s : PmmState} (hhigh : ¬ s.stop ≤ dma32Limit)
    (hlim : s.dma32Stop ≤ dma32Limit) (hpos : s.dma32Cursor ≠ 0) (n : Nat) (D : Set Nat)
    (hroom : s.dma32Cursor + n * pageSize ≤ s.dma32Stop) :
    run pmmStep ⟨s, ∅, D⟩ (List.replicate n .allocDma32Page) =
      ⟨{ s with dma32Cursor := s.dma32Cursor + n * pageSize }, ∅,
        D ∪ runPages s.dma32Cursor n⟩ := by
  induction n generalizing s D with
  | zero => simp [runPages]
  | succ n ih =>
      have hmul : (n + 1) * pageSize = n * pageSize + pageSize := by ring
      have hu : u64 (s.dma32Cursor + pageSize) = s.dma32Cursor + pageSize := by
        simp only [u64, dma32Limit] at *
        omega
      have heq : pmmAllocDma32Page s =
          (s.dma32Cursor, { s with dma32Cursor := s.dma32Cursor + pageSize }) := by
        unfold pmmAllocDma32Page
        rw [if_neg hhigh, if_neg hpos, hu, if_neg (by omega)]
      have hstep : pmmStep ⟨s, ∅, D⟩ .allocDma32Page =
          ⟨{ s with dma32Cursor := s.dma32Cursor + pageSize }, ∅, insert s.dma32Cursor D⟩ := by
        simp [pmmStep, heq, hpos]
      rw [List.replicate_succ, run_cons, hstep]
      rw [ih (s := { s with dma32Cursor := s.dma32Cursor + pageSize }) hhigh hlim (by simp; omega)
        (insert s.dma32Cursor D) (by simp only; omega)]
      have hcur : s.dma32Cursor + pageSize + n * pageSize =
          s.dma32Cursor + (n + 1) * pageSize := by omega
      have hset : insert s.dma32Cursor D ∪ runPages (s.dma32Cursor + pageSize) n =
          D ∪ runPages s.dma32Cursor (n + 1) := by
        ext a
        simp only [Set.mem_union, Set.mem_insert_iff, runPages, Set.mem_ofPred_eq]
        constructor
        · rintro ((rfl | hD) | ⟨k, hk, rfl⟩)
          · exact Or.inr ⟨0, by omega, by simp⟩
          · exact Or.inl hD
          · exact Or.inr ⟨k + 1, by omega, by ring⟩
        · rintro (hD | ⟨k, hk, rfl⟩)
          · exact Or.inl (Or.inr hD)
          · cases k with
            | zero => exact Or.inl (Or.inl (by simp))
            | succ k => exact Or.inr ⟨k, by omega, by ring⟩
      simp only [hcur, hset]

/-- When the zones overlap and the main zone reaches above 4 GiB, a page of the
overlap is first taken for DMA and then as part of a run of the main zone. -/
theorem InitOk.overlap {entries : List (Option MemmapEntry)} {m : Zone} {s : PmmState}
    (h : InitOk entries m s) (hstop : s.stop ≤ 2 ^ 63) {d : Zone}
    (hd : FirstLongest dmaPart entries d) (hhigh : ¬ m.start + m.len ≤ dma32Limit) {a : Nat}
    (ham : a ∈ pages m.start (m.start + m.len)) (had : a ∈ pages d.start (d.start + d.len)) :
    ∃ ops, AllSteps pmmStep Admissible ⟨s, ∅, ∅⟩ ops ∧
      a ∈ (run pmmStep ⟨s, ∅, ∅⟩ ops).dmaHeld ∧ a ∈ (run pmmStep ⟨s, ∅, ∅⟩ ops).held := by
  obtain ⟨d', hd', hc, hs⟩ := h.dma.resolve_left fun hno => hd.not_noPart hno.1
  obtain rfl := hd'.unique hd
  obtain ⟨e, -, hz⟩ := hd.exists_part
  obtain ⟨hdmod, hdmin, -, hdlim⟩ := dmaPart_pos hz
  obtain ⟨hmod, hma, hme⟩ := ham
  obtain ⟨-, hda, hde⟩ := had
  have hcm := h.inv.cursor_mod
  have hcmin := h.inv.minPhys_le
  rw [h.stop] at hstop
  rw [h.cursor] at hcm hcmin
  set k := (a - d'.start) / pageSize with hk
  set j := (a - m.start) / pageSize with hj
  have hak : a = d'.start + k * pageSize := by
    simp only [pageSize] at *
    omega
  have haj : a = m.start + j * pageSize := by
    simp only [pageSize] at *
    omega
  have hkmul : (k + 1) * pageSize = k * pageSize + pageSize := by ring
  have hjmul : (j + 1) * pageSize = j * pageSize + pageSize := by ring
  have hrun := run_allocDma32 (s := s) (by rwa [h.stop]) (by rwa [hs])
    (by rw [hc]; simp only [minPhys] at hdmin; omega) (k + 1) ∅ (by rw [hc, hs]; omega)
  have hjbytes : (j + 1) * pageSize < 2 ^ 63 := by
    simp only [pageSize, minPhys] at *
    omega
  refine ⟨List.replicate (k + 1) .allocDma32Page ++ [.allocPages (j + 1)], ?_, ?_, ?_⟩
  · rw [allSteps_append]
    refine ⟨?_, hjbytes, trivial⟩
    generalize (⟨s, ∅, ∅⟩ : PmmRun) = σ
    generalize k + 1 = n
    induction n generalizing σ with
    | zero => trivial
    | succ n ih => exact ⟨trivial, ih _⟩
  · rw [run_append, hrun]
    right
    exact ⟨k, by omega, by rw [hc]; exact hak⟩
  · rw [run_append, hrun]
    have hu : u64 ((j + 1) * pageSize) = (j + 1) * pageSize := by
      simp only [u64]
      omega
    have hu' : u64 (m.start + (j + 1) * pageSize) = m.start + (j + 1) * pageSize := by
      simp only [u64]
      omega
    have hne : m.start ≠ 0 := by
      simp only [minPhys] at hcmin
      omega
    have hroom : ¬ m.start + m.len < m.start + (j + 1) * pageSize := by omega
    simp only [run_cons, run_nil, pmmStep, pmmAllocPages, h.cursor, h.stop, hu, hu', hroom, hne,
      Nat.add_one_ne_zero, if_false, ne_eq, not_false_eq_true, if_true]
    right
    exact ⟨j, by omega, haj⟩

/-- DMA pages stay apart from the main allocator in every run, exactly for the
memory maps whose zones are apart. The usable entries of the map are assumed to
end at or below `2 ^ 63`. -/
theorem dmaSafe_iff_zonesApart {mm : Memmap} (hmm : EndsBelow (2 ^ 63) mm) {hhdm : Nat}
    (hh : hhdm ≠ 0) (mem : Nat → Nat) :
    (∀ ops, AllSteps pmmStep Admissible (PmmRun.start mm hhdm mem) ops →
        DmaSafe (run pmmStep (PmmRun.start mm hhdm mem) ops)) ↔ ZonesApart mm := by
  constructor
  · intro hsafe
    rintro entries rfl m d hm hd
    by_contra hnot
    rw [not_or, Set.not_disjoint_iff] at hnot
    obtain ⟨hhigh, a, ham, had⟩ := hnot
    rcases pmmInit_spec hmm hh mem with ⟨-, hno⟩ | ⟨entries', m', hent, hok⟩
    · exact hm.not_noPart (hno entries rfl)
    · obtain rfl := Option.some.inj hent
      obtain rfl := hok.main.unique hm
      obtain ⟨ops, hops, hdma, hheld⟩ := hok.overlap hok.inv.stop_le hd hhigh ham had
      exact (hsafe ops hops a hdma).2.1 hheld
  · intro hapart ops hops
    rcases pmmInit_spec hmm hh mem with ⟨hfail, -⟩ | ⟨entries, m, rfl, hok⟩
    · have hrun : FailedInv (run pmmStep (PmmRun.start mm hhdm mem) ops) :=
        inv_run FailedInv (fun _ _ hs hop => hs.step hop) ⟨hfail, rfl, rfl⟩ hops
      intro a ha
      rw [hrun.dma] at ha
      exact absurd ha (Set.notMem_empty a)
    · have hrun : ∃ L, DmaInv (run pmmStep (PmmRun.start (some entries) hhdm mem) ops) L := by
        refine inv_run (fun σ => ∃ L, DmaInv σ L) ?_ ⟨[], hok.dmaInv hapart⟩ hops
        rintro σ op ⟨L, hL⟩ hop
        exact hL.step hop
      obtain ⟨L, hL⟩ := hrun
      exact hL.safe

/-- A machine with 64 MiB has its main zone below 4 GiB. -/
theorem dmaSafe_iff_zonesApart_64M :
    ZonesApart memmap64M ∧
      ∀ ops, AllSteps pmmStep Admissible (PmmRun.start memmap64M 1 fun _ => 0) ops →
        DmaSafe (run pmmStep (PmmRun.start memmap64M 1 fun _ => 0) ops) := by
  have hmm : EndsBelow (2 ^ 63) memmap64M := by
    rintro entries ⟨rfl⟩ e he -
    obtain rfl : e = ⟨0, 0x4000000, 0⟩ := by simpa using he
    decide
  have hapart : ZonesApart memmap64M := by
    rintro entries ⟨rfl⟩ m d hm -
    obtain ⟨e, he, hz⟩ := hm.exists_part
    obtain rfl : e = ⟨0, 0x4000000, 0⟩ := by simpa using he
    obtain rfl : (⟨0x1000000, 0x3000000⟩ : Zone) = m := by
      have hpart : mainPart ⟨0, 0x4000000, 0⟩ = some ⟨0x1000000, 0x3000000⟩ := by decide
      exact Option.some.inj (hpart.symm.trans hz)
    exact Or.inl (by decide)
  exact ⟨hapart, (dmaSafe_iff_zonesApart hmm (by decide) fun _ => 0).2 hapart⟩

/-- A map with one usable region, from 0 to 8 GiB. -/
def memmap8G : Memmap := some [some ⟨0, 0x200000000, 0⟩]

/-- On a machine with one 8 GiB region both zones start at 16 MiB, so the first
DMA page is also the first page of the main allocator. -/
theorem dmaSafe_8G_shared :
    ¬ ∀ (mm : Memmap) (hhdm : Nat) (mem : Nat → Nat) (ops : List PmmOp),
      AllSteps pmmStep Admissible (PmmRun.start mm hhdm mem) ops →
      DmaSafe (run pmmStep (PmmRun.start mm hhdm mem) ops) := by
  intro h
  have hops : AllSteps pmmStep Admissible (PmmRun.start memmap8G 1 fun _ => 0)
      [.allocDma32Page, .allocPage] := ⟨trivial, trivial, trivial⟩
  have hsafe := h memmap8G 1 (fun _ => 0) _ hops
  have hdma : 0x1000000 ∈ (run pmmStep (PmmRun.start memmap8G 1 fun _ => 0)
      [.allocDma32Page, .allocPage]).dmaHeld := Or.inl (by decide)
  have hheld : 0x1000000 ∈ (run pmmStep (PmmRun.start memmap8G 1 fun _ => 0)
      [.allocDma32Page, .allocPage]).held := Or.inl (by decide)
  exact (hsafe _ hdma).2.1 hheld

end FiFi.Pmm
