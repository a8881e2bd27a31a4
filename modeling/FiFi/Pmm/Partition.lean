import FiFi.Library.StateMachine
import FiFi.Pmm.Zones
import Mathlib.Order.CompletePartialOrder

/-!
# Who holds which page

A run of the allocator is its state together with two ghost sets: the pages
that were handed out by the main allocator and not given back, and those handed
out for 32-bit DMA. A page is given back only by its holder, and a page on the
free list is not written by its former owner; these are the admissible
operations.

The main result is that the pages held, the pages on the free list and the
whole pages from the cursor on divide the region chosen at boot.
-/

namespace FiFi.Pmm

open StateMachine LinkedList

/-- The allocator with its holders. -/
structure PmmRun where
  pmm : PmmState
  held : Set Nat
  dmaHeld : Set Nat

/-- Calls of the allocator, and stores to physical memory by anybody. -/
inductive PmmOp
  | allocPage
  | allocPages (count : Nat)
  | freePage (phys : Nat)
  | allocDma32Page
  | store (addr value : Nat)

/-- The page addresses of the run of `count` pages at `p`. -/
def runPages (p count : Nat) : Set Nat := {a | ∃ k < count, a = p + k * pageSize}

def pmmStep (σ : PmmRun) : PmmOp → PmmRun
  | .allocPage =>
      let r := pmmAllocPage σ.pmm
      { σ with pmm := r.2, held := if r.1 ≠ 0 then insert r.1 σ.held else σ.held }
  | .allocPages count =>
      let r := pmmAllocPages σ.pmm count
      { σ with pmm := r.2, held := if r.1 ≠ 0 then σ.held ∪ runPages r.1 count else σ.held }
  | .freePage phys =>
      { pmm := pmmFreePage σ.pmm phys
        held := σ.held \ {phys}
        dmaHeld := σ.dmaHeld \ {phys} }
  | .allocDma32Page =>
      let r := pmmAllocDma32Page σ.pmm
      { σ with pmm := r.2, dmaHeld := if r.1 ≠ 0 then insert r.1 σ.dmaHeld else σ.dmaHeld }
  | .store addr value =>
      { σ with pmm := { σ.pmm with mem := Function.update σ.pmm.mem addr value } }

/-- Right after `pmm_init` nobody holds a page. -/
def PmmRun.start (mm : Memmap) (hhdm : Nat) (mem : Nat → Nat) : PmmRun where
  pmm := pmmInit mm hhdm (PmmState.boot mem)
  held := ∅
  dmaHeld := ∅

/-- The rules the callers follow: a request is below `2 ^ 63` bytes, a page is
freed only while it is held, and a page on the free list is not written. -/
def Admissible (σ : PmmRun) : PmmOp → Prop
  | .allocPages count => count * pageSize < 2 ^ 63
  | .freePage phys => phys ∈ σ.held ∪ σ.dmaHeld
  | .store addr _ => ∀ L, Chain σ.pmm.mem 0 σ.pmm.freeList L → alignDown addr ∉ L
  | _ => True

/-- The admissible operations of the main allocator alone. -/
def MainOp (σ : PmmRun) (op : PmmOp) : Prop := Admissible σ op ∧ op ≠ .allocDma32Page

/-- The pages held, the free list and the untouched range divide the pages of
`[lo, hi)`, and the counter is the number of free pages. -/
def Partition (lo hi : Nat) (σ : PmmRun) : Prop :=
  ∃ L : List Nat, Chain σ.pmm.mem 0 σ.pmm.freeList L ∧ L.Nodup ∧
    Disjoint σ.held {a | a ∈ L} ∧
    Disjoint σ.held (pages σ.pmm.cursor σ.pmm.stop) ∧
    Disjoint {a | a ∈ L} (pages σ.pmm.cursor σ.pmm.stop) ∧
    σ.held ∪ {a | a ∈ L} ∪ pages σ.pmm.cursor σ.pmm.stop = pages lo hi ∧
    σ.pmm.freePages = L.length + (σ.pmm.stop - σ.pmm.cursor) / pageSize

/-- No request can be answered with a page that is held. -/
def HandsOutFresh (σ : PmmRun) : Prop :=
  ((pmmAllocPage σ.pmm).1 ≠ 0 → (pmmAllocPage σ.pmm).1 ∉ σ.held) ∧
    ∀ count, count * pageSize < 2 ^ 63 → (pmmAllocPages σ.pmm count).1 ≠ 0 →
      Disjoint (runPages (pmmAllocPages σ.pmm count).1 count) σ.held

/-- The inductive invariant: the allocator invariant holds, and the pages held
are those of the region below the cursor that are not on the free list. -/
structure MainInv (lo hi : Nat) (σ : PmmRun) (L : List Nat) : Prop where
  inv : PmmInv σ.pmm L
  lo_min : minPhys ≤ lo
  lo_le : lo ≤ σ.pmm.cursor
  stop : σ.pmm.stop = hi
  listed : ∀ p ∈ L, lo ≤ p
  held : ∀ a, a ∈ σ.held ↔ a % pageSize = 0 ∧ lo ≤ a ∧ a < σ.pmm.cursor ∧ a ∉ L
  dma : σ.dmaHeld = ∅

/-- The state in which `pmm_init` found nothing is stuck. -/
structure FailedInv (σ : PmmRun) : Prop where
  init : InitFailed σ.pmm
  held : σ.held = ∅
  dma : σ.dmaHeld = ∅

theorem MainInv.partition {lo hi : Nat} {σ : PmmRun} {L : List Nat} (h : MainInv lo hi σ L) :
    Partition lo hi σ := by
  refine ⟨L, h.inv.chain, h.inv.nodup, ?_, ?_, ?_, ?_, h.inv.count⟩
  · rw [Set.disjoint_left]
    exact fun a ha hL => ((h.held a).1 ha).2.2.2 hL
  · rw [Set.disjoint_left]
    intro a ha hp
    have := ((h.held a).1 ha).2.2.1
    have := hp.2.1
    omega
  · rw [Set.disjoint_left]
    intro a hL hp
    have := (h.inv.listed a hL).2.2
    have := hp.2.1
    omega
  · have hlo := h.lo_le
    have hle := h.inv.cursor_le
    have hcm := h.inv.cursor_mod
    have hstop := h.stop
    ext a
    simp only [Set.mem_union, h.held, Set.mem_ofPred_eq, pages]
    constructor
    · rintro ((⟨hmod, hloa, hlt, -⟩ | hL) | ⟨hmod, hca, hend⟩)
      · have := page_le_of_lt hmod hcm hlt
        exact ⟨hmod, hloa, by omega⟩
      · obtain ⟨hmod, -, hlt⟩ := h.inv.listed a hL
        have := page_le_of_lt hmod hcm hlt
        exact ⟨hmod, h.listed a hL, by omega⟩
      · exact ⟨hmod, by omega, by omega⟩
    · rintro ⟨hmod, hloa, hend⟩
      by_cases hlt : a < σ.pmm.cursor
      · by_cases hL : a ∈ L
        · exact Or.inl (Or.inr hL)
        · exact Or.inl (Or.inl ⟨hmod, hloa, hlt, hL⟩)
      · exact Or.inr ⟨hmod, by omega, by omega⟩

theorem MainInv.not_held_of_free {lo hi : Nat} {σ : PmmRun} {L : List Nat}
    (h : MainInv lo hi σ L) {a : Nat} (ha : a ∈ freeSet σ.pmm L) : a ∉ σ.held := by
  intro hheld
  obtain ⟨-, -, hlt, hnot⟩ := (h.held a).1 hheld
  rcases ha with hL | hp
  · exact hnot hL
  · have := hp.2.1
    omega

theorem MainInv.handsOutFresh {lo hi : Nat} {σ : PmmRun} {L : List Nat}
    (h : MainInv lo hi σ L) : HandsOutFresh σ := by
  constructor
  · intro hne
    rcases h.inv.alloc with ⟨heq, -⟩ | ⟨-, hmem, -⟩
    · rw [heq] at hne
      exact absurd rfl hne
    · exact h.not_held_of_free hmem
  · intro count hbytes hne
    rcases h.inv.allocPages hbytes with heq | ⟨-, heq, hroom, -⟩
    · rw [heq] at hne
      exact absurd rfl hne
    · rw [heq, Set.disjoint_left]
      rintro a ⟨k, hk, rfl⟩ hheld
      have := ((h.held _).1 hheld).2.2.1
      omega

/-! ### Steps -/

theorem MainInv.allocPage {lo hi : Nat} {σ : PmmRun} {L : List Nat} (h : MainInv lo hi σ L) :
    ∃ L', MainInv lo hi (pmmStep σ .allocPage) L' := by
  have hlo := h.lo_le
  cases L with
  | cons x L =>
      obtain ⟨hx, hinv, -⟩ := h.inv.alloc_listed
      have hne : x ≠ 0 := h.inv.chain.2.1
      have hcur : (pmmAllocPage σ.pmm).2.cursor = σ.pmm.cursor := by
        unfold pmmAllocPage
        rw [if_pos (by rw [h.inv.chain.1]; exact hne)]
      obtain ⟨hnotin, -⟩ := List.nodup_cons.1 h.inv.nodup
      refine ⟨L, hinv, h.lo_min, ?_, ?_, fun p hp => h.listed p (by simp [hp]), ?_, h.dma⟩
      · simp only [pmmStep, hcur]
        exact hlo
      · simp only [pmmStep, pmmAllocPage_stop]
        exact h.stop
      · intro a
        have hxl := h.inv.listed x (by simp)
        have hxlo := h.listed x (by simp)
        simp only [pmmStep, hx, hcur, if_pos hne, Set.mem_insert_iff, h.held, List.mem_cons,
          not_or]
        constructor
        · rintro (rfl | ⟨hmod, hloa, hlt, hnot⟩)
          · exact ⟨hxl.1, hxlo, hxl.2.2, hnotin⟩
          · exact ⟨hmod, hloa, hlt, hnot.2⟩
        · rintro ⟨hmod, hloa, hlt, hnot⟩
          by_cases hax : a = x
          · exact Or.inl hax
          · exact Or.inr ⟨hmod, hloa, hlt, hax, hnot⟩
  | nil =>
      by_cases hroom : σ.pmm.cursor + pageSize ≤ σ.pmm.stop
      · obtain ⟨hx, hinv, -⟩ := h.inv.alloc_cursor hroom
        have hmin := h.inv.minPhys_le
        have hstop := h.inv.stop_le
        have hcm := h.inv.cursor_mod
        have hne : σ.pmm.cursor ≠ 0 := by
          simp only [minPhys] at hmin
          omega
        have hcur : (pmmAllocPage σ.pmm).2.cursor = σ.pmm.cursor + pageSize := by
          have hlist : σ.pmm.freeList = 0 := h.inv.chain
          have hu : u64 (σ.pmm.cursor + pageSize) = σ.pmm.cursor + pageSize := by
            simp only [u64]
            omega
          unfold pmmAllocPage
          rw [if_neg (by simp [hlist]), if_neg hne, hu, if_neg (by omega)]
        refine ⟨[], hinv, h.lo_min, ?_, ?_, by simp, ?_, h.dma⟩
        · simp only [pmmStep, hcur]
          omega
        · simp only [pmmStep, pmmAllocPage_stop]
          exact h.stop
        · intro a
          simp only [pmmStep, hx, hcur, if_pos hne, Set.mem_insert_iff, h.held, List.not_mem_nil,
            not_false_eq_true, and_true, pageSize] at *
          omega
      · have heq := h.inv.alloc_empty (by omega)
        refine ⟨[], ?_⟩
        simpa [pmmStep, heq] using h

theorem MainInv.allocPages {lo hi : Nat} {σ : PmmRun} {L : List Nat} (h : MainInv lo hi σ L)
    {count : Nat} (hbytes : count * pageSize < 2 ^ 63) :
    MainInv lo hi (pmmStep σ (.allocPages count)) L := by
  have hlo := h.lo_le
  have hmin := h.inv.minPhys_le
  rcases h.inv.allocPages hbytes with heq | ⟨-, hp, hroom, hinv, hcur, hst⟩
  · simpa [pmmStep, heq] using h
  · have hne : σ.pmm.cursor ≠ 0 := by
      simp only [minPhys] at hmin
      omega
    refine ⟨hinv, h.lo_min, ?_, ?_, h.listed, ?_, h.dma⟩
    · simp only [pmmStep, hcur]
      omega
    · simp only [pmmStep, hst]
      exact h.stop
    · intro a
      have hcm := h.inv.cursor_mod
      simp only [pmmStep, hp, hcur, if_pos hne, Set.mem_union, h.held, runPages, Set.mem_ofPred_eq]
      constructor
      · rintro (⟨hmod, hloa, hlt, hnot⟩ | ⟨k, hk, rfl⟩)
        · exact ⟨hmod, hloa, by omega, hnot⟩
        · have hkb : (k + 1) * pageSize ≤ count * pageSize := Nat.mul_le_mul_right _ hk
          simp only [pageSize] at *
          refine ⟨by omega, by omega, by omega, fun hL => ?_⟩
          have := (h.inv.listed _ hL).2.2
          omega
      · rintro ⟨hmod, hloa, hlt, hnot⟩
        by_cases hac : a < σ.pmm.cursor
        · exact Or.inl ⟨hmod, hloa, hac, hnot⟩
        · refine Or.inr ⟨(a - σ.pmm.cursor) / pageSize, ?_, ?_⟩
          · simp only [pageSize] at *
            omega
          · simp only [pageSize] at *
            omega

theorem MainInv.freePage {lo hi : Nat} {σ : PmmRun} {L : List Nat} (h : MainInv lo hi σ L)
    {p : Nat} (hp : p ∈ σ.held) : MainInv lo hi (pmmStep σ (.freePage p)) (p :: L) := by
  obtain ⟨hmod, hlo, hlt, hnot⟩ := (h.held p).1 hp
  obtain ⟨hinv, heq⟩ := h.inv.free hmod (h.lo_min.trans hlo) hlt hnot
  refine ⟨hinv, h.lo_min, ?_, ?_, ?_, ?_, ?_⟩
  · simp only [pmmStep, heq]
    exact h.lo_le
  · simp only [pmmStep, heq]
    exact h.stop
  · intro q hq
    rcases List.mem_cons.1 hq with rfl | hq
    · exact hlo
    · exact h.listed q hq
  · intro a
    simp only [pmmStep, heq, Set.mem_sdiff, Set.mem_singleton_iff, h.held, List.mem_cons, not_or]
    tauto
  · simp [pmmStep, h.dma]

theorem MainInv.store {lo hi : Nat} {σ : PmmRun} {L : List Nat} (h : MainInv lo hi σ L)
    {addr value : Nat} (hL : alignDown addr ∉ L) :
    MainInv lo hi (pmmStep σ (.store addr value)) L := by
  have hlinks : ∀ p ∈ L, Function.update σ.pmm.mem addr value p = σ.pmm.mem p := by
    intro p hp
    refine Function.update_of_ne ?_ _ _
    rintro rfl
    rw [alignDown_of_mod (h.inv.listed p hp).1] at hL
    exact hL hp
  exact ⟨h.inv.congr_mem hlinks, h.lo_min, h.lo_le, h.stop, h.listed, h.held, h.dma⟩

theorem MainInv.step {lo hi : Nat} {σ : PmmRun} {L : List Nat} (h : MainInv lo hi σ L)
    {op : PmmOp} (hop : MainOp σ op) : ∃ L', MainInv lo hi (pmmStep σ op) L' := by
  obtain ⟨hadm, hmain⟩ := hop
  cases op with
  | allocPage => exact h.allocPage
  | allocPages count => exact ⟨L, h.allocPages hadm⟩
  | freePage p =>
      rcases hadm with hp | hp
      · exact ⟨p :: L, h.freePage hp⟩
      · rw [h.dma] at hp
        exact absurd hp (Set.notMem_empty p)
  | allocDma32Page => exact absurd rfl hmain
  | store addr value => exact ⟨L, h.store (hadm L h.inv.chain)⟩

theorem InitFailed.alloc {s : PmmState} (h : InitFailed s) : pmmAllocPage s = (0, s) := by
  simp [pmmAllocPage, h.freeList, h.cursor]

theorem InitFailed.allocPages {s : PmmState} (h : InitFailed s) (count : Nat) :
    pmmAllocPages s count = (0, s) := by
  simp [pmmAllocPages, h.cursor]

theorem FailedInv.step {σ : PmmRun} (h : FailedInv σ) {op : PmmOp} (hop : Admissible σ op) :
    FailedInv (pmmStep σ op) := by
  cases op with
  | allocPage => simpa [pmmStep, h.init.alloc] using h
  | allocPages count => simpa [pmmStep, h.init.allocPages] using h
  | freePage p =>
      rcases hop with hp | hp
      · rw [h.held] at hp
        exact absurd hp (Set.notMem_empty p)
      · rw [h.dma] at hp
        exact absurd hp (Set.notMem_empty p)
  | allocDma32Page =>
      have hstop : σ.pmm.stop ≤ dma32Limit := by simp [h.init.stop]
      simpa [pmmStep, pmmAllocDma32Page, hstop, h.init.alloc] using h
  | store addr value =>
      exact ⟨⟨h.init.cursor, h.init.stop, h.init.freeList, h.init.freePages⟩, h.held, h.dma⟩

theorem FailedInv.partition {σ : PmmRun} (h : FailedInv σ) : Partition 0 0 σ := by
  have hempty : pages 0 0 = ∅ := by
    ext a
    simp [pages, pageSize]
  refine ⟨[], h.init.freeList, List.nodup_nil, ?_⟩
  simp [h.init.cursor, h.init.stop, h.init.freePages, h.held, hempty]

theorem FailedInv.handsOutFresh {σ : PmmRun} (h : FailedInv σ) : HandsOutFresh σ := by
  simp [HandsOutFresh, h.held]

/-! ### Runs -/

theorem start_inv {mm : Memmap} (hmm : EndsBelow (2 ^ 63) mm) {hhdm : Nat} (hh : hhdm ≠ 0)
    (mem : Nat → Nat) :
    FailedInv (PmmRun.start mm hhdm mem) ∨
      MainInv (PmmRun.start mm hhdm mem).pmm.cursor (PmmRun.start mm hhdm mem).pmm.stop
        (PmmRun.start mm hhdm mem) [] := by
  rcases pmmInit_spec hmm hh mem with ⟨hfail, -⟩ | ⟨entries, m, -, hok⟩
  · exact Or.inl ⟨hfail, rfl, rfl⟩
  · refine Or.inr ⟨hok.inv, hok.inv.minPhys_le, le_rfl, rfl, by simp, fun a => ?_, rfl⟩
    simp only [PmmRun.start, Set.mem_empty_iff_false, false_iff]
    omega

/-- From boot on, whatever the callers do by the rules: the pages held, the
free list and the untouched range divide the region chosen at boot, the counter
is right, and no page is handed out while it is held. The usable entries of the
map are assumed to end at or below `2 ^ 63`, which leaves all sums below
`2 ^ 64`. -/
theorem pmm_partition {mm : Memmap} (hmm : EndsBelow (2 ^ 63) mm) {hhdm : Nat} (hh : hhdm ≠ 0)
    (mem : Nat → Nat) {ops : List PmmOp}
    (hops : AllSteps pmmStep MainOp (PmmRun.start mm hhdm mem) ops) :
    Partition (PmmRun.start mm hhdm mem).pmm.cursor (PmmRun.start mm hhdm mem).pmm.stop
        (run pmmStep (PmmRun.start mm hhdm mem) ops) ∧
      HandsOutFresh (run pmmStep (PmmRun.start mm hhdm mem) ops) := by
  rcases start_inv hmm hh mem with hfail | hmain
  · have hrun : FailedInv (run pmmStep (PmmRun.start mm hhdm mem) ops) :=
      inv_run FailedInv (fun _ _ hs hop => hs.step hop.1) hfail hops
    rw [hfail.init.cursor, hfail.init.stop]
    exact ⟨hrun.partition, hrun.handsOutFresh⟩
  · generalize hlo : (PmmRun.start mm hhdm mem).pmm.cursor = lo at hmain
    generalize hhi : (PmmRun.start mm hhdm mem).pmm.stop = hi at hmain
    have hrun : ∃ L, MainInv lo hi (run pmmStep (PmmRun.start mm hhdm mem) ops) L := by
      refine inv_run (fun σ => ∃ L, MainInv lo hi σ L) ?_ ⟨[], hmain⟩ hops
      rintro σ op ⟨L, hL⟩ hop
      exact hL.step hop
    obtain ⟨L, hL⟩ := hrun
    exact ⟨hL.partition, hL.handsOutFresh⟩

/-- A map with one usable region, from 0 to 64 MiB. -/
def memmap64M : Memmap := some [some ⟨0, 0x4000000, 0⟩]

/-- A run on a 64 MiB machine: two pages are taken, then a run of three, and
the first page is given back. -/
theorem pmm_partition_64M :
    AllSteps pmmStep MainOp (PmmRun.start memmap64M 1 fun _ => 0)
        [.allocPage, .allocPage, .allocPages 3, .freePage 0x1000000] ∧
      Partition 0x1000000 0x4000000
        (run pmmStep (PmmRun.start memmap64M 1 fun _ => 0)
          [.allocPage, .allocPage, .allocPages 3, .freePage 0x1000000]) := by
  have hops : AllSteps pmmStep MainOp (PmmRun.start memmap64M 1 fun _ => 0)
      [.allocPage, .allocPage, .allocPages 3, .freePage 0x1000000] := by
    refine ⟨⟨trivial, by simp⟩, ⟨trivial, by simp⟩, ⟨?_, by simp⟩, ⟨?_, by simp⟩, trivial⟩
    · simp [Admissible, pageSize]
    -- the first page handed out is the one at 16 MiB, and it is still held
    · exact Or.inl (Or.inl (Or.inr (Or.inl rfl)))
  have hmm : EndsBelow (2 ^ 63) memmap64M := by
    rintro entries ⟨rfl⟩ e he -
    obtain rfl : e = ⟨0, 0x4000000, 0⟩ := by simpa using he
    decide
  exact ⟨hops, (pmm_partition hmm (by decide) (fun _ => 0) hops).1⟩

/-- A map with one usable region, of 16 MiB just above `2 ^ 63`. -/
def memmapHigh : Memmap := some [some ⟨0x8000000000001000, 0x1000000, 0⟩]

/-- A usable region above `2 ^ 63` breaks the partition: `g_cursor + bytes`
wraps around to zero, and a request far larger than the region is granted. -/
theorem pmm_partition_high_region :
    ¬ ∀ (mm : Memmap) (hhdm : Nat) (mem : Nat → Nat) (ops : List PmmOp), hhdm ≠ 0 →
      AllSteps pmmStep MainOp (PmmRun.start mm hhdm mem) ops →
      Partition (PmmRun.start mm hhdm mem).pmm.cursor (PmmRun.start mm hhdm mem).pmm.stop
        (run pmmStep (PmmRun.start mm hhdm mem) ops) := by
  intro h
  have hops : AllSteps pmmStep MainOp (PmmRun.start memmapHigh 1 fun _ => 0)
      [.allocPages (2 ^ 51 - 1)] := by
    refine ⟨⟨?_, by simp⟩, trivial⟩
    simp [Admissible, pageSize]
  obtain ⟨L, -, -, -, -, -, -, hcount⟩ := h memmapHigh 1 (fun _ => 0) _ (by decide) hops
  generalize hσ : run pmmStep (PmmRun.start memmapHigh 1 fun _ => 0)
    [.allocPages (2 ^ 51 - 1)] = σ at hcount
  have hfree : σ.pmm.freePages = 0 := by
    rw [← hσ]
    decide
  have hpages : 0 < (σ.pmm.stop - σ.pmm.cursor) / pageSize := by
    rw [← hσ]
    decide
  omega

end FiFi.Pmm
