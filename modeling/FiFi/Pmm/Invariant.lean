import FiFi.Pmm.Alloc

/-!
# The allocator invariant

`PmmInv s L` says that the free list of `s` is `L`, that the free pages lie
below the cursor, and that the free-page counter is right. What the allocator
may still hand out is `freeSet s L`, the pages on the list and the whole pages
from the cursor on. Each operation is described once, by what it does to this
set; nothing later unfolds the operations.
-/

namespace FiFi.Pmm

open LinkedList

/-- The page addresses of the whole pages inside `[lo, hi)`. -/
def pages (lo hi : Nat) : Set Nat :=
  {a | a % pageSize = 0 ∧ lo ≤ a ∧ a + pageSize ≤ hi}

/-- What the allocator may still hand out. -/
def freeSet (s : PmmState) (L : List Nat) : Set Nat :=
  {a | a ∈ L} ∪ pages s.cursor s.stop

structure PmmInv (s : PmmState) (L : List Nat) : Prop where
  chain : Chain s.mem 0 s.freeList L
  nodup : L.Nodup
  listed : ∀ p ∈ L, p % pageSize = 0 ∧ minPhys ≤ p ∧ p < s.cursor
  cursor_mod : s.cursor % pageSize = 0
  minPhys_le : minPhys ≤ s.cursor
  cursor_le : s.cursor ≤ s.stop
  stop_le : s.stop ≤ 2 ^ 63
  hhdm_ne : s.hhdm ≠ 0
  count : s.freePages = L.length + (s.stop - s.cursor) / pageSize

theorem alignDown_of_mod {a : Nat} (h : a % pageSize = 0) : alignDown a = a := by
  simp only [alignDown, pageSize] at *
  omega

theorem alignDown_mod (a : Nat) : alignDown a % pageSize = 0 := by
  simp [alignDown]

/-- Page addresses of different pages are a page apart. -/
theorem page_le_of_lt {a b : Nat} (ha : a % pageSize = 0) (hb : b % pageSize = 0) (h : a < b) :
    a + pageSize ≤ b := by
  simp only [pageSize] at *
  omega

theorem mem_freeSet {s : PmmState} {L : List Nat} {a : Nat} :
    a ∈ freeSet s L ↔ a ∈ L ∨ a ∈ pages s.cursor s.stop := Iff.rfl

theorem PmmInv.mod_of_mem_freeSet {s : PmmState} {L : List Nat} (h : PmmInv s L) {a : Nat}
    (ha : a ∈ freeSet s L) : a % pageSize = 0 := by
  rcases ha with hL | hp
  · exact (h.listed a hL).1
  · exact hp.1

theorem PmmInv.minPhys_le_of_mem {s : PmmState} {L : List Nat} (h : PmmInv s L) {a : Nat}
    (ha : a ∈ freeSet s L) : minPhys ≤ a := by
  rcases ha with hL | hp
  · exact (h.listed a hL).2.1
  · exact h.minPhys_le.trans hp.2.1

theorem PmmInv.lt_of_mem_freeSet {s : PmmState} {L : List Nat} (h : PmmInv s L) {a : Nat}
    (ha : a ∈ freeSet s L) : a + pageSize ≤ s.stop := by
  rcases ha with hL | hp
  · obtain ⟨hmod, _, hlt⟩ := h.listed a hL
    exact (page_le_of_lt hmod h.cursor_mod hlt).trans h.cursor_le
  · exact hp.2.2

/-- The free list and the counter depend on the links only, so a write outside
the free pages keeps the invariant. -/
theorem PmmInv.congr_mem {s : PmmState} {L : List Nat} (h : PmmInv s L) {mem' : Nat → Nat}
    (hmem : ∀ p ∈ L, mem' p = s.mem p) : PmmInv { s with mem := mem' } L where
  chain := chain_congr hmem h.chain
  nodup := h.nodup
  listed := h.listed
  cursor_mod := h.cursor_mod
  minPhys_le := h.minPhys_le
  cursor_le := h.cursor_le
  stop_le := h.stop_le
  hhdm_ne := h.hhdm_ne
  count := h.count

/-! ### Taking a page -/

theorem pmmAllocPage_mem (s : PmmState) : (pmmAllocPage s).2.mem = s.mem := by
  unfold pmmAllocPage
  split
  · rfl
  · split
    · rfl
    · split <;> rfl

theorem pmmAllocPage_stop (s : PmmState) : (pmmAllocPage s).2.stop = s.stop := by
  unfold pmmAllocPage
  split
  · rfl
  · split
    · rfl
    · split <;> rfl

/-- With a nonempty free list the head is taken. -/
theorem PmmInv.alloc_listed {s : PmmState} {x : Nat} {L : List Nat} (h : PmmInv s (x :: L)) :
    (pmmAllocPage s).1 = x ∧ PmmInv (pmmAllocPage s).2 L ∧
      freeSet (pmmAllocPage s).2 L = freeSet s (x :: L) \ {x} := by
  obtain ⟨hx, hne, htail⟩ := h.chain
  obtain ⟨hnotin, hnodup⟩ := List.nodup_cons.1 h.nodup
  have hlist : s.freeList ≠ 0 := by rwa [hx]
  have hcount := h.count
  rw [List.length_cons] at hcount
  have heq : pmmAllocPage s =
      (s.freeList, { s with freeList := s.mem s.freeList, freePages := decCount s.freePages }) :=
    if_pos hlist
  rw [heq]
  refine ⟨hx, ⟨?_, hnodup, fun p hp => h.listed p (List.mem_cons_of_mem x hp), h.cursor_mod,
    h.minPhys_le, h.cursor_le, h.stop_le, h.hhdm_ne, ?_⟩, ?_⟩
  · rw [hx]
    exact htail
  · have hpos : s.freePages ≠ 0 := by
      rw [hcount]
      exact Nat.ne_of_gt (by positivity)
    simp only [decCount, if_pos hpos]
    omega
  · ext a
    have hxlt := (h.listed x (by simp)).2.2
    simp only [freeSet, Set.mem_union, Set.mem_ofPred_eq, pages, Set.mem_sdiff,
      Set.mem_singleton_iff, List.mem_cons]
    constructor
    · rintro (hL | hp)
      · exact ⟨Or.inl (Or.inr hL), fun hax => hnotin (hax ▸ hL)⟩
      · exact ⟨Or.inr hp, by omega⟩
    · rintro ⟨(rfl | hL) | hp, hax⟩
      · exact absurd rfl hax
      · exact Or.inl hL
      · exact Or.inr hp

/-- With an empty free list the page at the cursor is taken, if it is whole. -/
theorem PmmInv.alloc_cursor {s : PmmState} (h : PmmInv s [])
    (hroom : s.cursor + pageSize ≤ s.stop) :
    (pmmAllocPage s).1 = s.cursor ∧ PmmInv (pmmAllocPage s).2 [] ∧
      freeSet (pmmAllocPage s).2 [] = freeSet s [] \ {s.cursor} := by
  have hlist : s.freeList = 0 := h.chain
  have hmin := h.minPhys_le
  have hstop := h.stop_le
  have hmod := h.cursor_mod
  have hcount := h.count
  simp only [pageSize, minPhys, List.length_nil] at *
  have hu : u64 (s.cursor + 4096) = s.cursor + 4096 := by
    simp only [u64]
    omega
  have heq : pmmAllocPage s =
      (s.cursor, { s with cursor := s.cursor + 4096, freePages := decCount s.freePages }) := by
    unfold pmmAllocPage
    rw [if_neg (by simp [hlist]), if_neg (by omega), pageSize, if_neg (by omega), hu]
  rw [heq]
  refine ⟨rfl, ⟨hlist, List.nodup_nil, by simp, ?_, ?_, ?_, hstop, h.hhdm_ne, ?_⟩, ?_⟩
  · simp only [pageSize]
    omega
  · simp only [minPhys]
    omega
  · exact hroom
  · have hpos : s.freePages ≠ 0 := by omega
    simp only [decCount, if_pos hpos, pageSize, List.length_nil]
    omega
  · ext a
    simp only [freeSet, Set.mem_union, Set.mem_ofPred_eq, pages, Set.mem_sdiff, pageSize,
      Set.mem_singleton_iff, List.not_mem_nil, false_or]
    omega

/-- With nothing free the allocator reports failure and changes nothing. -/
theorem PmmInv.alloc_empty {s : PmmState} (h : PmmInv s [])
    (hroom : s.stop < s.cursor + pageSize) : pmmAllocPage s = (0, s) := by
  have hlist : s.freeList = 0 := h.chain
  have hmin := h.minPhys_le
  have hstop := h.stop_le
  have hle := h.cursor_le
  simp only [pageSize, minPhys] at *
  have hu : u64 (s.cursor + 4096) = s.cursor + 4096 := by
    simp only [u64]
    omega
  unfold pmmAllocPage
  rw [if_neg (by simp [hlist]), if_neg (by omega), pageSize, if_pos (by omega)]

theorem freeSet_nil_eq_empty {s : PmmState} (hroom : s.stop < s.cursor + pageSize) :
    freeSet s [] = ∅ := by
  ext a
  simp only [freeSet, pages, Set.mem_union, Set.mem_ofPred_eq, List.not_mem_nil, false_or,
    Set.mem_empty_iff_false, iff_false]
  omega

/-- `pmm_alloc_page` in one statement: it fails exactly when nothing is free,
and otherwise it takes one page out of the free set and touches no memory. -/
theorem PmmInv.alloc {s : PmmState} {L : List Nat} (h : PmmInv s L) :
    (pmmAllocPage s = (0, s) ∧ freeSet s L = ∅) ∨
      ((pmmAllocPage s).1 ≠ 0 ∧ (pmmAllocPage s).1 ∈ freeSet s L ∧
        ∃ L', PmmInv (pmmAllocPage s).2 L' ∧
          freeSet (pmmAllocPage s).2 L' = freeSet s L \ {(pmmAllocPage s).1}) := by
  cases L with
  | cons x L =>
      obtain ⟨hx, hinv, hfree⟩ := h.alloc_listed
      refine Or.inr ⟨?_, ?_, L, hinv, ?_⟩
      · rw [hx]
        exact h.chain.2.1
      · rw [hx]
        exact Or.inl (by simp)
      · rw [hfree, hx]
  | nil =>
      by_cases hroom : s.cursor + pageSize ≤ s.stop
      · obtain ⟨hx, hinv, hfree⟩ := h.alloc_cursor hroom
        have hmin := h.minPhys_le
        refine Or.inr ⟨?_, ?_, [], hinv, ?_⟩
        · simp only [hx, minPhys] at *
          omega
        · rw [hx]
          exact Or.inr ⟨h.cursor_mod, le_rfl, hroom⟩
        · rw [hfree, hx]
      · have hlt : s.stop < s.cursor + pageSize := by omega
        exact Or.inl ⟨h.alloc_empty hlt, freeSet_nil_eq_empty hlt⟩

/-! ### Giving a page back -/

/-- Freeing a page address below the cursor that is not free pushes it. The only
word of memory that changes is the first word of the page. -/
theorem PmmInv.free {s : PmmState} {L : List Nat} (h : PmmInv s L) {p : Nat}
    (hmod : p % pageSize = 0) (hmin : minPhys ≤ p) (hlt : p < s.cursor) (hL : p ∉ L) :
    PmmInv (pmmFreePage s p) (p :: L) ∧
      pmmFreePage s p =
        { s with
          mem := Function.update s.mem p s.freeList
          freeList := p
          freePages := s.freePages + 1 } := by
  have hle := h.cursor_le
  have hstop := h.stop_le
  have hcount := h.count
  have hlen : L.length ≤ s.cursor / pageSize := by
    -- the listed pages are distinct multiples of the page size below the cursor
    have hinj : (L.map (· / pageSize)).Nodup := by
      refine (List.nodup_map_iff_inj_on h.nodup).2 fun a ha b hb hab => ?_
      have hma := (h.listed a ha).1
      have hmb := (h.listed b hb).1
      simp only [pageSize] at *
      omega
    have hsub : L.map (· / pageSize) ⊆ List.range (s.cursor / pageSize) := by
      intro q hq
      obtain ⟨a, ha, rfl⟩ := List.mem_map.1 hq
      obtain ⟨hma, _, hlta⟩ := h.listed a ha
      have hmc := h.cursor_mod
      simp only [List.mem_range, pageSize] at *
      omega
    simpa using (List.Nodup.subperm hinj hsub).length_le
  have hcnt : u64 (s.freePages + 1) = s.freePages + 1 := by
    simp only [u64, pageSize] at *
    omega
  have heq : pmmFreePage s p =
      { s with
        mem := Function.update s.mem p s.freeList
        freeList := p
        freePages := s.freePages + 1 } := by
    simp only [minPhys] at hmin
    unfold pmmFreePage
    rw [if_neg (by omega), if_neg h.hhdm_ne]
    simp only [alignDown_of_mod hmod, minPhys]
    rw [if_neg (by omega), if_neg (by omega), if_neg (by omega), hcnt]
  refine ⟨?_, heq⟩
  rw [heq]
  refine ⟨?_, List.nodup_cons.2 ⟨hL, h.nodup⟩, ?_, h.cursor_mod, h.minPhys_le, hle, hstop,
    h.hhdm_ne, ?_⟩
  · refine chain_push h.chain hL ?_
    simp only [minPhys] at hmin
    omega
  · intro q hq
    rcases List.mem_cons.1 hq with rfl | hq
    · exact ⟨hmod, hmin, hlt⟩
    · exact h.listed q hq
  · simp only [List.length_cons]
    omega

theorem freeSet_free {s s' : PmmState} {p : Nat} (L : List Nat) (hcursor : s'.cursor = s.cursor)
    (hstop : s'.stop = s.stop) : freeSet s' (p :: L) = insert p (freeSet s L) := by
  ext a
  simp only [freeSet, hcursor, hstop, Set.mem_union, Set.mem_ofPred_eq, List.mem_cons,
    Set.mem_insert_iff, or_assoc]

/-! ### Taking a run of pages -/

/-- `pmm_alloc_pages` takes whole pages from the cursor on, or nothing. The
request is assumed to be below `2 ^ 63` bytes, so no sum wraps. -/
theorem PmmInv.allocPages {s : PmmState} {L : List Nat} (h : PmmInv s L) {count : Nat}
    (hbytes : count * pageSize < 2 ^ 63) :
    (pmmAllocPages s count = (0, s)) ∨
      (0 < count ∧ (pmmAllocPages s count).1 = s.cursor ∧
        s.cursor + count * pageSize ≤ s.stop ∧
        PmmInv (pmmAllocPages s count).2 L ∧
        (pmmAllocPages s count).2.cursor = s.cursor + count * pageSize ∧
        (pmmAllocPages s count).2.stop = s.stop) := by
  have hmin := h.minPhys_le
  have hle := h.cursor_le
  have hstop := h.stop_le
  have hmod := h.cursor_mod
  have hcount := h.count
  by_cases hzero : count = 0
  · exact Or.inl (if_pos hzero)
  · have hb : u64 (count * pageSize) = count * pageSize := by
      simp only [u64]
      omega
    have hu : u64 (s.cursor + count * pageSize) = s.cursor + count * pageSize := by
      simp only [u64]
      omega
    have hcur : s.cursor ≠ 0 := by
      simp only [minPhys] at hmin
      omega
    by_cases hroom : s.cursor + count * pageSize ≤ s.stop
    · have hfits : count ≤ s.freePages := by
        simp only [pageSize] at *
        omega
      have heq : pmmAllocPages s count =
          (s.cursor,
            { s with
              cursor := s.cursor + count * pageSize
              freePages := s.freePages - count }) := by
        unfold pmmAllocPages
        rw [if_neg hzero, if_neg hcur]
        simp only [hb, hu]
        rw [if_neg (by omega), if_pos hfits]
      rw [heq]
      refine Or.inr ⟨by omega, rfl, hroom, ?_, rfl, rfl⟩
      refine ⟨h.chain, h.nodup, ?_, ?_, ?_, hroom, hstop, h.hhdm_ne, ?_⟩
      · intro p hp
        obtain ⟨hpm, hpl, hplt⟩ := h.listed p hp
        exact ⟨hpm, hpl, by simp only; omega⟩
      · simp only [pageSize] at *
        omega
      · simp only
        omega
      · simp only [pageSize] at *
        omega
    · left
      unfold pmmAllocPages
      rw [if_neg hzero, if_neg hcur]
      simp only [hb, hu]
      rw [if_pos (by omega)]

end FiFi.Pmm
