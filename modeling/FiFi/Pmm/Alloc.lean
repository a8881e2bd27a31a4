import FiFi.Library.LinkedList
import Mathlib.Tactic

/-!
# The physical page allocator

`pmm_init` scans the boot loader's memory map twice. The first scan picks the
longest usable region above 16 MiB, which becomes the main zone
`[g_cursor, g_end)`; the second picks the longest part below 4 GiB for 32-bit
DMA devices. A page is taken from the free list if there is one, and from the
cursor otherwise; runs of pages always come from the cursor.

The free list is threaded through the freed pages: the first word of a free
page is the address of the next one. Physical memory is the function `mem` from
the address of a word to the 64-bit value stored there, as the kernel sees it
through the direct map. Machine words are natural numbers; `u64` is the
reduction modulo `2 ^ 64` that every sum and difference of the source makes.
-/

namespace FiFi.Pmm

/-- The value of a 64-bit unsigned expression. -/
def u64 (x : Nat) : Nat := x % 2 ^ 64

/-- `PAGE_SIZE`. -/
def pageSize : Nat := 4096

/-- `MIN_PHYS`: lower memory is never handed out. -/
def minPhys : Nat := 16 * 1024 * 1024

/-- `DMA32_LIMIT`, 4 GiB. -/
def dma32Limit : Nat := 0x100000000

/-- Clear the low twelve bits, `x & ~(PAGE_SIZE - 1)`. -/
def alignDown (x : Nat) : Nat := x / pageSize * pageSize

/-- `align_up(x, PAGE_SIZE)`. -/
def alignUp (x : Nat) : Nat := alignDown (u64 (x + (pageSize - 1)))

/-- An entry of the boot loader's memory map (`limine_memmap_entry`). -/
structure MemmapEntry where
  base : UInt64
  length : UInt64
  type : UInt64
  deriving DecidableEq, Repr

/-- `LIMINE_MEMMAP_USABLE`. -/
def memmapUsable : UInt64 := 0

/-- A memory map response: a null pointer, or entries each of which may be
null. -/
abbrev Memmap := Option (List (Option MemmapEntry))

/-- A candidate region of a scan. -/
structure Zone where
  start : Nat
  len : Nat
  deriving DecidableEq, Repr

/-- The common tail of both scans: cut `[base, stop)` to whole pages above
`MIN_PHYS` and keep it if it is longer than the best region so far. -/
def considerZone (best : Zone) (base stop : Nat) : Zone :=
  if stop ≤ minPhys then best else
  let start := alignUp (if base < minPhys then minPhys else base)
  if stop < u64 (start + pageSize) then best else
  let len := u64 (2 ^ 64 + stop - start)
  if best.len < len then ⟨start, len⟩ else best

/-- One turn of the first scan. -/
def scanMain (best : Zone) (entry : Option MemmapEntry) : Zone :=
  match entry with
  | none => best
  | some e =>
      if e.type ≠ memmapUsable then best
      else considerZone best e.base.toNat (u64 (e.base.toNat + e.length.toNat))

/-- One turn of the second scan, which caps the region at 4 GiB. -/
def scanDma32 (best : Zone) (entry : Option MemmapEntry) : Zone :=
  match entry with
  | none => best
  | some e =>
      if e.type ≠ memmapUsable then best
      else if dma32Limit ≤ e.base.toNat then best
      else
        let stop := u64 (e.base.toNat + e.length.toNat)
        considerZone best e.base.toNat (if dma32Limit < stop then dma32Limit else stop)

/-- The allocator's static variables and the memory its free list lives in. -/
structure PmmState where
  hhdm : Nat
  cursor : Nat
  stop : Nat
  freeList : Nat
  dma32Cursor : Nat
  dma32Stop : Nat
  totalPages : Nat
  freePages : Nat
  mem : Nat → Nat

/-- Before `pmm_init` all static variables are zero. -/
def PmmState.boot (mem : Nat → Nat) : PmmState where
  hhdm := 0
  cursor := 0
  stop := 0
  freeList := 0
  dma32Cursor := 0
  dma32Stop := 0
  totalPages := 0
  freePages := 0
  mem := mem

def pmmInit (mm : Memmap) (hhdm : Nat) (s : PmmState) : PmmState :=
  let s := { s with hhdm := hhdm, cursor := 0, stop := 0, freeList := 0 }
  match mm with
  | none => s
  | some entries =>
      let best := entries.foldl scanMain ⟨0, 0⟩
      if best.len = 0 then s else
      let s := { s with cursor := best.start, stop := u64 (best.start + best.len) }
      let dma := entries.foldl scanDma32 ⟨0, 0⟩
      let s :=
        if dma.len = 0 then s
        else { s with dma32Cursor := dma.start, dma32Stop := u64 (dma.start + dma.len) }
      { s with totalPages := best.len / pageSize, freePages := best.len / pageSize }

/-- Decrement a page counter, stopping at zero. -/
def decCount (n : Nat) : Nat := if n ≠ 0 then n - 1 else n

/-- `pmm_alloc_page`; the address `0` reports failure. -/
def pmmAllocPage (s : PmmState) : Nat × PmmState :=
  if s.freeList ≠ 0 then
    (s.freeList, { s with freeList := s.mem s.freeList, freePages := decCount s.freePages })
  else if s.cursor = 0 then (0, s)
  else if s.stop < u64 (s.cursor + pageSize) then (0, s)
  else
    (s.cursor, { s with cursor := u64 (s.cursor + pageSize), freePages := decCount s.freePages })

def pmmFreePage (s : PmmState) (phys : Nat) : PmmState :=
  if phys = 0 then s
  else if s.hhdm = 0 then s
  else
    let phys := alignDown phys
    if phys < minPhys then s
    else if s.cursor = 0 then s
    else if s.cursor ≤ phys then s
    else
      { s with
        mem := Function.update s.mem phys s.freeList
        freeList := phys
        freePages := u64 (s.freePages + 1) }

/-- `pmm_alloc_pages`: a contiguous run, always from the cursor. -/
def pmmAllocPages (s : PmmState) (count : Nat) : Nat × PmmState :=
  if count = 0 then (0, s)
  else if s.cursor = 0 then (0, s)
  else
    let bytes := u64 (count * pageSize)
    if s.stop < u64 (s.cursor + bytes) then (0, s)
    else
      (s.cursor,
        { s with
          cursor := u64 (s.cursor + bytes)
          freePages := if count ≤ s.freePages then s.freePages - count else 0 })

/-- `pmm_alloc_dma32_page`: the main allocator when the whole main zone is below
4 GiB, the separate zone otherwise. -/
def pmmAllocDma32Page (s : PmmState) : Nat × PmmState :=
  if s.stop ≤ dma32Limit then pmmAllocPage s
  else if s.dma32Cursor = 0 then (0, s)
  else if s.dma32Stop < u64 (s.dma32Cursor + pageSize) then (0, s)
  else (s.dma32Cursor, { s with dma32Cursor := u64 (s.dma32Cursor + pageSize) })

end FiFi.Pmm
