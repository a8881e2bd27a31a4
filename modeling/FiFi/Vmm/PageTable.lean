import FiFi.Library.Computation
import FiFi.Pmm.Alloc

/-!
# Page tables

The functions of `vmm.c` on physical memory. A table is a page of 512 words,
and the kernel reaches it through the direct map, so word `i` of the table at
`t` is `mem (t + 8 * i)`. The loaded page map is the register `cr3`; the
functions that read it are written for an arbitrary root first. Flushing the
translation buffers has no effect here.
-/

namespace FiFi.Vmm

open Pmm Loop

/-! ### Entries -/

def pteP : Nat := 1
def pteRw : Nat := 2
def pteUs : Nat := 4
def ptePwt : Nat := 8
def ptePcd : Nat := 16
def pteNx : Nat := 2 ^ 63

def vmmWrite : Nat := 2
def vmmUser : Nat := 4
def vmmUncache : Nat := 16
def vmmNx : Nat := 2 ^ 63

/-- `e & PTE_P`. -/
def present (e : Nat) : Bool := e % 2 = 1

/-- `e & 0x000FFFFFFFFFF000`: the page an entry points to. -/
def ptePage (e : Nat) : Nat := e / pageSize % 2 ^ 40 * pageSize

def makePteFlags (flags : Nat) : Nat :=
  pteP ||| (if flags &&& vmmWrite ≠ 0 then pteRw else 0)
    ||| (if flags &&& vmmUser ≠ 0 then pteUs else 0)
    ||| (if flags &&& vmmUncache ≠ 0 then ptePcd ||| ptePwt else 0)
    ||| (if flags &&& vmmNx ≠ 0 then pteNx else 0)

def idxPml4 (v : Nat) : Nat := v / 2 ^ 39 % 512
def idxPdpt (v : Nat) : Nat := v / 2 ^ 30 % 512
def idxPd (v : Nat) : Nat := v / 2 ^ 21 % 512
def idxPt (v : Nat) : Nat := v / 2 ^ 12 % 512

/-! ### State -/

/-- The page allocator with the memory, the loaded page map and the variable
`g_kernel_cr3`. -/
structure VmmState where
  pmm : PmmState
  cr3 : Nat
  kernelCr3 : Nat

/-- The memory as the kernel sees it through the direct map. -/
def VmmState.mem (s : VmmState) : Nat → Nat := s.pmm.mem

def VmmState.withMem (s : VmmState) (mem : Nat → Nat) : VmmState :=
  { s with pmm := { s.pmm with mem := mem } }

/-- Entry `i` of the table at `t`. -/
def entry (mem : Nat → Nat) (t i : Nat) : Nat := mem (t + 8 * i)

def VmmState.setEntry (s : VmmState) (t i e : Nat) : VmmState :=
  s.withMem (Function.update s.mem (t + 8 * i) e)

def zeroPage (mem : Nat → Nat) (p : Nat) : Nat → Nat :=
  fun w => if p ≤ w ∧ w < p + pageSize then 0 else mem w

def copyPage (mem : Nat → Nat) (src dst : Nat) : Nat → Nat :=
  fun w => if dst ≤ w ∧ w < dst + pageSize then mem (src + (w - dst)) else mem w

def allocPage (s : VmmState) : Nat × VmmState :=
  ((pmmAllocPage s.pmm).1, { s with pmm := (pmmAllocPage s.pmm).2 })

def freePage (s : VmmState) (phys : Nat) : VmmState :=
  { s with pmm := pmmFreePage s.pmm phys }

/-! ### Mapping -/

/-- The entry `ensure_table` writes for a new table. -/
def newTableEntry (phys : Nat) (user : Bool) : Nat :=
  alignDown phys ||| pteP ||| pteRw ||| (if user then pteUs else 0)

/-- `ensure_table`: the child table in a slot, created when the slot is empty.
It fails when no page is left. -/
def ensureTable (s : VmmState) (parent index : Nat) (user : Bool) : Option Nat × VmmState :=
  let e := entry s.mem parent index
  if present e then
    (some (alignDown e), if user then s.setEntry parent index (e ||| pteUs) else s)
  else
    let r := allocPage s
    if r.1 = 0 then (none, r.2)
    else
      let s := r.2.withMem (zeroPage r.2.mem r.1)
      (some r.1, s.setEntry parent index (newTableEntry r.1 user))

/-- `vmm_map_page_into`. -/
def vmmMapPageInto (s : VmmState) (root virt phys flags : Nat) : Bool × VmmState :=
  let user : Bool := flags &&& vmmUser ≠ 0
  match ensureTable s root (idxPml4 virt) user with
  | (none, s) => (false, s)
  | (some pdpt, s) =>
      match ensureTable s pdpt (idxPdpt virt) user with
      | (none, s) => (false, s)
      | (some pd, s) =>
          match ensureTable s pd (idxPd virt) user with
          | (none, s) => (false, s)
          | (some pt, s) =>
              (true, s.setEntry pt (idxPt virt) (ptePage phys ||| makePteFlags flags))

/-- `vmm_map_page`, on the loaded page map. -/
def vmmMapPage (s : VmmState) (virt phys flags : Nat) : Bool × VmmState :=
  vmmMapPageInto s s.cr3 (alignDown virt) phys flags

/-! ### Translation and unmapping -/

/-- The walk of `vmm_translate` from a given root; `0` if some entry is not
present. -/
def translateIn (mem : Nat → Nat) (root virt : Nat) : Nat :=
  let e1 := entry mem root (idxPml4 virt)
  if !present e1 then 0
  else
    let e2 := entry mem (alignDown e1) (idxPdpt virt)
    if !present e2 then 0
    else
      let e3 := entry mem (alignDown e2) (idxPd virt)
      if !present e3 then 0
      else
        let e4 := entry mem (alignDown e3) (idxPt virt)
        if !present e4 then 0
        else ptePage e4 + virt % pageSize

def vmmTranslate (s : VmmState) (virt : Nat) : Nat := translateIn s.mem s.cr3 virt

def tableIsEmpty (mem : Nat → Nat) (t : Nat) : Bool :=
  (List.range 512).all fun i => !present (entry mem t i)

/-- `vmm_unmap_page` on the page map at `root`: clear the entry, then give back
the tables that became empty, from the lowest level up. -/
def unmapPageIn (s : VmmState) (root virt : Nat) : Bool × VmmState :=
  let v := alignDown virt
  let e1 := entry s.mem root (idxPml4 v)
  if !present e1 then (false, s)
  else
    let pdpt := ptePage e1
    let e2 := entry s.mem pdpt (idxPdpt v)
    if !present e2 then (false, s)
    else
      let pd := ptePage e2
      let e3 := entry s.mem pd (idxPd v)
      if !present e3 then (false, s)
      else
        let pt := ptePage e3
        if !present (entry s.mem pt (idxPt v)) then (false, s)
        else
          let s := s.setEntry pt (idxPt v) 0
          if !tableIsEmpty s.mem pt then (true, s)
          else
            let s := freePage (s.setEntry pd (idxPd v) 0) pt
            if !tableIsEmpty s.mem pd then (true, s)
            else
              let s := freePage (s.setEntry pdpt (idxPdpt v) 0) pd
              if !tableIsEmpty s.mem pdpt then (true, s)
              else (true, freePage (s.setEntry root (idxPml4 v) 0) pdpt)

def vmmUnmapPage (s : VmmState) (virt : Nat) : Bool × VmmState := unmapPageIn s s.cr3 virt

/-- `vmm_unmap_page_and_free` on the page map at `root`. -/
def unmapPageAndFreeIn (s : VmmState) (root virt : Nat) : Bool × VmmState :=
  let v := alignDown virt
  let phys := translateIn s.mem root v
  if phys = 0 then (true, s)
  else
    let r := unmapPageIn s root v
    if !r.1 then (false, r.2) else (true, freePage r.2 (ptePage phys))

def vmmUnmapPageAndFree (s : VmmState) (virt : Nat) : Bool × VmmState :=
  unmapPageAndFreeIn s s.cr3 virt

/-! ### Ranges -/

/-- The number of pages of `[virt, virt + size)`, as the range functions compute
it. -/
def rangePages (virt size : Nat) : Nat :=
  alignUp (u64 (size + (virt - alignDown virt))) / pageSize

def vmmMapRange (s : VmmState) (virt phys size flags : Nat) : Bool × VmmState :=
  let r := forUpTo
    (fun k s => vmmMapPage s (u64 (alignDown virt + k * pageSize))
      (u64 (alignDown phys + k * pageSize)) flags) (rangePages virt size) s
  (r.1.isNone, r.2)

def vmmUnmapRangeAndFree (s : VmmState) (virt size : Nat) : Bool × VmmState :=
  if size = 0 then (true, s)
  else
    let r := forUpTo
      (fun k s => vmmUnmapPageAndFree s (u64 (alignDown virt + k * pageSize)))
      (rangePages virt size) s
    (r.1.isNone, r.2)

/-! ### Page maps of processes -/

/-- `vmm_create_user_pagemap`: a page map with an empty lower half and the
kernel's entries in the upper half. `0` reports failure. -/
def vmmCreateUserPagemap (s : VmmState) : Nat × VmmState :=
  let r := allocPage s
  if r.1 = 0 then (0, r.2)
  else
    let s := r.2
    let s := if s.kernelCr3 = 0 then { s with kernelCr3 := s.cr3 } else s
    let zeroed := zeroPage s.mem r.1
    (r.1, s.withMem fun w =>
      if r.1 + 2048 ≤ w ∧ w < r.1 + pageSize then zeroed (s.kernelCr3 + (w - r.1)) else zeroed w)

/-- The loop of `vmm_destroy_user_pagemap` over the first `n` entries of a
table: what an entry leads to is emptied by `inner` and given back, and the
entry is cleared. -/
def destroyEntries (inner : Nat → VmmState → VmmState) (n t : Nat) (s : VmmState) : VmmState :=
  (List.range n).foldl (fun s i =>
    let e := entry s.mem t i
    if present e then (freePage (inner (ptePage e) s) (ptePage e)).setEntry t i 0 else s) s

/-- The loop nest of `vmm_destroy_user_pagemap` below a table, where `depth`
counts the levels of tables from there on. -/
def destroyBelow : Nat → Nat → VmmState → VmmState
  | 0 => fun _ s => s
  | depth + 1 => destroyEntries (destroyBelow depth) 512

def vmmDestroyUserPagemap (s : VmmState) (root : Nat) : VmmState :=
  if root = 0 then s
  else if root = s.kernelCr3 then s
  else freePage (destroyEntries (destroyBelow 3) 256 root s) root

/-- `vmm_switch_to`; `0` stands for the kernel's page map. -/
def vmmSwitchTo (s : VmmState) (root : Nat) : VmmState :=
  { s with cr3 := if root = 0 then s.kernelCr3 else root }

end FiFi.Vmm
