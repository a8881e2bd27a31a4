import FiFi.Library.ByteStore
import FiFi.Library.BlockList
import FiFi.Thread.Table

/-!
# The kernel heap

`heap.c` hands out blocks with a header of 16 bytes, the size and a magic number. Small
blocks are cut from the current page, and a block that does not fit goes to a fresh
page. A block of a page or more gets pages of its own. A small block that is freed goes
to a list whose links are stored in the blocks; its memory is taken again for a request
it is large enough for.

Memory is a function of virtual addresses, and a page of the arena is mapped once, with
whatever the physical pages hold. Whether there are pages, and whether they can be
mapped, is up to the rest of the kernel (`Supply`). Numbers are below 2^64 and wrap.
-/

namespace FiFi.Heap

open ByteStore Pmm
open Thread (heapUsableBase heapUsableEnd)

/-- Why a call does not return. -/
inductive Stop
  | panic (msg : String)
  | endless
  deriving DecidableEq, Repr

/-- What a call gets from the page allocator and the page tables. -/
structure Supply where
  /-- `pmm_alloc_page` finds a page. -/
  page : Bool
  /-- `vmm_map_page` maps it. -/
  mapPage : Bool
  /-- `pmm_alloc_pages` finds the pages. -/
  pages : Bool
  /-- `vmm_map_range` maps them. -/
  mapRange : Bool
  /-- What the pages hold, at their new addresses. -/
  fresh : Bytes

/-- The memory and the static variables; `mapped` is about page numbers. -/
structure HeapState where
  mem : Bytes
  mapped : Nat → Bool
  curPageVirt : Nat
  curOff : Nat
  nextPageVirt : Nat
  freeList : Nat

/-! ### Headers -/

/-- `sizeof(heap_hdr_t)`. -/
def hdrSz : Nat := 16

/-- `HEAP_MAGIC`. -/
def heapMagic : Nat := 0xF1F10A110DEAD000

/-- `HEAP_MAGIC_LARGE`. -/
def heapMagicLarge : Nat := 0xF1F10A110DEAD001

/-- `size` of a header. -/
def hSize (m : Bytes) (h : Nat) : Nat := le64 m h

/-- `magic` of a header. -/
def hMagic (m : Bytes) (h : Nat) : Nat := le64 m (h + 8)

/-- The link of a block on the free list, at the start of its user area. -/
def hLink (m : Bytes) (h : Nat) : Nat := le64 m (h + hdrSz)

def setSize (m : Bytes) (h v : Nat) : Bytes := put64 m h v

def setMagic (m : Bytes) (h v : Nat) : Bytes := put64 m (h + 8) v

def memzero (m : Bytes) (p n : Nat) : Bytes := fun i => if p ≤ i ∧ i < p + n then 0 else m i

/-! ### Pages -/

/-- `align_up_uintptr`, for a power of two. -/
def alignUpUintptr (x a : Nat) : Nat := u64 (x + (a - 1)) / a * a

/-- New pages at `v`. -/
def mapFresh (s : HeapState) (v n : Nat) (e : Supply) : HeapState :=
  { s with
    mem := fun i => if v ≤ i ∧ i < v + n then e.fresh i else s.mem i
    mapped := fun p => (v / pageSize ≤ p && p < (v + n) / pageSize) || s.mapped p }

/-- `heap_map_fresh_page`. -/
def heapMapFreshPage (s : HeapState) (e : Supply) : Except Stop HeapState :=
  if heapUsableEnd ≤ s.nextPageVirt then
    .error (.panic "heap: out of virtual space (hit end guard)")
  else if ¬ e.page then .error (.panic "heap: out of physical pages")
  else if ¬ e.mapPage then .error (.panic "heap: vmm_map_page failed")
  else .ok { mapFresh s s.nextPageVirt pageSize e with
    curPageVirt := s.nextPageVirt
    curOff := 0
    nextPageVirt := s.nextPageVirt + pageSize }

/-- `heap_init`, from the memory there is. -/
def heapInit (m : Bytes) (mapped : Nat → Bool) (e : Supply) : Except Stop HeapState :=
  heapMapFreshPage ⟨m, mapped, 0, 0, heapUsableBase, 0⟩ e

/-! ### The free list -/

/-- The number of addresses. A longer walk along the list does not end. -/
def manySteps : Nat := 2 ^ 64

/-- `*pp`, where `pp` is the address of a link or of `g_free_list`. -/
def load (s : HeapState) : Option Nat → Nat
  | none => s.freeList
  | some p => le64 s.mem p

def store (s : HeapState) (v : Nat) : Option Nat → HeapState
  | none => { s with freeList := v }
  | some p => { s with mem := put64 s.mem p v }

/-- `freelist_take`: the first block that is large enough. -/
def freelistTake (s : HeapState) (need : Nat) : Nat → Option Nat → Option (Nat × HeapState)
  | 0, _ => none
  | k + 1, pp =>
      let hdr := load s pp
      if hdr = 0 then some (0, s)
      else
        let usr := hdr + hdrSz
        if hSize s.mem hdr ≥ need then
          let s := store s (le64 s.mem usr) pp
          let m := setMagic s.mem hdr heapMagic
          some (usr, { s with mem := memzero m usr (hSize m hdr) })
        else freelistTake s need k (some usr)

/-! ### The functions -/

/-- `round_size`. -/
def roundSize (n : Nat) : Nat := u64 (n + 7) / 8 * 8

/-- The number of bytes of the pages for a large block. -/
def largeBytes (size : Nat) : Nat := u64 (size + hdrSz + pageSize - 1) / pageSize * pageSize

/-- The part of `kmalloc_aligned` for a page or more. `pmm_alloc_pages` has no run of no
pages. -/
def kmallocLarge (s : HeapState) (size : Nat) (e : Supply) : Except Stop (Nat × HeapState) :=
  let bytes := largeBytes size
  let v := alignDown s.nextPageVirt
  let vend := u64 (v + bytes)
  if heapUsableEnd < vend then .error (.panic "heap: big alloc exceeds arena")
  else if bytes / pageSize = 0 ∨ ¬ e.pages then .ok (0, s)
  else if ¬ e.mapRange then .error (.panic "heap: vmm_map_range failed")
  else
    let s := { mapFresh s v bytes e with nextPageVirt := vend }
    let m := setMagic (setSize s.mem v (bytes - hdrSz)) v heapMagicLarge
    let usr := v + hdrSz
    .ok (usr, { s with mem := memzero m usr (if hSize m v < size then hSize m v else size) })

/-- Where the header of a block of the current page is. -/
def bumpHdr (s : HeapState) (align : Nat) : Nat := alignUpUintptr (s.curPageVirt + s.curOff) align

/-- `new_off`. -/
def bumpOff (s : HeapState) (need align : Nat) : Nat :=
  u64 (bumpHdr s align + 2 ^ 64 - s.curPageVirt + (hdrSz + need))

/-- The end of `kmalloc_aligned`: the block is cut from the current page. -/
def bumpTake (s : HeapState) (need align : Nat) : Nat × HeapState :=
  let hptr := bumpHdr s align
  let m := setMagic (setSize s.mem hptr need) hptr heapMagic
  let usr := hptr + hdrSz
  (usr, { s with curOff := bumpOff s need align, mem := memzero m usr need })

/-- The part of `kmalloc_aligned` behind the free list. -/
def bump (s : HeapState) (need align : Nat) (e : Supply) : Except Stop (Nat × HeapState) :=
  if s.curPageVirt = 0 then .ok (0, s)
  else if bumpOff s need align > pageSize then
    match heapMapFreshPage s e with
    | .error stop => .error stop
    | .ok s => if bumpOff s need align > pageSize then .ok (0, s) else .ok (bumpTake s need align)
  else .ok (bumpTake s need align)

/-- `kmalloc_aligned`. -/
def kmallocAligned (s : HeapState) (size align : Nat) (e : Supply) :
    Except Stop (Nat × HeapState) :=
  if size = 0 then .ok (0, s)
  else
    let align := if align < 16 then 16 else align
    if align &&& (align - 1) ≠ 0 then .error (.panic "kmalloc_aligned: align not power-of-two")
    else if size ≥ pageSize then kmallocLarge s size e
    else
      let need := roundSize (if size < 8 then 8 else size)
      if align = 16 then
        match freelistTake s need manySteps none with
        | none => .error .endless
        | some (hit, s') => if hit ≠ 0 then .ok (hit, s') else bump s need align e
      else bump s need align e

/-- `kfree`. -/
def kfree (s : HeapState) (ptr : Nat) : Except Stop HeapState :=
  if ptr = 0 then .ok s
  else
    let hdr := u64 (ptr + 2 ^ 64 - hdrSz)
    if hMagic s.mem hdr = heapMagicLarge then .ok { s with mem := setMagic s.mem hdr 0 }
    else if hMagic s.mem hdr ≠ heapMagic then
      .error (.panic "kfree: bad magic (double-free or corrupt pointer)")
    else
      .ok { s with mem := put64 (setMagic s.mem hdr 0) ptr s.freeList, freeList := hdr }

end FiFi.Heap
