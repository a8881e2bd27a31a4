import FiFi.Library.ByteStore
import FiFi.Library.BlockList
import FiFi.Syscall.Memory

/-!
# The allocator of user programs

`umalloc.h` keeps one list of blocks in address order, free and used ones. A block
has a header of 24 bytes with its size, whether it is free, and the address of the
next header. `malloc` takes the first free block that is large enough, or asks the
kernel for memory behind the break; `free` merges a block with free neighbours.

The memory of the program is a function of addresses. Numbers are below 2^64 and
wrap. What is at or above the break is not mapped; the blocks of the list lie below
it, so the accesses to memory that was just asked for are the ones that may fault. A
walk along the links that takes 2^64 steps has been somewhere twice and does not
end. A call that faults or does not end has no result (`none`).
-/

namespace FiFi.Umalloc

open ByteStore Pmm Syscall

/-- The memory of the program, `um_head` and the break. -/
structure Heap where
  mem : Bytes
  head : Nat
  brk : Nat

/-! ### Headers -/

/-- `UM_HDR_SZ`. -/
def umHdrSz : Nat := 24

/-- `UM_MIN_CHUNK`. -/
def umMinChunk : Nat := 4096

/-- `size` of a header. -/
def hSize (m : Bytes) (h : Nat) : Nat := le64 m h

/-- `free` of a header. -/
def hFree (m : Bytes) (h : Nat) : Bool := le32 m (h + 8) ≠ 0

/-- `next` of a header. -/
def hNext (m : Bytes) (h : Nat) : Nat := le64 m (h + 16)

def setSize (m : Bytes) (h v : Nat) : Bytes := put64 m h v

def setFree (m : Bytes) (h v : Nat) : Bytes := put32 m (h + 8) v

def setNext (m : Bytes) (h v : Nat) : Bytes := put64 m (h + 16) v

/-- `um_align`. -/
def umAlign (n : Nat) : Nat := u64 (n + 15) / 16 * 16

/-- A difference of 64-bit numbers. -/
def sub64 (x y : Nat) : Nat := u64 (x + 2 ^ 64 - y)

/-! ### The break -/

/-- `sys_brk`. The kernel may have no memory for more pages; new pages are clear. -/
def brkCall (s : Heap) (arg : Nat) (grant : Bool) : Nat × Heap :=
  if arg = 0 then (s.brk, s)
  else
    let new := alignUp arg
    if new ≥ userTop ∨ new < pageSize then (s.brk, s)
    else if new > s.brk then
      if grant then
        (new, { s with
          brk := new
          mem := fun i => if s.brk ≤ i ∧ i < new then 0 else s.mem i })
      else (s.brk, s)
    else if new < s.brk then (new, { s with brk := new })
    else (s.brk, s)

/-- `sys_sbrk`. -/
def sysSbrk (s : Heap) (n : Nat) (grant : Bool) : Option Nat × Heap :=
  let cur := (brkCall s 0 grant).1
  if cur = 0 then (none, s)
  else
    let r := brkCall s (u64 (cur + n)) grant
    if r.1 ≠ u64 (cur + n) ∧ r.1 = cur then (none, r.2) else (some cur, r.2)

/-! ### Walks -/

/-- The number of addresses. -/
def manySteps : Nat := 2 ^ 64

/-- The first free block of at least `a` bytes; `0` if there is none. -/
def findFit (m : Bytes) (a : Nat) : Nat → Nat → Option Nat
  | 0, _ => none
  | k + 1, cur =>
      if cur = 0 then some 0
      else if hFree m cur && a ≤ hSize m cur then some cur
      else findFit m a k (hNext m cur)

/-- `while (t->next) t = t->next`. -/
def lastBlock (m : Bytes) : Nat → Nat → Option Nat
  | 0, _ => none
  | k + 1, t => if hNext m t = 0 then some t else lastBlock m k (hNext m t)

/-- `while (p && p->next != b) p = p->next`. -/
def prevBlock (m : Bytes) (b : Nat) : Nat → Nat → Option Nat
  | 0, _ => none
  | k + 1, p =>
      if p = 0 then some 0
      else if hNext m p = b then some p
      else prevBlock m b k (hNext m p)

/-- `um_coalesce`. -/
def coalesceLoop (b : Nat) : Nat → Bytes → Option Bytes
  | 0, _ => none
  | k + 1, m =>
      if hNext m b ≠ 0 ∧ hFree m b ∧ hFree m (hNext m b) then
        let m := setSize m b (u64 (hSize m b + (umHdrSz + hSize m (hNext m b))))
        coalesceLoop b k (setNext m b (hNext m (hNext m b)))
      else some m

def umCoalesce (m : Bytes) (b : Nat) : Option Bytes := coalesceLoop b manySteps m

/-! ### The functions -/

/-- The code that splits a block, which is there twice. -/
def carve (s : Heap) (h a : Nat) : Option Heap :=
  if u64 (a + umHdrSz + 16) ≤ hSize s.mem h then
    let split := u64 (h + umHdrSz + a)
    if s.brk < split + umHdrSz then none
    else
      let m := setSize s.mem split (sub64 (sub64 (hSize s.mem h) a) umHdrSz)
      let m := setFree m split 1
      let m := setNext m split (hNext m h)
      let m := setNext m h split
      some { s with mem := setSize m h a }
  else some s

/-- A new block is put at the end of the list. -/
def linkBlock (s : Heap) (blk : Nat) : Option Heap :=
  if s.head = 0 then some { s with head := blk }
  else (lastBlock s.mem manySteps s.head).map fun t => { s with mem := setNext s.mem t blk }

/-- The request for more memory. -/
def growSize (a : Nat) : Nat :=
  if u64 (a + umHdrSz) < umMinChunk then umMinChunk else u64 (a + umHdrSz)

/-- The end of `malloc`, when no block fits. -/
def growHeap (s : Heap) (a : Nat) (grant : Bool) : Option (Nat × Heap) :=
  match sysSbrk s (growSize a) grant with
  | (none, s) => some (0, s)
  | (some blk, s) =>
      if s.brk < blk + umHdrSz then none
      else
        let m := setSize s.mem blk (sub64 (growSize a) umHdrSz)
        let m := setFree m blk 0
        let m := setNext m blk 0
        (linkBlock { s with mem := m } blk).bind fun s =>
          (carve s blk a).map fun s => (u64 (blk + umHdrSz), s)

/-- `malloc`. -/
def malloc (s : Heap) (n : Nat) (grant : Bool) : Option (Nat × Heap) :=
  let a := umAlign (if n = 0 then 1 else n)
  (findFit s.mem a manySteps s.head).bind fun cur =>
    if cur ≠ 0 then
      (carve s cur a).map fun s => (u64 (cur + umHdrSz), { s with mem := setFree s.mem cur 0 })
    else growHeap s a grant

/-- `free`. -/
def free (s : Heap) (ptr : Nat) : Option Heap :=
  if ptr = 0 then some s
  else
    let b := sub64 ptr umHdrSz
    (umCoalesce (setFree s.mem b 1) b).bind fun m =>
      (prevBlock m b manySteps s.head).bind fun p =>
        if p ≠ 0 ∧ hFree m p then (umCoalesce m p).map fun m => { s with mem := m }
        else some { s with mem := m }

/-- `calloc`. -/
def calloc (s : Heap) (nmemb sz : Nat) (grant : Bool) : Option (Nat × Heap) :=
  let total := u64 (nmemb * sz)
  (malloc s total grant).bind fun (p, s) =>
    if p = 0 then some (0, s)
    else if s.brk < p + total then none
    else some (p, { s with mem := fun i => if p ≤ i ∧ i < p + total then 0 else s.mem i })

/-- The copy loop of `realloc`. -/
def copyLoop (m : Bytes) (src dst n : Nat) : Bytes :=
  (List.range n).foldl (fun m i => Function.update m (dst + i) (m (src + i))) m

/-- `realloc`. -/
def realloc (s : Heap) (ptr n : Nat) (grant : Bool) : Option (Nat × Heap) :=
  if ptr = 0 then malloc s n grant
  else if n = 0 then (free s ptr).map fun s => (0, s)
  else
    let b := sub64 ptr umHdrSz
    let n := umAlign n
    if n ≤ hSize s.mem b then some (ptr, s)
    else
      (malloc s n grant).bind fun (q, s) =>
        if q = 0 then some (0, s)
        else
          let copy := if hSize s.mem b < n then hSize s.mem b else n
          if s.brk < q + copy then none
          else
            (free { s with mem := copyLoop s.mem ptr q copy } ptr).map fun s => (q, s)

/-- `brkCall` is what the kernel does, with `grant` for whether it found the pages. -/
theorem sysBrk_brkCall (v : Vmm.VmmState) (u : UserVm) (arg : UInt64) :
    ∃ grant, ∀ mem head,
      (brkCall ⟨mem, head, u.brk⟩ arg.toNat grant).1 = (sysBrk v u arg).1 ∧
        (brkCall ⟨mem, head, u.brk⟩ arg.toNat grant).2.brk = (sysBrk v u arg).2.2.brk := by
  refine ⟨(mapZeroedRange v u.brk (alignUp arg.toNat)
    (Vmm.vmmUser ||| Vmm.vmmWrite ||| Vmm.vmmNx)).1, fun mem head => ?_⟩
  unfold brkCall sysBrk
  dsimp only
  split
  · exact ⟨rfl, rfl⟩
  · split
    · exact ⟨rfl, rfl⟩
    · split
      · rcases mapZeroedRange v u.brk (alignUp arg.toNat)
          (Vmm.vmmUser ||| Vmm.vmmWrite ||| Vmm.vmmNx) with ⟨_ | _, v'⟩ <;> exact ⟨rfl, rfl⟩
      · split <;> exact ⟨rfl, rfl⟩

end FiFi.Umalloc
