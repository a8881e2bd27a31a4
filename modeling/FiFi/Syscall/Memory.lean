import FiFi.Vmm.PageTable

/-!
# The memory system calls

`SYS_BRK`, `SYS_MMAP` and `SYS_MUNMAP` for the running process. Its page map is
the loaded one. The break and the next address for anonymous mappings are
variables of its thread; both are page aligned, as `exec` and these calls leave
them. The kernel's stores that clear a new page go through the mapping just
made, whatever its write bit says.
-/

namespace FiFi.Syscall

open Pmm Vmm Loop

/-- `FIFI_USER_TOP`. -/
def userTop : Nat := 0x00007ffffffff000

/-- `FIFI_USER_TRAMPOLINE_VA`. -/
def userTrampolineVa : Nat := userTop - 0x1000

/-- `FIFI_USER_STACK_TOP`. -/
def userStackTop : Nat := userTrampolineVa

/-- `FIFI_USER_STACK_BASE`. -/
def userStackBase : Nat := userStackTop - 8 * 0x1000

/-- An entry of `user_maps` of a thread. -/
structure UserMap where
  base : Nat
  size : Nat
  inUse : Bool
  deriving DecidableEq, Repr

/-- What a thread records about its user memory. -/
structure UserVm where
  brk : Nat
  mmapNext : Nat
  maps : List UserMap
  brk_page : brk % pageSize = 0
  brk_lt : brk < 2 ^ 64
  mmapNext_page : mmapNext % pageSize = 0
  mmapNext_lt : mmapNext < 2 ^ 64

/-- `thread_user_map_add`: the range is recorded unless it is known or the table
is full. -/
def userMapAdd (maps : List UserMap) (va size : Nat) : List UserMap :=
  if size = 0 then maps
  else if maps.any fun m => m.inUse && m.base == va && m.size == size then maps
  else
    match maps.findIdx? fun m => !m.inUse with
    | none => maps
    | some i => maps.set i ⟨va, size, true⟩

/-- Clearing the page at the page address `v` through its mapping. -/
def zeroUserPage (s : VmmState) (v : Nat) : VmmState :=
  s.withMem (zeroPage s.mem (vmmTranslate s v))

/-- One turn of the loops of `SYS_BRK` and `SYS_MMAP`: a fresh page is taken,
mapped at `v` and cleared. -/
def mapZeroed (s : VmmState) (v flags : Nat) : Bool × VmmState :=
  let r := allocPage s
  if r.1 = 0 then (false, r.2)
  else
    let m := vmmMapPage r.2 v r.1 flags
    if !m.1 then (false, freePage m.2 r.1) else (true, zeroUserPage m.2 v)

/-- The loop itself, over `[start, stop)`. When a turn fails, the pages mapped so
far are unmapped. -/
def mapZeroedRange (s : VmmState) (start stop flags : Nat) : Bool × VmmState :=
  match forUpTo (fun k s => mapZeroed s (start + k * pageSize) flags)
      ((stop - start + (pageSize - 1)) / pageSize) s with
  | (none, s) => (true, s)
  | (some k, s) => (false, (vmmUnmapRangeAndFree s start (k * pageSize)).2)

theorem alignUp_mod (x : Nat) : alignUp x % pageSize = 0 := by
  simp [alignUp, alignDown]

theorem alignUp_lt (x : Nat) : alignUp x < 2 ^ 64 := by
  simp only [alignUp, alignDown, u64, pageSize]
  omega

/-- `SYS_BRK`. -/
def sysBrk (s : VmmState) (u : UserVm) (arg : UInt64) : Nat × VmmState × UserVm :=
  if arg.toNat = 0 then (u.brk, s, u)
  else
    let newBrk := alignUp arg.toNat
    if newBrk ≥ userTop ∨ newBrk < pageSize then (u.brk, s, u)
    else if newBrk > u.brk then
      match mapZeroedRange s u.brk newBrk (vmmUser ||| vmmWrite ||| vmmNx) with
      | (true, s) =>
          (newBrk, s,
            { u with
              brk := newBrk
              maps := userMapAdd u.maps u.brk (newBrk - u.brk)
              brk_page := alignUp_mod _
              brk_lt := alignUp_lt _ })
      | (false, s) => (u.brk, s, u)
    else if newBrk < u.brk then
      (newBrk, (vmmUnmapRangeAndFree s newBrk (u.brk - newBrk)).2,
        { u with brk := newBrk, brk_page := alignUp_mod _, brk_lt := alignUp_lt _ })
    else (u.brk, s, u)

/-- The value `-1` in `rax`. -/
def minusOne : Nat := 2 ^ 64 - 1

/-- The address `SYS_MMAP` chooses. -/
def mmapVa (u : UserVm) (hint : Nat) : Nat :=
  if hint ≠ 0 ∧ hint % pageSize = 0 ∧ hint ≥ pageSize ∧ hint < userStackBase then hint
  else if u.mmapNext = 0 then 0x0000600000000000
  else u.mmapNext

theorem mmapVa_mod (u : UserVm) (hint : Nat) : mmapVa u hint % pageSize = 0 := by
  unfold mmapVa
  split
  · next h => exact h.2.1
  · split
    · decide
    · exact u.mmapNext_page

theorem u64_add_mod {a b : Nat} (ha : a % pageSize = 0) (hb : b % pageSize = 0) :
    u64 (a + b) % pageSize = 0 := by
  simp only [u64, pageSize] at *
  omega

/-- The flags `SYS_MMAP` maps with. -/
def mmapFlags (prot : Nat) : Nat :=
  vmmUser ||| (if prot &&& 2 ≠ 0 then vmmWrite else 0) ||| (if prot &&& 4 = 0 then vmmNx else 0)

/-- `SYS_MMAP`. -/
def sysMmap (s : VmmState) (u : UserVm) (hint length prot : UInt64) :
    Nat × VmmState × UserVm :=
  let len := alignUp length.toNat
  if len = 0 ∨ len > 256 * 1024 * 1024 then (minusOne, s, u)
  else
    let va := mmapVa u hint.toNat
    if u64 (va + len) ≥ userStackBase then (minusOne, s, u)
    else
      match mapZeroedRange s va (u64 (va + len)) (mmapFlags prot.toNat) with
      | (true, s) =>
          (va, s,
            { u with
              mmapNext := u64 (va + len)
              maps := userMapAdd u.maps va len
              mmapNext_page := u64_add_mod (mmapVa_mod u _) (alignUp_mod _)
              mmapNext_lt := Nat.mod_lt _ (by decide) })
      | (false, s) => (minusOne, s, u)

/-- `SYS_MUNMAP`. -/
def sysMunmap (s : VmmState) (addr length : UInt64) : Nat × VmmState :=
  let len := alignUp length.toNat
  if len = 0 then (0, s)
  else (0, (vmmUnmapRangeAndFree s (alignDown addr.toNat) len).2)

/-- A memory system call with its arguments. -/
inductive MemCall
  | brk (newBrk : UInt64)
  | mmap (hint length prot : UInt64)
  | munmap (addr length : UInt64)

/-- The handler: the value in `rax`, the machine and the thread afterwards. -/
def memCall (s : VmmState) (u : UserVm) : MemCall → Nat × VmmState × UserVm
  | .brk newBrk => sysBrk s u newBrk
  | .mmap hint length prot => sysMmap s u hint length prot
  | .munmap addr length => ((sysMunmap s addr length).1, (sysMunmap s addr length).2, u)

end FiFi.Syscall
