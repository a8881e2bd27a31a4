import FiFi.Fork.Clone
import FiFi.Syscall.Memory

/-!
# Threads and their address spaces

The part of `thread.c`, `fork.c` and `heap.c` that decides which page map a
thread has and when it is given back. A thread has a page map of its own when
its `cr3` is not zero. A child of `fork` gets its page map through the context
its start function `fork_child_fn` is called with; until that function has run,
`cr3` is zero and the context holds the page map.

The scheduler picks some thread that is ready. Kernel stacks come from the heap:
a block of whole pages behind the last page the heap has mapped. Small blocks
come from pages the heap has, or from one more page. A panic stops the machine;
the functions answer `none` then.
-/

namespace FiFi.Thread

open Pmm Vmm Fork Syscall

/-- The table has a first slot. -/
instance slotsNeZero : NeZero 32 := ⟨by decide⟩

/-- `thread_state_t`. -/
inductive TState
  | unused
  | ready
  | running
  | sleeping
  | dead
  | zombie
  | stopped
  deriving DecidableEq, Repr

/-- `thread_t`. The field `arg` is the page map in the context of a child of
`fork` whose start function has not run yet. -/
structure Task where
  state : TState
  tid : Nat
  parentTid : Nat
  cr3 : Nat
  arg : Option Nat
  stackBase : Nat
  vm : UserVm

/-- The thread table, the heap's end and the memory. -/
structure Sys where
  vmm : VmmState
  threads : Fin 32 → Task
  cur : Fin 32
  nextTid : Nat
  nextPageVirt : Nat

def Sys.current (σ : Sys) : Task := σ.threads σ.cur

def Sys.setTask (σ : Sys) (i : Fin 32) (t : Task) : Sys :=
  { σ with threads := Function.update σ.threads i t }

/-! ### Giving back an address space -/

def noMap : UserMap := ⟨0, 0, false⟩

/-- `thread_user_maps_zero`. -/
def userMapsZero (u : UserVm) : UserVm := { u with maps := List.replicate 8 noMap }

/-- `thread_user_cleanup`: the recorded ranges are unmapped in the page map that
is loaded. -/
def userCleanup (s : VmmState) (u : UserVm) : VmmState × UserVm :=
  (u.maps.foldl (fun s m => if m.inUse then (vmmUnmapRangeAndFree s m.base m.size).2 else s) s,
    { u with maps := u.maps.map fun m => if m.inUse then noMap else m })

/-- `THREAD_STACK_SIZE`. -/
def threadStackSize : Nat := 16 * 1024

/-- What `thread_reap_dead` does to the memory for one dead thread. -/
def reapMemory (s : VmmState) (t : Task) : VmmState :=
  let s :=
    if t.cr3 ≠ 0 then
      if t.cr3 ≠ s.kernelCr3 then vmmDestroyUserPagemap s t.cr3 else s
    else (userCleanup s t.vm).1
  if t.stackBase ≠ 0 then (vmmUnmapRangeAndFree s t.stackBase threadStackSize).2 else s

/-- One turn of the loop of `thread_reap_dead`. -/
def reapSlot (σ : Sys) (i : Fin 32) : Sys :=
  let t := σ.threads i
  if t.state ≠ .dead then σ
  else if i = σ.cur then σ
  else
    { σ with vmm := reapMemory σ.vmm t }.setTask i
      { state := .unused, tid := 0, parentTid := 0, cr3 := 0, arg := none, stackBase := 0,
        vm := userMapsZero t.vm }

/-- The slots from 1 on. -/
def slots : List (Fin 32) := (List.finRange 32).tail

def threadReapDead (σ : Sys) : Sys := slots.foldl reapSlot σ

/-! ### Scheduling -/

/-- The switch at the end of `thread_yield`. -/
def switchTo (σ : Sys) (next : Fin 32) : Sys :=
  let prev := σ.current
  let σ := if prev.state = .running then σ.setTask σ.cur { prev with state := .ready } else σ
  let t := σ.threads next
  let σ := σ.setTask next { t with state := .running }
  { σ with
    cur := next
    vmm := vmmSwitchTo σ.vmm (if t.cr3 ≠ 0 then t.cr3 else σ.vmm.kernelCr3) }

/-- `thread_yield`. The thread that is picked is ready; `none` is picked when no
thread is. -/
def threadYield (σ : Sys) (pick : Option (Fin 32)) : Option Sys :=
  let σ := threadReapDead σ
  match pick with
  | none => if ∀ i, (σ.threads i).state ≠ .ready then some σ else none
  | some i => if (σ.threads i).state = .ready then some (switchTo σ i) else none

/-- The start function of a child of `fork`, `fork_child_fn`. -/
def forkChildFn (σ : Sys) : Option Sys :=
  match σ.current.arg with
  | none => none
  | some root =>
      let σ := σ.setTask σ.cur { σ.current with cr3 := root, arg := none }
      some { σ with vmm := vmmSwitchTo σ.vmm root }

/-- Whether the parent of a thread is there to collect its exit status. -/
def goZombie (σ : Sys) (t : Task) : Bool :=
  t.parentTid ≠ 0 && (List.finRange 32).any fun i =>
    let p := σ.threads i
    p.tid = t.parentTid && p.state ≠ .unused && p.state ≠ .dead && p.state ≠ .zombie

/-- `thread_exit` up to its loop. -/
def exitCurrent (σ : Sys) : Sys :=
  let t := σ.current
  let r :=
    if t.cr3 ≠ 0 then
      (vmmDestroyUserPagemap (vmmSwitchTo σ.vmm σ.vmm.kernelCr3) t.cr3, userMapsZero t.vm)
    else userCleanup σ.vmm t.vm
  { σ with vmm := r.1 }.setTask σ.cur
    { t with cr3 := 0, vm := r.2, state := if goZombie σ t then .zombie else .dead }

/-- `thread_exit`. -/
def threadExit (σ : Sys) (pick : Option (Fin 32)) : Option Sys := threadYield (exitCurrent σ) pick

/-- `thread_kill`. Slot 0 is the main thread. -/
def threadKill (σ : Sys) (slot : Fin 32) (pick : Option (Fin 32)) : Option Sys :=
  let t := σ.threads slot
  if slot = 0 then some σ
  else if t.state = .unused then some σ
  else if t.state = .dead then some σ
  else
    let σ := σ.setTask slot { t with state := .dead }
    if slot = σ.cur then threadYield σ pick else some σ

/-- `thread_reap_zombie_child` for the child in a slot. -/
def reapZombieChild (σ : Sys) (slot : Fin 32) : Sys :=
  let t := σ.threads slot
  if t.parentTid = σ.current.tid ∧ t.state = .zombie then
    σ.setTask slot { t with state := .dead }
  else σ

/-! ### The heap -/

/-- The first page the heap maps, `heap_usable_base`. -/
def heapUsableBase : Nat := 0xffff910000000000 + pageSize

/-- `heap_usable_end`, 64 MiB later. -/
def heapUsableEnd : Nat := heapUsableBase + 64 * 1024 * 1024

/-- `heap_map_fresh_page`. -/
def heapMapFreshPage (σ : Sys) : Option Sys :=
  if heapUsableEnd ≤ σ.nextPageVirt then none
  else
    let r := allocPage σ.vmm
    if r.1 = 0 then none
    else
      let m := vmmMapPage r.2 σ.nextPageVirt r.1 vmmWrite
      if m.1 then some { σ with vmm := m.2, nextPageVirt := σ.nextPageVirt + pageSize } else none

/-- How `kmalloc` serves a request for a small block. -/
inductive Kmalloc
  | null
  | reuse
  | fresh
  deriving DecidableEq, Repr

/-- `kmalloc` of a small block: whether there is a block. -/
def kmalloc (σ : Sys) : Kmalloc → Option (Bool × Sys)
  | .null => some (false, σ)
  | .reuse => some (true, σ)
  | .fresh => (heapMapFreshPage σ).map fun σ => (true, σ)

/-- The number of pages `kmalloc_aligned` takes for a kernel stack and the
header before it. -/
def stackPages : Nat := (threadStackSize + 16 + pageSize - 1) / pageSize

/-- `kmalloc_aligned` of a kernel stack; `0` when there are no pages. -/
def kmallocStack (σ : Sys) : Option (Nat × Sys) :=
  let v := alignDown σ.nextPageVirt
  let vend := u64 (v + stackPages * pageSize)
  if heapUsableEnd < vend then none
  else
    let r := pmmAllocPages σ.vmm.pmm stackPages
    let s := { σ.vmm with pmm := r.2 }
    if r.1 = 0 then some (0, { σ with vmm := s })
    else
      let m := vmmMapRange s v r.1 (stackPages * pageSize) vmmWrite
      if m.1 then some (v + 16, { σ with vmm := m.2, nextPageVirt := vend }) else none

/-! ### New threads -/

def findFreeSlot (σ : Sys) : Option (Fin 32) :=
  slots.find? fun i => (σ.threads i).state = .unused || (σ.threads i).state = .dead

/-- What a new thread records about its user memory. -/
def newVm : UserVm where
  brk := 0
  mmapNext := 0x0000600000000000
  maps := List.replicate 8 noMap
  brk_page := rfl
  brk_lt := by decide
  mmapNext_page := rfl
  mmapNext_lt := by decide

/-- `thread_create` with the start function `fork_child_fn`. It does not set
`cr3`. -/
def threadCreate (σ : Sys) (child : Nat) : Option (Option (Fin 32) × Sys) :=
  let σ := threadReapDead σ
  match findFreeSlot σ with
  | none => some (none, σ)
  | some i =>
      match kmallocStack σ with
      | none => none
      | some (stack, σ) =>
          if stack = 0 then some (none, σ)
          else
            let σ := σ.setTask i
              { σ.threads i with
                state := .ready, tid := σ.nextTid, parentTid := 0, arg := some child,
                stackBase := stack, vm := newVm }
            some (some i, { σ with nextTid := σ.nextTid + 1 })

/-- `do_fork` up to `thread_create`. The answer `0` is a failure. -/
def forkPrepare (σ : Sys) (m : Kmalloc) : Option (Nat × Sys) :=
  let parent := σ.current.cr3
  if parent = 0 then some (0, σ)
  else
    let c := clonePagemap σ.vmm parent
    let σ := { σ with vmm := c.2 }
    if c.1 = 0 then some (0, σ)
    else
      match kmalloc σ m with
      | none => none
      | some (false, σ) => some (0, { σ with vmm := vmmDestroyUserPagemap σ.vmm c.1 })
      | some (true, σ) => some (c.1, σ)

/-- `do_fork`. -/
def doFork (σ : Sys) (m : Kmalloc) : Option Sys :=
  match forkPrepare σ m with
  | none => none
  | some (child, σ) =>
      if child = 0 then some σ
      else
        match threadCreate σ child with
        | none => none
        | some (none, σ) => some { σ with vmm := vmmDestroyUserPagemap σ.vmm child }
        | some (some i, σ) =>
            -- thread_set_parent_for_slot and thread_fork_inherit_slot
            some (σ.setTask i
              { σ.threads i with parentTid := σ.current.tid, vm := σ.current.vm })

/-! ### Steps -/

/-- What happens next, always in the thread that runs. -/
inductive Act
  | fork (m : Kmalloc)
  | start
  | yield (pick : Option (Fin 32))
  | kill (slot : Fin 32) (pick : Option (Fin 32))
  | exit (pick : Option (Fin 32))
  | collect (slot : Fin 32)
  | reap
  deriving DecidableEq, Repr

/-- A thread that has not come to `fork_child_fn` can only be interrupted, by the
timer, or go on to it. -/
def act (σ : Sys) : Act → Option Sys
  | .start => forkChildFn σ
  | .yield pick => threadYield σ pick
  | .fork m => if σ.current.arg.isSome then none else doFork σ m
  | .kill slot pick => if σ.current.arg.isSome then none else threadKill σ slot pick
  | .exit pick => if σ.current.arg.isSome then none else threadExit σ pick
  | .collect slot => if σ.current.arg.isSome then none else some (reapZombieChild σ slot)
  | .reap => if σ.current.arg.isSome then none else some (threadReapDead σ)

/-- One step. What cannot happen, and what ends in a panic, changes nothing. -/
def threadStep (σ : Sys) (a : Act) : Sys := (act σ a).getD σ

end FiFi.Thread
