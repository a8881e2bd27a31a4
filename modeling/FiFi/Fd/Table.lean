import Mathlib.Data.Fintype.Card
import Mathlib.Data.List.FinRange
import Mathlib.Logic.Function.Basic

/-!
# The descriptor table and the pipe pool

The kernel keeps one static array `g_fds` of descriptor entries for all
processes and one static pool `g_pipes` of pipes. An entry belongs to the pair
`(owner_tid, fd_num)` and is found by linear search; a pipe carries two counts,
the number of live read ends and the number of live write ends.

Pointers into the two static arrays are indices, so a null pointer is `none`.
Closing a write descriptor backed by a ramfs file flushes that file to disk;
the file system is not looked at here, so its state is a parameter `V` and the
flush is a function `flush` on it.
-/

namespace FiFi.Fd

/-- Capacity of one pipe (`PIPE_BUF`). -/
def pipeBuf : Nat := 4096

/-- Number of pipes in the pool (`PIPE_MAX`). -/
def pipeMax : Nat := 8

/-- Number of slots of the descriptor table (`SYS_FD_MAX`). -/
def sysFdMax : Nat := 32

/-- Number of ramfs files (`RAMFS_MAX_FILES`). -/
def ramfsMaxFiles : Nat := 8

abbrev PipeId := Fin pipeMax

abbrev Slot := Fin sysFdMax

abbrev RamId := Fin ramfsMaxFiles

/-- A pipe of the pool (`pipe_t`): a ring buffer and the two end counts. -/
structure Pipe where
  buf : Fin pipeBuf → UInt8
  head : Nat
  nread : Nat
  ropen : Int
  wopen : Int

/-- The pool is static storage, so every pipe starts out zeroed. -/
def Pipe.zero : Pipe where
  buf := fun _ => 0
  head := 0
  nread := 0
  ropen := 0
  wopen := 0

/-- What a descriptor refers to (`FD_TYPE_*`). -/
inductive FdType
  | file
  | pipeR
  | pipeW
  | ramw
  | null
  deriving DecidableEq, Repr

/-- One entry of the descriptor table (`sys_fd_t`). -/
structure SysFd where
  used : Bool
  fdNum : Int
  ownerTid : Nat
  type : FdType
  data : Nat
  size : Nat
  off : Nat
  pipe : Option PipeId
  ramfile : Option RamId
  deriving DecidableEq, Repr

def SysFd.zero : SysFd where
  used := false
  fdNum := 0
  ownerTid := 0
  type := .file
  data := 0
  size := 0
  off := 0
  pipe := none
  ramfile := none

/-- The two static arrays, with the file system state beside them. -/
structure Tables (V : Type*) where
  pipes : PipeId → Pipe
  fds : Slot → SysFd
  vfs : V

/-- The state at boot. -/
def Tables.init {V : Type*} (v : V) : Tables V where
  pipes := fun _ => Pipe.zero
  fds := fun _ => SysFd.zero
  vfs := v

section Lookup

variable {V : Type*}

/-- The first entry of `(tid, n)`, as `fd_get` finds it. -/
def fdGet (s : Tables V) (tid : Nat) (n : Int) : Option Slot :=
  (List.finRange sysFdMax).find? fun i =>
    (s.fds i).used && (s.fds i).ownerTid == tid && (s.fds i).fdNum == n

/-- The lowest descriptor number from 3 on that `tid` does not use. -/
def fdNextNum (s : Tables V) (tid : Nat) : Option Int :=
  ((List.range' 3 253).map Int.ofNat).find? fun n => (fdGet s tid n).isNone

/-- The first unused slot of the table. Every operation that fills a slot looks
for it with the same loop. -/
def freeSlot (s : Tables V) : Option Slot :=
  (List.finRange sysFdMax).find? fun i => !(s.fds i).used

def setFd (s : Tables V) (i : Slot) (e : SysFd) : Tables V :=
  { s with fds := Function.update s.fds i e }

def setPipe (s : Tables V) (p : PipeId) (q : Pipe) : Tables V :=
  { s with pipes := Function.update s.pipes p q }

/-- Add `d` to the end count that the entry `e` stands for. This is the pair of
tests `type == FD_TYPE_PIPE_R && pipe` and `type == FD_TYPE_PIPE_W && pipe`
that `fd_close_entry`, `fd_fork_inherit` and `fd_dup2` repeat. -/
def addOpen (s : Tables V) (e : SysFd) (d : Int) : Tables V :=
  match e.type, e.pipe with
  | .pipeR, some p => setPipe s p { s.pipes p with ropen := (s.pipes p).ropen + d }
  | .pipeW, some p => setPipe s p { s.pipes p with wopen := (s.pipes p).wopen + d }
  | _, _ => s

/-- The first pipe with no live end, reset and with both counts at one. -/
def pipeAlloc (s : Tables V) : Option (PipeId × Tables V) :=
  ((List.finRange pipeMax).find? fun p =>
      (s.pipes p).ropen == 0 && (s.pipes p).wopen == 0).map fun p =>
    (p, setPipe s p { s.pipes p with head := 0, nread := 0, ropen := 1, wopen := 1 })

end Lookup

section Operations

variable {V : Type*} (flush : RamId → V → V)

/-- Release the entry in slot `i`. `flush r` is the `vfs_write` of the ramfs
file `r`, which happens only when the file is not empty. -/
def fdCloseEntry (s : Tables V) (i : Slot) : Tables V :=
  let e := s.fds i
  let s := addOpen s e (-1)
  let s := match e.type, e.ramfile with
    | .ramw, some r => { s with vfs := flush r s.vfs }
    | _, _ => s
  setFd s i SysFd.zero

def fdClose (s : Tables V) (tid : Nat) (n : Int) : Tables V :=
  match fdGet s tid n with
  | some i => fdCloseEntry flush s i
  | none => s

def fdCloseAll (s : Tables V) (tid : Nat) : Tables V :=
  (List.finRange sysFdMax).foldl
    (fun s i =>
      if (s.fds i).used && (s.fds i).ownerTid == tid then fdCloseEntry flush s i else s) s

/-- One turn of the loop of `fd_fork_inherit`: copy the parent's entry in slot
`i`, if there is one and a slot is free, to the child. -/
def fdInheritEntry (parent child : Nat) (s : Tables V) (i : Slot) : Tables V :=
  if (s.fds i).used && (s.fds i).ownerTid == parent then
    match freeSlot s with
    | some j => addOpen (setFd s j { s.fds i with ownerTid := child }) (s.fds i) 1
    | none => s
  else s

def fdForkInherit (s : Tables V) (parent child : Nat) : Tables V :=
  (List.finRange sysFdMax).foldl (fdInheritEntry parent child) s

/-- `fd_dup2`. The entry `*old` is read after `new` has been closed, so for
`old = new` it is the zeroed entry that is copied. -/
def fdDup2 (s : Tables V) (tid : Nat) (old new : Int) : Tables V × Int :=
  match fdGet s tid old with
  | none => (s, -1)
  | some k =>
      let s := fdClose flush s tid new
      match freeSlot s with
      | none => (s, -1)
      | some i =>
          let s := setFd s i { s.fds k with fdNum := new }
          (addOpen s (s.fds k) 1, new)

/-- Fill the first free slot for `tid` under the next descriptor number. `fill`
holds the fields in which `fd_alloc`, `fd_alloc_null` and the ramfs descriptors
of `SYS_CREAT` and `SYS_OPENW` differ. -/
def fdFill (s : Tables V) (tid : Nat) (fill : SysFd) : Tables V × Int :=
  match fdNextNum s tid with
  | none => (s, -1)
  | some n =>
      match freeSlot s with
      | none => (s, -1)
      | some i => (setFd s i { fill with used := true, fdNum := n, ownerTid := tid }, n)

def fdAlloc (s : Tables V) (tid data size : Nat) : Tables V × Int :=
  fdFill s tid { SysFd.zero with type := .file, data := data, size := size }

def fdAllocNull (s : Tables V) (tid : Nat) : Tables V × Int :=
  fdFill s tid { SysFd.zero with type := .null }

/-- The descriptor part of `SYS_CREAT` and `SYS_OPENW`, for the ramfs file
`rf`. -/
def fdAllocRamw (s : Tables V) (tid : Nat) (rf : RamId) : Tables V × Int :=
  fdFill s tid { SysFd.zero with type := .ramw, ramfile := some rf }

/-- `SYS_PIPE`. `copyout` tells whether writing the two numbers to user memory
succeeds. The read slot is reserved before the number of the write end is
chosen, and a missing write slot closes the read entry again. -/
def sysPipe (s : Tables V) (tid : Nat) (fromUser copyout : Bool) : Tables V × Int :=
  if !fromUser then (s, -1) else
  match pipeAlloc s with
  | none => (s, -1)
  | some (p, s) =>
      -- `pp->ropen = pp->wopen = 0` on the paths that give the pipe back
      let release := fun s : Tables V =>
        setPipe s p { s.pipes p with ropen := 0, wopen := 0 }
      match fdNextNum s tid with
      | none => (release s, -1)
      | some rfd =>
          match freeSlot s with
          | none => (release s, -1)
          | some r =>
              let s := setFd s r { s.fds r with used := true, fdNum := rfd, ownerTid := tid }
              match fdNextNum s tid with
              | none => (release (setFd s r { s.fds r with used := false }), -1)
              | some wfd =>
                  let s := setFd s r
                    { s.fds r with type := .pipeR, data := 0, size := 0, off := 0, pipe := some p }
                  match freeSlot s with
                  | none => (fdCloseEntry flush s r, -1)
                  | some w =>
                      let s := setFd s w
                        { s.fds w with
                          used := true, fdNum := wfd, ownerTid := tid, type := .pipeW,
                          data := 0, size := 0, off := 0, pipe := some p }
                      if copyout then (s, 0)
                      else (fdCloseEntry flush (fdCloseEntry flush s r) w, -1)

/-- `SYS_DUP`. Unlike `fd_dup2` it copies the entry by hand. -/
def sysDup (s : Tables V) (tid : Nat) (old : Int) : Tables V × Int :=
  match fdGet s tid old with
  | none => (s, -1)
  | some k =>
      match fdNextNum s tid with
      | none => (s, -1)
      | some n =>
          match freeSlot s with
          | none => (s, -1)
          | some i => (setFd s i { s.fds k with fdNum := n }, n)

/-- `SYS_DUP2`. Every negative result is returned as -1. -/
def sysDup2 (s : Tables V) (tid : Nat) (fromUser : Bool) (old new : Int) : Tables V × Int :=
  if !fromUser then (s, -1)
  else
    let (s, r) := fdDup2 flush s tid old new
    (s, if 0 ≤ r then r else -1)

def sysClose (s : Tables V) (tid : Nat) (fromUser : Bool) (n : Int) : Tables V × Int :=
  if !fromUser then (s, -1) else (fdClose flush s tid n, 0)

/-- The descriptor part of `SYS_FORK`; `child` is what `do_fork` returned. -/
def sysFork (s : Tables V) (parent : Nat) (child : Int) : Tables V × Int :=
  (if 0 < child then fdForkInherit s parent child.toNat else s, child)

end Operations

/-- The system calls that create, copy or drop descriptor entries, with the
calling thread and the values that come from outside the two tables. -/
inductive FdCall
  | pipe (tid : Nat) (fromUser copyout : Bool)
  | dup (tid : Nat) (old : Int)
  | dup2 (tid : Nat) (fromUser : Bool) (old new : Int)
  | fork (tid : Nat) (child : Int)
  | close (tid : Nat) (fromUser : Bool) (n : Int)
  | exit (tid : Nat)
  | open (tid data size : Nat)
  | openNull (tid : Nat)
  | creat (tid : Nat) (rf : RamId)

/-- The table state after one system call. The kernel enters a system call
through an interrupt gate and none of these handlers yields, so a call is one
step. -/
def fdStep {V : Type*} (flush : RamId → V → V) (s : Tables V) : FdCall → Tables V
  | .pipe tid fromUser copyout => (sysPipe flush s tid fromUser copyout).1
  | .dup tid old => (sysDup s tid old).1
  | .dup2 tid fromUser old new => (sysDup2 flush s tid fromUser old new).1
  | .fork tid child => (sysFork s tid child).1
  | .close tid fromUser n => (sysClose flush s tid fromUser n).1
  | .exit tid => fdCloseAll flush s tid
  | .open tid data size => (fdAlloc s tid data size).1
  | .openNull tid => (fdAllocNull s tid).1
  | .creat tid rf => (fdAllocRamw s tid rf).1

end FiFi.Fd
