import FiFi.Syscall.Memory

/-!
# Loading a program

`exec_load` replaces the address space of the running thread by the program in
an ELF file. It reads the file with `vfs_read` and checks the headers. Then it
destroys the old page map, creates a new one, and maps and fills the segments,
the trampoline and the stack.

A computation of type `ExecM` works on the machine, the thread and the saved
user context. It can stop in two ways: it jumps to the label `fail`, or it
touches an address without a translation, which halts the kernel. What lies in
memory behind the file's bytes is a parameter; a read there can fault too.
-/

namespace FiFi.Exec

open Pmm Vmm Syscall

/-- The saved context of a system call, `isr_ctx_t` with the stack pointer and
stack segment that the processor pushed above it. -/
structure IsrCtx where
  r15 : Nat
  r14 : Nat
  r13 : Nat
  r12 : Nat
  r11 : Nat
  r10 : Nat
  r9 : Nat
  r8 : Nat
  rsi : Nat
  rdi : Nat
  rbp : Nat
  rdx : Nat
  rcx : Nat
  rbx : Nat
  rax : Nat
  vector : Nat
  error : Nat
  rip : Nat
  cs : Nat
  rflags : Nat
  userRsp : Nat
  userSs : Nat
  deriving DecidableEq, Repr

/-- The machine, the fields of the running thread that `exec_load` uses, and the
saved context. -/
structure ExecState where
  vmm : VmmState
  curCr3 : Nat
  brk : Nat
  maps : List UserMap
  ctx : IsrCtx

/-- Why a computation stopped. -/
inductive Stop
  | fail
  | fault
  deriving DecidableEq, Repr

abbrev ExecM := ExceptT Stop (StateM ExecState)

/-- Run a function on the machine. -/
def onVmm {α : Type} (f : VmmState → α × VmmState) : ExecM α :=
  modifyGet fun st => ((f st.vmm).1, { st with vmm := (f st.vmm).2 })

/-- Perform `body 0`, …, `body (n - 1)`. -/
def execLoop (body : Nat → ExecM Unit) : Nat → ExecM Unit
  | 0 => pure ()
  | n + 1 => do
      execLoop body n
      body n

/-! ### Stores through the loaded page map -/

/-- The addresses a store can be made to. -/
def canonical (va : Nat) : Bool := va < 2 ^ 47 || 2 ^ 64 - 2 ^ 47 ≤ va

/-- Replace byte `i` of a word. -/
def setByte (word i : Nat) (b : UInt8) : Nat :=
  word / 256 ^ (i + 1) * 256 ^ (i + 1) + b.toNat * 256 ^ i + word % 256 ^ i

def storeByte (va : Nat) (b : UInt8) : ExecM Unit := do
  let phys := vmmTranslate (← get).vmm va
  if !canonical va || phys = 0 then throw .fault
  let w := phys / 8 * 8
  modify fun st =>
    { st with
      vmm := st.vmm.withMem (Function.update st.vmm.mem w (setByte (st.vmm.mem w) (phys % 8) b)) }

/-- Store a 64-bit value, lowest byte first. -/
def storeWord (va value : Nat) : ExecM Unit :=
  execLoop (fun i => storeByte (u64 (va + i)) (UInt8.ofNat (value / 256 ^ i))) 8

/-- `memzero_e`. -/
def memzero (va n : Nat) : ExecM Unit :=
  execLoop (fun i => storeByte (u64 (va + i)) 0) n

/-! ### Pages -/

/-- `(va + size + 0xFFF) & ~0xFFF`. -/
def rangeEnd (va size : Nat) : Nat := alignUp (u64 (va + size))

/-- One turn of `map_user_pages`: whatever is mapped at `v` is dropped, and a
fresh page is mapped and cleared. -/
def mapUserPage (start v flags : Nat) : ExecM Unit := do
  let _ ← onVmm (vmmUnmapPageAndFree · v)
  let phys ← onVmm allocPage
  if phys = 0 then
    let _ ← onVmm (vmmUnmapRangeAndFree · start (v - start))
    throw .fail
  let ok ← onVmm (vmmMapPage · v phys flags)
  if !ok then
    onVmm fun s => ((), freePage s phys)
    let _ ← onVmm (vmmUnmapRangeAndFree · start (v - start))
    throw .fail
  if !canonical v then throw .fault
  onVmm fun s => ((), zeroUserPage s v)

def mapUserPages (va size flags : Nat) : ExecM Unit := do
  let start := alignDown va
  let stop := rangeEnd va size
  execLoop (fun k => mapUserPage start (start + k * pageSize) flags) ((stop - start) / pageSize)
  modify fun st => { st with maps := userMapAdd st.maps start (u64 (2 ^ 64 + stop - start)) }

/-- One turn of `protect_user_pages`. -/
def protectUserPage (v flags : Nat) : ExecM Unit := do
  let phys := alignDown (vmmTranslate (← get).vmm v)
  if phys = 0 then throw .fail
  let ok ← onVmm (vmmMapPage · v phys flags)
  if !ok then throw .fail

def protectUserPages (va size flags : Nat) : ExecM Unit :=
  let start := alignDown va
  execLoop (fun k => protectUserPage (start + k * pageSize) flags)
    ((rangeEnd va size - start) / pageSize)

/-! ### The file -/

/-- The little-endian number in the `n` bytes from offset `off`. -/
def leAt (rd : Nat → Option UInt8) (off : Nat) : Nat → Option Nat
  | 0 => some 0
  | n + 1 =>
      match leAt rd off n, rd (u64 (off + n)) with
      | some x, some b => some (x + b.toNat * 256 ^ n)
      | _, _ => none

/-- The bytes of a file, with what lies behind them. -/
def fileByte (data : List UInt8) (outside : Nat → Option UInt8) (i : Nat) : Option UInt8 :=
  if i < data.length then data[i]? else outside i

/-- A field of the ELF header, which lies inside the file. -/
def headerField (data : List UInt8) (off n : Nat) : Nat :=
  (leAt (fun i => data[i]?) off n).getD 0

def ehdrSize : Nat := 64
def phdrSize : Nat := 56

def eMachine (data : List UInt8) : Nat := headerField data 18 2
def eEntry (data : List UInt8) : Nat := headerField data 24 8
def ePhoff (data : List UInt8) : Nat := headerField data 32 8
def ePhentsize (data : List UInt8) : Nat := headerField data 54 2
def ePhnum (data : List UInt8) : Nat := headerField data 56 2

/-- Steps 1 and 2 of `exec_load`: the checks that are made before anything is
changed. -/
def headerOk (data : List UInt8) : Bool :=
  ehdrSize ≤ data.length &&
    data[0]? == some 0x7f && data[1]? == some 0x45 && data[2]? == some 0x4c &&
    data[3]? == some 0x46 && data[4]? == some 2 && data[5]? == some 1 &&
    eMachine data == 62 && ePhoff data != 0 && ePhnum data != 0 &&
    u64 (ePhoff data + ePhnum data * ePhentsize data) ≤ data.length &&
    phdrSize ≤ ePhentsize data

/-- A field of a program header. A read that faults stops the kernel. -/
def phdrField (rd : Nat → Option UInt8) (off n : Nat) : ExecM Nat :=
  match leAt rd off n with
  | some x => pure x
  | none => throw .fault

def ptLoad : Nat := 1
def pfX : Nat := 1
def pfW : Nat := 2

/-- `memcpy_e` of file bytes to memory. -/
def copySegment (rd : Nat → Option UInt8) (va off n : Nat) : ExecM Unit :=
  execLoop (fun i =>
    match rd (u64 (off + i)) with
    | some b => storeByte (u64 (va + i)) b
    | none => throw .fault) n

/-- Step 4 for one program header: the segment is mapped writable, filled, and
then given its final permissions. -/
def loadSegment (rd : Nat → Option UInt8) (size ph : Nat) (brkInit : Nat) : ExecM Nat := do
  let pType ← phdrField rd ph 4
  if pType ≠ ptLoad then return brkInit
  let pFlags ← phdrField rd (ph + 4) 4
  let pOffset ← phdrField rd (ph + 8) 8
  let pVaddr ← phdrField rd (ph + 16) 8
  let pFilesz ← phdrField rd (ph + 32) 8
  let pMemsz ← phdrField rd (ph + 40) 8
  if u64 (pOffset + pFilesz) > size then throw .fail
  let flags := vmmUser ||| vmmWrite ||| (if pFlags &&& pfX = 0 then vmmNx else 0)
  mapUserPages pVaddr pMemsz flags
  copySegment rd pVaddr pOffset pFilesz
  if pMemsz > pFilesz then memzero (u64 (pVaddr + pFilesz)) (pMemsz - pFilesz)
  let final :=
    if pFlags &&& pfX ≠ 0 then vmmUser
    else vmmUser ||| (if pFlags &&& pfW ≠ 0 then vmmWrite else 0) ||| vmmNx
  protectUserPages pVaddr pMemsz final
  let segTop := rangeEnd pVaddr pMemsz
  return if segTop > brkInit then segTop else brkInit

/-- The loop of step 4. -/
def loadSegments (data : List UInt8) (rd : Nat → Option UInt8) : Nat → ExecM Nat
  | 0 => pure 0
  | n + 1 => do
      let brkInit ← loadSegments data rd n
      loadSegment rd data.length (u64 (ePhoff data + n * ePhentsize data)) brkInit

/-! ### The stack -/

def execMaxArgs : Nat := 8
def execMaxEnvp : Nat := 24

/-- Copy the strings `n - 1`, …, `0` with their terminators below `sp`. The
answer is the new stack pointer and the addresses, in the order of the strings. -/
def pushStrings (str : Nat → Option (List UInt8)) : Nat → Nat → ExecM (Nat × List Nat)
  | 0, sp => pure (sp, [])
  | n + 1, sp => do
      let s := ((str n).getD []) ++ [0]
      let sp := u64 (2 ^ 64 + sp - s.length)
      execLoop (fun j => storeByte (u64 (sp + j)) (s.getD j 0)) s.length
      let (sp', vas) ← pushStrings str n sp
      return (sp', vas ++ [sp])

/-- Store the words of a list below `sp`, the last one highest. -/
def pushWords : List Nat → Nat → ExecM Nat
  | [], sp => pure sp
  | w :: ws, sp => do
      let sp ← pushWords ws sp
      let sp := u64 (2 ^ 64 + sp - 8)
      storeWord sp w
      return sp

/-- The initial stack: the strings, the two pointer arrays with their null
entries, and the number of arguments. -/
def buildStack (argc : Nat) (argv : Nat → Option (List UInt8)) (envc : Nat)
    (envp : Nat → Option (List UInt8)) : ExecM Nat := do
  let (sp, envVas) ← pushStrings envp envc userStackTop
  let (sp, argVas) ← pushStrings argv argc sp
  let sp := sp / 8 * 8
  let sp ← pushWords (envVas ++ [0]) sp
  let sp ← pushWords (argVas ++ [0]) sp
  pushWords [argc] sp

/-! ### The program loader -/

def trampolineCode : List UInt8 := [0xCD, 0x80, 0xEB, 0xFC]

def userCs : Nat := 0x43
def userDs : Nat := 0x3B

/-- An `int` argument clamped to `[0, bound]`. -/
def clampCount (n : Int) (bound : Nat) : Nat := min n.toNat bound

/-- Steps 4 to 8, in the new page map. -/
def loadImage (data : List UInt8) (outside : Nat → Option UInt8) (argc : Int)
    (argv : Nat → Option (List UInt8)) (envc : Int) (envp : Nat → Option (List UInt8)) :
    ExecM Unit := do
  let brkInit ← loadSegments data (fileByte data outside) (ePhnum data)
  mapUserPages userTrampolineVa 0x1000 (vmmUser ||| vmmWrite)
  execLoop (fun i => storeByte (userTrampolineVa + i) (trampolineCode.getD i 0))
    trampolineCode.length
  protectUserPages userTrampolineVa 0x1000 vmmUser
  mapUserPages userStackBase (userStackTop - userStackBase) (vmmUser ||| vmmWrite ||| vmmNx)
  modify fun st => { st with brk := brkInit }
  modify fun st =>
    { st with
      ctx :=
        { st.ctx with
          rip := eEntry data, cs := userCs, rflags := 0x202
          rax := 0, rbx := 0, rcx := 0, rdx := 0, rsi := 0, rdi := 0, rbp := 0
          r8 := 0, r9 := 0, r10 := 0, r11 := 0, r12 := 0, r13 := 0, r14 := 0, r15 := 0 } }
  let sp ← buildStack (clampCount argc execMaxArgs) argv (clampCount envc execMaxEnvp) envp
  modify fun st => { st with ctx := { st.ctx with userRsp := sp, userSs := userDs } }

def zeroUserMaps (maps : List UserMap) : List UserMap := maps.map fun _ => ⟨0, 0, false⟩

/-- Leave the current page map of the thread, if it has one, and destroy it. -/
def dropPagemap (st : ExecState) : ExecState :=
  let s := vmmSwitchTo st.vmm st.vmm.kernelCr3
  { st with
    vmm := if st.curCr3 = 0 then s else vmmDestroyUserPagemap s st.curCr3
    curCr3 := 0
    maps := zeroUserMaps st.maps }

/-- What a call of `exec_load` leads to: a return value with the state, or a
fault. -/
inductive ExecResult
  | returned (value : Int) (st : ExecState)
  | fault

/-- `exec_load`. The file is what `vfs_read` found under the path. -/
def execLoad (st : ExecState) (file : Option (List UInt8)) (outside : Nat → Option UInt8)
    (argc : Int) (argv : Nat → Option (List UInt8)) (envc : Int)
    (envp : Nat → Option (List UInt8)) : ExecResult :=
  match file with
  | none => .returned (-1) st
  | some data =>
      if !headerOk data then .returned (-1) st
      else
        let st := if st.curCr3 ≠ 0 then dropPagemap st else st
        let r := vmmCreateUserPagemap st.vmm
        if r.1 = 0 then .returned (-1) { st with vmm := r.2 }
        else
          let st := { st with vmm := vmmSwitchTo r.2 r.1, curCr3 := r.1 }
          match (loadImage data outside argc argv envc envp).run.run st with
          | (.ok (), st) => .returned 0 st
          | (.error .fault, _) => .fault
          | (.error .fail, st) => .returned (-1) (dropPagemap st)

end FiFi.Exec
