import FiFi.Exec.Fidelity
import FiFi.Library.Traced
import FiFi.Syscall.Undisturbed
import FiFi.Vfs.Path

/-!
# Access to user memory

The places where the kernel follows an address that comes from a process:
`copyin_str`, `copyin_bytes` and `copyout_bytes`, the walks over the pointer
arrays of `SYS_EXEC`, and the push of the return address for a signal handler.
Each is a computation that records its accesses, with the machine as it is at
that moment. An access to an address without a translation is a fault, which
stops the kernel.

An access is valid when all of its bytes lie below `FIFI_USER_TOP` and the
processor reaches them through four entries that allow it. The copying functions
make valid accesses only. The other two places check the entries and not the
address; the entries are found with bits 12 to 47 of it.
-/

namespace FiFi.Syscall

open Pmm Vmm Exec Vfs

/-! ### Accesses -/

/-- An access to user memory, and the machine on which it is made. -/
structure Touch where
  vmm : VmmState
  addr : Nat
  size : Nat
  write : Bool

/-- The entries of the four levels on the way to an address. -/
def hwEntries (mem : Nat → Nat) (root v : Nat) : List Nat :=
  let e1 := entry mem root (idxPml4 v)
  let e2 := entry mem (ptePage e1) (idxPdpt v)
  let e3 := entry mem (ptePage e2) (idxPd v)
  [e1, e2, e3, entry mem (ptePage e3) (idxPt v)]

/-- The address is translated by four entries, all of which are present, user
accessible, and writable for a store. -/
def UserMapped (s : VmmState) (v : Nat) (write : Bool) : Prop :=
  (∃ e, hwTranslate s.mem s.cr3 v = some (1, e)) ∧
    ∀ e ∈ hwEntries s.mem s.cr3 v, entryOk e write = true

def Touch.Valid (t : Touch) : Prop :=
  ∀ i < t.size, t.addr + i < userTop ∧ UserMapped t.vmm (t.addr + i) t.write

abbrev UserM := Traced Unit VmmState Touch

/-- The byte at an address, if the processor can read it. -/
def byteAt (s : VmmState) (a : Nat) : Option UInt8 := if canonical a then userByte s a else none

def touchUser (a size : Nat) (write : Bool) : UserM Unit :=
  Traced.emit fun s => ⟨s, a, size, write⟩

/-- A value that has been read, or a fault. -/
def orFault {α : Type} (o : Option α) : UserM α :=
  match o with
  | some a => pure a
  | none => Traced.throw ()

def loadByte (a : Nat) : UserM UInt8 := do
  touchUser a 1 false
  orFault (byteAt (← Traced.get) a)

def loadWord (a : Nat) : UserM Nat := do
  touchUser a 8 false
  orFault (leAt (byteAt (← Traced.get)) a 8)

/-- The machine after a byte has been stored. -/
def putByte (s : VmmState) (a : Nat) (b : UInt8) : Option VmmState :=
  let phys := vmmTranslate s a
  let w := phys / 8 * 8
  if !canonical a || phys = 0 then none
  else some (s.withMem (Function.update s.mem w (setByte (s.mem w) (phys % 8) b)))

def putBytes (s : VmmState) (a : Nat) : List UInt8 → Option VmmState
  | [] => some s
  | b :: bs => (putByte s a b).bind fun s => putBytes s (u64 (a + 1)) bs

def storeUser (a : Nat) (bs : List UInt8) : UserM Unit := do
  touchUser a bs.length true
  let s ← orFault (putBytes (← Traced.get) a bs)
  Traced.modify fun _ => s

/-! ### The copying functions -/

/-- The loop of `copyin_str` from byte `i` on, with room for `n` more bytes. -/
def copyinStrFrom (uaddr : Nat) : Nat → Nat → UserM (Option (List UInt8))
  | 0, _ => pure (some [])
  | n + 1, i => do
      let a := u64 (uaddr + i)
      if a ≥ userTop then return none
      if !vmmUserAccessible (← Traced.get) a 1 false then return none
      let c ← loadByte a
      if c = 0 then return some []
      return (← copyinStrFrom uaddr n (i + 1)).map (c :: ·)

/-- `copyin_str` into a buffer of `cap` bytes. The answer is the string, cut off to
fit the buffer. -/
def copyinStr (cap uaddr : Nat) : UserM (Option (List UInt8)) :=
  if cap = 0 then pure none
  else if uaddr = 0 then pure none
  else if uaddr ≥ userTop then pure none
  else copyinStrFrom uaddr (cap - 1) 0

/-- The loop of `copyin_bytes`. -/
def loadBytes (uaddr : Nat) : Nat → UserM (List UInt8)
  | 0 => pure []
  | n + 1 => do
      let bs ← loadBytes uaddr n
      let b ← loadByte (u64 (uaddr + n))
      return bs ++ [b]

/-- The checks `copyin_bytes` and `copyout_bytes` make on a range. -/
def userRangeOk (s : VmmState) (uaddr n : Nat) (write : Bool) : Bool :=
  let stop := u64 (uaddr + n)
  uaddr ≠ 0 && !(stop < uaddr) && !(uaddr ≥ userTop) && !(stop > userTop) &&
    vmmUserAccessible s uaddr n write

/-- `copyin_bytes` into a buffer of `cap` bytes. -/
def copyinBytes (cap uaddr n : Nat) : UserM (Option (List UInt8)) := do
  if cap = 0 then return none
  let n := if n > cap then cap else n
  if n = 0 then return some []
  if !userRangeOk (← Traced.get) uaddr n false then return none
  return some (← loadBytes uaddr n)

/-- The loop of `copyout_bytes`. -/
def storeBytes (uaddr : Nat) (src : List UInt8) : Nat → UserM Unit
  | 0 => pure ()
  | n + 1 => do
      storeBytes uaddr src n
      storeUser (u64 (uaddr + n)) [src.getD n 0]

/-- `copyout_bytes`. -/
def copyoutBytes (uaddr : Nat) (src : List UInt8) : UserM (Option Nat) := do
  if src.length = 0 then return some 0
  if !userRangeOk (← Traced.get) uaddr src.length true then return none
  storeBytes uaddr src src.length
  return some src.length

/-! ### `SYS_EXEC` -/

/-- The address of slot `i` of an array of pointers. -/
def slot (u i : Nat) : Nat := u64 (u + i * 8)

/-- The walk over an array of strings from slot `i` on, for at most `n` slots. A
string is copied to a buffer of `len` bytes. -/
def walkStrings (len u : Nat) : Nat → Nat → UserM (List (List UInt8))
  | 0, _ => pure []
  | n + 1, i => do
      if !vmmUserAccessible (← Traced.get) (slot u i) 8 false then return []
      let ustr ← loadWord (slot u i)
      if ustr = 0 then return []
      match ← copyinStr len ustr with
      | none => return []
      | some str => return str :: (← walkStrings len u n (i + 1))

def copyStrings (n len u : Nat) : UserM (List (List UInt8)) :=
  if u = 0 then pure [] else walkStrings len u n 0

/-- `SYS_EXEC` up to the call of `exec_load`: the path and the strings. -/
def sysExecCopy (cwd : List UInt8) (upath uargv uenvp : Nat) :
    UserM (Option (List UInt8 × List (List UInt8) × List (List UInt8))) := do
  match ← copyinStr 256 upath with
  | none => return none
  | some raw =>
      match pathResolve 256 cwd raw with
      | none => return none
      | some path =>
          let args ← copyStrings 8 128 uargv
          let env ← copyStrings 24 192 uenvp
          return some (path, args, env)

/-! ### Signals -/

/-- Where the return address of a signal handler goes. -/
def signalSlot (ctx : IsrCtx) : Nat := u64 (2 ^ 64 + ctx.userRsp - 8)

/-- The delivery of a pending signal on the return to user mode, as far as it goes
to a handler. Ignoring the signal and its default action touch no user memory. -/
def deliverSignal (ctx : IsrCtx) (sig : Int) (handler : Nat) : UserM IsrCtx := do
  if ctx.cs % 4 = 3 ∧ 0 < sig ∧ sig < 32 ∧ handler > 1 then
    if vmmUserAccessible (← Traced.get) (signalSlot ctx) 8 true then
      storeUser (signalSlot ctx) (leBytes 8 ctx.rip)
      return { ctx with userRsp := signalSlot ctx, rdi := sig.toNat, rip := handler }
    else return ctx
  else return ctx

/-! ### All of them -/

/-- A place where the kernel follows user addresses, with what it gets from the
process. -/
inductive UserOp
  | copyinStr (cap : Nat) (uaddr : UInt64)
  | copyinBytes (cap : Nat) (uaddr n : UInt64)
  | copyoutBytes (uaddr : UInt64) (src : List UInt8) (hsrc : src.length < 2 ^ 64)
  | exec (cwd : List UInt8) (upath uargv uenvp : UInt64)
  | signal (ctx : IsrCtx) (sig : Int) (handler : UInt64)

def UserOp.run : UserOp → UserM Unit
  | .copyinStr cap uaddr => do let _ ← Syscall.copyinStr cap uaddr.toNat
  | .copyinBytes cap uaddr n => do let _ ← Syscall.copyinBytes cap uaddr.toNat n.toNat
  | .copyoutBytes uaddr src _ => do let _ ← Syscall.copyoutBytes uaddr.toNat src
  | .exec cwd upath uargv uenvp => do
      let _ ← sysExecCopy cwd upath.toNat uargv.toNat uenvp.toNat
  | .signal ctx sig handler => do let _ ← deliverSignal ctx sig handler.toNat

end FiFi.Syscall
