import FiFi.Fd.Table

/-!
# The session file system

`ramfs.c` keeps eight named files in static storage, each with a buffer from the
kernel heap. A string is the list of its bytes before the terminator. A name is
cut to 255 bytes when it is stored and compared in full when it is looked up.

A buffer carries its address and its bytes; whether `kmalloc` gives one, and
where, comes from outside. No caller passes a null name, so the tests for it are
left out.
-/

namespace FiFi.Vfs

open FiFi.Fd

/-- Size of the name field, with the terminator (`RAMFS_NAME_MAX`). -/
def ramfsNameMax : Nat := 256

/-- A block of the kernel heap. -/
structure Buf where
  addr : Nat
  bytes : List UInt8
  deriving DecidableEq, Repr

/-- `ramfs_entry_t`. The name fits its field. -/
structure RamfsEntry where
  name : List UInt8
  data : Option Buf
  size : Nat
  used : Bool
  fits : name.length < ramfsNameMax
  deriving DecidableEq

/-- `g_ramfs`. -/
abbrev Ramfs := RamId → RamfsEntry

/-- `rf_streq`. -/
def rfStreq : List UInt8 → List UInt8 → Bool
  | [], [] => true
  | a :: as, b :: bs => if a ≠ b then false else rfStreq as bs
  | _, _ => false

/-- `rf_strcpy`: what is stored of `src` in `cap` bytes. -/
def rfStrcpy (src : List UInt8) (cap : Nat) : List UInt8 := src.take (cap - 1)

/-- The search for a name that every function starts with. -/
def ramfsFind (s : Ramfs) (name : List UInt8) : Option RamId :=
  (List.finRange ramfsMaxFiles).find? fun i => (s i).used && rfStreq (s i).name name

/-- The search for a slot that is not used. -/
def ramfsFree (s : Ramfs) : Option RamId :=
  (List.finRange ramfsMaxFiles).find? fun i => !(s i).used

/-- The entry with its name replaced. -/
def RamfsEntry.rename (e : RamfsEntry) (name : List UInt8) : RamfsEntry where
  name := rfStrcpy name ramfsNameMax
  data := e.data
  size := e.size
  used := e.used
  fits := by
    simp only [rfStrcpy, ramfsNameMax, List.length_take]
    omega

/-- The entry as a free slot is filled with. -/
def RamfsEntry.fill (e : RamfsEntry) (name : List UInt8) : RamfsEntry :=
  { e with used := true, size := 0, data := none }.rename name

/-- `ramfs_creat`. -/
def ramfsCreat (s : Ramfs) (name : List UInt8) : Ramfs × Option RamId :=
  match ramfsFind s name with
  | some i => (Function.update s i { s i with data := none, size := 0 }, some i)
  | none =>
      match ramfsFree s with
      | some i => (Function.update s i ((s i).fill name), some i)
      | none => (s, none)

/-- `ramfs_preallocate`; `kmalloc` is the address the heap returns. The block is
zeroed. -/
def ramfsPreallocate (s : Ramfs) (i : RamId) (cap : Nat) (kmalloc : Option Nat) : Ramfs × Int :=
  if cap = 0 then (s, -1)
  else if (s i).data.isSome then (s, 0)
  else
    match kmalloc with
    | none => (s, -1)
    | some a =>
        (Function.update s i { s i with data := some ⟨a, List.replicate cap 0⟩, size := 0 }, 0)

/-- The arguments `data` and `len`: a null pointer with a length, or the bytes. -/
inductive Source
  | null (len : Nat)
  | bytes (bs : List UInt8)
  deriving DecidableEq, Repr

def Source.len : Source → Nat
  | .null n => n
  | .bytes bs => bs.length

/-- The bytes that are copied. -/
def Source.content : Source → List UInt8
  | .null _ => []
  | .bytes bs => bs

/-- `!data && len > 0`. -/
def Source.isBad : Source → Bool
  | .null n => 0 < n
  | .bytes _ => false

/-- The slot `ramfs_write` writes to, taken first if the name is new. -/
def ramfsWriteSlot (s : Ramfs) (name : List UInt8) : Ramfs × Option RamId :=
  match ramfsFind s name with
  | some i => (s, some i)
  | none =>
      match ramfsFree s with
      | some i => (Function.update s i ((s i).fill name), some i)
      | none => (s, none)

/-- The part of `ramfs_write` that works on the entry. The old buffer is freed
before the new one is asked for. -/
def RamfsEntry.store (e : RamfsEntry) (src : Source) (kmalloc : Option Nat) : RamfsEntry × Int :=
  let e := { e with data := none }
  if src.len = 0 then ({ e with size := 0 }, 0)
  else
    match kmalloc with
    | none => (e, -1)
    | some a => ({ e with data := some ⟨a, src.content⟩, size := src.len }, 0)

/-- `ramfs_write`. -/
def ramfsWrite (s : Ramfs) (name : List UInt8) (src : Source) (kmalloc : Option Nat) :
    Ramfs × Int :=
  if src.isBad then (s, -1)
  else
    match ramfsWriteSlot s name with
    | (s, none) => (s, -1)
    | (s, some i) =>
        let r := (s i).store src kmalloc
        (Function.update s i r.1, r.2)

/-- `ramfs_get`: the pointer and the size. -/
def ramfsGet (s : Ramfs) (name : List UInt8) : Option (Option Buf × Nat) :=
  (ramfsFind s name).map fun i => ((s i).data, (s i).size)

/-- `ramfs_rename`. The destination is not looked at. -/
def ramfsRename (s : Ramfs) (old new : List UInt8) : Ramfs × Int :=
  match ramfsFind s old with
  | some i => (Function.update s i ((s i).rename new), 0)
  | none => (s, -1)

/-- `ramfs_delete`. -/
def ramfsDelete (s : Ramfs) (name : List UInt8) : Ramfs × Int :=
  match ramfsFind s name with
  | some i => (Function.update s i { s i with data := none, used := false, size := 0 }, 0)
  | none => (s, -1)

/-- The entries are static storage. -/
def RamfsEntry.zero : RamfsEntry where
  name := []
  data := none
  size := 0
  used := false
  fits := by decide

def ramfsInit : Ramfs := fun _ => RamfsEntry.zero

/-- The operations that change the table. -/
inductive RamfsCall
  | creat (name : List UInt8)
  | write (name : List UInt8) (src : Source) (kmalloc : Option Nat)
  | rename (old new : List UInt8)
  | delete (name : List UInt8)

/-- The table after a call, and whether the call reports success. -/
def ramfsStep (s : Ramfs) : RamfsCall → Ramfs × Bool
  | .creat name => ((ramfsCreat s name).1, (ramfsCreat s name).2.isSome)
  | .write name src kmalloc =>
      ((ramfsWrite s name src kmalloc).1, (ramfsWrite s name src kmalloc).2 = 0)
  | .rename old new => ((ramfsRename s old new).1, (ramfsRename s old new).2 = 0)
  | .delete name => ((ramfsDelete s name).1, (ramfsDelete s name).2 = 0)

end FiFi.Vfs
