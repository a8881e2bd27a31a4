import FiFi.Ext2.Calls
import FiFi.Ext2.Listing
import FiFi.Vfs.Path
import FiFi.Vfs.Ramfs

/-!
# The three layers of the VFS

`vfs.c` looks a name up in the session files, then in the initrd, then on the
ext2 volume. Leading slashes are dropped for the first two; the volume gets the
path with one slash in front, cut to 257 bytes.

A file of the volume is read into one static buffer of 64 KiB, which is asked for
when it is first needed. What `kmalloc` returns and the time of day come from
outside. A result of zero is `true`, a result of -1 is `false`.
-/

namespace FiFi.Vfs

open FiFi.Fd

/-- A file of the initrd; its data are in the boot image. -/
structure InitrdFile where
  name : List UInt8
  data : Buf
  deriving DecidableEq, Repr

/-- The state of the layers, and `g_ext2_buf`. -/
structure Vfs where
  ramfs : Ramfs
  initrd : List InitrdFile
  ext2 : Ext2.Fs
  ext2Buf : Option Buf

/-- The driver's static storage, as it stays without a disk. -/
def noVolume : Ext2.Fs where
  ready := false
  img := ⟨⟨0, 0, 0, 0, 0, 0⟩, fun _ => ⟨0, 0, 0, 0, 0, fun _ => 0⟩, fun _ _ => 0⟩
  io := fun _ => 0
  ind := fun _ => 0

/-- The layers at boot, without a disk. -/
def Vfs.boot (initrd : List InitrdFile) : Vfs := ⟨ramfsInit, initrd, noVolume, none⟩

/-- `EXT2_BUF_CAP`. -/
def ext2BufCap : Nat := 65536

/-- `vfs_norm_path`. -/
def vfsNormPath (path : List UInt8) : List UInt8 := path.dropWhile (· = slash)

/-- The absolute path that the volume gets for a name. -/
def fullPath (n : List UInt8) : List UInt8 := slash :: n.take 256

/-- `initrd_get`: the pointer and the size. -/
def initrdGet (files : List InitrdFile) (name : List UInt8) : Option (Option Buf × Nat) :=
  (files.find? fun f => rfStreq f.name name).map fun f => (some f.data, f.data.bytes.length)

/-- The read buffer, which is asked for if it is not there. -/
def Vfs.buffer (s : Vfs) (kmalloc : Option Nat) : Option Buf :=
  match s.ext2Buf with
  | some b => some b
  | none => kmalloc.map fun a => ⟨a, List.replicate ext2BufCap 0⟩

/-- The bytes are stored at the start of the buffer. -/
def Buf.put (b : Buf) (bytes : List UInt8) : Buf :=
  { b with bytes := bytes ++ b.bytes.drop bytes.length }

/-- The part of `vfs_read` that reads from the volume. -/
def vfsReadExt2 (s : Vfs) (n : List UInt8) (kmalloc : Option Nat) :
    Option (Option Buf × Nat) × Vfs :=
  match s.buffer kmalloc with
  | none => (none, s)
  | some buf =>
      match Ext2.readFile s.ext2 (fullPath n) ext2BufCap with
      | (none, ext2) => (none, { s with ext2 := ext2, ext2Buf := some buf })
      | (some got, ext2) =>
          (some (some (buf.put got), got.length),
            { s with ext2 := ext2, ext2Buf := some (buf.put got) })

/-- `vfs_read`: the pointer and the size. -/
def vfsRead (s : Vfs) (path : List UInt8) (kmalloc : Option Nat) :
    Option (Option Buf × Nat) × Vfs :=
  let n := vfsNormPath path
  if n = [] then (none, s)
  else
    match ramfsGet s.ramfs n with
    | some r => (some r, s)
    | none =>
        match initrdGet s.initrd n with
        | some r => (some r, s)
        | none => if s.ext2.ready then vfsReadExt2 s n kmalloc else (none, s)

/-- The conversion of a size to `int`. -/
def cInt (n : Nat) : Int :=
  if n % 2 ^ 32 < 2 ^ 31 then (n % 2 ^ 32 : Nat) else (n % 2 ^ 32 : Nat) - 2 ^ 32

/-- `vfs_filesize`. The initrd is not looked at. -/
def vfsFilesize (s : Vfs) (path : List UInt8) : Int × Vfs :=
  let n := vfsNormPath path
  if n = [] then (-1, s)
  else
    match ramfsGet s.ramfs n with
    | some r => (cInt r.2, s)
    | none =>
        if s.ext2.ready then
          match Ext2.fileSize s.ext2 (fullPath n) with
          | (none, ext2) => (-1, { s with ext2 := ext2 })
          | (some size, ext2) => (cInt size, { s with ext2 := ext2 })
        else (-1, s)

/-- `vfs_isdir`. -/
def vfsIsdir (s : Vfs) (path : List UInt8) : Bool × Vfs :=
  let n := vfsNormPath path
  if n = [] then (true, s)
  else if s.ext2.ready then
    let r := Ext2.isdir s.ext2 (fullPath n)
    (r.1, { s with ext2 := r.2 })
  else (false, s)

/-- `vfs_mkdir`. -/
def vfsMkdir (s : Vfs) (path : List UInt8) (now : Nat) : Bool × Vfs :=
  let n := vfsNormPath path
  if s.ext2.ready = false ∨ n = [] then (false, s)
  else
    let r := Ext2.mkdir s.ext2 (fullPath n) now
    (r.1, { s with ext2 := r.2 })

/-- `vfs_delete`. -/
def vfsDelete (s : Vfs) (path : List UInt8) : Bool × Vfs :=
  let n := vfsNormPath path
  if n = [] then (false, s)
  else
    let s := { s with ramfs := (ramfsDelete s.ramfs n).1 }
    if s.ext2.ready then
      let r := Ext2.deleteFile s.ext2 (fullPath n)
      (r.1, { s with ext2 := r.2 })
    else (true, s)

/-- `vfs_mkdirs`: the directories on the way to a path are made if they are not
there. -/
def vfsMkdirs (s : Ext2.Fs) (path : List UInt8) (now : Nat) : Ext2.Fs :=
  let tmp := path.take 257
  ((List.range tmp.length).filter fun j => 1 ≤ j && tmp[j]? == some slash).foldl
    (fun s j =>
      let r := Ext2.isdir s (tmp.take j)
      if r.1 then r.2 else (Ext2.mkdir r.2 (tmp.take j) now).2) s

/-- `vfs_write`. The volume is only written from a buffer that is there. -/
def vfsWrite (s : Vfs) (path : List UInt8) (src : Source) (kmalloc : Option Nat) (now : Nat) :
    Bool × Vfs :=
  let n := vfsNormPath path
  if n = [] then (false, s)
  else if s.ext2.ready then
    let ext2 := vfsMkdirs s.ext2 (fullPath n) now
    let r := Ext2.writeFile ext2 (fullPath n) src.content now
    (r.1, { s with ext2 := r.2 })
  else
    let r := ramfsWrite s.ramfs n src kmalloc
    (r.2 = 0, { s with ramfs := r.1 })

/-! ### Listing -/

/-- `sizeof(g_list_tmp)`. -/
def listTmp : Nat := 8192

/-- `ramfs_ls_buf`. -/
def ramfsLsBuf (s : Ramfs) (cap : Nat) : List UInt8 :=
  (((List.finRange ramfsMaxFiles).filter fun i => (s i).used).map fun i => (s i).name).foldl
    (Ext2.appendLine cap) []

/-- `initrd_ls_buf`. -/
def initrdLsBuf (files : List InitrdFile) (cap : Nat) : List UInt8 :=
  (files.map InitrdFile.name).foldl (Ext2.appendLine cap) []

/-- `vfs_name_seen`: the name is a line of the buffer. -/
def vfsNameSeen (buf name : List UInt8) : Bool :=
  (List.range (buf.length - name.length)).any fun i =>
    (i == 0 || buf[i - 1]? == some Ext2.newline) && buf[i + name.length]? == some Ext2.newline &&
      (buf.drop i).take name.length == name

/-- The loop of `vfs_list` over the lines that were collected. -/
def addLine (cap : Nat) (buf name : List UInt8) : List UInt8 :=
  if !vfsNameSeen buf name && buf.length + name.length + 1 < cap then buf ++ name ++ [Ext2.newline]
  else buf

/-- `vfs_list`. -/
def vfsList (s : Vfs) (cap : Nat) : List UInt8 × Vfs :=
  if cap = 0 then ([], s)
  else
    let raw := ramfsLsBuf s.ramfs listTmp
    let raw := raw ++ initrdLsBuf s.initrd (listTmp - raw.length)
    let r := if s.ext2.ready then Ext2.lsBuf s.ext2 (listTmp - raw.length) else ([], s.ext2)
    (((raw ++ r.1).splitOn Ext2.newline).dropLast.foldl (addLine cap) [], { s with ext2 := r.2 })

/-- `vfs_listdir`. Only the strings `""` and `"/"` are the root of all layers. -/
def vfsListdir (s : Vfs) (path : List UInt8) (cap : Nat) : List UInt8 × Vfs :=
  if cap = 0 then ([], s)
  else if path = [] ∨ path = [slash] then vfsList s cap
  else if s.ext2.ready then
    let full := if path.head? = some slash then path.take 257 else slash :: path.take 256
    let r := Ext2.lsBufAt s.ext2 full cap
    (r.1, { s with ext2 := r.2 })
  else ([], s)

end FiFi.Vfs
