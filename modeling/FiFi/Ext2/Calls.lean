import FiFi.Ext2.Driver

/-!
# Writing to an ext2 volume

`ext2_write_file`, `ext2_mkdir` and `ext2_delete_file` with their helpers. The
blocks of a file that is overwritten are given back before new ones are taken,
and the inode is written at the end, so a write that runs out of blocks leaves
the old inode on the disk.
-/

namespace FiFi.Ext2

open ByteStore

/-! ### Directories -/

/-- The bytes an entry with a name of this length takes. -/
def entrySize (nameLen : Nat) : Nat := (8 + nameLen + 3) / 4 * 4

/-- What an entry occupies of its record. -/
def actualLen (b : Bytes) (p : Nat) : Nat :=
  if deInode b p ≠ 0 then entrySize (deNameLen b p) else 0

/-- What is left of the record of an entry. -/
def slack (b : Bytes) (p : Nat) : Nat :=
  if deInode b p ≠ 0 ∧ actualLen b p ≤ deRecLen b p then deRecLen b p - actualLen b p
  else deRecLen b p

/-- The entry of a block that has room for a new one. -/
def findSlot (b : Bytes) (size needed : Nat) : Option Nat :=
  (offsets b size).find? fun p => needed ≤ slack b p

/-- The inode, the type and the name of an entry. -/
def putEntry (b : Bytes) (p ino ftype : Nat) (name : List UInt8) : Bytes :=
  blit (put8 (put8 (put32 b p ino) (p + 6) name.length) (p + 7) ftype) (p + 8) name.length
    (ofList name)

/-- The new entry is put behind the one at `p`, whose record is cut, or in its
place if that one was deleted. -/
def insertAt (b : Bytes) (p ino ftype : Nat) (name : List UInt8) : Bytes :=
  if deInode b p ≠ 0 then
    let rest := deRecLen b p - actualLen b p
    let b' := put16 b (p + 4) (actualLen b p)
    putEntry (put16 b' (p + actualLen b p + 4) rest) (p + actualLen b p) ino ftype name
  else putEntry b p ino ftype name

/-- A block with one entry. -/
def newDirBlock (b : Bytes) (size ino ftype : Nat) (name : List UInt8) : Bytes :=
  putEntry (put16 (zeroTo b size) 4 size) 0 ino ftype name

/-- The loop of `e2_add_dirent` over the direct blocks. -/
def addDirentIn (s : Fs) (dirIno : Nat) (dir : Bytes) (name : List UInt8) (newIno ftype : Nat) :
    List Nat → Bool × Fs
  | [] => (false, s)
  | b :: bs =>
      if iBlock dir b = 0 then
        let r := allocBlock s
        if r.1 = 0 then (false, r.2)
        else
          let s := { r.2 with io := newDirBlock r.2.io r.2.blockSize newIno ftype name }
          let s := (writeBlock s r.1 s.io).2
          let dir := setBlock dir b r.1
          let dir := setBlocks dir (iBlocks dir + s.blockSize / 512)
          let dir := setSize dir (iSize dir + s.blockSize)
          writeInode s dirIno dir
      else
        let s := { s with io := s.img.disk (iBlock dir b) }
        match findSlot s.io s.blockSize (entrySize name.length) with
        | some p =>
            let s := { s with io := insertAt s.io p newIno ftype name }
            writeBlock s (iBlock dir b) s.io
        | none => addDirentIn s dirIno dir name newIno ftype bs

/-- `e2_add_dirent`. -/
def addDirent (s : Fs) (dirIno : Nat) (name : List UInt8) (newIno ftype : Nat) : Bool × Fs :=
  match readInode s dirIno with
  | (none, s) => (false, s)
  | (some dir, s) => addDirentIn s dirIno dir name newIno ftype direct

def removeDirentIn (s : Fs) (dir : Bytes) (name : List UInt8) : List Nat → Bool × Fs
  | [] => (false, s)
  | b :: bs =>
      if iBlock dir b = 0 then (false, s)
      else
        let s := { s with io := s.img.disk (iBlock dir b) }
        match findName s.io s.blockSize name with
        | some p =>
            let s := { s with io := put32 s.io p 0 }
            writeBlock s (iBlock dir b) s.io
        | none => removeDirentIn s dir name bs

/-- `e2_remove_dirent`. -/
def removeDirent (s : Fs) (dirIno : Nat) (name : List UInt8) : Bool × Fs :=
  match readInode s dirIno with
  | (none, s) => (false, s)
  | (some dir, s) => removeDirentIn s dir name direct

/-! ### Paths -/

/-- What follows the last slash. -/
def baseName (path : List UInt8) : List UInt8 :=
  (path.reverse.takeWhile fun c => c ≠ slash).reverse

/-- `e2_split_path`: the parent and the name, if the name is not empty and the
parent fits its buffer of 256 bytes. -/
def splitPath (path : List UInt8) : Option (List UInt8 × List UInt8) :=
  if path.head? ≠ some slash then none
  else
    let name := baseName path
    let last := path.length - name.length - 1
    if 256 < last + 1 then none
    else if name = [] then none
    else some (if last = 0 then [slash] else path.take last, name)

/-! ### Blocks of a file -/

/-- The direct blocks of a file are given back. -/
def freeDirect (s : Fs) (inode : Bytes) : List Nat → Bytes × Fs
  | [] => (inode, s)
  | b :: bs =>
      if iBlock inode b = 0 then (inode, s)
      else freeDirect (freeBlock s (iBlock inode b)) (setBlock inode b 0) bs

/-- The blocks of the pointers in the page `ind` are given back. -/
def freePointers (s : Fs) : List Nat → Fs
  | [] => s
  | i :: is =>
      if le32 s.ind (4 * i) = 0 then s else freePointers (freeBlock s (le32 s.ind (4 * i))) is

def freeIndirect (s : Fs) (inode : Bytes) : Bytes × Fs :=
  if iBlock inode 12 = 0 then (inode, s)
  else
    let r := readBlockInd s (iBlock inode 12)
    let s := if r.1 then freePointers r.2 r.2.img.geo.pointers else r.2
    (setBlock inode 12 0, freeBlock s (iBlock inode 12))

/-- A block is taken and a part of the file written to it; `0` if no block is
free. -/
def writeChunk (s : Fs) (chunk : List UInt8) : Nat × Fs :=
  let r := allocBlock s
  if r.1 = 0 then (0, r.2)
  else
    let s := { r.2 with io := blit (zeroTo r.2.io r.2.blockSize) 0 chunk.length (ofList chunk) }
    (r.1, (writeBlock s r.1 s.io).2)

/-- `i_blocks += block_size / 512`. -/
def countBlock (s : Fs) (inode : Bytes) : Bytes :=
  setBlocks inode (iBlocks inode + s.blockSize / 512)

/-- The loop over the direct blocks: the inode and the data that is left. -/
def writeDirect (s : Fs) (inode : Bytes) (data : List UInt8) :
    List Nat → Option (Bytes × List UInt8) × Fs
  | [] => (some (inode, data), s)
  | b :: bs =>
      if data = [] then (some (inode, data), s)
      else
        let r := writeChunk s (data.take s.blockSize)
        if r.1 = 0 then (none, r.2)
        else writeDirect r.2 (countBlock s (setBlock inode b r.1)) (data.drop s.blockSize) bs

/-- The loop over the pointers of the indirect block. -/
def writePointers (s : Fs) (inode : Bytes) (data : List UInt8) : List Nat → Option Bytes × Fs
  | [] => (some inode, s)
  | i :: is =>
      if data = [] then (some inode, s)
      else
        let r := writeChunk s (data.take s.blockSize)
        if r.1 = 0 then (none, r.2)
        else
          writePointers { r.2 with ind := put32 r.2.ind (4 * i) r.1 } (countBlock s inode)
            (data.drop s.blockSize) is

def writeIndirect (s : Fs) (inode : Bytes) (data : List UInt8) : Option Bytes × Fs :=
  if data = [] then (some inode, s)
  else
    let s := { s with ind := zeroTo s.ind s.blockSize }
    let r := allocBlock s
    if r.1 = 0 then (none, r.2)
    else
      match writePointers r.2 inode data r.2.img.geo.pointers with
      | (none, s) => (none, s)
      | (some inode, s) =>
          (some (countBlock s (setBlock inode 12 r.1)), (writeBlock s r.1 s.ind).2)

/-- The largest file. -/
def Geo.maxSize (g : Geo) : Nat := 12 * g.blockSize + g.blockSize / 4 * g.blockSize

/-- The inode of a new file: an empty regular file with one link. -/
def newFileInode : Bytes := put16 (put16 (fun _ => 0) 0 (0x8000 + 0o644)) 26 1

/-- The times of a file that was written. -/
def stampFile (inode : Bytes) (now : Nat) (isNew : Bool) : Bytes :=
  let inode := put32 (put32 inode 16 now) 8 now
  if isNew then put32 inode 12 now else inode

/-- The data, the inode and for a new file the entry. -/
def storeFile (s : Fs) (ino : Nat) (inode : Bytes) (isNew : Bool) (parentIno : Nat)
    (name data : List UInt8) (now : Nat) : Bool × Fs :=
  match writeDirect s inode data direct with
  | (none, s) => (false, s)
  | (some (inode, rest), s) =>
      match writeIndirect s inode rest with
      | (none, s) => (false, s)
      | (some inode, s) =>
          let r := writeInode s ino (stampFile (setSize inode data.length) now isNew)
          if !r.1 then (false, r.2)
          else if isNew then addDirent r.2 parentIno name ino 1
          else (true, r.2)

/-- `ext2_write_file` at the time `now`. -/
def writeFile (s : Fs) (path data : List UInt8) (now : Nat) : Bool × Fs :=
  if s.ready = false ∨ path.head? ≠ some slash then (false, s)
  else
    match splitPath path with
    | none => (false, s)
    | some (parent, name) =>
        let r := resolve s parent
        if r.1 = 0 then (false, r.2)
        else
          let data := data.take s.img.geo.maxSize
          let q := resolve r.2 path
          if q.1 ≠ 0 then
            match readInode q.2 q.1 with
            | (none, s) => (false, s)
            | (some inode, s) =>
                if !isFileMode inode then (false, s)
                else
                  let d := freeDirect s inode direct
                  let f := freeIndirect d.2 d.1
                  storeFile f.2 q.1 (setSize (setBlocks f.1 0) 0) false r.1 (name.take 255) data now
          else
            let a := allocInode q.2
            if a.1 = 0 then (false, a.2)
            else storeFile a.2 a.1 newFileInode true r.1 (name.take 255) data now

/-! ### Directories and deletion -/

/-- The inode of a new directory with the block `blk`. -/
def newDirInode (size blk now : Nat) : Bytes :=
  let i := put16 (put16 (fun _ => 0) 0 (0x4000 + 0o755)) 26 2
  let i := setBlock (setBlocks (setSize i size) (size / 512)) 0 blk
  put32 (put32 (put32 i 12 now) 16 now) 8 now

/-- The block of a new directory, with the entries `.` and `..`. -/
def dotBlock (b : Bytes) (size ino parentIno : Nat) : Bytes :=
  let b := putEntry (put16 (zeroTo b size) 4 12) 0 ino 2 [46]
  putEntry (put16 b 16 (size - 12)) 12 parentIno 2 [46, 46]

/-- `ext2_mkdir` at the time `now`. -/
def mkdir (s : Fs) (path : List UInt8) (now : Nat) : Bool × Fs :=
  if s.ready = false ∨ path.head? ≠ some slash then (false, s)
  else
    match splitPath path with
    | none => (false, s)
    | some (parent, name) =>
        let r := resolve s parent
        if r.1 = 0 then (false, r.2)
        else
          let q := resolve r.2 path
          if q.1 ≠ 0 then (false, q.2)
          else
            let a := allocInode q.2
            if a.1 = 0 then (false, a.2)
            else
              let k := allocBlock a.2
              if k.1 = 0 then (false, freeInode k.2 a.1)
              else
                let s := { k.2 with io := dotBlock k.2.io k.2.blockSize a.1 r.1 }
                let s := (writeBlock s k.1 s.io).2
                let w := writeInode s a.1 (newDirInode s.blockSize k.1 now)
                if !w.1 then (false, freeBlock (freeInode w.2 a.1) k.1)
                else
                  let e := addDirent w.2 r.1 (name.take 255) a.1 2
                  if !e.1 then (false, freeBlock (freeInode e.2 a.1) k.1) else (true, e.2)

/-- `ext2_delete_file`. -/
def deleteFile (s : Fs) (path : List UInt8) : Bool × Fs :=
  if s.ready = false ∨ path.head? ≠ some slash then (false, s)
  else
    match splitPath path with
    | none => (false, s)
    | some (parent, name) =>
        let r := resolve s parent
        if r.1 = 0 then (false, r.2)
        else
          let q := resolve r.2 path
          if q.1 = 0 then (false, q.2)
          else
            match readInode q.2 q.1 with
            | (none, s) => (false, s)
            | (some inode, s) =>
                if !isFileMode inode then (false, s)
                else
                  -- the direct blocks do not overlap with the indirect one
                  let s := (freeIndirect (freeDirect s inode direct).2 inode).2
                  let e := removeDirent s r.1 name
                  if !e.1 then (false, e.2) else (true, freeInode e.2 q.1)

end FiFi.Ext2
