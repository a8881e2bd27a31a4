import FiFi.Library.ByteStore

/-!
# The ext2 driver

The functions of `ext2.c` on a disk of blocks. A block is a buffer, of which the
first `blockSize` bytes count. The driver has two scratch pages: `io`, into which
all blocks are read, and `ind` for the pointers of an indirect block. They are
part of the state, because the helpers use them while their callers do. The
device is reliable; a block number of zero is still refused.

Names and paths are the bytes of a C string before its end. The functions that
return 0 or -1 return `true` or `false` here.
-/

namespace FiFi.Ext2

open ByteStore

/-! ### State -/

/-- What `ext2_init` reads from the superblock. -/
structure Geo where
  blockSize : Nat
  inodesPerGroup : Nat
  blocksPerGroup : Nat
  inodeSize : Nat
  firstDataBlock : Nat
  numGroups : Nat
  deriving DecidableEq, Repr

/-- `ext2_bgd_t`. The last 16 bytes are never looked at. -/
structure Bgd where
  blockBitmap : Nat
  inodeBitmap : Nat
  inodeTable : Nat
  freeBlocks : Nat
  freeInodes : Nat
  tail : Bytes

/-- A group descriptor as it is on the disk. -/
def Bgd.bytes (d : Bgd) : Bytes :=
  put16 (put16 (put32 (put32 (put32 d.tail 0 d.blockBitmap) 4 d.inodeBitmap) 8 d.inodeTable) 12
    d.freeBlocks) 14 d.freeInodes

/-- The disk and the table of group descriptors in memory. -/
structure Img where
  geo : Geo
  bgdt : Nat → Bgd
  disk : Nat → Bytes

structure Fs where
  ready : Bool
  img : Img
  io : Bytes
  ind : Bytes

def Fs.blockSize (s : Fs) : Nat := s.img.geo.blockSize

/-! ### Blocks and inodes -/

/-- `e2_read_block` into the page `io`. -/
def readBlock (s : Fs) (blk : Nat) : Bool × Fs :=
  if blk = 0 then (false, s) else (true, { s with io := s.img.disk blk })

/-- `e2_read_block` into the page `ind`. -/
def readBlockInd (s : Fs) (blk : Nat) : Bool × Fs :=
  if blk = 0 then (false, s)
  else (true, { s with io := s.img.disk blk, ind := s.img.disk blk })

def writeBlock (s : Fs) (blk : Nat) (src : Bytes) : Bool × Fs :=
  if blk = 0 then (false, s)
  else (true, { s with img := { s.img with disk := Function.update s.img.disk blk src } })

def Geo.inodeGroup (g : Geo) (ino : Nat) : Nat := (ino - 1) / g.inodesPerGroup

def Geo.inodeByte (g : Geo) (ino : Nat) : Nat := (ino - 1) % g.inodesPerGroup * g.inodeSize

/-- The block of the inode table that holds an inode. -/
def Img.inodeBlock (m : Img) (ino : Nat) : Nat :=
  (m.bgdt (m.geo.inodeGroup ino)).inodeTable + m.geo.inodeByte ino / m.geo.blockSize

/-- The offset of the inode in that block. -/
def Img.inodeOffset (m : Img) (ino : Nat) : Nat := m.geo.inodeByte ino % m.geo.blockSize

/-- `sizeof(ext2_inode_t)`. -/
def inodeBytes : Nat := 128

def readInode (s : Fs) (ino : Nat) : Option Bytes × Fs :=
  if ino = 0 ∨ s.ready = false then (none, s)
  else if s.img.geo.numGroups ≤ s.img.geo.inodeGroup ino then (none, s)
  else
    match readBlock s (s.img.inodeBlock ino) with
    | (false, s) => (none, s)
    | (true, s) => (some (slice s.io (s.img.inodeOffset ino) inodeBytes), s)

def writeInode (s : Fs) (ino : Nat) (inode : Bytes) : Bool × Fs :=
  if ino = 0 ∨ s.ready = false then (false, s)
  else if s.img.geo.numGroups ≤ s.img.geo.inodeGroup ino then (false, s)
  else
    match readBlock s (s.img.inodeBlock ino) with
    | (false, s) => (false, s)
    | (true, s) =>
        let s := { s with io := blit s.io (s.img.inodeOffset ino) inodeBytes inode }
        writeBlock s (s.img.inodeBlock ino) s.io

/-! ### Fields of an inode -/

def iMode (i : Bytes) : Nat := le16 i 0
def iSize (i : Bytes) : Nat := le32 i 4
def iBlocks (i : Bytes) : Nat := le32 i 28
def iBlock (i : Bytes) (k : Nat) : Nat := le32 i (40 + 4 * k)

/-- `(i_mode & 0xF000) == EXT2_IMODE_DIR`. -/
def isDirMode (i : Bytes) : Bool := iMode i / 4096 = 4

/-- `(i_mode & 0xF000) == EXT2_IMODE_FILE`. -/
def isFileMode (i : Bytes) : Bool := iMode i / 4096 = 8

def setBlock (i : Bytes) (k blk : Nat) : Bytes := put32 i (40 + 4 * k) blk

def setSize (i : Bytes) (size : Nat) : Bytes := put32 i 4 size

def setBlocks (i : Bytes) (n : Nat) : Bytes := put32 i 28 n

/-! ### Directory entries -/

def deInode (b : Bytes) (p : Nat) : Nat := le32 b p
def deRecLen (b : Bytes) (p : Nat) : Nat := le16 b (p + 4)
def deNameLen (b : Bytes) (p : Nat) : Nat := (b (p + 6)).toNat
def deName (b : Bytes) (p : Nat) : List UInt8 := toList b (p + 8) (deNameLen b p)

/-- `e2_name_eq`. -/
def nameEq (b : Bytes) (p : Nat) (name : List UInt8) : Bool := deName b p = name

/-- The offsets that the loops over a directory block visit, from `p` on. An entry
takes at least eight bytes, so the size of the block bounds their number. -/
def chainFrom (b : Bytes) (size : Nat) : Nat → Nat → List Nat
  | 0, _ => []
  | fuel + 1, p =>
      if p < size ∧ 8 ≤ deRecLen b p ∧ p + deRecLen b p ≤ size then
        p :: chainFrom b size fuel (p + deRecLen b p)
      else []

def offsets (b : Bytes) (size : Nat) : List Nat := chainFrom b size size 0

/-- The entry of a name in a block. -/
def findName (b : Bytes) (size : Nat) (name : List UInt8) : Option Nat :=
  (offsets b size).find? fun p => deInode b p ≠ 0 && nameEq b p name

/-- The inode of a name in a block; `0` if there is none. -/
def lookupBlock (b : Bytes) (size : Nat) (name : List UInt8) : Nat :=
  match findName b size name with
  | some p => deInode b p
  | none => 0

/-! ### Lookup -/

/-- The indices of the direct blocks. -/
def direct : List Nat := List.range 12

/-- The first loop of `e2_lookup`. -/
def lookupDirect (s : Fs) (dir : Bytes) (name : List UInt8) : List Nat → Nat × Fs
  | [] => (0, s)
  | b :: bs =>
      if iBlock dir b = 0 then (0, s)
      else
        let s := { s with io := s.img.disk (iBlock dir b) }
        let ino := lookupBlock s.io s.blockSize name
        if ino ≠ 0 then (ino, s) else lookupDirect s dir name bs

/-- The second loop, over the pointers in the page `ind`. -/
def lookupIndirect (s : Fs) (name : List UInt8) : List Nat → Nat × Fs
  | [] => (0, s)
  | i :: is =>
      let ptr := le32 s.ind (4 * i)
      if ptr = 0 then (0, s)
      else
        let s := { s with io := s.img.disk ptr }
        let ino := lookupBlock s.io s.blockSize name
        if ino ≠ 0 then (ino, s) else lookupIndirect s name is

/-- The indices of the pointers of an indirect block. -/
def Geo.pointers (g : Geo) : List Nat := List.range (g.blockSize / 4)

/-- `e2_lookup`. -/
def lookup (s : Fs) (dir : Bytes) (name : List UInt8) : Nat × Fs :=
  let r := lookupDirect s dir name direct
  if r.1 ≠ 0 then r
  else if iBlock dir 12 = 0 then r
  else
    let s := { r.2 with ind := r.2.img.disk (iBlock dir 12) }
    lookupIndirect s name s.img.geo.pointers

/-- The character `/`. -/
def slash : UInt8 := 47

/-- The components of a path, as the loop of `e2_resolve` cuts them: a component
ends at a slash or after 255 characters, and empty ones are skipped. `cur` is the
component that is being read. -/
def componentsFrom (cur : List UInt8) : List UInt8 → List (List UInt8)
  | [] => if cur = [] then [] else [cur]
  | c :: cs =>
      if c = slash then
        if cur = [] then componentsFrom [] cs else cur :: componentsFrom [] cs
      else if cur.length < 255 then componentsFrom (cur ++ [c]) cs
      else cur :: componentsFrom [c] cs

def components (path : List UInt8) : List (List UInt8) := componentsFrom [] path

def resolveFrom (s : Fs) (cur : Nat) : List (List UInt8) → Nat × Fs
  | [] => (cur, s)
  | comp :: comps =>
      match readInode s cur with
      | (none, s) => (0, s)
      | (some inode, s) =>
          if !isDirMode inode then (0, s)
          else
            let r := lookup s inode comp
            if r.1 = 0 then (0, r.2) else resolveFrom r.2 r.1 comps

/-- `e2_resolve`; `0` if the path does not resolve. -/
def resolve (s : Fs) : List UInt8 → Nat × Fs
  | [] => (0, s)
  | c :: path => if c = slash then resolveFrom s 2 (components path) else (0, s)

/-! ### Reading files -/

/-- The first loop of `ext2_read_file`; `out` is what was read so far. -/
def readDirect (s : Fs) (inode : Bytes) (toRead : Nat) (out : List UInt8) :
    List Nat → List UInt8 × Fs
  | [] => (out, s)
  | b :: bs =>
      if toRead ≤ out.length then (out, s)
      else if iBlock inode b = 0 then (out, s)
      else
        let s := { s with io := s.img.disk (iBlock inode b) }
        readDirect s inode toRead
          (out ++ toList s.io 0 (min s.blockSize (toRead - out.length))) bs

def readIndirect (s : Fs) (toRead : Nat) (out : List UInt8) : List Nat → List UInt8 × Fs
  | [] => (out, s)
  | i :: is =>
      if toRead ≤ out.length then (out, s)
      else
        let ptr := le32 s.ind (4 * i)
        if ptr = 0 then (out, s)
        else
          let s := { s with io := s.img.disk ptr }
          readIndirect s toRead (out ++ toList s.io 0 (min s.blockSize (toRead - out.length))) is

/-- `ext2_read_file`: the bytes that are copied to the buffer, or `none` for -1. -/
def readFile (s : Fs) (path : List UInt8) (max : Nat) : Option (List UInt8) × Fs :=
  if !s.ready then (none, s)
  else
    let r := resolve s path
    if r.1 = 0 then (none, r.2)
    else
      match readInode r.2 r.1 with
      | (none, s) => (none, s)
      | (some inode, s) =>
          if !isFileMode inode then (none, s)
          else
            let toRead := if iSize inode < max then iSize inode else max
            let r := readDirect s inode toRead [] direct
            if toRead ≤ r.1.length then (some r.1, r.2)
            else if iBlock inode 12 = 0 then (some r.1, r.2)
            else
              let s := { r.2 with ind := r.2.img.disk (iBlock inode 12) }
              let q := readIndirect s toRead r.1 s.img.geo.pointers
              (some q.1, q.2)

def fileSize (s : Fs) (path : List UInt8) : Option Nat × Fs :=
  if !s.ready then (none, s)
  else
    let r := resolve s path
    if r.1 = 0 then (none, r.2)
    else
      match readInode r.2 r.1 with
      | (none, s) => (none, s)
      | (some inode, s) => if !isFileMode inode then (none, s) else (some (iSize inode), s)

/-- `ext2_isdir`. -/
def isdir (s : Fs) (path : List UInt8) : Bool × Fs :=
  if path = [slash] then (true, s)
  else
    let r := resolve s path
    if r.1 = 0 then (false, r.2)
    else
      match readInode r.2 r.1 with
      | (none, s) => (false, s)
      | (some inode, s) => (isDirMode inode, s)

/-! ### Bitmaps -/

/-- `sizeof(ext2_bgd_t)`. -/
def bgdBytes : Nat := 32

/-- The block of the descriptor table that holds a group's descriptor. -/
def Geo.bgdBlock (g : Geo) (gidx : Nat) : Nat :=
  g.firstDataBlock + 1 + gidx * bgdBytes / g.blockSize

/-- `e2_flush_bgd`, whose result nobody uses. -/
def flushBgd (s : Fs) (gidx : Nat) : Fs :=
  match readBlock s (s.img.geo.bgdBlock gidx) with
  | (false, s) => s
  | (true, s) =>
      let s := { s with
        io := blit s.io (gidx * bgdBytes % s.blockSize) bgdBytes (s.img.bgdt gidx).bytes }
      (writeBlock s (s.img.geo.bgdBlock gidx) s.io).2

def Fs.setBgd (s : Fs) (gidx : Nat) (d : Bgd) : Fs :=
  { s with img := { s.img with bgdt := Function.update s.img.bgdt gidx d } }

/-- A bit of a bitmap is cleared and the group's count goes up, in `e2_free_block`
and `e2_free_inode`. -/
def freeBit (s : Fs) (gidx bit bmap : Nat) (d : Bgd) : Fs :=
  match readBlock s bmap with
  | (false, s) => s
  | (true, s) =>
      let s := { s with io := clearBit s.io bit }
      let s := (writeBlock s bmap s.io).2
      flushBgd (s.setBgd gidx d) gidx

def freeBlock (s : Fs) (blk : Nat) : Fs :=
  let g := s.img.geo
  if blk < g.firstDataBlock then s
  else
    let gidx := (blk - g.firstDataBlock) / g.blocksPerGroup
    let d := s.img.bgdt gidx
    if g.numGroups ≤ gidx then s
    else
      freeBit s gidx ((blk - g.firstDataBlock) % g.blocksPerGroup) d.blockBitmap
        { d with freeBlocks := (d.freeBlocks + 1) % 2 ^ 16 }

def freeInode (s : Fs) (ino : Nat) : Fs :=
  let g := s.img.geo
  if ino = 0 then s
  else if g.numGroups ≤ g.inodeGroup ino then s
  else
    let d := s.img.bgdt (g.inodeGroup ino)
    freeBit s (g.inodeGroup ino) ((ino - 1) % g.inodesPerGroup) d.inodeBitmap
      { d with freeInodes := (d.freeInodes + 1) % 2 ^ 16 }

/-- The first clear bit of the page `io`. -/
def clearBitOf (s : Fs) (nbits : Nat) : Option Nat :=
  (List.range nbits).find? fun bit => !bitAt s.io bit

/-- A bit of the bitmap in `io` is set and the group's count goes down. -/
def takeBit (s : Fs) (gidx bit bmap : Nat) (d : Bgd) : Fs :=
  let s := { s with io := setBit s.io bit }
  let s := (writeBlock s bmap s.io).2
  flushBgd (s.setBgd gidx d) gidx

/-- The loop of `e2_alloc_block` over the groups. -/
def allocBlockIn (s : Fs) : List Nat → Nat × Fs
  | [] => (0, s)
  | gidx :: gs =>
      let d := s.img.bgdt gidx
      if d.freeBlocks = 0 then allocBlockIn s gs
      else
        match readBlock s d.blockBitmap with
        | (false, s) => allocBlockIn s gs
        | (true, s) =>
            match clearBitOf s s.img.geo.blocksPerGroup with
            | none => allocBlockIn s gs
            | some bit =>
                (s.img.geo.firstDataBlock + gidx * s.img.geo.blocksPerGroup + bit,
                  takeBit s gidx bit d.blockBitmap
                    { d with freeBlocks := (d.freeBlocks + (2 ^ 16 - 1)) % 2 ^ 16 })

/-- `e2_alloc_block`; `0` if no block is free. -/
def allocBlock (s : Fs) : Nat × Fs := allocBlockIn s (List.range s.img.geo.numGroups)

def allocInodeIn (s : Fs) : List Nat → Nat × Fs
  | [] => (0, s)
  | gidx :: gs =>
      let d := s.img.bgdt gidx
      if d.freeInodes = 0 then allocInodeIn s gs
      else
        match readBlock s d.inodeBitmap with
        | (false, s) => allocInodeIn s gs
        | (true, s) =>
            match clearBitOf s s.img.geo.inodesPerGroup with
            | none => allocInodeIn s gs
            | some bit =>
                (gidx * s.img.geo.inodesPerGroup + bit + 1,
                  takeBit s gidx bit d.inodeBitmap
                    { d with freeInodes := (d.freeInodes + (2 ^ 16 - 1)) % 2 ^ 16 })

/-- `e2_alloc_inode`; `0` if no inode is free. -/
def allocInode (s : Fs) : Nat × Fs := allocInodeIn s (List.range s.img.geo.numGroups)

end FiFi.Ext2
