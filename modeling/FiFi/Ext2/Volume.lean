import Mathlib.Data.List.TakeWhile
import FiFi.Ext2.Calls

/-!
# Volumes

What the disk of the driver means. A volume has inodes, data blocks and the sets
of the blocks and inodes that are in use; where the bitmaps, the descriptors and
the inode tables lie is its layout, which never changes. A volume is well formed
if the inodes that are reachable from the root are in use and no two of their
positions hold the same block.

Nothing here is computed by the driver. The lemmas say on which part of a volume
the meaning of an inode depends: on the blocks it holds.
-/

namespace FiFi.Ext2

open ByteStore

/-! ### Layout -/

/-- Where a group has its bitmaps and its inode table. -/
structure Layout where
  geo : Geo
  blockBitmap : Nat → Nat
  inodeBitmap : Nat → Nat
  inodeTable : Nat → Nat

/-- The areas of the disk that hold no data. -/
inductive Area where
  | blockMap (g : Nat)
  | inodeMap (g : Nat)
  | table (g k : Nat)
  | desc (k : Nat)
  deriving DecidableEq

namespace Layout

variable (l : Layout)

/-- The block of an area. -/
def place : Area → Nat
  | .blockMap g => l.blockBitmap g
  | .inodeMap g => l.inodeBitmap g
  | .table g k => l.inodeTable g + k
  | .desc k => l.geo.firstDataBlock + 1 + k

def Has : Area → Prop
  | .blockMap g => g < l.geo.numGroups
  | .inodeMap g => g < l.geo.numGroups
  | .table g k => g < l.geo.numGroups ∧
      k * l.geo.blockSize < l.geo.inodesPerGroup * l.geo.inodeSize
  | .desc k => k * l.geo.blockSize < l.geo.numGroups * bgdBytes

/-- The blocks that no file may hold: the one of the superblock and the areas. -/
def Reserved (b : Nat) : Prop :=
  b = 0 ∨ b = l.geo.firstDataBlock ∨ ∃ a, l.Has a ∧ l.place a = b

/-- A geometry the driver supports, and areas that do not overlap. -/
structure Ok : Prop where
  size : l.geo.blockSize = 1024 ∨ l.geo.blockSize = 2048 ∨ l.geo.blockSize = 4096
  inodeSize : inodeBytes ≤ l.geo.inodeSize
  inodeFits : l.geo.inodeSize ∣ l.geo.blockSize
  perGroup : 0 < l.geo.blocksPerGroup ∧ l.geo.blocksPerGroup ≤ 8 * l.geo.blockSize
  inodesPerGroup : 0 < l.geo.inodesPerGroup ∧ l.geo.inodesPerGroup ≤ 8 * l.geo.blockSize
  numBlocks : l.geo.firstDataBlock + l.geo.numGroups * l.geo.blocksPerGroup ≤ 2 ^ 32
  numInodes : l.geo.numGroups * l.geo.inodesPerGroup < 2 ^ 32
  apart : ∀ a a', l.Has a → l.Has a' → l.place a = l.place a' → a = a'
  nonzero : ∀ a, l.Has a → l.place a ≠ 0

end Layout

/-! ### Volumes -/

@[ext]
structure Vol where
  layout : Layout
  inode : Nat → Option Bytes
  data : Nat → Bytes
  busy : Set Nat
  taken : Set Nat

/-- The name and the inode of a directory entry. -/
abbrev Entry := List UInt8 × Nat

/-- The entries of a directory block that are in use. -/
def liveAt (b : Bytes) (ps : List Nat) : List Entry :=
  (ps.filter fun p => deInode b p ≠ 0).map fun p => (deName b p, deInode b p)

namespace Vol

variable (v : Vol)

def size : Nat := v.layout.geo.blockSize

/-- The number of pointers in an indirect block. -/
def pointers : Nat := v.size / 4

/-- The block at a position of an inode: the direct blocks come first, then the
indirect block, then the blocks it points to. -/
def blockAt (i : Bytes) (pos : Nat) : Nat :=
  if pos ≤ 12 then iBlock i pos
  else if iBlock i 12 = 0 then 0
  else le32 (v.data (iBlock i 12)) (4 * (pos - 13))

/-- The inode holds the block at the position. -/
def Holds (i : Bytes) (pos b : Nat) : Prop :=
  pos < 13 + v.pointers ∧ v.blockAt i pos = b ∧ b ≠ 0

/-- The blocks the driver goes through: the direct ones up to the first zero, and
the ones of the indirect block up to the first zero. -/
def blocks (i : Bytes) : List Nat :=
  ((List.range 12).map (v.blockAt i)).takeWhile (· ≠ 0) ++
    ((List.range v.pointers).map fun k => v.blockAt i (13 + k)).takeWhile (· ≠ 0)

/-- The bytes of a file that are read with a limit. -/
def content (i : Bytes) (n : Nat) : List UInt8 :=
  ((v.blocks i).flatMap fun b => toList (v.data b) 0 v.size).take n

/-- The entries of a directory in the order of the search. -/
def entries (i : Bytes) : List Entry :=
  (v.blocks i).flatMap fun b => liveAt (v.data b) (offsets (v.data b) v.size)

/-- The inode of a name in a directory; `0` if there is none. -/
def lookup (i : Bytes) (name : List UInt8) : Nat := ((v.entries i).lookup name).getD 0

def resolveFrom (cur : Nat) : List (List UInt8) → Nat
  | [] => cur
  | comp :: comps =>
      match v.inode cur with
      | none => 0
      | some i =>
          if isDirMode i then
            if v.lookup i comp = 0 then 0 else resolveFrom (v.lookup i comp) comps
          else 0

def IsDir (ino : Nat) : Prop := ∃ i, v.inode ino = some i ∧ isDirMode i = true

def IsFile (ino : Nat) : Prop := ∃ i, v.inode ino = some i ∧ isFileMode i = true

/-- The inodes that can be reached from the given ones. -/
inductive Reach (R : Set Nat) : Nat → Prop
  | root {ino : Nat} : ino ∈ R → Reach R ino
  | entry {d : Nat} {i : Bytes} {e : Entry} : Reach R d → v.inode d = some i →
      isDirMode i = true → e ∈ v.entries i → Reach R e.2

/-- A file or a directory refers to a block. What other inodes have in the place
of block numbers is no block number. -/
def Ref (ino pos b : Nat) : Prop :=
  ∃ i, v.inode ino = some i ∧ (isFileMode i = true ∨ isDirMode i = true) ∧ v.Holds i pos b

/-- The records of the entries in use are long enough for their names. -/
def RecordsOk (b : Bytes) : Prop :=
  ∀ p ∈ offsets b v.size, deInode b p ≠ 0 → actualLen b p ≤ deRecLen b p

/-- A directory has no holes and good records. -/
structure DirOk (i : Bytes) : Prop where
  noHole : ∀ k k', k < k' → k' ≤ 12 → iBlock i k = 0 → iBlock i k' = 0
  records : ∀ b ∈ v.blocks i, v.RecordsOk (v.data b)

/-- The inodes that can be reached are well formed. A new inode is among the roots
until it gets its entry. -/
structure WfFrom (R : Set Nat) : Prop where
  layout : v.layout.Ok
  root : 2 ∈ R ∧ v.IsDir 2
  taken : ∀ ino, v.Reach R ino → ino ∈ v.taken ∧ ∃ i, v.inode ino = some i
  busy : ∀ ino pos b, v.Reach R ino → v.Ref ino pos b → b ∈ v.busy ∧ ¬ v.layout.Reserved b
  unique : ∀ ino ino' pos pos' b, v.Reach R ino → v.Reach R ino' → v.Ref ino pos b →
    v.Ref ino' pos' b → ino = ino' ∧ pos = pos'
  dirs : ∀ ino i, v.Reach R ino → v.inode ino = some i → isDirMode i = true → v.DirOk i

/-- A well formed volume: all is said of what is reachable from the root. -/
abbrev Wf : Prop := v.WfFrom {2}

end Vol

/-! ### Operations -/

namespace Vol

variable (v : Vol)

def take (b : Nat) : Vol := { v with busy := insert b v.busy }

def give (b : Nat) : Vol := { v with busy := v.busy \ {b} }

def takeInode (ino : Nat) : Vol := { v with taken := insert ino v.taken }

def giveInode (ino : Nat) : Vol := { v with taken := v.taken \ {ino} }

/-- A data block is replaced. -/
def put (b : Nat) (page : Bytes) : Vol := { v with data := Function.update v.data b page }

def setInode (ino : Nat) (i : Bytes) : Vol :=
  { v with inode := Function.update v.inode ino (some i) }

variable {v}

theorem put_data_self (b : Nat) (page : Bytes) : (v.put b page).data b = page :=
  Function.update_self _ _ _

theorem put_data_ne {b c : Nat} (page : Bytes) (h : c ≠ b) : (v.put b page).data c = v.data c :=
  Function.update_of_ne h _ _

theorem setInode_self (ino : Nat) (i : Bytes) : (v.setInode ino i).inode ino = some i :=
  Function.update_self _ _ _

theorem setInode_ne {ino ino' : Nat} (i : Bytes) (h : ino' ≠ ino) :
    (v.setInode ino i).inode ino' = v.inode ino' := Function.update_of_ne h _ _

end Vol

/-! ### The blocks of an inode -/

namespace Vol

variable {v v' : Vol} {i : Bytes}

theorem blockAt_direct {pos : Nat} (h : pos ≤ 12) : v.blockAt i pos = iBlock i pos := if_pos h

theorem blockAt_pointer (k : Nat) (h : iBlock i 12 ≠ 0) :
    v.blockAt i (13 + k) = le32 (v.data (iBlock i 12)) (4 * k) := by
  unfold blockAt
  rw [if_neg (by omega), if_neg h, Nat.add_sub_cancel_left]

theorem blockAt_noPointer (k : Nat) (h : iBlock i 12 = 0) : v.blockAt i (13 + k) = 0 := by
  unfold blockAt
  rw [if_neg (by omega), if_pos h]

theorem mem_takeWhile_range {f : Nat → Nat} {n b : Nat}
    (h : b ∈ ((List.range n).map f).takeWhile (· ≠ 0)) : ∃ k < n, f k = b ∧ b ≠ 0 := by
  have hmem := List.takeWhile_sublist _ |>.subset h
  obtain ⟨k, hk, rfl⟩ := List.mem_map.1 hmem
  refine ⟨k, List.mem_range.1 hk, rfl, ?_⟩
  simpa using List.mem_takeWhile_imp h

theorem holds_of_mem_blocks {b : Nat} (h : b ∈ v.blocks i) :
    ∃ pos, pos ≠ 12 ∧ v.Holds i pos b := by
  rcases List.mem_append.1 h with h | h
  · obtain ⟨k, hk, hb, hne⟩ := mem_takeWhile_range h
    exact ⟨k, by omega, by omega, hb, hne⟩
  · obtain ⟨k, hk, hb, hne⟩ := mem_takeWhile_range h
    exact ⟨13 + k, by omega, by omega, hb, hne⟩

/-- Two volumes agree on the blocks an inode holds. -/
structure Agree (v v' : Vol) (i : Bytes) : Prop where
  layout : v'.layout = v.layout
  data : ∀ pos b, v.Holds i pos b → v'.data b = v.data b

namespace Agree

variable (h : Agree v v' i)

include h

theorem size_eq : v'.size = v.size := by
  unfold size
  rw [h.layout]

theorem pointers_eq : v'.pointers = v.pointers := by
  unfold pointers
  rw [h.size_eq]

theorem blockAt_eq (pos : Nat) : v'.blockAt i pos = v.blockAt i pos := by
  unfold blockAt
  split
  · rfl
  · split
    · rfl
    · rename_i hind
      rw [h.data 12 (iBlock i 12) ⟨by omega, rfl, hind⟩]

theorem holds_iff (pos b : Nat) : v'.Holds i pos b ↔ v.Holds i pos b := by
  unfold Holds
  rw [h.pointers_eq, h.blockAt_eq]

theorem blocks_eq : v'.blocks i = v.blocks i := by
  unfold blocks
  rw [h.pointers_eq, funext h.blockAt_eq]

theorem data_eq {b : Nat} (hb : b ∈ v.blocks i) : v'.data b = v.data b := by
  obtain ⟨pos, -, hpos⟩ := holds_of_mem_blocks hb
  exact h.data pos b hpos

theorem entries_eq : v'.entries i = v.entries i := by
  unfold entries
  rw [h.blocks_eq, h.size_eq]
  exact List.flatMap_congr fun b hb => by rw [h.data_eq hb]

theorem content_eq (n : Nat) : v'.content i n = v.content i n := by
  unfold content
  rw [h.blocks_eq, h.size_eq]
  congr 1
  exact List.flatMap_congr fun b hb => by rw [h.data_eq hb]

theorem lookup_eq (name : List UInt8) : v'.lookup i name = v.lookup i name := by
  unfold lookup
  rw [h.entries_eq]

theorem dirOk (hd : v.DirOk i) : v'.DirOk i where
  noHole := hd.noHole
  records b hb := by
    rw [h.blocks_eq] at hb
    unfold RecordsOk
    rw [h.data_eq hb, h.size_eq]
    exact hd.records b hb

end Agree

/-! ### Names -/

theorem inode_ne_zero_of_mem_entries {e : Entry} (h : e ∈ v.entries i) : e.2 ≠ 0 := by
  obtain ⟨b, -, he⟩ := List.mem_flatMap.1 h
  obtain ⟨p, hp, rfl⟩ := List.mem_map.1 he
  simpa using (List.mem_filter.1 hp).2

theorem lookup_eq_some {name : List UInt8} {ino : Nat} (h : v.lookup i name = ino)
    (hne : ino ≠ 0) : (v.entries i).lookup name = some ino := by
  unfold lookup at h
  cases hl : (v.entries i).lookup name with
  | none =>
      rw [hl, Option.getD_none] at h
      exact absurd h.symm hne
  | some n =>
      rw [hl, Option.getD_some] at h
      rw [h]

theorem mem_entries_of_lookup {name : List UInt8} {ino : Nat} (h : v.lookup i name = ino)
    (hne : ino ≠ 0) : (name, ino) ∈ v.entries i := by
  obtain ⟨l, l', heq, -⟩ := List.lookup_eq_some_iff.1 (lookup_eq_some h hne)
  rw [heq]
  simp

theorem lookup_eq_none {name : List UInt8} (h : v.lookup i name = 0) :
    (v.entries i).lookup name = none := by
  unfold lookup at h
  cases hl : (v.entries i).lookup name with
  | none => rfl
  | some n =>
      rw [hl, Option.getD_some] at h
      obtain ⟨l, l', heq, -⟩ := List.lookup_eq_some_iff.1 hl
      exact absurd h (inode_ne_zero_of_mem_entries (v := v) (i := i) (e := (name, n)) (by simp [heq]))

/-! ### Paths -/

theorem resolveFrom_cons {cur : Nat} {i : Bytes} (hi : v.inode cur = some i)
    (hd : isDirMode i = true) (comp : List UInt8) (comps : List (List UInt8)) :
    v.resolveFrom cur (comp :: comps) =
      if v.lookup i comp = 0 then 0 else v.resolveFrom (v.lookup i comp) comps := by
  simp [resolveFrom, hi, hd]

/-- Only a directory is gone through. -/
theorem resolveFrom_cons_ne_zero {cur : Nat} {comp : List UInt8} {comps : List (List UInt8)}
    (h : v.resolveFrom cur (comp :: comps) ≠ 0) :
    ∃ i, v.inode cur = some i ∧ isDirMode i = true ∧ v.lookup i comp ≠ 0 ∧
      v.resolveFrom cur (comp :: comps) = v.resolveFrom (v.lookup i comp) comps := by
  unfold resolveFrom at h
  split at h
  · exact absurd rfl h
  · rename_i i hi
    split at h
    · rename_i hd
      rw [resolveFrom_cons hi hd]
      split at h
      · exact absurd rfl h
      · rename_i hl
        exact ⟨i, hi, hd, hl, if_neg hl⟩
    · exact absurd rfl h

theorem reach_lookup {R : Set Nat} {d : Nat} {i : Bytes} {name : List UInt8} (h : v.Reach R d)
    (hi : v.inode d = some i) (hd : isDirMode i = true) (hl : v.lookup i name ≠ 0) :
    v.Reach R (v.lookup i name) :=
  Reach.entry h hi hd (mem_entries_of_lookup rfl hl)

theorem reach_resolveFrom {R : Set Nat} {cur : Nat} {comps : List (List UInt8)}
    (h : v.Reach R cur) (hne : v.resolveFrom cur comps ≠ 0) :
    v.Reach R (v.resolveFrom cur comps) := by
  induction comps generalizing cur with
  | nil => exact h
  | cons comp comps ih =>
      obtain ⟨i, hi, hd, hl, heq⟩ := resolveFrom_cons_ne_zero hne
      rw [heq] at hne ⊢
      exact ih (reach_lookup h hi hd hl) hne

theorem resolveFrom_append {cur : Nat} (comps comps' : List (List UInt8))
    (hne : v.resolveFrom cur comps ≠ 0) :
    v.resolveFrom cur (comps ++ comps') = v.resolveFrom (v.resolveFrom cur comps) comps' := by
  induction comps generalizing cur with
  | nil => rfl
  | cons comp comps ih =>
      obtain ⟨i, hi, hd, hl, heq⟩ := resolveFrom_cons_ne_zero hne
      rw [heq] at hne
      rw [List.cons_append, resolveFrom_cons hi hd, if_neg hl, heq, ih hne]

theorem resolveFrom_append_ne_zero {cur : Nat} {comps comps' : List (List UInt8)}
    (hcur : cur ≠ 0) (hne : v.resolveFrom cur (comps ++ comps') ≠ 0) :
    v.resolveFrom cur comps ≠ 0 := by
  induction comps generalizing cur with
  | nil => exact hcur
  | cons comp comps ih =>
      rw [List.cons_append] at hne
      obtain ⟨i, hi, hd, hl, heq⟩ := resolveFrom_cons_ne_zero hne
      rw [heq] at hne
      rw [resolveFrom_cons hi hd, if_neg hl]
      exact ih hl hne

end Vol

end FiFi.Ext2
