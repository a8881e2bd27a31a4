import FiFi.Ext2.Extent
import FiFi.Vfs.Layers

/-!
# The size of a file and what is read of it

`vfs_filesize` and `vfs_read` search the layers on their own. The first skips the
initrd and returns the size as an `int`; the second reads a file of the volume
through a buffer of 64 KiB and stops at the first missing block. They agree on a
path exactly when none of this makes a difference.
-/

namespace FiFi.Vfs

open FiFi.Fd

/-- A size is reported exactly if the file can be read, and it is the size of what
is read. -/
def SizeAgrees (size : Int) (read : Option (Option Buf × Nat)) : Prop :=
  (0 ≤ size ↔ read.isSome = true) ∧ ∀ r, read = some r → size = r.2

/-- A session file is below 2 GiB. A file of the initrd is also on the volume, with
the same size. Any other file has at most 64 KiB, all in blocks that are there,
and gets a buffer; without a buffer the size must be one that is not reported. -/
def SizesMatch (s : Vfs) (path : List UInt8) (kmalloc : Option Nat) : Prop :=
  let n := vfsNormPath path
  n = [] ∨
    match ramfsGet s.ramfs n, initrdGet s.initrd n, Ext2.fileInode s.ext2 (fullPath n) with
    | some r, _, _ => r.2 < 2 ^ 31
    | none, some f, some i => Ext2.iSize i = f.2 ∧ Ext2.iSize i < 2 ^ 31
    | none, some _, none => False
    | none, none, some i =>
        if (s.buffer kmalloc).isSome = true then
          Ext2.iSize i ≤ ext2BufCap ∧
            Ext2.iSize i ≤ Ext2.readableBlocks s.ext2.img i * s.ext2.img.geo.blockSize
        else 2 ^ 31 ≤ Ext2.iSize i
    | none, none, none => True

/-! ### Sizes as `int` -/

theorem cInt_eq_iff (n : Nat) : cInt n = n ↔ n < 2 ^ 31 := by
  unfold cInt
  split <;> omega

theorem cInt_nonneg_iff {n : Nat} (h : n < 2 ^ 32) : 0 ≤ cInt n ↔ n < 2 ^ 31 := by
  unfold cInt
  split <;> omega

theorem iSize_lt (i : ByteStore.Bytes) : Ext2.iSize i < 2 ^ 32 := ByteStore.le32_lt i 4

theorem sizeAgrees_none {size : Int} : SizeAgrees size none ↔ size < 0 := by
  simp [SizeAgrees]

theorem sizeAgrees_some {size : Int} {r : Option Buf × Nat} :
    SizeAgrees size (some r) ↔ size = r.2 := by
  simp only [SizeAgrees, Option.isSome_some, iff_true, Option.some.injEq, forall_eq']
  constructor
  · exact And.right
  · intro h
    exact ⟨by omega, h⟩

/-! ### The two searches -/

/-- The size of a file of the volume, as `vfs_filesize` reports it. -/
theorem vfsFilesize_ext2 {s : Vfs} {path : List UInt8} (hn : vfsNormPath path ≠ [])
    (hram : ramfsGet s.ramfs (vfsNormPath path) = none) :
    (vfsFilesize s path).1 =
      ((Ext2.fileInode s.ext2 (fullPath (vfsNormPath path))).map
        fun i => cInt (Ext2.iSize i)).getD (-1) := by
  have hsize := Ext2.fileSize_eq s.ext2 (fullPath (vfsNormPath path))
  simp only [vfsFilesize, hn, hram, if_false]
  cases hready : s.ext2.ready with
  | false => simp [Ext2.fileInode, hready]
  | true =>
      simp only [if_true]
      generalize Ext2.fileSize s.ext2 (fullPath (vfsNormPath path)) = r at hsize ⊢
      obtain ⟨_ | size, t⟩ := r
      · cases hi : Ext2.fileInode s.ext2 (fullPath (vfsNormPath path)) with
        | none => rfl
        | some i => simp [hi] at hsize
      · cases hi : Ext2.fileInode s.ext2 (fullPath (vfsNormPath path)) with
        | none => simp [hi] at hsize
        | some i =>
            simp only [hi, Option.map_some, Option.some.injEq] at hsize
            simp [hsize]

/-- What `vfs_read` reports for a file of the volume. -/
theorem vfsRead_ext2_size {s : Vfs} {path : List UInt8} (hn : vfsNormPath path ≠ [])
    (hram : ramfsGet s.ramfs (vfsNormPath path) = none)
    (hinitrd : initrdGet s.initrd (vfsNormPath path) = none) (kmalloc : Option Nat) :
    (vfsRead s path kmalloc).1.map Prod.snd =
      if (s.buffer kmalloc).isSome = true then
        (Ext2.fileInode s.ext2 (fullPath (vfsNormPath path))).map fun i =>
          min (min (Ext2.iSize i) ext2BufCap)
            (Ext2.readableBlocks s.ext2.img i * s.ext2.img.geo.blockSize)
      else none := by
  have hlen := Ext2.length_readFile s.ext2 (fullPath (vfsNormPath path)) ext2BufCap
  simp only [vfsRead, hn, hram, hinitrd, if_false]
  cases hready : s.ext2.ready with
  | false => simp [Ext2.fileInode, hready]
  | true =>
      simp only [if_true, vfsReadExt2]
      cases s.buffer kmalloc with
      | none => rfl
      | some buf =>
          rw [if_pos (by rfl), ← hlen]
          simp only
          generalize Ext2.readFile s.ext2 (fullPath (vfsNormPath path)) ext2BufCap = r
          obtain ⟨_ | got, t⟩ := r <;> rfl

theorem vfsRead_initrd {s : Vfs} {path : List UInt8} (hn : vfsNormPath path ≠ [])
    (hram : ramfsGet s.ramfs (vfsNormPath path) = none) {f : Option Buf × Nat}
    (hinitrd : initrdGet s.initrd (vfsNormPath path) = some f) (kmalloc : Option Nat) :
    (vfsRead s path kmalloc).1 = some f := by
  simp [vfsRead, hn, hram, hinitrd]

theorem vfsRead_ramfs {s : Vfs} {path : List UInt8} (hn : vfsNormPath path ≠ [])
    {r : Option Buf × Nat} (hram : ramfsGet s.ramfs (vfsNormPath path) = some r)
    (kmalloc : Option Nat) : (vfsRead s path kmalloc).1 = some r := by
  simp [vfsRead, hn, hram]

/-- `vfs_filesize` agrees with `vfs_read` on a path exactly when the sizes match. -/
theorem sizeAgrees_iff (s : Vfs) (path : List UInt8) (kmalloc : Option Nat) :
    SizeAgrees (vfsFilesize s path).1 (vfsRead s path kmalloc).1 ↔ SizesMatch s path kmalloc := by
  by_cases hn : vfsNormPath path = []
  · have hsize : (vfsFilesize s path).1 = -1 := by simp [vfsFilesize, hn]
    have hread : (vfsRead s path kmalloc).1 = none := by simp [vfsRead, hn]
    rw [hsize, hread]
    exact iff_of_true (sizeAgrees_none.2 (by decide)) (Or.inl hn)
  · simp only [SizesMatch, hn, false_or]
    cases hram : ramfsGet s.ramfs (vfsNormPath path) with
    | some r =>
        have hsize : (vfsFilesize s path).1 = cInt r.2 := by simp [vfsFilesize, hn, hram]
        rw [hsize, vfsRead_ramfs hn hram, sizeAgrees_some]
        exact cInt_eq_iff r.2
    | none =>
        rw [vfsFilesize_ext2 hn hram]
        cases hinitrd : initrdGet s.initrd (vfsNormPath path) with
        | some f =>
            rw [vfsRead_initrd hn hram hinitrd, sizeAgrees_some]
            cases hi : Ext2.fileInode s.ext2 (fullPath (vfsNormPath path)) with
            | none =>
                simp only [Option.map_none, Option.getD_none, iff_false]
                omega
            | some i =>
                have hlt := iSize_lt i
                simp only [Option.map_some, Option.getD_some]
                unfold cInt
                split <;> omega
        | none =>
            have hread := vfsRead_ext2_size hn hram hinitrd kmalloc
            cases hi : Ext2.fileInode s.ext2 (fullPath (vfsNormPath path)) with
            | none =>
                simp only [hi, Option.map_none, ite_self, Option.map_eq_none_iff] at hread
                rw [hread, sizeAgrees_none]
                simp
            | some i =>
                have hlt := iSize_lt i
                simp only [hi, Option.map_some, Option.getD_some] at hread ⊢
                by_cases hbuf : (s.buffer kmalloc).isSome = true
                · simp only [hbuf, if_true] at hread ⊢
                  obtain ⟨r, hr, hlen⟩ := Option.map_eq_some_iff.1 hread
                  rw [hr, sizeAgrees_some, hlen]
                  unfold cInt ext2BufCap
                  split <;> omega
                · simp only [hbuf, if_false, Option.map_eq_none_iff, Bool.false_eq_true] at hread ⊢
                  rw [hread, sizeAgrees_none, ← not_iff_not, not_lt, cInt_nonneg_iff hlt, not_le]

/-- No volume, and a file of one byte in the initrd: it can be read, but has no
size. -/
theorem sizeAgrees_initrd_file :
    let s := Vfs.boot [{ name := [97], data := { addr := 4096, bytes := [1] } }]
    ¬ SizeAgrees (vfsFilesize s [slash, 97]).1 (vfsRead s [slash, 97] none).1 := by
  intro s h
  have hsome := h.1.2 (by decide)
  revert hsome
  decide

end FiFi.Vfs
