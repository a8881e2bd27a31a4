import FiFi.Ext2.Driver

/-!
# Listing a directory

`ext2_ls_buf_at` writes the names in the direct blocks of a directory to a
buffer, one on a line; `.` and `..` are left out. What does not fit is cut off.
-/

namespace FiFi.Ext2

open ByteStore

/-- The byte `'\n'`. -/
def newline : UInt8 := 10

/-- The loops that append a line: a byte is stored while another one still fits. -/
def appendLine (cap : Nat) (out name : List UInt8) : List UInt8 :=
  (out ++ name ++ [newline]).take (cap - 1)

/-- The names that are listed from one block. -/
def listedNames (b : Bytes) (size : Nat) : List (List UInt8) :=
  ((offsets b size).filter fun p =>
    deInode b p ≠ 0 && deName b p ≠ [] && deName b p ≠ [46] && deName b p ≠ [46, 46]).map (deName b)

/-- The loop over the direct blocks. -/
def lsDirect (s : Fs) (dir : Bytes) (cap : Nat) (out : List UInt8) : List Nat → List UInt8 × Fs
  | [] => (out, s)
  | b :: bs =>
      if iBlock dir b = 0 then (out, s)
      else
        let s := { s with io := s.img.disk (iBlock dir b) }
        lsDirect s dir cap ((listedNames s.io s.blockSize).foldl (appendLine cap) out) bs

/-- The listing of an inode, once it is known. -/
def lsInode (s : Fs) (ino cap : Nat) : List UInt8 × Fs :=
  match readInode s ino with
  | (none, s) => ([], s)
  | (some dir, s) => if !isDirMode dir then ([], s) else lsDirect s dir cap [] direct

/-- `ext2_ls_buf`. -/
def lsBuf (s : Fs) (cap : Nat) : List UInt8 × Fs :=
  if cap = 0 ∨ s.ready = false then ([], s) else lsInode s 2 cap

/-- `ext2_ls_buf_at`. -/
def lsBufAt (s : Fs) (path : List UInt8) (cap : Nat) : List UInt8 × Fs :=
  if cap = 0 ∨ s.ready = false then ([], s)
  else
    let r := resolve s path
    if r.1 = 0 then ([], r.2) else lsInode r.2 r.1 cap

/-! ### Lines -/

/-- Names, one on a line. -/
def lines (names : List (List UInt8)) : List UInt8 := names.flatMap fun n => n ++ [newline]

@[simp] theorem lines_append (names names' : List (List UInt8)) :
    lines (names ++ names') = lines names ++ lines names' := by
  simp [lines]

end FiFi.Ext2
