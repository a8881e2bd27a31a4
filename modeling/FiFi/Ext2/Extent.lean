import FiFi.Ext2.Read

/-!
# How much of a file is read

On any volume, well-formed or not, `ext2_read_file` returns as many bytes of a
regular file as its blocks hold before the first missing one. What it returns
depends on the disk only and not on what is left in the scratch pages.
-/

namespace FiFi.Ext2

open ByteStore

variable {s : Fs}

/-- The number of blocks of a file that a read gets to: those before the first
missing direct block, and those before the first missing indirect one. -/
def readableBlocks (m : Img) (i : Bytes) : Nat :=
  ((direct.map (iBlock i)).takeWhile (· ≠ 0)).length +
    ((pointersOf m i).takeWhile (· ≠ 0)).length

theorem fileSize_eq (s : Fs) (path : List UInt8) :
    (fileSize s path).1 = (fileInode s path).map iSize := by
  unfold fileSize fileInode
  split
  · rfl
  · dsimp only
    split
    · rfl
    · generalize readInode (resolve s path).2 (resolve s path).1 = r
      obtain ⟨_ | i, t⟩ := r
      · rfl
      · cases hf : isFileMode i <;> simp [hf]

theorem readFile_reads (s : Fs) (path : List UInt8) (max : Nat) :
    s.Reads (readFile s path max).2 := (readFile_eq s path max).1

theorem length_blocks (m : Img) (bs : List Nat) :
    (bs.flatMap fun b => toList (m.disk b) 0 m.geo.blockSize).length =
      bs.length * m.geo.blockSize := by
  induction bs with
  | nil => simp
  | cons b bs ih =>
      rw [List.flatMap_cons, List.length_append, ih, length_toList, List.length_cons, Nat.add_mul]
      omega

theorem length_fileBytes (m : Img) (i : Bytes) (n : Nat) :
    (fileBytes m i n).length = min n (readableBlocks m i * m.geo.blockSize) := by
  unfold fileBytes bytesIn readableBlocks
  rw [List.length_take, length_blocks, List.length_append]

/-- What `ext2_read_file` reads: nothing but the bytes of a regular file, as far as
its blocks go. -/
theorem length_readFile (s : Fs) (path : List UInt8) (max : Nat) :
    (readFile s path max).1.map List.length =
      (fileInode s path).map fun i =>
        min (min (iSize i) max) (readableBlocks s.img i * s.img.geo.blockSize) := by
  rw [(readFile_eq s path max).2, Option.map_map]
  exact congrArg (Option.map · _) (funext fun i => length_fileBytes s.img i _)

/-! ### The scratch pages do not matter -/

section Congr

variable {s' : Fs}

theorem lookupIn_congr (h : s.Reads s') (name : List UInt8) (bs : List Nat) :
    (lookupIn s' name bs).1 = (lookupIn s name bs).1 := by
  rw [(lookupIn_spec s' name bs).2, (lookupIn_spec s name bs).2, h.img]

theorem lookup_congr (h : s.Reads s') (dir : Bytes) (name : List UInt8) :
    (lookup s' dir name).1 = (lookup s dir name).1 := by
  have hval := lookupIn_congr h name (direct.map (iBlock dir))
  have hr := (lookupIn_spec s name (direct.map (iBlock dir))).1
  have hr' := (lookupIn_spec s' name (direct.map (iBlock dir))).1
  simp only [lookup, lookupDirect_eq]
  generalize lookupIn s name (direct.map (iBlock dir)) = r at hval hr ⊢
  generalize lookupIn s' name (direct.map (iBlock dir)) = r' at hval hr' ⊢
  have himg : r'.2.img = r.2.img := by rw [hr'.img, h.img, hr.img]
  have hready : r'.2.ready = r.2.ready := by rw [hr'.ready, h.ready, hr.ready]
  rw [hval]
  split
  · exact hval
  · split
    · exact hval
    · simp only [lookupIndirect_eq, himg]
      refine lookupIn_congr ?_ name _
      exact ⟨hready, rfl⟩

theorem readInode_congr (h : s.Reads s') (ino : Nat) :
    (readInode s' ino).1 = (readInode s ino).1 := by
  simp only [readInode, readBlock, h.img, h.ready]
  split
  · rfl
  · split
    · rfl
    · split <;> rename_i heq <;> split at heq <;> cases heq <;> simp_all

theorem resolveFrom_congr (h : s.Reads s') (cur : Nat) (comps : List (List UInt8)) :
    (resolveFrom s' cur comps).1 = (resolveFrom s cur comps).1 := by
  induction comps generalizing s s' cur with
  | nil => rfl
  | cons comp comps ih =>
      have hval := readInode_congr h cur
      have hr := readInode_reads s cur
      have hr' := readInode_reads s' cur
      simp only [resolveFrom]
      generalize readInode s cur = r at hval hr ⊢
      generalize readInode s' cur = r' at hval hr' ⊢
      obtain ⟨o, t⟩ := r
      obtain ⟨o', t'⟩ := r'
      obtain rfl : o' = o := hval
      have ht : t.Reads t' := ⟨by rw [hr'.ready, h.ready, hr.ready], by rw [hr'.img, h.img, hr.img]⟩
      cases o' with
      | none => rfl
      | some i =>
          dsimp only
          split
          · rfl
          · rw [lookup_congr ht]
            split
            · rfl
            · have hl := lookup_reads t i comp
              have hl' := lookup_reads t' i comp
              exact ih ⟨by rw [hl'.ready, ht.ready, hl.ready], by rw [hl'.img, ht.img, hl.img]⟩ _

theorem resolve_congr (h : s.Reads s') (path : List UInt8) :
    (resolve s' path).1 = (resolve s path).1 := by
  cases path with
  | nil => rfl
  | cons c path =>
      simp only [resolve]
      split
      · exact resolveFrom_congr h 2 _
      · rfl

theorem fileInode_congr (h : s.Reads s') (path : List UInt8) :
    fileInode s' path = fileInode s path := by
  unfold fileInode
  rw [h.ready]
  have hval := resolve_congr h path
  have hr := resolve_reads s path
  have hr' := resolve_reads s' path
  have ht : (resolve s path).2.Reads (resolve s' path).2 :=
    ⟨by rw [hr'.ready, h.ready, hr.ready], by rw [hr'.img, h.img, hr.img]⟩
  dsimp only
  rw [hval, readInode_congr ht]

/-- What is read of a file is the same on the same volume. -/
theorem readFile_congr (h : s.Reads s') (path : List UInt8) (max : Nat) :
    (readFile s' path max).1 = (readFile s path max).1 := by
  rw [(readFile_eq s' path max).2, (readFile_eq s path max).2, fileInode_congr h, h.img]

end Congr

end FiFi.Ext2
