import FiFi.Ext2.Store

/-!
# Overwriting a file

What `ext2_write_file` does to the volume when the file exists. Its blocks are
given back, new ones are taken and the inode is replaced. No other inode notices:
the blocks of the others were in use all the time, so the new blocks are not
among them. Hence the volume stays well formed and the same inodes are reachable.
-/

namespace FiFi.Ext2

open ByteStore

namespace Vol

variable {v u : Vol} {ino : Nat} {i j : Bytes} {held bs : List Nat}

theorem not_isDirMode_of_isFileMode (h : isFileMode i = true) : isDirMode i = false := by
  unfold isFileMode at h
  unfold isDirMode
  rw [decide_eq_true_eq] at h
  rw [h]
  rfl

theorem mem_of_getD {pos b : Nat} (hpos : pos < bs.length) (hb : bs.getD pos 0 = b) : b ∈ bs := by
  rw [List.getD_eq_getElem _ _ hpos] at hb
  exact hb ▸ List.getElem_mem hpos

/-- The blocks `held` of the file `ino` were given back and the blocks `bs` taken
for its new inode `j`. -/
structure Overwrite (v u : Vol) (ino : Nat) (i j : Bytes) (held bs : List Nat) : Prop where
  reach : v.Reach {2} ino
  inode : v.inode ino = some i
  oldFile : isFileMode i = true
  newFile : isFileMode j = true
  ofFile : ∀ b ∈ held, ∃ pos, v.Holds i pos b
  grown : (v.giveAll held).Grown u bs
  blocks : ∀ pos b, u.Holds j pos b →
    (pos < bs.length ∧ bs.getD pos 0 = b) ∨ (v.Holds i pos b ∧ b ∉ held)

namespace Overwrite

variable (h : Overwrite v u ino i j held bs)

include h

theorem not_mem_new {b : Nat} (hb : b ∈ v.busy) (hheld : b ∉ held) : b ∉ bs :=
  fun hmem => (h.grown.free b hmem).notBusy ⟨hb, hheld⟩

theorem inode_ne {ino' : Nat} (hne : ino' ≠ ino) :
    (u.setInode ino j).inode ino' = v.inode ino' := by
  rw [setInode_ne _ hne, h.grown.inode]
  rfl

/-- The blocks of another file or directory are not given back. -/
theorem not_mem_held (hw : v.Wf) {ino' pos b : Nat} (hr : v.Reach {2} ino') (hne : ino' ≠ ino)
    (hb : v.Ref ino' pos b) : b ∉ held := by
  intro hmem
  obtain ⟨pos', hpos⟩ := h.ofFile b hmem
  exact hne (hw.unique _ _ _ _ b hr h.reach hb ⟨i, h.inode, Or.inl h.oldFile, hpos⟩).1

theorem agree (hw : v.Wf) {ino' : Nat} {i' : Bytes} (hr : v.Reach {2} ino') (hne : ino' ≠ ino)
    (hi : v.inode ino' = some i') (hm : isFileMode i' = true ∨ isDirMode i' = true) :
    Agree v (u.setInode ino j) i' where
  layout := h.grown.layout
  data pos b hb := by
    have href : v.Ref ino' pos b := ⟨i', hi, hm, hb⟩
    have hbusy := (hw.busy ino' pos b hr href).1
    exact h.grown.data b (h.not_mem_new hbusy (h.not_mem_held hw hr hne href))

theorem agree_dir (hw : v.Wf) {d : Nat} {i' : Bytes} (hr : v.Reach {2} d)
    (hi : v.inode d = some i') (hd : isDirMode i' = true) :
    (u.setInode ino j).inode d = some i' ∧ Agree v (u.setInode ino j) i' := by
  have hne : d ≠ ino := by
    rintro rfl
    obtain rfl : i' = i := Option.some.inj (hi.symm.trans h.inode)
    exact Bool.false_ne_true ((not_isDirMode_of_isFileMode h.oldFile).symm.trans hd)
  exact ⟨(h.inode_ne hne).trans hi, h.agree hw hr hne hi (Or.inr hd)⟩

/-- The same inodes are reachable. -/
theorem reach_iff (hw : v.Wf) {ino' : Nat} :
    (u.setInode ino j).Reach {2} ino' ↔ v.Reach {2} ino' := by
  constructor
  · intro hr
    induction hr with
    | root hroot => exact .root hroot
    | @entry d i' e _ hi hd he ih =>
        by_cases hne : d = ino
        · subst hne
          obtain rfl : j = i' := Option.some.inj ((setInode_self d j).symm.trans hi)
          rw [not_isDirMode_of_isFileMode h.newFile] at hd
          cases hd
        · have hi' := (h.inode_ne hne).symm.trans hi
          rw [(h.agree_dir hw ih hi' hd).2.entries_eq] at he
          exact .entry ih hi' hd he
  · intro hr
    induction hr with
    | root hroot => exact .root hroot
    | @entry d i' e hr hi hd he ih =>
        obtain ⟨hi', hagree⟩ := h.agree_dir hw hr hi hd
        exact .entry ih hi' hd (hagree.entries_eq ▸ he)

/-- A block that is referred to is a new one of the file, or was referred to from
the same place and not given back. -/
theorem ref (hw : v.Wf) {ino' pos b : Nat} (hr : v.Reach {2} ino')
    (hb : (u.setInode ino j).Ref ino' pos b) :
    (ino' = ino ∧ pos < bs.length ∧ bs.getD pos 0 = b) ∨
      (v.Ref ino' pos b ∧ b ∉ held) := by
  obtain ⟨i', hi, hm, hpos⟩ := hb
  by_cases hne : ino' = ino
  · subst hne
    obtain rfl : j = i' := Option.some.inj ((setInode_self ino' j).symm.trans hi)
    rcases h.blocks pos b hpos with hnew | ⟨hold, hheld⟩
    · exact Or.inl ⟨rfl, hnew⟩
    · exact Or.inr ⟨⟨i, h.inode, Or.inl h.oldFile, hold⟩, hheld⟩
  · have hi' := (h.inode_ne hne).symm.trans hi
    have hold := ((h.agree hw hr hne hi' hm).holds_iff pos b).1 hpos
    have href : v.Ref ino' pos b := ⟨i', hi', hm, hold⟩
    exact Or.inr ⟨href, h.not_mem_held hw hr hne href⟩

/-- The volume stays well formed. -/
theorem wf (hw : v.Wf) : (u.setInode ino j).Wf where
  layout := by
    change u.layout.Ok
    rw [h.grown.layout]
    exact hw.layout
  root := by
    obtain ⟨hmem, i', hi, hd⟩ := hw.root
    exact ⟨hmem, i', (h.agree_dir hw (.root hmem) hi hd).1, hd⟩
  taken ino' hr := by
    rw [h.reach_iff hw] at hr
    obtain ⟨htaken, i', hi⟩ := hw.taken ino' hr
    refine ⟨h.grown.taken.symm ▸ htaken, ?_⟩
    by_cases hne : ino' = ino
    · subst hne
      exact ⟨j, setInode_self _ _⟩
    · exact ⟨i', (h.inode_ne hne).trans hi⟩
  busy ino' pos b hr hb := by
    rw [h.reach_iff hw] at hr
    change b ∈ u.busy ∧ ¬ u.layout.Reserved b
    rw [h.grown.busy, h.grown.layout]
    rcases h.ref hw hr hb with ⟨-, hpos, hnew⟩ | ⟨hold, hheld⟩
    · have hmem := mem_of_getD hpos hnew
      exact ⟨Or.inr hmem, (h.grown.free b hmem).notReserved⟩
    · obtain ⟨hbusy, hres⟩ := hw.busy ino' pos b hr hold
      exact ⟨Or.inl ⟨hbusy, hheld⟩, hres⟩
  unique ino₁ ino₂ pos₁ pos₂ b hr₁ hr₂ hb₁ hb₂ := by
    rw [h.reach_iff hw] at hr₁ hr₂
    rcases h.ref hw hr₁ hb₁ with ⟨hi₁, hpos₁, hnew₁⟩ | ⟨hold₁, hheld₁⟩
    · rcases h.ref hw hr₂ hb₂ with ⟨hi₂, hpos₂, hnew₂⟩ | ⟨hold₂, hheld₂⟩
      · refine ⟨hi₁.trans hi₂.symm, ?_⟩
        rw [List.getD_eq_getElem _ _ hpos₁] at hnew₁
        rw [List.getD_eq_getElem _ _ hpos₂] at hnew₂
        exact (h.grown.nodup.getElem_inj_iff).1 (hnew₁.trans hnew₂.symm)
      · exact absurd (mem_of_getD hpos₁ hnew₁)
          (h.not_mem_new (hw.busy _ _ _ hr₂ hold₂).1 hheld₂)
    · rcases h.ref hw hr₂ hb₂ with ⟨-, hpos₂, hnew₂⟩ | ⟨hold₂, -⟩
      · exact absurd (mem_of_getD hpos₂ hnew₂)
          (h.not_mem_new (hw.busy _ _ _ hr₁ hold₁).1 hheld₁)
      · exact hw.unique _ _ _ _ b hr₁ hr₂ hold₁ hold₂
  dirs d i' hr hi hd := by
    rw [h.reach_iff hw] at hr
    by_cases hne : d = ino
    · subst hne
      obtain rfl : j = i' := Option.some.inj ((setInode_self d j).symm.trans hi)
      rw [not_isDirMode_of_isFileMode h.newFile] at hd
      cases hd
    · have hi' := (h.inode_ne hne).symm.trans hi
      exact (h.agree_dir hw hr hi' hd).2.dirOk (hw.dirs d i' hr hi' hd)

end Overwrite

end Vol

/-! ### The positions that are given back -/

variable {s t : Fs}

/-- Where an inode has the blocks that are given back. -/
def Vol.heldPositions (v : Vol) (i : Bytes) : List Nat :=
  ((List.range 12).takeWhile fun pos => v.blockAt i pos ≠ 0) ++
    ((((List.range v.pointers).takeWhile fun k => v.blockAt i (13 + k) ≠ 0).map (13 + ·)) ++
      if iBlock i 12 = 0 then [] else [12])

/-- A run of numbers from zero on has as many as its last one says. -/
theorem mem_takeWhile_range_lt {n k : Nat} {p : Nat → Bool}
    (h : k ∈ (List.range n).takeWhile p) : k < ((List.range n).takeWhile p).length := by
  have hpre := List.prefix_iff_eq_take.1 (List.takeWhile_prefix p (l := List.range n))
  rw [hpre, List.take_range, List.mem_range] at h
  omega

theorem Vol.nodup_heldPositions (v : Vol) (i : Bytes) : (v.heldPositions i).Nodup := by
  have hrange : ∀ (n : Nat) (p : Nat → Bool), ((List.range n).takeWhile p).Nodup :=
    fun n p => (List.takeWhile_sublist p).nodup List.nodup_range
  have hlt : ∀ pos ∈ (List.range 12).takeWhile fun pos => v.blockAt i pos ≠ 0, pos < 12 :=
    fun pos h => List.mem_range.1 ((List.takeWhile_sublist _).subset h)
  unfold heldPositions
  refine (hrange 12 _).append (((hrange _ _).map (add_right_injective 13)).append ?_ ?_) ?_
  · split <;> simp
  · intro pos hpos hlast
    obtain ⟨k, -, rfl⟩ := List.mem_map.1 hpos
    split at hlast
    · cases hlast
    · have heq := List.mem_singleton.1 hlast
      omega
  · intro pos hpos hrest
    have h12 := hlt pos hpos
    rcases List.mem_append.1 hrest with hmem | hmem
    · obtain ⟨k, -, rfl⟩ := List.mem_map.1 hmem
      omega
    · split at hmem <;> simp at hmem
      omega

theorem Vol.holds_of_mem_heldPositions {v : Vol} {i : Bytes} {pos : Nat}
    (h : pos ∈ v.heldPositions i) : v.Holds i pos (v.blockAt i pos) := by
  unfold heldPositions at h
  rcases List.mem_append.1 h with h | h
  · have hlt := List.mem_range.1 ((List.takeWhile_sublist _).subset h)
    exact ⟨by omega, rfl, by simpa using List.mem_takeWhile_imp h⟩
  · rcases List.mem_append.1 h with h | h
    · obtain ⟨k, hk, rfl⟩ := List.mem_map.1 h
      have hlt := List.mem_range.1 ((List.takeWhile_sublist _).subset hk)
      exact ⟨by omega, rfl, by simpa using List.mem_takeWhile_imp hk⟩
    · split at h
      · cases h
      · rename_i h0
        obtain rfl := List.mem_singleton.1 h
        exact ⟨by omega, rfl, h0⟩

theorem Vol.directBlocks_eq (v : Vol) (i : Bytes) : directBlocks i =
    ((List.range 12).takeWhile fun pos => v.blockAt i pos ≠ 0).map (v.blockAt i) := by
  have hmap : (List.range 12).map (iBlock i) = (List.range 12).map (v.blockAt i) := by
    refine List.map_congr_left fun k hk => (blockAt_direct ?_).symm
    have hlt := List.mem_range.1 hk
    omega
  unfold directBlocks direct
  rw [hmap, List.takeWhile_map]
  rfl

theorem heldBlocks_eq {i : Bytes} (h : s.vol.DataOk i) :
    heldBlocks s.img i = (s.vol.heldPositions i).map (s.vol.blockAt i) := by
  have hdirect := s.vol.directBlocks_eq i
  have hpointers : (pointersOf s.img i).takeWhile (· ≠ 0) =
      (((List.range s.vol.pointers).takeWhile fun k => s.vol.blockAt i (13 + k) ≠ 0).map
        (13 + ·)).map (s.vol.blockAt i) := by
    rw [List.map_map]
    unfold pointersOf
    by_cases h0 : iBlock i 12 = 0
    · simp [h0, Vol.blockAt_noPointer]
    · rw [if_neg h0]
      have hdata := h.data_eq (show Vol.Holds _ i 12 (iBlock i 12) from ⟨by omega, rfl, h0⟩)
      have hmap : ((List.range (s.img.geo.blockSize / 4)).map fun k =>
          le32 (s.img.disk (iBlock i 12)) (4 * k)) =
          (List.range s.vol.pointers).map fun k => s.vol.blockAt i (13 + k) := by
        simp only [Vol.blockAt_pointer _ h0, hdata]
        rfl
      rw [hmap, List.takeWhile_map]
      rfl
  unfold heldBlocks Vol.heldPositions
  rw [hdirect, hpointers, List.map_append, List.map_append]
  congr 2
  split
  · rfl
  · simp [Vol.blockAt_direct]

/-- No block of a file is given back twice, and all of them are in use. -/
theorem heldBlocks_spec (hw : s.vol.Wf) {ino : Nat} {i : Bytes} (hr : s.vol.Reach {2} ino)
    (hi : s.vol.inode ino = some i) (hf : isFileMode i = true) :
    (heldBlocks s.img i).Nodup ∧
      ∀ b ∈ heldBlocks s.img i, (∃ pos ∈ s.vol.heldPositions i, s.vol.Holds i pos b) ∧
        b ∈ s.vol.busy ∧ ¬ s.vol.layout.Reserved b := by
  have hdata := hw.dataOk hr hi (Or.inl hf)
  rw [heldBlocks_eq hdata]
  refine ⟨(Vol.nodup_heldPositions _ _).map_on fun pos hpos pos' hpos' heq => ?_, ?_⟩
  · have hold := Vol.holds_of_mem_heldPositions hpos
    have hold' := Vol.holds_of_mem_heldPositions hpos'
    exact (hw.unique _ _ _ _ _ hr hr ⟨i, hi, Or.inl hf, hold⟩
      ⟨i, hi, Or.inl hf, heq ▸ hold'⟩).2
  · intro b hb
    obtain ⟨pos, hpos, rfl⟩ := List.mem_map.1 hb
    have hold := Vol.holds_of_mem_heldPositions hpos
    exact ⟨⟨pos, hpos, hold⟩, hw.busy _ _ _ hr ⟨i, hi, Or.inl hf, hold⟩⟩

/-- A direct block that a file keeps lies behind a missing one. -/
theorem not_mem_heldBlocks (hw : s.vol.Wf) {ino pos : Nat} {i : Bytes}
    (hr : s.vol.Reach {2} ino) (hi : s.vol.inode ino = some i) (hf : isFileMode i = true)
    (hpos : pos < 12) (hlen : (directBlocks i).length ≤ pos) (h0 : iBlock i pos ≠ 0) :
    s.vol.Holds i pos (iBlock i pos) ∧ iBlock i pos ∉ heldBlocks s.img i := by
  have hold : s.vol.Holds i pos (iBlock i pos) :=
    ⟨by omega, Vol.blockAt_direct (by omega), h0⟩
  refine ⟨hold, fun hmem => ?_⟩
  obtain ⟨⟨pos', hmem', hold'⟩, -⟩ := (heldBlocks_spec hw hr hi hf).2 _ hmem
  obtain rfl := (hw.unique _ _ _ _ _ hr hr ⟨i, hi, Or.inl hf, hold⟩
    ⟨i, hi, Or.inl hf, hold'⟩).2
  rcases List.mem_append.1 hmem' with hin | hin
  · have hlt := mem_takeWhile_range_lt hin
    rw [s.vol.directBlocks_eq, List.length_map] at hlen
    omega
  · rcases List.mem_append.1 hin with hin | hin
    · obtain ⟨k, -, hk⟩ := List.mem_map.1 hin
      omega
    · split at hin <;> simp at hin
      omega

theorem iBlock_slice (i : Bytes) {k : Nat} (h : k ≤ 12) :
    iBlock (slice i 0 inodeBytes) k = iBlock i k := by
  unfold iBlock inodeBytes
  rw [le32_slice _ (by omega), Nat.zero_add]

theorem iBlock_stampFile (i : Bytes) (now len k : Nat) (isNew : Bool) :
    iBlock (stampFile (setSize i len) now isNew) k = iBlock i k := by
  have hbase : iBlock (put32 (put32 (put32 i 4 len) 16 now) 8 now) k = iBlock i k := by
    unfold iBlock
    rw [le32_put32_ne _ _ (by omega), le32_put32_ne _ _ (by omega), le32_put32_ne _ _ (by omega)]
  cases isNew with
  | false => exact hbase
  | true => exact (le32_put32_ne _ _ (by omega)).trans hbase

theorem iMode_stampFile (i : Bytes) (now len : Nat) (isNew : Bool) :
    iMode (slice (stampFile (setSize i len) now isNew) 0 inodeBytes) = iMode i := by
  have hslice : ∀ b : Bytes, iMode (slice b 0 inodeBytes) = iMode b := by
    intro b
    rfl
  have hbase : iMode (put32 (put32 (put32 i 4 len) 16 now) 8 now) = iMode i := by
    unfold iMode
    rw [le16_put32_ne _ _ (by omega), le16_put32_ne _ _ (by omega), le16_put32_ne _ _ (by omega)]
  rw [hslice]
  cases isNew with
  | false => exact hbase
  | true => exact (le16_put32_ne _ _ (by omega)).trans hbase

theorem Vol.blockAt_congr (v : Vol) {i j : Bytes} (h : ∀ k ≤ 12, iBlock j k = iBlock i k)
    (pos : Nat) : v.blockAt j pos = v.blockAt i pos := by
  unfold blockAt
  rw [h 12 le_rfl]
  split
  · rename_i hpos
    rw [h pos hpos]
  · rfl

/-! ### The call -/

/-- The data that `ext2_write_file` writes. -/
def Geo.written (g : Geo) (data : List UInt8) : List UInt8 := data.take g.maxSize

/-- Storing the data in an old inode. -/
theorem storeFile_old {ino parentIno : Nat} {i : Bytes} {name data : List UInt8} {now : Nat}
    (hrun : storeFile s ino i false parentIno name data now = (true, t)) :
    ∃ i₁ rest s₁ i' s₂, writeDirect s i data direct = (some (i₁, rest), s₁) ∧
      writeIndirect s₁ i₁ rest = (some i', s₂) ∧
      t = (writeInode s₂ ino (stampFile (setSize i' data.length) now false)).2 := by
  unfold storeFile at hrun
  generalize hd : writeDirect s i data direct = r at hrun
  obtain ⟨_ | ⟨i₁, rest⟩, s₁⟩ := r
  · cases hrun
  · dsimp only at hrun
    generalize hind : writeIndirect s₁ i₁ rest = q at hrun
    obtain ⟨_ | i', s₂⟩ := q
    · cases hrun
    · refine ⟨i₁, rest, s₁, i', s₂, rfl, hind, ?_⟩
      dsimp only at hrun
      split at hrun
      · cases hrun
      · exact (Prod.mk.inj hrun).2.symm

/-- The driver overwrote the file `ino`. -/
structure Fs.Overwrites (s t : Fs) (ino : Nat) (i : Bytes) (size : Nat) : Prop where
  ok : t.Ok
  keeps : s.Keeps t
  vol : ∃ u j bs, s.vol.Overwrite u ino i j (heldBlocks s.img i) bs ∧
    t.vol = u.setInode ino j ∧ bs.length = blocksNeeded s.blockSize size

theorem Fs.Overwrites.of_reads {u : Fs} {ino size : Nat} {i : Bytes} (h : s.Reads t)
    (h' : t.Overwrites u ino i size) : s.Overwrites u ino i size := by
  obtain ⟨w, j, bs, hover, hvol, hlen⟩ := h'.vol
  have himg : t.img = s.img := h.img
  refine ⟨h'.ok, h.keeps.trans h'.keeps, w, j, bs, ?_, hvol, ?_⟩
  · rw [← himg, ← h.vol]
    exact hover
  · rw [hlen, h.keeps.blockSize]

/-- The blocks of the file are given back and the data is stored. -/
theorem overwrite_spec (h : s.Ok) (hsuper : s.vol.layout.ApartFromSuper) (hw : s.vol.Wf)
    {ino parentIno now : Nat} {i : Bytes} {name data : List UInt8} (hr : s.vol.Reach {2} ino)
    (hi : s.vol.inode ino = some i) (hf : isFileMode i = true)
    (hlen : data.length ≤ s.img.geo.maxSize)
    (hrun : storeFile (freeIndirect (freeDirect s i direct).2 (freeDirect s i direct).1).2 ino
      (setSize (setBlocks (freeIndirect (freeDirect s i direct).2 (freeDirect s i direct).1).1 0) 0)
      false parentIno name data now = (true, t)) :
    s.Overwrites t ino i data.length := by
  obtain ⟨hnodup, hheld⟩ := heldBlocks_spec hw hr hi hf
  obtain ⟨hgive, hblock, hhead⟩ :=
    freeFile_spec h hsuper (fun b hb => (hheld b hb).2) hnodup
  generalize freeIndirect (freeDirect s i direct).2 (freeDirect s i direct).1 = f
    at hgive hblock hhead hrun
  have hsuper' : f.2.vol.layout.ApartFromSuper := by
    rw [hgive.vol]
    exact hsuper
  obtain ⟨i₁, rest, s₁, i', s₂, hd, hind, rfl⟩ := storeFile_old hrun
  have hblock0 : ∀ k, iBlock (setSize (setBlocks f.1 0) 0) k = iBlock f.1 k := by
    intro k
    exact (le32_put32_ne _ _ (by omega)).trans (le32_put32_ne _ _ (by omega))
  have hmode0 : iMode (setSize (setBlocks f.1 0) 0) = iMode i := by
    have hsame : iMode f.1 = iMode i :=
      le16_congr fun x _ hx => hhead x (by omega)
    rw [← hsame]
    exact (le16_put32_ne _ _ (by omega)).trans (le16_put32_ne _ _ (by omega))
  have h12 : iBlock (setSize (setBlocks f.1 0) 0) 12 = 0 := by
    rw [hblock0, hblock, if_pos (Or.inr rfl)]
  obtain ⟨bs, hgrow, hbs, hmode, hat⟩ :=
    writeData_spec hgive.ok hsuper' (by rwa [hgive.keeps.geo]) h12 hd hind
  rw [hgive.keeps.blockSize] at hbs hat
  have hi₂ : s₂.vol.inode ino = some i := by
    rw [hgrow.grown.inode, hgive.vol]
    exact hi
  obtain ⟨-, hput⟩ := writeInode_spec hgrow.ok hi₂ (stampFile (setSize i' data.length) now false)
  have hkeep := writeInode_keeps hgrow.ok (hgrow.apart hsuper') hi₂
    (stampFile (setSize i' data.length) now false)
  have hsameAt : ∀ pos, s₂.vol.blockAt
      (slice (stampFile (setSize i' data.length) now false) 0 inodeBytes) pos =
      s₂.vol.blockAt i' pos :=
    s₂.vol.blockAt_congr fun k hk => by rw [iBlock_slice _ hk, iBlock_stampFile]
  refine ⟨hput.ok, (hgive.keeps.trans hgrow.keeps).trans hkeep, s₂.vol, _, bs, ?_, hput.vol, hbs⟩
  refine ⟨hr, hi, hf, ?_, fun b hb => ?_, ?_, fun pos b hb => ?_⟩
  · unfold isFileMode at hf ⊢
    rwa [iMode_stampFile, hmode, hmode0]
  · obtain ⟨⟨pos, -, hold⟩, -⟩ := hheld b hb
    exact ⟨pos, hold⟩
  · rw [← hgive.vol]
    exact hgrow.grown
  · obtain ⟨hpos, hb, h0⟩ := hb
    have hsize : s₂.vol.pointers = s.blockSize / 4 := by
      unfold Vol.pointers Vol.size
      rw [hgrow.grown.layout, hgive.vol]
      rfl
    rw [hsameAt, hat pos (by omega)] at hb
    by_cases hin : pos < bs.length
    · rw [if_pos hin] at hb
      exact Or.inl ⟨hin, hb⟩
    · rw [if_neg hin] at hb
      by_cases hp12 : pos < 12
      · rw [if_pos hp12, hblock0, hblock] at hb
        by_cases hfreed : pos < (directBlocks i).length ∨ pos = 12
        · rw [if_pos hfreed] at hb
          exact absurd hb.symm h0
        · rw [if_neg hfreed] at hb
          subst hb
          exact Or.inr (not_mem_heldBlocks hw hr hi hf hp12 (by omega) h0)
      · rw [if_neg hp12] at hb
        exact absurd hb.symm h0

/-- What a write to the path of a file does. -/
theorem writeFile_overwrites (h : s.Ok) (hsuper : s.vol.layout.ApartFromSuper) (hw : s.vol.Wf)
    {path data : List UInt8} {now : Nat} {i : Bytes}
    (hi : s.vol.inode (s.vol.resolve path) = some i) (hf : isFileMode i = true)
    (hrun : writeFile s path data now = (true, t)) :
    s.Overwrites t (s.vol.resolve path) i (s.img.geo.written data).length := by
  have hne : s.vol.resolve path ≠ 0 := by
    intro h0
    rw [h0, inode_zero] at hi
    cases hi
  have hreach := Vol.reach_resolve hne
  unfold writeFile at hrun
  split at hrun
  · cases hrun
  · split at hrun
    · cases hrun
    · rename_i parent name _
      have hreads := (resolve_spec h hw parent).1
      dsimp only at hrun
      generalize resolve s parent = r at hrun hreads
      split at hrun
      · cases hrun
      · have hok := hreads.ok h
        have hwf : r.2.vol.Wf := by
          rw [hreads.vol]
          exact hw
        obtain ⟨hreads', hres⟩ := resolve_spec hok hwf path
        have hq := hreads.trans hreads'
        rw [hreads.vol] at hres
        generalize resolve r.2 path = q at hrun hres hq
        rw [if_pos (by rwa [hres]), hres] at hrun
        have hread := readInode_reads q.2 (s.vol.resolve path)
        have heq := readInode_eq (hq.ok h) (s.vol.resolve path)
        rw [hq.vol, hi] at heq
        generalize readInode q.2 (s.vol.resolve path) = p at hrun hread heq
        obtain ⟨o, s'⟩ := p
        obtain rfl : o = some i := heq
        have hp := hq.trans hread
        dsimp only at hrun
        rw [hf] at hrun
        simp only [Bool.not_true, Bool.false_eq_true, if_false] at hrun
        refine Fs.Overwrites.of_reads hp (overwrite_spec (hp.ok h) ?_ ?_ ?_ ?_ hf ?_ hrun)
        · rw [hp.vol]
          exact hsuper
        · rw [hp.vol]
          exact hw
        · rw [hp.vol]
          exact hreach
        · rw [hp.vol]
          exact hi
        · rw [hp.keeps.geo]
          exact List.length_take_le _ _

end FiFi.Ext2
