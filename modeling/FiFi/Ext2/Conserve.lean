import FiFi.Ext2.Create

/-!
# Nothing is lost by a file that comes and goes

A file is created with `ext2_write_file` and deleted with `ext2_delete_file`. What
the driver took for it is given back: its inode and all its blocks. A block that
the parent took for the entry stays with the parent.
-/

namespace FiFi.Ext2

open ByteStore

variable {s t u : Fs}

/-! ### What is the same -/

/-- The bitmaps and the counts, in memory and on the disk, say that the same is free but
for the blocks of a list. -/
structure Fs.SpaceBut (s t : Fs) (gs : List Nat) : Prop where
  geo : t.img.geo = s.img.geo
  super : t.img.disk s.img.geo.firstDataBlock = s.img.disk s.img.geo.firstDataBlock
  inodeBits : ∀ g < s.img.geo.numGroups, ∀ bit < s.img.geo.inodesPerGroup,
    bitAt (t.img.disk (s.img.bgdt g).inodeBitmap) bit =
      bitAt (s.img.disk (s.img.bgdt g).inodeBitmap) bit
  freeInodes : ∀ g < s.img.geo.numGroups,
    (t.img.bgdt g).freeInodes = (s.img.bgdt g).freeInodes
  inodesOnDisk : ∀ g < s.img.geo.numGroups, t.img.descHalf g 14 = s.img.descHalf g 14
  blockBits : ∀ g < s.img.geo.numGroups, ∀ bit < s.img.geo.blocksPerGroup,
    bitAt (t.img.disk (s.img.bgdt g).blockBitmap) bit =
      (bitAt (s.img.disk (s.img.bgdt g).blockBitmap) bit || decide (s.img.geo.blockOf g bit ∈ gs))
  freeBlocks : ∀ g < s.img.geo.numGroups,
    (t.img.bgdt g).freeBlocks + ((Finset.range s.img.geo.blocksPerGroup).filter fun bit =>
      s.img.geo.blockOf g bit ∈ gs).card = (s.img.bgdt g).freeBlocks
  blocksOnDisk : ∀ g < s.img.geo.numGroups,
    t.img.descHalf g 12 + ((Finset.range s.img.geo.blocksPerGroup).filter fun bit =>
      s.img.geo.blockOf g bit ∈ gs).card = s.img.descHalf g 12

/-- Every path leads where it led, to a file with the same bytes or to a directory with
the same entries. -/
structure Fs.SamePaths (s t : Fs) : Prop where
  resolve : ∀ path, (resolve t path).1 = (resolve s path).1
  read : ∀ path max, (readFile t path max).1 = (readFile s path max).1
  size : ∀ path, (fileSize t path).1 = (fileSize s path).1
  dir : ∀ path, (isdir t path).1 = (isdir s path).1
  listing : ∀ path, t.vol.listing (Ext2.resolve t path).1 = s.vol.listing (Ext2.resolve s path).1

theorem Img.Sound.descHalf_freeBlocks {m : Img} (h : m.Sound) {g : Nat} (hg : g < m.geo.numGroups) :
    m.descHalf g 12 = (m.bgdt g).freeBlocks := (h.descHalf_blocks hg).trans (h.freeBlocks g hg).symm

theorem Img.Sound.descHalf_freeInodes {m : Img} (h : m.Sound) {g : Nat} (hg : g < m.geo.numGroups) :
    m.descHalf g 14 = (m.bgdt g).freeInodes := (h.descHalf_inodes hg).trans (h.freeInodes g hg).symm

/-- The space follows from what is in use. -/
theorem Fs.Ok.spaceBut (h : s.Ok) (ht : t.Ok) (hkeep : s.Keeps t)
    (hlayout : t.vol.layout = s.vol.layout) {gs : List Nat} (hfree : ∀ b ∈ gs, s.vol.Free b)
    (hbusy : t.vol.busy = s.vol.busy ∪ {b | b ∈ gs}) (htaken : t.vol.taken = s.vol.taken) :
    s.SpaceBut t gs := by
  classical
  have hgeo := hkeep.geo
  have hsuper := hkeep.super
  rw [hgeo] at hsuper
  have hmem : ∀ b, b ∈ t.vol.busy ↔ b ∈ s.vol.busy ∨ b ∈ gs := by
    intro b
    rw [hbusy]
    exact Iff.rfl
  have hinodes : ∀ g < s.img.geo.numGroups,
      (t.img.bgdt g).freeInodes = (s.img.bgdt g).freeInodes := by
    intro g hg
    rw [ht.freeInodes_eq hlayout hg, h.freeInodes_eq rfl hg, htaken]
  have hblocks : ∀ g < s.img.geo.numGroups,
      (t.img.bgdt g).freeBlocks + ((Finset.range s.img.geo.blocksPerGroup).filter fun bit =>
        s.img.geo.blockOf g bit ∈ gs).card = (s.img.bgdt g).freeBlocks := by
    intro g hg
    rw [ht.freeBlocks_eq hlayout hg, h.freeBlocks_eq rfl hg,
      ← Finset.card_union_of_disjoint (Finset.disjoint_filter.2 fun bit _ hbit hin =>
        hbit ((hmem _).2 (Or.inr hin))), ← Finset.filter_or]
    refine congrArg Finset.card (Finset.filter_congr fun bit _ => ?_)
    rw [hmem, not_or]
    have hnot := fun hin => (hfree (s.img.geo.blockOf g bit) hin).notBusy
    tauto
  refine ⟨hgeo, hsuper, fun g hg bit hbit => ?_, hinodes, fun g hg => ?_, fun g hg bit hbit => ?_,
    hblocks, fun g hg => ?_⟩
  · rw [Bool.eq_iff_iff, Fs.bitAt_inode_iff hlayout hg hbit, Fs.bitAt_inode_iff rfl hg hbit, htaken]
  · rw [ht.sound.descHalf_freeInodes (by rwa [hgeo]), h.sound.descHalf_freeInodes hg, hinodes g hg]
  · rw [Bool.eq_iff_iff, Bool.or_eq_true, decide_eq_true_iff, Fs.bitAt_block_iff hlayout hg hbit,
      Fs.bitAt_block_iff rfl hg hbit, hmem]
  · rw [ht.sound.descHalf_freeBlocks (by rwa [hgeo]), h.sound.descHalf_freeBlocks hg, hblocks g hg]

/-- The paths follow from the entries. -/
theorem Fs.Ok.samePaths (h : s.Ok) (ht : t.Ok) (hw : s.vol.Wf) {d : Nat} {dir dir' : Bytes}
    {gs : List Nat} (hedit : s.vol.Edits t.vol d dir dir' gs)
    (hent : t.vol.entries dir' = s.vol.entries dir) : s.SamePaths t := by
  have hwt := hedit.wf hw hent
  have htree := hedit.sameTree hw hent
  have hfile := hedit.file_eq hw hent (inode_zero s) (inode_zero t)
  have hres : ∀ path, (resolve t path).1 = (resolve s path).1 := by
    intro path
    rw [(resolve_spec ht hwt path).2, (resolve_spec h hw path).2, htree.resolve_eq]
  refine ⟨hres, fun path max => ?_, fun path => ?_, fun path => ?_, fun path => ?_⟩
  · rw [(readFile_spec ht hwt path max).2, (readFile_spec h hw path max).2, (hfile path).1]
  · rw [(fileSize_spec ht hwt path).2, (fileSize_spec h hw path).2, (hfile path).2]
  · rw [Bool.eq_iff_iff, (isdir_spec ht hwt path).2, (isdir_spec h hw path).2, htree.resolve_eq]
    by_cases h0 : s.vol.resolve path = 0
    · unfold Vol.IsDir
      rw [h0, inode_zero, inode_zero]
    · exact htree.isDir_iff (Vol.reach_resolve h0)
  · rw [hres, (resolve_spec h hw path).2]
    by_cases h0 : s.vol.resolve path = 0
    · unfold Vol.listing
      rw [h0, inode_zero, inode_zero]
    · exact htree _ (Vol.reach_resolve h0)

/-! ### Deleting -/

/-- The file is deleted from the state after it was created. -/
theorem deleteIn_created (h : t.Ok) (hsuper : t.vol.layout.ApartFromSuper) (hw : t.vol.Wf)
    {v : Vol} (hv : v.Wf) {d ino : Nat} {dir dir' j : Bytes} {name : List UInt8}
    {bs gs : List Nat} (hc : v.Created t.vol d ino dir dir' j name bs gs)
    (hnew : v.lookup dir name = 0) (hr : t.vol.Reach {2} ino) (hrd : t.vol.Reach {2} d)
    (hdone : (deleteIn t ino j d name).1 = true) :
    t.Turns (deleteIn t ino j d name).2 (deleteIn t ino j d name).2.vol ∧
      v.Edits (deleteIn t ino j d name).2.vol d dir dir' gs ∧
      (deleteIn t ino j d name).2.vol.entries dir' = v.entries dir ∧
      (deleteIn t ino j d name).2.vol.taken = v.taken ∧
      (deleteIn t ino j d name).2.vol.busy = v.busy ∪ {b | b ∈ gs} := by
  obtain ⟨u, hgive, hdir', -, heq⟩ := deleteIn_steps h hsuper hw hr hc.inode hc.newFile hrd
    hc.edits.newDir hc.edits.isDir' name
  have hheld : ∀ b, b ∈ heldBlocks t.img j ↔ b ∈ bs := by
    intro b
    rw [heldBlocks_eq (hw.dataOk hr hc.inode (Or.inl hc.newFile))]
    exact hc.mem_heldPositions_iff b
  -- the blocks of the parent are not among those that were given back
  have htidy : u.vol.Tidy dir' := by
    rw [hgive.vol]
    refine (hw.tidy hrd hc.edits.newDir hc.edits.isDir').agree ⟨rfl, fun _ _ _ => rfl⟩
      fun pos b hb => ⟨(hw.busy d pos b hrd ⟨dir', hc.edits.newDir, Or.inr hc.edits.isDir', hb⟩).1,
        fun hmem => ?_⟩
    have hin := (hheld b).1 hmem
    rcases hc.edits.holds pos b hb with hold | ⟨-, hgs⟩
    · exact (hc.free b hin).notBusy (hv.busy d pos b hc.edits.parent
        ⟨dir, hc.edits.oldDir, Or.inr hc.edits.isDir, hold⟩).1
    · exact hc.apart b hin hgs
  rw [heq] at hdone ⊢
  dsimp only at hdone ⊢
  cases he : (removeDirent u d name).1 with
  | false => simp [he] at hdone
  | true =>
      obtain ⟨hturn, hrem⟩ := removeDirent_removed hgive.ok hdir' htidy he
      rw [hgive.vol] at hrem
      generalize removeDirent u d name = e at he hturn hrem ⊢
      have hino : ino ∈ e.2.vol.taken := by
        obtain ⟨b, -, page, hx⟩ := hrem.put
        rw [hx]
        exact (hw.taken ino hr).1
      have hlayout : e.2.vol.layout = t.vol.layout := by
        obtain ⟨b, -, page, hx⟩ := hrem.put
        rw [hx]
        rfl
      have hlast := (freeInode_spec hturn.ok hino).turns
        (freeInode_keeps hturn.ok (by rw [hlayout]; exact hsuper) ino)
      obtain ⟨hedit, hent, htaken, hbusy⟩ := hc.undone hnew hheld hrem
      simp only [Bool.not_true, Bool.false_eq_true, if_false]
      refine ⟨⟨hlast.ok, rfl, (hgive.keeps.trans hturn.keeps).trans hlast.keeps⟩, ?_⟩
      rw [hlast.vol]
      exact ⟨hedit, hent, htaken, hbusy⟩

/-! ### The calls -/

/-- **A file that is created and deleted leaves the space as it was**, but for at most
one block that its parent has got. -/
theorem create_delete_space (h : s.Ok) (hsuper : s.vol.layout.ApartFromSuper) (hw : s.vol.Wf)
    {path parent name data : List UInt8} {now : Nat}
    (hsplit : splitPath path = some (parent, name)) (hname : name.length ≤ 255)
    (hnew : (resolve s path).1 = 0) (hparent : (isdir s parent).1 = true)
    (hwrite : (writeFile s path data now).1 = true)
    (hdelete : (deleteFile (writeFile s path data now).2 path).1 = true)
    (hu : (deleteFile (writeFile s path data now).2 path).2 = u) :
    (resolve u path).1 = 0 ∧ s.SamePaths u ∧ ∃ gs dir dir', gs.length ≤ 1 ∧
      (∀ b ∈ gs, s.vol.Free b) ∧ s.SpaceBut u gs ∧
      s.vol.inode (resolve s parent).1 = some dir ∧
      u.vol.inode (resolve s parent).1 = some dir' ∧
      directBlocks dir' = directBlocks dir ++ gs := by
  have hres := (resolve_spec h hw path).2
  rw [hnew] at hres
  obtain ⟨dir, hdir, hd⟩ := (isdir_spec h hw parent).2.1 hparent
  rw [(resolve_spec h hw parent).2]
  have hp : s.vol.resolve parent ≠ 0 := by
    intro h0
    rw [h0, inode_zero] at hdir
    cases hdir
  have hspec := splitPath_spec hsplit
  have hlookup := (Vol.resolve_name hspec hname hp hdir hd).symm.trans hres.symm
  obtain ⟨s₀, hreads, heq⟩ := writeFile_new h hw hsplit hp hres.symm data now
  rw [List.take_of_length_le hname] at heq
  rw [heq] at hwrite hdelete hu
  have hs₀ := hreads.vol
  obtain ⟨hturn, ino, dir', j, bs, gs, hc⟩ := createIn_created (hreads.ok h)
    (by rw [hs₀]; exact hsuper) (by rw [hs₀]; exact hw) (by rw [hs₀]; exact Vol.reach_resolve hp)
    (by rw [hs₀]; exact hdir) hd hname
    (by rw [hreads.img]; exact List.length_take_le _ _) hwrite
  rw [hs₀] at hc
  generalize (createIn s₀ (s.vol.resolve parent) name (s.img.geo.written data) now).2 = t
    at hdelete hu hturn hc
  have hkeep := hreads.keeps.trans hturn.keeps
  have hwt := hc.wf hw
  obtain ⟨hrp, hri⟩ := hc.resolve_path hw hlookup hspec hname rfl hp
  have hino : ino ≠ 0 := by
    rintro rfl
    have hinode := hc.inode
    rw [inode_zero] at hinode
    cases hinode
  obtain ⟨t₀, hreads', heq'⟩ := deleteFile_file hturn.ok hwt hsplit (by rw [hri]; exact hc.inode)
    hc.newFile
  rw [heq', hrp, hri] at hdelete hu
  have ht₀ := hreads'.vol
  have hrd := @Vol.reach_resolve t.vol parent (by rwa [hrp])
  have hrf := @Vol.reach_resolve t.vol path (by rwa [hri])
  rw [hrp] at hrd
  rw [hri] at hrf
  obtain ⟨hturn', hedit, hent, htaken, hbusy⟩ := deleteIn_created (hreads'.ok hturn.ok)
    (by rw [ht₀, hc.edits.layout]; exact hsuper) (by rw [ht₀]; exact hwt) hw
    (by rw [ht₀]; exact hc) hlookup (by rw [ht₀]; exact hrf) (by rw [ht₀]; exact hrd) hdelete
  rw [hu] at hturn' hedit hent htaken hbusy
  have hsame := h.samePaths hturn'.ok hw hedit hent
  refine ⟨(hsame.resolve path).trans hnew, hsame, gs, dir, dir', hedit.gained, hedit.free, ?_, hdir,
    hedit.newDir, hc.direct⟩
  exact h.spaceBut hturn'.ok ((hkeep.trans hreads'.keeps).trans hturn'.keeps) hedit.layout
    hedit.free hbusy htaken

/-- The file `/b` comes and goes. -/
theorem create_delete_space_small :
    (resolve (deleteFile (writeFile smallFs [47, 98] [65] 0).2 [47, 98]).2 [47, 98]).1 = 0 ∧
      smallFs.SamePaths (deleteFile (writeFile smallFs [47, 98] [65] 0).2 [47, 98]).2 ∧
      ∃ gs dir dir', gs.length ≤ 1 ∧ (∀ b ∈ gs, smallFs.vol.Free b) ∧
        smallFs.SpaceBut (deleteFile (writeFile smallFs [47, 98] [65] 0).2 [47, 98]).2 gs ∧
        smallFs.vol.inode (resolve smallFs [47]).1 = some dir ∧
        (deleteFile (writeFile smallFs [47, 98] [65] 0).2 [47, 98]).2.vol.inode
          (resolve smallFs [47]).1 = some dir' ∧
        directBlocks dir' = directBlocks dir ++ gs :=
  create_delete_space smallFs_ok smallFs_consistent.apart smallImg_wf
    (show splitPath [47, 98] = some ([47], [98]) by decide) (by decide) (by decide)
    (by decide +kernel) (by decide +kernel) (by decide +kernel) rfl

end FiFi.Ext2
