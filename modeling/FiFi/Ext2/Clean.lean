import FiFi.Library.StateMachine
import FiFi.Ext2.Extent
import FiFi.Ext2.Overwrite

/-!
# The redundant counts of an ext2 volume

What a file system checker compares: the counts of the group descriptors with the
bitmaps, the counts of the superblock with the sums over the groups, the number
of directories of a group, and the link counts. The driver updates the first
only. It never writes the superblock, it does not count directories, and a new
directory does not raise the link count of its parent. So the counts stay right
as long as nothing changes that they count: as long as files are overwritten that
take as many blocks as before.
-/

namespace FiFi.Ext2

open ByteStore StateMachine

variable {s t : Fs}

/-! ### The counts on the disk -/

/-- A word of the superblock, which lies 1024 bytes into the disk. -/
def Img.superWord (m : Img) (o : Nat) : Nat :=
  le32 (m.disk (1024 / m.geo.blockSize)) (1024 % m.geo.blockSize + o)

/-- A half word of a group descriptor on the disk. -/
def Img.descHalf (m : Img) (g o : Nat) : Nat :=
  le16 (m.disk (m.geo.bgdBlock g)) (g * bgdBytes % m.geo.blockSize + o)

/-- `s_first_ino`: the inodes before it are reserved for the file system. -/
def Img.firstInode (m : Img) : Nat := if m.superWord 76 = 0 then 11 else m.superWord 84

/-- `i_links_count`. -/
def iLinks (i : Bytes) : Nat := le16 i 26

open Classical in
/-- The number of directories in a group. -/
noncomputable def Vol.dirsIn (v : Vol) (g : Nat) : Nat :=
  ((Finset.range v.layout.geo.inodesPerGroup).filter fun bit =>
    v.layout.geo.inodeOf g bit ∈ v.taken ∧ v.IsDir (v.layout.geo.inodeOf g bit)).card

/-- The entry of a subdirectory. -/
def Vol.Subdir (v : Vol) (e : Entry) : Prop := e.1 ≠ [46] ∧ e.1 ≠ [46, 46] ∧ v.IsDir e.2

open Classical in
/-- The number of subdirectories of a directory. -/
noncomputable def Vol.subdirs (v : Vol) (i : Bytes) : Nat :=
  (v.entries i).countP fun e => v.Subdir e

/-- What a checker finds in order: `bg_free_blocks_count`, `bg_free_inodes_count`,
`s_free_blocks_count`, `s_free_inodes_count`, `bg_used_dirs_count`, the link counts
and that no inode is lost. -/
structure Img.FsckClean (m : Img) : Prop where
  freeBlocks : ∀ g < m.geo.numGroups, m.descHalf g 12 =
    clearBits (m.disk (m.bgdt g).blockBitmap) m.geo.blocksPerGroup
  freeInodes : ∀ g < m.geo.numGroups, m.descHalf g 14 =
    clearBits (m.disk (m.bgdt g).inodeBitmap) m.geo.inodesPerGroup
  sumBlocks : m.superWord 12 = ∑ g ∈ Finset.range m.geo.numGroups, m.descHalf g 12
  sumInodes : m.superWord 16 = ∑ g ∈ Finset.range m.geo.numGroups, m.descHalf g 14
  usedDirs : ∀ g < m.geo.numGroups, m.descHalf g 16 = m.vol.dirsIn g
  links : ∀ ino i, m.vol.Reach {2} ino → m.vol.inode ino = some i → isDirMode i = true →
    iLinks i = 2 + m.vol.subdirs i
  reachable : ∀ ino ∈ m.vol.taken, m.firstInode ≤ ino → m.vol.Reach {2} ino

/-- The driver runs on a consistent image. -/
structure Fs.Consistent (s : Fs) : Prop where
  ok : s.Ok
  wf : s.vol.Wf
  superHere : s.img.geo.firstDataBlock = 1024 / s.img.geo.blockSize
  apart : s.vol.layout.ApartFromSuper
  clean : s.img.FsckClean

/-! ### The descriptors -/

theorem le16_slice (b : Bytes) {o n k : Nat} (h : k + 2 ≤ n) :
    le16 (slice b o n) k = le16 b (o + k) := by
  have hi : ∀ i < n, slice b o n i = b (o + i) := fun i hi => if_pos hi
  unfold le16
  rw [hi k (by omega), hi (k + 1) (by omega)]
  rfl

/-- The disk has the descriptors that the driver has. -/
theorem Img.Sound.descHalf_eq {m : Img} (h : m.Sound) {g o : Nat} (hg : g < m.geo.numGroups)
    (ho : o + 2 ≤ bgdBytes) : m.descHalf g o = le16 (m.bgdt g).bytes o := by
  have hdesc := congrArg (le16 · o) (h.desc g hg)
  simp only [le16_slice _ ho, Nat.zero_add] at hdesc
  exact hdesc

theorem Img.Sound.descHalf_tail {m : Img} (h : m.Sound) {g o : Nat} (hg : g < m.geo.numGroups)
    (ho : 16 ≤ o) (ho' : o + 2 ≤ bgdBytes) : m.descHalf g o = le16 (m.bgdt g).tail o := by
  rw [h.descHalf_eq hg ho']
  refine le16_congr fun x hx hx' => ?_
  unfold Bgd.bytes
  rw [put16_ne _ _ (by omega), put16_ne _ _ (by omega), put32_ne _ _ (by omega),
    put32_ne _ _ (by omega), put32_ne _ _ (by omega)]

theorem Img.Sound.descHalf_blocks {m : Img} (h : m.Sound) {g : Nat} (hg : g < m.geo.numGroups) :
    m.descHalf g 12 = clearBits (m.disk (m.bgdt g).blockBitmap) m.geo.blocksPerGroup := by
  have hle := clearBits_le (m.disk (m.bgdt g).blockBitmap) m.geo.blocksPerGroup
  have hper := (Img.sound_perGroup h).1
  have hsmall : (m.bgdt g).freeBlocks < 2 ^ 16 := by
    rw [h.freeBlocks g hg]
    omega
  rw [h.descHalf_eq hg (by decide), ← h.freeBlocks g hg]
  unfold Bgd.bytes
  exact (le16_congr fun x hx hx' => put16_ne _ _ (by omega)).trans (le16_put16_of_lt _ _ hsmall)

theorem Img.Sound.descHalf_inodes {m : Img} (h : m.Sound) {g : Nat} (hg : g < m.geo.numGroups) :
    m.descHalf g 14 = clearBits (m.disk (m.bgdt g).inodeBitmap) m.geo.inodesPerGroup := by
  have hle := clearBits_le (m.disk (m.bgdt g).inodeBitmap) m.geo.inodesPerGroup
  have hper := (Img.sound_perGroup h).2
  have hsmall : (m.bgdt g).freeInodes < 2 ^ 16 := by
    rw [h.freeInodes g hg]
    omega
  rw [h.descHalf_eq hg (by decide), ← h.freeInodes g hg]
  exact le16_put16_of_lt _ _ hsmall

/-! ### Free blocks -/

open Classical in
/-- The free blocks of a volume. -/
noncomputable def Vol.freeSet (v : Vol) : Finset Nat :=
  ((Finset.range v.layout.geo.numGroups ×ˢ Finset.range v.layout.geo.blocksPerGroup).image
    fun p => v.layout.geo.blockOf p.1 p.2).filter fun b => b ∉ v.busy

/-- The block belongs to a group. -/
def Layout.InGroups (l : Layout) (b : Nat) : Prop :=
  ∃ g bit, g < l.geo.numGroups ∧ bit < l.geo.blocksPerGroup ∧ l.geo.blockOf g bit = b

theorem Vol.mem_freeSet {v : Vol} {b : Nat} :
    b ∈ v.freeSet ↔ v.layout.InGroups b ∧ b ∉ v.busy := by
  unfold freeSet Layout.InGroups
  simp only [Finset.mem_filter, Finset.mem_image, Finset.mem_product, Finset.mem_range,
    Prod.exists, and_assoc]

theorem Fs.Ok.inGroups (h : s.Ok) {b : Nat} (hb : b ∈ s.vol.busy) : s.vol.layout.InGroups b := by
  obtain ⟨g, bit, hbit, rfl⟩ := s.img.geo.exists_blockOf h.sound.layout.perGroup.1 hb.1
  exact ⟨g, bit, ((s.img.mem_busy_blockOf hbit).1 hb).1, hbit, rfl⟩

/-- The free blocks are the clear bits of all groups. -/
theorem Fs.Ok.sum_clearBits (h : s.Ok) :
    ∑ g ∈ Finset.range s.img.geo.numGroups,
      clearBits (s.img.disk (s.img.bgdt g).blockBitmap) s.img.geo.blocksPerGroup =
        s.vol.freeSet.card := by
  classical
  have hinj : Set.InjOn (fun p : Nat × Nat => s.img.geo.blockOf p.1 p.2)
      (Finset.range s.img.geo.numGroups ×ˢ Finset.range s.img.geo.blocksPerGroup : Finset _) := by
    rintro ⟨g, bit⟩ hp ⟨g', bit'⟩ hp' heq
    simp only [Finset.coe_product, Set.mem_prod, Finset.mem_coe, Finset.mem_range] at hp hp'
    obtain ⟨rfl, rfl⟩ := (s.img.geo.blockOf_inj hp.2 hp'.2).1 heq
    rfl
  have hcard : s.vol.freeSet.card = ∑ g ∈ Finset.range s.img.geo.numGroups,
      ∑ bit ∈ Finset.range s.img.geo.blocksPerGroup,
        if s.img.geo.blockOf g bit ∉ s.vol.busy then 1 else 0 := by
    have hgeo : s.vol.layout.geo = s.img.geo := rfl
    unfold Vol.freeSet
    rw [hgeo, Finset.card_filter, Finset.sum_image hinj, Finset.sum_product]
  rw [hcard]
  refine Finset.sum_congr rfl fun g hg => ?_
  rw [← Finset.card_filter]
  unfold clearBits
  congr 1
  refine Finset.filter_congr fun bit hbit => ?_
  have hmem := s.img.mem_busy_blockOf (g := g) (Finset.mem_range.1 hbit)
  rw [show s.vol.busy = s.img.vol.busy from rfl, hmem, not_and, Bool.not_eq_true]
  exact ⟨fun hclear _ => hclear, fun hclear => hclear (Finset.mem_range.1 hg)⟩

/-- The count of free inodes follows from the inodes that are in use. -/
theorem Img.Sound.inodes_congr {m n : Img} (h : m.Sound) (h' : n.Sound) (hgeo : n.geo = m.geo)
    (htaken : n.vol.taken = m.vol.taken) {g : Nat} (hg : g < m.geo.numGroups) :
    n.descHalf g 14 = m.descHalf g 14 := by
  rw [h.descHalf_inodes hg, h'.descHalf_inodes (by rwa [hgeo]), hgeo]
  unfold clearBits
  congr 1
  refine Finset.filter_congr fun bit hbit => ?_
  have hbit := Finset.mem_range.1 hbit
  have hmem := m.mem_taken_inodeOf (g := g) hbit
  have hmem' := n.mem_taken_inodeOf (g := g) (by rwa [hgeo])
  rw [htaken, hgeo] at hmem'
  simp only [hg, true_and] at hmem hmem'
  rw [← Bool.not_eq_true, ← Bool.not_eq_true]
  exact not_congr (hmem'.symm.trans hmem)

theorem Vol.card_freeSet_giveAll {v : Vol} {bs : List Nat} (hnodup : bs.Nodup)
    (hbs : ∀ b ∈ bs, b ∈ v.busy ∧ v.layout.InGroups b) :
    (v.giveAll bs).freeSet.card = v.freeSet.card + bs.length := by
  have hunion : (v.giveAll bs).freeSet = v.freeSet ∪ bs.toFinset := by
    ext b
    rw [mem_freeSet, Finset.mem_union, mem_freeSet, List.mem_toFinset]
    change v.layout.InGroups b ∧ ¬ (b ∈ v.busy ∧ b ∉ bs) ↔ _
    constructor
    · tauto
    · rintro (h | h)
      · exact ⟨h.1, fun hc => h.2 hc.1⟩
      · exact ⟨(hbs b h).2, fun hc => hc.2 h⟩
  rw [hunion, Finset.card_union_of_disjoint, List.toFinset_card_of_nodup hnodup]
  refine Finset.disjoint_left.2 fun b hb hb' => ?_
  exact (mem_freeSet.1 hb).2 (hbs b (List.mem_toFinset.1 hb')).1

theorem Vol.Grown.card_freeSet {v v' : Vol} {bs : List Nat} (h : v.Grown v' bs)
    (hbs : ∀ b ∈ bs, v.layout.InGroups b) :
    v'.freeSet.card + bs.length = v.freeSet.card := by
  have hunion : v.freeSet = v'.freeSet ∪ bs.toFinset := by
    ext b
    rw [mem_freeSet, Finset.mem_union, mem_freeSet, List.mem_toFinset, h.layout, h.busy]
    change _ ↔ (_ ∧ ¬ (b ∈ v.busy ∨ b ∈ bs)) ∨ _
    constructor
    · tauto
    · rintro (hf | hb)
      · exact ⟨hf.1, fun hc => hf.2 (Or.inl hc)⟩
      · exact ⟨hbs b hb, (h.free b hb).notBusy⟩
  rw [hunion, Finset.card_union_of_disjoint, List.toFinset_card_of_nodup h.nodup]
  refine Finset.disjoint_left.2 fun b hb hb' => (mem_freeSet.1 hb).2 ?_
  rw [h.busy]
  exact Or.inr (List.mem_toFinset.1 hb')

/-! ### Overwriting -/

section Overwrites

variable {ino size : Nat} {i : Bytes}

theorem Fs.Overwrites.layout (h : s.Overwrites t ino i size) : t.vol.layout = s.vol.layout := by
  obtain ⟨u, j, bs, hover, hvol, -⟩ := h.vol
  rw [hvol]
  exact hover.grown.layout

theorem Fs.Overwrites.wf (h : s.Overwrites t ino i size) (hw : s.vol.Wf) : t.vol.Wf := by
  obtain ⟨u, j, bs, hover, hvol, -⟩ := h.vol
  rw [hvol]
  exact hover.wf hw

theorem Fs.Overwrites.reach_iff (h : s.Overwrites t ino i size) (hw : s.vol.Wf) {ino' : Nat} :
    t.vol.Reach {2} ino' ↔ s.vol.Reach {2} ino' := by
  obtain ⟨u, j, bs, hover, hvol, -⟩ := h.vol
  rw [hvol]
  exact hover.reach_iff hw

theorem Fs.Overwrites.taken (h : s.Overwrites t ino i size) : t.vol.taken = s.vol.taken := by
  obtain ⟨u, j, bs, hover, hvol, -⟩ := h.vol
  rw [hvol]
  exact hover.grown.taken

/-- The same inodes are directories. -/
theorem Fs.Overwrites.isDir_iff (h : s.Overwrites t ino i size) {ino' : Nat} :
    t.vol.IsDir ino' ↔ s.vol.IsDir ino' := by
  obtain ⟨u, j, bs, hover, hvol, -⟩ := h.vol
  unfold Vol.IsDir
  rw [hvol]
  by_cases hne : ino' = ino
  · subst hne
    rw [Vol.setInode_self, hover.inode]
    simp [Vol.not_isDirMode_of_isFileMode hover.newFile,
      Vol.not_isDirMode_of_isFileMode hover.oldFile]
  · rw [hover.inode_ne hne]

/-- A directory that is reachable has its inode and its entries as before. -/
theorem Fs.Overwrites.dir_eq (h : s.Overwrites t ino i size) (hw : s.vol.Wf) {d : Nat} {i' : Bytes}
    (hr : t.vol.Reach {2} d) (hi : t.vol.inode d = some i') (hd : isDirMode i' = true) :
    s.vol.inode d = some i' ∧ t.vol.entries i' = s.vol.entries i' := by
  have hr' := (h.reach_iff hw).1 hr
  obtain ⟨i'', hi'', hd''⟩ := h.isDir_iff.1 ⟨i', hi, hd⟩
  obtain ⟨u, j, bs, hover, hvol, -⟩ := h.vol
  obtain ⟨heq, hagree⟩ := hover.agree_dir hw hr' hi'' hd''
  rw [← hvol] at heq hagree
  obtain rfl : i' = i'' := Option.some.inj (hi.symm.trans heq)
  exact ⟨hi'', hagree.entries_eq⟩

/-- As many blocks are free as before if the file takes as many as it held. -/
theorem Fs.Overwrites.card_freeSet (h : s.Overwrites t ino i size) (hs : s.Ok) (hw : s.vol.Wf)
    (hsame : blocksNeeded s.blockSize size = (heldBlocks s.img i).length) :
    t.vol.freeSet.card = s.vol.freeSet.card := by
  have hlay := h.layout
  obtain ⟨u, j, bs, hover, hvol, hlen⟩ := h.vol
  obtain ⟨hnodup, hheld⟩ := heldBlocks_spec hw hover.reach hover.inode hover.oldFile
  have hgive := Vol.card_freeSet_giveAll hnodup fun b hb =>
    ⟨(hheld b hb).2.1, hs.inGroups (hheld b hb).2.1⟩
  have hgrow := hover.grown.card_freeSet fun b hb => by
    have hbusy : b ∈ t.vol.busy := by
      rw [hvol]
      change b ∈ u.busy
      rw [hover.grown.busy]
      exact Or.inr hb
    have hin := h.ok.inGroups hbusy
    rwa [hlay] at hin
  have hfree : t.vol.freeSet = u.freeSet := by
    rw [hvol]
    rfl
  rw [hfree]
  omega

theorem Fs.Keeps.superWord (h : s.Keeps t)
    (hsuper : s.img.geo.firstDataBlock = 1024 / s.img.geo.blockSize) (o : Nat) :
    t.img.superWord o = s.img.superWord o := by
  have hdisk := h.super
  unfold Img.superWord
  rw [h.geo] at hdisk ⊢
  rw [← hsuper, hdisk]

theorem Fs.Overwrites.consistent (h : s.Overwrites t ino i size) (hs : s.Consistent)
    (hsame : blocksNeeded s.blockSize size = (heldBlocks s.img i).length) : t.Consistent := by
  have hgeo := h.keeps.geo
  have hword := h.keeps.superWord hs.superHere
  have hinodes : ∀ g < s.img.geo.numGroups, t.img.descHalf g 14 = s.img.descHalf g 14 :=
    fun g hg => hs.ok.sound.inodes_congr h.ok.sound hgeo h.taken hg
  have hdir : t.vol.IsDir = s.vol.IsDir := funext fun _ => propext h.isDir_iff
  refine ⟨h.ok, h.wf hs.wf, by rw [hgeo, hs.superHere], by rw [h.layout]; exact hs.apart, ?_⟩
  constructor
  · intro g hg
    exact h.ok.sound.descHalf_blocks hg
  · intro g hg
    exact h.ok.sound.descHalf_inodes hg
  · have hsum : ∀ u : Fs, u.Ok → ∑ g ∈ Finset.range u.img.geo.numGroups, u.img.descHalf g 12 =
        u.vol.freeSet.card := by
      intro u hu
      rw [← hu.sum_clearBits]
      exact Finset.sum_congr rfl fun g hg => hu.sound.descHalf_blocks (Finset.mem_range.1 hg)
    rw [hword, hs.clean.sumBlocks, hsum s hs.ok, hsum t h.ok, h.card_freeSet hs.ok hs.wf hsame]
  · rw [hword, hs.clean.sumInodes, hgeo]
    exact Finset.sum_congr rfl fun g hg => (hinodes g (Finset.mem_range.1 hg)).symm
  · intro g hg
    rw [hgeo] at hg
    have hdirs : t.vol.dirsIn g = s.vol.dirsIn g := by
      unfold Vol.dirsIn
      rw [h.layout, h.taken, hdir]
    refine Eq.trans ?_ ((hs.clean.usedDirs g hg).trans hdirs.symm)
    rw [h.ok.sound.descHalf_tail (by rwa [hgeo]) le_rfl (by decide),
      hs.ok.sound.descHalf_tail hg le_rfl (by decide), h.keeps.tail g]
  · intro d i' hr hi hd
    obtain ⟨hi', hentries⟩ := h.dir_eq hs.wf hr hi hd
    have hsub : t.vol.subdirs i' = s.vol.subdirs i' := by
      unfold Vol.subdirs Vol.Subdir
      rw [hentries, hdir]
    change _ = 2 + t.vol.subdirs i'
    rw [hsub]
    exact hs.clean.links d i' ((h.reach_iff hs.wf).1 hr) hi' hd
  · intro ino' htaken hfirst
    change ino' ∈ t.vol.taken at htaken
    change t.vol.Reach {2} ino'
    rw [h.taken] at htaken
    rw [h.reach_iff hs.wf]
    refine hs.clean.reachable ino' htaken ?_
    unfold Img.firstInode at hfirst ⊢
    rwa [hword, hword] at hfirst

end Overwrites

/-! ### A small volume -/

/-- A descriptor with one directory, and with 8 blocks and 5 inodes that are free. -/
def smallBgd : Bgd where
  blockBitmap := 3
  inodeBitmap := 4
  inodeTable := 5
  freeBlocks := 8
  freeInodes := 5
  tail := put16 (fun _ => 0) 16 1

/-- The root directory in block 7, with the file `/a`. -/
def smallRoot : Bytes :=
  putEntry (put16 (put16 (dotBlock (fun _ => 0) 1024 2 2) 16 12) 28 1000) 24 11 1 [97]

/-- The inode of a directory or a file with one block. -/
def smallInode (mode links blk : Nat) : Bytes :=
  setBlock (put16 (put16 (fun _ => 0) 0 mode) 26 links) 0 blk

/-- One group of 16 blocks and 16 inodes. The file `/a` has inode 11 and block 8. -/
def smallImg : Img where
  geo := ⟨1024, 16, 16, 128, 1, 1⟩
  bgdt _ := smallBgd
  disk
    | 1 => put32 (put32 (fun _ => 0) 12 8) 16 5
    | 2 => smallBgd.bytes
    | 3 => fun i => if i = 0 then 255 else 0
    | 4 => fun i => if i = 0 then 255 else if i = 1 then 7 else 0
    | 5 => blit (fun _ => 0) 128 128 (smallInode 0x4000 2 7)
    | 6 => blit (fun _ => 0) 256 128 (smallInode 0x8000 1 8)
    | 7 => smallRoot
    | _ => fun _ => 0

def smallFs : Fs := ⟨true, smallImg, fun _ => 0, fun _ => 0⟩

/-- The areas of the small volume are the blocks 2 to 6. -/
theorem smallImg_has {a : Area} (h : smallImg.layout.Has a) :
    a = .blockMap 0 ∨ a = .inodeMap 0 ∨ a = .table 0 0 ∨ a = .table 0 1 ∨ a = .desc 0 := by
  cases a with
  | blockMap g =>
      have hg : g < 1 := h
      simp [Nat.lt_one_iff.1 hg]
  | inodeMap g =>
      have hg : g < 1 := h
      simp [Nat.lt_one_iff.1 hg]
  | table g k =>
      have hg : g < 1 ∧ k * 1024 < 16 * 128 := h
      obtain rfl : g = 0 := by omega
      have hk : k = 0 ∨ k = 1 := by omega
      rcases hk with rfl | rfl <;> simp
  | desc k =>
      have hk : k * 1024 < 1 * 32 := h
      obtain rfl : k = 0 := by omega
      simp

theorem smallImg_reserved {b : Nat} (h : smallImg.layout.Reserved b) : b ≤ 6 := by
  rcases h with rfl | rfl | ⟨a, ha, rfl⟩
  · omega
  · decide
  · rcases smallImg_has ha with rfl | rfl | rfl | rfl | rfl <;> decide

theorem smallImg_busy {b : Nat} : b ∈ smallImg.vol.busy ↔ 1 ≤ b ∧ b ≤ 8 := by
  have hbits : ∀ k : Fin 16, bitAt (smallImg.disk 3) k.val = true ↔ k.val ≤ 7 := by decide
  constructor
  · rintro ⟨hle, hg, hset⟩
    have hg' : (b - 1) / 16 < 1 := hg
    have hle' : 1 ≤ b := hle
    have hb := (hbits ⟨(b - 1) % 16, by omega⟩).1 hset
    dsimp only at hb
    omega
  · rintro ⟨hle, hb⟩
    have hg : (b - 1) / 16 < 1 := by omega
    refine ⟨hle, hg, (hbits ⟨(b - 1) % 16, by omega⟩).2 ?_⟩
    dsimp only
    omega

theorem smallImg_taken {ino : Nat} : ino ∈ smallImg.vol.taken ↔ 1 ≤ ino ∧ ino ≤ 11 := by
  have hbits : ∀ k : Fin 16, bitAt (smallImg.disk 4) k.val = true ↔ k.val ≤ 10 := by
    decide
  constructor
  · rintro ⟨h0, hg, hset⟩
    have hg' : (ino - 1) / 16 < 1 := hg
    have hb := (hbits ⟨(ino - 1) % 16, by omega⟩).1 hset
    dsimp only at hb
    omega
  · rintro ⟨hle, hb⟩
    have hg : (ino - 1) / 16 < 1 := by omega
    refine ⟨by omega, hg, (hbits ⟨(ino - 1) % 16, by omega⟩).2 ?_⟩
    dsimp only
    omega

theorem smallImg_sound : smallImg.Sound where
  layout :=
    { size := Or.inl rfl
      inodeSize := by decide
      inodeFits := by decide
      perGroup := by decide
      inodesPerGroup := by decide
      numBlocks := by decide
      numInodes := by decide
      apart := by
        intro a a' ha ha' heq
        rcases smallImg_has ha with rfl | rfl | rfl | rfl | rfl <;>
          rcases smallImg_has ha' with rfl | rfl | rfl | rfl | rfl <;>
          first | rfl | exact absurd heq (by decide)
      nonzero := by
        intro a ha
        rcases smallImg_has ha with rfl | rfl | rfl | rfl | rfl <;> decide }
  reserved b hb hle := by
    have h6 := smallImg_reserved hb
    have hle' : 1 ≤ b := hle
    exact smallImg_busy.2 ⟨hle', by omega⟩
  freeBlocks g hg := by
    decide +revert +kernel
  freeInodes g hg := by
    decide +revert +kernel
  desc g hg := by
    obtain rfl := Nat.lt_one_iff.1 hg
    rfl

theorem smallFs_ok : smallFs.Ok := ⟨rfl, smallImg_sound⟩

theorem smallImg_inode {ino : Nat} (h0 : ino ≠ 0) (h : ino ≤ 16) : smallImg.vol.inode ino =
    some (slice (smallImg.disk (smallImg.inodeBlock ino)) (smallImg.inodeOffset ino)
      inodeBytes) := by
  refine if_neg ?_
  have hg : (ino - 1) / 16 < 1 := by omega
  exact not_or.2 ⟨h0, Nat.not_le.2 hg⟩

/-- An inode with one block. -/
structure OneBlock (i : Bytes) (b : Nat) : Prop where
  first : iBlock i 0 = b
  nonzero : b ≠ 0
  rest : ∀ k ≤ 12, k ≠ 0 → iBlock i k = 0

theorem OneBlock.holds {v : Vol} {i : Bytes} {b pos c : Nat} (h : OneBlock i b)
    (hc : v.Holds i pos c) : pos = 0 ∧ c = b := by
  obtain ⟨-, hat, hne⟩ := hc
  by_cases h0 : pos = 0
  · subst h0
    exact ⟨rfl, by rw [← hat, Vol.blockAt_direct (by omega), h.first]⟩
  · refine absurd ?_ hne
    rw [← hat]
    unfold Vol.blockAt
    split
    · rename_i hle
      exact h.rest pos hle h0
    · rw [if_pos (h.rest 12 le_rfl (by decide))]

def smallRootInode : Bytes := slice (smallImg.disk 5) 128 inodeBytes

def smallFileInode : Bytes := slice (smallImg.disk 6) 256 inodeBytes

theorem smallImg_root : smallImg.vol.inode 2 = some smallRootInode :=
  smallImg_inode (by decide) (by decide)

theorem smallImg_file : smallImg.vol.inode 11 = some smallFileInode :=
  smallImg_inode (by decide) (by decide)

theorem smallRootInode_block : OneBlock smallRootInode 7 := by
  refine ⟨by decide, by decide, fun k hk h0 => ?_⟩
  have hall : ∀ k : Fin 13, k.val ≠ 0 → iBlock smallRootInode k = 0 := by decide
  exact hall ⟨k, by omega⟩ h0

theorem smallFileInode_block : OneBlock smallFileInode 8 := by
  refine ⟨by decide, by decide, fun k hk h0 => ?_⟩
  have hall : ∀ k : Fin 13, k.val ≠ 0 → iBlock smallFileInode k = 0 := by decide
  exact hall ⟨k, by omega⟩ h0

theorem OneBlock.dataOk {i : Bytes} {b : Nat} (h : OneBlock i b) (hb : 6 < b) :
    smallFs.vol.DataOk i := by
  intro pos c hc hr
  have h6 := smallImg_reserved hr
  have hc' := (h.holds hc).2
  omega

theorem OneBlock.blocks {i : Bytes} {b : Nat} (h : OneBlock i b) (hb : 6 < b) :
    smallFs.vol.blocks i = [b] := by
  have hrange : direct = 0 :: 1 :: (List.range' 2 10) := rfl
  have h1 := h.rest 1 (by decide) (by decide)
  have h12 := h.rest 12 (by decide) (by decide)
  rw [(h.dataOk hb).blocks_eq, hrange]
  simp [pointersOf, h.first, h1, h12, h.nonzero]

theorem smallImg_entries : smallImg.vol.entries smallRootInode =
    [([46], 2), ([46, 46], 2), ([97], 11)] := by
  have hentries := (smallRootInode_block.dataOk (by decide)).entries_eq
  rw [smallRootInode_block.blocks (by decide)] at hentries
  refine hentries.trans ?_
  decide

theorem smallImg_reach {ino : Nat} : smallImg.vol.Reach {2} ino ↔ ino = 2 ∨ ino = 11 := by
  constructor
  · intro h
    induction h with
    | root hroot => exact Or.inl hroot
    | @entry d i e _ hi hd he ih =>
        rcases ih with rfl | rfl
        · obtain rfl := Option.some.inj (smallImg_root.symm.trans hi)
          rw [smallImg_entries] at he
          simp only [List.mem_cons, List.not_mem_nil, or_false] at he
          rcases he with rfl | rfl | rfl <;> simp
        · obtain rfl := Option.some.inj (smallImg_file.symm.trans hi)
          exact absurd hd (by decide)
  · rintro (rfl | rfl)
    · exact .root rfl
    · have hmem : ([97], 11) ∈ smallImg.vol.entries smallRootInode := by
        rw [smallImg_entries]
        simp
      have hroot : smallImg.vol.Reach {2} 2 := .root rfl
      exact .entry hroot smallImg_root (by decide) hmem

/-- The two inodes have one block each. -/
theorem smallImg_ref {ino pos b : Nat} (hr : smallImg.vol.Reach {2} ino)
    (h : smallImg.vol.Ref ino pos b) :
    (ino = 2 ∧ pos = 0 ∧ b = 7) ∨ (ino = 11 ∧ pos = 0 ∧ b = 8) := by
  obtain ⟨i, hi, -, hpos⟩ := h
  rcases smallImg_reach.1 hr with rfl | rfl
  · obtain rfl := Option.some.inj (smallImg_root.symm.trans hi)
    exact Or.inl ⟨rfl, smallRootInode_block.holds hpos⟩
  · obtain rfl := Option.some.inj (smallImg_file.symm.trans hi)
    exact Or.inr ⟨rfl, smallFileInode_block.holds hpos⟩

theorem smallImg_wf : smallImg.vol.Wf where
  layout := smallImg_sound.layout
  root := ⟨rfl, smallRootInode, smallImg_root, by decide⟩
  taken ino hr := by
    rcases smallImg_reach.1 hr with rfl | rfl
    · exact ⟨smallImg_taken.2 (by decide), _, smallImg_root⟩
    · exact ⟨smallImg_taken.2 (by decide), _, smallImg_file⟩
  busy ino pos b hr hb := by
    have hb' := smallImg_ref hr hb
    refine ⟨smallImg_busy.2 (by omega), fun hres => ?_⟩
    have h6 := smallImg_reserved hres
    omega
  unique ino ino' pos pos' b hr hr' hb hb' := by
    have h := smallImg_ref hr hb
    have h' := smallImg_ref hr' hb'
    omega
  dirs ino i hr hi hd := by
    rcases smallImg_reach.1 hr with rfl | rfl
    · obtain rfl := Option.some.inj (smallImg_root.symm.trans hi)
      refine ⟨fun k k' hlt hle _ => smallRootInode_block.rest k' hle (by omega), fun b hb => ?_⟩
      have hblocks : smallImg.vol.blocks smallRootInode = [7] :=
        smallRootInode_block.blocks (by decide)
      rw [hblocks] at hb
      obtain rfl := List.mem_singleton.1 hb
      have hdata : smallImg.vol.data 7 = smallRoot :=
        Img.data_of_not_reserved fun hres => absurd (smallImg_reserved hres) (by decide)
      rw [hdata]
      change ∀ p ∈ offsets smallRoot 1024, _
      decide
    · obtain rfl := Option.some.inj (smallImg_file.symm.trans hi)
      exact absurd hd (by decide)

theorem smallImg_isDir {ino : Nat} (h0 : ino ≠ 0) (h : ino ≤ 16) :
    smallImg.vol.IsDir ino ↔ ino = 2 := by
  have hall : ∀ k : Fin 17, isDirMode (slice (smallImg.disk (smallImg.inodeBlock k))
      (smallImg.inodeOffset k) inodeBytes) = true ↔ k.val = 2 := by decide
  refine Iff.trans ?_ (hall ⟨ino, by omega⟩)
  unfold Vol.IsDir
  rw [smallImg_inode h0 h]
  constructor
  · rintro ⟨i, hi, hd⟩
    obtain rfl := Option.some.inj hi
    exact hd
  · exact fun hd => ⟨_, rfl, hd⟩

theorem smallImg_clean : smallImg.FsckClean where
  freeBlocks g hg := smallImg_sound.descHalf_blocks hg
  freeInodes g hg := smallImg_sound.descHalf_inodes hg
  sumBlocks := by decide
  sumInodes := by decide
  usedDirs g hg := by
    obtain rfl := Nat.lt_one_iff.1 hg
    have hone : smallImg.vol.dirsIn 0 = ({1} : Finset Nat).card := by
      unfold Vol.dirsIn
      congr 1
      ext bit
      have hino : smallImg.vol.layout.geo.inodeOf 0 bit = bit + 1 := by
        change 0 * 16 + bit + 1 = bit + 1
        omega
      simp only [Finset.mem_filter, Finset.mem_range, Finset.mem_singleton, hino, smallImg_taken]
      change bit < 16 ∧ _ ↔ _
      constructor
      · rintro ⟨hbit, -, hd⟩
        have h2 := (smallImg_isDir (by omega) (by omega)).1 hd
        omega
      · rintro rfl
        exact ⟨by decide, by decide, (smallImg_isDir (by decide) (by decide)).2 rfl⟩
    rw [hone]
    decide
  links ino i hr hi hd := by
    rcases smallImg_reach.1 hr with rfl | rfl
    · obtain rfl := Option.some.inj (smallImg_root.symm.trans hi)
      have hnone : smallImg.vol.subdirs smallRootInode = 0 := by
        unfold Vol.subdirs
        rw [smallImg_entries, List.countP_eq_zero]
        intro e he
        have hfile : ¬ smallImg.vol.IsDir 11 := by
          rw [smallImg_isDir (by decide) (by decide)]
          decide
        simp only [List.mem_cons, List.not_mem_nil, or_false] at he
        rcases he with rfl | rfl | rfl <;> simp [Vol.Subdir, hfile]
      rw [hnone]
      decide
    · obtain rfl := Option.some.inj (smallImg_file.symm.trans hi)
      exact absurd hd (by decide)
  reachable ino htaken hfirst := by
    have hfirst' : 11 ≤ ino := hfirst
    have htaken' := smallImg_taken.1 htaken
    exact smallImg_reach.2 (by omega)

theorem smallFs_consistent : smallFs.Consistent where
  ok := smallFs_ok
  wf := smallImg_wf
  superHere := rfl
  apart := by
    intro a ha
    rcases smallImg_has ha with rfl | rfl | rfl | rfl | rfl <;> decide
  clean := smallImg_clean

/-! ### Runs -/

/-- The calls that change the volume. -/
inductive FileCall where
  | write (path data : List UInt8) (now : Nat)
  | mkdir (path : List UInt8) (now : Nat)
  | delete (path : List UInt8)

def FileCall.run (s : Fs) : FileCall → Bool × Fs
  | .write path data now => writeFile s path data now
  | .mkdir path now => Ext2.mkdir s path now
  | .delete path => deleteFile s path

def fileStep (s : Fs) (c : FileCall) : Fs := (c.run s).2

/-- The call returns 0. -/
def FileCall.Succeeds (s : Fs) (c : FileCall) : Prop := (c.run s).1 = true

/-- A regular file is overwritten, and the data takes as many blocks as the file
holds, indirect blocks included. -/
def FileCall.SameBlocks (s : Fs) : FileCall → Prop
  | .write path data _ => ∃ i, fileInode s path = some i ∧
      blocksNeeded s.blockSize (s.img.geo.written data).length = (heldBlocks s.img i).length
  | _ => False

theorem fileInode_spec (h : s.Ok) (hw : s.vol.Wf) {path : List UInt8} {i : Bytes}
    (hi : fileInode s path = some i) :
    s.vol.inode (s.vol.resolve path) = some i ∧ isFileMode i = true := by
  obtain ⟨hreads, hres⟩ := resolve_spec h hw path
  unfold fileInode at hi
  split at hi
  · cases hi
  · dsimp only at hi
    split at hi
    · cases hi
    · rw [readInode_eq (hreads.ok h), hreads.vol, hres] at hi
      exact ⟨Option.eq_some_of_filter_eq_some hi, (Option.filter_eq_some_iff.1 hi).2⟩

/-- Overwriting a file with as many blocks keeps the image consistent. -/
theorem fileStep_consistent (hs : s.Consistent) {c : FileCall} (hsucc : c.Succeeds s)
    (hsame : c.SameBlocks s) : (fileStep s c).Consistent := by
  cases c with
  | write path data now =>
      obtain ⟨i, hi, hblocks⟩ := hsame
      obtain ⟨hino, hf⟩ := fileInode_spec hs.ok hs.wf hi
      have hrun : writeFile s path data now = (true, (writeFile s path data now).2) :=
        Prod.ext hsucc rfl
      exact (writeFile_overwrites hs.ok hs.apart hs.wf hino hf hrun).consistent hs hblocks
  | mkdir path now => exact hsame.elim
  | delete path => exact hsame.elim

/-- The counts stay right in every run of successful calls that overwrite files with
as many blocks as they hold. -/
theorem fsckClean_run (hs : s.Consistent) {cs : List FileCall}
    (hcs : AllSteps fileStep (fun s c => c.Succeeds s ∧ c.SameBlocks s) s cs) :
    (run fileStep s cs).img.FsckClean :=
  (inv_run Fs.Consistent (fun _ _ hs hc => fileStep_consistent hs hc.1 hc.2) hs hcs).clean

/-- `/a` is overwritten with one byte. -/
theorem fsckClean_run_sameSize :
    (run fileStep smallFs [.write [47, 97] [65] 0]).img.FsckClean := by
  refine fsckClean_run smallFs_consistent ⟨⟨?_, ?_⟩, trivial⟩
  · unfold FileCall.Succeeds
    decide
  · have hsame : (fileInode smallFs [47, 97]).any (fun i =>
        blocksNeeded 1024 1 = (heldBlocks smallImg i).length) = true := by decide
    cases hi : fileInode smallFs [47, 97] with
    | none =>
        rw [hi] at hsame
        cases hsame
    | some i =>
        rw [hi] at hsame
        exact ⟨i, hi, of_decide_eq_true hsame⟩

/-- A new directory: the superblock still counts the inode as free. -/
theorem not_fsckClean_mkdir : smallFs.Consistent ∧
    AllSteps fileStep (fun s c => c.Succeeds s) smallFs [.mkdir [47, 100] 0] ∧
      ¬ (run fileStep smallFs [.mkdir [47, 100] 0]).img.FsckClean := by
  refine ⟨smallFs_consistent, ⟨?_, trivial⟩, fun h => ?_⟩
  · unfold FileCall.Succeeds
    decide
  · exact absurd h.sumInodes (by decide)

end FiFi.Ext2
