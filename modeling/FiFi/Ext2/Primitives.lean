import FiFi.Ext2.Sound

/-!
# The primitives of the driver

What taking and giving back blocks and inodes and writing blocks and inodes does
to the volume. The page `ind` survives all of them, the page `io` none.
-/

namespace FiFi.Ext2

open ByteStore

namespace Fs

variable (s : Fs)

noncomputable def vol : Vol := s.img.vol

/-- The driver runs on a sound image. -/
structure Ok : Prop where
  ready : s.ready = true
  sound : s.img.Sound

/-- Only the scratch pages are touched. -/
structure Reads (s' : Fs) : Prop where
  ready : s'.ready = s.ready
  img : s'.img = s.img

/-- The volume becomes `v`, and the page `ind` is kept. -/
structure Becomes (s' : Fs) (v : Vol) : Prop where
  ok : s'.Ok
  vol : s'.vol = v
  ind : s'.ind = s.ind

variable {s}

theorem Ok.layout (h : s.Ok) : s.vol.layout.Ok := h.sound.layout

theorem Reads.refl : s.Reads s := ⟨rfl, rfl⟩

theorem Reads.trans {s' t : Fs} (h : s.Reads s') (h' : s'.Reads t) : s.Reads t :=
  ⟨h'.ready.trans h.ready, h'.img.trans h.img⟩

theorem Reads.ok {s' : Fs} (h : s.Reads s') (hs : s.Ok) : s'.Ok :=
  ⟨h.ready.trans hs.ready, h.img ▸ hs.sound⟩

theorem Reads.vol {s' : Fs} (h : s.Reads s') : s'.vol = s.vol := congrArg Img.vol h.img

end Fs

variable {s : Fs}

/-! ### Blocks and inodes -/

theorem writeBlock_spec (h : s.Ok) {b : Nat} (hb : ¬ s.vol.layout.Reserved b) (page : Bytes) :
    (writeBlock s b page).1 = true ∧ s.Becomes (writeBlock s b page).2 (s.vol.put b page) := by
  have h0 : b ≠ 0 := fun h0 => hb (Or.inl h0)
  unfold writeBlock
  rw [if_neg h0]
  exact ⟨rfl, ⟨h.ready, h.sound.write_data hb page⟩, Img.vol_write_data h.sound hb page, rfl⟩

theorem readInode_reads (s : Fs) (ino : Nat) : s.Reads (readInode s ino).2 := by
  unfold readInode readBlock
  split
  · exact .refl
  · split
    · exact .refl
    · split <;> rename_i heq <;> split at heq <;> cases heq
      · exact .refl
      · exact ⟨rfl, rfl⟩

theorem readInode_eq (h : s.Ok) (ino : Nat) : (readInode s ino).1 = s.vol.inode ino := by
  unfold readInode
  by_cases h0 : ino = 0
  · rw [if_pos (Or.inl h0)]
    exact (if_pos (Or.inl h0)).symm
  · rw [if_neg (by simp [h0, h.ready])]
    by_cases hg : s.img.geo.numGroups ≤ s.img.geo.inodeGroup ino
    · rw [if_pos hg]
      exact (if_pos (Or.inr hg)).symm
    · have hne : s.img.inodeBlock ino ≠ 0 :=
        h.sound.layout.nonzero _ (h.sound.layout.has_table (Nat.not_le.1 hg))
      rw [if_neg hg]
      simp only [readBlock, if_neg hne]
      exact (if_neg (by tauto)).symm

theorem inode_valid {m : Img} {ino : Nat} {i : Bytes} (h : m.vol.inode ino = some i) :
    ino ≠ 0 ∧ m.geo.inodeGroup ino < m.geo.numGroups := by
  have hn : ¬ (ino = 0 ∨ m.geo.numGroups ≤ m.geo.inodeGroup ino) := by
    intro hx
    have hnone : m.vol.inode ino = none := if_pos hx
    rw [hnone] at h
    cases h
  omega

theorem inode_isSome {m : Img} {ino : Nat} (h0 : ino ≠ 0)
    (hg : m.geo.inodeGroup ino < m.geo.numGroups) : ∃ i, m.vol.inode ino = some i :=
  ⟨_, if_neg (by omega)⟩

theorem writeInode_spec (h : s.Ok) {ino : Nat} {i : Bytes} (hi : s.vol.inode ino = some i)
    (new : Bytes) : (writeInode s ino new).1 = true ∧
      s.Becomes (writeInode s ino new).2 (s.vol.setInode ino (slice new 0 inodeBytes)) := by
  obtain ⟨h0, hg⟩ := inode_valid hi
  have hne : s.img.inodeBlock ino ≠ 0 :=
    h.sound.layout.nonzero _ (h.sound.layout.has_table hg)
  unfold writeInode
  rw [if_neg (by simp [h0, h.ready]), if_neg (by omega)]
  simp only [readBlock, if_neg hne, writeBlock]
  exact ⟨trivial, ⟨h.ready, h.sound.write_inode h0 hg new⟩, Img.vol_write_inode h.sound h0 hg new, rfl⟩

/-! ### Bitmaps -/

theorem flushBgd_spec (s : Fs) (g : Nat) :
    (flushBgd s g).img = s.img.write (s.img.geo.bgdBlock g)
      (blit (s.img.disk (s.img.geo.bgdBlock g)) (g * bgdBytes % s.img.geo.blockSize) bgdBytes
        (s.img.bgdt g).bytes) ∧
      (flushBgd s g).ready = s.ready ∧ (flushBgd s g).ind = s.ind := by
  have hne : s.img.geo.bgdBlock g ≠ 0 := by
    unfold Geo.bgdBlock
    generalize g * bgdBytes / s.img.geo.blockSize = k
    omega
  unfold flushBgd
  simp only [readBlock, if_neg hne, writeBlock]
  exact ⟨rfl, trivial, trivial⟩

/-- A bit is set in the bitmap that was read. -/
theorem takeBit_spec (g bit : Nat) {bmap : Nat} {d : Bgd} (hio : s.io = s.img.disk bmap) (h0 : bmap ≠ 0) :
    (takeBit s g bit bmap d).img = s.img.mark g bmap (setBit (s.img.disk bmap) bit) d ∧
      (takeBit s g bit bmap d).ready = s.ready ∧ (takeBit s g bit bmap d).ind = s.ind := by
  unfold takeBit
  simp only [writeBlock, if_neg h0, hio]
  obtain ⟨himg, hready, hind⟩ := flushBgd_spec (Fs.setBgd { s with
    io := setBit (s.img.disk bmap) bit
    img := { s.img with disk := Function.update s.img.disk bmap (setBit (s.img.disk bmap) bit) } }
    g d) g
  exact ⟨himg, hready, hind⟩

theorem freeBit_spec (g bit : Nat) {bmap : Nat} {d : Bgd} (h0 : bmap ≠ 0) :
    (freeBit s g bit bmap d).img = s.img.mark g bmap (clearBit (s.img.disk bmap) bit) d ∧
      (freeBit s g bit bmap d).ready = s.ready ∧ (freeBit s g bit bmap d).ind = s.ind := by
  unfold freeBit
  simp only [readBlock, writeBlock, if_neg h0]
  obtain ⟨himg, hready, hind⟩ := flushBgd_spec (Fs.setBgd { s with
    io := clearBit (s.img.disk bmap) bit
    img := { s.img with disk := Function.update s.img.disk bmap (clearBit (s.img.disk bmap) bit) } }
    g d) g
  exact ⟨himg, hready, hind⟩

/-- A block that may be handed out. -/
structure Vol.Free (v : Vol) (b : Nat) : Prop where
  notBusy : b ∉ v.busy
  notReserved : ¬ v.layout.Reserved b
  small : b < 2 ^ 32

theorem Vol.Free.ne_zero {v : Vol} {b : Nat} (h : v.Free b) : b ≠ 0 :=
  fun h0 => h.notReserved (Or.inl h0)

/-- A set bit is found where the search starts. -/
theorem clearBitOf_some {n bit : Nat} (h : clearBitOf s n = some bit) :
    bit < n ∧ bitAt s.io bit = false := by
  unfold clearBitOf at h
  have hmem := List.mem_of_find?_eq_some h
  have hp := List.find?_some h
  exact ⟨List.mem_range.1 hmem, by simpa using hp⟩

namespace Img

variable {m : Img} {g bit : Nat} {page : Bytes} {d : Bgd}

theorem sound_perGroup (h : m.Sound) :
    m.geo.blocksPerGroup ≤ 32768 ∧ m.geo.inodesPerGroup ≤ 32768 := by
  have hsize : m.geo.blockSize = 1024 ∨ m.geo.blockSize = 2048 ∨ m.geo.blockSize = 4096 :=
    h.layout.size
  have hblocks : m.geo.blocksPerGroup ≤ 8 * m.geo.blockSize := h.layout.perGroup.2
  have hinodes : m.geo.inodesPerGroup ≤ 8 * m.geo.blockSize := h.layout.inodesPerGroup.2
  omega

theorem free_blockOf (h : m.Sound) (hg : g < m.geo.numGroups) (hbit : bit < m.geo.blocksPerGroup)
    (hclear : bitAt (m.disk (m.bgdt g).blockBitmap) bit = false) :
    m.vol.Free (m.geo.blockOf g bit) := by
  have hnot : m.geo.blockOf g bit ∉ m.vol.busy := by
    intro hmem
    have hset := ((m.mem_busy_blockOf hbit).1 hmem).2
    exact absurd (hclear.symm.trans hset) (by simp)
  refine ⟨hnot, fun hc => hnot (h.reserved _ hc (m.geo.blockOf_parts hbit).1), ?_⟩
  have hnum : m.geo.firstDataBlock + m.geo.numGroups * m.geo.blocksPerGroup ≤ 2 ^ 32 :=
    h.layout.numBlocks
  have hmul : (g + 1) * m.geo.blocksPerGroup ≤ m.geo.numGroups * m.geo.blocksPerGroup :=
    Nat.mul_le_mul_right _ hg
  rw [Nat.succ_mul] at hmul
  unfold Geo.blockOf
  omega

/-- A bit of a block bitmap is set and counted. -/
theorem mark_take (h : m.Sound) (hg : g < m.geo.numGroups) (hbit : bit < m.geo.blocksPerGroup)
    (hclear : bitAt (m.disk (m.bgdt g).blockBitmap) bit = false)
    (hd : d = { m.bgdt g with freeBlocks := ((m.bgdt g).freeBlocks + (2 ^ 16 - 1)) % 2 ^ 16 })
    (hpage : page = setBit (m.disk (m.bgdt g).blockBitmap) bit) :
    (m.mark g (m.bgdt g).blockBitmap page d).Sound ∧
      (m.mark g (m.bgdt g).blockBitmap page d).vol = m.vol.take (m.geo.blockOf g bit) := by
  have hre : (m.bgdt g).Recounts d := by
    subst hd
    exact ⟨rfl, rfl, rfl⟩
  have hbusy : (m.mark g (m.layout.place (.blockMap g)) page d).vol.busy =
      insert (m.geo.blockOf g bit) m.vol.busy := by
    ext c
    refine (busy_mark h hre hg hbit (hpage ▸ flips_setBit _ _) c).trans ?_
    rw [Set.mem_insert_iff]
    split <;> simp [*]
  refine ⟨h.mark_block hre hg ?_ (by rw [hd]) ?_, vol_mark_block h hre hg hbusy⟩
  · have hcount := clearBits_setBit hbit hclear
    have hle := clearBits_le (m.disk (m.bgdt g).blockBitmap) m.geo.blocksPerGroup
    have hfree := h.freeBlocks g hg
    have hper := (sound_perGroup h).1
    subst hd hpage
    simp only
    omega
  · intro c hc hcle
    rw [hbusy]
    exact Set.mem_insert_of_mem _ (h.reserved c hc hcle)

/-- A bit of a block bitmap is cleared and counted. -/
theorem mark_give (h : m.Sound) (hg : g < m.geo.numGroups) (hbit : bit < m.geo.blocksPerGroup)
    (hset : bitAt (m.disk (m.bgdt g).blockBitmap) bit = true)
    (hr : ¬ m.layout.Reserved (m.geo.blockOf g bit))
    (hd : d = { m.bgdt g with freeBlocks := ((m.bgdt g).freeBlocks + 1) % 2 ^ 16 })
    (hpage : page = clearBit (m.disk (m.bgdt g).blockBitmap) bit) :
    (m.mark g (m.bgdt g).blockBitmap page d).Sound ∧
      (m.mark g (m.bgdt g).blockBitmap page d).vol = m.vol.give (m.geo.blockOf g bit) := by
  have hre : (m.bgdt g).Recounts d := by
    subst hd
    exact ⟨rfl, rfl, rfl⟩
  have hbusy : (m.mark g (m.layout.place (.blockMap g)) page d).vol.busy =
      m.vol.busy \ {m.geo.blockOf g bit} := by
    ext c
    refine (busy_mark h hre hg hbit (hpage ▸ flips_clearBit _ _) c).trans ?_
    rw [Set.mem_sdiff, Set.mem_singleton_iff]
    split <;> simp [*]
  refine ⟨h.mark_block hre hg ?_ (by rw [hd]) ?_, vol_mark_block h hre hg hbusy⟩
  · have hcount := clearBits_clearBit hbit hset
    have hle := clearBits_le (clearBit (m.disk (m.bgdt g).blockBitmap) bit) m.geo.blocksPerGroup
    have hfree := h.freeBlocks g hg
    have hper := (sound_perGroup h).1
    subst hd hpage
    simp only
    omega
  · intro c hc hcle
    rw [hbusy]
    refine ⟨h.reserved c hc hcle, ?_⟩
    rintro rfl
    exact hr hc

/-- A bit of an inode bitmap is set and counted. -/
theorem mark_takeInode (h : m.Sound) (hg : g < m.geo.numGroups)
    (hbit : bit < m.geo.inodesPerGroup)
    (hclear : bitAt (m.disk (m.bgdt g).inodeBitmap) bit = false)
    (hd : d = { m.bgdt g with freeInodes := ((m.bgdt g).freeInodes + (2 ^ 16 - 1)) % 2 ^ 16 })
    (hpage : page = setBit (m.disk (m.bgdt g).inodeBitmap) bit) :
    (m.mark g (m.bgdt g).inodeBitmap page d).Sound ∧
      (m.mark g (m.bgdt g).inodeBitmap page d).vol = m.vol.takeInode (m.geo.inodeOf g bit) := by
  have hre : (m.bgdt g).Recounts d := by
    subst hd
    exact ⟨rfl, rfl, rfl⟩
  have htaken : (m.mark g (m.layout.place (.inodeMap g)) page d).vol.taken =
      insert (m.geo.inodeOf g bit) m.vol.taken := by
    ext c
    refine (taken_mark h hre hg hbit (hpage ▸ flips_setBit _ _) c).trans ?_
    rw [Set.mem_insert_iff]
    split <;> simp [*]
  have hvol := vol_mark_inode h hre hg htaken
  refine ⟨h.mark_inode hre hg ?_ (by rw [hd]) (by rw [hvol]), hvol⟩
  have hcount := clearBits_setBit hbit hclear
  have hle := clearBits_le (m.disk (m.bgdt g).inodeBitmap) m.geo.inodesPerGroup
  have hfree := h.freeInodes g hg
  have hper := (sound_perGroup h).2
  subst hd hpage
  simp only
  omega

/-- A bit of an inode bitmap is cleared and counted. -/
theorem mark_giveInode (h : m.Sound) (hg : g < m.geo.numGroups)
    (hbit : bit < m.geo.inodesPerGroup)
    (hset : bitAt (m.disk (m.bgdt g).inodeBitmap) bit = true)
    (hd : d = { m.bgdt g with freeInodes := ((m.bgdt g).freeInodes + 1) % 2 ^ 16 })
    (hpage : page = clearBit (m.disk (m.bgdt g).inodeBitmap) bit) :
    (m.mark g (m.bgdt g).inodeBitmap page d).Sound ∧
      (m.mark g (m.bgdt g).inodeBitmap page d).vol = m.vol.giveInode (m.geo.inodeOf g bit) := by
  have hre : (m.bgdt g).Recounts d := by
    subst hd
    exact ⟨rfl, rfl, rfl⟩
  have htaken : (m.mark g (m.layout.place (.inodeMap g)) page d).vol.taken =
      m.vol.taken \ {m.geo.inodeOf g bit} := by
    ext c
    refine (taken_mark h hre hg hbit (hpage ▸ flips_clearBit _ _) c).trans ?_
    rw [Set.mem_sdiff, Set.mem_singleton_iff]
    split <;> simp [*]
  have hvol := vol_mark_inode h hre hg htaken
  refine ⟨h.mark_inode hre hg ?_ (by rw [hd]) (by rw [hvol]), hvol⟩
  have hcount := clearBits_clearBit hbit hset
  have hle := clearBits_le (clearBit (m.disk (m.bgdt g).inodeBitmap) bit) m.geo.inodesPerGroup
  have hfree := h.freeInodes g hg
  have hper := (sound_perGroup h).2
  subst hd hpage
  simp only
  omega

end Img

theorem allocBlockIn_spec (h : s.Ok) {gs : List Nat} (hgs : ∀ g ∈ gs, g < s.img.geo.numGroups) :
    ((allocBlockIn s gs).1 = 0 ∧ s.Becomes (allocBlockIn s gs).2 s.vol) ∨
      (s.vol.Free (allocBlockIn s gs).1 ∧
        s.Becomes (allocBlockIn s gs).2 (s.vol.take (allocBlockIn s gs).1)) := by
  induction gs generalizing s with
  | nil => exact Or.inl ⟨rfl, h, rfl, rfl⟩
  | cons g gs ih =>
      have hg := hgs g (by simp)
      have hgs' : ∀ g' ∈ gs, g' < s.img.geo.numGroups := fun g' hg' => hgs g' (by simp [hg'])
      have hmap : (s.img.bgdt g).blockBitmap ≠ 0 :=
        h.sound.layout.nonzero (.blockMap g) hg
      simp only [allocBlockIn, readBlock, if_neg hmap]
      split
      · exact ih h hgs'
      · split
        · obtain ⟨h0, hb⟩ | ⟨hf, hb⟩ := ih (s := { s with
            io := s.img.disk (s.img.bgdt g).blockBitmap }) ⟨h.ready, h.sound⟩ hgs'
          · exact Or.inl ⟨h0, hb.ok, hb.vol, hb.ind⟩
          · exact Or.inr ⟨hf, hb.ok, hb.vol, hb.ind⟩
        · rename_i bit hbit
          obtain ⟨hlt, hclear⟩ := clearBitOf_some hbit
          obtain ⟨himg, hready, hind⟩ := takeBit_spec (s := { s with
            io := s.img.disk (s.img.bgdt g).blockBitmap }) g bit
            (d := { s.img.bgdt g with
              freeBlocks := ((s.img.bgdt g).freeBlocks + (2 ^ 16 - 1)) % 2 ^ 16 }) rfl hmap
          obtain ⟨hsound, hvol⟩ := Img.mark_take h.sound hg hlt hclear rfl rfl
          refine Or.inr ⟨Img.free_blockOf h.sound hg hlt hclear, ⟨hready.trans h.ready, ?_⟩, ?_, hind⟩
          · rw [himg]
            exact hsound
          · exact (congrArg Img.vol himg).trans hvol

/-- A block is taken, or nothing happens. -/
theorem allocBlock_spec (h : s.Ok) :
    ((allocBlock s).1 = 0 ∧ s.Becomes (allocBlock s).2 s.vol) ∨
      (s.vol.Free (allocBlock s).1 ∧
        s.Becomes (allocBlock s).2 (s.vol.take (allocBlock s).1)) :=
  allocBlockIn_spec h fun _ hg => List.mem_range.1 hg

/-- A block that is in use is given back. -/
theorem freeBlock_spec (h : s.Ok) {b : Nat} (hb : b ∈ s.vol.busy)
    (hr : ¬ s.vol.layout.Reserved b) : s.Becomes (freeBlock s b) (s.vol.give b) := by
  have hle : s.img.geo.firstDataBlock ≤ b := hb.1
  obtain ⟨g, bit, hbit, rfl⟩ := s.img.geo.exists_blockOf h.sound.layout.perGroup.1 hle
  obtain ⟨hg, hset⟩ := (s.img.mem_busy_blockOf hbit).1 hb
  obtain ⟨-, hdiv, hmod⟩ := s.img.geo.blockOf_parts (g := g) hbit
  have hmap : (s.img.bgdt g).blockBitmap ≠ 0 := h.sound.layout.nonzero (.blockMap g) hg
  unfold freeBlock
  simp only [hdiv, hmod]
  rw [if_neg (by omega), if_neg (by omega)]
  obtain ⟨himg, hready, hind⟩ := freeBit_spec (s := s) g bit
    (d := { s.img.bgdt g with freeBlocks := ((s.img.bgdt g).freeBlocks + 1) % 2 ^ 16 }) hmap
  obtain ⟨hsound, hvol⟩ := Img.mark_give h.sound hg hbit hset hr rfl rfl
  refine ⟨⟨hready.trans h.ready, ?_⟩, (congrArg Img.vol himg).trans hvol, hind⟩
  rw [himg]
  exact hsound

/-- An inode that may be handed out. -/
structure Vol.FreeInode (v : Vol) (ino : Nat) : Prop where
  notTaken : ino ∉ v.taken
  exists_inode : ∃ i, v.inode ino = some i
  small : ino < 2 ^ 32

theorem Img.free_inodeOf {m : Img} (h : m.Sound) {g bit : Nat} (hg : g < m.geo.numGroups)
    (hbit : bit < m.geo.inodesPerGroup)
    (hclear : bitAt (m.disk (m.bgdt g).inodeBitmap) bit = false) :
    m.geo.inodeOf g bit ≠ 0 ∧ m.vol.FreeInode (m.geo.inodeOf g bit) := by
  have hne : m.geo.inodeOf g bit ≠ 0 := by
    unfold Geo.inodeOf
    omega
  refine ⟨hne, ?_, inode_isSome hne ?_, ?_⟩
  · intro hmem
    have hset := ((m.mem_taken_inodeOf hbit).1 hmem).2
    exact absurd (hclear.symm.trans hset) (by simp)
  · rw [(m.geo.inodeOf_parts hbit).1]
    exact hg
  · have hnum : m.geo.numGroups * m.geo.inodesPerGroup < 2 ^ 32 := h.layout.numInodes
    have hmul : (g + 1) * m.geo.inodesPerGroup ≤ m.geo.numGroups * m.geo.inodesPerGroup :=
      Nat.mul_le_mul_right _ hg
    rw [Nat.succ_mul] at hmul
    unfold Geo.inodeOf
    omega

theorem allocInodeIn_spec (h : s.Ok) {gs : List Nat} (hgs : ∀ g ∈ gs, g < s.img.geo.numGroups) :
    ((allocInodeIn s gs).1 = 0 ∧ s.Becomes (allocInodeIn s gs).2 s.vol) ∨
      ((allocInodeIn s gs).1 ≠ 0 ∧ s.vol.FreeInode (allocInodeIn s gs).1 ∧
        s.Becomes (allocInodeIn s gs).2 (s.vol.takeInode (allocInodeIn s gs).1)) := by
  induction gs generalizing s with
  | nil => exact Or.inl ⟨rfl, h, rfl, rfl⟩
  | cons g gs ih =>
      have hg := hgs g (by simp)
      have hgs' : ∀ g' ∈ gs, g' < s.img.geo.numGroups := fun g' hg' => hgs g' (by simp [hg'])
      have hmap : (s.img.bgdt g).inodeBitmap ≠ 0 :=
        h.sound.layout.nonzero (.inodeMap g) hg
      simp only [allocInodeIn, readBlock, if_neg hmap]
      split
      · exact ih h hgs'
      · split
        · obtain ⟨h0, hb⟩ | ⟨hne, hf, hb⟩ := ih (s := { s with
            io := s.img.disk (s.img.bgdt g).inodeBitmap }) ⟨h.ready, h.sound⟩ hgs'
          · exact Or.inl ⟨h0, hb.ok, hb.vol, hb.ind⟩
          · exact Or.inr ⟨hne, hf, hb.ok, hb.vol, hb.ind⟩
        · rename_i bit hbit
          obtain ⟨hlt, hclear⟩ := clearBitOf_some hbit
          obtain ⟨himg, hready, hind⟩ := takeBit_spec (s := { s with
            io := s.img.disk (s.img.bgdt g).inodeBitmap }) g bit
            (d := { s.img.bgdt g with
              freeInodes := ((s.img.bgdt g).freeInodes + (2 ^ 16 - 1)) % 2 ^ 16 }) rfl hmap
          obtain ⟨hsound, hvol⟩ := Img.mark_takeInode h.sound hg hlt hclear rfl rfl
          obtain ⟨hne, hfree⟩ := Img.free_inodeOf h.sound hg hlt hclear
          refine Or.inr ⟨hne, hfree, ⟨hready.trans h.ready, ?_⟩, ?_, hind⟩
          · rw [himg]
            exact hsound
          · exact (congrArg Img.vol himg).trans hvol

/-- An inode is taken, or nothing happens. -/
theorem allocInode_spec (h : s.Ok) :
    ((allocInode s).1 = 0 ∧ s.Becomes (allocInode s).2 s.vol) ∨
      ((allocInode s).1 ≠ 0 ∧ s.vol.FreeInode (allocInode s).1 ∧
        s.Becomes (allocInode s).2 (s.vol.takeInode (allocInode s).1)) :=
  allocInodeIn_spec h fun _ hg => List.mem_range.1 hg

/-- An inode that is in use is given back. -/
theorem freeInode_spec (h : s.Ok) {ino : Nat} (hino : ino ∈ s.vol.taken) :
    s.Becomes (freeInode s ino) (s.vol.giveInode ino) := by
  have h0 : ino ≠ 0 := hino.1
  obtain ⟨g, bit, hbit, rfl⟩ := s.img.geo.exists_inodeOf h.sound.layout.inodesPerGroup.1 h0
  obtain ⟨hg, hset⟩ := (s.img.mem_taken_inodeOf hbit).1 hino
  obtain ⟨hdiv, hmod⟩ := s.img.geo.inodeOf_parts (g := g) hbit
  have hmap : (s.img.bgdt g).inodeBitmap ≠ 0 := h.sound.layout.nonzero (.inodeMap g) hg
  unfold freeInode
  simp only [hdiv, hmod]
  rw [if_neg h0, if_neg (by omega)]
  obtain ⟨himg, hready, hind⟩ := freeBit_spec (s := s) g bit
    (d := { s.img.bgdt g with freeInodes := ((s.img.bgdt g).freeInodes + 1) % 2 ^ 16 }) hmap
  obtain ⟨hsound, hvol⟩ := Img.mark_giveInode h.sound hg hbit hset rfl rfl
  refine ⟨⟨hready.trans h.ready, ?_⟩, (congrArg Img.vol himg).trans hvol, hind⟩
  rw [himg]
  exact hsound

end FiFi.Ext2
