import FiFi.Ext2.Volume

/-!
# From the disk to the volume

The volume of an image, and what it takes for the driver to see it: the areas are
apart, the blocks of the areas are in use and the counts of the descriptors are
the numbers of clear bits. Each primitive of the driver is an equation on the
volume: a block is taken or given back, a data block or an inode is replaced.
-/

namespace FiFi.Ext2

open ByteStore

namespace Img

variable (m : Img)

def layout : Layout where
  geo := m.geo
  blockBitmap g := (m.bgdt g).blockBitmap
  inodeBitmap g := (m.bgdt g).inodeBitmap
  inodeTable g := (m.bgdt g).inodeTable

open Classical in
/-- What an image means. -/
noncomputable def vol : Vol where
  layout := m.layout
  inode ino :=
    if ino = 0 ∨ m.geo.numGroups ≤ m.geo.inodeGroup ino then none
    else some (slice (m.disk (m.inodeBlock ino)) (m.inodeOffset ino) inodeBytes)
  data b := if m.layout.Reserved b then fun _ => 0 else m.disk b
  busy := {b | m.geo.firstDataBlock ≤ b ∧
    (b - m.geo.firstDataBlock) / m.geo.blocksPerGroup < m.geo.numGroups ∧
    bitAt (m.disk (m.bgdt ((b - m.geo.firstDataBlock) / m.geo.blocksPerGroup)).blockBitmap)
      ((b - m.geo.firstDataBlock) % m.geo.blocksPerGroup) = true}
  taken := {ino | ino ≠ 0 ∧ m.geo.inodeGroup ino < m.geo.numGroups ∧
    bitAt (m.disk (m.bgdt (m.geo.inodeGroup ino)).inodeBitmap)
      ((ino - 1) % m.geo.inodesPerGroup) = true}

/-- The areas are in use, and the descriptors agree with the bitmaps and with
their copy on the disk. -/
structure Sound : Prop where
  layout : m.layout.Ok
  reserved : ∀ b, m.layout.Reserved b → m.geo.firstDataBlock ≤ b → b ∈ m.vol.busy
  freeBlocks : ∀ g < m.geo.numGroups,
    (m.bgdt g).freeBlocks = clearBits (m.disk (m.bgdt g).blockBitmap) m.geo.blocksPerGroup
  freeInodes : ∀ g < m.geo.numGroups,
    (m.bgdt g).freeInodes = clearBits (m.disk (m.bgdt g).inodeBitmap) m.geo.inodesPerGroup
  desc : ∀ g < m.geo.numGroups,
    slice (m.disk (m.geo.bgdBlock g)) (g * bgdBytes % m.geo.blockSize) bgdBytes =
      slice (m.bgdt g).bytes 0 bgdBytes

end Img

/-- A descriptor that differs in its counts only. -/
structure Bgd.Recounts (d d' : Bgd) : Prop where
  blockBitmap : d'.blockBitmap = d.blockBitmap
  inodeBitmap : d'.inodeBitmap = d.inodeBitmap
  inodeTable : d'.inodeTable = d.inodeTable

namespace Geo

variable (x : Geo) {g bit : Nat}

/-- The block of a bit. -/
def blockOf (g bit : Nat) : Nat := x.firstDataBlock + g * x.blocksPerGroup + bit

/-- The inode of a bit. -/
def inodeOf (g bit : Nat) : Nat := g * x.inodesPerGroup + bit + 1

theorem blockOf_parts (h : bit < x.blocksPerGroup) :
    x.firstDataBlock ≤ x.blockOf g bit ∧
      (x.blockOf g bit - x.firstDataBlock) / x.blocksPerGroup = g ∧
      (x.blockOf g bit - x.firstDataBlock) % x.blocksPerGroup = bit := by
  have hsub : x.blockOf g bit - x.firstDataBlock = bit + x.blocksPerGroup * g := by
    unfold blockOf
    rw [Nat.mul_comm g]
    omega
  refine ⟨by unfold blockOf; omega, ?_, ?_⟩
  · rw [hsub, Nat.add_mul_div_left _ _ (by omega), Nat.div_eq_of_lt h, Nat.zero_add]
  · rw [hsub, Nat.add_mul_mod_self_left, Nat.mod_eq_of_lt h]

theorem blockOf_div_mod {c : Nat} (h : x.firstDataBlock ≤ c) :
    x.blockOf ((c - x.firstDataBlock) / x.blocksPerGroup)
      ((c - x.firstDataBlock) % x.blocksPerGroup) = c := by
  have hdm := Nat.div_add_mod (c - x.firstDataBlock) x.blocksPerGroup
  unfold blockOf
  rw [Nat.mul_comm]
  omega

theorem inodeOf_parts (h : bit < x.inodesPerGroup) :
    x.inodeGroup (x.inodeOf g bit) = g ∧ (x.inodeOf g bit - 1) % x.inodesPerGroup = bit := by
  have hsub : x.inodeOf g bit - 1 = bit + x.inodesPerGroup * g := by
    unfold inodeOf
    rw [Nat.mul_comm g]
    omega
  unfold inodeGroup
  refine ⟨?_, ?_⟩
  · rw [hsub, Nat.add_mul_div_left _ _ (by omega), Nat.div_eq_of_lt h, Nat.zero_add]
  · rw [hsub, Nat.add_mul_mod_self_left, Nat.mod_eq_of_lt h]

theorem inodeOf_div_mod {ino : Nat} (h : ino ≠ 0) :
    x.inodeOf (x.inodeGroup ino) ((ino - 1) % x.inodesPerGroup) = ino := by
  have hdm := Nat.div_add_mod (ino - 1) x.inodesPerGroup
  unfold inodeOf inodeGroup
  rw [Nat.mul_comm]
  omega

theorem exists_blockOf (hpos : 0 < x.blocksPerGroup) {c : Nat} (h : x.firstDataBlock ≤ c) :
    ∃ g j, j < x.blocksPerGroup ∧ c = x.blockOf g j :=
  ⟨_, _, Nat.mod_lt _ hpos, (x.blockOf_div_mod h).symm⟩

theorem exists_inodeOf (hpos : 0 < x.inodesPerGroup) {ino : Nat} (h : ino ≠ 0) :
    ∃ g j, j < x.inodesPerGroup ∧ ino = x.inodeOf g j :=
  ⟨_, _, Nat.mod_lt _ hpos, (x.inodeOf_div_mod h).symm⟩

theorem blockOf_inj {g' j : Nat} (hj : j < x.blocksPerGroup) (hbit : bit < x.blocksPerGroup) :
    x.blockOf g' j = x.blockOf g bit ↔ g' = g ∧ j = bit := by
  refine ⟨fun heq => ?_, fun ⟨hg, hb⟩ => by rw [hg, hb]⟩
  obtain ⟨-, hdiv, hmod⟩ := x.blockOf_parts (g := g') hj
  obtain ⟨-, hdiv', hmod'⟩ := x.blockOf_parts (g := g) hbit
  rw [heq] at hdiv hmod
  exact ⟨hdiv.symm.trans hdiv', hmod.symm.trans hmod'⟩

theorem inodeOf_inj {g' j : Nat} (hj : j < x.inodesPerGroup) (hbit : bit < x.inodesPerGroup) :
    x.inodeOf g' j = x.inodeOf g bit ↔ g' = g ∧ j = bit := by
  refine ⟨fun heq => ?_, fun ⟨hg, hb⟩ => by rw [hg, hb]⟩
  obtain ⟨hdiv, hmod⟩ := x.inodeOf_parts (g := g') hj
  obtain ⟨hdiv', hmod'⟩ := x.inodeOf_parts (g := g) hbit
  rw [heq] at hdiv hmod
  exact ⟨hdiv.symm.trans hdiv', hmod.symm.trans hmod'⟩

end Geo

/-! ### Areas -/

namespace Layout

variable {l : Layout}

theorem reserved_of_has {a : Area} (ha : l.Has a) : l.Reserved (l.place a) :=
  Or.inr (Or.inr ⟨a, ha, rfl⟩)

theorem has_desc {g : Nat} (hg : g < l.geo.numGroups) :
    l.Has (.desc (g * bgdBytes / l.geo.blockSize)) := by
  have hdiv := Nat.div_mul_le_self (g * bgdBytes) l.geo.blockSize
  have hlt : g * bgdBytes < l.geo.numGroups * bgdBytes :=
    Nat.mul_lt_mul_of_pos_right hg (by decide)
  exact hdiv.trans_lt hlt

/-- The descriptors of two groups in one block do not overlap. -/
theorem desc_apart {g g' : Nat} (hne : g ≠ g')
    (hblk : g * bgdBytes / l.geo.blockSize = g' * bgdBytes / l.geo.blockSize) :
    g * bgdBytes % l.geo.blockSize + bgdBytes ≤ g' * bgdBytes % l.geo.blockSize ∨
      g' * bgdBytes % l.geo.blockSize + bgdBytes ≤ g * bgdBytes % l.geo.blockSize := by
  have hd := Nat.div_add_mod (g * bgdBytes) l.geo.blockSize
  have hd' := Nat.div_add_mod (g' * bgdBytes) l.geo.blockSize
  rw [hblk] at hd
  simp only [bgdBytes] at *
  omega

namespace Ok

variable (h : l.Ok)

include h

theorem size_pos : 0 < l.geo.blockSize := by
  rcases h.size with h | h | h <;> omega

theorem has_table {ino : Nat} (hg : l.geo.inodeGroup ino < l.geo.numGroups) :
    l.Has (.table (l.geo.inodeGroup ino) (l.geo.inodeByte ino / l.geo.blockSize)) := by
  refine ⟨hg, (Nat.div_mul_le_self _ _).trans_lt ?_⟩
  have hsize : 0 < l.geo.inodeSize := lt_of_lt_of_le (by decide) h.inodeSize
  exact Nat.mul_lt_mul_of_pos_right (Nat.mod_lt _ h.inodesPerGroup.1) hsize

/-- Two inodes in one block of the table do not overlap. -/
theorem inode_apart {ino ino' : Nat} (hne : ino ≠ ino') (h0 : ino ≠ 0) (h0' : ino' ≠ 0)
    (hgroup : l.geo.inodeGroup ino = l.geo.inodeGroup ino')
    (hblk : l.geo.inodeByte ino / l.geo.blockSize = l.geo.inodeByte ino' / l.geo.blockSize) :
    l.geo.inodeByte ino % l.geo.blockSize + inodeBytes ≤ l.geo.inodeByte ino' % l.geo.blockSize ∨
      l.geo.inodeByte ino' % l.geo.blockSize + inodeBytes ≤
        l.geo.inodeByte ino % l.geo.blockSize := by
  have hd := Nat.div_add_mod (l.geo.inodeByte ino) l.geo.blockSize
  have hd' := Nat.div_add_mod (l.geo.inodeByte ino') l.geo.blockSize
  rw [hblk] at hd
  have hindex : (ino - 1) % l.geo.inodesPerGroup ≠ (ino' - 1) % l.geo.inodesPerGroup := by
    intro hmod
    have h1 := Nat.div_add_mod (ino - 1) l.geo.inodesPerGroup
    have h2 := Nat.div_add_mod (ino' - 1) l.geo.inodesPerGroup
    unfold Geo.inodeGroup at hgroup
    rw [hgroup, hmod] at h1
    omega
  have hsize := h.inodeSize
  have hbyte : l.geo.inodeByte ino + l.geo.inodeSize ≤ l.geo.inodeByte ino' ∨
      l.geo.inodeByte ino' + l.geo.inodeSize ≤ l.geo.inodeByte ino := by
    unfold Geo.inodeByte
    rw [← Nat.succ_mul, ← Nat.succ_mul]
    rcases Nat.lt_or_gt_of_ne hindex with hlt | hlt
    · exact Or.inl (Nat.mul_le_mul_right _ hlt)
    · exact Or.inr (Nat.mul_le_mul_right _ hlt)
  omega

end Ok

end Layout

/-! ### Replacing a block -/

namespace Img

variable {m : Img}

/-- A block of the disk is replaced. -/
def write (m : Img) (b : Nat) (page : Bytes) : Img :=
  { m with disk := Function.update m.disk b page }

theorem write_disk_ne (m : Img) {b c : Nat} (page : Bytes) (h : c ≠ b) :
    (m.write b page).disk c = m.disk c := Function.update_of_ne h _ _

theorem write_disk_self (m : Img) (b : Nat) (page : Bytes) : (m.write b page).disk b = page :=
  Function.update_self _ _ _

theorem bgdBlock_eq_place (m : Img) (g : Nat) :
    m.geo.bgdBlock g = m.layout.place (.desc (g * bgdBytes / m.geo.blockSize)) := rfl

theorem inodeBlock_eq_place (m : Img) (ino : Nat) : m.inodeBlock ino =
    m.layout.place (.table (m.geo.inodeGroup ino) (m.geo.inodeByte ino / m.geo.blockSize)) := rfl

/-- The blocks of the areas that lie elsewhere are as before. -/
theorem write_disk_place (h : m.layout.Ok) {a b : Area} (ha : m.layout.Has a)
    (hb : m.layout.Has b) (hne : b ≠ a) (page : Bytes) :
    (m.write (m.layout.place a) page).disk (m.layout.place b) = m.disk (m.layout.place b) :=
  m.write_disk_ne page fun heq => hne (h.apart _ _ hb ha heq)

theorem write_disk_place_data {b : Nat} (hb : ¬ m.layout.Reserved b) {a : Area}
    (ha : m.layout.Has a) (page : Bytes) :
    (m.write b page).disk (m.layout.place a) = m.disk (m.layout.place a) :=
  m.write_disk_ne page fun heq => hb (heq ▸ Layout.reserved_of_has ha)

/-! What the parts of a volume depend on. -/

variable {n : Img}

theorem inode_congr (hgeo : n.geo = m.geo) (htable : n.layout.inodeTable = m.layout.inodeTable)
    {ino : Nat} (hdisk : ino ≠ 0 → m.geo.inodeGroup ino < m.geo.numGroups →
      n.disk (m.inodeBlock ino) = m.disk (m.inodeBlock ino)) :
    n.vol.inode ino = m.vol.inode ino := by
  have hblock : n.inodeBlock ino = m.inodeBlock ino := by
    have := congrFun htable (m.geo.inodeGroup ino)
    simp only [layout] at this
    unfold inodeBlock
    rw [hgeo, this]
  simp only [vol, hblock, inodeOffset, hgeo]
  split
  · rfl
  · rename_i h
    rw [hdisk (by tauto) (by omega)]

theorem busy_congr (hgeo : n.geo = m.geo)
    (hmap : n.layout.blockBitmap = m.layout.blockBitmap)
    (hdisk : ∀ g < m.geo.numGroups,
      n.disk (m.bgdt g).blockBitmap = m.disk (m.bgdt g).blockBitmap) :
    n.vol.busy = m.vol.busy := by
  ext b
  have hbm := congrFun hmap ((b - m.geo.firstDataBlock) / m.geo.blocksPerGroup)
  simp only [layout] at hbm
  simp only [vol, hgeo, hbm, Set.mem_ofPred_eq]
  refine and_congr_right fun _ => and_congr_right fun hg => ?_
  rw [hdisk _ hg]

theorem taken_congr (hgeo : n.geo = m.geo)
    (hmap : n.layout.inodeBitmap = m.layout.inodeBitmap)
    (hdisk : ∀ g < m.geo.numGroups,
      n.disk (m.bgdt g).inodeBitmap = m.disk (m.bgdt g).inodeBitmap) :
    n.vol.taken = m.vol.taken := by
  ext ino
  have hbm := congrFun hmap (m.geo.inodeGroup ino)
  simp only [layout] at hbm
  simp only [vol, hgeo, hbm, Set.mem_ofPred_eq]
  refine and_congr_right fun _ => and_congr_right fun hg => ?_
  rw [hdisk _ hg]

/-- Data is read as it is on the disk. -/
theorem data_of_not_reserved {b : Nat} (h : ¬ m.layout.Reserved b) :
    m.vol.data b = m.disk b := if_neg h

theorem data_congr (hlay : n.layout = m.layout) {b : Nat}
    (hdisk : ¬ m.layout.Reserved b → n.disk b = m.disk b) : n.vol.data b = m.vol.data b := by
  by_cases h : m.layout.Reserved b
  · simp only [vol]
    rw [if_pos (hlay ▸ h), if_pos h]
  · rw [data_of_not_reserved h, data_of_not_reserved (hlay ▸ h), hdisk h]

theorem mem_busy_blockOf (m : Img) {g j : Nat} (hj : j < m.geo.blocksPerGroup) :
    m.geo.blockOf g j ∈ m.vol.busy ↔
      g < m.geo.numGroups ∧ bitAt (m.disk (m.layout.place (.blockMap g))) j = true := by
  obtain ⟨hle, hdiv, hmod⟩ := m.geo.blockOf_parts (g := g) hj
  simp only [vol, Set.mem_ofPred_eq, hdiv, hmod, hle, true_and]
  rfl

theorem mem_taken_inodeOf (m : Img) {g j : Nat} (hj : j < m.geo.inodesPerGroup) :
    m.geo.inodeOf g j ∈ m.vol.taken ↔
      g < m.geo.numGroups ∧ bitAt (m.disk (m.layout.place (.inodeMap g))) j = true := by
  obtain ⟨hdiv, hmod⟩ := m.geo.inodeOf_parts (g := g) hj
  have hne : m.geo.inodeOf g j ≠ 0 := by
    unfold Geo.inodeOf
    omega
  simp only [vol, Set.mem_ofPred_eq, hdiv, hmod, hne, not_false_eq_true, true_and, ne_eq]
  rfl

/-- A data block is replaced. -/
theorem vol_write_data (h : m.Sound) {b : Nat} (hb : ¬ m.layout.Reserved b) (page : Bytes) :
    (m.write b page).vol = m.vol.put b page := by
  refine Vol.ext rfl ?_ ?_ ?_ ?_
  · funext ino
    exact inode_congr (m := m) (n := m.write b page) rfl rfl fun _ hg =>
      write_disk_place_data hb (h.layout.has_table hg) page
  · funext c
    by_cases hc : c = b
    · subst hc
      rw [Vol.put_data_self, data_of_not_reserved (m := m.write c page) hb, write_disk_self]
    · rw [Vol.put_data_ne page hc]
      exact data_congr (m := m) (n := m.write b page) rfl fun _ => m.write_disk_ne page hc
  · exact busy_congr rfl rfl fun g hg =>
      write_disk_place_data (a := .blockMap g) hb hg page
  · exact taken_congr rfl rfl fun g hg =>
      write_disk_place_data (a := .inodeMap g) hb hg page

theorem Sound.write_data (h : m.Sound) {b : Nat} (hb : ¬ m.layout.Reserved b) (page : Bytes) :
    (m.write b page).Sound where
  layout := h.layout
  reserved c hc hle := by
    rw [vol_write_data h hb]
    exact h.reserved c hc hle
  freeBlocks g hg := by
    have hsame := write_disk_place_data (a := .blockMap g) hb hg page
    exact (h.freeBlocks g hg).trans (congrArg (clearBits · _) hsame.symm)
  freeInodes g hg := by
    have hsame := write_disk_place_data (a := .inodeMap g) hb hg page
    exact (h.freeInodes g hg).trans (congrArg (clearBits · _) hsame.symm)
  desc g hg := by
    have hsame := write_disk_place_data hb (Layout.has_desc (l := m.layout) hg) page
    exact (congrArg (slice · _ _) hsame).trans (h.desc g hg)

/-- An inode is replaced in its block of the table. -/
theorem vol_write_inode (h : m.Sound) {ino : Nat} (h0 : ino ≠ 0)
    (hg : m.geo.inodeGroup ino < m.geo.numGroups) (i : Bytes) :
    (m.write (m.inodeBlock ino)
      (blit (m.disk (m.inodeBlock ino)) (m.inodeOffset ino) inodeBytes i)).vol =
      m.vol.setInode ino (slice i 0 inodeBytes) := by
  have harea := h.layout.has_table hg
  refine Vol.ext rfl ?_ ?_ ?_ ?_
  · funext ino'
    by_cases hne : ino' = ino
    · subst hne
      have hvalid : ¬ (ino' = 0 ∨ m.geo.numGroups ≤ m.geo.inodeGroup ino') := by omega
      rw [Vol.setInode_self]
      refine (if_neg hvalid).trans (congrArg some ?_)
      exact (congrArg (slice · _ _) (m.write_disk_self _ _)).trans (slice_blit _ _ _ _)
    · rw [Vol.setInode_ne _ hne]
      by_cases hvalid : ino' = 0 ∨ m.geo.numGroups ≤ m.geo.inodeGroup ino'
      · exact (if_pos hvalid).trans (if_pos hvalid).symm
      · refine (if_neg hvalid).trans (Eq.trans (congrArg some ?_) (if_neg hvalid).symm)
        rw [not_or] at hvalid
        have hgroup' : m.layout.geo.inodeGroup ino' < m.layout.geo.numGroups := Nat.not_le.1 hvalid.2
        have harea' := h.layout.has_table hgroup'
        by_cases hblk : m.inodeBlock ino' = m.inodeBlock ino
        · -- in the same block the two inodes are apart
          have hplace := h.layout.apart _ _ harea' harea hblk
          rw [Area.table.injEq] at hplace
          have hapart := h.layout.inode_apart hne (by tauto) h0 hplace.1 hplace.2
          refine (congrArg (slice · _ _) ((congrArg _ hblk).trans (m.write_disk_self _ _))).trans ?_
          refine (slice_blit_ne _ _ hapart).trans ?_
          exact congrArg (fun b => slice (m.disk b) _ _) hblk.symm
        · exact congrArg (slice · _ _) (m.write_disk_ne _ hblk)
  · funext c
    refine data_congr (m := m) (n := m.write _ _) rfl fun hc => m.write_disk_ne _ ?_
    rintro rfl
    exact hc (Layout.reserved_of_has harea)
  · exact busy_congr rfl rfl fun g hg' =>
      write_disk_place h.layout harea (b := .blockMap g) hg' (by simp) _
  · exact taken_congr rfl rfl fun g hg' =>
      write_disk_place h.layout harea (b := .inodeMap g) hg' (by simp) _

theorem Sound.write_inode (h : m.Sound) {ino : Nat} (h0 : ino ≠ 0)
    (hg : m.geo.inodeGroup ino < m.geo.numGroups) (i : Bytes) :
    (m.write (m.inodeBlock ino)
      (blit (m.disk (m.inodeBlock ino)) (m.inodeOffset ino) inodeBytes i)).Sound where
  layout := h.layout
  reserved c hc hle := by
    rw [vol_write_inode h h0 hg]
    exact h.reserved c hc hle
  freeBlocks g hg' := by
    have hsame := write_disk_place h.layout (h.layout.has_table hg) (b := .blockMap g) hg'
      (by simp) (blit (m.disk (m.inodeBlock ino)) (m.inodeOffset ino) inodeBytes i)
    exact (h.freeBlocks g hg').trans (congrArg (clearBits · _) hsame.symm)
  freeInodes g hg' := by
    have hsame := write_disk_place h.layout (h.layout.has_table hg) (b := .inodeMap g) hg'
      (by simp) (blit (m.disk (m.inodeBlock ino)) (m.inodeOffset ino) inodeBytes i)
    exact (h.freeInodes g hg').trans (congrArg (clearBits · _) hsame.symm)
  desc g hg' := by
    have hsame := write_disk_place h.layout (h.layout.has_table hg)
      (Layout.has_desc (l := m.layout) hg') (by simp)
      (blit (m.disk (m.inodeBlock ino)) (m.inodeOffset ino) inodeBytes i)
    exact (congrArg (slice · _ _) hsame).trans (h.desc g hg')

/-! ### Bitmaps -/

/-- A bitmap is replaced together with the descriptor of its group. -/
def mark (m : Img) (g bmap : Nat) (page : Bytes) (d : Bgd) : Img :=
  let m := { m.write bmap page with bgdt := Function.update m.bgdt g d }
  m.write (m.geo.bgdBlock g)
    (blit (m.disk (m.geo.bgdBlock g)) (g * bgdBytes % m.geo.blockSize) bgdBytes (m.bgdt g).bytes)

section Mark

variable {g : Nat} {a : Area} {page : Bytes} {d : Bgd}

theorem mark_bgdt_self (m : Img) (g bmap : Nat) (page : Bytes) (d : Bgd) :
    (m.mark g bmap page d).bgdt g = d := Function.update_self _ _ _

theorem mark_bgdt_ne (m : Img) {g g' : Nat} (bmap : Nat) (page : Bytes) (d : Bgd) (h : g' ≠ g) :
    (m.mark g bmap page d).bgdt g' = m.bgdt g' := Function.update_of_ne h _ _

theorem mark_layout (hd : (m.bgdt g).Recounts d) (bmap : Nat) :
    (m.mark g bmap page d).layout = m.layout := by
  have hsame : ∀ g', (m.bgdt g').Recounts ((m.mark g bmap page d).bgdt g') := by
    intro g'
    by_cases hg : g' = g
    · subst hg
      rw [mark_bgdt_self]
      exact hd
    · rw [mark_bgdt_ne _ _ _ _ hg]
      exact ⟨rfl, rfl, rfl⟩
  simp only [layout]
  rw [funext fun g' => (hsame g').blockBitmap, funext fun g' => (hsame g').inodeBitmap,
    funext fun g' => (hsame g').inodeTable]
  rfl

theorem mark_disk_ne {bmap x : Nat} (hg : m.geo.bgdBlock g ≠ x) (hx : x ≠ bmap) :
    (m.mark g bmap page d).disk x = m.disk x := by
  refine (Function.update_of_ne hg.symm _ _).trans ?_
  exact m.write_disk_ne page hx

theorem mark_disk_place (h : m.layout.Ok) (hg : g < m.geo.numGroups) (ha : m.layout.Has a)
    {b : Area} (hb : m.layout.Has b) (hne : b ≠ a) (hdesc : ∀ k, b ≠ .desc k) :
    (m.mark g (m.layout.place a) page d).disk (m.layout.place b) =
      m.disk (m.layout.place b) := by
  refine mark_disk_ne (fun heq => ?_) fun heq => hne (h.apart _ _ hb ha heq)
  exact hdesc _ (h.apart _ _ hb (Layout.has_desc hg) heq.symm)

theorem mark_disk_self (h : m.layout.Ok) (hg : g < m.geo.numGroups) (ha : m.layout.Has a)
    (hdesc : ∀ k, a ≠ .desc k) :
    (m.mark g (m.layout.place a) page d).disk (m.layout.place a) = page := by
  have hne : m.layout.place a ≠ m.geo.bgdBlock g := fun heq =>
    hdesc _ (h.apart _ _ ha (Layout.has_desc hg) heq)
  refine (Function.update_of_ne hne _ _).trans ?_
  exact m.write_disk_self _ _

/-- The descriptors on the disk follow the ones in memory. -/
theorem mark_desc (h : m.Sound) (hg : g < m.geo.numGroups) (ha : m.layout.Has a)
    (hdesc : ∀ k, a ≠ .desc k) {g' : Nat} (hg' : g' < m.geo.numGroups) :
    slice ((m.mark g (m.layout.place a) page d).disk (m.geo.bgdBlock g'))
      (g' * bgdBytes % m.geo.blockSize) bgdBytes =
      slice ((m.mark g (m.layout.place a) page d).bgdt g').bytes 0 bgdBytes := by
  have hplace : ∀ g'' < m.geo.numGroups, m.geo.bgdBlock g'' ≠ m.layout.place a :=
    fun g'' hg'' heq => hdesc _ (h.layout.apart _ _ ha (Layout.has_desc hg'') heq.symm)
  by_cases hne : g' = g
  · subst hne
    refine (congrArg (slice · _ _) (Function.update_self _ _ _)).trans ?_
    exact slice_blit _ _ _ _
  · rw [mark_bgdt_ne _ _ _ _ hne]
    refine Eq.trans ?_ (h.desc g' hg')
    by_cases hblk : m.geo.bgdBlock g' = m.geo.bgdBlock g
    · have hapart : g * bgdBytes % m.geo.blockSize + bgdBytes ≤
          g' * bgdBytes % m.geo.blockSize ∨
          g' * bgdBytes % m.geo.blockSize + bgdBytes ≤ g * bgdBytes % m.geo.blockSize := by
        refine Layout.desc_apart (l := m.layout) (Ne.symm hne) ?_
        unfold Geo.bgdBlock at hblk
        exact (Nat.add_left_cancel hblk).symm
      rw [hblk]
      refine (congrArg (slice · _ _) (Function.update_self _ _ _)).trans ?_
      refine (slice_blit_ne _ _ (Or.symm hapart)).trans ?_
      exact congrArg (slice · _ _) (m.write_disk_ne page (hplace g hg))
    · rw [mark_disk_ne (Ne.symm hblk) (hplace g' hg')]

theorem mark_data (hd : (m.bgdt g).Recounts d) (hg : g < m.geo.numGroups)
    (ha : m.layout.Has a) (c : Nat) :
    (m.mark g (m.layout.place a) page d).vol.data c = m.vol.data c := by
  refine data_congr (mark_layout hd _) fun hc => mark_disk_ne ?_ ?_
  · rintro rfl
    exact hc (Layout.reserved_of_has (Layout.has_desc (l := m.layout) hg))
  · rintro rfl
    exact hc (Layout.reserved_of_has ha)

theorem mark_inode (h : m.layout.Ok) (hd : (m.bgdt g).Recounts d) (hg : g < m.geo.numGroups)
    (ha : m.layout.Has a) (htable : ∀ g k, a ≠ .table g k) (ino : Nat) :
    (m.mark g (m.layout.place a) page d).vol.inode ino = m.vol.inode ino := by
  refine inode_congr (m := m) (n := m.mark g (m.layout.place a) page d) rfl
    (congrArg Layout.inodeTable (mark_layout hd _)) fun _ hg' => ?_
  exact mark_disk_place h hg ha (h.has_table hg') (htable _ _).symm (by simp)

/-- A bit of the bitmap gets a value. -/
def Flips (old new : Bytes) (bit : Nat) (val : Bool) : Prop :=
  ∀ j, bitAt new j = if j = bit then val else bitAt old j

theorem flips_setBit (b : Bytes) (bit : Nat) : Flips b (setBit b bit) bit true :=
  bitAt_setBit b bit

theorem flips_clearBit (b : Bytes) (bit : Nat) : Flips b (clearBit b bit) bit false :=
  bitAt_clearBit b bit

/-- The bits of the bitmaps of one kind. -/
theorem bitAt_mark (h : m.layout.Ok) {K : Nat → Area} (hK : Function.Injective K)
    (hhas : ∀ g, m.layout.Has (K g) ↔ g < m.geo.numGroups) (hdesc : ∀ g k, K g ≠ .desc k)
    (hg : g < m.geo.numGroups) {bit : Nat} {val : Bool}
    (hpage : Flips (m.disk (m.layout.place (K g))) page bit val) (g' j : Nat) :
    (g' < m.geo.numGroups ∧
      bitAt ((m.mark g (m.layout.place (K g)) page d).disk (m.layout.place (K g'))) j = true) ↔
      if g' = g ∧ j = bit then val = true
      else g' < m.geo.numGroups ∧ bitAt (m.disk (m.layout.place (K g'))) j = true := by
  by_cases hgg : g' = g
  · subst hgg
    rw [mark_disk_self h hg ((hhas g').2 hg) (hdesc g'), hpage]
    by_cases hj : j = bit
    · simp [hj, hg]
    · simp [hj]
  · rw [if_neg fun hc => hgg hc.1]
    refine and_congr_right fun hg' => ?_
    rw [mark_disk_place h hg ((hhas g).2 hg) ((hhas g').2 hg') (hK.ne hgg) (hdesc g')]

theorem busy_mark (h : m.Sound) (hd : (m.bgdt g).Recounts d) (hg : g < m.geo.numGroups)
    {bit : Nat} (hbit : bit < m.geo.blocksPerGroup) {val : Bool}
    (hpage : Flips (m.disk (m.layout.place (.blockMap g))) page bit val) (c : Nat) :
    c ∈ (m.mark g (m.layout.place (.blockMap g)) page d).vol.busy ↔
      if c = m.geo.blockOf g bit then val = true else c ∈ m.vol.busy := by
  by_cases hle : m.geo.firstDataBlock ≤ c
  · obtain ⟨g', j, hj, rfl⟩ := m.geo.exists_blockOf h.layout.perGroup.1 hle
    have hmem := (m.mark g (m.layout.place (.blockMap g)) page d).mem_busy_blockOf (g := g') hj
    rw [mark_layout hd] at hmem
    simp only [m.mem_busy_blockOf hj, m.geo.blockOf_inj hj hbit]
    refine Iff.trans hmem ?_
    exact bitAt_mark h.layout (K := .blockMap) (fun _ _ => Area.blockMap.inj) (fun _ => Iff.rfl)
      (by simp) hg hpage g' j
  · have hne : c ≠ m.geo.blockOf g bit := by
      have := (m.geo.blockOf_parts (g := g) hbit).1
      omega
    rw [if_neg hne]
    exact ⟨fun hx => absurd hx.1 hle, fun hx => absurd hx.1 hle⟩

theorem taken_mark (h : m.Sound) (hd : (m.bgdt g).Recounts d) (hg : g < m.geo.numGroups)
    {bit : Nat} (hbit : bit < m.geo.inodesPerGroup) {val : Bool}
    (hpage : Flips (m.disk (m.layout.place (.inodeMap g))) page bit val) (ino : Nat) :
    ino ∈ (m.mark g (m.layout.place (.inodeMap g)) page d).vol.taken ↔
      if ino = m.geo.inodeOf g bit then val = true else ino ∈ m.vol.taken := by
  by_cases h0 : ino = 0
  · have hne : ino ≠ m.geo.inodeOf g bit := by
      unfold Geo.inodeOf
      omega
    rw [if_neg hne]
    exact ⟨fun hx => absurd h0 hx.1, fun hx => absurd h0 hx.1⟩
  · obtain ⟨g', j, hj, rfl⟩ := m.geo.exists_inodeOf h.layout.inodesPerGroup.1 h0
    have hmem := (m.mark g (m.layout.place (.inodeMap g)) page d).mem_taken_inodeOf (g := g') hj
    rw [mark_layout hd] at hmem
    simp only [m.mem_taken_inodeOf hj, m.geo.inodeOf_inj hj hbit]
    refine Iff.trans hmem ?_
    exact bitAt_mark h.layout (K := .inodeMap) (fun _ _ => Area.inodeMap.inj) (fun _ => Iff.rfl)
      (by simp) hg hpage g' j

/-- The bitmap of the inodes stays when a block changes its state, and the other
way round. -/
theorem vol_mark_block (h : m.Sound) (hd : (m.bgdt g).Recounts d) (hg : g < m.geo.numGroups)
    {B : Set Nat}
    (hB : (m.mark g (m.layout.place (.blockMap g)) page d).vol.busy = B) :
    (m.mark g (m.layout.place (.blockMap g)) page d).vol = { m.vol with busy := B } := by
  refine Vol.ext (mark_layout hd _) ?_ ?_ hB ?_
  · exact funext fun ino => mark_inode h.layout hd hg (a := .blockMap g) hg (by simp) ino
  · exact funext fun c => mark_data hd hg (a := .blockMap g) hg c
  · refine taken_congr (m := m) (n := m.mark _ _ _ _) rfl
      (congrArg Layout.inodeBitmap (mark_layout hd _)) fun g' hg' => ?_
    exact mark_disk_place h.layout hg (a := .blockMap g) hg (b := .inodeMap g') hg' (by simp)
      (by simp)

theorem vol_mark_inode (h : m.Sound) (hd : (m.bgdt g).Recounts d) (hg : g < m.geo.numGroups)
    {T : Set Nat}
    (hT : (m.mark g (m.layout.place (.inodeMap g)) page d).vol.taken = T) :
    (m.mark g (m.layout.place (.inodeMap g)) page d).vol = { m.vol with taken := T } := by
  refine Vol.ext (mark_layout hd _) ?_ ?_ ?_ hT
  · exact funext fun ino => mark_inode h.layout hd hg (a := .inodeMap g) hg (by simp) ino
  · exact funext fun c => mark_data hd hg (a := .inodeMap g) hg c
  · refine busy_congr (m := m) (n := m.mark _ _ _ _) rfl
      (congrArg Layout.blockBitmap (mark_layout hd _)) fun g' hg' => ?_
    exact mark_disk_place h.layout hg (a := .inodeMap g) hg (b := .blockMap g') hg' (by simp)
      (by simp)

theorem Sound.mark_block (h : m.Sound) (hd : (m.bgdt g).Recounts d) (hg : g < m.geo.numGroups)
    (hcount : d.freeBlocks = clearBits page m.geo.blocksPerGroup)
    (hinodes : d.freeInodes = (m.bgdt g).freeInodes)
    (hres : ∀ c, m.layout.Reserved c → m.geo.firstDataBlock ≤ c →
      c ∈ (m.mark g (m.layout.place (.blockMap g)) page d).vol.busy) :
    (m.mark g (m.layout.place (.blockMap g)) page d).Sound where
  layout := by
    rw [mark_layout hd]
    exact h.layout
  reserved c hc hle := hres c (by rwa [mark_layout hd] at hc) hle
  freeBlocks g' hg' := by
    have hlay : (m.mark g (m.layout.place (.blockMap g)) page d).layout = m.layout :=
      mark_layout hd _
    have hmap := congrFun (congrArg Layout.blockBitmap hlay) g'
    refine Eq.trans ?_ (congrArg (fun b => clearBits (Img.disk _ b) _) hmap).symm
    by_cases hgg : g' = g
    · subst hgg
      rw [mark_bgdt_self, hcount]
      exact congrArg (clearBits · _) (mark_disk_self h.layout hg (a := .blockMap g') hg (by simp)).symm
    · rw [mark_bgdt_ne _ _ _ _ hgg, h.freeBlocks g' hg']
      exact congrArg (clearBits · _) (mark_disk_place h.layout hg (a := .blockMap g) hg
        (b := .blockMap g') hg' (by simpa using hgg) (by simp)).symm
  freeInodes g' hg' := by
    have hlay : (m.mark g (m.layout.place (.blockMap g)) page d).layout = m.layout :=
      mark_layout hd _
    have hmap := congrFun (congrArg Layout.inodeBitmap hlay) g'
    refine Eq.trans ?_ (congrArg (fun b => clearBits (Img.disk _ b) _) hmap).symm
    have hold : ((m.mark g (m.layout.place (.blockMap g)) page d).bgdt g').freeInodes =
        (m.bgdt g').freeInodes := by
      by_cases hgg : g' = g
      · subst hgg
        rw [mark_bgdt_self, hinodes]
      · rw [mark_bgdt_ne _ _ _ _ hgg]
    rw [hold, h.freeInodes g' hg']
    exact congrArg (clearBits · _) (mark_disk_place h.layout hg (a := .blockMap g) hg
      (b := .inodeMap g') hg' (by simp) (by simp)).symm
  desc g' hg' := mark_desc h hg (a := .blockMap g) hg (by simp) hg'

theorem Sound.mark_inode (h : m.Sound) (hd : (m.bgdt g).Recounts d) (hg : g < m.geo.numGroups)
    (hcount : d.freeInodes = clearBits page m.geo.inodesPerGroup)
    (hblocks : d.freeBlocks = (m.bgdt g).freeBlocks)
    (hbusy : (m.mark g (m.layout.place (.inodeMap g)) page d).vol.busy = m.vol.busy) :
    (m.mark g (m.layout.place (.inodeMap g)) page d).Sound where
  layout := by
    rw [mark_layout hd]
    exact h.layout
  reserved c hc hle := by
    rw [hbusy]
    exact h.reserved c (by rwa [mark_layout hd] at hc) hle
  freeBlocks g' hg' := by
    have hlay : (m.mark g (m.layout.place (.inodeMap g)) page d).layout = m.layout :=
      mark_layout hd _
    have hmap := congrFun (congrArg Layout.blockBitmap hlay) g'
    refine Eq.trans ?_ (congrArg (fun b => clearBits (Img.disk _ b) _) hmap).symm
    have hold : ((m.mark g (m.layout.place (.inodeMap g)) page d).bgdt g').freeBlocks =
        (m.bgdt g').freeBlocks := by
      by_cases hgg : g' = g
      · subst hgg
        rw [mark_bgdt_self, hblocks]
      · rw [mark_bgdt_ne _ _ _ _ hgg]
    rw [hold, h.freeBlocks g' hg']
    exact congrArg (clearBits · _) (mark_disk_place h.layout hg (a := .inodeMap g) hg
      (b := .blockMap g') hg' (by simp) (by simp)).symm
  freeInodes g' hg' := by
    have hlay : (m.mark g (m.layout.place (.inodeMap g)) page d).layout = m.layout :=
      mark_layout hd _
    have hmap := congrFun (congrArg Layout.inodeBitmap hlay) g'
    refine Eq.trans ?_ (congrArg (fun b => clearBits (Img.disk _ b) _) hmap).symm
    by_cases hgg : g' = g
    · subst hgg
      rw [mark_bgdt_self, hcount]
      exact congrArg (clearBits · _) (mark_disk_self h.layout hg (a := .inodeMap g') hg (by simp)).symm
    · rw [mark_bgdt_ne _ _ _ _ hgg, h.freeInodes g' hg']
      exact congrArg (clearBits · _) (mark_disk_place h.layout hg (a := .inodeMap g) hg
        (b := .inodeMap g') hg' (by simpa using hgg) (by simp)).symm
  desc g' hg' := mark_desc h hg (a := .inodeMap g) hg (by simp) hg'

end Mark

end Img

end FiFi.Ext2
