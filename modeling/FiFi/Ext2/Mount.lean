import FiFi.Ext2.Volume

/-!
# Mounting an ext2 volume

`ext2_init` takes the geometry of a volume from the 90 bytes of its superblock
and reads the table of group descriptors. It looks at the magic number, refuses
blocks of more than 4096 bytes and inodes of less than 128. Nothing else is
checked, and all numbers are computed modulo `2 ^ 32`.
-/

namespace FiFi.Ext2

open ByteStore

/-! ### The superblock -/

/-- `ext2_sb_t`, as far as it is used. -/
def sbBlocksCount (sb : Bytes) : Nat := le32 sb 4
def sbFirstDataBlock (sb : Bytes) : Nat := le32 sb 20
def sbLogBlockSize (sb : Bytes) : Nat := le32 sb 24
def sbBlocksPerGroup (sb : Bytes) : Nat := le32 sb 32
def sbInodesPerGroup (sb : Bytes) : Nat := le32 sb 40
def sbMagic (sb : Bytes) : Nat := le16 sb 56
def sbRevLevel (sb : Bytes) : Nat := le32 sb 76
def sbInodeSize (sb : Bytes) : Nat := le16 sb 88

/-- `EXT2_MAGIC`. -/
def ext2Magic : Nat := 0xEF53

/-- `1024u << s_log_block_size`, where the shift is defined. -/
def mountBlockSize (sb : Bytes) : Nat := 1024 * 2 ^ sbLogBlockSize sb % 2 ^ 32

/-- The size of an inode; a superblock of revision 0 has no field for it. -/
def mountInodeSize (sb : Bytes) : Nat := if 1 ≤ sbRevLevel sb then sbInodeSize sb else 128

/-- `s_blocks_count + s_blocks_per_group - 1`, divided by `s_blocks_per_group`. -/
def mountGroups (sb : Bytes) : Nat :=
  (sbBlocksCount sb + sbBlocksPerGroup sb - 1) % 2 ^ 32 / sbBlocksPerGroup sb

/-- The size of the table of descriptors. -/
def tableBytes (sb : Bytes) : Nat := mountGroups sb * bgdBytes % 2 ^ 32

def tableBlocks (sb : Bytes) : Nat :=
  (tableBytes sb + mountBlockSize sb - 1) % 2 ^ 32 / mountBlockSize sb

/-- The geometry that `ext2_init` stores. -/
def mountGeo (sb : Bytes) : Geo where
  blockSize := mountBlockSize sb
  inodesPerGroup := sbInodesPerGroup sb
  blocksPerGroup := sbBlocksPerGroup sb
  inodeSize := mountInodeSize sb
  firstDataBlock := sbFirstDataBlock sb
  numGroups := mountGroups sb

/-! ### Mounting -/

/-- What `kmalloc` answers: memory with some content, a null pointer, or nothing
because the heap panics. -/
inductive Grant where
  | memory (old : Bytes)
  | null
  | panics

/-- What `ext2_init` calls: the block device, the two pages and the heap. -/
structure Machine where
  present : Bool
  ioPage : Nat
  indPage : Nat
  /-- `virtio_blk_read` from a sector on, for a number of sectors. -/
  read : Nat → Nat → Option Bytes
  kmalloc : Nat → Grant

/-- How `ext2_init` ends. A shift by 32 or more and a division by zero are
undefined. -/
inductive Mount where
  | undefined
  | panics
  | failed
  | ready (geo : Geo) (bgdt : Nat → Bgd)

/-- The first sector of a block of the table. -/
def tableSector (sb : Bytes) (i : Nat) : Nat :=
  ((sbFirstDataBlock sb + 1) % 2 ^ 32 + i) % 2 ^ 32 * (mountBlockSize sb / 512)

/-- The loop that reads the blocks of the table. -/
def readTable (m : Machine) (sb table : Bytes) : List Nat → Option Bytes
  | [] => some table
  | i :: is =>
      match m.read (tableSector sb i) (mountBlockSize sb / 512) with
      | none => none
      | some page =>
          let off := i * mountBlockSize sb
          let chunk :=
            if tableBytes sb < off + mountBlockSize sb then tableBytes sb - off
            else mountBlockSize sb
          readTable m sb (blit table off chunk page) is

/-- The descriptor of a group in the table. -/
def bgdOf (table : Bytes) (g : Nat) : Bgd where
  blockBitmap := le32 table (g * bgdBytes)
  inodeBitmap := le32 table (g * bgdBytes + 4)
  inodeTable := le32 table (g * bgdBytes + 8)
  freeBlocks := le16 table (g * bgdBytes + 12)
  freeInodes := le16 table (g * bgdBytes + 14)
  tail := slice table (g * bgdBytes) bgdBytes

/-- `ext2_init`. -/
def ext2Init (m : Machine) : Mount :=
  if m.present = false then .failed
  else if m.ioPage = 0 ∨ m.indPage = 0 then .failed
  else
    match m.read 2 2 with
    | none => .failed
    | some sb =>
        if sbMagic sb ≠ ext2Magic then .failed
        else if 32 ≤ sbLogBlockSize sb then .undefined
        else if 4096 < mountBlockSize sb then .failed
        else if mountInodeSize sb < inodeBytes then .failed
        else if sbBlocksPerGroup sb = 0 then .undefined
        else
          match m.kmalloc (tableBytes sb) with
          | .panics => .panics
          | .null => .failed
          | .memory old =>
              if mountBlockSize sb = 0 then .undefined
              else
                match readTable m sb old (List.range (tableBlocks sb)) with
                | none => .failed
                | some table => .ready (mountGeo sb) (bgdOf table)

/-! ### What the driver relies on -/

/-- `PAGE_SIZE`, the size of the page `io`. -/
def ioPageSize : Nat := 4096

/-- No routine of the driver divides by zero or leaves the page `io`: the divisors,
the byte of a bit in a bitmap that is searched, of the bit of a block and of the bit
of an inode, and the bytes of an inode in its block. A bit is shifted by its
position in a byte. -/
structure Geo.Safe (g : Geo) : Prop where
  divisors : g.blockSize ≠ 0 ∧ g.inodesPerGroup ≠ 0 ∧ g.blocksPerGroup ≠ 0
  search : ∀ bit, bit < g.blocksPerGroup ∨ bit < g.inodesPerGroup → bit / 8 < ioPageSize
  blockBit : ∀ blk, (blk - g.firstDataBlock) % g.blocksPerGroup / 8 < ioPageSize
  inodeBit : ∀ ino, (ino - 1) % g.inodesPerGroup / 8 < ioPageSize
  shift : ∀ bit, bit % 8 < 32
  inode : ∀ ino, g.inodeByte ino % g.blockSize + inodeBytes ≤ ioPageSize

/-- A superblock the driver can work with. -/
structure Usable (sb : Bytes) (g : Geo) : Prop where
  size : g.blockSize = 1024 ∨ g.blockSize = 2048 ∨ g.blockSize = 4096
  blocksPerGroup : g.blocksPerGroup ≠ 0 ∧ g.blocksPerGroup ≤ 8 * g.blockSize
  inodesPerGroup : g.inodesPerGroup ≠ 0 ∧ g.inodesPerGroup ≤ 8 * g.blockSize
  inodeSize : g.inodeSize ∣ g.blockSize
  groups : g.numGroups = (sbBlocksCount sb + g.blocksPerGroup - 1) / g.blocksPerGroup
  table : tableBytes sb = g.numGroups * bgdBytes

/-- An inode of a size that divides the size of a block lies in one block. -/
theorem inodeByte_fits {g : Geo} (hsize : inodeBytes ≤ g.inodeSize)
    (hdvd : g.inodeSize ∣ g.blockSize) (hpos : 0 < g.blockSize) (ino : Nat) :
    g.inodeByte ino % g.blockSize + inodeBytes ≤ g.blockSize := by
  obtain ⟨n, hn⟩ := hdvd
  have hn0 : 0 < n := by
    rcases Nat.eq_zero_or_pos n with rfl | h
    · omega
    · exact h
  unfold Geo.inodeByte
  rw [hn, Nat.mul_comm _ g.inodeSize, Nat.mul_mod_mul_left]
  have hlt : (ino - 1) % g.inodesPerGroup % n + 1 ≤ n := Nat.mod_lt _ hn0
  calc g.inodeSize * ((ino - 1) % g.inodesPerGroup % n) + inodeBytes
      ≤ g.inodeSize * ((ino - 1) % g.inodesPerGroup % n) + g.inodeSize := by omega
    _ = g.inodeSize * ((ino - 1) % g.inodesPerGroup % n + 1) := by ring
    _ ≤ g.inodeSize * n := Nat.mul_le_mul_left _ hlt

theorem Geo.safe_of {g : Geo} (hpos : 0 < g.blockSize) (hsize : g.blockSize ≤ 4096)
    (hblocks : g.blocksPerGroup ≠ 0 ∧ g.blocksPerGroup ≤ 8 * g.blockSize)
    (hinodes : g.inodesPerGroup ≠ 0 ∧ g.inodesPerGroup ≤ 8 * g.blockSize)
    (hinode : inodeBytes ≤ g.inodeSize) (hdvd : g.inodeSize ∣ g.blockSize) : g.Safe := by
  have hbit : ∀ {n bit}, n ≤ 8 * g.blockSize → bit < n → bit / 8 < ioPageSize := by
    intro n bit hn hlt
    unfold ioPageSize
    omega
  refine ⟨⟨hpos.ne', hinodes.1, hblocks.1⟩, fun bit h => ?_, fun blk => ?_, fun ino => ?_,
    fun bit => by omega, fun ino => ?_⟩
  · rcases h with h | h
    · exact hbit hblocks.2 h
    · exact hbit hinodes.2 h
  · exact hbit hblocks.2 (Nat.mod_lt _ (Nat.pos_of_ne_zero hblocks.1))
  · exact hbit hinodes.2 (Nat.mod_lt _ (Nat.pos_of_ne_zero hinodes.1))
  · exact (inodeByte_fits hinode hdvd hpos ino).trans hsize

theorem Usable.safe {sb : Bytes} {g : Geo} (h : Usable sb g) (hinode : inodeBytes ≤ g.inodeSize) :
    g.Safe := by
  have hsize := h.size
  exact Geo.safe_of (by omega) (by omega) h.blocksPerGroup h.inodesPerGroup hinode h.inodeSize

/-- The layouts of well formed volumes are safe. -/
theorem Layout.Ok.safe {l : Layout} (h : l.Ok) : l.geo.Safe := by
  have hsize := h.size
  exact Geo.safe_of (by omega) (by omega) ⟨h.perGroup.1.ne', h.perGroup.2⟩
    ⟨h.inodesPerGroup.1.ne', h.inodesPerGroup.2⟩ h.inodeSize h.inodeFits

/-! ### Which superblocks are accepted -/

/-- The size of a block by the field of the superblock. -/
theorem mountBlockSize_cases {sb : Bytes} (h : sbLogBlockSize sb < 32) :
    (sbLogBlockSize sb ≤ 2 ∧ (mountBlockSize sb = 1024 ∨ mountBlockSize sb = 2048 ∨
      mountBlockSize sb = 4096)) ∨
    (3 ≤ sbLogBlockSize sb ∧ sbLogBlockSize sb ≤ 21 ∧ 4096 < mountBlockSize sb) ∨
    (22 ≤ sbLogBlockSize sb ∧ mountBlockSize sb = 0) := by
  unfold mountBlockSize
  generalize sbLogBlockSize sb = n at h ⊢
  interval_cases n <;> simp

/-- The device or the heap is in the way. -/
def Machine.Unable (m : Machine) (sb : Bytes) : Prop :=
  m.present = false ∨ m.ioPage = 0 ∨ m.indPage = 0 ∨
    (∀ old, m.kmalloc (tableBytes sb) ≠ .memory old) ∨
    ∃ i < tableBlocks sb, m.read (tableSector sb i) (mountBlockSize sb / 512) = none

/-- The superblock does not get past the checks and the divisions of `ext2_init`. -/
def Stopped (sb : Bytes) : Prop :=
  sbMagic sb ≠ ext2Magic ∨ 3 ≤ sbLogBlockSize sb ∨ mountInodeSize sb < inodeBytes ∨
    sbBlocksPerGroup sb = 0

/-- What `ext2_init` does not check. -/
structure Sane (sb : Bytes) : Prop where
  blocksPerGroup : sbBlocksPerGroup sb ≤ 8 * mountBlockSize sb
  inodesPerGroup : sbInodesPerGroup sb ≠ 0 ∧ sbInodesPerGroup sb ≤ 8 * mountBlockSize sb
  inodeSize : mountInodeSize sb ∣ mountBlockSize sb
  groups : sbBlocksCount sb + sbBlocksPerGroup sb ≤ 2 ^ 32
  table : mountGroups sb * bgdBytes < 2 ^ 32

theorem readTable_isSome (m : Machine) (sb table : Bytes) (is : List Nat) :
    (readTable m sb table is).isSome = true ↔
      ∀ i ∈ is, m.read (tableSector sb i) (mountBlockSize sb / 512) ≠ none := by
  induction is generalizing table with
  | nil => simp [readTable]
  | cons i is ih =>
      unfold readTable
      rw [List.forall_mem_cons]
      cases hread : m.read (tableSector sb i) (mountBlockSize sb / 512) with
      | none => simp
      | some page => simp [ih]

section Init

variable {m : Machine} {sb : Bytes} (hsb : m.read 2 2 = some sb)

include hsb

/-- What `ext2_init` accepts. -/
theorem ext2Init_ready {geo : Geo} {bgdt : Nat → Bgd} (h : ext2Init m = .ready geo bgdt) :
    geo = mountGeo sb ∧ ¬ m.Unable sb ∧ ¬ Stopped sb := by
  unfold ext2Init at h
  rw [hsb] at h
  dsimp only at h
  split_ifs at h with hpresent hpages hmagic hshift hsize hinode hgroup hzero
  · -- the division by zero comes after the answer of the heap
    cases hk : m.kmalloc (tableBytes sb) <;> rw [hk] at h <;> cases h
  have hcases := mountBlockSize_cases (Nat.not_le.1 hshift)
  cases hk : m.kmalloc (tableBytes sb) with
  | panics => rw [hk] at h; cases h
  | null => rw [hk] at h; cases h
  | memory old =>
      rw [hk] at h
      dsimp only at h
      have hsome := readTable_isSome m sb old (List.range (tableBlocks sb))
      cases ht : readTable m sb old (List.range (tableBlocks sb)) with
      | none => rw [ht] at h; cases h
      | some table =>
          rw [ht] at h hsome
          refine ⟨(Mount.ready.inj h).1.symm, ?_, ?_⟩
          · rintro (hbad | hbad | hbad | hbad | ⟨i, hi, hbad⟩)
            · exact hpresent hbad
            · exact hpages (Or.inl hbad)
            · exact hpages (Or.inr hbad)
            · exact hbad old hk
            · exact hsome.1 rfl i (List.mem_range.2 hi) hbad
          · rintro (hbad | hbad | hbad | hbad)
            · exact hmagic hbad
            · omega
            · exact hinode hbad
            · exact hgroup hbad

/-- What is neither hindered nor stopped is accepted. -/
theorem exists_ext2Init_ready (hable : ¬ m.Unable sb) (hpass : ¬ Stopped sb) :
    ∃ bgdt, ext2Init m = .ready (mountGeo sb) bgdt := by
  unfold Machine.Unable at hable
  unfold Stopped at hpass
  push Not at hable hpass
  obtain ⟨hpresent, hio, hind, ⟨old, hk⟩, hread⟩ := hable
  obtain ⟨hmagic, hlog, hinode, hgroup⟩ := hpass
  have hcases := @mountBlockSize_cases sb (by omega)
  obtain ⟨table, ht⟩ := Option.isSome_iff_exists.1
    ((readTable_isSome m sb old (List.range (tableBlocks sb))).2 fun i hi =>
      hread i (List.mem_range.1 hi))
  refine ⟨bgdOf table, ?_⟩
  unfold ext2Init
  rw [hsb]
  dsimp only
  rw [if_neg hpresent, if_neg (by tauto), if_neg (by simpa using hmagic), if_neg (by omega),
    if_neg (by omega), if_neg (by omega), if_neg hgroup, hk]
  dsimp only
  rw [if_neg (by omega), ht]

end Init

/-- The geometry is usable exactly if the fields that nobody checks are sane. -/
theorem usable_mountGeo_iff {sb : Bytes} (hpass : ¬ Stopped sb) : Usable sb (mountGeo sb) ↔ Sane sb := by
  unfold Stopped at hpass
  push Not at hpass
  obtain ⟨-, hlog, -, hgroup⟩ := hpass
  have hcases := @mountBlockSize_cases sb (by omega)
  have hbpg := le32_lt sb 32
  have hcount := le32_lt sb 4
  change sbBlocksPerGroup sb < 2 ^ 32 at hbpg
  change sbBlocksCount sb < 2 ^ 32 at hcount
  have hwrap : mountGroups sb = (sbBlocksCount sb + sbBlocksPerGroup sb - 1) / sbBlocksPerGroup sb ↔
      sbBlocksCount sb + sbBlocksPerGroup sb ≤ 2 ^ 32 := by
    unfold mountGroups
    by_cases hle : sbBlocksCount sb + sbBlocksPerGroup sb ≤ 2 ^ 32
    · rw [Nat.mod_eq_of_lt (by omega)]
      exact iff_of_true rfl hle
    · -- the sum lost `2 ^ 32`, which is at least one group
      refine iff_of_false (fun heq => ?_) hle
      have hmod : (sbBlocksCount sb + sbBlocksPerGroup sb - 1) % 2 ^ 32 + 2 ^ 32 =
          sbBlocksCount sb + sbBlocksPerGroup sb - 1 := by omega
      have hpos := Nat.pos_of_ne_zero hgroup
      have hstep := Nat.add_div_right ((sbBlocksCount sb + sbBlocksPerGroup sb - 1) % 2 ^ 32) hpos
      have hmono := Nat.div_le_div_right (c := sbBlocksPerGroup sb)
        (show (sbBlocksCount sb + sbBlocksPerGroup sb - 1) % 2 ^ 32 + sbBlocksPerGroup sb ≤
          sbBlocksCount sb + sbBlocksPerGroup sb - 1 by omega)
      omega
  have htable : tableBytes sb = mountGroups sb * bgdBytes ↔ mountGroups sb * bgdBytes < 2 ^ 32 := by
    unfold tableBytes
    constructor
    · intro heq
      rw [← heq]
      exact Nat.mod_lt _ (by decide)
    · exact Nat.mod_eq_of_lt
  constructor
  · intro h
    exact ⟨h.blocksPerGroup.2, h.inodesPerGroup, h.inodeSize, hwrap.1 h.groups, htable.1 h.table⟩
  · intro h
    exact ⟨by simp only [mountGeo]; omega, ⟨hgroup, h.blocksPerGroup⟩, h.inodesPerGroup,
      h.inodeSize, hwrap.2 h.groups, htable.2 h.table⟩

/-- `ext2_init` itself shifts too far or divides by zero. -/
def Machine.Faults (m : Machine) (sb : Bytes) : Prop :=
  m.present = true ∧ m.ioPage ≠ 0 ∧ m.indPage ≠ 0 ∧ sbMagic sb = ext2Magic ∧
    (32 ≤ sbLogBlockSize sb ∨ mountBlockSize sb ≤ 4096 ∧ inodeBytes ≤ mountInodeSize sb ∧
      (sbBlocksPerGroup sb = 0 ∨ 22 ≤ sbLogBlockSize sb ∧
        ∃ old, m.kmalloc (tableBytes sb) = .memory old))

theorem ext2Init_undefined_iff {m : Machine} {sb : Bytes} (hsb : m.read 2 2 = some sb) :
    ext2Init m = .undefined ↔ m.Faults sb := by
  unfold ext2Init Machine.Faults
  rw [hsb]
  dsimp only
  by_cases hpresent : m.present = false
  · simp [hpresent]
  by_cases hpages : m.ioPage = 0 ∨ m.indPage = 0
  · rw [if_neg hpresent, if_pos hpages]
    exact iff_of_false (by simp) (by tauto)
  by_cases hmagic : sbMagic sb = ext2Magic
  swap
  · simp [hpresent, hpages, hmagic]
  by_cases hshift : 32 ≤ sbLogBlockSize sb
  · rw [if_neg hpresent, if_neg hpages, if_neg (by simpa using hmagic), if_pos hshift]
    exact iff_of_true rfl ⟨by simpa using hpresent, by tauto, by tauto, hmagic, Or.inl hshift⟩
  have hcases := mountBlockSize_cases (Nat.not_le.1 hshift)
  rw [if_neg hpresent, if_neg hpages, if_neg (by simpa using hmagic), if_neg hshift]
  by_cases hsize : 4096 < mountBlockSize sb
  · rw [if_pos hsize]
    exact iff_of_false (by simp) (by omega)
  by_cases hinode : mountInodeSize sb < inodeBytes
  · rw [if_neg hsize, if_pos hinode]
    exact iff_of_false (by simp) (by omega)
  by_cases hgroup : sbBlocksPerGroup sb = 0
  · rw [if_neg hsize, if_neg hinode, if_pos hgroup]
    exact iff_of_true rfl ⟨by simpa using hpresent, by tauto, by tauto, hmagic,
      Or.inr ⟨by omega, by omega, Or.inl hgroup⟩⟩
  rw [if_neg hsize, if_neg hinode, if_neg hgroup]
  have hfront : m.present = true ∧ m.ioPage ≠ 0 ∧ m.indPage ≠ 0 ∧ sbMagic sb = ext2Magic :=
    ⟨by simpa using hpresent, by tauto, by tauto, hmagic⟩
  cases hk : m.kmalloc (tableBytes sb) with
  | panics => simp [hshift, hgroup]
  | null => simp [hshift, hgroup]
  | memory old =>
      dsimp only
      by_cases hzero : mountBlockSize sb = 0
      · rw [if_pos hzero]
        exact iff_of_true rfl ⟨hfront.1, hfront.2.1, hfront.2.2.1, hmagic,
          Or.inr ⟨by omega, by omega, Or.inr ⟨by omega, old, rfl⟩⟩⟩
      · rw [if_neg hzero]
        refine iff_of_false ?_ ?_
        · split <;> simp
        · rintro ⟨-, -, -, -, h | ⟨-, -, h | ⟨h, -⟩⟩⟩ <;> omega

/-- **A superblock that `ext2_init` accepts is usable exactly if the fields it does not
check are sane; it faults itself on some others; and on a usable one the driver is
safe.** -/
theorem ext2Init_usable_iff {m : Machine} {sb : Bytes} (hsb : m.read 2 2 = some sb) :
    ((∀ geo bgdt, ext2Init m = .ready geo bgdt → Usable sb geo) ↔
      m.Unable sb ∨ Stopped sb ∨ Sane sb) ∧
    (ext2Init m = .undefined ↔ m.Faults sb) ∧
    ∀ geo bgdt, ext2Init m = .ready geo bgdt → Usable sb geo → geo.Safe := by
  refine ⟨⟨fun h => ?_, fun h geo bgdt hready => ?_⟩, ext2Init_undefined_iff hsb,
    fun geo bgdt hready husable => ?_⟩
  · by_cases hable : m.Unable sb
    · exact Or.inl hable
    · by_cases hpass : Stopped sb
      · exact Or.inr (Or.inl hpass)
      · obtain ⟨bgdt, hready⟩ := exists_ext2Init_ready hsb hable hpass
        exact Or.inr (Or.inr ((usable_mountGeo_iff hpass).1 (h _ bgdt hready)))
  · obtain ⟨rfl, hable, hpass⟩ := ext2Init_ready hsb hready
    exact (usable_mountGeo_iff hpass).2 ((h.resolve_left hable).resolve_left hpass)
  · obtain ⟨rfl, -, hpass⟩ := ext2Init_ready hsb hready
    refine husable.safe ?_
    unfold Stopped at hpass
    push Not at hpass
    exact hpass.2.2.1

/-- A machine whose disk has the superblock `sb` and is empty otherwise. -/
def machineOf (sb : Bytes) : Machine where
  present := true
  ioPage := 4096
  indPage := 8192
  read sector _ := some (if sector = 2 then sb else fun _ => 0)
  kmalloc _ := .memory fun _ => 0

/-- One group of 16 blocks with `inodes` inodes. -/
def smallSuper (inodes : Nat) : Bytes :=
  put16 (put32 (put32 (put32 (put32 (fun _ => 0) 4 16) 20 1) 32 16) 40 inodes) 56 ext2Magic

theorem ext2Init_usable_small : Usable (smallSuper 16) (mountGeo (smallSuper 16)) := by
  obtain ⟨bgdt, hready⟩ := exists_ext2Init_ready (m := machineOf (smallSuper 16)) rfl
    (by
      rintro (h | h | h | h | ⟨i, -, h⟩)
      · cases h
      · cases h
      · cases h
      · exact h _ rfl
      · cases h)
    (by unfold Stopped; decide)
  refine (@ext2Init_usable_iff (machineOf (smallSuper 16)) (smallSuper 16) rfl).1.2
    (Or.inr (Or.inr ?_)) _ bgdt hready
  exact ⟨by decide, by decide, by decide, by decide,
    by decide⟩

/-- A superblock without inodes is accepted. -/
theorem ext2Init_accepts_noInodes : ∃ geo bgdt,
    ext2Init (machineOf (smallSuper 0)) = .ready geo bgdt ∧ geo.inodesPerGroup = 0 ∧
      ¬ Usable (smallSuper 0) geo := by
  obtain ⟨bgdt, hready⟩ := exists_ext2Init_ready (m := machineOf (smallSuper 0)) rfl
    (by
      rintro (h | h | h | h | ⟨i, -, h⟩)
      · cases h
      · cases h
      · cases h
      · exact h _ rfl
      · cases h)
    (by unfold Stopped; decide)
  have hzero : (mountGeo (smallSuper 0)).inodesPerGroup = 0 := by decide
  exact ⟨_, bgdt, hready, hzero, fun h => h.inodesPerGroup.1 hzero⟩

end FiFi.Ext2
