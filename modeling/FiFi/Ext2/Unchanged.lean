import FiFi.Ext2.Clean

/-!
# Calls that change nothing

What stays when a call fails. The tree of a volume is what can be seen of it
through paths: the entries of the directories that are reachable. If these stay,
the paths resolve as before, and a file reads as before if its inode and its
blocks stay. The space is what the bitmaps and the descriptors say is free.
-/

namespace FiFi.Ext2

open ByteStore

/-! ### The tree -/

namespace Vol

variable (v : Vol)

/-- The entries of a directory; an inode that is no directory has none. -/
def listing (d : Nat) : Option (List Entry) :=
  match v.inode d with
  | none => none
  | some i => if isDirMode i then some (v.entries i) else none

/-- The directories that can be reached have the same entries. -/
def SameTree (w : Vol) : Prop := ∀ d, v.Reach {2} d → w.listing d = v.listing d

/-- An inode stays with all it holds. -/
def Kept (w : Vol) (ino : Nat) : Prop :=
  ∀ i, v.inode ino = some i → w.inode ino = some i ∧
    (isFileMode i = true ∨ isDirMode i = true → Agree v w i)

variable {v} {w : Vol} {d : Nat}

theorem listing_eq_some {es : List Entry} : v.listing d = some es ↔
    ∃ i, v.inode d = some i ∧ isDirMode i = true ∧ v.entries i = es := by
  unfold listing
  cases v.inode d with
  | none => simp
  | some i => simp

theorem Kept.listing_eq (h : v.Kept w d) (hi : ∃ i, v.inode d = some i) :
    w.listing d = v.listing d := by
  obtain ⟨i, hi⟩ := hi
  obtain ⟨hw, hagree⟩ := h i hi
  unfold listing
  rw [hi, hw]
  dsimp only
  split
  · rename_i hd
    rw [(hagree (Or.inr hd)).entries_eq]
  · rfl

namespace SameTree

variable (h : v.SameTree w)

include h

theorem reach_iff {ino : Nat} : w.Reach {2} ino ↔ v.Reach {2} ino := by
  constructor
  · intro hr
    induction hr with
    | root hroot => exact .root hroot
    | @entry d i e _ hi hd he ih =>
        have hlist : w.listing d = some (w.entries i) := listing_eq_some.2 ⟨i, hi, hd, rfl⟩
        rw [h d ih] at hlist
        obtain ⟨j, hj, hjd, hje⟩ := listing_eq_some.1 hlist
        exact .entry ih hj hjd (hje ▸ he)
  · intro hr
    induction hr with
    | root hroot => exact .root hroot
    | @entry d i e hr hi hd he ih =>
        have hlist : v.listing d = some (v.entries i) := listing_eq_some.2 ⟨i, hi, hd, rfl⟩
        rw [← h d hr] at hlist
        obtain ⟨j, hj, hjd, hje⟩ := listing_eq_some.1 hlist
        exact .entry ih hj hjd (hje ▸ he)

theorem resolveFrom_eq {cur : Nat} (hr : v.Reach {2} cur) (comps : List (List UInt8)) :
    w.resolveFrom cur comps = v.resolveFrom cur comps := by
  induction comps generalizing cur with
  | nil => rfl
  | cons comp comps ih =>
      cases hlist : v.listing cur with
      | none =>
          have hnone : ∀ u : Vol, u.listing cur = none → u.resolveFrom cur (comp :: comps) = 0 := by
            intro u hu
            unfold listing at hu
            unfold resolveFrom
            split
            · rfl
            · rename_i i hi
              rw [hi] at hu
              rw [if_neg]
              intro hd
              simp [hd] at hu
          rw [hnone w ((h cur hr).trans hlist), hnone v hlist]
      | some es =>
          obtain ⟨i, hi, hd, he⟩ := listing_eq_some.1 hlist
          obtain ⟨j, hj, hjd, hje⟩ := listing_eq_some.1 ((h cur hr).trans hlist)
          have hlookup : w.lookup j comp = v.lookup i comp := by
            unfold lookup
            rw [he, hje]
          rw [resolveFrom_cons hi hd, resolveFrom_cons hj hjd, hlookup]
          split
          · rfl
          · rename_i hne
            exact ih (reach_lookup hr hi hd hne)

theorem resolve_eq (path : List UInt8) : w.resolve path = v.resolve path := by
  cases path with
  | nil => rfl
  | cons c path =>
      unfold resolve
      dsimp only
      split
      · exact h.resolveFrom_eq (.root rfl) _
      · rfl

theorem isDir_iff {ino : Nat} (hr : v.Reach {2} ino) : w.IsDir ino ↔ v.IsDir ino := by
  have hlist : ∀ u : Vol, u.IsDir ino ↔ ∃ es, u.listing ino = some es := by
    intro u
    constructor
    · rintro ⟨i, hi, hd⟩
      exact ⟨_, listing_eq_some.2 ⟨i, hi, hd, rfl⟩⟩
    · rintro ⟨es, hes⟩
      obtain ⟨i, hi, hd, -⟩ := listing_eq_some.1 hes
      exact ⟨i, hi, hd⟩
  rw [hlist, hlist, h ino hr]

end SameTree

/-- If all that can be reached stays, so does the tree. -/
theorem SameTree.of_kept (hw : v.Wf) (h : ∀ ino, v.Reach {2} ino → v.Kept w ino) :
    v.SameTree w := fun d hr => (h d hr).listing_eq (hw.taken d hr).2

/-- What is read at a path, if its inode stays. -/
theorem Kept.readFile_eq {path : List UInt8} (hpath : w.resolve path = v.resolve path)
    (hi : ∃ i, v.inode (v.resolve path) = some i) (h : v.Kept w (v.resolve path)) (max : Nat) :
    w.readFile path max = v.readFile path max := by
  obtain ⟨i, hi⟩ := hi
  obtain ⟨hwi, hagree⟩ := h i hi
  unfold readFile
  rw [hpath, hi, hwi]
  dsimp only
  split
  · rename_i hf
    rw [(hagree (Or.inl hf)).content_eq]
  · rfl

theorem Kept.fileSize_eq {path : List UInt8} (hpath : w.resolve path = v.resolve path)
    (hi : ∃ i, v.inode (v.resolve path) = some i) (h : v.Kept w (v.resolve path)) :
    w.fileSize path = v.fileSize path := by
  obtain ⟨i, hi⟩ := hi
  unfold fileSize
  rw [hpath, hi, (h i hi).1]

/-- A volume on which all that can be reached stays is well formed. -/
theorem WfFrom.of_kept (hw : v.Wf) (hlayout : w.layout = v.layout)
    (h : ∀ ino, v.Reach {2} ino → v.Kept w ino)
    (hbusy : ∀ ino pos b, v.Reach {2} ino → v.Ref ino pos b → b ∈ w.busy)
    (htaken : ∀ ino, v.Reach {2} ino → ino ∈ w.taken) : w.Wf := by
  have htree := SameTree.of_kept hw h
  have hback : ∀ ino i, v.Reach {2} ino → w.inode ino = some i → v.inode ino = some i := by
    intro ino i hr hi
    obtain ⟨j, hj⟩ := (hw.taken ino hr).2
    rw [((h ino hr) j hj).1] at hi
    rw [hj, hi]
  have href : ∀ ino pos b, v.Reach {2} ino → w.Ref ino pos b → v.Ref ino pos b := by
    rintro ino pos b hr ⟨i, hi, hm, hb⟩
    have hi' := hback ino i hr hi
    exact ⟨i, hi', hm, (((h ino hr) i hi').2 hm).holds_iff pos b |>.1 hb⟩
  constructor
  · rw [hlayout]
    exact hw.layout
  · exact ⟨rfl, (htree.isDir_iff (.root rfl)).2 hw.root.2⟩
  · intro ino hr
    rw [htree.reach_iff] at hr
    obtain ⟨i, hi⟩ := (hw.taken ino hr).2
    exact ⟨htaken ino hr, i, ((h ino hr) i hi).1⟩
  · intro ino pos b hr hb
    rw [htree.reach_iff] at hr
    have hb' := href ino pos b hr hb
    rw [hlayout]
    exact ⟨hbusy ino pos b hr hb', (hw.busy ino pos b hr hb').2⟩
  · intro ino ino' pos pos' b hr hr' hb hb'
    rw [htree.reach_iff] at hr hr'
    exact hw.unique _ _ _ _ b hr hr' (href _ _ _ hr hb) (href _ _ _ hr' hb')
  · intro ino i hr hi hd
    rw [htree.reach_iff] at hr
    have hi' := hback ino i hr hi
    exact (((h ino hr) i hi').2 (Or.inr hd)).dirOk (hw.dirs ino i hr hi' hd)

end Vol

/-! ### What a caller can see -/

variable {s t u : Fs}

/-- The bitmaps, the descriptors in memory and the ones on the disk are the same. -/
structure Fs.SameSpace (s t : Fs) : Prop where
  geo : t.img.geo = s.img.geo
  bgdt : ∀ g < s.img.geo.numGroups, t.img.bgdt g = s.img.bgdt g
  desc : ∀ g < s.img.geo.numGroups,
    slice (t.img.disk (s.img.geo.bgdBlock g)) (g * bgdBytes % s.img.geo.blockSize) bgdBytes =
      slice (s.img.disk (s.img.geo.bgdBlock g)) (g * bgdBytes % s.img.geo.blockSize) bgdBytes
  blockBits : ∀ g < s.img.geo.numGroups, ∀ bit < s.img.geo.blocksPerGroup,
    bitAt (t.img.disk (s.img.bgdt g).blockBitmap) bit =
      bitAt (s.img.disk (s.img.bgdt g).blockBitmap) bit
  inodeBits : ∀ g < s.img.geo.numGroups, ∀ bit < s.img.geo.inodesPerGroup,
    bitAt (t.img.disk (s.img.bgdt g).inodeBitmap) bit =
      bitAt (s.img.disk (s.img.bgdt g).inodeBitmap) bit

/-- Every file and every directory is the same, byte for byte, and the driver finds
it where it was. -/
structure Fs.SameFiles (s t : Fs) : Prop where
  bytes : ∀ ino i, s.vol.Reach {2} ino → s.vol.inode ino = some i →
    t.vol.inode ino = some i ∧ (isFileMode i = true ∨ isDirMode i = true →
      ∀ pos b, s.vol.Holds i pos b → t.img.disk b = s.img.disk b)
  resolve : ∀ path, (resolve t path).1 = (resolve s path).1
  read : ∀ path max, (readFile t path max).1 = (readFile s path max).1
  size : ∀ path, (fileSize t path).1 = (fileSize s path).1
  dir : ∀ path, (isdir t path).1 = (isdir s path).1

/-- Nothing that counts has changed. -/
structure Fs.Unchanged (s t : Fs) : Prop where
  space : s.SameSpace t
  files : s.SameFiles t

section Space

variable (hlayout : t.vol.layout = s.vol.layout) {g : Nat} (hg : g < s.img.geo.numGroups)

include hlayout hg

theorem Fs.bitAt_block_iff {bit : Nat} (hbit : bit < s.img.geo.blocksPerGroup) :
    bitAt (t.img.disk (s.img.bgdt g).blockBitmap) bit = true ↔
      s.img.geo.blockOf g bit ∈ t.vol.busy := by
  have hgeo : t.img.geo = s.img.geo := congrArg Layout.geo hlayout
  have hmem := t.img.mem_busy_blockOf (g := g) (j := bit) (by rwa [hgeo])
  rw [hgeo, show t.img.layout.place (.blockMap g) = (s.img.bgdt g).blockBitmap from
    congrFun (congrArg Layout.blockBitmap hlayout) g] at hmem
  exact ⟨fun hb => hmem.2 ⟨hg, hb⟩, fun hb => (hmem.1 hb).2⟩

theorem Fs.bitAt_inode_iff {bit : Nat} (hbit : bit < s.img.geo.inodesPerGroup) :
    bitAt (t.img.disk (s.img.bgdt g).inodeBitmap) bit = true ↔
      s.img.geo.inodeOf g bit ∈ t.vol.taken := by
  have hgeo : t.img.geo = s.img.geo := congrArg Layout.geo hlayout
  have hmem := t.img.mem_taken_inodeOf (g := g) (j := bit) (by rwa [hgeo])
  rw [hgeo, show t.img.layout.place (.inodeMap g) = (s.img.bgdt g).inodeBitmap from
    congrFun (congrArg Layout.inodeBitmap hlayout) g] at hmem
  exact ⟨fun hb => hmem.2 ⟨hg, hb⟩, fun hb => (hmem.1 hb).2⟩

open Classical in
/-- The descriptor counts the blocks that are not in use. -/
theorem Fs.Ok.freeBlocks_eq (ht : t.Ok) : (t.img.bgdt g).freeBlocks =
    ((Finset.range s.img.geo.blocksPerGroup).filter fun bit =>
      s.img.geo.blockOf g bit ∉ t.vol.busy).card := by
  have hgeo : t.img.geo = s.img.geo := congrArg Layout.geo hlayout
  have hmap : (t.img.bgdt g).blockBitmap = (s.img.bgdt g).blockBitmap :=
    congrFun (congrArg Layout.blockBitmap hlayout) g
  rw [ht.sound.freeBlocks g (by rwa [hgeo]), hgeo, hmap]
  refine congrArg Finset.card (Finset.filter_congr fun bit hbit => ?_)
  rw [← Fs.bitAt_block_iff hlayout hg (Finset.mem_range.1 hbit), Bool.not_eq_true]

open Classical in
/-- The descriptor counts the inodes that are not in use. -/
theorem Fs.Ok.freeInodes_eq (ht : t.Ok) : (t.img.bgdt g).freeInodes =
    ((Finset.range s.img.geo.inodesPerGroup).filter fun bit =>
      s.img.geo.inodeOf g bit ∉ t.vol.taken).card := by
  have hgeo : t.img.geo = s.img.geo := congrArg Layout.geo hlayout
  have hmap : (t.img.bgdt g).inodeBitmap = (s.img.bgdt g).inodeBitmap :=
    congrFun (congrArg Layout.inodeBitmap hlayout) g
  rw [ht.sound.freeInodes g (by rwa [hgeo]), hgeo, hmap]
  refine congrArg Finset.card (Finset.filter_congr fun bit hbit => ?_)
  rw [← Fs.bitAt_inode_iff hlayout hg (Finset.mem_range.1 hbit), Bool.not_eq_true]

end Space

/-- The space follows from what is in use. -/
theorem Fs.Ok.sameSpace (h : s.Ok) (ht : t.Ok) (hkeep : s.Keeps t)
    (hlayout : t.vol.layout = s.vol.layout) (hbusy : t.vol.busy = s.vol.busy)
    (htaken : t.vol.taken = s.vol.taken) : s.SameSpace t := by
  have hgeo := hkeep.geo
  have hblocks : ∀ g < s.img.geo.numGroups, ∀ bit < s.img.geo.blocksPerGroup,
      bitAt (t.img.disk (s.img.bgdt g).blockBitmap) bit =
        bitAt (s.img.disk (s.img.bgdt g).blockBitmap) bit := by
    intro g hg bit hbit
    rw [Bool.eq_iff_iff, Fs.bitAt_block_iff hlayout hg hbit, Fs.bitAt_block_iff rfl hg hbit, hbusy]
  have hinodes : ∀ g < s.img.geo.numGroups, ∀ bit < s.img.geo.inodesPerGroup,
      bitAt (t.img.disk (s.img.bgdt g).inodeBitmap) bit =
        bitAt (s.img.disk (s.img.bgdt g).inodeBitmap) bit := by
    intro g hg bit hbit
    rw [Bool.eq_iff_iff, Fs.bitAt_inode_iff hlayout hg hbit, Fs.bitAt_inode_iff rfl hg hbit, htaken]
  have hbgdt : ∀ g < s.img.geo.numGroups, t.img.bgdt g = s.img.bgdt g := by
    intro g hg
    have hfree : (t.img.bgdt g).freeBlocks = (s.img.bgdt g).freeBlocks := by
      rw [ht.freeBlocks_eq hlayout hg, h.freeBlocks_eq rfl hg, hbusy]
    have hfreeInodes : (t.img.bgdt g).freeInodes = (s.img.bgdt g).freeInodes := by
      rw [ht.freeInodes_eq hlayout hg, h.freeInodes_eq rfl hg, htaken]
    have hm : (t.img.bgdt g).blockBitmap = (s.img.bgdt g).blockBitmap :=
      congrFun (congrArg Layout.blockBitmap hlayout) g
    have hm' : (t.img.bgdt g).inodeBitmap = (s.img.bgdt g).inodeBitmap :=
      congrFun (congrArg Layout.inodeBitmap hlayout) g
    have hm'' : (t.img.bgdt g).inodeTable = (s.img.bgdt g).inodeTable :=
      congrFun (congrArg Layout.inodeTable hlayout) g
    have htail := hkeep.tail g
    generalize t.img.bgdt g = d at *
    generalize s.img.bgdt g = e at *
    obtain ⟨_, _, _, _, _, _⟩ := d
    obtain ⟨_, _, _, _, _, _⟩ := e
    simp only at hm hm' hm'' hfree hfreeInodes htail
    subst hm hm' hm'' hfree hfreeInodes htail
    rfl
  refine ⟨hgeo, hbgdt, fun g hg => ?_, hblocks, hinodes⟩
  have hdt := ht.sound.desc g (by rwa [hgeo])
  rw [hgeo, hbgdt g hg] at hdt
  exact hdt.trans (h.sound.desc g hg).symm

/-- The bitmaps say what is in use. -/
theorem Fs.SameSpace.busy_eq (h : s.SameSpace t) (hs : s.Ok) (ht : t.Ok) :
    t.vol.busy = s.vol.busy := by
  ext c
  have hgeo := h.geo
  have hblock : ∀ {g bit}, bit < s.img.geo.blocksPerGroup →
      (s.img.geo.blockOf g bit ∈ t.vol.busy ↔ s.img.geo.blockOf g bit ∈ s.vol.busy) := by
    intro g bit hbit
    have hms := s.img.mem_busy_blockOf (g := g) hbit
    have hmt := t.img.mem_busy_blockOf (g := g) (j := bit) (by rwa [hgeo])
    rw [hgeo] at hmt
    refine (hmt.trans (and_congr_right fun hg => ?_)).trans hms.symm
    rw [show t.img.layout.place (.blockMap g) = (s.img.bgdt g).blockBitmap from
      congrArg Bgd.blockBitmap (h.bgdt g hg), h.blockBits g hg bit hbit]
    exact Iff.rfl
  constructor
  · intro hc
    obtain ⟨g, bit, -, hbit, rfl⟩ := ht.inGroups hc
    have hgeo' : t.vol.layout.geo = s.img.geo := hgeo
    rw [hgeo'] at hbit hc ⊢
    exact (hblock hbit).1 hc
  · intro hc
    obtain ⟨g, bit, -, hbit, rfl⟩ := hs.inGroups hc
    exact (hblock hbit).2 hc

theorem Fs.SameSpace.taken_eq (h : s.SameSpace t) (hs : s.Ok) :
    t.vol.taken = s.vol.taken := by
  ext ino
  have hgeo := h.geo
  by_cases h0 : ino = 0
  · exact iff_of_false (fun hc => hc.1 h0) (fun hc => hc.1 h0)
  · obtain ⟨g, bit, hbit, rfl⟩ := s.img.geo.exists_inodeOf hs.sound.layout.inodesPerGroup.1 h0
    have hms := s.img.mem_taken_inodeOf (g := g) hbit
    have hmt := t.img.mem_taken_inodeOf (g := g) (j := bit) (by rwa [hgeo])
    rw [hgeo] at hmt
    refine (hmt.trans (and_congr_right fun hg => ?_)).trans hms.symm
    rw [show t.img.layout.place (.inodeMap g) = (s.img.bgdt g).inodeBitmap from
      congrArg Bgd.inodeBitmap (h.bgdt g hg), h.inodeBits g hg bit hbit]
    exact Iff.rfl

/-- The files are the same if the inodes that can be reached stay. -/
theorem Fs.Ok.sameFiles (h : s.Ok) (ht : t.Ok) (hw : s.vol.Wf)
    (hlayout : t.vol.layout = s.vol.layout)
    (hkept : ∀ ino, s.vol.Reach {2} ino → s.vol.Kept t.vol ino)
    (hbusy : ∀ ino pos b, s.vol.Reach {2} ino → s.vol.Ref ino pos b → b ∈ t.vol.busy)
    (htaken : ∀ ino, s.vol.Reach {2} ino → ino ∈ t.vol.taken) : s.SameFiles t := by
  have hwt := Vol.WfFrom.of_kept hw hlayout hkept hbusy htaken
  have htree := Vol.SameTree.of_kept hw hkept
  have hzero : ∀ path, s.vol.resolve path = 0 → t.vol.inode (s.vol.resolve path) = none ∧
      s.vol.inode (s.vol.resolve path) = none := by
    intro path h0
    rw [h0]
    exact ⟨inode_zero t, inode_zero s⟩
  refine ⟨fun ino i hr hi => ?_, fun path => ?_, fun path max => ?_, fun path => ?_, fun path => ?_⟩
  · obtain ⟨hti, hagree⟩ := hkept ino hr i hi
    refine ⟨hti, fun hm pos b hb => ?_⟩
    have hres := (hw.busy ino pos b hr ⟨i, hi, hm, hb⟩).2
    have hdata := (hagree hm).data pos b hb
    exact ((Img.data_of_not_reserved (m := t.img)
      (by rw [show t.img.layout = s.img.layout from hlayout]; exact hres)).symm.trans hdata).trans
      (Img.data_of_not_reserved hres)
  · rw [(resolve_spec ht hwt path).2, (resolve_spec h hw path).2, htree.resolve_eq]
  · rw [(readFile_spec ht hwt path max).2, (readFile_spec h hw path max).2]
    by_cases h0 : s.vol.resolve path = 0
    · obtain ⟨hnt, hns⟩ := hzero path h0
      unfold Vol.readFile
      rw [htree.resolve_eq, hnt, hns]
    · have hr := Vol.reach_resolve h0
      exact (hkept _ hr).readFile_eq (htree.resolve_eq path) (hw.taken _ hr).2 max
  · rw [(fileSize_spec ht hwt path).2, (fileSize_spec h hw path).2]
    by_cases h0 : s.vol.resolve path = 0
    · obtain ⟨hnt, hns⟩ := hzero path h0
      unfold Vol.fileSize
      rw [htree.resolve_eq, hnt, hns]
    · have hr := Vol.reach_resolve h0
      exact (hkept _ hr).fileSize_eq (htree.resolve_eq path) (hw.taken _ hr).2
  · rw [Bool.eq_iff_iff, (isdir_spec ht hwt path).2, (isdir_spec h hw path).2, htree.resolve_eq]
    by_cases h0 : s.vol.resolve path = 0
    · obtain ⟨hnt, hns⟩ := hzero path h0
      unfold Vol.IsDir
      rw [hnt, hns]
    · exact htree.isDir_iff (Vol.reach_resolve h0)

/-! ### Steps -/

/-- The driver went from `s` to `t`, and the volume became `v`. -/
structure Fs.Turns (s t : Fs) (v : Vol) : Prop where
  ok : t.Ok
  vol : t.vol = v
  keeps : s.Keeps t

theorem Fs.Turns.trans {u : Fs} {v w : Vol} (h : s.Turns t v) (h' : t.Turns u w) : s.Turns u w :=
  ⟨h'.ok, h'.vol, h.keeps.trans h'.keeps⟩

theorem Fs.Reads.turns (h : s.Reads t) (hok : s.Ok) : s.Turns t s.vol :=
  ⟨h.ok hok, h.vol, h.keeps⟩

theorem Fs.Becomes.turns {v : Vol} (h : s.Becomes t v) (hkeep : s.Keeps t) : s.Turns t v :=
  ⟨h.ok, h.vol, hkeep⟩

/-- What is in use stays, and nothing else is looked at. -/
theorem Vol.kept_of_used {v w : Vol} (hw : v.Wf) (hlayout : w.layout = v.layout)
    (hinode : ∀ ino ∈ v.taken, w.inode ino = v.inode ino)
    (hdata : ∀ b ∈ v.busy, w.data b = v.data b) {ino : Nat} (hr : v.Reach {2} ino) :
    v.Kept w ino := by
  intro i hi
  refine ⟨(hinode ino (hw.taken ino hr).1).trans hi, fun hm => ⟨hlayout, fun pos b hb => ?_⟩⟩
  exact hdata b (hw.busy ino pos b hr ⟨i, hi, hm, hb⟩).1

/-- A step after which the same inodes and blocks are in use and as before. -/
theorem Fs.Turns.unchanged {v : Vol} (hturn : s.Turns t v) (h : s.Ok) (hw : s.vol.Wf)
    (hlayout : v.layout = s.vol.layout) (hbusy : v.busy = s.vol.busy)
    (htaken : v.taken = s.vol.taken) (hinode : ∀ ino ∈ s.vol.taken, v.inode ino = s.vol.inode ino)
    (hdata : ∀ b ∈ s.vol.busy, v.data b = s.vol.data b) : s.Unchanged t := by
  obtain ⟨hok, rfl, hkeep⟩ := hturn
  refine ⟨h.sameSpace hok hkeep hlayout hbusy htaken, h.sameFiles hok hw hlayout
    (fun ino hr => Vol.kept_of_used hw hlayout hinode hdata hr) (fun ino pos b hr hb => ?_)
    fun ino hr => ?_⟩
  · rw [hbusy]
    exact (hw.busy ino pos b hr hb).1
  · rw [htaken]
    exact (hw.taken ino hr).1

theorem Fs.Turns.unchanged_self (hturn : s.Turns t s.vol) (h : s.Ok) (hw : s.vol.Wf) :
    s.Unchanged t :=
  hturn.unchanged h hw rfl rfl rfl (fun _ _ => rfl) fun _ _ => rfl

end FiFi.Ext2
