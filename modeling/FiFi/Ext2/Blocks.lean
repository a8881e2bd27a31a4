import FiFi.Ext2.Read

/-!
# Giving back and taking blocks

The loops of `ext2_write_file` and `ext2_delete_file` give back the blocks of a
file and take new ones. Giving back a list of blocks removes them from the blocks
in use. Taking blocks is described by `Vol.Grown`: the new blocks were free, they
are different, and only they are written. No loop writes the superblock or what
the driver does not know of a group descriptor, which is `Fs.Keeps`.
-/

namespace FiFi.Ext2

open ByteStore

variable {s t u : Fs}

/-! ### What is never written -/

/-- The areas are not in the block of the superblock. -/
def Layout.ApartFromSuper (l : Layout) : Prop :=
  ∀ a, l.Has a → l.place a ≠ l.geo.firstDataBlock

/-- The superblock and the rest of the descriptors stay. -/
structure Fs.Keeps (s t : Fs) : Prop where
  geo : t.img.geo = s.img.geo
  super : t.img.disk t.img.geo.firstDataBlock = s.img.disk s.img.geo.firstDataBlock
  tail : ∀ g, (t.img.bgdt g).tail = (s.img.bgdt g).tail

theorem Fs.Keeps.trans (h : s.Keeps t) (h' : t.Keeps u) : s.Keeps u :=
  ⟨h'.geo.trans h.geo, h'.super.trans h.super, fun g => (h'.tail g).trans (h.tail g)⟩

theorem Fs.Reads.keeps (h : s.Reads t) : s.Keeps t := by
  obtain ⟨-, himg⟩ := h
  refine ⟨?_, ?_, ?_⟩ <;> simp [himg]

/-- What keeps the image keeps the superblock. -/
theorem Fs.Keeps.of_img (h : t.img = s.img) : s.Keeps t := by
  refine ⟨?_, ?_, ?_⟩ <;> simp [h]

theorem writeBlock_keeps {b : Nat} (hb : b ≠ s.img.geo.firstDataBlock) (page : Bytes) :
    s.Keeps (writeBlock s b page).2 := by
  unfold writeBlock
  split
  · exact .of_img rfl
  · exact ⟨rfl, Function.update_of_ne hb.symm _ _, fun _ => rfl⟩

theorem writeInode_keeps (h : s.Ok) (hsuper : s.vol.layout.ApartFromSuper) {ino : Nat} {i : Bytes}
    (hi : s.vol.inode ino = some i) (new : Bytes) : s.Keeps (writeInode s ino new).2 := by
  obtain ⟨h0, hg⟩ := inode_valid hi
  have harea := h.sound.layout.has_table hg
  have hne : s.img.inodeBlock ino ≠ 0 := h.sound.layout.nonzero _ harea
  unfold writeInode
  rw [if_neg (by simp [h0, h.ready]), if_neg (by omega)]
  simp only [readBlock, if_neg hne]
  have hkeep := writeBlock_keeps (s := { s with
    io := blit (s.img.disk (s.img.inodeBlock ino)) (s.img.inodeOffset ino) inodeBytes new })
    (b := s.img.inodeBlock ino) (hsuper _ harea)
    (blit (s.img.disk (s.img.inodeBlock ino)) (s.img.inodeOffset ino) inodeBytes new)
  exact ⟨hkeep.geo, hkeep.super, hkeep.tail⟩

/-- A bit of a bitmap was written together with the descriptor of its group, or nothing
was. -/
def Img.Marked (m n : Img) (a : Nat → Area) (bits : Nat) : Prop :=
  n = m ∨ ∃ g bit val page d, g < m.geo.numGroups ∧ m.layout.Has (a g) ∧ bit < bits ∧
    (m.bgdt g).Recounts d ∧ d.tail = (m.bgdt g).tail ∧
    Flips (m.disk (m.layout.place (a g))) page bit val ∧
    n = m.mark g (m.layout.place (a g)) page d

/-- A bitmap is not in the block of the superblock, nor are the descriptors. -/
theorem Fs.Keeps.of_marked {a : Nat → Area} {bits : Nat}
    (hsuper : s.vol.layout.ApartFromSuper) (h : s.img.Marked t.img a bits) : s.Keeps t := by
  rcases h with himg | ⟨g, bit, val, page, d, -, harea, -, -, htail, -, himg⟩
  · exact .of_img himg
  · have hb := hsuper _ harea
    refine ⟨?_, ?_, fun g' => ?_⟩
    · rw [himg]
      rfl
    · rw [himg]
      refine Img.mark_disk_ne ?_ hb.symm
      unfold Geo.bgdBlock
      generalize g * bgdBytes / s.img.geo.blockSize = k
      exact (show s.img.geo.firstDataBlock + 1 + k ≠ s.img.geo.firstDataBlock by omega)
    · rw [himg]
      by_cases hg : g' = g
      · subst hg
        rw [Img.mark_bgdt_self, htail]
      · rw [Img.mark_bgdt_ne _ _ _ _ hg]

section Bits

variable (h : s.Ok) {a : Nat → Area} {g bit bits : Nat} (hg : g < s.img.geo.numGroups)
  (harea : s.img.layout.Has (a g)) (hbit : bit < bits) {d : Bgd} (hd : (s.img.bgdt g).Recounts d)
  (htail : d.tail = (s.img.bgdt g).tail)

include h hg harea hbit hd htail

theorem freeBit_marked :
    s.img.Marked (freeBit s g bit (s.img.layout.place (a g)) d).img a bits :=
  Or.inr ⟨g, bit, _, _, d, hg, harea, hbit, hd, htail, Img.flips_clearBit _ _,
    (freeBit_spec g bit (h.sound.layout.nonzero _ harea)).1⟩

theorem takeBit_marked :
    s.img.Marked (takeBit { s with io := s.img.disk (s.img.layout.place (a g)) } g bit
      (s.img.layout.place (a g)) d).img a bits :=
  Or.inr ⟨g, bit, _, _, d, hg, harea, hbit, hd, htail, Img.flips_setBit _ _,
    (takeBit_spec g bit rfl (h.sound.layout.nonzero _ harea)).1⟩

end Bits

theorem freeBlock_marked (h : s.Ok) (b : Nat) :
    s.img.Marked (freeBlock s b).img .blockMap s.img.geo.blocksPerGroup := by
  unfold freeBlock
  dsimp only
  split
  · exact Or.inl rfl
  · split
    · exact Or.inl rfl
    · rename_i hg
      have harea : s.img.layout.Has (.blockMap ((b - s.img.geo.firstDataBlock) /
        s.img.geo.blocksPerGroup)) := Nat.not_le.1 hg
      exact freeBit_marked h harea harea (Nat.mod_lt _ h.sound.layout.perGroup.1) ⟨rfl, rfl, rfl⟩ rfl

theorem freeBlock_keeps (h : s.Ok) (hsuper : s.vol.layout.ApartFromSuper) (b : Nat) :
    s.Keeps (freeBlock s b) := .of_marked hsuper (freeBlock_marked h b)

theorem allocBlockIn_marked (h : s.Ok) {gs : List Nat}
    (hgs : ∀ g ∈ gs, g < s.img.geo.numGroups) :
    s.img.Marked (allocBlockIn s gs).2.img .blockMap s.img.geo.blocksPerGroup := by
  induction gs generalizing s with
  | nil => exact Or.inl rfl
  | cons g gs ih =>
      have hg : s.img.layout.Has (.blockMap g) := hgs g (by simp)
      have hgs' : ∀ g' ∈ gs, g' < s.img.geo.numGroups := fun g' hg' => hgs g' (by simp [hg'])
      have hmap : (s.img.bgdt g).blockBitmap ≠ 0 := h.sound.layout.nonzero _ hg
      simp only [allocBlockIn, readBlock, if_neg hmap]
      split
      · exact ih h hgs'
      · split
        · exact ih (s := { s with io := s.img.disk (s.img.bgdt g).blockBitmap })
            ⟨h.ready, h.sound⟩ hgs'
        · rename_i bit hbit
          obtain ⟨hlt, -⟩ := clearBitOf_some hbit
          exact takeBit_marked h hg hg hlt ⟨rfl, rfl, rfl⟩ rfl

theorem allocBlock_marked (h : s.Ok) :
    s.img.Marked (allocBlock s).2.img .blockMap s.img.geo.blocksPerGroup :=
  allocBlockIn_marked h fun _ hg => List.mem_range.1 hg

theorem allocBlock_keeps (h : s.Ok) (hsuper : s.vol.layout.ApartFromSuper) :
    s.Keeps (allocBlock s).2 := .of_marked hsuper (allocBlock_marked h)

/-! ### Giving back -/

/-- The blocks of a list are given back. -/
def Vol.giveAll (v : Vol) (bs : List Nat) : Vol := { v with busy := v.busy \ {b | b ∈ bs} }

theorem Vol.giveAll_cons (v : Vol) (b : Nat) (bs : List Nat) :
    (v.give b).giveAll bs = v.giveAll (b :: bs) := by
  refine Vol.ext rfl rfl rfl ?_ rfl
  ext c
  simp only [giveAll, give, Set.mem_sdiff, Set.mem_singleton_iff, Set.mem_ofPred_eq, List.mem_cons,
    not_or, and_assoc]

theorem Vol.giveAll_append (v : Vol) (bs cs : List Nat) :
    (v.giveAll bs).giveAll cs = v.giveAll (bs ++ cs) := by
  refine Vol.ext rfl rfl rfl ?_ rfl
  ext c
  simp only [giveAll, Set.mem_sdiff, Set.mem_ofPred_eq, List.mem_append, not_or, and_assoc]

/-- The driver went from `s` to `t` and gave back the blocks of `bs`. -/
structure Fs.Gives (s t : Fs) (bs : List Nat) : Prop where
  ok : t.Ok
  vol : t.vol = s.vol.giveAll bs
  keeps : s.Keeps t

theorem Fs.Gives.trans {bs cs : List Nat} (h : s.Gives t bs) (h' : t.Gives u cs) :
    s.Gives u (bs ++ cs) :=
  ⟨h'.ok, by rw [h'.vol, h.vol, Vol.giveAll_append], h.keeps.trans h'.keeps⟩

theorem Fs.Gives.of_reads {bs : List Nat} (h : s.Reads t) (h' : t.Gives u bs) : s.Gives u bs :=
  ⟨h'.ok, by rw [h'.vol, h.vol], h.keeps.trans h'.keeps⟩

/-- A list of blocks is given back one by one. -/
def freeAll (s : Fs) (bs : List Nat) : Fs := bs.foldl freeBlock s

theorem freeAll_spec (h : s.Ok) (hsuper : s.vol.layout.ApartFromSuper) (bs : List Nat)
    (hbusy : ∀ b ∈ bs, b ∈ s.vol.busy ∧ ¬ s.vol.layout.Reserved b) (hnodup : bs.Nodup) :
    s.Gives (freeAll s bs) bs ∧ (freeAll s bs).ind = s.ind := by
  induction bs generalizing s with
  | nil =>
      refine ⟨⟨h, ?_, .of_img rfl⟩, rfl⟩
      refine Vol.ext rfl rfl rfl ?_ rfl
      simp [Vol.giveAll, freeAll]
  | cons b bs ih =>
      obtain ⟨hb, hbs⟩ := List.nodup_cons.1 hnodup
      obtain ⟨hbb, hbr⟩ := hbusy b (by simp)
      have hfree := freeBlock_spec h hbb hbr
      have hkeep := freeBlock_keeps h hsuper b
      obtain ⟨hgive, hind⟩ := ih hfree.ok (by rw [hfree.vol]; exact hsuper) (by
        intro c hc
        obtain ⟨hcb, hcr⟩ := hbusy c (by simp [hc])
        rw [hfree.vol]
        refine ⟨⟨hcb, ?_⟩, hcr⟩
        rintro rfl
        exact hb hc) hbs
      refine ⟨⟨hgive.ok, ?_, hkeep.trans hgive.keeps⟩, hind.trans hfree.ind⟩
      rw [← Vol.giveAll_cons, ← hfree.vol]
      exact hgive.vol

theorem iBlock_setBlock (i : Bytes) (k b k' : Nat) (hb : b < 2 ^ 32) :
    iBlock (setBlock i k b) k' = if k' = k then b else iBlock i k' := by
  unfold iBlock setBlock
  split
  · rename_i heq
    rw [heq, le32_put32_of_lt _ _ hb]
  · exact le32_put32_ne _ _ (by omega)

/-- The direct blocks are given back up to the first that is missing. -/
theorem freeDirect_eq (n a : Nat) (s : Fs) (inode : Bytes) {bs : List Nat}
    (hbs : ((List.range' a n).map (iBlock inode)).takeWhile (· ≠ 0) = bs) :
    (freeDirect s inode (List.range' a n)).2 = freeAll s bs ∧
      (∀ k, iBlock (freeDirect s inode (List.range' a n)).1 k =
        if a ≤ k ∧ k < a + bs.length then 0 else iBlock inode k) ∧
      ∀ x < 40, (freeDirect s inode (List.range' a n)).1 x = inode x := by
  induction n generalizing a s inode bs with
  | zero =>
      obtain rfl : [] = bs := hbs
      refine ⟨rfl, fun k => ?_, fun _ _ => rfl⟩
      rw [if_neg (by simp)]
      rfl
  | succ n ih =>
      rw [List.range'_succ, List.map_cons] at hbs
      rw [List.range'_succ]
      by_cases h0 : iBlock inode a = 0
      · rw [List.takeWhile_cons_of_neg (by simp [h0])] at hbs
        obtain rfl : [] = bs := hbs
        simp only [freeDirect, if_pos h0]
        refine ⟨rfl, fun k => ?_, fun _ _ => trivial⟩
        rw [if_neg (by simp)]
      · rw [List.takeWhile_cons_of_pos (by simp [h0])] at hbs
        have hmap : (List.range' (a + 1) n).map (iBlock (setBlock inode a 0)) =
            (List.range' (a + 1) n).map (iBlock inode) := by
          refine List.map_congr_left fun k hk => ?_
          rw [iBlock_setBlock _ _ _ _ (by decide), if_neg]
          rintro rfl
          simp [List.mem_range'_1] at hk
        obtain ⟨hfree, hblock, hhead⟩ := ih (a + 1) (freeBlock s (iBlock inode a))
          (setBlock inode a 0) (congrArg (List.takeWhile _) hmap)
        obtain rfl := hbs
        simp only [freeDirect, if_neg h0]
        refine ⟨hfree, fun k => ?_, fun x hx => ?_⟩
        · rw [hblock, iBlock_setBlock _ _ _ _ (by decide), List.length_cons]
          split_ifs <;> first | rfl | omega
        · rw [hhead x hx]
          exact put32_ne _ _ (by omega)

/-- The pointers in the page `ind` are not touched by giving back their blocks. -/
theorem freePointers_eq (ks : List Nat) {ind : Bytes} {bs : List Nat} (h : s.Ok)
    (hsuper : s.vol.layout.ApartFromSuper) (hind : s.ind = ind)
    (hbs : (ks.map fun k => le32 ind (4 * k)).takeWhile (· ≠ 0) = bs)
    (hbusy : ∀ b ∈ bs, b ∈ s.vol.busy ∧ ¬ s.vol.layout.Reserved b) (hnodup : bs.Nodup) :
    freePointers s ks = freeAll s bs := by
  induction ks generalizing s bs with
  | nil =>
      obtain rfl : [] = bs := hbs
      rfl
  | cons k ks ih =>
      rw [List.map_cons] at hbs
      by_cases h0 : le32 ind (4 * k) = 0
      · rw [List.takeWhile_cons_of_neg (by simp [h0])] at hbs
        obtain rfl : [] = bs := hbs
        simp only [freePointers, hind, if_pos h0]
        rfl
      · rw [List.takeWhile_cons_of_pos (by simp [h0])] at hbs
        obtain rfl := hbs
        obtain ⟨hb, hnodup'⟩ := List.nodup_cons.1 hnodup
        obtain ⟨hbb, hbr⟩ := hbusy (le32 ind (4 * k)) List.mem_cons_self
        have hfree := freeBlock_spec h hbb hbr
        simp only [freePointers, hind, if_neg h0]
        refine ih hfree.ok (by rw [hfree.vol]; exact hsuper) (hfree.ind.trans hind) rfl ?_ hnodup'
        intro c hc
        obtain ⟨hcb, hcr⟩ := hbusy c (List.mem_cons_of_mem _ hc)
        rw [hfree.vol]
        refine ⟨⟨hcb, ?_⟩, hcr⟩
        rintro rfl
        exact hb hc

/-- The direct blocks of an inode up to the first that is missing. -/
def directBlocks (i : Bytes) : List Nat := (direct.map (iBlock i)).takeWhile (· ≠ 0)

theorem length_directBlocks (i : Bytes) : (directBlocks i).length ≤ 12 := by
  have hlen := (List.takeWhile_sublist (· ≠ 0) (l := direct.map (iBlock i))).length_le
  rwa [List.length_map] at hlen

/-- The blocks that an overwritten file gives back. -/
def heldBlocks (m : Img) (i : Bytes) : List Nat :=
  directBlocks i ++ ((pointersOf m i).takeWhile (· ≠ 0) ++
    if iBlock i 12 = 0 then [] else [iBlock i 12])

theorem freeDirect_spec (h : s.Ok) (hsuper : s.vol.layout.ApartFromSuper) {i : Bytes}
    (hbusy : ∀ b ∈ directBlocks i, b ∈ s.vol.busy ∧ ¬ s.vol.layout.Reserved b)
    (hnodup : (directBlocks i).Nodup) :
    s.Gives (freeDirect s i direct).2 (directBlocks i) ∧
      (∀ k, iBlock (freeDirect s i direct).1 k =
        if k < (directBlocks i).length then 0 else iBlock i k) ∧
      ∀ x < 40, (freeDirect s i direct).1 x = i x := by
  have hrange : direct = List.range' 0 12 := rfl
  obtain ⟨hfree, hblock, hhead⟩ := freeDirect_eq 12 0 s i (show _ = directBlocks i from rfl)
  rw [← hrange] at hfree hblock hhead
  refine ⟨?_, fun k => ?_, hhead⟩
  · rw [hfree]
    exact (freeAll_spec h hsuper _ hbusy hnodup).1
  · rw [hblock]
    simp

/-- The pointers and the indirect block itself. -/
theorem freeIndirect_eq (h : s.Ok) (hsuper : s.vol.layout.ApartFromSuper) {i : Bytes}
    {bs : List Nat} (hbs : (pointersOf s.img i).takeWhile (· ≠ 0) ++
      (if iBlock i 12 = 0 then [] else [iBlock i 12]) = bs)
    (hbusy : ∀ b ∈ bs, b ∈ s.vol.busy ∧ ¬ s.vol.layout.Reserved b) (hnodup : bs.Nodup) :
    ∃ s', s.Reads s' ∧ (freeIndirect s i).2 = freeAll s' bs := by
  unfold freeIndirect
  by_cases h0 : iBlock i 12 = 0
  · rw [if_pos h0]
    simp only [pointersOf, if_pos h0, List.takeWhile_nil, List.append_nil] at hbs
    obtain rfl := hbs
    exact ⟨s, .refl, rfl⟩
  · rw [if_neg h0] at hbs ⊢
    simp only [pointersOf, if_neg h0] at hbs
    obtain rfl := hbs
    have hreads : s.Reads { s with
        io := s.img.disk (iBlock i 12), ind := s.img.disk (iBlock i 12) } := ⟨rfl, rfl⟩
    simp only [readBlockInd, if_neg h0, if_true]
    generalize hps : (((List.range (s.img.geo.blockSize / 4)).map fun k =>
      le32 (s.img.disk (iBlock i 12)) (4 * k)).takeWhile (· ≠ 0)) = ps at hbusy hnodup ⊢
    have hbusy' : ∀ b ∈ ps, b ∈ s.vol.busy ∧ ¬ s.vol.layout.Reserved b :=
      fun b hb => hbusy b (List.mem_append_left _ hb)
    rw [freePointers_eq s.img.geo.pointers (hreads.ok h) hsuper rfl hps hbusy'
      (List.nodup_append'.1 hnodup).1]
    refine ⟨_, hreads, ?_⟩
    unfold freeAll
    rw [List.foldl_append]
    rfl

/-- The inode forgets the indirect block. -/
theorem freeIndirect_inode (s : Fs) (i : Bytes) :
    (∀ k, iBlock (freeIndirect s i).1 k = if k = 12 then 0 else iBlock i k) ∧
      ∀ x < 40, (freeIndirect s i).1 x = i x := by
  unfold freeIndirect
  by_cases h0 : iBlock i 12 = 0
  · rw [if_pos h0]
    refine ⟨fun k => ?_, fun _ _ => rfl⟩
    split
    · rename_i hk
      rw [hk, h0]
    · rfl
  · rw [if_neg h0]
    refine ⟨fun k => iBlock_setBlock _ _ _ _ (by decide), fun x hx => ?_⟩
    exact put32_ne _ _ (by omega)

/-- What is left after the direct blocks were given back. -/
theorem freeDirect_rest (h : s.Ok) (hsuper : s.vol.layout.ApartFromSuper) {i : Bytes}
    (hbusy : ∀ b ∈ heldBlocks s.img i, b ∈ s.vol.busy ∧ ¬ s.vol.layout.Reserved b)
    (hnodup : (heldBlocks s.img i).Nodup) {r : Bytes × Fs} (hr : freeDirect s i direct = r) :
    s.Gives r.2 (directBlocks i) ∧ ∃ bs, heldBlocks s.img i = directBlocks i ++ bs ∧
      (pointersOf r.2.img r.1).takeWhile (· ≠ 0) ++
        (if iBlock r.1 12 = 0 then [] else [iBlock r.1 12]) = bs ∧
      (∀ b ∈ bs, b ∈ r.2.vol.busy ∧ ¬ r.2.vol.layout.Reserved b) ∧ bs.Nodup := by
  obtain ⟨hnodup1, hnodup2, hdisj⟩ := List.nodup_append'.1 hnodup
  have hlen := length_directBlocks i
  obtain ⟨hgive, hblock, -⟩ := freeDirect_spec h hsuper
    (fun b hb => hbusy b (List.mem_append_left _ hb)) hnodup1
  rw [hr] at hgive hblock
  have h12 : iBlock r.1 12 = iBlock i 12 := by rw [hblock, if_neg (by omega)]
  have hdata : iBlock i 12 ≠ 0 → r.2.img.disk (iBlock i 12) = s.img.disk (iBlock i 12) := by
    intro h0
    have hres : ¬ s.img.layout.Reserved (iBlock i 12) :=
      (hbusy (iBlock i 12) (by simp [heldBlocks, h0])).2
    have hvol : r.2.vol.data (iBlock i 12) = s.vol.data (iBlock i 12) := by
      rw [hgive.vol]
      rfl
    have hlay : r.2.img.layout = s.img.layout := congrArg Vol.layout hgive.vol
    exact ((Img.data_of_not_reserved (m := r.2.img) (by rwa [hlay])).symm.trans hvol).trans
      (Img.data_of_not_reserved hres)
  have hpointers : pointersOf r.2.img r.1 = pointersOf s.img i := by
    unfold pointersOf
    rw [h12, hgive.keeps.geo]
    split
    · rfl
    · rename_i h0
      rw [hdata h0]
  refine ⟨hgive, _, rfl, by rw [hpointers, h12], fun b hb => ?_, hnodup2⟩
  obtain ⟨hbb, hbr⟩ := hbusy b (List.mem_append_right _ hb)
  rw [hgive.vol]
  exact ⟨⟨hbb, fun hmem => hdisj hmem hb⟩, hbr⟩

/-- The blocks of a file are given back, and the inode forgets them. -/
theorem freeFile_spec (h : s.Ok) (hsuper : s.vol.layout.ApartFromSuper) {i : Bytes}
    (hbusy : ∀ b ∈ heldBlocks s.img i, b ∈ s.vol.busy ∧ ¬ s.vol.layout.Reserved b)
    (hnodup : (heldBlocks s.img i).Nodup) :
    s.Gives (freeIndirect (freeDirect s i direct).2 (freeDirect s i direct).1).2
        (heldBlocks s.img i) ∧
      (∀ k, iBlock (freeIndirect (freeDirect s i direct).2 (freeDirect s i direct).1).1 k =
        if k < (directBlocks i).length ∨ k = 12 then 0 else iBlock i k) ∧
      ∀ x < 40, (freeIndirect (freeDirect s i direct).2 (freeDirect s i direct).1).1 x = i x := by
  obtain ⟨-, hblock, hhead⟩ := freeDirect_spec h hsuper
    (fun b hb => hbusy b (List.mem_append_left _ hb)) (List.nodup_append'.1 hnodup).1
  obtain ⟨hgive, bs, hheld, hbs, hbusy', hnodup'⟩ := freeDirect_rest h hsuper hbusy hnodup rfl
  generalize freeDirect s i direct = r at hgive hblock hhead hbs hbusy' ⊢
  have hsuper' : r.2.vol.layout.ApartFromSuper := by
    rw [hgive.vol]
    exact hsuper
  obtain ⟨r', hreads, heq⟩ := freeIndirect_eq hgive.ok hsuper' hbs hbusy' hnodup'
  have hvol := hreads.vol
  have hgive' := (freeAll_spec (hreads.ok hgive.ok) (by rw [hvol]; exact hsuper') bs
    (by rw [hvol]; exact hbusy') hnodup').1.of_reads hreads
  obtain ⟨hblock', hhead'⟩ := freeIndirect_inode r.2 r.1
  refine ⟨?_, fun k => ?_, fun x hx => (hhead' x hx).trans (hhead x hx)⟩
  · rw [hheld, heq]
    exact hgive.trans hgive'
  · rw [hblock', hblock]
    split_ifs <;> first | rfl | omega

/-! ### Taking -/

/-- The blocks of a list were free, were taken and are all that was written. -/
structure Vol.Grown (v v' : Vol) (bs : List Nat) : Prop where
  layout : v'.layout = v.layout
  inode : v'.inode = v.inode
  taken : v'.taken = v.taken
  busy : v'.busy = v.busy ∪ {b | b ∈ bs}
  free : ∀ b ∈ bs, v.Free b
  nodup : bs.Nodup
  data : ∀ c, c ∉ bs → v'.data c = v.data c

theorem Vol.Grown.refl (v : Vol) : v.Grown v [] :=
  ⟨rfl, rfl, rfl, by simp, by simp, List.nodup_nil, fun _ _ => rfl⟩

theorem Vol.Grown.trans {v v' w : Vol} {bs cs : List Nat} (h : v.Grown v' bs)
    (h' : v'.Grown w cs) : v.Grown w (bs ++ cs) := by
  have hfresh : ∀ c ∈ cs, c ∉ v.busy ∧ c ∉ bs := by
    intro c hc
    have hnot := (h'.free c hc).notBusy
    rw [h.busy, Set.mem_union, not_or] at hnot
    exact hnot
  refine ⟨h'.layout.trans h.layout, h'.inode.trans h.inode, h'.taken.trans h.taken, ?_, ?_, ?_, ?_⟩
  · rw [h'.busy, h.busy, Set.union_assoc]
    congr 1
    ext c
    simp
  · intro c hc
    rcases List.mem_append.1 hc with hc | hc
    · exact h.free c hc
    · exact ⟨(hfresh c hc).1, h.layout ▸ (h'.free c hc).notReserved, (h'.free c hc).small⟩
  · exact h.nodup.append h'.nodup fun c hc hc' => (hfresh c hc').2 hc
  · intro c hc
    rw [List.mem_append, not_or] at hc
    rw [h'.data c hc.2, h.data c hc.1]

/-- The driver went from `s` to `t` and took the blocks of `bs`. -/
structure Fs.Grows (s t : Fs) (bs : List Nat) : Prop where
  ok : t.Ok
  grown : s.vol.Grown t.vol bs
  keeps : s.Keeps t

theorem Fs.Grows.refl (h : s.Ok) : s.Grows s [] := ⟨h, .refl _, .of_img rfl⟩

theorem Fs.Grows.trans {bs cs : List Nat} (h : s.Grows t bs) (h' : t.Grows u cs) :
    s.Grows u (bs ++ cs) := ⟨h'.ok, h.grown.trans h'.grown, h.keeps.trans h'.keeps⟩

/-- Only a scratch page differs. -/
theorem Fs.Grows.of_reads {bs : List Nat} (h : s.Reads t) (h' : t.Grows u bs) :
    s.Grows u bs := ⟨h'.ok, h.vol ▸ h'.grown, h.keeps.trans h'.keeps⟩

theorem Fs.Grows.to_reads {bs : List Nat} (h : s.Grows t bs) (h' : t.Reads u) :
    s.Grows u bs := ⟨h'.ok h.ok, h'.vol ▸ h.grown, h.keeps.trans h'.keeps⟩

theorem Fs.Grows.apart {bs : List Nat} (h : s.Grows t bs)
    (hsuper : s.vol.layout.ApartFromSuper) : t.vol.layout.ApartFromSuper := by
  rw [h.grown.layout]
  exact hsuper

theorem allocBlock_grows (h : s.Ok) (hsuper : s.vol.layout.ApartFromSuper)
    (hne : (allocBlock s).1 ≠ 0) : s.Grows (allocBlock s).2 [(allocBlock s).1] ∧
      (allocBlock s).2.ind = s.ind := by
  rcases allocBlock_spec h with ⟨h0, -⟩ | ⟨hfree, hb⟩
  · exact absurd h0 hne
  · refine ⟨⟨hb.ok, ?_, allocBlock_keeps h hsuper⟩, hb.ind⟩
    rw [hb.vol]
    refine ⟨rfl, rfl, rfl, ?_, fun b hc => ?_, by simp, fun _ _ => rfl⟩
    · ext c
      simp [Vol.take, or_comm]
    · rwa [List.mem_singleton.1 hc]

/-- A block that was taken is written. -/
theorem Fs.Grows.write {bs : List Nat} (h : s.Grows t bs) {b : Nat} (hb : b ∈ bs) (page : Bytes) :
    s.Grows (writeBlock t b page).2 bs ∧ (writeBlock t b page).2.ind = t.ind ∧
      (writeBlock t b page).2.vol.data b = page ∧
      ∀ c, c ≠ b → (writeBlock t b page).2.vol.data c = t.vol.data c := by
  have hr : ¬ t.vol.layout.Reserved b := by
    rw [h.grown.layout]
    exact (h.grown.free b hb).notReserved
  obtain ⟨-, hput⟩ := writeBlock_spec h.ok hr page
  have hkeep : t.Keeps (writeBlock t b page).2 :=
    writeBlock_keeps (fun heq => hr (Or.inr (Or.inl heq))) page
  refine ⟨⟨hput.ok, ?_, h.keeps.trans hkeep⟩, hput.ind, ?_, fun c hc => ?_⟩
  · rw [hput.vol]
    refine ⟨h.grown.layout, h.grown.inode, h.grown.taken, h.grown.busy, h.grown.free,
      h.grown.nodup, fun c hc => ?_⟩
    rw [Vol.put_data_ne page (ne_of_mem_of_not_mem hb hc).symm]
    exact h.grown.data c hc
  · rw [hput.vol]
    exact Vol.put_data_self _ _
  · rw [hput.vol]
    exact Vol.put_data_ne _ hc

theorem writeChunk_spec (h : s.Ok) (hsuper : s.vol.layout.ApartFromSuper) (chunk : List UInt8)
    (hne : (writeChunk s chunk).1 ≠ 0) :
    s.Grows (writeChunk s chunk).2 [(writeChunk s chunk).1] ∧
      (writeChunk s chunk).2.ind = s.ind := by
  unfold writeChunk at hne ⊢
  by_cases h0 : (allocBlock s).1 = 0
  · simp [h0] at hne
  · obtain ⟨hgrow, hind⟩ := allocBlock_grows h hsuper h0
    simp only [if_neg h0]
    have hgrow' := hgrow.to_reads (u := { (allocBlock s).2 with
      io := blit (zeroTo (allocBlock s).2.io (allocBlock s).2.blockSize) 0 chunk.length
        (ofList chunk) }) ⟨rfl, rfl⟩
    obtain ⟨hwrite, hind', -, -⟩ := hgrow'.write (List.mem_singleton_self _)
      (blit (zeroTo (allocBlock s).2.io (allocBlock s).2.blockSize) 0 chunk.length (ofList chunk))
    exact ⟨hwrite, hind'.trans hind⟩

/-- The number of blocks that `len` bytes take. -/
def chunks (size len : Nat) : Nat := (len + (size - 1)) / size

theorem chunks_zero {size : Nat} (h : 0 < size) : chunks size 0 = 0 := by
  unfold chunks
  rw [Nat.zero_add]
  exact Nat.div_eq_of_lt (by omega)

theorem chunks_sub {size len : Nat} (h : 0 < size) (hlen : 0 < len) :
    chunks size len = chunks size (len - size) + 1 := by
  unfold chunks
  by_cases hle : len ≤ size
  · have hone : len + (size - 1) = len - 1 + size := by omega
    rw [Nat.sub_eq_zero_of_le hle, Nat.zero_add, Nat.div_eq_of_lt (show size - 1 < size by omega),
      hone, Nat.add_div_right _ h, Nat.div_eq_of_lt (by omega)]
  · have hsub : len + (size - 1) = len - size + (size - 1) + size := by omega
    rw [hsub, Nat.add_div_right _ h]

end FiFi.Ext2
