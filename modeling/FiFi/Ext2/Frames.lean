import FiFi.Ext2.Partial
import FiFi.Ext2.Resolved

/-!
# What the areas keep

Blocks are taken and given back through the bitmaps and the descriptors. Of the
areas only the bits of blocks and the descriptors are written then. So if the same
blocks are in use in the end, the areas are the same, byte for byte.
-/

namespace FiFi.Ext2

open ByteStore

variable {s t u : Fs}

/-- Of the areas only the bits of blocks and the descriptors were written. -/
structure Img.Frames (m n : Img) : Prop where
  layout : n.layout = m.layout
  bits : ∀ g < m.geo.numGroups, ∀ j, m.geo.blocksPerGroup ≤ j →
    bitAt (n.disk (m.layout.place (.blockMap g))) j =
      bitAt (m.disk (m.layout.place (.blockMap g))) j
  desc : ∀ g < m.geo.numGroups, ∀ x,
    (∀ g' < m.geo.numGroups, m.geo.bgdBlock g' = m.geo.bgdBlock g →
      x < g' * bgdBytes % m.geo.blockSize ∨ g' * bgdBytes % m.geo.blockSize + bgdBytes ≤ x) →
    n.disk (m.geo.bgdBlock g) x = m.disk (m.geo.bgdBlock g) x
  rest : ∀ b, m.layout.Reserved b → (∀ g < m.geo.numGroups, b ≠ m.layout.place (.blockMap g)) →
    (∀ g < m.geo.numGroups, b ≠ m.geo.bgdBlock g) → n.disk b = m.disk b

namespace Img

variable {m n : Img} {g bit b : Nat} {page : Bytes} {d : Bgd}

theorem Frames.refl (m : Img) : m.Frames m :=
  ⟨rfl, fun _ _ _ _ => rfl, fun _ _ _ _ => rfl, fun _ _ _ _ => rfl⟩

theorem Frames.trans {k : Img} (h : m.Frames n) (h' : n.Frames k) : m.Frames k := by
  have hgeo : n.geo = m.geo := congrArg Layout.geo h.layout
  obtain ⟨hlayout, hbits, hdesc, hrest⟩ := h'
  rw [h.layout, hgeo] at hbits hrest
  rw [hgeo] at hdesc
  refine ⟨hlayout.trans h.layout, fun g hg j hj => ?_, fun g hg x hx => ?_,
    fun b hb hmap hd => ?_⟩
  · rw [hbits g hg j hj, h.bits g hg j hj]
  · rw [hdesc g hg x hx, h.desc g hg x hx]
  · rw [hrest b hb hmap hd, h.rest b hb hmap hd]

theorem frames_write (hb : ¬ m.layout.Reserved b) (page : Bytes) : m.Frames (m.write b page) := by
  have hne : ∀ c, m.layout.Reserved c → (m.write b page).disk c = m.disk c := fun c hc =>
    m.write_disk_ne page fun heq => hb (heq ▸ hc)
  refine ⟨rfl, fun g hg j _ => ?_, fun g hg x _ => ?_, fun c hc _ _ => hne c hc⟩
  · rw [hne _ (Layout.reserved_of_has (show m.layout.Has (.blockMap g) from hg))]
  · rw [hne (m.geo.bgdBlock g) (Layout.reserved_of_has (Layout.has_desc (l := m.layout) hg))]

theorem frames_mark (h : m.Sound) (hd : (m.bgdt g).Recounts d) (hg : g < m.geo.numGroups)
    (hbit : bit < m.geo.blocksPerGroup) {val : Bool}
    (hpage : Flips (m.disk (m.layout.place (.blockMap g))) page bit val) :
    m.Frames (m.mark g (m.layout.place (.blockMap g)) page d) := by
  have hhas : ∀ g' < m.geo.numGroups, m.layout.Has (.blockMap g') := fun _ hg' => hg'
  have hplace : ∀ g' < m.geo.numGroups, m.geo.bgdBlock g' ≠ m.layout.place (.blockMap g) := by
    intro g' hg' heq
    cases h.layout.apart _ _ (Layout.has_desc (l := m.layout) hg') (hhas g hg) heq
  refine ⟨mark_layout hd _, fun g' hg' j hj => ?_, fun g' hg' x hx => ?_, fun b _ hmap hdesc => ?_⟩
  · by_cases hgg : g' = g
    · rw [hgg, mark_disk_self h.layout hg (hhas g hg) (by simp), hpage, if_neg (by omega)]
    · rw [mark_disk_place h.layout hg (hhas g hg) (hhas g' hg') (by simpa using hgg) (by simp)]
  · by_cases hblk : m.geo.bgdBlock g' = m.geo.bgdBlock g
    · rw [hblk]
      refine (congrFun (Function.update_self _ _ _) x).trans ?_
      refine (blit_out _ _ (hx g hg hblk.symm)).trans ?_
      exact congrFun (m.write_disk_ne page (hplace g hg)) x
    · rw [mark_disk_ne (Ne.symm hblk) (hplace g' hg')]
  · exact mark_disk_ne (hdesc g hg).symm (hmap g hg)

/-- Bytes are the same if their bits are. -/
theorem eq_of_bitAt {a b : Bytes} (h : ∀ j, bitAt a j = bitAt b j) : a = b := by
  funext x
  refine UInt8.eq_of_toBitVec_eq (BitVec.eq_of_getLsbD_eq fun i hi => ?_)
  have hbit := h (8 * x + i)
  unfold bitAt at hbit
  rwa [show (8 * x + i) / 8 = x by omega, show (8 * x + i) % 8 = i by omega] at hbit

/-- The areas are the same if the bits and the descriptors are. -/
theorem Frames.disk_eq (h : m.Frames n)
    (hbits : ∀ g < m.geo.numGroups, ∀ bit < m.geo.blocksPerGroup,
      bitAt (n.disk (m.layout.place (.blockMap g))) bit =
        bitAt (m.disk (m.layout.place (.blockMap g))) bit)
    (hdesc : ∀ g < m.geo.numGroups,
      slice (n.disk (m.geo.bgdBlock g)) (g * bgdBytes % m.geo.blockSize) bgdBytes =
        slice (m.disk (m.geo.bgdBlock g)) (g * bgdBytes % m.geo.blockSize) bgdBytes)
    (hb : m.layout.Reserved b) : n.disk b = m.disk b := by
  by_cases hmap : ∃ g < m.geo.numGroups, b = m.layout.place (.blockMap g)
  · obtain ⟨g, hg, rfl⟩ := hmap
    refine eq_of_bitAt fun j => ?_
    by_cases hj : j < m.geo.blocksPerGroup
    · exact hbits g hg j hj
    · exact h.bits g hg j (Nat.not_lt.1 hj)
  · by_cases hd : ∃ g < m.geo.numGroups, b = m.geo.bgdBlock g
    · obtain ⟨g, hg, rfl⟩ := hd
      funext x
      by_cases hin : ∃ g' < m.geo.numGroups, m.geo.bgdBlock g' = m.geo.bgdBlock g ∧
          g' * bgdBytes % m.geo.blockSize ≤ x ∧ x < g' * bgdBytes % m.geo.blockSize + bgdBytes
      · obtain ⟨g', hg', hblk, hle, hlt⟩ := hin
        have hx := congrFun (hdesc g' hg') (x - g' * bgdBytes % m.geo.blockSize)
        unfold slice at hx
        rw [if_pos (by omega), if_pos (by omega), Nat.add_sub_of_le hle, hblk] at hx
        exact hx
      · refine h.desc g hg x fun g' hg' hblk => ?_
        by_contra hc
        exact hin ⟨g', hg', hblk, by omega, by omega⟩
    · exact h.rest b hb (fun g hg heq => hmap ⟨g, hg, heq⟩) fun g hg heq => hd ⟨g, hg, heq⟩

end Img

/-! ### Blocks -/

/-- The driver went from `s` to `t` and kept the areas. -/
structure Fs.Framed (s t : Fs) : Prop where
  ok : t.Ok
  frames : s.img.Frames t.img

theorem Fs.Framed.trans (h : s.Framed t) (h' : t.Framed u) : s.Framed u :=
  ⟨h'.ok, h.frames.trans h'.frames⟩

theorem Fs.Reads.framed (h : s.Reads t) (hs : s.Ok) : s.Framed t :=
  ⟨h.ok hs, h.img ▸ .refl _⟩

theorem Img.Marked.frames {m n : Img} (h : m.Marked n .blockMap m.geo.blocksPerGroup)
    (hm : m.Sound) : m.Frames n := by
  rcases h with himg | ⟨g, bit, val, page, d, hg, -, hbit, hd, -, hpage, himg⟩
  · rw [himg]
    exact .refl m
  · rw [himg]
    exact frames_mark hm hd hg hbit hpage

theorem allocBlock_framed (h : s.Ok) : s.Framed (allocBlock s).2 := by
  refine ⟨?_, (allocBlock_marked h).frames h.sound⟩
  rcases allocBlock_spec h with ⟨-, hb⟩ | ⟨-, hb⟩
  · exact hb.ok
  · exact hb.ok

theorem freeAll_framed (h : s.Ok) {bs : List Nat}
    (hbusy : ∀ b ∈ bs, b ∈ s.vol.busy ∧ ¬ s.vol.layout.Reserved b) (hnodup : bs.Nodup) :
    s.Framed (freeAll s bs) := by
  induction bs generalizing s with
  | nil => exact Fs.Reads.refl.framed h
  | cons b bs ih =>
      obtain ⟨hb, hbs⟩ := List.nodup_cons.1 hnodup
      obtain ⟨hbb, hbr⟩ := hbusy b (by simp)
      have hfree := freeBlock_spec h hbb hbr
      refine Fs.Framed.trans ⟨hfree.ok, (freeBlock_marked h b).frames h.sound⟩ (ih hfree.ok (fun c hc => ?_) hbs)
      obtain ⟨hcb, hcr⟩ := hbusy c (by simp [hc])
      rw [hfree.vol]
      exact ⟨⟨hcb, ne_of_mem_of_not_mem hc hb⟩, hcr⟩

/-- All blocks of a file are given back. -/
theorem freeFile_framed (h : s.Ok) (hsuper : s.vol.layout.ApartFromSuper) {i : Bytes}
    (hbusy : ∀ b ∈ heldBlocks s.img i, b ∈ s.vol.busy ∧ ¬ s.vol.layout.Reserved b)
    (hnodup : (heldBlocks s.img i).Nodup) :
    s.Framed (freeIndirect (freeDirect s i direct).2 (freeDirect s i direct).1).2 := by
  obtain ⟨hgive, bs, -, hbs, hbusy', hnodup'⟩ := freeDirect_rest h hsuper hbusy hnodup rfl
  have hfirst : s.Framed (freeDirect s i direct).2 := by
    have hrange : direct = List.range' 0 12 := rfl
    rw [hrange, (freeDirect_eq 12 0 s i (show _ = directBlocks i from rfl)).1]
    exact freeAll_framed h (fun b hb => hbusy b (List.mem_append_left _ hb))
      (List.nodup_append'.1 hnodup).1
  generalize freeDirect s i direct = r at hgive hbs hbusy' hfirst ⊢
  obtain ⟨r', hreads, heq⟩ := freeIndirect_eq hgive.ok (by rw [hgive.vol]; exact hsuper) hbs hbusy'
    hnodup'
  rw [heq]
  refine (hfirst.trans (hreads.framed hgive.ok)).trans
    (freeAll_framed (hreads.ok hgive.ok) ?_ hnodup')
  rw [hreads.vol]
  exact hbusy'

/-! ### Writing -/

theorem writeBlock_framed (h : s.Ok) {b : Nat} (hb : ¬ s.vol.layout.Reserved b) (page : Bytes) :
    s.Framed (writeBlock s b page).2 := by
  refine ⟨(writeBlock_spec h hb page).2.ok, ?_⟩
  unfold writeBlock
  split
  · exact .refl _
  · exact Img.frames_write hb page

theorem writeChunk_framed (h : s.Ok) (chunk : List UInt8) : s.Framed (writeChunk s chunk).2 := by
  have halloc := allocBlock_framed h
  unfold writeChunk
  rcases allocBlock_spec h with ⟨h0, -⟩ | ⟨hfree, hb⟩
  · simp only [if_pos h0]
    exact halloc
  · have hres := hfree.notReserved
    have hlayout : (allocBlock s).2.vol.layout = s.vol.layout := halloc.frames.layout
    simp only [if_neg hfree.ne_zero]
    rw [← hlayout] at hres
    generalize allocBlock s = r at halloc hres ⊢
    generalize blit (zeroTo r.2.io r.2.blockSize) 0 chunk.length (ofList chunk) = page
    have hread : r.2.Reads { r.2 with io := page } := ⟨rfl, rfl⟩
    exact (halloc.trans (hread.framed halloc.ok)).trans
      (writeBlock_framed (hread.ok halloc.ok) hres page)

theorem writeDirect_framed (h : s.Ok) (i : Bytes) (data : List UInt8) (ks : List Nat) :
    s.Framed (writeDirect s i data ks).2 := by
  induction ks generalizing s i data with
  | nil => exact Fs.Reads.refl.framed h
  | cons k ks ih =>
      have hchunk := writeChunk_framed h (data.take s.blockSize)
      unfold writeDirect
      split
      · exact Fs.Reads.refl.framed h
      · dsimp only
        split
        · exact hchunk
        · exact hchunk.trans (ih hchunk.ok _ _)

theorem writePointers_framed (h : s.Ok) (i : Bytes) (data : List UInt8) (ks : List Nat) :
    s.Framed (writePointers s i data ks).2 := by
  induction ks generalizing s i data with
  | nil => exact Fs.Reads.refl.framed h
  | cons k ks ih =>
      have hchunk := writeChunk_framed h (data.take s.blockSize)
      unfold writePointers
      split
      · exact Fs.Reads.refl.framed h
      · dsimp only
        split
        · exact hchunk
        · generalize writeChunk s (data.take s.blockSize) = r at hchunk ⊢
          have hread : r.2.Reads { r.2 with ind := put32 r.2.ind (4 * k) r.1 } := ⟨rfl, rfl⟩
          exact (hchunk.trans (hread.framed hchunk.ok)).trans (ih (hread.ok hchunk.ok) _ _)

/-- If it fails, the block for the pointers was not written. -/
theorem writeIndirect_framed (h : s.Ok) (i : Bytes) (data : List UInt8)
    (hfail : (writeIndirect s i data).1 = none) : s.Framed (writeIndirect s i data).2 := by
  unfold writeIndirect at hfail ⊢
  split at hfail
  · cases hfail
  · rename_i hnil
    rw [if_neg hnil]
    dsimp only at hfail ⊢
    have hread : s.Reads { s with ind := zeroTo s.ind s.blockSize } := ⟨rfl, rfl⟩
    have halloc := (hread.framed h).trans (allocBlock_framed (hread.ok h))
    generalize allocBlock { s with ind := zeroTo s.ind s.blockSize } = r at hfail halloc ⊢
    split at hfail
    · rename_i h0
      rw [if_pos h0]
      exact halloc
    · rename_i h0
      rw [if_neg h0]
      have hpointers := writePointers_framed halloc.ok i data r.2.img.geo.pointers
      generalize writePointers r.2 i data r.2.img.geo.pointers = q at hfail hpointers ⊢
      obtain ⟨_ | i', w⟩ := q
      · exact halloc.trans hpointers
      · cases hfail

end FiFi.Ext2

/-!
## A file in the place of a directory

`e2_resolve` checks that the components before the last one are directories. The
parent of a new path is resolved as a whole, so nothing checks that it is one.
`e2_add_dirent` then takes the bytes of a regular file for directory records. A
call whose parent is a file goes wrong unless it runs out of inodes or blocks
before that, or finds no record with room.
-/

namespace FiFi.Ext2

open ByteStore

variable {s t : Fs}

/-! ### Creating -/

theorem createIn_noInode (h : s.Ok) (hsuper : s.vol.layout.ApartFromSuper)
    (hno : s.vol.NoInode) (parentIno : Nat) (name data : List UInt8) (now : Nat) :
    (createIn s parentIno name data now).1 = false ∧
      s.Turns (createIn s parentIno name data now).2 s.vol := by
  unfold createIn
  rcases allocInode_turns h hsuper with ⟨h0, -, hturn⟩ | ⟨-, hyes, -⟩
  · simp only [if_pos h0]
    exact ⟨trivial, hturn⟩
  · exact absurd hno hyes

/-- The inode of a file that could not be created is lost. -/
theorem createIn_leaks (h : s.Ok) (hsuper : s.vol.layout.ApartFromSuper) {parentIno : Nat}
    {dir : Bytes} (hparent : parentIno ∈ s.vol.taken) (hdir : s.vol.inode parentIno = some dir)
    (hyes : ¬ s.vol.NoInode) {name data : List UInt8} {now : Nat}
    (hfail : (createIn s parentIno name data now).1 = false) :
    ¬ s.SameSpace (createIn s parentIno name data now).2 := by
  unfold createIn at hfail ⊢
  rcases allocInode_turns h hsuper with ⟨-, hno, -⟩ | ⟨hne, -, hfree, hturn⟩
  · exact absurd hno hyes
  · generalize allocInode s = a at hfail hne hfree hturn ⊢
    simp only [if_neg hne] at hfail ⊢
    obtain ⟨i, hi⟩ := hfree.exists_inode
    obtain ⟨-, htaken⟩ := storeFile_fails_taken hturn.ok (by rw [hturn.vol]; exact hsuper)
      (by rw [hturn.vol]; exact hi) (by rw [hturn.vol]; exact hdir)
      (ne_of_mem_of_not_mem hparent hfree.notTaken) hfail
    intro hspace
    rw [hspace.taken_eq h, hturn.vol] at htaken
    have hmem : a.1 ∈ (s.vol.takeInode a.1).taken := Set.mem_insert _ _
    rw [← htaken] at hmem
    exact hfree.notTaken hmem

/-! ### Making a directory -/

/-- When `e2_add_dirent` finds neither a record with room nor a block for more, after
`ext2_mkdir` has taken one block. -/
def NoRoom (s : Fs) (dir : Bytes) (nameLen : Nat) : Prop :=
  findRoom s.img (entrySize nameLen) (directBlocks dir) = none ∧
    ((directBlocks dir).length = 12 ∨ s.vol.freeSet.card = 1)

theorem findRoom_congr {m n : Img} (hgeo : n.geo = m.geo) {bs : List Nat}
    (h : ∀ b ∈ bs, n.disk b = m.disk b) (needed : Nat) :
    findRoom n needed bs = findRoom m needed bs := by
  induction bs with
  | nil => rfl
  | cons b bs ih =>
      rw [findRoom_cons, findRoom_cons, h b (by simp), hgeo,
        ih fun c hc => h c (List.mem_cons_of_mem _ hc)]

theorem Vol.freeSet_take {v : Vol} {b : Nat} : (v.take b).freeSet = v.freeSet.erase b := by
  ext c
  rw [Finset.mem_erase, mem_freeSet, mem_freeSet]
  change v.layout.InGroups c ∧ c ∉ insert b v.busy ↔ _
  rw [Set.mem_insert_iff, not_or]
  tauto

/-- When `ext2_mkdir` fails in a parent of which the blocks are in use. -/
theorem mkdirIn_eq_false_iff (h : s.Ok) (hsuper : s.vol.layout.ApartFromSuper) {parentIno : Nat}
    {dir : Bytes} (hparent : parentIno ∈ s.vol.taken) (hdir : s.vol.inode parentIno = some dir)
    (hblocks : ∀ b ∈ directBlocks dir, b ∈ s.vol.busy ∧ ¬ s.vol.layout.Reserved b)
    (name : List UInt8) (now : Nat) :
    (mkdirIn s parentIno name now).1 = false ↔
      s.vol.NoInode ∨ s.vol.freeSet = ∅ ∨ NoRoom s dir name.length := by
  rcases mkdirIn_steps h hsuper parentIno name now with ⟨hno, hfail, -⟩ | ⟨hno, hfail, -⟩ |
    ⟨w, ino, b, i, page, hyes, hfree, hturn, hmade, heq⟩
  · exact iff_of_true hfail (Or.inl hno)
  · exact iff_of_true hfail (Or.inr (Or.inl hno))
  · have hdir' := (hmade.inode_eq hparent).trans hdir
    have hdisk : ∀ c ∈ directBlocks dir, w.img.disk c = s.img.disk c := by
      intro c hc
      obtain ⟨hbusy, hres⟩ := hblocks c hc
      have hlay : w.img.layout = s.img.layout := hmade.layout
      exact ((Img.data_of_not_reserved (m := w.img) (by rw [hlay]; exact hres)).symm.trans
        (hmade.data_eq hbusy)).trans (Img.data_of_not_reserved hres)
    have hset : w.vol.freeSet = s.vol.freeSet.erase b := by
      rw [hmade.vol, ← Vol.freeSet_take]
      rfl
    have hmem : b ∈ s.vol.freeSet := by
      have hin := hturn.ok.inGroups hmade.mem_busy
      rw [hmade.layout] at hin
      exact Vol.mem_freeSet.2 ⟨hin, hmade.newBlock.notBusy⟩
    have hone : w.vol.freeSet = ∅ ↔ s.vol.freeSet.card = 1 := by
      have hpos := Finset.card_pos.2 ⟨b, hmem⟩
      rw [hset, ← Finset.card_eq_zero, Finset.card_erase_of_mem hmem]
      omega
    have hadd := addDirent_eq_false_iff hturn.ok hdir' name ino 2
      (by rw [hmade.layout]; exact hsuper)
    rw [findRoom_congr hturn.keeps.geo hdisk, hone] at hadd
    have hiff : (mkdirIn s parentIno name now).1 = false ↔
        (addDirent w parentIno name ino 2).1 = false := by
      rw [heq]
      dsimp only
      split <;> simp_all
    rw [hiff, hadd]
    exact ⟨fun hroom => Or.inr (Or.inr hroom), fun hc => (hc.resolve_left hyes).resolve_left hfree⟩

/-! ### A parent that is a file -/

/-- **What happens below a regular file.** The path does not exist, and the calls
leave everything alone in these cases only. -/
theorem fileParent_unchanged_iff (h : s.Ok) (hsuper : s.vol.layout.ApartFromSuper)
    (hw : s.vol.Wf) {path parent name : List UInt8} (hsplit : splitPath path = some (parent, name))
    {i : Bytes} (hi : fileInode s parent = some i) (data : List UInt8) (now : Nat) :
    ((writeFile s path data now).1 = false ∧ s.Unchanged (writeFile s path data now).2 ↔
      s.vol.NoInode) ∧
    ((mkdir s path now).1 = false ∧ s.Unchanged (mkdir s path now).2 ↔
      s.vol.NoInode ∨ s.vol.freeSet = ∅ ∨ NoRoom s i (name.take 255).length) := by
  obtain ⟨hinode, hf⟩ := fileInode_spec h hw hi
  have hp : s.vol.resolve parent ≠ 0 := by
    intro h0
    rw [h0, inode_zero] at hinode
    cases hinode
  have hreach := Vol.reach_resolve hp
  have htaken := (hw.taken _ hreach).1
  have hnew := Vol.resolve_below_file (splitPath_spec hsplit) hp hinode
    (Vol.not_isDirMode_of_isFileMode hf)
  constructor
  · obtain ⟨u, hreads, heq⟩ := writeFile_new h hw hsplit hp hnew data now
    have hsuper' : u.vol.layout.ApartFromSuper := by
      rw [hreads.vol]
      exact hsuper
    rw [heq]
    constructor
    · rintro ⟨hfail, hsame⟩
      by_contra hyes
      have hleak := createIn_leaks (hreads.ok h) hsuper' (by rw [hreads.vol]; exact htaken)
        (by rw [hreads.vol]; exact hinode) (by rw [hreads.vol]; exact hyes) hfail
      have hspace := hsame.space
      refine hleak ⟨?_, ?_, ?_, ?_, ?_⟩ <;> rw [hreads.img]
      · exact hspace.geo
      · exact hspace.bgdt
      · exact hspace.desc
      · exact hspace.blockBits
      · exact hspace.inodeBits
    · intro hno
      obtain ⟨hfail, hturn⟩ := createIn_noInode (hreads.ok h) hsuper'
        (by rw [hreads.vol]; exact hno) (s.vol.resolve parent) (name.take 255)
        (s.img.geo.written data) now
      refine ⟨hfail, .of_reads h hw hreads (hturn.unchanged_self (hreads.ok h) ?_)⟩
      rw [hreads.vol]
      exact hw
  · obtain ⟨u, hreads, heq⟩ := mkdir_new h hw hsplit hp hnew now
    have hblocks : ∀ b ∈ directBlocks i, b ∈ s.vol.busy ∧ ¬ s.vol.layout.Reserved b :=
      fun b hb => ((heldBlocks_spec hw hreach hinode hf).2 b (List.mem_append_left _ hb)).2
    have hiff := mkdirIn_eq_false_iff (hreads.ok h) (by rw [hreads.vol]; exact hsuper)
      (by rw [hreads.vol]; exact htaken) (by rw [hreads.vol]; exact hinode)
      (by rw [hreads.vol]; exact hblocks) (name.take 255) now
    unfold NoRoom at hiff ⊢
    rw [hreads.vol, hreads.img] at hiff
    rw [← hiff, ← heq]
    exact ⟨And.left, fun hfail => ⟨hfail, mkdir_fails_unchanged h hsuper hw path now hfail⟩⟩

/-- The file `/a` as a parent. -/
theorem smallFs_file : fileInode smallFs [47, 97] = some smallFileInode := by
  have hres := (resolve_spec smallFs_ok smallImg_wf [47, 97]).2
  have heval : (resolve smallFs [47, 97]).1 = 11 := by decide
  rw [heval] at hres
  rw [fileInode_eq_some_iff smallFs_ok smallImg_wf, ← hres]
  exact ⟨smallImg_file, by decide⟩

theorem fileParent_unchanged_iff_small :
    ((writeFile smallFs [47, 97, 47, 120] [65] 0).1 = false ∧
      smallFs.Unchanged (writeFile smallFs [47, 97, 47, 120] [65] 0).2 ↔ smallFs.vol.NoInode) ∧
    ((mkdir smallFs [47, 97, 47, 120] 0).1 = false ∧
      smallFs.Unchanged (mkdir smallFs [47, 97, 47, 120] 0).2 ↔
      smallFs.vol.NoInode ∨ smallFs.vol.freeSet = ∅ ∨ NoRoom smallFs smallFileInode 1) :=
  fileParent_unchanged_iff smallFs_ok smallFs_consistent.apart smallImg_wf
    (show splitPath [47, 97, 47, 120] = some ([47, 97], [120]) by decide) smallFs_file [65] 0

/-- `/a/x` is created, and the file `/a` grows by a block of directory entries. -/
theorem fileParent_accepted : smallFs.Ok ∧ smallFs.vol.Wf ∧
    fileInode smallFs [47, 97] = some smallFileInode ∧
    (writeFile smallFs [47, 97, 47, 120] [65] 0).1 = true ∧
    (mkdir smallFs [47, 97, 47, 120] 0).1 = true ∧ (fileSize smallFs [47, 97]).1 = some 0 ∧
    (fileSize (writeFile smallFs [47, 97, 47, 120] [65] 0).2 [47, 97]).1 = some 1024 := by
  refine ⟨smallFs_ok, smallImg_wf, smallFs_file, ?_, ?_, ?_, ?_⟩ <;> decide

end FiFi.Ext2
