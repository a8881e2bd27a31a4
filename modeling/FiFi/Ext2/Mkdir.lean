import FiFi.Ext2.Dirents

/-!
# A failed mkdir

`ext2_mkdir` takes an inode and a block, writes both and adds an entry to the
parent. Where it fails, it gives back what it has taken. Only an inode and a block
that were free have been written then, so nothing that is in use has changed.
-/

namespace FiFi.Ext2

open ByteStore

variable {s t : Fs}

/-! ### Inodes -/

theorem freeInode_marked (h : s.Ok) (ino : Nat) :
    s.img.Marked (freeInode s ino).img .inodeMap s.img.geo.inodesPerGroup := by
  unfold freeInode
  dsimp only
  split
  · exact Or.inl rfl
  · split
    · exact Or.inl rfl
    · rename_i hg
      have harea : s.img.layout.Has (.inodeMap (s.img.geo.inodeGroup ino)) := Nat.not_le.1 hg
      exact freeBit_marked h harea harea (Nat.mod_lt _ h.sound.layout.inodesPerGroup.1)
        ⟨rfl, rfl, rfl⟩ rfl

theorem freeInode_keeps (h : s.Ok) (hsuper : s.vol.layout.ApartFromSuper) (ino : Nat) :
    s.Keeps (freeInode s ino) := .of_marked hsuper (freeInode_marked h ino)

theorem allocInodeIn_marked (h : s.Ok) {gs : List Nat}
    (hgs : ∀ g ∈ gs, g < s.img.geo.numGroups) :
    s.img.Marked (allocInodeIn s gs).2.img .inodeMap s.img.geo.inodesPerGroup := by
  induction gs generalizing s with
  | nil => exact Or.inl rfl
  | cons g gs ih =>
      have hg : s.img.layout.Has (.inodeMap g) := hgs g (by simp)
      have hgs' : ∀ g' ∈ gs, g' < s.img.geo.numGroups := fun g' hg' => hgs g' (by simp [hg'])
      have hmap : (s.img.bgdt g).inodeBitmap ≠ 0 := h.sound.layout.nonzero _ hg
      simp only [allocInodeIn, readBlock, if_neg hmap]
      split
      · exact ih h hgs'
      · split
        · exact ih (s := { s with io := s.img.disk (s.img.bgdt g).inodeBitmap })
            ⟨h.ready, h.sound⟩ hgs'
        · rename_i bit hbit
          obtain ⟨hlt, -⟩ := clearBitOf_some hbit
          exact takeBit_marked h hg hg hlt ⟨rfl, rfl, rfl⟩ rfl

theorem allocInode_keeps (h : s.Ok) (hsuper : s.vol.layout.ApartFromSuper) :
    s.Keeps (allocInode s).2 :=
  .of_marked hsuper (allocInodeIn_marked h fun _ hg => List.mem_range.1 hg)

/-- An inode is taken if one is free. -/
theorem allocInode_turns (h : s.Ok) (hsuper : s.vol.layout.ApartFromSuper) :
    ((allocInode s).1 = 0 ∧ s.vol.NoInode ∧ s.Turns (allocInode s).2 s.vol) ∨
      ((allocInode s).1 ≠ 0 ∧ ¬ s.vol.NoInode ∧ s.vol.FreeInode (allocInode s).1 ∧
        s.Turns (allocInode s).2 (s.vol.takeInode (allocInode s).1)) := by
  have hkeep := allocInode_keeps h hsuper
  have hzero := allocInode_eq_zero h
  rcases allocInode_spec h with ⟨h0, hb⟩ | ⟨hne, hfree, hb⟩
  · exact Or.inl ⟨h0, hzero.1 h0, hb.turns hkeep⟩
  · exact Or.inr ⟨hne, mt hzero.2 hne, hfree, hb.turns hkeep⟩

/-- A block is taken if one is free. -/
theorem allocBlock_turns (h : s.Ok) (hsuper : s.vol.layout.ApartFromSuper) :
    ((allocBlock s).1 = 0 ∧ s.vol.freeSet = ∅ ∧ s.Turns (allocBlock s).2 s.vol) ∨
      ((allocBlock s).1 ≠ 0 ∧ s.vol.freeSet ≠ ∅ ∧ s.vol.Free (allocBlock s).1 ∧
        s.Turns (allocBlock s).2 (s.vol.take (allocBlock s).1)) := by
  have hkeep := allocBlock_keeps h hsuper
  have hzero := allocBlock_eq_zero h
  rcases allocBlock_spec h with ⟨h0, hb⟩ | ⟨hfree, hb⟩
  · exact Or.inl ⟨h0, hzero.1 h0, hb.turns hkeep⟩
  · exact Or.inr ⟨hfree.ne_zero, mt hzero.2 hfree.ne_zero, hfree, hb.turns hkeep⟩

/-- An inode and a block are given back. -/
theorem freeBoth_turns (h : s.Ok) (hsuper : s.vol.layout.ApartFromSuper) {ino b : Nat}
    (hino : ino ∈ s.vol.taken) (hb : b ∈ s.vol.busy) (hr : ¬ s.vol.layout.Reserved b) :
    s.Turns (freeBlock (freeInode s ino) b) ((s.vol.giveInode ino).give b) := by
  have hi := (freeInode_spec h hino).turns (freeInode_keeps h hsuper ino)
  have hb' := freeBlock_spec hi.ok (b := b) (by rw [hi.vol]; exact hb) (by rw [hi.vol]; exact hr)
  rw [hi.vol] at hb'
  exact hi.trans (hb'.turns (freeBlock_keeps hi.ok (by rw [hi.vol]; exact hsuper) b))

/-! ### After the lookup -/

/-- `ext2_mkdir`, once the parent is known and the path does not exist. -/
def mkdirIn (s : Fs) (parentIno : Nat) (name : List UInt8) (now : Nat) : Bool × Fs :=
  let a := allocInode s
  if a.1 = 0 then (false, a.2)
  else
    let k := allocBlock a.2
    if k.1 = 0 then (false, freeInode k.2 a.1)
    else
      let s := { k.2 with io := dotBlock k.2.io k.2.blockSize a.1 parentIno }
      let s := (writeBlock s k.1 s.io).2
      let w := writeInode s a.1 (newDirInode s.blockSize k.1 now)
      if !w.1 then (false, freeBlock (freeInode w.2 a.1) k.1)
      else
        let e := addDirent w.2 parentIno name a.1 2
        if !e.1 then (false, freeBlock (freeInode e.2 a.1) k.1) else (true, e.2)

theorem mkdir_eq (s : Fs) (path : List UInt8) (now : Nat) : mkdir s path now =
    if s.ready = false ∨ path.head? ≠ some slash then (false, s)
    else
      match splitPath path with
      | none => (false, s)
      | some (parent, name) =>
          let r := resolve s parent
          if r.1 = 0 then (false, r.2)
          else
            let q := resolve r.2 path
            if q.1 ≠ 0 then (false, q.2) else mkdirIn q.2 r.1 (name.take 255) now := rfl

/-- A new directory before it gets its entry: the inode `ino` and the block `b` are
written. -/
structure Vol.MadeDir (v w : Vol) (ino b : Nat) (i : Bytes) (page : Bytes) : Prop where
  newInode : v.FreeInode ino
  newBlock : v.Free b
  vol : w = (((v.takeInode ino).take b).put b page).setInode ino i

/-- What happens before the entry is added. -/
theorem mkdirIn_steps (h : s.Ok) (hsuper : s.vol.layout.ApartFromSuper) (parentIno : Nat)
    (name : List UInt8) (now : Nat) :
    (s.vol.NoInode ∧ (mkdirIn s parentIno name now).1 = false ∧
        s.Turns (mkdirIn s parentIno name now).2 s.vol) ∨
      (s.vol.freeSet = ∅ ∧ (mkdirIn s parentIno name now).1 = false ∧
        s.Turns (mkdirIn s parentIno name now).2 s.vol) ∨
      ∃ w ino b i page, ¬ s.vol.NoInode ∧ s.vol.freeSet ≠ ∅ ∧ s.Turns w w.vol ∧
        s.vol.MadeDir w.vol ino b i page ∧ mkdirIn s parentIno name now =
          let e := addDirent w parentIno name ino 2
          if !e.1 then (false, freeBlock (freeInode e.2 ino) b) else (true, e.2) := by
  unfold mkdirIn
  rcases allocInode_turns h hsuper with ⟨h0, hno, hturn⟩ | ⟨hne, hyes, hfree, hturn⟩
  · exact Or.inl ⟨hno, by simp [h0], by simpa [h0] using hturn⟩
  · generalize allocInode s = a at hne hfree hturn ⊢
    have hsuper' : a.2.vol.layout.ApartFromSuper := by
      rw [hturn.vol]
      exact hsuper
    have hset : a.2.vol.freeSet = s.vol.freeSet := by
      rw [hturn.vol]
      rfl
    simp only [if_neg hne]
    rcases allocBlock_turns hturn.ok hsuper' with ⟨h0, hno, hturn'⟩ | ⟨hne', hyes', hfree', hturn'⟩
    · refine Or.inr (Or.inl ⟨hset ▸ hno, by simp [h0], ?_⟩)
      simp only [if_pos h0]
      have hall := hturn.trans hturn'
      have hvol : (allocBlock a.2).2.vol = s.vol.takeInode a.1 := hturn'.vol.trans hturn.vol
      have hgive := (freeInode_spec hall.ok (show a.1 ∈ _ by
        rw [hvol]
        exact Set.mem_insert _ _)).turns (freeInode_keeps hall.ok (by rw [hvol]; exact hsuper) _)
      refine ⟨hgive.ok, hgive.vol.trans ?_, hall.keeps.trans hgive.keeps⟩
      rw [hvol]
      refine Vol.ext rfl rfl rfl rfl ?_
      exact Set.insert_sdiff_self_of_notMem hfree.notTaken
    · rw [hset] at hyes'
      generalize allocBlock a.2 = k at hne' hfree' hturn' ⊢
      simp only [if_neg hne']
      have hall := hturn.trans hturn'
      have hvol : k.2.vol = (s.vol.takeInode a.1).take k.1 := by
        rw [hturn'.vol, hturn.vol]
      have hres : ¬ k.2.vol.layout.Reserved k.1 := by
        rw [hvol]
        have := hfree'.notReserved
        rw [hturn.vol] at this
        exact this
      generalize dotBlock k.2.io k.2.blockSize a.1 parentIno = page
      have hok : ({ k.2 with io := page } : Fs).Ok := ⟨hall.ok.ready, hall.ok.sound⟩
      have hput := (writeBlock_spec hok hres page).2.turns (writeBlock_keeps
        (s := { k.2 with io := page }) (fun heq => hres (Or.inr (Or.inl heq))) page)
      generalize (writeBlock { k.2 with io := page } k.1 page).2 = u at hput ⊢
      have hu : u.vol = ((s.vol.takeInode a.1).take k.1).put k.1 page := by
        rw [hput.vol, ← hvol]
        rfl
      obtain ⟨i, hi⟩ := hfree.exists_inode
      have hui : u.vol.inode a.1 = some i := by
        rw [hu]
        exact hi
      obtain ⟨hdone, hinode⟩ := writeInode_spec hput.ok hui (newDirInode u.blockSize k.1 now)
      have hw := hinode.turns (writeInode_keeps hput.ok (by rw [hu]; exact hsuper) hui _)
      generalize writeInode u a.1 (newDirInode u.blockSize k.1 now) = w at hdone hw ⊢
      rw [hdone]
      refine Or.inr (Or.inr ⟨w.2, a.1, k.1, slice (newDirInode u.blockSize k.1 now) 0 inodeBytes,
        page, hyes, hyes', ⟨hw.ok, rfl, ?_⟩, ⟨hfree, ?_, ?_⟩, rfl⟩)
      · exact (hall.keeps.trans ⟨hput.keeps.geo, hput.keeps.super, hput.keeps.tail⟩).trans hw.keeps
      · rw [hturn.vol] at hfree'
        exact ⟨hfree'.notBusy, hfree'.notReserved, hfree'.small⟩
      · rw [hw.vol, hu]

namespace Vol.MadeDir

variable {v w : Vol} {ino b : Nat} {i page : Bytes} (h : v.MadeDir w ino b i page)

include h

theorem layout : w.layout = v.layout := by
  rw [h.vol]
  rfl

theorem mem_taken : ino ∈ w.taken := by
  rw [h.vol]
  exact Set.mem_insert _ _

theorem mem_busy : b ∈ w.busy := by
  rw [h.vol]
  exact Set.mem_insert _ _

/-- What was in use is as before. -/
theorem inode_eq {ino' : Nat} (htaken : ino' ∈ v.taken) : w.inode ino' = v.inode ino' := by
  rw [h.vol, setInode_ne _ (ne_of_mem_of_not_mem htaken h.newInode.notTaken)]
  rfl

theorem data_eq {b' : Nat} (hbusy : b' ∈ v.busy) : w.data b' = v.data b' := by
  rw [h.vol]
  exact put_data_ne page (ne_of_mem_of_not_mem hbusy h.newBlock.notBusy)

/-- The inode and the block are given back. -/
theorem given_busy : ((w.giveInode ino).give b).busy = v.busy := by
  rw [h.vol]
  exact Set.insert_sdiff_self_of_notMem h.newBlock.notBusy

theorem given_taken : ((w.giveInode ino).give b).taken = v.taken := by
  rw [h.vol]
  exact Set.insert_sdiff_self_of_notMem h.newInode.notTaken

end Vol.MadeDir

/-- The two are given back when the entry could not be added. -/
theorem Vol.MadeDir.unchanged {w : Fs} {ino b : Nat} {i page : Bytes}
    (hmade : s.vol.MadeDir w.vol ino b i page) (hturn : s.Turns w w.vol) (h : s.Ok)
    (hsuper : s.vol.layout.ApartFromSuper) (hw : s.vol.Wf) {e : Fs} (he : w.Turns e w.vol) :
    s.Unchanged (freeBlock (freeInode e ino) b) := by
  have hvol := he.vol
  have hback := @freeBoth_turns _ he.ok
    (by rw [hvol, hmade.layout]; exact hsuper) ino b (by rw [hvol]; exact hmade.mem_taken)
    (by rw [hvol]; exact hmade.mem_busy)
    (by rw [hvol, hmade.layout]; exact hmade.newBlock.notReserved)
  rw [hvol] at hback
  exact ((hturn.trans he).trans hback).unchanged h hw hmade.layout hmade.given_busy
    hmade.given_taken (fun ino' => hmade.inode_eq) fun b' => hmade.data_eq

theorem mkdirIn_fails (h : s.Ok) (hsuper : s.vol.layout.ApartFromSuper) (hw : s.vol.Wf)
    {parentIno : Nat} (hparent : s.vol.Reach {2} parentIno) {name : List UInt8} {now : Nat}
    (hfail : (mkdirIn s parentIno name now).1 = false) :
    s.Unchanged (mkdirIn s parentIno name now).2 := by
  rcases mkdirIn_steps h hsuper parentIno name now with ⟨-, -, hturn⟩ | ⟨-, -, hturn⟩ |
    ⟨w, ino, b, i, page, -, -, hturn, hmade, heq⟩
  · exact hturn.unchanged_self h hw
  · exact hturn.unchanged_self h hw
  · obtain ⟨htaken, dir, hdir⟩ := hw.taken parentIno hparent
    rw [heq] at hfail ⊢
    dsimp only at hfail ⊢
    cases hdone : (addDirent w parentIno name ino 2).1 with
    | true =>
        rw [hdone] at hfail
        cases hfail
    | false =>
        have he := addDirent_fails hturn.ok ((hmade.inode_eq htaken).trans hdir) name ino 2
          (by rw [hmade.layout]; exact hsuper) hdone
        exact hmade.unchanged hturn h hsuper hw he

/-! ### The call -/

/-- A state that only was read behaves as the one before. -/
theorem Fs.Unchanged.of_reads {u : Fs} (h : s.Ok) (hw : s.vol.Wf) (hreads : s.Reads t)
    (hu : t.Unchanged u) : s.Unchanged u := by
  have himg := hreads.img
  have hvol := hreads.vol
  obtain ⟨hspace, hfiles⟩ := hu
  have hself := (hreads.turns h).unchanged_self h hw
  refine ⟨⟨?_, ?_, ?_, ?_, ?_⟩, ⟨?_, ?_, ?_, ?_, ?_⟩⟩
  · rw [← himg]
    exact hspace.geo
  · rw [← himg]
    exact hspace.bgdt
  · rw [← himg]
    exact hspace.desc
  · rw [← himg]
    exact hspace.blockBits
  · rw [← himg]
    exact hspace.inodeBits
  · rw [← hvol, ← himg]
    exact hfiles.bytes
  · exact fun path => (hfiles.resolve path).trans (hself.files.resolve path)
  · exact fun path max => (hfiles.read path max).trans (hself.files.read path max)
  · exact fun path => (hfiles.size path).trans (hself.files.size path)
  · exact fun path => (hfiles.dir path).trans (hself.files.dir path)

/-- **A failed `ext2_mkdir` leaves no trace.** -/
theorem mkdir_fails_unchanged (h : s.Ok) (hsuper : s.vol.layout.ApartFromSuper) (hw : s.vol.Wf)
    (path : List UInt8) (now : Nat) (hfail : (mkdir s path now).1 = false) :
    s.Unchanged (mkdir s path now).2 := by
  rw [mkdir_eq] at hfail ⊢
  split
  · exact (Fs.Reads.refl.turns h).unchanged_self h hw
  · rename_i hready
    rw [if_neg hready] at hfail
    cases hsplit : splitPath path with
    | none => exact (Fs.Reads.refl.turns h).unchanged_self h hw
    | some pn =>
        obtain ⟨parent, name⟩ := pn
        rw [hsplit] at hfail
        dsimp only at hfail ⊢
        obtain ⟨hreads, hres⟩ := resolve_spec h hw parent
        generalize resolve s parent = r at hfail hreads hres ⊢
        by_cases h0 : r.1 = 0
        · rw [if_pos h0]
          exact (hreads.turns h).unchanged_self h hw
        · rw [if_neg h0] at hfail ⊢
          have hq := hreads.trans (resolve_reads r.2 path)
          generalize resolve r.2 path = q at hfail hq ⊢
          by_cases hq0 : q.1 = 0
          · rw [if_neg (by simpa using hq0)] at hfail ⊢
            refine .of_reads h hw hq (mkdirIn_fails (hq.ok h) ?_ ?_ ?_ hfail)
            · rw [hq.vol]
              exact hsuper
            · rw [hq.vol]
              exact hw
            · rw [hq.vol, hres]
              exact Vol.reach_resolve (hres ▸ h0)
          · rw [if_pos hq0]
            exact (hq.turns h).unchanged_self h hw

/-- `/a` exists already. -/
theorem mkdir_fails_unchanged_exists : smallFs.Unchanged (mkdir smallFs [47, 97] 0).2 :=
  mkdir_fails_unchanged smallFs_ok smallFs_consistent.apart smallImg_wf [47, 97] 0
    (by decide)

end FiFi.Ext2
