import FiFi.Ext2.Entries

/-!
# An entry of a directory

What `e2_add_dirent` and `e2_remove_dirent` do to a directory of a well-formed
volume, which may have an indirect block. The entries change by one. The blocks
stay, or one is added behind the direct ones.
-/

namespace FiFi.Ext2

open ByteStore

variable {s t : Fs}

namespace Vol

variable {v w : Vol} {dir : Bytes}

/-! ### Blocks of its own -/

/-- A directory that has good records and blocks of its own. -/
structure Tidy (v : Vol) (dir : Bytes) : Prop where
  dirOk : v.DirOk dir
  used : ∀ pos b, v.Holds dir pos b → b ∈ v.busy ∧ ¬ v.layout.Reserved b
  inj : ∀ pos pos' b, v.Holds dir pos b → v.Holds dir pos' b → pos = pos'

theorem WfFrom.tidy (hw : v.Wf) {d : Nat} (hr : v.Reach {2} d) (hi : v.inode d = some dir)
    (hd : isDirMode dir = true) : v.Tidy dir where
  dirOk := hw.dirs d dir hr hi hd
  used pos b hb := hw.busy d pos b hr ⟨dir, hi, Or.inr hd, hb⟩
  inj pos pos' b hb hb' :=
    (hw.unique d d pos pos' b hr hr ⟨dir, hi, Or.inr hd, hb⟩ ⟨dir, hi, Or.inr hd, hb'⟩).2

/-- The blocks behind the indirect block. -/
def pointerBlocks (v : Vol) (i : Bytes) : List Nat :=
  ((List.range v.pointers).map fun k => v.blockAt i (13 + k)).takeWhile (· ≠ 0)

theorem blocks_eq_append (v : Vol) (i : Bytes) :
    v.blocks i = directBlocks i ++ v.pointerBlocks i := by
  have hmap : (List.range 12).map (v.blockAt i) = direct.map (iBlock i) := by
    refine List.map_congr_left fun k hk => blockAt_direct ?_
    have hlt := List.mem_range.1 hk
    omega
  unfold blocks
  rw [hmap]
  rfl

theorem pointerBlocks_eq_nil (v : Vol) {i : Bytes} (h : iBlock i 12 = 0) :
    v.pointerBlocks i = [] := by
  unfold pointerBlocks
  simp only [blockAt_noPointer _ h]
  cases v.pointers with
  | zero => rfl
  | succ n => simp [List.range_succ_eq_map]

/-- A direct block is at its position. -/
theorem holds_of_mem_directBlocks (v : Vol) {i : Bytes} {b : Nat} (h : b ∈ directBlocks i) :
    ∃ pos < (directBlocks i).length, v.Holds i pos b := by
  have hne := ne_zero_of_mem_directBlocks h
  have hlen := length_directBlocks i
  rw [directBlocks_eq_range i] at h
  obtain ⟨pos, hpos, rfl⟩ := List.mem_map.1 h
  have hlt := List.mem_range.1 hpos
  exact ⟨pos, hlt, by omega, blockAt_direct (by omega), hne⟩

theorem blocks_sublist (v : Vol) (i : Bytes) :
    (v.blocks i).Sublist ((v.heldPositions i).map (v.blockAt i)) := by
  have hpointers : v.pointerBlocks i =
      (((List.range v.pointers).takeWhile fun k => v.blockAt i (13 + k) ≠ 0).map (13 + ·)).map
        (v.blockAt i) := by
    unfold pointerBlocks
    rw [List.map_map, List.takeWhile_map]
    rfl
  rw [blocks_eq_append, v.directBlocks_eq, hpointers, heldPositions, List.map_append,
    List.map_append]
  exact (List.Sublist.refl _).append (List.sublist_append_left _ _)

namespace Tidy

variable (h : v.Tidy dir)

include h

theorem dataOk : v.DataOk dir := fun pos b hb => (h.used pos b hb).2

theorem agree (hagree : Agree v w dir) (hbusy : ∀ pos b, v.Holds dir pos b → b ∈ w.busy) :
    w.Tidy dir where
  dirOk := hagree.dirOk h.dirOk
  used pos b hb := by
    have hold := (hagree.holds_iff pos b).1 hb
    rw [hagree.layout]
    exact ⟨hbusy pos b hold, (h.used pos b hold).2⟩
  inj pos pos' b hb hb' :=
    h.inj pos pos' b ((hagree.holds_iff pos b).1 hb) ((hagree.holds_iff pos' b).1 hb')

theorem nodup_blocks : (v.blocks dir).Nodup := by
  refine (v.blocks_sublist dir).nodup ((v.nodup_heldPositions dir).map_on ?_)
  intro pos hpos pos' hpos' heq
  have hold := holds_of_mem_heldPositions hpos
  have hold' := holds_of_mem_heldPositions hpos'
  exact h.inj pos pos' _ hold (heq ▸ hold')

theorem directBlocks_used {b : Nat} (hb : b ∈ directBlocks dir) :
    b ∈ v.busy ∧ ¬ v.layout.Reserved b := by
  obtain ⟨pos, -, hpos⟩ := v.holds_of_mem_directBlocks hb
  exact h.used pos b hpos

/-- A direct block is not the indirect block. -/
theorem ne_indirect {b : Nat} (hb : b ∈ directBlocks dir) (h0 : iBlock dir 12 ≠ 0) :
    iBlock dir 12 ≠ b := by
  rintro rfl
  have hlen := length_directBlocks dir
  obtain ⟨pos, hlt, hpos⟩ := v.holds_of_mem_directBlocks hb
  have heq := h.inj pos 12 _ hpos ⟨by omega, blockAt_direct le_rfl, h0⟩
  omega

/-- Writing a direct block does not move the blocks. -/
theorem blockAt_put {b : Nat} (hb : b ∈ directBlocks dir) (page : Bytes) (pos : Nat) :
    (v.put b page).blockAt dir pos = v.blockAt dir pos := by
  unfold blockAt
  split
  · rfl
  · split
    · rfl
    · rename_i h0
      rw [put_data_ne page (h.ne_indirect hb h0)]

theorem blocks_put {b : Nat} (hb : b ∈ directBlocks dir) (page : Bytes) :
    (v.put b page).blocks dir = v.blocks dir := by
  unfold blocks
  rw [funext (h.blockAt_put hb page)]
  rfl

theorem dirOk_put {b : Nat} (hb : b ∈ directBlocks dir) {page : Bytes}
    (hpage : RecordsFrom page v.size 0) : (v.put b page).DirOk dir where
  noHole := h.dirOk.noHole
  records c hc := by
    rw [h.blocks_put hb] at hc
    by_cases hcb : c = b
    · rw [hcb, put_data_self]
      exact hpage
    · rw [put_data_ne page hcb]
      exact h.dirOk.records c hc

end Tidy

/-! ### One entry more -/

/-- The directory `dir` of the inode `d` got an entry and the blocks `gs`, at most one. -/
structure Added (v w : Vol) (d : Nat) (dir dir' : Bytes) (name : List UInt8) (ino : Nat)
    (gs : List Nat) : Prop where
  layout : w.layout = v.layout
  taken : w.taken = v.taken
  busy : w.busy = v.busy ∪ {b | b ∈ gs}
  gained : gs = [] ∨ ∃ b, gs = [b] ∧ v.Free b
  self : w.inode d = some dir'
  others : ∀ x, x ≠ d → w.inode x = v.inode x
  mode : iMode dir' = iMode dir
  direct : directBlocks dir' = directBlocks dir ++ gs
  data : ∀ b, b ∉ directBlocks dir → b ∉ gs → w.data b = v.data b
  holds : ∀ pos b, w.Holds dir' pos b →
    v.Holds dir pos b ∨ (pos = (directBlocks dir).length ∧ b ∈ gs)
  dirOk : w.DirOk dir'
  entries : ∃ l l', v.entries dir = l ++ l' ∧ w.entries dir' = l ++ (name, ino) :: l'

/-- A block with room gets the entry. -/
theorem Tidy.added_room (h : v.Tidy dir) {d b p ino : Nat} {name : List UInt8} (ftype : Nat)
    (hdir : v.inode d = some dir) (hsize : v.size ≤ 4096) (hb : b ∈ directBlocks dir)
    (hp : p ∈ chainAt (v.data b) v.size 0) (hname : name.length ≤ 255) (h0 : ino ≠ 0)
    (hino : ino < 2 ^ 32) (hslack : entrySize name.length ≤ slack (v.data b) p) :
    v.Added (v.put b (insertAt (v.data b) p ino ftype name)) d dir dir name ino [] := by
  have hmem : b ∈ v.blocks dir := by
    rw [blocks_eq_append]
    exact List.mem_append_left _ hb
  have hrecords : RecordsFrom (v.data b) v.size 0 := h.dirOk.records b hmem
  obtain ⟨-, hpage⟩ := liveFrom_insertAt ftype hsize hp hrecords hname h0 hino hslack
  refine ⟨rfl, rfl, by simp [put], Or.inl rfl, hdir, fun _ _ => rfl, rfl,
    (List.append_nil _).symm, fun c hc _ => ?_, fun pos c hc => ?_, h.dirOk_put hb hpage, ?_⟩
  · exact put_data_ne _ fun hcb => hc (hcb ▸ hb)
  · obtain ⟨hpos, hat, hne⟩ := hc
    exact Or.inl ⟨hpos, (h.blockAt_put hb _ pos).symm.trans hat, hne⟩
  · rw [entries_eq_entriesOf, entries_eq_entriesOf, h.blocks_put hb]
    exact entriesOf_insertAt hmem h.nodup_blocks hsize hrecords ftype hp hname h0 hino hslack

/-- A new block with the entry is added. -/
theorem Tidy.added_grow (h : v.Tidy dir) {d b ino : Nat} {dir' page : Bytes} {name : List UInt8}
    (hlen : (directBlocks dir).length < 12) (hb : v.Free b) (hmode : iMode dir' = iMode dir)
    (hblock : ∀ j ≤ 12, iBlock dir' j =
      if j = (directBlocks dir).length then b else iBlock dir j)
    (hlive : liveFrom page v.size 0 = [(name, ino)]) (hpage : RecordsFrom page v.size 0) :
    v.Added (((v.take b).put b page).setInode d dir') d dir dir' name ino [b] := by
  have hb0 := hb.ne_zero
  have hend : ∀ k, (directBlocks dir).length < k → k ≤ 12 → iBlock dir k = 0 := fun k hlt hk =>
    h.dirOk.noHole _ k hlt hk (iBlock_length_directBlocks hlen)
  have hdirect := directBlocks_append hb0 hlen (fun k hlt hk => hend k hlt (by omega)) hblock
  have hold12 := hend 12 hlen le_rfl
  have h12 : iBlock dir' 12 = 0 := by rw [hblock 12 le_rfl, if_neg (by omega), hold12]
  have hnot : b ∉ directBlocks dir := fun hmem => hb.notBusy (h.directBlocks_used hmem).1
  have hblocks : v.blocks dir = directBlocks dir := by
    rw [blocks_eq_append, v.pointerBlocks_eq_nil hold12, List.append_nil]
  have hself : (((v.take b).put b page).setInode d dir').data b = page :=
    Function.update_self _ _ _
  have hne : ∀ c, c ≠ b → (((v.take b).put b page).setInode d dir').data c = v.data c :=
    fun c hc => Function.update_of_ne hc _ _
  refine ⟨rfl, rfl, ?_, Or.inr ⟨b, rfl, hb⟩, setInode_self _ _, fun x hx => setInode_ne _ hx, hmode,
    hdirect, fun c _ hc => hne c (by simpa using hc), fun pos c hc => ?_, ⟨fun k k' hlt hk' hk => ?_, ?_⟩, ?_⟩
  · exact (Set.union_comm _ _).trans (by rw [show {c | c ∈ [b]} = {b} by ext; simp]; rfl)
  · obtain ⟨hpos, hat, hc0⟩ := hc
    by_cases h12' : pos ≤ 12
    · rw [blockAt_direct h12', hblock pos h12'] at hat
      split at hat
      · rename_i hpos'
        exact Or.inr ⟨hpos', by simp [hat]⟩
      · exact Or.inl ⟨hpos, (blockAt_direct h12').trans hat, hc0⟩
    · obtain ⟨k, rfl⟩ : ∃ k, pos = 13 + k := ⟨pos - 13, by omega⟩
      rw [blockAt_noPointer k h12] at hat
      exact absurd hat.symm hc0
  · rw [hblock k (by omega)] at hk
    split at hk
    · exact absurd hk hb0
    · have hge : (directBlocks dir).length < k := by
        by_contra hc
        exact iBlock_ne_zero_of_lt (by omega) hk
      rw [hblock k' hk', if_neg (by omega)]
      exact hend k' (by omega) hk'
  · intro c hc
    rw [blocks_eq_append, pointerBlocks_eq_nil _ h12, List.append_nil, hdirect] at hc
    rcases List.mem_append.1 hc with hc | hc
    · rw [hne c (ne_of_mem_of_not_mem hc hnot)]
      exact h.dirOk.records c (by rwa [hblocks])
    · rw [List.mem_singleton.1 hc, hself]
      exact hpage
  · refine ⟨v.entries dir, [], (List.append_nil _).symm, ?_⟩
    rw [entries_eq_entriesOf, entries_eq_entriesOf, hblocks, blocks_eq_append,
      pointerBlocks_eq_nil _ h12, List.append_nil, hdirect, entriesOf_append]
    congr 1
    · exact entriesOf_congr rfl fun c hc => hne c (ne_of_mem_of_not_mem hc hnot)
    · refine (List.flatMap_singleton _ _).trans ?_
      exact (congrArg (liveFrom · v.size 0) hself).trans hlive

/-! ### One entry less -/

/-- The first entry of a name is taken out of the directory. -/
structure Removed (v w : Vol) (dir : Bytes) (name : List UInt8) : Prop where
  put : ∃ b ∈ directBlocks dir, ∃ page, w = v.put b page
  holds : ∀ pos b, w.Holds dir pos b → v.Holds dir pos b
  dirOk : w.DirOk dir
  entries : ∃ l l' ino, v.entries dir = l ++ (name, ino) :: l' ∧ w.entries dir = l ++ l'

theorem Tidy.removed (h : v.Tidy dir) {b p : Nat} (hb : b ∈ directBlocks dir)
    (hp : p ∈ chainAt (v.data b) v.size 0) (hlive : deInode (v.data b) p ≠ 0) :
    v.Removed (v.put b (put32 (v.data b) p 0)) dir (deName (v.data b) p) := by
  have hmem : b ∈ v.blocks dir := by
    rw [blocks_eq_append]
    exact List.mem_append_left _ hb
  have hrecords : RecordsFrom (v.data b) v.size 0 := h.dirOk.records b hmem
  obtain ⟨-, hpage⟩ := liveFrom_remove hp hrecords hlive
  refine ⟨⟨b, hb, _, rfl⟩, fun pos c hc => ?_, h.dirOk_put hb hpage, ?_⟩
  · obtain ⟨hpos, hat, hne⟩ := hc
    exact ⟨hpos, (h.blockAt_put hb _ pos).symm.trans hat, hne⟩
  · obtain ⟨l, l', hold, hnew⟩ := entriesOf_remove hmem h.nodup_blocks hrecords hp hlive
    refine ⟨l, l', _, hold, ?_⟩
    rw [entries_eq_entriesOf, h.blocks_put hb]
    exact hnew

end Vol

/-! ### The calls -/

theorem iMode_grownInode (s : Fs) (dir : Bytes) (k b : Nat) :
    iMode (grownInode s dir k b) = iMode dir := by
  have hslice : ∀ i : Bytes, iMode (slice i 0 inodeBytes) = iMode i := fun _ => rfl
  unfold grownInode
  rw [hslice]
  unfold iMode setSize setBlocks
  rw [le16_put32_ne _ _ (by omega), le16_put32_ne _ _ (by omega)]
  exact iMode_setBlock dir k b

section Calls

variable (h : s.Ok) {d : Nat} {dir : Bytes} (hdir : s.vol.inode d = some dir)
  (htidy : s.vol.Tidy dir)

include h hdir htidy

theorem addDirent_added (hsuper : s.vol.layout.ApartFromSuper) {name : List UInt8}
    {ino ftype : Nat} (hname : name.length ≤ 255) (h0 : ino ≠ 0) (hino : ino < 2 ^ 32)
    (hdone : (addDirent s d name ino ftype).1 = true) :
    s.Turns (addDirent s d name ino ftype).2 (addDirent s d name ino ftype).2.vol ∧
      ∃ dir' gs, s.vol.Added (addDirent s d name ino ftype).2.vol d dir dir' name ino gs := by
  have hsize' : s.vol.size = 1024 ∨ s.vol.size = 2048 ∨ s.vol.size = 4096 :=
    h.sound.layout.size
  have hsize : 1024 ≤ s.vol.size ∧ s.vol.size ≤ 4096 := by omega
  cases hroom : findRoom s.img (entrySize name.length) (directBlocks dir) with
  | some bp =>
      obtain ⟨b, p⟩ := bp
      obtain ⟨hb, hslot⟩ := findRoom_some hroom
      have hres := (htidy.directBlocks_used hb).2
      have hdata : s.vol.data b = s.img.disk b := Img.data_of_not_reserved hres
      obtain ⟨-, hturn⟩ := addDirent_room h hdir name ino ftype hroom hres
      rw [← hdata] at hslot hturn
      obtain ⟨hp, hslack⟩ := findSlot_some hslot
      refine ⟨⟨hturn.ok, rfl, hturn.keeps⟩, dir, [], ?_⟩
      rw [hturn.vol]
      exact htidy.added_room ftype hdir hsize.2 hb hp hname h0 hino hslack
  | none =>
      have hok : ¬ ((directBlocks dir).length = 12 ∨ s.vol.freeSet = ∅) := by
        intro hfull
        rw [(addDirent_full h hdir name ino ftype hsuper hroom hfull).1] at hdone
        cases hdone
      obtain ⟨hlen, hfree⟩ := not_or.1 hok
      have hlen' := length_directBlocks dir
      obtain ⟨-, b, page, hb, hturn⟩ :=
        addDirent_grow h hdir name ino ftype hsuper hroom hlen hfree
      obtain ⟨hlive, hpage⟩ := liveFrom_newDirBlock page hsize hname h0 hino
      refine ⟨⟨hturn.ok, rfl, hturn.keeps⟩, grownInode s dir (directBlocks dir).length b, [b], ?_⟩
      rw [hturn.vol]
      exact htidy.added_grow (by omega) hb (iMode_grownInode s dir _ b)
        (fun j => iBlock_grownInode s dir hb.small) hlive hpage

theorem removeDirent_removed {name : List UInt8} (hdone : (removeDirent s d name).1 = true) :
    s.Turns (removeDirent s d name).2 (removeDirent s d name).2.vol ∧
      s.vol.Removed (removeDirent s d name).2.vol dir name := by
  cases hfound : findEntry s.img name (directBlocks dir) with
  | none =>
      rw [(removeDirent_missing h hdir name hfound).1] at hdone
      cases hdone
  | some bp =>
      obtain ⟨b, p⟩ := bp
      obtain ⟨hb, hname⟩ := findEntry_some hfound
      have hres := (htidy.directBlocks_used hb).2
      have hdata : s.vol.data b = s.img.disk b := Img.data_of_not_reserved hres
      obtain ⟨-, hturn⟩ := removeDirent_found h hdir name hfound hres
      rw [← hdata] at hname hturn
      obtain ⟨hp, hlive, rfl⟩ := findName_some hname
      refine ⟨⟨hturn.ok, rfl, hturn.keeps⟩, ?_⟩
      rw [hturn.vol]
      exact htidy.removed hb hp hlive

end Calls

end FiFi.Ext2
