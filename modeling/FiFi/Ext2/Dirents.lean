import FiFi.Ext2.Records
import FiFi.Ext2.FirstFit
import FiFi.Ext2.Unchanged

/-!
# Adding and removing directory entries

`e2_add_dirent` and `e2_remove_dirent` search the direct blocks of an inode up to
the first that is missing. An entry goes into the first record with room, or into
a new block at the first missing position; an entry is removed by the inode
number in its record. If nothing is found, or no block is free, nothing is
written. Both take whatever inode they are given: it need not be a directory.
-/

namespace FiFi.Ext2

open ByteStore

variable {s t : Fs}

/-! ### The two searches -/

/-- The first of the blocks with room for an entry, and the record with the room. -/
def findRoom (m : Img) (needed : Nat) (bs : List Nat) : Option (Nat × Nat) :=
  bs.findSome? fun b => (findSlot (m.disk b) m.geo.blockSize needed).map (b, ·)

/-- The first of the blocks with an entry of a name, and its record. -/
def findEntry (m : Img) (name : List UInt8) (bs : List Nat) : Option (Nat × Nat) :=
  bs.findSome? fun b => (findName (m.disk b) m.geo.blockSize name).map (b, ·)

/-- A directory gets a new block with one entry at a position of its inode. -/
def growDir (s : Fs) (dirIno : Nat) (dir : Bytes) (name : List UInt8) (newIno ftype k : Nat) :
    Bool × Fs :=
  let r := allocBlock s
  if r.1 = 0 then (false, r.2)
  else
    let s := { r.2 with io := newDirBlock r.2.io r.2.blockSize newIno ftype name }
    let s := (writeBlock s r.1 s.io).2
    let dir := setBlock dir k r.1
    let dir := setBlocks dir (iBlocks dir + s.blockSize / 512)
    let dir := setSize dir (iSize dir + s.blockSize)
    writeInode s dirIno dir

theorem findRoom_cons (m : Img) (needed b : Nat) (bs : List Nat) : findRoom m needed (b :: bs) =
    match findSlot (m.disk b) m.geo.blockSize needed with
    | some p => some (b, p)
    | none => findRoom m needed bs := by
  unfold findRoom
  rw [List.findSome?_cons]
  cases findSlot (m.disk b) m.geo.blockSize needed <;> rfl

theorem findEntry_cons (m : Img) (name : List UInt8) (b : Nat) (bs : List Nat) :
    findEntry m name (b :: bs) =
      match findName (m.disk b) m.geo.blockSize name with
      | some p => some (b, p)
      | none => findEntry m name bs := by
  unfold findEntry
  rw [List.findSome?_cons]
  cases findName (m.disk b) m.geo.blockSize name <;> rfl

theorem addDirentIn_eq (n a : Nat) (s : Fs) (dirIno : Nat) (dir : Bytes) (name : List UInt8)
    (newIno ftype : Nat) {bs : List Nat}
    (hbs : ((List.range' a n).map (iBlock dir)).takeWhile (· ≠ 0) = bs) :
    ∃ s', s.Reads s' ∧
      addDirentIn s dirIno dir name newIno ftype (List.range' a n) =
        match findRoom s.img (entrySize name.length) bs with
        | some (b, p) =>
            writeBlock { s' with io := insertAt (s.img.disk b) p newIno ftype name } b
              (insertAt (s.img.disk b) p newIno ftype name)
        | none =>
            if bs.length = n then (false, s')
            else growDir s' dirIno dir name newIno ftype (a + bs.length) := by
  induction n generalizing a s bs with
  | zero =>
      obtain rfl : [] = bs := hbs
      exact ⟨s, .refl, rfl⟩
  | succ n ih =>
      rw [List.range'_succ, List.map_cons] at hbs
      rw [List.range'_succ]
      by_cases h0 : iBlock dir a = 0
      · rw [List.takeWhile_cons_of_neg (by simp [h0])] at hbs
        obtain rfl : [] = bs := hbs
        refine ⟨s, .refl, ?_⟩
        simp only [addDirentIn, if_pos h0]
        rfl
      · rw [List.takeWhile_cons_of_pos (by simp [h0])] at hbs
        obtain rfl := hbs
        simp only [addDirentIn, if_neg h0, findRoom_cons, Fs.blockSize]
        cases hslot : findSlot (s.img.disk (iBlock dir a)) s.img.geo.blockSize
            (entrySize name.length) with
        | some p => exact ⟨s, .refl, rfl⟩
        | none =>
            obtain ⟨s', hreads, heq⟩ :=
              ih (a + 1) { s with io := s.img.disk (iBlock dir a) } rfl
            refine ⟨s', ⟨hreads.ready, hreads.img⟩, heq.trans ?_⟩
            generalize ((List.range' (a + 1) n).map (iBlock dir)).takeWhile (· ≠ 0) = bs
            have hpos : a + (bs.length + 1) = a + 1 + bs.length := by omega
            simp only [List.length_cons, Nat.add_right_cancel_iff, hpos]

/-- What `e2_add_dirent` does to an inode. -/
theorem addDirent_eq (h : s.Ok) {d : Nat} {dir : Bytes} (hdir : s.vol.inode d = some dir)
    (name : List UInt8) (newIno ftype : Nat) :
    ∃ s', s.Reads s' ∧ addDirent s d name newIno ftype =
      match findRoom s.img (entrySize name.length) (directBlocks dir) with
      | some (b, p) =>
          writeBlock { s' with io := insertAt (s.img.disk b) p newIno ftype name } b
            (insertAt (s.img.disk b) p newIno ftype name)
      | none =>
          if (directBlocks dir).length = 12 then (false, s')
          else growDir s' d dir name newIno ftype (directBlocks dir).length := by
  have hreads := readInode_reads s d
  have hread := readInode_eq h d
  rw [hdir] at hread
  unfold addDirent
  generalize readInode s d = r at hreads hread
  obtain ⟨o, t⟩ := r
  obtain rfl : o = some dir := hread
  dsimp only at hreads ⊢
  obtain ⟨s', hreads', heq⟩ := addDirentIn_eq 12 0 t d dir name newIno ftype
    (show _ = directBlocks dir from rfl)
  refine ⟨s', hreads.trans hreads', ?_⟩
  rw [hreads.img, Nat.zero_add] at heq
  exact heq

theorem removeDirentIn_eq (ks : List Nat) (s : Fs) (dir : Bytes) (name : List UInt8)
    {bs : List Nat} (hbs : (ks.map (iBlock dir)).takeWhile (· ≠ 0) = bs) :
    ∃ s', s.Reads s' ∧ removeDirentIn s dir name ks =
      match findEntry s.img name bs with
      | some (b, p) =>
          writeBlock { s' with io := put32 (s.img.disk b) p 0 } b (put32 (s.img.disk b) p 0)
      | none => (false, s') := by
  induction ks generalizing s bs with
  | nil =>
      obtain rfl : [] = bs := hbs
      exact ⟨s, .refl, rfl⟩
  | cons a ks ih =>
      rw [List.map_cons] at hbs
      by_cases h0 : iBlock dir a = 0
      · rw [List.takeWhile_cons_of_neg (by simp [h0])] at hbs
        obtain rfl : [] = bs := hbs
        refine ⟨s, .refl, ?_⟩
        simp only [removeDirentIn, if_pos h0]
        rfl
      · rw [List.takeWhile_cons_of_pos (by simp [h0])] at hbs
        obtain rfl := hbs
        simp only [removeDirentIn, if_neg h0, findEntry_cons, Fs.blockSize]
        cases hname : findName (s.img.disk (iBlock dir a)) s.img.geo.blockSize name with
        | some p => exact ⟨s, .refl, rfl⟩
        | none =>
            obtain ⟨s', hreads, heq⟩ := ih { s with io := s.img.disk (iBlock dir a) } rfl
            exact ⟨s', ⟨hreads.ready, hreads.img⟩, heq⟩

/-- What `e2_remove_dirent` does to an inode. -/
theorem removeDirent_eq (h : s.Ok) {d : Nat} {dir : Bytes} (hdir : s.vol.inode d = some dir)
    (name : List UInt8) :
    ∃ s', s.Reads s' ∧ removeDirent s d name =
      match findEntry s.img name (directBlocks dir) with
      | some (b, p) =>
          writeBlock { s' with io := put32 (s.img.disk b) p 0 } b (put32 (s.img.disk b) p 0)
      | none => (false, s') := by
  have hreads := readInode_reads s d
  have hread := readInode_eq h d
  rw [hdir] at hread
  unfold removeDirent
  generalize readInode s d = r at hreads hread
  obtain ⟨o, t⟩ := r
  obtain rfl : o = some dir := hread
  dsimp only at hreads ⊢
  obtain ⟨s', hreads', heq⟩ := removeDirentIn_eq direct t dir name
    (show _ = directBlocks dir from rfl)
  refine ⟨s', hreads.trans hreads', ?_⟩
  rw [hreads.img] at heq
  exact heq

/-! ### A new block for a directory -/

/-- The inode of a directory with a block more. -/
def grownInode (s : Fs) (dir : Bytes) (k blk : Nat) : Bytes :=
  let dir := setBlock dir k blk
  let dir := setBlocks dir (iBlocks dir + s.blockSize / 512)
  slice (setSize dir (iSize dir + s.blockSize)) 0 inodeBytes

/-- A directory gets a block only if one is free; then nothing else fails. -/
theorem growDir_spec (h : s.Ok) (hsuper : s.vol.layout.ApartFromSuper) {d : Nat} {dir : Bytes}
    (hdir : s.vol.inode d = some dir) (name : List UInt8) (newIno ftype k : Nat) :
    s.Keeps (growDir s d dir name newIno ftype k).2 ∧
      (((allocBlock s).1 = 0 ∧ (growDir s d dir name newIno ftype k).1 = false ∧
          s.Becomes (growDir s d dir name newIno ftype k).2 s.vol) ∨
        (allocBlock s).1 ≠ 0 ∧ ∃ b page, s.vol.Free b ∧
          (growDir s d dir name newIno ftype k).1 = true ∧
          s.Becomes (growDir s d dir name newIno ftype k).2
            (((s.vol.take b).put b (newDirBlock page s.blockSize newIno ftype name)).setInode d
              (grownInode s dir k b))) := by
  unfold growDir
  have hkeep := allocBlock_keeps h hsuper
  rcases allocBlock_spec h with ⟨h0, hb⟩ | ⟨hfree, hb⟩
  · simp only [if_pos h0]
    exact ⟨hkeep, Or.inl ⟨h0, trivial, hb⟩⟩
  · generalize allocBlock s = r at hfree hb hkeep ⊢
    have hne : r.1 ≠ 0 := hfree.ne_zero
    have hsize : r.2.blockSize = s.blockSize := hkeep.blockSize
    simp only [if_neg hne]
    generalize hpage : newDirBlock r.2.io r.2.blockSize newIno ftype name = page
    have hok : ({ r.2 with io := page } : Fs).Ok := ⟨hb.ok.ready, hb.ok.sound⟩
    have hres : ¬ r.2.vol.layout.Reserved r.1 := by
      rw [hb.vol]
      exact hfree.notReserved
    obtain ⟨-, hput⟩ := writeBlock_spec hok hres page
    have hkeep' := writeBlock_keeps (s := { r.2 with io := page }) (b := r.1)
      (fun heq => hres (Or.inr (Or.inl heq))) page
    generalize (writeBlock { r.2 with io := page } r.1 page).2 = u at hput hkeep' ⊢
    have hu : u.vol = (s.vol.take r.1).put r.1 page := by
      rw [hput.vol]
      exact congrArg (fun v : Vol => v.put r.1 page) hb.vol
    have hdir' : u.vol.inode d = some dir := by
      rw [hu]
      exact hdir
    have husize : u.blockSize = s.blockSize := hkeep'.blockSize.trans hsize
    have hinode := writeInode_spec hput.ok hdir'
    have hkeep'' := writeInode_keeps hput.ok (by rw [hu]; exact hsuper) hdir'
    refine ⟨(hkeep.trans ⟨hkeep'.geo, hkeep'.super, hkeep'.tail⟩).trans (hkeep'' _), Or.inr ?_⟩
    refine ⟨hne, r.1, r.2.io, hfree, (hinode _).1, (hinode _).2.ok, ?_, ?_⟩
    · rw [(hinode _).2.vol, hu, ← hpage, hsize]
      unfold grownInode
      rw [husize]
    · exact ((hinode _).2.ind.trans hput.ind).trans hb.ind

/-! ### The two calls -/

theorem findRoom_some {m : Img} {needed b p : Nat} {bs : List Nat}
    (h : findRoom m needed bs = some (b, p)) :
    b ∈ bs ∧ findSlot (m.disk b) m.geo.blockSize needed = some p := by
  obtain ⟨c, hc, heq⟩ := List.exists_of_findSome?_eq_some h
  obtain ⟨q, hq, hpair⟩ := Option.map_eq_some_iff.1 heq
  obtain ⟨rfl, rfl⟩ := Prod.mk.inj hpair
  exact ⟨hc, hq⟩

theorem findEntry_some {m : Img} {name : List UInt8} {b p : Nat} {bs : List Nat}
    (h : findEntry m name bs = some (b, p)) :
    b ∈ bs ∧ findName (m.disk b) m.geo.blockSize name = some p := by
  obtain ⟨c, hc, heq⟩ := List.exists_of_findSome?_eq_some h
  obtain ⟨q, hq, hpair⟩ := Option.map_eq_some_iff.1 heq
  obtain ⟨rfl, rfl⟩ := Prod.mk.inj hpair
  exact ⟨hc, hq⟩

theorem ne_zero_of_mem_directBlocks {i : Bytes} {b : Nat} (h : b ∈ directBlocks i) : b ≠ 0 := by
  simpa using List.mem_takeWhile_imp h

section Calls

variable (h : s.Ok) {d : Nat} {dir : Bytes} (hdir : s.vol.inode d = some dir)
  (name : List UInt8) (newIno ftype : Nat)

include h hdir

theorem addDirent_room {b p : Nat}
    (hroom : findRoom s.img (entrySize name.length) (directBlocks dir) = some (b, p))
    (hres : ¬ s.vol.layout.Reserved b) :
    (addDirent s d name newIno ftype).1 = true ∧
      s.Turns (addDirent s d name newIno ftype).2
        (s.vol.put b (insertAt (s.img.disk b) p newIno ftype name)) := by
  obtain ⟨s', hreads, heq⟩ := addDirent_eq h hdir name newIno ftype
  rw [hroom] at heq
  have hreads' : s.Reads { s' with io := insertAt (s.img.disk b) p newIno ftype name } :=
    ⟨hreads.ready, hreads.img⟩
  have hres' : ¬ s'.vol.layout.Reserved b := by
    rw [hreads.vol]
    exact hres
  obtain ⟨hdone, hput⟩ := writeBlock_spec (hreads'.ok h) hres'
    (insertAt (s.img.disk b) p newIno ftype name)
  have hkeep := writeBlock_keeps (s := { s' with io := insertAt (s.img.disk b) p newIno ftype name })
    (b := b) (fun hsuper => hres' (Or.inr (Or.inl hsuper)))
    (insertAt (s.img.disk b) p newIno ftype name)
  rw [heq]
  refine ⟨hdone, hput.ok, ?_, hreads'.keeps.trans hkeep⟩
  rw [hput.vol, hreads'.vol]

/-- There is no room, and the inode gets a new block. -/
theorem addDirent_grow (hsuper : s.vol.layout.ApartFromSuper)
    (hroom : findRoom s.img (entrySize name.length) (directBlocks dir) = none)
    (hlen : (directBlocks dir).length ≠ 12) (hfree : s.vol.freeSet ≠ ∅) :
    (addDirent s d name newIno ftype).1 = true ∧
      ∃ b page, s.vol.Free b ∧ s.Turns (addDirent s d name newIno ftype).2
        (((s.vol.take b).put b (newDirBlock page s.blockSize newIno ftype name)).setInode d
          (grownInode s dir (directBlocks dir).length b)) := by
  obtain ⟨s', hreads, heq⟩ := addDirent_eq h hdir name newIno ftype
  rw [hroom] at heq
  simp only [if_neg hlen] at heq
  have hsize : s'.blockSize = s.blockSize := congrArg (fun m : Img => m.geo.blockSize) hreads.img
  rw [heq]
  obtain ⟨hkeep, hcase⟩ := growDir_spec (hreads.ok h) (by rw [hreads.vol]; exact hsuper)
    (by rw [hreads.vol]; exact hdir) name newIno ftype (directBlocks dir).length
  rcases hcase with ⟨h0, -⟩ | ⟨-, b, page, hb, hdone, hturn⟩
  · rw [allocBlock_eq_zero (hreads.ok h), hreads.vol] at h0
    exact absurd h0 hfree
  · rw [hreads.vol] at hb hturn
    refine ⟨hdone, b, page, hb, hturn.ok, ?_, hreads.keeps.trans hkeep⟩
    rw [hturn.vol, hsize]
    unfold grownInode
    rw [hsize]

/-- There is no room and no block for more: nothing is written. -/
theorem addDirent_full (hsuper : s.vol.layout.ApartFromSuper)
    (hroom : findRoom s.img (entrySize name.length) (directBlocks dir) = none)
    (hfull : (directBlocks dir).length = 12 ∨ s.vol.freeSet = ∅) :
    (addDirent s d name newIno ftype).1 = false ∧
      s.Turns (addDirent s d name newIno ftype).2 s.vol := by
  obtain ⟨s', hreads, heq⟩ := addDirent_eq h hdir name newIno ftype
  rw [hroom] at heq
  rw [heq]
  dsimp only
  split
  · exact ⟨rfl, hreads.turns h⟩
  · rename_i hlen
    obtain ⟨hkeep, hcase⟩ := growDir_spec (hreads.ok h) (by rw [hreads.vol]; exact hsuper)
      (by rw [hreads.vol]; exact hdir) name newIno ftype (directBlocks dir).length
    have h0 : (allocBlock s').1 = 0 := by
      rw [allocBlock_eq_zero (hreads.ok h), hreads.vol]
      exact hfull.resolve_left hlen
    rcases hcase with ⟨-, hfail, hturn⟩ | ⟨hne, -⟩
    · refine ⟨hfail, hturn.ok, ?_, hreads.keeps.trans hkeep⟩
      rw [hturn.vol, hreads.vol]
    · exact absurd h0 hne

/-- When `e2_add_dirent` fails. -/
theorem addDirent_eq_false_iff (hsuper : s.vol.layout.ApartFromSuper) :
    (addDirent s d name newIno ftype).1 = false ↔
      findRoom s.img (entrySize name.length) (directBlocks dir) = none ∧
        ((directBlocks dir).length = 12 ∨ s.vol.freeSet = ∅) := by
  cases hroom : findRoom s.img (entrySize name.length) (directBlocks dir) with
  | some bp =>
      obtain ⟨b, p⟩ := bp
      obtain ⟨s', hreads, heq⟩ := addDirent_eq h hdir name newIno ftype
      rw [hroom] at heq
      have hne := ne_zero_of_mem_directBlocks (findRoom_some hroom).1
      rw [heq]
      simp [writeBlock, hne]
  | none =>
      by_cases hfull : (directBlocks dir).length = 12 ∨ s.vol.freeSet = ∅
      · exact iff_of_true (addDirent_full h hdir name newIno ftype hsuper hroom hfull).1
          ⟨rfl, hfull⟩
      · obtain ⟨hlen, hfree⟩ := not_or.1 hfull
        have hdone := (addDirent_grow h hdir name newIno ftype hsuper hroom hlen hfree).1
        exact iff_of_false (by simp [hdone]) fun hc => hfull hc.2

/-- What fails has written nothing. -/
theorem addDirent_fails (hsuper : s.vol.layout.ApartFromSuper)
    (hfail : (addDirent s d name newIno ftype).1 = false) :
    s.Turns (addDirent s d name newIno ftype).2 s.vol := by
  obtain ⟨hroom, hfull⟩ := (addDirent_eq_false_iff h hdir name newIno ftype hsuper).1 hfail
  exact (addDirent_full h hdir name newIno ftype hsuper hroom hfull).2

theorem removeDirent_found {b p : Nat}
    (hfound : findEntry s.img name (directBlocks dir) = some (b, p))
    (hres : ¬ s.vol.layout.Reserved b) :
    (removeDirent s d name).1 = true ∧
      s.Turns (removeDirent s d name).2 (s.vol.put b (put32 (s.img.disk b) p 0)) := by
  obtain ⟨s', hreads, heq⟩ := removeDirent_eq h hdir name
  rw [hfound] at heq
  have hreads' : s.Reads { s' with io := put32 (s.img.disk b) p 0 } := ⟨hreads.ready, hreads.img⟩
  have hres' : ¬ s'.vol.layout.Reserved b := by
    rw [hreads.vol]
    exact hres
  obtain ⟨hdone, hput⟩ := writeBlock_spec (hreads'.ok h) hres' (put32 (s.img.disk b) p 0)
  have hkeep := writeBlock_keeps (s := { s' with io := put32 (s.img.disk b) p 0 })
    (b := b) (fun hsuper => hres' (Or.inr (Or.inl hsuper))) (put32 (s.img.disk b) p 0)
  rw [heq]
  refine ⟨hdone, hput.ok, ?_, hreads'.keeps.trans hkeep⟩
  rw [hput.vol, hreads'.vol]

theorem removeDirent_missing (hmissing : findEntry s.img name (directBlocks dir) = none) :
    (removeDirent s d name).1 = false ∧ s.Turns (removeDirent s d name).2 s.vol := by
  obtain ⟨s', hreads, heq⟩ := removeDirent_eq h hdir name
  rw [hmissing] at heq
  rw [heq]
  exact ⟨rfl, hreads.turns h⟩

/-- `e2_remove_dirent` finds what it looks for or fails. -/
theorem removeDirent_eq_true_iff : (removeDirent s d name).1 = true ↔
    findEntry s.img name (directBlocks dir) ≠ none := by
  cases hfound : findEntry s.img name (directBlocks dir) with
  | none =>
      have hfail := (removeDirent_missing h hdir name hfound).1
      exact iff_of_false (by simp [hfail]) (by simp)
  | some bp =>
      obtain ⟨b, p⟩ := bp
      obtain ⟨s', hreads, heq⟩ := removeDirent_eq h hdir name
      rw [hfound] at heq
      have hne := ne_zero_of_mem_directBlocks (findEntry_some hfound).1
      rw [heq]
      simp [writeBlock, hne]

end Calls

end FiFi.Ext2
