import FiFi.Ext2.Frames

/-!
# A failed write

`ext2_write_file` gives back the blocks of a file before it takes new ones, and an
inode it took for a new file stays taken. If the blocks do not suffice, all of them
are in use afterwards and filled with the data, while the inode on the disk still
has the old ones. So nothing is lost only if no inode was free for a new file, or if
no block was free before and the file reads as it did.
-/

namespace FiFi.Ext2

open ByteStore

variable {s t : Fs}

/-! ### What is lost -/

/-- What could be read is read, and what was free is free. -/
structure Fs.NothingLost (s t : Fs) : Prop where
  space : s.SameSpace t
  read : ∀ path max l, (readFile s path max).1 = some l → (readFile t path max).1 = some l

/-- The blocks of a file in ascending order. -/
def sortedHeld (m : Img) (i : Bytes) : List Nat := (heldBlocks m i).insertionSort (· ≤ ·)

/-- The blocks of a file are filled with the data that is written. -/
def refilled (m : Img) (i : Bytes) (data : List UInt8) : Img :=
  { m with disk := refill m.geo.blockSize (sortedHeld m i) (m.geo.written data) m.disk }

/-- A new file gets no inode; a file that exists is the same when its blocks are filled,
and no others are free. -/
def WriteSafe (s : Fs) (path data : List UInt8) : Prop :=
  ∀ parent name, splitPath path = some (parent, name) → (resolve s parent).1 ≠ 0 →
    ((resolve s path).1 = 0 → s.vol.NoInode) ∧
    ∀ i, fileInode s path = some i → s.vol.freeSet = ∅ ∧
      fileBytes (refilled s.img i data) i (iSize i) = fileBytes s.img i (iSize i)

theorem Fs.Unchanged.nothingLost (h : s.Unchanged t) : s.NothingLost t :=
  ⟨h.space, fun path max _ hl => (h.files.read path max).trans hl⟩

/-! ### The file is overwritten -/

theorem storeFile_fails_framed (h : s.Ok) (hsuper : s.vol.layout.ApartFromSuper)
    {ino parentIno : Nat} {i₀ i : Bytes} (hino : s.vol.inode ino = some i₀)
    {name data : List UInt8} {now : Nat}
    (hfail : (storeFile s ino i false parentIno name data now).1 = false) :
    s.Framed (storeFile s ino i false parentIno name data now).2 := by
  unfold storeFile at hfail ⊢
  have hdirect := writeDirect_framed h i data direct
  obtain ⟨-, hsome⟩ := storeData_fails h hsuper (show writeDirect s i data direct = _ from rfl)
  generalize writeDirect s i data direct = r at hfail hdirect hsome ⊢
  obtain ⟨_ | ⟨i', rest⟩, u⟩ := r
  · exact hdirect
  · obtain ⟨⟨as, hgrow⟩, -⟩ := hsome i' rest rfl
    obtain ⟨bs, hgrow', -⟩ := writeIndirect_freeList hgrow.ok (hgrow.apart hsuper) i' rest
    have hind := writeIndirect_framed hgrow.ok i' rest
    dsimp only at hfail hdirect hind hgrow' ⊢
    generalize writeIndirect u i' rest = q at hfail hind hgrow' ⊢
    obtain ⟨_ | i'', w⟩ := q
    · exact hdirect.trans (hind rfl)
    · have hinode : w.vol.inode ino = some i₀ := by
        rw [(hgrow.trans hgrow').grown.inode]
        exact hino
      have hdone := (writeInode_spec hgrow'.ok hinode
        (stampFile (setSize i'' data.length) now false)).1
      dsimp only at hfail
      rw [hdone] at hfail
      simp at hfail

/-- The blocks of the file with the inode `i` were given back, and then all blocks that
were free were taken and filled. -/
structure Fs.Clobbers (s t : Fs) (i : Bytes) (data : List UInt8) : Prop where
  ok : t.Ok
  keeps : s.Keeps t
  frames : s.img.Frames t.img
  grown : (s.vol.giveAll (heldBlocks s.img i)).Grown t.vol
    (s.vol.giveAll (heldBlocks s.img i)).freeList
  full : t.vol.freeSet = ∅
  data : ∀ b, ∀ x < s.blockSize, t.vol.data b x =
    refill s.blockSize (s.vol.giveAll (heldBlocks s.img i)).freeList data s.vol.data b x

theorem overwriteIn_fails (h : s.Ok) (hsuper : s.vol.layout.ApartFromSuper) (hw : s.vol.Wf)
    {ino parentIno now : Nat} {i : Bytes} {name data : List UInt8} (hr : s.vol.Reach {2} ino)
    (hi : s.vol.inode ino = some i) (hf : isFileMode i = true)
    (hfail : (overwriteIn s ino i parentIno name data now).1 = false) :
    s.Clobbers (overwriteIn s ino i parentIno name data now).2 i data := by
  obtain ⟨hnodup, hheld⟩ := heldBlocks_spec hw hr hi hf
  have hbusy := fun b hb => (hheld b hb).2
  obtain ⟨hgive, -⟩ := freeFile_spec h hsuper hbusy hnodup
  have hframed := freeFile_framed h hsuper hbusy hnodup
  unfold overwriteIn at hfail ⊢
  dsimp only at hfail ⊢
  generalize freeIndirect (freeDirect s i direct).2 (freeDirect s i direct).1 = f
    at hgive hframed hfail ⊢
  have hsuper' : f.2.vol.layout.ApartFromSuper := by
    rw [hgive.vol]
    exact hsuper
  have hino : f.2.vol.inode ino = some i := by
    rw [hgive.vol]
    exact hi
  have hfill := storeFile_fails hgive.ok hsuper' hino hfail
  have hstore := storeFile_fails_framed hgive.ok hsuper' hino hfail
  have hgrown := hfill.grows.grown
  have hdata := hfill.data
  rw [hgive.vol] at hgrown hdata
  rw [hgive.keeps.blockSize] at hdata
  exact ⟨hfill.grows.ok, hgive.keeps.trans hfill.grows.keeps, hframed.frames.trans hstore.frames,
    hgrown, Vol.freeList_eq_nil.1 hfill.full, hdata⟩

theorem Vol.mem_freeList {v : Vol} {b : Nat} : b ∈ v.freeList ↔ b ∈ v.freeSet :=
  Finset.mem_sort _

/-- What is read depends on the bytes in the blocks only. -/
theorem fileBytes_congr {m n : Img} (hgeo : n.geo = m.geo)
    (h : ∀ b, ∀ x < m.geo.blockSize, n.disk b x = m.disk b x) (i : Bytes) (k : Nat) :
    fileBytes n i k = fileBytes m i k := by
  have hpointers : pointersOf n i = pointersOf m i := by
    unfold pointersOf
    rw [hgeo]
    split
    · rfl
    · refine List.map_congr_left fun j hj => ?_
      have hlt := List.mem_range.1 hj
      have hw : ∀ x, x < 4 → n.disk (iBlock i 12) (4 * j + x) = m.disk (iBlock i 12) (4 * j + x) :=
        fun x hx => h _ _ (by omega)
      simp only [le32, le16]
      rw [hw 1 (by omega), hw 2 (by omega), show 4 * j + 2 + 1 = 4 * j + 3 from rfl,
        hw 3 (by omega), show n.disk (iBlock i 12) (4 * j) = m.disk (iBlock i 12) (4 * j) from
          hw 0 (by omega)]
  unfold fileBytes bytesIn
  rw [hpointers, hgeo]
  congr 1
  refine List.flatMap_congr fun b _ => ?_
  refine List.map_congr_left fun x hx => ?_
  exact h b _ (by rw [Nat.zero_add]; exact List.mem_range.1 hx)

/-- The blocks that are free when those of a file were given back. -/
theorem mem_freeList_giveAll (hs : s.Ok) (hw : s.vol.Wf) {ino : Nat} {i : Bytes}
    (hr : s.vol.Reach {2} ino) (hi : s.vol.inode ino = some i) (hf : isFileMode i = true)
    {b : Nat} : b ∈ (s.vol.giveAll (heldBlocks s.img i)).freeList ↔
      b ∈ s.vol.freeSet ∨ b ∈ heldBlocks s.img i := by
  have hin : b ∈ heldBlocks s.img i → s.vol.layout.InGroups b := fun hb =>
    hs.inGroups ((heldBlocks_spec hw hr hi hf).2 b hb).2.1
  rw [Vol.mem_freeList, Vol.mem_freeSet, Vol.mem_freeSet]
  change s.vol.layout.InGroups b ∧ ¬ (b ∈ s.vol.busy ∧ b ∉ heldBlocks s.img i) ↔ _
  tauto

/-- If no block was free, these are the blocks of the file. -/
theorem freeList_giveAll_eq (hs : s.Ok) (hw : s.vol.Wf) {ino : Nat} {i : Bytes}
    (hr : s.vol.Reach {2} ino) (hi : s.vol.inode ino = some i) (hf : isFileMode i = true)
    (hfree : s.vol.freeSet = ∅) :
    (s.vol.giveAll (heldBlocks s.img i)).freeList = sortedHeld s.img i := by
  have hnodup : (sortedHeld s.img i).Nodup :=
    (List.perm_insertionSort _ _).nodup_iff.2 (heldBlocks_spec hw hr hi hf).1
  have hset : (s.vol.giveAll (heldBlocks s.img i)).freeSet = (sortedHeld s.img i).toFinset := by
    ext b
    have hmem := @mem_freeList_giveAll s hs hw ino i hr hi hf b
    rw [hfree, Vol.mem_freeList] at hmem
    rw [hmem, List.mem_toFinset, sortedHeld, List.mem_insertionSort]
    simp
  unfold Vol.freeList
  rw [hset, List.toFinset_sort _ hnodup]
  exact List.pairwise_insertionSort _ _

namespace Fs.Clobbers

variable {i : Bytes} {data : List UInt8} (h : s.Clobbers t i data) (hs : s.Ok) (hw : s.vol.Wf)
  {ino : Nat} (hr : s.vol.Reach {2} ino) (hi : s.vol.inode ino = some i) (hf : isFileMode i = true)

include h

theorem layout : t.vol.layout = s.vol.layout := h.grown.layout

theorem inode : t.vol.inode = s.vol.inode := h.grown.inode

theorem taken : t.vol.taken = s.vol.taken := h.grown.taken

include hs hw hr hi hf

/-- What another inode holds is not touched. -/
theorem kept {x : Nat} (hx : s.vol.Reach {2} x) (hne : x ≠ ino) : s.vol.Kept t.vol x := by
  intro k hk
  refine ⟨by rw [h.inode]; exact hk, fun hm => ⟨h.layout, fun pos b hb => ?_⟩⟩
  have href : s.vol.Ref x pos b := ⟨k, hk, hm, hb⟩
  refine h.grown.data b fun hmem => ?_
  rcases (mem_freeList_giveAll hs hw hr hi hf).1 hmem with hfree | hheld
  · exact (Vol.mem_freeSet.1 hfree).2 (hw.busy x pos b hx href).1
  · obtain ⟨⟨pos', -, hpos⟩, -⟩ := (heldBlocks_spec hw hr hi hf).2 b hheld
    exact hne (hw.unique _ _ _ _ b hx hr href ⟨i, hi, Or.inl hf, hpos⟩).1

theorem sameTree : s.vol.SameTree t.vol := by
  intro d hd
  by_cases hx : d = ino
  · subst hx
    unfold Vol.listing
    rw [h.inode, hi]
    simp [Vol.not_isDirMode_of_isFileMode hf]
  · exact (h.kept hs hw hr hi hf hd hx).listing_eq (hw.taken d hd).2

theorem dirsOk : t.vol.DirsOk := by
  intro d k hd hk hdir pos b hb
  have hd' := (h.sameTree hs hw hr hi hf).reach_iff.1 hd
  rw [h.inode] at hk
  have hx : d ≠ ino := by
    rintro rfl
    obtain rfl := Option.some.inj (hi.symm.trans hk)
    exact absurd (hdir.symm.trans (Vol.not_isDirMode_of_isFileMode hf)) (by decide)
  have hagree := (h.kept hs hw hr hi hf hd' hx k hk).2 (Or.inr hdir)
  rw [h.layout]
  exact (hw.busy d pos b hd' ⟨k, hk, Or.inr hdir, (hagree.holds_iff pos b).1 hb⟩).2

/-- All paths lead to the inodes they led to. -/
theorem fileInode_eq (path : List UInt8) : fileInode t path = fileInode s path := by
  rw [Ext2.fileInode_eq h.ok (h.dirsOk hs hw hr hi hf), Ext2.fileInode_eq hs hw.dirsOk,
    (h.sameTree hs hw hr hi hf).resolve_eq, h.inode]

/-- The other files have the same bytes. -/
theorem fileBytes_eq {x : Nat} {k : Bytes} (hx : s.vol.Reach {2} x) (hk : s.vol.inode x = some k)
    (hkf : isFileMode k = true) (hne : x ≠ ino) (n : Nat) :
    fileBytes t.img k n = fileBytes s.img k n := by
  have hagree := (h.kept hs hw hr hi hf hx hne k hk).2 (Or.inl hkf)
  have hdata := hw.dataOk hx hk (Or.inl hkf)
  have hdata' : t.vol.DataOk k := fun pos b hb => by
    rw [h.layout]
    exact hdata pos b ((hagree.holds_iff pos b).1 hb)
  rw [hdata'.fileBytes_eq, hdata.fileBytes_eq, hagree.content_eq]

/-- The space is as before if no block was free. -/
theorem sameSpace_iff : s.SameSpace t ↔ s.vol.freeSet = ∅ := by
  constructor
  · intro hspace
    have hfull := h.full
    have hbusy := hspace.busy_eq hs h.ok
    unfold Vol.freeSet at hfull ⊢
    rwa [h.layout, hbusy] at hfull
  · intro hfree
    refine hs.sameSpace h.ok h.keeps h.layout ?_ h.taken
    rw [h.grown.busy]
    ext b
    have hmem := @mem_freeList_giveAll s hs hw ino i hr hi hf b
    have hheld : b ∈ heldBlocks s.img i → b ∈ s.vol.busy := fun hb =>
      ((heldBlocks_spec hw hr hi hf).2 b hb).2.1
    rw [hfree] at hmem
    change (b ∈ s.vol.busy ∧ b ∉ heldBlocks s.img i) ∨
      b ∈ (s.vol.giveAll (heldBlocks s.img i)).freeList ↔ _
    rw [hmem]
    simp only [Finset.notMem_empty, false_or]
    tauto

/-- And then the disk is the one on which the blocks of the file are filled. -/
theorem disk_eq (hfree : s.vol.freeSet = ∅) (b : Nat) {x : Nat} (hx : x < s.blockSize) :
    t.img.disk b x =
      refill s.blockSize (sortedHeld s.img i) data s.img.disk b x := by
  have hlist := freeList_giveAll_eq hs hw hr hi hf hfree
  have hlayout : t.img.layout = s.img.layout := h.layout
  by_cases hres : s.vol.layout.Reserved b
  · have hnot : b ∉ sortedHeld s.img i := fun hmem =>
      ((heldBlocks_spec hw hr hi hf).2 b ((List.mem_insertionSort _).1 hmem)).2.2 hres
    have hspace := (h.sameSpace_iff hs hw hr hi hf).2 hfree
    rw [refill_of_not_mem hnot, h.frames.disk_eq hspace.blockBits hspace.desc hres]
  · have hdata := h.data b x hx
    have hold : s.vol.data b = s.img.disk b := Img.data_of_not_reserved hres
    have hnew : t.vol.data b = t.img.disk b :=
      Img.data_of_not_reserved (m := t.img) (by rw [hlayout]; exact hres)
    rw [hnew, hlist] at hdata
    rw [hdata]
    unfold refill
    rw [hold]

end Fs.Clobbers

/-! ### The call -/

/-- The bytes of a regular file are read whole with a limit of its size. -/
theorem readFile_size {path : List UInt8} {i : Bytes} (hi : fileInode s path = some i) :
    (readFile s path (iSize i)).1 = some (fileBytes s.img i (iSize i)) := by
  rw [(readFile_eq s path _).2, hi, Option.map_some, Nat.min_self]

theorem fileBytes_take (m : Img) (i : Bytes) (n k : Nat) :
    fileBytes m i (min n k) = (fileBytes m i n).take k := by
  unfold fileBytes
  rw [List.take_take, Nat.min_comm]

/-- **When a failed overwriting loses nothing.** -/
theorem Fs.Clobbers.nothingLost_iff {i : Bytes} {data : List UInt8}
    (h : s.Clobbers t i (s.img.geo.written data)) (hs : s.Ok) (hw : s.vol.Wf) {path : List UInt8}
    (hfile : fileInode s path = some i) : s.NothingLost t ↔ s.vol.freeSet = ∅ ∧
      fileBytes (refilled s.img i data) i (iSize i) = fileBytes s.img i (iSize i) := by
  obtain ⟨hi, hf⟩ := (fileInode_eq_some_iff hs hw).1 hfile
  have hr : s.vol.Reach {2} (s.vol.resolve path) := by
    refine Vol.reach_resolve fun h0 => ?_
    rw [h0, inode_zero] at hi
    cases hi
  have hsame := h.fileInode_eq hs hw hr hi hf
  have hspace := h.sameSpace_iff hs hw hr hi hf
  have hbytes : s.vol.freeSet = ∅ → ∀ n, fileBytes t.img i n =
      fileBytes (refilled s.img i data) i n := fun hfree n => by
    have hgeo : t.img.geo = (refilled s.img i data).geo := h.keeps.geo
    exact fileBytes_congr hgeo (fun b x hx => h.disk_eq hs hw hr hi hf hfree b hx) i n
  constructor
  · intro hlost
    have hfree := hspace.1 hlost.space
    have hread := hlost.read path (iSize i) _ (readFile_size hfile)
    rw [readFile_size ((hsame path).trans hfile)] at hread
    exact ⟨hfree, (hbytes hfree _).symm.trans (Option.some.inj hread)⟩
  · rintro ⟨hfree, hback⟩
    refine ⟨hspace.2 hfree, fun q max l hl => ?_⟩
    rw [← hl, (readFile_eq t q max).2, (readFile_eq s q max).2, hsame q]
    cases hq : fileInode s q with
    | none => rfl
    | some k =>
        obtain ⟨hk, hkf⟩ := (fileInode_eq_some_iff hs hw).1 hq
        by_cases hx : s.vol.resolve q = s.vol.resolve path
        · rw [hx, hi] at hk
          obtain rfl := Option.some.inj hk
          rw [Option.map_some, Option.map_some, fileBytes_take, fileBytes_take, hbytes hfree, hback]
        · have hrq : s.vol.Reach {2} (s.vol.resolve q) := by
            refine Vol.reach_resolve fun h0 => ?_
            rw [h0, inode_zero] at hk
            cases hk
          rw [Option.map_some, Option.map_some, h.fileBytes_eq hs hw hr hi hf hrq hk hkf hx]

/-- **When a failed `ext2_write_file` loses nothing.** -/
theorem writeFile_fails_iff (h : s.Ok) (hsuper : s.vol.layout.ApartFromSuper) (hw : s.vol.Wf)
    (path data : List UInt8) (now : Nat) (hfail : (writeFile s path data now).1 = false) :
    s.NothingLost (writeFile s path data now).2 ↔ WriteSafe s path data := by
  have hself : ∀ u, s.Reads u → s.NothingLost u := fun u hu =>
    ((hu.turns h).unchanged_self h hw).nothingLost
  cases hsplit : splitPath path with
  | none =>
      have hsame : writeFile s path data now = (false, s) := by
        unfold writeFile
        rw [hsplit]
        split <;> rfl
      rw [hsame]
      refine iff_of_true (hself s .refl) fun parent name hsplit' => ?_
      rw [hsplit] at hsplit'
      cases hsplit'
  | some pn =>
      obtain ⟨parent, name⟩ := pn
      have hsafe : WriteSafe s path data ↔ ((resolve s parent).1 ≠ 0 →
          ((resolve s path).1 = 0 → s.vol.NoInode) ∧
          ∀ i, fileInode s path = some i → s.vol.freeSet = ∅ ∧
            fileBytes (refilled s.img i data) i (iSize i) = fileBytes s.img i (iSize i)) := by
        refine ⟨fun hc => hc parent name hsplit, fun hc parent' name' hsplit' => ?_⟩
        rw [hsplit] at hsplit'
        obtain ⟨rfl, rfl⟩ := Prod.mk.inj (Option.some.inj hsplit')
        exact hc
      rw [hsafe, (resolve_spec h hw parent).2, (resolve_spec h hw path).2]
      by_cases hp : s.vol.resolve parent = 0
      · exact iff_of_true (hself _ (writeFile_noParent h hw hsplit hp data now).2)
          fun hne => absurd hp hne
      · have hrp := Vol.reach_resolve hp
        obtain ⟨htaken, dir, hdir⟩ := hw.taken _ hrp
        by_cases hnew : s.vol.resolve path = 0
        · have hnofile : ∀ i, fileInode s path ≠ some i := by
            intro i hi
            have hi' := ((fileInode_eq_some_iff h hw).1 hi).1
            rw [hnew, inode_zero] at hi'
            cases hi'
          obtain ⟨u, hreads, heq⟩ := writeFile_new h hw hsplit hp hnew data now
          have hok := hreads.ok h
          rw [heq] at hfail ⊢
          have hvol := hreads.vol
          constructor
          · intro hlost
            refine fun _ => ⟨fun _ => ?_, fun i hi => absurd hi (hnofile i)⟩
            by_contra hyes
            have hspace := hlost.space
            rw [← hreads.img] at hfail hspace
            refine createIn_leaks hok (by rw [hvol]; exact hsuper) (by rw [hvol]; exact htaken)
              (by rw [hvol]; exact hdir) (by rw [hvol]; exact hyes) hfail ?_
            obtain ⟨hgeo, hbgdt, hdesc, hblocks, hinodes⟩ := hspace
            rw [← hreads.img] at hgeo hbgdt hdesc hblocks hinodes
            exact ⟨hgeo, hbgdt, hdesc, hblocks, hinodes⟩
          · intro hc
            have hno := (hc hp).1 hnew
            have hwu : u.vol.Wf := by
              rw [hvol]
              exact hw
            obtain ⟨-, hturn⟩ := createIn_noInode hok (by rw [hvol]; exact hsuper)
              (by rw [hvol]; exact hno) (s.vol.resolve parent) (name.take 255)
              (s.img.geo.written data) now
            exact (Fs.Unchanged.of_reads h hw hreads (hturn.unchanged_self hok hwu)).nothingLost
        · obtain ⟨-, i, hi⟩ := hw.taken _ (Vol.reach_resolve hnew)
          cases hf : isFileMode i with
          | false =>
              refine iff_of_true (hself _ (writeFile_other h hw hsplit hi hf data now).2)
                fun _ => ⟨fun h0 => absurd h0 hnew, fun k hk => ?_⟩
              obtain ⟨hk', hkf⟩ := (fileInode_eq_some_iff h hw).1 hk
              rw [hi] at hk'
              obtain rfl := Option.some.inj hk'
              rw [hf] at hkf
              cases hkf
          | true =>
              have hfile := (fileInode_eq_some_iff h hw).2 ⟨hi, hf⟩
              obtain ⟨u, hreads, heq⟩ := writeFile_old h hw hsplit hi hf data now
              rw [heq] at hfail ⊢
              have hvol := hreads.vol
              have hclob := overwriteIn_fails (hreads.ok h) (by rw [hvol]; exact hsuper)
                (by rw [hvol]; exact hw) (by rw [hvol]; exact Vol.reach_resolve hnew)
                (by rw [hvol]; exact hi) hf hfail
              have hclob' : s.Clobbers (overwriteIn u (s.vol.resolve path) i (s.vol.resolve parent)
                  (name.take 255) (s.img.geo.written data) now).2 i (s.img.geo.written data) := by
                obtain ⟨hok, hkeep, hframes, hgrown, hfull, hdata⟩ := hclob
                have hsize : u.blockSize = s.blockSize := hreads.keeps.blockSize
                rw [hreads.img] at hframes hgrown hdata
                rw [hvol] at hgrown hdata
                rw [hsize] at hdata
                exact ⟨hok, hreads.keeps.trans hkeep, hframes, hgrown, hfull, hdata⟩
              rw [hclob'.nothingLost_iff h hw hfile]
              constructor
              · refine fun hc _ => ⟨fun h0 => absurd h0 hnew, fun k hk => ?_⟩
                rw [hfile] at hk
                obtain rfl := Option.some.inj hk
                exact hc
              · exact fun hc => (hc hp).2 i hfile

/-- `/a` is overwritten with more than fits. -/
theorem writeFile_fails_iff_small :
    smallFs.NothingLost (writeFile smallFs [47, 97] (List.replicate 9217 66) 0).2 ↔
      WriteSafe smallFs [47, 97] (List.replicate 9217 66) :=
  writeFile_fails_iff smallFs_ok smallFs_consistent.apart smallImg_wf [47, 97]
    (List.replicate 9217 66) 0 (by decide +kernel)

/-- There all blocks are in use afterwards. -/
theorem writeFile_fails_loses : smallFs.Ok ∧ smallFs.vol.Wf ∧
    (writeFile smallFs [47, 97] (List.replicate 9217 66) 0).1 = false ∧
    ¬ smallFs.NothingLost (writeFile smallFs [47, 97] (List.replicate 9217 66) 0).2 := by
  refine ⟨smallFs_ok, smallImg_wf, by decide +kernel, fun hsame => ?_⟩
  have hfree := congrArg Bgd.freeBlocks (hsame.space.bgdt 0 (by decide))
  have hbefore : (smallFs.img.bgdt 0).freeBlocks = 8 := rfl
  have hafter : ((writeFile smallFs [47, 97] (List.replicate 9217 66) 0).2.img.bgdt 0).freeBlocks =
      0 := by decide +kernel
  omega

end FiFi.Ext2
