import FiFi.Ext2.Primitives

/-!
# Reading a volume

The functions that only read compute what the volume says: `e2_lookup` is the
lookup in the entries, `e2_resolve` goes from directory to directory, and
`ext2_read_file` copies the content.
-/

namespace FiFi.Ext2

open ByteStore

variable {s : Fs}

/-! ### Paths of a volume -/

namespace Vol

variable (v : Vol)

/-- The inode of a path; `0` if it does not resolve. -/
def resolve : List UInt8 → Nat
  | [] => 0
  | c :: path => if c = slash then v.resolveFrom 2 (components path) else 0

/-- What is read at a path. -/
def readFile (path : List UInt8) (max : Nat) : Option (List UInt8) :=
  match v.inode (v.resolve path) with
  | none => none
  | some i => if isFileMode i then some (v.content i (min (iSize i) max)) else none

def fileSize (path : List UInt8) : Option Nat :=
  match v.inode (v.resolve path) with
  | none => none
  | some i => if isFileMode i then some (iSize i) else none

variable {v}

theorem WfFrom.not_reserved {R : Set Nat} (h : v.WfFrom R) {ino pos b : Nat} {i : Bytes}
    (hr : v.Reach R ino)
    (hi : v.inode ino = some i) (hm : isFileMode i = true ∨ isDirMode i = true)
    (hb : v.Holds i pos b) : ¬ v.layout.Reserved b :=
  (h.busy ino pos b hr ⟨i, hi, hm, hb⟩).2

theorem reach_resolve {path : List UInt8} (h : v.resolve path ≠ 0) :
    v.Reach {2} (v.resolve path) := by
  unfold resolve at h ⊢
  split at h
  · exact absurd rfl h
  · split at h
    · rename_i hc
      rw [if_pos hc]
      exact reach_resolveFrom (.root rfl) h
    · exact absurd rfl h

end Vol

/-! ### Lookup -/

theorem inode_ne_zero_of_mem_liveAt {b : Bytes} {ps : List Nat} {e : Entry}
    (h : e ∈ liveAt b ps) : e.2 ≠ 0 := by
  obtain ⟨p, hp, rfl⟩ := List.mem_map.1 h
  simpa using (List.mem_filter.1 hp).2

theorem lookup_liveAt (b : Bytes) (ps : List Nat) (name : List UInt8) :
    (liveAt b ps).lookup name =
      (ps.find? fun p => deInode b p ≠ 0 && nameEq b p name).map (deInode b) := by
  unfold liveAt
  induction ps with
  | nil => rfl
  | cons p ps ih =>
      by_cases h0 : deInode b p = 0
      · rw [List.filter_cons_of_neg (by simp [h0]), ih, List.find?_cons_of_neg (by simp [h0])]
      · rw [List.filter_cons_of_pos (by simp [h0]), List.map_cons, List.lookup_cons]
        by_cases hn : deName b p = name
        · rw [List.find?_cons_of_pos (by simp [h0, nameEq, hn])]
          simp [hn]
        · rw [List.find?_cons_of_neg (by simp [nameEq, hn]), ← ih]
          have hne : (name == deName b p) = false := by simpa using fun h => hn h.symm
          simp [hne]

theorem lookupBlock_eq (b : Bytes) (size : Nat) (name : List UInt8) :
    lookupBlock b size name = ((liveAt b (offsets b size)).lookup name).getD 0 := by
  rw [lookup_liveAt]
  unfold lookupBlock findName
  split
  · rename_i p hp
    rw [hp]
    rfl
  · rename_i hp
    rw [hp]
    rfl

/-- The search goes on where nothing was found. -/
theorem getD_lookup_append {l l' : List Entry} (h : ∀ e ∈ l, e.2 ≠ 0) (name : List UInt8) :
    ((l ++ l').lookup name).getD 0 =
      if (l.lookup name).getD 0 ≠ 0 then (l.lookup name).getD 0 else (l'.lookup name).getD 0 := by
  rw [List.lookup_append]
  cases hl : l.lookup name with
  | none => simp
  | some n =>
      obtain ⟨l₁, l₂, heq, -⟩ := List.lookup_eq_some_iff.1 hl
      have hne : n ≠ 0 := h (name, n) (by simp [heq])
      simp [hne]

/-- The entries in a list of blocks of the disk. -/
def entriesIn (m : Img) (bs : List Nat) : List Entry :=
  bs.flatMap fun b => liveAt (m.disk b) (offsets (m.disk b) m.geo.blockSize)

theorem entriesIn_cons (m : Img) (b : Nat) (bs : List Nat) :
    entriesIn m (b :: bs) =
      liveAt (m.disk b) (offsets (m.disk b) m.geo.blockSize) ++ entriesIn m bs :=
  List.flatMap_cons

/-- The two loops of `e2_lookup` are one loop over block numbers. -/
def lookupIn (s : Fs) (name : List UInt8) : List Nat → Nat × Fs
  | [] => (0, s)
  | b :: bs =>
      if b = 0 then (0, s)
      else
        let s := { s with io := s.img.disk b }
        let ino := lookupBlock s.io s.blockSize name
        if ino ≠ 0 then (ino, s) else lookupIn s name bs

theorem lookupDirect_eq (s : Fs) (dir : Bytes) (name : List UInt8) (ks : List Nat) :
    lookupDirect s dir name ks = lookupIn s name (ks.map (iBlock dir)) := by
  induction ks generalizing s with
  | nil => rfl
  | cons k ks ih =>
      simp only [lookupDirect, List.map_cons, lookupIn, ih]

theorem lookupIndirect_eq (s : Fs) (name : List UInt8) (ks : List Nat) :
    lookupIndirect s name ks = lookupIn s name (ks.map fun k => le32 s.ind (4 * k)) := by
  induction ks generalizing s with
  | nil => rfl
  | cons k ks ih =>
      simp only [lookupIndirect, List.map_cons, lookupIn, ih]

theorem lookupIn_spec (s : Fs) (name : List UInt8) (bs : List Nat) :
    s.Reads (lookupIn s name bs).2 ∧ (lookupIn s name bs).1 =
      ((entriesIn s.img (bs.takeWhile (· ≠ 0))).lookup name).getD 0 := by
  induction bs generalizing s with
  | nil => exact ⟨.refl, rfl⟩
  | cons b bs ih =>
      by_cases h0 : b = 0
      · rw [List.takeWhile_cons_of_neg (by simp [h0])]
        simp only [lookupIn, if_pos h0]
        exact ⟨.refl, rfl⟩
      · rw [List.takeWhile_cons_of_pos (by simp [h0]), entriesIn_cons,
          getD_lookup_append (fun e => inode_ne_zero_of_mem_liveAt), ← lookupBlock_eq]
        simp only [lookupIn, if_neg h0, Fs.blockSize]
        by_cases hl : lookupBlock (s.img.disk b) s.img.geo.blockSize name = 0
        · simp only [hl, ne_eq, not_true_eq_false, if_false]
          obtain ⟨hr, heq⟩ := ih { s with io := s.img.disk b }
          exact ⟨⟨hr.ready, hr.img⟩, heq⟩
        · simp only [ne_eq, hl, not_false_eq_true, if_true]
          exact ⟨⟨rfl, rfl⟩, trivial⟩

/-- The blocks of an inode are data blocks. -/
def Vol.DataOk (v : Vol) (i : Bytes) : Prop := ∀ pos b, v.Holds i pos b → ¬ v.layout.Reserved b

theorem Vol.DataOk.data_eq {i : Bytes} (h : s.vol.DataOk i) {pos b : Nat}
    (hb : s.vol.Holds i pos b) : s.vol.data b = s.img.disk b :=
  Img.data_of_not_reserved (h pos b hb)

/-- The block numbers of the second loops. -/
def pointersOf (m : Img) (i : Bytes) : List Nat :=
  if iBlock i 12 = 0 then []
  else (List.range (m.geo.blockSize / 4)).map fun k => le32 (m.disk (iBlock i 12)) (4 * k)

theorem Vol.DataOk.blocks_eq {i : Bytes} (h : s.vol.DataOk i) :
    s.vol.blocks i = ((direct.map (iBlock i)).takeWhile (· ≠ 0)) ++
      (pointersOf s.img i).takeWhile (· ≠ 0) := by
  unfold Vol.blocks
  have hdirect : (List.range 12).map (s.vol.blockAt i) = direct.map (iBlock i) := by
    refine List.map_congr_left fun k hk => Vol.blockAt_direct ?_
    have := List.mem_range.1 hk
    omega
  rw [hdirect]
  congr 1
  · unfold pointersOf
    by_cases h0 : iBlock i 12 = 0
    · rw [if_pos h0]
      simp only [Vol.blockAt_noPointer _ h0]
      cases s.vol.pointers with
      | zero => rfl
      | succ n => simp [List.range_succ_eq_map]
    · rw [if_neg h0]
      have hdata := h.data_eq (show Vol.Holds _ i 12 (iBlock i 12) from ⟨by omega, rfl, h0⟩)
      simp only [Vol.blockAt_pointer _ h0, hdata]
      rfl

theorem Vol.DataOk.entries_eq {i : Bytes} (h : s.vol.DataOk i) :
    s.vol.entries i = entriesIn s.img (s.vol.blocks i) := by
  refine List.flatMap_congr fun b hb => ?_
  obtain ⟨pos, -, hpos⟩ := Vol.holds_of_mem_blocks hb
  rw [h.data_eq hpos]
  rfl

theorem lookup_spec {dir : Bytes} (h : s.vol.DataOk dir) (name : List UInt8) :
    s.Reads (lookup s dir name).2 ∧ (lookup s dir name).1 = s.vol.lookup dir name := by
  have hdir := lookupIn_spec s name (direct.map (iBlock dir))
  have hval : s.vol.lookup dir name = if (lookupIn s name (direct.map (iBlock dir))).1 ≠ 0 then
      (lookupIn s name (direct.map (iBlock dir))).1
      else ((entriesIn s.img ((pointersOf s.img dir).takeWhile (· ≠ 0))).lookup name).getD 0 := by
    unfold Vol.lookup
    rw [h.entries_eq, h.blocks_eq, entriesIn, List.flatMap_append,
      getD_lookup_append fun e he => ?_, hdir.2]
    · rfl
    · obtain ⟨b, -, hb⟩ := List.mem_flatMap.1 he
      exact inode_ne_zero_of_mem_liveAt hb
  rw [hval]
  simp only [lookup, lookupDirect_eq]
  generalize lookupIn s name (direct.map (iBlock dir)) = r at hdir ⊢
  by_cases hr : r.1 = 0
  · simp only [hr, ne_eq, not_true_eq_false, if_false]
    unfold pointersOf
    by_cases h0 : iBlock dir 12 = 0
    · simp only [h0, if_true]
      exact ⟨hdir.1, hr⟩
    · simp only [h0, if_false]
      have hind := lookupIn_spec { r.2 with ind := r.2.img.disk (iBlock dir 12) } name
        (r.2.img.geo.pointers.map fun k => le32 (r.2.img.disk (iBlock dir 12)) (4 * k))
      rw [lookupIndirect_eq]
      refine ⟨hdir.1.trans ⟨hind.1.ready, hind.1.img⟩, ?_⟩
      refine hind.2.trans ?_
      rw [hdir.1.img]
      rfl
  · simp only [ne_eq, hr, not_false_eq_true, if_true]
    exact ⟨hdir.1, trivial⟩

/-! ### Paths -/

theorem Vol.WfFrom.dataOk {v : Vol} {R : Set Nat} (h : v.WfFrom R) {ino : Nat} {i : Bytes}
    (hr : v.Reach R ino) (hi : v.inode ino = some i) (hm : isFileMode i = true ∨ isDirMode i = true) : v.DataOk i :=
  fun _ _ hb => h.not_reserved hr hi hm hb

theorem lookup_reads (s : Fs) (dir : Bytes) (name : List UInt8) :
    s.Reads (lookup s dir name).2 := by
  have hdir := (lookupIn_spec s name (direct.map (iBlock dir))).1
  simp only [lookup, lookupDirect_eq]
  generalize lookupIn s name (direct.map (iBlock dir)) = r at hdir ⊢
  split
  · exact hdir
  · split
    · exact hdir
    · rw [lookupIndirect_eq]
      have hind := (lookupIn_spec { r.2 with ind := r.2.img.disk (iBlock dir 12) } name
        (r.2.img.geo.pointers.map fun k => le32 (r.2.img.disk (iBlock dir 12)) (4 * k))).1
      exact hdir.trans ⟨hind.ready, hind.img⟩

theorem resolveFrom_reads (s : Fs) (cur : Nat) (comps : List (List UInt8)) :
    s.Reads (resolveFrom s cur comps).2 := by
  induction comps generalizing s cur with
  | nil => exact .refl
  | cons comp comps ih =>
      have hreads := readInode_reads s cur
      simp only [resolveFrom]
      generalize readInode s cur = r at hreads ⊢
      obtain ⟨_ | i, t⟩ := r
      · exact hreads
      · dsimp only at hreads ⊢
        split
        · exact hreads
        · have hl := hreads.trans (lookup_reads t i comp)
          split
          · exact hl
          · exact hl.trans (ih _ _)

theorem resolve_reads (s : Fs) (path : List UInt8) : s.Reads (resolve s path).2 := by
  cases path with
  | nil => exact .refl
  | cons c path =>
      simp only [resolve]
      split
      · exact resolveFrom_reads s 2 _
      · exact .refl

/-- The blocks of the directories are data blocks. -/
def Vol.DirsOk (v : Vol) : Prop :=
  ∀ d i, v.Reach {2} d → v.inode d = some i → isDirMode i = true → v.DataOk i

theorem Vol.WfFrom.dirsOk {v : Vol} (h : v.Wf) : v.DirsOk :=
  fun _ _ hr hi hd => h.dataOk hr hi (Or.inr hd)

theorem resolveFrom_eq (h : s.Ok) (hd : s.vol.DirsOk) {cur : Nat} (hcur : s.vol.Reach {2} cur)
    (comps : List (List UInt8)) :
    (resolveFrom s cur comps).1 = s.vol.resolveFrom cur comps := by
  induction comps generalizing s cur with
  | nil => rfl
  | cons comp comps ih =>
      have hreads := readInode_reads s cur
      have hread := readInode_eq h cur
      simp only [resolveFrom, Vol.resolveFrom]
      rw [← hread]
      generalize readInode s cur = r at hreads hread ⊢
      obtain ⟨_ | i, t⟩ := r
      · rfl
      · dsimp only at hreads hread ⊢
        by_cases hdir : isDirMode i = true
        · have hdata : t.vol.DataOk i := by
            rw [hreads.vol]
            exact hd cur i hcur hread.symm hdir
          obtain ⟨hlr, hl⟩ := lookup_spec hdata comp
          rw [hreads.vol] at hl
          simp only [hdir, Bool.not_true, Bool.false_eq_true, if_false, if_true, hl]
          by_cases h0 : s.vol.lookup i comp = 0
          · rw [if_pos h0, if_pos h0]
          · rw [if_neg h0, if_neg h0]
            have hu := hreads.trans hlr
            have hrv := ih (hu.ok h) (by rw [hu.vol]; exact hd)
              (by rw [hu.vol]; exact Vol.reach_lookup hcur hread.symm hdir h0)
            rwa [hu.vol] at hrv
        · simp only [hdir, Bool.not_false, if_true, if_false, Bool.false_eq_true]

theorem resolve_eq (h : s.Ok) (hd : s.vol.DirsOk) (path : List UInt8) :
    (resolve s path).1 = s.vol.resolve path := by
  cases path with
  | nil => rfl
  | cons c path =>
      simp only [resolve, Vol.resolve]
      split
      · exact resolveFrom_eq h hd (.root rfl) _
      · rfl

theorem resolve_spec (h : s.Ok) (hw : s.vol.Wf) (path : List UInt8) :
    s.Reads (resolve s path).2 ∧ (resolve s path).1 = s.vol.resolve path :=
  ⟨resolve_reads s path, resolve_eq h hw.dirsOk path⟩

theorem inode_zero (s : Fs) : s.vol.inode 0 = none := by
  simp [Fs.vol, Img.vol]

/-! ### Files -/

/-- The two loops of `ext2_read_file` are one loop over block numbers. -/
def readIn (s : Fs) (toRead : Nat) (out : List UInt8) : List Nat → List UInt8 × Fs
  | [] => (out, s)
  | b :: bs =>
      if toRead ≤ out.length then (out, s)
      else if b = 0 then (out, s)
      else
        let s := { s with io := s.img.disk b }
        readIn s toRead (out ++ toList s.io 0 (min s.blockSize (toRead - out.length))) bs

theorem readDirect_eq (s : Fs) (i : Bytes) (toRead : Nat) (out : List UInt8) (ks : List Nat) :
    readDirect s i toRead out ks = readIn s toRead out (ks.map (iBlock i)) := by
  induction ks generalizing s out with
  | nil => rfl
  | cons k ks ih => simp only [readDirect, List.map_cons, readIn, ih]

theorem readIndirect_eq (s : Fs) (toRead : Nat) (out : List UInt8) (ks : List Nat) :
    readIndirect s toRead out ks =
      readIn s toRead out (ks.map fun k => le32 s.ind (4 * k)) := by
  induction ks generalizing s out with
  | nil => rfl
  | cons k ks ih => simp only [readIndirect, List.map_cons, readIn, ih]

theorem toList_take (b : Bytes) (o n k : Nat) : (toList b o n).take k = toList b o (min n k) := by
  unfold toList
  rw [← List.map_take, List.take_range]
  congr 2
  exact Nat.min_comm _ _

/-- A part that was cut to what is still wanted. -/
theorem take_append_cut (out page rest : List UInt8) {n : Nat} (h : out.length ≤ n) :
    (out ++ page.take (n - out.length) ++ rest).take n = (out ++ (page ++ rest)).take n := by
  have hsplit : ∀ l : List UInt8, (out ++ l).take n = out ++ l.take (n - out.length) := by
    intro l
    rw [List.take_append, List.take_of_length_le h]
  rw [List.append_assoc, hsplit, hsplit]
  congr 1
  by_cases hle : n - out.length ≤ page.length
  · rw [List.take_append_of_le_length hle, List.take_append_of_le_length (by simp [hle]),
      List.take_take, Nat.min_self]
  · rw [List.take_of_length_le (l := page) (by omega)]

theorem readIn_spec (s : Fs) {toRead : Nat} {out : List UInt8} (hout : out.length ≤ toRead)
    (bs : List Nat) : s.Reads (readIn s toRead out bs).2 ∧ (readIn s toRead out bs).1 =
      (out ++ (bs.takeWhile (· ≠ 0)).flatMap fun b =>
        toList (s.img.disk b) 0 s.img.geo.blockSize).take toRead := by
  induction bs generalizing s out with
  | nil => exact ⟨.refl, by simp [readIn, List.take_of_length_le hout]⟩
  | cons b bs ih =>
      simp only [readIn]
      by_cases hdone : toRead ≤ out.length
      · rw [if_pos hdone]
        refine ⟨.refl, ?_⟩
        rw [List.take_append_of_le_length hdone, List.take_of_length_le hout]
      · rw [if_neg hdone]
        by_cases h0 : b = 0
        · rw [if_pos h0, List.takeWhile_cons_of_neg (by simp [h0])]
          exact ⟨.refl, by simp [List.take_of_length_le hout]⟩
        · rw [if_neg h0, List.takeWhile_cons_of_pos (by simp [h0]), List.flatMap_cons]
          have hlen : (out ++ toList (s.img.disk b) 0
              (min s.img.geo.blockSize (toRead - out.length))).length ≤ toRead := by
            rw [List.length_append, length_toList]
            omega
          obtain ⟨hr, heq⟩ := ih { s with io := s.img.disk b } hlen
          refine ⟨⟨hr.ready, hr.img⟩, heq.trans ?_⟩
          rw [← toList_take]
          exact take_append_cut _ _ _ hout

/-- The bytes in a list of blocks of the disk. -/
def bytesIn (m : Img) (bs : List Nat) : List UInt8 :=
  bs.flatMap fun b => toList (m.disk b) 0 m.geo.blockSize

/-- The bytes of an inode, as its blocks are on the disk. -/
def fileBytes (m : Img) (i : Bytes) (n : Nat) : List UInt8 :=
  (bytesIn m ((direct.map (iBlock i)).takeWhile (· ≠ 0) ++
    (pointersOf m i).takeWhile (· ≠ 0))).take n

theorem Vol.DataOk.fileBytes_eq {i : Bytes} (h : s.vol.DataOk i) (n : Nat) :
    fileBytes s.img i n = s.vol.content i n := by
  unfold Vol.content fileBytes bytesIn
  rw [← h.blocks_eq]
  congr 1
  refine List.flatMap_congr fun b hb => ?_
  obtain ⟨pos, -, hpos⟩ := Vol.holds_of_mem_blocks hb
  rw [h.data_eq hpos]
  rfl

/-- The body of `ext2_read_file`, once the inode is known. -/
theorem readBody_spec (s : Fs) (i : Bytes) (n : Nat) {r q : List UInt8 × Fs}
    (hr : r = readDirect s i n [] direct)
    (hq : q = readIndirect { r.2 with ind := r.2.img.disk (iBlock i 12) } n r.1
      r.2.img.geo.pointers) :
    s.Reads r.2 ∧ (iBlock i 12 ≠ 0 → s.Reads q.2 ∧ q.1 = fileBytes s.img i n) ∧
      (n ≤ r.1.length ∨ iBlock i 12 = 0 → r.1 = fileBytes s.img i n) := by
  rw [readDirect_eq] at hr
  have hd := readIn_spec s (show ([] : List UInt8).length ≤ n from Nat.zero_le n) (direct.map (iBlock i))
  rw [← hr, List.nil_append] at hd
  have hlen : r.1.length ≤ n := by
    rw [hd.2]
    exact List.length_take_le _ _
  have hcontent : fileBytes s.img i n = (r.1 ++ bytesIn s.img ((pointersOf s.img i).takeWhile
      (· ≠ 0))).take n := by
    rw [fileBytes, bytesIn, List.flatMap_append, hd.2]
    have hcut := take_append_cut [] (((direct.map (iBlock i)).takeWhile (· ≠ 0)).flatMap fun b =>
      toList (s.img.disk b) 0 s.img.geo.blockSize) (bytesIn s.img ((pointersOf s.img i).takeWhile
      (· ≠ 0))) (n := n) (by simp)
    simpa [bytesIn] using hcut.symm
  refine ⟨hd.1, fun h0 => ?_, fun hend => ?_⟩
  · rw [readIndirect_eq] at hq
    have hi := readIn_spec { r.2 with ind := r.2.img.disk (iBlock i 12) } hlen
      (r.2.img.geo.pointers.map fun k => le32 (r.2.img.disk (iBlock i 12)) (4 * k))
    rw [hq]
    refine ⟨hd.1.trans ⟨hi.1.ready, hi.1.img⟩, hi.2.trans ?_⟩
    rw [hcontent, hd.1.img]
    unfold pointersOf
    rw [if_neg h0]
    rfl
  · rw [hcontent]
    rcases hend with hend | h0
    · rw [List.take_append_of_le_length hend, List.take_of_length_le hlen]
    · unfold pointersOf
      rw [if_pos h0]
      simp [bytesIn, List.take_of_length_le hlen]

/-- The inode of the regular file at a path. -/
def fileInode (s : Fs) (path : List UInt8) : Option Bytes :=
  if !s.ready then none
  else
    let r := resolve s path
    if r.1 = 0 then none else (readInode r.2 r.1).1.filter isFileMode

/-- What `ext2_read_file` reads on any volume, well-formed or not. -/
theorem readFile_eq (s : Fs) (path : List UInt8) (max : Nat) :
    s.Reads (readFile s path max).2 ∧ (readFile s path max).1 =
      (fileInode s path).map fun i => fileBytes s.img i (min (iSize i) max) := by
  unfold readFile fileInode
  split
  · exact ⟨.refl, rfl⟩
  · dsimp only
    have hres := resolve_reads s path
    generalize resolve s path = r at hres ⊢
    split
    · exact ⟨hres, rfl⟩
    · have hreads := hres.trans (readInode_reads r.2 r.1)
      generalize readInode r.2 r.1 = q at hreads ⊢
      obtain ⟨_ | i, t⟩ := q
      · exact ⟨hreads, rfl⟩
      · dsimp only at hreads ⊢
        cases hf : isFileMode i with
        | false => simpa [hf] using hreads
        | true =>
            have hmin : (if iSize i < max then iSize i else max) = min (iSize i) max := by
              split <;> omega
            rw [hmin]
            simp only [Bool.not_true, Bool.false_eq_true, if_false, Option.filter_some, hf, if_true,
              Option.map_some]
            obtain ⟨hr, hind, hdir⟩ := readBody_spec t i (min (iSize i) max) rfl rfl
            rw [hreads.img] at hind hdir
            split
            · rename_i hle
              exact ⟨hreads.trans hr, congrArg some (hdir (Or.inl hle))⟩
            · split
              · rename_i h12
                exact ⟨hreads.trans hr, congrArg some (hdir (Or.inr h12))⟩
              · rename_i h12
                exact ⟨hreads.trans (hind h12).1, congrArg some (hind h12).2⟩

/-- The regular file at a path, if the directories are good. -/
theorem fileInode_eq (h : s.Ok) (hd : s.vol.DirsOk) (path : List UInt8) :
    fileInode s path = (s.vol.inode (s.vol.resolve path)).filter isFileMode := by
  unfold fileInode
  rw [h.ready, ← resolve_eq h hd path]
  dsimp only [Bool.not_true]
  rw [if_neg (by simp)]
  have hreads := resolve_reads s path
  generalize resolve s path = r at hreads ⊢
  by_cases h0 : r.1 = 0
  · rw [if_pos h0, h0, inode_zero]
    rfl
  · rw [if_neg h0, readInode_eq (hreads.ok h), hreads.vol]

theorem readFile_spec (h : s.Ok) (hw : s.vol.Wf) (path : List UInt8) (max : Nat) :
    s.Reads (readFile s path max).2 ∧ (readFile s path max).1 = s.vol.readFile path max := by
  obtain ⟨hreads, heq⟩ := readFile_eq s path max
  refine ⟨hreads, heq.trans ?_⟩
  rw [fileInode_eq h hw.dirsOk]
  unfold Vol.readFile
  by_cases h0 : s.vol.resolve path = 0
  · rw [h0, inode_zero]
    rfl
  · obtain ⟨-, i, hi⟩ := hw.taken _ (Vol.reach_resolve h0)
    rw [hi]
    cases hf : isFileMode i with
    | false => simp [hf]
    | true =>
        have hdata := hw.dataOk (Vol.reach_resolve h0) hi (Or.inl hf)
        simp [hf, hdata.fileBytes_eq]

theorem fileSize_spec (h : s.Ok) (hw : s.vol.Wf) (path : List UInt8) :
    s.Reads (fileSize s path).2 ∧ (fileSize s path).1 = s.vol.fileSize path := by
  obtain ⟨hreads, hres⟩ := resolve_spec h hw path
  simp only [fileSize, h.ready, Bool.not_true, Bool.false_eq_true, if_false]
  unfold Vol.fileSize
  rw [← hres]
  generalize resolve s path = r at hreads hres ⊢
  by_cases h0 : r.1 = 0
  · rw [if_pos h0, h0, inode_zero]
    exact ⟨hreads, rfl⟩
  · rw [if_neg h0]
    have hir := readInode_reads r.2 r.1
    have hie := readInode_eq (hreads.ok h) r.1
    rw [hreads.vol] at hie
    rw [← hie]
    generalize readInode r.2 r.1 = q at hir hie ⊢
    obtain ⟨_ | i, t⟩ := q
    · exact ⟨hreads.trans hir, rfl⟩
    · dsimp only at hir hie ⊢
      by_cases hf : isFileMode i = true
      · simp only [hf, Bool.not_true, Bool.false_eq_true, if_false, if_true]
        exact ⟨hreads.trans hir, trivial⟩
      · simp only [hf, Bool.not_false, if_true, if_false, Bool.false_eq_true]
        exact ⟨hreads.trans hir, trivial⟩

theorem isdir_spec (h : s.Ok) (hw : s.vol.Wf) (path : List UInt8) :
    s.Reads (isdir s path).2 ∧
      ((isdir s path).1 = true ↔ s.vol.IsDir (s.vol.resolve path)) := by
  unfold isdir
  by_cases hroot : path = [slash]
  · rw [if_pos hroot, hroot]
    exact ⟨.refl, iff_of_true rfl hw.root.2⟩
  · rw [if_neg hroot]
    obtain ⟨hreads, hres⟩ := resolve_spec h hw path
    rw [← hres]
    generalize resolve s path = r at hreads hres ⊢
    by_cases h0 : r.1 = 0
    · simp only [if_pos h0]
      refine ⟨hreads, iff_of_false (by simp) ?_⟩
      rintro ⟨i, hi, -⟩
      rw [h0, inode_zero] at hi
      cases hi
    · simp only [if_neg h0]
      have hir := readInode_reads r.2 r.1
      have hie := readInode_eq (hreads.ok h) r.1
      rw [hreads.vol] at hie
      unfold Vol.IsDir
      rw [← hie]
      generalize readInode r.2 r.1 = q at hir hie ⊢
      obtain ⟨_ | i, t⟩ := q
      · exact ⟨hreads.trans hir, by simp⟩
      · exact ⟨hreads.trans hir, by simp⟩

end FiFi.Ext2
