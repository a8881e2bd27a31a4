import FiFi.Ext2.Resolved

/-!
# A failed delete

`ext2_delete_file` gives back the blocks of the file and then removes its entry.
The path is looked up in all blocks of the directory, the entry is searched in the
direct ones only, and under the whole name. Where these do not agree the call
fails after the blocks are gone.
-/

namespace FiFi.Ext2

open ByteStore

variable {s t : Fs}

/-! ### Giving back the blocks -/

/-- Of the inode only the number of the indirect block counts. -/
theorem freeIndirect_congr (s : Fs) {i j : Bytes} (h : iBlock j 12 = iBlock i 12) :
    (freeIndirect s j).2 = (freeIndirect s i).2 := by
  unfold freeIndirect
  rw [h]
  split <;> rfl

/-- The blocks of a file are given back, from an inode that is not changed. -/
theorem giveHeld_spec (h : s.Ok) (hsuper : s.vol.layout.ApartFromSuper) {i : Bytes}
    (hbusy : ∀ b ∈ heldBlocks s.img i, b ∈ s.vol.busy ∧ ¬ s.vol.layout.Reserved b)
    (hnodup : (heldBlocks s.img i).Nodup) :
    s.Gives (freeIndirect (freeDirect s i direct).2 i).2 (heldBlocks s.img i) := by
  have hlen := length_directBlocks i
  obtain ⟨-, hblock, -⟩ := freeDirect_spec h hsuper
    (fun b hb => hbusy b (List.mem_append_left _ hb)) (List.nodup_append'.1 hnodup).1
  have h12 : iBlock (freeDirect s i direct).1 12 = iBlock i 12 := by
    rw [hblock, if_neg (by omega)]
  rw [← freeIndirect_congr _ h12]
  exact (freeFile_spec h hsuper hbusy hnodup).1

theorem Fs.Gives.turns {bs : List Nat} (h : s.Gives t bs) : s.Turns t (s.vol.giveAll bs) :=
  ⟨h.ok, h.vol, h.keeps⟩

/-- Giving back blocks writes no block that a file may hold. -/
theorem Fs.Gives.disk_eq {bs : List Nat} (h : s.Gives t bs) {b : Nat}
    (hres : ¬ s.vol.layout.Reserved b) : t.img.disk b = s.img.disk b := by
  have hlay : t.img.layout = s.img.layout := congrArg Vol.layout h.vol
  have hdata : t.vol.data b = s.vol.data b := by
    rw [h.vol]
    rfl
  exact ((Img.data_of_not_reserved (m := t.img) (by rw [hlay]; exact hres)).symm.trans hdata).trans
    (Img.data_of_not_reserved hres)

theorem findEntry_congr {m n : Img} (hgeo : n.geo = m.geo) {bs : List Nat}
    (h : ∀ b ∈ bs, n.disk b = m.disk b) (name : List UInt8) :
    findEntry n name bs = findEntry m name bs := by
  induction bs with
  | nil => rfl
  | cons b bs ih =>
      rw [findEntry_cons, findEntry_cons, h b (by simp), hgeo,
        ih fun c hc => h c (List.mem_cons_of_mem _ hc)]

/-- The direct blocks of a file or a directory are in use. -/
theorem directBlocks_used (hw : s.vol.Wf) {ino : Nat} {i : Bytes} (hr : s.vol.Reach {2} ino)
    (hi : s.vol.inode ino = some i) (hm : isFileMode i = true ∨ isDirMode i = true) {b : Nat}
    (hb : b ∈ directBlocks i) : b ∈ s.vol.busy ∧ ¬ s.vol.layout.Reserved b := by
  rw [s.vol.directBlocks_eq] at hb
  obtain ⟨pos, hpos, rfl⟩ := List.mem_map.1 hb
  have hmem : pos ∈ s.vol.heldPositions i := List.mem_append_left _ hpos
  exact hw.busy ino pos _ hr ⟨i, hi, hm, Vol.holds_of_mem_heldPositions hmem⟩

/-- Where a path resolves, its parent is a directory. -/
theorem Vol.parent_isDir {v : Vol} {path parent name : List UInt8}
    (h : SplitsTo path parent name) (hne : v.resolve path ≠ 0) :
    v.Reach {2} (v.resolve parent) ∧ ∃ dir, v.inode (v.resolve parent) = some dir ∧
      isDirMode dir = true := by
  have hp := resolve_parent_ne_zero h hne
  rw [resolve_split h hp] at hne
  refine ⟨reach_resolve hp, ?_⟩
  cases hcomps : components name with
  | nil => exact absurd hcomps (components_ne_nil h.slash_notMem h.ne_nil)
  | cons comp comps =>
      rw [hcomps] at hne
      obtain ⟨dir, hdir, hd, -⟩ := resolveFrom_cons_ne_zero hne
      exact ⟨dir, hdir, hd⟩

/-! ### Removing the entry -/

section Entry

variable (h : s.Ok) (hsuper : s.vol.layout.ApartFromSuper) (hw : s.vol.Wf) {ino : Nat} {i : Bytes}
  (hr : s.vol.Reach {2} ino) (hi : s.vol.inode ino = some i) (hf : isFileMode i = true)
  {d : Nat} {dir : Bytes} (hrd : s.vol.Reach {2} d) (hdir : s.vol.inode d = some dir)
  (hd : isDirMode dir = true) (name : List UInt8)

include h hsuper hw hr hi hf hrd hdir hd

/-- The blocks are given back first. The entry is searched as if they were not. -/
theorem deleteIn_steps : ∃ u, s.Gives u (heldBlocks s.img i) ∧ u.vol.inode d = some dir ∧
    findEntry u.img name (directBlocks dir) = findEntry s.img name (directBlocks dir) ∧
    deleteIn s ino i d name =
      let e := removeDirent u d name
      if !e.1 then (false, e.2) else (true, freeInode e.2 ino) := by
  obtain ⟨hnodup, hheld⟩ := heldBlocks_spec hw hr hi hf
  have hgive := giveHeld_spec h hsuper (fun b hb => (hheld b hb).2) hnodup
  refine ⟨_, hgive, ?_, ?_, rfl⟩
  · rw [hgive.vol]
    exact hdir
  · exact findEntry_congr hgive.keeps.geo
      (fun b hb => hgive.disk_eq (directBlocks_used hw hrd hdir (Or.inr hd) hb).2) name

theorem deleteIn_eq_true_iff : (deleteIn s ino i d name).1 = true ↔
    findEntry s.img name (directBlocks dir) ≠ none := by
  obtain ⟨u, hgive, hdir', hfind, heq⟩ := deleteIn_steps h hsuper hw hr hi hf hrd hdir hd name
  have hremove := removeDirent_eq_true_iff hgive.ok hdir' name
  rw [← hfind, ← hremove, heq]
  dsimp only
  cases (removeDirent u d name).1 <;> simp

/-- If the entry is not found the blocks are lost for the file. -/
theorem deleteIn_missing (hmissing : findEntry s.img name (directBlocks dir) = none) :
    (deleteIn s ino i d name).1 = false ∧
      s.Turns (deleteIn s ino i d name).2 (s.vol.giveAll (heldBlocks s.img i)) := by
  obtain ⟨u, hgive, hdir', hfind, heq⟩ := deleteIn_steps h hsuper hw hr hi hf hrd hdir hd name
  obtain ⟨hfail, hturn⟩ := removeDirent_missing hgive.ok hdir' name (hfind.trans hmissing)
  rw [heq]
  dsimp only
  rw [hfail]
  have hall := hgive.turns.trans hturn
  rw [hgive.vol] at hall
  exact ⟨rfl, hall⟩

end Entry

/-! ### The call -/

/-- The file at a path has no blocks, or its entry is in the direct blocks of its
directory under the name in the path. -/
def DeleteSafe (s : Fs) (path : List UInt8) : Prop :=
  ∀ parent name dir i, splitPath path = some (parent, name) →
    s.vol.inode (s.vol.resolve parent) = some dir → fileInode s path = some i →
    findEntry s.img name (directBlocks dir) ≠ none ∨ heldBlocks s.img i = []

theorem Vol.giveAll_nil (v : Vol) : v.giveAll [] = v := by
  refine Vol.ext rfl rfl rfl ?_ rfl
  simp [giveAll]

/-- **When a failed `ext2_delete_file` leaves no trace.** -/
theorem deleteFile_fails_unchanged_iff (h : s.Ok) (hsuper : s.vol.layout.ApartFromSuper)
    (hw : s.vol.Wf) (path : List UInt8) :
    ((deleteFile s path).1 = false → s.Unchanged (deleteFile s path).2) ↔ DeleteSafe s path := by
  cases hfile : fileInode s path with
  | none =>
      have hno : ∀ i, s.vol.inode (s.vol.resolve path) = some i → isFileMode i = false := by
        intro i hi
        by_contra hf
        rw [(fileInode_eq_some_iff h hw).2 ⟨hi, by simpa using hf⟩] at hfile
        cases hfile
      obtain ⟨-, hreads⟩ := deleteFile_noFile h hw hno
      refine iff_of_true (fun _ => (hreads.turns h).unchanged_self h hw) ?_
      intro parent name dir i _ _ hi
      rw [hfile] at hi
      cases hi
  | some i =>
      obtain ⟨hi, hf⟩ := (fileInode_eq_some_iff h hw).1 hfile
      have hne : s.vol.resolve path ≠ 0 := by
        intro h0
        rw [h0, inode_zero] at hi
        cases hi
      cases hsplit : splitPath path with
      | none =>
          have hsame : deleteFile s path = (false, s) := by
            unfold deleteFile
            rw [hsplit]
            split <;> rfl
          rw [hsame]
          refine iff_of_true (fun _ => (Fs.Reads.refl.turns h).unchanged_self h hw) ?_
          intro parent name dir j hsplit'
          rw [hsplit] at hsplit'
          cases hsplit'
      | some pn =>
          obtain ⟨parent, name⟩ := pn
          obtain ⟨hrd, dir, hdir, hd⟩ := Vol.parent_isDir (splitPath_spec hsplit) hne
          have hr := Vol.reach_resolve hne
          have hsafe : DeleteSafe s path ↔
              findEntry s.img name (directBlocks dir) ≠ none ∨ heldBlocks s.img i = [] := by
            constructor
            · exact fun hsafe => hsafe parent name dir i hsplit hdir hfile
            · intro hc parent' name' dir' i' hsplit' hdir' hfile'
              rw [hsplit] at hsplit'
              obtain ⟨rfl, rfl⟩ := Prod.mk.inj (Option.some.inj hsplit')
              rw [hdir] at hdir'
              rw [hfile] at hfile'
              cases hdir'
              cases hfile'
              exact hc
          obtain ⟨u, hreads, heq⟩ := deleteFile_file h hw hsplit hi hf
          have hok := hreads.ok h
          have hsuper' : u.vol.layout.ApartFromSuper := by
            rw [hreads.vol]
            exact hsuper
          have hw' : u.vol.Wf := by
            rw [hreads.vol]
            exact hw
          rw [← hreads.vol] at hr hi hrd hdir
          rw [hsafe, heq, ← hreads.vol, ← hreads.img]
          have hiff := deleteIn_eq_true_iff hok hsuper' hw' hr hi hf hrd hdir hd name
          by_cases hfound : findEntry u.img name (directBlocks dir) = none
          · obtain ⟨hfail, hturn⟩ := deleteIn_missing hok hsuper' hw' hr hi hf hrd hdir hd name hfound
            obtain ⟨-, hheld⟩ := heldBlocks_spec hw' hr hi hf
            constructor
            · intro hsame
              refine Or.inr (List.eq_nil_iff_forall_not_mem.2 fun b hb => ?_)
              -- a block that is given back was in use
              have hbusy := (hsame hfail).space.busy_eq h hturn.ok
              rw [hturn.vol, ← hreads.vol] at hbusy
              have hmem : b ∈ (u.vol.giveAll (heldBlocks u.img i)).busy := by
                rw [hbusy]
                exact (hheld b hb).2.1
              exact hmem.2 hb
            · intro hc _
              have hnil := hc.resolve_left (not_not.2 hfound)
              rw [hnil, Vol.giveAll_nil] at hturn
              exact .of_reads h hw hreads (hturn.unchanged_self hok hw')
          · refine iff_of_true (fun hfail => ?_) (Or.inl hfound)
            rw [hiff.2 hfound] at hfail
            cases hfail

/-! ### A directory with an indirect block -/

/-- A descriptor with 11 blocks and 5 inodes that are free. -/
def wideBgd : Bgd where
  blockBitmap := 3
  inodeBitmap := 4
  inodeTable := 5
  freeBlocks := 11
  freeInodes := 5
  tail := put16 (fun _ => 0) 16 1

/-- A record that is not in use. -/
def emptyBlock : Bytes := put16 (fun _ => 0) 4 1024

/-- The root directory: the direct blocks 7 to 18 and the indirect block 19. -/
def wideRoot : Bytes :=
  setBlock (direct.foldl (fun i k => setBlock i k (7 + k)) (put16 (put16 (fun _ => 0) 0 0x4000) 26 2))
    12 19

/-- One group of 32 blocks and 16 inodes. The entry of `/b` is in block 20, which is
found through the indirect block, and the file has inode 11 and block 21. -/
def wideImg : Img where
  geo := ⟨1024, 16, 32, 128, 1, 1⟩
  bgdt _ := wideBgd
  disk
    | 2 => wideBgd.bytes
    | 3 => fun i => if i ≤ 1 then 255 else if i = 2 then 31 else 0
    | 4 => fun i => if i = 0 then 255 else if i = 1 then 7 else 0
    | 5 => blit (fun _ => 0) 128 128 wideRoot
    | 6 => blit (fun _ => 0) 256 128 (smallInode 0x8000 1 21)
    | 7 => dotBlock (fun _ => 0) 1024 2 2
    | 19 => put32 (fun _ => 0) 0 20
    | 20 => putEntry emptyBlock 0 11 1 [98]
    | 21 => fun _ => 65
    | _ => emptyBlock

def wideFs : Fs := ⟨true, wideImg, fun _ => 0, fun _ => 0⟩

theorem wideImg_has {a : Area} (h : wideImg.layout.Has a) :
    a = .blockMap 0 ∨ a = .inodeMap 0 ∨ a = .table 0 0 ∨ a = .table 0 1 ∨ a = .desc 0 := by
  refine smallImg_has ?_
  cases a <;> exact h

theorem wideImg_reserved {b : Nat} (h : wideImg.layout.Reserved b) : b ≤ 6 := by
  rcases h with rfl | rfl | ⟨a, ha, rfl⟩
  · omega
  · decide
  · rcases wideImg_has ha with rfl | rfl | rfl | rfl | rfl <;> decide

theorem wideImg_busy {b : Nat} : b ∈ wideImg.vol.busy ↔ 1 ≤ b ∧ b ≤ 21 := by
  have hbits : ∀ k : Fin 32, bitAt (wideImg.disk 3) k.val = true ↔ k.val ≤ 20 := by decide
  constructor
  · rintro ⟨hle, hg, hset⟩
    have hg' : (b - 1) / 32 < 1 := hg
    have hle' : 1 ≤ b := hle
    have hb := (hbits ⟨(b - 1) % 32, by omega⟩).1 hset
    dsimp only at hb
    omega
  · rintro ⟨hle, hb⟩
    have hg : (b - 1) / 32 < 1 := by omega
    refine ⟨hle, hg, (hbits ⟨(b - 1) % 32, by omega⟩).2 ?_⟩
    dsimp only
    omega

theorem wideImg_taken {ino : Nat} : ino ∈ wideImg.vol.taken ↔ 1 ≤ ino ∧ ino ≤ 11 :=
  smallImg_taken

theorem wideImg_sound : wideImg.Sound where
  layout :=
    { size := Or.inl rfl
      inodeSize := by decide
      inodeFits := by decide
      perGroup := by decide
      inodesPerGroup := by decide
      numBlocks := by decide
      numInodes := by decide
      apart := by
        intro a a' ha ha' heq
        rcases wideImg_has ha with rfl | rfl | rfl | rfl | rfl <;>
          rcases wideImg_has ha' with rfl | rfl | rfl | rfl | rfl <;>
          first | rfl | exact absurd heq (by decide)
      nonzero := by
        intro a ha
        rcases wideImg_has ha with rfl | rfl | rfl | rfl | rfl <;> decide }
  reserved b hb hle := by
    have h6 := wideImg_reserved hb
    have hle' : 1 ≤ b := hle
    exact wideImg_busy.2 ⟨hle', by omega⟩
  freeBlocks g hg := by
    decide +revert +kernel
  freeInodes g hg := by
    decide +revert +kernel
  desc g hg := by
    obtain rfl := Nat.lt_one_iff.1 hg
    rfl

theorem wideFs_ok : wideFs.Ok := ⟨rfl, wideImg_sound⟩

theorem wideImg_apart : wideImg.layout.ApartFromSuper := by
  intro a ha
  rcases wideImg_has ha with rfl | rfl | rfl | rfl | rfl <;> decide

def wideRootInode : Bytes := slice (wideImg.disk 5) 128 inodeBytes

def wideFileInode : Bytes := slice (wideImg.disk 6) 256 inodeBytes

theorem wideImg_inode {ino : Nat} (h0 : ino ≠ 0) (h : ino ≤ 16) : wideImg.vol.inode ino =
    some (slice (wideImg.disk (wideImg.inodeBlock ino)) (wideImg.inodeOffset ino)
      inodeBytes) := by
  refine if_neg ?_
  have hg : (ino - 1) / 16 < 1 := by omega
  exact not_or.2 ⟨h0, Nat.not_le.2 hg⟩

theorem wideImg_root : wideImg.vol.inode 2 = some wideRootInode :=
  wideImg_inode (by decide) (by decide)

theorem wideImg_file : wideImg.vol.inode 11 = some wideFileInode :=
  wideImg_inode (by decide) (by decide)

theorem wideFileInode_block : OneBlock wideFileInode 21 := by
  refine ⟨by decide, by decide, fun k hk h0 => ?_⟩
  have hall : ∀ k : Fin 13, k.val ≠ 0 → iBlock wideFileInode k = 0 := by decide
  exact hall ⟨k, by omega⟩ h0

theorem wideRootInode_iBlock {k : Nat} (h : k ≤ 12) : iBlock wideRootInode k = 7 + k := by
  have hall : ∀ k : Fin 13, iBlock wideRootInode k = 7 + k.val := by decide
  exact hall ⟨k, by omega⟩

/-- The block numbers in the indirect block. -/
theorem wideImg_pointer {k : Nat} (h : k < 256) :
    wideImg.vol.blockAt wideRootInode (13 + k) = if k = 0 then 20 else 0 := by
  have h12 := wideRootInode_iBlock (k := 12) le_rfl
  have hdata : wideImg.vol.data 19 = wideImg.disk 19 :=
    Img.data_of_not_reserved fun hres => absurd (wideImg_reserved hres) (by decide)
  have hall : ∀ k : Fin 256, le32 (wideImg.disk 19) (4 * k) = if k.val = 0 then 20 else 0 := by
    decide +kernel
  rw [Vol.blockAt_pointer k (by omega), h12, hdata]
  exact hall ⟨k, h⟩

theorem wideImg_holds {pos b : Nat} (h : wideImg.vol.Holds wideRootInode pos b) :
    pos ≤ 13 ∧ b = 7 + pos := by
  obtain ⟨hpos, hat, hne⟩ := h
  have hpos' : pos < 13 + 256 := hpos
  by_cases h12 : pos ≤ 12
  · rw [Vol.blockAt_direct h12, wideRootInode_iBlock h12] at hat
    omega
  · obtain ⟨k, rfl⟩ : ∃ k, pos = 13 + k := ⟨pos - 13, by omega⟩
    rw [wideImg_pointer (by omega)] at hat
    split at hat
    · omega
    · exact absurd hat.symm hne

theorem wideImg_blocks : wideImg.vol.blocks wideRootInode =
    [7, 8, 9, 10, 11, 12, 13, 14, 15, 16, 17, 18, 20] := by
  have hdirect : (List.range 12).map (wideImg.vol.blockAt wideRootInode) =
      (List.range 12).map (7 + ·) := by
    refine List.map_congr_left fun k hk => ?_
    have hlt := List.mem_range.1 hk
    rw [Vol.blockAt_direct (by omega), wideRootInode_iBlock (by omega)]
  have hpointers : (List.range wideImg.vol.pointers).map
      (fun k => wideImg.vol.blockAt wideRootInode (13 + k)) =
      (List.range 256).map fun k => if k = 0 then 20 else 0 :=
    List.map_congr_left fun k hk => wideImg_pointer (List.mem_range.1 hk)
  unfold Vol.blocks
  rw [hdirect, hpointers]
  decide

theorem wideImg_dataOk : wideFs.vol.DataOk wideRootInode := by
  intro pos b hb hr
  have h6 := wideImg_reserved hr
  have hb' := (wideImg_holds hb).2
  omega

theorem wideImg_entries : wideImg.vol.entries wideRootInode =
    [([46], 2), ([46, 46], 2), ([98], 11)] := by
  have hentries := wideImg_dataOk.entries_eq
  rw [show wideFs.vol.blocks wideRootInode = _ from wideImg_blocks] at hentries
  refine hentries.trans ?_
  decide

theorem wideImg_reach {ino : Nat} : wideImg.vol.Reach {2} ino ↔ ino = 2 ∨ ino = 11 := by
  constructor
  · intro h
    induction h with
    | root hroot => exact Or.inl hroot
    | @entry d i e _ hi hd he ih =>
        rcases ih with rfl | rfl
        · obtain rfl := Option.some.inj (wideImg_root.symm.trans hi)
          rw [wideImg_entries] at he
          simp only [List.mem_cons, List.not_mem_nil, or_false] at he
          rcases he with rfl | rfl | rfl <;> simp
        · obtain rfl := Option.some.inj (wideImg_file.symm.trans hi)
          exact absurd hd (by decide)
  · rintro (rfl | rfl)
    · exact .root rfl
    · have hmem : ([98], 11) ∈ wideImg.vol.entries wideRootInode := by
        rw [wideImg_entries]
        simp
      have hroot : wideImg.vol.Reach {2} 2 := .root rfl
      exact .entry hroot wideImg_root (by decide) hmem

theorem wideImg_ref {ino pos b : Nat} (hr : wideImg.vol.Reach {2} ino)
    (h : wideImg.vol.Ref ino pos b) :
    (ino = 2 ∧ pos ≤ 13 ∧ b = 7 + pos) ∨ (ino = 11 ∧ pos = 0 ∧ b = 21) := by
  obtain ⟨i, hi, -, hpos⟩ := h
  rcases wideImg_reach.1 hr with rfl | rfl
  · obtain rfl := Option.some.inj (wideImg_root.symm.trans hi)
    exact Or.inl ⟨rfl, wideImg_holds hpos⟩
  · obtain rfl := Option.some.inj (wideImg_file.symm.trans hi)
    exact Or.inr ⟨rfl, wideFileInode_block.holds hpos⟩

theorem wideImg_wf : wideImg.vol.Wf where
  layout := wideImg_sound.layout
  root := ⟨rfl, wideRootInode, wideImg_root, by decide⟩
  taken ino hr := by
    rcases wideImg_reach.1 hr with rfl | rfl
    · exact ⟨wideImg_taken.2 (by decide), _, wideImg_root⟩
    · exact ⟨wideImg_taken.2 (by decide), _, wideImg_file⟩
  busy ino pos b hr hb := by
    have hb' := wideImg_ref hr hb
    refine ⟨wideImg_busy.2 (by omega), fun hres => ?_⟩
    have h6 := wideImg_reserved hres
    omega
  unique ino ino' pos pos' b hr hr' hb hb' := by
    have h := wideImg_ref hr hb
    have h' := wideImg_ref hr' hb'
    omega
  dirs ino i hr hi hd := by
    rcases wideImg_reach.1 hr with rfl | rfl
    · obtain rfl := Option.some.inj (wideImg_root.symm.trans hi)
      refine ⟨fun k k' hlt hle h0 => ?_, fun b hb => ?_⟩
      · rw [wideRootInode_iBlock (by omega)] at h0
        omega
      · have hdata : wideImg.vol.data b = wideImg.disk b := by
          obtain ⟨pos, -, hpos⟩ := Vol.holds_of_mem_blocks hb
          exact wideImg_dataOk.data_eq hpos
        rw [wideImg_blocks] at hb
        rw [hdata]
        have hall : ∀ b ∈ [7, 8, 9, 10, 11, 12, 13, 14, 15, 16, 17, 18, 20],
            ∀ p ∈ offsets (wideImg.disk b) 1024, deInode (wideImg.disk b) p ≠ 0 →
              actualLen (wideImg.disk b) p ≤ deRecLen (wideImg.disk b) p := by
          decide
        exact hall b hb
    · obtain rfl := Option.some.inj (wideImg_file.symm.trans hi)
      exact absurd hd (by decide)

theorem deleteFile_fails_unchanged_iff_wide :
    ((deleteFile wideFs [47, 98]).1 = false → wideFs.Unchanged (deleteFile wideFs [47, 98]).2) ↔
      DeleteSafe wideFs [47, 98] :=
  deleteFile_fails_unchanged_iff wideFs_ok wideImg_apart wideImg_wf [47, 98]

/-- `/b` has its entry in the indirect part of the root directory: the call fails, and
the block of the file, which still resolves, is free. -/
theorem deleteFile_fails_changed : wideFs.Ok ∧ wideFs.vol.Wf ∧
    (deleteFile wideFs [47, 98]).1 = false ∧
    (resolve (deleteFile wideFs [47, 98]).2 [47, 98]).1 = 11 ∧
    ¬ wideFs.Unchanged (deleteFile wideFs [47, 98]).2 := by
  refine ⟨wideFs_ok, wideImg_wf, by decide +kernel, by decide +kernel, fun hsame => ?_⟩
  have hfree := congrArg Bgd.freeBlocks (hsame.space.bgdt 0 (by decide))
  have hbefore : (wideFs.img.bgdt 0).freeBlocks = 11 := rfl
  have hafter : ((deleteFile wideFs [47, 98]).2.img.bgdt 0).freeBlocks = 12 := by decide +kernel
  omega

end FiFi.Ext2
