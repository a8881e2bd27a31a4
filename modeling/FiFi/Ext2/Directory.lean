import FiFi.Library.StateMachine
import FiFi.Ext2.Entries

/-!
# A directory over time

A directory without an indirect block is a map from names to inodes. Adding an
entry and removing one change the map at one name, and its blocks are tiled by
their records all the time.
-/

namespace FiFi.Ext2

open ByteStore StateMachine

variable {s t : Fs}

/-! ### Maps -/

/-- The inode has direct blocks only, and its entries are the map `f`. -/
structure Vol.Directory (v : Vol) (dir : Bytes) (f : List UInt8 → Nat) : Prop where
  noIndirect : iBlock dir 12 = 0
  noHole : ∀ k k', k < k' → k' < 12 → iBlock dir k = 0 → iBlock dir k' = 0
  used : ∀ b ∈ directBlocks dir, b ∈ v.busy ∧ ¬ v.layout.Reserved b
  nodup : (directBlocks dir).Nodup
  tiles : ∀ b ∈ directBlocks dir, Tiles (v.data b) v.size 0
  names : ((v.entriesOf (directBlocks dir)).map Prod.fst).Nodup
  lookup : ∀ name, ((v.entriesOf (directBlocks dir)).lookup name).getD 0 = f name

/-- The inode `d` is a directory with the map `f`. -/
structure Fs.HasDirectory (s : Fs) (d : Nat) (f : List UInt8 → Nat) : Prop where
  ok : s.Ok
  apart : s.vol.layout.ApartFromSuper
  directory : ∃ dir, s.vol.inode d = some dir ∧ s.vol.Directory dir f

namespace Vol.Directory

variable {v : Vol} {dir : Bytes} {f : List UInt8 → Nat} (h : v.Directory dir f)

include h

theorem lookup_eq_none_iff {name : List UInt8} :
    (v.entriesOf (directBlocks dir)).lookup name = none ↔ f name = 0 := by
  rw [← h.lookup]
  cases hl : (v.entriesOf (directBlocks dir)).lookup name with
  | none => simp
  | some ino =>
      obtain ⟨l, l', heq, -⟩ := List.lookup_eq_some_iff.1 hl
      have hmem : (name, ino) ∈ v.entriesOf (directBlocks dir) := by simp [heq]
      obtain ⟨b, -, hb⟩ := List.mem_flatMap.1 hmem
      simpa using inode_ne_zero_of_mem_liveAt hb

/-- The map after an entry was put in. -/
theorem insert {w : Vol} {dir' : Bytes} {name : List UInt8} {ino : Nat} (hnew : f name = 0)
    (hent : ∃ l l', v.entriesOf (directBlocks dir) = l ++ l' ∧
      w.entriesOf (directBlocks dir') = l ++ (name, ino) :: l') :
    ((w.entriesOf (directBlocks dir')).map Prod.fst).Nodup ∧ ∀ n,
      ((w.entriesOf (directBlocks dir')).lookup n).getD 0 = Function.update f name ino n := by
  obtain ⟨l, l', hold, hins⟩ := hent
  have hnone := h.lookup_eq_none_iff.2 hnew
  have hnames := h.names
  have hlookup := h.lookup
  rw [hold] at hnone hnames hlookup
  rw [hins]
  refine ⟨AssocList.nodup_insert hnames hnone ino, fun n => ?_⟩
  rw [AssocList.lookup_insert hnone, Function.update_apply, ← hlookup]
  simp only [beq_iff_eq]
  split <;> rfl

/-- The map after an entry was taken out. -/
theorem remove {w : Vol} {name : List UInt8} {ino : Nat}
    (hent : ∃ l l', v.entriesOf (directBlocks dir) = l ++ (name, ino) :: l' ∧
      w.entriesOf (directBlocks dir) = l ++ l') :
    ((w.entriesOf (directBlocks dir)).map Prod.fst).Nodup ∧ ∀ n,
      ((w.entriesOf (directBlocks dir)).lookup n).getD 0 = Function.update f name 0 n := by
  obtain ⟨l, l', hold, hrem⟩ := hent
  have hnames := h.names
  have hlookup := h.lookup
  rw [hold] at hnames hlookup
  rw [hrem]
  refine ⟨AssocList.nodup_remove hnames, fun n => ?_⟩
  rw [AssocList.lookup_remove hnames, Function.update_apply, ← hlookup]
  simp only [beq_iff_eq]
  split <;> rfl

/-- A block of the directory is written. -/
theorem put {b : Nat} {page : Bytes} (htiles : Tiles page v.size 0)
    {g : List UInt8 → Nat}
    (hmap : (((v.put b page).entriesOf (directBlocks dir)).map Prod.fst).Nodup ∧ ∀ n,
      (((v.put b page).entriesOf (directBlocks dir)).lookup n).getD 0 = g n) :
    (v.put b page).Directory dir g where
  noIndirect := h.noIndirect
  noHole := h.noHole
  used := h.used
  nodup := h.nodup
  tiles c hc := by
    by_cases hcb : c = b
    · rw [hcb, put_data_self]
      exact htiles
    · rw [put_data_ne page hcb]
      exact h.tiles c hc
  names := hmap.1
  lookup := hmap.2

/-- The directory gets a block more. -/
theorem grow {d b ino : Nat} {dir' page : Bytes} {name : List UInt8} (hb : v.Free b)
    (hlen : (directBlocks dir).length < 12)
    (hblock : ∀ j ≤ 12, iBlock dir' j =
      if j = (directBlocks dir).length then b else iBlock dir j)
    (htiles : Tiles page v.size 0) (hlive : liveFrom page v.size 0 = [(name, ino)])
    (hnew : f name = 0) :
    (((v.take b).put b page).setInode d dir').Directory dir' (Function.update f name ino) := by
  have hb0 := hb.ne_zero
  have hend : ∀ k, (directBlocks dir).length < k → k < 12 → iBlock dir k = 0 := fun k hlt hk =>
    h.noHole _ k hlt hk (iBlock_length_directBlocks hlen)
  have hdirect := directBlocks_append hb0 hlen hend hblock
  have hnot : b ∉ directBlocks dir := fun hmem => hb.notBusy (h.used b hmem).1
  generalize hw : ((v.take b).put b page).setInode d dir' = w
  have hsize : w.size = v.size := by
    rw [← hw]
    rfl
  have hself : w.data b = page := by
    rw [← hw]
    exact Function.update_self _ _ _
  have hne : ∀ c ∈ directBlocks dir, w.data c = v.data c := by
    intro c hc
    rw [← hw]
    exact Function.update_of_ne (ne_of_mem_of_not_mem hc hnot) _ _
  have hent : w.entriesOf (directBlocks dir') = v.entriesOf (directBlocks dir) ++ [(name, ino)] := by
    rw [hdirect, entriesOf_append, entriesOf_congr hsize hne]
    congr 1
    refine (List.flatMap_singleton _ _).trans ?_
    rw [hself, hsize, hlive]
  obtain ⟨hnames, hlookup⟩ := h.insert hnew ⟨_, [], (List.append_nil _).symm, hent⟩
  refine ⟨?_, fun k k' hlt hk' hk => ?_, ?_, ?_, ?_, hnames, hlookup⟩
  · rw [hblock 12 le_rfl, if_neg (by omega), h.noIndirect]
  · rw [hblock k (by omega)] at hk
    split at hk
    · exact absurd hk hb0
    · have hge : (directBlocks dir).length < k := by
        by_contra hc
        exact iBlock_ne_zero_of_lt (by omega) hk
      rw [hblock k' (by omega), if_neg (by omega)]
      exact hend k' (by omega) hk'
  · intro c hc
    rw [← hw]
    rw [hdirect] at hc
    rcases List.mem_append.1 hc with hc | hc
    · exact ⟨Set.mem_insert_of_mem _ (h.used c hc).1, (h.used c hc).2⟩
    · rw [List.mem_singleton.1 hc]
      exact ⟨Set.mem_insert _ _, hb.notReserved⟩
  · rw [hdirect]
    exact h.nodup.append (List.nodup_singleton b) (by simpa using hnot)
  · intro c hc
    rw [hdirect] at hc
    rw [hsize]
    rcases List.mem_append.1 hc with hc | hc
    · rw [hne c hc]
      exact h.tiles c hc
    · rw [List.mem_singleton.1 hc, hself]
      exact htiles

end Vol.Directory

/-! ### Steps -/

namespace Fs.HasDirectory

variable {d : Nat} {f : List UInt8 → Nat}

theorem size (h : s.HasDirectory d f) :
    (1024 ≤ s.vol.size ∧ s.vol.size ≤ 4096) ∧ 4 ∣ s.vol.size := by
  have hsize : s.vol.size = 1024 ∨ s.vol.size = 2048 ∨ s.vol.size = 4096 :=
    h.ok.sound.layout.size
  omega

theorem of_turns (h : s.HasDirectory d f) (hturn : s.Turns t s.vol) : t.HasDirectory d f := by
  refine ⟨hturn.ok, ?_, ?_⟩
  · rw [hturn.vol]
    exact h.apart
  · rw [hturn.vol]
    exact h.directory

theorem addDirent_false (h : s.HasDirectory d f) {name : List UInt8} {ino ftype : Nat}
    (hfail : (addDirent s d name ino ftype).1 = false) :
    (addDirent s d name ino ftype).2.HasDirectory d f := by
  obtain ⟨dir, hdir, -⟩ := h.directory
  exact h.of_turns (addDirent_fails h.ok hdir name ino ftype h.apart hfail)

/-- A name is added that the directory does not have. -/
theorem addDirent_true (h : s.HasDirectory d f) {name : List UInt8} {ino ftype : Nat}
    (hname : name.length ≤ 255) (h0 : ino ≠ 0) (hino : ino < 2 ^ 32) (hnew : f name = 0)
    (hdone : (addDirent s d name ino ftype).1 = true) :
    (addDirent s d name ino ftype).2.HasDirectory d (Function.update f name ino) := by
  obtain ⟨dir, hdir, hmap⟩ := h.directory
  obtain ⟨hsize, h4⟩ := h.size
  cases hroom : findRoom s.img (entrySize name.length) (directBlocks dir) with
  | some bp =>
      obtain ⟨b, p⟩ := bp
      obtain ⟨hb, hslot⟩ := findRoom_some hroom
      obtain ⟨-, hres⟩ := hmap.used b hb
      have hdata : s.vol.data b = s.img.disk b := Img.data_of_not_reserved hres
      obtain ⟨-, hturn⟩ := addDirent_room h.ok hdir name ino ftype hroom hres
      rw [← hdata] at hslot hturn
      obtain ⟨hp, hslack⟩ := findSlot_some hslot
      have htiles := hmap.tiles b hb
      refine ⟨hturn.ok, ?_, dir, ?_, ?_⟩
      · rw [hturn.vol]
        exact h.apart
      · rw [hturn.vol]
        exact hdir
      · rw [hturn.vol]
        exact hmap.put (htiles.insertAt ftype hsize.2 hp hname h0 hino hslack)
          (hmap.insert hnew (Vol.entriesOf_insertAt hb hmap.nodup hsize.2 htiles.recordsFrom ftype
            hp hname h0 hino hslack))
  | none =>
      have hok : ¬ ((directBlocks dir).length = 12 ∨ s.vol.freeSet = ∅) := by
        intro hfull
        rw [(addDirent_full h.ok hdir name ino ftype h.apart hroom hfull).1] at hdone
        cases hdone
      obtain ⟨hlen, hfree⟩ := not_or.1 hok
      have hlen' := length_directBlocks dir
      obtain ⟨-, b, page, hb, hturn⟩ :=
        addDirent_grow h.ok hdir name ino ftype h.apart hroom hlen hfree
      refine ⟨hturn.ok, ?_, grownInode s dir (directBlocks dir).length b, ?_, ?_⟩
      · rw [hturn.vol]
        exact h.apart
      · rw [hturn.vol]
        exact Vol.setInode_self _ _
      · rw [hturn.vol]
        exact hmap.grow hb (by omega) (fun j => iBlock_grownInode s dir hb.small)
          (tiles_newDirBlock page hsize h4 hname) (liveFrom_newDirBlock page hsize hname h0 hino).1
          hnew

theorem removeDirent (h : s.HasDirectory d f) (name : List UInt8) :
    (Ext2.removeDirent s d name).2.HasDirectory d
      (if (Ext2.removeDirent s d name).1 then Function.update f name 0 else f) := by
  obtain ⟨dir, hdir, hmap⟩ := h.directory
  cases hfound : findEntry s.img name (directBlocks dir) with
  | none =>
      obtain ⟨hfail, hturn⟩ := removeDirent_missing h.ok hdir name hfound
      rw [hfail]
      exact h.of_turns hturn
  | some bp =>
      obtain ⟨b, p⟩ := bp
      obtain ⟨hb, hname⟩ := findEntry_some hfound
      obtain ⟨-, hres⟩ := hmap.used b hb
      have hdata : s.vol.data b = s.img.disk b := Img.data_of_not_reserved hres
      obtain ⟨hdone, hturn⟩ := removeDirent_found h.ok hdir name hfound hres
      rw [← hdata] at hname hturn
      obtain ⟨hp, hlive, rfl⟩ := findName_some hname
      have htiles := hmap.tiles b hb
      rw [hdone, if_pos rfl]
      refine ⟨hturn.ok, ?_, dir, ?_, ?_⟩
      · rw [hturn.vol]
        exact h.apart
      · rw [hturn.vol]
        exact hdir
      · rw [hturn.vol]
        exact hmap.put (htiles.remove hp)
          (hmap.remove (Vol.entriesOf_remove hb hmap.nodup htiles.recordsFrom hp hlive))

/-- `e2_lookup` finds what the map says. -/
theorem lookup_eq (h : s.HasDirectory d f) {dir : Bytes} (hdir : s.vol.inode d = some dir)
    (name : List UInt8) : (lookup s dir name).1 = f name := by
  obtain ⟨dir', hdir', hmap⟩ := h.directory
  obtain rfl : dir = dir' := Option.some.inj (hdir.symm.trans hdir')
  have hdata : s.vol.DataOk dir := by
    rintro pos b ⟨-, rfl, hb0⟩
    unfold Vol.blockAt at hb0 ⊢
    split at hb0
    · rename_i hpos
      rw [if_pos hpos]
      have hlt : pos < (directBlocks dir).length := by
        by_contra hge
        rcases Nat.eq_or_lt_of_le hpos with rfl | hpos
        · exact hb0 hmap.noIndirect
        · have hend := iBlock_length_directBlocks (i := dir) (by omega)
          rcases Nat.eq_or_lt_of_le (Nat.not_lt.1 hge) with heq | hgt
          · exact hb0 (heq ▸ hend)
          · exact hb0 (hmap.noHole _ pos hgt hpos hend)
      refine (hmap.used _ ?_).2
      rw [directBlocks_eq_range dir]
      exact List.mem_map_of_mem (List.mem_range.2 hlt)
    · rw [if_pos hmap.noIndirect] at hb0
      exact absurd rfl hb0
  have hblocks : s.vol.blocks dir = directBlocks dir := by
    rw [hdata.blocks_eq, pointersOf, if_pos hmap.noIndirect]
    exact List.append_nil _
  rw [(lookup_spec hdata name).2, ← hmap.lookup, Vol.lookup, Vol.entries_eq_entriesOf, hblocks]

theorem tiles (h : s.HasDirectory d f) {dir : Bytes} (hdir : s.vol.inode d = some dir) {b : Nat}
    (hb : b ∈ directBlocks dir) : Tiles (s.img.disk b) s.blockSize 0 := by
  obtain ⟨dir', hdir', hmap⟩ := h.directory
  obtain rfl : dir = dir' := Option.some.inj (hdir.symm.trans hdir')
  have hdata : s.vol.data b = s.img.disk b := Img.data_of_not_reserved (hmap.used b hb).2
  exact hdata ▸ hmap.tiles b hb

end Fs.HasDirectory

/-! ### Runs -/

/-- The calls that change a directory. -/
inductive DirOp where
  | add (name : List UInt8) (ino ftype : Nat)
  | remove (name : List UInt8)

namespace DirOp

def name : DirOp → List UInt8
  | add name _ _ => name
  | remove name => name

/-- What the name stands for after the call. -/
def ino : DirOp → Nat
  | add _ ino _ => ino
  | remove _ => 0

def run (s : Fs) (d : Nat) : DirOp → Bool × Fs
  | add name ino ftype => addDirent s d name ino ftype
  | remove name => removeDirent s d name

/-- What a name stands for after the calls of `done`, the last one first; `f` says
what it stood for at the beginning. -/
def latest (f : List UInt8 → Nat) (done : List DirOp) (n : List UInt8) : Nat :=
  match done.find? fun op => op.name = n with
  | some op => op.ino
  | none => f n

/-- Names of 1 to 255 bytes are added, that the directory does not have. -/
def Legal (f : List UInt8 → Nat) (x : Fs × List DirOp) : DirOp → Prop
  | add name ino _ => 1 ≤ name.length ∧ name.length ≤ 255 ∧ ino ≠ 0 ∧ ino < 2 ^ 32 ∧
      latest f x.2 name = 0
  | remove _ => True

theorem latest_cons (f : List UInt8 → Nat) (op : DirOp) (done : List DirOp) :
    latest f (op :: done) = Function.update (latest f done) op.name op.ino := by
  funext n
  rw [Function.update_apply]
  unfold latest
  by_cases hn : op.name = n
  · rw [List.find?_cons_of_pos (by simpa using hn), if_pos hn.symm]
  · rw [List.find?_cons_of_neg (by simpa using hn), if_neg fun h => hn h.symm]

end DirOp

/-- A call on the directory `d`. The calls that succeed are recorded. -/
def dirStep (d : Nat) (x : Fs × List DirOp) (op : DirOp) : Fs × List DirOp :=
  let r := op.run x.1 d
  (r.2, if r.1 then op :: x.2 else x.2)

theorem hasDirectory_step {d : Nat} {f : List UInt8 → Nat} {x : Fs × List DirOp} {op : DirOp}
    (h : x.1.HasDirectory d (DirOp.latest f x.2)) (hop : DirOp.Legal f x op) :
    (dirStep d x op).1.HasDirectory d (DirOp.latest f (dirStep d x op).2) := by
  cases op with
  | add name ino ftype =>
      obtain ⟨-, hname, h0, hino, hnew⟩ := hop
      unfold dirStep DirOp.run
      cases hdone : (addDirent x.1 d name ino ftype).1 with
      | true =>
          simp only [hdone, if_true, DirOp.latest_cons]
          exact h.addDirent_true hname h0 hino hnew hdone
      | false =>
          simp only [hdone, Bool.false_eq_true, if_false]
          exact h.addDirent_false hdone
  | remove name =>
      have hremove := h.removeDirent name
      unfold dirStep DirOp.run
      cases hdone : (removeDirent x.1 d name).1 with
      | true =>
          rw [hdone, if_pos rfl] at hremove
          simp only [hdone, if_true, DirOp.latest_cons]
          exact hremove
      | false =>
          rw [hdone, if_neg Bool.false_ne_true] at hremove
          simp only [hdone, Bool.false_eq_true, if_false]
          exact hremove

/-- **A directory stays well formed and represents a map.** -/
theorem directory_run {d : Nat} {f : List UInt8 → Nat} (h : s.HasDirectory d f)
    {ops : List DirOp} (hops : AllSteps (dirStep d) (DirOp.Legal f) (s, []) ops) :
    ∃ dir, (run (dirStep d) (s, []) ops).1.vol.inode d = some dir ∧
      (∀ b ∈ directBlocks dir, Tiles ((run (dirStep d) (s, []) ops).1.img.disk b)
        (run (dirStep d) (s, []) ops).1.blockSize 0) ∧
      ∀ name, (lookup (run (dirStep d) (s, []) ops).1 dir name).1 =
        DirOp.latest f (run (dirStep d) (s, []) ops).2 name := by
  have hinv := inv_run (fun x : Fs × List DirOp => x.1.HasDirectory d (DirOp.latest f x.2))
    (fun _ _ hx hop => hasDirectory_step hx hop) (s := (s, [])) h hops
  obtain ⟨dir, hdir, -⟩ := hinv.directory
  exact ⟨dir, hdir, fun b hb => hinv.tiles hdir hb, hinv.lookup_eq hdir⟩

/-! ### The root of the small volume -/

theorem smallRoot_tiles : Tiles smallRoot 1024 0 := by
  have h0 : deRecLen smallRoot 0 = 12 := by decide
  have h12 : deRecLen smallRoot 12 = 12 := by decide
  have h24 : deRecLen smallRoot 24 = 1000 := by decide
  refine .record (by decide) (by decide) (by decide) ?_
  rw [h0]
  refine .record (by decide) (by decide) (by decide) ?_
  rw [Nat.zero_add, h12]
  refine .record (by decide) (by decide) (by decide) ?_
  rw [show 12 + 12 = 24 from rfl, h24]
  exact .last

theorem smallFs_directBlocks : directBlocks smallRootInode = [7] := by decide

theorem smallFs_hasDirectory : smallFs.HasDirectory 2 fun name =>
    (([([46], 2), ([46, 46], 2), ([97], 11)] : List Entry).lookup name).getD 0 := by
  have hdata : smallFs.vol.data 7 = smallRoot :=
    Img.data_of_not_reserved fun hres => absurd (smallImg_reserved hres) (by decide)
  have hent : smallFs.vol.entriesOf (directBlocks smallRootInode) =
      [([46], 2), ([46, 46], 2), ([97], 11)] := by
    have hblocks : smallFs.vol.blocks smallRootInode = [7] :=
      smallRootInode_block.blocks (by decide)
    rw [smallFs_directBlocks, ← hblocks]
    exact smallImg_entries
  refine ⟨smallFs_ok, smallFs_consistent.apart, smallRootInode, smallImg_root, ?_⟩
  refine ⟨smallRootInode_block.rest 12 le_rfl (by decide), fun k k' hlt hk' _ =>
    smallRootInode_block.rest k' (by omega) (by omega), fun b hb => ?_, ?_, fun b hb => ?_, ?_, ?_⟩
  · rw [smallFs_directBlocks] at hb
    obtain rfl := List.mem_singleton.1 hb
    exact ⟨smallImg_busy.2 (by decide), fun hres => absurd (smallImg_reserved hres) (by decide)⟩
  · rw [smallFs_directBlocks]
    exact List.nodup_singleton 7
  · rw [smallFs_directBlocks] at hb
    obtain rfl := List.mem_singleton.1 hb
    rw [hdata]
    exact smallRoot_tiles
  · rw [hent]
    decide
  · intro name
    rw [hent]

/-- `b` is added to the root of the small volume, then `a` is removed. -/
theorem directory_run_small :
    ∃ dir, (run (dirStep 2) (smallFs, []) [.add [98] 12 1, .remove [97]]).1.vol.inode 2 =
        some dir ∧
      (∀ b ∈ directBlocks dir,
        Tiles ((run (dirStep 2) (smallFs, []) [.add [98] 12 1, .remove [97]]).1.img.disk b)
          (run (dirStep 2) (smallFs, []) [.add [98] 12 1, .remove [97]]).1.blockSize 0) ∧
      ∀ name, (lookup (run (dirStep 2) (smallFs, []) [.add [98] 12 1, .remove [97]]).1
          dir name).1 =
        DirOp.latest (fun name =>
          (([([46], 2), ([46, 46], 2), ([97], 11)] : List Entry).lookup name).getD 0)
          (run (dirStep 2) (smallFs, []) [.add [98] 12 1, .remove [97]]).2 name :=
  directory_run smallFs_hasDirectory
    ⟨⟨by decide, by decide, by decide, by decide, by decide⟩, trivial, trivial⟩

end FiFi.Ext2
