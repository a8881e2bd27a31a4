import FiFi.Library.KeyedTable
import FiFi.Ext2.Tiles
import FiFi.Ext2.Dirents
import FiFi.Ext2.Overwrite

/-!
# The entries in a list of blocks

A directory is a list of blocks with a list of entries. A call of `e2_add_dirent`
puts one entry in somewhere, in a block with room or in a new block at the end,
and `e2_remove_dirent` takes one out. The other entries stay in their order.
-/

namespace FiFi.Ext2

open ByteStore

variable {s : Fs}

/-! ### Lists of blocks -/

namespace Vol

variable {v w : Vol} {bs : List Nat} {b : Nat}

/-- The entries in use in a list of blocks. -/
def entriesOf (v : Vol) (bs : List Nat) : List Entry :=
  bs.flatMap fun b => liveFrom (v.data b) v.size 0

theorem entries_eq_entriesOf (v : Vol) (i : Bytes) : v.entries i = v.entriesOf (v.blocks i) := rfl

theorem entriesOf_append (v : Vol) (bs cs : List Nat) :
    v.entriesOf (bs ++ cs) = v.entriesOf bs ++ v.entriesOf cs := List.flatMap_append

theorem entriesOf_congr (hsize : w.size = v.size) (h : ∀ b ∈ bs, w.data b = v.data b) :
    w.entriesOf bs = v.entriesOf bs := by
  refine List.flatMap_congr fun b hb => ?_
  rw [h b hb, hsize]

/-- One block of the list is replaced. -/
theorem entriesOf_put (hb : b ∈ bs) (hnodup : bs.Nodup) (page : Bytes) :
    ∃ es es', v.entriesOf bs = es ++ (liveFrom (v.data b) v.size 0 ++ es') ∧
      (v.put b page).entriesOf bs = es ++ (liveFrom page v.size 0 ++ es') := by
  obtain ⟨as, cs, rfl⟩ := List.append_of_mem hb
  obtain ⟨hnot, -⟩ := List.nodup_cons.1 (List.nodup_middle.1 hnodup)
  have hsame : ∀ ds : List Nat, b ∉ ds → (v.put b page).entriesOf ds = v.entriesOf ds :=
    fun ds hds => entriesOf_congr rfl fun c hc =>
      put_data_ne page (ne_of_mem_of_not_mem hc hds)
  have hself : (v.put b page).entriesOf [b] = liveFrom page v.size 0 := by
    unfold entriesOf
    rw [List.flatMap_singleton, put_data_self]
    rfl
  have hcons : ∀ u : Vol, u.entriesOf (as ++ b :: cs) =
      u.entriesOf as ++ (u.entriesOf [b] ++ u.entriesOf cs) := by
    intro u
    rw [entriesOf_append, ← List.singleton_append, entriesOf_append]
  refine ⟨v.entriesOf as, v.entriesOf cs, ?_, ?_⟩
  · rw [hcons]
    congr 2
    exact List.flatMap_singleton _ _
  · rw [hcons, hself, hsame as fun h => hnot (List.mem_append_left _ h),
      hsame cs fun h => hnot (List.mem_append_right _ h)]

/-- An entry is put into one of the blocks. -/
theorem entriesOf_insertAt (hb : b ∈ bs) (hnodup : bs.Nodup) (hsize : v.size ≤ 4096)
    (hok : RecordsFrom (v.data b) v.size 0) {p ino : Nat} {name : List UInt8} (ftype : Nat)
    (hp : p ∈ chainAt (v.data b) v.size 0) (hname : name.length ≤ 255) (h0 : ino ≠ 0)
    (hino : ino < 2 ^ 32) (hslack : entrySize name.length ≤ slack (v.data b) p) :
    ∃ l l', v.entriesOf bs = l ++ l' ∧
      (v.put b (insertAt (v.data b) p ino ftype name)).entriesOf bs = l ++ (name, ino) :: l' := by
  obtain ⟨⟨l, l', hold, hnew⟩, -⟩ :=
    liveFrom_insertAt ftype hsize hp hok hname h0 hino hslack
  obtain ⟨es, es', hbefore, hafter⟩ :=
    entriesOf_put hb hnodup (insertAt (v.data b) p ino ftype name)
  refine ⟨es ++ l, l' ++ es', ?_, ?_⟩
  · rw [hbefore, hold]
    simp
  · rw [hafter, hnew]
    simp

/-- An entry of one of the blocks is taken out. -/
theorem entriesOf_remove (hb : b ∈ bs) (hnodup : bs.Nodup)
    (hok : RecordsFrom (v.data b) v.size 0) {p : Nat} (hp : p ∈ chainAt (v.data b) v.size 0)
    (hlive : deInode (v.data b) p ≠ 0) :
    ∃ l l', v.entriesOf bs = l ++ (deName (v.data b) p, deInode (v.data b) p) :: l' ∧
      (v.put b (put32 (v.data b) p 0)).entriesOf bs = l ++ l' := by
  obtain ⟨⟨l, l', hold, hnew⟩, -⟩ := liveFrom_remove hp hok hlive
  obtain ⟨es, es', hbefore, hafter⟩ := entriesOf_put hb hnodup (put32 (v.data b) p 0)
  refine ⟨es ++ l, l' ++ es', ?_, ?_⟩
  · rw [hbefore, hold]
    simp
  · rw [hafter, hnew]
    simp

end Vol

/-! ### The searches -/

theorem findSlot_some {b : Bytes} {size needed p : Nat} (h : findSlot b size needed = some p) :
    p ∈ chainAt b size 0 ∧ needed ≤ slack b p :=
  ⟨List.mem_of_find?_eq_some h, by simpa using List.find?_some h⟩

theorem findName_some {b : Bytes} {size p : Nat} {name : List UInt8}
    (h : findName b size name = some p) :
    p ∈ chainAt b size 0 ∧ deInode b p ≠ 0 ∧ deName b p = name := by
  have hp := List.find?_some h
  simp only [nameEq, Bool.and_eq_true, decide_eq_true_eq] at hp
  exact ⟨List.mem_of_find?_eq_some h, hp⟩

/-- Nothing is found where no entry has the name. -/
theorem findEntry_eq_none_iff (m : Img) (name : List UInt8) (bs : List Nat) :
    findEntry m name bs = none ↔ (entriesIn m bs).lookup name = none := by
  induction bs with
  | nil => simp [findEntry, entriesIn]
  | cons b bs ih =>
      rw [findEntry_cons, entriesIn_cons, List.lookup_append, Option.or_eq_none_iff, ← ih,
        lookup_liveAt, Option.map_eq_none_iff]
      cases hfind : findName (m.disk b) m.geo.blockSize name with
      | none => exact ⟨fun hrest => ⟨hfind, hrest⟩, fun hc => hc.2⟩
      | some p =>
          refine iff_of_false (by simp) fun hc => ?_
          exact absurd (hfind.symm.trans hc.1) (by simp)

/-- Data blocks are read from the disk. -/
theorem entriesOf_eq_entriesIn {bs : List Nat} (h : ∀ b ∈ bs, ¬ s.vol.layout.Reserved b) :
    s.vol.entriesOf bs = entriesIn s.img bs := by
  refine List.flatMap_congr fun b hb => ?_
  rw [show s.vol.data b = s.img.disk b from Img.data_of_not_reserved (h b hb)]
  rfl

/-! ### The direct blocks of an inode -/

theorem iBlock_ne_zero_of_lt {i : Bytes} {k : Nat} (h : k < (directBlocks i).length) :
    iBlock i k ≠ 0 := by
  have hpre : directBlocks i <+: direct.map (iBlock i) := List.takeWhile_prefix _
  have hget : (directBlocks i)[k] = iBlock i k := by
    rw [hpre.getElem h, List.getElem_map]
    exact congrArg (iBlock i) (List.getElem_range _)
  rw [← hget]
  exact ne_zero_of_mem_directBlocks (List.getElem_mem h)

/-- What comes before the first that may be missing. -/
theorem directBlocks_split {i : Bytes} {n : Nat} (hn : n ≤ 12) (hne : ∀ k < n, iBlock i k ≠ 0) :
    directBlocks i = (List.range n).map (iBlock i) ++
      ((List.range' n (12 - n)).map (iBlock i)).takeWhile (· ≠ 0) := by
  have hsplit : direct = List.range n ++ List.range' n (12 - n) := by
    have happ := List.range'_append_1 (s := 0) (m := n) (n := 12 - n)
    rw [Nat.zero_add, Nat.add_sub_cancel' hn] at happ
    unfold direct
    rw [List.range_eq_range', List.range_eq_range', happ]
  unfold directBlocks
  rw [hsplit, List.map_append, List.takeWhile_append_of_pos]
  intro b hb
  obtain ⟨k, hk, rfl⟩ := List.mem_map.1 hb
  simpa using hne k (List.mem_range.1 hk)

/-- The direct blocks end with the first that is missing. -/
theorem directBlocks_eq_map {i : Bytes} {n : Nat} (hn : n ≤ 12) (hne : ∀ k < n, iBlock i k ≠ 0)
    (hend : n < 12 → iBlock i n = 0) : directBlocks i = (List.range n).map (iBlock i) := by
  rw [directBlocks_split hn hne]
  rcases Nat.lt_or_ge n 12 with hlt | hge
  · obtain ⟨m, hm⟩ : ∃ m, 12 - n = m + 1 := ⟨11 - n, by omega⟩
    rw [hm, List.range'_succ, List.map_cons, List.takeWhile_cons_of_neg (by simp [hend hlt]),
      List.append_nil]
  · rw [show 12 - n = 0 by omega]
    simp

theorem iBlock_length_directBlocks {i : Bytes} (h : (directBlocks i).length < 12) :
    iBlock i (directBlocks i).length = 0 := by
  by_contra hne
  have hall : ∀ k < (directBlocks i).length + 1, iBlock i k ≠ 0 := by
    intro k hk
    rcases Nat.lt_succ_iff_lt_or_eq.1 hk with hlt | rfl
    · exact iBlock_ne_zero_of_lt hlt
    · exact hne
  have hlen := congrArg List.length (directBlocks_split (by omega) hall)
  rw [List.length_append, List.length_map, List.length_range] at hlen
  omega

/-- The direct blocks as the numbers at their positions. -/
theorem directBlocks_eq_range (i : Bytes) :
    directBlocks i = (List.range (directBlocks i).length).map (iBlock i) :=
  directBlocks_eq_map (length_directBlocks i) (fun _ => iBlock_ne_zero_of_lt)
    iBlock_length_directBlocks

theorem iBlock_grownInode (s : Fs) (dir : Bytes) {k b j : Nat} (hb : b < 2 ^ 32) (hj : j ≤ 12) :
    iBlock (grownInode s dir k b) j = if j = k then b else iBlock dir j := by
  have hkeep : iBlock (grownInode s dir k b) j = iBlock (setBlock dir k b) j := by
    unfold grownInode
    rw [iBlock_slice _ hj]
    exact (le32_put32_ne _ _ (by omega)).trans (le32_put32_ne _ _ (by omega))
  rw [hkeep, iBlock_setBlock _ _ _ _ hb]

/-- A block is added behind the direct blocks. -/
theorem directBlocks_append {dir i : Bytes} {b : Nat} (hb0 : b ≠ 0)
    (hlen : (directBlocks dir).length < 12)
    (hend : ∀ k, (directBlocks dir).length < k → k < 12 → iBlock dir k = 0)
    (hblock : ∀ j ≤ 12, iBlock i j = if j = (directBlocks dir).length then b else iBlock dir j) :
    directBlocks i = directBlocks dir ++ [b] := by
  have hall : ∀ k < (directBlocks dir).length + 1, iBlock i k ≠ 0 := by
    intro k hk
    rw [hblock k (by omega)]
    split
    · exact hb0
    · exact iBlock_ne_zero_of_lt (by omega)
  rw [directBlocks_eq_map (by omega) hall fun hlt => ?_, List.range_succ, List.map_append]
  · congr 1
    · rw [directBlocks_eq_range dir, List.length_map, List.length_range]
      refine List.map_congr_left fun k hk => ?_
      have hlt := List.mem_range.1 hk
      rw [hblock k (by omega), if_neg (by omega)]
    · rw [List.map_singleton, hblock _ (by omega), if_pos rfl]
  · rw [hblock _ (by omega), if_neg (by omega)]
    exact hend _ (by omega) hlt

end FiFi.Ext2
