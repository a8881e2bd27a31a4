import Mathlib.Data.Finset.Sort
import FiFi.Ext2.Mkdir

/-!
# How far a write gets

The loops of `ext2_write_file` take the free blocks in ascending order and fill
them with the data, part by part. If they fail, no block is free any more and all
that were free have been filled, except for the one that was taken for pointers:
it is written at the end only.
-/

namespace FiFi.Ext2

open ByteStore

variable {s t : Fs}

/-! ### The list of free blocks -/

/-- The free blocks in ascending order. -/
noncomputable def Vol.freeList (v : Vol) : List Nat := v.freeSet.sort (· ≤ ·)

theorem Vol.freeList_eq_nil {v : Vol} : v.freeList = [] ↔ v.freeSet = ∅ := by
  unfold freeList
  rw [← List.length_eq_zero_iff, Finset.length_sort, Finset.card_eq_zero]

/-- The first free block is taken from the list. -/
theorem Vol.freeList_take {v : Vol} {b : Nat} (hmem : b ∈ v.freeSet)
    (hfirst : ∀ c ∈ v.freeSet, b ≤ c) : v.freeList = b :: (v.take b).freeList := by
  have herase : v.freeSet = insert b (v.take b).freeSet := by
    ext c
    rw [Finset.mem_insert, mem_freeSet, mem_freeSet]
    change _ ↔ c = b ∨ v.layout.InGroups c ∧ c ∉ insert b v.busy
    rw [Set.mem_insert_iff, not_or]
    have hb := mem_freeSet.1 hmem
    by_cases hc : c = b
    · simp [hc, hb.1, hb.2]
    · simp [hc]
  have hnot : b ∉ (v.take b).freeSet := fun hb =>
    (mem_freeSet.1 hb).2 (Set.mem_insert _ _)
  unfold freeList
  rw [herase, Finset.sort_insert (· ≤ ·) (fun c hc => hfirst c ?_) hnot]
  rw [herase]
  exact Finset.mem_insert_of_mem hc

theorem allocBlock_freeList (h : s.Ok) (hsuper : s.vol.layout.ApartFromSuper) :
    ((allocBlock s).1 = 0 ∧ s.vol.freeList = [] ∧ s.Turns (allocBlock s).2 s.vol) ∨
      ((allocBlock s).1 ≠ 0 ∧ s.Grows (allocBlock s).2 [(allocBlock s).1] ∧
        (allocBlock s).2.ind = s.ind ∧
        s.vol.freeList = (allocBlock s).1 :: (allocBlock s).2.vol.freeList ∧
        (allocBlock s).2.vol.data = s.vol.data) := by
  rcases allocBlock_first h with ⟨h0, hempty⟩ | ⟨hne, hmem, hfirst⟩
  · rcases allocBlock_turns h hsuper with ⟨-, -, hturn⟩ | ⟨hne, -⟩
    · exact Or.inl ⟨h0, Vol.freeList_eq_nil.2 hempty, hturn⟩
    · exact absurd h0 hne
  · obtain ⟨hgrow, hind⟩ := allocBlock_grows h hsuper hne
    rcases allocBlock_turns h hsuper with ⟨h0, -⟩ | ⟨-, -, -, hturn⟩
    · exact absurd h0 hne
    · refine Or.inr ⟨hne, hgrow, hind, ?_, ?_⟩
      · rw [hturn.vol]
        exact Vol.freeList_take hmem hfirst
      · rw [hturn.vol]
        rfl

/-! ### Filling blocks -/

/-- The blocks hold the data, part by part. -/
def Vol.Filled (v : Vol) (bs : List Nat) (data : List UInt8) : Prop :=
  ∀ j b, bs[j]? = some b → ∀ x < v.size, v.data b x = data.getD (j * v.size + x) 0

/-- A part of the data in a block, with zeros behind. -/
theorem blit_chunk (io : Bytes) {data : List UInt8} {size x : Nat} (hx : x < size) :
    blit (zeroTo io size) 0 (data.take size).length (ofList (data.take size)) x =
      data.getD x 0 := by
  have hlen := List.length_take_le size data
  by_cases hin : x < (data.take size).length
  · rw [blit_in _ _ (by omega), Nat.sub_zero, ofList, List.getD_eq_getElem?_getD,
      List.getElem?_take_of_lt hx, List.getD_eq_getElem?_getD]
  · rw [blit_out _ _ (by omega)]
    rw [List.length_take] at hin
    rw [List.getD_eq_default _ _ (by omega)]
    exact if_pos hx

theorem writeChunk_freeList (h : s.Ok) (hsuper : s.vol.layout.ApartFromSuper)
    (data : List UInt8) :
    ((writeChunk s (data.take s.blockSize)).1 = 0 ∧ s.vol.freeList = [] ∧
        s.Turns (writeChunk s (data.take s.blockSize)).2 s.vol) ∨
      ((writeChunk s (data.take s.blockSize)).1 ≠ 0 ∧
        s.Grows (writeChunk s (data.take s.blockSize)).2
          [(writeChunk s (data.take s.blockSize)).1] ∧
        s.vol.freeList = (writeChunk s (data.take s.blockSize)).1 ::
          (writeChunk s (data.take s.blockSize)).2.vol.freeList ∧
        ∀ x < s.blockSize, (writeChunk s (data.take s.blockSize)).2.vol.data
          (writeChunk s (data.take s.blockSize)).1 x = data.getD x 0) := by
  unfold writeChunk
  rcases allocBlock_freeList h hsuper with ⟨h0, hnil, hturn⟩ | ⟨hne, hgrow, -, hlist, -⟩
  · simp only [if_pos h0]
    exact Or.inl ⟨trivial, hnil, hturn⟩
  · generalize allocBlock s = r at hne hgrow hlist ⊢
    have hsize : r.2.blockSize = s.blockSize := hgrow.keeps.blockSize
    simp only [if_neg hne]
    generalize hpage : blit (zeroTo r.2.io r.2.blockSize) 0 (data.take s.blockSize).length
      (ofList (data.take s.blockSize)) = page
    have hgrow' := hgrow.to_reads (u := { r.2 with io := page }) ⟨rfl, rfl⟩
    obtain ⟨hwrite, -, hself, -⟩ := hgrow'.write (List.mem_singleton_self _) page
    refine Or.inr ⟨hne, hwrite, ?_, fun x hx => ?_⟩
    · rw [hlist]
      congr 1
      have hput := writeBlock_spec hgrow'.ok (b := r.1) (by
        rw [hgrow'.grown.layout]
        exact (hgrow'.grown.free r.1 (List.mem_singleton_self _)).notReserved) page
      rw [hput.2.vol]
      rfl
    · rw [hself, ← hpage, hsize]
      exact blit_chunk _ hx

/-- What was filled before stays when more blocks are taken. -/
theorem Vol.Filled.cons {v w : Vol} {b : Nat} {bs : List Nat} {data : List UInt8}
    (hsize : w.size = v.size) (hgrown : v.Grown w bs) (hb : b ∉ bs)
    (hpage : ∀ x < v.size, v.data b x = data.getD x 0)
    (hrest : w.Filled bs (data.drop v.size)) : w.Filled (b :: bs) data := by
  intro j c hc x hx
  cases j with
  | zero =>
      obtain rfl : b = c := by simpa using hc
      rw [hgrown.data b hb, hpage x (by omega), Nat.zero_mul, Nat.zero_add]
  | succ j =>
      have hfill := hrest j c (by simpa using hc) x hx
      rw [hfill, List.getD_eq_getElem?_getD, List.getD_eq_getElem?_getD, List.getElem?_drop, hsize,
        Nat.succ_mul, Nat.add_right_comm, Nat.add_comm]

theorem Vol.Filled.nil (v : Vol) (data : List UInt8) : v.Filled [] data := by
  intro j b hb
  simp at hb

theorem writeDirect_freeList (n a : Nat) (h : s.Ok) (hsuper : s.vol.layout.ApartFromSuper)
    (i : Bytes) (data : List UInt8) :
    ∃ bs, s.Grows (writeDirect s i data (List.range' a n)).2 bs ∧
      s.vol.freeList = bs ++ (writeDirect s i data (List.range' a n)).2.vol.freeList ∧
      (writeDirect s i data (List.range' a n)).2.vol.Filled bs data ∧
      match (writeDirect s i data (List.range' a n)).1 with
      | none => bs.length < n ∧
          (writeDirect s i data (List.range' a n)).2.vol.freeList = []
      | some (_, rest) => rest = data.drop (n * s.blockSize) ∧ (rest ≠ [] → bs.length = n) := by
  induction n generalizing a s i data with
  | zero =>
      refine ⟨[], .refl h, rfl, .nil _ _, ?_⟩
      simp [writeDirect]
  | succ n ih =>
      rw [List.range'_succ]
      unfold writeDirect
      by_cases hnil : data = []
      · rw [if_pos hnil]
        exact ⟨[], .refl h, rfl, .nil _ _, by simp [hnil], fun hne => absurd hnil hne⟩
      · rw [if_neg hnil]
        dsimp only
        rcases writeChunk_freeList h hsuper data with ⟨h0, hempty, hturn⟩ |
          ⟨hne, hgrow, hlist, hpage⟩
        · rw [if_pos h0]
          have hvol := hturn.vol
          refine ⟨[], ⟨hturn.ok, ?_, hturn.keeps⟩, ?_, .nil _ _, Nat.succ_pos _, ?_⟩
          · rw [hvol]
            exact .refl _
          · rw [hvol]
            rfl
          · rw [hvol]
            exact hempty
        · rw [if_neg hne]
          generalize writeChunk s (data.take s.blockSize) = r at hne hgrow hlist hpage ⊢
          have hsize : r.2.blockSize = s.blockSize := hgrow.keeps.blockSize
          obtain ⟨bs, hgrow', hlist', hfill, hcase⟩ := ih (a + 1) hgrow.ok (hgrow.apart hsuper)
            (countBlock s (setBlock i a r.1)) (data.drop s.blockSize)
          generalize writeDirect r.2 (countBlock s (setBlock i a r.1)) (data.drop s.blockSize)
            (List.range' (a + 1) n) = q at hgrow' hlist' hfill hcase ⊢
          have hall := hgrow.trans hgrow'
          have hnodup : r.1 ∉ bs := (List.nodup_cons.1 hall.grown.nodup).1
          have hvsize : q.2.vol.size = r.2.vol.size := congrArg (fun g : Layout => g.geo.blockSize)
            hgrow'.grown.layout
          have hrsize : r.2.vol.size = s.blockSize := hsize
          refine ⟨r.1 :: bs, hall, by rw [hlist, hlist', List.cons_append],
            .cons hvsize hgrow'.grown hnodup (by rwa [hrsize]) (by rwa [hrsize]), ?_⟩
          clear hlist hpage
          obtain ⟨o, q⟩ := q
          cases o with
          | none => exact ⟨by simpa using hcase.1, hcase.2⟩
          | some r' =>
              obtain ⟨i', rest⟩ := r'
              refine ⟨?_, fun hrest => by simp [hcase.2 hrest]⟩
              rw [hcase.1, hsize, List.drop_drop, Nat.succ_mul, Nat.add_comm]

theorem writePointers_freeList (n a : Nat) (h : s.Ok) (hsuper : s.vol.layout.ApartFromSuper)
    (i : Bytes) (data : List UInt8) :
    ∃ bs, s.Grows (writePointers s i data (List.range' a n)).2 bs ∧
      s.vol.freeList = bs ++ (writePointers s i data (List.range' a n)).2.vol.freeList ∧
      (writePointers s i data (List.range' a n)).2.vol.Filled bs data ∧
      ((writePointers s i data (List.range' a n)).1 = none →
        (writePointers s i data (List.range' a n)).2.vol.freeList = []) := by
  induction n generalizing a s i data with
  | zero =>
      refine ⟨[], .refl h, rfl, .nil _ _, ?_⟩
      simp [writePointers]
  | succ n ih =>
      rw [List.range'_succ]
      unfold writePointers
      by_cases hnil : data = []
      · rw [if_pos hnil]
        exact ⟨[], .refl h, rfl, .nil _ _, by simp⟩
      · rw [if_neg hnil]
        dsimp only
        rcases writeChunk_freeList h hsuper data with ⟨h0, hempty, hturn⟩ |
          ⟨hne, hgrow, hlist, hpage⟩
        · rw [if_pos h0]
          have hvol := hturn.vol
          refine ⟨[], ⟨hturn.ok, ?_, hturn.keeps⟩, ?_, .nil _ _, fun _ => ?_⟩
          · rw [hvol]
            exact .refl _
          · rw [hvol]
            rfl
          · rw [hvol]
            exact hempty
        · rw [if_neg hne]
          generalize writeChunk s (data.take s.blockSize) = r at hne hgrow hlist hpage ⊢
          have hgrow := hgrow.to_reads (u := { r.2 with ind := put32 r.2.ind (4 * a) r.1 })
            ⟨rfl, rfl⟩
          have hvol : ({ r.2 with ind := put32 r.2.ind (4 * a) r.1 } : Fs).vol = r.2.vol := rfl
          rw [← hvol] at hlist hpage
          generalize ({ r.2 with ind := put32 r.2.ind (4 * a) r.1 } : Fs) = u
            at hgrow hlist hpage hvol ⊢
          have hsize : u.blockSize = s.blockSize := hgrow.keeps.blockSize
          obtain ⟨bs, hgrow', hlist', hfill, hcase⟩ := ih (a + 1) hgrow.ok (hgrow.apart hsuper)
            (countBlock s i) (data.drop s.blockSize)
          generalize writePointers u (countBlock s i) (data.drop s.blockSize)
            (List.range' (a + 1) n) = q at hgrow' hlist' hfill hcase ⊢
          have hall := hgrow.trans hgrow'
          have hnodup : r.1 ∉ bs := (List.nodup_cons.1 hall.grown.nodup).1
          have hvsize : q.2.vol.size = u.vol.size := congrArg (fun g : Layout => g.geo.blockSize)
            hgrow'.grown.layout
          have husize : u.vol.size = s.blockSize := hsize
          exact ⟨r.1 :: bs, hall, by rw [hlist, hlist', List.cons_append],
            .cons hvsize hgrow'.grown hnodup (by rwa [husize]) (by rwa [husize]), hcase⟩

/-- The block for the pointers is taken before the ones they point to. -/
theorem writeIndirect_freeList (h : s.Ok) (hsuper : s.vol.layout.ApartFromSuper) (i : Bytes)
    (data : List UInt8) :
    ∃ bs, s.Grows (writeIndirect s i data).2 bs ∧
      ((writeIndirect s i data).1 = none →
        data ≠ [] ∧ s.vol.freeList = bs ∧ (writeIndirect s i data).2.vol.freeList = [] ∧
        (writeIndirect s i data).2.vol.Filled (bs.drop 1) data ∧
        ∀ b, bs.head? = some b → (writeIndirect s i data).2.vol.data b = s.vol.data b) := by
  unfold writeIndirect
  by_cases hnil : data = []
  · rw [if_pos hnil]
    exact ⟨[], .refl h, by simp⟩
  · rw [if_neg hnil]
    dsimp only
    have hzero : s.Reads { s with ind := zeroTo s.ind s.blockSize } := ⟨rfl, rfl⟩
    rcases allocBlock_freeList (hzero.ok h) hsuper with ⟨h0, hempty, hturn⟩ |
      ⟨hne, hgrow, -, hlist, hdata⟩
    · rw [if_pos h0]
      have hvol := hturn.vol
      refine ⟨[], ⟨hturn.ok, ?_, hzero.keeps.trans hturn.keeps⟩, fun _ => ?_⟩
      · rw [hvol]
        exact .refl _
      · rw [hvol]
        exact ⟨hnil, hempty, hempty, .nil _ _, by simp⟩
    · rw [if_neg hne]
      generalize allocBlock { s with ind := zeroTo s.ind s.blockSize } = r
        at hne hgrow hlist hdata ⊢
      have hgrow := hgrow.of_reads hzero
      have hrange : r.2.img.geo.pointers = List.range' 0 (r.2.img.geo.blockSize / 4) :=
        List.range_eq_range'
      rw [hrange]
      obtain ⟨ps, hgrow', hlist', hfill, hcase⟩ := writePointers_freeList
        (r.2.img.geo.blockSize / 4) 0 hgrow.ok (hgrow.apart hsuper) i data
      generalize writePointers r.2 i data (List.range' 0 (r.2.img.geo.blockSize / 4)) = q
        at hgrow' hlist' hfill hcase ⊢
      have hall := hgrow.trans hgrow'
      obtain ⟨o, q⟩ := q
      cases o with
      | none =>
          refine ⟨r.1 :: ps, hall, fun _ => ⟨hnil, ?_, hcase rfl, hfill, fun b hb => ?_⟩⟩
          · have hend := hcase rfl
            dsimp only at hlist' hend
            rw [hend, List.append_nil] at hlist'
            exact hlist.trans (by rw [hlist'])
          · obtain rfl : r.1 = b := by simpa using hb
            have hnot : r.1 ∉ ps := (List.nodup_cons.1 hall.grown.nodup).1
            exact (hgrow'.grown.data r.1 hnot).trans (congrFun hdata r.1)
      | some i' =>
          obtain ⟨hwrite, -⟩ := hall.write (b := r.1) (by simp) q.ind
          exact ⟨r.1 :: ps, hwrite, by simp⟩

/-! ### A write that fails -/

/-- The blocks `bs` of a disk are filled with the data in their order. The one at place
12 is left out: it is for pointers. -/
def refill (size : Nat) (bs : List Nat) (data : List UInt8) (disk : Nat → Bytes) : Nat → Bytes :=
  fun b =>
    let pos := bs.idxOf b
    if pos < bs.length ∧ pos ≠ 12 then
      fun x => data.getD ((if pos < 12 then pos else pos - 1) * size + x) 0
    else disk b

/-- All blocks that were free are taken and filled. -/
structure Fs.FillsUp (s t : Fs) (data : List UInt8) : Prop where
  grows : s.Grows t s.vol.freeList
  full : t.vol.freeList = []
  data : ∀ b, ∀ x < s.blockSize,
    t.vol.data b x = refill s.blockSize s.vol.freeList data s.vol.data b x

theorem refill_of_not_mem {size b : Nat} {bs : List Nat} {data : List UInt8} {disk : Nat → Bytes}
    (h : b ∉ bs) : refill size bs data disk b = disk b := by
  unfold refill
  rw [List.idxOf_eq_length h]
  simp

theorem refill_getElem {size j b : Nat} {bs : List Nat} {data : List UInt8} {disk : Nat → Bytes}
    (hnodup : bs.Nodup) (hj : bs[j]? = some b) : refill size bs data disk b =
      if j = 12 then disk b
      else fun x => data.getD ((if j < 12 then j else j - 1) * size + x) 0 := by
  obtain ⟨hlt, rfl⟩ := List.getElem?_eq_some_iff.1 hj
  unfold refill
  rw [hnodup.idxOf_getElem j hlt]
  by_cases h12 : j = 12
  · simp [h12]
  · simp [hlt, h12]

/-- The direct blocks came first: what they hold, and what comes after the one for
the pointers. -/
theorem refill_append {size : Nat} {as bs : List Nat} {data : List UInt8} {v w : Vol}
    (hsize : v.size = size) (hgrown : w.Grown v bs) (hnodup : (as ++ bs).Nodup)
    (hlen : bs ≠ [] → as.length = 12) (hle : as.length ≤ 12) (has : w.Filled as data)
    (hbs : v.Filled (bs.drop 1) (data.drop (12 * size)))
    (hhead : ∀ b, bs.head? = some b → v.data b = w.data b) {old : Nat → Bytes}
    (hold : ∀ b, b ∉ as → w.data b = old b) (b : Nat) {x : Nat} (hx : x < size) :
    v.data b x = refill size (as ++ bs) data old b x := by
  have hwsize : w.size = v.size := congrArg (fun g : Layout => g.geo.blockSize) hgrown.layout.symm
  obtain ⟨-, -, hdisj⟩ := List.nodup_append'.1 hnodup
  by_cases hmem : b ∈ as ++ bs
  · obtain ⟨j, hj⟩ := List.mem_iff_getElem?.1 hmem
    rw [refill_getElem hnodup hj]
    by_cases hlt : j < as.length
    · rw [List.getElem?_append_left hlt] at hj
      have hin := List.mem_of_getElem? hj
      rw [if_neg (by omega), hgrown.data b (hdisj hin), has j b hj x (by omega), hwsize, hsize]
      simp only [if_pos (show j < 12 by omega)]
    · rw [List.getElem?_append_right (by omega)] at hj
      have hin := List.mem_of_getElem? hj
      have h12 := hlen (List.ne_nil_of_mem hin)
      have hnot : b ∉ as := fun hc => hdisj hc hin
      by_cases hj12 : j = 12
      · rw [if_pos hj12, ← hold b hnot]
        rw [hj12, h12, Nat.sub_self, ← List.head?_eq_getElem?] at hj
        rw [hhead b hj]
      · have hdrop : (bs.drop 1)[j - 13]? = some b := by
          rw [List.getElem?_drop, ← hj]
          congr 1
          omega
        rw [if_neg hj12, hbs (j - 13) b hdrop x (by omega), List.getD_eq_getElem?_getD,
          List.getElem?_drop, hsize, ← List.getD_eq_getElem?_getD]
        simp only [if_neg (show ¬ j < 12 by omega)]
        congr 1
        obtain ⟨k, rfl⟩ : ∃ k, j = 13 + k := ⟨j - 13, by omega⟩
        rw [Nat.add_sub_cancel_left, show 13 + k - 1 = 12 + k by omega]
        ring
  · rw [refill_of_not_mem hmem, hgrown.data b fun hc => hmem (List.mem_append_right _ hc),
      hold b fun hc => hmem (List.mem_append_left _ hc)]

/-- A write that fails before its inode is written has filled up the volume. -/
theorem storeData_fails (h : s.Ok) (hsuper : s.vol.layout.ApartFromSuper) {i : Bytes}
    {data : List UInt8} {r : Option (Bytes × List UInt8) × Fs}
    (hr : writeDirect s i data direct = r) :
    (r.1 = none → s.FillsUp r.2 data) ∧
      ∀ i' rest, r.1 = some (i', rest) → (∃ bs, s.Grows r.2 bs) ∧
        ((writeIndirect r.2 i' rest).1 = none → s.FillsUp (writeIndirect r.2 i' rest).2 data) := by
  obtain ⟨as, hgrow, hlist, hfill, hcase⟩ :=
    writeDirect_freeList 12 0 h hsuper i data
  rw [show List.range' 0 12 = direct from rfl, hr] at hgrow hlist hfill hcase
  have hsize : r.2.vol.size = s.blockSize := hgrow.keeps.blockSize
  refine ⟨fun hnone => ?_, fun i' rest hsome => ⟨⟨as, hgrow⟩, fun hnone => ?_⟩⟩
  · rw [hnone] at hcase
    obtain ⟨hlt, hend⟩ := hcase
    rw [hend, List.append_nil] at hlist
    rw [← hlist] at hgrow hfill hlt
    refine ⟨hgrow, hend, fun b x hx => ?_⟩
    have happ := @refill_append _ s.vol.freeList [] _ _ _ hsize (.refl _)
      (by simpa using hgrow.grown.nodup) (by simp) (by omega) hfill (.nil _ _) (by simp) _
      (fun c => hgrow.grown.data c) b _ hx
    rwa [List.append_nil] at happ
  · rw [hsome] at hcase
    obtain ⟨hrest, hlen⟩ := hcase
    obtain ⟨bs, hgrow', hfail⟩ := writeIndirect_freeList hgrow.ok (hgrow.apart hsuper) i' rest
    obtain ⟨hne, hlist', hend, hfill', hhead⟩ := hfail hnone
    generalize (writeIndirect r.2 i' rest).2 = t at hgrow' hend hfill' hhead ⊢
    rw [hlist'] at hlist
    have hall := hgrow.trans hgrow'
    have hsize' : t.vol.size = s.blockSize := hall.keeps.blockSize
    have hlen12 := hlen hne
    rw [← hlist] at hall
    refine ⟨hall, hend, fun b x hx => ?_⟩
    rw [hlist]
    refine refill_append hsize' hgrow'.grown (hlist ▸ hall.grown.nodup) (fun _ => hlen12)
      hlen12.le hfill (by rwa [← hrest]) hhead (fun c => hgrow.grown.data c) b hx

/-- A file that exists is overwritten, and the blocks do not suffice. -/
theorem storeFile_fails (h : s.Ok) (hsuper : s.vol.layout.ApartFromSuper) {ino parentIno : Nat}
    {i₀ i : Bytes} (hino : s.vol.inode ino = some i₀) {name data : List UInt8} {now : Nat}
    (hfail : (storeFile s ino i false parentIno name data now).1 = false) :
    s.FillsUp (storeFile s ino i false parentIno name data now).2 data := by
  unfold storeFile at hfail ⊢
  obtain ⟨hnone, hsome⟩ := storeData_fails h hsuper
    (show writeDirect s i data direct = _ from rfl)
  generalize writeDirect s i data direct = r at hfail hnone hsome ⊢
  obtain ⟨_ | ⟨i', rest⟩, u⟩ := r
  · exact hnone rfl
  · obtain ⟨⟨as, hgrow⟩, hind⟩ := hsome i' rest rfl
    obtain ⟨bs, hgrow', -⟩ := writeIndirect_freeList hgrow.ok (hgrow.apart hsuper) i' rest
    dsimp only at hfail hind hgrow' ⊢
    generalize writeIndirect u i' rest = q at hfail hind hgrow' ⊢
    obtain ⟨_ | i'', w⟩ := q
    · exact hind rfl
    · have hinode : w.vol.inode ino = some i₀ := by
        rw [(hgrow.trans hgrow').grown.inode]
        exact hino
      have hdone := (writeInode_spec hgrow'.ok hinode
        (stampFile (setSize i'' data.length) now false)).1
      dsimp only at hfail
      rw [hdone] at hfail
      simp at hfail

/-- A file that was to be created keeps its inode when the call fails. -/
theorem storeFile_fails_taken (h : s.Ok) (hsuper : s.vol.layout.ApartFromSuper)
    {ino parentIno : Nat} {i₀ dir i : Bytes} (hino : s.vol.inode ino = some i₀)
    (hparent : s.vol.inode parentIno = some dir) (hne : parentIno ≠ ino) {name data : List UInt8}
    {now : Nat} (hfail : (storeFile s ino i true parentIno name data now).1 = false) :
    (storeFile s ino i true parentIno name data now).2.Ok ∧
      (storeFile s ino i true parentIno name data now).2.vol.taken = s.vol.taken := by
  unfold storeFile at hfail ⊢
  obtain ⟨hnone, hsome⟩ := storeData_fails h hsuper
    (show writeDirect s i data direct = _ from rfl)
  generalize writeDirect s i data direct = r at hfail hnone hsome ⊢
  obtain ⟨_ | ⟨i', rest⟩, u⟩ := r
  · have hfill := hnone rfl
    exact ⟨hfill.grows.ok, hfill.grows.grown.taken⟩
  · obtain ⟨⟨as, hgrow⟩, -⟩ := hsome i' rest rfl
    obtain ⟨bs, hgrow', -⟩ := writeIndirect_freeList hgrow.ok (hgrow.apart hsuper) i' rest
    dsimp only at hfail hgrow' ⊢
    generalize writeIndirect u i' rest = q at hfail hgrow' ⊢
    have hall := hgrow.trans hgrow'
    obtain ⟨_ | i'', w⟩ := q
    · exact ⟨hall.ok, hall.grown.taken⟩
    · dsimp only at hfail hall ⊢
      have hinode : w.vol.inode ino = some i₀ := by
        rw [hall.grown.inode]
        exact hino
      obtain ⟨hdone, hput⟩ := writeInode_spec hall.ok hinode
        (stampFile (setSize i'' data.length) now true)
      generalize writeInode w ino (stampFile (setSize i'' data.length) now true) = p
        at hfail hdone hput ⊢
      rw [hdone] at hfail ⊢
      simp only [Bool.not_true, Bool.false_eq_true, if_false, if_true] at hfail ⊢
      have hdir : p.2.vol.inode parentIno = some dir := by
        rw [hput.vol, Vol.setInode_ne _ hne, hall.grown.inode]
        exact hparent
      have hturn := addDirent_fails hput.ok hdir name ino 1
        (by rw [hput.vol]; exact hall.apart hsuper) hfail
      refine ⟨hturn.ok, ?_⟩
      rw [hturn.vol, hput.vol]
      exact hall.grown.taken

end FiFi.Ext2
