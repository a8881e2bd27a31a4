import Mathlib.Data.List.GetD
import FiFi.Ext2.Blocks

/-!
# Writing the blocks of a file

The two loops of `ext2_write_file` take one block for each part of the data. The
blocks they take are listed in the order of the positions in the inode, with the
indirect block at position 12, so the inode that is written at the end holds the
block number `pos` of the list at position `pos`. Their number depends on the
size of the data only.
-/

namespace FiFi.Ext2

open ByteStore

variable {s t : Fs}

theorem Fs.Ok.size_pos (h : s.Ok) : 0 < s.blockSize := h.sound.layout.size_pos

theorem Fs.Keeps.blockSize (h : s.Keeps t) : t.blockSize = s.blockSize :=
  congrArg Geo.blockSize h.geo

theorem iBlock_countBlock (s : Fs) (i : Bytes) (k : Nat) :
    iBlock (countBlock s i) k = iBlock i k := le32_put32_ne _ _ (by omega)

theorem iMode_countBlock (s : Fs) (i : Bytes) : iMode (countBlock s i) = iMode i :=
  le16_put32_ne _ _ (by omega)

theorem iMode_setBlock (i : Bytes) (k b : Nat) : iMode (setBlock i k b) = iMode i :=
  le16_put32_ne _ _ (by omega)

theorem Vol.Free.small_of_grows {bs : List Nat} (h : s.Grows t bs) {b : Nat} (hb : b ∈ bs) :
    b < 2 ^ 32 := (h.grown.free b hb).small

/-- The direct blocks are taken in the order of their positions. -/
theorem writeDirect_spec (n a : Nat) (h : s.Ok) (hsuper : s.vol.layout.ApartFromSuper)
    {i i' : Bytes} {data rest : List UInt8}
    (hw : writeDirect s i data (List.range' a n) = (some (i', rest), t)) :
    ∃ bs, s.Grows t bs ∧ bs.length = min n (chunks s.blockSize data.length) ∧
      rest = data.drop (n * s.blockSize) ∧ iMode i' = iMode i ∧
      ∀ k, iBlock i' k = if a ≤ k ∧ k < a + bs.length then bs.getD (k - a) 0 else iBlock i k := by
  induction n generalizing a s i data with
  | zero =>
      rw [List.range'_zero, writeDirect] at hw
      cases hw
      refine ⟨[], .refl h, by simp, by simp, rfl, fun k => ?_⟩
      rw [if_neg (by simp)]
  | succ n ih =>
      rw [List.range'_succ, writeDirect] at hw
      by_cases hnil : data = []
      · rw [if_pos hnil] at hw
        cases hw
        refine ⟨[], .refl h, ?_, by simp [hnil], rfl, fun k => ?_⟩
        · rw [hnil, List.length_nil, List.length_nil, chunks_zero h.size_pos, Nat.min_zero]
        · rw [if_neg (by simp)]
      · rw [if_neg hnil] at hw
        dsimp only at hw
        by_cases h0 : (writeChunk s (data.take s.blockSize)).1 = 0
        · rw [if_pos h0] at hw
          cases hw
        · rw [if_neg h0] at hw
          obtain ⟨hgrow, -⟩ := writeChunk_spec h hsuper _ h0
          generalize writeChunk s (data.take s.blockSize) = r at hgrow hw h0
          obtain ⟨bs, hgrow', hlen, hrest, hmode, hblock⟩ :=
            ih (a + 1) hgrow.ok (hgrow.apart hsuper) hw
          have hsize : r.2.blockSize = s.blockSize := hgrow.keeps.blockSize
          have hpos : 0 < data.length := List.length_pos_iff.2 hnil
          refine ⟨r.1 :: bs, hgrow.trans hgrow', ?_, ?_, ?_, fun k => ?_⟩
          · rw [List.length_cons, hlen, hsize, List.length_drop,
              chunks_sub h.size_pos hpos]
            omega
          · rw [hrest, hsize, List.drop_drop, Nat.succ_mul, Nat.add_comm]
          · rw [hmode, iMode_countBlock, iMode_setBlock]
          · have hsmall : r.1 < 2 ^ 32 := (hgrow.grown.free r.1 (by simp)).small
            rw [hblock, iBlock_countBlock, iBlock_setBlock _ _ _ _ hsmall, List.length_cons]
            by_cases hk : k = a
            · subst hk
              rw [if_neg (by omega), if_pos rfl, if_pos (by omega), Nat.sub_self]
              rfl
            · by_cases hin : a + 1 ≤ k ∧ k < a + 1 + bs.length
              · have hsub : k - a = k - (a + 1) + 1 := by omega
                rw [if_pos hin, if_pos (by omega), hsub, List.getD_cons_succ]
              · rw [if_neg hin, if_neg hk, if_neg (by omega)]

/-- The blocks of the pointers are taken, and their numbers put into the page. -/
theorem writePointers_spec (n a : Nat) (h : s.Ok) (hsuper : s.vol.layout.ApartFromSuper)
    {i i' : Bytes} {data : List UInt8}
    (hw : writePointers s i data (List.range' a n) = (some i', t)) :
    ∃ bs, s.Grows t bs ∧ bs.length = min n (chunks s.blockSize data.length) ∧
      iMode i' = iMode i ∧ (∀ k, iBlock i' k = iBlock i k) ∧
      ∀ k, le32 t.ind (4 * k) =
        if a ≤ k ∧ k < a + bs.length then bs.getD (k - a) 0 else le32 s.ind (4 * k) := by
  induction n generalizing a s i data with
  | zero =>
      rw [List.range'_zero, writePointers] at hw
      cases hw
      refine ⟨[], .refl h, by simp, rfl, fun _ => rfl, fun k => ?_⟩
      rw [if_neg (by simp)]
  | succ n ih =>
      rw [List.range'_succ, writePointers] at hw
      by_cases hnil : data = []
      · rw [if_pos hnil] at hw
        cases hw
        refine ⟨[], .refl h, ?_, rfl, fun _ => rfl, fun k => ?_⟩
        · rw [hnil, List.length_nil, List.length_nil, chunks_zero h.size_pos, Nat.min_zero]
        · rw [if_neg (by simp)]
      · rw [if_neg hnil] at hw
        dsimp only at hw
        by_cases h0 : (writeChunk s (data.take s.blockSize)).1 = 0
        · rw [if_pos h0] at hw
          cases hw
        · rw [if_neg h0] at hw
          obtain ⟨hgrow, hind⟩ := writeChunk_spec h hsuper _ h0
          generalize writeChunk s (data.take s.blockSize) = r at hgrow hw h0 hind
          have hgrow := hgrow.to_reads (u := { r.2 with ind := put32 r.2.ind (4 * a) r.1 })
            ⟨rfl, rfl⟩
          obtain ⟨bs, hgrow', hlen, hmode, hblock, hptr⟩ :=
            ih (a + 1) hgrow.ok (hgrow.apart hsuper) hw
          have hsize : r.2.blockSize = s.blockSize := hgrow.keeps.blockSize
          have hpos : 0 < data.length := List.length_pos_iff.2 hnil
          refine ⟨r.1 :: bs, hgrow.trans hgrow', ?_, ?_, fun k => ?_, fun k => ?_⟩
          · rw [List.length_cons, hlen, List.length_drop, chunks_sub h.size_pos hpos]
            simp only [Fs.blockSize] at hsize ⊢
            rw [hsize]
            omega
          · rw [hmode, iMode_countBlock]
          · rw [hblock, iBlock_countBlock]
          · have hsmall : r.1 < 2 ^ 32 := (hgrow.grown.free r.1 (by simp)).small
            rw [hptr, List.length_cons]
            by_cases hk : k = a
            · subst hk
              rw [if_neg (by omega), if_pos (by omega), Nat.sub_self]
              exact le32_put32_of_lt _ _ hsmall
            · by_cases hin : a + 1 ≤ k ∧ k < a + 1 + bs.length
              · have hsub : k - a = k - (a + 1) + 1 := by omega
                rw [if_pos hin, if_pos (by omega), hsub, List.getD_cons_succ]
              · rw [if_neg hin, if_neg (by omega)]
                exact (le32_put32_ne _ _ (by omega)).trans (by rw [hind])

theorem le32_zeroTo (b : Bytes) {n o : Nat} (h : o + 4 ≤ n) : le32 (zeroTo b n) o = 0 := by
  have hi : ∀ i < n, zeroTo b n i = 0 := fun i hi => if_pos hi
  simp only [le32, le16]
  rw [hi o (by omega), hi (o + 1) (by omega), hi (o + 2) (by omega), hi (o + 2 + 1) (by omega)]
  rfl

/-- The indirect block comes first in the list, then the blocks of its pointers. -/
theorem writeIndirect_spec (h : s.Ok) (hsuper : s.vol.layout.ApartFromSuper) {i i' : Bytes}
    {data : List UInt8} (h12 : iBlock i 12 = 0)
    (hw : writeIndirect s i data = (some i', t)) :
    ∃ bs, s.Grows t bs ∧
      bs.length = (if data = [] then 0
        else min (s.blockSize / 4) (chunks s.blockSize data.length) + 1) ∧
      iMode i' = iMode i ∧ (∀ k < 12, iBlock i' k = iBlock i k) ∧ iBlock i' 12 = bs.getD 0 0 ∧
      ∀ k < s.blockSize / 4, t.vol.blockAt i' (13 + k) = bs.getD (k + 1) 0 := by
  unfold writeIndirect at hw
  by_cases hnil : data = []
  · rw [if_pos hnil] at hw
    cases hw
    exact ⟨[], .refl h, by simp [hnil], rfl, fun _ _ => rfl, h12,
      fun k _ => Vol.blockAt_noPointer k h12⟩
  · rw [if_neg hnil] at hw
    dsimp only at hw
    have hzero : s.Reads { s with ind := zeroTo s.ind s.blockSize } := ⟨rfl, rfl⟩
    by_cases h0 : (allocBlock { s with ind := zeroTo s.ind s.blockSize }).1 = 0
    · rw [if_pos h0] at hw
      cases hw
    · rw [if_neg h0] at hw
      obtain ⟨hgrow, hind⟩ := allocBlock_grows (hzero.ok h) hsuper h0
      generalize allocBlock { s with ind := zeroTo s.ind s.blockSize } = r at hgrow hind hw h0
      have hsmall : r.1 < 2 ^ 32 := (hgrow.grown.free r.1 (by simp)).small
      have hsize : r.2.blockSize = s.blockSize := hgrow.keeps.blockSize
      have hrange : r.2.img.geo.pointers = List.range' 0 (s.blockSize / 4) := by
        unfold Geo.pointers
        rw [List.range_eq_range', ← hsize]
        rfl
      rw [hrange] at hw
      have hgrow := hgrow.of_reads hzero
      generalize hp : writePointers r.2 i data (List.range' 0 (s.blockSize / 4)) = q at hw
      obtain ⟨_ | i'', u⟩ := q
      · cases hw
      · obtain ⟨ps, hgrow', hlen, hmode, hblock, hptr⟩ :=
          writePointers_spec _ _ hgrow.ok (hgrow.apart hsuper) hp
        cases hw
        have hall := hgrow.trans hgrow'
        obtain ⟨hwrite, -, hpage, -⟩ := hall.write (b := r.1) (by simp) u.ind
        have h12' : iBlock (countBlock u (setBlock i'' 12 r.1)) 12 = r.1 := by
          rw [iBlock_countBlock, iBlock_setBlock _ _ _ _ hsmall, if_pos rfl]
        refine ⟨r.1 :: ps, hwrite, ?_, ?_, fun k hk => ?_, h12', fun k hk => ?_⟩
        · rw [if_neg hnil, List.length_cons, hlen, hsize]
        · rw [iMode_countBlock, iMode_setBlock, hmode]
        · rw [iBlock_countBlock, iBlock_setBlock _ _ _ _ hsmall, if_neg (by omega), hblock]
        · rw [Vol.blockAt_pointer k (by rwa [h12']), h12', hpage, hptr, hind,
            le32_zeroTo _ (by omega), List.getD_cons_succ]
          by_cases hkl : k < ps.length
          · rw [if_pos (by omega)]
            rfl
          · rw [if_neg (by omega), List.getD_eq_default _ _ (by omega)]

/-! ### The number of blocks -/

theorem chunks_sub_mul {size : Nat} (h : 0 < size) (len n : Nat) :
    chunks size (len - n * size) = chunks size len - n := by
  induction n with
  | zero => simp
  | succ n ih =>
      have hsub : len - (n + 1) * size = len - n * size - size := by
        rw [Nat.succ_mul]
        omega
      rw [hsub]
      by_cases hpos : 0 < len - n * size
      · have hstep := chunks_sub h hpos
        omega
      · have hnil : len - n * size = 0 := by omega
        rw [hnil, chunks_zero h] at ih
        rw [hnil, Nat.zero_sub, chunks_zero h]
        omega

theorem chunks_eq_zero {size len : Nat} (h : 0 < size) : chunks size len = 0 ↔ len = 0 := by
  constructor
  · intro h0
    by_contra hne
    have hstep := chunks_sub h (Nat.pos_of_ne_zero hne)
    omega
  · rintro rfl
    exact chunks_zero h

theorem chunks_maxSize_le {g : Geo} {len : Nat} (h : 0 < g.blockSize) (hlen : len ≤ g.maxSize) :
    chunks g.blockSize len ≤ 12 + g.blockSize / 4 := by
  have hsub := chunks_sub_mul h len (12 + g.blockSize / 4)
  have hmax : len - (12 + g.blockSize / 4) * g.blockSize = 0 := by
    rw [Nat.add_mul]
    exact Nat.sub_eq_zero_of_le hlen
  rw [hmax, chunks_zero h] at hsub
  omega

/-- The number of blocks that `len` bytes take with the indirect block. -/
def blocksNeeded (size len : Nat) : Nat :=
  if chunks size len ≤ 12 then chunks size len else chunks size len + 1

/-- The data of a file is written: the blocks that were taken are at the first
positions of the inode. -/
theorem writeData_spec (h : s.Ok) (hsuper : s.vol.layout.ApartFromSuper) {i i₁ i' : Bytes}
    {data rest : List UInt8} {s₁ : Fs} (hlen : data.length ≤ s.img.geo.maxSize)
    (h12 : iBlock i 12 = 0) (hd : writeDirect s i data direct = (some (i₁, rest), s₁))
    (hi : writeIndirect s₁ i₁ rest = (some i', t)) :
    ∃ bs, s.Grows t bs ∧ bs.length = blocksNeeded s.blockSize data.length ∧ iMode i' = iMode i ∧
      ∀ pos < 13 + s.blockSize / 4, t.vol.blockAt i' pos =
        if pos < bs.length then bs.getD pos 0 else if pos < 12 then iBlock i pos else 0 := by
  obtain ⟨ds, hgrow, hlend, hrest, hmode, hblock⟩ :=
    writeDirect_spec 12 0 h hsuper (by exact hd)
  have h12' : iBlock i₁ 12 = 0 := by
    rw [hblock, if_neg (by omega), h12]
  have hsize := hgrow.keeps.blockSize
  obtain ⟨ps, hgrow', hlenp, hmode', hblock', hind, hptr⟩ :=
    writeIndirect_spec hgrow.ok (hgrow.apart hsuper) h12' hi
  have hchunks : chunks s.blockSize rest.length = chunks s.blockSize data.length - 12 := by
    rw [hrest, List.length_drop, chunks_sub_mul h.size_pos]
  have hmax := chunks_maxSize_le h.size_pos hlen
  have hnil : rest = [] ↔ chunks s.blockSize data.length ≤ 12 := by
    rw [← List.length_eq_zero_iff, ← chunks_eq_zero h.size_pos, hchunks]
    omega
  simp only [hnil, hsize, hchunks] at hlenp hptr
  change chunks s.blockSize data.length ≤ 12 + s.blockSize / 4 at hmax
  refine ⟨ds ++ ps, hgrow.trans hgrow', ?_, hmode'.trans hmode, fun pos hpos => ?_⟩
  · rw [List.length_append, hlend, hlenp]
    unfold blocksNeeded
    split_ifs <;> omega
  · by_cases hd12 : pos < 12
    · rw [Vol.blockAt_direct (by omega), hblock' _ hd12, hblock]
      simp only [Nat.zero_le, true_and, Nat.zero_add, Nat.sub_zero]
      by_cases hin : pos < ds.length
      · rw [if_pos hin, if_pos (by rw [List.length_append]; omega), List.getD_append _ _ _ _ hin]
      · -- the list ends with the direct blocks
        have hps : ps = [] := by
          rw [← List.length_eq_zero_iff, hlenp, if_pos (by omega)]
        rw [if_neg hin, if_neg (by rw [hps, List.append_nil]; exact hin), if_pos hd12]
    · have hat : t.vol.blockAt i' pos = ps.getD (pos - 12) 0 := by
        rcases Nat.eq_or_lt_of_le (Nat.not_lt.1 hd12) with heq | hlt
        · rw [← heq, Vol.blockAt_direct le_rfl, hind]
        · obtain ⟨k, rfl⟩ : ∃ k, pos = 13 + k := ⟨pos - 13, by omega⟩
          have hk : 13 + k - 12 = k + 1 := by omega
          rw [hptr k (by omega), hk]
      rw [hat, if_neg hd12]
      by_cases hps : ps = []
      · rw [hps, List.append_nil, if_neg (by omega), List.getD_nil]
      · have hds : ds.length = 12 := by
          have hpos := List.length_pos_iff.2 hps
          by_contra hne
          rw [if_pos (by omega)] at hlenp
          omega
        by_cases hin : pos < (ds ++ ps).length
        · rw [if_pos hin, List.getD_append_right _ _ _ _ (by omega), hds]
        · rw [List.length_append] at hin
          rw [if_neg (by rw [List.length_append]; omega), List.getD_eq_default _ _ (by omega)]

end FiFi.Ext2
