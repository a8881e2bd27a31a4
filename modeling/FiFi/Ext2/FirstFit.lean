import FiFi.Ext2.Clean

/-!
# First fit

`e2_alloc_block` and `e2_alloc_inode` go through the groups and the bits of a
bitmap in order. So they fail only if nothing is free, and a block that is handed
out is the first of the free ones.
-/

namespace FiFi.Ext2

open ByteStore

variable {s : Fs}

/-- The blocks of a group are in use up to a bit. -/
def Vol.FullTo (v : Vol) (g n : Nat) : Prop := ∀ bit < n, v.layout.geo.blockOf g bit ∈ v.busy

/-- The inodes of a group are in use. -/
def Vol.FullInodes (v : Vol) (g : Nat) : Prop :=
  ∀ bit < v.layout.geo.inodesPerGroup, v.layout.geo.inodeOf g bit ∈ v.taken

/-- The search for a clear bit stops at the first one. -/
theorem clearBitOf_first {n bit : Nat} (h : clearBitOf s n = some bit) :
    ∀ j < bit, bitAt s.io j = true := by
  intro j hj
  unfold clearBitOf at h
  have hlt : bit < n := (clearBitOf_some h).1
  obtain ⟨-, as, bs, heq, hall⟩ := List.find?_eq_some_iff_append.1 h
  have hmem : j ∈ as := by
    have hlen : bit = as.length := by
      have hget : (List.range n)[as.length]? = some bit := by simp [heq]
      rw [List.getElem?_range (by
        have := congrArg List.length heq
        simp only [List.length_range, List.length_append, List.length_cons] at this
        omega)] at hget
      exact (Option.some.inj hget).symm
    have hget : (List.range n)[j]? = as[j]? := by
      rw [heq, List.getElem?_append_left (by omega)]
    rw [List.getElem?_range (by omega)] at hget
    exact List.mem_of_getElem? hget.symm
  simpa using hall j hmem

theorem clearBitOf_none {n : Nat} (h : clearBitOf s n = none) : ∀ j < n, bitAt s.io j = true := by
  intro j hj
  have hall := List.find?_eq_none.1 h j (List.mem_range.2 hj)
  simpa using hall

/-- All groups from `a` on are full, or the block is the first free one of them. -/
theorem allocBlockIn_first (n a : Nat) (h : s.Ok) (hgs : a + n ≤ s.img.geo.numGroups) :
    ((allocBlockIn s (List.range' a n)).1 = 0 ∧
        ∀ g, a ≤ g → g < a + n → s.vol.FullTo g s.img.geo.blocksPerGroup) ∨
      ∃ g bit, a ≤ g ∧ g < a + n ∧ bit < s.img.geo.blocksPerGroup ∧
        (allocBlockIn s (List.range' a n)).1 = s.img.geo.blockOf g bit ∧
        s.vol.Free (s.img.geo.blockOf g bit) ∧ s.vol.FullTo g bit ∧
        ∀ g', a ≤ g' → g' < g → s.vol.FullTo g' s.img.geo.blocksPerGroup := by
  induction n generalizing a s with
  | zero => exact Or.inl ⟨rfl, fun g hle hlt => by omega⟩
  | succ n ih =>
      have ha : a < s.img.geo.numGroups := by omega
      have hmap : (s.img.bgdt a).blockBitmap ≠ 0 := h.sound.layout.nonzero (.blockMap a) ha
      have hbusy : ∀ bit < s.img.geo.blocksPerGroup,
          bitAt (s.img.disk (s.img.bgdt a).blockBitmap) bit = true →
          s.img.geo.blockOf a bit ∈ s.vol.busy :=
        fun bit hbit hset => (s.img.mem_busy_blockOf hbit).2 ⟨ha, hset⟩
      have hrest : ∀ t : Fs, s.Reads t → s.vol.FullTo a s.img.geo.blocksPerGroup →
          ((allocBlockIn t (List.range' (a + 1) n)).1 = 0 ∧
            ∀ g, a ≤ g → g < a + (n + 1) → s.vol.FullTo g s.img.geo.blocksPerGroup) ∨
          ∃ g bit, a ≤ g ∧ g < a + (n + 1) ∧ bit < s.img.geo.blocksPerGroup ∧
            (allocBlockIn t (List.range' (a + 1) n)).1 = s.img.geo.blockOf g bit ∧
            s.vol.Free (s.img.geo.blockOf g bit) ∧ s.vol.FullTo g bit ∧
            ∀ g', a ≤ g' → g' < g → s.vol.FullTo g' s.img.geo.blocksPerGroup := by
        intro t ht hfull
        have hstep := ih (a + 1) (ht.ok h) (by rw [ht.img]; omega)
        rw [ht.vol, ht.img] at hstep
        rcases hstep with ⟨h0, hall⟩ | ⟨g, bit, hle, hlt, hbit, heq, hfree, hto, hall⟩
        · refine Or.inl ⟨h0, fun g hle hlt => ?_⟩
          rcases Nat.eq_or_lt_of_le hle with rfl | hgt
          · exact hfull
          · exact hall g hgt (by omega)
        · refine Or.inr ⟨g, bit, by omega, by omega, hbit, heq, hfree, hto,
            fun g' hle' hlt' => ?_⟩
          rcases Nat.eq_or_lt_of_le hle' with rfl | hgt
          · exact hfull
          · exact hall g' hgt hlt'
      rw [List.range'_succ]
      simp only [allocBlockIn, readBlock, if_neg hmap]
      split
      · rename_i hzero
        refine hrest s .refl fun bit hbit => hbusy bit hbit ?_
        exact clearBits_eq_zero.1 ((h.sound.freeBlocks a ha).symm.trans hzero) bit hbit
      · split
        · rename_i hnone
          refine hrest { s with io := s.img.disk (s.img.bgdt a).blockBitmap } ⟨rfl, rfl⟩
            fun bit hbit => hbusy bit hbit ?_
          exact clearBitOf_none hnone bit hbit
        · rename_i bit hsome
          obtain ⟨hlt, hclear⟩ := clearBitOf_some hsome
          refine Or.inr ⟨a, bit, le_rfl, by omega, hlt, rfl,
            Img.free_blockOf h.sound ha hlt hclear,
            fun j hj => hbusy j (hj.trans hlt) (clearBitOf_first hsome j hj),
            fun g' hle hlt => by omega⟩

/-- The number of a block grows with its group and its bit. -/
theorem Geo.blockOf_le (x : Geo) {g g' bit bit' : Nat} (hbit : bit < x.blocksPerGroup)
    (h : g < g' ∨ g = g' ∧ bit ≤ bit') : x.blockOf g bit ≤ x.blockOf g' bit' := by
  unfold blockOf
  rcases h with hlt | ⟨rfl, hle⟩
  · have hmul := Nat.mul_le_mul_right x.blocksPerGroup hlt
    rw [Nat.succ_mul] at hmul
    omega
  · omega

/-- A block is handed out if one is free, and then it is the first. -/
theorem allocBlock_first (h : s.Ok) :
    ((allocBlock s).1 = 0 ∧ s.vol.freeSet = ∅) ∨
      ((allocBlock s).1 ≠ 0 ∧ (allocBlock s).1 ∈ s.vol.freeSet ∧
        ∀ b ∈ s.vol.freeSet, (allocBlock s).1 ≤ b) := by
  have hfirst := allocBlockIn_first s.img.geo.numGroups 0 h (by omega)
  have halloc : allocBlock s = allocBlockIn s (List.range' 0 s.img.geo.numGroups) := by
    unfold allocBlock
    rw [List.range_eq_range']
  rw [← halloc, Nat.zero_add] at hfirst
  rcases hfirst with ⟨h0, hall⟩ | ⟨g, bit, -, hg, hbit, heq, hfree, hto, hall⟩
  · refine Or.inl ⟨h0, Finset.eq_empty_of_forall_notMem fun b hb => ?_⟩
    obtain ⟨⟨g, bit, hg, hbit, rfl⟩, hnot⟩ := Vol.mem_freeSet.1 hb
    exact hnot (hall g (Nat.zero_le _) hg bit hbit)
  · rw [heq]
    refine Or.inr ⟨hfree.ne_zero, Vol.mem_freeSet.2 ⟨⟨g, bit, hg, hbit, rfl⟩, hfree.notBusy⟩,
      fun b hb => ?_⟩
    obtain ⟨⟨g', bit', hg', hbit', rfl⟩, hnot⟩ := Vol.mem_freeSet.1 hb
    refine s.img.geo.blockOf_le hbit ?_
    by_contra hlt
    rcases Nat.lt_or_ge g' g with hgg | hgg
    · exact hnot (hall g' (Nat.zero_le _) hgg bit' hbit')
    · obtain rfl : g' = g := by omega
      exact hnot (hto bit' (by omega))

theorem allocBlock_eq_zero (h : s.Ok) : (allocBlock s).1 = 0 ↔ s.vol.freeSet = ∅ := by
  rcases allocBlock_first h with ⟨h0, hempty⟩ | ⟨hne, hmem, -⟩
  · exact iff_of_true h0 hempty
  · exact iff_of_false hne (Finset.ne_empty_of_mem hmem)

/-! ### Inodes -/

/-- No inode is free. -/
def Vol.NoInode (v : Vol) : Prop := ∀ g < v.layout.geo.numGroups, v.FullInodes g

theorem allocInodeIn_zero (h : s.Ok) {gs : List Nat} (hgs : ∀ g ∈ gs, g < s.img.geo.numGroups)
    (h0 : (allocInodeIn s gs).1 = 0) : ∀ g ∈ gs, s.vol.FullInodes g := by
  induction gs generalizing s with
  | nil => simp
  | cons g gs ih =>
      have hg := hgs g (by simp)
      have hgs' : ∀ g' ∈ gs, g' < s.img.geo.numGroups := fun g' hg' => hgs g' (by simp [hg'])
      have hmap : (s.img.bgdt g).inodeBitmap ≠ 0 := h.sound.layout.nonzero (.inodeMap g) hg
      have htaken : (∀ bit < s.img.geo.inodesPerGroup,
          bitAt (s.img.disk (s.img.bgdt g).inodeBitmap) bit = true) → s.vol.FullInodes g :=
        fun hset bit hbit => (s.img.mem_taken_inodeOf hbit).2 ⟨hg, hset bit hbit⟩
      rw [List.forall_mem_cons]
      simp only [allocInodeIn, readBlock, if_neg hmap] at h0
      split at h0
      · rename_i hzero
        exact ⟨htaken (clearBits_eq_zero.1 ((h.sound.freeInodes g hg).symm.trans hzero)),
          ih h hgs' h0⟩
      · split at h0
        · rename_i hnone
          exact ⟨htaken (clearBitOf_none hnone), ih (s := { s with
            io := s.img.disk (s.img.bgdt g).inodeBitmap }) ⟨h.ready, h.sound⟩ hgs' h0⟩
        · exact absurd h0 (Nat.succ_ne_zero _)

theorem allocInode_eq_zero (h : s.Ok) : (allocInode s).1 = 0 ↔ s.vol.NoInode := by
  constructor
  · intro h0 g hg
    exact allocInodeIn_zero h (fun _ hg => List.mem_range.1 hg) h0 g (List.mem_range.2 hg)
  · intro hfull
    rcases allocInode_spec h with ⟨h0, -⟩ | ⟨hne, hfree, -⟩
    · exact h0
    · obtain ⟨g, bit, hbit, heq⟩ :=
        s.img.geo.exists_inodeOf h.sound.layout.inodesPerGroup.1 hne
      obtain ⟨i, hi⟩ := hfree.exists_inode
      have hg := (inode_valid hi).2
      rw [heq, (s.img.geo.inodeOf_parts hbit).1] at hg
      exact absurd (heq ▸ hfull g hg bit hbit) hfree.notTaken

end FiFi.Ext2
