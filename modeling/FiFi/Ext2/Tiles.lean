import FiFi.Ext2.Records

/-!
# Blocks that are tiled by their records

The records of a directory block lie one behind the other and end where the block
ends. Their lengths are multiples of four, and an entry that is in use fits its
record. All changes to a block keep this: an insertion cuts a record in two or
fills one, and a removal only clears the inode number.
-/

namespace FiFi.Ext2

open ByteStore

/-- The records from an offset on tile the rest of the block. -/
inductive Tiles (b : Bytes) (size : Nat) : Nat → Prop
  | last : Tiles b size size
  | record {p : Nat} : Record b size p → 4 ∣ deRecLen b p →
      (deInode b p ≠ 0 → entrySize (deNameLen b p) ≤ deRecLen b p) →
      Tiles b size (p + deRecLen b p) → Tiles b size p

theorem actualLen_le_iff {b : Bytes} {p n : Nat} :
    (deInode b p ≠ 0 → actualLen b p ≤ n) ↔ (deInode b p ≠ 0 → entrySize (deNameLen b p) ≤ n) := by
  refine forall_congr' fun hlive => ?_
  rw [actualLen, if_pos hlive]

theorem four_dvd_entrySize (n : Nat) : 4 ∣ entrySize n := Nat.dvd_mul_left _ _

namespace Tiles

variable {b b' : Bytes} {size p q ino : Nat} {name : List UInt8}

theorem of_record (h : Tiles b size p) (hr : Record b size p) : 4 ∣ deRecLen b p ∧
    (deInode b p ≠ 0 → entrySize (deNameLen b p) ≤ deRecLen b p) ∧
      Tiles b size (p + deRecLen b p) := by
  cases h with
  | last =>
      have := hr.1
      omega
  | record _ h4 hfit hrest => exact ⟨h4, hfit, hrest⟩

theorem recordsFrom (h : Tiles b size p) : RecordsFrom b size p := by
  induction h with
  | last => exact recordsFrom_end le_rfl
  | record hr _ hfit _ ih => exact (recordsFrom_of_record hr).2 ⟨actualLen_le_iff.2 hfit, ih⟩

/-- What follows depends on the bytes that follow. -/
theorem congr (h : Tiles b size p) (heq : ∀ i, p ≤ i → b' i = b i) : Tiles b' size p := by
  induction h with
  | last => exact .last
  | @record p hr h4 hfit _ ih =>
      have hhead : ∀ i, p ≤ i → i < p + 8 → b' i = b i := fun i hi _ => heq i hi
      have hrec := deRecLen_congr hhead
      refine .record ((record_congr hhead).2 hr) (by rwa [hrec]) ?_ ?_
      · rw [hrec, deInode_congr hhead, deNameLen_congr hhead]
        exact hfit
      · rw [hrec]
        exact ih fun i hi => heq i (by omega)

theorem of_mem (h : Tiles b size p) (hq : q ∈ chainAt b size p) : Tiles b size q := by
  induction h with
  | last =>
      rw [chainAt_eq, if_neg fun hr => by have := hr.1; omega] at hq
      cases hq
  | record hr h4 hfit hrest ih =>
      rw [chainAt_of_record hr] at hq
      rcases List.mem_cons.1 hq with rfl | hq
      · exact .record hr h4 hfit hrest
      · exact ih hq

/-- What comes before a record stays if only bytes from the record on are changed. -/
theorem splice (h : Tiles b size p) (hq : q ∈ chainAt b size p) (heq : ∀ i < q, b' i = b i)
    (hnew : Tiles b' size q) : Tiles b' size p := by
  induction h with
  | last =>
      rw [chainAt_eq, if_neg fun hr => by have := hr.1; omega] at hq
      cases hq
  | @record p hr h4 hfit _ ih =>
      rw [chainAt_of_record hr] at hq
      rcases List.mem_cons.1 hq with rfl | hq
      · exact hnew
      · have hle : p + deRecLen b p ≤ q := by
          rcases (mem_chainAt hq).2 with rfl | hle <;> omega
        have hhead : ∀ i, p ≤ i → i < p + 8 → b' i = b i :=
          fun i _ hi => heq i (by have := hr.2.1; omega)
        have hrec := deRecLen_congr hhead
        refine .record ((record_congr hhead).2 hr) (by rwa [hrec]) ?_ ?_
        · rw [hrec, deInode_congr hhead, deNameLen_congr hhead]
          exact hfit
        · rw [hrec]
          exact ih hq

/-- An entry is put into a record that is not in use, or behind the entry in it. -/
theorem insertAt_self (ftype : Nat) (hsize : size ≤ 4096) (h : Tiles b size p)
    (hr : Record b size p) (hname : name.length ≤ 255) (h0 : ino ≠ 0) (hino : ino < 2 ^ 32)
    (hslack : entrySize name.length ≤ slack b p) :
    Tiles (insertAt b p ino ftype name) size p := by
  obtain ⟨h4, hfit, hrest⟩ := h.of_record hr
  have hneed := le_entrySize name.length
  obtain ⟨-, -, hout⟩ := FiFi.Ext2.insertAt_self ftype hsize hr h.recordsFrom hname h0 hino hslack
  have hrest' := hrest.congr fun i hi => hout i (Or.inr hi)
  by_cases hlive : deInode b p = 0
  · have hroom : entrySize name.length ≤ deRecLen b p := by
      unfold slack at hslack
      rwa [if_neg (by simp [hlive])] at hslack
    have hins : insertAt b p ino ftype name = putEntry b p ino ftype name :=
      if_neg (by simpa using hlive)
    rw [hins] at hrest' ⊢
    have hrec := deRecLen_putEntry b p ino ftype name
    refine .record ?_ (by rwa [hrec]) (fun _ => ?_) (by rwa [hrec])
    · unfold Record
      rw [hrec]
      exact hr
    · rwa [hrec, deNameLen_putEntry _ _ _ _ _ hname]
  · have hfit' := actualLen_le_iff.2 hfit hlive
    have hroom := room_of_slack hlive hfit' hslack
    have hactual : actualLen b p = entrySize (deNameLen b p) := if_pos hlive
    have hlen := le_entrySize (deNameLen b p)
    have h4' := four_dvd_entrySize (deNameLen b p)
    obtain ⟨c, hins, hcrec, hprec, hpinode, hpactual, -, -⟩ :=
      insertAt_split ino ftype hsize hr hlive hfit' hroom
    obtain ⟨hlt, hmin, hle⟩ := hr
    rw [hins] at hprec hpinode hpactual hrest' ⊢
    have hrec₂ := deRecLen_putEntry c (p + actualLen b p) ino ftype name
    have hnext : p + actualLen b p + (deRecLen b p - actualLen b p) = p + deRecLen b p := by omega
    refine .record ?_ ?_ (actualLen_le_iff.1 fun _ => ?_) ?_
    · unfold Record
      rw [hprec]
      omega
    · rwa [hprec, hactual]
    · rw [hprec, hpactual]
    · rw [hprec]
      refine .record ?_ ?_ (fun _ => ?_) ?_
      · unfold Record
        rw [hrec₂, hcrec]
        omega
      · rw [hrec₂, hcrec, hactual]
        exact Nat.dvd_sub h4 h4'
      · rwa [hrec₂, hcrec, deNameLen_putEntry _ _ _ _ _ hname]
      · rwa [hrec₂, hcrec, hnext]

theorem insertAt (ftype : Nat) (hsize : size ≤ 4096) (h : Tiles b size q) (hp : p ∈ chainAt b size q)
    (hname : name.length ≤ 255) (h0 : ino ≠ 0) (hino : ino < 2 ^ 32)
    (hslack : entrySize name.length ≤ slack b p) :
    Tiles (insertAt b p ino ftype name) size q := by
  have hr := (mem_chainAt hp).1
  have hself := h.of_mem hp
  obtain ⟨-, -, hout⟩ :=
    FiFi.Ext2.insertAt_self ftype hsize hr hself.recordsFrom hname h0 hino hslack
  exact h.splice hp (fun i hi => hout i (Or.inl hi))
    (hself.insertAt_self ftype hsize hr hname h0 hino hslack)

theorem remove (h : Tiles b size q) (hp : p ∈ chainAt b size q) :
    Tiles (put32 b p 0) size q := by
  have hr := (mem_chainAt hp).1
  obtain ⟨h4, -, hrest⟩ := (h.of_mem hp).of_record hr
  have hrec := deRecLen_put32_zero b p
  have hmin := hr.2.1
  refine h.splice hp (fun i hi => put32_zero_out b (Or.inl hi)) (.record ?_ (by rwa [hrec]) ?_ ?_)
  · unfold Record
    rw [hrec]
    exact hr
  · exact fun hc => absurd (deInode_put32_zero b p) hc
  · rw [hrec]
    exact hrest.congr fun i hi => put32_zero_out b (by omega)

end Tiles

/-- The block of a directory that was too small. -/
theorem tiles_newDirBlock (b : Bytes) {size ino ftype : Nat} {name : List UInt8}
    (hsize : 1024 ≤ size ∧ size ≤ 4096) (h4 : 4 ∣ size) (hname : name.length ≤ 255) :
    Tiles (newDirBlock b size ino ftype name) size 0 := by
  have hlen := entrySize_le hname
  have hrec : deRecLen (newDirBlock b size ino ftype name) 0 = size := by
    unfold newDirBlock
    rw [deRecLen_putEntry]
    exact le16_put16_of_lt _ _ (by omega)
  refine .record ?_ (by rwa [hrec]) (fun _ => ?_) ?_
  · unfold Record
    rw [hrec]
    omega
  · rw [hrec]
    unfold newDirBlock
    rw [deNameLen_putEntry _ _ _ _ _ hname]
    omega
  · rw [hrec, Nat.zero_add]
    exact .last

end FiFi.Ext2
