import FiFi.Heap.Code
import FiFi.Library.BlockList
import FiFi.Library.LinkedList

/-!
# The blocks of the kernel heap

A block is never split, merged or moved. `Valid s bs fs` says that the blocks `bs` that
were ever handed out do not meet, lie below the page that is mapped next and outside the
rest of the current page, and that those at `fs` are chained on the free list. Each
function writes to one block only, apart from the link that points to it.
-/

namespace FiFi.Heap

open ByteStore Pmm Spans LinkedList
open Thread (heapUsableBase heapUsableEnd)

/-! ### Headers in memory -/

section Memory

variable {m m' : Bytes} {h h' v p n i : Nat}

theorem hSize_congr (hsame : ∀ i, h ≤ i → i < h + hdrSz → m' i = m i) :
    hSize m' h = hSize m h :=
  le64_congr fun i hi hi' => hsame i hi (by unfold hdrSz; omega)

theorem hMagic_congr (hsame : ∀ i, h ≤ i → i < h + hdrSz → m' i = m i) :
    hMagic m' h = hMagic m h :=
  le64_congr fun i hi hi' => hsame i (by omega) (by unfold hdrSz; omega)

theorem hLink_congr (hsame : ∀ i, h + hdrSz ≤ i → i < h + hdrSz + 8 → m' i = m i) :
    hLink m' h = hLink m h :=
  le64_congr hsame

theorem setSize_ne (m : Bytes) (v : Nat) (hi : i < h ∨ h + hdrSz ≤ i) : setSize m h v i = m i :=
  put64_ne m v (by unfold hdrSz at hi; omega)

theorem setMagic_ne (m : Bytes) (v : Nat) (hi : i < h ∨ h + hdrSz ≤ i) : setMagic m h v i = m i :=
  put64_ne m v (by unfold hdrSz at hi; omega)

theorem hSize_setMagic (m : Bytes) (h v : Nat) : hSize (setMagic m h v) h = hSize m h :=
  le64_put64_ne m v (by omega)

theorem hMagic_setMagic (m : Bytes) (h : Nat) (hv : v < 2 ^ 64) :
    hMagic (setMagic m h v) h = v :=
  le64_put64_of_lt m _ hv

theorem hSize_setSize (m : Bytes) (h : Nat) (hv : v < 2 ^ 64) : hSize (setSize m h v) h = v :=
  le64_put64_of_lt m _ hv

theorem memzero_in (m : Bytes) (hi : p ≤ i ∧ i < p + n) : memzero m p n i = 0 := if_pos hi

theorem memzero_out (m : Bytes) (hi : i < p ∨ p + n ≤ i) : memzero m p n i = m i :=
  if_neg (by omega)

end Memory

/-! ### The invariant -/

/-- A block lies in the arena, below the next page and outside the rest of the current
one, with its header at a multiple of 16. -/
structure Placed (s : HeapState) (b : Span) : Prop where
  lo : heapUsableBase ≤ b.addr
  mod : b.addr % 16 = 0
  room : hdrSz + 8 ≤ b.size
  hi : b.addr + b.size ≤ s.nextPageVirt
  page : b.addr + b.size ≤ s.curPageVirt + s.curOff ∨ s.curPageVirt + pageSize ≤ b.addr

/-- The current page is mapped and below the page that is mapped next. -/
structure Cursors (s : HeapState) : Prop where
  cur_lo : heapUsableBase ≤ s.curPageVirt
  cur_next : s.curPageVirt + pageSize ≤ s.nextPageVirt
  off_le : s.curOff ≤ pageSize
  next_mod : s.nextPageVirt % pageSize = 0
  next_le : s.nextPageVirt ≤ heapUsableEnd
  mapped : ∀ p, heapUsableBase / pageSize ≤ p → p < s.nextPageVirt / pageSize → s.mapped p = true

/-- The blocks `bs` exist, with their headers, and those at `fs` are on the free list. -/
structure Valid (s : HeapState) (bs : List Span) (fs : List Nat) : Prop where
  cursors : Cursors s
  apart : bs.Pairwise Apart
  placed : ∀ b ∈ bs, Placed s b
  sized : ∀ b ∈ bs, hSize s.mem b.addr + hdrSz = b.size
  chain : Chain (hLink s.mem) 0 s.freeList fs
  free : ∀ a ∈ fs, hMagic s.mem a = 0 ∧ ∃ b ∈ bs, b.addr = a
  nodup : fs.Nodup

variable {s s' : HeapState} {bs : List Span} {fs pre post : List Nat} {b d : Span}
  {a v k need align : Nat} {m' : Bytes} {e : Supply}

theorem heapUsableEnd_lt : heapUsableEnd < 2 ^ 64 - 2 ^ 46 := by decide

theorem heapUsableBase_pos : 0 < heapUsableBase := by decide

theorem Valid.pos (h : Valid s bs fs) : ∀ b ∈ bs, 0 < b.size := fun b hb => by
  have := (h.placed b hb).room
  omega

/-- What belongs to one block does not belong to another. -/
theorem Valid.outside (h : Valid s bs fs) (hb : b ∈ bs) (hd : d ∈ bs) (hne : d ≠ b)
    {i : Nat} (hi : d.addr ≤ i) (hi' : i < d.addr + d.size) :
    i < b.addr ∨ b.addr + b.size ≤ i := by
  rcases apart_of_mem h.apart hb hd hne.symm with hap | hap <;> omega

theorem Valid.addr_pos (h : Valid s bs fs) (hb : b ∈ bs) : b.addr ≠ 0 := by
  have hlo := (h.placed b hb).lo
  have := heapUsableBase_pos
  omega

theorem Valid.end_lt (h : Valid s bs fs) (hb : b ∈ bs) : b.addr + b.size < 2 ^ 64 - 2 ^ 46 := by
  have hhi := (h.placed b hb).hi
  have := h.cursors.next_le
  have := heapUsableEnd_lt
  omega

/-- The blocks stay valid when their bytes stay. -/
theorem Valid.frame (h : Valid s bs fs) (hcur : Cursors s') (hplaced : ∀ b ∈ bs, Placed s' b)
    (hlist : s'.freeList = s.freeList)
    (hmem : ∀ b ∈ bs, ∀ i, b.addr ≤ i → i < b.addr + b.size → s'.mem i = s.mem i) :
    Valid s' bs fs where
  cursors := hcur
  apart := h.apart
  placed := hplaced
  sized b hb := by
    have hroom := (h.placed b hb).room
    rw [hSize_congr fun i hi hi' => hmem b hb i hi (by omega)]
    exact h.sized b hb
  chain := by
    rw [hlist]
    refine chain_congr (fun a ha => ?_) h.chain
    obtain ⟨-, b, hb, rfl⟩ := h.free a ha
    have hroom := (h.placed b hb).room
    exact hLink_congr fun i hi hi' => hmem b hb i (by omega) (by omega)
  free a ha := by
    obtain ⟨hmagic, b, hb, rfl⟩ := h.free a ha
    have hroom := (h.placed b hb).room
    refine ⟨?_, b, hb, rfl⟩
    rw [hMagic_congr fun i hi hi' => hmem b hb i hi (by omega)]
    exact hmagic
  nodup := h.nodup

/-- A new block next to the others. -/
theorem Valid.cons (h : Valid s bs fs) (hd : Placed s d) (hapart : ∀ b ∈ bs, Apart d b)
    (hsize : hSize s.mem d.addr + hdrSz = d.size) : Valid s (d :: bs) fs where
  cursors := h.cursors
  apart := List.pairwise_cons.2 ⟨hapart, h.apart⟩
  placed := List.forall_mem_cons.2 ⟨hd, h.placed⟩
  sized := List.forall_mem_cons.2 ⟨hsize, h.sized⟩
  chain := h.chain
  free a ha := by
    obtain ⟨hmagic, b, hb, haddr⟩ := h.free a ha
    exact ⟨hmagic, b, List.mem_cons_of_mem _ hb, haddr⟩
  nodup := h.nodup

/-- The free list is shorter than any walk that does not end. -/
theorem Valid.length_lt (h : Valid s bs fs) : fs.length < manySteps := by
  have hsub : fs.toFinset ⊆ Finset.range heapUsableEnd := by
    intro a ha
    obtain ⟨-, b, hb, rfl⟩ := h.free a (List.mem_toFinset.1 ha)
    have hhi := (h.placed b hb).hi
    have hpos := h.pos b hb
    have := h.cursors.next_le
    exact Finset.mem_range.2 (by omega)
  have hcard := Finset.card_le_card hsub
  rw [Finset.card_range, List.toFinset_card_of_nodup h.nodup] at hcard
  have := heapUsableEnd_lt
  unfold manySteps
  omega

theorem Valid.freeList_lt (h : Valid s bs fs) : s.freeList < 2 ^ 64 := by
  cases fs with
  | nil =>
      rw [show s.freeList = 0 from h.chain]
      decide
  | cons a fs =>
      obtain ⟨-, b, hb, rfl⟩ := h.free a List.mem_cons_self
      have hend := h.end_lt hb
      rw [show s.freeList = b.addr from h.chain.1]
      omega

/-- Memory may change inside a block that is not on the free list, if its size stays. -/
theorem Valid.touch (h : Valid s bs fs) (hb : b ∈ bs) (hnot : b.addr ∉ fs)
    (hout : ∀ i, i < b.addr ∨ b.addr + b.size ≤ i → m' i = s.mem i)
    (hsize : hSize m' b.addr = hSize s.mem b.addr) : Valid { s with mem := m' } bs fs := by
  have hother : ∀ d ∈ bs, d ≠ b → ∀ i, d.addr ≤ i → i < d.addr + d.size → m' i = s.mem i :=
    fun d hd hne i hi hi' => hout i (h.outside hb hd hne hi hi')
  have hfree : ∀ a ∈ fs, ∀ i, a ≤ i → i < a + hdrSz + 8 → m' i = s.mem i := by
    intro a ha i hi hi'
    obtain ⟨-, d, hd, rfl⟩ := h.free a ha
    have hroom := (h.placed d hd).room
    exact hother d hd (by rintro rfl; exact hnot ha) i hi (by omega)
  refine ⟨⟨h.cursors.cur_lo, h.cursors.cur_next, h.cursors.off_le, h.cursors.next_mod,
    h.cursors.next_le, h.cursors.mapped⟩, h.apart, fun d hd => ?_, fun d hd => ?_,
    chain_congr (fun a ha => ?_) h.chain, fun a ha => ?_, h.nodup⟩
  · have hd := h.placed d hd
    exact ⟨hd.lo, hd.mod, hd.room, hd.hi, hd.page⟩
  · rw [← h.sized d hd]
    by_cases hdb : d = b
    · rw [hdb]
      exact congrArg (· + hdrSz) hsize
    · have hroom := (h.placed d hd).room
      exact congrArg (· + hdrSz) (hSize_congr fun i hi hi' => hother d hd hdb i hi (by omega))
  · exact hLink_congr fun i hi hi' => hfree a ha i (by omega) hi'
  · refine ⟨?_, (h.free a ha).2⟩
    rw [← (h.free a ha).1]
    exact hMagic_congr fun i hi hi' => hfree a ha i hi (by omega)

/-- A block goes to the head of the free list. -/
theorem Valid.push (h : Valid s bs fs) (hb : b ∈ bs) (hnot : b.addr ∉ fs)
    (hmagic : hMagic s.mem b.addr = 0) (hlink : hLink s.mem b.addr = s.freeList) :
    Valid { s with freeList := b.addr } bs (b.addr :: fs) where
  cursors := ⟨h.cursors.cur_lo, h.cursors.cur_next, h.cursors.off_le, h.cursors.next_mod,
    h.cursors.next_le, h.cursors.mapped⟩
  apart := h.apart
  placed d hd := ⟨(h.placed d hd).lo, (h.placed d hd).mod, (h.placed d hd).room,
    (h.placed d hd).hi, (h.placed d hd).page⟩
  sized := h.sized
  chain := ⟨rfl, h.addr_pos hb, by rw [hlink]; exact h.chain⟩
  free := List.forall_mem_cons.2 ⟨⟨hmagic, b, hb, rfl⟩, h.free⟩
  nodup := List.nodup_cons.2 ⟨hnot, h.nodup⟩

/-! ### A block is given back -/

/-- The header of a pointer. -/
theorem u64_sub_hdrSz (h : a + hdrSz < 2 ^ 64) : u64 (a + hdrSz + 2 ^ 64 - hdrSz) = a := by
  unfold u64 hdrSz at *
  omega

theorem magics_pos : heapMagic ≠ 0 ∧ heapMagicLarge ≠ 0 ∧ heapMagic ≠ heapMagicLarge := by
  unfold heapMagic heapMagicLarge
  omega

theorem magics_lt : heapMagic < 2 ^ 64 ∧ heapMagicLarge < 2 ^ 64 := by
  unfold heapMagic heapMagicLarge
  omega

/-- A block with a magic number is not on the free list. -/
theorem Valid.not_free (h : Valid s bs fs)
    (hmagic : hMagic s.mem a = heapMagic ∨ hMagic s.mem a = heapMagicLarge) : a ∉ fs := by
  intro hfs
  have hzero := (h.free a hfs).1
  rcases hmagic with hm | hm
  · exact magics_pos.1 (hm.symm.trans hzero)
  · exact magics_pos.2.1 (hm.symm.trans hzero)

/-- `kfree` writes to the block only. -/
theorem Valid.kfree (h : Valid s bs fs) (hb : b ∈ bs)
    (hmagic : hMagic s.mem b.addr = heapMagic ∨ hMagic s.mem b.addr = heapMagicLarge) :
    ∃ s' fs', kfree s (b.addr + hdrSz) = .ok s' ∧ Valid s' bs fs' ∧
      hMagic s'.mem b.addr = 0 ∧
      ∀ i, i < b.addr ∨ b.addr + b.size ≤ i → s'.mem i = s.mem i := by
  have hroom := (h.placed b hb).room
  have hend := h.end_lt hb
  have hnot := h.not_free hmagic
  have hout : ∀ i, i < b.addr ∨ b.addr + b.size ≤ i → setMagic s.mem b.addr 0 i = s.mem i :=
    fun i hi => setMagic_ne _ _ (by omega)
  have htouch := h.touch hb hnot hout (hSize_setMagic _ _ _)
  have hzero : hMagic (setMagic s.mem b.addr 0) b.addr = 0 := hMagic_setMagic _ _ (by omega)
  unfold Heap.kfree
  rw [if_neg (by unfold hdrSz; omega), u64_sub_hdrSz (by omega)]
  dsimp only
  by_cases hlarge : hMagic s.mem b.addr = heapMagicLarge
  · rw [if_pos hlarge]
    exact ⟨_, fs, rfl, htouch, hzero, hout⟩
  · rw [if_neg hlarge, if_neg (not_not.2 (hmagic.resolve_right hlarge))]
    have hlt := h.freeList_lt
    have hkeep : ∀ i, i < b.addr + hdrSz ∨ b.addr + hdrSz + 8 ≤ i →
        put64 (setMagic s.mem b.addr 0) (b.addr + hdrSz) s.freeList i =
          setMagic s.mem b.addr 0 i := fun i hi => put64_ne _ _ hi
    have hmagic' : hMagic (put64 (setMagic s.mem b.addr 0) (b.addr + hdrSz) s.freeList) b.addr =
        0 := (hMagic_congr fun i hi hi' => hkeep i (Or.inl hi')).trans hzero
    have hnext := htouch.touch hb hnot (fun i hi => hkeep i (by omega))
      (hSize_congr fun i hi hi' => hkeep i (Or.inl hi'))
    refine ⟨_, b.addr :: fs, rfl, hnext.push hb hnot hmagic' (le64_put64_of_lt _ _ hlt), hmagic',
      fun i hi => (hkeep i (by omega)).trans (hout i hi)⟩

/-! ### The free list -/

/-- Where the link behind the blocks `pre` is, when the walk begins at `pp`. -/
def linkTo : Option Nat → List Nat → Option Nat
  | pp, [] => pp
  | _, x :: pre => linkTo (some (x + hdrSz)) pre

theorem linkTo_concat (pp : Option Nat) (pre : List Nat) (x : Nat) :
    linkTo pp (pre ++ [x]) = some (x + hdrSz) := by
  induction pre generalizing pp with
  | nil => rfl
  | cons y pre ih => exact ih _

/-- The block at `a` is taken off the list, where `pp` has its address. -/
def takeBlock (s : HeapState) (pp : Option Nat) (a : Nat) : HeapState :=
  let s := store s (hLink s.mem a) pp
  let m := setMagic s.mem a heapMagic
  { s with mem := memzero m (a + hdrSz) (hSize m a) }

/-- The walk ends at the first block that is large enough, or at the end of the list. -/
theorem freelistTake_walk (need : Nat) {pp : Option Nat} (hchain : Chain (hLink s.mem) 0 (load s pp) fs)
    (hk : fs.length < k) :
    freelistTake s need k pp = some (0, s) ∨
      ∃ pre a post, fs = pre ++ a :: post ∧ need ≤ hSize s.mem a ∧
        freelistTake s need k pp = some (a + hdrSz, takeBlock s (linkTo pp pre) a) := by
  induction fs generalizing k pp with
  | nil =>
      obtain ⟨k, rfl⟩ := Nat.exists_eq_succ_of_ne_zero (show k ≠ 0 by omega)
      left
      rw [freelistTake]
      exact if_pos hchain
  | cons x xs ih =>
      obtain ⟨k, rfl⟩ := Nat.exists_eq_succ_of_ne_zero (show k ≠ 0 by omega)
      obtain ⟨hload, hne, htail⟩ := hchain
      rw [freelistTake, hload]
      dsimp only
      rw [if_neg hne]
      by_cases hfits : need ≤ hSize s.mem x
      · right
        refine ⟨[], x, xs, rfl, hfits, ?_⟩
        rw [if_pos hfits]
        rfl
      · rw [if_neg hfits]
        rcases @ih _ (some (x + hdrSz)) htail (Nat.lt_of_succ_lt_succ hk) with hnone | ⟨pre, a, post, rfl, hneed, hrun⟩
        · exact Or.inl hnone
        · exact Or.inr ⟨x :: pre, a, post, rfl, hneed, hrun⟩

theorem store_mem_ne {pp : Option Nat} {i : Nat}
    (hi : ∀ p, pp = some p → i < p ∨ p + 8 ≤ i) : (store s v pp).mem i = s.mem i := by
  cases pp with
  | none => rfl
  | some p => exact put64_ne _ _ (hi p rfl)

/-- A block is taken off the list by a write to the link that points to it. -/
theorem Valid.unlink (h : Valid s bs (pre ++ a :: post)) :
    Valid (store s (hLink s.mem a) (linkTo none pre)) bs (pre ++ post) ∧
      ∀ i, (∀ x ∈ pre, i < x + hdrSz ∨ x + hdrSz + 8 ≤ i) →
        (store s (hLink s.mem a) (linkTo none pre)).mem i = s.mem i := by
  have hnodup : (pre ++ post).Nodup :=
    h.nodup.sublist (List.Sublist.append_left (List.sublist_cons_self _ _) pre)
  rcases List.eq_nil_or_concat pre with rfl | ⟨xs, p, rfl⟩
  · refine ⟨⟨⟨h.cursors.cur_lo, h.cursors.cur_next, h.cursors.off_le, h.cursors.next_mod,
      h.cursors.next_le, h.cursors.mapped⟩, h.apart, fun d hd => ?_, h.sized, h.chain.2.2,
      fun x hx => h.free x (List.mem_cons_of_mem _ hx), hnodup⟩, fun _ _ => rfl⟩
    have hd := h.placed d hd
    exact ⟨hd.lo, hd.mod, hd.room, hd.hi, hd.page⟩
  · rw [List.concat_eq_append] at *
    rw [linkTo_concat]
    rw [List.append_assoc, List.singleton_append] at h hnodup
    rw [List.append_assoc, List.singleton_append]
    have hmem : ∀ x, x ∈ xs ++ p :: post → x ∈ xs ++ p :: a :: post := fun x hx =>
      ((List.sublist_cons_self a post).cons_cons p).append_left xs |>.subset hx
    have hp : p ∈ xs ++ p :: a :: post := List.mem_append_right _ List.mem_cons_self
    have hpnot := (List.nodup_cons.1 (List.nodup_middle.1 h.nodup)).1
    obtain ⟨-, bp, hbp, haddr⟩ := h.free p hp
    have hroomp := (h.placed bp hbp).room
    have hkeep : ∀ i, i < p + hdrSz ∨ p + hdrSz + 8 ≤ i →
        put64 s.mem (p + hdrSz) (hLink s.mem a) i = s.mem i := fun i hi => put64_ne _ _ hi
    -- The link lies in the block at `p`, behind its header.
    have hother : ∀ d ∈ bs, ∀ i, d.addr ≤ i → i < d.addr + d.size → (d = bp → i < d.addr + hdrSz) →
        put64 s.mem (p + hdrSz) (hLink s.mem a) i = s.mem i := by
      intro d hd i hi hi' himp
      refine hkeep i ?_
      by_cases hdp : d = bp
      · have := himp hdp
        subst hdp
        omega
      · have := h.outside hbp hd hdp hi hi'
        omega
    have hhead : ∀ d ∈ bs, ∀ i, d.addr ≤ i → i < d.addr + hdrSz →
        put64 s.mem (p + hdrSz) (hLink s.mem a) i = s.mem i := fun d hd i hi hi' => by
      have hroom := (h.placed d hd).room
      exact hother d hd i hi (by omega) fun _ => hi'
    refine ⟨⟨⟨h.cursors.cur_lo, h.cursors.cur_next, h.cursors.off_le, h.cursors.next_mod,
      h.cursors.next_le, h.cursors.mapped⟩, h.apart, fun d hd => ?_, fun d hd => ?_, ?_,
      fun x hx => ?_, hnodup⟩, fun i hi => hkeep i (hi p (by simp))⟩
    · have hd := h.placed d hd
      exact ⟨hd.lo, hd.mod, hd.room, hd.hi, hd.page⟩
    · rw [← h.sized d hd]
      exact congrArg (· + hdrSz) (hSize_congr (hhead d hd))
    · refine chain_unlink h.chain (le64_put64_of_lt _ _ (le64_lt _ _)) fun y hy => ?_
      have hmemy : y ∈ xs ++ a :: post := hy.elim (List.mem_append_left _)
        fun hpost => List.mem_append_right _ (List.mem_cons_of_mem _ hpost)
      have hyp : y ≠ p := fun heq => hpnot (heq ▸ hmemy)
      obtain ⟨-, d, hd, rfl⟩ := h.free y
        ((List.sublist_cons_self p (a :: post)).append_left xs |>.subset hmemy)
      have hroom := (h.placed d hd).room
      refine hLink_congr fun i hi hi' => hother d hd i (by omega) (by omega) fun hdp => ?_
      exact absurd (by rw [hdp, haddr]) hyp
    · obtain ⟨hzero, d, hd, rfl⟩ := h.free x (hmem x hx)
      refine ⟨?_, d, hd, rfl⟩
      rw [← hzero]
      exact hMagic_congr (hhead d hd)

/-- A block that is taken gets its magic number back and is cleared. -/
theorem Valid.take (h : Valid s bs (pre ++ d.addr :: post)) (hd : d ∈ bs) :
    Valid (takeBlock s (linkTo none pre) d.addr) bs (pre ++ post) ∧
      hMagic (takeBlock s (linkTo none pre) d.addr).mem d.addr = heapMagic ∧
      (∀ i < hSize s.mem d.addr,
        (takeBlock s (linkTo none pre) d.addr).mem (d.addr + hdrSz + i) = 0) ∧
      ∀ i, i < d.addr ∨ d.addr + d.size ≤ i →
        (∀ x ∈ pre, i < x + hdrSz ∨ x + hdrSz + 8 ≤ i) →
        (takeBlock s (linkTo none pre) d.addr).mem i = s.mem i := by
  obtain ⟨hvalid, hkeep⟩ := h.unlink
  have hsized := h.sized d hd
  have hsized' := hvalid.sized d hd
  have hnot : d.addr ∉ pre ++ post := by
    have hnd := (List.nodup_middle.1 h.nodup)
    exact (List.nodup_cons.1 hnd).1
  unfold takeBlock
  dsimp only
  generalize store s (hLink s.mem d.addr) (linkTo none pre) = s1 at *
  have hsize : hSize (setMagic s1.mem d.addr heapMagic) d.addr = hSize s1.mem d.addr :=
    hSize_setMagic _ _ _
  have hzeroed : ∀ i, i < d.addr + hdrSz ∨ d.addr + d.size ≤ i →
      memzero (setMagic s1.mem d.addr heapMagic) (d.addr + hdrSz)
        (hSize (setMagic s1.mem d.addr heapMagic) d.addr) i =
        setMagic s1.mem d.addr heapMagic i := fun i hi => memzero_out _ (by omega)
  have hout : ∀ i, i < d.addr ∨ d.addr + d.size ≤ i →
      memzero (setMagic s1.mem d.addr heapMagic) (d.addr + hdrSz)
        (hSize (setMagic s1.mem d.addr heapMagic) d.addr) i = s1.mem i := fun i hi =>
    (hzeroed i (by omega)).trans (setMagic_ne _ _ (by omega))
  refine ⟨hvalid.touch hd hnot hout ?_, ?_, fun i hi => ?_,
    fun i hi hpre => (hout i hi).trans (hkeep i hpre)⟩
  · rw [← hsize]
    exact hSize_congr fun i hi hi' => hzeroed i (Or.inl hi')
  · exact (hMagic_congr fun i hi hi' => hzeroed i (Or.inl hi')).trans
      (hMagic_setMagic s1.mem d.addr magics_lt.1)
  · exact memzero_in _ (by omega)

end FiFi.Heap
