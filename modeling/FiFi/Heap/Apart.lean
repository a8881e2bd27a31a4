import FiFi.Heap.Session

/-!
# Blocks of the kernel heap stay apart

The blocks of all pointers, with their headers, do not meet and lie in mapped pages of
the arena; those on the free list were freed. What is handed out is cleared, the other
live blocks stay as they are, and a pointer that was freed is not freed twice. This is
what `Inv` says, read off the memory.
-/

namespace FiFi.Heap

open ByteStore Pmm Spans LinkedList StateMachine
open Thread (heapUsableBase heapUsableEnd)

/-! ### What is seen in memory -/

/-- The block of a pointer, with its header. -/
def blockOf (s : HeapState) (p : Nat) : Span := ⟨p - hdrSz, hdrSz + hSize s.mem (p - hdrSz)⟩

/-- The address is one of the block of `p`. -/
def InBlock (s : HeapState) (p i : Nat) : Prop :=
  (blockOf s p).addr ≤ i ∧ i < (blockOf s p).addr + (blockOf s p).size

/-- The blocks do not meet, and lie in the arena. -/
structure Sound (t : Session) : Prop where
  apart : (t.pointers.map (blockOf t.heap)).Pairwise Apart
  room : ∀ x ∈ t.live, x.2 ≤ hSize t.heap.mem (x.1 - hdrSz)
  arena : ∀ p ∈ t.pointers, ∀ i, InBlock t.heap p i →
    heapUsableBase ≤ i ∧ i < heapUsableEnd ∧ t.heap.mapped (i / pageSize) = true
  list : ∃ fs, Chain (hLink t.heap.mem) 0 t.heap.freeList fs ∧ fs.Nodup ∧
    ∀ a ∈ fs, a + hdrSz ∈ t.freed

/-- `kmalloc_aligned` comes to an end, leaves the live blocks as they are, and clears what
it hands out. -/
def Cleared (t : Session) (size align : Nat) (e : Supply) : Prop :=
  kmallocAligned t.heap size align e ≠ .error .endless ∧
    ∀ r s', kmallocAligned t.heap size align e = .ok (r, s') →
      (∀ x ∈ t.live, ∀ i, InBlock t.heap x.1 i → s'.mem i = t.heap.mem i) ∧
      (r ≠ 0 → ∀ i < size, s'.mem (r + i) = 0)

/-- The kernel cannot free the pointer. -/
def DoubleFree (s : HeapState) (p : Nat) : Prop :=
  kfree s p = .error (.panic "kfree: bad magic (double-free or corrupt pointer)")

variable {t : Session} {s : HeapState} {bs : List Span} {fs : List Nat} {b : Span}
  {p k size : Nat} {e : Supply}

theorem Valid.blockOf (h : Valid s bs fs) (hb : b ∈ bs) : blockOf s (b.addr + hdrSz) = b := by
  have hsized := h.sized b hb
  unfold Heap.blockOf
  rw [Nat.add_sub_cancel, Nat.add_comm, hsized]

theorem Tracks.pointer (h : Tracks t bs) (hp : p ∈ t.pointers) :
    ∃ b ∈ bs, p = b.addr + hdrSz := by
  rcases List.mem_append.1 hp with hl | hf
  · obtain ⟨x, hx, rfl⟩ := List.mem_map.1 hl
    obtain ⟨b, hb, haddr, -⟩ := h.live x hx
    exact ⟨b, hb, haddr⟩
  · obtain ⟨b, hb, haddr, -⟩ := (h.freed p).1 hf
    exact ⟨b, hb, haddr⟩

/-- The pages below the next one are mapped. -/
theorem Valid.mapped (h : Valid s bs fs) (hb : b ∈ bs) {i : Nat} (hi : b.addr ≤ i)
    (hi' : i < b.addr + b.size) :
    heapUsableBase ≤ i ∧ i < heapUsableEnd ∧ s.mapped (i / pageSize) = true := by
  have hlo := (h.placed b hb).lo
  have hhi := (h.placed b hb).hi
  have hle := h.cursors.next_le
  have hmod := h.cursors.next_mod
  refine ⟨by omega, by omega, h.cursors.mapped _ (Nat.div_le_div_right (by omega)) ?_⟩
  unfold pageSize at *
  omega

theorem Inv.sound (h : Inv t) (hsmall : ∀ x ∈ t.live, x.2 < 2 ^ 32) : Sound t := by
  obtain ⟨bs, fs, hvalid, htracks⟩ := h
  refine ⟨?_, fun x hx => ?_, fun p hp i hi => ?_, fs, hvalid.chain, hvalid.nodup, fun a ha => ?_⟩
  · rw [List.pairwise_map]
    refine List.Pairwise.imp_of_mem (fun {p q} hp hq hne => ?_) htracks.distinct
    obtain ⟨b, hb, rfl⟩ := htracks.pointer hp
    obtain ⟨c, hc, rfl⟩ := htracks.pointer hq
    rw [hvalid.blockOf hb, hvalid.blockOf hc]
    exact apart_of_mem hvalid.apart hb hc fun heq => hne (by rw [heq])
  · obtain ⟨b, hb, haddr, hroom, -⟩ := htracks.live x hx
    have hlt := hsmall x hx
    have hsized := hvalid.sized b hb
    have hle := hroom (by omega)
    rw [haddr, Nat.add_sub_cancel]
    omega
  · obtain ⟨b, hb, rfl⟩ := htracks.pointer hp
    unfold InBlock at hi
    rw [hvalid.blockOf hb] at hi
    exact hvalid.mapped hb hi.1 hi.2
  · obtain ⟨hzero, b, hb, rfl⟩ := hvalid.free a ha
    exact (htracks.freed _).2 ⟨b, hb, rfl, hzero⟩

/-- The magic number of a freed block is gone. -/
theorem Inv.doubleFree (h : Inv t) (hp : p ∈ t.freed) : DoubleFree t.heap p := by
  obtain ⟨bs, fs, hvalid, htracks⟩ := h
  obtain ⟨b, hb, rfl, hzero⟩ := (htracks.freed p).1 hp
  have hend := hvalid.end_lt hb
  have hroom := (hvalid.placed b hb).room
  unfold DoubleFree kfree
  rw [if_neg (by unfold hdrSz; omega), u64_sub_hdrSz (by omega)]
  dsimp only
  rw [hzero, if_neg magics_pos.2.1.symm, if_pos magics_pos.1.symm]

/-- A size below 2^32 does not wrap. -/
theorem Inv.mappable (h : Inv t) (hsize : size < 2 ^ 32) : Mappable t.heap size e := by
  obtain ⟨bs, fs, hvalid, -⟩ := h
  have hle := hvalid.cursors.next_le
  have hend := heapUsableEnd_lt
  intro _
  unfold largeBytes u64 hdrSz pageSize
  omega

theorem Inv.cleared (h : Inv t) (hpos : 0 < size) (hsize : size < 2 ^ 32) (hk : k < 64) :
    Cleared t size (2 ^ k) e := by
  have hmap := h.mappable (e := e) hsize
  obtain ⟨bs, fs, hvalid, htracks⟩ := h
  have hlive : ∀ x ∈ t.live, ∃ b ∈ bs, Heap.blockOf t.heap x.1 = b ∧
      hMagic t.heap.mem b.addr ≠ 0 := by
    intro x hx
    obtain ⟨b, hb, haddr, -, hmagic⟩ := htracks.live x hx
    refine ⟨b, hb, by rw [haddr, hvalid.blockOf hb], ?_⟩
    rcases hmagic with hm | hm
    · exact hm ▸ magics_pos.1
    · exact hm ▸ magics_pos.2.1
  rcases hvalid.kmallocAligned hpos hk fun _ => hmap with
    ⟨⟨msg, hrun⟩ | ⟨s', fs', hrun, -, hsame⟩, -⟩ | ⟨-, s', bs', d, hrun, hgiven⟩
  · refine ⟨fun heq => (by rw [hrun] at heq; cases heq), fun r s' heq => ?_⟩
    rw [hrun] at heq
    cases heq
  · refine ⟨fun heq => (by rw [hrun] at heq; cases heq), fun r s'' heq => ?_⟩
    obtain ⟨rfl, rfl⟩ := Prod.mk.inj (Except.ok.inj (hrun.symm.trans heq))
    refine ⟨fun x hx i hi => ?_, fun h0 => absurd rfl h0⟩
    obtain ⟨b, hb, hblock, -⟩ := hlive x hx
    unfold InBlock at hi
    rw [hblock] at hi
    exact hsame b hb i hi.1 hi.2
  · refine ⟨fun heq => (by rw [hrun] at heq; cases heq), fun r s'' heq => ?_⟩
    obtain ⟨rfl, rfl⟩ := Prod.mk.inj (Except.ok.inj (hrun.symm.trans heq))
    have hroom := hgiven.room (by omega)
    refine ⟨fun x hx i hi => ?_, fun _ i hi => hgiven.zero i hi (by omega)⟩
    obtain ⟨b, hb, hblock, hmagic⟩ := hlive x hx
    unfold InBlock at hi
    rw [hblock] at hi
    exact hgiven.frame b hb hmagic i hi.1 hi.2

/-! ### Runs -/

/-- Sizes are below 2^32. -/
def Moderate (t : Session) : Act → Prop
  | .alloc size align _ => 0 < size ∧ size < 2 ^ 32 ∧ ∃ k < 64, align = 2 ^ k
  | .free p => p = 0 ∨ ∃ n, (p, n) ∈ t.live
  | .write p i _ => (∃ n, (p, n) ∈ t.live) ∧ i < hSize t.heap.mem (p - hdrSz)

theorem Moderate.legal {a : Act} (h : Inv t) (ha : Moderate t a) : Legal t a := by
  cases a with
  | alloc size align e => exact ⟨ha.1, ha.2.2, fun _ => h.mappable ha.2.1⟩
  | free p => exact ha
  | write p i v => exact ha

/-- The sizes of live pointers are those that were asked for. -/
theorem Moderate.live_lt {a : Act} (ha : Moderate t a) (hsmall : ∀ x ∈ t.live, x.2 < 2 ^ 32) :
    ∀ x ∈ (step t a).live, x.2 < 2 ^ 32 := by
  cases a with
  | alloc size align e =>
      unfold step
      dsimp only
      split
      · exact hsmall
      split
      · exact hsmall
      split
      · exact hsmall
      · exact List.forall_mem_cons.2 ⟨ha.2.1, hsmall⟩
  | free p =>
      unfold step
      dsimp only
      split
      · exact hsmall
      split
      · exact hsmall
      split
      · exact hsmall
      · exact fun x hx => hsmall x (List.mem_of_mem_filter hx)
  | write p i v => exact hsmall

/-- **The blocks of the kernel heap stay apart** in every run of requests below 2^32, frees
of live pointers and writes to live blocks. -/
theorem run_sound {m : Bytes} {mapped : Nat → Bool} (hinit : heapInit m mapped e = .ok s)
    (acts : List Act) (hlegal : AllSteps step Moderate (start s) acts) :
    Sound (run step (start s) acts) ∧
      (∀ p ∈ (run step (start s) acts).freed, DoubleFree (run step (start s) acts).heap p) ∧
      ∀ size k e, 0 < size → size < 2 ^ 32 → k < 64 →
        Cleared (run step (start s) acts) size (2 ^ k) e := by
  have hrun := inv_run (fun t => Inv t ∧ ∀ x ∈ t.live, x.2 < 2 ^ 32)
    (fun t a h ha => ⟨h.1.step (ha.legal h.1), ha.live_lt h.2⟩)
    ⟨heapInit_inv hinit, by simp [start]⟩ hlegal
  exact ⟨hrun.1.sound hrun.2, fun p hp => hrun.1.doubleFree hp,
    fun size k e hpos hsize hk => hrun.1.cleared hpos hsize hk⟩

/-- Pages, when they are asked for. -/
def plenty : Supply := ⟨true, true, true, true, fun i => UInt8.ofNat i⟩

/-- The heap after `heap_init`. -/
def freshHeap : HeapState :=
  freshPage ⟨fun _ => 0, fun _ => false, 0, 0, heapUsableBase, 0⟩ plenty

theorem heapInit_freshHeap : heapInit (fun _ => 0) (fun _ => false) plenty = .ok freshHeap := rfl

theorem run_sound_fresh :
    Sound (run step (start freshHeap)
      [.alloc 100 1 plenty, .alloc 5000 4096 plenty, .write 0xffff910000001010 7 1,
        .free 0xffff910000001010, .alloc 40 16 plenty]) :=
  (run_sound heapInit_freshHeap
    [.alloc 100 1 plenty, .alloc 5000 4096 plenty, .write 0xffff910000001010 7 1,
      .free 0xffff910000001010, .alloc 40 16 plenty]
    ⟨⟨by decide, by decide, 0, by decide, rfl⟩, ⟨by decide, by decide, 12, by decide, rfl⟩,
      ⟨⟨100, by decide⟩, by decide⟩, Or.inr ⟨100, by decide⟩,
      ⟨by decide, by decide, 4, by decide, rfl⟩, trivial⟩).1

end FiFi.Heap

/-!
## Alignment of the kernel heap

`kmalloc_aligned` aligns the header, and the user area begins 16 bytes behind it. So a
pointer is aligned for an alignment up to 16, and never for a larger one.
-/

namespace FiFi.Heap

open ByteStore Pmm Spans LinkedList StateMachine

/-- What `kmalloc_aligned` returns is a multiple of the alignment, or null. -/
def Aligned (t : Session) : Act → Prop
  | .alloc size align e => t.stopped = true ∨
      ∀ r s', kmallocAligned t.heap size align e = .ok (r, s') → align ∣ r
  | .free _ => True
  | .write _ _ _ => True

/-- The alignment is at most 16, or there is no block to hand out. -/
def SmallAlign (t : Session) : Act → Prop
  | .alloc size align e => t.stopped = true ∨ align ≤ 16 ∨ NoBlock t.heap size align e
  | .free _ => True
  | .write _ _ _ => True

variable {t : Session} {s s' : HeapState} {bs bs' : List Span} {fs : List Nat} {d : Span}
  {k size : Nat} {e : Supply}

/-- A pointer with a large alignment is 16 too far. -/
theorem Given.not_dvd (h : Given s bs size (2 ^ k) s' bs' d) (hk : 16 < 2 ^ k) :
    ¬ 2 ^ k ∣ d.addr + hdrSz := by
  intro hdvd
  have hk5 : 5 ≤ k := by
    by_contra hlt
    have hpow : 2 ^ k ≤ 2 ^ 4 := Nat.pow_le_pow_right (by decide) (by omega)
    omega
  have hmod := h.coarse hk
  have h32 : 2 ^ 5 ∣ d.addr + hdrSz := (Nat.pow_dvd_pow 2 hk5).trans hdvd
  unfold hdrSz at h32
  omega

/-- A pointer with a small alignment is aligned as its header is. -/
theorem Given.dvd (h : Given s bs size (2 ^ k) s' bs' d) (hk : 2 ^ k ≤ 16) :
    2 ^ k ∣ d.addr + hdrSz := by
  obtain ⟨fs, hvalid⟩ := h.valid
  have hmod := (hvalid.placed d ((h.mem d).2 (Or.inl rfl))).mod
  have hk4 : k ≤ 4 := by
    by_contra hlt
    have hpow : 2 ^ 5 ≤ 2 ^ k := Nat.pow_le_pow_right (by decide) (by omega)
    omega
  have h16 : 2 ^ 4 ∣ d.addr + hdrSz := by
    unfold hdrSz
    omega
  exact (Nat.pow_dvd_pow 2 hk4).trans h16

theorem Inv.aligned_iff (h : Inv t) {a : Act} (hlegal : Legal t a) :
    Aligned t a ↔ SmallAlign t a := by
  obtain ⟨bs, fs, hvalid, -⟩ := h
  cases a with
  | free p => exact Iff.rfl
  | write p i v => exact Iff.rfl
  | alloc size align e =>
      obtain ⟨hpos, ⟨k, hk, rfl⟩, hmap⟩ := hlegal
      refine or_congr Iff.rfl ?_
      rcases hvalid.kmallocAligned hpos hk hmap with
        ⟨hun, hno⟩ | ⟨hblock, s', bs', d, hrun, hgiven⟩
      · refine iff_of_true (fun r s' heq => ?_) ?_
        · rcases hun with ⟨msg, hrun⟩ | ⟨s'', fs', hrun, -⟩
          · rw [hrun] at heq
            cases heq
          · rw [hrun] at heq
            cases heq
            exact Nat.dvd_zero _
        · exact (Nat.lt_or_ge 16 (2 ^ k)).symm.imp_right hno
      · rcases Nat.lt_or_ge 16 (2 ^ k) with hlarge | hsmall
        · refine iff_of_false (fun hall => hgiven.not_dvd hlarge (hall _ _ hrun)) ?_
          rintro (hle | hno)
          · omega
          · exact hblock hlarge hno
        · refine iff_of_true (fun r s'' heq => ?_) (Or.inl hsmall)
          obtain ⟨rfl, rfl⟩ := Prod.mk.inj (Except.ok.inj (hrun.symm.trans heq))
          exact hgiven.dvd hsmall

/-- **A run gets only aligned pointers exactly if no block is handed out for an alignment
above 16.** -/
theorem run_aligned_iff {m : Bytes} {mapped : Nat → Bool} (hinit : heapInit m mapped e = .ok s)
    (acts : List Act) (hlegal : AllSteps step Legal (start s) acts) :
    AllSteps step Aligned (start s) acts ↔ AllSteps step SmallAlign (start s) acts :=
  allSteps_congr_legal (fun _ _ h ha _ => h.step ha) (fun _ _ h ha => h.aligned_iff ha)
    (heapInit_inv hinit) hlegal

theorem run_aligned_iff_fresh :
    AllSteps step Aligned (start freshHeap)
        [.alloc 32 16 plenty, .alloc 5000 4 plenty, .free 0xffff910000001010] ↔
      AllSteps step SmallAlign (start freshHeap)
        [.alloc 32 16 plenty, .alloc 5000 4 plenty, .free 0xffff910000001010] :=
  run_aligned_iff heapInit_freshHeap _
    ⟨⟨by decide, ⟨4, by decide, rfl⟩, fun h => absurd h (by decide)⟩,
      ⟨by decide, ⟨2, by decide, rfl⟩, fun _ _ => by decide⟩,
      Or.inr ⟨32, by decide⟩, trivial⟩

/-- The pointer of the self test is 16 too far. -/
theorem kmallocAligned_not_aligned :
    Legal (start freshHeap) (.alloc 64 64 plenty) ∧
      ¬ Aligned (start freshHeap) (.alloc 64 64 plenty) := by
  refine ⟨⟨by decide, ⟨6, by decide, rfl⟩, fun h => absurd h (by decide)⟩, fun h => ?_⟩
  have hall := h.resolve_left (by decide)
  have hptr : (kmallocAligned freshHeap 64 64 plenty).toOption.map Prod.fst =
      some 0xffff910000001010 := by decide
  obtain ⟨x, hrun, hx⟩ := Option.map_eq_some_iff.1 hptr
  cases hcall : kmallocAligned freshHeap 64 64 plenty with
  | error stop =>
      rw [hcall] at hrun
      cases hrun
  | ok y =>
      rw [hcall] at hrun
      obtain rfl : y = x := Option.some.inj hrun
      have hdvd := hall y.1 y.2 hcall
      rw [hx] at hdvd
      exact absurd hdvd (by decide)

end FiFi.Heap
