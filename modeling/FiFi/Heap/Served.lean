import FiFi.Heap.Blocks

/-!
# Allocation

There are three ways to a block: the free list, the current page or a fresh one, and pages
of its own. In each the block does not meet the others, is cleared, and has a magic
number (`Given`). A request that is not served leaves the blocks as they are
(`Unserved`). Whether it is served can be said in terms of the room behind the cursors.
-/

namespace FiFi.Heap

open ByteStore Pmm Spans LinkedList
open Thread (heapUsableBase heapUsableEnd)

/-- `d` is handed out for `size` bytes. It is new or was on the free list. The number of
pages wraps to one for the 15 largest sizes. -/
structure Given (s : HeapState) (bs : List Span) (size align : Nat) (s' : HeapState)
    (bs' : List Span) (d : Span) : Prop where
  valid : ∃ fs, Valid s' bs' fs
  mem : ∀ b, b ∈ bs' ↔ b = d ∨ b ∈ bs
  unused : d ∈ bs → hMagic s.mem d.addr = 0
  room : size < 2 ^ 64 - 15 → size + hdrSz ≤ d.size
  magic : hMagic s'.mem d.addr = heapMagic ∨ hMagic s'.mem d.addr = heapMagicLarge
  zero : ∀ i < size, i + hdrSz < d.size → s'.mem (d.addr + hdrSz + i) = 0
  magics : ∀ b ∈ bs, b ≠ d → hMagic s'.mem b.addr = hMagic s.mem b.addr
  sizes : ∀ b ∈ bs, hSize s'.mem b.addr = hSize s.mem b.addr
  frame : ∀ b ∈ bs, hMagic s.mem b.addr ≠ 0 → ∀ i, b.addr ≤ i → i < b.addr + b.size →
    s'.mem i = s.mem i
  coarse : 16 < align → d.addr % 32 = 0

/-- No block is handed out, and the blocks stay. -/
def Unserved (s : HeapState) (bs : List Span) (res : Except Stop (Nat × HeapState)) : Prop :=
  (∃ msg, res = .error (.panic msg)) ∨
    ∃ s' fs, res = .ok (0, s') ∧ Valid s' bs fs ∧
      ∀ b ∈ bs, ∀ i, b.addr ≤ i → i < b.addr + b.size → s'.mem i = s.mem i

variable {s s' : HeapState} {bs bs' : List Span} {fs : List Nat} {b d : Span}
  {a k v n need size align : Nat} {e : Supply}

/-- A new block is written where no block was. -/
theorem Valid.given (h : Valid s bs fs) (hcur : Cursors s') (hold : ∀ b ∈ bs, Placed s' b)
    (hd : Placed s' d) (hapart : ∀ b ∈ bs, Apart d b) (hlist : s'.freeList = s.freeList)
    (hmem : ∀ i < s.nextPageVirt, i < d.addr ∨ d.addr + d.size ≤ i → s'.mem i = s.mem i)
    (hsize : hSize s'.mem d.addr + hdrSz = d.size) (hroom : size < 2 ^ 64 - 15 → size + hdrSz ≤ d.size)
    (hmagic : hMagic s'.mem d.addr = heapMagic ∨ hMagic s'.mem d.addr = heapMagicLarge)
    (hzero : ∀ i < size, i + hdrSz < d.size → s'.mem (d.addr + hdrSz + i) = 0)
    (hcoarse : 16 < align → d.addr % 32 = 0) : Given s bs size align s' (d :: bs) d := by
  have hsame : ∀ b ∈ bs, ∀ i, b.addr ≤ i → i < b.addr + b.size → s'.mem i = s.mem i :=
    fun b hb i hi hi' => by
      have hhi := (h.placed b hb).hi
      refine hmem i (by omega) ?_
      rcases hapart b hb with hap | hap <;> omega
  have hhead : ∀ b ∈ bs, ∀ i, b.addr ≤ i → i < b.addr + hdrSz → s'.mem i = s.mem i :=
    fun b hb i hi hi' => by
      have hroom := (h.placed b hb).room
      exact hsame b hb i hi (by omega)
  have hnot : d ∉ bs := fun hmem => by
    have hroom := (h.placed d hmem).room
    rcases hapart d hmem with hap | hap <;> omega
  exact
    { valid := ⟨fs, (h.frame hcur hold hlist hsame).cons hd hapart hsize⟩
      mem := fun b => List.mem_cons
      unused := fun hmem => absurd hmem hnot
      room := hroom
      magic := hmagic
      zero := hzero
      magics := fun b hb _ => hMagic_congr (hhead b hb)
      sizes := fun b hb => hSize_congr (hhead b hb)
      frame := fun b hb _ => hsame b hb
      coarse := hcoarse }

/-! ### The current page -/

/-- A block for `need` bytes with its header at a multiple of `align` fits behind the first
`off` bytes of the page at `base`. -/
def Fits (base off need align : Nat) : Prop :=
  ∃ h, align ∣ h ∧ base + off ≤ h ∧ h + hdrSz + need ≤ base + pageSize

/-- Rounding up gives the first multiple, unless it wraps to 0. -/
theorem alignUpUintptr_cases {x : Nat} (hx : x < 2 ^ 64) (hk : k < 64) :
    (2 ^ k ∣ alignUpUintptr x (2 ^ k) ∧ x ≤ alignUpUintptr x (2 ^ k) ∧
      alignUpUintptr x (2 ^ k) < 2 ^ 64 ∧
      ∀ m, 2 ^ k ∣ m → x ≤ m → alignUpUintptr x (2 ^ k) ≤ m) ∨
    (alignUpUintptr x (2 ^ k) = 0 ∧ ∀ m, 2 ^ k ∣ m → x ≤ m → 2 ^ 64 ≤ m) := by
  have hpos : 0 < 2 ^ k := Nat.two_pow_pos k
  unfold alignUpUintptr u64
  by_cases hwrap : x + (2 ^ k - 1) < 2 ^ 64
  · left
    rw [Nat.mod_eq_of_lt hwrap]
    have hle := Nat.div_mul_le_self (x + (2 ^ k - 1)) (2 ^ k)
    have hlt := Nat.lt_div_mul_add (a := x + (2 ^ k - 1)) hpos
    refine ⟨Nat.dvd_mul_left _ _, by omega, by omega, ?_⟩
    rintro m ⟨l, rfl⟩ hm
    rw [Nat.mul_comm (2 ^ k) l]
    refine Nat.mul_le_mul_right _ (Nat.lt_succ_iff.1 ((Nat.div_lt_iff_lt_mul hpos).2 ?_))
    rw [Nat.succ_mul, Nat.mul_comm l]
    omega
  · right
    obtain ⟨j, hj⟩ : 2 ^ k ∣ 2 ^ 64 := Nat.pow_dvd_pow 2 (by omega)
    have hle : 2 ^ k ≤ 2 ^ 64 := Nat.pow_le_pow_right (by decide) (by omega)
    constructor
    · rw [Nat.div_eq_of_lt (by omega), Nat.zero_mul]
    · rintro m ⟨l, rfl⟩ hm
      have hlt : 2 ^ k * j < 2 ^ k * (l + 1) := by
        rw [Nat.mul_add, Nat.mul_one, ← hj]
        omega
      have hjl := Nat.lt_of_mul_lt_mul_left hlt
      calc 2 ^ 64 = 2 ^ k * j := hj
        _ ≤ 2 ^ k * l := Nat.mul_le_mul_left _ (by omega)

/-- The new offset is in the page exactly if the block fits. -/
theorem Cursors.bumpOff_cases (h : Cursors s) (hk : k < 64) (hneed : need ≤ pageSize) :
    (bumpOff s need (2 ^ k) ≤ pageSize ∧ Fits s.curPageVirt s.curOff need (2 ^ k) ∧
      2 ^ k ∣ bumpHdr s (2 ^ k) ∧ s.curPageVirt + s.curOff ≤ bumpHdr s (2 ^ k) ∧
      s.curPageVirt + bumpOff s need (2 ^ k) = bumpHdr s (2 ^ k) + hdrSz + need) ∨
    (pageSize < bumpOff s need (2 ^ k) ∧ ¬ Fits s.curPageVirt s.curOff need (2 ^ k)) := by
  have hlo := h.cur_lo
  have hnext := h.cur_next
  have hoff := h.off_le
  have hle := h.next_le
  have hend := heapUsableEnd_lt
  have hbase : 3 * pageSize ≤ heapUsableBase := by decide
  have hpage : hdrSz ≤ pageSize := by decide
  have hsmall : 0 < pageSize ∧ pageSize < 2 ^ 46 := by decide
  have hcase := alignUpUintptr_cases (x := s.curPageVirt + s.curOff) (by omega) hk
  rw [show alignUpUintptr (s.curPageVirt + s.curOff) (2 ^ k) = bumpHdr s (2 ^ k) from rfl] at hcase
  rcases hcase with ⟨hdvd, hge, hlt, hmin⟩ | ⟨hzero, hmin⟩
  · have hval : bumpOff s need (2 ^ k) = bumpHdr s (2 ^ k) + (hdrSz + need) - s.curPageVirt := by
      unfold bumpOff u64
      omega
    by_cases hfits : bumpOff s need (2 ^ k) ≤ pageSize
    · exact Or.inl ⟨hfits, ⟨_, hdvd, hge, by omega⟩, hdvd, hge, by omega⟩
    · refine Or.inr ⟨by omega, ?_⟩
      rintro ⟨m, hm, hxm, hroom⟩
      have := hmin m hm hxm
      omega
  · refine Or.inr ⟨?_, ?_⟩
    · unfold bumpOff u64
      rw [hzero, Nat.mod_eq_of_lt (by omega)]
      omega
    · rintro ⟨m, hm, hxm, hroom⟩
      have := hmin m hm hxm
      omega

/-- A block is cut from the current page. -/
theorem Valid.bumpTake (h : Valid s bs fs) (hk : 4 ≤ k) (hk64 : k < 64) (hneed : 8 ≤ need)
    (hneed' : need ≤ pageSize) (hsize : size ≤ need)
    (hfits : bumpOff s need (2 ^ k) ≤ pageSize) :
    ∃ d, (bumpTake s need (2 ^ k)).1 = d.addr + hdrSz ∧
      Given s bs size (2 ^ k) (bumpTake s need (2 ^ k)).2 (d :: bs) d := by
  obtain ⟨-, -, hdvd, hge, hoff⟩ | ⟨hnot, -⟩ := h.cursors.bumpOff_cases hk64 hneed'
  swap
  · omega
  have hcur := h.cursors
  have hlo := hcur.cur_lo
  have hnext := hcur.cur_next
  have hpage : pageSize < 2 ^ 64 := by decide
  refine ⟨⟨bumpHdr s (2 ^ k), hdrSz + need⟩, rfl, ?_⟩
  unfold Heap.bumpTake
  dsimp only
  have hmod16 : bumpHdr s (2 ^ k) % 16 = 0 :=
    Nat.mod_eq_zero_of_dvd (dvd_trans (Nat.pow_dvd_pow 2 hk) hdvd)
  have hmod32 : 16 < 2 ^ k → bumpHdr s (2 ^ k) % 32 = 0 := fun h16 => by
    have hk5 : 5 ≤ k := by
      by_contra hlt
      have h4 : k = 4 := by omega
      rw [h4] at h16
      exact absurd h16 (by decide)
    exact Nat.mod_eq_zero_of_dvd (dvd_trans (Nat.pow_dvd_pow 2 hk5) hdvd)
  generalize bumpHdr s (2 ^ k) = p at *
  generalize bumpOff s need (2 ^ k) = off at *
  have hset : ∀ i, i < p ∨ p + hdrSz ≤ i →
      setMagic (setSize s.mem p need) p heapMagic i = s.mem i := fun i hi =>
    (setMagic_ne _ _ hi).trans (setSize_ne _ _ hi)
  have hzeroed : ∀ i, i < p + hdrSz ∨ p + hdrSz + need ≤ i →
      memzero (setMagic (setSize s.mem p need) p heapMagic) (p + hdrSz) need i =
        setMagic (setSize s.mem p need) p heapMagic i := fun i hi => memzero_out _ hi
  have hsame : ∀ i, i < p ∨ p + hdrSz + need ≤ i →
      memzero (setMagic (setSize s.mem p need) p heapMagic) (p + hdrSz) need i = s.mem i :=
    fun i hi => (hzeroed i (by omega)).trans (hset i (by omega))
  have hmagic : hMagic (memzero (setMagic (setSize s.mem p need) p heapMagic) (p + hdrSz) need)
      p = heapMagic :=
    (hMagic_congr fun i hi hi' => hzeroed i (Or.inl hi')).trans (hMagic_setMagic _ _ magics_lt.1)
  have hhdr : hSize (memzero (setMagic (setSize s.mem p need) p heapMagic) (p + hdrSz) need) p =
      need :=
    (hSize_congr fun i hi hi' => hzeroed i (Or.inl hi')).trans
      ((hSize_setMagic _ _ _).trans (hSize_setSize _ _ (by omega)))
  have hzero : ∀ i < size, i + hdrSz < hdrSz + need → memzero (setMagic (setSize s.mem p need) p
      heapMagic) (p + hdrSz) need (p + hdrSz + i) = 0 := fun i hi _ => memzero_in _ (by omega)
  generalize memzero (setMagic (setSize s.mem p need) p heapMagic) (p + hdrSz) need = m at *
  have hdlo : heapUsableBase ≤ p := by omega
  refine h.given ⟨hlo, hnext, by dsimp only; omega, hcur.next_mod, hcur.next_le, hcur.mapped⟩
    (fun b hb => ?_) ⟨hdlo, hmod16, by dsimp only; omega, by dsimp only; omega, Or.inl ?_⟩
    (fun b hb => ?_) rfl (fun i _ hi => hsame i (by dsimp only at hi; omega)) (by dsimp only; omega)
    (fun _ => by dsimp only; omega) (Or.inl hmagic) hzero hmod32
  · have hb := h.placed b hb
    have hpg := hb.page
    exact ⟨hb.lo, hb.mod, hb.room, hb.hi, by dsimp only; omega⟩
  · dsimp only
    omega
  · have hpg := (h.placed b hb).page
    unfold Apart
    dsimp only
    omega

/-! ### A fresh page -/

/-- The pages of the arena up to the next one are mapped. -/
structure Arena (s : HeapState) : Prop where
  lo : heapUsableBase ≤ s.nextPageVirt
  mod : s.nextPageVirt % pageSize = 0
  mapped : ∀ p, heapUsableBase / pageSize ≤ p → p < s.nextPageVirt / pageSize → s.mapped p = true

theorem Cursors.arena (h : Cursors s) : Arena s := by
  have hlo := h.cur_lo
  have hnext := h.cur_next
  exact ⟨by omega, h.next_mod, h.mapped⟩

/-- New pages go on from the mapped ones. -/
theorem Arena.mapped_mapFresh (h : Arena s) {p : Nat} (hp : heapUsableBase / pageSize ≤ p)
    (hlt : p < (s.nextPageVirt + n) / pageSize) :
    (mapFresh s s.nextPageVirt n e).mapped p = true := by
  dsimp only [mapFresh]
  by_cases hold : p < s.nextPageVirt / pageSize
  · rw [h.mapped p hp hold, Bool.or_true]
  · simp [hlt, Nat.le_of_not_lt hold]

/-- There is no fresh page. -/
def FreshFails (s : HeapState) (e : Supply) : Prop :=
  heapUsableEnd ≤ s.nextPageVirt ∨ e.page = false ∨ e.mapPage = false

/-- The state with a fresh page. -/
def freshPage (s : HeapState) (e : Supply) : HeapState :=
  { mapFresh s s.nextPageVirt pageSize e with
    curPageVirt := s.nextPageVirt
    curOff := 0
    nextPageVirt := s.nextPageVirt + pageSize }

theorem heapMapFreshPage_cases (s : HeapState) (e : Supply) :
    (FreshFails s e ∧ ∃ msg, heapMapFreshPage s e = .error (.panic msg)) ∨
      (¬ FreshFails s e ∧ heapMapFreshPage s e = .ok (freshPage s e)) := by
  unfold heapMapFreshPage FreshFails
  by_cases hend : heapUsableEnd ≤ s.nextPageVirt
  · rw [if_pos hend]
    exact Or.inl ⟨Or.inl hend, _, rfl⟩
  · rw [if_neg hend]
    cases hpage : e.page with
    | false => exact Or.inl ⟨Or.inr (Or.inl rfl), _, rfl⟩
    | true =>
        cases hmap : e.mapPage with
        | false => exact Or.inl ⟨Or.inr (Or.inr rfl), _, rfl⟩
        | true => exact Or.inr ⟨by simp [hend], rfl⟩

theorem Arena.freshPage (h : Arena s) (hend : s.nextPageVirt < heapUsableEnd) :
    Cursors (freshPage s e) := by
  have hlo := h.lo
  have hmod := h.mod
  have hendmod : heapUsableEnd % pageSize = 0 := by decide
  refine ⟨hlo, le_rfl, Nat.zero_le _, ?_, ?_, fun p hp hlt => h.mapped_mapFresh (e := e) hp hlt⟩
  · dsimp only [Heap.freshPage]
    rw [Nat.add_mod_right, hmod]
  · dsimp only [Heap.freshPage]
    unfold pageSize at *
    omega

/-- A fresh page lies behind all blocks. -/
theorem Valid.freshPage (h : Valid s bs fs) (hend : s.nextPageVirt < heapUsableEnd) :
    Valid (freshPage s e) bs fs ∧ ∀ i < s.nextPageVirt, (freshPage s e).mem i = s.mem i := by
  have hmem : ∀ i < s.nextPageVirt, (Heap.freshPage s e).mem i = s.mem i := fun i hi =>
    if_neg (by omega)
  refine ⟨h.frame (h.cursors.arena.freshPage hend) (fun b hb => ?_) rfl
    fun b hb i _ hi => hmem i ?_, hmem⟩
  · have hb := h.placed b hb
    have hhi := hb.hi
    refine ⟨hb.lo, hb.mod, hb.room, ?_, Or.inl hb.hi⟩
    dsimp only [Heap.freshPage]
    omega
  · have hhi := (h.placed b hb).hi
    omega

/-- What a block is handed out from may differ from `s` above the blocks. -/
theorem Given.before {t : HeapState} (h : Given t bs size align s' bs' d) (hvalid : Valid s bs fs)
    (hmem : ∀ i < s.nextPageVirt, t.mem i = s.mem i) : Given s bs size align s' bs' d := by
  have hsame : ∀ b ∈ bs, ∀ i, b.addr ≤ i → i < b.addr + b.size → t.mem i = s.mem i :=
    fun b hb i _ hi => by
      have hhi := (hvalid.placed b hb).hi
      exact hmem i (by omega)
  have hhead : ∀ b ∈ bs, ∀ i, b.addr ≤ i → i < b.addr + hdrSz → t.mem i = s.mem i :=
    fun b hb i hi hi' => by
      have hroom := (hvalid.placed b hb).room
      exact hsame b hb i hi (by omega)
  have hmagic : ∀ b ∈ bs, hMagic t.mem b.addr = hMagic s.mem b.addr := fun b hb =>
    hMagic_congr (hhead b hb)
  exact
    { h with
      unused := fun hd => (hmagic d hd).symm.trans (h.unused hd)
      magics := fun b hb hne => (h.magics b hb hne).trans (hmagic b hb)
      sizes := fun b hb => (h.sizes b hb).trans (hSize_congr (hhead b hb))
      frame := fun b hb hne i hi hi' =>
        (h.frame b hb (by rwa [hmagic b hb]) i hi hi').trans (hsame b hb i hi hi') }

/-- The block does not fit, and does not fit a fresh page if there is one. -/
def NoRoom (s : HeapState) (need align : Nat) (e : Supply) : Prop :=
  ¬ Fits s.curPageVirt s.curOff need align ∧
    (FreshFails s e ∨ ¬ Fits s.nextPageVirt 0 need align)

/-- What holds when `kmalloc_aligned` reaches the current page. -/
theorem Valid.bump (h : Valid s bs fs) (hk : 4 ≤ k) (hk64 : k < 64) (hneed : 8 ≤ need)
    (hneed' : need ≤ pageSize) (hsize : size ≤ need) :
    (NoRoom s need (2 ^ k) e ∧ Unserved s bs (bump s need (2 ^ k) e)) ∨
      (¬ NoRoom s need (2 ^ k) e ∧ ∃ s' bs' d, bump s need (2 ^ k) e = .ok (d.addr + hdrSz, s') ∧
        Given s bs size (2 ^ k) s' bs' d) := by
  have hlo := h.cursors.cur_lo
  have hbase := heapUsableBase_pos
  unfold Heap.bump
  rw [if_neg (by omega)]
  rcases h.cursors.bumpOff_cases hk64 hneed' with ⟨hfits, hroom, -⟩ | ⟨hover, hroom⟩
  · obtain ⟨d, hd, hgiven⟩ := h.bumpTake hk hk64 hneed hneed' hsize hfits
    rw [if_neg (by omega)]
    exact Or.inr ⟨fun hno => hno.1 hroom, _, _, d, by rw [← hd], hgiven⟩
  · rw [if_pos hover]
    rcases heapMapFreshPage_cases s e with ⟨hfail, msg, hrun⟩ | ⟨hfresh, hrun⟩
    · rw [hrun]
      exact Or.inl ⟨⟨hroom, Or.inl hfail⟩, Or.inl ⟨msg, rfl⟩⟩
    · rw [hrun]
      dsimp only
      obtain ⟨hvalid, hmem⟩ := h.freshPage (e := e)
        (Nat.lt_of_not_le fun hend => hfresh (Or.inl hend))
      rcases hvalid.cursors.bumpOff_cases hk64 hneed' with ⟨hfits, hroom', -⟩ | ⟨hover', hroom'⟩
      · obtain ⟨d, hd, hgiven⟩ := hvalid.bumpTake hk hk64 hneed hneed' hsize hfits
        rw [if_neg (by omega)]
        refine Or.inr ⟨fun hno => hno.2.elim hfresh fun hnot => hnot hroom', _, _, d, by rw [← hd],
          hgiven.before h hmem⟩
      · rw [if_pos hover']
        refine Or.inl ⟨⟨hroom, Or.inr hroom'⟩, Or.inr ⟨_, fs, rfl, hvalid, fun b hb i _ hi => ?_⟩⟩
        have hhi := (h.placed b hb).hi
        exact hmem i (by omega)

/-! ### Pages of its own -/

/-- There are no pages for a large block. -/
def NoPages (s : HeapState) (size : Nat) (e : Supply) : Prop :=
  heapUsableEnd < s.nextPageVirt + largeBytes size ∨ largeBytes size = 0 ∨ e.pages = false ∨
    e.mapRange = false

/-- A range that goes past the last address cannot be mapped: the kernel is there. -/
def Mappable (s : HeapState) (size : Nat) (e : Supply) : Prop :=
  e.mapRange = true → s.nextPageVirt + largeBytes size < 2 ^ 64

theorem largeBytes_mod (size : Nat) : largeBytes size % pageSize = 0 := Nat.mul_mod_left _ _

/-- There is room for the size unless it wraps. -/
theorem le_largeBytes (hpos : largeBytes size ≠ 0) :
    pageSize ≤ largeBytes size ∧ (size < 2 ^ 64 - 15 → size + hdrSz ≤ largeBytes size) := by
  unfold largeBytes u64 hdrSz pageSize at *
  omega

/-- The state with a large block. -/
def largeBlock (s : HeapState) (size : Nat) (e : Supply) : HeapState :=
  let v := s.nextPageVirt
  let t := mapFresh s v (largeBytes size) e
  let m := setMagic (setSize t.mem v (largeBytes size - hdrSz)) v heapMagicLarge
  { t with
    nextPageVirt := v + largeBytes size
    mem := memzero m (v + hdrSz) (if hSize m v < size then hSize m v else size) }

theorem Cursors.kmallocLarge_cases (h : Cursors s) (hmap : Mappable s size e) :
    (NoPages s size e ∧ (kmallocLarge s size e = .ok (0, s) ∨
      ∃ msg, kmallocLarge s size e = .error (.panic msg))) ∨
    (¬ NoPages s size e ∧
      kmallocLarge s size e = .ok (s.nextPageVirt + hdrSz, largeBlock s size e)) := by
  have hdown : alignDown s.nextPageVirt = s.nextPageVirt := by
    unfold alignDown
    exact Nat.div_mul_cancel (Nat.dvd_of_mod_eq_zero h.next_mod)
  have hbytes := largeBytes_mod size
  unfold kmallocLarge
  dsimp only
  rw [hdown]
  cases hrange : e.mapRange with
  | false =>
      refine Or.inl ⟨Or.inr (Or.inr (Or.inr hrange)), ?_⟩
      by_cases hover : heapUsableEnd < u64 (s.nextPageVirt + largeBytes size)
      · rw [if_pos hover]
        exact Or.inr ⟨_, rfl⟩
      rw [if_neg hover]
      by_cases hnone : largeBytes size / pageSize = 0 ∨ ¬ e.pages
      · rw [if_pos hnone]
        exact Or.inl rfl
      · rw [if_neg hnone, if_pos (by simp)]
        exact Or.inr ⟨_, rfl⟩
  | true =>
      have hu64 : u64 (s.nextPageVirt + largeBytes size) = s.nextPageVirt + largeBytes size :=
        Nat.mod_eq_of_lt (hmap hrange)
      rw [hu64]
      unfold NoPages
      by_cases hover : heapUsableEnd < s.nextPageVirt + largeBytes size
      · rw [if_pos hover]
        exact Or.inl ⟨Or.inl hover, Or.inr ⟨_, rfl⟩⟩
      rw [if_neg hover]
      by_cases hnone : largeBytes size = 0
      · rw [if_pos (Or.inl (by rw [hnone]; rfl))]
        exact Or.inl ⟨Or.inr (Or.inl hnone), Or.inl rfl⟩
      cases hpages : e.pages with
      | false =>
          rw [if_pos (Or.inr (by simp))]
          exact Or.inl ⟨Or.inr (Or.inr (Or.inl rfl)), Or.inl rfl⟩
      | true =>
          have hsome : ¬ (largeBytes size / pageSize = 0 ∨ ¬ true = true) := by
            unfold pageSize at *
            simp
            omega
          rw [if_neg hsome, if_neg (by simp)]
          exact Or.inr ⟨by simp [hover, hnone, hrange], rfl⟩

/-- A large block lies behind all blocks. -/
theorem Valid.largeBlock (h : Valid s bs fs) (hpages : ¬ NoPages s size e) :
    Given s bs size align (largeBlock s size e)
      (⟨s.nextPageVirt, largeBytes size⟩ :: bs) ⟨s.nextPageVirt, largeBytes size⟩ := by
  unfold NoPages at hpages
  push Not at hpages
  obtain ⟨hle, hpos, -⟩ := hpages
  obtain ⟨hpage, hroom⟩ := le_largeBytes hpos
  have hcur := h.cursors
  have hlo := hcur.cur_lo
  have hnext := hcur.cur_next
  have hmod := hcur.next_mod
  have hbytes := largeBytes_mod size
  have hend := heapUsableEnd_lt
  unfold Heap.largeBlock
  dsimp only
  generalize largeBytes size = n at *
  generalize hp : s.nextPageVirt = p at *
  generalize hm0 : setMagic (setSize (mapFresh s p n e).mem p (n - hdrSz)) p heapMagicLarge = m0
  have hset : ∀ i < p, m0 i = s.mem i := fun i hi => by
    rw [← hm0, setMagic_ne _ _ (Or.inl hi), setSize_ne _ _ (Or.inl hi)]
    exact if_neg (by omega)
  have hsize0 : hSize m0 p = n - hdrSz := by
    rw [← hm0, hSize_setMagic, hSize_setSize _ _ (by omega)]
  have hmagic0 : hMagic m0 p = heapMagicLarge := by
    rw [← hm0, hMagic_setMagic _ _ magics_lt.2]
  have hcut : (if hSize m0 p < size then hSize m0 p else size) = min (n - hdrSz) size := by
    rw [hsize0]
    split_ifs <;> omega
  rw [hcut]
  have hzeroed : ∀ i < p + hdrSz, memzero m0 (p + hdrSz) (min (n - hdrSz) size) i = m0 i :=
    fun i hi => memzero_out _ (Or.inl hi)
  have hzero : ∀ i < size, i + hdrSz < n →
      memzero m0 (p + hdrSz) (min (n - hdrSz) size) (p + hdrSz + i) = 0 := fun i hi hi' =>
    memzero_in _ (by omega)
  have hsmall : hdrSz + 8 ≤ pageSize := by decide
  have hmagic : hMagic (memzero m0 (p + hdrSz) (min (n - hdrSz) size)) p = heapMagicLarge :=
    (hMagic_congr fun i _ hi => hzeroed i hi).trans hmagic0
  have hhdr : hSize (memzero m0 (p + hdrSz) (min (n - hdrSz) size)) p = n - hdrSz :=
    (hSize_congr fun i _ hi => hzeroed i hi).trans hsize0
  have hsame : ∀ i < p, memzero m0 (p + hdrSz) (min (n - hdrSz) size) i = s.mem i := fun i hi =>
    (hzeroed i (by omega)).trans (hset i hi)
  generalize memzero m0 (p + hdrSz) (min (n - hdrSz) size) = m at *
  have hpgmod : ∀ q, q % pageSize = 0 → q % 32 = 0 := fun q hq => by
    unfold pageSize at hq
    omega
  have hp32 := hpgmod p hmod
  refine h.given ⟨hlo, ?_, hcur.off_le, ?_, hle, fun q hq hlt => ?_⟩ (fun b hb => ?_)
    ⟨?_, ?_, ?_, le_rfl, Or.inr hnext⟩ (fun b hb => ?_) rfl (fun i hi _ => hsame i (by omega))
    ?_ hroom (Or.inr hmagic) hzero fun _ => hp32
  · show s.curPageVirt + pageSize ≤ p + n
    omega
  · show (p + n) % pageSize = 0
    rw [Nat.add_mod, hmod, hbytes]
    rfl
  · subst hp
    exact hcur.arena.mapped_mapFresh (e := e) hq hlt
  · have hb := h.placed b hb
    have hhi := hb.hi
    refine ⟨hb.lo, hb.mod, hb.room, ?_, hb.page⟩
    show b.addr + b.size ≤ p + n
    omega
  · show heapUsableBase ≤ p
    omega
  · show p % 16 = 0
    omega
  · show hdrSz + 8 ≤ n
    omega
  · have hhi := (h.placed b hb).hi
    exact Or.inr (by dsimp only; omega)
  · show hSize m p + hdrSz = n
    omega

/-! ### The whole function -/

/-- The free list is walked for the first block that is large enough. -/
theorem Valid.freelistTake (h : Valid s bs fs) (hneed : size ≤ need) (halign : align ≤ 16) :
    freelistTake s need manySteps none = some (0, s) ∨
      ∃ s' bs' d, freelistTake s need manySteps none = some (d.addr + hdrSz, s') ∧
        Given s bs size align s' bs' d := by
  have hchain : Chain (hLink s.mem) 0 (load s none) fs := h.chain
  rcases freelistTake_walk need hchain h.length_lt with
    hnone | ⟨pre, a, post, rfl, hfits, hrun⟩
  · exact Or.inl hnone
  · obtain ⟨hzeroMagic, d, hd, rfl⟩ := h.free a (List.mem_append_right _ List.mem_cons_self)
    obtain ⟨hvalid, hmagic, hzero, hkeep⟩ := h.take hd
    have hsized := h.sized d hd
    have hroom := (h.placed d hd).room
    have hother : ∀ b ∈ bs, b ≠ d → ∀ i, b.addr ≤ i → i < b.addr + b.size →
        (∀ x ∈ pre, i < x + hdrSz ∨ x + hdrSz + 8 ≤ i) →
        (takeBlock s (linkTo none pre) d.addr).mem i = s.mem i := fun b hb hne i hi hi' hpre =>
      hkeep i (h.outside hd hb hne hi hi') hpre
    -- A link of the list lies behind the header of its block.
    have hlinks : ∀ b ∈ bs, ∀ i, b.addr ≤ i → i < b.addr + b.size →
        (b.addr ∈ pre → i < b.addr + hdrSz) → ∀ x ∈ pre, i < x + hdrSz ∨ x + hdrSz + 8 ≤ i := by
      intro b hb i hi hi' hhdr x hx
      obtain ⟨-, c, hc, rfl⟩ := h.free x (List.mem_append_left _ hx)
      have hroomc := (h.placed c hc).room
      by_cases hbc : b = c
      · subst hbc
        exact Or.inl (hhdr hx)
      · have := h.outside hc hb hbc hi hi'
        omega
    have hhead : ∀ b ∈ bs, b ≠ d → ∀ i, b.addr ≤ i → i < b.addr + hdrSz →
        (takeBlock s (linkTo none pre) d.addr).mem i = s.mem i := fun b hb hne i hi hi' => by
      have hroomb := (h.placed b hb).room
      exact hother b hb hne i hi (by omega) (hlinks b hb i hi (by omega) fun _ => hi')
    refine Or.inr ⟨_, bs, d, hrun, ?_⟩
    exact
      { valid := ⟨_, hvalid⟩
        mem := fun b => ⟨Or.inr, fun hb => hb.elim (fun heq => heq ▸ hd) id⟩
        unused := fun _ => hzeroMagic
        room := fun _ => by omega
        magic := Or.inl hmagic
        zero := fun i hi hi' => hzero i (by omega)
        magics := fun b hb hne => hMagic_congr (hhead b hb hne)
        sizes := fun b hb => by
          have hold := h.sized b hb
          have hnew := hvalid.sized b hb
          omega
        frame := fun b hb hne i hi hi' => by
          have hbd : b ≠ d := fun heq => hne (by rw [heq]; exact hzeroMagic)
          refine hother b hb hbd i hi hi' (hlinks b hb i hi hi' fun hpre => ?_)
          exact absurd (h.free _ (List.mem_append_left _ hpre)).1 hne
        coarse := fun h16 => absurd h16 (by omega) }

/-- No block can be handed out without the free list. -/
def NoBlock (s : HeapState) (size align : Nat) (e : Supply) : Prop :=
  if pageSize ≤ size then NoPages s size e
  else NoRoom s (roundSize (if size < 8 then 8 else size)) align e

theorem roundSize_spec (hsize : size < pageSize) :
    size ≤ roundSize (if size < 8 then 8 else size) ∧
      8 ≤ roundSize (if size < 8 then 8 else size) ∧
      roundSize (if size < 8 then 8 else size) ≤ pageSize := by
  unfold roundSize u64 pageSize at *
  split_ifs <;> omega

/-- The alignment is a power of two from 16 on. -/
theorem align_eq (k : Nat) : (if 2 ^ k < 16 then 16 else 2 ^ k) = 2 ^ max k 4 := by
  rcases Nat.lt_or_ge k 4 with hlt | hge
  · have hpow : 2 ^ k < 16 := Nat.pow_lt_pow_right (n := 4) (by decide) hlt
    rw [if_pos hpow, Nat.max_eq_right (by omega)]
    rfl
  · have hpow : 2 ^ 4 ≤ 2 ^ k := Nat.pow_le_pow_right (by decide) hge
    rw [if_neg (by omega), Nat.max_eq_left hge]

theorem max_of_lt (h : 16 < 2 ^ k) : max k 4 = k := by
  refine Nat.max_eq_left ?_
  by_contra hlt
  have hpow : 2 ^ k ≤ 2 ^ 4 := Nat.pow_le_pow_right (by decide) (by omega)
  omega

/-- **`kmalloc_aligned` hands out a block that does not meet the others, or leaves the
blocks as they are.** -/
theorem Valid.kmallocAligned (h : Valid s bs fs) (hsize : 0 < size) (hk : k < 64)
    (hmap : pageSize ≤ size → Mappable s size e) :
    (Unserved s bs (kmallocAligned s size (2 ^ k) e) ∧ (16 < 2 ^ k → NoBlock s size (2 ^ k) e)) ∨
      ((16 < 2 ^ k → ¬ NoBlock s size (2 ^ k) e) ∧
        ∃ s' bs' d, kmallocAligned s size (2 ^ k) e = .ok (d.addr + hdrSz, s') ∧
          Given s bs size (2 ^ k) s' bs' d) := by
  unfold Heap.kmallocAligned NoBlock
  rw [if_neg (by omega)]
  dsimp only
  rw [align_eq k, Nat.and_two_pow_sub_one_eq_mod, Nat.mod_self, if_neg (not_not.2 rfl)]
  by_cases hlarge : pageSize ≤ size
  · rw [if_pos hlarge, if_pos hlarge]
    rcases h.cursors.kmallocLarge_cases (hmap hlarge) with ⟨hno, hrun⟩ | ⟨hpages, hrun⟩
    · refine Or.inl ⟨?_, fun _ => hno⟩
      rcases hrun with hrun | ⟨msg, hrun⟩
      · exact Or.inr ⟨s, fs, hrun, h, fun _ _ _ _ _ => rfl⟩
      · exact Or.inl ⟨msg, hrun⟩
    · exact Or.inr ⟨fun _ => hpages, _, _, _, hrun, h.largeBlock hpages⟩
  rw [if_neg hlarge, if_neg hlarge]
  obtain ⟨hle, h8, hpage⟩ := roundSize_spec (Nat.lt_of_not_le hlarge)
  generalize roundSize (if size < 8 then 8 else size) = need at *
  have hbump := h.bump (e := e) (Nat.le_max_right k 4) (Nat.max_lt.2 ⟨hk, by decide⟩) h8 hpage hle
  by_cases h16 : 16 < 2 ^ k
  · rw [max_of_lt h16] at hbump ⊢
    rw [if_neg (by omega)]
    rcases hbump with ⟨hno, hun⟩ | ⟨hroom, hgiven⟩
    · exact Or.inl ⟨hun, fun _ => hno⟩
    · exact Or.inr ⟨fun _ => hroom, hgiven⟩
  · have h4 : max k 4 = 4 := by
      refine Nat.max_eq_right (Nat.le_of_not_lt fun hlt => h16 ?_)
      have hpow : 2 ^ 4 < 2 ^ k := Nat.pow_lt_pow_right (by decide) hlt
      exact hpow
    rw [h4] at hbump ⊢
    rw [if_pos (by decide)]
    have hpos : ∀ d : Span, d.addr + hdrSz ≠ 0 := fun d => by
      unfold hdrSz
      omega
    rcases h.freelistTake hle (Nat.le_of_not_lt h16) with hrun | ⟨s', bs', d, hrun, hgiven⟩
    · rw [hrun]
      dsimp only
      rw [if_neg (not_not.2 rfl)]
      rcases hbump with ⟨-, hun⟩ | ⟨-, s', bs', d, hrun, hgiven⟩
      · exact Or.inl ⟨hun, fun h => absurd h h16⟩
      · exact Or.inr ⟨fun h => absurd h h16, s', bs', d, hrun,
          { hgiven with coarse := fun h => absurd h h16 }⟩
    · rw [hrun]
      dsimp only
      rw [if_pos (hpos d)]
      exact Or.inr ⟨fun h => absurd h h16, s', bs', d, rfl, hgiven⟩

end FiFi.Heap
