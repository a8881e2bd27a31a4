import FiFi.Umalloc.Code

/-!
# The code of the allocator on lists of blocks

`Valid lo s bs` says that the blocks `bs` lie between `lo` and the break, that the
memory has them in this order, and that no two free ones follow one another. Each
piece of the code is described by what it does to the list: a block is found, split,
put at the end, or absorbs free blocks behind it. Only headers are written.
-/

namespace FiFi.Umalloc

open ByteStore BlockList Pmm Syscall

/-! ### Headers in memory -/

/-- What a header says. -/
def info (m : Bytes) (h : Nat) : Nat × Bool := (hSize m h, hFree m h)

variable {m m' : Bytes} {h h' a b k z : Nat} {bs pre post xs ys : List Blk}

theorem header_congr (hsame : ∀ i, h ≤ i → i < h + umHdrSz → m' i = m i) :
    info m' h = info m h ∧ hNext m' h = hNext m h := by
  unfold umHdrSz at hsame
  unfold info hSize hFree hNext
  rw [le64_congr fun i hi hi' => hsame i (by omega) (by omega),
    le32_congr fun i hi hi' => hsame i (by omega) (by omega),
    le64_congr fun i hi hi' => hsame i (by omega) (by omega)]
  exact ⟨rfl, rfl⟩

theorem setSize_ne (m : Bytes) (v : Nat) {i : Nat} (hi : i < h ∨ h + umHdrSz ≤ i) :
    setSize m h v i = m i :=
  put64_ne m v (by unfold umHdrSz at hi; omega)

theorem setFree_ne (m : Bytes) (v : Nat) {i : Nat} (hi : i < h ∨ h + umHdrSz ≤ i) :
    setFree m h v i = m i :=
  put32_ne m v (by unfold umHdrSz at hi; omega)

theorem setNext_ne (m : Bytes) (v : Nat) {i : Nat} (hi : i < h ∨ h + umHdrSz ≤ i) :
    setNext m h v i = m i :=
  put64_ne m v (by unfold umHdrSz at hi; omega)

theorem header_setSize (m : Bytes) (h : Nat) {v : Nat} (hv : v < 2 ^ 64) :
    info (setSize m h v) h = (v, hFree m h) ∧ hNext (setSize m h v) h = hNext m h := by
  unfold info hSize hFree hNext setSize
  rw [le64_put64_of_lt _ _ hv, le32_put64_ne _ _ (by omega), le64_put64_ne _ _ (by omega)]
  exact ⟨rfl, rfl⟩

theorem header_setFree (m : Bytes) (h : Nat) {v : Nat} (hv : v < 2 ^ 32) :
    info (setFree m h v) h = (hSize m h, decide (v ≠ 0)) ∧ hNext (setFree m h v) h = hNext m h := by
  unfold info hSize hFree hNext setFree
  rw [le64_put32_ne _ _ (by omega), le32_put32_of_lt _ _ hv, le64_put32_ne _ _ (by omega)]
  exact ⟨rfl, rfl⟩

theorem header_setNext (m : Bytes) (h : Nat) {v : Nat} (hv : v < 2 ^ 64) :
    info (setNext m h v) h = info m h ∧ hNext (setNext m h v) h = v := by
  unfold info hSize hFree hNext setNext
  rw [le64_put64_ne _ _ (by omega), le32_put64_ne _ _ (by omega), le64_put64_of_lt _ _ hv]
  exact ⟨rfl, rfl⟩

/-- A header that is written as a whole. -/
theorem header_put (m : Bytes) (h : Nat) {v f n : Nat} (hv : v < 2 ^ 64) (hf : f < 2 ^ 32)
    (hn : n < 2 ^ 64) :
    info (setNext (setFree (setSize m h v) h f) h n) h = (v, decide (f ≠ 0)) ∧
      hNext (setNext (setFree (setSize m h v) h f) h n) h = n ∧
      ∀ i, i < h ∨ h + umHdrSz ≤ i → setNext (setFree (setSize m h v) h f) h n i = m i := by
  obtain ⟨hi1, -⟩ := header_setSize m h hv
  obtain ⟨hi2, -⟩ := header_setFree (setSize m h v) h hf
  obtain ⟨hi3, hn3⟩ := header_setNext (setFree (setSize m h v) h f) h hn
  refine ⟨?_, hn3, fun i hi => ?_⟩
  · rw [hi3, hi2, (Prod.mk.inj hi1).1]
  · rw [setNext_ne _ _ hi, setFree_ne _ _ hi, setSize_ne _ _ hi]

/-! ### Walks -/

theorem findFit_spec (hseg : Threaded (info m) (hNext m) b bs 0) (hk : bs.length < k) :
    (findFit m a k b = some 0 ∧ ∀ d ∈ bs, d.free = true → d.size < a) ∨
      ∃ pre d post, bs = pre ++ d :: post ∧ d.free = true ∧ a ≤ d.size ∧
        findFit m a k b = some d.addr := by
  induction bs generalizing b k with
  | nil =>
      obtain ⟨k, rfl⟩ := Nat.exists_eq_add_of_lt hk
      obtain rfl : b = 0 := hseg
      exact Or.inl ⟨by simp [findFit], fun d hd => absurd hd List.not_mem_nil⟩
  | cons d ds ih =>
      obtain ⟨k, rfl⟩ : ∃ j, k = j + 1 := ⟨k - 1, by omega⟩
      obtain ⟨rfl, hne, hinfo, htail⟩ := hseg
      obtain ⟨hsize, hfree⟩ := Prod.mk.inj hinfo
      unfold findFit
      rw [if_neg hne, hsize, hfree]
      by_cases hfit : d.free = true ∧ a ≤ d.size
      · exact Or.inr ⟨[], d, ds, rfl, hfit.1, hfit.2, by simp [hfit.1, hfit.2]⟩
      · rw [if_neg (by simpa using hfit)]
        rcases ih htail (by simpa using hk) with ⟨hnone, hall⟩ | ⟨pre, e, post, rfl, he, hea, hsome⟩
        · refine Or.inl ⟨hnone, fun e he hef => ?_⟩
          rcases List.mem_cons.1 he with rfl | he
          · by_contra hge
            exact hfit ⟨hef, by omega⟩
          · exact hall e he hef
        · exact Or.inr ⟨d :: pre, e, post, rfl, he, hea, hsome⟩

theorem lastBlock_spec {d : Blk} (hseg : Threaded (info m) (hNext m) b (xs ++ [d]) 0)
    (hk : xs.length < k) : lastBlock m k b = some d.addr := by
  induction xs generalizing b k with
  | nil =>
      obtain ⟨k, rfl⟩ : ∃ j, k = j + 1 := ⟨k - 1, by simp at hk; omega⟩
      obtain ⟨rfl, -, -, hnext⟩ := hseg
      rw [threaded_nil] at hnext
      rw [lastBlock, if_pos hnext]
  | cons e xs ih =>
      obtain ⟨k, rfl⟩ : ∃ j, k = j + 1 := ⟨k - 1, by simp at hk; omega⟩
      obtain ⟨rfl, -, -, htail⟩ := hseg
      have hne : hNext m e.addr ≠ 0 := by
        cases xs with
        | nil => exact htail.2.1
        | cons f xs => exact htail.2.1
      rw [lastBlock, if_neg hne]
      exact ih htail (by simpa using hk)

/-- The walk for the block before `b`, when `b` is none of the later blocks. -/
theorem prevBlock_none (hseg : Threaded (info m) (hNext m) h bs 0) (hb : b ≠ 0)
    (htail : ∀ d ∈ bs.tail, d.addr ≠ b) (hk : bs.length < k) :
    prevBlock m b k h = some 0 := by
  induction bs generalizing h k with
  | nil =>
      obtain ⟨k, rfl⟩ : ∃ j, k = j + 1 := ⟨k - 1, by simp at hk; omega⟩
      obtain rfl : h = 0 := hseg
      rw [prevBlock, if_pos rfl]
  | cons d ds ih =>
      obtain ⟨k, rfl⟩ : ∃ j, k = j + 1 := ⟨k - 1, by simp at hk; omega⟩
      obtain ⟨rfl, hne, -, hrest⟩ := hseg
      have hnot : hNext m d.addr ≠ b := by
        cases ds with
        | nil =>
            rw [threaded_nil] at hrest
            rw [hrest]
            exact hb.symm
        | cons e ds =>
            rw [hrest.1]
            exact htail e List.mem_cons_self
      rw [prevBlock, if_neg hne, if_neg hnot]
      exact ih hrest (fun e he => htail e (List.mem_of_mem_tail he)) (by simpa using hk)

theorem prevBlock_some {p d : Blk} (hseg : Threaded (info m) (hNext m) h (xs ++ p :: d :: ys) 0)
    (htail : ∀ e ∈ (xs ++ [p]).tail, e.addr ≠ d.addr) (hk : xs.length < k) :
    prevBlock m d.addr k h = some p.addr := by
  induction xs generalizing h k with
  | nil =>
      obtain ⟨k, rfl⟩ : ∃ j, k = j + 1 := ⟨k - 1, by simp at hk; omega⟩
      obtain ⟨rfl, hne, -, hnext, -⟩ := hseg
      rw [prevBlock, if_neg hne, if_pos hnext]
  | cons e xs ih =>
      obtain ⟨k, rfl⟩ : ∃ j, k = j + 1 := ⟨k - 1, by simp at hk; omega⟩
      obtain ⟨rfl, hne, -, hrest⟩ := hseg
      have hnot : hNext m e.addr ≠ d.addr := by
        cases xs with
        | nil =>
            rw [hrest.1]
            exact htail p (by simp)
        | cons f xs =>
            rw [hrest.1]
            exact htail f (by simp)
      rw [prevBlock, if_neg hne, if_neg hnot]
      refine ih hrest (fun f hf => htail f ?_) (by simpa using hk)
      rw [List.cons_append, List.tail_cons]
      exact List.mem_of_mem_tail hf

/-! ### Merging -/

/-- `um_coalesce` on a free block: it absorbs the free blocks behind it, and only its
header is written. -/
theorem coalesceLoop_spec {b : Blk} {lo hi : Nat} {ds : List Blk}
    (hseg : Threaded (info m) (hNext m) b.addr (b :: ds) 0) (hlaid : Laid umHdrSz lo hi (b :: ds))
    (hhi : hi < 2 ^ 64) (hfree : b.free = true) (hk : ds.length < k) :
    ∃ m', coalesceLoop b.addr k m = some m' ∧
      Threaded (info m') (hNext m') b.addr (absorb umHdrSz b ds) 0 ∧
      ∀ i, i < b.addr ∨ b.addr + umHdrSz ≤ i → m' i = m i := by
  induction ds generalizing b m k with
  | nil =>
      obtain ⟨k, rfl⟩ : ∃ j, k = j + 1 := ⟨k - 1, by simp at hk; omega⟩
      have hnext : hNext m b.addr = 0 := hseg.2.2.2
      refine ⟨m, ?_, hseg, fun _ _ => rfl⟩
      rw [coalesceLoop, if_neg (by simp [hnext])]
  | cons d ds ih =>
      obtain ⟨k, rfl⟩ : ∃ j, k = j + 1 := ⟨k - 1, by simp at hk; omega⟩
      have hseg' := hseg
      obtain ⟨-, hne, hinfo, hnext, hdne, hdinfo, htail⟩ := hseg'
      rw [hnext] at hdne hdinfo htail
      obtain ⟨hsize, hbfree⟩ := Prod.mk.inj hinfo
      obtain ⟨hdsize, hdfree⟩ := Prod.mk.inj hdinfo
      obtain ⟨hlb, hbd, hrest⟩ := hlaid
      have hbound := hrest.le
      unfold coalesceLoop absorb
      rw [hnext, hsize, hbfree, hdsize, hdfree, hfree]
      cases hdf : d.free with
      | false => exact ⟨m, by simp, hseg, fun _ _ => rfl⟩
      | true =>
          rw [if_pos ⟨hdne, rfl, rfl⟩]
          have hsum : u64 (b.size + (umHdrSz + d.size)) = b.size + (umHdrSz + d.size) :=
            Nat.mod_eq_of_lt (by omega)
          have hout : ∀ v w i, i < b.addr ∨ b.addr + umHdrSz ≤ i →
              setNext (setSize m b.addr v) b.addr w i = m i :=
            fun v w i hi => (setNext_ne _ w hi).trans (setSize_ne m v hi)
          obtain ⟨hi1, hn1⟩ := header_setSize m b.addr (show b.size + (umHdrSz + d.size) < 2 ^ 64 by
            omega)
          have hd1 : hNext (setSize m b.addr (b.size + (umHdrSz + d.size))) d.addr =
              hNext m d.addr := by
            refine (header_congr fun i hi _ => setSize_ne m _ (Or.inr ?_)).2
            omega
          rw [hsum]
          dsimp only
          rw [hn1, hnext, hd1]
          obtain ⟨hi2, hn2⟩ := header_setNext (setSize m b.addr (b.size + (umHdrSz + d.size)))
            b.addr (le64_lt m (d.addr + 16))
          have hseg2 := hout (b.size + (umHdrSz + d.size)) (hNext m d.addr)
          change info (setNext _ _ (hNext m d.addr)) _ = _ at hi2
          change hNext (setNext _ _ (hNext m d.addr)) _ = hNext m d.addr at hn2
          generalize setNext (setSize m b.addr (b.size + (umHdrSz + d.size))) b.addr
            (hNext m d.addr) = m2 at hseg2 hi2 hn2 ⊢
          obtain ⟨m3, hrun, hseg3, hsame⟩ := @ih m2 k
            ⟨b.addr, b.size + (umHdrSz + d.size), b.free⟩ ⟨rfl, hne, by rw [hi2, hi1, hbfree], by
              rw [hn2]
              exact htail.congr fun e he => header_congr fun i hi _ => hseg2 i (Or.inr (by
                have := (hrest.bounds he).1
                omega))⟩
            ⟨hlb, hrest.mono (by dsimp only; omega) le_rfl⟩ hfree (by simpa using hk)
          refine ⟨m3, hrun, ?_, fun i hi => (hsame i hi).trans (hseg2 i hi)⟩
          rw [if_pos rfl]
          rw [hfree] at hseg3
          exact hseg3

/-! ### Splitting -/

/-- A block is cut to `a` bytes if there is room for another block behind them. -/
def cut (a : Nat) (b : Blk) : List Blk :=
  if a + umHdrSz + 16 ≤ b.size then
    [⟨b.addr, a, b.free⟩, ⟨b.addr + umHdrSz + a, b.size - a - umHdrSz, true⟩]
  else [b]

/-- The code that splits a block. Only the block is written. -/
theorem carve_spec {s : Heap} {b : Blk} (ha : a + umHdrSz + 16 < 2 ^ 64)
    (hinfo : info s.mem b.addr = (b.size, b.free))
    (hend : b.addr + umHdrSz + b.size ≤ s.brk) (hbrk : s.brk < 2 ^ 64) :
    ∃ m', carve s b.addr a = some { s with mem := m' } ∧
      (∀ l u, Threaded (info s.mem) (hNext s.mem) l [b] u →
        Threaded (info m') (hNext m') l (cut a b) u) ∧
      ∀ i, i < b.addr ∨ b.addr + umHdrSz + b.size ≤ i → m' i = s.mem i := by
  obtain ⟨hsize, hfree⟩ := Prod.mk.inj hinfo
  have hsum : u64 (a + umHdrSz + 16) = a + umHdrSz + 16 := Nat.mod_eq_of_lt ha
  unfold carve cut
  rw [hsum, hsize]
  by_cases hroom : a + umHdrSz + 16 ≤ b.size
  · have hsplit : u64 (b.addr + umHdrSz + a) = b.addr + umHdrSz + a := Nat.mod_eq_of_lt (by omega)
    have hrest : sub64 (sub64 b.size a) umHdrSz = b.size - a - umHdrSz := by
      unfold sub64 u64 umHdrSz at *
      omega
    rw [if_pos hroom, if_pos hroom, hsplit, hrest]
    dsimp only
    rw [if_neg (by omega)]
    -- the new header first, then the two fields of the old one
    generalize ht : b.addr + umHdrSz + a = t
    have hold : hNext (setFree (setSize s.mem t (b.size - a - umHdrSz)) t 1) b.addr =
        hNext s.mem b.addr :=
      (header_congr fun i hi hi' => by
        rw [setFree_ne _ _ (by omega), setSize_ne _ _ (by omega)]).2
    rw [hold]
    obtain ⟨hit, hnt, hsame⟩ := header_put s.mem t (show b.size - a - umHdrSz < 2 ^ 64 by omega)
      (show 1 < 2 ^ 32 by decide) (le64_lt s.mem (b.addr + 16))
    change hNext (setNext _ t (hNext s.mem b.addr)) t = hNext s.mem b.addr at hnt
    change ∀ i, _ → setNext _ t (hNext s.mem b.addr) i = _ at hsame
    change info (setNext _ t (hNext s.mem b.addr)) t = _ at hit
    generalize setNext (setFree (setSize s.mem t (b.size - a - umHdrSz)) t 1) t
      (hNext s.mem b.addr) = m3 at hit hnt hsame ⊢
    obtain ⟨hi4, hn4⟩ := header_setNext m3 b.addr (show t < 2 ^ 64 by omega)
    obtain ⟨hi5, hn5⟩ := header_setSize (setNext m3 b.addr t) b.addr (show a < 2 ^ 64 by omega)
    have hhead : info m3 b.addr = (b.size, b.free) :=
      (header_congr fun i hi hi' => hsame i (by omega)).1.trans hinfo
    have hout : ∀ i, i < b.addr ∨ b.addr + umHdrSz ≤ i →
        setSize (setNext m3 b.addr t) b.addr a i = m3 i :=
      fun i hi => (setSize_ne _ a hi).trans (setNext_ne m3 t hi)
    obtain ⟨hit', hnt'⟩ := @header_congr m3 (setSize (setNext m3 b.addr t) b.addr a) t
      fun i hi hi' => hout i (by omega)
    refine ⟨_, rfl, fun l u hl => ?_, fun i hi => ?_⟩
    · obtain ⟨rfl, hne, -, hnext⟩ := hl
      refine ⟨rfl, hne, ?_, ?_, ?_, ?_, ?_⟩
      · rw [hi5, ← (Prod.mk.inj (hhead)).2, ← (Prod.mk.inj hi4).2]
      · exact hn5.trans hn4
      · rw [hn5, hn4]
        omega
      · rw [hn5, hn4, hit', hit]
        rfl
      · rw [hn5, hn4, threaded_nil, hnt', hnt]
        exact hnext
    · rw [hout i (by omega), hsame i (by omega)]
  · rw [if_neg hroom, if_neg hroom]
    exact ⟨s.mem, rfl, fun _ _ h => h, fun _ _ => rfl⟩

/-! ### Valid heaps -/

/-- The blocks `bs` are stored between `lo` and the break. -/
structure Valid (lo : Nat) (s : Heap) (bs : List Blk) : Prop where
  stored : Threaded (info s.mem) (hNext s.mem) s.head bs 0
  laid : Laid umHdrSz lo s.brk bs
  spaced : Spaced bs
  brk_mod : s.brk % pageSize = 0
  brk_lt : s.brk < userTop

/-- The used blocks are still there, with their contents, except the one at `x`. -/
def Keeps (s : Heap) (bs : List Blk) (s' : Heap) (bs' : List Blk) (x : Nat) : Prop :=
  ∀ d ∈ bs, d.free = false → d.addr ≠ x → d ∈ bs' ∧
    ∀ i, d.addr + umHdrSz ≤ i → i < d.addr + umHdrSz + d.size → s'.mem i = s.mem i

variable {lo : Nat} {s s' : Heap} {b d : Blk}

theorem Valid.brk_lt_two_pow (h : Valid lo s bs) : s.brk < 2 ^ 64 := by
  have := h.brk_lt
  unfold userTop at this
  omega

/-- A list of blocks is shorter than any walk that does not end. -/
theorem Laid.length_lt {hi : Nat} (h : Laid umHdrSz lo hi bs) (hhi : hi < 2 ^ 64) :
    bs.length < manySteps := by
  have hlen := h.length_le
  unfold umHdrSz at hlen
  unfold manySteps
  omega

theorem Valid.length_lt (h : Valid lo s bs) : bs.length < manySteps :=
  Laid.length_lt h.laid h.brk_lt_two_pow

/-- Outside the headers memory may be written. -/
theorem Valid.write (h : Valid lo s bs)
    (hsame : ∀ e ∈ bs, ∀ i, e.addr ≤ i → i < e.addr + umHdrSz → m' i = s.mem i) :
    Valid lo { s with mem := m' } bs where
  stored := h.stored.congr fun e he => header_congr (hsame e he)
  laid := h.laid
  spaced := h.spaced
  brk_mod := h.brk_mod
  brk_lt := h.brk_lt

/-- Writing to a block leaves the headers alone. -/
theorem Valid.header_apart (h : Valid lo s bs) (hd : d ∈ bs) {e : Blk} (he : e ∈ bs) {i : Nat}
    (hi : e.addr ≤ i) (hi' : i < e.addr + umHdrSz) :
    i < d.addr + umHdrSz ∨ d.addr + umHdrSz + d.size ≤ i := by
  by_cases heq : d.addr = e.addr
  · exact Or.inl (by omega)
  · rcases h.laid.apart hd he heq with h' | h' <;> omega

theorem Laid.cut {l u : Nat} (h : Laid umHdrSz l u [b]) : Laid umHdrSz l u (cut a b) := by
  obtain ⟨hl, hu⟩ := h
  rw [laid_nil] at hu
  unfold Umalloc.cut
  split
  · exact ⟨hl, le_rfl, by simp only [laid_nil]; omega⟩
  · exact ⟨hl, hu⟩

/-- The first part of a block that is split. -/
theorem cut_head (a : Nat) (b : Blk) : ∃ d ds, cut a b = d :: ds ∧ d.addr = b.addr ∧
    d.free = b.free ∧ (a ≤ b.size → a ≤ d.size) := by
  unfold cut
  split
  · exact ⟨_, _, rfl, rfl, rfl, fun _ => le_rfl⟩
  · exact ⟨_, _, rfl, rfl, rfl, id⟩

/-- A used block is split before a used block. -/
theorem Spaced.cut (hpre : Spaced pre) (hpost : ∀ f : Blk, f.free = true → Spaced (f :: post))
    (hused : b.free = false) : Spaced (pre ++ cut a b ++ post) := by
  have hpost' : Spaced post := List.IsChain.tail (hpost ⟨0, 0, true⟩ rfl)
  unfold Umalloc.cut
  split
  · rw [List.append_assoc]
    exact hpre.insert (hpost _ rfl) hused
  · rw [List.append_assoc]
    exact hpre.insert hpost' hused

/-- Marking the first part as used. -/
theorem Threaded.use {l u : Nat} (hb : b.addr + umHdrSz < 2 ^ 64)
    (h : Threaded (info m) (hNext m) l (cut a b) u) :
    Threaded (info (setFree m b.addr 0)) (hNext (setFree m b.addr 0)) l
      (cut a { b with free := false }) u := by
  obtain ⟨hi, hn⟩ := header_setFree m b.addr (show 0 < 2 ^ 32 by decide)
  unfold cut at h ⊢
  split at h
  · rename_i hroom
    rw [if_pos hroom]
    obtain ⟨rfl, hne, hinfo, hnext, hne', hinfo', hlast⟩ := h
    have hsame := @header_congr m (setFree m b.addr 0) (b.addr + umHdrSz + a)
      fun i hi _ => setFree_ne m 0 (Or.inr (by omega))
    rw [hnext] at hne' hinfo' hlast
    refine ⟨rfl, hne, ?_, by rw [hn, hnext], by rwa [hn, hnext], ?_, ?_⟩
    · rw [hi, (Prod.mk.inj hinfo).1]
      rfl
    · rw [hn, hnext, hsame.1]
      exact hinfo'
    · rw [hn, hnext, threaded_nil, hsame.2]
      exact hlast
  · rename_i hroom
    rw [if_neg hroom]
    obtain ⟨rfl, hne, hinfo, hlast⟩ := h
    refine ⟨rfl, hne, ?_, by rwa [hn]⟩
    rw [hi, (Prod.mk.inj hinfo).1]
    rfl

/-- A new heap state with a block that was handed out: it is used, has `a` bytes, and no
used block had its place. -/
structure Placed (lo : Nat) (s : Heap) (bs : List Blk) (s' : Heap) (bs' : List Blk) (d : Blk)
    (a : Nat) : Prop where
  valid : Valid lo s' bs'
  keeps : Keeps s bs s' bs' 0
  brk_le : s.brk ≤ s'.brk
  mem : d ∈ bs'
  used : d.free = false
  size : a ≤ d.size
  new : ∀ e ∈ bs, e.free = false → e.addr ≠ d.addr

/-- A free block that is large enough is split and used. -/
theorem Valid.fit (h : Valid lo s (pre ++ b :: post)) (hfree : b.free = true) (ha : a ≤ b.size) :
    ∃ s' bs' d, (carve s b.addr a).map (fun s =>
        (u64 (b.addr + umHdrSz), { s with mem := setFree s.mem b.addr 0 })) =
          some (d.addr + umHdrSz, s') ∧
      Placed lo s (pre ++ b :: post) s' bs' d a ∧ s'.brk = s.brk := by
  have hb : b ∈ pre ++ b :: post := by simp
  have hbrk := h.brk_lt_two_pow
  have hbrk' := h.brk_lt
  obtain ⟨hlo, hend⟩ := h.laid.bounds hb
  obtain ⟨hpre, hpost⟩ := h.laid.before
  obtain ⟨hne, hinfo⟩ := h.stored.mem hb
  obtain ⟨m1, hcarve, hsplit, hsame⟩ := carve_spec (show a + umHdrSz + 16 < 2 ^ 64 by
    unfold userTop at hbrk'
    unfold umHdrSz at *
    omega) hinfo hend hbrk
  have hu64 : u64 (b.addr + umHdrSz) = b.addr + umHdrSz := Nat.mod_eq_of_lt (by omega)
  have hout : ∀ i, i < b.addr ∨ b.addr + umHdrSz + b.size ≤ i →
      setFree m1 b.addr 0 i = s.mem i :=
    fun i hi => (setFree_ne m1 0 (by omega)).trans (hsame i hi)
  have happart : ∀ e, e ∈ pre ∨ e ∈ post → ∀ i, e.addr ≤ i → i < e.addr + umHdrSz + e.size →
      setFree m1 b.addr 0 i = s.mem i := by
    intro e he i hi hi'
    refine hout i ?_
    rcases he with he | he
    · have := hpre e he
      omega
    · have := hpost e he
      omega
  obtain ⟨d, ds, hcut, haddr, hdfree, hsize⟩ := cut_head a { b with free := false }
  have hlist : pre ++ b :: post = pre ++ [b] ++ post := by simp
  have hspaced := h.spaced
  have hused : ∀ e ∈ pre ++ b :: post, e.free = false → e ∈ pre ∨ e ∈ post := by
    intro e he heu
    rcases List.mem_append.1 he with he | he
    · exact Or.inl he
    · rcases List.mem_cons.1 he with rfl | he
      · rw [hfree] at heu
        cases heu
      · exact Or.inr he
  refine ⟨{ s with mem := setFree m1 b.addr 0 }, pre ++ cut a { b with free := false } ++ post, d,
    ?_, ⟨⟨?_, ?_, ?_, h.brk_mod, h.brk_lt⟩, ?_, le_rfl, ?_, hdfree, hsize ha, ?_⟩, rfl⟩
  · rw [hcarve, Option.map_some, hu64, haddr]
  · have hstored := h.stored
    rw [hlist] at hstored
    refine hstored.splice (fun e he => header_congr fun i hi hi' => ?_) fun l u hl => ?_
    · exact happart e he i hi (by omega)
    · exact Threaded.use (by omega) (hsplit l u hl)
  · have hlaid := h.laid
    rw [hlist] at hlaid
    exact hlaid.splice fun l u hl => Laid.cut (show Laid umHdrSz l u [{ b with free := false }] from hl)
  · refine Spaced.cut hspaced.left (fun f hf => ?_) rfl
    exact hspaced.right.replace_head (by rw [hf, hfree])
  · intro e he heu _
    have he' := hused e he heu
    refine ⟨?_, fun i hi hi' => happart e he' i (by omega) (by omega)⟩
    rcases he' with he' | he'
    · exact List.mem_append_left _ (List.mem_append_left _ he')
    · exact List.mem_append_right _ he'
  · rw [hcut]
    simp
  · intro e he heu heq
    rw [haddr] at heq
    have hsame := h.laid.eq_of_addr (by decide) he hb heq
    rw [hsame, hfree] at heu
    cases heu

end FiFi.Umalloc
