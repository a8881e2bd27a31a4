import FiFi.Umalloc.Break

/-!
# What the calls of the allocator do to the blocks

`malloc` hands out a block of the list or a new one behind it. `free` leaves the other
used blocks alone, and so do `calloc` and `realloc`, which also write to the payload of
the block they return.
-/

namespace FiFi.Umalloc

open ByteStore BlockList Pmm Syscall

variable {lo n a : Nat} {s s' : Heap} {bs bs' pre post : List Blk} {b d : Blk} {grant : Bool}
  {m m' : Bytes}

/-! ### free -/

/-- `um_coalesce` on a free block of a list. -/
theorem umCoalesce_spec {hi h : Nat} (hseg : Threaded (info m) (hNext m) h (pre ++ b :: post) 0)
    (hlaid : Laid umHdrSz lo hi (pre ++ b :: post)) (hhi : hi < 2 ^ 64) (hfree : b.free = true) :
    ∃ m', umCoalesce m b.addr = some m' ∧
      Threaded (info m') (hNext m') h (pre ++ absorb umHdrSz b post) 0 ∧
      ∀ i, i < b.addr ∨ b.addr + umHdrSz ≤ i → m' i = m i := by
  obtain ⟨l, hold, hblk⟩ := threaded_append.1 hseg
  obtain ⟨mid, hlaid1, hlaid2⟩ := laid_append.1 hlaid
  obtain rfl : l = b.addr := hblk.1
  obtain ⟨m', hrun, hseg', hsame⟩ := coalesceLoop_spec (k := manySteps) hblk hlaid2 hhi hfree (by
    have := Laid.length_lt hlaid hhi
    rw [List.length_append, List.length_cons] at this
    omega)
  refine ⟨m', hrun, threaded_append.2 ⟨b.addr, hold.congr fun e he => ?_, hseg'⟩, hsame⟩
  have := hlaid.before.1 e he
  exact header_congr fun i hi hi' => hsame i (Or.inl (by omega))

theorem Laid.absorb_append {hi : Nat} (h : Laid umHdrSz lo hi (pre ++ b :: post)) :
    Laid umHdrSz lo hi (pre ++ absorb umHdrSz b post) := by
  obtain ⟨mid, hpre, hpost⟩ := laid_append.1 h
  exact laid_append.2 ⟨mid, hpre, hpost.absorb⟩

/-- A used block is freed. Only headers are written. -/
theorem Valid.free (h : Valid lo s (pre ++ b :: post)) :
    ∃ s' bs', free s (b.addr + umHdrSz) = some s' ∧ Valid lo s' bs' ∧
      Keeps s (pre ++ b :: post) s' bs' b.addr ∧ s'.brk = s.brk := by
  have hb : b ∈ pre ++ b :: post := by simp
  have hbrk := h.brk_lt_two_pow
  obtain ⟨-, hend⟩ := h.laid.bounds hb
  obtain ⟨hpre, hpost⟩ := h.laid.before
  obtain ⟨hne, hinfo⟩ := h.stored.mem hb
  have hsub : sub64 (b.addr + umHdrSz) umHdrSz = b.addr := by
    unfold sub64 u64 umHdrSz at *
    omega
  obtain ⟨hi1, hn1⟩ := header_setFree s.mem b.addr (show 1 < 2 ^ 32 by decide)
  have hsame1 := fun i => @setFree_ne b.addr s.mem 1 i
  have hlist : pre ++ b :: post = pre ++ [b] ++ post := by simp
  have hstored := h.stored
  rw [hlist] at hstored
  have hseg1 : Threaded (info (setFree s.mem b.addr 1)) (hNext (setFree s.mem b.addr 1)) s.head
      (pre ++ [{ b with free := true }] ++ post) 0 := by
    refine hstored.splice (fun e he => header_congr fun i hi hi' => hsame1 i ?_) fun l u hl => ?_
    · rcases he with he | he
      · have := hpre e he
        omega
      · have := hpost e he
        omega
    · obtain ⟨rfl, -, -, hnext⟩ := hl
      exact ⟨rfl, hne, by rw [hi1, (Prod.mk.inj hinfo).1]; rfl, by rw [hn1]; exact hnext⟩
  have hlaid := h.laid
  rw [hlist] at hlaid
  have hlaid1 : Laid _ _ _ (_ ++ [{ b with free := true }] ++ _) :=
    hlaid.splice fun l u hl => hl
  rw [List.append_assoc, List.singleton_append] at hseg1 hlaid1
  obtain ⟨m2, hrun2, hseg2, hsame2⟩ := umCoalesce_spec hseg1 hlaid1 hbrk rfl
  have hlaid2 := Laid.absorb_append hlaid1
  have hspaced2 : Spaced (absorb umHdrSz { b with free := true } post) :=
    Spaced.absorb (List.IsChain.tail h.spaced.right)
  have hkeep2 : ∀ e ∈ pre ++ b :: post, e.addr ≠ b.addr → ∀ i, e.addr + umHdrSz ≤ i →
      i < e.addr + umHdrSz + e.size → m2 i = s.mem i := by
    intro e he hneb i hi hi'
    have hin : i < b.addr ∨ b.addr + umHdrSz ≤ i := by
      by_contra hin
      have := h.header_apart he hb (i := i) (by omega) (by omega)
      omega
    exact (hsame2 i hin).trans (hsame1 i hin)
  obtain ⟨b2, ds, habs, haddr, hfree2⟩ := absorb_head umHdrSz { b with free := true } post
  rw [habs] at hseg2 hlaid2 hspaced2
  have hds : ∀ e ∈ post, e.free = false → e ∈ ds := by
    intro e he heu
    have hmem := mem_absorb (c := umHdrSz) (b := { b with free := true }) he heu
    rw [habs] at hmem
    refine (List.mem_cons.1 hmem).resolve_left ?_
    rintro rfl
    rw [hfree2] at heu
    cases heu
  dsimp only at haddr hfree2 hrun2 hsame2
  unfold Umalloc.free
  rw [if_neg (by unfold umHdrSz; omega), hsub]
  dsimp only
  rw [hrun2, Option.bind_some]
  rcases List.eq_nil_or_concat pre with rfl | ⟨xs, p, rfl⟩
  · -- the first block
    have hlater := (@Laid.before _ _ _ _ [] _ hlaid2).2
    have hprev : prevBlock m2 b.addr manySteps s.head = some 0 :=
      prevBlock_none hseg2 hne (fun e he heq => by
        have := hlater e he
        unfold umHdrSz at this
        omega) (Laid.length_lt hlaid2 hbrk)
    rw [hprev, Option.bind_some, if_neg (by simp)]
    refine ⟨_, _, rfl, ⟨hseg2, hlaid2, hspaced2, h.brk_mod, h.brk_lt⟩, ?_, rfl⟩
    intro e he heu hneb
    refine ⟨List.mem_cons_of_mem _ (hds e ?_ heu), hkeep2 e he hneb⟩
    refine (List.mem_cons.1 he).resolve_left ?_
    rintro rfl
    exact hneb rfl
  · -- the block before it
    rw [List.concat_eq_append] at *
    rw [List.append_assoc, List.singleton_append] at hseg2 hlaid2
    have hp : p ∈ xs ++ [p] ++ b :: post := by simp
    have hpb := hpre p (by simp)
    have hprev : prevBlock m2 b.addr manySteps s.head = some p.addr := by
      rw [← haddr]
      refine prevBlock_some hseg2 (fun e he heq => ?_) ?_
      · have := hpre e (List.mem_of_mem_tail he)
        unfold umHdrSz at this
        omega
      · have := Laid.length_lt hlaid2 hbrk
        rw [List.length_append] at this
        omega
    obtain ⟨hpne, hpinfo⟩ := hseg2.mem (b := p) (by simp)
    rw [hprev, Option.bind_some, (Prod.mk.inj hpinfo).2]
    have hspaced := h.spaced.left
    have hmem : ∀ e ∈ xs ++ [p] ++ b :: post, e.free = false → e.addr ≠ b.addr →
        e ∈ xs ∨ e = p ∨ e ∈ ds := by
      intro e he heu hneb
      simp only [List.mem_append, List.mem_cons, List.not_mem_nil, or_false] at he
      rcases he with (he | he) | he | he
      · exact Or.inl he
      · exact Or.inr (Or.inl he)
      · exact absurd (congrArg Blk.addr he) hneb
      · exact Or.inr (Or.inr (hds e he heu))
    cases hpf : p.free with
    | false =>
        rw [if_neg (by simp)]
        refine ⟨_, _, rfl, ⟨hseg2, hlaid2, ?_, h.brk_mod, h.brk_lt⟩, ?_, rfl⟩
        · exact Spaced.insert hspaced.left hspaced2 hpf
        · intro e he heu hneb
          refine ⟨?_, hkeep2 e he hneb⟩
          rcases hmem e he heu hneb with he | rfl | he <;> simp [he]
    | true =>
        rw [if_pos ⟨hpne, rfl⟩]
        obtain ⟨m3, hrun3, hseg3, hsame3⟩ := umCoalesce_spec hseg2 hlaid2 hbrk hpf
        rw [hrun3]
        obtain ⟨p', ds', habs', -, hpfree'⟩ := absorb_head umHdrSz p (b2 :: ds)
        refine ⟨_, _, rfl, ⟨hseg3, Laid.absorb_append hlaid2, ?_, h.brk_mod, h.brk_lt⟩, ?_, rfl⟩
        · have htail := Spaced.absorb (c := umHdrSz) (b := p) hspaced2
          rw [habs'] at htail ⊢
          exact hspaced.replace_tail htail hpfree'
        · intro e he heu hneb
          refine ⟨?_, fun i hi hi' => ?_⟩
          · rcases hmem e he heu hneb with he | rfl | he
            · exact List.mem_append_left _ he
            · rw [hpf] at heu
              cases heu
            · exact List.mem_append_right _ (mem_absorb (List.mem_cons_of_mem _ he) heu)
          · refine (hsame3 i ?_).trans (hkeep2 e he hneb i hi hi')
            by_contra hin
            have := h.header_apart he hp (i := i) (by omega) (by omega)
            omega

/-! ### malloc -/

/-- Some block of the list is free and has at least `a` bytes. -/
def Fits (s : Heap) (a : Nat) : Prop :=
  ∃ bs, Threaded (info s.mem) (hNext s.mem) s.head bs 0 ∧ ∃ e ∈ bs, e.free = true ∧ a ≤ e.size

/-- The size `malloc(n)` looks for. -/
def askedSize (n : Nat) : Nat := umAlign (if n = 0 then 1 else n)

/-- `malloc` takes a block of the list, or else asks for memory. -/
theorem malloc_cases (h : Valid lo s bs) (n : Nat) (grant : Bool) :
    (Fits s (askedSize n) ∧ ∃ s' bs' d, malloc s n grant = some (d.addr + umHdrSz, s') ∧
        Placed lo s bs s' bs' d (askedSize n) ∧ s'.brk = s.brk) ∨
      (¬ Fits s (askedSize n) ∧ malloc s n grant = growHeap s (askedSize n) grant) := by
  unfold malloc
  change (_ ∧ ∃ s' bs' d, (findFit s.mem (askedSize n) manySteps s.head).bind _ = _ ∧ _) ∨
    (_ ∧ (findFit s.mem (askedSize n) manySteps s.head).bind _ = _)
  rcases findFit_spec (a := askedSize n) h.stored h.length_lt with
    ⟨hnone, hall⟩ | ⟨pre, d, post, rfl, hfree, hsize, hsome⟩
  · refine Or.inr ⟨?_, ?_⟩
    · rintro ⟨bs', hbs', e, he, hef, hes⟩
      rw [hbs'.unique h.stored] at he
      have := hall e he hef
      omega
    · rw [hnone, Option.bind_some, if_neg (by simp)]
      rfl
  · obtain ⟨hne, -⟩ := h.stored.mem (b := d) (by simp)
    obtain ⟨s', bs', e, hrun, hplaced, hbrk⟩ := h.fit hfree hsize
    refine Or.inl ⟨⟨_, h.stored, d, by simp, hfree, hsize⟩, s', bs', e, ?_, hplaced, hbrk⟩
    rw [hsome, Option.bind_some, if_pos hne]
    exact hrun

/-! ### Sizes -/

theorem umAlign_of_le (h : n ≤ 2 ^ 64 - 16) :
    n ≤ umAlign n ∧ umAlign n ≤ 2 ^ 64 - 16 ∧ umAlign n % 16 = 0 := by
  unfold umAlign u64
  omega

/-- A size that has been rounded stays as it is. -/
theorem umAlign_umAlign (h : n ≤ 2 ^ 64 - 16) : umAlign (umAlign n) = umAlign n := by
  obtain ⟨-, hle, hmod⟩ := umAlign_of_le h
  generalize umAlign n = a at *
  unfold umAlign u64
  omega

theorem askedSize_of_le (h : n ≤ 2 ^ 64 - 32) :
    n ≤ askedSize n ∧ askedSize n + umHdrSz < 2 ^ 64 := by
  unfold askedSize umAlign u64 umHdrSz
  split <;> omega

theorem askedSize_umAlign (h : n ≤ 2 ^ 64 - 16) (h0 : n ≠ 0) :
    askedSize (umAlign n) = umAlign n := by
  have := (umAlign_of_le h).1
  unfold askedSize
  rw [if_neg (by omega), umAlign_umAlign h]

/-! ### calloc -/

/-- The payload of the new block may be written. -/
theorem Placed.fill (h : Placed lo s bs s' bs' d a)
    (hsame : ∀ i, i < d.addr + umHdrSz ∨ d.addr + umHdrSz + d.size ≤ i → m' i = s'.mem i) :
    Placed lo s bs { s' with mem := m' } bs' d a where
  valid := h.valid.write fun _ he _ hi hi' => hsame _ (h.valid.header_apart h.mem he hi hi')
  keeps e he heu hne := by
    obtain ⟨hmem, hkeep⟩ := h.keeps e he heu hne
    refine ⟨hmem, fun i hi hi' => (hsame i ?_).trans (hkeep i hi hi')⟩
    rcases h.valid.laid.apart hmem h.mem (h.new e he heu) with h' | h' <;> omega
  brk_le := h.brk_le
  mem := h.mem
  used := h.used
  size := h.size
  new := h.new

/-- `calloc` clears the block that `malloc` found. -/
theorem calloc_placed {k z : Nat}
    (hrun : malloc s (u64 (k * z)) grant = some (d.addr + umHdrSz, s'))
    (hplaced : Placed lo s bs s' bs' d a) (hsize : u64 (k * z) ≤ a) :
    ∃ s'', calloc s k z grant = some (d.addr + umHdrSz, s'') ∧ Placed lo s bs s'' bs' d a ∧
      (∀ i < u64 (k * z), s''.mem (d.addr + umHdrSz + i) = 0) ∧ s''.brk = s'.brk := by
  have hend := (hplaced.valid.laid.bounds hplaced.mem).2
  have hda := hplaced.size
  unfold calloc
  dsimp only
  rw [hrun, Option.bind_some]
  dsimp only
  rw [if_neg (by unfold umHdrSz; omega), if_neg (by omega)]
  refine ⟨_, rfl, hplaced.fill fun i hi => if_neg (by omega), fun i hi => if_pos (by omega), rfl⟩

/-! ### realloc -/

/-- A copy between ranges that do not meet. -/
theorem copyLoop_apply {src dst : Nat} (h : src + n ≤ dst ∨ dst + n ≤ src) (i : Nat) :
    copyLoop m src dst n i = if dst ≤ i ∧ i < dst + n then m (src + (i - dst)) else m i := by
  induction n generalizing i with
  | zero => rw [if_neg (by omega)]; rfl
  | succ n ih =>
      have hstep : copyLoop m src dst (n + 1) =
          Function.update (copyLoop m src dst n) (dst + n) (copyLoop m src dst n (src + n)) := by
        unfold copyLoop
        rw [List.range_succ, List.foldl_append]
        rfl
      rw [hstep, ih (by omega) (src + n), if_neg (by omega)]
      by_cases hi : i = dst + n
      · rw [hi, Function.update_self, if_pos (by omega), Nat.add_sub_cancel_left]
      · rw [Function.update_of_ne hi, ih (by omega)]
        by_cases hin : dst ≤ i ∧ i < dst + n
        · rw [if_pos hin, if_pos (by omega)]
        · rw [if_neg hin, if_neg (by omega)]

/-- The block that `realloc` finds at a payload. -/
theorem Valid.block (h : Valid lo s bs) (hb : b ∈ bs) :
    sub64 (b.addr + umHdrSz) umHdrSz = b.addr ∧ hSize s.mem b.addr = b.size := by
  have hend := (h.laid.bounds hb).2
  have hbrk := h.brk_lt_two_pow
  refine ⟨?_, (Prod.mk.inj (h.stored.mem hb).2).1⟩
  unfold sub64 u64 umHdrSz at *
  omega

/-- `realloc` moves a block that is too small. -/
theorem realloc_placed (h : Valid lo s bs) (hb : b ∈ bs) (hused : b.free = false) (hn : n ≠ 0)
    (hsmall : b.size < umAlign n)
    (hrun : malloc s (umAlign n) grant = some (d.addr + umHdrSz, s'))
    (hplaced : Placed lo s bs s' bs' d (umAlign n)) :
    ∃ s'' bs'', realloc s (b.addr + umHdrSz) n grant = some (d.addr + umHdrSz, s'') ∧
      Valid lo s'' bs'' ∧ Keeps s bs s'' bs'' b.addr ∧ d ∈ bs'' ∧
      (∀ i < b.size, s''.mem (d.addr + umHdrSz + i) = s.mem (b.addr + umHdrSz + i)) ∧
      s''.brk = s'.brk := by
  obtain ⟨hsub, hsize⟩ := h.block hb
  have hbne := (h.stored.mem hb).1
  obtain ⟨hb', hbkeep⟩ := hplaced.keeps b hb hused hbne
  have hdb := hplaced.new b hb hused
  have hsize' := (hplaced.valid.block hb').2
  have hdsize := hplaced.size
  have hdend := (hplaced.valid.laid.bounds hplaced.mem).2
  have hap := hplaced.valid.laid.apart hb' hplaced.mem hdb
  have hcopy := fun i => @copyLoop_apply b.size s'.mem (b.addr + umHdrSz) (d.addr + umHdrSz)
    (by omega) i
  have hfill := @Placed.fill _ _ _ _ _ _ _
    (copyLoop s'.mem (b.addr + umHdrSz) (d.addr + umHdrSz) b.size) hplaced
    fun i hi => by rw [hcopy, if_neg (by omega)]
  obtain ⟨pre, post, rfl⟩ := List.append_of_mem hb'
  obtain ⟨s'', bs'', hfree, hvalid, hkeeps, hbrk⟩ := hfill.valid.free
  obtain ⟨hdmem, hdkeep⟩ := hkeeps d hplaced.mem hplaced.used hdb.symm
  refine ⟨s'', bs'', ?_, hvalid, ?_, hdmem, fun i hi => ?_, hbrk⟩
  · unfold realloc
    rw [if_neg (by unfold umHdrSz; omega), if_neg hn]
    dsimp only
    rw [hsub, hsize, if_neg (by omega), hrun, Option.bind_some]
    dsimp only
    rw [if_neg (by unfold umHdrSz; omega), hsize', if_pos hsmall, if_neg (by omega), hfree]
    rfl
  · intro e he heu hne
    obtain ⟨he1, hkeep1⟩ := hfill.keeps e he heu (h.stored.mem he).1
    obtain ⟨he2, hkeep2⟩ := hkeeps e he1 heu hne
    exact ⟨he2, fun i hi hi' => (hkeep2 i hi hi').trans (hkeep1 i hi hi')⟩
  · rw [hdkeep _ (by omega) (by omega)]
    dsimp only
    rw [hcopy, if_pos (by omega), Nat.add_sub_cancel_left]
    exact hbkeep _ (by omega) (by omega)

end FiFi.Umalloc
