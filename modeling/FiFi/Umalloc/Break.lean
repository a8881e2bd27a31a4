import FiFi.Umalloc.Blocks

/-!
# Memory from the kernel

`sys_sbrk` gets memory, gives memory back when the request has wrapped, or is refused.
The end of `malloc` puts a block into what it got; it faults when memory was taken
away, and returns `NULL` when the request was refused.
-/

namespace FiFi.Umalloc

open ByteStore BlockList Pmm Syscall

variable {lo a g : Nat} {s s' : Heap} {bs : List Blk} {grant : Bool}

/-! ### The break -/

/-- The break that a request for `g` bytes asks for. -/
def wanted (s : Heap) (g : Nat) : Nat := alignUp (u64 (s.brk + g))

/-- The request is granted. -/
def Grows (s : Heap) (g : Nat) (grant : Bool) : Prop :=
  s.brk ≠ 0 ∧ u64 (s.brk + g) ≠ 0 ∧ s.brk < wanted s g ∧ wanted s g < userTop ∧ grant = true

/-- The request has wrapped, and takes memory away. -/
def Shrinks (s : Heap) (g : Nat) : Prop :=
  s.brk ≠ 0 ∧ u64 (s.brk + g) ≠ 0 ∧ pageSize ≤ wanted s g ∧ wanted s g < s.brk

instance : Decidable (Grows s g grant) := inferInstanceAs (Decidable (_ ∧ _))

instance : Decidable (Shrinks s g) := inferInstanceAs (Decidable (_ ∧ _))

/-- The heap with a higher break. -/
def grown (s : Heap) (new : Nat) : Heap :=
  { s with brk := new, mem := fun i => if s.brk ≤ i ∧ i < new then 0 else s.mem i }

/-- What the kernel does with a break that is not zero. -/
theorem brkCall_cases (hz : u64 (s.brk + g) ≠ 0) (hbrk : s.brk < userTop) (h0 : s.brk ≠ 0) :
    (Grows s g grant ∧
        brkCall s (u64 (s.brk + g)) grant = (wanted s g, grown s (wanted s g))) ∨
      (Shrinks s g ∧
        brkCall s (u64 (s.brk + g)) grant = (wanted s g, { s with brk := wanted s g })) ∨
      (¬ Grows s g grant ∧ ¬ Shrinks s g ∧
        brkCall s (u64 (s.brk + g)) grant = (s.brk, s)) := by
  have hpage : wanted s g % pageSize = 0 := Nat.mul_mod_left _ _
  unfold brkCall Grows Shrinks
  rw [if_neg hz]
  change _ ∨ _ ∨ _ ∧ _ ∧ (if wanted s g ≥ userTop ∨ wanted s g < pageSize then _ else _) = _
  by_cases hrej : wanted s g ≥ userTop ∨ wanted s g < pageSize
  · refine Or.inr (Or.inr ⟨?_, fun h => ?_, if_pos hrej⟩)
    · rintro ⟨-, -, h1, h2, -⟩
      unfold userTop pageSize at *
      omega
    · have := h.2.2
      omega
  obtain ⟨htop, hlow⟩ : wanted s g < userTop ∧ pageSize ≤ wanted s g := by omega
  by_cases hup : s.brk < wanted s g
  · cases grant with
    | true =>
        refine Or.inl ⟨⟨h0, hz, hup, htop, rfl⟩, ?_⟩
        exact (if_neg hrej).trans (if_pos hup)
    | false =>
        refine Or.inr (Or.inr ⟨fun h => absurd h.2.2.2.2 Bool.false_ne_true, fun h => ?_, ?_⟩)
        · have := h.2.2.2
          omega
        · exact (if_neg hrej).trans (if_pos hup)
  by_cases hdown : wanted s g < s.brk
  · refine Or.inr (Or.inl ⟨⟨h0, hz, hlow, hdown⟩, ?_⟩)
    exact (if_neg hrej).trans ((if_neg hup).trans (if_pos hdown))
  · refine Or.inr (Or.inr ⟨fun h => hup h.2.2.1, fun h => hdown h.2.2.2, ?_⟩)
    exact (if_neg hrej).trans ((if_neg hup).trans (if_neg hdown))

theorem sysSbrk_cases (hbrk : s.brk < userTop) (hpos : 0 < g) (hg : g < 2 ^ 64) :
    (Grows s g grant ∧ sysSbrk s g grant = (some s.brk, grown s (wanted s g))) ∨
      (Shrinks s g ∧ ¬ Grows s g grant ∧
        sysSbrk s g grant = (some s.brk, { s with brk := wanted s g })) ∨
      (¬ Grows s g grant ∧ ¬ Shrinks s g ∧ sysSbrk s g grant = (none, s)) := by
  have hx : u64 (s.brk + g) ≠ s.brk := by
    unfold userTop at hbrk
    unfold u64
    omega
  unfold sysSbrk
  rw [show brkCall s 0 grant = (s.brk, s) from if_pos rfl]
  dsimp only
  by_cases h0 : s.brk = 0
  · exact Or.inr (Or.inr ⟨fun h => h.1 h0, fun h => h.1 h0, if_pos h0⟩)
  rw [if_neg h0]
  by_cases hz : u64 (s.brk + g) = 0
  · refine Or.inr (Or.inr ⟨fun h => h.2.1 hz, fun h => h.2.1 hz, ?_⟩)
    rw [show brkCall s (u64 (s.brk + g)) grant = (s.brk, s) from if_pos hz]
    exact if_pos ⟨hx.symm, rfl⟩
  rcases @brkCall_cases g s grant hz hbrk h0 with ⟨hup, hcall⟩ | ⟨hdown, hcall⟩ |
    ⟨hup, hdown, hcall⟩
  · refine Or.inl ⟨hup, ?_⟩
    rw [hcall]
    exact if_neg fun h => by have := hup.2.2.1; omega
  · refine Or.inr (Or.inl ⟨hdown, fun h => ?_, ?_⟩)
    · have := hdown.2.2.2
      have := h.2.2.1
      omega
    · rw [hcall]
      exact if_neg fun h => by have := hdown.2.2.2; omega
  · refine Or.inr (Or.inr ⟨hup, hdown, ?_⟩)
    rw [hcall]
    exact if_pos ⟨hx.symm, rfl⟩

/-- A request that is granted has not wrapped. -/
theorem Grows.le (h : Grows s g grant) (hmod : s.brk % pageSize = 0) (hg : g < 2 ^ 64) : s.brk + g ≤ wanted s g := by
  obtain ⟨-, -, hup, -, -⟩ := h
  unfold wanted alignUp alignDown u64 pageSize at *
  omega

theorem wanted_mod (s : Heap) (g : Nat) : wanted s g % pageSize = 0 := Nat.mul_mod_left _ _

theorem growSize_pos (a : Nat) : 0 < growSize a := by
  unfold growSize umMinChunk
  split <;> omega

theorem growSize_lt (a : Nat) : growSize a < 2 ^ 64 := by
  unfold growSize umMinChunk u64
  split <;> omega

/-- Small requests do not wrap. -/
theorem growSize_of_lt (h : a + umHdrSz < 2 ^ 64) :
    growSize a = max umMinChunk (a + umHdrSz) := by
  unfold growSize
  rw [show u64 (a + umHdrSz) = a + umHdrSz from Nat.mod_eq_of_lt h]
  split <;> omega

/-! ### A new block -/

/-- The block at `blk` becomes the last one. Only the header before it is written. -/
theorem linkBlock_spec {blk : Nat} (hseg : Threaded (info s.mem) (hNext s.mem) s.head bs 0)
    (hlen : bs.length < manySteps) (hblk : blk ≠ 0) (hlt : blk < 2 ^ 64)
    (hnext : hNext s.mem blk = 0) (hlaid : Laid umHdrSz lo blk bs) :
    ∃ m' head', linkBlock s blk = some ⟨m', head', s.brk⟩ ∧
      Threaded (info m') (hNext m') head'
        (bs ++ [⟨blk, (info s.mem blk).1, (info s.mem blk).2⟩]) 0 ∧
      ∀ i, (∀ d ∈ bs, i < d.addr ∨ d.addr + umHdrSz ≤ i) → m' i = s.mem i := by
  unfold linkBlock
  rcases List.eq_nil_or_concat bs with rfl | ⟨xs, t, rfl⟩
  · rw [if_pos (show s.head = 0 from hseg)]
    exact ⟨s.mem, blk, rfl, ⟨rfl, hblk, rfl, hnext⟩, fun _ _ => rfl⟩
  · rw [List.concat_eq_append] at *
    have hhead : s.head ≠ 0 := by
      cases xs with
      | nil => exact hseg.2.1
      | cons e xs => exact hseg.2.1
    have hlast := lastBlock_spec hseg (show xs.length < manySteps by
      rw [List.length_append] at hlen
      omega)
    obtain ⟨hi, hn⟩ := header_setNext s.mem t.addr hlt
    obtain ⟨hbefore, -⟩ := hlaid.before
    have ht := (hlaid.bounds (show t ∈ xs ++ [t] by simp)).2
    obtain ⟨hib, hnb⟩ := @header_congr s.mem (setNext s.mem t.addr blk) blk
      fun i hi _ => setNext_ne _ _ (Or.inr (by omega))
    obtain ⟨l, hxs, rfl, hne, hinfo, -⟩ := threaded_append.1 hseg
    rw [if_neg hhead, hlast]
    refine ⟨_, _, rfl, ?_, fun i hi => setNext_ne _ _ (hi t (by simp))⟩
    rw [List.append_assoc]
    refine threaded_append.2 ⟨t.addr, hxs.congr fun e he => header_congr fun i hi hi' => ?_,
      rfl, hne, hi.trans hinfo, ?_⟩
    · have := hbefore e he
      exact setNext_ne _ _ (Or.inl (by omega))
    · rw [hn]
      exact ⟨rfl, hblk, hib, hnb.trans hnext⟩

/-- A new block is put behind the old break and handed out. -/
theorem Valid.grow (h : Valid lo s bs) (ha : a + umHdrSz < 2 ^ 64)
    (hgrows : Grows s (growSize a) grant) :
    ∃ s' bs' d, growHeap s a grant = some (d.addr + umHdrSz, s') ∧ Placed lo s bs s' bs' d a ∧
      d.addr = s.brk := by
  have hle := hgrows.le h.brk_mod (growSize_lt a)
  have hcall : sysSbrk s (growSize a) grant = (some s.brk, grown s (wanted s (growSize a))) := by
    rcases @sysSbrk_cases _ s grant h.brk_lt (growSize_pos a) (growSize_lt a) with
      ⟨-, hcall⟩ | ⟨-, hnot, -⟩ | ⟨hnot, -, -⟩
    · exact hcall
    · exact absurd hgrows hnot
    · exact absurd hgrows hnot
  have hsize : a + umHdrSz ≤ growSize a := by
    rw [growSize_of_lt ha]
    exact le_max_right _ _
  have hg := growSize_lt a
  obtain ⟨hne, -, hup, htop, -⟩ := hgrows
  unfold growHeap
  rw [hcall]
  have hpage := wanted_mod s (growSize a)
  generalize hnew : wanted s (growSize a) = new at *
  generalize growSize a = g at *
  have hbelow := fun e he => (h.laid.bounds (b := e) he).2
  have hrest : sub64 g umHdrSz = g - umHdrSz := by
    unfold sub64 u64 umHdrSz at *
    omega
  have hbrk' : new < 2 ^ 64 := htop.trans (by decide)
  -- the header, then the link to it, then the split
  obtain ⟨hi3, hn3, hsame3⟩ := header_put (grown s new).mem s.brk
    (show g - umHdrSz < 2 ^ 64 by omega) (show 0 < 2 ^ 32 by decide) (show 0 < 2 ^ 64 by decide)
  dsimp only
  rw [hrest, if_neg (show ¬ (grown s new).brk < s.brk + umHdrSz by dsimp only [grown]; omega)]
  generalize setNext (setFree (setSize _ s.brk (g - umHdrSz)) s.brk 0) s.brk 0 = m3 at *
  have hkeep3 : ∀ i, i < s.brk → m3 i = s.mem i := fun i hi =>
    (hsame3 i (Or.inl hi)).trans (if_neg (by omega))
  have hstored : Threaded (info m3) (hNext m3) s.head bs 0 :=
    h.stored.congr fun e he => header_congr fun i hi hi' => hkeep3 i (by
      have := hbelow e he
      omega)
  obtain ⟨m4, head', hlink, hseg4, hsame4⟩ := linkBlock_spec (s := ⟨m3, s.head, new⟩) hstored
    h.length_lt hne h.brk_lt_two_pow hn3 h.laid
  dsimp only [grown] at hlink hseg4 hsame4 ⊢
  rw [hlink, Option.bind_some]
  rw [show info m3 s.brk = (g - umHdrSz, false) from hi3] at hseg4
  obtain ⟨-, hi4⟩ := hseg4.mem (b := ⟨s.brk, g - umHdrSz, false⟩) (by simp)
  obtain ⟨m5, hcarve, hsplit, hsame5⟩ := carve_spec (s := ⟨m4, head', new⟩) (a := a)
    (b := ⟨s.brk, g - umHdrSz, false⟩) (by unfold userTop at htop; unfold umHdrSz at *; omega)
    hi4 (by dsimp only; omega) hbrk'
  rw [hcarve, Option.map_some, show u64 (s.brk + umHdrSz) = s.brk + umHdrSz from
    Nat.mod_eq_of_lt (by omega)]
  obtain ⟨d, ds, hcut, haddr, hdfree, hdsize⟩ := cut_head a ⟨s.brk, g - umHdrSz, false⟩
  have hlow : ∀ i, i < s.brk → m5 i = m4 i := fun i hi => hsame5 i (Or.inl hi)
  refine ⟨⟨m5, head', new⟩, bs ++ cut a ⟨s.brk, g - umHdrSz, false⟩, d, by rw [haddr],
    ⟨⟨?_, ?_, ?_, hpage, htop⟩, ?_, hup.le, ?_, hdfree, hdsize (by dsimp only; omega), ?_⟩, haddr⟩
  · obtain ⟨l, hold, hnew⟩ := threaded_append.1 hseg4
    refine threaded_append.2 ⟨l, hold.congr fun e he => header_congr fun i hi hi' => ?_,
      hsplit l 0 hnew⟩
    have := hbelow e he
    exact hlow i (by omega)
  · exact laid_append.2 ⟨s.brk, h.laid, Laid.cut ⟨le_rfl, by simp only [laid_nil]; omega⟩⟩
  · rw [← List.append_nil (bs ++ cut _ _)]
    exact Spaced.cut h.spaced (fun f _ => List.isChain_singleton f) rfl
  · intro e he _ _
    refine ⟨List.mem_append_left _ he, fun i hi hi' => ?_⟩
    have hend := hbelow e he
    rw [show Heap.mem ⟨m5, head', new⟩ i = m4 i from hlow i (by omega), hsame4 i fun f hf => ?_]
    · exact hkeep3 i (by omega)
    · by_contra hin
      have := h.header_apart he hf (i := i) (by omega) (by omega)
      omega
  · rw [hcut]
    simp
  · intro e he _
    have := hbelow e he
    rw [haddr]
    unfold umHdrSz at this
    dsimp only
    omega

/-- A request that takes memory away takes the new block with it. -/
theorem growHeap_shrinks (h : Valid lo s bs) (hshrinks : Shrinks s (growSize a)) :
    growHeap s a grant = none := by
  rcases @sysSbrk_cases _ s grant h.brk_lt (growSize_pos a) (growSize_lt a) with
    ⟨hgrows, -⟩ | ⟨-, -, hcall⟩ | ⟨-, hnot, -⟩
  · have := hgrows.2.2.1
    have := hshrinks.2.2.2
    omega
  · unfold growHeap
    rw [hcall]
    have := hshrinks.2.2.2
    exact if_pos (by dsimp only; omega)
  · exact absurd hshrinks hnot

/-- A request that is refused changes nothing. -/
theorem growHeap_refused (h : Valid lo s bs) (hgrows : ¬ Grows s (growSize a) grant)
    (hshrinks : ¬ Shrinks s (growSize a)) : growHeap s a grant = some (0, s) := by
  rcases @sysSbrk_cases _ s grant h.brk_lt (growSize_pos a) (growSize_lt a) with
    ⟨h', -⟩ | ⟨h', -, -⟩ | ⟨-, -, hcall⟩
  · exact absurd h' hgrows
  · exact absurd h' hshrinks
  · unfold growHeap
    rw [hcall]

theorem carve_brk {h : Nat} (hrun : carve s h a = some s') : s'.brk = s.brk := by
  unfold carve at hrun
  split at hrun
  · dsimp only at hrun
    split at hrun
    · cases hrun
    · cases hrun
      rfl
  · cases hrun
    rfl

theorem linkBlock_brk {blk : Nat} (hrun : linkBlock s blk = some s') : s'.brk = s.brk := by
  unfold linkBlock at hrun
  split at hrun
  · cases hrun
    rfl
  · obtain ⟨t, -, rfl⟩ := Option.map_eq_some_iff.1 hrun
    rfl

/-- A request that is granted leaves no `NULL`, whatever its size. -/
theorem growHeap_granted {r : Nat} (h : Valid lo s bs) (hgrows : Grows s (growSize a) grant)
    (hrun : growHeap s a grant = some (r, s')) :
    r = s.brk + umHdrSz ∧ s'.brk < userTop := by
  rcases @sysSbrk_cases _ s grant h.brk_lt (growSize_pos a) (growSize_lt a) with
    ⟨-, hcall⟩ | ⟨-, hnot, -⟩ | ⟨hnot, -, -⟩
  · unfold growHeap at hrun
    rw [hcall] at hrun
    dsimp only at hrun
    split at hrun
    · cases hrun
    · obtain ⟨s1, hlink, hmap⟩ := Option.bind_eq_some_iff.1 hrun
      obtain ⟨s2, hcarve, hpair⟩ := Option.map_eq_some_iff.1 hmap
      cases hpair
      have hlt := h.brk_lt
      rw [carve_brk hcarve, linkBlock_brk hlink]
      unfold userTop at hlt
      exact ⟨Nat.mod_eq_of_lt (by unfold umHdrSz; omega), hgrows.2.2.2.1⟩
  · exact absurd hgrows hnot
  · exact absurd hgrows hnot

end FiFi.Umalloc
