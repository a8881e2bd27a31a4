import FiFi.Umalloc.Session

/-!
# Extreme sizes

For every size `malloc` should return `NULL` or a block with so many bytes. It does so
exactly as long as `CallOk` holds. A size near 2^64 is rounded to a small one, and a
request that makes the break wrap takes memory away; then the call faults, or returns a
pointer to a block that is too small.
-/

namespace FiFi.Umalloc

open ByteStore BlockList Pmm Syscall StateMachine

variable {lo n r : Nat} {s s' : Heap} {t : Session} {bs bs' : List Blk} {grant : Bool} {c : Call}

/-- `NULL` is returned and the live payloads are intact, or a block of the size that is
needed, in memory from the kernel and apart from the other payloads. -/
def Safe (lo : Nat) (t : Session) : Act → Prop
  | .call c grant => ∃ r s', c.run t.heap grant = some (r, s') ∧
      ((r = 0 ∧ t.heap.brk ≤ s'.brk ∧ ∀ x ∈ c.after 0 t.live, Intact t.heap s' x.1) ∨
        (r ≠ 0 ∧ lo ≤ r ∧ r + c.need ≤ s'.brk ∧
          ∀ x ∈ t.live, x.1 ≠ c.ptr ∨ c.drops r = false →
            r + c.need ≤ x.1 ∨ x.1 + payload s' x.1 ≤ r))
  | .write _ _ _ => True

/-- The condition on a step. -/
def SizeOk (t : Session) : Act → Prop
  | .call c grant => CallOk t.heap c grant
  | .write _ _ _ => True

/-! ### Calls that do what they should -/

theorem Served.safe (hvalid : Valid lo t.heap bs)
    (hlive : ∀ x ∈ t.live, ∃ e ∈ bs, e.free = false ∧ x.1 = e.addr + umHdrSz ∧ x.2 ≤ e.size)
    (hserved : Served lo t.heap bs c r s' bs') (hrun : c.run t.heap grant = some (r, s')) :
    Safe lo t (.call c grant) := by
  refine ⟨r, s', hrun, ?_⟩
  by_cases hr : r = 0
  · subst hr
    refine Or.inl ⟨rfl, hserved.brk_le, fun x hx => ?_⟩
    unfold Call.after at hx
    rw [if_pos rfl] at hx
    split at hx
    · obtain ⟨hx, hptr⟩ := List.mem_filter.1 hx
      exact hserved.intact hvalid hlive hx (Or.inl (by simpa using hptr))
    · rename_i hdrops
      exact hserved.intact hvalid hlive hx (Or.inr (by simpa using hdrops))
  · obtain ⟨d, hd, -, rfl, hneed, hnew⟩ := hserved.block hr
    obtain ⟨hlo, hend⟩ := hserved.valid.laid.bounds hd
    refine Or.inr ⟨hr, by omega, by omega, fun x hx hother => ?_⟩
    obtain ⟨e, he, heu, haddr, -⟩ := hlive x hx
    have hne := (hvalid.stored.mem he).1
    have hdiff : c.drops (d.addr + umHdrSz) = true → e.addr ≠ c.ptr - umHdrSz := by
      intro hdrops
      rw [hdrops] at hother
      have := hother.resolve_right (by simp)
      omega
    obtain ⟨he', -⟩ := hserved.keeps e he heu (by
      split
      · rename_i hdrops
        exact hdiff hdrops
      · exact hne)
    have hpay := hserved.valid.payload he'
    rw [haddr, hpay]
    rcases hserved.valid.laid.apart he' hd (hnew e he heu hdiff) with hap | hap <;> omega

/-! ### Calls that do not -/

/-- A request that does not meet its condition faults, or gets a pointer for a size that
no program can have. -/
theorem malloc_of_not_requestOk (h : Valid lo s bs) (hbad : ¬ RequestOk s n grant)
    (hrun : malloc s (u64 n) grant = some (r, s')) :
    2 ^ 64 - 32 < n ∧ r ≠ 0 ∧ s'.brk < userTop := by
  unfold RequestOk at hbad
  rcases malloc_cases h (u64 n) grant with ⟨hfits, s1, bs1, d, hrun1, hplaced, -⟩ | ⟨hfits, hrun1⟩
  · have hn : ¬ n ≤ 2 ^ 64 - 32 := by
      intro hn
      rw [if_pos hn, show u64 n = n from Nat.mod_eq_of_lt (by omega)] at *
      exact hbad (Or.inl hfits)
    rw [hrun1] at hrun
    cases hrun
    exact ⟨by omega, by unfold umHdrSz; omega, hplaced.valid.brk_lt⟩
  · rw [hrun1] at hrun
    by_cases hn : n ≤ 2 ^ 64 - 32
    · rw [if_pos hn] at hbad
      rw [show u64 n = n from Nat.mod_eq_of_lt (by omega)] at *
      rw [not_or, not_not] at hbad
      rw [growHeap_shrinks h hbad.2] at hrun
      cases hrun
    · rw [if_neg hn] at hbad
      by_cases hgrows : Grows s (growSize (askedSize (u64 n))) grant
      · obtain ⟨rfl, hbrk⟩ := growHeap_granted h hgrows hrun
        exact ⟨by omega, by unfold umHdrSz; omega, hbrk⟩
      · have hshrinks : Shrinks s (growSize (askedSize (u64 n))) := by
          by_contra hnot
          exact hbad ⟨hfits, hgrows, hnot⟩
        rw [growHeap_shrinks h hshrinks] at hrun
        cases hrun

theorem free_brk {p : Nat} (hrun : Umalloc.free s p = some s') : s'.brk = s.brk := by
  unfold Umalloc.free at hrun
  split at hrun
  · cases hrun
    rfl
  · obtain ⟨m, -, hrun⟩ := Option.bind_eq_some_iff.1 hrun
    obtain ⟨q, -, hrun⟩ := Option.bind_eq_some_iff.1 hrun
    split at hrun
    · obtain ⟨m', -, rfl⟩ := Option.map_eq_some_iff.1 hrun
      rfl
    · cases hrun
      rfl

/-- A call that does not meet its condition faults, or returns a pointer to fewer bytes
than it should. -/
theorem run_of_not_callOk (h : Valid lo s bs) (hsized : c.Sized)
    (hptr : c.ptr = 0 ∨ ∃ e ∈ bs, c.ptr = e.addr + umHdrSz) (hbad : ¬ CallOk s c grant)
    (hrun : c.run s grant = some (r, s')) : r ≠ 0 ∧ s'.brk < c.need := by
  have huser : userTop < 2 ^ 64 - 64 := by decide
  cases c with
  | malloc n =>
      have hn : n < 2 ^ 64 := hsized
      change malloc s n grant = _ at hrun
      rw [← show u64 n = n from Nat.mod_eq_of_lt hn] at hrun
      obtain ⟨hlt, hr, hbrk⟩ := malloc_of_not_requestOk h hbad hrun
      exact ⟨hr, show s'.brk < n by omega⟩
  | calloc k z =>
      obtain ⟨⟨p, s1⟩, hmalloc, htail⟩ := Option.bind_eq_some_iff.1 hrun
      obtain ⟨hlt, hr, hbrk⟩ := malloc_of_not_requestOk h hbad hmalloc
      dsimp only at htail
      rw [if_neg hr] at htail
      split at htail
      · cases htail
      · cases htail
        exact ⟨hr, show s1.brk < k * z by omega⟩
  | free p => exact absurd trivial hbad
  | realloc p n =>
      have hn : n < 2 ^ 64 := hsized
      change realloc s p n grant = _ at hrun
      dsimp only [CallOk] at hbad
      change r ≠ 0 ∧ s'.brk < n
      unfold realloc at hrun
      split at hrun
      · rename_i hp
        rw [if_pos hp] at hbad
        rw [← show u64 n = n from Nat.mod_eq_of_lt hn] at hrun
        obtain ⟨hlt, hr, hbrk⟩ := malloc_of_not_requestOk h hbad hrun
        exact ⟨hr, by omega⟩
      · rename_i hp
        obtain ⟨e, he, rfl⟩ := hptr.resolve_left hp
        obtain ⟨hsub, hsize⟩ := h.block he
        rw [if_neg hp, Nat.add_sub_cancel, hsize, not_or, not_and_or] at hbad
        obtain ⟨hn0, hbad⟩ := hbad
        rw [if_neg hn0] at hrun
        dsimp only at hrun
        rw [hsub, hsize] at hrun
        by_cases hle : n ≤ 2 ^ 64 - 16
        · obtain ⟨hfits, hreq⟩ := not_or.1 (hbad.resolve_left (not_not.2 hle))
          obtain ⟨hna, hmax, -⟩ := umAlign_of_le hle
          have hup : umAlign n < n + 16 := by
            unfold umAlign u64
            omega
          rw [if_neg hfits] at hrun
          obtain ⟨⟨q, s1⟩, hmalloc, htail⟩ := Option.bind_eq_some_iff.1 hrun
          rw [← show u64 (umAlign n) = umAlign n from Nat.mod_eq_of_lt (by omega)] at hmalloc
          obtain ⟨hlt, hr, hbrk⟩ := malloc_of_not_requestOk h hreq hmalloc
          dsimp only at htail
          rw [if_neg hr] at htail
          generalize (if hSize s1.mem e.addr < umAlign n then _ else _) = copy at htail
          split at htail
          · cases htail
          · obtain ⟨s2, hfree, hpair⟩ := Option.map_eq_some_iff.1 htail
            cases hpair
            exact ⟨hr, by rw [free_brk hfree]; dsimp only; omega⟩
        · -- the size wraps to zero, so that any block seems large enough
          have hzero : umAlign n = 0 := by
            unfold umAlign u64
            omega
          rw [hzero, if_pos (Nat.zero_le _)] at hrun
          cases hrun
          have := h.brk_lt
          exact ⟨hp, by omega⟩

/-! ### Runs -/

/-- A call is safe if and only if it meets its condition. -/
theorem Inv.safe_iff (hinv : Inv lo t) {a : Act} (hlegal : Legal t a) :
    Safe lo t a ↔ SizeOk t a := by
  cases a with
  | write p i v => exact Iff.rfl
  | call c grant =>
      obtain ⟨bs, hvalid, hlive⟩ := hinv.blocks
      by_cases hok : CallOk t.heap c grant
      · obtain ⟨r, s', bs', hrun, hserved⟩ := CallOk.served hvalid hlive hlegal hok
        exact iff_of_true (hserved.safe hvalid hlive hrun) hok
      · refine iff_of_false (fun h => ?_) hok
        obtain ⟨r, s', hrun, hcase⟩ := h
        have hptr : c.ptr = 0 ∨ ∃ e ∈ bs, c.ptr = e.addr + umHdrSz := by
          refine hlegal.2.imp_right fun ⟨n, hmem⟩ => ?_
          obtain ⟨e, he, -, haddr, -⟩ := hlive _ hmem
          exact ⟨e, he, haddr⟩
        obtain ⟨hr, hbrk⟩ := run_of_not_callOk hvalid hlegal.1 hptr hok hrun
        rcases hcase with ⟨rfl, -⟩ | ⟨-, -, hroom, -⟩
        · exact hr rfl
        · omega

theorem Inv.step_safe (hinv : Inv lo t) {a : Act} (hlegal : Legal t a) (hsafe : Safe lo t a) :
    Inv lo (step t a) := by
  cases a with
  | write p i v => exact hinv.write v hlegal
  | call c grant =>
      obtain ⟨bs, hvalid, hlive⟩ := hinv.blocks
      obtain ⟨r, s', bs', hrun, hserved⟩ := CallOk.served hvalid hlive hlegal
        ((hinv.safe_iff hlegal).1 hsafe)
      exact hinv.call hvalid hlive hserved hrun

/-- **A run is safe exactly as long as its calls meet their conditions.** -/
theorem session_safe_iff (hstart : Start lo t) (acts : List Act)
    (hlegal : AllSteps step Legal t acts) :
    AllSteps step (Safe lo) t acts ↔ AllSteps step SizeOk t acts :=
  allSteps_congr_legal (fun _ _ hinv ha => hinv.step_safe ha) (fun _ _ hinv ha => hinv.safe_iff ha)
    hstart.inv hlegal

theorem session_safe_iff_fresh :
    AllSteps step (Safe 0x400000) freshSession
        [.call (.malloc 100) true, .call (.realloc 0x400018 5000) false,
          .call (.calloc (2 ^ 32) (2 ^ 32)) false] ↔
      AllSteps step SizeOk freshSession
        [.call (.malloc 100) true, .call (.realloc 0x400018 5000) false,
          .call (.calloc (2 ^ 32) (2 ^ 32)) false] :=
  session_safe_iff freshSession_start _
    ⟨⟨show 100 < 2 ^ 64 by decide, Or.inl rfl⟩,
      ⟨show 5000 < 2 ^ 64 by decide, Or.inr ⟨100, by decide⟩⟩,
      ⟨show 2 ^ 32 < 2 ^ 64 ∧ 2 ^ 32 < 2 ^ 64 by decide, Or.inl rfl⟩, trivial⟩

/-- The largest size is rounded to zero, and a block of the smallest kind is returned. -/
theorem malloc_max_not_safe :
    Legal freshSession (.call (.malloc (2 ^ 64 - 1)) true) ∧
      ¬ Safe 0x400000 freshSession (.call (.malloc (2 ^ 64 - 1)) true) := by
  refine ⟨⟨show 2 ^ 64 - 1 < 2 ^ 64 by decide, Or.inl rfl⟩, ?_⟩
  have hptr : ((Call.malloc (2 ^ 64 - 1)).run freshSession.heap true).map
      (fun x => (x.1, x.2.brk)) = some (0x400018, 0x401000) := by decide
  rintro ⟨r, s', hrun, hcase⟩
  rw [hrun, Option.map_some] at hptr
  obtain ⟨rfl, hbrk⟩ := Prod.mk.inj (Option.some.inj hptr)
  rcases hcase with ⟨h0, -⟩ | ⟨-, -, hroom, -⟩
  · exact absurd h0 (by decide)
  · rw [hbrk] at hroom
    exact absurd hroom (by decide)

end FiFi.Umalloc

/-!
## Alignment

`umalloc.h` promises memory at multiples of 16. A header has 24 bytes, and the first
one lies at the break, which is at a multiple of the page size. So the first pointer
that the allocator returns is 8 too far, and a program gets only aligned pointers
exactly as long as it gets none.
-/

namespace FiFi.Umalloc

open ByteStore BlockList Pmm Syscall StateMachine

variable {lo a r : Nat} {s s' : Heap} {t : Session} {grant : Bool} {c : Call}

/-- What the call returns is a multiple of 16, if it returns. -/
def Aligned (t : Session) : Act → Prop
  | .call c grant => t.stopped = true ∨
      ∀ r s', c.run t.heap grant = some (r, s') → r % 16 = 0
  | .write _ _ _ => True

/-- The kernel refuses what the call asks for. For `calloc` the size may also be one that
it cannot clear. -/
def Refused (s : Heap) (c : Call) (grant : Bool) : Prop :=
  match c with
  | .malloc n => ¬ Grows s (growSize (askedSize n)) grant
  | .calloc k z => ¬ Grows s (growSize (askedSize (u64 (k * z)))) grant ∨
      2 ^ 64 - 32 < u64 (k * z)
  | .free _ => True
  | .realloc _ n => ¬ Grows s (growSize (askedSize n)) grant

/-- The condition on a step. -/
def NoPointer (t : Session) : Act → Prop
  | .call c grant => t.stopped = true ∨ Refused t.heap c grant
  | .write _ _ _ => True

/-- The program has not got any memory. -/
structure Unused (t : Session) : Prop where
  live : t.live = []
  head : t.heap.head = 0
  brk_mod : t.heap.brk % pageSize = 0
  brk_lt : t.heap.brk < userTop

theorem Start.unused (h : Start lo t) : Unused t :=
  ⟨h.live, h.head, by rw [h.brk]; exact h.brk_mod, by rw [h.brk]; exact h.brk_lt⟩

theorem Unused.valid (h : Unused t) : Valid t.heap.brk t.heap [] :=
  ⟨h.head, le_rfl, List.isChain_nil, h.brk_mod, h.brk_lt⟩

/-- Without blocks `malloc` asks the kernel. -/
theorem Unused.malloc (h : Unused t) (n : Nat) (grant : Bool) :
    Umalloc.malloc t.heap n grant = growHeap t.heap (askedSize n) grant := by
  rcases malloc_cases h.valid n grant with ⟨⟨bs, hbs, e, he, -⟩, -⟩ | ⟨-, hrun⟩
  · rw [hbs.unique h.valid.stored] at he
    exact absurd he List.not_mem_nil
  · exact hrun

theorem askedSize_le (n : Nat) : askedSize n ≤ 2 ^ 64 - 16 ∧ askedSize n % 16 = 0 := by
  unfold askedSize umAlign u64
  omega

/-- The largest rounded size wraps to the smallest chunk, and is split inside its own
header. -/
theorem Unused.growHeap_wrapped (h : Unused t) (hgrows : Grows t.heap umMinChunk grant) :
    ∃ r s', growHeap t.heap (2 ^ 64 - 16) grant = some (r, s') := by
  have hsize : growSize (2 ^ 64 - 16) = umMinChunk := by decide
  have hle := hgrows.le h.brk_mod (by decide)
  have hlt := h.brk_lt
  have hcall : sysSbrk t.heap umMinChunk grant =
      (some t.heap.brk, grown t.heap (wanted t.heap umMinChunk)) := by
    rcases @sysSbrk_cases umMinChunk t.heap grant h.brk_lt (by decide) (by decide) with
      ⟨-, hcall⟩ | ⟨-, hnot, -⟩ | ⟨hnot, -, -⟩
    · exact hcall
    · exact absurd hgrows hnot
    · exact absurd hgrows hnot
  unfold growHeap
  rw [hsize, hcall]
  dsimp only
  generalize wanted t.heap umMinChunk = new at *
  unfold userTop at hlt
  unfold umMinChunk at hle
  rw [if_neg (show ¬ (grown t.heap new).brk < t.heap.brk + umHdrSz by
    dsimp only [grown]
    unfold umHdrSz
    omega)]
  obtain ⟨hinfo, -, -⟩ := header_put (grown t.heap new).mem t.heap.brk
    (show sub64 umMinChunk umHdrSz < 2 ^ 64 by decide) (show 0 < 2 ^ 32 by decide)
    (show 0 < 2 ^ 64 by decide)
  generalize setNext _ t.heap.brk 0 = m at *
  unfold linkBlock
  rw [if_pos (show (grown t.heap new).head = 0 from h.head), Option.bind_some]
  have hsplit : u64 (t.heap.brk + umHdrSz + (2 ^ 64 - 16)) = t.heap.brk + 8 := by
    unfold u64 umHdrSz
    omega
  unfold carve
  rw [show hSize m t.heap.brk = sub64 umMinChunk umHdrSz from (Prod.mk.inj hinfo).1,
    if_pos (by decide), hsplit]
  dsimp only
  rw [if_neg (show ¬ (grown t.heap new).brk < t.heap.brk + 8 + umHdrSz by
    dsimp only [grown]
    unfold umHdrSz
    omega)]
  exact ⟨_, _, rfl⟩

/-- A request that is granted gives a pointer behind the first header, and room behind it
unless the size has wrapped. -/
theorem Unused.growHeap_grows (h : Unused t) (ha : a ≤ 2 ^ 64 - 16) (hmod : a % 16 = 0)
    (hgrows : Grows t.heap (growSize a) grant) :
    ∃ s', growHeap t.heap a grant = some (t.heap.brk + umHdrSz, s') ∧ s'.brk < userTop ∧
      (a + umHdrSz < 2 ^ 64 → t.heap.brk + umHdrSz + a ≤ s'.brk) := by
  by_cases hsmall : a + umHdrSz < 2 ^ 64
  · obtain ⟨s', bs', d, hrun, hplaced, haddr⟩ := h.valid.grow hsmall hgrows
    have hend := (hplaced.valid.laid.bounds hplaced.mem).2
    have hsize := hplaced.size
    rw [haddr] at hrun hend
    exact ⟨s', hrun, hplaced.valid.brk_lt, fun _ => by omega⟩
  · obtain rfl : a = 2 ^ 64 - 16 := by
      unfold umHdrSz at hsmall
      omega
    have hgrows' := hgrows
    rw [show growSize (2 ^ 64 - 16) = umMinChunk by decide] at hgrows'
    obtain ⟨r, s', hrun⟩ := h.growHeap_wrapped hgrows'
    obtain ⟨rfl, hbrk⟩ := growHeap_granted h.valid hgrows hrun
    exact ⟨s', hrun, hbrk, fun h => absurd h hsmall⟩

/-- A request that is not granted gives no pointer and no block. -/
theorem Unused.growHeap_not_grows (h : Unused t)
    (hgrows : ¬ Grows t.heap (growSize a) grant) :
    growHeap t.heap a grant = none ∨ growHeap t.heap a grant = some (0, t.heap) := by
  by_cases hshrinks : Shrinks t.heap (growSize a)
  · exact Or.inl (growHeap_shrinks h.valid hshrinks)
  · exact Or.inr (growHeap_refused h.valid hgrows hshrinks)

/-- The first pointer. -/
theorem Unused.first_mod (h : Unused t) : (t.heap.brk + umHdrSz) % 16 = 8 := by
  have := h.brk_mod
  unfold pageSize at this
  unfold umHdrSz
  omega

/-- A call that is refused leaves everything as it is; another one gives a pointer that is
8 too far. -/
theorem Unused.call (h : Unused t) (hlegal : Legal t (.call c grant)) :
    (Refused t.heap c grant ∧ (c.run t.heap grant = none ∨ c.run t.heap grant = some (0, t.heap))) ∨
      (¬ Refused t.heap c grant ∧
        ∃ s', c.run t.heap grant = some (t.heap.brk + umHdrSz, s')) := by
  have hptr : c.ptr = 0 := by
    refine hlegal.2.resolve_right fun ⟨n, hmem⟩ => ?_
    rw [h.live] at hmem
    exact absurd hmem List.not_mem_nil
  cases c with
  | malloc n =>
      dsimp only [Call.run, Refused]
      rw [h.malloc]
      by_cases hgrows : Grows t.heap (growSize (askedSize n)) grant
      · obtain ⟨s', hrun, -⟩ := h.growHeap_grows (askedSize_le n).1 (askedSize_le n).2 hgrows
        exact Or.inr ⟨not_not.2 hgrows, s', hrun⟩
      · exact Or.inl ⟨hgrows, h.growHeap_not_grows hgrows⟩
  | calloc k z =>
      dsimp only [Call.run, Refused, calloc]
      rw [h.malloc]
      by_cases hgrows : Grows t.heap (growSize (askedSize (u64 (k * z)))) grant
      · obtain ⟨s', hrun, hbrk, hroom⟩ := h.growHeap_grows (askedSize_le _).1 (askedSize_le _).2
          hgrows
        have hp : t.heap.brk + umHdrSz ≠ 0 := by
          unfold umHdrSz
          omega
        rw [hrun, Option.bind_some]
        dsimp only
        rw [if_neg hp]
        by_cases htotal : u64 (k * z) ≤ 2 ^ 64 - 32
        · obtain ⟨hle, hlt⟩ := askedSize_of_le htotal
          have hend := hroom hlt
          refine Or.inr ⟨?_, _, if_neg (by omega)⟩
          rw [not_or, not_not]
          exact ⟨hgrows, by omega⟩
        · have huser : userTop < 2 ^ 64 - 32 := by decide
          exact Or.inl ⟨Or.inr (by omega), Or.inl (if_pos (by omega))⟩
      · refine Or.inl ⟨Or.inl hgrows, ?_⟩
        rcases h.growHeap_not_grows hgrows with hnone | hnull
        · exact Or.inl (by rw [hnone]; rfl)
        · exact Or.inr (by rw [hnull]; rfl)
  | free p =>
      obtain rfl : p = 0 := hptr
      exact Or.inl ⟨trivial, Or.inr rfl⟩
  | realloc p n =>
      obtain rfl : p = 0 := hptr
      dsimp only [Call.run, Refused, realloc]
      rw [if_pos rfl, h.malloc]
      by_cases hgrows : Grows t.heap (growSize (askedSize n)) grant
      · obtain ⟨s', hrun, -⟩ := h.growHeap_grows (askedSize_le n).1 (askedSize_le n).2 hgrows
        exact Or.inr ⟨not_not.2 hgrows, s', hrun⟩
      · exact Or.inl ⟨hgrows, h.growHeap_not_grows hgrows⟩

/-! ### Runs -/

/-- A step keeps the program without memory if no pointer is returned. -/
theorem Unused.step (h : Unused t) {a : Act} (hlegal : Legal t a) (haligned : Aligned t a) :
    Unused (step t a) := by
  cases a with
  | write p i v =>
      obtain ⟨n, hmem, -⟩ := hlegal
      rw [h.live] at hmem
      exact absurd hmem List.not_mem_nil
  | call c grant =>
      cases hstop : t.stopped with
      | true => rwa [Umalloc.step, if_pos hstop]
      | false =>
          rcases h.call hlegal with ⟨-, hnone | hnull⟩ | ⟨-, s', hrun⟩
          · rw [step_call_none hstop hnone]
            exact ⟨h.live, h.head, h.brk_mod, h.brk_lt⟩
          · rw [step_call_some hstop hnull]
            refine ⟨?_, h.head, h.brk_mod, h.brk_lt⟩
            simp [Call.after, h.live]
          · have hmod := (haligned.resolve_left (by simp [hstop])) _ s' hrun
            rw [h.first_mod] at hmod
            exact absurd hmod (by decide)

/-- What is returned is aligned if and only if nothing is. -/
theorem Unused.aligned_iff (h : Unused t) {a : Act} (hlegal : Legal t a) :
    Aligned t a ↔ NoPointer t a := by
  cases a with
  | write p i v => exact Iff.rfl
  | call c grant =>
      refine or_congr Iff.rfl ?_
      rcases h.call hlegal with ⟨href, hcase⟩ | ⟨href, s', hrun⟩
      · refine iff_of_true (fun r s' hrun => ?_) href
        rcases hcase with hnone | hnull
        · rw [hnone] at hrun
          cases hrun
        · rw [hnull] at hrun
          cases hrun
          rfl
      · refine iff_of_false (fun hall => ?_) href
        have hmod := hall _ s' hrun
        rw [h.first_mod] at hmod
        exact absurd hmod (by decide)

/-- **A program gets only aligned pointers exactly as long as it gets none.** -/
theorem session_aligned_iff (hstart : Start lo t) (acts : List Act)
    (hlegal : AllSteps step Legal t acts) :
    AllSteps step Aligned t acts ↔ AllSteps step NoPointer t acts :=
  allSteps_congr_legal (fun _ _ h ha hal => h.step ha hal) (fun _ _ h ha => h.aligned_iff ha)
    hstart.unused hlegal

theorem session_aligned_iff_fresh :
    AllSteps step Aligned freshSession
        [.call (.malloc 100) false, .call (.calloc 3 5) true, .call (.free 0x400018) true] ↔
      AllSteps step NoPointer freshSession
        [.call (.malloc 100) false, .call (.calloc 3 5) true, .call (.free 0x400018) true] :=
  session_aligned_iff freshSession_start _
    ⟨⟨show 100 < 2 ^ 64 by decide, Or.inl rfl⟩,
      ⟨show 3 < 2 ^ 64 ∧ 5 < 2 ^ 64 by decide, Or.inl rfl⟩,
      ⟨trivial, Or.inr ⟨15, by decide⟩⟩, trivial⟩

/-- The first call of a program gets a pointer that is not a multiple of 16. -/
theorem malloc_not_aligned :
    Legal freshSession (.call (.malloc 1) true) ∧
      ¬ Aligned freshSession (.call (.malloc 1) true) := by
  refine ⟨⟨show 1 < 2 ^ 64 by decide, Or.inl rfl⟩, fun h => ?_⟩
  have hall := h.resolve_left (by decide)
  have hptr : ((Call.malloc 1).run freshSession.heap true).map Prod.fst = some 0x400018 := by
    decide
  obtain ⟨x, hrun, hx⟩ := Option.map_eq_some_iff.1 hptr
  have hmod := hall x.1 x.2 hrun
  rw [hx] at hmod
  exact absurd hmod (by decide)

end FiFi.Umalloc
