import FiFi.Umalloc.Calls
import FiFi.Library.StateMachine

/-!
# Programs that use the allocator

A program calls the allocator with the pointers it has, and writes to its payloads. A
pointer is live from the call that returns it to the call that frees it, and has the
size that was asked for. For every call the kernel may refuse more memory.

Every live pointer is the payload of a used block of the list, and different pointers
have different blocks (`Inv`). A call that does what it should (`Served`) keeps this.
Whether it does can be seen before: what `malloc` is asked for fits a block of the
list, or the request to the kernel does not wrap (`CallOk`).
-/

namespace FiFi.Umalloc

open ByteStore BlockList Pmm Syscall StateMachine

/-! ### Calls -/

/-- A call of the program. -/
inductive Call
  | malloc (n : Nat)
  | calloc (nmemb sz : Nat)
  | free (ptr : Nat)
  | realloc (ptr n : Nat)

/-- What the call does. -/
def Call.run (c : Call) (s : Heap) (grant : Bool) : Option (Nat × Heap) :=
  match c with
  | .malloc n => Umalloc.malloc s n grant
  | .calloc k z => Umalloc.calloc s k z grant
  | .free p => (Umalloc.free s p).map fun s => (0, s)
  | .realloc p n => Umalloc.realloc s p n grant

/-- The number of bytes the program needs. -/
def Call.need : Call → Nat
  | .malloc n => n
  | .calloc k z => k * z
  | .free _ => 0
  | .realloc _ n => n

/-- The pointer the call is given. -/
def Call.ptr : Call → Nat
  | .malloc _ => 0
  | .calloc _ _ => 0
  | .free p => p
  | .realloc p _ => p

/-- Whether that pointer is gone when the call has returned `r`. -/
def Call.drops (c : Call) (r : Nat) : Bool :=
  match c with
  | .malloc _ => false
  | .calloc _ _ => false
  | .free _ => true
  | .realloc _ n => n = 0 || r ≠ 0

/-- The live pointers, with their sizes, when the call has returned `r`. -/
def Call.after (c : Call) (r : Nat) (live : List (Nat × Nat)) : List (Nat × Nat) :=
  let rest := if c.drops r then live.filter fun x => x.1 ≠ c.ptr else live
  if r = 0 then rest else (r, c.need) :: rest

/-- Sizes are 64-bit numbers. -/
def Call.Sized : Call → Prop
  | .malloc n => n < 2 ^ 64
  | .calloc k z => k < 2 ^ 64 ∧ z < 2 ^ 64
  | .free _ => True
  | .realloc _ n => n < 2 ^ 64

/-- What is in the block that is returned. -/
def Call.Filled (c : Call) (s s' : Heap) (r : Nat) : Prop :=
  match c with
  | .malloc _ => True
  | .calloc k z => ∀ i < k * z, s'.mem (r + i) = 0
  | .free _ => True
  | .realloc p n => p ≠ 0 → ∀ i < min (hSize s.mem (p - umHdrSz)) n, s'.mem (r + i) = s.mem (p + i)

/-! ### Runs -/

/-- The program's view: its heap, the live pointers with the sizes that were asked for,
and whether a call has faulted or does not return. -/
structure Session where
  heap : Heap
  live : List (Nat × Nat)
  stopped : Bool

/-- What the program does; `grant` says whether the kernel has memory. -/
inductive Act
  | call (c : Call) (grant : Bool)
  | write (p i : Nat) (v : UInt8)

def step (s : Session) : Act → Session
  | .call c grant =>
      if s.stopped then s
      else match c.run s.heap grant with
        | none => { s with stopped := true }
        | some (r, h) => ⟨h, c.after r s.live, false⟩
  | .write p i v =>
      { s with heap := { s.heap with mem := Function.update s.heap.mem (p + i) v } }

/-- The program passes live pointers or `NULL`, and writes to what it asked for. -/
def Legal (s : Session) : Act → Prop
  | .call c _ => c.Sized ∧ (c.ptr = 0 ∨ ∃ n, (c.ptr, n) ∈ s.live)
  | .write p i _ => ∃ n, (p, n) ∈ s.live ∧ i < n

/-- The program has not called the allocator yet, and its break is at `lo`. -/
structure Start (lo : Nat) (s : Session) : Prop where
  running : s.stopped = false
  live : s.live = []
  head : s.heap.head = 0
  brk : s.heap.brk = lo
  brk_mod : lo % pageSize = 0
  brk_lt : lo < userTop

/-! ### The invariant -/

/-- The live pointers are payloads of different used blocks. -/
structure Inv (lo : Nat) (s : Session) : Prop where
  running : s.stopped = false
  distinct : (s.live.map Prod.fst).Nodup
  blocks : ∃ bs, Valid lo s.heap bs ∧
    ∀ x ∈ s.live, ∃ e ∈ bs, e.free = false ∧ x.1 = e.addr + umHdrSz ∧ x.2 ≤ e.size

variable {lo n r : Nat} {s s' : Heap} {t : Session} {bs bs' : List Blk} {grant : Bool} {c : Call}

theorem Start.inv (h : Start lo t) : Inv lo t where
  running := h.running
  distinct := by
    rw [h.live]
    exact List.nodup_nil
  blocks := by
    refine ⟨[], ⟨h.head, h.brk.ge, List.isChain_nil, ?_, ?_⟩, fun x hx => ?_⟩
    · rw [h.brk]
      exact h.brk_mod
    · rw [h.brk]
      exact h.brk_lt
    · rw [h.live] at hx
      exact absurd hx List.not_mem_nil

/-- A call has done what it should. -/
structure Served (lo : Nat) (s : Heap) (bs : List Blk) (c : Call) (r : Nat) (s' : Heap)
    (bs' : List Blk) : Prop where
  valid : Valid lo s' bs'
  keeps : Keeps s bs s' bs' (if c.drops r then c.ptr - umHdrSz else 0)
  brk_le : s.brk ≤ s'.brk
  block : r ≠ 0 → ∃ d ∈ bs', d.free = false ∧ r = d.addr + umHdrSz ∧ c.need ≤ d.size ∧
    ∀ e ∈ bs, e.free = false → (c.drops r = true → e.addr ≠ c.ptr - umHdrSz) → e.addr ≠ d.addr
  filled : r ≠ 0 → c.Filled s s' r

theorem step_call_some (h : t.stopped = false) (hrun : c.run t.heap grant = some (r, s')) :
    step t (.call c grant) = ⟨s', c.after r t.live, false⟩ := by
  simp only [step, h, hrun, Bool.false_eq_true, if_false]

theorem step_call_none (h : t.stopped = false) (hrun : c.run t.heap grant = none) :
    step t (.call c grant) = { t with stopped := true } := by
  simp only [step, h, hrun, Bool.false_eq_true, if_false]

/-- The used blocks of the pointers that are kept are kept. -/
theorem Served.kept (h : Served lo s bs c r s' bs') {live : List (Nat × Nat)}
    {x : Nat × Nat} (hx : x ∈ if c.drops r then live.filter fun x => x.1 ≠ c.ptr else live)
    {e : Blk} (he : e ∈ bs) (hne : e.addr ≠ 0) (hused : e.free = false)
    (haddr : x.1 = e.addr + umHdrSz) :
    x ∈ live ∧ e ∈ bs' ∧ (c.drops r = true → e.addr ≠ c.ptr - umHdrSz) := by
  have hkeeps := h.keeps e he hused
  split at hx
  · rename_i hdrops
    rw [if_pos hdrops] at hkeeps
    obtain ⟨hx, hptr⟩ := List.mem_filter.1 hx
    have hdiff : e.addr ≠ c.ptr - umHdrSz := by
      have hptr' : x.1 ≠ c.ptr := by simpa using hptr
      omega
    exact ⟨hx, (hkeeps hdiff).1, fun _ => hdiff⟩
  · rename_i hdrops
    rw [if_neg hdrops] at hkeeps
    exact ⟨hx, (hkeeps hne).1, fun hd => absurd hd hdrops⟩

/-- A call that is served keeps the invariant. -/
theorem Inv.call (h : Inv lo t) (hvalid : Valid lo t.heap bs)
    (hlive : ∀ x ∈ t.live, ∃ e ∈ bs, e.free = false ∧ x.1 = e.addr + umHdrSz ∧ x.2 ≤ e.size)
    (hserved : Served lo t.heap bs c r s' bs') (hrun : c.run t.heap grant = some (r, s')) :
    Inv lo (step t (.call c grant)) := by
  rw [step_call_some h.running hrun]
  have hrest : ((if c.drops r then t.live.filter fun x => x.1 ≠ c.ptr else t.live).map
      Prod.fst).Nodup := by
    split
    · exact h.distinct.sublist (List.filter_sublist.map Prod.fst)
    · exact h.distinct
  have hkept : ∀ x ∈ (if c.drops r then t.live.filter fun x => x.1 ≠ c.ptr else t.live),
      ∃ e ∈ bs, e ∈ bs' ∧ e.free = false ∧ x.1 = e.addr + umHdrSz ∧ x.2 ≤ e.size ∧
        (c.drops r = true → e.addr ≠ c.ptr - umHdrSz) := by
    intro x hx
    have hxl : x ∈ t.live := by
      split at hx
      · exact List.mem_of_mem_filter hx
      · exact hx
    obtain ⟨e, he, heu, haddr, hsize⟩ := hlive x hxl
    obtain ⟨-, he', hdiff⟩ := hserved.kept hx he (hvalid.stored.mem he).1 heu haddr
    exact ⟨e, he, he', heu, haddr, hsize, hdiff⟩
  refine ⟨rfl, ?_, bs', hserved.valid, ?_⟩
  · unfold Call.after
    dsimp only
    split
    · exact hrest
    · rename_i hr
      refine List.nodup_cons.2 ⟨fun hmem => ?_, hrest⟩
      obtain ⟨x, hx, hxr⟩ := List.mem_map.1 hmem
      obtain ⟨e, he, -, heu, haddr, -, hdiff⟩ := hkept x hx
      obtain ⟨d, -, -, hd, -, hnew⟩ := hserved.block hr
      refine hnew e he heu hdiff ?_
      dsimp only at hxr
      omega
  · intro x hx
    have hold : ∀ x ∈ (if c.drops r then t.live.filter fun x => x.1 ≠ c.ptr else t.live),
        ∃ e ∈ bs', e.free = false ∧ x.1 = e.addr + umHdrSz ∧ x.2 ≤ e.size := by
      intro x hx
      obtain ⟨e, -, he', heu, haddr, hsize, -⟩ := hkept x hx
      exact ⟨e, he', heu, haddr, hsize⟩
    unfold Call.after at hx
    dsimp only at hx
    split at hx
    · exact hold x hx
    · rename_i hr
      rcases List.mem_cons.1 hx with rfl | hx
      · obtain ⟨d, hd, hdu, haddr, hneed, -⟩ := hserved.block hr
        exact ⟨d, hd, hdu, haddr, hneed⟩
      · exact hold x hx

/-- Writing to a payload keeps the invariant. -/
theorem Inv.write (h : Inv lo t) {p i : Nat} (v : UInt8) (hp : ∃ n, (p, n) ∈ t.live ∧ i < n) :
    Inv lo (step t (.write p i v)) := by
  obtain ⟨n, hmem, hi⟩ := hp
  obtain ⟨bs, hvalid, hlive⟩ := h.blocks
  obtain ⟨d, hd, -, haddr, hsize⟩ := hlive _ hmem
  refine ⟨h.running, h.distinct, bs, hvalid.write fun e he k hk hk' => ?_, hlive⟩
  have hout := hvalid.header_apart hd he hk hk'
  dsimp only at haddr hsize
  exact Function.update_of_ne (by omega) _ _

/-! ### When a call does what it should -/

/-- A request for `n` bytes. It fits a block of the list, or it does not make the break
wrap; when `n` itself wraps, `malloc` has to fail. -/
def RequestOk (s : Heap) (n : Nat) (grant : Bool) : Prop :=
  if n ≤ 2 ^ 64 - 32 then
    Fits s (askedSize n) ∨ ¬ Shrinks s (growSize (askedSize n))
  else
    ¬ Fits s (askedSize (u64 n)) ∧ ¬ Grows s (growSize (askedSize (u64 n))) grant ∧
      ¬ Shrinks s (growSize (askedSize (u64 n)))

/-- The condition on a call. `realloc` asks for more only if its block is too small. -/
def CallOk (s : Heap) (c : Call) (grant : Bool) : Prop :=
  match c with
  | .malloc n => RequestOk s n grant
  | .calloc k z => RequestOk s (k * z) grant
  | .free _ => True
  | .realloc p n =>
      if p = 0 then RequestOk s n grant
      else n = 0 ∨ n ≤ 2 ^ 64 - 16 ∧
        (umAlign n ≤ hSize s.mem (p - umHdrSz) ∨ RequestOk s (umAlign n) grant)

theorem RequestOk.malloc (h : Valid lo s bs) (hok : RequestOk s n grant) :
    malloc s (u64 n) grant = some (0, s) ∨
      n ≤ 2 ^ 64 - 32 ∧ ∃ s' bs' d, malloc s (u64 n) grant = some (d.addr + umHdrSz, s') ∧
        Placed lo s bs s' bs' d (askedSize n) := by
  unfold RequestOk at hok
  rcases malloc_cases h (u64 n) grant with ⟨hfits, s', bs', d, hrun, hplaced, -⟩ | ⟨hfits, hrun⟩
  · split at hok
    · rename_i hn
      rw [show u64 n = n from Nat.mod_eq_of_lt (by omega)] at *
      exact Or.inr ⟨hn, s', bs', d, hrun, hplaced⟩
    · exact absurd hfits hok.1
  · rw [hrun]
    split at hok
    · rename_i hn
      rw [show u64 n = n from Nat.mod_eq_of_lt (by omega)] at *
      by_cases hgrows : Grows s (growSize (askedSize n)) grant
      · obtain ⟨s', bs', d, hgrow, hplaced, -⟩ := h.grow (askedSize_of_le hn).2 hgrows
        exact Or.inr ⟨hn, s', bs', d, hgrow, hplaced⟩
      · exact Or.inl (growHeap_refused h hgrows (hok.resolve_left hfits))
    · exact Or.inl (growHeap_refused h hok.2.1 hok.2.2)

/-- A call that returns `NULL` and leaves the heap as it was. -/
theorem Served.null (h : Valid lo s bs) : Served lo s bs c 0 s bs where
  valid := h
  keeps _ hd _ _ := ⟨hd, fun _ _ _ => rfl⟩
  brk_le := le_rfl
  block h0 := absurd rfl h0
  filled h0 := absurd rfl h0

/-- A call that returns a new block. -/
theorem Placed.served {d : Blk} {a : Nat} (h : Placed lo s bs s' bs' d a)
    (hneed : c.need ≤ a) (hptr : c.ptr = 0) (hfilled : c.Filled s s' (d.addr + umHdrSz)) :
    Served lo s bs c (d.addr + umHdrSz) s' bs' where
  valid := h.valid
  keeps := by
    rw [hptr, Nat.zero_sub, ite_self]
    exact h.keeps
  brk_le := h.brk_le
  block _ := ⟨d, h.mem, h.used, rfl, hneed.trans h.size, fun e he heu _ => h.new e he heu⟩
  filled _ := hfilled

/-- `free` of a used block, also from `realloc`. -/
theorem Served.freed {b : Blk} (h : Valid lo s bs) (hb : b ∈ bs)
    (hptr : c.ptr = b.addr + umHdrSz) (hdrops : c.drops 0 = true) :
    ∃ s' bs', Umalloc.free s (b.addr + umHdrSz) = some s' ∧ Served lo s bs c 0 s' bs' := by
  obtain ⟨pre, post, rfl⟩ := List.append_of_mem hb
  obtain ⟨s', bs', hrun, hvalid, hkeeps, hbrk⟩ := h.free
  refine ⟨s', bs', hrun, hvalid, ?_, hbrk.ge, fun h0 => absurd rfl h0, fun h0 => absurd rfl h0⟩
  rw [if_pos hdrops, hptr, Nat.add_sub_cancel]
  exact hkeeps

/-- `realloc` of a used block. -/
theorem Served.realloc {b : Blk} {p : Nat} (h : Valid lo s bs) (hb : b ∈ bs)
    (hused : b.free = false) (hp : p = b.addr + umHdrSz)
    (hok : CallOk s (.realloc p n) grant) :
    ∃ r s' bs', Umalloc.realloc s p n grant = some (r, s') ∧
      Served lo s bs (.realloc p n) r s' bs' := by
  obtain ⟨hsub, hsize⟩ := h.block hb
  have hp0 : b.addr + umHdrSz ≠ 0 := by
    unfold umHdrSz
    omega
  subst hp
  dsimp only [CallOk] at hok
  rw [if_neg hp0, Nat.add_sub_cancel, hsize] at hok
  unfold Umalloc.realloc
  rw [if_neg hp0]
  by_cases hn : n = 0
  · obtain ⟨s', bs', hrun, hserved⟩ := Served.freed (c := .realloc (b.addr + umHdrSz) n) h hb rfl
      (by simp [Call.drops, hn])
    refine ⟨0, s', bs', ?_, hserved⟩
    rw [if_pos hn, hrun]
    rfl
  · obtain ⟨hle, hroom⟩ := hok.resolve_left hn
    obtain ⟨hna, -, -⟩ := umAlign_of_le hle
    rw [if_neg hn]
    dsimp only
    rw [hsub, hsize]
    by_cases hfits : umAlign n ≤ b.size
    · -- the block is large enough
      refine ⟨_, s, bs, if_pos hfits, h, fun _ he _ _ => ⟨he, fun _ _ _ => rfl⟩, le_rfl,
        fun _ => ⟨b, hb, hused, rfl, hna.trans hfits, fun e _ _ hdiff => ?_⟩, fun _ _ i _ => rfl⟩
      have := hdiff (by simp [Call.drops, umHdrSz])
      rwa [Call.ptr, Nat.add_sub_cancel] at this
    · rw [if_neg hfits]
      have hu64 : u64 (umAlign n) = umAlign n := Nat.mod_eq_of_lt (by
        have := (umAlign_of_le hle).2.1
        omega)
      have hcase := (hroom.resolve_left hfits).malloc h
      rw [hu64, askedSize_umAlign hle hn] at hcase
      rcases hcase with hnull | ⟨-, s', bs', d, hrun, hplaced⟩
      · refine ⟨0, s, bs, ?_, .null h⟩
        rw [hnull, Option.bind_some]
        exact if_pos rfl
      · obtain ⟨s'', bs'', hreal, hvalid, hkeeps, hd, hdata, hbrk⟩ := realloc_placed h hb hused hn
          (by omega) hrun hplaced
        unfold Umalloc.realloc at hreal
        rw [if_neg hp0, if_neg hn] at hreal
        dsimp only at hreal
        rw [hsub, hsize, if_neg hfits] at hreal
        refine ⟨_, s'', bs'', hreal, hvalid, ?_, hbrk ▸ hplaced.brk_le,
          fun _ => ⟨d, hd, hplaced.used, rfl, hna.trans hplaced.size,
            fun e he heu _ => hplaced.new e he heu⟩, fun _ _ i hi => ?_⟩
        · rw [if_pos (by simp [Call.drops, umHdrSz]), Call.ptr, Nat.add_sub_cancel]
          exact hkeeps
        · rw [Nat.add_sub_cancel, hsize] at hi
          exact hdata i (by omega)

/-- A call that meets its condition does what it should. -/
theorem CallOk.served (hvalid : Valid lo t.heap bs)
    (hlive : ∀ x ∈ t.live, ∃ e ∈ bs, e.free = false ∧ x.1 = e.addr + umHdrSz ∧ x.2 ≤ e.size)
    (hlegal : Legal t (.call c grant)) (hok : CallOk t.heap c grant) :
    ∃ r s' bs', c.run t.heap grant = some (r, s') ∧ Served lo t.heap bs c r s' bs' := by
  obtain ⟨hsized, hptr⟩ := hlegal
  cases c with
  | malloc n =>
      have hcase := RequestOk.malloc hvalid hok
      rw [show u64 n = n from Nat.mod_eq_of_lt hsized] at hcase
      rcases hcase with hnull | ⟨hn, s', bs', d, hrun, hplaced⟩
      · exact ⟨0, _, bs, hnull, .null hvalid⟩
      · exact ⟨_, s', bs', hrun, hplaced.served (askedSize_of_le hn).1 rfl trivial⟩
  | calloc k z =>
      rcases RequestOk.malloc hvalid hok with hnull | ⟨hn, s', bs', d, hrun, hplaced⟩
      · refine ⟨0, _, bs, ?_, .null hvalid⟩
        simp only [Call.run, Umalloc.calloc, hnull, Option.bind_some, if_true]
      · have hkz : u64 (k * z) = k * z := Nat.mod_eq_of_lt (by omega)
        obtain ⟨s'', hcalloc, hplaced', hzero, -⟩ := calloc_placed hrun hplaced
          (by rw [hkz]; exact (askedSize_of_le hn).1)
        rw [hkz] at hzero
        exact ⟨_, s'', bs', hcalloc, hplaced'.served (askedSize_of_le hn).1 rfl hzero⟩
  | free p =>
      rcases hptr with hp | ⟨n, hmem⟩
      · obtain rfl : p = 0 := hp
        exact ⟨0, _, bs, rfl, .null hvalid⟩
      · obtain ⟨e, he, -, haddr, -⟩ := hlive _ hmem
        obtain ⟨s', bs', hrun, hserved⟩ := Served.freed (c := .free p) hvalid he haddr rfl
        refine ⟨0, s', bs', ?_, hserved⟩
        obtain rfl : p = e.addr + umHdrSz := haddr
        simp only [Call.run, hrun, Option.map_some]
  | realloc p n =>
      by_cases hp : p = 0
      · subst hp
        have hcase := RequestOk.malloc (n := n) hvalid (by
          dsimp only [CallOk] at hok
          rwa [if_pos rfl] at hok)
        rw [show u64 n = n from Nat.mod_eq_of_lt hsized] at hcase
        rcases hcase with hnull | ⟨hn, s', bs', d, hrun, hplaced⟩
        · exact ⟨0, _, bs, hnull, .null hvalid⟩
        · exact ⟨_, s', bs', hrun, hplaced.served (askedSize_of_le hn).1 rfl
            fun h0 => absurd rfl h0⟩
      · obtain ⟨m, hmem⟩ := hptr.resolve_left hp
        obtain ⟨e, he, heu, haddr, -⟩ := hlive _ hmem
        exact Served.realloc hvalid he heu haddr hok

end FiFi.Umalloc

/-!
## Blocks stay apart

As long as the sizes are not so large that the break could wrap, the payloads of live
pointers meet neither each other nor a header, and lie in memory that came from the
kernel. Every call leaves the other payloads as they are. This is what `Inv` and
`Served` say, read off the memory.
-/

namespace FiFi.Umalloc

open ByteStore BlockList Pmm Syscall StateMachine

/-! ### What is seen in memory -/

/-- The number of bytes in the payload at `p`, from the header before it. -/
def payload (s : Heap) (p : Nat) : Nat := hSize s.mem (p - umHdrSz)

/-- The payload at `p` is as it was. -/
def Intact (s s' : Heap) (p : Nat) : Prop :=
  payload s' p = payload s p ∧ ∀ i < payload s p, s'.mem (p + i) = s.mem (p + i)

/-- The state of a program whose memory came from the kernel from `lo` on. -/
structure Apart (lo : Nat) (t : Session) : Prop where
  running : t.stopped = false
  distinct : (t.live.map Prod.fst).Nodup
  room : ∀ x ∈ t.live, x.2 ≤ payload t.heap x.1
  inside : ∀ x ∈ t.live, lo ≤ x.1 ∧ x.1 + payload t.heap x.1 ≤ t.heap.brk
  apart : ∀ x ∈ t.live, ∀ y ∈ t.live, x.1 ≠ y.1 →
    x.1 + payload t.heap x.1 ≤ y.1 ∨ y.1 + payload t.heap y.1 ≤ x.1
  headers : ∃ bs, Threaded (info t.heap.mem) (hNext t.heap.mem) t.heap.head bs 0 ∧ Spaced bs ∧
    ∀ e ∈ bs, lo ≤ e.addr ∧ e.addr + umHdrSz ≤ t.heap.brk ∧ ∀ x ∈ t.live,
      x.1 + payload t.heap x.1 ≤ e.addr ∨ e.addr + umHdrSz ≤ x.1

/-- A call returns; it leaves the payloads as they are that it is not given, and a call
that fails leaves all of them; what it returns is filled as it should. -/
def Kept (t : Session) : Act → Prop
  | .call c grant => ∃ r s', c.run t.heap grant = some (r, s') ∧
      (∀ x ∈ t.live, x.1 ≠ c.ptr ∨ c.drops r = false → Intact t.heap s' x.1) ∧
      (r ≠ 0 → c.Filled t.heap s' r)
  | .write _ _ _ => True

variable {lo r : Nat} {s' : Heap} {t : Session} {bs bs' : List Blk} {grant : Bool} {c : Call}

theorem Valid.payload {s : Heap} {b : Blk} (h : Valid lo s bs) (hb : b ∈ bs) :
    payload s (b.addr + umHdrSz) = b.size := by
  rw [Umalloc.payload, Nat.add_sub_cancel]
  exact (h.block hb).2

theorem Inv.apart (h : Inv lo t) : Apart lo t := by
  obtain ⟨hrun, hdistinct, bs, hvalid, hlive⟩ := h
  have hblk : ∀ x ∈ t.live, ∃ e ∈ bs, x.1 = e.addr + umHdrSz ∧ Umalloc.payload t.heap x.1 = e.size ∧
      x.2 ≤ e.size := by
    intro x hx
    obtain ⟨e, he, -, haddr, hsize⟩ := hlive x hx
    exact ⟨e, he, haddr, haddr ▸ hvalid.payload he, hsize⟩
  refine ⟨hrun, hdistinct, fun x hx => ?_, fun x hx => ?_, fun x hx y hy hne => ?_, bs,
    hvalid.stored, hvalid.spaced, fun e he => ?_⟩
  · obtain ⟨e, -, -, hpay, hsize⟩ := hblk x hx
    exact hpay ▸ hsize
  · obtain ⟨e, he, haddr, hpay, -⟩ := hblk x hx
    have := hvalid.laid.bounds he
    omega
  · obtain ⟨e, he, haddr, hpay, -⟩ := hblk x hx
    obtain ⟨f, hf, haddr', hpay', -⟩ := hblk y hy
    rcases hvalid.laid.apart he hf (by omega) with hap | hap <;> omega
  · have hb := hvalid.laid.bounds he
    refine ⟨hb.1, by omega, fun x hx => ?_⟩
    obtain ⟨f, hf, haddr, hpay, -⟩ := hblk x hx
    by_cases heq : e.addr = f.addr
    · exact Or.inr (by omega)
    · rcases hvalid.laid.apart he hf heq with hap | hap <;> omega

/-- A payload that is kept is intact. -/
theorem Served.intact (hvalid : Valid lo t.heap bs)
    (hlive : ∀ x ∈ t.live, ∃ e ∈ bs, e.free = false ∧ x.1 = e.addr + umHdrSz ∧ x.2 ≤ e.size)
    (hserved : Served lo t.heap bs c r s' bs') {x : Nat × Nat} (hx : x ∈ t.live)
    (hother : x.1 ≠ c.ptr ∨ c.drops r = false) : Intact t.heap s' x.1 := by
  obtain ⟨e, he, heu, haddr, -⟩ := hlive x hx
  have hne := (hvalid.stored.mem he).1
  obtain ⟨he', hkeep⟩ := hserved.keeps e he heu (by
    split
    · rename_i hdrops
      rw [hdrops] at hother
      have := hother.resolve_right (by simp)
      omega
    · exact hne)
  have hpay := hvalid.payload he
  rw [haddr]
  refine ⟨(hserved.valid.payload he').trans hpay.symm, fun i hi => ?_⟩
  rw [hpay] at hi
  exact hkeep _ (by omega) (by omega)

/-! ### Runs -/

/-- The sizes are moderate: with any break in user space, no request wraps. -/
def Moderate : Act → Prop
  | .call c _ => c.need < 2 ^ 63
  | .write _ _ _ => True

theorem requestOk_of_lt {s : Heap} {n : Nat} (hbrk : s.brk < userTop) (hn : n < 2 ^ 63 + 16) :
    RequestOk s n grant := by
  unfold RequestOk
  rw [if_pos (by omega)]
  refine Or.inr fun h => ?_
  have hsize : growSize (askedSize n) < 2 ^ 63 + 2 ^ 16 ∧ 0 < growSize (askedSize n) := by
    rw [growSize_of_lt (askedSize_of_le (by omega)).2]
    unfold askedSize umAlign u64 umMinChunk umHdrSz
    split <;> omega
  obtain ⟨-, -, -, hdown⟩ := h
  unfold wanted alignUp alignDown u64 pageSize at hdown
  unfold userTop at hbrk
  omega

theorem callOk_of_moderate (hbrk : t.heap.brk < userTop) (hn : c.need < 2 ^ 63) :
    CallOk t.heap c grant := by
  cases c with
  | malloc n => exact requestOk_of_lt hbrk (hn.trans (by decide))
  | calloc k z => exact requestOk_of_lt hbrk (hn.trans (by decide))
  | free p => exact trivial
  | realloc p n =>
      have hn' : n < 2 ^ 63 := hn
      dsimp only [CallOk]
      split
      · exact requestOk_of_lt hbrk (by omega)
      · refine Or.inr ⟨by omega, Or.inr (requestOk_of_lt hbrk ?_)⟩
        unfold umAlign u64
        omega

/-- One step of a moderate program. -/
theorem Inv.moderate {a : Act} (h : Inv lo t) (hlegal : Legal t a) (hmod : Moderate a) :
    Inv lo (step t a) ∧ Kept t a := by
  cases a with
  | call c grant =>
      obtain ⟨bs, hvalid, hlive⟩ := h.blocks
      obtain ⟨r, s', bs', hrun, hserved⟩ := CallOk.served hvalid hlive hlegal
        (callOk_of_moderate hvalid.brk_lt hmod)
      exact ⟨h.call hvalid hlive hserved hrun, r, s', hrun,
        fun x hx hother => hserved.intact hvalid hlive hx hother, hserved.filled⟩
  | write p i v => exact ⟨h.write v hlegal, trivial⟩

/-- **A program that uses its pointers rightly keeps its blocks apart**, whenever the
kernel refuses more memory. -/
theorem session_apart (hstart : Start lo t) (acts : List Act)
    (hlegal : AllSteps step Legal t acts) (hmod : ∀ a ∈ acts, Moderate a) :
    Apart lo (run step t acts) ∧ AllSteps step Kept t acts := by
  have hinv := hstart.inv
  clear hstart
  induction acts generalizing t with
  | nil => exact ⟨hinv.apart, trivial⟩
  | cons a acts ih =>
      obtain ⟨ha, htail⟩ := hlegal
      obtain ⟨hinv', hkept⟩ := hinv.moderate ha (hmod a List.mem_cons_self)
      obtain ⟨hap, hall⟩ := ih htail (fun a' ha' => hmod a' (List.mem_cons_of_mem _ ha')) hinv'
      exact ⟨hap, hkept, hall⟩

/-- A program with an empty heap. -/
def freshSession : Session := ⟨⟨fun _ => 0, 0, 0x400000⟩, [], false⟩

theorem freshSession_start : Start 0x400000 freshSession :=
  ⟨rfl, rfl, rfl, rfl, by decide, by decide⟩

theorem session_apart_fresh :
    Apart 0x400000 (run step freshSession
      [.call (.malloc 100) true, .write 0x400018 7 1, .call (.realloc 0x400018 5000) true,
        .call (.calloc 3 5) false, .call (.free 0x401018) true]) ∧
      AllSteps step Kept freshSession
        [.call (.malloc 100) true, .write 0x400018 7 1, .call (.realloc 0x400018 5000) true,
          .call (.calloc 3 5) false, .call (.free 0x401018) true] :=
  session_apart freshSession_start _
    ⟨⟨show 100 < 2 ^ 64 by decide, Or.inl rfl⟩, ⟨100, by decide, by decide⟩,
      ⟨show 5000 < 2 ^ 64 by decide, Or.inr ⟨100, by decide⟩⟩,
      ⟨show 3 < 2 ^ 64 ∧ 5 < 2 ^ 64 by decide, Or.inl rfl⟩,
      ⟨trivial, Or.inr ⟨5000, by decide +kernel⟩⟩, trivial⟩
    (by simp [Moderate, Call.need])

end FiFi.Umalloc
