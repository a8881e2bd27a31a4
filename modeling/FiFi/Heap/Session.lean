import FiFi.Heap.Served
import FiFi.Library.StateMachine

/-!
# The kernel's use of its heap

The kernel asks for blocks, frees blocks it has, and writes to them. A pointer is live
from the call that returns it to the call that frees it, and freed until it is handed out
again. Every block belongs to one pointer that is live or freed (`Inv`), so that what is
known of blocks holds of pointers.
-/

namespace FiFi.Heap

open ByteStore Pmm Spans LinkedList StateMachine
open Thread (heapUsableBase heapUsableEnd)

/-! ### Runs -/

/-- The heap, the live pointers with the sizes that were asked for, the freed ones, and
whether the kernel has panicked. -/
structure Session where
  heap : HeapState
  live : List (Nat × Nat)
  freed : List Nat
  stopped : Bool

inductive Act
  | alloc (size align : Nat) (e : Supply)
  | free (p : Nat)
  | write (p i : Nat) (v : UInt8)

/-- The live and the freed pointers. -/
def Session.pointers (t : Session) : List Nat := t.live.map Prod.fst ++ t.freed

def step (t : Session) : Act → Session
  | .alloc size align e =>
      if t.stopped then t
      else match kmallocAligned t.heap size align e with
        | .error _ => { t with stopped := true }
        | .ok (r, h) =>
            if r = 0 then { t with heap := h }
            else ⟨h, (r, size) :: t.live, t.freed.filter fun p => p ≠ r, false⟩
  | .free p =>
      if t.stopped then t
      else match kfree t.heap p with
        | .error _ => { t with stopped := true }
        | .ok h =>
            if p = 0 then { t with heap := h }
            else ⟨h, t.live.filter fun x => x.1 ≠ p, p :: t.freed, false⟩
  | .write p i v => { t with heap := { t.heap with mem := Function.update t.heap.mem (p + i) v } }

/-- Sizes are positive and alignments are powers of two; the kernel frees what is live and
writes to live blocks. -/
def Legal (t : Session) : Act → Prop
  | .alloc size align e => 0 < size ∧ (∃ k < 64, align = 2 ^ k) ∧
      (pageSize ≤ size → Mappable t.heap size e)
  | .free p => p = 0 ∨ ∃ n, (p, n) ∈ t.live
  | .write p i _ => (∃ n, (p, n) ∈ t.live) ∧ i < hSize t.heap.mem (p - hdrSz)

/-- The state after `heap_init`. -/
def start (h : HeapState) : Session := ⟨h, [], [], false⟩

/-! ### The invariant -/

/-- A live pointer is the user area of a block that has room and a magic number. -/
def LiveAt (s : HeapState) (bs : List Span) (x : Nat × Nat) : Prop :=
  ∃ b ∈ bs, x.1 = b.addr + hdrSz ∧ (x.2 < 2 ^ 64 - 15 → x.2 + hdrSz ≤ b.size) ∧
    (hMagic s.mem b.addr = heapMagic ∨ hMagic s.mem b.addr = heapMagicLarge)

/-- A freed pointer is the user area of a block without a magic number. -/
def FreedAt (s : HeapState) (bs : List Span) (p : Nat) : Prop :=
  ∃ b ∈ bs, p = b.addr + hdrSz ∧ hMagic s.mem b.addr = 0

/-- The blocks are those of the live and the freed pointers. -/
structure Tracks (t : Session) (bs : List Span) : Prop where
  live : ∀ x ∈ t.live, LiveAt t.heap bs x
  freed : ∀ p, p ∈ t.freed ↔ FreedAt t.heap bs p
  distinct : t.pointers.Nodup

def Inv (t : Session) : Prop := ∃ bs fs, Valid t.heap bs fs ∧ Tracks t bs

variable {t : Session} {s s' : HeapState} {bs bs' : List Span} {fs : List Nat} {b d : Span}
  {p i k n size align : Nat} {v : UInt8} {e : Supply}

theorem heapInit_inv {m : Bytes} {mapped : Nat → Bool} (hinit : heapInit m mapped e = .ok s) :
    Inv (start s) := by
  rcases heapMapFreshPage_cases ⟨m, mapped, 0, 0, heapUsableBase, 0⟩ e with
    ⟨-, msg, hrun⟩ | ⟨hfresh, hrun⟩
  · exact absurd (hrun.symm.trans hinit) (by simp)
  · obtain rfl := Except.ok.inj (hrun.symm.trans hinit)
    have harena : Arena ⟨m, mapped, 0, 0, heapUsableBase, 0⟩ :=
      ⟨le_rfl, show heapUsableBase % pageSize = 0 by decide, fun q hq hlt => absurd hlt (Nat.not_lt.2 hq)⟩
    refine ⟨[], [], ⟨harena.freshPage
      (show heapUsableBase < heapUsableEnd by decide), List.Pairwise.nil, by simp, by simp, rfl,
      by simp, List.nodup_nil⟩, ⟨by simp [start], ?_, List.nodup_nil⟩⟩
    simp [start, FreedAt]

/-- A block is one pointer's only. -/
theorem FreedAt.not_live (h : Valid s bs fs) (hp : FreedAt s bs p) : ¬ LiveAt s bs (p, n) := by
  rintro ⟨b, hb, haddr, -, hmagic⟩
  obtain ⟨c, hc, haddr', hzero⟩ := hp
  have heq : b = c := eq_of_addr h.apart h.pos hb hc (by dsimp only at haddr; omega)
  subst heq
  rcases hmagic with hm | hm
  · exact magics_pos.1 (hm.symm.trans hzero)
  · exact magics_pos.2.1 (hm.symm.trans hzero)

/-- A block that was handed out keeps the pointers and their blocks together. -/
theorem Tracks.given (h : Tracks t bs)
    (hgiven : Given t.heap bs size align s' bs' d) :
    Tracks ⟨s', (d.addr + hdrSz, size) :: t.live,
      t.freed.filter fun p => p ≠ d.addr + hdrSz, false⟩ bs' := by
  obtain ⟨fs', hvalid'⟩ := hgiven.valid
  have hd : d ∈ bs' := (hgiven.mem d).2 (Or.inl rfl)
  have hpos := magics_pos
  -- The block of a live pointer has a magic number, `d` had none.
  have hne : ∀ x ∈ t.live, ∃ b ∈ bs, b ≠ d ∧ x.1 = b.addr + hdrSz ∧
      (x.2 < 2 ^ 64 - 15 → x.2 + hdrSz ≤ b.size) ∧
      (hMagic t.heap.mem b.addr = heapMagic ∨ hMagic t.heap.mem b.addr = heapMagicLarge) := by
    intro x hx
    obtain ⟨b, hb, haddr, hroom, hmagic⟩ := h.live x hx
    refine ⟨b, hb, ?_, haddr, hroom, hmagic⟩
    rintro rfl
    have hzero := hgiven.unused hb
    rcases hmagic with hm | hm
    · exact hpos.1 (hm.symm.trans hzero)
    · exact hpos.2.1 (hm.symm.trans hzero)
  refine ⟨List.forall_mem_cons.2 ⟨⟨d, hd, rfl, hgiven.room, hgiven.magic⟩, fun x hx => ?_⟩,
    fun p => ?_, ?_⟩
  · obtain ⟨b, hb, hbd, haddr, hroom, hmagic⟩ := hne x hx
    refine ⟨b, (hgiven.mem b).2 (Or.inr hb), haddr, hroom, ?_⟩
    rwa [hgiven.magics b hb hbd]
  · rw [List.mem_filter, h.freed p]
    constructor
    · rintro ⟨⟨b, hb, rfl, hzero⟩, hpne⟩
      have hbd : b ≠ d := by
        rintro rfl
        simp at hpne
      exact ⟨b, (hgiven.mem b).2 (Or.inr hb), rfl, (hgiven.magics b hb hbd).trans hzero⟩
    · rintro ⟨b, hb, rfl, hzero⟩
      have hbd : b ≠ d := by
        rintro rfl
        rcases hgiven.magic with hm | hm
        · exact hpos.1 (hm.symm.trans hzero)
        · exact hpos.2.1 (hm.symm.trans hzero)
      have hbs := ((hgiven.mem b).1 hb).resolve_left hbd
      refine ⟨⟨b, hbs, rfl, (hgiven.magics b hbs hbd).symm.trans hzero⟩, ?_⟩
      have haddr : b.addr ≠ d.addr := fun heq =>
        hbd (eq_of_addr hvalid'.apart hvalid'.pos hb hd heq)
      simpa using haddr
  · have hnew : d.addr + hdrSz ∉ t.live.map Prod.fst := fun hmem => by
      obtain ⟨x, hx, hxd⟩ := List.mem_map.1 hmem
      obtain ⟨b, hb, hbd, haddr, -⟩ := hne x hx
      exact hbd (eq_of_addr hvalid'.apart hvalid'.pos ((hgiven.mem b).2 (Or.inr hb)) hd (by omega))
    have hrest : (t.live.map Prod.fst ++ t.freed.filter fun p => p ≠ d.addr + hdrSz).Nodup :=
      h.distinct.sublist (List.filter_sublist.append_left _)
    refine List.nodup_cons.2 ⟨fun hmem => ?_, hrest⟩
    rcases List.mem_append.1 hmem with hl | hf
    · exact hnew hl
    · simpa using (List.mem_filter.1 hf).2

/-- Freeing a live pointer. -/
theorem Tracks.freed_cons (h : Tracks t bs) (hvalid : Valid t.heap bs fs) (hb : b ∈ bs)
    (hmem : (b.addr + hdrSz, n) ∈ t.live) (hzero : hMagic s'.mem b.addr = 0)
    (hout : ∀ i, i < b.addr ∨ b.addr + b.size ≤ i → s'.mem i = t.heap.mem i) :
    Tracks ⟨s', t.live.filter fun x => x.1 ≠ b.addr + hdrSz, (b.addr + hdrSz) :: t.freed, false⟩
      bs := by
  have hmagic : ∀ c ∈ bs, c ≠ b → hMagic s'.mem c.addr = hMagic t.heap.mem c.addr :=
    fun c hc hne => by
      have hroom := (hvalid.placed c hc).room
      exact hMagic_congr fun i hi hi' => hout i (hvalid.outside hb hc hne hi (by omega))
  have hnot : b.addr + hdrSz ∉ t.freed := fun hf =>
    FreedAt.not_live hvalid ((h.freed _).1 hf) (h.live _ hmem)
  refine ⟨fun x hx => ?_, fun p => ?_, ?_⟩
  · obtain ⟨hx, hne⟩ := List.mem_filter.1 hx
    obtain ⟨c, hc, haddr, hroom, hm⟩ := h.live x hx
    refine ⟨c, hc, haddr, hroom, ?_⟩
    have hcb : c ≠ b := by
      rintro rfl
      simp [haddr] at hne
    rwa [hmagic c hc hcb]
  · rw [List.mem_cons, h.freed p]
    constructor
    · rintro (rfl | ⟨c, hc, rfl, hm⟩)
      · exact ⟨b, hb, rfl, hzero⟩
      · by_cases hcb : c = b
        · subst hcb
          exact ⟨c, hc, rfl, hzero⟩
        · exact ⟨c, hc, rfl, (hmagic c hc hcb).trans hm⟩
    · rintro ⟨c, hc, rfl, hm⟩
      by_cases hcb : c = b
      · exact Or.inl (by rw [hcb])
      · exact Or.inr ⟨c, hc, rfl, (hmagic c hc hcb).symm.trans hm⟩
  · have hsub : List.Sublist ((t.live.filter fun x => x.1 ≠ b.addr + hdrSz).map Prod.fst ++
        t.freed) t.pointers := (List.filter_sublist.map _).append_right _
    refine (List.nodup_middle).2 (List.nodup_cons.2 ⟨fun hmem => ?_, h.distinct.sublist hsub⟩)
    rcases List.mem_append.1 hmem with hl | hf
    · obtain ⟨x, hx, hxb⟩ := List.mem_map.1 hl
      exact absurd hxb (by simpa using (List.mem_filter.1 hx).2)
    · exact hnot hf

/-- Only the magic numbers matter. -/
theorem Tracks.congr (h : Tracks t bs)
    (hmagic : ∀ c ∈ bs, hMagic s'.mem c.addr = hMagic t.heap.mem c.addr) :
    Tracks { t with heap := s' } bs := by
  refine ⟨fun x hx => ?_, fun p => ?_, h.distinct⟩
  · obtain ⟨c, hc, haddr, hroom, hm⟩ := h.live x hx
    exact ⟨c, hc, haddr, hroom, by rwa [← hmagic c hc] at hm⟩
  · rw [h.freed p]
    refine exists_congr fun c => and_congr_right fun hc => and_congr_right fun _ => ?_
    exact Eq.congr_left (hmagic c hc).symm

/-- Every step keeps the invariant. -/
theorem Inv.step (h : Inv t) {a : Act} (hlegal : Legal t a) : Inv (step t a) := by
  obtain ⟨bs, fs, hvalid, htracks⟩ := h
  cases a with
  | alloc size align e =>
      obtain ⟨hpos, ⟨k, hk, rfl⟩, hmap⟩ := hlegal
      unfold Heap.step
      dsimp only
      split
      · exact ⟨bs, fs, hvalid, htracks⟩
      rcases hvalid.kmallocAligned hpos hk hmap with ⟨hun, -⟩ | ⟨-, s', bs', d, hrun, hgiven⟩
      · rcases hun with ⟨msg, hrun⟩ | ⟨s', fs', hrun, hvalid', hsame⟩
        · rw [hrun]
          exact ⟨bs, fs, hvalid, ⟨htracks.live, htracks.freed, htracks.distinct⟩⟩
        · rw [hrun]
          dsimp only
          rw [if_pos rfl]
          refine ⟨bs, fs', hvalid', htracks.congr fun c hc => hMagic_congr fun i hi hi' => ?_⟩
          have hroom := (hvalid.placed c hc).room
          exact hsame c hc i hi (by omega)
      · rw [hrun]
        dsimp only
        rw [if_neg (by unfold hdrSz; omega)]
        obtain ⟨fs', hvalid'⟩ := hgiven.valid
        exact ⟨bs', fs', hvalid', htracks.given hgiven⟩
  | free p =>
      unfold Heap.step
      dsimp only
      split
      · exact ⟨bs, fs, hvalid, htracks⟩
      rcases hlegal with rfl | ⟨n, hmem⟩
      · exact ⟨bs, fs, hvalid, htracks⟩
      · obtain ⟨b, hb, haddr, -, hmagic⟩ := htracks.live _ hmem
        obtain rfl : p = b.addr + hdrSz := haddr
        obtain ⟨s', fs', hrun, hvalid', hzero, hout⟩ := hvalid.kfree hb hmagic
        rw [hrun]
        dsimp only
        rw [if_neg (by unfold hdrSz; omega)]
        exact ⟨bs, fs', hvalid', htracks.freed_cons hvalid hb hmem hzero hout⟩
  | write p i v =>
      obtain ⟨⟨n, hmem⟩, hi⟩ := hlegal
      obtain ⟨b, hb, haddr, -, hmagic⟩ := htracks.live _ hmem
      obtain rfl : p = b.addr + hdrSz := haddr
      rw [Nat.add_sub_cancel] at hi
      have hsized := hvalid.sized b hb
      have hkeep : ∀ j, j ≠ b.addr + hdrSz + i →
          Function.update t.heap.mem (b.addr + hdrSz + i) v j = t.heap.mem j :=
        fun j hj => Function.update_of_ne hj _ _
      refine ⟨bs, fs, hvalid.touch hb (hvalid.not_free hmagic) (fun j hj => hkeep j (by omega))
        (hSize_congr fun j hj hj' => hkeep j (by omega)),
        htracks.congr fun c hc => hMagic_congr fun j hj hj' => hkeep j ?_⟩
      by_cases hcb : c = b
      · subst hcb
        omega
      · have hroom := (hvalid.placed c hc).room
        have := hvalid.outside hb hc hcb hj (by omega)
        omega

end FiFi.Heap
