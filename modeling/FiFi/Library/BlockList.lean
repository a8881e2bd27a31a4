import Mathlib.Data.Finset.Card
import Mathlib.Data.List.Chain
import Mathlib.Data.List.Nodup
import Mathlib.Order.Interval.Finset.Nat
import Mathlib.Tactic

/-!
# Blocks in address order

An allocator keeps its memory as blocks in address order. A block has a header of
`c` bytes and behind it `size` bytes for its owner, and is free or used. `Laid`
says that the blocks of a list follow one another in a range of addresses, with
gaps between them at most. `Threaded` says how the list is stored: what is at the
address of a header, and the link from it to the next one.

A block may be split in two, and a free block absorbs the free blocks behind it.
What lies in the gap then belongs to the block, at the cost of its end.
-/

namespace BlockList

/-- A block, at the address of its header. -/
structure Blk where
  addr : Nat
  size : Nat
  free : Bool
  deriving DecidableEq, Repr

variable {c lo hi : Nat} {b d : Blk} {xs ys : List Blk}

/-! ### Order -/

/-- The blocks follow one another between `lo` and `hi`. -/
def Laid (c : Nat) : Nat → Nat → List Blk → Prop
  | lo, hi, [] => lo ≤ hi
  | lo, hi, b :: bs => lo ≤ b.addr ∧ Laid c (b.addr + c + b.size) hi bs

@[simp] theorem laid_nil : Laid c lo hi [] ↔ lo ≤ hi := Iff.rfl

@[simp] theorem laid_cons :
    Laid c lo hi (b :: xs) ↔ lo ≤ b.addr ∧ Laid c (b.addr + c + b.size) hi xs := Iff.rfl

theorem laid_append :
    Laid c lo hi (xs ++ ys) ↔ ∃ m, Laid c lo m xs ∧ Laid c m hi ys := by
  induction xs generalizing lo with
  | nil =>
      constructor
      · exact fun h => ⟨lo, le_rfl, h⟩
      · rintro ⟨m, hm, h⟩
        cases ys with
        | nil => exact hm.trans h
        | cons b ys => exact ⟨hm.trans h.1, h.2⟩
  | cons b xs ih =>
      rw [List.cons_append, laid_cons, ih]
      constructor
      · rintro ⟨hb, m, h, h'⟩
        exact ⟨m, ⟨hb, h⟩, h'⟩
      · rintro ⟨m, ⟨hb, h⟩, h'⟩
        exact ⟨hb, m, h, h'⟩

theorem Laid.le (h : Laid c lo hi xs) : lo ≤ hi := by
  induction xs generalizing lo with
  | nil => exact h
  | cons b xs ih =>
      have := ih h.2
      have := h.1
      omega

/-- The range may be larger. -/
theorem Laid.mono {lo' hi' : Nat} (h : Laid c lo hi xs) (hlo : lo' ≤ lo) (hhi : hi ≤ hi') :
    Laid c lo' hi' xs := by
  induction xs generalizing lo lo' with
  | nil => exact (hlo.trans h).trans hhi
  | cons b xs ih => exact ⟨hlo.trans h.1, ih h.2 le_rfl⟩

/-- A block of the list lies in the range. -/
theorem Laid.bounds (h : Laid c lo hi xs) (hb : b ∈ xs) :
    lo ≤ b.addr ∧ b.addr + c + b.size ≤ hi := by
  induction xs generalizing lo with
  | nil => exact absurd hb List.not_mem_nil
  | cons d xs ih =>
      rcases List.mem_cons.1 hb with rfl | hb
      · exact ⟨h.1, h.2.le⟩
      · have hd := h.1
        obtain ⟨hlo, hhi⟩ := ih h.2 hb
        exact ⟨by omega, hhi⟩

/-- A block lies before those behind it. -/
theorem Laid.before (h : Laid c lo hi (xs ++ b :: ys)) :
    (∀ d ∈ xs, d.addr + c + d.size ≤ b.addr) ∧
      ∀ d ∈ ys, b.addr + c + b.size ≤ d.addr := by
  obtain ⟨m, hx, hb, hy⟩ := laid_append.1 h
  exact ⟨fun d hd => ((hx.bounds hd).2).trans hb, fun d hd => (hy.bounds hd).1⟩

/-- Two blocks with different headers do not meet. -/
theorem Laid.apart (h : Laid c lo hi xs) (hb : b ∈ xs) (hd : d ∈ xs) (hne : b.addr ≠ d.addr) :
    b.addr + c + b.size ≤ d.addr ∨ d.addr + c + d.size ≤ b.addr := by
  obtain ⟨pre, post, rfl⟩ := List.append_of_mem hb
  obtain ⟨hpre, hpost⟩ := h.before
  rcases List.mem_append.1 hd with hd | hd
  · exact Or.inr (hpre d hd)
  · rcases List.mem_cons.1 hd with rfl | hd
    · exact absurd rfl hne
    · exact Or.inl (hpost d hd)

/-- The address of its header determines a block. -/
theorem Laid.eq_of_addr (hc : 0 < c) (h : Laid c lo hi xs) (hb : b ∈ xs) (hd : d ∈ xs)
    (heq : b.addr = d.addr) : b = d := by
  obtain ⟨pre, post, rfl⟩ := List.append_of_mem hb
  obtain ⟨hpre, hpost⟩ := h.before
  rcases List.mem_append.1 hd with hd | hd
  · have := hpre d hd
    omega
  · rcases List.mem_cons.1 hd with rfl | hd
    · rfl
    · have := hpost d hd
      omega

theorem Laid.length_le (h : Laid c lo hi xs) : lo + c * xs.length ≤ hi := by
  induction xs generalizing lo with
  | nil => exact h
  | cons b xs ih =>
      have hb := h.1
      have hx := ih h.2
      rw [List.length_cons, Nat.mul_succ]
      omega

/-- Blocks in the middle are replaced by blocks in their place. -/
theorem Laid.splice {mid mid' : List Blk} (h : Laid c lo hi (xs ++ mid ++ ys))
    (hmid : ∀ l u, Laid c l u mid → Laid c l u mid') : Laid c lo hi (xs ++ mid' ++ ys) := by
  rw [List.append_assoc, laid_append] at h ⊢
  obtain ⟨l, hx, h⟩ := h
  obtain ⟨u, hm, hy⟩ := laid_append.1 h
  exact ⟨l, hx, laid_append.2 ⟨u, hmid l u hm, hy⟩⟩

/-! ### Storage -/

/-- From the link `a` on the blocks of the list are stored, up to the link `z`: `info` is
what the header at an address says, `next` its link. -/
def Threaded (info : Nat → Nat × Bool) (next : Nat → Nat) : Nat → List Blk → Nat → Prop
  | a, [], z => a = z
  | a, b :: bs, z =>
      a = b.addr ∧ a ≠ 0 ∧ info a = (b.size, b.free) ∧ Threaded info next (next a) bs z

variable {info info' : Nat → Nat × Bool} {next next' : Nat → Nat} {a z : Nat}

@[simp] theorem threaded_nil : Threaded info next a [] z ↔ a = z := Iff.rfl

@[simp] theorem threaded_cons : Threaded info next a (b :: xs) z ↔
    a = b.addr ∧ a ≠ 0 ∧ info a = (b.size, b.free) ∧ Threaded info next (next a) xs z := Iff.rfl

theorem threaded_append : Threaded info next a (xs ++ ys) z ↔
    ∃ m, Threaded info next a xs m ∧ Threaded info next m ys z := by
  induction xs generalizing a with
  | nil => simp
  | cons b xs ih => simp only [List.cons_append, threaded_cons, ih, and_assoc, exists_and_left]

theorem Threaded.mem (h : Threaded info next a xs z) (hb : b ∈ xs) :
    b.addr ≠ 0 ∧ info b.addr = (b.size, b.free) := by
  induction xs generalizing a with
  | nil => exact absurd hb List.not_mem_nil
  | cons d xs ih =>
      obtain ⟨rfl, hne, hinfo, htail⟩ := h
      rcases List.mem_cons.1 hb with rfl | hb
      · exact ⟨hne, hinfo⟩
      · exact ih htail hb

/-- What is stored determines the list. -/
theorem Threaded.unique (h : Threaded info next a xs 0) (h' : Threaded info next a ys 0) :
    xs = ys := by
  induction xs generalizing a ys with
  | nil =>
      cases ys with
      | nil => rfl
      | cons d ys => exact absurd h h'.2.1
  | cons b xs ih =>
      cases ys with
      | nil => exact absurd h' h.2.1
      | cons d ys =>
          obtain ⟨hb, -, hinfo, htail⟩ := h
          obtain ⟨hd, -, hinfo', htail'⟩ := h'
          have hsize := Prod.mk.inj (hinfo.symm.trans hinfo')
          have hblk : b = d := by
            cases b
            cases d
            simp_all only
          rw [hblk, ih htail htail']

/-- Only the headers of the list matter. -/
theorem Threaded.congr (h : Threaded info next a xs z)
    (hsame : ∀ d ∈ xs, info' d.addr = info d.addr ∧ next' d.addr = next d.addr) :
    Threaded info' next' a xs z := by
  induction xs generalizing a with
  | nil => exact h
  | cons b xs ih =>
      obtain ⟨rfl, hne, hinfo, htail⟩ := h
      obtain ⟨hi, hn⟩ := hsame b List.mem_cons_self
      refine ⟨rfl, hne, hi.trans hinfo, ?_⟩
      rw [hn]
      exact ih htail fun d hd => hsame d (List.mem_cons_of_mem _ hd)

/-- Blocks in the middle are replaced, from the same link to the same link. -/
theorem Threaded.splice {mid mid' : List Blk} (h : Threaded info next a (xs ++ mid ++ ys) z)
    (hsame : ∀ d, d ∈ xs ∨ d ∈ ys → info' d.addr = info d.addr ∧ next' d.addr = next d.addr)
    (hmid : ∀ l u, Threaded info next l mid u → Threaded info' next' l mid' u) :
    Threaded info' next' a (xs ++ mid' ++ ys) z := by
  rw [List.append_assoc, threaded_append] at h ⊢
  obtain ⟨l, hx, h⟩ := h
  obtain ⟨u, hm, hy⟩ := threaded_append.1 h
  exact ⟨l, hx.congr fun d hd => hsame d (Or.inl hd),
    threaded_append.2 ⟨u, hmid l u hm, hy.congr fun d hd => hsame d (Or.inr hd)⟩⟩

/-! ### Free blocks -/

/-- No two free blocks follow one another. -/
def Spaced (bs : List Blk) : Prop := bs.IsChain fun b d => b.free = false ∨ d.free = false

/-- A used block may stand anywhere. -/
theorem Spaced.insert (hx : Spaced xs) (hy : Spaced ys) (hused : b.free = false) :
    Spaced (xs ++ b :: ys) := by
  refine List.isChain_append.2 ⟨hx, List.isChain_cons.2 ⟨fun d _ => Or.inl hused, hy⟩, ?_⟩
  intro d _ e he
  obtain rfl : b = e := by simpa using he
  exact Or.inr hused

theorem Spaced.left (h : Spaced (xs ++ ys)) : Spaced xs := (List.isChain_append.1 h).1

theorem Spaced.right (h : Spaced (xs ++ ys)) : Spaced ys := (List.isChain_append.1 h).2.1

/-- Only whether a block is free matters. -/
theorem Spaced.replace_head (h : Spaced (b :: ys)) (heq : d.free = b.free) : Spaced (d :: ys) := by
  obtain ⟨hhead, hy⟩ := List.isChain_cons.1 h
  exact List.isChain_cons.2 ⟨fun e he => heq ▸ hhead e he, hy⟩

/-- What follows a block may be replaced, and the block by one that is free when it is. -/
theorem Spaced.replace_tail {ys' : List Blk} (h : Spaced (xs ++ b :: ys)) (hy : Spaced (d :: ys'))
    (heq : d.free = b.free) : Spaced (xs ++ d :: ys') := by
  obtain ⟨hx, -, hjoin⟩ := List.isChain_append.1 h
  refine List.isChain_append.2 ⟨hx, hy, fun e he f hf => ?_⟩
  obtain rfl : d = f := by simpa using hf
  rw [heq]
  exact hjoin e he b rfl

/-- The block takes the free blocks that follow it. -/
def absorb (c : Nat) (b : Blk) : List Blk → List Blk
  | [] => [b]
  | d :: ds =>
      if d.free then absorb c { b with size := b.size + (c + d.size) } ds else b :: d :: ds

theorem absorb_head (c : Nat) (b : Blk) (ds : List Blk) :
    ∃ b' ds', absorb c b ds = b' :: ds' ∧ b'.addr = b.addr ∧ b'.free = b.free := by
  induction ds generalizing b with
  | nil => exact ⟨b, [], rfl, rfl, rfl⟩
  | cons d ds ih =>
      unfold absorb
      split
      · exact ih _
      · exact ⟨b, d :: ds, rfl, rfl, rfl⟩

theorem Laid.absorb {ds : List Blk} (h : Laid c lo hi (b :: ds)) :
    Laid c lo hi (absorb c b ds) := by
  induction ds generalizing b with
  | nil => exact h
  | cons d ds ih =>
      unfold BlockList.absorb
      split
      · obtain ⟨hb, hd, htail⟩ := h
        exact ih ⟨hb, htail.mono (by dsimp only; omega) le_rfl⟩
      · exact h

/-- Used blocks are left alone. -/
theorem mem_absorb {ds : List Blk} (hd : d ∈ ds) (hused : d.free = false) :
    d ∈ absorb c b ds := by
  induction ds generalizing b with
  | nil => exact absurd hd List.not_mem_nil
  | cons e ds ih =>
      unfold absorb
      split
      · rename_i hfree
        refine ih ((List.mem_cons.1 hd).resolve_left ?_)
        rintro rfl
        rw [hused] at hfree
        cases hfree
      · exact List.mem_cons_of_mem _ hd

/-- The block that has absorbed what follows has a used block behind it. -/
theorem Spaced.absorb {ds : List Blk} (h : Spaced ds) : Spaced (absorb c b ds) := by
  induction ds generalizing b with
  | nil => exact List.isChain_singleton b
  | cons d ds ih =>
      unfold BlockList.absorb
      split
      · exact ih (List.IsChain.tail h)
      · rename_i hused
        exact List.isChain_cons_cons.2 ⟨Or.inr (Bool.eq_false_iff.2 hused), h⟩

end BlockList

/-!
## Spans of addresses

A memory manager that never moves anything hands out spans of addresses that do not
meet. The order in which they were handed out need not be the order of the addresses.
-/

namespace Spans

/-- The addresses from `addr` on, `size` of them. -/
structure Span where
  addr : Nat
  size : Nat
  deriving DecidableEq, Repr

/-- Two spans do not meet. -/
def Apart (x y : Span) : Prop := x.addr + x.size ≤ y.addr ∨ y.addr + y.size ≤ x.addr

variable {x y : Span} {xs : List Span}

instance : Std.Symm Apart := ⟨fun _ _ h => Or.symm h⟩

theorem apart_of_mem (h : xs.Pairwise Apart) (hx : x ∈ xs) (hy : y ∈ xs) (hne : x ≠ y) :
    Apart x y :=
  h.forall hx hy hne

/-- Among spans that do not meet the address determines the span. -/
theorem eq_of_addr (h : xs.Pairwise Apart) (hpos : ∀ z ∈ xs, 0 < z.size) (hx : x ∈ xs)
    (hy : y ∈ xs) (haddr : x.addr = y.addr) : x = y := by
  by_contra hne
  have hxp := hpos x hx
  have hyp := hpos y hy
  rcases apart_of_mem h hx hy hne with hap | hap <;> omega

end Spans
