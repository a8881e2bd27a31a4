import FiFi.Fd.Table
import FiFi.Library.StateMachine
import Mathlib.Algebra.BigOperators.Group.Finset.Basic
import Mathlib.Algebra.BigOperators.Group.Finset.Piecewise
import Mathlib.Tactic

/-!
# Pipe reference counts

A pipe is released when both its counts are zero, so each count has to be the
number of descriptor entries of its kind. The difference between the two is the
`excess` of an end of a pipe; the counts are exact when every excess is zero.

Every operation is a sequence of slot assignments (`setFd`) and count updates
(`addOpen`), and each of these changes the excess by the `weight` or the `mark`
of the entry involved. The lemmas on the single operations are sums of these
changes. Two operations do not balance: `SYS_DUP` copies an entry without
counting it, and `SYS_PIPE` keeps the write count when only one slot is free.
-/

namespace FiFi.Fd

open StateMachine

/-- The two ends of a pipe. -/
inductive PipeEnd
  | read
  | write
  deriving DecidableEq, Repr

/-- The descriptor type of a pipe end. -/
def PipeEnd.type : PipeEnd → FdType
  | .read => .pipeR
  | .write => .pipeW

/-- The count a pipe keeps for one of its ends. -/
def Pipe.live (q : Pipe) : PipeEnd → Int
  | .read => q.ropen
  | .write => q.wopen

variable {V : Type*}

/-- The number of used entries that refer to the end `t` of the pipe `p`. -/
def endCount (s : Tables V) (t : PipeEnd) (p : PipeId) : Nat :=
  (Finset.univ.filter fun i =>
    (s.fds i).used = true ∧ (s.fds i).type = t.type ∧ (s.fds i).pipe = some p).card

/-- Every pipe counts its read ends and its write ends exactly. -/
def PipeCountsExact (s : Tables V) : Prop :=
  ∀ p, (s.pipes p).ropen = endCount s .read p ∧ (s.pipes p).wopen = endCount s .write p

/-- Whether the entry, used or not, names the end `t` of `p`. -/
def mark (e : SysFd) (t : PipeEnd) (p : PipeId) : Int :=
  if e.type = t.type ∧ e.pipe = some p then 1 else 0

/-- What the entry contributes to the number of ends `t` of `p`. -/
def weight (e : SysFd) (t : PipeEnd) (p : PipeId) : Int :=
  if e.used then mark e t p else 0

/-- How far the count of an end is above the number of its entries. -/
def excess (s : Tables V) (t : PipeEnd) (p : PipeId) : Int :=
  (s.pipes p).live t - endCount s t p

theorem pipeCountsExact_iff (s : Tables V) :
    PipeCountsExact s ↔ ∀ t p, excess s t p = 0 := by
  constructor
  · rintro h (_ | _) p
    · simp [excess, Pipe.live, (h p).1]
    · simp [excess, Pipe.live, (h p).2]
  · intro h p
    have hr := h .read p
    have hw := h .write p
    simp only [excess, Pipe.live] at hr hw
    omega

/-! ### The ledger -/

theorem endCount_eq_sum (s : Tables V) (t : PipeEnd) (p : PipeId) :
    (endCount s t p : Int) = ∑ i, weight (s.fds i) t p := by
  rw [endCount, Finset.card_filter, Nat.cast_sum]
  apply Finset.sum_congr rfl
  intro i _
  cases hu : (s.fds i).used <;> simp [weight, mark, hu]

theorem endCount_setFd (s : Tables V) (i : Slot) (e : SysFd) (t : PipeEnd) (p : PipeId) :
    (endCount (setFd s i e) t p : Int) =
      endCount s t p - weight (s.fds i) t p + weight e t p := by
  have hupd : (fun j => weight ((setFd s i e).fds j) t p) =
      Function.update (fun j => weight (s.fds j) t p) i (weight e t p) := by
    funext j
    by_cases hj : j = i
    · subst hj
      simp [setFd]
    · simp [setFd, hj]
  have hsum := Finset.sum_update_of_mem (Finset.mem_univ i)
    (fun j => weight (s.fds j) t p) (weight e t p)
  have hsplit := Finset.sum_sdiff (Finset.subset_univ {i})
    (f := fun j => weight (s.fds j) t p)
  rw [endCount_eq_sum, endCount_eq_sum, hupd, hsum]
  simp only [Finset.sum_singleton] at hsplit
  omega

@[simp] theorem weight_zero (t : PipeEnd) (p : PipeId) : weight SysFd.zero t p = 0 := rfl

theorem weight_of_unused {e : SysFd} (h : e.used = false) (t : PipeEnd) (p : PipeId) :
    weight e t p = 0 := by
  simp [weight, h]

theorem weight_of_used {e : SysFd} (h : e.used = true) (t : PipeEnd) (p : PipeId) :
    weight e t p = mark e t p := by
  simp [weight, h]

theorem excess_setFd (s : Tables V) (i : Slot) (e : SysFd) (t : PipeEnd) (p : PipeId) :
    excess (setFd s i e) t p = excess s t p + weight (s.fds i) t p - weight e t p := by
  have hcount := endCount_setFd s i e t p
  have hpipes : (setFd s i e).pipes = s.pipes := rfl
  simp only [excess, hpipes]
  omega

@[simp] theorem endCount_setPipe (s : Tables V) (p : PipeId) (q : Pipe) (t : PipeEnd)
    (p' : PipeId) : endCount (setPipe s p q) t p' = endCount s t p' := rfl

theorem excess_setPipe (s : Tables V) (p : PipeId) (q : Pipe) (t : PipeEnd) (p' : PipeId) :
    excess (setPipe s p q) t p' =
      if p' = p then q.live t - endCount s t p else excess s t p' := by
  by_cases h : p' = p
  · subst h
    rw [if_pos rfl, excess, endCount_setPipe]
    simp [setPipe]
  · rw [if_neg h, excess, endCount_setPipe, excess]
    simp [setPipe, h]

theorem excess_addOpen (s : Tables V) (e : SysFd) (d : Int) (t : PipeEnd) (p : PipeId) :
    excess (addOpen s e d) t p = excess s t p + d * mark e t p := by
  obtain ⟨used, fdNum, tid, type, data, size, off, pipe, ram⟩ := e
  cases pipe with
  | none => cases type <;> simp [addOpen, mark]
  | some q =>
      by_cases hq : p = q
      · subst hq
        cases type <;> cases t <;>
          simp only [addOpen, excess_setPipe, mark, PipeEnd.type, if_true, and_true,
            reduceCtorEq, if_false, mul_one, mul_zero, add_zero] <;>
          simp only [excess, Pipe.live] <;> omega
      · have hq' : q ≠ p := fun h => hq h.symm
        cases type <;> simp [addOpen, excess_setPipe, mark, hq, hq']

@[simp] theorem addOpen_fds (s : Tables V) (e : SysFd) (d : Int) :
    (addOpen s e d).fds = s.fds := by
  unfold addOpen
  split <;> rfl

@[simp] theorem setFd_fds_same (s : Tables V) (i : Slot) (e : SysFd) :
    (setFd s i e).fds i = e := by
  simp [setFd]

theorem setFd_fds_ne (s : Tables V) {i j : Slot} (e : SysFd) (h : j ≠ i) :
    (setFd s i e).fds j = s.fds j := by
  simp [setFd, h]

@[simp] theorem setPipe_fds (s : Tables V) (p : PipeId) (q : Pipe) :
    (setPipe s p q).fds = s.fds := rfl

/-! ### Lookups -/

theorem freeSlot_some {s : Tables V} {i : Slot} (h : freeSlot s = some i) :
    (s.fds i).used = false := by
  simpa using List.find?_some h

theorem freeSlot_none_iff (s : Tables V) :
    freeSlot s = none ↔ ∀ i, (s.fds i).used = true := by
  simp [freeSlot]

theorem fdGet_some {s : Tables V} {tid : Nat} {n : Int} {i : Slot}
    (h : fdGet s tid n = some i) :
    (s.fds i).used = true ∧ (s.fds i).ownerTid = tid ∧ (s.fds i).fdNum = n := by
  have hi := List.find?_some h
  simp only [Bool.and_eq_true, beq_iff_eq] at hi
  exact ⟨hi.1.1, hi.1.2, hi.2⟩

/-- The table has fewer slots than there are descriptor numbers to choose from,
so a thread never runs out of numbers. -/
theorem fdNextNum_isSome (s : Tables V) (tid : Nat) : ∃ n, fdNextNum s tid = some n := by
  rw [← Option.ne_none_iff_exists']
  intro hnone
  have hall : ∀ n ∈ Finset.Icc (3 : Int) 255, ∃ i : Slot, (s.fds i).fdNum = n := by
    intro n hn
    rw [Finset.mem_Icc] at hn
    have hmem : n ∈ (List.range' 3 253).map Int.ofNat := by
      refine List.mem_map.2 ⟨n.toNat, List.mem_range'_1.2 (by omega), ?_⟩
      simp only [Int.ofNat_eq_natCast]
      omega
    have hsome := List.find?_eq_none.1 hnone n hmem
    obtain ⟨i, hi⟩ := Option.ne_none_iff_exists'.1 (by simpa using hsome)
    exact ⟨i, (fdGet_some hi).2.2⟩
  have hsub : Finset.Icc (3 : Int) 255 ⊆ Finset.univ.image fun i : Slot => (s.fds i).fdNum := by
    intro n hn
    obtain ⟨i, hi⟩ := hall n hn
    exact Finset.mem_image.2 ⟨i, Finset.mem_univ i, hi⟩
  have hcard := (Finset.card_le_card hsub).trans Finset.card_image_le
  simp [sysFdMax] at hcard

/-! ### Operations that balance -/

section Balance

variable (flush : RamId → V → V)

theorem excess_fdCloseEntry {s : Tables V} {i : Slot} (h : (s.fds i).used = true)
    (t : PipeEnd) (p : PipeId) :
    excess (fdCloseEntry flush s i) t p = excess s t p := by
  have hvfs : ∀ (s' : Tables V) (v : V), excess { s' with vfs := v } t p = excess s' t p :=
    fun _ _ => rfl
  unfold fdCloseEntry
  dsimp only
  rw [excess_setFd, weight_zero]
  split
  · rw [hvfs, addOpen_fds, excess_addOpen, weight_of_used h]
    omega
  · rw [addOpen_fds, excess_addOpen, weight_of_used h]
    omega

theorem fdCloseEntry_fds (s : Tables V) (i : Slot) :
    (fdCloseEntry flush s i).fds = Function.update s.fds i SysFd.zero := by
  unfold fdCloseEntry
  dsimp only
  split <;> simp [setFd]

theorem excess_fdClose (s : Tables V) (tid : Nat) (n : Int) (t : PipeEnd) (p : PipeId) :
    excess (fdClose flush s tid n) t p = excess s t p := by
  unfold fdClose
  split
  · next i hi => exact excess_fdCloseEntry flush (fdGet_some hi).1 t p
  · rfl

/-- A loop over the slots keeps the excess if each turn does. -/
theorem excess_foldl {f : Tables V → Slot → Tables V} {t : PipeEnd} {p : PipeId}
    (hf : ∀ s i, excess (f s i) t p = excess s t p) (l : List Slot) (s : Tables V) :
    excess (l.foldl f s) t p = excess s t p := by
  induction l generalizing s with
  | nil => rfl
  | cons i l ih => rw [List.foldl_cons, ih, hf]

theorem excess_fdCloseAll (s : Tables V) (tid : Nat) (t : PipeEnd) (p : PipeId) :
    excess (fdCloseAll flush s tid) t p = excess s t p := by
  apply excess_foldl
  intro s i
  split
  · next h =>
      rw [Bool.and_eq_true] at h
      exact excess_fdCloseEntry flush h.1 t p
  · rfl

theorem excess_fdInheritEntry (parent child : Nat) (s : Tables V) (i : Slot)
    (t : PipeEnd) (p : PipeId) :
    excess (fdInheritEntry parent child s i) t p = excess s t p := by
  unfold fdInheritEntry
  split
  · next h =>
      rw [Bool.and_eq_true] at h
      split
      · next j hj =>
          have hcopy : weight { s.fds i with ownerTid := child } t p = mark (s.fds i) t p :=
            weight_of_used h.1 t p
          rw [excess_addOpen, excess_setFd, hcopy, weight_of_unused (freeSlot_some hj)]
          omega
      · rfl
  · rfl

theorem excess_sysFork (s : Tables V) (parent : Nat) (child : Int) (t : PipeEnd) (p : PipeId) :
    excess (sysFork s parent child).1 t p = excess s t p := by
  unfold sysFork
  dsimp only
  split
  · exact excess_foldl (fun s i => excess_fdInheritEntry parent _ s i t p) _ s
  · rfl

/-- `dup2` balances for every pair of numbers. When closing `new` has closed
`old` as well, the copied entry is the zeroed one and stands for no end. -/
theorem excess_fdDup2 (s : Tables V) (tid : Nat) (old new : Int) (t : PipeEnd) (p : PipeId) :
    excess (fdDup2 flush s tid old new).1 t p = excess s t p := by
  unfold fdDup2
  split
  · rfl
  · next k hk =>
      dsimp only
      have hclose := excess_fdClose flush s tid new t p
      have hkeep : ((fdClose flush s tid new).fds k).used = true ∨
          (fdClose flush s tid new).fds k = SysFd.zero := by
        unfold fdClose
        split
        · next j _ =>
            rw [fdCloseEntry_fds]
            by_cases hj : k = j
            · right
              simp [hj]
            · left
              simpa [hj] using (fdGet_some hk).1
        · exact Or.inl (fdGet_some hk).1
      split
      · exact hclose
      · next i hi =>
          have hfree := freeSlot_some hi
          generalize fdClose flush s tid new = s₁ at hclose hkeep hi hfree
          have hmark : mark ((setFd s₁ i { s₁.fds k with fdNum := new }).fds k) t p =
              mark (s₁.fds k) t p := by
            by_cases hik : k = i
            · subst hik
              simp [mark]
            · rw [setFd_fds_ne _ _ hik]
          have hweight : weight { s₁.fds k with fdNum := new } t p = mark (s₁.fds k) t p := by
            rcases hkeep with hu | hz
            · exact weight_of_used hu t p
            · rw [hz]
              simp [weight, mark, SysFd.zero]
          rw [excess_addOpen, excess_setFd, hmark, hweight, weight_of_unused hfree]
          omega

theorem excess_fdFill (fill : SysFd) (hfill : ∀ t p, mark fill t p = 0) (s : Tables V) (tid : Nat)
    (t : PipeEnd) (p : PipeId) :
    excess (fdFill s tid fill).1 t p = excess s t p := by
  unfold fdFill
  split
  · rfl
  · next n _ =>
      split
      · rfl
      · next i hi =>
          have hnew : weight { fill with used := true, fdNum := n, ownerTid := tid } t p = 0 :=
            (weight_of_used rfl t p).trans (hfill t p)
          dsimp only
          rw [excess_setFd, hnew, weight_of_unused (freeSlot_some hi)]
          omega

end Balance

/-! ### Operations that may not balance -/

/-- The entry is an end of a pipe. -/
def IsPipeEnd (e : SysFd) : Prop :=
  (e.type = .pipeR ∨ e.type = .pipeW) ∧ ∃ p, e.pipe = some p

theorem isPipeEnd_iff (e : SysFd) : IsPipeEnd e ↔ ∃ t p, mark e t p ≠ 0 := by
  constructor
  · rintro ⟨hR | hW, p, hp⟩
    · exact ⟨.read, p, by simp [mark, PipeEnd.type, hR, hp]⟩
    · exact ⟨.write, p, by simp [mark, PipeEnd.type, hW, hp]⟩
  · rintro ⟨t, p, h⟩
    have hm : e.type = t.type ∧ e.pipe = some p := by
      by_contra hne
      exact h (if_neg hne)
    refine ⟨?_, p, hm.2⟩
    cases t with
    | read => exact Or.inl hm.1
    | write => exact Or.inr hm.1

/-- Some slot of the table is free. -/
def SlotFree (s : Tables V) : Prop := ∃ i, (s.fds i).used = false

/-- Exactly one slot of the table is free. -/
def OneSlotFree (s : Tables V) : Prop := ∃! i, (s.fds i).used = false

/-- Some pipe of the pool has no live end. -/
def PipeFree (s : Tables V) : Prop := ∃ p, (s.pipes p).ropen = 0 ∧ (s.pipes p).wopen = 0

theorem slotFree_iff (s : Tables V) : SlotFree s ↔ ∃ i, freeSlot s = some i := by
  rw [← Option.ne_none_iff_exists', Ne, freeSlot_none_iff, SlotFree]
  simp

theorem excess_sysDup_of_not {s : Tables V} {tid : Nat} {old : Int}
    (h : ¬ ∃ k, fdGet s tid old = some k ∧ IsPipeEnd (s.fds k) ∧ SlotFree s)
    (t : PipeEnd) (p : PipeId) :
    excess (sysDup s tid old).1 t p = excess s t p := by
  unfold sysDup
  split
  · rfl
  · next k hk =>
      split
      · rfl
      · next n _ =>
          split
          · rfl
          · next i hi =>
              have hmark : mark (s.fds k) t p = 0 := by
                by_contra hne
                exact h ⟨k, hk, (isPipeEnd_iff _).2 ⟨t, p, hne⟩, (slotFree_iff s).2 ⟨i, hi⟩⟩
              have hcopy : weight { s.fds k with fdNum := n } t p = mark (s.fds k) t p :=
                weight_of_used (fdGet_some hk).1 t p
              dsimp only
              rw [excess_setFd, hcopy, hmark, weight_of_unused (freeSlot_some hi)]
              omega

/-- Duplicating a pipe end with `SYS_DUP` leaves the count of that end one
below the number of its entries. -/
theorem excess_sysDup_of_pipeEnd {s : Tables V} {tid : Nat} {old : Int} {k : Slot}
    (hk : fdGet s tid old = some k) (hslot : SlotFree s) (t : PipeEnd) (p : PipeId) :
    excess (sysDup s tid old).1 t p = excess s t p - mark (s.fds k) t p := by
  obtain ⟨n, hn⟩ := fdNextNum_isSome s tid
  obtain ⟨i, hi⟩ := (slotFree_iff s).1 hslot
  have hcopy : weight { s.fds k with fdNum := n } t p = mark (s.fds k) t p :=
    weight_of_used (fdGet_some hk).1 t p
  simp only [sysDup, hk, hn, hi]
  rw [excess_setFd, hcopy, weight_of_unused (freeSlot_some hi)]
  omega

theorem pipeAlloc_some {s s₁ : Tables V} {p : PipeId} (h : pipeAlloc s = some (p, s₁)) :
    ((s.pipes p).ropen = 0 ∧ (s.pipes p).wopen = 0) ∧
      s₁ = setPipe s p { s.pipes p with head := 0, nread := 0, ropen := 1, wopen := 1 } := by
  obtain ⟨q, hq, hpair⟩ := Option.map_eq_some_iff.1 h
  obtain ⟨rfl, rfl⟩ := Prod.mk.inj hpair
  have hfound := List.find?_some hq
  simp only [Bool.and_eq_true, beq_iff_eq] at hfound
  exact ⟨hfound, rfl⟩

theorem pipeAlloc_none_iff (s : Tables V) : pipeAlloc s = none ↔ ¬ PipeFree s := by
  simp [pipeAlloc, PipeFree]

/-- A freshly allocated pipe counts one end of each kind that has no entry
yet. -/
theorem excess_pipeAlloc {s s₁ : Tables V} {p : PipeId} (h : pipeAlloc s = some (p, s₁))
    (t : PipeEnd) (p' : PipeId) :
    excess s₁ t p' = excess s t p' + if p' = p then 1 else 0 := by
  obtain ⟨⟨hr, hw⟩, rfl⟩ := pipeAlloc_some h
  rw [excess_setPipe]
  by_cases hp : p' = p
  · subst hp
    cases t <;> simp [excess, Pipe.live, hr, hw] <;> omega
  · simp [hp]

theorem excess_release {s : Tables V} {p : PipeId} {q : Pipe}
    (hr : q.ropen = 0) (hw : q.wopen = 0) (t : PipeEnd) (p' : PipeId) :
    excess (setPipe s p q) t p' =
      excess s t p' - if p' = p then (s.pipes p).live t else 0 := by
  rw [excess_setPipe]
  by_cases hp : p' = p
  · subst hp
    cases t <;> simp [excess, Pipe.live, hr, hw]
  · simp [hp]

theorem excess_setFd_end {s : Tables V} {i : Slot} (hi : (s.fds i).used = false)
    {e : SysFd} (t₀ : PipeEnd) (p : PipeId) (hu : e.used = true) (htype : e.type = t₀.type)
    (hpipe : e.pipe = some p) (t : PipeEnd) (p' : PipeId) :
    excess (setFd s i e) t p' = excess s t p' - if t = t₀ ∧ p' = p then 1 else 0 := by
  have hmark : mark e t p' = if t = t₀ ∧ p' = p then 1 else 0 := by
    cases t <;> cases t₀ <;> simp [mark, htype, hpipe, PipeEnd.type, eq_comm]
  rw [excess_setFd, weight_of_unused hi, weight_of_used hu, hmark]
  omega

theorem oneSlotFree_iff {s s' : Tables V} {r : Slot} {e : SysFd}
    (hr : (s.fds r).used = false) (he : e.used = true)
    (hs' : s'.fds = Function.update s.fds r e) :
    freeSlot s' = none ↔ OneSlotFree s := by
  rw [freeSlot_none_iff, hs']
  constructor
  · intro hall
    refine ⟨r, hr, fun i hi => ?_⟩
    by_contra hne
    have := hall i
    rw [Function.update_of_ne hne, hi] at this
    exact Bool.false_ne_true this
  · rintro ⟨r', _, huniq⟩ i
    by_cases hi : i = r
    · subst hi
      simpa using he
    · rw [Function.update_of_ne hi]
      by_contra hfree
      have hfree' : (s.fds i).used = false := by simpa using hfree
      exact hi ((huniq i hfree').trans (huniq r hr).symm)

/-- The change `SYS_PIPE` makes to the ledger: none, except that with exactly
one slot free the write count of the new pipe stays at one. -/
theorem excess_sysPipe (flush : RamId → V → V) (s : Tables V) (tid : Nat) (copyout : Bool)
    {p : PipeId} {s₁ : Tables V} (h₁ : pipeAlloc s = some (p, s₁)) (t : PipeEnd) (p' : PipeId) :
    (OneSlotFree s → excess (sysPipe flush s tid true copyout).1 t p' =
        excess s t p' + if t = .write ∧ p' = p then 1 else 0) ∧
      (¬ OneSlotFree s → excess (sysPipe flush s tid true copyout).1 t p' = excess s t p') := by
  have hex₁ := excess_pipeAlloc h₁ t p'
  obtain ⟨-, hs₁⟩ := pipeAlloc_some h₁
  have hfds₁ : s₁.fds = s.fds := by rw [hs₁, setPipe_fds]
  have hlive₁ : (s₁.pipes p).live t = 1 := by
    rw [hs₁]
    cases t <;> simp [setPipe, Pipe.live]
  obtain ⟨rfd, hrfd⟩ := fdNextNum_isSome s₁ tid
  simp only [sysPipe, h₁, hrfd, Bool.not_true, Bool.false_eq_true, if_false]
  cases hr : freeSlot s₁ with
  | none =>
      have hfull : ∀ i, (s.fds i).used = true := by
        rw [← hfds₁]
        exact (freeSlot_none_iff s₁).1 hr
      have hone : ¬ OneSlotFree s := fun ⟨i, hi, _⟩ =>
        Bool.false_ne_true (hi.symm.trans (hfull i))
      refine ⟨fun h => absurd h hone, fun _ => ?_⟩
      dsimp only
      rw [excess_release rfl rfl, hlive₁, hex₁]
      omega
  | some r =>
      have hrfree : (s₁.fds r).used = false := freeSlot_some hr
      dsimp only
      generalize hs₂ : setFd s₁ r
        { s₁.fds r with used := true, fdNum := rfd, ownerTid := tid } = s₂
      obtain ⟨wfd, hwfd⟩ := fdNextNum_isSome s₂ tid
      simp only [hwfd]
      -- reserving the slot and filling it is one assignment to `r`
      generalize he : ({ s₂.fds r with
        type := .pipeR, data := 0, size := 0, off := 0, pipe := some p } : SysFd) = e
      have heused : e.used = true := by simp [← he, ← hs₂]
      have hset : setFd s₂ r e = setFd s₁ r e := by simp [← hs₂, setFd]
      rw [hset]
      have hex₃ : excess (setFd s₁ r e) t p' =
          excess s₁ t p' - if t = .read ∧ p' = p then 1 else 0 :=
        excess_setFd_end hrfree .read p heused (by simp [← he, PipeEnd.type])
          (by simp [← he]) t p'
      have hone : freeSlot (setFd s₁ r e) = none ↔ OneSlotFree s :=
        oneSlotFree_iff (hfds₁ ▸ hrfree) heused (by simp [setFd, hfds₁])
      cases hw : freeSlot (setFd s₁ r e) with
      | none =>
          refine ⟨fun _ => ?_, fun h => absurd (hone.1 hw) h⟩
          have hrused : ((setFd s₁ r e).fds r).used = true := by simpa using heused
          dsimp only
          rw [excess_fdCloseEntry flush hrused, hex₃, hex₁]
          cases t <;> simp
      | some w =>
          refine ⟨fun h => absurd (hw.symm.trans (hone.2 h)) (by simp), fun _ => ?_⟩
          have hwfree := freeSlot_some hw
          have hwr : w ≠ r := by
            rintro rfl
            simp [heused] at hwfree
          dsimp only
          generalize hew : ({ (setFd s₁ r e).fds w with
            used := true, fdNum := wfd, ownerTid := tid, type := .pipeW,
            data := 0, size := 0, off := 0, pipe := some p } : SysFd) = ew
          have hewused : ew.used = true := by simp [← hew]
          have hex₄ : excess (setFd (setFd s₁ r e) w ew) t p' = excess s t p' := by
            rw [excess_setFd_end hwfree .write p hewused (by simp [← hew, PipeEnd.type])
              (by simp [← hew]), hex₃, hex₁]
            cases t <;> simp
          cases copyout with
          | true => exact hex₄
          | false =>
              have hrused : ((setFd (setFd s₁ r e) w ew).fds r).used = true := by
                rw [setFd_fds_ne _ _ (Ne.symm hwr), setFd_fds_same]
                exact heused
              have hwused :
                  ((fdCloseEntry flush (setFd (setFd s₁ r e) w ew) r).fds w).used = true := by
                rw [fdCloseEntry_fds, Function.update_of_ne hwr, setFd_fds_same]
                exact hewused
              simp only [Bool.false_eq_true, if_false]
              rw [excess_fdCloseEntry flush hwused, excess_fdCloseEntry flush hrused, hex₄]

/-! ### Runs -/

/-- The calls that keep exact counts exact. `SYS_DUP` must not be given a pipe
end while a slot is free, and `SYS_PIPE` must not be called while exactly one
slot is free and a pipe is available. -/
def KeepsCounts (s : Tables V) : FdCall → Prop
  | .dup tid old => ¬ ∃ k, fdGet s tid old = some k ∧ IsPipeEnd (s.fds k) ∧ SlotFree s
  | .pipe _ fromUser _ => ¬ (fromUser = true ∧ PipeFree s ∧ OneSlotFree s)
  | _ => True

theorem pipeCountsExact_init (v : V) : PipeCountsExact (Tables.init v) := by
  intro p
  simp [Tables.init, endCount, Pipe.zero, SysFd.zero]

theorem pipeCountsExact_congr {s s' : Tables V} (h : ∀ t p, excess s' t p = excess s t p) :
    PipeCountsExact s' ↔ PipeCountsExact s := by
  simp only [pipeCountsExact_iff, h]

theorem pipeCountsExact_sysPipe_iff (flush : RamId → V → V) {s : Tables V}
    (hs : PipeCountsExact s) (tid : Nat) (fromUser copyout : Bool) :
    PipeCountsExact (sysPipe flush s tid fromUser copyout).1 ↔
      ¬ (fromUser = true ∧ PipeFree s ∧ OneSlotFree s) := by
  cases fromUser with
  | false => simpa [sysPipe] using hs
  | true =>
      cases h₁ : pipeAlloc s with
      | none =>
          have hfree : ¬ PipeFree s := (pipeAlloc_none_iff s).1 h₁
          simpa [sysPipe, h₁, hfree] using hs
      | some ps =>
          obtain ⟨p, s₁⟩ := ps
          have hfree : PipeFree s := ⟨p, (pipeAlloc_some h₁).1⟩
          have hex := excess_sysPipe flush s tid copyout h₁
          by_cases hone : OneSlotFree s
          · have hwrite := (hex .write p).1 hone
            rw [(pipeCountsExact_iff s).1 hs] at hwrite
            refine iff_of_false (fun h => ?_) (fun h => h ⟨rfl, hfree, hone⟩)
            have hzero := (pipeCountsExact_iff _).1 h .write p
            rw [hwrite] at hzero
            simp at hzero
          · refine iff_of_true ?_ (fun h => hone h.2.2)
            exact (pipeCountsExact_congr fun t p' => (hex t p').2 hone).2 hs

theorem pipeCountsExact_sysDup_iff {s : Tables V} (hs : PipeCountsExact s) (tid : Nat)
    (old : Int) :
    PipeCountsExact (sysDup s tid old).1 ↔
      ¬ ∃ k, fdGet s tid old = some k ∧ IsPipeEnd (s.fds k) ∧ SlotFree s := by
  by_cases h : ∃ k, fdGet s tid old = some k ∧ IsPipeEnd (s.fds k) ∧ SlotFree s
  · refine iff_of_false (fun hexact => ?_) (not_not.2 h)
    obtain ⟨k, hk, hend, hslot⟩ := h
    obtain ⟨t, p, hmark⟩ := (isPipeEnd_iff _).1 hend
    have hzero := (pipeCountsExact_iff _).1 hexact t p
    rw [excess_sysDup_of_pipeEnd hk hslot, (pipeCountsExact_iff s).1 hs] at hzero
    omega
  · exact iff_of_true ((pipeCountsExact_congr (excess_sysDup_of_not h)).2 hs) h

/-- One call: from exact counts it reaches exact counts precisely when it is
one of the calls that keep them. -/
theorem pipeCountsExact_step_iff (flush : RamId → V → V) (s : Tables V) (c : FdCall)
    (hs : PipeCountsExact s) : PipeCountsExact (fdStep flush s c) ↔ KeepsCounts s c := by
  cases c with
  | pipe tid fromUser copyout => exact pipeCountsExact_sysPipe_iff flush hs tid fromUser copyout
  | dup tid old => exact pipeCountsExact_sysDup_iff hs tid old
  | dup2 tid fromUser old new =>
      refine iff_of_true ?_ trivial
      cases fromUser with
      | false => exact hs
      | true => exact (pipeCountsExact_congr (excess_fdDup2 flush s tid old new)).2 hs
  | fork tid child =>
      exact iff_of_true ((pipeCountsExact_congr (excess_sysFork s tid child)).2 hs) trivial
  | close tid fromUser n =>
      refine iff_of_true ?_ trivial
      cases fromUser with
      | false => exact hs
      | true => exact (pipeCountsExact_congr (excess_fdClose flush s tid n)).2 hs
  | exit tid =>
      exact iff_of_true ((pipeCountsExact_congr (excess_fdCloseAll flush s tid)).2 hs) trivial
  | «open» tid data size =>
      have hfill := excess_fdFill { SysFd.zero with type := .file, data := data, size := size }
        (fun t p => by simp [mark, SysFd.zero]) s tid
      exact iff_of_true ((pipeCountsExact_congr hfill).2 hs) trivial
  | openNull tid =>
      have hfill := excess_fdFill { SysFd.zero with type := .null }
        (fun t p => by simp [mark, SysFd.zero]) s tid
      exact iff_of_true ((pipeCountsExact_congr hfill).2 hs) trivial
  | creat tid rf =>
      have hfill := excess_fdFill { SysFd.zero with type := .ramw, ramfile := some rf }
        (fun t p => by simp [mark, SysFd.zero]) s tid
      exact iff_of_true ((pipeCountsExact_congr hfill).2 hs) trivial

/-- A run from boot has exact counts in every state it reaches precisely when
each of its calls keeps them. -/
theorem pipeCountsExact_run_iff (flush : RamId → V → V) (v : V) (cs : List FdCall) :
    (∀ pre, pre <+: cs → PipeCountsExact (run (fdStep flush) (Tables.init v) pre)) ↔
      AllSteps (fdStep flush) KeepsCounts (Tables.init v) cs :=
  forall_prefix_inv_iff (pipeCountsExact_step_iff flush) (pipeCountsExact_init v) cs

/-- A pipe whose read end has been duplicated with `SYS_DUP` counts one reader
but has two. -/
theorem pipeCountsExact_pipe_dup :
    ¬ PipeCountsExact (run (fdStep fun _ (v : Unit) => v) (Tables.init ())
      [.pipe 1 true true, .dup 1 3]) := by
  intro h
  have hread := (h ⟨0, by decide⟩).1
  revert hread
  decide

end FiFi.Fd
