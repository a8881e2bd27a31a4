import FiFi.Library.RadixForest
import FiFi.Pmm.Invariant
import FiFi.Vmm.PageTable

/-!
# The forest of page tables

The page maps of all processes form a forest in physical memory. A position is
a root with a path of at most four indices; the paths of length four end at
the entries of frames. A user root has its lower half in the forest. Of the
kernel's own root only chosen slots are in it, whose tables come from the page
allocator.

`VmmInv D s L H` is the invariant: different positions lead to different pages,
all of these pages were handed out by the allocator, and so were the pages of
`H`, which are in use but not linked into the forest. An operation on the page
map at `r` works on the free pages, the pages of the forest below `r` and the
pages held. `Change` says that these sets together stay the same and that
nothing is written elsewhere. All operations are built from the few steps
described at the end.
-/

namespace FiFi.Vmm

open Pmm LinkedList RadixForest

/-! ### Addresses and entries -/

theorem ptePage_mod (e : Nat) : ptePage e % pageSize = 0 := by
  simp [ptePage]

theorem ptePage_lt (e : Nat) : ptePage e < 2 ^ 52 := by
  simp only [ptePage, pageSize]
  omega

theorem ptePage_of_page {p : Nat} (hmod : p % pageSize = 0) (hlt : p < 2 ^ 52) :
    ptePage p = p := by
  simp only [ptePage, pageSize] at *
  omega

theorem alignDown_entry {t i : Nat} (ht : t % pageSize = 0) (hi : i < 512) :
    alignDown (t + 8 * i) = t := by
  simp only [alignDown, pageSize] at *
  omega

theorem index_entry {t i : Nat} (ht : t % pageSize = 0) (hi : i < 512) :
    (t + 8 * i) % pageSize / 8 = i := by
  simp only [pageSize] at *
  omega

theorem entry_ne {t i t' i' : Nat} (ht : t % pageSize = 0) (ht' : t' % pageSize = 0)
    (hi : i < 512) (hi' : i' < 512) (h : t ≠ t' ∨ i ≠ i') : t + 8 * i ≠ t' + 8 * i' := by
  simp only [pageSize] at *
  omega

@[simp]
theorem withMem_mem (s : VmmState) (mem : Nat → Nat) : (s.withMem mem).mem = mem := rfl

@[simp]
theorem setEntry_mem (s : VmmState) (t i e : Nat) :
    (s.setEntry t i e).mem = Function.update s.mem (t + 8 * i) e := rfl

/-- The present entry in a slot. -/
def link (mem : Nat → Nat) (t i : Nat) : Option Nat :=
  if present (entry mem t i) then some (entry mem t i) else none

/-- The entry at the end of a path; the root stands for itself. -/
def look (mem : Nat → Nat) (r : Nat) (π : List Nat) : Option Nat :=
  walk ptePage (link mem) r π

theorem link_congr {mem mem' : Nat → Nat} {t i : Nat} (h : mem' (t + 8 * i) = mem (t + 8 * i)) :
    link mem' t i = link mem t i := by
  unfold link entry
  rw [h]

theorem link_some {mem : Nat → Nat} {t i e : Nat} :
    link mem t i = some e ↔ present e ∧ entry mem t i = e := by
  unfold link
  split
  · next hp =>
      constructor
      · rintro ⟨rfl⟩
        exact ⟨hp, rfl⟩
      · rintro ⟨-, rfl⟩
        rfl
  · next hp =>
      constructor
      · intro h
        simp at h
      · rintro ⟨he, rfl⟩
        exact absurd he hp

theorem link_none {mem : Nat → Nat} {t i : Nat} :
    link mem t i = none ↔ ¬ present (entry mem t i) := by
  simp [link]

@[simp]
theorem look_nil (mem : Nat → Nat) (r : Nat) : look mem r [] = some r := rfl

theorem look_append (mem : Nat → Nat) (r : Nat) (π σ : List Nat) :
    look mem r (π ++ σ) = (look mem r π).bind fun e => look mem e σ :=
  walk_append r π σ

theorem look_snoc (mem : Nat → Nat) (r : Nat) (π : List Nat) (i : Nat) :
    look mem r (π ++ [i]) = (look mem r π).bind fun e => link mem (ptePage e) i :=
  walk_snoc r π i

/-! ### Positions -/

/-- The roots whose tables are tracked: the page maps of processes, and the
slots `slots` of the kernel's own root. -/
structure Domain where
  user : Set Nat
  kernel : Nat
  slots : Set Nat
  kernel_not_user : kernel ∉ user

/-- The PML4 slots of a root that are in the forest. -/
def Domain.slotsOf (D : Domain) (r : Nat) : Set Nat :=
  {i | i < 512 ∧ ((r ∈ D.user ∧ i < 256) ∨ (r = D.kernel ∧ i ∈ D.slots))}

theorem user_slot {D : Domain} {r i : Nat} (hr : r ∈ D.user) (hi : i < 256) :
    i ∈ D.slotsOf r := ⟨by omega, Or.inl ⟨hr, hi⟩⟩

theorem not_user_slot {D : Domain} {r i : Nat} (hr : r ∈ D.user) (hi : 256 ≤ i) :
    i ∉ D.slotsOf r := by
  rintro ⟨-, ⟨-, hlt⟩ | ⟨rfl, -⟩⟩
  · omega
  · exact D.kernel_not_user hr

/-- The positions of the forest. -/
def Pos (D : Domain) (r : Nat) (π : List Nat) : Prop :=
  (r ∈ D.user ∨ r = D.kernel) ∧ π.length ≤ 4 ∧ (∀ i ∈ π, i < 512) ∧
    ∀ i ∈ π.head?, i ∈ D.slotsOf r

theorem pos_prefixClosed (D : Domain) : PrefixClosed (Pos D) := by
  rintro r π i ⟨hr, hlen, hlt, hhead⟩
  refine ⟨hr, ?_, fun j hj => hlt j (by simp [hj]), fun j hj => hhead j ?_⟩
  · simp only [List.length_append, List.length_singleton] at hlen
    omega
  · cases π with
    | nil => simp at hj
    | cons a π => simpa using hj

theorem Pos.index_lt {D : Domain} {r : Nat} {π : List Nat} {i : Nat} (h : Pos D r (π ++ [i])) :
    i < 512 := h.2.2.1 i (by simp)

theorem Pos.length_lt {D : Domain} {r : Nat} {π : List Nat} {i : Nat} (h : Pos D r (π ++ [i])) :
    π.length < 4 := by
  have := h.2.1
  simp only [List.length_append, List.length_singleton] at this
  omega

theorem Pos.init {D : Domain} {r : Nat} {π : List Nat} {i : Nat} (h : Pos D r (π ++ [i])) :
    Pos D r π := pos_prefixClosed D r π i h

theorem Pos.snoc {D : Domain} {r : Nat} {π : List Nat} (h : Pos D r π) (hne : π ≠ [])
    (hlen : π.length < 4) {i : Nat} (hi : i < 512) : Pos D r (π ++ [i]) := by
  refine ⟨h.1, by simp; omega, ?_, ?_⟩
  · intro j hj
    rcases List.mem_append.1 hj with hj | hj
    · exact h.2.2.1 j hj
    · rw [List.mem_singleton.1 hj]
      exact hi
  · obtain ⟨a, π, rfl⟩ := List.exists_cons_of_ne_nil hne
    intro j hj
    exact h.2.2.2 j (by simpa using hj)

theorem pos_nil {D : Domain} {r : Nat} (hr : r ∈ D.user ∨ r = D.kernel) : Pos D r [] :=
  ⟨hr, by simp, by simp, by simp⟩

theorem pos_singleton {D : Domain} {r i : Nat} (hr : r ∈ D.user ∨ r = D.kernel)
    (hi : i ∈ D.slotsOf r) : Pos D r [i] := by
  refine ⟨hr, by simp, ?_, ?_⟩
  · intro j hj
    rw [List.mem_singleton.1 hj]
    exact hi.1
  · intro j hj
    obtain rfl : i = j := by simpa using hj
    exact hi

/-! ### The invariant -/

/-- A page that the allocator gave out. -/
def HandedOut (s : PmmState) (L : List Nat) (p : Nat) : Prop :=
  p % pageSize = 0 ∧ minPhys ≤ p ∧ p + pageSize ≤ s.stop ∧ p ∉ freeSet s L

/-- An entry of a table of tables, as `ensure_table` writes it. -/
def TableEntry (e : Nat) : Prop := e = ptePage e + 3 ∨ e = ptePage e + 7

structure VmmInv (D : Domain) (s : VmmState) (L : List Nat) (H : Set Nat) : Prop where
  pmm : PmmInv s.pmm L
  stop_le : s.pmm.stop ≤ 2 ^ 52
  apart : Apart ptePage (link s.mem) (Pos D)
  root : ∀ r, r ∈ D.user ∨ r = D.kernel → ptePage r = r
  tables : ∀ r π e, Pos D r π → π ≠ [] → π.length ≤ 3 → look s.mem r π = some e → TableEntry e
  used : ∀ r π e, Pos D r π → r ∈ D.user ∨ π ≠ [] → look s.mem r π = some e →
    HandedOut s.pmm L (ptePage e)
  kernel : D.kernel ∉ freeSet s.pmm L
  held : ∀ p ∈ H, HandedOut s.pmm L p
  held_apart : ∀ r π e, Pos D r π → look s.mem r π = some e → ptePage e ∉ H

/-- The pages of the forest below a root. -/
def tree (D : Domain) (mem : Nat → Nat) (r : Nat) : Set Nat :=
  {p | ∃ π e, Pos D r π ∧ look mem r π = some e ∧ p = ptePage e}

/-- What an operation on the page map at `r` works on. -/
def region (D : Domain) (s : VmmState) (L : List Nat) (H : Set Nat) (r : Nat) : Set Nat :=
  freeSet s.pmm L ∪ tree D s.mem r ∪ H

/-- The words such an operation may write: those of the pages of the region, of
the root only the slots in the forest. -/
def Writable (D : Domain) (r : Nat) (R : Set Nat) (w : Nat) : Prop :=
  alignDown w ∈ R ∧ (alignDown w = r → w % pageSize / 8 ∈ D.slotsOf r)

/-- What every operation on the page map at `r` keeps. -/
structure Change (D : Domain) (r : Nat) (s : VmmState) (L : List Nat) (H : Set Nat)
    (s' : VmmState) (L' : List Nat) (H' : Set Nat) : Prop where
  inv : VmmInv D s' L' H'
  cr3 : s'.cr3 = s.cr3
  kernelCr3 : s'.kernelCr3 = s.kernelCr3
  stop : s'.pmm.stop = s.pmm.stop
  region : region D s' L' H' r = region D s L H r
  frame : ∀ w, ¬ Writable D r (Vmm.region D s L H r) w → s'.mem w = s.mem w

theorem Change.refl {D : Domain} {r : Nat} {s : VmmState} {L : List Nat} {H : Set Nat}
    (h : VmmInv D s L H) : Change D r s L H s L H :=
  ⟨h, rfl, rfl, rfl, rfl, fun _ _ => rfl⟩

theorem Change.trans {D : Domain} {r : Nat} {s s' s'' : VmmState} {L L' L'' : List Nat}
    {H H' H'' : Set Nat} (h : Change D r s L H s' L' H') (h' : Change D r s' L' H' s'' L'' H'') :
    Change D r s L H s'' L'' H'' where
  inv := h'.inv
  cr3 := h'.cr3.trans h.cr3
  kernelCr3 := h'.kernelCr3.trans h.kernelCr3
  stop := h'.stop.trans h.stop
  region := h'.region.trans h.region
  frame := fun w hw => by
    have hw' : ¬ Writable D r (Vmm.region D s' L' H' r) w := by rwa [h.region]
    rw [h'.frame w hw', h.frame w hw]

namespace VmmInv

variable {D : Domain} {s : VmmState} {L : List Nat} {H : Set Nat}

theorem not_free (h : VmmInv D s L H) {r : Nat} {π : List Nat} {e : Nat} (hπ : Pos D r π)
    (he : look s.mem r π = some e) : ptePage e ∉ freeSet s.pmm L := by
  by_cases hroot : r ∈ D.user ∨ π ≠ []
  · exact (h.used r π e hπ hroot he).2.2.2
  · rw [not_or, not_not] at hroot
    obtain ⟨hr, rfl⟩ := hroot
    obtain rfl : r = e := Option.some.inj he
    obtain rfl : r = D.kernel := hπ.1.resolve_left hr
    rw [h.root _ (Or.inr rfl)]
    exact h.kernel

/-- Tables of another root lie outside the region. -/
theorem not_mem_region (h : VmmInv D s L H) {r r' : Nat} (hne : r' ≠ r) {π : List Nat} {e : Nat}
    (hπ : Pos D r' π) (he : look s.mem r' π = some e) :
    ptePage e ∉ Vmm.region D s L H r := by
  rintro ((hfree | ⟨σ, e', hσ, he', hp⟩) | hheld)
  · exact h.not_free hπ he hfree
  · exact hne (h.apart r' π r σ e e' hπ hσ he he' hp).1
  · exact h.held_apart r' π e hπ he hheld

end VmmInv

/-- The tables of the other roots are not touched. -/
theorem Change.look_other {D : Domain} {r : Nat} {s s' : VmmState} {L L' : List Nat}
    {H H' : Set Nat} (h : VmmInv D s L H) (hc : Change D r s L H s' L' H') {r' : Nat}
    (hne : r' ≠ r) {π : List Nat} (hπ : Pos D r' π) : look s'.mem r' π = look s.mem r' π := by
  refine walk_congr (P := fun a σ => a = r' ∧ Pos D a σ) ?_ ?_ ⟨rfl, hπ⟩
  · rintro a σ i ⟨rfl, hσ⟩
    exact ⟨rfl, hσ.init⟩
  · rintro a σ i e ⟨rfl, hσ⟩ he
    refine link_congr (hc.frame _ fun hw => ?_)
    rw [Writable, alignDown_entry (ptePage_mod e) hσ.index_lt] at hw
    exact h.not_mem_region hne hσ.init he hw.1

/-- The upper half of the root of a process is not touched. -/
theorem Change.entry_upper {D : Domain} {r i : Nat} {s s' : VmmState} {L L' : List Nat}
    {H H' : Set Nat} (h : VmmInv D s L H) (hc : Change D r s L H s' L' H') (hr : r ∈ D.user)
    (hlo : 256 ≤ i) (hhi : i < 512) : entry s'.mem r i = entry s.mem r i := by
  have hmod : r % pageSize = 0 := by
    rw [← h.root r (Or.inl hr)]
    exact ptePage_mod r
  refine hc.frame _ fun hw => ?_
  have hslot := hw.2 (alignDown_entry hmod hhi)
  rw [index_entry hmod hhi] at hslot
  exact not_user_slot hr hlo hslot

end FiFi.Vmm
