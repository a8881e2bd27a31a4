import FiFi.Vmm.Built
import FiFi.Vmm.Hardware

/-!
# Tables below a root

An entry that maps a large page leads to no table, so the tables below a root are
those that the processor finds. The boot loader's tables are among them.

`TablesInv P r s L` is the invariant of the tables below the root `r`, at the
paths of `P`: different paths have different tables, and no table is free. It
does not look at the frames, which may be mapped anywhere and more than once. The
steps described here fill an entry, link a new table and give back an empty one.
For each of them `SlotWrite` says what else it may touch.
-/

namespace FiFi.Vmm

open Pmm LinkedList RadixForest

/-! ### Tables and paths -/

/-- The table an entry leads to. -/
def childOf (e : Nat) : Option Nat :=
  if present e && !ptePs e then some (ptePage e) else none

def child (mem : Nat → Nat) (t i : Nat) : Option Nat := childOf (entry mem t i)

/-- The table at the end of a path. -/
def tableAt (mem : Nat → Nat) (r : Nat) (π : List Nat) : Option Nat := walk id (child mem) r π

/-- Entries that differ in the user bit at most. -/
def Alike (e e' : Nat) : Prop := e / 8 = e' / 8 ∧ e % 4 = e' % 4

/-- The slots of the tables on the way to the page of an address. -/
def tablePath (v : Nat) : List Nat := [idxPml4 v, idxPdpt v, idxPd v]

/-- No entry on the path is that of a large page. -/
def NoLarge (mem : Nat → Nat) (k : Nat) (path : List Nat) : Prop :=
  ∀ σ j t, σ ++ [j] <+: path → tableAt mem k σ = some t →
    present (entry mem t j) → ptePs (entry mem t j) = false

/-- Paths of tables: with a path all paths before it, and no path is longer than
from the root to the tables of the lowest level. -/
structure TablePaths (P : List Nat → Prop) : Prop where
  nil : P []
  init : ∀ {π i}, P (π ++ [i]) → P π
  length_le : ∀ {π}, P π → π.length ≤ 3
  index_lt : ∀ {π i}, P (π ++ [i]) → i < 512

/-- The positions of the tables below the root at `k`. -/
def RootPos (P : List Nat → Prop) (k r : Nat) (π : List Nat) : Prop := r = k ∧ P π

/-! ### Entries -/

theorem childOf_some {e t : Nat} :
    childOf e = some t ↔ present e ∧ ptePs e = false ∧ ptePage e = t := by
  unfold childOf
  cases present e <;> cases ptePs e <;> simp

theorem childOf_of_not_present {e : Nat} (h : ¬ present e) : childOf e = none := by
  simp [childOf, h]

theorem Alike.refl (e : Nat) : Alike e e := ⟨rfl, rfl⟩

theorem Alike.symm {e e' : Nat} (h : Alike e e') : Alike e' e := ⟨h.1.symm, h.2.symm⟩

theorem Alike.trans {e e' e'' : Nat} (h : Alike e e') (h' : Alike e' e'') : Alike e e'' :=
  ⟨h.1.trans h'.1, h.2.trans h'.2⟩

theorem alike_or_us (e : Nat) : Alike (e ||| pteUs) e := by
  have hdiv : (e ||| pteUs) / 2 ^ 3 = e / 2 ^ 3 ||| pteUs / 2 ^ 3 := Nat.or_div_two_pow
  have hmod := Nat.or_mod_two_pow (a := e) (b := pteUs) (n := 2)
  rw [show pteUs / 2 ^ 3 = 0 from rfl, Nat.or_zero] at hdiv
  rw [show pteUs % 2 ^ 2 = 0 from rfl, Nat.or_zero] at hmod
  exact ⟨hdiv, hmod⟩

theorem Alike.present {e e' : Nat} (h : Alike e e') : present e = present e' := by
  obtain ⟨-, h4⟩ := h
  simp only [Vmm.present, decide_eq_decide]
  omega

theorem Alike.ptePage {e e' : Nat} (h : Alike e e') : ptePage e = ptePage e' := by
  obtain ⟨h8, -⟩ := h
  simp only [Vmm.ptePage, pageSize]
  omega

theorem Alike.alignDown {e e' : Nat} (h : Alike e e') : alignDown e = alignDown e' := by
  obtain ⟨h8, -⟩ := h
  simp only [Pmm.alignDown, pageSize]
  omega

theorem Alike.ptePs {e e' : Nat} (h : Alike e e') : ptePs e = ptePs e' := by
  obtain ⟨h8, -⟩ := h
  simp only [Vmm.ptePs, decide_eq_decide]
  omega

theorem Alike.childOf {e e' : Nat} (h : Alike e e') : childOf e = childOf e' := by
  simp only [Vmm.childOf, h.present, h.ptePs, h.ptePage]

theorem Alike.lt {e e' : Nat} (h : Alike e e') (hlt : e' < 2 ^ 52) : e < 2 ^ 52 := by
  obtain ⟨h8, -⟩ := h
  omega

theorem alignDown_of_lt {e : Nat} (h : e < 2 ^ 52) : alignDown e = ptePage e := by
  simp only [Pmm.alignDown, Vmm.ptePage, pageSize]
  omega

/-- The entry of a new table. -/
theorem childOf_new {p : Nat} (hmod : p % pageSize = 0) (hlt : p < 2 ^ 52) (user : Bool) :
    childOf (newTableEntry p user) = some p ∧ newTableEntry p user < 2 ^ 52 := by
  obtain ⟨hentry, hpage⟩ := tableEntry_new hmod hlt user
  refine ⟨childOf_some.2 ⟨hentry.present, hentry.not_ps, hpage⟩, ?_⟩
  rw [TableEntry, hpage] at hentry
  simp only [pageSize] at hmod
  omega

theorem update_entry_ne {mem : Nat → Nat} {t i t' j v : Nat} (ht : t % pageSize = 0)
    (ht' : t' % pageSize = 0) (hi : i < 512) (hj : j < 512) (hne : t' ≠ t ∨ j ≠ i) :
    entry (Function.update mem (t + 8 * i) v) t' j = entry mem t' j :=
  Function.update_of_ne (entry_ne ht' ht hj hi hne) _ _

theorem entry_setEntry_self (s : VmmState) (t i v : Nat) :
    entry (s.setEntry t i v).mem t i = v :=
  Function.update_self _ _ _

/-! ### Walks to tables -/

theorem TablePaths.of_prefix {P : List Nat → Prop} (hP : TablePaths P) {π σ : List Nat} (h : P σ)
    (hpre : π <+: σ) : P π := by
  obtain ⟨τ, rfl⟩ := hpre
  exact PrefixClosed.of_append (P := fun _ : Unit => P) (r := ()) (fun _ _ _ => hP.init) τ h

theorem rootPos_prefixClosed {P : List Nat → Prop} (hP : TablePaths P) (k : Nat) :
    PrefixClosed (RootPos P k) :=
  fun _ _ _ h => ⟨h.1, hP.init h.2⟩

@[simp]
theorem tableAt_nil (mem : Nat → Nat) (r : Nat) : tableAt mem r [] = some r := rfl

theorem tableAt_snoc (mem : Nat → Nat) (r : Nat) (π : List Nat) (i : Nat) :
    tableAt mem r (π ++ [i]) = (tableAt mem r π).bind fun t => child mem t i :=
  walk_snoc r π i

theorem tableAt_append (mem : Nat → Nat) (r : Nat) (π σ : List Nat) :
    tableAt mem r (π ++ σ) = (tableAt mem r π).bind fun t => tableAt mem t σ :=
  walk_append r π σ

theorem tableAt_step {mem : Nat → Nat} {r t : Nat} {π : List Nat} (ht : tableAt mem r π = some t)
    (i : Nat) : tableAt mem r (π ++ [i]) = child mem t i := by
  rw [tableAt_snoc, ht]
  rfl

theorem tableAt_singleton (mem : Nat → Nat) (r i : Nat) : tableAt mem r [i] = child mem r i :=
  tableAt_step (tableAt_nil mem r) i

/-- Below the first slot a path does not depend on the root. -/
theorem tableAt_root {mem : Nat → Nat} {r k i : Nat} (h : child mem r i = child mem k i)
    (π : List Nat) : tableAt mem r (i :: π) = tableAt mem k (i :: π) := by
  change (child mem r i).bind _ = (child mem k i).bind _
  rw [h]

/-- Nothing is below a table without entries. -/
theorem tableAt_below_empty {mem : Nat → Nat} {c j : Nat} (hempty : ¬ present (entry mem c j))
    (τ : List Nat) : tableAt mem c (j :: τ) = none := by
  change (child mem c j).bind _ = none
  rw [child, childOf_of_not_present hempty]
  rfl

theorem tableAt_next {mem : Nat → Nat} {k t i : Nat} {π path : List Nat}
    (hl : NoLarge mem k path) (hpre : π ++ [i] <+: path) (ht : tableAt mem k π = some t)
    (hp : present (entry mem t i)) :
    tableAt mem k (π ++ [i]) = some (ptePage (entry mem t i)) := by
  rw [tableAt_step ht, child]
  exact childOf_some.2 ⟨hp, hl π i t hpre ht hp, rfl⟩

/-- Giving back a page that is not free. Pages outside the zone are ignored. -/
theorem freePage_spec {s : VmmState} {L : List Nat} (h : PmmInv s.pmm L) {p : Nat}
    (hmod : p % pageSize = 0) (hp : p ∉ freeSet s.pmm L) :
    ∃ L', PmmInv (freePage s p).pmm L' ∧ freeSet (freePage s p).pmm L' ⊆ insert p (freeSet s.pmm L) ∧
      (freePage s p).pmm.stop = s.pmm.stop ∧
      ∀ w, alignDown w ≠ p → (freePage s p).mem w = s.mem w := by
  by_cases hin : minPhys ≤ p ∧ p < s.pmm.cursor
  · obtain ⟨hinv, heq⟩ := h.free hmod hin.1 hin.2 fun hL => hp (Or.inl hL)
    refine ⟨p :: L, hinv, ?_, ?_, fun w hw => ?_⟩
    · rw [freeSet_free (s := s.pmm) L (by simp [freePage, heq]) (by simp [freePage, heq])]
    · simp [freePage, heq]
    · change (pmmFreePage s.pmm p).mem w = s.mem w
      rw [heq]
      refine Function.update_of_ne ?_ _ _
      rintro rfl
      exact hw (alignDown_of_mod hmod)
  · have heq : freePage s p = s := by
      have hpmm : pmmFreePage s.pmm p = s.pmm := by
        unfold pmmFreePage
        simp only [alignDown_of_mod hmod]
        split_ifs <;> first | rfl | omega
      rw [freePage, hpmm]
    rw [heq]
    exact ⟨L, h, Set.subset_insert _ _, rfl, fun _ _ => rfl⟩

/-! ### The invariant -/

/-- The tables below a root are apart and in use. -/
structure TablesInv (P : List Nat → Prop) (r : Nat) (s : VmmState) (L : List Nat) : Prop where
  paths : TablePaths P
  pmm : PmmInv s.pmm L
  stop_le : s.pmm.stop ≤ 2 ^ 52
  root : ptePage r = r
  apart : Apart id (child s.mem) (RootPos P r)
  plain : ∀ π t i, P (π ++ [i]) → tableAt s.mem r π = some t → (child s.mem t i).isSome →
    entry s.mem t i < 2 ^ 52
  used : ∀ π t, P π → tableAt s.mem r π = some t → t ∉ freeSet s.pmm L

/-- The step wrote slot `i` of the page `t`, pages that were free, and the pages
of `X`, which it may have given back. -/
structure SlotWrite (X : Set Nat) (s : VmmState) (L : List Nat) (s' : VmmState) (L' : List Nat)
    (t i : Nat) : Prop where
  cr3 : s'.cr3 = s.cr3
  kernelCr3 : s'.kernelCr3 = s.kernelCr3
  entries : ∀ a j, a % pageSize = 0 → a ∉ freeSet s.pmm L → a ∉ X → j < 512 → (a ≠ t ∨ j ≠ i) →
    entry s'.mem a j = entry s.mem a j
  free : freeSet s'.pmm L' ⊆ freeSet s.pmm L ∪ X

theorem SlotWrite.refl (X : Set Nat) (s : VmmState) (L : List Nat) (t i : Nat) :
    SlotWrite X s L s L t i :=
  ⟨rfl, rfl, fun _ _ _ _ _ _ _ => rfl, Set.subset_union_left⟩

theorem SlotWrite.not_free {X : Set Nat} {s s' : VmmState} {L L' : List Nat} {t i p : Nat}
    (hw : SlotWrite X s L s' L' t i) (hp : p ∉ freeSet s.pmm L) (hX : p ∉ X) :
    p ∉ freeSet s'.pmm L' :=
  fun hin => (hw.free hin).elim hp hX

namespace TablesInv

variable {P : List Nat → Prop} {r : Nat} {s : VmmState} {L : List Nat} {π : List Nat} {t i : Nat}

theorem tableAt_mod (h : TablesInv P r s L) (ht : tableAt s.mem r π = some t) :
    t % pageSize = 0 := by
  induction π using List.reverseRecOn with
  | nil =>
      obtain rfl : r = t := Option.some.inj ht
      rw [← h.root]
      exact ptePage_mod _
  | append_singleton σ j _ =>
      rw [tableAt_snoc] at ht
      obtain ⟨a, -, ha⟩ := Option.bind_eq_some_iff.1 ht
      obtain ⟨-, -, rfl⟩ := childOf_some.1 ha
      exact ptePage_mod _

/-- Tables at different positions are different. -/
theorem tableAt_inj (h : TablesInv P r s L) {σ : List Nat} (hπ : P π) (hσ : P σ)
    (ht : tableAt s.mem r π = some t) (ht' : tableAt s.mem r σ = some t) : π = σ :=
  (h.apart _ π _ σ t t ⟨rfl, hπ⟩ ⟨rfl, hσ⟩ ht ht' rfl).2

theorem length_lt (h : TablesInv P r s L) (hπ : P (π ++ [i])) : π.length < 3 := by
  have := h.paths.length_le hπ
  simp only [List.length_append, List.length_singleton] at this
  omega

/-- Tables that keep their links stay where they are. -/
theorem tableAt_congr (hP : TablePaths P) {mem mem' : Nat → Nat}
    (hsame : ∀ σ j a, P (σ ++ [j]) → tableAt mem r σ = some a → child mem' a j = child mem a j)
    (hπ : P π) : tableAt mem' r π = tableAt mem r π := by
  refine walk_congr (P := RootPos P r) (rootPos_prefixClosed hP r) ?_ ⟨rfl, hπ⟩
  rintro k σ j a ⟨rfl, hσ⟩ ha
  exact hsame σ j a hσ ha

/-- The words of the free list are in free pages. -/
theorem pmm_write (hinv : PmmInv s.pmm L) {p : Nat} (hp : p ∉ freeSet s.pmm L)
    {mem' : Nat → Nat} (hmem : ∀ w, alignDown w ≠ p → mem' w = s.mem w) :
    PmmInv { s.pmm with mem := mem' } L := by
  refine hinv.congr_mem fun q hq => hmem q ?_
  rintro rfl
  rw [alignDown_of_mod (hinv.listed q hq).1] at hp
  exact hp (Or.inl hq)

/-- A store to a slot of a page in use. -/
theorem slotWrite_setEntry (hinv : PmmInv s.pmm L) (htmod : t % pageSize = 0)
    (htused : t ∉ freeSet s.pmm L) (hi : i < 512) (v : Nat) :
    PmmInv (s.setEntry t i v).pmm L ∧ SlotWrite ∅ s L (s.setEntry t i v) L t i := by
  refine ⟨pmm_write hinv htused fun w hw => Function.update_of_ne ?_ _ _, rfl, rfl, ?_,
    Set.subset_union_left⟩
  · rintro rfl
    exact hw (alignDown_entry htmod hi)
  · intro a j ha _ _ hj hne
    exact update_entry_ne htmod ha hi hj hne

/-- A step that does not write the tables. -/
theorem frame (h : TablesInv P r s L) {s' : VmmState} {L' : List Nat} (hinv : PmmInv s'.pmm L')
    (hstop : s'.pmm.stop = s.pmm.stop)
    (hfree : ∀ σ a, P σ → tableAt s.mem r σ = some a → a ∉ freeSet s'.pmm L')
    (hentry : ∀ σ a j, P σ → tableAt s.mem r σ = some a → j < 512 →
      entry s'.mem a j = entry s.mem a j) :
    TablesInv P r s' L' ∧ ∀ σ, P σ → tableAt s'.mem r σ = tableAt s.mem r σ := by
  have htable : ∀ σ, P σ → tableAt s'.mem r σ = tableAt s.mem r σ := by
    refine fun σ hσ => tableAt_congr h.paths (fun τ j a hτ ha => ?_) hσ
    exact congrArg childOf (hentry τ a j (h.paths.init hτ) ha (h.paths.index_lt hτ))
  refine ⟨⟨h.paths, hinv, by rw [hstop]; exact h.stop_le, h.root, ?_, ?_, ?_⟩, htable⟩
  · refine h.apart.mono ?_
    rintro k σ a ⟨rfl, hσ⟩ ha
    exact (htable σ hσ).symm.trans ha
  · intro σ a j hσ ha hsome
    have ha' := (htable σ (h.paths.init hσ)).symm.trans ha
    have heq := hentry σ a j (h.paths.init hσ) ha' (h.paths.index_lt hσ)
    rw [child, heq] at hsome
    rw [heq]
    exact h.plain σ a j hσ ha' hsome
  · intro σ a hσ ha
    exact hfree σ a hσ ((htable σ hσ).symm.trans ha)

/-! ### Stores to a table -/

/-- A store that leads to the same table as before, or to a frame. -/
theorem setEntry (h : TablesInv P r s L) (hπ : P π) (ht : tableAt s.mem r π = some t)
    (hi : i < 512) {v : Nat} (hv : π.length = 3 ∨ Alike v (entry s.mem t i)) :
    TablesInv P r (s.setEntry t i v) L ∧
      (∀ σ, P σ → tableAt (s.setEntry t i v).mem r σ = tableAt s.mem r σ) ∧
      SlotWrite ∅ s L (s.setEntry t i v) L t i := by
  obtain ⟨hinv, hw⟩ := slotWrite_setEntry h.pmm (h.tableAt_mod ht) (h.used π t hπ ht) hi v
  have hentry : ∀ σ a j, P σ → tableAt s.mem r σ = some a → j < 512 → (a ≠ t ∨ j ≠ i) →
      entry (s.setEntry t i v).mem a j = entry s.mem a j :=
    fun σ a j hσ ha => hw.entries a j (h.tableAt_mod ha) (h.used σ a hσ ha) (Set.notMem_empty a)
  have halike : ∀ σ j a, P (σ ++ [j]) → tableAt s.mem r σ = some a →
      Alike (entry (s.setEntry t i v).mem a j) (entry s.mem a j) := by
    intro σ j a hσ ha
    by_cases hsame : a = t ∧ j = i
    · obtain ⟨rfl, rfl⟩ := hsame
      obtain rfl := h.tableAt_inj hπ (h.paths.init hσ) ht ha
      rw [entry_setEntry_self]
      refine hv.resolve_left fun hlen => ?_
      have := h.length_lt hσ
      omega
    · rw [hentry σ a j (h.paths.init hσ) ha (h.paths.index_lt hσ) (by rwa [not_and_or] at hsame)]
      exact Alike.refl _
  have htable : ∀ σ, P σ → tableAt (s.setEntry t i v).mem r σ = tableAt s.mem r σ :=
    fun σ hσ => tableAt_congr h.paths (fun σ j a hσ ha => (halike σ j a hσ ha).childOf) hσ
  refine ⟨⟨h.paths, hinv, h.stop_le, h.root, ?_, ?_, ?_⟩, htable, hw⟩
  · refine h.apart.mono ?_
    rintro k σ a ⟨rfl, hσ⟩ ha
    exact (htable σ hσ).symm.trans ha
  · intro σ a j hσ ha hsome
    have ha' := (htable σ (h.paths.init hσ)).symm.trans ha
    have hal := halike σ j a hσ ha'
    refine hal.lt (h.plain σ a j hσ ha' ?_)
    rwa [child, ← hal.childOf]
  · intro σ a hσ ha
    exact h.used σ a hσ ((htable σ hσ).symm.trans ha)

theorem child_setEntry (h : TablesInv P r s L) (hπ : P (π ++ [i]))
    (ht : tableAt s.mem r π = some t) (v : Nat) :
    ∀ k σ j a, RootPos P r k (σ ++ [j]) → tableAt s.mem k σ = some a →
      (a ≠ t ∨ j ≠ i) → child (s.setEntry t i v).mem a j = child s.mem a j := by
  rintro k σ j a ⟨rfl, hσ⟩ ha hne
  exact congrArg childOf (update_entry_ne (h.tableAt_mod ht) (h.tableAt_mod ha)
    (h.paths.index_lt hπ) (h.paths.index_lt hσ) hne)

/-- A store to slot `i` is not felt by the paths that do not go through it. -/
theorem tableAt_setEntry (h : TablesInv P r s L) (hπ : P (π ++ [i]))
    (ht : tableAt s.mem r π = some t) (v : Nat) {σ : List Nat} (hσ : P σ)
    (hnot : ¬ π ++ [i] <+: σ) :
    tableAt (s.setEntry t i v).mem r σ = tableAt s.mem r σ := by
  have hpos : RootPos P r r (π ++ [i]) := ⟨rfl, hπ⟩
  exact walk_update (rootPos_prefixClosed h.paths r) h.apart hpos ht (h.child_setEntry hπ ht v)
    ⟨rfl, hσ⟩ (fun hc => hnot hc.2)

theorem tableAt_setEntry_through (h : TablesInv P r s L) (hπ : P (π ++ [i]))
    (ht : tableAt s.mem r π = some t) (v : Nat) (τ : List Nat) :
    tableAt (s.setEntry t i v).mem r (π ++ [i] ++ τ) =
      (childOf v).bind fun c => tableAt (s.setEntry t i v).mem c τ := by
  have hpos : RootPos P r r (π ++ [i]) := ⟨rfl, hπ⟩
  refine (walk_update_through (rootPos_prefixClosed h.paths r) h.apart hpos ht
    (h.child_setEntry hπ ht v) τ).trans ?_
  change (childOf (entry (s.setEntry t i v).mem t i)).bind _ = _
  rw [entry_setEntry_self]
  rfl

/-! ### Giving back a table -/

/-- A table that leads nowhere is unlinked. -/
theorem tableAt_clear (h : TablesInv P r s L) (hπ : P (π ++ [i]))
    (ht : tableAt s.mem r π = some t) {c : Nat} (hc : tableAt s.mem r (π ++ [i]) = some c)
    (hempty : ∀ j < 512, ¬ present (entry s.mem c j)) {σ : List Nat} (hσ : P σ) :
    tableAt (s.setEntry t i 0).mem r σ = if σ = π ++ [i] then none else tableAt s.mem r σ := by
  by_cases hpre : π ++ [i] <+: σ
  · obtain ⟨τ, rfl⟩ := hpre
    rw [h.tableAt_setEntry_through hπ ht 0 τ, show childOf 0 = none from rfl, Option.bind_none]
    cases τ with
    | nil => rw [List.append_nil, if_pos rfl]
    | cons j τ =>
        have hpre : π ++ [i] ++ [j] <+: π ++ [i] ++ j :: τ := ⟨τ, by simp⟩
        have hj : j < 512 := h.paths.index_lt (h.paths.of_prefix hσ hpre)
        rw [if_neg (by simp), tableAt_append, hc, Option.bind_some,
          tableAt_below_empty (hempty j hj)]
  · rw [h.tableAt_setEntry hπ ht 0 hσ hpre, if_neg]
    rintro rfl
    exact hpre List.prefix_rfl

/-- A table that leads nowhere is unlinked and given back. -/
theorem prune (h : TablesInv P r s L) (hπ : P (π ++ [i])) (ht : tableAt s.mem r π = some t)
    {c : Nat} (hc : tableAt s.mem r (π ++ [i]) = some c)
    (hempty : ∀ j < 512, ¬ present (entry s.mem c j)) :
    ∃ L', TablesInv P r (freePage (s.setEntry t i 0) c) L' ∧
      (∀ σ, P σ → tableAt (freePage (s.setEntry t i 0) c).mem r σ =
        if σ = π ++ [i] then none else tableAt s.mem r σ) ∧
      SlotWrite {c} s L (freePage (s.setEntry t i 0) c) L' t i := by
  have hi := h.paths.index_lt hπ
  have hcmod := h.tableAt_mod hc
  have hcfree : c ∉ freeSet s.pmm L := h.used _ c hπ hc
  have htused : t ∉ freeSet s.pmm L := h.used π t (h.paths.init hπ) ht
  obtain ⟨hset, hsetw⟩ := slotWrite_setEntry h.pmm (h.tableAt_mod ht) htused hi 0
  obtain ⟨L', hinv, hfree, hstop, hmem⟩ :=
    freePage_spec (s := s.setEntry t i 0) hset hcmod hcfree
  have hword : ∀ a j, a % pageSize = 0 → a ≠ c → j < 512 →
      entry (freePage (s.setEntry t i 0) c).mem a j = entry (s.setEntry t i 0).mem a j := by
    intro a j ha hne hj
    exact hmem _ (by rwa [alignDown_entry ha hj])
  have hw : SlotWrite {c} s L (freePage (s.setEntry t i 0) c) L' t i := by
    refine ⟨rfl, rfl, fun a j ha hfa hne hj hor => ?_, fun p hp => ?_⟩
    · rw [hword a j ha hne hj]
      exact hsetw.entries a j ha hfa (Set.notMem_empty a) hj hor
    · exact (hfree hp).elim (fun heq => Or.inr heq) Or.inl
  have htable : ∀ σ, P σ → tableAt (freePage (s.setEntry t i 0) c).mem r σ =
      if σ = π ++ [i] then none else tableAt s.mem r σ := by
    intro σ hσ
    rw [← h.tableAt_clear hπ ht hc hempty hσ]
    refine tableAt_congr h.paths (fun τ j a hτ ha => ?_) hσ
    -- the page that was given back is no table any more
    have ha' := (h.tableAt_clear hπ ht hc hempty (h.paths.init hτ)).symm.trans ha
    split at ha'
    · cases ha'
    · rename_i hne
      refine congrArg childOf (hword a j (h.tableAt_mod ha') ?_ (h.paths.index_lt hτ))
      rintro rfl
      exact hne (h.tableAt_inj (h.paths.init hτ) hπ ha' hc)
  have hsub : ∀ σ a, P σ → tableAt (freePage (s.setEntry t i 0) c).mem r σ = some a →
      tableAt s.mem r σ = some a ∧ a ≠ c := by
    intro σ a hσ ha
    rw [htable σ hσ] at ha
    split at ha
    · cases ha
    · rename_i hne
      refine ⟨ha, ?_⟩
      rintro rfl
      exact hne (h.tableAt_inj hσ hπ ha hc)
  refine ⟨L', ⟨h.paths, hinv, by rw [hstop]; exact h.stop_le, h.root, ?_, ?_, ?_⟩, htable, hw⟩
  · refine h.apart.mono ?_
    rintro k σ a ⟨rfl, hσ⟩ ha
    exact (hsub σ a hσ ha).1
  · intro σ a j hσ ha hsome
    obtain ⟨ha', hne⟩ := hsub σ a (h.paths.init hσ) ha
    have hj := h.paths.index_lt hσ
    by_cases hor : a ≠ t ∨ j ≠ i
    · have heq := hw.entries a j (h.tableAt_mod ha') (h.used σ a (h.paths.init hσ) ha') hne hj hor
      rw [child, heq] at hsome
      rw [heq]
      exact h.plain σ a j hσ ha' hsome
    · obtain ⟨rfl, rfl⟩ : a = t ∧ j = i := by
        rw [not_or, not_not, not_not] at hor
        exact hor
      rw [hword a j (h.tableAt_mod ha') hne hj, entry_setEntry_self]
      decide
  · intro σ a hσ ha
    obtain ⟨ha', hne⟩ := hsub σ a hσ ha
    exact hw.not_free (h.used σ a hσ ha') hne

/-! ### A new table -/

/-- A page that leads nowhere is linked as a table. -/
theorem tableAt_attach (h : TablesInv P r s L) (hπ : P (π ++ [i]))
    (ht : tableAt s.mem r π = some t) (hnone : tableAt s.mem r (π ++ [i]) = none) {v p : Nat}
    (hv : childOf v = some p) (hpmod : p % pageSize = 0) (hpt : p ≠ t)
    (hempty : ∀ j < 512, ¬ present (entry s.mem p j)) {σ : List Nat} (hσ : P σ) :
    tableAt (s.setEntry t i v).mem r σ = if σ = π ++ [i] then some p else tableAt s.mem r σ := by
  by_cases hpre : π ++ [i] <+: σ
  · obtain ⟨τ, rfl⟩ := hpre
    rw [h.tableAt_setEntry_through hπ ht v τ, hv, Option.bind_some]
    cases τ with
    | nil =>
        rw [List.append_nil, if_pos rfl]
        rfl
    | cons j τ =>
        have hpre : π ++ [i] ++ [j] <+: π ++ [i] ++ j :: τ := ⟨τ, by simp⟩
        have hj : j < 512 := h.paths.index_lt (h.paths.of_prefix hσ hpre)
        have hentry : entry (s.setEntry t i v).mem p j = entry s.mem p j :=
          update_entry_ne (h.tableAt_mod ht) hpmod (h.paths.index_lt hπ) hj (Or.inl hpt)
        rw [if_neg (by simp), tableAt_below_empty (by rw [hentry]; exact hempty j hj),
          tableAt_append, hnone, Option.bind_none]
  · rw [h.tableAt_setEntry hπ ht v hσ hpre, if_neg]
    rintro rfl
    exact hpre List.prefix_rfl

theorem attach (h : TablesInv P r s L) (hπ : P (π ++ [i])) (ht : tableAt s.mem r π = some t)
    (hnone : tableAt s.mem r (π ++ [i]) = none) {v p : Nat} (hv : childOf v = some p)
    (hlt : v < 2 ^ 52) (hpfree : p ∉ freeSet s.pmm L)
    (hptable : ∀ σ a, P σ → tableAt s.mem r σ = some a → a ≠ p)
    (hempty : ∀ j < 512, ¬ present (entry s.mem p j)) :
    TablesInv P r (s.setEntry t i v) L ∧
      ∀ σ, P σ → tableAt (s.setEntry t i v).mem r σ =
        if σ = π ++ [i] then some p else tableAt s.mem r σ := by
  have hπ' := h.paths.init hπ
  have hi := h.paths.index_lt hπ
  have hpmod : p % pageSize = 0 := by
    obtain ⟨-, -, rfl⟩ := childOf_some.1 hv
    exact ptePage_mod v
  have htable : ∀ σ, P σ → tableAt (s.setEntry t i v).mem r σ =
      if σ = π ++ [i] then some p else tableAt s.mem r σ :=
    fun σ hσ => h.tableAt_attach hπ ht hnone hv hpmod (hptable π t hπ' ht).symm hempty hσ
  have hcases : ∀ σ a, P σ → tableAt (s.setEntry t i v).mem r σ = some a →
      (σ = π ++ [i] ∧ a = p) ∨ tableAt s.mem r σ = some a := by
    intro σ a hσ ha
    rw [htable σ hσ] at ha
    split at ha
    · rename_i heq
      exact Or.inl ⟨heq, (Option.some.inj ha).symm⟩
    · exact Or.inr ha
  refine ⟨⟨h.paths, (slotWrite_setEntry h.pmm (h.tableAt_mod ht) (h.used π t hπ' ht) hi v).1,
    h.stop_le, h.root, ?_, ?_, ?_⟩, htable⟩
  · have hnew : ∀ k σ a, RootPos P r k σ → tableAt s.mem k σ = some a → a ≠ p := by
      rintro k σ a ⟨rfl, hσ⟩ ha
      exact hptable σ a hσ ha
    have hsub : ∀ k σ a, RootPos P r k σ → tableAt (s.setEntry t i v).mem k σ = some a →
        (k = r ∧ σ = π ++ [i] ∧ a = p) ∨ tableAt s.mem k σ = some a := by
      rintro k σ a ⟨rfl, hσ⟩ ha
      rcases hcases σ a hσ ha with ⟨rfl, rfl⟩ | ha
      · exact Or.inl ⟨rfl, rfl, rfl⟩
      · exact Or.inr ha
    exact h.apart.insert hnew hsub
  · intro σ a j hσ ha hsome
    have hj := h.paths.index_lt hσ
    by_cases hor : a ≠ t ∨ j ≠ i
    · have hmod : a % pageSize = 0 := by
        rcases hcases σ a (h.paths.init hσ) ha with ⟨-, rfl⟩ | ha
        · exact hpmod
        · exact h.tableAt_mod ha
      have heq : entry (s.setEntry t i v).mem a j = entry s.mem a j :=
        update_entry_ne (h.tableAt_mod ht) hmod hi hj hor
      rw [child, heq] at hsome
      rw [heq]
      rcases hcases σ a (h.paths.init hσ) ha with ⟨-, rfl⟩ | ha
      · rw [childOf_of_not_present (hempty j hj)] at hsome
        cases hsome
      · exact h.plain σ a j hσ ha hsome
    · obtain ⟨rfl, rfl⟩ : a = t ∧ j = i := by
        rw [not_or, not_not, not_not] at hor
        exact hor
      rw [entry_setEntry_self]
      exact hlt
  · intro σ a hσ ha
    rcases hcases σ a hσ ha with ⟨-, rfl⟩ | ha
    · exact hpfree
    · exact h.used σ a hσ ha

/-- A page that was taken, as a page of its own. -/
structure Taken (P : List Nat → Prop) (r : Nat) (s : VmmState) (L : List Nat) (s1 : VmmState)
    (L' : List Nat) (p : Nat) : Prop where
  inv : TablesInv P r s1 L'
  cr3 : s1.cr3 = s.cr3
  kernelCr3 : s1.kernelCr3 = s.kernelCr3
  mod : p % pageSize = 0
  lt : p < 2 ^ 52
  was_free : p ∈ freeSet s.pmm L
  not_free : p ∉ freeSet s1.pmm L'
  free : freeSet s1.pmm L' ⊆ freeSet s.pmm L
  mem : ∀ w, alignDown w ≠ p → s1.mem w = s.mem w
  tables : ∀ σ, P σ → tableAt s1.mem r σ = tableAt s.mem r σ

/-- A free page is taken and written. -/
theorem takePage (h : TablesInv P r s L) (hne : (allocPage s).1 ≠ 0) (mem' : Nat → Nat)
    (hmem' : ∀ w, alignDown w ≠ (allocPage s).1 → mem' w = (allocPage s).2.mem w) :
    ∃ L', Taken P r s L ((allocPage s).2.withMem mem') L' (allocPage s).1 := by
  have hmem : (allocPage s).2.mem = s.mem := pmmAllocPage_mem s.pmm
  rcases h.pmm.alloc with ⟨heq, -⟩ | ⟨-, hin, L', hinv, hfree⟩
  · rw [allocPage, heq] at hne
    exact absurd rfl hne
  have hmod : (allocPage s).1 % pageSize = 0 := h.pmm.mod_of_mem_freeSet hin
  have hout : ∀ w, alignDown w ≠ (allocPage s).1 → mem' w = s.mem w := by
    intro w hw
    rw [hmem' w hw, hmem]
  have hsub : ∀ q, q ∈ freeSet (allocPage s).2.pmm L' → q ∈ freeSet s.pmm L ∧ q ≠ (allocPage s).1 :=
    fun q hq => by rwa [show freeSet (allocPage s).2.pmm L' = _ from hfree] at hq
  have hpmm : PmmInv ((allocPage s).2.withMem mem').pmm L' := by
    refine PmmInv.congr_mem (s := (allocPage s).2.pmm) hinv fun q hq => ?_
    refine (hout q ?_).trans (congrFun hmem q).symm
    rw [alignDown_of_mod (hinv.listed q hq).1]
    exact (hsub q (Or.inl hq)).2
  obtain ⟨hkeep, htable⟩ := h.frame hpmm (pmmAllocPage_stop s.pmm)
    (fun σ a hσ ha hin' => h.used σ a hσ ha (hsub a hin').1) (by
      intro σ a j hσ ha hj
      refine hout _ ?_
      rw [alignDown_entry (h.tableAt_mod ha) hj]
      rintro rfl
      exact h.used σ _ hσ ha hin)
  refine ⟨L', hkeep, rfl, rfl, hmod, ?_, hin, fun hin' => (hsub _ hin').2 rfl,
    fun q hq => (hsub q hq).1, hout, htable⟩
  have hend := h.pmm.lt_of_mem_freeSet hin
  have hstop := h.stop_le
  simp only [pageSize, allocPage] at hend ⊢
  omega

/-- The page is no table. -/
theorem Taken.not_table {s1 : VmmState} {L' : List Nat} {p : Nat} (h : TablesInv P r s L)
    (hp : Taken P r s L s1 L' p) {σ : List Nat} {a : Nat} (hσ : P σ)
    (ha : tableAt s.mem r σ = some a) : a ≠ p := by
  rintro rfl
  exact h.used σ a hσ ha hp.was_free

/-- The page is linked as an empty table. -/
theorem Taken.link {s1 : VmmState} {L' : List Nat} {p : Nat} (h : TablesInv P r s L)
    (hp : Taken P r s L s1 L' p) (hπ : P (π ++ [i])) (ht : tableAt s.mem r π = some t)
    (hnone : tableAt s.mem r (π ++ [i]) = none) (hzero : ∀ j < 512, entry s1.mem p j = 0)
    (user : Bool) :
    TablesInv P r (s1.setEntry t i (newTableEntry p user)) L' ∧
      (∀ σ, P σ → tableAt (s1.setEntry t i (newTableEntry p user)).mem r σ =
        if σ = π ++ [i] then some p else tableAt s.mem r σ) ∧
      (∀ j < 512, entry (s1.setEntry t i (newTableEntry p user)).mem p j = 0) ∧
      SlotWrite ∅ s L (s1.setEntry t i (newTableEntry p user)) L' t i := by
  obtain ⟨hchild, hvlt⟩ := childOf_new hp.mod hp.lt user
  have hi := h.paths.index_lt hπ
  have htmod := h.tableAt_mod ht
  have hpt : t ≠ p := hp.not_table h (h.paths.init hπ) ht
  have ht1 : tableAt s1.mem r π = some t := (hp.tables π (h.paths.init hπ)).trans ht
  have hnone1 : tableAt s1.mem r (π ++ [i]) = none := (hp.tables _ hπ).trans hnone
  obtain ⟨hinv, htable⟩ := hp.inv.attach hπ ht1 hnone1 hchild hvlt hp.not_free
    (fun σ a hσ ha => hp.not_table h hσ ((hp.tables σ hσ).symm.trans ha))
    (fun j hj => by rw [hzero j hj]; decide)
  refine ⟨hinv, fun σ hσ => ?_, fun j hj => ?_, hp.cr3, hp.kernelCr3, ?_, ?_⟩
  · rw [← hp.tables σ hσ]
    exact htable σ hσ
  · rw [← hzero j hj]
    exact update_entry_ne htmod hp.mod hi hj (Or.inl hpt.symm)
  · intro a j ha hfa _ hj hor
    refine (update_entry_ne htmod ha hi hj hor).trans (hp.mem _ ?_)
    rw [alignDown_entry ha hj]
    rintro rfl
    exact hfa hp.was_free
  · exact hp.free.trans Set.subset_union_left

end TablesInv

/-! ### The pages that are mapped -/

/-- The entry of the frame of an address. -/
def leafAt (mem : Nat → Nat) (r v : Nat) : Option Nat :=
  (tableAt mem r (tablePath v)).bind fun t => link mem t (idxPt v)

/-- The step changes no entry of a frame and makes no large page. -/
structure Quiet (P : List Nat → Prop) (r : Nat) (s s' : VmmState) : Prop where
  leaves : ∀ v, P (tablePath v) → leafAt s'.mem r v = leafAt s.mem r v
  large : ∀ path, P path → NoLarge s.mem r path → NoLarge s'.mem r path

theorem Quiet.refl (P : List Nat → Prop) (r : Nat) (s : VmmState) : Quiet P r s s :=
  ⟨fun _ _ => rfl, fun _ _ h => h⟩

theorem Quiet.trans {P : List Nat → Prop} {r : Nat} {s s' s'' : VmmState} (h : Quiet P r s s')
    (h' : Quiet P r s' s'') : Quiet P r s s'' :=
  ⟨fun v hv => (h'.leaves v hv).trans (h.leaves v hv),
    fun path hp hl => h'.large path hp (h.large path hp hl)⟩

theorem leafAt_of_table {mem : Nat → Nat} {r v t : Nat}
    (ht : tableAt mem r (tablePath v) = some t) : leafAt mem r v = link mem t (idxPt v) := by
  rw [leafAt, ht]
  rfl

theorem leafAt_of_empty {mem : Nat → Nat} {r v : Nat}
    (h : ∀ t, tableAt mem r (tablePath v) = some t → ∀ j < 512, ¬ present (entry mem t j)) :
    leafAt mem r v = none := by
  cases ht : tableAt mem r (tablePath v) with
  | none =>
      rw [leafAt, ht]
      rfl
  | some t =>
      rw [leafAt_of_table ht]
      exact link_none.2 (h t ht _ (Nat.mod_lt _ (by decide)))

/-- The large pages of a path were there before. -/
theorem noLarge_mono {P : List Nat → Prop} (hP : TablePaths P) {mem mem' : Nat → Nat} {r : Nat}
    (hold : ∀ σ j a, P (σ ++ [j]) → tableAt mem' r σ = some a → present (entry mem' a j) →
      ptePs (entry mem' a j) → tableAt mem r σ = some a ∧ present (entry mem a j) ∧
        ptePs (entry mem a j))
    {path : List Nat} (hpath : P path) (hl : NoLarge mem r path) : NoLarge mem' r path := by
  intro σ j a hpre ha hp
  by_contra hps
  rw [Bool.not_eq_false] at hps
  obtain ⟨ha', hp', hps'⟩ := hold σ j a (hP.of_prefix hpath hpre) ha hp hps
  rw [hl σ j a hpre ha' hp'] at hps'
  cases hps'

namespace TablesInv

variable {P : List Nat → Prop} {r : Nat} {s : VmmState} {L : List Nat} {π : List Nat} {t i : Nat}

/-- A table that is linked or given back has no entries, so no page is mapped or
unmapped by that. -/
theorem quiet_of_slot (h : TablesInv P r s L) {s' : VmmState} {L' : List Nat} {X : Set Nat}
    (hπ : P (π ++ [i])) (ht : tableAt s.mem r π = some t) (hw : SlotWrite X s L s' L' t i)
    (hX : ∀ σ a, P σ → tableAt s'.mem r σ = some a → a ∉ X)
    (hother : ∀ σ, P σ → σ ≠ π ++ [i] → tableAt s'.mem r σ = tableAt s.mem r σ)
    (hgone : ∀ c, tableAt s.mem r (π ++ [i]) = some c → tableAt s'.mem r (π ++ [i]) = some c ∨
      ∀ j < 512, ¬ present (entry s.mem c j))
    (hnew : ∀ c, tableAt s'.mem r (π ++ [i]) = some c → tableAt s.mem r (π ++ [i]) = some c ∨
      ∀ j < 512, ¬ present (entry s'.mem c j))
    (hslot : present (entry s'.mem t i) → ptePs (entry s'.mem t i) →
      present (entry s.mem t i) ∧ ptePs (entry s.mem t i)) : Quiet P r s s' := by
  have hentry : ∀ σ a j, P σ → tableAt s.mem r σ = some a → tableAt s'.mem r σ = some a →
      j < 512 → (a ≠ t ∨ j ≠ i) → entry s'.mem a j = entry s.mem a j :=
    fun σ a j hσ ha ha' =>
      hw.entries a j (h.tableAt_mod ha) (h.used σ a hσ ha) (hX σ a hσ ha')
  constructor
  · intro v hv
    have hi4 : idxPt v < 512 := Nat.mod_lt _ (by decide)
    -- a table of the lowest level is not the one that is written
    have hsame : ∀ a, tableAt s.mem r (tablePath v) = some a →
        tableAt s'.mem r (tablePath v) = some a → leafAt s'.mem r v = leafAt s.mem r v := by
      intro a ha ha'
      rw [leafAt_of_table ha, leafAt_of_table ha']
      refine link_congr (hentry _ a _ hv ha ha' hi4 (Or.inl ?_))
      rintro rfl
      have hlen := h.length_lt hπ
      rw [h.tableAt_inj (h.paths.init hπ) hv ht ha] at hlen
      simp [tablePath] at hlen
    by_cases hend : tablePath v = π ++ [i]
    · rw [← hend] at hgone hnew
      by_cases hboth : ∃ a, tableAt s.mem r (tablePath v) = some a ∧
          tableAt s'.mem r (tablePath v) = some a
      · obtain ⟨a, ha, ha'⟩ := hboth
        exact hsame a ha ha'
      · rw [leafAt_of_empty fun c hc => (hgone c hc).resolve_left fun hc' => hboth ⟨c, hc, hc'⟩,
          leafAt_of_empty fun c hc => (hnew c hc).resolve_left fun hc' => hboth ⟨c, hc', hc⟩]
    · have heq := hother _ hv hend
      cases ha : tableAt s.mem r (tablePath v) with
      | none => rw [leafAt, leafAt, heq, ha, Option.bind_none, Option.bind_none]
      | some a => exact hsame a ha (heq.trans ha)
  · intro path hpath hl
    refine noLarge_mono h.paths (fun σ j a hσ ha hp hps => ?_) hpath hl
    have hj := h.paths.index_lt hσ
    have hold : tableAt s.mem r σ = some a := by
      by_cases hend : σ = π ++ [i]
      · subst hend
        exact (hnew a ha).resolve_right fun hempty => hempty j hj hp
      · exact (hother σ (h.paths.init hσ) hend).symm.trans ha
    by_cases hor : a ≠ t ∨ j ≠ i
    · rw [hentry σ a j (h.paths.init hσ) hold ha hj hor] at hp hps
      exact ⟨hold, hp, hps⟩
    · obtain ⟨rfl, rfl⟩ : a = t ∧ j = i := by
        rw [not_or, not_not, not_not] at hor
        exact hor
      exact ⟨hold, hslot hp hps⟩

/-- `prune` changes no page. -/
theorem quiet_prune (h : TablesInv P r s L) (hπ : P (π ++ [i])) (ht : tableAt s.mem r π = some t)
    {c : Nat} (hc : tableAt s.mem r (π ++ [i]) = some c)
    (hempty : ∀ j < 512, ¬ present (entry s.mem c j)) :
    Quiet P r s (freePage (s.setEntry t i 0) c) := by
  obtain ⟨L', -, htable, hw⟩ := h.prune hπ ht hc hempty
  have htc : t ≠ c := by
    rintro rfl
    have heq := h.tableAt_inj (h.paths.init hπ) hπ ht hc
    simp at heq
  refine h.quiet_of_slot hπ ht hw ?_ (fun σ hσ hne => (htable σ hσ).trans (if_neg hne)) ?_ ?_ ?_
  · intro σ a hσ ha hac
    obtain rfl : a = c := hac
    rw [htable σ hσ] at ha
    split at ha
    · cases ha
    · rename_i hne
      exact hne (h.tableAt_inj hσ hπ ha hc)
  · intro c' hc'
    obtain rfl := Option.some.inj (hc.symm.trans hc')
    exact Or.inr hempty
  · intro c' hc'
    rw [htable _ hπ, if_pos rfl] at hc'
    cases hc'
  · intro hp
    obtain ⟨-, -, -, -, hmem⟩ := freePage_spec (s := s.setEntry t i 0)
      (slotWrite_setEntry h.pmm (h.tableAt_mod ht) (h.used π t (h.paths.init hπ) ht)
        (h.paths.index_lt hπ) 0).1 (h.tableAt_mod hc) (h.used _ c hπ hc)
    have hzero : entry (freePage (s.setEntry t i 0) c).mem t i = 0 := by
      refine (hmem _ ?_).trans (entry_setEntry_self s t i 0)
      rw [alignDown_entry (h.tableAt_mod ht) (h.paths.index_lt hπ)]
      exact htc
    rw [hzero] at hp
    cases hp

/-- What `ensure_table` finds or makes. -/
theorem ensureTable (h : TablesInv P r s L) (hπ : P (π ++ [i])) (ht : tableAt s.mem r π = some t)
    (hsmall : present (entry s.mem t i) → ptePs (entry s.mem t i) = false) (user : Bool) :
    ∃ L', TablesInv P r (ensureTable s t i user).2 L' ∧
      SlotWrite ∅ s L (ensureTable s t i user).2 L' t i ∧
      Quiet P r s (ensureTable s t i user).2 ∧
      (∀ σ a, P σ → tableAt (ensureTable s t i user).2.mem r σ = some a →
        tableAt s.mem r σ = some a ∨ a ∈ freeSet s.pmm L) ∧
      (present (entry s.mem t i) →
        Alike (entry (ensureTable s t i user).2.mem t i) (entry s.mem t i)) ∧
      ∀ c, (ensureTable s t i user).1 = some c →
        tableAt (ensureTable s t i user).2.mem r (π ++ [i]) = some c := by
  have hslot : tableAt s.mem r (π ++ [i]) = childOf (entry s.mem t i) := tableAt_step ht i
  unfold Vmm.ensureTable
  dsimp only
  split
  · rename_i hp
    -- the table is there
    have hchild : childOf (entry s.mem t i) = some (ptePage (entry s.mem t i)) :=
      childOf_some.2 ⟨hp, hsmall hp, rfl⟩
    have hlt : entry s.mem t i < 2 ^ 52 := h.plain π t i hπ ht (by rw [child, hchild]; rfl)
    rw [alignDown_of_lt hlt]
    rw [hchild] at hslot
    cases user with
    | false =>
        refine ⟨L, h, SlotWrite.refl _ _ _ _ _, Quiet.refl _ _ _, fun _ _ _ ha => Or.inl ha,
          fun _ => Alike.refl _, ?_⟩
        rintro c hc
        obtain rfl := Option.some.inj hc
        exact hslot
    | true =>
        have hal := alike_or_us (entry s.mem t i)
        obtain ⟨hinv, htable, hw⟩ := h.setEntry (h.paths.init hπ) ht (h.paths.index_lt hπ)
          (Or.inr hal)
        refine ⟨L, hinv, hw, ?_, fun σ a hσ ha => Or.inl ((htable σ hσ).symm.trans ha),
          fun _ => ?_, ?_⟩
        · refine h.quiet_of_slot hπ ht hw (fun _ a _ _ => Set.notMem_empty a)
            (fun σ hσ _ => htable σ hσ) (fun c hc => Or.inl ((htable _ hπ).trans hc))
            (fun c hc => Or.inl ((htable _ hπ).symm.trans hc)) ?_
          simp only [if_true, entry_setEntry_self, hal.present, hal.ptePs]
          exact And.intro
        · simp only [if_true, entry_setEntry_self]
          exact hal
        · rintro c hc
          obtain rfl := Option.some.inj hc
          exact (htable _ hπ).trans hslot
  · rename_i hp
    rw [childOf_of_not_present hp] at hslot
    split
    · rename_i h0
      rcases h.pmm.alloc with ⟨heq, -⟩ | ⟨hne, -⟩
      · have hs : (allocPage s).2 = s := by rw [allocPage, heq]
        rw [hs]
        exact ⟨L, h, SlotWrite.refl _ _ _ _ _, Quiet.refl _ _ _, fun _ _ _ ha => Or.inl ha,
          fun _ => Alike.refl _, fun c hc => by cases hc⟩
      · exact absurd h0 hne
    · rename_i hne
      have hmod : (allocPage s).1 % pageSize = 0 := by
        obtain ⟨L', hp⟩ := h.takePage hne (allocPage s).2.mem fun _ _ => rfl
        exact hp.mod
      obtain ⟨L', htaken⟩ := h.takePage hne _ fun w hw => VmmInv.alignDown_zeroPage _ hmod hw
      obtain ⟨hinv, htable, hzero, hw⟩ := htaken.link h hπ ht hslot
        (fun j hj => VmmInv.entry_zeroPage hj) user
      have hnew := (childOf_some.1 (childOf_new hmod htaken.lt user).1).2.1
      refine ⟨L', hinv, hw, ?_, ?_, fun hp' => absurd hp' hp, ?_⟩
      · refine h.quiet_of_slot hπ ht hw (fun _ a _ _ => Set.notMem_empty a)
          (fun σ hσ hne => (htable σ hσ).trans (if_neg hne)) (fun c hc => ?_) (fun c hc => ?_) ?_
        · rw [hslot] at hc
          cases hc
        · rw [htable _ hπ, if_pos rfl] at hc
          obtain rfl := Option.some.inj hc
          refine Or.inr fun j hj => ?_
          rw [hzero j hj]
          decide
        · rw [entry_setEntry_self, hnew]
          intro _ hc
          cases hc
      · intro σ a hσ ha
        rw [htable σ hσ] at ha
        split at ha
        · obtain rfl := Option.some.inj ha
          exact Or.inr htaken.was_free
        · exact Or.inl ha
      · rintro c hc
        obtain rfl := Option.some.inj hc
        exact (htable _ hπ).trans (if_pos rfl)

end TablesInv

end FiFi.Vmm
