import FiFi.Vmm.Tables

/-!
# The tables of the kernel half

The tables of the kernel half are those below the upper half of the kernel's
root. All page maps of processes have the kernel's entries in their upper half,
so they share these tables.

`HalfInv roots s L` is the invariant: different positions have different tables,
and no table and no root of a process is free.
-/

namespace FiFi.Vmm

open Pmm LinkedList RadixForest

/-! ### Paths of the upper half -/

/-- A path to a table of the upper half. -/
def HalfPath (π : List Nat) : Prop :=
  π.length ≤ 3 ∧ (∀ i ∈ π, i < 512) ∧ ∀ i ∈ π.head?, 256 ≤ i

theorem HalfPath.init {π : List Nat} {i : Nat} (h : HalfPath (π ++ [i])) : HalfPath π := by
  obtain ⟨hlen, hlt, hhead⟩ := h
  refine ⟨?_, fun j hj => hlt j (by simp [hj]), fun j hj => hhead j ?_⟩
  · simp only [List.length_append, List.length_singleton] at hlen
    omega
  · cases π with
    | nil => simp at hj
    | cons a π => simpa using hj

/-- The positions of the tables below the root at `k`. -/
def HalfPos (k r : Nat) (π : List Nat) : Prop := r = k ∧ HalfPath π

theorem halfPath_nil : HalfPath [] := ⟨by simp, by simp, by simp⟩

theorem halfPath_tables : TablePaths HalfPath :=
  ⟨halfPath_nil, HalfPath.init, fun h => h.1, fun h => h.2.1 _ (by simp)⟩

theorem halfPath_tablePath {v : Nat} (hv : 256 ≤ idxPml4 v) : HalfPath (tablePath v) := by
  refine ⟨by simp [tablePath], ?_, ?_⟩
  · intro i hi
    simp only [tablePath, List.mem_cons, List.not_mem_nil, or_false] at hi
    rcases hi with rfl | rfl | rfl
    · exact Nat.mod_lt _ (by decide)
    · exact Nat.mod_lt _ (by decide)
    · exact Nat.mod_lt _ (by decide)
  · intro i hi
    obtain rfl : idxPml4 v = i := by simpa [tablePath] using hi
    exact hv

/-! ### The invariant -/

/-- The tables of the kernel half are apart and in use, and so are the roots of
processes, which have the kernel's entries in their upper half. -/
structure HalfInv (roots : List Nat) (s : VmmState) (L : List Nat) : Prop where
  pmm : PmmInv s.pmm L
  stop_le : s.pmm.stop ≤ 2 ^ 52
  kernel_ne : s.kernelCr3 ≠ 0
  kernel : ptePage s.kernelCr3 = s.kernelCr3
  apart : Apart id (child s.mem) (HalfPos s.kernelCr3)
  plain : ∀ π t i, HalfPath (π ++ [i]) → tableAt s.mem s.kernelCr3 π = some t →
    (child s.mem t i).isSome → entry s.mem t i < 2 ^ 52
  used : ∀ π t, HalfPath π → tableAt s.mem s.kernelCr3 π = some t → t ∉ freeSet s.pmm L
  page : ∀ r ∈ roots, ptePage r = r
  root_used : ∀ r ∈ roots, r ∉ freeSet s.pmm L
  root_apart : ∀ r ∈ roots, ∀ π t, HalfPath π → tableAt s.mem s.kernelCr3 π = some t → t ≠ r
  entries : ∀ r ∈ roots, ∀ i, 256 ≤ i → i < 512 →
    Alike (entry s.mem r i) (entry s.mem s.kernelCr3 i)
  loaded : s.cr3 ∈ roots ∨ s.cr3 = s.kernelCr3

namespace HalfInv

variable {roots : List Nat} {s : VmmState} {L : List Nat} {π : List Nat} {t i : Nat}

theorem tables (h : HalfInv roots s L) : TablesInv HalfPath s.kernelCr3 s L :=
  ⟨halfPath_tables, h.pmm, h.stop_le, h.kernel, h.apart, h.plain, h.used⟩

theorem root_mod (h : HalfInv roots s L) {r : Nat} (hr : r ∈ roots) : r % pageSize = 0 := by
  rw [← h.page r hr]
  exact ptePage_mod r

theorem kernel_mod (h : HalfInv roots s L) : s.kernelCr3 % pageSize = 0 := by
  rw [← h.kernel]
  exact ptePage_mod _

/-- A step that keeps the tables in order and leaves the roots alone, except for
the user bit of an entry. -/
theorem of_write (h : HalfInv roots s L) {s' : VmmState} {L' : List Nat} {X : Set Nat}
    (htables : TablesInv HalfPath s.kernelCr3 s' L') (hw : SlotWrite X s L s' L' t i)
    (hX : ∀ p ∈ X, p ≠ s.kernelCr3 ∧ ∀ r ∈ roots, p ≠ r)
    (hold : ∀ σ a, HalfPath σ → tableAt s'.mem s.kernelCr3 σ = some a →
      tableAt s.mem s.kernelCr3 σ = some a ∨ a ∈ freeSet s.pmm L)
    (hslot : ∀ r ∈ roots, t = r ∨ t = s.kernelCr3 →
      Alike (entry s'.mem t i) (entry s.mem t i)) :
    HalfInv roots s' L' := by
  have hk := hw.kernelCr3
  have halike : ∀ r ∈ roots, ∀ a, a % pageSize = 0 → a ∉ freeSet s.pmm L → a ∉ X →
      (a = r ∨ a = s.kernelCr3) → ∀ j < 512, Alike (entry s'.mem a j) (entry s.mem a j) := by
    intro r hr a ha hfa haX hra j hj
    by_cases hsame : a = t ∧ j = i
    · obtain ⟨rfl, rfl⟩ := hsame
      exact hslot r hr hra
    · rw [hw.entries a j ha hfa haX hj (by rwa [not_and_or] at hsame)]
      exact Alike.refl _
  refine ⟨htables.pmm, htables.stop_le, by rw [hk]; exact h.kernel_ne, by rw [hk]; exact h.kernel,
    by rw [hk]; exact htables.apart, by rw [hk]; exact htables.plain,
    by rw [hk]; exact htables.used, h.page, ?_, ?_, ?_, by rw [hw.cr3, hk]; exact h.loaded⟩
  · exact fun r hr => hw.not_free (h.root_used r hr) fun hin => (hX r hin).2 r hr rfl
  · rw [hk]
    rintro r hr σ a hσ ha rfl
    rcases hold σ a hσ ha with ha | ha
    · exact h.root_apart a hr σ a hσ ha rfl
    · exact h.root_used a hr ha
  · rw [hk]
    intro r hr j hlo hj
    have hroot := halike r hr r (h.root_mod hr) (h.root_used r hr)
      (fun hin => (hX r hin).2 r hr rfl) (Or.inl rfl) j hj
    have hkernel := halike r hr s.kernelCr3 h.kernel_mod (h.used [] _ halfPath_nil rfl)
      (fun hin => (hX _ hin).1 rfl) (Or.inr rfl) j hj
    exact (hroot.trans (h.entries r hr j hlo hj)).trans hkernel.symm

/-- A table below the root is neither the kernel's root nor that of a process. -/
theorem not_root (h : HalfInv roots s L) (hπ : HalfPath π)
    (ht : tableAt s.mem s.kernelCr3 π = some t) (hne : π ≠ [] ∨ roots = []) :
    ∀ r ∈ roots, ¬ (t = r ∨ t = s.kernelCr3) := by
  rintro r hr (rfl | rfl)
  · exact h.root_apart t hr π t hπ ht rfl
  · rcases hne with hne | rfl
    · exact hne (h.tables.tableAt_inj hπ halfPath_nil ht rfl)
    · cases hr

/-- A store that leads to a frame. -/
theorem setLeaf (h : HalfInv roots s L) (hπ : HalfPath π)
    (ht : tableAt s.mem s.kernelCr3 π = some t) (hi : i < 512) (hlen : π.length = 3) (v : Nat) :
    HalfInv roots (s.setEntry t i v) L ∧
      ∀ σ, HalfPath σ → tableAt (s.setEntry t i v).mem s.kernelCr3 σ =
        tableAt s.mem s.kernelCr3 σ := by
  obtain ⟨hinv, htable, hw⟩ := h.tables.setEntry (v := v) hπ ht hi (Or.inl hlen)
  refine ⟨h.of_write hinv hw (fun p hp => absurd hp (Set.notMem_empty p))
    (fun σ a hσ ha => Or.inl ((htable σ hσ).symm.trans ha)) fun r hr hroot => ?_, htable⟩
  refine absurd hroot (h.not_root hπ ht (Or.inl ?_) r hr)
  rintro rfl
  cases hlen

/-- The user bit is set in an entry of the root of a process. -/
theorem setRoot (h : HalfInv roots s L) {r v : Nat} (hr : r ∈ roots) (hi : i < 512)
    (hv : Alike v (entry s.mem r i)) :
    HalfInv roots (s.setEntry r i v) L ∧
      (∀ σ, HalfPath σ → tableAt (s.setEntry r i v).mem s.kernelCr3 σ =
        tableAt s.mem s.kernelCr3 σ) ∧
      ∀ σ j a, HalfPath σ → j < 512 → tableAt s.mem s.kernelCr3 σ = some a →
        entry (s.setEntry r i v).mem a j = entry s.mem a j := by
  have hrmod := h.root_mod hr
  have hentry : ∀ σ j a, HalfPath σ → j < 512 → tableAt s.mem s.kernelCr3 σ = some a →
      entry (s.setEntry r i v).mem a j = entry s.mem a j := by
    intro σ j a hσ hj ha
    exact update_entry_ne hrmod (h.tables.tableAt_mod ha) hi hj
      (Or.inl (h.root_apart r hr σ a hσ ha))
  obtain ⟨hpmm, hw⟩ := TablesInv.slotWrite_setEntry h.pmm hrmod (h.root_used r hr) hi v
  obtain ⟨hinv, htable⟩ := h.tables.frame (show PmmInv (s.setEntry r i v).pmm L from hpmm) rfl h.used
    fun σ a j hσ ha hj => hentry σ j a hσ hj ha
  refine ⟨h.of_write hinv hw (fun p hp => absurd hp (Set.notMem_empty p))
    (fun σ a hσ ha => Or.inl ((htable σ hσ).symm.trans ha)) fun _ _ _ => ?_, htable, hentry⟩
  rw [entry_setEntry_self]
  exact hv

/-- A table that leads nowhere is unlinked and given back. The root is written
only if there are no page maps of processes. -/
theorem prune (h : HalfInv roots s L) (hπ : HalfPath (π ++ [i]))
    (ht : tableAt s.mem s.kernelCr3 π = some t) {c : Nat}
    (hc : tableAt s.mem s.kernelCr3 (π ++ [i]) = some c)
    (hempty : ∀ j < 512, ¬ present (entry s.mem c j)) (hroot : π ≠ [] ∨ roots = []) :
    ∃ L', HalfInv roots (freePage (s.setEntry t i 0) c) L' ∧
      (∀ σ, HalfPath σ → tableAt (freePage (s.setEntry t i 0) c).mem s.kernelCr3 σ =
        if σ = π ++ [i] then none else tableAt s.mem s.kernelCr3 σ) ∧
      ∀ σ a j, HalfPath σ → tableAt s.mem s.kernelCr3 σ = some a → a ≠ c → j < 512 →
        (a ≠ t ∨ j ≠ i) →
        entry (freePage (s.setEntry t i 0) c).mem a j = entry s.mem a j := by
  obtain ⟨L', hinv, htable, hw⟩ := h.tables.prune hπ ht hc hempty
  refine ⟨L', h.of_write hinv hw ?_ ?_ ?_, htable, fun σ a j hσ ha hne hj hor =>
    hw.entries a j (h.tables.tableAt_mod ha) (h.used σ a hσ ha) hne hj hor⟩
  · rintro p rfl
    refine ⟨?_, fun r hr => h.root_apart r hr _ p hπ hc⟩
    rintro rfl
    have heq := h.tables.tableAt_inj halfPath_nil hπ rfl hc
    simp at heq
  · intro σ a hσ ha
    rw [htable σ hσ] at ha
    split at ha
    · cases ha
    · exact Or.inl ha
  · intro r hr hor
    exact absurd hor (h.not_root hπ.init ht hroot r hr)

/-! ### A new table -/

/-- A free page is taken and written. -/
theorem of_taken (h : HalfInv roots s L) {s1 : VmmState} {L' : List Nat} {p : Nat}
    (hp : TablesInv.Taken HalfPath s.kernelCr3 s L s1 L' p) : HalfInv roots s1 L' := by
  have hw : SlotWrite ∅ s L s1 L' p 0 := by
    refine ⟨hp.cr3, hp.kernelCr3, fun a j ha hfa _ hj _ => hp.mem _ ?_,
      hp.free.trans Set.subset_union_left⟩
    rw [alignDown_entry ha hj]
    rintro rfl
    exact hfa hp.was_free
  refine h.of_write hp.inv hw (fun p hp => absurd hp (Set.notMem_empty p))
    (fun σ a hσ ha => Or.inl ((hp.tables σ hσ).symm.trans ha)) ?_
  rintro r hr (heq | heq)
  · exact absurd (heq ▸ hp.was_free) (h.root_used r hr)
  · exact absurd heq.symm (hp.not_table h.tables halfPath_nil rfl)

/-- What `ensure_table` finds or makes. No path gets a large page. -/
theorem ensureTable (h : HalfInv roots s L) (hπ : HalfPath (π ++ [i]))
    (ht : tableAt s.mem s.kernelCr3 π = some t)
    (hroot : present (entry s.mem t i) ∨ π ≠ [] ∨ roots = [])
    (hsmall : present (entry s.mem t i) → ptePs (entry s.mem t i) = false) (user : Bool) :
    ∃ L', HalfInv roots (ensureTable s t i user).2 L' ∧
      (ensureTable s t i user).2.kernelCr3 = s.kernelCr3 ∧
      Quiet HalfPath s.kernelCr3 s (ensureTable s t i user).2 ∧
      ∀ c, (ensureTable s t i user).1 = some c →
        tableAt (ensureTable s t i user).2.mem s.kernelCr3 (π ++ [i]) = some c := by
  obtain ⟨L', hinv, hw, hquiet, hold, halike, hc⟩ := h.tables.ensureTable hπ ht hsmall user
  refine ⟨L', h.of_write hinv hw (fun p hp => absurd hp (Set.notMem_empty p)) hold ?_,
    hw.kernelCr3, hquiet, hc⟩
  intro r hr hor
  rcases hroot with hp | hroot
  · exact halike hp
  · exact absurd hor (h.not_root hπ.init ht hroot r hr)

end HalfInv

end FiFi.Vmm
