import FiFi.Vmm.KernelHalf

/-!
# The frame law of a page map

`vmm_create_user_pagemap` makes a root whose upper half has the kernel's entries,
and `vmm_map_page` and `vmm_unmap_page` work on the root that is loaded. A map
changes the translation of its page only, and an unmap removes its page only and
gives back no table that can still be reached.

The functions of `vmm.c` know tables and frames of 4 KiB. Where they meet the
entry of a large page, as in the direct map of the boot loader, they take the
first page of the large frame for a table, whatever it holds. The law is about
the pages that are not inside large pages.
-/

namespace FiFi.Vmm

open Pmm LinkedList RadixForest StateMachine

/-! ### The law -/

/-- A path to a table below a root. -/
def TreePath (π : List Nat) : Prop := π.length ≤ 3 ∧ ∀ i ∈ π, i < 512

/-- The 36 bits of an address that the walk looks at. -/
def pageNumber (v : Nat) : Nat := v / pageSize % 2 ^ 36

/-- The walk of `vmm_translate` ends at an entry that is present. -/
def mappedIn (mem : Nat → Nat) (root virt : Nat) : Bool :=
  let e1 := entry mem root (idxPml4 virt)
  let e2 := entry mem (alignDown e1) (idxPdpt virt)
  let e3 := entry mem (alignDown e2) (idxPd virt)
  let e4 := entry mem (alignDown e3) (idxPt virt)
  present e1 && present e2 && present e3 && present e4

def Mapped (s : VmmState) (virt : Nat) : Prop := mappedIn s.mem s.cr3 virt

/-- The page of `a` translates as before. -/
def SameAt (s s' : VmmState) (a : Nat) : Prop :=
  vmmTranslate s' a = vmmTranslate s a ∧ (Mapped s' a ↔ Mapped s a)

inductive PageAct
  | map (virt phys flags : Nat)
  | unmap (virt : Nat)
  deriving DecidableEq, Repr

def pageStep (s : VmmState) : PageAct → VmmState
  | .map virt phys flags => (vmmMapPage s virt phys flags).2
  | .unmap virt => (vmmUnmapPage s virt).2

def PageAct.virt : PageAct → Nat
  | .map virt _ _ => virt
  | .unmap virt => virt

/-- The frame of a map is a page below `2 ^ 52`, and not the page `0`. -/
def PageAct.FrameOk : PageAct → Prop
  | .map _ phys _ => phys % pageSize = 0 ∧ phys ≠ 0 ∧ phys < 2 ^ 52
  | .unmap _ => True

/-- The law of a call, for the pages in `Q`. -/
def FrameLaw (Q : Nat → Prop) (s : VmmState) : PageAct → Prop
  | .map virt phys flags =>
      let q := vmmMapPage s virt phys flags
      (q.1 = true → (∀ a, pageNumber a = pageNumber virt →
          vmmTranslate q.2 a = phys + a % pageSize) ∧
        ∀ a, Q a → pageNumber a ≠ pageNumber virt → SameAt s q.2 a) ∧
      (q.1 = false → ∀ a, Q a → SameAt s q.2 a)
  | .unmap virt =>
      let q := vmmUnmapPage s virt
      (q.1 = true ↔ Mapped s virt) ∧
      (∀ a, pageNumber a = pageNumber virt → ¬ Mapped q.2 a) ∧
      (∀ a, Q a → pageNumber a ≠ pageNumber virt → SameAt s q.2 a) ∧
      ∀ p, p ∈ freePhys q.2.pmm → p ∉ freePhys s.pmm →
        ∀ π, TreePath π → tableAt q.2.mem q.2.cr3 π ≠ some p

/-- The page is not inside a large page. -/
def Small (s : VmmState) (a : Nat) : Prop := NoLarge s.mem s.cr3 (tablePath a)

/-- A page map is created and loaded. -/
def enterPagemap (s : VmmState) : VmmState :=
  vmmSwitchTo (vmmCreateUserPagemap s).2 (vmmCreateUserPagemap s).1

/-- The allocator is in order, and the tables of the kernel's half are apart and
in use. -/
structure KernelReady (s : VmmState) : Prop where
  pmm : ∃ L, PmmInv s.pmm L
  stop_le : s.pmm.stop ≤ 2 ^ 52
  tables : LoaderTables s.mem s.kernelCr3 (freePhys s.pmm)

/-! ### Paths -/

theorem treePath_tables : TablePaths TreePath := by
  refine ⟨⟨by simp, by simp⟩, fun h => ⟨?_, fun j hj => h.2 j (by simp [hj])⟩, fun h => h.1,
    fun h => h.2 _ (by simp)⟩
  have hlen := h.1
  simp only [List.length_append, List.length_singleton] at hlen
  omega

theorem treePath_tablePath (v : Nat) : TreePath (tablePath v) := by
  refine ⟨by simp [tablePath], ?_⟩
  intro i hi
  simp only [tablePath, List.mem_cons, List.not_mem_nil, or_false] at hi
  rcases hi with rfl | rfl | rfl
  · exact Nat.mod_lt _ (by decide)
  · exact Nat.mod_lt _ (by decide)
  · exact Nat.mod_lt _ (by decide)

theorem HalfPath.treePath {π : List Nat} (h : HalfPath π) : TreePath π := ⟨h.1, h.2.1⟩

theorem vaPath_eq_iff {v v' : Nat} : vaPath v = vaPath v' ↔ pageNumber v = pageNumber v' :=
  ⟨vaPath_inj, vaPath_congr⟩

theorem vaPath_eq_tablePath (v : Nat) : vaPath v = tablePath v ++ [idxPt v] := rfl

/-- The tables on the way depend on the page only. -/
theorem tablePath_congr {v v' : Nat} (h : pageNumber v = pageNumber v') :
    tablePath v = tablePath v' ∧ idxPt v = idxPt v' := by
  have hpath := vaPath_eq_iff.2 h
  rw [vaPath_eq_tablePath, vaPath_eq_tablePath] at hpath
  obtain ⟨htable, hlast⟩ := List.append_inj' hpath rfl
  exact ⟨htable, by simpa using hlast⟩

theorem pageNumber_alignDown (v : Nat) : pageNumber (alignDown v) = pageNumber v := by
  simp only [pageNumber, alignDown, pageSize]
  omega

/-- A page is not inside a large page if none of the entries on the way has the
size bit. -/
theorem noLarge_of_tables {mem : Nat → Nat} {r v : Nat}
    (h1 : (present (entry mem r (idxPml4 v)) && ptePs (entry mem r (idxPml4 v))) = false)
    (h2 : ∀ t ∈ tableAt mem r [idxPml4 v],
      (present (entry mem t (idxPdpt v)) && ptePs (entry mem t (idxPdpt v))) = false)
    (h3 : ∀ t ∈ tableAt mem r [idxPml4 v, idxPdpt v],
      (present (entry mem t (idxPd v)) && ptePs (entry mem t (idxPd v))) = false) :
    NoLarge mem r (tablePath v) := by
  rintro σ j t ⟨τ, hτ⟩ ht hp
  match σ with
  | [] =>
      obtain ⟨rfl, -⟩ : j = idxPml4 v ∧ _ := by simpa [tablePath] using hτ
      obtain rfl := Option.some.inj ht
      simpa [hp] using h1
  | [a] =>
      obtain ⟨rfl, rfl, -⟩ : a = idxPml4 v ∧ j = idxPdpt v ∧ _ := by simpa [tablePath] using hτ
      simpa [hp] using h2 t ht
  | [a, b] =>
      obtain ⟨rfl, rfl, rfl, -⟩ : a = idxPml4 v ∧ b = idxPdpt v ∧ j = idxPd v ∧ _ := by
        simpa [tablePath] using hτ
      simpa [hp] using h3 t ht
  | a :: b :: c :: σ =>
      have hlen := congrArg List.length hτ
      simp only [List.length_append, List.length_cons, List.length_nil, tablePath] at hlen
      omega

/-! ### Walks -/

/-- The walk of `vmm_translate`, from the entries it meets. -/
theorem translateIn_of (mem : Nat → Nat) (r v : Nat) {e1 e2 e3 e4 : Nat}
    (h1 : entry mem r (idxPml4 v) = e1) (h2 : entry mem (alignDown e1) (idxPdpt v) = e2)
    (h3 : entry mem (alignDown e2) (idxPd v) = e3)
    (h4 : entry mem (alignDown e3) (idxPt v) = e4) :
    translateIn mem r v = (if present e1 && present e2 && present e3 && present e4 then
      ptePage e4 + v % pageSize else 0) ∧
    mappedIn mem r v = (present e1 && present e2 && present e3 && present e4) := by
  unfold translateIn mappedIn
  simp only [h1, h2, h3, h4]
  cases present e1 <;> cases present e2 <;> cases present e3 <;> cases present e4 <;> simp

namespace TablesInv

variable {P : List Nat → Prop} {r : Nat} {s : VmmState} {L : List Nat} {π : List Nat} {t i : Nat}

/-- The next step of a walk that meets no large page. -/
theorem next_cases (h : TablesInv P r s L) {path : List Nat} (hpath : P path)
    (hl : NoLarge s.mem r path) (hpre : π ++ [i] <+: path) (ht : tableAt s.mem r π = some t) :
    (present (entry s.mem t i) = false ∧ tableAt s.mem r (π ++ [i]) = none) ∨
      (present (entry s.mem t i) = true ∧
        tableAt s.mem r (π ++ [i]) = some (ptePage (entry s.mem t i)) ∧
        alignDown (entry s.mem t i) = ptePage (entry s.mem t i)) := by
  cases hp : present (entry s.mem t i) with
  | false =>
      refine Or.inl ⟨rfl, ?_⟩
      rw [tableAt_step ht, child, childOf_of_not_present (by simp [hp])]
  | true =>
      have hnext := tableAt_next hl hpre ht hp
      refine Or.inr ⟨rfl, hnext, alignDown_of_lt ?_⟩
      refine h.plain π t i (h.paths.of_prefix hpath hpre) ht ?_
      rw [tableAt_step ht] at hnext
      rw [hnext]
      rfl

/-- What the three walks of `vmm.c` find of a page: nothing, or its tables and its
entry. -/
inductive Walk (r : Nat) (s : VmmState) (v : Nat) : Prop
  | none (hleaf : leafAt s.mem r v = none) (htrans : translateIn s.mem r v = 0)
      (hmapped : mappedIn s.mem r v = false) (hunmap : unmapPageIn s r v = (false, s))
  | some {pdpt pd pt e : Nat} (ht1 : tableAt s.mem r [idxPml4 v] = some pdpt)
      (ht2 : tableAt s.mem r ([idxPml4 v] ++ [idxPdpt v]) = some pd)
      (ht3 : tableAt s.mem r (tablePath v) = some pt) (hleaf : leafAt s.mem r v = some e)
      (htrans : translateIn s.mem r v = ptePage e + v % pageSize)
      (hmapped : mappedIn s.mem r v = true)
      (hunmap : unmapPageIn s r v = (true, Vmm.unmapTail s r pdpt pd pt v))

/-- A table is missing on the way. -/
theorem leafAt_ancestor {mem : Nat → Nat} {v : Nat} {path : List Nat}
    (hpre : path <+: tablePath v) (hnone : tableAt mem r path = none) : leafAt mem r v = none := by
  obtain ⟨τ, hτ⟩ := hpre
  rw [leafAt, ← hτ, tableAt_append, hnone]
  rfl

/-- Where no large page is met, the walks agree. -/
theorem walk_small (h : TablesInv P r s L) {v : Nat} (hv : P (tablePath v))
    (hl : NoLarge s.mem r (tablePath v)) : Walk r s v := by
  have hpre1 : [] ++ [idxPml4 v] <+: tablePath v := ⟨[idxPdpt v, idxPd v], rfl⟩
  have hpre2 : [idxPml4 v] ++ [idxPdpt v] <+: tablePath v := ⟨[idxPd v], rfl⟩
  obtain ⟨hp1, ht1⟩ | ⟨hp1, ht1, ha1⟩ := h.next_cases hv hl hpre1 (tableAt_nil s.mem r)
  · obtain ⟨htrans, hmapped⟩ := translateIn_of s.mem r v rfl rfl rfl rfl
    have hunmap := unmapPageIn_of s r v rfl rfl rfl rfl
    simp only [hp1, Bool.false_and, Bool.false_eq_true, if_false] at htrans hmapped hunmap
    exact .none (leafAt_ancestor hpre1 ht1) htrans hmapped hunmap
  obtain ⟨hp2, ht2⟩ | ⟨hp2, ht2, ha2⟩ := h.next_cases hv hl hpre2 ht1
  · obtain ⟨htrans, hmapped⟩ := translateIn_of s.mem r v rfl
      (by rw [ha1]) rfl rfl
    have hunmap := unmapPageIn_of s r v rfl rfl rfl rfl
    simp only [hp2, Bool.and_false, Bool.false_and, Bool.false_eq_true, if_false]
      at htrans hmapped hunmap
    exact .none (leafAt_ancestor hpre2 ht2) htrans hmapped hunmap
  obtain ⟨hp3, ht3⟩ | ⟨hp3, ht3, ha3⟩ :=
    h.next_cases (i := idxPd v) hv hl List.prefix_rfl ht2
  · obtain ⟨htrans, hmapped⟩ := translateIn_of s.mem r v rfl
      (by rw [ha1]) (by rw [ha2]) rfl
    have hunmap := unmapPageIn_of s r v rfl rfl rfl rfl
    simp only [hp3, Bool.and_false, Bool.false_and, Bool.false_eq_true, if_false]
      at htrans hmapped hunmap
    exact .none (leafAt_ancestor List.prefix_rfl ht3) htrans hmapped hunmap
  obtain ⟨htrans, hmapped⟩ := translateIn_of s.mem r v rfl
    (by rw [ha1]) (by rw [ha2]) (by rw [ha3])
  have hunmap := unmapPageIn_of s r v rfl rfl rfl rfl
  have hleaf := leafAt_of_table (v := v) ht3
  simp only [hp1, hp2, hp3, Bool.true_and] at htrans hmapped hunmap
  cases hp4 : present (entry s.mem (ptePage (entry s.mem (ptePage (entry s.mem (ptePage
      (entry s.mem r (idxPml4 v))) (idxPdpt v))) (idxPd v))) (idxPt v)) with
  | false =>
      rw [link_none.2 (by simp [hp4])] at hleaf
      simp only [hp4, Bool.false_eq_true, if_false] at htrans hmapped hunmap
      exact .none hleaf htrans hmapped hunmap
  | true =>
      rw [link_some.2 ⟨hp4, rfl⟩] at hleaf
      simp only [hp4, if_true] at htrans hmapped hunmap
      exact .some ht1 ht2 ht3 hleaf htrans hmapped hunmap

/-! ### Mapping a page -/

/-- The step keeps the entries of the other frames and makes no large page. -/
structure LeafStep (P : List Nat → Prop) (r : Nat) (s s' : VmmState) (virt : Nat)
    (o : Option Nat) : Prop where
  leaves : ∀ v, P (tablePath v) →
    leafAt s'.mem r v = if vaPath v = vaPath virt then o else leafAt s.mem r v
  large : ∀ path, P path → NoLarge s.mem r path → NoLarge s'.mem r path

theorem LeafStep.quiet_left {s' s'' : VmmState} {virt : Nat} {o : Option Nat}
    (hq : Quiet P r s s') (hs : LeafStep P r s' s'' virt o) : LeafStep P r s s'' virt o := by
  refine ⟨fun v hv => ?_, fun path hp hl => hs.large path hp (hq.large path hp hl)⟩
  rw [hs.leaves v hv, hq.leaves v hv]

theorem LeafStep.quiet_right {s' s'' : VmmState} {virt : Nat} {o : Option Nat}
    (hs : LeafStep P r s s' virt o) (hq : Quiet P r s' s'') : LeafStep P r s s'' virt o :=
  ⟨fun v hv => (hq.leaves v hv).trans (hs.leaves v hv),
    fun path hp hl => hq.large path hp (hs.large path hp hl)⟩

/-- The entry of a frame is written. -/
theorem setLeaf (h : TablesInv P r s L) {virt : Nat} (hv : P (tablePath virt))
    (ht : tableAt s.mem r (tablePath virt) = some t) (e : Nat) :
    TablesInv P r (s.setEntry t (idxPt virt) e) L ∧
      (∀ σ, P σ → tableAt (s.setEntry t (idxPt virt) e).mem r σ = tableAt s.mem r σ) ∧
      LeafStep P r s (s.setEntry t (idxPt virt) e) virt (if present e then some e else none) := by
  have hi : idxPt virt < 512 := Nat.mod_lt _ (by decide)
  obtain ⟨hinv, htable, hw⟩ := h.setEntry (v := e) hv ht hi (Or.inl rfl)
  have hentry : ∀ σ a j, P σ → tableAt s.mem r σ = some a → j < 512 →
      (a ≠ t ∨ j ≠ idxPt virt) → entry (s.setEntry t (idxPt virt) e).mem a j = entry s.mem a j :=
    fun σ a j hσ ha => hw.entries a j (h.tableAt_mod ha) (h.used σ a hσ ha) (Set.notMem_empty a)
  refine ⟨hinv, htable, ?_, ?_⟩
  · intro v hpv
    split
    · rename_i hpath
      rw [vaPath_eq_tablePath, vaPath_eq_tablePath] at hpath
      obtain ⟨htp, hlast⟩ := List.append_inj' hpath rfl
      obtain hlast : idxPt v = idxPt virt := by simpa using hlast
      have ht' : tableAt (s.setEntry t (idxPt virt) e).mem r (tablePath v) = some t := by
        rw [htp, htable _ hv, ht]
      rw [leafAt_of_table ht', hlast, link, entry_setEntry_self]
    · rename_i hpath
      have heq := htable _ hpv
      cases ha : tableAt s.mem r (tablePath v) with
      | none => rw [leafAt, leafAt, heq, ha, Option.bind_none, Option.bind_none]
      | some a =>
          rw [leafAt_of_table (heq.trans ha), leafAt_of_table ha]
          refine link_congr (hentry _ a _ hpv ha (Nat.mod_lt _ (by decide)) ?_)
          by_contra hsame
          rw [not_or, not_not, not_not] at hsame
          obtain ⟨rfl, hlast⟩ := hsame
          refine hpath ?_
          rw [vaPath_eq_tablePath, vaPath_eq_tablePath, h.tableAt_inj hpv hv ha ht, hlast]
  · intro path hpath hl
    refine noLarge_mono h.paths (fun σ j a hσ ha hp hps => ?_) hpath hl
    have ha' := (htable σ (h.paths.init hσ)).symm.trans ha
    have heq := hentry σ a j (h.paths.init hσ) ha' (h.paths.index_lt hσ) (Or.inl (by
      rintro rfl
      have hlen := h.length_lt hσ
      rw [h.tableAt_inj (h.paths.init hσ) hv ha' ht] at hlen
      simp [tablePath] at hlen))
    exact ⟨ha', heq ▸ hp, heq ▸ hps⟩

/-- `ensure_table` on the way to a page. -/
theorem ensureNext (h : TablesInv P r s L) {path : List Nat} (hpath : P path)
    (hpre : π ++ [i] <+: path) (hl : NoLarge s.mem r path) (ht : tableAt s.mem r π = some t)
    (user : Bool) :
    ∃ L', TablesInv P r (Vmm.ensureTable s t i user).2 L' ∧
      (Vmm.ensureTable s t i user).2.cr3 = s.cr3 ∧ Quiet P r s (Vmm.ensureTable s t i user).2 ∧
      ∀ c, (Vmm.ensureTable s t i user).1 = some c →
        tableAt (Vmm.ensureTable s t i user).2.mem r (π ++ [i]) = some c := by
  obtain ⟨L', hinv, hw, hquiet, -, -, hc⟩ :=
    h.ensureTable (h.paths.of_prefix hpath hpre) ht (hl π i t hpre ht) user
  exact ⟨L', hinv, hw.cr3, hquiet, hc⟩

/-- `vmm_map_page_into` writes the entry of its page, or no entry of a frame. -/
theorem mapPageInto (h : TablesInv P r s L) {virt : Nat} (hv : P (tablePath virt))
    (hl : NoLarge s.mem r (tablePath virt)) (phys flags : Nat) :
    ∃ L', TablesInv P r (vmmMapPageInto s r virt phys flags).2 L' ∧
      (vmmMapPageInto s r virt phys flags).2.cr3 = s.cr3 ∧
      (((vmmMapPageInto s r virt phys flags).1 = false ∧
          Quiet P r s (vmmMapPageInto s r virt phys flags).2) ∨
        ((vmmMapPageInto s r virt phys flags).1 = true ∧
          LeafStep P r s (vmmMapPageInto s r virt phys flags).2 virt
            (some (ptePage phys ||| makePteFlags flags)))) := by
  unfold vmmMapPageInto
  dsimp only
  generalize decide (flags &&& vmmUser ≠ 0) = user
  obtain ⟨L1, h1, hcr1, hq1, hc1⟩ := h.ensureNext (i := idxPml4 virt) hv
    ⟨[idxPdpt virt, idxPd virt], rfl⟩ hl (tableAt_nil _ _) user
  generalize Vmm.ensureTable s r (idxPml4 virt) user = q1 at *
  obtain ⟨_ | pdpt, s1⟩ := q1
  · exact ⟨L1, h1, hcr1, Or.inl ⟨rfl, hq1⟩⟩
  have hl1 := hq1.large _ hv hl
  obtain ⟨L2, h2, hcr2, hq2, hc2⟩ := h1.ensureNext (i := idxPdpt virt) hv ⟨[idxPd virt], rfl⟩ hl1
    (hc1 pdpt rfl) user
  dsimp only at hcr1 hq1 ⊢
  generalize Vmm.ensureTable s1 pdpt (idxPdpt virt) user = q2 at *
  obtain ⟨_ | pd, s2⟩ := q2
  · exact ⟨L2, h2, hcr2.trans hcr1, Or.inl ⟨rfl, hq1.trans hq2⟩⟩
  have hl2 := hq2.large _ hv hl1
  obtain ⟨L3, h3, hcr3, hq3, hc3⟩ := h2.ensureNext (i := idxPd virt) hv ⟨[], rfl⟩ hl2
    (hc2 pd rfl) user
  dsimp only at hcr2 hq2 ⊢
  generalize Vmm.ensureTable s2 pd (idxPd virt) user = q3 at *
  obtain ⟨_ | pt, s3⟩ := q3
  · exact ⟨L3, h3, hcr3.trans (hcr2.trans hcr1), Or.inl ⟨rfl, (hq1.trans hq2).trans hq3⟩⟩
  obtain ⟨hinv, -, hleaf⟩ := h3.setLeaf hv (hc3 pt rfl) (ptePage phys ||| makePteFlags flags)
  rw [if_pos (leaf_spec phys flags).1] at hleaf
  exact ⟨L3, hinv, hcr3.trans (hcr2.trans hcr1),
    Or.inr ⟨rfl, LeafStep.quiet_left ((hq1.trans hq2).trans hq3) hleaf⟩⟩

/-! ### Unmapping a page -/

/-- The entry of a page is cleared and the tables that became empty are given
back. -/
theorem unmapTail (h : TablesInv P r s L) {v pdpt pd pt : Nat} (hv : P (tablePath v))
    (ht1 : tableAt s.mem r [idxPml4 v] = some pdpt)
    (ht2 : tableAt s.mem r ([idxPml4 v] ++ [idxPdpt v]) = some pd)
    (ht3 : tableAt s.mem r (tablePath v) = some pt) :
    ∃ L', TablesInv P r (Vmm.unmapTail s r pdpt pd pt v) L' ∧
      (Vmm.unmapTail s r pdpt pd pt v).cr3 = s.cr3 ∧
      LeafStep P r s (Vmm.unmapTail s r pdpt pd pt v) v none := by
  have hpath3 : P ([idxPml4 v] ++ [idxPdpt v] ++ [idxPd v]) := hv
  have hpath2 := h.paths.init hpath3
  have hpath1 : P ([] ++ [idxPml4 v]) := h.paths.init hpath2
  unfold Vmm.unmapTail
  dsimp only
  -- the entry of the page
  obtain ⟨h1, hsame1, hleaf⟩ := h.setLeaf hv ht3 0
  have hcr1 : (s.setEntry pt (idxPt v) 0).cr3 = s.cr3 := rfl
  generalize s.setEntry pt (idxPt v) 0 = s1 at *
  change LeafStep P r s s1 v none at hleaf
  by_cases hm3 : tableIsEmpty s1.mem pt
  swap
  · simp only [hm3, Bool.not_false, if_true]
    exact ⟨L, h1, hcr1, hleaf⟩
  simp only [hm3, Bool.not_true, Bool.false_eq_true, if_false]
  -- the table of the page
  have htpd := (hsame1 _ hpath2).trans ht2
  have htpt := (hsame1 _ hv).trans ht3
  have hempty3 := VmmInv.tableIsEmpty_iff.1 hm3
  obtain ⟨L2, h2, hsame2, hw2⟩ := h1.prune hpath3 htpd htpt hempty3
  have hq2 := h1.quiet_prune hpath3 htpd htpt hempty3
  have hcr2 := hw2.cr3.trans hcr1
  generalize freePage (s1.setEntry pd (idxPd v) 0) pt = s2 at *
  by_cases hm2 : tableIsEmpty s2.mem pd
  swap
  · simp only [hm2, Bool.not_false, if_true]
    exact ⟨L2, h2, hcr2, hleaf.quiet_right hq2⟩
  simp only [hm2, Bool.not_true, Bool.false_eq_true, if_false]
  -- the table above
  have hs2 : ∀ σ, P σ → σ.length < 3 → tableAt s2.mem r σ = tableAt s.mem r σ := by
    intro σ hσ hlen
    rw [hsame2 σ hσ, if_neg, hsame1 σ hσ]
    rintro rfl
    simp at hlen
  have htpdpt := (hs2 _ hpath1 (by simp)).trans ht1
  have htpd2 := (hs2 _ hpath2 (by simp)).trans ht2
  have hempty2 := VmmInv.tableIsEmpty_iff.1 hm2
  obtain ⟨L3, h3, hsame3, hw3⟩ := h2.prune hpath2 htpdpt htpd2 hempty2
  have hq3 := hq2.trans (h2.quiet_prune hpath2 htpdpt htpd2 hempty2)
  have hcr3 := hw3.cr3.trans hcr2
  generalize freePage (s2.setEntry pdpt (idxPdpt v) 0) pd = s3 at *
  by_cases hm1 : tableIsEmpty s3.mem pdpt
  swap
  · simp only [hm1, Bool.not_false, if_true]
    exact ⟨L3, h3, hcr3, hleaf.quiet_right hq3⟩
  simp only [hm1, Bool.not_true, Bool.false_eq_true, if_false]
  -- the slot of the root
  have htpdpt3 : tableAt s3.mem r ([] ++ [idxPml4 v]) = some pdpt := by
    rw [hsame3 _ hpath1, if_neg (by simp)]
    exact htpdpt
  have hempty1 := VmmInv.tableIsEmpty_iff.1 hm1
  obtain ⟨L4, h4, -, hw4⟩ := h3.prune hpath1 (tableAt_nil _ _) htpdpt3 hempty1
  have hq4 := hq3.trans (h3.quiet_prune hpath1 (tableAt_nil _ _) htpdpt3 hempty1)
  exact ⟨L4, h4, hw4.cr3.trans hcr3, hleaf.quiet_right hq4⟩

end TablesInv

/-! ### The law of one call -/

variable {s : VmmState} {L : List Nat}

/-- The tree of the page map that is loaded. -/
def TreeInv (s : VmmState) (L : List Nat) : Prop := TablesInv TreePath s.cr3 s L

namespace TreeInv

/-- A page that is not inside a large page translates to what its entry says. -/
theorem translate (h : TreeInv s L) {a : Nat} (ha : Small s a) :
    vmmTranslate s a = (leafAt s.mem s.cr3 a).elim 0 (fun e => ptePage e + a % pageSize) ∧
      (Mapped s a ↔ (leafAt s.mem s.cr3 a).isSome) := by
  unfold vmmTranslate Mapped
  rcases TablesInv.walk_small h (treePath_tablePath a) ha with
    ⟨hleaf, htrans, hmapped, -⟩ | ⟨-, -, -, hleaf, htrans, hmapped, -⟩
  · rw [hleaf, htrans, hmapped]
    exact ⟨rfl, by simp⟩
  · rw [hleaf, htrans, hmapped]
    exact ⟨rfl, by simp⟩

/-- A page translates as before if its entry is as before. -/
theorem sameAt (h : TreeInv s L) {s' : VmmState} {L' : List Nat} (h' : TreeInv s' L')
    (hcr3 : s'.cr3 = s.cr3) {a : Nat} (ha : Small s a) (ha' : NoLarge s'.mem s.cr3 (tablePath a))
    (hleaf : leafAt s'.mem s.cr3 a = leafAt s.mem s.cr3 a) : SameAt s s' a := by
  rw [← hcr3] at ha'
  obtain ⟨htrans, hmapped⟩ := h.translate ha
  obtain ⟨htrans', hmapped'⟩ := h'.translate ha'
  rw [hcr3, hleaf] at htrans' hmapped'
  exact ⟨htrans'.trans htrans.symm, hmapped'.trans hmapped.symm⟩

/-- Addresses of one page are inside a large page together. -/
theorem small_congr {a v : Nat} (h : pageNumber a = pageNumber v) (hv : Small s v) : Small s a := by
  rw [Small, (tablePath_congr h).1]
  exact hv

theorem map (h : TreeInv s L) {virt : Nat} (hv : Small s virt) (phys flags : Nat) :
    (∃ L', TreeInv (vmmMapPage s virt phys flags).2 L') ∧
      (PageAct.FrameOk (.map virt phys flags) → FrameLaw (Small s) s (.map virt phys flags)) := by
  have hnum := pageNumber_alignDown virt
  have hv' := small_congr hnum hv
  obtain ⟨L', hinv, hcr3, hcases⟩ := TablesInv.mapPageInto h (treePath_tablePath (alignDown virt))
    hv' phys flags
  have hinv' : TreeInv (vmmMapPage s virt phys flags).2 L' := by
    rw [TreeInv, show (vmmMapPage s virt phys flags).2.cr3 = s.cr3 from hcr3]
    exact hinv
  refine ⟨⟨L', hinv'⟩, ?_⟩
  rintro ⟨hmod, -, hlt⟩
  unfold FrameLaw
  dsimp only
  change _ = s.cr3 at hcr3
  unfold vmmMapPage at hinv' ⊢
  generalize vmmMapPageInto s s.cr3 (alignDown virt) phys flags = q at *
  rcases hcases with ⟨hfalse, hq⟩ | ⟨htrue, hq⟩
  · refine ⟨fun htrue => absurd (hfalse.symm.trans htrue) (by decide), fun _ a ha => ?_⟩
    exact h.sameAt hinv' hcr3 ha (hq.large _ (treePath_tablePath a) ha)
      (hq.leaves a (treePath_tablePath a))
  · refine ⟨fun _ => ⟨fun a ha => ?_, fun a ha hne => ?_⟩,
      fun hfalse => absurd (htrue.symm.trans hfalse) (by decide)⟩
    · have hsmall := hq.large _ (treePath_tablePath a) (small_congr ha hv)
      rw [← hcr3] at hsmall
      rw [(hinv'.translate hsmall).1, hcr3, hq.leaves a (treePath_tablePath a),
        if_pos (vaPath_eq_iff.2 (ha.trans hnum.symm))]
      change ptePage (ptePage phys ||| makePteFlags flags) + a % pageSize = _
      rw [(leaf_spec phys flags).2, ptePage_of_page hmod hlt]
    · refine h.sameAt hinv' hcr3 ha (hq.large _ (treePath_tablePath a) ha) ?_
      rw [hq.leaves a (treePath_tablePath a), if_neg]
      exact fun heq => hne ((vaPath_eq_iff.1 heq).trans hnum)

/-- The tables of the page map that is loaded are not free. -/
theorem not_free (h : TreeInv s L) {p : Nat} (hp : p ∈ freePhys s.pmm) {π : List Nat}
    (hπ : TreePath π) : tableAt s.mem s.cr3 π ≠ some p := by
  intro hat
  rw [freePhys_eq h.pmm] at hp
  exact h.used π p hπ hat hp

theorem unmap (h : TreeInv s L) {virt : Nat} (hv : Small s virt) :
    (∃ L', TreeInv (vmmUnmapPage s virt).2 L') ∧ FrameLaw (Small s) s (.unmap virt) := by
  have hpath := treePath_tablePath virt
  unfold FrameLaw vmmUnmapPage
  dsimp only
  rcases TablesInv.walk_small h hpath hv with
    ⟨-, -, hmapped, hunmap⟩ | ⟨ht1, ht2, ht3, -, -, hmapped, hunmap⟩
  · have hnot : ∀ a, pageNumber a = pageNumber virt → ¬ Mapped s a := by
      intro a ha
      rw [(h.translate (small_congr ha hv)).2, leafAt, (tablePath_congr ha).1,
        (tablePath_congr ha).2, ← leafAt, ← (h.translate hv).2, Mapped, hmapped]
      decide
    rw [hunmap]
    refine ⟨⟨L, h⟩, ?_, hnot, fun a _ _ => ⟨rfl, Iff.rfl⟩, fun p hp hnp => absurd hp hnp⟩
    exact ⟨fun hf => absurd hf (by simp), fun hm => absurd hm (hnot virt rfl)⟩
  · obtain ⟨L', hinv, hcr3, hq⟩ := TablesInv.unmapTail h hpath ht1 ht2 ht3
    rw [hunmap]
    dsimp only
    generalize unmapTail s s.cr3 _ _ _ virt = s' at *
    have hinv' : TreeInv s' L' := by
      rw [TreeInv, hcr3]
      exact hinv
    refine ⟨⟨L', hinv'⟩, ⟨fun _ => hmapped, fun _ => rfl⟩, fun a ha => ?_, fun a ha hne => ?_,
      fun p hp _ π hπ => hinv'.not_free hp hπ⟩
    · have hsmall := hq.large _ (treePath_tablePath a) (small_congr ha hv)
      rw [← hcr3] at hsmall
      rw [(hinv'.translate hsmall).2, hcr3, hq.leaves a (treePath_tablePath a),
        if_pos (vaPath_eq_iff.2 ha)]
      simp
    · refine h.sameAt hinv' hcr3 ha (hq.large _ (treePath_tablePath a) ha) ?_
      rw [hq.leaves a (treePath_tablePath a), if_neg]
      exact fun heq => hne (vaPath_eq_iff.1 heq)

/-- The root that was created has the tables of the kernel's half. -/
theorem enter (hk : KernelReady s) (hne : (vmmCreateUserPagemap s).1 ≠ 0) :
    ∃ L, TreeInv (enterPagemap s) L := by
  obtain ⟨⟨L, hpmm⟩, hstop, hload⟩ := hk
  have hused := hload.used
  rw [freePhys_eq hpmm] at hused
  have h : TablesInv HalfPath s.kernelCr3 s L :=
    ⟨halfPath_tables, hpmm, hstop, hload.page, hload.apart, hload.plain, hused⟩
  have h0 : (allocPage s).1 ≠ 0 := by
    intro h0
    rw [createUserPagemap_failed hpmm h0] at hne
    exact hne rfl
  obtain ⟨L', hp, hupper, hlower⟩ := h.createUserPagemap hload.ne h0
  have hcr3 : (enterPagemap s).cr3 = (vmmCreateUserPagemap s).1 := if_neg hne
  refine ⟨L', ?_⟩
  rw [TreeInv, hcr3]
  change TablesInv TreePath (vmmCreateUserPagemap s).1
    { (vmmCreateUserPagemap s).2 with cr3 := (enterPagemap s).cr3 } L'
  generalize vmmCreateUserPagemap s = q at *
  obtain ⟨p, s1⟩ := q
  -- below the root are the tables of the kernel's half
  have htable : ∀ i π a, i < 512 → TreePath (i :: π) → tableAt s1.mem p (i :: π) = some a →
      HalfPath (i :: π) ∧ tableAt s1.mem s.kernelCr3 (i :: π) = some a := by
    intro i π a hi hπ ha
    by_cases hlo : 256 ≤ i
    · refine ⟨⟨hπ.1, hπ.2, ?_⟩, ?_⟩
      · intro j hj
        obtain rfl : i = j := by simpa using hj
        exact hlo
      · rw [← tableAt_root (congrArg childOf (hupper i hlo hi)) π]
        exact ha
    · have hzero := hlower i (by omega)
      rw [tableAt_below_empty (by rw [hzero]; decide)] at ha
      cases ha
  have hnew : ∀ i π a, TreePath (i :: π) → tableAt s1.mem p (i :: π) = some a →
      HalfPath (i :: π) ∧ tableAt s1.mem s.kernelCr3 (i :: π) = some a :=
    fun i π a hπ => htable i π a (hπ.2 i (by simp)) hπ
  have hnotp : ∀ i π, TreePath (i :: π) → tableAt s1.mem p (i :: π) ≠ some p := by
    intro i π hπ ha
    obtain ⟨hhalf, ha⟩ := hnew i π p hπ ha
    exact hp.not_table h hhalf ((hp.tables _ hhalf).symm.trans ha) rfl
  refine ⟨treePath_tables, hp.inv.pmm, hp.inv.stop_le, ptePage_of_page hp.mod hp.lt, ?_, ?_, ?_⟩
  · rintro r π r' σ a b ⟨rfl, hπ⟩ ⟨rfl, hσ⟩ ha hb hab
    obtain rfl : a = b := hab
    refine ⟨rfl, ?_⟩
    cases π with
    | nil =>
        obtain rfl := Option.some.inj ha
        cases σ with
        | nil => rfl
        | cons j σ => exact absurd hb (hnotp j σ hσ)
    | cons i π =>
        cases σ with
        | nil =>
            obtain rfl := Option.some.inj hb
            exact absurd ha (hnotp i π hπ)
        | cons j σ =>
            obtain ⟨hhalf, ha⟩ := hnew i π a hπ ha
            obtain ⟨hhalf', hb⟩ := hnew j σ a hσ hb
            exact hp.inv.tableAt_inj hhalf hhalf' ha hb
  · intro π t i hπ ht hsome
    cases π with
    | nil =>
        obtain rfl := Option.some.inj ht
        have hi : i < 512 := hπ.2 i (by simp)
        by_cases hlo : 256 ≤ i
        · have heq := hupper i hlo hi
          change (childOf (entry s1.mem p i)).isSome at hsome
          rw [heq] at hsome
          change entry s1.mem p i < 2 ^ 52
          rw [heq]
          refine hp.inv.plain [] _ i ⟨by simp, by simpa using hi, by simpa using hlo⟩ rfl hsome
        · change entry s1.mem p i < 2 ^ 52
          rw [hlower i (by omega)]
          decide
    | cons j π =>
        obtain ⟨hhalf, ht⟩ := hnew j π t (treePath_tables.init hπ) ht
        exact hp.inv.plain _ t i ⟨hπ.1, hπ.2, fun m hm => hhalf.2.2 m hm⟩ ht hsome
  · intro π t hπ ht
    cases π with
    | nil =>
        obtain rfl := Option.some.inj ht
        exact hp.not_free
    | cons j π =>
        obtain ⟨hhalf, ht⟩ := hnew j π t hπ ht
        exact hp.inv.used _ t hhalf ht

/-! ### Runs -/

theorem step (h : TreeInv s L) {a : PageAct} (ha : Small s a.virt) :
    ∃ L', TreeInv (pageStep s a) L' := by
  cases a with
  | map virt phys flags => exact (h.map ha phys flags).1
  | unmap virt => exact (h.unmap ha).1

end TreeInv

/-- In every page map that is created while the kernel's half is in order, after
every sequence of maps and unmaps outside large pages, the frame law holds of the
next call outside large pages. -/
theorem frameLaw_run (hk : KernelReady s) (hne : (vmmCreateUserPagemap s).1 ≠ 0)
    {as : List PageAct}
    (hrun : AllSteps pageStep (fun s a => Small s a.virt) (enterPagemap s) as) {a : PageAct}
    (hok : a.FrameOk) (ha : Small (run pageStep (enterPagemap s) as) a.virt) :
    FrameLaw (Small (run pageStep (enterPagemap s) as)) (run pageStep (enterPagemap s) as) a := by
  obtain ⟨L, h⟩ := inv_run (fun s => ∃ L, TreeInv s L) (fun _ _ ⟨_, h⟩ hsmall => h.step hsmall)
    (TreeInv.enter hk hne) hrun
  cases a with
  | map virt phys flags => exact (h.map ha phys flags).2 hok
  | unmap virt => exact (h.unmap ha).2

/-! ### A machine with a direct map -/

/-- The boot loader's tables on a machine with 64 MiB: the direct map, in large
pages of 2 MiB. -/
def directMap (w : Nat) : Nat :=
  if w = 0x1000 + 8 * 256 then 0x2003
  else if w = 0x2000 then 0x3003
  else if 0x3000 ≤ w ∧ w < 0x3000 + 8 * 32 ∧ w % 8 = 0 then (w - 0x3000) / 8 * 0x200000 + 0x83
  else 0

def directMaps : VmmState := (Maps.start memmap64M 1 directMap 0x1000).vmm

theorem child_directMap :
    (∀ i < 512, child directMap 0x1000 i = if i = 256 then some 0x2000 else none) ∧
      (∀ i < 512, child directMap 0x2000 i = if i = 0 then some 0x3000 else none) ∧
      ∀ i < 512, child directMap 0x3000 i = none := by
  decide +kernel

/-- The root, one table below it and the table with the large pages. -/
theorem tableAt_directMap {π : List Nat} {t : Nat} (hπ : HalfPath π)
    (ht : tableAt directMap 0x1000 π = some t) :
    (π = [] ∧ t = 0x1000) ∨ (π = [256] ∧ t = 0x2000) ∨ (π = [256, 0] ∧ t = 0x3000) := by
  obtain ⟨hroot, hmid, hlast⟩ := child_directMap
  induction π using List.reverseRecOn generalizing t with
  | nil => exact Or.inl ⟨rfl, (Option.some.inj ht).symm⟩
  | append_singleton σ j ih =>
      have hj := halfPath_tables.index_lt hπ
      rw [tableAt_snoc] at ht
      obtain ⟨a, ha, hchild⟩ := Option.bind_eq_some_iff.1 ht
      obtain ⟨rfl, rfl⟩ | ⟨rfl, rfl⟩ | ⟨rfl, rfl⟩ := ih hπ.init ha
      · rw [hroot j hj] at hchild
        split at hchild
        · rename_i heq
          subst heq
          exact Or.inr (Or.inl ⟨rfl, (Option.some.inj hchild).symm⟩)
        · cases hchild
      · rw [hmid j hj] at hchild
        split at hchild
        · rename_i heq
          subst heq
          exact Or.inr (Or.inr ⟨rfl, (Option.some.inj hchild).symm⟩)
        · cases hchild
      · rw [hlast j hj] at hchild
        cases hchild

theorem kernelReady_directMaps : KernelReady directMaps := by
  have hmm : EndsBelow (2 ^ 52) memmap64M := by
    intro entries hentries e he _
    obtain rfl := Option.some.inj hentries
    obtain rfl : e = ⟨0, 0x4000000, 0⟩ := by simpa using he
    decide
  obtain ⟨hinv, hstop⟩ := pmmInit_stop_le hmm (show 1 ≠ 0 by decide) directMap (by decide)
  have hmem : directMaps.mem = directMap := pmmInit_mem _ _ _
  have hk : directMaps.kernelCr3 = 0x1000 := rfl
  refine ⟨⟨[], hinv⟩, hstop, ?_⟩
  rw [hmem, hk]
  refine ⟨by decide, by decide, ?_, ?_, ?_⟩
  · rintro r π r' σ a b ⟨rfl, hπ⟩ ⟨rfl, hσ⟩ ha hb hab
    obtain rfl : a = b := hab
    refine ⟨rfl, ?_⟩
    rcases tableAt_directMap hπ ha with ⟨rfl, rfl⟩ | ⟨rfl, rfl⟩ | ⟨rfl, rfl⟩ <;>
      rcases tableAt_directMap hσ hb with ⟨rfl, h⟩ | ⟨rfl, h⟩ | ⟨rfl, h⟩ <;>
      first | rfl | cases h
  · intro π t i hπ ht hsome
    have hi := halfPath_tables.index_lt hπ
    obtain ⟨c, hc⟩ := Option.isSome_iff_exists.1 hsome
    obtain ⟨hroot, hmid, hlast⟩ := child_directMap
    rcases tableAt_directMap hπ.init ht with ⟨rfl, rfl⟩ | ⟨rfl, rfl⟩ | ⟨rfl, rfl⟩
    · rw [hroot i hi] at hc
      split at hc
      · rename_i heq
        subst heq
        decide
      · cases hc
    · rw [hmid i hi] at hc
      split at hc
      · rename_i heq
        subst heq
        decide
      · cases hc
    · rw [hlast i hi] at hc
      cases hc
  · intro π t hπ ht
    change t ∉ freePhys (pmmInit memmap64M 1 (.boot directMap))
    rw [freePhys_eq hinv]
    have hcursor : 0x4000 ≤ (pmmInit memmap64M 1 (.boot directMap)).cursor := by decide
    rintro (hin | ⟨-, hlo, -⟩)
    · cases hin
    · rcases tableAt_directMap hπ ht with ⟨-, rfl⟩ | ⟨-, rfl⟩ | ⟨-, rfl⟩ <;> omega

/-- A page is mapped in the lower half and unmapped again. -/
theorem frameLaw_run_directMap :
    FrameLaw (Small (run pageStep (enterPagemap directMaps) [.map 0x400000 0x9000 7]))
      (run pageStep (enterPagemap directMaps) [.map 0x400000 0x9000 7]) (.unmap 0x400000) := by
  have hrun : AllSteps pageStep (fun s a => Small s a.virt) (enterPagemap directMaps)
      [.map 0x400000 0x9000 7] := by
    refine ⟨?_, trivial⟩
    refine noLarge_of_tables ?_ ?_ ?_ <;> decide
  refine frameLaw_run kernelReady_directMaps (by decide) hrun trivial ?_
  refine noLarge_of_tables ?_ ?_ ?_ <;> decide

/-- In the direct map the first page of a large frame is read as a table: a map in
the lower half changes the translation of an address of the direct map. A kernel's
half that has lost a table to another page map makes a page map that is not a
tree. -/
theorem not_frameLaw :
    (KernelReady directMaps ∧ (vmmCreateUserPagemap directMaps).1 ≠ 0 ∧
      ¬ FrameLaw (fun _ => True) (enterPagemap directMaps) (.map 0x5000 0x9000 2)) ∧
    ¬ FrameLaw (fun _ => True) (enterPagemap (run halfStep bareMaps
      [.map 0xFFFF900000000000 0x5000 2, .create, .switchTo 0x1003000,
        .unmap 0xFFFF900000000000]).vmm) (.map 0 0x5000 2) := by
  refine ⟨⟨kernelReady_directMaps, by decide, fun h => ?_⟩, fun h => ?_⟩
  · have hsame := ((h.1 (by decide)).2 0xFFFF800001000000 trivial (by decide)).1
    revert hsame
    decide
  · have hsame := ((h.1 (by decide +kernel)).2 0xFFFF900000000000 trivial (by decide)).1
    revert hsame
    decide +kernel

end FiFi.Vmm
