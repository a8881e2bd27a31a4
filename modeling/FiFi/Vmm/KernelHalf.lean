import FiFi.Library.StateMachine
import FiFi.Vmm.Half

/-!
# Sharing the kernel half

`vmm_create_user_pagemap` copies the entries 256 to 511 of the kernel's root, so
that all page maps share the tables below them. `vmm_map_page` and
`vmm_unmap_page` work on the loaded page map. Where a map has to make the table
of a slot, or an unmap gives back the last one, only the loaded root is written,
and the other page maps keep what they had: nothing, or an entry that leads to a
page that is free.
-/

namespace FiFi.Vmm

open Pmm LinkedList RadixForest StateMachine

/-! ### Steps -/

/-- The memory and the page maps of processes. -/
structure Maps where
  vmm : VmmState
  roots : List Nat

inductive HalfAct
  | create
  | map (virt phys flags : Nat)
  | unmap (virt : Nat)
  | switchTo (root : Nat)
  deriving DecidableEq, Repr

/-- One step. Pages are mapped and unmapped in the upper half of the page map that
is loaded, and the page maps that are loaded are the kernel's and those of
processes. -/
def halfStep (s : Maps) : HalfAct → Maps
  | .create =>
      let q := vmmCreateUserPagemap s.vmm
      ⟨q.2, if q.1 = 0 then s.roots else q.1 :: s.roots⟩
  | .map virt phys flags =>
      if 256 ≤ idxPml4 virt then ⟨(vmmMapPage s.vmm virt phys flags).2, s.roots⟩ else s
  | .unmap virt => if 256 ≤ idxPml4 virt then ⟨(vmmUnmapPage s.vmm virt).2, s.roots⟩ else s
  | .switchTo root =>
      if root = 0 ∨ root = s.vmm.kernelCr3 ∨ root ∈ s.roots then ⟨vmmSwitchTo s.vmm root, s.roots⟩
      else s

/-! ### The property -/

/-- Every page map of a process translates the upper half as the kernel's. -/
def SharedHalf (s : Maps) : Prop :=
  ∀ r ∈ s.roots, ∀ v, 256 ≤ idxPml4 v →
    translateIn s.vmm.mem r v = translateIn s.vmm.mem s.vmm.kernelCr3 v ∧
    hwTranslate s.vmm.mem r v = hwTranslate s.vmm.mem s.vmm.kernelCr3 v

/-- No page map leads to a table of the upper half that is free. -/
def TablesInUse (s : Maps) : Prop :=
  ∀ r, r ∈ s.roots ∨ r = s.vmm.kernelCr3 → ∀ π t, HalfPath π →
    tableAt s.vmm.mem r π = some t → t ∉ freePhys s.vmm.pmm

/-- The entry is the only one of its table. -/
def OnlyEntry (mem : Nat → Nat) (t i : Nat) : Prop := ∀ j < 512, present (entry mem t j) → j = i

/-- The page is mapped, and nothing else is in its slot of the root. -/
def LastOfSlot (mem : Nat → Nat) (k v : Nat) : Prop :=
  ∃ pdpt pd pt, tableAt mem k [idxPml4 v] = some pdpt ∧
    tableAt mem k [idxPml4 v, idxPdpt v] = some pd ∧ tableAt mem k (tablePath v) = some pt ∧
    present (entry mem pt (idxPt v)) ∧ OnlyEntry mem pt (idxPt v) ∧ OnlyEntry mem pd (idxPd v) ∧
    OnlyEntry mem pdpt (idxPdpt v)

/-- The condition on a step: pages are not mapped or unmapped inside large pages,
and once there are page maps of processes, a map finds the table of its slot and
an unmap leaves it. -/
def HalfOk (s : Maps) : HalfAct → Prop
  | .map virt _ _ => 256 ≤ idxPml4 virt →
      NoLarge s.vmm.mem s.vmm.kernelCr3 (tablePath virt) ∧
      (s.roots = [] ∨ present (entry s.vmm.mem s.vmm.kernelCr3 (idxPml4 virt)))
  | .unmap virt => 256 ≤ idxPml4 virt →
      NoLarge s.vmm.mem s.vmm.kernelCr3 (tablePath virt) ∧
      (s.roots = [] ∨ ¬ LastOfSlot s.vmm.mem s.vmm.kernelCr3 virt)
  | _ => True

namespace HalfInv

variable {roots : List Nat} {s : VmmState} {L : List Nat} {π : List Nat} {t i : Nat}

/-! ### Mapping a page -/

/-- `ensure_table` on the way to a page. -/
theorem ensureNext (h : HalfInv roots s L) {path : List Nat} (hpath : HalfPath path)
    (hpre : π ++ [i] <+: path) (hl : NoLarge s.mem s.kernelCr3 path)
    (ht : tableAt s.mem s.kernelCr3 π = some t)
    (hroot : present (entry s.mem t i) ∨ π ≠ [] ∨ roots = []) (user : Bool) :
    ∃ L', HalfInv roots (Vmm.ensureTable s t i user).2 L' ∧
      ∀ c, (Vmm.ensureTable s t i user).1 = some c →
        tableAt (Vmm.ensureTable s t i user).2.mem (Vmm.ensureTable s t i user).2.kernelCr3
          (π ++ [i]) = some c ∧
        NoLarge (Vmm.ensureTable s t i user).2.mem (Vmm.ensureTable s t i user).2.kernelCr3 path := by
  obtain ⟨L', hinv, hk, hquiet, hc⟩ :=
    h.ensureTable (halfPath_tables.of_prefix hpath hpre) ht hroot (hl π i t hpre ht) user
  rw [hk]
  exact ⟨L', hinv, fun c heq => ⟨hc c heq, hquiet.large path hpath hl⟩⟩

/-- The same in the slot of the root that is loaded. -/
theorem ensureFirst (h : HalfInv roots s L) {path : List Nat} (hpath : HalfPath path)
    (hpre : [i] <+: path) (hl : NoLarge s.mem s.kernelCr3 path) {r : Nat}
    (hr : r ∈ roots ∨ r = s.kernelCr3)
    (hroot : roots = [] ∨ present (entry s.mem s.kernelCr3 i)) (user : Bool) :
    ∃ L', HalfInv roots (Vmm.ensureTable s r i user).2 L' ∧
      ∀ c, (Vmm.ensureTable s r i user).1 = some c →
        tableAt (Vmm.ensureTable s r i user).2.mem (Vmm.ensureTable s r i user).2.kernelCr3
          [i] = some c ∧
        NoLarge (Vmm.ensureTable s r i user).2.mem (Vmm.ensureTable s r i user).2.kernelCr3 path := by
  rcases hr with hr | rfl
  · have hi := halfPath_tables.of_prefix hpath hpre
    have hp : present (entry s.mem s.kernelCr3 i) := by
      rcases hroot with rfl | hp
      · cases hr
      · exact hp
    have hal := h.entries r hr i (hi.2.2 i rfl) (hi.2.1 i (by simp))
    have hsmall := hl [] i s.kernelCr3 hpre rfl hp
    have hchild : childOf (entry s.mem s.kernelCr3 i) = some (ptePage (entry s.mem s.kernelCr3 i)) :=
      childOf_some.2 ⟨hp, hsmall, rfl⟩
    have htable : tableAt s.mem s.kernelCr3 [i] = some (ptePage (entry s.mem r i)) := by
      rw [tableAt_singleton, child, hchild, hal.ptePage]
    have hlt : entry s.mem r i < 2 ^ 52 :=
      hal.lt (h.plain [] s.kernelCr3 i hi rfl (by rw [child, hchild]; rfl))
    unfold Vmm.ensureTable
    simp only [hal.present, hp, if_true, alignDown_of_lt hlt]
    cases user with
    | false =>
        refine ⟨L, h, ?_⟩
        rintro c hc
        obtain rfl := Option.some.inj hc
        exact ⟨htable, hl⟩
    | true =>
        obtain ⟨hinv, htables, hentry⟩ := h.setRoot hr (hi.2.1 i (by simp))
          (alike_or_us (entry s.mem r i))
        refine ⟨L, hinv, ?_⟩
        rintro c hc
        obtain rfl := Option.some.inj hc
        refine ⟨(htables _ hi).trans htable, noLarge_mono halfPath_tables ?_ hpath hl⟩
        intro σ j a hσ ha hpres hps
        have ha' := (htables σ hσ.init).symm.trans ha
        have heq := hentry σ j a hσ.init (halfPath_tables.index_lt hσ) ha'
        exact ⟨ha', heq ▸ hpres, heq ▸ hps⟩
  · exact h.ensureNext hpath hpre hl (tableAt_nil _ _) (hroot.elim (fun h => Or.inr (Or.inr h)) Or.inl)
      user

theorem mapPageInto (h : HalfInv roots s L) {r virt : Nat} (hr : r ∈ roots ∨ r = s.kernelCr3)
    (hv : 256 ≤ idxPml4 virt) (hl : NoLarge s.mem s.kernelCr3 (tablePath virt))
    (hroot : roots = [] ∨ present (entry s.mem s.kernelCr3 (idxPml4 virt))) (phys flags : Nat) :
    ∃ L', HalfInv roots (vmmMapPageInto s r virt phys flags).2 L' := by
  have hpath := halfPath_tablePath hv
  unfold vmmMapPageInto
  dsimp only
  generalize decide (flags &&& vmmUser ≠ 0) = user
  obtain ⟨L1, h1, hc1⟩ := h.ensureFirst (i := idxPml4 virt) hpath ⟨_, rfl⟩ hl hr hroot user
  generalize Vmm.ensureTable s r (idxPml4 virt) user = q1 at h1 hc1
  obtain ⟨_ | pdpt, s1⟩ := q1
  · exact ⟨L1, h1⟩
  obtain ⟨ht1, hl1⟩ := hc1 pdpt rfl
  obtain ⟨L2, h2, hc2⟩ := h1.ensureNext (i := idxPdpt virt) hpath ⟨[idxPd virt], rfl⟩ hl1 ht1
    (Or.inr (Or.inl (by simp))) user
  dsimp only
  generalize Vmm.ensureTable s1 pdpt (idxPdpt virt) user = q2 at h2 hc2
  obtain ⟨_ | pd, s2⟩ := q2
  · exact ⟨L2, h2⟩
  obtain ⟨ht2, hl2⟩ := hc2 pd rfl
  obtain ⟨L3, h3, hc3⟩ := h2.ensureNext (i := idxPd virt) hpath ⟨[], rfl⟩ hl2 ht2
    (Or.inr (Or.inl (by simp))) user
  dsimp only
  generalize Vmm.ensureTable s2 pd (idxPd virt) user = q3 at h3 hc3
  obtain ⟨_ | pt, s3⟩ := q3
  · exact ⟨L3, h3⟩
  obtain ⟨ht3, -⟩ := hc3 pt rfl
  exact ⟨L3, (h3.setLeaf hpath ht3 (Nat.mod_lt _ (by decide)) rfl _).1⟩

/-! ### Unmapping a page -/

end HalfInv

/-- `vmm_unmap_page` after it found the page and its tables. -/
def unmapTail (s : VmmState) (root pdpt pd pt v : Nat) : VmmState :=
  let s := s.setEntry pt (idxPt v) 0
  if !tableIsEmpty s.mem pt then s
  else
    let s := freePage (s.setEntry pd (idxPd v) 0) pt
    if !tableIsEmpty s.mem pd then s
    else
      let s := freePage (s.setEntry pdpt (idxPdpt v) 0) pd
      if !tableIsEmpty s.mem pdpt then s else freePage (s.setEntry root (idxPml4 v) 0) pdpt

theorem idx_alignDown (v : Nat) :
    idxPml4 (alignDown v) = idxPml4 v ∧ idxPdpt (alignDown v) = idxPdpt v ∧
      idxPd (alignDown v) = idxPd v ∧ idxPt (alignDown v) = idxPt v := by
  simp only [idxPml4, idxPdpt, idxPd, idxPt, alignDown, pageSize]
  omega

/-- The page and its tables are found, or nothing is done. -/
theorem unmapPageIn_of (s : VmmState) (r virt : Nat) {e1 e2 e3 e4 : Nat}
    (h1 : entry s.mem r (idxPml4 virt) = e1) (h2 : entry s.mem (ptePage e1) (idxPdpt virt) = e2)
    (h3 : entry s.mem (ptePage e2) (idxPd virt) = e3)
    (h4 : entry s.mem (ptePage e3) (idxPt virt) = e4) :
    unmapPageIn s r virt = if present e1 && present e2 && present e3 && present e4 then
      (true, unmapTail s r (ptePage e1) (ptePage e2) (ptePage e3) virt) else (false, s) := by
  obtain ⟨hx1, hx2, hx3, hx4⟩ := idx_alignDown virt
  unfold unmapPageIn unmapTail
  simp only [hx1, hx2, hx3, hx4, h1, h2, h3, h4]
  cases present e1 with
  | false => rfl
  | true =>
      cases present e2 with
      | false => rfl
      | true =>
          cases present e3 with
          | false => rfl
          | true =>
              cases present e4 with
              | false => rfl
              | true =>
                  simp only [Bool.not_true, Bool.false_eq_true, if_false, Bool.and_self, if_true]
                  split_ifs <;> rfl

namespace HalfInv

variable {roots : List Nat} {s : VmmState} {L : List Nat} {π : List Nat} {t i : Nat}

/-- The entries of the loaded root lead where the kernel's do. -/
theorem alike_root (h : HalfInv roots s L) {r : Nat} (hr : r ∈ roots ∨ r = s.kernelCr3)
    (hlo : 256 ≤ i) (hi : i < 512) : Alike (entry s.mem r i) (entry s.mem s.kernelCr3 i) := by
  rcases hr with hr | rfl
  · exact h.entries r hr i hlo hi
  · exact Alike.refl _

/-- A table that became empty had only the entry that was cleared. -/
theorem onlyEntry_of_empty {mem mem' : Nat → Nat} (hempty : tableIsEmpty mem' t)
    (hsame : ∀ j < 512, j ≠ i → entry mem' t j = entry mem t j) : OnlyEntry mem t i := by
  intro j hj hp
  by_contra hne
  refine VmmInv.tableIsEmpty_iff.1 hempty j hj ?_
  rw [hsame j hj hne]
  exact hp

/-- The entry of a page is cleared and the tables that became empty are given back.
The root is written only if there are no page maps of processes. -/
theorem unmapTail (h : HalfInv roots s L) {v pdpt pd pt : Nat} (hv : 256 ≤ idxPml4 v)
    (ht1 : tableAt s.mem s.kernelCr3 [idxPml4 v] = some pdpt)
    (ht2 : tableAt s.mem s.kernelCr3 ([idxPml4 v] ++ [idxPdpt v]) = some pd)
    (ht3 : tableAt s.mem s.kernelCr3 ([idxPml4 v] ++ [idxPdpt v] ++ [idxPd v]) = some pt)
    {r : Nat}
    (hlast : (roots = [] ∧ r = s.kernelCr3) ∨ ¬ (OnlyEntry s.mem pt (idxPt v) ∧
      OnlyEntry s.mem pd (idxPd v) ∧ OnlyEntry s.mem pdpt (idxPdpt v))) :
    ∃ L', HalfInv roots (unmapTail s r pdpt pd pt v) L' := by
  have hpath : HalfPath ([idxPml4 v] ++ [idxPdpt v] ++ [idxPd v]) := halfPath_tablePath hv
  have hpath2 := hpath.init
  have hpath1 : HalfPath ([] ++ [idxPml4 v]) := hpath2.init
  have hi4 : idxPt v < 512 := Nat.mod_lt _ (by decide)
  have hne12 : pdpt ≠ pd := by
    rintro rfl
    exact absurd (h.tables.tableAt_inj hpath1 hpath2 ht1 ht2) (by simp)
  have hne13 : pdpt ≠ pt := by
    rintro rfl
    exact absurd (h.tables.tableAt_inj hpath1 hpath ht1 ht3) (by simp)
  have hne23 : pd ≠ pt := by
    rintro rfl
    exact absurd (h.tables.tableAt_inj hpath2 hpath ht2 ht3) (by simp)
  unfold Vmm.unmapTail
  dsimp only
  -- the entry of the page
  obtain ⟨h1, hsame1⟩ := h.setLeaf hpath ht3 hi4 rfl 0
  have hentry1 : ∀ {σ a j}, tableAt s.mem s.kernelCr3 σ = some a → j < 512 →
      (a ≠ pt ∨ j ≠ idxPt v) → entry (s.setEntry pt (idxPt v) 0).mem a j = entry s.mem a j :=
    fun ha hj hor =>
      update_entry_ne (h.tables.tableAt_mod ht3) (h.tables.tableAt_mod ha) hi4 hj hor
  have hk1 : (s.setEntry pt (idxPt v) 0).kernelCr3 = s.kernelCr3 := rfl
  generalize s.setEntry pt (idxPt v) 0 = s1 at *
  rw [← hk1] at hsame1
  by_cases hm3 : tableIsEmpty s1.mem pt
  swap
  · simp only [hm3, Bool.not_false, if_true]
    exact ⟨L, h1⟩
  simp only [hm3, Bool.not_true, Bool.false_eq_true, if_false]
  -- the table of the page
  have hs1 : ∀ σ, HalfPath σ → tableAt s1.mem s1.kernelCr3 σ = tableAt s.mem s.kernelCr3 σ :=
    fun σ hσ => by rw [hsame1 σ hσ, hk1]
  obtain ⟨L2, h2, hsame2, hentry2⟩ := h1.prune (t := pd) (c := pt) hpath
    ((hs1 _ hpath2).trans ht2) ((hs1 _ hpath).trans ht3) (VmmInv.tableIsEmpty_iff.1 hm3)
    (Or.inl (by simp))
  have hk2 : (freePage (s1.setEntry pd (idxPd v) 0) pt).kernelCr3 = s1.kernelCr3 := rfl
  generalize freePage (s1.setEntry pd (idxPd v) 0) pt = s2 at *
  by_cases hm2 : tableIsEmpty s2.mem pd
  swap
  · simp only [hm2, Bool.not_false, if_true]
    exact ⟨L2, h2⟩
  simp only [hm2, Bool.not_true, Bool.false_eq_true, if_false]
  -- the table above
  have hs2 : ∀ σ, HalfPath σ → σ.length < 3 →
      tableAt s2.mem s2.kernelCr3 σ = tableAt s.mem s.kernelCr3 σ := by
    intro σ hσ hlen
    rw [hk2, hsame2 σ hσ, if_neg, hs1 σ hσ]
    rintro rfl
    simp at hlen
  obtain ⟨L3, h3, hsame3, hentry3⟩ := h2.prune (t := pdpt) (c := pd) hpath2
    ((hs2 _ hpath1 (by simp)).trans ht1) ((hs2 _ hpath2 (by simp)).trans ht2)
    (VmmInv.tableIsEmpty_iff.1 hm2) (Or.inl (by simp))
  have hk3 : (freePage (s2.setEntry pdpt (idxPdpt v) 0) pd).kernelCr3 = s2.kernelCr3 := rfl
  generalize freePage (s2.setEntry pdpt (idxPdpt v) 0) pd = s3 at *
  by_cases hm1 : tableIsEmpty s3.mem pdpt
  swap
  · simp only [hm1, Bool.not_false, if_true]
    exact ⟨L3, h3⟩
  simp only [hm1, Bool.not_true, Bool.false_eq_true, if_false]
  rcases hlast with ⟨hnil, rfl⟩ | hlast
  · -- the slot of the root
    have ht1' : tableAt s3.mem s3.kernelCr3 ([] ++ [idxPml4 v]) = some pdpt := by
      rw [hk3, hsame3 _ hpath1, if_neg (by simp), hs2 _ hpath1 (by simp)]
      exact ht1
    have hroot : s3.kernelCr3 = s.kernelCr3 := hk3.trans (hk2.trans hk1)
    obtain ⟨L4, h4, -⟩ := h3.prune (t := s3.kernelCr3) (c := pdpt) hpath1 rfl ht1'
      (VmmInv.tableIsEmpty_iff.1 hm1) (Or.inr hnil)
    rw [hroot] at h4
    exact ⟨L4, h4⟩
  · refine absurd ⟨?_, ?_, ?_⟩ hlast
    · exact onlyEntry_of_empty hm3 fun j hj hne => hentry1 ht3 hj (Or.inr hne)
    · refine onlyEntry_of_empty hm2 fun j hj hne => ?_
      rw [hentry2 _ pd j hpath2 ((hs1 _ hpath2).trans ht2) hne23 hj (Or.inr hne)]
      exact hentry1 ht2 hj (Or.inl hne23)
    · refine onlyEntry_of_empty hm1 fun j hj hne => ?_
      rw [hentry3 _ pdpt j hpath1 ((hs2 _ hpath1 (by simp)).trans ht1) hne12 hj (Or.inr hne),
        hentry2 _ pdpt j hpath1 ((hs1 _ hpath1).trans ht1) hne13 hj (Or.inl hne12)]
      exact hentry1 ht1 hj (Or.inl hne13)

theorem unmapPageIn (h : HalfInv roots s L) {r virt : Nat} (hr : r ∈ roots ∨ r = s.kernelCr3)
    (hv : 256 ≤ idxPml4 virt) (hl : NoLarge s.mem s.kernelCr3 (tablePath virt))
    (hlast : roots = [] ∨ ¬ LastOfSlot s.mem s.kernelCr3 virt) :
    ∃ L', HalfInv roots (unmapPageIn s r virt).2 L' := by
  have hal := h.alike_root hr hv (Nat.mod_lt _ (by decide))
  rw [unmapPageIn_of s r virt rfl rfl rfl rfl]
  split
  · rename_i hp
    simp only [Bool.and_eq_true] at hp
    obtain ⟨⟨⟨hp1, hp2⟩, hp3⟩, hp4⟩ := hp
    rw [hal.present] at hp1
    rw [hal.ptePage] at hp2 hp3 hp4 ⊢
    have ht1 := tableAt_next hl ⟨[idxPdpt virt, idxPd virt], rfl⟩ (tableAt_nil _ _) hp1
    have ht2 := tableAt_next hl ⟨[idxPd virt], rfl⟩ ht1 hp2
    have ht3 := tableAt_next hl ⟨[], rfl⟩ ht2 hp3
    have hend := h.unmapTail (r := r) hv ht1 ht2 ht3 (by
      rcases hlast with rfl | hlast
      · exact Or.inl ⟨rfl, hr.resolve_left (List.not_mem_nil)⟩
      · exact Or.inr fun hall => hlast ⟨_, _, _, ht1, ht2, ht3, hp4, hall⟩)
    dsimp only
    exact hend
  · exact ⟨L, h⟩

/-! ### A new page map -/

/-- A page that was taken becomes a root. -/
theorem addRoot {s1 : VmmState} {L' : List Nat} {p : Nat} (h : HalfInv roots s L)
    (h1 : HalfInv roots s1 L') (hp : TablesInv.Taken HalfPath s.kernelCr3 s L s1 L' p)
    (hentries : ∀ j, 256 ≤ j → j < 512 → entry s1.mem p j = entry s1.mem s1.kernelCr3 j) :
    HalfInv (p :: roots) s1 L' := by
  refine ⟨h1.pmm, h1.stop_le, h1.kernel_ne, h1.kernel, h1.apart, h1.plain, h1.used, ?_, ?_, ?_, ?_,
    h1.loaded.imp_left (List.mem_cons_of_mem p)⟩
  · intro r hr
    rcases List.mem_cons.1 hr with rfl | hr
    · exact ptePage_of_page hp.mod hp.lt
    · exact h1.page r hr
  · intro r hr
    rcases List.mem_cons.1 hr with rfl | hr
    · exact hp.not_free
    · exact h1.root_used r hr
  · intro r hr σ a hσ ha
    rcases List.mem_cons.1 hr with rfl | hr
    · rw [hp.kernelCr3, hp.tables σ hσ] at ha
      exact hp.not_table h.tables hσ ha
    · exact h1.root_apart r hr σ a hσ ha
  · intro r hr j hlo hj
    rcases List.mem_cons.1 hr with rfl | hr
    · rw [hentries j hlo hj]
      exact Alike.refl _
    · exact h1.entries r hr j hlo hj

end HalfInv

/-- `vmm_create_user_pagemap` takes a page, empties its lower half and copies the
kernel's entries to the upper half. -/
theorem createUserPagemap_eq {s : VmmState} (hk : s.kernelCr3 ≠ 0) (h0 : (allocPage s).1 ≠ 0) :
    vmmCreateUserPagemap s = ((allocPage s).1, (allocPage s).2.withMem fun w =>
      if (allocPage s).1 + 2048 ≤ w ∧ w < (allocPage s).1 + pageSize then
        zeroPage (allocPage s).2.mem (allocPage s).1
          ((allocPage s).2.kernelCr3 + (w - (allocPage s).1))
      else zeroPage (allocPage s).2.mem (allocPage s).1 w) := by
  have hker : (allocPage s).2.kernelCr3 ≠ 0 := hk
  unfold vmmCreateUserPagemap
  simp only [hker, h0, if_false]

theorem createUserPagemap_failed {s : VmmState} {L : List Nat} (hpmm : PmmInv s.pmm L)
    (h0 : (allocPage s).1 = 0) : vmmCreateUserPagemap s = (0, s) := by
  rcases hpmm.alloc with ⟨heq, -⟩ | ⟨hne, -⟩
  · have hs : (allocPage s).2 = s := by rw [allocPage, heq]
    unfold vmmCreateUserPagemap
    simp only [h0, if_true, hs]
  · exact absurd h0 hne

/-- The new root is a page of its own. -/
theorem TablesInv.createUserPagemap {s : VmmState} {L : List Nat}
    (h : TablesInv HalfPath s.kernelCr3 s L) (hk : s.kernelCr3 ≠ 0) (h0 : (allocPage s).1 ≠ 0) :
    ∃ L', Taken HalfPath s.kernelCr3 s L (vmmCreateUserPagemap s).2 L' (vmmCreateUserPagemap s).1 ∧
      (∀ j, 256 ≤ j → j < 512 → entry (vmmCreateUserPagemap s).2.mem (vmmCreateUserPagemap s).1 j =
        entry (vmmCreateUserPagemap s).2.mem s.kernelCr3 j) ∧
      ∀ j < 256, entry (vmmCreateUserPagemap s).2.mem (vmmCreateUserPagemap s).1 j = 0 := by
  rw [createUserPagemap_eq hk h0]
  dsimp only
  obtain ⟨_, hp⟩ := h.takePage h0 (allocPage s).2.mem fun _ _ => rfl
  have hmod := hp.mod
  have hkp : s.kernelCr3 ≠ (allocPage s).1 := hp.not_table h halfPath_nil rfl
  have hkmod : s.kernelCr3 % pageSize = 0 := h.tableAt_mod (tableAt_nil _ _)
  obtain ⟨L', htaken⟩ := h.takePage h0 (fun w =>
    if (allocPage s).1 + 2048 ≤ w ∧ w < (allocPage s).1 + pageSize then
      zeroPage (allocPage s).2.mem (allocPage s).1
        ((allocPage s).2.kernelCr3 + (w - (allocPage s).1))
    else zeroPage (allocPage s).2.mem (allocPage s).1 w) (by
      intro w hw
      rw [if_neg, VmmInv.alignDown_zeroPage _ hmod hw]
      intro hin
      refine hw ?_
      simp only [alignDown, pageSize] at *
      omega)
  refine ⟨L', htaken, fun j hlo hj => ?_, fun j hj => ?_⟩
  · generalize (allocPage s).1 = p at *
    generalize (allocPage s).2.mem = mem at *
    change (if p + 2048 ≤ p + 8 * j ∧ p + 8 * j < p + pageSize then
        zeroPage mem p (s.kernelCr3 + (p + 8 * j - p)) else zeroPage mem p (p + 8 * j)) =
      if p + 2048 ≤ s.kernelCr3 + 8 * j ∧ s.kernelCr3 + 8 * j < p + pageSize then
        zeroPage mem p (s.kernelCr3 + (s.kernelCr3 + 8 * j - p))
      else zeroPage mem p (s.kernelCr3 + 8 * j)
    have hout : alignDown (s.kernelCr3 + 8 * j) ≠ p := by
      rw [alignDown_entry hkmod hj]
      exact hkp
    rw [if_pos (by simp only [pageSize]; omega), if_neg, Nat.add_sub_cancel_left]
    intro hin
    refine hout ?_
    simp only [alignDown, pageSize] at *
    omega
  · generalize (allocPage s).1 = p
    generalize (allocPage s).2.mem = mem
    change (if p + 2048 ≤ p + 8 * j ∧ p + 8 * j < p + pageSize then
        zeroPage mem p (s.kernelCr3 + (p + 8 * j - p)) else zeroPage mem p (p + 8 * j)) = 0
    rw [if_neg (by omega)]
    exact VmmInv.entry_zeroPage (by omega)

namespace HalfInv

variable {roots : List Nat} {s : VmmState} {L : List Nat} {π : List Nat} {t i : Nat}

/-- `vmm_create_user_pagemap`. -/
theorem createUserPagemap (h : HalfInv roots s L) :
    ∃ L', HalfInv (if (vmmCreateUserPagemap s).1 = 0 then roots
      else (vmmCreateUserPagemap s).1 :: roots) (vmmCreateUserPagemap s).2 L' := by
  by_cases h0 : (allocPage s).1 = 0
  · rw [createUserPagemap_failed h.pmm h0]
    exact ⟨L, h⟩
  · obtain ⟨L', hp, hupper, -⟩ := h.tables.createUserPagemap h.kernel_ne h0
    have hne : (vmmCreateUserPagemap s).1 ≠ 0 := by
      rw [createUserPagemap_eq h.kernel_ne h0]
      exact h0
    rw [if_neg hne]
    refine ⟨L', h.addRoot (h.of_taken hp) hp fun j hlo hj => ?_⟩
    rw [hp.kernelCr3]
    exact hupper j hlo hj

/-! ### Runs -/

theorem switchTo (h : HalfInv roots s L) {root : Nat}
    (hr : root = 0 ∨ root = s.kernelCr3 ∨ root ∈ roots) :
    HalfInv roots (vmmSwitchTo s root) L := by
  refine ⟨h.pmm, h.stop_le, h.kernel_ne, h.kernel, h.apart, h.plain, h.used, h.page, h.root_used,
    h.root_apart, h.entries, ?_⟩
  change (if root = 0 then s.kernelCr3 else root) ∈ roots ∨
    (if root = 0 then s.kernelCr3 else root) = s.kernelCr3
  split
  · exact Or.inr rfl
  · rename_i h0
    rcases hr with hr | hr | hr
    · exact absurd hr h0
    · exact Or.inr hr
    · exact Or.inl hr

theorem step {s : Maps} {L : List Nat} (h : HalfInv s.roots s.vmm L) {a : HalfAct}
    (hok : HalfOk s a) : ∃ L', HalfInv (halfStep s a).roots (halfStep s a).vmm L' := by
  cases a with
  | create => exact h.createUserPagemap
  | map virt phys flags =>
      simp only [halfStep]
      split
      · rename_i hv
        obtain ⟨hl, hroot⟩ := hok hv
        obtain ⟨hx1, hx2, hx3, -⟩ := idx_alignDown virt
        have hpath : tablePath (alignDown virt) = tablePath virt := by
          simp only [tablePath, hx1, hx2, hx3]
        have hmap := h.mapPageInto h.loaded (show 256 ≤ idxPml4 (alignDown virt) by rwa [hx1])
          (by rwa [hpath]) (by rwa [hx1]) phys flags
        exact hmap
      · exact ⟨L, h⟩
  | unmap virt =>
      simp only [halfStep]
      split
      · rename_i hv
        obtain ⟨hl, hlast⟩ := hok hv
        exact h.unmapPageIn h.loaded hv hl hlast
      · exact ⟨L, h⟩
  | switchTo root =>
      simp only [halfStep]
      split
      · rename_i hr
        exact ⟨L, h.switchTo hr⟩
      · exact ⟨L, h⟩

theorem sharedHalf {s : Maps} {L : List Nat} (h : HalfInv s.roots s.vmm L) : SharedHalf s := by
  intro r hr v hv
  have hal := h.entries r hr (idxPml4 v) hv (Nat.mod_lt _ (by decide))
  constructor
  · unfold translateIn
    simp only [hal.present, hal.alignDown]
  · unfold hwTranslate
    simp only [hal.present, hal.ptePage]

theorem tablesInUse {s : Maps} {L : List Nat} (h : HalfInv s.roots s.vmm L) : TablesInUse s := by
  intro r hr π t hπ ht
  rw [freePhys_eq h.pmm]
  rcases hr with hr | rfl
  · cases π with
    | nil =>
        obtain rfl : r = t := Option.some.inj ht
        exact h.root_used r hr
    | cons i π =>
        have hal := h.entries r hr i (hπ.2.2 i rfl) (hπ.2.1 i (by simp))
        rw [tableAt_root (k := s.vmm.kernelCr3) hal.childOf] at ht
        exact h.used (i :: π) t hπ ht
  · exact h.used π t hπ ht

end HalfInv

/-- In every run in which maps and unmaps in the shared half keep clear of large
pages and, once there are page maps of processes, neither make nor give back the
table of a slot, the kernel half is shared and its tables are in use. -/
theorem sharedHalf_run {s : Maps} {L : List Nat} (h : HalfInv s.roots s.vmm L)
    {as : List HalfAct} (hrun : AllSteps halfStep HalfOk s as) {pre : List HalfAct}
    (hpre : pre <+: as) :
    SharedHalf (run halfStep s pre) ∧ TablesInUse (run halfStep s pre) := by
  obtain ⟨post, rfl⟩ := hpre
  have hsteps := ((allSteps_append _ _ s pre post).1 hrun).1
  obtain ⟨L', hinv⟩ := inv_run (fun s : Maps => ∃ L, HalfInv s.roots s.vmm L)
    (fun _ _ ⟨_, hs⟩ hok => hs.step hok) ⟨L, h⟩ hsteps
  exact ⟨hinv.sharedHalf, hinv.tablesInUse⟩

/-! ### The start -/

/-- What the boot loader leaves in the upper half of its root: tables that are
apart and not in the memory of the allocator, with no high bits in the entries
that lead to them. -/
structure LoaderTables (mem : Nat → Nat) (k : Nat) (free : Set Nat) : Prop where
  ne : k ≠ 0
  page : ptePage k = k
  apart : Apart id (child mem) (HalfPos k)
  plain : ∀ π t i, HalfPath (π ++ [i]) → tableAt mem k π = some t → (child mem t i).isSome →
    entry mem t i < 2 ^ 52
  used : ∀ π t, HalfPath π → tableAt mem k π = some t → t ∉ free

/-- The state after `pmm_init` and `vmm_init`. -/
def Maps.start (mm : Memmap) (hhdm : Nat) (mem : Nat → Nat) (k : Nat) : Maps :=
  ⟨⟨pmmInit mm hhdm (.boot mem), k, k⟩, []⟩

theorem pmmInit_mem (mm : Memmap) (hhdm : Nat) (mem : Nat → Nat) :
    (pmmInit mm hhdm (.boot mem)).mem = mem := by
  unfold pmmInit
  cases mm with
  | none => rfl
  | some entries =>
      dsimp only
      split_ifs <;> rfl

theorem halfInv_start {mm : Memmap} {hhdm : Nat} {mem : Nat → Nat} {k : Nat}
    (hmm : EndsBelow (2 ^ 52) mm) (hh : hhdm ≠ 0)
    (hfound : (pmmInit mm hhdm (.boot mem)).cursor ≠ 0)
    (hload : LoaderTables mem k (freePhys (pmmInit mm hhdm (.boot mem)))) :
    HalfInv (Maps.start mm hhdm mem k).roots (Maps.start mm hhdm mem k).vmm [] := by
  obtain ⟨hinv, hstop⟩ := pmmInit_stop_le hmm hh mem hfound
  have hmem : (Maps.start mm hhdm mem k).vmm.mem = mem := pmmInit_mem mm hhdm mem
  have hused := hload.used
  rw [freePhys_eq hinv] at hused
  refine ⟨hinv, hstop, hload.ne, hload.page, ?_, ?_, ?_, nofun, nofun, nofun, nofun, Or.inr rfl⟩
  · rw [hmem]
    exact hload.apart
  · rw [hmem]
    exact hload.plain
  · rw [hmem]
    exact hused

/-- Before anything is mapped in the upper half there is only the root. -/
theorem loaderTables_empty {k : Nat} {free : Set Nat} (hne : k ≠ 0) (hpage : ptePage k = k)
    (hfree : k ∉ free) : LoaderTables (fun _ => 0) k free := by
  have hnil : ∀ π t, tableAt (fun _ => 0) k π = some t → π = [] ∧ t = k := by
    intro π t ht
    cases π with
    | nil => exact ⟨rfl, (Option.some.inj ht).symm⟩
    | cons i π => cases ht
  refine ⟨hne, hpage, ?_, ?_, ?_⟩
  · rintro r π r' σ a b ⟨rfl, -⟩ ⟨rfl, -⟩ ha hb -
    exact ⟨rfl, (hnil π a ha).1.trans (hnil σ b hb).1.symm⟩
  · rintro π t i - - hsome
    cases hsome
  · intro π t _ ht
    rw [(hnil π t ht).2]
    exact hfree

/-- A machine with 64 MiB whose boot loader mapped nothing in the upper half. -/
def bareMaps : Maps := .start memmap64M 1 (fun _ => 0) 0x1000

theorem halfInv_bareMaps : HalfInv bareMaps.roots bareMaps.vmm [] := by
  have hmm : EndsBelow (2 ^ 52) memmap64M := by
    intro entries hentries e he _
    obtain rfl := Option.some.inj hentries
    obtain rfl : e = ⟨0, 0x4000000, 0⟩ := by simpa using he
    decide
  refine halfInv_start hmm (by decide) (by decide) (loaderTables_empty (by decide)
    (by decide) ?_)
  rw [freePhys_eq (pmmInit_stop_le hmm (by decide) _ (by decide)).1]
  rintro (hin | ⟨-, hlo, -⟩)
  · cases hin
  · revert hlo
    decide

/-- A page of the kernel is mapped before the first process. -/
theorem sharedHalf_run_mapFirst :
    translateIn (run halfStep bareMaps
        [.map 0xFFFF900000000000 0x5000 2, .create, .switchTo 0x1003000]).vmm.mem
      0x1003000 0xFFFF900000000000 = 0x5000 ∧
    SharedHalf (run halfStep bareMaps
      [.map 0xFFFF900000000000 0x5000 2, .create, .switchTo 0x1003000]) ∧
    TablesInUse (run halfStep bareMaps
      [.map 0xFFFF900000000000 0x5000 2, .create, .switchTo 0x1003000]) := by
  refine ⟨by decide, sharedHalf_run halfInv_bareMaps ?_ (List.prefix_refl _)⟩
  refine ⟨fun _ => ⟨?_, Or.inl rfl⟩, trivial, trivial, trivial⟩
  intro σ j t _ _ hp
  cases hp

/-- After the first process a map reaches only the page map that is loaded, and an
unmap leaves the other one with a table that is free. -/
theorem not_sharedHalf_late :
    ¬ (∀ as, SharedHalf (run halfStep bareMaps as)) ∧
      ¬ ∀ as, TablesInUse (run halfStep bareMaps as) := by
  constructor
  · intro h
    have hshare := h [.create, .map 0xFFFF900000000000 0x5000 2] 0x1000000 (by decide)
      0xFFFF900000000000 (by decide)
    revert hshare
    decide
  · intro h
    refine h [.map 0xFFFF900000000000 0x5000 2, .create, .unmap 0xFFFF900000000000] 0x1003000
      (Or.inl (by decide)) [288] 0x1000000 ⟨by decide, by decide, by decide⟩
      (by decide +kernel) ⟨[0x1000000, 0x1001000, 0x1002000], ?_, Or.inl (by decide)⟩
    simp only [chain_cons, chain_nil]
    decide +kernel

end FiFi.Vmm
