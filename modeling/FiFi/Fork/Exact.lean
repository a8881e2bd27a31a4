import FiFi.Fork.Clone
import FiFi.Vmm.Built

/-!
# `clone_pagemap` copies exactly or not at all

For a page map that the kernel built, a clone has a copy of every page of the
lower half, made of pages that were free before. If the pages do not suffice,
all that were taken are free again. In both cases no word in use is written.
-/

namespace FiFi.Fork

open Pmm Vmm RadixForest

theorem erase_insert {D : Domain} {r : Nat} (hk : r ≠ D.kernel) (hr : r ∉ D.user) :
    (D.insert r hk).erase r = D := by
  cases D
  simp only [Domain.insert, Domain.erase, Domain.mk.injEq, and_true]
  exact Set.insert_sdiff_self_of_notMem hr

section

variable {D : Domain} {s : VmmState} {L : List Nat} {src : Nat}

/-- A page map that was just created, with nothing in its lower half. -/
structure Fresh (D : Domain) (s : VmmState) (L : List Nat) (dst : Nat) (hk : dst ≠ D.kernel)
    (s₀ : VmmState) (L₀ : List Nat) : Prop where
  inv : VmmInv (D.insert dst hk) s₀ L₀ ∅
  free : dst ∈ freeSet s.pmm L
  freeSet : freeSet s₀.pmm L₀ = Pmm.freeSet s.pmm L \ {dst}
  cr3 : s₀.cr3 = s.cr3
  kernelCr3 : s₀.kernelCr3 = D.kernel
  mem : ∀ w, alignDown w ≠ dst → s₀.mem w = s.mem w
  empty : ∀ π, Pos (D.insert dst hk) dst π → π ≠ [] → look s₀.mem dst π = none
  upper : ∀ i, 256 ≤ i → i < 512 → entry s₀.mem dst i = entry s.mem D.kernel i

variable {dst : Nat} {hk : dst ≠ D.kernel} {s₀ s' : VmmState} {L₀ L' : List Nat}

theorem Fresh.user (_ : Fresh D s L dst hk s₀ L₀) : dst ∈ (D.insert dst hk).user :=
  Set.mem_insert dst D.user

/-- The pages a clone works on are those that were free before. -/
theorem Fresh.region (h : Fresh D s L dst hk s₀ L₀) :
    region (D.insert dst hk) s₀ L₀ ∅ dst = Pmm.freeSet s.pmm L := by
  rw [Vmm.region, h.freeSet, h.inv.tree_of_empty h.user h.empty, Set.union_empty,
    Set.sdiff_union_self, Set.union_eq_self_of_subset_right (Set.singleton_subset_iff.2 h.free)]

/-- Words in use are not written. -/
theorem Fresh.frame (h : Fresh D s L dst hk s₀ L₀)
    (hc : Change (D.insert dst hk) dst s₀ L₀ ∅ s' L' ∅) {w : Nat}
    (hw : alignDown w ∉ Pmm.freeSet s.pmm L) : s'.mem w = s.mem w := by
  rw [hc.frame w fun hwr => hw (h.region ▸ hwr.1)]
  exact h.mem w fun heq => hw (heq ▸ h.free)

/-- Nor is the upper half of the new root. -/
theorem Fresh.upper_kept (h : Fresh D s L dst hk s₀ L₀)
    (hc : Change (D.insert dst hk) dst s₀ L₀ ∅ s' L' ∅) {i : Nat} (hlo : 256 ≤ i)
    (hhi : i < 512) : entry s'.mem dst i = entry s.mem D.kernel i :=
  (hc.entry_upper h.inv h.user hlo hhi).trans (h.upper i hlo hhi)

/-- `vmm_create_user_pagemap` as the start of a clone. -/
theorem createUserPagemap_fresh (h : VmmInv D s L ∅) (hker : s.kernelCr3 = D.kernel)
    (hk0 : D.kernel ≠ 0) :
    vmmCreateUserPagemap s = (0, s) ∨
      ∃ dst hk s₀ L₀, vmmCreateUserPagemap s = (dst, s₀) ∧ dst ≠ 0 ∧
        Fresh D s L dst hk s₀ L₀ := by
  rcases h.createUserPagemap hker hk0 with ⟨heq, -⟩ |
    ⟨dst, s₀, L₀, hne, heq, hd0, hin, hinv, hfree, -, hcr3, hk', hmem, hlow, hhigh⟩
  · exact Or.inl heq
  · have hroot : ptePage dst = dst := hinv.root dst (Or.inl (Set.mem_insert dst D.user))
    refine Or.inr ⟨dst, hne, s₀, L₀, heq, hd0, hinv, hin, hfree, hcr3, hk'.trans hker,
      hmem, ?_, hhigh⟩
    intro π hπ hnil
    exact VmmInv.look_of_lower_empty (D := D.insert dst hne) hroot hne
      (fun i hi => by rw [hlow i hi]; decide) hπ hnil

/-- The outermost loop, over the lower half of the parent's root. -/
theorem Fresh.clone (h : Fresh D s L dst hk s₀ L₀) (hsrc : src ∈ D.user) (hne : src ≠ dst) :
    (∃ s' L', cloneEntries (cloneBelow dst 3) 256 39 src 0 s₀ = (true, s') ∧
        Change (D.insert dst hk) dst s₀ L₀ ∅ s' L' ∅ ∧
        ∀ σ, LowerPath σ → σ.length = 4 → Copied src dst s₀ s' σ) ∨
      ∃ s' L', cloneEntries (cloneBelow dst 3) 256 39 src 0 s₀ = (false, s') ∧
        Change (D.insert dst hk) dst s₀ L₀ ∅ s' L' ∅ := by
  have hsrc' : src ∈ (D.insert dst hk).user := Set.mem_insert_of_mem dst hsrc
  have hstart : Cloning (D.insert dst hk) src dst s₀ L₀ (fun _ => False) s₀ L₀ := by
    refine ⟨Change.refl h.inv, fun _ _ _ hB => absurd hB id, fun σ hσ hlen _ => ?_⟩
    exact h.empty σ hσ (by rintro rfl; simp at hlen)
  have hslots : ∀ i < 256, Pos (D.insert dst hk) src ([] ++ [i]) := fun i hi =>
    pos_singleton (Or.inl hsrc') (user_slot hsrc' hi)
  have hent := hstart.entries h.inv hsrc' h.user hne (look_nil s₀.mem src) (cloneBelow dst 3) 256 39
    hslots (fun _ _ => id) fun i B s1 L1 e hi h1 hnew he =>
      h1.below h.inv hsrc' h.user hne (hslots i hi) (by simp) 3 (by simp) he hnew
  rw [h.inv.root src (Or.inl hsrc')] at hent
  simp only [pathVal, List.foldl_nil, Nat.zero_mul] at hent
  rcases hent with ⟨s', L', heq, hc⟩ | ⟨s', L', heq, hc⟩
  · refine Or.inl ⟨s', L', heq, hc.change, fun σ hσ hlen => ?_⟩
    refine hc.done σ ((pos_iff_lowerPath hsrc').2 hσ) hlen (Or.inr ?_)
    obtain ⟨i, τ, rfl⟩ := List.exists_cons_of_ne_nil (show σ ≠ [] by rintro rfl; simp at hlen)
    exact ⟨i, hσ.2.2 i (by simp), τ, rfl⟩
  · exact Or.inr ⟨s', L', heq, hc⟩

/-- A clone that failed gives back every page it took. -/
theorem Fresh.destroy (h : Fresh D s L dst hk s₀ L₀) (hold : dst ∉ D.user)
    (hc : Change (D.insert dst hk) dst s₀ L₀ ∅ s' L' ∅) :
    ∃ L'', VmmInv D (vmmDestroyUserPagemap s' dst) L'' ∅ ∧
      Pmm.freeSet (vmmDestroyUserPagemap s' dst).pmm L'' = Pmm.freeSet s.pmm L ∧
      (vmmDestroyUserPagemap s' dst).cr3 = s.cr3 ∧
      (vmmDestroyUserPagemap s' dst).kernelCr3 = D.kernel ∧
      ∀ w, alignDown w ∉ Pmm.freeSet s.pmm L →
        (vmmDestroyUserPagemap s' dst).mem w = s.mem w := by
  have hreg : Vmm.region (D.insert dst hk) s' L' ∅ dst = Pmm.freeSet s.pmm L :=
    hc.region.trans h.region
  obtain ⟨_, hinv, hfree, hcr3, hker, -, hmem⟩ :=
    hc.inv.destroyUserPagemap h.user (hc.kernelCr3.trans h.kernelCr3)
  rw [erase_insert hk hold] at hinv
  refine ⟨_, hinv, ?_, hcr3.trans (hc.cr3.trans h.cr3),
    hker.trans (hc.kernelCr3.trans h.kernelCr3), fun w hw => ?_⟩
  · rw [hfree, ← hreg, Vmm.region, Set.union_empty]
  · rw [hmem w (by rwa [hreg]), h.frame hc hw]

/-- The two ways `clone_pagemap` ends. -/
theorem clonePagemap_cases (h : VmmInv D s L ∅) (hker : s.kernelCr3 = D.kernel)
    (hk0 : D.kernel ≠ 0) (hsrc : src ∈ D.user) :
    (∃ s' L', clonePagemap s src = (0, s') ∧ VmmInv D s' L' ∅ ∧
        freeSet s'.pmm L' = freeSet s.pmm L ∧ s'.cr3 = s.cr3 ∧ s'.kernelCr3 = D.kernel ∧
        ∀ w, alignDown w ∉ freeSet s.pmm L → s'.mem w = s.mem w) ∨
      ∃ dst hk s₀ L₀ s' L', clonePagemap s src = (dst, s') ∧ dst ≠ 0 ∧ dst ∉ D.user ∧
        Fresh D s L dst hk s₀ L₀ ∧ Change (D.insert dst hk) dst s₀ L₀ ∅ s' L' ∅ ∧
        ∀ σ, LowerPath σ → σ.length = 4 → Copied src dst s₀ s' σ := by
  unfold clonePagemap
  rcases createUserPagemap_fresh h hker hk0 with heq | ⟨dst, hk, s₀, L₀, heq, hd0, hfresh⟩
  · rw [heq]
    exact Or.inl ⟨s, L, rfl, h, rfl, rfl, hker, fun _ _ => rfl⟩
  · simp only [heq, if_neg hd0]
    have hold : dst ∉ D.user := by
      intro hu
      have hout := h.not_free (pos_nil (Or.inl hu)) (look_nil s.mem dst)
      rw [h.root dst (Or.inl hu)] at hout
      exact hout hfresh.free
    have hne : src ≠ dst := by
      rintro rfl
      exact hold hsrc
    rcases hfresh.clone hsrc hne with ⟨s', L', heq', hc, hcopied⟩ | ⟨s', L', heq', hc⟩
    · rw [heq']
      exact Or.inr ⟨dst, hk, s₀, L₀, s', L', rfl, hd0, hold, hfresh, hc, hcopied⟩
    · rw [heq']
      obtain ⟨L'', hinv, hfree, hcr3, hker', hmem⟩ := hfresh.destroy hold hc
      exact Or.inl ⟨_, L'', rfl, hinv, hfree, hcr3, hker', hmem⟩

end

/-! ### The result -/

/-- The pages in use: those held, the kernel's root, and the tables and frames
of the page maps. -/
def InUse (D : Domain) (H : Set Nat) (s : VmmState) (p : Nat) : Prop :=
  p ∈ H ∨ p = D.kernel ∨
    ∃ r ∈ D.user, ∃ π e, LowerPath π ∧ look s.mem r π = some e ∧ p = ptePage e

/-- The page map at `dst` in `s'` is an exact clone of the one at `src` in `s`. -/
structure ExactClone (D : Domain) (H : Set Nat) (s : VmmState) (src dst : Nat)
    (s' : VmmState) : Prop where
  copied : ∀ v < 2 ^ 47, Copied src dst s s' (vaPath v)
  fresh : ∀ v < 2 ^ 47, ∀ e, look s'.mem dst (vaPath v) = some e →
    ¬ InUse D H s (ptePage e) ∧ ptePage e ∉ freePhys s'.pmm ∧
      ∀ π e', LowerPath π → look s'.mem dst π = some e' → ptePage e' = ptePage e → π = vaPath v
  parent : Kept s s' src
  upper : ∀ i, 256 ≤ i → i < 512 → entry s'.mem dst i = entry s'.mem s'.kernelCr3 i

theorem inUse_not_free {D : Domain} {H : Set Nat} {s : VmmState} {L : List Nat}
    (h : VmmInv D s L H) {p : Nat} (hp : InUse D H s p) : p ∉ freeSet s.pmm L := by
  rcases hp with hp | rfl | ⟨r, hr, π, e, hπ, he, rfl⟩
  · exact (h.held p hp).2.2.2
  · exact h.kernel
  · exact h.not_free ((pos_iff_lowerPath hr).2 hπ) he

/-- A page map keeps what it has when no word in use is written. -/
theorem kept_of_frame {D : Domain} {s s' : VmmState} {L : List Nat} {src : Nat}
    (h : VmmInv D s L ∅) (hsrc : src ∈ D.user)
    (hframe : ∀ w, alignDown w ∉ freeSet s.pmm L → s'.mem w = s.mem w) : Kept s s' src := by
  refine kept_of_pages hsrc fun π e hπ he k hk => hframe _ ?_
  rw [alignDown_page_add (ptePage_mod e) hk]
  exact h.not_free hπ he

/-- A clone that succeeded is exact. -/
theorem Fresh.exact {D : Domain} {H : Set Nat} {s s₀ s' : VmmState} {L L₀ L' : List Nat}
    {src dst : Nat} {hk : dst ≠ D.kernel} (hH : VmmInv D s L H) (h : Fresh D s L dst hk s₀ L₀)
    (hsrc : src ∈ D.user) (hc : Change (D.insert dst hk) dst s₀ L₀ ∅ s' L' ∅)
    (hcopied : ∀ σ, LowerPath σ → σ.length = 4 → Copied src dst s₀ s' σ) :
    ExactClone D H s src dst s' := by
  have hinv := hH.weaken (Set.empty_subset H)
  have hkept₀ : Kept s s₀ src := kept_of_frame hinv hsrc fun w hw =>
    h.mem w fun heq => hw (heq ▸ h.free)
  refine ⟨fun v hv => ?_, fun v hv e he => ?_, kept_of_frame hinv hsrc fun w hw => h.frame hc hw,
    fun i hlo hhi => ?_⟩
  · have hv' := lowerPath_vaPath hv
    rcases hcopied _ hv' rfl with ⟨hn, hn'⟩ | ⟨e, e', he, he', hright, hmem⟩
    · exact Or.inl ⟨(hkept₀.entries _ hv').symm.trans hn, hn'⟩
    · have hes := (hkept₀.entries _ hv').symm.trans he
      refine Or.inr ⟨e, e', hes, he', hright, fun k hk => ?_⟩
      rw [hmem k hk, hkept₀.pages _ e hv' hes k hk]
  · have hpos := (pos_iff_lowerPath h.user).2 (lowerPath_vaPath hv)
    have hfree : ptePage e ∈ Pmm.freeSet s.pmm L := by
      rw [← h.region, ← hc.region]
      exact Or.inl (Or.inr ⟨_, e, hpos, he, rfl⟩)
    refine ⟨fun huse => inUse_not_free hH huse hfree, ?_, fun π e' hπ he' heq => ?_⟩
    · rw [freePhys_eq hc.inv.pmm]
      exact hc.inv.not_free hpos he
    · exact (hc.inv.apart dst π dst _ e' e ((pos_iff_lowerPath h.user).2 hπ) hpos he' he heq).2
  · have hkmod : D.kernel % pageSize = 0 := by
      rw [← hH.root D.kernel (Or.inr rfl)]
      exact ptePage_mod _
    have hker : entry s'.mem D.kernel i = entry s.mem D.kernel i := by
      refine h.frame hc ?_
      rw [alignDown_entry hkmod hhi]
      exact hH.kernel
    rw [h.upper_kept hc hlo hhi, hc.kernelCr3, h.kernelCr3, hker]

/-- For every page map the kernel built: `clone_pagemap` makes an exact clone, or
it leaves the free pages and the parent as they were. -/
theorem clonePagemap_exact {D : Domain} {H : Set Nat} {s : VmmState} {src : Nat}
    (hb : Built D H s) (hsrc : src ∈ D.user) :
    ((clonePagemap s src).1 ≠ 0 →
        ExactClone D H s src (clonePagemap s src).1 (clonePagemap s src).2) ∧
      ((clonePagemap s src).1 = 0 →
        freePhys (clonePagemap s src).2.pmm = freePhys s.pmm ∧
          Kept s (clonePagemap s src).2 src) := by
  obtain ⟨hker, hk0, -, L, hH⟩ := hb.inv
  have h := hH.weaken (Set.empty_subset H)
  rcases clonePagemap_cases h hker hk0 hsrc with
    ⟨s', L', heq, hinv, hfree, -, -, hmem⟩ |
    ⟨dst, hk, s₀, L₀, s', L', heq, hd0, -, hfresh, hc, hcopied⟩
  · rw [heq]
    refine ⟨fun hbad => absurd rfl hbad, fun _ => ⟨?_, kept_of_frame h hsrc hmem⟩⟩
    rw [freePhys_eq hinv.pmm, freePhys_eq h.pmm, hfree]
  · rw [heq]
    exact ⟨fun _ => hfresh.exact hH hsrc hc hcopied, fun h0 => absurd h0 hd0⟩

/-- A machine with 64 MiB right after the start. -/
def bootedState : VmmState := ⟨pmmInit memmap64M 1 (.boot fun _ => 0), 0x1000, 0x1000⟩

/-- The same machine with one page map, in which one page is mapped. -/
def onePageState : VmmState :=
  (vmmMapPageInto (allocPage (vmmCreateUserPagemap bootedState).2).2 0x1000000 0x400000 0x1001000
    (vmmUser ||| vmmWrite)).2

theorem bootedState_built : Built (.start 0x1000) ∅ bootedState := by
  have hmm : EndsBelow (2 ^ 52) memmap64M := by
    rintro entries ⟨rfl⟩ e he -
    obtain rfl : e = ⟨0, 0x4000000, 0⟩ := by simpa using he
    decide
  refine Built.start memmap64M 1 (fun _ => 0) 0x1000 0x1000 hmm (by decide) (by decide)
    (by decide) (by decide) ?_
  obtain ⟨hinv, -⟩ := pmmInit_stop_le hmm (show 1 ≠ 0 by decide) (fun _ => 0) (by decide)
  rw [freePhys_eq hinv]
  intro hfree
  exact absurd (hinv.minPhys_le_of_mem hfree) (by decide)

/-- Cloning the page map with one page takes five pages. -/
theorem clonePagemap_exact_onePage :
    ∃ D H, Built D H onePageState ∧ 0x1000000 ∈ D.user ∧
      (clonePagemap onePageState 0x1000000).1 = 0x1005000 ∧
      ExactClone D H onePageState 0x1000000 0x1005000
        (clonePagemap onePageState 0x1000000).2 := by
  have hcreate := bootedState_built.create (by decide) (by decide)
  have hroot : (vmmCreateUserPagemap bootedState).1 = 0x1000000 := by decide
  have hpage : (allocPage (vmmCreateUserPagemap bootedState).2).1 = 0x1001000 := by decide
  have hbuilt := (hcreate.alloc (by decide)).map (vmmUser ||| vmmWrite) (Or.inl hroot.symm)
    (show idxPml4 0x400000 < 256 by decide) (Or.inl hpage.symm) (by decide)
  have hdst : (clonePagemap onePageState 0x1000000).1 = 0x1005000 := by decide +kernel
  have hsrc : 0x1000000 ∈ (Domain.insert (.start 0x1000) (vmmCreateUserPagemap bootedState).1
      (by decide)).user := Or.inl hroot.symm
  refine ⟨_, _, hbuilt, hsrc, hdst, ?_⟩
  have hexact := (clonePagemap_exact hbuilt hsrc).1
  change (clonePagemap onePageState 0x1000000).1 ≠ 0 → _ at hexact
  rw [← hdst]
  exact hexact (by rw [hdst]; decide)

end FiFi.Fork
