import FiFi.Thread.Invariant

/-!
# Reaping

`thread_reap_dead` gives back everything the dead threads own, whichever page
map is loaded, and touches nothing of the others.
-/

namespace FiFi.Thread

open Pmm Vmm Fork Syscall

/-- The threads of `S` are gone. What they owned is free, and the other threads
have what they had. The page maps of `X` are kept as well. -/
structure Reaped (S : Set (Fin 32)) (X : Set Nat) (σ σ' : Sys) : Prop where
  others : ∀ j, j ∉ S → σ'.threads j = σ.threads j
  gone : ∀ j ∈ S, (σ'.threads j).state = .unused
  roots : ∀ j, j ∉ S → ∀ r, Owns (σ.threads j) r → Kept σ.vmm σ'.vmm r
  outside : ∀ r ∈ X, Kept σ.vmm σ'.vmm r
  kstacks : ∀ j, j ∉ S → (σ.threads j).stackBase ≠ 0 →
    stackFrames σ'.vmm (σ.threads j).stackBase = stackFrames σ.vmm (σ.threads j).stackBase
  freed : ∀ j ∈ S, Owned σ j ⊆ freePhys σ'.vmm.pmm
  mono : freePhys σ.vmm.pmm ⊆ freePhys σ'.vmm.pmm
  cur : σ'.cur = σ.cur
  nextTid : σ'.nextTid = σ.nextTid
  nextPageVirt : σ'.nextPageVirt = σ.nextPageVirt

theorem Reaped.refl (X : Set Nat) (σ : Sys) : Reaped ∅ X σ σ :=
  ⟨fun _ _ => rfl, fun _ h => absurd h (Set.notMem_empty _), fun _ _ r _ => Kept.refl _ r,
    fun r _ => Kept.refl _ r, fun _ _ _ => rfl, fun _ h => absurd h (Set.notMem_empty _),
    Set.Subset.rfl, rfl, rfl, rfl⟩

theorem Reaped.owned {S : Set (Fin 32)} {X : Set Nat} {σ σ' : Sys} (h : Reaped S X σ σ')
    {j : Fin 32} (hj : j ∉ S) : Owned σ' j = Owned σ j := by
  ext p
  simp only [Owned, Set.mem_ofPred_eq, h.others j hj]
  refine or_congr ⟨?_, ?_⟩ (and_congr_right fun hb => by rw [h.kstacks j hj hb])
  · rintro ⟨r, hr, hp⟩
    rw [mapPages_kept (h.roots j hj r hr)] at hp
    exact ⟨r, hr, hp⟩
  · rintro ⟨r, hr, hp⟩
    rw [← mapPages_kept (h.roots j hj r hr)] at hp
    exact ⟨r, hr, hp⟩

theorem Reaped.trans {S S' : Set (Fin 32)} {X : Set Nat} {σ σ' σ'' : Sys}
    (h : Reaped S X σ σ') (h' : Reaped S' X σ' σ'') (hS : ∀ j ∈ S, j ∉ S') :
    Reaped (S ∪ S') X σ σ'' where
  others := fun j hj => by
    rw [h'.others j fun hin => hj (Or.inr hin), h.others j fun hin => hj (Or.inl hin)]
  gone := by
    rintro j (hj | hj)
    · rw [h'.others j (hS j hj)]
      exact h.gone j hj
    · exact h'.gone j hj
  roots := by
    intro j hj r hr
    have hjS : j ∉ S := fun hin => hj (Or.inl hin)
    have hr' : Owns (σ'.threads j) r := by rwa [h.others j hjS]
    exact (h.roots j hjS r hr).trans (h'.roots j (fun hin => hj (Or.inr hin)) r hr')
  outside := fun r hr => (h.outside r hr).trans (h'.outside r hr)
  kstacks := by
    intro j hj hb
    have hjS : j ∉ S := fun hin => hj (Or.inl hin)
    have hstep := h'.kstacks j (fun hin => hj (Or.inr hin))
    rw [h.others j hjS] at hstep
    rw [hstep hb, h.kstacks j hjS hb]
  freed := by
    intro j hj
    by_cases hjS : j ∈ S
    · exact (h.freed j hjS).trans h'.mono
    · rw [← h.owned hjS]
      exact h'.freed j (hj.resolve_left hjS)
  mono := h.mono.trans h'.mono
  cur := h'.cur.trans h.cur
  nextTid := h'.nextTid.trans h.nextTid
  nextPageVirt := h'.nextPageVirt.trans h.nextPageVirt

/-! ### One thread -/

/-- Without ranges in use there is nothing to clean up. -/
theorem userCleanup_none {s : VmmState} {u : UserVm} (h : ∀ m ∈ u.maps, m.inUse = false) :
    (userCleanup s u).1 = s := by
  change u.maps.foldl _ s = s
  generalize u.maps = l at h
  induction l with
  | nil => rfl
  | cons m l ih =>
      rw [List.foldl_cons, h m (by simp), if_neg (by simp)]
      exact ih fun m' hm' => h m' (by simp [hm'])

/-- Giving back the page map of a dead thread. -/
theorem SysInv.reapMap {D : Domain} {L : List Nat} {X : Set Nat} {σ : Sys} (h : SysInv D L X σ)
    {i : Fin 32} (hdead : (σ.threads i).state = .dead) :
    ∃ D' L' s', (if (σ.threads i).cr3 ≠ 0 then
          if (σ.threads i).cr3 ≠ σ.vmm.kernelCr3 then
            vmmDestroyUserPagemap σ.vmm (σ.threads i).cr3
          else σ.vmm
        else (userCleanup σ.vmm (σ.threads i).vm).1) = s' ∧
      (∀ r, r ∈ D'.user ↔ r ∈ D.user ∧ ¬ Owns (σ.threads i) r) ∧ D'.kernel = D.kernel ∧
      (∀ π, Pos D D.kernel π → Pos D' D.kernel π) ∧ MemInv D' L' σ.nextPageVirt s' ∧
      freePhys s'.pmm =
        freePhys σ.vmm.pmm ∪ {p | ∃ r, Owns (σ.threads i) r ∧ p ∈ mapPages σ.vmm.mem r} ∧
      Untouched D D'.user ∅ σ.vmm s' := by
  have harg : (σ.threads i).arg = none :=
    (h.tasks.each i).arg_none (by rw [hdead]; simp) (by rw [hdead]; simp)
  have howns : ∀ r, Owns (σ.threads i) r ↔ (σ.threads i).cr3 = r ∧ r ≠ 0 := by
    intro r
    simp [Owns, harg]
  by_cases h0 : (σ.threads i).cr3 = 0
  · have hnone : ∀ r, ¬ Owns (σ.threads i) r := by
      intro r hr
      rw [howns, h0] at hr
      exact hr.2 hr.1.symm
    refine ⟨D, L, σ.vmm, ?_, fun r => ?_, rfl, fun _ hπ => hπ, h.mem, ?_,
      fun r _ => Kept.refl _ r, fun _ _ _ _ => rfl, rfl⟩
    · rw [if_neg (by simpa using h0)]
      exact userCleanup_none ((h.tasks.each i).noMaps h0 harg)
    · simp [hnone r]
    · simp [hnone]
  · have hr : Owns (σ.threads i) (σ.threads i).cr3 := (howns _).2 ⟨rfl, h0⟩
    have hu := h.mem_user hr
    have hk : (σ.threads i).cr3 ≠ σ.vmm.kernelCr3 := by
      rw [h.mem.kernelCr3]
      exact (ne_kernel hu).symm
    obtain ⟨L', hmem, hfree, hunt⟩ := h.mem.destroy hu
    refine ⟨D.erase (σ.threads i).cr3, L', _, ?_, fun r => ?_, rfl, fun π hπ => ?_, hmem, ?_, hunt⟩
    · rw [if_pos h0, if_pos hk]
    · rw [howns]
      constructor
      · rintro ⟨hru, hne⟩
        exact ⟨hru, fun hc => hne hc.1.symm⟩
      · rintro ⟨hru, hne⟩
        refine ⟨hru, fun hc => hne ⟨hc.symm, ?_⟩⟩
        rw [show r = (σ.threads i).cr3 from hc]
        exact h0
    · exact hπ.erase (ne_kernel hu)
    · rw [hfree]
      congr 1
      ext p
      constructor
      · exact fun hp => ⟨_, hr, hp⟩
      · rintro ⟨r, hr', hp⟩
        rw [howns] at hr'
        rwa [hr'.1]

/-- The kernel stacks of the other threads lie elsewhere. -/
theorem SysInv.stack_not_mem {D : Domain} {L : List Nat} {X : Set Nat} {σ : Sys}
    (h : SysInv D L X σ) {i j : Fin 32} (hij : j ≠ i) (hi : (σ.threads i).stackBase ≠ 0)
    (hj : (σ.threads j).stackBase ≠ 0) {k : Nat} (hk : k < stackPages) :
    vaPath (alignDown (σ.threads j).stackBase + k * pageSize) ∉
      stackPaths (σ.threads i).stackBase := by
  rintro ⟨k', hk', hpath⟩
  have hn := h.mem.next_hi
  have hsi := (h.tasks.each i).stack hi
  have hsj := (h.tasks.each j).stack hj
  obtain ⟨hj1, hj2, -⟩ := hsj.range hn hk
  obtain ⟨hi1, hi2, -⟩ := hsi.range hn hk'
  have hpage := heap_path_inj (by omega) (by simp only [pageSize] at *; omega) (by omega)
    (by simp only [pageSize] at *; omega) hpath
  have hap := h.tasks.apart j i hij hj hi
  have hmi := hsi.1
  have hmj := hsj.1
  simp only [StacksApart, alignDown, stackPages_eq, pageSize] at *
  omega

theorem stackFrames_congr {s s' : VmmState} {base : Nat} (hk : s'.kernelCr3 = s.kernelCr3)
    (hlook : ∀ k < stackPages,
      look s'.mem s.kernelCr3 (vaPath (alignDown base + k * pageSize)) =
        look s.mem s.kernelCr3 (vaPath (alignDown base + k * pageSize))) :
    stackFrames s' base = stackFrames s base := by
  ext p
  constructor
  · rintro ⟨k, hk', e, he, rfl⟩
    rw [hk] at he
    exact ⟨k, hk', e, (hlook k hk').symm.trans he, rfl⟩
  · rintro ⟨k, hk', e, he, rfl⟩
    exact ⟨k, hk', e, by rw [hk, hlook k hk', he], rfl⟩

/-- Giving back all memory of a dead thread. -/
theorem SysInv.reapMemory {D : Domain} {L : List Nat} {X : Set Nat} {σ : Sys}
    (h : SysInv D L X σ) {i : Fin 32} (hdead : (σ.threads i).state = .dead) (hcur : i ≠ σ.cur) :
    ∃ D' L', (∀ r, r ∈ D'.user ↔ r ∈ D.user ∧ ¬ Owns (σ.threads i) r) ∧ D'.kernel = D.kernel ∧
      MemInv D' L' σ.nextPageVirt (reapMemory σ.vmm (σ.threads i)) ∧
      freePhys σ.vmm.pmm ⊆ freePhys (reapMemory σ.vmm (σ.threads i)).pmm ∧
      Owned σ i ⊆ freePhys (reapMemory σ.vmm (σ.threads i)).pmm ∧
      Untouched D D'.user {ρ | (σ.threads i).stackBase ≠ 0 ∧ ρ ∈ stackPaths (σ.threads i).stackBase}
        σ.vmm (reapMemory σ.vmm (σ.threads i)) := by
  obtain ⟨D', L1, s1, heq, hU, hker, hpos, hmem, hfree, hunt⟩ := h.reapMap hdead
  have hmono : freePhys σ.vmm.pmm ⊆ freePhys s1.pmm := by
    rw [hfree]
    exact Set.subset_union_left
  have hmap : ∀ r p, Owns (σ.threads i) r → p ∈ mapPages σ.vmm.mem r → p ∈ freePhys s1.pmm := by
    intro r p hr hp
    rw [hfree]
    exact Or.inr ⟨r, hr, hp⟩
  unfold Thread.reapMemory
  rw [heq]
  dsimp only
  by_cases hb : (σ.threads i).stackBase = 0
  · rw [if_neg (by simpa using hb)]
    refine ⟨D', L1, hU, hker, hmem, hmono, ?_, hunt.roots, ?_, hunt.cr3⟩
    · rintro p (⟨r, hr, hp⟩ | ⟨hne, -⟩)
      · exact hmap r p hr hp
      · exact absurd hb hne
    · exact fun ρ hρ hlen _ => hunt.leaves ρ hρ hlen (Set.notMem_empty ρ)
  · rw [if_pos hb]
    have hloaded : s1.cr3 ∈ D'.user ∨ s1.cr3 = D'.kernel := by
      rw [hunt.cr3, hker]
      rcases h.loaded_root with hin | hk
      · refine Or.inl ((hU _).2 ⟨hin, fun hown => ?_⟩)
        have hne : σ.current.cr3 ≠ 0 := by
          intro h0
          have hl := h.loaded
          rw [if_neg (by simpa using h0)] at hl
          exact D.kernel_not_user (hl ▸ hin)
        have hl := h.loaded
        rw [if_pos hne] at hl
        exact hcur (h.tasks.unique i σ.cur _ hown (Or.inl ⟨hl.symm, by rw [hl]; exact hne⟩))
      · exact Or.inr hk
    obtain ⟨L2, hmem2, hmono2, hframes, hunt2⟩ :=
      hmem.unmapStack hloaded ((h.tasks.each i).stack hb)
    refine ⟨D', L2, hU, hker, hmem2, hmono.trans hmono2, ?_, ?_, ?_, hunt2.cr3.trans hunt.cr3⟩
    · rintro p (⟨r, hr, hp⟩ | ⟨-, hp⟩)
      · exact hmono2 (hmap r p hr hp)
      · refine hframes ?_
        rwa [stackFrames_congr (s := σ.vmm)]
        · rw [hmem.kernelCr3, h.mem.kernelCr3, hker]
        · intro k hk
          rw [h.mem.kernelCr3]
          exact hunt.leaves _ (h.stack_pos hb hk) rfl (Set.notMem_empty _)
    · exact fun r hr => (hunt.roots r hr).trans (hunt2.roots r hr)
    · intro ρ hρ hlen hnot
      have hstep := hunt2.leaves ρ (by rw [hker]; exact hpos ρ hρ) hlen fun hin => hnot ⟨hb, hin⟩
      rw [hker] at hstep
      rw [hstep, hunt.leaves ρ hρ hlen (Set.notMem_empty ρ)]

/-- One turn of the loop of `thread_reap_dead`. -/
theorem SysInv.reapSlot {D : Domain} {L : List Nat} {X : Set Nat} {σ : Sys} (h : SysInv D L X σ)
    (i : Fin 32) :
    ∃ D' L', SysInv D' L' X (reapSlot σ i) ∧ D'.kernel = D.kernel ∧
      Reaped {j | j = i ∧ (σ.threads j).state = .dead ∧ j ≠ σ.cur} X σ (reapSlot σ i) := by
  have hnothing : ∀ hS : {j | j = i ∧ (σ.threads j).state = .dead ∧ j ≠ σ.cur} = ∅,
      Reaped {j | j = i ∧ (σ.threads j).state = .dead ∧ j ≠ σ.cur} X σ σ := by
    intro hS
    rw [hS]
    exact Reaped.refl X σ
  unfold Thread.reapSlot
  by_cases hdead : (σ.threads i).state = .dead
  swap
  · rw [if_pos hdead]
    refine ⟨D, L, h, rfl, hnothing ?_⟩
    ext j
    simp only [Set.mem_ofPred_eq, Set.mem_empty_iff_false, iff_false]
    rintro ⟨rfl, hd, -⟩
    exact hdead hd
  by_cases hcur : i = σ.cur
  · rw [if_neg (by simpa using hdead), if_pos hcur]
    refine ⟨D, L, h, rfl, hnothing ?_⟩
    ext j
    simp only [Set.mem_ofPred_eq, Set.mem_empty_iff_false, iff_false]
    rintro ⟨rfl, -, hc⟩
    exact hc hcur
  rw [if_neg (by simpa using hdead), if_neg hcur]
  obtain ⟨D', L', hU, hker, hmem, hmono, hfreed, hunt⟩ := h.reapMemory hdead hcur
  have hS : {j | j = i ∧ (σ.threads j).state = .dead ∧ j ≠ σ.cur} = {i} := by
    ext j
    constructor
    · exact fun hj => hj.1
    · rintro rfl
      exact ⟨rfl, hdead, hcur⟩
  rw [hS]
  have hown : ∀ r, ¬ Owns (Task.mk .unused 0 0 0 none 0 (userMapsZero (σ.threads i).vm)) r := by
    rintro r (⟨h0, hne⟩ | hnone)
    · exact hne h0.symm
    · exact absurd hnone (by simp)
  refine ⟨D', L', ⟨hmem, ?_, ?_⟩, hker, ?_⟩
  · refine h.tasks.release ⟨by simp, ?_, by simp, by simp⟩ hown hU (Or.inl rfl) (by simp)
    intro _ _ m hm
    rw [List.eq_of_mem_replicate hm]
    rfl
  · have hc : (Function.update σ.threads i (Task.mk .unused 0 0 0 none 0
        (userMapsZero (σ.threads i).vm))) σ.cur = σ.threads σ.cur :=
      Function.update_of_ne (Ne.symm hcur) _ _
    change (Thread.reapMemory σ.vmm (σ.threads i)).cr3 = _
    rw [hunt.cr3, h.loaded, hker]
    simp only [Sys.current, Sys.setTask, hc]
    rfl
  · refine ⟨fun j hj => Function.update_of_ne hj _ _, ?_, ?_, ?_, ?_, ?_, hmono, rfl, rfl, rfl⟩
    · rintro j rfl
      change (Function.update σ.threads j _ j).state = _
      rw [Function.update_self]
    · intro j hj r hr
      exact hunt.roots r ((hU r).2 ⟨h.mem_user hr, fun ho => hj (h.tasks.unique j i r hr ho)⟩)
    · intro r hr
      exact hunt.roots r ((hU r).2
        ⟨(h.tasks.owners r).2 (Or.inr hr), fun ho => h.tasks.extra i r ho hr⟩)
    · intro j hj hb
      refine stackFrames_congr ?_ fun k hk => ?_
      · change (Thread.reapMemory σ.vmm (σ.threads i)).kernelCr3 = _
        rw [hmem.kernelCr3, h.mem.kernelCr3, hker]
      · rw [h.mem.kernelCr3]
        exact hunt.leaves _ (h.stack_pos hb hk) rfl fun hin =>
          h.stack_not_mem hj hin.1 hb hk hin.2
    · rintro j rfl
      exact hfreed

/-! ### All dead threads -/

/-- The threads that `thread_reap_dead` reaps. -/
def deadSlots (σ : Sys) : Set (Fin 32) :=
  {j | j ∈ slots ∧ (σ.threads j).state = .dead ∧ j ≠ σ.cur}

theorem SysInv.reapSlots {X : Set Nat} (l : List (Fin 32)) {D : Domain} {L : List Nat} {σ : Sys}
    (h : SysInv D L X σ) :
    ∃ D' L', SysInv D' L' X (l.foldl Thread.reapSlot σ) ∧ D'.kernel = D.kernel ∧
      Reaped {j | j ∈ l ∧ (σ.threads j).state = .dead ∧ j ≠ σ.cur} X σ
        (l.foldl Thread.reapSlot σ) := by
  induction l generalizing D L σ with
  | nil =>
      refine ⟨D, L, h, rfl, ?_⟩
      have hS : {j | j ∈ ([] : List (Fin 32)) ∧ (σ.threads j).state = .dead ∧ j ≠ σ.cur} = ∅ := by
        ext j
        simp
      rw [hS]
      exact Reaped.refl X σ
  | cons i l ih =>
      obtain ⟨D1, L1, h1, hk1, hr1⟩ := h.reapSlot i
      obtain ⟨D2, L2, h2, hk2, hr2⟩ := ih h1
      refine ⟨D2, L2, h2, hk2.trans hk1, ?_⟩
      set σ1 := Thread.reapSlot σ i
      -- a slot that was reaped in the first turn is unused in the later ones
      have hsplit : {j | j ∈ i :: l ∧ (σ.threads j).state = .dead ∧ j ≠ σ.cur} =
          {j | j = i ∧ (σ.threads j).state = .dead ∧ j ≠ σ.cur} ∪
            {j | j ∈ l ∧ (σ1.threads j).state = .dead ∧ j ≠ σ1.cur} := by
        ext j
        simp only [List.mem_cons, Set.mem_ofPred_eq, Set.mem_union, hr1.cur]
        by_cases hj : j = i ∧ (σ.threads j).state = .dead ∧ j ≠ σ.cur
        · simp [hj.1, hj.1 ▸ hj.2]
        · rw [hr1.others j hj]
          tauto
      rw [hsplit]
      refine hr1.trans hr2 fun j hj hj2 => ?_
      have hun := hr1.gone j hj
      rw [hj2.2.1] at hun
      exact absurd hun (by simp)

/-- `thread_reap_dead`. -/
theorem SysInv.threadReapDead {D : Domain} {L : List Nat} {X : Set Nat} {σ : Sys}
    (h : SysInv D L X σ) :
    ∃ D' L', SysInv D' L' X (threadReapDead σ) ∧ D'.kernel = D.kernel ∧
      Reaped (deadSlots σ) X σ (threadReapDead σ) :=
  h.reapSlots slots

end FiFi.Thread
