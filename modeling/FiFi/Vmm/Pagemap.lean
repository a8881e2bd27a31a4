import FiFi.Vmm.Ops

/-!
# Creating and destroying page maps

A new page map has an empty lower half and the kernel's entries in its upper
half. Destroying a page map gives back every page of its tree, each once, and
writes nothing else.
-/

namespace FiFi.Vmm

open Pmm LinkedList RadixForest

/-! ### Roots in the domain -/

/-- The domain with one more page map. -/
def Domain.insert (D : Domain) (r : Nat) (h : r ≠ D.kernel) : Domain where
  user := Insert.insert r D.user
  kernel := D.kernel
  slots := D.slots
  kernel_not_user := by
    rintro (hk | hk)
    · exact h hk.symm
    · exact D.kernel_not_user hk

/-- The domain without the page map at `r`. -/
def Domain.erase (D : Domain) (r : Nat) : Domain where
  user := D.user \ {r}
  kernel := D.kernel
  slots := D.slots
  kernel_not_user := fun hk => D.kernel_not_user hk.1

theorem Pos.of_erase {D : Domain} {r r' : Nat} {π : List Nat} (h : Pos (D.erase r) r' π) :
    Pos D r' π := by
  obtain ⟨hr, hlen, hlt, hhead⟩ := h
  refine ⟨hr.imp_left fun hu => hu.1, hlen, hlt, fun i hi => ?_⟩
  obtain ⟨hi512, hslot⟩ := hhead i hi
  exact ⟨hi512, hslot.imp_left fun hu => ⟨hu.1.1, hu.2⟩⟩

theorem Pos.ne_of_erase {D : Domain} {r r' : Nat} {π : List Nat} (hr : r ∈ D.user)
    (h : Pos (D.erase r) r' π) : r' ≠ r := by
  rintro rfl
  rcases h.1 with hu | hk
  · exact hu.2 rfl
  · exact D.kernel_not_user (hk ▸ hr)

theorem Pos.erase {D : Domain} {r r' : Nat} {π : List Nat} (h : Pos D r' π) (hne : r' ≠ r) :
    Pos (D.erase r) r' π := by
  obtain ⟨hr, hlen, hlt, hhead⟩ := h
  refine ⟨hr.imp_left fun hu => ⟨hu, hne⟩, hlen, hlt, fun i hi => ?_⟩
  obtain ⟨hi512, hslot⟩ := hhead i hi
  exact ⟨hi512, hslot.imp_left fun hu => ⟨⟨hu.1, hne⟩, hu.2⟩⟩

theorem Pos.insert {D : Domain} {r r' : Nat} {π : List Nat} {hk : r ≠ D.kernel} (h : Pos D r' π) :
    Pos (D.insert r hk) r' π := by
  obtain ⟨hr, hlen, hlt, hhead⟩ := h
  refine ⟨hr.imp_left fun hu => Or.inr hu, hlen, hlt, fun i hi => ?_⟩
  obtain ⟨hi512, hslot⟩ := hhead i hi
  exact ⟨hi512, hslot.imp_left fun hu => ⟨Or.inr hu.1, hu.2⟩⟩

theorem Pos.of_insert {D : Domain} {r r' : Nat} {π : List Nat} {hk : r ≠ D.kernel}
    (h : Pos (D.insert r hk) r' π) (hne : r' ≠ r) : Pos D r' π := by
  obtain ⟨hr, hlen, hlt, hhead⟩ := h
  refine ⟨hr.imp_left fun hu => hu.resolve_left hne, hlen, hlt, fun i hi => ?_⟩
  obtain ⟨hi512, hslot⟩ := hhead i hi
  exact ⟨hi512, hslot.imp_left fun hu => ⟨hu.1.resolve_left hne, hu.2⟩⟩

namespace VmmInv

variable {D : Domain} {s : VmmState} {L : List Nat} {H : Set Nat}

/-! ### Creating -/

/-- Below a root whose lower half is empty there is nothing. -/
theorem look_of_lower_empty {r : Nat} (hpage : ptePage r = r) (hk : r ≠ D.kernel)
    (hempty : ∀ i < 256, ¬ present (entry s.mem r i)) {π : List Nat} (hπ : Pos D r π)
    (hne : π ≠ []) : look s.mem r π = none := by
  obtain ⟨i, τ, rfl⟩ := List.exists_cons_of_ne_nil hne
  obtain ⟨-, ⟨-, hi⟩ | ⟨hbad, -⟩⟩ := hπ.2.2.2 i (by simp)
  · have hnone : link s.mem (ptePage r) i = none := by
      rw [hpage]
      exact link_none.2 (hempty i hi)
    rw [look, walk_cons, hnone]
    rfl
  · exact absurd hbad hk

/-- A page that is held and whose lower half is empty becomes a page map. -/
theorem addRoot (h : VmmInv D s L H) {r : Nat} (hr : r ∈ H) (hk : r ≠ D.kernel)
    (hempty : ∀ i < 256, ¬ present (entry s.mem r i)) :
    VmmInv (D.insert r hk) s L (H \ {r}) := by
  have hout := h.held r hr
  have hpage : ptePage r = r := by
    obtain ⟨hmod, -, hend, -⟩ := hout
    have hstop := h.stop_le
    refine ptePage_of_page hmod ?_
    simp only [pageSize] at *
    omega
  have hnew : r ∉ D.user := fun hu => h.held_ne_root hr (Or.inl hu) rfl
  have hcase : ∀ r' π e, Pos (D.insert r hk) r' π → look s.mem r' π = some e →
      (r' = r ∧ π = [] ∧ e = r) ∨ (r' ≠ r ∧ Pos D r' π) := by
    intro r' π e hπ he
    by_cases hrr : r' = r
    · subst hrr
      by_cases hnil : π = []
      · subst hnil
        exact Or.inl ⟨rfl, rfl, (Option.some.inj he).symm⟩
      · rw [look_of_lower_empty (D := D.insert r' hk) hpage hk hempty hπ hnil] at he
        simp at he
    · exact Or.inr ⟨hrr, hπ.of_insert hrr⟩
  refine ⟨h.pmm, h.stop_le, ?_, ?_, ?_, ?_, h.kernel, fun p hp => h.held p hp.1, ?_⟩
  · intro r1 π1 r2 π2 a b h1 h2 ha hb hab
    rcases hcase r1 π1 a h1 ha with ⟨rfl, rfl, rfl⟩ | ⟨-, h1'⟩
    · rcases hcase r2 π2 b h2 hb with ⟨rfl, rfl, rfl⟩ | ⟨-, h2'⟩
      · exact ⟨rfl, rfl⟩
      · rw [hpage] at hab
        exact absurd hab.symm (h.held_ne hr h2' hb)
    · rcases hcase r2 π2 b h2 hb with ⟨rfl, rfl, rfl⟩ | ⟨-, h2'⟩
      · rw [hpage] at hab
        exact absurd hab (h.held_ne hr h1' ha)
      · exact h.apart r1 π1 r2 π2 a b h1' h2' ha hb hab
  · rintro r' ((rfl | hu) | hk')
    · exact hpage
    · exact h.root r' (Or.inl hu)
    · exact h.root r' (Or.inr hk')
  · intro r' π e hπ hne hlen he
    rcases hcase r' π e hπ he with ⟨-, hnil, -⟩ | ⟨-, hπ'⟩
    · exact absurd hnil hne
    · exact h.tables r' π e hπ' hne hlen he
  · intro r' π e hπ hor he
    rcases hcase r' π e hπ he with ⟨-, -, rfl⟩ | ⟨hne, hπ'⟩
    · rw [hpage]
      exact hout
    · exact h.used r' π e hπ' (hor.imp_left fun hu => hu.resolve_left hne) he
  · intro r' π e hπ he hin
    rcases hcase r' π e hπ he with ⟨-, -, rfl⟩ | ⟨-, hπ'⟩
    · rw [hpage] at hin
      exact hin.2 rfl
    · exact h.held_apart r' π e hπ' he hin.1

/-- `vmm_create_user_pagemap`. -/
theorem createUserPagemap (h : VmmInv D s L H) (hk : s.kernelCr3 = D.kernel)
    (hk0 : D.kernel ≠ 0) :
    (vmmCreateUserPagemap s = (0, s) ∧ freeSet s.pmm L = ∅) ∨
      ∃ dst s' L', ∃ hne : dst ≠ D.kernel, vmmCreateUserPagemap s = (dst, s') ∧ dst ≠ 0 ∧
        dst ∈ freeSet s.pmm L ∧ VmmInv (D.insert dst hne) s' L' H ∧
        freeSet s'.pmm L' = freeSet s.pmm L \ {dst} ∧ s'.pmm.stop = s.pmm.stop ∧
        s'.cr3 = s.cr3 ∧ s'.kernelCr3 = s.kernelCr3 ∧
        (∀ w, alignDown w ≠ dst → s'.mem w = s.mem w) ∧
        (∀ i < 256, entry s'.mem dst i = 0) ∧
        ∀ i, 256 ≤ i → i < 512 → entry s'.mem dst i = entry s.mem D.kernel i := by
  unfold vmmCreateUserPagemap
  rcases h.alloc D.kernel with ⟨heq, hempty⟩ | ⟨hne0, hin, hmem, L', hc, hfree⟩
  · exact Or.inl ⟨by simp [heq], hempty⟩
  · right
    have hker : (allocPage s).2.kernelCr3 = D.kernel := hc.kernelCr3.trans hk
    have hmod : (allocPage s).1 % pageSize = 0 := h.pmm.mod_of_mem_freeSet hin
    have hdk : (allocPage s).1 ≠ D.kernel := fun heq => h.kernel (heq ▸ hin)
    have hpH : (allocPage s).1 ∉ H := fun hp => (h.held _ hp).2.2.2 hin
    have hkmod : D.kernel % pageSize = 0 := by
      rw [← h.root D.kernel (Or.inr rfl)]
      exact ptePage_mod _
    simp only [if_neg hne0, hker, if_neg hk0]
    generalize (allocPage s).1 = p at *
    generalize (allocPage s).2 = s1 at *
    set mem' : Nat → Nat := fun w =>
      if p + 2048 ≤ w ∧ w < p + pageSize then zeroPage s1.mem p (D.kernel + (w - p))
      else zeroPage s1.mem p w with hmem'
    have hout : ∀ w, alignDown w ≠ p → mem' w = s1.mem w := by
      intro w hw
      simp only [hmem']
      rw [if_neg, alignDown_zeroPage s1.mem hmod hw]
      intro hin'
      refine hw ?_
      simp only [alignDown, pageSize] at *
      omega
    have hlow : ∀ i < 256, entry mem' p i = 0 := by
      intro i hi
      simp only [entry, hmem']
      rw [if_neg (by simp only [pageSize]; omega)]
      exact entry_zeroPage (by omega)
    have hhigh : ∀ i, 256 ≤ i → i < 512 → entry mem' p i = entry s.mem D.kernel i := by
      intro i hi hi'
      simp only [entry, hmem']
      rw [if_pos (by simp only [pageSize]; omega)]
      have hw : alignDown (D.kernel + (p + 8 * i - p)) ≠ p := by
        rw [Nat.add_sub_cancel_left, alignDown_entry hkmod hi']
        exact hdk.symm
      rw [alignDown_zeroPage s1.mem hmod hw, Nat.add_sub_cancel_left, hmem]
    obtain ⟨hc2, -⟩ := hc.inv.write (Or.inr rfl) (Set.mem_insert p H) hout
    have hinv := hc2.inv.addRoot (Set.mem_insert p H) hdk
      (fun i hi => by rw [withMem_mem, hlow i hi]; decide)
    rw [Set.insert_sdiff_self_of_notMem hpH] at hinv
    refine ⟨p, s1.withMem mem', L', hdk, rfl, hne0, hin, hinv, hfree, hc.stop, hc.cr3,
      hc.kernelCr3, ?_, hlow, hhigh⟩
    intro w hw
    rw [withMem_mem, hout w hw, hmem]

end VmmInv

/-! ### Destroying -/

/-- The positions of the page map at `r` that satisfy `B` are empty now, all
others are as before. -/
structure Emptied (D : Domain) (r : Nat) (B : List Nat → Prop) (s s' : VmmState) : Prop where
  gone : ∀ σ, Pos D r σ → B σ → look s'.mem r σ = none
  same : ∀ r' σ, Pos D r' σ → (r' = r → ¬ B σ) → look s'.mem r' σ = look s.mem r' σ

theorem Emptied.trans {D : Domain} {r : Nat} {B B' : List Nat → Prop} {s s' s'' : VmmState}
    (h : Emptied D r B s s') (h' : Emptied D r B' s' s'') :
    Emptied D r (fun σ => B σ ∨ B' σ) s s'' where
  gone := by
    intro σ hσ hB
    by_cases hB' : B' σ
    · exact h'.gone σ hσ hB'
    · rw [h'.same r σ hσ fun _ => hB']
      exact h.gone σ hσ (hB.resolve_right hB')
  same := by
    intro r' σ hσ hnot
    rw [h'.same r' σ hσ fun hr hB' => hnot hr (Or.inr hB')]
    exact h.same r' σ hσ fun hr hB => hnot hr (Or.inl hB)

theorem Emptied.congr {D : Domain} {r : Nat} {B B' : List Nat → Prop} {s s' : VmmState}
    (h : Emptied D r B s s') (hB : ∀ σ, B' σ ↔ B σ) : Emptied D r B' s s' where
  gone := fun σ hσ hσB => h.gone σ hσ ((hB σ).1 hσB)
  same := fun r' σ hσ hnot => h.same r' σ hσ fun hr hσB => hnot hr ((hB σ).2 hσB)

/-- Giving back a page and clearing its entry can be done in either order. -/
theorem freePage_setEntry (s : VmmState) {p t i : Nat} (hp : p % pageSize = 0)
    (hne : t + 8 * i ≠ p) :
    (freePage s p).setEntry t i 0 = freePage (s.setEntry t i 0) p := by
  have hal : alignDown p = p := alignDown_of_mod hp
  simp only [freePage, pmmFreePage, VmmState.setEntry, VmmState.withMem, VmmState.mem, hal]
  split_ifs
  all_goals first
    | rfl
    | simp only [Function.update_comm hne]

namespace VmmInv

variable {D : Domain} {s : VmmState} {L : List Nat} {H : Set Nat} {r : Nat}

/-- One turn of a loop of `vmm_destroy_user_pagemap`, when what the entry leads to
is already empty below. -/
theorem destroyEntry (h : VmmInv D s L H) {t i e : Nat} {π : List Nat}
    (hπ : Pos D r (π ++ [i])) (ht : look s.mem r π = some t)
    (he : look s.mem r (π ++ [i]) = some e)
    (hvoid : ∀ j, Pos D r (π ++ [i] ++ [j]) → look s.mem r (π ++ [i] ++ [j]) = none) :
    Change D r s L H ((freePage s (ptePage e)).setEntry (ptePage t) i 0) (ptePage e :: L) H ∧
      Emptied D r (fun σ => σ = π ++ [i]) s
        ((freePage s (ptePage e)).setEntry (ptePage t) i 0) := by
  have hne : ptePage t + 8 * i ≠ ptePage e := by
    intro heq
    have hpage : ptePage t = ptePage e := by
      rw [← alignDown_entry (ptePage_mod t) hπ.index_lt, heq, alignDown_of_mod (ptePage_mod e)]
    obtain ⟨-, hbad⟩ := h.apart r π r (π ++ [i]) t e hπ.init hπ ht he hpage
    simp at hbad
  rw [freePage_setEntry s (ptePage_mod e) hne]
  obtain ⟨hc, hlook⟩ := h.pruneAt hπ ht he hvoid
  refine ⟨hc, fun σ hσ hB => ?_, fun r' σ hσ hnot => ?_⟩
  · rw [hlook r σ hσ, if_pos ⟨rfl, hB⟩]
  · rw [hlook r' σ hσ, if_neg fun hc => hnot hc.1 hc.2]

/-- A loop of `vmm_destroy_user_pagemap` over the first `n` entries of a table. -/
theorem destroyEntries (h : VmmInv D s L H) {t : Nat} {π : List Nat}
    (ht : look s.mem r π = some t) (inner : Nat → VmmState → VmmState) (n : Nat)
    (hslots : ∀ i < n, Pos D r (π ++ [i]))
    (hinner : ∀ i s1 L1 e, i < n → VmmInv D s1 L1 H → look s1.mem r (π ++ [i]) = some e →
      ∃ fs, Change D r s1 L1 H (inner (ptePage e) s1) (fs ++ L1) H ∧
        Emptied D r (fun σ => π ++ [i] <+: σ ∧ σ ≠ π ++ [i]) s1 (inner (ptePage e) s1)) :
    ∃ fs, Change D r s L H (Vmm.destroyEntries inner n (ptePage t) s) (fs ++ L) H ∧
      Emptied D r (fun σ => ∃ i < n, π ++ [i] <+: σ) s
        (Vmm.destroyEntries inner n (ptePage t) s) := by
  induction n with
  | zero =>
      refine ⟨[], Change.refl h, fun σ _ hB => ?_, fun _ _ _ _ => rfl⟩
      obtain ⟨i, hi, -⟩ := hB
      omega
  | succ n ih =>
      obtain ⟨fs1, hc1, he1⟩ := ih (fun i hi => hslots i (by omega))
        fun i s1 L1 e hi => hinner i s1 L1 e (by omega)
      have hfold : Vmm.destroyEntries inner (n + 1) (ptePage t) s =
          (fun s1 : VmmState =>
            if present (entry s1.mem (ptePage t) n) then
              (freePage (inner (ptePage (entry s1.mem (ptePage t) n)) s1)
                (ptePage (entry s1.mem (ptePage t) n))).setEntry (ptePage t) n 0
            else s1) (Vmm.destroyEntries inner n (ptePage t) s) := by
        rw [Vmm.destroyEntries, List.range_succ, List.foldl_append]
        rfl
      rw [hfold]
      set s1 := Vmm.destroyEntries inner n (ptePage t) s
      have hpos := hslots n (by omega)
      have ht1 : look s1.mem r π = some t := by
        rw [he1.same r π hpos.init fun _ hB => ?_, ht]
        obtain ⟨i, -, hpre⟩ := hB
        have := hpre.length_le
        simp at this
      have hslot : look s1.mem r (π ++ [n]) = link s1.mem (ptePage t) n := by
        rw [look_snoc, ht1]
        rfl
      have hsplit : ∀ σ, (∃ i < n + 1, π ++ [i] <+: σ) ↔
          (∃ i < n, π ++ [i] <+: σ) ∨ π ++ [n] <+: σ := by
        intro σ
        constructor
        · rintro ⟨i, hi, hpre⟩
          by_cases hin : i = n
          · exact Or.inr (hin ▸ hpre)
          · exact Or.inl ⟨i, by omega, hpre⟩
        · rintro (⟨i, hi, hpre⟩ | hpre)
          · exact ⟨i, by omega, hpre⟩
          · exact ⟨n, by omega, hpre⟩
      dsimp only
      split
      · next hp =>
          have he : look s1.mem r (π ++ [n]) = some (entry s1.mem (ptePage t) n) := by
            rw [hslot]
            exact link_some.2 ⟨hp, rfl⟩
          generalize entry s1.mem (ptePage t) n = e at he
          obtain ⟨fs2, hc2, he2⟩ := hinner n s1 (fs1 ++ L) e (by omega) hc1.inv he
          have ht2 : look (inner (ptePage e) s1).mem r π = some t := by
            rw [he2.same r π hpos.init fun _ hB => ?_, ht1]
            have := hB.1.length_le
            simp at this
          have hee : look (inner (ptePage e) s1).mem r (π ++ [n]) = some e := by
            rw [he2.same r _ hpos fun _ hB => hB.2 rfl, he]
          have hvoid : ∀ j, Pos D r (π ++ [n] ++ [j]) →
              look (inner (ptePage e) s1).mem r (π ++ [n] ++ [j]) = none :=
            fun j hj => he2.gone _ hj ⟨List.prefix_append _ _, by simp⟩
          obtain ⟨hc3, he3⟩ := hc2.inv.destroyEntry hpos ht2 hee hvoid
          refine ⟨ptePage e :: (fs2 ++ fs1), ?_, (he1.trans (he2.trans he3)).congr fun σ => ?_⟩
          · rw [List.cons_append, List.append_assoc]
            exact hc1.trans (hc2.trans hc3)
          rw [hsplit]
          refine or_congr_right ⟨fun hpre => ?_, ?_⟩
          · by_cases heq : σ = π ++ [n]
            · exact Or.inr heq
            · exact Or.inl ⟨hpre, heq⟩
          · rintro (hpre | rfl)
            · exact hpre.1
            · exact List.prefix_rfl
      · next hp =>
          have hnone : look s1.mem r (π ++ [n]) = none := by
            rw [hslot]
            exact link_none.2 hp
          have hvoid : Emptied D r (fun σ => π ++ [n] <+: σ) s1 s1 := by
            refine ⟨fun σ _ hpre => ?_, fun _ _ _ _ => rfl⟩
            obtain ⟨τ, rfl⟩ := hpre
            rw [look_append, hnone]
            rfl
          exact ⟨fs1, hc1, (he1.trans hvoid).congr hsplit⟩

/-- The loop nest below a table leaves the table in place and everything below
it empty. -/
theorem destroyBelow (h : VmmInv D s L H) {e : Nat} {π : List Nat} (hπ : Pos D r π)
    (hne : π ≠ []) (depth : Nat) (hdepth : π.length + depth = 4)
    (he : look s.mem r π = some e) :
    ∃ fs, Change D r s L H (Vmm.destroyBelow depth (ptePage e) s) (fs ++ L) H ∧
      Emptied D r (fun σ => π <+: σ ∧ σ ≠ π) s (Vmm.destroyBelow depth (ptePage e) s) := by
  induction depth generalizing π e s L with
  | zero =>
      -- a frame: no position lies below
      refine ⟨[], Change.refl h, fun σ hσ hB => ?_, fun _ _ _ _ => rfl⟩
      have hlen := hB.1.length_le
      have hσlen := hσ.2.1
      exact absurd (hB.1.eq_of_length (by omega)).symm hB.2
  | succ depth ih =>
      have hslots : ∀ i < 512, Pos D r (π ++ [i]) := fun i hi => hπ.snoc hne (by omega) hi
      obtain ⟨fs, hc, hem⟩ := h.destroyEntries he (Vmm.destroyBelow depth) 512 hslots
        fun i s1 L1 e1 hi h1 he1 => ih h1 (hslots i hi) (by simp) (by simp; omega) he1
      refine ⟨fs, hc, fun σ hσ hB => ?_, fun r' σ hσ hnot => ?_⟩
      · obtain ⟨⟨τ, rfl⟩, hneq⟩ := hB
        cases τ with
        | nil => simp at hneq
        | cons i τ =>
            refine hem.gone _ hσ ⟨i, hσ.2.2.1 i (by simp), τ, by simp⟩
      · refine hem.same r' σ hσ fun hr hB => hnot hr ?_
        obtain ⟨i, -, hpre⟩ := hB
        refine ⟨(List.prefix_append π [i]).trans hpre, ?_⟩
        rintro rfl
        have := hpre.length_le
        simp at this

/-- The tree of a page map without anything below its root. -/
theorem tree_of_empty (h : VmmInv D s L H) (hr : r ∈ D.user)
    (hempty : ∀ π, Pos D r π → π ≠ [] → look s.mem r π = none) : tree D s.mem r = {r} := by
  have hroot := h.root r (Or.inl hr)
  ext q
  constructor
  · rintro ⟨π, e, hπ, he, rfl⟩
    by_cases hne : π = []
    · subst hne
      obtain rfl := Option.some.inj he
      exact hroot
    · rw [hempty π hπ hne] at he
      simp at he
  · rintro rfl
    exact ⟨[], q, pos_nil (Or.inl hr), rfl, hroot.symm⟩

/-- A page map without anything below its root is a page that is held. -/
theorem dropRoot (h : VmmInv D s L H) (hr : r ∈ D.user)
    (hempty : ∀ π, Pos D r π → π ≠ [] → look s.mem r π = none) :
    VmmInv (D.erase r) s L (insert r H) := by
  have hroot := h.root r (Or.inl hr)
  have hout : HandedOut s.pmm L r := by
    have := h.used r [] r (pos_nil (Or.inl hr)) (Or.inl hr) rfl
    rwa [hroot] at this
  refine ⟨h.pmm, h.stop_le, ?_, ?_, ?_, ?_, h.kernel, ?_, ?_⟩
  · exact fun r1 π1 r2 π2 a b h1 h2 => h.apart r1 π1 r2 π2 a b h1.of_erase h2.of_erase
  · exact fun r' hr' => h.root r' (hr'.imp_left fun hu => hu.1)
  · exact fun r' π e hπ => h.tables r' π e hπ.of_erase
  · exact fun r' π e hπ hor => h.used r' π e hπ.of_erase (hor.imp_left fun hu => hu.1)
  · rintro p (rfl | hp)
    · exact hout
    · exact h.held p hp
  · rintro r' π e hπ he (heq | hin)
    · refine (hπ.ne_of_erase hr) ?_
      exact (h.apart r' π r [] e r hπ.of_erase (pos_nil (Or.inl hr)) he rfl
        (heq.trans hroot.symm)).1
    · exact h.held_apart r' π e hπ.of_erase he hin

/-- `vmm_destroy_user_pagemap`. What it gives back is at the front of the free list. -/
theorem destroyUserPagemap (h : VmmInv D s L H) (hr : r ∈ D.user)
    (hk : s.kernelCr3 = D.kernel) :
    ∃ fs, VmmInv (D.erase r) (vmmDestroyUserPagemap s r) (fs ++ L) H ∧
      freeSet (vmmDestroyUserPagemap s r).pmm (fs ++ L) = freeSet s.pmm L ∪ tree D s.mem r ∧
      (vmmDestroyUserPagemap s r).cr3 = s.cr3 ∧
      (vmmDestroyUserPagemap s r).kernelCr3 = s.kernelCr3 ∧
      (vmmDestroyUserPagemap s r).pmm.stop = s.pmm.stop ∧
      ∀ w, alignDown w ∉ Vmm.region D s L H r →
        (vmmDestroyUserPagemap s r).mem w = s.mem w := by
  have hroot := h.root r (Or.inl hr)
  have hpos := pos_nil (D := D) (Or.inl hr)
  have hout : HandedOut s.pmm L r := by
    have := h.used r [] r hpos (Or.inl hr) rfl
    rwa [hroot] at this
  have hr0 : r ≠ 0 := by
    obtain ⟨-, hmin, -⟩ := hout
    simp only [minPhys] at hmin
    omega
  have hrk : r ≠ s.kernelCr3 := by
    rintro rfl
    exact D.kernel_not_user (hk ▸ hr)
  have hslots : ∀ i < 256, Pos D r ([] ++ [i]) := fun i hi =>
    pos_singleton (Or.inl hr) ⟨by omega, Or.inl ⟨hr, hi⟩⟩
  obtain ⟨fs1, hc, hem⟩ := h.destroyEntries (look_nil s.mem r) (Vmm.destroyBelow 3) 256 hslots
    fun i s1 L1 e hi h1 he => h1.destroyBelow (hslots i hi) (by simp) 3 (by simp) he
  rw [hroot] at hc hem
  have heq : vmmDestroyUserPagemap s r =
      freePage (Vmm.destroyEntries (Vmm.destroyBelow 3) 256 r s) r := by
    rw [vmmDestroyUserPagemap, if_neg hr0, if_neg hrk]
  rw [heq]
  set s1 := Vmm.destroyEntries (Vmm.destroyBelow 3) 256 r s
  have hempty : ∀ π, Pos D r π → π ≠ [] → look s1.mem r π = none := by
    intro π hπ hne
    obtain ⟨i, τ, rfl⟩ := List.exists_cons_of_ne_nil hne
    refine hem.gone _ hπ ⟨i, ?_, τ, rfl⟩
    obtain ⟨-, ⟨-, hi⟩ | ⟨hbad, -⟩⟩ := hπ.2.2.2 i (by simp)
    · exact hi
    · exact absurd (hbad ▸ hr) D.kernel_not_user
  have htree := hc.inv.tree_of_empty hr hempty
  have hinv := hc.inv.dropRoot hr hempty
  obtain ⟨hc2, hfree, hmem, -⟩ :=
    hinv.free (D.erase r).kernel (Or.inr rfl) (Set.mem_insert r H)
  have hrH : r ∉ H := by
    have := h.held_apart r [] r hpos rfl
    rwa [hroot] at this
  rw [Set.insert_sdiff_self_of_notMem hrH] at hc2
  refine ⟨r :: fs1, hc2.inv, ?_, hc2.cr3.trans hc.cr3, hc2.kernelCr3.trans hc.kernelCr3,
    hc2.stop.trans hc.stop, ?_⟩
  · rw [List.cons_append, hfree]
    -- the region is the same; what is not held is free or the root
    have hreg := hc.region
    rw [Vmm.region, Vmm.region, htree] at hreg
    have hl : ∀ q ∈ insert r (freeSet s1.pmm (fs1 ++ L)), q ∉ H := by
      rintro q (rfl | hq) hH
      · exact hrH hH
      · exact (hc.inv.held q hH).2.2.2 hq
    have hr' : ∀ q ∈ freeSet s.pmm L ∪ tree D s.mem r, q ∉ H := by
      rintro q (hq | ⟨π, e, hπ, he, rfl⟩) hH
      · exact (h.held q hH).2.2.2 hq
      · exact h.held_apart r π e hπ he hH
    ext q
    constructor
    · intro hq
      have hin : q ∈ freeSet s1.pmm (fs1 ++ L) ∪ {r} ∪ H := by
        rcases hq with rfl | hq
        · exact Or.inl (Or.inr rfl)
        · exact Or.inl (Or.inl hq)
      rw [hreg] at hin
      exact hin.resolve_right (hl q hq)
    · intro hq
      have hin : q ∈ freeSet s.pmm L ∪ tree D s.mem r ∪ H := Or.inl hq
      rw [← hreg] at hin
      rcases hin.resolve_right (hr' q hq) with hf | rfl
      · exact Or.inr hf
      · exact Or.inl rfl
  · intro w hw
    have hwr : alignDown w ≠ r := by
      intro heqw
      exact hw (Or.inl (Or.inr ⟨[], r, hpos, rfl, heqw.trans hroot.symm⟩))
    rw [hmem w hwr]
    exact hc.frame w fun hwr' => hw hwr'.1

end VmmInv

end FiFi.Vmm
