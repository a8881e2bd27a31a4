import FiFi.Vmm.Invariant

/-!
# The steps page table operations are made of

A page is taken from the allocator or given back, a page that is held is
written, and an entry of a table is filled, cleared or given other flags. Each
step is described by what it does to the entries at all positions, and each is
a `Change` of the page map it belongs to.
-/

namespace FiFi.Vmm

open Pmm LinkedList RadixForest

/-- Writes to a page that is not a table are not felt by the tables. -/
theorem look_write {D : Domain} {mem mem' : Nat → Nat} {p : Nat}
    (hp : ∀ r π e, Pos D r π → π.length < 4 → look mem r π = some e → ptePage e ≠ p)
    (hmem : ∀ w, alignDown w ≠ p → mem' w = mem w) {r : Nat} {π : List Nat} (hπ : Pos D r π) :
    look mem' r π = look mem r π := by
  refine walk_congr (pos_prefixClosed D) ?_ hπ
  intro r π i e hπ he
  refine link_congr (hmem _ ?_)
  rw [alignDown_entry (ptePage_mod e) hπ.index_lt]
  exact hp r π e hπ.init hπ.length_lt he

theorem tree_congr {D : Domain} {mem mem' : Nat → Nat} {r : Nat}
    (h : ∀ π, Pos D r π → look mem' r π = look mem r π) : tree D mem' r = tree D mem r := by
  ext q
  constructor
  · rintro ⟨π, e, hπ, he, rfl⟩
    exact ⟨π, e, hπ, (h π hπ).symm.trans he, rfl⟩
  · rintro ⟨π, e, hπ, he, rfl⟩
    exact ⟨π, e, hπ, (h π hπ).trans he, rfl⟩

namespace VmmInv

variable {D : Domain} {s : VmmState} {L : List Nat} {H : Set Nat}

/-! ### Pages -/

/-- Free pages that are taken from the allocator become held. -/
theorem take (h : VmmInv D s L H) {pmm' : PmmState} {L' : List Nat} (hinv : PmmInv pmm' L')
    (hmem : pmm'.mem = s.pmm.mem) (hstop : pmm'.stop = s.pmm.stop) {P : Set Nat}
    (hP : P ⊆ freeSet s.pmm L) (hfree : freeSet pmm' L' = freeSet s.pmm L \ P) (r : Nat) :
    Change D r s L H { s with pmm := pmm' } L' (P ∪ H) := by
  have hsame : VmmState.mem { s with pmm := pmm' } = s.mem := hmem
  have hout : ∀ p, HandedOut s.pmm L p → HandedOut pmm' L' p := by
    rintro p ⟨hmod, hmin, hend, hnot⟩
    refine ⟨hmod, hmin, by rwa [hstop], fun hp => hnot ?_⟩
    rw [hfree] at hp
    exact hp.1
  have hnew : ∀ p ∈ P, HandedOut pmm' L' p := by
    intro p hp
    refine ⟨h.pmm.mod_of_mem_freeSet (hP hp), h.pmm.minPhys_le_of_mem (hP hp), ?_, ?_⟩
    · rw [hstop]
      exact h.pmm.lt_of_mem_freeSet (hP hp)
    · rw [hfree]
      exact fun hin => hin.2 hp
  refine ⟨⟨hinv, by rw [hstop]; exact h.stop_le, by rw [hsame]; exact h.apart, h.root,
    by rw [hsame]; exact h.tables, ?_, ?_, ?_, ?_⟩, rfl, rfl, hstop, ?_, fun w _ => by rw [hsame]⟩
  · rw [hsame]
    exact fun r π e hπ hr he => hout _ (h.used r π e hπ hr he)
  · rw [hfree]
    exact fun hk => h.kernel hk.1
  · rintro p (hp | hp)
    · exact hnew p hp
    · exact hout p (h.held p hp)
  · rw [hsame]
    rintro r π e hπ he (hp | hp)
    · exact h.not_free hπ he (hP hp)
    · exact h.held_apart r π e hπ he hp
  · have hf : freeSet s.pmm L = freeSet pmm' L' ∪ P := by
      rw [hfree, Set.sdiff_union_self, Set.union_eq_self_of_subset_right hP]
    simp only [Vmm.region, hsame, hf]
    ext p
    simp only [Set.mem_union]
    tauto

/-- Taking a page: the allocator is empty, or a free page becomes held. -/
theorem alloc (h : VmmInv D s L H) (r : Nat) :
    (allocPage s = (0, s) ∧ freeSet s.pmm L = ∅) ∨
      ((allocPage s).1 ≠ 0 ∧ (allocPage s).1 ∈ freeSet s.pmm L ∧ (allocPage s).2.mem = s.mem ∧
        ∃ L', Change D r s L H (allocPage s).2 L' (insert (allocPage s).1 H) ∧
          freeSet (allocPage s).2.pmm L' = freeSet s.pmm L \ {(allocPage s).1}) := by
  have hmem : (allocPage s).2.mem = s.mem := pmmAllocPage_mem s.pmm
  rcases h.pmm.alloc with ⟨heq, hempty⟩ | ⟨hne, hin, L', hinv, hfree⟩
  · exact Or.inl ⟨by simp [allocPage, heq], hempty⟩
  · refine Or.inr ⟨hne, hin, hmem, L', ?_, hfree⟩
    rw [Set.insert_eq]
    exact h.take hinv hmem (pmmAllocPage_stop s.pmm) (Set.singleton_subset_iff.2 hin) hfree r

theorem held_ne (h : VmmInv D s L H) {p : Nat} (hp : p ∈ H) {r : Nat} {π : List Nat} {e : Nat}
    (hπ : Pos D r π) (he : look s.mem r π = some e) : ptePage e ≠ p :=
  fun heq => h.held_apart r π e hπ he (heq ▸ hp)

theorem held_ne_root (h : VmmInv D s L H) {p : Nat} (hp : p ∈ H) {r : Nat}
    (hr : r ∈ D.user ∨ r = D.kernel) : p ≠ r := by
  rintro rfl
  exact h.held_ne hp (pos_nil hr) rfl (h.root p hr)

/-- The invariant does not depend on words that are neither links of the free
list nor entries of the forest. -/
theorem congr (h : VmmInv D s L H) {mem' : Nat → Nat} (hlist : ∀ p ∈ L, mem' p = s.mem p)
    (hlook : ∀ r π, Pos D r π → look mem' r π = look s.mem r π) :
    VmmInv D (s.withMem mem') L H := by
  refine ⟨h.pmm.congr_mem hlist, h.stop_le, ?_, h.root, ?_, ?_, h.kernel, h.held, ?_⟩
  · refine h.apart.mono fun r π e hπ he => ?_
    exact (hlook r π hπ).symm.trans he
  · intro r π e hπ hne hlen he
    exact h.tables r π e hπ hne hlen ((hlook r π hπ).symm.trans he)
  · intro r π e hπ hr he
    exact h.used r π e hπ hr ((hlook r π hπ).symm.trans he)
  · intro r π e hπ he
    exact h.held_apart r π e hπ ((hlook r π hπ).symm.trans he)

/-- The links of the free list are in free pages. -/
theorem link_of_not_free (h : VmmInv D s L H) {w : Nat} (hw : alignDown w ∉ freeSet s.pmm L) :
    w ∉ L := by
  intro hL
  rw [alignDown_of_mod (h.pmm.listed w hL).1] at hw
  exact hw (Or.inl hL)

/-- Writing a page of the region that is neither free nor a table. -/
theorem writeData (h : VmmInv D s L H) {r p : Nat} (hr : r ∈ D.user ∨ r = D.kernel)
    (hp : p ∈ Vmm.region D s L H r) (hfree : p ∉ freeSet s.pmm L)
    (htable : ∀ r' π e, Pos D r' π → π.length < 4 → look s.mem r' π = some e → ptePage e ≠ p)
    {mem' : Nat → Nat} (hmem : ∀ w, alignDown w ≠ p → mem' w = s.mem w) :
    Change D r s L H (s.withMem mem') L H ∧
      ∀ r' π, Pos D r' π → look mem' r' π = look s.mem r' π := by
  have hlook : ∀ r' π, Pos D r' π → look mem' r' π = look s.mem r' π :=
    fun r' π hπ => look_write htable hmem hπ
  refine ⟨⟨h.congr (fun q hq => hmem q fun heq => ?_) hlook, rfl, rfl, rfl, ?_, ?_⟩, hlook⟩
  · exact h.link_of_not_free (heq ▸ hfree) hq
  · change freeSet s.pmm L ∪ tree D mem' r ∪ H = _
    rw [tree_congr (hlook r)]
    rfl
  · intro w hw
    refine hmem w fun heq => hw ⟨heq ▸ hp, fun hroot => ?_⟩
    refine absurd ?_ (htable r [] r (pos_nil hr) (by simp) rfl)
    rw [h.root r hr, ← hroot, heq]

/-- Writing a page that is held. -/
theorem write (h : VmmInv D s L H) {r p : Nat} (hr : r ∈ D.user ∨ r = D.kernel) (hp : p ∈ H)
    {mem' : Nat → Nat} (hmem : ∀ w, alignDown w ≠ p → mem' w = s.mem w) :
    Change D r s L H (s.withMem mem') L H ∧
      ∀ r' π, Pos D r' π → look mem' r' π = look s.mem r' π :=
  h.writeData hr (Or.inr hp) (h.held p hp).2.2.2 (fun _ _ _ hπ _ he => h.held_ne hp hπ he) hmem

/-- Writing a frame of the page map. -/
theorem writeFrame (h : VmmInv D s L H) {r e : Nat} {π : List Nat} (hπ : Pos D r π)
    (hfour : π.length = 4) (he : look s.mem r π = some e) {mem' : Nat → Nat}
    (hmem : ∀ w, alignDown w ≠ ptePage e → mem' w = s.mem w) :
    Change D r s L H (s.withMem mem') L H ∧
      ∀ r' σ, Pos D r' σ → look mem' r' σ = look s.mem r' σ := by
  refine h.writeData hπ.1 (Or.inl (Or.inr ⟨π, e, hπ, he, rfl⟩)) (h.not_free hπ he) ?_ hmem
  intro r' σ e' hσ hlen he' heq
  obtain ⟨-, rfl⟩ := h.apart r' σ r π e' e hσ hπ he' he heq
  omega

/-- Giving back a page that is held. -/
theorem free (h : VmmInv D s L H) (r : Nat) (hr : r ∈ D.user ∨ r = D.kernel) {p : Nat}
    (hp : p ∈ H) :
    Change D r s L H (freePage s p) (p :: L) (H \ {p}) ∧
      freeSet (freePage s p).pmm (p :: L) = insert p (freeSet s.pmm L) ∧
      (∀ w, alignDown w ≠ p → (freePage s p).mem w = s.mem w) ∧
      ∀ r' π, Pos D r' π → look (freePage s p).mem r' π = look s.mem r' π := by
  obtain ⟨hmod, hmin, hend, hnot⟩ := h.held p hp
  have hlt : p < s.pmm.cursor := by
    by_contra hge
    exact hnot (Or.inr ⟨hmod, by omega, hend⟩)
  obtain ⟨hinv, heq⟩ := h.pmm.free hmod hmin hlt fun hL => hnot (Or.inl hL)
  have hfs : freeSet (freePage s p).pmm (p :: L) = insert p (freeSet s.pmm L) := by
    refine freeSet_free L ?_ ?_
    · simp [freePage, heq]
    · simp [freePage, heq]
  have hmem : ∀ w, alignDown w ≠ p → (freePage s p).mem w = s.mem w := by
    intro w hw
    change (pmmFreePage s.pmm p).mem w = s.mem w
    rw [heq]
    refine Function.update_of_ne ?_ _ _
    rintro rfl
    exact hw (alignDown_of_mod hmod)
  have hlook : ∀ r' π, Pos D r' π → look (freePage s p).mem r' π = look s.mem r' π :=
    fun r' π hπ => look_write (fun _ _ _ hπ _ he => h.held_ne hp hπ he) hmem hπ
  have hstop : (freePage s p).pmm.stop = s.pmm.stop := by simp [freePage, heq]
  have hout : ∀ q, q ≠ p → HandedOut s.pmm L q → HandedOut (freePage s p).pmm (p :: L) q := by
    rintro q hne ⟨hqm, hqmin, hqend, hq⟩
    refine ⟨hqm, hqmin, by rwa [hstop], ?_⟩
    rw [hfs]
    rintro (rfl | hin)
    · exact hne rfl
    · exact hq hin
  refine ⟨⟨⟨hinv, by rw [hstop]; exact h.stop_le, ?_, h.root, ?_, ?_, ?_, ?_, ?_⟩, rfl, rfl,
    hstop, ?_, ?_⟩, hfs, hmem, hlook⟩
  · refine h.apart.mono fun r π e hπ he => ?_
    exact (hlook r π hπ).symm.trans he
  · intro r π e hπ hne hlen he
    exact h.tables r π e hπ hne hlen ((hlook r π hπ).symm.trans he)
  · intro r π e hπ hr he
    have he' := (hlook r π hπ).symm.trans he
    exact hout _ (h.held_ne hp hπ he') (h.used r π e hπ hr he')
  · rw [hfs]
    rintro (hk | hk)
    · exact h.held_ne_root hp (Or.inr rfl) hk.symm
    · exact h.kernel hk
  · rintro q ⟨hq, hne⟩
    exact hout q hne (h.held q hq)
  · intro r π e hπ he hin
    exact h.held_apart r π e hπ ((hlook r π hπ).symm.trans he) hin.1
  · simp only [Vmm.region, hfs, tree_congr (hlook r)]
    ext q
    simp only [Set.mem_union, Set.mem_insert_iff, Set.mem_sdiff, Set.mem_singleton_iff]
    by_cases hqp : q = p
    · simp [hqp, hp]
    · simp [hqp]
  · intro w hw
    refine hmem w fun heqw => hw ⟨Or.inr (heqw ▸ hp), fun hroot => ?_⟩
    exact absurd (heqw.symm.trans hroot) (h.held_ne_root hp hr)

/-! ### Entries -/

section SetEntry

variable {r t i : Nat} {π : List Nat}

theorem link_setEntry (hπ : Pos D r (π ++ [i])) (v : Nat) :
    ∀ r' σ j a, Pos D r' (σ ++ [j]) → look s.mem r' σ = some a →
      (ptePage a ≠ ptePage t ∨ j ≠ i) →
      link (Function.update s.mem (ptePage t + 8 * i) v) (ptePage a) j =
        link s.mem (ptePage a) j := by
  intro r' σ j a hσ _ hne
  refine link_congr (Function.update_of_ne ?_ _ _)
  exact entry_ne (ptePage_mod a) (ptePage_mod t) hσ.index_lt hπ.index_lt hne

theorem look_setEntry (h : VmmInv D s L H) (hπ : Pos D r (π ++ [i]))
    (ht : look s.mem r π = some t) (v : Nat) {r' : Nat} {σ : List Nat} (hσ : Pos D r' σ)
    (hnot : ¬ (r' = r ∧ π ++ [i] <+: σ)) :
    look (Function.update s.mem (ptePage t + 8 * i) v) r' σ = look s.mem r' σ :=
  walk_update (pos_prefixClosed D) h.apart hπ ht (link_setEntry hπ v) hσ hnot

theorem look_setEntry_through (h : VmmInv D s L H) (hπ : Pos D r (π ++ [i]))
    (ht : look s.mem r π = some t) (v : Nat) (σ : List Nat) :
    look (Function.update s.mem (ptePage t + 8 * i) v) r (π ++ [i] ++ σ) =
      if present v then look (Function.update s.mem (ptePage t + 8 * i) v) v σ else none := by
  refine (walk_update_through (pos_prefixClosed D) h.apart hπ ht (link_setEntry hπ v) σ).trans ?_
  simp only [link, entry, Function.update_self]
  split <;> rfl

/-- A store to a slot in the forest is one the operation may make. -/
theorem writable_setEntry (h : VmmInv D s L H) (hπ : Pos D r (π ++ [i]))
    (ht : look s.mem r π = some t) : Writable D r (Vmm.region D s L H r) (ptePage t + 8 * i) := by
  rw [Writable, alignDown_entry (ptePage_mod t) hπ.index_lt,
    index_entry (ptePage_mod t) hπ.index_lt]
  refine ⟨Or.inl (Or.inr ⟨π, t, hπ.init, ht, rfl⟩), fun hroot => ?_⟩
  -- only the root itself is the page of the root
  have hnil : Pos D r [] := pos_nil hπ.1
  obtain ⟨-, rfl⟩ := h.apart r π r [] t r hπ.init hnil ht rfl (hroot.trans (h.root r hπ.1).symm)
  exact hπ.2.2.2 i (by simp)

theorem pmm_setEntry (h : VmmInv D s L H) (hπ : Pos D r (π ++ [i]))
    (ht : look s.mem r π = some t) (v : Nat) :
    PmmInv (s.setEntry (ptePage t) i v).pmm L := by
  refine h.pmm.congr_mem fun p hp => Function.update_of_ne ?_ _ _
  rintro rfl
  have hmod := (h.pmm.listed _ hp).1
  have hfree : ptePage t + 8 * i ∈ freeSet s.pmm L := Or.inl hp
  rw [← alignDown_of_mod hmod, alignDown_entry (ptePage_mod t) hπ.index_lt] at hfree
  exact h.not_free hπ.init ht hfree

/-- Clearing the entry of a page that leads nowhere. The page is held
afterwards. -/
theorem detach (h : VmmInv D s L H) (hπ : Pos D r (π ++ [i])) (ht : look s.mem r π = some t)
    {e : Nat} (he : look s.mem r (π ++ [i]) = some e)
    (hempty : ∀ j, Pos D r (π ++ [i] ++ [j]) → look s.mem r (π ++ [i] ++ [j]) = none) {v : Nat}
    (hv : ¬ present v) :
    Change D r s L H (s.setEntry (ptePage t) i v) L (insert (ptePage e) H) ∧
      ∀ r' σ, Pos D r' σ → look (s.setEntry (ptePage t) i v).mem r' σ =
        if r' = r ∧ σ = π ++ [i] then none else look s.mem r' σ := by
  have hlook : ∀ r' σ, Pos D r' σ → look (s.setEntry (ptePage t) i v).mem r' σ =
      if r' = r ∧ σ = π ++ [i] then none else look s.mem r' σ := by
    intro r' σ hσ
    by_cases hpre : r' = r ∧ π ++ [i] <+: σ
    · obtain ⟨rfl, τ, rfl⟩ := hpre
      rw [setEntry_mem, h.look_setEntry_through hπ ht v τ, if_neg hv]
      cases τ with
      | nil => simp
      | cons j τ =>
          have hj : Pos D r' (π ++ [i] ++ [j]) := by
            refine (pos_prefixClosed D).of_append τ ?_
            simpa using hσ
          have hbelow : look s.mem r' (π ++ [i] ++ [j] ++ τ) = none := by
            rw [look_append, hempty j hj]
            rfl
          rw [if_neg (by simp)]
          simpa using hbelow.symm
    · rw [setEntry_mem, h.look_setEntry hπ ht v hσ hpre, if_neg]
      rintro ⟨rfl, rfl⟩
      exact hpre ⟨rfl, List.prefix_rfl⟩
  have hsub : ∀ r' σ a, Pos D r' σ →
      look (s.setEntry (ptePage t) i v).mem r' σ = some a → look s.mem r' σ = some a := by
    intro r' σ a hσ ha
    rw [hlook r' σ hσ] at ha
    split at ha
    · simp at ha
    · exact ha
  have huse : HandedOut s.pmm L (ptePage e) := h.used r _ e hπ (Or.inr (by simp)) he
  have htree : tree D s.mem r = insert (ptePage e) (tree D (s.setEntry (ptePage t) i v).mem r) := by
    ext q
    constructor
    · rintro ⟨σ, a, hσ, ha, rfl⟩
      by_cases heq : σ = π ++ [i]
      · subst heq
        rw [he] at ha
        exact Or.inl (congrArg ptePage (Option.some.inj ha).symm)
      · refine Or.inr ⟨σ, a, hσ, ?_, rfl⟩
        rw [hlook r σ hσ, if_neg (fun hc => heq hc.2), ha]
    · rintro (rfl | ⟨σ, a, hσ, ha, rfl⟩)
      · exact ⟨_, e, hπ, he, rfl⟩
      · exact ⟨σ, a, hσ, hsub r σ a hσ ha, rfl⟩
  refine ⟨⟨⟨h.pmm_setEntry hπ ht v, h.stop_le, h.apart.mono hsub, h.root, ?_, ?_, h.kernel, ?_, ?_⟩,
    rfl, rfl, rfl, ?_, ?_⟩, hlook⟩
  · exact fun r' σ a hσ hne hlen ha => h.tables r' σ a hσ hne hlen (hsub r' σ a hσ ha)
  · exact fun r' σ a hσ hr ha => h.used r' σ a hσ hr (hsub r' σ a hσ ha)
  · rintro p (rfl | hp)
    · exact huse
    · exact h.held p hp
  · rintro r' σ a hσ ha (hp | hp)
    · -- two positions with the page of `e` would be the same
      have ha' := hsub r' σ a hσ ha
      obtain ⟨rfl, rfl⟩ := h.apart r' σ r (π ++ [i]) a e hσ hπ ha' he hp
      rw [hlook r' _ hσ, if_pos ⟨rfl, rfl⟩] at ha
      simp at ha
    · exact h.held_apart r' σ a hσ (hsub r' σ a hσ ha) hp
  · change freeSet s.pmm L ∪ tree D (s.setEntry (ptePage t) i v).mem r ∪ insert (ptePage e) H = _
    rw [Vmm.region, htree]
    ext q
    simp only [Set.mem_union, Set.mem_insert_iff]
    tauto
  · intro w hw
    refine Function.update_of_ne ?_ _ _
    rintro rfl
    exact hw (h.writable_setEntry hπ ht)

/-- Filling an empty slot with a page that is held. A new table is empty. -/
theorem attach (h : VmmInv D s L H) (hπ : Pos D r (π ++ [i])) (ht : look s.mem r π = some t)
    (he : look s.mem r (π ++ [i]) = none) {v : Nat} (hv : present v) (hp : ptePage v ∈ H)
    (htab : π.length < 3 → TableEntry v ∧ ∀ j < 512, ¬ present (entry s.mem (ptePage v) j)) :
    Change D r s L H (s.setEntry (ptePage t) i v) L (H \ {ptePage v}) ∧
      ∀ r' σ, Pos D r' σ → look (s.setEntry (ptePage t) i v).mem r' σ =
        if r' = r ∧ σ = π ++ [i] then some v else look s.mem r' σ := by
  have hne : ptePage v ≠ ptePage t := (h.held_ne hp hπ.init ht).symm
  have hlook : ∀ r' σ, Pos D r' σ → look (s.setEntry (ptePage t) i v).mem r' σ =
      if r' = r ∧ σ = π ++ [i] then some v else look s.mem r' σ := by
    intro r' σ hσ
    by_cases hpre : r' = r ∧ π ++ [i] <+: σ
    · obtain ⟨rfl, τ, rfl⟩ := hpre
      rw [setEntry_mem, h.look_setEntry_through hπ ht v τ, if_pos hv]
      cases τ with
      | nil => simp
      | cons j τ =>
          have hj : Pos D r' (π ++ [i] ++ [j]) := by
            refine (pos_prefixClosed D).of_append τ ?_
            simpa using hσ
          have hlen := hj.length_lt
          simp only [List.length_append, List.length_singleton] at hlen
          have hslot : link (Function.update s.mem (ptePage t + 8 * i) v) (ptePage v) j = none := by
            rw [link_congr (Function.update_of_ne (entry_ne (ptePage_mod v) (ptePage_mod t)
              hj.index_lt hπ.index_lt (Or.inl hne)) _ _)]
            exact link_none.2 ((htab (by omega)).2 j hj.index_lt)
          have hold : look s.mem r' (π ++ [i] ++ j :: τ) = none := by
            rw [look_append, he]
            rfl
          rw [if_neg (by simp), hold, look, walk_cons, hslot]
          rfl
    · rw [setEntry_mem, h.look_setEntry hπ ht v hσ hpre, if_neg]
      rintro ⟨rfl, rfl⟩
      exact hpre ⟨rfl, List.prefix_rfl⟩
  have hsub : ∀ r' σ a, Pos D r' σ → look (s.setEntry (ptePage t) i v).mem r' σ = some a →
      (r' = r ∧ σ = π ++ [i] ∧ a = v) ∨ look s.mem r' σ = some a := by
    intro r' σ a hσ ha
    rw [hlook r' σ hσ] at ha
    split at ha
    · next hc => exact Or.inl ⟨hc.1, hc.2, (Option.some.inj ha).symm⟩
    · exact Or.inr ha
  have htree : tree D (s.setEntry (ptePage t) i v).mem r = insert (ptePage v) (tree D s.mem r) := by
    ext q
    constructor
    · rintro ⟨σ, a, hσ, ha, rfl⟩
      rcases hsub r σ a hσ ha with ⟨-, -, rfl⟩ | ha'
      · exact Or.inl rfl
      · exact Or.inr ⟨σ, a, hσ, ha', rfl⟩
    · rintro (rfl | ⟨σ, a, hσ, ha, rfl⟩)
      · exact ⟨_, v, hπ, by rw [hlook r _ hπ, if_pos ⟨rfl, rfl⟩], rfl⟩
      · refine ⟨σ, a, hσ, ?_, rfl⟩
        rw [hlook r σ hσ, if_neg, ha]
        rintro ⟨-, rfl⟩
        rw [he] at ha
        simp at ha
  refine ⟨⟨⟨h.pmm_setEntry hπ ht v, h.stop_le, ?_, h.root, ?_, ?_, h.kernel, ?_, ?_⟩,
    rfl, rfl, rfl, ?_, ?_⟩, hlook⟩
  · exact h.apart.insert (fun r' σ a hσ ha => h.held_ne hp hσ ha) hsub
  · intro r' σ a hσ hnil hlen ha
    rcases hsub r' σ a hσ ha with ⟨-, rfl, rfl⟩ | ha'
    · simp only [List.length_append, List.length_singleton] at hlen
      exact (htab (by omega)).1
    · exact h.tables r' σ a hσ hnil hlen ha'
  · intro r' σ a hσ hr ha
    rcases hsub r' σ a hσ ha with ⟨-, -, rfl⟩ | ha'
    · exact h.held _ hp
    · exact h.used r' σ a hσ hr ha'
  · exact fun p hp' => h.held p hp'.1
  · rintro r' σ a hσ ha ⟨hin, hnot⟩
    rcases hsub r' σ a hσ ha with ⟨-, -, rfl⟩ | ha'
    · exact hnot rfl
    · exact h.held_apart r' σ a hσ ha' hin
  · change freeSet s.pmm L ∪ tree D (s.setEntry (ptePage t) i v).mem r ∪ (H \ {ptePage v}) = _
    rw [Vmm.region, htree]
    ext q
    simp only [Set.mem_union, Set.mem_insert_iff, Set.mem_sdiff, Set.mem_singleton_iff]
    by_cases hq : q = ptePage v
    · simp [hq, hp]
    · simp [hq]
  · intro w hw
    refine Function.update_of_ne ?_ _ _
    rintro rfl
    exact hw (h.writable_setEntry hπ ht)

/-- Giving an entry other flags. -/
theorem reflag (h : VmmInv D s L H) (hπ : Pos D r (π ++ [i])) (ht : look s.mem r π = some t)
    {e : Nat} (he : look s.mem r (π ++ [i]) = some e) {v : Nat} (hv : present v)
    (hpage : ptePage v = ptePage e) (htab : π.length < 3 → TableEntry v) :
    Change D r s L H (s.setEntry (ptePage t) i v) L H ∧
      ∀ r' σ, Pos D r' σ → look (s.setEntry (ptePage t) i v).mem r' σ =
        if r' = r ∧ σ = π ++ [i] then some v else look s.mem r' σ := by
  have hthrough : ∀ τ, Pos D r (π ++ [i] ++ τ) →
      look (s.setEntry (ptePage t) i v).mem r (π ++ [i] ++ τ) =
        if τ = [] then some v else look s.mem r (π ++ [i] ++ τ) := by
    intro τ
    induction τ using List.reverseRecOn with
    | nil =>
        intro _
        rw [setEntry_mem, h.look_setEntry_through hπ ht v [], if_pos hv]
        rfl
    | append_singleton τ j ih =>
        intro hτ
        rw [← List.append_assoc] at hτ ⊢
        rw [if_neg (by simp), look_snoc, look_snoc, ih hτ.init]
        -- below the slot the tables are the old ones
        have hslot : ∀ a, look s.mem r (π ++ [i] ++ τ) = some a →
            link (s.setEntry (ptePage t) i v).mem (ptePage a) j = link s.mem (ptePage a) j := by
          intro a ha
          refine link_setEntry hπ v r _ j a hτ ha (Or.inl fun heq => ?_)
          obtain ⟨-, hbad⟩ := h.apart r _ r π a t hτ.init hπ.init ha ht heq
          have := congrArg List.length hbad
          simp only [List.length_append, List.length_singleton] at this
          omega
        by_cases hnil : τ = []
        · subst hnil
          simp only [List.append_nil, if_true] at hslot ⊢
          rw [he]
          simp only [Option.bind_some, hpage]
          exact hslot e he
        · rw [if_neg hnil]
          cases ha : look s.mem r (π ++ [i] ++ τ) with
          | none => rfl
          | some a => exact hslot a ha
  have hlook : ∀ r' σ, Pos D r' σ → look (s.setEntry (ptePage t) i v).mem r' σ =
      if r' = r ∧ σ = π ++ [i] then some v else look s.mem r' σ := by
    intro r' σ hσ
    by_cases hpre : r' = r ∧ π ++ [i] <+: σ
    · obtain ⟨rfl, τ, rfl⟩ := hpre
      rw [hthrough τ hσ]
      simp
    · rw [setEntry_mem, h.look_setEntry hπ ht v hσ hpre, if_neg]
      rintro ⟨rfl, rfl⟩
      exact hpre ⟨rfl, List.prefix_rfl⟩
  have hsub : ∀ r' σ a, Pos D r' σ → look (s.setEntry (ptePage t) i v).mem r' σ = some a →
      ∃ b, look s.mem r' σ = some b ∧ ptePage b = ptePage a ∧ (b = a ∨ σ = π ++ [i] ∧ a = v) := by
    intro r' σ a hσ ha
    rw [hlook r' σ hσ] at ha
    split at ha
    · next hc =>
        obtain ⟨rfl, rfl⟩ := hc
        obtain rfl := Option.some.inj ha
        exact ⟨e, he, hpage.symm, Or.inr ⟨rfl, rfl⟩⟩
    · exact ⟨a, ha, rfl, Or.inl rfl⟩
  have htree : tree D (s.setEntry (ptePage t) i v).mem r = tree D s.mem r := by
    ext q
    constructor
    · rintro ⟨σ, a, hσ, ha, rfl⟩
      obtain ⟨b, hb, hba, -⟩ := hsub r σ a hσ ha
      exact ⟨σ, b, hσ, hb, hba.symm⟩
    · rintro ⟨σ, a, hσ, ha, rfl⟩
      by_cases heq : σ = π ++ [i]
      · subst heq
        obtain rfl : e = a := Option.some.inj (he.symm.trans ha)
        exact ⟨_, v, hσ, by rw [hlook r _ hσ, if_pos ⟨rfl, rfl⟩], hpage.symm⟩
      · exact ⟨σ, a, hσ, by rw [hlook r σ hσ, if_neg (fun hc => heq hc.2), ha], rfl⟩
  refine ⟨⟨⟨h.pmm_setEntry hπ ht v, h.stop_le, ?_, h.root, ?_, ?_, h.kernel, h.held, ?_⟩,
    rfl, rfl, rfl, ?_, ?_⟩, hlook⟩
  · refine h.apart.of_key fun r' σ a hσ ha => ?_
    obtain ⟨b, hb, hba, -⟩ := hsub r' σ a hσ ha
    exact ⟨b, hb, hba⟩
  · intro r' σ a hσ hnil hlen ha
    obtain ⟨b, hb, -, rfl | ⟨rfl, rfl⟩⟩ := hsub r' σ a hσ ha
    · exact h.tables r' σ b hσ hnil hlen hb
    · simp only [List.length_append, List.length_singleton] at hlen
      exact htab (by omega)
  · intro r' σ a hσ hr ha
    obtain ⟨b, hb, hba, -⟩ := hsub r' σ a hσ ha
    rw [← hba]
    exact h.used r' σ b hσ hr hb
  · intro r' σ a hσ ha
    obtain ⟨b, hb, hba, -⟩ := hsub r' σ a hσ ha
    rw [← hba]
    exact h.held_apart r' σ b hσ hb
  · change freeSet s.pmm L ∪ tree D (s.setEntry (ptePage t) i v).mem r ∪ H = _
    rw [htree]
    rfl
  · intro w hw
    refine Function.update_of_ne ?_ _ _
    rintro rfl
    exact hw (h.writable_setEntry hπ ht)

end SetEntry

end VmmInv

end FiFi.Vmm
