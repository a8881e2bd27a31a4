import FiFi.Vmm.Pagemap

/-!
# Data pages

The pages of the forest are tables or frames. Mapping a page writes tables and
takes free pages for new tables. It does not write the frames that are mapped
already, nor the pages that are held.
-/

namespace FiFi.Vmm

open Pmm LinkedList RadixForest

/-- The free physical pages: the pages on the free list and those the cursor has
not reached. -/
def freePhys (s : PmmState) : Set Nat :=
  {p | ∃ L, Chain s.mem 0 s.freeList L ∧ p ∈ freeSet s L}

theorem freePhys_eq {s : PmmState} {L : List Nat} (h : PmmInv s L) :
    freePhys s = freeSet s L := by
  ext p
  constructor
  · rintro ⟨L', hchain, hp⟩
    rwa [chain_unique h.chain hchain]
  · exact fun hp => ⟨L, h.chain, hp⟩

theorem alignDown_page_add {p k : Nat} (hp : p % pageSize = 0) (hk : k < pageSize) :
    alignDown (p + k) = p := by
  simp only [alignDown, pageSize] at *
  omega

/-- A path in the lower half of a page map. -/
def LowerPath (π : List Nat) : Prop :=
  π.length ≤ 4 ∧ (∀ i ∈ π, i < 512) ∧ ∀ i ∈ π.head?, i < 256

theorem pos_iff_lowerPath {D : Domain} {r : Nat} (hr : r ∈ D.user) {π : List Nat} :
    Pos D r π ↔ LowerPath π := by
  constructor
  · rintro ⟨-, hlen, hlt, hhead⟩
    refine ⟨hlen, hlt, fun i hi => ?_⟩
    obtain ⟨-, ⟨-, hlow⟩ | ⟨rfl, -⟩⟩ := hhead i hi
    · exact hlow
    · exact absurd hr D.kernel_not_user
  · rintro ⟨hlen, hlt, hhead⟩
    exact ⟨Or.inl hr, hlen, hlt, fun i hi => ⟨by have := hhead i hi; omega, Or.inl ⟨hr, hhead i hi⟩⟩⟩

theorem lowerPath_vaPath {v : Nat} (hv : v < 2 ^ 47) : LowerPath (vaPath v) := by
  refine ⟨by simp [vaPath], ?_, ?_⟩
  · intro i hi
    simp only [vaPath, idxPml4, idxPdpt, idxPd, idxPt, List.mem_cons, List.not_mem_nil,
      or_false] at hi
    omega
  · intro i hi
    obtain rfl : idxPml4 v = i := by simpa [vaPath] using hi
    simp only [idxPml4]
    omega

/-- The number a path stands for, nine bits for each index. -/
def pathVal (π : List Nat) : Nat := π.foldl (fun a i => a * 512 + i) 0

theorem pathVal_snoc (π : List Nat) (i : Nat) : pathVal (π ++ [i]) = pathVal π * 512 + i := by
  simp [pathVal]

/-- A path of four indices is the path of the address made of it. -/
theorem vaPath_pathVal {π : List Nat} (hlen : π.length = 4) (hlt : ∀ i ∈ π, i < 512) :
    vaPath (pathVal π * 2 ^ 12) = π := by
  obtain ⟨a, b, c, d, rfl⟩ : ∃ a b c d, π = [a, b, c, d] := by
    match π, hlen with
    | [a, b, c, d], _ => exact ⟨a, b, c, d, rfl⟩
  have ha := hlt a (by simp)
  have hb := hlt b (by simp)
  have hc := hlt c (by simp)
  have hd := hlt d (by simp)
  simp only [pathVal, List.foldl_cons, List.foldl_nil, vaPath, idxPml4, idxPdpt, idxPd, idxPt,
    List.cons.injEq, and_true]
  omega

/-- The lower half of a page map is as before, with the contents of its tables
and frames. -/
structure Kept (s s' : VmmState) (root : Nat) : Prop where
  entries : ∀ π, LowerPath π → look s'.mem root π = look s.mem root π
  pages : ∀ π e, LowerPath π → look s.mem root π = some e →
    ∀ k < pageSize, s'.mem (ptePage e + k) = s.mem (ptePage e + k)

/-- A page map keeps what it has when none of its pages is written. -/
theorem kept_of_pages {D : Domain} {s s' : VmmState} {r : Nat} (hr : r ∈ D.user)
    (hpage : ∀ π e, Pos D r π → look s.mem r π = some e →
      ∀ k < pageSize, s'.mem (ptePage e + k) = s.mem (ptePage e + k)) : Kept s s' r := by
  refine ⟨fun π hπ => ?_, fun π e hπ => hpage π e ((pos_iff_lowerPath hr).2 hπ)⟩
  refine walk_congr (P := fun a π => a = r ∧ Pos D a π) ?_ ?_
    ⟨rfl, (pos_iff_lowerPath hr).2 hπ⟩
  · rintro a σ i ⟨rfl, hσ⟩
    exact ⟨rfl, hσ.init⟩
  · rintro a σ i e ⟨rfl, hσ⟩ he
    have hi := hσ.index_lt
    exact link_congr (hpage σ e hσ.init he (8 * i) (by simp only [pageSize]; omega))

theorem Kept.refl (s : VmmState) (r : Nat) : Kept s s r :=
  ⟨fun _ _ => rfl, fun _ _ _ _ _ _ => rfl⟩

theorem Kept.trans {s s' s'' : VmmState} {r : Nat} (h : Kept s s' r) (h' : Kept s' s'' r) :
    Kept s s'' r := by
  refine ⟨fun π hπ => (h'.entries π hπ).trans (h.entries π hπ), fun π e hπ he k hk => ?_⟩
  rw [h'.pages π e hπ ((h.entries π hπ).trans he) k hk, h.pages π e hπ he k hk]

/-- The frames that are mapped somewhere and the pages that are held. -/
def data (D : Domain) (mem : Nat → Nat) (H : Set Nat) : Set Nat :=
  H ∪ {p | ∃ r σ e, Pos D r σ ∧ σ.length = 4 ∧ look mem r σ = some e ∧ p = ptePage e}

/-- The words of the data pages of `s` are the same in `s'`. -/
def DataKept (D : Domain) (H : Set Nat) (s s' : VmmState) : Prop :=
  ∀ w, alignDown w ∈ data D s.mem H → s'.mem w = s.mem w

theorem SameLeaves.data {D : Domain} {H : Set Nat} {s s' : VmmState} (h : SameLeaves D s s') :
    data D s'.mem H = data D s.mem H := by
  ext p
  refine or_congr_right ⟨?_, ?_⟩
  · rintro ⟨r, σ, e, hσ, hlen, he, rfl⟩
    exact ⟨r, σ, e, hσ, hlen, (h r σ hσ hlen).symm.trans he, rfl⟩
  · rintro ⟨r, σ, e, hσ, hlen, he, rfl⟩
    exact ⟨r, σ, e, hσ, hlen, (h r σ hσ hlen).trans he, rfl⟩

theorem DataKept.refl {D : Domain} {H : Set Nat} (s : VmmState) : DataKept D H s s :=
  fun _ _ => rfl

theorem DataKept.trans {D : Domain} {H : Set Nat} {s s' s'' : VmmState} (h : DataKept D H s s')
    (hsame : SameLeaves D s s') (h' : DataKept D H s' s'') : DataKept D H s s'' := by
  intro w hw
  rw [h' w (by rwa [hsame.data]), h w hw]

namespace VmmInv

variable {D : Domain} {s : VmmState} {L : List Nat} {H : Set Nat} {r : Nat}

/-- Held pages may be forgotten. -/
theorem weaken (h : VmmInv D s L H) {H' : Set Nat} (hsub : H' ⊆ H) : VmmInv D s L H' :=
  ⟨h.pmm, h.stop_le, h.apart, h.root, h.tables, h.used, h.kernel, fun p hp => h.held p (hsub hp),
    fun r π e hπ he hp => h.held_apart r π e hπ he (hsub hp)⟩

/-- What another root has lies outside the region, so it is not written. -/
theorem pages_of_frame (h : VmmInv D s L H) {s' : VmmState} {r' : Nat}
    (hframe : ∀ w, alignDown w ∉ Vmm.region D s L H r → s'.mem w = s.mem w) (hne : r' ≠ r)
    {π : List Nat} {e : Nat} (hπ : Pos D r' π) (he : look s.mem r' π = some e) {k : Nat}
    (hk : k < pageSize) : s'.mem (ptePage e + k) = s.mem (ptePage e + k) := by
  refine hframe _ ?_
  rw [alignDown_page_add (ptePage_mod e) hk]
  exact h.not_mem_region hne hπ he

theorem look_of_frame (h : VmmInv D s L H) {s' : VmmState} {r' : Nat}
    (hframe : ∀ w, alignDown w ∉ Vmm.region D s L H r → s'.mem w = s.mem w) (hne : r' ≠ r)
    {π : List Nat} (hπ : Pos D r' π) : look s'.mem r' π = look s.mem r' π := by
  refine walk_congr (P := fun a σ => a = r' ∧ Pos D a σ) ?_ ?_ ⟨rfl, hπ⟩
  · rintro a σ i ⟨rfl, hσ⟩
    exact ⟨rfl, hσ.init⟩
  · rintro a σ i e ⟨rfl, hσ⟩ he
    have hi := hσ.index_lt
    exact link_congr (h.pages_of_frame hframe hne hσ.init he (by simp only [pageSize]; omega))

theorem entry_of_frame (h : VmmInv D s L H) {s' : VmmState} {r' i : Nat}
    (hframe : ∀ w, alignDown w ∉ Vmm.region D s L H r → s'.mem w = s.mem w) (hne : r' ≠ r)
    (hr' : r' ∈ D.user ∨ r' = D.kernel) (hi : i < 512) :
    entry s'.mem r' i = entry s.mem r' i := by
  have hpage := h.pages_of_frame hframe hne (pos_nil hr') (look_nil s.mem r')
    (k := 8 * i) (by simp only [pageSize]; omega)
  rwa [h.root r' hr'] at hpage

/-- Free pages are below the end of physical memory. -/
theorem lt_of_free (h : VmmInv D s L H) {p : Nat} (hp : p ∈ freeSet s.pmm L) : p < 2 ^ 52 := by
  have hend := h.pmm.lt_of_mem_freeSet hp
  have hstop := h.stop_le
  simp only [pageSize] at *
  omega

theorem data_not_free (h : VmmInv D s L H) {p : Nat} (hp : p ∈ data D s.mem H) :
    p ∉ freeSet s.pmm L := by
  rcases hp with hp | ⟨r, σ, e, hσ, -, he, rfl⟩
  · exact (h.held p hp).2.2.2
  · exact h.not_free hσ he

/-- A table is not a data page. -/
theorem table_not_data (h : VmmInv D s L H) {π : List Nat} {t : Nat} (hπ : Pos D r π)
    (hlen : π.length < 4) (ht : look s.mem r π = some t) : ptePage t ∉ data D s.mem H := by
  rintro (hp | ⟨r', σ, e, hσ, hfour, he, hp⟩)
  · exact h.held_apart r π t hπ ht hp
  · obtain ⟨-, rfl⟩ := h.apart r π r' σ t e hπ hσ ht he hp
    omega

theorem setEntry_dataKept (h : VmmInv D s L H) {π : List Nat} {t i : Nat}
    (hπ : Pos D r (π ++ [i])) (ht : look s.mem r π = some t) (v : Nat) :
    DataKept D H s (s.setEntry (ptePage t) i v) := by
  intro w hw
  refine Function.update_of_ne ?_ _ _
  rintro rfl
  rw [alignDown_entry (ptePage_mod t) hπ.index_lt] at hw
  exact h.table_not_data hπ.init hπ.length_lt ht hw

theorem ensureTable_dataKept (h : VmmInv D s L H) {t i : Nat} {π : List Nat}
    (hπ : Pos D r (π ++ [i])) (ht : look s.mem r π = some t) (user : Bool) :
    DataKept D H s (Vmm.ensureTable s (ptePage t) i user).2 := by
  unfold Vmm.ensureTable
  dsimp only
  split
  · cases user with
    | false => exact DataKept.refl s
    | true => exact h.setEntry_dataKept hπ ht _
  · rcases h.alloc r with ⟨heq, -⟩ | ⟨hne, hin, hmem, -⟩
    · rw [heq, if_pos rfl]
      exact DataKept.refl s
    · rw [if_neg hne]
      intro w hw
      have hkept := h.setEntry_dataKept hπ ht (newTableEntry (allocPage s).1 user) w hw
      have hnew : alignDown w ≠ (allocPage s).1 := fun heq => h.data_not_free hw (heq ▸ hin)
      have hzero : zeroPage (allocPage s).2.mem (allocPage s).1 w = s.mem w := by
        rw [alignDown_zeroPage _ (h.pmm.mod_of_mem_freeSet hin) hnew, hmem]
      rw [setEntry_mem, Function.update_apply] at hkept ⊢
      split
      · next heq => rwa [if_pos heq] at hkept
      · exact hzero

/-- `vmm_map_page_into` writes no data page. -/
theorem mapPageInto_dataKept (h : VmmInv D s L H) (hr : r ∈ D.user ∨ r = D.kernel) {virt : Nat}
    (hv : idxPml4 virt ∈ D.slotsOf r) (phys flags : Nat) :
    DataKept D H s (vmmMapPageInto s r virt phys flags).2 := by
  refine h.mapPageInto_induct hr hv phys flags (DataKept.refl s) ?_ ?_
  · intro s' L' t i π h' hπ _ ht hsame hkept
    exact hkept.trans hsame (h'.ensureTable_dataKept hπ ht _)
  · intro s' L' t h' hpos ht hsame hkept
    exact hkept.trans hsame (h'.setEntry_dataKept hpos ht _)

end VmmInv

/-! ### Unmapping writes no other frame -/

theorem freePage_mem_of_ne {s : VmmState} {p w : Nat} (hw : alignDown w ≠ alignDown p) :
    (freePage s p).mem w = s.mem w := by
  have hne : w ≠ alignDown p := by
    rintro rfl
    exact hw (alignDown_of_mod (alignDown_mod p))
  simp only [freePage, pmmFreePage, VmmState.mem]
  split_ifs
  all_goals first
    | rfl
    | exact Function.update_of_ne hne _ _

/-- `vmm_unmap_page` writes the tables on the way to the page and nothing else. -/
theorem unmapPageIn_mem {s : VmmState} {root virt w : Nat}
    (hroot : alignDown w ≠ alignDown (root + 8 * idxPml4 (alignDown virt)))
    (htables : ∀ t ∈ [entry s.mem root (idxPml4 (alignDown virt)),
      entry s.mem (ptePage (entry s.mem root (idxPml4 (alignDown virt)))) (idxPdpt (alignDown virt)),
      entry s.mem (ptePage (entry s.mem (ptePage (entry s.mem root (idxPml4 (alignDown virt))))
        (idxPdpt (alignDown virt)))) (idxPd (alignDown virt))], alignDown w ≠ ptePage t) :
    (unmapPageIn s root virt).2.mem w = s.mem w := by
  have hset : ∀ (s : VmmState) t i e, i < 512 → alignDown w ≠ ptePage t →
      (s.setEntry (ptePage t) i e).mem w = s.mem w := by
    intro s t i e hi ht
    refine Function.update_of_ne ?_ _ _
    rintro rfl
    exact ht (alignDown_entry (ptePage_mod t) hi)
  have hfree : ∀ (s : VmmState) t, alignDown w ≠ ptePage t →
      (freePage s (ptePage t)).mem w = s.mem w := by
    intro s t ht
    refine freePage_mem_of_ne ?_
    rwa [alignDown_of_mod (ptePage_mod t)]
  have hrootset : ∀ (s : VmmState) e,
      (s.setEntry root (idxPml4 (alignDown virt)) e).mem w = s.mem w := by
    intro s e
    refine Function.update_of_ne ?_ _ _
    rintro rfl
    exact hroot rfl
  have hi2 : idxPdpt (alignDown virt) < 512 := Nat.mod_lt _ (by decide)
  have hi3 : idxPd (alignDown virt) < 512 := Nat.mod_lt _ (by decide)
  have hi4 : idxPt (alignDown virt) < 512 := Nat.mod_lt _ (by decide)
  simp only [List.mem_cons, List.not_mem_nil, or_false, forall_eq_or_imp, forall_eq] at htables
  obtain ⟨ht1, ht2, ht3⟩ := htables
  simp only [unmapPageIn]
  split_ifs
  all_goals simp only [hset _ _ _ _ hi4 ht3, hset _ _ _ _ hi3 ht2, hset _ _ _ _ hi2 ht1, hrootset,
    hfree _ _ ht3, hfree _ _ ht2, hfree _ _ ht1]

namespace VmmInv

variable {D : Domain} {s : VmmState} {L : List Nat} {H : Set Nat} {r : Nat}

/-- `vmm_unmap_page_and_free` leaves the frames of all other pages alone. -/
theorem unmapPageAndFreeIn_frames (h : VmmInv D s L H) (hr : r ∈ D.user ∨ r = D.kernel)
    (virt : Nat) (hv : idxPml4 (alignDown virt) ∈ D.slotsOf r) {r' : Nat} {σ : List Nat} {e : Nat}
    (hσ : Pos D r' σ) (hfour : σ.length = 4) (hne : r' = r → σ ≠ vaPath (alignDown virt))
    (he : look s.mem r' σ = some e) {w : Nat} (hw : alignDown w = ptePage e) :
    (Vmm.unmapPageAndFreeIn s r virt).2.mem w = s.mem w := by
  have haa : alignDown (alignDown virt) = alignDown virt := alignDown_of_mod (alignDown_mod virt)
  have htr := h.translateIn hr hv
  unfold Vmm.unmapPageAndFreeIn
  simp only [htr]
  cases hleaf : look s.mem r (vaPath (alignDown virt)) with
  | none => rfl
  | some a =>
      have hpos := pos_vaPath hr hv
      have hapage : ∀ (t : Nat) (π : List Nat), Pos D r π → look s.mem r π = some t →
          (r' = r → σ ≠ π) → alignDown w ≠ ptePage t := by
        intro t π hπ ht hdiff heq
        obtain ⟨hrr, hσπ⟩ := h.apart r' σ r π e t hσ hπ he ht (hw.symm.trans heq)
        exact hdiff hrr hσπ
      -- the four tables on the way are at shorter positions
      have h3 : Pos D r ([idxPml4 (alignDown virt)] ++ [idxPdpt (alignDown virt)] ++
          [idxPd (alignDown virt)]) := Pos.init (i := idxPt (alignDown virt)) hpos
      have h2 := h3.init
      have h1 : Pos D r ([] ++ [idxPml4 (alignDown virt)]) := h2.init
      change look s.mem r ([idxPml4 (alignDown virt)] ++ [idxPdpt (alignDown virt)] ++
        [idxPd (alignDown virt)] ++ [idxPt (alignDown virt)]) = some a at hleaf
      obtain ⟨e3, hl3, -⟩ := Option.bind_eq_some_iff.1 ((look_snoc _ _ _ _).symm.trans hleaf)
      obtain ⟨e2, hl2, he3⟩ := Option.bind_eq_some_iff.1 ((look_snoc _ _ _ _).symm.trans hl3)
      obtain ⟨e1, hl1, he2⟩ := Option.bind_eq_some_iff.1 ((look_snoc _ _ _ _).symm.trans hl2)
      have he1 : link s.mem r (idxPml4 (alignDown virt)) = some e1 := by
        have hstep := look_snoc s.mem r [] (idxPml4 (alignDown virt))
        rw [look_nil, Option.bind_some, h.root r hr] at hstep
        exact hstep.symm.trans hl1
      have hlens : ∀ π : List Nat, π.length ≤ 3 → r' = r → σ ≠ π := by
        rintro π hlen - rfl
        omega
      have hmem : (unmapPageIn s r (alignDown virt)).2.mem w = s.mem w := by
        refine unmapPageIn_mem ?_ ?_
        · rw [haa]
          have hroot := hapage r [] (pos_nil hr) rfl (hlens [] (by simp))
          have hmod : r % pageSize = 0 := by
            rw [← h.root r hr]
            exact ptePage_mod r
          have hidx : idxPml4 (alignDown virt) < 512 := Nat.mod_lt _ (by decide)
          rw [alignDown_entry hmod hidx]
          rwa [h.root r hr] at hroot
        · rw [haa, (link_some.1 he1).2, (link_some.1 he2).2, (link_some.1 he3).2]
          intro t ht
          simp only [List.mem_cons, List.not_mem_nil, or_false] at ht
          rcases ht with rfl | rfl | rfl
          · exact hapage t _ h1 hl1 (hlens _ (by simp))
          · exact hapage t _ h2 hl2 (hlens _ (by simp))
          · exact hapage t _ h3 hl3 (hlens _ (by simp))
      split_ifs
      · rfl
      · exact hmem
      · rw [← hmem]
        refine freePage_mem_of_ne ?_
        have hoff : alignDown virt % pageSize = 0 := alignDown_mod virt
        have hfree : alignDown w ≠ ptePage a := hapage a _ hpos hleaf hne
        rw [alignDown_of_mod (ptePage_mod _)]
        simpa [hoff, ptePage_of_page (ptePage_mod a) (ptePage_lt a)] using hfree

end VmmInv

end FiFi.Vmm
