import FiFi.Vmm.Steps

/-!
# Mapping and unmapping one page

The specifications of `ensure_table`, `vmm_map_page_into`, `vmm_translate`,
`vmm_unmap_page` and `vmm_unmap_page_and_free` for a page map of the forest.
Each operation is a `Change` of its page map. It alters the entry of the page it
is called for and leaves the entries of all other pages alone, in this page map
and in every other one.
-/

namespace FiFi.Vmm

open Pmm LinkedList RadixForest

/-! ### Flags -/

/-- A page with flags in the low bits, written with a bitwise or. -/
theorem page_or {p f : Nat} (hp : p % pageSize = 0) (hf : f < 4096) : p ||| f = p + f := by
  have hshift : p = (p / pageSize) <<< 12 := by
    rw [Nat.shiftLeft_eq]
    simp only [pageSize] at *
    omega
  rw [hshift]
  exact (Nat.shiftLeft_add_eq_or_of_lt (by simpa using hf) _).symm

theorem TableEntry.alignDown {e : Nat} (h : TableEntry e) : alignDown e = ptePage e := by
  have hmod := ptePage_mod e
  simp only [TableEntry, Pmm.alignDown, pageSize] at *
  omega

theorem TableEntry.present {e : Nat} (h : TableEntry e) : present e := by
  have hmod := ptePage_mod e
  simp only [TableEntry, Vmm.present, pageSize, decide_eq_true_eq] at *
  omega

theorem tableEntry_new {p : Nat} (hmod : p % pageSize = 0) (hlt : p < 2 ^ 52) (user : Bool) :
    TableEntry (newTableEntry p user) ∧ ptePage (newTableEntry p user) = p := by
  have hval : newTableEntry p user = p + if user then 7 else 3 := by
    rw [newTableEntry, alignDown_of_mod hmod, Nat.or_assoc, Nat.or_assoc]
    cases user
    · exact page_or hmod (by decide)
    · exact page_or hmod (by decide)
  have hpage : ptePage (p + if user then 7 else 3) = p := by
    simp only [ptePage, pageSize] at *
    split <;> omega
  rw [hval, TableEntry, hpage]
  refine ⟨?_, rfl⟩
  cases user
  · exact Or.inl rfl
  · exact Or.inr rfl

theorem TableEntry.or_us {e : Nat} (h : TableEntry e) :
    TableEntry (e ||| pteUs) ∧ ptePage (e ||| pteUs) = ptePage e := by
  have hmod := ptePage_mod e
  have hval : e ||| pteUs = ptePage e + 7 := by
    rcases h with h | h
    · rw [h, ← page_or hmod (by decide), Nat.or_assoc, page_or hmod (by decide)]
      rw [page_or hmod (by decide), ← h]
      rfl
    · rw [h, ← page_or hmod (by decide), Nat.or_assoc, page_or hmod (by decide)]
      rw [page_or hmod (by decide), ← h]
      rfl
  have hpage : ptePage (ptePage e + 7) = ptePage e := by
    have hlt := ptePage_lt e
    generalize ptePage e = q at *
    simp only [ptePage, pageSize] at *
    omega
  rw [hval, TableEntry, hpage]
  exact ⟨Or.inr rfl, rfl⟩

theorem makePteFlags_spec (flags : Nat) :
    makePteFlags flags % 2 = 1 ∧ makePteFlags flags / pageSize % 2 ^ 40 = 0 := by
  unfold makePteFlags
  split_ifs <;> decide

/-- The entry of a frame. -/
theorem leaf_spec (phys flags : Nat) :
    present (ptePage phys ||| makePteFlags flags) ∧
      ptePage (ptePage phys ||| makePteFlags flags) = ptePage phys := by
  obtain ⟨hodd, hhigh⟩ := makePteFlags_spec flags
  have hmod := ptePage_mod phys
  have hlt := ptePage_lt phys
  generalize ptePage phys = p at *
  constructor
  · have h1 : (p ||| makePteFlags flags) % 2 = 1 := by
      have := Nat.or_mod_two_pow (a := p) (b := makePteFlags flags) (n := 1)
      rw [pow_one, hodd] at this
      rw [this]
      have hp : p % 2 = 0 := by
        simp only [pageSize] at hmod
        omega
      rw [hp]
      rfl
    simp [present, h1]
  · have hdiv : (p ||| makePteFlags flags) / 4096 = p / 4096 ||| makePteFlags flags / 4096 :=
      Nat.or_div_two_pow (n := 12)
    have hm := Nat.or_mod_two_pow (a := p / 4096) (b := makePteFlags flags / 4096) (n := 40)
    simp only [pageSize] at hhigh hmod
    rw [hhigh, Nat.or_zero] at hm
    simp only [ptePage, pageSize]
    rw [hdiv, hm]
    omega

/-! ### Paths of addresses -/

/-- The position of the page of an address. -/
def vaPath (v : Nat) : List Nat := [idxPml4 v, idxPdpt v, idxPd v, idxPt v]

theorem vaPath_inj {v v' : Nat} (h : vaPath v = vaPath v') :
    v / pageSize % 2 ^ 36 = v' / pageSize % 2 ^ 36 := by
  simp only [vaPath, List.cons.injEq, and_true, idxPml4, idxPdpt, idxPd, idxPt] at h
  simp only [pageSize]
  omega

theorem vaPath_congr {v v' : Nat} (h : v / pageSize % 2 ^ 36 = v' / pageSize % 2 ^ 36) :
    vaPath v = vaPath v' := by
  simp only [vaPath, List.cons.injEq, and_true, idxPml4, idxPdpt, idxPd, idxPt]
  simp only [pageSize] at h
  omega

theorem pos_vaPath {D : Domain} {r v : Nat} (hr : r ∈ D.user ∨ r = D.kernel)
    (hv : idxPml4 v ∈ D.slotsOf r) : Pos D r (vaPath v) := by
  refine ⟨hr, by simp [vaPath], ?_, ?_⟩
  · intro i hi
    simp only [vaPath, List.mem_cons, List.not_mem_nil, or_false] at hi
    rcases hi with rfl | rfl | rfl | rfl
    · exact Nat.mod_lt _ (by decide)
    · exact Nat.mod_lt _ (by decide)
    · exact Nat.mod_lt _ (by decide)
    · exact Nat.mod_lt _ (by decide)
  · intro i hi
    obtain rfl : idxPml4 v = i := by simpa [vaPath] using hi
    exact hv

/-- The page at a position, if there is one. -/
def frameAt (mem : Nat → Nat) (r : Nat) (ρ : List Nat) : Set Nat :=
  {p | ∃ e, look mem r ρ = some e ∧ p = ptePage e}

theorem frameAt_none {mem : Nat → Nat} {r : Nat} {ρ : List Nat} (h : look mem r ρ = none) :
    frameAt mem r ρ = ∅ := by
  ext q
  simp [frameAt, h]

theorem frameAt_some {mem : Nat → Nat} {r e : Nat} {ρ : List Nat} (h : look mem r ρ = some e) :
    frameAt mem r ρ = {ptePage e} := by
  ext q
  simp [frameAt, h]

/-- The entries of frames are as before, except the one at `ρ`. -/
def LeafLaw (D : Domain) (r : Nat) (ρ : List Nat) (o : Option Nat) (s s' : VmmState) : Prop :=
  ∀ r' σ, Pos D r' σ → σ.length = 4 →
    look s'.mem r' σ = if r' = r ∧ σ = ρ then o else look s.mem r' σ

/-- The entries of all frames are as before. -/
def SameLeaves (D : Domain) (s s' : VmmState) : Prop :=
  ∀ r' σ, Pos D r' σ → σ.length = 4 → look s'.mem r' σ = look s.mem r' σ

theorem SameLeaves.trans {D : Domain} {s s' s'' : VmmState} (h : SameLeaves D s s')
    (h' : SameLeaves D s' s'') : SameLeaves D s s'' :=
  fun r' σ hσ hlen => (h' r' σ hσ hlen).trans (h r' σ hσ hlen)

theorem SameLeaves.law {D : Domain} {r : Nat} {ρ : List Nat} {o : Option Nat}
    {s s' s'' : VmmState} (h : SameLeaves D s s') (h' : LeafLaw D r ρ o s' s'') :
    LeafLaw D r ρ o s s'' := by
  intro r' σ hσ hlen
  rw [h' r' σ hσ hlen, h r' σ hσ hlen]

theorem LeafLaw.same {D : Domain} {r : Nat} {ρ : List Nat} {o : Option Nat}
    {s s' s'' : VmmState} (h : LeafLaw D r ρ o s s') (h' : SameLeaves D s' s'') :
    LeafLaw D r ρ o s s'' := by
  intro r' σ hσ hlen
  rw [h' r' σ hσ hlen, h r' σ hσ hlen]

/-- Every entry of `s'` was there in `s`. -/
def Shrinks (D : Domain) (s s' : VmmState) : Prop :=
  ∀ r' σ e, Pos D r' σ → look s'.mem r' σ = some e → look s.mem r' σ = some e

theorem Shrinks.refl (D : Domain) (s : VmmState) : Shrinks D s s := fun _ _ _ _ he => he

theorem Shrinks.trans {D : Domain} {s s' s'' : VmmState} (h : Shrinks D s s')
    (h' : Shrinks D s' s'') : Shrinks D s s'' :=
  fun r' σ e hσ he => h r' σ e hσ (h' r' σ e hσ he)

theorem shrinks_of_clear {D : Domain} {r : Nat} {π : List Nat} {s s' : VmmState}
    (hlook : ∀ r' σ, Pos D r' σ → look s'.mem r' σ =
      if r' = r ∧ σ = π then none else look s.mem r' σ) : Shrinks D s s' := by
  intro r' σ e hσ he
  rw [hlook r' σ hσ] at he
  split at he
  · simp at he
  · exact he

namespace VmmInv

variable {D : Domain} {s : VmmState} {L : List Nat} {H : Set Nat} {r : Nat}

/-! ### Mapping -/

theorem alignDown_zeroPage (mem : Nat → Nat) {p w : Nat} (hmod : p % pageSize = 0)
    (hw : alignDown w ≠ p) : zeroPage mem p w = mem w := by
  refine if_neg fun hin => hw ?_
  simp only [alignDown, pageSize] at *
  omega

theorem entry_zeroPage {mem : Nat → Nat} {p j : Nat} (hj : j < 512) :
    entry (zeroPage mem p) p j = 0 := by
  refine if_pos ?_
  simp only [pageSize]
  omega

/-- Taking a page and linking it as an empty table. -/
theorem newTable (h : VmmInv D s L H) {t i : Nat} {π : List Nat} (hπ : Pos D r (π ++ [i]))
    (ht : look s.mem r π = some t) (he : look s.mem r (π ++ [i]) = none)
    (user : Bool) (hne : (allocPage s).1 ≠ 0) :
    ∃ L', Change D r s L H
        (((allocPage s).2.withMem (zeroPage (allocPage s).2.mem (allocPage s).1)).setEntry
          (ptePage t) i (newTableEntry (allocPage s).1 user)) L' H ∧
      ∀ r' σ, Pos D r' σ → look
          (((allocPage s).2.withMem (zeroPage (allocPage s).2.mem (allocPage s).1)).setEntry
            (ptePage t) i (newTableEntry (allocPage s).1 user)).mem r' σ =
        if r' = r ∧ σ = π ++ [i] then some (newTableEntry (allocPage s).1 user)
        else look s.mem r' σ := by
  rcases h.alloc r with ⟨heq, -⟩ | ⟨-, hin, hmem, L', hc, -⟩
  · rw [heq] at hne
    exact absurd rfl hne
  · set p := (allocPage s).1
    set s1 := (allocPage s).2
    have hmod : p % pageSize = 0 := h.pmm.mod_of_mem_freeSet hin
    have hlt : p < 2 ^ 52 := by
      have hend := h.pmm.lt_of_mem_freeSet hin
      have hstop := h.stop_le
      simp only [pageSize] at *
      omega
    have hpH : p ∉ H := fun hp => (h.held p hp).2.2.2 hin
    obtain ⟨htab, hpage⟩ := tableEntry_new hmod hlt user
    obtain ⟨hc2, hlook2⟩ := hc.inv.write hπ.1 (Set.mem_insert p H)
      (fun w hw => alignDown_zeroPage s1.mem hmod hw)
    have hlook12 : ∀ r' σ, Pos D r' σ →
        look (zeroPage s1.mem p) r' σ = look s.mem r' σ := by
      intro r' σ hσ
      rw [hlook2 r' σ hσ, hmem]
    obtain ⟨hc3, hlook3⟩ := hc2.inv.attach hπ ((hlook12 r π hπ.init).trans ht)
      ((hlook12 r _ hπ).trans he) htab.present (by rw [hpage]; exact Set.mem_insert p H)
      (fun _ => ⟨htab, fun j hj => by
        rw [hpage, withMem_mem, entry_zeroPage hj]
        decide⟩)
    refine ⟨L', ?_, ?_⟩
    · rw [hpage, Set.insert_sdiff_self_of_notMem hpH] at hc3
      exact hc.trans (hc2.trans hc3)
    · intro r' σ hσ
      rw [hlook3 r' σ hσ, withMem_mem, hlook12 r' σ hσ]

/-- `ensure_table`: it fails only when no page is free, and otherwise there is a
table in the slot. -/
theorem ensureTable (h : VmmInv D s L H) {t i : Nat} {π : List Nat} (hπ : Pos D r (π ++ [i]))
    (hlen : π.length < 3) (ht : look s.mem r π = some t) (user : Bool) :
    (Vmm.ensureTable s (ptePage t) i user = (none, s) ∧ freeSet s.pmm L = ∅) ∨
      ∃ e s' L', Vmm.ensureTable s (ptePage t) i user = (some (ptePage e), s') ∧
        Change D r s L H s' L' H ∧ look s'.mem r (π ++ [i]) = some e ∧ SameLeaves D s s' := by
  have hslot : look s.mem r (π ++ [i]) = link s.mem (ptePage t) i := by
    rw [look_snoc, ht]
    rfl
  have hsame : ∀ (s' : VmmState) (v : Nat), (∀ r' σ, Pos D r' σ → look s'.mem r' σ =
      if r' = r ∧ σ = π ++ [i] then some v else look s.mem r' σ) → SameLeaves D s s' := by
    intro s' v hlook r' σ hσ hfour
    rw [hlook r' σ hσ, if_neg]
    rintro ⟨-, rfl⟩
    simp only [List.length_append, List.length_singleton] at hfour
    omega
  unfold Vmm.ensureTable
  by_cases hp : present (entry s.mem (ptePage t) i)
  · right
    have he : look s.mem r (π ++ [i]) = some (entry s.mem (ptePage t) i) := by
      rw [hslot]
      exact link_some.2 ⟨hp, rfl⟩
    have htab := h.tables r _ _ hπ (by simp) (by simp; omega) he
    simp only [hp, if_true, htab.alignDown]
    cases user with
    | false => exact ⟨_, s, L, rfl, Change.refl h, he, fun _ _ _ _ => rfl⟩
    | true =>
        obtain ⟨htab', hpage⟩ := htab.or_us
        obtain ⟨hc, hlook⟩ := h.reflag hπ ht he htab'.present hpage fun _ => htab'
        refine ⟨entry s.mem (ptePage t) i ||| pteUs, _, L, ?_, hc, ?_, hsame _ _ hlook⟩
        · rw [hpage]
          rfl
        · rw [hlook r _ hπ, if_pos ⟨rfl, rfl⟩]
  · have he : look s.mem r (π ++ [i]) = none := by
      rw [hslot]
      exact link_none.2 hp
    simp only [hp]
    by_cases hne : (allocPage s).1 = 0
    · left
      rcases h.alloc r with ⟨heq, hempty⟩ | ⟨hne', -⟩
      · exact ⟨by simp [heq], hempty⟩
      · exact absurd hne hne'
    · right
      obtain ⟨L', hc, hlook⟩ := h.newTable hπ ht he user hne
      have hin : (allocPage s).1 ∈ freeSet s.pmm L := by
        rcases h.alloc r with ⟨heq, -⟩ | ⟨-, hin, -⟩
        · rw [heq] at hne
          exact absurd rfl hne
        · exact hin
      have hmod := h.pmm.mod_of_mem_freeSet hin
      have hlt : (allocPage s).1 < 2 ^ 52 := by
        have hend := h.pmm.lt_of_mem_freeSet hin
        have hstop := h.stop_le
        simp only [pageSize] at *
        omega
      obtain ⟨-, hpage⟩ := tableEntry_new hmod hlt user
      refine ⟨newTableEntry (allocPage s).1 user, _, L', ?_, hc, ?_, hsame _ _ hlook⟩
      · rw [hpage, if_neg hne]
        rfl
      · rw [hlook r _ hπ, if_pos ⟨rfl, rfl⟩]

/-- Writing the entry of a frame. The frame that was there before is held
afterwards. -/
theorem setLeaf (h : VmmInv D s L H) {t i : Nat} {π : List Nat} (hπ : Pos D r (π ++ [i]))
    (hthree : π.length = 3) (ht : look s.mem r π = some t) {v : Nat} (hv : present v)
    (hp : ptePage v ∈ H) :
    Change D r s L H (s.setEntry (ptePage t) i v) L
        (H \ {ptePage v} ∪ frameAt s.mem r (π ++ [i])) ∧
      ∀ r' σ, Pos D r' σ → look (s.setEntry (ptePage t) i v).mem r' σ =
        if r' = r ∧ σ = π ++ [i] then some v else look s.mem r' σ := by
  cases he : look s.mem r (π ++ [i]) with
  | none =>
      rw [frameAt_none he, Set.union_empty]
      exact h.attach hπ ht he hv hp (by omega)
  | some e =>
      have hvoid : ∀ j, Pos D r (π ++ [i] ++ [j]) → look s.mem r (π ++ [i] ++ [j]) = none := by
        intro j hj
        have := hj.length_lt
        simp only [List.length_append, List.length_singleton] at this
        omega
      obtain ⟨hc, hlook⟩ := h.detach hπ ht he hvoid (v := 0) (by decide)
      have ht' : look (s.setEntry (ptePage t) i 0).mem r π = some t := by
        rw [hlook r π hπ.init, if_neg (by simp), ht]
      have he' : look (s.setEntry (ptePage t) i 0).mem r (π ++ [i]) = none := by
        rw [hlook r _ hπ, if_pos ⟨rfl, rfl⟩]
      obtain ⟨hc', hlook'⟩ := hc.inv.attach hπ ht' he' hv (Set.mem_insert_of_mem _ hp) (by omega)
      have hset : (s.setEntry (ptePage t) i 0).setEntry (ptePage t) i v =
          s.setEntry (ptePage t) i v := by
        simp [VmmState.setEntry, VmmState.withMem, VmmState.mem]
      have hne : ptePage v ≠ ptePage e := (h.held_ne hp hπ he).symm
      rw [hset] at hc' hlook'
      refine ⟨?_, fun r' σ hσ => ?_⟩
      · have hH : insert (ptePage e) H \ {ptePage v} =
            H \ {ptePage v} ∪ frameAt s.mem r (π ++ [i]) := by
          rw [frameAt_some he, Set.insert_sdiff_of_notMem _ (by simpa using hne.symm),
              Set.union_singleton]
        rw [← hH]
        exact hc.trans hc'
      · rw [hlook' r' σ hσ, hlook r' σ hσ]
        split <;> rfl

/-- `vmm_map_page_into` with a page that is held. On failure only tables were
added. -/
theorem mapPageInto (h : VmmInv D s L H) (hr : r ∈ D.user ∨ r = D.kernel) {virt : Nat}
    (hv : idxPml4 virt ∈ D.slotsOf r) {phys : Nat} (hp : phys ∈ H) (flags : Nat) :
    (∃ s' L', vmmMapPageInto s r virt phys flags = (false, s') ∧ Change D r s L H s' L' H ∧
        SameLeaves D s s' ∧ freeSet s'.pmm L' = ∅) ∨
      ∃ s' L', vmmMapPageInto s r virt phys flags = (true, s') ∧
        Change D r s L H s' L' (H \ {phys} ∪ frameAt s.mem r (vaPath virt)) ∧
        LeafLaw D r (vaPath virt) (some (phys ||| makePteFlags flags)) s s' := by
  have hpos := pos_vaPath hr hv
  have h3 : Pos D r ([idxPml4 virt] ++ [idxPdpt virt] ++ [idxPd virt]) :=
    Pos.init (i := idxPt virt) hpos
  have h2 : Pos D r ([idxPml4 virt] ++ [idxPdpt virt]) := h3.init
  have h1 : Pos D r ([] ++ [idxPml4 virt]) := h2.init
  have hroot := h.root r hr
  have hphys : ptePage phys = phys := by
    obtain ⟨hmod, -, hend, -⟩ := h.held phys hp
    have hstop := h.stop_le
    refine ptePage_of_page hmod ?_
    simp only [pageSize] at *
    omega
  unfold vmmMapPageInto
  generalize (decide (flags &&& vmmUser ≠ 0)) = user
  have hE1 := h.ensureTable h1 (by simp) rfl user
  rw [hroot] at hE1
  rcases hE1 with ⟨heq, hempty⟩ | ⟨e1, s1, L1, heq1, hc1, hl1, hsame1⟩
  · exact Or.inl ⟨s, L, by simp only [heq], Change.refl h, fun _ _ _ _ => rfl, hempty⟩
  · simp only [heq1]
    rcases hc1.inv.ensureTable h2 (by simp) hl1 user with
      ⟨heq, hempty⟩ | ⟨e2, s2, L2, heq2, hc2, hl2, hsame2⟩
    · exact Or.inl ⟨s1, L1, by simp only [heq], hc1, hsame1, hempty⟩
    · simp only [heq2]
      rcases hc2.inv.ensureTable h3 (by simp) hl2 user with
        ⟨heq, hempty⟩ | ⟨e3, s3, L3, heq3, hc3, hl3, hsame3⟩
      · exact Or.inl ⟨s2, L2, by simp only [heq], hc1.trans hc2, hsame1.trans hsame2, hempty⟩
      · simp only [heq3]
        obtain ⟨hpres, hpage⟩ := leaf_spec phys flags
        rw [hphys] at hpres hpage
        have hsame := hsame1.trans (hsame2.trans hsame3)
        obtain ⟨hc4, hlook⟩ := hc3.inv.setLeaf (i := idxPt virt) hpos (by simp) hl3 hpres
          (by rwa [hpage])
        rw [hpage] at hc4
        have hframe : frameAt s3.mem r (vaPath virt) = frameAt s.mem r (vaPath virt) := by
          simp only [frameAt, hsame r _ hpos rfl]
        change Change D r s3 L3 H _ L3 (H \ {phys} ∪ frameAt s3.mem r (vaPath virt)) at hc4
        rw [hframe] at hc4
        refine Or.inr ⟨_, L3, by rw [hphys], hc1.trans (hc2.trans (hc3.trans hc4)), ?_⟩
        refine hsame.law fun r' σ hσ _ => ?_
        exact hlook r' σ hσ

/-- What the steps of `vmm_map_page_into` keep, the whole keeps: up to three
calls of `ensure_table` and, when all of them succeed, the store of the entry. -/
theorem mapPageInto_induct (h : VmmInv D s L H) (hr : r ∈ D.user ∨ r = D.kernel) {virt : Nat}
    (hv : idxPml4 virt ∈ D.slotsOf r) (phys flags : Nat) {P : VmmState → Prop} (hs : P s)
    (htable : ∀ s' L' t i π, VmmInv D s' L' H → Pos D r (π ++ [i]) → π.length < 3 →
      look s'.mem r π = some t → SameLeaves D s s' → P s' →
      P (Vmm.ensureTable s' (ptePage t) i (flags &&& vmmUser ≠ 0)).2)
    (hleaf : ∀ s' L' t, VmmInv D s' L' H →
      Pos D r ([idxPml4 virt] ++ [idxPdpt virt] ++ [idxPd virt] ++ [idxPt virt]) →
      look s'.mem r ([idxPml4 virt] ++ [idxPdpt virt] ++ [idxPd virt]) = some t →
      SameLeaves D s s' → P s' →
      P (s'.setEntry (ptePage t) (idxPt virt) (ptePage phys ||| makePteFlags flags))) :
    P (vmmMapPageInto s r virt phys flags).2 := by
  have hpos := pos_vaPath hr hv
  have h3 : Pos D r ([idxPml4 virt] ++ [idxPdpt virt] ++ [idxPd virt]) :=
    Pos.init (i := idxPt virt) hpos
  have h2 : Pos D r ([idxPml4 virt] ++ [idxPdpt virt]) := h3.init
  have h1 : Pos D r ([] ++ [idxPml4 virt]) := h2.init
  unfold vmmMapPageInto
  generalize (decide (flags &&& vmmUser ≠ 0)) = user at htable ⊢
  have hE1 := h.ensureTable h1 (by simp) rfl user
  have hP1 := htable s L r (idxPml4 virt) [] h h1 (by simp) rfl (fun _ _ _ _ => rfl) hs
  rw [h.root r hr] at hE1 hP1
  rcases hE1 with ⟨heq, -⟩ | ⟨e1, s1, L1, heq1, hc1, hl1, hsame1⟩
  · simp only [heq]
    exact hs
  · rw [heq1] at hP1
    simp only [heq1]
    have hP2 := htable s1 L1 e1 (idxPdpt virt) _ hc1.inv h2 (by simp) hl1 hsame1 hP1
    rcases hc1.inv.ensureTable h2 (by simp) hl1 user with
      ⟨heq, -⟩ | ⟨e2, s2, L2, heq2, hc2, hl2, hsame2⟩
    · simp only [heq]
      exact hP1
    · rw [heq2] at hP2
      simp only [heq2]
      have hP3 := htable s2 L2 e2 (idxPd virt) _ hc2.inv h3 (by simp) hl2
        (hsame1.trans hsame2) hP2
      rcases hc2.inv.ensureTable h3 (by simp) hl2 user with
        ⟨heq, -⟩ | ⟨e3, s3, L3, heq3, hc3, hl3, hsame3⟩
      · simp only [heq]
        exact hP2
      · rw [heq3] at hP3
        simp only [heq3]
        exact hleaf s3 L3 e3 hc3.inv hpos hl3 (hsame1.trans (hsame2.trans hsame3)) hP3

/-! ### Translation -/

/-- `vmm_translate` reads the entry of the page. -/
theorem translateIn (h : VmmInv D s L H) (hr : r ∈ D.user ∨ r = D.kernel) {virt : Nat}
    (hv : idxPml4 virt ∈ D.slotsOf r) :
    Vmm.translateIn s.mem r virt =
      match look s.mem r (vaPath virt) with
      | none => 0
      | some e => ptePage e + virt % pageSize := by
  have hpos := pos_vaPath hr hv
  have h3 : Pos D r ([idxPml4 virt] ++ [idxPdpt virt] ++ [idxPd virt]) :=
    Pos.init (i := idxPt virt) hpos
  have h2 : Pos D r ([idxPml4 virt] ++ [idxPdpt virt]) := h3.init
  have h1 : Pos D r ([] ++ [idxPml4 virt]) := h2.init
  have hpath : vaPath virt =
    [idxPml4 virt] ++ [idxPdpt virt] ++ [idxPd virt] ++ [idxPt virt] := rfl
  have hroot := h.root r hr
  rw [hpath, look_snoc, look_snoc, look_snoc]
  have hl1 : look s.mem r [idxPml4 virt] = link s.mem r (idxPml4 virt) := by
    have := look_snoc s.mem r [] (idxPml4 virt)
    rw [look_nil, Option.bind_some, hroot] at this
    exact this
  unfold Vmm.translateIn
  cases he1 : link s.mem r (idxPml4 virt) with
  | none => simp [hl1, he1, link_none.1 he1]
  | some e1 =>
      obtain ⟨hp1, hv1⟩ := link_some.1 he1
      rw [he1] at hl1
      have ht1 := h.tables r _ e1 h1 (by simp) (by simp) hl1
      rw [hl1, Option.bind_some]
      simp only [hv1, hp1, Bool.not_true, Bool.false_eq_true, if_false, ht1.alignDown]
      cases he2 : link s.mem (ptePage e1) (idxPdpt virt) with
      | none => simp [link_none.1 he2]
      | some e2 =>
          obtain ⟨hp2, hv2⟩ := link_some.1 he2
          have hl2 : look s.mem r ([idxPml4 virt] ++ [idxPdpt virt]) = some e2 := by
            rw [look_snoc, hl1, Option.bind_some, he2]
          have ht2 := h.tables r _ e2 h2 (by simp) (by simp) hl2
          simp only [hv2, hp2, Bool.not_true, Bool.false_eq_true, if_false, ht2.alignDown,
            Option.bind_some]
          cases he3 : link s.mem (ptePage e2) (idxPd virt) with
          | none => simp [link_none.1 he3]
          | some e3 =>
              obtain ⟨hp3, hv3⟩ := link_some.1 he3
              have hl3 : look s.mem r ([idxPml4 virt] ++ [idxPdpt virt] ++ [idxPd virt]) =
                  some e3 := by
                rw [look_snoc, hl2, Option.bind_some, he3]
              have ht3 := h.tables r _ e3 h3 (by simp) (by simp) hl3
              simp only [hv3, hp3, Bool.not_true, Bool.false_eq_true, if_false, ht3.alignDown,
                Option.bind_some]
              cases he4 : link s.mem (ptePage e3) (idxPt virt) with
              | none => simp [link_none.1 he4]
              | some e4 =>
                  obtain ⟨hp4, hv4⟩ := link_some.1 he4
                  simp [hv4, hp4]

/-! ### Unmapping -/

theorem tableIsEmpty_iff {mem : Nat → Nat} {t : Nat} :
    tableIsEmpty mem t ↔ ∀ j < 512, ¬ present (entry mem t j) := by
  simp [tableIsEmpty, List.all_eq_true]

/-- Clearing the entry of a page that leads nowhere and giving the page back. -/
theorem pruneAt (h : VmmInv D s L H) {t i : Nat} {π : List Nat} (hπ : Pos D r (π ++ [i]))
    (ht : look s.mem r π = some t) {e : Nat} (he : look s.mem r (π ++ [i]) = some e)
    (hvoid : ∀ j, Pos D r (π ++ [i] ++ [j]) → look s.mem r (π ++ [i] ++ [j]) = none) :
    Change D r s L H (freePage (s.setEntry (ptePage t) i 0) (ptePage e)) (ptePage e :: L) H ∧
      ∀ r' σ, Pos D r' σ → look (freePage (s.setEntry (ptePage t) i 0) (ptePage e)).mem r' σ =
        if r' = r ∧ σ = π ++ [i] then none else look s.mem r' σ := by
  obtain ⟨hc, hlook⟩ := h.detach hπ ht he hvoid (v := 0) (by decide)
  obtain ⟨hc', -, -, hlook'⟩ := hc.inv.free r hπ.1 (Set.mem_insert (ptePage e) H)
  rw [Set.insert_sdiff_self_of_notMem (h.held_apart r _ e hπ he)] at hc'
  refine ⟨hc.trans hc', fun r' σ hσ => ?_⟩
  rw [hlook' r' σ hσ, hlook r' σ hσ]

/-- Giving back a table that is empty. -/
theorem prune (h : VmmInv D s L H) {t i : Nat} {π : List Nat} (hπ : Pos D r (π ++ [i]))
    (ht : look s.mem r π = some t) {e : Nat} (he : look s.mem r (π ++ [i]) = some e)
    (hempty : tableIsEmpty s.mem (ptePage e)) :
    Change D r s L H (freePage (s.setEntry (ptePage t) i 0) (ptePage e)) (ptePage e :: L) H ∧
      ∀ r' σ, Pos D r' σ → look (freePage (s.setEntry (ptePage t) i 0) (ptePage e)).mem r' σ =
        if r' = r ∧ σ = π ++ [i] then none else look s.mem r' σ := by
  refine h.pruneAt hπ ht he fun j hj => ?_
  rw [look_snoc, he, Option.bind_some]
  exact link_none.2 (tableIsEmpty_iff.1 hempty j hj.index_lt)

theorem prune_sameLeaves {s' : VmmState} {π : List Nat} (hthree : π.length ≤ 3)
    (hlook : ∀ r' σ, Pos D r' σ → look s'.mem r' σ =
      if r' = r ∧ σ = π then none else look s.mem r' σ) : SameLeaves D s s' := by
  intro r' σ hσ hlen
  rw [hlook r' σ hσ, if_neg]
  rintro ⟨-, rfl⟩
  omega

/-- `vmm_unmap_page` on a page that is not mapped. -/
theorem unmapPageIn_none (h : VmmInv D s L H) (hr : r ∈ D.user ∨ r = D.kernel) (virt : Nat)
    (hnone : look s.mem r (vaPath (alignDown virt)) = none) :
    unmapPageIn s r virt = (false, s) := by
  have hroot := h.root r hr
  have hpath : vaPath (alignDown virt) = [idxPml4 (alignDown virt)] ++
    [idxPdpt (alignDown virt)] ++ [idxPd (alignDown virt)] ++ [idxPt (alignDown virt)] := rfl
  have hl1 : look s.mem r [idxPml4 (alignDown virt)] =
      link s.mem r (idxPml4 (alignDown virt)) := by
    have := look_snoc s.mem r [] (idxPml4 (alignDown virt))
    rw [look_nil, Option.bind_some, hroot] at this
    exact this
  rw [hpath, look_snoc, look_snoc, look_snoc, hl1] at hnone
  unfold unmapPageIn
  cases he1 : link s.mem r (idxPml4 (alignDown virt)) with
  | none => simp [link_none.1 he1]
  | some e1 =>
      obtain ⟨hp1, hv1⟩ := link_some.1 he1
      rw [he1, Option.bind_some] at hnone
      simp only [hv1, hp1, Bool.not_true, Bool.false_eq_true, if_false]
      cases he2 : link s.mem (ptePage e1) (idxPdpt (alignDown virt)) with
      | none => simp [link_none.1 he2]
      | some e2 =>
          obtain ⟨hp2, hv2⟩ := link_some.1 he2
          rw [he2, Option.bind_some] at hnone
          simp only [hv2, hp2, Bool.not_true, Bool.false_eq_true, if_false]
          cases he3 : link s.mem (ptePage e2) (idxPd (alignDown virt)) with
          | none => simp [link_none.1 he3]
          | some e3 =>
              obtain ⟨hp3, hv3⟩ := link_some.1 he3
              rw [he3, Option.bind_some] at hnone
              simp [hv3, hp3, link_none.1 hnone]

/-- `vmm_unmap_page` on a page that is mapped. The frame is held afterwards, and
the tables that became empty are free. -/
theorem unmapPageIn_some (h : VmmInv D s L H) (hr : r ∈ D.user ∨ r = D.kernel) (virt : Nat)
    {e : Nat} (hv : idxPml4 (alignDown virt) ∈ D.slotsOf r)
    (he : look s.mem r (vaPath (alignDown virt)) = some e) :
    ∃ s' L', unmapPageIn s r virt = (true, s') ∧
      Change D r s L H s' L' (insert (ptePage e) H) ∧
      LeafLaw D r (vaPath (alignDown virt)) none s s' ∧ Shrinks D s s' := by
  have hroot := h.root r hr
  set v := alignDown virt with hvdef
  have hpos : Pos D r ([idxPml4 v] ++ [idxPdpt v] ++ [idxPd v] ++ [idxPt v]) := pos_vaPath hr hv
  have h3 := hpos.init
  have h2 := h3.init
  have h1 : Pos D r ([] ++ [idxPml4 v]) := h2.init
  change look s.mem r ([idxPml4 v] ++ [idxPdpt v] ++ [idxPd v] ++ [idxPt v]) = some e at he
  obtain ⟨e3, hl3, he4⟩ := Option.bind_eq_some_iff.1 ((look_snoc _ _ _ _).symm.trans he)
  obtain ⟨e2, hl2, he3⟩ := Option.bind_eq_some_iff.1 ((look_snoc _ _ _ _).symm.trans hl3)
  obtain ⟨e1, hl1, he2⟩ := Option.bind_eq_some_iff.1 ((look_snoc _ _ _ _).symm.trans hl2)
  have he1 : link s.mem r (idxPml4 v) = some e1 := by
    have := look_snoc s.mem r [] (idxPml4 v)
    rw [look_nil, Option.bind_some, hroot] at this
    exact this.symm.trans hl1
  obtain ⟨hp1, hv1⟩ := link_some.1 he1
  obtain ⟨hp2, hv2⟩ := link_some.1 he2
  obtain ⟨hp3, hv3⟩ := link_some.1 he3
  obtain ⟨hp4, hv4⟩ := link_some.1 he4
  have hvoid : ∀ j, Pos D r ([idxPml4 v] ++ [idxPdpt v] ++ [idxPd v] ++ [idxPt v] ++ [j]) →
      look s.mem r ([idxPml4 v] ++ [idxPdpt v] ++ [idxPd v] ++ [idxPt v] ++ [j]) = none := by
    intro j hj
    have := hj.length_lt
    simp at this
  obtain ⟨hc, hlook⟩ := h.detach hpos hl3 he hvoid (v := 0) (by decide)
  have hlaw : LeafLaw D r (vaPath v) none s (s.setEntry (ptePage e3) (idxPt v) 0) :=
    fun r' σ hσ _ => hlook r' σ hσ
  have hsh := shrinks_of_clear hlook
  -- the tables on the way are still linked
  have hk3 := (hlook r _ h3).trans (if_neg (by simp))
  have hk2 := (hlook r _ h2).trans (if_neg (by simp))
  have hk1 := (hlook r _ h1).trans (if_neg (by simp))
  rw [hl3] at hk3
  rw [hl2] at hk2
  rw [List.nil_append, hl1] at hk1
  set s1 := s.setEntry (ptePage e3) (idxPt v) 0
  unfold unmapPageIn
  simp only [← hvdef, hv1, hp1, hv2, hp2, hv3, hp3, hv4, hp4, Bool.not_true, Bool.false_eq_true,
    if_false]
  by_cases hm3 : tableIsEmpty s1.mem (ptePage e3)
  · rw [if_neg (show ¬ (!tableIsEmpty s1.mem (ptePage e3)) = true by simp [hm3])]
    obtain ⟨hc2, hlook2⟩ := hc.inv.prune h3 hk2 hk3 hm3
    have hsame2 := prune_sameLeaves (by simp) hlook2
    have hsh2 := hsh.trans (shrinks_of_clear hlook2)
    have hk2' := (hlook2 r _ h2).trans (if_neg (by simp))
    have hk1' := (hlook2 r _ h1).trans (if_neg (by simp))
    rw [hk2] at hk2'
    rw [List.nil_append, hk1] at hk1'
    set s2 := freePage (s1.setEntry (ptePage e2) (idxPd v) 0) (ptePage e3)
    by_cases hm2 : tableIsEmpty s2.mem (ptePage e2)
    · rw [if_neg (show ¬ (!tableIsEmpty s2.mem (ptePage e2)) = true by simp [hm2])]
      obtain ⟨hc3, hlook3⟩ := hc2.inv.prune h2 hk1' hk2' hm2
      have hsame3 := prune_sameLeaves (by simp) hlook3
      have hsh3 := hsh2.trans (shrinks_of_clear hlook3)
      have hk1'' := (hlook3 r _ h1).trans (if_neg (by simp))
      rw [List.nil_append, hk1'] at hk1''
      set s3 := freePage (s2.setEntry (ptePage e1) (idxPdpt v) 0) (ptePage e2)
      by_cases hm1 : tableIsEmpty s3.mem (ptePage e1)
      · rw [if_neg (show ¬ (!tableIsEmpty s3.mem (ptePage e1)) = true by simp [hm1])]
        obtain ⟨hc4, hlook4⟩ := hc3.inv.prune h1 (look_nil s3.mem r) hk1'' hm1
        rw [hroot] at hc4 hlook4
        have hsame4 := prune_sameLeaves (by simp) hlook4
        exact ⟨_, _, rfl, hc.trans (hc2.trans (hc3.trans hc4)),
          hlaw.same (hsame2.trans (hsame3.trans hsame4)),
          hsh3.trans (shrinks_of_clear hlook4)⟩
      · rw [if_pos (show (!tableIsEmpty s3.mem (ptePage e1)) = true by simpa using hm1)]
        exact ⟨_, _, rfl, hc.trans (hc2.trans hc3), hlaw.same (hsame2.trans hsame3), hsh3⟩
    · rw [if_pos (show (!tableIsEmpty s2.mem (ptePage e2)) = true by simpa using hm2)]
      exact ⟨_, _, rfl, hc.trans hc2, hlaw.same hsame2, hsh2⟩
  · rw [if_pos (show (!tableIsEmpty s1.mem (ptePage e3)) = true by simpa using hm3)]
    exact ⟨_, _, rfl, hc, hlaw, hsh⟩

/-- `vmm_unmap_page_and_free` never fails, and afterwards the page is not
mapped. -/
theorem unmapPageAndFreeIn (h : VmmInv D s L H) (hr : r ∈ D.user ∨ r = D.kernel)
    (virt : Nat) (hv : idxPml4 (alignDown virt) ∈ D.slotsOf r) :
    ∃ s' L', Vmm.unmapPageAndFreeIn s r virt = (true, s') ∧ Change D r s L H s' L' H ∧
      LeafLaw D r (vaPath (alignDown virt)) none s s' ∧ Shrinks D s s' := by
  have htr := h.translateIn hr hv
  have haa : alignDown (alignDown virt) = alignDown virt := alignDown_of_mod (alignDown_mod virt)
  unfold Vmm.unmapPageAndFreeIn
  simp only [htr]
  cases he : look s.mem r (vaPath (alignDown virt)) with
  | none =>
      refine ⟨s, L, by simp, Change.refl h, fun r' σ hσ _ => ?_, Shrinks.refl D s⟩
      split
      · next hc => rw [hc.1, hc.2, he]
      · rfl
  | some e =>
      have hpos := pos_vaPath hr hv
      obtain ⟨hmod, hmin, -, -⟩ := h.used _ _ e hpos (Or.inr (by simp [vaPath])) he
      have hoff : alignDown virt % pageSize = 0 := alignDown_mod virt
      have hne : ptePage e ≠ 0 := by
        simp only [minPhys] at hmin
        omega
      simp only [hoff, Nat.add_zero, if_neg hne, ptePage_of_page hmod (ptePage_lt e)]
      obtain ⟨s1, L1, heq, hc, hlaw, hsh⟩ :=
        h.unmapPageIn_some hr (alignDown virt) (by rwa [haa]) (by rwa [haa])
      rw [haa] at hlaw
      obtain ⟨hc', -, -, hlook'⟩ := hc.inv.free r hr (Set.mem_insert (ptePage e) H)
      rw [Set.insert_sdiff_self_of_notMem (h.held_apart _ _ e hpos he)] at hc'
      refine ⟨_, _, by simp only [heq, Bool.not_true, Bool.false_eq_true, if_false],
        hc.trans hc', hlaw.same fun r' σ hσ _ => hlook' r' σ hσ, hsh.trans ?_⟩
      exact fun r' σ a hσ ha => (hlook' r' σ hσ).symm.trans ha

theorem unmapPageAndFree (h : VmmInv D s L H) (hr : s.cr3 ∈ D.user ∨ s.cr3 = D.kernel)
    (virt : Nat) (hv : idxPml4 (alignDown virt) ∈ D.slotsOf s.cr3) :
    ∃ s' L', vmmUnmapPageAndFree s virt = (true, s') ∧ Change D s.cr3 s L H s' L' H ∧
      LeafLaw D s.cr3 (vaPath (alignDown virt)) none s s' := by
  obtain ⟨s', L', heq, hc, hlaw, -⟩ := h.unmapPageAndFreeIn hr virt hv
  exact ⟨s', L', heq, hc, hlaw⟩

end VmmInv

end FiFi.Vmm
