import FiFi.Vmm.Frames

/-!
# Access from user mode

`vmm_user_page_ok` tests the four entries on the way to a page for presence, for
the user bit and, for a store, for the write bit. All mappings of a process are
made with the user flag, so its tables are entered with all rights, and what the
process may do with a page depends on the entry of the page alone.
-/

namespace FiFi.Vmm

open Pmm RadixForest

/-- `e & PTE_US`. -/
def pteUser (e : Nat) : Bool := e / 4 % 2 = 1

/-- `e & PTE_RW`. -/
def pteWritable (e : Nat) : Bool := e / 2 % 2 = 1

/-- `e & PTE_NX`. -/
def pteNoExec (e : Nat) : Bool := e / 2 ^ 63 % 2 = 1

/-- The tests on one entry. -/
def entryOk (e : Nat) (write : Bool) : Bool :=
  present e && pteUser e && (!write || pteWritable e)

/-- `vmm_user_page_ok` on the page map at `root`. -/
def userPageOkIn (mem : Nat → Nat) (root virt : Nat) (write : Bool) : Bool :=
  let e1 := entry mem root (idxPml4 virt)
  entryOk e1 write &&
    let e2 := entry mem (alignDown e1) (idxPdpt virt)
    entryOk e2 write &&
      let e3 := entry mem (alignDown e2) (idxPd virt)
      entryOk e3 write &&
        entryOk (entry mem (alignDown e3) (idxPt virt)) write

def vmmUserPageOk (s : VmmState) (virt : Nat) (write : Bool) : Bool :=
  userPageOkIn s.mem s.cr3 virt write

/-- `vmm_user_accessible`. When the range ends in the last page of the address
space, the loop variable wraps around and the scan goes on with page 0. It can
then end only at a page that is not accessible, so the answer is `false`. -/
def vmmUserAccessible (s : VmmState) (virt size : Nat) (write : Bool) : Bool :=
  if size = 0 then true
  else
    let stop := u64 (virt + size)
    if stop < virt then false
    else if 2 ^ 64 - pageSize < stop then false
    else
      (List.range ((stop - alignDown virt + (pageSize - 1)) / pageSize)).all fun k =>
        vmmUserPageOk s (alignDown virt + k * pageSize) write

/-- The tables of the page map at `r` are entered with all rights. -/
def UserTables (D : Domain) (s : VmmState) (r : Nat) : Prop :=
  ∀ π e, Pos D r π → π ≠ [] → π.length ≤ 3 → look s.mem r π = some e → e = ptePage e + 7

theorem entryOk_userTable {e : Nat} (h : e = ptePage e + 7) (write : Bool) :
    entryOk e write = true := by
  have hmod := ptePage_mod e
  have h1 : e % 2 = 1 := by
    simp only [pageSize] at hmod
    omega
  have h2 : e / 2 % 2 = 1 := by
    simp only [pageSize] at hmod
    omega
  have h4 : e / 4 % 2 = 1 := by
    simp only [pageSize] at hmod
    omega
  simp [entryOk, present, pteUser, pteWritable, h1, h2, h4]

theorem entryOk_of_not_present {e : Nat} (h : ¬ present e) (write : Bool) :
    entryOk e write = false := by
  simp [entryOk, h]

namespace VmmInv

variable {D : Domain} {s : VmmState} {L : List Nat} {H : Set Nat} {r : Nat}

/-- With all rights on the tables, the entry of the page decides. -/
theorem userPageOk (h : VmmInv D s L H) (hr : r ∈ D.user ∨ r = D.kernel)
    (hu : UserTables D s r) {virt : Nat} (hv : idxPml4 virt ∈ D.slotsOf r) (write : Bool) :
    userPageOkIn s.mem r virt write =
      match look s.mem r (vaPath virt) with
      | none => false
      | some e => entryOk e write := by
  have hpos := pos_vaPath hr hv
  have h3 : Pos D r ([idxPml4 virt] ++ [idxPdpt virt] ++ [idxPd virt]) :=
    Pos.init (i := idxPt virt) hpos
  have h2 : Pos D r ([idxPml4 virt] ++ [idxPdpt virt]) := h3.init
  have h1 : Pos D r [idxPml4 virt] := h2.init
  have hpath : vaPath virt =
    [idxPml4 virt] ++ [idxPdpt virt] ++ [idxPd virt] ++ [idxPt virt] := rfl
  have hl1 : look s.mem r [idxPml4 virt] = link s.mem r (idxPml4 virt) := by
    have hstep := look_snoc s.mem r [] (idxPml4 virt)
    rw [look_nil, Option.bind_some, h.root r hr] at hstep
    exact hstep
  -- a table on the way passes the tests, an empty slot does not
  have htable : ∀ π t e, Pos D r π → π ≠ [] → π.length ≤ 3 → look s.mem r π = some e →
      t = e → entryOk t write = true ∧ alignDown t = ptePage e := by
    rintro π t e hπ hne hlen he rfl
    exact ⟨entryOk_userTable (hu π t hπ hne hlen he) write,
      (h.tables r π t hπ hne hlen he).alignDown⟩
  rw [hpath, look_snoc, look_snoc, look_snoc, hl1]
  unfold userPageOkIn
  cases he1 : link s.mem r (idxPml4 virt) with
  | none => simp [entryOk_of_not_present (link_none.1 he1)]
  | some e1 =>
      rw [he1] at hl1
      obtain ⟨hok1, hal1⟩ := htable _ _ e1 h1 (by simp) (by simp) hl1 (link_some.1 he1).2
      simp only [hok1, hal1, Bool.true_and, Option.bind_some]
      cases he2 : link s.mem (ptePage e1) (idxPdpt virt) with
      | none => simp [entryOk_of_not_present (link_none.1 he2)]
      | some e2 =>
          have hl2 : look s.mem r ([idxPml4 virt] ++ [idxPdpt virt]) = some e2 := by
            rw [look_snoc, hl1, Option.bind_some, he2]
          obtain ⟨hok2, hal2⟩ := htable _ _ e2 h2 (by simp) (by simp) hl2 (link_some.1 he2).2
          simp only [hok2, hal2, Bool.true_and, Option.bind_some]
          cases he3 : link s.mem (ptePage e2) (idxPd virt) with
          | none => simp [entryOk_of_not_present (link_none.1 he3)]
          | some e3 =>
              have hl3 : look s.mem r ([idxPml4 virt] ++ [idxPdpt virt] ++ [idxPd virt]) =
                  some e3 := by
                rw [look_snoc, hl2, Option.bind_some, he3]
              obtain ⟨hok3, hal3⟩ := htable _ _ e3 h3 (by simp) (by simp) hl3 (link_some.1 he3).2
              simp only [hok3, hal3, Bool.true_and, Option.bind_some]
              cases he4 : link s.mem (ptePage e3) (idxPt virt) with
              | none => simp [entryOk_of_not_present (link_none.1 he4)]
              | some e4 => simp [(link_some.1 he4).2]

end VmmInv

/-! ### Mapping keeps the pages and the rights of the tables -/

/-- Every page of the page map at `r` is still there, in the same place. -/
def PagesKept (D : Domain) (r : Nat) (s s' : VmmState) : Prop :=
  ∀ π e, Pos D r π → look s.mem r π = some e →
    ∃ e', look s'.mem r π = some e' ∧ ptePage e' = ptePage e

theorem PagesKept.refl (D : Domain) (r : Nat) (s : VmmState) : PagesKept D r s s :=
  fun _ e _ he => ⟨e, he, rfl⟩

theorem PagesKept.trans {D : Domain} {r : Nat} {s s' s'' : VmmState} (h : PagesKept D r s s')
    (h' : PagesKept D r s' s'') : PagesKept D r s s'' := by
  intro π e hπ he
  obtain ⟨e', he', hpage⟩ := h π e hπ he
  obtain ⟨e'', he'', hpage'⟩ := h' π e' hπ he'
  exact ⟨e'', he'', hpage'.trans hpage⟩

theorem PagesKept.of_set {D : Domain} {r v : Nat} {ρ : List Nat} {s s' : VmmState}
    (hpage : ∀ e, look s.mem r ρ = some e → ptePage v = ptePage e)
    (hlook : ∀ r' π, Pos D r' π →
      look s'.mem r' π = if r' = r ∧ π = ρ then some v else look s.mem r' π) :
    PagesKept D r s s' := by
  intro π e hπ he
  rw [hlook r π hπ]
  split
  · next heq => exact ⟨v, rfl, hpage e (heq.2 ▸ he)⟩
  · exact ⟨e, he, rfl⟩

theorem PagesKept.tree {D : Domain} {r : Nat} {s s' : VmmState} (h : PagesKept D r s s') :
    tree D s.mem r ⊆ tree D s'.mem r := by
  rintro p ⟨π, e, hπ, he, rfl⟩
  obtain ⟨e', he', hpage⟩ := h π e hπ he
  exact ⟨π, e', hπ, he', hpage.symm⟩

theorem UserTables.congr {D : Domain} {s s' : VmmState} {r : Nat} (hu : UserTables D s r)
    (hlook : ∀ π, Pos D r π → look s'.mem r π = look s.mem r π) : UserTables D s' r :=
  fun π e hπ hne hlen he => hu π e hπ hne hlen ((hlook π hπ).symm.trans he)

theorem UserTables.of_shrinks {D : Domain} {s s' : VmmState} {r : Nat} (hu : UserTables D s r)
    (h : Shrinks D s s') : UserTables D s' r :=
  fun π e hπ hne hlen he => hu π e hπ hne hlen (h r π e hπ he)

theorem UserTables.update {D : Domain} {s s' : VmmState} {r v : Nat} {ρ : List Nat}
    (hu : UserTables D s r) (hv : ρ.length ≤ 3 → v = ptePage v + 7)
    (hlook : ∀ r' π, Pos D r' π →
      look s'.mem r' π = if r' = r ∧ π = ρ then some v else look s.mem r' π) :
    UserTables D s' r := by
  intro π e hπ hne hlen he
  rw [hlook r π hπ] at he
  split at he
  · next heq =>
      obtain rfl := Option.some.inj he
      exact hv (heq.2 ▸ hlen)
  · exact hu π e hπ hne hlen he

theorem TableEntry.or_us_eq {e : Nat} (h : TableEntry e) :
    e ||| pteUs = ptePage (e ||| pteUs) + 7 := by
  have hmod := ptePage_mod e
  rw [h.or_us.2]
  have hbits : ∀ f, f < 4096 → ptePage e + f ||| pteUs = ptePage e + (f ||| pteUs) := by
    intro f hf
    have hor : f ||| pteUs < 2 ^ 12 := Nat.or_lt_two_pow hf (by decide)
    rw [← page_or hmod hf, Nat.or_assoc, page_or hmod hor]
  rcases h with h | h
  · calc e ||| pteUs = ptePage e + 3 ||| pteUs := by rw [← h]
      _ = ptePage e + 7 := hbits 3 (by decide)
  · calc e ||| pteUs = ptePage e + 7 ||| pteUs := by rw [← h]
      _ = ptePage e + 7 := hbits 7 (by decide)

theorem newTableEntry_user {p : Nat} (hmod : p % pageSize = 0) (hlt : p < 2 ^ 52) :
    newTableEntry p true = ptePage (newTableEntry p true) + 7 := by
  rw [(tableEntry_new hmod hlt true).2, newTableEntry, alignDown_of_mod hmod, Nat.or_assoc,
    Nat.or_assoc]
  exact page_or hmod (by decide)

namespace VmmInv

variable {D : Domain} {s : VmmState} {L : List Nat} {H : Set Nat} {r : Nat}

/-- `ensure_table` changes nothing, or it writes the entry of its slot: the old
one with the user bit, or the entry of a new table. -/
theorem ensureTable_look (h : VmmInv D s L H) {t i : Nat} {π : List Nat}
    (hπ : Pos D r (π ++ [i])) (hlen : π.length < 3) (ht : look s.mem r π = some t) (user : Bool) :
    (Vmm.ensureTable s (ptePage t) i user).2 = s ∨
      ∃ v, (user = true → v = ptePage v + 7) ∧
        (∀ e, look s.mem r (π ++ [i]) = some e → ptePage v = ptePage e) ∧
        ∀ r' σ, Pos D r' σ → look (Vmm.ensureTable s (ptePage t) i user).2.mem r' σ =
          if r' = r ∧ σ = π ++ [i] then some v else look s.mem r' σ := by
  have hslot : look s.mem r (π ++ [i]) = link s.mem (ptePage t) i := by
    rw [look_snoc, ht]
    rfl
  unfold Vmm.ensureTable
  dsimp only
  split
  · next hp =>
      have he : look s.mem r (π ++ [i]) = some (entry s.mem (ptePage t) i) := by
        rw [hslot]
        exact link_some.2 ⟨hp, rfl⟩
      have htab := h.tables r _ _ hπ (by simp) (by simp; omega) he
      obtain ⟨htab', hpage⟩ := htab.or_us
      cases user with
      | false => exact Or.inl rfl
      | true =>
          obtain ⟨-, hlook⟩ := h.reflag hπ ht he htab'.present hpage fun _ => htab'
          refine Or.inr ⟨_, fun _ => htab.or_us_eq, fun e he' => ?_, hlook⟩
          rw [he, Option.some.injEq] at he'
          rw [hpage, he']
  · next hp =>
      have he : look s.mem r (π ++ [i]) = none := by
        rw [hslot]
        exact link_none.2 hp
      rcases h.alloc r with ⟨heq, -⟩ | ⟨hne, hin, -⟩
      · rw [heq, if_pos rfl]
        exact Or.inl rfl
      · rw [if_neg hne]
        obtain ⟨L', -, hlook⟩ := h.newTable hπ ht he user hne
        refine Or.inr ⟨_, ?_, fun e he' => ?_, hlook⟩
        · rintro rfl
          exact newTableEntry_user (h.pmm.mod_of_mem_freeSet hin) (h.lt_of_free hin)
        · rw [he] at he'
          cases he'

theorem ensureTable_userTables (h : VmmInv D s L H) {t i : Nat} {π : List Nat}
    (hπ : Pos D r (π ++ [i])) (hlen : π.length < 3) (ht : look s.mem r π = some t)
    (hu : UserTables D s r) : UserTables D (Vmm.ensureTable s (ptePage t) i true).2 r := by
  rcases h.ensureTable_look hπ hlen ht true with heq | ⟨v, hv, -, hlook⟩
  · rw [heq]
    exact hu
  · exact hu.update (fun _ => hv rfl) hlook

/-- With all rights there is nothing to do to a table that exists. -/
theorem ensureTable_present {t i e : Nat} (hp : entry s.mem t i = e) (he : e = ptePage e + 7) :
    Vmm.ensureTable s t i true = (some (ptePage e), s) := by
  have htab : TableEntry e := Or.inr he
  have hor : e ||| pteUs = e := by
    rw [htab.or_us_eq, htab.or_us.2]
    exact he.symm
  have hset : s.setEntry t i e = s := by
    have hval : Function.update s.mem (t + 8 * i) e = s.mem := by
      rw [← hp]
      exact Function.update_eq_self _ _
    rw [VmmState.setEntry, hval]
    rfl
  unfold Vmm.ensureTable
  simp only [hp, htab.present, if_true, hor, hset, htab.alignDown]

/-- Mapping over a page that is mapped only replaces its entry. -/
theorem mapPageInto_mapped (h : VmmInv D s L H) (hr : r ∈ D.user ∨ r = D.kernel)
    (hu : UserTables D s r) {virt : Nat} (hv : idxPml4 virt ∈ D.slotsOf r) {e : Nat}
    (he : look s.mem r (vaPath virt) = some e) {flags : Nat} (hflags : flags &&& vmmUser ≠ 0) :
    ∃ s', vmmMapPageInto s r virt (ptePage e) flags = (true, s') ∧ Change D r s L H s' L H ∧
      LeafLaw D r (vaPath virt) (some (ptePage e ||| makePteFlags flags)) s s' ∧
      UserTables D s' r ∧ DataKept D H s s' := by
  have hpos := pos_vaPath hr hv
  have h3 : Pos D r ([idxPml4 virt] ++ [idxPdpt virt] ++ [idxPd virt]) :=
    Pos.init (i := idxPt virt) hpos
  have h2 : Pos D r ([idxPml4 virt] ++ [idxPdpt virt]) := h3.init
  have h1 : Pos D r [idxPml4 virt] := h2.init
  change look s.mem r ([idxPml4 virt] ++ [idxPdpt virt] ++ [idxPd virt] ++ [idxPt virt]) =
    some e at he
  obtain ⟨e3, hl3, -⟩ := Option.bind_eq_some_iff.1 ((look_snoc _ _ _ _).symm.trans he)
  obtain ⟨e2, hl2, he3⟩ := Option.bind_eq_some_iff.1 ((look_snoc _ _ _ _).symm.trans hl3)
  obtain ⟨e1, hl1, he2⟩ := Option.bind_eq_some_iff.1 ((look_snoc _ _ _ _).symm.trans hl2)
  have he1 : link s.mem r (idxPml4 virt) = some e1 := by
    have hstep := look_snoc s.mem r [] (idxPml4 virt)
    rw [look_nil, Option.bind_some, h.root r hr] at hstep
    exact hstep.symm.trans hl1
  have ht1 := ensureTable_present (link_some.1 he1).2 (hu _ e1 h1 (by simp) (by simp) hl1)
  have ht2 := ensureTable_present (link_some.1 he2).2 (hu _ e2 h2 (by simp) (by simp) hl2)
  have ht3 := ensureTable_present (link_some.1 he3).2 (hu _ e3 h3 (by simp) (by simp) hl3)
  have hpage := ptePage_of_page (ptePage_mod e) (ptePage_lt e)
  obtain ⟨hpres, hsame⟩ := leaf_spec (ptePage e) flags
  rw [hpage] at hpres hsame
  obtain ⟨hc, hlook⟩ := h.reflag (i := idxPt virt) hpos hl3 he hpres hsame (by simp)
  refine ⟨_, ?_, hc, fun r' σ hσ _ => hlook r' σ hσ, ?_,
    h.setEntry_dataKept (i := idxPt virt) hpos hl3 _⟩
  · unfold vmmMapPageInto
    rw [decide_eq_true hflags]
    simp only [ht1, ht2, ht3, hpage]
  · exact hu.update (fun hlen => absurd hlen (by simp)) hlook

/-- Mapping a page with the user flag leaves all rights on the tables. -/
theorem mapPageInto_userTables (h : VmmInv D s L H) (hr : r ∈ D.user ∨ r = D.kernel) {virt : Nat}
    (hv : idxPml4 virt ∈ D.slotsOf r) (phys : Nat) {flags : Nat} (hflags : flags &&& vmmUser ≠ 0)
    (hu : UserTables D s r) : UserTables D (vmmMapPageInto s r virt phys flags).2 r := by
  refine h.mapPageInto_induct hr hv phys flags (P := fun s' => UserTables D s' r) hu ?_ ?_
  · intro s' L' t i π h' hπ hlen ht _ hu'
    rw [decide_eq_true hflags]
    exact h'.ensureTable_userTables hπ hlen ht hu'
  · -- the last store goes to the entry of the page, below all tables
    intro s' L' t h' hpos ht _ hu' π e hπ hne hlen he
    refine hu' π e hπ hne hlen ?_
    rw [← h'.look_setEntry hpos ht _ hπ]
    · exact he
    · rintro ⟨-, hpre⟩
      have hle := hpre.length_le
      simp at hle
      omega

/-- Mapping where nothing is mapped keeps every page of the page map in its place. -/
theorem mapPageInto_pagesKept (h : VmmInv D s L H) (hr : r ∈ D.user ∨ r = D.kernel) {virt : Nat}
    (hv : idxPml4 virt ∈ D.slotsOf r) {phys : Nat} (hp : phys ∈ H) (flags : Nat)
    (hnone : look s.mem r (vaPath virt) = none) :
    PagesKept D r s (vmmMapPageInto s r virt phys flags).2 := by
  have hphys : ptePage phys = phys := by
    obtain ⟨hmod, -, hend, -⟩ := h.held phys hp
    have hstop := h.stop_le
    refine ptePage_of_page hmod ?_
    simp only [pageSize] at *
    omega
  refine h.mapPageInto_induct hr hv phys flags (PagesKept.refl D r s) ?_ ?_
  · intro s' L' t i π h' hπ hlen ht _ hk
    rcases h'.ensureTable_look hπ hlen ht (flags &&& vmmUser ≠ 0) with heq | ⟨v, -, hpage, hlook⟩
    · rw [heq]
      exact hk
    · exact hk.trans (PagesKept.of_set hpage hlook)
  · intro s' L' t h' hpos ht hsame hk
    obtain ⟨hpres, hpage⟩ := leaf_spec phys flags
    rw [hphys] at hpres hpage ⊢
    obtain ⟨-, hlook⟩ := h'.setLeaf hpos (by simp) ht hpres (by rwa [hpage])
    refine hk.trans (PagesKept.of_set (fun e he => ?_) hlook)
    rw [show look s'.mem r _ = none from (hsame r _ hpos rfl).trans hnone] at he
    cases he

end VmmInv

end FiFi.Vmm
