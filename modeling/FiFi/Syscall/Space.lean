import FiFi.Syscall.Growth
import FiFi.Vmm.Access

/-!
# Address spaces

What a process sees of its page map: for every page of the lower half nothing,
or the flags of the page and its bytes. The frames behind the pages and the
tables that lead to them are not part of this view. Each operation on the loaded
page map is an update of the view at one page.
-/

namespace FiFi.Syscall

open Pmm Vmm RadixForest Loop

/-! ### The view -/

/-- A page of an address space. -/
structure Page where
  flags : Nat
  byte : Nat → UInt8

/-- The flag bits of an entry. -/
def pteFlags (e : Nat) : Nat := e - ptePage e

/-- The byte at a physical address. -/
def physByte (mem : Nat → Nat) (a : Nat) : UInt8 := UInt8.ofNat (mem (a / 8 * 8) / 256 ^ (a % 8))

/-- The page an entry leads to. -/
def pageOf (mem : Nat → Nat) (e : Nat) : Page where
  flags := pteFlags e
  byte := fun o => if o < pageSize then physByte mem (ptePage e + o) else 0

/-- The address space of the loaded page map, by page numbers. -/
def space (s : VmmState) (n : Nat) : Option Page :=
  if n < 2 ^ 35 then (look s.mem s.cr3 (vaPath (n * pageSize))).map (pageOf s.mem) else none

/-- A cleared page. -/
def zeroedPage (flags : Nat) : Page where
  flags := makePteFlags flags
  byte := fun _ => 0

theorem space_of_lt {s : VmmState} {v : Nat} (hv : v < 2 ^ 47) :
    space s (v / pageSize) = (look s.mem s.cr3 (vaPath v)).map (pageOf s.mem) := by
  have hn : v / pageSize < 2 ^ 35 := by
    simp only [pageSize]
    omega
  have hpath : vaPath (v / pageSize * pageSize) = vaPath v := by
    refine vaPath_congr ?_
    simp only [pageSize]
    omega
  rw [space, if_pos hn, hpath]

theorem space_none_iff {s : VmmState} {v : Nat} (hv : v < 2 ^ 47) :
    space s (v / pageSize) = none ↔ look s.mem s.cr3 (vaPath v) = none := by
  rw [space_of_lt hv, Option.map_eq_none_iff]

theorem pageOf_congr {mem mem' : Nat → Nat} {e : Nat}
    (h : ∀ w, alignDown w = ptePage e → mem' w = mem w) : pageOf mem' e = pageOf mem e := by
  have hmod := ptePage_mod e
  simp only [pageOf, Page.mk.injEq, true_and]
  funext o
  split
  · next ho =>
      have hw : alignDown ((ptePage e + o) / 8 * 8) = ptePage e := by
        simp only [alignDown, pageSize] at *
        omega
      rw [physByte, physByte, h _ hw]
  · rfl

/-- A change of a word of a frame. -/
theorem update_frame {mem : Nat → Nat} {e o x w : Nat} (ho : o < pageSize)
    (hw : alignDown w ≠ ptePage e) :
    Function.update mem ((ptePage e + o) / 8 * 8) x w = mem w := by
  refine Function.update_of_ne ?_ _ _
  rintro rfl
  have hmod := ptePage_mod e
  refine hw ?_
  simp only [alignDown, pageSize] at *
  omega

/-- The entry of a frame is its address plus the flags, which are a few low bits
and the top bit. -/
theorem leaf_eq_add {p : Nat} (hmod : p % pageSize = 0) (hlt : p < 2 ^ 52) (flags : Nat) :
    p ||| makePteFlags flags = p + makePteFlags flags := by
  have hlow : pteP ||| (if flags &&& vmmWrite ≠ 0 then pteRw else 0)
      ||| (if flags &&& vmmUser ≠ 0 then pteUs else 0)
      ||| (if flags &&& vmmUncache ≠ 0 then ptePcd ||| ptePwt else 0) < 4096 := by
    split_ifs <;> decide
  unfold makePteFlags
  generalize pteP ||| (if flags &&& vmmWrite ≠ 0 then pteRw else 0)
      ||| (if flags &&& vmmUser ≠ 0 then pteUs else 0)
      ||| (if flags &&& vmmUncache ≠ 0 then ptePcd ||| ptePwt else 0) = low at hlow
  have htop : ∀ x, x < 2 ^ 63 → x ||| pteNx = x + pteNx := by
    intro x hx
    have hor := Nat.shiftLeft_add_eq_or_of_lt hx 1
    rw [Nat.shiftLeft_eq, Nat.one_mul] at hor
    rw [Nat.or_comm, Nat.add_comm]
    exact hor.symm
  by_cases hnx : flags &&& vmmNx ≠ 0
  · rw [if_pos hnx, ← Nat.or_assoc, page_or hmod hlow, htop low (by omega), htop _ (by omega)]
    omega
  · rw [if_neg hnx, Nat.or_zero, page_or hmod hlow]

theorem pteFlags_leaf {p : Nat} (hmod : p % pageSize = 0) (hlt : p < 2 ^ 52) (flags : Nat) :
    pteFlags (p ||| makePteFlags flags) = makePteFlags flags := by
  have hpage : ptePage (p ||| makePteFlags flags) = p := by
    have hleaf := (leaf_spec p flags).2
    rwa [ptePage_of_page hmod hlt] at hleaf
  rw [pteFlags, hpage, leaf_eq_add hmod hlt, Nat.add_sub_cancel_left]

/-! ### Processes -/

/-- A process runs in the loaded page map. It lives on the pages of `R`: the free
pages and the pages of its own page map. -/
structure Running (D : Domain) (R : Set Nat) (s : VmmState) : Prop where
  user : s.cr3 ∈ D.user
  forest : ∃ L, VmmInv D s L ∅ ∧ region D s L ∅ s.cr3 = R
  rights : UserTables D s s.cr3
  kernel : s.kernelCr3 = D.kernel

theorem lower_slot {D : Domain} {r v : Nat} (hr : r ∈ D.user) (hv : v < 2 ^ 47) :
    idxPml4 v ∈ D.slotsOf r := by
  refine user_slot hr ?_
  simp only [idxPml4]
  omega

/-- The pages of the lower half have the positions of their addresses. -/
theorem vaPath_page_inj {v n : Nat} (hv : v < 2 ^ 47) (hn : n < 2 ^ 35)
    (h : vaPath (n * pageSize) = vaPath v) : n = v / pageSize := by
  have hvpn := vaPath_inj h
  simp only [pageSize] at *
  omega

/-- An update of the entry of one page that leaves the frames of the other pages
alone is an update of the view. -/
theorem space_update {D : Domain} {s s' : VmmState} (hr : s.cr3 ∈ D.user) (hcr : s'.cr3 = s.cr3)
    {v : Nat} (hv : v < 2 ^ 47) {o : Option Nat} (hlaw : LeafLaw D s.cr3 (vaPath v) o s s')
    (hframes : ∀ σ e, Pos D s.cr3 σ → σ.length = 4 → σ ≠ vaPath v → look s.mem s.cr3 σ = some e →
      ∀ w, alignDown w = ptePage e → s'.mem w = s.mem w) :
    space s' = Function.update (space s) (v / pageSize) (o.map (pageOf s'.mem)) := by
  funext n
  by_cases hn : n < 2 ^ 35
  · have hnlt : n * pageSize < 2 ^ 47 := by
      simp only [pageSize]
      omega
    have hpos := pos_vaPath (Or.inl hr) (lower_slot hr hnlt)
    have hlook := hlaw s.cr3 _ hpos rfl
    by_cases hnv : n = v / pageSize
    · subst hnv
      have hpath : vaPath (v / pageSize * pageSize) = vaPath v := by
        refine vaPath_congr ?_
        simp only [pageSize]
        omega
      rw [Function.update_self, space, if_pos hn, hcr, hlook, if_pos ⟨rfl, hpath⟩]
    · have hne : vaPath (n * pageSize) ≠ vaPath v := fun heq => hnv (vaPath_page_inj hv hn heq)
      rw [if_neg fun hc => hne hc.2] at hlook
      rw [Function.update_of_ne hnv, space, space, if_pos hn, if_pos hn, hcr, hlook]
      cases he : look s.mem s.cr3 (vaPath (n * pageSize)) with
      | none => rfl
      | some e =>
          simp only [Option.map_some, Option.some.injEq]
          exact pageOf_congr (hframes _ e hpos rfl hne he)
  · have hnv : n ≠ v / pageSize := by
      simp only [pageSize]
      omega
    rw [Function.update_of_ne hnv, space, space, if_neg hn, if_neg hn]

theorem space_same {D : Domain} {s s' : VmmState} (hr : s.cr3 ∈ D.user) (hcr : s'.cr3 = s.cr3)
    (hsame : SameLeaves D s s') (hkept : DataKept D ∅ s s') : space s' = space s := by
  funext n
  by_cases hn : n < 2 ^ 35
  · have hnlt : n * pageSize < 2 ^ 47 := by
      simp only [pageSize]
      omega
    have hpos := pos_vaPath (Or.inl hr) (lower_slot hr hnlt)
    rw [space, space, if_pos hn, if_pos hn, hcr, hsame _ _ hpos rfl]
    cases he : look s.mem s.cr3 (vaPath (n * pageSize)) with
    | none => rfl
    | some e =>
        simp only [Option.map_some, Option.some.injEq]
        refine pageOf_congr fun w hw => hkept w ?_
        exact Or.inr ⟨_, _, e, hpos, rfl, he, hw⟩
  · rw [space, space, if_neg hn, if_neg hn]

namespace Running

variable {D : Domain} {R : Set Nat} {s : VmmState}

theorem slot (h : Running D R s) {v : Nat} (hv : v < 2 ^ 47) : idxPml4 v ∈ D.slotsOf s.cr3 :=
  lower_slot h.user hv

theorem of_change (h : Running D R s) {s' : VmmState} {L L' : List Nat}
    (hR : region D s L ∅ s.cr3 = R) (hc : Change D s.cr3 s L ∅ s' L' ∅)
    (hu : UserTables D s' s.cr3) : Running D R s' := by
  refine ⟨by rw [hc.cr3]; exact h.user, ⟨L', hc.inv, ?_⟩, by rw [hc.cr3]; exact hu,
    hc.kernelCr3.trans h.kernel⟩
  rw [hc.cr3, hc.region, hR]

/-- Unmapping a page. -/
theorem unmap (h : Running D R s) {v : Nat} (hmod : v % pageSize = 0) (hv : v < 2 ^ 47) :
    ∃ s', vmmUnmapPageAndFree s v = (true, s') ∧ Running D R s' ∧ s'.cr3 = s.cr3 ∧
      space s' = Function.update (space s) (v / pageSize) none := by
  obtain ⟨L, hinv, hR⟩ := h.forest
  have halign := alignDown_of_mod hmod
  have hslot : idxPml4 (alignDown v) ∈ D.slotsOf s.cr3 := by
    rw [halign]
    exact h.slot hv
  obtain ⟨s', L', heq, hc, hlaw, hsh⟩ := hinv.unmapPageAndFreeIn (Or.inl h.user) v hslot
  rw [halign] at hlaw
  refine ⟨s', heq, h.of_change hR hc (h.rights.of_shrinks hsh), hc.cr3, ?_⟩
  refine space_update h.user hc.cr3 hv hlaw fun σ e hσ hfour hne he w hw => ?_
  have hframe := hinv.unmapPageAndFreeIn_frames (Or.inl h.user) v hslot hσ hfour
    (fun _ => by rwa [halign]) he hw
  rwa [heq] at hframe

/-- Mapping a fresh page where nothing is mapped. -/
theorem mapZeroed (h : Running D R s) {v : Nat} (hmod : v % pageSize = 0) (hv : v < 2 ^ 47)
    {flags : Nat} (hflags : flags &&& vmmUser ≠ 0) (hfree : space s (v / pageSize) = none) :
    (∃ s', Syscall.mapZeroed s v flags = (false, s') ∧ Running D R s' ∧ s'.cr3 = s.cr3 ∧
        space s' = space s) ∨
      ∃ s', Syscall.mapZeroed s v flags = (true, s') ∧ Running D R s' ∧ s'.cr3 = s.cr3 ∧
        space s' = Function.update (space s) (v / pageSize) (some (zeroedPage flags)) := by
  obtain ⟨L, hinv, hR⟩ := h.forest
  have hr : s.cr3 ∈ D.user ∨ s.cr3 = D.kernel := Or.inl h.user
  have hslot := h.slot hv
  have hkept := mapZeroed_dataKept hinv hr hmod hslot flags
  have hrights := mapZeroed_userTables hinv hr hmod hslot hflags h.rights
  rw [space_none_iff hv] at hfree
  rcases mapZeroed_spec hinv hr hmod hslot flags with
    ⟨s', L', heq, hc, hsame⟩ | ⟨s', L', p, heq, hin, hc, hlaw, hzero⟩
  · rw [heq] at hkept hrights
    exact Or.inl ⟨s', heq, h.of_change hR hc hrights, hc.cr3, space_same h.user hc.cr3 hsame hkept⟩
  · rw [heq] at hkept hrights
    rw [frameAt_none hfree, Set.union_empty] at hc
    refine Or.inr ⟨s', heq, h.of_change hR hc hrights, hc.cr3, ?_⟩
    have hupd := space_update h.user hc.cr3 hv hlaw fun σ e hσ hfour _ he w hw =>
      hkept w (Or.inr ⟨_, σ, e, hσ, hfour, he, hw⟩)
    have hpmod := hinv.pmm.mod_of_mem_freeSet hin
    have hplt := hinv.lt_of_free hin
    have hpage : pageOf s'.mem (p ||| makePteFlags flags) = zeroedPage flags := by
      have hpte : ptePage (p ||| makePteFlags flags) = p := by
        have hspec := (leaf_spec p flags).2
        rwa [ptePage_of_page hpmod hplt] at hspec
      simp only [pageOf, zeroedPage, pteFlags_leaf hpmod hplt, hpte, Page.mk.injEq, true_and]
      funext o
      split
      · next ho =>
          have hword : (p + o) / 8 * 8 = p + 8 * (o / 8) := by
            simp only [pageSize] at hpmod
            omega
          have hentry := hzero (o / 8) (by simp only [pageSize] at ho; omega)
          rw [entry] at hentry
          rw [physByte, hword, hentry, Nat.zero_div]
          rfl
      · rfl
    rw [hupd, Option.map_some, hpage]

/-- `vmm_translate` finds the frames of the mapped pages, and no frame is at 0. -/
theorem translate (h : Running D R s) {v : Nat} (hv : v < 2 ^ 47) :
    (space s (v / pageSize) = none ∧ vmmTranslate s v = 0) ∨
      ∃ e, look s.mem s.cr3 (vaPath v) = some e ∧
        space s (v / pageSize) = some (pageOf s.mem e) ∧
        vmmTranslate s v = ptePage e + v % pageSize ∧ ptePage e ≠ 0 := by
  obtain ⟨L, hinv, -⟩ := h.forest
  have htr : vmmTranslate s v = _ := hinv.translateIn (Or.inl h.user) (h.slot hv)
  rw [space_of_lt hv, htr]
  cases he : look s.mem s.cr3 (vaPath v) with
  | none => exact Or.inl ⟨rfl, rfl⟩
  | some e =>
      obtain ⟨-, hmin, -⟩ := hinv.used _ _ e (pos_vaPath (Or.inl h.user) (h.slot hv))
        (Or.inl h.user) he
      refine Or.inr ⟨e, rfl, rfl, rfl, ?_⟩
      simp only [minPhys] at hmin
      omega

/-- Giving a mapped page other flags. -/
theorem protect (h : Running D R s) {v : Nat} (hmod : v % pageSize = 0) (hv : v < 2 ^ 47)
    {flags : Nat} (hflags : flags &&& vmmUser ≠ 0) {pg : Page}
    (hpg : space s (v / pageSize) = some pg) :
    alignDown (vmmTranslate s v) ≠ 0 ∧
      ∃ s', vmmMapPage s v (alignDown (vmmTranslate s v)) flags = (true, s') ∧ Running D R s' ∧
        s'.cr3 = s.cr3 ∧ space s' =
          Function.update (space s) (v / pageSize) (some { pg with flags := makePteFlags flags }) := by
  obtain ⟨L, hinv, hR⟩ := h.forest
  rcases h.translate hv with ⟨hnone, -⟩ | ⟨e, he, hsp, htr, hne⟩
  · rw [hpg] at hnone
    cases hnone
  · rw [hpg, Option.some.injEq] at hsp
    subst hsp
    rw [htr, hmod, Nat.add_zero, alignDown_of_mod (ptePage_mod e)]
    obtain ⟨s', heq, hc, hlaw, hu, hkept⟩ := hinv.mapPageInto_mapped (Or.inl h.user) h.rights
      (h.slot hv) he hflags
    refine ⟨hne, s', ?_, h.of_change hR hc hu, hc.cr3, ?_⟩
    · rw [vmmMapPage, alignDown_of_mod hmod]
      exact heq
    · have hupd := space_update h.user hc.cr3 hv hlaw fun σ a hσ hfour _ ha w hw =>
        hkept w (Or.inr ⟨_, σ, a, hσ, hfour, ha, hw⟩)
      have hpte : ptePage (ptePage e ||| makePteFlags flags) = ptePage e := by
        have hspec := (leaf_spec (ptePage e) flags).2
        rwa [ptePage_of_page (ptePage_mod e) (ptePage_lt e)] at hspec
      have hbytes : pageOf s'.mem e = pageOf s.mem e := pageOf_congr fun w hw =>
        hkept w (Or.inr ⟨_, _, e, pos_vaPath (Or.inl h.user) (h.slot hv), rfl, he, hw⟩)
      rw [hupd, Option.map_some, ← hbytes]
      simp only [pageOf, hpte, pteFlags_leaf (ptePage_mod e) (ptePage_lt e)]

/-- Storing to the frame of a mapped page. -/
theorem writeFrame (h : Running D R s) {v : Nat} (hv : v < 2 ^ 47) {e : Nat}
    (he : look s.mem s.cr3 (vaPath v) = some e) {mem : Nat → Nat}
    (hmem : ∀ w, alignDown w ≠ ptePage e → mem w = s.mem w) :
    Running D R (s.withMem mem) ∧ space (s.withMem mem) =
      Function.update (space s) (v / pageSize) (some (pageOf mem e)) := by
  obtain ⟨L, hinv, hR⟩ := h.forest
  have hpos := pos_vaPath (Or.inl h.user) (h.slot hv)
  obtain ⟨hc, hlook⟩ := hinv.writeFrame hpos rfl he hmem
  refine ⟨h.of_change hR hc (h.rights.congr fun π hπ => hlook _ π hπ), ?_⟩
  have hlaw : LeafLaw D s.cr3 (vaPath v) (some e) s (s.withMem mem) := by
    intro r' σ hσ _
    rw [withMem_mem, hlook r' σ hσ]
    split
    · next heq => rw [heq.1, heq.2, he]
    · rfl
  have hcr : (s.withMem mem).cr3 = s.cr3 := rfl
  refine space_update h.user hcr hv hlaw fun σ a hσ hfour hne ha w hw => ?_
  refine hmem w fun heq => hne ?_
  exact (hinv.apart _ σ _ (vaPath v) a e hσ hpos ha he (hw.symm.trans heq)).2

/-- The process may use a page as its flags say. -/
theorem userPageOk (h : Running D R s) {v : Nat} (hv : v < 2 ^ 47) (write : Bool) :
    vmmUserPageOk s v write =
      match look s.mem s.cr3 (vaPath v) with
      | none => false
      | some e => entryOk e write := by
  obtain ⟨L, hinv, -⟩ := h.forest
  exact hinv.userPageOk (Or.inl h.user) h.rights (h.slot hv) write

end Running

end FiFi.Syscall
