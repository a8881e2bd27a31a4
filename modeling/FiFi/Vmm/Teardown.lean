import FiFi.Vmm.Built
import FiFi.Vmm.FrameLaw

/-!
# The life of a page map

A process gets a new page map and frames that are taken from the allocator and
mapped at different pages of the lower half. A call that finds no page for a table
fails; the tables it has made by then stay in the map, and the frame stays with
the caller.

In the end `vmm_destroy_user_pagemap` gives back the frames that were mapped and
all tables of the map, each once, and the allocator has the free pages that it had
before, up to the frames the caller had or still has.
-/

namespace FiFi.Vmm

open Pmm LinkedList RadixForest StateMachine

/-- A page map while it is filled. `taken` are the frames the caller has and has not
mapped, `mapped` the pages with their frames. -/
structure Build where
  vmm : VmmState
  root : Nat
  taken : List Nat
  mapped : List (Nat × Nat)

inductive BuildAct
  | alloc
  | giveBack (phys : Nat)
  | map (virt phys flags : Nat)
  deriving DecidableEq, Repr

def buildStep (m : Build) : BuildAct → Build
  | .alloc =>
      let r := allocPage m.vmm
      if r.1 = 0 then { m with vmm := r.2 } else { m with vmm := r.2, taken := r.1 :: m.taken }
  | .giveBack phys =>
      { m with vmm := freePage m.vmm phys, taken := m.taken.filter (· ≠ phys) }
  | .map virt phys flags =>
      let r := vmmMapPageInto m.vmm m.root virt phys flags
      if r.1 then
        { m with
          vmm := r.2
          taken := m.taken.filter (· ≠ phys)
          mapped := (pageNumber virt, phys) :: m.mapped }
      else { m with vmm := r.2 }

/-- A frame is mapped at a page of the lower half that is not mapped yet. -/
def BuildOk (m : Build) : BuildAct → Prop
  | .alloc => True
  | .giveBack phys => phys ∈ m.taken
  | .map virt phys _ =>
      phys ∈ m.taken ∧ idxPml4 virt < 256 ∧ pageNumber virt ∉ m.mapped.map Prod.fst

/-- A new page map, for a caller that has the frames `taken`. -/
def Build.start (s : VmmState) (taken : List Nat) : Build where
  vmm := (vmmCreateUserPagemap s).2
  root := (vmmCreateUserPagemap s).1
  taken := taken
  mapped := []

/-- The tables of a page map: the PML4 and the PDPT, PD and PT pages below it. -/
def mapTables (mem : Nat → Nat) (r : Nat) : Set Nat :=
  {t | ∃ π e, LowerPath π ∧ π.length ≤ 3 ∧ look mem r π = some e ∧ t = ptePage e}

/-- The tables of the kernel half are where they were, with the same entries. -/
def SameHalf (s s' : VmmState) : Prop :=
  ∀ π t, HalfPath π → tableAt s.mem s.kernelCr3 π = some t →
    tableAt s'.mem s'.kernelCr3 π = some t ∧ ∀ i < 512, entry s'.mem t i = entry s.mem t i

/-! ### Filling a map -/

/-- A page that is held may be left out of account. -/
theorem VmmInv.mono {D : Domain} {s : VmmState} {L : List Nat} {H H' : Set Nat}
    (h : VmmInv D s L H) (hsub : H' ⊆ H) : VmmInv D s L H' where
  pmm := h.pmm
  stop_le := h.stop_le
  apart := h.apart
  root := h.root
  tables := h.tables
  used := h.used
  kernel := h.kernel
  held := fun p hp => h.held p (hsub hp)
  held_apart := fun r π e hπ he hp => h.held_apart r π e hπ he (hsub hp)

/-- What holds while the page map at `r` is filled, in a domain that has it. `R` are the
pages the allocator and the caller had at the start, in the memory `mem`. -/
structure Building (D : Domain) (r : Nat) (R : Set Nat) (mem : Nat → Nat) (m : Build)
    (L : List Nat) : Prop where
  inv : VmmInv D m.vmm L {p | p ∈ m.taken}
  user : r ∈ D.user
  root : m.root = r
  kernelCr3 : m.vmm.kernelCr3 = D.kernel
  region : region D m.vmm L {p | p ∈ m.taken} r = R
  same : ∀ w, alignDown w ∉ R → m.vmm.mem w = mem w
  lower : ∀ q ∈ m.mapped, ∃ v, idxPml4 v < 256 ∧ pageNumber v = q.1
  leaf : ∀ v p, idxPml4 v < 256 →
    (p ∈ frameAt m.vmm.mem r (vaPath v) ↔ (pageNumber v, p) ∈ m.mapped)

theorem taken_filter (taken : List Nat) (p : Nat) :
    {q | q ∈ taken.filter (· ≠ p)} = {q | q ∈ taken} \ {p} := by
  ext q
  simp

variable {D : Domain} {r : Nat} {R : Set Nat} {mem : Nat → Nat} {m : Build} {L : List Nat}

/-- A change of the page map that leaves the frames as they are. -/
theorem Building.change (h : Building D r R mem m L) {s' : VmmState} {L' taken : List Nat}
    (hc : Change D r m.vmm L {p | p ∈ m.taken} s' L' {p | p ∈ taken})
    (hleaf : SameLeaves D m.vmm s') :
    Building D r R mem { m with vmm := s', taken := taken } L' where
  inv := hc.inv
  user := h.user
  root := h.root
  kernelCr3 := hc.kernelCr3.trans h.kernelCr3
  region := hc.region.trans h.region
  same := fun w hw => (hc.frame w fun hin => hw (h.region ▸ hin.1)).trans (h.same w hw)
  lower := h.lower
  leaf := fun v p hv => by
    rw [← h.leaf v p hv, frameAt, frameAt,
      hleaf r _ (pos_vaPath (Or.inl h.user) (user_slot h.user hv)) rfl]

/-- A frame is mapped. -/
theorem Building.map (h : Building D r R mem m L) {virt phys flags : Nat} {s' : VmmState}
    {L' : List Nat} (hv : idxPml4 virt < 256) (hp : phys ∈ m.taken)
    (hnew : pageNumber virt ∉ m.mapped.map Prod.fst)
    (hc : Change D r m.vmm L {p | p ∈ m.taken} s' L'
      ({p | p ∈ m.taken} \ {phys} ∪ frameAt m.vmm.mem r (vaPath virt)))
    (hlaw : LeafLaw D r (vaPath virt) (some (phys ||| makePteFlags flags)) m.vmm s') :
    Building D r R mem { m with
      vmm := s'
      taken := m.taken.filter (· ≠ phys)
      mapped := (pageNumber virt, phys) :: m.mapped } L' := by
  have hempty : frameAt m.vmm.mem r (vaPath virt) = ∅ := by
    rw [Set.eq_empty_iff_forall_notMem]
    exact fun p hin => hnew (List.mem_map_of_mem ((h.leaf virt p hv).1 hin))
  rw [hempty, Set.union_empty, ← taken_filter] at hc
  have hpage : ptePage (phys ||| makePteFlags flags) = phys := by
    obtain ⟨hmod, -, hend, -⟩ := h.inv.held phys hp
    have hstop := h.inv.stop_le
    have hpp : ptePage phys = phys := ptePage_of_page hmod (by simp only [pageSize] at *; omega)
    have hspec := (leaf_spec phys flags).2
    rwa [hpp] at hspec
  refine ⟨hc.inv, h.user, h.root, hc.kernelCr3.trans h.kernelCr3, hc.region.trans h.region,
    fun w hw => (hc.frame w fun hin => hw (h.region ▸ hin.1)).trans (h.same w hw),
    ?_, fun v p hv' => ?_⟩
  · intro q hq
    rcases List.mem_cons.1 hq with rfl | hq
    · exact ⟨virt, hv, rfl⟩
    · exact h.lower q hq
  · have hlook := hlaw r _ (pos_vaPath (Or.inl h.user) (user_slot h.user hv')) rfl
    rw [List.mem_cons, Prod.mk.injEq]
    by_cases heq : pageNumber v = pageNumber virt
    · rw [if_pos ⟨rfl, vaPath_eq_iff.2 heq⟩] at hlook
      rw [frameAt_some hlook, hpage, heq, Set.mem_singleton_iff]
      refine ⟨fun hpp => Or.inl ⟨rfl, hpp⟩, fun hor => ?_⟩
      rcases hor with ⟨-, hpp⟩ | hin
      · exact hpp
      · exact absurd (List.mem_map_of_mem hin) hnew
    · rw [if_neg fun hc' => heq (vaPath_eq_iff.1 hc'.2)] at hlook
      rw [frameAt, hlook, ← h.leaf v p hv', frameAt]
      exact ⟨Or.inr, fun hor => hor.resolve_left fun hc' => heq hc'.1⟩

/-- One step of filling a map. -/
theorem Building.step (h : Building D r R mem m L) {act : BuildAct} (hok : BuildOk m act) :
    ∃ L', Building D r R mem (buildStep m act) L' := by
  cases act with
  | alloc =>
      unfold buildStep
      rcases h.inv.alloc r with ⟨heq, -⟩ | ⟨hne, -, hmem, L', hc, -⟩
      · rw [heq]
        exact ⟨L, h⟩
      · dsimp only
        rw [if_neg hne]
        have htaken : insert (allocPage m.vmm).1 {p | p ∈ m.taken} =
            {p | p ∈ (allocPage m.vmm).1 :: m.taken} := by
          ext p
          simp
        rw [htaken] at hc
        exact ⟨L', h.change hc fun _ _ _ _ => by rw [hmem]⟩
  | giveBack phys =>
      obtain ⟨hc, -, -, hlook⟩ := h.inv.free r (Or.inl h.user) hok
      rw [← taken_filter] at hc
      exact ⟨_, h.change hc fun r' σ hσ _ => hlook r' σ hσ⟩
  | map virt phys flags =>
      obtain ⟨hp, hv, hnew⟩ := hok
      rcases h.inv.mapPageInto (Or.inl h.user) (user_slot h.user hv) hp flags with
        ⟨s', L', heq, hc, hleaf, -⟩ | ⟨s', L', heq, hc, hlaw⟩
      · rw [← h.root] at heq
        simp only [buildStep, heq, Bool.false_eq_true, if_false]
        exact ⟨L', h.change hc hleaf⟩
      · rw [← h.root] at heq
        simp only [buildStep, heq, if_true]
        exact ⟨L', h.map hv hp hnew hc hlaw⟩

theorem Building.run (h : Building D r R mem m L) {acts : List BuildAct}
    (hok : AllSteps buildStep BuildOk m acts) :
    ∃ L', Building D r R mem (StateMachine.run buildStep m acts) L' :=
  inv_run (fun m => ∃ L, Building D r R mem m L) (fun _ _ hm hok => hm.elim fun _ hb => hb.step hok)
    ⟨L, h⟩ hok

/-! ### The start and the end -/

/-- A new page map has one table and no frames. -/
theorem Building.start {H : Set Nat} {s : VmmState} (hb : Built D H s) {F : List Nat}
    (hF : ∀ p ∈ F, p ∈ H) (hne : (vmmCreateUserPagemap s).1 ≠ 0) :
    ∃ hk L, Building (D.insert (vmmCreateUserPagemap s).1 hk) (vmmCreateUserPagemap s).1
      (freePhys s.pmm ∪ {p | p ∈ F}) s.mem (Build.start s F) L := by
  obtain ⟨hk, hk0, -, L, h⟩ := hb.inv
  have h : VmmInv D s L {p | p ∈ F} := h.mono hF
  rcases h.createUserPagemap hk hk0 with ⟨heq, -⟩ |
    ⟨dst, s', L', hdk, heq, -, hin, hinv, hfree, -, -, hk', hmem, hlow, -⟩
  · rw [heq] at hne
    exact absurd rfl hne
  have hstart : Build.start s F = ⟨s', dst, F, []⟩ := by rw [Build.start, heq]
  rw [hstart]
  simp only [heq]
  have huser : dst ∈ (D.insert dst hdk).user := Set.mem_insert dst D.user
  have hpage := hinv.root dst (Or.inl huser)
  have hnone : ∀ π, Pos (D.insert dst hdk) dst π → π ≠ [] → look s'.mem dst π = none :=
    fun π hπ hne' => VmmInv.look_of_lower_empty (D := D.insert dst hdk) hpage hdk
      (fun i hi => by rw [hlow i hi]; decide) hπ hne'
  have hregion : Vmm.region (D.insert dst hdk) s' L' {p | p ∈ F} dst =
      freePhys s.pmm ∪ {p | p ∈ F} := by
    rw [Vmm.region, hinv.tree_of_empty huser hnone, hfree, freePhys_eq h.pmm,
      Set.sdiff_union_self, Set.union_eq_self_of_subset_right (Set.singleton_subset_iff.2 hin)]
  refine ⟨hdk, L', hinv, huser, rfl, hk'.trans hk, hregion, fun w hw => hmem w ?_,
    fun q hq => absurd hq (List.not_mem_nil), fun v p hv => ?_⟩
  · rintro rfl
    rw [freePhys_eq h.pmm] at hw
    exact hw (Or.inl hin)
  · have hpos := pos_vaPath (Or.inl huser) (user_slot huser hv)
    rw [frameAt_none (hnone _ hpos (by simp [vaPath]))]
    simp

theorem foldl_cursor {f : VmmState → Nat → VmmState}
    (hf : ∀ s i, (f s i).pmm.cursor = s.pmm.cursor) (l : List Nat) (s : VmmState) :
    (l.foldl f s).pmm.cursor = s.pmm.cursor := by
  induction l generalizing s with
  | nil => rfl
  | cons i l ih => exact (ih _).trans (hf s i)

theorem freePage_cursor (s : VmmState) (p : Nat) : (freePage s p).pmm.cursor = s.pmm.cursor := by
  simp only [freePage, pmmFreePage]
  split_ifs <;> rfl

theorem destroyEntries_cursor {inner : Nat → VmmState → VmmState}
    (hinner : ∀ p s, (inner p s).pmm.cursor = s.pmm.cursor) (n t : Nat) (s : VmmState) :
    (destroyEntries inner n t s).pmm.cursor = s.pmm.cursor := by
  refine foldl_cursor (fun s i => ?_) _ s
  dsimp only
  split
  · exact (freePage_cursor _ _).trans (hinner _ s)
  · rfl

/-- Pages that are given back go to the free list. -/
theorem vmmDestroyUserPagemap_cursor (s : VmmState) (r : Nat) :
    (vmmDestroyUserPagemap s r).pmm.cursor = s.pmm.cursor := by
  have hbelow : ∀ depth p s, (destroyBelow depth p s).pmm.cursor = s.pmm.cursor := by
    intro depth
    induction depth with
    | zero => exact fun _ _ => rfl
    | succ depth ih =>
        intro p s
        rw [destroyBelow]
        exact destroyEntries_cursor ih 512 p s
  unfold vmmDestroyUserPagemap
  split_ifs
  · rfl
  · rfl
  · rw [freePage_cursor, destroyEntries_cursor (hbelow 3)]

/-- A page of the map is a frame that was mapped, or a table. -/
theorem Building.mem_tree (h : Building D r R mem m L) (p : Nat) :
    p ∈ tree D m.vmm.mem r ↔ p ∈ m.mapped.map Prod.snd ∨ p ∈ mapTables m.vmm.mem r := by
  constructor
  · rintro ⟨π, e, hπ, he, rfl⟩
    by_cases hlen : π.length ≤ 3
    · exact Or.inr ⟨π, e, (pos_iff_lowerPath h.user).1 hπ, hlen, he, rfl⟩
    · obtain ⟨hle, hlt, hhead⟩ := (pos_iff_lowerPath h.user).1 hπ
      have hpath := vaPath_pathVal (show π.length = 4 by omega) hlt
      rw [← hpath] at he hhead
      have hv := hhead _ rfl
      exact Or.inl (List.mem_map_of_mem ((h.leaf _ _ hv).1 ⟨e, he, rfl⟩))
  · rintro (hin | ⟨π, e, hπ, -, he, rfl⟩)
    · obtain ⟨⟨n, q⟩, hq, rfl⟩ := List.mem_map.1 hin
      obtain ⟨v, hv, rfl⟩ := h.lower _ hq
      obtain ⟨e, he, hqe⟩ := (h.leaf v q hv).2 hq
      exact ⟨_, e, pos_vaPath (Or.inl h.user) (user_slot h.user hv), he, hqe⟩
    · exact ⟨π, e, (pos_iff_lowerPath h.user).2 hπ, he, rfl⟩

/-- `vmm_destroy_user_pagemap` puts the pages of the map on the free list. -/
theorem Building.destroy (h : Building D r R mem m L) :
    ∃ fs, PmmInv (vmmDestroyUserPagemap m.vmm r).pmm (fs ++ L) ∧ fs.Nodup ∧
      (∀ p, p ∈ fs ↔ p ∈ tree D m.vmm.mem r) ∧
      freePhys (vmmDestroyUserPagemap m.vmm r).pmm = R \ {p | p ∈ m.taken} ∧
      (vmmDestroyUserPagemap m.vmm r).kernelCr3 = D.kernel ∧
      ∀ w, alignDown w ∉ R → (vmmDestroyUserPagemap m.vmm r).mem w = mem w := by
  obtain ⟨fs, hinv, hfree, -, hker, hstop, hmem⟩ := h.inv.destroyUserPagemap h.user h.kernelCr3
  have hnodup := List.nodup_append.1 hinv.pmm.nodup
  have hnot : ∀ p ∈ tree D m.vmm.mem r, p ∉ freeSet m.vmm.pmm L := by
    rintro p ⟨π, e, hπ, he, rfl⟩
    exact h.inv.not_free hπ he
  refine ⟨fs, hinv.pmm, hnodup.1, fun p => ⟨fun hp => ?_, fun hp => ?_⟩, ?_,
    hker.trans h.kernelCr3, fun w hw => ?_⟩
  · have hin : p ∈ freeSet m.vmm.pmm L ∪ tree D m.vmm.mem r := by
      rw [← hfree]
      exact Or.inl (List.mem_append_left _ hp)
    rcases hin with (hL | hpage) | htree
    · exact absurd rfl (hnodup.2.2 p hp p hL)
    · have hlt := (hinv.pmm.listed p (List.mem_append_left _ hp)).2.2
      rw [vmmDestroyUserPagemap_cursor] at hlt
      have hge : m.vmm.pmm.cursor ≤ p := hpage.2.1
      omega
    · exact htree
  · have hin : p ∈ freeSet (vmmDestroyUserPagemap m.vmm r).pmm (fs ++ L) := by
      rw [hfree]
      exact Or.inr hp
    rcases hin with hlist | hpage
    · exact (List.mem_append.1 hlist).resolve_right fun hL => hnot p hp (Or.inl hL)
    · refine absurd (Or.inr ?_) (hnot p hp)
      rw [pages, vmmDestroyUserPagemap_cursor, hstop] at hpage
      exact hpage
  · rw [freePhys_eq hinv.pmm, hfree, ← h.region, Vmm.region]
    ext p
    constructor
    · rintro (hp | ⟨π, e, hπ, he, rfl⟩)
      · exact ⟨Or.inl (Or.inl hp), fun ht => (h.inv.held p ht).2.2.2 hp⟩
      · exact ⟨Or.inl (Or.inr ⟨π, e, hπ, he, rfl⟩), h.inv.held_apart r π e hπ he⟩
    · rintro ⟨hp | ht, hnt⟩
      · exact hp
      · exact absurd ht hnt
  · exact (hmem w (by rwa [h.region])).trans (h.same w hw)

/-! ### The kernel half -/

/-- Where the tables of the kernel half have no pages, memory may change. -/
theorem sameHalf_of_same {s s' : VmmState} {R : Set Nat} (hroot : ptePage s.kernelCr3 = s.kernelCr3)
    (hker : s'.kernelCr3 = s.kernelCr3) (hmem : ∀ w, alignDown w ∉ R → s'.mem w = s.mem w)
    (hR : ∀ π t, HalfPath π → tableAt s.mem s.kernelCr3 π = some t → t ∉ R) :
    (∀ π, HalfPath π → tableAt s'.mem s'.kernelCr3 π = tableAt s.mem s.kernelCr3 π) ∧
      ∀ π t, HalfPath π → tableAt s.mem s.kernelCr3 π = some t →
        ∀ i < 512, entry s'.mem t i = entry s.mem t i := by
  have hentry : ∀ π t, HalfPath π → tableAt s.mem s.kernelCr3 π = some t →
      ∀ i < 512, entry s'.mem t i = entry s.mem t i := by
    intro π t hπ ht i hi
    have hmod : t % pageSize = 0 := by
      rcases List.eq_nil_or_concat π with rfl | ⟨σ, j, rfl⟩
      · obtain rfl : s.kernelCr3 = t := Option.some.inj ht
        rw [← hroot]
        exact ptePage_mod _
      · rw [List.concat_eq_append, tableAt_snoc] at ht
        obtain ⟨a, -, ha⟩ := Option.bind_eq_some_iff.1 ht
        obtain ⟨-, -, rfl⟩ := childOf_some.1 ha
        exact ptePage_mod _
    refine hmem _ ?_
    rw [alignDown_entry hmod hi]
    exact hR π t hπ ht
  refine ⟨fun π hπ => ?_, hentry⟩
  rw [hker]
  exact TablesInv.tableAt_congr halfPath_tables
    (fun σ j a hσ ha => congrArg childOf (hentry σ a hσ.init ha j (hσ.2.1 j (by simp)))) hπ

/-- A page map is created in a state the kernel builds, by a caller that has the frames
`F`, and filled by any calls. Destroying it gives back the frames that were mapped and
the tables of the map, each once, and nothing else. The tables of the kernel half stay as
they are. The free pages are those from before the map was created and the frames `F`,
without the frames that the caller still has. -/
theorem destroyUserPagemap_returns {D : Domain} {H : Set Nat} {s : VmmState} (hb : Built D H s)
    {F : List Nat} (hF : ∀ p ∈ F, p ∈ H)
    (hhalf : ∀ π t, HalfPath π → tableAt s.mem s.kernelCr3 π = some t →
      t ∉ freePhys s.pmm ∧ t ∉ F)
    (hne : (vmmCreateUserPagemap s).1 ≠ 0) {acts : List BuildAct}
    (hok : AllSteps buildStep BuildOk (Build.start s F) acts) :
    let m := StateMachine.run buildStep (Build.start s F) acts
    let s' := vmmDestroyUserPagemap m.vmm m.root
    (∃ fs L, PmmInv m.vmm.pmm L ∧ PmmInv s'.pmm (fs ++ L) ∧ fs.Nodup ∧
        ∀ p, p ∈ fs ↔ p ∈ m.mapped.map Prod.snd ∨ p ∈ mapTables m.vmm.mem m.root) ∧
      freePhys s'.pmm = (freePhys s.pmm ∪ {p | p ∈ F}) \ {p | p ∈ m.taken} ∧
      (F = [] → m.taken = [] → freePhys s'.pmm = freePhys s.pmm) ∧
      SameHalf s s' ∧ SameHalf m.vmm s' := by
  intro m s'
  obtain ⟨hk, L0, hstart⟩ := Building.start hb hF hne
  obtain ⟨L, h⟩ := hstart.run hok
  obtain ⟨hker, -, -, L1, hinv⟩ := hb.inv
  obtain ⟨fs, hpmm, hnodup, htree, hfree, hker', hmem⟩ := h.destroy
  have hroot : m.root = (vmmCreateUserPagemap s).1 := h.root
  have hs' : s' = vmmDestroyUserPagemap m.vmm (vmmCreateUserPagemap s).1 := by rw [← hroot]
  rw [← hs'] at hpmm hfree hker' hmem
  have hpage : ptePage s.kernelCr3 = s.kernelCr3 := by
    rw [hker]
    exact hinv.root _ (Or.inr rfl)
  have hR : ∀ π t, HalfPath π → tableAt s.mem s.kernelCr3 π = some t →
      t ∉ freePhys s.pmm ∪ {p | p ∈ F} :=
    fun π t hπ ht hin => hin.elim (hhalf π t hπ ht).1 (hhalf π t hπ ht).2
  obtain ⟨htable, hentry⟩ := sameHalf_of_same hpage (hker'.trans hker.symm) hmem hR
  obtain ⟨htable', hentry'⟩ := sameHalf_of_same hpage (h.kernelCr3.trans hker.symm) h.same hR
  refine ⟨⟨fs, L, h.inv.pmm, hpmm, hnodup, fun p => ?_⟩, hfree, fun hnil hnone => ?_,
    fun π t hπ ht => ⟨(htable π hπ).trans ht, hentry π t hπ ht⟩, fun π t hπ ht => ?_⟩
  · rw [htree, hroot]
    exact h.mem_tree p
  · rw [hfree, hnone, hnil]
    simp
  · have ht' := (htable' π hπ).symm.trans ht
    exact ⟨(htable π hπ).trans ht', fun i hi =>
      (hentry π t hπ ht' i hi).trans (hentry' π t hπ ht' i hi).symm⟩

theorem directMaps_built : Built (.start 0x1000) ∅ directMaps := by
  have hmm : EndsBelow (2 ^ 52) memmap64M := by
    rintro entries ⟨rfl⟩ e he -
    obtain rfl : e = ⟨0, 0x4000000, 0⟩ := by simpa using he
    decide
  exact Built.start memmap64M 1 directMap 0x1000 0x1000 hmm (by decide) (by decide)
    (by decide) (by decide) (kernelReady_directMaps.tables.used [] 0x1000 halfPath_nil rfl)

/-- A page map with one frame is created and destroyed. -/
theorem destroyUserPagemap_returns_one :
    freePhys (vmmDestroyUserPagemap (StateMachine.run buildStep (Build.start directMaps [])
        [.alloc, .map 0x400000 0x1001000 7]).vmm
      (StateMachine.run buildStep (Build.start directMaps [])
        [.alloc, .map 0x400000 0x1001000 7]).root).pmm = freePhys directMaps.pmm := by
  have hok : AllSteps buildStep BuildOk (Build.start directMaps [])
      [.alloc, .map 0x400000 0x1001000 7] :=
    ⟨trivial, ⟨by decide, by decide, by decide⟩, trivial⟩
  exact (destroyUserPagemap_returns directMaps_built (fun p hp => absurd hp List.not_mem_nil)
    (fun π t hπ ht => ⟨kernelReady_directMaps.tables.used π t hπ ht, List.not_mem_nil⟩)
    (by decide) hok).2.2.1 rfl (by decide)

end FiFi.Vmm
