import FiFi.Syscall.Growth
import FiFi.Vmm.Hardware

/-!
# Isolation of the memory system calls

A memory system call should change the translation of addresses below
`FIFI_USER_TOP` in the page map of its caller, and nothing else. `SYS_MMAP`
keeps to this for all arguments. `SYS_MUNMAP` does not check its range, and
`SYS_BRK` trusts the recorded break when it shrinks, so both can be made to
unmap kernel pages. `MemCall.Safe` says for which arguments they cannot.
-/

namespace FiFi.Syscall

open Pmm Vmm RadixForest Loop

/-! ### What isolation means -/

/-- The addresses that have a translation at all. -/
def Canonical (v : Nat) : Prop := v < 2 ^ 47 ∨ (2 ^ 64 - 2 ^ 47 ≤ v ∧ v < 2 ^ 64)

/-- The tables the processor reads for the kernel's page map and for the upper
halves of the others are neither free nor part of a user tree. -/
def KernelApart (D : Domain) (s : VmmState) (L : List Nat) : Prop :=
  ∀ r v t, (r ∈ D.user ∧ 256 ≤ idxPml4 v) ∨ r = D.kernel → t ∈ hwTables s.mem r v →
    t ∉ freeSet s.pmm L ∧ ∀ r' ∈ D.user, t ∉ tree D s.mem r'

/-- A machine that runs a process. -/
def WellFormed (D : Domain) (s : VmmState) : Prop :=
  s.cr3 ∈ D.user ∧ ∃ L, VmmInv D s L ∅ ∧ KernelApart D s L

/-- The loaded page map translates the addresses from `FIFI_USER_TOP` on as
before, and the other page maps translate every address as before. -/
def Isolated (D : Domain) (s s' : VmmState) : Prop :=
  (∀ v, userTop ≤ v → Canonical v → hwTranslate s'.mem s.cr3 v = hwTranslate s.mem s.cr3 v) ∧
    ∀ r, r ∈ D.user ∨ r = D.kernel → r ≠ s.cr3 → ∀ v,
      hwTranslate s'.mem r v = hwTranslate s.mem r v

/-- The arguments with which a call keeps to the user part of memory. -/
def MemCall.Safe (u : UserVm) : MemCall → Prop
  | .brk newBrk =>
      newBrk.toNat = 0 ∨ alignUp newBrk.toNat ≥ userTop ∨ alignUp newBrk.toNat < pageSize ∨
        u.brk ≤ alignUp newBrk.toNat ∨ u.brk ≤ userTop
  | .mmap _ _ _ => True
  | .munmap addr length =>
      ∀ k < alignUp length.toNat / pageSize,
        (addr.toNat / pageSize + k) % 2 ^ 36 < userTop / pageSize

/-! ### Addresses -/

/-- The page of `FIFI_USER_TOP` is the last one of the lower half. -/
theorem vaPath_userTop_of_low {v : Nat} (hv : userTop ≤ v) (hcan : Canonical v)
    (hlow : idxPml4 v < 256) : vaPath v = vaPath userTop := by
  refine vaPath_congr ?_
  simp only [userTop, pageSize, idxPml4, Canonical] at *
  omega

theorem idxPml4_lt {v : Nat} (h : v / pageSize % 2 ^ 36 < userTop / pageSize) :
    idxPml4 v < 256 := by
  simp only [userTop, pageSize, idxPml4] at *
  omega

theorem hwTables_mod {mem : Nat → Nat} {r v t : Nat} (h : t ∈ hwTables mem r v) :
    t % pageSize = 0 := by
  unfold hwTables at h
  dsimp only at h
  split at h
  · simp at h
  · split at h
    · rw [List.mem_singleton.1 h]
      exact ptePage_mod _
    · split at h
      · simp only [List.mem_cons, List.not_mem_nil, or_false] at h
        rcases h with rfl | rfl
        · exact ptePage_mod _
        · exact ptePage_mod _
      · simp only [List.mem_cons, List.not_mem_nil, or_false] at h
        rcases h with rfl | rfl | rfl
        · exact ptePage_mod _
        · exact ptePage_mod _
        · exact ptePage_mod _

/-! ### Changes of the user half are isolated -/

/-- A change of the caller's page map that leaves the page of `FIFI_USER_TOP`
alone is isolated. -/
theorem isolated_of_change {D : Domain} {s s' : VmmState} {L L' : List Nat} {H' : Set Nat}
    (hrun : s.cr3 ∈ D.user) (h : VmmInv D s L ∅) (hk : KernelApart D s L)
    (hc : Change D s.cr3 s L ∅ s' L' H')
    (hleaf : look s'.mem s.cr3 (vaPath userTop) = look s.mem s.cr3 (vaPath userTop)) :
    Isolated D s s' := by
  have htables : ∀ r v, (r ∈ D.user ∧ 256 ≤ idxPml4 v) ∨ r = D.kernel →
      ∀ t ∈ hwTables s.mem r v, ∀ i < 512, entry s'.mem t i = entry s.mem t i := by
    intro r v hr t ht i hi
    obtain ⟨hfree, htree⟩ := hk r v t hr ht
    refine hc.frame _ fun hw => ?_
    rw [Writable, alignDown_entry (hwTables_mod ht) hi] at hw
    rcases hw.1 with (hin | hin) | hin
    · exact hfree hin
    · exact htree _ hrun hin
    · exact hin
  refine ⟨fun v hv hcan => ?_, fun r hr hne v => ?_⟩
  · by_cases hlow : idxPml4 v < 256
    · have hslot := user_slot hrun hlow
      have hpath := vaPath_userTop_of_low hv hcan hlow
      rw [hc.inv.hwTranslate (Or.inl hrun) hslot, h.hwTranslate (Or.inl hrun) hslot, hpath, hleaf]
    · refine hwTranslate_congr (hc.frame _ fun hw => ?_) (htables _ v (Or.inl ⟨hrun, by omega⟩))
      have hmod : s.cr3 % pageSize = 0 := by
        rw [← h.root _ (Or.inl hrun)]
        exact ptePage_mod _
      have hidx : idxPml4 v < 512 := Nat.mod_lt _ (by decide)
      rw [Writable, alignDown_entry hmod hidx, index_entry hmod hidx] at hw
      exact not_user_slot hrun (by omega) (hw.2 rfl)
  · have hmod : r % pageSize = 0 := by
      rw [← h.root r hr]
      exact ptePage_mod _
    have hidx : idxPml4 v < 512 := Nat.mod_lt _ (by decide)
    have hroot : entry s'.mem r (idxPml4 v) = entry s.mem r (idxPml4 v) := by
      refine hc.frame _ fun hw => ?_
      rw [Writable, alignDown_entry hmod hidx] at hw
      have hout := h.not_mem_region hne (pos_nil hr) (look_nil s.mem r)
      rw [h.root r hr] at hout
      exact hout hw.1
    rcases hr with hr | hr
    · by_cases hlow : idxPml4 v < 256
      · have hslot := user_slot hr hlow
        rw [hc.inv.hwTranslate (Or.inl hr) hslot, h.hwTranslate (Or.inl hr) hslot,
          hc.look_other h hne (pos_vaPath (Or.inl hr) hslot)]
      · exact hwTranslate_congr hroot (htables r v (Or.inl ⟨hr, by omega⟩))
    · exact hwTranslate_congr hroot (htables r v (Or.inr hr))

theorem idxPml4_userTop : idxPml4 userTop = 255 := by decide

theorem isolated_of_only {D : Domain} {s s' : VmmState} {L L' : List Nat} {H' : Set Nat}
    (hrun : s.cr3 ∈ D.user) (h : VmmInv D s L ∅) (hk : KernelApart D s L)
    (hc : Change D s.cr3 s L ∅ s' L' H') {V : Set (List Nat)}
    (honly : OnlyPages D s.cr3 V s s') (hV : vaPath userTop ∉ V) : Isolated D s s' := by
  refine isolated_of_change hrun h hk hc (honly _ _ ?_ rfl fun _ => hV)
  refine pos_vaPath (Or.inl hrun) (user_slot hrun ?_)
  rw [idxPml4_userTop]
  decide

/-! ### Sufficiency -/

theorem WellFormed.isolated_self {D : Domain} {s : VmmState} : Isolated D s s :=
  ⟨fun _ _ _ => rfl, fun _ _ _ _ => rfl⟩

/-- Growing below `FIFI_USER_TOP` is isolated. -/
theorem WellFormed.isolated_grow {D : Domain} {s : VmmState} (hwf : WellFormed D s)
    {start : Nat} (hmod : start % pageSize = 0) (stop : Nat) (hstop : stop ≤ userTop)
    (flags : Nat) : Isolated D s (mapZeroedRange s start stop flags).2 := by
  obtain ⟨hrun, L, h, hk⟩ := hwf
  have hslot : ∀ v, start ≤ v → v < stop → idxPml4 v ∈ D.slotsOf s.cr3 := by
    intro v _ hlt
    refine user_slot hrun ?_
    simp only [userTop, idxPml4] at *
    omega
  obtain ⟨s', L', H', rfl, hc, honly⟩ := mapZeroedRange_spec h (Or.inl hrun) hmod
    (by simp only [userTop] at hstop; omega) hslot flags
  refine isolated_of_only hrun h hk hc honly ?_
  rintro ⟨v, -, hlt, heq⟩
  have hvpn := vaPath_inj heq
  simp only [userTop, pageSize] at *
  omega

/-- Unmapping pages below `FIFI_USER_TOP` is isolated. -/
theorem WellFormed.isolated_unmap {D : Domain} {s : VmmState} (hwf : WellFormed D s)
    (virt size : Nat)
    (hsafe : ∀ k < rangePages virt size,
      rangePage virt k / pageSize % 2 ^ 36 < userTop / pageSize) :
    Isolated D s (vmmUnmapRangeAndFree s virt size).2 := by
  obtain ⟨hrun, L, h, hk⟩ := hwf
  obtain ⟨s', L', heq, hc, hcl, hzero⟩ := h.unmapRange (Or.inl hrun) virt size
    fun k hlt => user_slot hrun (idxPml4_lt (hsafe k hlt))
  rw [heq]
  by_cases hsize : size = 0
  · rw [hzero hsize]
    exact WellFormed.isolated_self
  · refine isolated_of_only hrun h hk hc
      ((hcl hsize).only (V := {σ | ∃ k < rangePages virt size, σ = vaPath (rangePage virt k)})
        fun k hlt => ⟨k, hlt, rfl⟩) ?_
    rintro ⟨k, hlt, heq'⟩
    have hvpn := vaPath_inj heq'
    have hs := hsafe k hlt
    simp only [userTop, pageSize] at *
    omega

/-- The pages of a page aligned range that does not wrap around at the top. -/
theorem rangePages_of_mod {virt size : Nat} (hv : virt % pageSize = 0)
    (hs : size % pageSize = 0) (hlt : size < 2 ^ 64) :
    rangePages virt size = size / pageSize := by
  simp only [rangePages, alignUp, alignDown, u64, pageSize] at *
  omega

theorem rangePage_vpn {virt k : Nat} :
    rangePage virt k / pageSize % 2 ^ 36 = (virt / pageSize + k) % 2 ^ 36 := by
  simp only [rangePage, u64, alignDown, pageSize]
  omega

theorem memCall_isolated {D : Domain} {s : VmmState} (hwf : WellFormed D s) {u : UserVm}
    {call : MemCall} (hsafe : call.Safe u) : Isolated D s (memCall s u call).2.1 := by
  cases call with
  | brk newBrk =>
      have hmod := alignUp_mod newBrk.toNat
      have hbrk := u.brk_page
      have hlt := u.brk_lt
      simp only [MemCall.Safe] at hsafe
      change Isolated D s (sysBrk s u newBrk).2.1
      unfold sysBrk
      split
      · exact WellFormed.isolated_self
      · next hne =>
          dsimp only
          split
          · exact WellFormed.isolated_self
          · next hrange =>
              rw [not_or] at hrange
              split
              · next hgrow =>
                  have hg := hwf.isolated_grow hbrk (alignUp newBrk.toNat) (by omega)
                    (vmmUser ||| vmmWrite ||| vmmNx)
                  rcases hm : mapZeroedRange s u.brk (alignUp newBrk.toNat)
                    (vmmUser ||| vmmWrite ||| vmmNx) with ⟨b, s'⟩
                  rw [hm] at hg
                  cases b
                  · exact hg
                  · exact hg
              · split
                · next hshrink =>
                    refine hwf.isolated_unmap _ _ fun k hk => ?_
                    have htop : u.brk ≤ userTop := by omega
                    rw [rangePages_of_mod hmod (by simp only [pageSize] at *; omega)
                      (by omega)] at hk
                    rw [rangePage_vpn]
                    simp only [userTop, pageSize] at *
                    omega
                · exact WellFormed.isolated_self
  | mmap hint length prot =>
      change Isolated D s (sysMmap s u hint length prot).2.1
      unfold sysMmap
      dsimp only
      split
      · exact WellFormed.isolated_self
      · split
        · exact WellFormed.isolated_self
        · next hlen hfit =>
            have htop : u64 (mmapVa u hint.toNat + alignUp length.toNat) ≤ userTop := by
              have hbase : userStackBase ≤ userTop := by decide
              omega
            have hg := hwf.isolated_grow (mmapVa_mod u hint.toNat) _ htop (mmapFlags prot.toNat)
            rcases hm : mapZeroedRange s (mmapVa u hint.toNat)
              (u64 (mmapVa u hint.toNat + alignUp length.toNat)) (mmapFlags prot.toNat)
              with ⟨b, s'⟩
            rw [hm] at hg
            cases b
            · exact hg
            · exact hg
  | munmap addr length =>
      change Isolated D s (sysMunmap s addr length).2
      unfold sysMunmap
      dsimp only
      split
      · exact WellFormed.isolated_self
      · refine hwf.isolated_unmap _ _ fun k hk => ?_
        rw [rangePages_of_mod (alignDown_mod _) (alignUp_mod _) (alignUp_lt _)] at hk
        rw [rangePage_vpn]
        have hs := hsafe k hk
        simp only [alignDown, pageSize] at *
        omega

/-! ### Necessity

A machine whose process has a single page mapped, at an arbitrary address. If
the address is in the upper half, the kernel's page map has it too. -/

/-- The pages in use: the two roots, three tables and a frame. -/
def pageAt (k : Nat) : Nat := minPhys + k * pageSize

/-- The entry at depth `k` on the way to the page; the root is at depth `0`. -/
def oneEntry (k : Nat) : Nat := if k = 0 then pageAt 1 else pageAt (k + 1) + 7

def oneMem (v w : Nat) : Nat :=
  if w = pageAt 0 + 8 * idxPml4 v ∧ 256 ≤ idxPml4 v then oneEntry 1
  else if w = pageAt 1 + 8 * idxPml4 v then oneEntry 1
  else if w = pageAt 2 + 8 * idxPdpt v then oneEntry 2
  else if w = pageAt 3 + 8 * idxPd v then oneEntry 3
  else if w = pageAt 4 + 8 * idxPt v then oneEntry 4
  else 0

def oneState (v : Nat) : VmmState where
  pmm :=
    { hhdm := 1
      cursor := pageAt 6
      stop := pageAt 6
      freeList := 0
      dma32Cursor := 0
      dma32Stop := 0
      totalPages := 6
      freePages := 0
      mem := oneMem v }
  cr3 := pageAt 1
  kernelCr3 := pageAt 0

def oneDomain : Domain where
  user := {pageAt 1}
  kernel := pageAt 0
  slots := ∅
  kernel_not_user := by decide

/-- The same machine with the whole page map of the process in the forest. -/
def wholeDomain : Domain where
  user := ∅
  kernel := pageAt 1
  slots := Set.univ
  kernel_not_user := fun h => h

theorem ptePage_oneEntry {k : Nat} (hk : k ≤ 4) : ptePage (oneEntry k) = pageAt (k + 1) := by
  have hcases : k = 0 ∨ k = 1 ∨ k = 2 ∨ k = 3 ∨ k = 4 := by omega
  rcases hcases with rfl | rfl | rfl | rfl | rfl <;> decide

theorem entry_oneMem {v i k : Nat} (hi : i < 512) (hk : k < 4) :
    entry (oneMem v) (pageAt (k + 1)) i =
      if some i = (vaPath v)[k]? then oneEntry (k + 1) else 0 := by
  have h1 : idxPml4 v < 512 := Nat.mod_lt _ (by decide)
  have h2 : idxPdpt v < 512 := Nat.mod_lt _ (by decide)
  have h3 : idxPd v < 512 := Nat.mod_lt _ (by decide)
  have h4 : idxPt v < 512 := Nat.mod_lt _ (by decide)
  have hcases : k = 0 ∨ k = 1 ∨ k = 2 ∨ k = 3 := by omega
  unfold entry oneMem
  rcases hcases with rfl | rfl | rfl | rfl
  all_goals
    split_ifs
    all_goals first
      | rfl
      | simp only [pageAt, minPhys, pageSize, vaPath, List.getElem?_cons_succ,
          List.getElem?_cons_zero, Option.some.injEq] at *; omega

theorem present_oneEntry {k : Nat} (hk : k < 4) : present (oneEntry (k + 1)) := by
  have hcases : k = 0 ∨ k = 1 ∨ k = 2 ∨ k = 3 := by omega
  rcases hcases with rfl | rfl | rfl | rfl <;> decide

theorem link_oneMem {v i k e : Nat} (hi : i < 512) (hk : k < 4) :
    link (oneMem v) (pageAt (k + 1)) i = some e ↔
      some i = (vaPath v)[k]? ∧ e = oneEntry (k + 1) := by
  rw [link_some, entry_oneMem hi hk]
  constructor
  · rintro ⟨hp, he⟩
    split at he
    · next hc => exact ⟨hc, he.symm⟩
    · subst he
      exact absurd hp (by decide)
  · rintro ⟨hc, rfl⟩
    exact ⟨present_oneEntry hk, by rw [if_pos hc]⟩

/-- From the root of the process, only the way to the page is there. -/
theorem look_oneMem {v : Nat} {σ : List Nat} (hlen : σ.length ≤ 4) (hlt : ∀ i ∈ σ, i < 512) {e : Nat} :
    look (oneMem v) (pageAt 1) σ = some e ↔
      σ = (vaPath v).take σ.length ∧ e = oneEntry σ.length := by
  induction σ using List.reverseRecOn generalizing e with
  | nil =>
      simp only [look_nil, List.length_nil, List.take_zero, true_and, Option.some.injEq]
      exact eq_comm
  | append_singleton σ i ih =>
      have hlen' : σ.length < 4 := by
        simp only [List.length_append, List.length_singleton] at hlen
        omega
      have hi : i < 512 := hlt i (by simp)
      have ihσ := @ih (by omega) fun j hj => hlt j (by simp [hj])
      rw [look_snoc, Option.bind_eq_some_iff]
      have hsplit : (σ ++ [i] = (vaPath v).take (σ ++ [i]).length) ↔
          σ = (vaPath v).take σ.length ∧ some i = (vaPath v)[σ.length]? := by
        have hget : (vaPath v).take (σ.length + 1) =
            (vaPath v).take σ.length ++ ((vaPath v)[σ.length]?).toList := List.take_add_one
        have hin : σ.length < (vaPath v).length := by simpa [vaPath] using hlen'
        rw [List.length_append, List.length_singleton, hget, List.getElem?_eq_getElem hin]
        simp only [Option.toList_some, Option.some.injEq]
        constructor
        · intro heq
          have := List.append_inj heq (by simp [vaPath]; omega)
          exact ⟨this.1, by simpa using this.2⟩
        · rintro ⟨h1, h2⟩
          rw [← h1, ← h2]
      rw [hsplit]
      constructor
      · rintro ⟨a, ha, hlink⟩
        obtain ⟨hσ, rfl⟩ := ihσ.1 ha
        rw [ptePage_oneEntry (by omega), link_oneMem hi hlen'] at hlink
        exact ⟨⟨hσ, hlink.1⟩, by simpa using hlink.2⟩
      · rintro ⟨⟨hσ, hidx⟩, he⟩
        refine ⟨_, ihσ.2 ⟨hσ, rfl⟩, ?_⟩
        rw [ptePage_oneEntry (by omega), link_oneMem hi hlen']
        exact ⟨hidx, by simpa using he⟩

theorem freeSet_oneState (v : Nat) : freeSet (oneState v).pmm [] = ∅ :=
  freeSet_nil_eq_empty (show pageAt 6 < pageAt 6 + pageSize by decide)

/-- The invariant, for every choice of the part of the page maps that is in the
forest. -/
theorem oneState_inv {D : Domain} (v : Nat)
    (hD : ∀ r π, Pos D r π → r = pageAt 1 ∨ (r = pageAt 0 ∧ π = [] ∧ r ∉ D.user)) :
    VmmInv D (oneState v) [] ∅ := by
  have hpage : ∀ r π e, Pos D r π → look (oneMem v) r π = some e →
      (r = pageAt 1 ∧ π = (vaPath v).take π.length ∧ e = oneEntry π.length ∧
        ptePage e = pageAt (π.length + 1)) ∨
      (r = pageAt 0 ∧ π = [] ∧ r ∉ D.user ∧ e = pageAt 0 ∧ ptePage e = pageAt 0) := by
    intro r π e hπ he
    rcases hD r π hπ with rfl | ⟨rfl, rfl, hnot⟩
    · obtain ⟨hσ, rfl⟩ := (look_oneMem hπ.2.1 hπ.2.2.1).1 he
      exact Or.inl ⟨rfl, hσ, rfl, ptePage_oneEntry hπ.2.1⟩
    · obtain rfl := Option.some.inj he
      exact Or.inr ⟨rfl, rfl, hnot, rfl, by decide⟩
  have hinj : ∀ a b, pageAt a = pageAt b → a = b := by
    intro a b hab
    simp only [pageAt, pageSize] at hab
    omega
  have hpmm : PmmInv (oneState v).pmm [] :=
    { chain := rfl
      nodup := List.nodup_nil
      listed := by simp
      cursor_mod := show pageAt 6 % pageSize = 0 by decide
      minPhys_le := show minPhys ≤ pageAt 6 by decide
      cursor_le := le_rfl
      stop_le := show pageAt 6 ≤ 2 ^ 63 by decide
      hhdm_ne := one_ne_zero
      count := show 0 = 0 + (pageAt 6 - pageAt 6) / pageSize by decide }
  refine ⟨hpmm, show pageAt 6 ≤ 2 ^ 52 by decide, ?_, ?_, ?_, ?_, ?_, by simp, by simp⟩
  · intro r π r' π' a b hπ hπ' ha hb hab
    rcases hpage r π a hπ ha with ⟨rfl, hσ, -, hka⟩ | ⟨rfl, rfl, -, -, hka⟩
    · rcases hpage r' π' b hπ' hb with ⟨rfl, hσ', -, hkb⟩ | ⟨rfl, rfl, -, -, hkb⟩
      · have hl := hinj _ _ (hka.symm.trans (hab.trans hkb))
        refine ⟨rfl, ?_⟩
        rw [hσ, hσ', show π.length = π'.length by omega]
      · have hl := hinj _ _ (hka.symm.trans (hab.trans hkb))
        omega
    · rcases hpage r' π' b hπ' hb with ⟨rfl, hσ', -, hkb⟩ | ⟨rfl, rfl, -, -, hkb⟩
      · have hl := hinj _ _ (hka.symm.trans (hab.trans hkb))
        omega
      · exact ⟨rfl, rfl⟩
  · intro r hr
    rcases hD r [] (pos_nil hr) with rfl | ⟨rfl, -⟩
    · decide
    · decide
  · intro r π e hπ hne hlen he
    rcases hpage r π e hπ he with ⟨-, -, rfl, hk⟩ | ⟨-, hnil, -⟩
    · right
      rw [hk, oneEntry, if_neg (by simpa using hne)]
    · exact absurd hnil hne
  · intro r π e hπ hr he
    rcases hpage r π e hπ he with ⟨-, -, -, hk⟩ | ⟨-, hnil, hnot, -⟩
    · have hlen := hπ.2.1
      rw [hk]
      refine ⟨?_, ?_, ?_, by rw [freeSet_oneState]; simp⟩
      · simp only [pageAt, minPhys, pageSize]
        omega
      · simp only [pageAt]
        omega
      · simp only [oneState, pageAt, minPhys, pageSize]
        omega
    · exact absurd hnil (hr.resolve_left hnot)
  · rw [freeSet_oneState]
    simp

theorem oneDomain_inv (v : Nat) : VmmInv oneDomain (oneState v) [] ∅ := by
  refine oneState_inv v fun r π hπ => ?_
  rcases hπ.1 with hr | rfl
  · exact Or.inl hr
  · refine Or.inr ⟨rfl, ?_, oneDomain.kernel_not_user⟩
    cases π with
    | nil => rfl
    | cons i π =>
        obtain ⟨-, ⟨hu, -⟩ | ⟨-, hs⟩⟩ := hπ.2.2.2 i (by simp)
        · exact absurd hu oneDomain.kernel_not_user
        · exact hs.elim

theorem wholeDomain_inv (v : Nat) : VmmInv wholeDomain (oneState v) [] ∅ := by
  refine oneState_inv v fun r π hπ => Or.inl ?_
  exact hπ.1.resolve_left fun h => h

/-- The tables below the roots of the machine. -/
theorem hwTables_oneMem {v v' r t : Nat} (hr : r = pageAt 0 ∨ r = pageAt 1)
    (ht : t ∈ hwTables (oneMem v) r v') : 256 ≤ idxPml4 v ∨ (r = pageAt 1 ∧ idxPml4 v' < 256) := by
  have h1 : idxPml4 v < 512 := Nat.mod_lt _ (by decide)
  have h1' : idxPml4 v' < 512 := Nat.mod_lt _ (by decide)
  by_contra hnot
  rw [not_or, not_and_or] at hnot
  have hzero : entry (oneMem v) r (idxPml4 v') = 0 := by
    rcases hr with rfl | rfl
    · have h2 : idxPdpt v < 512 := Nat.mod_lt _ (by decide)
      have h3 : idxPd v < 512 := Nat.mod_lt _ (by decide)
      have h4 : idxPt v < 512 := Nat.mod_lt _ (by decide)
      unfold entry oneMem
      rw [if_neg (by omega), if_neg, if_neg, if_neg, if_neg]
      all_goals
        simp only [pageAt, minPhys, pageSize]
        omega
    · rw [entry_oneMem (k := 0) h1' (by decide), if_neg]
      simp only [vaPath, List.getElem?_cons_zero, Option.some.injEq]
      omega
  unfold hwTables at ht
  rw [hzero] at ht
  simp [present] at ht

theorem mem_hwTables_oneMem {v v' r t : Nat} (hr : r = pageAt 0 ∨ r = pageAt 1)
    (ht : t ∈ hwTables (oneMem v) r v') : t ≠ pageAt 1 := by
  have h1 : idxPml4 v < 512 := Nat.mod_lt _ (by decide)
  have h1' : idxPml4 v' < 512 := Nat.mod_lt _ (by decide)
  have h2' : idxPdpt v' < 512 := Nat.mod_lt _ (by decide)
  have h3' : idxPd v' < 512 := Nat.mod_lt _ (by decide)
  have hroot : present (entry (oneMem v) r (idxPml4 v')) →
      entry (oneMem v) r (idxPml4 v') = oneEntry 1 := by
    intro hp
    rcases hr with rfl | rfl
    · unfold entry oneMem at hp ⊢
      split_ifs at hp ⊢ with ha hb hc hd he
      · rfl
      · rfl
      · simp only [pageAt, minPhys, pageSize] at hc
        omega
      · simp only [pageAt, minPhys, pageSize] at hd
        omega
      · simp only [pageAt, minPhys, pageSize] at he
        omega
      · simp [present] at hp
    · have hlink : link (oneMem v) (pageAt (0 + 1)) (idxPml4 v') =
          some (entry (oneMem v) (pageAt 1) (idxPml4 v')) := link_some.2 ⟨hp, rfl⟩
      exact ((link_oneMem h1' (by decide)).1 hlink).2
  have hnext : ∀ k i, k < 4 → i < 512 → present (entry (oneMem v) (pageAt (k + 1)) i) →
      entry (oneMem v) (pageAt (k + 1)) i = oneEntry (k + 1) := by
    intro k i hk hi hp
    exact ((link_oneMem hi hk).1 (link_some.2 ⟨hp, rfl⟩)).2
  unfold hwTables at ht
  dsimp only at ht
  cases hp1 : present (entry (oneMem v) r (idxPml4 v')) with
  | false => simp [hp1] at ht
  | true =>
      rw [hroot hp1, ptePage_oneEntry (by decide)] at ht
      cases hp2 : present (entry (oneMem v) (pageAt (1 + 1)) (idxPdpt v')) with
      | false =>
          simp [hp2, show present (oneEntry 1) = true by decide] at ht
          rw [ht]
          decide
      | true =>
          rw [hnext 1 _ (by decide) h2' hp2, ptePage_oneEntry (by decide)] at ht
          cases hp3 : present (entry (oneMem v) (pageAt (2 + 1)) (idxPd v')) with
          | false =>
              simp [hp3, show present (oneEntry 1) = true by decide,
                show present (oneEntry (1 + 1)) = true by decide,
                show ptePs (oneEntry (1 + 1)) = false by decide] at ht
              rcases ht with rfl | rfl <;> decide
          | true =>
              rw [hnext 2 _ (by decide) h3' hp3, ptePage_oneEntry (by decide)] at ht
              simp [show present (oneEntry 1) = true by decide,
                show present (oneEntry (1 + 1)) = true by decide,
                show ptePs (oneEntry (1 + 1)) = false by decide,
                show present (oneEntry (2 + 1)) = true by decide,
                show ptePs (oneEntry (2 + 1)) = false by decide] at ht
              rcases ht with rfl | rfl | rfl <;> decide

theorem oneState_wellFormed (v : Nat) : WellFormed oneDomain (oneState v) := by
  refine ⟨rfl, [], oneDomain_inv v, fun r v' t hr ht => ⟨by rw [freeSet_oneState]; simp, ?_⟩⟩
  rintro r' rfl ⟨σ, e, hσ, he, rfl⟩
  have hroots : r = pageAt 0 ∨ r = pageAt 1 := by
    rcases hr with ⟨hr, -⟩ | hr
    · exact Or.inr hr
    · exact Or.inl hr
  obtain ⟨hpath, rfl⟩ := (look_oneMem hσ.2.1 hσ.2.2.1).1 he
  rw [ptePage_oneEntry hσ.2.1] at ht
  rcases hwTables_oneMem hroots ht with hhigh | ⟨rfl, hlow⟩
  · -- the lower half is empty, so only the root could be such a table
    cases σ with
    | nil => exact mem_hwTables_oneMem hroots ht rfl
    | cons i σ =>
        obtain rfl : i = idxPml4 v := by
          have := congrArg List.head? hpath
          simpa [vaPath] using this
        exact not_user_slot (D := oneDomain) rfl hhigh (hσ.2.2.2 _ (by simp))
  · rcases hr with ⟨-, hhigh⟩ | hbad
    · omega
    · exact absurd hbad (by decide)

/-- A canonical address of a page with a given number. -/
def canonicalVa (n : Nat) : Nat :=
  if n < 2 ^ 35 then n * pageSize else n * pageSize + (2 ^ 64 - 2 ^ 48)

theorem canonicalVa_spec {n : Nat} (hlo : userTop / pageSize ≤ n) (hhi : n < 2 ^ 36) :
    userTop ≤ canonicalVa n ∧ Canonical (canonicalVa n) ∧
      canonicalVa n / pageSize % 2 ^ 36 = n := by
  unfold canonicalVa Canonical
  simp only [userTop, pageSize] at *
  split <;> omega

/-- Unmapping a range that contains a protected page breaks isolation on the
machine where that page is mapped. -/
theorem not_isolated_unmap (virt size k : Nat) {v : Nat} (hsize : size ≠ 0)
    (hk : k < rangePages virt size) (hv : userTop ≤ v) (hcan : Canonical v)
    (hvpn : v / pageSize % 2 ^ 36 = rangePage virt k / pageSize % 2 ^ 36) :
    ¬ Isolated oneDomain (oneState v) (vmmUnmapRangeAndFree (oneState v) virt size).2 := by
  intro hiso
  have hroot : pageAt 1 ∈ wholeDomain.user ∨ pageAt 1 = wholeDomain.kernel := Or.inr rfl
  have hidx : ∀ w, idxPml4 w ∈ wholeDomain.slotsOf (pageAt 1) :=
    fun w => ⟨Nat.mod_lt _ (by decide), Or.inr ⟨rfl, trivial⟩⟩
  obtain ⟨s', L', heq, hc, hcl, -⟩ := (wholeDomain_inv v).unmapRange hroot virt size
    fun j _ => hidx _
  have hnone : look s'.mem (pageAt 1) (vaPath v) = none := by
    rw [vaPath_congr hvpn]
    exact (hcl hsize).none k hk
  have hsome : look (oneState v).mem (pageAt 1) (vaPath v) = some (oneEntry 4) := by
    have hpos := pos_vaPath hroot (hidx v)
    exact (look_oneMem hpos.2.1 hpos.2.2.1).2 ⟨rfl, rfl⟩
  have htr := hiso.1 v hv hcan
  rw [heq] at htr
  change hwTranslate s'.mem (pageAt 1) v = hwTranslate (oneState v).mem (pageAt 1) v at htr
  rw [hc.inv.hwTranslate hroot (hidx v), (wholeDomain_inv v).hwTranslate hroot (hidx v), hnone,
    hsome] at htr
  simp at htr

/-- `SYS_MUNMAP` on a range with a protected page. -/
theorem not_isolated_munmap (u : UserVm) (addr length : UInt64) {k : Nat}
    (hk : k < alignUp length.toNat / pageSize)
    (hbad : userTop / pageSize ≤ (addr.toNat / pageSize + k) % 2 ^ 36) :
    ∃ s, WellFormed oneDomain s ∧
      ¬ Isolated oneDomain s (memCall s u (.munmap addr length)).2.1 := by
  have hlen : alignUp length.toNat ≠ 0 := by
    intro h0
    rw [h0] at hk
    simp at hk
  obtain ⟨hv, hcan, hvpn⟩ := canonicalVa_spec hbad (Nat.mod_lt _ (by decide))
  set v := canonicalVa ((addr.toNat / pageSize + k) % 2 ^ 36)
  refine ⟨oneState v, oneState_wellFormed v, fun hiso => ?_⟩
  refine not_isolated_unmap (alignDown addr.toNat) (alignUp length.toNat) k hlen
    (by rwa [rangePages_of_mod (alignDown_mod _) (alignUp_mod _) (alignUp_lt _)]) hv hcan
    (by rw [hvpn, rangePage_vpn]; simp only [alignDown, pageSize]; omega) ?_
  change Isolated oneDomain (oneState v) (sysMunmap (oneState v) addr length).2 at hiso
  unfold sysMunmap at hiso
  rw [if_neg hlen] at hiso
  exact hiso

/-- `SYS_BRK` shrinking from a break above `FIFI_USER_TOP`. -/
theorem not_isolated_brk (u : UserVm) (newBrk : UInt64) (hne : newBrk.toNat ≠ 0)
    (htop : alignUp newBrk.toNat < userTop) (hpage : pageSize ≤ alignUp newBrk.toNat)
    (hbrk : userTop < u.brk) :
    ¬ Isolated oneDomain (oneState userTop) (memCall (oneState userTop) u (.brk newBrk)).2.1 := by
  intro hiso
  have hmod := alignUp_mod newBrk.toNat
  have hbmod := u.brk_page
  have hblt := u.brk_lt
  have hpages := rangePages_of_mod hmod
    (show (u.brk - alignUp newBrk.toNat) % pageSize = 0 by simp only [pageSize] at *; omega)
    (by omega)
  refine not_isolated_unmap (alignUp newBrk.toNat) (u.brk - alignUp newBrk.toNat)
    ((userTop - alignUp newBrk.toNat) / pageSize) (v := userTop) (by omega)
    (by rw [hpages]; simp only [userTop, pageSize] at *; omega) le_rfl (Or.inl (by decide))
    (by rw [rangePage_vpn]; simp only [userTop, pageSize] at *; omega) ?_
  change Isolated oneDomain (oneState userTop) (sysBrk (oneState userTop) u newBrk).2.1 at hiso
  unfold sysBrk at hiso
  rw [if_neg hne, if_neg (by omega), if_neg (by omega), if_pos (by omega)] at hiso
  exact hiso

/-- A memory system call is isolated on every machine exactly when its arguments
are safe. -/
theorem memCall_isolated_iff (u : UserVm) (call : MemCall) :
    (∀ D s, WellFormed D s → Isolated D s (memCall s u call).2.1) ↔ call.Safe u := by
  refine ⟨fun hall => ?_, fun hsafe D s hwf => memCall_isolated hwf hsafe⟩
  cases call with
  | brk newBrk =>
      by_contra hnot
      simp only [MemCall.Safe, not_or, not_le, not_lt] at hnot
      obtain ⟨hne, htop, hpage, -, hbrk⟩ := hnot
      exact not_isolated_brk u newBrk hne htop hpage hbrk
        (hall oneDomain (oneState userTop) (oneState_wellFormed userTop))
  | mmap hint length prot => trivial
  | munmap addr length =>
      intro k hk
      by_contra hge
      obtain ⟨s, hwf, hnot⟩ := not_isolated_munmap u addr length hk (Nat.le_of_not_lt hge)
      exact hnot (hall oneDomain s hwf)

theorem zero_mod_page : 0 % pageSize = 0 := rfl

theorem zero_lt_word : 0 < 2 ^ 64 := by decide

/-- A process whose thread records nothing yet. -/
def freshVm : UserVm where
  brk := 0
  mmapNext := 0
  maps := []
  brk_page := zero_mod_page
  brk_lt := zero_lt_word
  mmapNext_page := zero_mod_page
  mmapNext_lt := zero_lt_word

/-- `SYS_MUNMAP` on the first page of the kernel's image unmaps it. -/
theorem munmap_kernel_page :
    ∃ D s, WellFormed D s ∧
      ¬ Isolated D s (memCall s freshVm (.munmap 0xffffffff80000000 4096)).2.1 :=
  ⟨oneDomain, not_isolated_munmap freshVm 0xffffffff80000000 4096 (k := 0) (by decide) (by decide)⟩

end FiFi.Syscall
