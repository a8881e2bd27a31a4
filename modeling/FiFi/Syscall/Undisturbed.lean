import FiFi.Syscall.AllOrNothing
import FiFi.Syscall.Space

/-!
# Growing beside the old pages

What a growing call does to the pages that were mapped before it, when nothing
was mapped in the range it asks for. They keep their frames, their permissions
and their contents, and the page map still leads to every page it led to. The
memory calls also keep the process running in its own pages, so that this can be
used along a whole run.
-/

namespace FiFi.Syscall

open Pmm Vmm RadixForest Loop

/-! ### Pages of the running process -/

/-- The pages the loaded page map leads to in the lower half: its tables and the
frames behind them. -/
def heldPages (s : VmmState) : Set Nat :=
  {p | ∃ π e, π.length ≤ 4 ∧ (∀ i ∈ π, i < 512) ∧ (∀ i ∈ π.head?, i < 256) ∧
    look s.mem s.cr3 π = some e ∧ p = ptePage e}

/-- The address space of `s` is still there in `s'`. -/
structure Undisturbed (s s' : VmmState) : Prop where
  loaded : s'.cr3 = s.cr3
  added : ∀ v < 2 ^ 47, hwTranslate s'.mem s'.cr3 v ≠ hwTranslate s.mem s.cr3 v →
    hwTranslate s.mem s.cr3 v = none
  mapped : ∀ v < 2 ^ 47, ∀ e, hwTranslate s.mem s.cr3 v = some e →
    hwTranslate s'.mem s'.cr3 v = some e
  access : ∀ v < 2 ^ 47, hwTranslate s.mem s.cr3 v ≠ none → ∀ write,
    vmmUserPageOk s' v write = vmmUserPageOk s v write
  contents : ∀ v < 2 ^ 47, ∀ e, hwTranslate s.mem s.cr3 v = some e → ∀ w,
    alignDown w = ptePage e.2 → s'.mem w = s.mem w
  held : heldPages s ⊆ heldPages s'

variable {D : Domain} {R : Set Nat} {s : VmmState}

theorem pos_user_iff {r : Nat} (hr : r ∈ D.user) {π : List Nat} :
    Pos D r π ↔ π.length ≤ 4 ∧ (∀ i ∈ π, i < 512) ∧ ∀ i ∈ π.head?, i < 256 := by
  constructor
  · rintro ⟨-, hlen, hlt, hslot⟩
    refine ⟨hlen, hlt, fun i hi => ?_⟩
    by_contra hge
    exact not_user_slot hr (Nat.le_of_not_lt hge) (hslot i hi)
  · rintro ⟨hlen, hlt, hhead⟩
    exact ⟨Or.inl hr, hlen, hlt, fun i hi => user_slot hr (hhead i hi)⟩

theorem heldPages_eq (hr : s.cr3 ∈ D.user) : heldPages s = tree D s.mem s.cr3 := by
  ext p
  constructor
  · rintro ⟨π, e, hlen, hlt, hhead, he, rfl⟩
    exact ⟨π, e, (pos_user_iff hr).2 ⟨hlen, hlt, hhead⟩, he, rfl⟩
  · rintro ⟨π, e, hπ, he, rfl⟩
    obtain ⟨hlen, hlt, hhead⟩ := (pos_user_iff hr).1 hπ
    exact ⟨π, e, hlen, hlt, hhead, he, rfl⟩

namespace Running

theorem cr3_ne_zero (h : Running D R s) : s.cr3 ≠ 0 := by
  obtain ⟨L, hinv, -⟩ := h.forest
  have hout := hinv.used s.cr3 [] s.cr3 (pos_nil (Or.inl h.user)) (Or.inl h.user) rfl
  rw [hinv.root _ (Or.inl h.user)] at hout
  obtain ⟨-, hmin, -⟩ := hout
  simp only [minPhys] at hmin
  omega

theorem hwTranslate (h : Running D R s) {v : Nat} (hv : v < 2 ^ 47) :
    Vmm.hwTranslate s.mem s.cr3 v = (look s.mem s.cr3 (vaPath v)).map fun e => (1, e) := by
  obtain ⟨L, hinv, -⟩ := h.forest
  exact hinv.hwTranslate (Or.inl h.user) (h.slot hv)

/-- Unmapping at an address whose lower 48 bits lie in the lower half. -/
theorem unmapLow (h : Running D R s) {v : Nat} (hv : idxPml4 (alignDown v) < 256) :
    ∃ s', vmmUnmapPageAndFree s v = (true, s') ∧ Running D R s' ∧ s'.cr3 = s.cr3 := by
  obtain ⟨L, hinv, hR⟩ := h.forest
  obtain ⟨s', L', heq, hc, -, hsh⟩ := hinv.unmapPageAndFreeIn (Or.inl h.user) v
    (user_slot h.user hv)
  exact ⟨s', heq, h.of_change hR hc (h.rights.of_shrinks hsh), hc.cr3⟩

theorem unmapRange (h : Running D R s) (virt size : Nat)
    (hv : ∀ k < rangePages virt size, idxPml4 (rangePage virt k) < 256) :
    Running D R (vmmUnmapRangeAndFree s virt size).2 ∧
      (vmmUnmapRangeAndFree s virt size).2.cr3 = s.cr3 := by
  unfold vmmUnmapRangeAndFree
  split
  · exact ⟨h, rfl⟩
  · have hloop := forUpTo_inv
      (fun k s => vmmUnmapPageAndFree s (u64 (alignDown virt + k * pageSize)))
      (rangePages virt size) s (fun _ s' => Running D R s' ∧ s'.cr3 = s.cr3) (fun _ _ => False)
      ⟨h, rfl⟩
      (by
        rintro k s1 hk ⟨hs1, hcr1⟩
        have hidx : idxPml4 (alignDown (rangePage virt k)) < 256 := by
          rw [alignDown_rangePage]
          exact hv k hk
        obtain ⟨s2, heq, hs2, hcr2⟩ := hs1.unmapLow hidx
        rw [rangePage] at heq
        rw [heq]
        exact Or.inl ⟨rfl, hs2, hcr2.trans hcr1⟩)
    rcases hloop with ⟨-, hend⟩ | ⟨-, -, -, hfalse⟩
    · exact hend
    · exact hfalse.elim

/-- The loop of the growing calls, on a range where nothing is mapped. -/
theorem mapZeroedRange (h : Running D R s) {start stop flags : Nat} (hmod : start % pageSize = 0)
    (hstop : stop ≤ 2 ^ 47) (hflags : flags &&& vmmUser ≠ 0)
    (hfree : ∀ v, start ≤ v → v < stop → space s (v / pageSize) = none) :
    Running D R (Syscall.mapZeroedRange s start stop flags).2 ∧
      (Syscall.mapZeroedRange s start stop flags).2.cr3 = s.cr3 := by
  set n := (stop - start + (pageSize - 1)) / pageSize with hn
  have hin : ∀ k < n, start + k * pageSize < stop := by
    intro k hk
    simp only [hn, pageSize] at *
    omega
  have hloop := forUpTo_inv (fun k s => Syscall.mapZeroed s (start + k * pageSize) flags) n s
    (fun k s' => (Running D R s' ∧ s'.cr3 = s.cr3) ∧ ∀ j, k ≤ j → j < n →
      space s' ((start + j * pageSize) / pageSize) = none)
    (fun _ s' => Running D R s' ∧ s'.cr3 = s.cr3)
    ⟨⟨h, rfl⟩, fun j _ hj => hfree _ (by omega) (hin j hj)⟩
    (by
      rintro k s1 hk ⟨⟨hs1, hcr1⟩, hnone⟩
      have hlt := hin k hk
      have hkmod : (start + k * pageSize) % pageSize = 0 := by
        simp only [pageSize] at *
        omega
      rcases hs1.mapZeroed hkmod (by omega) hflags (hnone k le_rfl hk) with
        ⟨s2, heq, hs2, hcr2, -⟩ | ⟨s2, heq, hs2, hcr2, hsp⟩
      · rw [heq]
        exact Or.inr ⟨rfl, hs2, hcr2.trans hcr1⟩
      · rw [heq]
        refine Or.inl ⟨rfl, ⟨hs2, hcr2.trans hcr1⟩, fun j hj hjn => ?_⟩
        rw [hsp, Function.update_of_ne]
        · exact hnone j (by omega) hjn
        · simp only [pageSize]
          omega)
  unfold Syscall.mapZeroedRange
  rw [← hn]
  rcases hf : forUpTo (fun k s => Syscall.mapZeroed s (start + k * pageSize) flags) n s with ⟨o, s1⟩
  rw [hf] at hloop
  rcases hloop with ⟨ho, hs1, -⟩ | ⟨k, hk, ho, hs1, hcr1⟩
  · obtain rfl : o = none := ho
    exact hs1
  · obtain rfl : o = some k := ho
    have hkstop := hin k hk
    have hpages : ∀ j < rangePages start (k * pageSize), idxPml4 (rangePage start j) < 256 := by
      intro j hj
      simp only [rangePages, rangePage, alignUp, alignDown, u64, idxPml4, pageSize] at *
      omega
    obtain ⟨hs2, hcr2⟩ := hs1.unmapRange start (k * pageSize) hpages
    exact ⟨hs2, hcr2.trans hcr1⟩

/-- A loop that has mapped its whole range has left the old pages alone. -/
theorem undisturbed_of_grown (h : Running D R s) {s' : VmmState} (h' : Running D R s')
    {L : List Nat} {start n flags : Nat} (hcr : s'.cr3 = s.cr3)
    (hg : Grown D s.cr3 start n flags s L s')
    (hfree : ∀ k < n, look s.mem s.cr3 (vaPath (start + k * pageSize)) = none) :
    Undisturbed s s' := by
  -- the pages of the range are none of the old ones
  have hleaf : ∀ v < 2 ^ 47, ∀ e, look s.mem s.cr3 (vaPath v) = some e →
      look s'.mem s'.cr3 (vaPath v) = some e := by
    intro v hv e he
    rw [hcr, hg.only _ _ (pos_vaPath (Or.inl h.user) (h.slot hv)) rfl, he]
    rintro - ⟨k, hk, heq⟩
    rw [heq, hfree k hk] at he
    cases he
  refine ⟨hcr, ?_, ?_, ?_, ?_, ?_⟩
  · intro v hv hne
    rw [h.hwTranslate hv, h'.hwTranslate hv] at hne
    rw [h.hwTranslate hv, Option.map_eq_none_iff]
    refine Option.eq_none_iff_forall_ne_some.2 fun e he => hne ?_
    rw [hleaf v hv e he, he]
  · intro v hv e he
    rw [h.hwTranslate hv, Option.map_eq_some_iff] at he
    obtain ⟨a, ha, rfl⟩ := he
    rw [h'.hwTranslate hv, hleaf v hv a ha]
    rfl
  · intro v hv hne write
    rw [h.hwTranslate hv] at hne
    cases ha : look s.mem s.cr3 (vaPath v) with
    | none =>
        rw [ha] at hne
        exact absurd rfl hne
    | some a => rw [h.userPageOk hv, h'.userPageOk hv, hleaf v hv a ha, ha]
  · intro v hv e he w hw
    rw [h.hwTranslate hv, Option.map_eq_some_iff] at he
    obtain ⟨a, ha, rfl⟩ := he
    exact hg.kept w (Or.inr ⟨_, _, a, pos_vaPath (Or.inl h.user) (h.slot hv), rfl, ha, hw⟩)
  · have huser : s'.cr3 ∈ D.user := h'.user
    rw [heldPages_eq h.user, heldPages_eq huser, hcr]
    exact hg.pages.tree

end Running

/-! ### The calls -/

/-- A growing call runs the loop on the range it asks for. -/
theorem memCall_request (s : VmmState) {u : UserVm} (hu : u.mmapNext ≤ userStackBase)
    {call : MemCall} {q : Request} (hreq : call.request u = some q) :
    q.start % pageSize = 0 ∧ q.stop < userTop ∧ q.flags &&& vmmUser ≠ 0 ∧
      (memCall s u call).2.1 = (mapZeroedRange s q.start q.stop q.flags).2 ∧
      ((memCall s u call).1 ≠ call.refusal u →
        (mapZeroedRange s q.start q.stop q.flags).1 = true) := by
  cases call with
  | brk newBrk =>
      simp only [MemCall.request] at hreq
      split at hreq
      · next hok =>
          obtain ⟨hne, htop, hpage, hgrow⟩ := hok
          cases hreq
          refine ⟨u.brk_page, htop, by dsimp only; decide, ?_⟩
          simp only [memCall, sysBrk, MemCall.refusal]
          rw [if_neg hne, if_neg (by omega), if_pos hgrow]
          rcases mapZeroedRange s u.brk (alignUp newBrk.toNat) (vmmUser ||| vmmWrite ||| vmmNx) with
            ⟨b, s'⟩
          cases b with
          | false => exact ⟨rfl, fun hbad => absurd rfl hbad⟩
          | true => exact ⟨rfl, fun _ => rfl⟩
      · cases hreq
  | mmap hint length prot =>
      simp only [MemCall.request] at hreq
      split at hreq
      · next hok =>
          obtain ⟨hlen, hmax, hfit⟩ := hok
          cases hreq
          have hva := mmapVa_le hu hint.toNat
          have hstack : userStackBase < userTop ∧ userStackBase + 256 * 1024 * 1024 < 2 ^ 64 := by
            decide
          have hsum : u64 (mmapVa u hint.toNat + alignUp length.toNat) =
              mmapVa u hint.toNat + alignUp length.toNat := Nat.mod_eq_of_lt (by omega)
          have hflags : mmapFlags prot.toNat &&& vmmUser ≠ 0 := by
            unfold mmapFlags
            split_ifs <;> decide
          have hrefuse : ¬ (alignUp length.toNat = 0 ∨ alignUp length.toNat > 256 * 1024 * 1024) := by
            omega
          have hstop : mmapVa u hint.toNat + alignUp length.toNat < userTop := by
            rw [hsum] at hfit
            exact hfit.trans hstack.1
          refine ⟨mmapVa_mod u _, hstop, hflags, ?_⟩
          simp only [memCall, sysMmap, MemCall.refusal]
          rw [if_neg hrefuse, if_neg (Nat.not_le.2 hfit)]
          rcases hm : mapZeroedRange s (mmapVa u hint.toNat)
            (u64 (mmapVa u hint.toNat + alignUp length.toNat)) (mmapFlags prot.toNat) with ⟨b, s'⟩
          rw [hsum] at hm
          rw [hm]
          cases b with
          | false => exact ⟨rfl, fun hbad => absurd rfl hbad⟩
          | true => exact ⟨rfl, fun _ => rfl⟩
      · cases hreq
  | munmap addr length => cases hreq

/-- `SYS_MUNMAP` looks at the lower 48 bits of the addresses of its pages; these
addresses lie in the lower half. -/
def MemCall.Lower : MemCall → Prop
  | .munmap addr length =>
      ∀ k < alignUp length.toNat / pageSize, (addr.toNat / pageSize + k) % 2 ^ 36 < 2 ^ 35
  | _ => True

/-- Any other call changes nothing, or it unmaps a range of the lower half. -/
theorem memCall_other (s : VmmState) {u : UserVm} (hbrk : u.brk ≤ 2 ^ 47) {call : MemCall}
    (hlow : call.Lower) (hreq : call.request u = none) :
    (memCall s u call).2.1 = s ∨ ∃ virt size,
      (memCall s u call).2.1 = (vmmUnmapRangeAndFree s virt size).2 ∧
      ∀ k < rangePages virt size, idxPml4 (rangePage virt k) < 256 := by
  cases call with
  | brk newBrk =>
      simp only [MemCall.request] at hreq
      simp only [memCall, sysBrk]
      split_ifs with hzero hrej hgrow hshrink
      · exact Or.inl rfl
      · exact Or.inl rfl
      · rw [if_pos (by omega)] at hreq
        cases hreq
      · refine Or.inr ⟨_, _, rfl, fun k hk => ?_⟩
        have hmod := alignUp_mod newBrk.toNat
        have hbmod := u.brk_page
        generalize alignUp newBrk.toNat = b at *
        simp only [rangePages, rangePage, alignUp, alignDown, u64, idxPml4, pageSize] at *
        omega
      · exact Or.inl rfl
  | mmap hint length prot =>
      simp only [MemCall.request] at hreq
      simp only [memCall, sysMmap]
      split_ifs with hlen hfit
      · exact Or.inl rfl
      · exact Or.inl rfl
      · rw [if_pos (by omega)] at hreq
        cases hreq
  | munmap addr length =>
      simp only [memCall, sysMunmap]
      split_ifs with hlen
      · exact Or.inl rfl
      · refine Or.inr ⟨_, _, rfl, fun k hk => ?_⟩
        rw [rangePages_of_mod (alignDown_mod _) (alignUp_mod _) (alignUp_lt _)] at hk
        have hpage := hlow k hk
        have hvpn : rangePage (alignDown addr.toNat) k / pageSize % 2 ^ 36 =
            (addr.toNat / pageSize + k) % 2 ^ 36 := by
          rw [rangePage_vpn]
          simp only [alignDown, pageSize]
          omega
        rw [← hvpn] at hpage
        simp only [idxPml4, pageSize] at *
        omega

/-- The break stays in the lower half. -/
theorem memCall_brk_le (s : VmmState) {u : UserVm} (hu : u.brk ≤ 2 ^ 47) (call : MemCall) :
    (memCall s u call).2.2.brk ≤ 2 ^ 47 := by
  have htop : userTop ≤ 2 ^ 47 := by decide
  cases call with
  | brk newBrk =>
      simp only [memCall, sysBrk]
      split_ifs
      · exact hu
      · exact hu
      · split
        · dsimp only
          omega
        · exact hu
      · dsimp only
        omega
      · exact hu
  | mmap hint length prot =>
      simp only [memCall, sysMmap]
      split_ifs
      · exact hu
      · exact hu
      · split <;> exact hu
  | munmap addr length => exact hu

/-- Nothing is mapped in the range the call asks for, if it asks for one. -/
def MemCall.Unmapped (s : VmmState) (u : UserVm) (call : MemCall) : Prop :=
  ∀ q, call.request u = some q → ∀ v, q.start ≤ v → v < q.stop →
    hwTranslate s.mem s.cr3 v = none

section Calls

variable {u : UserVm} {call : MemCall}

theorem Running.look_of_unmapped (h : Running D R s) {v : Nat} (hv : v < 2 ^ 47)
    (hnone : Vmm.hwTranslate s.mem s.cr3 v = none) : look s.mem s.cr3 (vaPath v) = none := by
  rwa [h.hwTranslate hv, Option.map_eq_none_iff] at hnone

/-- A call keeps the process running in its own pages. -/
theorem Running.memCall (h : Running D R s) (hbrk : u.brk ≤ 2 ^ 47)
    (hnext : u.mmapNext ≤ userStackBase) (hlow : call.Lower) (hfree : call.Unmapped s u) :
    Running D R (Syscall.memCall s u call).2.1 ∧
      (Syscall.memCall s u call).2.1.cr3 = s.cr3 := by
  have htop : userTop ≤ 2 ^ 47 := by decide
  cases hreq : call.request u with
  | none =>
      rcases memCall_other s hbrk hlow hreq with heq | ⟨virt, size, heq, hpages⟩
      · rw [heq]
        exact ⟨h, rfl⟩
      · rw [heq]
        exact h.unmapRange virt size hpages
  | some q =>
      obtain ⟨hmod, hstop, hflags, heq, -⟩ := memCall_request s hnext hreq
      rw [heq]
      refine h.mapZeroedRange hmod (by omega) hflags fun v hlo hhi => ?_
      rw [space_none_iff (by omega)]
      exact h.look_of_unmapped (by omega) (hfree q hreq v hlo hhi)

/-- A growing call that succeeds leaves the old pages alone. -/
theorem Running.memCall_undisturbed (h : Running D R s) (hbrk : u.brk ≤ 2 ^ 47)
    (hnext : u.mmapNext ≤ userStackBase) (hlow : call.Lower) (hfree : call.Unmapped s u)
    {q : Request} (hreq : call.request u = some q)
    (hok : (Syscall.memCall s u call).1 ≠ call.refusal u) :
    Undisturbed s (Syscall.memCall s u call).2.1 := by
  obtain ⟨h', -⟩ := h.memCall hbrk hnext hlow hfree
  have htop : userTop ≤ 2 ^ 47 := by decide
  obtain ⟨hmod, hstop, -, heq, hval⟩ := memCall_request s hnext hreq
  have htrue := hval hok
  rw [heq] at h' ⊢
  obtain ⟨L, hinv, -⟩ := h.forest
  have hnone : ∀ v, q.start ≤ v → v < q.stop → look s.mem s.cr3 (vaPath v) = none :=
    fun v hlo hhi => h.look_of_unmapped (by omega) (hfree q hreq v hlo hhi)
  rcases mapZeroedRange_fresh q.flags hinv h.user hmod (by omega) hnone with
    ⟨s', L', hm, -⟩ | ⟨s', L', hm, hc, hg⟩
  · rw [hm] at htrue
    cases htrue
  · rw [hm] at h' ⊢
    refine h.undisturbed_of_grown h' hc.cr3 hg fun k hk => hnone _ (by omega) ?_
    simp only [pageSize] at *
    omega

end Calls

end FiFi.Syscall
