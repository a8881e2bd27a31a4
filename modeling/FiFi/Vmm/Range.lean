import FiFi.Vmm.Ops

/-!
# Unmapping a range

`vmm_unmap_range_and_free` takes its pages one after the other. It never stops
early, all pages of the range are unmapped afterwards, and no other page is
touched.
-/

namespace FiFi.Vmm

open Pmm RadixForest Loop

/-- Page `k` of a range, as the range functions compute its address. -/
def rangePage (virt k : Nat) : Nat := u64 (alignDown virt + k * pageSize)

theorem alignDown_rangePage (virt k : Nat) : alignDown (rangePage virt k) = rangePage virt k := by
  refine alignDown_of_mod ?_
  simp only [rangePage, u64, alignDown, pageSize]
  omega

/-- The entries of the first `n` pages of a range are cleared, all others are as
before. -/
structure Cleared (D : Domain) (r virt n : Nat) (s s' : VmmState) : Prop where
  none : ∀ k < n, look s'.mem r (vaPath (rangePage virt k)) = none
  same : ∀ r' σ, Pos D r' σ → σ.length = 4 →
    (r' = r → ∀ k < n, σ ≠ vaPath (rangePage virt k)) → look s'.mem r' σ = look s.mem r' σ

theorem Cleared.succ {D : Domain} {r virt n : Nat} {s s' s'' : VmmState}
    (hpos : ∀ k ≤ n, Pos D r (vaPath (rangePage virt k))) (h : Cleared D r virt n s s')
    (hlaw : LeafLaw D r (vaPath (rangePage virt n)) Option.none s' s'') :
    Cleared D r virt (n + 1) s s'' where
  none := by
    intro k hk
    rw [hlaw r _ (hpos k (by omega)) rfl]
    split
    · rfl
    · next hne =>
        have hkn : k ≠ n := by
          rintro rfl
          exact hne ⟨rfl, rfl⟩
        exact h.none k (by omega)
  same := by
    intro r' σ hσ hlen hnot
    rw [hlaw r' σ hσ hlen, if_neg]
    · exact h.same r' σ hσ hlen fun hr k hk => hnot hr k (by omega)
    · rintro ⟨hr, hσeq⟩
      exact hnot hr n (by omega) hσeq

/-- Only the entries of the pages at `V` of the page map at `r` may differ. -/
def OnlyPages (D : Domain) (r : Nat) (V : Set (List Nat)) (s s' : VmmState) : Prop :=
  ∀ r' σ, Pos D r' σ → σ.length = 4 → (r' = r → σ ∉ V) → look s'.mem r' σ = look s.mem r' σ

theorem OnlyPages.trans {D : Domain} {r : Nat} {V : Set (List Nat)} {s s' s'' : VmmState}
    (h : OnlyPages D r V s s') (h' : OnlyPages D r V s' s'') : OnlyPages D r V s s'' :=
  fun r' σ hσ hlen hnot => (h' r' σ hσ hlen hnot).trans (h r' σ hσ hlen hnot)

theorem SameLeaves.only {D : Domain} {s s' : VmmState} (h : SameLeaves D s s') (r : Nat)
    (V : Set (List Nat)) : OnlyPages D r V s s' :=
  fun r' σ hσ hlen _ => h r' σ hσ hlen

theorem LeafLaw.only {D : Domain} {r : Nat} {ρ : List Nat} {o : Option Nat}
    {s s' : VmmState} (h : LeafLaw D r ρ o s s') {V : Set (List Nat)} (hρ : ρ ∈ V) :
    OnlyPages D r V s s' := by
  intro r' σ hσ hlen hnot
  rw [h r' σ hσ hlen, if_neg]
  rintro ⟨hr, rfl⟩
  exact hnot hr hρ

theorem Cleared.only {D : Domain} {r virt n : Nat} {s s' : VmmState}
    (h : Cleared D r virt n s s') {V : Set (List Nat)}
    (hV : ∀ k < n, vaPath (rangePage virt k) ∈ V) : OnlyPages D r V s s' := by
  intro r' σ hσ hlen hnot
  refine h.same r' σ hσ hlen fun hr k hk heq => ?_
  exact hnot hr (heq ▸ hV k hk)

theorem VmmInv.unmapRange {D : Domain} {s : VmmState} {L : List Nat} {H : Set Nat}
    (h : VmmInv D s L H) (hr : s.cr3 ∈ D.user ∨ s.cr3 = D.kernel) (virt size : Nat)
    (hv : ∀ k < rangePages virt size, idxPml4 (rangePage virt k) ∈ D.slotsOf s.cr3) :
    ∃ s' L', vmmUnmapRangeAndFree s virt size = (true, s') ∧ Change D s.cr3 s L H s' L' H ∧
      (size ≠ 0 → Cleared D s.cr3 virt (rangePages virt size) s s') ∧
      (size = 0 → s' = s) := by
  unfold vmmUnmapRangeAndFree
  by_cases hsize : size = 0
  · exact ⟨s, L, if_pos hsize, Change.refl h, fun hne => absurd hsize hne, fun _ => rfl⟩
  · rw [if_neg hsize]
    have hloop := forUpTo_inv
      (fun k s => vmmUnmapPageAndFree s (u64 (alignDown virt + k * pageSize)))
      (rangePages virt size) s
      (fun k s' => ∃ L', Change D s.cr3 s L H s' L' H ∧ Cleared D s.cr3 virt k s s')
      (fun _ _ => False)
      ⟨L, Change.refl h, fun k hk => absurd hk (by omega), fun _ _ _ _ _ => rfl⟩
      (by
        rintro k s1 hk ⟨L1, hc1, hcl⟩
        have hal := alignDown_rangePage virt k
        have hcr : s1.cr3 = s.cr3 := hc1.cr3
        have hidx : idxPml4 (alignDown (rangePage virt k)) ∈ D.slotsOf s1.cr3 := by
          rw [hal, hcr]
          exact hv k hk
        obtain ⟨s2, L2, heq, hc2, hlaw⟩ :=
          hc1.inv.unmapPageAndFree (by rwa [hcr]) (rangePage virt k) hidx
        rw [hal, hcr] at hlaw
        rw [hcr] at hc2
        refine Or.inl ⟨congrArg Prod.fst heq, L2, ?_, ?_⟩
        · rw [show vmmUnmapPageAndFree s1 (u64 (alignDown virt + k * pageSize)) = (true, s2)
            from heq]
          exact hc1.trans hc2
        · rw [show vmmUnmapPageAndFree s1 (u64 (alignDown virt + k * pageSize)) = (true, s2)
            from heq]
          exact hcl.succ (fun j hj => pos_vaPath hr (hv j (by omega))) hlaw)
    rcases hloop with ⟨hnone, L', hc, hcl⟩ | ⟨k, -, -, hfalse⟩
    · refine ⟨_, L', ?_, hc, fun _ => hcl, fun h0 => absurd h0 hsize⟩
      simp [hnone]
    · exact hfalse.elim

end FiFi.Vmm
