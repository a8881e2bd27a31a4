import FiFi.Vmm.Frames
import Mathlib.Data.Nat.Bitwise

/-!
# Copying a page map for `fork`

`clone_pagemap` walks the lower half of the parent's page map, copies every
frame and maps the copy at the same address in a new page map. If a page is
missing on the way, the new page map is destroyed.

The loops are described by the set `B` of paths they have passed: at these the
new page map has a copy of what the parent has, at the others it has nothing.
-/

namespace FiFi.Fork

open Pmm Vmm Loop RadixForest

/-! ### The code -/

/-- The flags of the copy of a page. -/
def cloneFlags (pte : Nat) : Nat :=
  (if pte &&& vmmUser ≠ 0 then vmmUser else 0)
    ||| (if pte &&& vmmWrite ≠ 0 then vmmWrite else 0)
    ||| (if pte &&& vmmNx ≠ 0 then vmmNx else 0)

/-- The body of the innermost loop of `clone_pagemap`. -/
def cloneLeaf (dst va pte : Nat) (s : VmmState) : Bool × VmmState :=
  let r := allocPage s
  if r.1 = 0 then (false, r.2)
  else
    let s := r.2.withMem (copyPage r.2.mem (ptePage pte) r.1)
    let m := vmmMapPageInto s dst va r.1 (cloneFlags pte)
    if m.1 then (true, m.2) else (false, freePage m.2 r.1)

/-- The loop of `clone_pagemap` over the first `n` entries of a table. The bits
of the address that the entry index stands for begin at `shift`. -/
def cloneEntries (inner : Nat → Nat → VmmState → Bool × VmmState) (n shift t va : Nat)
    (s : VmmState) : Bool × VmmState :=
  let r := forUpTo (fun i s =>
    let e := entry s.mem t i
    if present e then inner (va ||| i <<< shift) e s else (true, s)) n s
  (r.1.isNone, r.2)

/-- The loop nest of `clone_pagemap` below an entry, where `depth` counts the
levels of tables from there on. -/
def cloneBelow (dst : Nat) : Nat → Nat → Nat → VmmState → Bool × VmmState
  | 0 => fun va e s => cloneLeaf dst va e s
  | depth + 1 => fun va e s =>
      cloneEntries (cloneBelow dst depth) 512 (12 + 9 * depth) (ptePage e) va s

/-- `clone_pagemap`. The result is the root of the new page map, or `0`. -/
def clonePagemap (s : VmmState) (src : Nat) : Nat × VmmState :=
  let r := vmmCreateUserPagemap s
  if r.1 = 0 then (0, r.2)
  else
    let m := cloneEntries (cloneBelow r.1 3) 256 39 src 0 r.2
    if m.1 then (r.1, m.2) else (0, vmmDestroyUserPagemap m.2 r.1)

/-! ### Addresses -/

/-- Or-ing the next index into an address. -/
theorem or_shift_index (x m : Nat) {i : Nat} (hi : i < 512) :
    x * 2 ^ (m + 9) ||| i <<< m = (x * 512 + i) * 2 ^ m := by
  have hx : x * 2 ^ (m + 9) = (x <<< 9) <<< m := by
    rw [Nat.shiftLeft_eq, Nat.shiftLeft_eq]
    ring
  have hor : x <<< 9 ||| i = x * 512 + i := by
    rw [← Nat.shiftLeft_add_eq_or_of_lt (by simpa using hi), Nat.shiftLeft_eq]
  rw [hx, ← Nat.shiftLeft_or_distrib, hor, Nat.shiftLeft_eq]

/-! ### Flags -/

/-- The bits of an entry that say how a page may be used: write, user and
no-execute. -/
def SameRights (e e' : Nat) : Prop :=
  e &&& vmmWrite = e' &&& vmmWrite ∧ e &&& vmmUser = e' &&& vmmUser ∧
    e &&& vmmNx = e' &&& vmmNx

theorem and_two_pow_cases (x n : Nat) : x &&& 2 ^ n = 0 ∨ x &&& 2 ^ n = 2 ^ n := by
  rw [Nat.and_two_pow]
  cases x.testBit n
  · exact Or.inl (by simp)
  · exact Or.inr (by simp)

theorem page_and_two_pow {p n : Nat} (hmod : p % pageSize = 0) (hlt : p < 2 ^ 52)
    (hn : n < 12 ∨ 52 ≤ n) : p &&& 2 ^ n = 0 := by
  have hbit : p.testBit n = false := by
    rcases hn with hn | hn
    · have hp : p = 2 ^ 12 * (p / 4096) := by
        simp only [pageSize] at hmod
        omega
      rw [hp, Nat.testBit_two_pow_mul, decide_eq_false (by omega), Bool.false_and]
    · exact Nat.testBit_lt_two_pow (hlt.trans_le (Nat.pow_le_pow_right (by decide) hn))
  rw [Nat.and_two_pow, hbit]
  simp

/-- The entry of the copy has the rights of the entry of the original. -/
theorem sameRights_clone {p : Nat} (hmod : p % pageSize = 0) (hlt : p < 2 ^ 52) (e : Nat) :
    SameRights (p ||| makePteFlags (cloneFlags e)) e := by
  have hw : p &&& vmmWrite = 0 := page_and_two_pow (n := 1) hmod hlt (by decide)
  have hu : p &&& vmmUser = 0 := page_and_two_pow (n := 2) hmod hlt (by decide)
  have hx : p &&& vmmNx = 0 := page_and_two_pow (n := 63) hmod hlt (by decide)
  have hew : e &&& vmmWrite = 0 ∨ e &&& vmmWrite = vmmWrite := and_two_pow_cases e 1
  have heu : e &&& vmmUser = 0 ∨ e &&& vmmUser = vmmUser := and_two_pow_cases e 2
  have hex : e &&& vmmNx = 0 ∨ e &&& vmmNx = vmmNx := and_two_pow_cases e 63
  simp only [SameRights, Nat.and_or_distrib_right, hw, hu, hx, Nat.zero_or]
  unfold cloneFlags
  rcases hew with hew | hew <;> rcases heu with heu | heu <;> rcases hex with hex | hex <;>
    rw [hew, heu, hex] <;> decide

/-! ### One page -/

theorem alignDown_copyPage (mem : Nat → Nat) (src : Nat) {p w : Nat} (hmod : p % pageSize = 0)
    (hw : alignDown w ≠ p) : copyPage mem src p w = mem w := by
  refine if_neg fun hin => hw ?_
  simp only [alignDown, pageSize] at *
  omega

/-- The positions of one page map are those of any other. -/
theorem pos_user {D : Domain} {r r' : Nat} {π : List Nat} (hr : r ∈ D.user) (hr' : r' ∈ D.user)
    (h : Pos D r π) : Pos D r' π := by
  refine ⟨Or.inl hr', h.2.1, h.2.2.1, fun i hi => ?_⟩
  obtain ⟨hlt, ⟨-, hlow⟩ | ⟨rfl, -⟩⟩ := h.2.2.2 i hi
  · exact ⟨hlt, Or.inl ⟨hr', hlow⟩⟩
  · exact absurd hr D.kernel_not_user

/-- Copying one page into a page map that has nothing at that address. If it
fails, only tables were added. -/
theorem cloneLeaf_spec {D : Domain} {s : VmmState} {L : List Nat} (h : VmmInv D s L ∅)
    {dst va : Nat} (hdst : dst ∈ D.user) (hlow : idxPml4 va < 256)
    (hfree : look s.mem dst (vaPath va) = none) (e : Nat) :
    (∃ p s' L', cloneLeaf dst va e s = (true, s') ∧ Change D dst s L ∅ s' L' ∅ ∧
        p % pageSize = 0 ∧ p < 2 ^ 52 ∧ p ∈ freeSet s.pmm L ∧
        LeafLaw D dst (vaPath va) (some (p ||| makePteFlags (cloneFlags e))) s s' ∧
        (∀ k < pageSize, s'.mem (p + k) = s.mem (ptePage e + k)) ∧ DataKept D ∅ s s') ∨
      ∃ s' L', cloneLeaf dst va e s = (false, s') ∧ Change D dst s L ∅ s' L' ∅ := by
  have hslot : idxPml4 va ∈ D.slotsOf dst := ⟨by omega, Or.inl ⟨hdst, hlow⟩⟩
  have hpos : Pos D dst (vaPath va) := pos_vaPath (Or.inl hdst) hslot
  unfold cloneLeaf
  dsimp only
  rcases h.alloc dst with ⟨heq, -⟩ | ⟨hne0, hin, hmem, L1, hc1, -⟩
  · rw [heq, if_pos rfl]
    exact Or.inr ⟨s, L, rfl, Change.refl h⟩
  · rw [if_neg hne0]
    have hmod := h.pmm.mod_of_mem_freeSet hin
    have hset : insert (allocPage s).1 (∅ : Set Nat) \ {(allocPage s).1} = ∅ :=
      Set.insert_sdiff_self_of_notMem (Set.notMem_empty _)
    generalize (allocPage s).1 = p at *
    generalize (allocPage s).2 = s1 at *
    obtain ⟨hc2, hlook2⟩ := hc1.inv.write (Or.inl hdst) (Set.mem_insert p ∅)
      (fun w hw => alignDown_copyPage s1.mem (ptePage e) hmod hw)
    rw [hmem] at hc2 hlook2 ⊢
    have hsame : SameLeaves D s (s1.withMem (copyPage s.mem (ptePage e) p)) :=
      fun r' σ hσ _ => hlook2 r' σ hσ
    set s2 := s1.withMem (copyPage s.mem (ptePage e) p) with hs2
    have hkept := hc2.inv.mapPageInto_dataKept (Or.inl hdst) hslot p (cloneFlags e)
    rcases hc2.inv.mapPageInto (Or.inl hdst) hslot (Set.mem_insert p ∅) (cloneFlags e) with
      ⟨s3, L3, heq, hc3, -, -⟩ | ⟨s3, L3, heq, hc3, hlaw⟩
    · -- no page for a table: the copy is given back
      obtain ⟨hc4, -⟩ := hc3.inv.free dst (Or.inl hdst) (Set.mem_insert p ∅)
      rw [hset] at hc4
      refine Or.inr ⟨_, _, ?_, hc1.trans (hc2.trans (hc3.trans hc4))⟩
      rw [heq, if_neg (by simp)]
    · rw [heq] at hkept
      have hframe := frameAt_none ((hsame dst _ hpos rfl).trans hfree)
      rw [hset, hframe, Set.union_empty] at hc3
      refine Or.inl ⟨p, s3, L3, by rw [heq, if_pos rfl], hc1.trans (hc2.trans hc3), hmod,
        h.lt_of_free hin, hin, hsame.law hlaw, fun k hk => ?_, fun w hw => ?_⟩
      · rw [hkept (p + k) (Or.inl (by rw [alignDown_page_add hmod hk]; exact Set.mem_insert p ∅)),
          hs2, withMem_mem, copyPage, if_pos (by omega), Nat.add_sub_cancel_left]
      · have hwp : alignDown w ≠ p := fun heqw => h.data_not_free hw (heqw ▸ hin)
        have hw2 : alignDown w ∈ data D s2.mem (insert p ∅) := by
          rw [hsame.data]
          exact Or.inr (hw.resolve_left (Set.notMem_empty _))
        rw [hkept w hw2, hs2, withMem_mem, alignDown_copyPage _ _ hmod hwp]

/-! ### The loops -/

/-- What the page map at `dst` has at `σ` in `s` is a copy of what the one at
`src` has there in `s₀`. -/
def Copied (src dst : Nat) (s₀ s : VmmState) (σ : List Nat) : Prop :=
  (look s₀.mem src σ = none ∧ look s.mem dst σ = none) ∨
    ∃ e e', look s₀.mem src σ = some e ∧ look s.mem dst σ = some e' ∧ SameRights e' e ∧
      ∀ k < pageSize, s.mem (ptePage e' + k) = s₀.mem (ptePage e + k)

/-- The loops of `clone_pagemap` have passed the paths of `B`. They started in
`s₀`. -/
structure Cloning (D : Domain) (src dst : Nat) (s₀ : VmmState) (L₀ : List Nat)
    (B : List Nat → Prop) (s : VmmState) (L : List Nat) : Prop where
  change : Change D dst s₀ L₀ ∅ s L ∅
  done : ∀ σ, Pos D src σ → σ.length = 4 → B σ → Copied src dst s₀ s σ
  todo : ∀ σ, Pos D dst σ → σ.length = 4 → ¬ B σ → look s.mem dst σ = none

section

variable {D : Domain} {src dst : Nat} {s₀ s : VmmState} {L₀ L : List Nat}
  {B : List Nat → Prop}

variable (h₀ : VmmInv D s₀ L₀ ∅) (hsrc : src ∈ D.user) (hdst : dst ∈ D.user) (hne : src ≠ dst)

include h₀ hne in
/-- The parent is not touched by the loops. -/
theorem Cloning.look_src (h : Cloning D src dst s₀ L₀ B s L) {σ : List Nat} (hσ : Pos D src σ) :
    look s.mem src σ = look s₀.mem src σ :=
  h.change.look_other h₀ hne hσ

include h₀ hne in
theorem Cloning.page_src (h : Cloning D src dst s₀ L₀ B s L) {σ : List Nat} {e : Nat}
    (hσ : Pos D src σ) (he : look s₀.mem src σ = some e) {k : Nat} (hk : k < pageSize) :
    s.mem (ptePage e + k) = s₀.mem (ptePage e + k) := by
  refine h.change.frame _ fun hw => ?_
  have hin := hw.1
  rw [alignDown_page_add (ptePage_mod e) hk] at hin
  exact h₀.not_mem_region hne hσ he hin

include hsrc hdst in
theorem Cloning.congr (h : Cloning D src dst s₀ L₀ B s L) {B' : List Nat → Prop}
    (hB : ∀ σ, Pos D src σ → σ.length = 4 → (B' σ ↔ B σ)) :
    Cloning D src dst s₀ L₀ B' s L where
  change := h.change
  done := fun σ hσ hlen hσB => h.done σ hσ hlen ((hB σ hσ hlen).1 hσB)
  todo := fun σ hσ hlen hσB => h.todo σ hσ hlen fun hold =>
    hσB ((hB σ (pos_user hdst hsrc hσ) hlen).2 hold)

include hsrc hdst in
/-- Paths at which the parent has nothing can be passed. -/
theorem Cloning.skip (h : Cloning D src dst s₀ L₀ B s L) {B' : List Nat → Prop}
    (hnone : ∀ σ, Pos D src σ → B' σ → look s₀.mem src σ = none) :
    Cloning D src dst s₀ L₀ (fun σ => B σ ∨ B' σ) s L where
  change := h.change
  done := by
    intro σ hσ hlen hB
    by_cases hold : B σ
    · exact h.done σ hσ hlen hold
    · exact Or.inl ⟨hnone σ hσ (hB.resolve_left hold),
        h.todo σ (pos_user hsrc hdst hσ) hlen hold⟩
  todo := fun σ hσ hlen hB => h.todo σ hσ hlen fun hold => hB (Or.inl hold)

include h₀ hsrc hdst hne in
/-- One turn of the innermost loop. -/
theorem Cloning.leaf (h : Cloning D src dst s₀ L₀ B s L) {va e : Nat} (hlow : idxPml4 va < 256)
    (he : look s.mem src (vaPath va) = some e) (hnew : ¬ B (vaPath va)) :
    (∃ s' L', cloneLeaf dst va e s = (true, s') ∧
        Cloning D src dst s₀ L₀ (fun σ => B σ ∨ σ = vaPath va) s' L') ∨
      ∃ s' L', cloneLeaf dst va e s = (false, s') ∧ Change D dst s₀ L₀ ∅ s' L' ∅ := by
  have hpos : Pos D src (vaPath va) :=
    pos_vaPath (Or.inl hsrc) ⟨by omega, Or.inl ⟨hsrc, hlow⟩⟩
  have he₀ : look s₀.mem src (vaPath va) = some e := (h.look_src h₀ hne hpos).symm.trans he
  have hpos' := pos_user hsrc hdst hpos
  rcases cloneLeaf_spec h.change.inv hdst hlow (h.todo _ hpos' rfl hnew) e with
    ⟨p, s', L', heq, hc, hmod, hlt, -, hlaw, hcopy, hkept⟩ | ⟨s', L', heq, hc⟩
  · refine Or.inl ⟨s', L', heq, h.change.trans hc, fun σ hσ hlen hB => ?_, fun σ hσ hlen hB => ?_⟩
    · have hσ' := pos_user hsrc hdst hσ
      by_cases hσva : σ = vaPath va
      · subst hσva
        have hpage : ptePage (p ||| makePteFlags (cloneFlags e)) = p := by
          have := (leaf_spec p (cloneFlags e)).2
          rwa [ptePage_of_page hmod hlt] at this
        refine Or.inr ⟨e, _, he₀, ?_, sameRights_clone hmod hlt e, fun k hk => ?_⟩
        · rw [hlaw dst _ hσ' hlen, if_pos ⟨rfl, rfl⟩]
        · rw [hpage, hcopy k hk, h.page_src h₀ hne hpos he₀ hk]
      · have hlook : look s'.mem dst σ = look s.mem dst σ := by
          rw [hlaw dst σ hσ' hlen, if_neg fun hc => hσva hc.2]
        rcases h.done σ hσ hlen (hB.resolve_right hσva) with
          ⟨hn, hn'⟩ | ⟨a, a', ha, ha', hright, hmem⟩
        · exact Or.inl ⟨hn, hlook.trans hn'⟩
        · refine Or.inr ⟨a, a', ha, hlook.trans ha', hright, fun k hk => ?_⟩
          rw [hkept _ (Or.inr ⟨dst, σ, a', hσ', hlen, ha', ?_⟩), hmem k hk]
          exact alignDown_page_add (ptePage_mod a') hk
    · rw [hlaw dst σ hσ hlen, if_neg fun hc => hB (Or.inr hc.2)]
      exact h.todo σ hσ hlen fun hold => hB (Or.inl hold)
  · exact Or.inr ⟨s', L', heq, h.change.trans hc⟩

include h₀ hsrc hdst hne in
/-- A loop of `clone_pagemap` over the first `n` entries of a table of the
parent. -/
theorem Cloning.entries (h : Cloning D src dst s₀ L₀ B s L) {t : Nat} {π : List Nat}
    (ht : look s.mem src π = some t) (inner : Nat → Nat → VmmState → Bool × VmmState)
    (n m : Nat) (hslots : ∀ i < n, Pos D src (π ++ [i])) (hnew : ∀ σ, π <+: σ → ¬ B σ)
    (hinner : ∀ i B1 s1 L1 e, i < n → Cloning D src dst s₀ L₀ B1 s1 L1 →
      (∀ σ, π ++ [i] <+: σ → ¬ B1 σ) → look s1.mem src (π ++ [i]) = some e →
      (∃ s' L', inner (pathVal (π ++ [i]) * 2 ^ m) e s1 = (true, s') ∧
          Cloning D src dst s₀ L₀ (fun σ => B1 σ ∨ π ++ [i] <+: σ) s' L') ∨
        ∃ s' L', inner (pathVal (π ++ [i]) * 2 ^ m) e s1 = (false, s') ∧
          Change D dst s₀ L₀ ∅ s' L' ∅) :
    (∃ s' L', cloneEntries inner n m (ptePage t) (pathVal π * 2 ^ (m + 9)) s = (true, s') ∧
        Cloning D src dst s₀ L₀ (fun σ => B σ ∨ ∃ i < n, π ++ [i] <+: σ) s' L') ∨
      ∃ s' L', cloneEntries inner n m (ptePage t) (pathVal π * 2 ^ (m + 9)) s = (false, s') ∧
        Change D dst s₀ L₀ ∅ s' L' ∅ := by
  have hloop := forUpTo_inv (fun i s =>
      if present (entry s.mem (ptePage t) i) then
        inner (pathVal π * 2 ^ (m + 9) ||| i <<< m) (entry s.mem (ptePage t) i) s
      else (true, s)) n s
    (fun k s' => ∃ L', Cloning D src dst s₀ L₀ (fun σ => B σ ∨ ∃ i < k, π ++ [i] <+: σ) s' L')
    (fun _ s' => ∃ L', Change D dst s₀ L₀ ∅ s' L' ∅)
    ⟨L, h.congr hsrc hdst fun σ _ _ => by simp⟩ ?_
  · unfold cloneEntries
    dsimp only
    rcases hloop with ⟨hn, L', hc⟩ | ⟨k, -, hn, L', hc⟩
    · exact Or.inl ⟨_, L', by rw [hn]; rfl, hc⟩
    · exact Or.inr ⟨_, L', by rw [hn]; rfl, hc⟩
  · rintro k s1 hk ⟨L1, h1⟩
    have hpos := hslots k hk
    have hslot : look s1.mem src (π ++ [k]) = link s1.mem (ptePage t) k := by
      rw [look_snoc, h1.look_src h₀ hne hpos.init, ← h.look_src h₀ hne hpos.init, ht]
      rfl
    have hsplit : ∀ σ, (B σ ∨ ∃ i < k + 1, π ++ [i] <+: σ) ↔
        (B σ ∨ ∃ i < k, π ++ [i] <+: σ) ∨ π ++ [k] <+: σ := by
      intro σ
      rw [or_assoc]
      refine or_congr_right ⟨?_, ?_⟩
      · rintro ⟨i, hi, hpre⟩
        by_cases hik : i = k
        · exact Or.inr (hik ▸ hpre)
        · exact Or.inl ⟨i, by omega, hpre⟩
      · rintro (⟨i, hi, hpre⟩ | hpre)
        · exact ⟨i, by omega, hpre⟩
        · exact ⟨k, by omega, hpre⟩
    split
    · next hp =>
        rw [or_shift_index _ _ hpos.index_lt, ← pathVal_snoc]
        have hfresh : ∀ σ, π ++ [k] <+: σ → ¬ (B σ ∨ ∃ i < k, π ++ [i] <+: σ) := by
          rintro σ hpre (hB | ⟨i, hi, hpre'⟩)
          · exact hnew σ ((List.prefix_append π [k]).trans hpre) hB
          · have hpp := List.prefix_of_prefix_length_le hpre' hpre (by simp)
            have := hpp.eq_of_length (by simp)
            simp only [List.append_cancel_left_eq, List.cons.injEq, and_true] at this
            omega
        rcases hinner k _ s1 L1 _ hk h1 hfresh (hslot.trans (link_some.2 ⟨hp, rfl⟩)) with
          ⟨s', L', heq, hc⟩ | ⟨s', L', heq, hc⟩
        · rw [heq]
          exact Or.inl ⟨rfl, L', hc.congr hsrc hdst fun σ _ _ => hsplit σ⟩
        · rw [heq]
          exact Or.inr ⟨rfl, L', hc⟩
    · next hp =>
        have hnone : ∀ σ, Pos D src σ → π ++ [k] <+: σ → look s₀.mem src σ = none := by
          rintro σ hσ ⟨τ, rfl⟩
          rw [← h1.look_src h₀ hne hσ, look_append, hslot, link_none.2 hp]
          rfl
        exact Or.inl ⟨rfl, L1, (h1.skip hsrc hdst hnone).congr hsrc hdst fun σ _ _ => hsplit σ⟩

include h₀ hsrc hdst hne in
/-- The loop nest below an entry of the parent. -/
theorem Cloning.below (h : Cloning D src dst s₀ L₀ B s L) {e : Nat} {π : List Nat}
    (hπ : Pos D src π) (hnil : π ≠ []) (depth : Nat) (hdepth : π.length + depth = 4)
    (he : look s.mem src π = some e) (hnew : ∀ σ, π <+: σ → ¬ B σ) :
    (∃ s' L', cloneBelow dst depth (pathVal π * 2 ^ (12 + 9 * depth)) e s = (true, s') ∧
        Cloning D src dst s₀ L₀ (fun σ => B σ ∨ π <+: σ) s' L') ∨
      ∃ s' L', cloneBelow dst depth (pathVal π * 2 ^ (12 + 9 * depth)) e s = (false, s') ∧
        Change D dst s₀ L₀ ∅ s' L' ∅ := by
  induction depth generalizing π e s L B with
  | zero =>
      have hva := vaPath_pathVal (by omega) hπ.2.2.1
      have hlow : idxPml4 (pathVal π * 2 ^ 12) < 256 := by
        have hπ' : Pos D src (vaPath (pathVal π * 2 ^ 12)) := by rwa [hva]
        obtain ⟨-, ⟨-, hi⟩ | ⟨rfl, -⟩⟩ :=
          hπ'.2.2.2 (idxPml4 (pathVal π * 2 ^ 12)) (by simp [vaPath])
        · exact hi
        · exact absurd hsrc D.kernel_not_user
      rcases h.leaf h₀ hsrc hdst hne hlow (by rwa [hva]) (by rw [hva]; exact hnew π List.prefix_rfl)
        with ⟨s', L', heq, hc⟩ | ⟨s', L', heq, hc⟩
      · refine Or.inl ⟨s', L', heq, hc.congr hsrc hdst fun σ _ hlen => or_congr_right ?_⟩
        rw [hva]
        constructor
        · exact fun hpre => (hpre.eq_of_length (by omega)).symm
        · rintro rfl
          exact List.prefix_rfl
      · exact Or.inr ⟨s', L', heq, hc⟩
  | succ depth ih =>
      have hslots : ∀ i < 512, Pos D src (π ++ [i]) := fun i hi => hπ.snoc hnil (by omega) hi
      have hent := h.entries h₀ hsrc hdst hne he (cloneBelow dst depth) 512 (12 + 9 * depth) hslots
        hnew fun i B1 s1 L1 e1 hi h1 hnew1 he1 =>
          ih h1 (hslots i hi) (by simp) (by simp; omega) he1 hnew1
      have hexp : 12 + 9 * (depth + 1) = 12 + 9 * depth + 9 := by omega
      rw [hexp]
      rcases hent with ⟨s', L', heq, hc⟩ | ⟨s', L', heq, hc⟩
      · refine Or.inl ⟨s', L', heq, hc.congr hsrc hdst fun σ hσ hlen => or_congr_right ?_⟩
        constructor
        · rintro ⟨τ, rfl⟩
          cases τ with
          | nil =>
              simp only [List.append_nil] at hlen
              omega
          | cons i τ => exact ⟨i, hσ.2.2.1 i (by simp), τ, by simp⟩
        · rintro ⟨i, -, hpre⟩
          exact (List.prefix_append π [i]).trans hpre
      · exact Or.inr ⟨s', L', heq, hc⟩

end

end FiFi.Fork
