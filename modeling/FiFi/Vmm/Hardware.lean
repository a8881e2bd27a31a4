import FiFi.Vmm.Ops

/-!
# Translation by the processor

The processor walks the tables like `vmm_translate`, except that an entry of the
middle levels with the size bit set ends the walk: it maps a large page. The
boot loader's direct map uses such entries. `hwTables` lists the tables below
the root that a walk reads, so a write outside the root and these tables does
not change the translation.
-/

namespace FiFi.Vmm

open Pmm RadixForest

/-- The size bit of an entry. -/
def ptePs (e : Nat) : Bool := e / 128 % 2 = 1

/-- The entry that maps an address, with its level. -/
def hwTranslate (mem : Nat → Nat) (root v : Nat) : Option (Nat × Nat) :=
  let e1 := entry mem root (idxPml4 v)
  if !present e1 then none
  else
    let e2 := entry mem (ptePage e1) (idxPdpt v)
    if !present e2 then none
    else if ptePs e2 then some (3, e2)
    else
      let e3 := entry mem (ptePage e2) (idxPd v)
      if !present e3 then none
      else if ptePs e3 then some (2, e3)
      else
        let e4 := entry mem (ptePage e3) (idxPt v)
        if !present e4 then none else some (1, e4)

/-- Only bits 12 to 47 of an address are looked at. -/
theorem hwTranslate_page {mem : Nat → Nat} {root v v' : Nat}
    (h : v / pageSize % 2 ^ 36 = v' / pageSize % 2 ^ 36) :
    hwTranslate mem root v = hwTranslate mem root v' := by
  have hpath := vaPath_congr h
  simp only [vaPath, List.cons.injEq, and_true] at hpath
  obtain ⟨h1, h2, h3, h4⟩ := hpath
  unfold hwTranslate
  rw [h1, h2, h3, h4]

/-- The tables below the root that the walk reads. -/
def hwTables (mem : Nat → Nat) (root v : Nat) : List Nat :=
  let e1 := entry mem root (idxPml4 v)
  if !present e1 then []
  else
    let e2 := entry mem (ptePage e1) (idxPdpt v)
    if !present e2 || ptePs e2 then [ptePage e1]
    else
      let e3 := entry mem (ptePage e2) (idxPd v)
      if !present e3 || ptePs e3 then [ptePage e1, ptePage e2]
      else [ptePage e1, ptePage e2, ptePage e3]

theorem hwTranslate_congr {mem mem' : Nat → Nat} {root v : Nat}
    (hroot : entry mem' root (idxPml4 v) = entry mem root (idxPml4 v))
    (htables : ∀ t ∈ hwTables mem root v, ∀ i < 512, entry mem' t i = entry mem t i) :
    hwTranslate mem' root v = hwTranslate mem root v := by
  have hi2 : idxPdpt v < 512 := Nat.mod_lt _ (by decide)
  have hi3 : idxPd v < 512 := Nat.mod_lt _ (by decide)
  have hi4 : idxPt v < 512 := Nat.mod_lt _ (by decide)
  unfold hwTables at htables
  unfold hwTranslate
  simp only [hroot]
  cases h1 : present (entry mem root (idxPml4 v)) with
  | false => simp
  | true =>
      simp only [h1, Bool.not_true, Bool.false_eq_true, if_false] at htables ⊢
      have ht1 : entry mem' (ptePage (entry mem root (idxPml4 v))) (idxPdpt v) =
          entry mem (ptePage (entry mem root (idxPml4 v))) (idxPdpt v) := by
        refine htables _ ?_ _ hi2
        split
        · simp
        · split <;> simp
      simp only [ht1]
      generalize entry mem (ptePage (entry mem root (idxPml4 v))) (idxPdpt v) = e2 at htables ⊢
      cases h2 : present e2 with
      | false => simp
      | true =>
          cases hs2 : ptePs e2 with
          | true => simp
          | false =>
              simp only [h2, hs2, Bool.not_true, Bool.or_self, Bool.false_eq_true,
                if_false] at htables ⊢
              have ht2 : entry mem' (ptePage e2) (idxPd v) = entry mem (ptePage e2) (idxPd v) := by
                refine htables _ ?_ _ hi3
                split <;> simp
              simp only [ht2]
              generalize entry mem (ptePage e2) (idxPd v) = e3 at htables ⊢
              cases h3 : present e3 with
              | false => simp
              | true =>
                  cases hs3 : ptePs e3 with
                  | true => simp
                  | false =>
                      simp only [h3, hs3, Bool.not_true, Bool.or_self, Bool.false_eq_true,
                        if_false] at htables ⊢
                      have ht3 : entry mem' (ptePage e3) (idxPt v) =
                          entry mem (ptePage e3) (idxPt v) := htables _ (by simp) _ hi4
                      simp only [ht3]

theorem TableEntry.not_ps {e : Nat} (h : TableEntry e) : ptePs e = false := by
  have hmod := ptePage_mod e
  simp only [TableEntry, ptePs, pageSize, decide_eq_false_iff_not] at *
  omega

/-- In the forest no large pages occur, and the processor finds the entry of the
page. -/
theorem VmmInv.hwTranslate {D : Domain} {s : VmmState} {L : List Nat} {H : Set Nat}
    (h : VmmInv D s L H) {r : Nat} (hr : r ∈ D.user ∨ r = D.kernel) {v : Nat}
    (hv : idxPml4 v ∈ D.slotsOf r) :
    Vmm.hwTranslate s.mem r v = (look s.mem r (vaPath v)).map fun e => (1, e) := by
  have hpos := pos_vaPath hr hv
  have h3 : Pos D r ([idxPml4 v] ++ [idxPdpt v] ++ [idxPd v]) := Pos.init (i := idxPt v) hpos
  have h2 : Pos D r ([idxPml4 v] ++ [idxPdpt v]) := h3.init
  have hpath : vaPath v = [idxPml4 v] ++ [idxPdpt v] ++ [idxPd v] ++ [idxPt v] := rfl
  have hl1 : look s.mem r [idxPml4 v] = link s.mem r (idxPml4 v) := by
    have := look_snoc s.mem r [] (idxPml4 v)
    rw [look_nil, Option.bind_some, h.root r hr] at this
    exact this
  rw [hpath, look_snoc, look_snoc, look_snoc, hl1]
  unfold Vmm.hwTranslate
  cases he1 : link s.mem r (idxPml4 v) with
  | none => simp [link_none.1 he1]
  | some e1 =>
      obtain ⟨hp1, hv1⟩ := link_some.1 he1
      simp only [hv1, hp1, Bool.not_true, Bool.false_eq_true, if_false, Option.bind_some]
      cases he2 : link s.mem (ptePage e1) (idxPdpt v) with
      | none => simp [link_none.1 he2]
      | some e2 =>
          obtain ⟨hp2, hv2⟩ := link_some.1 he2
          have hl2 : look s.mem r ([idxPml4 v] ++ [idxPdpt v]) = some e2 := by
            rw [look_snoc, hl1, he1, Option.bind_some, he2]
          have ht2 := h.tables r _ e2 h2 (by simp) (by simp) hl2
          simp only [hv2, hp2, ht2.not_ps, Bool.not_true, Bool.false_eq_true, if_false,
            Option.bind_some]
          cases he3 : link s.mem (ptePage e2) (idxPd v) with
          | none => simp [link_none.1 he3]
          | some e3 =>
              obtain ⟨hp3, hv3⟩ := link_some.1 he3
              have hl3 : look s.mem r ([idxPml4 v] ++ [idxPdpt v] ++ [idxPd v]) = some e3 := by
                rw [look_snoc, hl2, Option.bind_some, he3]
              have ht3 := h.tables r _ e3 h3 (by simp) (by simp) hl3
              simp only [hv3, hp3, ht3.not_ps, Bool.not_true, Bool.false_eq_true, if_false,
                Option.bind_some]
              cases he4 : link s.mem (ptePage e3) (idxPt v) with
              | none => simp [link_none.1 he4]
              | some e4 =>
                  obtain ⟨hp4, hv4⟩ := link_some.1 he4
                  simp [hv4, hp4]

end FiFi.Vmm
