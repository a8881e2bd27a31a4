import FiFi.Pmm.Invariant

/-!
# The two zones `pmm_init` chooses

A scan cuts every usable entry of the memory map to whole pages and keeps the
first longest result. `mainPart` and `dmaPart` are the cuts of the two scans as
plain arithmetic on one entry, and `FirstLongest` is the choice between them,
so the zones are described without reference to the scanning loops. The
description needs that no entry wraps around; `EndsBelow` bounds the ends of
the usable entries.
-/

namespace FiFi.Pmm

/-- Every usable entry of the map ends at or below `bound`, as natural
numbers. -/
def EndsBelow (bound : Nat) (mm : Memmap) : Prop :=
  ∀ entries, mm = some entries → ∀ e : MemmapEntry, some e ∈ entries →
    e.type = memmapUsable → e.base.toNat + e.length.toNat ≤ bound

/-- `[base, stop)` cut to whole pages above `MIN_PHYS`, if a page is left. -/
def cutZone (base stop : Nat) : Option Zone :=
  let start := (max base minPhys + (pageSize - 1)) / pageSize * pageSize
  if start + pageSize ≤ stop then some ⟨start, stop - start⟩ else none

/-- The part of an entry that can become the main zone. -/
def mainPart (e : MemmapEntry) : Option Zone :=
  if e.type = memmapUsable then cutZone e.base.toNat (e.base.toNat + e.length.toNat) else none

/-- The part of an entry that can become the DMA zone. -/
def dmaPart (e : MemmapEntry) : Option Zone :=
  if e.type = memmapUsable ∧ e.base.toNat < dma32Limit then
    cutZone e.base.toNat (min (e.base.toNat + e.length.toNat) dma32Limit)
  else none

/-- `z` is the first of the longest parts of the entries. -/
def FirstLongest (part : MemmapEntry → Option Zone) (entries : List (Option MemmapEntry))
    (z : Zone) : Prop :=
  ∃ pre e post, entries = pre ++ some e :: post ∧ part e = some z ∧
    (∀ e' z', some e' ∈ pre → part e' = some z' → z'.len < z.len) ∧
    (∀ e' z', some e' ∈ post → part e' = some z' → z'.len ≤ z.len)

/-- The entries have no part at all. -/
def NoPart (part : MemmapEntry → Option Zone) (entries : List (Option MemmapEntry)) : Prop :=
  ∀ e, some e ∈ entries → part e = none

/-- The choice a scan makes between the best region so far and one more part. -/
def pickLonger (best : Zone) : Option Zone → Zone
  | none => best
  | some z => if best.len < z.len then z else best

theorem cutZone_some {base stop : Nat} {z : Zone} (h : cutZone base stop = some z) :
    z.start % pageSize = 0 ∧ minPhys ≤ z.start ∧ base ≤ z.start ∧
      z.start + z.len = stop ∧ pageSize ≤ z.len := by
  unfold cutZone at h
  dsimp only at h
  split at h
  · next hle =>
      obtain rfl := Option.some.inj h
      simp only [pageSize, minPhys] at *
      omega
  · simp at h

/-- The common tail of the scans, on an interval that does not wrap. -/
theorem considerZone_eq {best : Zone} {base stop : Nat} (hstop : stop ≤ 2 ^ 63)
    (hbase : base ≤ 2 ^ 63) :
    considerZone best base stop = pickLonger best (cutZone base stop) := by
  have hmax : (if base < minPhys then minPhys else base) = max base minPhys := by
    rw [max_def]
    split <;> split <;> omega
  have hstart : alignUp (max base minPhys) =
      (max base minPhys + (pageSize - 1)) / pageSize * pageSize := by
    simp only [alignUp, alignDown, u64, pageSize, minPhys]
    omega
  unfold considerZone cutZone
  dsimp only
  rw [hmax, hstart]
  generalize hst : (max base minPhys + (pageSize - 1)) / pageSize * pageSize = start
  have hmin : minPhys ≤ start := by
    simp only [pageSize, minPhys] at *
    omega
  have hub : start ≤ 2 ^ 63 + pageSize := by
    simp only [pageSize, minPhys] at *
    omega
  have hu : u64 (start + pageSize) = start + pageSize := by
    simp only [u64, pageSize] at *
    omega
  rw [hu]
  by_cases hfit : start + pageSize ≤ stop
  · have hlen : u64 (2 ^ 64 + stop - start) = stop - start := by
      simp only [u64, pageSize] at *
      omega
    rw [if_neg (by simp only [pageSize] at *; omega), if_neg (by omega), if_pos hfit, hlen]
    rfl
  · rw [if_neg hfit, if_pos (show stop < start + pageSize by omega), ite_self]
    rfl

theorem scanMain_eq {best : Zone} {e : MemmapEntry}
    (he : e.type = memmapUsable → e.base.toNat + e.length.toNat ≤ 2 ^ 63) :
    scanMain best (some e) = pickLonger best (mainPart e) := by
  by_cases ht : e.type = memmapUsable
  · have hsum := he ht
    have hu : u64 (e.base.toNat + e.length.toNat) = e.base.toNat + e.length.toNat := by
      simp only [u64]
      omega
    simp only [scanMain, mainPart, ht, ne_eq, not_true_eq_false, if_false, if_true, hu]
    exact considerZone_eq hsum (by omega)
  · simp [scanMain, mainPart, ht, pickLonger]

theorem scanDma32_eq {best : Zone} {e : MemmapEntry}
    (he : e.type = memmapUsable → e.base.toNat + e.length.toNat ≤ 2 ^ 63) :
    scanDma32 best (some e) = pickLonger best (dmaPart e) := by
  by_cases ht : e.type = memmapUsable
  · have hsum := he ht
    have hu : u64 (e.base.toNat + e.length.toNat) = e.base.toNat + e.length.toNat := by
      simp only [u64]
      omega
    by_cases hb : dma32Limit ≤ e.base.toNat
    · have hb' : ¬ e.base.toNat < dma32Limit := by omega
      simp [scanDma32, dmaPart, ht, hb, hb', pickLonger]
    · have hcap : (if dma32Limit < e.base.toNat + e.length.toNat then dma32Limit
          else e.base.toNat + e.length.toNat) =
          min (e.base.toNat + e.length.toNat) dma32Limit := by
        rw [min_def]
        split <;> split <;> omega
      have hb' : e.base.toNat < dma32Limit := by omega
      simp only [scanDma32, dmaPart, ht, hb, hb', ne_eq, not_true_eq_false, if_false, hu, hcap,
        and_self, if_true]
      exact considerZone_eq (by omega) (by omega)
  · simp [scanDma32, dmaPart, ht, pickLonger]

/-- A scan returns the starting region or the first longest part. -/
theorem foldl_pickLonger {part : MemmapEntry → Option Zone}
    {scan : Zone → Option MemmapEntry → Zone} (hnone : ∀ best, scan best none = best)
    (entries : List (Option MemmapEntry))
    (hscan : ∀ best e, some e ∈ entries → scan best (some e) = pickLonger best (part e))
    (best : Zone) :
    (entries.foldl scan best = best ∧
        ∀ e z, some e ∈ entries → part e = some z → z.len ≤ best.len) ∨
      (FirstLongest part entries (entries.foldl scan best) ∧
        best.len < (entries.foldl scan best).len) := by
  induction entries generalizing best with
  | nil => exact Or.inl ⟨rfl, by simp⟩
  | cons entry entries ih =>
      have htail := ih fun b e he => hscan b e (List.mem_cons_of_mem entry he)
      -- an entry without a longer part leaves the best region as it is
      have hkeep : scan best entry = best →
          (∀ e z, entry = some e → part e = some z → z.len ≤ best.len) →
          (List.foldl scan best (entry :: entries) = best ∧
              ∀ e z, some e ∈ entry :: entries → part e = some z → z.len ≤ best.len) ∨
            (FirstLongest part (entry :: entries) (List.foldl scan best (entry :: entries)) ∧
              best.len < (List.foldl scan best (entry :: entries)).len) := by
        intro hsame hshort
        rw [List.foldl_cons, hsame]
        rcases htail best with ⟨heq, hle⟩ | ⟨⟨pre, e, post, hsplit, hz, hpre, hpost⟩, hlt⟩
        · refine Or.inl ⟨heq, fun e z he hz => ?_⟩
          rcases List.mem_cons.1 he with hhead | hmem
          · exact hshort e z hhead.symm hz
          · exact hle e z hmem hz
        · refine Or.inr ⟨⟨entry :: pre, e, post, by rw [hsplit, List.cons_append], hz, ?_, hpost⟩,
            hlt⟩
          intro e' z' he' hz'
          rcases List.mem_cons.1 he' with hhead | hmem
          · exact (hshort e' z' hhead.symm hz').trans_lt hlt
          · exact hpre e' z' hmem hz'
      cases entry with
      | none => exact hkeep (hnone best) (by simp)
      | some e =>
          have hone := hscan best e (by simp)
          cases hp : part e with
          | none =>
              refine hkeep (by rw [hone, hp]; rfl) fun e' z' he' hz' => ?_
              obtain rfl := Option.some.inj he'
              rw [hp] at hz'
              simp at hz'
          | some z =>
              by_cases hlt : best.len < z.len
              · right
                have hnew : scan best (some e) = z := by
                  rw [hone, hp]
                  exact if_pos hlt
                rw [List.foldl_cons, hnew]
                rcases htail z with ⟨heq, hle⟩ | ⟨⟨pre, e₁, post, hsplit, hz, hpre, hpost⟩, hlt'⟩
                · rw [heq]
                  exact ⟨⟨[], e, entries, rfl, hp, by simp, hle⟩, hlt⟩
                · refine ⟨⟨some e :: pre, e₁, post, by rw [hsplit, List.cons_append], hz, ?_,
                    hpost⟩, hlt.trans hlt'⟩
                  intro e' z' he' hz'
                  rcases List.mem_cons.1 he' with hhead | hmem
                  · obtain rfl := Option.some.inj hhead
                    rw [hp] at hz'
                    obtain rfl := Option.some.inj hz'
                    exact hlt'
                  · exact hpre e' z' hmem hz'
              · refine hkeep (by rw [hone, hp]; exact if_neg hlt) fun e' z' he' hz' => ?_
                obtain rfl := Option.some.inj he'
                rw [hp] at hz'
                obtain rfl := Option.some.inj hz'
                omega

/-! ### The state after `pmm_init` -/

theorem mainPart_pos {e : MemmapEntry} {z : Zone} (h : mainPart e = some z) :
    z.start % pageSize = 0 ∧ minPhys ≤ z.start ∧ pageSize ≤ z.len ∧
      z.start + z.len = e.base.toNat + e.length.toNat ∧ e.type = memmapUsable := by
  unfold mainPart at h
  split at h
  · next ht =>
      obtain ⟨hmod, hmin, _, hsum, hlen⟩ := cutZone_some h
      exact ⟨hmod, hmin, hlen, hsum, ht⟩
  · simp at h

theorem dmaPart_pos {e : MemmapEntry} {z : Zone} (h : dmaPart e = some z) :
    z.start % pageSize = 0 ∧ minPhys ≤ z.start ∧ pageSize ≤ z.len ∧
      z.start + z.len ≤ dma32Limit := by
  unfold dmaPart at h
  split at h
  · obtain ⟨hmod, hmin, _, hsum, hlen⟩ := cutZone_some h
    exact ⟨hmod, hmin, hlen, hsum ▸ min_le_right _ _⟩
  · simp at h

/-- A scan of entries that do not wrap, started from nothing: there is no part
and the result is empty, or the result is the first longest part. -/
theorem scan_spec {part : MemmapEntry → Option Zone}
    (scan : Zone → Option MemmapEntry → Zone) (hnone : ∀ best, scan best none = best)
    {entries : List (Option MemmapEntry)}
    (hscan : ∀ best e, some e ∈ entries → scan best (some e) = pickLonger best (part e))
    (hpos : ∀ e z, part e = some z → 0 < z.len) :
    (NoPart part entries ∧ (entries.foldl scan ⟨0, 0⟩).len = 0) ∨
      (FirstLongest part entries (entries.foldl scan ⟨0, 0⟩) ∧
        (entries.foldl scan ⟨0, 0⟩).len ≠ 0) := by
  rcases foldl_pickLonger hnone entries hscan ⟨0, 0⟩ with ⟨heq, hle⟩ | ⟨hfirst, hlt⟩
  · refine Or.inl ⟨fun e he => ?_, by rw [heq]⟩
    cases hp : part e with
    | none => rfl
    | some z => exact absurd (hle e z he hp) (by have := hpos e z hp; simp only; omega)
  · exact Or.inr ⟨hfirst, Nat.ne_of_gt hlt⟩

/-- What `pmm_init` leaves when it finds no usable region. -/
structure InitFailed (s : PmmState) : Prop where
  cursor : s.cursor = 0
  stop : s.stop = 0
  freeList : s.freeList = 0
  freePages : s.freePages = 0

/-- What `pmm_init` leaves when the main zone is `m`. -/
structure InitOk (entries : List (Option MemmapEntry)) (m : Zone) (s : PmmState) : Prop where
  main : FirstLongest mainPart entries m
  cursor : s.cursor = m.start
  stop : s.stop = m.start + m.len
  inv : PmmInv s []
  dma : (NoPart dmaPart entries ∧ s.dma32Cursor = 0) ∨
    ∃ d, FirstLongest dmaPart entries d ∧ s.dma32Cursor = d.start ∧ s.dma32Stop = d.start + d.len

theorem FirstLongest.exists_part {part : MemmapEntry → Option Zone}
    {entries : List (Option MemmapEntry)} {z : Zone} (h : FirstLongest part entries z) :
    ∃ e, some e ∈ entries ∧ part e = some z := by
  obtain ⟨pre, e, post, rfl, hz, -, -⟩ := h
  exact ⟨e, by simp, hz⟩

theorem FirstLongest.not_noPart {part : MemmapEntry → Option Zone}
    {entries : List (Option MemmapEntry)} {z : Zone} (h : FirstLongest part entries z) :
    ¬ NoPart part entries := by
  intro hno
  obtain ⟨e, he, hz⟩ := h.exists_part
  rw [hno e he] at hz
  simp at hz

/-- The choice is unique. -/
theorem FirstLongest.unique {part : MemmapEntry → Option Zone}
    {entries : List (Option MemmapEntry)} {z z' : Zone}
    (h : FirstLongest part entries z) (h' : FirstLongest part entries z') : z = z' := by
  obtain ⟨pre, e, post, hs, hz, hpre, hpost⟩ := h
  obtain ⟨pre', e', post', hs', hz', hpre', hpost'⟩ := h'
  -- the two splittings agree, or one entry comes before the other
  rcases List.append_eq_append_iff.1 (hs.symm.trans hs') with ⟨l, hl, hr⟩ | ⟨l, hl, hr⟩
  · cases l with
    | nil =>
        obtain ⟨hee, -⟩ := List.cons.inj hr
        obtain rfl := Option.some.inj hee
        exact Option.some.inj (hz.symm.trans hz')
    | cons x l =>
        obtain ⟨hx, ht⟩ := List.cons.inj hr
        have h1 := hpre' e z (by rw [hl, ← hx]; simp) hz
        have h2 := hpost e' z' (by rw [ht]; simp) hz'
        omega
  · cases l with
    | nil =>
        obtain ⟨hee, -⟩ := List.cons.inj hr
        obtain rfl := Option.some.inj hee
        exact Option.some.inj (hz.symm.trans hz')
    | cons x l =>
        obtain ⟨hx, ht⟩ := List.cons.inj hr
        have h1 := hpre e' z' (by rw [hl, ← hx]; simp) hz'
        have h2 := hpost' e z (by rw [ht]; simp) hz
        omega

theorem pmmInit_spec {mm : Memmap} (hmm : EndsBelow (2 ^ 63) mm) {hhdm : Nat} (hh : hhdm ≠ 0)
    (mem : Nat → Nat) :
    (InitFailed (pmmInit mm hhdm (PmmState.boot mem)) ∧
        ∀ entries, mm = some entries → NoPart mainPart entries) ∨
      ∃ entries m, mm = some entries ∧
        InitOk entries m (pmmInit mm hhdm (PmmState.boot mem)) := by
  cases mm with
  | none => exact Or.inl ⟨⟨rfl, rfl, rfl, rfl⟩, by simp⟩
  | some entries =>
      have hmain := scan_spec scanMain (fun _ => rfl)
        (fun _ e he => scanMain_eq (hmm entries rfl e he))
        (fun e z hz => by
          have := (mainPart_pos hz).2.2.1
          simp only [pageSize] at this
          omega)
      have hdma := scan_spec scanDma32 (fun _ => rfl)
        (fun _ e he => scanDma32_eq (hmm entries rfl e he))
        (fun e z hz => by
          have := (dmaPart_pos hz).2.2.1
          simp only [pageSize] at this
          omega)
      unfold pmmInit
      dsimp only
      generalize hm : List.foldl scanMain ⟨0, 0⟩ entries = m at hmain
      generalize hd : List.foldl scanDma32 ⟨0, 0⟩ entries = d at hdma
      rcases hmain with ⟨hno, hlen⟩ | ⟨hfirst, hlen⟩
      · rw [if_pos hlen]
        refine Or.inl ⟨⟨rfl, rfl, rfl, rfl⟩, ?_⟩
        rintro _ ⟨rfl⟩
        exact hno
      · rw [if_neg hlen]
        right
        obtain ⟨e, he, hz⟩ := hfirst.exists_part
        obtain ⟨hmod, hmin, hpage, hsum, ht⟩ := mainPart_pos hz
        have hend := hmm entries rfl e he ht
        have hu : u64 (m.start + m.len) = m.start + m.len := by
          simp only [u64]
          omega
        have hud : d.len ≠ 0 → FirstLongest dmaPart entries d →
            u64 (d.start + d.len) = d.start + d.len := by
          intro _ hfd
          obtain ⟨e', _, hz'⟩ := hfd.exists_part
          have := (dmaPart_pos hz').2.2.2
          simp only [u64, dma32Limit] at *
          omega
        refine ⟨entries, m, rfl, hfirst, ?_, ?_, ?_, ?_⟩
        · split <;> rfl
        · split <;> exact hu
        · split <;>
            exact ⟨rfl, List.nodup_nil, by simp, hmod, hmin, by simp [hu], by simp [hu]; omega, hh,
              by simp [hu]⟩
        · rcases hdma with ⟨hno, hdlen⟩ | ⟨hfd, hdlen⟩
          · rw [if_pos hdlen]
            exact Or.inl ⟨hno, rfl⟩
          · rw [if_neg hdlen]
            exact Or.inr ⟨d, hfd, rfl, hud hdlen hfd⟩

end FiFi.Pmm
