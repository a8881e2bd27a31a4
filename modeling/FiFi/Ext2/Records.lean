import FiFi.Ext2.Volume

/-!
# Directory blocks

A directory block is a chain of records. Inserting an entry splits the record of
another one or fills a record that is not in use, and the entries in use become
the old ones and the new one. Removing an entry leaves its record in the chain.
-/

namespace FiFi.Ext2

open ByteStore

/-! ### The chain -/

theorem chainFrom_fuel {b : Bytes} {size p n k : Nat} (hn : size - p ≤ n) (hk : size - p ≤ k) :
    chainFrom b size n p = chainFrom b size k p := by
  induction n generalizing p k with
  | zero =>
      cases k with
      | zero => rfl
      | succ k => exact (if_neg (by omega)).symm
  | succ n ih =>
      cases k with
      | zero => exact if_neg (by omega)
      | succ k =>
          simp only [chainFrom]
          split
          · rw [ih (k := k) (by omega) (by omega)]
          · rfl

/-- The offsets from a record on. -/
def chainAt (b : Bytes) (size p : Nat) : List Nat := chainFrom b size size p

/-- There is a record at an offset. -/
def Record (b : Bytes) (size p : Nat) : Prop :=
  p < size ∧ 8 ≤ deRecLen b p ∧ p + deRecLen b p ≤ size

instance (b : Bytes) (size p : Nat) : Decidable (Record b size p) := instDecidableAnd

theorem chainAt_eq (b : Bytes) (size p : Nat) : chainAt b size p =
    if Record b size p then p :: chainAt b size (p + deRecLen b p) else [] := by
  cases size with
  | zero => exact (if_neg fun h => by simp [Record] at h).symm
  | succ n =>
      have hunfold : chainAt b (n + 1) p = if Record b (n + 1) p then
          p :: chainFrom b (n + 1) n (p + deRecLen b p) else [] := rfl
      rw [hunfold]
      split
      · rename_i h
        have := h.2.1
        exact congrArg (p :: ·) (chainFrom_fuel (by omega) (by omega))
      · rfl

theorem chainAt_of_record {b : Bytes} {size p : Nat} (h : Record b size p) :
    chainAt b size p = p :: chainAt b size (p + deRecLen b p) := by
  rw [chainAt_eq, if_pos h]

/-- Induction along the chain. -/
theorem chain_induction (b : Bytes) (size : Nat) {P : Nat → Prop}
    (hend : ∀ p, ¬ Record b size p → P p)
    (hstep : ∀ p, Record b size p → P (p + deRecLen b p) → P p) (p : Nat) : P p := by
  induction hn : size - p using Nat.strong_induction_on generalizing p with
  | _ n ih =>
      by_cases hr : Record b size p
      · have := hr.1
        have := hr.2.1
        exact hstep p hr (ih (size - (p + deRecLen b p)) (by omega) _ rfl)
      · exact hend p hr

theorem mem_chainAt {b : Bytes} {size p q : Nat} (h : q ∈ chainAt b size p) :
    Record b size q ∧ (q = p ∨ p + deRecLen b p ≤ q) := by
  induction p using chain_induction b size with
  | hend p hr =>
      rw [chainAt_eq, if_neg hr] at h
      cases h
  | hstep p hr ih =>
      rw [chainAt_of_record hr] at h
      rcases List.mem_cons.1 h with rfl | h
      · exact ⟨hr, Or.inl rfl⟩
      · obtain ⟨hq, hle⟩ := ih h
        refine ⟨hq, Or.inr ?_⟩
        rcases hle with rfl | hle <;> omega

/-! ### Entries -/

/-- The entries in use from a record on. -/
def liveFrom (b : Bytes) (size p : Nat) : List Entry := liveAt b (chainAt b size p)

/-- The entry at an offset, if it is in use. -/
def entryAt (b : Bytes) (p : Nat) : List Entry :=
  if deInode b p = 0 then [] else [(deName b p, deInode b p)]

theorem liveFrom_of_record {b : Bytes} {size p : Nat} (h : Record b size p) :
    liveFrom b size p = entryAt b p ++ liveFrom b size (p + deRecLen b p) := by
  unfold liveFrom entryAt liveAt
  rw [chainAt_of_record h]
  by_cases h0 : deInode b p = 0
  · rw [if_pos h0, List.filter_cons_of_neg (by simp [h0])]
    rfl
  · rw [if_neg h0, List.filter_cons_of_pos (by simp [h0])]
    rfl

/-- The records of the entries in use are long enough. -/
def RecordsFrom (b : Bytes) (size p : Nat) : Prop :=
  ∀ q ∈ chainAt b size p, deInode b q ≠ 0 → actualLen b q ≤ deRecLen b q

theorem recordsFrom_of_record {b : Bytes} {size p : Nat} (h : Record b size p) :
    RecordsFrom b size p ↔ (deInode b p ≠ 0 → actualLen b p ≤ deRecLen b p) ∧
      RecordsFrom b size (p + deRecLen b p) := by
  unfold RecordsFrom
  rw [chainAt_of_record h]
  simp

/-- The records from a later one on. -/
theorem recordsFrom_of_mem {b : Bytes} {size p q : Nat} (h : q ∈ chainAt b size p)
    (hok : RecordsFrom b size p) : RecordsFrom b size q := by
  induction p using chain_induction b size with
  | hend p hr =>
      rw [chainAt_eq, if_neg hr] at h
      cases h
  | hstep p hr ih =>
      rw [chainAt_of_record hr] at h
      rcases List.mem_cons.1 h with rfl | h
      · exact hok
      · exact ih h ((recordsFrom_of_record hr).1 hok).2

section Congr

variable {b b' : Bytes} {p : Nat}

theorem deInode_congr (h : ∀ i, p ≤ i → i < p + 8 → b' i = b i) : deInode b' p = deInode b p :=
  le32_congr fun i hi hi' => h i hi (by omega)

theorem deRecLen_congr (h : ∀ i, p ≤ i → i < p + 8 → b' i = b i) : deRecLen b' p = deRecLen b p :=
  le16_congr fun i hi hi' => h i (by omega) (by omega)

theorem deNameLen_congr (h : ∀ i, p ≤ i → i < p + 8 → b' i = b i) :
    deNameLen b' p = deNameLen b p :=
  congrArg UInt8.toNat (h (p + 6) (by omega) (by omega))

theorem actualLen_congr (h : ∀ i, p ≤ i → i < p + 8 → b' i = b i) :
    actualLen b' p = actualLen b p := by
  unfold actualLen
  rw [deInode_congr h, deNameLen_congr h]

theorem deName_congr (h : ∀ i, p ≤ i → i < p + 8 + deNameLen b p → b' i = b i) :
    deName b' p = deName b p := by
  unfold deName
  rw [deNameLen_congr fun i hi hi' => h i hi (by omega)]
  exact toList_congr fun i hi hi' => h i (by omega) (by omega)

theorem record_congr {size : Nat} (h : ∀ i, p ≤ i → i < p + 8 → b' i = b i) :
    Record b' size p ↔ Record b size p := by
  unfold Record
  rw [deRecLen_congr h]

/-- An entry stays if its record stays. -/
theorem entryAt_congr {size : Nat} (hr : Record b size p)
    (hok : deInode b p ≠ 0 → actualLen b p ≤ deRecLen b p)
    (h : ∀ i, p ≤ i → i < p + deRecLen b p → b' i = b i) : entryAt b' p = entryAt b p := by
  have hhead : ∀ i, p ≤ i → i < p + 8 → b' i = b i := fun i hi hi' =>
    h i hi (by have := hr.2.1; omega)
  unfold entryAt
  rw [deInode_congr hhead]
  by_cases h0 : deInode b p = 0
  · rw [if_pos h0, if_pos h0]
  · rw [if_neg h0, if_neg h0, deName_congr fun i hi hi' => h i hi ?_]
    have hlen := hok h0
    unfold actualLen at hlen
    rw [if_pos h0] at hlen
    unfold entrySize at hlen
    omega

theorem chainAt_congr {size : Nat} (h : ∀ i, p ≤ i → b' i = b i) :
    chainAt b' size p = chainAt b size p := by
  induction p using chain_induction b size with
  | hend p hr =>
      rw [chainAt_eq b, if_neg hr, chainAt_eq b',
        if_neg (mt (record_congr fun i hi _ => h i hi).1 hr)]
  | hstep p hr ih =>
      have hr' := (record_congr fun i hi _ => h i hi).2 hr
      rw [chainAt_of_record hr, chainAt_of_record hr', deRecLen_congr fun i hi _ => h i hi,
        ih fun i hi => h i (by omega)]

/-- What follows depends on the bytes that follow. -/
theorem liveFrom_congr {size : Nat} (h : ∀ i, p ≤ i → b' i = b i) :
    liveFrom b' size p = liveFrom b size p := by
  unfold liveFrom liveAt
  rw [chainAt_congr h]
  have hq : ∀ q ∈ chainAt b size p, p ≤ q := by
    intro q hq
    rcases (mem_chainAt hq).2 with hle | hle <;> omega
  rw [List.filter_congr fun q hmem => by
    rw [deInode_congr fun i hi _ => h i ((hq q hmem).trans hi)]]
  refine List.map_congr_left fun q hmem => ?_
  have hle := hq q (List.mem_of_mem_filter hmem)
  rw [deInode_congr fun i hi _ => h i (hle.trans hi), deName_congr fun i hi _ => h i (hle.trans hi)]

theorem recordsFrom_congr {size : Nat} (h : ∀ i, p ≤ i → b' i = b i)
    (hok : RecordsFrom b size p) : RecordsFrom b' size p := by
  intro q hmem h0
  rw [chainAt_congr h] at hmem
  have hle : p ≤ q := by
    rcases (mem_chainAt hmem).2 with hle | hle <;> omega
  have hhead : ∀ i, q ≤ i → i < q + 8 → b' i = b i := fun i hi _ => h i (hle.trans hi)
  rw [actualLen_congr hhead, deRecLen_congr hhead]
  exact hok q hmem (deInode_congr hhead ▸ h0)

end Congr

/-- What comes before a record stays if only bytes from the record on are changed. -/
theorem liveFrom_splice {b b' : Bytes} {size p q : Nat} (hq : q ∈ chainAt b size p)
    (hok : RecordsFrom b size p) (h : ∀ i < q, b' i = b i) :
    ∃ l, liveFrom b size p = l ++ liveFrom b size q ∧
      liveFrom b' size p = l ++ liveFrom b' size q ∧
      (RecordsFrom b' size q → RecordsFrom b' size p) := by
  induction p using chain_induction b size with
  | hend p hr =>
      rw [chainAt_eq, if_neg hr] at hq
      cases hq
  | hstep p hr ih =>
      obtain ⟨hself, hrest⟩ := (recordsFrom_of_record hr).1 hok
      rw [chainAt_of_record hr] at hq
      rcases List.mem_cons.1 hq with rfl | hq
      · exact ⟨[], rfl, rfl, id⟩
      · obtain ⟨l, hold, hnew, hkeep⟩ := ih hq hrest
        have hle : p + deRecLen b p ≤ q := by
          rcases (mem_chainAt hq).2 with rfl | hle <;> omega
        have hhead : ∀ i, p ≤ i → i < p + 8 → b' i = b i :=
          fun i _ hi => h i (by have := hr.2.1; omega)
        have hr' := (record_congr hhead).2 hr
        refine ⟨entryAt b p ++ l, ?_, ?_, fun hrecs => ?_⟩
        · rw [liveFrom_of_record hr, hold, List.append_assoc]
        · rw [liveFrom_of_record hr', deRecLen_congr hhead, hnew,
            entryAt_congr hr hself fun i _ hi => h i (by omega), List.append_assoc]
        · rw [recordsFrom_of_record hr', deRecLen_congr hhead, deInode_congr hhead,
            actualLen_congr hhead]
          exact ⟨hself, hkeep hrecs⟩

/-! ### Writing an entry -/

section Put

variable (b : Bytes) (p ino ftype : Nat) (name : List UInt8)

theorem putEntry_out {i : Nat} (h : i < p ∨ p + 8 + name.length ≤ i) :
    putEntry b p ino ftype name i = b i := by
  unfold putEntry
  rw [blit_out _ _ (by omega), put8_ne _ _ (by omega), put8_ne _ _ (by omega),
    put32_ne _ _ (by omega)]

theorem deInode_putEntry (h : ino < 2 ^ 32) : deInode (putEntry b p ino ftype name) p = ino := by
  have hsame : deInode (putEntry b p ino ftype name) p = le32 (put32 b p ino) p := by
    refine le32_congr fun i hi hi' => ?_
    unfold putEntry
    rw [blit_out _ _ (by omega), put8_ne _ _ (by omega), put8_ne _ _ (by omega)]
  rw [hsame, le32_put32_of_lt _ _ h]

theorem deRecLen_putEntry : deRecLen (putEntry b p ino ftype name) p = deRecLen b p := by
  refine le16_congr fun i hi hi' => ?_
  unfold putEntry
  rw [blit_out _ _ (by omega), put8_ne _ _ (by omega), put8_ne _ _ (by omega),
    put32_ne _ _ (by omega)]

theorem deNameLen_putEntry (h : name.length ≤ 255) :
    deNameLen (putEntry b p ino ftype name) p = name.length := by
  unfold deNameLen putEntry
  rw [blit_out _ _ (by omega), put8_ne _ _ (by omega), put8_self, UInt8.toNat_ofNat']
  omega

theorem deName_putEntry (h : name.length ≤ 255) :
    deName (putEntry b p ino ftype name) p = name := by
  unfold deName
  rw [deNameLen_putEntry b p ino ftype name h]
  exact toList_blit_ofList _ _ _

theorem entryAt_putEntry (h : name.length ≤ 255) (h0 : ino ≠ 0) (hino : ino < 2 ^ 32) :
    entryAt (putEntry b p ino ftype name) p = [(name, ino)] := by
  unfold entryAt
  rw [deInode_putEntry b p ino ftype name hino, if_neg h0, deName_putEntry b p ino ftype name h]

theorem actualLen_putEntry (h : name.length ≤ 255) (h0 : ino ≠ 0) (hino : ino < 2 ^ 32) :
    actualLen (putEntry b p ino ftype name) p = entrySize name.length := by
  unfold actualLen
  rw [deInode_putEntry b p ino ftype name hino, if_pos h0,
    deNameLen_putEntry b p ino ftype name h]

end Put

theorem le_entrySize (n : Nat) : 8 + n ≤ entrySize n := by
  unfold entrySize
  omega

theorem entrySize_le {n : Nat} (h : n ≤ 255) : entrySize n ≤ 264 := by
  unfold entrySize
  omega

section Insert

variable {b : Bytes} {size p ino ftype : Nat} {name : List UInt8}

/-- A record that is not in use is filled. -/
theorem insertAt_dead (hr : Record b size p) (hok : RecordsFrom b size p)
    (hname : name.length ≤ 255) (h0 : ino ≠ 0) (hino : ino < 2 ^ 32)
    (hslack : entrySize name.length ≤ slack b p) (hdead : deInode b p = 0) :
    liveFrom (insertAt b p ino ftype name) size p =
        entryAt b p ++ (name, ino) :: liveFrom b size (p + deRecLen b p) ∧
      RecordsFrom (insertAt b p ino ftype name) size p ∧
      ∀ i, i < p ∨ p + deRecLen b p ≤ i → insertAt b p ino ftype name i = b i := by
  have hneed := le_entrySize name.length
  have hins : insertAt b p ino ftype name = putEntry b p ino ftype name :=
    if_neg (by simpa using hdead)
  have hroom : entrySize name.length ≤ deRecLen b p := by
    unfold slack at hslack
    rwa [if_neg (by simp [hdead])] at hslack
  have hout : ∀ i, i < p ∨ p + deRecLen b p ≤ i → putEntry b p ino ftype name i = b i :=
    fun i hi => putEntry_out _ _ _ _ _ (by omega)
  have hrec := deRecLen_putEntry b p ino ftype name
  have hr' : Record (putEntry b p ino ftype name) size p := by
    unfold Record
    rw [hrec]
    exact hr
  rw [hins]
  refine ⟨?_, ?_, hout⟩
  · rw [liveFrom_of_record hr', hrec, entryAt_putEntry _ _ _ _ _ hname h0 hino,
      liveFrom_congr fun i hi => hout i (Or.inr hi), entryAt, if_pos hdead]
    rfl
  · rw [recordsFrom_of_record hr', hrec, actualLen_putEntry _ _ _ _ _ hname h0 hino]
    refine ⟨fun _ => hroom, recordsFrom_congr (fun i hi => hout i (Or.inr hi)) ?_⟩
    exact ((recordsFrom_of_record hr).1 hok).2

/-- A record is cut in two behind the entry that is in it: the entry keeps what it
takes, and the rest is a record for the new one. -/
theorem insertAt_split (ino ftype : Nat) (hsize : size ≤ 4096) (hr : Record b size p) (hlive : deInode b p ≠ 0)
    (hfit : actualLen b p ≤ deRecLen b p)
    (hroom : entrySize name.length ≤ deRecLen b p - actualLen b p) :
    ∃ c, insertAt b p ino ftype name = putEntry c (p + actualLen b p) ino ftype name ∧
      deRecLen c (p + actualLen b p) = deRecLen b p - actualLen b p ∧
      deRecLen (insertAt b p ino ftype name) p = actualLen b p ∧
      deInode (insertAt b p ino ftype name) p = deInode b p ∧
      actualLen (insertAt b p ino ftype name) p = actualLen b p ∧
      deName (insertAt b p ino ftype name) p = deName b p ∧
      ∀ i, i < p ∨ p + deRecLen b p ≤ i → insertAt b p ino ftype name i = b i := by
  have hneed := le_entrySize name.length
  have hactual : actualLen b p = entrySize (deNameLen b p) := if_pos hlive
  have hlen := le_entrySize (deNameLen b p)
  obtain ⟨hlt, hmin, hle⟩ := hr
  generalize ha : actualLen b p = a at hfit hroom hactual
  generalize hc : put16 (put16 b (p + 4) a) (p + a + 4) (deRecLen b p - a) = c
  have hins : insertAt b p ino ftype name = putEntry c (p + a) ino ftype name := by
    unfold insertAt
    rw [if_pos hlive]
    simp only [ha, hc]
  -- outside of the two lengths `c` is `b`
  have hcb : ∀ i, i ≠ p + 4 → i ≠ p + 5 → i ≠ p + a + 4 → i ≠ p + a + 5 → c i = b i := by
    intro i _ _ _ _
    rw [← hc, put16_ne _ _ (by omega), put16_ne _ _ (by omega)]
  have hbelow : ∀ i, p ≤ i → i < p + a → i ≠ p + 4 → i ≠ p + 5 →
      putEntry c (p + a) ino ftype name i = b i := by
    intro i _ _ _ _
    rw [putEntry_out _ _ _ _ _ (by omega), hcb i (by omega) (by omega) (by omega) (by omega)]
  have hnamelen : deNameLen (putEntry c (p + a) ino ftype name) p = deNameLen b p :=
    congrArg UInt8.toNat (hbelow (p + 6) (by omega) (by omega) (by omega) (by omega))
  have hinode : deInode (putEntry c (p + a) ino ftype name) p = deInode b p :=
    le32_congr fun i hi hi' => hbelow i hi (by omega) (by omega) (by omega)
  rw [hins]
  refine ⟨c, rfl, ?_, ?_, hinode, ?_, ?_, fun i hi => ?_⟩
  · unfold deRecLen at *
    rw [← hc]
    exact le16_put16_of_lt _ _ (by omega)
  · have hsame : deRecLen (putEntry c (p + a) ino ftype name) p =
        le16 (put16 b (p + 4) a) (p + 4) := by
      refine le16_congr fun i hi hi' => ?_
      rw [putEntry_out _ _ _ _ _ (by omega), ← hc, put16_ne _ _ (by omega)]
    rw [hsame, le16_put16_of_lt _ _ (by omega)]
  · refine Eq.trans ?_ ha
    rw [actualLen, actualLen, hinode, hnamelen]
  · unfold deName
    rw [hnamelen]
    exact toList_congr fun i hi hi' => hbelow i (by omega) (by omega) (by omega) (by omega)
  · rw [putEntry_out _ _ _ _ _ (by omega), hcb i (by omega) (by omega) (by omega) (by omega)]

theorem room_of_slack (hlive : deInode b p ≠ 0) (hfit : actualLen b p ≤ deRecLen b p)
    {needed : Nat} (hslack : needed ≤ slack b p) : needed ≤ deRecLen b p - actualLen b p := by
  unfold slack at hslack
  rwa [if_pos ⟨hlive, hfit⟩] at hslack

theorem insertAt_live (hsize : size ≤ 4096) (hr : Record b size p) (hok : RecordsFrom b size p)
    (hname : name.length ≤ 255) (h0 : ino ≠ 0) (hino : ino < 2 ^ 32)
    (hslack : entrySize name.length ≤ slack b p) (hlive : deInode b p ≠ 0) :
    liveFrom (insertAt b p ino ftype name) size p =
        entryAt b p ++ (name, ino) :: liveFrom b size (p + deRecLen b p) ∧
      RecordsFrom (insertAt b p ino ftype name) size p ∧
      ∀ i, i < p ∨ p + deRecLen b p ≤ i → insertAt b p ino ftype name i = b i := by
  obtain ⟨hfit, hok'⟩ := (recordsFrom_of_record hr).1 hok
  specialize hfit hlive
  have hroom := room_of_slack hlive hfit hslack
  have hneed := le_entrySize name.length
  have hactual : actualLen b p = entrySize (deNameLen b p) := if_pos hlive
  have hlen := le_entrySize (deNameLen b p)
  obtain ⟨c, hins, hcrec, hprec, hpinode, hpactual, hpname, hout⟩ :=
    insertAt_split ino ftype hsize hr hlive hfit hroom
  obtain ⟨hlt, hmin, hle⟩ := hr
  rw [hins] at hprec hpinode hpactual hpname hout ⊢
  have hrec₂ := deRecLen_putEntry c (p + actualLen b p) ino ftype name
  have hr₁ : Record (putEntry c (p + actualLen b p) ino ftype name) size p := by
    unfold Record
    rw [hprec]
    omega
  have hr₂ : Record (putEntry c (p + actualLen b p) ino ftype name) size (p + actualLen b p) := by
    unfold Record
    rw [hrec₂, hcrec]
    omega
  have hnext : p + actualLen b p + deRecLen (putEntry c (p + actualLen b p) ino ftype name)
      (p + actualLen b p) = p + deRecLen b p := by
    rw [hrec₂, hcrec]
    omega
  refine ⟨?_, ?_, hout⟩
  · rw [liveFrom_of_record hr₁, hprec, liveFrom_of_record hr₂, hnext,
      entryAt_putEntry _ _ _ _ _ hname h0 hino, liveFrom_congr fun i hi => hout i (Or.inr hi)]
    unfold entryAt
    rw [hpinode, hpname]
    rfl
  · rw [recordsFrom_of_record hr₁, hprec, recordsFrom_of_record hr₂, hnext, hrec₂, hcrec,
      actualLen_putEntry _ _ _ _ _ hname h0 hino]
    refine ⟨fun _ => ?_, fun _ => hroom, recordsFrom_congr (fun i hi => hout i (Or.inr hi)) hok'⟩
    rw [hpactual]

theorem insertAt_self (ftype : Nat) (hsize : size ≤ 4096) (hr : Record b size p)
    (hok : RecordsFrom b size p)
    (hname : name.length ≤ 255) (h0 : ino ≠ 0) (hino : ino < 2 ^ 32)
    (hslack : entrySize name.length ≤ slack b p) :
    liveFrom (insertAt b p ino ftype name) size p =
        entryAt b p ++ (name, ino) :: liveFrom b size (p + deRecLen b p) ∧
      RecordsFrom (insertAt b p ino ftype name) size p ∧
      ∀ i, i < p ∨ p + deRecLen b p ≤ i → insertAt b p ino ftype name i = b i := by
  by_cases hlive : deInode b p = 0
  · exact insertAt_dead hr hok hname h0 hino hslack hlive
  · exact insertAt_live hsize hr hok hname h0 hino hslack hlive

/-- The entries of a block after an insertion are the old ones and the new one. -/
theorem liveFrom_insertAt {q : Nat} (ftype : Nat) (hsize : size ≤ 4096)
    (hp : p ∈ chainAt b size q) (hok : RecordsFrom b size q) (hname : name.length ≤ 255)
    (h0 : ino ≠ 0) (hino : ino < 2 ^ 32) (hslack : entrySize name.length ≤ slack b p) :
    (∃ l l', liveFrom b size q = l ++ l' ∧
      liveFrom (insertAt b p ino ftype name) size q = l ++ (name, ino) :: l') ∧
      RecordsFrom (insertAt b p ino ftype name) size q := by
  obtain ⟨hr, -⟩ := mem_chainAt hp
  obtain ⟨hlive, hrecs, hout⟩ :=
    insertAt_self ftype hsize hr (recordsFrom_of_mem hp hok) hname h0 hino hslack
  obtain ⟨l, hold, hnew, hkeep⟩ := liveFrom_splice hp hok fun i hi => hout i (Or.inl hi)
  refine ⟨⟨l ++ entryAt b p, liveFrom b size (p + deRecLen b p), ?_, ?_⟩, hkeep hrecs⟩
  · rw [hold, liveFrom_of_record hr, List.append_assoc]
  · rw [hnew, hlive, List.append_assoc]

end Insert

/-! ### Removing an entry -/

section Remove

variable {b : Bytes} {size p : Nat}

theorem put32_zero_out (b : Bytes) {p i : Nat} (h : i < p ∨ p + 4 ≤ i) : put32 b p 0 i = b i :=
  put32_ne _ _ h

theorem deInode_put32_zero (b : Bytes) (p : Nat) : deInode (put32 b p 0) p = 0 :=
  le32_put32_of_lt _ _ (by decide)

theorem deRecLen_put32_zero (b : Bytes) (p : Nat) : deRecLen (put32 b p 0) p = deRecLen b p :=
  le16_congr fun i hi _ => put32_zero_out b (by omega)

/-- An entry is removed, and its record stays. -/
theorem liveFrom_remove {q : Nat} (hp : p ∈ chainAt b size q) (hok : RecordsFrom b size q)
    (hlive : deInode b p ≠ 0) :
    (∃ l l', liveFrom b size q = l ++ (deName b p, deInode b p) :: l' ∧
      liveFrom (put32 b p 0) size q = l ++ l') ∧ RecordsFrom (put32 b p 0) size q := by
  obtain ⟨hr, -⟩ := mem_chainAt hp
  have hmin := hr.2.1
  have hrec := deRecLen_put32_zero b p
  have hdead := deInode_put32_zero b p
  have hr' : Record (put32 b p 0) size p := by
    unfold Record
    rw [hrec]
    exact hr
  have hafter : ∀ i, p + deRecLen b p ≤ i → put32 b p 0 i = b i :=
    fun i hi => put32_zero_out b (by omega)
  obtain ⟨l, hold, hnew, hkeep⟩ := liveFrom_splice hp hok
    fun i hi => put32_zero_out b (p := p) (Or.inl hi)
  refine ⟨⟨l, liveFrom b size (p + deRecLen b p), ?_, ?_⟩, hkeep ?_⟩
  · rw [hold, liveFrom_of_record hr, entryAt, if_neg hlive]
    rfl
  · rw [hnew, liveFrom_of_record hr', hrec, entryAt, if_pos hdead, liveFrom_congr hafter]
    rfl
  · rw [recordsFrom_of_record hr', hrec]
    refine ⟨fun hc => absurd hdead hc, recordsFrom_congr hafter ?_⟩
    exact ((recordsFrom_of_record hr).1 (recordsFrom_of_mem hp hok)).2

end Remove

/-! ### New blocks -/

theorem liveFrom_end {b : Bytes} {size p : Nat} (h : size ≤ p) : liveFrom b size p = [] := by
  unfold liveFrom
  rw [chainAt_eq, if_neg fun hr => by have := hr.1; omega]
  rfl

theorem recordsFrom_end {b : Bytes} {size p : Nat} (h : size ≤ p) : RecordsFrom b size p := by
  intro q hq
  rw [chainAt_eq, if_neg fun hr => by have := hr.1; omega] at hq
  cases hq

/-- The block of a directory that was too small. -/
theorem liveFrom_newDirBlock (b : Bytes) {size ino ftype : Nat} {name : List UInt8}
    (hsize : 1024 ≤ size ∧ size ≤ 4096) (hname : name.length ≤ 255) (h0 : ino ≠ 0)
    (hino : ino < 2 ^ 32) :
    liveFrom (newDirBlock b size ino ftype name) size 0 = [(name, ino)] ∧
      RecordsFrom (newDirBlock b size ino ftype name) size 0 := by
  have hrec : deRecLen (newDirBlock b size ino ftype name) 0 = size := by
    unfold newDirBlock
    rw [deRecLen_putEntry]
    exact le16_put16_of_lt _ _ (by omega)
  have hr : Record (newDirBlock b size ino ftype name) size 0 := by
    unfold Record
    rw [hrec]
    omega
  have hlen := entrySize_le hname
  refine ⟨?_, ?_⟩
  · rw [liveFrom_of_record hr, hrec, liveFrom_end (by omega), List.append_nil]
    exact entryAt_putEntry _ _ _ _ _ hname h0 hino
  · rw [recordsFrom_of_record hr, hrec]
    refine ⟨fun _ => ?_, recordsFrom_end (by omega)⟩
    unfold newDirBlock
    rw [actualLen_putEntry _ _ _ _ _ hname h0 hino]
    omega

/-- The character `.`. -/
def dot : UInt8 := 46

/-- The block of a new directory. -/
theorem liveFrom_dotBlock (b : Bytes) {size ino parent : Nat}
    (hsize : 1024 ≤ size ∧ size ≤ 4096) (h0 : ino ≠ 0) (hino : ino < 2 ^ 32) (hp0 : parent ≠ 0)
    (hp : parent < 2 ^ 32) :
    liveFrom (dotBlock b size ino parent) size 0 = [([dot], ino), ([dot, dot], parent)] ∧
      RecordsFrom (dotBlock b size ino parent) size 0 := by
  generalize hc : putEntry (put16 (zeroTo b size) 4 12) 0 ino 2 [dot] = c
  have hb : dotBlock b size ino parent =
      putEntry (put16 c 16 (size - 12)) 12 parent 2 [dot, dot] := by
    rw [← hc]
    rfl
  have hkeep : ∀ i < 12, dotBlock b size ino parent i = c i := by
    intro i hi
    rw [hb, putEntry_out _ _ _ _ _ (by omega), put16_ne _ _ (by omega)]
  have hhead : ∀ i, 0 ≤ i → i < 0 + 8 → dotBlock b size ino parent i = c i :=
    fun i _ hi => hkeep i (by omega)
  have hcrec : deRecLen c 0 = 12 := by
    rw [← hc, deRecLen_putEntry]
    exact le16_put16_of_lt _ _ (by omega)
  have hcr : Record c size 0 := by
    unfold Record
    rw [hcrec]
    omega
  have hcfit : deInode c 0 ≠ 0 → actualLen c 0 ≤ deRecLen c 0 := by
    intro _
    rw [hcrec, ← hc, actualLen_putEntry _ _ _ _ _ (by simp) h0 hino]
    decide
  have hr₁ := (record_congr hhead).2 hcr
  have hrec₁ : deRecLen (dotBlock b size ino parent) 0 = 12 := (deRecLen_congr hhead).trans hcrec
  have hrec₂ : deRecLen (dotBlock b size ino parent) 12 = size - 12 := by
    rw [hb, deRecLen_putEntry]
    exact le16_put16_of_lt _ _ (by omega)
  have hr₂ : Record (dotBlock b size ino parent) size 12 := by
    unfold Record
    rw [hrec₂]
    omega
  refine ⟨?_, ?_⟩
  · rw [liveFrom_of_record hr₁, hrec₁, Nat.zero_add, liveFrom_of_record hr₂, hrec₂,
      liveFrom_end (by omega), List.append_nil,
      entryAt_congr hcr hcfit fun i _ hi => hkeep i (by omega)]
    rw [← hc, entryAt_putEntry _ _ _ _ _ (by simp) h0 hino, hb,
      entryAt_putEntry _ _ _ _ _ (by simp) hp0 hp]
    rfl
  · rw [recordsFrom_of_record hr₁, hrec₁, Nat.zero_add, recordsFrom_of_record hr₂, hrec₂,
      deInode_congr hhead, actualLen_congr hhead]
    refine ⟨fun h => (hcfit h).trans_eq hcrec, fun _ => ?_, recordsFrom_end (by omega)⟩
    rw [hb, actualLen_putEntry _ _ _ _ _ (by simp) hp0 hp]
    have : entrySize [dot, dot].length = 12 := by decide
    omega

end FiFi.Ext2
