import FiFi.Fd.Unique

/-!
# What `dup2` leaves behind

`SYS_DUP2` closes the new number and then copies the entry of the old one to the first
free slot. The copy is made from a pointer into the table: when both numbers are the same
the entry has just been zeroed, and the descriptor is gone although its number is
returned. A negative new number is taken like any other, so that a hidden entry is made
although -1 is returned.
-/

namespace FiFi.Fd

variable {V : Type*}

/-- The entries are as they were, and so are the counts of all pipes. -/
def Untouched (s s' : Tables V) : Prop :=
  s'.fds = s.fds ∧ ∀ p, (s'.pipes p).ropen = (s.pipes p).ropen ∧
    (s'.pipes p).wopen = (s.pipes p).wopen

/-- Descriptor `n` of `tid` in `s'` stands for the object of the entry `e`. -/
def Denotes (s : Tables V) (tid : Nat) (n : Int) (e : SysFd) : Prop :=
  ∃ i, fdGet s tid n = some i ∧ e.SameObject (s.fds i)

/-- The descriptor is found where it was, with the same entry. -/
def KeepsFd (s s' : Tables V) (tid : Nat) (n : Int) : Prop :=
  fdGet s' tid n = fdGet s tid n ∧ ∀ i, fdGet s tid n = some i → s'.fds i = s.fds i

/-- `SYS_DUP2` returned `r`: it failed and did nothing, or it duplicated. -/
def Duplicated (s s' : Tables V) (tid : Nat) (old new r : Int) : Prop :=
  (r = -1 → Untouched s s') ∧
    (r ≠ -1 → r = new ∧
      (∃ k, fdGet s tid old = some k ∧ Denotes s' tid old (s.fds k) ∧
        Denotes s' tid new (s.fds k)) ∧
      ∀ tid' n, (tid', n) ≠ (tid, old) → (tid', n) ≠ (tid, new) → KeepsFd s s' tid' n)

/-! ### Searches -/

theorem fdGet_eq_some_iff {s : Tables V} {tid : Nat} {n : Int} {i : Slot} :
    fdGet s tid n = some i ↔ Holds s tid n i ∧ ∀ j < i, ¬ Holds s tid n j := by
  rw [fdGet, ← Fin.find?_eq_find?_finRange, Fin.find?_eq_some_iff]
  simp only [Holds, Bool.and_eq_true, beq_iff_eq, and_assoc, ← Bool.not_eq_true]

theorem fdGet_eq_none_iff {s : Tables V} {tid : Nat} {n : Int} :
    fdGet s tid n = none ↔ ∀ i, ¬ Holds s tid n i := by
  refine ⟨fdGet_none, fun h => ?_⟩
  cases hget : fdGet s tid n with
  | none => rfl
  | some i => exact absurd (fdGet_some hget) (h i)

theorem freeSlot_eq_some_iff {s : Tables V} {i : Slot} :
    freeSlot s = some i ↔ (s.fds i).used = false ∧ ∀ j < i, (s.fds j).used = true := by
  rw [freeSlot, ← Fin.find?_eq_find?_finRange, Fin.find?_eq_some_iff]
  simp

/-- What is found depends on the entries that could hold the descriptor. -/
theorem fdGet_congr {s s' : Tables V} {tid : Nat} {n : Int}
    (h : ∀ i, Holds s' tid n i ↔ Holds s tid n i) : fdGet s' tid n = fdGet s tid n := by
  refine List.find?_congr fun i _ => ?_
  rw [Bool.eq_iff_iff]
  simpa [Holds, and_assoc] using h i

theorem KeepsFd.of_fds {s s' : Tables V} {tid : Nat} {n : Int}
    (h : ∀ i, s'.fds i ≠ s.fds i → ¬ Holds s tid n i ∧ ¬ Holds s' tid n i) :
    KeepsFd s s' tid n := by
  have hsame : ∀ i, Holds s tid n i ∨ Holds s' tid n i → s'.fds i = s.fds i := fun i hi => by
    by_contra hne
    exact hi.elim (h i hne).1 (h i hne).2
  refine ⟨fdGet_congr fun i => ⟨fun hi => ?_, fun hi => ?_⟩, fun i hi => ?_⟩
  · have heq := hsame i (Or.inr hi)
    rwa [Holds, heq] at hi
  · have heq := hsame i (Or.inl hi)
    rwa [Holds, heq]
  · exact hsame i (Or.inl (fdGet_some hi))

/-! ### The tables after the call -/

section Calls

variable (flush : RamId → V → V)

/-- When the entries are back, so are the counts. -/
theorem untouched_fdDup2_iff (s : Tables V) (tid : Nat) (old new : Int) :
    Untouched s (fdDup2 flush s tid old new).1 ↔ (fdDup2 flush s tid old new).1.fds = s.fds := by
  refine ⟨fun h => h.1, fun hfds => ⟨hfds, fun p => ?_⟩⟩
  have hlive : ∀ t, ((fdDup2 flush s tid old new).1.pipes p).live t = (s.pipes p).live t := by
    intro t
    have hex := excess_fdDup2 flush s tid old new t p
    have hcount : endCount (fdDup2 flush s tid old new).1 t p = endCount s t p := by
      unfold endCount
      rw [hfds]
    unfold excess at hex
    omega
  exact ⟨hlive .read, hlive .write⟩

theorem fdDup2_none {s : Tables V} {tid : Nat} {old : Int} (h : fdGet s tid old = none)
    (new : Int) : fdDup2 flush s tid old new = (s, -1) := by
  rw [fdDup2, h]

/-- The new number is not open: a free slot is needed. -/
theorem fdDup2_new {s : Tables V} {tid : Nat} {old new : Int} {k : Slot}
    (hk : fdGet s tid old = some k) (hnew : fdGet s tid new = none) :
    (freeSlot s = none ∧ fdDup2 flush s tid old new = (s, -1)) ∨
      ∃ i, freeSlot s = some i ∧ (fdDup2 flush s tid old new).2 = new ∧
        (fdDup2 flush s tid old new).1.fds =
          Function.update s.fds i { s.fds k with fdNum := new } := by
  have hclose : fdClose flush s tid new = s := by rw [fdClose, hnew]
  rw [fdDup2, hk]
  dsimp only
  rw [hclose]
  cases hfree : freeSlot s with
  | none => exact Or.inl ⟨rfl, rfl⟩
  | some i => exact Or.inr ⟨i, rfl, rfl, by rw [addOpen_fds]; rfl⟩

/-- The new number is open: its slot is free then, so that there is one. -/
theorem fdDup2_open {s : Tables V} {tid : Nat} {old new : Int} {k j : Slot}
    (hk : fdGet s tid old = some k) (hj : fdGet s tid new = some j) :
    ∃ i, (i = j ∨ i < j ∧ (s.fds i).used = false) ∧ (∀ l < i, (s.fds l).used = true) ∧
      (fdDup2 flush s tid old new).2 = new ∧
      (fdDup2 flush s tid old new).1.fds =
        Function.update (Function.update s.fds j SysFd.zero) i
          { Function.update s.fds j SysFd.zero k with fdNum := new } := by
  have hfds : (fdClose flush s tid new).fds = Function.update s.fds j SysFd.zero := by
    rw [fdClose, hj]
    exact fdCloseEntry_fds flush s j
  rw [fdDup2, hk]
  dsimp only
  generalize fdClose flush s tid new = s₁ at hfds ⊢
  have hzero : (s₁.fds j).used = false := by
    rw [hfds, Function.update_self]
    rfl
  cases hfree : freeSlot s₁ with
  | none =>
      rw [(freeSlot_none_iff s₁).1 hfree j] at hzero
      cases hzero
  | some i =>
      obtain ⟨hi, hbefore⟩ := freeSlot_eq_some_iff.1 hfree
      have hij : i ≤ j := by
        by_contra hlt
        rw [hbefore j (not_le.1 hlt)] at hzero
        cases hzero
      have hold : ∀ l, l ≠ j → s₁.fds l = s.fds l := fun l hl => by
        rw [hfds, Function.update_of_ne hl]
      refine ⟨i, ?_, fun l hl => ?_, rfl, by rw [addOpen_fds, ← hfds]; rfl⟩
      · rcases hij.eq_or_lt with rfl | hlt
        · exact Or.inl rfl
        · exact Or.inr ⟨hlt, by rwa [hold i hlt.ne] at hi⟩
      · have hused := hbefore l hl
        rwa [hold l (hl.trans_le hij).ne] at hused

end Calls

/-! ### When it duplicates or does nothing -/

/-- The condition. Two different numbers, the new one not negative, are fine, as is
everything when the old one is not open. A negative new number is harmless if there is no
slot, or if it is open already with just the entry that is copied. Two equal numbers are
harmless if a second entry of the same object comes to light. -/
def Dup2Works (s : Tables V) (tid : Nat) (old new : Int) : Prop :=
  fdGet s tid old = none ∨
    (old ≠ new ∧ 0 ≤ new) ∨
    (old ≠ new ∧ fdGet s tid new = none ∧ ∀ i, (s.fds i).used = true) ∨
    (old ≠ new ∧ ∃ k j, fdGet s tid old = some k ∧ fdGet s tid new = some j ∧
      (∀ i < j, (s.fds i).used = true) ∧ s.fds j = { s.fds k with fdNum := new }) ∨
    (old = new ∧ 0 ≤ new ∧ ∃ k j, fdGet s tid old = some k ∧ k < j ∧ Holds s tid old j ∧
      (∀ i, k < i → i < j → ¬ Holds s tid old i) ∧ (s.fds k).SameObject (s.fds j))

/-- A slot is filled with a copy of `e` under the number `new`, and slots that hold the
number may be emptied before. -/
theorem duplicated_of_fds {s s' : Tables V} {tid : Nat} {old new : Int} {k i : Slot}
    (hk : fdGet s tid old = some k) (hne : old ≠ new) (hnew : 0 ≤ new)
    (hi : s'.fds i = { s.fds k with fdNum := new })
    (hold : Holds s tid new i ∨ (s.fds i).used = false)
    (hother : ∀ l ≠ i, s'.fds l = s.fds l ∨ Holds s tid new l ∧ (s'.fds l).used = false)
    (hfirst : ∀ l < i, ¬ Holds s tid new l) : Duplicated s s' tid old new new := by
  obtain ⟨hheld, hbefore⟩ := fdGet_eq_some_iff.1 hk
  have hholds : Holds s' tid new i := by
    rw [Holds, hi]
    exact ⟨hheld.1, hheld.2.1, rfl⟩
  have hchange : ∀ t n, n ≠ new ∨ t ≠ tid → ∀ l, s'.fds l ≠ s.fds l →
      ¬ Holds s t n l ∧ ¬ Holds s' t n l := by
    intro t n hn l hl
    by_cases hli : l = i
    · subst hli
      refine ⟨fun h => ?_, fun h => ?_⟩
      · rcases hold with ho | ho
        · exact hn.elim (fun hn => hn (h.2.2.symm.trans ho.2.2))
            fun ht => ht (h.2.1.symm.trans ho.2.1)
        · rw [Holds, ho] at h
          cases h.1
      · exact hn.elim (fun hn => hn (h.2.2.symm.trans hholds.2.2))
          fun ht => ht (h.2.1.symm.trans hholds.2.1)
    · obtain ⟨ho, hfree⟩ := (hother l hli).resolve_left hl
      refine ⟨fun h => ?_, fun h => ?_⟩
      · exact hn.elim (fun hn => hn (h.2.2.symm.trans ho.2.2))
          fun ht => ht (h.2.1.symm.trans ho.2.1)
      · rw [Holds, hfree] at h
        cases h.1
  refine ⟨fun h => by omega, fun _ => ⟨rfl, ⟨k, hk, ?_, ?_⟩, fun t n _ hn => ?_⟩⟩
  · have hkeep : KeepsFd s s' tid old := KeepsFd.of_fds (hchange tid old (Or.inl hne))
    refine ⟨k, hkeep.1.trans hk, ?_⟩
    rw [hkeep.2 k hk]
    exact ⟨rfl, rfl, rfl, rfl, rfl, rfl⟩
  · refine ⟨i, fdGet_eq_some_iff.2 ⟨hholds, fun l hl h => ?_⟩, ?_⟩
    · rcases hother l hl.ne with heq | ⟨-, hfree⟩
      · rw [Holds, heq] at h
        exact hfirst l hl h
      · rw [Holds, hfree] at h
        cases h.1
    · rw [hi]
      exact ⟨rfl, rfl, rfl, rfl, rfl, rfl⟩
  · refine KeepsFd.of_fds (hchange t n ?_)
    by_contra hall
    push Not at hall
    exact hn (by rw [hall.1, hall.2])

/-- Two equal numbers: the entry is gone, and a later one with the number comes to light. -/
theorem duplicated_self_iff {s s' : Tables V} {tid : Nat} {n : Int} {k i : Slot}
    (hk : fdGet s tid n = some k) (hn : 0 ≤ n) (hi : i = k ∨ (s.fds i).used = false)
    (hfds : s'.fds = Function.update (Function.update s.fds k SysFd.zero) i
      { SysFd.zero with fdNum := n }) :
    Duplicated s s' tid n n n ↔ ∃ j, k < j ∧ Holds s tid n j ∧
      (∀ l, k < l → l < j → ¬ Holds s tid n l) ∧ (s.fds k).SameObject (s.fds j) := by
  obtain ⟨hheld, hbefore⟩ := fdGet_eq_some_iff.1 hk
  have hfree : ∀ l, l = k ∨ l = i → (s'.fds l).used = false := by
    intro l hl
    rw [hfds]
    by_cases hli : l = i
    · rw [hli, Function.update_self]
      rfl
    · rw [hl.resolve_right hli, Function.update_of_ne (hl.resolve_right hli ▸ hli),
        Function.update_self]
      rfl
  have hsame : ∀ l, l ≠ k → l ≠ i → s'.fds l = s.fds l := fun l hlk hli => by
    rw [hfds, Function.update_of_ne hli, Function.update_of_ne hlk]
  have hiff : ∀ l, Holds s' tid n l ↔ Holds s tid n l ∧ l ≠ k := by
    intro l
    by_cases hl : l = k ∨ l = i
    · refine iff_of_false (fun h => ?_) fun h => ?_
      · rw [Holds, hfree l hl] at h
        cases h.1
      · obtain rfl := hl.resolve_left h.2
        have hfree' := hi.resolve_left h.2
        rw [Holds, hfree'] at h
        cases h.1.1
    · rw [not_or] at hl
      rw [Holds, hsame l hl.1 hl.2]
      exact ⟨fun h => ⟨h, hl.1⟩, fun h => h.1⟩
  constructor
  · intro h
    obtain ⟨-, ⟨k', hk', -, j, hj, hobj⟩, -⟩ := h.2 (by omega)
    obtain rfl : k' = k := Option.some.inj (hk'.symm.trans hk)
    obtain ⟨hjheld, hjfirst⟩ := fdGet_eq_some_iff.1 hj
    obtain ⟨hj', hjk⟩ := (hiff j).1 hjheld
    have hlt : k' < j := lt_of_le_of_ne (not_lt.1 fun hlt => hbefore j hlt hj') (Ne.symm hjk)
    have hji : j ≠ i := by
      rintro rfl
      rw [Holds, hfree j (Or.inr rfl)] at hjheld
      cases hjheld.1
    refine ⟨j, hlt, hj', fun l hl hlj hheldl => hjfirst l hlj ((hiff l).2 ⟨hheldl, hl.ne'⟩), ?_⟩
    rwa [hsame j hjk hji] at hobj
  · rintro ⟨j, hkj, hj, hbetween, hobj⟩
    have hget : fdGet s' tid n = some j := by
      refine fdGet_eq_some_iff.2 ⟨(hiff j).2 ⟨hj, hkj.ne'⟩, fun l hl h => ?_⟩
      obtain ⟨hlheld, hlk⟩ := (hiff l).1 h
      rcases lt_or_gt_of_ne hlk with hlt | hgt
      · exact hbefore l hlt hlheld
      · exact hbetween l hgt hl hlheld
    have hji : j ≠ i := by
      rintro rfl
      rcases hi with hik | hfree'
      · exact hkj.ne' hik
      · rw [Holds, hfree'] at hj
        cases hj.1
    have hden : Denotes s' tid n (s.fds k) := ⟨j, hget, by rwa [hsame j hkj.ne' hji]⟩
    refine ⟨fun h => by omega, fun _ => ⟨rfl, ⟨k, hk, hden, hden⟩, fun t m hne _ => ?_⟩⟩
    refine KeepsFd.of_fds fun l hl => ?_
    have hcase : l = k ∨ l = i := by
      by_contra hnot
      rw [not_or] at hnot
      exact hl (hsame l hnot.1 hnot.2)
    refine ⟨fun h => ?_, fun h => ?_⟩
    · by_cases hlk : l = k
      · rw [hlk] at h
        exact hne (Prod.ext (h.2.1.symm.trans hheld.2.1) (h.2.2.symm.trans hheld.2.2))
      · obtain rfl := hcase.resolve_left hlk
        rw [Holds, hi.resolve_left hlk] at h
        cases h.1
    · rw [Holds, hfree l hcase] at h
      cases h.1

section Works

variable (flush : RamId → V → V) {s : Tables V} {tid : Nat} {old new : Int} {k j : Slot}

/-- What `SYS_DUP2` returns for a user is as it should. -/
abbrev DupResult (s : Tables V) (tid : Nat) (old new : Int) : Prop :=
  Duplicated s (sysDup2 flush s tid true old new).1 tid old new
    (sysDup2 flush s tid true old new).2

theorem duplicated_nothing (s : Tables V) (tid : Nat) (old new : Int) :
    Duplicated s s tid old new (-1) :=
  ⟨fun _ => ⟨rfl, fun _ => ⟨rfl, rfl⟩⟩, fun h => absurd rfl h⟩

/-- A number that is not negative is returned. -/
theorem dupResult_of_nonneg (hr : (fdDup2 flush s tid old new).2 = new) (hn : 0 ≤ new) :
    DupResult flush s tid old new ↔
      Duplicated s (fdDup2 flush s tid old new).1 tid old new new := by
  simp only [DupResult, sysDup2, Bool.not_true, Bool.false_eq_true, if_false]
  rw [hr, if_pos hn]

/-- For a negative number -1 is returned, and nothing may have changed. -/
theorem dupResult_of_neg (hr : (fdDup2 flush s tid old new).2 = new) (hn : ¬ 0 ≤ new) :
    DupResult flush s tid old new ↔ (fdDup2 flush s tid old new).1.fds = s.fds := by
  simp only [DupResult, sysDup2, Bool.not_true, Bool.false_eq_true, if_false]
  rw [hr, if_neg hn, ← untouched_fdDup2_iff]
  exact ⟨fun h => h.1 rfl, fun h => ⟨fun _ => h, fun h => absurd rfl h⟩⟩

theorem dupResult_self_iff (hk : fdGet s tid old = some k) :
    DupResult flush s tid old old ↔ Dup2Works s tid old old := by
  obtain ⟨hheld, -⟩ := fdGet_eq_some_iff.1 hk
  obtain ⟨i, hi, -, hr, hfds⟩ := fdDup2_open flush hk hk
  rw [Function.update_self] at hfds
  by_cases hn : 0 ≤ old
  · rw [dupResult_of_nonneg flush hr hn, duplicated_self_iff hk hn (hi.imp_right And.right) hfds]
    simp [Dup2Works, hk, hn]
  · rw [dupResult_of_neg flush hr hn]
    refine iff_of_false (fun heq => ?_) (by simp [Dup2Works, hk, hn])
    have hused := hheld.1
    rw [← heq, hfds] at hused
    by_cases hki : k = i
    · rw [hki, Function.update_self] at hused
      cases hused
    · rw [Function.update_of_ne hki, Function.update_self] at hused
      cases hused

theorem dupResult_new_iff (hk : fdGet s tid old = some k) (hnew : fdGet s tid new = none)
    (hne : old ≠ new) : DupResult flush s tid old new ↔ Dup2Works s tid old new := by
  obtain ⟨hheld, -⟩ := fdGet_eq_some_iff.1 hk
  rcases fdDup2_new flush hk hnew with ⟨hfull, hrun⟩ | ⟨i, hfree, hr, hfds⟩
  · refine iff_of_true ?_ (Or.inr (Or.inr (Or.inl ⟨hne, hnew, (freeSlot_none_iff s).1 hfull⟩)))
    simp only [DupResult, sysDup2, Bool.not_true, Bool.false_eq_true, if_false, hrun]
    exact duplicated_nothing s tid old new
  · have hunused := freeSlot_some hfree
    by_cases hn : 0 ≤ new
    · rw [dupResult_of_nonneg flush hr hn]
      refine iff_of_true (duplicated_of_fds hk hne hn ?_ (Or.inr hunused) ?_
        fun l _ => fdGet_eq_none_iff.1 hnew l) (Or.inr (Or.inl ⟨hne, hn⟩))
      · rw [hfds, Function.update_self]
      · intro l hl
        rw [hfds, Function.update_of_ne hl]
        exact Or.inl rfl
    · rw [dupResult_of_neg flush hr hn]
      refine iff_of_false (fun heq => ?_) fun hworks => ?_
      · rw [← heq, hfds, Function.update_self, hheld.1] at hunused
        cases hunused
      · have hfull : ∀ l, (s.fds l).used = true := by
          simpa [Dup2Works, hk, hnew, hne, hn] using hworks
        rw [hfull i] at hunused
        cases hunused

theorem dupResult_open_iff (hk : fdGet s tid old = some k) (hj : fdGet s tid new = some j)
    (hne : old ≠ new) : DupResult flush s tid old new ↔ Dup2Works s tid old new := by
  obtain ⟨hheld, -⟩ := fdGet_eq_some_iff.1 hk
  obtain ⟨hjheld, hjfirst⟩ := fdGet_eq_some_iff.1 hj
  have hkj : k ≠ j := by
    rintro rfl
    exact hne (hheld.2.2.symm.trans hjheld.2.2)
  obtain ⟨i, hi, hbefore, hr, hfds⟩ := fdDup2_open flush hk hj
  rw [Function.update_of_ne hkj] at hfds
  by_cases hn : 0 ≤ new
  · rw [dupResult_of_nonneg flush hr hn]
    refine iff_of_true (duplicated_of_fds (i := i) hk hne hn ?_ ?_ ?_ fun l hl => ?_)
      (Or.inr (Or.inl ⟨hne, hn⟩))
    · rw [hfds, Function.update_self]
    · rcases hi with rfl | hi
      · exact Or.inl hjheld
      · exact Or.inr hi.2
    · intro l hl
      by_cases hlj : l = j
      · refine Or.inr ⟨hlj ▸ hjheld, ?_⟩
        rw [hfds, Function.update_of_ne hl, hlj, Function.update_self]
        rfl
      · rw [hfds, Function.update_of_ne hl, Function.update_of_ne hlj]
        exact Or.inl rfl
    · exact hjfirst l (hl.trans_le (hi.elim le_of_eq fun h => h.1.le))
  · rw [dupResult_of_neg flush hr hn]
    have hworks : Dup2Works s tid old new ↔
        (∀ i < j, (s.fds i).used = true) ∧ s.fds j = { s.fds k with fdNum := new } := by
      simp [Dup2Works, hk, hj, hne, hn]
    rw [hworks]
    rcases hi with rfl | ⟨hij, hunused⟩
    · rw [hfds, Function.update_idem, Function.update_eq_self_iff]
      exact ⟨fun h => ⟨hbefore, h.symm⟩, fun h => h.2.symm⟩
    · refine iff_of_false (fun heq => ?_) fun h => ?_
      · rw [← heq, hfds, Function.update_self, hheld.1] at hunused
        cases hunused
      · rw [h.1 i hij] at hunused
        cases hunused

end Works

/-- **`SYS_DUP2` duplicates or does nothing exactly under this condition.** -/
theorem sysDup2_duplicated_iff (flush : RamId → V → V) (s : Tables V) (tid : Nat)
    (fromUser : Bool) (old new : Int) :
    Duplicated s (sysDup2 flush s tid fromUser old new).1 tid old new
        (sysDup2 flush s tid fromUser old new).2 ↔
      fromUser = false ∨ Dup2Works s tid old new := by
  cases fromUser with
  | false => exact iff_of_true (duplicated_nothing s tid old new) (Or.inl rfl)
  | true =>
      rw [or_iff_right (by simp)]
      cases hk : fdGet s tid old with
      | none =>
          refine iff_of_true ?_ (Or.inl hk)
          simp only [sysDup2, Bool.not_true, Bool.false_eq_true, if_false, fdDup2_none flush hk]
          exact duplicated_nothing s tid old new
      | some k =>
          by_cases hne : old = new
          · subst hne
            exact dupResult_self_iff flush hk
          · cases hnew : fdGet s tid new with
            | none => exact dupResult_new_iff flush hk hnew hne
            | some j => exact dupResult_open_iff flush hk hnew hne

/-- Duplicating a descriptor to its own number closes it. -/
theorem sysDup2_closes :
    fdGet (nullTable 1) 1 3 = some ⟨0, by decide⟩ ∧
      (sysDup2 (fun _ (v : Unit) => v) (nullTable 1) 1 true 3 3).2 = 3 ∧
      ¬ Duplicated (nullTable 1) (sysDup2 (fun _ (v : Unit) => v) (nullTable 1) 1 true 3 3).1 1 3 3
        (sysDup2 (fun _ (v : Unit) => v) (nullTable 1) 1 true 3 3).2 := by
  have hr : (sysDup2 (fun _ (v : Unit) => v) (nullTable 1) 1 true 3 3).2 = 3 := by
    decide
  refine ⟨by decide, hr, fun h => ?_⟩
  rw [hr] at h
  obtain ⟨-, ⟨k, -, ⟨i, hi, -⟩, -⟩, -⟩ := h.2 (by decide)
  have hnone : (fdGet (sysDup2 (fun _ (v : Unit) => v) (nullTable 1) 1 true 3 3).1 1 3).isNone =
      true := by decide
  rw [hi] at hnone
  cases hnone

end FiFi.Fd
