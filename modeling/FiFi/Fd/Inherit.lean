import FiFi.Fd.PipeCount
import Mathlib.Data.List.Find
import Mathlib.Data.List.Sort

/-!
# What a forked child inherits

`fd_fork_inherit` copies the entries of the parent, in the order of the table,
to the free slots of the same table, in the order of the table. So the `k`-th
entry of the parent goes to the `k`-th free slot, and the entries from the number
of free slots on are dropped without a report. The child therefore sees all the
descriptors of its parent exactly when each of them comes early enough.
-/

namespace FiFi.Fd

variable {V : Type*}

/-- The slots of a thread, in table order. -/
def ownSlots (s : Tables V) (tid : Nat) : List Slot :=
  (List.finRange sysFdMax).filter fun i => (s.fds i).used && (s.fds i).ownerTid == tid

/-- The free slots, in table order. -/
def freeSlots (s : Tables V) : List Slot :=
  (List.finRange sysFdMax).filter fun i => !(s.fds i).used

/-- Two entries refer to the same open object, at the same place in it. -/
def SysFd.SameObject (e e' : SysFd) : Prop :=
  e.type = e'.type ∧ e.data = e'.data ∧ e.size = e'.size ∧ e.off = e'.off ∧ e.pipe = e'.pipe ∧
    e.ramfile = e'.ramfile

/-- The two threads have the same descriptor numbers, and each number stands for
the same object in both. -/
def SameDescriptors (s : Tables V) (parent child : Nat) : Prop :=
  ∀ n, ((fdGet s child n).isSome ↔ (fdGet s parent n).isSome) ∧
    ∀ i j, fdGet s parent n = some i → fdGet s child n = some j →
      (s.fds i).SameObject (s.fds j)

/-- Every descriptor of the thread has fewer entries of the thread before it than
there are free slots. -/
def CopiesFit (s : Tables V) (tid : Nat) : Prop :=
  ∀ n i, fdGet s tid n = some i →
    ((ownSlots s tid).filter (· < i)).length < (freeSlots s).length

/-! ### Lookups in table order -/

theorem mem_ownSlots {s : Tables V} {tid : Nat} {i : Slot} :
    i ∈ ownSlots s tid ↔ (s.fds i).used = true ∧ (s.fds i).ownerTid = tid := by
  simp [ownSlots]

theorem mem_freeSlots {s : Tables V} {i : Slot} : i ∈ freeSlots s ↔ (s.fds i).used = false := by
  simp [freeSlots]

theorem ownSlots_sorted (s : Tables V) (tid : Nat) : (ownSlots s tid).Pairwise (· < ·) :=
  (List.pairwise_lt_finRange sysFdMax).filter _

theorem freeSlots_sorted (s : Tables V) : (freeSlots s).Pairwise (· < ·) :=
  (List.pairwise_lt_finRange sysFdMax).filter _

theorem freeSlot_eq_head? (s : Tables V) : freeSlot s = (freeSlots s).head? := by
  simp [freeSlot, freeSlots]

theorem fdGet_eq_find? (s : Tables V) (tid : Nat) (n : Int) :
    fdGet s tid n = (ownSlots s tid).find? fun i => (s.fds i).fdNum == n := by
  rw [ownSlots, List.find?_filter]
  refine List.find?_congr fun i _ => ?_
  rw [Bool.eq_iff_iff]
  simp [and_assoc]

/-- A filled slot is the first one to leave the list of free slots. -/
theorem freeSlots_setFd_head {s : Tables V} {j : Slot} {free : List Slot} {e : SysFd}
    (h : freeSlots s = j :: free) (he : e.used = true) : freeSlots (setFd s j e) = free := by
  have hsorted := freeSlots_sorted s
  rw [h, List.pairwise_cons] at hsorted
  refine List.Perm.eq_of_pairwise (fun a b _ _ hab hba => absurd hba hab.asymm)
    (freeSlots_sorted _) hsorted.2 ?_
  rw [List.perm_ext_iff_of_nodup (freeSlots_sorted _).nodup hsorted.2.nodup]
  intro i
  have hmem : i ∈ freeSlots s ↔ i = j ∨ i ∈ free := by
    rw [h, List.mem_cons]
  rw [mem_freeSlots] at hmem ⊢
  by_cases hij : i = j
  · subst hij
    rw [setFd_fds_same, he]
    simpa using fun hi => absurd (hsorted.1 i hi) (lt_irrefl i)
  · rw [setFd_fds_ne s e hij, hmem]
    simp [hij]

theorem map_snd_zip_sublist (own free : List Slot) :
    ((own.zip free).map Prod.snd).Sublist free := by
  induction own generalizing free with
  | nil => simp
  | cons a own ih =>
      cases free with
      | nil => simp
      | cons b free => simpa using ih free

theorem find?_zip_none {own free : List Slot} {q : Slot → Bool} (h : own.find? q = none) :
    (own.zip free).find? (fun p => q p.1) = none := by
  rw [List.find?_eq_none] at h ⊢
  intro p hp
  exact h p.1 (List.of_mem_zip hp).1

/-- Searching the pairs of two lists by the first component, where the first list
is increasing: the partner of `i` is found at the number of elements below `i`. -/
theorem find?_zip_of_sorted {l r : List Slot} {q : Slot → Bool} {i : Slot}
    (hsorted : l.Pairwise (· < ·)) (h : l.find? q = some i) :
    (l.zip r).find? (fun p => q p.1) =
      r[(l.filter (· < i)).length]?.map fun j => (i, j) := by
  induction l generalizing r with
  | nil => simp at h
  | cons a l ih =>
      rw [List.pairwise_cons] at hsorted
      by_cases ha : q a = true
      · rw [List.find?_cons_of_pos ha] at h
        obtain rfl := Option.some.inj h
        have hnone : l.filter (· < a) = [] :=
          List.filter_eq_nil_iff.2 fun b hb => by simpa using (hsorted.1 b hb).le
        cases r with
        | nil => simp
        | cons b r => simp [ha, hnone]
      · rw [List.find?_cons_of_neg ha] at h
        have hai : a < i := hsorted.1 i (List.mem_of_find?_eq_some h)
        cases r with
        | nil => simp
        | cons b r =>
            have hi := ih (r := r) hsorted.2 h
            simpa [ha, hai] using hi

/-! ### The copies -/

/-- `s'` is `s` with each pair of slots copied from the first to the second, for
the owner `child`. -/
structure Copied (child : Nat) (s s' : Tables V) (pairs : List (Slot × Slot)) : Prop where
  copy : ∀ p ∈ pairs, s'.fds p.2 = { s.fds p.1 with ownerTid := child }
  keep : ∀ j, j ∉ pairs.map Prod.snd → s'.fds j = s.fds j

/-- One turn of the loop for an entry of the parent, with a free slot left. -/
theorem fdInheritEntry_copied {s : Tables V} {parent : Nat} (child : Nat) {i j : Slot}
    {free : List Slot} (hi : i ∈ ownSlots s parent) (hfree : freeSlots s = j :: free) :
    Copied child s (fdInheritEntry parent child s i) [(i, j)] ∧
      freeSlots (fdInheritEntry parent child s i) = free := by
  have hown := mem_ownSlots.1 hi
  have hslot : freeSlot s = some j := by
    rw [freeSlot_eq_head?, hfree, List.head?_cons]
  have hstep : (fdInheritEntry parent child s i).fds =
      (setFd s j { s.fds i with ownerTid := child }).fds := by
    simp [fdInheritEntry, hown, hslot]
  refine ⟨⟨?_, ?_⟩, ?_⟩
  · intro p hp
    obtain rfl := List.mem_singleton.1 hp
    rw [hstep, setFd_fds_same]
  · intro k hk
    rw [hstep]
    exact setFd_fds_ne s _ (by simpa using hk)
  · have hset := freeSlots_setFd_head (e := { s.fds i with ownerTid := child }) hfree hown.1
    rw [← hset]
    simp only [freeSlots, hstep]

/-- The loop of `fd_fork_inherit` pairs the entries of the parent it still meets
with the slots that are still free. -/
theorem inheritLoop_copied {parent child : Nat} (hne : child ≠ parent) (l : List Slot)
    (s : Tables V) :
    Copied child s (l.foldl (fdInheritEntry parent child) s)
      ((l.filter fun i => (s.fds i).used && (s.fds i).ownerTid == parent).zip (freeSlots s)) := by
  induction l generalizing s with
  | nil => exact ⟨nofun, fun _ _ => rfl⟩
  | cons i l ih =>
      rw [List.foldl_cons]
      by_cases hi : ((s.fds i).used && (s.fds i).ownerTid == parent) = true
      · rw [List.filter_cons_of_pos (by exact hi)]
        have hmem : i ∈ ownSlots s parent := mem_ownSlots.2 (by simpa using hi)
        cases hfree : freeSlots s with
        | nil =>
            have hstay : fdInheritEntry parent child s i = s := by
              simp [fdInheritEntry, freeSlot_eq_head?, hfree]
            have hrest := ih s
            rw [hfree, List.zip_nil_right] at hrest
            rw [hstay, List.zip_nil_right]
            exact hrest
        | cons j free =>
            obtain ⟨hone, hleft⟩ := fdInheritEntry_copied child hmem hfree
            have hrest := ih (fdInheritEntry parent child s i)
            generalize fdInheritEntry parent child s i = s₁ at hone hleft hrest ⊢
            have hjfree : (s.fds j).used = false := mem_freeSlots.1 (by simp [hfree])
            have hjnew : j ∉ free := by
              have hnodup := (freeSlots_sorted s).nodup
              rw [hfree, List.nodup_cons] at hnodup
              exact hnodup.1
            have hcopy : s₁.fds j = { s.fds i with ownerTid := child } := hone.copy (i, j) (by simp)
            have hkeep : ∀ k, k ≠ j → s₁.fds k = s.fds k :=
              fun k hk => hone.keep k (by simpa using hk)
            -- the slot just filled is the child's, so the scan passes it by
            have hsame : (l.filter fun k => (s₁.fds k).used && (s₁.fds k).ownerTid == parent) =
                l.filter fun k => (s.fds k).used && (s.fds k).ownerTid == parent := by
              refine List.filter_congr fun k _ => ?_
              by_cases hk : k = j
              · subst hk
                simp [hcopy, hjfree, hne]
              · rw [hkeep k hk]
            rw [hsame, hleft] at hrest
            rw [List.zip_cons_cons]
            refine ⟨?_, ?_⟩
            · intro p hp
              rcases List.mem_cons.1 hp with rfl | hp
              · rw [hrest.keep j, hcopy]
                intro hmemj
                obtain ⟨r, hr, hrj⟩ := List.mem_map.1 hmemj
                exact hjnew (hrj ▸ (List.of_mem_zip hr).2)
              · rw [hrest.copy p hp, hkeep p.1]
                have hused := (List.mem_filter.1 (List.of_mem_zip hp).1).2
                rintro hpj
                simp [hpj, hjfree] at hused
            · intro k hk
              simp only [List.map_cons, List.mem_cons, not_or] at hk
              rw [hrest.keep k hk.2, hkeep k hk.1]
      · have hstay : fdInheritEntry parent child s i = s := by
          simp only [fdInheritEntry, hi, Bool.false_eq_true, if_false]
        rw [List.filter_cons_of_neg (by exact hi), hstay]
        exact ih s

theorem fdForkInherit_copied (s : Tables V) {parent child : Nat} (hne : child ≠ parent) :
    Copied child s (fdForkInherit s parent child) ((ownSlots s parent).zip (freeSlots s)) :=
  inheritLoop_copied hne _ s

/-! ### The child's view -/

section Fresh

variable {s : Tables V} {parent child : Nat}

theorem fdForkInherit_keep (hne : child ≠ parent) {i : Slot} (hi : (s.fds i).used = true) :
    (fdForkInherit s parent child).fds i = s.fds i := by
  refine (fdForkInherit_copied s hne).keep i fun hmem => ?_
  obtain ⟨p, hp, rfl⟩ := List.mem_map.1 hmem
  have hfree := mem_freeSlots.1 (List.of_mem_zip hp).2
  rw [hi] at hfree
  cases hfree

/-- The parent still finds its own entries. -/
theorem fdGet_fdForkInherit_parent (hne : child ≠ parent) (n : Int) :
    fdGet (fdForkInherit s parent child) parent n = fdGet s parent n := by
  refine List.find?_congr fun i _ => ?_
  by_cases hi : (s.fds i).used = true
  · rw [fdForkInherit_keep hne hi]
  · by_cases hmem : i ∈ ((ownSlots s parent).zip (freeSlots s)).map Prod.snd
    · obtain ⟨p, hp, rfl⟩ := List.mem_map.1 hmem
      simp [(fdForkInherit_copied s hne).copy p hp, hi, hne]
    · rw [(fdForkInherit_copied s hne).keep i hmem]

/-- A tid that had no entry owns the filled slots and nothing else. -/
theorem ownSlots_fdForkInherit_child (hne : child ≠ parent)
    (hfresh : ∀ i, (s.fds i).used = true → (s.fds i).ownerTid ≠ child) :
    ownSlots (fdForkInherit s parent child) child =
      ((ownSlots s parent).zip (freeSlots s)).map Prod.snd := by
  have hcopied := fdForkInherit_copied s hne
  have hsorted : (((ownSlots s parent).zip (freeSlots s)).map Prod.snd).Pairwise (· < ·) :=
    (freeSlots_sorted s).sublist (map_snd_zip_sublist _ _)
  refine List.Perm.eq_of_pairwise (fun a b _ _ hab hba => absurd hba hab.asymm)
    (ownSlots_sorted _ _) hsorted ?_
  rw [List.perm_ext_iff_of_nodup (ownSlots_sorted _ _).nodup hsorted.nodup]
  intro i
  rw [mem_ownSlots]
  constructor
  · rintro ⟨hused, howner⟩
    by_contra hmem
    rw [hcopied.keep i hmem] at hused howner
    exact hfresh i hused howner
  · intro hmem
    obtain ⟨p, hp, rfl⟩ := List.mem_map.1 hmem
    rw [hcopied.copy p hp]
    exact ⟨(mem_ownSlots.1 (List.of_mem_zip hp).1).1, rfl⟩

theorem fdGet_child_eq (hne : child ≠ parent)
    (hfresh : ∀ i, (s.fds i).used = true → (s.fds i).ownerTid ≠ child) (n : Int) :
    fdGet (fdForkInherit s parent child) child n =
      (((ownSlots s parent).zip (freeSlots s)).find? fun p => (s.fds p.1).fdNum == n).map
        Prod.snd := by
  rw [fdGet_eq_find?, ownSlots_fdForkInherit_child hne hfresh, List.find?_map]
  congr 1
  refine List.find?_congr fun p hp => ?_
  simp [(fdForkInherit_copied s hne).copy p hp]

/-- The child finds nothing where its parent finds nothing. -/
theorem fdGet_fdForkInherit_none (hne : child ≠ parent)
    (hfresh : ∀ i, (s.fds i).used = true → (s.fds i).ownerTid ≠ child) {n : Int}
    (h : fdGet s parent n = none) : fdGet (fdForkInherit s parent child) child n = none := by
  rw [fdGet_eq_find?] at h
  rw [fdGet_child_eq hne hfresh, find?_zip_none h, Option.map_none]

/-- Where its parent finds the entry `i`, the child finds the free slot whose place
among the free slots is the place of `i` among the slots of the parent. -/
theorem fdGet_fdForkInherit_some (hne : child ≠ parent)
    (hfresh : ∀ i, (s.fds i).used = true → (s.fds i).ownerTid ≠ child) {n : Int} {i : Slot}
    (h : fdGet s parent n = some i) :
    fdGet (fdForkInherit s parent child) child n =
      (freeSlots s)[((ownSlots s parent).filter (· < i)).length]? := by
  rw [fdGet_eq_find?] at h
  rw [fdGet_child_eq hne hfresh, find?_zip_of_sorted (ownSlots_sorted s parent) h]
  simp

/-- What the child finds is a copy. -/
theorem fdForkInherit_sameObject (hne : child ≠ parent)
    (hfresh : ∀ i, (s.fds i).used = true → (s.fds i).ownerTid ≠ child) {n : Int} {i j : Slot}
    (hi : fdGet s parent n = some i) (hj : fdGet (fdForkInherit s parent child) child n = some j) :
    (s.fds i).SameObject ((fdForkInherit s parent child).fds j) := by
  rw [fdGet_eq_find?] at hi
  rw [fdGet_child_eq hne hfresh, Option.map_eq_some_iff] at hj
  obtain ⟨p, hp, rfl⟩ := hj
  have hmem := List.mem_of_find?_eq_some hp
  rw [find?_zip_of_sorted (ownSlots_sorted s parent) hi, Option.map_eq_some_iff] at hp
  obtain ⟨j, -, rfl⟩ := hp
  rw [(fdForkInherit_copied s hne).copy _ hmem]
  exact ⟨rfl, rfl, rfl, rfl, rfl, rfl⟩

end Fresh

/-- When no number is used twice by the thread, the condition counts its entries. -/
theorem copiesFit_iff_length_le {s : Tables V} {tid : Nat}
    (hnum : ∀ i ∈ ownSlots s tid, fdGet s tid (s.fds i).fdNum = some i) :
    CopiesFit s tid ↔ (ownSlots s tid).length ≤ (freeSlots s).length := by
  have hsorted := ownSlots_sorted s tid
  constructor
  · intro h
    rcases List.eq_nil_or_concat (ownSlots s tid) with hnil | ⟨l, i, hl⟩
    · simp [hnil]
    · have hfit := h _ i (hnum i (by simp [hl]))
      rw [hl, List.concat_eq_append, List.pairwise_append] at hsorted
      have hbelow : l.filter (· < i) = l :=
        List.filter_eq_self.2 fun a ha => by simpa using hsorted.2.2 a ha i (by simp)
      rw [hl, List.concat_eq_append, List.filter_append, hbelow] at hfit
      rw [hl, List.concat_eq_append]
      simpa using hfit
  · intro h n i hi
    have hfound := fdGet_some hi
    have hmem : i ∈ ownSlots s tid := mem_ownSlots.2 ⟨hfound.1, hfound.2.1⟩
    refine lt_of_lt_of_le ?_ h
    exact List.length_filter_lt_length_iff_exists.2 ⟨i, hmem, by simp⟩

/-- After a successful `SYS_FORK` the child, whose tid is new, has the descriptors
of its parent exactly when each of them has fewer entries of the parent before it
than there were free slots. -/
theorem sysFork_sameDescriptors_iff (s : Tables V) (parent : Nat) (child : Int) (hchild : 0 < child)
    (hfresh : ∀ i, (s.fds i).used = true → (s.fds i).ownerTid ≠ child.toNat) :
    SameDescriptors (sysFork s parent child).1 parent child.toNat ↔ CopiesFit s parent := by
  simp only [sysFork, if_pos hchild]
  generalize child.toNat = c at hfresh ⊢
  by_cases hne : c = parent
  · subst hne
    refine iff_of_true ?_ ?_
    · intro n
      refine ⟨Iff.rfl, ?_⟩
      intro i j hi hj
      rw [hi] at hj
      obtain rfl := Option.some.inj hj
      exact ⟨rfl, rfl, rfl, rfl, rfl, rfl⟩
    · intro n i hi
      have hfound := fdGet_some hi
      exact absurd hfound.2.1 (hfresh i hfound.1)
  constructor
  · intro h n i hi
    have hsome := (h n).1
    rw [fdGet_fdForkInherit_parent hne, fdGet_fdForkInherit_some hne hfresh hi, hi] at hsome
    simpa using hsome
  · intro h n
    rw [fdGet_fdForkInherit_parent hne]
    refine ⟨?_, ?_⟩
    · cases hi : fdGet s parent n with
      | none => rw [fdGet_fdForkInherit_none hne hfresh hi]
      | some i =>
          have hfit := h n i hi
          rw [fdGet_fdForkInherit_some hne hfresh hi]
          simpa using hfit
    · intro i j hi hj
      rw [fdForkInherit_keep hne (fdGet_some hi).1]
      exact fdForkInherit_sameObject hne hfresh hi hj

/-- A table in which thread 1 has `n` null descriptors, numbered from 3 on. -/
def nullTable (n : Nat) : Tables Unit :=
  { Tables.init () with
    fds := fun i =>
      if i.val < n then
        { SysFd.zero with used := true, fdNum := i.val + 3, ownerTid := 1, type := .null }
      else SysFd.zero }

theorem sysFork_sameDescriptors_three :
    SameDescriptors (sysFork (nullTable 3) 1 2).1 1 2 :=
  (sysFork_sameDescriptors_iff (nullTable 3) 1 2 (by decide) (by decide)).2
    ((copiesFit_iff_length_le (by decide)).2 (by decide))

/-- With 17 descriptors in 32 slots the child misses the last two. -/
theorem sysFork_drops_descriptors :
    ¬ ∀ (s : Tables Unit) (parent : Nat) (child : Int), 0 < child →
      (∀ i, (s.fds i).used = true → (s.fds i).ownerTid ≠ child.toNat) →
      SameDescriptors (sysFork s parent child).1 parent child.toNat := by
  intro h
  have hsame := (h (nullTable 17) 1 2 (by decide) (by decide) 19).1
  have hparent : (fdGet (sysFork (nullTable 17) 1 2).1 1 19).isSome = true := by decide +kernel
  have hchild : (fdGet (sysFork (nullTable 17) 1 2).1 2 19).isSome = false := by decide +kernel
  exact absurd (hsame.2 hparent) (by simp [hchild])

end FiFi.Fd

/-!
## What a failed `SYS_PIPE` leaves behind

`SYS_PIPE` takes a pipe with both counts at one, reserves a slot for the read end and then
looks for one for the write end. On its way out it undoes this by hand. The entries are
always back, but when there is a slot for the read end only, closing the read entry gives
back one count of the two, and the pipe is never free again.
-/

namespace FiFi.Fd

variable {V : Type*}

/-- The used entries are the same. -/
def SameUsed (s s' : Tables V) : Prop :=
  ∀ i, (s'.fds i).used = (s.fds i).used ∧ ((s.fds i).used = true → s'.fds i = s.fds i)

/-- The used entries and the counts of all pipes are the same, and with the counts the set
of free pipes. -/
def NoTrace (s s' : Tables V) : Prop :=
  SameUsed s s' ∧ ∀ p, (s'.pipes p).ropen = (s.pipes p).ropen ∧
    (s'.pipes p).wopen = (s.pipes p).wopen

theorem SameUsed.of_fds {s s' : Tables V} (h : s'.fds = s.fds) : SameUsed s s' := fun i => by
  rw [h]
  exact ⟨rfl, fun _ => rfl⟩

/-- A slot that was free and is free again does not count. -/
theorem SameUsed.update {s s' t : Tables V} {r : Slot} {e : SysFd} (h : SameUsed s t)
    (hr : (s.fds r).used = false) (he : e.used = false)
    (hfds : s'.fds = Function.update t.fds r e) : SameUsed s s' := by
  intro i
  rw [hfds]
  by_cases hi : i = r
  · subst hi
    rw [Function.update_self, he, hr]
    exact ⟨rfl, nofun⟩
  · rw [Function.update_of_ne hi]
    exact h i

theorem endCount_of_sameUsed {s s' : Tables V} (h : SameUsed s s') (t : PipeEnd) (p : PipeId) :
    endCount s' t p = endCount s t p := by
  unfold endCount
  congr 1
  refine Finset.filter_congr fun i _ => ?_
  rw [(h i).1]
  refine and_congr_right fun hused => ?_
  rw [(h i).2 hused]

/-- With the used entries back, the counts are back when the excess is. -/
theorem noTrace_iff_excess {s s' : Tables V} (h : SameUsed s s') :
    NoTrace s s' ↔ ∀ t p, excess s' t p = excess s t p := by
  constructor
  · rintro ⟨-, hlive⟩ t p
    unfold excess
    rw [endCount_of_sameUsed h]
    cases t
    · simp only [Pipe.live, (hlive p).1]
    · simp only [Pipe.live, (hlive p).2]
  · intro hex
    refine ⟨h, fun p => ?_⟩
    have hlive : ∀ t, (s'.pipes p).live t = (s.pipes p).live t := by
      intro t
      have := hex t p
      unfold excess at this
      rw [endCount_of_sameUsed h] at this
      omega
    exact ⟨hlive .read, hlive .write⟩

/-- The entries are back whenever `SYS_PIPE` fails, and with just one free slot it does. -/
theorem sysPipe_failed (flush : RamId → V → V) (s : Tables V) (tid : Nat) (copyout : Bool)
    {p : PipeId} {s₁ : Tables V} (h₁ : pipeAlloc s = some (p, s₁)) :
    ((sysPipe flush s tid true copyout).2 = -1 →
        SameUsed s (sysPipe flush s tid true copyout).1) ∧
      (OneSlotFree s → (sysPipe flush s tid true copyout).2 = -1) := by
  obtain ⟨-, hs₁⟩ := pipeAlloc_some h₁
  have hfds₁ : s₁.fds = s.fds := by rw [hs₁, setPipe_fds]
  obtain ⟨rfd, hrfd⟩ := fdNextNum_isSome s₁ tid
  simp only [sysPipe, h₁, hrfd, Bool.not_true, Bool.false_eq_true, if_false]
  cases hr : freeSlot s₁ with
  | none => exact ⟨fun _ => SameUsed.of_fds hfds₁, fun _ => rfl⟩
  | some r =>
      have hrfree : (s.fds r).used = false := hfds₁ ▸ freeSlot_some hr
      dsimp only
      generalize hs₂ : setFd s₁ r
        { s₁.fds r with used := true, fdNum := rfd, ownerTid := tid } = s₂
      obtain ⟨wfd, hwfd⟩ := fdNextNum_isSome s₂ tid
      simp only [hwfd]
      generalize he : ({ s₂.fds r with
        type := .pipeR, data := 0, size := 0, off := 0, pipe := some p } : SysFd) = e
      have heused : e.used = true := by simp [← he, ← hs₂]
      have hfds₃ : (setFd s₂ r e).fds = Function.update s.fds r e := by
        simp [← hs₂, setFd, hfds₁]
      generalize setFd s₂ r e = s₃ at hfds₃
      have hclosed : ∀ t : Tables V, t.fds = s₃.fds →
          SameUsed s (fdCloseEntry flush t r) := fun t ht =>
        (SameUsed.of_fds rfl).update hrfree (e := SysFd.zero) rfl (by
          rw [fdCloseEntry_fds, ht, hfds₃, Function.update_idem])
      cases hw : freeSlot s₃ with
      | none => exact ⟨fun _ => hclosed s₃ rfl, fun _ => rfl⟩
      | some w =>
          have hwfree := freeSlot_some hw
          have hwr : w ≠ r := by
            rintro rfl
            rw [hfds₃, Function.update_self, heused] at hwfree
            cases hwfree
          rw [hfds₃, Function.update_of_ne hwr] at hwfree
          refine ⟨?_, fun hone => absurd (hone.unique hwfree hrfree) hwr⟩
          dsimp only
          generalize ({ s₃.fds w with
            used := true, fdNum := wfd, ownerTid := tid, type := .pipeW,
            data := 0, size := 0, off := 0, pipe := some p } : SysFd) = ew
          cases copyout with
          | true => exact fun h => absurd (show (0 : Int) = -1 from h) (by decide)
          | false =>
              intro _
              simp only [Bool.false_eq_true, if_false]
              refine (hclosed s₃ rfl).update hwfree (e := SysFd.zero) rfl ?_
              rw [fdCloseEntry_fds, fdCloseEntry_fds, fdCloseEntry_fds]
              funext i
              by_cases hi : i = w
              · rw [hi, Function.update_self, Function.update_self]
              · rw [Function.update_of_ne hi, Function.update_of_ne hi]
                by_cases hir : i = r
                · rw [hir, Function.update_self, Function.update_self]
                · rw [Function.update_of_ne hir, Function.update_of_ne hir, setFd_fds_ne _ _ hi]

/-- **A failed `SYS_PIPE` leaves no trace unless there is a pipe and exactly one slot.** -/
theorem sysPipe_noTrace_iff (flush : RamId → V → V) (s : Tables V) (tid : Nat)
    (fromUser copyout : Bool) :
    ((sysPipe flush s tid fromUser copyout).2 = -1 →
        NoTrace s (sysPipe flush s tid fromUser copyout).1) ↔
      ¬ (fromUser = true ∧ PipeFree s ∧ OneSlotFree s) := by
  have hself : NoTrace s s := ⟨SameUsed.of_fds rfl, fun _ => ⟨rfl, rfl⟩⟩
  cases fromUser with
  | false => exact iff_of_true (fun _ => hself) (by simp)
  | true =>
      cases h₁ : pipeAlloc s with
      | none =>
          have hfree : ¬ PipeFree s := (pipeAlloc_none_iff s).1 h₁
          refine iff_of_true (fun _ => ?_) (by simp [hfree])
          simpa [sysPipe, h₁] using hself
      | some ps =>
          obtain ⟨p, s₁⟩ := ps
          have hfree : PipeFree s := ⟨p, (pipeAlloc_some h₁).1⟩
          obtain ⟨hsame, hfails⟩ := sysPipe_failed flush s tid copyout h₁
          have hex := excess_sysPipe flush s tid copyout h₁
          by_cases hone : OneSlotFree s
          · refine iff_of_false (fun h => ?_) (fun h => h ⟨rfl, hfree, hone⟩)
            have hr := hfails hone
            have hwrite := (noTrace_iff_excess (hsame hr)).1 (h hr) .write p
            rw [(hex .write p).1 hone] at hwrite
            simp at hwrite
          · refine iff_of_true (fun hr => ?_) fun h => hone h.2.2
            exact (noTrace_iff_excess (hsame hr)).2 fun t p' => (hex t p').2 hone

/-- With 31 of 32 slots in use the first pipe loses its write count. -/
theorem sysPipe_leaves_trace :
    (sysPipe (fun _ (v : Unit) => v) (nullTable 31) 1 true true).2 = -1 ∧
      ¬ NoTrace (nullTable 31) (sysPipe (fun _ (v : Unit) => v) (nullTable 31) 1 true true).1 := by
  refine ⟨by decide, fun h => ?_⟩
  have hw := (h.2 ⟨0, by decide⟩).2
  revert hw
  decide

end FiFi.Fd
