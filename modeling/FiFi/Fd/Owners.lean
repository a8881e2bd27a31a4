import FiFi.Fd.PipeCount

/-!
# Owners of descriptors

A predicate on thread numbers that holds of the owners of all used entries is
kept by every descriptor call of a thread that satisfies it.
-/

namespace FiFi.Fd

variable {V : Type*} {P : Nat → Prop}

/-- Every used entry belongs to a thread that satisfies `P`. -/
def OwnedBy (P : Nat → Prop) (s : Tables V) : Prop :=
  ∀ i, (s.fds i).used = true → P (s.fds i).ownerTid

theorem OwnedBy.congr {s s' : Tables V} (h : OwnedBy P s) (hfds : s'.fds = s.fds) :
    OwnedBy P s' := by
  intro i
  rw [hfds]
  exact h i

theorem OwnedBy.mono {Q : Nat → Prop} {s : Tables V} (h : OwnedBy P s) (hPQ : ∀ t, P t → Q t) :
    OwnedBy Q s :=
  fun i hi => hPQ _ (h i hi)

theorem OwnedBy.setFd {s : Tables V} (h : OwnedBy P s) {i : Slot} {e : SysFd}
    (he : e.used = true → P e.ownerTid) : OwnedBy P (setFd s i e) := by
  intro j hj
  by_cases hji : j = i
  · subst hji
    rw [setFd_fds_same] at hj ⊢
    exact he hj
  · rw [setFd_fds_ne s e hji] at hj ⊢
    exact h j hj

theorem OwnedBy.addOpen {s : Tables V} (h : OwnedBy P s) (e : SysFd) (d : Int) :
    OwnedBy P (addOpen s e d) :=
  h.congr (addOpen_fds s e d)

theorem OwnedBy.setPipe {s : Tables V} (h : OwnedBy P s) (p : PipeId) (q : Pipe) :
    OwnedBy P (setPipe s p q) :=
  h.congr rfl

section Calls

variable (flush : RamId → V → V)

theorem OwnedBy.fdCloseEntry {s : Tables V} (h : OwnedBy P s) (i : Slot) :
    OwnedBy P (fdCloseEntry flush s i) :=
  (h.setFd (i := i) (e := SysFd.zero) nofun).congr (fdCloseEntry_fds flush s i)

theorem OwnedBy.fdClose {s : Tables V} (h : OwnedBy P s) (tid : Nat) (n : Int) :
    OwnedBy P (fdClose flush s tid n) := by
  unfold Fd.fdClose
  split
  · exact h.fdCloseEntry flush _
  · exact h

/-- What is left after `fd_close_all` belongs to other threads. -/
theorem OwnedBy.fdCloseAll {s : Tables V} (h : OwnedBy P s) (tid : Nat) :
    OwnedBy (fun t => P t ∧ t ≠ tid) (fdCloseAll flush s tid) := by
  have hloop : ∀ (l : List Slot) (s : Tables V), OwnedBy P s →
      (∀ i, i ∉ l → (s.fds i).used = true → (s.fds i).ownerTid ≠ tid) →
      OwnedBy (fun t => P t ∧ t ≠ tid) (l.foldl (fun s i =>
        if (s.fds i).used && (s.fds i).ownerTid == tid then Fd.fdCloseEntry flush s i else s) s) := by
    intro l
    induction l with
    | nil =>
        intro s hs hdone i hi
        exact ⟨hs i hi, hdone i (List.not_mem_nil) hi⟩
    | cons i l ih =>
        intro s hs hdone
        rw [List.foldl_cons]
        split
        · refine ih _ (hs.fdCloseEntry flush i) ?_
          intro j hj hused
          rw [fdCloseEntry_fds] at hused ⊢
          by_cases hji : j = i
          · subst hji
            rw [Function.update_self] at hused
            cases hused
          · rw [Function.update_of_ne hji] at hused ⊢
            exact hdone j (by simp [hji, hj]) hused
        · rename_i hnot
          refine ih _ hs ?_
          intro j hj hused
          by_cases hji : j = i
          · subst hji
            simpa [hused] using hnot
          · exact hdone j (by simp [hji, hj]) hused
  exact hloop _ s h fun i hi => absurd (List.mem_finRange i) hi

theorem OwnedBy.fdForkInherit {s : Tables V} (h : OwnedBy P s) (parent : Nat) {child : Nat}
    (hc : P child) : OwnedBy P (fdForkInherit s parent child) := by
  unfold Fd.fdForkInherit
  generalize List.finRange sysFdMax = l
  induction l generalizing s with
  | nil => exact h
  | cons i l ih =>
      refine ih ?_
      unfold fdInheritEntry
      split
      · split
        · exact (h.setFd fun _ => hc).addOpen _ _
        · exact h
      · exact h

/-- With no entries of the parent nothing is copied. -/
theorem fdForkInherit_none {s : Tables V} {parent child : Nat}
    (h : ∀ i, (s.fds i).used = true → (s.fds i).ownerTid ≠ parent) :
    fdForkInherit s parent child = s := by
  unfold fdForkInherit
  generalize List.finRange sysFdMax = l
  induction l with
  | nil => rfl
  | cons i l ih =>
      have hi : fdInheritEntry parent child s i = s := by
        have hno : ((s.fds i).used && (s.fds i).ownerTid == parent) = false := by
          rw [Bool.and_eq_false_iff, beq_eq_false_iff_ne]
          by_cases hu : (s.fds i).used = true
          · exact Or.inr (h i hu)
          · exact Or.inl (Bool.not_eq_true _ |>.mp hu)
        simp [fdInheritEntry, hno]
      rw [List.foldl_cons, hi, ih]

theorem OwnedBy.fdFill {s : Tables V} (h : OwnedBy P s) {tid : Nat} (ht : P tid) (fill : SysFd) :
    OwnedBy P (fdFill s tid fill).1 := by
  unfold Fd.fdFill
  split
  · exact h
  · split
    · exact h
    · exact h.setFd fun _ => ht

theorem OwnedBy.fdDup2 {s : Tables V} (h : OwnedBy P s) (tid : Nat) (old new : Int) :
    OwnedBy P (fdDup2 flush s tid old new).1 := by
  unfold Fd.fdDup2
  split
  · exact h
  · rename_i k _
    have hclose := h.fdClose flush tid new
    generalize Fd.fdClose flush s tid new = s₁ at hclose
    simp only
    split
    · exact hclose
    · rename_i i _
      have hset : OwnedBy P (Fd.setFd s₁ i { s₁.fds k with fdNum := new }) := hclose.setFd (hclose k)
      exact hset.addOpen _ _

theorem OwnedBy.sysDup {s : Tables V} (h : OwnedBy P s) (tid : Nat) (old : Int) :
    OwnedBy P (sysDup s tid old).1 := by
  unfold Fd.sysDup
  split
  · exact h
  · rename_i k _
    split
    · exact h
    · split
      · exact h
      · exact h.setFd (h k)

theorem OwnedBy.pipeAlloc {s s' : Tables V} {p : PipeId} (h : OwnedBy P s)
    (ha : pipeAlloc s = some (p, s')) : OwnedBy P s' := by
  unfold Fd.pipeAlloc at ha
  obtain ⟨q, -, hq⟩ := Option.map_eq_some_iff.1 ha
  obtain ⟨-, rfl⟩ := Prod.mk.inj hq
  exact h.setPipe _ _

theorem OwnedBy.sysPipe {s : Tables V} (h : OwnedBy P s) {tid : Nat} (ht : P tid)
    (fromUser copyout : Bool) : OwnedBy P (sysPipe flush s tid fromUser copyout).1 := by
  unfold Fd.sysPipe
  split
  · exact h
  · split
    · exact h
    · rename_i p s₁ ha
      have h₁ := h.pipeAlloc ha
      simp only
      split
      · exact h₁.setPipe _ _
      · rename_i rfd _
        split
        · exact h₁.setPipe _ _
        · rename_i r _
          have h₂ : OwnedBy P (Fd.setFd s₁ r { s₁.fds r with
              used := true, fdNum := rfd, ownerTid := tid }) := h₁.setFd fun _ => ht
          have hown : ((Fd.setFd s₁ r { s₁.fds r with
              used := true, fdNum := rfd, ownerTid := tid }).fds r).ownerTid = tid := by
            rw [setFd_fds_same]
          generalize Fd.setFd s₁ r { s₁.fds r with
            used := true, fdNum := rfd, ownerTid := tid } = s₂ at h₂ hown
          split
          · exact OwnedBy.setPipe (h₂.setFd fun _ => hown ▸ ht) _ _
          · have h₃ : OwnedBy P (Fd.setFd s₂ r { s₂.fds r with
                type := .pipeR, data := 0, size := 0, off := 0, pipe := some p }) :=
              h₂.setFd fun _ => hown ▸ ht
            split
            · exact h₃.fdCloseEntry flush _
            · split
              · exact h₃.setFd fun _ => ht
              · exact ((h₃.setFd fun _ => ht).fdCloseEntry flush _).fdCloseEntry flush _

theorem OwnedBy.sysDup2 {s : Tables V} (h : OwnedBy P s) (tid : Nat) (fromUser : Bool)
    (old new : Int) : OwnedBy P (sysDup2 flush s tid fromUser old new).1 := by
  unfold Fd.sysDup2
  split
  · exact h
  · exact h.fdDup2 flush tid old new

theorem OwnedBy.sysClose {s : Tables V} (h : OwnedBy P s) (tid : Nat) (fromUser : Bool) (n : Int) :
    OwnedBy P (sysClose flush s tid fromUser n).1 := by
  unfold Fd.sysClose
  split
  · exact h
  · exact h.fdClose flush tid n

end Calls

end FiFi.Fd
