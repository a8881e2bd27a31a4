import FiFi.Thread.Memory

/-!
# Which thread owns which page map

Every page map in memory belongs to one thread: as its `cr3`, or through the
context of a child of `fork` that has not started. While `do_fork` runs there
may be one more, the new one; such page maps are the set `X`. A thread without a
page map has no user ranges recorded, unless it is such a child. Kernel stacks
lie apart from each other.
-/

namespace FiFi.Thread

open Pmm Vmm Fork Syscall

/-- The page map at `r` belongs to the thread. -/
def Owns (t : Task) (r : Nat) : Prop := (t.cr3 = r ∧ r ≠ 0) ∨ t.arg = some r

/-- Two kernel stacks have no page in common. -/
def StacksApart (b b' : Nat) : Prop :=
  b + stackPages * pageSize ≤ b' ∨ b' + stackPages * pageSize ≤ b

/-- What holds of each thread by itself. -/
structure TaskOk (next : Nat) (t : Task) : Prop where
  child : ∀ root, t.arg = some root → t.cr3 = 0 ∧ (t.state = .ready ∨ t.state = .running)
  noMaps : t.cr3 = 0 → t.arg = none → ∀ m ∈ t.vm.maps, m.inUse = false
  unused : t.state = .unused → t.cr3 = 0 ∧ t.stackBase = 0
  stack : t.stackBase ≠ 0 → StackAt next t.stackBase

structure TaskInv (U X : Set Nat) (next : Nat) (th : Fin 32 → Task) : Prop where
  owners : ∀ r, r ∈ U ↔ (∃ i, Owns (th i) r) ∨ r ∈ X
  unique : ∀ i j r, Owns (th i) r → Owns (th j) r → i = j
  extra : ∀ i r, Owns (th i) r → r ∉ X
  each : ∀ i, TaskOk next (th i)
  main : (th 0).stackBase = 0 ∧
    ((th 0).state = .dead ∨ (th 0).state = .zombie → (th 0).cr3 = 0)
  apart : ∀ i j, i ≠ j → (th i).stackBase ≠ 0 → (th j).stackBase ≠ 0 →
    StacksApart (th i).stackBase (th j).stackBase

structure SysInv (D : Domain) (L : List Nat) (X : Set Nat) (σ : Sys) : Prop where
  mem : MemInv D L σ.nextPageVirt σ.vmm
  tasks : TaskInv D.user X σ.nextPageVirt σ.threads
  loaded : σ.vmm.cr3 = if σ.current.cr3 ≠ 0 then σ.current.cr3 else D.kernel

theorem StackAt.mono {next next' base : Nat} (h : StackAt next base) (hle : next ≤ next') :
    StackAt next' base := ⟨h.1, h.2.1, h.2.2.trans hle⟩

theorem TaskOk.mono {next next' : Nat} {t : Task} (h : TaskOk next t) (hle : next ≤ next') :
    TaskOk next' t := ⟨h.child, h.noMaps, h.unused, fun hne => (h.stack hne).mono hle⟩

/-- Only a thread that is ready or runs may have a page map in its context. -/
theorem TaskOk.arg_none {next : Nat} {t : Task} (h : TaskOk next t) (hr : t.state ≠ .ready)
    (hrun : t.state ≠ .running) : t.arg = none := by
  cases harg : t.arg with
  | none => rfl
  | some root => exact absurd (h.child root harg).2 (not_or_intro hr hrun)

theorem TaskInv.mono {U X : Set Nat} {next next' : Nat} {th : Fin 32 → Task}
    (h : TaskInv U X next th) (hle : next ≤ next') : TaskInv U X next' th :=
  ⟨h.owners, h.unique, h.extra, fun i => (h.each i).mono hle, h.main, h.apart⟩

/-! ### Changing one thread -/

section

variable {U X U' X' : Set Nat} {next : Nat} {th : Fin 32 → Task} {i : Fin 32} {t : Task}

/-- The rule for a new value in one slot. What the slot owns afterwards, and the
page maps outside the table, come from what the slot owned and from `X`. -/
theorem TaskInv.set (h : TaskInv U X next th) (hok : TaskOk next t)
    (hU : ∀ r, r ∈ U' ↔ (r ∈ U ∧ ¬ Owns (th i) r ∧ r ∉ X) ∨ Owns t r ∨ r ∈ X')
    (hfrom : ∀ r, Owns t r ∨ r ∈ X' → Owns (th i) r ∨ r ∈ X)
    (hX' : ∀ r, Owns t r → r ∉ X')
    (hmain : i = 0 → t.stackBase = 0 ∧ (t.state = .dead ∨ t.state = .zombie → t.cr3 = 0))
    (hstack : t.stackBase ≠ 0 → ∀ j, j ≠ i → (th j).stackBase ≠ 0 →
      StacksApart t.stackBase (th j).stackBase) :
    TaskInv U' X' next (Function.update th i t) := by
  -- what another slot owns is neither owned by slot `i` nor outside the table
  have hother : ∀ j, j ≠ i → ∀ r, Owns (th j) r → ¬ Owns (th i) r ∧ r ∉ X := fun j hj r hr =>
    ⟨fun hi => hj (h.unique j i r hr hi), h.extra j r hr⟩
  have hclash : ∀ j, j ≠ i → ∀ r, Owns (th j) r → ¬ (Owns t r ∨ r ∈ X') := by
    intro j hj r hr hbad
    obtain ⟨h1, h2⟩ := hother j hj r hr
    rcases hfrom r hbad with hi | hx
    · exact h1 hi
    · exact h2 hx
  refine ⟨fun r => ?_, fun j k r hj hk => ?_, fun j r hj => ?_, fun j => ?_, ?_, ?_⟩
  · rw [hU]
    constructor
    · rintro (⟨hr, hi, hx⟩ | hr | hr)
      · obtain ⟨j, hj⟩ := ((h.owners r).1 hr).resolve_right hx
        have hji : j ≠ i := by
          rintro rfl
          exact hi hj
        exact Or.inl ⟨j, by rwa [Function.update_of_ne hji]⟩
      · exact Or.inl ⟨i, by rwa [Function.update_self]⟩
      · exact Or.inr hr
    · rintro (⟨j, hj⟩ | hr)
      · by_cases hji : j = i
        · subst hji
          rw [Function.update_self] at hj
          exact Or.inr (Or.inl hj)
        · rw [Function.update_of_ne hji] at hj
          exact Or.inl ⟨(h.owners r).2 (Or.inl ⟨j, hj⟩), hother j hji r hj⟩
      · exact Or.inr (Or.inr hr)
  · by_cases hji : j = i
    · by_cases hki : k = i
      · rw [hji, hki]
      · subst hji
        rw [Function.update_self] at hj
        rw [Function.update_of_ne hki] at hk
        exact absurd (Or.inl hj) (hclash k hki r hk)
    · rw [Function.update_of_ne hji] at hj
      by_cases hki : k = i
      · subst hki
        rw [Function.update_self] at hk
        exact absurd (Or.inl hk) (hclash j hji r hj)
      · rw [Function.update_of_ne hki] at hk
        exact h.unique j k r hj hk
  · by_cases hji : j = i
    · subst hji
      rw [Function.update_self] at hj
      exact hX' r hj
    · rw [Function.update_of_ne hji] at hj
      exact fun hx => hclash j hji r hj (Or.inr hx)
  · by_cases hji : j = i
    · subst hji
      rwa [Function.update_self]
    · rw [Function.update_of_ne hji]
      exact h.each j
  · by_cases h0 : (0 : Fin 32) = i
    · subst h0
      rw [Function.update_self]
      exact hmain rfl
    · rw [Function.update_of_ne h0]
      exact h.main
  · intro j k hjk hj hk
    by_cases hji : j = i
    · subst hji
      rw [Function.update_self] at hj ⊢
      rw [Function.update_of_ne hjk.symm] at hk ⊢
      exact hstack hj k hjk.symm hk
    · rw [Function.update_of_ne hji] at hj ⊢
      by_cases hki : k = i
      · subst hki
        rw [Function.update_self] at hk ⊢
        exact (hstack hk j hji hj).symm
      · rw [Function.update_of_ne hki] at hk ⊢
        exact h.apart j k hjk hj hk

/-- Changing a thread without changing what it owns. -/
theorem TaskInv.setSame (h : TaskInv U X next th) (hok : TaskOk next t)
    (howns : ∀ r, Owns t r ↔ Owns (th i) r) (hbase : t.stackBase = (th i).stackBase)
    (hmain : i = 0 → t.state = .dead ∨ t.state = .zombie → t.cr3 = 0) :
    TaskInv U X next (Function.update th i t) := by
  refine h.set hok (fun r => ?_) (fun r hr => ?_) (fun r hr => ?_) (fun h0 => ⟨?_, hmain h0⟩) ?_
  · constructor
    · intro hr
      rcases (h.owners r).1 hr with ⟨j, hj⟩ | hx
      · by_cases hi : Owns (th i) r
        · exact Or.inr (Or.inl ((howns r).2 hi))
        · exact Or.inl ⟨hr, hi, h.extra j r hj⟩
      · exact Or.inr (Or.inr hx)
    · rintro (⟨hr, -⟩ | hr | hr)
      · exact hr
      · exact (h.owners r).2 (Or.inl ⟨i, (howns r).1 hr⟩)
      · exact (h.owners r).2 (Or.inr hr)
  · exact hr.imp_left (howns r).1
  · exact h.extra i r ((howns r).1 hr)
  · rw [hbase, h0]
    exact h.main.1
  · intro hne j hj hjne
    rw [hbase] at hne ⊢
    exact h.apart i j hj.symm hne hjne

/-- A thread loses its page map. -/
theorem TaskInv.release (h : TaskInv U X next th) (hok : TaskOk next t) (hnone : ∀ r, ¬ Owns t r)
    (hU : ∀ r, r ∈ U' ↔ r ∈ U ∧ ¬ Owns (th i) r)
    (hbase : t.stackBase = 0 ∨ t.stackBase = (th i).stackBase)
    (hmain : i = 0 → t.state = .dead ∨ t.state = .zombie → t.cr3 = 0) :
    TaskInv U' X next (Function.update th i t) := by
  refine h.set hok (fun r => ?_) (fun r hr => Or.inr (hr.resolve_left (hnone r)))
    (fun r hr => absurd hr (hnone r)) (fun h0 => ⟨?_, hmain h0⟩) (fun hne j hj hjne => ?_)
  · rw [hU]
    constructor
    · rintro ⟨hr, hno⟩
      by_cases hx : r ∈ X
      · exact Or.inr (Or.inr hx)
      · exact Or.inl ⟨hr, hno, hx⟩
    · rintro (⟨hr, hno, -⟩ | hr | hr)
      · exact ⟨hr, hno⟩
      · exact absurd hr (hnone r)
      · exact ⟨(h.owners r).2 (Or.inr hr), fun ho => h.extra i r ho hr⟩
  · rcases hbase with hz | hz
    · exact hz
    · rw [hz, h0]
      exact h.main.1
  · have hz := hbase.resolve_left hne
    rw [hz] at hne ⊢
    exact h.apart i j hj.symm hne hjne

end

/-! ### Pages owned by a thread -/

/-- The pages that only this thread uses: those of its page map and those of its
kernel stack. -/
def Owned (σ : Sys) (i : Fin 32) : Set Nat :=
  {p | (∃ r, Owns (σ.threads i) r ∧ p ∈ mapPages σ.vmm.mem r) ∨
    ((σ.threads i).stackBase ≠ 0 ∧ p ∈ stackFrames σ.vmm (σ.threads i).stackBase)}

section

variable {D : Domain} {L : List Nat} {X : Set Nat} {σ : Sys}

theorem SysInv.mem_user (h : SysInv D L X σ) {i : Fin 32} {r : Nat} (hr : Owns (σ.threads i) r) :
    r ∈ D.user := (h.tasks.owners r).2 (Or.inl ⟨i, hr⟩)

theorem SysInv.loaded_root (h : SysInv D L X σ) :
    σ.vmm.cr3 ∈ D.user ∨ σ.vmm.cr3 = D.kernel := by
  rw [h.loaded]
  split
  · next hne => exact Or.inl (h.mem_user (i := σ.cur) (Or.inl ⟨rfl, hne⟩))
  · exact Or.inr rfl

theorem SysInv.stack_pos (h : SysInv D L X σ) {i : Fin 32} (hb : (σ.threads i).stackBase ≠ 0)
    {k : Nat} (hk : k < stackPages) :
    Pos D D.kernel (vaPath (alignDown (σ.threads i).stackBase + k * pageSize)) := by
  have hn := h.mem.next_hi
  obtain ⟨h1, h2, -⟩ := ((h.tasks.each i).stack hb).range hn hk
  refine h.mem.heap_pos (by omega) ?_
  simp only [pageSize] at *
  omega

/-- What a thread owns is not free. -/
theorem SysInv.owned_not_free (h : SysInv D L X σ) {i : Fin 32} {p : Nat} (hp : p ∈ Owned σ i) :
    p ∉ freePhys σ.vmm.pmm := by
  rcases hp with ⟨r, hr, hp⟩ | ⟨hb, k, hk, e, he, rfl⟩
  · exact h.mem.mapPages_not_free (h.mem_user hr) hp
  · rw [freePhys_eq h.mem.forest.pmm]
    rw [h.mem.kernelCr3] at he
    exact h.mem.forest.not_free (h.stack_pos hb hk) he

end

end FiFi.Thread
