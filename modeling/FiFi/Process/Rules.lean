import FiFi.Library.StateMachine
import FiFi.Process.Table

/-!
# What a step of the process table can do

Most of what a step does is quiet: it moves threads between the states in which
they live, makes a thread in a free slot or frees the slot of a dead one. The
rest is a short list: a signal is looked at, a thread exits or is killed, a
parent is handed a status, the descriptor tables change. `Rules` collects what a
property of the kernel has to satisfy for each of them, and `Rules.step` says
that it is then kept by every step.
-/

namespace FiFi.Process

open Fd Thread StateMachine

variable {V : Type*}

/-! ### Quiet changes -/

/-- A change of one thread that is quiet. -/
structure QuietTask (t t' : Task) : Prop where
  live : Live t → Live t' ∧ t'.tid = t.tid
  zombie : t'.state = .zombie → t.state = .zombie ∧ t'.exitCode = t.exitCode ∧ t'.fate = t.fate ∧
    t'.parentTid = t.parentTid
  sigPending : t.sigPending < 32 → t'.sigPending < 32

/-- Thread numbers below `n` are given out in order: a parent has a smaller number
than its child. The thread of slot 0 has no parent. -/
def KinTask (n : Nat) (i : Fin 32) (t : Task) : Prop :=
  t.tid < n ∧ (t.parentTid = 0 ∨ i ≠ 0 ∧ t.parentTid < t.tid)

def Kin (k : Kernel V) : Prop := ∀ i, KinTask k.nextTid i (k.threads i)

/-- A change of the threads that ends none of them. -/
structure Quiet (k k' : Kernel V) : Prop where
  delivered : k'.delivered = k.delivered
  handed : k'.handed = k.handed
  tables : k'.tables = k.tables
  task : ∀ i, QuietTask (k.threads i) (k'.threads i)
  kin : Kin k → Kin k'

theorem QuietTask.refl (t : Task) : QuietTask t t :=
  ⟨fun h => ⟨h, rfl⟩, fun h => ⟨h, rfl, rfl, rfl⟩, id⟩

theorem QuietTask.trans {t t' t'' : Task} (h : QuietTask t t') (h' : QuietTask t' t'') :
    QuietTask t t'' := by
  refine ⟨fun hl => ?_, fun hz => ?_, fun hs => h'.sigPending (h.sigPending hs)⟩
  · obtain ⟨h1, h2⟩ := h.live hl
    obtain ⟨h3, h4⟩ := h'.live h1
    exact ⟨h3, h4.trans h2⟩
  · obtain ⟨h1, h2, h3, h4⟩ := h'.zombie hz
    obtain ⟨h5, h6, h7, h8⟩ := h.zombie h1
    exact ⟨h5, h2.trans h6, h3.trans h7, h4.trans h8⟩

/-- A thread that lives on in another state. -/
theorem QuietTask.of_live {t t' : Task} (hl : Live t → Live t') (hz : t'.state ≠ .zombie)
    (htid : Live t → t'.tid = t.tid) (hs : t.sigPending < 32 → t'.sigPending < 32) :
    QuietTask t t' :=
  ⟨fun h => ⟨hl h, htid h⟩, fun h => absurd h hz, hs⟩

/-- The state stays. -/
theorem QuietTask.of_state {t t' : Task} (hs : t'.state = t.state) (htid : t'.tid = t.tid)
    (hc : t'.exitCode = t.exitCode) (hf : t'.fate = t.fate) (hpar : t'.parentTid = t.parentTid)
    (hp : t.sigPending < 32 → t'.sigPending < 32) : QuietTask t t' := by
  refine ⟨fun h => ⟨?_, htid⟩, fun h => ⟨hs ▸ h, hc, hf, hpar⟩, hp⟩
  unfold Live at h ⊢
  rw [hs]
  exact h

theorem Quiet.refl (k : Kernel V) : Quiet k k := ⟨rfl, rfl, rfl, fun _ => QuietTask.refl _, id⟩

theorem Quiet.trans {k k' k'' : Kernel V} (h : Quiet k k') (h' : Quiet k' k'') : Quiet k k'' :=
  ⟨h'.delivered.trans h.delivered, h'.handed.trans h.handed, h'.tables.trans h.tables,
    fun i => (h.task i).trans (h'.task i), fun hk => h'.kin (h.kin hk)⟩

@[simp] theorem setTask_threads (k : Kernel V) (i : Fin 32) (t : Task) :
    (k.setTask i t).threads = Function.update k.threads i t := rfl

theorem Kin.setTask {k : Kernel V} {i : Fin 32} {t : Task} (hk : Kin k)
    (h : KinTask k.nextTid i (k.threads i) → KinTask k.nextTid i t) : Kin (k.setTask i t) := by
  intro j
  rw [setTask_threads]
  by_cases hj : j = i
  · subst hj
    rw [Function.update_self]
    exact h (hk j)
  · rw [Function.update_of_ne hj]
    exact hk j

theorem QuietTask.setTask {k : Kernel V} {i : Fin 32} {t : Task} (h : QuietTask (k.threads i) t)
    (j : Fin 32) : QuietTask (k.threads j) ((k.setTask i t).threads j) := by
  rw [setTask_threads]
  by_cases hj : j = i
  · subst hj
    rw [Function.update_self]
    exact h
  · rw [Function.update_of_ne hj]
    exact QuietTask.refl _

/-- One thread changes. Its number and its parent stay, if nothing else is said. -/
theorem Quiet.setTask {k : Kernel V} {i : Fin 32} {t : Task} (h : QuietTask (k.threads i) t)
    (hkin : KinTask k.nextTid i (k.threads i) → KinTask k.nextTid i t := by exact id) :
    Quiet k (k.setTask i t) :=
  ⟨rfl, rfl, rfl, h.setTask, fun hk => hk.setTask hkin⟩

theorem Quiet.setCurrent {k : Kernel V} {t : Task} (h : QuietTask k.current t)
    (hkin : KinTask k.nextTid k.cur k.current → KinTask k.nextTid k.cur t := by exact id) :
    Quiet k (k.setCurrent t) :=
  Quiet.setTask h hkin

theorem reapSlot_quiet (k : Kernel V) (i : Fin 32) : Quiet k (reapSlot k i) := by
  simp only [reapSlot]
  split
  · exact Quiet.refl k
  · split
    · exact Quiet.refl k
    · rename_i hdead _
      have hd : (k.threads i).state = .dead := by simpa using hdead
      exact Quiet.setTask (QuietTask.of_live (fun hl => absurd hd hl.2.1) nofun
        (fun hl => absurd hd hl.2.1) id) (fun hk => ⟨Nat.zero_lt_of_lt hk.1, Or.inl rfl⟩)

theorem threadReapDead_quiet (k : Kernel V) : Quiet k (threadReapDead k) := by
  unfold threadReapDead
  generalize slots = is
  induction is generalizing k with
  | nil => exact Quiet.refl k
  | cons i is ih => exact (reapSlot_quiet k i).trans (ih (reapSlot k i))

theorem live_running {t : Task} (h : t.state = .running) : Live t := by
  simp [Live, h]

theorem live_ready {t : Task} (h : t.state = .ready) : Live t := by
  simp [Live, h]

theorem live_sleeping {t : Task} (h : t.state = .sleeping) : Live t := by
  simp [Live, h]

theorem switchTo_quiet (k : Kernel V) (next : Fin 32) : Quiet k (switchTo k next) := by
  have hprev : Quiet k (if k.current.state = .running then
      k.setCurrent { k.current with state := .ready } else k) := by
    split
    · exact Quiet.setCurrent (QuietTask.of_live (fun _ => live_ready rfl) nofun (fun _ => rfl) id)
    · exact Quiet.refl k
  simp only [switchTo]
  generalize (if k.current.state = .running then
      k.setCurrent { k.current with state := .ready } else k) = k₁ at hprev
  have hnext : Quiet k₁ (k₁.setTask next { k₁.threads next with state := .running }) :=
    Quiet.setTask (QuietTask.of_live (fun _ => live_running rfl) nofun (fun _ => rfl) id)
  have hq := hprev.trans hnext
  exact ⟨hq.delivered, hq.handed, hq.tables, hq.task, hq.kin⟩

theorem threadYield_quiet {k k' : Kernel V} {pick : Option (Fin 32)}
    (h : threadYield k pick = some k') : Quiet k k' := by
  have hreap := threadReapDead_quiet k
  unfold threadYield at h
  generalize threadReapDead k = k₁ at h hreap
  cases pick with
  | none =>
      simp only [Option.ite_none_right_eq_some, Option.some.injEq] at h
      exact h.2 ▸ hreap
  | some i =>
      simp only [Option.ite_none_right_eq_some, Option.some.injEq] at h
      exact hreap.trans (h.2 ▸ switchTo_quiet k₁ i)

theorem backToUser_quiet (k : Kernel V) : Quiet k (backToUser k) :=
  Quiet.setCurrent (QuietTask.of_state rfl rfl rfl rfl rfl id)

theorem away_quiet {k k' : Kernel V} {p : Place} {pick : Option (Fin 32)}
    (h : away k p pick = some k') : Quiet k k' := by
  unfold away at h
  have hplace : Quiet k (k.setCurrent { k.current with place := p }) :=
    Quiet.setCurrent (QuietTask.of_state rfl rfl rfl rfl rfl id)
  exact hplace.trans (threadYield_quiet h)

theorem sleepAt_quiet {k k' : Kernel V} {p : Place} {pick : Option (Fin 32)}
    (h : sleepAt k p pick = some k') : Quiet k k' := by
  unfold sleepAt at h
  have hsleep : Quiet k (k.setCurrent { k.current with state := .sleeping }) :=
    Quiet.setCurrent (QuietTask.of_live (fun _ => live_sleeping rfl) nofun (fun _ => rfl) id)
  exact hsleep.trans (away_quiet h)

theorem wake_quiet (t : Task) : QuietTask t (wake t) := by
  unfold wake
  split
  · exact QuietTask.of_live (fun _ => live_ready rfl) nofun (fun _ => rfl) id
  · exact QuietTask.refl t

theorem wake_kin {n : Nat} {i : Fin 32} {t : Task} (h : KinTask n i t) : KinTask n i (wake t) := by
  unfold wake
  split
  · exact h
  · exact h

theorem signal_quiet {t : Task} {sig : Nat} (hsig : sig < 32) :
    QuietTask t { t with sigPending := sig } :=
  QuietTask.of_state rfl rfl rfl rfl rfl fun _ => hsig

theorem signalChildren_quiet (k : Kernel V) : Quiet k (signalChildren k) := by
  refine ⟨rfl, rfl, rfl, fun i => ?_, fun hk i => ?_⟩
  · simp only [signalChildren]
    split
    · exact (signal_quiet (by decide)).trans (wake_quiet _)
    · exact QuietTask.refl _
  · simp only [signalChildren]
    split
    · exact wake_kin (hk i)
    · exact hk i

theorem sigtstpChildren_quiet (k : Kernel V) : Quiet k (sigtstpChildren k) := by
  refine ⟨rfl, rfl, rfl, fun i => ?_, fun hk i => ?_⟩
  · simp only [sigtstpChildren]
    split
    · split
      · exact (signal_quiet (by decide)).trans (wake_quiet _)
      · exact wake_quiet _
    · exact QuietTask.refl _
  · simp only [sigtstpChildren]
    split
    · split
      · exact wake_kin (hk i)
      · exact wake_kin (hk i)
    · exact hk i

theorem killByTid_quiet (k : Kernel V) (tid : Nat) {sig : Nat} (hsig : sig < 32) :
    Quiet k (killByTid k tid sig) := by
  unfold killByTid
  split
  · exact Quiet.refl k
  · rename_i i _
    refine Quiet.setTask (QuietTask.trans ((signal_quiet hsig).trans (wake_quiet _)) ?_)
      (fun hk => ?_)
    · split
      · exact QuietTask.of_live (fun _ => live_ready rfl) nofun (fun _ => rfl) id
      · exact QuietTask.refl _
    · have hw : KinTask k.nextTid i (wake { k.threads i with sigPending := sig }) := wake_kin hk
      split
      · exact hw
      · exact hw

theorem findFreeSlot_some {k : Kernel V} {i : Fin 32} (h : findFreeSlot k = some i) :
    ¬ Live (k.threads i) := by
  unfold findFreeSlot at h
  have hslot := List.find?_some h
  simp only [Bool.or_eq_true, decide_eq_true_eq] at hslot
  intro hl
  rcases hslot with hs | hs
  · exact hl.1 hs
  · exact hl.2.1 hs

theorem threadCreate_quiet (k : Kernel V) (memory : Bool) :
    Quiet k (threadCreate k memory).2 := by
  have hreap := threadReapDead_quiet k
  unfold threadCreate
  generalize threadReapDead k = k₁ at hreap
  simp only
  split
  · exact hreap
  · rename_i i hfree
    have hdead := findFreeSlot_some hfree
    split
    · exact hreap
    · have hq : QuietTask (k₁.threads i) (newTask (k₁.threads i) k₁.nextTid) :=
        QuietTask.of_live (fun hl => absurd hl hdead) nofun (fun hl => absurd hl hdead) id
      refine hreap.trans ⟨rfl, rfl, rfl, hq.setTask, fun hk j => ?_⟩
      change KinTask (k₁.nextTid + 1) j (Function.update k₁.threads i _ j)
      by_cases hj : j = i
      · subst hj
        rw [Function.update_self]
        exact ⟨Nat.lt_succ_self _, Or.inl rfl⟩
      · rw [Function.update_of_ne hj]
        exact ⟨Nat.lt_succ_of_lt (hk j).1, (hk j).2⟩

theorem takePendingSig_quiet (k : Kernel V) (access : Bool) (o : Outcome) (i : Fin 32) :
    QuietTask (k.threads i) ((takePendingSig k access o).threads i) := by
  have hq : Quiet k (k.setCurrent { k.current with sigPending := 0 }) :=
    Quiet.setCurrent (QuietTask.of_state rfl rfl rfl rfl rfl fun _ => Nat.zero_lt_succ 31)
  exact hq.task i

theorem takePendingSig_kin {k : Kernel V} (hk : Kin k) (access : Bool) (o : Outcome) :
    Kin (takePendingSig k access o) :=
  hk.setTask (t := { k.current with sigPending := 0 }) id

theorem doStop_quiet (k : Kernel V) : Quiet k (doStop k) :=
  Quiet.setCurrent (QuietTask.of_live (fun _ => by simp [Live]) nofun (fun _ => rfl) id)

/-! ### What a look at the signals does -/

/-- Nothing is pending, or the thread is stopped, or the signal ends it. -/
theorem checkSignal_cases {k : Kernel V} {access : Bool} {Q : Kernel V → Prop} (hgo : Q k)
    (hstop : Q (doStop (takePendingSig k access .stopped)))
    (hdies : k.current.sigPending ≠ 0 → k.current.sigPending ≠ sigTstp →
      Q (exitCurrent (takePendingSig k access .terminated) (128 + k.current.sigPending)
        (.signaled k.current.sigPending))) : Q (checkSignal k access).1 := by
  simp only [checkSignal]
  split
  · exact hgo
  · rename_i h0
    split
    · exact hstop
    · rename_i htstp
      exact hdies h0 htstp

/-- On the return to user mode a signal may also be taken and not end the thread. -/
theorem deliverOnReturn_cases {k : Kernel V} {access : Bool} {Q : Kernel V → Prop} (hgo : Q k)
    (htake : ∀ o, Q (takePendingSig k access o))
    (hstop : Q (doStop (takePendingSig k access .stopped)))
    (hdies : k.current.sigPending ≠ 0 → k.current.sigHandlers k.current.sigPending = 0 →
      k.current.sigPending ≠ sigTstp → k.current.sigPending ≠ sigCont →
      Q (exitCurrent (takePendingSig k access .terminated) (128 + k.current.sigPending)
        (.signaled k.current.sigPending))) : Q (deliverOnReturn k access).1 := by
  simp only [deliverOnReturn]
  split
  · exact hgo
  · rename_i h0
    split
    · exact htake _
    · rename_i hign
      split
      · exact htake _
      · rename_i hdfl
        split
        · exact hstop
        · rename_i htstp
          split
          · exact htake _
          · rename_i hcont
            exact hdies h0 (by omega) htstp hcont

/-! ### Threads that live are left alone -/

theorem reapSlot_live {k : Kernel V} {j : Fin 32} (h : Live (k.threads j)) (i : Fin 32) :
    (reapSlot k i).threads j = k.threads j ∧ (reapSlot k i).cur = k.cur := by
  simp only [reapSlot]
  split
  · exact ⟨rfl, rfl⟩
  · split
    · exact ⟨rfl, rfl⟩
    · rename_i hdead _
      have hd : (k.threads i).state = .dead := by simpa using hdead
      have hne : j ≠ i := by
        rintro rfl
        exact h.2.1 hd
      exact ⟨Function.update_of_ne hne _ _, rfl⟩

theorem threadReapDead_live {k : Kernel V} {j : Fin 32} (h : Live (k.threads j)) :
    (threadReapDead k).threads j = k.threads j ∧ (threadReapDead k).cur = k.cur := by
  unfold threadReapDead
  generalize slots = is
  induction is generalizing k with
  | nil => exact ⟨rfl, rfl⟩
  | cons i is ih =>
      obtain ⟨ht, hc⟩ := reapSlot_live h i
      obtain ⟨ht', hc'⟩ := ih (k := reapSlot k i) (ht ▸ h)
      exact ⟨ht'.trans ht, hc'.trans hc⟩

/-- A new thread is ready, and a thread that lives is left alone. -/
theorem threadCreate_live {k : Kernel V} {j : Fin 32} (h : Live (k.threads j)) (memory : Bool) :
    (threadCreate k memory).2.threads j = k.threads j ∧
      (threadCreate k memory).2.cur = k.cur ∧
      ∀ i, (threadCreate k memory).1 = some i →
        i ≠ j ∧ Live ((threadCreate k memory).2.threads i) := by
  obtain ⟨ht, hc⟩ := threadReapDead_live h
  unfold threadCreate
  generalize threadReapDead k = k₁ at ht hc
  simp only
  split
  · exact ⟨ht, hc, nofun⟩
  · rename_i i hfree
    have hdead := findFreeSlot_some hfree
    have hne : j ≠ i := by
      rintro rfl
      exact hdead (ht ▸ h)
    split
    · exact ⟨ht, hc, nofun⟩
    · refine ⟨(Function.update_of_ne hne _ _).trans ht, hc, ?_⟩
      rintro i' hi
      obtain rfl := Option.some.inj hi
      refine ⟨hne.symm, ?_⟩
      change Live (Function.update k₁.threads i _ i)
      rw [Function.update_self]
      exact live_ready rfl

theorem threadReapDead_nextTid (k : Kernel V) : (threadReapDead k).nextTid = k.nextTid := by
  unfold threadReapDead
  generalize slots = is
  induction is generalizing k with
  | nil => rfl
  | cons i is ih =>
      refine (ih (reapSlot k i)).trans ?_
      simp only [reapSlot]
      split
      · rfl
      · split <;> rfl

theorem ne_zero_of_findFreeSlot {k : Kernel V} {i : Fin 32} (h : findFreeSlot k = some i) :
    i ≠ 0 := by
  have hmem := List.mem_of_find?_eq_some h
  have hall : ∀ j ∈ slots, j ≠ 0 := by decide
  exact hall i hmem

/-- The number of a new thread. -/
theorem threadCreate_tid {k : Kernel V} {memory : Bool} {i : Fin 32}
    (h : (threadCreate k memory).1 = some i) :
    i ≠ 0 ∧ ((threadCreate k memory).2.threads i).tid = k.nextTid := by
  have hnext := threadReapDead_nextTid k
  unfold threadCreate at h ⊢
  generalize threadReapDead k = k₁ at h hnext
  simp only at h ⊢
  split at h
  · cases h
  · rename_i i' hfree
    split at h
    · cases h
    · rename_i hmem
      obtain rfl := Option.some.inj h
      simp only [hmem, if_false, setTask_threads, Function.update_self]
      exact ⟨ne_zero_of_findFreeSlot hfree, hnext⟩

/-- What `fork` does to the threads: nothing, or a child that lives and owns the
copies of the descriptors. -/
theorem doFork_cases {k : Kernel V} (h : Live k.current) (memory : Bool) :
    (doFork k memory).current = k.current ∧ (doFork k memory).cur = k.cur ∧
      ∃ k₁, Quiet k k₁ ∧ k₁.current = k.current ∧
        (doFork k memory = k₁ ∨ ∃ i, Live (k₁.threads i) ∧ doFork k memory =
          { k₁ with tables := fdForkInherit k₁.tables k.current.tid (k₁.threads i).tid }) := by
  have hq := threadCreate_quiet k memory
  have htid : ∀ i, (threadCreate k memory).1 = some i →
      i ≠ 0 ∧ ((threadCreate k memory).2.threads i).tid = k.nextTid := fun i hi => threadCreate_tid hi
  obtain ⟨ht, hc, hnew⟩ := threadCreate_live h memory
  unfold doFork
  generalize threadCreate k memory = q at hq ht hc hnew htid
  obtain ⟨slot, k₁⟩ := q
  have hcur : k₁.current = k.current := by
    change k₁.threads k₁.cur = _
    rw [hc]
    exact ht
  cases slot with
  | none => exact ⟨hcur, hc, k₁, hq, hcur, Or.inl rfl⟩
  | some i =>
      obtain ⟨hne, hlive⟩ := hnew i rfl
      have hstay : (k₁.setTask i { k₁.threads i with
          parentTid := k₁.current.tid, isUser := true
          sigHandlers := k₁.current.sigHandlers }).current = k.current := by
        change Function.update k₁.threads i _ k₁.cur = _
        rw [Function.update_of_ne]
        · exact hcur
        · rw [hc]
          exact hne.symm
      have hchild : QuietTask (k₁.threads i) { k₁.threads i with
          parentTid := k₁.current.tid, isUser := true
          sigHandlers := k₁.current.sigHandlers } :=
        QuietTask.of_live id hlive.2.2 (fun _ => rfl) id
      obtain ⟨hi, hnum⟩ := htid i rfl
      refine ⟨hstay, hc, k₁.setTask i { k₁.threads i with
          parentTid := k₁.current.tid, isUser := true
          sigHandlers := k₁.current.sigHandlers },
        ⟨hq.delivered, hq.handed, hq.tables, fun j => (hq.task j).trans (hchild.setTask j), ?_⟩,
        hstay, Or.inr ⟨i, ?_, ?_⟩⟩
      · -- the child has a new number, and that of its parent is older
        intro hk
        refine (hq.kin hk).setTask fun hkin => ⟨hkin.1, Or.inr ⟨hi, ?_⟩⟩
        change k₁.current.tid < (k₁.threads i).tid
        rw [hcur, show (k₁.threads i).tid = k.nextTid from hnum]
        exact (hk k.cur).1
      · rw [setTask_threads, Function.update_self]
        exact hlive
      · simp only [hcur, setTask_threads, Function.update_self]

/-! ### The rules -/

section Rules

variable (flush : RamId → V → V) (P : Kernel V → Prop) (checkOk leaveOk : Kernel V → Prop)
  (exitOk : Kernel V → Nat → Prop) (killOk : Kernel V → Fin 32 → Prop)

/-- What keeps the property `P`: the quiet changes, and under a condition of its
own each thing that is not quiet. -/
structure Rules : Prop where
  quiet : ∀ {k k' : Kernel V}, Quiet k k' → P k → P k'
  check : ∀ {k : Kernel V} (access : Bool), P k → Live k.current → checkOk k →
    P (checkSignal k access).1
  leave : ∀ {k : Kernel V} (access : Bool), P k → Live k.current → leaveOk k →
    P (deliverOnReturn k access).1
  leaveFork : ∀ {k : Kernel V} (memory : Bool), Live k.current → leaveOk k → leaveOk (doFork k memory)
  exit : ∀ {k : Kernel V} {rdi : Nat}, P k → Live k.current → exitOk k rdi →
    P (exitCurrent { k with tables := fdCloseAll flush k.tables k.current.tid } (toInt32 rdi)
      (.exited (toInt32 rdi)))
  kill : ∀ {k : Kernel V} {i : Fin 32}, P k → killOk k i →
    P (k.setTask i { k.threads i with state := .dead })
  fds : ∀ {k : Kernel V} (op : FdOp), P k → Live k.current →
    P { k with tables := fdStep flush k.tables (op.call k.current.tid) }
  inherit : ∀ {k : Kernel V} {i : Fin 32} (tid : Nat), P k → Live (k.threads i) →
    P { k with tables := fdForkInherit k.tables tid (k.threads i).tid }
  collect : ∀ {k : Kernel V} {i : Fin 32}, P k → (k.threads i).state = .zombie →
    P ((hand k i (k.threads i).exitCode (.ended (k.threads i).fate)).setTask i
      { k.threads i with state := .dead })
  report : ∀ {k : Kernel V} {i : Fin 32}, P k → (k.threads i).state = .stopped →
    P ((hand k i stopStatus .stopped).setTask i { k.threads i with stopReported := true })

/-- The exit code of a call meets the condition. -/
def ExitOk (k : Kernel V) : Call → Prop
  | .exit rdi => exitOk k rdi
  | _ => True

/-- A call that delivers signals on its return. -/
def Call.Leaves : Call → Prop
  | .fork => True
  | .leaves => True
  | _ => False

/-- The condition on a step. A signal is looked at when a call is entered and
after the sleep of a blocking call, and on the return of a call that was stopped
at its entry. -/
def StepOk (k : Kernel V) : Act → Prop
  | .syscall c _ => checkOk k ∧ (k.current.sigPending = 0 → ExitOk exitOk k c)
  | .resume _ =>
      match k.current.place with
      | .user => True
      | .body c => ExitOk exitOk k c ∧ (c.Leaves → leaveOk k)
      | .check c => checkOk k ∧ (k.current.sigPending = 0 → ExitOk exitOk k c)
      | .leave => True
  | .kill i _ =>
      i ≠ 0 → (k.threads i).state ≠ .unused → (k.threads i).state ≠ .dead → killOk k i
  | _ => True

variable {flush P checkOk leaveOk exitOk killOk}

theorem checkSignal_go {k : Kernel V} {access : Bool} (h : (checkSignal k access).2 = .go) :
    (checkSignal k access).1 = k ∧ k.current.sigPending = 0 := by
  by_cases hs : k.current.sigPending = 0
  · simp only [checkSignal, hs, if_true, and_self]
  · simp only [checkSignal, hs, if_false] at h
    split at h <;> cases h

theorem deliverOnReturn_none {k : Kernel V} (h : k.current.sigPending = 0) (access : Bool) :
    deliverOnReturn k access = (k, .go) := by
  simp only [deliverOnReturn, h, if_true]

/-- Whatever comes after a look at the signals is quiet or goes on. -/
theorem Rules.after (r : Rules flush P checkOk leaveOk exitOk killOk) {q : Kernel V × Flow} {p : Place}
    {pick : Option (Fin 32)} {next : Kernel V → Option (Kernel V)} {k' : Kernel V} (hq : P q.1)
    (hnext : q.2 = .go → next q.1 = some k' → P k') (h : after q p pick next = some k') : P k' := by
  unfold Process.after at h
  split at h
  · rename_i hgo
    exact hnext hgo h
  · exact r.quiet (away_quiet h) hq
  · exact r.quiet (threadYield_quiet h) hq

theorem Rules.leaveCall (r : Rules flush P checkOk leaveOk exitOk killOk) {k k' : Kernel V} {e : Env}
    (hp : P k) (hl : Live k.current) (hok : k.current.sigPending = 0 ∨ leaveOk k)
    (h : leaveCall k e = some k') : P k' := by
  unfold Process.leaveCall at h
  refine r.after ?_ ?_ h
  · rcases hok with h0 | hok
    · rw [deliverOnReturn_none h0]
      exact hp
    · exact r.leave e.access hp hl hok
  · intro _ hnext
    obtain rfl := Option.some.inj hnext
    refine r.quiet (backToUser_quiet _) ?_
    rcases hok with h0 | hok
    · rw [deliverOnReturn_none h0]
      exact hp
    · exact r.leave e.access hp hl hok

theorem Rules.doFork (r : Rules flush P checkOk leaveOk exitOk killOk) {k : Kernel V} (hp : P k)
    (hl : Live k.current) (memory : Bool) : P (doFork k memory) := by
  obtain ⟨-, -, k₁, hq, -, heq | ⟨i, hlive, heq⟩⟩ := doFork_cases hl memory
  · rw [heq]
    exact r.quiet hq hp
  · rw [heq]
    exact r.inherit k.current.tid (r.quiet hq hp) hlive

theorem findZombie_child {k : Kernel V} {parent : Nat} {child : Option Nat} {i : Fin 32}
    (h : findZombie k parent child = .child i) :
    matchesChild parent child (k.threads i) = true ∧ (k.threads i).state = .zombie := by
  unfold findZombie at h
  split at h
  · rename_i j hj
    cases h
    have hfound := List.find?_some hj
    simpa using hfound
  · split at h <;> cases h

theorem findStopped_some {k : Kernel V} {parent : Nat} {child : Option Nat} {i : Fin 32}
    (h : findStopped k parent child = some i) : (k.threads i).state = .stopped := by
  unfold findStopped at h
  have hfound := List.find?_some h
  simp only [Bool.and_eq_true, decide_eq_true_eq] at hfound
  exact hfound.1.2

theorem Rules.waitAttempt (r : Rules flush P checkOk leaveOk exitOk killOk) {k k' : Kernel V}
    {child : Option Nat} {untraced : Bool} (hp : P k)
    (h : waitAttempt k child untraced = some k') : P k' := by
  unfold Process.waitAttempt at h
  split at h
  · rename_i i hz
    obtain rfl := Option.some.inj h
    exact r.collect hp (findZombie_child hz).2
  · obtain rfl := Option.some.inj h
    exact hp
  · split at h
    · rename_i i hs
      obtain rfl := Option.some.inj h
      refine r.report hp ?_
      split at hs
      · exact findStopped_some hs
      · cases hs
    · cases h

theorem Rules.waitTurn (r : Rules flush P checkOk leaveOk exitOk killOk) {k k' : Kernel V}
    {child : Option Nat} {untraced nohang : Bool} {attempts : Nat} {pick : Option (Fin 32)}
    (hp : P k) (h : waitTurn k child untraced nohang attempts pick = some k') : P k' := by
  unfold Process.waitTurn at h
  split at h
  · obtain rfl := Option.some.inj h
    exact r.quiet (backToUser_quiet k) hp
  · split at h
    · rename_i k₁ hatt
      obtain rfl := Option.some.inj h
      exact r.quiet (backToUser_quiet k₁) (r.waitAttempt hp hatt)
    · split at h
      · obtain rfl := Option.some.inj h
        exact r.quiet (backToUser_quiet k) hp
      · exact r.quiet (sleepAt_quiet h) hp

theorem Rules.callBody (r : Rules flush P checkOk leaveOk exitOk killOk) {k k' : Kernel V} {c : Call}
    {e : Env} (hp : P k) (hl : Live k.current) (hexit : ExitOk exitOk k c)
    (hleave : c.Leaves → k.current.sigPending = 0 ∨ leaveOk k)
    (h : callBody flush k c e = some k') : P k' := by
  cases c with
  | signal sig handler =>
      simp only [Process.callBody] at h
      split at h
      · obtain rfl := Option.some.inj h
        exact r.quiet (backToUser_quiet k) hp
      · obtain rfl := Option.some.inj h
        have hset : Quiet k (k.setCurrent { k.current with
            sigHandlers := Function.update k.current.sigHandlers sig.toNat handler }) :=
          Quiet.setCurrent (QuietTask.of_state rfl rfl rfl rfl rfl id)
        exact r.quiet (hset.trans (backToUser_quiet _)) hp
  | kill tid sig =>
      simp only [Process.callBody] at h
      split at h
      · obtain rfl := Option.some.inj h
        exact r.quiet (backToUser_quiet k) hp
      · obtain rfl := Option.some.inj h
        have hsig : sig.toNat < 32 := by omega
        exact r.quiet ((killByTid_quiet k tid hsig).trans (backToUser_quiet _)) hp
  | exit rdi =>
      simp only [Process.callBody] at h
      exact r.quiet (threadYield_quiet h) (r.exit hp hl hexit)
  | fork =>
      simp only [Process.callBody] at h
      have hcur := (doFork_cases hl e.memory).1
      have hp' := r.doFork hp hl e.memory
      have hfork : leaveOk k → leaveOk (Process.doFork k e.memory) := r.leaveFork e.memory hl
      generalize Process.doFork k e.memory = k₁ at h hcur hp' hfork
      refine r.leaveCall hp' (hcur ▸ hl) ?_ h
      rcases hleave trivial with h0 | hok
      · exact Or.inl (hcur ▸ h0)
      · exact Or.inr (hfork hok)
  | wait child untraced nohang attempts => exact r.waitTurn hp h
  | fds op =>
      obtain rfl := Option.some.inj h
      exact r.quiet (backToUser_quiet _) (r.fds op hp hl)
  | sleep => exact r.quiet (sleepAt_quiet h) hp
  | yield => exact r.quiet (away_quiet h) hp
  | block =>
      simp only [Process.callBody] at h
      split at h
      · obtain rfl := Option.some.inj h
        exact r.quiet (backToUser_quiet k) hp
      · exact r.quiet (sleepAt_quiet h) hp
  | leaves => exact r.leaveCall hp hl (hleave trivial) h
  | other =>
      obtain rfl := Option.some.inj h
      exact r.quiet (backToUser_quiet k) hp

/-- A call after the look at the signals. -/
theorem Rules.checked (r : Rules flush P checkOk leaveOk exitOk killOk) {k k' : Kernel V} {c : Call}
    {e : Env} (hp : P k) (hl : Live k.current) (hcheck : checkOk k)
    (hexit : k.current.sigPending = 0 → ExitOk exitOk k c)
    (h : Process.after (checkSignal k e.access) (.body c) e.pick
      (fun k => Process.callBody flush k c e) = some k') : P k' := by
  refine r.after (r.check e.access hp hl hcheck) ?_ h
  intro hgo hbody
  obtain ⟨hk, h0⟩ := checkSignal_go hgo
  rw [hk] at hbody
  exact r.callBody hp hl (hexit h0) (fun _ => Or.inl h0) hbody

theorem Rules.resume (r : Rules flush P checkOk leaveOk exitOk killOk) {k k' : Kernel V} {e : Env}
    (hp : P k) (hl : Live k.current) (hok : StepOk checkOk leaveOk exitOk killOk k (.resume e))
    (h : resume flush k e = some k') : P k' := by
  unfold Process.resume at h
  unfold StepOk at hok
  cases hplace : k.current.place with
  | user =>
      rw [hplace] at h
      cases h
  | body c =>
      rw [hplace] at h hok
      exact r.callBody hp hl hok.1 (fun hc => Or.inr (hok.2 hc)) h
  | check c =>
      rw [hplace] at h hok
      exact r.checked hp hl hok.1 hok.2 h
  | leave =>
      rw [hplace] at h
      obtain rfl := Option.some.inj h
      exact r.quiet (backToUser_quiet k) hp

theorem Rules.threadKill (r : Rules flush P checkOk leaveOk exitOk killOk) {k k' : Kernel V}
    {i : Fin 32} {pick : Option (Fin 32)} (hp : P k)
    (hok : StepOk checkOk leaveOk exitOk killOk k (.kill i pick))
    (h : threadKill k i pick = some k') : P k' := by
  simp only [Process.threadKill] at h
  split at h
  · obtain rfl := Option.some.inj h
    exact hp
  · rename_i h0
    split at h
    · obtain rfl := Option.some.inj h
      exact hp
    · rename_i hunused
      split at h
      · obtain rfl := Option.some.inj h
        exact hp
      · rename_i hdead
        have hkill := r.kill hp (hok h0 hunused hdead)
        split at h
        · exact r.quiet (threadYield_quiet h) hkill
        · obtain rfl := Option.some.inj h
          exact hkill

theorem Rules.act (r : Rules flush P checkOk leaveOk exitOk killOk) {k k' : Kernel V} {a : Act}
    (hp : P k) (hok : StepOk checkOk leaveOk exitOk killOk k a) (h : act flush k a = some k') : P k' := by
  cases a with
  | syscall c e =>
      simp only [Process.act, Option.ite_none_right_eq_some] at h
      exact r.checked hp h.1.1 hok.1 hok.2 h.2
  | resume e =>
      simp only [Process.act, Option.ite_none_right_eq_some] at h
      exact r.resume hp h.1 hok h.2
  | yield pick =>
      simp only [Process.act, Option.ite_none_right_eq_some] at h
      exact r.quiet (threadYield_quiet h.2) hp
  | timer i =>
      obtain rfl := Option.some.inj h
      exact r.quiet (Quiet.setTask (wake_quiet _) wake_kin) hp
  | ctrlC =>
      obtain rfl := Option.some.inj h
      exact r.quiet (signalChildren_quiet k) hp
  | ctrlZ =>
      obtain rfl := Option.some.inj h
      exact r.quiet (sigtstpChildren_quiet k) hp
  | create memory =>
      simp only [Process.act, Option.ite_none_right_eq_some, Option.some.injEq] at h
      exact h.2 ▸ r.quiet (threadCreate_quiet k memory) hp
  | kill i pick => exact r.threadKill hp hok h
  | reap =>
      obtain rfl := Option.some.inj h
      exact r.quiet (threadReapDead_quiet k) hp

/-- A property with these rules is kept by every step that meets the conditions. -/
theorem Rules.step (r : Rules flush P checkOk leaveOk exitOk killOk) {k : Kernel V} {a : Act} (hp : P k)
    (hok : StepOk checkOk leaveOk exitOk killOk k a) : P (step flush k a) := by
  unfold Process.step
  cases h : Process.act flush k a with
  | none => exact hp
  | some k' => exact r.act hp hok h

theorem Rules.run (r : Rules flush P checkOk leaveOk exitOk killOk) {k : Kernel V} {as pre : List Act}
    (hp : P k) (hrun : AllSteps (Process.step flush) (StepOk checkOk leaveOk exitOk killOk) k as)
    (hpre : pre <+: as) : P (run (Process.step flush) k pre) := by
  obtain ⟨post, rfl⟩ := hpre
  have hsteps := ((allSteps_append _ _ k pre post).1 hrun).1
  exact inv_run P (fun _ _ hk hok => r.step hk hok) hp hsteps

end Rules

end FiFi.Process
