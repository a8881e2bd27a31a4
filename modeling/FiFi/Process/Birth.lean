import FiFi.Process.Slots

/-!
# What a new thread finds in its slot

`thread_create` leaves three fields of the slot as they are: the wake time, the
page map and the pending signal. The first two were cleared when the former owner
was reaped, the pending signal never is. So a thread is born as in a slot that was
never used if and only if nobody had posted a signal to the former owner that it
did not take; a signal can reach it until it is reaped.

A slot that was never used is put in place of the slot that is taken. Both kernels
are then the same for ever, or differ at once.
-/

namespace FiFi.Process.Slots

open StateMachine Thread

variable {σ : Table} {i j : Fin 32}

/-! ### Slots -/

@[simp]
theorem set_threads_self (σ : Table) (i : Fin 32) (t : Slot) : (σ.set i t).threads i = t :=
  Function.update_self _ _ _

theorem set_threads_ne (σ : Table) (t : Slot) (h : j ≠ i) :
    (σ.set i t).threads j = σ.threads j :=
  Function.update_of_ne h _ _

theorem set_set (σ : Table) (i : Fin 32) (t t' : Slot) : (σ.set i t).set i t' = σ.set i t' := by
  simp [Table.set]

/-- What a free slot has to have for `thread_create`. -/
structure Blank (t : Slot) : Prop where
  wakeTick : t.wakeTick = 0
  cr3 : t.cr3 = 0

/-- The current slot is in use, and those that are not are blank. -/
structure Sane (σ : Table) : Prop where
  current : σ.current.state ≠ .unused
  blank : ∀ i, (σ.threads i).state = .unused → Blank (σ.threads i)

theorem neverUsed_blank : Blank neverUsed := ⟨rfl, rfl⟩

theorem reaped_blank (t : Slot) : Blank (reaped t) := ⟨rfl, rfl⟩

theorem sane_threadInit (now rsp : Nat) : Sane (threadInit now rsp) := by
  refine ⟨by simp [Table.current, threadInit], fun i hi => ?_⟩
  simp only [threadInit] at hi ⊢
  split
  · rename_i h0
    simp [h0] at hi
  · exact neverUsed_blank

/-- A slot that stays in use, or was not in use and stays blank. -/
def KeepsBlank (t t' : Slot) : Prop :=
  (t'.state = .unused → t.state = .unused) ∧ t'.wakeTick = t.wakeTick ∧ t'.cr3 = t.cr3

theorem Sane.map (h : Sane σ) {f : Slot → Slot} (hf : ∀ t, KeepsBlank t (f t)) : Sane (σ.map f) := by
  refine ⟨fun hc => h.current ((hf _).1 hc), fun i hi => ?_⟩
  obtain ⟨hu, hw, hc⟩ := hf (σ.threads i)
  have hb := h.blank i (hu hi)
  exact ⟨hw.trans hb.wakeTick, hc.trans hb.cr3⟩

/-- The clock and what was reported do not matter. -/
theorem Sane.same (h : Sane σ) {σ' : Table} (ht : σ'.threads = σ.threads) (hc : σ'.cur = σ.cur) :
    Sane σ' := by
  refine ⟨?_, ?_⟩
  · rw [Table.current, ht, hc]
    exact h.current
  · rw [ht]
    exact h.blank

theorem Sane.set (h : Sane σ) {t : Slot} (hcur : i = σ.cur → t.state ≠ .unused)
    (ht : t.state = .unused → Blank t) : Sane (σ.set i t) := by
  constructor
  · by_cases hi : σ.cur = i
    · subst hi
      change ((σ.set σ.cur t).threads σ.cur).state ≠ .unused
      rw [set_threads_self]
      exact hcur rfl
    · change ((σ.set i t).threads σ.cur).state ≠ .unused
      rw [set_threads_ne _ _ hi]
      exact h.current
  · intro j
    by_cases hj : j = i
    · subst hj
      rw [set_threads_self]
      exact ht
    · rw [set_threads_ne _ _ hj]
      exact h.blank j

theorem Sane.set_used (h : Sane σ) {t : Slot} (ht : t.state ≠ .unused) : Sane (σ.set i t) :=
  h.set (fun _ => ht) fun hu => absurd hu ht

theorem Sane.set_keeps (h : Sane σ) {t : Slot} (ht : KeepsBlank (σ.threads i) t) :
    Sane (σ.set i t) := by
  refine h.set ?_ fun hu => ?_
  · rintro rfl hu
    exact h.current (ht.1 hu)
  · have hb := h.blank i (ht.1 hu)
    exact ⟨ht.2.1.trans hb.wakeTick, ht.2.2.trans hb.cr3⟩

/-! ### Every act keeps the table sane -/

theorem Sane.threadReapDead (h : Sane σ) : Sane (threadReapDead σ) := by
  constructor
  · have hcur : (Slots.threadReapDead σ).current = σ.current := by
      simp [Slots.threadReapDead, Table.current]
    rw [hcur]
    exact h.current
  · intro i hi
    simp only [Slots.threadReapDead] at hi ⊢
    split
    · exact reaped_blank _
    · rename_i hne
      rw [if_neg hne] at hi
      exact h.blank i hi

theorem charge_state (t : Slot) (now : Nat) : (charge t now).state = t.state := by
  unfold charge
  split <;> rfl

theorem charge_keeps (t : Slot) (now : Nat) : KeepsBlank t (charge t now) := by
  unfold charge
  split <;> exact ⟨id, rfl, rfl⟩

theorem Sane.goTo (h : Sane σ) (hi : (σ.threads i).state ≠ .unused) :
    Sane { σ with cur := i } := ⟨hi, h.blank⟩

theorem Sane.switchTo (h : Sane σ) (i : Fin 32) : Sane (switchTo σ i) := by
  unfold Slots.switchTo
  generalize h1 : (if σ.current.state = .running then
    σ.setCurrent { σ.current with state := .ready } else σ) = σ1
  have hs1 : Sane σ1 := by
    rw [← h1]
    split
    · exact h.set_used (by simp)
    · exact h
  generalize h2 : σ1.set i { σ1.threads i with state := .running } = σ2
  have hs2 : Sane σ2 := h2 ▸ hs1.set_used (by simp)
  have hrun2 : (σ2.threads i).state = .running := by rw [← h2, set_threads_self]
  generalize h3 : σ2.setCurrent (charge σ2.current σ2.now) = σ3
  have hs3 : Sane σ3 := h3 ▸ hs2.set_keeps (charge_keeps _ _)
  have hrun3 : (σ3.threads i).state = .running := by
    rw [← h3, Table.setCurrent]
    by_cases hi : i = σ2.cur
    · subst hi
      rw [set_threads_self, charge_state]
      exact hrun2
    · rw [set_threads_ne _ _ hi, hrun2]
  have hk : KeepsBlank (σ3.threads i)
      { σ3.threads i with lastStartTick := σ3.now, waitTicks := 0 } := ⟨id, rfl, rfl⟩
  have hs4 := (hs3.set_keeps hk).goTo (i := i) (by rw [set_threads_self]; simp [hrun3])
  simp only [h1, h2, h3]
  exact hs4

theorem Sane.threadYield (h : Sane σ) (pick : Option (Fin 32)) : Sane (threadYield σ pick) := by
  have hr := h.threadReapDead
  unfold Slots.threadYield
  cases pick with
  | none => exact hr
  | some i =>
      simp only
      split
      · exact hr.switchTo i
      · exact hr

theorem wake_keeps (t : Slot) : KeepsBlank t (wake t) := by
  unfold wake
  split <;> simp_all [KeepsBlank]

theorem age_keeps (t : Slot) : KeepsBlank t (age t) := by
  unfold age
  split <;> exact ⟨id, rfl, rfl⟩

theorem wakeReady_keeps (now : Nat) (t : Slot) : KeepsBlank t (wakeReady now t) := by
  unfold wakeReady
  split <;> simp_all [KeepsBlank]

theorem signalChild_keeps (t : Slot) : KeepsBlank t (signalChild t) := by
  unfold signalChild
  split
  · exact wake_keeps { t with sigPending := sigInt }
  · exact ⟨id, rfl, rfl⟩

theorem sigtstpChild_keeps (t : Slot) : KeepsBlank t (sigtstpChild t) := by
  unfold sigtstpChild
  split
  · split
    · exact wake_keeps { t with sigPending := sigTstp }
    · exact wake_keeps t
  · exact ⟨id, rfl, rfl⟩

theorem ownStep_used {t : Slot} (h : t.state ≠ .unused) (u : Own) :
    (ownStep t u).state ≠ .unused := by
  cases u with
  | mapAdd va size =>
      simp only [ownStep]
      split_ifs
      · exact h
      · split <;> exact h
  | stop => simp [ownStep]
  | _ => exact h

theorem Sane.threadExit (h : Sane σ) : Sane (threadExit σ) := by
  unfold Slots.threadExit
  refine h.set_used ?_
  simp only
  split <;> split <;> simp

theorem Sane.threadKill (h : Sane σ) (i : Fin 32) : Sane (threadKill σ i) := by
  unfold Slots.threadKill
  simp only
  split_ifs
  all_goals first | exact h | exact h.set_used (by simp)

theorem Sane.threadKillSlot (h : Sane σ) (i : Fin 32) : Sane (threadKillSlot σ i) := by
  unfold Slots.threadKillSlot
  simp only
  split_ifs
  all_goals first | exact h | exact (h.set_used (by simp [userCleanup])).threadReapDead

theorem Sane.killByTid (h : Sane σ) (tid sig : Nat) : Sane (killByTid σ tid sig) := by
  unfold Slots.killByTid
  split
  · exact h
  · rename_i i _
    refine h.set_keeps ?_
    have hw := wake_keeps { σ.threads i with sigPending := sig }
    simp only
    split
    · exact ⟨by simp, hw.2⟩
    · exact hw

theorem Sane.contByTid (h : Sane σ) (tid : Nat) : Sane (contByTid σ tid) := by
  unfold Slots.contByTid
  split
  · exact h
  · rename_i i _
    refine h.set_keeps ?_
    split_ifs <;> simp_all [KeepsBlank]

/-- The table with a new thread in slot `i`. -/
def born (ρ : Table) (i : Fin 32) (b : Birth) : Table :=
  { ρ.set i (created (ρ.threads i) b ρ.nextTid) with nextTid := ρ.nextTid + 1 }

theorem threadCreate_eq (σ : Table) (b : Birth) : threadCreate σ b =
    match findFreeSlot (threadReapDead σ) with
    | none => (none, threadReapDead σ)
    | some i =>
        if b.entry = 0 ∨ b.stack = 0 then (none, threadReapDead σ)
        else (some i, born (threadReapDead σ) i b) := by
  unfold threadCreate
  generalize threadReapDead σ = ρ
  cases h : findFreeSlot ρ with
  | none => simp [h]
  | some i =>
      by_cases he : b.entry = 0
      · simp [he]
      · by_cases hs : b.stack = 0
        · simp [h, he, hs]
        · simp [h, he, hs, born]

theorem Sane.born (h : Sane σ) (i : Fin 32) (b : Birth) : Sane (born σ i b) := by
  have hused : (created (σ.threads i) b σ.nextTid).state ≠ .unused := by simp [created]
  exact (h.set_used hused).same rfl rfl

theorem Sane.threadCreate (h : Sane σ) (b : Birth) : Sane (threadCreate σ b).2 := by
  have hr := h.threadReapDead
  rw [threadCreate_eq]
  split
  · exact hr
  · rename_i i _
    split
    · exact hr
    · exact hr.born i b

theorem Sane.doFork (h : Sane σ) (b : Birth) : Sane (doFork σ b) := by
  have hc := h.threadCreate b
  unfold Slots.doFork
  split_ifs
  · exact h
  · generalize Slots.threadCreate σ b = r at hc
    obtain ⟨o, ρ⟩ := r
    cases o with
    | none => exact hc
    | some i => exact hc.set_keeps ⟨id, rfl, rfl⟩

theorem Sane.codeStep (h : Sane σ) (a : Act) : Sane (codeStep σ a) := by
  cases a with
  | create b => exact h.threadCreate b
  | fork b => exact h.doFork b
  | exit => exact h.threadExit
  | kill i => exact h.threadKill i
  | killSlot i => exact h.threadKillSlot i
  | sleep ms => exact h.set_used (by simp)
  | killByTid tid sig => exact h.killByTid tid sig
  | contByTid tid => exact h.contByTid tid
  | reapZombieChild child =>
      simp only [Slots.codeStep, reapZombieChild]
      split
      · exact h
      · rename_i i _
        have hused := h.set_used (i := i) (t := { σ.threads i with state := .dead }) (by simp)
        exact hused.same rfl rfl
  | checkStoppedChild child =>
      simp only [Slots.codeStep, checkStoppedChild]
      split
      · exact h
      · rename_i i _
        have hk : KeepsBlank (σ.threads i) { σ.threads i with stopReported := true } :=
          ⟨id, rfl, rfl⟩
        exact (h.set_keeps hk).same rfl rfl
  | own u => exact h.set_used (ownStep_used h.current u)
  | setPgid tid pgid =>
      simp only [Slots.codeStep, setPgid]
      split
      · exact h
      · exact h.set_keeps ⟨id, rfl, rfl⟩
  | setPrio i prio =>
      simp only [Slots.codeStep, setPrio]
      split_ifs
      · exact h
      · exact h
      · exact h.set_keeps ⟨id, rfl, rfl⟩
  | markUser i on => exact h.set_keeps ⟨id, rfl, rfl⟩
  | _ => exact h

theorem Sane.slotStep (h : Sane σ) (a : Act) : Sane (slotStep σ a) := by
  have hcode : Sane (if σ.current.state = .running then Slots.codeStep σ a else σ) := by
    split
    · exact h.codeStep a
    · exact h
  cases a with
  | tick => exact (h.map age_keeps).same rfl rfl
  | wakeReady => exact h.map (wakeReady_keeps σ.now)
  | signalChildren => exact h.map signalChild_keeps
  | sigtstpChildren => exact h.map sigtstpChild_keeps
  | yield pick => exact h.threadYield pick
  | _ => exact hcode

/-! ### The slot of a new thread -/

/-- The slot that an act gives to a new thread. -/
def takenSlot (σ : Table) : Act → Option (Fin 32)
  | .create b => if σ.current.state = .running then (threadCreate σ b).1 else none
  | .fork b =>
      if σ.current.state = .running ∧ ¬(σ.current.cr3 = 0 ∨ b.arg = 0) then (threadCreate σ b).1
      else none
  | _ => none

/-- `thread_create` keeps three fields. -/
theorem created_eq_iff {t : Slot} {b : Birth} {n : Nat} :
    created t b n = created neverUsed b n ↔ t.wakeTick = 0 ∧ t.cr3 = 0 ∧ t.sigPending = 0 := by
  simp [created, neverUsed]

theorem inherited_eq_iff {t parent : Slot} {b : Birth} {n : Nat} :
    inherited (created t b n) parent = inherited (created neverUsed b n) parent ↔
      t.wakeTick = 0 ∧ t.cr3 = 0 ∧ t.sigPending = 0 := by
  simp [inherited, created, neverUsed]

theorem threadReapDead_current (σ : Table) : (threadReapDead σ).current = σ.current := by
  simp [threadReapDead, Table.current]

theorem threadReapDead_sigPending (σ : Table) (i : Fin 32) :
    ((threadReapDead σ).threads i).sigPending = (σ.threads i).sigPending := by
  simp only [threadReapDead]
  split <;> rfl

/-- The slot that is found was not in use, and is not that of the running thread. -/
theorem findFreeSlot_unused (hrun : σ.current.state = .running)
    (h : findFreeSlot (threadReapDead σ) = some i) :
    ((threadReapDead σ).threads i).state = .unused ∧ i ≠ σ.cur := by
  have h0 : i ≠ 0 := (show ∀ j ∈ slots, j ≠ 0 by decide) i (List.mem_of_find?_eq_some h)
  have hfree := List.find?_some h
  simp only [Bool.or_eq_true, decide_eq_true_eq] at hfree
  have hcur : i ≠ σ.cur := by
    rintro rfl
    have hsame := congrArg Slot.state (threadReapDead_current σ)
    rw [hrun] at hsame
    change ((threadReapDead σ).threads σ.cur).state = .running at hsame
    rcases hfree with hf | hf <;> rw [hsame] at hf <;> exact absurd hf (by decide)
  refine ⟨hfree.resolve_right fun hdead => ?_, hcur⟩
  simp only [threadReapDead] at hdead
  split at hdead
  · simp [reaped] at hdead
  · rename_i hno
    exact hno ⟨h0, hdead, hcur⟩

/-- With a slot that was never used in its place, the same slot is found. -/
theorem threadReapDead_set (hcur : i ≠ σ.cur) :
    threadReapDead (σ.set i neverUsed) = (threadReapDead σ).set i neverUsed := by
  have hslot : ∀ j, (threadReapDead (σ.set i neverUsed)).threads j =
      ((threadReapDead σ).set i neverUsed).threads j := by
    intro j
    by_cases hj : j = i
    · subst hj
      rw [set_threads_self]
      simp [threadReapDead, neverUsed, hcur]
    · rw [set_threads_ne _ _ hj]
      simp only [threadReapDead, set_threads_ne _ _ hj]
      rfl
  have hthreads := funext hslot
  unfold threadReapDead Table.set at *
  simp only at hthreads
  rw [hthreads]

theorem findFreeSlot_set (h : findFreeSlot σ = some i) :
    findFreeSlot (σ.set i neverUsed) = some i := by
  have hfree := List.find?_some h
  rw [← h]
  unfold findFreeSlot
  congr 1
  funext j
  by_cases hj : j = i
  · subst hj
    rw [set_threads_self, hfree]
    rfl
  · rw [set_threads_ne _ _ hj]

theorem born_set_eq_iff {ρ : Table} {b : Birth} :
    born ρ i b = born (ρ.set i neverUsed) i b ↔
      (ρ.threads i).wakeTick = 0 ∧ (ρ.threads i).cr3 = 0 ∧ (ρ.threads i).sigPending = 0 := by
  rw [← created_eq_iff (b := b) (n := ρ.nextTid)]
  constructor
  · intro h
    have hi := congrArg (fun τ : Table => τ.threads i) h
    simpa [born, Table.set] using hi
  · intro h
    have hnext : (ρ.set i neverUsed).nextTid = ρ.nextTid := rfl
    unfold born
    rw [set_set, set_threads_self, hnext, ← h]

/-- `thread_create` with the slot that it takes, and with one that was never used. -/
theorem threadCreate_set (hs : Sane σ) (hrun : σ.current.state = .running) {b : Birth}
    (hi : (threadCreate σ b).1 = some i) :
    i ≠ σ.cur ∧ threadCreate σ b = (some i, born (threadReapDead σ) i b) ∧
      threadCreate (σ.set i neverUsed) b =
        (some i, born ((threadReapDead σ).set i neverUsed) i b) ∧
      Blank ((threadReapDead σ).threads i) := by
  rw [threadCreate_eq] at hi
  cases hf : findFreeSlot (threadReapDead σ) with
  | none => simp [hf] at hi
  | some j =>
      by_cases hfail : b.entry = 0 ∨ b.stack = 0
      · simp [hf, hfail] at hi
      · have hji : j = i := by simpa [hf, hfail] using hi
        subst hji
        obtain ⟨hu, hcur⟩ := findFreeSlot_unused hrun hf
        refine ⟨hcur, ?_, ?_, hs.threadReapDead.blank j hu⟩
        · rw [threadCreate_eq, hf]
          simp only [if_neg hfail]
        · rw [threadCreate_eq, threadReapDead_set hcur, findFreeSlot_set hf]
          simp only [if_neg hfail]

theorem set_current (hcur : i ≠ σ.cur) (t : Slot) : (σ.set i t).current = σ.current :=
  set_threads_ne σ t hcur.symm

/-! ### A thread is born clean -/

/-- The new thread lives as if its slot had never been used: whatever happens
afterwards, the kernel is in the same state. -/
def BornClean (σ : Table) (a : Act) : Prop :=
  ∀ i, takenSlot σ a = some i → ∀ acts,
    run slotStep (slotStep σ a) acts = run slotStep (slotStep (σ.set i neverUsed) a) acts

/-- The former owner of the slot has left no signal. -/
def NoSignalLeft (σ : Table) (a : Act) : Prop :=
  ∀ i, takenSlot σ a = some i → (σ.threads i).sigPending = 0

instance (σ : Table) (a : Act) : Decidable (NoSignalLeft σ a) :=
  inferInstanceAs (Decidable (∀ i, takenSlot σ a = some i → (σ.threads i).sigPending = 0))

theorem create_same_iff (hs : Sane σ) (hrun : σ.current.state = .running) {b : Birth}
    (hi : (threadCreate σ b).1 = some i) :
    slotStep σ (.create b) = slotStep (σ.set i neverUsed) (.create b) ↔
      (σ.threads i).sigPending = 0 := by
  obtain ⟨hcur, h1, h2, hb⟩ := threadCreate_set hs hrun hi
  simp only [slotStep, codeStep, set_current hcur, hrun, if_true, h1, h2]
  rw [born_set_eq_iff, threadReapDead_sigPending]
  exact ⟨fun h => h.2.2, fun h => ⟨hb.wakeTick, hb.cr3, h⟩⟩

theorem fork_same_iff (hs : Sane σ) (hrun : σ.current.state = .running) {b : Birth}
    (hfork : ¬(σ.current.cr3 = 0 ∨ b.arg = 0)) (hi : (threadCreate σ b).1 = some i) :
    slotStep σ (.fork b) = slotStep (σ.set i neverUsed) (.fork b) ↔
      (σ.threads i).sigPending = 0 := by
  obtain ⟨hcur, h1, h2, hb⟩ := threadCreate_set hs hrun hi
  simp only [slotStep, codeStep, doFork, set_current hcur, hrun, if_true, if_neg hfork, h1, h2]
  have hparent : ∀ t, (born ((threadReapDead σ).set i t) i b).current = σ.current := by
    intro t
    have hne : (threadReapDead σ).cur ≠ i := hcur.symm
    change Function.update _ i _ (threadReapDead σ).cur = _
    rw [Function.update_of_ne hne]
    change Function.update _ i _ (threadReapDead σ).cur = _
    rw [Function.update_of_ne hne]
    exact threadReapDead_current σ
  constructor
  · intro h
    have hslot := congrArg (fun τ : Table => τ.threads i) h
    have hself : (threadReapDead σ).set i ((threadReapDead σ).threads i) = threadReapDead σ := by
      simp [Table.set]
    have hsame := hparent ((threadReapDead σ).threads i)
    rw [hself] at hsame
    simp only [set_threads_self, hparent, hsame] at hslot
    have hkept : inherited (created ((threadReapDead σ).threads i) b (threadReapDead σ).nextTid)
        σ.current = inherited (created neverUsed b (threadReapDead σ).nextTid) σ.current := by
      simpa [born, Table.set] using hslot
    rw [← threadReapDead_sigPending]
    exact (inherited_eq_iff.1 hkept).2.2
  · intro h
    have hborn := born_set_eq_iff (b := b).2
      ⟨hb.wakeTick, hb.cr3, (threadReapDead_sigPending σ i).trans h⟩
    rw [← hborn]

/-- One step: a thread is born clean exactly when no signal is left in its slot. -/
theorem bornClean_iff (hs : Sane σ) (a : Act) : BornClean σ a ↔ NoSignalLeft σ a := by
  have hiff : ∀ i, takenSlot σ a = some i →
      (slotStep σ a = slotStep (σ.set i neverUsed) a ↔ (σ.threads i).sigPending = 0) := by
    intro i hi
    cases a with
    | create b =>
        simp only [takenSlot] at hi
        split at hi
        · rename_i hrun
          exact create_same_iff hs hrun hi
        · simp at hi
    | fork b =>
        simp only [takenSlot] at hi
        split at hi
        · rename_i h
          exact fork_same_iff hs h.1 h.2 hi
        · simp at hi
    | _ => simp [takenSlot] at hi
  constructor
  · intro h i hi
    exact (hiff i hi).1 (h i hi [])
  · intro h i hi acts
    rw [(hiff i hi).2 (h i hi)]

/-- In every history the threads are born clean if and only if each slot that is
taken again holds no signal for its former owner. -/
theorem bornClean_run_iff (now rsp : Nat) (acts : List Act) :
    AllSteps slotStep BornClean (threadInit now rsp) acts ↔
      AllSteps slotStep NoSignalLeft (threadInit now rsp) acts := by
  have hstep : ∀ σ a, Sane σ → BornClean σ a → Sane (slotStep σ a) := fun σ a hs _ => hs.slotStep a
  exact allSteps_congr hstep (fun σ a hs => bornClean_iff hs a) (sane_threadInit now rsp) acts

/-- A thread is killed with a signal pending, and its slot is taken again. -/
def signalThenCreate : List Act :=
  [.create ⟨"a", 1, 0, 4096⟩, .killByTid 2 15, .kill 1, .create ⟨"b", 1, 0, 8192⟩]

theorem not_bornClean_signal :
    ¬∀ now rsp acts, AllSteps slotStep BornClean (threadInit now rsp) acts := by
  intro h
  have hclean := (h 0 0 signalThenCreate).2.2.2.1
  have hsane : Sane (run slotStep (threadInit 0 0) (signalThenCreate.take 3)) :=
    inv_run Sane (fun σ a hs _ => hs.slotStep a) (sane_threadInit 0 0)
      (allSteps_true slotStep (threadInit 0 0) _)
  have hleft := (bornClean_iff hsane _).1 hclean
  exact absurd hleft (by decide)

end FiFi.Process.Slots
