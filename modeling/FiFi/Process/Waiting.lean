import FiFi.Process.Birth

/-!
# What a waiting parent is told

A child that exits while its parent lives becomes a zombie, with the exit code it has
set, and `thread_reap_zombie_child` hands it out and marks it dead. So no child is
handed out twice, and the code is its own. When there is no zombie the call has to say
whether a child is still to come, and there it takes every slot that is not unused for
one: a child that is dead and not yet reaped is reported as running, unless another
child answers the question.

What the threads have set when they became zombies, and what was handed out, is noted
beside the table.
-/

namespace FiFi.Process.Slots

open StateMachine Thread

/-! ### `thread_reap_zombie_child` -/

/-- The child that `thread_reap_zombie_child` hands out to the current thread. -/
def zombieChild (σ : Table) (child : Option Nat) : Option (Fin 32) :=
  (List.finRange 32).find? fun i =>
    matchesChild σ.current.tid child (σ.threads i) && (σ.threads i).state = .zombie

/-- Its result: the number of the child, -1 or -2. -/
def reapResult (σ : Table) (child : Option Nat) : Int :=
  match zombieChild σ child with
  | some i => (σ.threads i).tid
  | none =>
      if (List.finRange 32).any fun i =>
          matchesChild σ.current.tid child (σ.threads i) && (σ.threads i).state ≠ .unused then -1
      else -2

/-- -1 is returned only if a child that matches has not exited, and -2 exactly if none
lives or is to be collected. -/
def AnswerRight (σ : Table) (child : Option Nat) : Prop :=
  (reapResult σ child = -1 →
      ∃ i, matchesChild σ.current.tid child (σ.threads i) = true ∧ Live (σ.threads i)) ∧
    (reapResult σ child = -2 ↔
      ∀ i, matchesChild σ.current.tid child (σ.threads i) = true →
        ¬ Live (σ.threads i) ∧ (σ.threads i).state ≠ .zombie)

/-- If a child that matches is dead and not yet reaped, another one lives or is a zombie. -/
def NotOnlyDead (σ : Table) (child : Option Nat) : Prop :=
  (∃ i, matchesChild σ.current.tid child (σ.threads i) = true ∧ (σ.threads i).state = .dead) →
    ∃ i, matchesChild σ.current.tid child (σ.threads i) = true ∧
      (Live (σ.threads i) ∨ (σ.threads i).state = .zombie)

variable {σ : Table} {i j : Fin 32} {child : Option Nat}

theorem zombieChild_some (h : zombieChild σ child = some i) :
    matchesChild σ.current.tid child (σ.threads i) = true ∧ (σ.threads i).state = .zombie := by
  have hfound := List.find?_some h
  simpa using hfound

theorem zombieChild_none (h : zombieChild σ child = none) (i : Fin 32)
    (hi : matchesChild σ.current.tid child (σ.threads i) = true) :
    (σ.threads i).state ≠ .zombie := by
  have hnot := List.find?_eq_none.1 h i (List.mem_finRange i)
  simpa [hi] using hnot

theorem answerRight_iff (σ : Table) (child : Option Nat) :
    AnswerRight σ child ↔ NotOnlyDead σ child := by
  unfold AnswerRight NotOnlyDead reapResult
  cases hz : zombieChild σ child with
  | some i =>
      obtain ⟨hmatch, hzombie⟩ := zombieChild_some hz
      refine iff_of_true ⟨fun h => ?_, fun h => ?_, fun h => ?_⟩ fun _ => ⟨i, hmatch, Or.inr hzombie⟩
      · dsimp only at h
        omega
      · dsimp only at h
        omega
      · exact absurd hzombie (h i hmatch).2
  | none =>
      have hnz := zombieChild_none hz
      dsimp only
      by_cases hany : ∃ i, matchesChild σ.current.tid child (σ.threads i) = true ∧
          (σ.threads i).state ≠ .unused
      · have hbool : ((List.finRange 32).any fun i =>
            matchesChild σ.current.tid child (σ.threads i) && (σ.threads i).state ≠ .unused) =
              true := by
          simpa using hany
        rw [hbool, if_pos rfl]
        constructor
        · rintro ⟨hlive, -⟩ -
          obtain ⟨i, hi, hl⟩ := hlive rfl
          exact ⟨i, hi, Or.inl hl⟩
        · intro h
          have hlive : ∃ i, matchesChild σ.current.tid child (σ.threads i) = true ∧
              Live (σ.threads i) := by
            obtain ⟨i, hi, hused⟩ := hany
            by_cases hdead : (σ.threads i).state = .dead
            · obtain ⟨j, hj, hl | hzj⟩ := h ⟨i, hi, hdead⟩
              · exact ⟨j, hj, hl⟩
              · exact absurd hzj (hnz j hj)
            · exact ⟨i, hi, hused, hdead, hnz i hi⟩
          obtain ⟨i, hi, hl⟩ := hlive
          exact ⟨fun _ => ⟨i, hi, hl⟩, iff_of_false (by decide) fun hall => (hall i hi).1 hl⟩
      · have hbool : ((List.finRange 32).any fun i =>
            matchesChild σ.current.tid child (σ.threads i) && (σ.threads i).state ≠ .unused) =
              false := by
          simpa using hany
        have hunused : ∀ i, matchesChild σ.current.tid child (σ.threads i) = true →
            (σ.threads i).state = .unused := fun i hi => by
          by_contra hused
          exact hany ⟨i, hi, hused⟩
        rw [hbool, if_neg (by decide)]
        refine iff_of_true ⟨fun h => absurd h (by decide), fun _ i hi => ?_, fun _ => rfl⟩ ?_
        · exact ⟨fun hl => hl.1 (hunused i hi), hnz i hi⟩
        · rintro ⟨i, hi, hdead⟩
          rw [hunused i hi] at hdead
          cases hdead

/-! ### What is noted -/

/-- The table, what every thread had set when it became a zombie, and what was handed
out. -/
structure Watch where
  table : Table
  exits : List Report
  collected : List Report

/-- A thread exits and becomes a zombie. -/
def exited (σ : Table) : Act → List Report
  | .exit =>
      if σ.current.state = .running ∧ (threadExit σ).current.state = .zombie then
        [⟨σ.current.parentTid, σ.current.tid, σ.current.exitCode⟩]
      else []
  | _ => []

/-- A zombie is handed out, with the number of the caller and the exit code. -/
def collects (σ : Table) : Act → List Report
  | .reapZombieChild child =>
      if σ.current.state = .running then
        match zombieChild σ child with
        | some i => [⟨σ.current.tid, (σ.threads i).tid, (σ.threads i).exitCode⟩]
        | none => []
      else []
  | _ => []

def watchStep (w : Watch) (a : Act) : Watch :=
  ⟨slotStep w.table a, w.exits ++ exited w.table a, w.collected ++ collects w.table a⟩

/-- What is noted after `thread_init`. -/
def watchInit (now rsp : Nat) : Watch := ⟨threadInit now rsp, [], []⟩

/-- What the call that a step makes returns is right. -/
def Answered (w : Watch) : Act → Prop
  | .reapZombieChild child => w.table.current.state = .running → AnswerRight w.table child
  | _ => True

/-- The condition on a step. -/
def AsksInTime (w : Watch) : Act → Prop
  | .reapZombieChild child => w.table.current.state = .running → NotOnlyDead w.table child
  | _ => True

/-! ### Slots that go on -/

/-- A slot that is live or a zombie has been so before, under the same number. -/
structure GoesOn (t t' : Slot) : Prop where
  live : Live t' → Live t ∧ t'.tid = t.tid
  zombie : t'.state = .zombie → t.state = .zombie ∧ t'.tid = t.tid ∧ t'.parentTid = t.parentTid ∧
    t'.exitCode = t.exitCode
  tid : t'.tid = t.tid ∨ t'.tid = 0

theorem GoesOn.refl (t : Slot) : GoesOn t t :=
  ⟨fun h => ⟨h, rfl⟩, fun h => ⟨h, rfl, rfl, rfl⟩, Or.inl rfl⟩

/-- The state stays. -/
theorem GoesOn.of_state {t t' : Slot} (hs : t'.state = t.state) (htid : t'.tid = t.tid)
    (hpar : t'.parentTid = t.parentTid) (hcode : t.state = .zombie → t'.exitCode = t.exitCode) :
    GoesOn t t' := by
  refine ⟨fun h => ⟨?_, htid⟩, fun h => ⟨hs ▸ h, htid, hpar, hcode (hs ▸ h)⟩, Or.inl htid⟩
  unfold Live at h ⊢
  rwa [hs] at h

/-- A thread that lives goes on in another state, or ends. -/
theorem GoesOn.of_live {t t' : Slot} (hl : Live t) (hz : t'.state ≠ .zombie)
    (htid : t'.tid = t.tid) : GoesOn t t' :=
  ⟨fun _ => ⟨hl, htid⟩, fun h => absurd h hz, Or.inl htid⟩

/-- A thread that has ended, not as a zombie. -/
theorem GoesOn.of_ended {t t' : Slot} (hd : t'.state = .dead ∨ t'.state = .unused)
    (htid : t'.tid = t.tid ∨ t'.tid = 0) : GoesOn t t' := by
  refine ⟨fun h => ?_, fun h => ?_, htid⟩
  · rcases hd with hd | hd
    · exact absurd hd h.2.1
    · exact absurd hd h.1
  · rcases hd with hd | hd <;> rw [hd] at h <;> cases h

theorem GoesOn.trans {t t' t'' : Slot} (h : GoesOn t t') (h' : GoesOn t' t'') : GoesOn t t'' := by
  refine ⟨fun hl => ?_, fun hz => ?_, ?_⟩
  · obtain ⟨hl', htid'⟩ := h'.live hl
    obtain ⟨hl, htid⟩ := h.live hl'
    exact ⟨hl, htid'.trans htid⟩
  · obtain ⟨hz', htid', hpar', hcode'⟩ := h'.zombie hz
    obtain ⟨hz, htid, hpar, hcode⟩ := h.zombie hz'
    exact ⟨hz, htid'.trans htid, hpar'.trans hpar, hcode'.trans hcode⟩
  · rcases h'.tid with ht | ht
    · exact h.tid.imp ht.trans ht.trans
    · exact Or.inr ht

/-- Nothing is born and nobody becomes a zombie. -/
structure Goes (σ σ' : Table) : Prop where
  slot : ∀ i, GoesOn (σ.threads i) (σ'.threads i)
  nextTid : σ'.nextTid = σ.nextTid

theorem Goes.refl (σ : Table) : Goes σ σ := ⟨fun _ => GoesOn.refl _, rfl⟩

theorem Goes.trans {σ' σ'' : Table} (h : Goes σ σ') (h' : Goes σ' σ'') : Goes σ σ'' :=
  ⟨fun i => (h.slot i).trans (h'.slot i), h'.nextTid.trans h.nextTid⟩

theorem Goes.map {f : Slot → Slot} (hf : ∀ t, GoesOn t (f t)) : Goes σ (σ.map f) :=
  ⟨fun i => hf (σ.threads i), rfl⟩

theorem Goes.set {t : Slot} (h : GoesOn (σ.threads i) t) : Goes σ (σ.set i t) := by
  refine ⟨fun j => ?_, rfl⟩
  by_cases hj : j = i
  · subst hj
    rw [set_threads_self]
    exact h
  · rw [set_threads_ne _ _ hj]
    exact GoesOn.refl _

/-! ### Every function but three -/

theorem wake_goes (t : Slot) : GoesOn t (wake t) := by
  unfold wake
  split
  · rename_i hs
    exact GoesOn.of_live (by simp [Live, hs]) (by simp) rfl
  · exact GoesOn.refl t

theorem age_goes (t : Slot) : GoesOn t (age t) := by
  unfold age
  split <;> exact GoesOn.of_state rfl rfl rfl fun _ => rfl

theorem wakeReady_goes (now : Nat) (t : Slot) : GoesOn t (wakeReady now t) := by
  unfold wakeReady
  split
  · rename_i hs
    exact GoesOn.of_live (by simp [Live, hs.1]) (by simp) rfl
  · exact GoesOn.refl t

theorem signal_goes (t : Slot) (sig : Nat) : GoesOn t (wake { t with sigPending := sig }) :=
  (GoesOn.of_state rfl rfl rfl fun _ => rfl : GoesOn t { t with sigPending := sig }).trans
    (wake_goes _)

theorem signalChild_goes (t : Slot) : GoesOn t (signalChild t) := by
  unfold signalChild
  split
  · exact signal_goes t sigInt
  · exact GoesOn.refl t

theorem sigtstpChild_goes (t : Slot) : GoesOn t (sigtstpChild t) := by
  unfold sigtstpChild
  split
  · split
    · exact signal_goes t sigTstp
    · exact wake_goes t
  · exact GoesOn.refl t

theorem charge_goes (t : Slot) (now : Nat) : GoesOn t (charge t now) := by
  unfold charge
  split <;> exact GoesOn.of_state rfl rfl rfl fun _ => rfl

theorem threadReapDead_goes (σ : Table) : Goes σ (threadReapDead σ) := by
  refine ⟨fun i => ?_, rfl⟩
  simp only [threadReapDead]
  split
  · exact GoesOn.of_ended (Or.inr rfl) (Or.inr rfl)
  · exact GoesOn.refl _

theorem switchTo_goes (hi : (σ.threads i).state = .ready) : Goes σ (switchTo σ i) := by
  unfold switchTo
  generalize h1 : (if σ.current.state = .running then
    σ.setCurrent { σ.current with state := .ready } else σ) = σ1
  have hs1 : Goes σ σ1 := by
    rw [← h1]
    split
    · rename_i hrun
      refine Goes.set (GoesOn.of_live ?_ (by simp) rfl)
      change Live σ.current
      simp [Live, hrun]
    · exact Goes.refl σ
  have hi1 : (σ1.threads i).state = .ready := by
    rw [← h1]
    split
    · by_cases hcur : i = σ.cur
      · subst hcur
        rw [Table.setCurrent, set_threads_self]
      · rw [Table.setCurrent, set_threads_ne _ _ hcur]
        exact hi
    · exact hi
  generalize h2 : σ1.set i { σ1.threads i with state := .running } = σ2
  have hs2 : Goes σ1 σ2 := by
    rw [← h2]
    exact Goes.set (GoesOn.of_live (by simp [Live, hi1]) (by simp) rfl)
  generalize h3 : σ2.setCurrent (charge σ2.current σ2.now) = σ3
  have hs3 : Goes σ2 σ3 := by
    rw [← h3]
    exact Goes.set (charge_goes _ _)
  have hs4 : Goes σ3 (σ3.set i { σ3.threads i with lastStartTick := σ3.now, waitTicks := 0 }) :=
    Goes.set (GoesOn.of_state rfl rfl rfl fun _ => rfl)
  have hall := ((hs1.trans hs2).trans hs3).trans hs4
  simp only [h1, h2, h3]
  exact ⟨hall.slot, hall.nextTid⟩

theorem threadYield_goes (σ : Table) (pick : Option (Fin 32)) : Goes σ (threadYield σ pick) := by
  have hr := threadReapDead_goes σ
  unfold threadYield
  generalize threadReapDead σ = ρ at hr
  cases pick with
  | none => exact hr
  | some i =>
      dsimp only
      split
      · rename_i hready
        exact hr.trans (switchTo_goes hready)
      · exact hr

theorem threadKill_goes (σ : Table) (i : Fin 32) : Goes σ (threadKill σ i) := by
  unfold threadKill
  dsimp only
  split_ifs
  · exact Goes.refl σ
  · exact Goes.refl σ
  · exact Goes.refl σ
  · exact Goes.set (GoesOn.of_ended (Or.inl rfl) (Or.inl rfl))

theorem threadKillSlot_goes (σ : Table) (i : Fin 32) : Goes σ (threadKillSlot σ i) := by
  unfold threadKillSlot
  dsimp only
  split_ifs
  · exact Goes.refl σ
  · exact Goes.refl σ
  · refine Goes.trans (Goes.set ?_) (threadReapDead_goes _)
    exact GoesOn.of_ended (Or.inl rfl) (Or.inl rfl)

theorem killByTid_goes (σ : Table) (tid sig : Nat) : Goes σ (killByTid σ tid sig) := by
  unfold killByTid
  split
  · exact Goes.refl σ
  · rename_i i _
    refine Goes.set ?_
    have hw := signal_goes (σ.threads i) sig
    dsimp only
    split
    · rename_i hcont
      exact hw.trans (GoesOn.of_live (by simp [Live, hcont.2]) (by simp) rfl)
    · exact hw

theorem contByTid_goes (σ : Table) (tid : Nat) : Goes σ (contByTid σ tid) := by
  unfold contByTid
  split
  · exact Goes.refl σ
  · rename_i i _
    refine Goes.set ?_
    have hcont : GoesOn (σ.threads i) (if (σ.threads i).state = .stopped then
        { σ.threads i with state := .ready, stopReported := false } else σ.threads i) := by
      split
      · rename_i hs
        exact GoesOn.of_live (by simp [Live, hs]) (by simp) rfl
      · exact GoesOn.refl _
    have htake : ∀ t : Slot, GoesOn t (if t.sigPending = sigTstp then { t with sigPending := 0 }
        else t) := fun t => by
      split
      · exact GoesOn.of_state rfl rfl rfl fun _ => rfl
      · exact GoesOn.refl t
    exact hcont.trans (htake _)

theorem ownStep_goes {t : Slot} (h : t.state = .running) (u : Own) : GoesOn t (ownStep t u) := by
  have hstate : ∀ t' : Slot, t'.state = t.state → t'.tid = t.tid → t'.parentTid = t.parentTid →
      GoesOn t t' := fun t' hs ht hp => GoesOn.of_state hs ht hp fun hz => by
    rw [h] at hz
    cases hz
  cases u with
  | mapAdd va size =>
      simp only [ownStep]
      split_ifs
      · exact GoesOn.refl t
      · split
        · exact GoesOn.refl t
        · exact hstate _ rfl rfl rfl
  | stop => exact GoesOn.of_live (by simp [Live, h]) (by simp [ownStep]) rfl
  | _ => exact hstate _ rfl rfl rfl

theorem charge_state_running (h : σ.current.state = .running) : Live (charge σ.current σ.now) := by
  simp [Live, charge_state, h]

/-- What the running thread does, apart from making threads, exiting and collecting. -/
theorem codeStep_goes (hrun : σ.current.state = .running) {a : Act} (hcreate : ∀ b, a ≠ .create b)
    (hfork : ∀ b, a ≠ .fork b) (hexit : a ≠ .exit) (hreap : ∀ c, a ≠ .reapZombieChild c) :
    Goes σ (codeStep σ a) := by
  cases a with
  | create b => exact absurd rfl (hcreate b)
  | fork b => exact absurd rfl (hfork b)
  | exit => exact absurd rfl hexit
  | reapZombieChild c => exact absurd rfl (hreap c)
  | kill i => exact threadKill_goes σ i
  | killSlot i => exact threadKillSlot_goes σ i
  | sleep ms =>
      refine Goes.set ((charge_goes σ.current σ.now).trans ?_)
      exact GoesOn.of_live (charge_state_running hrun) (by simp) rfl
  | killByTid tid sig => exact killByTid_goes σ tid sig
  | contByTid tid => exact contByTid_goes σ tid
  | checkStoppedChild child =>
      simp only [codeStep, checkStoppedChild]
      split
      · exact Goes.refl σ
      · rename_i i _
        have hset : Goes σ (σ.set i { σ.threads i with stopReported := true }) :=
          Goes.set (GoesOn.of_state rfl rfl rfl fun _ => rfl)
        exact ⟨hset.slot, hset.nextTid⟩
  | own u => exact Goes.set (ownStep_goes hrun u)
  | setPgid tid pgid =>
      simp only [codeStep, setPgid]
      split
      · exact Goes.refl σ
      · exact Goes.set (GoesOn.of_state rfl rfl rfl fun _ => rfl)
  | setPrio i prio =>
      simp only [codeStep, setPrio]
      split_ifs
      · exact Goes.refl σ
      · exact Goes.refl σ
      · exact Goes.set (GoesOn.of_state rfl rfl rfl fun _ => rfl)
  | markUser i on => exact Goes.set (GoesOn.of_state rfl rfl rfl fun _ => rfl)
  | _ => exact Goes.refl σ

/-! ### The invariant -/

/-- A thread that lives or waits to be collected. -/
def Active (t : Slot) : Prop := Live t ∨ t.state = .zombie

/-- Active threads have different numbers, none of which was handed out; the zombies and
what was handed out have the codes that were noted at their exits, and nobody exits
twice. -/
structure Recorded (w : Watch) : Prop where
  tid_lt : ∀ i, (w.table.threads i).tid < w.table.nextTid
  distinct : ∀ i j, Active (w.table.threads i) → Active (w.table.threads j) →
    (w.table.threads i).tid = (w.table.threads j).tid → i = j
  fresh : ∀ i, Active (w.table.threads i) → (w.table.threads i).tid ∉ w.collected.map Report.child
  unended : ∀ i, Live (w.table.threads i) → (w.table.threads i).tid ∉ w.exits.map Report.child
  zombie : ∀ i, (w.table.threads i).state = .zombie →
    ⟨(w.table.threads i).parentTid, (w.table.threads i).tid, (w.table.threads i).exitCode⟩ ∈ w.exits
  exits_lt : ∀ r ∈ w.exits, r.child < w.table.nextTid
  exits_nodup : (w.exits.map Report.child).Nodup
  collected : ∀ r ∈ w.collected, r ∈ w.exits
  collected_nodup : (w.collected.map Report.child).Nodup

variable {w : Watch} {σ' : Table}

theorem GoesOn.active {t t' : Slot} (h : GoesOn t t') (ha : Active t') :
    Active t ∧ t'.tid = t.tid := by
  rcases ha with hl | hz
  · exact ⟨Or.inl (h.live hl).1, (h.live hl).2⟩
  · exact ⟨Or.inr (h.zombie hz).1, (h.zombie hz).2.1⟩

theorem Recorded.goes (h : Recorded w) (hg : Goes w.table σ') :
    Recorded ⟨σ', w.exits, w.collected⟩ where
  tid_lt i := by
    have hlt := h.tid_lt i
    change (σ'.threads i).tid < σ'.nextTid
    rw [hg.nextTid]
    rcases (hg.slot i).tid with ht | ht
    · rwa [ht]
    · rw [ht]
      exact Nat.zero_lt_of_lt hlt
  distinct i j hi hj heq := by
    obtain ⟨hai, hti⟩ := (hg.slot i).active hi
    obtain ⟨haj, htj⟩ := (hg.slot j).active hj
    exact h.distinct i j hai haj (hti.symm.trans (heq.trans htj))
  fresh i hi := by
    obtain ⟨ha, ht⟩ := (hg.slot i).active hi
    change (σ'.threads i).tid ∉ _
    rw [ht]
    exact h.fresh i ha
  unended i hi := by
    obtain ⟨hl, ht⟩ := (hg.slot i).live hi
    change (σ'.threads i).tid ∉ _
    rw [ht]
    exact h.unended i hl
  zombie i hi := by
    obtain ⟨hz, ht, hp, hc⟩ := (hg.slot i).zombie hi
    change (⟨(σ'.threads i).parentTid, (σ'.threads i).tid, (σ'.threads i).exitCode⟩ : Report) ∈ _
    rw [ht, hp, hc]
    exact h.zombie i hz
  exits_lt r hr := by
    change r.child < σ'.nextTid
    rw [hg.nextTid]
    exact h.exits_lt r hr
  exits_nodup := h.exits_nodup
  collected := h.collected
  collected_nodup := h.collected_nodup

/-- A thread with a new number takes a slot. -/
theorem Recorded.create (h : Recorded w) {t : Slot} (htid : t.tid = w.table.nextTid)
    (hready : t.state = .ready) :
    Recorded ⟨{ w.table.set i t with nextTid := w.table.nextTid + 1 }, w.exits, w.collected⟩ := by
  have hother : ∀ j, j ≠ i → (w.table.set i t).threads j = w.table.threads j := fun j hj =>
    set_threads_ne _ _ hj
  have hlt : ∀ r ∈ w.collected, r.child < w.table.nextTid := fun r hr =>
    h.exits_lt r (h.collected r hr)
  refine ⟨fun j => ?_, fun j l hj hl heq => ?_, fun j hj hmem => ?_, fun j hj hmem => ?_,
    fun j hj => ?_, fun r hr => Nat.lt_succ_of_lt (h.exits_lt r hr), h.exits_nodup, h.collected,
    h.collected_nodup⟩
  · change ((w.table.set i t).threads j).tid < w.table.nextTid + 1
    by_cases hji : j = i
    · rw [hji, set_threads_self, htid]
      exact Nat.lt_succ_self _
    · rw [hother j hji]
      exact Nat.lt_succ_of_lt (h.tid_lt j)
  · change Active ((w.table.set i t).threads j) at hj
    change Active ((w.table.set i t).threads l) at hl
    change ((w.table.set i t).threads j).tid = ((w.table.set i t).threads l).tid at heq
    by_cases hji : j = i
    · by_cases hli : l = i
      · exact hji.trans hli.symm
      · rw [hji, set_threads_self, htid, hother l hli] at heq
        exact absurd (h.tid_lt l) (by omega)
    · by_cases hli : l = i
      · rw [hli, set_threads_self, htid, hother j hji] at heq
        exact absurd (h.tid_lt j) (by omega)
      · rw [hother j hji] at hj heq
        rw [hother l hli] at hl heq
        exact h.distinct j l hj hl heq
  · change ((w.table.set i t).threads j).tid ∈ _ at hmem
    change Active ((w.table.set i t).threads j) at hj
    by_cases hji : j = i
    · rw [hji, set_threads_self, htid] at hmem
      obtain ⟨r, hr, heq⟩ := List.mem_map.1 hmem
      exact absurd (hlt r hr) (by omega)
    · rw [hother j hji] at hj hmem
      exact h.fresh j hj hmem
  · change ((w.table.set i t).threads j).tid ∈ _ at hmem
    change Live ((w.table.set i t).threads j) at hj
    by_cases hji : j = i
    · rw [hji, set_threads_self, htid] at hmem
      obtain ⟨r, hr, heq⟩ := List.mem_map.1 hmem
      exact absurd (h.exits_lt r hr) (by omega)
    · rw [hother j hji] at hj hmem
      exact h.unended j hj hmem
  · change ((w.table.set i t).threads j).state = .zombie at hj
    by_cases hji : j = i
    · rw [hji, set_threads_self, hready] at hj
      cases hj
    · rw [hother j hji] at hj
      change (⟨((w.table.set i t).threads j).parentTid, ((w.table.set i t).threads j).tid,
        ((w.table.set i t).threads j).exitCode⟩ : Report) ∈ _
      rw [hother j hji]
      exact h.zombie j hj

theorem Recorded.threadCreate (h : Recorded w) (b : Birth) :
    Recorded ⟨(threadCreate w.table b).2, w.exits, w.collected⟩ := by
  have hr := h.goes (threadReapDead_goes w.table)
  rw [threadCreate_eq]
  split
  · exact hr
  · rename_i i _
    split
    · exact hr
    · exact hr.create rfl rfl

theorem Recorded.doFork (h : Recorded w) (b : Birth) :
    Recorded ⟨doFork w.table b, w.exits, w.collected⟩ := by
  have hc := h.threadCreate b
  have hready : ∀ i, (Slots.threadCreate w.table b).1 = some i →
      ((Slots.threadCreate w.table b).2.threads i).state = .ready := by
    intro i hi
    rw [threadCreate_eq] at hi ⊢
    cases hfree : findFreeSlot (threadReapDead w.table) with
    | none =>
        rw [hfree] at hi
        cases hi
    | some j =>
        rw [hfree] at hi
        dsimp only at hi ⊢
        split at hi
        · cases hi
        · rename_i hmem
          obtain rfl := Option.some.inj hi
          rw [if_neg hmem]
          change ((Table.set _ j _).threads j).state = .ready
          rw [set_threads_self]
          rfl
  unfold Slots.doFork
  split_ifs
  · exact h
  · generalize Slots.threadCreate w.table b = r at hc hready
    obtain ⟨o, ρ⟩ := r
    cases o with
    | none => exact hc
    | some i =>
        have hi : (ρ.threads i).state = .ready := hready i rfl
        refine hc.goes (Goes.set (GoesOn.of_live ?_ ?_ rfl))
        · simp [Live, hi]
        · simp [inherited, hi]

/-- What `thread_exit` leaves of the slot. -/
theorem threadExit_current (σ : Table) : ∃ t, threadExit σ = σ.setCurrent t ∧
    t.tid = σ.current.tid ∧ t.parentTid = σ.current.parentTid ∧
    t.exitCode = σ.current.exitCode ∧ (t.state = .zombie ∨ t.state = .dead) := by
  have hcharge : ∀ t now, (charge t now).tid = t.tid ∧ (charge t now).parentTid = t.parentTid ∧
      (charge t now).exitCode = t.exitCode := by
    intro t now
    unfold charge
    split <;> exact ⟨rfl, rfl, rfl⟩
  obtain ⟨h1, h2, h3⟩ := hcharge σ.current σ.now
  refine ⟨_, rfl, ?_, ?_, ?_, ?_⟩
  · dsimp only
    split <;> exact h1
  · dsimp only
    split <;> exact h2
  · dsimp only
    split <;> exact h3
  · dsimp only
    split <;> split <;> simp

theorem Recorded.exit (h : Recorded w) (hrun : w.table.current.state = .running) :
    Recorded ⟨threadExit w.table, w.exits ++ exited w.table .exit, w.collected⟩ := by
  obtain ⟨t, heq, htid, hpar, hcode, hstate⟩ := threadExit_current w.table
  have hlive : Live w.table.current := by simp [Live, hrun]
  have hself : (threadExit w.table).current = t := by
    rw [heq]
    exact set_threads_self _ _ _
  rcases hstate with hz | hd
  swap
  · have hnone : exited w.table .exit = [] := if_neg (by rw [hself, hd]; simp)
    rw [hnone, List.append_nil, heq]
    exact h.goes (Goes.set (GoesOn.of_ended (Or.inl hd) (Or.inl htid)))
  have hone : exited w.table .exit =
      [⟨w.table.current.parentTid, w.table.current.tid, w.table.current.exitCode⟩] :=
    if_pos ⟨hrun, by rw [hself, hz]⟩
  rw [hone, heq]
  have hold : ∀ j, j ≠ w.table.cur → (w.table.setCurrent t).threads j = w.table.threads j :=
    fun j hj => set_threads_ne _ _ hj
  have hcur : (w.table.setCurrent t).threads w.table.cur = t := set_threads_self _ _ _
  have htids : ∀ j, ((w.table.setCurrent t).threads j).tid = (w.table.threads j).tid := by
    intro j
    by_cases hj : j = w.table.cur
    · rw [hj, hcur, htid]
      rfl
    · rw [hold j hj]
  have hact : ∀ j, Active ((w.table.setCurrent t).threads j) → Active (w.table.threads j) := by
    intro j hj
    by_cases hjc : j = w.table.cur
    · rw [hjc]
      exact Or.inl hlive
    · rwa [hold j hjc] at hj
  have hnew := h.unended w.table.cur hlive
  refine ⟨fun j => ?_, fun j l hj hl heq => ?_, fun j hj => ?_, fun j hj hmem => ?_, fun j hj => ?_,
    fun r hr => ?_, ?_, fun r hr => List.mem_append_left _ (h.collected r hr), h.collected_nodup⟩
  · change ((w.table.setCurrent t).threads j).tid < _
    rw [htids]
    exact h.tid_lt j
  · exact h.distinct j l (hact j hj) (hact l hl) ((htids j).symm.trans (heq.trans (htids l)))
  · change ((w.table.setCurrent t).threads j).tid ∉ _
    rw [htids]
    exact h.fresh j (hact j hj)
  · change Live ((w.table.setCurrent t).threads j) at hj
    change ((w.table.setCurrent t).threads j).tid ∈ _ at hmem
    have hjc : j ≠ w.table.cur := by
      rintro rfl
      rw [hcur] at hj
      exact hj.2.2 hz
    rw [hold j hjc] at hj hmem
    rw [List.map_append, List.mem_append] at hmem
    rcases hmem with hmem | hmem
    · exact h.unended j hj hmem
    · have heq := List.mem_singleton.1 hmem
      exact hjc (h.distinct j w.table.cur (Or.inl hj) (Or.inl hlive) heq)
  · change ((w.table.setCurrent t).threads j).state = .zombie at hj
    change (⟨((w.table.setCurrent t).threads j).parentTid, ((w.table.setCurrent t).threads j).tid,
      ((w.table.setCurrent t).threads j).exitCode⟩ : Report) ∈ _
    by_cases hjc : j = w.table.cur
    · rw [hjc, hcur, htid, hpar, hcode]
      exact List.mem_append_right _ (List.mem_singleton_self _)
    · rw [hold j hjc] at hj ⊢
      exact List.mem_append_left _ (h.zombie j hj)
  · rcases List.mem_append.1 hr with hr | hr
    · exact h.exits_lt r hr
    · obtain rfl := List.mem_singleton.1 hr
      exact h.tid_lt w.table.cur
  · rw [List.map_append]
    exact List.nodup_append.2 ⟨h.exits_nodup, List.nodup_singleton _, fun a ha b hb => by
      obtain rfl := List.mem_singleton.1 hb
      rintro rfl
      exact hnew ha⟩

theorem Recorded.collect (h : Recorded w) (hz : (w.table.threads i).state = .zombie) :
    Recorded ⟨w.table.set i { w.table.threads i with state := .dead }, w.exits, w.collected ++
      [⟨(w.table.threads i).parentTid, (w.table.threads i).tid, (w.table.threads i).exitCode⟩]⟩ := by
  have hgoes : Goes w.table (w.table.set i { w.table.threads i with state := .dead }) :=
    Goes.set (GoesOn.of_ended (Or.inl rfl) (Or.inl rfl))
  have hset := h.goes hgoes
  refine ⟨hset.tid_lt, hset.distinct, fun j hj hmem => ?_, hset.unended, hset.zombie, hset.exits_lt,
    hset.exits_nodup, fun r hr => ?_, ?_⟩
  · rw [List.map_append, List.mem_append] at hmem
    rcases hmem with hmem | hmem
    · exact hset.fresh j hj hmem
    · have heq := List.mem_singleton.1 hmem
      have hji : j = i := by
        obtain ⟨ha, ht⟩ := (hgoes.slot j).active hj
        exact h.distinct j i ha (Or.inr hz) (ht.symm.trans heq)
      subst hji
      change Active ((w.table.set j _).threads j) at hj
      rw [set_threads_self] at hj
      rcases hj with hl | hzj
      · exact hl.2.1 rfl
      · cases hzj
  · rcases List.mem_append.1 hr with hr | hr
    · exact h.collected r hr
    · obtain rfl := List.mem_singleton.1 hr
      exact h.zombie i hz
  · rw [List.map_append]
    exact List.nodup_append.2 ⟨h.collected_nodup, List.nodup_singleton _, fun a ha b hb => by
      obtain rfl := List.mem_singleton.1 hb
      rintro rfl
      exact h.fresh i (Or.inr hz) ha⟩

/-- What a waiting thread does to the table. -/
theorem reapZombieChild_eq (σ : Table) (child : Option Nat) :
    Goes σ (reapZombieChild σ child) ∧ reapZombieChild σ child =
      match zombieChild σ child with
      | none => σ
      | some i =>
          { σ.set i { σ.threads i with state := .dead } with
            reports := σ.reports ++
              [⟨σ.current.tid, (σ.threads i).tid, (σ.threads i).exitCode⟩] } := by
  have heq : reapZombieChild σ child =
      match zombieChild σ child with
      | none => σ
      | some i =>
          { σ.set i { σ.threads i with state := .dead } with
            reports := σ.reports ++
              [⟨σ.current.tid, (σ.threads i).tid, (σ.threads i).exitCode⟩] } := rfl
  refine ⟨?_, heq⟩
  rw [heq]
  cases zombieChild σ child with
  | none => exact Goes.refl σ
  | some i =>
      have hset : Goes σ (σ.set i { σ.threads i with state := .dead }) :=
        Goes.set (GoesOn.of_ended (Or.inl rfl) (Or.inl rfl))
      exact ⟨hset.slot, hset.nextTid⟩

theorem Recorded.reapZombieChild (h : Recorded w) (hrun : w.table.current.state = .running)
    (child : Option Nat) : Recorded ⟨reapZombieChild w.table child, w.exits,
      w.collected ++ collects w.table (.reapZombieChild child)⟩ := by
  rw [(reapZombieChild_eq w.table child).2]
  simp only [collects, if_pos hrun]
  cases hz : zombieChild w.table child with
  | none =>
      rw [List.append_nil]
      exact h
  | some i =>
      obtain ⟨hmatch, hzombie⟩ := zombieChild_some hz
      have hpar : (w.table.threads i).parentTid = w.table.current.tid := by
        unfold matchesChild at hmatch
        simp only [Bool.and_eq_true, decide_eq_true_eq] at hmatch
        exact hmatch.1
      have hc := h.collect hzombie
      rw [hpar] at hc
      exact hc.goes ⟨fun j => GoesOn.refl _, rfl⟩

/-- Every step keeps the records. -/
theorem Recorded.step (h : Recorded w) (a : Act) : Recorded (watchStep w a) := by
  have hplain : exited w.table a = [] → collects w.table a = [] → Goes w.table (slotStep w.table a) →
      Recorded (watchStep w a) := by
    intro he hc hg
    unfold watchStep
    rw [he, hc, List.append_nil, List.append_nil]
    exact h.goes hg
  have hcode : ∀ a : Act, slotStep w.table a = (if w.table.current.state = .running then
      codeStep w.table a else w.table) → exited w.table a = [] → collects w.table a = [] →
      (w.table.current.state = .running →
        Recorded ⟨codeStep w.table a, w.exits, w.collected⟩) → Recorded (watchStep w a) := by
    intro a hstep he hc hrec
    unfold watchStep
    rw [he, hc, List.append_nil, List.append_nil, hstep]
    split
    · rename_i hrun
      exact hrec hrun
    · exact h
  cases a with
  | tick =>
      have hg := @Goes.map w.table _ age_goes
      exact hplain rfl rfl ⟨hg.slot, hg.nextTid⟩
  | wakeReady => exact hplain rfl rfl (Goes.map (wakeReady_goes _))
  | signalChildren => exact hplain rfl rfl (Goes.map signalChild_goes)
  | sigtstpChildren => exact hplain rfl rfl (Goes.map sigtstpChild_goes)
  | yield pick => exact hplain rfl rfl (threadYield_goes _ pick)
  | create b => exact hcode _ rfl rfl rfl fun _ => h.threadCreate b
  | fork b => exact hcode _ rfl rfl rfl fun _ => h.doFork b
  | exit =>
      by_cases hrun : w.table.current.state = .running
      · have hrec := h.exit hrun
        unfold watchStep
        rw [show collects w.table .exit = [] from rfl, List.append_nil]
        rw [show slotStep w.table .exit = threadExit w.table from if_pos hrun]
        exact hrec
      · exact hplain (if_neg fun hc => hrun hc.1) rfl (by
          rw [show slotStep w.table .exit = w.table from if_neg hrun]
          exact Goes.refl _)
  | reapZombieChild child =>
      by_cases hrun : w.table.current.state = .running
      · have hrec := h.reapZombieChild hrun child
        unfold watchStep
        rw [show exited w.table (.reapZombieChild child) = [] from rfl, List.append_nil]
        rw [show slotStep w.table (.reapZombieChild child) =
          Slots.reapZombieChild w.table child from if_pos hrun]
        exact hrec
      · exact hplain rfl (if_neg hrun) (by
          rw [show slotStep w.table (.reapZombieChild child) = w.table from if_neg hrun]
          exact Goes.refl _)
  | _ => exact hcode _ rfl rfl rfl fun hrun =>
      h.goes (codeStep_goes hrun (by simp) (by simp) (by simp) (by simp))

theorem recorded_init (now rsp : Nat) : Recorded (watchInit now rsp) := by
  have hactive : ∀ i, Active ((watchInit now rsp).table.threads i) → i = 0 := by
    intro i hi
    by_contra hne
    simp [watchInit, threadInit, hne, neverUsed, Active, Live] at hi
  refine ⟨fun i => ?_, fun i j hi hj _ => (hactive i hi).trans (hactive j hj).symm,
    by simp [watchInit], by simp [watchInit], fun i hi => ?_, by simp [watchInit],
    by simp [watchInit], by simp [watchInit], by simp [watchInit]⟩
  · simp only [watchInit, threadInit]
    split <;> simp [neverUsed]
  · obtain rfl := hactive i (Or.inr hi)
    simp [watchInit, threadInit] at hi

/-- **In every history each child that became a zombie is handed out at most once, to its
parent and with the code it had set; and all answers are right exactly if nobody asks for
a child that is dead and not yet reaped while no other one answers.** -/
theorem waiting_run_iff (now rsp : Nat) (acts : List Act) :
    (((run watchStep (watchInit now rsp) acts).collected.map Report.child).Nodup ∧
      ((run watchStep (watchInit now rsp) acts).exits.map Report.child).Nodup ∧
      ∀ r ∈ (run watchStep (watchInit now rsp) acts).collected,
        r ∈ (run watchStep (watchInit now rsp) acts).exits) ∧
    (AllSteps watchStep Answered (watchInit now rsp) acts ↔
      AllSteps watchStep AsksInTime (watchInit now rsp) acts) := by
  have hrec := inv_run Recorded (fun w a h _ => h.step a) (recorded_init now rsp)
    (allSteps_true watchStep (watchInit now rsp) acts)
  refine ⟨⟨hrec.collected_nodup, hrec.exits_nodup, hrec.collected⟩, ?_⟩
  refine @allSteps_congr _ _ watchStep Answered AsksInTime (fun _ => True)
    (fun _ _ _ _ => trivial) (fun w a _ => ?_) _ trivial acts
  cases a with
  | reapZombieChild child => exact forall_congr' fun _ => answerRight_iff w.table child
  | _ => exact Iff.rfl

/-- A child exits and is collected, and its parent asks again. -/
def askTwice : List Act :=
  [.own (.cr3 4096), .fork ⟨"child", 1, 1, 4096⟩, .yield (some 1), .own (.exitCode 7), .exit,
    .yield (some 0), .reapZombieChild none, .reapZombieChild none]

theorem not_answered_askTwice :
    (run watchStep (watchInit 0 0) askTwice).collected = [⟨1, 2, 7⟩] ∧
      ¬ AllSteps watchStep Answered (watchInit 0 0) askTwice := by
  refine ⟨by decide, fun h => ?_⟩
  have hlast := ((allSteps_append watchStep Answered (watchInit 0 0) (askTwice.take 7)
    (askTwice.drop 7)).1 h).2.1 (by decide)
  rw [answerRight_iff] at hlast
  unfold NotOnlyDead at hlast
  revert hlast
  decide

end FiFi.Process.Slots
