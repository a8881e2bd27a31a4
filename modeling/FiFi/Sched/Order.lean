import FiFi.Sched.Scheduler
import FiFi.Library.StateMachine

/-!
# What the scheduler keeps

`Orderly` is the invariant of the scheduler: no thread but the current one is
`T_RUNNING`, the current one is when it runs in its own code, and each thread that
is ready or runs has a right to. Everything a thread does and every interrupt
keep it. `thread_yield` even restores it from any `Calm` state when some thread is
ready, whatever state the current thread is in.
-/

namespace FiFi.Sched

open Thread

/-! ### Who is next -/

section

variable {σ : Sched}

/-- The loop of `highest_ready_eff_prio` over some of the slots. -/
theorem foldl_highest (l : List (Fin 32)) (b : Int) :
    b ≤ l.foldl (higherReady σ) b ∧
      (∀ i ∈ l, (σ.threads i).state = .ready →
        (effPrio σ (σ.threads i) : Int) ≤ l.foldl (higherReady σ) b) ∧
      (l.foldl (higherReady σ) b = b ∨ ∃ i ∈ l, (σ.threads i).state = .ready ∧
        (effPrio σ (σ.threads i) : Int) = l.foldl (higherReady σ) b) := by
  induction l generalizing b with
  | nil => exact ⟨le_rfl, fun i hi => absurd hi (by simp), Or.inl rfl⟩
  | cons j l ih =>
      rw [List.foldl_cons]
      by_cases hj : (σ.threads j).state = .ready ∧ b < effPrio σ (σ.threads j)
      · have hstep : higherReady σ b j = effPrio σ (σ.threads j) := if_pos hj
        rw [hstep]
        obtain ⟨hle, hall, hex⟩ := ih (effPrio σ (σ.threads j) : Int)
        refine ⟨hj.2.le.trans hle, fun i hi hr => ?_, Or.inr ?_⟩
        · rcases List.mem_cons.1 hi with rfl | hi
          · exact hle
          · exact hall i hi hr
        · rcases hex with heq | ⟨i, hi, hr⟩
          · exact ⟨j, by simp, hj.1, heq.symm⟩
          · exact ⟨i, by simp [hi], hr⟩
      · have hstep : higherReady σ b j = b := if_neg hj
        rw [hstep]
        obtain ⟨hle, hall, hex⟩ := ih b
        refine ⟨hle, fun i hi hr => ?_, hex.imp_right fun ⟨i, hi, hr⟩ => ⟨i, by simp [hi], hr⟩⟩
        rcases List.mem_cons.1 hi with rfl | hi
        · exact (not_lt.1 fun hlt => hj ⟨hr, hlt⟩).trans hle
        · exact hall i hi hr

/-- Every slot comes within one round. -/
theorem mem_round (cur i : Fin 32) : i ∈ (List.range' 1 32).map (slotAfter cur) := by
  refine List.mem_map.2 ⟨if cur.val < i.val then i.val - cur.val else i.val + 32 - cur.val, ?_, ?_⟩
  · rw [List.mem_range'_1]
    split <;> omega
  · refine Fin.ext ?_
    change (cur.val + _) % 32 = i.val
    split <;> omega

/-- `pick_next_ready` finds a ready thread if there is one. -/
theorem pickNextReady_spec (σ : Sched) :
    (pickNextReady σ = none ∧ ∀ i, (σ.threads i).state ≠ .ready) ∨
      ∃ i, pickNextReady σ = some i ∧ (σ.threads i).state = .ready := by
  obtain ⟨-, hall, hex⟩ := @foldl_highest σ (List.finRange 32) (-1)
  rw [← highestReadyEffPrio] at hall hex
  unfold pickNextReady
  by_cases hneg : highestReadyEffPrio σ < 0
  · refine Or.inl ⟨if_pos hneg, fun i hr => ?_⟩
    have := hall i (List.mem_finRange i) hr
    omega
  · simp only [if_neg hneg]
    cases hfind : List.find? (fun i => decide ((σ.threads i).state = .ready) &&
        decide ((effPrio σ (σ.threads i) : Int) = highestReadyEffPrio σ))
        ((List.range' 1 32).map (slotAfter σ.cur)) with
    | some i =>
        have hi := List.find?_some hfind
        simp only [Bool.and_eq_true, decide_eq_true_eq] at hi
        exact Or.inr ⟨i, rfl, hi.1⟩
    | none =>
        obtain ⟨i, -, hr, heq⟩ := hex.resolve_left (by omega)
        have hno := List.find?_eq_none.1 hfind i (mem_round σ.cur i)
        simp [hr, heq] at hno

end

/-! ### The invariant -/

/-- What holds of each thread by itself. -/
structure TaskOk (now : Nat) (t : Task) : Prop where
  awake : t.state = .ready ∨ t.state = .running ∨ t.state = .stopped →
    t.wakeTick ≤ now ∨ t.signalled = true
  going : t.state = .ready ∨ t.state = .running ∨ t.state = .sleeping → t.held = false
  fresh : t.state = .unused → t.wakeTick ≤ now

/-- The threads are in order, apart from what the one that runs is doing. -/
structure Calm (σ : Sched) : Prop where
  alone : ∀ j, j ≠ σ.cur → (σ.threads j).state ≠ .running
  each : ∀ j, TaskOk σ.now (σ.threads j)

structure Orderly (σ : Sched) : Prop extends Calm σ where
  code : σ.current.point = .code → σ.current.state = .running

section

variable {now now' : Nat} {t : Task}

theorem TaskOk.mono (h : TaskOk now t) (hle : now ≤ now') : TaskOk now' t :=
  ⟨fun hs => (h.awake hs).imp_left fun hw => hw.trans hle, h.going, fun hs => (h.fresh hs).trans hle⟩

/-- The fields the invariant does not read. -/
theorem TaskOk.congr (h : TaskOk now t) {t' : Task} (hst : t'.state = t.state)
    (hw : t'.wakeTick = t.wakeTick) (hs : t'.signalled = t.signalled) (hh : t'.held = t.held) :
    TaskOk now t' := by
  constructor
  · rw [hst, hw, hs]
    exact h.awake
  · rw [hst, hh]
    exact h.going
  · rw [hst, hw]
    exact h.fresh

/-- A thread that has ended. -/
theorem TaskOk.ended (hst : t.state = .dead ∨ t.state = .zombie) : TaskOk now t := by
  rcases hst with hst | hst <;> exact ⟨by simp [hst], by simp [hst], by simp [hst]⟩

theorem taskOk_reaped : TaskOk now (reaped t) :=
  ⟨by simp [reaped], by simp [reaped], fun _ => Nat.zero_le now⟩

/-- A thread that was ready runs, or the other way round. -/
theorem TaskOk.runs (h : TaskOk now t) (hold : t.state = .ready ∨ t.state = .running) {t' : Task}
    (hst : t'.state = .ready ∨ t'.state = .running) (hw : t'.wakeTick = t.wakeTick)
    (hs : t'.signalled = t.signalled) (hh : t'.held = t.held) : TaskOk now t' := by
  refine ⟨fun _ => ?_, fun _ => ?_, fun hu => ?_⟩
  · rw [hw, hs]
    exact h.awake (hold.imp_right Or.inl)
  · rw [hh]
    exact h.going (hold.imp_right Or.inl)
  · rw [hu] at hst
    simp at hst

theorem TaskOk.due (h : TaskOk now t) (hd : Due now t) : TaskOk now { t with state := .ready } :=
  ⟨fun _ => Or.inl hd.2, fun _ => h.going (Or.inr (Or.inr hd.1)), fun hu => absurd hu (by simp)⟩

theorem TaskOk.wake (h : TaskOk now t) : TaskOk now (wake t) := by
  unfold Sched.wake
  by_cases hs : t.state = .sleeping
  · rw [if_pos hs]
    exact ⟨fun _ => Or.inr rfl, fun _ => h.going (Or.inr (Or.inr hs)), fun hu => absurd hu (by simp)⟩
  · rwa [if_neg hs]

theorem TaskOk.continued (h : TaskOk now t) : TaskOk now (continued t) := by
  unfold Sched.continued
  by_cases hs : t.state = .stopped
  · rw [if_pos hs]
    exact ⟨fun _ => h.awake (Or.inr (Or.inr hs)), fun _ => rfl, fun hu => absurd hu (by simp)⟩
  · rwa [if_neg hs]

theorem wake_running : (wake t).state = .running ↔ t.state = .running := by
  unfold wake
  by_cases hs : t.state = .sleeping
  · simp [hs]
  · simp [hs]

theorem wake_point : (wake t).point = t.point := by
  unfold wake
  split <;> rfl

theorem continued_running : (continued t).state = .running ↔ t.state = .running := by
  unfold continued
  by_cases hs : t.state = .stopped
  · simp [hs]
  · simp [hs]

theorem continued_point : (continued t).point = t.point := by
  unfold continued
  split <;> rfl

end

section

variable {σ σ' : Sched}

/-- The rule for steps in which no thread starts or stops running. -/
theorem Calm.of_each (h : Calm σ) (hcur : σ'.cur = σ.cur)
    (hrun : ∀ j, (σ'.threads j).state = .running → (σ.threads j).state = .running)
    (heach : ∀ j, TaskOk σ'.now (σ'.threads j)) : Calm σ' := by
  refine ⟨fun j hj hr => h.alone j ?_ (hrun j hr), heach⟩
  rwa [hcur] at hj

theorem Orderly.of_each (h : Orderly σ) (hcur : σ'.cur = σ.cur)
    (hrun : ∀ j, (σ'.threads j).state = .running ↔ (σ.threads j).state = .running)
    (hpoint : ∀ j, (σ'.threads j).point = (σ.threads j).point)
    (heach : ∀ j, TaskOk σ'.now (σ'.threads j)) : Orderly σ' := by
  refine ⟨h.toCalm.of_each hcur (fun j => (hrun j).1) heach, ?_⟩
  intro hp
  have hcurrent : σ'.current = σ'.threads σ.cur := congrArg σ'.threads hcur
  rw [hcurrent] at hp ⊢
  rw [hpoint] at hp
  exact (hrun σ.cur).2 (h.code hp)

/-- The current thread gets a state in which it does not run, and does not go on
in its code. -/
theorem Orderly.setCurrent (h : Orderly σ) {t : Task} (hst : t.state ≠ .running)
    (hp : t.point ≠ .code) (hok : TaskOk σ.now t) : Orderly (σ.setCurrent t) := by
  refine ⟨h.toCalm.of_each rfl (fun j hr => ?_) fun j => ?_, ?_⟩
  · by_cases hj : j = σ.cur
    · rw [hj, Sched.setCurrent, σ.setTask_self] at hr
      exact absurd hr hst
    · rwa [Sched.setCurrent, σ.setTask_ne hj] at hr
  · by_cases hj : j = σ.cur
    · rw [hj, Sched.setCurrent, σ.setTask_self]
      exact hok
    · rw [Sched.setCurrent, σ.setTask_ne hj]
      exact h.each j
  · rw [σ.setCurrent_current]
    exact fun hc => absurd hc hp

/-! ### Switching -/

theorem reap_state_running (j : Fin 32) :
    ((threadReapDead σ).threads j).state = .running ↔ (σ.threads j).state = .running := by
  simp only [threadReapDead]
  split
  · next hd => simp [reaped, hd.2.1]
  · rfl

theorem reap_state_ready (j : Fin 32) :
    ((threadReapDead σ).threads j).state = .ready ↔ (σ.threads j).state = .ready := by
  simp only [threadReapDead]
  split
  · next hd => simp [reaped, hd.2.1]
  · rfl

theorem reap_current : (threadReapDead σ).current = σ.current := by
  simp [threadReapDead, Sched.current]

theorem reap_taskOk (h : ∀ j, TaskOk σ.now (σ.threads j)) (j : Fin 32) :
    TaskOk σ.now ((threadReapDead σ).threads j) := by
  simp only [threadReapDead]
  split
  · exact taskOk_reaped
  · exact h j

theorem Calm.threadReapDead (h : Calm σ) : Calm (threadReapDead σ) :=
  h.of_each rfl (fun j => (reap_state_running j).1) (reap_taskOk h.each)

theorem Orderly.threadReapDead (h : Orderly σ) : Orderly (Sched.threadReapDead σ) :=
  ⟨h.toCalm.threadReapDead, by rw [reap_current]; exact h.code⟩

/-- After a switch to a ready thread all is well, whatever the thread before was
doing. -/
theorem Calm.switchTo (h : Calm σ) {next : Fin 32} (hnext : (σ.threads next).state = .ready) :
    Orderly (Sched.switchTo σ next) := by
  -- the table once the thread that ran is ready
  set τ : Sched := if σ.current.state = .running then
    σ.setCurrent { σ.current with state := .ready } else σ with hτ
  have hnow : τ.now = σ.now := by
    rw [hτ]
    split <;> rfl
  have hnone : ∀ j, (τ.threads j).state ≠ .running := by
    intro j
    by_cases hj : j = σ.cur
    · rw [hj, hτ]
      split
      · simp [Sched.setCurrent]
      · next hnot => exact hnot
    · have hother : τ.threads j = σ.threads j := by
        rw [hτ]
        split
        · exact σ.setTask_ne hj _
        · rfl
      rw [hother]
      exact h.alone j hj
  have heach : ∀ j, TaskOk τ.now (τ.threads j) := by
    intro j
    rw [hnow, hτ]
    split
    · next hrun =>
        by_cases hj : j = σ.cur
        · rw [hj, Sched.setCurrent, σ.setTask_self]
          exact (h.each σ.cur).runs (Or.inr hrun) (Or.inl rfl) rfl rfl rfl
        · rw [Sched.setCurrent, σ.setTask_ne hj]
          exact h.each j
    · exact h.each j
  have hready : (τ.threads next).state = .ready := by
    rw [hτ]
    split
    · by_cases hj : next = σ.cur
      · simp [hj, Sched.setCurrent]
      · rwa [Sched.setCurrent, σ.setTask_ne hj]
    · exact hnext
  have heq : Sched.switchTo σ next = { τ.setTask next
      { τ.threads next with state := .running, waitTicks := 0 } with
      cur := next, sliceLeft := τ.timeslice } := rfl
  rw [heq]
  refine ⟨⟨fun j hj => ?_, fun j => ?_⟩, fun _ => ?_⟩
  · change ((τ.setTask next _).threads j).state ≠ _
    rw [τ.setTask_ne hj]
    exact hnone j
  · change TaskOk τ.now ((τ.setTask next _).threads j)
    by_cases hj : j = next
    · rw [hj, τ.setTask_self]
      exact (heach next).runs (Or.inl hready) (Or.inr rfl) rfl rfl rfl
    · rw [τ.setTask_ne hj]
      exact heach j
  · change ((τ.setTask next _).threads next).state = _
    rw [τ.setTask_self]

/-- `thread_yield` when some thread is ready. -/
theorem Calm.threadYield_ready (h : Calm σ) (hr : ∃ j, (σ.threads j).state = .ready) :
    Orderly (threadYield σ) := by
  obtain ⟨j, hj⟩ := hr
  unfold Sched.threadYield
  rcases pickNextReady_spec (Sched.threadReapDead σ) with ⟨-, hno⟩ | ⟨i, hpick, hi⟩
  · exact absurd ((reap_state_ready j).2 hj) (hno j)
  · simp only [hpick]
    exact h.threadReapDead.switchTo hi

/-- `thread_yield` when no thread is ready. -/
theorem threadYield_alone (hno : ∀ j, (σ.threads j).state ≠ .ready) :
    threadYield σ = threadReapDead σ := by
  unfold threadYield
  rcases pickNextReady_spec (threadReapDead σ) with ⟨hpick, -⟩ | ⟨i, -, hi⟩
  · simp only [hpick]
  · exact absurd ((reap_state_ready i).1 hi) (hno i)

theorem Orderly.threadYield (h : Orderly σ) : Orderly (Sched.threadYield σ) := by
  by_cases hr : ∃ j, (σ.threads j).state = .ready
  · exact h.toCalm.threadYield_ready hr
  · rw [threadYield_alone fun j hj => hr ⟨j, hj⟩]
    exact h.threadReapDead

theorem Orderly.reschedIf (h : Orderly σ) :
    Orderly (if ¬ σ.needResched then σ else Sched.threadYield { σ with needResched := false }) := by
  split
  · exact h
  · have h1 : Orderly { σ with needResched := false } := ⟨⟨h.alone, h.each⟩, h.code⟩
    exact h1.threadYield

theorem Orderly.threadCheckResched (h : Orderly σ) : Orderly (threadCheckResched σ) := by
  have h1 := h.threadReapDead
  unfold Sched.threadCheckResched
  generalize Sched.threadReapDead σ = ρ at h1
  have h2 : Orderly (threadWakeReady ρ).2 := by
    refine h1.of_each rfl (fun j => ?_) (fun j => ?_) fun j => ?_
    · simp only [threadWakeReady]
      split
      · next hd => simp [hd.1]
      · rfl
    · simp only [threadWakeReady]
      split <;> rfl
    · simp only [threadWakeReady]
      split
      · next hd => exact (h1.each j).due hd
      · exact h1.each j
  have h3 : ∀ need, Orderly { (threadWakeReady ρ).2 with needResched := need } :=
    fun need => ⟨⟨h2.alone, h2.each⟩, h2.code⟩
  have h4 : Orderly (if (threadWakeReady ρ).1 then
      { (threadWakeReady ρ).2 with needResched := true } else (threadWakeReady ρ).2) := by
    split
    · exact h3 true
    · exact h2
  exact h4.reschedIf

/-! ### Interrupts -/

theorem Orderly.tick (h : Orderly σ) :
    Orderly { threadRequestResched σ with now := σ.now + 1 } := by
  have hth : (threadRequestResched σ).threads = fun i =>
      if (σ.threads i).state = .ready ∧ (σ.threads i).waitTicks < 1000000 then
        { σ.threads i with waitTicks := (σ.threads i).waitTicks + 1 }
      else σ.threads i := by
    unfold threadRequestResched
    dsimp only
    split <;> rfl
  have hcur : (threadRequestResched σ).cur = σ.cur := by
    unfold threadRequestResched
    dsimp only
    split <;> rfl
  refine h.of_each hcur (fun j => ?_) (fun j => ?_) fun j => ?_
  · change ((threadRequestResched σ).threads j).state = _ ↔ _
    rw [hth]
    dsimp only
    split <;> rfl
  · change ((threadRequestResched σ).threads j).point = _
    rw [hth]
    dsimp only
    split <;> rfl
  · change TaskOk (σ.now + 1) ((threadRequestResched σ).threads j)
    rw [hth]
    dsimp only
    split
    · exact ((h.each j).mono (Nat.le_succ _)).congr rfl rfl rfl rfl
    · exact (h.each j).mono (Nat.le_succ _)

/-- A signal to some of the threads, as a key sends it. -/
theorem Orderly.signal (h : Orderly σ) {f : Task → Task} {p : Task → Prop} [DecidablePred p]
    (hst : ∀ t, (f t).state = t.state) (hpoint : ∀ t, (f t).point = t.point)
    (hok : ∀ t, TaskOk σ.now t → TaskOk σ.now (f t)) :
    Orderly { σ with
      threads := fun i => if p (σ.threads i) then wake (f (σ.threads i)) else σ.threads i } := by
  refine h.of_each rfl (fun j => ?_) (fun j => ?_) fun j => ?_
  · dsimp only
    split
    · rw [wake_running, hst]
    · rfl
  · dsimp only
    split
    · rw [wake_point, hpoint]
    · rfl
  · dsimp only
    split
    · exact (hok _ (h.each j)).wake
    · exact h.each j

theorem Orderly.irqHandler (h : Orderly σ) (timer : Bool) (key : Option Key) :
    Orderly (irqHandler σ timer key) := by
  have h1 : Orderly (if timer then { threadRequestResched σ with now := σ.now + 1 } else σ) := by
    cases timer with
    | true => exact h.tick
    | false => exact h
  unfold Sched.irqHandler
  generalize (if timer then { threadRequestResched σ with now := σ.now + 1 } else σ) = τ at h1
  cases key with
  | none => exact h1
  | some key =>
      cases key with
      | ctrlC =>
          exact h1.signal (f := fun t => { t with sigPending := sigInt }) (fun _ => rfl)
            (fun _ => rfl) fun _ ht => ht.congr rfl rfl rfl rfl
      | ctrlZ =>
          refine h1.signal
            (f := fun t => if t.sigPending = 0 then { t with sigPending := sigTstp } else t)
            (fun t => ?_) (fun t => ?_) fun t ht => ?_
          · split <;> rfl
          · split <;> rfl
          · split
            · exact ht.congr rfl rfl rfl rfl
            · exact ht

/-! ### What a thread does -/

/-- One thread changes without starting or stopping to run. -/
theorem Orderly.setTask (h : Orderly σ) {i : Fin 32} {t : Task}
    (hrun : t.state = .running ↔ (σ.threads i).state = .running)
    (hpoint : t.point = (σ.threads i).point) (hok : TaskOk σ.now t) : Orderly (σ.setTask i t) := by
  refine h.of_each rfl (fun j => ?_) (fun j => ?_) fun j => ?_
  · by_cases hj : j = i
    · rw [hj, σ.setTask_self]
      exact hrun
    · rw [σ.setTask_ne hj]
  · by_cases hj : j = i
    · rw [hj, σ.setTask_self]
      exact hpoint
    · rw [σ.setTask_ne hj]
  · by_cases hj : j = i
    · rw [hj, σ.setTask_self]
      exact hok
    · rw [σ.setTask_ne hj]
      exact h.each j

/-- A thread that does not run changes to another state in which it does not. -/
theorem Orderly.setOther (h : Orderly σ) {i : Fin 32} {t : Task} (hi : i ≠ σ.cur)
    (hst : t.state ≠ .running) (hok : TaskOk σ.now t) : Orderly (σ.setTask i t) := by
  refine ⟨h.toCalm.of_each rfl (fun j hr => ?_) fun j => ?_, ?_⟩
  · by_cases hj : j = i
    · rw [hj, σ.setTask_self] at hr
      exact absurd hr hst
    · rwa [σ.setTask_ne hj] at hr
  · by_cases hj : j = i
    · rw [hj, σ.setTask_self]
      exact hok
    · rw [σ.setTask_ne hj]
      exact h.each j
  · have hcur : (σ.setTask i t).current = σ.current := σ.setTask_ne (Ne.symm hi) t
    rw [hcur]
    exact h.code

theorem Orderly.threadSleepMs (h : Orderly σ) (hc : σ.current.point = .code) (ms : Nat) :
    Orderly (threadSleepMs σ ms) := by
  have hrun := h.code hc
  have hok : ∀ w, TaskOk σ.now
      { σ.current with
        wakeTick := w, state := .sleeping, point := .yielding, signalled := false } := fun w =>
    ⟨by simp, fun _ => (h.each σ.cur).going (Or.inr (Or.inl hrun)), by simp⟩
  have h1 := h.setCurrent (by simp) (by simp) (hok (σ.now + if Pmm.u64 (ms + 9) / 10 = 0 then 1
    else Pmm.u64 (ms + 9) / 10))
  exact ⟨⟨h1.alone, h1.each⟩, h1.code⟩

theorem Orderly.threadDoStop (h : Orderly σ) (hc : σ.current.point = .code) :
    Orderly (threadDoStop σ) := by
  have hrun := h.code hc
  refine h.setCurrent (by simp) (by simp) ⟨fun _ => ?_, by simp, by simp⟩
  exact (h.each σ.cur).awake (Or.inr (Or.inl hrun))

theorem Orderly.threadExit (h : Orderly σ) : Orderly (threadExit σ) := by
  refine h.setCurrent ?_ (by simp) (TaskOk.ended ?_)
  · dsimp only
    split <;> simp
  · dsimp only
    split <;> simp

theorem Orderly.threadCheckSignal (h : Orderly σ) (hc : σ.current.point = .code) :
    Orderly (threadCheckSignal σ) := by
  unfold Sched.threadCheckSignal
  dsimp only
  have h1 : Orderly (σ.setCurrent { σ.current with sigPending := 0 }) :=
    h.setTask Iff.rfl rfl ((h.each σ.cur).congr rfl rfl rfl rfl)
  have hc1 : (σ.setCurrent { σ.current with sigPending := 0 }).current.point = .code := by
    rw [σ.setCurrent_current]
    exact hc
  split
  · exact h
  · split
    · exact h1.threadDoStop hc1
    · exact h1.threadExit

theorem Orderly.threadKillByTid (h : Orderly σ) (tid sig : Nat) :
    Orderly (threadKillByTid σ tid sig) := by
  unfold Sched.threadKillByTid
  split
  · exact h
  · next i _ =>
      have hok : TaskOk σ.now (wake { σ.threads i with sigPending := sig }) :=
        TaskOk.wake ((h.each i).congr rfl rfl rfl rfl)
      dsimp only
      split
      · exact h.setTask (by rw [continued_running, wake_running]) (by rw [continued_point, wake_point])
          hok.continued
      · exact h.setTask (by rw [wake_running]) (by rw [wake_point]) hok

theorem Orderly.threadContByTid (h : Orderly σ) (tid : Nat) : Orderly (threadContByTid σ tid) := by
  unfold Sched.threadContByTid
  split
  · exact h
  · next i _ =>
      have hok := (h.each i).continued
      dsimp only
      split
      · exact h.setTask (continued_running (t := σ.threads i)) (continued_point (t := σ.threads i))
          (hok.congr rfl rfl rfl rfl)
      · exact h.setTask continued_running continued_point hok

/-- `thread_create` makes a ready thread in a slot that is not the current one. -/
theorem Orderly.threadCreate (h : Orderly σ) (hc : σ.current.point = .code)
    (memory forked : Bool) : Orderly (threadCreate σ memory forked) := by
  have hrun := h.code hc
  have h1 := h.threadReapDead
  have hcur1 := @reap_current σ
  have hdead : ∀ i ∈ slots, i ≠ σ.cur → ((Sched.threadReapDead σ).threads i).state ≠ .dead := by
    intro i hi hne
    have h0 : i ≠ 0 := by
      rintro rfl
      exact absurd hi (by decide)
    simp only [Sched.threadReapDead]
    split
    · simp [reaped]
    · next hnot => exact fun hd => hnot ⟨h0, hd, hne⟩
  unfold Sched.threadCreate
  have hρcur : (Sched.threadReapDead σ).cur = σ.cur := rfl
  generalize Sched.threadReapDead σ = ρ at *
  dsimp only
  split
  · exact h1
  · next i hfree =>
      have hmem := List.mem_of_find?_eq_some hfree
      have hst := List.find?_some hfree
      simp only [Bool.or_eq_true, decide_eq_true_eq] at hst
      have hne : i ≠ σ.cur := by
        rintro rfl
        have hs : (ρ.threads σ.cur).state = .running := by
          rw [← hρcur]
          exact (congrArg Task.state hcur1).trans hrun
        simp [hs] at hst
      have hunused := hst.resolve_right (hdead i hmem hne)
      split
      · exact h1
      · have h2 := h1.setOther (t := { ρ.threads i with
            state := .ready, prio := 1, tid := ρ.nextTid, waitTicks := 0, isUser := forked
            parentTid := if forked then ρ.current.tid else 0
            stopReported := false, point := .code, signalled := false, held := false })
          (by rwa [hρcur]) (by simp)
          ⟨fun _ => Or.inl ((h1.each i).fresh hunused), fun _ => rfl, by simp⟩
        exact ⟨⟨h2.alone, h2.each⟩, h2.code⟩

/-- Everything a thread does in its code. -/
theorem Orderly.codeStep (h : Orderly σ) (hc : σ.current.point = .code) (a : Act) :
    Orderly (codeStep σ a) := by
  cases a with
  | yield => exact h.threadYield
  | sleep ms => exact h.threadSleepMs hc ms
  | stop => exact h.threadDoStop hc
  | exit => exact h.threadExit
  | checkSignal => exact h.threadCheckSignal hc
  | checkResched => exact h.threadCheckResched
  | kill tid sig => exact h.threadKillByTid tid sig
  | cont tid => exact h.threadContByTid tid
  | create memory forked => exact h.threadCreate hc memory forked
  | goOn => exact h
  | irq timer key => exact h

end

end FiFi.Sched

/-!
## Only runnable threads run

`OnlyRunnable` is what should hold whenever a thread runs in its own code: it is
`T_RUNNING` and no other thread is, its last sleep is over, and it has not
stopped without being continued.

`thread_yield` returns at once when no thread is ready. A thread that sleeps or
stops then goes on in its code, although its state says that it sleeps or has
stopped. This is the only way in which `OnlyRunnable` is lost.
-/

namespace FiFi.Sched

open Thread StateMachine

/-- What should hold of the thread that runs. -/
structure OnlyRunnable (σ : Sched) : Prop where
  running : σ.current.point = .code → σ.current.state = .running
  alone : ∀ j, j ≠ σ.cur → (σ.threads j).state ≠ .running
  awake : σ.current.point = .code → σ.current.wakeTick ≤ σ.now ∨ σ.current.signalled = true
  going : σ.current.point = .code → σ.current.held = false

/-- A thread that sleeps or stops gives way: some thread is ready when it comes to
its `thread_yield`, unless the thread has been made `T_RUNNING` again before. -/
def GivesWay (σ : Sched) (a : Act) : Prop :=
  a = .goOn → σ.current.point = .yielding →
    σ.current.state = .running ∨ ∃ j, (σ.threads j).state = .ready

theorem Orderly.onlyRunnable {σ : Sched} (h : Orderly σ) : OnlyRunnable σ where
  running := h.code
  alone := h.alone
  awake := fun hp => (h.each σ.cur).awake (Or.inr (Or.inl (h.code hp)))
  going := fun hp => (h.each σ.cur).going (Or.inr (Or.inl (h.code hp)))

section

variable {σ : Sched}

/-! ### Steps and runs -/

theorem step_code (hc : σ.current.point = .code) {a : Act} (ha : ∀ timer key, a ≠ .irq timer key) :
    step σ a = codeStep σ a := by
  cases a with
  | irq timer key => exact absurd rfl (ha timer key)
  | _ => simp [step, hc]

/-- The thread comes to the `thread_yield` of `thread_sleep_ms` or
`thread_do_stop`. -/
theorem step_yielding (hp : σ.current.point = .yielding) :
    step σ .goOn = threadYield (σ.setCurrent { σ.current with point := .code }) := by
  simp [step, hp]

/-- The thread is on the way back to its code. -/
theorem Orderly.calm_back (h : Orderly σ) :
    Calm (σ.setCurrent { σ.current with point := .code }) := by
  refine h.toCalm.of_each rfl (fun j hr => ?_) fun j => ?_
  · by_cases hj : j = σ.cur
    · rw [hj, Sched.setCurrent, σ.setTask_self] at hr
      rw [hj]
      exact hr
    · rwa [Sched.setCurrent, σ.setTask_ne hj] at hr
  · by_cases hj : j = σ.cur
    · rw [hj, Sched.setCurrent, σ.setTask_self]
      exact (h.each σ.cur).congr rfl rfl rfl rfl
    · rw [Sched.setCurrent, σ.setTask_ne hj]
      exact h.each j

theorem back_state (j : Fin 32) :
    ((σ.setCurrent { σ.current with point := .code }).threads j).state = (σ.threads j).state := by
  by_cases hj : j = σ.cur
  · rw [hj, Sched.setCurrent, σ.setTask_self]
    rfl
  · rw [Sched.setCurrent, σ.setTask_ne hj]

/-- A step that gives way keeps the order. -/
theorem Orderly.step (h : Orderly σ) {a : Act} (hok : GivesWay σ a) : Orderly (step σ a) := by
  cases hp : σ.current.point with
  | code =>
      by_cases hirq : ∃ timer key, a = .irq timer key
      · obtain ⟨timer, key, rfl⟩ := hirq
        simp only [Sched.step]
        exact (h.irqHandler timer key).threadCheckResched
      · rw [step_code hp fun timer key heq => hirq ⟨timer, key, heq⟩]
        exact h.codeStep hp a
  | yielding =>
      cases a with
      | irq timer key =>
          simp only [Sched.step]
          exact (h.irqHandler timer key).threadCheckResched
      | goOn =>
          rw [step_yielding hp]
          by_cases hr : ∃ j, (σ.threads j).state = .ready
          · obtain ⟨j, hj⟩ := hr
            exact h.calm_back.threadYield_ready ⟨j, (back_state j).trans hj⟩
          · have hrun := (hok rfl hp).resolve_right hr
            refine Orderly.threadYield ⟨h.calm_back, fun _ => ?_⟩
            rw [σ.setCurrent_current]
            exact hrun
      | _ =>
          simp only [Sched.step, hp]
          exact h
  | ended =>
      cases a with
      | irq timer key =>
          simp only [Sched.step]
          exact (h.irqHandler timer key).threadCheckResched
      | goOn =>
          simp only [Sched.step, hp]
          exact h.threadYield
      | _ =>
          simp only [Sched.step, hp]
          exact h

/-- A step that does not give way ends with a thread in its code that is not
`T_RUNNING`. -/
theorem not_onlyRunnable_step {a : Act} (hbad : ¬ GivesWay σ a) : ¬ OnlyRunnable (step σ a) := by
  unfold GivesWay at hbad
  push Not at hbad
  obtain ⟨rfl, hp, hrun, hno⟩ := hbad
  rw [step_yielding hp, threadYield_alone fun j => by rw [back_state j]; exact hno j]
  intro h
  have hstate := h.running
  rw [reap_current, σ.setCurrent_current] at hstate
  exact hrun (hstate rfl)

end

/-- In every run from a state in order: every state of the run is as it should be
if and only if every thread that sleeps or stops gives way. -/
theorem onlyRunnable_run_iff {σ : Sched} (h : Orderly σ) (acts : List Act) :
    (∀ pre, pre <+: acts → OnlyRunnable (run step σ pre)) ↔ AllSteps step GivesWay σ acts := by
  induction acts generalizing σ with
  | nil =>
      refine iff_of_true (fun pre hpre => ?_) trivial
      rw [List.prefix_nil.1 hpre]
      exact h.onlyRunnable
  | cons a acts ih =>
      rw [allSteps_cons]
      constructor
      · intro hall
        have hok : GivesWay σ a := by
          by_contra hbad
          exact not_onlyRunnable_step hbad (hall [a] (List.prefix_iff_eq_append.2 rfl))
        refine ⟨hok, (ih (h.step hok)).1 fun pre hpre => ?_⟩
        exact hall (a :: pre) (List.cons_prefix_cons.2 ⟨rfl, hpre⟩)
      · rintro ⟨hok, hrest⟩ pre hpre
        cases pre with
        | nil => exact h.onlyRunnable
        | cons b pre =>
            obtain ⟨rfl, htail⟩ := List.cons_prefix_cons.1 hpre
            exact (ih (h.step hok)).2 hrest pre htail

/-! ### From the start -/

theorem boot_orderly : Orderly boot := by
  refine ⟨⟨fun j hj => ?_, fun j => ⟨fun _ => Or.inl (Nat.zero_le _), fun _ => rfl,
    fun _ => Nat.zero_le _⟩⟩, fun _ => rfl⟩
  have h0 : j ≠ 0 := hj
  simp [boot, h0]

/-- A second thread is there when the main thread sleeps. -/
theorem onlyRunnable_run_boot :
    OnlyRunnable (run step boot [.create true false, .sleep 100, .goOn]) := by
  refine (onlyRunnable_run_iff boot_orderly [.create true false, .sleep 100, .goOn]).2 ?_ _
    List.prefix_rfl
  refine ⟨by simp [GivesWay], by simp [GivesWay], fun _ _ => Or.inr ⟨1, ?_⟩, trivial⟩
  decide

/-- The main thread is alone and sleeps for a second. It goes on at once. -/
theorem not_onlyRunnable_boot :
    Orderly boot ∧ ¬ OnlyRunnable (run step boot [.sleep 1000, .goOn]) ∧
      (run step boot [.sleep 1000, .goOn]).current.point = .code ∧
      (run step boot [.sleep 1000, .goOn]).current.state = .sleeping ∧
      (run step boot [.sleep 1000, .goOn]).now <
        (run step boot [.sleep 1000, .goOn]).current.wakeTick := by
  have heval : (run step boot [.sleep 1000, .goOn]).current.point = .code ∧
      (run step boot [.sleep 1000, .goOn]).current.state = .sleeping ∧
      (run step boot [.sleep 1000, .goOn]).now <
        (run step boot [.sleep 1000, .goOn]).current.wakeTick := by
    decide
  refine ⟨boot_orderly, fun h => ?_, heval⟩
  have hrun := h.running heval.1
  rw [heval.2.1] at hrun
  exact absurd hrun (by simp)

end FiFi.Sched
