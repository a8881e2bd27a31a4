import FiFi.Thread.Table

/-!
# The scheduler

The part of `thread.c` that decides which thread runs, with the interrupts that
drive it. Every interrupt ends with `thread_check_resched`, in the thread that it
interrupted.

A thread is in its own code, or somewhere in the kernel: `thread_sleep_ms` and
`thread_do_stop` first change the state of the thread, with interrupts off, then
allow interrupts and call `thread_yield`. An interrupt between the two finds a
thread that still runs but is no longer `T_RUNNING`. A thread that is switched
away at its own `thread_yield` goes on in its code, one that is switched away by
an interrupt goes on where it was interrupted. A thread that has ended calls
`thread_yield` for ever.

The counter of ticks does not wrap in the lifetime of a machine and is a natural
number. Two fields of a thread are not in the kernel and nothing reads them:
`signalled` tells that a signal ended the last sleep, and `held` that the thread
has stopped and has not been continued.
-/

namespace FiFi.Sched

open Pmm Thread

def sigInt : Nat := 2
def sigCont : Nat := 18
def sigTstp : Nat := 19

/-- Where a thread goes on: in its own code, at the `thread_yield` of
`thread_sleep_ms` or `thread_do_stop`, or in the loop of `thread_exit`. -/
inductive Point
  | code
  | yielding
  | ended
  deriving DecidableEq, Repr

/-- `thread_t`. -/
structure Task where
  state : TState
  prio : Nat
  tid : Nat
  parentTid : Nat
  isUser : Bool
  waitTicks : Nat
  wakeTick : Nat
  sigPending : Nat
  stopReported : Bool
  point : Point
  signalled : Bool
  held : Bool
  deriving DecidableEq, Repr

structure Sched where
  threads : Fin 32 → Task
  cur : Fin 32
  now : Nat
  needResched : Bool
  sliceLeft : Nat
  timeslice : Nat
  preempt : Bool
  aging : Bool
  nextTid : Nat

def Sched.current (σ : Sched) : Task := σ.threads σ.cur

def Sched.setTask (σ : Sched) (i : Fin 32) (t : Task) : Sched :=
  { σ with threads := Function.update σ.threads i t }

def Sched.setCurrent (σ : Sched) (t : Task) : Sched := σ.setTask σ.cur t

@[simp] theorem Sched.setTask_self (σ : Sched) (i : Fin 32) (t : Task) :
    (σ.setTask i t).threads i = t := by simp [Sched.setTask]

theorem Sched.setTask_ne (σ : Sched) {i j : Fin 32} (h : j ≠ i) (t : Task) :
    (σ.setTask i t).threads j = σ.threads j := by simp [Sched.setTask, h]

@[simp] theorem Sched.setCurrent_current (σ : Sched) (t : Task) : (σ.setCurrent t).current = t :=
  σ.setTask_self σ.cur t

/-! ### Who is next -/

/-- `eff_prio`: a thread that has been ready for long is preferred. -/
def effPrio (σ : Sched) (t : Task) : Nat :=
  if σ.aging then t.prio + min (t.waitTicks / 10) 3 else t.prio

/-- One turn of the loop of `highest_ready_eff_prio`. -/
def higherReady (σ : Sched) (best : Int) (i : Fin 32) : Int :=
  let t := σ.threads i
  if t.state = .ready ∧ best < effPrio σ t then effPrio σ t else best

/-- `highest_ready_eff_prio`, `-1` when no thread is ready. -/
def highestReadyEffPrio (σ : Sched) : Int := (List.finRange 32).foldl (higherReady σ) (-1)

/-- The slot `step` places behind the current one. -/
def slotAfter (cur : Fin 32) (step : Nat) : Fin 32 := ⟨(cur + step) % 32, Nat.mod_lt _ (by decide)⟩

/-- `pick_next_ready`. -/
def pickNextReady (σ : Sched) : Option (Fin 32) :=
  let best := highestReadyEffPrio σ
  if best < 0 then none
  else
    ((List.range' 1 32).map (slotAfter σ.cur)).find? fun i =>
      (σ.threads i).state = .ready && (effPrio σ (σ.threads i) : Int) = best

/-! ### Switching -/

/-- What `thread_reap_dead` writes to a slot. The pending signal stays. -/
def reaped (t : Task) : Task :=
  { t with
    state := .unused, tid := 0, prio := 0, waitTicks := 0, wakeTick := 0, isUser := false
    parentTid := 0 }

/-- `thread_reap_dead`. The turns of its loop do not depend on each other. -/
def threadReapDead (σ : Sched) : Sched :=
  { σ with
    threads := fun i =>
      if i ≠ 0 ∧ (σ.threads i).state = .dead ∧ i ≠ σ.cur then reaped (σ.threads i)
      else σ.threads i }

/-- The switch at the end of `thread_yield`. -/
def switchTo (σ : Sched) (next : Fin 32) : Sched :=
  let prev := σ.current
  let σ := if prev.state = .running then σ.setCurrent { prev with state := .ready } else σ
  let σ := σ.setTask next { σ.threads next with state := .running, waitTicks := 0 }
  { σ with cur := next, sliceLeft := σ.timeslice }

/-- `thread_yield`. When nobody is ready the thread goes on. -/
def threadYield (σ : Sched) : Sched :=
  let σ := threadReapDead σ
  match pickNextReady σ with
  | none => σ
  | some next => switchTo σ next

/-- Whether `thread_wake_ready` wakes a thread. -/
def Due (now : Nat) (t : Task) : Prop := t.state = .sleeping ∧ t.wakeTick ≤ now

instance (now : Nat) (t : Task) : Decidable (Due now t) := inferInstanceAs (Decidable (_ ∧ _))

/-- `thread_wake_ready`. -/
def threadWakeReady (σ : Sched) : Bool × Sched :=
  ((List.finRange 32).any fun i => decide (Due σ.now (σ.threads i)),
    { σ with
      threads := fun i =>
        if Due σ.now (σ.threads i) then { σ.threads i with state := .ready } else σ.threads i })

/-- `thread_check_resched`. -/
def threadCheckResched (σ : Sched) : Sched :=
  let σ := threadReapDead σ
  let r := threadWakeReady σ
  let σ := if r.1 then { r.2 with needResched := true } else r.2
  if ¬ σ.needResched then σ else threadYield { σ with needResched := false }

/-- `thread_request_resched`, on a tick of the timer. -/
def threadRequestResched (σ : Sched) : Sched :=
  let σ :=
    { σ with
      threads := fun i =>
        let t := σ.threads i
        if t.state = .ready ∧ t.waitTicks < 1000000 then { t with waitTicks := t.waitTicks + 1 }
        else t
      sliceLeft := σ.sliceLeft - 1 }
  if σ.sliceLeft = 0 then
    { σ with sliceLeft := σ.timeslice, needResched := σ.needResched || σ.preempt }
  else σ

/-! ### Giving up the processor -/

/-- `thread_sleep_ms` up to its `thread_yield`. -/
def threadSleepMs (σ : Sched) (ms : Nat) : Sched :=
  let ticks := u64 (ms + 9) / 10
  let ticks := if ticks = 0 then 1 else ticks
  { σ.setCurrent
      { σ.current with
        wakeTick := σ.now + ticks, state := .sleeping, point := .yielding, signalled := false } with
    needResched := true }

/-- `thread_do_stop` up to its `thread_yield`. -/
def threadDoStop (σ : Sched) : Sched :=
  σ.setCurrent { σ.current with state := .stopped, point := .yielding, held := true }

/-- A thread that is neither unused nor has ended. -/
def Live (t : Task) : Prop := t.state ≠ .unused ∧ t.state ≠ .dead ∧ t.state ≠ .zombie

instance (t : Task) : Decidable (Live t) := inferInstanceAs (Decidable (_ ∧ _))

/-- Whether the parent of a thread is there to collect its exit status. -/
def goZombie (σ : Sched) (t : Task) : Bool :=
  t.parentTid ≠ 0 && (List.finRange 32).any fun i =>
    (σ.threads i).tid = t.parentTid && decide (Live (σ.threads i))

/-- `thread_exit` up to its loop. -/
def threadExit (σ : Sched) : Sched :=
  σ.setCurrent
    { σ.current with
      state := if goZombie σ σ.current then .zombie else .dead
      point := .ended }

/-! ### Signals -/

/-- A thread that a signal from the keyboard goes to. -/
def Signalable (t : Task) : Prop := Live t ∧ t.isUser ∧ t.parentTid ≠ 0

instance (t : Task) : Decidable (Signalable t) := inferInstanceAs (Decidable (_ ∧ _))

/-- A signal ends a sleep. -/
def wake (t : Task) : Task :=
  if t.state = .sleeping then { t with state := .ready, signalled := true } else t

/-- A stopped thread goes on. -/
def continued (t : Task) : Task :=
  if t.state = .stopped then { t with state := .ready, stopReported := false, held := false } else t

/-- `thread_signal_children`. -/
def threadSignalChildren (σ : Sched) : Sched :=
  { σ with
    threads := fun i =>
      let t := σ.threads i
      if Signalable t then wake { t with sigPending := sigInt } else t }

/-- `thread_sigtstp_children`. -/
def threadSigtstpChildren (σ : Sched) : Sched :=
  { σ with
    threads := fun i =>
      let t := σ.threads i
      if Signalable t then
        wake (if t.sigPending = 0 then { t with sigPending := sigTstp } else t)
      else t }

/-- `thread_kill_by_tid`. -/
def threadKillByTid (σ : Sched) (tid sig : Nat) : Sched :=
  match (List.finRange 32).find? fun i =>
      (σ.threads i).tid = tid && (σ.threads i).state ≠ .unused && (σ.threads i).state ≠ .dead with
  | none => σ
  | some i =>
      let t := wake { σ.threads i with sigPending := sig }
      σ.setTask i (if sig = sigCont then continued t else t)

/-- `thread_cont_by_tid`. -/
def threadContByTid (σ : Sched) (tid : Nat) : Sched :=
  match (List.finRange 32).find? fun i => (σ.threads i).tid = tid with
  | none => σ
  | some i =>
      let t := continued (σ.threads i)
      σ.setTask i (if t.sigPending = sigTstp then { t with sigPending := 0 } else t)

/-- `thread_check_signal` up to the `thread_yield` it may come to. -/
def threadCheckSignal (σ : Sched) : Sched :=
  let sig := σ.current.sigPending
  if sig = 0 then σ
  else
    let σ := σ.setCurrent { σ.current with sigPending := 0 }
    if sig = sigTstp then threadDoStop σ else threadExit σ

/-! ### New threads -/

/-- `find_free_slot`. -/
def findFreeSlot (σ : Sched) : Option (Fin 32) :=
  slots.find? fun i => (σ.threads i).state = .unused || (σ.threads i).state = .dead

/-- `thread_create`, if there is memory for the stack. `wake_tick` and the pending
signal stay. In a child of `fork` the rest of `do_fork` sets two fields more. -/
def threadCreate (σ : Sched) (memory forked : Bool) : Sched :=
  let σ := threadReapDead σ
  match findFreeSlot σ with
  | none => σ
  | some i =>
      if ¬ memory then σ
      else
        { σ.setTask i
            { σ.threads i with
              state := .ready, prio := 1, tid := σ.nextTid, waitTicks := 0, isUser := forked
              parentTid := if forked then σ.current.tid else 0
              stopReported := false, point := .code, signalled := false, held := false } with
          nextTid := σ.nextTid + 1 }

/-! ### Steps -/

/-- A key with a signal. -/
inductive Key
  | ctrlC
  | ctrlZ
  deriving DecidableEq, Repr

/-- What happens next. The thread that runs does something, goes on inside
`thread_sleep_ms`, `thread_do_stop` or `thread_exit`, or is interrupted by the
timer or the keyboard. -/
inductive Act
  | yield
  | sleep (ms : Nat)
  | stop
  | exit
  | checkSignal
  | checkResched
  | kill (tid sig : Nat)
  | cont (tid : Nat)
  | create (memory forked : Bool)
  | goOn
  | irq (timer : Bool) (key : Option Key)
  deriving DecidableEq, Repr

/-- What an interrupt does before it comes to `thread_check_resched`. -/
def irqHandler (σ : Sched) (timer : Bool) (key : Option Key) : Sched :=
  let σ := if timer then { threadRequestResched σ with now := σ.now + 1 } else σ
  match key with
  | none => σ
  | some .ctrlC => threadSignalChildren σ
  | some .ctrlZ => threadSigtstpChildren σ

/-- What the thread that runs does in its own code. -/
def codeStep (σ : Sched) : Act → Sched
  | .yield => threadYield σ
  | .sleep ms => threadSleepMs σ ms
  | .stop => threadDoStop σ
  | .exit => threadExit σ
  | .checkSignal => threadCheckSignal σ
  | .checkResched => threadCheckResched σ
  | .kill tid sig => threadKillByTid σ tid sig
  | .cont tid => threadContByTid σ tid
  | .create memory forked => threadCreate σ memory forked
  | .goOn => σ
  | .irq _ _ => σ

/-- One step. What cannot happen changes nothing. -/
def step (σ : Sched) (a : Act) : Sched :=
  match a, σ.current.point with
  | .irq timer key, _ => threadCheckResched (irqHandler σ timer key)
  | .goOn, .yielding => threadYield (σ.setCurrent { σ.current with point := .code })
  | .goOn, .ended => threadYield σ
  | _, .code => codeStep σ a
  | _, _ => σ

/-- The state after `thread_init`. -/
def boot : Sched where
  threads := fun i =>
    { state := if i = 0 then .running else .unused, prio := if i = 0 then 1 else 0
      tid := if i = 0 then 1 else 0, parentTid := 0, isUser := false, waitTicks := 0, wakeTick := 0
      sigPending := 0, stopReported := false, point := .code, signalled := false, held := false }
  cur := 0
  now := 0
  needResched := false
  sliceLeft := 3
  timeslice := 3
  preempt := true
  aging := true
  nextTid := 2

end FiFi.Sched
