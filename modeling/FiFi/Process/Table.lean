import FiFi.Fd.Table
import FiFi.Thread.Table

/-!
# Processes: system calls, signals and waiting

The part of `thread.c` and `syscall.c` that decides when a thread dies, stops or
goes on. A thread is outside the kernel or in a system call; a thread that was
switched away inside a call has a place where it goes on. Signals are looked at
in three places: `thread_check_signal` runs when a call is entered and after
each sleep of a call that blocks, and the end of `syscall_dispatch` delivers a
signal on the return to user mode. Only the calls whose case leaves the switch
with `break` come to that end.

What other parts of the kernel decide comes with the step: which ready thread
is picked, whether a blocking call has got what it waits for, whether there is
memory for a child, whether the user stack can be written.

Two logs are kept that the kernel does not have: what each delivery of a signal
did, and each status that a waiting parent was given. The field `fate` of a
thread is not in the kernel either. Nothing reads them.
-/

namespace FiFi.Process

open Fd Thread

def sigCont : Nat := 18
def sigTstp : Nat := 19

/-- What happened to a thread. -/
inductive Fate
  | alive
  | exited (code : Int)
  | signaled (sig : Nat)
  deriving DecidableEq, Repr

/-- The descriptor calls, apart from those that make or end a process. -/
inductive FdOp
  | pipe (copyout : Bool)
  | dup (old : Int)
  | dup2 (old new : Int)
  | close (n : Int)
  | open (data size : Nat)
  | openNull
  | creat (rf : RamId)
  deriving DecidableEq, Repr

def FdOp.call (tid : Nat) : FdOp → FdCall
  | .pipe copyout => .pipe tid true copyout
  | .dup old => .dup tid old
  | .dup2 old new => .dup2 tid true old new
  | .close n => .close tid true n
  | .open data size => .open tid data size
  | .openNull => .openNull tid
  | .creat rf => .creat tid rf

/-- System calls. `wait` is `SYS_WAITPID` and `SYS_WAITFLAGS` with the attempts
that are left, `block` a call that waits for a pipe or a key, `leaves` one of
`SYS_EXEC` and `SYS_BRK`, and `other` a call that has no part in this. -/
inductive Call
  | signal (sig : Int) (handler : Nat)
  | kill (tid : Nat) (sig : Int)
  | exit (rdi : Nat)
  | fork
  | wait (child : Option Nat) (untraced nohang : Bool) (attempts : Nat)
  | fds (op : FdOp)
  | sleep
  | yield
  | block
  | leaves
  | other
  deriving DecidableEq, Repr

/-- Where a thread goes on: outside the kernel, at the switch of a call or the
next turn of its loop, after the sleep of a loop, or at the return of a call. -/
inductive Place
  | user
  | body (c : Call)
  | check (c : Call)
  | leave
  deriving DecidableEq, Repr

/-- `thread_t`. -/
structure Task where
  state : TState
  tid : Nat
  parentTid : Nat
  isUser : Bool
  exitCode : Int
  sigPending : Nat
  sigHandlers : Nat → Nat
  stopReported : Bool
  place : Place
  fate : Fate

/-- What the delivery of a signal did. -/
inductive Outcome
  | terminated
  | stopped
  | handled
  | discarded
  deriving DecidableEq, Repr

/-- A delivery: the signal, the disposition it had and whether the user stack
could be written. -/
structure Delivery where
  sig : Nat
  handler : Nat
  access : Bool
  outcome : Outcome
  deriving DecidableEq, Repr

/-- What a parent is told of. -/
inductive Event
  | ended (f : Fate)
  | stopped
  deriving DecidableEq, Repr

/-- A status that was given to a parent, and what had happened to the child. -/
structure Handed where
  child : Nat
  status : Int
  event : Event
  deriving DecidableEq, Repr

structure Kernel (V : Type*) where
  threads : Fin 32 → Task
  cur : Fin 32
  nextTid : Nat
  tables : Tables V
  delivered : List Delivery
  handed : List Handed

variable {V : Type*}

def Kernel.current (k : Kernel V) : Task := k.threads k.cur

def Kernel.setTask (k : Kernel V) (i : Fin 32) (t : Task) : Kernel V :=
  { k with threads := Function.update k.threads i t }

def Kernel.setCurrent (k : Kernel V) (t : Task) : Kernel V := k.setTask k.cur t

/-- What decides a step from outside. -/
structure Env where
  pick : Option (Fin 32)
  done : Bool
  access : Bool
  memory : Bool
  deriving DecidableEq, Repr

/-! ### The thread table -/

/-- A thread that is neither unused nor has ended. -/
def Live (t : Task) : Prop := t.state ≠ .unused ∧ t.state ≠ .dead ∧ t.state ≠ .zombie

instance (t : Task) : Decidable (Live t) := inferInstanceAs (Decidable (_ ∧ _))

/-- One turn of the loop of `thread_reap_dead`. The pending signal and the
dispositions stay. -/
def reapSlot (k : Kernel V) (i : Fin 32) : Kernel V :=
  let t := k.threads i
  if t.state ≠ .dead then k
  else if i = k.cur then k
  else
    k.setTask i
      { t with state := .unused, tid := 0, isUser := false, parentTid := 0, exitCode := 0 }

def threadReapDead (k : Kernel V) : Kernel V := slots.foldl reapSlot k

/-- The switch at the end of `thread_yield`. -/
def switchTo (k : Kernel V) (next : Fin 32) : Kernel V :=
  let prev := k.current
  let k := if prev.state = .running then k.setCurrent { prev with state := .ready } else k
  let k := k.setTask next { k.threads next with state := .running }
  { k with cur := next }

/-- `thread_yield`. The thread that is picked is ready; nobody is picked when no
thread is, and then the current thread goes on. -/
def threadYield (k : Kernel V) (pick : Option (Fin 32)) : Option (Kernel V) :=
  let k := threadReapDead k
  match pick with
  | none => if ∀ i, (k.threads i).state ≠ .ready then some k else none
  | some i => if (k.threads i).state = .ready then some (switchTo k i) else none

/-- Whether the parent of a thread is there to collect its exit status. -/
def goZombie (k : Kernel V) (t : Task) : Bool :=
  t.parentTid ≠ 0 && (List.finRange 32).any fun i =>
    (k.threads i).tid = t.parentTid && decide (Live (k.threads i))

/-- `thread_exit` up to its loop. It does not look at the descriptors. -/
def exitCurrent (k : Kernel V) (code : Int) (fate : Fate) : Kernel V :=
  let t := k.current
  k.setCurrent
    { t with
      exitCode := code
      fate := fate
      state := if goZombie k t then .zombie else .dead }

/-- `thread_kill`. -/
def threadKill (k : Kernel V) (slot : Fin 32) (pick : Option (Fin 32)) : Option (Kernel V) :=
  let t := k.threads slot
  if slot = 0 then some k
  else if t.state = .unused then some k
  else if t.state = .dead then some k
  else
    let k := k.setTask slot { t with state := .dead }
    if slot = k.cur then threadYield k pick else some k

def findFreeSlot (k : Kernel V) : Option (Fin 32) :=
  slots.find? fun i => (k.threads i).state = .unused || (k.threads i).state = .dead

/-- What `thread_create` writes to a slot. The pending signal stays. -/
def newTask (t : Task) (tid : Nat) : Task :=
  { t with
    state := .ready, tid := tid, parentTid := 0, isUser := false, exitCode := 0
    sigHandlers := fun _ => 0, stopReported := false, place := .user, fate := .alive }

/-- `thread_create`, if there is memory for the stack. -/
def threadCreate (k : Kernel V) (memory : Bool) : Option (Fin 32) × Kernel V :=
  let k := threadReapDead k
  match findFreeSlot k with
  | none => (none, k)
  | some i =>
      if ¬ memory then (none, k)
      else
        let k := k.setTask i (newTask (k.threads i) k.nextTid)
        (some i, { k with nextTid := k.nextTid + 1 })

/-- `do_fork` and the inheritance of the descriptors. -/
def doFork (k : Kernel V) (memory : Bool) : Kernel V :=
  match threadCreate k memory with
  | (none, k) => k
  | (some i, k) =>
      let parent := k.current
      let k := k.setTask i
        { k.threads i with
          parentTid := parent.tid, isUser := true, sigHandlers := parent.sigHandlers }
      { k with tables := fdForkInherit k.tables parent.tid (k.threads i).tid }

/-! ### Signals -/

/-- A thread that a signal from the keyboard goes to. -/
def Signalable (t : Task) : Prop := Live t ∧ t.isUser ∧ t.parentTid ≠ 0

instance (t : Task) : Decidable (Signalable t) := inferInstanceAs (Decidable (_ ∧ _))

def wake (t : Task) : Task := if t.state = .sleeping then { t with state := .ready } else t

/-- `thread_signal_children`. -/
def signalChildren (k : Kernel V) : Kernel V :=
  { k with
    threads := fun i =>
      let t := k.threads i
      if Signalable t then wake { t with sigPending := 2 } else t }

/-- `thread_sigtstp_children`. -/
def sigtstpChildren (k : Kernel V) : Kernel V :=
  { k with
    threads := fun i =>
      let t := k.threads i
      if Signalable t then
        wake (if t.sigPending = 0 then { t with sigPending := sigTstp } else t)
      else t }

/-- The thread that `thread_kill_by_tid` finds. -/
def findTid (k : Kernel V) (tid : Nat) : Option (Fin 32) :=
  (List.finRange 32).find? fun i =>
    (k.threads i).tid = tid && (k.threads i).state ≠ .unused && (k.threads i).state ≠ .dead

/-- `thread_kill_by_tid`. -/
def killByTid (k : Kernel V) (tid sig : Nat) : Kernel V :=
  match findTid k tid with
  | none => k
  | some i =>
      let t := wake { k.threads i with sigPending := sig }
      let t :=
        if sig = sigCont ∧ t.state = .stopped then { t with state := .ready, stopReported := false }
        else t
      k.setTask i t

/-- `thread_do_stop` up to its yield. -/
def doStop (k : Kernel V) : Kernel V := k.setCurrent { k.current with state := .stopped }

/-- Whether the thread goes on after a signal was looked at. -/
inductive Flow
  | go
  | stop
  | exit
  deriving DecidableEq, Repr

/-- The pending signal is taken and what its delivery does is noted. -/
def takePendingSig (k : Kernel V) (access : Bool) (outcome : Outcome) : Kernel V :=
  let t := k.current
  { k.setCurrent { t with sigPending := 0 } with
    delivered := k.delivered ++ [⟨t.sigPending, t.sigHandlers t.sigPending, access, outcome⟩] }

/-- `thread_check_signal`. The disposition is not looked at. -/
def checkSignal (k : Kernel V) (access : Bool) : Kernel V × Flow :=
  let sig := k.current.sigPending
  if sig = 0 then (k, .go)
  else if sig = sigTstp then (doStop (takePendingSig k access .stopped), .stop)
  else (exitCurrent (takePendingSig k access .terminated) (128 + sig) (.signaled sig), .exit)

/-- The end of `syscall_dispatch`: a signal is delivered on the return to user
mode. A handler whose frame cannot be pushed is passed over. -/
def deliverOnReturn (k : Kernel V) (access : Bool) : Kernel V × Flow :=
  let sig := k.current.sigPending
  let handler := k.current.sigHandlers sig
  if sig = 0 then (k, .go)
  else if handler = 1 then (takePendingSig k access .discarded, .go)
  else if 1 < handler then
    (takePendingSig k access (if access then .handled else .discarded), .go)
  else if sig = sigTstp then (doStop (takePendingSig k access .stopped), .stop)
  else if sig = sigCont then (takePendingSig k access .discarded, .go)
  else (exitCurrent (takePendingSig k access .terminated) (128 + sig) (.signaled sig), .exit)

/-! ### Waiting -/

/-- A child that a parent waits for. -/
def matchesChild (parent : Nat) (child : Option Nat) (t : Task) : Bool :=
  t.parentTid = parent && child.all fun c => t.tid = c

/-- What `thread_reap_zombie_child` finds. -/
inductive Reaped
  | child (i : Fin 32)
  | running
  | none
  deriving DecidableEq, Repr

def findZombie (k : Kernel V) (parent : Nat) (child : Option Nat) : Reaped :=
  match (List.finRange 32).find? fun i =>
      matchesChild parent child (k.threads i) && (k.threads i).state = .zombie with
  | some i => .child i
  | none =>
      if (List.finRange 32).any fun i =>
          matchesChild parent child (k.threads i) && (k.threads i).state ≠ .unused then
        .running
      else .none

/-- `thread_check_stopped_child`: the stopped child that has not been reported. -/
def findStopped (k : Kernel V) (parent : Nat) (child : Option Nat) : Option (Fin 32) :=
  (List.finRange 32).find? fun i =>
    matchesChild parent child (k.threads i) && (k.threads i).state = .stopped &&
      !(k.threads i).stopReported

/-- The status of a stopped child. -/
def stopStatus : Int := 19 * 256 + 0x7F

/-- A status is handed to the parent. -/
def hand (k : Kernel V) (i : Fin 32) (status : Int) (event : Event) : Kernel V :=
  { k with handed := k.handed ++ [⟨(k.threads i).tid, status, event⟩] }

/-! ### System calls -/

/-- The value of an `int` made from a register. -/
def toInt32 (x : Nat) : Int := Int.bmod (x % 2 ^ 32) (2 ^ 32)

/-- The call is over. -/
def backToUser (k : Kernel V) : Kernel V := k.setCurrent { k.current with place := .user }

/-- The thread is switched away and goes on at `p`. -/
def away (k : Kernel V) (p : Place) (pick : Option (Fin 32)) : Option (Kernel V) :=
  threadYield (k.setCurrent { k.current with place := p }) pick

/-- `thread_sleep_ms`. -/
def sleepAt (k : Kernel V) (p : Place) (pick : Option (Fin 32)) : Option (Kernel V) :=
  away (k.setCurrent { k.current with state := .sleeping }) p pick

/-- Go on after a signal was looked at: with `next`, or where the thread stops
with `p` as its place. -/
def after (q : Kernel V × Flow) (p : Place) (pick : Option (Fin 32))
    (next : Kernel V → Option (Kernel V)) : Option (Kernel V) :=
  match q.2 with
  | .go => next q.1
  | .stop => away q.1 p pick
  | .exit => threadYield q.1 pick

/-- The return of a call that leaves the switch with `break`. -/
def leaveCall (k : Kernel V) (e : Env) : Option (Kernel V) :=
  after (deliverOnReturn k e.access) .leave e.pick fun k => some (backToUser k)

/-- What a parent finds in one attempt of `SYS_WAITPID` and `SYS_WAITFLAGS`; `none`
when its children are running. -/
def waitAttempt (k : Kernel V) (child : Option Nat) (untraced : Bool) : Option (Kernel V) :=
  match findZombie k k.current.tid child with
  | .child i =>
      let t := k.threads i
      some ((hand k i t.exitCode (.ended t.fate)).setTask i { t with state := .dead })
  | .none => some k
  | .running =>
      match if untraced then findStopped k k.current.tid child else none with
      | some i =>
          some ((hand k i stopStatus .stopped).setTask i { k.threads i with stopReported := true })
      | none => none

/-- A turn of the loop of the two calls, with the attempts that are left. -/
def waitTurn (k : Kernel V) (child : Option Nat) (untraced nohang : Bool) (attempts : Nat)
    (pick : Option (Fin 32)) : Option (Kernel V) :=
  if attempts = 0 then some (backToUser k)
  else
    match waitAttempt k child untraced with
    | some k => some (backToUser k)
    | none =>
        if nohang then some (backToUser k)
        else sleepAt k (.check (.wait child untraced nohang (attempts - 1))) pick

section Calls

variable (flush : RamId → V → V)

/-- The switch of `syscall_dispatch`, and the turns of the loops in it. -/
def callBody (k : Kernel V) (c : Call) (e : Env) : Option (Kernel V) :=
  match c with
  | .signal sig handler =>
      if sig < 1 ∨ 32 ≤ sig then some (backToUser k)
      else
        let t := k.current
        some (backToUser (k.setCurrent
          { t with sigHandlers := Function.update t.sigHandlers sig.toNat handler }))
  | .kill tid sig =>
      if sig < 0 ∨ 32 ≤ sig then some (backToUser k)
      else some (backToUser (killByTid k tid sig.toNat))
  | .exit rdi =>
      let k := { k with tables := fdCloseAll flush k.tables k.current.tid }
      threadYield (exitCurrent k (toInt32 rdi) (.exited (toInt32 rdi))) e.pick
  | .fork => leaveCall (doFork k e.memory) e
  | .wait child untraced nohang attempts => waitTurn k child untraced nohang attempts e.pick
  | .fds op => some (backToUser { k with tables := fdStep flush k.tables (op.call k.current.tid) })
  | .sleep => sleepAt k .user e.pick
  | .yield => away k .user e.pick
  | .block => if e.done then some (backToUser k) else sleepAt k (.check .block) e.pick
  | .leaves => leaveCall k e
  | .other => some (backToUser k)

/-- `syscall_dispatch`. -/
def syscallDispatch (k : Kernel V) (c : Call) (e : Env) : Option (Kernel V) :=
  after (checkSignal k e.access) (.body c) e.pick fun k => callBody flush k c e

/-- The current thread goes on inside a call. -/
def resume (k : Kernel V) (e : Env) : Option (Kernel V) :=
  match k.current.place with
  | .user => none
  | .body c => callBody flush k c e
  | .check c => after (checkSignal k e.access) (.body c) e.pick fun k => callBody flush k c e
  | .leave => some (backToUser k)

/-! ### Steps -/

inductive Act
  | syscall (c : Call) (e : Env)
  | resume (e : Env)
  | yield (pick : Option (Fin 32))
  | timer (i : Fin 32)
  | ctrlC
  | ctrlZ
  | create (memory : Bool)
  | kill (i : Fin 32) (pick : Option (Fin 32))
  | reap
  deriving DecidableEq, Repr

/-- A thread that has ended only yields. Outside a system call only threads of the
kernel yield and make threads. -/
def act (k : Kernel V) : Act → Option (Kernel V)
  | .syscall c e =>
      if Live k.current ∧ k.current.place = .user then syscallDispatch flush k c e else none
  | .resume e => if Live k.current then resume flush k e else none
  | .yield pick =>
      if ¬ Live k.current ∨ k.current.place = .user then threadYield k pick else none
  | .timer i => some (k.setTask i (wake (k.threads i)))
  | .ctrlC => some (signalChildren k)
  | .ctrlZ => some (sigtstpChildren k)
  | .create memory => if Live k.current then some (threadCreate k memory).2 else none
  | .kill i pick => threadKill k i pick
  | .reap => some (threadReapDead k)

/-- One step. What cannot happen changes nothing. -/
def step (k : Kernel V) (a : Act) : Kernel V := (act flush k a).getD k

end Calls

/-- The state after `thread_init`. -/
def boot (v : V) : Kernel V where
  threads := fun i =>
    { state := if i = 0 then .running else .unused, tid := if i = 0 then 1 else 0, parentTid := 0
      isUser := false, exitCode := 0, sigPending := 0, sigHandlers := fun _ => 0
      stopReported := false, place := .user, fate := .alive }
  cur := 0
  nextTid := 2
  tables := Tables.init v
  delivered := []
  handed := []

/-- A step with a pick, where everything else goes well. -/
def env (pick : Option (Fin 32)) : Env := ⟨pick, true, true, true⟩

/-- From boot: a program is started in slot 1 and makes a child in slot 2, which
has the thread number 3. -/
def forked : List Act := [.create true, .yield (some 1), .syscall .fork (env none)]

/-- Flushing a file with no file system behind it. -/
def noFlush : RamId → Unit → Unit := fun _ v => v

end FiFi.Process
