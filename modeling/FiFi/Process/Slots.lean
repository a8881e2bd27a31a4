import FiFi.Library.StateMachine
import FiFi.Thread.Table

/-!
# The thread table in full

All fields of `thread_t` and the functions of `thread.c` and `fork.c` that write
them. A slot is reset in three places: `thread_reap_dead` resets some fields when
a thread has ended, `thread_create` others when the slot is taken again, and
`do_fork` copies some of the parent's.

Memory is not part of it: page maps and stacks are addresses, and whether there
is memory for a thread comes with the step, as does the choice of the next
thread. What a waiting parent is told is noted in `reports`, which nothing reads.
-/

namespace FiFi.Process.Slots

open Thread

def threadStackSize : Nat := 16 * 1024

/-- `THREAD_USER_MAP_MAX`. -/
def threadUserMapMax : Nat := 8

def mmapBase : Nat := 0x0000600000000000

/-- `thread_user_map_t`. -/
structure UserMap where
  base : Nat
  size : Nat
  inUse : Bool
  deriving DecidableEq, Repr

/-- `thread_t`. Strings end where the buffer has its first zero. -/
structure Slot where
  rsp : Nat
  kstackTop : Nat
  state : TState
  prio : Nat
  tid : Nat
  waitTicks : Nat
  wakeTick : Nat
  cpuTicks : Nat
  lastStartTick : Nat
  name : String
  entry : Nat
  arg : Nat
  stackBase : Nat
  isUser : Bool
  cr3 : Nat
  userBrk : Nat
  parentTid : Nat
  exitCode : Int
  sigPending : Nat
  cwd : String
  userMaps : List UserMap
  pgid : Nat
  stopReported : Bool
  sigHandlers : List Nat
  mmapNext : Nat
  deriving DecidableEq, Repr

/-- A string that is copied to a buffer with room for `n` characters. -/
def copied (n : Nat) (s : String) : String := String.ofList (s.toList.take n)

/-- `thread_user_maps_zero`. -/
def noMaps : List UserMap := List.replicate threadUserMapMax ⟨0, 0, false⟩

def noHandlers : List Nat := List.replicate 32 0

/-- A slot after `thread_init`. -/
def neverUsed : Slot where
  rsp := 0
  kstackTop := 0
  state := .unused
  prio := 0
  tid := 0
  waitTicks := 0
  wakeTick := 0
  cpuTicks := 0
  lastStartTick := 0
  name := ""
  entry := 0
  arg := 0
  stackBase := 0
  isUser := false
  cr3 := 0
  userBrk := 0
  parentTid := 0
  exitCode := 0
  sigPending := 0
  cwd := ""
  userMaps := noMaps
  pgid := 0
  stopReported := false
  sigHandlers := noHandlers
  mmapNext := mmapBase

/-- What a parent was told: the child and its status. -/
structure Report where
  parent : Nat
  child : Nat
  status : Int
  deriving DecidableEq, Repr

structure Table where
  threads : Fin 32 → Slot
  cur : Fin 32
  now : Nat
  nextTid : Nat
  reports : List Report

def Table.current (σ : Table) : Slot := σ.threads σ.cur

def Table.set (σ : Table) (i : Fin 32) (t : Slot) : Table :=
  { σ with threads := Function.update σ.threads i t }

def Table.setCurrent (σ : Table) (t : Slot) : Table := σ.set σ.cur t

/-- The same change to all slots. -/
def Table.map (σ : Table) (f : Slot → Slot) : Table :=
  { σ with threads := fun i => f (σ.threads i) }

/-- `thread_init`. -/
def threadInit (now rsp : Nat) : Table where
  threads := fun i =>
    if i = 0 then
      { neverUsed with
        state := .running, prio := 1, cwd := "/", name := "main", lastStartTick := now, tid := 1
        kstackTop := rsp }
    else neverUsed
  cur := 0
  now := now
  nextTid := 2
  reports := []

/-! ### The end of a thread -/

/-- `thread_user_cleanup`. -/
def userCleanup (t : Slot) : Slot := { t with userMaps := noMaps, isUser := false }

/-- What `thread_reap_dead` writes to a slot. -/
def reaped (t : Slot) : Slot :=
  { t with
    state := .unused, rsp := 0, kstackTop := 0, tid := 0, prio := 0, waitTicks := 0
    wakeTick := 0, cpuTicks := 0, lastStartTick := 0, entry := 0, arg := 0, stackBase := 0
    isUser := false, cr3 := 0, name := "", parentTid := 0, exitCode := 0, userMaps := noMaps }

/-- `thread_reap_dead`. The turns of its loop do not depend on each other. -/
def threadReapDead (σ : Table) : Table :=
  { σ with
    threads := fun i =>
      if i ≠ 0 ∧ (σ.threads i).state = .dead ∧ i ≠ σ.cur then reaped (σ.threads i)
      else σ.threads i }

/-- A thread that is neither unused nor has ended. -/
def Live (t : Slot) : Prop := t.state ≠ .unused ∧ t.state ≠ .dead ∧ t.state ≠ .zombie

instance (t : Slot) : Decidable (Live t) := inferInstanceAs (Decidable (_ ∧ _))

/-- The time since the thread was switched to is added to its account. -/
def charge (t : Slot) (now : Nat) : Slot :=
  if t.lastStartTick ≠ 0 ∧ t.lastStartTick ≤ now then
    { t with cpuTicks := t.cpuTicks + (now - t.lastStartTick) }
  else t

/-- Whether the parent of a thread is there to collect its exit status. -/
def goZombie (σ : Table) (t : Slot) : Bool :=
  t.parentTid ≠ 0 && (List.finRange 32).any fun i =>
    (σ.threads i).tid = t.parentTid && decide (Live (σ.threads i))

/-- `thread_exit` up to its loop. -/
def threadExit (σ : Table) : Table :=
  let t := charge σ.current σ.now
  let t := if t.cr3 ≠ 0 then { t with cr3 := 0, userMaps := noMaps } else userCleanup t
  σ.setCurrent { t with state := if goZombie σ t then .zombie else .dead }

/-- `thread_kill`, up to the switch if the current thread kills itself. -/
def threadKill (σ : Table) (i : Fin 32) : Table :=
  let t := σ.threads i
  if i = 0 then σ
  else if t.state = .unused then σ
  else if t.state = .dead then σ
  else σ.set i { t with state := .dead }

/-- `thread_kill_slot`. -/
def threadKillSlot (σ : Table) (i : Fin 32) : Table :=
  let t := σ.threads i
  if i = σ.cur then σ
  else if t.state = .unused ∨ t.state = .dead then σ
  else threadReapDead (σ.set i (userCleanup { t with state := .dead, wakeTick := 0, waitTicks := 0 }))

/-! ### The birth of a thread -/

def findFreeSlot (σ : Table) : Option (Fin 32) :=
  slots.find? fun i => (σ.threads i).state = .unused || (σ.threads i).state = .dead

/-- What a caller of `thread_create` gives, and the stack that it was allocated. -/
structure Birth where
  name : String
  entry : Nat
  arg : Nat
  stack : Nat
  deriving DecidableEq, Repr

/-- What `thread_create` writes to a slot: the registers are popped from the top of
the stack. -/
def created (t : Slot) (b : Birth) (tid : Nat) : Slot :=
  { t with
    kstackTop := b.stack + threadStackSize
    rsp := (b.stack + threadStackSize) / 16 * 16 - 56
    state := .ready, tid := tid, waitTicks := 0, prio := 1, entry := b.entry, arg := b.arg
    stackBase := b.stack, isUser := false, userBrk := 0, parentTid := 0, exitCode := 0, pgid := 0
    stopReported := false, sigHandlers := noHandlers, mmapNext := mmapBase, cwd := "/"
    userMaps := noMaps, cpuTicks := 0, lastStartTick := 0, name := copied 23 b.name }

/-- `thread_create`. There is no memory for the stack when its address is 0. -/
def threadCreate (σ : Table) (b : Birth) : Option (Fin 32) × Table :=
  let σ := threadReapDead σ
  if b.entry = 0 then (none, σ)
  else
    match findFreeSlot σ with
    | none => (none, σ)
    | some i =>
        if b.stack = 0 then (none, σ)
        else
          (some i, { σ.set i (created (σ.threads i) b σ.nextTid) with nextTid := σ.nextTid + 1 })

/-- `thread_get_cwd`. -/
def getCwd (t : Slot) : String := if t.cwd = "" then "/" else t.cwd

/-- `thread_get_pgid` of a thread. -/
def getPgid (t : Slot) : Nat := if t.pgid ≠ 0 then t.pgid else t.tid

/-- What `do_fork` copies from the parent. -/
def inherited (t parent : Slot) : Slot :=
  { t with
    parentTid := parent.tid, cwd := copied 255 (getCwd parent), pgid := getPgid parent
    userBrk := parent.userBrk, mmapNext := parent.mmapNext, isUser := true
    userMaps := parent.userMaps, sigHandlers := parent.sigHandlers }

/-- `do_fork`. `arg` is the saved context; it is 0 when there is no memory for it
or for the page map. -/
def doFork (σ : Table) (b : Birth) : Table :=
  if σ.current.cr3 = 0 ∨ b.arg = 0 then σ
  else
    match threadCreate σ b with
    | (none, σ) => σ
    | (some i, σ) => σ.set i (inherited (σ.threads i) σ.current)

/-! ### Switching and time -/

/-- The switch at the end of `thread_yield`. -/
def switchTo (σ : Table) (next : Fin 32) : Table :=
  let prev := σ.current
  let σ := if prev.state = .running then σ.setCurrent { prev with state := .ready } else σ
  let σ := σ.set next { σ.threads next with state := .running }
  let σ := σ.setCurrent (charge σ.current σ.now)
  { σ.set next { σ.threads next with lastStartTick := σ.now, waitTicks := 0 } with cur := next }

/-- `thread_yield`, with the thread that is picked. -/
def threadYield (σ : Table) (pick : Option (Fin 32)) : Table :=
  let σ := threadReapDead σ
  match pick with
  | none => σ
  | some i => if (σ.threads i).state = .ready then switchTo σ i else σ

/-- `thread_wake_ready` on a slot. -/
def wakeReady (now : Nat) (t : Slot) : Slot :=
  if t.state = .sleeping ∧ t.wakeTick ≤ now then { t with state := .ready } else t

/-- Aging in `thread_request_resched`. -/
def age (t : Slot) : Slot :=
  if t.state = .ready ∧ t.waitTicks < 1000000 then { t with waitTicks := t.waitTicks + 1 } else t

/-- `thread_sleep_ms` up to the switch. -/
def threadSleepMs (σ : Table) (ms : Nat) : Table :=
  let ticks := (ms + 9) / 10
  let ticks := if ticks = 0 then 1 else ticks
  σ.setCurrent { charge σ.current σ.now with wakeTick := σ.now + ticks, state := .sleeping }

/-! ### Signals and waiting -/

def sigInt : Nat := 2
def sigCont : Nat := 18
def sigTstp : Nat := 19

/-- A thread that a signal from the keyboard goes to. -/
def Signalable (t : Slot) : Prop := Live t ∧ t.isUser ∧ t.parentTid ≠ 0

instance (t : Slot) : Decidable (Signalable t) := inferInstanceAs (Decidable (_ ∧ _))

def wake (t : Slot) : Slot := if t.state = .sleeping then { t with state := .ready } else t

/-- `thread_signal_children` on a slot. -/
def signalChild (t : Slot) : Slot :=
  if Signalable t then wake { t with sigPending := sigInt } else t

/-- `thread_sigtstp_children` on a slot. -/
def sigtstpChild (t : Slot) : Slot :=
  if Signalable t then wake (if t.sigPending = 0 then { t with sigPending := sigTstp } else t)
  else t

/-- `thread_kill_by_tid`. A thread that has ended and waits for its parent gets the
signal too. -/
def killByTid (σ : Table) (tid sig : Nat) : Table :=
  match (List.finRange 32).find? fun i =>
      (σ.threads i).tid = tid && (σ.threads i).state ≠ .unused && (σ.threads i).state ≠ .dead with
  | none => σ
  | some i =>
      let t := wake { σ.threads i with sigPending := sig }
      σ.set i
        (if sig = sigCont ∧ t.state = .stopped then { t with state := .ready, stopReported := false }
        else t)

/-- `thread_cont_by_tid`. The state of the slot is not looked at. -/
def contByTid (σ : Table) (tid : Nat) : Table :=
  match (List.finRange 32).find? fun i => (σ.threads i).tid = tid with
  | none => σ
  | some i =>
      let t := σ.threads i
      let t := if t.state = .stopped then { t with state := .ready, stopReported := false } else t
      σ.set i (if t.sigPending = sigTstp then { t with sigPending := 0 } else t)

/-- A child that a parent waits for. -/
def matchesChild (parent : Nat) (child : Option Nat) (t : Slot) : Bool :=
  t.parentTid = parent && child.all fun c => t.tid = c

/-- `thread_reap_zombie_child`, for the current thread. -/
def reapZombieChild (σ : Table) (child : Option Nat) : Table :=
  match (List.finRange 32).find? fun i =>
      matchesChild σ.current.tid child (σ.threads i) && (σ.threads i).state = .zombie with
  | none => σ
  | some i =>
      let t := σ.threads i
      { σ.set i { t with state := .dead } with
        reports := σ.reports ++ [⟨σ.current.tid, t.tid, t.exitCode⟩] }

/-- `thread_check_stopped_child`, for the current thread. -/
def checkStoppedChild (σ : Table) (child : Option Nat) : Table :=
  match (List.finRange 32).find? fun i =>
      matchesChild σ.current.tid child (σ.threads i) && (σ.threads i).state = .stopped &&
        !(σ.threads i).stopReported with
  | none => σ
  | some i =>
      let t := σ.threads i
      { σ.set i { t with stopReported := true } with
        reports := σ.reports ++ [⟨σ.current.tid, t.tid, 19 * 256 + 0x7F⟩] }

/-! ### The fields of the current thread -/

/-- What a thread sets of its own slot. -/
inductive Own
  | brk (addr : Nat)
  | cwd (path : String)
  | handler (sig : Nat) (va : Nat)
  | mmapNext (addr : Nat)
  | cr3 (phys : Nat)
  | mapAdd (va size : Nat)
  | mapsZero
  | cleanup
  | exitCode (code : Int)
  | takeSig
  | stop
  deriving DecidableEq, Repr

/-- `thread_user_map_add` to the list of maps. -/
def addMap (maps : List UserMap) (va size : Nat) : Option (List UserMap) :=
  if maps.any fun m => m.inUse && m.base = va && m.size = size then some maps
  else
    match maps.findIdx? fun m => !m.inUse with
    | none => none
    | some i => some (maps.set i ⟨va, size, true⟩)

def ownStep (t : Slot) : Own → Slot
  | .brk addr => { t with userBrk := addr }
  | .cwd path => { t with cwd := copied 255 path }
  | .handler sig va => { t with sigHandlers := t.sigHandlers.set sig va }
  | .mmapNext addr => { t with mmapNext := addr }
  | .cr3 phys => { t with cr3 := phys }
  | .mapAdd va size =>
      if size = 0 then t
      else
        match addMap t.userMaps va size with
        | none => t
        | some maps => { t with userMaps := maps, isUser := true }
  | .mapsZero => { t with userMaps := noMaps }
  | .cleanup => userCleanup t
  | .exitCode code => { t with exitCode := code }
  | .takeSig => { t with sigPending := 0 }
  | .stop => { t with state := .stopped }

/-- `thread_set_pgid`. -/
def setPgid (σ : Table) (tid pgid : Nat) : Table :=
  match (List.finRange 32).find? fun i =>
      (σ.threads i).tid = tid && (σ.threads i).state ≠ .unused with
  | none => σ
  | some i => σ.set i { σ.threads i with pgid := pgid }

/-- `thread_set_prio`. -/
def setPrio (σ : Table) (i : Fin 32) (prio : Nat) : Table :=
  if 3 < prio then σ
  else if (σ.threads i).state = .unused then σ
  else σ.set i { σ.threads i with prio := prio }

/-! ### Histories -/

/-- What happens. The acts from `create` on are done by the current thread. -/
inductive Act
  | tick
  | wakeReady
  | signalChildren
  | sigtstpChildren
  | yield (pick : Option (Fin 32))
  | create (b : Birth)
  | fork (b : Birth)
  | exit
  | kill (i : Fin 32)
  | killSlot (i : Fin 32)
  | sleep (ms : Nat)
  | killByTid (tid sig : Nat)
  | contByTid (tid : Nat)
  | reapZombieChild (child : Option Nat)
  | checkStoppedChild (child : Option Nat)
  | own (u : Own)
  | setPgid (tid pgid : Nat)
  | setPrio (i : Fin 32) (prio : Nat)
  | markUser (i : Fin 32) (on : Bool)
  deriving DecidableEq, Repr

/-- What the current thread does in its code. -/
def codeStep (σ : Table) : Act → Table
  | .create b => (threadCreate σ b).2
  | .fork b => doFork σ b
  | .exit => threadExit σ
  | .kill i => threadKill σ i
  | .killSlot i => threadKillSlot σ i
  | .sleep ms => threadSleepMs σ ms
  | .killByTid tid sig => killByTid σ tid sig
  | .contByTid tid => contByTid σ tid
  | .reapZombieChild child => reapZombieChild σ child
  | .checkStoppedChild child => checkStoppedChild σ child
  | .own u => σ.setCurrent (ownStep σ.current u)
  | .setPgid tid pgid => setPgid σ tid pgid
  | .setPrio i prio => setPrio σ i prio
  | .markUser i on => σ.set i { σ.threads i with isUser := on }
  | _ => σ

/-- A thread that has ended, sleeps or is stopped does nothing but yield. -/
def slotStep (σ : Table) : Act → Table
  | .tick => { σ.map age with now := σ.now + 1 }
  | .wakeReady => σ.map (wakeReady σ.now)
  | .signalChildren => σ.map signalChild
  | .sigtstpChildren => σ.map sigtstpChild
  | .yield pick => threadYield σ pick
  | a => if σ.current.state = .running then codeStep σ a else σ

end FiFi.Process.Slots
