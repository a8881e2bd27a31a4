import FiFi.Process.Rules

/-!
# Zombies and their parents

A thread that exits becomes a zombie when its parent lives at that moment, and
stays in its slot until the parent collects it. Nobody looks at the zombies of a
thread that ends itself, by `SYS_EXIT`, through a signal or through
`thread_kill`: they keep the number of a parent that is gone, and no call frees
their slots any more.
-/

namespace FiFi.Process

open Fd Thread StateMachine

variable {V : Type*}

/-- Every zombie has a parent that lives. -/
def ZombiesCollectable (k : Kernel V) : Prop :=
  ∀ i, (k.threads i).state = .zombie →
    ∃ j, Live (k.threads j) ∧ (k.threads j).tid = (k.threads i).parentTid

/-- No zombie is a child of the thread in this slot. -/
def NoZombieChild (k : Kernel V) (i : Fin 32) : Prop :=
  ∀ j, (k.threads j).state = .zombie → (k.threads j).parentTid ≠ (k.threads i).tid

instance (k : Kernel V) (i : Fin 32) : Decidable (NoZombieChild k i) :=
  inferInstanceAs (Decidable (∀ _, _ → _ ≠ _))

/-- Where `thread_check_signal` looks, the current thread survives or has no zombie. -/
def CheckLeavesNone (k : Kernel V) : Prop :=
  k.current.sigPending ≠ 0 → k.current.sigPending ≠ sigTstp → NoZombieChild k k.cur

/-- The same on the return to user mode. -/
def LeaveLeavesNone (k : Kernel V) : Prop :=
  k.current.sigPending ≠ 0 → k.current.sigHandlers k.current.sigPending = 0 →
    k.current.sigPending ≠ sigTstp → k.current.sigPending ≠ sigCont → NoZombieChild k k.cur

/-- The condition on a step: a thread that ends has no zombie that it did not
collect. -/
def EndsWithoutZombies (k : Kernel V) (a : Act) : Prop :=
  StepOk CheckLeavesNone LeaveLeavesNone (fun k _ => NoZombieChild k k.cur)
    (fun k i => Live (k.threads i) → NoZombieChild k i) k a

/-! ### The invariant -/

/-- With what a step relies on: parents are older than their children. -/
structure ZombieInv (k : Kernel V) : Prop where
  kin : Kin k
  parent : ∀ i, (k.threads i).state = .zombie → (k.threads i).parentTid ≠ 0
  collectable : ZombiesCollectable k

variable {k k' : Kernel V}

theorem ZombieInv.quietTask (h : ZombieInv k) (hkin : Kin k')
    (hq : ∀ i, QuietTask (k.threads i) (k'.threads i)) : ZombieInv k' := by
  refine ⟨hkin, fun i hz => ?_, fun i hz => ?_⟩
  · obtain ⟨hz', -, -, hpar⟩ := (hq i).zombie hz
    rw [hpar]
    exact h.parent i hz'
  · obtain ⟨hz', -, -, hpar⟩ := (hq i).zombie hz
    obtain ⟨j, hl, hj⟩ := h.collectable i hz'
    obtain ⟨hl', htid⟩ := (hq j).live hl
    exact ⟨j, hl', by rw [htid, hpar, hj]⟩

/-- The descriptors and the logs play no part. -/
theorem ZombieInv.threads (h : ZombieInv k) (hthreads : k'.threads = k.threads)
    (hnext : k'.nextTid = k.nextTid) : ZombieInv k' := by
  refine h.quietTask ?_ fun i => hthreads ▸ QuietTask.refl _
  intro i
  rw [hthreads, hnext]
  exact h.kin i

/-- A thread ends that has no zombie, and is one itself only if another thread is its
parent. -/
theorem ZombieInv.ends (h : ZombieInv k) {i : Fin 32} {t : Task}
    (htid : t.tid = (k.threads i).tid) (hpar : t.parentTid = (k.threads i).parentTid)
    (hnone : Live (k.threads i) → NoZombieChild k i)
    (hself : t.state = .zombie → t.parentTid ≠ 0 ∧
      ∃ w, w ≠ i ∧ Live (k.threads w) ∧ (k.threads w).tid = t.parentTid) :
    ZombieInv (k.setTask i t) := by
  refine ⟨h.kin.setTask fun hk => ?_, fun j hz => ?_, fun j hz => ?_⟩
  · unfold KinTask at hk ⊢
    rw [htid, hpar]
    exact hk
  · by_cases hj : j = i
    · subst hj
      rw [setTask_threads, Function.update_self] at hz ⊢
      exact (hself hz).1
    · rw [setTask_threads, Function.update_of_ne hj] at hz ⊢
      exact h.parent j hz
  · rw [setTask_threads] at hz ⊢
    by_cases hj : j = i
    · subst hj
      rw [Function.update_self] at hz ⊢
      obtain ⟨-, w, hw, hl, hwtid⟩ := hself hz
      refine ⟨w, ?_⟩
      rw [Function.update_of_ne hw]
      exact ⟨hl, hwtid⟩
    · rw [Function.update_of_ne hj] at hz ⊢
      obtain ⟨w, hl, hw⟩ := h.collectable j hz
      have hwi : w ≠ i := by
        rintro rfl
        exact hnone hl j hz hw.symm
      refine ⟨w, ?_⟩
      rw [Function.update_of_ne hwi]
      exact ⟨hl, hw⟩

theorem ZombieInv.setDead (h : ZombieInv k) {i : Fin 32}
    (hnone : Live (k.threads i) → NoZombieChild k i) :
    ZombieInv (k.setTask i { k.threads i with state := .dead }) :=
  h.ends rfl rfl hnone nofun

theorem goZombie_parent {t : Task} (h : goZombie k t = true) :
    t.parentTid ≠ 0 ∧ ∃ j, Live (k.threads j) ∧ (k.threads j).tid = t.parentTid := by
  simp only [goZombie, Bool.and_eq_true, decide_eq_true_eq, List.any_eq_true] at h
  obtain ⟨h0, j, -, htid, hl⟩ := h
  exact ⟨h0, j, hl, htid⟩

/-- The current thread exits and has no zombie. The parent for which it becomes a
zombie is another thread, since it is older. -/
theorem ZombieInv.exitCurrent (h : ZombieInv k) (hnone : NoZombieChild k k.cur) (code : Int)
    (fate : Fate) : ZombieInv (exitCurrent k code fate) := by
  refine h.ends rfl rfl (fun _ => hnone) fun hz => ?_
  have hgo : goZombie k k.current = true := by
    by_contra hno
    simp [hno] at hz
  obtain ⟨h0, w, hl, hw⟩ := goZombie_parent hgo
  refine ⟨h0, w, ?_, hl, hw⟩
  rintro rfl
  have hkin := ((h.kin k.cur).2.resolve_left h0).2
  exact absurd hw (Nat.ne_of_gt hkin)

theorem ZombieInv.takePendingSig (h : ZombieInv k) (access : Bool) (o : Outcome) :
    ZombieInv (takePendingSig k access o) :=
  h.quietTask (takePendingSig_kin h.kin access o) (takePendingSig_quiet k access o)

theorem ZombieInv.doStop (h : ZombieInv k) : ZombieInv (doStop k) :=
  h.quietTask ((doStop_quiet k).kin h.kin) (doStop_quiet k).task

/-- The pending signal ends the thread. -/
theorem ZombieInv.dies (h : ZombieInv k) (access : Bool) (o : Outcome) (code : Int) (fate : Fate)
    (hnone : NoZombieChild k k.cur) :
    ZombieInv (Process.exitCurrent (Process.takePendingSig k access o) code fate) := by
  have hq := takePendingSig_quiet k access o
  refine (h.takePendingSig access o).exitCurrent ?_ code fate
  intro j hz
  obtain ⟨hz', -, -, hpar⟩ := (hq j).zombie hz
  have htid : ((Process.takePendingSig k access o).threads k.cur).tid = k.current.tid := by
    change (Function.update k.threads k.cur _ k.cur).tid = _
    rw [Function.update_self]
  rw [hpar, show (Process.takePendingSig k access o).cur = k.cur from rfl, htid]
  exact hnone j hz'

theorem NoZombieChild.doFork (hl : Live k.current) (h : NoZombieChild k k.cur) (memory : Bool) :
    NoZombieChild (doFork k memory) (doFork k memory).cur := by
  obtain ⟨hcur, -, k₁, hq, -, heq⟩ := doFork_cases hl memory
  intro j hz
  have htid : ((Process.doFork k memory).threads (Process.doFork k memory).cur).tid =
      k.current.tid := congrArg Task.tid hcur
  rw [htid]
  have hthreads : (Process.doFork k memory).threads = k₁.threads := by
    rcases heq with heq | ⟨i, -, heq⟩
    · rw [heq]
    · rw [heq]
  rw [hthreads] at hz ⊢
  obtain ⟨hz', -, -, hpar⟩ := (hq.task j).zombie hz
  rw [hpar]
  exact h j hz'

theorem zombieInv_rules (flush : RamId → V → V) :
    Rules flush ZombieInv CheckLeavesNone LeaveLeavesNone (fun k _ => NoZombieChild k k.cur)
      (fun k i => Live (k.threads i) → NoZombieChild k i) where
  quiet hq h := h.quietTask (hq.kin h.kin) hq.task
  check access h _ hok := checkSignal_cases h (h.takePendingSig access _).doStop
    fun h0 htstp => h.dies access _ _ _ (hok h0 htstp)
  leave access h _ hok := deliverOnReturn_cases h (h.takePendingSig access)
    (h.takePendingSig access _).doStop
    fun h0 hdfl htstp hcont => h.dies access _ _ _ (hok h0 hdfl htstp hcont)
  leaveFork memory hl hok := by
    obtain ⟨hcur, -⟩ := doFork_cases hl memory
    unfold LeaveLeavesNone
    rw [hcur]
    exact fun h0 hdfl htstp hcont => (hok h0 hdfl htstp hcont).doFork hl memory
  exit {k rdi} h _ hok := by
    have hk : ZombieInv { k with tables := fdCloseAll flush k.tables k.current.tid } :=
      h.threads rfl rfl
    exact hk.exitCurrent hok _ _
  kill h hok := h.setDead hok
  fds _ h _ := h.threads rfl rfl
  inherit _ h _ := h.threads rfl rfl
  collect h hz := (h.setDead fun hl => absurd hz hl.2.2).threads rfl rfl
  report {k i} h _ := by
    have hq : Quiet k (k.setTask i { k.threads i with stopReported := true }) :=
      Quiet.setTask (QuietTask.of_state rfl rfl rfl rfl rfl id)
    exact h.quietTask (hq.kin h.kin) hq.task

theorem boot_zombieInv (v : V) : ZombieInv (boot v) := by
  have hstate : ∀ i, ((boot v).threads i).state ≠ .zombie := by
    intro i
    simp only [boot]
    split <;> nofun
  refine ⟨fun i => ⟨?_, Or.inl rfl⟩, fun i hz => absurd hz (hstate i),
    fun i hz => absurd hz (hstate i)⟩
  simp only [boot]
  split <;> decide

/-! ### Collecting -/

/-- A slot that is not that of the current thread and is dead can be used again. -/
theorem findFreeSlot_isSome {i : Fin 32} (hi : i ≠ 0)
    (h : (k.threads i).state = .unused ∨ (k.threads i).state = .dead) :
    (findFreeSlot k).isSome = true := by
  unfold findFreeSlot
  rw [List.find?_isSome]
  refine ⟨i, ?_, ?_⟩
  · have hall : ∀ j : Fin 32, j ≠ 0 → j ∈ slots := by decide
    exact hall i hi
  · simpa using h

/-- Reaping does not take a free slot away. -/
theorem threadReapDead_free {i : Fin 32}
    (h : (k.threads i).state = .unused ∨ (k.threads i).state = .dead) :
    ((threadReapDead k).threads i).state = .unused ∨
      ((threadReapDead k).threads i).state = .dead := by
  unfold threadReapDead
  generalize slots = is
  induction is generalizing k with
  | nil => exact h
  | cons j is ih =>
      refine ih ?_
      simp only [reapSlot]
      split
      · exact h
      · split
        · exact h
        · by_cases hij : i = j
          · subst hij
            rw [setTask_threads, Function.update_self]
            exact Or.inl rfl
          · rw [setTask_threads, Function.update_of_ne hij]
            exact h

/-- When the parent of a zombie waits, it is handed a status and a slot is free. -/
theorem ZombieInv.waitAttempt (h : ZombieInv k) {i : Fin 32} (hz : (k.threads i).state = .zombie)
    (hparent : k.current.tid = (k.threads i).parentTid) (untraced : Bool) :
    ∃ k', waitAttempt k none untraced = some k' ∧ k'.handed ≠ k.handed ∧
      (findFreeSlot (threadReapDead k')).isSome = true := by
  obtain ⟨c, hc⟩ : ∃ c, findZombie k k.current.tid none = .child c := by
    unfold findZombie
    cases hf : (List.finRange 32).find? fun i =>
        matchesChild k.current.tid none (k.threads i) && (k.threads i).state = .zombie with
    | some c => exact ⟨c, rfl⟩
    | none =>
        have hno := List.find?_eq_none.1 hf i (List.mem_finRange i)
        simp [matchesChild, hparent, hz] at hno
  obtain ⟨-, hcz⟩ := findZombie_child hc
  have hc0 : c ≠ 0 := ((h.kin c).2.resolve_left (h.parent c hcz)).1
  refine ⟨_, by rw [Process.waitAttempt, hc], ?_, ?_⟩
  · simp [hand, Kernel.setTask]
  · refine findFreeSlot_isSome hc0 (threadReapDead_free (Or.inr ?_))
    rw [setTask_threads, Function.update_self]

/-- In every run in which no thread ends that has a zombie, every zombie has a parent
that lives; and whenever that parent is current and waits, it collects a child, whose
slot is free then. -/
theorem zombiesCollectable_run (flush : RamId → V → V) (v : V) {as : List Act}
    (hrun : AllSteps (step flush) EndsWithoutZombies (boot v) as) {pre : List Act}
    (hpre : pre <+: as) :
    let k := run (step flush) (boot v) pre
    ZombiesCollectable k ∧
      ∀ i, (k.threads i).state = .zombie → k.current.tid = (k.threads i).parentTid →
        ∀ untraced, ∃ k', waitAttempt k none untraced = some k' ∧ k'.handed ≠ k.handed ∧
          (findFreeSlot (threadReapDead k')).isSome = true := by
  intro k
  have hinv : ZombieInv k := (zombieInv_rules flush).run (boot_zombieInv v) hrun hpre
  exact ⟨hinv.collectable, fun i hz hparent untraced => hinv.waitAttempt hz hparent untraced⟩

/-- A child exits, and its parent exits once it has collected it. -/
theorem zombiesCollectable_run_collected :
    ZombiesCollectable (run (step noFlush) (boot ())
      (forked ++ [.syscall .yield (env (some 2)), .syscall (.exit 0) (env (some 1)),
        .syscall (.wait none false false 5) (env none), .syscall (.exit 0) (env (some 0))])) := by
  have hrun : AllSteps (step noFlush) EndsWithoutZombies (boot ())
      (forked ++ [.syscall .yield (env (some 2)), .syscall (.exit 0) (env (some 1)),
        .syscall (.wait none false false 5) (env none), .syscall (.exit 0) (env (some 0))]) := by
    simp only [forked, List.cons_append, List.nil_append, AllSteps, EndsWithoutZombies, StepOk,
      CheckLeavesNone, ExitOk]
    decide +kernel
  exact (zombiesCollectable_run noFlush () hrun (List.prefix_refl _)).1

/-- The parent exits without waiting for its child. -/
theorem not_zombiesCollectable_orphan :
    ¬ ∀ as : List Act, ZombiesCollectable (run (step noFlush) (boot ()) as) := by
  intro h
  have hz := h (forked ++ [.syscall .yield (env (some 2)), .syscall (.exit 0) (env (some 1)),
    .syscall (.exit 0) (env (some 0))])
  unfold ZombiesCollectable at hz
  revert hz
  decide +kernel

end FiFi.Process

/-!
## Exit statuses

The kernel writes three encodings into one `int`: the code that was passed to
`SYS_EXIT`, 128 plus a signal, or the status of a stopped child. The macros of
`usys.h` tell them apart by the value alone. They do so when the code of an exit
is below 128 and its low byte is not 0x7F; a larger code reads as a signal, and
one that ends in 0x7F, such as the 127 of the shell, as a stop.
-/

namespace FiFi.Process

open Fd Thread StateMachine

variable {V : Type*}

/-! ### The macros -/

def wifstopped (s : Int) : Prop := s % 256 = 0x7F

def wstopsig (s : Int) : Int := s / 256 % 256

def wifsignaled (s : Int) : Prop := ¬ wifstopped s ∧ 128 ≤ s

def wtermsig (s : Int) : Int := s - 128

def wifexited (s : Int) : Prop := ¬ wifstopped s ∧ s < 128

def wexitstatus (s : Int) : Int := s

/-- The macros read the event off the status, and no other one. -/
def Decodes (s : Int) : Event → Prop
  | .ended (.exited code) =>
      wifexited s ∧ wexitstatus s = code ∧ ¬ wifsignaled s ∧ ¬ wifstopped s
  | .ended (.signaled sig) =>
      wifsignaled s ∧ wtermsig s = sig ∧ ¬ wifexited s ∧ ¬ wifstopped s
  | .ended .alive => False
  | .stopped => wifstopped s ∧ wstopsig s = 19 ∧ ¬ wifexited s ∧ ¬ wifsignaled s

/-- Every status that was handed to a parent decodes to what had happened. -/
def StatusesDecode (k : Kernel V) : Prop := ∀ h ∈ k.handed, Decodes h.status h.event

/-- A code that the macros read back. -/
def Fits (code : Int) : Prop := code < 128 ∧ code % 256 ≠ 0x7F

/-- The child did not exit, or with a code that fits. -/
def EventFits : Event → Prop
  | .ended (.exited code) => Fits code
  | _ => True

/-- The condition on a step: a code that is passed to `SYS_EXIT` fits. -/
def CodesFit (k : Kernel V) (a : Act) : Prop :=
  StepOk (fun _ => True) (fun _ => True) (fun _ rdi => Fits (toInt32 rdi)) (fun _ _ => True) k a

/-! ### Encoding and decoding -/

/-- How the kernel encodes an event, with a condition on the codes of exits. -/
def Encodes (F : Int → Prop) (s : Int) : Event → Prop
  | .ended (.exited code) => s = code ∧ F code
  | .ended (.signaled sig) => s = 128 + sig ∧ 0 < sig ∧ sig < 32
  | .ended .alive => False
  | .stopped => s = stopStatus

theorem encodes_stopped {F : Int → Prop} : Encodes F stopStatus .stopped := rfl

theorem decodes_exited (code : Int) : Decodes code (.ended (.exited code)) ↔ Fits code := by
  simp only [Decodes, wifexited, wifsignaled, wifstopped, wexitstatus, Fits]
  constructor
  · intro h
    exact ⟨h.1.2, h.1.1⟩
  · intro h
    exact ⟨⟨h.2, h.1⟩, trivial, fun hs => absurd hs.2 (Int.not_le.mpr h.1), h.2⟩

theorem decodes_signaled {sig : Nat} (hpos : 0 < sig) (hlt : sig < 32) :
    Decodes (128 + sig) (.ended (.signaled sig)) := by
  simp only [Decodes, wifexited, wifsignaled, wifstopped, wtermsig]
  omega

theorem decodes_stopped : Decodes stopStatus .stopped := by
  simp only [Decodes, wifexited, wifsignaled, wifstopped, wstopsig, stopStatus]
  omega

/-- What the kernel encodes is read back exactly when the code fits. -/
theorem Encodes.decodes_iff {F : Int → Prop} {s : Int} {e : Event} (h : Encodes F s e) :
    Decodes s e ↔ EventFits e := by
  rcases e with (_ | code | sig) | _
  · exact absurd h id
  · rw [h.1]
    exact decodes_exited code
  · rw [h.1]
    exact iff_of_true (decodes_signaled h.2.1 h.2.2) trivial
  · rw [show s = stopStatus from h]
    exact iff_of_true decodes_stopped trivial

theorem Encodes.decodes {s : Int} {e : Event} (h : Encodes Fits s e) : Decodes s e := by
  refine h.decodes_iff.mpr ?_
  rcases e with (_ | code | sig) | _
  · trivial
  · exact h.2
  · trivial
  · trivial

/-! ### The statuses of a run -/

/-- The statuses that were handed over and those that wait for a parent encode
what happened. -/
structure StatusInv (F : Int → Prop) (k : Kernel V) : Prop where
  handed : ∀ h ∈ k.handed, Encodes F h.status h.event
  zombie : ∀ i, (k.threads i).state = .zombie →
    Encodes F (k.threads i).exitCode (.ended (k.threads i).fate)
  sigPending : ∀ i, (k.threads i).sigPending < 32

variable {F : Int → Prop} {k k' : Kernel V}

theorem StatusInv.quietTask (h : StatusInv F k) (hhanded : k'.handed = k.handed)
    (hq : ∀ i, QuietTask (k.threads i) (k'.threads i)) : StatusInv F k' := by
  refine ⟨?_, ?_, ?_⟩
  · rw [hhanded]
    exact h.handed
  · intro i hz
    obtain ⟨hz', hcode, hfate, -⟩ := (hq i).zombie hz
    rw [hcode, hfate]
    exact h.zombie i hz'
  · intro i
    exact (hq i).sigPending (h.sigPending i)

/-- The current thread ends with a status that encodes how. -/
theorem StatusInv.exitCurrent (h : StatusInv F k) {code : Int} {fate : Fate}
    (he : Encodes F code (.ended fate)) : StatusInv F (exitCurrent k code fate) := by
  refine ⟨h.handed, ?_, ?_⟩
  · intro i hz
    by_cases hi : i = k.cur
    · subst hi
      simp only [Process.exitCurrent, Kernel.setCurrent, setTask_threads, Function.update_self]
      exact he
    · simp only [Process.exitCurrent, Kernel.setCurrent, setTask_threads,
        Function.update_of_ne hi] at hz ⊢
      exact h.zombie i hz
  · intro i
    by_cases hi : i = k.cur
    · subst hi
      simp only [Process.exitCurrent, Kernel.setCurrent, setTask_threads, Function.update_self]
      exact h.sigPending k.cur
    · simp only [Process.exitCurrent, Kernel.setCurrent, setTask_threads, Function.update_of_ne hi]
      exact h.sigPending i

theorem StatusInv.takePendingSig (h : StatusInv F k) (access : Bool) (o : Outcome) :
    StatusInv F (takePendingSig k access o) :=
  h.quietTask rfl (takePendingSig_quiet k access o)

theorem StatusInv.doStop (h : StatusInv F k) : StatusInv F (doStop k) :=
  h.quietTask rfl (doStop_quiet k).task

/-- The pending signal ends the thread. -/
theorem StatusInv.dies (h : StatusInv F k) (access : Bool) (o : Outcome)
    (h0 : k.current.sigPending ≠ 0) :
    StatusInv F (Process.exitCurrent (Process.takePendingSig k access o)
      (128 + k.current.sigPending) (.signaled k.current.sigPending)) :=
  (h.takePendingSig access o).exitCurrent
    ⟨rfl, Nat.pos_of_ne_zero h0, h.sigPending k.cur⟩

theorem StatusInv.checkSignal (h : StatusInv F k) (access : Bool) :
    StatusInv F (checkSignal k access).1 :=
  checkSignal_cases h (h.takePendingSig access _).doStop fun h0 _ => h.dies access _ h0

theorem StatusInv.deliverOnReturn (h : StatusInv F k) (access : Bool) :
    StatusInv F (deliverOnReturn k access).1 :=
  deliverOnReturn_cases h (h.takePendingSig access) (h.takePendingSig access _).doStop
    fun h0 _ _ _ => h.dies access _ h0

/-- A status is handed over that encodes the event. -/
theorem StatusInv.hand (h : StatusInv F k) (i : Fin 32) {status : Int} {event : Event}
    (he : Encodes F status event) : StatusInv F (hand k i status event) := by
  refine ⟨?_, h.zombie, h.sigPending⟩
  intro d hd
  rcases List.mem_append.mp hd with hd | hd
  · exact h.handed d hd
  · obtain rfl := List.mem_singleton.mp hd
    exact he

theorem StatusInv.setTask (h : StatusInv F k) {i : Fin 32} {t : Task}
    (hq : QuietTask (k.threads i) t) : StatusInv F (k.setTask i t) :=
  h.quietTask rfl hq.setTask

/-- A thread that lived or not is dead now. -/
theorem StatusInv.setDead (h : StatusInv F k) (i : Fin 32) :
    StatusInv F (k.setTask i { k.threads i with state := .dead }) := by
  refine ⟨h.handed, ?_, ?_⟩
  · intro j hz
    by_cases hj : j = i
    · subst hj
      simp [Function.update_self] at hz
    · rw [setTask_threads, Function.update_of_ne hj] at hz ⊢
      exact h.zombie j hz
  · intro j
    by_cases hj : j = i
    · subst hj
      rw [setTask_threads, Function.update_self]
      exact h.sigPending j
    · rw [setTask_threads, Function.update_of_ne hj]
      exact h.sigPending j

theorem StatusInv.tables (h : StatusInv F k) (t : Tables V) : StatusInv F { k with tables := t } :=
  ⟨h.handed, h.zombie, h.sigPending⟩

theorem statusInv_rules (flush : RamId → V → V) (F : Int → Prop) :
    Rules flush (StatusInv F) (fun _ => True) (fun _ => True) (fun _ rdi => F (toInt32 rdi))
      (fun _ _ => True) where
  quiet hq h := h.quietTask hq.handed hq.task
  check access h _ _ := h.checkSignal access
  leave access h _ _ := h.deliverOnReturn access
  leaveFork _ _ _ := trivial
  exit h _ hF := (h.tables _).exitCurrent ⟨rfl, hF⟩
  kill h _ := h.setDead _
  fds _ h _ := h.tables _
  inherit _ h _ := h.tables _
  collect h hz := (h.hand _ (h.zombie _ hz)).setDead _
  report h _ := (h.hand _ encodes_stopped).setTask (QuietTask.of_state rfl rfl rfl rfl rfl id)

theorem boot_statusInv (F : Int → Prop) (v : V) : StatusInv F (boot v) := by
  refine ⟨fun _ hd => ?_, fun i hz => ?_, fun _ => Nat.zero_lt_succ 31⟩
  · cases hd
  · simp only [boot] at hz
    split at hz <;> cases hz

theorem stepOk_true (k : Kernel V) (a : Act) :
    StepOk (fun _ => True) (fun _ => True) (fun _ _ => True) (fun _ _ => True) k a := by
  have hexit : ∀ c, ExitOk (fun (_ : Kernel V) _ => True) k c := by
    intro c
    cases c <;> trivial
  cases a with
  | syscall c e => exact ⟨trivial, fun _ => hexit c⟩
  | resume e =>
      simp only [StepOk]
      split
      · trivial
      · exact ⟨hexit _, fun _ => trivial⟩
      · exact ⟨trivial, fun _ => hexit _⟩
      · trivial
  | kill i pick => exact fun _ _ _ => trivial
  | _ => trivial

/-- In every state of a run all statuses encode what happened. -/
theorem statusInv_run (flush : RamId → V → V) (v : V) (as : List Act) :
    StatusInv (fun _ => True) (run (step flush) (boot v) as) := by
  have hsteps := allSteps_true (step flush) (boot v) as
  exact inv_run _ (fun k a hk _ => (statusInv_rules flush _).step hk (stepOk_true k a))
    (boot_statusInv _ v) hsteps

/-- A status that a parent is handed decodes to what happened exactly when the
child did not exit with a code that does not fit; and where all codes that are
passed to `SYS_EXIT` fit, every status decodes. -/
theorem statusesDecode_run (flush : RamId → V → V) (v : V) (as : List Act) :
    (∀ h ∈ (run (step flush) (boot v) as).handed, Decodes h.status h.event ↔ EventFits h.event) ∧
    (AllSteps (step flush) CodesFit (boot v) as →
      ∀ pre, pre <+: as → StatusesDecode (run (step flush) (boot v) pre)) := by
  refine ⟨fun h hh => ((statusInv_run flush v as).handed h hh).decodes_iff, ?_⟩
  intro hrun pre hpre h hh
  have hinv := (statusInv_rules flush Fits).run (boot_statusInv Fits v) hrun hpre
  exact (hinv.handed h hh).decodes

/-- A child exits with 0 and its parent is told. -/
def exitZero : List Act :=
  forked ++ [.syscall .yield (env (some 2)), .syscall (.exit 0) (env (some 1)),
    .syscall (.wait none false false 5) (env none)]

theorem statusesDecode_run_zero :
    StatusesDecode (run (step noFlush) (boot ()) exitZero) ∧
    (run (step noFlush) (boot ()) exitZero).handed = [⟨3, 0, .ended (.exited 0)⟩] := by
  have hrun : AllSteps (step noFlush) CodesFit (boot ()) exitZero := by
    simp only [exitZero, forked, List.cons_append, List.nil_append, AllSteps, CodesFit, StepOk,
      ExitOk, Fits]
    decide +kernel
  exact ⟨(statusesDecode_run noFlush () exitZero).2 hrun _ (List.prefix_refl _), by decide +kernel⟩

/-- The 127 of a command that was not found reads as a stop. -/
theorem not_statusesDecode_127 :
    ¬ ∀ as : List Act, StatusesDecode (run (step noFlush) (boot ()) as) := by
  intro h
  have hd := h (forked ++ [.syscall .yield (env (some 2)), .syscall (.exit 127) (env (some 1)),
    .syscall (.wait none false false 5) (env none)]) ⟨3, 127, .ended (.exited 127)⟩
    (by decide +kernel)
  exact absurd ((decodes_exited 127).1 hd) (by unfold Fits; decide)

end FiFi.Process
