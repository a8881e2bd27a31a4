import FiFi.Fd.Owners
import FiFi.Process.Rules

/-!
# Descriptors of threads that have ended

Every used descriptor should belong to a thread that lives. `SYS_EXIT` closes
the descriptors of the caller before it ends it. The other ways to die do not:
`thread_check_signal` and the delivery on the return to user mode call
`thread_exit`, which knows nothing of descriptors, and `thread_kill` only marks
the slot. So a thread that dies in one of these ways must have none.
-/

namespace FiFi.Process

open Fd Thread StateMachine

variable {V : Type*}

/-- A thread with this number lives. -/
def LiveTid (k : Kernel V) (tid : Nat) : Prop := ∃ i, Live (k.threads i) ∧ (k.threads i).tid = tid

/-- Every used descriptor belongs to a thread that lives. -/
def DescriptorsOwned (k : Kernel V) : Prop := OwnedBy (LiveTid k) k.tables

/-- A thread has no descriptor. -/
def OwnsNone (k : Kernel V) (tid : Nat) : Prop :=
  ∀ i, (k.tables.fds i).used = true → (k.tables.fds i).ownerTid ≠ tid

/-- Where `thread_check_signal` looks, the current thread survives or has no
descriptor. -/
def CheckFrees (k : Kernel V) : Prop :=
  k.current.sigPending = 0 ∨ k.current.sigPending = sigTstp ∨ OwnsNone k k.current.tid

/-- The same on the return to user mode. -/
def LeaveFrees (k : Kernel V) : Prop :=
  k.current.sigPending = 0 ∨ k.current.sigHandlers k.current.sigPending ≠ 0 ∨
    k.current.sigPending = sigTstp ∨ k.current.sigPending = sigCont ∨ OwnsNone k k.current.tid

def KillFrees (k : Kernel V) (i : Fin 32) : Prop := OwnsNone k (k.threads i).tid

/-- The condition on a step: a thread that dies through a signal or through
`thread_kill` has no descriptor. -/
def DeathOk (k : Kernel V) (a : Act) : Prop :=
  StepOk CheckFrees LeaveFrees (fun _ _ => True) KillFrees k a

theorem LiveTid.quiet {k k' : Kernel V} (hq : ∀ i, QuietTask (k.threads i) (k'.threads i))
    {tid : Nat} (h : LiveTid k tid) : LiveTid k' tid := by
  obtain ⟨i, hl, ht⟩ := h
  obtain ⟨hl', ht'⟩ := (hq i).live hl
  exact ⟨i, hl', ht'.trans ht⟩

/-- Threads change quietly and the tables stay. -/
theorem DescriptorsOwned.quiet {k k' : Kernel V} (h : DescriptorsOwned k)
    (hq : ∀ i, QuietTask (k.threads i) (k'.threads i)) (ht : k'.tables = k.tables) :
    DescriptorsOwned k' := by
  unfold DescriptorsOwned
  rw [ht]
  exact h.mono fun _ hl => hl.quiet hq

/-- A thread ends that has no descriptor. -/
theorem DescriptorsOwned.ends {k k' : Kernel V} {i : Fin 32} (h : DescriptorsOwned k)
    (hthreads : ∀ j, j ≠ i → k'.threads j = k.threads j) (ht : k'.tables = k.tables)
    (hnone : OwnsNone k (k.threads i).tid) : DescriptorsOwned k' := by
  intro s hs
  rw [ht] at hs ⊢
  obtain ⟨j, hl, hj⟩ := h s hs
  have hne : j ≠ i := by
    rintro rfl
    exact hnone s hs hj.symm
  exact ⟨j, by rw [hthreads j hne]; exact hl, by rw [hthreads j hne]; exact hj⟩

theorem setTask_ne (k : Kernel V) {i j : Fin 32} (t : Task) (h : j ≠ i) :
    (k.setTask i t).threads j = k.threads j :=
  Function.update_of_ne h _ _

/-- A signal that stops the thread or is discarded ends nothing. -/
theorem DescriptorsOwned.takePendingSig {k : Kernel V} (h : DescriptorsOwned k) (access : Bool)
    (o : Outcome) : DescriptorsOwned (takePendingSig k access o) :=
  h.quiet (takePendingSig_quiet k access o) rfl

/-- A signal that ends the thread. -/
theorem DescriptorsOwned.dies {k : Kernel V} (h : DescriptorsOwned k) (access : Bool) (o : Outcome)
    (code : Int) (fate : Fate) (hnone : OwnsNone k k.current.tid) :
    DescriptorsOwned (exitCurrent (Process.takePendingSig k access o) code fate) := by
  refine h.ends (i := k.cur) ?_ rfl hnone
  intro j hj
  change Function.update (Function.update k.threads k.cur _) k.cur _ j = _
  rw [Function.update_of_ne hj, Function.update_of_ne hj]

theorem DescriptorsOwned.checkSignal {k : Kernel V} (h : DescriptorsOwned k) (hok : CheckFrees k)
    (access : Bool) : DescriptorsOwned (checkSignal k access).1 := by
  refine checkSignal_cases h ((h.takePendingSig access _).quiet (doStop_quiet _).task rfl) ?_
  intro h0 htstp
  refine h.dies access _ _ _ ?_
  rcases hok with hp | hp | hp
  · exact absurd hp h0
  · exact absurd hp htstp
  · exact hp

theorem DescriptorsOwned.deliverOnReturn {k : Kernel V} (h : DescriptorsOwned k)
    (hok : LeaveFrees k) (access : Bool) : DescriptorsOwned (deliverOnReturn k access).1 := by
  refine deliverOnReturn_cases h (h.takePendingSig access)
    ((h.takePendingSig access _).quiet (doStop_quiet _).task rfl) ?_
  intro h0 hdfl htstp hcont
  refine h.dies access _ _ _ ?_
  rcases hok with hp | hp | hp | hp | hp
  · exact absurd hp h0
  · exact absurd hdfl hp
  · exact absurd hp htstp
  · exact absurd hp hcont
  · exact hp

/-- A thread without descriptors has none after it made a child. -/
theorem LeaveFrees.doFork {k : Kernel V} (hl : Live k.current) (h : LeaveFrees k) (memory : Bool) :
    LeaveFrees (doFork k memory) := by
  obtain ⟨hcur, -, k₁, hq, hcur₁, heq⟩ := doFork_cases hl memory
  unfold LeaveFrees at h ⊢
  rw [hcur]
  rcases h with h | h | h | h | h
  · exact Or.inl h
  · exact Or.inr (Or.inl h)
  · exact Or.inr (Or.inr (Or.inl h))
  · exact Or.inr (Or.inr (Or.inr (Or.inl h)))
  · refine Or.inr (Or.inr (Or.inr (Or.inr ?_)))
    have hnone : OwnsNone k₁ k.current.tid := by
      intro i
      rw [hq.tables]
      exact h i
    rcases heq with heq | ⟨i, -, heq⟩
    · rw [heq]
      exact hnone
    · rw [heq, fdForkInherit_none hnone]
      exact hnone

theorem DescriptorsOwned.exit {k : Kernel V} (flush : RamId → V → V) (h : DescriptorsOwned k)
    (code : Int) (fate : Fate) :
    DescriptorsOwned
      (exitCurrent { k with tables := fdCloseAll flush k.tables k.current.tid } code fate) := by
  have hclosed := h.fdCloseAll flush k.current.tid
  intro s hs
  obtain ⟨⟨j, hl, hj⟩, hne⟩ := hclosed s hs
  have hji : j ≠ k.cur := by
    rintro rfl
    exact hne hj.symm
  refine ⟨j, ?_, ?_⟩
  · change Live (Function.update k.threads k.cur _ j)
    rw [Function.update_of_ne hji]
    exact hl
  · change (Function.update k.threads k.cur _ j).tid = _
    rw [Function.update_of_ne hji]
    exact hj

theorem DescriptorsOwned.fds {k : Kernel V} (flush : RamId → V → V) (h : DescriptorsOwned k)
    (hl : Live k.current) (op : FdOp) :
    DescriptorsOwned { k with tables := fdStep flush k.tables (op.call k.current.tid) } := by
  have ht : LiveTid k k.current.tid := ⟨k.cur, hl, rfl⟩
  have hkeep : OwnedBy (LiveTid k) (fdStep flush k.tables (op.call k.current.tid)) := by
    cases op with
    | pipe copyout => exact OwnedBy.sysPipe flush h ht true copyout
    | dup old => exact OwnedBy.sysDup h _ old
    | dup2 old new => exact OwnedBy.sysDup2 flush h _ true old new
    | close n => exact OwnedBy.sysClose flush h _ true n
    | «open» data size => exact OwnedBy.fdFill h ht _
    | openNull => exact OwnedBy.fdFill h ht _
    | creat rf => exact OwnedBy.fdFill h ht _
  exact hkeep

/-- A child whose status was handed over is dead, which it was before. -/
theorem DescriptorsOwned.collect {k : Kernel V} {i : Fin 32} (h : DescriptorsOwned k)
    (hz : (k.threads i).state = .zombie) (status : Int) (event : Event) :
    DescriptorsOwned ((hand k i status event).setTask i { k.threads i with state := .dead }) := by
  have hdead : ¬ Live (k.threads i) := fun hl => hl.2.2 hz
  have hq : Quiet k (k.setTask i { k.threads i with state := .dead }) :=
    Quiet.setTask (QuietTask.of_live (fun hl => absurd hl hdead) nofun
      (fun hl => absurd hl hdead) id)
  exact h.quiet hq.task rfl

theorem DescriptorsOwned.report {k : Kernel V} {i : Fin 32} (h : DescriptorsOwned k)
    (status : Int) (event : Event) :
    DescriptorsOwned
      ((hand k i status event).setTask i { k.threads i with stopReported := true }) := by
  have hq : Quiet k (k.setTask i { k.threads i with stopReported := true }) :=
    Quiet.setTask (QuietTask.of_state rfl rfl rfl rfl rfl id)
  exact h.quiet hq.task rfl

theorem DescriptorsOwned.kill {k : Kernel V} {i : Fin 32} (h : DescriptorsOwned k)
    (hok : KillFrees k i) :
    DescriptorsOwned (k.setTask i { k.threads i with state := .dead }) :=
  h.ends (fun _ hj => setTask_ne k _ hj) rfl hok

theorem DescriptorsOwned.inherit {k : Kernel V} {i : Fin 32} (h : DescriptorsOwned k) (tid : Nat)
    (hl : Live (k.threads i)) :
    DescriptorsOwned { k with tables := fdForkInherit k.tables tid (k.threads i).tid } := by
  have ht : LiveTid k (k.threads i).tid := ⟨i, hl, rfl⟩
  have hkeep : OwnedBy (LiveTid k) (fdForkInherit k.tables tid (k.threads i).tid) :=
    OwnedBy.fdForkInherit h tid ht
  intro s hs
  obtain ⟨j, hj⟩ := hkeep s hs
  exact ⟨j, hj⟩

theorem descriptorsOwned_rules (flush : RamId → V → V) :
    Rules flush DescriptorsOwned CheckFrees LeaveFrees (fun _ _ => True) KillFrees where
  quiet hq h := h.quiet hq.task hq.tables
  check access h _ hok := h.checkSignal hok access
  leave access h _ hok := h.deliverOnReturn hok access
  leaveFork memory hl hok := hok.doFork hl memory
  exit h _ _ := h.exit flush _ _
  kill h hok := h.kill hok
  fds op h hl := h.fds flush hl op
  inherit tid h hl := h.inherit tid hl
  collect h hz := h.collect hz _ _
  report h _ := h.report _ _

/-- In every run in which a thread that dies through a signal or through
`thread_kill` has no descriptor, every descriptor belongs to a thread that
lives. -/
theorem descriptorsOwned_run (flush : RamId → V → V) {k : Kernel V} (hk : DescriptorsOwned k)
    {as : List Act} (hrun : AllSteps (step flush) DeathOk k as) {pre : List Act}
    (hpre : pre <+: as) : DescriptorsOwned (run (step flush) k pre) :=
  (descriptorsOwned_rules flush).run hk hrun hpre

theorem boot_descriptorsOwned (v : V) : DescriptorsOwned (boot v) := by
  intro s hs
  cases hs

/-- A child makes a pipe and exits; its parent, which has no descriptor, is ended by
Ctrl-C. -/
def pipeThenExit : List Act :=
  forked ++ [.syscall .yield (env (some 2)), .syscall (.fds (.pipe true)) (env none),
    .syscall (.exit 0) (env (some 1)), .syscall (.kill 2 2) (env none),
    .syscall .other (env (some 0))]

theorem descriptorsOwned_run_exit :
    DescriptorsOwned (run (step noFlush) (boot ()) pipeThenExit) ∧
    ∃ i, ((run (step noFlush) (boot ()) (pipeThenExit.take 5)).tables.fds i).ownerTid = 3 := by
  have hrun : AllSteps (step noFlush) DeathOk (boot ()) pipeThenExit := by
    simp only [pipeThenExit, forked, List.cons_append, List.nil_append, AllSteps, DeathOk, StepOk,
      CheckFrees, OwnsNone, ExitOk]
    decide +kernel
  exact ⟨descriptorsOwned_run noFlush (boot_descriptorsOwned ()) hrun (List.prefix_refl _),
    by decide +kernel⟩

/-- Ctrl-C ends a child that has a pipe open. -/
theorem not_descriptorsOwned_ctrlC :
    ¬ ∀ as : List Act, DescriptorsOwned (run (step noFlush) (boot ()) as) := by
  intro h
  have hd := h (forked ++ [.syscall .yield (env (some 2)), .syscall (.fds (.pipe true)) (env none),
    .ctrlC, .syscall .other (env (some 1))])
  unfold DescriptorsOwned OwnedBy LiveTid at hd
  revert hd
  decide +kernel

end FiFi.Process
