import FiFi.Library.StateMachine
import FiFi.Ush.Shell
import Mathlib.Data.Fintype.Card
import Mathlib.Data.List.FinRange
import Mathlib.Tactic

/-!
# Job control of the shell

A job has one of eight slots of `g_jobs`. A slot is taken by `job_alloc`, for a command
in the background or for one that Ctrl-Z has stopped, and its state then changes with
what `waitpid` reports. No step of the shell makes a slot unused again: a job that is
done keeps its slot.

A session is a list of events. The answers of `waitpid` are part of them: what it
returns, and the status it stores.
-/

namespace FiFi.Ush

open StateMachine

def jobMax : Nat := 8

inductive JobState
  | unused
  | run
  | stop
  | done
  deriving DecidableEq, Repr

structure Job where
  tid : Nat
  state : JobState
  exitCode : Int
  jobNum : Nat
  cmd : List UInt8
  deriving DecidableEq

/-- `g_jobs` and `g_job_seq`. -/
structure JobTable where
  jobs : Fin jobMax → Job
  seq : Nat

/-- What `waitpid` returns and what it stores. -/
structure Answer where
  r : Int
  status : Int

/-- `WIFSTOPPED` -/
def wifStopped (status : Int) : Bool := status % 256 = 0x7F

/-- The process is reported to have ended. -/
def Answer.Ends (a : Answer) : Prop := 0 < a.r ∧ wifStopped a.status = false

namespace JobTable

def boot : JobTable := ⟨fun _ => ⟨0, .unused, 0, 0, []⟩, 0⟩

def set (s : JobTable) (i : Fin jobMax) (j : Job) : JobTable :=
  { s with jobs := Function.update s.jobs i j }

/-- `job_alloc`: the slot, and the table with the job in it. -/
def jobAlloc (s : JobTable) (tid : Nat) (cmd : List UInt8) : Option (Fin jobMax × JobTable) :=
  ((List.finRange jobMax).find? fun i => (s.jobs i).state = .unused).map fun i =>
    (i, { s.set i ⟨tid % 2 ^ 32, .run, 0, s.seq + 1, cmd.take (lineMax - 1)⟩ with seq := s.seq + 1 })

/-- One turn of the loop of `job_poll`. -/
def pollJob (a : Answer) (j : Job) : Job :=
  match j.state with
  | .unused | .done => j
  | _ =>
      if a.r ≤ 0 then j
      else if wifStopped a.status then { j with state := .stop }
      else { j with exitCode := a.status, state := .done }

def jobPoll (s : JobTable) (answers : Fin jobMax → Answer) : JobTable :=
  { s with jobs := fun i => pollJob (answers i) (s.jobs i) }

def jobFind (s : JobTable) (num : Int) : Option (Fin jobMax) :=
  (List.finRange jobMax).find? fun i => (s.jobs i).state ≠ .unused ∧ ((s.jobs i).jobNum : Int) = num

/-- The number that `fg` and `bg` look for. A missing character of an argument is its
terminator. -/
def wanted (s : JobTable) : Option (List UInt8) → Int
  | none => s.seq
  | some arg =>
      let c := arg.headD 0
      (if c = 37 then arg.tail.headD 0 else c).toInt8.toInt - 48

/-- The builtin `fg`. -/
def fg (s : JobTable) (arg : Option (List UInt8)) (a : Answer) : JobTable :=
  match s.jobFind (s.wanted arg) with
  | none => s
  | some i =>
      let job := { s.jobs i with state := .run }
      if 0 < a.r then
        if wifStopped a.status then s.set i { job with state := .stop }
        else s.set i { job with exitCode := a.status, state := .done }
      else s.set i job

/-- The builtin `bg`. -/
def bg (s : JobTable) (arg : Option (List UInt8)) : JobTable :=
  match s.jobFind (s.wanted arg) with
  | none => s
  | some i =>
      if (s.jobs i).state = .stop then s.set i { s.jobs i with state := .run } else s

/-- The end of `ush_exec_line`, for a command in the background. -/
def background (s : JobTable) (child : Nat) (cmd : List UInt8) : JobTable :=
  (s.jobAlloc child cmd).elim s Prod.snd

/-- The end of `ush_exec_line`, for a command that the shell waits for. -/
def foreground (s : JobTable) (child : Nat) (cmd : List UInt8) (a : Answer) : JobTable :=
  if a.r < 0 then s
  else if wifStopped a.status then
    match s.jobAlloc child cmd with
    | none => s
    | some (i, s) => s.set i { s.jobs i with state := .stop }
  else s

end JobTable

inductive JobEvent
  | background (child : Nat) (cmd : List UInt8)
  | foreground (child : Nat) (cmd : List UInt8) (a : Answer)
  | poll (answers : Fin jobMax → Answer)
  | fg (arg : Option (List UInt8)) (a : Answer)
  | bg (arg : Option (List UInt8))

def jobStep (s : JobTable) : JobEvent → JobTable
  | .background child cmd => s.background child cmd
  | .foreground child cmd a => s.foreground child cmd a
  | .poll answers => s.jobPoll answers
  | .fg arg a => s.fg arg a
  | .bg arg => s.bg arg

namespace JobTable

/-! ### Slots -/

variable {s s' : JobTable} {i j : Fin jobMax}

def Used (s : JobTable) (i : Fin jobMax) : Prop := (s.jobs i).state ≠ .unused

def Active (s : JobTable) (i : Fin jobMax) : Prop :=
  (s.jobs i).state = .run ∨ (s.jobs i).state = .stop

def Done (s : JobTable) (i : Fin jobMax) : Prop := (s.jobs i).state = .done

instance (s : JobTable) : DecidablePred s.Active := fun _ => instDecidableOr

/-- The jobs that are running or stopped. -/
def active (s : JobTable) : Nat := (Finset.univ.filter s.Active).card

/-- Every slot is used, and a job is done. -/
def Short (s : JobTable) : Prop := (∀ i, s.Used i) ∧ ∃ i, s.Done i

/-- What `job_alloc` does. -/
theorem jobAlloc_eq_some {tid : Nat} {cmd : List UInt8} (h : s.jobAlloc tid cmd = some (i, s')) :
    ¬ s.Used i ∧ s'.seq = s.seq + 1 ∧ s'.jobs =
      Function.update s.jobs i ⟨tid % 2 ^ 32, .run, 0, s.seq + 1, cmd.take (lineMax - 1)⟩ := by
  obtain ⟨k, hk, hks⟩ := Option.map_eq_some_iff.1 h
  obtain ⟨rfl, rfl⟩ := Prod.mk.inj hks
  have hunused := List.find?_some hk
  exact ⟨fun hused => hused (of_decide_eq_true hunused), rfl, rfl⟩

@[simp] theorem set_self (job : Job) : (s.set i job).jobs i = job := Function.update_self _ _ _

theorem set_of_ne (h : j ≠ i) (job : Job) : (s.set i job).jobs j = s.jobs j :=
  Function.update_of_ne h _ _

/-- A step that is no `job_alloc` leaves the process and the number of a job alone, and the
job used. -/
structure Keeps (s s' : JobTable) : Prop where
  seq : s'.seq = s.seq
  used i : s'.Used i ↔ s.Used i
  num i : (s'.jobs i).jobNum = (s.jobs i).jobNum
  tid i : (s'.jobs i).tid = (s.jobs i).tid

theorem Keeps.refl (s : JobTable) : s.Keeps s := ⟨rfl, fun _ => Iff.rfl, fun _ => rfl, fun _ => rfl⟩

theorem Keeps.set (hi : s.Used i) {job : Job} (hstate : job.state ≠ .unused)
    (hnum : job.jobNum = (s.jobs i).jobNum) (htid : job.tid = (s.jobs i).tid) :
    s.Keeps (s.set i job) := by
  refine ⟨rfl, fun k => ?_, fun k => ?_, fun k => ?_⟩ <;> by_cases hk : k = i
  · subst hk
    rw [Used, set_self]
    exact iff_of_true hstate hi
  · rw [Used, set_of_ne hk, Used]
  · subst hk
    rw [set_self, hnum]
  · rw [set_of_ne hk]
  · subst hk
    rw [set_self, htid]
  · rw [set_of_ne hk]

theorem jobFind_used {num : Int} (h : s.jobFind num = some i) : s.Used i := by
  have hfound := List.find?_some h
  exact (of_decide_eq_true hfound).1

theorem keeps_jobPoll (answers : Fin jobMax → Answer) : s.Keeps (s.jobPoll answers) := by
  have hpoll : ∀ (a : Answer) (j : Job), ((pollJob a j).state ≠ .unused ↔ j.state ≠ .unused) ∧
      (pollJob a j).jobNum = j.jobNum ∧ (pollJob a j).tid = j.tid := by
    intro a j
    unfold pollJob
    split
    · exact ⟨Iff.rfl, rfl, rfl⟩
    · exact ⟨Iff.rfl, rfl, rfl⟩
    · rename_i hunused _
      split_ifs
      · exact ⟨Iff.rfl, rfl, rfl⟩
      · exact ⟨iff_of_true (by simp) hunused, rfl, rfl⟩
      · exact ⟨iff_of_true (by simp) hunused, rfl, rfl⟩
  exact ⟨rfl, fun i => (hpoll _ _).1, fun i => (hpoll _ _).2.1, fun i => (hpoll _ _).2.2⟩

theorem keeps_fg (arg : Option (List UInt8)) (a : Answer) : s.Keeps (s.fg arg a) := by
  unfold fg
  cases hfind : s.jobFind (s.wanted arg) with
  | none => exact Keeps.refl s
  | some i =>
      have hi := jobFind_used hfind
      simp only []
      split_ifs
      · exact Keeps.set hi (by simp) rfl rfl
      · exact Keeps.set hi (by simp) rfl rfl
      · exact Keeps.set hi (by simp) rfl rfl

theorem keeps_bg (arg : Option (List UInt8)) : s.Keeps (s.bg arg) := by
  unfold bg
  cases hfind : s.jobFind (s.wanted arg) with
  | none => exact Keeps.refl s
  | some i =>
      simp only []
      split_ifs
      · exact Keeps.set (jobFind_used hfind) (by simp) rfl rfl
      · exact Keeps.refl s

/-! ### Numbers -/

/-- The numbers of the jobs are different, and none is larger than `g_job_seq`. -/
structure Numbered (s : JobTable) : Prop where
  le i : s.Used i → (s.jobs i).jobNum ≤ s.seq
  inj i j : s.Used i → s.Used j → (s.jobs i).jobNum = (s.jobs j).jobNum → i = j

theorem Numbered.keeps (h : s.Numbered) (hk : s.Keeps s') : s'.Numbered where
  le i hi := by
    rw [hk.num, hk.seq]
    exact h.le i ((hk.used i).1 hi)
  inj i j hi hj hnum := by
    rw [hk.num, hk.num] at hnum
    exact h.inj i j ((hk.used i).1 hi) ((hk.used j).1 hj) hnum

theorem Numbered.jobAlloc (h : s.Numbered) {tid : Nat} {cmd : List UInt8}
    (ha : s.jobAlloc tid cmd = some (i, s')) : s'.Numbered := by
  obtain ⟨-, hseq, hjobs⟩ := jobAlloc_eq_some ha
  have hself : (s'.jobs i).jobNum = s.seq + 1 := by
    rw [hjobs, Function.update_self]
  have hother : ∀ k, k ≠ i → s'.jobs k = s.jobs k := fun k hk => by
    rw [hjobs, Function.update_of_ne hk]
  have hle : ∀ k, k ≠ i → s'.Used k → (s'.jobs k).jobNum ≤ s.seq := by
    intro k hk hu
    unfold Used at hu
    rw [hother k hk] at hu ⊢
    exact h.le k hu
  constructor
  · intro k hu
    by_cases hk : k = i
    · rw [hk, hself, hseq]
    · have := hle k hk hu
      omega
  · intro k l hu hv hnum
    by_cases hk : k = i <;> by_cases hl : l = i
    · rw [hk, hl]
    · have := hle l hl hv
      rw [← hnum, hk, hself] at this
      omega
    · have := hle k hk hu
      rw [hnum, hl, hself] at this
      omega
    · unfold Used at hu hv
      rw [hother k hk] at hu hnum
      rw [hother l hl] at hv hnum
      exact h.inj k l hu hv hnum

/-- A step that takes no slot. -/
theorem jobStep_cases (s : JobTable) (e : JobEvent) : s.Keeps (jobStep s e) ∨
    ∃ tid cmd i s', s.jobAlloc tid cmd = some (i, s') ∧ s'.Keeps (jobStep s e) := by
  cases e with
  | background child cmd =>
      cases ha : s.jobAlloc child cmd with
      | none =>
          refine Or.inl ?_
          rw [jobStep, background, ha]
          exact Keeps.refl s
      | some p =>
          refine Or.inr ⟨child, cmd, p.1, p.2, ha, ?_⟩
          rw [jobStep, background, ha]
          exact Keeps.refl p.2
  | foreground child cmd a =>
      rw [jobStep]
      unfold foreground
      split_ifs with hr hstop
      · exact Or.inl (Keeps.refl s)
      · cases ha : s.jobAlloc child cmd with
        | none => exact Or.inl (Keeps.refl s)
        | some p =>
            obtain ⟨i, s'⟩ := p
            obtain ⟨-, -, hjobs⟩ := jobAlloc_eq_some ha
            have hused : s'.Used i := by simp [Used, hjobs]
            exact Or.inr ⟨child, cmd, i, s', ha, Keeps.set hused (by simp) rfl rfl⟩
      · exact Or.inl (Keeps.refl s)
  | poll answers => exact Or.inl (keeps_jobPoll answers)
  | fg arg a => exact Or.inl (keeps_fg arg a)
  | bg arg => exact Or.inl (keeps_bg arg)

theorem Numbered.step (h : s.Numbered) (e : JobEvent) : (jobStep s e).Numbered := by
  rcases jobStep_cases s e with hk | ⟨tid, cmd, i, s', ha, hk⟩
  · exact h.keeps hk
  · exact (h.jobAlloc ha).keeps hk

/-- A job keeps its slot, its process and its number. -/
theorem jobStep_slot (e : JobEvent) (hi : s.Used i) : (jobStep s e).Used i ∧
    ((jobStep s e).jobs i).tid = (s.jobs i).tid ∧
      ((jobStep s e).jobs i).jobNum = (s.jobs i).jobNum := by
  rcases jobStep_cases s e with hk | ⟨tid, cmd, k, s', ha, hk⟩
  · exact ⟨(hk.used i).2 hi, hk.tid i, hk.num i⟩
  · obtain ⟨hfree, -, hjobs⟩ := jobAlloc_eq_some ha
    have hki : i ≠ k := fun h => hfree (h ▸ hi)
    have hsame : s'.jobs i = s.jobs i := by
      rw [hjobs, Function.update_of_ne hki]
    have hused : s'.Used i := by
      rwa [Used, hsame]
    exact ⟨(hk.used i).2 hused, (hk.tid i).trans (congrArg Job.tid hsame),
      (hk.num i).trans (congrArg Job.jobNum hsame)⟩

end JobTable
end FiFi.Ush
