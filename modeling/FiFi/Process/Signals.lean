import FiFi.Process.Rules

/-!
# Dispositions of signals

The delivery of a signal honours its disposition if it does not terminate the
process for SIGCONT, does nothing when the signal is ignored, does not terminate
a process that has a handler, and terminates it only for a signal that has its
default disposition and is neither SIGCONT nor SIGTSTP.

The delivery on the return to user mode looks at the disposition.
`thread_check_signal` does not, and it runs first in every call. So dispositions
are honoured as long as it only meets signals that it treats as it should.
-/

namespace FiFi.Process

open Fd Thread StateMachine

variable {V : Type*}

structure Honoured (d : Delivery) : Prop where
  cont : d.sig = sigCont → d.outcome ≠ .terminated
  ignored : d.handler = 1 → d.outcome ≠ .terminated ∧ d.outcome ≠ .stopped
  handled : 1 < d.handler → d.access = true → d.outcome ≠ .terminated
  terminated : d.outcome = .terminated → d.handler = 0 ∧ d.sig ≠ sigCont ∧ d.sig ≠ sigTstp

/-- Every delivery so far was honoured. -/
def DispositionsHonoured (k : Kernel V) : Prop := ∀ d ∈ k.delivered, Honoured d

/-- The pending signal of the current thread is one that `thread_check_signal`
treats as its disposition says: none, SIGTSTP that is not ignored, or another
signal but SIGCONT with its default disposition. -/
def CheckHonours (k : Kernel V) : Prop :=
  let t := k.current
  t.sigPending = 0 ∨ (t.sigPending = sigTstp ∧ t.sigHandlers t.sigPending ≠ 1) ∨
    (t.sigPending ≠ sigCont ∧ t.sigPending ≠ sigTstp ∧ t.sigHandlers t.sigPending = 0)

/-- The condition on a step: where `thread_check_signal` looks, it honours. -/
def SignalOk (k : Kernel V) (a : Act) : Prop :=
  StepOk CheckHonours (fun _ => True) (fun _ _ => True) (fun _ _ => True) k a

/-- A delivery that does not terminate or stop is always honoured. -/
theorem honoured_of_harmless {d : Delivery} (ht : d.outcome ≠ .terminated)
    (hs : d.outcome ≠ .stopped) : Honoured d :=
  ⟨fun _ => ht, fun _ => ⟨ht, hs⟩, fun _ _ => ht, fun h => absurd h ht⟩

theorem honoured_stopped {d : Delivery} (ho : d.outcome = .stopped) (hh : d.handler ≠ 1) :
    Honoured d := by
  have ht : d.outcome ≠ .terminated := by simp [ho]
  exact ⟨fun _ => ht, fun h => absurd h hh, fun _ _ => ht, fun h => absurd h ht⟩

theorem honoured_terminated {d : Delivery} (hh : d.handler = 0) (hc : d.sig ≠ sigCont)
    (ht : d.sig ≠ sigTstp) : Honoured d :=
  ⟨fun h => absurd h hc, fun h => absurd (hh.symm.trans h) (by decide),
    fun h => absurd h (by omega), fun _ => ⟨hh, hc, ht⟩⟩

/-- A change that adds one delivery to the log. -/
theorem DispositionsHonoured.append {k k' : Kernel V} {d : Delivery}
    (h : DispositionsHonoured k) (hlog : k'.delivered = k.delivered ++ [d]) (hd : Honoured d) :
    DispositionsHonoured k' := by
  intro d' hd'
  rw [hlog, List.mem_append, List.mem_singleton] at hd'
  rcases hd' with hd' | rfl
  · exact h d' hd'
  · exact hd

theorem DispositionsHonoured.same {k k' : Kernel V} (h : DispositionsHonoured k)
    (hlog : k'.delivered = k.delivered) : DispositionsHonoured k' := by
  intro d hd
  exact h d (hlog ▸ hd)

theorem DispositionsHonoured.checkSignal {k : Kernel V} (h : DispositionsHonoured k)
    (hok : CheckHonours k) (access : Bool) :
    DispositionsHonoured (checkSignal k access).1 := by
  simp only [Process.checkSignal]
  split
  · exact h
  · rename_i h0
    split
    · rename_i htstp
      have hh : k.current.sigHandlers k.current.sigPending ≠ 1 := by
        rcases hok with hp | hp | hp
        · exact absurd hp h0
        · exact hp.2
        · exact absurd htstp hp.2.1
      exact h.append rfl (honoured_stopped rfl hh)
    · rename_i htstp
      have hh : k.current.sigPending ≠ sigCont ∧ k.current.sigHandlers k.current.sigPending = 0 := by
        rcases hok with hp | hp | hp
        · exact absurd hp h0
        · exact absurd hp.1 htstp
        · exact ⟨hp.1, hp.2.2⟩
      exact h.append rfl (honoured_terminated hh.2 hh.1 htstp)

theorem DispositionsHonoured.deliverOnReturn {k : Kernel V} (h : DispositionsHonoured k)
    (access : Bool) : DispositionsHonoured (deliverOnReturn k access).1 := by
  simp only [Process.deliverOnReturn]
  split
  · exact h
  · split
    · exact h.append rfl (honoured_of_harmless (by simp) (by simp))
    · split
      · refine h.append rfl (honoured_of_harmless ?_ ?_)
        · cases access <;> simp
        · cases access <;> simp
      · rename_i hign hdfl
        have hh : k.current.sigHandlers k.current.sigPending = 0 := by omega
        split
        · exact h.append rfl (honoured_stopped rfl hign)
        · split
          · exact h.append rfl (honoured_of_harmless (by simp) (by simp))
          · rename_i htstp hcont
            exact h.append rfl (honoured_terminated hh hcont htstp)

theorem dispositionsHonoured_rules (flush : RamId → V → V) :
    Rules flush DispositionsHonoured CheckHonours (fun _ => True) (fun _ _ => True)
      (fun _ _ => True) where
  quiet hq h := h.same hq.delivered
  check access h _ hok := h.checkSignal hok access
  leave access h _ _ := h.deliverOnReturn access
  leaveFork _ _ _ := trivial
  exit h _ _ := h.same rfl
  kill h _ := h.same rfl
  fds _ h _ := h.same rfl
  inherit _ h _ := h.same rfl
  collect h _ := h.same rfl
  report h _ := h.same rfl

/-- In every run in which `thread_check_signal` meets only signals that it treats
as their dispositions say, all dispositions are honoured. -/
theorem dispositionsHonoured_run (flush : RamId → V → V) {k : Kernel V}
    (hk : DispositionsHonoured k) {as : List Act}
    (hrun : AllSteps (step flush) SignalOk k as) {pre : List Act} (hpre : pre <+: as) :
    DispositionsHonoured (run (step flush) k pre) :=
  (dispositionsHonoured_rules flush).run hk hrun hpre

theorem boot_dispositionsHonoured (v : V) : DispositionsHonoured (boot v) := by
  intro d hd
  cases hd

/-- Ctrl-C ends a child that has not changed its disposition. -/
theorem dispositionsHonoured_run_ctrlC :
    DispositionsHonoured (run (step noFlush) (boot ())
      (forked ++ [.ctrlC, .syscall .yield (env (some 2)), .syscall .other (env (some 1))])) ∧
    (run (step noFlush) (boot ()) (forked ++
      [.ctrlC, .syscall .yield (env (some 2)), .syscall .other (env (some 1))])).delivered =
      [⟨2, 0, true, .terminated⟩] := by
  have hrun : AllSteps (step noFlush) SignalOk (boot ())
      (forked ++ [.ctrlC, .syscall .yield (env (some 2)), .syscall .other (env (some 1))]) := by
    simp only [forked, List.cons_append, List.nil_append, AllSteps, SignalOk, StepOk, CheckHonours,
      ExitOk]
    decide +kernel
  exact ⟨dispositionsHonoured_run noFlush (boot_dispositionsHonoured ()) hrun (List.prefix_refl _), by decide +kernel⟩

/-- SIGCONT ends a child that was not even stopped. -/
theorem not_dispositionsHonoured_sigCont :
    ¬ ∀ as : List Act, DispositionsHonoured (run (step noFlush) (boot ()) as) := by
  intro h
  have hd := h (forked ++ [.syscall (.kill 3 18) (env none), .syscall .yield (env (some 2)),
    .syscall .other (env (some 1))]) ⟨18, 0, true, .terminated⟩ (by decide +kernel)
  exact hd.cont rfl rfl

end FiFi.Process

/-!
## Signals that share one slot

A thread has room for one pending signal. `SYS_KILL` and Ctrl-C write it whatever
is there, Ctrl-Z only when nothing is. So of the signals that are sent between two
looks at the slot the last one that `SYS_KILL` or Ctrl-C wrote is left, and a
signal that would have ended the process is gone when a harmless one follows it.

What a look does with the signal depends on where it happens:
`thread_check_signal` spares a process for SIGTSTP only, the delivery on the
return to user mode also for SIGCONT.
-/

namespace FiFi.Process

open Fd Thread StateMachine

variable {V : Type*}

/-! ### Senders -/

/-- What sends a signal. -/
inductive SigEvent
  | kill (tid : Nat) (sig : Int)
  | ctrlC
  | ctrlZ
  deriving DecidableEq, Repr

/-- The case of `SYS_KILL`. -/
def sysKill (k : Kernel V) (tid : Nat) (sig : Int) : Kernel V :=
  if sig < 0 ∨ 32 ≤ sig then k else killByTid k tid sig.toNat

def sendEvent (k : Kernel V) : SigEvent → Kernel V
  | .kill tid sig => sysKill k tid sig
  | .ctrlC => signalChildren k
  | .ctrlZ => sigtstpChildren k

/-- The signal an event sends to the thread in slot `i`. -/
def sentTo (k : Kernel V) (i : Fin 32) : SigEvent → Option Nat
  | .kill tid sig => if 0 ≤ sig ∧ sig < 32 ∧ findTid k tid = some i then some sig.toNat else none
  | .ctrlC => if Signalable (k.threads i) then some 2 else none
  | .ctrlZ => if Signalable (k.threads i) then some sigTstp else none

/-- All signals that are sent to the thread, in order. -/
def sentAll (i : Fin 32) : Kernel V → List SigEvent → List Nat
  | _, [] => []
  | k, e :: es => (sentTo k i e).toList ++ sentAll i (sendEvent k e) es

/-- The signal an event writes whatever is pending. -/
def writes (k : Kernel V) (i : Fin 32) (e : SigEvent) : Option Nat :=
  if e = .ctrlZ then none else sentTo k i e

/-- The last signal that `SYS_KILL` or Ctrl-C sent to the thread. -/
def lastWrite (i : Fin 32) : Kernel V → List SigEvent → Option Nat
  | _, [] => none
  | k, e :: es => (lastWrite i (sendEvent k e) es).or (writes k i e)

/-- A signal that terminates by default. -/
def Fatal (sig : Nat) : Prop := sig ≠ 0 ∧ sig ≠ sigCont ∧ sig ≠ sigTstp

/-! ### Looks -/

/-- The two places where a signal is looked at. -/
inductive Look
  | entry
  | return
  deriving DecidableEq, Repr

/-- The thread in slot `i` runs and looks. -/
def Look.at (look : Look) (k : Kernel V) (i : Fin 32) (access : Bool) : Kernel V × Flow :=
  match look with
  | .entry => checkSignal { k with cur := i } access
  | .return => deliverOnReturn { k with cur := i } access

/-- The signals that end a process with default dispositions there. -/
def Look.Ends : Look → Nat → Prop
  | .entry, sig => sig ≠ 0 ∧ sig ≠ sigTstp
  | .return, sig => Fatal sig

/-- The thread has ended. -/
def Terminated (i : Fin 32) (q : Kernel V × Flow) : Prop := q.2 = .exit ∧ ¬ Live (q.1.threads i)

/-- If a signal was sent that terminates by default, the process is terminated. -/
def FatalKept (look : Look) (k : Kernel V) (i : Fin 32) (es : List SigEvent) (access : Bool) :
    Prop :=
  (∃ sig ∈ sentAll i k es, Fatal sig) → Terminated i (look.at (run sendEvent k es) i access)

/-- The last signal of `SYS_KILL` or Ctrl-C ends the process, if one that terminates by
default was among them. -/
def LastEnds (look : Look) (k : Kernel V) (i : Fin 32) (es : List SigEvent) : Prop :=
  (∃ sig ∈ sentAll i k es, Fatal sig) → ∃ sig, lastWrite i k es = some sig ∧ look.Ends sig

/-! ### What an event does to the slot -/

theorem callBody_kill (flush : RamId → V → V) (k : Kernel V) (tid : Nat) (sig : Int) (e : Env) :
    callBody flush k (.kill tid sig) e = some (backToUser (sysKill k tid sig)) := by
  simp only [callBody, sysKill]
  split
  · rfl
  · rfl

@[simp] theorem wake_sigPending (t : Task) : (wake t).sigPending = t.sigPending := by
  unfold wake
  split <;> rfl

@[simp] theorem wake_sigHandlers (t : Task) : (wake t).sigHandlers = t.sigHandlers := by
  unfold wake
  split <;> rfl

/-- The slot of a thread after `thread_kill_by_tid`. -/
theorem killByTid_threads (k : Kernel V) (tid sig : Nat) (i : Fin 32) :
    ((killByTid k tid sig).threads i).sigPending =
        (if findTid k tid = some i then sig else (k.threads i).sigPending) ∧
      ((killByTid k tid sig).threads i).sigHandlers = (k.threads i).sigHandlers := by
  unfold killByTid
  cases hfind : findTid k tid with
  | none => simp
  | some j =>
      by_cases hij : i = j
      · subst hij
        simp only [setTask_threads, Function.update_self, if_true]
        split <;> simp
      · simp [Function.update_of_ne hij, Ne.symm hij]

/-- An event writes, or it is a Ctrl-Z that fills an empty slot, or it does nothing. -/
theorem sendEvent_sigPending (k : Kernel V) (i : Fin 32) (e : SigEvent) :
    ((sendEvent k e).threads i).sigPending =
      match writes k i e with
      | some sig => sig
      | none =>
          if (sentTo k i e).isSome ∧ (k.threads i).sigPending = 0 then sigTstp
          else (k.threads i).sigPending := by
  cases e with
  | kill tid sig =>
      simp only [sendEvent, sysKill, writes, sentTo, reduceCtorEq, if_false]
      by_cases hsig : sig < 0 ∨ 32 ≤ sig
      · have hno : ¬ (0 ≤ sig ∧ sig < 32 ∧ findTid k tid = some i) := by omega
        simp [hsig, hno]
      · rw [if_neg hsig, (killByTid_threads k tid sig.toNat i).1]
        by_cases hfind : findTid k tid = some i
        · have hyes : 0 ≤ sig ∧ sig < 32 := by omega
          simp [hfind, hyes]
        · simp [hfind]
  | ctrlC =>
      simp only [sendEvent, signalChildren, writes, sentTo, reduceCtorEq, if_false]
      split <;> simp
  | ctrlZ =>
      simp only [sendEvent, sigtstpChildren, writes, sentTo, if_true]
      split
      · split <;> simp_all
      · simp

theorem sendEvent_sigHandlers (k : Kernel V) (i : Fin 32) (e : SigEvent) :
    ((sendEvent k e).threads i).sigHandlers = (k.threads i).sigHandlers := by
  cases e with
  | kill tid sig =>
      simp only [sendEvent, sysKill]
      split
      · rfl
      · exact (killByTid_threads k tid sig.toNat i).2
  | ctrlC =>
      simp only [sendEvent, signalChildren]
      split
      · simp
      · rfl
  | ctrlZ =>
      simp only [sendEvent, sigtstpChildren]
      split
      · split <;> simp
      · rfl

theorem run_sigHandlers (k : Kernel V) (i : Fin 32) (es : List SigEvent) :
    ((run sendEvent k es).threads i).sigHandlers = (k.threads i).sigHandlers := by
  induction es generalizing k with
  | nil => rfl
  | cons e es ih =>
      rw [run_cons, ih]
      exact sendEvent_sigHandlers k i e

/-- What is pending after some events: the last signal that was written, or SIGTSTP of a
Ctrl-Z that found the slot empty. -/
theorem run_sigPending (k : Kernel V) (i : Fin 32) (es : List SigEvent) :
    ((run sendEvent k es).threads i).sigPending =
        (lastWrite i k es).getD (k.threads i).sigPending ∨
      (lastWrite i k es).getD (k.threads i).sigPending = 0 ∧
        ((run sendEvent k es).threads i).sigPending = sigTstp := by
  induction es generalizing k with
  | nil => exact Or.inl rfl
  | cons e es ih =>
      rw [run_cons, lastWrite]
      have hstep := sendEvent_sigPending k i e
      have hrest := ih (sendEvent k e)
      cases hlast : lastWrite i (sendEvent k e) es with
      | some sig =>
          rw [hlast] at hrest
          exact hrest
      | none =>
          rw [hlast, Option.getD_none] at hrest
          rw [Option.none_or]
          cases hwrite : writes k i e with
          | some sig =>
              rw [hwrite] at hstep
              simp only at hstep
              rw [Option.getD_some, ← hstep]
              exact hrest
          | none =>
              rw [hwrite] at hstep
              rw [Option.getD_none]
              simp only at hstep
              split at hstep
              · rename_i hempty
                rw [hstep] at hrest
                refine Or.inr ⟨hempty.2, ?_⟩
                rcases hrest with hrest | ⟨hzero, -⟩
                · exact hrest
                · exact absurd hzero (by decide)
              · rw [hstep] at hrest
                exact hrest

/-! ### What a look does -/

theorem exitCurrent_not_live (k : Kernel V) (code : Int) (fate : Fate) :
    ¬ Live ((exitCurrent k code fate).threads k.cur) := by
  simp only [exitCurrent, Kernel.setCurrent, setTask_threads, Function.update_self, Live]
  split <;> simp

/-- `thread_check_signal` ends the thread for every signal but SIGTSTP. -/
theorem terminated_checkSignal_iff (k : Kernel V) (access : Bool) :
    Terminated k.cur (checkSignal k access) ↔ Look.entry.Ends k.current.sigPending := by
  unfold Terminated checkSignal Look.Ends
  by_cases h0 : k.current.sigPending = 0
  · simp [h0]
  · by_cases htstp : k.current.sigPending = sigTstp
    · simp [htstp, sigTstp]
    · simp only [h0, htstp, if_false, ne_eq, not_false_eq_true, and_self, iff_true, true_and]
      exact exitCurrent_not_live _ _ _

/-- With default dispositions the return to user mode ends the thread for the signals
that terminate by default. -/
theorem terminated_deliverOnReturn_iff (k : Kernel V)
    (hdfl : ∀ sig, k.current.sigHandlers sig = 0) (access : Bool) :
    Terminated k.cur (deliverOnReturn k access) ↔ Look.return.Ends k.current.sigPending := by
  unfold Terminated deliverOnReturn Look.Ends Fatal
  dsimp only
  rw [hdfl]
  by_cases h0 : k.current.sigPending = 0
  · simp [h0]
  · by_cases htstp : k.current.sigPending = sigTstp
    · simp [htstp, sigTstp]
    · by_cases hcont : k.current.sigPending = sigCont
      · simp [hcont, sigTstp, sigCont]
      · simp only [h0, htstp, hcont, if_false, zero_ne_one, not_lt_zero, ne_eq, not_false_eq_true,
          and_self, iff_true, true_and]
        exact exitCurrent_not_live _ _ _

theorem terminated_look_iff (look : Look) (k : Kernel V) (i : Fin 32)
    (hdfl : ∀ sig, (k.threads i).sigHandlers sig = 0) (access : Bool) :
    Terminated i (look.at k i access) ↔ look.Ends (k.threads i).sigPending := by
  cases look with
  | entry => exact terminated_checkSignal_iff { k with cur := i } access
  | «return» => exact terminated_deliverOnReturn_iff { k with cur := i } hdfl access

theorem not_ends_zero (look : Look) : ¬ look.Ends 0 := by
  cases look <;> simp [Look.Ends, Fatal]

theorem not_ends_sigTstp (look : Look) : ¬ look.Ends sigTstp := by
  cases look <;> simp [Look.Ends, Fatal]

/-- From an empty slot: the last signal that was written decides. -/
theorem terminated_run_iff (look : Look) (k : Kernel V) (i : Fin 32) (es : List SigEvent)
    (hempty : (k.threads i).sigPending = 0) (hdfl : ∀ sig, (k.threads i).sigHandlers sig = 0)
    (access : Bool) :
    Terminated i (look.at (run sendEvent k es) i access) ↔
      ∃ sig, lastWrite i k es = some sig ∧ look.Ends sig := by
  rw [terminated_look_iff look _ i (by rw [run_sigHandlers]; exact hdfl)]
  have hpending := run_sigPending k i es
  rw [hempty] at hpending
  cases hlast : lastWrite i k es with
  | none =>
      rw [hlast, Option.getD_none] at hpending
      refine iff_of_false ?_ (by simp)
      rcases hpending with hp | ⟨-, hp⟩
      · rw [hp]
        exact not_ends_zero look
      · rw [hp]
        exact not_ends_sigTstp look
  | some sig =>
      rw [hlast, Option.getD_some] at hpending
      simp only [Option.some.injEq, exists_eq_left']
      rcases hpending with hp | ⟨rfl, hp⟩
      · rw [hp]
      · rw [hp]
        exact iff_of_false (not_ends_sigTstp look) (not_ends_zero look)

/-- For a process with default dispositions whose slot is empty, a signal that
terminates by default is kept exactly when the last signal of `SYS_KILL` or Ctrl-C ends
the process too. -/
theorem fatalKept_iff (look : Look) (k : Kernel V) (i : Fin 32) (es : List SigEvent)
    (hempty : (k.threads i).sigPending = 0) (hdfl : ∀ sig, (k.threads i).sigHandlers sig = 0)
    (access : Bool) : FatalKept look k i es access ↔ LastEnds look k i es := by
  unfold FatalKept LastEnds
  rw [terminated_run_iff look k i es hempty hdfl access]

/-- A child of the first thread, as it is after a fork: Ctrl-C, and then a Ctrl-Z that
finds the slot taken. -/
theorem fatalKept_ctrlC_ctrlZ :
    let k := (boot ()).setTask 1
      ⟨.ready, 2, 1, true, 0, 0, fun _ => 0, false, .user, .alive⟩
    FatalKept .entry k 1 [.ctrlC, .ctrlZ] true ∧
      (∃ sig ∈ sentAll 1 k [.ctrlC, .ctrlZ], Fatal sig) := by
  intro k
  have hends : LastEnds .entry k 1 [.ctrlC, .ctrlZ] := fun _ =>
    ⟨2, by decide, by decide, by decide⟩
  have hkept := (fatalKept_iff .entry k 1 [.ctrlC, .ctrlZ] rfl (fun _ => rfl) true).2 hends
  exact ⟨hkept, 2, by decide, by decide, by decide, by decide⟩

/-- SIGTERM and then SIGTSTP, both by `SYS_KILL`: the process is stopped. -/
theorem not_fatalKept_overwritten :
    ¬ ∀ es access, FatalKept .entry (run (step noFlush) (boot ()) forked) 2 es access := by
  intro h
  have hkept := h [.kill 3 15, .kill 3 19] true
    ⟨15, by decide +kernel, by decide, by decide, by decide⟩
  have hgo := hkept.1
  revert hgo
  decide +kernel

end FiFi.Process
